import Rilua.Lib.Run
import Rilua.Vm.Object

/-! Taint of call frames (`vm/callinfo.rs`, `stdlib/taint.rs`, the stamping of closures in
    `vm/execute.rs`) and the guards that ask for an untainted caller (`state_is_secure` of `api.rs`,
    `table_security.rs`), with the switch of threads in between. -/

namespace Rilua.Vm

open Lib Gc

/-- A taint tag: the name of an addon. -/
abbrev Taint : Type := Option String

/-- What a secure call restores when it ends. -/
inductive SavedTaint where
  /-- `securecall`: the tags of the frames up to its own, innermost first. -/
  | chain (taints : List Taint)
  /-- `secureexecuterange`: the tag of its own frame, and the number of frames up to it. -/
  | own (taint : Taint) (depth : ℕ)

/-- The tags of a thread's live frames, innermost first, and the secure calls in progress on it. -/
structure TaintThread where
  frames : List Taint := [none]
  secured : List SavedTaint := []

/-- `stamps` are the tags of closures, `flags` the security flags of the tables that are alive, and `secrets`
    the payloads of secret wrappers. -/
structure TaintState where
  running : TaintThread := {}
  currentThread : Option (GcRef .thread) := none
  /-- The threads waiting for a resume, innermost first, each with its `saved_current_thread`. -/
  resumers : List (Option (GcRef .thread) × TaintThread) := []
  threads : GcRef .thread → Option (TaintThread × ThreadStatus) := fun _ => none
  stamps : GcRef .closure → Taint := fun _ => none
  flags : GcRef .table → Option UInt8 := fun _ => none
  secrets : GcRef .userdata → Option Val := fun _ => none

def disallowTaintedAccess : UInt8 := 1

def disallowSecretKeys : UInt8 := 2

namespace TaintThread

/-- Some live frame is tainted. -/
def isTainted (t : TaintThread) : Bool := t.frames.any Option.isSome

/-- The tag found first from the innermost frame on. -/
def activeTaint (t : TaintThread) : Taint := t.frames.findSome? id

/-- Sets the tag of the innermost frame. -/
def setTop (t : TaintThread) (taint : Taint) : TaintThread :=
  match t.frames with
  | [] => t
  | _ :: fs => { t with frames := taint :: fs }

/-- Sets the tag of the caller, or of the only frame. -/
def setCaller (t : TaintThread) (taint : Taint) : TaintThread :=
  match t.frames with
  | f :: _ :: fs => { t with frames := f :: taint :: fs }
  | [_] => { t with frames := [taint] }
  | [] => t

/-- Puts saved tags back on the outermost frames. -/
def restoreChain (frames taints : List Taint) : List Taint :=
  frames.take (frames.length - taints.length) ++ taints.drop (taints.length - frames.length)

/-- Ends the innermost secure call. -/
def endSecure (t : TaintThread) : TaintThread :=
  match t.secured with
  | [] => t
  | .chain taints :: rest => { frames := restoreChain t.frames taints, secured := rest }
  | .own taint depth :: rest =>
    { frames := t.frames.drop (t.frames.length - depth), secured := rest : TaintThread }.setTop taint

end TaintThread

inductive TaintOp where
  /-- A closure is called: its frame gets its stamp. -/
  | call (f : GcRef .closure)
  | ret
  /-- The callee takes the frame of its caller. -/
  | tailCall
  /-- An error is caught with `depth` frames left. -/
  | unwind (depth : ℕ)
  | setStackTaint (taint : Taint)
  | forceInsecure
  /-- Reading a tainted slot in taint mode. -/
  | slotRead (taint : String)
  | secureCall
  | secureRange
  /-- A secure call ends, with or without an error. -/
  | endSecure
  | setObjectTaint (f : GcRef .closure) (taint : Taint)
  /-- `CLOSURE`. -/
  | newClosure (f : GcRef .closure)
  | newTable (t : GcRef .table)
  | setTableSecurity (t : GcRef .table) (flag : UInt8)
  | create (co : GcRef .thread)
  | resume (co : GcRef .thread)
  | yield
  | finish

namespace TaintState

/-- `state_is_secure`. -/
def stateIsSecure (s : TaintState) : Bool := s.running.frames.all Option.isNone

/-- Some live frame of the running thread or of a resumer below it is tainted. -/
def chainTainted (s : TaintState) : Bool := s.running.isTainted || s.resumers.any fun r => r.2.isTainted

def isSecretValue (s : TaintState) : Val → Bool
  | .userdata u => (s.secrets u).isSome
  | _ => false

/-- `check_table_access`. -/
def checkTableAccess (s : TaintState) (t : GcRef .table) (key : Option Val) : Except String Unit :=
  match s.flags t with
  | none => .error "table has been collected"
  | some flags =>
    if flags &&& disallowTaintedAccess ≠ 0 ∧ ¬ s.stateIsSecure then .error "tainted access to secured table"
    else if flags &&& disallowSecretKeys ≠ 0 ∧ key.any s.isSecretValue then
      .error "secret key access to secured table"
    else .ok ()

/-- `ensure_secure_caller`. -/
def ensureSecureCaller (s : TaintState) : Except String Unit :=
  if s.stateIsSecure then .ok () else .error "table security operation requires an untainted caller"

/-- `set_table_security`, for the options that are a flag. -/
def setTableSecurity (s : TaintState) (t : GcRef .table) (flag : UInt8) : Except String TaintState := do
  s.ensureSecureCaller
  match s.flags t with
  | none => .error "table has been collected"
  | some flags => .ok { s with flags := Function.update s.flags t (some (flags ||| flag)) }

/-- `unwrap_secret`. `revoked` is the answer of the other half of its guard. -/
def unwrapSecret (s : TaintState) (revoked : Bool) (v : Val) : Except String Val :=
  match v with
  | .userdata u =>
    match s.secrets u with
    | none => .ok v
    | some payload =>
      if s.stateIsSecure && !revoked then .ok payload
      else .error "secret access requires an untainted caller without revoked access"
  | v => .ok v

/-- Calling `f`. -/
def call (s : TaintState) (f : GcRef .closure) : TaintState :=
  { s with running := { s.running with frames := s.stamps f :: s.running.frames } }

/-- `CLOSURE`: a closure created by a tainted chain of calls is stamped. -/
def newClosure (s : TaintState) (f : GcRef .closure) : TaintState :=
  { s with stamps := Function.update s.stamps f s.running.activeTaint }

/-- `auxresume`, up to the point where the coroutine runs. -/
def resume (s : TaintState) (co : GcRef .thread) (t : TaintThread) : TaintState :=
  { s with
    running := t
    currentThread := some co
    resumers := (s.currentThread, s.running) :: s.resumers
    threads := Function.update s.threads co (some (t, .running)) }

/-- The end of `auxresume`. -/
def leave (s : TaintState) (status : ThreadStatus) : Option TaintState :=
  match s.currentThread, s.resumers with
  | some co, (caller, t) :: rest =>
    some { s with
      running := t
      currentThread := caller
      resumers := rest
      threads := Function.update s.threads co (some (s.running, status)) }
  | _, _ => none

/-- Runs `f` on the running thread. -/
def onRunning (s : TaintState) (f : TaintThread → TaintThread) : TaintState := { s with running := f s.running }

def step (s : TaintState) : TaintOp → Option TaintState
  | .call f => some (s.call f)
  | .ret => some (s.onRunning fun t => { t with frames := t.frames.tail })
  | .tailCall => some (s.onRunning fun t =>
      match t.frames with
      | callee :: caller :: fs => { t with frames := (callee.or caller) :: fs }
      | _ => t)
  | .unwind depth => some (s.onRunning fun t => { t with frames := t.frames.drop (t.frames.length - depth) })
  | .setStackTaint taint => some (s.onRunning fun t => t.setCaller taint)
  | .forceInsecure => some (s.onRunning fun t => t.setTop (some ""))
  | .slotRead taint => some (s.onRunning fun t =>
      if (t.frames.headD none).isSome then t else t.setTop (some taint))
  | .secureCall => some (s.onRunning fun t =>
      { frames := t.frames.map fun _ => none, secured := .chain t.frames :: t.secured })
  | .secureRange => some (s.onRunning fun t =>
      { t.setTop none with secured := .own (t.frames.headD none) t.frames.length :: t.secured })
  | .endSecure => some (s.onRunning TaintThread.endSecure)
  | .setObjectTaint f taint => some { s with stamps := Function.update s.stamps f taint }
  | .newClosure f => some (s.newClosure f)
  | .newTable t => some { s with flags := Function.update s.flags t (some 0) }
  | .setTableSecurity t flag => some ((s.setTableSecurity t flag).toOption.getD s)
  | .create co =>
    if (s.threads co).isSome then none
    else some { s with threads := Function.update s.threads co (some ({}, .initial)) }
  | .resume co =>
    match s.threads co with
    | some (t, .initial) | some (t, .suspended) => some (s.resume co t)
    | _ => none
  | .yield => s.leave .suspended
  | .finish => s.leave .dead

/-! ### What the guards see -/

variable {s s' : TaintState}

/-- Coroutines are entered by untainted threads only. -/
def UntaintedResume (s : TaintState) (op : TaintOp) : Prop :=
  ∀ co, op = .resume co → s.running.isTainted = false

theorem stateIsSecure_eq (s : TaintState) : s.stateIsSecure = !s.running.isTainted := by
  simp only [stateIsSecure, TaintThread.isTainted, List.not_any_eq_all_not]
  congr 1
  funext taint
  cases taint <;> rfl

theorem activeTaint_isSome (t : TaintThread) : t.activeTaint.isSome = t.isTainted := by
  unfold TaintThread.activeTaint TaintThread.isTainted
  induction t.frames with
  | nil => rfl
  | cons taint fs ih => cases taint <;> simp [ih]

/-- Only a resume adds to the threads below. -/
theorem resumers_step {op : TaintOp} (h : s.step op = some s') :
    s'.resumers = s.resumers ∨ s'.resumers = s.resumers.tail ∨
      (∃ co, op = .resume co) ∧ s'.resumers = (s.currentThread, s.running) :: s.resumers := by
  have hleave : ∀ status, s.leave status = some s' → s'.resumers = s.resumers.tail := by
    intro status hl
    unfold leave at hl
    split at hl
    · next hres => cases hl; rw [hres]; rfl
    · cases hl
  cases op with
  | resume co =>
    unfold step at h
    dsimp only at h
    split at h
    · cases h; exact .inr (.inr ⟨⟨co, rfl⟩, rfl⟩)
    · cases h; exact .inr (.inr ⟨⟨co, rfl⟩, rfl⟩)
    · cases h
  | yield => exact .inr (.inl (hleave _ h))
  | finish => exact .inr (.inl (hleave _ h))
  | create co =>
    obtain ⟨-, h⟩ := Option.ite_none_left_eq_some.mp h
    cases h
    exact .inl rfl
  | setTableSecurity t flag =>
    cases h
    refine .inl ?_
    unfold setTableSecurity ensureSecureCaller
    split
    · cases s.flags t <;> rfl
    · rfl
  | _ => cases h; exact .inl rfl

/-- No thread below is tainted. -/
theorem run_resumers {ops : List TaintOp} (h : Run step UntaintedResume {} ops s) :
    ∀ r ∈ s.resumers, r.2.isTainted = false := by
  refine h.invariant (fun s => ∀ r ∈ s.resumers, r.2.isTainted = false) ?_ (by simp)
  intro s op s' hs hok hst
  rcases resumers_step hst with he | he | ⟨⟨co, rfl⟩, he⟩
  · rw [he]; exact hs
  · rw [he]
    intro r hr
    exact hs r (List.mem_of_mem_tail hr)
  · rw [he]
    intro r hr
    rcases List.mem_cons.mp hr with rfl | hr
    · exact hok co rfl
    · exact hs r hr

end TaintState

end Rilua.Vm
