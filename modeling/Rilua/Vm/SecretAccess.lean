import Rilua.Lib.Run
import Rilua.Vm.Object

/-! Revocation of secret access. The code keeps it in a side list of threads with the depth of their lowest
    revoked frame, pruned lazily, and in a list of resumers (`vm/state/secret_access.rs`, `push_ci` and
    `pop_ci` of `vm/state.rs`, `revoke_secret_access` of `table_security.rs`). Beside it stands what it is
    for: a flag on each frame, which lives as long as the frame. -/

namespace Rilua.Vm

open Lib Gc

/-- `Option<GcRef<LuaThread>>`: a coroutine, or the main thread. -/
abbrev ThreadKey : Type := Option (GcRef .thread)

/-- The side lists. A resumer is named with its index in the saved threads, counted from the bottom. -/
structure SecretAccessContexts where
  revoked : List (ThreadKey × ℕ) := []
  resumers : List (ℕ × ThreadKey) := []

namespace SecretAccessContexts

def prune (x : SecretAccessContexts) (current : ThreadKey) (depth : ℕ) : SecretAccessContexts :=
  { x with revoked := x.revoked.filter fun p => p.1 ≠ current ∨ p.2 ≤ depth }

def transferTail (x : SecretAccessContexts) (current : ThreadKey) (depth previous : ℕ) : SecretAccessContexts :=
  { x with revoked := x.revoked.map fun p => if p.1 = current ∧ p.2 = depth then (p.1, previous) else p }

def pushResumer (x : SecretAccessContexts) (index : ℕ) (current : ThreadKey) : SecretAccessContexts :=
  if x.revoked = [] then x else { x with resumers := x.resumers ++ [(index, current)] }

def popResumer (x : SecretAccessContexts) (index : ℕ) (current : ThreadKey) (contextEnded : Bool) :
    SecretAccessContexts where
  resumers := if x.resumers.getLast?.any fun p => p.1 = index then x.resumers.dropLast else x.resumers
  revoked := if contextEnded then x.revoked.filter fun p => p.1 ≠ current else x.revoked

/-- Lowers the depth of the first entry of `current`, or adds one. -/
def mark (current : ThreadKey) (depth : ℕ) : List (ThreadKey × ℕ) → List (ThreadKey × ℕ)
  | [] => [(current, depth)]
  | p :: ps => if p.1 = current then (p.1, min p.2 depth) :: ps else p :: mark current depth ps

end SecretAccessContexts

/-- The call stack of a thread: the current index, and `is_lua` of every slot, used or stale. -/
structure CallFrames where
  ci : ℕ := 0
  isLua : List Bool := [false]

/-- The state of the code. The saved threads and the `saved_current_thread` of the resumes in progress are
    listed innermost first. -/
structure SecretState where
  frames : CallFrames := {}
  currentThread : ThreadKey := none
  savedThreads : List CallFrames := []
  callers : List ThreadKey := []
  threads : GcRef .thread → Option (CallFrames × ThreadStatus) := fun _ => none
  contexts : Option SecretAccessContexts := none

inductive SecretOp where
  /-- A frame is pushed. -/
  | pushCi (isLua : Bool)
  /-- A frame returns. -/
  | popCi
  /-- The callee on top takes the frame of its caller, as `TAILCALL` does after `precall`. -/
  | tailCall
  /-- An error was caught by a protected call, or by the host in `call_function`. -/
  | unwind (savedCi : ℕ)
  | create (co : GcRef .thread)
  | resume (co : GcRef .thread)
  /-- The running coroutine yields, or it ends by returning or by an error. -/
  | yield
  | finish
  | revokeSecretAccess
  /-- An error reaches the host through `exec`, which leaves the call stack as it is. -/
  | execFailed
  deriving DecidableEq

/-- The saved thread with index `i`, counted from the bottom of the list. -/
def savedAt : List CallFrames → ℕ → Option CallFrames
  | [], _ => none
  | c :: cs, i => if i = cs.length then some c else savedAt cs i

namespace SecretState

def pruneSecretContexts (s : SecretState) : SecretState :=
  { s with contexts := s.contexts.map fun x => x.prune s.currentThread s.frames.ci }

def pushCi (s : SecretState) (isLua : Bool) : SecretState :=
  let s := s.pruneSecretContexts
  let i := s.frames.ci + 1
  let slots := if i < s.frames.isLua.length then s.frames.isLua.set i isLua else s.frames.isLua ++ [isLua]
  { s with frames := ⟨i, slots⟩ }

def popCi (s : SecretState) : SecretState :=
  { s with frames := { s.frames with ci := s.frames.ci - 1 } }.pruneSecretContexts

/-- The end of `TAILCALL`: `transfer_tail_secret_context` and `pop_ci`. -/
def tailCall (s : SecretState) : SecretState :=
  let contexts := s.contexts.map fun x => x.transferTail s.currentThread s.frames.ci (s.frames.ci - 1)
  { s with contexts }.popCi

def resume (s : SecretState) (co : GcRef .thread) (frames : CallFrames) : SecretState :=
  { frames
    currentThread := some co
    savedThreads := s.frames :: s.savedThreads
    callers := s.currentThread :: s.callers
    threads := Function.update s.threads co (some (frames, .running))
    contexts := s.contexts.map fun x => x.pushResumer s.savedThreads.length s.currentThread }

/-- The end of `auxresume`. -/
def leave (s : SecretState) (status : ThreadStatus) : Option SecretState :=
  match s.currentThread, s.savedThreads, s.callers with
  | some co, resumer :: saved, caller :: callers =>
    some {
      frames := resumer
      currentThread := caller
      savedThreads := saved
      callers
      threads := Function.update s.threads co (some (s.frames, status))
      contexts := s.contexts.map fun x => x.popResumer saved.length s.currentThread (status = .dead) }
  | _, _, _ => none

/-- `revoke_secret_access`; with no calling context it is an error and changes nothing. -/
def revokeSecretAccess (s : SecretState) : SecretState :=
  let target := if s.frames.isLua[s.frames.ci]?.getD false then s.frames.ci else s.frames.ci - 1
  if target = 0 then s
  else
    let x := s.contexts.getD {}
    { s with contexts := some { x with revoked := SecretAccessContexts.mark s.currentThread target x.revoked } }

def secretContextIsRevoked (s : SecretState) : Bool :=
  match s.contexts with
  | none => false
  | some x =>
    x.revoked.any fun p =>
      (p.1 = s.currentThread ∧ p.2 ≤ s.frames.ci) ∨
        x.resumers.any fun r => p.1 = r.2 ∧ (savedAt s.savedThreads r.1).any fun c => p.2 ≤ c.ci

def step (s : SecretState) : SecretOp → Option SecretState
  | .pushCi isLua => some (s.pushCi isLua)
  | .popCi => some s.popCi
  | .tailCall =>
    -- both frames belong to Lua functions
    if s.frames.isLua[s.frames.ci]? = some true ∧ s.frames.isLua[s.frames.ci - 1]? = some true then
      some s.tailCall
    else none
  | .unwind savedCi =>
    if savedCi ≤ s.frames.ci then some { s with frames := { s.frames with ci := savedCi } } else none
  | .create co =>
    if (s.threads co).isSome then none
    else some { s with threads := Function.update s.threads co (some ({}, .initial)) }
  | .resume co =>
    match s.threads co with
    | some (frames, .initial) | some (frames, .suspended) => some (s.resume co frames)
    | _ => none
  | .yield => s.leave .suspended
  | .finish => s.leave .dead
  | .revokeSecretAccess => some s.revokeSecretAccess
  | .execFailed => if s.savedThreads = [] then some s else none

end SecretState

/-! ### The flag of a frame -/

/-- A live frame with its flag. -/
structure FlagFrame where
  isLua : Bool
  revoked : Bool

/-- The live frames of the running thread and of the threads it was resumed from, innermost first, each
    ending with the sentinel. -/
structure FlagState where
  frames : List FlagFrame := [⟨false, false⟩]
  currentThread : ThreadKey := none
  resumers : List (ThreadKey × List FlagFrame) := []
  threads : GcRef .thread → Option (List FlagFrame × ThreadStatus) := fun _ => none

namespace FlagState

/-- Some live frame was the target of a revocation. -/
def isRevoked (s : FlagState) : Bool :=
  s.frames.any FlagFrame.revoked || s.resumers.any fun r => r.2.any FlagFrame.revoked

/-- Flags the frame on top if it is that of a Lua function, and its caller otherwise; the sentinel is never
    flagged. -/
def revoke : List FlagFrame → List FlagFrame
  | f :: g :: fs =>
    if f.isLua then { f with revoked := true } :: g :: fs
    else if fs = [] then f :: g :: fs
    else f :: { g with revoked := true } :: fs
  | fs => fs

def leave (s : FlagState) (status : ThreadStatus) : Option FlagState :=
  match s.currentThread, s.resumers with
  | some co, (caller, frames) :: resumers =>
    some {
      frames
      currentThread := caller
      resumers
      threads := Function.update s.threads co (some (s.frames, status)) }
  | _, _ => none

def step (s : FlagState) : SecretOp → Option FlagState
  | .pushCi isLua => some { s with frames := ⟨isLua, false⟩ :: s.frames }
  | .popCi =>
    match s.frames with
    | _ :: g :: fs => some { s with frames := g :: fs }
    | _ => some s
  | .tailCall =>
    match s.frames with
    | f :: g :: fs =>
      if f.isLua ∧ g.isLua then some { s with frames := ⟨g.isLua, f.revoked || g.revoked⟩ :: fs } else none
    | _ => none
  | .unwind savedCi =>
    -- the frames above the protected call exit
    if savedCi < s.frames.length then
      some { s with frames := s.frames.drop (s.frames.length - (savedCi + 1)) }
    else none
  | .create co =>
    if (s.threads co).isSome then none
    else some { s with threads := Function.update s.threads co (some ([⟨false, false⟩], .initial)) }
  | .resume co =>
    match s.threads co with
    | some (frames, .initial) | some (frames, .suspended) =>
      some {
        frames
        currentThread := some co
        resumers := (s.currentThread, s.frames) :: s.resumers
        threads := Function.update s.threads co (some (frames, .running)) }
    | _ => none
  | .yield => s.leave .suspended
  | .finish => s.leave .dead
  | .revokeSecretAccess => some { s with frames := revoke s.frames }
  | .execFailed => if s.resumers = [] then some { s with frames := [⟨false, false⟩] } else none

end FlagState

end Rilua.Vm
