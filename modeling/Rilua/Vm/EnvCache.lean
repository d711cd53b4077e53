import Rilua.Vm.HostCalls

/-! The environment in the interpreter loop. `execute_inner` reads the environment of its function into a local when
    it enters a frame, after a call, and when it goes on in a frame below one that has returned. `GETGLOBAL`,
    `SETGLOBAL` and `CLOSURE` use the local. What a metamethod, an iterator, a hook or a finalizer does to the
    environment of the function is not seen until the local is read again. -/

namespace Rilua.Vm

open Lib Gc LuaState

/-! ### The local of the loop -/

/-- The environment of a Lua function. -/
def Gc.envOf (g : Gc) (r : GcRef .closure) : Option (GcRef .table) :=
  match g.heap.get r with
  | some (.lua cl) => some cl.env
  | _ => none

/-- The locals `closure_ref` and `env` of `execute_inner`. -/
structure EnvCache where
  closure : GcRef .closure
  env : GcRef .table
  deriving DecidableEq

/-- `execute_inner` enters the current frame. That there is a Lua function, which it checks, was seen by `precall`. -/
def enterFrame (s : LuaState) : Option EnvCache :=
  match s.stackGet (s.callInfo s.ci).func with
  | .function r => (s.gc.envOf r).map fun env => ⟨r, env⟩
  | _ => none

/-- How many interpreter loops are in progress. -/
def loops : List ControlFrame → ℕ
  | [] => 0
  | .execute _ :: ns => loops ns + 1
  | _ :: ns => loops ns

namespace Control

/-- The dispatch loop is left to enter a frame: after `CALL`, a `TAILCALL` of a Lua function, and `RETURN`. After a
    `TAILCALL` of a native function the loop goes on. -/
def reenters (m : Control) (op : ControlOp) (m' : Control) : Bool :=
  match op, m.native, m'.native with
  | .call .., _, .execute _ :: _ | .tailCall .., _, .execute _ :: _ | .ret .., _, .execute _ :: _ => m'.raised.isNone
  | .retRust _, .opCall _ :: _, _ => true
  | _, _, _ => false

end Control

/-- The machine with the locals of its interpreter loops, innermost first. -/
structure EnvControl where
  m : Control
  caches : List EnvCache := []

inductive EnvOp where
  /-- A step of the machine. -/
  | step (op : ControlOp)
  /-- `set_func_env`, called by a native function. -/
  | setFuncEnv (closure : GcRef .closure) (env : GcRef .table)

/-- What a step to `m'` does to the locals. -/
def nextCaches (m : Control) (op : ControlOp) (m' : Control) (caches : List EnvCache) : Option (List EnvCache) :=
  if loops m.native < loops m'.native then (enterFrame m'.st).map (· :: caches)
  else if loops m'.native < loops m.native then some caches.tail
  else if m.reenters op m' then (enterFrame m'.st).map (· :: caches.tail)
  else some caches

/-- `set_func_env`. -/
def setFuncEnv (m : Control) (closure : GcRef .closure) (env : GcRef .table) : Control :=
  match m.st.gc.heap.get closure with
  | some (.lua cl) =>
    { m with st := { m.st with gc := m.st.gc.modify closure fun _ => .lua { cl with env } } }
  | _ => m.raise

/-- The locals that a loop goes on with: `b` tells whether what is above returns. Those of a loop that waits for a
    function called by `CALL` are not among them, nor those of a loop that an error leaves. -/
def liveIn : Bool → List ControlFrame → List EnvCache → List EnvCache
  | _, [], _ => []
  | b, .execute _ :: ns, cs => (if b then cs.head?.toList else []) ++ liveIn true ns cs.tail
  | _, .opCall _ :: ns, cs => liveIn false ns cs
  | b, .opTailCall :: ns, cs | b, .callee :: ns, cs => liveIn b ns cs
  | _, .site .. :: ns, cs => liveIn true ns cs

namespace EnvControl

def step (e : EnvControl) : EnvOp → Option EnvControl
  | .step op => do
    let m' ← e.m.step op
    let caches ← nextCaches e.m op m' e.caches
    some { m := m', caches }
  | .setFuncEnv closure env =>
    match e.m.raised, e.m.native with
    | some _, _ | _, [] | _, .execute _ :: _ | _, .site .. :: _ => none
    | none, _ => some { e with m := setFuncEnv e.m closure env }

/-- The locals of the loop that is about to execute an instruction. `GETGLOBAL` and `SETGLOBAL` access the table
    `env`, and `CLOSURE` gives it to the new function. -/
def running (e : EnvControl) : Option EnvCache :=
  match e.m.raised, e.m.native with
  | none, .execute _ :: _ => e.caches.head?
  | _, _ => none

/-- The instruction uses the environment that the function has. -/
def EnvCurrent (e : EnvControl) : Prop := ∀ c ∈ e.running, e.m.st.gc.envOf c.closure = some c.env

def live (e : EnvControl) : List EnvCache := liveIn e.m.raised.isNone e.m.native e.caches

/-- Nothing but `set_func_env` changes the environment of a function in progress, which the collector keeps. -/
def Sound (e : EnvControl) : EnvOp → Prop
  | .step (.heap g) => ∀ c ∈ e.live, g.envOf c.closure = e.m.st.gc.envOf c.closure
  | _ => True

/-- No loop goes on with the old environment of the function. -/
def Seen (e : EnvControl) : EnvOp → Prop
  | .setFuncEnv closure env => ∀ c ∈ e.live, c.closure = closure → c.env = env
  | _ => True

end EnvControl

variable {m m' : Control} {s s' : LuaState} {op : ControlOp} {k : Site} {pos : ℕ} {wanted : Option ℕ}
  {saved : SavedCall} {ns : List ControlFrame} {f : ControlFrame} {c c₀ : EnvCache} {cs : List EnvCache}

/-! ### The locals in use -/

theorem mem_liveIn_true {b : Bool} : ∀ {ns : List ControlFrame} {cs : List EnvCache},
    c ∈ liveIn b ns cs → c ∈ liveIn true ns cs := by
  intro ns
  induction ns with
  | nil => exact id
  | cons f ns ih =>
    intro cs h
    cases f with
    | execute n =>
      rw [liveIn] at h ⊢
      rcases List.mem_append.mp h with hhead | htail
      · cases b with
        | true => exact List.mem_append_left _ hhead
        | false => simp at hhead
      · exact List.mem_append_right _ htail
    | opCall => exact h
    | opTailCall | callee => exact ih h
    | site => exact h

/-- Reading the locals of the innermost loop again replaces one entry. -/
theorem mem_liveIn_reenter {b d : Bool} : ∀ {ns : List ControlFrame} {cs : List EnvCache},
    c ∈ liveIn b ns (c₀ :: cs.tail) → c = c₀ ∨ c ∈ liveIn d ns cs := by
  intro ns
  induction ns generalizing b d with
  | nil => exact fun h => absurd h (List.not_mem_nil)
  | cons f ns ih =>
    intro cs h
    cases f with
    | execute n =>
      rw [liveIn] at h ⊢
      rcases List.mem_append.mp h with hhead | htail
      · cases b with
        | true => exact .inl (by simpa using hhead)
        | false => simp at hhead
      · exact .inr (List.mem_append_right _ htail)
    | opCall | opTailCall | callee | site => exact ih h

/-- The functions are the same. -/
def SameClosures (s s' : LuaState) : Prop := ∀ r : GcRef .closure, s'.gc.heap.get r = s.gc.heap.get r

namespace SameClosures

theorem refl (s : LuaState) : SameClosures s s := fun _ => rfl

theorem trans {s'' : LuaState} (h : SameClosures s s') (h' : SameClosures s' s'') : SameClosures s s'' :=
  fun r => (h' r).trans (h r)

theorem envOf (h : SameClosures s s') (r : GcRef .closure) : s'.gc.envOf r = s.gc.envOf r := by
  rw [Gc.envOf, Gc.envOf, h r]

theorem pushAll (vs : List Val) : ∀ s : LuaState, SameClosures s (s.pushAll vs) := by
  induction vs with
  | nil => exact refl
  | cons v vs ih => exact fun s => trans (fun _ => rfl) (ih (s.push v))

theorem closeFrom (level : ℕ) (rs : List (GcRef .upvalue)) :
    ∀ s : LuaState, SameClosures s (LuaState.closeFrom level rs s) := by
  induction rs with
  | nil => exact fun s _ => rfl
  | cons r rs ih =>
    intro s
    rw [LuaState.closeFrom]
    split_ifs
    · have hclose : SameClosures s (s.closeUpvalue r) := fun r' => get_modify_ne (by decide) s.gc r _ r'
      exact hclose.trans (ih _)
    · exact fun _ => rfl

theorem closeUpvalues (s : LuaState) (level : ℕ) : SameClosures s (s.closeUpvalues level) :=
  closeFrom level s.openUpvalues s

theorem closeAll (ps : List (GcRef .upvalue × ℕ)) : ∀ s : LuaState, SameClosures s (s.closeAll ps) := by
  induction ps with
  | nil => exact refl
  | cons p ps ih =>
    intro s
    have hclose : SameClosures s { s with gc := s.gc.modify p.1 fun uv => Upvalue.close uv s.stack } :=
      fun r => get_modify_ne (by decide) s.gc p.1 _ r
    exact hclose.trans (ih _)

theorem foldl_reopen (ps : List (GcRef .upvalue × ℕ)) : ∀ s : LuaState, SameClosures s (ps.foldl reopen s) := by
  induction ps with
  | nil => exact refl
  | cons p ps ih =>
    intro s
    have hopen : SameClosures s (s.reopen p) := fun r => get_modify_ne (by decide) s.gc p.1 _ r
    exact hopen.trans (ih _)

theorem findUpvalue {idx : ℕ} {r : GcRef .upvalue} (h : s.findUpvalue idx = some (s', r)) : SameClosures s s' := by
  obtain rfl | ⟨gc, -, halloc, rfl⟩ := findUpvalue_cases h
  · exact refl _
  · rw [Gc.allocUpvalue, Gc.alloc, Option.bind_eq_bind, Option.bind_eq_some_iff] at halloc
    obtain ⟨⟨heap, r₀⟩, hheap, hgc⟩ := halloc
    cases hgc
    intro r'
    change heap.get r' = s.gc.heap.get r'
    rw [Heap.get, Heap.arena_alloc_ne hheap (by decide), Heap.get]

theorem setUpvalue (s : LuaState) (r : GcRef .upvalue) (v : Val) : SameClosures s (s.setUpvalue r v) := by
  rw [LuaState.setUpvalue]
  split
  · exact fun r' => get_modify_ne (by decide) s.gc r _ r'
  · exact refl s

theorem copyParams (n : ℕ) : ∀ (src : ℕ) (s : LuaState), SameClosures s (LuaState.copyParams src n s) := by
  induction n with
  | zero => exact fun _ s => refl s
  | succ n ih => exact fun src s => trans (fun _ => rfl) (ih (src + 1) _)

theorem relocate (p : Proto) (fixed : ℕ) (arg : Option (GcRef .table)) : SameClosures s (s.relocate p fixed arg).1 := by
  have hcopy := copyParams p.numParams.toNat fixed (s.ensureStackLen (s.top + p.numParams.toNat + 1))
  cases arg with
  | none => exact hcopy
  | some r => exact hcopy.trans fun _ => rfl

theorem enterLua {cl : LuaClosure} (h : s.enterLua cl pos wanted = some s') : SameClosures s s' := by
  rw [LuaState.enterLua] at h
  obtain ⟨⟨t, newBase⟩, hadj, rfl⟩ := Option.map_eq_some_iff.mp h
  have hsame : SameClosures s t := by
    split_ifs at hadj
    · obtain ⟨-, hgc, -, -⟩ := padNil_spec (cl.proto.numParams.toNat - s.getNargs pos) s
      rw [adjustVarargs] at hadj
      obtain ⟨⟨gc, arg⟩, harg, heq⟩ := Option.map_eq_some_iff.mp hadj
      obtain rfl : _ = t := congrArg Prod.fst heq
      refine trans ?_ (relocate _ _ arg)
      intro r
      change gc.heap.get r = s.gc.heap.get r
      rw [Heap.get, arena_argTableOf harg (by decide) (by decide), hgc, Heap.get]
    · obtain rfl : _ = t := congrArg Prod.fst (Option.some.inj hadj)
      rw [adjustFixed]
      split_ifs <;> exact fun _ => rfl
  refine hsame.trans ?_
  simp only [pushFrame]
  split_ifs <;> exact fun _ => rfl

theorem precall {res : CallResult} (h : s.precall pos wanted = .ok (s', res)) : SameClosures s s' := by
  rw [LuaState.precall] at h
  split_ifs at h
  cases hres : s.resolveCallee pos with
  | error e => simp [hres] at h
  | ok x =>
    obtain ⟨t, r⟩ := x
    have hcallee : SameClosures s t := by
      rw [resolveCallee] at hres
      split at hres
      · cases hres
        exact refl s
      · split at hres
        · cases hres
          exact fun _ => rfl
        · cases hres
    simp only [hres] at h
    split at h
    · cases h
    · split at h
      · rename_i hlua
        cases h
        exact hcallee.trans (enterLua hlua)
      · cases h
    · cases h
      exact hcallee.trans fun _ => rfl

theorem poscall (s : LuaState) (first : ℕ) : SameClosures s (s.poscall first).1 := by
  rw [LuaState.poscall]
  split <;> exact fun _ => rfl

theorem restoreTop (h : SameClosures s s') (p : Prop) [Decidable p] :
    SameClosures s (if p then s'.restoreTop else s') := by
  split_ifs
  · exact h
  · exact h

theorem openReturn (s : LuaState) (a b : ℕ) : SameClosures s (s.openReturn a b) := by
  rw [LuaState.openReturn]
  split_ifs
  · exact closeUpvalues s s.base
  · exact closeUpvalues s s.base

theorem openCall (s : LuaState) (pc a b : ℕ) : SameClosures s (s.openCall pc a b) := by
  rw [LuaState.openCall]
  split_ifs <;> exact fun _ => rfl

theorem opVarArg (s : LuaState) (proto : Proto) (a b : ℕ) : SameClosures s (s.opVarArg proto a b) := by
  have hcopy : ∀ (n src dst avail : ℕ) (t : LuaState), SameClosures t (copyVarargs n src dst avail t) := by
    intro n
    induction n with
    | zero => exact fun _ _ _ t => refl t
    | succ n ih => exact fun src dst avail t => trans (fun _ => rfl) (ih _ _ _ _)
  rw [LuaState.opVarArg]
  split_ifs
  · exact hcopy _ _ _ _ _
  · exact hcopy _ _ _ _ _

theorem swapIn {co : GcRef .thread} {t : LuaThread} (h : s.gc.heap.get co = some t) : SameClosures s (s.swapIn co) := by
  have hclose := closeAll s.openPairs s
  have hload : SameClosures (s.closeAll s.openPairs) ((s.closeAll s.openPairs).loadThreadByRef co .running) := by
    rw [loadThreadByRef, ((closeAll_sameFrames s.openPairs s).threads co).trans h]
    have hshell : SameClosures (s.closeAll s.openPairs) { s.closeAll s.openPairs with
        toThreadFields := t.toThreadFields
        gc := (s.closeAll s.openPairs).gc.modify co fun _ => shell t .running } :=
      fun r => get_modify_ne (by decide) (s.closeAll s.openPairs).gc co _ r
    exact hshell.trans (foldl_reopen t.suspendedUpvals _)
  exact hclose.trans hload

theorem swapOut {co : GcRef .thread} {caller : Option (GcRef .thread)} {status : ThreadStatus}
    (h : s.swapOut co caller status = some s') : SameClosures s s' := by
  obtain ⟨resumer, ts, -, rfl⟩ := swapOut_eq h
  have hstored : SameClosures s (s.stored co status resumer.toThreadFields) :=
    (closeAll s.openPairs s).trans fun r => get_modify_ne (by decide) (s.closeAll s.openPairs).gc co _ r
  exact hstored.trans (foldl_reopen resumer.suspendedUpvals _)

end SameClosures

/-! ### What a step does to the locals -/

/-- The locals `cs` that are in use in `m`. -/
def Control.liveOf (m : Control) (cs : List EnvCache) : List EnvCache := liveIn m.raised.isNone m.native cs

/-- What one step does: the loops stay, one of them enters a frame, or one is entered or left. -/
inductive Move (m : Control) (op : ControlOp) (m' : Control) : Prop
  | keep (hloops : loops m'.native = loops m.native) (hre : m.reenters op m' = false)
      (hlive : ∀ cs c, c ∈ m'.liveOf cs → c ∈ m.liveOf cs)
  | reenter (hloops : loops m'.native = loops m.native) (hre : m.reenters op m' = true)
      (hlive : ∀ cs c₀ c, c ∈ m'.liveOf (c₀ :: cs.tail) → c = c₀ ∨ c ∈ m.liveOf cs)
  | enter (hloops : loops m'.native = loops m.native + 1)
      (hlive : ∀ cs c₀ c, c ∈ m'.liveOf (c₀ :: cs) → c = c₀ ∨ c ∈ m.liveOf cs)
  | leave (hloops : loops m.native = loops m'.native + 1) (hlive : ∀ cs c, c ∈ m'.liveOf cs.tail → c ∈ m.liveOf cs)

/-- A site calls a function on top of `m₁`. -/
theorem Move.of_enter {m₁ : Control} (he : m₁.enter k pos wanted saved = some m')
    (hloops : loops m₁.native = loops m.native) (hlive : ∀ cs c, c ∈ liveIn true m₁.native cs → c ∈ m.liveOf cs)
    (hre : ∀ m', m.reenters op m' = false) : Move m op m' ∧ SameClosures m₁.st m'.st := by
  have hcount : SameClosures m₁.st (m₁.st.enterCount k) := fun _ => rfl
  rw [Control.enter] at he
  split_ifs at he
  · cases he
    exact ⟨.keep hloops (hre _) hlive, hcount⟩
  · split at he
    · rename_i hcall
      cases he
      refine ⟨.enter (congrArg (· + 1) hloops) fun cs c₀ c hc => ?_, hcount.trans (.precall hcall)⟩
      rcases List.mem_cons.mp hc with rfl | hbelow
      · exact .inl rfl
      · exact .inr (hlive cs c hbelow)
    · rename_i hcall
      cases he
      exact ⟨.keep hloops (hre _) hlive, hcount.trans (.precall hcall)⟩
    · cases he
    · rename_i e _ _
      cases he
      refine ⟨.keep hloops (hre _) hlive, ?_⟩
      cases e <;> exact fun _ => rfl

/-- Code that runs calls a function from a site. -/
theorem Move.callSite {m₁ : Control} (he : m₁.enter k pos wanted saved = some m') (hn : m₁.native = m.native)
    (hr : m.raised = none) (hst : SameClosures m.st m₁.st) (hre : ∀ m', m.reenters op m' = false) :
    Move m op m' ∧ SameClosures m.st m'.st := by
  have hlive : ∀ cs c, c ∈ liveIn true m₁.native cs → c ∈ m.liveOf cs := by
    intro cs c hc
    rw [Control.liveOf, hr, ← hn]
    exact hc
  obtain ⟨hmove, hsame⟩ := Move.of_enter he (by rw [hn]) hlive hre
  exact ⟨hmove, hst.trans hsame⟩

theorem Move.callAtTop {m₁ : Control} {vs : List Val} (he : m₁.callAtTop k vs wanted = some m')
    (hn : m₁.native = m.native) (hr : m.raised = none) (hst : SameClosures m.st m₁.st)
    (hre : ∀ m', m.reenters op m' = false) : Move m op m' ∧ SameClosures m.st m'.st :=
  Move.callSite he hn hr (hst.trans (.pushAll vs m₁.st)) hre

/-- Code goes on, or has failed. -/
theorem Move.same (hn : m'.native = m.native) (hr : m.raised = none) (hre : m.reenters op m' = false) :
    Move m op m' := by
  refine .keep (by rw [hn]) hre fun cs c hc => ?_
  rw [Control.liveOf, hn] at hc
  rw [Control.liveOf, hr]
  exact mem_liveIn_true hc

theorem Move.commonStep (hr : m.raised = none) (hop : ∀ g, op ≠ .heap g) (he : m.commonStep op = some m') :
    Move m op m' ∧ SameClosures m.st m'.st := by
  rw [Control.commonStep.eq_def] at he
  cases op with
  | write i v =>
    cases he
    exact ⟨.same rfl hr rfl, fun _ => rfl⟩
  | heap g => exact absurd rfl (hop g)
  | setUpval r v =>
    cases he
    exact ⟨.same rfl hr rfl, .setUpvalue m.st r v⟩
  | fail =>
    cases he
    exact ⟨.same rfl hr rfl, .refl m.st⟩
  | hook event line => exact Move.callAtTop he rfl hr (fun _ => rfl) fun _ => rfl
  | finalizer gcFn ud => exact Move.callAtTop he rfl hr (.refl m.st) fun _ => rfl
  | _ => cases he

/-- A frame that is not of a loop is popped, or pushed over the running code. -/
theorem Move.of_loops (op : ControlOp) (fs : List ControlFrame) {b : Bool} (hn : m.native = f :: ns)
    (hr : m.raised = none) (hfs : ∀ cs c, c ∈ liveIn true fs cs → c ∈ liveIn true (f :: ns) cs) (hloops : loops fs = loops (f :: ns))
    {st : LuaState} (hre : m.reenters op { st, native := fs, openList := b } = false) :
    Move m op { st, native := fs, openList := b } := by
  refine .keep (by rw [hn]; exact hloops) hre fun cs c hc => ?_
  rw [Control.liveOf, hr, hn]
  exact hfs cs c hc

/-- A loop reads its locals again. -/
theorem Move.of_reenter {ns' : List ControlFrame} {b : Bool} {st : LuaState} (hr : m.raised = none)
    (hlive : ∀ {cs c}, c ∈ liveIn false ns' cs → c ∈ liveIn true m.native cs) (hloops : loops ns' = loops m.native)
    (hre : m.reenters op { st, native := ns', openList := b } = true) :
    Move m op { st, native := ns', openList := b } := by
  refine .reenter hloops hre fun cs c₀ c hc => ?_
  rcases mem_liveIn_reenter (d := false) hc with heq | hold
  · exact .inl heq
  · rw [Control.liveOf, hr]
    exact .inr (hlive hold)

theorem Move.opCall {n pc a b c : ℕ} (hn : m.native = .execute n :: ns) (hr : m.raised = none)
    (he : m.opCall n ns pc a b c = some m') : Move m (.call pc a b c) m' ∧ SameClosures m.st m'.st := by
  have hopen := SameClosures.openCall m.st pc a b
  rw [Control.opCall] at he
  split at he
  · rename_i hcall
    cases he
    refine ⟨.of_reenter hr ?_ (by rw [hn]; rfl) rfl, hopen.trans (.precall hcall)⟩
    intro cs c hc
    rw [hn]
    exact List.mem_append_right _ hc
  · rename_i hcall
    cases he
    refine ⟨.of_loops _ (.opCall c :: .execute n :: ns) hn hr ?_ rfl rfl, hopen.trans (.precall hcall)⟩
    intro cs c hc
    exact List.mem_append_right _ hc
  · cases he
  · rename_i e _ _
    cases he
    refine ⟨.same rfl hr ?_, hopen.trans ?_⟩
    · simp only [Control.reenters, hn]
      rfl
    · cases e <;> exact fun _ => rfl

theorem Move.opTailCall {n pc a b : ℕ} (hn : m.native = .execute n :: ns) (hr : m.raised = none)
    (he : m.opTailCall n ns pc a b = some m') : Move m (.tailCall pc a b) m' ∧ SameClosures m.st m'.st := by
  have hopen := SameClosures.openCall m.st pc a b
  rw [Control.opTailCall] at he
  split at he
  · rename_i st _ hcall
    cases he
    have hclose := SameClosures.closeUpvalues st (st.callInfo (st.ci - 1)).base
    refine ⟨.of_reenter hr ?_ (by rw [hn]) rfl, (hopen.trans (.precall hcall)).trans hclose⟩
    intro cs c hc
    rw [hn]
    exact mem_liveIn_true hc
  · rename_i hcall
    cases he
    exact ⟨.of_loops _ (.opTailCall :: .execute n :: ns) hn hr (fun _ _ => id) rfl rfl, hopen.trans (.precall hcall)⟩
  · cases he
  · rename_i e _ _
    cases he
    refine ⟨.same rfl hr ?_, hopen.trans ?_⟩
    · simp only [Control.reenters, hn]
      rfl
    · cases e <;> exact fun _ => rfl

theorem Move.opReturn {n : ℕ} (hn : m.native = .execute n :: ns) (hr : m.raised = none) (a b : ℕ) :
    Move m (.ret a b) (m.opReturn n ns a b) ∧ SameClosures m.st (m.opReturn n ns a b).st := by
  have hsame := (SameClosures.openReturn m.st a b).trans (.poscall _ (m.st.base + a))
  rw [Control.opReturn]
  split_ifs
  · refine ⟨.leave (by rw [hn]; rfl) fun cs c hc => ?_, hsame⟩
    rw [Control.liveOf, hr, hn]
    exact List.mem_append_right _ (mem_liveIn_true hc)
  · refine ⟨.of_reenter hr ?_ (by rw [hn]; rfl) rfl, hsame.restoreTop _⟩
    intro cs c hc
    rw [hn]
    exact mem_liveIn_true hc

theorem Move.opReturnRust {n : ℕ} (hn : m.native = f :: ns) (hr : m.raised = none)
    (he : m.opReturnRust ns n f = some m') : Move m (.retRust n) m' ∧ SameClosures m.st m'.st := by
  have hsame := SameClosures.poscall m.st (m.st.top - n)
  cases f with
  | opCall c =>
    rw [Control.opReturnRust] at he
    cases he
    refine ⟨.of_reenter hr ?_ (by rw [hn]; rfl) (by simp [Control.reenters, hn]), hsame.restoreTop _⟩
    intro cs c hc
    rw [hn]
    exact hc
  | opTailCall =>
    cases he
    exact ⟨.of_loops (.retRust n) ns hn hr (fun _ _ => id) rfl (by simp [Control.reenters, hn]), hsame⟩
  | callee =>
    cases he
    exact ⟨.of_loops (.retRust n) ns hn hr (fun _ _ => id) rfl (by simp [Control.reenters, hn]), hsame⟩
  | execute | site => cases he

theorem Move.luaStep {n : ℕ} (hn : m.native = .execute n :: ns) (hr : m.raised = none) (hop : ∀ g, op ≠ .heap g)
    (he : m.luaStep n ns op = some m') : Move m op m' ∧ SameClosures m.st m'.st := by
  unfold Control.luaStep at he
  cases op with
  | call pc a b c => exact Move.opCall hn hr he
  | tailCall pc a b => exact Move.opTailCall hn hr he
  | ret a b =>
    cases he
    exact Move.opReturn hn hr a b
  | varArg a b =>
    obtain ⟨proto, -, rfl⟩ := Option.map_eq_some_iff.mp he
    exact ⟨.same rfl hr rfl, .opVarArg m.st proto a b⟩
  | setList b =>
    cases he
    exact ⟨.same rfl hr rfl, (SameClosures.refl m.st).restoreTop _⟩
  | tforloop pc a c => exact Move.callSite he rfl hr (fun _ => rfl) fun _ => rfl
  | capture a =>
    obtain ⟨⟨st, r⟩, hfind, rfl⟩ := Option.map_eq_some_iff.mp he
    exact ⟨.same rfl hr rfl, .findUpvalue hfind⟩
  | close a =>
    cases he
    exact ⟨.same rfl hr rfl, .closeUpvalues m.st (m.st.base + a)⟩
  | tmRes | tmVoid | orderTm => exact Move.callAtTop he rfl hr (.refl m.st) fun _ => rfl
  | returnHook instr event =>
    cases instr with
    | none => exact Move.commonStep hr hop he
    | some x => exact Move.callAtTop he rfl hr (.openReturn m.st x.1 x.2) fun _ => rfl
  | _ => exact Move.commonStep hr hop he

/-- A resume enters a loop, or goes on in the frames of the coroutine. -/
theorem Move.auxresume {co : GcRef .thread} {args : List Val} {wrap : Bool} (hr : m.raised = none)
    (he : m.auxresume co args wrap = some m') :
    Move m (.resume co args wrap) m' ∧ SameClosures m.st m'.st := by
  have hnot : ∀ {m₁}, some (if wrap then m.raise else m) = some m₁ →
      Move m (.resume co args wrap) m₁ ∧ SameClosures m.st m₁.st := by
    intro m₁ hm₁
    cases hm₁
    split_ifs
    · exact ⟨.same rfl hr rfl, .refl m.st⟩
    · exact ⟨.same rfl hr rfl, .refl m.st⟩
  rw [Control.auxresume] at he
  cases hget : m.st.gc.heap.get co with
  | none =>
    rw [hget] at he
    exact hnot he
  | some t =>
    rw [hget] at he
    dsimp only at he
    have hin := SameClosures.swapIn hget
    cases hstatus : (t : LuaThread).status with
    | initial =>
      rw [hstatus] at he
      exact Move.callSite he rfl hr (hin.trans (.pushAll args _)) fun _ => rfl
    | suspended =>
      rw [hstatus] at he
      cases he
      have hput : SameClosures (m.st.swapIn co) ((m.st.swapIn co).finishYield args).1 := by
        rw [finishYield]
        exact (SameClosures.trans (fun _ => rfl) (.poscall _ _)).restoreTop _
      refine ⟨.keep rfl rfl fun cs c hc => ?_, hin.trans hput⟩
      rw [Control.liveOf, hr]
      exact hc
    | running | normal | dead =>
      rw [hstatus] at he
      exact hnot he

theorem Move.rustStep (hn : m.native = f :: ns) (hr : m.raised = none) (hop : ∀ g, op ≠ .heap g)
    (he : m.rustStep f ns op = some m') : Move m op m' ∧ SameClosures m.st m'.st := by
  unfold Control.rustStep at he
  cases op with
  | push v =>
    cases he
    exact ⟨.same rfl hr rfl, fun _ => rfl⟩
  | setTop n =>
    cases he
    exact ⟨.same rfl hr rfl, fun _ => rfl⟩
  | callFunction i wanted =>
    dsimp only at he
    split_ifs at he
    exact Move.callSite he rfl hr (.refl m.st) fun _ => rfl
  | pcall =>
    dsimp only at he
    split_ifs at he
    · exact Move.callSite he rfl hr (.refl m.st) fun _ => rfl
    · cases he
      exact ⟨.same rfl hr rfl, .refl m.st⟩
  | xpcall =>
    dsimp only at he
    split_ifs at he
    · exact Move.callSite he rfl hr (fun _ => rfl) fun _ => rfl
    · cases he
      exact ⟨.same rfl hr rfl, .refl m.st⟩
  | reader | secureRange => exact Move.callAtTop he rfl hr (.refl m.st) fun _ => rfl
  | create func =>
    obtain ⟨⟨gc, co⟩, halloc, rfl⟩ := Option.map_eq_some_iff.mp he
    rw [Gc.allocThread, Gc.alloc, Option.bind_eq_bind, Option.bind_eq_some_iff] at halloc
    obtain ⟨⟨heap, co₀⟩, hheap, hgc⟩ := halloc
    cases hgc
    refine ⟨.same rfl hr rfl, fun r => ?_⟩
    change heap.get r = m.st.gc.heap.get r
    rw [Heap.get, Heap.arena_alloc_ne hheap (by decide), Heap.get]
  | resume co args wrap => exact Move.auxresume hr he
  | yield =>
    dsimp only at he
    split_ifs at he
    · cases he
      exact ⟨.same rfl hr rfl, .refl m.st⟩
    · cases he
      exact ⟨.same rfl hr rfl, .refl m.st⟩
  | retRust n => exact Move.opReturnRust hn hr he
  | returnHook instr event =>
    cases instr with
    | none => exact Move.callAtTop he rfl hr (fun _ => rfl) fun _ => rfl
    | some x => exact Move.commonStep hr hop he
  | _ => exact Move.commonStep hr hop he

theorem Move.hostStep (hr : m.raised = none) (hop : ∀ g, op ≠ .heap g)
    (he : m.hostStep op = some m') : Move m op m' ∧ SameClosures m.st m'.st := by
  rw [Control.hostStep.eq_def] at he
  cases op with
  | heap g => exact absurd rfl (hop g)
  | exec main => exact Move.callSite he rfl hr (fun _ => rfl) fun _ => rfl
  | hostCall traced func args =>
    exact Move.callSite he rfl hr (.trans (.pushAll (func :: args) m.st) fun _ => rfl) fun _ => rfl
  | _ => cases he

/-- A site is left. -/
theorem Move.popSite (hn : m.native = .site pos wanted saved k :: ns) {st : LuaState} {raised : Option InFlight}
    {openList : Bool} (hre : m.reenters op { st, native := ns, raised, openList } = false) :
    Move m op { st, native := ns, raised, openList } := by
  refine .keep (by rw [hn]; rfl) hre fun cs c hc => ?_
  rw [Control.liveOf, hn]
  exact mem_liveIn_true hc

theorem Move.siteDone (hr : m.raised = none) (hn : m.native = .site pos wanted saved k :: ns) (he : m.siteDone ns pos saved k = some m') :
    Move m .done m' ∧ SameClosures m.st m'.st := by
  cases k with
  | tforloop ra =>
    cases he
    refine ⟨.popSite hn rfl, ?_⟩
    split_ifs <;> exact fun _ => rfl
  | resume co caller loops wrap =>
    simp only [Control.siteDone] at he
    split_ifs at he
    · cases he
      refine ⟨.enter rfl fun cs c₀ c hc => ?_, .refl m.st⟩
      simp only [Control.liveOf, hr] at hc
      rcases List.mem_cons.mp hc with rfl | hbelow
      · exact .inl rfl
      · rw [Control.liveOf, hn]
        rw [hn] at hbelow
        exact .inr hbelow
    · obtain ⟨st, hout, rfl⟩ := Option.map_eq_some_iff.mp he
      exact ⟨.popSite hn rfl, .swapOut hout⟩
  | _ =>
    cases he
    exact ⟨.popSite hn rfl, fun _ => rfl⟩

theorem Move.siteFailed {v : Val} {err : InFlight} (hn : m.native = .site pos wanted saved k :: ns)
    (he : m.siteFailed ns pos saved v err k = some m') : Move m (.unwind v) m' ∧ SameClosures m.st m'.st := by
  cases k with
  | pcall =>
    cases he
    exact ⟨.popSite hn rfl, SameClosures.closeUpvalues ((m.st.leaveCount .pcall).restoreCall saved) pos⟩
  | secureRange =>
    cases he
    exact ⟨.popSite hn rfl, SameClosures.closeUpvalues
      { (m.st.leaveCount .secureRange).restoreCall saved with base := saved.base } pos⟩
  | xpcall =>
    -- the handler is called in place of the function that has failed
    simp only [Control.siteFailed] at he
    have hlive : ∀ cs c, c ∈ liveIn true ns cs → c ∈ m.liveOf cs := by
      intro cs c hc
      rw [Control.liveOf, hn]
      exact hc
    have hre : ∀ m₁, m.reenters (.unwind v) m₁ = false := fun _ => rfl
    obtain ⟨hmove, hsame⟩ := Move.of_enter he (by rw [hn]; rfl) hlive hre
    exact ⟨hmove, SameClosures.trans (.closeUpvalues (m.st.leaveCount .xpcall) (pos - 1)) hsame⟩
  | reader recovers =>
    cases he
    refine ⟨.popSite hn rfl, ?_⟩
    cases recovers <;> exact fun _ => rfl
  | hostCall traced =>
    cases he
    refine ⟨.popSite hn rfl, ?_⟩
    cases traced <;> exact fun _ => rfl
  | resume co caller loops wrap =>
    cases err with
    | yield n =>
      obtain ⟨st, hout, rfl⟩ := Option.map_eq_some_iff.mp he
      exact ⟨.popSite hn rfl, .swapOut hout⟩
    | error =>
      obtain ⟨st, hout, rfl⟩ := Option.map_eq_some_iff.mp he
      exact ⟨.popSite hn rfl, .swapOut hout⟩
  | _ =>
    cases he
    exact ⟨.popSite hn rfl, fun _ => rfl⟩

/-- An error leaves code. -/
theorem Move.unwound {err : InFlight} {v : Val} (hr : m.raised = some err) (hn : m.native = f :: ns) (hf : f.IsCode) :
    Move m (.unwind v) { m with native := ns } := by
  have hold : ∀ cs, m.liveOf cs = liveIn false (f :: ns) cs := fun cs => by rw [Control.liveOf, hr, hn]; rfl
  have hnew : ∀ cs, ({ m with native := ns } : Control).liveOf cs = liveIn false ns cs := fun cs => by
    rw [Control.liveOf]
    simp only [hr]
    rfl
  cases f with
  | execute n =>
    refine .leave (by rw [hn]; rfl) fun cs c hc => ?_
    rw [hnew] at hc
    rw [hold]
    exact List.mem_append_right _ (mem_liveIn_true hc)
  | opCall | opTailCall | callee =>
    refine .keep (by rw [hn]; rfl) rfl fun cs c hc => ?_
    rw [hnew] at hc
    rw [hold]
    exact hc
  | site => exact hf.elim

/-- Every step but a change of the heap is one of these. -/
theorem Move.of_step (hop : ∀ g, op ≠ .heap g) (he : m.step op = some m') :
    Move m op m' ∧ SameClosures m.st m'.st := by
  unfold Control.step at he
  split at he
  · rename_i err v hr
    rw [Control.unwind] at he
    split at he
    · cases he
    · rename_i pos wanted saved k ns hn
      exact Move.siteFailed hn he
    · rename_i f ns hf hn
      cases he
      refine ⟨Move.unwound hr hn ?_, .refl m.st⟩
      cases f with
      | site pos wanted saved k => exact hf pos wanted saved k rfl
      | _ => trivial
  · cases he
  · rename_i hr hn
    exact Move.hostStep hr hop he
  · rename_i pos wanted saved k ns hr hn
    exact Move.siteDone hr hn he
  · cases he
  · rename_i n ns op hr hn
    exact Move.luaStep hn hr hop he
  · rename_i f ns hsite hexec hr hn hdone
    exact Move.rustStep hn hr hop he

/-! ### Runs -/

variable {e e' : EnvControl} {o : EnvOp}

/-- The loops that go on have the environments of their functions. -/
def EnvControl.Fresh (e : EnvControl) : Prop := ∀ c ∈ e.live, e.m.st.gc.envOf c.closure = some c.env

theorem envOf_enterFrame (h : enterFrame s = some c) : s.gc.envOf c.closure = some c.env := by
  rw [enterFrame] at h
  split at h
  · obtain ⟨env, henv, rfl⟩ := Option.map_eq_some_iff.mp h
    exact henv
  · cases h

theorem Move.fresh {cs' : List EnvCache} (hmove : Move m op m') (hsame : SameClosures m.st m'.st)
    (hnext : nextCaches m op m' cs = some cs') (h : ∀ c ∈ m.liveOf cs, m.st.gc.envOf c.closure = some c.env) :
    (⟨m', cs'⟩ : EnvControl).Fresh := by
  intro c hc
  have hold : ∀ {c : EnvCache}, c ∈ m.liveOf cs → m'.st.gc.envOf c.closure = some c.env := fun hc =>
    (hsame.envOf _).trans (h _ hc)
  have hc' : c ∈ m'.liveOf cs' := hc
  rw [nextCaches] at hnext
  cases hmove with
  | keep hloops hre hlive =>
    rw [if_neg (by omega), if_neg (by omega), hre, if_neg Bool.false_ne_true] at hnext
    rw [← Option.some.inj hnext] at hc'
    exact hold (hlive _ c hc')
  | reenter hloops hre hlive =>
    rw [if_neg (by omega), if_neg (by omega), hre, if_pos rfl] at hnext
    obtain ⟨c₀, henter, hcaches⟩ := Option.map_eq_some_iff.mp hnext
    rw [← hcaches] at hc'
    rcases hlive cs c₀ c hc' with rfl | hc'
    · exact envOf_enterFrame henter
    · exact hold hc'
  | enter hloops hlive =>
    rw [if_pos (by omega)] at hnext
    obtain ⟨c₀, henter, hcaches⟩ := Option.map_eq_some_iff.mp hnext
    rw [← hcaches] at hc'
    rcases hlive cs c₀ c hc' with rfl | hc'
    · exact envOf_enterFrame henter
    · exact hold hc'
  | leave hloops hlive =>
    rw [if_neg (by omega), if_pos (by omega)] at hnext
    rw [← Option.some.inj hnext] at hc'
    exact hold (hlive _ c hc')

theorem step_heap {g : Gc} (he : m.step (.heap g) = some m') : m' = { m with st := { m.st with gc := g } } := by
  cases hr : m.raised with
  | some err => simp [Control.step, hr] at he
  | none =>
    cases hn : m.native with
    | nil =>
      simp only [Control.step, hr, hn, Control.hostStep, Option.some.injEq] at he
      exact he.symm
    | cons f ns =>
      cases f with
      | site => simp [Control.step, hr, hn] at he
      | execute =>
        simp only [Control.step, hr, hn, Control.luaStep, Control.commonStep, Option.some.injEq] at he
        exact he.symm
      | opCall | opTailCall | callee =>
        simp only [Control.step, hr, hn, Control.rustStep, Control.commonStep, Option.some.injEq] at he
        exact he.symm

/-- The environment of one function changes. -/
theorem envOf_modify {g : Gc} {closure : GcRef .closure} {cl : LuaClosure} (env : GcRef .table)
    (h : g.heap.get closure = some (.lua cl)) (r : GcRef .closure) :
    (g.modify closure fun _ => .lua { cl with env }).envOf r = if r = closure then some env else g.envOf r := by
  rw [Gc.envOf, get_modify, h]
  split_ifs
  · rfl
  · rfl

theorem EnvControl.Fresh.setFuncEnv (h : e.Fresh) {closure : GcRef .closure} {env : GcRef .table} (hr : e.m.raised = none)
    (hseen : ∀ c ∈ e.live, c.closure = closure → c.env = env) :
    ({ e with m := Rilua.Vm.setFuncEnv e.m closure env } : EnvControl).Fresh := by
  intro c hc
  rw [Rilua.Vm.setFuncEnv] at hc ⊢
  split at hc
  · rename_i cl hget
    have hold : c ∈ e.live := hc
    refine (envOf_modify env hget c.closure).trans ?_
    split_ifs with heq
    · rw [hseen c hold heq]
    · exact h c hold
  · refine h c ?_
    rw [EnvControl.live, hr]
    exact mem_liveIn_true hc

/-- Changing the environment of a Lua function in another way leaves a loop with the old one. -/
theorem EnvControl.fresh_setFuncEnv_iff (h : e.Fresh) {closure : GcRef .closure} {env : GcRef .table}
    (hr : e.m.raised = none) (hlua : (e.m.st.gc.envOf closure).isSome) :
    ({ e with m := Rilua.Vm.setFuncEnv e.m closure env } : EnvControl).Fresh ↔
      ∀ c ∈ e.live, c.closure = closure → c.env = env := by
  refine ⟨fun hnew c hc heq => ?_, h.setFuncEnv hr⟩
  obtain ⟨cl, hget⟩ : ∃ cl, e.m.st.gc.heap.get closure = some (.lua cl) := by
    rw [Gc.envOf] at hlua
    split at hlua
    · exact ⟨_, ‹_›⟩
    · cases hlua
  have hset : Rilua.Vm.setFuncEnv e.m closure env =
      { e.m with st := { e.m.st with gc := e.m.st.gc.modify closure fun _ => .lua { cl with env } } } := by
    rw [Rilua.Vm.setFuncEnv, hget]
  rw [hset] at hnew
  have hcur := (envOf_modify env hget c.closure).symm.trans (hnew c hc)
  rw [if_pos heq] at hcur
  exact (Option.some.inj hcur).symm

theorem EnvControl.Fresh.step (h : e.Fresh) (hsound : e.Sound o) (hseen : e.Seen o) (he : e.step o = some e') :
    e'.Fresh := by
  cases o with
  | step op =>
    simp only [EnvControl.step, Option.bind_eq_bind, Option.bind_eq_some_iff] at he
    obtain ⟨m', hstep, caches, hnext, heq⟩ := he
    cases heq
    by_cases hop : ∃ g, op = .heap g
    · obtain ⟨g, rfl⟩ := hop
      obtain rfl := step_heap hstep
      rw [nextCaches, if_neg (lt_irrefl _), if_neg (lt_irrefl _)] at hnext
      obtain rfl : e.caches = caches := Option.some.inj hnext
      intro c hc
      exact (hsound c hc).trans (h c hc)
    · obtain ⟨hmove, hsame⟩ := Move.of_step (fun g hg => hop ⟨g, hg⟩) hstep
      exact hmove.fresh hsame hnext h
  | setFuncEnv closure env =>
    simp only [EnvControl.step] at he
    split at he
    · cases he
    · cases he
    · cases he
    · cases he
    · rename_i hr _ _ _
      cases he
      exact h.setFuncEnv hr hseen

end Rilua.Vm
