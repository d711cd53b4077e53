import Rilua.Vm.HostCalls

/-! `coroutine.status` and the chain of resumes. The native stack has the coroutines in progress: the one that runs,
    the one that has resumed it, and so on down to the main thread. The threads of all of them have the status
    `Running`: `Normal` is what the detached state of a resumer gets, which nobody asks for its status. -/

namespace Rilua.Vm

open Lib Gc LuaState

/-! ### Statuses and the chain of resumes -/

namespace LuaState

def statusOf (s : LuaState) (co : GcRef .thread) : Option ThreadStatus := (s.gc.heap.get co).map LuaThread.status

/-- `co_status`. -/
def coStatus (s : LuaState) (co : GcRef .thread) : String :=
  if s.currentThread = some co then "running"
  else
    match s.statusOf co with
    | some .running => "running"
    | some .initial | some .suspended => "suspended"
    | some .normal => "normal"
    | some .dead | none => "dead"

end LuaState

/-- The coroutine that a resume in progress runs, with the one that runs after it. -/
def ControlFrame.resumes : ControlFrame → Option (GcRef .thread × Option (GcRef .thread))
  | .site _ _ _ (.resume co caller _ _) => some (co, caller)
  | _ => none

namespace Control

/-- The resumes in progress, innermost first. -/
def resumes (m : Control) : List (GcRef .thread × Option (GcRef .thread)) := m.native.filterMap ControlFrame.resumes

/-- The chain of resumes: the coroutine that runs, the one that has resumed it, and so on. -/
def coroutines (m : Control) : List (GcRef .thread) := m.resumes.map Prod.fst

/-- Statuses are what the chain of resumes says. -/
structure StatusesAgree (m : Control) : Prop where
  running : ∀ co, m.st.coStatus co = "running" ↔ m.coroutines.head? = some co
  normal : ∀ co, m.st.coStatus co = "normal" ↔ co ∈ m.coroutines.tail
  other : ∀ co ∉ m.coroutines, m.st.coStatus co = "suspended" ∨ m.st.coStatus co = "dead"

/-- The collector keeps the coroutines in progress, which are on the stacks of their resumers. -/
def KeepsCoroutines (m : Control) : ControlOp → Prop
  | .heap g => ∀ co ∈ m.coroutines, g.heap.get co = m.st.gc.heap.get co
  | _ => True

end Control

variable {m m' : Control} {s s' : LuaState} {op : ControlOp} {k : Site} {pos : ℕ} {wanted : Option ℕ}
  {saved : SavedCall} {ns : List ControlFrame} {f : ControlFrame}

/-! ### What a step does to them -/

/-- The same coroutine runs, and all have the same status. -/
structure SameStatus (s s' : LuaState) : Prop where
  currentThread : s'.currentThread = s.currentThread
  status : ∀ co, s'.statusOf co = s.statusOf co

namespace SameStatus

theorem refl (s : LuaState) : SameStatus s s := ⟨rfl, fun _ => rfl⟩

theorem trans {s'' : LuaState} (h : SameStatus s s') (h' : SameStatus s' s'') : SameStatus s s'' :=
  ⟨h'.currentThread.trans h.currentThread, fun co => (h'.status co).trans (h.status co)⟩

theorem of_core (h : SameCore s s') : SameStatus s s' :=
  ⟨h.currentThread, fun co => by rw [statusOf, statusOf, h.threads co]⟩

theorem restoreTop (h : SameStatus s s') (p : Prop) [Decidable p] : SameStatus s (if p then s'.restoreTop else s') := by
  split_ifs
  · exact h.trans ⟨rfl, fun _ => rfl⟩
  · exact h

end SameStatus

/-- What one step does to the chain of resumes and the statuses. -/
inductive ChainStep (m m' : Control) : Prop
  | same (hchain : m'.resumes = m.resumes) (h : SameStatus m.st m'.st)
  | collected (hchain : m'.resumes = m.resumes) (hcur : m'.st.currentThread = m.st.currentThread)
      (h : ∀ co, m'.st.statusOf co = m.st.statusOf co ∨ m'.st.statusOf co = none ∧ co ∉ m.coroutines)
  | created (co : GcRef .thread) (hchain : m'.resumes = m.resumes) (hcur : m'.st.currentThread = m.st.currentThread)
      (hfresh : m.st.statusOf co = none)
      (h : m'.st.statusOf = Function.update m.st.statusOf co (some .initial))
  | resumed (co : GcRef .thread) (hstatus : m.st.statusOf co = some .initial ∨ m.st.statusOf co = some .suspended)
      (hchain : m'.resumes = (co, m.st.currentThread) :: m.resumes) (hcur : m'.st.currentThread = some co)
      (h : m'.st.statusOf = Function.update m.st.statusOf co (some .running))
  | left (co : GcRef .thread) (caller : Option (GcRef .thread)) (status : ThreadStatus)
      (hstatus : status = .suspended ∨ status = .dead) (hchain : m.resumes = (co, caller) :: m'.resumes)
      (hcur : m'.st.currentThread = caller)
      (h : m'.st.statusOf = Function.update m.st.statusOf co ((m.st.statusOf co).map fun _ => status))

theorem resumes_cons (h : m.native = f :: ns) : m.resumes = (f.resumes.toList ++ ns.filterMap ControlFrame.resumes) := by
  rw [Control.resumes, h, List.filterMap_cons]
  cases f.resumes <;> rfl

theorem resumes_site (hk : ¬ k.IsResume) : (ControlFrame.site pos wanted saved k).resumes = none := by
  cases k with
  | resume => exact absurd trivial hk
  | _ => rfl

/-- A site pushes itself and the code it calls. -/
theorem enter_status (he : m.enter k pos wanted saved = some m') :
    SameStatus m.st m'.st ∧
      m'.resumes = ((ControlFrame.site pos wanted saved k).resumes.toList ++ m.resumes) := by
  have hcode : ∀ {st : LuaState} {res : CallResult} {f : ControlFrame}, f.resumes = none →
      (m.st.enterCount k).precall pos wanted = .ok (st, res) →
      SameStatus m.st st ∧ ({ st, native := f :: .site pos wanted saved k :: m.native } : Control).resumes =
        ((ControlFrame.site pos wanted saved k).resumes.toList ++ m.resumes) := by
    intro st res f hf hcall
    have hcore := (precall_sameRest hcall).toSameCore
    refine ⟨⟨hcore.currentThread, fun co => ?_⟩, ?_⟩
    · rw [statusOf, hcore.threads co]
      rfl
    · rw [resumes_cons rfl, hf, Option.toList_none, List.nil_append]
      exact resumes_cons (m := { m with native := .site pos wanted saved k :: m.native }) rfl
  rw [Control.enter] at he
  split_ifs at he
  · cases he
    exact ⟨⟨rfl, fun _ => rfl⟩, resumes_cons rfl⟩
  · split at he
    · rename_i hcall
      cases he
      exact hcode rfl hcall
    · rename_i hcall
      cases he
      exact hcode rfl hcall
    · cases he
    · rename_i e _ _
      cases he
      refine ⟨?_, resumes_cons rfl⟩
      cases e <;> exact ⟨rfl, fun _ => rfl⟩

theorem enter_same {m₁ : Control} (he : m₁.enter k pos wanted saved = some m') (hn : m₁.native = m.native)
    (hk : ¬ k.IsResume) (hst : SameStatus m.st m₁.st) : ChainStep m m' := by
  obtain ⟨hsame, hchain⟩ := enter_status he
  rw [resumes_site hk, Option.toList_none, List.nil_append] at hchain
  refine .same (hchain.trans ?_) (hst.trans hsame)
  rw [Control.resumes, hn, Control.resumes]

theorem callAtTop_same {m₁ : Control} {vs : List Val} (he : m₁.callAtTop k vs wanted = some m')
    (hn : m₁.native = m.native) (hk : ¬ k.IsResume) (hst : SameStatus m.st m₁.st) : ChainStep m m' :=
  enter_same he hn hk (hst.trans (.of_core (SameFrames.pushAll vs m₁.st).toSameCore))

theorem statusOf_collected {g : Gc} (hok : HeapOk m.st g)
    (hkeeps : ∀ co ∈ m.coroutines, g.heap.get co = m.st.gc.heap.get co) (co : GcRef .thread) :
    ({ m.st with gc := g } : LuaState).statusOf co = m.st.statusOf co ∨
      ({ m.st with gc := g } : LuaState).statusOf co = none ∧ co ∉ m.coroutines := by
  by_cases hco : co ∈ m.coroutines
  · exact .inl (congrArg (Option.map LuaThread.status) (hkeeps co hco))
  · cases hget : g.heap.get co with
    | none => exact .inr ⟨congrArg (Option.map LuaThread.status) hget, hco⟩
    | some t =>
      have hsame := hget.trans (hok.threads co t hget).symm
      exact .inl (congrArg (Option.map LuaThread.status) hsame)

theorem commonStep_status (hsound : m.Sound op) (hkeeps : m.KeepsCoroutines op) (he : m.commonStep op = some m') :
    ChainStep m m' := by
  rw [Control.commonStep.eq_def] at he
  cases op with
  | write i v =>
    cases he
    exact .same rfl ⟨rfl, fun _ => rfl⟩
  | heap g =>
    cases he
    exact .collected rfl rfl (statusOf_collected hsound hkeeps)
  | setUpval r v =>
    cases he
    exact .same rfl (.of_core (setUpvalue_sameFrames m.st r v).1.toSameCore)
  | fail =>
    cases he
    exact .same rfl (.refl _)
  | hook event line => exact callAtTop_same he rfl id ⟨rfl, fun _ => rfl⟩
  | finalizer gcFn ud => exact callAtTop_same he rfl id (.refl m.st)
  | _ => cases he

/-- The innermost frame and what it calls are not resumes. -/
theorem of_native {ns' : List ControlFrame} (hchain : ns'.filterMap ControlFrame.resumes =
    m.native.filterMap ControlFrame.resumes) {st : LuaState} (h : SameStatus m.st st) (raised : Option InFlight)
    (openList : Bool) : ChainStep m { st, native := ns', raised, openList } :=
  .same hchain h

theorem openCall_status (s : LuaState) (pc a b : ℕ) : SameStatus s (s.openCall pc a b) := by
  rw [openCall]
  split_ifs <;> exact ⟨rfl, fun _ => rfl⟩

theorem opCall_status {n pc a b c : ℕ} (hn : m.native = .execute n :: ns) (he : m.opCall n ns pc a b c = some m') :
    ChainStep m m' := by
  have hopen := openCall_status m.st pc a b
  rw [Control.opCall] at he
  split at he
  · rename_i hcall
    cases he
    exact of_native (by rw [hn]; rfl) (hopen.trans (.of_core (precall_sameRest hcall).toSameCore)) none false
  · rename_i hcall
    cases he
    exact of_native (by rw [hn]; rfl) (hopen.trans (.of_core (precall_sameRest hcall).toSameCore)) none false
  · cases he
  · rename_i e _ _
    cases he
    refine of_native rfl (hopen.trans ?_) _ _
    cases e <;> exact ⟨rfl, fun _ => rfl⟩

theorem opTailCall_status {n pc a b : ℕ} (hn : m.native = .execute n :: ns)
    (he : m.opTailCall n ns pc a b = some m') : ChainStep m m' := by
  have hopen := openCall_status m.st pc a b
  rw [Control.opTailCall] at he
  split at he
  · rename_i st _ hcall
    cases he
    have hcalled := hopen.trans (.of_core (precall_sameRest hcall).toSameCore)
    have hclose := closeUpvalues_sameFrames st (st.callInfo (st.ci - 1)).base
    refine of_native (by rw [hn]) ((hcalled.trans (.of_core hclose.toSameCore)).trans ?_) none false
    exact ⟨rfl, fun _ => rfl⟩
  · rename_i hcall
    cases he
    exact of_native (by rw [hn]; rfl) (hopen.trans (.of_core (precall_sameRest hcall).toSameCore)) none false
  · cases he
  · rename_i e _ _
    cases he
    refine of_native rfl (hopen.trans ?_) _ _
    cases e <;> exact ⟨rfl, fun _ => rfl⟩

theorem opReturn_status {n : ℕ} (hn : m.native = .execute n :: ns) (a b : ℕ) : ChainStep m (m.opReturn n ns a b) := by
  have hopen := (openReturn_spec m.st a b).1.toSameCore
  have hcore := hopen.trans (poscall_sameRest (m.st.openReturn a b) (m.st.base + a)).toSameCore
  rw [Control.opReturn]
  split_ifs
  · exact of_native (by rw [hn]; rfl) (.of_core hcore) _ _
  · exact of_native (by rw [hn]; rfl) ((SameStatus.of_core hcore).restoreTop _) _ _

theorem opReturnRust_status {n : ℕ} (hn : m.native = f :: ns) (he : m.opReturnRust ns n f = some m') :
    ChainStep m m' := by
  have hcore := (poscall_sameRest m.st (m.st.top - n)).toSameCore
  cases f with
  | opCall c =>
    rw [Control.opReturnRust] at he
    cases he
    exact of_native (by rw [hn]; rfl) ((SameStatus.of_core hcore).restoreTop _) _ _
  | opTailCall | callee =>
    cases he
    exact of_native (by rw [hn]; rfl) (.of_core hcore) _ _
  | execute | site => cases he

theorem luaStep_status {n : ℕ} (hn : m.native = .execute n :: ns) (hsound : m.Sound op)
    (hkeeps : m.KeepsCoroutines op) (he : m.luaStep n ns op = some m') : ChainStep m m' := by
  unfold Control.luaStep at he
  cases op with
  | call pc a b c => exact opCall_status hn he
  | tailCall pc a b => exact opTailCall_status hn he
  | ret a b =>
    cases he
    exact opReturn_status hn a b
  | varArg a b =>
    obtain ⟨proto, -, rfl⟩ := Option.map_eq_some_iff.mp he
    exact .same rfl (.of_core (opVarArg_spec m.st proto a b).1.toSameCore)
  | setList b =>
    cases he
    exact .same rfl ((SameStatus.refl m.st).restoreTop _)
  | tforloop pc a c => exact enter_same he rfl id ⟨rfl, fun _ => rfl⟩
  | capture a =>
    obtain ⟨⟨st, r⟩, hfind, rfl⟩ := Option.map_eq_some_iff.mp he
    exact .same rfl (.of_core (findUpvalue_sameFrames hfind).1.toSameCore)
  | close a =>
    cases he
    exact .same rfl (.of_core (closeUpvalues_sameFrames m.st (m.st.base + a)).toSameCore)
  | tmRes | tmVoid | orderTm => exact callAtTop_same he rfl id (.refl m.st)
  | returnHook instr event =>
    cases instr with
    | none => exact commonStep_status hsound hkeeps he
    | some x =>
      have hopen : SameStatus m.st (m.st.openReturn x.1 x.2) := .of_core (openReturn_spec m.st x.1 x.2).1.toSameCore
      exact callAtTop_same he rfl id (hopen.trans ⟨rfl, fun _ => rfl⟩)
  | _ => exact commonStep_status hsound hkeeps he

theorem finishYield_status (s : LuaState) (args : List Val) : SameStatus s (s.finishYield args).1 := by
  have hput : SameStatus s { s with stack := putAll .nil s.stack s.base args, top := s.base + args.length } :=
    ⟨rfl, fun _ => rfl⟩
  have hpos := (poscall_sameRest { s with stack := putAll .nil s.stack s.base args, top := s.base + args.length }
    s.base).toSameCore
  rw [finishYield]
  exact (hput.trans (.of_core hpos)).restoreTop _

/-- A coroutine is resumed. -/
theorem auxresume_status {co : GcRef .thread} {args : List Val} {wrap : Bool}
    (he : m.auxresume co args wrap = some m') : ChainStep m m' := by
  have hnot : ∀ {m₁}, some (if wrap then m.raise else m) = some m₁ → ChainStep m m₁ := by
    intro m₁ hm₁
    cases hm₁
    split_ifs
    · exact .same rfl (.refl m.st)
    · exact .same rfl (.refl m.st)
  rw [Control.auxresume] at he
  cases hget : m.st.gc.heap.get co with
  | none =>
    rw [hget] at he
    exact hnot he
  | some t =>
    rw [hget] at he
    dsimp only at he
    have hold : m.st.statusOf co = some (t : LuaThread).status := by rw [statusOf, hget, Option.map_some]
    obtain ⟨-, -, -, hthreads⟩ := swapIn_spec hget
    have hin : (m.st.swapIn co).statusOf = Function.update m.st.statusOf co (some .running) := by
      funext co'
      rw [statusOf, hthreads co']
      by_cases heq : co' = co
      · rw [if_pos heq, heq, Function.update_self]
        rfl
      · rw [if_neg heq, Function.update_of_ne heq, statusOf]
    have hresumed : ∀ {m₁ : Control}, m.st.statusOf co = some .initial ∨ m.st.statusOf co = some .suspended →
        m₁.resumes = (co, m.st.currentThread) :: m.resumes → SameStatus (m.st.swapIn co) m₁.st → ChainStep m m₁ :=
      fun hstatus hchain hsame =>
        .resumed co hstatus hchain hsame.currentThread ((funext hsame.status).trans hin)
    cases hstatus : (t : LuaThread).status with
    | initial =>
      rw [hstatus] at he hold
      obtain ⟨hsame, hchain⟩ := enter_status he
      exact hresumed (.inl hold) hchain ((SameStatus.of_core (SameFrames.pushAll args _).toSameCore).trans hsame)
    | suspended =>
      rw [hstatus] at he hold
      cases he
      refine hresumed (.inr hold) ?_ (finishYield_status _ args)
      exact resumes_cons (f := .site 0 none m.save (.resume co m.st.currentThread true wrap)) rfl
    | running | normal | dead =>
      rw [hstatus] at he
      exact hnot he

theorem fresh_allocThread {g g' : Gc} {t : LuaThread} {co : GcRef .thread} (h : g.allocThread t = some (g', co)) :
    g.heap.get co = none := by
  rw [Gc.allocThread, Gc.alloc, Option.bind_eq_bind, Option.bind_eq_some_iff] at h
  obtain ⟨⟨heap, co₀⟩, hheap, hgc⟩ := h
  cases hgc
  rw [Heap.get_eq, Heap.cell_alloc_fresh hheap]
  rfl

theorem rustStep_status (hn : m.native = f :: ns) (hsound : m.Sound op)
    (hkeeps : m.KeepsCoroutines op) (he : m.rustStep f ns op = some m') : ChainStep m m' := by
  have hfailed : ∀ raised, ChainStep m { m with raised } := fun _ => .same rfl (.refl m.st)
  unfold Control.rustStep at he
  cases op with
  | push v =>
    cases he
    exact .same rfl ⟨rfl, fun _ => rfl⟩
  | setTop n =>
    cases he
    exact .same rfl ⟨rfl, fun _ => rfl⟩
  | callFunction i wanted =>
    dsimp only at he
    split_ifs at he
    exact enter_same he rfl id (.refl m.st)
  | pcall =>
    dsimp only at he
    split_ifs at he
    · exact enter_same he rfl id (.refl m.st)
    · cases he
      exact hfailed _
  | xpcall =>
    dsimp only at he
    split_ifs at he
    · exact enter_same he rfl id ⟨rfl, fun _ => rfl⟩
    · cases he
      exact hfailed _
  | reader | secureRange => exact callAtTop_same he rfl id (.refl m.st)
  | create func =>
    obtain ⟨⟨gc, co⟩, halloc, rfl⟩ := Option.map_eq_some_iff.mp he
    obtain ⟨-, hthreads⟩ := get_allocThread halloc
    refine .created co rfl rfl ?_ (funext fun co' => ?_)
    · rw [statusOf, fresh_allocThread halloc, Option.map_none]
    · change Option.map _ (gc.heap.get co') = _
      rw [hthreads co']
      by_cases heq : co' = co
      · rw [if_pos heq, heq, Function.update_self]
        rfl
      · rw [if_neg heq, Function.update_of_ne heq, statusOf]
  | resume co args wrap => exact auxresume_status he
  | yield =>
    dsimp only at he
    split_ifs at he
    · cases he
      exact hfailed _
    · cases he
      exact hfailed _
  | retRust n => exact opReturnRust_status hn he
  | returnHook instr event =>
    cases instr with
    | none => exact callAtTop_same he rfl id ⟨rfl, fun _ => rfl⟩
    | some x => exact commonStep_status hsound hkeeps he
  | _ => exact commonStep_status hsound hkeeps he

theorem hostStep_status (hsound : m.Sound op) (hkeeps : m.KeepsCoroutines op) (he : m.hostStep op = some m') :
    ChainStep m m' := by
  rw [Control.hostStep.eq_def] at he
  cases op with
  | heap g =>
    cases he
    exact .collected rfl rfl (statusOf_collected hsound hkeeps)
  | exec main => exact enter_same he rfl id ⟨rfl, fun _ => rfl⟩
  | hostCall traced func args =>
    refine enter_same he rfl id ((SameStatus.of_core (SameFrames.pushAll (func :: args) m.st).toSameCore).trans ?_)
    exact ⟨rfl, fun _ => rfl⟩
  | _ => cases he

/-- A coroutine is left. -/
theorem leaveCoroutine_status {co : GcRef .thread} {caller : Option (GcRef .thread)} {loops wrap : Bool}
    {status : ThreadStatus} {raised : Option InFlight} (hn : m.native = .site pos wanted saved (.resume co caller loops wrap) :: ns)
    (hstatus : status = .suspended ∨ status = .dead)
    (he : m.leaveCoroutine ns co caller status raised = some m') : ChainStep m m' := by
  obtain ⟨st, hout, rfl⟩ := Option.map_eq_some_iff.mp he
  obtain ⟨-, -, -, -, -, -, hthreads⟩ := swapOut_spec hout
  obtain ⟨_, _, -, hst⟩ := swapOut_eq hout
  refine .left co caller status hstatus (resumes_cons hn) (by rw [hst]) ?_
  funext co'
  change st.statusOf co' = _
  rw [statusOf, hthreads co']
  by_cases heq : co' = co
  · rw [if_pos heq, heq, Function.update_self, statusOf, Option.map_map, Option.map_map]
    rfl
  · rw [if_neg heq, Function.update_of_ne heq, statusOf]

theorem siteDone_status (hn : m.native = .site pos wanted saved k :: ns) (he : m.siteDone ns pos saved k = some m') :
    ChainStep m m' := by
  by_cases hk : k.IsResume
  · cases k with
    | resume co caller loops wrap =>
      simp only [Control.siteDone] at he
      split_ifs at he
      · cases he
        exact .same (by rw [resumes_cons rfl]; rfl) (.refl m.st)
      · exact leaveCoroutine_status hn (.inr rfl) he
    | _ => exact hk.elim
  · have hgo : ∀ {st : LuaState} {openList : Bool}, SameStatus m.st st → ChainStep m { st, native := ns, openList } := by
      intro st openList hst
      refine .same ?_ hst
      rw [resumes_cons hn, resumes_site hk]
      rfl
    cases k with
    | tforloop ra =>
      cases he
      split_ifs
      · exact hgo ⟨rfl, fun _ => rfl⟩
      · exact hgo ⟨rfl, fun _ => rfl⟩
    | resume => exact absurd trivial hk
    | _ =>
      cases he
      exact hgo ⟨rfl, fun _ => rfl⟩

theorem siteFailed_status {v : Val} {err : InFlight} (hn : m.native = .site pos wanted saved k :: ns)
    (he : m.siteFailed ns pos saved v err k = some m') : ChainStep m m' := by
  by_cases hk : k.IsResume
  · cases k with
    | resume co caller loops wrap =>
      cases err with
      | yield n => exact leaveCoroutine_status hn (.inl rfl) he
      | error => exact leaveCoroutine_status hn (.inr rfl) he
    | _ => exact hk.elim
  · have hbelow : m.native.filterMap ControlFrame.resumes = ns.filterMap ControlFrame.resumes := by
      rw [hn, List.filterMap_cons, resumes_site hk]
    have hgo : ∀ {st : LuaState} {raised : Option InFlight} {openList : Bool}, SameStatus m.st st →
        ChainStep m { st, native := ns, raised, openList } := fun hst => .same hbelow.symm hst
    cases k with
    | pcall =>
      cases he
      have hclose := SameStatus.of_core
        (closeUpvalues_sameFrames ((m.st.leaveCount .pcall).restoreCall saved) pos).toSameCore
      exact hgo ⟨hclose.currentThread, hclose.status⟩
    | secureRange =>
      cases he
      have hclose := SameStatus.of_core (closeUpvalues_sameFrames
        { (m.st.leaveCount .secureRange).restoreCall saved with base := saved.base } pos).toSameCore
      exact hgo ⟨hclose.currentThread, hclose.status⟩
    | xpcall =>
      -- the handler is called in place of the function that has failed
      simp only [Control.siteFailed] at he
      have hclose := SameStatus.of_core (closeUpvalues_sameFrames (m.st.leaveCount .xpcall) (pos - 1)).toSameCore
      obtain ⟨hsame, hchain⟩ := enter_status he
      refine .same (hchain.trans hbelow.symm) ⟨?_, fun co => ?_⟩
      · exact hsame.currentThread.trans hclose.currentThread
      · exact (hsame.status co).trans (hclose.status co)
    | reader recovers =>
      cases he
      cases recovers with
      | true => exact hgo ⟨rfl, fun _ => rfl⟩
      | false => exact hgo ⟨rfl, fun _ => rfl⟩
    | hostCall traced =>
      cases he
      cases traced with
      | true => exact hgo ⟨rfl, fun _ => rfl⟩
      | false => exact hgo ⟨rfl, fun _ => rfl⟩
    | resume => exact absurd trivial hk
    | _ =>
      cases he
      exact hgo ⟨rfl, fun _ => rfl⟩

/-- Every step of the machine is one of these. -/
theorem step_status (hsound : m.Sound op) (hkeeps : m.KeepsCoroutines op) (he : m.step op = some m') :
    ChainStep m m' := by
  unfold Control.step at he
  split at he
  · rename_i err v hr
    rw [Control.unwind] at he
    split at he
    · cases he
    · rename_i pos wanted saved k ns hn
      exact siteFailed_status hn he
    · rename_i f ns hf hn
      cases he
      refine .same ?_ (.refl m.st)
      rw [resumes_cons hn]
      cases f with
      | site pos wanted saved k => exact absurd rfl (hf pos wanted saved k)
      | _ => rfl
  · cases he
  · exact hostStep_status hsound hkeeps he
  · rename_i pos wanted saved k ns hr hn
    exact siteDone_status hn he
  · cases he
  · rename_i n ns op hr hn
    exact luaStep_status hn hsound hkeeps he
  · rename_i f ns hsite hexec hr hn hdone
    exact rustStep_status hn hsound hkeeps he

/-! ### Runs -/

/-- Each coroutine in progress but the innermost is the one that runs when the next is left. -/
def Linked : List (GcRef .thread × Option (GcRef .thread)) → Prop
  | [] => True
  | (_, caller) :: rs => caller = (rs.map Prod.fst).head? ∧ Linked rs

/-- The coroutines in progress are those with the status `Running`, the innermost one first. -/
structure Chained (m : Control) : Prop where
  current_eq : m.st.currentThread = m.coroutines.head?
  linked : Linked m.resumes
  nodup : m.coroutines.Nodup
  running : ∀ co, m.st.statusOf co = some .running ↔ co ∈ m.coroutines
  not_normal : ∀ co, m.st.statusOf co ≠ some .normal

theorem Chained.step (h : Chained m) (hstep : ChainStep m m') : Chained m' := by
  obtain ⟨hcur, hlinked, hnodup, hrunning, hnormal⟩ := h
  have hco : ∀ {rs}, m'.resumes = rs → m'.coroutines = rs.map Prod.fst := fun hrs => congrArg (List.map Prod.fst) hrs
  cases hstep with
  | same hchain hsame =>
    have heq : m'.coroutines = m.coroutines := hco hchain
    refine ⟨?_, hchain ▸ hlinked, heq ▸ hnodup, fun co => ?_, fun co => ?_⟩
    · rw [hsame.currentThread, hcur, heq]
    · rw [hsame.status, hrunning, heq]
    · rw [hsame.status]
      exact hnormal co
  | collected hchain hcur' hstatus =>
    have heq : m'.coroutines = m.coroutines := hco hchain
    refine ⟨by rw [hcur', hcur, heq], hchain ▸ hlinked, heq ▸ hnodup, fun co => ?_, fun co => ?_⟩
    · rw [heq]
      rcases hstatus co with hsame | ⟨hgone, hout⟩
      · rw [hsame, hrunning]
      · simp [hgone, hout]
    · rcases hstatus co with hsame | ⟨hgone, -⟩
      · rw [hsame]
        exact hnormal co
      · simp [hgone]
  | created co hchain hcur' hfresh hstatus =>
    have heq : m'.coroutines = m.coroutines := hco hchain
    have hout : co ∉ m.coroutines := fun hin => by simp [(hrunning co).mpr hin] at hfresh
    refine ⟨by rw [hcur', hcur, heq], hchain ▸ hlinked, heq ▸ hnodup, fun co' => ?_, fun co' => ?_⟩
    · rw [hstatus, heq]
      by_cases hsame : co' = co
      · simp [hsame, hout]
      · rw [Function.update_of_ne hsame, hrunning]
    · rw [hstatus]
      by_cases hsame : co' = co
      · simp [hsame]
      · rw [Function.update_of_ne hsame]
        exact hnormal co'
  | resumed co hold hchain hcur' hstatus =>
    have heq : m'.coroutines = co :: m.coroutines := hco hchain
    have hout : co ∉ m.coroutines := by
      intro hin
      rw [(hrunning co).mpr hin] at hold
      simp at hold
    refine ⟨by rw [hcur', heq, List.head?_cons], ?_, ?_, fun co' => ?_, fun co' => ?_⟩
    · rw [hchain]
      exact ⟨hcur, hlinked⟩
    · rw [heq]
      exact List.nodup_cons.mpr ⟨hout, hnodup⟩
    · rw [hstatus, heq, List.mem_cons]
      by_cases hsame : co' = co
      · simp [hsame]
      · rw [Function.update_of_ne hsame, hrunning]
        simp [hsame]
    · rw [hstatus]
      by_cases hsame : co' = co
      · simp [hsame]
      · rw [Function.update_of_ne hsame]
        exact hnormal co'
  | left co caller status hleft hchain hcur' hstatus =>
    have heq : m.coroutines = co :: m'.coroutines := congrArg (List.map Prod.fst) hchain
    rw [hchain] at hlinked
    rw [heq] at hnodup
    obtain ⟨hout, hnodup'⟩ := List.nodup_cons.mp hnodup
    have hold : m.st.statusOf co = some .running := (hrunning co).mpr (by rw [heq]; exact List.mem_cons_self)
    rw [hold, Option.map_some] at hstatus
    refine ⟨hcur'.trans hlinked.1, hlinked.2, hnodup', fun co' => ?_, fun co' => ?_⟩
    · rw [hstatus]
      by_cases hsame : co' = co
      · rcases hleft with rfl | rfl <;> simp [hsame, hout]
      · rw [Function.update_of_ne hsame, hrunning, heq, List.mem_cons]
        simp [hsame]
    · rw [hstatus]
      by_cases hsame : co' = co
      · rcases hleft with rfl | rfl <;> simp [hsame]
      · rw [Function.update_of_ne hsame]
        exact hnormal co'

/-- The statuses are what the chain says if and only if no coroutine in progress has resumed another one. -/
theorem Chained.agree_iff (h : Chained m) : m.StatusesAgree ↔ m.coroutines.length ≤ 1 := by
  obtain ⟨hcur, -, hnodup, hrunning, hnormal⟩ := h
  have hout : ∀ co ∉ m.coroutines, m.st.coStatus co = "suspended" ∨ m.st.coStatus co = "dead" := by
    intro co hco
    have hne : m.st.currentThread ≠ some co := by
      rw [hcur]
      exact fun hhead => hco (List.mem_of_mem_head? hhead)
    rw [coStatus, if_neg hne]
    cases hstatus : m.st.statusOf co with
    | none => exact .inr rfl
    | some status =>
      cases status with
      | initial | suspended => exact .inl rfl
      | dead => exact .inr rfl
      | running => exact absurd ((hrunning co).mp hstatus) hco
      | normal => exact absurd hstatus (hnormal co)
  have hin : ∀ co ∈ m.coroutines, m.st.coStatus co = "running" := by
    intro co hco
    rw [coStatus, (hrunning co).mpr hco]
    split_ifs <;> rfl
  constructor
  · intro hagree
    by_contra hlong
    obtain ⟨co, co', cos, heq⟩ : ∃ co co' cos, m.coroutines = co :: co' :: cos := by
      match hcos : m.coroutines with
      | [] => simp [hcos] at hlong
      | [_] => simp [hcos] at hlong
      | co :: co' :: cos => exact ⟨co, co', cos, rfl⟩
    have hhead := (hagree.running co').mp (hin co' (by simp [heq]))
    rw [heq] at hhead hnodup
    obtain rfl : co = co' := Option.some.inj hhead
    simp at hnodup
  · intro hshort
    have hnot : ∀ co, m.st.coStatus co ≠ "normal" := by
      intro co
      by_cases hco : co ∈ m.coroutines
      · simp [hin co hco]
      · rcases hout co hco with h | h <;> simp [h]
    match hcos : m.coroutines with
    | [] =>
      refine ⟨fun co => ?_, fun co => ?_, hout⟩
      · rcases hout co (by simp [hcos]) with h | h <;> simp [h, hcos]
      · simp [hnot co, hcos]
    | [co] =>
      refine ⟨fun co' => ?_, fun co' => ?_, hout⟩
      · by_cases hco : co' = co
        · simp [hco, hcos, hin co (by simp [hcos])]
        · rcases hout co' (by simp [hcos, hco]) with h | h <;> simp [h, hcos, Ne.symm hco]
      · simp [hnot co', hcos]
    | _ :: _ :: _ => simp [hcos] at hshort

theorem run_chained {ops : List ControlOp} (hs : s.Idle) (hcur : s.currentThread = none)
    (hrun : Run Control.step (fun m op => m.Sound op ∧ m.KeepsCoroutines op) { st := s } ops m) : Chained m := by
  refine hrun.invariant Chained (fun m op m' h hok he => h.step (step_status hok.1 hok.2 he)) ?_
  have hnone : ∀ co, s.statusOf co = none := fun co => by rw [statusOf, hs.threads, Option.map_none]
  exact ⟨hcur, trivial, List.nodup_nil, fun co => by simp [hnone co, Control.coroutines, Control.resumes],
    fun co => by simp [hnone co]⟩

/-- In every state a run reaches, the statuses are what the chain of resumes says, if and only if no coroutine has
    resumed another one. -/
theorem statusesAgree_iff {ops : List ControlOp} (hs : s.Idle) (hcur : s.currentThread = none)
    (hrun : Run Control.step (fun m op => m.Sound op ∧ m.KeepsCoroutines op) { st := s } ops m) :
    m.StatusesAgree ↔ m.coroutines.length ≤ 1 :=
  (run_chained hs hcur hrun).agree_iff

theorem Control.keeps_of_check (h : m.soundCheck op = true) : m.Sound op ∧ m.KeepsCoroutines op := by
  refine ⟨Control.sound_of_check h, ?_⟩
  cases op with
  | heap g => simp [Control.soundCheck] at h
  | _ => trivial

/-- The host resumes a coroutine. -/
def resumedByHost : List ControlOp :=
  [.hostCall false twoLoaded.native [twoLoaded.lua], .create twoLoaded.lua, .create twoLoaded.lua, .retRust 2, .done,
    .hostCall false twoLoaded.native [.thread ⟨0, 0⟩], .resume ⟨0, 0⟩ [] false]

/-- The coroutine resumes another one. -/
def resumedTwice : List ControlOp :=
  resumedByHost ++ [.write 0 twoLoaded.native, .call 1 0 1 1, .resume ⟨1, 0⟩ [] false]

theorem statusesAgree_resumedByHost : ∃ m, Run Control.step (fun m op => m.Sound op ∧ m.KeepsCoroutines op)
    { st := twoLoaded } resumedByHost m ∧ (m.StatusesAgree ↔ m.coroutines.length ≤ 1) := by
  have hsome : (execIf Control.step Control.soundCheck { st := twoLoaded } resumedByHost).isSome = true := by decide
  obtain ⟨m, hm⟩ := Option.isSome_iff_exists.mp hsome
  have hrun := run_of_execIf (fun _ _ => Control.keeps_of_check) hm
  exact ⟨m, hrun, statusesAgree_iff idle_twoLoaded rfl hrun⟩

theorem not_statusesAgree : ¬ ∀ (s : LuaState) (ops : List ControlOp) (m : Control), s.Idle → s.currentThread = none →
    Run Control.step (fun m op => m.Sound op ∧ m.KeepsCoroutines op) { st := s } ops m → m.StatusesAgree := by
  intro hall
  have hsome : (execIf Control.step Control.soundCheck { st := twoLoaded } resumedTwice).isSome = true := by decide
  obtain ⟨m, hm⟩ := Option.isSome_iff_exists.mp hsome
  have hchain : (execIf Control.step Control.soundCheck { st := twoLoaded } resumedTwice).all (fun m =>
      m.coroutines = [⟨1, 0⟩, ⟨0, 0⟩] ∧ m.st.coStatus ⟨0, 0⟩ = "running") = true := by decide
  rw [hm] at hchain
  obtain ⟨hcos, hstatus⟩ := of_decide_eq_true hchain
  have hhead := ((hall twoLoaded resumedTwice m idle_twoLoaded rfl
    (run_of_execIf (fun _ _ => Control.keeps_of_check) hm)).running ⟨0, 0⟩).mp hstatus
  rw [hcos] at hhead
  simp at hhead

end Rilua.Vm
