import Rilua.Vm.OpenSlots

/-! What a step does to the upvalues and coroutines of the heap, whatever state it is taken in. A property of
    them that is kept when upvalues are closed and captured, and when threads are swapped, is kept by every
    step, if it is by the steps that write through an upvalue or change the heap. -/

namespace Rilua.Vm

open Lib Gc LuaState

/-- The upvalues and the threads are the same. -/
structure SameCells (s s' : LuaState) : Prop where
  savedThreads : s'.savedThreads = s.savedThreads
  openUpvalues : s'.openUpvalues = s.openUpvalues
  threads : ∀ r : GcRef .thread, s'.gc.heap.get r = s.gc.heap.get r
  upvalues : ∀ r : GcRef .upvalue, s'.gc.heap.get r = s.gc.heap.get r

/-- `Inv` is kept by what the steps do to the upvalues and threads; `ok` tells which writes and which changes of
    the heap keep it. -/
structure CellInv (ok : LuaState → ControlOp → Prop) (Inv : LuaState → Prop) : Prop where
  same : ∀ {s s' : LuaState}, Inv s → SameCells s s' → Inv s'
  closeUpvalues : ∀ {s : LuaState} (lo : ℕ), Inv s → Inv (s.closeUpvalues lo)
  findUpvalue : ∀ {s s' : LuaState} {idx : ℕ} {r : GcRef .upvalue}, s.findUpvalue idx = some (s', r) → Inv s → Inv s'
  setUpvalue : ∀ {s : LuaState} {r : GcRef .upvalue} {v : Val}, ok s (.setUpval r v) → Inv s → Inv (s.setUpvalue r v)
  heap : ∀ {s : LuaState} {g : Gc}, ok s (.heap g) → Inv s → Inv { s with gc := g }
  create : ∀ {s : LuaState} {gc : Gc} {r : GcRef .thread} {func : Val},
    s.gc.allocThread (LuaThread.new func s.global) = some (gc, r) → Inv s → Inv { s with gc }
  swapIn : ∀ {s : LuaState} {co : GcRef .thread} {t : LuaThread}, s.gc.heap.get co = some t →
    t.status = .initial ∨ t.status = .suspended → Inv s → Inv (s.swapIn co)
  swapOut : ∀ {s s' : LuaState} {co : GcRef .thread} {caller : Option (GcRef .thread)} {status : ThreadStatus},
    s.swapOut co caller status = some s' → Inv s → Inv s'

namespace SameCells

variable {s s' s'' : LuaState}

theorem refl (s : LuaState) : SameCells s s := ⟨rfl, rfl, fun _ => rfl, fun _ => rfl⟩

theorem trans (h : SameCells s s') (h' : SameCells s' s'') : SameCells s s'' where
  savedThreads := h'.savedThreads.trans h.savedThreads
  openUpvalues := h'.openUpvalues.trans h.openUpvalues
  threads r := (h'.threads r).trans (h.threads r)
  upvalues r := (h'.upvalues r).trans (h.upvalues r)

theorem of_sameRest (h : SameRest s s') : SameCells s s' := ⟨h.savedThreads, h.openUpvalues, h.threads, h.upvalues⟩

theorem pushAll (vs : List Val) (s : LuaState) : SameCells s (s.pushAll vs) :=
  ⟨(SameFrames.pushAll vs s).savedThreads, (SameOpen.pushAll vs s).openUpvalues, (SameFrames.pushAll vs s).threads,
    (SameOpen.pushAll vs s).upvalues⟩

theorem precallFailed (s : LuaState) (e : CallError) : SameCells s (s.precallFailed e) := by
  cases e <;> exact ⟨rfl, rfl, fun _ => rfl, fun _ => rfl⟩

theorem poscall (s : LuaState) (firstResult : ℕ) : SameCells s (s.poscall firstResult).1 :=
  of_sameRest (poscall_sameRest s firstResult)

theorem openCall (s : LuaState) (pc a b : ℕ) : SameCells s (s.openCall pc a b) := by
  rw [LuaState.openCall]
  split_ifs <;> exact ⟨rfl, rfl, fun _ => rfl, fun _ => rfl⟩

theorem finishYield (s : LuaState) (args : List Val) : SameCells s (s.finishYield args).1 := by
  have hpos := poscall { s with stack := putAll .nil s.stack s.base args, top := s.base + args.length } s.base
  rw [LuaState.finishYield]
  dsimp only
  split_ifs
  · exact ⟨hpos.savedThreads, hpos.openUpvalues, hpos.threads, hpos.upvalues⟩
  · exact ⟨hpos.savedThreads, hpos.openUpvalues, hpos.threads, hpos.upvalues⟩

theorem opVarArg (s : LuaState) (proto : Proto) (a b : ℕ) : SameCells s (s.opVarArg proto a b) := by
  have hcopy : ∀ (n src dst avail : ℕ) (t : LuaState), SameCells t (copyVarargs n src dst avail t) := by
    intro n
    induction n with
    | zero => exact fun _ _ _ t => refl t
    | succ n ih =>
      intro src dst avail t
      have hset : SameCells t (t.stackSet dst (if 0 < avail then t.stackGet src else .nil)) :=
        ⟨rfl, rfl, fun _ => rfl, fun _ => rfl⟩
      exact hset.trans (ih _ _ _ _)
  have hgrow : ∀ n, SameCells s (s.ensureStackLen n) := fun _ => ⟨rfl, rfl, fun _ => rfl, fun _ => rfl⟩
  rw [LuaState.opVarArg]
  split_ifs
  · have hall := (hgrow _).trans (hcopy (s.base - ((s.callInfo s.ci).func + 1 + proto.numParams.toNat))
      ((s.callInfo s.ci).func + 1 + proto.numParams.toNat) (s.base + a)
      (s.base - ((s.callInfo s.ci).func + 1 + proto.numParams.toNat)) (s.ensureStackLen (s.top + (s.base + a +
        (s.base - ((s.callInfo s.ci).func + 1 + proto.numParams.toNat))))))
    exact ⟨hall.savedThreads, hall.openUpvalues, hall.threads, hall.upvalues⟩
  · exact (hgrow _).trans (hcopy _ _ _ _ _)

end SameCells

namespace CellInv

variable {ok : LuaState → ControlOp → Prop} {Inv : LuaState → Prop} {m m' : Control} {op : ControlOp}

theorem enter (h : CellInv ok Inv) {k : Site} {pos : ℕ} {wanted : Option ℕ} {saved : SavedCall} (hm : Inv m.st)
    (he : m.enter k pos wanted saved = some m') : Inv m'.st := by
  have hcount : SameCells m.st (m.st.enterCount k) := ⟨rfl, rfl, fun _ => rfl, fun _ => rfl⟩
  have hstart := h.same hm hcount
  rw [Control.enter] at he
  split_ifs at he
  · cases he
    exact hstart
  · split at he
    · rename_i hres
      cases he
      exact h.same hstart (.of_sameRest (precall_sameRest hres))
    · rename_i hres
      cases he
      exact h.same hstart (.of_sameRest (precall_sameRest hres))
    · cases he
    · cases he
      exact h.same hstart (.precallFailed _ _)

theorem callAtTop (h : CellInv ok Inv) {k : Site} {vs : List Val} {wanted : Option ℕ} (hm : Inv m.st)
    (he : m.callAtTop k vs wanted = some m') : Inv m'.st := by
  rw [Control.callAtTop] at he
  exact h.enter (m := { m with st := m.st.pushAll vs }) (h.same hm (.pushAll vs m.st)) he

theorem openReturn (h : CellInv ok Inv) {s : LuaState} (a b : ℕ) (hs : Inv s) : Inv (s.openReturn a b) := by
  rw [LuaState.openReturn]
  split_ifs
  · exact h.same (h.closeUpvalues s.base hs) ⟨rfl, rfl, fun _ => rfl, fun _ => rfl⟩
  · exact h.closeUpvalues s.base hs

theorem restoreTop (h : CellInv ok Inv) {s : LuaState} {b : Prop} [Decidable b] (hs : Inv s) :
    Inv (if b then s.restoreTop else s) := by
  split_ifs
  · exact h.same hs ⟨rfl, rfl, fun _ => rfl, fun _ => rfl⟩
  · exact hs

theorem opCall (h : CellInv ok Inv) {n pc a b c : ℕ} {ns : List ControlFrame} (hm : Inv m.st)
    (he : m.opCall n ns pc a b c = some m') : Inv m'.st := by
  have hopen := h.same hm (.openCall m.st pc a b)
  rw [Control.opCall] at he
  split at he
  · rename_i hres
    cases he
    exact h.same hopen (.of_sameRest (precall_sameRest hres))
  · rename_i hres
    cases he
    exact h.same hopen (.of_sameRest (precall_sameRest hres))
  · cases he
  · cases he
    exact h.same hopen (.precallFailed _ _)

theorem opTailCall (h : CellInv ok Inv) {n pc a b : ℕ} {ns : List ControlFrame} (hm : Inv m.st)
    (he : m.opTailCall n ns pc a b = some m') : Inv m'.st := by
  have hopen := h.same hm (.openCall m.st pc a b)
  rw [Control.opTailCall] at he
  split at he
  · rename_i hres
    cases he
    have hcalled := h.same hopen (.of_sameRest (precall_sameRest hres))
    exact h.same (h.closeUpvalues _ hcalled) ⟨rfl, rfl, fun _ => rfl, fun _ => rfl⟩
  · rename_i hres
    cases he
    exact h.same hopen (.of_sameRest (precall_sameRest hres))
  · cases he
  · cases he
    exact h.same hopen (.precallFailed _ _)

theorem opReturn (h : CellInv ok Inv) {n : ℕ} {ns : List ControlFrame} (a b : ℕ) (hm : Inv m.st) :
    Inv (m.opReturn n ns a b).st := by
  have hpos := h.same (h.openReturn a b hm) (.poscall _ (m.st.base + a))
  rw [Control.opReturn]
  dsimp only
  split_ifs
  · exact hpos
  · exact h.same hpos ⟨rfl, rfl, fun _ => rfl, fun _ => rfl⟩
  · exact hpos

theorem opReturnRust (h : CellInv ok Inv) {n : ℕ} {f : ControlFrame} {ns : List ControlFrame} (hm : Inv m.st)
    (he : m.opReturnRust ns n f = some m') : Inv m'.st := by
  have hpos := h.same hm (.poscall _ (m.st.top - n))
  cases f with
  | opCall c =>
    cases he
    exact h.restoreTop hpos
  | opTailCall =>
    cases he
    exact hpos
  | callee =>
    cases he
    exact hpos
  | execute => cases he
  | site => cases he

theorem auxresume (h : CellInv ok Inv) {co : GcRef .thread} {args : List Val} {wrap : Bool} (hm : Inv m.st)
    (he : m.auxresume co args wrap = some m') : Inv m'.st := by
  have hnot : ∀ {m₁}, some (if wrap then m.raise else m) = some m₁ → Inv m₁.st := by
    intro m₁ hm₁
    cases hm₁
    split_ifs <;> exact hm
  rw [Control.auxresume] at he
  cases hget : m.st.gc.heap.get co with
  | none =>
    rw [hget] at he
    exact hnot he
  | some t =>
    rw [hget] at he
    dsimp only at he
    cases hstatus : (t : LuaThread).status with
    | initial =>
      rw [hstatus] at he
      have hin := h.swapIn hget (.inl hstatus) hm
      exact h.enter (m := { m with st := (m.st.swapIn co).pushAll args }) (h.same hin (.pushAll args _)) he
    | suspended =>
      rw [hstatus] at he
      cases he
      exact h.same (h.swapIn hget (.inr hstatus) hm) (.finishYield _ args)
    | running =>
      rw [hstatus] at he
      exact hnot he
    | normal =>
      rw [hstatus] at he
      exact hnot he
    | dead =>
      rw [hstatus] at he
      exact hnot he

theorem leaveCoroutine (h : CellInv ok Inv) {ns : List ControlFrame} {co : GcRef .thread}
    {caller : Option (GcRef .thread)} {status : ThreadStatus} {raised : Option InFlight} (hm : Inv m.st)
    (he : m.leaveCoroutine ns co caller status raised = some m') : Inv m'.st := by
  obtain ⟨st, hout, rfl⟩ := Option.map_eq_some_iff.mp he
  exact h.swapOut hout hm

theorem siteDone (h : CellInv ok Inv) {ns : List ControlFrame} {pos : ℕ} {saved : SavedCall} {k : Site}
    (hm : Inv m.st) (he : m.siteDone ns pos saved k = some m') : Inv m'.st := by
  have hsame : ∀ {st}, SameCells m.st st → Inv st := fun hst => h.same hm hst
  cases k with
  | tforloop ra =>
    cases he
    split_ifs <;> exact hsame ⟨rfl, rfl, fun _ => rfl, fun _ => rfl⟩
  | resume co caller loops wrap =>
    rw [Control.siteDone] at he
    split_ifs at he
    · cases he
      exact hm
    · exact h.leaveCoroutine hm he
  | _ =>
    cases he
    exact hsame ⟨rfl, rfl, fun _ => rfl, fun _ => rfl⟩

theorem siteFailed (h : CellInv ok Inv) {ns : List ControlFrame} {pos : ℕ} {saved : SavedCall} {k : Site} {v : Val}
    {err : InFlight} (hm : Inv m.st) (he : m.siteFailed ns pos saved v err k = some m') : Inv m'.st := by
  have hsame : ∀ {st}, SameCells m.st st → Inv st := fun hst => h.same hm hst
  cases k with
  | pcall =>
    cases he
    have hrestored : Inv ((m.st.leaveCount .pcall).restoreCall saved) := hsame ⟨rfl, rfl, fun _ => rfl, fun _ => rfl⟩
    exact h.same (h.closeUpvalues pos hrestored) ⟨rfl, rfl, fun _ => rfl, fun _ => rfl⟩
  | xpcall =>
    rw [Control.siteFailed] at he
    have hleft : Inv (m.st.leaveCount .xpcall) := hsame ⟨rfl, rfl, fun _ => rfl, fun _ => rfl⟩
    have hclosed := h.closeUpvalues (pos - 1) hleft
    refine h.enter ?_ he
    exact h.same hclosed ⟨rfl, rfl, fun _ => rfl, fun _ => rfl⟩
  | secureRange =>
    cases he
    have hrestored : Inv { (m.st.leaveCount .secureRange).restoreCall saved with base := saved.base } :=
      hsame ⟨rfl, rfl, fun _ => rfl, fun _ => rfl⟩
    exact h.same (h.closeUpvalues pos hrestored) ⟨rfl, rfl, fun _ => rfl, fun _ => rfl⟩
  | resume co caller loops wrap =>
    cases err with
    | error => exact h.leaveCoroutine hm he
    | yield n => exact h.leaveCoroutine hm he
  | reader recovers =>
    cases he
    cases recovers with
    | true => exact hsame ⟨rfl, rfl, fun _ => rfl, fun _ => rfl⟩
    | false => exact hsame ⟨rfl, rfl, fun _ => rfl, fun _ => rfl⟩
  | hostCall traced =>
    cases he
    cases traced with
    | true => exact hsame ⟨rfl, rfl, fun _ => rfl, fun _ => rfl⟩
    | false => exact hsame ⟨rfl, rfl, fun _ => rfl, fun _ => rfl⟩
  | _ =>
    cases he
    exact hsame ⟨rfl, rfl, fun _ => rfl, fun _ => rfl⟩

theorem hostStep (h : CellInv ok Inv) (hok : ok m.st op) (hm : Inv m.st) (he : m.hostStep op = some m') :
    Inv m'.st := by
  rw [Control.hostStep.eq_def] at he
  cases op with
  | heap g =>
    cases he
    exact h.heap hok hm
  | exec main =>
    refine h.enter ?_ he
    exact h.same hm ⟨rfl, rfl, fun _ => rfl, fun _ => rfl⟩
  | hostCall traced func args =>
    refine h.enter ?_ he
    have hpush := h.same hm (.pushAll (func :: args) m.st)
    exact h.same hpush ⟨rfl, rfl, fun _ => rfl, fun _ => rfl⟩
  | _ => cases he

theorem callHook (h : CellInv ok Inv) {top : ℕ} {k : Site} {vs : List Val} {wanted : Option ℕ} (hm : Inv m.st)
    (he : ({ m with st := m.st.setCiTop top } : Control).callAtTop k vs wanted = some m') : Inv m'.st := by
  refine h.callAtTop ?_ he
  exact h.same hm ⟨rfl, rfl, fun _ => rfl, fun _ => rfl⟩

theorem commonStep (h : CellInv ok Inv) (hok : ok m.st op) (hm : Inv m.st) (he : m.commonStep op = some m') :
    Inv m'.st := by
  rw [Control.commonStep.eq_def] at he
  cases op with
  | write i v =>
    cases he
    exact h.same hm ⟨rfl, rfl, fun _ => rfl, fun _ => rfl⟩
  | heap g =>
    cases he
    exact h.heap hok hm
  | setUpval r v =>
    cases he
    exact h.setUpvalue hok hm
  | fail =>
    cases he
    exact hm
  | hook event line => exact h.callHook hm he
  | finalizer gcFn ud => exact h.callAtTop hm he
  | _ => cases he

theorem luaStep (h : CellInv ok Inv) {n : ℕ} {ns : List ControlFrame} (hok : ok m.st op) (hm : Inv m.st)
    (he : m.luaStep n ns op = some m') : Inv m'.st := by
  unfold Control.luaStep at he
  cases op with
  | call pc a b c => exact h.opCall hm he
  | tailCall pc a b => exact h.opTailCall hm he
  | ret a b =>
    cases he
    exact h.opReturn a b hm
  | varArg a b =>
    obtain ⟨proto, -, rfl⟩ := Option.map_eq_some_iff.mp he
    exact h.same hm (.opVarArg m.st proto a b)
  | setList b =>
    cases he
    exact h.restoreTop hm
  | tforloop pc a c =>
    refine h.enter ?_ he
    exact h.same hm ⟨rfl, rfl, fun _ => rfl, fun _ => rfl⟩
  | capture a =>
    obtain ⟨⟨st, r⟩, hfind, rfl⟩ := Option.map_eq_some_iff.mp he
    exact h.findUpvalue hfind hm
  | close a =>
    cases he
    exact h.closeUpvalues _ hm
  | tmRes tm arg1 arg2 resultReg => exact h.callAtTop hm he
  | tmVoid tm arg1 arg2 arg3 => exact h.callAtTop hm he
  | orderTm tm lhs rhs => exact h.callAtTop hm he
  | returnHook instr event =>
    cases instr with
    | none => exact h.commonStep hok hm he
    | some x => exact h.callHook (m := { m with st := m.st.openReturn x.1 x.2, openList := true }) (h.openReturn _ _ hm) he
  | _ => exact h.commonStep hok hm he

theorem rustStep (h : CellInv ok Inv) {f : ControlFrame} {ns : List ControlFrame} (hok : ok m.st op) (hm : Inv m.st)
    (he : m.rustStep f ns op = some m') : Inv m'.st := by
  unfold Control.rustStep at he
  cases op with
  | push v =>
    cases he
    exact h.same hm ⟨rfl, rfl, fun _ => rfl, fun _ => rfl⟩
  | setTop n =>
    cases he
    exact h.same hm ⟨rfl, rfl, fun _ => rfl, fun _ => rfl⟩
  | callFunction i wanted =>
    dsimp only at he
    split_ifs at he
    exact h.enter hm he
  | pcall =>
    dsimp only at he
    split_ifs at he
    · exact h.enter hm he
    · cases he
      exact hm
  | xpcall =>
    dsimp only at he
    split_ifs at he
    · refine h.enter ?_ he
      exact h.same hm ⟨rfl, rfl, fun _ => rfl, fun _ => rfl⟩
    · cases he
      exact hm
  | reader recovers func => exact h.callAtTop hm he
  | secureRange callback args => exact h.callAtTop hm he
  | create func =>
    obtain ⟨⟨gc, r⟩, halloc, rfl⟩ := Option.map_eq_some_iff.mp he
    exact h.same (h.create halloc hm) ⟨rfl, rfl, fun _ => rfl, fun _ => rfl⟩
  | resume co args wrap => exact h.auxresume hm he
  | yield =>
    dsimp only at he
    split_ifs at he
    · cases he
      exact hm
    · cases he
      exact hm
  | retRust n => exact h.opReturnRust hm he
  | returnHook instr event =>
    cases instr with
    | none => exact h.callHook hm he
    | some x => exact h.commonStep hok hm he
  | _ => exact h.commonStep hok hm he

/-- Every step keeps the property. -/
theorem step (h : CellInv ok Inv) (hok : ok m.st op) (he : m.step op = some m') (hm : Inv m.st) : Inv m'.st := by
  unfold Control.step at he
  split at he
  · -- an error goes one step further
    rw [Control.unwind] at he
    split at he
    · cases he
    · exact h.siteFailed hm he
    · cases he
      exact hm
  · cases he
  · exact h.hostStep hok hm he
  · exact h.siteDone hm he
  · cases he
  · exact h.luaStep hok hm he
  · exact h.rustStep hok hm he

end CellInv

end Rilua.Vm
