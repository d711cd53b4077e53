import Rilua.Vm.Frames

/-! What each function of the call machinery does to the stack, seen as a function from slots to values:
    how the frame it leaves is the frame the call is meant to have, and that nothing below the called
    function changes. -/

namespace Rilua.Vm

open Lib Gc

namespace Gc

theorem protoOf_congr {g g' : Gc} (h : g'.heap.arena .closure = g.heap.arena .closure) : g'.protoOf = g.protoOf := by
  funext v
  cases v with
  | function r => simp only [protoOf, Heap.get, h]
  | _ => rfl

/-- Making an `arg` table leaves the closures as they are. -/
theorem closures_argTableOf {g g' : Gc} {p : Proto} {extras : List Val} {arg : Option (GcRef .table)}
    (h : g.argTableOf p extras = some (g', arg)) : g'.heap.arena .closure = g.heap.arena .closure := by
  rw [argTableOf] at h
  split_ifs at h
  · obtain ⟨⟨g₁, r⟩, harg, heq⟩ := Option.map_eq_some_iff.mp h
    obtain ⟨rfl, -⟩ := Prod.mk.inj heq
    simp only [argTable, Option.bind_eq_bind, Option.bind_eq_some_iff, internString, allocTable, alloc] at harg
    obtain ⟨t, _, ⟨g₂, nKey⟩, ⟨⟨strings, heap, r₂⟩, hint, hg₂⟩, ⟨t', _⟩, _, ⟨heap', r₃⟩, halloc, hg₁⟩ := harg
    cases hg₂
    cases hg₁
    exact (Heap.arena_alloc_ne halloc (by decide)).trans (Heap.arena_intern_ne hint (by decide))
  · cases h
    rfl

end Gc

namespace LuaState

variable {s s' : LuaState}

theorem stackGet_eq (s : LuaState) : s.stackGet = slot .nil s.stack := rfl

/-- Nothing but the stack, the top and the heap changed. -/
def OnlyStack (s s' : LuaState) : Prop := ∃ stack top gc, s' = { s with stack, top, gc }

theorem OnlyStack.trans {s'' : LuaState} (h : OnlyStack s s') (h' : OnlyStack s' s'') : OnlyStack s s'' := by
  obtain ⟨_, _, _, rfl⟩ := h
  obtain ⟨_, _, _, rfl⟩ := h'
  exact ⟨_, _, _, rfl⟩

theorem stackGet_fillNil (s : LuaState) (lo hi : ℕ) :
    (s.fillNil lo hi).stackGet = blit s.stackGet lo (List.replicate (hi - lo) .nil) :=
  slot_putAll ..

@[simp] theorem stackGet_ensureStackLen (s : LuaState) (n : ℕ) : (s.ensureStackLen n).stackGet = s.stackGet :=
  slot_grow ..

theorem stackGet_stackSet (s : LuaState) (i : ℕ) (v : Val) :
    (s.stackSet i v).stackGet = Function.update s.stackGet i v :=
  slot_put ..

theorem stackGet_push (s : LuaState) (v : Val) : (s.push v).stackGet = Function.update s.stackGet s.top v :=
  slot_put ..

theorem padNil_spec (n : ℕ) (s : LuaState) :
    (padNil n s).top = s.top + n ∧ (padNil n s).gc = s.gc ∧ OnlyStack s (padNil n s) ∧
      (padNil n s).stackGet = blit s.stackGet s.top (List.replicate n .nil) := by
  induction n generalizing s with
  | zero => exact ⟨rfl, rfl, ⟨_, _, _, rfl⟩, rfl⟩
  | succ n ih =>
    obtain ⟨htop, hgc, honly, hget⟩ := ih (s.push .nil)
    refine ⟨?_, hgc, .trans ⟨_, _, _, rfl⟩ honly, ?_⟩
    · rw [padNil, htop]
      show s.top + 1 + n = s.top + (n + 1)
      omega
    · rw [padNil, hget, stackGet_push, List.replicate_succ, blit_cons]
      rfl

/-- The parameters end up at the top, with nil where they were. -/
theorem copyParams_spec (s : LuaState) (src n : ℕ) (h : src + n ≤ s.top) :
    (copyParams src n s).top = s.top + n ∧ (copyParams src n s).gc = s.gc ∧ OnlyStack s (copyParams src n s) ∧
      ∀ i, (copyParams src n s).stackGet i = if src ≤ i ∧ i < src + n then .nil
        else if s.top ≤ i ∧ i < s.top + n then s.stackGet (src + (i - s.top)) else s.stackGet i := by
  induction n generalizing s src with
  | zero =>
    refine ⟨rfl, rfl, ⟨_, _, _, rfl⟩, fun i => ?_⟩
    rw [if_neg (by omega), if_neg (by omega), copyParams]
  | succ n ih =>
    obtain ⟨htop, hgc, honly, hget⟩ := ih ((s.push (s.stackGet src)).stackSet src .nil) (src + 1)
      (show src + 1 + n ≤ s.top + 1 by omega)
    refine ⟨?_, hgc, .trans ⟨_, _, _, rfl⟩ honly, fun i => ?_⟩
    · rw [copyParams, htop]
      show s.top + 1 + n = s.top + (n + 1)
      omega
    · have hset : ((s.push (s.stackGet src)).stackSet src .nil).stackGet =
          Function.update (Function.update s.stackGet s.top (s.stackGet src)) src .nil := by
        rw [← stackGet_push]
        exact slot_put ..
      rw [copyParams, hget, hset, show ((s.push (s.stackGet src)).stackSet src .nil).top = s.top + 1 from rfl]
      simp only [Function.update_apply]
      split_ifs <;> first | rfl | omega | (congr 1; omega)

theorem getNargs_eq {funcIdx : ℕ} (h : funcIdx < s.top) : s.getNargs funcIdx = s.top - (funcIdx + 1) := by
  rw [getNargs]
  split_ifs <;> omega

/-- `s'` is `s` with the arguments of a call adjusted: the parameters `regs` are at the base of the new
    frame, the extra arguments below it. -/
structure Adjusted (s s' : LuaState) (funcIdx newBase numParams : ℕ) (regs varargs : List Val) : Prop where
  only : OnlyStack s s'
  base_lt : funcIdx < newBase
  le_top : newBase ≤ s'.top
  regs_eq : s'.slots newBase s'.top = regs
  varargs_eq : (s'.slots (funcIdx + 1) newBase).drop numParams = varargs
  below : ∀ i ≤ funcIdx, s'.stackGet i = s.stackGet i

theorem adjustFixed_spec {funcIdx : ℕ} (p : Proto) (h : funcIdx < s.top) :
    Adjusted s (s.adjustFixed p (s.getNargs funcIdx) funcIdx).1 funcIdx
      (s.adjustFixed p (s.getNargs funcIdx) funcIdx).2 p.numParams.toNat
      (p.params (s.slots (funcIdx + 1) s.top)) [] ∧
    (s.adjustFixed p (s.getNargs funcIdx) funcIdx).1.gc = s.gc := by
  rw [adjustFixed, getNargs_eq h]
  split_ifs with hmore hless
  · refine ⟨⟨⟨_, _, _, rfl⟩, Nat.lt_succ_self _, Nat.le_add_right .., ?_, by simp [slots], fun i _ => ?_⟩, rfl⟩
    · refine window_eq_takeD fun i hi => ?_
      rw [if_pos (by omega)]
      exact congrFun (stackGet_ensureStackLen ..) _
    · exact congrFun (stackGet_ensureStackLen ..) i
  · have hget : ∀ i top, stackGet { (s.ensureStackLen (funcIdx + 1 + p.maxStackSize.toNat)).fillNil
        s.top (funcIdx + 1 + p.numParams.toNat) with top } i =
        if s.top ≤ i ∧ i < funcIdx + 1 + p.numParams.toNat then .nil else s.stackGet i := by
      intro i top
      have hle : s.top ≤ funcIdx + 1 + p.numParams.toNat := le_of_lt hless
      refine (congrFun (stackGet_fillNil ..) i).trans ?_
      rw [blit_replicate, stackGet_ensureStackLen, Nat.add_sub_of_le hle]
    refine ⟨⟨⟨_, _, _, rfl⟩, Nat.lt_succ_self _, Nat.le_add_right .., ?_, by simp [slots], fun i hi => ?_⟩, rfl⟩
    · refine window_eq_takeD fun i hi => (hget _ _).trans ?_
      split_ifs <;> first | rfl | omega
    · exact (hget i _).trans (if_neg (by omega))
  · have htop : s.top = funcIdx + 1 + p.numParams.toNat := by simp only [ensureStackLen] at hless; omega
    refine ⟨⟨⟨_, _, _, rfl⟩, Nat.lt_succ_self _, h, ?_, by simp [slots], fun i _ => ?_⟩, rfl⟩
    · rw [Proto.params, takeD_of_length_eq (by simp [slots]; omega), slots, stackGet_ensureStackLen]
      rfl
    · rw [stackGet_ensureStackLen]

theorem relocate_spec {funcIdx top₀ : ℕ} {p : Proto} {f : ℕ → Val} (arg : Option (GcRef .table))
    (h : funcIdx < top₀) (htop : s.top = max top₀ (funcIdx + 1 + p.numParams.toNat))
    (hget : ∀ i, i < s.top → s.stackGet i = if i < top₀ then f i else .nil) :
    Adjusted s (s.relocate p (funcIdx + 1) arg).1 funcIdx (s.relocate p (funcIdx + 1) arg).2 p.numParams.toNat
        (p.params (window f (funcIdx + 1) top₀) ++ (arg.map Val.table).toList)
        (p.extras (window f (funcIdx + 1) top₀)) ∧
      (s.relocate p (funcIdx + 1) arg).1.gc = s.gc := by
  obtain ⟨htop', hgc, honly, hget'⟩ := copyParams_spec (s.ensureStackLen (s.top + p.numParams.toNat + 1))
    (funcIdx + 1) p.numParams.toNat (show _ ≤ s.top by omega)
  set s' := copyParams (funcIdx + 1) p.numParams.toNat (s.ensureStackLen (s.top + p.numParams.toNat + 1))
  rw [stackGet_ensureStackLen, show (s.ensureStackLen (s.top + p.numParams.toNat + 1)).top = s.top from rfl] at hget'
  change s'.top = s.top + _ at htop'
  have honly' : OnlyStack s s' := .trans ⟨_, _, _, rfl⟩ honly
  have hparams : window s'.stackGet s.top (s.top + p.numParams.toNat) = p.params (window f (funcIdx + 1) top₀) := by
    refine window_eq_takeD fun i hi => ?_
    rw [hget', if_neg (by omega), if_pos (by omega), Nat.add_sub_cancel_left, hget _ (by omega)]
  have hextras : (window s'.stackGet (funcIdx + 1) s.top).drop p.numParams.toNat =
      p.extras (window f (funcIdx + 1) top₀) := by
    rw [Proto.extras, drop_window, drop_window]
    rcases le_total top₀ (funcIdx + 1 + p.numParams.toNat) with hle | hle
    · rw [window_of_le _ hle, window_of_le _ (by omega)]
    · rw [htop, max_eq_left hle]
      refine window_congr fun i hi hi' => ?_
      rw [hget', if_neg (by omega), if_neg (by omega), hget i (by omega), if_pos hi']
  have hbelow : ∀ i ≤ funcIdx, s'.stackGet i = s.stackGet i := by
    intro i hi
    rw [hget', if_neg (by omega), if_neg (by omega)]
  cases arg with
  | none =>
    refine ⟨⟨honly', by show funcIdx < s.top; omega, by show s.top ≤ s'.top; omega, ?_, hextras, hbelow⟩, hgc⟩
    show window s'.stackGet s.top s'.top = _ ++ []
    rw [htop', hparams, List.append_nil]
  | some t =>
    have hpush : ∀ i < s'.top, (s'.push (.table t)).stackGet i = s'.stackGet i := by
      intro i hi
      rw [stackGet_push, Function.update_of_ne hi.ne]
    refine ⟨⟨.trans honly' ⟨_, _, _, rfl⟩, by show funcIdx < s.top; omega,
      by show s.top ≤ s'.top + 1; omega, ?_, ?_, fun i hi => (hpush i (by omega)).trans (hbelow i hi)⟩, hgc⟩
    · show window (s'.push (.table t)).stackGet s.top (s'.top + 1) = _ ++ [.table t]
      rw [window_concat _ (by omega), stackGet_push, Function.update_self, ← stackGet_push,
        window_congr fun i _ hi => hpush i hi, htop', hparams]
    · show (window (s'.push (.table t)).stackGet (funcIdx + 1) s.top).drop _ = _
      rw [window_congr fun i _ hi => hpush i (by omega), hextras]

theorem adjustVarargs_spec {funcIdx newBase : ℕ} {p : Proto} (h : funcIdx < s.top)
    (he : s.adjustVarargs p (s.getNargs funcIdx) = some (s', newBase)) :
    ∃ arg, s.gc.argTableOf p (p.extras (s.slots (funcIdx + 1) s.top)) = some (s'.gc, arg) ∧
      Adjusted s s' funcIdx newBase p.numParams.toNat
        (p.params (s.slots (funcIdx + 1) s.top) ++ (arg.map Val.table).toList)
        (p.extras (s.slots (funcIdx + 1) s.top)) := by
  obtain ⟨htop, hgc, honly, hget⟩ := padNil_spec (p.numParams.toNat - (s.top - (funcIdx + 1))) s
  rw [adjustVarargs, getNargs_eq h] at he
  set t := padNil (p.numParams.toNat - (s.top - (funcIdx + 1))) s
  have hfixed : t.top - max (s.top - (funcIdx + 1)) p.numParams.toNat = funcIdx + 1 := by omega
  have hget' : ∀ i, i < t.top → t.stackGet i = if i < s.top then s.stackGet i else .nil := by
    intro i hi
    rw [hget, blit_replicate]
    split_ifs <;> first | rfl | omega
  have hextras : t.slots (funcIdx + 1 + p.numParams.toNat)
      (funcIdx + 1 + max (s.top - (funcIdx + 1)) p.numParams.toNat) =
      p.extras (s.slots (funcIdx + 1) s.top) := by
    rw [Proto.extras, slots, slots, drop_window]
    rcases le_total s.top (funcIdx + 1 + p.numParams.toNat) with hle | hle
    · rw [window_of_le _ hle, window_of_le _ (by omega)]
    · rw [show funcIdx + 1 + max (s.top - (funcIdx + 1)) p.numParams.toNat = s.top by omega]
      refine window_congr fun i _ hi => ?_
      rw [hget' i (by omega), if_pos hi]
  simp only [hfixed, hextras, hgc] at he
  obtain ⟨⟨gc, arg⟩, harg, heq⟩ := Option.map_eq_some_iff.mp he
  have hspec := relocate_spec (s := { t with gc }) (f := s.stackGet) (p := p) arg h
    (show t.top = _ by omega) hget'
  rw [heq] at hspec
  obtain ⟨⟨hon, hlt, hle, hregs, hvar, hbelow⟩, hgc'⟩ := hspec
  refine ⟨arg, by rw [harg, hgc'], .trans (.trans honly ⟨_, _, _, rfl⟩) hon, hlt, hle, hregs, hvar, fun i hi => ?_⟩
  rw [hbelow i hi]
  exact (hget' i (by omega)).trans (if_pos (by omega))

/-! ### Frames on the stack -/

/-- The frames in use, innermost first. -/
def chain (s : LuaState) : List CallInfo := (s.callStack.take (s.ci + 1)).reverse

theorem chain_pushCi (h : s.ci < s.callStack.length) (c : CallInfo) :
    (s.pushCi c).chain = c :: s.chain ∧ (s.pushCi c).ci < (s.pushCi c).callStack.length := by
  rw [chain, chain, pushCi]
  dsimp only
  split_ifs with hlt
  · refine ⟨?_, by simpa using hlt⟩
    rw [List.take_add_one, List.take_set_of_le (le_refl _), List.getElem?_set_self hlt]
    simp
  · have hlen : s.callStack.length = s.ci + 1 := by omega
    refine ⟨?_, by simp [hlen]⟩
    rw [← hlen, List.take_of_length_le (by simp), List.take_of_length_le (le_refl _)]
    simp

theorem chain_eq (h : s.ci < s.callStack.length) :
    s.chain = s.callInfo s.ci :: (s.callStack.take s.ci).reverse := by
  rw [chain, List.take_add_one, callInfo, List.getElem?_eq_getElem h]
  simp

theorem callInfo_ci {c : CallInfo} {cs : List CallInfo} (hci : s.ci < s.callStack.length) (h : s.chain = c :: cs) :
    s.callInfo s.ci = c := by
  rw [chain_eq hci] at h
  exact (List.cons.inj h).1

theorem length_chain (hci : s.ci < s.callStack.length) : s.chain.length = s.ci + 1 := by
  rw [chain, List.length_reverse, List.length_take, min_eq_left hci]

theorem chain_popCi {c c' : CallInfo} {cs : List CallInfo} (hci : s.ci < s.callStack.length)
    (h : s.chain = c :: c' :: cs) : s.popCi.chain = c' :: cs ∧ s.popCi.ci < s.popCi.callStack.length := by
  have hlen := length_chain hci
  rw [h, List.length_cons, List.length_cons] at hlen
  rw [chain_eq hci] at h
  refine ⟨?_, show s.ci - 1 < _ by show _ < s.callStack.length; omega⟩
  rw [chain, popCi, show s.ci - 1 + 1 = s.ci by omega]
  exact (List.cons.inj h).2

theorem chain_modifyCallInfo {c : CallInfo} {cs : List CallInfo} (hci : s.ci < s.callStack.length)
    (h : s.chain = c :: cs) (f : CallInfo → CallInfo) : (s.modifyCallInfo s.ci f).chain = f c :: cs := by
  rw [chain_eq hci] at h
  obtain ⟨hc, hcs⟩ := List.cons.inj h
  rw [chain_eq (by simpa [modifyCallInfo] using hci), ← hc, ← hcs]
  simp [modifyCallInfo, callInfo, hci, List.take_modify, List.modify_eq_self]

end LuaState

/-- The number of fixed parameters of a frame's function. -/
def Frame.numParams (f : Frame) : ℕ := (f.proto.map fun p => p.numParams.toNat).getD 0

/-- The frame `c`, whose registers end at `hi`, is the invocation `f`. -/
structure FrameRel (get : ℕ → Val) (proto : Val → Option Proto) (hi : ℕ) (c : CallInfo) (f : Frame) :
    Prop where
  func_lt : c.func < c.base
  base_le : c.base ≤ hi
  proto_eq : f.proto = proto (get c.func)
  regs_eq : f.regs = window get c.base hi
  varargs_eq : f.varargs = (window get (c.func + 1) c.base).drop f.numParams
  wanted_eq : f.wanted = c.numResults
  top_eq : c.top = c.base + f.window
  pc_eq : f.pc = c.savedPc
  base_eq : f.proto = none → c.base = c.func + 1

/-- What runs the invocation: the interpreter loop or a native function. -/
def Frame.RunBy (f : Frame) : CallResult → Prop
  | .lua _ => f.proto.isSome
  | .rust _ => f.proto = none

namespace LuaState

variable {s s' : LuaState}

/-- `s'` is `s` after entering the function at `funcIdx`, whose invocation is `f`. -/
structure Entered (s s' : LuaState) (funcIdx : ℕ) (f : Frame) : Prop where
  ci_lt : s'.ci < s'.callStack.length
  frame : ∃ c, s'.chain = c :: s.chain ∧ c.func = funcIdx ∧ s'.base = c.base ∧
    ∀ proto : Val → Option Proto, f.proto = proto (s'.stackGet funcIdx) →
      FrameRel s'.stackGet proto s'.top c f
  below : ∀ i ≤ funcIdx, s'.stackGet i = s.stackGet i

theorem enterRust_spec {funcIdx : ℕ} (h : funcIdx < s.top) (hci : s.ci < s.callStack.length)
    (wanted : Option ℕ) (entry : Entry) :
    Entered s (s.enterRust funcIdx wanted) funcIdx (.ofRust (s.slots (funcIdx + 1) s.top) wanted entry) ∧
      (s.enterRust funcIdx wanted).gc = s.gc := by
  obtain ⟨hchain, hlt⟩ := chain_pushCi (s := s.ensureStackLen (s.top + luaMinStack)) hci
    { func := funcIdx, base := funcIdx + 1, top := s.top + luaMinStack, numResults := wanted }
  have hget : (s.enterRust funcIdx wanted).stackGet = s.stackGet := stackGet_ensureStackLen ..
  refine ⟨⟨hlt, ⟨_, hchain, rfl, rfl, fun proto hp => ?_⟩, fun i _ => congrFun hget i⟩, rfl⟩
  rw [hget] at hp ⊢
  exact ⟨Nat.lt_succ_self _, h, hp, rfl, by simp [Frame.ofRust], rfl, by simp [Frame.ofRust, slots]; omega, rfl,
    fun _ => rfl⟩

theorem OnlyStack.chain_eq (h : OnlyStack s s') : s'.chain = s.chain := by
  obtain ⟨_, _, _, rfl⟩ := h
  rfl

theorem OnlyStack.ci_lt (h : OnlyStack s s') (hci : s.ci < s.callStack.length) :
    s'.ci < s'.callStack.length := by
  obtain ⟨_, _, _, rfl⟩ := h
  exact hci

theorem OnlyStack.base_eq (h : OnlyStack s s') : s'.base = s.base := by
  obtain ⟨_, _, _, rfl⟩ := h
  rfl

theorem pushFrame_spec {p : Proto} {funcIdx newBase : ℕ} {args : List Val} (arg : Option (GcRef .table))
    (wanted : Option ℕ) (entry : Entry) (hci : s.ci < s.callStack.length)
    (h : Adjusted s s' funcIdx newBase p.numParams.toNat (p.params args ++ (arg.map Val.table).toList)
      (if p.isVarargFn then p.extras args else [])) :
    Entered s (s'.pushFrame p funcIdx newBase wanted) funcIdx (.ofLua p args arg wanted entry) ∧
      (s'.pushFrame p funcIdx newBase wanted).gc = s'.gc := by
  have hget : ∀ i, (s'.pushFrame p funcIdx newBase wanted).stackGet i =
      if s'.top ≤ i ∧ i < newBase + p.maxStackSize.toNat then .nil else s'.stackGet i := by
    intro i
    rw [pushFrame]
    split_ifs with hlt hi hi
    · refine (congrFun (stackGet_fillNil ..) i).trans ?_
      rw [blit_replicate, if_pos]
      simp only [ensureStackLen] at hlt ⊢
      omega
    · refine (congrFun (stackGet_fillNil ..) i).trans ?_
      rw [blit_replicate, stackGet_ensureStackLen, if_neg]
      simp only [ensureStackLen] at hlt ⊢
      omega
    · simp only [ensureStackLen] at hlt
      omega
    · exact congrFun (stackGet_ensureStackLen ..) i
  obtain ⟨t, heq, honly, htop, hgc⟩ : ∃ t : LuaState, s'.pushFrame p funcIdx newBase wanted =
      { t.pushCi ⟨funcIdx, newBase, newBase + p.maxStackSize.toNat, 0, wanted⟩ with base := newBase } ∧
      OnlyStack s' t ∧ t.top = newBase + p.maxStackSize.toNat ∧ t.gc = s'.gc := by
    rw [pushFrame]
    split_ifs <;> exact ⟨_, rfl, ⟨_, _, _, rfl⟩, rfl, rfl⟩
  obtain ⟨hchain, hlt⟩ := chain_pushCi ((h.only.trans honly).ci_lt hci)
    ⟨funcIdx, newBase, newBase + p.maxStackSize.toNat, 0, wanted⟩
  rw [(h.only.trans honly).chain_eq] at hchain
  have hbelow : ∀ i < newBase, (s'.pushFrame p funcIdx newBase wanted).stackGet i = s'.stackGet i := by
    intro i hi
    have := h.le_top
    rw [hget, if_neg (by omega)]
  have htop' : (s'.pushFrame p funcIdx newBase wanted).top = newBase + p.maxStackSize.toNat := by
    rw [heq]
    exact htop
  have hregs : (p.params args ++ (arg.map Val.table).toList).takeD p.maxStackSize.toNat .nil =
      window (s'.pushFrame p funcIdx newBase wanted).stackGet newBase (newBase + p.maxStackSize.toNat) := by
    rw [← h.regs_eq]
    refine (window_eq_takeD fun i hi => ?_).symm
    rw [hget]
    split_ifs <;> first | rfl | omega
  refine ⟨⟨by rw [heq]; exact hlt, ⟨_, by rw [heq]; exact hchain, rfl, by rw [heq], fun proto hp => ?_⟩,
    fun i hi => ?_⟩, by rw [heq]; exact hgc⟩
  · refine ⟨h.base_lt, by rw [htop']; exact Nat.le_add_right .., hp, ?_, ?_, rfl, rfl, rfl, nofun⟩
    · rw [htop']
      exact hregs
    · show (if p.isVarargFn then p.extras args else []) = _
      rw [← h.varargs_eq, window_congr fun i _ hi => hbelow i hi]
      rfl
  · rw [hbelow i (by have := h.base_lt; omega), h.below i hi]

theorem enterLua_spec {cl : LuaClosure} {funcIdx : ℕ} {wanted : Option ℕ} (entry : Entry) (h : funcIdx < s.top)
    (hci : s.ci < s.callStack.length) (he : s.enterLua cl funcIdx wanted = some s') :
    ∃ arg, (if cl.proto.isVarargFn then
        s.gc.argTableOf cl.proto (cl.proto.extras (s.slots (funcIdx + 1) s.top)) = some (s'.gc, arg)
        else s'.gc = s.gc ∧ arg = none) ∧
      Entered s s' funcIdx (.ofLua cl.proto (s.slots (funcIdx + 1) s.top) arg wanted entry) := by
  rw [enterLua] at he
  obtain ⟨⟨t, newBase⟩, hadj, rfl⟩ := Option.map_eq_some_iff.mp he
  split_ifs at hadj with hvar
  · obtain ⟨arg, harg, hspec⟩ := adjustVarargs_spec h hadj
    obtain ⟨hent, hgc⟩ := pushFrame_spec arg wanted entry hci (by rw [if_pos hvar]; exact hspec)
    exact ⟨arg, by rw [if_pos hvar, harg]; exact congrArg (fun g => some (g, arg)) hgc.symm, hent⟩
  · obtain ⟨hspec, hgc⟩ := adjustFixed_spec cl.proto h
    rw [Option.some.inj hadj] at hspec hgc
    obtain ⟨hent, hgc'⟩ := pushFrame_spec none wanted entry hci (by
      rw [if_neg hvar]
      simpa using hspec)
    exact ⟨none, by rw [if_neg hvar]; exact ⟨hgc'.trans hgc, rfl⟩, hent⟩

theorem closureRef_eq_some {v : Val} {r : GcRef .closure} : v.closureRef = some r ↔ v = .function r := by
  cases v <;> simp [Val.closureRef]

theorem stackGet_insertCallee {funcIdx : ℕ} (h : funcIdx < s.top) (r : GcRef .closure) (i : ℕ) :
    (s.insertCallee funcIdx r).stackGet i =
      if i = funcIdx then .function r else if funcIdx < i ∧ i < s.top + 1 then s.stackGet (i - 1)
      else s.stackGet i := by
  refine (congrFun (slot_put ..) i).trans ?_
  rw [Function.update_apply, slot_shiftUp, ← stackGet_eq, stackGet_ensureStackLen]
  split_ifs with h1 h2
  · rfl
  · obtain ⟨j, rfl⟩ : ∃ j, i = funcIdx + 1 + j := ⟨i - (funcIdx + 1), by omega⟩
    rw [blit_add _ _ (by simp; omega)]
    simp [window]
  · rcases lt_or_ge i (funcIdx + 1) with hlt | hge
    · exact blit_of_lt _ _ hlt
    · exact blit_of_le _ (by simp; omega)

theorem resolveCallee_spec {funcIdx : ℕ} {r : GcRef .closure} (h : funcIdx < s.top)
    (he : s.resolveCallee funcIdx = .ok (s', r)) :
    resolve s.gc (s.stackGet funcIdx) (s.slots (funcIdx + 1) s.top) = some (r, s'.slots (funcIdx + 1) s'.top) ∧
      OnlyStack s s' ∧ s'.gc = s.gc ∧ funcIdx < s'.top ∧ s'.stackGet funcIdx = .function r ∧
      ∀ i < funcIdx, s'.stackGet i = s.stackGet i := by
  rw [resolveCallee] at he
  rw [resolve]
  cases hf : (s.stackGet funcIdx).closureRef with
  | some r' =>
    simp only [hf] at he ⊢
    cases he
    exact ⟨rfl, ⟨_, _, _, rfl⟩, rfl, h, closureRef_eq_some.mp hf, fun _ _ => rfl⟩
  | none =>
    simp only [hf] at he ⊢
    cases htm : (s.gc.gettmbyobj (s.stackGet funcIdx) .call).bind Val.closureRef with
    | none => simp [htm] at he
    | some r' =>
      simp only [htm] at he ⊢
      cases he
      have hget := stackGet_insertCallee h r
      have hmoved : window s.stackGet funcIdx s.top =
          window (s.insertCallee funcIdx r).stackGet (funcIdx + 1) (s.top + 1) := by
        have hshift : ∀ i < s.top - funcIdx,
            s.stackGet (funcIdx + i) = (s.insertCallee funcIdx r).stackGet (funcIdx + 1 + i) := by
          intro i hi
          rw [hget, if_neg (by omega), if_pos (by omega)]
          congr 1
          omega
        have := window_shift hshift
        rwa [Nat.add_sub_of_le h.le, show funcIdx + 1 + (s.top - funcIdx) = s.top + 1 by omega] at this
      refine ⟨?_, ⟨_, _, _, rfl⟩, rfl, by show funcIdx < s.top + 1; omega, (hget _).trans (if_pos rfl),
        fun i hi => (hget i).trans ((if_neg (by omega)).trans (if_neg (by omega)))⟩
      rw [Option.map_some, slots, ← window_cons _ h, hmoved]
      rfl

/-- `s'` is `s` after the call of the value at `funcIdx`, whose invocation is `f`. -/
structure Called (s s' : LuaState) (funcIdx : ℕ) (f : Frame) : Prop where
  ci_lt : s'.ci < s'.callStack.length
  frame : ∃ c, s'.chain = c :: s.chain ∧ c.func = funcIdx ∧ s'.base = c.base ∧
    FrameRel s'.stackGet s'.gc.protoOf s'.top c f
  below : ∀ i < funcIdx, s'.stackGet i = s.stackGet i
  protoOf_eq : s'.gc.protoOf = s.gc.protoOf

theorem precall_spec {funcIdx : ℕ} {wanted : Option ℕ} {res : CallResult} (entry : Entry) (h : funcIdx < s.top)
    (hci : s.ci < s.callStack.length) (he : s.precall funcIdx wanted = .ok (s', res)) :
    ∃ r args f, resolve s.gc (s.stackGet funcIdx) (s.slots (funcIdx + 1) s.top) = some (r, args) ∧
      enter s.gc r args wanted entry = some (s'.gc, f) ∧ Called s s' funcIdx f ∧ f.RunBy res := by
  rw [precall] at he
  split_ifs at he
  cases hres : s.resolveCallee funcIdx with
  | error e => simp [hres] at he
  | ok x =>
    obtain ⟨t, r⟩ := x
    obtain ⟨hresolve, honly, hgc, htop, hfunc, hbelow⟩ := resolveCallee_spec h hres
    simp only [hres] at he
    refine ⟨r, t.slots (funcIdx + 1) t.top, ?_⟩
    have hcalled : ∀ {s' : LuaState} {f : Frame}, Entered t s' funcIdx f → s'.gc.protoOf = s.gc.protoOf →
        f.proto = s.gc.protoOf (.function r) → Called s s' funcIdx f := by
      intro s' f hent hproto hf
      obtain ⟨c, hchain, hc, hbase, hrel⟩ := hent.frame
      refine ⟨hent.ci_lt, ⟨c, by rw [hchain, honly.chain_eq], hc, hbase, hrel _ ?_⟩,
        fun i hi => (hent.below i hi.le).trans (hbelow i hi), hproto⟩
      rw [hent.below _ le_rfl, hfunc, hproto, hf]
    cases hcl : t.gc.heap.get r with
    | none => simp [hcl] at he
    | some cl =>
      rw [hgc] at hcl
      cases cl with
      | rust cl =>
        simp only [hgc, hcl] at he
        cases he
        obtain ⟨hent, hgc'⟩ := enterRust_spec htop (honly.ci_lt hci) wanted entry
        rw [hgc] at hgc'
        refine ⟨_, hresolve, by rw [enter, hcl, hgc'], hcalled hent (by rw [hgc']) ?_, rfl⟩
        simp [protoOf, hcl, Frame.ofRust]
      | lua cl =>
        simp only [hgc, hcl] at he
        cases henter : t.enterLua cl funcIdx wanted with
        | none => simp [henter] at he
        | some t' =>
          simp only [henter] at he
          cases he
          obtain ⟨arg, harg, hent⟩ := enterLua_spec entry htop (honly.ci_lt hci) henter
          rw [hgc] at harg
          have hproto : s'.gc.protoOf = s.gc.protoOf := by
            split_ifs at harg
            · exact protoOf_congr (closures_argTableOf harg)
            · rw [harg.1]
          refine ⟨_, hresolve, ?_, hcalled hent hproto ?_, rfl⟩
          · rw [enter, hcl]
            dsimp only
            split_ifs at harg ⊢
            · rw [harg]
              rfl
            · rw [harg.1, harg.2]
          · simp [protoOf, hcl, Frame.ofLua]

/-! ### Leaving a frame -/

/-- `s'` is `s` after leaving the frame `c` with the given results, back in the frame `c'`. -/
structure Left (s s' : LuaState) (c c' : CallInfo) (cs : List CallInfo) (results : List Val) : Prop where
  ci_lt : s'.ci < s'.callStack.length
  chain_eq : s'.chain = c' :: cs
  base_eq : s'.base = c'.base
  gc_eq : s'.gc = s.gc
  le_top : c.func ≤ s'.top
  results_eq : s'.slots c.func s'.top = deliver c.numResults results
  below : ∀ i < c.func, s'.stackGet i = s.stackGet i

theorem poscall_spec {c c' : CallInfo} {cs : List CallInfo} (firstResult : ℕ) (hci : s.ci < s.callStack.length)
    (h : s.chain = c :: c' :: cs) :
    Left s (s.poscall firstResult).1 c c' cs (s.slots firstResult s.top) ∧
      (s.poscall firstResult).2 = c.numResults.isSome := by
  obtain ⟨hchain, hlt⟩ := chain_popCi hci h
  have hbase : (s.popCi.callInfo s.popCi.ci).base = c'.base := by rw [callInfo_ci hlt hchain]
  rw [poscall, callInfo_ci hci h]
  rcases hw : c.numResults with _ | _ | _ | n
  · have hget : ∀ top base, stackGet { s.popCi with
        stack := putAll .nil s.stack c.func (s.slots firstResult s.top), top, base } =
        blit s.stackGet c.func (s.slots firstResult s.top) := fun _ _ => slot_putAll ..
    refine ⟨⟨hlt, hchain, hbase, rfl, Nat.le_add_right .., ?_, fun i hi => ?_⟩, rfl⟩
    · have hlen : s.top - firstResult = (s.slots firstResult s.top).length := (length_window ..).symm
      rw [hw, deliver, slots]
      refine (congrArg (fun f => window f c.func (c.func + (s.top - firstResult))) (hget _ _)).trans ?_
      rw [hlen, window_blit_self]
    · exact (congrFun (hget _ _) i).trans (blit_of_lt _ _ hi)
  · exact ⟨⟨hlt, hchain, hbase, rfl, le_rfl, by rw [hw]; exact window_self .., fun _ _ => rfl⟩, rfl⟩
  · have hget : ∀ v top base, stackGet { (s.popCi.stackSet c.func v) with top, base } =
        Function.update s.stackGet c.func v := fun _ _ _ => slot_put ..
    refine ⟨⟨hlt, hchain, hbase, rfl, Nat.le_succ _, ?_, fun i hi => ?_⟩, rfl⟩
    · rw [hw, deliver, slots]
      refine (congrArg (fun f => window f c.func (c.func + 1)) (hget _ _ _)).trans ?_
      refine window_eq_takeD (n := 1) fun i hi => ?_
      obtain rfl : i = 0 := by omega
      exact Function.update_self ..
    · exact (congrFun (hget _ _ _) i).trans (Function.update_of_ne hi.ne _ _)
  · have hget : ∀ top base, stackGet { (fillNil (ensureStackLen { s.popCi with
        stack := putAll .nil s.stack c.func
          (s.slots firstResult (firstResult + min (s.top - firstResult) (n + 2))) } (c.func + (n + 2)))
        (c.func + min (s.top - firstResult) (n + 2)) (c.func + (n + 2))) with top, base } =
        blit (blit s.stackGet c.func (s.slots firstResult (firstResult + min (s.top - firstResult) (n + 2))))
          (c.func + min (s.top - firstResult) (n + 2))
          (List.replicate (c.func + (n + 2) - (c.func + min (s.top - firstResult) (n + 2))) .nil) := by
      intro top base
      refine (stackGet_fillNil ..).trans ?_
      rw [stackGet_ensureStackLen]
      exact congrArg (fun f => blit f _ _) (slot_putAll ..)
    refine ⟨⟨hlt, hchain, hbase, rfl, Nat.le_add_right .., ?_, fun i hi => ?_⟩, rfl⟩
    · rw [hw, deliver, slots]
      refine (congrArg (fun f => window f c.func (c.func + (n + 2))) (hget _ _)).trans ?_
      refine window_eq_takeD fun i hi => ?_
      rw [blit_replicate]
      split_ifs with h1 h2 h2
      · omega
      · rfl
      · rw [blit_add _ _ (by simp [slots]; omega)]
        simp [slots, window]
      · omega
    · refine (congrFun (hget _ _) i).trans ?_
      rw [blit_of_lt _ _ (by omega), blit_of_lt _ _ hi]

/-- The frame of a Lua function is as long as its window. -/
theorem length_regs_of_enter {g g' : Gc} {r : GcRef .closure} {args : List Val} {wanted : Option ℕ} {entry : Entry}
    {f : Frame} (h : enter g r args wanted entry = some (g', f)) (hf : f.proto.isSome) :
    f.regs.length = f.window := by
  rw [enter] at h
  split at h
  · split_ifs at h
    · obtain ⟨⟨g₁, arg⟩, -, heq⟩ := Option.map_eq_some_iff.mp h
      cases heq
      exact List.takeD_length ..
    · cases h
      exact List.takeD_length ..
  · cases h
    cases hf
  · cases h

theorem replaceFrame_spec {proto : Val → Option Proto} {c cp : CallInfo} {cs : List CallInfo} {f : Frame}
    (hci : s.ci < s.callStack.length) (h : s.chain = c :: cp :: cs) (hrel : FrameRel s.stackGet proto s.top c f)
    (hlen : f.regs.length = f.window) (hlt : cp.func < c.func) :
    ∃ c', s.replaceFrame.chain = c' :: cs ∧ s.replaceFrame.ci < s.replaceFrame.callStack.length ∧
      c'.func = cp.func ∧ s.replaceFrame.base = c'.base ∧
      FrameRel s.replaceFrame.stackGet proto s.replaceFrame.top c' { f with wanted := cp.numResults } ∧
      ∀ i < cp.func, s.replaceFrame.stackGet i = s.stackGet i := by
  obtain ⟨hchain, hpop⟩ := chain_popCi hci h
  have hprev : s.callInfo (s.ci - 1) = cp := callInfo_ci hpop hchain
  have htop : s.top = c.base + f.window := by
    have := congrArg List.length hrel.regs_eq
    have := hrel.base_le
    rw [length_window] at *
    omega
  have hget : s.replaceFrame.stackGet = blit s.stackGet cp.func (window s.stackGet c.func s.top) := by
    rw [replaceFrame, hprev, callInfo_ci hci h]
    refine (slot_copyUp _ _ hlt.le _).trans ?_
    rw [Nat.add_sub_of_le (hrel.func_lt.le.trans hrel.base_le)]
    rfl
  have hmoved : ∀ j < s.top - c.func, s.replaceFrame.stackGet (cp.func + j) = s.stackGet (c.func + j) := by
    intro j hj
    rw [hget, blit_add _ _ (by simpa using hj)]
    simp [window]
  have hnewTop : s.replaceFrame.top = cp.func + (s.top - c.func) := by
    rw [replaceFrame, hprev, callInfo_ci hci h]
    rfl
  have hfunc := hrel.func_lt
  have hbase := hrel.base_le
  refine ⟨{ cp with base := cp.func + (c.base - c.func), top := cp.func + (s.top - c.func), savedPc := c.savedPc },
    ?_, ?_, rfl, ?_, ⟨?_, ?_, ?_, ?_, ?_, rfl, ?_, hrel.pc_eq, ?_⟩, fun i hi => by rw [hget, blit_of_lt _ _ hi]⟩
  · rw [replaceFrame, hprev, callInfo_ci hci h]
    exact chain_modifyCallInfo hpop hchain _
  · show s.ci - 1 < (s.callStack.modify _ _).length
    rw [List.length_modify]
    exact hpop
  · rw [replaceFrame, hprev, callInfo_ci hci h]
    rfl
  · show cp.func < cp.func + (c.base - c.func)
    omega
  · rw [hnewTop]
    show cp.func + (c.base - c.func) ≤ _
    omega
  · rw [show ({ f with wanted := cp.numResults } : Frame).proto = f.proto from rfl, hrel.proto_eq]
    exact congrArg proto (hmoved 0 (by omega)).symm
  · show f.regs = window _ (cp.func + (c.base - c.func)) _
    rw [hnewTop, hrel.regs_eq, show cp.func + (s.top - c.func) = cp.func + (c.base - c.func) + (s.top - c.base) by omega]
    conv_lhs => rw [← Nat.add_sub_of_le hbase]
    refine window_shift fun i hi => ?_
    rw [Nat.add_assoc, hmoved _ (by omega)]
    congr 1
    omega
  · show f.varargs = (window _ (cp.func + 1) (cp.func + (c.base - c.func))).drop f.numParams
    rw [hrel.varargs_eq]
    refine congrArg (List.drop f.numParams) ?_
    rw [show c.base = c.func + 1 + (c.base - c.func - 1) by omega,
      show cp.func + (c.func + 1 + (c.base - c.func - 1) - c.func) = cp.func + 1 + (c.base - c.func - 1) by omega]
    refine window_shift fun i hi => ?_
    rw [Nat.add_assoc cp.func, hmoved _ (by omega), Nat.add_assoc]
  · show cp.func + (s.top - c.func) = cp.func + (c.base - c.func) + f.window
    omega
  · intro hf
    show cp.func + (c.base - c.func) = cp.func + 1
    have := hrel.base_eq hf
    omega

/-! ### Extra arguments -/

theorem copyVarargs_spec (n src dst avail : ℕ) (h : 0 < avail → src + avail ≤ dst) (s : LuaState) :
    (copyVarargs n src dst avail s).stackGet =
        blit s.stackGet dst ((window s.stackGet src (src + avail)).takeD n .nil) ∧
      ∃ stack, copyVarargs n src dst avail s = { s with stack } := by
  induction n generalizing s src dst avail with
  | zero => exact ⟨rfl, _, rfl⟩
  | succ n ih =>
    set v := if 0 < avail then s.stackGet src else Val.nil with hv
    obtain ⟨hget, hstack⟩ := ih (src + 1) (dst + 1) (avail - 1) (fun _ => by omega)
      (s.stackSet dst v)
    have hset : (s.stackSet dst v).stackGet = Function.update s.stackGet dst v := slot_put ..
    refine ⟨?_, ?_⟩
    · rw [copyVarargs, hget, hset]
      rcases Nat.eq_zero_or_pos avail with rfl | hpos
      · rw [Nat.add_zero, window_self, window_of_le _ (by omega)]
        simp [blit_cons, hv]
      · have hrest : window (Function.update s.stackGet dst v) (src + 1) (src + 1 + (avail - 1)) =
            window s.stackGet (src + 1) (src + avail) := by
          rw [show src + 1 + (avail - 1) = src + avail by omega]
          exact window_congr fun i _ hi => Function.update_of_ne (by omega) _ _
        rw [hrest, window_cons _ (show src < src + avail by omega), hv, if_pos hpos]
        rfl
    · obtain ⟨stack, heq⟩ := hstack
      exact ⟨stack, by rw [copyVarargs, heq]; rfl⟩

theorem window_blit_overlay (f : ℕ → Val) (lo a hi : ℕ) (vals : List Val) :
    window (blit f (lo + a) vals) lo hi = overlay a vals (window f lo hi) := by
  refine List.ext_getElem? fun i => ?_
  rw [overlay, length_window, List.getElem?_take, getElem?_window]
  rcases lt_or_ge i (hi - lo) with hi' | hi'
  · rw [if_pos (by omega), if_pos hi', List.append_assoc]
    rcases lt_or_ge i a with ha | ha
    · rw [blit_of_lt _ _ (by omega), List.getElem?_append_left (by simp; omega), List.getElem?_take, if_pos ha,
        getElem?_window, if_pos (by omega)]
    · have hlen : ((window f lo hi).take a).length = a := by simp; omega
      rw [List.getElem?_append_right (by omega), hlen]
      rcases lt_or_ge (i - a) vals.length with hv | hv
      · rw [List.getElem?_append_left hv, List.getElem?_eq_getElem hv, ← blit_add f (lo + a) hv]
        congr 2
        omega
      · rw [List.getElem?_append_right hv, blit_of_le _ (by omega), List.getElem?_drop, getElem?_window,
          show a + vals.length + (i - a - vals.length) = i by omega, if_pos (by omega)]
  · rw [if_neg (by omega), if_neg (by omega)]

theorem opVarArg_spec {proto : Val → Option Proto} {p : Proto} {c : CallInfo} {cs : List CallInfo} {f : Frame}
    (a b : ℕ) (hci : s.ci < s.callStack.length) (h : s.chain = c :: cs)
    (hrel : FrameRel s.stackGet proto s.top c f) (hbase : s.base = c.base) (hp : f.proto = some p) :
    OnlyStack s (s.opVarArg p a b) ∧ (s.opVarArg p a b).gc = s.gc ∧
      (∀ i < c.base, (s.opVarArg p a b).stackGet i = s.stackGet i) ∧ c.base ≤ (s.opVarArg p a b).top ∧
      if b = 0 then ∃ below, Resized a f.regs below ∧
        (s.opVarArg p a b).slots c.base (s.opVarArg p a b).top = below ++ f.varargs
      else (s.opVarArg p a b).slots c.base (s.opVarArg p a b).top =
        overlay a (f.varargs.takeD (b - 1) .nil) f.regs := by
  have hnum : f.numParams = p.numParams.toNat := by simp [Frame.numParams, hp]
  have hvar : f.varargs = window s.stackGet (c.func + 1 + p.numParams.toNat) c.base := by
    rw [hrel.varargs_eq, drop_window, hnum]
  -- The values copied are the extra arguments, whatever number of them is asked for.
  have hcopy : ∀ n top, (copyVarargs n (c.func + 1 + p.numParams.toNat) (c.base + a)
      (c.base - (c.func + 1 + p.numParams.toNat)) (s.ensureStackLen top)).stackGet =
      blit s.stackGet (c.base + a) (f.varargs.takeD n .nil) := by
    intro n top
    rw [(copyVarargs_spec n _ _ _ (fun _ => by omega) _).1, stackGet_ensureStackLen, hvar]
    rcases le_total c.base (c.func + 1 + p.numParams.toNat) with hle | hle
    · rw [window_of_le _ hle, window_of_le _ (by omega)]
    · rw [Nat.add_sub_of_le hle]
  have honly : ∀ n top, ∃ stack, copyVarargs n (c.func + 1 + p.numParams.toNat) (c.base + a)
      (c.base - (c.func + 1 + p.numParams.toNat)) (s.ensureStackLen top) = { s with stack } := by
    intro n top
    obtain ⟨stack, heq⟩ := (copyVarargs_spec n (c.func + 1 + p.numParams.toNat) (c.base + a)
      (c.base - (c.func + 1 + p.numParams.toNat)) (fun _ => by omega) (s.ensureStackLen top)).2
    exact ⟨stack, heq⟩
  rw [opVarArg, callInfo_ci hci h, hbase]
  rcases Nat.eq_zero_or_pos b with rfl | hb
  · have hlen : c.base - (c.func + 1 + p.numParams.toNat) = f.varargs.length := by rw [hvar, length_window]
    simp only [if_true]
    have hget := hcopy (c.base - (c.func + 1 + p.numParams.toNat))
      (s.top + (c.base + a + (c.base - (c.func + 1 + p.numParams.toNat))))
    obtain ⟨stack, heq⟩ := honly (c.base - (c.func + 1 + p.numParams.toNat))
      (s.top + (c.base + a + (c.base - (c.func + 1 + p.numParams.toNat))))
    rw [takeD_of_length_eq hlen.symm, heq] at hget
    rw [heq]
    refine ⟨⟨_, _, _, rfl⟩, rfl, fun i hi => ?_, ?_, window s.stackGet c.base (c.base + a), ⟨?_, ?_⟩, ?_⟩
    · exact (congrFun hget i).trans (blit_of_lt _ _ (by omega))
    · show c.base ≤ c.base + a + _
      omega
    · rw [length_window, Nat.add_sub_cancel_left]
    · rw [hrel.regs_eq, take_window]
      exact window_prefix _ _ (min_le_right ..)
    · refine (congrArg (fun g => window g c.base (c.base + a + _)) hget).trans ?_
      rw [← window_append _ (Nat.le_add_right c.base a) (Nat.le_add_right ..), window_blit_of_le _ _ le_rfl, hlen,
        window_blit_self]
  · have hb' : b ≠ 0 := by omega
    simp only [if_neg hb']
    have hget := hcopy (b - 1) (s.top + (c.base + a + (b - 1)))
    obtain ⟨stack, heq⟩ := honly (b - 1) (s.top + (c.base + a + (b - 1)))
    rw [heq] at hget ⊢
    refine ⟨⟨_, _, _, rfl⟩, rfl, fun i hi => ?_, hrel.base_le, ?_⟩
    · exact (congrFun hget i).trans (blit_of_lt _ _ (by omega))
    · refine (congrArg (fun g => window g c.base s.top) hget).trans ?_
      rw [window_blit_overlay, hrel.regs_eq]

end LuaState

end Rilua.Vm
