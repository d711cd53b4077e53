import Rilua.Vm.ProtoMeaning

/-! Preparing a prototype that has been loaded from a dump. Interning its constants does not change its
    meaning; rewriting the accesses to globals changes it only through the names of the slots. -/

namespace Rilua.Vm

open Lib Gc

namespace InternState

/-- The value `v` has the content `c`, now and after any further interning. -/
def Resolved (s : InternState) (c : Constant) (v : Val) : Prop :=
  ∀ s', Extends s s' → ∀ i, constantOf (some s'.stringArena) [] i v = c

theorem Resolved.mono {s s' : InternState} (hs : Extends s s') {c : Constant} {v : Val}
    (h : Resolved s c v) : Resolved s' c v := fun s'' hs'' => h s'' (hs.trans hs'')

theorem resolved_placeholder (s : InternState) {c : Constant} (hc : ∀ bytes, c ≠ .str bytes)
    (hi : c ≠ .invalid) : Resolved s c c.placeholder := by
  cases c with
  | nil => exact fun _ _ _ => rfl
  | bool b => exact fun _ _ _ => rfl
  | num n => exact fun _ _ _ => rfl
  | str bytes => exact absurd rfl (hc bytes)
  | invalid => exact absurd rfl hi

theorem resolved_str {s : InternState} {r : GcRef .string} {bytes : List UInt8} (h : s.Denotes r bytes) :
    Resolved s (.str bytes) (.str r) := by
  intro s' hs i
  rw [constantOf, Option.bind_some, hs r _ h, Option.elim_some]

/-- Interning the pool of a loaded prototype resolves the constants from `pre` on. -/
theorem patchEntries_spec : ∀ (cs : List Constant) (pre : List Val) {s : InternState} {n : ℕ}, s.Inv →
    s.HasRoom (n + cs.length) → .invalid ∉ cs → pre.length + cs.length ≤ 2 ^ 32 →
    ∃ s' vals, patchEntries ((cs.zipIdx pre.length).filterMap Constant.poolEntry)
        (pre ++ cs.map Constant.placeholder) s = some (s', pre ++ vals) ∧
      s'.Inv ∧ Extends s s' ∧ s'.HasRoom n ∧ List.Forall₂ (Resolved s') cs vals
  | [], pre, s, n, h, hroom, _, _ => ⟨s, [], rfl, h, .refl s, hroom, .nil⟩
  | c :: cs, pre, s, n, h, hroom, hvalid, hlen => by
    rw [List.mem_cons, not_or] at hvalid
    rw [List.length_cons] at hroom hlen
    -- the rest of the constants, once this one stands as `v`
    have hrest : ∀ (v : Val) {s₁ : InternState}, s₁.Inv → Extends s s₁ → s₁.HasRoom (n + cs.length) →
        Resolved s₁ c v →
        ∃ s' vals, patchEntries ((cs.zipIdx (pre.length + 1)).filterMap Constant.poolEntry)
            (pre ++ v :: cs.map Constant.placeholder) s₁ = some (s', pre ++ vals) ∧
          s'.Inv ∧ Extends s s' ∧ s'.HasRoom n ∧ List.Forall₂ (Resolved s') (c :: cs) vals := by
      intro v s₁ h₁ hs₁ hroom₁ hv
      obtain ⟨s', vals, hpatch, h', hs', hroom', hvals⟩ := patchEntries_spec cs (pre ++ [v]) h₁ hroom₁
        hvalid.2 (by rw [List.length_append, List.length_singleton]; omega)
      refine ⟨s', v :: vals, ?_, h', hs₁.trans hs', hroom', .cons (hv.mono hs') hvals⟩
      rw [List.length_append, List.length_singleton, List.append_assoc, List.append_assoc] at hpatch
      exact hpatch
    have hplain : (∀ bytes, c ≠ .str bytes) → Constant.poolEntry (c, pre.length) = none →
        ∃ s' vals, patchEntries (((c :: cs).zipIdx pre.length).filterMap Constant.poolEntry)
            (pre ++ (c :: cs).map Constant.placeholder) s = some (s', pre ++ vals) ∧
          s'.Inv ∧ Extends s s' ∧ s'.HasRoom n ∧ List.Forall₂ (Resolved s') (c :: cs) vals := by
      intro hc hentry
      rw [List.zipIdx_cons, List.filterMap_cons_none hentry, List.map_cons]
      exact hrest _ h (.refl s) (by rw [HasRoom] at *; omega)
        (resolved_placeholder s hc (Ne.symm hvalid.1))
    cases c with
    | nil => exact hplain (fun _ h => by cases h) rfl
    | bool b => exact hplain (fun _ h => by cases h) rfl
    | num x => exact hplain (fun _ h => by cases h) rfl
    | invalid => exact absurd rfl hvalid.1
    | str bytes =>
      obtain ⟨s₁, r, hcall, h₁, hs₁, hd, hroom₁⟩ := call_total (c := .internHashedOwned bytes (luaHash bytes)) h
        (n := n + cs.length) (by rw [HasRoom] at *; omega) rfl
      obtain ⟨s', vals, hpatch, hspec⟩ := hrest (.str r) h₁ hs₁ hroom₁ (resolved_str hd)
      refine ⟨s', vals, ?_, hspec⟩
      have hidx : (BitVec.ofNat 32 pre.length).toNat = pre.length := by
        rw [BitVec.toNat_ofNat]
        exact Nat.mod_eq_of_lt (by omega)
      have hset : (pre ++ Val.nil :: cs.map Constant.placeholder).set pre.length (.str r) =
          pre ++ Val.str r :: cs.map Constant.placeholder := by
        rw [List.set_append_right _ _ (Nat.le_refl _), Nat.sub_self, List.set_cons_zero]
      have hentry : Constant.poolEntry (.str bytes, pre.length) =
          some ⟨BitVec.ofNat 32 pre.length, bytes, luaHash bytes⟩ := rfl
      rw [List.zipIdx_cons, List.filterMap_cons_some hentry, List.map_cons, patchEntries, hcall]
      simp only [Option.bind_eq_bind, Option.bind_some, hidx, Constant.placeholder, hset]
      rw [if_pos (by simp), hpatch]

end InternState

namespace PrepareState

variable {st : PrepareState}

/-- The slot of a string is the slot of its bytes. -/
theorem keyToSlot_eq (h : st.Ok) {rt : GlobalSlotRuntime} (hrt : st.globalSlots = some rt)
    {r : GcRef .string} {x : LuaString} (hx : st.gc.stringArena.get r = some x) :
    rt.keyToSlot r = st.slotOf x.data := by
  rw [slotOf, hrt, Option.bind_some, GlobalSlotRuntime.keyToSlot]
  refine congrArg (fun l : List (GcRef .string × ℕ) => l.getLast?.map fun x => BitVec.ofNat 32 x.2)
    (List.filter_congr fun y hy => ?_)
  rw [decide_eq_decide]
  constructor
  · rintro rfl
    rw [hx, Option.map_some]
  · intro hdata
    obtain ⟨z, hz, hzx⟩ := Option.map_eq_some_iff.mp hdata
    refine h.inv.unique _ _ z hz ?_
    rw [hx]
    obtain ⟨hash, data⟩ := x
    obtain ⟨hash', data'⟩ := z
    have hash_eq := h.inv.hash_eq _ _ hx
    have hash_eq' := h.inv.hash_eq _ _ hz
    simp only at hzx hash_eq hash_eq'
    rw [hash_eq, hash_eq', hzx]

/-- Further interning leaves the names of the slots as they are. -/
theorem slotName_mono (h : st.Ok) {s' : InternState} (hs : st.gc.Extends s') (i : ℕ) :
    slotName { st with gc := s' } i = st.slotName i := by
  rw [slotName, slotName]
  cases hrt : st.globalSlots with
  | none => rfl
  | some rt =>
    simp only [Option.bind_some]
    cases hk : rt.nameKeys[i]? with
    | none => rfl
    | some key =>
      obtain ⟨x, hx⟩ := Option.isSome_iff_exists.mp (h.keys rt hrt key (List.mem_of_getElem? hk))
      rw [Option.bind_some, Option.bind_some, hx, hs key x hx]

theorem slotOf_mono (h : st.Ok) {s' : InternState} (hs : st.gc.Extends s') (name : List UInt8) :
    slotOf { st with gc := s' } name = st.slotOf name := by
  rw [slotOf, slotOf]
  cases hrt : st.globalSlots with
  | none => rfl
  | some rt =>
    simp only [Option.bind_some]
    refine congrArg (fun l : List (GcRef .string × ℕ) => l.getLast?.map fun x => BitVec.ofNat 32 x.2)
      (List.filter_congr fun y hy => ?_)
    obtain ⟨x, hx⟩ := Option.isSome_iff_exists.mp (h.keys rt hrt y.1 (List.fst_mem_of_mem_zipIdx hy))
    rw [hx, hs _ x hx]

theorem preparedInstr_mono (h : st.Ok) {s' : InternState} (hs : st.gc.Extends s') (cs : List Constant)
    (i : Instruction) : preparedInstr { st with gc := s' } cs i = st.preparedInstr cs i := by
  have hname : ∀ op, accessName { st with gc := s' } op = st.accessName op := fun op => by
    funext name
    simp only [accessName, accessSlot, slotOf_mono h hs, slotName_mono h hs]
  simp only [preparedInstr, hname, slotName_mono h hs]

theorem Ok.mono (h : st.Ok) {s' : InternState} (hs : st.gc.Extends s') (hinv : s'.Inv) :
    Ok { st with gc := s' } where
  inv := hinv
  keys rt hrt key hkey := by
    obtain ⟨x, hx⟩ := Option.isSome_iff_exists.mp (h.keys rt hrt key hkey)
    exact Option.isSome_iff_exists.mpr ⟨x, hs key x hx⟩

/-- The instruction that `patch_global_slot_opcodes` puts in the place of `raw`. -/
def patchedRaw (st : PrepareState) (constants : List Val) (raw : BitVec 32) : BitVec 32 :=
  st.globalSlots.elim raw fun rt => Vm.patchedRaw rt constants raw

/-- The constants `vals` have the contents `cs`. -/
def Contents (st : PrepareState) (cs : List Constant) (vals : List Val) : Prop :=
  ∀ i : ℕ, cs[i]? = (vals[i]?).map (constantOf (some st.gc.stringArena) [] i)

theorem contents_of_resolved {cs : List Constant} {vals : List Val}
    (h : List.Forall₂ (InternState.Resolved st.gc) cs vals) : st.Contents cs vals := by
  have hany : ∀ i j : ℕ, cs[i]? = (vals[i]?).map (constantOf (some st.gc.stringArena) [] j) := by
    intro i j
    induction h generalizing i with
    | nil => rfl
    | cons hv _ ih =>
      cases i with
      | zero => exact congrArg some (hv st.gc (.refl _) j).symm
      | succ i => exact ih i
  exact fun i => hany i i

/-- The opcodes that access a global by name. -/
def IsGlobal (op : OpCode) : Prop := op = .getGlobal ∨ op = .setGlobal

/-- The opcodes that access a global by its slot. -/
def IsSlot (op : OpCode) : Prop := op = .getGlobalSlot ∨ op = .setGlobalSlot

/-- The slot of an access to a global is found by its name. -/
theorem resolveSlotIndex_name (h : st.Ok) {rt : GlobalSlotRuntime} (hrt : st.globalSlots = some rt)
    {vals : List Val} {cs : List Constant} (hcs : st.Contents cs vals) {op : OpCode} (hop : IsGlobal op)
    {bx : ℕ} {name : List UInt8} (hname : cs[bx]?.bind Constant.name? = some name) :
    resolveSlotIndex rt vals op bx = st.accessSlot op name := by
  obtain ⟨c, hc, hcn⟩ := Option.bind_eq_some_iff.mp hname
  rw [hcs] at hc
  obtain ⟨v, hv, rfl⟩ := Option.map_eq_some_iff.mp hc
  cases v with
  | str r =>
    rw [constantOf, Option.bind_some] at hcn
    cases hx : st.gc.stringArena.get r with
    | none => rw [hx] at hcn; cases hcn
    | some x =>
      rw [hx] at hcn
      cases hcn
      rcases hop with rfl | rfl <;>
        simp only [resolveSlotIndex, hv, accessSlot, keyToSlot_eq h hrt hx]
  | nil => cases hcn
  | bool b => cases hcn
  | num n => cases hcn
  | table r => cases hcn
  | function r => cases hcn
  | userdata r => cases hcn
  | thread r => cases hcn
  | lightUserdata p => cases hcn

/-- An access whose constant is not a string has no slot. -/
theorem resolveSlotIndex_none (rt : GlobalSlotRuntime) {vals : List Val} {cs : List Constant}
    (hcs : st.Contents cs vals) (hvalid : .invalid ∉ cs) {op : OpCode} (hop : IsGlobal op) {bx : ℕ}
    (hname : cs[bx]?.bind Constant.name? = none) : resolveSlotIndex rt vals op bx = none := by
  cases hv : vals[bx]? with
  | none => rcases hop with rfl | rfl <;> simp only [resolveSlotIndex, hv]
  | some v =>
    have hc := hcs bx
    rw [hv, Option.map_some] at hc
    rw [hc, Option.bind_some] at hname
    cases v with
    | str r =>
      rw [constantOf, Option.bind_some] at hname hc
      cases hx : st.gc.stringArena.get r with
      | none =>
        rw [hx] at hc
        exact absurd (List.mem_of_getElem? hc) hvalid
      | some x => rw [hx] at hname; cases hname
    | _ => rcases hop with rfl | rfl <;> simp only [resolveSlotIndex, hv]

/-- The instruction that an access by name is rewritten to. -/
theorem instrMeaning_global (h : st.Ok) {rt : GlobalSlotRuntime} (hrt : st.globalSlots = some rt)
    {vals : List Val} {cs : List Constant} (hcs : st.Contents cs vals) (hvalid : .invalid ∉ cs)
    {i : Instruction} (hop : IsGlobal i.opcode) :
    instrMeaning cs st.slotName ((patchInstruction rt vals i).elim i Prod.fst) = st.preparedInstr cs i := by
  rw [patchInstruction]
  cases hn : cs[i.bx.toNat]?.bind Constant.name? with
  | none =>
    rw [resolveSlotIndex_none rt hcs hvalid hop hn]
    rcases hop with hop | hop <;> simp [hop, slotOpcode, instrMeaning, preparedInstr, hn]
  | some name =>
    rw [resolveSlotIndex_name h hrt hcs hop hn]
    rcases hop with hop | hop
    all_goals
      simp only [hop, slotOpcode, preparedInstr, hn, accessName, Option.bind_eq_bind, Option.bind_some]
      cases st.accessSlot _ name with
      | none => simp [instrMeaning, hop, hn]
      | some slotIdx => simp [instrMeaning]

/-- A slot opcode accesses the slot it did. -/
theorem instrMeaning_slot (rt : GlobalSlotRuntime) (vals : List Val) (cs : List Constant) {i : Instruction}
    (hop : IsSlot i.opcode) :
    instrMeaning cs st.slotName ((patchInstruction rt vals i).elim i Prod.fst) = st.preparedInstr cs i := by
  have hbx : (BitField.get 0 sizeBx (BitVec.ofNat 32 i.bx.toNat)).toNat = i.bx.toNat := by
    have hlt := i.bx_lt
    simp only [sizeBx, sizeB, sizeC] at hlt
    rw [BitField.toNat_get _ (by decide), BitVec.toNat_ofNat]
    simp only [sizeBx, sizeB, sizeC]
    omega
  rw [patchInstruction]
  rcases hop with hop | hop <;>
    simp only [hop, slotOpcode, resolveSlotIndex, Option.bind_eq_bind, Option.bind_some, Option.elim_some,
      instrMeaning, preparedInstr, Instruction.opcode_setBx, Instruction.opcode_setOpcode,
      Instruction.a_setBx, Instruction.a_setOpcode, Instruction.bx_setBx, hbx]

/-- The names accessed by the instructions of a prototype whose constants have the contents `cs`. -/
theorem instrMeaning_patchedRaw (h : st.Ok) {vals : List Val} {cs : List Constant}
    (hcs : st.Contents cs vals) (hvalid : .invalid ∉ cs) (raw : BitVec 32) :
    instrMeaning cs st.slotName ⟨st.patchedRaw vals raw⟩ = st.preparedInstr cs ⟨raw⟩ := by
  rw [patchedRaw]
  cases hrt : st.globalSlots with
  | none =>
    -- nothing is rewritten, and no name has a slot
    have hname : ∀ op name, st.accessName op name = some name := fun op name => by
      rw [accessName, accessSlot, slotOf, hrt]
      rfl
    have hbind : ∀ (op : OpCode) (x : Option (List UInt8)), x.bind (st.accessName op) = x := fun op x => by
      cases x with
      | none => rfl
      | some name => rw [Option.bind_some, hname]
    rw [Option.elim_none, instrMeaning, preparedInstr]
    simp only [hbind]
  | some rt =>
    have helim : (Vm.patchedRaw rt vals raw : BitVec 32) =
        ((patchInstruction rt vals ⟨raw⟩).elim ⟨raw⟩ Prod.fst).raw := by
      rw [Vm.patchedRaw]
      cases patchInstruction rt vals ⟨raw⟩ <;> rfl
    rw [Option.elim_some, helim]
    change instrMeaning cs st.slotName ((patchInstruction rt vals ⟨raw⟩).elim ⟨raw⟩ Prod.fst) = _
    cases hop : (⟨raw⟩ : Instruction).opcode
    case getGlobal => exact instrMeaning_global h hrt hcs hvalid (.inl hop)
    case setGlobal => exact instrMeaning_global h hrt hcs hvalid (.inr hop)
    case getGlobalSlot => exact instrMeaning_slot rt vals cs (.inl hop)
    case setGlobalSlot => exact instrMeaning_slot rt vals cs (.inr hop)
    all_goals
      have hnone : patchInstruction rt vals ⟨raw⟩ = none := by rw [patchInstruction, hop]; rfl
      rw [hnone]
      simp only [Option.elim_none, instrMeaning, preparedInstr, hop]

/-- Rewriting the accesses to globals changes only the instructions. -/
theorem meaning_patchGlobalSlotOpcodes (st : PrepareState) (arena : Option StringArena)
    (slotName : ℕ → Option (List UInt8)) (strip : Bool) (p : Proto) :
    (patchGlobalSlotOpcodes st p).meaning arena slotName strip =
      { p.meaning arena slotName strip with
        code := p.code.map fun raw =>
          instrMeaning (p.constantList arena) slotName ⟨st.patchedRaw p.constants raw⟩
        children := p.protos.map fun c => (patchGlobalSlotOpcodes st c).meaning arena slotName strip } := by
  obtain ⟨⟩ := p
  simp only [patchGlobalSlotOpcodes, patchedRaw]
  cases st.globalSlots with
  | none => simp only [Proto.meaning, Proto.meaningList_eq, Option.elim_none]
  | some rt =>
    simp only [patchGlobalSlots, Proto.meaning, Proto.meaningList_eq, patchGlobalSlotsList_eq, patchCode_fst,
      List.map_map, Option.elim_some]
    rfl

end PrepareState

namespace Proto

open PrepareState

variable {arena : Option StringArena} {slotName : ℕ → Option (List UInt8)} {strip : Bool}

/-- Prepared in `st`, the accesses to globals access the names they do now: a slot has the name there
    that it has here, and where the name of a global has a slot, the 18 bits of an instruction are enough
    for it. -/
def GlobalsAgree (st : PrepareState) (arena : Option StringArena) (slotName : ℕ → Option (List UInt8))
    (p : Proto) : Prop :=
  ∀ raw ∈ p.code, let i : Instruction := ⟨raw⟩
    (IsSlot i.opcode → st.slotName i.bx.toNat = slotName i.bx.toNat) ∧
      (IsGlobal i.opcode → ∀ name, (p.constantList arena)[i.bx.toNat]?.bind Constant.name? = some name →
        ∀ slotIdx, st.accessSlot i.opcode name = some slotIdx →
          st.slotName (BitField.get 0 sizeBx slotIdx).toNat = some name)

theorem globalsAgree_iff {st : PrepareState} {p : Proto} :
    p.GlobalsAgree st arena slotName ↔ ∀ raw ∈ p.code,
      st.preparedInstr (p.constantList arena) ⟨raw⟩ = instrMeaning (p.constantList arena) slotName ⟨raw⟩ := by
  refine forall₂_congr fun raw _ => ?_
  set i : Instruction := ⟨raw⟩
  have hglobal : ∀ op, (∀ name, (p.constantList arena)[i.bx.toNat]?.bind Constant.name? = some name →
      ∀ slotIdx, st.accessSlot op name = some slotIdx →
        st.slotName (BitField.get 0 sizeBx slotIdx).toNat = some name) ↔
      ((p.constantList arena)[i.bx.toNat]?.bind Constant.name?).bind (st.accessName op) =
        (p.constantList arena)[i.bx.toNat]?.bind Constant.name? := by
    intro op
    cases (p.constantList arena)[i.bx.toNat]?.bind Constant.name? with
    | none => simp
    | some name =>
      simp only [Option.some.injEq, forall_eq', Option.bind_some, accessName]
      cases st.accessSlot op name <;> simp
  cases hop : i.opcode <;>
    simp [instrMeaning, preparedInstr, hop, IsSlot, IsGlobal, hglobal]

/-- What can be said of `q`, the loaded form of `p` with its constants interned: completed in any later
    state, it means what `p` does if and only if `ok` holds of that state. -/
def PreparesTo (arena : Option StringArena) (slotName : ℕ → Option (List UInt8)) (strip : Bool)
    (s : InternState) (p q : Proto) (ok : PrepareState → Prop) : Prop :=
  ∀ st : PrepareState, st.Ok → s.Extends st.gc →
    ((patchGlobalSlotOpcodes st q).meaning (some st.gc.stringArena) st.slotName strip =
      p.meaning arena slotName strip ↔ ok st)

theorem PreparesTo.mono {s s' : InternState} (hs : s.Extends s') {p q : Proto} {ok : PrepareState → Prop}
    (h : PreparesTo arena slotName strip s p q ok) : PreparesTo arena slotName strip s' p q ok :=
  fun st hst hext => h st hst (hs.trans hext)

/-- The children of a prototype are interned one after the other. -/
theorem patchStringConstantsList_spec {load : Proto → Proto} {ok : Proto → PrepareState → Prop} :
    ∀ {ps : List Proto}, (∀ p ∈ ps, ∀ (s : InternState) n, s.Inv → s.HasRoom (n + p.allConstants.length) →
      ∃ s' q, patchStringConstantsInner s (load p) = some (s', q) ∧ s'.Inv ∧ s.Extends s' ∧ s'.HasRoom n ∧
        PreparesTo arena slotName strip s' p q (ok p)) →
    ∀ (s : InternState) n, s.Inv → s.HasRoom (n + (ps.flatMap allConstants).length) →
      ∃ s' qs, patchStringConstantsList s (ps.map load) = some (s', qs) ∧ s'.Inv ∧ s.Extends s' ∧
        s'.HasRoom n ∧ List.Forall₂ (fun p q => PreparesTo arena slotName strip s' p q (ok p)) ps qs
  | [], _, s, n, h, hroom => ⟨s, [], rfl, h, .refl s, hroom, .nil⟩
  | p :: ps, hps, s, n, h, hroom => by
    rw [List.flatMap_cons, List.length_append, Nat.add_comm p.allConstants.length, ← Nat.add_assoc] at hroom
    obtain ⟨s₁, q, hq, h₁, hs₁, hroom₁, hpq⟩ := hps p (List.mem_cons_self ..) s _ h hroom
    obtain ⟨s₂, qs, hqs, h₂, hs₂, hroom₂, hpqs⟩ := patchStringConstantsList_spec
      (fun p' hp' => hps p' (List.mem_cons_of_mem _ hp')) s₁ n h₁ hroom₁
    refine ⟨s₂, q :: qs, ?_, h₂, hs₁.trans hs₂, hroom₂, .cons (hpq.mono hs₂) hpqs⟩
    rw [List.map_cons, patchStringConstantsList_cons, hq, Option.bind_some, hqs, Option.map_some]

/-- Lists of children that each mean the same. -/
theorem map_meaning_eq_iff {s : InternState} {ok : Proto → PrepareState → Prop} {ps qs : List Proto}
    (h : List.Forall₂ (fun p q => PreparesTo arena slotName strip s p q (ok p)) ps qs) {st : PrepareState}
    (hst : st.Ok) (hext : s.Extends st.gc) :
    (qs.map fun q => (patchGlobalSlotOpcodes st q).meaning (some st.gc.stringArena) st.slotName strip) =
      ps.map (meaning arena slotName strip) ↔ ∀ p ∈ ps, ok p st := by
  induction h with
  | nil => simp
  | cons hpq _ ih => rw [List.map_cons, List.map_cons, List.cons.injEq, ih, hpq st hst hext, List.forall_mem_cons]

theorem meaning_eq (p : Proto) :
    p.meaning arena slotName strip =
      { code := p.code.map fun raw => instrMeaning (p.constantList arena) slotName ⟨raw⟩
        constants := p.constantList arena
        children := p.protos.map (meaning arena slotName strip)
        lineInfo := if strip then [] else p.lineInfo
        localVars := if strip then [] else p.localVars
        upvalueNames := if strip then [] else p.upvalueNames
        source := p.source
        lineDefined := p.lineDefined
        lastLineDefined := p.lastLineDefined
        numUpvalues := p.numUpvalues
        numParams := p.numParams
        isVararg := p.isVararg
        maxStackSize := p.maxStackSize } := by
  obtain ⟨⟩ := p
  rw [meaning, meaningList_eq]

theorem reload_eq (p : Proto) (parentSource loadedSource : String) :
    p.reload arena strip parentSource loadedSource =
      { p with
        constants := (p.constantList arena).map Constant.placeholder
        stringPool := (p.constantList arena).zipIdx.filterMap Constant.poolEntry
        protos := p.protos.map
          (reload arena strip p.source (reloadSource p.source parentSource loadedSource))
        lineInfo := if strip then [] else p.lineInfo
        localVars := if strip then [] else p.localVars
        upvalueNames := if strip then [] else p.upvalueNames
        source := reloadSource p.source parentSource loadedSource
        globalSlotNames := [] } := by
  obtain ⟨⟩ := p
  rw [reload, reloadList_eq]

/-- The loaded form of `p` can be prepared while there is room for its strings; it then means what `p`
    does if and only if its source name is that of `p` and the accesses to globals agree. -/
theorem prepares_reload (slotName : ℕ → Option (List UInt8)) (p : Proto) (hvalid : Forall (Valid arena) p)
    (hlen : Forall (fun p => p.constants.length < 2 ^ 31) p) (parentSource loadedSource : String)
    (s : InternState) (n : ℕ) (h : s.Inv) (hroom : s.HasRoom (n + p.allConstants.length)) :
    ∃ s' q, patchStringConstantsInner s (p.reload arena strip parentSource loadedSource) = some (s', q) ∧
      s'.Inv ∧ s.Extends s' ∧ s'.HasRoom n ∧ PreparesTo arena slotName strip s' p q fun st =>
        reloadSource p.source parentSource loadedSource = p.source ∧
          Forall (GlobalsAgree st arena slotName) p := by
  induction p using Proto.induction generalizing parentSource loadedSource s n with
  | step p ih =>
    rw [allConstants_eq, List.length_append, Nat.add_comm p.constants.length, ← Nat.add_assoc,
      ← length_constantList p arena] at hroom
    have hlen' := hlen.root
    obtain ⟨s₁, vals, hpatch, h₁, hs₁, hroom₁, hvals⟩ := InternState.patchEntries_spec (p.constantList arena)
      [] h hroom hvalid.root (by rw [length_constantList, List.length_nil]; omega)
    obtain ⟨s₂, qs, hqs, h₂, hs₂, hroom₂, hpqs⟩ := patchStringConstantsList_spec (fun c hc => ih c hc
      (hvalid.child hc) (hlen.child hc) p.source (reloadSource p.source parentSource loadedSource))
      s₁ n h₁ hroom₁
    refine ⟨s₂, { p.reload arena strip parentSource loadedSource with
      constants := vals, protos := qs, stringPool := [] }, ?_, h₂, hs₁.trans hs₂, hroom₂, ?_⟩
    · rw [reload_eq, patchStringConstantsInner]
      simp only [List.nil_append, List.length_nil] at hpatch
      rw [hpatch]
      simp only [Option.bind_eq_bind, Option.bind_some]
      rw [hqs]
      rfl
    · intro st hst hext
      have hcs := contents_of_resolved (hvals.imp fun _ _ hv => hv.mono (hs₂.trans hext))
      have hcs' : ({ constants := vals } : Proto).constantList (some st.gc.stringArena) = p.constantList arena := by
        refine List.ext_getElem? fun i => ?_
        rw [hcs i, constantList, List.getElem?_map, List.getElem?_zipIdx, Option.map_map, Nat.zero_add]
        rfl
      have hchildren := map_meaning_eq_iff hpqs hst hext
      rw [PrepareState.meaning_patchGlobalSlotOpcodes, meaning_eq, meaning_eq, reload_eq]
      simp only [constantList] at hcs' ⊢
      simp only [hcs', ProtoMeaning.mk.injEq, hchildren]
      have hcode : (p.code.map fun raw => instrMeaning (p.constantList arena) st.slotName
          ⟨st.patchedRaw vals raw⟩) = (p.code.map fun raw =>
            instrMeaning (p.constantList arena) slotName ⟨raw⟩) ↔ GlobalsAgree st arena slotName p := by
        rw [List.map_inj_left]
        simp only [PrepareState.instrMeaning_patchedRaw hst hcs hvalid.root, globalsAgree_iff]
      simp only [constantList] at hcode
      rw [hcode]
      have hstrip : ∀ {α : Type} (x : List α), (if strip then [] else if strip then [] else x) =
          if strip then [] else x := fun x => by cases strip <;> rfl
      simp only [hstrip, true_and, and_true]
      constructor
      · rintro ⟨hglobals, hch, hsource⟩
        exact ⟨hsource, .mk hglobals fun c hc => (hch c hc).2⟩
      · rintro ⟨hsource, hall⟩
        refine ⟨hall.root, fun c hc => ⟨?_, hall.child hc⟩, hsource⟩
        -- below a function whose source name came through, no name is left out wrongly
        rw [hsource, reloadSource]
        split
        · next heq => exact heq.symm
        · rfl

mutual

theorem countStringConstants_reload (arena : Option StringArena) (strip : Bool) (parentSource loadedSource : String) :
    ∀ p : Proto, countStringConstants (p.reload arena strip parentSource loadedSource) ≤ p.allConstants.length
  | ⟨_, constants, protos, _, _, _, _, _, _, _, _, _, _, pool, _⟩ => by
    rw [reload, countStringConstants, allConstants, List.length_append]
    refine Nat.add_le_add (Nat.le_trans (List.length_filterMap_le ..) ?_)
      (countStringConstantsList_reload arena strip _ _ protos)
    rw [List.length_zipIdx, length_constantList]

theorem countStringConstantsList_reload (arena : Option StringArena) (strip : Bool)
    (parentSource loadedSource : String) : ∀ ps : List Proto,
    countStringConstantsList (reloadList arena strip parentSource loadedSource ps) ≤ (allConstantsList ps).length
  | [] => Nat.le_refl _
  | p :: ps => by
    rw [reloadList, countStringConstantsList, allConstantsList, List.length_append]
    exact Nat.add_le_add (countStringConstants_reload arena strip _ _ p)
      (countStringConstantsList_reload arena strip _ _ ps)

end

end Proto

/-! ### The whole preparation -/

/-- The bucket vector can be made large enough for `n` more strings. -/
def StringTable.HasRoom (t : StringTable) (n : ℕ) : Prop :=
  ∀ m ≤ n, (saturatingAdd t.count m).nextPowerOfTwo ≤ usizeMax

theorem StringTable.reserve_isSome {t : StringTable} {n m : ℕ} (h : t.HasRoom n) (hm : m ≤ n)
    (arena : StringArena) : ∃ t', t.reserve m arena = some t' := by
  rw [reserve]
  split
  · exact ⟨t, rfl⟩
  · rw [checkedNextPowerOfTwo, if_pos (h m hm)]
    exact ⟨_, rfl⟩

namespace PrepareState

variable {st : PrepareState}

/-- There is room for `n` more strings, in the arena and in the string table. -/
structure HasRoom (st : PrepareState) (n : ℕ) : Prop where
  arena : st.gc.HasRoom n
  table : st.gc.strings.HasRoom n

/-- A prototype loaded from a dump can be prepared while there is room for its strings. It then means what
    the dumped prototype does, up to the debug information, if and only if it has its source name and
    its accesses to globals have the same names. -/
theorem prepareLoadedProto_reload (slotName : ℕ → Option (List UInt8)) (strip : Bool) (hst : st.Ok)
    {arena : Option StringArena} {p : Proto} (hvalid : p.Forall (Proto.Valid arena))
    (hlen : p.Forall fun p => p.constants.length < 2 ^ 31) (hroom : st.HasRoom p.allConstants.length)
    (parentSource loadedSource : String) :
    ∃ st' q, prepareLoadedProto st (p.reload arena strip parentSource loadedSource) = some (st', q) ∧
      (q.meaning (some st'.gc.stringArena) st'.slotName strip = p.meaning arena slotName strip ↔
        reloadSource p.source parentSource loadedSource = p.source ∧
          p.Forall (Proto.GlobalsAgree st arena slotName)) := by
  obtain ⟨t, ht⟩ := StringTable.reserve_isSome hroom.table
    (Proto.countStringConstants_reload arena strip parentSource loadedSource p) st.gc.stringArena
  have hinv : InternState.Inv { st.gc with strings := t } := by
    refine (InternState.step_spec hst.inv (?_ : InternState.HashOk _ (.reserve _))
      (by rw [InternState.step, ht]; rfl)).1
    exact trivial
  have hext : st.gc.Extends { st.gc with strings := t } := .refl _
  obtain ⟨s, q, hq, hs, hext', -, hprep⟩ := Proto.prepares_reload slotName p hvalid hlen
    parentSource loadedSource { st.gc with strings := t } 0 hinv (by rw [Nat.zero_add]; exact hroom.arena)
  have hst' : Ok { st with gc := s } := hst.mono (hext.trans hext') hs
  refine ⟨{ st with gc := s }, patchGlobalSlotOpcodes { st with gc := s } q, ?_, ?_⟩
  · rw [prepareLoadedProto, patchStringConstants, ht]
    simp only [Option.bind_eq_bind, Option.bind_some]
    rw [hq]
    rfl
  · rw [hprep _ hst' (.refl s)]
    have hagree : ∀ p, Proto.GlobalsAgree { st with gc := s } arena slotName p ↔
        Proto.GlobalsAgree st arena slotName p := fun p => by
      simp only [Proto.globalsAgree_iff, preparedInstr_mono hst (hext.trans hext')]
    exact and_congr_right fun _ =>
      ⟨fun h => h.mono fun p => (hagree p).mp, fun h => h.mono fun p => (hagree p).mpr⟩

end PrepareState

end Rilua.Vm
