import Rilua.Vm.TableLen
import Rilua.Vm.TableNext

/-! Table constructors: their code (`compile_table_ctor`), and `NEWTABLE`, `SETTABLE` and `SETLIST` on the new table.
    `SETLIST` lengthens the array part and writes its slots directly, without a look at the hash part. An entry whose
    integer key comes to lie within the array part stays in the hash part as well. -/

namespace Rilua.Vm

open Lib Gc

/-! ### The code of a constructor -/

def int2fbLoop : ℕ → ℕ → ℕ → ℕ × ℕ
  | 0, x, e => (x, e)
  | fuel + 1, x, e => if 16 ≤ x then int2fbLoop fuel ((x + 1) / 2) (e + 1) else (x, e)

/-- A size as a floating point byte `eeeeexxx`, rounded up. -/
def int2fb (x : ℕ) : ℕ :=
  if x < 8 then x
  else
    let (x, e) := int2fbLoop 32 x 0
    ((e + 1) <<< 3) ||| (x - 8)

/-- The size of a floating point byte, as `u32`. -/
def fb2int (x : ℕ) : ℕ :=
  let e := (x >>> 3) &&& 31
  if e = 0 then x else ((x &&& 7) + 8) <<< (e - 1) % u32Size

/-- A field of a constructor, with what its expressions evaluate to. An item may have several values. -/
inductive TableField where
  | keyed (key value : Val)
  | item (value : Val)
  | multret (results : List Val)

def TableField.isKeyed : TableField → Bool
  | .keyed .. => true
  | _ => false

inductive CtorInstr where
  | setTable (key value : Val)
  | setList (c : ℕ) (values : List Val)

def CtorInstr.isSetTable : CtorInstr → Bool
  | .setTable .. => true
  | _ => false

/-- The operand of `SETLIST` when there are `nelems` items. -/
def flushIndex (nelems : ℕ) : ℕ := (nelems - 1) / lfieldsPerFlush + 1

/-- An item that stands for one value. -/
def pushItem (na : ℕ) (pending : List Val) (value : Val) : List Val × List CtorInstr :=
  let pending := pending ++ [value]
  if lfieldsPerFlush ≤ pending.length then ([], [.setList (flushIndex (na + 1)) pending]) else (pending, [])

/-- The numbers of items and of keyed fields, and the instructions; `pending` are the items that wait on the stack.
    The last item keeps all its values, whatever keyed fields follow. -/
def compileFields : List TableField → ℕ → ℕ → List Val → ℕ × ℕ × List CtorInstr
  | [], na, nh, pending => (na, nh, if pending.isEmpty then [] else [.setList (flushIndex na) pending])
  | .keyed key value :: fields, na, nh, pending =>
    let (na', nh', code) := compileFields fields na (nh + 1) pending
    (na', nh', .setTable key value :: code)
  | .item value :: fields, na, nh, pending =>
    let (pending, flush) := pushItem na pending value
    let (na', nh', code) := compileFields fields (na + 1) nh pending
    (na', nh', flush ++ code)
  | .multret results :: fields, na, nh, pending =>
    if fields.all TableField.isKeyed then
      let (na', nh', code) := compileFields fields na nh []
      (na', nh', .setList (flushIndex (na + 1)) (pending ++ results) :: code)
    else
      let (pending, flush) := pushItem na pending (results.headD .nil)
      let (na', nh', code) := compileFields fields (na + 1) nh pending
      (na', nh', flush ++ code)

/-- The code of a table constructor: the operands of `NEWTABLE`, and what follows. -/
structure TableCode where
  arraySize : ℕ
  hashSize : ℕ
  code : List CtorInstr

def compileTableCtor (fields : List TableField) : TableCode :=
  let (na, nh, code) := compileFields fields 0 0 []
  { arraySize := int2fb na, hashSize := int2fb nh, code }

/-! ### Its execution -/

namespace Table

/-- Creates a table with pre-allocated array and hash parts. A length that overflows is a panic. -/
def withSizes (arraySize hashSize : ℕ) : Option Table :=
  if maxVecLength < arraySize then none
  else
    let array := List.replicate arraySize Val.nil
    if hashSize = 0 then some { array }
    else
      let log2 := ceilLog2 hashSize
      if 32 ≤ log2 then none
      else some { array, nodes := List.replicate (2 ^ log2) Node.empty, lastFree := 2 ^ log2, log2Size := log2 }

/-- Where the items of a `SETLIST` go. -/
def setListOffset (c : ℕ) : ℕ := (c - 1) * lfieldsPerFlush

/-- `SETLIST` on a table that is not protected. A length that overflows is a panic. -/
def setList (t : Table) (c : ℕ) (values : List Val) : Option Table :=
  let last := setListOffset c + values.length
  if c = 0 then none
  else if t.array.length < last ∧ maxVecLength < last then none
  else some ((t.ensureArrayCapacity last).setArraySlots (setListOffset c) values)

end Table

/-- The table under construction. -/
structure CtorState where
  table : Table
  strings : StringArena

inductive CtorOp where
  | instr (i : CtorInstr)
  /-- Strings are interned and freed while expressions are evaluated. -/
  | strings (strings' : StringArena)

/-- The instructions among what happens. -/
def CtorOp.instr? : CtorOp → Option CtorInstr
  | .instr i => some i
  | .strings _ => none

def CtorOp.isSetTable (op : CtorOp) : Bool := (op.instr?.map CtorInstr.isSetTable).getD false

namespace CtorState

/-- A constructor ends with an error where an assignment fails. -/
def step (s : CtorState) : CtorOp → Option CtorState
  | .instr (.setTable key value) => do
    match ← s.table.rawSet key value s.strings with
    | (_, .error _) => none
    | (table, .ok ()) => some { s with table }
  | .instr (.setList c values) => do
    let table ← s.table.setList c values
    some { s with table }
  | .strings strings' => some { s with strings := strings' }

end CtorState

deriving instance DecidableEq for Table

namespace Table

variable {strings : StringArena} {t t' : Table} {key value : Val}

/-- The key has an array slot, and a value in the hash part too. -/
def InBoth (t : Table) (key : Val) : Prop :=
  (t.slot key).isSome ∧ ∃ n ∈ t.nodes, n.key.rawEq key = true ∧ n.value ≠ .nil

/-- No entry of the hash part has a key that `SETLIST` makes an array slot for. -/
def Fits (t : Table) (c : ℕ) (values : List Val) : Prop :=
  ∀ n ∈ t.nodes, n.value ≠ .nil → ∀ i : ℕ, t.array.length ≤ i → i < setListOffset c + values.length →
    n.key.intKey ≠ some (i + 1 : ℤ)

/-- The invariant is that of the hash part alone, but for the keys in both parts. -/
theorem Inv.not_inBoth (h : t.Inv strings) (key : Val) : ¬ t.InBoth key := by
  rintro ⟨hslot, n, hn, hnk, hv⟩
  exact hv (h.shadow n hn (by rwa [slot_congr hnk]))

theorem setArraySlots_spec : ∀ (values : List Val) (t : Table) (idx : ℕ),
    ∃ array, t.setArraySlots idx values = { t with array } ∧ array.length = t.array.length
  | [], t, idx => ⟨t.array, rfl, rfl⟩
  | value :: values, t, idx => by
    obtain ⟨array, heq, hlen⟩ := setArraySlots_spec values (t.setArray idx value) (idx + 1)
    exact ⟨array, heq, by simpa [setArray] using hlen⟩

/-- `SETLIST` changes nothing but the array part. -/
theorem setList_spec {c : ℕ} {values : List Val} (h : t.Inv strings) (hset : t.setList c values = some t') :
    ∃ array, t' = { t with array } ∧ array.length = max t.array.length (setListOffset c + values.length) ∧
      array.length ≤ maxVecLength := by
  simp only [setList] at hset
  split at hset
  · cases hset
  split at hset
  · cases hset
  next hmax =>
  cases hset
  obtain ⟨array, heq, hlen⟩ :=
    setArraySlots_spec values (t.ensureArrayCapacity (setListOffset c + values.length)) (setListOffset c)
  have hgrown : array.length = max t.array.length (setListOffset c + values.length) := by
    rw [hlen, ensureArrayCapacity, List.length_append, List.length_replicate]
    omega
  have hold := h.array_le
  exact ⟨array, heq, hgrown, by omega⟩

/-- After `SETLIST` no key is in both parts if and only if the entries of the hash part fit. -/
theorem Inv.setList_iff {c : ℕ} {values : List Val} (h : t.Inv strings) (hset : t.setList c values = some t') :
    (∀ key, ¬ t'.InBoth key) ↔ t.Fits c values := by
  obtain ⟨array, rfl, hlen, hmax⟩ := setList_spec h hset
  constructor
  · intro hboth n hn hv i hge hlt hkey
    have hslot : ({ t with array } : Table).slot n.key = some i :=
      (slot_eq_some hmax).mpr ⟨hkey, by rw [hlen]; omega⟩
    have hself : n.key.rawEq n.key = true := Val.rawEq_refl (h.nodes_inv.not_nan n hn)
    exact hboth n.key ⟨Option.isSome_iff_exists.mpr ⟨i, hslot⟩, n, hn, hself, hv⟩
  · rintro hfits key ⟨hslot, n, hn, hnk, hv⟩
    obtain ⟨i, hi⟩ := Option.isSome_iff_exists.mp hslot
    rw [← slot_congr hnk] at hi
    obtain ⟨hkey, hlt⟩ := (slot_eq_some hmax).mp hi
    rcases Nat.lt_or_ge i t.array.length with hold | hnew
    · have hslot' : t.slot n.key = some i := (slot_eq_some h.array_le).mpr ⟨hkey, hold⟩
      exact hv (h.shadow n hn (Option.isSome_iff_exists.mpr ⟨i, hslot'⟩))
    · have hlt' : i < array.length := hlt
      exact hfits n hn hv i hnew (by omega) hkey

theorem Inv.setList_inv {c : ℕ} {values : List Val} (h : t.Inv strings) (hfits : t.Fits c values)
    (hset : t.setList c values = some t') : t'.Inv strings := by
  have hboth := (h.setList_iff hset).mpr hfits
  obtain ⟨array, rfl, hlen, hmax⟩ := setList_spec h hset
  refine ⟨h.nodes_inv, h.size, h.lastFree_le, h.scanned, hmax, fun n hn hslot => ?_⟩
  by_contra hv
  exact hboth n.key ⟨hslot, n, hn, Val.rawEq_refl (h.nodes_inv.not_nan n hn), hv⟩

/-- A new table. -/
theorem withSizes_spec {arraySize hashSize : ℕ} (hnew : withSizes arraySize hashSize = some t) (strings : StringArena) :
    t.Inv strings ∧ occupied t.nodes = 0 ∧ hashSize ≤ t.nodes.length := by
  rw [withSizes] at hnew
  split at hnew
  · cases hnew
  next harray =>
  have hle : (List.replicate arraySize Val.nil).length ≤ maxVecLength := by
    rw [List.length_replicate]
    exact Nat.not_lt.mp harray
  split at hnew
  · next h0 =>
    cases hnew
    refine ⟨⟨NodesInv.replicate strings 0, .inl ⟨rfl, rfl⟩, Nat.le_refl 0, fun i n _ hn => ?_, hle, fun n hn => ?_⟩, rfl, ?_⟩
    · cases hn
    · cases hn
    · exact Nat.le_of_eq h0
  · simp only at hnew
    split at hnew
    · cases hnew
    · next hlog =>
      cases hnew
      refine ⟨⟨NodesInv.replicate strings _, .inr ⟨List.length_replicate, Nat.not_le.mp hlog⟩, by simp, ?_, hle, ?_⟩, ?_, ?_⟩
      · intro i n hi hn
        have hlt := NodesInv.lt_length hn
        rw [List.length_replicate] at hlt
        exact absurd hlt (Nat.not_lt.mpr hi)
      · intro n hn _
        rw [(List.mem_replicate.mp hn).2]
        rfl
      · rw [occupied, List.countP_replicate]
        rfl
      · rw [List.length_replicate]
        exact ceilLog2_le.mp le_rfl

/-- While a node is free, an assignment does not lay the table out anew. -/
theorem Inv.rawSet_room (h : t.Inv strings) (hk : key.isStale strings = false)
    (hroom : occupied t.nodes < t.nodes.length) (hset : t.rawSet key value strings = some (t', .ok ())) :
    t'.Inv strings ∧ occupied t'.nodes ≤ occupied t.nodes + 1 ∧ t'.nodes.length = t.nodes.length := by
  rw [rawSet, rawSetWithMemoryDelta] at hset
  split at hset
  · cases hset
  generalize hu : (if isMetaName key strings then { t with flags := 0 } else t : Table) = u at hset
  have hflags : u.Inv strings ∧ u.nodes = t.nodes := by
    rw [← hu]
    split
    · exact ⟨⟨h.nodes_inv, h.size, h.lastFree_le, h.scanned, h.array_le, h.shadow⟩, rfl⟩
    · exact ⟨h, rfl⟩
  obtain ⟨huinv, hnodes⟩ := hflags
  have hlive : key.Live strings := by
    refine ⟨?_, Bool.eq_false_iff.mpr fun hnan => ?_, hk⟩
    · rintro rfl
      cases hset
    · rw [rawSetImpl, rawSetWith, if_pos hnan] at hset
      · cases hset
      · rintro rfl
        cases hnan
  rw [← hnodes] at hroom ⊢
  rcases huinv.rawSetWith_spec hlive value with ⟨v, d, hassign, hassigned⟩ | ⟨e, -, hfull, -, -, -⟩
  · rw [rawSetImpl, hassign] at hset
    cases hset
    have hne : u.nodes ≠ [] := by
      intro h0
      rw [h0] at hroom
      exact absurd hroom (Nat.not_lt_zero _)
    exact ⟨hassigned.inv, hassigned.occupied_le, hassigned.length_eq hne⟩
  · omega

end Table

/-! ### Sizes -/

theorem countP_pushItem (na : ℕ) (pending : List Val) (value : Val) :
    (pushItem na pending value).2.countP CtorInstr.isSetTable = 0 := by
  rw [pushItem]
  split
  · rfl
  · rfl

/-- The keyed fields are counted. -/
theorem compileFields_keyed : ∀ (fields : List TableField) (na nh : ℕ) (pending : List Val),
    (compileFields fields na nh pending).2.1 = nh + fields.countP TableField.isKeyed ∧
      (compileFields fields na nh pending).2.2.countP CtorInstr.isSetTable = fields.countP TableField.isKeyed
  | [], na, nh, pending => by
    rw [compileFields]
    refine ⟨rfl, ?_⟩
    split
    · rfl
    · rfl
  | .keyed key value :: fields, na, nh, pending => by
    obtain ⟨hsize, hcode⟩ := compileFields_keyed fields na (nh + 1) pending
    rw [compileFields, List.countP_cons]
    dsimp only
    rw [List.countP_cons, hsize, hcode]
    simp only [TableField.isKeyed, CtorInstr.isSetTable, if_true]
    exact ⟨by omega, trivial⟩
  | .item value :: fields, na, nh, pending => by
    obtain ⟨hsize, hcode⟩ := compileFields_keyed fields (na + 1) nh (pushItem na pending value).1
    rw [compileFields, List.countP_cons]
    dsimp only
    rw [List.countP_append, countP_pushItem, hsize, hcode]
    simp [TableField.isKeyed]
  | .multret results :: fields, na, nh, pending => by
    rw [compileFields, List.countP_cons]
    split
    · obtain ⟨hsize, hcode⟩ := compileFields_keyed fields na nh []
      dsimp only
      rw [List.countP_cons, hsize, hcode]
      simp [TableField.isKeyed, CtorInstr.isSetTable]
    · obtain ⟨hsize, hcode⟩ := compileFields_keyed fields (na + 1) nh (pushItem na pending (results.headD .nil)).1
      dsimp only
      rw [List.countP_append, countP_pushItem, hsize, hcode]
      simp [TableField.isKeyed]

/-- Halving, rounded up, ends below 16 and loses nothing. -/
theorem int2fbLoop_spec : ∀ (k : ℕ) {fuel x e : ℕ}, k ≤ fuel → 8 ≤ x → x ≤ 15 * 2 ^ k →
    8 ≤ (int2fbLoop fuel x e).1 ∧ (int2fbLoop fuel x e).1 ≤ 15 ∧ (int2fbLoop fuel x e).2 ≤ e + k ∧
      x * 2 ^ e ≤ (int2fbLoop fuel x e).1 * 2 ^ (int2fbLoop fuel x e).2
  | 0, 0, x, e, _, hx, hle => ⟨hx, by simpa [int2fbLoop] using hle, le_rfl, le_rfl⟩
  | 0, fuel + 1, x, e, _, hx, hle => by
    rw [int2fbLoop, if_neg (by omega)]
    exact ⟨hx, by simpa using hle, le_rfl, le_rfl⟩
  | k + 1, 0, x, e, hk, _, _ => by omega
  | k + 1, fuel + 1, x, e, hk, hx, hle => by
    rw [int2fbLoop]
    split
    · rw [Nat.pow_succ] at hle
      obtain ⟨hm, hm', he, hvalue⟩ := int2fbLoop_spec k (e := e + 1) (Nat.le_of_succ_le_succ hk)
        (by omega : 8 ≤ (x + 1) / 2) (by omega)
      refine ⟨hm, hm', by omega, le_trans ?_ hvalue⟩
      calc x * 2 ^ e ≤ 2 * ((x + 1) / 2) * 2 ^ e := Nat.mul_le_mul_right _ (by omega)
        _ = (x + 1) / 2 * 2 ^ (e + 1) := by rw [Nat.mul_comm 2, Nat.mul_assoc, Nat.pow_succ, Nat.mul_comm 2]
    · exact ⟨hx, by dsimp only; omega, by dsimp only; omega, le_rfl⟩

/-- A size that goes through a floating point byte does not get smaller. -/
theorem le_fb2int {x : ℕ} (hx : x < 2 ^ 31) : x ≤ fb2int (int2fb x) := by
  rw [int2fb]
  split
  · next hsmall =>
    have hexp : x >>> 3 &&& 31 = 0 := by
      have hzero : x >>> 3 = 0 := by rw [Nat.shiftRight_eq_div_pow]; omega
      rw [hzero, Nat.zero_and]
    rw [fb2int, if_pos hexp]
  · obtain ⟨hm, hm', he, hvalue⟩ := int2fbLoop_spec 28 (e := 0) (by omega : 28 ≤ 32) (by omega : 8 ≤ x) (by omega)
    generalize int2fbLoop 32 x 0 = r at hm hm' he hvalue
    obtain ⟨m, e⟩ := r
    dsimp only at hm hm' he hvalue ⊢
    have hbyte : (e + 1) <<< 3 ||| (m - 8) = (e + 1) * 8 + (m - 8) := by
      rw [← Nat.shiftLeft_add_eq_or_of_lt (by omega : m - 8 < 2 ^ 3), Nat.shiftLeft_eq]
    have hexp : ((e + 1) * 8 + (m - 8)) >>> 3 &&& 31 = e + 1 := by
      rw [Nat.and_two_pow_sub_one_eq_mod _ 5, Nat.shiftRight_eq_div_pow]
      omega
    have hmant : ((e + 1) * 8 + (m - 8)) &&& 7 = m - 8 := by
      rw [Nat.and_two_pow_sub_one_eq_mod _ 3]
      omega
    have hlt : m * 2 ^ e < u32Size := by
      calc m * 2 ^ e ≤ 15 * 2 ^ 28 := Nat.mul_le_mul hm' (Nat.pow_le_pow_right (by omega) (by omega))
        _ < u32Size := by decide
    rw [hbyte, fb2int, hexp, hmant, if_neg (by omega), Nat.shiftLeft_eq, Nat.add_sub_cancel,
      Nat.sub_add_cancel hm, Nat.mod_eq_of_lt hlt]
    simpa using hvalue

/-! ### Constructors -/

namespace CtorState

/-- The table of `NEWTABLE` in a constructor. -/
def newTable (fields : List TableField) (strings : StringArena) : Option CtorState := do
  let table ← Table.withSizes (fb2int (compileTableCtor fields).arraySize) (fb2int (compileTableCtor fields).hashSize)
  some { table, strings }

/-- Keys are not freed strings, and the collector keeps the strings that are keys of entries. -/
def Permitted (s : CtorState) : CtorOp → Prop
  | .instr (.setTable key _) => key.isStale s.strings = false
  | .instr (.setList ..) => True
  | .strings strings' => s.table.StringsKept s.strings strings'

/-- What is permitted, with items that fit at every `SETLIST`. -/
def Fitting (s : CtorState) (op : CtorOp) : Prop :=
  s.Permitted op ∧ match op with
    | .instr (.setList c values) => s.table.Fits c values
    | _ => True

/-- The table is sound, and has room for so many more keys. -/
structure Room (keys : ℕ) (s : CtorState) : Prop where
  inv : s.table.Inv s.strings
  room : occupied s.table.nodes + keys ≤ s.table.nodes.length

theorem Room.step {s s' : CtorState} {keys : ℕ} {op : CtorOp} (h : Room (keys + if op.isSetTable then 1 else 0) s)
    (hop : s.Fitting op) (hstep : s.step op = some s') : Room keys s' := by
  cases op with
  | instr i =>
    cases i with
    | setTable key value =>
      simp only [CtorState.step, bind, Option.bind_eq_some_iff] at hstep
      obtain ⟨⟨t', r⟩, hset, hstep⟩ := hstep
      cases r with
      | error e => cases hstep
      | ok _ =>
        cases hstep
        have hroom : occupied s.table.nodes + (keys + 1) ≤ s.table.nodes.length := h.room
        obtain ⟨hinv, hocc, hlen⟩ := h.inv.rawSet_room hop.1 (by omega) hset
        exact ⟨hinv, by dsimp only; omega⟩
    | setList c values =>
      simp only [CtorState.step, bind, Option.bind_eq_some_iff] at hstep
      obtain ⟨t', hset, hstep⟩ := hstep
      cases hstep
      have hinv := h.inv.setList_inv hop.2 hset
      obtain ⟨array, rfl, -, -⟩ := Table.setList_spec h.inv hset
      exact ⟨hinv, h.room⟩
  | strings strings' =>
    cases hstep
    exact ⟨h.inv.strings_step hop.1, h.room⟩

theorem Room.run {s s' : CtorState} {ops : List CtorOp} (hrun : Run CtorState.step Fitting s ops s') : ∀ {keys : ℕ},
    Room (keys + ops.countP CtorOp.isSetTable) s → Room keys s' := by
  induction hrun with
  | nil => exact id
  | @cons s s₁ s₂ op ops hop hstep _ ih =>
    intro keys h
    rw [List.countP_cons, ← Nat.add_assoc] at h
    exact ih (h.step hop hstep)

/-- In every constructor, with items that have fitted so far, no key is in both parts after the next `SETLIST`
    if and only if its items fit as well. -/
theorem setList_inBoth_iff {fields : List TableField} (hkeyed : fields.countP TableField.isKeyed < 2 ^ 31)
    {strings : StringArena} {start s s' : CtorState} (hstart : newTable fields strings = some start)
    {ops : List CtorOp} {c : ℕ} {values : List Val}
    (hcode : ops.filterMap CtorOp.instr? ++ [.setList c values] <+: (compileTableCtor fields).code)
    (hrun : Run step Fitting start ops s) (hstep : s.step (.instr (.setList c values)) = some s') :
    (∀ key, ¬ s'.table.InBoth key) ↔ s.table.Fits c values := by
  obtain ⟨hsize, hcount⟩ := compileFields_keyed fields 0 0 []
  simp only [newTable, bind, Option.bind_eq_some_iff] at hstart
  obtain ⟨t, hnew, hstart⟩ := hstart
  cases hstart
  obtain ⟨hinv, hocc, hlen⟩ := Table.withSizes_spec hnew strings
  have hhash : fields.countP TableField.isKeyed ≤ t.nodes.length := by
    refine le_trans ?_ hlen
    have hnh : (compileTableCtor fields).hashSize = int2fb (fields.countP TableField.isKeyed) := by
      rw [← Nat.zero_add (fields.countP TableField.isKeyed), ← hsize]
      rfl
    rw [hnh]
    exact le_fb2int hkeyed
  have hops : ops.countP CtorOp.isSetTable ≤ fields.countP TableField.isKeyed := by
    have hle := hcode.sublist.countP_le (p := CtorInstr.isSetTable)
    have hcode' : (compileTableCtor fields).code.countP CtorInstr.isSetTable = fields.countP TableField.isKeyed := hcount
    rw [hcode', List.countP_append, List.countP_filterMap] at hle
    exact le_trans (Nat.le_add_right _ _) hle
  have hroom : Room (0 + ops.countP CtorOp.isSetTable) { table := t, strings } :=
    ⟨hinv, by dsimp only; omega⟩
  have hs := Room.run hrun hroom
  simp only [step, bind, Option.bind_eq_some_iff] at hstep
  obtain ⟨t', hset, hstep⟩ := hstep
  cases hstep
  exact hs.inv.setList_iff hset

/-- A table with one node, for the key 2. -/
def keyTwo (array : List Val) : Table :=
  { array, nodes := [⟨.num (F64.ofInt 2), .bool true, none⟩], lastFree := 1 }

/-- The table of a constructor with one keyed field and no items before an open tail. -/
theorem newTable_tail (results : List Val) :
    newTable [.keyed (.num (F64.ofInt 2)) (.bool true), .multret results] {} =
      some ⟨{ nodes := [Node.empty], lastFree := 1 }, {}⟩ := by
  have hcode : compileTableCtor [.keyed (.num (F64.ofInt 2)) (.bool true), .multret results] =
      ⟨0, 1, [.setTable (.num (F64.ofInt 2)) (.bool true), .setList 1 results]⟩ := rfl
  have hnew : Table.withSizes (fb2int 0) (fb2int 1) = some { nodes := [Node.empty], lastFree := 1 } := rfl
  simp only [newTable, hcode, hnew, bind, Option.bind_some]

theorem step_keyTwo :
    step ⟨{ nodes := [Node.empty], lastFree := 1 }, {}⟩ (.instr (.setTable (.num (F64.ofInt 2)) (.bool true))) =
      some ⟨keyTwo [], {}⟩ := by
  have hset : ({ nodes := [Node.empty], lastFree := 1 } : Table).rawSet (.num (F64.ofInt 2)) (.bool true) {} =
      some (keyTwo [], .ok ()) := by decide +kernel
  simp only [step, hset, bind, Option.bind_some]

/-- The constructor `{[2] = true, f()}`, where `f` returns one value. -/
theorem setList_inBoth_one : (keyTwo []).Fits 1 [.bool true] ∧ ∀ key, ¬ (keyTwo [.bool true]).InBoth key := by
  have hkey : (Val.num (F64.ofInt 2)).intKey = some ((1 : ℕ) + 1 : ℤ) := Table.intKey_num (by decide)
  have hrun : Run step Fitting ⟨{ nodes := [Node.empty], lastFree := 1 }, {}⟩
      [.instr (.setTable (.num (F64.ofInt 2)) (.bool true))] ⟨keyTwo [], {}⟩ :=
    .cons ⟨rfl, trivial⟩ step_keyTwo (.nil _)
  have hfits : (keyTwo []).Fits 1 [.bool true] := by
    intro n hn _ i _ hi hn2
    rw [List.mem_singleton.mp hn, hkey] at hn2
    have hi1 : i < 1 := hi
    simp only [Option.some.injEq] at hn2
    omega
  exact ⟨hfits, (setList_inBoth_iff (by decide) (newTable_tail [.bool true]) List.prefix_rfl hrun rfl).mpr hfits⟩

/-- The constructor `{[2] = true, f()}`, where `f` returns two values: the key 2 is in both parts, and `next` returns it
    when it is given it. -/
theorem exists_inBoth : ∃ fields start s s' c values, newTable fields {} = some start ∧
    Run step Permitted start [.instr (.setTable (.num (F64.ofInt 2)) (.bool true))] s ∧
    [.setTable (.num (F64.ofInt 2)) (.bool true), .setList c values] <+: (compileTableCtor fields).code ∧
    s.step (.instr (.setList c values)) = some s' ∧ s'.table.InBoth (.num (F64.ofInt 2)) ∧
    s'.table.next (.num (F64.ofInt 2)) s'.strings = some (.ok (some (.num (F64.ofInt 2), .bool true))) := by
  have hnext : (keyTwo [.bool true, .bool true]).next (.num (F64.ofInt 2)) {} =
      some (.ok (some (.num (F64.ofInt 2), .bool true))) := by decide +kernel
  refine ⟨_, _, ⟨keyTwo [], {}⟩, ⟨keyTwo [.bool true, .bool true], {}⟩, 1, [.bool true, .bool true],
    newTable_tail [.bool true, .bool true], .cons rfl step_keyTwo (.nil _), List.prefix_rfl, rfl, ⟨?_, ?_⟩, hnext⟩
  · have hslot : (keyTwo [.bool true, .bool true]).slot (.num (F64.ofInt 2)) = some 1 :=
      (Table.slot_eq_some (by decide)).mpr ⟨Table.intKey_num (by decide), by decide⟩
    rw [hslot]
    rfl
  · exact ⟨_, List.mem_singleton_self _, Val.rawEq_refl (Table.live_ofInt 2 {}).not_nan, by simp⟩

end CtorState

end Rilua.Vm
