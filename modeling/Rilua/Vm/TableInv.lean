import Rilua.Vm.TableNodes

/-! The invariant of a table, and the operations that do not rehash: lookup, insertion of a new key,
    and assignment. `lookup` is the value of a key read off the two parts; `get` computes it, and an
    assignment that succeeds changes it at the assigned key only. -/

namespace Rilua.Vm

open Lib Gc

namespace Table

variable {strings : StringArena} {t t' : Table} {key value : Val}

/-- The array slot of a key, if it has one. -/
def slot (t : Table) (key : Val) : Option ℕ := key.intKey.bind t.arrayIndex

/-- The value of a key: its array slot's, or the one in the hash part. -/
def lookup (t : Table) (key : Val) : Val :=
  match t.slot key with
  | some idx => t.array.getD idx .nil
  | none => NodesInv.findValue t.nodes key

/-- The representation invariant of tables. An integer key of the array part has no value in the hash
    part. -/
structure Inv (strings : StringArena) (t : Table) : Prop where
  nodes_inv : NodesInv strings t.nodes
  size : t.nodes = [] ∧ t.log2Size = 0 ∨ t.nodes.length = 2 ^ t.log2Size ∧ t.log2Size < 32
  lastFree_le : t.lastFree ≤ t.nodes.length
  scanned : ∀ (i : ℕ) n, t.lastFree ≤ i → t.nodes[i]? = some n → n.key ≠ .nil
  array_le : t.array.length ≤ maxVecLength
  shadow : ∀ n ∈ t.nodes, (t.slot n.key).isSome → n.value = .nil

theorem inv_new (strings : StringArena) : Inv strings {} where
  nodes_inv := NodesInv.replicate strings 0
  size := .inl ⟨rfl, rfl⟩
  lastFree_le := Nat.le_refl 0
  scanned i n _ h := by cases h
  array_le := Nat.zero_le _
  shadow n h := by cases h

theorem Inv.hashSize_eq (h : t.Inv strings) (hne : t.nodes ≠ []) : t.hashSize = t.nodes.length := by
  rcases h.size with ⟨h0, -⟩ | ⟨hlen, -⟩
  · exact absurd h0 hne
  · rw [hashSize, if_neg (by simp [hne]), hlen]

theorem Inv.mainPosition_eq (h : t.Inv strings) (hne : t.nodes ≠ []) (key : Val) :
    t.mainPosition key strings = key.mainPosition t.nodes.length strings := by
  rw [mainPosition, h.hashSize_eq hne]

theorem Inv.home_lt (h : t.Inv strings) (hne : t.nodes ≠ []) (key : Val) :
    key.mainPosition t.nodes.length strings < t.nodes.length := by
  rcases h.size with ⟨h0, -⟩ | ⟨hlen, hle⟩
  · exact absurd h0 hne
  · rw [hlen]; exact Val.mainPosition_lt hle key strings

theorem maxASize_le_maxVecLength : maxASize ≤ maxVecLength := by decide

theorem Inv.nodes_le (h : t.Inv strings) : t.nodes.length ≤ 2 ^ 31 := by
  rcases h.size with ⟨h0, -⟩ | ⟨hlen, hlt⟩
  · rw [h0]; exact Nat.zero_le _
  · rw [hlen]; exact Nat.pow_le_pow_right (by omega) (by omega)

/-- Both parts are at most as long as a rehash makes them. -/
structure Small (t : Table) : Prop where
  array_le : t.array.length ≤ maxASize
  nodes_le : t.nodes.length ≤ maxASize

theorem small_new : Small {} := ⟨Nat.zero_le _, Nat.zero_le _⟩

/-! ### Integer keys -/

theorem numberToIntKey_congr {a b : F64} (h : a.beq b = true) : numberToIntKey a = numberToIntKey b := by
  rw [numberToIntKey, numberToIntKey, F64.isFinite_congr h, F64.toI64_congr h]
  split
  · have hb : (F64.ofInt b.toI64).beq a = (F64.ofInt b.toI64).beq b := by
      rw [Bool.eq_iff_iff]
      exact ⟨fun h' => F64.beq_trans h' h, fun h' => F64.beq_trans h' (F64.beq_symm h)⟩
    rw [hb]
  · rfl

theorem intKey_congr {a b : Val} (h : a.rawEq b = true) : a.intKey = b.intKey := by
  cases a <;> cases b <;> simp only [Val.rawEq, Bool.false_eq_true, beq_iff_eq] at h
  case num.num a b => exact numberToIntKey_congr h
  all_goals rfl

/-- A key with an integer is raw equal to that integer. -/
theorem beq_of_numberToIntKey {n : F64} {k : ℤ} (h : numberToIntKey n = some k) :
    (F64.ofInt k).beq n = true ∧ k = n.toI64 := by
  unfold numberToIntKey at h
  split at h
  · split at h
    · next hb => cases h; exact ⟨hb, rfl⟩
    · cases h
  · cases h

theorem toI64_range (n : F64) : -2 ^ 63 ≤ n.toI64 ∧ n.toI64 < 2 ^ 63 := by
  cases n <;> simp only [F64.toI64, F64.i64Min, F64.i64Max]
  · omega
  · split <;> omega
  · omega

theorem intKey_range {k : ℤ} (h : key.intKey = some k) : -2 ^ 63 ≤ k ∧ k < 2 ^ 63 := by
  cases key <;> simp only [Val.intKey, reduceCtorEq] at h
  rw [(beq_of_numberToIntKey h).2]
  exact toI64_range _

/-- The key of the array slot `i` (0-based). -/
def slotKey (i : ℕ) : Val := .num (F64.ofInt (i + 1))

theorem intKey_ofInt {i : ℤ} (h : i.natAbs < 2 ^ 53) : Val.intKey (.num (F64.ofInt i)) = some i := by
  rw [Val.intKey, numberToIntKey, F64.isFinite_ofInt h, F64.toI64_ofInt h]
  have hb : (F64.ofInt i).beq (F64.ofInt i) = true :=
    F64.beq_refl (F64.isNaN_of_isFinite (F64.isFinite_ofInt h))
  simp [hb]

theorem lt_of_lt_maxASize {i : ℕ} (h : i < maxASize) : i < 2 ^ 52 := h.trans (by decide)

theorem intKey_slotKey {i : ℕ} (h : i < 2 ^ 52) : (slotKey i).intKey = some (i + 1 : ℤ) :=
  intKey_ofInt (by omega)

theorem live_slotKey {i : ℕ} (h : i < 2 ^ 52) (strings : StringArena) : (slotKey i).Live strings :=
  ⟨by simp [slotKey], F64.isNaN_of_isFinite (F64.isFinite_ofInt (by omega)), rfl⟩

/-- Keys with the same integer are raw equal. -/
theorem rawEq_of_intKey {a b : Val} {k : ℤ} (ha : a.intKey = some k) (hb : b.intKey = some k) :
    a.rawEq b = true := by
  cases a <;> simp only [Val.intKey, reduceCtorEq] at ha
  cases b <;> simp only [Val.intKey, reduceCtorEq] at hb
  exact F64.beq_trans (F64.beq_symm (beq_of_numberToIntKey ha).1) (beq_of_numberToIntKey hb).1

/-- The array slots are the integers from 1 to the length of the array. -/
theorem arrayIndex_eq_some (h : t.array.length ≤ maxVecLength) {k : ℤ} (hk : -2 ^ 63 ≤ k ∧ k < 2 ^ 63)
    {idx : ℕ} : t.arrayIndex k = some idx ↔ k = idx + 1 ∧ idx < t.array.length := by
  simp only [arrayIndex, maxVecLength] at *
  constructor
  · intro heq
    split at heq
    · cases heq; omega
    · cases heq
  · rintro ⟨rfl, hlt⟩
    have hmod : ((idx + 1 - 1 : ℤ) % 2 ^ 64).toNat = idx := by omega
    rw [hmod, if_pos hlt]

theorem slot_eq_some (h : t.array.length ≤ maxVecLength) {idx : ℕ} :
    t.slot key = some idx ↔ key.intKey = some (idx + 1 : ℤ) ∧ idx < t.array.length := by
  rw [slot, Option.bind_eq_some_iff]
  constructor
  · rintro ⟨k, hk, hidx⟩
    obtain ⟨rfl, hlt⟩ := (arrayIndex_eq_some h (intKey_range hk)).mp hidx
    exact ⟨hk, hlt⟩
  · rintro ⟨hk, hlt⟩
    exact ⟨_, hk, (arrayIndex_eq_some h (intKey_range hk)).mpr ⟨rfl, hlt⟩⟩

theorem slot_congr {a b : Val} (h : a.rawEq b = true) (t : Table) : t.slot a = t.slot b := by
  rw [slot, slot, intKey_congr h]

theorem lookup_congr {a b : Val} (h : a.rawEq b = true) (t : Table) : t.lookup a = t.lookup b := by
  rw [lookup, lookup, slot_congr h, NodesInv.findValue_congr_key h]

/-! ### Lookup -/

/-- A walk stops at a node that passes the test. -/
theorem walk_found {nodes : List Node} {test : Val → Bool} : ∀ {fuel : ℕ} {cur : Option ℕ} {i : ℕ},
    walk nodes test fuel cur = some (some i) → ∃ n, nodes[i]? = some n ∧ test n.key = true
  | fuel, none, i, h => by
    rw [walk] at h
    cases h
  | 0, some j, i, h => by
    rw [walk] at h
    cases h
  | fuel + 1, some j, i, h => by
    simp only [walk, bind, Option.bind_eq_some_iff] at h
    obtain ⟨n, hn, h⟩ := h
    split at h
    · next htest =>
      cases h
      exact ⟨n, hn, htest⟩
    · exact walk_found h

/-- With enough fuel a walk finds the first node of the chain that satisfies the test. -/
theorem walk_eq {nodes : List Node} (test : Val → Bool) : ∀ {fuel : ℕ} {h : Option ℕ} {l : List ℕ},
    Chain (nextOf nodes) h l → (∀ j ∈ l, j < nodes.length) → l.length ≤ fuel →
    walk nodes test fuel h = some (l.find? fun j => (nodes[j]?).any fun n => test n.key)
  | fuel, h, [], hl, _, _ => by
    rw [Chain.nil_iff] at hl
    subst hl
    cases fuel <;> rfl
  | 0, h, i :: l, _, _, hlen => by simp at hlen
  | fuel + 1, h, i :: l, hl, hb, hlen => by
    obtain ⟨rfl, hl⟩ := hl
    have hi := hb i (List.mem_cons_self ..)
    have hget : nodes[i]? = some nodes[i] := List.getElem?_eq_getElem hi
    rw [walk, List.find?_cons, hget]
    simp only [bind, Option.bind_some, Option.any_some]
    by_cases ht : test nodes[i].key = true
    · simp [ht]
    · have hn : nextOf nodes i = nodes[i].next := by rw [nextOf, hget]; rfl
      rw [hn] at hl
      have ih := walk_eq test hl (fun j hj => hb j (List.mem_cons_of_mem _ hj))
        (by simpa using hlen)
      simp [ht, ih]

/-- The walk from the main position of a live key finds the key, or the key is absent. -/
theorem Inv.walk_live (h : t.Inv strings) (hk : key.Live strings) (hne : t.nodes ≠ []) :
    (∃ (j : ℕ) (n : Node), walk t.nodes (fun k => k.rawEq key) t.nodes.length
        (some (t.mainPosition key strings)) = some (some j) ∧
        t.nodes[j]? = some n ∧ n.key.rawEq key = true) ∨
      (walk t.nodes (fun k => k.rawEq key) t.nodes.length
        (some (t.mainPosition key strings)) = some none ∧ ∀ n ∈ t.nodes, n.key.rawEq key = false) := by
  obtain ⟨l, hl, hb⟩ := h.nodes_inv.chain _ (h.home_lt hne key)
  rw [h.mainPosition_eq hne, walk_eq _ hl hb (hl.length_le hb)]
  cases hf : l.find? fun j => (t.nodes[j]?).any fun n => n.key.rawEq key with
  | some j =>
    have hj := List.find?_some hf
    cases hn : t.nodes[j]? with
    | none => rw [hn] at hj; cases hj
    | some n =>
      rw [hn] at hj
      exact .inl ⟨j, n, rfl, hn, hj⟩
  | none =>
    refine .inr ⟨rfl, fun n hn => Bool.eq_false_iff.mpr fun hnk => ?_⟩
    -- a node with the key would be on the chain of its main position
    obtain ⟨i, hi⟩ := NodesInv.exists_index hn
    have hnl := hk.congr (Val.rawEq_symm hnk)
    have hmem := h.nodes_inv.reach i n l hi hnl (by rw [Val.mainPosition_congr hnk]; exact hl)
    have := List.find?_eq_none.mp hf i hmem
    rw [hi] at this
    exact this hnk

theorem Inv.chainValue_eq (h : t.Inv strings) (hk : key.Live strings) (hne : t.nodes ≠ []) :
    t.chainValue (fun k => k.rawEq key) (t.mainPosition key strings) =
      some (NodesInv.findValue t.nodes key) := by
  rcases h.walk_live hk hne with ⟨j, n, hw, hn, hnk⟩ | ⟨hw, habs⟩
  · rw [h.nodes_inv.findValue_eq hk ⟨n, NodesInv.mem hn, hnk, rfl⟩]
    simp [chainValue, hw, hn]
  · rw [NodesInv.findValue_of_absent habs]
    simp [chainValue, hw]

theorem Inv.getHash_eq (h : t.Inv strings) (hk : key.Live strings) :
    t.getHash key strings = some (NodesInv.findValue t.nodes key) := by
  by_cases hne : t.nodes = []
  · simp [getHash, hne, NodesInv.findValue]
  · rw [getHash, if_neg (by simp [hne]), h.chainValue_eq hk hne]

theorem Inv.getStr_eq (h : t.Inv strings) {r : GcRef .string} (hk : Val.Live strings (.str r)) :
    t.getStr r strings = some (NodesInv.findValue t.nodes (.str r)) := by
  rw [← h.getHash_eq hk, getStr, getHash]
  by_cases hne : t.nodes.isEmpty = true
  · rw [if_pos hne, if_pos hne]
  · rw [if_neg hne, if_neg hne]
    obtain ⟨s, hs⟩ : ∃ s, strings.get r = some s := by
      have := hk.not_stale
      cases hs : strings.get r with
      | none => rw [Val.isStale, hs] at this; cases this
      | some s => exact ⟨s, rfl⟩
    have htest : strIs r = fun k => k.rawEq (.str r) := by
      funext k; cases k <;> rfl
    have hpos : t.mainPosition (.str r) strings = hashPow2 s.hash.toNat t.hashSize := by
      rw [mainPosition, Val.mainPosition, hs]; rfl
    rw [hs, hpos, ← htest]
    exact if_neg hne

theorem Inv.getInt_eq (h : t.Inv strings) {n : F64} {k : ℤ} (hn : numberToIntKey n = some k) :
    t.getInt k = some (t.lookup (.num n)) := by
  obtain ⟨hb, rfl⟩ := beq_of_numberToIntKey hn
  rw [getInt, lookup, slot, Val.intKey, hn, Option.bind_some]
  cases hidx : t.arrayIndex n.toI64 with
  | some idx =>
    have hlt := ((arrayIndex_eq_some h.array_le (toI64_range n)).mp hidx).2
    simp [List.getElem?_eq_getElem hlt]
  | none =>
    have hlive : Val.Live strings (.num n) := ⟨by simp, F64.isNaN_of_beq (F64.beq_symm hb), rfl⟩
    have htest : numIs (F64.ofInt n.toI64) = fun k => k.rawEq (.num n) := by
      funext k
      cases k <;> first | rfl | skip
      case num m =>
        rw [numIs, Val.rawEq, Bool.eq_iff_iff]
        exact ⟨fun h' => F64.beq_trans h' hb, fun h' => F64.beq_trans h' (F64.beq_symm hb)⟩
    have hpos : hashMod (hashNumber (F64.ofInt n.toI64)) t.hashSize = t.mainPosition (.num n) strings := by
      rw [mainPosition, Val.mainPosition, Val.hashNumber_congr hb]
    have hget := h.getHash_eq hlive
    rw [getHash] at hget
    simp only [htest, hpos]
    exact hget

/-- `get` computes the value of the key. -/
theorem Inv.get_eq (h : t.Inv strings) (hk : key.Live strings) :
    t.get key strings = some (t.lookup key) := by
  cases key with
  | nil => exact absurd rfl hk.ne_nil
  | str r => exact h.getStr_eq hk
  | num n =>
    cases hn : numberToIntKey n with
    | some k => simp only [get, hn]; exact h.getInt_eq hn
    | none =>
      have hslot : t.slot (.num n) = none := by rw [slot, Val.intKey, hn]; rfl
      simp only [get, hn, lookup, hslot]
      exact h.getHash_eq hk
  | _ => exact h.getHash_eq hk

end Table

end Rilua.Vm
