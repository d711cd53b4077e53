import Mathlib.Order.Interval.Finset.Nat
import Rilua.Vm.TableMap

/-! The sizes that a rehash chooses. The keys it counts are the integers that have a value in the table, each of them
    once, and the key to be inserted. More than half of the slots of the chosen array part will be in use, and of no
    larger power of two up to the maximal array size; and the hash part has a node for the key to be inserted. -/

namespace Rilua.Vm

open Lib Gc

namespace Table

variable {strings : StringArena} {t t' : Table} {ek : Val} {ints : List ℕ} {k : ℕ}

/-- Whether the integer has a value in the table, or is the key to be inserted. -/
def inUse (t : Table) (ek : Val) (k : ℕ) : Bool := !(t.lookup (slotKey (k - 1))).isNil || ek.intKey == some (k : ℤ)

/-- How many of the integers from `a` on, up to `b`, are in use. -/
def used (t : Table) (ek : Val) (a b : ℕ) : ℕ := ((Finset.Icc a b).filter fun k => t.inUse ek k = true).card

/-! ### The keys that are counted -/

theorem arrayKey_eq_some {key : Val} : arrayKey key = some k ↔ key.intKey = some (k : ℤ) ∧ 1 ≤ k ∧ k ≤ maxASize := by
  rw [arrayKey, Option.bind_eq_some_iff]
  constructor
  · rintro ⟨i, hi, hk⟩
    split at hk
    · next hrange =>
      cases hk
      rw [hi]
      exact ⟨by congr 1; omega, by omega, hrange.2⟩
    · cases hk
  · rintro ⟨hk, hpos, hle⟩
    exact ⟨k, hk, by rw [if_pos ⟨by omega, by omega⟩]; rfl⟩

theorem intKey_slotKey_pred (hpos : 1 ≤ k) (hle : k ≤ maxASize) : (slotKey (k - 1)).intKey = some (k : ℤ) := by
  rw [intKey_slotKey (lt_of_lt_maxASize (by omega))]
  congr 1
  omega

theorem lookup_slotKey_pred (h : t.Inv strings) (hpos : 1 ≤ k) (hle : k ≤ maxASize) : t.lookup (slotKey (k - 1)) =
    if k - 1 < t.array.length then t.array.getD (k - 1) .nil else NodesInv.findValue t.nodes (slotKey (k - 1)) :=
  lookup_int h.array_le ((intKey_slotKey_pred hpos hle).trans (by congr 1; omega))

theorem mem_arrayInts (h : t.Inv strings) (hsmall : t.array.length ≤ maxASize) : k ∈ arrayInts t.array ↔
    1 ≤ k ∧ k ≤ maxASize ∧ k - 1 < t.array.length ∧ (t.lookup (slotKey (k - 1))).isNil = false := by
  rw [arrayInts, List.mem_filter, List.mem_range'_1, Bool.not_eq_true']
  constructor
  · rintro ⟨⟨hpos, hlt⟩, hv⟩
    rw [lookup_slotKey_pred h hpos (by omega), if_pos (by omega)]
    exact ⟨hpos, by omega, by omega, hv⟩
  · rintro ⟨hpos, hle, hlt, hv⟩
    rw [lookup_slotKey_pred h hpos hle, if_pos hlt] at hv
    exact ⟨⟨hpos, by omega⟩, hv⟩

theorem mem_flat {n : Node} : k ∈ (if n.value.isNil then [] else (arrayKey n.key).toList) ↔
    n.value.isNil = false ∧ arrayKey n.key = some k := by
  cases n.value.isNil with
  | true => simp
  | false => simp

theorem mem_nodeInts (h : t.Inv strings) : k ∈ nodeInts t.nodes.reverse ↔
    1 ≤ k ∧ k ≤ maxASize ∧ t.array.length ≤ k - 1 ∧ (t.lookup (slotKey (k - 1))).isNil = false := by
  rw [nodeInts, List.mem_flatMap]
  constructor
  · rintro ⟨n, hn, hk⟩
    obtain ⟨hv, hk⟩ := mem_flat.mp hk
    have hn := List.mem_reverse.mp hn
    obtain ⟨hint, hpos, hle⟩ := arrayKey_eq_some.mp hk
    have hge : t.array.length ≤ k - 1 := by
      by_contra hlt
      have hslot : t.slot n.key = some (k - 1) :=
        (slot_eq_some h.array_le).mpr ⟨hint.trans (by congr 1; omega), by omega⟩
      rw [h.shadow n hn (by rw [hslot]; rfl)] at hv
      cases hv
    have hlive : (slotKey (k - 1)).Live strings := live_slotKey (lt_of_lt_maxASize (by omega)) strings
    have heq := rawEq_of_intKey hint (intKey_slotKey_pred hpos hle)
    rw [lookup_slotKey_pred h hpos hle, if_neg (by omega), h.nodes_inv.findValue_eq hlive ⟨n, hn, heq, rfl⟩]
    exact ⟨hpos, hle, hge, hv⟩
  · rintro ⟨hpos, hle, hge, hv⟩
    have hlive : (slotKey (k - 1)).Live strings := live_slotKey (lt_of_lt_maxASize (by omega)) strings
    rw [lookup_slotKey_pred h hpos hle, if_neg (by omega)] at hv
    by_contra hnone
    rw [findValue_eq_nil h.nodes_inv hlive] at hv
    · cases hv
    · intro n hn hv
      refine Bool.eq_false_iff.mpr fun heq => hnone ⟨n, List.mem_reverse.mpr hn, mem_flat.mpr ⟨?_, ?_⟩⟩
      · exact Val.isNil_eq_false.mpr hv
      · exact arrayKey_eq_some.mpr ⟨(intKey_congr heq).trans (intKey_slotKey_pred hpos hle), hpos, hle⟩

/-- What is counted is in use, and what is in use is counted. -/
theorem mem_rehashInts (h : t.Inv strings) (hsmall : t.array.length ≤ maxASize) :
    k ∈ t.rehashInts ek ↔ 1 ≤ k ∧ k ≤ maxASize ∧ t.inUse ek k = true := by
  rw [rehashInts, List.mem_append, List.mem_append, Option.mem_toList, mem_nodeInts h, mem_arrayInts h hsmall, inUse,
    Bool.or_eq_true, Bool.not_eq_true', beq_iff_eq]
  rw [arrayKey_eq_some]
  constructor
  · rintro (⟨hk, hpos, hle⟩ | ⟨hpos, hle, -, hv⟩ | ⟨hpos, hle, -, hv⟩)
    · exact ⟨hpos, hle, .inr hk⟩
    · exact ⟨hpos, hle, .inl hv⟩
    · exact ⟨hpos, hle, .inl hv⟩
  · rintro ⟨hpos, hle, hv | hk⟩
    · rcases Nat.lt_or_ge (k - 1) t.array.length with hlt | hge
      · exact .inr (.inr ⟨hpos, hle, hlt, hv⟩)
      · exact .inr (.inl ⟨hpos, hle, hge, hv⟩)
    · exact .inl ⟨hk, hpos, hle⟩

/-- No key is counted twice. -/
theorem nodup_rehashInts (h : t.Inv strings) (hsmall : t.array.length ≤ maxASize) (hnew : t.lookup ek = .nil) :
    (t.rehashInts ek).Nodup := by
  have hek : (arrayKey ek).toList.Nodup := by cases arrayKey ek <;> simp
  have hnodes : (nodeInts t.nodes.reverse).Nodup := by
    rw [nodeInts, List.nodup_flatMap]
    constructor
    · intro n _
      split
      · exact List.nodup_nil
      · cases arrayKey n.key <;> simp
    · refine (pairwise_reverse h.nodes_inv).imp fun {n m} hne k hn hm => ?_
      obtain ⟨hv, hkn⟩ := mem_flat.mp hn
      have heq := rawEq_of_intKey (arrayKey_eq_some.mp hkn).1 (arrayKey_eq_some.mp (mem_flat.mp hm).2).1
      rw [hne (Val.isNil_eq_false.mp hv)] at heq
      cases heq
  have harray : (arrayInts t.array).Nodup := (List.nodup_range' ..).filter _
  rw [rehashInts, List.nodup_append, List.nodup_append]
  refine ⟨hek, ⟨hnodes, harray, fun k hk k' hk' heq => ?_⟩, fun k hk k' hk' heq => ?_⟩
  · subst heq
    have hge := ((mem_nodeInts h).mp hk).2.2.1
    have hlt := ((mem_arrayInts h hsmall).mp hk').2.2.1
    omega
  · subst heq
    obtain ⟨hint, hpos, hle⟩ := arrayKey_eq_some.mp (Option.mem_toList.mp hk)
    have hv : (t.lookup (slotKey (k - 1))).isNil = false := by
      rcases List.mem_append.mp hk' with hk' | hk'
      · exact ((mem_nodeInts h).mp hk').2.2.2
      · exact ((mem_arrayInts h hsmall).mp hk').2.2.2
    rw [← lookup_congr (rawEq_of_intKey hint (intKey_slotKey_pred hpos hle)), hnew] at hv
    cases hv

/-- Counting the keys is counting the integers in use. -/
theorem countP_rehashInts_range (h : t.Inv strings) (hsmall : t.array.length ≤ maxASize) (hnew : t.lookup ek = .nil)
    {a b : ℕ} (hb : b ≤ maxASize) {p : ℕ → Bool} (hp : ∀ k, 1 ≤ k → (p k = true ↔ a < k ∧ k ≤ b)) :
    (t.rehashInts ek).countP p = t.used ek (a + 1) b := by
  have hset : ((t.rehashInts ek).filter p).toFinset = (Finset.Icc (a + 1) b).filter fun k => t.inUse ek k = true := by
    ext k
    rw [List.mem_toFinset, List.mem_filter, mem_rehashInts h hsmall, Finset.mem_filter, Finset.mem_Icc]
    constructor
    · rintro ⟨⟨hpos, -, huse⟩, hpk⟩
      exact ⟨(hp k hpos).mp hpk, huse⟩
    · rintro ⟨hrange, huse⟩
      have hpos : 1 ≤ k := by omega
      exact ⟨⟨hpos, by omega, huse⟩, (hp k hpos).mpr hrange⟩
  rw [used, ← hset, List.toFinset_card_of_nodup ((nodup_rehashInts h hsmall hnew).filter _),
    List.countP_eq_length_filter]

/-! ### The size that is chosen -/

/-- More than half of the numbers up to `n` are there. -/
def HalfFull (ints : List ℕ) (n : ℕ) : Prop := n < 2 * ints.countP (· ≤ n)

instance (ints : List ℕ) (n : ℕ) : Decidable (HalfFull ints n) := inferInstanceAs (Decidable (_ < _))

/-- The best size among the first `m` powers of two, or 0. -/
structure Best (ints : List ℕ) (m best : ℕ) : Prop where
  pow : best = 0 ∨ ∃ j < m, best = 2 ^ j
  half : best ≠ 0 → HalfFull ints best
  largest : ∀ j < m, HalfFull ints (2 ^ j) → 2 ^ j ≤ best

theorem countP_le_of_nodup (hpos : ∀ k ∈ ints, 1 ≤ k) (hnodup : ints.Nodup) (n : ℕ) : ints.countP (· ≤ n) ≤ n := by
  rw [List.countP_eq_length_filter, ← List.toFinset_card_of_nodup (hnodup.filter _)]
  have hsub : (ints.filter (· ≤ n)).toFinset ⊆ Finset.Icc 1 n := by
    intro k hk
    rw [List.mem_toFinset, List.mem_filter, decide_eq_true_eq] at hk
    exact Finset.mem_Icc.mpr ⟨hpos k hk.1, hk.2⟩
  calc _ ≤ (Finset.Icc 1 n).card := Finset.card_le_card hsub
    _ = n := by rw [Nat.card_Icc, Nat.add_sub_cancel]

/-- With no key above the half, no more than half are there. -/
theorem not_halfFull_of_half (hpos : ∀ k ∈ ints, 1 ≤ k) (hnodup : ints.Nodup) {j : ℕ}
    (h : ints.countP (· ≤ 2 ^ j) = ints.countP (· ≤ 2 ^ j / 2)) : ¬ HalfFull ints (2 ^ j) := by
  have hle := countP_le_of_nodup hpos hnodup (2 ^ j / 2)
  rw [HalfFull, h]
  omega

/-- The loop of `compute_sizes` looks at one power of two after the other, and stops when all keys are counted. -/
theorem computeSizesLoop_best (hpos : ∀ k ∈ ints, 1 ≤ k) (hnodup : ints.Nodup) (n lg na best : ℕ)
    (hn : lg + n = maxBits + 1) (hbest : Best ints lg best) :
    Best ints (maxBits + 1) (computeSizesLoop ints.length
      ((List.range' lg n).map fun i => ints.countP fun k => ceilLog2 k == i)
      (ints.countP (· ≤ 2 ^ lg / 2)) na best (2 ^ lg)).2 := by
  induction n generalizing lg na best with
  | zero =>
    obtain rfl : lg = maxBits + 1 := hn
    exact hbest
  | succ n ih =>
    have hstep := countP_le_pow hpos lg
    rw [List.range'_succ, List.map_cons, computeSizesLoop]
    set num := ints.countP fun k => ceilLog2 k == lg with hnum
    have ha : (if 0 < num then ints.countP (· ≤ 2 ^ lg / 2) + num else ints.countP (· ≤ 2 ^ lg / 2)) =
        ints.countP (· ≤ 2 ^ lg) := by
      split <;> omega
    have hdbl : min (2 ^ lg * 2) (u32Size - 1) = 2 ^ (lg + 1) := by
      have hle : 2 ^ (lg + 1) ≤ 2 ^ 27 := Nat.pow_le_pow_right (by omega) (by simp only [maxBits] at hn; omega)
      simp only [u32Size, Nat.pow_succ] at *
      omega
    have hhalf : 2 ^ (lg + 1) / 2 = 2 ^ lg := by omega
    have hiff : (0 < num ∧ 2 ^ lg / 2 < ints.countP (· ≤ 2 ^ lg)) ↔ HalfFull ints (2 ^ lg) := by
      rw [HalfFull]
      constructor
      · omega
      · intro h
        refine ⟨Nat.pos_of_ne_zero fun hzero => ?_, by omega⟩
        exact not_halfFull_of_half hpos hnodup (by omega) h
    simp only [ha, hdbl, hiff]
    have hbest' : Best ints (lg + 1) (if HalfFull ints (2 ^ lg) then 2 ^ lg else best) := by
      by_cases hfull : HalfFull ints (2 ^ lg)
      · rw [if_pos hfull]
        refine ⟨.inr ⟨lg, Nat.lt_succ_self lg, rfl⟩, fun _ => hfull, fun j hj _ => ?_⟩
        exact Nat.pow_le_pow_right (by omega) (by omega)
      · rw [if_neg hfull]
        refine ⟨hbest.pow.imp_right (Exists.imp fun j h => ⟨Nat.lt_succ_of_lt h.1, h.2⟩), hbest.half, fun j hj hjfull => ?_⟩
        rcases Nat.lt_succ_iff_lt_or_eq.mp hj with hj | rfl
        · exact hbest.largest j hj hjfull
        · exact absurd hjfull hfull
    split
    · next hall =>
      refine ⟨hbest'.pow.imp_right (Exists.imp fun j h => ⟨by omega, h.2⟩), hbest'.half, fun j hj hjfull => ?_⟩
      rcases Nat.lt_or_ge j (lg + 1) with hlt | hge
      · exact hbest'.largest j hlt hjfull
      · -- larger powers of two have no keys of their own
        have hpow : 2 ^ (lg + 1) ≤ 2 ^ j := Nat.pow_le_pow_right (by omega) hge
        have hmono : ∀ n, 2 ^ lg ≤ n → ints.countP (· ≤ n) = ints.length := by
          intro n hn
          refine Nat.le_antisymm List.countP_le_length (hall ▸ List.countP_mono_left fun k _ hk => ?_)
          rw [decide_eq_true_eq] at hk ⊢
          exact hk.trans hn
        refine absurd hjfull (not_halfFull_of_half hpos hnodup ?_)
        rw [hmono _ (by omega), hmono _ (by omega)]
    · have h := ih (lg + 1) (if HalfFull ints (2 ^ lg) then ints.countP (· ≤ 2 ^ lg) else na) _ (by omega) hbest'
      rw [hhalf] at h
      exact h

theorem computeSizes_best (hpos : ∀ k ∈ ints, 1 ≤ k) (hnodup : ints.Nodup) :
    Best ints (maxBits + 1) (computeSizes (histogram ints) ints.length).2 := by
  have hzero : ints.countP (· ≤ 0) = 0 :=
    List.countP_eq_zero.mpr fun k hk => by simpa using Nat.ne_of_gt (hpos k hk)
  have hstart : Best ints 0 0 := ⟨.inl rfl, fun h => absurd rfl h, fun j hj => absurd hj (Nat.not_lt_zero j)⟩
  have h := computeSizesLoop_best hpos hnodup (maxBits + 1) 0 0 0 (by omega) hstart
  rw [← List.range_eq_range', show 2 ^ 0 / 2 = 0 from rfl, hzero] at h
  exact h

/-- The keys that a rehash counts, as integers in use. -/
theorem countP_rehashInts_le (h : t.Inv strings) (hsmall : t.array.length ≤ maxASize) (hnew : t.lookup ek = .nil)
    {n : ℕ}
    (hn : n ≤ maxASize) : (t.rehashInts ek).countP (· ≤ n) = t.used ek 1 n :=
  countP_rehashInts_range h hsmall hnew hn fun k hk => by
    rw [decide_eq_true_eq]
    omega

theorem pow_le_maxASize {i : ℕ} (h : i ≤ maxBits) : 2 ^ i ≤ maxASize := Nat.pow_le_pow_right (by omega) h

/-- What is handed to `compute_sizes`, and what it chooses. -/
theorem rehashCounts_spec (h : t.Inv strings) (hsmall : t.array.length ≤ maxASize) (hnew : t.lookup ek = .nil) :
    ∃ nums naSize totalUse na n, t.rehashCounts ek = (nums, naSize, totalUse) ∧ computeSizes nums naSize = (na, n) ∧
      nums = (List.range (maxBits + 1)).map (fun i => t.used ek (2 ^ i / 2 + 1) (2 ^ i)) ∧
      naSize = t.used ek 1 maxASize ∧ na = t.used ek 1 n ∧ totalUse = na + t.roomFor n ek ∧ n ≤ maxASize ∧
      (n = 0 ∨ ∃ i ≤ maxBits, n = 2 ^ i) ∧ (n ≠ 0 → n < 2 * t.used ek 1 n) ∧
      ∀ i ≤ maxBits, 2 ^ i < 2 * t.used ek 1 (2 ^ i) → 2 ^ i ≤ n := by
  have hpos : ∀ k ∈ t.rehashInts ek, 1 ≤ k := fun k hk => pos_of_mem_rehashInts hk
  obtain ⟨n, hn, hsizes⟩ := computeSizes_spec hpos (t.rehashInts ek).length
  have hbest := computeSizes_best hpos (nodup_rehashInts h hsmall hnew)
  rw [hsizes] at hbest
  have hcount {m : ℕ} (hm : m ≤ maxASize) := countP_rehashInts_le h hsmall hnew hm
  refine ⟨_, _, _, _, n, rehashCounts_eq hsmall ek, hsizes, ?_, ?_, hcount hn, ?_, hn, ?_, ?_, ?_⟩
  · refine List.map_congr_left fun i hi => ?_
    have hi : i ≤ maxBits := by
      have := List.mem_range.mp hi
      omega
    refine countP_rehashInts_range h hsmall hnew (pow_le_maxASize hi) fun k hk => ?_
    have hhalf := @le_pow_iff k i hk
    have hle : ceilLog2 k = i → k ≤ 2 ^ i := fun heq => ceilLog2_le.mp (Nat.le_of_eq heq)
    rw [beq_iff_eq]
    constructor
    · intro heq
      exact ⟨by have := hle heq; omega, hle heq⟩
    · rintro ⟨hlt, hle⟩
      by_contra hne
      have := hhalf.mp ⟨hle, hne⟩
      omega
  · rw [← hcount le_rfl]
    refine (List.countP_eq_length.mpr fun k hk => ?_).symm
    rw [decide_eq_true_eq]
    exact ((mem_rehashInts h hsmall).mp hk).2.1
  · exact (t.countP_rehashInts ek n).symm
  · refine hbest.pow.imp_right fun ⟨i, hi, heq⟩ => ⟨i, by omega, heq⟩
  · intro hne
    have hhalf := hbest.half hne
    rw [HalfFull, hcount hn] at hhalf
    exact hhalf
  · intro i hi hhalf
    refine hbest.largest i (by omega) ?_
    rw [HalfFull, hcount (pow_le_maxASize hi)]
    exact hhalf

/-- An array part of the maximal size, without a nil. -/
def fullArray : Table where
  array := List.replicate maxASize (.bool true)

theorem inv_fullArray (strings : StringArena) : fullArray.Inv strings where
  nodes_inv := NodesInv.replicate strings 0
  size := .inl ⟨rfl, rfl⟩
  lastFree_le := Nat.le_refl 0
  scanned i n _ h := by cases h
  array_le := by
    rw [fullArray, List.length_replicate]
    exact maxASize_le_maxVecLength
  shadow n h := by cases h

theorem lookup_fullArray {k : ℕ} (hpos : 1 ≤ k) (hle : k ≤ maxASize) :
    fullArray.lookup (slotKey (k - 1)) = .bool true := by
  have hlt : k - 1 < (List.replicate maxASize (Val.bool true)).length := by
    rw [List.length_replicate]
    omega
  rw [lookup_slotKey_pred (inv_fullArray {}) hpos hle, fullArray, if_pos hlt, List.getD_eq_getElem?_getD,
    List.getElem?_eq_getElem hlt, List.getElem_replicate]
  rfl

/-- If the integers up to `n` are in use, at least so many are. -/
theorem le_used {n b : ℕ} (hle : n ≤ b) (h : ∀ k, 1 ≤ k → k ≤ n → t.inUse ek k = true) : n ≤ t.used ek 1 b := by
  have hsub : Finset.Icc 1 n ⊆ (Finset.Icc 1 b).filter fun k => t.inUse ek k = true := by
    intro k hk
    obtain ⟨hpos, hkn⟩ := Finset.mem_Icc.mp hk
    exact Finset.mem_filter.mpr ⟨Finset.mem_Icc.mpr ⟨hpos, hkn.trans hle⟩, h k hpos hkn⟩
  calc n = (Finset.Icc 1 n).card := by rw [Nat.card_Icc, Nat.add_sub_cancel]
    _ ≤ t.used ek 1 b := Finset.card_le_card hsub

end Table

end Rilua.Vm
