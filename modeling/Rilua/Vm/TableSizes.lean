import Rilua.Vm.TableAssign

/-! The counting of a rehash. The keys that could live in the array part are numbers up to the maximal
    array size; `nums` is their histogram over powers of two, and the size that is chosen comes with the
    number of keys that fit below it. The hash part is then sized for all other entries. -/

namespace Rilua.Vm

open Lib Gc

theorem ceilLog2_le {k j : ℕ} : ceilLog2 k ≤ j ↔ k ≤ 2 ^ j := by
  have hpos : 0 < 2 ^ j := Nat.two_pow_pos j
  rw [ceilLog2]
  split
  · omega
  · rw [Nat.succ_le_iff, Nat.log2_lt (by omega)]
    omega

/-- The keys counted in bucket `j + 1`. -/
theorem ceilLog2_eq_succ {k j : ℕ} : ceilLog2 k = j + 1 ↔ 2 ^ j < k ∧ k ≤ 2 ^ (j + 1) := by
  rw [← ceilLog2_le, ← Nat.not_le, ← ceilLog2_le]
  omega

namespace Table

/-- The number a key stands for if it is a candidate for the array part. -/
def arrayKey (key : Val) : Option ℕ :=
  key.intKey.bind fun k => if 1 ≤ k ∧ k.toNat ≤ maxASize then some k.toNat else none

/-- The keys of the array slots in use. -/
def arrayInts (array : List Val) : List ℕ :=
  (List.range' 1 array.length).filter fun i => !(array.getD (i - 1) .nil).isNil

/-- The candidates for the array part among the entries of the hash part. -/
def nodeInts (nodes : List Node) : List ℕ :=
  nodes.flatMap fun n => if n.value.isNil then [] else (arrayKey n.key).toList

/-- For each power of two the number of keys up to it and above the one before. -/
def histogram (ints : List ℕ) : List ℕ :=
  (List.range (maxBits + 1)).map fun i => ints.countP fun k => ceilLog2 k == i

theorem histogram_perm {ints ints' : List ℕ} (h : ints.Perm ints') : histogram ints = histogram ints' :=
  List.map_congr_left fun _ _ => h.countP_eq _

theorem histogram_nil : histogram [] = List.replicate (maxBits + 1) 0 := by
  simp [histogram]

/-- Counting keys that all belong to one bucket. -/
theorem histogram_append {new : List ℕ} {lg : ℕ} (h : ∀ k ∈ new, ceilLog2 k = lg) (ints : List ℕ) :
    histogram (new ++ ints) = (histogram ints).modify lg (· + new.length) := by
  refine List.ext_getElem? fun i => ?_
  simp only [histogram, List.getElem?_map, List.getElem?_modify, List.countP_append]
  by_cases hi : i < maxBits + 1
  · rw [List.getElem?_range hi]
    rcases eq_or_ne lg i with rfl | hne
    · have hall : new.countP (fun k => ceilLog2 k == lg) = new.length :=
        List.countP_eq_length.mpr fun k hk => by simp [h k hk]
      simp [hall, Nat.add_comm]
    · have hnone : new.countP (fun k => ceilLog2 k == i) = 0 :=
        List.countP_eq_zero.mpr fun k hk => by simp [h k hk, hne]
      simp [hnone, hne]
  · rw [List.getElem?_eq_none (by simpa using hi)]
    simp

theorem countInt_eq (key : Val) (ints : List ℕ) :
    countInt key (histogram ints) =
      (histogram ((arrayKey key).toList ++ ints), (arrayKey key).toList.length) := by
  rw [countInt, arrayKey]
  cases key.intKey with
  | none => rfl
  | some k =>
    simp only [Option.bind_some]
    split
    · rw [Option.toList_some, @histogram_append _ (ceilLog2 k.toNat) (by simp)]
      rfl
    · rfl

theorem numUseHash_eq : ∀ (nodes : List Node) (ints : List ℕ) (naSize totalUse : ℕ),
    numUseHash nodes (histogram ints) naSize totalUse =
      (histogram (nodeInts nodes ++ ints), naSize + (nodeInts nodes).length,
        totalUse + nodes.countP fun n => !n.value.isNil)
  | [], ints, naSize, totalUse => rfl
  | n :: nodes, ints, naSize, totalUse => by
    rw [numUseHash, nodeInts, List.flatMap_cons, ← nodeInts, List.countP_cons]
    cases hn : n.value.isNil with
    | true => simpa using numUseHash_eq nodes ints naSize totalUse
    | false =>
      simp only [Bool.false_eq_true, if_false, countInt_eq, Bool.not_false, if_true]
      rw [numUseHash_eq nodes]
      have hperm : (nodeInts nodes ++ ((arrayKey n.key).toList ++ ints)).Perm
          ((arrayKey n.key).toList ++ nodeInts nodes ++ ints) := by
        rw [← List.append_assoc]
        exact List.perm_append_comm.append_right ints
      rw [histogram_perm hperm, List.length_append]
      simp only [Prod.mk.injEq, true_and]
      omega

theorem countSlots_eq (array : List Val) : ∀ (n i lc : ℕ), countSlots array n i lc =
    (i + n, lc + ((List.range' i n).filter fun i => !(array.getD (i - 1) .nil).isNil).length)
  | 0, i, lc => rfl
  | n + 1, i, lc => by
    rw [countSlots, countSlots_eq array n, List.range'_succ, List.filter_cons]
    cases (array.getD (i - 1) .nil).isNil with
    | true => simp; omega
    | false => simp; omega

/-- Adding a group of keys at either place gives the same histogram. -/
theorem histogram_append_left_comm (a b ints : List ℕ) :
    histogram (b ++ (a ++ ints)) = histogram (a ++ b ++ ints) := by
  refine histogram_perm ?_
  rw [← List.append_assoc]
  exact List.perm_append_comm.append_right ints

/-- The loop counts the slots from `i` on, range by range. -/
theorem numUseArrayLoop_eq {array : List Val} (hle : array.length ≤ maxASize) :
    ∀ (n lg i ause : ℕ) (ints : List ℕ), lg + n = maxBits + 1 →
      (i = array.length + 1 ∨ lg ≤ maxBits ∧ i ≤ 2 ^ lg ∧ ∀ k, i ≤ k → k ≤ 2 ^ lg → ceilLog2 k = lg) →
      numUseArrayLoop array (List.range' lg n) i ause (histogram ints) =
        (histogram ((List.range' i (array.length + 1 - i)).filter
            (fun i => !(array.getD (i - 1) .nil).isNil) ++ ints),
          ause + ((List.range' i (array.length + 1 - i)).filter
            fun i => !(array.getD (i - 1) .nil).isNil).length)
  | 0, lg, i, ause, ints, hn, hi => by
    obtain rfl : i = array.length + 1 := by
      rcases hi with hi | ⟨hlg, -⟩
      · exact hi
      · omega
    simp [numUseArrayLoop]
  | n + 1, lg, i, ause, ints, hn, hi => by
    rw [List.range'_succ, numUseArrayLoop]
    simp only [countSlots_eq, Nat.zero_add]
    split
    · next hlim =>
      -- the array ends before this range
      have hend : array.length + 1 - i = 0 := by
        rcases hi with hi | ⟨-, hi, -⟩ <;> omega
      simp [hend]
    · next hlim =>
      obtain ⟨hlg, hilg, hbucket⟩ : lg ≤ maxBits ∧ i ≤ 2 ^ lg ∧ ∀ k, i ≤ k → k ≤ 2 ^ lg → ceilLog2 k = lg := by
        rcases hi with hi | hi
        · omega
        · exact hi
      set lim := min (2 ^ lg) array.length with hlimd
      set p : ℕ → Bool := fun i => !(array.getD (i - 1) .nil).isNil with hp
      set new := (List.range' i (lim + 1 - i)).filter p with hnew
      have hmem : ∀ k ∈ new, ceilLog2 k = lg := by
        intro k hk
        have := List.mem_range'_1.mp (List.mem_filter.mp hk).1
        exact hbucket k this.1 (by omega)
      have hlast : i + (lim + 1 - i) = lim + 1 := by omega
      have hsplit : (List.range' i (array.length + 1 - i)).filter p =
          new ++ (List.range' (lim + 1) (array.length + 1 - (lim + 1))).filter p := by
        have hlen : array.length + 1 - i = (lim + 1 - i) + (array.length + 1 - (lim + 1)) := by omega
        rw [hnew, ← List.filter_append, hlen, ← List.range'_append_1, hlast]
      have hnext : lim + 1 = array.length + 1 ∨ lg + 1 ≤ maxBits ∧ lim + 1 ≤ 2 ^ (lg + 1) ∧
          ∀ k, lim + 1 ≤ k → k ≤ 2 ^ (lg + 1) → ceilLog2 k = lg + 1 := by
        have hdbl : 2 ^ (lg + 1) = 2 ^ lg * 2 := Nat.pow_succ ..
        have hpow : 0 < 2 ^ lg := Nat.two_pow_pos lg
        rcases Nat.le_total array.length (2 ^ lg) with hlen | hlen
        · exact .inl (by omega)
        · rcases Nat.lt_or_ge lg maxBits with hlt | hge
          · refine .inr ⟨hlt, by omega, fun k h1 h2 => ceilLog2_eq_succ.mpr ⟨by omega, h2⟩⟩
          · obtain rfl : lg = maxBits := by omega
            exact .inl (by simp only [maxASize] at hle; omega)
      rw [← histogram_append hmem, hlast, numUseArrayLoop_eq hle n (lg + 1) _ _ _ (by omega) hnext, hsplit,
        histogram_append_left_comm, List.length_append, Nat.add_assoc]

theorem numUseArray_eq {t : Table} (hle : t.array.length ≤ maxASize) :
    t.numUseArray (List.replicate (maxBits + 1) 0) =
      (histogram (arrayInts t.array), (arrayInts t.array).length) := by
  rw [numUseArray, ← histogram_nil, List.range_eq_range', numUseArrayLoop_eq hle]
  · simp [arrayInts]
  · omega
  · refine .inr ⟨Nat.zero_le _, Nat.le_refl 1, fun k h1 h2 => ?_⟩
    obtain rfl : k = 1 := by simp at h2; omega
    rfl

/-! ### The size of the array part -/

theorem le_pow_iff {k lg : ℕ} (hk : 1 ≤ k) :
    k ≤ 2 ^ lg ∧ ceilLog2 k ≠ lg ↔ k ≤ 2 ^ lg / 2 := by
  cases lg with
  | zero =>
    have : ceilLog2 k ≤ 0 ↔ k ≤ 2 ^ 0 := ceilLog2_le
    omega
  | succ j =>
    have hdbl : 2 ^ (j + 1) = 2 ^ j * 2 := Nat.pow_succ ..
    have := ceilLog2_eq_succ (k := k) (j := j)
    omega

theorem countP_le_pow : ∀ {ints : List ℕ}, (∀ k ∈ ints, 1 ≤ k) → ∀ lg : ℕ,
    ints.countP (· ≤ 2 ^ lg / 2) + ints.countP (ceilLog2 · == lg) = ints.countP (· ≤ 2 ^ lg)
  | [], _, _ => rfl
  | k :: ints, hpos, lg => by
    have ih := countP_le_pow (fun k hk => hpos k (List.mem_cons_of_mem _ hk)) lg
    have hk := @le_pow_iff k lg (hpos k (List.mem_cons_self ..))
    have hle : ceilLog2 k = lg → k ≤ 2 ^ lg := fun h => ceilLog2_le.mp (Nat.le_of_eq h)
    simp only [List.countP_cons, beq_iff_eq, decide_eq_true_eq]
    rcases eq_or_ne (ceilLog2 k) lg with heq | hne
    · have hnot : ¬ k ≤ 2 ^ lg / 2 := fun h => (hk.mpr h).2 heq
      rw [if_neg hnot, if_pos heq, if_pos (hle heq)]
      omega
    · rw [if_neg hne]
      simp only [ne_eq, hne, not_false_eq_true, and_true] at hk
      simp only [hk]
      omega

/-- The keys counted for the chosen size are those that fit below it. -/
theorem computeSizesLoop_spec {ints : List ℕ} (hpos : ∀ k ∈ ints, 1 ≤ k) (naSize : ℕ) :
    ∀ (n lg na bestSize : ℕ), lg + n = maxBits + 1 → na = ints.countP (· ≤ bestSize) →
      bestSize ≤ maxASize →
      ∃ best ≤ maxASize, computeSizesLoop naSize
        ((List.range' lg n).map fun i => ints.countP fun k => ceilLog2 k == i)
        (ints.countP (· ≤ 2 ^ lg / 2)) na bestSize (2 ^ lg) = (ints.countP (· ≤ best), best)
  | 0, lg, na, bestSize, hn, hna, hbest => ⟨bestSize, hbest, by rw [hna]; rfl⟩
  | n + 1, lg, na, bestSize, hn, hna, hbest => by
    have hstep := countP_le_pow hpos lg
    have hlg : lg ≤ maxBits := by omega
    rw [List.range'_succ, List.map_cons, computeSizesLoop]
    set num := ints.countP fun k => ceilLog2 k == lg with hnum
    have ha : (if 0 < num then ints.countP (· ≤ 2 ^ lg / 2) + num else ints.countP (· ≤ 2 ^ lg / 2)) =
        ints.countP (· ≤ 2 ^ lg) := by
      split <;> omega
    have hdbl : min (2 ^ lg * 2) (u32Size - 1) = 2 ^ (lg + 1) := by
      have hle : 2 ^ (lg + 1) ≤ 2 ^ 27 := Nat.pow_le_pow_right (by omega) (by simp only [maxBits] at hlg; omega)
      simp only [u32Size, Nat.pow_succ] at *
      omega
    have hhalf : 2 ^ (lg + 1) / 2 = 2 ^ lg := by omega
    simp only [ha, hdbl]
    set better : Prop := 0 < num ∧ 2 ^ lg / 2 < ints.countP (· ≤ 2 ^ lg) with hbetter
    have hna' : (if better then ints.countP (· ≤ 2 ^ lg) else na) =
        ints.countP (· ≤ if better then 2 ^ lg else bestSize) := by
      split
      · rfl
      · exact hna
    have hbest' : (if better then 2 ^ lg else bestSize) ≤ maxASize := by
      split
      · exact Nat.pow_le_pow_right (by omega) hlg
      · exact hbest
    split
    · exact ⟨_, hbest', by rw [hna']⟩
    · have ih := computeSizesLoop_spec hpos naSize n (lg + 1) _ _ (by omega) hna' hbest'
      rw [hhalf] at ih
      exact ih

theorem computeSizes_spec {ints : List ℕ} (hpos : ∀ k ∈ ints, 1 ≤ k) (naSize : ℕ) :
    ∃ best ≤ maxASize, computeSizes (histogram ints) naSize = (ints.countP (· ≤ best), best) := by
  have hzero : ints.countP (· ≤ 0) = 0 :=
    List.countP_eq_zero.mpr fun k hk => by simpa using Nat.ne_of_gt (hpos k hk)
  have h := computeSizesLoop_spec hpos naSize (maxBits + 1) 0 0 0 (by omega) hzero.symm (Nat.zero_le _)
  rw [← List.range_eq_range', show 2 ^ 0 / 2 = 0 from rfl, hzero] at h
  exact h

/-! ### The size of the hash part -/

/-- The key gets a slot in an array part of `size` slots. -/
def fits (size : ℕ) (key : Val) : Bool := (arrayKey key).any (· ≤ size)

/-- The room needed in the hash part beside an array part of `size` slots: the array slots in use above
    it, the entries of the hash part that do not go below it, and the key to be inserted. -/
def roomFor (t : Table) (size : ℕ) (key : Val) : ℕ :=
  (arrayInts t.array).countP (size < ·) + t.nodes.countP (fun n => !n.value.isNil && !fits size n.key) +
    if fits size key then 0 else 1

theorem pos_of_mem_arrayKey {key : Val} {k : ℕ} (h : k ∈ (arrayKey key).toList) : 1 ≤ k := by
  simp only [arrayKey, Option.mem_toList, Option.bind_eq_some_iff] at h
  obtain ⟨i, -, hi⟩ := h
  split at hi
  · cases hi; omega
  · cases hi

theorem countP_le_add_countP_gt (ints : List ℕ) (size : ℕ) :
    ints.countP (· ≤ size) + ints.countP (size < ·) = ints.length := by
  rw [List.length_eq_countP_add_countP (· ≤ size)]
  congr 1
  exact List.countP_congr fun k _ => by simp

theorem countP_arrayKey (size : ℕ) (key : Val) :
    (arrayKey key).toList.countP (· ≤ size) + (if fits size key then 0 else 1) = 1 := by
  rw [fits]
  cases arrayKey key with
  | none => rfl
  | some k =>
    simp only [Option.toList_some, Option.any_some, List.countP_cons, List.countP_nil]
    split <;> rfl

theorem countP_nodeInts (size : ℕ) : ∀ nodes : List Node,
    (nodeInts nodes).countP (· ≤ size) + nodes.countP (fun n => !n.value.isNil && !fits size n.key) =
      nodes.countP fun n => !n.value.isNil
  | [] => rfl
  | n :: nodes => by
    have ih := countP_nodeInts size nodes
    have hk := countP_arrayKey size n.key
    rw [nodeInts, List.flatMap_cons, ← nodeInts, List.countP_append]
    cases hn : n.value.isNil with
    | true => simpa [hn] using ih
    | false =>
      simp only [List.countP_cons, hn, Bool.not_false, Bool.true_and, if_true, Bool.false_eq_true, if_false]
      cases hf : fits size n.key with
      | true =>
        rw [hf, if_pos rfl] at hk
        simp only [Bool.not_true, Bool.false_eq_true, if_false]
        omega
      | false =>
        rw [hf, if_neg (by simp)] at hk
        simp only [Bool.not_false, if_true]
        omega

/-! ### A rehash -/

/-- The counts that a rehash hands to `compute_sizes`, and the number of entries with the key to be inserted. -/
def rehashCounts (t : Table) (ek : Val) : List ℕ × ℕ × ℕ :=
  let (nums, ause) := t.numUseArray (List.replicate (maxBits + 1) 0)
  let (nums, naSize, hashUse) := numUseHash t.nodes.reverse nums ause 0
  let (nums, c) := countInt ek nums
  (nums, naSize + c, ause + hashUse + 1)

theorem rehash_counts (t : Table) (ek : Val) (strings : StringArena) : t.rehash ek strings =
    (let (nums, naSize, totalUse) := t.rehashCounts ek
     let (na, newSize) := computeSizes nums naSize
     if totalUse < na then none else t.resize newSize (totalUse - na) strings) := rfl

/-- The numbers that a rehash counts. -/
def rehashInts (t : Table) (ek : Val) : List ℕ :=
  (arrayKey ek).toList ++ (nodeInts t.nodes.reverse ++ arrayInts t.array)

theorem rehashCounts_eq {t : Table} (hle : t.array.length ≤ maxASize) (ek : Val) : t.rehashCounts ek =
    (histogram (t.rehashInts ek), (t.rehashInts ek).length,
      (arrayInts t.array).length + (0 + t.nodes.reverse.countP fun n => !n.value.isNil) + 1) := by
  simp only [rehashCounts, numUseArray_eq hle, numUseHash_eq, countInt_eq]
  rw [rehashInts, List.length_append, List.length_append]
  simp only [Prod.mk.injEq, true_and, and_true]
  omega

theorem pos_of_mem_rehashInts {t : Table} {ek : Val} {k : ℕ} (hk : k ∈ t.rehashInts ek) : 1 ≤ k := by
  simp only [rehashInts, List.mem_append, nodeInts, List.mem_flatMap, arrayInts, List.mem_filter] at hk
  rcases hk with hk | ⟨n, -, hk⟩ | ⟨hk, -⟩
  · exact pos_of_mem_arrayKey hk
  · split at hk
    · cases hk
    · exact pos_of_mem_arrayKey hk
  · exact (List.mem_range'_1.mp hk).1

/-- Beside an array part of any size there is room for what is not counted as being below it. -/
theorem countP_rehashInts (t : Table) (ek : Val) (size : ℕ) :
    (t.rehashInts ek).countP (· ≤ size) + t.roomFor size ek =
      (arrayInts t.array).length + (0 + t.nodes.reverse.countP fun n => !n.value.isNil) + 1 := by
  have h1 := countP_arrayKey size ek
  have h2 := countP_nodeInts size t.nodes.reverse
  have h3 := countP_le_add_countP_gt (arrayInts t.array) size
  rw [rehashInts, List.countP_append, List.countP_append, roomFor]
  simp only [List.countP_reverse] at h2 ⊢
  omega

/-- A rehash resizes the table to an array part of some size and a hash part with room for all entries
    that do not fit there. -/
theorem rehash_eq {t : Table} (hle : t.array.length ≤ maxASize) (ek : Val) (strings : StringArena) :
    ∃ size ≤ maxASize, t.rehash ek strings = t.resize size (t.roomFor size ek) strings := by
  obtain ⟨size, hsize, heq⟩ := computeSizes_spec (fun k hk => pos_of_mem_rehashInts hk) (t.rehashInts ek).length
  have hcount := t.countP_rehashInts ek size
  refine ⟨size, hsize, ?_⟩
  rw [rehash_counts, rehashCounts_eq hle]
  dsimp only
  rw [heq]
  dsimp only
  rw [if_neg (by omega)]
  congr 1
  omega

end Table

end Rilua.Vm
