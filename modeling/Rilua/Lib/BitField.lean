import Mathlib.Data.BitVec
import Mathlib.Data.Nat.Bitwise

/-! Bit fields of a machine word, and the little-endian bytes of a number. A field is the `size` bits
    from bit `pos` on. -/

namespace Lib

variable {w pos size pos' size' : ℕ}

namespace BitField

/-- The `size` lowest bits set. -/
def mask (w size : ℕ) : BitVec w := BitVec.ofNat w (2 ^ size - 1)

/-- Reads a field. -/
def get (pos size : ℕ) (x : BitVec w) : BitVec w := (x >>> pos) &&& mask w size

/-- Writes a field. -/
def set (pos size : ℕ) (x v : BitVec w) : BitVec w :=
  (x &&& ~~~(mask w size <<< pos)) ||| ((v &&& mask w size) <<< pos)

theorem getLsbD_mask (i : ℕ) : (mask w size).getLsbD i = (decide (i < w) && decide (i < size)) := by
  rw [mask, BitVec.getLsbD_ofNat, Nat.testBit_two_pow_sub_one]

theorem getLsbD_get (x : BitVec w) (i : ℕ) :
    (get pos size x).getLsbD i = (decide (i < size) && x.getLsbD (pos + i)) := by
  rw [get, BitVec.getLsbD_and, BitVec.getLsbD_ushiftRight, getLsbD_mask]
  rcases Nat.lt_or_ge i w with hi | hi
  · rw [decide_eq_true hi, Bool.true_and, Bool.and_comm]
  · rw [BitVec.getLsbD_of_ge x (pos + i) (by omega), Bool.false_and, Bool.and_false]

theorem getLsbD_set (x v : BitVec w) {i : ℕ} (hi : i < w) :
    (set pos size x v).getLsbD i =
      if pos ≤ i ∧ i < pos + size then v.getLsbD (i - pos) else x.getLsbD i := by
  simp only [set, BitVec.getLsbD_or, BitVec.getLsbD_and, BitVec.getLsbD_not, BitVec.getLsbD_shiftLeft,
    getLsbD_mask, hi, decide_true, Bool.true_and]
  rcases Nat.lt_or_ge i pos with hp | hp
  · rw [if_neg (by omega), decide_eq_true hp]
    simp
  · rw [decide_eq_false (by omega), decide_eq_true (show i - pos < w by omega)]
    rcases Nat.lt_or_ge i (pos + size) with hs | hs
    · rw [if_pos ⟨hp, hs⟩, decide_eq_true (show i - pos < size by omega)]
      simp
    · rw [if_neg (by omega), decide_eq_false (show ¬i - pos < size by omega)]
      simp

/-- A field that was written reads back, cut to its size. -/
theorem get_set (h : pos + size ≤ w) (x v : BitVec w) : get pos size (set pos size x v) = get 0 size v := by
  refine BitVec.eq_of_getLsbD_eq fun i hi => ?_
  rw [getLsbD_get, getLsbD_get, Nat.zero_add]
  rcases Nat.lt_or_ge i size with hs | hs
  · rw [getLsbD_set x v (by omega), if_pos (by omega), Nat.add_sub_cancel_left]
  · rw [decide_eq_false (by omega), Bool.false_and, Bool.false_and]

/-- Writing a field leaves the other fields as they are. -/
theorem get_set_of_disjoint (h : pos + size ≤ pos' ∨ pos' + size' ≤ pos) (x v : BitVec w) :
    get pos' size' (set pos size x v) = get pos' size' x := by
  refine BitVec.eq_of_getLsbD_eq fun i hi => ?_
  rw [getLsbD_get, getLsbD_get]
  rcases Nat.lt_or_ge i size' with hs | hs
  · rcases Nat.lt_or_ge (pos' + i) w with hw | hw
    · rw [getLsbD_set x v hw, if_neg (by omega)]
    · rw [BitVec.getLsbD_of_ge _ _ hw, BitVec.getLsbD_of_ge _ _ hw]
  · rw [decide_eq_false (by omega), Bool.false_and, Bool.false_and]

theorem toNat_get (x : BitVec w) (h : size ≤ w) : (get pos size x).toNat = x.toNat / 2 ^ pos % 2 ^ size := by
  have hmask : (mask w size).toNat = 2 ^ size - 1 := by
    rw [mask, BitVec.toNat_ofNat, Nat.mod_eq_of_lt]
    have := Nat.pow_le_pow_right (by omega : 0 < 2) h
    have := Nat.two_pow_pos size
    omega
  rw [get, BitVec.toNat_and, hmask, BitVec.toNat_ushiftRight, Nat.and_two_pow_sub_one_eq_mod,
    Nat.shiftRight_eq_div_pow]

/-- A value in a field, and nothing in the other fields. -/
def field (pos size : ℕ) (v : BitVec w) : BitVec w := (v &&& mask w size) <<< pos

theorem getLsbD_field (v : BitVec w) {i : ℕ} (hi : i < w) :
    (field pos size v).getLsbD i = (decide (pos ≤ i) && decide (i < pos + size) && v.getLsbD (i - pos)) := by
  rw [field, BitVec.getLsbD_shiftLeft, BitVec.getLsbD_and, getLsbD_mask]
  rcases Nat.lt_or_ge i pos with hp | hp
  · simp [hp]
  · have hsize : decide (i - pos < size) = decide (i < pos + size) := by simp; omega
    rw [decide_eq_true hi, decide_eq_false (show ¬i < pos by omega), decide_eq_true hp, hsize,
      decide_eq_true (show i - pos < w by omega)]
    simp [Bool.and_comm]

theorem get_or (x y : BitVec w) : get pos size (x ||| y) = get pos size x ||| get pos size y := by
  refine BitVec.eq_of_getLsbD_eq fun i _ => ?_
  simp only [getLsbD_get, BitVec.getLsbD_or, Bool.and_or_distrib_left]

theorem get_field (h : pos + size ≤ w) (v : BitVec w) : get pos size (field pos size v) = get 0 size v := by
  refine BitVec.eq_of_getLsbD_eq fun i hi => ?_
  rw [getLsbD_get, getLsbD_get, Nat.zero_add]
  rcases Nat.lt_or_ge i size with hs | hs
  · rw [getLsbD_field v (by omega), decide_eq_true (show pos ≤ pos + i by omega),
      decide_eq_true (show pos + i < pos + size by omega), Nat.add_sub_cancel_left, Bool.true_and, Bool.true_and]
  · rw [decide_eq_false (by omega), Bool.false_and, Bool.false_and]

theorem get_field_of_disjoint (h : pos + size ≤ pos' ∨ pos' + size' ≤ pos) (v : BitVec w) :
    get pos' size' (field pos size v) = 0#w := by
  refine BitVec.eq_of_getLsbD_eq fun i hi => ?_
  rw [getLsbD_get, BitVec.getLsbD_zero]
  rcases Nat.lt_or_ge i size' with hs | hs
  · rcases Nat.lt_or_ge (pos' + i) w with hw | hw
    · rw [getLsbD_field v hw]
      rcases h with h | h
      · simp [show ¬pos' + i < pos + size by omega]
      · simp [show ¬pos ≤ pos' + i by omega]
    · rw [BitVec.getLsbD_of_ge _ _ hw, Bool.and_false]
  · rw [decide_eq_false (by omega), Bool.false_and]

/-- The bits of a field are those of the word. -/
theorem getLsbD_of_get_eq {x y : BitVec w} (h : get pos size x = get pos size y) {i : ℕ} (hlo : pos ≤ i)
    (hhi : i < pos + size) : x.getLsbD i = y.getLsbD i := by
  have hbit := congrArg (·.getLsbD (i - pos)) h
  simp only [getLsbD_get] at hbit
  rwa [decide_eq_true (show i - pos < size by omega), Bool.true_and, Bool.true_and, Nat.add_sub_cancel' hlo] at hbit

/-- A value that fits into a field reads back as it is. -/
theorem toNat_get_zero_ofNat {n : ℕ} (hsize : size ≤ w) (hn : n < 2 ^ size) :
    (get 0 size (BitVec.ofNat w n)).toNat = n := by
  have hle := Nat.pow_le_pow_right (show 0 < 2 by omega) hsize
  rw [toNat_get _ hsize, BitVec.toNat_ofNat, pow_zero, Nat.div_one, Nat.mod_eq_of_lt (by omega : n < 2 ^ w),
    Nat.mod_eq_of_lt hn]

end BitField

/-! ### Little-endian bytes -/

/-- The `n` lowest bytes of a number, the lowest first. -/
def leBytes : ℕ → ℕ → List UInt8
  | 0, _ => []
  | n + 1, x => UInt8.ofNat x :: leBytes n (x / 256)

/-- The number with the given bytes. -/
def ofLeBytes : List UInt8 → ℕ
  | [] => 0
  | b :: bs => b.toNat + 256 * ofLeBytes bs

@[simp] theorem length_leBytes : ∀ n x : ℕ, (leBytes n x).length = n
  | 0, _ => rfl
  | n + 1, x => congrArg (· + 1) (length_leBytes n (x / 256))

theorem ofLeBytes_leBytes : ∀ n x : ℕ, ofLeBytes (leBytes n x) = x % 256 ^ n
  | 0, x => (Nat.mod_one x).symm
  | n + 1, x => by
    rw [leBytes, ofLeBytes, ofLeBytes_leBytes n, UInt8.toNat_ofNat', pow_succ' 256 n, Nat.mod_mul]

theorem ofLeBytes_lt : ∀ bs : List UInt8, ofLeBytes bs < 256 ^ bs.length
  | [] => by decide
  | b :: bs => by
    have hb := b.toNat_lt
    have ih := ofLeBytes_lt bs
    rw [ofLeBytes, List.length_cons, pow_succ]
    omega

end Lib
