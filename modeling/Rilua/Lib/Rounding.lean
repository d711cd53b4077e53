import Rilua.Lib.Binary64
import Mathlib.Tactic

/-! Rounding to 53 significant bits as a function on integers. It does not go past a representable number, so that it
    keeps comparisons with representable numbers, and the sum of two numbers that are integers is the conversion of the
    sum. -/

namespace Lib

variable {m n : ℕ}

theorem log2_mono (h : m ≤ n) : m.log2 ≤ n.log2 := by
  rcases Nat.eq_zero_or_pos m with rfl | hm
  · simp
  · exact (Nat.le_log2 (by omega)).mpr ((Nat.log2_self_le (by omega)).trans h)

theorem log2_mul_two_pow (h : m ≠ 0) (e : ℕ) : (m * 2 ^ e).log2 = m.log2 + e := by
  have hne : m * 2 ^ e ≠ 0 := Nat.mul_ne_zero h (Nat.two_pow_pos e).ne'
  apply le_antisymm
  · refine Nat.le_of_lt_succ ((Nat.log2_lt hne).mpr ?_)
    rw [show (m.log2 + e).succ = m.log2 + 1 + e by omega, Nat.pow_add]
    exact Nat.mul_lt_mul_of_pos_right Nat.lt_log2_self (Nat.two_pow_pos e)
  · refine (Nat.le_log2 hne).mpr ?_
    rw [Nat.pow_add]
    exact Nat.mul_le_mul_right _ (Nat.log2_self_le h)

/-- A representable number in the same binade or above is a multiple of the unit. -/
theorem Representable.dvd (hn : Representable n) (h : m.log2 - 52 ≤ n.log2 - 52) : 2 ^ (m.log2 - 52) ∣ n :=
  (Nat.pow_dvd_pow 2 h).trans hn

theorem floor_le_roundMag (m : ℕ) : m / 2 ^ (m.log2 - 52) * 2 ^ (m.log2 - 52) ≤ roundMag m := by
  rw [roundMag]
  refine Nat.mul_le_mul_right _ ?_
  split <;> omega

/-- Rounding does not go above a representable number. -/
theorem roundMag_le (hn : Representable n) (h : m ≤ n) : roundMag m ≤ n := by
  obtain ⟨k, hk⟩ := hn.dvd (Nat.sub_le_sub_right (log2_mono h) 52)
  have hpos : 0 < 2 ^ (m.log2 - 52) := Nat.two_pow_pos _
  have hdiv := Nat.div_add_mod m (2 ^ (m.log2 - 52))
  rw [roundMag]
  generalize 2 ^ (m.log2 - 52) = unit at *
  rw [hk, Nat.mul_comm unit]
  refine Nat.mul_le_mul_right unit ?_
  split
  · next hup =>
    have hmod : 0 < m % unit := by omega
    have hlt : unit * (m / unit) < unit * k := by omega
    exact Nat.lt_of_mul_lt_mul_left hlt
  · refine Nat.div_le_of_le_mul ?_
    rw [← hk]
    exact h

/-- Rounding does not go below a representable number. -/
theorem le_roundMag (hn : Representable n) (h : n ≤ m) : n ≤ roundMag m := by
  refine le_trans ?_ (floor_le_roundMag m)
  rcases le_or_gt (m.log2 - 52) (n.log2 - 52) with hlog | hlog
  · obtain ⟨k, hk⟩ := hn.dvd hlog
    have hpos : 0 < 2 ^ (m.log2 - 52) := Nat.two_pow_pos _
    generalize 2 ^ (m.log2 - 52) = unit at *
    rw [hk, Nat.mul_comm unit]
    refine Nat.mul_le_mul_right unit ((Nat.le_div_iff_mul_le hpos).mpr ?_)
    rw [Nat.mul_comm, ← hk]
    exact h
  · have hm : m ≠ 0 := by
      rintro rfl
      simp at hlog
    have hfloor : 2 ^ 52 ≤ m / 2 ^ (m.log2 - 52) := by
      rw [Nat.le_div_iff_mul_le (Nat.two_pow_pos _), ← Nat.pow_add, Nat.add_sub_cancel' (by omega)]
      exact Nat.log2_self_le hm
    calc n ≤ 2 ^ (n.log2 + 1) := Nat.lt_log2_self.le
      _ ≤ 2 ^ (52 + (m.log2 - 52)) := Nat.pow_le_pow_right (by omega) (by omega)
      _ = 2 ^ 52 * 2 ^ (m.log2 - 52) := Nat.pow_add ..
      _ ≤ _ := Nat.mul_le_mul_right _ hfloor

theorem representable_of_lt (h : m < 2 ^ 53) : Representable m := by
  simpa using representable_mul_pow h 0

theorem representable_mul_two_pow (h : Representable m) (e : ℕ) : Representable (m * 2 ^ e) := by
  rcases Nat.eq_zero_or_pos m with rfl | hm
  · simpa using representable_zero
  · rw [Representable, log2_mul_two_pow (by omega)]
    exact (Nat.pow_dvd_pow 2 (by omega)).trans ((Nat.pow_add 2 (m.log2 - 52) e).dvd.trans (Nat.mul_dvd_mul_right h _))

theorem representable_of_mul {e : ℕ} (h : Representable (m * 2 ^ e)) : Representable m := by
  rcases Nat.lt_or_ge m (2 ^ 53) with hlt | hge
  · exact representable_of_lt hlt
  · have hm : m ≠ 0 := by omega
    have hlog : 53 ≤ m.log2 := (Nat.le_log2 hm).mpr hge
    rw [Representable, log2_mul_two_pow hm, show m.log2 + e - 52 = m.log2 - 52 + e by omega, Nat.pow_add] at h
    exact Nat.dvd_of_mul_dvd_mul_right (Nat.two_pow_pos e) h

/-- Rounding does not depend on the exponent. -/
theorem roundMag_mul_two_pow (m e : ℕ) : roundMag (m * 2 ^ e) = roundMag m * 2 ^ e := by
  rcases Nat.lt_or_ge m (2 ^ 53) with hlt | hge
  · have hrep := representable_of_lt hlt
    rw [roundMag_eq_self hrep, roundMag_eq_self (representable_mul_two_pow hrep e)]
  · have hm : m ≠ 0 := by omega
    have hlog : 53 ≤ m.log2 := (Nat.le_log2 hm).mpr hge
    have hpos := Nat.two_pow_pos e
    rw [roundMag, roundMag, log2_mul_two_pow hm, show m.log2 + e - 52 = m.log2 - 52 + e by omega, Nat.pow_add]
    generalize 2 ^ (m.log2 - 52) = unit
    rw [Nat.mul_div_mul_right _ _ hpos, Nat.mul_mod_mul_right, ← Nat.mul_assoc, ← Nat.mul_assoc]
    simp only [Nat.mul_lt_mul_right hpos, Nat.mul_left_inj hpos.ne']

/-- A representable number of at least 1 that is at most 2^-52 above an integer is that integer, or is just above 1. -/
theorem Representable.near_integer (h : Representable m) (hm : magOne ≤ m) (hnear : m % magOne * 2 ^ 52 ≤ magOne) :
    m % magOne = 0 ∨ m = magOne + 2 ^ (unitExp - 52) := by
  have hexp : 52 ≤ unitExp := by
    rw [unitExp]
    omega
  have hsplit : magOne = 2 ^ (unitExp - 52) * 2 ^ 52 := by rw [magOne, ← Nat.pow_add, Nat.sub_add_cancel hexp]
  have hpos : 0 < 2 ^ (unitExp - 52) := Nat.two_pow_pos _
  have hne : m ≠ 0 := fun h0 => by
    have := magOne_pos
    omega
  have hrest : m % magOne ≤ 2 ^ (unitExp - 52) := by
    rw [hsplit] at hnear ⊢
    exact Nat.le_of_mul_le_mul_right hnear (by omega)
  have hdvd : ∀ e, unitExp - 52 ≤ e → e ≤ unitExp → e + 52 ≤ m.log2 → 2 ^ e ∣ m % magOne := by
    intro e _ he hlog
    refine (Nat.dvd_mod_iff ?_).mpr ((Nat.pow_dvd_pow 2 (by omega)).trans h)
    rw [magOne]
    exact Nat.pow_dvd_pow 2 he
  have hlog : unitExp ≤ m.log2 := (Nat.le_log2 hne).mpr (by rwa [magOne] at hm)
  rcases Nat.lt_or_ge m (2 * magOne) with hlt | hge
  · -- below 2 the numbers are multiples of 2^-52
    have hmod : m % magOne = m - magOne := by rw [Nat.mod_eq_sub_mod hm, Nat.mod_eq_of_lt (by omega)]
    obtain ⟨k, hk⟩ := hdvd (unitExp - 52) le_rfl (by omega) (by omega)
    rcases k with _ | k
    · exact .inl (by omega)
    · have hle : 2 ^ (unitExp - 52) ≤ m % magOne := by
        rw [hk]
        exact Nat.le_mul_of_pos_right _ (Nat.succ_pos k)
      exact .inr (by omega)
  · -- from 2 on they are multiples of 2^-51
    have hlog' : unitExp + 1 ≤ m.log2 := (Nat.le_log2 hne).mpr (by rw [Nat.pow_succ]; rw [magOne] at hge; omega)
    obtain ⟨k, hk⟩ := hdvd (unitExp - 51) (by omega) (by omega) (by omega)
    rcases k with _ | k
    · exact .inl (by omega)
    · have hle : 2 ^ (unitExp - 51) ≤ m % magOne := by
        rw [hk]
        exact Nat.le_mul_of_pos_right _ (Nat.succ_pos k)
      rw [show unitExp - 51 = unitExp - 52 + 1 by omega, Nat.pow_succ] at hle
      omega

/-! ### Integers -/

/-- Rounds an integer to 53 significant bits, ties to even. -/
def roundInt (z : ℤ) : ℤ := if z < 0 then -(roundMag z.natAbs : ℤ) else roundMag z.natAbs

variable {z l : ℤ}

theorem roundInt_eq_self (h : Representable z.natAbs) : roundInt z = z := by
  rw [roundInt, roundMag_eq_self h]
  split <;> omega

theorem roundMag_zero : roundMag 0 = 0 := roundMag_eq_self representable_zero

/-- Rounding does not go above a representable number. -/
theorem roundInt_le (hl : Representable l.natAbs) (h : z ≤ l) : roundInt z ≤ l := by
  rw [roundInt]
  split
  · next hz =>
    rcases le_or_gt 0 l with hl0 | hl0
    · omega
    · have hle := le_roundMag hl (show l.natAbs ≤ z.natAbs by omega)
      omega
  · have hle := roundMag_le hl (show z.natAbs ≤ l.natAbs by omega)
    omega

/-- Rounding does not go below a representable number. -/
theorem le_roundInt (hl : Representable l.natAbs) (h : l ≤ z) : l ≤ roundInt z := by
  rw [roundInt]
  split
  · next hz =>
    have hle := roundMag_le hl (show z.natAbs ≤ l.natAbs by omega)
    omega
  · rcases le_or_gt 0 l with hl0 | hl0
    · have hle := le_roundMag hl (show l.natAbs ≤ z.natAbs by omega)
      omega
    · omega

theorem representable_two_pow_mul_magOne (e : ℕ) : Representable (2 ^ e * magOne) := by
  rw [magOne, ← Nat.pow_add]
  exact representable_of_dvd (Nat.dvd_refl _) (Nat.pow_lt_pow_right (by omega) (by omega))

theorem representable_two_pow (e : ℕ) : Representable (2 ^ e) := by
  simpa using representable_mul_pow (show 1 < 2 ^ 53 by omega) e

namespace F64

/-! ### Operations on `i64` -/

/-- The result of an `i64` operation, by the exact one. With overflow checks an overflow is a panic, without it wraps
    around. -/
def i64Result (checked : Bool) (z : ℤ) : Option ℤ :=
  if i64Min ≤ z ∧ z ≤ i64Max then some z
  else if checked then none
  else some (z.bmod (2 ^ 64))

/-- An operation that is right whether or not overflows are checked does not overflow. -/
theorem i64Result_checked {k : ℤ} (h : i64Result true z = some k) : i64Min ≤ z ∧ z ≤ i64Max ∧ k = z := by
  rw [i64Result] at h
  split at h
  · next hz =>
    cases h
    exact ⟨hz.1, hz.2, rfl⟩
  · cases h

theorem i64Result_eq {checked : Bool} (hmin : i64Min ≤ z) (hmax : z ≤ i64Max) : i64Result checked z = some z :=
  if_pos ⟨hmin, hmax⟩

/-! ### Conversion -/

/-- Integers up to `2^64` are converted to the rounded integer. -/
theorem ofInt_spec (h : z.natAbs ≤ 2 ^ 64) :
    (ofInt z).isFinite = true ∧ (ofInt z).scaled = roundInt z * magOne := by
  have hround : roundMag (z.natAbs * magOne) = roundMag z.natAbs * magOne := by
    rw [magOne, roundMag_mul_two_pow]
  have hlt : roundMag (z.natAbs * magOne) < magLimit := by
    have hle : roundMag z.natAbs ≤ 2 ^ 64 := roundMag_le (representable_two_pow 64) h
    have hexp : 65 ≤ maxExp := by
      rw [maxExp]
      decide
    rw [hround, magLimit]
    refine Nat.mul_lt_mul_of_pos_right (Nat.lt_of_lt_of_le (Nat.lt_of_le_of_lt hle ?_) (Nat.pow_le_pow_right (by omega) hexp))
      magOne_pos
    exact Nat.pow_lt_pow_right (by omega) (by omega)
  rw [ofInt, ofMag, dif_pos hlt]
  refine ⟨rfl, ?_⟩
  rw [roundInt]
  split
  · next hz =>
    rw [decide_eq_true hz]
    change -((roundMag (z.natAbs * magOne) : ℕ) : ℤ) = _
    rw [hround]
    push_cast
    ring
  · next hz =>
    rw [decide_eq_false hz]
    change ((roundMag (z.natAbs * magOne) : ℕ) : ℤ) = _
    rw [hround]
    push_cast
    ring

/-- The number is the integer `z`. -/
def IsInt (x : F64) (z : ℤ) : Prop := x.isFinite = true ∧ x.scaled = z * magOne

variable {x y : F64} {i j : ℤ}

theorem magOne_ne_zero : (magOne : ℤ) ≠ 0 := by
  have hpos := magOne_pos
  omega

theorem magnitude_scaled (h : x.isFinite = true) : Representable x.scaled.natAbs := by
  cases x with
  | nan => cases h
  | infinite => cases h
  | finite s m =>
    cases s
    · exact m.2.1
    · rw [scaled, Int.natAbs_neg]
      exact m.2.1

theorem IsInt.representable (h : x.IsInt z) : Representable z.natAbs := by
  have hrep := magnitude_scaled h.1
  rw [h.2, Int.natAbs_mul, Int.natAbs_natCast, magOne] at hrep
  exact representable_of_mul hrep

theorem IsInt.unique (h : x.IsInt i) (h' : x.IsInt j) : i = j :=
  Int.eq_of_mul_eq_mul_right magOne_ne_zero (h.2.symm.trans h'.2)

theorem isInt_ofInt (h : z.natAbs ≤ 2 ^ 64) : (ofInt z).IsInt (roundInt z) := ofInt_spec h

theorem isInt_ofInt_of_representable (h : z.natAbs ≤ 2 ^ 64) (hrep : Representable z.natAbs) : (ofInt z).IsInt z := by
  have hint := isInt_ofInt h
  rwa [roundInt_eq_self hrep] at hint

theorem beq_of_scaled (hx : x.isFinite = true) (hy : y.isFinite = true) (h : x.scaled = y.scaled) : x.beq y = true := by
  cases x with
  | nan => cases hx
  | infinite => cases hx
  | finite s m =>
    cases y with
    | nan => cases hy
    | infinite => cases hy
    | finite t n => rw [beq, h, beq_self_eq_true]

/-- Numbers that are the same integer are equal, and unless it is zero they are identical. -/
theorem IsInt.beq (hx : x.IsInt z) (hy : y.IsInt z) : x.beq y = true := beq_of_scaled hx.1 hy.1 (hx.2.trans hy.2.symm)

theorem IsInt.eq (hx : x.IsInt z) (hy : y.IsInt z) (hz : z ≠ 0) : x = y := by
  refine eq_of_beq (hx.beq hy) fun _ => ?_
  rw [hx.2]
  exact Int.mul_ne_zero hz magOne_ne_zero

theorem IsInt.toI64 (hx : x.IsInt z) : x.toI64 = max i64Min (min i64Max z) := by
  cases x with
  | nan => cases hx.1
  | infinite => cases hx.1
  | finite s m => rw [F64.toI64, hx.2, Int.mul_tdiv_cancel _ magOne_ne_zero]

/-! ### Arithmetic -/

def neg : F64 → F64
  | .nan s => .nan !s
  | .infinite s => .infinite !s
  | .finite s m => .finite (!s) m

def sub (x y : F64) : F64 := x.add y.neg

theorem IsInt.neg (hx : x.IsInt z) : x.neg.IsInt (-z) := by
  cases x with
  | nan => cases hx.1
  | infinite => cases hx.1
  | finite s m =>
    refine ⟨rfl, ?_⟩
    have hz := hx.2
    cases s
    · change -(m.1 : ℤ) = _
      change (m.1 : ℤ) = _ at hz
      rw [hz, Int.neg_mul]
    · change (m.1 : ℤ) = _
      change -(m.1 : ℤ) = _ at hz
      rw [Int.neg_mul, ← hz, Int.neg_neg]

theorem ofInt_zero : ofInt 0 = zero false := by decide +kernel

/-- The sum of two integers, the second of which is not zero, is the conversion of the sum. -/
theorem IsInt.add (hx : x.IsInt i) (hy : y.IsInt j) (hj : j ≠ 0) : x.add y = ofInt (i + j) := by
  cases x with
  | nan => cases hx.1
  | infinite => cases hx.1
  | finite s m =>
    cases y with
    | nan => cases hy.1
    | infinite => cases hy.1
    | finite t n =>
      have hpos := magOne_pos
      have hsum : (F64.finite s m).scaled + (F64.finite t n).scaled = (i + j) * magOne := by
        rw [hx.2, hy.2, Int.add_mul]
      rw [F64.add, hsum]
      split
      · next hzero =>
        have hij : i + j = 0 := (Int.mul_eq_zero.mp hzero).resolve_right magOne_ne_zero
        -- the signs differ, so the sum is the positive zero
        have hsign : (s && t) = false := by
          by_contra hs
          rw [Bool.not_eq_false, Bool.and_eq_true] at hs
          have h₁ := hx.2
          have h₂ := hy.2
          rw [hs.1] at h₁
          rw [hs.2] at h₂
          change -(m.1 : ℤ) = _ at h₁
          change -(n.1 : ℤ) = _ at h₂
          have hi : i * (magOne : ℤ) ≤ 0 := by omega
          have hj' : j * (magOne : ℤ) ≤ 0 := by omega
          have hi' : i ≤ 0 := by
            by_contra hneg
            have := Int.mul_pos (show 0 < i by omega) (show (0 : ℤ) < magOne by omega)
            omega
          have hj'' : j ≤ 0 := by
            by_contra hneg
            have := Int.mul_pos (show 0 < j by omega) (show (0 : ℤ) < magOne by omega)
            omega
          omega
        rw [hsign, hij, ofInt_zero]
      · rw [ofInt, Int.natAbs_mul, Int.natAbs_natCast]
        congr 1
        refine decide_eq_decide.mpr ⟨fun h => ?_, fun h => ?_⟩
        · by_contra hneg
          have := Int.mul_nonneg (show 0 ≤ i + j by omega) (show (0 : ℤ) ≤ magOne by omega)
          omega
        · have := Int.mul_neg_of_neg_of_pos h (show (0 : ℤ) < magOne by omega)
          omega

theorem IsInt.sub (hx : x.IsInt i) (hy : y.IsInt j) (hj : j ≠ 0) : x.sub y = ofInt (i - j) := by
  rw [F64.sub, hx.add hy.neg (by omega), Int.sub_eq_add_neg]

/-! ### Comparison -/

/-- IEEE comparison. -/
def le : F64 → F64 → Bool
  | .nan _, _ | _, .nan _ => false
  | .infinite s, .infinite t => s || !t
  | .infinite s, .finite _ _ => s
  | .finite _ _, .infinite t => !t
  | .finite s m, .finite t n => decide ((F64.finite s m).scaled ≤ (F64.finite t n).scaled)

def lt (x y : F64) : Bool := x.le y && !x.beq y

theorem le_iff_scaled (hx : x.isFinite = true) (hy : y.isFinite = true) : x.le y = true ↔ x.scaled ≤ y.scaled := by
  cases x with
  | nan => cases hx
  | infinite => cases hx
  | finite s m =>
    cases y with
    | nan => cases hy
    | infinite => cases hy
    | finite t n => rw [le, decide_eq_true_eq]

theorem IsInt.le_iff (hx : x.IsInt i) (hy : y.IsInt j) : x.le y = true ↔ i ≤ j := by
  have hpos := magOne_pos
  rw [le_iff_scaled hx.1 hy.1, hx.2, hy.2]
  exact Int.mul_le_mul_right (by omega)

theorem IsInt.beq_iff (hx : x.IsInt i) (hy : y.IsInt j) : x.beq y = true ↔ i = j := by
  refine ⟨fun h => ?_, fun h => (h ▸ hx).beq hy⟩
  have hscaled := scaled_congr h
  rw [hx.2, hy.2] at hscaled
  exact Int.eq_of_mul_eq_mul_right magOne_ne_zero hscaled

theorem IsInt.natAbs_sub (hx : x.IsInt i) (hy : y.IsInt j) :
    (x.scaled - y.scaled).natAbs = (i - j).natAbs * magOne := by
  rw [hx.2, hy.2, ← Int.sub_mul, Int.natAbs_mul, Int.natAbs_natCast]

theorem IsInt.lt_iff (hx : x.IsInt i) (hy : y.IsInt j) : x.lt y = true ↔ i < j := by
  rw [lt, Bool.and_eq_true, Bool.not_eq_true', Bool.eq_false_iff, Ne, hx.le_iff hy, hx.beq_iff hy]
  omega

/-- Large integers are not rounded to small ones. -/
theorem le_scaled_ofInt {n : ℕ} (h : 2 ^ 53 ≤ n) (hf : (ofInt n).isFinite = true) :
    ((2 ^ 53 * magOne : ℕ) : ℤ) ≤ (ofInt n).scaled := by
  have hle : 2 ^ 53 * magOne ≤ roundMag (n * magOne) :=
    le_roundMag (representable_two_pow_mul_magOne 53) (Nat.mul_le_mul_right magOne h)
  rw [ofInt, ofMag] at hf ⊢
  split
  · rw [decide_eq_false (by omega)]
    exact Int.ofNat_le.mpr hle
  · next hlt =>
    rw [dif_neg hlt] at hf
    cases hf

/-- Only a small integer is equal to a small integer. -/
theorem ofInt_beq_ofInt {n : ℕ} (h : i.natAbs < 2 ^ 53) : (ofInt i).beq (ofInt n) = true ↔ i = n := by
  rcases lt_or_ge n (2 ^ 53) with hn | hn
  · exact IsInt.beq_iff ⟨isFinite_ofInt h, scaled_ofInt h⟩ ⟨isFinite_ofInt hn, scaled_ofInt hn⟩
  · refine ⟨fun hbeq => ?_, fun heq => by omega⟩
    have hf := isFinite_congr hbeq
    rw [isFinite_ofInt h] at hf
    have hle := le_scaled_ofInt hn hf.symm
    rw [← scaled_congr hbeq, scaled_ofInt h, Int.natCast_mul] at hle
    have := Int.le_of_mul_le_mul_right hle (by have := magOne_pos; omega)
    omega

theorem isInt_zero (s : Bool) : (zero s).IsInt 0 := by
  refine ⟨rfl, ?_⟩
  rw [Int.zero_mul]
  cases s <;> rfl

end F64

end Lib
