import Mathlib.Algebra.Order.Ring.Int
import Mathlib.Algebra.Order.Group.Nat
import Mathlib.Data.Nat.Log

/-! Binary64 floating point numbers, without hardware floats. A finite number is a sign and a magnitude
    counted in units of 2^-1074 (the least positive number), so that comparison, addition and conversion
    are integer arithmetic followed by one rounding to 53 significant bits (ties to even). -/

namespace Lib

/-- The unit of magnitudes is 2 to the power of minus this. -/
@[irreducible] def unitExp : ℕ := 1074

/-- The magnitude of 1. -/
@[irreducible] def magOne : ℕ := 2 ^ unitExp

/-- Values are below 2 to the power of this. -/
@[irreducible] def maxExp : ℕ := 1024

/-- Magnitudes from here on overflow. -/
@[irreducible] def magLimit : ℕ := 2 ^ maxExp * magOne

/-- The magnitude has at most 53 significant bits. -/
def Representable (m : ℕ) : Prop := 2 ^ (m.log2 - 52) ∣ m

instance (m : ℕ) : Decidable (Representable m) := inferInstanceAs (Decidable (_ ∣ _))

/-- Rounds a magnitude to 53 significant bits, ties to even. -/
def roundMag (m : ℕ) : ℕ :=
  let unit := 2 ^ (m.log2 - 52)
  let q := m / unit
  let r := m % unit
  (if unit < 2 * r ∨ (2 * r = unit ∧ q % 2 = 1) then q + 1 else q) * unit

/-- A magnitude of a finite number. -/
def Magnitude : Type := { m : ℕ // Representable m ∧ m < magLimit }

instance : DecidableEq Magnitude := inferInstanceAs (DecidableEq { _m : ℕ // _ })

/-- A binary64 number; not-a-number keeps only its sign. -/
inductive F64 where
  | nan (neg : Bool)
  | infinite (neg : Bool)
  | finite (neg : Bool) (mag : Magnitude)
  deriving DecidableEq

theorem magOne_pos : 0 < magOne := by rw [magOne]; exact Nat.two_pow_pos _

theorem magLimit_pos : 0 < magLimit := by
  rw [magLimit]; exact Nat.mul_pos (Nat.two_pow_pos _) magOne_pos

theorem representable_zero : Representable 0 := ⟨0, rfl⟩

theorem representable_of_dvd {m e : ℕ} (hd : 2 ^ e ∣ m) (hl : m < 2 ^ (e + 53)) : Representable m := by
  rcases Nat.eq_zero_or_pos m with rfl | hpos
  · exact representable_zero
  · have hlog : m.log2 < e + 53 := (Nat.log2_lt (Nat.pos_iff_ne_zero.mp hpos)).mpr hl
    exact Nat.dvd_trans (Nat.pow_dvd_pow 2 (by omega)) hd

theorem representable_mul_pow {n : ℕ} (h : n < 2 ^ 53) (e : ℕ) : Representable (n * 2 ^ e) := by
  refine representable_of_dvd (Nat.dvd_mul_left _ _) ?_
  rw [Nat.pow_add, Nat.mul_comm (2 ^ e)]
  exact Nat.mul_lt_mul_of_pos_right h (Nat.two_pow_pos e)

theorem roundMag_eq_self {m : ℕ} (h : Representable m) : roundMag m = m := by
  have hmod : m % 2 ^ (m.log2 - 52) = 0 := Nat.mod_eq_zero_of_dvd h
  have hpos : 0 < 2 ^ (m.log2 - 52) := Nat.two_pow_pos _
  rw [roundMag, if_neg (by omega)]
  exact Nat.div_mul_cancel h

/-- The quotient kept by rounding has at most 53 bits, so its successor is at most 2^53. -/
theorem representable_roundMag (m : ℕ) : Representable (roundMag m) := by
  have hpos : 0 < 2 ^ (m.log2 - 52) := Nat.two_pow_pos _
  have hq : m / 2 ^ (m.log2 - 52) < 2 ^ 53 := by
    rw [Nat.div_lt_iff_lt_mul hpos, ← Nat.pow_add]
    exact Nat.lt_of_lt_of_le Nat.lt_log2_self (Nat.pow_le_pow_right (by omega) (by omega))
  generalize hm : m.log2 - 52 = e at hq hpos
  have key : ∀ q, q ≤ 2 ^ 53 → Representable (q * 2 ^ e) := by
    intro q hle
    rcases Nat.lt_or_eq_of_le hle with hlt | rfl
    · exact representable_mul_pow hlt e
    · rw [← Nat.pow_add]
      exact representable_of_dvd (Nat.pow_dvd_pow 2 (by omega : e + 1 ≤ 53 + e))
        (Nat.pow_lt_pow_right (by omega) (by omega))
  rw [roundMag, hm]
  refine key _ ?_
  split <;> omega

namespace F64

/-- Rounds a signed magnitude to the nearest number. -/
def ofMag (neg : Bool) (m : ℕ) : F64 :=
  if h : roundMag m < magLimit then .finite neg ⟨roundMag m, representable_roundMag m, h⟩
  else .infinite neg

def zero (neg : Bool) : F64 := .finite neg ⟨0, representable_zero, magLimit_pos⟩

def isNaN : F64 → Bool
  | .nan _ => true
  | _ => false

def isFinite : F64 → Bool
  | .finite _ _ => true
  | _ => false

/-- The value of a finite number, in units of 2^-1074. -/
def scaled : F64 → ℤ
  | .finite true m => -(m.1 : ℤ)
  | .finite false m => m.1
  | _ => 0

/-- IEEE equality: not-a-number differs from everything, the two zeros are equal. -/
def beq : F64 → F64 → Bool
  | .finite s m, .finite t n => (F64.finite s m).scaled == (F64.finite t n).scaled
  | .infinite s, .infinite t => s == t
  | _, _ => false

def add : F64 → F64 → F64
  | .nan s, _ => .nan s
  | _, .nan t => .nan t
  | .infinite s, .infinite t => if s = t then .infinite s else .nan true
  | .infinite s, _ => .infinite s
  | _, .infinite t => .infinite t
  | .finite s m, .finite t n =>
    let sum := (F64.finite s m).scaled + (F64.finite t n).scaled
    if sum = 0 then zero (s && t) else ofMag (decide (sum < 0)) sum.natAbs

/-- Integer to number, rounding to nearest. -/
def ofInt (i : ℤ) : F64 := ofMag (decide (i < 0)) (i.natAbs * magOne)

def one : F64 := ofInt 1

def i64Min : ℤ := -2 ^ 63

def i64Max : ℤ := 2 ^ 63 - 1

/-- Number to `i64`: truncation, saturating at the ends, 0 for not-a-number. -/
def toI64 : F64 → ℤ
  | .nan _ => 0
  | .infinite s => if s then i64Min else i64Max
  | .finite s m => max i64Min (min i64Max ((F64.finite s m).scaled.tdiv magOne))

/-- The 64 bits of the interchange format. -/
def toBits : F64 → ℕ
  | .nan s => s.toNat * 2 ^ 63 + 0x7ff8 * 2 ^ 48
  | .infinite s => s.toNat * 2 ^ 63 + 0x7ff * 2 ^ 52
  | .finite s m =>
    s.toNat * 2 ^ 63 +
      if m.1 < 2 ^ 52 then m.1
      else (m.1.log2 - 51) * 2 ^ 52 + (m.1 / 2 ^ (m.1.log2 - 52) - 2 ^ 52)

/-- The width of a magnitude in bits. -/
theorem magLimit_eq : ∃ k, magLimit = 2 ^ (53 + k) ∧ k = 2045 := by
  refine ⟨maxExp + unitExp - 53, ?_, ?_⟩
  · rw [magLimit, magOne, ← Nat.pow_add]
    congr 1
    rw [maxExp, unitExp]
  · rw [maxExp, unitExp]

/-- A number with the significand `2^52 + frac`. -/
theorem magnitude_normal {frac exp : ℕ} (hf : frac < 2 ^ 52) (he : exp < 2047) :
    Representable ((2 ^ 52 + frac) * 2 ^ (exp - 1)) ∧ (2 ^ 52 + frac) * 2 ^ (exp - 1) < magLimit := by
  refine ⟨representable_mul_pow (by omega) _, ?_⟩
  obtain ⟨k, hk, hk'⟩ := magLimit_eq
  rw [hk, Nat.pow_add]
  exact Nat.mul_lt_mul_of_lt_of_le (by omega) (Nat.pow_le_pow_right (by omega) (by omega))
    (Nat.two_pow_pos _)

theorem magnitude_subnormal {frac : ℕ} (hf : frac < 2 ^ 52) : Representable frac ∧ frac < magLimit := by
  refine ⟨by simpa using representable_mul_pow (show frac < 2 ^ 53 by omega) 0, ?_⟩
  obtain ⟨k, hk, -⟩ := magLimit_eq
  rw [hk]
  exact Nat.lt_trans hf (Nat.pow_lt_pow_right (by omega) (by omega))

theorem frac_lt (bits : ℕ) : bits % 2 ^ 52 < 2 ^ 52 := Nat.mod_lt _ (Nat.two_pow_pos _)

/-- The number that the 64 bits of the interchange format denote. -/
def ofBits (bits : ℕ) : F64 :=
  let neg := decide (bits / 2 ^ 63 % 2 = 1)
  let exp := bits / 2 ^ 52 % 2 ^ 11
  if exp = 0 then .finite neg ⟨bits % 2 ^ 52, magnitude_subnormal (frac_lt bits)⟩
  else if h : exp < 2047 then
    .finite neg ⟨(2 ^ 52 + bits % 2 ^ 52) * 2 ^ (exp - 1), magnitude_normal (frac_lt bits) h⟩
  else if bits % 2 ^ 52 = 0 then .infinite neg
  else .nan neg

/-- The parts of `sign * 2^63 + exp * 2^52 + frac`. -/
theorem bits_parts {s exp frac : ℕ} (hs : s < 2) (he : exp < 2 ^ 11) (hf : frac < 2 ^ 52) :
    (s * 2 ^ 63 + (exp * 2 ^ 52 + frac)) / 2 ^ 63 % 2 = s ∧
      (s * 2 ^ 63 + (exp * 2 ^ 52 + frac)) / 2 ^ 52 % 2 ^ 11 = exp ∧
      (s * 2 ^ 63 + (exp * 2 ^ 52 + frac)) % 2 ^ 52 = frac := by
  omega

theorem toNat_lt_two (s : Bool) : s.toNat < 2 := by cases s <;> decide

theorem decide_toNat_eq_one (s : Bool) : decide (s.toNat = 1) = s := by cases s <;> rfl

/-- A magnitude from `2^52` on is its 53 leading bits, shifted. -/
theorem significand {m : ℕ} (hrep : Representable m) (hlt : m < magLimit) (hm : 2 ^ 52 ≤ m) :
    52 ≤ m.log2 ∧ m.log2 < 2098 ∧ 2 ^ 52 ≤ m / 2 ^ (m.log2 - 52) ∧ m / 2 ^ (m.log2 - 52) < 2 ^ 53 ∧
      m / 2 ^ (m.log2 - 52) * 2 ^ (m.log2 - 52) = m := by
  have hne : m ≠ 0 := by omega
  have h52 : 52 ≤ m.log2 := (Nat.le_log2 hne).mpr hm
  have hlog : m.log2 < 2098 := by
    obtain ⟨k, hk, hk'⟩ := magLimit_eq
    have := (Nat.log2_lt hne).mpr (hk ▸ hlt)
    omega
  refine ⟨h52, hlog, ?_, ?_, Nat.div_mul_cancel hrep⟩
  · rw [Nat.le_div_iff_mul_le (Nat.two_pow_pos _), ← Nat.pow_add, Nat.add_sub_cancel' h52]
    exact Nat.log2_self_le hne
  · rw [Nat.div_lt_iff_lt_mul (Nat.two_pow_pos _), ← Nat.pow_add]
    exact Nat.lt_of_lt_of_le Nat.lt_log2_self (Nat.pow_le_pow_right (by omega) (by omega))

/-- The bits of a number denote it. -/
theorem ofBits_toBits (x : F64) : ofBits x.toBits = x := by
  cases x with
  | nan s =>
    obtain ⟨hs, he, hf⟩ := bits_parts (toNat_lt_two s) (show 2047 < 2 ^ 11 by omega)
      (show 2 ^ 51 < 2 ^ 52 by omega)
    rw [toBits, show 0x7ff8 * 2 ^ 48 = 2047 * 2 ^ 52 + 2 ^ 51 from rfl, ofBits]
    simp only [hs, he, hf, decide_toNat_eq_one]
    rfl
  | infinite s =>
    obtain ⟨hs, he, hf⟩ := bits_parts (toNat_lt_two s) (show 2047 < 2 ^ 11 by omega)
      (show 0 < 2 ^ 52 by omega)
    rw [toBits, show 0x7ff * 2 ^ 52 = 2047 * 2 ^ 52 + 0 from rfl, ofBits]
    simp only [hs, he, hf, decide_toNat_eq_one]
    rfl
  | finite s m =>
    obtain ⟨m, hrep, hlt⟩ := m
    rcases Nat.lt_or_ge m (2 ^ 52) with hm | hm
    · obtain ⟨hs, he, hf⟩ := bits_parts (toNat_lt_two s) (show 0 < 2 ^ 11 by omega) hm
      rw [Nat.zero_mul, Nat.zero_add] at hs he hf
      simp only [toBits, if_pos hm, ofBits, hs, he, hf, decide_toNat_eq_one, if_true]
    · obtain ⟨h52, hlog, hge, hq, hcancel⟩ := significand hrep hlt hm
      obtain ⟨hs, he, hf⟩ := bits_parts (toNat_lt_two s) (show m.log2 - 51 < 2 ^ 11 by omega)
        (show m / 2 ^ (m.log2 - 52) - 2 ^ 52 < 2 ^ 52 by omega)
      have hmag : (2 ^ 52 + (m / 2 ^ (m.log2 - 52) - 2 ^ 52)) * 2 ^ (m.log2 - 51 - 1) = m := by
        rw [Nat.add_sub_cancel' hge, show m.log2 - 51 - 1 = m.log2 - 52 by omega, hcancel]
      simp only [toBits, if_neg (Nat.not_lt.mpr hm), ofBits, hs, he, hf, decide_toNat_eq_one, hmag]
      rw [if_neg (by omega), dif_pos (by omega)]

theorem toBits_lt (x : F64) : x.toBits < 2 ^ 64 := by
  cases x with
  | nan s => have := toNat_lt_two s; rw [toBits]; omega
  | infinite s => have := toNat_lt_two s; rw [toBits]; omega
  | finite s m =>
    obtain ⟨m, hrep, hlt⟩ := m
    have hs := toNat_lt_two s
    rcases Nat.lt_or_ge m (2 ^ 52) with hm | hm
    · simp only [toBits, if_pos hm]
      omega
    · obtain ⟨h52, hlog, hge, hq, -⟩ := significand hrep hlt hm
      simp only [toBits, if_neg (Nat.not_lt.mpr hm)]
      omega

/-! ### Equality -/

theorem beq_refl {a : F64} (h : a.isNaN = false) : a.beq a = true := by
  cases a with
  | nan s => cases h
  | infinite s => simp [beq]
  | finite s m => simp [beq]

theorem beq_symm {a b : F64} (h : a.beq b = true) : b.beq a = true := by
  cases a <;> cases b <;> simp_all [beq]

theorem beq_trans {a b c : F64} (h : a.beq b = true) (h' : b.beq c = true) : a.beq c = true := by
  cases a <;> cases b <;> cases c <;> simp_all [beq]

theorem isNaN_of_beq {a b : F64} (h : a.beq b = true) : a.isNaN = false := by
  cases a <;> cases b <;> simp_all [beq, isNaN]

theorem isFinite_congr {a b : F64} (h : a.beq b = true) : a.isFinite = b.isFinite := by
  cases a <;> cases b <;> simp_all [beq, isFinite]

theorem scaled_congr {a b : F64} (h : a.beq b = true) : a.scaled = b.scaled := by
  cases a <;> cases b <;> simp_all [beq, scaled]

/-- Equal numbers are identical, except for the two zeros. -/
theorem eq_of_beq {a b : F64} (h : a.beq b = true) (h0 : a.isFinite = true → a.scaled ≠ 0) : a = b := by
  cases a <;> cases b <;> simp only [beq, Bool.false_eq_true, beq_iff_eq] at h
  case infinite s t => rw [h]
  case finite s m t n =>
    have h0 := h0 rfl
    obtain ⟨m, hm⟩ := m
    obtain ⟨n, hn⟩ := n
    cases s <;> cases t <;> simp only [scaled] at h h0
    · obtain rfl : m = n := by omega
      rfl
    · omega
    · omega
    · obtain rfl : m = n := by omega
      rfl

theorem toI64_congr {a b : F64} (h : a.beq b = true) : a.toI64 = b.toI64 := by
  cases a <;> cases b <;> simp only [beq, Bool.false_eq_true, beq_iff_eq] at h
  case infinite s t => rw [h]
  case finite s m t n => rw [toI64, toI64, h]

/-- Adding a number other than zero does not tell the zeros apart. -/
theorem add_congr_left {a b c : F64} (h : a.beq b = true) (hc : c.scaled ≠ 0) :
    a.add c = b.add c := by
  by_cases h0 : a.isFinite = true ∧ a.scaled = 0
  · cases a <;> cases b <;> cases c <;> simp_all [beq, isFinite, add]
  · rw [eq_of_beq h fun hf h0' => h0 ⟨hf, h0'⟩]

/-! ### Integers -/

/-- Integers of at most 53 bits are numbers. -/
theorem ofInt_eq {i : ℤ} (h : i.natAbs < 2 ^ 53) :
    ∃ hm, ofInt i = .finite (decide (i < 0)) ⟨i.natAbs * magOne, hm⟩ := by
  have hrep : Representable (i.natAbs * magOne) := by
    rw [magOne]
    exact representable_mul_pow h unitExp
  have hround := roundMag_eq_self hrep
  have hlt : i.natAbs * magOne < magLimit := by
    have hexp : 53 ≤ maxExp := by rw [maxExp]; decide
    rw [magLimit]
    exact Nat.mul_lt_mul_of_pos_right
      (Nat.lt_of_lt_of_le h (Nat.pow_le_pow_right (by omega) hexp)) magOne_pos
  refine ⟨⟨hrep, hlt⟩, ?_⟩
  simp only [ofInt, ofMag, hround, hlt, dif_pos]

theorem scaled_ofInt {i : ℤ} (h : i.natAbs < 2 ^ 53) : (ofInt i).scaled = i * magOne := by
  obtain ⟨hm, heq⟩ := ofInt_eq h
  rw [heq]
  rcases lt_or_ge i 0 with hi | hi
  · rw [decide_eq_true hi]
    change -((i.natAbs * magOne : ℕ) : ℤ) = _
    rw [Int.natCast_mul, ← Int.neg_mul]
    congr 1
    omega
  · rw [decide_eq_false (by omega)]
    change ((i.natAbs * magOne : ℕ) : ℤ) = _
    rw [Int.natCast_mul]
    congr 1
    omega

theorem isFinite_ofInt {i : ℤ} (h : i.natAbs < 2 ^ 53) : (ofInt i).isFinite = true := by
  obtain ⟨hm, heq⟩ := ofInt_eq h
  rw [heq]; rfl

theorem isNaN_of_isFinite {a : F64} (h : a.isFinite = true) : a.isNaN = false := by
  cases a <;> first | rfl | cases h

theorem scaled_one_ne_zero : one.scaled ≠ 0 := by
  have hpos := magOne_pos
  rw [one, scaled_ofInt (by decide)]
  omega

theorem toI64_ofInt {i : ℤ} (h : i.natAbs < 2 ^ 53) : (ofInt i).toI64 = i := by
  have hs := scaled_ofInt h
  obtain ⟨hm, heq⟩ := ofInt_eq h
  rw [heq] at hs ⊢
  have hpos := magOne_pos
  have hdiv : (i * (magOne : ℤ)).tdiv magOne = i := Int.mul_tdiv_cancel _ (by omega)
  simp only [toI64, hs, hdiv, i64Min, i64Max]
  omega

end F64

end Lib
