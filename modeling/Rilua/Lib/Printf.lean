import Mathlib.Data.Nat.Digits.Lemmas

/-! The integer conversions of C's `printf` (ISO C, 7.19.6.1), for ASCII text as a list of bytes. The value of an
    unsigned conversion is not negative. -/

namespace Lib.Printf

/-- The byte of a digit. -/
def digitByte (upper : Bool) (d : ℕ) : UInt8 := ((if d < 10 then 48 else if upper then 55 else 87) + d).toUInt8

/-- A number in a base, without leading zeros. -/
def digitsText (base : ℕ) (upper : Bool) (n : ℕ) : List UInt8 :=
  if n = 0 then [48] else ((Nat.digits base n).map (digitByte upper)).reverse

inductive Conv where | d | i | u | o | x | X
  deriving DecidableEq

namespace Conv

def base : Conv → ℕ
  | .o => 8
  | .x | .X => 16
  | _ => 10

def signed : Conv → Bool
  | .d | .i => true
  | _ => false

/-- What the alternative form puts in front of a number other than zero. -/
def altPrefix : Conv → List UInt8
  | .x => [48, 120]
  | .X => [48, 88]
  | _ => []

/-- The digits of the absolute value. -/
def digitsOf (c : Conv) (v : ℤ) : List UInt8 := digitsText c.base (c = .X) v.natAbs

end Conv

/-- The flags, the field width (0 if there is none) and the precision of a conversion specification. -/
structure Spec where
  left : Bool
  plus : Bool
  space : Bool
  alt : Bool
  zero : Bool
  width : ℕ
  precision : Option ℕ

namespace Spec

/-- What stands in front of the digits: the sign, or what the alternative form asks for. -/
def lead (s : Spec) (c : Conv) (v : ℤ) : List UInt8 :=
  if c.signed then
    if v < 0 then [45] else if s.plus then [43] else if s.space then [32] else []
  else if s.alt ∧ v ≠ 0 then c.altPrefix
  else []

/-- The digits: at least as many as the precision asks for, none for zero with the precision zero. The alternative form
    of `o` makes the first one a zero. -/
def digits (s : Spec) (c : Conv) (v : ℤ) : List UInt8 :=
  let ds := if s.precision = some 0 ∧ v = 0 then [] else c.digitsOf v
  let ds := List.replicate (s.precision.getD 1 - ds.length) 48 ++ ds
  if c = .o ∧ s.alt ∧ ds.head? ≠ some 48 then 48 :: ds else ds

/-- Spaces up to a width. -/
def fill (left : Bool) (width : ℕ) (body : List UInt8) : List UInt8 :=
  let spaces := List.replicate (width - body.length) 32
  if left then body ++ spaces else spaces ++ body

/-- The text of a value. Leading zeros fill the field where the flag `0` is not overridden. -/
def text (s : Spec) (c : Conv) (v : ℤ) : List UInt8 :=
  let lead := s.lead c v
  let ds := s.digits c v
  if s.zero ∧ s.left = false ∧ s.precision = none then
    lead ++ List.replicate (s.width - (lead.length + ds.length)) 48 ++ ds
  else fill s.left s.width (lead ++ ds)

end Spec

/-! ### Digits -/

variable {base n : ℕ} {upper : Bool}

@[simp] theorem digitsText_zero (base : ℕ) (upper : Bool) : digitsText base upper 0 = [48] := rfl

theorem length_digitsText_pos (base : ℕ) (upper : Bool) (n : ℕ) : 0 < (digitsText base upper n).length := by
  rw [digitsText]
  split
  · exact Nat.one_pos
  · next hn =>
    rw [List.length_reverse, List.length_map]
    exact List.length_pos_iff.mpr (Nat.digits_ne_nil_iff_ne_zero.mpr hn)

theorem length_digitsText_le (hbase : 1 < base) {k : ℕ} (hk : 0 < k) (hn : n < 2 ^ k) :
    (digitsText base upper n).length ≤ k := by
  rw [digitsText]
  split
  · exact hk
  · rw [List.length_reverse, List.length_map, Nat.digits_length_le_iff hbase]
    exact Nat.lt_of_lt_of_le hn (Nat.pow_le_pow_left hbase k)

theorem digitByte_ne_zero {d : ℕ} (h0 : d ≠ 0) (hd : d < 16) : digitByte upper d ≠ 48 := by
  interval_cases d <;> cases upper <;> first | decide | exact absurd rfl h0

/-- There is no leading zero. -/
theorem head?_digitsText (hbase : 1 < base) (hle : base ≤ 16) (hn : n ≠ 0) :
    (digitsText base upper n).head? ≠ some 48 := by
  have hne : Nat.digits base n ≠ [] := Nat.digits_ne_nil_iff_ne_zero.mpr hn
  have hlast := Nat.getLast_digit_ne_zero base hn
  have hlt : (Nat.digits base n).getLast hne < base := Nat.digits_lt_base hbase (List.getLast_mem hne)
  rw [digitsText, if_neg hn, List.head?_reverse, List.getLast?_map, List.getLast?_eq_some_getLast hne, Option.map_some]
  intro h
  exact digitByte_ne_zero hlast (by omega) (Option.some.inj h)

/-! ### The text as a whole -/

namespace Spec

variable {s : Spec} {c : Conv} {v : ℤ} {left : Bool} {width : ℕ} {body : List UInt8}

theorem fill_of_le (h : width ≤ body.length) : fill left width body = body := by
  rw [fill, Nat.sub_eq_zero_of_le h]
  simp

theorem length_fill : (fill left width body).length = max body.length width := by
  rw [fill]
  cases left
  · simp
    omega
  · simp
    omega

/-- Padding adds nothing but spaces. -/
theorem count_fill {b : UInt8} (hb : b ≠ 32) : (fill left width body).count b = body.count b := by
  have hspaces : ∀ k, (List.replicate k (32 : UInt8)).count b = 0 := fun k =>
    List.count_eq_zero_of_not_mem fun hm => hb (List.eq_of_mem_replicate hm)
  rw [fill]
  cases left <;> simp [hspaces]

/-- How many zeros the alternative form of `o` has in front of the digits, if there is no precision. -/
def octalZeros (s : Spec) (c : Conv) (v : ℤ) : ℕ := if c = .o ∧ s.alt ∧ v ≠ 0 then 1 else 0

/-- How many digits are written if neither precision nor field width asks for more. -/
def ownDigits (s : Spec) (c : Conv) (v : ℤ) : ℕ := s.octalZeros c v + (c.digitsOf v).length

/-- How many zeros the flag `0` would fill the field with. -/
def roomForZeros (s : Spec) (c : Conv) (v : ℤ) : ℕ :=
  if s.zero ∧ s.left = false then s.width - ((s.lead c v).length + s.ownDigits c v) else 0

/-- The value zero with the precision zero has no digits, except in the alternative form of `o`. -/
def Vanishes (s : Spec) (c : Conv) (v : ℤ) : Prop := s.precision = some 0 ∧ v = 0 ∧ ¬ (c = .o ∧ s.alt)

theorem digits_of_vanishes (h : s.Vanishes c v) : s.digits c v = [] := by
  obtain ⟨hp, hv, ho⟩ := h
  simp only [digits, hp, hv, and_self, if_true, Option.getD_some, List.length_nil, Nat.sub_self, List.replicate_zero,
    List.append_nil]
  exact if_neg fun hc => ho ⟨hc.1, hc.2.1⟩

theorem head?_replicate_append {k : ℕ} {ds : List UInt8} (hk : 0 < k) :
    (List.replicate k (48 : UInt8) ++ ds).head? = some 48 := by
  cases k with
  | zero => exact absurd hk (Nat.lt_irrefl 0)
  | succ k => rfl

/-- Otherwise zeros stand in front of the digits of the value, as many as the precision asks for. -/
theorem digits_eq (h : ¬ s.Vanishes c v) : s.digits c v =
    List.replicate (max (s.precision.getD 1 - (c.digitsOf v).length) (s.octalZeros c v)) 48 ++ c.digitsOf v := by
  by_cases hzero : s.precision = some 0 ∧ v = 0
  · obtain ⟨hp, rfl⟩ := hzero
    have ho : c = .o ∧ s.alt := by
      by_contra ho
      exact h ⟨hp, rfl, ho⟩
    obtain ⟨rfl, halt⟩ := ho
    simp [digits, hp, halt, octalZeros, Conv.digitsOf]
  · simp only [digits, if_neg hzero]
    have hpos : 0 < (c.digitsOf v).length := length_digitsText_pos ..
    rcases Nat.eq_zero_or_pos (s.precision.getD 1 - (c.digitsOf v).length) with hk | hk
    · rw [hk, List.replicate_zero, List.nil_append, Nat.zero_max, octalZeros]
      by_cases hv : v = 0
      · have hd : c.digitsOf v = [48] := by rw [hv]; rfl
        rw [hd, if_neg fun ho => ho.2.2 rfl, if_neg fun ho => ho.2.2 hv]
        rfl
      · by_cases ho : c = .o ∧ s.alt
        · have hhead : (c.digitsOf v).head? ≠ some 48 :=
            head?_digitsText (by rw [ho.1]; decide) (by rw [ho.1]; decide) (Int.natAbs_ne_zero.mpr hv)
          rw [if_pos ⟨ho.1, ho.2, hhead⟩, if_pos ⟨ho.1, ho.2, hv⟩]
          rfl
        · rw [if_neg fun hc => ho ⟨hc.1, hc.2.1⟩, if_neg fun hc => ho ⟨hc.1, hc.2.1⟩]
          rfl
    · have hle : s.octalZeros c v ≤ 1 := by
        rw [octalZeros]
        split <;> omega
      rw [if_neg fun hc => hc.2.2 (head?_replicate_append hk), Nat.max_eq_left (by omega)]

/-- Zeros in front of the digits of the value. -/
def zeros (s : Spec) (c : Conv) (v : ℤ) : ℕ :=
  match s.precision with
  | some q => max (q - (c.digitsOf v).length) (s.octalZeros c v)
  | none => s.octalZeros c v + s.roomForZeros c v

/-- The text is a sign, zeros, the digits of the value, and spaces around them. -/
theorem text_eq (h : ¬ s.Vanishes c v) : s.text c v =
    fill s.left s.width (s.lead c v ++ (List.replicate (s.zeros c v) 48 ++ c.digitsOf v)) := by
  have hpos : 0 < (c.digitsOf v).length := length_digitsText_pos ..
  rw [text, zeros, digits_eq h]
  cases hp : s.precision with
  | some q => simp
  | none =>
    have hone : (none : Option ℕ).getD 1 - (c.digitsOf v).length = 0 := by
      rw [Option.getD_none]
      omega
    rw [hone, Nat.zero_max, roomForZeros, ownDigits]
    by_cases hz : s.zero ∧ s.left = false
    · rw [if_pos ⟨hz.1, hz.2, rfl⟩, if_pos hz, fill_of_le]
      · rw [List.length_append, List.length_replicate, List.append_assoc, ← List.append_assoc (List.replicate _ _),
          List.replicate_append_replicate, Nat.add_comm (s.octalZeros c v) (s.width - _)]
      · simp only [List.length_append, List.length_replicate]
        omega
    · simp [hz]

end Spec

end Lib.Printf
