import Rilua.Stdlib.Format

/-! The integer conversions of `string.format` against C's `printf`. The code pads a number to the field width, with
    spaces or with zeros, and knows no precision: the two agree where that makes no difference. -/

namespace Rilua.Stdlib

open Lib Vm
open Printf (digitsText Conv)

/-! ### Values -/

/-- The number is an integer. -/
def IsInteger (x : F64) (v : ℤ) : Prop := x.isFinite = true ∧ x.scaled = v * magOne

/-- The values that a conversion is for. -/
structure InRange (c : Conv) (v : ℤ) : Prop where
  signed : c.signed = true → F64.i64Min ≤ v ∧ v ≤ F64.i64Max
  unsigned : c.signed = false → 0 ≤ v ∧ v < 2 ^ 64

variable {x : F64} {v : ℤ} {c : Conv}

theorem IsInteger.truncated (h : IsInteger x v) : x.scaled.tdiv magOne = v := by
  have hpos := magOne_pos
  rw [h.2, Int.mul_tdiv_cancel _ (by omega)]

theorem IsInteger.toI64 (h : IsInteger x v) (hmin : F64.i64Min ≤ v) (hmax : v ≤ F64.i64Max) : x.toI64 = v := by
  have htrunc := h.truncated
  cases x with
  | finite s m =>
    simp only [F64.toI64, htrunc]
    omega
  | nan s => exact absurd h.1 Bool.false_ne_true
  | infinite s => exact absurd h.1 Bool.false_ne_true

theorem IsInteger.toU64 (h : IsInteger x v) (hmin : 0 ≤ v) (hmax : v < 2 ^ 64) : toU64 x = v.natAbs := by
  have htrunc := h.truncated
  cases x with
  | finite s m =>
    simp only [Stdlib.toU64, htrunc]
    omega
  | nan s => exact absurd h.1 Bool.false_ne_true
  | infinite s => exact absurd h.1 Bool.false_ne_true

theorem InRange.natAbs_lt (h : InRange c v) : v.natAbs < 2 ^ 64 := by
  cases hc : c.signed with
  | true =>
    obtain ⟨hmin, hmax⟩ := h.signed hc
    rw [F64.i64Min] at hmin
    rw [F64.i64Max] at hmax
    omega
  | false =>
    obtain ⟨hmin, hmax⟩ := h.unsigned hc
    omega

/-! ### Padding -/

/-- The specification as C reads it. -/
def FormatSpec.toC (spec : FormatSpec) : Printf.Spec where
  left := spec.flags.contains (ch '-')
  plus := spec.flags.contains (ch '+')
  space := spec.flags.contains (ch ' ')
  alt := spec.flags.contains (ch '#')
  zero := spec.flags.contains (ch '0')
  width := decimalValue spec.width
  precision := spec.precision.map decimalValue

/-- What the code puts in front of the digits and the zeros that fill the field. -/
def codeLead (s : Printf.Spec) (c : Conv) (v : ℤ) : List UInt8 :=
  if c = .x ∨ c = .X then (if s.alt then c.altPrefix else []) else s.lead c v ++ List.replicate (s.octalZeros c v) 48

/-- The width as the code knows it. -/
def codeWidth (s : Printf.Spec) : ℕ := if s.width < 2 ^ 64 then s.width else 0

/-- What the code writes for a value. -/
def codeText (s : Printf.Spec) (c : Conv) (v : ℤ) : Option (List UInt8) :=
  padNumber (codeLead s c v) (c.digitsOf v) (codeWidth s) s.left (s.zero && !s.left)

/-- Where the conversion agrees with C's: the padding is not too wide for `format!`, a prefix is not asked for with the
    value zero, and a precision asks for as many digits as the conversion writes without regard to it. -/
structure AgreesWithC (s : Printf.Spec) (c : Conv) (v : ℤ) : Prop where
  padding : s.width ≤ (s.lead c v).length + s.ownDigits c v + maxFormatWidth
  lead : ¬ (s.alt ∧ (c = .x ∨ c = .X) ∧ v = 0)
  precision : ∀ q, s.precision = some q →
    ¬ s.Vanishes c v ∧ max q (s.ownDigits c v) = s.ownDigits c v + s.roomForZeros c v

open Printf.Spec (fill)

theorem padNumber_eq (lead ds : List UInt8) (width : ℕ) (left zero : Bool) :
    padNumber lead ds width left (zero && !left) =
      if width ≤ lead.length + ds.length + maxFormatWidth then
        some (fill left width (lead ++ (List.replicate (if zero ∧ left = false then width - (lead.length + ds.length)
          else 0) 48 ++ ds)))
      else none := by
  rw [padNumber]
  rcases Nat.lt_or_ge (lead.length + ds.length) width with hlt | hle
  · rw [if_neg (Nat.not_le.mpr hlt)]
    by_cases hmax : width ≤ lead.length + ds.length + maxFormatWidth
    · rw [if_neg (by omega), if_pos hmax]
      cases left with
      | true => simp [fill, ch]
      | false =>
        cases zero with
        | true =>
          rw [Printf.Spec.fill_of_le]
          · simp [ch]
          · simp
            omega
        | false => simp [fill, ch]
    · rw [if_pos (by omega), if_neg hmax]
  · have hzero : width - (lead.length + ds.length) = 0 := Nat.sub_eq_zero_of_le hle
    rw [if_pos hle, if_pos (by omega), hzero, ite_self, List.replicate_zero, List.nil_append, Printf.Spec.fill_of_le]
    rw [List.length_append]
    exact hle

/-- Two texts of the same digits are equal if they have as many zeros and are as long. -/
theorem fill_zeros_iff {left : Bool} {w w' a b : ℕ} {lead ds : List UInt8} :
    fill left w (lead ++ (List.replicate a 48 ++ ds)) = fill left w' (lead ++ (List.replicate b 48 ++ ds)) ↔
      a = b ∧ max (lead.length + (a + ds.length)) w = max (lead.length + (a + ds.length)) w' := by
  constructor
  · intro h
    have hcount := congrArg (List.count 48) h
    rw [Printf.Spec.count_fill (by decide), Printf.Spec.count_fill (by decide)] at hcount
    simp only [List.count_append, List.count_replicate_self] at hcount
    obtain rfl : a = b := by omega
    have hlen := congrArg List.length h
    rw [Printf.Spec.length_fill, Printf.Spec.length_fill] at hlen
    simp only [List.length_append, List.length_replicate] at hlen
    exact ⟨rfl, hlen⟩
  · rintro ⟨rfl, hmax⟩
    have hspaces : w - (lead.length + (a + ds.length)) = w' - (lead.length + (a + ds.length)) := by omega
    simp only [fill, List.length_append, List.length_replicate, hspaces]

variable {s : Printf.Spec}

theorem octalZeros_le_one : s.octalZeros c v ≤ 1 := by
  rw [Printf.Spec.octalZeros]
  split <;> omega

theorem length_lead_le_two : (s.lead c v).length ≤ 2 := by
  simp only [Printf.Spec.lead, apply_ite List.length]
  cases c <;> simp [Conv.signed, Conv.altPrefix] <;> (repeat' split) <;> omega

theorem length_digitsOf_le (hv : v.natAbs < 2 ^ 64) : (c.digitsOf v).length ≤ 64 :=
  Printf.length_digitsText_le (by cases c <;> decide) (by decide) hv

/-- A sign has no digits. -/
theorem count_lead_zero {b : UInt8} (hb : b ≠ 43 ∧ b ≠ 32) : (s.lead c 0).count b = 0 := by
  have hplus : ¬ (43 : UInt8) = b := fun h => hb.1 h.symm
  have hspace : ¬ (32 : UInt8) = b := fun h => hb.2 h.symm
  simp only [Printf.Spec.lead, ne_eq, not_true_eq_false, and_false, if_false, Int.lt_irrefl]
  split_ifs <;> simp [hplus, hspace]

theorem codeLead_eq (h : ¬ (s.alt ∧ (c = .x ∨ c = .X) ∧ v = 0)) :
    codeLead s c v = s.lead c v ++ List.replicate (s.octalZeros c v) 48 := by
  rw [codeLead]
  split
  · next hc =>
    have hsigned : c.signed = false := by rcases hc with rfl | rfl <;> rfl
    have hoctal : s.octalZeros c v = 0 := if_neg fun ho => by rcases hc with rfl | rfl <;> cases ho.1
    rw [hoctal, List.replicate_zero, List.append_nil, Printf.Spec.lead, hsigned, if_neg Bool.false_ne_true]
    by_cases halt : s.alt = true
    · have hv : v ≠ 0 := fun hv => h ⟨halt, hc, hv⟩
      rw [if_pos halt, if_pos ⟨halt, hv⟩]
    · rw [if_neg halt, if_neg fun ha => halt ha.1]
  · rfl

/-- The byte that only a prefix has. -/
theorem codeText_ne_of_prefixed (h : s.alt ∧ (c = .x ∨ c = .X) ∧ v = 0) : codeText s c v ≠ some (s.text c v) := by
  obtain ⟨halt, hc, rfl⟩ := h
  obtain ⟨b, hb, hlead⟩ : ∃ b : UInt8, (b ≠ 43 ∧ b ≠ 32 ∧ b ≠ 48) ∧ c.altPrefix = [48, b] := by
    rcases hc with rfl | rfl
    · exact ⟨120, by decide, rfl⟩
    · exact ⟨88, by decide, rfl⟩
  have hzeros : ∀ k, (List.replicate k (48 : UInt8)).count b = 0 := fun k =>
    List.count_eq_zero_of_not_mem fun hm => hb.2.2 (List.eq_of_mem_replicate hm)
  have hdigits : (s.digits c 0).count b = 0 := by
    have hne : ¬ (48 : UInt8) = b := fun h => hb.2.2 h.symm
    by_cases hvan : s.Vanishes c 0
    · rw [Printf.Spec.digits_of_vanishes hvan, List.count_nil]
    · rw [Printf.Spec.digits_eq hvan, List.count_append, hzeros]
      simp [Conv.digitsOf, hne]
  have hlead0 := count_lead_zero (s := s) (c := c) ⟨hb.1, hb.2.1⟩
  have htext : (s.text c 0).count b = 0 := by
    rw [Printf.Spec.text]
    split
    · rw [List.count_append, List.count_append, hlead0, hzeros, hdigits]
    · rw [Printf.Spec.count_fill hb.2.1, List.count_append, hlead0, hdigits]
  rw [codeText, padNumber_eq, codeLead, if_pos hc, if_pos halt, hlead]
  split
  · intro h
    have hcount := congrArg (List.count b) (Option.some.inj h)
    rw [Printf.Spec.count_fill hb.2.1, htext, List.count_append] at hcount
    have hpos : 0 < List.count b [48, b] := List.count_pos_iff.mpr (by simp)
    omega
  · intro h
    cases h

/-- The code writes a digit for zero. -/
theorem codeText_ne_of_vanishes (h : s.Vanishes c v) : codeText s c v ≠ some (s.text c v) := by
  have htext : (s.text c v).count 48 = 0 := by
    have hp : ¬ s.precision = none := by rw [h.1]; exact Option.some_ne_none 0
    rw [Printf.Spec.text]
    rw [if_neg fun hz => hp hz.2.2, Printf.Spec.count_fill (by decide), Printf.Spec.digits_of_vanishes h,
      List.append_nil, h.2.1]
    exact count_lead_zero (by decide)
  have hdigits : c.digitsOf v = [48] := by rw [h.2.1]; rfl
  rw [codeText, padNumber_eq, hdigits]
  split
  · intro h
    have hcount := congrArg (List.count 48) (Option.some.inj h)
    rw [Printf.Spec.count_fill (by decide), htext] at hcount
    simp at hcount
  · intro h
    cases h

/-- What the code writes is what C writes in exactly these cases. -/
theorem codeText_iff (hv : v.natAbs < 2 ^ 64) : codeText s c v = some (s.text c v) ↔ AgreesWithC s c v := by
  by_cases hprefix : s.alt ∧ (c = .x ∨ c = .X) ∧ v = 0
  · exact ⟨fun h => absurd h (codeText_ne_of_prefixed hprefix), fun h => absurd hprefix h.lead⟩
  by_cases hvan : s.Vanishes c v
  · exact ⟨fun h => absurd h (codeText_ne_of_vanishes hvan), fun h => absurd hvan (h.precision 0 hvan.1).1⟩
  have hoct := octalZeros_le_one (s := s) (c := c) (v := v)
  have hlead := length_lead_le_two (s := s) (c := c) (v := v)
  have hdigits := length_digitsOf_le (c := c) hv
  have hmax : maxFormatWidth = 65535 := rfl
  -- The zeros of the octal prefix and those that fill the field stand side by side.
  have hcode : codeText s c v =
      if codeWidth s ≤ (s.lead c v).length + s.ownDigits c v + maxFormatWidth then
        some (fill s.left (codeWidth s) (s.lead c v ++ (List.replicate (s.octalZeros c v +
          if s.zero ∧ s.left = false then codeWidth s - ((s.lead c v).length + s.ownDigits c v) else 0) 48 ++
            c.digitsOf v)))
      else none := by
    rw [codeText, padNumber_eq, codeLead_eq hprefix, List.length_append, List.length_replicate, Printf.Spec.ownDigits,
      Nat.add_assoc (s.lead c v).length, List.append_assoc, ← List.append_assoc (List.replicate _ _),
      List.replicate_append_replicate]
  have hzeros : ∀ q, s.precision = some q → s.zeros c v = max (q - (c.digitsOf v).length) (s.octalZeros c v) := by
    intro q hq
    rw [Printf.Spec.zeros, hq]
  have hzeros' : s.precision = none → s.zeros c v = s.octalZeros c v + s.roomForZeros c v := by
    intro hq
    rw [Printf.Spec.zeros, hq]
  have hown : s.ownDigits c v = s.octalZeros c v + (c.digitsOf v).length := rfl
  have hroom : s.roomForZeros c v =
      if s.zero ∧ s.left = false then s.width - ((s.lead c v).length + s.ownDigits c v) else 0 := rfl
  rw [hcode, Printf.Spec.text_eq hvan]
  constructor
  · intro h
    split at h
    · next hpad =>
      obtain ⟨hz, hw⟩ := fill_zeros_iff.mp (Option.some.inj h)
      have hwidth : codeWidth s = s.width := by
        rcases Nat.lt_or_ge s.width (2 ^ 64) with hlt | hge
        · exact if_pos hlt
        · -- The width is not known, so that the code pads nothing, and C pads up to the width.
          have hnone : codeWidth s = 0 := if_neg (Nat.not_lt.mpr hge)
          rw [hnone, Nat.zero_sub, ite_self] at hw
          omega
      rw [hwidth] at hpad hz
      refine ⟨hpad, hprefix, fun q hq => ⟨hvan, ?_⟩⟩
      rw [hzeros q hq, ← hroom] at hz
      omega
    · cases h
  · intro h
    have hpad := h.padding
    have hwidth : codeWidth s = s.width := if_pos (by omega)
    rw [hwidth, if_pos hpad]
    refine congrArg some (fill_zeros_iff.mpr ⟨?_, rfl⟩)
    rw [← hroom]
    cases hq : s.precision with
    | none => exact (hzeros' hq).symm
    | some q =>
      have := (h.precision q hq).2
      rw [hzeros q hq]
      omega

/-! ### The conversions of `string.format` -/

/-- The character of a conversion. -/
def convChar : Conv → UInt8
  | .d => ch 'd'
  | .i => ch 'i'
  | .u => ch 'u'
  | .o => ch 'o'
  | .x => ch 'x'
  | .X => ch 'X'

theorem stops_convChar (c : Conv) : Stops (convChar c) := by
  cases c <;> exact ⟨by decide, by decide, by decide⟩

/-- What the formatter gets for a number. -/
def convArg (c : Conv) (x : F64) : FormatArg :=
  match c with
  | .d | .i => .int x.toI64
  | .u => .uint (toU64 x)
  | .o => .oct (toU64 x)
  | .x => .hex (toU64 x)
  | .X => .hexUpper (toU64 x)

variable {host : StringHost} {formatFloat : List UInt8 → F64 → Option (List UInt8)} {val : LuaVal} {argN : ℕ}
  {spec : FormatSpec}

theorem convert_convChar (hnum : coerceToNumberErr host val argN = .ok x) (text : List UInt8) :
    convert host formatFloat text (convChar c) val argN = (formatWithSpec formatFloat text (convArg c x)).map .ok := by
  cases c <;> simp [convert, convChar, convArg, hnum, ch]

theorem parseUsize_width (spec : FormatSpec) : (parseUsize spec.width).getD 0 = codeWidth spec.toC := by
  rw [parseUsize, codeWidth, FormatSpec.toC]
  by_cases hnil : spec.width = []
  · rw [hnil]
    rfl
  · by_cases hlt : decimalValue spec.width < 2 ^ 64
    · rw [if_pos hlt, if_neg fun h => h.elim hnil (Nat.not_le.mpr hlt)]
      rfl
    · rw [if_neg hlt, if_pos (.inr (Nat.not_lt.mp hlt))]
      rfl

/-- The formatter writes `codeText`. -/
theorem formatWithSpec_convArg (hspec : spec.WellFormed) (hint : IsInteger x v) (hr : InRange c v) :
    formatWithSpec formatFloat (ch '%' :: spec.text ++ [convChar c]) (convArg c x) = codeText spec.toC c v := by
  have hparsed : scanSpec (ch '%' :: spec.text ++ [convChar c]).tail = (spec, [convChar c]) :=
    scanSpec_text hspec (stops_convChar c) []
  have hsigned (hc : c.signed = true) : x.toI64 = v := hint.toI64 (hr.signed hc).1 (hr.signed hc).2
  have hunsigned (hc : c.signed = false) : toU64 x = v.natAbs := hint.toU64 (hr.unsigned hc).1 (hr.unsigned hc).2
  rw [codeText, ← parseUsize_width]
  cases c with
  | d | i =>
    simp only [formatWithSpec, hparsed, convArg, hsigned rfl]
    congr 1
    exact (List.append_nil _).symm
  | u =>
    simp only [formatWithSpec, hparsed, convArg, hunsigned rfl]
    congr 1
    simp [codeLead, Printf.Spec.lead, Printf.Spec.octalZeros, Conv.signed, Conv.altPrefix]
  | o =>
    have hlead : spec.toC.lead .o v = [] := by simp [Printf.Spec.lead, Conv.signed, Conv.altPrefix]
    have hzeros : List.replicate (spec.toC.octalZeros .o v) 48 =
        if spec.flags.contains (ch '#') && v.natAbs != 0 then [ch '0'] else [] := by
      by_cases ho : spec.flags.contains (ch '#') = true ∧ v ≠ 0
      · rw [Printf.Spec.octalZeros, if_pos ⟨rfl, ho⟩, if_pos (by simpa using ho)]
        rfl
      · rw [Printf.Spec.octalZeros, if_neg fun h => ho h.2, if_neg (by simpa using ho)]
        rfl
    simp only [formatWithSpec, hparsed, convArg, hunsigned rfl]
    congr 1
    rw [codeLead, if_neg (show ¬ (Conv.o = .x ∨ Conv.o = .X) by decide), hlead, List.nil_append, hzeros]
  | x | X =>
    simp only [formatWithSpec, hparsed, convArg, hunsigned rfl]
    rfl

/-! ### Within a format string -/

/-- Wherever the specification stands in a format string, `val` makes it write `text`. -/
def Writes (host : StringHost) (formatFloat : List UInt8 → F64 → Option (List UInt8)) (spec : FormatSpec) (c : UInt8)
    (val : LuaVal) (text : List UInt8) : Prop :=
  ∀ args argIdx rest result, argAt args argIdx = val →
    formatLoop host formatFloat args (ch '%' :: spec.text ++ c :: rest) argIdx result =
      formatLoop host formatFloat args rest (argIdx + 1) (result ++ text)

theorem coerceToNumberErr_congr (h : coerceToNumberErr host val argN = .ok x) (n : ℕ) :
    coerceToNumberErr host val n = .ok x := by
  cases val with
  | num y => exact h
  | str t =>
    rw [coerceToNumberErr] at h ⊢
    cases hparse : host.parseF64 t with
    | some y =>
      rw [hparse] at h
      exact h
    | none =>
      rw [hparse] at h
      cases h
  | _ => cases h

theorem writes_iff (hspec : spec.WellFormed) (hnum : coerceToNumberErr host val argN = .ok x) (hint : IsInteger x v)
    (hr : InRange c v) (text : List UInt8) :
    Writes host formatFloat spec (convChar c) val text ↔ codeText spec.toC c v = some text := by
  have hloop (args : List LuaVal) (argIdx : ℕ) (rest result : List UInt8) (harg : argAt args argIdx = val) :
      formatLoop host formatFloat args (ch '%' :: spec.text ++ convChar c :: rest) argIdx result =
        (codeText spec.toC c v).elim none fun text =>
          formatLoop host formatFloat args rest (argIdx + 1) (result ++ text) := by
    rw [formatLoop_spec hspec (stops_convChar c) (by cases c <;> decide), harg,
      convert_convChar (coerceToNumberErr_congr hnum _), formatWithSpec_convArg hspec hint hr]
    cases codeText spec.toC c v <;> rfl
  constructor
  · intro h
    have hend := h [val] 0 [] [] rfl
    rw [hloop [val] 0 [] [] rfl] at hend
    cases hcode : codeText spec.toC c v with
    | none =>
      rw [hcode, Option.elim_none, formatLoop] at hend
      cases hend
    | some t =>
      simp only [hcode, Option.elim_some, formatLoop, List.nil_append, Native.ok, Option.some.injEq, Except.ok.injEq] at hend
      rw [hend]
  · intro h args argIdx rest result harg
    rw [hloop args argIdx rest result harg, h, Option.elim_some]

/-- A specification that the parser has read writes a value as C does in exactly the cases of `AgreesWithC`. -/
theorem writes_printf_iff (host : StringHost) (formatFloat : List UInt8 → F64 → Option (List UInt8))
    {fmt rest : List UInt8} {spec : FormatSpec} (hscan : scanSpec fmt = (spec, rest)) {val : LuaVal} {argN : ℕ} {x : F64}
    (hnum : coerceToNumberErr host val argN = .ok x) {c : Conv} {v : ℤ} (hint : IsInteger x v) (hr : InRange c v) :
    Writes host formatFloat spec (convChar c) val (spec.toC.text c v) ↔ AgreesWithC spec.toC c v := by
  have hspec : spec.WellFormed := by
    have := wellFormed_scanSpec fmt
    rwa [hscan] at this
  exact (writes_iff hspec hnum hint hr _).trans (codeText_iff hr.natAbs_lt)

theorem isInteger_ofInt (h : v.natAbs < 2 ^ 53) : IsInteger (F64.ofInt v) v :=
  ⟨F64.isFinite_ofInt h, F64.scaled_ofInt h⟩

/-- `string.format("%+05d", 42)`. -/
theorem writes_printf_iff_signed :
    Writes ⟨fun _ => [], fun _ => none, fun _ => none, fun _ => none, fun _ => .ok true⟩ (fun _ _ => none)
        ⟨[43, 48], [53], none⟩ (convChar .d) (.num (F64.ofInt 42)) ((FormatSpec.toC ⟨[43, 48], [53], none⟩).text .d 42) ↔
      AgreesWithC (FormatSpec.toC ⟨[43, 48], [53], none⟩) .d 42 := by
  have hscan : scanSpec [43, 48, 53, 100] = (⟨[43, 48], [53], none⟩, [100]) := rfl
  have hnum : coerceToNumberErr ⟨fun _ => [], fun _ => none, fun _ => none, fun _ => none, fun _ => .ok true⟩
      (.num (F64.ofInt 42)) 2 = .ok (F64.ofInt 42) := rfl
  exact writes_printf_iff _ _ hscan hnum (isInteger_ofInt (by decide)) ⟨by decide, by decide⟩

/-- `string.format("%.3d", 5)` is `5`, not `005`. -/
theorem not_writes_precision :
    ¬ Writes ⟨fun _ => [], fun _ => none, fun _ => none, fun _ => none, fun _ => .ok true⟩ (fun _ _ => none)
        ⟨[], [], some [51]⟩ (convChar .d) (.num (F64.ofInt 5)) ((FormatSpec.toC ⟨[], [], some [51]⟩).text .d 5) := by
  have hspec : FormatSpec.WellFormed ⟨[], [], some [51]⟩ := wellFormed_scanSpec [46, 51, 100]
  have hnum : coerceToNumberErr ⟨fun _ => [], fun _ => none, fun _ => none, fun _ => none, fun _ => .ok true⟩
      (.num (F64.ofInt 5)) 2 = .ok (F64.ofInt 5) := rfl
  have hint : IsInteger (F64.ofInt 5) 5 := isInteger_ofInt (by decide)
  rw [writes_iff hspec hnum hint ⟨by decide, by decide⟩]
  decide

end Rilua.Stdlib
