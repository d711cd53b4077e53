import Rilua.Lib.Printf
import Rilua.Stdlib.Args
import Mathlib.Data.List.TakeWhile

/-! `string.format` (`stdlib/string.rs`). The text of a float conversion is a parameter. -/

namespace Rilua.Stdlib

open Lib Vm
open Printf (digitsText)

/-! ### Format specifications -/

/-- Flags, width and precision of a format specification, as they are written. -/
structure FormatSpec where
  flags : List UInt8
  width : List UInt8
  precision : Option (List UInt8)

def isFlag (c : UInt8) : Bool := c = ch '-' || c = ch '+' || c = ch ' ' || c = ch '#' || c = ch '0'

/-- What stands behind the `%`, up to the conversion character. -/
def FormatSpec.text (spec : FormatSpec) : List UInt8 :=
  spec.flags ++ spec.width ++ spec.precision.elim [] (ch '.' :: ·)

/-- Parses flags, width and precision; also returns what stands behind them. -/
def scanSpec (fmt : List UInt8) : FormatSpec × List UInt8 :=
  let flags := fmt.takeWhile isFlag
  let fmt := fmt.dropWhile isFlag
  let width := fmt.takeWhile isAsciiDigit
  let fmt := fmt.dropWhile isAsciiDigit
  if fmt.head? = some (ch '.') then
    let fmt := fmt.tail
    (⟨flags, width, some (fmt.takeWhile isAsciiDigit)⟩, fmt.dropWhile isAsciiDigit)
  else (⟨flags, width, none⟩, fmt)

theorem length_scanSpec_le (fmt : List UInt8) : (scanSpec fmt).2.length ≤ fmt.length := by
  have hdrop : ∀ (p : UInt8 → Bool) (l : List UInt8), (l.dropWhile p).length ≤ l.length := fun p l =>
    (List.dropWhile_sublist p).length_le
  rw [scanSpec]
  split
  · have h₁ := hdrop isAsciiDigit ((fmt.dropWhile isFlag).dropWhile isAsciiDigit).tail
    have h₂ := hdrop isAsciiDigit (fmt.dropWhile isFlag)
    have h₃ := hdrop isFlag fmt
    rw [List.length_tail] at h₁
    change (((fmt.dropWhile isFlag).dropWhile isAsciiDigit).tail.dropWhile isAsciiDigit).length ≤ fmt.length
    omega
  · exact Nat.le_trans (hdrop _ _) (hdrop _ _)

def decimalValue (digits : List UInt8) : ℕ := digits.foldl (fun v d => 10 * v + (d.toNat - 48)) 0

/-- `digits.parse::<usize>().ok()`. -/
def parseUsize (digits : List UInt8) : Option ℕ :=
  if digits = [] ∨ 2 ^ 64 ≤ decimalValue digits then none else some (decimalValue digits)

/-! ### Numbers -/

/-- Format argument types for the spec formatter. -/
inductive FormatArg where
  | int (n : ℤ)
  | uint (n : ℕ)
  | oct (n : ℕ)
  | hex (n : ℕ)
  | hexUpper (n : ℕ)
  | float (n : F64)

/-- The greatest width that `format!` takes. -/
def maxFormatWidth : ℕ := 2 ^ 16 - 1

/-- Pads a number with sign or prefix and digits. Padding that is too wide for `format!` is a panic. -/
def padNumber (sign digits : List UInt8) (width : ℕ) (leftAlign padZero : Bool) : Option (List UInt8) :=
  let total := sign.length + digits.length
  if width ≤ total then some (sign ++ digits)
  else
    let padding := width - total
    if maxFormatWidth < padding then none
    else if leftAlign then some (sign ++ digits ++ List.replicate padding (ch ' '))
    else if padZero then some (sign ++ List.replicate padding (ch '0') ++ digits)
    else some (List.replicate padding (ch ' ') ++ sign ++ digits)

/-- Formats a value using a C-style format specifier, nothing where it panics. `formatFloat` does it for a float. -/
def formatWithSpec (formatFloat : List UInt8 → F64 → Option (List UInt8)) (spec : List UInt8) (arg : FormatArg) :
    Option (List UInt8) :=
  let parsed := (scanSpec spec.tail).1
  let leftAlign := parsed.flags.contains (ch '-')
  let padZero := parsed.flags.contains (ch '0') && !leftAlign
  let plusSign := parsed.flags.contains (ch '+')
  let spaceSign := parsed.flags.contains (ch ' ')
  let alt := parsed.flags.contains (ch '#')
  let w := (parseUsize parsed.width).getD 0
  match arg with
  | .int n =>
    let sign := if n < 0 then [ch '-'] else if plusSign then [ch '+'] else if spaceSign then [ch ' '] else []
    padNumber sign (digitsText 10 false n.natAbs) w leftAlign padZero
  | .uint n => padNumber [] (digitsText 10 false n) w leftAlign padZero
  | .oct n => padNumber (if alt && n != 0 then [ch '0'] else []) (digitsText 8 false n) w leftAlign padZero
  | .hex n => padNumber (if alt then [ch '0', ch 'x'] else []) (digitsText 16 false n) w leftAlign padZero
  | .hexUpper n => padNumber (if alt then [ch '0', ch 'X'] else []) (digitsText 16 true n) w leftAlign padZero
  | .float n => formatFloat spec n

/-- Number to `u64`: truncation, saturating at the ends, 0 for not-a-number. -/
def toU64 : F64 → ℕ
  | .nan _ => 0
  | .infinite s => if s then 0 else 2 ^ 64 - 1
  | .finite s m => min (2 ^ 64 - 1) ((F64.finite s m).scaled.tdiv magOne).toNat

/-! ### Strings -/

/-- The bytes that `%q` writes for a byte. -/
def quoteByte (b : UInt8) : List UInt8 :=
  if b = 92 then [92, 92]
  else if b = 34 then [92, 34]
  else if b = 10 then [92, 10]
  else if b = 13 then [92, ch 'r']
  else if b = 0 then [92, ch '0', ch '0', ch '0']
  else [b]

/-- `%q`: quotes and escapes. -/
def quoted (s : List UInt8) : List UInt8 := 34 :: s.flatMap quoteByte ++ [34]

/-- Formats a string with width and precision. The precision cuts off bytes. -/
def formatStringWithSpecBytes (spec s : List UInt8) : List UInt8 :=
  let parsed := (scanSpec spec.tail).1
  let leftAlign := parsed.flags.contains (ch '-')
  let precision := parsed.precision.bind fun digits => if digits = [] then some 0 else parseUsize digits
  let truncated := precision.elim s fun prec => s.take prec
  let padding := List.replicate ((parseUsize parsed.width).getD 0 - truncated.length) (ch ' ')
  if leftAlign then truncated ++ padding else padding ++ truncated

/-- The bytes of a `%s` argument, before width and precision. -/
def stringBytes (host : StringHost) : LuaVal → List UInt8
  | .str s => s
  | .nil => "nil".toUTF8.data.toList
  | .bool b => if b then "true".toUTF8.data.toList else "false".toUTF8.data.toList
  | val => host.display val

/-- The payload of a secret wrapper. -/
def secretOf (host : StringHost) : LuaVal → Option LuaVal
  | .userdata r => host.secretValue r
  | _ => none

/-! ### Conversions -/

def formatError (n : ℕ) (msg : String) : LuaError := badArgument "string.format" n msg

/-- Coerces a value to a number. -/
def coerceToNumberErr (host : StringHost) (val : LuaVal) (argN : ℕ) : Except LuaError F64 :=
  match val with
  | .num n => .ok n
  | .str s =>
    match host.parseF64 s with
    | some n => .ok n
    | none => .error (formatError argN "number expected")
  | _ => .error (formatError argN "number expected")

/-- What the conversion `c` writes for a value, the argument number `argN`. -/
def convert (host : StringHost) (formatFloat : List UInt8 → F64 → Option (List UInt8)) (spec : List UInt8) (c : UInt8)
    (val : LuaVal) (argN : ℕ) : Native (List UInt8) :=
  let number (f : F64 → FormatArg) : Native (List UInt8) :=
    match coerceToNumberErr host val argN with
    | .ok n => (formatWithSpec formatFloat spec (f n)).map .ok
    | .error e => .error e
  if c = ch 'd' ∨ c = ch 'i' then number fun n => .int n.toI64
  else if c = ch 'u' then number fun n => .uint (toU64 n)
  else if c = ch 'o' then number fun n => .oct (toU64 n)
  else if c = ch 'x' then number fun n => .hex (toU64 n)
  else if c = ch 'X' then number fun n => .hexUpper (toU64 n)
  else if c = ch 'f' ∨ c = ch 'e' ∨ c = ch 'E' ∨ c = ch 'g' ∨ c = ch 'G' then number .float
  else if c = ch 'c' then
    match coerceToNumberErr host val argN with
    -- `n as u32`, which saturates
    | .ok n => .ok [(min (2 ^ 32 - 1) (toU64 n)).toUInt8]
    | .error e => .error e
  else if c = ch 's' then
    match secretOf host val with
    | some (.str s) => .ok s
    | some _ => .error (formatError argN "secret string expected")
    | none => .ok (formatStringWithSpecBytes spec (stringBytes host val))
  else if c = ch 'q' then
    match val with
    | .str s => .ok (quoted s)
    | _ => .error (formatError argN "string expected")
  else .error (formatError 1 ("invalid option '%" ++ (Char.ofNat c.toNat).toString ++ "'"))

/-- Goes through the rest of the format string. `argIdx` is the next argument, and `result` what has been written. -/
def formatLoop (host : StringHost) (formatFloat : List UInt8 → F64 → Option (List UInt8)) (args : List LuaVal) :
    List UInt8 → ℕ → List UInt8 → Native (List UInt8)
  | [], _, result => .ok result
  | b :: fmt, argIdx, result =>
    if b ≠ ch '%' then formatLoop host formatFloat args fmt argIdx (result ++ [b])
    else
      match fmt with
      | [] => .error (formatError 1 "invalid format string (ends with '%')")
      | b' :: fmt' =>
        if b' = ch '%' then formatLoop host formatFloat args fmt' argIdx (result ++ [ch '%'])
        else
          match _hscan : scanSpec (b' :: fmt') with
          | (_, []) => .error (formatError 1 "invalid format string")
          | (spec, c :: rest) =>
            match convert host formatFloat (ch '%' :: spec.text ++ [c]) c (argAt args argIdx) (argIdx + 1) with
            | some (.ok text) => formatLoop host formatFloat args rest (argIdx + 1) (result ++ text)
            | some (.error e) => .error e
            | none => none
termination_by fmt => fmt.length
decreasing_by
  · exact Nat.lt_succ_self _
  · simp
  · have hle := length_scanSpec_le (b' :: fmt')
    rw [_hscan] at hle
    simp only [List.length_cons] at hle ⊢
    omega

/-- `string.format`: the text, and whether it is handed out as a secret. -/
def strFormat (host : StringHost) (formatFloat : List UInt8 → F64 → Option (List UInt8)) (args : List LuaVal) :
    Native (List UInt8 × Bool) :=
  match (do checkArgCount "string.format" args 1; checkString host args "string.format" 0 : Except LuaError _) with
  | .error e => .error e
  | .ok fmt =>
    (formatLoop host formatFloat args fmt 1 []).map fun r =>
      r.map fun text => (text, args.any fun val => (secretOf host val).isSome)

/-! ### What the parser reads -/

/-- Flags are flags and digits are digits; the first digit of the width would be a flag if it were a zero. -/
structure FormatSpec.WellFormed (spec : FormatSpec) : Prop where
  flags : ∀ c ∈ spec.flags, isFlag c = true
  width : ∀ c ∈ spec.width, isAsciiDigit c = true
  noFlag : spec.width.head? ≠ some (ch '0')
  precision : ∀ ds, spec.precision = some ds → ∀ c ∈ ds, isAsciiDigit c = true

/-- A character that ends a specification. -/
def Stops (c : UInt8) : Prop := isFlag c = false ∧ isAsciiDigit c = false ∧ c ≠ ch '.'

theorem isFlag_of_isAsciiDigit {c : UInt8} (h : isAsciiDigit c = true) (h0 : c ≠ ch '0') : isFlag c = false := by
  by_contra hf
  simp only [isFlag, Bool.not_eq_false, Bool.or_eq_true, decide_eq_true_iff] at hf
  rcases hf with (((rfl | rfl) | rfl) | rfl) | rfl
  · exact absurd h (by decide)
  · exact absurd h (by decide)
  · exact absurd h (by decide)
  · exact absurd h (by decide)
  · exact h0 rfl

theorem takeWhile_append_stop {p : UInt8 → Bool} {l t : List UInt8} (hl : ∀ c ∈ l, p c = true)
    (hrest : ∀ c, t.head? = some c → p c = false) :
    (l ++ t).takeWhile p = l ∧ (l ++ t).dropWhile p = t := by
  rw [List.takeWhile_append_of_pos hl, List.dropWhile_append_of_pos hl]
  cases t with
  | nil => simp
  | cons c t =>
    have hc := hrest c rfl
    simp [hc]

/-- The parser reads a well-formed specification back. -/
theorem scanSpec_text {spec : FormatSpec} (h : spec.WellFormed) {c : UInt8} (hc : Stops c) (rest : List UInt8) :
    scanSpec (spec.text ++ c :: rest) = (spec, c :: rest) := by
  obtain ⟨flags, width, precision⟩ := spec
  obtain ⟨hflag, hdigit, hdot⟩ := hc
  have hhead : ∀ b, (precision.elim [] (ch '.' :: ·) ++ c :: rest).head? = some b →
      isFlag b = false ∧ isAsciiDigit b = false := by
    intro b hb
    cases precision with
    | none =>
      obtain rfl : c = b := by simpa using hb
      exact ⟨hflag, hdigit⟩
    | some ds =>
      obtain rfl : ch '.' = b := by simpa using hb
      decide
  have hflags := takeWhile_append_stop (t := width ++ (precision.elim [] (ch '.' :: ·) ++ c :: rest)) h.flags
    fun b hb => by
      cases width with
      | nil => exact (hhead b hb).1
      | cons d ds =>
        obtain rfl : d = b := by simpa using hb
        exact isFlag_of_isAsciiDigit (h.width d List.mem_cons_self) fun h0 => h.noFlag (by rw [h0]; rfl)
  have hwidth := takeWhile_append_stop h.width fun b hb => (hhead b hb).2
  simp only [scanSpec, FormatSpec.text, List.append_assoc, hflags, hwidth]
  cases precision with
  | none =>
    have hne : (c :: rest).head? ≠ some (ch '.') := fun hd => hdot (by simpa using hd)
    exact if_neg hne
  | some ds =>
    have hds := takeWhile_append_stop (t := c :: rest) (h.precision ds rfl) fun b hb => by
      obtain rfl : c = b := by simpa using hb
      exact hdigit
    simp [hds]

theorem wellFormed_scanSpec (fmt : List UInt8) : (scanSpec fmt).1.WellFormed := by
  have htake : ∀ (p : UInt8 → Bool) (l : List UInt8), ∀ c ∈ l.takeWhile p, p c = true := fun p l c hc =>
    List.mem_takeWhile_imp hc
  have hhead : ((fmt.dropWhile isFlag).takeWhile isAsciiDigit).head? ≠ some (ch '0') := by
    intro h0
    cases hdrop : fmt.dropWhile isFlag with
    | nil =>
      rw [hdrop] at h0
      cases h0
    | cons c rest =>
      have hc : isFlag c = false := by
        have := List.head_dropWhile_not isFlag (l := fmt) (by rw [hdrop]; exact List.cons_ne_nil c rest)
        simpa [hdrop] using this
      rw [hdrop, List.takeWhile_cons] at h0
      split at h0
      · obtain rfl : c = ch '0' := by simpa using h0
        exact absurd hc (by decide)
      · cases h0
  rw [scanSpec]
  split
  · refine ⟨htake _ _, htake _ _, hhead, fun ds hds => ?_⟩
    cases hds
    exact htake _ _
  · exact ⟨htake _ _, htake _ _, hhead, fun ds hds => nomatch hds⟩

variable {host : StringHost} {formatFloat : List UInt8 → F64 → Option (List UInt8)} {spec : FormatSpec}

theorem scanSpec_percent (fmt : List UInt8) : scanSpec (ch '%' :: fmt) = (⟨[], [], none⟩, ch '%' :: fmt) := rfl

theorem formatLoop_spec (hspec : spec.WellFormed) {b : UInt8} (hb : Stops b) (hpercent : b ≠ ch '%')
    (args : List LuaVal) (argIdx : ℕ) (rest result : List UInt8) :
    formatLoop host formatFloat args (ch '%' :: spec.text ++ b :: rest) argIdx result =
      match convert host formatFloat (ch '%' :: spec.text ++ [b]) b (argAt args argIdx) (argIdx + 1) with
      | some (.ok text) => formatLoop host formatFloat args rest (argIdx + 1) (result ++ text)
      | some (.error e) => .error e
      | none => none := by
  have hscan := scanSpec_text hspec hb rest
  cases hfmt : spec.text ++ b :: rest with
  | nil => simp at hfmt
  | cons b' fmt' =>
    rw [hfmt] at hscan
    have hne : b' ≠ ch '%' := by
      rintro rfl
      rw [scanSpec_percent] at hscan
      cases hscan
      exact hpercent rfl
    rw [List.cons_append, hfmt, formatLoop, if_neg (not_not.mpr rfl), if_neg hne]
    split
    · next h => rw [hscan] at h; cases h
    · next h =>
      rw [hscan] at h
      cases h
      rfl

end Rilua.Stdlib
