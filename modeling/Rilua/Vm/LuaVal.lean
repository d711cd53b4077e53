import Rilua.Lib.Printf
import Rilua.Vm.Value

/-! Values with the bytes of their strings, and the text of a number (`vm/value.rs`). The text of a number that is not a
    small integer is a parameter. -/

namespace Rilua.Vm

open Lib Gc
open Printf (digitsText)

/-- A Lua value, with the bytes of a string. -/
inductive LuaVal where
  | nil
  | bool (b : Bool)
  | num (n : F64)
  | str (s : List UInt8)
  | table (r : GcRef .table)
  | function (r : GcRef .closure)
  | userdata (r : GcRef .userdata)
  | thread (r : GcRef .thread)
  | lightUserdata (p : ℕ)
  deriving DecidableEq

/-! ### The text of a number -/

/-- `is_sign_negative`. -/
def isSignNegative : F64 → Bool
  | .nan s => s
  | .infinite s => s
  | .finite s _ => s

/-- `MAX_FIXED_INTEGER_ABS`. -/
def maxFixedIntegerAbs : ℕ := 10 ^ 14

/-- The integer that a number is, if it is not too large and not zero. -/
def luaFixedInteger (n : F64) : Option ℤ :=
  if n.isFinite = false ∨ n.scaled = 0 ∨ maxFixedIntegerAbs * magOne ≤ n.scaled.natAbs then none
  else if (F64.ofInt n.toI64).beq n then some n.toI64
  else none

def luaIntegerLen (int : ℤ) : ℕ :=
  let abs := int.natAbs
  let digits := if abs = 0 then 1 else Nat.log 10 abs + 1
  digits + if int < 0 then 1 else 0

/-- `format!("{int}")`. -/
def integerText (int : ℤ) : List UInt8 := (if int < 0 then [45] else []) ++ digitsText 10 false int.natAbs

/-- The length of the text of a number. -/
def luaNumberStringLen (display : F64 → List UInt8) (n : F64) : ℕ :=
  if n.isNaN then 4
  else if n.isFinite = false then if isSignNegative n then 4 else 3
  else if n.scaled = 0 then if isSignNegative n then 2 else 1
  else
    match luaFixedInteger n with
    | some int => luaIntegerLen int
    | none => (display n).length

/-- Appends the text of a number. -/
def appendLuaNumberBytes (display : F64 → List UInt8) (buffer : List UInt8) (n : F64) : List UInt8 :=
  if n.isNaN then buffer ++ "-nan".toUTF8.data.toList
  else if n.isFinite = false then buffer ++ if isSignNegative n then "-inf".toUTF8.data.toList else "inf".toUTF8.data.toList
  else if n.scaled = 0 then buffer ++ if isSignNegative n then "-0".toUTF8.data.toList else "0".toUTF8.data.toList
  else
    match luaFixedInteger n with
    | some int => buffer ++ integerText int
    | none => buffer ++ display n

theorem length_integerText (int : ℤ) : (integerText int).length = luaIntegerLen int := by
  have hdigits : (digitsText 10 false int.natAbs).length =
      if int.natAbs = 0 then 1 else Nat.log 10 int.natAbs + 1 := by
    rw [digitsText]
    split
    · rfl
    · next h => rw [List.length_reverse, List.length_map, Nat.length_digits 10 _ (by decide) h]
  rw [integerText, luaIntegerLen, List.length_append, hdigits, apply_ite List.length]
  exact Nat.add_comm _ _

/-- The length is that of the bytes that are appended. -/
theorem length_appendLuaNumberBytes (display : F64 → List UInt8) (buffer : List UInt8) (n : F64) :
    (appendLuaNumberBytes display buffer n).length = buffer.length + luaNumberStringLen display n := by
  rw [appendLuaNumberBytes, luaNumberStringLen]
  split
  · rw [List.length_append]
    rfl
  · split
    · rw [List.length_append]
      split <;> rfl
    · split
      · rw [List.length_append]
        split <;> rfl
      · split
        · rw [List.length_append, length_integerText]
        · rw [List.length_append]

theorem appendLuaNumberBytes_append (display : F64 → List UInt8) (buffer : List UInt8) (n : F64) :
    appendLuaNumberBytes display buffer n = buffer ++ appendLuaNumberBytes display [] n := by
  simp only [appendLuaNumberBytes, List.nil_append]
  split
  · rfl
  · split
    · rfl
    · split
      · rfl
      · split <;> rfl

end Rilua.Vm
