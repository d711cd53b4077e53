import Rilua.Lib.Utf8Lossy
import Rilua.Stdlib.Pattern
import Rilua.Vm.LuaVal
import Rilua.Vm.TableOps

/-! Arguments of the functions of the string library (`stdlib/string.rs`). A string is given by its bytes. What the
    functions ask other parts of the machine is a parameter. -/

namespace Rilua.Stdlib

open Lib Vm Gc

/-- What the library asks the rest of the machine. -/
structure StringHost where
  /-- `format!("{val}")`. -/
  display : LuaVal → List UInt8
  /-- `s.trim().parse::<f64>()` of the text that the bytes decode to. -/
  parseF64 : List UInt8 → Option F64
  /-- `execute::str_to_number`. -/
  strToNumber : List UInt8 → Option F64
  /-- The payload of a secret wrapper. -/
  secretValue : GcRef .userdata → Option LuaVal
  /-- `checked_truthiness`. -/
  checkedTruthiness : LuaVal → Except LuaError Bool

/-- What a function of the library does: it panics, raises an error or returns. -/
abbrev Native (α : Type) : Type := Option (Except LuaError α)

def Native.error {α : Type} (e : LuaError) : Native α := some (.error e)

def Native.ok {α : Type} (a : α) : Native α := some (.ok a)

/-- Argument `n`, counted from 0. -/
def argAt (args : List LuaVal) (n : ℕ) : LuaVal := args[n]?.getD .nil

def checkArgCount (name : String) (args : List LuaVal) (min : ℕ) : Except LuaError Unit :=
  if args.length < min then .error (badArgument name min "value expected") else .ok ()

/-- A string argument as bytes; a number is one, too. -/
def checkString (host : StringHost) (args : List LuaVal) (name : String) (n : ℕ) : Except LuaError (List UInt8) :=
  match argAt args n with
  | .str s => .ok s
  | .num x => .ok (host.display (.num x))
  | _ => .error (badArgument name (n + 1) "string expected")

def checkNumber (host : StringHost) (args : List LuaVal) (name : String) (n : ℕ) : Except LuaError F64 :=
  match argAt args n with
  | .num x => .ok x
  | .str s =>
    match host.strToNumber s with
    | some x => .ok x
    | none =>
      let text := fromUtf8Lossy s
      .error (badArgument name (n + 1) s!"number expected, got '{text}'")
  | _ => .error (badArgument name (n + 1) "number expected")

/-- An integer argument: the number is truncated. -/
def checkInt (host : StringHost) (args : List LuaVal) (name : String) (n : ℕ) : Except LuaError ℤ := do
  let x ← checkNumber host args name n
  pure x.toI64

def optInt (host : StringHost) (args : List LuaVal) (name : String) (n : ℕ) (default : ℤ) : Except LuaError ℤ :=
  if argAt args n = .nil then .ok default else checkInt host args name n

/-- Relative string position: negative means back from the end. -/
def posrelat (pos : ℤ) (len : ℕ) : ℤ := if 0 ≤ pos then pos else pos + len + 1

end Rilua.Stdlib
