import Rilua.Lib.Binary64
import Rilua.Vm.LuaString

/-! Lua values (`vm/value.rs`). Value types are stored inline, reference types as a reference into the
    arena of their kind. Equality follows IEEE 754 for numbers and is identity for references. -/

namespace Rilua.Vm

open Lib Gc

/-- A Lua value. -/
inductive Val where
  | nil
  | bool (b : Bool)
  | num (n : F64)
  | str (r : GcRef .string)
  | table (r : GcRef .table)
  | function (r : GcRef .closure)
  | userdata (r : GcRef .userdata)
  | thread (r : GcRef .thread)
  | lightUserdata (p : ℕ)
  deriving DecidableEq

namespace Val

def isNil : Val → Bool
  | .nil => true
  | _ => false

/-- Raw equality (`PartialEq`): not an equivalence because of not-a-number, and it identifies the two
    zeros. -/
def rawEq : Val → Val → Bool
  | .nil, .nil => true
  | .bool a, .bool b => a == b
  | .num a, .num b => a.beq b
  | .str a, .str b => a == b
  | .table a, .table b => a == b
  | .function a, .function b => a == b
  | .userdata a, .userdata b => a == b
  | .thread a, .thread b => a == b
  | .lightUserdata a, .lightUserdata b => a == b
  | _, _ => false

def isNaN : Val → Bool
  | .num n => n.isNaN
  | _ => false

@[simp] theorem isNil_eq_true {v : Val} : v.isNil = true ↔ v = .nil := by
  cases v <;> simp [isNil]

@[simp] theorem isNil_eq_false {v : Val} : v.isNil = false ↔ v ≠ .nil := by
  cases v <;> simp [isNil]

theorem rawEq_refl {a : Val} (h : a.isNaN = false) : a.rawEq a = true := by
  cases a <;> simp_all [rawEq, isNaN, F64.beq_refl]

theorem rawEq_symm {a b : Val} (h : a.rawEq b = true) : b.rawEq a = true := by
  cases a <;> cases b <;> simp_all [rawEq, F64.beq_symm]

theorem rawEq_trans {a b c : Val} (h : a.rawEq b = true) (h' : b.rawEq c = true) :
    a.rawEq c = true := by
  cases a <;> cases b <;> simp_all only [rawEq, beq_iff_eq, Bool.false_eq_true]
  case num.num a b => cases c <;> simp_all only [Bool.false_eq_true]; exact F64.beq_trans h h'

theorem rawEq_comm (a b : Val) : a.rawEq b = b.rawEq a := by
  rw [Bool.eq_iff_iff]
  exact ⟨rawEq_symm, rawEq_symm⟩

theorem rawEq_congr_left {a b : Val} (h : a.rawEq b = true) (c : Val) : a.rawEq c = b.rawEq c := by
  rw [Bool.eq_iff_iff]
  exact ⟨rawEq_trans (rawEq_symm h), rawEq_trans h⟩

theorem rawEq_congr_right {a b : Val} (h : a.rawEq b = true) (c : Val) : c.rawEq a = c.rawEq b := by
  rw [rawEq_comm c a, rawEq_comm c b, rawEq_congr_left h]

end Val

end Rilua.Vm
