import Rilua.Vm.Call

/-! The open upvalues of the running thread (`find_upvalue` and `close_upvalues` of `vm/execute.rs`): a list
    ordered by stack slot, highest first. The barrier of `close_upvalues`, which changes colours only, is left
    out. -/

namespace Rilua.Vm

open Lib Gc

namespace LuaState

/-- The stack slot an upvalue is open at. -/
def openAt (s : LuaState) (r : GcRef .upvalue) : Option ℕ := (s.gc.heap.get r).bind Upvalue.stackIndex

/-- Searches the list for an upvalue open at `idx`, up to one that is open below. -/
def searchOpen (s : LuaState) (idx : ℕ) : List (GcRef .upvalue) → Option (GcRef .upvalue)
  | [] => none
  | r :: rs =>
    match s.openAt r with
    | some i => if i = idx then some r else if i < idx then none else searchOpen s idx rs
    | none => searchOpen s idx rs

/-- `find_upvalue`: the upvalue open at `idx`, which is created if there is none. -/
def findUpvalue (s : LuaState) (idx : ℕ) : Option (LuaState × GcRef .upvalue) :=
  match s.searchOpen idx s.openUpvalues with
  | some r => some (s, r)
  | none =>
    (s.gc.allocUpvalue (Upvalue.newOpen idx)).map fun (gc, r) =>
      let s := { s with gc }
      let pos := (s.openUpvalues.findIdx? fun r => (s.openAt r).all (· < idx)).getD s.openUpvalues.length
      ({ s with openUpvalues := s.openUpvalues.insertIdx pos r }, r)

/-- Closes an upvalue: it captures the value of its slot. -/
def closeUpvalue (s : LuaState) (r : GcRef .upvalue) : LuaState :=
  { s with gc := s.gc.modify r fun uv => Upvalue.close uv s.stack }

/-- The loop of `close_upvalues`. -/
def closeFrom (level : ℕ) : List (GcRef .upvalue) → LuaState → LuaState
  | [], s => { s with openUpvalues := [] }
  | r :: rs, s =>
    if (s.openAt r).any (level ≤ ·) then closeFrom level rs (s.closeUpvalue r)
    else { s with openUpvalues := r :: rs }

/-- `close_upvalues`: closes the upvalues open at or above `level`. -/
def closeUpvalues (s : LuaState) (level : ℕ) : LuaState := closeFrom level s.openUpvalues s

/-- Writes through an upvalue. -/
def setUpvalue (s : LuaState) (r : GcRef .upvalue) (v : Val) : LuaState :=
  match s.gc.heap.get r with
  | some uv =>
    let uv : Upvalue := uv
    { s with stack := (uv.set s.stack v).2, gc := s.gc.modify r fun _ => (uv.set s.stack v).1 }
  | none => s

end LuaState

end Rilua.Vm
