import Rilua.Vm.Proto
import Rilua.Vm.Table

/-! The collectable objects besides strings and tables: upvalues and closures (`vm/closure.rs`), userdata
    (`vm/value.rs`) and coroutines (`vm/state.rs`), and the references each object holds. -/

namespace Rilua.Vm

open Gc

/-- Upvalue state: on the stack of the running thread, or owning its value. -/
inductive UpvalueState where
  | openAt (stackIndex : ℕ)
  | closed (value : Val)
  deriving DecidableEq

/-- A variable captured by closures. -/
structure Upvalue where
  state : UpvalueState
  deriving DecidableEq

namespace Upvalue

def newOpen (stackIndex : ℕ) : Upvalue := ⟨.openAt stackIndex⟩

def newClosed (value : Val) : Upvalue := ⟨.closed value⟩

def stackIndex (uv : Upvalue) : Option ℕ :=
  match uv.state with
  | .openAt i => some i
  | .closed _ => none

/-- The current value; nil for an index beyond the stack. -/
def get (uv : Upvalue) (stack : List Val) : Val :=
  match uv.state with
  | .openAt i => stack[i]?.getD .nil
  | .closed value => value

/-- Writes the value: to the stack slot while open, to the cell once closed. -/
def set (uv : Upvalue) (stack : List Val) (value : Val) : Upvalue × List Val :=
  match uv.state with
  | .openAt i => (uv, stack.set i value)
  | .closed _ => (⟨.closed value⟩, stack)

/-- Captures the current stack value. A closed upvalue stays as it is. -/
def close (uv : Upvalue) (stack : List Val) : Upvalue :=
  match uv.state with
  | .openAt i => ⟨.closed (stack[i]?.getD .nil)⟩
  | .closed _ => uv

@[simp] theorem stackIndex_newOpen (i : ℕ) : (newOpen i).stackIndex = some i := rfl

@[simp] theorem stackIndex_closed (v : Val) : stackIndex ⟨.closed v⟩ = none := rfl

@[simp] theorem stackIndex_openAt (i : ℕ) : stackIndex ⟨.openAt i⟩ = some i := rfl

theorem stackIndex_eq_some {uv : Upvalue} {i : ℕ} : uv.stackIndex = some i ↔ uv = ⟨.openAt i⟩ := by
  rcases uv with ⟨i' | v⟩ <;> simp [stackIndex]

end Upvalue

/-- A Lua closure. -/
structure LuaClosure where
  proto : Proto
  upvalues : List (GcRef .upvalue)
  env : GcRef .table

/-- A native closure, with its upvalues stored inline. -/
structure RustClosure where
  upvalues : List Val
  env : Option (GcRef .table)

inductive Closure where
  | lua (cl : LuaClosure)
  | rust (cl : RustClosure)

/-- A userdata value without its payload. -/
structure Userdata where
  metatable : Option (GcRef .table) := none
  env : Option (GcRef .table) := none
  finalized : Bool := false
  allocSeq : ℕ := 0
  secretValue : Option Val := none

/-- Coroutine status. -/
inductive ThreadStatus where | initial | running | suspended | normal | dead
  deriving DecidableEq, Repr

/-- One active function invocation (`vm/callinfo.rs`). For `numResults`, `none` is `LUA_MULTRET`. -/
structure CallInfo where
  func : ℕ
  base : ℕ
  top : ℕ
  savedPc : ℕ := 0
  numResults : Option ℕ
  deriving DecidableEq

/-- Minimum stack space of a native function. -/
def luaMinStack : ℕ := 20

/-- The bottom frame of a thread. -/
def CallInfo.initial : CallInfo where
  func := 0
  base := 1
  top := 1 + luaMinStack
  numResults := none

/-- The per-thread state, which the running thread keeps in `LuaState` and every other thread in its
    `LuaThread`. -/
structure ThreadFields where
  stack : List Val
  base : ℕ
  top : ℕ
  callStack : List CallInfo
  ci : ℕ := 0
  nCcalls : ℕ := 0
  callDepth : ℕ := 0
  ciOverflow : Bool := false
  openUpvalues : List (GcRef .upvalue) := []
  errorObject : Option Val := none
  global : GcRef .table
  hookFunc : Val := .nil

/-- A coroutine. `suspendedUpvals` are the upvalues closed when it was suspended, with the stack slots
    they are reopened at. -/
structure LuaThread extends ThreadFields where
  suspendedUpvals : List (GcRef .upvalue × ℕ) := []
  status : ThreadStatus

/-- Initial size of a value stack. -/
def basicStackSize : ℕ := 2 * luaMinStack

/-- A new coroutine with body `func`. -/
def LuaThread.new (func : Val) (global : GcRef .table) : LuaThread where
  stack := (List.replicate basicStackSize Val.nil).set 0 func
  base := 1
  top := 1
  callStack := [CallInfo.initial]
  global
  status := .initial

namespace Gc

/-- A reference to an object of any kind. -/
structure ObjRef where
  kind : ObjKind
  ref : GcRef kind
  deriving DecidableEq

/-- What the arena of each kind holds. -/
abbrev Obj : ObjKind → Type
  | .string => LuaString
  | .table => Table
  | .closure => Closure
  | .upvalue => Upvalue
  | .userdata => Userdata
  | .thread => LuaThread

end Gc

/-- The object a value refers to. -/
def Val.objRef : Val → Option ObjRef
  | .str r => some ⟨_, r⟩
  | .table r => some ⟨_, r⟩
  | .function r => some ⟨_, r⟩
  | .userdata r => some ⟨_, r⟩
  | .thread r => some ⟨_, r⟩
  | _ => none

/-- Global slots installed by an embedder: the captured values and the interned key of each slot. -/
structure GlobalSlotRuntime where
  values : List Val
  nameKeys : List (GcRef .string)
  shadowRegistryKey : Option (GcRef .string)

/-- The slot of a key; the last one where several have it. -/
def GlobalSlotRuntime.keyToSlot (rt : GlobalSlotRuntime) (key : GcRef .string) : Option (BitVec 32) :=
  ((rt.nameKeys.zipIdx.filter fun (k, _) => k = key).getLast?).map fun (_, i) => BitVec.ofNat 32 i

/-! ### References held by an object

    What a program that holds the object can get at. A node whose key or value is nil is an absent entry,
    and an open upvalue holds nothing itself: its value is on the stack of the running thread. -/

/-- The values a table holds: its array part and the keys and values of its live nodes. -/
def Table.vals (t : Table) : List Val :=
  t.array ++ t.nodes.flatMap fun n => if n.key.isNil || n.value.isNil then [] else [n.key, n.value]

/-- The values a closure holds. -/
def Closure.vals : Closure → List Val
  | .lua cl => .table cl.env :: cl.proto.allConstants
  | .rust cl => (cl.env.map Val.table).toList ++ cl.upvalues

def Closure.upvalueRefs : Closure → List (GcRef .upvalue)
  | .lua cl => cl.upvalues
  | .rust _ => []

def Upvalue.vals (uv : Upvalue) : List Val :=
  match uv.state with
  | .openAt _ => []
  | .closed value => [value]

def Userdata.vals (ud : Userdata) : List Val :=
  (ud.metatable.map Val.table).toList ++ (ud.env.map Val.table).toList ++ ud.secretValue.toList

/-- The part of the stack in use. -/
def ThreadFields.liveStack (t : ThreadFields) : List Val := t.stack.take t.top

/-- The values a thread holds: its environment, its hook and its stack. -/
def ThreadFields.vals (t : ThreadFields) : List Val := .table t.global :: t.hookFunc :: t.liveStack

def LuaThread.upvalueRefs (t : LuaThread) : List (GcRef .upvalue) :=
  t.openUpvalues ++ t.suspendedUpvals.map Prod.fst

namespace Gc

/-- The values an object holds. -/
def Obj.vals : {k : ObjKind} → Obj k → List Val
  | .string, _ => []
  | .table, t => (Table.metatable t |>.map Val.table).toList ++ Table.vals t
  | .closure, cl => Closure.vals cl
  | .upvalue, uv => Upvalue.vals uv
  | .userdata, ud => Userdata.vals ud
  | .thread, t => ThreadFields.vals t.toThreadFields

/-- The upvalues an object holds. -/
def Obj.upvalueRefs : {k : ObjKind} → Obj k → List (GcRef .upvalue)
  | .closure, cl => Closure.upvalueRefs cl
  | .thread, t => LuaThread.upvalueRefs t
  | .string, _ => []
  | .table, _ => []
  | .upvalue, _ => []
  | .userdata, _ => []

/-- The references an object holds. -/
def Obj.refs {k : ObjKind} (x : Obj k) : List ObjRef :=
  x.vals.filterMap Val.objRef ++ x.upvalueRefs.map fun r => ⟨.upvalue, r⟩

end Gc

end Rilua.Vm
