import Rilua.Vm.Gc.Heap
import Mathlib.Data.List.Sort

/-! The state of the virtual machine (`vm/state.rs`): the heap with the collector's lists, the running
    thread, and the threads it was resumed from. Memory is accounted in `ℕ`: a byte count never comes
    near the `usize` range. -/

namespace Rilua.Vm

open Gc

/-- Entry of a gray list. The main thread is not in an arena, so it has an entry of its own. -/
inductive GrayItem where
  | table (r : GcRef .table)
  | closure (r : GcRef .closure)
  | thread (r : GcRef .thread)
  | mainThread
  deriving DecidableEq

/-- Phase of the incremental cycle. -/
inductive GcPhase where | pause | propagate | sweepString | sweep | finalize
  deriving DecidableEq, Repr

/-- Position of the incremental sweep. -/
structure SweepCursor where
  arenaIndex : ℕ := 0
  slotPosition : ℕ := 0
  deriving DecidableEq

def estStringSize : ℕ := 48
def estTableSize : ℕ := 64
def estClosureSize : ℕ := 48
def estUpvalueSize : ℕ := 24
def estUserdataSize : ℕ := 48
def estThreadSize : ℕ := 256

/-- Maximum number of arena slots swept in one step. -/
def gcSweepMax : ℕ := 80

/-- Collection state. `gray` is a stack with its top in front; `grayagain` and `tmudata` are in the
    order in which entries were added. -/
structure GcState where
  gray : List GrayItem := []
  grayagain : List GrayItem := []
  weakTables : List (GcRef .table) := []
  totalBytes : ℕ := 0
  phase : GcPhase := .pause
  sweepCursor : SweepCursor := {}
  tmudata : List (GcRef .userdata) := []
  udAllocSeq : ℕ := 0
  allocLimit : ℕ := usizeMax

/-- The garbage-collected heap, its roots of its own and the state of the collector. -/
structure Gc where
  heap : Heap := Heap.new
  strings : StringTable := {}
  currentWhite : Color := .white0
  typeMetatables : List (Option (GcRef .table)) := List.replicate 9 none
  tmNames : List (Option (GcRef .string)) := []
  typeNameRefs : List (Option (GcRef .string)) := []
  staticInternCache : List (ℕ × GcRef .string) := []
  gcState : GcState := {}

namespace Gc

/-- Adds `size` to the byte count. -/
def trackAlloc (g : Gc) (size : ℕ) : Gc :=
  { g with gcState := { g.gcState with totalBytes := g.gcState.totalBytes + size } }

/-- Allocates an object of kind `k` in the current white. -/
def alloc (g : Gc) (k : ObjKind) (x : Obj k) (size : ℕ) : Option (Gc × GcRef k) := do
  let (heap, r) ← g.heap.alloc k x g.currentWhite
  some ({ g with heap }.trackAlloc size, r)

def allocTable (g : Gc) (t : Table) : Option (Gc × GcRef .table) :=
  g.alloc .table t (estTableSize + t.array.length * 16 + t.hashSize * 32)

def allocClosure (g : Gc) (cl : Closure) : Option (Gc × GcRef .closure) :=
  g.alloc .closure cl estClosureSize

def allocUpvalue (g : Gc) (uv : Upvalue) : Option (Gc × GcRef .upvalue) :=
  g.alloc .upvalue uv estUpvalueSize

/-- A userdata is numbered in the order of allocation. -/
def allocUserdata (g : Gc) (ud : Userdata) : Option (Gc × GcRef .userdata) :=
  let seq := g.gcState.udAllocSeq
  { g with gcState := { g.gcState with udAllocSeq := seq + 1 } }.alloc .userdata
    { ud with allocSeq := seq } estUserdataSize

def allocThread (g : Gc) (t : LuaThread) : Option (Gc × GcRef .thread) :=
  g.alloc .thread t estThreadSize

/-- Interns a string. Memory is only tracked when a new string was created. -/
def internString (g : Gc) (data : List UInt8) : Option (Gc × GcRef .string) := do
  let (strings, heap, r) ← g.heap.intern g.strings data g.currentWhite
  let size := if g.heap.strings.len < heap.strings.len then estStringSize + data.length else 0
  some ({ g with strings, heap }.trackAlloc size, r)

/-- Interns a static literal, cached under its address `key`. In the middle of a cycle the string is
    coloured black, since the roots have been marked already. -/
def internStringStatic (g : Gc) (key : ℕ) (data : List UInt8) : Option (Gc × GcRef .string) :=
  match g.staticInternCache.lookup key with
  | some r => some (g, r)
  | none => do
    let (g, r) ← g.internString data
    let heap := match g.gcState.phase with
      | .pause => g.heap
      | .propagate | .sweepString | .sweep | .finalize => g.heap.setColor ⟨_, r⟩ .black
    some ({ g with heap, staticInternCache := (key, r) :: g.staticInternCache }, r)

/-- Interns a list of names, in order. -/
def internAll : List String → Gc → Option (Gc × List (GcRef .string))
  | [], g => some (g, [])
  | name :: names, g => do
    let (g, r) ← g.internString name.toUTF8.data.toList
    let (g, rs) ← internAll names g
    some (g, r :: rs)

/-- Writing through `get_mut`. -/
def modify (g : Gc) {k : ObjKind} (r : GcRef k) (f : Obj k → Obj k) : Gc :=
  { g with heap := g.heap.modify r f }

end Gc

/-- The names of the metamethods. -/
def tmNames : List String :=
  ["__index", "__newindex", "__gc", "__mode", "__eq", "__add", "__sub", "__mul", "__div", "__mod",
    "__pow", "__unm", "__len", "__lt", "__le", "__concat", "__call"]

def typeNames : List String :=
  ["nil", "boolean", "number", "string", "function", "userdata", "thread", "table", "userdata"]

def hookEventNames : List String := ["call", "return", "tail return", "count", "line"]

def hookMaskNames : List String := ["", "c", "r", "cr", "l", "cl", "rl", "crl"]

def debugInfoFieldNames : List String :=
  ["source", "short_src", "linedefined", "lastlinedefined", "what", "currentline", "nups", "name",
    "namewhat", "func", "activelines"]

/-- `Gc::new`: an empty heap with the metamethod and type names interned. -/
def Gc.new : Option Gc := do
  let (g, tmNames) ← Gc.internAll Vm.tmNames {}
  let (g, typeNameRefs) ← g.internAll typeNames
  some { g with tmNames := tmNames.map some, typeNameRefs := typeNameRefs.map some }

/-- The machine. `savedThreads` are the threads the running one was resumed from, last first, and
    `resumeCalls` the `saved_current_thread` of each call of `auxresume` in progress. -/
structure LuaState extends ThreadFields where
  gc : Gc
  registry : GcRef .table
  globalSlots : Option GlobalSlotRuntime := none
  currentThread : Option (GcRef .thread) := none
  savedThreads : List LuaThread := []
  resumeCalls : List (Option (GcRef .thread)) := []
  hookEventNames : List (GcRef .string)
  hookMaskNames : List (GcRef .string)
  debugInfoFieldNames : List (GcRef .string)

namespace LuaState

def new : Option LuaState := do
  let g ← Gc.new
  let (g, hookEventNames) ← g.internAll Vm.hookEventNames
  let (g, hookMaskNames) ← g.internAll Vm.hookMaskNames
  let (g, debugInfoFieldNames) ← g.internAll Vm.debugInfoFieldNames
  let (g, global) ← g.allocTable {}
  let (gc, registry) ← g.allocTable {}
  some { stack := List.replicate basicStackSize Val.nil, base := 1, top := 1,
         callStack := [CallInfo.initial], global, gc, registry, hookEventNames, hookMaskNames,
         debugInfoFieldNames }

/-! ### The stack -/

def stackGet (s : LuaState) (idx : ℕ) : Val := s.stack[idx]?.getD .nil

/-- Sets a stack slot, growing the stack with nils if needed. -/
def stackSet (s : LuaState) (idx : ℕ) (v : Val) : LuaState :=
  { s with stack := (s.stack ++ List.replicate (idx + 1 - s.stack.length) Val.nil).set idx v }

def push (s : LuaState) (v : Val) : LuaState := { s.stackSet s.top v with top := s.top + 1 }

/-- Sets `top`. The slots of a frame start out as nil, so slots that come into use are cleared. -/
def setTop (s : LuaState) (top : ℕ) : LuaState :=
  if top ≤ s.top then { s with top }
  else
    { s with stack := s.stack.take s.top ++ List.replicate (top - s.top) Val.nil ++ s.stack.drop top, top }

/-! ### Thread swap -/

/-- The open upvalues of the running thread with their stack slots. -/
def openPairs (s : LuaState) : List (GcRef .upvalue × ℕ) :=
  s.openUpvalues.filterMap fun uv => do
    let x ← s.gc.heap.get uv
    let idx ← Upvalue.stackIndex x
    some (uv, idx)

/-- Closes the given upvalues, capturing their values from the stack. -/
def closeAll (s : LuaState) (pairs : List (GcRef .upvalue × ℕ)) : LuaState :=
  { s with gc := pairs.foldl (fun g p => g.modify p.1 fun uv => Upvalue.close uv s.stack) s.gc }

/-- Reopens an upvalue that was closed when its thread was left: the value goes back to the stack. -/
def reopen (s : LuaState) (p : GcRef .upvalue × ℕ) : LuaState :=
  let stack := match s.gc.heap.get p.1 with
    | some ⟨.closed value⟩ => s.stack.set p.2 value
    | _ => s.stack
  { s with
    stack
    gc := s.gc.modify p.1 fun _ => Upvalue.newOpen p.2
    openUpvalues := if p.1 ∈ s.openUpvalues then s.openUpvalues else s.openUpvalues ++ [p.1] }

/-- `save_thread_state`: the state of the running thread, about to be left by a resume. -/
def saveThreadState (s : LuaState) (suspendedUpvals : List (GcRef .upvalue × ℕ)) : LuaThread where
  toThreadFields := s.toThreadFields
  suspendedUpvals
  status := .normal

/-- The stack slot an upvalue is open at, 0 if it is not open. -/
def upvalueIndex (s : LuaState) (uv : GcRef .upvalue) : ℕ :=
  ((s.gc.heap.get uv).bind Upvalue.stackIndex).getD 0

/-- What is left of a coroutine in the arena while it runs. -/
def shell (t : LuaThread) (status : ThreadStatus) : LuaThread :=
  { t with stack := [], callStack := [], openUpvalues := [], errorObject := none, hookFunc := .nil
           suspendedUpvals := [], status }

/-- `load_thread_by_ref`: makes a coroutine the running thread and reopens its upvalues. -/
def loadThreadByRef (s : LuaState) (co : GcRef .thread) (newStatus : ThreadStatus) : LuaState :=
  match s.gc.heap.get co with
  | some t =>
    let t : LuaThread := t
    let s := { s with toThreadFields := t.toThreadFields, gc := s.gc.modify co fun _ => shell t newStatus }
    let s := t.suspendedUpvals.foldl reopen s
    { s with openUpvalues :=
        s.openUpvalues.insertionSort fun a b => s.upvalueIndex b ≤ s.upvalueIndex a }
  | none => s

/-- `save_and_restore_by_ref`: stores the running thread in its coroutine and makes the resumer the
    running thread. -/
def saveAndRestoreByRef (s : LuaState) (co : GcRef .thread) (status : ThreadStatus) (resumer : LuaThread) :
    LuaState :=
  let suspendedUpvals := s.openPairs
  let s := s.closeAll suspendedUpvals
  let gc := s.gc.modify co fun _ => { toThreadFields := s.toThreadFields, suspendedUpvals, status }
  let s := { s with toThreadFields := resumer.toThreadFields, gc }
  resumer.suspendedUpvals.foldl reopen s

end LuaState

end Rilua.Vm
