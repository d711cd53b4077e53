import Rilua.Lib.Window
import Rilua.Vm.State

/-! The call machinery (`vm/execute.rs`): setting up the frame of a callee in place on the stack, and
    moving its results to where the caller wants them. Call and return hooks, taint and secret contexts
    are left out. -/

namespace Rilua.Vm

open Lib Gc

/-- Limit on the number of frames. -/
def maxCalls : ℕ := 20000

/-- The function has a `...` parameter. -/
def Proto.isVarargFn (p : Proto) : Bool := p.isVararg &&& 2 != 0

/-- The function has an `arg` table instead of using `...`. -/
def Proto.needsArg (p : Proto) : Bool := p.isVararg &&& 4 != 0

/-- The events metamethods are looked up for, in the order of their names. -/
inductive TMS where
  | index | newIndex | gc | mode | eq | add | sub | mul | div | mod | pow | unm | len | lt | le | concat | call
  deriving DecidableEq, Repr

/-- Index of a value in the table of type metatables. -/
def typeTag : Val → ℕ
  | .nil => 0
  | .bool _ => 1
  | .num _ => 2
  | .str _ => 3
  | .function _ => 4
  | .userdata _ => 5
  | .thread _ => 6
  | .table _ => 7
  | .lightUserdata _ => 8

/-- The closure of a function value. -/
def Val.closureRef : Val → Option (GcRef .closure)
  | .function r => some r
  | _ => none

namespace Gc

/-- The metatable of a value. -/
def metatableOf (g : Gc) (v : Val) : Option (GcRef .table) :=
  match v with
  | .table r => do
    let t ← g.heap.get r
    Table.metatable t
  | .userdata r => do
    let u ← g.heap.get r
    Userdata.metatable u
  | _ => g.typeMetatables[typeTag v]?.join

/-- `gettmbyobj`: the metamethod of a value for an event. -/
def gettmbyobj (g : Gc) (v : Val) (event : TMS) : Option Val := do
  let name ← g.tmNames[event.ctorIdx]?.join
  let mt ← g.metatableOf v
  let t ← g.heap.get mt
  let result ← Table.getStr t name (g.heap.arena .string)
  if result.isNil then none else some result

/-- Assigns values to the keys after `i`. A failure of an assignment is ignored. -/
def setExtras (strings : StringArena) : ℕ → List Val → Table → Option Table
  | _, [], t => some t
  | i, v :: vs, t => do
    let (t, _) ← t.rawSet (.num (F64.ofInt (i + 1))) v strings
    setExtras strings (i + 1) vs t

/-- The `arg` table: the extra arguments under 1, 2, … and their number under "n". -/
def argTable (g : Gc) (extras : List Val) : Option (Gc × GcRef .table) := do
  let t ← setExtras (g.heap.arena .string) 0 extras {}
  let (g, nKey) ← g.internString "n".toUTF8.data.toList
  let (t, _) ← t.rawSet (.str nKey) (.num (F64.ofInt extras.length)) (g.heap.arena .string)
  g.allocTable t

/-- The `arg` table of a call, if the function has one. -/
def argTableOf (g : Gc) (proto : Proto) (extras : List Val) : Option (Gc × Option (GcRef .table)) :=
  if proto.needsArg then (g.argTable extras).map fun (g, r) => (g, some r) else some (g, none)

end Gc

/-- Errors of a call; `exhausted` is a panic of the allocator. -/
inductive CallError where
  | stackOverflow
  | notCallable (v : Val)
  | invalidFunction
  | exhausted
  deriving DecidableEq

/-- What was called: the frame is set up, and the interpreter loop or the native function is to run. -/
inductive CallResult where
  | lua (cl : LuaClosure)
  | rust (cl : RustClosure)

namespace LuaState

/-- `stack[lo..hi].fill(Val::Nil)`. -/
def fillNil (s : LuaState) (lo hi : ℕ) : LuaState :=
  { s with stack := putAll .nil s.stack lo (List.replicate (hi - lo) .nil) }

/-- The values of the slots from `lo` up to `hi`. -/
def slots (s : LuaState) (lo hi : ℕ) : List Val := window s.stackGet lo hi

def ensureStackLen (s : LuaState) (needed : ℕ) : LuaState := { s with stack := grow .nil s.stack needed }

/-- Number of arguments on the stack above `func`. -/
def getNargs (s : LuaState) (funcIdx : ℕ) : ℕ := if s.top > funcIdx + 1 then s.top - funcIdx - 1 else 0

/-- `push_ci`: a frame above the current one, in the place of a stale one if there is one. -/
def pushCi (s : LuaState) (c : CallInfo) : LuaState :=
  let newIdx := s.ci + 1
  { s with
    callStack := if newIdx < s.callStack.length then s.callStack.set newIdx c else s.callStack ++ [c]
    ci := newIdx }

def popCi (s : LuaState) : LuaState := { s with ci := s.ci - 1 }

/-- The frame at an index of the call stack. -/
def callInfo (s : LuaState) (i : ℕ) : CallInfo := s.callStack[i]?.getD CallInfo.initial

/-- Writing to the frame at an index of the call stack. -/
def modifyCallInfo (s : LuaState) (i : ℕ) (f : CallInfo → CallInfo) : LuaState :=
  { s with callStack := s.callStack.modify i f }

/-! ### Setting up a frame -/

/-- Pads the arguments with nil: `n` are missing. -/
def padNil : ℕ → LuaState → LuaState
  | 0, s => s
  | n + 1, s => padNil n (s.push .nil)

/-- Copies `n` fixed parameters from `src` to the top, leaving nil behind. -/
def copyParams (src : ℕ) : ℕ → LuaState → LuaState
  | 0, s => s
  | n + 1, s => copyParams (src + 1) n ((s.push (s.stackGet src)).stackSet src .nil)

/-- The copying part of `adjust_varargs`: the fixed parameters and the `arg` table go above the extra
    arguments. The second result is the base of the frame. -/
def relocate (s : LuaState) (proto : Proto) (fixed : ℕ) (arg : Option (GcRef .table)) : LuaState × ℕ :=
  let numParams := proto.numParams.toNat
  let newBase := s.top
  let s := s.ensureStackLen (newBase + numParams + 1)
  let s := copyParams fixed numParams s
  match arg with
  | some r => (s.push (.table r), newBase)
  | none => (s, newBase)

/-- `adjust_varargs`. -/
def adjustVarargs (s : LuaState) (proto : Proto) (nargs : ℕ) : Option (LuaState × ℕ) :=
  let numParams := proto.numParams.toNat
  let s := padNil (numParams - nargs) s
  let actual := max nargs numParams
  let fixed := s.top - actual
  (s.gc.argTableOf proto (s.slots (fixed + numParams) (fixed + actual))).map fun (gc, arg) =>
    { s with gc }.relocate proto fixed arg

/-- The parameters of a function without `...`: missing ones become nil, extra ones are cut off. The second
    result is the base of the frame. -/
def adjustFixed (s : LuaState) (proto : Proto) (nargs funcIdx : ℕ) : LuaState × ℕ :=
  let numParams := proto.numParams.toNat
  let newBase := funcIdx + 1
  let fixedTop := newBase + numParams
  let s := s.ensureStackLen (newBase + proto.maxStackSize.toNat)
  if nargs > numParams then ({ s with top := fixedTop }, newBase)
  else if s.top < fixedTop then ({ s.fillNil s.top fixedTop with top := fixedTop }, newBase)
  else (s, newBase)

/-- The frame of a Lua function: after the parameters, its registers are nil. -/
def pushFrame (s : LuaState) (proto : Proto) (funcIdx newBase : ℕ) (numResults : Option ℕ) : LuaState :=
  let ciTop := newBase + proto.maxStackSize.toNat
  let s := s.ensureStackLen ciTop
  let s := if s.top < ciTop then s.fillNil s.top ciTop else s
  let s := { s with top := ciTop }
  let s := s.pushCi { func := funcIdx, base := newBase, top := ciTop, numResults }
  { s with base := newBase }

/-- Enters a Lua function. -/
def enterLua (s : LuaState) (cl : LuaClosure) (funcIdx : ℕ) (numResults : Option ℕ) : Option LuaState :=
  let nargs := s.getNargs funcIdx
  let adjusted :=
    if cl.proto.isVarargFn then s.adjustVarargs cl.proto nargs
    else some (s.adjustFixed cl.proto nargs funcIdx)
  adjusted.map fun (s, newBase) => s.pushFrame cl.proto funcIdx newBase numResults

/-- The frame of a native function: its arguments are where they are. -/
def enterRust (s : LuaState) (funcIdx : ℕ) (numResults : Option ℕ) : LuaState :=
  let s := s.ensureStackLen (s.top + luaMinStack)
  let ciTop := s.top + luaMinStack
  let s := s.pushCi { func := funcIdx, base := funcIdx + 1, top := ciTop, numResults }
  { s with base := funcIdx + 1 }

/-- The limit on the number of frames. Once in overflow there is headroom for error handlers. -/
def overflows (s : LuaState) : Bool :=
  let nextCi := s.ci + 1
  if s.ciOverflow then maxCalls * 2 ≤ nextCi else maxCalls ≤ nextCi

/-- Puts a `__call` handler in the place of the called value, which becomes the first argument: the arguments
    move up by one slot. -/
def insertCallee (s : LuaState) (funcIdx : ℕ) (r : GcRef .closure) : LuaState :=
  let top := s.top
  let s := s.ensureStackLen (top + 1)
  let s := { s with stack := shiftUp .nil funcIdx (top - funcIdx) s.stack, top := top + 1 }
  s.stackSet funcIdx (.function r)

/-- The function to call, which is the `__call` handler of a value that is no function. -/
def resolveCallee (s : LuaState) (funcIdx : ℕ) : Except CallError (LuaState × GcRef .closure) :=
  let funcVal := s.stackGet funcIdx
  match funcVal.closureRef with
  | some r => .ok (s, r)
  | none =>
    match (s.gc.gettmbyobj funcVal .call).bind Val.closureRef with
    | some r => .ok (s.insertCallee funcIdx r, r)
    | none => .error (.notCallable funcVal)

/-- `precall` up to the point where a native function runs. -/
def precall (s : LuaState) (funcIdx : ℕ) (numResults : Option ℕ) :
    Except CallError (LuaState × CallResult) :=
  if s.overflows then .error .stackOverflow
  else
    match s.resolveCallee funcIdx with
    | .error e => .error e
    | .ok (s, r) =>
      match s.gc.heap.get r with
      | none => .error .invalidFunction
      | some (.lua cl) =>
        match s.enterLua cl funcIdx numResults with
        | some s => .ok (s, .lua cl)
        | none => .error .exhausted
      | some (.rust cl) => .ok (s.enterRust funcIdx numResults, .rust cl)

/-! ### Leaving a frame -/

/-- `poscall`: unwinds the current frame and moves its results, from `firstResult` up to the top, to where
    the function was. True if the caller asked for a fixed number of results. -/
def poscall (s : LuaState) (firstResult : ℕ) : LuaState × Bool :=
  let ciFunc := (s.callInfo s.ci).func
  let wanted := (s.callInfo s.ci).numResults
  let s := s.popCi
  let s := { s with base := (s.callInfo s.ci).base }
  match wanted with
  | none =>
    let count := s.top - firstResult
    ({ s with stack := putAll .nil s.stack ciFunc (s.slots firstResult s.top), top := ciFunc + count }, false)
  | some 0 => ({ s with top := ciFunc }, true)
  | some 1 =>
    let result := if firstResult < s.top then s.stackGet firstResult else .nil
    ({ s.stackSet ciFunc result with top := ciFunc + 1 }, true)
  | some wanted =>
    let available := min (s.top - firstResult) wanted
    let s := { s with stack := putAll .nil s.stack ciFunc (s.slots firstResult (firstResult + available)) }
    let newTop := ciFunc + wanted
    let s := s.ensureStackLen newTop
    let s := s.fillNil (ciFunc + available) newTop
    ({ s with top := newTop }, true)

end LuaState

end Rilua.Vm
