import Rilua.Lib.Run
import Rilua.Vm.Call

/-! One thread calling functions: the machine of `execute`, `call_function` and the native functions, as
    far as they set up and leave frames. What an instruction or a native function does besides is given
    by the registers it writes. The interpreter loops and native functions in progress, which the code
    keeps on the native stack, are a list. -/

namespace Rilua.Vm

open Lib Gc

/-- How a native function reads its arguments: with the helper `arg` of most libraries, or straight from
    the stack as the `arg` of `coroutine` does. -/
inductive ArgAccess where | checked | unchecked
  deriving DecidableEq, Repr

/-- What is in progress on the native stack: the interpreter loop with its count of Lua calls, or a native
    function and what called it. -/
inductive Activation where
  | execute (nexeccalls : ℕ)
  | opCall (c : ℕ)
  | opTailCall
  | callFunction
  deriving DecidableEq

/-- The thread, and the native stack with the innermost activation first. -/
structure Machine where
  st : LuaState
  native : List Activation

/-- What a step does. `pc` is the program counter after the instruction. -/
inductive MachineOp where
  /-- Writes a slot of the current frame. -/
  | write (i : ℕ) (v : Val)
  | push (v : Val)
  | setTop (n : ℕ)
  /-- Reads an argument and pushes it. -/
  | arg (access : ArgAccess) (n : ℕ)
  /-- Writes a register of the frame with index `frame` through an open upvalue. -/
  | setUpval (frame i : ℕ) (v : Val)
  /-- Changes the heap. -/
  | heap (g : Gc)
  | call (pc a b c : ℕ)
  | tailCall (pc a b : ℕ)
  | ret (a b : ℕ)
  | varArg (a b : ℕ)
  /-- Calls the function in a slot of the current frame from native code. -/
  | callFunction (i : ℕ) (numResults : Option ℕ)
  /-- Returns from a native function. -/
  | retRust (n : ℕ)
  /-- Catches an error in the native function whose frame has index `frame`. -/
  | unwind (frame : ℕ)

/-- The prototype of the Lua function a value refers to. -/
def Gc.protoOf (g : Gc) (v : Val) : Option Proto :=
  match v with
  | .function r =>
    match g.heap.get r with
    | some (.lua cl) => some cl.proto
    | _ => none
  | _ => none

namespace LuaState

/-- Argument `n` of the current native function. -/
def arg (s : LuaState) (access : ArgAccess) (n : ℕ) : Val :=
  match access with
  | .checked => if s.base + n < s.top then s.stackGet (s.base + n) else .nil
  | .unchecked => s.stackGet ((s.callInfo s.ci).func + 1 + n)

/-- The copying loop of `VARARG`: `n` values are wanted, of which `avail` exist. -/
def copyVarargs : ℕ → (src dst avail : ℕ) → LuaState → LuaState
  | 0, _, _, _, s => s
  | n + 1, src, dst, avail, s =>
    copyVarargs n (src + 1) (dst + 1) (avail - 1)
      (s.stackSet dst (if 0 < avail then s.stackGet src else .nil))

/-- `VARARG`. -/
def opVarArg (s : LuaState) (proto : Proto) (a b : ℕ) : LuaState :=
  let ra := s.base + a
  let ciFunc := (s.callInfo s.ci).func
  let varargStart := ciFunc + 1 + proto.numParams.toNat
  let numVarargs := s.base - varargStart
  let wanted := if b = 0 then numVarargs else b - 1
  let s := s.ensureStackLen (s.top + (ra + wanted))
  let s := copyVarargs wanted varargStart ra numVarargs s
  if b = 0 then { s with top := ra + wanted } else s

/-- `OP_CALL` up to the call. -/
def openCall (s : LuaState) (pc a b : ℕ) : LuaState :=
  let s := if b ≠ 0 then { s with top := s.base + a + b } else s
  s.modifyCallInfo s.ci fun c => { c with savedPc := pc }

/-- `TAILCALL` after `precall`: the frame of the callee takes the place of the one below. -/
def replaceFrame (s : LuaState) : LuaState :=
  let prevCi := s.ci - 1
  let oldFunc := (s.callInfo prevCi).func
  let newFunc := (s.callInfo s.ci).func
  let baseOffset := (s.callInfo s.ci).base - newFunc
  let savedPc := (s.callInfo s.ci).savedPc
  let aux := s.top - newFunc
  let s := s.modifyCallInfo prevCi fun c =>
    { c with base := oldFunc + baseOffset, top := oldFunc + aux, savedPc }
  { s with base := oldFunc + baseOffset
           stack := copyUp .nil newFunc oldFunc aux s.stack
           top := oldFunc + aux }.popCi

/-- `top = ci.top`. -/
def restoreTop (s : LuaState) : LuaState := { s with top := (s.callInfo s.ci).top }

end LuaState

namespace Machine

open LuaState

/-- The native stack after an error was caught `n` frames below the current one. -/
def unwindNative : ℕ → List Activation → Option (List Activation)
  | 0, native => some native
  | n + 1, .execute k :: native => if k ≤ n + 1 then unwindNative (n + 1 - k) native else none
  | n + 1, _ :: native => unwindNative n native
  | _ + 1, [] => none

/-- An interpreter loop has returned from a Lua function, to its own caller after the last one. -/
def returned (s : LuaState) (fixedResults : Bool) (nexeccalls : ℕ) (native : List Activation) : Machine :=
  if nexeccalls = 0 then ⟨s, native⟩
  else ⟨if fixedResults then s.restoreTop else s, .execute nexeccalls :: native⟩

def step (m : Machine) : MachineOp → Option Machine
  | .write i v => some { m with st := m.st.stackSet (m.st.base + i) v }
  | .push v => some { m with st := m.st.push v }
  | .setTop n => some { m with st := { m.st with top := m.st.base + n } }
  | .arg access n =>
    match m.native with
    | .execute _ :: _ => none
    | _ => some { m with st := m.st.push (m.st.arg access n) }
  | .setUpval frame i v =>
    some { m with st := m.st.stackSet ((m.st.callInfo frame).base + i) v }
  | .heap g => some { m with st := { m.st with gc := g } }
  | .call pc a b c =>
    match m.native with
    | .execute n :: native =>
      match (m.st.openCall pc a b).precall (m.st.base + a) (if c = 0 then none else some (c - 1)) with
      | .ok (s, .lua _) => some ⟨s, .execute (n + 1) :: native⟩
      | .ok (s, .rust _) => some ⟨s, .opCall c :: .execute n :: native⟩
      | .error _ => none
    | _ => none
  | .tailCall pc a b =>
    match m.native with
    | .execute n :: native =>
      match (m.st.openCall pc a b).precall (m.st.base + a) none with
      | .ok (s, .lua _) => some ⟨s.replaceFrame, .execute n :: native⟩
      | .ok (s, .rust _) => some ⟨s, .opTailCall :: .execute n :: native⟩
      | .error _ => none
    | _ => none
  | .ret a b =>
    match m.native with
    | .execute n :: native =>
      let ra := m.st.base + a
      let s := if b ≠ 0 then { m.st with top := ra + b - 1 } else m.st
      let (s, fixedResults) := s.poscall ra
      some (returned s fixedResults (n - 1) native)
    | _ => none
  | .varArg a b =>
    match m.native with
    | .execute _ :: _ =>
      (m.st.gc.protoOf (m.st.stackGet (m.st.callInfo m.st.ci).func)).map fun proto =>
        { m with st := m.st.opVarArg proto a b }
    | _ => none
  | .callFunction i numResults =>
    match m.st.precall (m.st.base + i) numResults with
    | .ok (s, .lua _) => some ⟨s, .execute 1 :: m.native⟩
    | .ok (s, .rust _) => some ⟨s, .callFunction :: m.native⟩
    | .error _ => none
  | .retRust n =>
    match m.native with
    | .opCall c :: native =>
      let (s, _) := m.st.poscall (m.st.top - n)
      some ⟨if c ≠ 0 then s.restoreTop else s, native⟩
    | .opTailCall :: native | .callFunction :: native => some ⟨(m.st.poscall (m.st.top - n)).1, native⟩
    | _ => none
  | .unwind frame =>
    match unwindNative (m.st.ci - frame) m.native with
    | some (.execute _ :: _) | none => none
    | some native =>
      let s := { m.st with ci := frame }
      some ⟨{ s with base := (s.callInfo frame).base
                     ciOverflow := if frame < maxCalls then false else s.ciOverflow }, native⟩

end Machine

end Rilua.Vm
