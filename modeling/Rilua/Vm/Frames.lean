import Rilua.Vm.CallMachine
import Mathlib.Data.List.TakeDrop

/-! What calling a function means, without a stack: every invocation is a frame of its own, with its
    registers and its extra arguments. A frame in the middle of a call has the registers below the one the
    function was called in, and the results of the call are appended to them. Registers above these are
    whatever the machine leaves there. -/

namespace Rilua.Vm

open Gc

/-- How a frame was entered: by an `OP_CALL`, after which the caller has all its registers again, by a
    `TAILCALL` of a native function, or from native code. -/
inductive Entry where | call | tailCall | native | host
  deriving DecidableEq, Repr

/-- One invocation. `proto` is the prototype of a Lua function; `window` is the number of registers. -/
structure Frame where
  proto : Option Proto := none
  regs : List Val
  varargs : List Val := []
  wanted : Option ℕ
  window : ℕ
  pc : ℕ := 0
  entry : Entry

/-- The invocation with its results owed elsewhere. -/
def owing (wanted : Option ℕ) (entry : Entry) (f : Frame) : Frame := { f with wanted, entry }

/-- The invocations in progress, innermost first, and the heap. -/
structure Calls where
  frames : List Frame
  gc : Gc

/-- The registers `regs` with their number changed to `n`. Added ones have any value. -/
def Resized (n : ℕ) (regs regs' : List Val) : Prop := regs'.length = n ∧ regs.take n <+: regs'

/-- The registers at an instruction whose operand `b` says where they end, if it is not 0. -/
def Opened (b n : ℕ) (regs regs' : List Val) : Prop := if b = 0 then regs' = regs else Resized n regs regs'

/-- The results a caller gets, of those a function returns. -/
def deliver (wanted : Option ℕ) (results : List Val) : List Val :=
  match wanted with
  | none => results
  | some n => results.takeD n .nil

/-- The parameters of a Lua function called with `args`. -/
def Proto.params (p : Proto) (args : List Val) : List Val := args.takeD p.numParams.toNat .nil

/-- The arguments of a call that have no parameter. -/
def Proto.extras (p : Proto) (args : List Val) : List Val := args.drop p.numParams.toNat

/-- The function to call and its arguments. -/
def resolve (g : Gc) (f : Val) (args : List Val) : Option (GcRef .closure × List Val) :=
  match f.closureRef with
  | some r => some (r, args)
  | none => ((g.gettmbyobj f .call).bind Val.closureRef).map fun r => (r, f :: args)

/-- The frame of a Lua function, with its `arg` table if it has one. -/
def Frame.ofLua (p : Proto) (args : List Val) (arg : Option (GcRef .table)) (wanted : Option ℕ)
    (entry : Entry) : Frame where
  proto := some p
  regs := (p.params args ++ (arg.map Val.table).toList).takeD p.maxStackSize.toNat .nil
  varargs := if p.isVarargFn then p.extras args else []
  wanted
  window := p.maxStackSize.toNat
  entry

/-- The frame of a native function. -/
def Frame.ofRust (args : List Val) (wanted : Option ℕ) (entry : Entry) : Frame where
  regs := args
  wanted
  window := args.length + luaMinStack
  entry

/-- The frame of a function called with `args`. -/
def enter (g : Gc) (r : GcRef .closure) (args : List Val) (wanted : Option ℕ) (entry : Entry) :
    Option (Gc × Frame) :=
  match g.heap.get r with
  | some (.lua cl) =>
    if cl.proto.isVarargFn then
      (g.argTableOf cl.proto (cl.proto.extras args)).map fun (g, arg) =>
        (g, .ofLua cl.proto args arg wanted entry)
    else some (g, .ofLua cl.proto args none wanted entry)
  | some (.rust _) => some (g, .ofRust args wanted entry)
  | none => none

/-- The caller `f` of a function that was entered by `entry` and returns `results`. -/
inductive Receives (wanted : Option ℕ) (entry : Entry) (results : List Val) (f : Frame) : Frame → Prop
  | all (h : wanted = none ∨ entry ≠ .call) :
    Receives wanted entry results f { f with regs := f.regs ++ deliver wanted results }
  | restored {regs : List Val} (h : wanted.isSome) (h' : entry = .call)
      (hr : Resized f.window (f.regs ++ deliver wanted results) regs) :
    Receives wanted entry results f { f with regs }

/-- Writes values over the registers from `a` on. -/
def overlay (a : ℕ) (vals regs : List Val) : List Val :=
  (regs.take a ++ vals ++ regs.drop (a + vals.length)).take regs.length

/-- Writes a register of the frame with index `j`, counted from the outermost. -/
def setReg (j i : ℕ) (v : Val) : List Frame → List Frame
  | [] => []
  | f :: fs => if fs.length = j then { f with regs := f.regs.set i v } :: fs else f :: setReg j i v fs

namespace Calls

/-- The steps of a machine with frames of their own. -/
inductive Step : Calls → MachineOp → Calls → Prop
  | write (i : ℕ) (v : Val) (f : Frame) (fs : List Frame) (g : Gc) :
    Step ⟨f :: fs, g⟩ (.write i v) ⟨{ f with regs := f.regs.set i v } :: fs, g⟩
  | push (v : Val) (f : Frame) (fs : List Frame) (g : Gc) :
    Step ⟨f :: fs, g⟩ (.push v) ⟨{ f with regs := f.regs ++ [v] } :: fs, g⟩
  | setTop {n : ℕ} {f : Frame} {regs : List Val} (fs : List Frame) (g : Gc) (h : Resized n f.regs regs) :
    Step ⟨f :: fs, g⟩ (.setTop n) ⟨{ f with regs } :: fs, g⟩
  /-- A native function sees the arguments it was called with, and nil after the last. -/
  | arg {f : Frame} (access : ArgAccess) (n : ℕ) (fs : List Frame) (g : Gc) (hf : f.proto = none) :
    Step ⟨f :: fs, g⟩ (.arg access n) ⟨{ f with regs := f.regs ++ [f.regs[n]?.getD .nil] } :: fs, g⟩
  | setUpval (j i : ℕ) (v : Val) (fs : List Frame) (g : Gc) :
    Step ⟨fs, g⟩ (.setUpval j i v) ⟨setReg j i v fs, g⟩
  | heap (fs : List Frame) (g g' : Gc) : Step ⟨fs, g⟩ (.heap g') ⟨fs, g'⟩
  | call {pc a b c : ℕ} {f f' : Frame} {below args args' : List Val} {func : Val} {r : GcRef .closure}
      {fs : List Frame} {g g' : Gc} (hf : f.proto.isSome) (hlen : below.length = a)
      (hregs : Opened b (a + b) f.regs (below ++ func :: args)) (hres : resolve g func args = some (r, args'))
      (hent : enter g r args' (if c = 0 then none else some (c - 1)) .call = some (g', f')) :
    Step ⟨f :: fs, g⟩ (.call pc a b c) ⟨f' :: { f with regs := below, pc } :: fs, g'⟩
  /-- A Lua function called in tail position replaces its caller and owes its results to whom the caller
      did. -/
  | tailCallLua {pc a b : ℕ} {f f' : Frame} {below args args' : List Val} {func : Val} {r : GcRef .closure}
      {fs : List Frame} {g g' : Gc} (hf : f.proto.isSome) (hlen : below.length = a)
      (hregs : Opened b (a + b) f.regs (below ++ func :: args)) (hres : resolve g func args = some (r, args'))
      (hent : enter g r args' f.wanted f.entry = some (g', f')) (hlua : f'.proto.isSome) :
    Step ⟨f :: fs, g⟩ (.tailCall pc a b) ⟨f' :: fs, g'⟩
  | tailCallRust {pc a b : ℕ} {f f' : Frame} {below args args' : List Val} {func : Val} {r : GcRef .closure}
      {fs : List Frame} {g g' : Gc} (hf : f.proto.isSome) (hlen : below.length = a)
      (hregs : Opened b (a + b) f.regs (below ++ func :: args)) (hres : resolve g func args = some (r, args'))
      (hent : enter g r args' none .tailCall = some (g', f')) (hrust : f'.proto = none) :
    Step ⟨f :: fs, g⟩ (.tailCall pc a b) ⟨f' :: { f with regs := below, pc } :: fs, g'⟩
  | ret {a b : ℕ} {f caller caller' : Frame} {regs : List Val} {fs : List Frame} {g : Gc}
      (hf : f.proto.isSome) (hregs : Opened b (a + b - 1) f.regs regs)
      (hrec : Receives f.wanted f.entry (regs.drop a) caller caller') :
    Step ⟨f :: caller :: fs, g⟩ (.ret a b) ⟨caller' :: fs, g⟩
  | varArg {a b : ℕ} {f : Frame} (fs : List Frame) (g : Gc) (hf : f.proto.isSome) (hb : b ≠ 0) :
    Step ⟨f :: fs, g⟩ (.varArg a b)
      ⟨{ f with regs := overlay a (f.varargs.takeD (b - 1) .nil) f.regs } :: fs, g⟩
  | varArgOpen {a : ℕ} {f : Frame} {below : List Val} (fs : List Frame) (g : Gc) (hf : f.proto.isSome)
      (hregs : Resized a f.regs below) :
    Step ⟨f :: fs, g⟩ (.varArg a 0) ⟨{ f with regs := below ++ f.varargs } :: fs, g⟩
  | callFunction {i : ℕ} {wanted : Option ℕ} {f f' : Frame} {below args args' : List Val} {func : Val}
      {r : GcRef .closure} {fs : List Frame} {g g' : Gc} (hlen : below.length = i)
      (hregs : f.regs = below ++ func :: args) (hres : resolve g func args = some (r, args'))
      (hent : enter g r args' wanted .native = some (g', f')) :
    Step ⟨f :: fs, g⟩ (.callFunction i wanted) ⟨f' :: { f with regs := below } :: fs, g'⟩
  | retRust {n : ℕ} {f caller caller' : Frame} {fs : List Frame} {g : Gc} (hf : f.proto = none)
      (hrec : Receives f.wanted f.entry (f.regs.drop (f.regs.length - n)) caller caller') :
    Step ⟨f :: caller :: fs, g⟩ (.retRust n) ⟨caller' :: fs, g⟩
  | unwind {j : ℕ} {f : Frame} {regs : List Val} {inner fs : List Frame} {g : Gc} (hj : fs.length = j)
      (hf : f.proto = none) (hregs : f.regs <+: regs) :
    Step ⟨inner ++ f :: fs, g⟩ (.unwind j) ⟨{ f with regs } :: fs, g⟩

/-- A run of steps. -/
inductive Steps : Calls → List MachineOp → Calls → Prop
  | nil (a : Calls) : Steps a [] a
  | cons {a a' a'' : Calls} {op : MachineOp} {ops : List MachineOp} (h : Step a op a') (hs : Steps a' ops a'') :
    Steps a (op :: ops) a''

theorem Steps.append {a a' a'' : Calls} {ops ops' : List MachineOp} (h : Steps a ops a') (h' : Steps a' ops' a'') :
    Steps a (ops ++ ops') a'' := by
  induction h with
  | nil => exact h'
  | cons hstep _ ih => exact .cons hstep (ih h')

end Calls

end Rilua.Vm
