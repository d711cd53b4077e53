import Rilua.Compiler.Ast
import Rilua.Compiler.Words
import Rilua.Lib.Lockstep

/-! The state of the code generator and how it writes instructions (`compiler/codegen.rs`): the function being
    compiled, expressions under way, and lists of jumps that wait for their target. The list goes through the
    offsets of its jumps, and ends with the offset -1.

    An index out of range ends the run, as does a walk along a list that never ends. A run may be watched for steps
    that the compiler takes without a check, and then stops in front of them. -/

namespace Rilua.Codegen

open Lib Vm Rilua.Compiler

/-- Largest number of registers of a function. -/
def maxStack : ℕ := 250

/-- Largest number of active local variables of a function. -/
def luaiMaxActiveVars : ℕ := 200

/-- Largest number of upvalues of a function. -/
def luaiMaxUpvalues : ℕ := 60

/-- The bit that marks a constant in an operand that may be a register or a constant. -/
def bitRk : ℕ := 256

/-- Largest index of a constant in such an operand. -/
def maxIndexRk : ℕ := 255

/-- No register. -/
def noReg : ℕ := 255

/-- Items of a constructor that one SETLIST stores. -/
def lfieldsPerFlush : ℕ := 50

def isK (x : ℕ) : Bool := x &&& bitRk ≠ 0

/-- Subtraction of 32-bit words, which wraps around. -/
def subU32 (m n : ℕ) : ℕ := (m + 2 ^ 32 - n % 2 ^ 32) % 2 ^ 32

inductive ExprKind where
  | void | nil | true | false | k | kNum | local | upval | global | indexed | jmp | relocable | nonReloc | call
  | varArg
  deriving DecidableEq

/-- An expression under way. `info` is a constant, a register, an upvalue or an instruction; `t` and `f` are the
    jumps taken where the expression is true or false. -/
structure ExprContext where
  kind : ExprKind
  info : ℕ := 0
  aux : ℕ := 0
  nval : F64 := .zero Bool.false
  t : Option ℕ := none
  f : Option ℕ := none

namespace ExprContext

def void : ExprContext := { kind := .void }

def new (kind : ExprKind) (info : ℕ) : ExprContext := { kind, info }

def number (val : F64) : ExprContext := { kind := .kNum, nval := val }

def hasJumps (e : ExprContext) : Bool := e.t ≠ e.f

def isNumeral (e : ExprContext) : Bool := e.kind = .kNum ∧ e.t = none ∧ e.f = none

end ExprContext

/-- How an upvalue is captured. -/
structure UpvalDesc where
  inStack : Bool
  index : ℕ
  name : String

/-- A lexical block. -/
structure BlockContext where
  numActiveVars : ℕ
  hasUpval : Bool := Bool.false
  isBreakable : Bool
  breakList : Option ℕ := none

/-- The key of a constant that occurs once. -/
inductive ConstantKey where
  | number (bits : ℕ)
  | boolean (value : Bool)
  deriving DecidableEq

/-- A prototype that is being built. -/
structure Draft (I : Type) where
  source : String
  code : List I := []
  constants : List Val := []
  protos : List (Draft I) := []
  lineInfo : List ℕ := []
  localVars : List LocalVar := []
  upvalueNames : List String := []
  lineDefined : ℕ := 0
  lastLineDefined : ℕ := 0
  numUpvalues : ℕ := 0
  numParams : ℕ := 0
  isVararg : UInt8 := 0
  maxStackSize : ℕ := 2
  stringPool : List StringPoolEntry := []

/-- The state of a function's compilation. `jpc` are the jumps that wait for the next instruction. The innermost
    block comes first. -/
structure FuncState (I : Type) where
  proto : Draft I
  freeReg : ℕ := 0
  numActiveVars : ℕ := 0
  upvalues : List UpvalDesc := []
  activeVars : List ℕ := []
  blocks : List BlockContext := []
  jpc : Option ℕ := none
  lastTarget : Option ℕ := none
  nilK : Option ℕ := none
  constantIndex : List (ConstantKey × ℕ) := []

namespace FuncState

variable {I : Type}

def new (source : String) : FuncState I := { proto := { source } }

/-- The index of the next instruction. -/
def pc (fs : FuncState I) : ℕ := fs.proto.code.length

end FuncState

/-- A step that the compiler takes without a check. -/
inductive Slip where
  /-- A jump gets its offset. -/
  | offset (offset : ℤ)
  /-- A CLOSURE gets the index of its prototype. -/
  | protoIndex (index : ℕ)
  /-- A local variable's index is narrowed. -/
  | localIndex (index : ℕ)
  /-- A numeral finds no place among the constants. -/
  | numeral
  /-- The number of a batch is read as an instruction. -/
  | batchNumber
  /-- A value is taken from the register below register 0. -/
  | noValue
  /-- An operand with jumps finds no register. -/
  | lostJumps
  /-- A numeral is put in a register above those of the operand on its right. -/
  | numeralAbove
  deriving DecidableEq

/-- Why a run ends early. -/
inductive Abort where
  | syntaxError (message source : String) (line : ℕ)
  | panic
  | loops
  | refused
  deriving DecidableEq

/-- The compiler: the innermost function first, then those around it. `watch` is what the run is watched for. -/
structure Compiler (I : Type) where
  fs : FuncState I
  enclosing : List (FuncState I) := []
  sourceName : String
  currentLine : ℕ := 1
  watch : Slip → Bool := fun _ => Bool.false

namespace Compiler

def new {I : Type} (sourceName : String) : Compiler I := { fs := .new sourceName, sourceName }

end Compiler

/-- A step of the code generator. -/
abbrev Gen (I : Type) : Type → Type := EStateM Abort (Compiler I)

section

variable {I α : Type}

def getFs (f : FuncState I → α) : Gen I α := observe fun s => f s.fs

def modifyFs (f : FuncState I → FuncState I) : Gen I Unit := change fun s => { s with fs := f s.fs }

def setLine (line : ℕ) : Gen I Unit := change fun s => { s with currentLine := line }

def currentLine : Gen I ℕ := observe (·.currentLine)

def sourceName : Gen I String := observe (·.sourceName)

def syntaxError (message : String) : Gen I α := do
  throw (.syntaxError message (← sourceName) (← currentLine))

/-- A value whose absence ends the run. -/
def orPanic : Option α → Gen I α
  | some a => pure a
  | none => throw .panic

/-- A step that is taken under a condition. -/
def onlyIf (c : Prop) [Decidable c] (x : Gen I Unit) : Gen I Unit := if c then x else pure ()

/-- A watched run stops here. -/
def slip (x : Slip) : Gen I Unit := do
  if ← observe (·.watch x) then throw .refused

/-- An error of the source is handled. -/
def recover (x : Gen I α) (handle : Abort → Gen I α) : Gen I α := fun s =>
  match x s with
  | .error (.syntaxError message source line) s => handle (.syntaxError message source line) s
  | r => r

end

section

variable {I : Type} [Words I]

/-! ### Reading and changing instructions -/

def getInstruction (pc : ℕ) : Gen I I := do
  orPanic (← getFs (·.proto.code[pc]?))

def setInstruction (pc : ℕ) (instr : I) : Gen I Unit := do
  if pc < (← getFs (·.pc)) then
    modifyFs fun fs => { fs with proto := { fs.proto with code := fs.proto.code.set pc instr } }
  else throw .panic

/-- Whether an instruction has one of the opcodes. -/
def isOp (instr : I) (ops : List OpCode) : Gen I Bool := do
  onlyIf (Words.looksLike instr ops) (slip .batchNumber)
  pure (Words.hasOpcode instr ops)

/-! ### Jumps -/

/-- Patches the jump at `pc` to a target. -/
def patchJump (pc target : ℕ) : Gen I Unit := do
  let offset : ℤ := target - pc - 1
  let instr ← getInstruction pc
  slip (.offset offset)
  setInstruction pc (Words.setSbx instr offset)

/-- The target of the jump at `pc`. -/
def getJumpTarget (pc : ℕ) : Gen I (Option ℕ) := do
  let offset := Words.sbx (← getInstruction pc)
  let target : ℤ := pc + 1 + offset
  if offset = -1 ∨ target = -1 then pure none
  else if target < 0 then throw .panic
  else pure (some target.toNat)

/-- No walk along a list of jumps is longer, unless it has no end. A patched jump may be met once more. -/
def longestWalk : Gen I ℕ := do
  pure (2 * (← getFs (·.pc)) + 3)

/-- The list `l2` behind the list `l1`. -/
def concatJumps (l1 l2 : Option ℕ) : Gen I (Option ℕ) :=
  match l1, l2 with
  | l1, none => pure l1
  | none, some l2 => pure (some l2)
  | some l1, some l2 => do
    repeatFor Abort.loops (fun list => do
      match ← getJumpTarget list with
      | none => do
        patchJump list l2
        pure (.inr ())
      | some next => pure (.inl next)) (← longestWalk) l1
    pure (some l1)

/-- `concat_jumps_result`: as `concatJumps`, for a list with a head. -/
def concatJumpsResult (l1 : ℕ) (l2 : Option ℕ) : Gen I ℕ := do
  let _ ← concatJumps (some l1) l2
  pure l1

/-- The instruction that controls the jump at `pc`: the test before it, or the jump. -/
def getJumpControl (pc : ℕ) : Gen I ℕ := do
  if 1 ≤ pc then
    let prev ← getInstruction (pc - 1)
    if ← isOp prev OpCode.testModes then pure (pc - 1) else pure pc
  else pure pc

/-- Whether a jump of the list leaves no value. -/
def needValue (list : Option ℕ) : Gen I Bool := do
  repeatFor Abort.loops (fun list => do
    match list with
    | none => pure (.inr Bool.false)
    | some list => do
      let ctrl ← getJumpControl list
      let instr ← getInstruction ctrl
      if ← isOp instr [.testSet] then
        pure (.inl (← getJumpTarget list))
      else pure (.inr Bool.true)) (← longestWalk) list

/-- Gives the TESTSET that controls a jump its register, or makes it a TEST. Says whether there was one. -/
def patchTestReg (node reg : ℕ) : Gen I Bool := do
  let ctrl ← getJumpControl node
  let instr ← getInstruction ctrl
  if ← isOp instr [.testSet] then
    setInstruction ctrl (if reg ≠ noReg ∧ reg ≠ Words.b instr then Words.setA instr reg
      else Words.word (.abc .test (Words.b instr) 0 (Words.c instr)))
    pure Bool.true
  else pure Bool.false

/-- Makes every TESTSET of a list a TEST. -/
def removeValues (list : Option ℕ) : Gen I Unit := do
  repeatFor Abort.loops (fun list => do
    match list with
    | none => pure (.inr ())
    | some list => do
      let _ ← patchTestReg list noReg
      pure (.inl (← getJumpTarget list))) (← longestWalk) list

/-- Patches the jumps of a list: those that leave a value in `reg` to `vtarget`, the others to `dtarget`. -/
def patchListAux (list : Option ℕ) (vtarget reg dtarget : ℕ) : Gen I Unit := do
  repeatFor Abort.loops (fun list => do
    match list with
    | none => pure (.inr ())
    | some list => do
      let next ← getJumpTarget list
      let valued ← patchTestReg list reg
      patchJump list (if valued then vtarget else dtarget)
      pure (.inl next)) (← longestWalk) list

/-- Marks the current position as the target of a jump. -/
def getLabel : Gen I ℕ := do
  let pc ← getFs (·.pc)
  modifyFs fun fs => { fs with lastTarget := some pc }
  pure pc

/-- Patches the jumps of a list to the current position. -/
def patchToHere (list : Option ℕ) : Gen I Unit := do
  let _ ← getLabel
  let jpc ← concatJumps (← getFs (·.jpc)) list
  modifyFs fun fs => { fs with jpc }

def patchList (list : Option ℕ) (target : ℕ) : Gen I Unit := do
  if target = (← getFs (·.pc)) then patchToHere list else patchListAux list target noReg target

/-- Patches the jumps that wait for the next instruction. -/
def dischargeJpc : Gen I Unit := do
  match ← getFs (·.jpc) with
  | none => pure ()
  | some jpc => do
    let pc ← getFs (·.pc)
    patchListAux (some jpc) pc noReg pc
    modifyFs fun fs => { fs with jpc := none }

/-! ### Emission -/

/-- Emits a word and says where. -/
def emit (instr : I) (line : ℕ) : Gen I ℕ := do
  dischargeJpc
  let pc ← getFs (·.pc)
  modifyFs fun fs =>
    { fs with proto := { fs.proto with code := fs.proto.code ++ [instr], lineInfo := fs.proto.lineInfo ++ [line] } }
  pure pc

def emitAbc (op : OpCode) (a b c line : ℕ) : Gen I ℕ := emit (Words.word (.abc op a b c)) line

def emitAbx (op : OpCode) (a bx line : ℕ) : Gen I ℕ := emit (Words.word (.aBx op a bx)) line

def emitAsbx (op : OpCode) (a : ℕ) (sbx : ℤ) (line : ℕ) : Gen I ℕ := emit (Words.word (.aSbx op a sbx)) line

/-- Emits LOADNIL for `n` registers, unless the registers are nil at the start of the function or the LOADNIL in
    front can be extended. -/
def emitNil (fr n line : ℕ) : Gen I Unit := do
  let pc ← getFs (·.pc)
  let lastTarget ← getFs (·.lastTarget)
  if lastTarget.all (· < pc) then
    if pc = 0 then pure ()
    else do
      let prev ← getInstruction (pc - 1)
      if (← isOp prev [.loadNil]) ∧ Words.a prev ≤ fr ∧ fr ≤ Words.b prev + 1 then
        onlyIf (Words.b prev < fr + n - 1) (setInstruction (pc - 1) (Words.setB prev (fr + n - 1)))
      else
        let _ ← emitAbc .loadNil fr (fr + n - 1) 0 line
  else
    let _ ← emitAbc .loadNil fr (fr + n - 1) 0 line

/-- Emits a jump in front of those that wait for the current position. -/
def emitJump (line : ℕ) : Gen I ℕ := do
  let jpc ← getFs (·.jpc)
  modifyFs fun fs => { fs with jpc := none }
  let pc ← emitAsbx .jmp 0 (-1) line
  concatJumpsResult pc jpc

/-- Emits `LOADBOOL reg, b, jump` at a label. -/
def codeLabel (reg b jump line : ℕ) : Gen I ℕ := do
  let _ ← getLabel
  emitAbc .loadBool reg b jump line

/-! ### Constants -/

/-- Adds a constant to the end of the pool. -/
def pushConstant (val : Val) : Gen I ℕ := do
  let idx ← getFs (·.proto.constants.length)
  if maxArgBx < idx then syntaxError "constant table overflow"
  else do
    modifyFs fun fs => { fs with proto := { fs.proto with constants := fs.proto.constants ++ [val] } }
    pure idx

/-- The key of a constant that the pool holds only once. -/
def constantKey : Val → Option ConstantKey
  | .num n => some (.number n.toBits)
  | .bool b => some (.boolean b)
  | _ => none

/-- Adds a value to the constant pool, unless it is there. -/
def addConstant (val : Val) : Gen I ℕ :=
  match constantKey val with
  | none => pushConstant val
  | some key => do
    match (← getFs (·.constantIndex)).lookup key with
    | some idx => pure idx
    | none => do
      let idx ← pushConstant val
      modifyFs fun fs => { fs with constantIndex := (key, idx) :: fs.constantIndex }
      pure idx

/-- The entry of a string in the pool. The last entry is looked at first, then the entries with the same hash. -/
def findString (pool : List StringPoolEntry) (s : List UInt8) : Option StringPoolEntry :=
  match pool.getLast? with
  | some last => if last.bytes = s then some last else pool.find? fun e => e.hash = luaHash s ∧ e.bytes = s
  | none => none

/-- Adds a string constant to the pool. A nil takes its place until it is interned. -/
def stringConstant (s : List UInt8) : Gen I ℕ := do
  match findString (← getFs (·.proto.stringPool)) s with
  | some entry => pure entry.index.toNat
  | none => do
    let idx ← pushConstant .nil
    modifyFs fun fs => { fs with
      proto := { fs.proto with stringPool := fs.proto.stringPool ++ [⟨BitVec.ofNat 32 idx, s, luaHash s⟩] } }
    pure idx

def numberConstant (n : F64) : Gen I ℕ := addConstant (.num n)

/-- The constant nil, which is kept apart from the places of strings. -/
def nilConstant : Gen I ℕ := do
  match ← getFs (·.nilK) with
  | some idx => pure idx
  | none => do
    let idx ← pushConstant .nil
    modifyFs fun fs => { fs with nilK := some idx }
    pure idx

/-! ### Registers -/

/-- Ensures that there is room for `n` more registers. -/
def checkStack (n : ℕ) : Gen I Unit := do
  let newStack := (← getFs (·.freeReg)) + n
  if maxStack < newStack then syntaxError "function or expression too complex"
  else modifyFs fun fs => { fs with proto := { fs.proto with maxStackSize := max fs.proto.maxStackSize newStack } }

def allocReg : Gen I ℕ := do
  checkStack 1
  let reg ← getFs (·.freeReg)
  modifyFs fun fs => { fs with freeReg := fs.freeReg + 1 }
  pure reg

def reserveRegs (n : ℕ) : Gen I Unit := do
  checkStack n
  modifyFs fun fs => { fs with freeReg := fs.freeReg + n }

/-- Frees a register if it is the topmost temporary one. -/
def freeReg (reg : ℕ) : Gen I Unit :=
  modifyFs fun fs =>
    if fs.numActiveVars ≤ reg ∧ ¬isK reg ∧ reg + 1 = fs.freeReg then { fs with freeReg := fs.freeReg - 1 } else fs

end

end Rilua.Codegen
