import Rilua.Compiler.Scopes

/-! How the code generator brings expressions into registers and emits operators (`compiler/codegen.rs`). A function
    that changes an expression returns the changed one. -/

namespace Rilua.Codegen

open Lib Vm Rilua.Compiler

/-- The arithmetic on which constant folding relies. -/
class Arithmetic where
  add : F64 → F64 → F64
  sub : F64 → F64 → F64
  mul : F64 → F64 → F64
  div : F64 → F64 → F64
  pow : F64 → F64 → F64
  neg : F64 → F64
  floor : F64 → F64
  /-- `mul_add a b c` is `a * b + c`, rounded once. -/
  mulAdd : F64 → F64 → F64 → F64

section

variable {I : Type} [Words I]

/-! ### Discharge -/

/-- Makes a call or `...` leave one value. -/
def setOneRet (e : ExprContext) : Gen I ExprContext :=
  match e.kind with
  | .call => do
    let instr ← getInstruction e.info
    let instr := Words.setC instr 2
    setInstruction e.info instr
    pure { e with kind := .nonReloc, info := Words.a instr }
  | .varArg => do
    let instr ← getInstruction e.info
    setInstruction e.info (Words.setB instr 2)
    pure { e with kind := .relocable }
  | _ => pure e

/-- Loads the value of a variable. -/
def dischargeVars (e : ExprContext) (line : ℕ) : Gen I ExprContext :=
  match e.kind with
  | .local => pure { e with kind := .nonReloc }
  | .upval => do
    let pc ← emitAbc .getUpval 0 e.info 0 line
    pure { e with kind := .relocable, info := pc }
  | .global => do
    let pc ← emitAbx .getGlobal 0 e.info line
    pure { e with kind := .relocable, info := pc }
  | .indexed => do
    freeReg e.aux
    freeReg e.info
    let pc ← emitAbc .getTable 0 e.info e.aux line
    pure { e with kind := .relocable, info := pc }
  | .call | .varArg => setOneRet e
  | _ => pure e

def freeExpr (e : ExprContext) : Gen I Unit :=
  match e.kind with
  | .nonReloc => freeReg e.info
  | _ => pure ()

/-- The constant of a numeral. A full table is not noticed here. -/
def numeralConstant (n : F64) : Gen I ℕ := do
  let full := (← getFs (·.constantIndex)).lookup (.number n.toBits) = none ∧
    maxArgBx < (← getFs (·.proto.constants.length))
  if full then
    slip .numeral
    match Words.fallback I with
    | some idx => pure idx
    | none => numberConstant n
  else numberConstant n

/-- Puts an expression without jumps in a register. -/
def discharge2reg (e : ExprContext) (reg line : ℕ) : Gen I ExprContext := do
  let e ← dischargeVars e line
  let inReg : ExprContext := { e with kind := .nonReloc, info := reg }
  match e.kind with
  | .nil => do
    emitNil reg 1 line
    pure inReg
  | .false => do
    let _ ← emitAbc .loadBool reg 0 0 line
    pure inReg
  | .true => do
    let _ ← emitAbc .loadBool reg 1 0 line
    pure inReg
  | .k => do
    let _ ← emitAbx .loadK reg e.info line
    pure inReg
  | .kNum => do
    let k ← numeralConstant e.nval
    let _ ← emitAbx .loadK reg k line
    pure inReg
  | .relocable => do
    let instr ← getInstruction e.info
    setInstruction e.info (Words.setA instr reg)
    pure inReg
  | .nonReloc => do
    onlyIf (reg ≠ e.info) do
      let _ ← emitAbc .move reg e.info 0 line
    pure inReg
  | _ => pure e

def discharge2anyreg (e : ExprContext) (line : ℕ) : Gen I ExprContext :=
  match e.kind with
  | .nonReloc => pure e
  | _ => do
    reserveRegs 1
    let reg ← getFs (·.freeReg - 1)
    discharge2reg e reg line

/-- Whether a jump of the expression leaves no value. -/
def valueNeeded (e : ExprContext) : Gen I Bool := do
  if ← needValue e.t then pure Bool.true else needValue e.f

/-- The two LOADBOOLs that a jump without a value goes to, if there is such a jump. -/
def loadBools (e : ExprContext) (reg line : ℕ) : Gen I (Option (ℕ × ℕ)) := do
  if ← valueNeeded e then
    let fj ← (if e.kind = .jmp then pure none else some <$> emitJump line)
    let pF ← codeLabel reg 0 1 line
    let pT ← codeLabel reg 1 0 line
    patchToHere fj
    pure (some (pF, pT))
  else pure none

/-- Puts an expression in a register, and gives its jumps their targets. -/
def exp2reg (e : ExprContext) (reg line : ℕ) : Gen I ExprContext := do
  let e ← discharge2reg e reg line
  let t ← (if e.kind = .jmp then concatJumps e.t (some e.info) else pure e.t)
  let e := { e with t }
  onlyIf e.hasJumps do
    let loads ← loadBools e reg line
    let finalPc ← getLabel
    patchListAux e.f finalPc reg ((loads.map Prod.fst).getD finalPc)
    patchListAux e.t finalPc reg ((loads.map Prod.snd).getD finalPc)
  pure { e with kind := .nonReloc, info := reg, t := none, f := none }

/-- Puts an expression in the next register. -/
def exp2nextreg (e : ExprContext) (line : ℕ) : Gen I ExprContext := do
  let e ← dischargeVars e line
  freeExpr e
  let reg ← allocReg
  exp2reg e reg line

/-- Puts an expression in some register. -/
def exp2anyreg (e : ExprContext) (line : ℕ) : Gen I ExprContext := do
  let e ← dischargeVars e line
  match e.kind with
  | .nonReloc =>
    if ¬e.hasJumps then pure e
    else do
      if (← getFs (·.numActiveVars)) ≤ e.info then exp2reg e e.info line
      else exp2nextreg e line
  | _ => exp2nextreg e line

/-- Makes an expression a value. Where there is no register for it, that is not noticed; the variable has been loaded
    by then. -/
def exp2val (e : ExprContext) (line : ℕ) : Gen I ExprContext :=
  if e.hasJumps then do
    let e ← dischargeVars e line
    recover (exp2anyreg e line) fun error => do
      slip .lostJumps
      if Words.ignores I then pure e else throw error
  else dischargeVars e line

/-- Makes an expression an operand: the index of a constant, marked, or a register. -/
def exp2rk (e : ExprContext) (line : ℕ) : Gen I (ExprContext × ℕ) := do
  let e ← exp2val e line
  let inReg : Gen I (ExprContext × ℕ) := do
    let e ← exp2anyreg e line
    pure (e, e.info)
  match e.kind with
  | .nil => do
    if (← getFs (·.proto.constants.length)) ≤ maxIndexRk then
      let k ← nilConstant
      pure ({ e with kind := .k, info := k }, k ||| bitRk)
    else inReg
  | .true => do
    if (← getFs (·.proto.constants.length)) ≤ maxIndexRk then
      let k ← addConstant (.bool Bool.true)
      pure ({ e with kind := .k, info := k }, k ||| bitRk)
    else inReg
  | .false => do
    if (← getFs (·.proto.constants.length)) ≤ maxIndexRk then
      let k ← addConstant (.bool Bool.false)
      pure ({ e with kind := .k, info := k }, k ||| bitRk)
    else inReg
  | .k => if e.info ≤ maxIndexRk then pure (e, e.info ||| bitRk) else inReg
  | .kNum => do
    let k ← numberConstant e.nval
    if k ≤ maxIndexRk then pure ({ e with kind := .k, info := k }, k ||| bitRk) else inReg
  | _ => inReg

/-- Stores an expression in a variable. -/
def storevar (var ex : ExprContext) (line : ℕ) : Gen I Unit :=
  match var.kind with
  | .local => do
    freeExpr ex
    let ex ← exp2reg ex var.info line
    freeExpr ex
  | .upval => do
    let ex ← exp2anyreg ex line
    let _ ← emitAbc .setUpval ex.info var.info 0 line
    freeExpr ex
  | .global => do
    let ex ← exp2anyreg ex line
    let _ ← emitAbx .setGlobal ex.info var.info line
    freeExpr ex
  | .indexed => do
    let (ex, e) ← exp2rk ex line
    let _ ← emitAbc .setTable var.info var.aux e line
    freeExpr ex
  | _ => syntaxError "invalid assignment target"

/-! ### Conditions -/

/-- Makes the test that controls a jump the opposite one. -/
def invertjump (e : ExprContext) : Gen I Unit := do
  let ctrl ← getJumpControl e.info
  let instr ← getInstruction ctrl
  setInstruction ctrl (Words.setA instr (if Words.a instr = 0 then 1 else 0))

/-- Takes the last instruction back. -/
def popInstruction : Gen I Unit :=
  modifyFs fun fs =>
    { fs with proto := { fs.proto with code := fs.proto.code.dropLast, lineInfo := fs.proto.lineInfo.dropLast } }

/-- Emits a test and the jump that is taken where the expression has the truth value `cond`. The NOT of a negation is
    taken back. -/
def jumponcond (e : ExprContext) (cond : Bool) (line : ℕ) : Gen I (ExprContext × ℕ) := do
  let negated ← (match e.kind with
    | .relocable => do
      let instr ← getInstruction e.info
      if ← isOp instr [.not] then pure (some (Words.b instr)) else pure none
    | _ => pure none)
  match negated with
  | some reg => do
    popInstruction
    let _ ← emitAbc .test reg 0 (if cond then 0 else 1) line
    pure (e, ← emitJump line)
  | none => do
    let e ← discharge2anyreg e line
    freeExpr e
    let _ ← emitAbc .testSet noReg e.info (if cond then 1 else 0) line
    pure (e, ← emitJump line)

/-- Goes on where the expression is true; where it is false, a jump of its list is taken. -/
def goiftrue (e : ExprContext) (line : ℕ) : Gen I ExprContext := do
  let e ← dischargeVars e line
  let (e, pc) ← (match e.kind with
    | .k | .kNum | .true => pure (e, none)
    | .false => do pure (e, some (← emitJump line))
    | .jmp => do
      invertjump e
      pure (e, some e.info)
    | _ => Prod.map id some <$> jumponcond e Bool.false line)
  let f ← concatJumps e.f pc
  patchToHere e.t
  pure { e with f, t := none }

/-- Goes on where the expression is false; where it is true, a jump of its list is taken. -/
def goiffalse (e : ExprContext) (line : ℕ) : Gen I ExprContext := do
  let e ← dischargeVars e line
  let (e, pc) ← (match e.kind with
    | .nil | .false => pure (e, none)
    | .true => do pure (e, some (← emitJump line))
    | .jmp => pure (e, some e.info)
    | _ => Prod.map id some <$> jumponcond e Bool.true line)
  let t ← concatJumps e.t pc
  patchToHere e.f
  pure { e with t, f := none }

/-- Compiles a condition: the jumps that are taken where it is false. -/
def compileCondition (e : ExprContext) (line : ℕ) : Gen I (Option ℕ) := do
  let e ← goiftrue (if e.kind = .nil then { e with kind := .false } else e) line
  pure e.f

/-! ### Several values, and tables -/

/-- Makes a call or `...` leave all its values. A register for them is taken if there is one. -/
def setMultret (e : ExprContext) : Gen I ExprContext :=
  match e.kind with
  | .call => do
    let instr ← getInstruction e.info
    setInstruction e.info (Words.setC instr 0)
    pure e
  | .varArg => do
    let instr ← getInstruction e.info
    setInstruction e.info (Words.setA (Words.setB instr 0) (← getFs (·.freeReg)))
    recover (reserveRegs 1) fun _ => pure ()
    pure { e with kind := .relocable }
  | _ => pure e

/-- Makes an expression the element `key` of the table in its register. -/
def setIndexed (table key : ExprContext) (line : ℕ) : Gen I ExprContext := do
  let (_, aux) ← exp2rk key line
  pure { table with kind := .indexed, aux }

/-- Emits OP_SELF: a method and its object, in the next two registers. -/
def codeSelf (e key : ExprContext) (line : ℕ) : Gen I ExprContext := do
  let e ← exp2anyreg e line
  freeExpr e
  let func ← getFs (·.freeReg)
  reserveRegs 2
  let (key, keyRk) ← exp2rk key line
  let _ ← emitAbc .opSelf func e.info keyRk line
  freeExpr key
  pure { e with kind := .nonReloc, info := func }

/-! ### Operators -/

/-- The value of an operation on two numerals, unless it is not a number or a division by zero. -/
def constFold [Arithmetic] (op : OpCode) (e1 e2 : ExprContext) : Option F64 :=
  if e1.isNumeral ∧ e2.isNumeral then
    let v1 := e1.nval
    let v2 := e2.nval
    let r := match op with
      | .add => some (Arithmetic.add v1 v2)
      | .sub => some (Arithmetic.sub v1 v2)
      | .mul => some (Arithmetic.mul v1 v2)
      | .div => if v2.beq (.zero Bool.false) then none else some (Arithmetic.div v1 v2)
      | .mod =>
        if v2.beq (.zero Bool.false) then none
        else some (Arithmetic.mulAdd (Arithmetic.floor (Arithmetic.div v1 v2)) (Arithmetic.neg v2) v1)
      | .pow => some (Arithmetic.pow v1 v2)
      | .unm => some (Arithmetic.neg v1)
      | _ => none
    r.filter fun r => ¬r.isNaN
  else none

/-- Whether a register is a temporary one. -/
def isTemporary (reg : ℕ) : Gen I Bool := do
  pure (¬isK reg ∧ (← getFs (·.numActiveVars)) ≤ reg)

/-- The operands of an operation: those of a concatenation are in consecutive registers. -/
def arithOperands (op : OpCode) (e1 e2 : ExprContext) (line : ℕ) : Gen I ((ExprContext × ℕ) × (ExprContext × ℕ)) :=
  if op = .concat then do
    let e2 ← exp2nextreg e2 line
    let e1 ← exp2anyreg e1 line
    pure ((e1, e1.info), (e2, e2.info))
  else if op = .unm ∨ op = .not ∨ op = .len then do
    let e1 ← exp2anyreg e1 line
    pure ((e1, e1.info), (e2, 0))
  else do
    let (e2, c) ← exp2rk e2 line
    let temporary ← isTemporary c
    let numeral := e1.isNumeral
    let (e1, b) ← exp2rk e1 line
    onlyIf (numeral ∧ ¬isK b ∧ temporary) (slip .numeralAbove)
    pure ((e1, b), (e2, c))

/-- Emits an arithmetic operation, a concatenation or a unary operation. -/
def codeArith [Arithmetic] (op : OpCode) (e1 e2 : ExprContext) (line : ℕ) : Gen I ExprContext :=
  match constFold op e1 e2 with
  | some r => pure { e1 with nval := r }
  | none => do
    let ((e1, b), (e2, c)) ← arithOperands op e1 e2 line
    freeExpr e2
    freeExpr e1
    let pc ← emitAbc op 0 b c line
    pure { e1 with kind := .relocable, info := pc }

/-- Whether an expression has taken registers. -/
def holdsRegs (e : ExprContext) : Gen I Bool :=
  match e.kind with
  | .nonReloc => isTemporary e.info
  | .call => pure Bool.true
  | .indexed => do
    pure ((← isTemporary e.info) || (← isTemporary e.aux))
  | _ => pure Bool.false

/-- Emits a comparison and its jump. -/
def codeComp (op : OpCode) (cond : ℕ) (e1 e2 : ExprContext) (line : ℕ) : Gen I ExprContext := do
  let numeral := e1.isNumeral
  let holds ← holdsRegs e2
  let (e1, b) ← exp2rk e1 line
  onlyIf (numeral ∧ ¬isK b ∧ holds) (slip .numeralAbove)
  let (e2, c) ← exp2rk e2 line
  freeExpr e2
  freeExpr e1
  let (cond, b, c) := if cond = 0 ∧ op ≠ .eq then (1, c, b) else (cond, b, c)
  let _ ← emitAbc op cond b c line
  let jmp ← emitJump line
  pure { e1 with kind := .jmp, info := jmp, t := none, f := none }

/-- What is done with the left operand of a binary operation before the right one. -/
def infixExpr (op : BinOp) (e : ExprContext) (line : ℕ) : Gen I ExprContext :=
  match op with
  | .and => goiftrue e line
  | .or => goiffalse e line
  | .concat => exp2nextreg e line
  | _ => if e.isNumeral then pure e else Prod.fst <$> exp2rk e line

/-- A concatenation whose right operand is one: the operands are in consecutive registers, so there is one
    instruction for both. -/
def mergeConcat (e1 e2 : ExprContext) : Gen I (Option ExprContext) :=
  match e2.kind with
  | .relocable => do
    let instr ← getInstruction e2.info
    if ← isOp instr [.concat] then
      freeExpr e1
      let merged ← getInstruction e2.info
      setInstruction e2.info (Words.setB merged e1.info)
      pure (some { e1 with kind := .relocable, info := e2.info })
    else pure none
  | _ => pure none

/-- Combines the two operands of a binary operation. -/
def postfixExpr [Arithmetic] (op : BinOp) (e1 e2 : ExprContext) (line : ℕ) : Gen I ExprContext :=
  match op with
  | .and => do
    let e2 ← dischargeVars e2 line
    pure { e2 with f := ← concatJumps e2.f e1.f }
  | .or => do
    let e2 ← dischargeVars e2 line
    pure { e2 with t := ← concatJumps e2.t e1.t }
  | .concat => do
    let e2 ← exp2val e2 line
    match ← mergeConcat e1 e2 with
    | some e1 => pure e1
    | none => do
      let e2 ← exp2nextreg e2 line
      codeArith .concat e1 e2 line
  | .add => codeArith .add e1 e2 line
  | .sub => codeArith .sub e1 e2 line
  | .mul => codeArith .mul e1 e2 line
  | .div => codeArith .div e1 e2 line
  | .mod => codeArith .mod e1 e2 line
  | .pow => codeArith .pow e1 e2 line
  | .eq => codeComp .eq 1 e1 e2 line
  | .ne => codeComp .eq 0 e1 e2 line
  | .lt => codeComp .lt 1 e1 e2 line
  | .le => codeComp .le 1 e1 e2 line
  | .gt => codeComp .lt 0 e1 e2 line
  | .ge => codeComp .le 0 e1 e2 line

/-- Emits NOT, or turns the expression into its opposite. -/
def codeNot (e : ExprContext) (line : ℕ) : Gen I ExprContext := do
  let e ← dischargeVars e line
  let e ← (match e.kind with
    | .nil | .false => pure { e with kind := .true }
    | .k | .kNum | .true => pure { e with kind := .false }
    | .jmp => do
      invertjump e
      pure e
    | .relocable | .nonReloc => do
      let e ← discharge2anyreg e line
      freeExpr e
      let pc ← emitAbc .not 0 e.info 0 line
      pure { e with kind := .relocable, info := pc }
    | _ => pure e)
  removeValues e.t
  removeValues e.f
  pure { e with t := e.f, f := e.t }

/-- Applies a unary operation. -/
def prefixExpr [Arithmetic] (op : UnOp) (e : ExprContext) (line : ℕ) : Gen I ExprContext :=
  match op with
  | .neg => do
    let e ← (if e.kind = .k then exp2anyreg e line else pure e)
    codeArith .unm e (.number (.zero Bool.false)) line
  | .not => codeNot e line
  | .len => do
    let e ← exp2anyreg e line
    codeArith .len e (.number (.zero Bool.false)) line

/-- Emits SETLIST. The number of the batch is a word of its own where it does not fit into the operand. -/
def codeSetlist (base nelems tostore line : ℕ) : Gen I Unit := do
  let c := subU32 nelems 1 / lfieldsPerFlush + 1
  let _ ← emitAbc .setList base tostore (if c ≤ maxArgC then c else 0) line
  onlyIf (maxArgC < c) do
    let _ ← emit (Words.word (.raw c)) line
  modifyFs fun fs => { fs with freeReg := base + 1 }

end

end Rilua.Codegen
