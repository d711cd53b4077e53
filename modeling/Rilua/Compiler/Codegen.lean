import Rilua.Compiler.Operators
import Rilua.Vm.Proto

/-! The code generator: compiles a syntax tree into a prototype (`compiler/codegen.rs`). What compiles a part of an
    expression or statement is handed to the function for the whole as a computation. -/

namespace Rilua.Codegen

open Lib Vm Rilua.Compiler

/-- `VARARG_HASARG`, `VARARG_ISVARARG`, `VARARG_NEEDSARG`. -/
def varargHasArg : UInt8 := 1
def varargIsVararg : UInt8 := 2
def varargNeedsArg : UInt8 := 4

/-- The "float byte" of a number (`eeeeexxx`); `fuel` bounds the number of rounds. -/
def int2fbLoop : ℕ → ℕ → ℕ → ℕ
  | 0, e, x => (e + 1) * 8 ||| (x - 8)
  | fuel + 1, e, x => if 16 ≤ x then int2fbLoop fuel (e + 1) ((x + 1) / 2) else (e + 1) * 8 ||| (x - 8)

def int2fb (x : ℕ) : ℕ := if x < 8 then x else int2fbLoop 32 0 x

/-- Whether an expression may have several values. -/
def isMultretExpr : Expr → Bool
  | .call .. | .methodCall .. | .varArg .. => true
  | _ => false

section

variable {I : Type} [Words I]

/-! ### Functions -/

/-- Ends a function with its final RETURN. -/
def finishFunction : Gen I Unit := do
  let _ ← emitAbc .return 0 1 0 (← currentLine)
  removeLocals 0
  modifyFs fun fs => { fs with proto := { fs.proto with upvalueNames := fs.upvalues.map (·.name) } }

/-- Starts the function inside the current one. -/
def enterFunction : Gen I Unit :=
  change fun s => { s with fs := .new s.sourceName, enclosing := s.fs :: s.enclosing }

/-- Ends the current function and goes back to the one around it. -/
def leaveFunction : Gen I (Draft I) := do
  finishFunction
  let proto ← getFs (·.proto)
  match ← observe (·.enclosing) with
  | [] => throw .panic
  | fs :: enclosing => do
    change fun s => { s with fs, enclosing }
    pure proto

/-- The parameters of a function, as local variables. -/
def declareParams (params : List String) (hasVarargs needSelf : Bool) : Gen I Unit := do
  onlyIf needSelf do
    newLocal "self"
    activateLocals 1
  params.forM newLocal
  activateLocals params.length
  modifyFs fun fs => { fs with proto := { fs.proto with numParams := params.length + needSelf.toNat } }
  if hasVarargs ∧ "arg" ∈ params then
    modifyFs fun fs => { fs with proto := { fs.proto with isVararg := varargIsVararg } }
  else onlyIf hasVarargs do
    modifyFs fun fs =>
      { fs with proto := { fs.proto with isVararg := varargHasArg ||| varargIsVararg ||| varargNeedsArg } }
    newLocal "arg"
    activateLocals 1

/-- Declares the parameters of a function, and gives them their registers. -/
def enterParams (params : List String) (hasVarargs needSelf : Bool) : Gen I Unit := do
  declareParams params hasVarargs needSelf
  reserveRegs (← getFs (·.numActiveVars))

/-- Emits CLOSURE for a prototype, and behind it how each upvalue is captured. -/
def emitClosure (proto : Draft I) (upvalues : List UpvalDesc) (line : ℕ) : Gen I ExprContext := do
  let idx ← getFs (·.proto.protos.length)
  modifyFs fun fs => { fs with proto := { fs.proto with protos := fs.proto.protos ++ [proto] } }
  slip (.protoIndex idx)
  let pc ← emitAbx .closure 0 idx line
  upvalues.forM fun uv => do
    let _ ← emitAbc (if uv.inStack then .move else .getUpval) 0 uv.index 0 line
  pure (.new .relocable pc)

/-- Compiles a function body into a prototype. -/
def compileFuncbody (params : List String) (hasVarargs : Bool) (body : Gen I Unit) (endLine : ℕ) (needSelf : Bool)
    (line : ℕ) : Gen I ExprContext := do
  enterFunction
  modifyFs fun fs => { fs with proto := { fs.proto with lineDefined := line } }
  enterParams params hasVarargs needSelf
  body
  modifyFs fun fs => { fs with proto := { fs.proto with lastLineDefined := endLine } }
  setLine endLine
  let upvalues ← getFs (·.upvalues)
  let proto ← leaveFunction
  emitClosure proto upvalues line

/-! ### Lists of expressions -/

/-- Compiles a list of expressions. All but the last one go to the next registers. -/
def compileExprlist (line : ℕ) : List (Gen I ExprContext) → Gen I ExprContext
  | [] => pure .void
  | [expr] => expr
  | expr :: exprs => do
    let _ ← exp2nextreg (← expr) line
    compileExprlist line exprs

/-- Ensures that there are `nvars` values for `nexps` expressions. -/
def adjustAssign (nvars nexps : ℕ) (last : ExprContext) (line : ℕ) : Gen I ExprContext := do
  let extra : ℤ := nvars - nexps
  let needed := extra + 1
  match last.kind with
  | .call => do
    let last ← (if needed < 0 then setOneRet last
      else do
        let instr ← getInstruction last.info
        setInstruction last.info (Words.setC instr (needed + 1).toNat)
        pure last)
    onlyIf (1 < needed) (reserveRegs (needed - 1).toNat)
    pure last
  | .varArg => do
    let last ← (if needed < 0 then setOneRet last
      else do
        let instr ← getInstruction last.info
        setInstruction last.info (Words.setA (Words.setB instr (needed + 1).toNat) (← getFs (·.freeReg)))
        reserveRegs 1
        pure { last with kind := .relocable })
    onlyIf (1 < needed) (reserveRegs (needed - 1).toNat)
    pure last
  | kind => do
    let last ← (if kind = .void then pure last else exp2nextreg last line)
    onlyIf (0 < extra) do
      let reg ← getFs (·.freeReg)
      reserveRegs extra.toNat
      emitNil reg extra.toNat line
    pure last

/-! ### Calls -/

/-- Emits CALL. -/
def emitCall (func : ExprContext) (base b line : ℕ) : Gen I ExprContext := do
  let pc ← emitAbc .call base b 2 line
  modifyFs fun fs => { fs with freeReg := base + 1 }
  pure { func with kind := .call, info := pc }

/-- Compiles the arguments of a call and emits it. -/
def compileFuncargs (func : ExprContext) (line : ℕ) : List (Gen I ExprContext) → Gen I ExprContext
  | [] => do
    let nparams := subU32 (← getFs (·.freeReg)) (func.info + 1)
    emitCall func func.info (nparams + 1) line
  | arg :: args => do
    let e ← arg
    if args.isEmpty ∧ (e.kind = .call ∨ e.kind = .varArg) then
      let _ ← setMultret e
      emitCall func func.info 0 line
    else
      let _ ← exp2nextreg e line
      compileFuncargs func line args

/-! ### Table constructors -/

/-- A field of a table constructor. The value of an item says whether it may be several. -/
inductive FieldCode (I : Type) where
  | value (value : Gen I ExprContext) (multret : Bool)
  | name (name : String) (value : Gen I ExprContext)
  | index (key value : Gen I ExprContext)

def FieldCode.isValue : FieldCode I → Bool
  | .value .. => true
  | _ => false

/-- What is counted over the fields of a constructor: items, other fields, and items that wait to be stored. -/
structure FieldCounts where
  na : ℕ := 0
  nh : ℕ := 0
  tostore : ℕ := 0

/-- Compiles a field `key = value`. -/
def compileKeyed (tableReg : ℕ) (key : Gen I ExprContext) (value : Gen I ExprContext) (line : ℕ) : Gen I Unit := do
  let (key, keyRk) ← exp2rk (← key) line
  let (val, valRk) ← exp2rk (← value) line
  let _ ← emitAbc .setTable tableReg keyRk valRk line
  freeExpr val
  freeExpr key

/-- Compiles a field of a constructor. `isLast` says whether it is the last of the items. -/
def compileField (tableReg line : ℕ) (field : FieldCode I) (isLast : Bool) (n : FieldCounts) : Gen I FieldCounts :=
  match field with
  | .value value multret => do
    let na := (n.na + 1) % 2 ^ 32
    let tostore := n.tostore + 1
    let val ← value
    if isLast ∧ multret then
      let _ ← setMultret val
      codeSetlist tableReg na 0 line
      pure { n with na := subU32 na 1, tostore := 0 }
    else
      let _ ← exp2nextreg val line
      if lfieldsPerFlush ≤ tostore then
        codeSetlist tableReg na tostore line
        pure { n with na, tostore := 0 }
      else pure { n with na, tostore }
  | .name name value => do
    compileKeyed tableReg (do pure (.new .k (← stringConstant name.toUTF8.toList))) value line
    pure { n with nh := (n.nh + 1) % 2 ^ 32 }
  | .index key value => do
    compileKeyed tableReg key value line
    pure { n with nh := (n.nh + 1) % 2 ^ 32 }

/-- Compiles the fields of a constructor in order. An item is the last one if none comes behind it. -/
def compileFields (tableReg line : ℕ) : List (FieldCode I) → FieldCounts → Gen I FieldCounts
  | [], n => pure n
  | field :: fields, n => do
    compileFields tableReg line fields (← compileField tableReg line field (¬fields.any (·.isValue)) n)

/-- Compiles a table constructor. -/
def compileTableCtor (fields : List (FieldCode I)) (line : ℕ) : Gen I ExprContext := do
  let pc ← emitAbc .newTable 0 0 0 line
  let t ← exp2nextreg (.new .relocable pc) line
  let n ← compileFields t.info line fields {}
  onlyIf (0 < n.tostore) (codeSetlist t.info n.na n.tostore line)
  let instr ← getInstruction pc
  setInstruction pc (Words.setC (Words.setB instr (int2fb n.na)) (int2fb n.nh))
  pure t

/-! ### Assignments -/

/-- A local variable is assigned: the targets in front of it whose table or key it is take the register `extra`
    instead. -/
def redirect (localReg extra : ℕ) (target : ExprContext) : ExprContext :=
  if target.kind = .indexed then
    { target with
      info := if target.info = localReg then extra else target.info
      aux := if ¬isK target.aux ∧ target.aux = localReg then extra else target.aux }
  else target

/-- Whether a target uses the register of a local variable as its table or key. -/
def conflicts (localReg : ℕ) (target : ExprContext) : Bool :=
  target.kind = .indexed ∧ (target.info = localReg ∨ ¬isK target.aux ∧ target.aux = localReg)

/-- Saves the local variables that are assigned and that targets in front of them use. -/
def checkConflicts (line : ℕ) : List ExprContext → List ExprContext → Gen I (List ExprContext)
  | before, [] => pure before
  | before, target :: targets => do
    if target.kind = .local ∧ before.any (conflicts target.info) then
      let extra ← getFs (·.freeReg)
      let _ ← emitAbc .move extra target.info 0 line
      reserveRegs 1
      checkConflicts line (before.map (redirect target.info extra) ++ [target]) targets
    else checkConflicts line (before ++ [target]) targets

/-- Compiles the targets of an assignment. -/
def compileTargets (line : ℕ) : List (Gen I ExprContext) → Gen I (List ExprContext)
  | [] => pure []
  | target :: targets => do
    let e ← target
    if e.kind = .local ∨ e.kind = .upval ∨ e.kind = .global ∨ e.kind = .indexed then
      pure (e :: (← compileTargets line targets))
    else throw (.syntaxError "invalid assignment target" (← sourceName) line)

/-- Stores the values in the topmost registers in the targets, which are given from the last one on. -/
def storeValues (line : ℕ) (targets : List ExprContext) : Gen I Unit :=
  targets.forM fun target => do
    let freeReg ← getFs (·.freeReg)
    onlyIf (freeReg = 0) (slip .noValue)
    storevar target (.new .nonReloc (subU32 freeReg 1)) line

def compileAssign (targets values : List (Gen I ExprContext)) (line : ℕ) : Gen I Unit := do
  let targetExprs ← compileTargets line targets
  let targetExprs ← checkConflicts line [] targetExprs
  let nvars := targets.length
  let nexps := values.length
  let last ← compileExprlist line values
  if nexps = nvars then
    let last ← setOneRet last
    match targetExprs.reverse with
    | [] => throw .panic
    | target :: targets => do
      storevar target last line
      storeValues line targets
  else
    let _ ← adjustAssign nvars nexps last line
    onlyIf (nvars < nexps)
      (modifyFs fun fs => { fs with freeReg := (fs.freeReg + 2 ^ 8 - (nexps - nvars) % 2 ^ 8) % 2 ^ 8 })
    storeValues line targetExprs.reverse

def compileLocalDecl (names : List String) (values : List (Gen I ExprContext)) (line : ℕ) : Gen I Unit := do
  names.forM newLocal
  let last ← compileExprlist line values
  let _ ← adjustAssign names.length values.length last line
  activateLocals names.length

/-! ### Blocks and control structures -/

def compileBlockScoped (block : Gen I Unit) : Gen I Unit := do
  enterBlock false
  block
  leaveBlock

def compileWhile (condition : Gen I ExprContext) (condLine : ℕ) (body : Gen I Unit) (endLine : ℕ) : Gen I Unit := do
  let whileinit ← getLabel
  let condexit ← compileCondition (← condition) condLine
  enterBlock true
  body
  let jmp ← emitJump (← currentLine)
  patchList (some jmp) whileinit
  leaveBlock
  patchToHere condexit
  setLine endLine

/-- The level that a jump out of the innermost breakable block closes upvalues to. -/
def closeLevel (blocks : List BlockContext) : ℕ := ((blocks.find? (·.isBreakable)).map (·.numActiveVars)).getD 0

def compileRepeat (body : Gen I Unit) (condition : Gen I ExprContext) (condLine line : ℕ) : Gen I Unit := do
  let repeatInit ← getLabel
  enterBlock true
  enterBlock false
  body
  let condexit ← compileCondition (← condition) condLine
  let blocks ← getFs (·.blocks)
  let back ← (if (blocks.head?.map (·.hasUpval)).getD false then do
      let _ ← emitAbc .close (closeLevel blocks) 0 0 line
      addBreakJump (← emitJump line)
      patchToHere condexit
      leaveBlock
      some <$> emitJump line
    else do
      leaveBlock
      pure condexit)
  patchList back repeatInit
  leaveBlock

/-- Compiles an `elseif` clause behind the clauses in front of it: the jump over it joins those to the end. -/
def compileElseif (condition : Gen I ExprContext) (condLine : ℕ) (body : Gen I Unit) (escape flist : Option ℕ) :
    Gen I (Option ℕ × Option ℕ) := do
  let jmp ← emitJump (← currentLine)
  let escape ← concatJumps escape (some jmp)
  patchToHere flist
  let flist ← compileCondition (← condition) condLine
  compileBlockScoped body
  pure (escape, flist)

/-- Compiles `elseif` clauses. There is a body for each condition. -/
def compileElseifs : List (Gen I ExprContext × ℕ) → List (Gen I Unit) → Option ℕ → Option ℕ →
    Gen I (Option ℕ × Option ℕ)
  | [], _, escape, flist => pure (escape, flist)
  | _ :: _, [], _, _ => throw .panic
  | (condition, condLine) :: conditions, body :: bodies, escape, flist => do
    let (escape, flist) ← compileElseif condition condLine body escape flist
    compileElseifs conditions bodies escape flist

/-- Compiles an `else` clause, if there is one, behind the other clauses. -/
def compileElseBlock (elseBody : Option (Gen I Unit)) (escape flist : Option ℕ) : Gen I (Option ℕ) :=
  match elseBody with
  | some elseBlock => do
    let jmp ← emitJump (← currentLine)
    let escape ← concatJumps escape (some jmp)
    patchToHere flist
    compileBlockScoped elseBlock
    pure escape
  | none => concatJumps escape flist

def compileIf (conditions : List (Gen I ExprContext × ℕ)) (bodies : List (Gen I Unit)) (elseBody : Option (Gen I Unit))
    (endLine : ℕ) : Gen I Unit :=
  match conditions, bodies with
  | (condition, condLine) :: conditions, body :: bodies => do
    let flist ← compileCondition (← condition) condLine
    compileBlockScoped body
    let (escape, flist) ← compileElseifs conditions bodies none flist
    let escape ← compileElseBlock elseBody escape flist
    patchToHere escape
    setLine endLine
  | _, _ => throw .panic

/-- The step of a numeric loop: the given one, or 1. -/
def compileStep (step : Option (Gen I ExprContext)) (line : ℕ) : Gen I Unit :=
  match step with
  | some step => do
    let _ ← exp2nextreg (← step) line
  | none => do
    let k ← numberConstant .one
    let reg ← getFs (·.freeReg)
    let _ ← emitAbx .loadK reg k line
    reserveRegs 1

def compileNumericFor (name : String) (start stop : Gen I ExprContext) (step : Option (Gen I ExprContext))
    (body : Gen I Unit) (line endLine : ℕ) : Gen I Unit := do
  enterBlock true
  let base ← getFs (·.freeReg)
  ["(for index)", "(for limit)", "(for step)", name].forM newLocal
  let _ ← exp2nextreg (← start) line
  let _ ← exp2nextreg (← stop) line
  compileStep step line
  activateLocals 3
  let prep ← emitAsbx .forPrep base (-1) line
  enterBlock false
  activateLocals 1
  reserveRegs 1
  body
  leaveBlock
  patchToHere (some prep)
  let endfor ← emitAsbx .forLoop base (-1) line
  patchJump endfor (prep + 1)
  leaveBlock
  setLine endLine

def compileGenericFor (names : List String) (iterators : List (Gen I ExprContext)) (body : Gen I Unit)
    (line iterLine endLine : ℕ) : Gen I Unit := do
  enterBlock true
  let base ← getFs (·.freeReg)
  ["(for generator)", "(for state)", "(for control)"].forM newLocal
  names.forM newLocal
  let last ← compileExprlist line iterators
  let _ ← adjustAssign 3 iterators.length last line
  checkStack 3
  activateLocals 3
  let prep ← emitJump line
  enterBlock false
  activateLocals names.length
  reserveRegs names.length
  body
  leaveBlock
  patchToHere (some prep)
  let _ ← emitAbc .tForLoop base 0 names.length iterLine
  let loopJmp ← emitJump iterLine
  patchJump loopJmp (prep + 1)
  leaveBlock
  setLine endLine

/-- The element of an expression at a string. -/
def indexByName (var : ExprContext) (name : String) (line : ℕ) : Gen I ExprContext := do
  let var ← exp2anyreg var line
  let k ← stringConstant name.toUTF8.toList
  setIndexed var (.new .k k) line

/-- The elements that a dotted path leads to. -/
def indexPath (line : ℕ) : List String → ExprContext → Gen I ExprContext
  | [], var => pure var
  | part :: parts, var => do indexPath line parts (← indexByName var part line)

def compileFuncDecl (name : FuncName) (body : Gen I ExprContext) (line : ℕ) : Gen I Unit :=
  match name.parts with
  | [] => throw .panic
  | part :: parts => do
    let var ← resolveVar part
    let var ← indexPath line (parts ++ name.method.toList) var
    let func ← body
    storevar var func line

def compileLocalFunc (name : String) (body : Gen I ExprContext) (line : ℕ) : Gen I Unit := do
  newLocal name
  activateLocals 1
  let func ← body
  let reg ← getFs (·.numActiveVars - 1)
  let _ ← exp2reg func reg line

/-- Makes a call a tail call. -/
def makeTailCall (e : ExprContext) : Gen I Unit := do
  let instr ← getInstruction e.info
  if ← isOp instr [.call] then
    setInstruction e.info (Words.word (.abc .tailCall (Words.a instr) (Words.b instr) 0))

/-- Compiles several values to return. -/
def compileReturnValues (base nret line : ℕ) : List (Gen I ExprContext) → Gen I Unit
  | [] => do
    let _ ← emitAbc .return base (nret + 1) 0 line
  | value :: values => do
    let e ← value
    if values.isEmpty ∧ (e.kind = .call ∨ e.kind = .varArg) then
      let _ ← setMultret e
      let _ ← emitAbc .return (← getFs (·.numActiveVars)) 0 0 line
    else
      let _ ← exp2nextreg e line
      compileReturnValues base nret line values

def compileReturn (values : List (Gen I ExprContext)) (line : ℕ) : Gen I Unit :=
  match values with
  | [] => do
    let _ ← emitAbc .return 0 1 0 line
  | [value] => do
    let e ← value
    if e.kind = .call ∨ e.kind = .varArg then
      onlyIf (e.kind = .call) (makeTailCall e)
      let _ ← setMultret e
      let _ ← emitAbc .return (← getFs (·.numActiveVars)) 0 0 line
    else
      let e ← exp2anyreg e line
      let _ ← emitAbc .return e.info 2 0 line
  | values => do
    compileReturnValues (← getFs (·.freeReg)) values.length line values

/-- Compiles a break. Upvalues of the blocks that it leaves are closed. -/
def compileBreak (line : ℕ) : Gen I Unit := do
  let blocks ← getFs (·.blocks)
  let left := blocks.take (blocks.findIdx (·.isBreakable) + 1)
  onlyIf (left.any (·.hasUpval)) do
    let _ ← emitAbc .close (closeLevel blocks) 0 0 line
  addBreakJump (← emitJump line)

/-- Compiles a call as a statement: its values are dropped. -/
def compileExprStat (expr : Gen I ExprContext) : Gen I Unit := do
  let e ← expr
  if e.kind = .call then
    let instr ← getInstruction e.info
    setInstruction e.info (Words.setC instr 1)

/-! ### Expressions and statements -/

section

variable [Arithmetic]

mutual

def compileExpr : Expr → Gen I ExprContext
  | .nil span => do
    setLine span.line
    pure (.new .nil 0)
  | .true span => do
    setLine span.line
    pure (.new .true 0)
  | .false span => do
    setLine span.line
    pure (.new .false 0)
  | .number n span => do
    setLine span.line
    pure (.number n)
  | .str s span => do
    setLine span.line
    pure (.new .k (← stringConstant s))
  | .varArg span => do
    setLine span.line
    modifyFs fun fs => { fs with proto := { fs.proto with isVararg := fs.proto.isVararg &&& ~~~varargNeedsArg } }
    pure (.new .varArg (← emitAbc .varArg 0 1 0 span.line))
  | .name name span => do
    setLine span.line
    resolveVar name
  | .binOp op left right span => do
    setLine span.line
    let e1 ← infixExpr op (← compileExpr left) span.line
    let e2 ← compileExpr right
    postfixExpr op e1 e2 span.line
  | .unOp op operand span => do
    setLine span.line
    prefixExpr op (← compileExpr operand) span.line
  | .index table key span => do
    setLine span.line
    let t ← exp2anyreg (← compileExpr table) span.line
    let k ← compileExpr key
    setIndexed t k span.line
  | .field table field span => do
    setLine span.line
    indexByName (← compileExpr table) field span.line
  | .methodCall table method args span => do
    setLine span.line
    let obj ← exp2anyreg (← compileExpr table) span.line
    let k ← stringConstant method.toUTF8.toList
    let obj ← codeSelf obj (.new .k k) span.line
    compileFuncargs obj span.line (compileExprs args)
  | .call func args span => do
    setLine span.line
    let f ← exp2nextreg (← compileExpr func) span.line
    compileFuncargs f span.line (compileExprs args)
  | .funcDef body span => do
    setLine span.line
    compileBody body false span.line
  | .tableCtor fields span => do
    setLine span.line
    compileTableCtor (compileTableFields fields) span.line
  | .paren inner span => do
    setLine span.line
    dischargeVars (← compileExpr inner) span.line

def compileExprs : List Expr → List (Gen I ExprContext)
  | [] => []
  | e :: es => compileExpr e :: compileExprs es

/-- The conditions of an `if`, and the lines of their jumps. -/
def compileConditions : List Expr → List (Gen I ExprContext × ℕ)
  | [] => []
  | e :: es => (compileExpr e, e.span.line) :: compileConditions es

def compileOption : Option Expr → Option (Gen I ExprContext)
  | none => none
  | some e => some (compileExpr e)

def compileTableField : Compiler.TableField → FieldCode I
  | .indexField key value _ => .index (compileExpr key) (compileExpr value)
  | .nameField name value _ => .name name (compileExpr value)
  | .valueField value _ => .value (compileExpr value) (isMultretExpr value)

def compileTableFields : List Compiler.TableField → List (FieldCode I)
  | [] => []
  | f :: fs => compileTableField f :: compileTableFields fs

def compileBody : FuncBody → Bool → ℕ → Gen I ExprContext
  | ⟨params, hasVarargs, body, _, endLine⟩, needSelf, line =>
    compileFuncbody params hasVarargs (compileBlock body) endLine needSelf line

def compileStat : Stat → Gen I Unit
  | .assign targets values span => do
    setLine span.line
    compileAssign (compileExprs targets) (compileExprs values) span.line
  | .localDecl names values span => do
    setLine span.line
    compileLocalDecl names (compileExprs values) span.line
  | .do body span endLine => do
    setLine span.line
    compileBlockScoped (compileBlock body)
    setLine endLine
  | .while condition body span endLine => do
    setLine span.line
    compileWhile (compileExpr condition) condition.span.line (compileBlock body) endLine
  | .repeat body condition span => do
    setLine span.line
    compileRepeat (compileBlock body) (compileExpr condition) condition.span.line span.line
  | .if conditions bodies elseBody span endLine => do
    setLine span.line
    compileIf (compileConditions conditions) (compileBlocks bodies) (compileElse elseBody) endLine
  | .numericFor name start stop step body span endLine => do
    setLine span.line
    compileNumericFor name (compileExpr start) (compileExpr stop) (compileOption step) (compileBlock body) span.line
      endLine
  | .genericFor names iterators body iterLine span endLine => do
    setLine span.line
    compileGenericFor names (compileExprs iterators) (compileBlock body) span.line iterLine endLine
  | .funcDecl name body span => do
    setLine span.line
    compileFuncDecl name (compileBody body name.method.isSome span.line) span.line
  | .localFunc name body span => do
    setLine span.line
    compileLocalFunc name (compileBody body false span.line) span.line
  | .return values span => do
    setLine span.line
    compileReturn (compileExprs values) span.line
  | .break span => do
    setLine span.line
    compileBreak span.line
  | .exprStat expr span => do
    setLine span.line
    compileExprStat (compileExpr expr)

/-- Compiles the statements of a block. Temporary registers are free behind each. -/
def compileBlock : List Stat → Gen I Unit
  | [] => pure ()
  | stat :: stats => do
    compileStat stat
    modifyFs fun fs => { fs with freeReg := fs.numActiveVars }
    compileBlock stats

def compileBlocks : List (List Stat) → List (Gen I Unit)
  | [] => []
  | body :: bodies => compileBlock body :: compileBlocks bodies

def compileElse : Option (List Stat) → Option (Gen I Unit)
  | none => none
  | some body => some (compileBlock body)

end

/-- Compiles the main function, which takes any number of arguments. -/
def compileMain (block : Block) : Gen I (Draft I) := do
  modifyFs fun fs => { fs with proto := { fs.proto with isVararg := varargIsVararg, numParams := 0 } }
  compileBlock block
  finishFunction
  getFs (·.proto)

end

end

/-- What a compilation comes to. -/
def outcome {I α : Type} : EStateM.Result Abort (Compiler I) α → Except Abort α
  | .ok a _ => .ok a
  | .error e _ => .error e

/-- Compiles a chunk. -/
def compile (I : Type) [Words I] [Arithmetic] (name : String) (block : Block) : Except Abort (Draft I) :=
  outcome (compileMain block (.new name))

end Rilua.Codegen
