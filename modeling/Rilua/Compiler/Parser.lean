import Rilua.Compiler.Ast
import Rilua.Lib.Metered

/-! The parser (`compiler/parser.rs`). Every function leaves marks of how deep the calls nest, how deep a tree was
    built, and how often a loop that reads operators or suffixes has run. A function is given what it may call
    with one syntax level less, so that nothing recurses but `nested`. -/

namespace Rilua.Compiler

open Lib Vm

/-- Per-function scope tracking for local/upvalue limit checking. -/
structure FuncScope where
  lineDefined : ℕ
  localCount : ℕ := 0
  localNames : List String := []
  upvalueNames : List String := []

/-- Parser state. The innermost function comes first in `funcScopes`. -/
structure Parser where
  lexer : Lexer
  current : Token
  span : Span
  lastline : ℕ := 1
  loopDepth : ℕ := 0
  funcScopes : List FuncScope := [{ lineDefined := 0 }]

def maxSyntaxLevels : ℕ := 200

def maxVars : ℕ := 512

def maxUpvalues : ℕ := 60

/-- How many tokens there are at most, with the current one. -/
def Parser.size (p : Parser) : ℕ := p.lexer.size + if p.current = .eos then 0 else 1

/-- What a computation leaves a mark of: the depth of calls, the depth of trees and the length of loops. -/
inductive Mark where | call | tree | loop
  deriving DecidableEq

abbrev Marks := Mark → ℕ

abbrev ParserM := Metered Marks Parser ParseError

variable {α β γ : Type}

/-- A function of the parser is called. -/
def called (x : ParserM α) : ParserM α := Metered.rescale (fun m k => if k = .call then m k + 1 else m k) x

/-- A part of the tree is built. -/
def build [Tree α] (a : α) : ParserM α := do
  Metered.mark fun k => if k = .tree then Tree.depth a else 0
  pure a

/-- A loop that reads operators or suffixes has run `n` times and built `expr`. -/
def looped (n : ℕ) (expr : Expr) : ParserM Unit :=
  Metered.mark fun
    | .call => 0
    | .tree => expr.depth
    | .loop => n

/-- A loop that takes a token each time. -/
def loop (f : β → ParserM (β ⊕ γ)) (b : β) : ParserM γ := fun p => Metered.repeatFor .fuel f (p.size + 1) b p

/-! ### Errors -/

/-- A syntax error without a `near` token suffix. -/
def syntaxError (msg : String) : ParserM α := do
  let p ← Metered.get
  Metered.fail (.source (.syntaxError ⟨msg, p.lexer.sourceName, p.span.line⟩))

/-- The current token as it was written. -/
def Parser.txtToken (p : Parser) : String :=
  match p.current with
  | .number _ | .str _ => p.lexer.lastTokenText
  | .name name => name
  | t => t.token2str

/-- A syntax error near the current token. -/
def syntaxErrorNear (msg : String) : ParserM α := do
  let p ← Metered.get
  let near := p.txtToken
  syntaxError s!"{msg} near '{near}'"

def errorExpected (what : String) : ParserM α := syntaxErrorNear s!"'{what}' expected"

/-! ### Tokens -/

/-- Advances to the next token, returning the previous one. -/
def advance : ParserM (Token × Span) :=
  Metered.attempt fun p =>
    match p.lexer.next with
    | .error e => .error (.source e)
    | .ok ((current, span), lexer) => .ok ((p.current, p.span), { p with lexer, current, span, lastline := p.span.line })

/-- The token behind the current one. -/
def lookahead : ParserM Token :=
  Metered.attempt fun p =>
    match p.lexer.peek with
    | .error e => .error (.source e)
    | .ok (t, lexer) => .ok (t, { p with lexer })

def check (expected : Token) : ParserM Bool := do
  let p ← Metered.get
  pure (p.current.kind = expected.kind)

def checkChar (c : Char) : ParserM Bool := do
  let p ← Metered.get
  pure (p.current = charToken c)

def isBlockFollow : ParserM Bool := do
  let p ← Metered.get
  match p.current with
  | .else | .elseIf | .end | .until | .eos => pure true
  | _ => pure false

/-- Consumes the current token if it matches. -/
def testNext (expected : Token) : ParserM Bool := do
  if ← check expected then
    let _ ← advance
    pure true
  else pure false

def testNextChar (c : Char) : ParserM Bool := do
  if ← checkChar c then
    let _ ← advance
    pure true
  else pure false

def expect (expected : Token) : ParserM Unit := do
  if ← check expected then
    let _ ← advance
    pure ()
  else errorExpected expected.token2str

def expectChar (c : Char) : ParserM Unit := do
  if ← checkChar c then
    let _ ← advance
    pure ()
  else errorExpected (charToken c).token2str

/-- Expects a name. -/
def expectName : ParserM String := do
  let p ← Metered.get
  match p.current with
  | .name name => do
    let _ ← advance
    pure name
  | _ => errorExpected "<name>"

/-- Expects a closing delimiter. -/
def checkMatch (close opening : Token) (openLine : ℕ) : ParserM Unit := do
  if ← check close then
    let _ ← advance
    pure ()
  else
    let p ← Metered.get
    let closing := close.token2str
    let opened := opening.token2str
    if openLine = p.lexer.line then errorExpected closing
    else syntaxErrorNear s!"'{closing}' expected (to close '{opened}' at line {openLine})"

/-! ### Scopes -/

/-- Registers local variables in the current function. -/
def registerLocals (count : ℕ) : ParserM Unit := do
  let p ← Metered.get
  match p.funcScopes with
  | scope :: scopes =>
    let line := scope.lineDefined
    if maxVars < scope.localCount + count then
      syntaxError s!"function at line {line} has more than {maxVars} local variables"
    else Metered.modify fun p =>
      { p with funcScopes := { scope with localCount := scope.localCount + count } :: scopes }
  | [] => pure ()

def registerLocalsNamed (names : List String) : ParserM Unit := do
  registerLocals names.length
  Metered.modify fun p => { p with funcScopes := p.funcScopes.modifyHead fun scope =>
    { scope with localNames := scope.localNames ++ names } }

/-- The name is an upvalue of the innermost `n` functions; where a function has too many, its line. -/
def addUpvalueName (name : String) : ℕ → List FuncScope → Except ℕ (List FuncScope)
  | n + 1, scope :: scopes => do
    let scopes ← addUpvalueName name n scopes
    if name ∈ scope.upvalueNames then pure (scope :: scopes)
    else if maxUpvalues ≤ scope.upvalueNames.length then throw scope.lineDefined
    else pure ({ scope with upvalueNames := scope.upvalueNames ++ [name] } :: scopes)
  | _, scopes => pure scopes

/-- Checks if a name reference creates upvalues in the function scopes. -/
def checkNameUpvalue (name : String) : ParserM Unit := do
  let p ← Metered.get
  match p.funcScopes with
  | scope :: scopes =>
    if name ∈ scope.localNames ∨ name ∈ scope.upvalueNames then pure ()
    else
      match scopes.findIdx? fun scope => name ∈ scope.localNames ∨ name ∈ scope.upvalueNames with
      | none => pure ()
      | some i =>
        match addUpvalueName name (i + 1) (scope :: scopes) with
        | .error line => syntaxError s!"function at line {line} has more than {maxUpvalues} upvalues"
        | .ok funcScopes => Metered.modify fun p => { p with funcScopes }
  | [] => pure ()

/-! ### Expressions -/

/-- What a function may call: blocks and expressions, which take a syntax level. -/
structure Nested where
  block : ParserM Block
  subExpr : ℕ → ParserM Expr

section

variable (nest : Nested)

/-- Parses an expression. -/
def parseExpr : ParserM Expr := called (nest.subExpr 0)

/-- Parses a comma-separated list of one or more expressions. -/
def parseExprList : ParserM (List Expr) := called do
  let first ← parseExpr nest
  loop (fun exprs => do
    if ← testNextChar ',' then
      let expr ← parseExpr nest
      pure (.inl (exprs ++ [expr]))
    else pure (.inr exprs)) [first]

/-- Parse a single table field. -/
def parseField : ParserM TableField := called do
  let p ← Metered.get
  let value := do
    let value ← parseExpr nest
    build (.valueField value p.span)
  match p.current with
  | .name _ =>
    if (← lookahead) = charToken '=' then
      let name ← expectName
      expectChar '='
      let value ← parseExpr nest
      build (.nameField name value p.span)
    else value
  | current =>
    if current = charToken '[' then
      let _ ← advance
      let key ← parseExpr nest
      expectChar ']'
      expectChar '='
      let value ← parseExpr nest
      build (.indexField key value p.span)
    else value

/-- Parse table constructor. -/
def parseTableCtor : ParserM Expr := called do
  let p ← Metered.get
  expectChar '{'
  let fields ← loop (fun fields => do
    if ← checkChar '}' then pure (.inr fields)
    else
      let field ← parseField nest
      let comma ← testNextChar ','
      let separated ← (if comma then pure true else testNextChar ';')
      pure (if separated then .inl (fields ++ [field]) else .inr (fields ++ [field]))) []
  checkMatch (charToken '}') (charToken '{') p.span.line
  build (.tableCtor fields p.span)

/-- Parse function arguments. -/
def parseFuncArgs : ParserM (List Expr) := called do
  let p ← Metered.get
  match p.current with
  | .str s => do
    let _ ← advance
    let arg ← build (.str s p.span)
    pure [arg]
  | current =>
    if current = charToken '(' then
      if p.span.line ≠ p.lastline then syntaxErrorNear "ambiguous syntax (function call x new statement)"
      else
        let _ ← advance
        let noArgs ← checkChar ')'
        let args ← (if noArgs then pure [] else parseExprList nest)
        checkMatch (charToken ')') (charToken '(') p.span.line
        pure args
    else if current = charToken '{' then
      let table ← parseTableCtor nest
      pure [table]
    else syntaxErrorNear "function arguments expected"

/-- A parameter behind `params`; `...` is the last one. -/
def parseParam (params : List String) : ParserM (List String ⊕ (List String × Bool)) := do
  let p ← Metered.get
  match p.current with
  | .name _ =>
    let name ← expectName
    if ← testNextChar ',' then pure (.inl (params ++ [name]))
    else pure (.inr (params ++ [name], false))
  | .dots =>
    let _ ← advance
    pure (.inr (params, true))
  | _ => syntaxErrorNear "<name> or '...' expected"

/-- Parse function body. -/
def parseFuncBody (defSpan : Span) : ParserM FuncBody := called do
  let p ← Metered.get
  expectChar '('
  let noParams ← checkChar ')'
  let (params, hasVarargs) ← (if noParams then pure ([], false) else loop parseParam [])
  expectChar ')'
  Metered.modify fun p => { p with funcScopes := { lineDefined := defSpan.line } :: p.funcScopes }
  registerLocalsNamed params
  let p' ← Metered.get
  Metered.modify fun p => { p with loopDepth := 0 }
  let body ← nest.block
  Metered.modify fun p => { p with loopDepth := p'.loopDepth, funcScopes := p.funcScopes.tail }
  let p'' ← Metered.get
  checkMatch .end .function p.span.line
  build { params, hasVarargs, body, span := defSpan, endLine := p''.span.line }

/-- Parse a primary expression: Name or '(' expr ')'. -/
def parsePrimaryExpr : ParserM Expr := called do
  let p ← Metered.get
  match p.current with
  | .name name =>
    let _ ← advance
    checkNameUpvalue name
    build (.name name p.span)
  | current =>
    if current = charToken '(' then
      let _ ← advance
      let expr ← parseExpr nest
      expectChar ')'
      build (.paren expr p.span)
    else syntaxErrorNear "unexpected symbol"

/-- What follows a primary expression once, if anything. -/
def parseSuffix (expr : Expr) : ParserM (Option Expr) := do
  let p ← Metered.get
  let call := do
    let args ← parseFuncArgs nest
    let expr ← build (.call expr args expr.span)
    pure (some expr)
  match p.current with
  | .str _ => call
  | current =>
    if current = charToken '.' then
      let _ ← advance
      let field ← expectName
      let expr ← build (.field expr field expr.span)
      pure (some expr)
    else if current = charToken '[' then
      let _ ← advance
      let key ← parseExpr nest
      expectChar ']'
      let expr ← build (.index expr key expr.span)
      pure (some expr)
    else if current = charToken ':' then
      let _ ← advance
      let method ← expectName
      let args ← parseFuncArgs nest
      let expr ← build (.methodCall expr method args expr.span)
      pure (some expr)
    else if current = charToken '(' ∨ current = charToken '{' then call
    else pure none

/-- Parse primary expression with suffix chain (calls, indexing, fields). -/
def parseSuffixedExpr : ParserM Expr := called do
  let primary ← parsePrimaryExpr nest
  loop (fun (n, expr) => do
    match ← parseSuffix nest expr with
    | some expr =>
      looped (n + 1) expr
      pure (.inl (n + 1, expr))
    | none => pure (.inr expr)) (0, primary)

/-- Parse a simple (non-operator) expression. -/
def parseSimpleExpr : ParserM Expr := called do
  let p ← Metered.get
  let literal := fun expr => do
    let _ ← advance
    build expr
  match p.current with
  | .number n => literal (.number n p.span)
  | .str s => literal (.str s p.span)
  | .nil => literal (.nil p.span)
  | .true => literal (.true p.span)
  | .false => literal (.false p.span)
  | .dots => literal (.varArg p.span)
  | .function =>
    let _ ← advance
    let body ← parseFuncBody nest p.span
    build (.funcDef body p.span)
  | current => if current = charToken '{' then parseTableCtor nest else parseSuffixedExpr nest

def getUnaryOp (current : Token) : Option UnOp :=
  if current = .not then some .not
  else if current = charToken '-' then some .neg
  else if current = charToken '#' then some .len
  else none

def getBinaryOp (current : Token) : Option BinOp :=
  if current = charToken '+' then some .add
  else if current = charToken '-' then some .sub
  else if current = charToken '*' then some .mul
  else if current = charToken '/' then some .div
  else if current = charToken '%' then some .mod
  else if current = charToken '^' then some .pow
  else if current = .concat then some .concat
  else if current = .ne then some .ne
  else if current = .eq then some .eq
  else if current = charToken '<' then some .lt
  else if current = .le then some .le
  else if current = charToken '>' then some .gt
  else if current = .ge then some .ge
  else if current = .and then some .and
  else if current = .or then some .or
  else none

/-- Unary operator priority (higher than all binary operators but `^`). -/
def unaryPriority : ℕ := 8

/-- Returns (left priority, right priority) for a binary operator. -/
def binaryPriority : BinOp → ℕ × ℕ
  | .or => (1, 1)
  | .and => (2, 2)
  | .lt | .gt | .le | .ge | .ne | .eq => (3, 3)
  | .concat => (5, 4)
  | .add | .sub => (6, 6)
  | .mul | .div | .mod => (7, 7)
  | .pow => (10, 9)

/-- An expression without binary operators, but for those in the operand of a unary one. -/
def parseOperand : ParserM Expr := do
  let p ← Metered.get
  match getUnaryOp p.current with
  | some op =>
    let _ ← advance
    let operand ← nest.subExpr unaryPriority
    build (.unOp op operand p.span)
  | none => parseSimpleExpr nest

/-- What binds tighter than `limit`, if anything: an operator with its right operand. -/
def parseBinary (limit : ℕ) (span : Span) (expr : Expr) : ParserM (Option Expr) := do
  let p ← Metered.get
  match getBinaryOp p.current with
  | some op =>
    if (binaryPriority op).1 ≤ limit then pure none
    else
      let _ ← advance
      let right ← nest.subExpr (binaryPriority op).2
      let expr ← build (.binOp op expr right span)
      pure (some expr)
  | none => pure none

/-- Pratt parser: parse sub-expression with minimum precedence `limit`. -/
def parseSubExpr (limit : ℕ) : ParserM Expr := called do
  let p ← Metered.get
  let first ← parseOperand nest
  loop (fun (n, expr) => do
    match ← parseBinary nest limit p.span expr with
    | some expr =>
      looped (n + 1) expr
      pure (.inl (n + 1, expr))
    | none => pure (.inr expr)) (0, first)

/-! ### Statements -/

def parseIf (span : Span) : ParserM Stat := called do
  let _ ← advance
  let condition ← parseExpr nest
  expect .then
  let body ← nest.block
  let (conditions, bodies) ← loop (fun (conditions, bodies) => do
    if ← check .elseIf then
      let _ ← advance
      let condition ← parseExpr nest
      expect .then
      let body ← nest.block
      pure (.inl (conditions ++ [condition], bodies ++ [body]))
    else pure (.inr (conditions, bodies))) ([condition], [body])
  let hasElse ← testNext .else
  let elseBody ← (if hasElse then some <$> nest.block else pure none)
  let p ← Metered.get
  checkMatch .end .if span.line
  build (.if conditions bodies elseBody span p.span.line)

/-- The body of a loop. -/
def parseLoopBody : ParserM Block := do
  Metered.modify fun p => { p with loopDepth := p.loopDepth + 1 }
  let body ← nest.block
  Metered.modify fun p => { p with loopDepth := p.loopDepth - 1 }
  pure body

def parseWhile (span : Span) : ParserM Stat := called do
  let _ ← advance
  let condition ← parseExpr nest
  expect .do
  let body ← parseLoopBody nest
  let p ← Metered.get
  checkMatch .end .while span.line
  build (.while condition body span p.span.line)

def parseDo (span : Span) : ParserM Stat := called do
  let _ ← advance
  let body ← nest.block
  let p ← Metered.get
  checkMatch .end .do span.line
  build (.do body span p.span.line)

def parseNumericFor (name : String) (openLine : ℕ) (span : Span) : ParserM Stat := called do
  registerLocals 3
  registerLocalsNamed [name]
  expectChar '='
  let start ← parseExpr nest
  expectChar ','
  let stop ← parseExpr nest
  let hasStep ← testNextChar ','
  let step ← (if hasStep then some <$> parseExpr nest else pure none)
  expect .do
  let body ← parseLoopBody nest
  let p ← Metered.get
  checkMatch .end .for openLine
  build (.numericFor name start stop step body span p.span.line)

/-- Names, each behind a separator. -/
def parseNames (sep : Char) (first : List String) : ParserM (List String) :=
  loop (fun names => do
    if ← testNextChar sep then
      let name ← expectName
      pure (.inl (names ++ [name]))
    else pure (.inr names)) first

def parseGenericFor (firstName : String) (openLine : ℕ) (span : Span) : ParserM Stat := called do
  let names ← parseNames ',' [firstName]
  registerLocals 3
  registerLocalsNamed names
  expect .in
  let p ← Metered.get
  let iterators ← parseExprList nest
  expect .do
  let body ← parseLoopBody nest
  let p' ← Metered.get
  checkMatch .end .for openLine
  build (.genericFor names iterators body p.span.line span p'.span.line)

def parseFor (span : Span) : ParserM Stat := called do
  let _ ← advance
  let name ← expectName
  let p ← Metered.get
  if p.current = charToken '=' then parseNumericFor nest name span.line span
  else if p.current = charToken ',' ∨ p.current = .in then parseGenericFor nest name span.line span
  else syntaxErrorNear "'=' or 'in' expected"

def parseRepeat (span : Span) : ParserM Stat := called do
  let _ ← advance
  Metered.modify fun p => { p with loopDepth := p.loopDepth + 1 }
  let body ← nest.block
  checkMatch .until .repeat span.line
  let condition ← parseExpr nest
  Metered.modify fun p => { p with loopDepth := p.loopDepth - 1 }
  build (.repeat body condition span)

def parseFuncName : ParserM FuncName := do
  let p ← Metered.get
  let first ← expectName
  let parts ← parseNames '.' [first]
  let hasMethod ← testNextChar ':'
  let method ← (if hasMethod then some <$> expectName else pure none)
  pure { parts, method, span := p.span }

def parseFuncDecl (span : Span) : ParserM Stat := called do
  let _ ← advance
  let name ← parseFuncName
  let body ← parseFuncBody nest span
  build (.funcDecl name body span)

def parseLocal (span : Span) : ParserM Stat := called do
  let _ ← advance
  if ← testNext .function then
    let name ← expectName
    registerLocalsNamed [name]
    let body ← parseFuncBody nest span
    build (.localFunc name body span)
  else
    let first ← expectName
    let names ← parseNames ',' [first]
    registerLocalsNamed names
    let hasValues ← testNextChar '='
    let values ← (if hasValues then parseExprList nest else pure [])
    build (.localDecl names values span)

def parseReturn (span : Span) : ParserM Stat := called do
  let _ ← advance
  let follow ← isBlockFollow
  let semicolon ← checkChar ';'
  let values ← (if follow || semicolon then pure [] else parseExprList nest)
  build (.return values span)

def parseBreak (span : Span) : ParserM Stat := called do
  let _ ← advance
  let p ← Metered.get
  if p.loopDepth = 0 then syntaxErrorNear "no loop to break" else build (.break span)

def isCall : Expr → Bool
  | .call .. | .methodCall .. => true
  | _ => false

def parseExprStat (span : Span) : ParserM Stat := called do
  let expr ← parseSuffixedExpr nest
  let p ← Metered.get
  if p.current = charToken '=' ∨ p.current = charToken ',' then
    let targets ← loop (fun targets => do
      if ← testNextChar ',' then
        let target ← parseSuffixedExpr nest
        pure (.inl (targets ++ [target]))
      else pure (.inr targets)) [expr]
    expectChar '='
    let values ← parseExprList nest
    build (.assign targets values span)
  else if isCall expr then build (.exprStat expr span)
  else errorExpected "="

def parseStat : ParserM Stat := called do
  let p ← Metered.get
  match p.current with
  | .if => parseIf nest p.span
  | .while => parseWhile nest p.span
  | .do => parseDo nest p.span
  | .for => parseFor nest p.span
  | .repeat => parseRepeat nest p.span
  | .function => parseFuncDecl nest p.span
  | .local => parseLocal nest p.span
  | .return => parseReturn nest p.span
  | .break => parseBreak p.span
  | _ => parseExprStat nest p.span

def Stat.isLast : Stat → Bool
  | .return .. | .break _ => true
  | _ => false

/-- What the block takes from its function when it ends: the locals declared in it. -/
def restoreLocals (saved : Option FuncScope) : ParserM Unit :=
  Metered.modify fun p => { p with funcScopes := p.funcScopes.modifyHead fun scope =>
    match saved with
    | some s => { scope with localCount := s.localCount, localNames := scope.localNames.take s.localNames.length }
    | none => scope }

/-- Parses a block (sequence of statements). -/
def parseBlock : ParserM Block := called do
  let p ← Metered.get
  let stmts ← loop (fun stmts => do
    if ← isBlockFollow then pure (.inr stmts)
    else
      let stmt ← parseStat nest
      let _ ← testNextChar ';'
      pure (if stmt.isLast then .inr (stmts ++ [stmt]) else .inl (stmts ++ [stmt]))) []
  restoreLocals p.funcScopes.head?
  pure stmts

end

/-- What may be called with so many syntax levels left (`enter_level`). -/
def nested : ℕ → Nested
  | 0 => {
    block := called (syntaxError "chunk has too many syntax levels")
    subExpr := fun _ => called (syntaxError "chunk has too many syntax levels") }
  | levels + 1 => {
    block := parseBlock (nested levels)
    subExpr := parseSubExpr (nested levels) }

/-- Parses a complete Lua chunk. -/
def parseChunk : ParserM Block := called do
  let block ← (nested maxSyntaxLevels).block
  if ← check .eos then pure block else errorExpected "<eof>"

/-- The marks that parsing a source leaves, with the result. -/
def parse (lexer : Lexer) : Marks × Except ParseError Block :=
  match lexer.next with
  | .error e => (⊥, .error (.source e))
  | .ok ((current, span), lexer) =>
    let (marks, result) := parseChunk { lexer, current, span }
    (marks, result.map Prod.fst)

end Rilua.Compiler
