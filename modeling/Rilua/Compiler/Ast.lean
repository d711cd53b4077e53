import Rilua.Compiler.Token

/-! The syntax tree (`compiler/ast.rs`), and how deep it is. Dropping a tree recurses into its parts, so the depth
    is the depth of that recursion. -/

namespace Rilua.Compiler

open Lib

inductive BinOp where
  | add | sub | mul | div | mod | pow | concat | lt | le | gt | ge | eq | ne | and | or
  deriving DecidableEq

inductive UnOp where | neg | not | len
  deriving DecidableEq

/-- Function name: a dotted path with an optional method. -/
structure FuncName where
  parts : List String
  method : Option String
  span : Span

mutual

/-- An expression. -/
inductive Expr where
  | nil (span : Span)
  | true (span : Span)
  | false (span : Span)
  | number (n : F64) (span : Span)
  | str (s : List UInt8) (span : Span)
  | varArg (span : Span)
  | name (name : String) (span : Span)
  | binOp (op : BinOp) (left right : Expr) (span : Span)
  | unOp (op : UnOp) (operand : Expr) (span : Span)
  | index (table key : Expr) (span : Span)
  | field (table : Expr) (field : String) (span : Span)
  | methodCall (table : Expr) (method : String) (args : List Expr) (span : Span)
  | call (func : Expr) (args : List Expr) (span : Span)
  | funcDef (body : FuncBody) (span : Span)
  | tableCtor (fields : List TableField) (span : Span)
  | paren (inner : Expr) (span : Span)

/-- A field in a table constructor. -/
inductive TableField where
  | indexField (key value : Expr) (span : Span)
  | nameField (name : String) (value : Expr) (span : Span)
  | valueField (value : Expr) (span : Span)

/-- Function body: parameters and block. -/
structure FuncBody where
  params : List String
  hasVarargs : Bool
  body : List Stat
  span : Span
  endLine : ℕ

/-- A statement. The conditions of an `if` are those of `if` and of each `elseif`. -/
inductive Stat where
  | assign (targets values : List Expr) (span : Span)
  | localDecl (names : List String) (values : List Expr) (span : Span)
  | do (body : List Stat) (span : Span) (endLine : ℕ)
  | while (condition : Expr) (body : List Stat) (span : Span) (endLine : ℕ)
  | repeat (body : List Stat) (condition : Expr) (span : Span)
  | if (conditions : List Expr) (bodies : List (List Stat)) (elseBody : Option (List Stat)) (span : Span)
      (endLine : ℕ)
  | numericFor (name : String) (start stop : Expr) (step : Option Expr) (body : List Stat) (span : Span)
      (endLine : ℕ)
  | genericFor (names : List String) (iterators : List Expr) (body : List Stat) (iterLine : ℕ) (span : Span)
      (endLine : ℕ)
  | funcDecl (name : FuncName) (body : FuncBody) (span : Span)
  | localFunc (name : String) (body : FuncBody) (span : Span)
  | return (values : List Expr) (span : Span)
  | break (span : Span)
  | exprStat (expr : Expr) (span : Span)

end

/-- A block is a sequence of statements. -/
abbrev Block := List Stat

def Expr.span : Expr → Span
  | .nil span | .true span | .false span | .number _ span | .str _ span | .varArg span | .name _ span
  | .binOp _ _ _ span | .unOp _ _ span | .index _ _ span | .field _ _ span | .methodCall _ _ _ span | .call _ _ span
  | .funcDef _ span | .tableCtor _ span | .paren _ span => span

mutual

def Expr.depth : Expr → ℕ
  | .nil _ | .true _ | .false _ | .number _ _ | .str _ _ | .varArg _ | .name _ _ => 1
  | .binOp _ left right _ => max left.depth right.depth + 1
  | .unOp _ operand _ => operand.depth + 1
  | .index table key _ => max table.depth key.depth + 1
  | .field table _ _ => table.depth + 1
  | .methodCall table _ args _ => max table.depth (exprsDepth args) + 1
  | .call func args _ => max func.depth (exprsDepth args) + 1
  | .funcDef body _ => body.depth + 1
  | .tableCtor fields _ => fieldsDepth fields + 1
  | .paren inner _ => inner.depth + 1

def exprsDepth : List Expr → ℕ
  | [] => 0
  | e :: es => max e.depth (exprsDepth es)

def stepDepth : Option Expr → ℕ
  | none => 0
  | some e => e.depth

def TableField.depth : TableField → ℕ
  | .indexField key value _ => max key.depth value.depth + 1
  | .nameField _ value _ => value.depth + 1
  | .valueField value _ => value.depth + 1

def fieldsDepth : List TableField → ℕ
  | [] => 0
  | f :: fs => max f.depth (fieldsDepth fs)

def FuncBody.depth : FuncBody → ℕ
  | ⟨_, _, body, _, _⟩ => blockDepth body + 1

def Stat.depth : Stat → ℕ
  | .assign targets values _ => max (exprsDepth targets) (exprsDepth values) + 1
  | .localDecl _ values _ => exprsDepth values + 1
  | .do body _ _ => blockDepth body + 1
  | .while condition body _ _ => max condition.depth (blockDepth body) + 1
  | .repeat body condition _ => max (blockDepth body) condition.depth + 1
  | .if conditions bodies elseBody _ _ =>
    max (exprsDepth conditions) (max (blocksDepth bodies) (elseDepth elseBody)) + 1
  | .numericFor _ start stop step body _ _ =>
    max start.depth (max stop.depth (max (stepDepth step) (blockDepth body))) + 1
  | .genericFor _ iterators body _ _ _ => max (exprsDepth iterators) (blockDepth body) + 1
  | .funcDecl _ body _ => body.depth + 1
  | .localFunc _ body _ => body.depth + 1
  | .return values _ => exprsDepth values + 1
  | .break _ => 1
  | .exprStat expr _ => expr.depth + 1

def blockDepth : List Stat → ℕ
  | [] => 0
  | stat :: stats => max stat.depth (blockDepth stats)

def blocksDepth : List (List Stat) → ℕ
  | [] => 0
  | body :: bodies => max (blockDepth body) (blocksDepth bodies)

def elseDepth : Option (List Stat) → ℕ
  | none => 0
  | some body => blockDepth body

end

/-- What the parser builds. -/
class Tree (α : Type) where
  depth : α → ℕ

instance : Tree Expr := ⟨Expr.depth⟩

instance : Tree TableField := ⟨TableField.depth⟩

instance : Tree FuncBody := ⟨FuncBody.depth⟩

instance : Tree Stat := ⟨Stat.depth⟩

end Rilua.Compiler
