import Rilua.Vm.Undump

/-! The tokens (`compiler/token.rs`), and the lexer as the parser sees it (`compiler/lexer.rs`): what it will
    deliver for the rest of the source. Columns are left out. -/

namespace Rilua.Compiler

open Lib Vm

/-- Source position for error reporting. -/
structure Span where
  line : ℕ
  deriving DecidableEq

/-- A token produced by the lexer. -/
inductive Token where
  | and | break | do | else | elseIf | end | false | for | function | if | in | local | nil | not | or | repeat
  | return | then | true | until | while
  | concat | dots | eq | ge | le | ne
  | number (n : F64)
  | name (name : String)
  | str (s : List UInt8)
  | char (c : UInt8)
  | eos
  deriving DecidableEq

/-- Cheap token classification. -/
inductive TokenKind where
  | and | break | do | else | elseIf | end | false | for | function | if | in | local | nil | not | or | repeat
  | return | then | true | until | while
  | concat | dots | eq | ge | le | ne
  | number | name | str
  | char (c : UInt8)
  | eos
  deriving DecidableEq

/-- A single-character token. -/
def charToken (c : Char) : Token := .char c.toNat.toUInt8

namespace Token

def kind : Token → TokenKind
  | .and => .and
  | .break => .break
  | .do => .do
  | .else => .else
  | .elseIf => .elseIf
  | .end => .end
  | .false => .false
  | .for => .for
  | .function => .function
  | .if => .if
  | .in => .in
  | .local => .local
  | .nil => .nil
  | .not => .not
  | .or => .or
  | .repeat => .repeat
  | .return => .return
  | .then => .then
  | .true => .true
  | .until => .until
  | .while => .while
  | .concat => .concat
  | .dots => .dots
  | .eq => .eq
  | .ge => .ge
  | .le => .le
  | .ne => .ne
  | .number _ => .number
  | .name _ => .name
  | .str _ => .str
  | .char c => .char c
  | .eos => .eos

/-- The token name for error messages. -/
def token2str : Token → String
  | .and => "and"
  | .break => "break"
  | .do => "do"
  | .else => "else"
  | .elseIf => "elseif"
  | .end => "end"
  | .false => "false"
  | .for => "for"
  | .function => "function"
  | .if => "if"
  | .in => "in"
  | .local => "local"
  | .nil => "nil"
  | .not => "not"
  | .or => "or"
  | .repeat => "repeat"
  | .return => "return"
  | .then => "then"
  | .true => "true"
  | .until => "until"
  | .while => "while"
  | .concat => ".."
  | .dots => "..."
  | .eq => "=="
  | .ge => ">="
  | .le => "<="
  | .ne => "~="
  | .number _ => "<number>"
  | .name _ => "<name>"
  | .str _ => "<string>"
  | .char c => if c < 32 ∨ c = 127 then s!"char({c})" else (Char.ofNat c.toNat).toString
  | .eos => "<eof>"

end Token

/-- Why a source is not compiled: it is wrong, or the reader function of a stream failed. -/
inductive SourceError where
  | syntaxError (e : SyntaxError)
  | reader
  deriving DecidableEq

/-- How parsing fails. Running out of fuel in a loop never happens. -/
inductive ParseError where
  | source (e : SourceError)
  | fuel
  deriving DecidableEq

/-- A token as it was scanned, with the line the lexer has reached and the text it was made of. -/
structure Scanned where
  token : Token
  span : Span
  line : ℕ
  text : String

/-- The lexer: what it will scan, up to the end of the source or an error. -/
structure Lexer where
  rest : List (Except SourceError Scanned)
  lookahead : Option (Token × Span) := none
  line : ℕ := 1
  lastTokenText : String := ""
  sourceName : String

namespace Lexer

def scan (l : Lexer) : Except SourceError ((Token × Span) × Lexer) :=
  match l.rest with
  | [] => .ok ((.eos, ⟨l.line⟩), l)
  | .error e :: _ => .error e
  | .ok x :: rest => .ok ((x.token, x.span), { l with rest, line := x.line, lastTokenText := x.text })

/-- The next token. A token that was peeked at comes first. -/
def next (l : Lexer) : Except SourceError ((Token × Span) × Lexer) :=
  match l.lookahead with
  | some la => .ok (la, { l with lookahead := none })
  | none => l.scan

/-- Peeks at the next token. -/
def peek (l : Lexer) : Except SourceError (Token × Lexer) :=
  match l.lookahead with
  | some la => .ok (la.1, l)
  | none => l.scan.map fun (la, l) => (la.1, { l with lookahead := some la })

/-- How many tokens there are at most before the end. -/
def size (l : Lexer) : ℕ := l.rest.length + if l.lookahead.all (·.1 = .eos) then 0 else 1

end Lexer

end Rilua.Compiler
