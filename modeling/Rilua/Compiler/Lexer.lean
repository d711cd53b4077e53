import Rilua.Compiler.Token
import Rilua.Lib.Lockstep
import Rilua.Lib.Utf8Lossy
import Rilua.Stdlib.Pattern

/-! The lexer (`compiler/lexer.rs`): from bytes to tokens. The bytes are given as a whole, or a reader delivers
    them chunk by chunk while the lexer goes on. -/

namespace Rilua.Compiler

open Lib Vm
open Stdlib (ch isAsciiDigit CharClasses)

/-- Source position of a token. -/
structure Location extends Span where
  column : ℕ
  deriving DecidableEq

/-- What the C library says about numerals in the current locale. -/
structure Numerals where
  /-- The number that a prefix of the text denotes, and the length of that prefix. -/
  strtod : List UInt8 → Option (F64 × ℕ)
  decimalPoint : UInt8

/-- What a call of the reader function returns: data, the end of the input, or an error. -/
abbrev ReaderAnswer := Except SourceError (Option (List UInt8))

/-- Lexer state for tokenizing Lua source code. The reader is the list of what it will return, and the end of the
    input from then on. -/
structure LexerState where
  source : List UInt8
  pos : ℕ := 0
  line : ℕ := 1
  column : ℕ := 1
  sourceName : String
  lookahead : Option (Token × Location) := none
  lastTokenText : String := ""
  reader : Option (List ReaderAnswer) := none
  readerError : Option SourceError := none
  readerExhausted : Bool := false

abbrev LexM := EStateM ParseError LexerState

def isNewline (c : UInt8) : Bool := c = 10 || c = 13

namespace LexerState

/-- A lexer for the given source bytes. A first line that starts with `#` is skipped. -/
def new (source : List UInt8) (sourceName : String) : LexerState :=
  if source.head? = some (ch '#') then
    { source, pos := ((source.findIdx? isNewline).map (· + 1)).getD source.length, line := 2, sourceName }
  else { source, sourceName }

/-- A lexer that pulls data on demand from a reader function. -/
def fromReader (firstChunk : List UInt8) (reader : List ReaderAnswer) (sourceName : String) : LexerState :=
  { source := firstChunk, sourceName, reader := some reader }

/-- The source from `start` up to the current position. -/
def lexeme (s : LexerState) (start : ℕ) : List UInt8 := (s.source.take s.pos).drop start

/-- The bytes that the reader has still to deliver. -/
def ahead (s : LexerState) : List UInt8 :=
  (s.reader.getD []).flatMap fun
    | .ok (some data) => data
    | _ => []

/-- How many bytes there are behind the current position. -/
def left (s : LexerState) : ℕ := s.source.length + s.ahead.length - s.pos

/-- Attempts to refill the buffer from the reader function. Whether data was added is returned; an error is kept
    for later. -/
def refill (s : LexerState) : Bool × LexerState :=
  if s.readerExhausted then (false, s)
  else
    match s.reader with
    | none => (false, s)
    | some answers =>
      let s := { s with reader := some answers.tail }
      match answers.headD (.ok none) with
      | .ok (some data) =>
        if data = [] then (false, { s with readerExhausted := true })
        else (true, { s with source := s.source ++ data })
      | .ok none => (false, { s with readerExhausted := true })
      | .error e => (false, { s with readerError := some e, readerExhausted := true })

end LexerState

namespace LexM

/-! ### Characters -/

def refill : LexM Bool := transition LexerState.refill

def ensureRound (needed : ℕ) : LexM (Unit ⊕ Bool) := do
  if ← observe fun s => decide (s.pos + needed ≤ s.source.length) then pure (.inr true)
  else if ← refill then pure (.inl ())
  else pure (.inr false)

/-- Refills until `needed` bytes are available, if the reader has as many. Each round that goes on has added a byte. -/
def ensureAvailable (needed : ℕ) : LexM Bool := repeatFor .fuel (fun _ => ensureRound needed) (needed + 1) ()

def peek : LexM (Option UInt8) := do
  match ← observe fun s => s.source[s.pos]? with
  | some c => pure (some c)
  | none => if ← refill then observe fun s => s.source[s.pos]? else pure none

def peekAhead (offset : ℕ) : LexM (Option UInt8) := do
  match ← observe fun s => s.source[s.pos + offset]? with
  | some c => pure (some c)
  | none => if ← ensureAvailable (offset + 1) then observe fun s => s.source[s.pos + offset]? else pure none

/-- Takes bytes that are known to be available: `n` of them, which fill so many columns. -/
def skip (n columns : ℕ) : LexM Unit := change fun s => { s with pos := s.pos + n, column := s.column + columns }

/-- Asks the reader for more where the buffer is exhausted. -/
def refillEagerly : LexM Unit := do
  if ← observe fun s => decide (s.reader.isSome ∧ s.source.length ≤ s.pos) then
    let _ ← refill
    pure ()
  else pure ()

def advance : LexM (Option UInt8) := do
  match ← peek with
  | none => pure none
  | some c =>
    skip 1 (if isNewline c then 0 else 1)
    refillEagerly
    pure (some c)

def advanceIf (p : Bool) : LexM Unit := do
  if p then
    let _ ← advance
    pure ()
  else pure ()

/-- Takes the other character of a newline that is written with two, of which `old` was the first. -/
def skipSecond (old : UInt8) : LexM Unit := do
  match ← peek with
  | some next => if isNewline next ∧ next ≠ old then skip 1 0 else pure ()
  | none => pure ()

/-- Takes a newline. -/
def incLine : LexM Unit := do
  let old ← peek
  skip 1 0
  skipSecond (old.getD 0)
  change fun s => { s with line := s.line + 1, column := 1 }

def currentSpan : LexM Location := observe fun s => { line := s.line, column := s.column }

def syntaxErrorNear {α : Type} (msg near : String) : LexM α := do
  let e : SyntaxError ← observe fun s => ⟨s!"{msg} near '{near}'", s.sourceName, s.line⟩
  throw (.source (.syntaxError e))

/-- Performs `f` until it gives a result; it takes a byte each time. -/
def loop {β γ : Type} (f : β → LexM (β ⊕ γ)) (b : β) : LexM γ := do
  let fuel ← observe fun s => s.left + 1
  repeatFor .fuel f fuel b

def advanceRound (p : UInt8 → Bool) : LexM (Unit ⊕ Unit) := do
  match ← peek with
  | some c =>
    if p c then
      let _ ← advance
      pure (.inl ())
    else pure (.inr ())
  | none => pure (.inr ())

/-- Takes bytes as long as they satisfy `p`. -/
def advanceWhile (p : UInt8 → Bool) : LexM Unit := loop (fun _ => advanceRound p) ()

/-- `advanceWhile` without a look at each byte by itself. None of the bytes is a newline. -/
def advanceWhole (p : UInt8 → Bool) : LexM Unit := do
  let n ← observe fun s => ((s.source.drop s.pos).takeWhile p).length
  skip n n

/-- The fast path is for a lexer without a reader. -/
def advanceFast (p : UInt8 → Bool) : LexM Unit := do
  if ← observe fun s => s.reader.isNone then advanceWhole p else advanceWhile p

def isBlank (c : UInt8) : Bool := c = ch ' ' || c = 9 || c = 0x0C || c = 0x0B

def skipWhitespace : LexM Unit := advanceFast isBlank

/-! ### Names -/

def isNameByte (c : UInt8) : Bool := CharClasses.ascii.isalnum c || c = ch '_'

/-- Takes an identifier and returns it. -/
def scanNameExtent : LexM (List UInt8) := do
  let start ← observe (·.pos)
  advanceFast isNameByte
  observe (·.lexeme start)

/-- The reserved words. -/
def reservedWords : List (String × Token) :=
  [("and", .and), ("break", .break), ("do", .do), ("else", .else), ("elseif", .elseIf), ("end", .end),
    ("false", .false), ("for", .for), ("function", .function), ("if", .if), ("in", .in), ("local", .local),
    ("nil", .nil), ("not", .not), ("or", .or), ("repeat", .repeat), ("return", .return), ("then", .then),
    ("true", .true), ("until", .until), ("while", .while)]

def lookupKeyword (bytes : List UInt8) : Option Token :=
  (reservedWords.find? fun (word, _) => decide (word.toList.map ch = bytes)).map (·.2)

/-! ### Numbers -/

/-- The value of a hexadecimal digit. -/
def toDigit16 (c : UInt8) : Option ℕ :=
  if isAsciiDigit c then some (c.toNat - 48)
  else if ch 'a' ≤ c && c ≤ ch 'f' then some (c.toNat - 87)
  else if ch 'A' ≤ c && c ≤ ch 'F' then some (c.toNat - 55)
  else none

/-- `u64::from_str_radix(digits, 16)`. -/
def fromStrRadix16 (digits : List UInt8) : Option ℕ := do
  let digits := if digits.head? = some (ch '+') then digits.tail else digits
  let values ← digits.mapM toDigit16
  let value := values.foldl (fun v d => 16 * v + d) 0
  if values = [] ∨ 2 ^ 64 ≤ value then none else some value

def isHexPrefix : List UInt8 → Bool
  | a :: b :: _ => a = ch '0' && (b = ch 'x' || b = ch 'X')
  | _ => false

/-- The number that `bytes` denote as a whole. -/
def Numerals.whole (num : Numerals) (bytes : List UInt8) : Option F64 :=
  match num.strtod bytes with
  | some (val, consumed) => if consumed = bytes.length then some val else none
  | none => none

/-- The number that `bytes` denote, written with a point or with the decimal point of the locale. -/
def Numerals.decimal (num : Numerals) (bytes : List UInt8) : Option F64 :=
  (Numerals.whole num bytes).or
    (if num.decimalPoint = ch '.' then none
    else Numerals.whole num (bytes.map fun b => if b = ch '.' then num.decimalPoint else b))

/-- What the text of a number token denotes. -/
def Numerals.value (num : Numerals) (isHex : Bool) (bytes : List UInt8) : Option F64 :=
  if isHex then (fromStrRadix16 (bytes.drop 2)).map fun (v : ℕ) => F64.ofInt v else Numerals.decimal num bytes

def readExponent : LexM Unit := do
  let c ← peek
  if c = some (ch 'e') ∨ c = some (ch 'E') then
    let _ ← advance
    let c ← peek
    advanceIf (c = some (ch '+') ∨ c = some (ch '-'))
  else pure ()

/-- Reads a number token that starts with `first`; a leading point has been taken already. -/
def readNumber (num : Numerals) (first : UInt8) : LexM F64 := do
  let start ← observe fun s => if first = ch '.' then s.pos - 1 else s.pos
  advanceIf (first ≠ ch '.')
  advanceWhile fun c => isAsciiDigit c || c = ch '.'
  let isHex ← observe fun s => isHexPrefix (s.lexeme start)
  advanceWhile fun c => isHex && CharClasses.ascii.isxdigit c
  readExponent
  advanceWhile isNameByte
  let bytes ← observe (·.lexeme start)
  let text := fromUtf8Lossy bytes
  change fun s => { s with lastTokenText := text }
  match Numerals.value num isHex bytes with
  | some v => pure v
  | none => syntaxErrorNear "malformed number" text

/-! ### Strings -/

def readHexEscapeDigit (message : String) : LexM ℕ := do
  match (← peek).bind toDigit16 with
  | some digit =>
    let _ ← advance
    pure digit
  | none => syntaxErrorNear message "<string>"

def readHexEscapeByte : LexM UInt8 := do
  let high ← readHexEscapeDigit "invalid hex escape"
  let low ← readHexEscapeDigit "invalid hex escape"
  pure (16 * high + low).toUInt8

def readUnicodeEscapeChar : LexM (List UInt8) := do
  let a ← readHexEscapeDigit "invalid unicode escape"
  let b ← readHexEscapeDigit "invalid unicode escape"
  let c ← readHexEscapeDigit "invalid unicode escape"
  let d ← readHexEscapeDigit "invalid unicode escape"
  let codepoint := ((a * 16 + b) * 16 + c) * 16 + d
  if codepoint.isValidChar then pure (String.utf8EncodeChar (Char.ofNat codepoint))
  else syntaxErrorNear "invalid unicode escape" "<string>"

/-- At most `n` digits of a number that has started with `val`. -/
def decimalDigits : ℕ → ℕ → LexM ℕ
  | 0, val => pure val
  | n + 1, val => do
    match ← peek with
    | some digit =>
      if isAsciiDigit digit then
        let _ ← advance
        decimalDigits n (val * 10 + (digit.toNat - 48))
      else pure val
    | none => pure val

def readDecimalEscape : LexM UInt8 := do
  let val ← decimalDigits 3 0
  if 255 < val then syntaxErrorNear "escape sequence too large" "<string>" else pure val.toUInt8

/-- The byte that a letter behind a backslash stands for. -/
def singleByteEscape (c : UInt8) : UInt8 :=
  if c = ch 'a' then 0x07
  else if c = ch 'b' then 0x08
  else if c = ch 'f' then 0x0C
  else if c = ch 'n' then 10
  else if c = ch 'r' then 13
  else if c = ch 't' then 9
  else if c = ch 'v' then 0x0B
  else c

/-- What stands behind a backslash: the bytes it denotes. -/
def readShortStringEscape : LexM (List UInt8) := do
  match ← peek with
  | none => syntaxErrorNear "unfinished string" "<eof>"
  | some c =>
    if c = ch 'x' then
      let _ ← advance
      let byte ← readHexEscapeByte
      pure [byte]
    else if c = ch 'u' then
      let _ ← advance
      readUnicodeEscapeChar
    else if isNewline c then
      incLine
      pure [10]
    else if isAsciiDigit c then
      let byte ← readDecimalEscape
      pure [byte]
    else
      let _ ← advance
      pure [singleByteEscape c]

def readShortString (delimiter : UInt8) : LexM (List UInt8) := do
  let _ ← advance
  loop (fun buf => do
    match ← peek with
    | none => syntaxErrorNear "unfinished string" "<eof>"
    | some c =>
      if isNewline c then syntaxErrorNear "unfinished string" "<string>"
      else if c = delimiter then
        let _ ← advance
        pure (.inr buf)
      else if c = 92 then
        let _ ← advance
        let bytes ← readShortStringEscape
        pure (.inl (buf ++ bytes))
      else
        let _ ← advance
        pure (.inl (buf ++ [c]))) []

/-! ### Long strings and comments -/

/-- What a `[` starts: a long bracket with so many `=`, the beginning of one that is not finished, or nothing. -/
inductive Sep where
  | level (n : ℕ)
  | invalid
  | bracket
  deriving DecidableEq

def countRound (count : ℕ) : LexM (ℕ ⊕ ℕ) := do
  if (← peekAhead (count + 1)) = some (ch '=') then pure (.inl (count + 1)) else pure (.inr count)

/-- Counts the separator level for long strings and comments; nothing is taken. -/
def countSep : LexM Sep := do
  let count ← loop countRound 0
  if (← peekAhead (count + 1)) = some (ch '[') then pure (.level count)
  else if 0 < count then pure .invalid
  else pure .bracket

/-- Whether `n` times `=` stand behind `i` bytes, and a `]` then. -/
def closingBehind : ℕ → ℕ → LexM Bool
  | 0, i => do
    let c ← peekAhead i
    pure (c = some (ch ']'))
  | n + 1, i => do
    if (← peekAhead i) = some (ch '=') then closingBehind n (i + 1) else pure false

/-- Checks if the current position has a closing long bracket. -/
def checkClosingLongBracket (sep : ℕ) : LexM Bool := do
  if (← peek) = some (ch ']') then closingBehind sep 1 else pure false

/-- A newline right behind the opening bracket does not count. -/
def skipFirstNewline : LexM Unit := do
  match ← peek with
  | some c => if isNewline c then incLine else pure ()
  | none => pure ()

def readLongString (sep : ℕ) (isComment : Bool) : LexM (List UInt8) := do
  skip (2 + sep) (2 + sep)
  skipFirstNewline
  loop (fun buf => do
    match ← peek with
    | none =>
      let what := if isComment then "comment" else "string"
      syntaxErrorNear s!"unfinished long {what}" "<eof>"
    | some c =>
      if isNewline c then
        incLine
        pure (.inl (buf ++ [10]))
      else if c = ch ']' then
        if ← checkClosingLongBracket sep then
          skip (2 + sep) (2 + sep)
          pure (.inr (if isComment then [] else buf))
        else
          let _ ← advance
          pure (.inl (if isComment then buf else buf ++ [ch ']']))
      else
        let _ ← advance
        pure (.inl (if isComment then buf else buf ++ [c]))) []

/-! ### Scanning -/

/-- Keeps the source of a token that starts at `start` and ends here. -/
def saveTokenText (start : ℕ) : LexM Unit :=
  change fun s => { s with lastTokenText := fromUtf8Lossy (s.lexeme start) }

/-- The error of the reader, if there is one to be reported. -/
def raiseReaderError : LexM Unit := do
  match ← observe (·.readerError) with
  | some e =>
    change fun s => { s with readerError := none }
    throw (.source e)
  | none => pure ()

/-- The long bracket that a comment starts with, if it does. -/
def commentSep : LexM Sep := do
  if (← peek) = some (ch '[') then countSep else pure .bracket

/-- A minus sign, or nothing for a comment. -/
def scanMinus : LexM (Option Token) := do
  let _ ← advance
  if (← peek) ≠ some (ch '-') then pure (some (.char (ch '-')))
  else
    let _ ← advance
    match ← commentSep with
    | .level n =>
      let _ ← readLongString n true
      pure none
    | _ =>
      advanceWhile fun c => !isNewline c
      pure none

def scanBracket (start : ℕ) : LexM Token := do
  match ← countSep with
  | .level n =>
    let s ← readLongString n false
    saveTokenText start
    pure (.str s)
  | .invalid => syntaxErrorNear "invalid long string delimiter" "["
  | .bracket =>
    let _ ← advance
    pure (.char (ch '['))

/-- `c`, or `pair` where a `=` follows. -/
def scanPair (c : UInt8) (pair : Token) : LexM Token := do
  let _ ← advance
  if (← peek) = some (ch '=') then
    let _ ← advance
    pure pair
  else if c = ch '~' then syntaxErrorNear "unexpected symbol" "~"
  else pure (.char c)

def scanDots (num : Numerals) : LexM Token := do
  let _ ← advance
  let c ← peek
  if c = some (ch '.') then
    let _ ← advance
    if (← peek) = some (ch '.') then
      let _ ← advance
      pure .dots
    else pure .concat
  else if c.any isAsciiDigit then
    let n ← readNumber num (ch '.')
    pure (.number n)
  else pure (.char (ch '.'))

def scanName : LexM Token := do
  let name ← scanNameExtent
  pure ((lookupKeyword name).getD (.name (fromUtf8Lossy name)))

/-- What starts with `c` at the current position: a token, or nothing for a newline or a comment. -/
def scanFrom (num : Numerals) (c : UInt8) (start : ℕ) : LexM (Option Token) := do
  if isNewline c then
    incLine
    pure none
  else if c = ch '-' then scanMinus
  else if c = ch '[' then
    let t ← scanBracket start
    pure (some t)
  else if c = ch '=' then
    let t ← scanPair c .eq
    pure (some t)
  else if c = ch '<' then
    let t ← scanPair c .le
    pure (some t)
  else if c = ch '>' then
    let t ← scanPair c .ge
    pure (some t)
  else if c = ch '~' then
    let t ← scanPair c .ne
    pure (some t)
  else if c = ch '.' then
    let t ← scanDots num
    pure (some t)
  else if c = 34 ∨ c = 39 then
    let s ← readShortString c
    saveTokenText start
    pure (some (.str s))
  else if isAsciiDigit c then
    let n ← readNumber num c
    pure (some (.number n))
  else if CharClasses.ascii.isalpha c ∨ c = ch '_' then
    let t ← scanName
    pure (some t)
  else
    let _ ← advance
    pure (some (.char c))

/-- One round of the scan loop. -/
def scanRound (num : Numerals) : LexM (Unit ⊕ (Token × Location)) := do
  raiseReaderError
  skipWhitespace
  raiseReaderError
  let span ← currentSpan
  let start ← observe (·.pos)
  match ← peek with
  | none =>
    raiseReaderError
    pure (.inr (.eos, span))
  | some c =>
    match ← scanFrom num c start with
    | some t => pure (.inr (t, span))
    | none => pure (.inl ())

/-- Main scan loop: skip whitespace and comments, then dispatch on the character. -/
def scan (num : Numerals) : LexM (Token × Location) := loop (fun _ => scanRound num) ()

/-- The next token. A token that was peeked at comes first. -/
def next (num : Numerals) : LexM (Token × Location) := do
  match ← observe (·.lookahead) with
  | some la =>
    change fun s => { s with lookahead := none }
    pure la
  | none => scan num

/-- Peeks at the next token without consuming it. -/
def lookahead (num : Numerals) : LexM Token := do
  match ← observe (·.lookahead) with
  | some la => pure la.1
  | none =>
    let la ← scan num
    change fun s => { s with lookahead := some la }
    pure la.1

end LexM

/-- What a user of the lexer asks it for. -/
inductive LexerCall where
  | next
  | lookahead
  deriving DecidableEq

/-- What the user gets to know by a call: the answer, the line that has been reached and the text of the last
    token that has one. A token that is only peeked at comes without its position. -/
structure LexerReport where
  answer : Except ParseError (Token × Option Location)
  line : ℕ
  lastTokenText : String

namespace LexM

def perform (num : Numerals) : LexerCall → LexM (Token × Option Location)
  | .next => do
    let (t, span) ← next num
    pure (t, some span)
  | .lookahead => do
    let t ← lookahead num
    pure (t, none)

end LexM

/-- The reports of a sequence of calls. The lexer may be called again after an error. -/
def LexerState.reports (num : Numerals) : List LexerCall → LexerState → List LexerReport
  | [], _ => []
  | call :: calls, s =>
    match LexM.perform num call s with
    | .ok a s => ⟨.ok a, s.line, s.lastTokenText⟩ :: LexerState.reports num calls s
    | .error e s => ⟨.error e, s.line, s.lastTokenText⟩ :: LexerState.reports num calls s

end Rilua.Compiler
