import Mathlib.Data.Nat.Notation
import Mathlib.Data.List.Basic
import Mathlib.Algebra.Order.Group.Nat

/-! Lua patterns (`stdlib/string.rs`): the backtracking matcher `MatchState`. Subject and pattern are byte
    lists, positions count from 0. An access by index that the code has checked to be in range is `byteAt`.
    The character classes are the C library's, so they are a parameter. -/

namespace Rilua.Stdlib

/-- The byte at position `i`, 0 past the end. -/
def byteAt (s : List UInt8) (i : ℕ) : UInt8 := s[i]?.getD 0

/-- The byte of an ASCII character. -/
def ch (c : Char) : UInt8 := c.toNat.toUInt8

/-- Classification of characters by the current locale. -/
structure CharClasses where
  isalpha : UInt8 → Bool
  iscntrl : UInt8 → Bool
  isdigit : UInt8 → Bool
  islower : UInt8 → Bool
  ispunct : UInt8 → Bool
  isspace : UInt8 → Bool
  isupper : UInt8 → Bool
  isalnum : UInt8 → Bool
  isxdigit : UInt8 → Bool

def isAsciiDigit (c : UInt8) : Bool := ch '0' ≤ c && c ≤ ch '9'

def isAsciiUpper (c : UInt8) : Bool := ch 'A' ≤ c && c ≤ ch 'Z'

def isAsciiLower (c : UInt8) : Bool := ch 'a' ≤ c && c ≤ ch 'z'

def toAsciiLower (c : UInt8) : UInt8 := if isAsciiUpper c then c + 32 else c

/-- The classification of the "C" locale, as on targets without a C library. -/
def CharClasses.ascii : CharClasses where
  isalpha c := isAsciiUpper c || isAsciiLower c
  iscntrl c := c ≤ 31 || c == 127
  isdigit := isAsciiDigit
  islower := isAsciiLower
  ispunct c := 33 ≤ c && c ≤ 126 && !(isAsciiUpper c || isAsciiLower c || isAsciiDigit c)
  isspace c := c == 32 || (9 ≤ c && c ≤ 13 && c != 11)
  isupper := isAsciiUpper
  isalnum c := isAsciiUpper c || isAsciiLower c || isAsciiDigit c
  isxdigit c := isAsciiDigit c || (ch 'a' ≤ c && c ≤ ch 'f') || (ch 'A' ≤ c && c ≤ ch 'F')

/-- The class a letter stands for, if it stands for one. -/
def CharClasses.ofLetter (cc : CharClasses) (letter : UInt8) : Option (UInt8 → Bool) :=
  if letter = ch 'a' then some cc.isalpha
  else if letter = ch 'c' then some cc.iscntrl
  else if letter = ch 'd' then some cc.isdigit
  else if letter = ch 'l' then some cc.islower
  else if letter = ch 'p' then some cc.ispunct
  else if letter = ch 's' then some cc.isspace
  else if letter = ch 'u' then some cc.isupper
  else if letter = ch 'w' then some cc.isalnum
  else if letter = ch 'x' then some cc.isxdigit
  else if letter = ch 'z' then some fun c => c == 0
  else none

/-- Whether a character is in the class of an escape. An uppercase letter complements the class, and an
    escape that names no class stands for the character itself. -/
def matchclass (cc : CharClasses) (c cl : UInt8) : Bool :=
  match cc.ofLetter (toAsciiLower cl) with
  | some isClass => if isAsciiUpper cl then !isClass c else isClass c
  | none => c == cl

inductive CaptureLen where
  | finished (len : ℕ)
  | unfinished
  | position
  deriving DecidableEq, Repr

structure Capture where
  start : ℕ
  len : CaptureLen
  deriving DecidableEq, Repr

/-- The errors of the matcher. -/
inductive MatchError where
  | patternTooComplex
  | tooManyCaptures
  | invalidPatternCapture
  | invalidCaptureIndex
  | unbalancedPattern
  | missingBracket
  | endsWithEscape
  | missingClose
  deriving DecidableEq, Repr

/-- The messages. The last two are raised by Lua 5.1 only. -/
def MatchError.message : MatchError → String
  | .patternTooComplex => "pattern too complex"
  | .tooManyCaptures => "too many captures"
  | .invalidPatternCapture => "invalid pattern capture"
  | .invalidCaptureIndex => "invalid capture index"
  | .unbalancedPattern => "unbalanced pattern"
  | .missingBracket => "missing '[' after '%f' in pattern"
  | .endsWithEscape => "malformed pattern (ends with '%')"
  | .missingClose => "malformed pattern (missing ']')"

def luaMaxCaptures : ℕ := 32

/-- Maximum recursion depth of the matcher. -/
def maxCCallsPattern : ℕ := 200

/-- The part of `MatchState` that changes during a match. -/
structure MatchState where
  captures : List Capture := []
  level : ℕ := 0
  depth : ℕ := 0
  deriving DecidableEq, Repr

/-- The end of the match, if there is one, and the state after it. After an error there is none. -/
abbrev MatchResult := Except MatchError (Option ℕ × MatchState)

/-- Goes on with `next` if there is no match. -/
def onFail (r : MatchResult) (next : MatchState → MatchResult) : MatchResult :=
  match r with
  | .ok (none, st) => next st
  | r => r

inductive Quantifier where | greedy | plus | lazy | optional | none
  deriving DecidableEq

/-! ### Character classes of a pattern -/

/-- The position after one character of a set, or after one escape. -/
def skipSetChar (pat : List UInt8) (pos : ℕ) : ℕ :=
  (if byteAt pat pos = ch '%' ∧ pos + 1 < pat.length then pos + 1 else pos) + 1

theorem lt_skipSetChar (pat : List UInt8) (pos : ℕ) : pos < skipSetChar pat pos := by
  rw [skipSetChar]
  split <;> omega

/-- The loop of `class_end` over the characters of a set: the position after the closing bracket, or the
    end of the pattern if there is none. At least one character is read before a bracket closes. -/
def setEnd (pat : List UInt8) (pos : ℕ) : ℕ :=
  if pat.length ≤ pos then pos
  else
    let pos' := skipSetChar pat pos
    if pos' < pat.length ∧ byteAt pat pos' = ch ']' then pos' + 1 else setEnd pat pos'
termination_by pat.length - pos
decreasing_by
  have hlt := lt_skipSetChar pat pos
  omega

/-- The position past the class at `patPos`. -/
def classEnd (pat : List UInt8) (patPos : ℕ) : ℕ :=
  if pat.length ≤ patPos then patPos
  else if byteAt pat patPos = ch '%' then
    if patPos + 1 < pat.length then patPos + 2 else patPos + 1
  else if byteAt pat patPos = ch '[' then
    setEnd pat (if patPos + 1 < pat.length ∧ byteAt pat (patPos + 1) = ch '^' then patPos + 2
      else patPos + 1)
  else patPos + 1

/-- The loop of `matchbracketclass` over the characters between the brackets. -/
def setLoop (cc : CharClasses) (pat : List UInt8) (c : UInt8) (ec pos : ℕ) (matched : Bool) : Bool :=
  if pos < ec then
    if byteAt pat pos = ch '%' ∧ pos + 1 < ec then
      setLoop cc pat c ec (pos + 2) (matched || matchclass cc c (byteAt pat (pos + 1)))
    else if pos + 2 < ec ∧ byteAt pat (pos + 1) = ch '-' then
      setLoop cc pat c ec (pos + 3) (matched || (byteAt pat pos ≤ c && c ≤ byteAt pat (pos + 2)))
    else setLoop cc pat c ec (pos + 1) (matched || c == byteAt pat pos)
  else matched
termination_by ec - pos

/-- Matches a character against the set at `patPos`; also returns the end of the set. -/
def matchbracketclass (cc : CharClasses) (pat : List UInt8) (c : UInt8) (patPos : ℕ) : Bool × ℕ :=
  let classEndPos := classEnd pat patPos
  let ec := classEndPos - 1
  let complement := patPos + 1 < ec ∧ byteAt pat (patPos + 1) = ch '^'
  let matched := setLoop cc pat c ec (if complement then patPos + 2 else patPos + 1) false
  (if complement then !matched else matched, classEndPos)

/-- Matches the character at `srcPos` against the class at `patPos`. -/
def singlematch (cc : CharClasses) (src pat : List UInt8) (srcPos patPos : ℕ) : Bool :=
  if src.length ≤ srcPos then false
  else
    let c := byteAt src srcPos
    let p := byteAt pat patPos
    if p = ch '.' then true
    else if p = ch '%' then
      if patPos + 1 < pat.length then matchclass cc c (byteAt pat (patPos + 1)) else false
    else if p = ch '[' then (matchbracketclass cc pat c patPos).1
    else c == p

/-- The end of the class at `patPos` and the quantifier that follows. -/
def getQuantifier (pat : List UInt8) (patPos : ℕ) : ℕ × Quantifier :=
  let e := classEnd pat patPos
  if e < pat.length then
    if byteAt pat e = ch '*' then (e, .greedy)
    else if byteAt pat e = ch '+' then (e, .plus)
    else if byteAt pat e = ch '-' then (e, .lazy)
    else if byteAt pat e = ch '?' then (e, .optional)
    else (e, .none)
  else (e, .none)

theorem lt_setEnd (pat : List UInt8) (pos : ℕ) (h : pos < pat.length) : pos < setEnd pat pos := by
  fun_induction setEnd pat pos with
  | case1 pos hle => omega
  | case2 pos hle pos' hclose =>
    have hlt : pos < pos' := lt_skipSetChar pat pos
    omega
  | case3 pos hle pos' hclose ih =>
    have hlt : pos < pos' := lt_skipSetChar pat pos
    rcases Nat.lt_or_ge pos' pat.length with hl | hl
    · exact hlt.trans (ih hl)
    · rw [setEnd, if_pos hl]; exact hlt

theorem le_setEnd (pat : List UInt8) (pos : ℕ) : pos ≤ setEnd pat pos := by
  rcases Nat.lt_or_ge pos pat.length with h | h
  · exact (lt_setEnd pat pos h).le
  · rw [setEnd, if_pos h]

theorem lt_classEnd {pat : List UInt8} {patPos : ℕ} (h : patPos < pat.length) :
    patPos < classEnd pat patPos := by
  have hset : ∀ pos, pos ≤ setEnd pat pos := le_setEnd pat
  rw [classEnd, if_neg (by omega)]
  split
  · split <;> omega
  · split
    · split
      · exact Nat.lt_of_lt_of_le (by omega) (hset (patPos + 2))
      · exact hset (patPos + 1)
    · omega

theorem le_classEnd (pat : List UInt8) (patPos : ℕ) : patPos ≤ classEnd pat patPos := by
  rcases Nat.lt_or_ge patPos pat.length with h | h
  · exact (lt_classEnd h).le
  · rw [classEnd, if_pos h]

@[simp] theorem getQuantifier_fst (pat : List UInt8) (patPos : ℕ) :
    (getQuantifier pat patPos).1 = classEnd pat patPos := by
  simp only [getQuantifier]
  repeat' split
  all_goals rfl

/-! ### The items of a pattern

    Each item gets the rest of the match as a function `k` of the position in the subject. -/

/-- Counts how many characters from `pos` on are matched by `single`. -/
def countMatches (src : List UInt8) (single : ℕ → Bool) (pos : ℕ) : ℕ :=
  if pos < src.length ∧ single pos = true then countMatches src single (pos + 1) + 1 else 0
termination_by src.length - pos

/-- The loop of `match_greedy`, from the longest match down. -/
def greedyDown (k : ℕ → MatchState → MatchResult) (srcPos : ℕ) : ℕ → MatchState → MatchResult
  | 0, st => k srcPos st
  | count + 1, st => onFail (k (srcPos + (count + 1)) st) (greedyDown k srcPos count)

/-- `match_greedy`: matches as many characters as possible, then backtracks. -/
def matchGreedy (src : List UInt8) (single : ℕ → Bool) (k : ℕ → MatchState → MatchResult) (srcPos : ℕ)
    (st : MatchState) : MatchResult :=
  greedyDown k srcPos (countMatches src single srcPos) st

/-- `match_lazy`: matches as few characters as possible; `pos` is `src_pos + count`. -/
def matchLazy (src : List UInt8) (single : ℕ → Bool) (k : ℕ → MatchState → MatchResult) (pos : ℕ)
    (st : MatchState) : MatchResult :=
  onFail (k pos st) fun st =>
    if pos < src.length ∧ single pos = true then matchLazy src single k (pos + 1) st else .ok (none, st)
termination_by src.length - pos

/-- `match_open_capture` and `match_position_capture`: opens a capture, dropped again on failure. -/
def openCapture (len : CaptureLen) (k : ℕ → MatchState → MatchResult) (srcPos : ℕ) (st : MatchState) :
    MatchResult :=
  if luaMaxCaptures ≤ st.captures.length then .error .tooManyCaptures
  else
    let capIdx := st.captures.length
    onFail (k srcPos { st with captures := st.captures ++ [⟨srcPos, len⟩], level := st.level + 1 })
      fun st => .ok (none, { st with captures := st.captures.take capIdx, level := st.level - 1 })

/-- The most recent unfinished capture. -/
def findOpenCapture (captures : List Capture) : Option ℕ :=
  (List.range captures.length).reverse.find? fun i => captures[i]?.any fun c => c.len = .unfinished

/-- Sets the length of capture `i`. -/
def setLen (captures : List Capture) (i : ℕ) (len : CaptureLen) : List Capture :=
  captures.modify i fun c => { c with len }

/-- The start of capture `i`. -/
def captureStart (captures : List Capture) (i : ℕ) : ℕ := (captures[i]?.map Capture.start).getD 0

/-- `match_close_capture`: closes the most recent open capture, reopened on failure. -/
def matchCloseCapture (k : ℕ → MatchState → MatchResult) (srcPos : ℕ) (st : MatchState) : MatchResult :=
  match findOpenCapture st.captures with
  | none => .error .invalidPatternCapture
  | some capIdx =>
    let start := captureStart st.captures capIdx
    onFail (k srcPos { st with
        captures := setLen st.captures capIdx (.finished (srcPos - start)), level := st.level - 1 })
      fun st => .ok (none, { st with captures := setLen st.captures capIdx .unfinished, level := st.level + 1 })

/-- The loop of `match_balance`: the position of the delimiter that brings the count to 0. -/
def balanceEnd (src : List UInt8) (opening closing : UInt8) (pos count : ℕ) : Option ℕ :=
  if pos < src.length then
    if byteAt src pos = closing then
      if count = 1 then some pos else balanceEnd src opening closing (pos + 1) (count - 1)
    else if byteAt src pos = opening then balanceEnd src opening closing (pos + 1) (count + 1)
    else balanceEnd src opening closing (pos + 1) count
  else none
termination_by src.length - pos

/-- `match_balance`: `%bxy`. -/
def matchBalance (src pat : List UInt8) (k : ℕ → MatchState → MatchResult) (srcPos patPos : ℕ)
    (st : MatchState) : MatchResult :=
  if pat.length ≤ patPos + 3 then .error .unbalancedPattern
  else
    let opening := byteAt pat (patPos + 2)
    let closing := byteAt pat (patPos + 3)
    if src.length ≤ srcPos ∨ byteAt src srcPos ≠ opening then .ok (none, st)
    else
      match balanceEnd src opening closing (srcPos + 1) 1 with
      | some pos => k (pos + 1) st
      | none => .ok (none, st)

/-- `match_frontier`: `%f[set]`. -/
def matchFrontier (cc : CharClasses) (src pat : List UInt8) (k : ℕ → MatchState → MatchResult)
    (srcPos patPos : ℕ) (st : MatchState) : MatchResult :=
  if pat.length ≤ patPos + 2 ∨ byteAt pat (patPos + 2) ≠ ch '[' then .error .missingBracket
  else
    let prev := if 0 < srcPos then byteAt src (srcPos - 1) else 0
    let curr := if srcPos < src.length then byteAt src srcPos else 0
    let prevMatches := (matchbracketclass cc pat prev (patPos + 2)).1
    let currMatches := (matchbracketclass cc pat curr (patPos + 2)).1
    if !prevMatches && currMatches then k srcPos st else .ok (none, st)

/-- The part of the subject a capture covers. -/
def slice (src : List UInt8) (start len : ℕ) : List UInt8 := (src.drop start).take len

/-- `match_backref`: `%1` to `%9`. -/
def matchBackref (src pat : List UInt8) (k : ℕ → MatchState → MatchResult) (srcPos patPos : ℕ)
    (st : MatchState) : MatchResult :=
  let n := (byteAt pat (patPos + 1)).toNat - (ch '0').toNat
  if n = 0 ∨ st.captures.length < n then .error .invalidCaptureIndex
  else
    match st.captures[n - 1]? with
    | some ⟨start, .finished len⟩ =>
      if src.length < srcPos + len then .ok (none, st)
      else if slice src srcPos len = slice src start len then k (srcPos + len) st
      else .ok (none, st)
    | _ => .error .invalidCaptureIndex

/-! ### The matcher -/

/-- What `match_` does around `match_inner`: it keeps the recursion depth. -/
def enter (body : MatchState → MatchResult) (st : MatchState) : MatchResult :=
  let st := { st with depth := st.depth + 1 }
  if maxCCallsPattern < st.depth then .error .patternTooComplex
  else
    match body st with
    | .ok (r, st) => .ok (r, { st with depth := st.depth - 1 })
    | .error e => .error e

/-- `match_inner`. A nested `match_` is `enter` of the matcher further on in the pattern. -/
def matchInner (cc : CharClasses) (src pat : List UInt8) (srcPos patPos : ℕ) (st : MatchState) :
    MatchResult :=
  if _h : patPos < pat.length then
    if byteAt pat patPos = ch '(' then
      if patPos + 1 < pat.length ∧ byteAt pat (patPos + 1) = ch ')' then
        openCapture .position (fun s => enter (matchInner cc src pat s (patPos + 2))) srcPos st
      else openCapture .unfinished (fun s => enter (matchInner cc src pat s (patPos + 1))) srcPos st
    else if byteAt pat patPos = ch ')' then
      matchCloseCapture (fun s => enter (matchInner cc src pat s (patPos + 1))) srcPos st
    else if byteAt pat patPos = ch '$' ∧ pat.length ≤ patPos + 1 then
      .ok (if srcPos = src.length then some srcPos else none, st)
    else
      let e := classEnd pat patPos
      let single := fun s => singlematch cc src pat s patPos
      let rest := fun s => enter (matchInner cc src pat s (e + 1))
      match (getQuantifier pat patPos).2 with
      | .greedy => matchGreedy src single rest srcPos st
      | .lazy => matchLazy src single rest srcPos st
      | .plus =>
        if srcPos < src.length ∧ single srcPos = true then matchGreedy src single rest (srcPos + 1) st
        else .ok (none, st)
      | .optional =>
        if srcPos < src.length ∧ single srcPos = true then
          onFail (rest (srcPos + 1) st) (matchInner cc src pat srcPos (e + 1))
        else matchInner cc src pat srcPos (e + 1) st
      | .none =>
        -- `%b`, `%f` and back-references are only looked at here
        if byteAt pat patPos = ch '%' ∧ patPos + 1 < pat.length ∧ byteAt pat (patPos + 1) = ch 'b' then
          matchBalance src pat (fun s => enter (matchInner cc src pat s (patPos + 4))) srcPos patPos st
        else if byteAt pat patPos = ch '%' ∧ patPos + 1 < pat.length ∧ byteAt pat (patPos + 1) = ch 'f' then
          matchFrontier cc src pat
            (fun s => enter (matchInner cc src pat s (classEnd pat (patPos + 2)))) srcPos patPos st
        else if byteAt pat patPos = ch '%' ∧ patPos + 1 < pat.length ∧
            isAsciiDigit (byteAt pat (patPos + 1)) = true then
          matchBackref src pat (fun s => enter (matchInner cc src pat s (patPos + 2))) srcPos patPos st
        else if srcPos < src.length ∧ single srcPos = true then matchInner cc src pat (srcPos + 1) e st
        else .ok (none, st)
  else .ok (some srcPos, st)
termination_by pat.length - patPos
decreasing_by
  all_goals
    have hlt := lt_classEnd _h
    have hle := le_classEnd pat (patPos + 2)
    omega

/-- `match_`: matches the pattern from `patPos` on against the subject from `srcPos` on. -/
def match_ (cc : CharClasses) (src pat : List UInt8) (srcPos patPos : ℕ) (st : MatchState) : MatchResult :=
  enter (matchInner cc src pat srcPos patPos) st

example : match_ .ascii "one one".toUTF8.data.toList "(%a+)%s+%1".toUTF8.data.toList 0 0 {} =
    .ok (some 7, ⟨[⟨0, .finished 3⟩], 0, 0⟩) := by decide +kernel

end Rilua.Stdlib
