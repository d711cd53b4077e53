import Rilua.Stdlib.Pattern

/-! Lua 5.1's pattern matcher (the functions `match`, `classend`, `matchbracketclass`, `singlematch` and
    their helpers of its string library), to compare `MatchState` with. A pattern is a C string there: it
    ends at its first zero byte, and reading one byte past the end gives zero. Captures are passed down,
    so nothing has to be undone when an alternative fails, and there is no limit on the depth.

    `doMatch` has one more argument: it stops, with `error none`, at the first configuration that `watch`
    rejects. With a `watch` that accepts everything it is the matcher of Lua 5.1. -/

namespace Rilua.Stdlib.Lua51

/-- The result of a match: `error none` if it was stopped. -/
abbrev Outcome := Except (Option MatchError) (Option (ℕ × List Capture))

/-- Tries the next alternative if there is no match. -/
def orElse (r next : Outcome) : Outcome :=
  match r with
  | .ok none => next
  | r => r

theorem lt_length_of_byteAt {s : List UInt8} {i : ℕ} (h : byteAt s i ≠ 0) : i < s.length := by
  by_contra hle
  rw [byteAt, List.getElem?_eq_none (by omega)] at h
  exact h rfl

/-- The position after one character of a set, or after one escape. -/
def skipSetChar (pat : List UInt8) (p : ℕ) : ℕ :=
  if byteAt pat p = ch '%' ∧ byteAt pat (p + 1) ≠ 0 then p + 2 else p + 1

theorem lt_skipSetChar (pat : List UInt8) (p : ℕ) : p < skipSetChar pat p := by
  rw [skipSetChar]
  split <;> omega

/-- `classend` inside a set: the position after the closing bracket. -/
def setEnd (pat : List UInt8) (p : ℕ) : Except MatchError ℕ :=
  if _h : byteAt pat p = 0 then .error .missingClose
  else
    let q := skipSetChar pat p
    if byteAt pat q = ch ']' then .ok (q + 1) else setEnd pat q
termination_by pat.length - p
decreasing_by
  have hlt := lt_length_of_byteAt _h
  have hskip := lt_skipSetChar pat p
  omega

/-- `classend`: the position after the single-character item at `p`. -/
def classend (pat : List UInt8) (p : ℕ) : Except MatchError ℕ :=
  if byteAt pat p = ch '%' then
    if byteAt pat (p + 1) = 0 then .error .endsWithEscape else .ok (p + 2)
  else if byteAt pat p = ch '[' then
    setEnd pat (if byteAt pat (p + 1) = ch '^' then p + 2 else p + 1)
  else .ok (p + 1)

/-- The loop of `matchbracketclass`. -/
def setScan (cc : CharClasses) (pat : List UInt8) (c : UInt8) (ec p : ℕ) : Bool :=
  if p < ec then
    if byteAt pat p = ch '%' then
      if matchclass cc c (byteAt pat (p + 1)) then true else setScan cc pat c ec (p + 2)
    else if byteAt pat (p + 1) = ch '-' ∧ p + 2 < ec then
      if byteAt pat p ≤ c ∧ c ≤ byteAt pat (p + 2) then true else setScan cc pat c ec (p + 3)
    else if byteAt pat p = c then true
    else setScan cc pat c ec (p + 1)
  else false
termination_by ec - p

/-- `matchbracketclass`, for the set from `p` to its closing bracket at `ec`. -/
def matchbracketclass (cc : CharClasses) (pat : List UInt8) (c : UInt8) (p ec : ℕ) : Bool :=
  if byteAt pat (p + 1) = ch '^' then !setScan cc pat c ec (p + 2) else setScan cc pat c ec (p + 1)

/-- `s < src_end && singlematch(*s, p, ep)`. -/
def singlematch (cc : CharClasses) (src pat : List UInt8) (p ep s : ℕ) : Bool :=
  if s < src.length then
    if byteAt pat p = ch '.' then true
    else if byteAt pat p = ch '%' then matchclass cc (byteAt src s) (byteAt pat (p + 1))
    else if byteAt pat p = ch '[' then matchbracketclass cc pat (byteAt src s) p (ep - 1)
    else byteAt pat p == byteAt src s
  else false

/-- `max_expand`, after `n` characters have been matched. -/
def maxExpand (k : ℕ → Outcome) (s : ℕ) : ℕ → Outcome
  | 0 => k s
  | n + 1 => orElse (k (s + (n + 1))) (maxExpand k s n)

/-- `min_expand`. -/
def minExpand (src : List UInt8) (single : ℕ → Bool) (k : ℕ → Outcome) (s : ℕ) : Outcome :=
  orElse (k s) (if s < src.length ∧ single s = true then minExpand src single k (s + 1) else .ok none)
termination_by src.length - s

/-- `start_capture`. -/
def startCapture (len : CaptureLen) (k : ℕ → List Capture → Outcome) (s : ℕ) (caps : List Capture) :
    Outcome :=
  if luaMaxCaptures ≤ caps.length then .error (some .tooManyCaptures) else k s (caps ++ [⟨s, len⟩])

/-- `end_capture`. -/
def endCapture (k : ℕ → List Capture → Outcome) (s : ℕ) (caps : List Capture) : Outcome :=
  match findOpenCapture caps with
  | none => .error (some .invalidPatternCapture)
  | some i => k s (setLen caps i (.finished (s - captureStart caps i)))

/-- `matchbalance`, for the delimiters at `p` and `p + 1`. -/
def matchbalance (src pat : List UInt8) (k : ℕ → Outcome) (s p : ℕ) : Outcome :=
  if byteAt pat p = 0 ∨ byteAt pat (p + 1) = 0 then .error (some .unbalancedPattern)
  else if byteAt src s ≠ byteAt pat p then .ok none
  else
    match balanceEnd src (byteAt pat p) (byteAt pat (p + 1)) (s + 1) 1 with
    | some e => k (e + 1)
    | none => .ok none

/-- `match_capture`. The length of a position capture is not one that the subject has room for. -/
def matchCapture (src : List UInt8) (k : ℕ → Outcome) (s : ℕ) (digit : UInt8) (caps : List Capture) :
    Outcome :=
  let l := digit.toNat - (ch '0').toNat
  if l = 0 ∨ caps.length < l then .error (some .invalidCaptureIndex)
  else
    match caps[l - 1]? with
    | some ⟨start, .finished len⟩ =>
      if s + len ≤ src.length ∧ slice src start len = slice src s len then k (s + len) else .ok none
    | some ⟨_, .position⟩ => .ok none
    | _ => .error (some .invalidCaptureIndex)

theorem lt_setEnd {pat : List UInt8} {p e : ℕ} (h : setEnd pat p = .ok e) : p < e := by
  fun_induction setEnd pat p with
  | case1 => cases h
  | case2 p hz q hq => cases h; exact Nat.lt_succ_of_lt (lt_skipSetChar pat p)
  | case3 p hz q hq ih => exact (lt_skipSetChar pat p).trans (ih h)

theorem lt_classend {pat : List UInt8} {p e : ℕ} (h : classend pat p = .ok e) : p < e := by
  rw [classend] at h
  split at h
  · split at h
    · cases h
    · cases h; omega
  · split at h
    · have := lt_setEnd h
      split at this <;> omega
    · cases h; omega

/-- `match`, with the positions `s` in the subject and `p` in the pattern. -/
def doMatch (cc : CharClasses) (src pat : List UInt8) (watch : ℕ → List Capture → Bool) (s p : ℕ)
    (caps : List Capture) : Outcome :=
  if watch p caps = false then .error none
  else if _h : byteAt pat p = 0 then .ok (some (s, caps))
  else if byteAt pat p = ch '(' then
    if byteAt pat (p + 1) = ch ')' then
      startCapture .position (fun s => doMatch cc src pat watch s (p + 2)) s caps
    else startCapture .unfinished (fun s => doMatch cc src pat watch s (p + 1)) s caps
  else if byteAt pat p = ch ')' then endCapture (fun s => doMatch cc src pat watch s (p + 1)) s caps
  else if byteAt pat p = ch '%' ∧ byteAt pat (p + 1) = ch 'b' then
    matchbalance src pat (fun s => doMatch cc src pat watch s (p + 4) caps) s (p + 2)
  else if byteAt pat p = ch '%' ∧ byteAt pat (p + 1) = ch 'f' then
    if byteAt pat (p + 2) ≠ ch '[' then .error (some .missingBracket)
    else
      match _he : classend pat (p + 2) with
      | .error e => .error (some e)
      | .ok ep =>
        let previous := if s = 0 then 0 else byteAt src (s - 1)
        if matchbracketclass cc pat previous (p + 2) (ep - 1) ||
            !matchbracketclass cc pat (byteAt src s) (p + 2) (ep - 1) then .ok none
        else doMatch cc src pat watch s ep caps
  else if byteAt pat p = ch '%' ∧ isAsciiDigit (byteAt pat (p + 1)) = true then
    matchCapture src (fun s => doMatch cc src pat watch s (p + 2) caps) s (byteAt pat (p + 1)) caps
  else if byteAt pat p = ch '$' ∧ byteAt pat (p + 1) = 0 then
    .ok (if s = src.length then some (s, caps) else none)
  else
    match _he : classend pat p with
    | .error e => .error (some e)
    | .ok ep =>
      let m := singlematch cc src pat p ep
      let rest := fun s => doMatch cc src pat watch s (ep + 1) caps
      if byteAt pat ep = ch '?' then
        if m s then
          orElse (rest (s + 1)) (doMatch cc src pat watch s (ep + 1) caps)
        else doMatch cc src pat watch s (ep + 1) caps
      else if byteAt pat ep = ch '*' then maxExpand rest s (countMatches src m s)
      else if byteAt pat ep = ch '+' then
        if m s then maxExpand rest (s + 1) (countMatches src m (s + 1)) else .ok none
      else if byteAt pat ep = ch '-' then minExpand src m rest s
      else if m s then doMatch cc src pat watch (s + 1) ep caps
      else .ok none
termination_by pat.length - p
decreasing_by
  all_goals
    have hlt := lt_length_of_byteAt _h
    first
      | omega
      | (have he := lt_classend _he; omega)

/-- The matcher of Lua 5.1. -/
def match_ (cc : CharClasses) (src pat : List UInt8) : ℕ → ℕ → List Capture → Outcome :=
  doMatch cc src pat fun _ _ => true

example : match_ .ascii "(a(b)c)".toUTF8.data.toList "%b()".toUTF8.data.toList 0 0 [] = .ok (some (7, [])) := by
  decide +kernel

end Rilua.Stdlib.Lua51
