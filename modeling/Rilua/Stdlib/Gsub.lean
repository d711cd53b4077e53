import Rilua.Stdlib.Matches

/-! `string.gsub` (`stdlib/string.rs`): the loop over the subject and the replacement of a match. -/

namespace Rilua.Stdlib

open Vm
open Lib.Printf (digitsText)

/-! ### The replacement of a match -/

/-- What a replacement asks the machine, which has state `σ`: to index a table, and to call a function. -/
structure GsubHost (σ : Type) where
  gettable : σ → Gc.GcRef .table → MatchVal → Except LuaError LuaVal × σ
  callFunction : σ → Gc.GcRef .closure → List MatchVal → Except LuaError LuaVal × σ

def invalidCaptureIndex (n : ℕ) : LuaError := ⟨s!"invalid capture index %{n}"⟩

/-- The text of `%n` in a replacement. -/
def captureText (s : List UInt8) (m : GMatch) (n : ℕ) : Native (List UInt8) :=
  let whole : Native (List UInt8) := (cut s m.start m.stop).map .ok
  if n = 0 then whole
  else
    match m.captures[n - 1]? with
    | none => if n = 1 ∧ m.captures = [] then whole else .error (invalidCaptureIndex n)
    | some cap =>
      match cap.len with
      | .finished len => (cut s cap.start (cap.start + len)).map .ok
      | .position => .ok (digitsText 10 false (cap.start + 1))
      | .unfinished => .error unfinishedCapture

/-- String replacement with capture references (%0-%9). -/
def expandReplacement (s : List UInt8) (m : GMatch) : List UInt8 → Native (List UInt8)
  | [] => .ok []
  | [b] => .ok [b]
  | b :: next :: rest =>
    if b = ch '%' ∧ isAsciiDigit next = true then
      (captureText s m (next.toNat - (ch '0').toNat)).bind fun text =>
        (expandReplacement s m rest).bind fun result => .ok (text ++ result)
    else if b = ch '%' ∧ next = ch '%' then
      (expandReplacement s m rest).bind fun result => .ok (ch '%' :: result)
    else (expandReplacement s m (next :: rest)).bind fun result => .ok (b :: result)

/-- Convert a replacement value to bytes. If nil/false, use the original match. -/
def valToReplacement (host : StringHost) (s : List UInt8) (m : GMatch) : LuaVal → Native (List UInt8)
  | .nil => (cut s m.start m.stop).map .ok
  | .bool false => (cut s m.start m.stop).map .ok
  | .str bytes => .ok bytes
  | val => .ok (host.display val)

/-- The key to index a table with: the first capture, or the whole match. -/
def replacementKey (s : List UInt8) (m : GMatch) : Native MatchVal :=
  match m.captures with
  | [] => (cut s m.start m.stop).map fun bytes => .ok (.text bytes)
  | cap :: _ => getCaptureVal s cap

/-- Goes on with the value that the machine gives. -/
def replaceBy {σ α : Type} (host : StringHost) (s : List UInt8) (m : GMatch) (st : σ) (arg : Native α)
    (call : α → Except LuaError LuaVal × σ) : Native (List UInt8) × σ :=
  match arg with
  | none => (none, st)
  | some (.error e) => (.error e, st)
  | some (.ok a) =>
    match call a with
    | (.error e, st) => (.error e, st)
    | (.ok val, st) => (valToReplacement host s m val, st)

/-- Gets the replacement string for a match. -/
def getGsubReplacement {σ : Type} (host : StringHost) (machine : GsubHost σ) (s : List UInt8) (repl : LuaVal) (st : σ)
    (m : GMatch) : Native (List UInt8) × σ :=
  match repl with
  | .str bytes => (expandReplacement s m bytes, st)
  | .table r => replaceBy host s m st (replacementKey s m) (machine.gettable st r)
  | .function r => replaceBy host s m st (matchValues s m) (machine.callFunction st r)
  | _ => ((cut s m.start m.stop).map .ok, st)

/-! ### The loop -/

/-- What has been written, where to go on, and the number of matches so far. -/
structure GsubAcc where
  result : List UInt8
  pos : ℕ
  count : ℕ

/-- Goes on without a match. -/
def GsubAcc.skip (s : List UInt8) (acc : GsubAcc) : GsubAcc :=
  { acc with result := acc.result ++ s[acc.pos]?.toList, pos := acc.pos + 1 }

/-- Writes the replacement of a match. For empty matches, advances by 1 byte. -/
def GsubAcc.replace (s : List UInt8) (acc : GsubAcc) (m : GMatch) (text : List UInt8) : GsubAcc :=
  if m.stop = acc.pos then ⟨acc.result ++ text ++ s[acc.pos]?.toList, acc.pos + 1, acc.count + 1⟩
  else ⟨acc.result ++ text, m.stop, acc.count + 1⟩

theorem GsubAcc.count_replace (s : List UInt8) (acc : GsubAcc) (m : GMatch) (text : List UInt8) :
    (acc.replace s m text).count = acc.count + 1 := by
  rw [replace]
  split <;> rfl

theorem GsubAcc.pos_replace {s : List UInt8} {acc : GsubAcc} {m : GMatch} (h : m.start = acc.pos) (text : List UInt8) :
    (acc.replace s m text).pos = m.next := by
  rw [replace, GMatch.next, h]
  split
  · next heq => rw [heq]
  · rfl

def gsubLoop {σ : Type} (cc : CharClasses) (s pattern : List UInt8) (anchor : Bool) (maxReplacements : ℕ)
    (replacement : σ → GMatch → Native (List UInt8) × σ) (acc : GsubAcc) (st : σ) : Native GsubAcc × σ :=
  if _h : acc.count < maxReplacements ∧ acc.pos ≤ s.length then
    match matchAt cc s pattern acc.pos with
    | none => (none, st)
    | some (.error e) => (.error e, st)
    | some (.ok (some m)) =>
      match replacement st m with
      | (none, st) => (none, st)
      | (some (.error e), st) => (.error e, st)
      | (some (.ok text), st) =>
        if anchor then (.ok (acc.replace s m text), st)
        else gsubLoop cc s pattern anchor maxReplacements replacement (acc.replace s m text) st
    | some (.ok none) =>
      if anchor then (.ok (acc.skip s), st)
      else gsubLoop cc s pattern anchor maxReplacements replacement (acc.skip s) st
  else (.ok acc, st)
termination_by (maxReplacements - acc.count, s.length + 1 - acc.pos)
decreasing_by
  · have := acc.count_replace s m text
    exact Prod.Lex.left _ _ (by omega)
  · change Prod.Lex _ _ (maxReplacements - acc.count, s.length + 1 - (acc.pos + 1)) _
    exact Prod.Lex.right _ (by omega)

section Loop

variable {σ : Type} {cc : CharClasses} {s pattern : List UInt8} {anchor : Bool} {maxReplacements : ℕ}
  {replacement : σ → GMatch → Native (List UInt8) × σ} {acc : GsubAcc} {st st' : σ} {m : GMatch} {text : List UInt8}
  {e : LuaError}

theorem gsubLoop_stop (h : ¬ (acc.count < maxReplacements ∧ acc.pos ≤ s.length)) :
    gsubLoop cc s pattern anchor maxReplacements replacement acc st = (.ok acc, st) := by
  rw [gsubLoop, dif_neg h]

theorem gsubLoop_error (h : acc.count < maxReplacements ∧ acc.pos ≤ s.length)
    (hm : matchAt cc s pattern acc.pos = .error e) :
    gsubLoop cc s pattern anchor maxReplacements replacement acc st = (.error e, st) := by
  rw [gsubLoop, dif_pos h, hm]
  rfl

theorem gsubLoop_skip (h : acc.count < maxReplacements ∧ acc.pos ≤ s.length)
    (hm : matchAt cc s pattern acc.pos = .ok none) :
    gsubLoop cc s pattern anchor maxReplacements replacement acc st =
      if anchor then (.ok (acc.skip s), st)
      else gsubLoop cc s pattern anchor maxReplacements replacement (acc.skip s) st := by
  rw [gsubLoop, dif_pos h, hm]
  rfl

theorem gsubLoop_replace (h : acc.count < maxReplacements ∧ acc.pos ≤ s.length)
    (hm : matchAt cc s pattern acc.pos = .ok (some m)) (hr : replacement st m = (.ok text, st')) :
    gsubLoop cc s pattern anchor maxReplacements replacement acc st =
      if anchor then (.ok (acc.replace s m text), st')
      else gsubLoop cc s pattern anchor maxReplacements replacement (acc.replace s m text) st' := by
  rw [gsubLoop, dif_pos h, hm]
  simp only [Native.ok, hr]

theorem gsubLoop_replace_error (h : acc.count < maxReplacements ∧ acc.pos ≤ s.length)
    (hm : matchAt cc s pattern acc.pos = .ok (some m)) (hr : replacement st m = (.error e, st')) :
    gsubLoop cc s pattern anchor maxReplacements replacement acc st = (.error e, st') := by
  rw [gsubLoop, dif_pos h, hm]
  simp only [Native.ok, Native.error, hr]

end Loop

/-! ### The call -/

structure GsubArgs where
  s : List UInt8
  pat : List UInt8
  repl : LuaVal
  maxReplacements : ℕ

def gsubArgs (host : StringHost) (args : List LuaVal) : Except LuaError GsubArgs := do
  checkArgCount "string.gsub" args 3
  let s ← checkString host args "string.gsub" 0
  let pat ← checkString host args "string.gsub" 1
  let n ← optInt host args "string.gsub" 3 (2 ^ 63 - 1)
  pure ⟨s, pat, argAt args 2, (max n 0).toNat⟩

/-- Replaces the matches: the text and the number of matches. -/
def gsub {σ : Type} (cc : CharClasses) (a : GsubArgs) (replacement : σ → GMatch → Native (List UInt8) × σ) (st : σ) :
    Native (List UInt8 × ℕ) × σ :=
  match gsubLoop cc a.s (patternOf a.pat) (isAnchored a.pat) a.maxReplacements replacement ⟨[], 0, 0⟩ st with
  | (none, st) => (none, st)
  | (some (.error e), st) => (.error e, st)
  | (some (.ok acc), st) => (.ok (acc.result ++ a.s.drop acc.pos, acc.count), st)

def strGsub {σ : Type} (host : StringHost) (machine : GsubHost σ) (cc : CharClasses) (args : List LuaVal) (st : σ) :
    Native (List UInt8 × ℕ) × σ :=
  match gsubArgs host args with
  | .error e => (.error e, st)
  | .ok a => gsub cc a (getGsubReplacement host machine a.s a.repl) st

end Rilua.Stdlib
