import Rilua.Stdlib.Args
import Rilua.Stdlib.PatternChecked

/-! One attempt to match a pattern, and the values of a match, as the functions of the string library use them
    (`stdlib/string.rs`). A position is given before its conversion to `f64`. -/

namespace Rilua.Stdlib

open Vm

def Native.bind {α β : Type} (x : Native α) (f : α → Native β) : Native β :=
  match x with
  | none => none
  | some (.error e) => .error e
  | some (.ok a) => f a

theorem Native.bind_ok {α β : Type} (a : α) (f : α → Native β) : (Native.ok a).bind f = f a := rfl

theorem Native.bind_error {α β : Type} (e : LuaError) (f : α → Native β) : (Native.error e).bind f = .error e := rfl

/-- The call does not panic, and what it returns satisfies `P`. -/
def Native.Satisfies {α : Type} (x : Native α) (P : α → Prop) : Prop :=
  ∃ r, x = some r ∧ ∀ a, r = .ok a → P a

namespace Native.Satisfies

variable {α β : Type} {x : Native α} {P Q : α → Prop}

theorem ok {a : α} (h : P a) : (Native.ok a).Satisfies P :=
  ⟨_, rfl, fun a' ha => by
    cases ha
    exact h⟩

theorem error (e : LuaError) : (Native.error e : Native α).Satisfies P := ⟨_, rfl, fun a ha => by cases ha⟩

theorem ne_none (h : x.Satisfies P) : x ≠ none := by
  obtain ⟨r, rfl, -⟩ := h
  exact Option.some_ne_none r

theorem of_ok (h : x.Satisfies P) {a : α} (hx : x = .ok a) : P a := by
  obtain ⟨r, rfl, hr⟩ := h
  exact hr a (Option.some.inj hx)

theorem mono (h : x.Satisfies P) (hpq : ∀ a, P a → Q a) : x.Satisfies Q := by
  obtain ⟨r, rfl, hr⟩ := h
  exact ⟨r, rfl, fun a ha => hpq a (hr a ha)⟩

theorem bind {f : α → Native β} {R : β → Prop} (h : x.Satisfies P) (hf : ∀ a, P a → (f a).Satisfies R) :
    (x.bind f).Satisfies R := by
  obtain ⟨e | a, rfl, hr⟩ := h
  · exact error e
  · exact hf a (hr a rfl)

end Native.Satisfies

/-- A match: where it starts, where it stops, and its captures. -/
structure GMatch where
  start : ℕ
  stop : ℕ
  captures : List Capture
  deriving DecidableEq

/-- A value that the library returns for a match. The last position of an empty match is the one in front of it. -/
inductive MatchVal where
  | nil
  | position (n : ℕ)
  | last (n : ℕ)
  | text (bytes : List UInt8)
  deriving DecidableEq

/-! ### The attempt -/

/-- Whether the pattern starts with `^`. -/
def isAnchored (pat : List UInt8) : Bool := pat.head? == some (ch '^')

/-- The pattern behind the anchor. -/
def patternOf (pat : List UInt8) : List UInt8 := if isAnchored pat then pat.tail else pat

/-- `MatchState::new(&s, pattern).match_(pos, 0)`. -/
def matchAt (cc : CharClasses) (s pattern : List UInt8) (pos : ℕ) : Native (Option GMatch) :=
  match Checked.match_ cc s pattern pos 0 {} with
  | none => none
  | some (.error e) => .error ⟨e.message⟩
  | some (.ok (none, _)) => .ok none
  | some (.ok (some stop, st)) => .ok (some ⟨pos, stop, st.captures⟩)

/-! ### The values -/

/-- `&s[start..stop]`, which panics if there is no such part. -/
def cut (s : List UInt8) (start stop : ℕ) : Option (List UInt8) :=
  if start ≤ stop ∧ stop ≤ s.length then some ((s.drop start).take (stop - start)) else none

def unfinishedCapture : LuaError := ⟨"unfinished capture"⟩

/-- Convert a capture to a value. -/
def getCaptureVal (s : List UInt8) (cap : Capture) : Native MatchVal :=
  match cap.len with
  | .position => .ok (.position (cap.start + 1))
  | .finished len => (cut s cap.start (cap.start + len)).map fun bytes => .ok (.text bytes)
  | .unfinished => .error unfinishedCapture

/-- The captures, one after the other. -/
def pushCaptures (s : List UInt8) : List Capture → Native (List MatchVal)
  | [] => .ok []
  | cap :: caps => (getCaptureVal s cap).bind fun val => (pushCaptures s caps).bind fun vals => .ok (val :: vals)

/-- The captures, or the text of the whole match if there are none. -/
def matchValues (s : List UInt8) (m : GMatch) : Native (List MatchVal) :=
  if m.captures = [] then (cut s m.start m.stop).map fun bytes => .ok [.text bytes] else pushCaptures s m.captures

/-! ### Within the subject -/

/-- A match that starts at `pos` and lies within the subject, with its captures. -/
structure GMatch.Within (m : GMatch) (s : List UInt8) (pos : ℕ) : Prop where
  start_eq : m.start = pos
  le_stop : pos ≤ m.stop
  stop_le : m.stop ≤ s.length
  captures : Stdlib.Within 0 m.stop m.captures

/-- Where the search goes on after a match: an empty match is stepped over. -/
def GMatch.next (m : GMatch) : ℕ := if m.stop = m.start then m.stop + 1 else m.stop

theorem GMatch.Within.lt_next {m : GMatch} {s : List UInt8} {pos : ℕ} (h : m.Within s pos) : pos < m.next := by
  have hstart := h.start_eq
  have hle := h.le_stop
  rw [next]
  split <;> omega

/-- From a position within the subject, the matcher finds a match there or none, or it raises an error. -/
theorem matchAt_within (cc : CharClasses) {s : List UInt8} (pattern : List UInt8) {pos : ℕ} (hpos : pos ≤ s.length) :
    (matchAt cc s pattern pos).Satisfies fun r => ∀ m, r = some m → m.Within s pos := by
  obtain ⟨hc, hk⟩ := match_within cc pattern 0 hpos
  rw [matchAt, hc]
  rcases hr : match_ cc s pattern pos 0 {} with e | ⟨_ | stop, st⟩
  · exact .error _
  · exact .ok fun m hm => by cases hm
  · rw [hr] at hk
    refine .ok fun m hm => ?_
    cases hm
    exact ⟨rfl, hk.1, hk.2.1, hk.2.2⟩

/-- From a position past the end there are only empty matches with empty captures. -/
theorem matchAt_past {cc : CharClasses} {s pattern : List UInt8} {pos : ℕ} (hpos : s.length < pos) {m : GMatch}
    (hm : matchAt cc s pattern pos = .ok (some m)) :
    m.start = pos ∧ m.stop = pos ∧ Within pos pos m.captures := by
  rw [matchAt] at hm
  cases hc : Checked.match_ cc s pattern pos 0 {} with
  | none =>
    rw [hc] at hm
    cases hm
  | some r =>
    have hk := match_past cc pattern 0 hpos hc
    rw [hc] at hm
    rcases r with e | ⟨_ | stop, st⟩
    · cases hm
    · cases hm
    · cases hm
      obtain ⟨hle, hge, hw⟩ := hk
      obtain rfl := Nat.le_antisymm hle hge
      exact ⟨rfl, rfl, hw⟩

/-- The empty pattern matches everywhere. -/
theorem matchAt_empty (cc : CharClasses) (s : List UInt8) (pos : ℕ) :
    matchAt cc s [] pos = .ok (some ⟨pos, pos, []⟩) := by
  have hinner : Checked.matchInner cc s [] pos 0 { depth := 1 } = some (.ok (some pos, { depth := 1 })) := by
    rw [Checked.matchInner, dif_neg (by decide)]
  rw [matchAt, Checked.match_, Checked.enter]
  simp only [Nat.zero_add, maxCCallsPattern, hinner]
  rfl

theorem cut_eq_some {s : List UInt8} {start stop : ℕ} (h : start ≤ stop) (h' : stop ≤ s.length) :
    cut s start stop = some ((s.drop start).take (stop - start)) :=
  if_pos ⟨h, h'⟩

/-- A text, or a position up to the one behind `stop`. -/
def MatchVal.UpTo (stop : ℕ) (val : MatchVal) : Prop :=
  (∃ bytes, val = .text bytes) ∨ ∃ n, val = .position (n + 1) ∧ n ≤ stop

theorem getCaptureVal_within {s : List UInt8} {stop : ℕ} {cap : Capture} (hstop : stop ≤ s.length)
    (hstart : cap.start ≤ stop) (hend : ∀ l, cap.len = .finished l → cap.start + l ≤ stop) :
    (getCaptureVal s cap).Satisfies (MatchVal.UpTo stop) := by
  rw [getCaptureVal]
  cases hlen : cap.len with
  | position => exact .ok (.inr ⟨cap.start, rfl, hstart⟩)
  | finished len =>
    have hle := hend len hlen
    dsimp only
    rw [cut_eq_some (Nat.le_add_right _ _) (by omega)]
    exact .ok (.inl ⟨_, rfl⟩)
  | unfinished => exact .error _

/-- Captures within the subject can be read, and the positions among them are in range. -/
theorem pushCaptures_within {s : List UInt8} {lo stop : ℕ} {caps : List Capture} (hstop : stop ≤ s.length)
    (h : Within lo stop caps) : (pushCaptures s caps).Satisfies fun vals => ∀ val ∈ vals, val.UpTo stop := by
  induction caps with
  | nil => exact .ok fun val hval => absurd hval List.not_mem_nil
  | cons cap caps ih =>
    obtain ⟨-, hstart, hend⟩ := h cap List.mem_cons_self
    refine (getCaptureVal_within hstop hstart hend).bind fun val hval => ?_
    refine (ih fun c hc => h c (List.mem_cons_of_mem cap hc)).bind fun vals hvals => ?_
    exact .ok (List.forall_mem_cons.mpr ⟨hval, hvals⟩)

theorem matchValues_within {s : List UInt8} {pos : ℕ} {m : GMatch} (h : m.Within s pos) :
    (matchValues s m).Satisfies fun vals => ∀ val ∈ vals, val.UpTo m.stop := by
  rw [matchValues]
  split
  · rw [cut_eq_some (h.start_eq ▸ h.le_stop) h.stop_le]
    exact .ok (List.forall_mem_singleton.mpr (.inl ⟨_, rfl⟩))
  · exact pushCaptures_within h.stop_le h.captures

/-- Of captures past the end only positions can be read. -/
theorem pushCaptures_past {s : List UInt8} {pos : ℕ} {cap : Capture} {caps : List Capture} (hpos : s.length < pos)
    (h : Within pos pos (cap :: caps)) {vals : List MatchVal} (hvals : pushCaptures s (cap :: caps) = .ok vals) :
    .position (pos + 1) ∈ vals := by
  obtain ⟨hlo, hle, -⟩ := h cap List.mem_cons_self
  obtain rfl := Nat.le_antisymm hle hlo
  rw [pushCaptures, getCaptureVal] at hvals
  cases hlen : cap.len with
  | position =>
    rw [hlen] at hvals
    change (pushCaptures s caps).bind _ = _ at hvals
    rcases hr : pushCaptures s caps with _ | e | vals'
    · rw [hr] at hvals
      cases hvals
    · rw [hr] at hvals
      cases hvals
    · rw [hr] at hvals
      cases hvals
      exact List.mem_cons_self
  | finished len =>
    rw [hlen] at hvals
    dsimp only at hvals
    rw [cut, if_neg (by omega)] at hvals
    cases hvals
  | unfinished =>
    rw [hlen] at hvals
    cases hvals

end Rilua.Stdlib
