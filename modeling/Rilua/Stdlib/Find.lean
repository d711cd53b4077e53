import Rilua.Stdlib.Matches

/-! `string.find` and `string.match` (`stdlib/string.rs`). They are safe from any position within the subject. A position
    past its end is not moved back to the end. -/

namespace Rilua.Stdlib

open Vm

/-! ### The search -/

/-- The arguments, with the position to start at counted from 0. -/
structure FindArgs where
  s : List UInt8
  pat : List UInt8
  init : ℕ
  plain : Bool

/-- The position to start at, from the argument `init`. -/
def initOf (i : ℤ) (len : ℕ) : ℕ := (max (posrelat i len) 1).toNat - 1

def findArgs (host : StringHost) (args : List LuaVal) : Except LuaError FindArgs := do
  checkArgCount "string.find" args 2
  let s ← checkString host args "string.find" 0
  let pat ← checkString host args "string.find" 1
  let i ← optInt host args "string.find" 2 1
  let plain ← host.checkedTruthiness (argAt args 3)
  pure ⟨s, pat, initOf i s.length, plain⟩

def matchArgs (host : StringHost) (args : List LuaVal) : Except LuaError FindArgs := do
  checkArgCount "string.match" args 2
  let s ← checkString host args "string.match" 0
  let pat ← checkString host args "string.match" 1
  let i ← optInt host args "string.match" 2 1
  pure ⟨s, pat, initOf i s.length, false⟩

/-- Plain substring search. -/
def findPlain (haystack needle : List UInt8) : Option ℕ :=
  if needle = [] then some 0
  else (List.range (haystack.length + 1 - needle.length)).find? fun p => (haystack.drop p).take needle.length = needle

/-- Tries one position after the other. `found` gives the values of a match. -/
def searchLoop (cc : CharClasses) (s pattern : List UInt8) (anchor : Bool) (found : GMatch → Native (List MatchVal))
    (pos : ℕ) : Native (List MatchVal) :=
  (matchAt cc s pattern pos).bind fun
    | some m => found m
    | none => if anchor = true ∨ s.length < pos + 1 then .ok [.nil] else searchLoop cc s pattern anchor found (pos + 1)
termination_by s.length - pos

/-- Where the match starts and ends, and its captures. -/
def findValues (s : List UInt8) (m : GMatch) : Native (List MatchVal) :=
  (pushCaptures s m.captures).bind fun vals => .ok (.position (m.start + 1) :: .last m.stop :: vals)

/-- `string.find` from position `init` on. -/
def findFrom (cc : CharClasses) (a : FindArgs) (init : ℕ) : Native (List MatchVal) :=
  if a.plain then
    match cut a.s init a.s.length with
    | none => none
    | some haystack =>
      match findPlain haystack a.pat with
      | some pos =>
        let start := init + pos + 1
        .ok [.position start, .last (start + a.pat.length - 1)]
      | none => .ok [.nil]
  else searchLoop cc a.s (patternOf a.pat) (isAnchored a.pat) (findValues a.s) init

/-- `string.match` from position `init` on. -/
def matchFrom (cc : CharClasses) (a : FindArgs) (init : ℕ) : Native (List MatchVal) :=
  searchLoop cc a.s (patternOf a.pat) (isAnchored a.pat) (matchValues a.s) init

def strFind (host : StringHost) (cc : CharClasses) (args : List LuaVal) : Native (List MatchVal) :=
  match findArgs host args with
  | .error e => .error e
  | .ok a => findFrom cc a a.init

def strMatch (host : StringHost) (cc : CharClasses) (args : List LuaVal) : Native (List MatchVal) :=
  match matchArgs host args with
  | .error e => .error e
  | .ok a => matchFrom cc a a.init

/-! ### What is reported -/

/-- The positions lie within the subject or just behind it. The last position of the match is the one in front of the
    first if the match is empty. -/
structure PositionsWithin (len : ℕ) (vals : List MatchVal) : Prop where
  positions : ∀ n, .position n ∈ vals → 1 ≤ n ∧ n ≤ len + 1
  last : ∀ n, .last n ∈ vals → n ≤ len ∧ ∃ start, vals.head? = some (.position start) ∧ start ≤ n + 1

theorem positionsWithin_nil (len : ℕ) : PositionsWithin len [.nil] where
  positions n hn := by cases List.mem_singleton.mp hn
  last n hn := by cases List.mem_singleton.mp hn

theorem positionsWithin_of_upTo {len stop : ℕ} (hstop : stop ≤ len) {vals : List MatchVal} (h : ∀ val ∈ vals, val.UpTo stop) :
    PositionsWithin len vals := by
  refine ⟨fun n hn => ?_, fun n hn => ?_⟩
  · obtain ⟨bytes, hv⟩ | ⟨k, hv, hk⟩ := h _ hn
    · cases hv
    · cases hv
      omega
  · obtain ⟨bytes, hv⟩ | ⟨k, hv, hk⟩ := h _ hn
    · cases hv
    · cases hv

theorem not_nil_mem {stop : ℕ} {vals : List MatchVal} (h : ∀ val ∈ vals, val.UpTo stop) : .nil ∉ vals := by
  intro hmem
  obtain ⟨bytes, hv⟩ | ⟨k, hv, -⟩ := h _ hmem
  · cases hv
  · cases hv

/-- What the values of a match have to be: those of a match within the subject are in range, and those of a match past
    the end of the subject tell its position. -/
structure Reports (s : List UInt8) (found : GMatch → Native (List MatchVal)) : Prop where
  error_iff : ∀ m e, found m = .error e ↔ pushCaptures s m.captures = .error e
  within : ∀ m pos, m.Within s pos → (found m).Satisfies fun vals => PositionsWithin s.length vals ∧ .nil ∉ vals
  past : ∀ m pos vals, s.length < pos → m.start = pos → m.stop = pos → Within pos pos m.captures →
    found m = .ok vals → .position (pos + 1) ∈ vals

theorem reports_findValues (s : List UInt8) : Reports s (findValues s) where
  error_iff m e := by
    rw [findValues]
    rcases pushCaptures s m.captures with _ | e' | vals
    · exact ⟨nofun, nofun⟩
    · rfl
    · exact ⟨nofun, nofun⟩
  within m pos h := by
    refine (pushCaptures_within h.stop_le h.captures).bind fun vals hvals => .ok ?_
    have hrange := positionsWithin_of_upTo h.stop_le hvals
    have hle := h.le_stop
    have hstop := h.stop_le
    refine ⟨⟨fun n hn => ?_, fun n hn => ?_⟩, ?_⟩
    · rcases List.mem_cons.mp hn with hn | hn
      · cases hn
        have := h.start_eq
        omega
      · rcases List.mem_cons.mp hn with hn | hn
        · cases hn
        · exact hrange.positions n hn
    · rcases List.mem_cons.mp hn with hn | hn
      · cases hn
      · rcases List.mem_cons.mp hn with hn | hn
        · cases hn
          exact ⟨hstop, m.start + 1, rfl, by have := h.start_eq; omega⟩
        · obtain ⟨bytes, hv⟩ | ⟨k, hv, -⟩ := hvals _ hn
          · cases hv
          · cases hv
    · rw [List.mem_cons, List.mem_cons]
      rintro (hn | hn | hn)
      · cases hn
      · cases hn
      · exact not_nil_mem hvals hn
  past m pos vals hpos hstart hstop hw hvals := by
    rw [findValues] at hvals
    rcases hc : pushCaptures s m.captures with _ | e | vals'
    · rw [hc] at hvals
      cases hvals
    · rw [hc] at hvals
      cases hvals
    · rw [hc] at hvals
      cases hvals
      rw [hstart]
      exact List.mem_cons_self

theorem reports_matchValues (s : List UInt8) : Reports s (matchValues s) where
  error_iff m e := by
    rw [matchValues]
    split
    · next h =>
      rw [h]
      cases cut s m.start m.stop with
      | none => exact ⟨fun h => (by cases h), fun h => by cases h⟩
      | some bytes => exact ⟨fun h => (by cases h), fun h => by cases h⟩
    · rfl
  within m pos h :=
    (matchValues_within h).mono fun vals hvals => ⟨positionsWithin_of_upTo h.stop_le hvals, not_nil_mem hvals⟩
  past m pos vals hpos hstart hstop hw hvals := by
    rw [matchValues] at hvals
    split at hvals
    · rw [cut, if_neg (by omega)] at hvals
      cases hvals
    · next hne =>
      cases hcaps : m.captures with
      | nil => exact absurd hcaps hne
      | cons cap caps =>
        rw [hcaps] at hvals hw
        exact pushCaptures_past hpos hw hvals

/-! ### The loop -/

section Search

variable {cc : CharClasses} {s pattern : List UInt8} {anchor : Bool} {found : GMatch → Native (List MatchVal)} {pos : ℕ}

theorem searchLoop_within (hfound : Reports s found) (hpos : pos ≤ s.length) :
    (searchLoop cc s pattern anchor found pos).Satisfies (PositionsWithin s.length) := by
  induction hn : s.length - pos using Nat.strong_induction_on generalizing pos with
  | _ n ih =>
  rw [searchLoop]
  refine (matchAt_within cc pattern hpos).bind fun r hr => ?_
  cases r with
  | some m => exact (hfound.within m pos (hr m rfl)).mono fun vals hvals => hvals.1
  | none =>
    dsimp only
    split
    · exact .ok (positionsWithin_nil _)
    · exact ih _ (by omega) (by omega) rfl

/-- From the end of the subject on there is one attempt. -/
theorem searchLoop_last (hpos : s.length ≤ pos) :
    searchLoop cc s pattern anchor found pos =
      (matchAt cc s pattern pos).bind fun
        | some m => found m
        | none => .ok [.nil] := by
  rw [searchLoop]
  congr 1
  funext r
  cases r with
  | some m => rfl
  | none => exact if_pos (.inr (by omega))

/-- An attempt with nothing to report but an error `e`: there is no match, or the captures cannot be read. -/
inductive Quiet (s : List UInt8) : Native (Option GMatch) → Option LuaError → Prop where
  | noMatch : Quiet s (.ok none) none
  | error (e : LuaError) : Quiet s (.error e) (some e)
  | captures {m : GMatch} {e : LuaError} (h : pushCaptures s m.captures = .error e) : Quiet s (.ok (some m)) (some e)

/-- What is returned after an attempt with nothing to report. -/
def quietResult : Option LuaError → Native (List MatchVal)
  | none => .ok [.nil]
  | some e => .error e

theorem searchLoop_quiet (hfound : Reports s found) (hpos : s.length ≤ pos) {e : Option LuaError}
    (h : Quiet s (matchAt cc s pattern pos) e) : searchLoop cc s pattern anchor found pos = quietResult e := by
  rw [searchLoop_last hpos]
  generalize matchAt cc s pattern pos = r at h
  cases h with
  | noMatch => rfl
  | error e => rfl
  | captures h => exact (hfound.error_iff _ _).mpr h

/-- At the end of the subject, only an attempt with nothing to report returns what such an attempt returns. -/
theorem quiet_of_searchLoop (hfound : Reports s found) {e : Option LuaError}
    (h : searchLoop cc s pattern anchor found s.length = quietResult e) :
    Quiet s (matchAt cc s pattern s.length) e := by
  rw [searchLoop_last (Nat.le_refl _)] at h
  have hwithin := matchAt_within cc pattern (Nat.le_refl s.length)
  rcases hr : matchAt cc s pattern s.length with _ | e' | _ | m
  · exact absurd hr hwithin.ne_none
  · rw [hr] at h
    cases e with
    | none => cases h
    | some e =>
      cases h
      exact .error e'
  · rw [hr] at h
    cases e with
    | none => exact .noMatch
    | some e => cases h
  · rw [hr] at h
    cases e with
    | none => exact absurd List.mem_cons_self ((hfound.within m _ (hwithin.of_ok hr m rfl)).of_ok h).2
    | some e => exact .captures ((hfound.error_iff m e).mp h)

/-- Past the end of the subject, only an attempt with nothing to report is in range. -/
theorem quiet_past (hfound : Reports s found) (hpos : s.length < pos)
    (h : (searchLoop cc s pattern anchor found pos).Satisfies (PositionsWithin s.length)) :
    ∃ e, Quiet s (matchAt cc s pattern pos) e := by
  rw [searchLoop_last (Nat.le_of_lt hpos)] at h
  rcases hr : matchAt cc s pattern pos with _ | e | _ | m
  · rw [hr] at h
    exact absurd rfl h.ne_none
  · exact ⟨_, .error e⟩
  · exact ⟨_, .noMatch⟩
  · rw [hr] at h
    change (found m).Satisfies _ at h
    obtain ⟨hstart, hstop, hw⟩ := matchAt_past hpos hr
    rcases hf : found m with _ | e | vals
    · exact absurd hf h.ne_none
    · exact ⟨_, .captures ((hfound.error_iff m e).mp hf)⟩
    · have := (h.of_ok hf).positions _ (hfound.past m pos vals hpos hstart hstop hw hf)
      omega

/-- Past the end of the subject there is nothing to report, and the same nothing as at the end. -/
def QuietPast (cc : CharClasses) (s pattern : List UInt8) (pos : ℕ) : Prop :=
  ∃ e, Quiet s (matchAt cc s pattern pos) e ∧ Quiet s (matchAt cc s pattern s.length) e

/-- A search is safe: it does not panic, it reports positions in range, and a position past the end of the subject is
    taken to be the end. -/
def SafeFrom (s : List UInt8) (search : ℕ → Native (List MatchVal)) (pos : ℕ) : Prop :=
  (search pos).Satisfies (PositionsWithin s.length) ∧ (s.length < pos → search pos = search s.length)

theorem searchLoop_safe_iff (hfound : Reports s found) :
    SafeFrom s (searchLoop cc s pattern anchor found) pos ↔ pos ≤ s.length ∨ QuietPast cc s pattern pos := by
  constructor
  · rintro ⟨hrange, hpast⟩
    rcases Nat.lt_or_ge s.length pos with hpos | hpos
    · obtain ⟨e, he⟩ := quiet_past hfound hpos hrange
      have hend : searchLoop cc s pattern anchor found s.length = quietResult e := by
        rw [← hpast hpos, searchLoop_quiet hfound (Nat.le_of_lt hpos) he]
      exact .inr ⟨e, he, quiet_of_searchLoop hfound hend⟩
    · exact .inl hpos
  · rintro (hpos | ⟨e, he, hend⟩)
    · exact ⟨searchLoop_within hfound hpos, fun h => absurd h (Nat.not_lt.mpr hpos)⟩
    · rcases Nat.lt_or_ge s.length pos with hpos | hpos
      · have hsame : searchLoop cc s pattern anchor found pos = searchLoop cc s pattern anchor found s.length := by
          rw [searchLoop_quiet hfound (Nat.le_of_lt hpos) he, searchLoop_quiet hfound (Nat.le_refl _) hend]
        exact ⟨hsame ▸ searchLoop_within hfound (Nat.le_refl _), fun _ => hsame⟩
      · exact ⟨searchLoop_within hfound hpos, fun h => absurd h (Nat.not_lt.mpr hpos)⟩

end Search

/-! ### The plain search -/

theorem findPlain_le {haystack needle : List UInt8} {pos : ℕ} (h : findPlain haystack needle = some pos) :
    pos + needle.length ≤ haystack.length := by
  rw [findPlain] at h
  split at h
  · next hempty =>
    cases h
    simp [hempty]
  · have := List.mem_range.mp (List.mem_of_find?_eq_some h)
    omega

theorem findFrom_plain_safe_iff {cc : CharClasses} {a : FindArgs} (hplain : a.plain = true) {pos : ℕ} :
    SafeFrom a.s (findFrom cc a) pos ↔ pos ≤ a.s.length := by
  have hpast (hpos : a.s.length < pos) : findFrom cc a pos = none := by
    rw [findFrom, if_pos hplain, cut, if_neg (by omega)]
  constructor
  · rintro ⟨hrange, -⟩
    by_contra hpos
    exact hrange.ne_none (hpast (by omega))
  · intro hpos
    refine ⟨?_, fun h => absurd h (Nat.not_lt.mpr hpos)⟩
    rw [findFrom, if_pos hplain, cut_eq_some hpos (Nat.le_refl _)]
    dsimp only
    cases hf : findPlain ((a.s.drop pos).take (a.s.length - pos)) a.pat with
    | none => exact .ok (positionsWithin_nil _)
    | some p =>
      have hle := findPlain_le hf
      rw [List.length_take, List.length_drop] at hle
      refine .ok ⟨fun n hn => ?_, fun n hn => ?_⟩
      · rcases List.mem_cons.mp hn with hn | hn
        · cases hn
          omega
        · cases List.mem_singleton.mp hn
      · rcases List.mem_cons.mp hn with hn | hn
        · cases hn
        · cases List.mem_singleton.mp hn
          exact ⟨by omega, _, rfl, by omega⟩

theorem findFrom_safe_iff (cc : CharClasses) (a : FindArgs) (pos : ℕ) :
    SafeFrom a.s (findFrom cc a) pos ↔
      pos ≤ a.s.length ∨ (a.plain = false ∧ QuietPast cc a.s (patternOf a.pat) pos) := by
  cases hplain : a.plain with
  | true =>
    rw [findFrom_plain_safe_iff hplain]
    simp
  | false =>
    have hsearch : findFrom cc a = searchLoop cc a.s (patternOf a.pat) (isAnchored a.pat) (findValues a.s) := by
      funext n
      rw [findFrom, if_neg (by simp [hplain])]
    rw [hsearch, searchLoop_safe_iff (reports_findValues a.s)]
    simp

/-! ### The calls -/

/-- A call is safe: it returns or raises an error, what it reports is in range, and a position past the end of the
    subject is taken to be the end. -/
structure Safe (result : Native (List MatchVal)) (parsed : Except LuaError FindArgs)
    (search : FindArgs → ℕ → Native (List MatchVal)) : Prop where
  total : result ≠ none
  inRange : ∀ a vals, parsed = .ok a → result = .ok vals → PositionsWithin a.s.length vals
  pastEnd : ∀ a, parsed = .ok a → a.s.length < a.init → result = search a a.s.length

theorem safe_iff {result : Native (List MatchVal)} {parsed : Except LuaError FindArgs}
    {search : FindArgs → ℕ → Native (List MatchVal)}
    (hresult : result = match parsed with
      | .error e => .error e
      | .ok a => search a a.init) :
    Safe result parsed search ↔ ∀ a, parsed = .ok a → SafeFrom a.s (search a) a.init := by
  rcases parsed with e | a
  · refine ⟨nofun, fun _ => ⟨?_, nofun, nofun⟩⟩
    rw [hresult]
    exact Option.some_ne_none _
  · change result = search a a.init at hresult
    subst hresult
    constructor
    · rintro ⟨htotal, hrange, hpast⟩ a' ⟨⟩
      obtain ⟨r, hr⟩ := Option.ne_none_iff_exists'.mp htotal
      exact ⟨⟨r, hr, fun vals hvals => hrange a vals rfl (hr.trans (congrArg some hvals))⟩, hpast a rfl⟩
    · intro h
      obtain ⟨hrange, hpast⟩ := h a rfl
      refine ⟨hrange.ne_none, ?_, ?_⟩
      · rintro a' vals ⟨⟩ hvals
        exact hrange.of_ok hvals
      · rintro a' ⟨⟩
        exact hpast

/-- The calls are safe in exactly the cases where the position to start at is not past the end of the subject, or where
    there the search for a pattern has nothing to report. -/
theorem find_match_safe_iff (host : StringHost) (cc : CharClasses) (args : List LuaVal) :
    (Safe (strFind host cc args) (findArgs host args) (findFrom cc) ↔
      ∀ a, findArgs host args = .ok a →
        a.init ≤ a.s.length ∨ (a.plain = false ∧ QuietPast cc a.s (patternOf a.pat) a.init)) ∧
    (Safe (strMatch host cc args) (matchArgs host args) (matchFrom cc) ↔
      ∀ a, matchArgs host args = .ok a → a.init ≤ a.s.length ∨ QuietPast cc a.s (patternOf a.pat) a.init) := by
  constructor
  · refine (safe_iff rfl).trans ?_
    exact forall₂_congr fun a _ => findFrom_safe_iff cc a a.init
  · refine (safe_iff rfl).trans ?_
    exact forall₂_congr fun a _ => searchLoop_safe_iff (reports_matchValues a.s)

/-- `string.find("abc", "b", 10, true)`. -/
theorem not_safe_find_past_end :
    ¬ Safe (strFind ⟨fun _ => [], fun _ => none, fun _ => none, fun _ => none, fun _ => .ok true⟩ .ascii
          [.str [97, 98, 99], .str [98], .num (Lib.F64.ofInt 10), .bool true])
        (findArgs ⟨fun _ => [], fun _ => none, fun _ => none, fun _ => none, fun _ => .ok true⟩
          [.str [97, 98, 99], .str [98], .num (Lib.F64.ofInt 10), .bool true])
        (findFrom .ascii) := by
  have hargs : findArgs ⟨fun _ => [], fun _ => none, fun _ => none, fun _ => none, fun _ => .ok true⟩
      [.str [97, 98, 99], .str [98], .num (Lib.F64.ofInt 10), .bool true] =
        .ok ⟨[97, 98, 99], [98], 9, true⟩ := by
    have hinit : (Lib.F64.ofInt 10).toI64 = 10 := Lib.F64.toI64_ofInt (by decide)
    simp [findArgs, checkArgCount, checkString, optInt, checkInt, checkNumber, argAt, hinit, initOf, posrelat, bind,
      Except.bind, pure, Except.pure]
  intro h
  apply h.total
  rw [strFind, hargs]
  decide

end Rilua.Stdlib
