import Rilua.Stdlib.PatternSpec
import Mathlib.Tactic.SplitIfs

/-! `MatchState` against the matcher of Lua 5.1. They agree as long as the pattern items that are reached
    are read alike: `agreesAt` lists the exceptions, and the two run in step everywhere else. -/

namespace Rilua.Stdlib

/-! ### Items that are read differently -/

def isQuantifier (c : UInt8) : Bool := c == ch '*' || c == ch '+' || c == ch '-' || c == ch '?'

/-- No escape in the set loses its character to the closing bracket at `ec`, as the second `%` of
    `[a-%%]` does. -/
def escapesClosed (pat : List UInt8) (ec p : ℕ) : Bool :=
  if p < ec then
    if byteAt pat p = ch '%' then p + 1 < ec && escapesClosed pat ec (p + 2)
    else if byteAt pat (p + 1) = ch '-' ∧ p + 2 < ec then escapesClosed pat ec (p + 3)
    else escapesClosed pat ec (p + 1)
  else true
termination_by ec - p

/-- The set at `p` is closed, and so are its escapes. -/
def setOk (pat : List UInt8) (p : ℕ) : Bool :=
  match Lua51.classend pat p with
  | .ok e => escapesClosed pat (e - 1) (if byteAt pat (p + 1) = ch '^' then p + 2 else p + 1)
  | .error _ => false

/-- Whether the item at `p` is one that both matchers read alike. They do not when the pattern has a zero
    byte there, ends with `%`, has a set that is not closed, a quantifier character right behind `%b`, `%f`
    or a back-reference, or a back-reference to a position capture. -/
def agreesAt (pat : List UInt8) (p : ℕ) (caps : List Capture) : Bool :=
  let c := byteAt pat p
  let d := byteAt pat (p + 1)
  if pat.length ≤ p then true
  else if c = 0 then false
  else if c = ch '(' ∨ c = ch ')' then true
  else if c = ch '%' ∧ d = ch 'b' then
    !isQuantifier (byteAt pat (p + 2)) &&
      (pat.length ≤ p + 3 || byteAt pat (p + 2) != 0 && byteAt pat (p + 3) != 0)
  else if c = ch '%' ∧ d = ch 'f' then
    !isQuantifier (byteAt pat (p + 2)) && (byteAt pat (p + 2) != ch '[' || setOk pat (p + 2))
  else if c = ch '%' ∧ isAsciiDigit d = true then
    !isQuantifier (byteAt pat (p + 2)) &&
      !(caps[d.toNat - (ch '0').toNat - 1]?.any fun cap => cap.len = .position)
  else if c = ch '$' ∧ d = 0 then pat.length ≤ p + 1
  else (Lua51.classend pat p).isOk && (c != ch '[' || setOk pat p)

/-! ### Classes -/

theorem byteAt_eq_zero {s : List UInt8} {i : ℕ} (h : s.length ≤ i) : byteAt s i = 0 := by
  rw [byteAt, List.getElem?_eq_none h]; rfl

theorem skipSetChar_eq {pat : List UInt8} {p : ℕ} (h : byteAt pat (Lua51.skipSetChar pat p) ≠ 0) :
    skipSetChar pat p = Lua51.skipSetChar pat p := by
  rw [Lua51.skipSetChar] at h
  rw [skipSetChar, Lua51.skipSetChar]
  by_cases hesc : byteAt pat p = ch '%'
  · by_cases hnext : byteAt pat (p + 1) = 0
    · rw [if_neg fun hc => hc.2 hnext] at h
      exact absurd hnext h
    · rw [if_pos ⟨hesc, Lua51.lt_length_of_byteAt hnext⟩, if_pos ⟨hesc, hnext⟩]
  · rw [if_neg fun hc => hesc hc.1, if_neg fun hc => hesc hc.1]

/-- A closed set ends at the same place. -/
theorem setEnd_eq {pat : List UInt8} {p e : ℕ} (h : Lua51.setEnd pat p = .ok e) : setEnd pat p = e := by
  fun_induction Lua51.setEnd pat p with
  | case1 => cases h
  | case2 p hz q hq =>
    cases h
    have hlt := Lua51.lt_length_of_byteAt hz
    have hq0 : byteAt pat q ≠ 0 := fun h0 => by rw [h0] at hq; cases hq
    rw [setEnd, if_neg (by omega)]
    simp only [skipSetChar_eq hq0]
    rw [if_pos ⟨Lua51.lt_length_of_byteAt hq0, hq⟩]
  | case3 p hz q hq ih =>
    have hlt := Lua51.lt_length_of_byteAt hz
    have hq0 : byteAt pat q ≠ 0 := fun h0 => by
      rw [Lua51.setEnd, dif_pos h0] at h
      cases h
    rw [setEnd, if_neg (by omega)]
    simp only [skipSetChar_eq hq0]
    rw [if_neg fun hc => hq hc.2]
    exact ih h

theorem classEnd_eq {pat : List UInt8} {p e : ℕ} (hp : byteAt pat p ≠ 0)
    (h : Lua51.classend pat p = .ok e) : classEnd pat p = e := by
  have hlt := Lua51.lt_length_of_byteAt hp
  rw [Lua51.classend] at h
  rw [classEnd, if_neg (by omega)]
  by_cases hesc : byteAt pat p = ch '%'
  · rw [if_pos hesc] at h ⊢
    split at h
    · cases h
    · next hnext =>
      cases h
      rw [if_pos (Lua51.lt_length_of_byteAt hnext)]
  rw [if_neg hesc] at h ⊢
  by_cases hset : byteAt pat p = ch '['
  · rw [if_pos hset] at h ⊢
    have hif : (if p + 1 < pat.length ∧ byteAt pat (p + 1) = ch '^' then p + 2 else p + 1) =
        if byteAt pat (p + 1) = ch '^' then p + 2 else p + 1 := by
      by_cases hc : byteAt pat (p + 1) = ch '^'
      · rw [if_pos hc, if_pos ⟨Lua51.lt_length_of_byteAt (by rw [hc]; decide), hc⟩]
      · rw [if_neg hc, if_neg fun h => hc h.2]
    rw [hif]
    exact setEnd_eq h
  · rw [if_neg hset] at h ⊢
    cases h
    rfl

/-- The quantifier is the byte behind the class. -/
theorem getQuantifier_snd (pat : List UInt8) (p : ℕ) :
    (getQuantifier pat p).2 =
      if byteAt pat (classEnd pat p) = ch '*' then .greedy
      else if byteAt pat (classEnd pat p) = ch '+' then .plus
      else if byteAt pat (classEnd pat p) = ch '-' then .lazy
      else if byteAt pat (classEnd pat p) = ch '?' then .optional
      else .none := by
  rcases Nat.lt_or_ge (classEnd pat p) pat.length with h | h
  · simp only [getQuantifier, if_pos h]
    split_ifs <;> rfl
  · simp only [getQuantifier, if_neg (show ¬classEnd pat p < pat.length by omega), byteAt_eq_zero h]
    decide

theorem setLoop_true (cc : CharClasses) (pat : List UInt8) (c : UInt8) (ec p : ℕ) :
    setLoop cc pat c ec p true = true := by
  induction hn : ec - p using Nat.strong_induction_on generalizing p with
  | _ n ih =>
    rw [setLoop]
    split_ifs with hlt hesc hr
    · exact ih _ (by omega) _ rfl
    · exact ih _ (by omega) _ rfl
    · exact ih _ (by omega) _ rfl
    · rfl

theorem setLoop_eq (cc : CharClasses) {pat : List UInt8} (c : UInt8) {ec p : ℕ}
    (h : escapesClosed pat ec p = true) (matched : Bool) :
    setLoop cc pat c ec p matched = (matched || Lua51.setScan cc pat c ec p) := by
  fun_induction Lua51.setScan cc pat c ec p generalizing matched with
  | case1 p hlt hesc hm =>
    rw [escapesClosed, if_pos hlt, if_pos hesc, Bool.and_eq_true, decide_eq_true_eq] at h
    rw [setLoop, if_pos hlt, if_pos ⟨hesc, h.1⟩, hm, Bool.or_true]
    exact setLoop_true ..
  | case2 p hlt hesc hm ih =>
    rw [escapesClosed, if_pos hlt, if_pos hesc, Bool.and_eq_true, decide_eq_true_eq] at h
    rw [setLoop, if_pos hlt, if_pos ⟨hesc, h.1⟩, ih h.2, Bool.eq_false_iff.mpr hm, Bool.or_false]
  | case3 p hlt hesc hr hin =>
    rw [setLoop, if_pos hlt, if_neg fun hc => hesc hc.1, if_pos ⟨hr.2, hr.1⟩]
    simp only [hin.1, hin.2, decide_true, Bool.and_true, Bool.or_true]
    exact setLoop_true ..
  | case4 p hlt hesc hr hin ih =>
    rw [escapesClosed, if_pos hlt, if_neg hesc, if_pos hr] at h
    rw [setLoop, if_pos hlt, if_neg fun hc => hesc hc.1, if_pos ⟨hr.2, hr.1⟩, ih h]
    congr 1
    rw [← Bool.decide_and, decide_eq_false hin, Bool.or_false]
  | case5 p hlt hesc hr heq =>
    rw [setLoop, if_pos hlt, if_neg fun hc => hesc hc.1, if_neg fun hc => hr ⟨hc.2, hc.1⟩]
    simp only [heq, beq_self_eq_true, Bool.or_true]
    exact setLoop_true ..
  | case6 p hlt hesc hr hne ih =>
    rw [escapesClosed, if_pos hlt, if_neg hesc, if_neg hr] at h
    rw [setLoop, if_pos hlt, if_neg fun hc => hesc hc.1, if_neg fun hc => hr ⟨hc.2, hc.1⟩, ih h]
    rw [beq_eq_false_iff_ne.mpr (Ne.symm hne), Bool.or_false]
  | case7 p hlt => rw [setLoop, if_neg hlt, Bool.or_false]

/-- A set matches the same characters. -/
theorem matchbracketclass_eq (cc : CharClasses) {pat : List UInt8} (c : UInt8) {p e : ℕ}
    (hp : byteAt pat p = ch '[') (he : Lua51.classend pat p = .ok e) (hok : setOk pat p = true) :
    (matchbracketclass cc pat c p).1 = Lua51.matchbracketclass cc pat c p (e - 1) := by
  have hce : classEnd pat p = e := classEnd_eq (by rw [hp]; decide) he
  simp only [setOk, he] at hok
  simp only [matchbracketclass, Lua51.matchbracketclass, hce]
  by_cases hc : byteAt pat (p + 1) = ch '^'
  · rw [if_pos hc] at hok
    have hlt : p + 1 < e - 1 := by
      rw [Lua51.classend, if_neg (by rw [hp]; decide), if_pos hp, if_pos hc] at he
      have := Lua51.lt_setEnd he
      omega
    rw [if_pos ⟨hlt, hc⟩, if_pos ⟨hlt, hc⟩, if_pos hc, setLoop_eq cc c hok, Bool.false_or]
  · rw [if_neg hc] at hok
    rw [if_neg fun h => hc h.2, if_neg fun h => hc h.2, if_neg hc, setLoop_eq cc c hok, Bool.false_or]

theorem singlematch_eq (cc : CharClasses) (src : List UInt8) {pat : List UInt8} {p e : ℕ}
    (he : Lua51.classend pat p = .ok e) (hok : byteAt pat p = ch '[' → setOk pat p = true) (s : ℕ) :
    singlematch cc src pat s p = Lua51.singlematch cc src pat p e s := by
  rcases Nat.lt_or_ge s src.length with hs | hs
  · simp only [singlematch, Lua51.singlematch, if_neg (show ¬src.length ≤ s by omega), if_pos hs]
    by_cases hesc : byteAt pat p = ch '%'
    · have hnext : byteAt pat (p + 1) ≠ 0 := by
        intro h0
        rw [Lua51.classend, if_pos hesc, if_pos h0] at he
        cases he
      simp only [if_pos hesc, if_pos (Lua51.lt_length_of_byteAt hnext)]
    · by_cases hset : byteAt pat p = ch '['
      · rw [matchbracketclass_eq cc _ hset he (hok hset)]
        simp only [if_neg hesc, if_pos hset]
      · simp only [if_neg hesc, if_neg hset]
        split
        · rfl
        · exact Bool.beq_comm
  · rw [singlematch, Lua51.singlematch, if_pos hs, if_neg (by omega)]

/-! ### The two matchers in step -/

/-- The outcome of `MatchState`, started with captures `caps`, is that of Lua 5.1, or it ran into the limit
    on the depth. After a failure the captures are as before. -/
def Agree (caps : List Capture) : Lua51.Outcome → MatchResult → Prop
  | _, .error .patternTooComplex => True
  | .error e, .error e' => e = some e'
  | .ok none, .ok (none, st) => st.captures = caps
  | .ok (some (s, caps')), .ok (some s', st) => s' = s ∧ st.captures = caps'
  | _, _ => False

/-- Either the reference was stopped, or watching made no difference to it and `MatchState` agrees. -/
def Sim (caps : List Capture) (watched plain : Lua51.Outcome) (r : MatchResult) : Prop :=
  watched = .error none ∨ plain = watched ∧ Agree caps watched r

namespace Sim

variable {caps caps' : List Capture} {watched plain : Lua51.Outcome} {r : MatchResult} {st : MatchState}
  {src pat : List UInt8} {kw kp : ℕ → Lua51.Outcome} {k : ℕ → MatchState → MatchResult} {s p : ℕ}

theorem error {e : MatchError} : Sim caps (.error (some e)) (.error (some e)) (.error e) := by
  refine .inr ⟨rfl, ?_⟩
  cases e <;> first | rfl | trivial

theorem fail (h : st.captures = caps) : Sim caps (.ok none) (.ok none) (.ok (none, st)) := .inr ⟨rfl, h⟩

theorem succeed (h : st.captures = caps') : Sim caps (.ok (some (s, caps'))) (.ok (some (s, caps')))
    (.ok (some s, st)) := .inr ⟨rfl, rfl, h⟩

/-- The cases of a simulation. -/
theorem cases (h : Sim caps watched plain r) :
    watched = .error none ∨ plain = watched ∧ (r = .error .patternTooComplex ∨
      (∃ e, watched = .error (some e) ∧ r = .error e) ∨
      (∃ st, watched = .ok none ∧ r = .ok (none, st) ∧ st.captures = caps) ∨
      ∃ s st, watched = .ok (some (s, st.captures)) ∧ r = .ok (some s, st)) := by
  rcases h with h | ⟨hp, h⟩
  · exact .inl h
  refine .inr ⟨hp, ?_⟩
  rcases r with e' | ⟨_ | s', st⟩
  · rcases watched with e | _
    · cases e' <;> first | exact .inl rfl | exact .inr (.inl ⟨_, congrArg _ h, rfl⟩)
    · cases e' <;> first | exact .inl rfl | exact h.elim
  · rcases watched with e | _ | ⟨s, caps'⟩
    · exact h.elim
    · exact .inr (.inr (.inl ⟨st, rfl, rfl, h⟩))
    · exact h.elim
  · rcases watched with e | _ | ⟨s, caps'⟩
    · exact h.elim
    · exact h.elim
    · obtain ⟨rfl, rfl⟩ := h
      exact .inr (.inr (.inr ⟨s', st, rfl, rfl⟩))

/-- Going on with the next alternative when this one fails. -/
theorem orElse {w' p' : Lua51.Outcome} {next : MatchState → MatchResult} (h : Sim caps watched plain r)
    (hnext : ∀ st, st.captures = caps → Sim caps w' p' (next st)) :
    Sim caps (Lua51.orElse watched w') (Lua51.orElse plain p') (onFail r next) := by
  rcases h.cases with rfl | ⟨rfl, rfl | ⟨e, rfl, rfl⟩ | ⟨st, rfl, rfl, hst⟩ | ⟨s, st, rfl, rfl⟩⟩
  · exact .inl rfl
  · cases plain with
    | error e => exact .inr ⟨rfl, trivial⟩
    | ok o =>
      cases o with
      | none =>
        rcases hnext { captures := caps } rfl with hw | ⟨hp, -⟩
        · exact .inl hw
        · exact .inr ⟨hp, by cases w' with | error => trivial | ok o => cases o <;> trivial⟩
      | some x => exact .inr ⟨rfl, trivial⟩
  · exact error
  · exact hnext st hst
  · exact succeed rfl

/-- Undoing a change of the captures when the rest of the match fails. -/
theorem undo {f : MatchState → MatchState} (h : Sim caps' watched plain r)
    (hf : ∀ st, st.captures = caps' → (f st).captures = caps) :
    Sim caps watched plain (onFail r fun st => .ok (none, f st)) := by
  rcases h.cases with hw | ⟨rfl, rfl | ⟨e, rfl, rfl⟩ | ⟨st, rfl, rfl, hst⟩ | ⟨s, st, rfl, rfl⟩⟩
  · exact .inl hw
  · refine .inr ⟨rfl, ?_⟩
    rcases plain with e | _ | x <;> trivial
  · exact error
  · exact fail (hf st hst)
  · exact succeed rfl

/-- The depth of the recursion makes no difference short of the limit. -/
theorem enter {body : MatchState → MatchResult} (hst : st.captures = caps)
    (h : ∀ st, st.captures = caps → Sim caps watched plain (body st)) :
    Sim caps watched plain (enter body st) := by
  have hb := h { st with depth := st.depth + 1 } hst
  have hcomplex : Sim caps watched plain (.error .patternTooComplex) := by
    rcases hb with hb | ⟨hp, -⟩
    · exact .inl hb
    · refine .inr ⟨hp, ?_⟩
      rcases watched with e | _ | x <;> trivial
  rw [Stdlib.enter]
  split
  · exact hcomplex
  · rcases hb.cases with rfl | ⟨rfl, heq | ⟨e, rfl, heq⟩ | ⟨st', rfl, heq, hst'⟩ | ⟨s, st', rfl, heq⟩⟩
    · exact .inl rfl
    · rw [heq]; exact hcomplex
    · rw [heq]; exact error
    · rw [heq]; exact fail hst'
    · rw [heq]; exact succeed rfl

theorem greedyDown (h : ∀ s st, st.captures = caps → Sim caps (kw s) (kp s) (k s st)) (n : ℕ)
    (hst : st.captures = caps) :
    Sim caps (Lua51.maxExpand kw s n) (Lua51.maxExpand kp s n) (greedyDown k s n st) := by
  induction n generalizing st with
  | zero => exact h s st hst
  | succ n ih => exact (h _ st hst).orElse fun st hst => ih hst

theorem matchLazy {single : ℕ → Bool} (h : ∀ s st, st.captures = caps → Sim caps (kw s) (kp s) (k s st))
    (hst : st.captures = caps) :
    Sim caps (Lua51.minExpand src single kw s) (Lua51.minExpand src single kp s)
      (matchLazy src single k s st) := by
  induction hn : src.length - s using Nat.strong_induction_on generalizing s st with
  | _ n ih =>
    rw [Lua51.minExpand.eq_def src single kw, Lua51.minExpand.eq_def src single kp,
      Stdlib.matchLazy.eq_def]
    refine (h s st hst).orElse fun st hst => ?_
    split_ifs with hs
    · exact ih _ (by omega) hst rfl
    · exact fail hst

theorem openCapture {len : CaptureLen} {kw kp : ℕ → List Capture → Lua51.Outcome}
    (h : ∀ st, st.captures = caps ++ [⟨s, len⟩] → Sim (caps ++ [⟨s, len⟩]) (kw s (caps ++ [⟨s, len⟩]))
      (kp s (caps ++ [⟨s, len⟩])) (k s st)) (hst : st.captures = caps) :
    Sim caps (Lua51.startCapture len kw s caps) (Lua51.startCapture len kp s caps)
      (openCapture len k s st) := by
  subst hst
  rw [Lua51.startCapture, Lua51.startCapture, Stdlib.openCapture]
  split_ifs with hmax
  · exact error
  · exact (h { st with captures := st.captures ++ [⟨s, len⟩], level := st.level + 1 } rfl).undo
      fun st' hst' => by simp only [hst', List.take_left']

/-- The capture that is closed was unfinished. -/
theorem findOpenCapture_some {i : ℕ} (h : findOpenCapture caps = some i) :
    ∃ c, caps[i]? = some c ∧ c.len = .unfinished := by
  have hp := List.find?_some h
  cases hc : caps[i]? with
  | none => rw [hc] at hp; cases hp
  | some c => rw [hc, Option.any_some, decide_eq_true_eq] at hp; exact ⟨c, rfl, hp⟩

/-- Closing a capture and opening it again. -/
theorem setLen_setLen {i : ℕ} {c : Capture} (hc : caps[i]? = some c) (hlen : c.len = .unfinished)
    (l : CaptureLen) : setLen (setLen caps i l) i .unfinished = caps := by
  refine List.ext_getElem? fun j => ?_
  simp only [setLen, List.getElem?_modify]
  by_cases hj : i = j
  · subst hj
    rw [hc]
    rcases c with ⟨start, len⟩
    cases hlen
    simp
  · cases caps[j]? <;> simp [hj]

theorem matchCloseCapture {kw kp : ℕ → List Capture → Lua51.Outcome}
    (h : ∀ caps' st, st.captures = caps' → Sim caps' (kw s caps') (kp s caps') (k s st))
    (hst : st.captures = caps) :
    Sim caps (Lua51.endCapture kw s caps) (Lua51.endCapture kp s caps) (matchCloseCapture k s st) := by
  subst hst
  rw [Lua51.endCapture, Lua51.endCapture, Stdlib.matchCloseCapture]
  cases hf : findOpenCapture st.captures with
  | none => exact error
  | some i =>
    obtain ⟨c, hc, hlen⟩ := findOpenCapture_some hf
    exact (h _ { st with
        captures := setLen st.captures i (.finished (s - captureStart st.captures i))
        level := st.level - 1 } rfl).undo fun st' hst' => by
      simp only [hst']
      exact setLen_setLen hc hlen _

theorem matchBalance (h : ∀ s st, st.captures = caps → Sim caps (kw s) (kp s) (k s st))
    (hok : pat.length ≤ p + 3 ∨ byteAt pat (p + 2) ≠ 0 ∧ byteAt pat (p + 3) ≠ 0) (hst : st.captures = caps) :
    Sim caps (Lua51.matchbalance src pat kw s (p + 2)) (Lua51.matchbalance src pat kp s (p + 2))
      (matchBalance src pat k s p st) := by
  rw [Lua51.matchbalance, Lua51.matchbalance, Stdlib.matchBalance]
  rcases Nat.lt_or_ge (p + 3) pat.length with hlen | hlen
  · obtain ⟨h2, h3⟩ := hok.resolve_left (by omega)
    have hz : ¬(byteAt pat (p + 2) = 0 ∨ byteAt pat (p + 2 + 1) = 0) := fun hc => hc.elim h2 h3
    have hcond : (src.length ≤ s ∨ byteAt src s ≠ byteAt pat (p + 2)) ↔
        byteAt src s ≠ byteAt pat (p + 2) := by
      refine ⟨fun hc => hc.elim (fun hs => ?_) id, .inr⟩
      rw [byteAt_eq_zero hs]
      exact h2.symm
    simp only [if_neg hz, if_neg (show ¬pat.length ≤ p + 3 by omega), hcond]
    by_cases hd : byteAt src s ≠ byteAt pat (p + 2)
    · simp only [if_pos hd]
      exact fail hst
    · simp only [if_neg hd]
      cases balanceEnd src (byteAt pat (p + 2)) (byteAt pat (p + 2 + 1)) (s + 1) 1 with
      | none => exact fail hst
      | some e => exact h _ st hst
  · have hz : byteAt pat (p + 2) = 0 ∨ byteAt pat (p + 2 + 1) = 0 := .inr (byteAt_eq_zero hlen)
    simp only [if_pos hz, if_pos hlen]
    exact error

theorem matchBackref (h : ∀ s st, st.captures = caps → Sim caps (kw s) (kp s) (k s st))
    (hok : (caps[(byteAt pat (p + 1)).toNat - (ch '0').toNat - 1]?.any fun c => c.len = .position) = false)
    (hst : st.captures = caps) :
    Sim caps (Lua51.matchCapture src kw s (byteAt pat (p + 1)) caps)
      (Lua51.matchCapture src kp s (byteAt pat (p + 1)) caps) (matchBackref src pat k s p st) := by
  subst hst
  simp only [Lua51.matchCapture, Stdlib.matchBackref]
  split_ifs with hl
  · exact error
  · generalize st.captures[(byteAt pat (p + 1)).toNat - (ch '0').toNat - 1]? = o at hok
    rcases o with _ | ⟨start, len | _ | _⟩
    · exact error
    · simp only
      by_cases hlen : src.length < s + len
      · have hno : ¬(s + len ≤ src.length ∧ slice src start len = slice src s len) := fun hc => by omega
        simp only [if_pos hlen, if_neg hno]
        exact fail rfl
      · by_cases heq : slice src s len = slice src start len
        · have hyes : s + len ≤ src.length ∧ slice src start len = slice src s len := ⟨by omega, heq.symm⟩
          simp only [if_neg hlen, if_pos heq, if_pos hyes]
          exact h _ st rfl
        · have hno : ¬(s + len ≤ src.length ∧ slice src start len = slice src s len) :=
            fun hc => heq hc.2.symm
          simp only [if_neg hlen, if_neg heq, if_neg hno]
          exact fail rfl
    · exact error
    · simp at hok

theorem matchFrontier {cc : CharClasses} {e : ℕ} (hset : byteAt pat (p + 2) = ch '[')
    (he : Lua51.classend pat (p + 2) = .ok e) (hok : setOk pat (p + 2) = true)
    (h : Sim caps watched plain (k s st)) (hst : st.captures = caps) :
    Sim caps
      (if Lua51.matchbracketclass cc pat (if s = 0 then 0 else byteAt src (s - 1)) (p + 2) (e - 1) ||
          !Lua51.matchbracketclass cc pat (byteAt src s) (p + 2) (e - 1) then .ok none else watched)
      (if Lua51.matchbracketclass cc pat (if s = 0 then 0 else byteAt src (s - 1)) (p + 2) (e - 1) ||
          !Lua51.matchbracketclass cc pat (byteAt src s) (p + 2) (e - 1) then .ok none else plain)
      (matchFrontier cc src pat k s p st) := by
  have hlen : p + 2 < pat.length := Lua51.lt_length_of_byteAt (by rw [hset]; decide)
  have hprev : (if 0 < s then byteAt src (s - 1) else 0) = if s = 0 then 0 else byteAt src (s - 1) := by
    rcases Nat.eq_zero_or_pos s with rfl | hs
    · rfl
    · rw [if_pos hs, if_neg (by omega)]
  have hcurr : (if s < src.length then byteAt src s else 0) = byteAt src s := by
    split
    · rfl
    · rw [byteAt_eq_zero (by omega)]
  have hopen : ¬(pat.length ≤ p + 2 ∨ byteAt pat (p + 2) ≠ ch '[') :=
    fun h => h.elim (fun h => by omega) fun h => h hset
  rw [Stdlib.matchFrontier]
  simp only [if_neg hopen, hprev, hcurr, matchbracketclass_eq cc _ hset he hok]
  cases Lua51.matchbracketclass cc pat (if s = 0 then 0 else byteAt src (s - 1)) (p + 2) (e - 1) <;>
    cases Lua51.matchbracketclass cc pat (byteAt src s) (p + 2) (e - 1)
  · exact fail hst
  · exact h
  · exact fail hst
  · exact fail hst

end Sim

/-! ### The matchers, item by item -/

section

variable {cc : CharClasses} {src pat : List UInt8} {s p : ℕ} {st : MatchState}

/-- `MatchState` at an escape with no quantifier behind it. -/
theorem matchInner_escape (hp : byteAt pat p = ch '%') (hlen : p + 1 < pat.length)
    (hq : isQuantifier (byteAt pat (p + 2)) = false) :
    matchInner cc src pat s p st =
      if byteAt pat (p + 1) = ch 'b' then
        matchBalance src pat (fun s => enter (matchInner cc src pat s (p + 4))) s p st
      else if byteAt pat (p + 1) = ch 'f' then
        matchFrontier cc src pat (fun s => enter (matchInner cc src pat s (classEnd pat (p + 2)))) s p st
      else if isAsciiDigit (byteAt pat (p + 1)) = true then
        matchBackref src pat (fun s => enter (matchInner cc src pat s (p + 2))) s p st
      else if s < src.length ∧ singlematch cc src pat s p = true then matchInner cc src pat (s + 1) (p + 2) st
      else .ok (none, st) := by
  have hend : classEnd pat p = p + 2 := by
    rw [classEnd, if_neg (by omega), if_pos hp, if_pos hlen]
  have hquant : (getQuantifier pat p).2 = .none := by
    rw [getQuantifier_snd, hend]
    simp only [isQuantifier, Bool.or_eq_false_iff, beq_eq_false_iff_ne] at hq
    rw [if_neg hq.1.1.1, if_neg hq.1.1.2, if_neg hq.1.2, if_neg hq.2]
  rw [matchInner, dif_pos (by omega), hp, if_neg (by decide), if_neg (by decide),
    if_neg (by simp; omega)]
  simp only [hquant, hend, true_and, hlen]

/-- `MatchState` at a single-character item. -/
theorem matchInner_class (hlen : p < pat.length) (hopen : byteAt pat p ≠ ch '(') (hclose : byteAt pat p ≠ ch ')')
    (hesc : byteAt pat p = ch '%' → byteAt pat (p + 1) ≠ ch 'b' ∧ byteAt pat (p + 1) ≠ ch 'f' ∧
      isAsciiDigit (byteAt pat (p + 1)) = false)
    (hanchor : ¬(byteAt pat p = ch '$' ∧ pat.length ≤ p + 1)) :
    let e := classEnd pat p
    let single := fun s => singlematch cc src pat s p
    let rest := fun s => enter (matchInner cc src pat s (e + 1))
    matchInner cc src pat s p st =
      if byteAt pat e = ch '?' then
        if s < src.length ∧ single s = true then onFail (rest (s + 1) st) (matchInner cc src pat s (e + 1))
        else matchInner cc src pat s (e + 1) st
      else if byteAt pat e = ch '*' then matchGreedy src single rest s st
      else if byteAt pat e = ch '+' then
        if s < src.length ∧ single s = true then matchGreedy src single rest (s + 1) st else .ok (none, st)
      else if byteAt pat e = ch '-' then matchLazy src single rest s st
      else if s < src.length ∧ single s = true then matchInner cc src pat (s + 1) e st
      else .ok (none, st) := by
  intro e single rest
  rw [matchInner, dif_pos hlen, if_neg hopen, if_neg hclose, if_neg hanchor]
  have hb : ¬(byteAt pat p = ch '%' ∧ p + 1 < pat.length ∧ byteAt pat (p + 1) = ch 'b') :=
    fun h => (hesc h.1).1 h.2.2
  have hf : ¬(byteAt pat p = ch '%' ∧ p + 1 < pat.length ∧ byteAt pat (p + 1) = ch 'f') :=
    fun h => (hesc h.1).2.1 h.2.2
  have hd : ¬(byteAt pat p = ch '%' ∧ p + 1 < pat.length ∧ isAsciiDigit (byteAt pat (p + 1)) = true) :=
    fun h => by rw [(hesc h.1).2.2] at h; exact absurd h.2.2 (by simp)
  simp only [getQuantifier_snd, if_neg hb, if_neg hf, if_neg hd]
  by_cases h1 : byteAt pat e = ch '?'
  · have hne : ch '?' ≠ ch '*' ∧ ch '?' ≠ ch '+' ∧ ch '?' ≠ ch '-' := by decide
    simp only [e] at h1 ⊢
    simp only [h1, if_neg hne.1, if_neg hne.2.1, if_neg hne.2.2, if_true]
    rfl
  · simp only [e] at h1 ⊢
    rw [if_neg h1, if_neg h1]
    split_ifs <;> rfl

end

/-- From a pattern position on, the two run in step. -/
theorem matchInner_sim (cc : CharClasses) (src pat : List UInt8) (s p : ℕ) {caps : List Capture}
    {st : MatchState} (hst : st.captures = caps) :
    Sim caps (Lua51.doMatch cc src pat (agreesAt pat) s p caps) (Lua51.match_ cc src pat s p caps)
      (matchInner cc src pat s p st) := by
  induction hn : pat.length - p using Nat.strong_induction_on generalizing s p caps st with
  | _ n ih =>
  have hrest : ∀ {p' : ℕ}, p < p' → p < pat.length → ∀ s' {caps' : List Capture} st', st'.captures = caps' →
      Sim caps' (Lua51.doMatch cc src pat (agreesAt pat) s' p' caps') (Lua51.match_ cc src pat s' p' caps')
        (enter (matchInner cc src pat s' p') st') := fun hp' hlen s' _ st' hst' =>
    Sim.enter hst' fun st hst => ih _ (by omega) _ _ hst rfl
  cases hw : agreesAt pat p caps with
  | false => exact .inl (by rw [Lua51.doMatch, if_pos hw])
  | true =>
  have hall : ¬(fun (_ : ℕ) (_ : List Capture) => true) p caps = false := by simp
  rw [Lua51.match_, Lua51.doMatch.eq_def cc src pat (agreesAt pat),
    Lua51.doMatch.eq_def cc src pat fun _ _ => true, if_neg (by rw [hw]; simp), if_neg hall]
  rcases Nat.lt_or_ge p pat.length with hlen | hlen
  swap
  · -- the end of the pattern
    rw [dif_pos (byteAt_eq_zero hlen), dif_pos (byteAt_eq_zero hlen), matchInner, dif_neg (by omega)]
    exact .succeed hst
  simp only [agreesAt, if_neg (show ¬pat.length ≤ p by omega)] at hw
  by_cases hz : byteAt pat p = 0
  · rw [if_pos hz] at hw; cases hw
  rw [if_neg hz] at hw
  rw [dif_neg hz, dif_neg hz]
  by_cases hopen : byteAt pat p = ch '('
  · have hcond : (p + 1 < pat.length ∧ byteAt pat (p + 1) = ch ')') ↔ byteAt pat (p + 1) = ch ')' :=
      and_iff_right_of_imp fun h => Lua51.lt_length_of_byteAt (by rw [h]; decide)
    rw [if_pos hopen, if_pos hopen, matchInner, dif_pos hlen, if_pos hopen]
    simp only [hcond]
    by_cases hpos : byteAt pat (p + 1) = ch ')'
    · simp only [if_pos hpos]
      exact Sim.openCapture (fun st hst => hrest (by omega) hlen s st hst) hst
    · simp only [if_neg hpos]
      exact Sim.openCapture (fun st hst => hrest (by omega) hlen s st hst) hst
  rw [if_neg hopen, if_neg hopen]
  by_cases hclose : byteAt pat p = ch ')'
  · rw [if_pos hclose, if_pos hclose, matchInner, dif_pos hlen, if_neg hopen, if_pos hclose]
    exact Sim.matchCloseCapture (fun _ st hst => hrest (by omega) hlen s st hst) hst
  rw [if_neg hclose, if_neg hclose]
  rw [if_neg fun h => h.elim hopen hclose] at hw
  by_cases hb : byteAt pat p = ch '%' ∧ byteAt pat (p + 1) = ch 'b'
  · have hlen1 : p + 1 < pat.length := Lua51.lt_length_of_byteAt (by rw [hb.2]; decide)
    rw [if_pos hb] at hw
    rw [Bool.and_eq_true, Bool.not_eq_true'] at hw
    rw [if_pos hb, if_pos hb, matchInner_escape hb.1 hlen1 hw.1, if_pos hb.2]
    refine Sim.matchBalance (fun s st hst => hrest (by omega) hlen s st hst) ?_ hst
    simpa using hw.2
  rw [if_neg hb] at hw
  rw [if_neg hb, if_neg hb]
  by_cases hf : byteAt pat p = ch '%' ∧ byteAt pat (p + 1) = ch 'f'
  · have hlen1 : p + 1 < pat.length := Lua51.lt_length_of_byteAt (by rw [hf.2]; decide)
    rw [if_pos hf] at hw
    rw [Bool.and_eq_true, Bool.not_eq_true'] at hw
    rw [if_pos hf, if_pos hf, matchInner_escape hf.1 hlen1 hw.1, if_neg fun h => hb ⟨hf.1, h⟩, if_pos hf.2]
    by_cases hset : byteAt pat (p + 2) = ch '['
    · rw [if_neg (not_not.mpr hset), if_neg (not_not.mpr hset)]
      have hok : setOk pat (p + 2) = true := by
        have := hw.2
        rw [hset] at this
        simpa using this
      cases he : Lua51.classend pat (p + 2) with
      | error e => rw [setOk, he] at hok; cases hok
      | ok e =>
        have hlt := Lua51.lt_classend he
        rw [classEnd_eq (by rw [hset]; decide) he]
        exact Sim.matchFrontier hset he hok (hrest (by omega) hlen s st hst) hst
    · rw [if_pos hset, if_pos hset, matchFrontier, if_pos (.inr hset)]
      exact .error
  rw [if_neg hf] at hw
  rw [if_neg hf, if_neg hf]
  by_cases hd : byteAt pat p = ch '%' ∧ isAsciiDigit (byteAt pat (p + 1)) = true
  · have hlen1 : p + 1 < pat.length := Lua51.lt_length_of_byteAt fun h => by
      rw [h] at hd
      exact absurd hd.2 (by decide)
    rw [if_pos hd] at hw
    rw [Bool.and_eq_true, Bool.not_eq_true', Bool.not_eq_true'] at hw
    rw [if_pos hd, if_pos hd, matchInner_escape hd.1 hlen1 hw.1, if_neg fun h => hb ⟨hd.1, h⟩,
      if_neg fun h => hf ⟨hd.1, h⟩, if_pos hd.2]
    exact Sim.matchBackref (fun s st hst => hrest (by omega) hlen s st hst) hw.2 hst
  rw [if_neg hd] at hw
  rw [if_neg hd, if_neg hd]
  by_cases ha : byteAt pat p = ch '$' ∧ byteAt pat (p + 1) = 0
  · rw [if_pos ha] at hw
    have hlast : byteAt pat p = ch '$' ∧ pat.length ≤ p + 1 := ⟨ha.1, of_decide_eq_true hw⟩
    rw [if_pos ha, if_pos ha, matchInner, dif_pos hlen, if_neg hopen, if_neg hclose, if_pos hlast]
    by_cases hs : s = src.length
    · simp only [if_pos hs]; exact .succeed hst
    · simp only [if_neg hs]; exact .fail hst
  rw [if_neg ha] at hw
  rw [if_neg ha, if_neg ha]
  -- a single-character item with or without a quantifier
  rw [Bool.and_eq_true, Bool.or_eq_true] at hw
  cases he : Lua51.classend pat p with
  | error e => rw [he] at hw; cases hw.1
  | ok e =>
  have hlt := Lua51.lt_classend he
  have hend := classEnd_eq hz he
  have hset : byteAt pat p = ch '[' → setOk pat p = true := fun h =>
    hw.2.resolve_left (by rw [h]; simp)
  rw [matchInner_class hlen hopen hclose
    (fun h => ⟨fun h' => hb ⟨h, h'⟩, fun h' => hf ⟨h, h'⟩, Bool.eq_false_iff.mpr fun h' => hd ⟨h, h'⟩⟩)
    fun h => ha ⟨h.1, byteAt_eq_zero h.2⟩, hend]
  simp only [singlematch_eq cc src he hset]
  have hsingle : ∀ s', (s' < src.length ∧ Lua51.singlematch cc src pat p e s' = true) ↔
      Lua51.singlematch cc src pat p e s' = true := fun s' =>
    and_iff_right_of_imp fun h => by
      by_contra hno
      rw [Lua51.singlematch, if_neg hno] at h
      cases h
  simp only [hsingle]
  have hnext := fun s st (hst : st.captures = caps) => hrest (show p < e + 1 by omega) hlen s st hst
  split_ifs
  · exact (hnext _ _ hst).orElse fun st hst => ih _ (by omega) _ _ hst rfl
  · exact ih _ (by omega) _ _ hst rfl
  · exact Sim.greedyDown hnext _ hst
  · exact Sim.greedyDown hnext _ hst
  · exact .fail hst
  · exact Sim.matchLazy hnext hst
  · exact ih _ (by omega) _ _ hst rfl
  · exact .fail hst

end Rilua.Stdlib
