import Rilua.Stdlib.PatternAgree

/-! The matcher with the accesses to the subject that the code does not guard: one that is out of range is a panic.
    From a position within the subject there is none, the match ends within the subject, and so do its captures. -/

namespace Rilua.Stdlib

/-- The result of a match, nothing if it panics. -/
abbrev CheckedResult := Option MatchResult

namespace Checked

/-! ### The items of a pattern -/

def onFail (r : CheckedResult) (next : MatchState → CheckedResult) : CheckedResult :=
  match r with
  | some (.ok (none, st)) => next st
  | r => r

def greedyDown (k : ℕ → MatchState → CheckedResult) (srcPos : ℕ) : ℕ → MatchState → CheckedResult
  | 0, st => k srcPos st
  | count + 1, st => onFail (k (srcPos + (count + 1)) st) (greedyDown k srcPos count)

def matchGreedy (src : List UInt8) (single : ℕ → Bool) (k : ℕ → MatchState → CheckedResult) (srcPos : ℕ)
    (st : MatchState) : CheckedResult :=
  greedyDown k srcPos (countMatches src single srcPos) st

def matchLazy (src : List UInt8) (single : ℕ → Bool) (k : ℕ → MatchState → CheckedResult) (pos : ℕ)
    (st : MatchState) : CheckedResult :=
  onFail (k pos st) fun st =>
    if pos < src.length ∧ single pos = true then matchLazy src single k (pos + 1) st else some (.ok (none, st))
termination_by src.length - pos

def openCapture (len : CaptureLen) (k : ℕ → MatchState → CheckedResult) (srcPos : ℕ) (st : MatchState) :
    CheckedResult :=
  if luaMaxCaptures ≤ st.captures.length then some (.error .tooManyCaptures)
  else
    let capIdx := st.captures.length
    onFail (k srcPos { st with captures := st.captures ++ [⟨srcPos, len⟩], level := st.level + 1 })
      fun st => some (.ok (none, { st with captures := st.captures.take capIdx, level := st.level - 1 }))

def matchCloseCapture (k : ℕ → MatchState → CheckedResult) (srcPos : ℕ) (st : MatchState) : CheckedResult :=
  match findOpenCapture st.captures with
  | none => some (.error .invalidPatternCapture)
  | some capIdx =>
    let start := captureStart st.captures capIdx
    if srcPos < start then none
    else
      onFail (k srcPos { st with
          captures := setLen st.captures capIdx (.finished (srcPos - start)), level := st.level - 1 })
        fun st => some (.ok (none, { st with
          captures := setLen st.captures capIdx .unfinished, level := st.level + 1 }))

def matchBalance (src pat : List UInt8) (k : ℕ → MatchState → CheckedResult) (srcPos patPos : ℕ)
    (st : MatchState) : CheckedResult :=
  if pat.length ≤ patPos + 3 then some (.error .unbalancedPattern)
  else
    let opening := byteAt pat (patPos + 2)
    let closing := byteAt pat (patPos + 3)
    if src.length ≤ srcPos ∨ byteAt src srcPos ≠ opening then some (.ok (none, st))
    else
      match balanceEnd src opening closing (srcPos + 1) 1 with
      | some pos => k (pos + 1) st
      | none => some (.ok (none, st))

/-- The byte in front of the position is read without a look at the length of the subject. -/
def matchFrontier (cc : CharClasses) (src pat : List UInt8) (k : ℕ → MatchState → CheckedResult)
    (srcPos patPos : ℕ) (st : MatchState) : CheckedResult :=
  if pat.length ≤ patPos + 2 ∨ byteAt pat (patPos + 2) ≠ ch '[' then some (.error .missingBracket)
  else
    match if 0 < srcPos then src[srcPos - 1]? else some 0 with
    | none => none
    | some prev =>
      let curr := if srcPos < src.length then byteAt src srcPos else 0
      let prevMatches := (matchbracketclass cc pat prev (patPos + 2)).1
      let currMatches := (matchbracketclass cc pat curr (patPos + 2)).1
      if !prevMatches && currMatches then k srcPos st else some (.ok (none, st))

/-- The part of the subject that the capture covers is cut out as it is. -/
def matchBackref (src pat : List UInt8) (k : ℕ → MatchState → CheckedResult) (srcPos patPos : ℕ)
    (st : MatchState) : CheckedResult :=
  let n := (byteAt pat (patPos + 1)).toNat - (ch '0').toNat
  if n = 0 ∨ st.captures.length < n then some (.error .invalidCaptureIndex)
  else
    match st.captures[n - 1]? with
    | some ⟨start, .finished len⟩ =>
      if src.length < srcPos + len then some (.ok (none, st))
      else if src.length < start + len then none
      else if slice src srcPos len = slice src start len then k (srcPos + len) st
      else some (.ok (none, st))
    | _ => some (.error .invalidCaptureIndex)

/-! ### The matcher -/

def enter (body : MatchState → CheckedResult) (st : MatchState) : CheckedResult :=
  let st := { st with depth := st.depth + 1 }
  if maxCCallsPattern < st.depth then some (.error .patternTooComplex)
  else
    match body st with
    | some (.ok (r, st)) => some (.ok (r, { st with depth := st.depth - 1 }))
    | r => r

def matchInner (cc : CharClasses) (src pat : List UInt8) (srcPos patPos : ℕ) (st : MatchState) : CheckedResult :=
  if _h : patPos < pat.length then
    if byteAt pat patPos = ch '(' then
      if patPos + 1 < pat.length ∧ byteAt pat (patPos + 1) = ch ')' then
        openCapture .position (fun s => enter (matchInner cc src pat s (patPos + 2))) srcPos st
      else openCapture .unfinished (fun s => enter (matchInner cc src pat s (patPos + 1))) srcPos st
    else if byteAt pat patPos = ch ')' then
      matchCloseCapture (fun s => enter (matchInner cc src pat s (patPos + 1))) srcPos st
    else if byteAt pat patPos = ch '$' ∧ pat.length ≤ patPos + 1 then
      some (.ok (if srcPos = src.length then some srcPos else none, st))
    else
      let e := classEnd pat patPos
      let single := fun s => singlematch cc src pat s patPos
      let rest := fun s => enter (matchInner cc src pat s (e + 1))
      match (getQuantifier pat patPos).2 with
      | .greedy => matchGreedy src single rest srcPos st
      | .lazy => matchLazy src single rest srcPos st
      | .plus =>
        if srcPos < src.length ∧ single srcPos = true then matchGreedy src single rest (srcPos + 1) st
        else some (.ok (none, st))
      | .optional =>
        if srcPos < src.length ∧ single srcPos = true then
          onFail (rest (srcPos + 1) st) (matchInner cc src pat srcPos (e + 1))
        else matchInner cc src pat srcPos (e + 1) st
      | .none =>
        if byteAt pat patPos = ch '%' ∧ patPos + 1 < pat.length ∧ byteAt pat (patPos + 1) = ch 'b' then
          matchBalance src pat (fun s => enter (matchInner cc src pat s (patPos + 4))) srcPos patPos st
        else if byteAt pat patPos = ch '%' ∧ patPos + 1 < pat.length ∧ byteAt pat (patPos + 1) = ch 'f' then
          matchFrontier cc src pat
            (fun s => enter (matchInner cc src pat s (classEnd pat (patPos + 2)))) srcPos patPos st
        else if byteAt pat patPos = ch '%' ∧ patPos + 1 < pat.length ∧
            isAsciiDigit (byteAt pat (patPos + 1)) = true then
          matchBackref src pat (fun s => enter (matchInner cc src pat s (patPos + 2))) srcPos patPos st
        else if srcPos < src.length ∧ single srcPos = true then matchInner cc src pat (srcPos + 1) e st
        else some (.ok (none, st))
  else some (.ok (some srcPos, st))
termination_by pat.length - patPos
decreasing_by
  all_goals
    have hlt := lt_classEnd _h
    have hle := le_classEnd pat (patPos + 2)
    omega

def match_ (cc : CharClasses) (src pat : List UInt8) (srcPos patPos : ℕ) (st : MatchState) : CheckedResult :=
  enter (matchInner cc src pat srcPos patPos) st

end Checked

/-! ### Within bounds -/

/-- The captures lie between `lo` and `s`. -/
def Within (lo s : ℕ) (caps : List Capture) : Prop :=
  ∀ c ∈ caps, lo ≤ c.start ∧ c.start ≤ s ∧ ∀ l, c.len = .finished l → c.start + l ≤ s

theorem Within.mono {lo s s' : ℕ} {caps : List Capture} (h : Within lo s caps) (hle : s ≤ s') : Within lo s' caps := by
  intro c hc
  obtain ⟨hlo, hstart, hend⟩ := h c hc
  exact ⟨hlo, by omega, fun l hl => by have := hend l hl; omega⟩

/-- A match goes on from `s` and ends at `bound` or before; without a match the captures are as before. -/
def Keeps (lo bound s : ℕ) (caps : List Capture) : MatchResult → Prop
  | .error _ => True
  | .ok (none, st) => st.captures = caps
  | .ok (some e, st) => s ≤ e ∧ e ≤ bound ∧ Within lo e st.captures

/-- At one position, the checked matcher does what the other one does, or it panics where it may. -/
structure SoundAt (panics : Prop) (lo bound s : ℕ) (caps : List Capture) (r : MatchResult) (rc : CheckedResult) :
    Prop where
  checked : rc = some r ∨ (panics ∧ rc = none)
  keeps : Keeps lo bound s caps r

/-- The rest of the matcher is sound at every position up to `bound`. It may only panic where positions past the end
    of the subject are allowed. -/
def Sound (src : List UInt8) (lo bound : ℕ) (k : ℕ → MatchState → MatchResult) (kc : ℕ → MatchState → CheckedResult) :
    Prop :=
  ∀ s st, lo ≤ s → s ≤ bound → Within lo s st.captures →
    SoundAt (src.length < bound) lo bound s st.captures (k s st) (kc s st)

namespace SoundAt

variable {panics : Prop} {lo bound s : ℕ} {caps : List Capture} {r : MatchResult} {rc : CheckedResult} {st : MatchState}

theorem error (e : MatchError) : SoundAt panics lo bound s caps (.error e) (some (.error e)) := ⟨.inl rfl, trivial⟩

theorem fail (h : st.captures = caps) : SoundAt panics lo bound s caps (.ok (none, st)) (some (.ok (none, st))) :=
  ⟨.inl rfl, h⟩

theorem succeed (hbound : s ≤ bound) (h : Within lo s st.captures) :
    SoundAt panics lo bound s caps (.ok (some s, st)) (some (.ok (some s, st))) :=
  ⟨.inl rfl, Nat.le_refl s, hbound, h⟩

/-- A match that goes on from a later position. -/
theorem later {s' : ℕ} (hle : s ≤ s') (h : SoundAt panics lo bound s' caps r rc) :
    SoundAt panics lo bound s caps r rc := by
  refine ⟨h.checked, ?_⟩
  have hk := h.keeps
  rcases r with e | ⟨_ | e, st⟩
  · trivial
  · exact hk
  · exact ⟨Nat.le_trans hle hk.1, hk.2⟩

/-- Going on with the next alternative. -/
theorem orElse {next : MatchState → MatchResult} {nextc : MatchState → CheckedResult}
    (h : SoundAt panics lo bound s caps r rc)
    (hnext : ∀ st, st.captures = caps → SoundAt panics lo bound s caps (next st) (nextc st)) :
    SoundAt panics lo bound s caps (Stdlib.onFail r next) (Checked.onFail rc nextc) := by
  obtain ⟨hc, hk⟩ := h
  rcases r with e | ⟨_ | e, st⟩
  · rcases hc with rfl | ⟨hp, rfl⟩
    · exact error e
    · exact ⟨.inr ⟨hp, rfl⟩, trivial⟩
  · rcases hc with rfl | ⟨hp, rfl⟩
    · exact hnext st hk
    · exact ⟨.inr ⟨hp, rfl⟩, (hnext st hk).keeps⟩
  · rcases hc with rfl | ⟨hp, rfl⟩
    · exact ⟨.inl rfl, hk⟩
    · exact ⟨.inr ⟨hp, rfl⟩, hk⟩

/-- Undoing a change of the captures when the rest of the match fails. -/
theorem undo {caps' : List Capture} {f : MatchState → MatchState} (h : SoundAt panics lo bound s caps' r rc)
    (hf : ∀ st, st.captures = caps' → (f st).captures = caps) :
    SoundAt panics lo bound s caps (Stdlib.onFail r fun st => .ok (none, f st))
      (Checked.onFail rc fun st => some (.ok (none, f st))) := by
  obtain ⟨hc, hk⟩ := h
  have hkeeps : Keeps lo bound s caps (Stdlib.onFail r fun st => .ok (none, f st)) := by
    rcases r with e | ⟨_ | e, st⟩
    · trivial
    · exact hf st hk
    · exact hk
  rcases hc with rfl | ⟨hp, rfl⟩
  · refine ⟨.inl ?_, hkeeps⟩
    rcases r with e | ⟨_ | e, st⟩ <;> rfl
  · exact ⟨.inr ⟨hp, rfl⟩, hkeeps⟩

theorem enter {body : MatchState → MatchResult} {bodyc : MatchState → CheckedResult}
    (h : ∀ st, st.captures = caps → SoundAt panics lo bound s caps (body st) (bodyc st)) (hst : st.captures = caps) :
    SoundAt panics lo bound s caps (Stdlib.enter body st) (Checked.enter bodyc st) := by
  obtain ⟨hc, hk⟩ := h { st with depth := st.depth + 1 } hst
  simp only [Stdlib.enter, Checked.enter]
  split
  · exact error _
  · generalize body { st with depth := st.depth + 1 } = r at hc hk
    rcases hc with hc | ⟨hp, hc⟩
    · rw [hc]
      rcases r with e | ⟨_ | e, st'⟩
      · exact error e
      · exact fail hk
      · exact ⟨.inl rfl, hk⟩
    · rw [hc]
      refine ⟨.inr ⟨hp, rfl⟩, ?_⟩
      rcases r with e | ⟨_ | e, st'⟩
      · trivial
      · exact hk
      · exact hk

end SoundAt

section Items

variable {src pat : List UInt8} {k : ℕ → MatchState → MatchResult} {kc : ℕ → MatchState → CheckedResult}
  {single : ℕ → Bool} {lo bound s p : ℕ} {st : MatchState} {cc : CharClasses}

theorem countMatches_le (single : ℕ → Bool) (s : ℕ) (hlen : src.length ≤ bound) (h : s ≤ bound) :
    s + countMatches src single s ≤ bound := by
  fun_induction countMatches src single s with
  | case1 s hmore ih =>
    have := ih (by omega)
    omega
  | case2 s hstop => exact h

theorem sound_greedyDown (hk : Sound src lo bound k kc) (n : ℕ) (hlo : lo ≤ s) (hn : s + n ≤ bound)
    (hst : Within lo s st.captures) :
    SoundAt (src.length < bound) lo bound s st.captures (greedyDown k s n st) (Checked.greedyDown kc s n st) := by
  induction n generalizing st with
  | zero => exact hk s st hlo hn hst
  | succ n ih =>
    refine ((hk _ st (by omega) hn (hst.mono (by omega))).later (by omega)).orElse fun st' hst' => ?_
    rw [← hst']
    exact ih (by omega) (hst'.symm ▸ hst)

theorem sound_matchGreedy (hlen : src.length ≤ bound) (hk : Sound src lo bound k kc) (hlo : lo ≤ s) (hs : s ≤ bound)
    (hst : Within lo s st.captures) :
    SoundAt (src.length < bound) lo bound s st.captures (matchGreedy src single k s st)
      (Checked.matchGreedy src single kc s st) :=
  sound_greedyDown hk _ hlo (countMatches_le single s hlen hs) hst

theorem sound_matchLazy (hlen : src.length ≤ bound) (hk : Sound src lo bound k kc) (hlo : lo ≤ s) (hs : s ≤ bound)
    (hst : Within lo s st.captures) :
    SoundAt (src.length < bound) lo bound s st.captures (matchLazy src single k s st)
      (Checked.matchLazy src single kc s st) := by
  induction hn : src.length - s using Nat.strong_induction_on generalizing s st with
  | _ n ih =>
    rw [matchLazy, Checked.matchLazy]
    refine (hk s st hlo hs hst).orElse fun st' hst' => ?_
    split
    · next hmore =>
      rw [← hst'] at hst ⊢
      exact (ih _ (by omega) (by omega) (by omega) (hst.mono (Nat.le_succ s)) rfl).later (Nat.le_succ s)
    · exact .fail hst'

theorem sound_openCapture {len : CaptureLen} (hlen : ∀ l, len ≠ .finished l) (hk : Sound src lo bound k kc)
    (hlo : lo ≤ s) (hs : s ≤ bound) (hst : Within lo s st.captures) :
    SoundAt (src.length < bound) lo bound s st.captures (openCapture len k s st) (Checked.openCapture len kc s st) := by
  rw [openCapture, Checked.openCapture]
  split
  · exact .error _
  · refine (hk s _ hlo hs ?_).undo fun st' hst' => by simp only [hst', List.take_left']
    intro c hc
    rcases List.mem_append.mp hc with hc | hc
    · exact hst c hc
    · rw [List.mem_singleton.mp hc]
      exact ⟨hlo, Nat.le_refl s, fun l hl => absurd hl (hlen l)⟩

theorem captureStart_le {caps : List Capture} (h : Within lo s caps) (i : ℕ) : captureStart caps i ≤ s := by
  rw [captureStart]
  cases hc : caps[i]? with
  | none => exact Nat.zero_le s
  | some c => exact (h c (List.mem_of_getElem? hc)).2.1

theorem sound_matchCloseCapture (hk : Sound src lo bound k kc) (hlo : lo ≤ s) (hs : s ≤ bound)
    (hst : Within lo s st.captures) :
    SoundAt (src.length < bound) lo bound s st.captures (matchCloseCapture k s st)
      (Checked.matchCloseCapture kc s st) := by
  rw [matchCloseCapture, Checked.matchCloseCapture]
  cases hf : findOpenCapture st.captures with
  | none => exact .error _
  | some i =>
    obtain ⟨c, hc, hlen⟩ := Sim.findOpenCapture_some hf
    have hstart := captureStart_le hst i
    dsimp only
    rw [if_neg (Nat.not_lt.mpr hstart)]
    refine (hk s _ hlo hs ?_).undo fun st' hst' => by
      simp only [hst']
      exact Sim.setLen_setLen hc hlen _
    -- The capture that is closed ends here.
    intro d hd
    obtain ⟨j, hj⟩ := List.mem_iff_getElem?.mp hd
    simp only [setLen, List.getElem?_modify] at hj
    cases hcaps : st.captures[j]? with
    | none =>
      rw [hcaps] at hj
      cases hj
    | some d' =>
      obtain ⟨hlo', hstart', hend'⟩ := hst d' (List.mem_of_getElem? hcaps)
      rw [hcaps, Option.map_eq_map, Option.map_some, Option.some.injEq] at hj
      subst hj
      by_cases hij : i = j
      · subst hij
        rw [if_pos rfl]
        refine ⟨hlo', hstart', fun l hl => ?_⟩
        rw [captureStart, hcaps] at hl
        cases hl
        change d'.start + (s - d'.start) ≤ s
        omega
      · rw [if_neg hij]
        exact ⟨hlo', hstart', hend'⟩

theorem balanceEnd_some {opening closing : UInt8} {pos count e : ℕ}
    (h : balanceEnd src opening closing pos count = some e) : pos ≤ e ∧ e < src.length := by
  fun_induction balanceEnd src opening closing pos count with
  | case1 pos hlt hclose =>
    cases h
    exact ⟨Nat.le_refl _, hlt⟩
  | case2 pos count hlt hclose hcount ih =>
    have := ih h
    omega
  | case3 pos count hlt hclose hopen ih =>
    have := ih h
    omega
  | case4 pos count hlt hclose hopen ih =>
    have := ih h
    omega
  | case5 => cases h

theorem sound_matchBalance (hlen : src.length ≤ bound) (hk : Sound src lo bound k kc) (hlo : lo ≤ s)
    (hst : Within lo s st.captures) :
    SoundAt (src.length < bound) lo bound s st.captures (matchBalance src pat k s p st)
      (Checked.matchBalance src pat kc s p st) := by
  rw [matchBalance, Checked.matchBalance]
  split
  · exact .error _
  · dsimp only
    split
    · exact .fail rfl
    · cases he : balanceEnd src (byteAt pat (p + 2)) (byteAt pat (p + 3)) (s + 1) 1 with
      | none => exact .fail rfl
      | some e =>
        obtain ⟨hle, hlt⟩ := balanceEnd_some he
        exact (hk (e + 1) st (by omega) (by omega) (hst.mono (by omega))).later (by omega)

theorem sound_matchFrontier (hk : Sound src lo bound k kc) (hlo : lo ≤ s) (hs : s ≤ bound)
    (hst : Within lo s st.captures) :
    SoundAt (src.length < bound) lo bound s st.captures (matchFrontier cc src pat k s p st)
      (Checked.matchFrontier cc src pat kc s p st) := by
  -- Whatever the byte in front of the position is, the captures are as they should be.
  have hkeeps : Keeps lo bound s st.captures (matchFrontier cc src pat k s p st) := by
    rw [matchFrontier]
    split
    · trivial
    · generalize (if 0 < s then byteAt src (s - 1) else 0) = prev
      generalize (if s < src.length then byteAt src s else 0) = curr
      dsimp only
      split
      · exact (hk s st hlo hs hst).keeps
      · rfl
  refine ⟨?_, hkeeps⟩
  rw [matchFrontier, Checked.matchFrontier]
  split
  · exact .inl rfl
  · by_cases hpast : 0 < s ∧ src.length ≤ s - 1
    · rw [if_pos hpast.1, if_pos hpast.1, List.getElem?_eq_none hpast.2]
      exact .inr ⟨by omega, rfl⟩
    · have hprev : (if 0 < s then src[s - 1]? else some 0) = some (if 0 < s then byteAt src (s - 1) else 0) := by
        split
        · have hlt : s - 1 < src.length := by omega
          rw [byteAt, List.getElem?_eq_getElem hlt, Option.getD_some]
        · rfl
      rw [hprev]
      generalize (if 0 < s then byteAt src (s - 1) else 0) = prev
      generalize (if s < src.length then byteAt src s else 0) = curr
      dsimp only
      split
      · exact (hk s st hlo hs hst).checked
      · exact .inl rfl

theorem sound_matchBackref (hlen : src.length ≤ bound) (hk : Sound src lo bound k kc) (hlo : lo ≤ s)
    (hst : Within lo s st.captures) :
    SoundAt (src.length < bound) lo bound s st.captures (matchBackref src pat k s p st)
      (Checked.matchBackref src pat kc s p st) := by
  rw [matchBackref, Checked.matchBackref]
  split
  · exact .error _
  · cases hc : st.captures[(byteAt pat (p + 1)).toNat - (ch '0').toNat - 1]? with
    | none => exact .error _
    | some c =>
      obtain ⟨start, len⟩ := c
      cases len with
      | finished len =>
        have hend := (hst _ (List.mem_of_getElem? hc)).2.2 len rfl
        dsimp only at hend ⊢
        by_cases hshort : src.length < s + len
        · rw [if_pos hshort, if_pos hshort]
          exact .fail rfl
        · -- The capture ends where the text that repeats it starts, or before.
          rw [if_neg hshort, if_neg hshort, if_neg (show ¬ src.length < start + len by omega)]
          split
          · exact (hk (s + len) st (by omega) (by omega) (hst.mono (by omega))).later (by omega)
          · exact .fail rfl
      | unfinished => exact .error _
      | position => exact .error _

end Items

theorem sound_matchInner (cc : CharClasses) {src : List UInt8} (pat : List UInt8) (p lo : ℕ) {bound : ℕ}
    (hsrc : src.length ≤ bound) :
    Sound src lo bound (fun s => matchInner cc src pat s p) fun s => Checked.matchInner cc src pat s p := by
  induction hn : pat.length - p using Nat.strong_induction_on generalizing p with
  | _ n ih =>
  intro s st hlo hs hst
  have hrest : ∀ {p' : ℕ}, p < p' → p < pat.length → Sound src lo bound (fun s => enter (matchInner cc src pat s p'))
      fun s => Checked.enter (Checked.matchInner cc src pat s p') := by
    intro p' hp' hlen s' st' hlo' hs' hst'
    refine .enter (fun st'' hcaps => ?_) rfl
    rw [← hcaps] at hst' ⊢
    exact ih _ (by omega) p' rfl s' st'' hlo' hs' hst'
  change SoundAt _ lo _ s _ (matchInner cc src pat s p st) (Checked.matchInner cc src pat s p st)
  rw [matchInner, Checked.matchInner]
  by_cases hlen : p < pat.length
  swap
  · rw [dif_neg hlen, dif_neg hlen]
    exact .succeed hs hst
  rw [dif_pos hlen, dif_pos hlen]
  have hclass := lt_classEnd hlen
  split
  · split
    · exact sound_openCapture (by simp) (hrest (by omega) hlen) hlo hs hst
    · exact sound_openCapture (by simp) (hrest (by omega) hlen) hlo hs hst
  split
  · exact sound_matchCloseCapture (hrest (by omega) hlen) hlo hs hst
  split
  · split
    · exact .succeed hs hst
    · exact .fail rfl
  have hnext := hrest (show p < classEnd pat p + 1 by omega) hlen
  have hset := le_classEnd pat (p + 2)
  dsimp only
  cases (getQuantifier pat p).2 with
  | greedy => exact sound_matchGreedy hsrc hnext hlo hs hst
  | lazy => exact sound_matchLazy hsrc hnext hlo hs hst
  | plus =>
    dsimp only
    split
    · exact (sound_matchGreedy hsrc hnext (by omega) (by omega) (hst.mono (Nat.le_succ s))).later (Nat.le_succ s)
    · exact .fail rfl
  | optional =>
    dsimp only
    split
    · refine ((hnext (s + 1) st (by omega) (by omega) (hst.mono (Nat.le_succ s))).later (Nat.le_succ s)).orElse ?_
      intro st' hcaps
      rw [← hcaps] at hst ⊢
      exact ih _ (by omega) _ rfl s st' hlo hs hst
    · exact ih _ (by omega) _ rfl s st hlo hs hst
  | none =>
    dsimp only
    split
    · exact sound_matchBalance hsrc (hrest (show p < p + 4 by omega) hlen) hlo hst
    split
    · exact sound_matchFrontier (hrest (show p < classEnd pat (p + 2) by omega) hlen) hlo hs hst
    split
    · exact sound_matchBackref hsrc (hrest (show p < p + 2 by omega) hlen) hlo hst
    split
    · exact (ih _ (by omega) _ rfl (s + 1) st (by omega) (by omega) (hst.mono (Nat.le_succ s))).later (Nat.le_succ s)
    · exact .fail rfl

theorem sound_match (cc : CharClasses) {src : List UInt8} (pat : List UInt8) (p : ℕ) {lo bound s : ℕ}
    (hsrc : src.length ≤ bound) (hlo : lo ≤ s) (hs : s ≤ bound) :
    SoundAt (src.length < bound) lo bound s [] (match_ cc src pat s p {}) (Checked.match_ cc src pat s p {}) :=
  .enter (fun st hst => by
    have hwithin : Within lo s st.captures := by
      rw [hst]
      exact fun c hc => absurd hc List.not_mem_nil
    have := sound_matchInner cc pat p lo hsrc s st hlo hs hwithin
    rwa [hst] at this) rfl

/-- From a position within the subject the matcher does not panic, and it keeps within the subject. -/
theorem match_within (cc : CharClasses) {src : List UInt8} (pat : List UInt8) (p : ℕ) {s : ℕ} (hs : s ≤ src.length) :
    Checked.match_ cc src pat s p {} = some (match_ cc src pat s p {}) ∧
      Keeps 0 src.length s [] (match_ cc src pat s p {}) := by
  have h := sound_match cc pat p (Nat.le_refl src.length) (Nat.zero_le s) hs
  exact ⟨h.checked.resolve_right fun hp => absurd hp.1 (Nat.lt_irrefl _), h.keeps⟩

/-- From a position past the end of the subject there are only empty matches and empty captures, all of them there. -/
theorem match_past (cc : CharClasses) {src : List UInt8} (pat : List UInt8) (p : ℕ) {s : ℕ} (hs : src.length < s)
    {r : MatchResult} (hr : Checked.match_ cc src pat s p {} = some r) : Keeps s s s [] r := by
  have h := sound_match cc pat p (Nat.le_of_lt hs) (Nat.le_refl s) (Nat.le_refl s)
  rcases h.checked with hc | ⟨_, hc⟩
  · rw [hr, Option.some.injEq] at hc
    exact hc ▸ h.keeps
  · rw [hr] at hc
    cases hc

end Rilua.Stdlib
