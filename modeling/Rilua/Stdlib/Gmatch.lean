import Rilua.Stdlib.Gsub

/-! `string.gmatch` (`stdlib/string.rs`), and that `string.gsub` visits the same matches. The position between two calls
    of the iterator is kept as a natural number. -/

namespace Rilua.Stdlib

open Vm

/-! ### The iterator -/

/-- A call of the iterator with position `pos`: the match, its values and the next position, or nothing. -/
def gmatchAux (cc : CharClasses) (s pattern : List UInt8) (anchor : Bool) (pos : ℕ) :
    Native (Option (GMatch × List MatchVal × ℕ)) :=
  if pos ≤ s.length then
    (matchAt cc s pattern pos).bind fun
      | some m =>
        let newPos := if m.stop = pos then m.stop + 1 else m.stop
        (matchValues s m).bind fun vals => .ok (some (m, vals, newPos))
      | none => if anchor then .ok none else gmatchAux cc s pattern anchor (pos + 1)
  else .ok none
termination_by s.length + 1 - pos

section Gmatch

variable {cc : CharClasses} {s pattern : List UInt8} {anchor : Bool} {pos : ℕ}

/-- A match that the iterator has found lies within the subject, and the next position is behind it. -/
theorem gmatchAux_within (cc : CharClasses) (s pattern : List UInt8) (anchor : Bool) (pos : ℕ) :
    (gmatchAux cc s pattern anchor pos).Satisfies fun r => ∀ m vals newPos, r = some (m, vals, newPos) →
      newPos = m.next ∧ pos < newPos ∧ pos ≤ s.length := by
  fun_induction gmatchAux cc s pattern anchor pos with
  | case1 pos hpos ih =>
    refine (matchAt_within cc pattern hpos).bind fun r hr => ?_
    cases r with
    | some m =>
      have hm := hr m rfl
      refine (matchValues_within hm).bind fun vals _ => .ok fun m' vals' newPos h => ?_
      cases h
      have hnext : m.next = if m.stop = pos then m.stop + 1 else m.stop := by rw [GMatch.next, hm.start_eq]
      exact ⟨hnext.symm, hnext ▸ hm.lt_next, hpos⟩
    | none =>
      dsimp only
      split
      · exact .ok fun _ _ _ h => by cases h
      · refine ih.mono fun r hr m vals newPos h => ?_
        obtain ⟨hnext, hlt, -⟩ := hr m vals newPos h
        exact ⟨hnext, by omega, hpos⟩
  | case2 pos hpos => exact .ok fun _ _ _ h => by cases h

/-- Calls the iterator from `pos` on until it gives no match: the matches, and how the last call ended. -/
def gmatchAll (cc : CharClasses) (s pattern : List UInt8) (anchor : Bool) (pos : ℕ) : List GMatch × Native Unit :=
  match h : gmatchAux cc s pattern anchor pos with
  | some (.ok (some (m, _, newPos))) =>
    have := (gmatchAux_within cc s pattern anchor pos).of_ok h _ _ _ rfl
    let (ms, last) := gmatchAll cc s pattern anchor newPos
    (m :: ms, last)
  | some (.ok none) => ([], .ok ())
  | some (.error e) => ([], .error e)
  | none => ([], none)
termination_by s.length + 1 - pos
decreasing_by omega

theorem gmatchAll_eq (cc : CharClasses) (s pattern : List UInt8) (anchor : Bool) (pos : ℕ) :
    gmatchAll cc s pattern anchor pos =
      match gmatchAux cc s pattern anchor pos with
      | some (.ok (some (m, _, newPos))) =>
        (m :: (gmatchAll cc s pattern anchor newPos).1, (gmatchAll cc s pattern anchor newPos).2)
      | some (.ok none) => ([], .ok ())
      | some (.error e) => ([], .error e)
      | none => ([], none) := by
  rw [gmatchAll]
  split
  · next h => simp only [h]
  · next h => simp only [h]
  · next h => simp only [h]
  · next h => simp only [h]

/-- A match at `pos` with values. -/
structure MatchesAt (cc : CharClasses) (s pattern : List UInt8) (pos : ℕ) (m : GMatch) : Prop where
  pos_le : pos ≤ s.length
  matchAt_eq : matchAt cc s pattern pos = .ok (some m)
  readable : ∃ vals, matchValues s m = .ok vals

theorem MatchesAt.within {m : GMatch} (h : MatchesAt cc s pattern pos m) : m.Within s pos :=
  (matchAt_within cc pattern h.pos_le).of_ok h.matchAt_eq m rfl

theorem gmatchAll_of_matchesAt {m : GMatch} (h : MatchesAt cc s pattern pos m) :
    (gmatchAll cc s pattern anchor pos).1 = m :: (gmatchAll cc s pattern anchor m.next).1 := by
  obtain ⟨vals, hvals⟩ := h.readable
  have haux : gmatchAux cc s pattern anchor pos = .ok (some (m, vals, m.next)) := by
    rw [gmatchAux, if_pos h.pos_le, h.matchAt_eq, Native.bind_ok]
    dsimp only
    rw [hvals, Native.bind_ok, GMatch.next, h.within.start_eq]
  rw [gmatchAll_eq, haux]
  rfl

theorem gmatchAll_skip (hpos : pos ≤ s.length) (hm : matchAt cc s pattern pos = .ok none) :
    gmatchAll cc s pattern false pos = gmatchAll cc s pattern false (pos + 1) := by
  rw [gmatchAll_eq, gmatchAux, if_pos hpos, hm, gmatchAll_eq cc s pattern false (pos + 1)]
  rfl

/-- The sequence ends at `pos` if there is no match to go on with and no next position to try. -/
theorem gmatchAll_nil (h : ¬ ∃ m, MatchesAt cc s pattern pos m)
    (hstop : pos ≤ s.length → matchAt cc s pattern pos = .ok none → anchor = true) :
    (gmatchAll cc s pattern anchor pos).1 = [] := by
  have hnil : (gmatchAux cc s pattern anchor pos).Satisfies (· = none) := by
    rw [gmatchAux]
    by_cases hpos : pos ≤ s.length
    · rw [if_pos hpos]
      have hw := matchAt_within cc pattern hpos
      rcases hm : matchAt cc s pattern pos with _ | e | _ | m
      · exact absurd hm hw.ne_none
      · exact .error e
      · rw [hstop hpos hm]
        exact .ok rfl
      · have hv := matchValues_within (hw.of_ok hm m rfl)
        change ((matchValues s m).bind _).Satisfies _
        rcases hvals : matchValues s m with _ | e | vals
        · exact absurd hvals hv.ne_none
        · exact .error e
        · exact absurd ⟨m, hpos, hm, vals, hvals⟩ h
    · rw [if_neg hpos]
      exact .ok rfl
  rw [gmatchAll_eq]
  rcases ha : gmatchAux cc s pattern anchor pos with _ | e | _ | r
  · rfl
  · rfl
  · rfl
  · cases hnil.of_ok ha

end Gmatch

/-- The matches of `string.gmatch(s, pat)`, one call of the iterator after the other. -/
def strGmatchAll (cc : CharClasses) (s pat : List UInt8) : List GMatch × Native Unit :=
  gmatchAll cc s (patternOf pat) (isAnchored pat) 0

/-! ### The matches that a replacement is asked for -/

section Visits

variable {σ : Type} {host : StringHost} {machine : GsubHost σ} {cc : CharClasses} {s pattern : List UInt8}

/-- A replacement that also keeps the matches with values, for which a function is called. -/
def visiting (s : List UInt8) (replacement : σ → GMatch → Native (List UInt8) × σ) (st : σ × List GMatch) (m : GMatch) :
    Native (List UInt8) × (σ × List GMatch) :=
  let (text, next) := replacement st.1 m
  (text, next, match matchValues s m with
    | some (.ok _) => st.2 ++ [m]
    | _ => st.2)

/-- Where the replacement that is recorded gives a text, so does the one with the record. -/
theorem visiting_eq {replacement : σ → GMatch → Native (List UInt8) × σ} {st st' : σ} {m : GMatch}
    {text : Native (List UInt8)} (h : replacement st m = (text, st')) (visited : List GMatch) :
    ∃ visited', visiting s replacement (st, visited) m = (text, st', visited') := by
  rw [visiting, h]
  exact ⟨_, rfl⟩

/-- The record does not change what the loop does. -/
theorem gsubLoop_visiting (cc : CharClasses) (s pattern : List UInt8) (anchor : Bool) (limit : ℕ)
    (replacement : σ → GMatch → Native (List UInt8) × σ) (acc : GsubAcc) (st : σ) (visited : List GMatch) :
    ∃ visited', gsubLoop cc s pattern anchor limit (visiting s replacement) acc (st, visited) =
      ((gsubLoop cc s pattern anchor limit replacement acc st).1,
        (gsubLoop cc s pattern anchor limit replacement acc st).2, visited') := by
  fun_induction gsubLoop cc s pattern anchor limit replacement acc st generalizing visited with
  | case1 acc st hgo hm =>
    rw [gsubLoop, dif_pos hgo, hm]
    exact ⟨_, rfl⟩
  | case2 acc st hgo e hm => exact ⟨_, gsubLoop_error hgo hm⟩
  | case3 acc st hgo m hm st' hr =>
    obtain ⟨visited', hv⟩ := visiting_eq (s := s) hr visited
    rw [gsubLoop, dif_pos hgo, hm]
    simp only [hv]
    exact ⟨_, rfl⟩
  | case4 acc st hgo m hm e st' hr =>
    obtain ⟨visited', hv⟩ := visiting_eq (s := s) hr visited
    exact ⟨_, gsubLoop_replace_error hgo hm hv⟩
  | case5 acc st hgo m hm text st' hr hanchor =>
    obtain ⟨visited', hv⟩ := visiting_eq (s := s) hr visited
    rw [gsubLoop_replace hgo hm hv, if_pos hanchor]
    exact ⟨_, rfl⟩
  | case6 acc st hgo m hm text st' hr hanchor ih =>
    obtain ⟨visited', hv⟩ := visiting_eq (s := s) hr visited
    rw [gsubLoop_replace hgo hm hv, if_neg hanchor]
    exact ih visited'
  | case7 acc st hgo hm hanchor =>
    rw [gsubLoop_skip hgo hm, if_pos hanchor]
    exact ⟨_, rfl⟩
  | case8 acc st hgo hm hanchor ih =>
    rw [gsubLoop_skip hgo hm, if_neg hanchor]
    exact ih visited
  | case9 acc st hstop => exact ⟨_, gsubLoop_stop hstop⟩

/-- The calls of the function return. -/
def CallsReturn (machine : GsubHost σ) : Prop :=
  ∀ st f vals, ∃ val st', machine.callFunction st f vals = (.ok val, st')

theorem valToReplacement_within (host : StringHost) {pos : ℕ} {m : GMatch} (h : m.Within s pos) (val : LuaVal) :
    ∃ text, valToReplacement host s m val = .ok text := by
  have hcut := cut_eq_some (h.start_eq ▸ h.le_stop) h.stop_le
  rw [valToReplacement.eq_def]
  split
  · rw [hcut]
    exact ⟨_, rfl⟩
  · rw [hcut]
    exact ⟨_, rfl⟩
  · exact ⟨_, rfl⟩
  · exact ⟨_, rfl⟩

/-- For a match with values the function is called. -/
theorem visiting_function (hcalls : CallsReturn machine) {pos : ℕ} {m : GMatch} (hm : m.Within s pos)
    {vals : List MatchVal} (hvals : matchValues s m = .ok vals) (f : Gc.GcRef .closure) (st : σ)
    (visited : List GMatch) :
    ∃ text st', visiting s (getGsubReplacement host machine s (.function f)) (st, visited) m =
      (.ok text, st', visited ++ [m]) := by
  obtain ⟨val, st', hcall⟩ := hcalls st f vals
  obtain ⟨text, htext⟩ := valToReplacement_within host hm val
  refine ⟨text, st', ?_⟩
  have hr : getGsubReplacement host machine s (.function f) st m = (.ok text, st') := by
    change replaceBy host s m st (matchValues s m) (machine.callFunction st f) = _
    rw [hvals]
    simp only [Native.ok, replaceBy, hcall, htext]
  rw [visiting, hr, hvals]
  rfl

/-- Without values it is not. -/
theorem visiting_function_error {m : GMatch} {e : LuaError} (hvals : matchValues s m = .error e)
    (f : Gc.GcRef .closure) (st : σ) (visited : List GMatch) :
    visiting s (getGsubReplacement host machine s (.function f)) (st, visited) m = (.error e, st, visited) := by
  have hr : getGsubReplacement host machine s (.function f) st m = (.error e, st) := by
    change replaceBy host s m st (matchValues s m) (machine.callFunction st f) = _
    rw [hvals]
    rfl
  rw [visiting, hr, hvals]
  rfl

/-- Without an anchor the loop visits the matches that the iterator finds. -/
theorem gsubLoop_visits (hcalls : CallsReturn machine) {limit : ℕ} (hlimit : s.length < limit)
    (f : Gc.GcRef .closure) (acc : GsubAcc) (hcount : acc.count ≤ acc.pos) (st : σ) (visited : List GMatch) :
    (gsubLoop cc s pattern false limit (visiting s (getGsubReplacement host machine s (.function f))) acc
        (st, visited)).2.2 =
      visited ++ (gmatchAll cc s pattern false acc.pos).1 := by
  induction hn : s.length + 1 - acc.pos using Nat.strong_induction_on generalizing acc st visited with
  | _ n ih =>
  by_cases hpos : acc.pos ≤ s.length
  swap
  · have hnil : (gmatchAll cc s pattern false acc.pos).1 = [] :=
      gmatchAll_nil (fun ⟨m, hm⟩ => hpos hm.pos_le) fun h => absurd h hpos
    rw [gsubLoop_stop fun h => hpos h.2, hnil, List.append_nil]
  have hgo : acc.count < limit ∧ acc.pos ≤ s.length := ⟨by omega, hpos⟩
  have hw := matchAt_within cc pattern hpos
  rcases hm : matchAt cc s pattern acc.pos with _ | e | _ | m
  · exact absurd hm hw.ne_none
  · have hnil : (gmatchAll cc s pattern false acc.pos).1 = [] := by
      refine gmatchAll_nil (fun ⟨m, h⟩ => ?_) fun _ h => ?_
      · exact nomatch hm.symm.trans h.matchAt_eq
      · exact nomatch hm.symm.trans h
    rw [gsubLoop_error hgo hm, hnil, List.append_nil]
  · rw [gsubLoop_skip hgo hm, gmatchAll_skip hpos hm]
    exact ih _ (by change s.length + 1 - (acc.pos + 1) < n; omega) (acc.skip s) (by
      change acc.count ≤ acc.pos + 1
      omega) st visited rfl
  · have hwm := hw.of_ok hm m rfl
    rcases hv : matchValues s m with _ | e | vals
    · exact absurd hv (matchValues_within hwm).ne_none
    · have hnil : (gmatchAll cc s pattern false acc.pos).1 = [] := by
        refine gmatchAll_nil (fun ⟨m', h⟩ => ?_) fun _ h => ?_
        · cases hm.symm.trans h.matchAt_eq
          obtain ⟨vals, hvals⟩ := h.readable
          exact nomatch hv.symm.trans hvals
        · exact nomatch hm.symm.trans h
      rw [gsubLoop_replace_error hgo hm (visiting_function_error hv f st visited), hnil, List.append_nil]
    · obtain ⟨text, st', hr⟩ : ∃ text st', visiting s (getGsubReplacement host machine s (.function f)) (st, visited) m =
          (.ok text, st', visited ++ [m]) := visiting_function hcalls hwm hv f st visited
      have hnext := GsubAcc.pos_replace (s := s) hwm.start_eq text
      have hlt := hwm.lt_next
      have hcnt := acc.count_replace s m text
      rw [gsubLoop_replace hgo hm hr, gmatchAll_of_matchesAt ⟨hpos, hm, vals, hv⟩]
      refine (ih _ (by omega) (acc.replace s m text) (by omega) st' (visited ++ [m]) rfl).trans ?_
      rw [hnext, List.append_assoc]
      rfl

/-- With an anchor the loop visits the match at the start, if there is one. -/
theorem gsubLoop_visits_anchored (hcalls : CallsReturn machine) {limit : ℕ} (hlimit : 0 < limit)
    (f : Gc.GcRef .closure) (st : σ) {ms : List GMatch}
    (hms : ms = (gsubLoop cc s pattern true limit (visiting s (getGsubReplacement host machine s (.function f)))
      ⟨[], 0, 0⟩ (st, [])).2.2) :
    (∃ m, MatchesAt cc s pattern 0 m ∧ ms = [m]) ∨ ((¬ ∃ m, MatchesAt cc s pattern 0 m) ∧ ms = []) := by
  have hgo : GsubAcc.count ⟨[], 0, 0⟩ < limit ∧ GsubAcc.pos ⟨[], 0, 0⟩ ≤ s.length := ⟨hlimit, Nat.zero_le _⟩
  subst hms
  by_cases h : ∃ m, MatchesAt cc s pattern 0 m
  · obtain ⟨m, h⟩ := h
    obtain ⟨vals, hvals⟩ := h.readable
    obtain ⟨text, st', hr⟩ : ∃ text st', visiting s (getGsubReplacement host machine s (.function f)) (st, []) m =
        (.ok text, st', [] ++ [m]) := visiting_function hcalls h.within hvals f st []
    refine .inl ⟨m, h, ?_⟩
    rw [gsubLoop_replace hgo h.matchAt_eq hr]
    rfl
  · refine .inr ⟨h, ?_⟩
    have hw := matchAt_within cc pattern (Nat.zero_le s.length)
    rcases hm : matchAt cc s pattern 0 with _ | e | _ | m
    · exact absurd hm hw.ne_none
    · rw [gsubLoop_error hgo hm]
    · rw [gsubLoop_skip hgo hm]
      rfl
    · rcases hv : matchValues s m with _ | e | vals
      · exact absurd hv (matchValues_within (hw.of_ok hm m rfl)).ne_none
      · rw [gsubLoop_replace_error hgo hm (visiting_function_error hv f st [])]
      · exact absurd ⟨m, Nat.zero_le _, hm, vals, hv⟩ h

/-- The matches for which `string.gsub(s, pat, f)` calls the function. -/
def gsubVisits (host : StringHost) (machine : GsubHost σ) (cc : CharClasses) (s pat : List UInt8)
    (f : Gc.GcRef .closure) (st : σ) : List GMatch :=
  match gsubArgs host [.str s, .str pat, .function f] with
  | .error _ => []
  | .ok a => (gsub cc a (visiting a.s (getGsubReplacement host machine a.s a.repl)) (st, [])).2.2

theorem gsubVisits_eq (host : StringHost) (machine : GsubHost σ) (cc : CharClasses) (s pat : List UInt8)
    (f : Gc.GcRef .closure) (st : σ) :
    gsubVisits host machine cc s pat f st =
      (gsubLoop cc s (patternOf pat) (isAnchored pat) (2 ^ 63 - 1)
        (visiting s (getGsubReplacement host machine s (.function f))) ⟨[], 0, 0⟩ (st, [])).2.2 := by
  change (gsub cc ⟨s, pat, .function f, 2 ^ 63 - 1⟩ (visiting s (getGsubReplacement host machine s (.function f)))
    (st, [])).2.2 = _
  rw [gsub]
  split <;> next heq => rw [heq]

/-- A pattern without `^` gives the same matches in both functions. A pattern with `^` does so in exactly the cases
    where the iterator does not find a second match right behind the first one. -/
theorem gmatch_visits_iff (host : StringHost) {machine : GsubHost σ} (hcalls : CallsReturn machine) (cc : CharClasses)
    {s : List UInt8} (hs : s.length < 2 ^ 63 - 1) (pat : List UInt8) (f : Gc.GcRef .closure) (st : σ) :
    (strGmatchAll cc s pat).1 = gsubVisits host machine cc s pat f st ↔
      (isAnchored pat = true → ∀ m, MatchesAt cc s (patternOf pat) 0 m →
        ¬ ∃ m', MatchesAt cc s (patternOf pat) m.next m') := by
  rw [gsubVisits_eq, strGmatchAll]
  cases hanchor : isAnchored pat with
  | false =>
    rw [gsubLoop_visits hcalls hs f _ (Nat.le_refl 0) st []]
    simp
  | true =>
    have hskip {pos : ℕ} (h : ¬ ∃ m, MatchesAt cc s (patternOf pat) pos m) :
        (gmatchAll cc s (patternOf pat) true pos).1 = [] := gmatchAll_nil h fun _ _ => rfl
    rcases gsubLoop_visits_anchored hcalls (show 0 < 2 ^ 63 - 1 by decide) f st rfl with ⟨m, hm, hvisits⟩ | ⟨h, hvisits⟩
    · rw [hvisits, gmatchAll_of_matchesAt hm]
      constructor
      · rintro heq - m' hm' ⟨m₂, hm₂⟩
        cases hm.matchAt_eq.symm.trans hm'.matchAt_eq
        rw [gmatchAll_of_matchesAt hm₂] at heq
        cases heq
      · intro hnext
        rw [hskip (hnext rfl m hm)]
    · rw [hvisits, hskip h]
      exact ⟨fun _ _ m hm => absurd ⟨m, hm⟩ h, fun _ => rfl⟩

/-- `("aa"):gmatch("a")`. -/
theorem gmatch_visits_iff_aa :
    (strGmatchAll .ascii [97, 97] [97]).1 =
        gsubVisits ⟨fun _ => [], fun _ => none, fun _ => none, fun _ => none, fun _ => .ok true⟩
          (⟨fun st _ _ => (.ok .nil, st), fun st _ _ => (.ok .nil, st)⟩ : GsubHost Unit) .ascii [97, 97] [97] ⟨0, 0⟩ () ↔
      (isAnchored [97] = true → ∀ m, MatchesAt .ascii [97, 97] (patternOf [97]) 0 m →
        ¬ ∃ m', MatchesAt .ascii [97, 97] (patternOf [97]) m.next m') :=
  gmatch_visits_iff _ (fun st _ _ => ⟨.nil, st, rfl⟩) .ascii (by decide) [97] ⟨0, 0⟩ ()

theorem matchesAt_empty (cc : CharClasses) {pos : ℕ} (hpos : pos ≤ s.length) :
    MatchesAt cc s [] pos ⟨pos, pos, []⟩ where
  pos_le := hpos
  matchAt_eq := matchAt_empty cc s pos
  readable := by
    rw [matchValues, if_pos rfl, cut_eq_some (Nat.le_refl pos) hpos]
    exact ⟨_, rfl⟩

/-- `("a"):gmatch("^")` finds two matches, where `gsub` visits one. -/
theorem gmatch_visits_anchored_twice :
    (strGmatchAll .ascii [97] [94]).1 ≠
      gsubVisits ⟨fun _ => [], fun _ => none, fun _ => none, fun _ => none, fun _ => .ok true⟩
        (⟨fun st _ _ => (.ok .nil, st), fun st _ _ => (.ok .nil, st)⟩ : GsubHost Unit) .ascii [97] [94] ⟨0, 0⟩ () := by
  have h₀ : MatchesAt .ascii [97] [] 0 ⟨0, 0, []⟩ := matchesAt_empty .ascii (by decide)
  have h₁ : MatchesAt .ascii [97] [] 1 ⟨1, 1, []⟩ := matchesAt_empty .ascii (by decide)
  have hcalls : CallsReturn (⟨fun st _ _ => (.ok .nil, st), fun st _ _ => (.ok .nil, st)⟩ : GsubHost Unit) :=
    fun st _ _ => ⟨.nil, st, rfl⟩
  have htwo : (strGmatchAll .ascii [97] [94]).1 =
      ⟨0, 0, []⟩ :: ⟨1, 1, []⟩ :: (gmatchAll .ascii [97] [] true 2).1 :=
    (gmatchAll_of_matchesAt h₀).trans (congrArg (_ :: ·) (gmatchAll_of_matchesAt h₁))
  rw [gsubVisits_eq, htwo]
  intro heq
  rcases gsubLoop_visits_anchored hcalls (show 0 < 2 ^ 63 - 1 by decide) ⟨0, 0⟩ () rfl with ⟨m, -, hv⟩ | ⟨-, hv⟩
  · exact nomatch heq.trans hv
  · exact nomatch heq.trans hv

end Visits

end Rilua.Stdlib
