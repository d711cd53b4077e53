import Rilua.Stdlib.Traceback

/-! What the two ways to make a traceback list. Both show the levels from the start level on and leave out those between
    a first part and the last ten, but their first parts end at different levels. -/

namespace Rilua.Debug

open Vm

/-- The levels from `s` on, with the mark in place of those from `k` on that are not among the last ten. -/
def elide (levels : List StackLevel) (s k : ℕ) : List (Option StackLevel) :=
  if k + levels2 < levels.length then
    ((levels.drop s).take (k - s)).map some ++ none :: (levels.drop (levels.length - levels2)).map some
  else (levels.drop s).map some

namespace TracebackContext

/-- The line of an entry of a listing. -/
def lineOf (objName : Resolver) (t : TracebackContext) : Option StackLevel → Option String
  | none => some dots
  | some level => t.levelLine objName level

/-- The lines of a listing. -/
def linesOf (objName : Resolver) (t : TracebackContext) (listing : List (Option StackLevel)) : Option (List String) :=
  listing.mapM (t.lineOf objName)

theorem linesOf_cons (objName : Resolver) (t : TracebackContext) (entry : Option StackLevel)
    (listing : List (Option StackLevel)) :
    t.linesOf objName (entry :: listing) =
      (t.lineOf objName entry).bind fun line => (t.linesOf objName listing).map (line :: ·) := by
  rw [linesOf, List.mapM_cons]
  cases t.lineOf objName entry <;> simp [linesOf, Option.map_eq_bind]

theorem linesOf_append (objName : Resolver) (t : TracebackContext) (listing listing' : List (Option StackLevel)) :
    t.linesOf objName (listing ++ listing') =
      (t.linesOf objName listing).bind fun lines => (t.linesOf objName listing').map (lines ++ ·) := by
  rw [linesOf, List.mapM_append]
  simp [linesOf, Option.map_eq_bind]

/-! ### The general path -/

theorem probeEnd_eq (t : CallStack) : ∀ (n probe : ℕ), probe + n = t.levels.length →
    t.probeEnd probe = some t.levels.length := by
  have hlen := t.length_levels_lt
  intro n
  induction n with
  | zero =>
    intro probe hprobe
    rw [probeEnd, t.resolve_of_le (by omega) (by rw [i64Limit]; omega)]
    exact congrArg some hprobe
  | succ n ih =>
    intro probe hprobe
    rw [probeEnd, t.resolve_of_lt (by omega)]
    simp only
    rw [if_pos (by omega), ih (probe + 1) (by omega)]

/-- Behind the first part, every level is listed. -/
theorem levelLoop_false (objName : Resolver) (t : CallStack) : ∀ (n level : ℕ), level + n = t.levels.length →
    t.levelLoop objName level false = t.linesOf objName ((t.levels.drop level).map some) := by
  have hlen := t.length_levels_lt
  intro n
  induction n with
  | zero =>
    intro level hlevel
    rw [levelLoop_end (t.resolve_of_le (by omega) (by rw [i64Limit]; omega)), List.drop_eq_nil_of_le (by omega)]
    rfl
  | succ n ih =>
    intro level hlevel
    have hlt : level < t.levels.length := by omega
    have hnext : addLevel level 1 = some (level + 1) := if_pos (by omega)
    rw [levelLoop_level (t.resolve_of_lt hlt), List.drop_eq_getElem_cons hlt, List.map_cons, linesOf_cons, lineOf,
      ← ih (level + 1) (by omega)]
    simp only [levelTurn, skipTo_false, hnext, Option.bind_eq_bind, Option.bind_some, Bool.false_and]
    cases t.levelLine objName t.levels[level] <;> rfl

/-- Behind the levels the loop ends at once. -/
theorem levelLoop_of_le (objName : Resolver) (t : CallStack) {level k : ℕ} (hge : t.levels.length ≤ level)
    (hlimit : level < i64Limit) (hk : level ≤ k) (firstPart : Bool) :
    t.levelLoop objName level firstPart = t.linesOf objName (elide t.levels level k) := by
  rw [levelLoop_end (t.resolve_of_le hge hlimit), elide, if_neg (by omega), List.drop_eq_nil_of_le hge]
  rfl

/-- At the end of the first part, the mark takes the place of all but the last levels. -/
theorem levelLoop_skip (objName : Resolver) (t : CallStack) {level : ℕ} (hlevel : levels1 < level)
    (hlimit : level < i64Limit) : t.levelLoop objName level true = t.linesOf objName (elide t.levels level level) := by
  have hlen := t.length_levels_lt
  rcases lt_or_ge level t.levels.length with hlt | hge
  · have hprobe : addLevel level levels2 = some (level + levels2) := if_pos (by rw [levels2]; omega)
    have hnext : addLevel level 1 = some (level + 1) := if_pos (by omega)
    rw [levelLoop_level (t.resolve_of_lt hlt), elide]
    rcases lt_or_ge (level + levels2) t.levels.length with hmore | hfew
    · have hskip : t.skipTo level true = some (some (t.levels.length - levels2)) := by
        simp [skipTo, hlevel, hprobe, t.resolve_of_lt hmore,
          probeEnd_eq t (t.levels.length - (level + levels2)) (level + levels2) (by omega)]
      rw [if_pos hmore, Nat.sub_self, List.take_zero, List.map_nil, List.nil_append, linesOf_cons,
        ← levelLoop_false objName t levels2 (t.levels.length - levels2) (by omega)]
      simp [levelTurn, hskip, lineOf]
    · have hskip : t.skipTo level true = some none := by
        simp [skipTo, hlevel, hprobe, t.resolve_of_le hfew (by rw [i64Limit, levels2]; omega)]
      rw [if_neg (by omega), List.drop_eq_getElem_cons hlt, List.map_cons, linesOf_cons, lineOf,
        ← levelLoop_false objName t (t.levels.length - (level + 1)) (level + 1) (by omega)]
      simp only [levelTurn, hskip, hnext, Option.bind_eq_bind, Option.bind_some, Bool.true_and,
        decide_eq_false (not_le.mpr hlevel)]
      cases t.levelLine objName t.levels[level] <;> rfl
  · exact levelLoop_of_le objName t hge hlimit le_rfl true

theorem elide_succ {levels : List StackLevel} {s k : ℕ} (hs : s < levels.length) (hk : s < k) :
    elide levels s k = some levels[s] :: elide levels (s + 1) k := by
  obtain ⟨m, rfl⟩ := Nat.exists_eq_add_of_lt hk
  rw [elide, elide, List.drop_eq_getElem_cons hs]
  have hm : s + m + 1 - s = m + 1 := by omega
  have hm' : s + m + 1 - (s + 1) = m := by omega
  split_ifs
  · rw [hm, hm', List.take_succ_cons, List.map_cons, List.cons_append]
  · rw [List.map_cons]

/-- In its first part, the loop shows every level. -/
theorem levelLoop_first (objName : Resolver) (t : CallStack) : ∀ (n level : ℕ), level + n = levels1 + 1 →
    t.levelLoop objName level true = t.linesOf objName (elide t.levels level (levels1 + 1)) := by
  intro n
  induction n with
  | zero =>
    rintro level rfl
    exact levelLoop_skip objName t (by omega) (by rw [i64Limit, levels1]; omega)
  | succ n ih =>
    intro level hlevel
    have hsmall : level ≤ 12 := by rw [levels1] at hlevel; omega
    rcases lt_or_ge level t.levels.length with hlt | hge
    · have hskip : t.skipTo level true = some none := by simp [skipTo, show ¬ levels1 < level by omega]
      have hnext : addLevel level 1 = some (level + 1) := if_pos (by omega)
      rw [levelLoop_level (t.resolve_of_lt hlt), elide_succ hlt (by omega), linesOf_cons, lineOf,
        ← ih (level + 1) (by omega)]
      simp only [levelTurn, hskip, hnext, Option.bind_eq_bind, Option.bind_some, Bool.true_and,
        decide_eq_true (show level ≤ levels1 by omega)]
      cases t.levelLine objName t.levels[level] <;> rfl
    · exact levelLoop_of_le objName t hge (by rw [i64Limit]; omega) (by omega) true

/-- The general path shows the levels up to 12, or leaves some out at once if it starts behind them. -/
theorem appendTracebackWithTailCalls_eq (objName : Resolver) (t : CallStack) {s : ℕ} (hs : s < i64Limit) :
    t.appendTracebackWithTailCalls objName s =
      t.linesOf objName (elide t.levels s (max s (levels1 + 1))) := by
  rw [appendTracebackWithTailCalls]
  rcases le_or_gt s levels1 with hle | hgt
  · rw [max_eq_right (by omega)]
    exact levelLoop_first objName t (levels1 + 1 - s) s (by omega)
  · rw [max_eq_left (by omega)]
    exact levelLoop_skip objName t hgt hs

/-! ### The fast path -/

theorem levelsUpTo_of_noTailCalls {callStack : List Frame} : ∀ {ci : ℕ},
    (∀ frame ∈ callStack.take (ci + 1), frame.tailCalls = 0) →
    levelsUpTo callStack ci = (List.range ci).map fun offset => .real (ci - offset) := by
  intro ci
  induction ci with
  | zero => intro _; rfl
  | succ ci ih =>
    intro hnone
    have helided : elided callStack (ci + 1) = 0 := by
      rw [elided]
      cases hframe : callStack[ci + 1]? with
      | none => rfl
      | some frame =>
        have hmem : frame ∈ callStack.take (ci + 1 + 1) :=
          List.mem_of_getElem? (i := ci + 1) (by rw [List.getElem?_take, if_pos (by omega), hframe])
        simp [hnone frame hmem]
    have hsub : ∀ frame ∈ callStack.take (ci + 1), frame.tailCalls = 0 := fun frame hframe =>
      hnone frame (List.take_subset_take_left _ (by omega) hframe)
    rw [levelsUpTo, helided, ih hsub, List.range_succ_eq_map, List.map_cons, List.map_map]
    simp [Function.comp_def]

/-- Without tail calls, the level of an offset is the frame at that offset. -/
theorem levels_of_noTailCalls (t : CallStack) (hnone : t.hasNoTailCalls) :
    t.levels = (List.range t.countFramesWithoutTailCalls).map fun offset => .real (t.ci - offset) := by
  have hframes : ∀ frame ∈ t.callStack.take (t.ci + 1), frame.tailCalls = 0 := by
    simpa [hasNoTailCalls, t.ci_lt] using hnone
  rw [levels, levelsUpTo_of_noTailCalls hframes, countFramesWithoutTailCalls]
  cases t.hasMainThreadSentinel with
  | false => simp
  | true => simp [List.range_succ]

theorem length_levels_of_noTailCalls (t : CallStack) (hnone : t.hasNoTailCalls) :
    t.levels.length = t.countFramesWithoutTailCalls := by
  rw [levels_of_noTailCalls t hnone, List.length_map, List.length_range]

theorem appendTracebackFrameRange_eq (objName : Resolver) (t : CallStack) (hnone : t.hasNoTailCalls) {start len : ℕ}
    (h : start + len ≤ t.levels.length) :
    t.appendTracebackFrameRange objName start len =
      t.linesOf objName (((t.levels.drop start).take len).map some) := by
  have hrange : List.range' start len = ((List.range t.levels.length).drop start).take len := by
    apply List.ext_getElem
    · simp; omega
    · intro i hi hi'
      simp
  rw [appendTracebackFrameRange, hrange, linesOf]
  conv_rhs => rw [levels_of_noTailCalls t hnone]
  rw [length_levels_of_noTailCalls t hnone, ← List.map_drop, ← List.map_take, List.map_map, List.mapM_map]
  rfl

/-- The fast path shows twelve levels. -/
theorem appendTracebackWithoutTailCalls_eq (objName : Resolver) (t : CallStack) (hnone : t.hasNoTailCalls) (s : ℕ) :
    t.appendTracebackWithoutTailCalls objName s = t.linesOf objName (elide t.levels s (s + levels1)) := by
  have hlen := length_levels_of_noTailCalls t hnone
  rw [appendTracebackWithoutTailCalls, elide]
  rcases le_or_gt t.countFramesWithoutTailCalls s with hle | hgt
  · rw [if_pos hle, if_neg (by omega), List.drop_eq_nil_of_le (by omega)]
    rfl
  · rw [if_neg (by omega)]
    rcases lt_or_ge (levels1 + levels2) (t.countFramesWithoutTailCalls - s) with hsplit | hall
    · have hskipped : t.countFramesWithoutTailCalls - s - (levels1 + levels2) ≠ 0 := by omega
      have hlast : (t.levels.drop (t.levels.length - levels2)).take levels2 =
          t.levels.drop (t.levels.length - levels2) := List.take_of_length_le (by simp; omega)
      simp only [if_pos hsplit, if_neg hskipped]
      rw [if_pos (by omega), appendTracebackFrameRange_eq objName t hnone (by omega), ← hlen,
        appendTracebackFrameRange_eq objName t hnone (by omega), hlast, Nat.add_sub_cancel_left, linesOf_append,
        linesOf_cons]
      simp [lineOf, Option.map_eq_bind, Option.bind_assoc]
    · have hskipped : t.countFramesWithoutTailCalls - s - (t.countFramesWithoutTailCalls - s + levels2) = 0 := by
        omega
      simp only [if_neg (not_lt.mpr hall), hskipped, if_true]
      rw [if_neg (by omega), appendTracebackFrameRange_eq objName t hnone (by omega),
        List.take_of_length_le (by simp; omega)]
      simp

/-! ### Telling listings apart -/

/-- A resolver that finds no names. -/
def noNames : Resolver := fun _ _ _ => some none

theorem formatFrameLine_ne_dots {objName : Resolver} {t : TracebackContext} {ciIdx : ℕ} {line : String}
    (h : t.formatFrameLine objName ciIdx = some line) : line ≠ dots := by
  have hcolon : ':' ∈ line.toList := by
    simp only [formatFrameLine, Option.bind_eq_bind, Option.bind_eq_some_iff] at h
    obtain ⟨ci, -, funcName, -, h⟩ := h
    split at h <;> cases h
    · simp
    · simp
    · decide
  rintro rfl
  exact absurd hcolon (by decide)

theorem formatFrameLine_isSome {t : TracebackContext} {ciIdx : ℕ} (h : ciIdx < t.callStack.length) :
    (t.formatFrameLine noNames ciIdx).isSome := by
  have hname : (t.getfuncnameRaw noNames ciIdx).isSome := by
    rw [getfuncnameRaw]
    split
    · rfl
    · simp only [List.getElem?_eq_getElem h, List.getElem?_eq_getElem (show ciIdx - 1 < t.callStack.length by omega),
        Option.bind_eq_bind, Option.bind_some, noNames]
      grind
  obtain ⟨name, hname⟩ := Option.isSome_iff_exists.mp hname
  rw [formatFrameLine, hname, List.getElem?_eq_getElem h]
  simp only [Option.bind_eq_bind, Option.bind_some]
  split <;> rfl

theorem mem_levelsUpTo {callStack : List Frame} {ci idx : ℕ} (h : .real idx ∈ levelsUpTo callStack ci) : idx ≤ ci := by
  induction ci with
  | zero => simp [levelsUpTo] at h
  | succ ci ih =>
    simp only [levelsUpTo, List.mem_cons, StackLevel.real.injEq, List.mem_append, List.mem_replicate, reduceCtorEq,
      and_false, false_or] at h
    rcases h with rfl | h
    · exact le_rfl
    · exact (ih h).trans (Nat.le_succ ci)

theorem mem_levels {t : TracebackContext} {idx : ℕ} (h : .real idx ∈ t.levels) : idx ≤ t.ci := by
  rw [levels, List.mem_append] at h
  rcases h with h | h
  · exact mem_levelsUpTo h
  · split_ifs at h
    · simp_all
    · simp at h

/-- Where names are found, each level has a line, and none of them is the mark. -/
theorem lineOf_noNames (t : CallStack) {entry : Option StackLevel}
    (h : ∀ level, entry = some level → level ∈ t.levels) :
    ∃ line, t.lineOf noNames entry = some line ∧ (line = dots ↔ entry = none) := by
  rcases entry with _ | level
  · exact ⟨dots, rfl, by simp⟩
  · rcases level with ci | _
    · have hci := mem_levels (h _ rfl)
      have hlt := t.ci_lt
      obtain ⟨line, hline⟩ := Option.isSome_iff_exists.mp
        (@formatFrameLine_isSome t.toTracebackContext ci (by omega))
      exact ⟨line, hline, by simp [formatFrameLine_ne_dots hline]⟩
    · exact ⟨_, rfl, by decide⟩

/-- The lines of a listing show where its marks are. -/
theorem marks_linesOf (t : CallStack) : ∀ {listing : List (Option StackLevel)},
    (∀ level, some level ∈ listing → level ∈ t.levels) →
    (t.linesOf noNames listing).map (List.map fun line => decide (line = dots)) = some (listing.map Option.isNone) := by
  intro listing
  induction listing with
  | nil => intro _; rfl
  | cons entry listing ih =>
    intro h
    obtain ⟨line, hline, hdots⟩ := @lineOf_noNames t entry fun level hlevel => h level (by simp [hlevel])
    have hrest := ih fun level hlevel => h level (List.mem_cons_of_mem _ hlevel)
    obtain ⟨lines, hlines, hmarks⟩ := Option.map_eq_some_iff.mp hrest
    have hmark : decide (line = dots) = entry.isNone := by
      rw [decide_eq_decide.mpr hdots]
      cases entry <;> rfl
    rw [linesOf_cons, hline, hlines]
    simp [hmarks, hmark]

theorem mem_elide {levels : List StackLevel} {s k : ℕ} {level : StackLevel} (h : some level ∈ elide levels s k) :
    level ∈ levels := by
  rw [elide] at h
  split_ifs at h
  · simp only [List.mem_append, List.mem_map, List.mem_cons, reduceCtorEq, false_or, Option.some.injEq,
      exists_eq_right] at h
    rcases h with h | h
    · exact List.mem_of_mem_drop (List.mem_of_mem_take h)
    · exact List.mem_of_mem_drop h
  · simp only [List.mem_map, Option.some.injEq, exists_eq_right] at h
    exact List.mem_of_mem_drop h

theorem isNone_elide (levels : List StackLevel) {s k : ℕ} (hs : s ≤ k) :
    (elide levels s k).map Option.isNone =
      if k + levels2 < levels.length then List.replicate (k - s) false ++ true :: List.replicate levels2 false
      else List.replicate (levels.length - s) false := by
  have hmap : ∀ l : List StackLevel, (l.map some).map Option.isNone = List.replicate l.length false := by
    intro l
    rw [List.map_map, List.eq_replicate_iff]
    simp
  rw [elide]
  split_ifs with h
  · rw [List.map_append, List.map_cons, hmap, hmap, List.length_take, List.length_drop, List.length_drop,
      min_eq_left (by omega), Nat.sub_sub_self (by omega)]
    rfl
  · rw [hmap, List.length_drop]

/-- Listings that leave out from different levels on are different, unless neither leaves anything out. -/
theorem elide_agree_iff (levels : List StackLevel) {s k k' : ℕ} (hs : s ≤ k) (hs' : s ≤ k') :
    (elide levels s k).map Option.isNone = (elide levels s k').map Option.isNone ↔
      k = k' ∨ levels.length ≤ min k k' + levels2 := by
  rw [isNone_elide levels hs, isNone_elide levels hs']
  constructor
  · intro h
    split_ifs at h with hk hk' hk'
    · have hlen := congrArg List.length h
      simp at hlen
      omega
    · have hmem : true ∈ List.replicate (levels.length - s) false := h ▸ by simp
      simp at hmem
    · have hmem : true ∈ List.replicate (levels.length - s) false := h ▸ by simp
      simp at hmem
    · omega
  · rintro (rfl | h)
    · rfl
    · rw [if_neg (by omega), if_neg (by omega)]

/-! ### Start levels from 2^63 on -/

theorem probeEnd_huge (t : TracebackContext) : ∀ (n probe : ℕ), probe + n = 2 ^ 64 - 1 → i64Limit ≤ probe →
    t.probeEnd probe = none := by
  intro n
  induction n with
  | zero =>
    intro probe hprobe hhuge
    rw [probeEnd, t.resolveStackLevelRaw_huge hhuge (by omega)]
    simp only
    rw [if_neg (by omega)]
  | succ n ih =>
    intro probe hprobe hhuge
    rw [probeEnd, t.resolveStackLevelRaw_huge hhuge (by omega)]
    simp only
    rw [if_pos (by omega), ih (probe + 1) (by omega) (by omega)]

/-- The general path looks for the last of endlessly many levels. -/
theorem appendTracebackWithTailCalls_huge (objName : Resolver) (t : TracebackContext) {s : ℕ} (hs : i64Limit ≤ s)
    (hlt : s < 2 ^ 64) : t.appendTracebackWithTailCalls objName s = none := by
  have hfirst : levels1 < s := lt_of_lt_of_le (by decide) hs
  have hskip : t.skipTo s true = none := by
    rw [skipTo, if_pos ⟨hfirst, rfl⟩, addLevel]
    split_ifs with hprobe
    · simp [t.resolveStackLevelRaw_huge (show i64Limit ≤ s + levels2 by omega) hprobe,
        t.probeEnd_huge (2 ^ 64 - 1 - (s + levels2)) (s + levels2) (by omega) (by omega)]
    · rfl
  rw [appendTracebackWithTailCalls, levelLoop_level (t.resolveStackLevelRaw_huge hs hlt), levelTurn, hskip]
  rfl

/-! ### The two paths -/

/-- The two paths make the same lines, whatever names the functions have. -/
def PathsAgree (t : TracebackContext) (startLevel : ℕ) : Prop :=
  ∀ objName, t.appendTracebackWithoutTailCalls objName startLevel = t.appendTracebackWithTailCalls objName startLevel

theorem pathsAgree_iff (t : CallStack) (hnone : t.hasNoTailCalls) {s : ℕ} (hlt : s < 2 ^ 64) :
    t.PathsAgree s ↔ s < i64Limit ∧
      (s = 1 ∨ t.levels.length ≤ min (s + levels1) (max s (levels1 + 1)) + levels2) := by
  have hmarks : ∀ k, (t.linesOf noNames (elide t.levels s k)).map (List.map fun line => decide (line = dots)) =
      some ((elide t.levels s k).map Option.isNone) := fun k => marks_linesOf t fun _ => mem_elide
  constructor
  · intro hagree
    have hnames := hagree noNames
    rw [appendTracebackWithoutTailCalls_eq noNames t hnone] at hnames
    have hs : s < i64Limit := by
      by_contra hhuge
      rw [appendTracebackWithTailCalls_huge noNames t.toTracebackContext (not_lt.mp hhuge) hlt] at hnames
      have hfast := hmarks (s + levels1)
      simp [hnames] at hfast
    rw [appendTracebackWithTailCalls_eq noNames t hs] at hnames
    have hsame := (hmarks _).symm.trans ((congrArg _ hnames).trans (hmarks _))
    have hlisting := (elide_agree_iff t.levels (by omega) (by omega)).mp (Option.some.inj hsame)
    rw [levels1] at hlisting ⊢
    omega
  · rintro ⟨hs, hcases⟩ objName
    rw [appendTracebackWithoutTailCalls_eq objName t hnone, appendTracebackWithTailCalls_eq objName t hs]
    rcases hcases with rfl | hshort
    · rfl
    · rw [elide, elide, if_neg (by omega), if_neg (by omega)]

/-- The levels from `s` on are listed in order, each of them once, with the mark in place of those left out. -/
def Lists (levels : List StackLevel) (s : ℕ) (first skipped last : List StackLevel)
    (listing : List (Option StackLevel)) : Prop :=
  levels.drop s = first ++ skipped ++ last ∧
    listing = first.map some ++ (if skipped = [] then [] else [none]) ++ last.map some

theorem lists_elide (levels : List StackLevel) {s k : ℕ} (hs : s ≤ k) : ∃ first skipped last,
    Lists levels s first skipped last (elide levels s k) ∧
      (skipped ≠ [] → k + levels2 < levels.length ∧ first.length = k - s ∧ last.length = levels2) := by
  rw [elide]
  split_ifs with h
  · refine ⟨(levels.drop s).take (k - s), (levels.drop k).take (levels.length - levels2 - k),
      levels.drop (levels.length - levels2), ⟨?_, ?_⟩, fun _ => ⟨h, by simp; omega, by simp; omega⟩⟩
    · have hrest : (levels.drop k).take (levels.length - levels2 - k) ++ levels.drop (levels.length - levels2) =
          levels.drop k := by
        conv_rhs => rw [← List.take_append_drop (levels.length - levels2 - k) (levels.drop k), List.drop_drop,
          show k + (levels.length - levels2 - k) = levels.length - levels2 by omega]
      have hdrop : levels.drop k = (levels.drop s).drop (k - s) := by
        rw [List.drop_drop, Nat.add_sub_cancel' hs]
      rw [List.append_assoc, hrest, hdrop, List.take_append_drop]
    · have hskipped : (levels.drop k).take (levels.length - levels2 - k) ≠ [] := by
        apply List.ne_nil_of_length_pos
        rw [List.length_take, List.length_drop]
        omega
      rw [if_neg hskipped]
      simp
  · exact ⟨levels.drop s, [], [], ⟨by simp, by simp⟩, fun h => absurd rfl h⟩

theorem Lists.mem {levels first skipped last : List StackLevel} {s : ℕ} {listing : List (Option StackLevel)}
    (h : Lists levels s first skipped last listing) {level : StackLevel} (hlevel : some level ∈ listing) :
    level ∈ levels := by
  obtain ⟨hdrop, rfl⟩ := h
  have hmem : level ∈ first ∨ level ∈ last := by
    split_ifs at hlevel <;> simpa using hlevel
  have hrest : level ∈ levels.drop s := by
    rw [hdrop, List.mem_append, List.mem_append]
    tauto
  exact List.mem_of_mem_drop hrest

/-- The general path shows the levels from the start level on, each once and innermost first, up to those that the mark
    stands for. -/
def ListsLevels (t : TracebackContext) (startLevel : ℕ) : Prop :=
  ∀ objName, ∃ first skipped last listing, Lists t.levels startLevel first skipped last listing ∧
    t.appendTracebackWithTailCalls objName startLevel = t.linesOf objName listing

/-- Moreover, there are levels shown on both sides of those left out. -/
def LeavesOutMiddle (t : TracebackContext) (startLevel : ℕ) : Prop :=
  ∀ objName, ∃ first skipped last listing, Lists t.levels startLevel first skipped last listing ∧
    t.appendTracebackWithTailCalls objName startLevel = t.linesOf objName listing ∧
    (skipped ≠ [] → first ≠ [] ∧ last ≠ [])

theorem listsLevels_iff (t : CallStack) {s : ℕ} (hlt : s < 2 ^ 64) : t.ListsLevels s ↔ s < i64Limit := by
  constructor
  · intro h
    by_contra hhuge
    obtain ⟨first, skipped, last, listing, hlists, hlines⟩ := h noNames
    have hmarks := marks_linesOf t fun _ => hlists.mem
    rw [← hlines, appendTracebackWithTailCalls_huge noNames t.toTracebackContext (not_lt.mp hhuge) hlt] at hmarks
    simp at hmarks
  · intro hs objName
    obtain ⟨first, skipped, last, hlists, -⟩ := lists_elide t.levels (le_max_left s (levels1 + 1))
    exact ⟨first, skipped, last, _, hlists, appendTracebackWithTailCalls_eq objName t hs⟩

theorem leavesOutMiddle_iff (t : CallStack) {s : ℕ} (hlt : s < 2 ^ 64) :
    t.LeavesOutMiddle s ↔ s < i64Limit ∧ (s ≤ levels1 ∨ t.levels.length ≤ s + levels2) := by
  constructor
  · intro h
    have hs : s < i64Limit := (listsLevels_iff t hlt).mp fun objName => by
      obtain ⟨first, skipped, last, listing, hlists, hlines, -⟩ := h objName
      exact ⟨first, skipped, last, listing, hlists, hlines⟩
    refine ⟨hs, ?_⟩
    by_contra hcases
    -- the mark comes first
    obtain ⟨first, skipped, last, listing, hlists, hlines, hmiddle⟩ := h noNames
    rw [appendTracebackWithTailCalls_eq noNames t hs, max_eq_left (by omega)] at hlines
    have hsame := (marks_linesOf t fun _ => mem_elide).symm.trans
      ((congrArg _ hlines).trans (marks_linesOf t fun _ => hlists.mem))
    rw [Option.some.injEq, isNone_elide t.levels le_rfl, if_pos (by omega), Nat.sub_self] at hsame
    obtain ⟨hdrop, rfl⟩ := hlists
    rcases first with _ | ⟨level, first⟩
    · rcases skipped with _ | ⟨level, skipped⟩
      · rcases last with _ | ⟨level, last⟩
        · simp at hsame
        · simp at hsame
      · exact absurd rfl (hmiddle (by simp)).1
    · simp at hsame
  · rintro ⟨hs, hcases⟩ objName
    obtain ⟨first, skipped, last, hlists, hlengths⟩ := lists_elide t.levels (le_max_left s (levels1 + 1))
    refine ⟨first, skipped, last, _, hlists, appendTracebackWithTailCalls_eq objName t hs, fun hskipped => ?_⟩
    obtain ⟨hlen, hfirst, hlast⟩ := hlengths hskipped
    exact ⟨List.ne_nil_of_length_pos (by omega), List.ne_nil_of_length_pos (by rw [hlast]; decide)⟩

/-! ### The levels themselves -/

theorem count_levelsUpTo (callStack : List Frame) (ci idx : ℕ) :
    (levelsUpTo callStack ci).count (.real idx) = if 0 < idx ∧ idx ≤ ci then 1 else 0 := by
  induction ci with
  | zero => simp [levelsUpTo, Nat.pos_iff_ne_zero]
  | succ ci ih =>
    rw [levelsUpTo, List.count_cons, List.count_append, ih, List.count_replicate]
    simp only [beq_iff_eq, StackLevel.real.injEq, reduceCtorEq, if_false, Nat.zero_add]
    split_ifs <;> omega

/-- Each frame is one of the levels, the bottom one only without a function. -/
theorem count_real_levels (t : TracebackContext) (idx : ℕ) :
    t.levels.count (.real idx) =
      if (0 < idx ∧ idx ≤ t.ci) ∨ (idx = 0 ∧ t.hasMainThreadSentinel) then 1 else 0 := by
  rw [levels, List.count_append, count_levelsUpTo]
  rcases Nat.eq_zero_or_pos idx with rfl | hpos
  · cases t.hasMainThreadSentinel <;> simp
  · have hne : idx ≠ 0 := hpos.ne'
    cases t.hasMainThreadSentinel <;> simp [hpos, hne, hne.symm]

/-- There are as many tail calls among the levels as the frames have elided. -/
theorem count_tailCall_levels (t : TracebackContext) :
    t.levels.count .tailCall = ((List.range t.ci).map fun i => elided t.callStack (i + 1)).sum := by
  have hupTo : ∀ ci, (levelsUpTo t.callStack ci).count .tailCall =
      ((List.range ci).map fun i => elided t.callStack (i + 1)).sum := by
    intro ci
    induction ci with
    | zero => rfl
    | succ ci ih =>
      rw [levelsUpTo, List.count_cons, List.count_append, ih, List.count_replicate, List.range_succ, List.map_append,
        List.sum_append]
      simp [add_comm]
  rw [levels, List.count_append, hupTo]
  split_ifs <;> simp

end TracebackContext

/-- When the two paths make the same traceback, when the general path shows every level, and when what it leaves out is
    a middle part. -/
theorem traceback_paths (t : CallStack) (startLevel : BitVec 64) :
    (t.hasNoTailCalls → (t.PathsAgree startLevel.toNat ↔ startLevel.toNat < i64Limit ∧
      (startLevel.toNat = 1 ∨
        t.levels.length ≤ min (startLevel.toNat + levels1) (max startLevel.toNat (levels1 + 1)) + levels2))) ∧
    (t.ListsLevels startLevel.toNat ↔ startLevel.toNat < i64Limit) ∧
    (t.LeavesOutMiddle startLevel.toNat ↔ startLevel.toNat < i64Limit ∧
      (startLevel.toNat ≤ levels1 ∨ t.levels.length ≤ startLevel.toNat + levels2)) :=
  ⟨fun hnone => TracebackContext.pathsAgree_iff t hnone startLevel.isLt,
    TracebackContext.listsLevels_iff t startLevel.isLt, TracebackContext.leavesOutMiddle_iff t startLevel.isLt⟩

/-- The main thread inside 22 nested calls of native functions. -/
def nestedCalls : CallStack where
  stack := [.nil]
  callStack := List.replicate 23 { CallInfo.initial with }
  ci := 22
  closures _ := none
  ci_lt := by decide
  ci_lt_max := by decide

/-- From level 0 on, the fast path leaves one of 23 levels out, and the general path shows them all. -/
theorem not_traceback_paths : nestedCalls.hasNoTailCalls ∧ ¬ nestedCalls.PathsAgree 0 := by
  have hnone : nestedCalls.hasNoTailCalls := by decide
  refine ⟨hnone, fun hagree => ?_⟩
  obtain ⟨-, hcases⟩ := (TracebackContext.pathsAgree_iff nestedCalls hnone (by decide)).mp hagree
  rw [TracebackContext.length_levels_of_noTailCalls nestedCalls hnone] at hcases
  exact absurd hcases (by decide)

end Rilua.Debug
