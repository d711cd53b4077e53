import Rilua.Vm.Gc.Alive

/-! A cycle of the collector, step by step. Between the cycles every object has the current white. In the mark phase the
    tri-colour invariant holds, and the roots that no instruction changes have been marked; while the heap is swept, what
    lies before the cursor is at rest again. -/

namespace Rilua.Vm

open Lib Gc

namespace Gc

variable {P : ObjRef → Prop} {g g' : Gc} {o : ObjRef} {rank pos : ℕ}

/-- The place of an arena in the order of the sweep. -/
def sweepRank : ObjKind → ℕ
  | .string => 0
  | .table => 1
  | .closure => 2
  | .upvalue => 3
  | .userdata => 4
  | .thread => 5

/-- The colours between two cycles: the current white, and black for strings that have been cached in the middle of a
    cycle. -/
def Rested (g : Gc) (o : ObjRef) (x : Cell (Obj o.kind)) : Prop :=
  x.color = g.currentWhite ∨ x.color = .black ∧ o.kind = .string ∧ o ∈ g.rootRefs

/-- The sweep has come to slot `pos` of the arena `rank`, and what it has passed is at rest. -/
def SweptTo (g : Gc) (rank pos : ℕ) : Prop :=
  ∀ o x, g.heap.cell o = some x → sweepRank o.kind < rank ∨ sweepRank o.kind = rank ∧ o.ref.index < pos → g.Rested o x

/-- Every object is at rest. -/
def Resting (g : Gc) : Prop := ∀ o x, g.heap.cell o = some x → g.Rested o x

theorem sweptTo_zero (g : Gc) : g.SweptTo 0 0 := fun o x _ hb => by omega

/-- Where the last arena has been swept, everything is at rest. -/
theorem SweptTo.resting (h : g.SweptTo 6 0) : g.Resting := fun o x hx => h o x hx (.inl (by
  cases o.kind <;> simp [sweepRank]))

theorem index_lt {x : Cell (Obj o.kind)} (hx : g.heap.cell o = some x) : o.ref.index < g.heap.slots o.kind := by
  have he := ((Arena.cell_eq_some (g.heap.wf o.kind)).mp hx).1
  exact (List.getElem?_eq_some_iff.mp he).1

section Sweep

variable {k : ObjKind} {heap : Heap} {start maxCount freed : ℕ} {isDone : Bool}

/-- The batch ends in the arena, and it is the last one if it has come to the end. -/
theorem Heap.sweepPartial_pos {h h' : Heap} {dead new : Color}
    (he : h.sweepPartial k dead new start maxCount = some (h', freed, pos, isDone)) :
    pos ≤ h.slots k ∧ isDone = decide (h.slots k ≤ pos) := by
  unfold Heap.sweepPartial at he
  split at he
  · next a f p d e =>
    cases he
    obtain ⟨b, f', pos', heq, -, -, hle, -⟩ := Arena.sweepPartial_spec (h.wf k) dead new maxCount
      (Arena.start_le_of_sweepPartial e)
    rw [heq] at e
    cases e
    exact ⟨hle, rfl⟩
  · cases he

theorem SweptTo.batch (h : g.SweptTo (sweepRank k) start) (hplain : ∀ o x, g.heap.cell o = some x → x.flags = {})
    (he : g.heap.sweepPartial k g.currentWhite.otherWhite g.currentWhite start maxCount =
      some (heap, freed, pos, isDone)) : { g with heap }.SweptTo (sweepRank k) pos := by
  intro o y hy hbefore
  obtain ⟨x, hx, -, -, hin⟩ := sweep_cases he hplain hy
  split_ifs at hin with hrange
  · exact .inl hin.1
  · subst hin
    refine h o y hx ?_
    rcases hbefore with hlt | ⟨heq, hlt⟩
    · exact .inl hlt
    · have hk : o.kind = k := by
        cases hok : o.kind <;> cases k <;> simp_all [sweepRank]
      exact .inr ⟨heq, Nat.lt_of_not_le fun hs => hrange ⟨hk, hs, hlt⟩⟩

theorem SweptTo.next (h : g.SweptTo (sweepRank k) pos) (hpos : g.heap.slots k ≤ pos) : g.SweptTo (sweepRank k + 1) 0 := by
  intro o x hx hbefore
  refine h o x hx ?_
  rcases hbefore with hlt | ⟨-, hlt⟩
  · by_cases hk : o.kind = k
    · subst hk
      exact .inr ⟨rfl, (index_lt hx).trans_le hpos⟩
    · refine .inl (lt_of_le_of_ne (Nat.le_of_lt_succ hlt) fun heq => hk ?_)
      cases hok : o.kind <;> cases k <;> simp_all [sweepRank]
  · cases hlt

end Sweep

/-- The invariant of the mark phase reads two of the lists of the collector. -/
theorem Marking.gcState {saved : List LuaThread} {pending : List GrayItem} (h : Marking P saved pending g) {st : GcState}
    (hgray : st.gray = g.gcState.gray) (hweak : st.weakTables = g.gcState.weakTables) :
    Marking P saved pending { g with gcState := st } := by
  refine ⟨⟨h.tri.white, ⟨h.tri.names.valid, h.tri.names.exists_name⟩, h.tri.not_other, fun o x ho hx hc hf => ?_,
    fun o x ho hx hc hf => ?_⟩, ⟨h.closed.refs, h.closed.table, h.closed.noSkip⟩, fun i hi => h.gray_mem i (hgray ▸ hi)⟩
  · show Listed o (st.gray ++ pending)
    rw [hgray]
    exact h.tri.gray o x ho hx hc hf
  · exact (h.tri.black o x ho hx hc hf).transfer (fun _ _ hs => hs) (fun r hr => hweak ▸ hr) (fun _ _ _ => .refl _)
      fun _ _ hv => hv

/-- The state in which the sweep starts. -/
def startSweep (g : Gc) : Gc := { g with gcState := { g.gcState with sweepCursor := {}, phase := .sweepString } }

theorem atomic_def (g : Gc) : g.atomic = g.atomicMark.flip.clearWeakTables.startSweep := by
  unfold atomic startSweep flip
  rfl

theorem Ok.startSweep (h : g.Ok) : g.startSweep.Ok := h.congr h.interned fun _ hr => hr

theorem MarkSteps.markRoots {R : Gc → Gc → Prop} (hR : MarkSteps R) (s : LuaState) : R s.gc s.markRoots.gc := by
  have h₁ : R s.gc (({ s.gc with gcState := { s.gc.gcState with gray := .mainThread :: s.gc.gcState.gray } } : Gc).markTable
      s.global) := hR.trans (hR.lists s.gc _ _ _ _) (hR.markTable _ _)
  exact hR.trans (hR.trans (hR.trans h₁ (hR.markTable _ s.registry)) (hR.markGcRoots _)) (hR.markCachedStateStrings s _)

/-- The entry of the main thread is put on the list of what is traversed again. -/
theorem addMainThread_advances {saved : List LuaThread} {pending : List GrayItem} (h : Marking P saved pending g) :
    Advances P saved pending 0 g
      { g with gcState := { g.gcState with grayagain := g.gcState.grayagain ++ [GrayItem.mainThread] } } := by
  have ht : Traverses P g _ := lists_traverses g (g.gcState.grayagain ++ [GrayItem.mainThread])
  refine ⟨⟨h.tri.step ht (fun _ _ _ hx => hx) (fun _ hi => hi) fun _ hi => hi, h.closed.traverses ht h.tri.names, h.gray_mem⟩,
    ht, le_rfl, fun hl r => ?_, fun i hi => List.mem_append_left _ hi, fun i hi => ?_⟩
  · rw [listed_append, listed_singleton]
    simpa [GrayItem.obj] using hl r
  · rcases List.mem_append.mp hi with hi | hi
    · exact .inl hi
    · rw [List.mem_singleton.mp hi]
      exact .inr fun o ho => by cases ho

end Gc

namespace LuaState

variable {P : ObjRef → Prop} {s s' : LuaState} {g : Gc} {o : ObjRef}

/-- What holds of the machine in every phase. -/
structure Ok (s : LuaState) : Prop where
  gc : s.gc.Ok
  roots : ∀ o ∈ s.rootRefs, s.gc.Alive o
  oneGlobal : s.OneGlobal

/-- What holds in the mark phase. Only objects of `P` have been marked. -/
structure InMark (P : ObjRef → Prop) (s : LuaState) : Prop where
  marking : Marking P s.savedThreads s.gc.gcState.grayagain s.gc
  threads : s.gc.ThreadsListed
  again : ∀ i ∈ s.gc.gcState.grayagain, ∀ o, GrayItem.obj i = some o → P o
  fixed : ∀ o ∈ s.fixedRefs, s.gc.Settled o
  waiting : s.gc.gcState.tmudata = []
  reached : ∀ o x, s.gc.heap.cell o = some x → x.color.isWhite = false → P o

/-- What holds in each phase. -/
def PhaseOk (P : ObjRef → Prop) (s : LuaState) : Prop :=
  let st := s.gc.gcState
  match st.phase with
  | .pause => s.gc.Resting ∧ st.tmudata = []
  | .propagate => s.InMark P
  | .sweepString => s.gc.SweptTo 0 st.sweepCursor.slotPosition ∧ st.sweepCursor.slotPosition ≤ s.gc.heap.slots .string
  | .sweep => s.gc.SweptTo (st.sweepCursor.arenaIndex + 1) st.sweepCursor.slotPosition ∧ st.sweepCursor.arenaIndex ≤ 4 ∧
      st.sweepCursor.slotPosition ≤ s.gc.heap.slots (sweepArena st.sweepCursor.arenaIndex).1
  | .finalize => s.gc.Resting

/-- Marking changes no roots. -/
theorem rootRefs_eq (h : SameRoots s.gc g) : { s with gc := g }.rootRefs = s.rootRefs := by
  have hroots : g.rootRefs = s.gc.rootRefs := by rw [h]; rfl
  rw [rootRefs, rootRefs, hroots]

theorem fixedRefs_eq (h : SameRoots s.gc g) : { s with gc := g }.fixedRefs = s.fixedRefs := by
  have hroots : g.rootRefs = s.gc.rootRefs := by rw [h]; rfl
  rw [fixedRefs, fixedRefs, hroots]

theorem Ok.with_gc (h : s.Ok) (hg : g.Ok) (hroots : SameRoots s.gc g) (halive : ∀ o, s.gc.Alive o → g.Alive o) :
    { s with gc := g }.Ok :=
  ⟨hg, fun o ho => halive o (h.roots o (rootRefs_eq hroots ▸ ho)), h.oneGlobal⟩

/-! ### Marking -/

/-- The collector recolours objects in the mark phase. -/
theorem Ok.traverses (h : s.Ok) (hother : ∀ o x, s.gc.heap.cell o = some x → x.color ≠ s.gc.currentWhite.otherWhite)
    (ht : Traverses P s.gc g) (hs : StringsMarked s.gc g) : { s with gc := g }.Ok := by
  have hrec := Recolors.of_traverses ht
  have hroots : SameRoots s.gc g := by
    rw [SameRoots, ht.frame]
  refine h.with_gc (h.gc.recolors hrec hother (hs.inv h.gc.interned) fun r hr => ?_) hroots
    fun o ho => hrec.alive h.gc.white ho
  rw [ht.frame] at hr
  exact hrec.alive h.gc.white (h.gc.waiting r hr)

theorem InMark.advances (hm : s.InMark P) {n : ℕ} (ha : Advances P s.savedThreads s.gc.gcState.grayagain n s.gc g) :
    { s with gc := g }.InMark P := by
  have hroots : SameRoots s.gc g := by
    rw [SameRoots, ha.traverses.frame]
  refine ⟨ha.marking.pending_mono ha.grayagain_sub, ha.threads hm.threads, fun i hi => ?_, fun o ho => ?_, ?_,
    fun o y hy hc => ?_⟩
  · rcases ha.grayagain_new i hi with hi | hP
    · exact hm.again i hi
    · exact hP
  · exact ha.traverses.settled hm.marking.tri.white (hm.fixed o (fixedRefs_eq hroots ▸ ho))
  · show g.gcState.tmudata = []
    rw [ha.traverses.frame]
    exact hm.waiting
  · obtain ⟨x, hx, -, -, hcol⟩ := ha.traverses.cell_rev hy
    rcases hcol with hcol | hcol
    · exact hm.reached o x hx (hcol ▸ hc)
    · exact hcol.2

/-- One object is traversed. -/
theorem propagateOne_ok (h : s.Ok) (hm : s.InMark P) (hone : s.gc.propagateOne = .done g) :
    { s with gc := g }.Ok ∧ { s with gc := g }.InMark P := by
  have ha := propagateOne_done hm.marking hone
  exact ⟨h.traverses hm.marking.tri.not_other ha.traverses (StringsMarked.markSteps.propagateOne_done hone), hm.advances ha⟩

/-- The entry of the main thread is taken off the list. -/
theorem needMainThread_ok (h : s.Ok) (hm : s.InMark P) (hone : s.gc.propagateOne = .needMainThread g) :
    { s with gc := g }.Ok ∧ { s with gc := g }.InMark P := by
  have ha := propagateOne_needMainThread hm.marking hone
  exact ⟨h.traverses hm.marking.tri.not_other ha.traverses (StringsMarked.markSteps.propagateOne_needMainThread hone), hm.advances ha⟩

theorem PhaseOk.of_inMark (hm : s.InMark P) (hphase : s.gc.gcState.phase = .propagate) : s.PhaseOk P := by
  rw [PhaseOk, hphase]
  exact hm

/-- The main thread is marked. -/
theorem markMainThread_ok (h : s.Ok) (hm : s.InMark P) (hP : ∀ o ∈ s.ownRefs, P o) :
    { s with gc := s.markMainThread }.Ok ∧ { s with gc := s.markMainThread }.InMark P ∧
      ∀ o ∈ s.ownRefs, s.markMainThread.Settled o := by
  obtain ⟨hmarks, hs⟩ := MarksRefs.markMainThread s hm.marking.closed.refs hm.marking.tri.white hP
  have ha : Advances P s.savedThreads s.gc.gcState.grayagain 0 s.gc s.markMainThread :=
    ⟨hm.marking.marks hmarks, hmarks.traverses, hmarks.potential_le, hmarks.threadsListed,
      fun i hi => hmarks.grayagain_eq ▸ hi, fun i hi => .inl (hmarks.grayagain_eq ▸ hi)⟩
  exact ⟨h.traverses hm.marking.tri.not_other hmarks.traverses (StringsMarked.markSteps.markMainThread s), hm.advances ha, hs⟩

/-- The main thread is traversed in its turn. -/
theorem traverseMainThread_ok (h : s.Ok) (hm : s.InMark P) (hP : ∀ o ∈ s.ownRefs, P o) :
    s.traverseMainThread.Ok ∧ s.traverseMainThread.InMark P := by
  obtain ⟨hok, hmark, -⟩ := markMainThread_ok h hm hP
  exact ⟨⟨hok.gc.congr hok.gc.interned fun r hr => hr, hok.roots, hok.oneGlobal⟩,
    hmark.advances (addMainThread_advances hmark.marking)⟩

/-- The start of a cycle. -/
theorem startCycle_ok (h : s.Ok) (hrest : s.gc.Resting) (hwait : s.gc.gcState.tmudata = []) (hcl : Closed P s.gc)
    (hP : ∀ o ∈ s.rootRefs, P o) : s.startCycle.Ok ∧ s.startCycle.InMark P := by
  set g₀ : Gc := { s.clearLists.gc with gcState := { s.clearLists.gc.gcState with gray := [GrayItem.mainThread] } } with hg₀
  have hwhite := h.gc.white
  have hfixed : ∀ o ∈ s.clearLists.fixedRefs, P o := fun o ho => hP o (mem_rootRefs.mpr (.inl ho))
  -- no object is gray, and no object is black but strings
  have hcolor : ∀ o x, s.gc.heap.cell o = some x → x.color.isWhite = false → x.color = .black ∧ o.kind = .string ∧ P o := by
    intro o x hx hc
    rcases hrest o x hx with hcol | ⟨hcol, hk, hroot⟩
    · rw [hcol, hwhite] at hc
      cases hc
    · exact ⟨hcol, hk, hP o (List.mem_append_right _ hroot)⟩
  have hmark₀ : Marking P s.savedThreads [] g₀ := by
    refine ⟨⟨hwhite, ⟨h.gc.names.valid, h.gc.names.exists_name⟩, fun o x hx => ?_, fun o x _ hx hc => ?_,
      fun o x _ hx hc _ => ?_⟩, ⟨hcl.refs, hcl.table, hcl.noSkip⟩, fun i hi o ho => ?_⟩
    · rcases hrest o x hx with hcol | ⟨hcol, -⟩
      · rw [hcol]
        exact (Color.otherWhite_ne hwhite).symm
      · rw [hcol]
        exact Color.ne_otherWhite hwhite rfl
    · have := (hcolor o x hx (by rw [hc]; rfl)).1
      rw [hc] at this
      cases this
    · obtain ⟨-, hk, -⟩ := hcolor o x hx (by rw [hc]; rfl)
      obtain ⟨k, r⟩ := o
      cases hk
      trivial
    · rw [List.mem_singleton.mp hi] at ho
      cases ho
  obtain ⟨hmarks, hset⟩ := MarksRefs.markRoots s.clearLists hcl.refs hwhite hfixed
  have hmarks : Marks P g₀ s.clearLists.markRoots.gc := hmarks
  have hagain : s.clearLists.markRoots.gc.gcState.grayagain = [] := hmarks.grayagain_eq
  have htm : s.clearLists.markRoots.gc.gcState.tmudata = [] := by
    rw [hmarks.frame]
    exact hwait
  have hthreads : g₀.ThreadsListed := by
    intro r
    refine ⟨?_, fun hblack => ?_⟩
    · rintro ⟨i, hi, -⟩
      cases hi
    · rw [Heap.color_eq] at hblack
      obtain ⟨x, hx, hc⟩ := Option.map_eq_some_iff.mp hblack
      obtain ⟨-, hk, -⟩ := hcolor ⟨_, r⟩ x hx (by rw [hc]; rfl)
      cases hk
  have hmark := hmark₀.marks hmarks
  have hok₀ : g₀.Ok := h.gc.congr h.gc.interned fun r hr => hr
  have hroots : SameRoots g₀ s.clearLists.markRoots.gc := by
    rw [SameRoots, hmarks.frame]
  have hok : s.clearLists.markRoots.gc.Ok := by
    refine hok₀.recolors (.of_traverses hmarks.traverses) hmark₀.tri.not_other ?_ fun r hr => ?_
    · exact (StringsMarked.markSteps.markRoots s.clearLists).inv h.gc.interned
    · rw [htm] at hr
      cases hr
  have hok' : s.startCycle.gc.Ok := hok.congr hok.interned fun r hr => hr
  have hrootRefs : s.clearLists.markRoots.gc.rootRefs = s.gc.rootRefs := by
    rw [hroots]
    rfl
  refine ⟨⟨hok', fun o ho => ?_, h.oneGlobal⟩, ?_⟩
  · refine (Recolors.of_traverses hmarks.traverses).alive hwhite (h.roots o ?_)
    change o ∈ { s with gc := s.clearLists.markRoots.gc }.rootRefs at ho
    rw [rootRefs, hrootRefs] at ho
    exact ho
  · have hpend : s.startCycle.gc.gcState.grayagain = [] := hagain
    refine ⟨?_, ?_, fun i hi => ?_, fun o ho => ?_, htm, fun o y hy hc => ?_⟩
    · rw [hpend]
      exact hmark.gcState rfl rfl
    · exact hmarks.threadsListed hthreads
    · rw [hpend] at hi
      cases hi
    · refine hset o ?_
      change o ∈ { s with gc := s.clearLists.markRoots.gc }.fixedRefs at ho
      rw [fixedRefs, hrootRefs] at ho
      exact ho
    · obtain ⟨x, hx, -, -, hcol⟩ := hmarks.traverses.cell_rev hy
      rcases hcol with hcol | hcol
      · exact (hcolor o x hx (hcol ▸ hc)).2.2
      · exact hcol.2

/-! ### The atomic phase -/

/-- The marking part of the atomic phase, from the heap after the main thread has been marked again. -/
structure Reached (P : ObjRef → Prop) (s : LuaState) (m a : Gc) : Prop where
  atomic : AtomicMarked P s.savedThreads s.markMainThread m a
  all : AllMarked P s.savedThreads a
  roots : ∀ o ∈ s.rootRefs, a.Settled o ∧ a.Alive o
  waiting : ∀ r ∈ a.gcState.tmudata, a.Settled ⟨_, r⟩

theorem atomic_reached (h : s.Ok) (hm : s.InMark P) (hP : ∀ o ∈ s.ownRefs, P o)
    (hdue : ∀ r x, s.gc.heap.cell ⟨.userdata, r⟩ = some x → s.gc.HasFinalizer x.value → P ⟨_, r⟩) :
    ∃ m, s.Reached P m s.markMainThread.atomicMark := by
  obtain ⟨hok, hmark, hown⟩ := markMainThread_ok h hm hP
  have hmarks := (MarksRefs.markMainThread s hm.marking.closed.refs hm.marking.tri.white hP).1
  have hwhite : s.markMainThread.currentWhite.isWhite = true := hok.gc.white
  obtain ⟨m, hatomic⟩ := atomicMark_spec hmark.marking hmark.threads
    (fun o x hx => by rw [hok.gc.plain o x hx]) hmark.again hmark.waiting fun r y hy hfin => by
      obtain ⟨x, hx, hv, -⟩ := hmarks.traverses.cell_rev hy
      exact hdue r x hx (hv ▸ ((Keeps.of_traverses hmarks.traverses).hasFinalizer_iff _).mp hfin)
  have hstrings := StringsMarked.markSteps.atomicMark s.markMainThread
  generalize s.markMainThread.atomicMark = a at hatomic hstrings ⊢
  have hrec : Recolors P s.markMainThread a := (Recolors.of_traverses hatomic.before).trans hatomic.recolors
  have hseparated : ∀ r ∈ a.gcState.tmudata, ∃ x, a.heap.cell ⟨_, r⟩ = some x ∧ x.color.isWhite = false := by
    intro r hr
    rw [hatomic.tmudata_eq] at hr
    obtain ⟨x, hx, hc, -⟩ := hatomic.separated r hr
    exact ⟨x, hx, hc⟩
  have hwhiteA : a.currentWhite.isWhite = true := hrec.currentWhite_eq ▸ hwhite
  have hokA : a.Ok := by
    refine hok.gc.recolors hrec hmark.marking.tri.not_other (hstrings.inv hok.gc.interned) fun r hr => ?_
    obtain ⟨x, hx, hc⟩ := hseparated r hr
    exact ⟨x, hx, Color.ne_otherWhite hwhiteA hc⟩
  refine ⟨m, hatomic, ⟨hokA, hatomic.marking, hatomic.all, fun t ht v hv o ho => ?_⟩, fun o ho => ⟨?_, ?_⟩, fun r hr => ?_⟩
  · refine hrec.settled hwhite (hown o ?_)
    simp only [ownRefs, ThreadFields.ownVals, List.mem_append, List.mem_filterMap, List.mem_flatMap]
    exact .inl ⟨v, .inr ⟨t, ht, .inl (.inr hv)⟩, ho⟩
  · refine hrec.settled hwhite ?_
    rcases h.oneGlobal.mem_rootRefs.mp ho with ho | ho
    · exact hmarks.settled hm.marking.tri.white (hm.fixed o ho)
    · exact hown o ho
  · exact hrec.alive hwhite ((Recolors.of_traverses hmarks.traverses).alive h.gc.white (h.roots o ho))
  · obtain ⟨x, hx, hc⟩ := hseparated r hr
    exact settled_of_color hwhiteA hx hc

/-- The end of the mark phase: the whites are flipped, the weak tables are cleared, and the sweep is about to start. -/
theorem atomic_ok (h : s.Ok) {m : Gc} (hr : s.Reached P m s.markMainThread.atomicMark) :
    { s with gc := s.markMainThread.atomic }.Ok ∧ { s with gc := s.markMainThread.atomic }.PhaseOk P := by
  rw [atomic_def]
  have hSame : SameRoots s.gc s.markMainThread.atomicMark := SameRoots.markSteps.trans
    (SameRoots.markSteps.markMainThread s) (SameRoots.markSteps.atomicMark _)
  generalize s.markMainThread.atomicMark = a at hr hSame
  have hinv : a.flip.clearWeakTables.interning.Inv :=
    (clearWeakTables_whitened a.flip).inv (flip_inv hr.all.ok.interned)
  have hroots : a.rootRefs = s.gc.rootRefs := by
    rw [hSame]
    rfl
  have hok : a.flip.clearWeakTables.Ok := hr.all.clearWeakTables_ok hinv
    (fun o ho => (hr.roots o (List.mem_append_right _ (hroots ▸ ho))).1) hr.waiting
  have hrootsA : a.flip.clearWeakTables.rootRefs = s.gc.rootRefs := by
    rw [clearWeakTables_frame, ← hroots]
    rfl
  refine ⟨⟨hok.startSweep, fun o ho => ?_, h.oneGlobal⟩, sweptTo_zero _, Nat.zero_le _⟩
  have ho : o ∈ s.rootRefs := by
    rw [rootRefs] at ho ⊢
    rw [← hrootsA]
    exact ho
  obtain ⟨hset, halive⟩ := hr.roots o ho
  exact clearWeakTables_alive hr.all.flip_white (hr.all.alive_of_settled hset halive)

/-! ### The sweep -/

theorem sweepStringsStep_ok (h : s.Ok) (hphase : s.gc.gcState.phase = .sweepString) (hp : s.PhaseOk P)
    (hstep : s.gc.sweepStringsStep = some g) : { s with gc := g }.Ok ∧ { s with gc := g }.PhaseOk P := by
  rw [PhaseOk, hphase] at hp
  have hsteps := sweepStringsStep_steps h.gc.interned (by rw [hphase]; simp) hstep
  obtain ⟨⟨heap, freed, pos, isDone⟩, hsweep, hrest⟩ := Option.bind_eq_some_iff.mp hstep
  have hok := h.gc.sweep hsweep (sweepPartial_steps h.gc.interned (by rw [hphase]; simp) hsweep).inv
  have hbatch := SweptTo.batch (k := .string) hp.1 h.gc.plain hsweep
  obtain ⟨hle, hdone⟩ := Heap.sweepPartial_pos hsweep
  have hslots := Heap.slots_sweepPartial hsweep .string
  have halive : ∀ o ∈ s.rootRefs, { s.gc with heap }.Alive o := fun o ho => sweep_alive hsweep h.gc.white (h.roots o ho)
  dsimp only at hrest
  split at hrest
  · next hd =>
    rw [hdone, decide_eq_true_eq] at hd
    cases hrest
    refine ⟨⟨hok.congr hsteps.inv fun _ hr => hr, halive, h.oneGlobal⟩, ?_, Nat.zero_le _, Nat.zero_le _⟩
    exact hbatch.next (by rw [hslots]; exact hd)
  · cases hrest
    refine ⟨⟨hok.congr hok.interned fun _ hr => hr, halive, h.oneGlobal⟩, ?_⟩
    rw [PhaseOk]
    simp only [trackFree, hphase]
    exact ⟨hbatch, by rw [hslots]; exact hle⟩

theorem sweepArena_rank {n : ℕ} (hn : n ≤ 4) : sweepRank (sweepArena n).1 = n + 1 := by
  rcases n with _ | _ | _ | _ | n
  · rfl
  · rfl
  · rfl
  · rfl
  · obtain rfl : n = 0 := by omega
    rfl

theorem sweepOtherStep_ok (h : s.Ok) (hphase : s.gc.gcState.phase = .sweep) (hp : s.PhaseOk P)
    (hstep : s.gc.sweepOtherStep = some g) : { s with gc := g }.Ok ∧ { s with gc := g }.PhaseOk P := by
  rw [PhaseOk, hphase] at hp
  obtain ⟨hswept, hidx, -⟩ := hp
  have hrank := sweepArena_rank hidx
  obtain ⟨⟨heap, freed, pos, isDone⟩, hsweep, hrest⟩ := Option.bind_eq_some_iff.mp hstep
  have hsweep : s.gc.heap.sweepPartial (sweepArena s.gc.gcState.sweepCursor.arenaIndex).1 _ _ _ _ = _ := hsweep
  have hok := h.gc.sweep hsweep (sweepPartial_steps h.gc.interned (by rw [hphase]; simp) hsweep).inv
  have hbatch := SweptTo.batch (hrank ▸ hswept) h.gc.plain hsweep
  obtain ⟨hle, hdone⟩ := Heap.sweepPartial_pos hsweep
  have hslots := Heap.slots_sweepPartial hsweep (sweepArena s.gc.gcState.sweepCursor.arenaIndex).1
  have halive : ∀ o ∈ s.rootRefs, { s.gc with heap }.Alive o := fun o ho => sweep_alive hsweep h.gc.white (h.roots o ho)
  dsimp only at hrest
  split at hrest
  · next hd =>
    rw [hdone, decide_eq_true_eq, ← hslots] at hd
    have hnext := hbatch.next hd
    rw [hrank] at hnext
    split at hrest
    · next hlast =>
      cases hrest
      refine ⟨⟨hok.congr hok.interned fun _ hr => hr, halive, h.oneGlobal⟩, ?_⟩
      have heq : s.gc.gcState.sweepCursor.arenaIndex = 4 := by omega
      rw [heq] at hnext
      exact SweptTo.resting hnext
    · next hlast =>
      cases hrest
      refine ⟨⟨hok.congr hok.interned fun _ hr => hr, halive, h.oneGlobal⟩, ?_⟩
      rw [PhaseOk]
      simp only [trackFree, hphase]
      exact ⟨hnext, by omega, Nat.zero_le _⟩
  · cases hrest
    refine ⟨⟨hok.congr hok.interned fun _ hr => hr, halive, h.oneGlobal⟩, ?_⟩
    rw [PhaseOk]
    simp only [trackFree, hphase]
    rw [hrank] at hbatch
    exact ⟨hbatch, hidx, by rw [hslots]; exact hle⟩

/-! ### Finalizers -/

/-- The machine does something that leaves the heap and the fixed roots alone, and brings no dead object into a thread. -/
theorem Ok.own (h : s.Ok) (hgc : s'.gc = s.gc) (hfixed : s'.fixedRefs = s.fixedRefs)
    (hsaved : s'.savedThreads = s.savedThreads) (hglobal : s'.global = s.global)
    (hown : ∀ o ∈ s'.ownRefs, s.gc.Alive o) : s'.Ok := by
  have hone : s'.OneGlobal := by
    rw [OneGlobal, hsaved, hglobal]
    exact h.oneGlobal
  refine ⟨hgc ▸ h.gc, fun o ho => ?_, hone⟩
  rw [hgc]
  rcases hone.mem_rootRefs.mp ho with ho | ho
  · exact h.roots o (mem_rootRefs.mpr (.inl (hfixed ▸ ho)))
  · exact hown o ho

theorem PhaseOk.congr (h : s.PhaseOk P) (hgc : s'.gc = s.gc) (hfixed : s'.fixedRefs = s.fixedRefs)
    (hsaved : s'.savedThreads = s.savedThreads) : s'.PhaseOk P := by
  rw [PhaseOk] at h ⊢
  rw [hgc]
  cases hphase : s.gc.gcState.phase with
  | pause | sweepString | sweep | finalize =>
    rw [hphase] at h
    exact h
  | propagate =>
    rw [hphase] at h
    refine ⟨?_, hgc ▸ h.threads, ?_, ?_, hgc ▸ h.waiting, ?_⟩
    · rw [hsaved, hgc]
      exact h.marking
    · rw [hgc]
      exact h.again
    · rw [hfixed, hgc]
      exact h.fixed
    · rw [hgc]
      exact h.reached

/-- A slot of the stack after one slot has been set. -/
theorem stackSet_cases {idx i : ℕ} {v w : Val} (hw : (s.stackSet idx v).stack[i]? = some w) :
    i = idx ∧ w = v ∨ w = .nil ∨ i ≠ idx ∧ s.stack[i]? = some w := by
  rw [stackSet, List.getElem?_set] at hw
  split_ifs at hw with hi
  · exact .inl ⟨hi.symm, (Option.some.inj hw).symm⟩
  · rw [List.getElem?_append] at hw
    split_ifs at hw
    · exact .inr (.inr ⟨Ne.symm hi, hw⟩)
    · exact .inr (.inl (List.eq_of_mem_replicate (List.mem_of_getElem? hw)))

theorem forall_ownVals {t : ThreadFields} {p : Val → Prop} : (∀ v ∈ t.ownVals, p v) ↔
    p t.hookFunc ∧ (∀ v ∈ t.errorObject, p v) ∧ (∀ i < t.top, ∀ v, t.stack[i]? = some v → p v) ∧
      ∀ c ∈ t.callStack.take (t.ci + 1), ∀ v, t.stack[c.func]? = some v → p v := by
  have hlive : (∀ v ∈ t.liveStack, p v) ↔ ∀ i < t.top, ∀ v, t.stack[i]? = some v → p v := by
    constructor
    · intro h i hi v hv
      exact h v (List.mem_of_getElem? (by rw [ThreadFields.liveStack, List.getElem?_take_of_lt hi]; exact hv))
    · intro h v hv
      obtain ⟨i, hi⟩ := List.getElem?_of_mem hv
      rw [ThreadFields.liveStack, List.getElem?_take] at hi
      split_ifs at hi with hlt
      exact h i hlt v hi
  rw [← hlive]
  simp only [ThreadFields.ownVals, List.mem_append, List.mem_cons, List.mem_filterMap, Option.mem_toList,
    Option.mem_def]
  grind

/-- The stack of the running thread changes. -/
theorem Ok.stack (h : s.Ok) {stack : List Val} {top : ℕ}
    (hlive : ∀ i < top, ∀ v, stack[i]? = some v → ∀ o ∈ v.objRef, s.gc.Alive o)
    (hfunc : ∀ c ∈ s.callStack.take (s.ci + 1), ∀ v, stack[c.func]? = some v → ∀ o ∈ v.objRef, s.gc.Alive o) :
    { s with stack, top }.Ok := by
  have hroots : ∀ o ∈ s.ownRefs, s.gc.Alive o := fun o ho => h.roots o (mem_rootRefs.mpr (.inr (.inl ho)))
  refine h.own rfl rfl rfl rfl fun o ho => ?_
  simp only [ownRefs, List.mem_append, List.mem_filterMap] at ho hroots
  rcases ho with ⟨v, hv | hv, ho⟩ | ho
  · have hold := forall_ownVals (t := s.toThreadFields) (p := fun v => ∀ o ∈ v.objRef, s.gc.Alive o) |>.mp
      fun v hv o ho => hroots o (.inl ⟨v, .inl hv, ho⟩)
    exact forall_ownVals (t := { s.toThreadFields with stack, top }) (p := fun v => ∀ o ∈ v.objRef, s.gc.Alive o) |>.mpr
      ⟨hold.1, hold.2.1, hlive, hfunc⟩ v hv o ho
  · exact hroots o (.inl ⟨v, .inr hv, ho⟩)
  · exact hroots o (.inr ho)

theorem Ok.ownVals (h : s.Ok) : ∀ v ∈ s.ownVals, ∀ o ∈ v.objRef, s.gc.Alive o := fun v hv o ho =>
  h.roots o (mem_rootRefs.mpr (.inr (.inl (by
    simp only [ownRefs, List.mem_append, List.mem_filterMap]
    exact .inl ⟨v, .inl hv, ho⟩))))

/-- A value that is alive is stored in the stack. -/
theorem Ok.store (h : s.Ok) {v : Val} (hv : ∀ o ∈ v.objRef, s.gc.Alive o) {idx top : ℕ}
    (htop : ∀ i < top, i ≠ idx → i < s.top) : { s.stackSet idx v with top }.Ok := by
  obtain ⟨-, -, hlive, hfunc⟩ := forall_ownVals.mp h.ownVals
  refine h.stack (fun i hi w hw => ?_) fun c hc w hw => ?_
  · rcases stackSet_cases hw with ⟨-, rfl⟩ | rfl | ⟨hne, hw⟩
    · exact hv
    · simp [Val.objRef]
    · exact hlive i (htop i hi hne) w hw
  · rcases stackSet_cases hw with ⟨-, rfl⟩ | rfl | ⟨-, hw⟩
    · exact hv
    · simp [Val.objRef]
    · exact hfunc c hc w hw

theorem Ok.stackSet (h : s.Ok) {v : Val} (hv : ∀ o ∈ v.objRef, s.gc.Alive o) (idx : ℕ) : (s.stackSet idx v).Ok :=
  h.store hv fun _ hi _ => hi

theorem Ok.push (h : s.Ok) {v : Val} (hv : ∀ o ∈ v.objRef, s.gc.Alive o) : (s.push v).Ok :=
  h.store hv fun i hi hne => by omega

/-- A finalizer is called. -/
theorem callGcFinalizer_ok {call : Option (Val × GcRef .userdata)} {found : Bool} (h : s.Ok)
    (hcall : s.callGcFinalizer = (s', found, call)) : s'.Ok ∧
      s'.gc = { s.gc with gcState := { s.gc.gcState with tmudata := s.gc.gcState.tmudata.dropLast } } ∧
      (found = false → s.gc.gcState.tmudata = []) := by
  rw [callGcFinalizer] at hcall
  split at hcall
  · next hnone =>
    cases hcall
    have hempty : s.gc.gcState.tmudata = [] := List.getLast?_eq_none_iff.mp hnone
    have hdrop : s.gc.gcState.tmudata.dropLast = s.gc.gcState.tmudata := by
      rw [hempty]
      rfl
    exact ⟨h, by rw [hdrop], fun _ => hempty⟩
  · next ud hud =>
    set s₁ : LuaState := { s with gc.gcState.tmudata := s.gc.gcState.tmudata.dropLast } with hs₁
    have hok₁ : s₁.Ok := ⟨h.gc.congr h.gc.interned fun r hr => List.mem_of_mem_dropLast hr, h.roots, h.oneGlobal⟩
    have hud : s₁.gc.Alive ⟨_, ud⟩ := h.gc.waiting ud (List.mem_of_getLast? hud)
    -- the finalizer is a field of the metatable of the userdata
    have hfn : ∀ mt, (s₁.gc.heap.get ud).bind Userdata.metatable = some mt →
        ∀ o ∈ (s₁.gc.metafield mt gcName).objRef, s₁.gc.Alive o := by
      intro mt hmt
      obtain ⟨x, hx, hc⟩ := hud
      rw [Heap.get_eq, hx, Option.map_some, Option.bind_some] at hmt
      refine hok₁.gc.metafield (hok₁.gc.refs _ x hx hc _ (mem_refs_of_vals (v := .table mt) ?_ rfl)) gcName
      exact List.mem_append_left _ (List.mem_append_left _ (by rw [hmt]; simp))
    dsimp only at hcall
    split at hcall
    · next mt hmt =>
      split at hcall
      all_goals
        rw [Prod.mk.injEq, Prod.mk.injEq] at hcall
        obtain ⟨hs', hfound, -⟩ := hcall
        rw [← hs', ← hfound]
      · exact ⟨hok₁, rfl, by simp⟩
      · refine ⟨(hok₁.push (hfn mt hmt)).push ?_, rfl, by simp⟩
        rintro o ⟨⟩
        exact hud
    · rw [if_pos (show Val.nil.isNil = true from rfl), Prod.mk.injEq, Prod.mk.injEq] at hcall
      obtain ⟨hs', hfound, -⟩ := hcall
      rw [← hs', ← hfound]
      exact ⟨hok₁, rfl, by simp⟩

/-! ### A step of the collector -/

theorem Ok.closed_true (h : s.Ok) : Closed (fun _ => True) s.gc :=
  ⟨refClosed_true _, tableClosed_true _, fun o x hx => by rw [h.gc.plain o x hx]⟩

/-- The phase of the collector changes where everything is at rest. -/
theorem callGcFinalizer_phase {call : Option (Val × GcRef .userdata)} {found : Bool} (h : s.Ok)
    (hphase : s.gc.gcState.phase = .finalize) (hp : s.PhaseOk P) (hcall : s.callGcFinalizer = (s', found, call)) :
    s'.PhaseOk P ∧ (found = false → { s' with gc.gcState.phase := .pause }.PhaseOk P) := by
  obtain ⟨-, hgc, hnone⟩ := callGcFinalizer_ok h hcall
  rw [PhaseOk, hphase] at hp
  have hrest : s.gc.Resting := hp
  refine ⟨?_, fun hfound => ?_⟩
  · rw [PhaseOk, hgc]
    simp only [hphase]
    exact hrest
  · have hempty := hnone hfound
    rw [PhaseOk]
    simp only [hgc, hempty, List.dropLast_nil, and_true]
    exact hrest

/-- A step of the collector keeps the invariant, whatever its phase. -/
theorem gcSinglestep_ok {call : Option (Val × GcRef .userdata)} (h : s.Ok) (hp : s.PhaseOk fun _ => True)
    (hstep : s.gcSinglestep = some (s', call)) : s'.Ok ∧ s'.PhaseOk fun _ => True := by
  rw [gcSinglestep] at hstep
  split at hstep
  · next hphase =>
    rw [PhaseOk, hphase] at hp
    cases hstep
    exact startCycle_ok h hp.1 hp.2 h.closed_true fun _ _ => trivial
  · next hphase =>
    rw [PhaseOk, hphase] at hp
    have hp : s.InMark fun _ => True := hp
    split at hstep
    · next g hone =>
      cases hstep
      obtain ⟨hok, hm⟩ := propagateOne_ok h hp hone
      exact ⟨hok, .of_inMark hm ((StringsMarked.markSteps.propagateOne_done hone).phase_eq.trans hphase)⟩
    · next g hone =>
      cases hstep
      obtain ⟨hok, hm⟩ := needMainThread_ok h hp hone
      obtain ⟨hok', hm'⟩ := traverseMainThread_ok hok hm fun _ _ => trivial
      refine ⟨hok', .of_inMark hm' ?_⟩
      exact ((StringsMarked.markSteps.traverseMainThread _).phase_eq.trans
        (StringsMarked.markSteps.propagateOne_needMainThread hone).phase_eq).trans hphase
    · cases hstep
      obtain ⟨m, hr⟩ := atomic_reached h hp (fun _ _ => trivial) fun _ _ _ _ => trivial
      exact atomic_ok h hr
  · next hphase =>
    obtain ⟨g, hg, heq⟩ := Option.map_eq_some_iff.mp hstep
    cases heq
    exact sweepStringsStep_ok h hphase hp hg
  · next hphase =>
    obtain ⟨g, hg, heq⟩ := Option.map_eq_some_iff.mp hstep
    cases heq
    exact sweepOtherStep_ok h hphase hp hg
  · next hphase =>
    split at hstep
    · next s₁ c hcall =>
      cases hstep
      exact ⟨(callGcFinalizer_ok h hcall).1, (callGcFinalizer_phase h hphase hp hcall).1⟩
    · next s₁ c hcall =>
      cases hstep
      have hok := (callGcFinalizer_ok h hcall).1
      exact ⟨⟨hok.gc.congr hok.gc.interned fun _ hr => hr, hok.roots, hok.oneGlobal⟩,
        (callGcFinalizer_phase h hphase hp hcall).2 rfl⟩

/-- A cycle that is still marking is given up. -/
theorem abortMark_ok (h : s.Ok) (hp : s.PhaseOk P) : s.abortMark.Ok ∧ s.abortMark.PhaseOk P := by
  rw [abortMark]
  split
  · exact ⟨⟨h.gc.congr h.gc.interned fun _ hr => hr, h.roots, h.oneGlobal⟩, sweptTo_zero _, Nat.zero_le _⟩
  · exact ⟨h, hp⟩

end LuaState

end Rilua.Vm
