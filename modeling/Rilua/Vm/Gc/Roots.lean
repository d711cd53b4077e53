import Rilua.Vm.Gc.MarkPhase

/-! What is marked from the roots. The start of a cycle marks those that no instruction changes; the stacks, and what
    else the threads hold, are marked when the main thread is traversed, and once more in the atomic phase. -/

namespace Rilua.Vm

open Gc

/-- What a thread holds as a root, apart from its environment. -/
def ThreadFields.ownVals (t : ThreadFields) : List Val :=
  t.hookFunc :: t.errorObject.toList ++ t.liveStack ++
    (t.callStack.take (t.ci + 1)).filterMap fun c => t.stack[c.func]?

namespace LuaState

/-- The roots that are marked at the start of a cycle only. -/
def fixedRefs (s : LuaState) : List ObjRef :=
  ⟨_, s.global⟩ :: ⟨_, s.registry⟩ :: ((s.globalSlots.map GlobalSlotRuntime.values).getD []).filterMap Val.objRef ++
    (s.hookEventNames ++ s.hookMaskNames ++ s.debugInfoFieldNames ++
      (s.globalSlots.map fun rt => rt.nameKeys ++ rt.shadowRegistryKey.toList).getD []).map (⟨_, ·⟩) ++ s.gc.rootRefs

/-- The roots in the threads. -/
def ownRefs (s : LuaState) : List ObjRef :=
  (s.ownVals ++ s.savedThreads.flatMap fun t => t.ownVals).filterMap Val.objRef ++
    (s.openUpvalues ++ s.savedThreads.flatMap LuaThread.upvalueRefs).map (⟨_, ·⟩)

/-- The threads the running one was resumed from have its environment. -/
def OneGlobal (s : LuaState) : Prop := ∀ t ∈ s.savedThreads, t.global = s.global

variable {s : LuaState} {o : ObjRef}

theorem mem_rootRefs : o ∈ s.rootRefs ↔
    o ∈ s.fixedRefs ∨ o ∈ s.ownRefs ∨ ∃ t ∈ s.savedThreads, o = ⟨_, t.global⟩ := by
  have hvals : ∀ t : ThreadFields, t.rootVals = .table t.global :: t.ownVals := fun _ => rfl
  simp only [rootRefs, fixedRefs, ownRefs, hvals, List.mem_append, List.mem_cons, List.mem_filterMap, List.mem_map,
    List.mem_flatMap]
  grind [Val.objRef]

theorem OneGlobal.mem_rootRefs (h : s.OneGlobal) : o ∈ s.rootRefs ↔ o ∈ s.fixedRefs ∨ o ∈ s.ownRefs := by
  rw [LuaState.mem_rootRefs]
  refine ⟨?_, fun ho => ho.imp_right .inl⟩
  rintro (ho | ho | ⟨t, ht, rfl⟩)
  · exact .inl ho
  · exact .inr ho
  · rw [h t ht]
    exact .inl (by simp [fixedRefs])

end LuaState

namespace Gc

variable {P : ObjRef → Prop} {g g' g'' : Gc} {l l' : List ObjRef}

/-- Only the heap and the state of the collector change. -/
def SameRoots (g g' : Gc) : Prop := g' = { g with heap := g'.heap, gcState := g'.gcState }

theorem SameRoots.markSteps : MarkSteps SameRoots where
  refl _ := rfl
  trans h h' := by
    rw [SameRoots] at h h' ⊢
    rw [h] at h'
    exact h'
  mark _ _ _ _ := rfl
  setColor _ _ _ _ := rfl
  lists _ _ _ _ _ := rfl
  finalize _ _ := rfl

/-- From `g` to `g'` the objects of the list are marked, and what has to be marked with them. -/
def MarksRefs (P : ObjRef → Prop) (l : List ObjRef) (g g' : Gc) : Prop :=
  RefClosed P g → g.currentWhite.isWhite = true → (∀ o ∈ l, P o) → Marks P g g' ∧ ∀ o ∈ l, g'.Settled o

namespace MarksRefs

theorem trans (h : MarksRefs P l g g') (h' : MarksRefs P l' g' g'') : MarksRefs P (l ++ l') g g'' := by
  intro hcl hw hP
  obtain ⟨hm, hs⟩ := h hcl hw fun o ho => hP o (List.mem_append_left _ ho)
  have hw' : g'.currentWhite.isWhite = true := hm.currentWhite_eq ▸ hw
  obtain ⟨hm', hs'⟩ := h' (hcl.marks hm) hw' fun o ho => hP o (List.mem_append_right _ ho)
  refine ⟨hm.trans hm' hw, fun o ho => ?_⟩
  rcases List.mem_append.mp ho with ho | ho
  · exact hm'.settled hw' (hs o ho)
  · exact hs' o ho

theorem sub (h : MarksRefs P l g g') (hl : ∀ o ∈ l, o ∈ l') (hl' : ∀ o ∈ l', o ∈ l) : MarksRefs P l' g g' := by
  intro hcl hw hP
  obtain ⟨hm, hs⟩ := h hcl hw fun o ho => hP o (hl o ho)
  exact ⟨hm, fun o ho => hs o (hl' o ho)⟩

theorem refl (P : ObjRef → Prop) (g : Gc) : MarksRefs P [] g g := fun _ _ _ => ⟨.refl P g, by simp⟩

theorem markTable (g : Gc) (r : GcRef .table) : MarksRefs P [⟨_, r⟩] g (g.markTable r) := by
  intro _ hw hP
  obtain ⟨hm, hs⟩ := markTable_marks hw (hP _ (List.mem_singleton_self _))
  exact ⟨hm, fun o ho => by rw [List.mem_singleton.mp ho]; exact hs⟩

theorem markValues (g : Gc) (vs : List Val) : MarksRefs P (vs.filterMap Val.objRef) g (g.markValues vs) := by
  intro hcl hw hP
  obtain ⟨hm, hs⟩ := markValues_marks hcl hw fun v hv o ho => hP o (List.mem_filterMap.mpr ⟨v, hv, ho⟩)
  refine ⟨hm, fun o ho => ?_⟩
  obtain ⟨v, hv, ho⟩ := List.mem_filterMap.mp ho
  exact hs v hv o ho

theorem markUpvalues (g : Gc) (rs : List (GcRef .upvalue)) : MarksRefs P (rs.map (⟨_, ·⟩)) g (g.markUpvalues rs) := by
  intro hcl hw hP
  obtain ⟨hm, hs⟩ := markUpvalues_marks hcl hw fun r hr => hP _ (List.mem_map_of_mem hr)
  refine ⟨hm, fun o ho => ?_⟩
  obtain ⟨r, hr, rfl⟩ := List.mem_map.mp ho
  exact hs r hr

theorem markStrings (g : Gc) (rs : List (GcRef .string)) : MarksRefs P (rs.map (⟨_, ·⟩)) g (rs.foldl markString g) := by
  intro hcl hw hP
  obtain ⟨hm, hs⟩ := markStrings_marks hcl hw fun r hr => hP _ (List.mem_map_of_mem hr)
  refine ⟨hm, fun o ho => ?_⟩
  obtain ⟨r, hr, rfl⟩ := List.mem_map.mp ho
  exact hs r hr

theorem markTables? (g : Gc) (rs : List (Option (GcRef .table))) :
    MarksRefs P ((rs.filterMap id).map (⟨_, ·⟩)) g (rs.foldl markTable? g) := by
  intro hcl hw hP
  have hmem : ∀ r ∈ rs, ∀ mt ∈ r, (⟨_, mt⟩ : ObjRef) ∈ (rs.filterMap id).map (⟨.table, ·⟩) := fun r hr mt hmt =>
    List.mem_map_of_mem (List.mem_filterMap.mpr ⟨r, hr, hmt⟩)
  obtain ⟨hm, hs⟩ := foldl_marks (P := P) (f := markTable?) (S := fun g r => ∀ mt ∈ r, g.Settled ⟨_, mt⟩)
    (fun _ _ _ h hw hs mt hmt => h.settled hw (hs mt hmt)) hcl hw
    fun _ r hr _ hw => markTable?_marks hw fun mt hmt => hP _ (hmem r hr mt hmt)
  refine ⟨hm, fun o ho => ?_⟩
  obtain ⟨mt, hmt, rfl⟩ := List.mem_map.mp ho
  obtain ⟨r, hr, hmt⟩ := List.mem_filterMap.mp hmt
  exact hs r hr mt hmt

/-- A loop marks what its turns mark. -/
theorem foldl {α : Type} {f : Gc → α → Gc} {refs : α → List ObjRef} (hf : ∀ g a, MarksRefs P (refs a) g (f g a)) :
    ∀ (as : List α) (g : Gc), MarksRefs P (as.flatMap refs) g (as.foldl f g)
  | [], g => refl P g
  | a :: as, g => (hf g a).trans (foldl hf as (f g a))

/-- What the heap keeps itself is marked. -/
theorem markGcRoots (g : Gc) : MarksRefs P g.rootRefs g g.markGcRoots := by
  intro hcl hw hP
  set g₁ := g.typeMetatables.foldl Gc.markTable? g with hg₁
  set g₂ := (g.tmNames.filterMap id).foldl markString g₁ with hg₂
  set g₃ := (g.typeNameRefs.filterMap id).foldl markString g₂ with hg₃
  have h := (((markTables? (P := P) g g.typeMetatables).trans (markStrings g₁ (g.tmNames.filterMap id))).trans
    (markStrings g₂ (g.typeNameRefs.filterMap id))).trans (markStrings g₃ (g.staticInternCache.map Prod.snd))
  have heq : g.markGcRoots = (g.staticInternCache.map Prod.snd).foldl markString g₃ := by
    have hR := SameRoots.markSteps
    have h₁ : SameRoots g g₁ := hR.foldl hR.markTable? _ _
    have h₂ : SameRoots g g₂ := hR.trans h₁ (hR.foldl hR.markString _ _)
    have h₃ : SameRoots g g₃ := hR.trans h₂ (hR.foldl hR.markString _ _)
    have htm : g₁.tmNames = g.tmNames := by rw [h₁]
    have htn : g₂.typeNameRefs = g.typeNameRefs := by rw [h₂]
    have hc : g₃.staticInternCache = g.staticInternCache := by rw [h₃]
    simp only [Gc.markGcRoots, ← hg₁, htm, ← hg₂, htn, ← hg₃, hc]
  rw [heq]
  refine h.sub (fun o ho => ?_) (fun o ho => ?_) hcl hw hP
  · simpa [rootRefs, or_assoc] using ho
  · simpa [rootRefs, or_assoc] using ho

/-- What a thread holds is marked. -/
theorem markThreadFields (g : Gc) (t : ThreadFields) (upvalues : List (GcRef .upvalue)) :
    MarksRefs P (t.ownVals.filterMap Val.objRef ++ upvalues.map (⟨_, ·⟩)) g (LuaState.markThreadFields g t upvalues) := by
  have h := ((((markValues (P := P) g t.liveStack).trans (markUpvalues _ upvalues)).trans
    (markValues _ t.errorObject.toList)).trans (markValues _ [t.hookFunc])).trans
      (markValues _ ((t.callStack.take (t.ci + 1)).filterMap fun c => t.stack[c.func]?))
  refine h.sub (fun o ho => ?_) fun o ho => ?_
  all_goals
    simp only [ThreadFields.ownVals, List.mem_append, List.mem_filterMap, List.mem_cons, List.not_mem_nil] at ho ⊢
    grind

theorem markMainThread (s : LuaState) : MarksRefs P s.ownRefs s.gc s.markMainThread := by
  have h := (markThreadFields (P := P) s.gc s.toThreadFields s.openUpvalues).trans
    (foldl (fun g (t : LuaThread) => markThreadFields g t.toThreadFields (t.openUpvalues ++ t.suspendedUpvals.map Prod.fst))
      s.savedThreads.reverse _)
  refine h.sub (fun o ho => ?_) fun o ho => ?_
  all_goals
    simp only [LuaState.ownRefs, LuaThread.upvalueRefs, List.mem_append, List.mem_filterMap, List.mem_map,
      List.mem_flatMap, List.mem_reverse] at ho ⊢
    grind

theorem markCachedStateStrings (s : LuaState) (g : Gc) :
    MarksRefs P (((s.globalSlots.map GlobalSlotRuntime.values).getD []).filterMap Val.objRef ++
      (s.hookEventNames ++ s.hookMaskNames ++ s.debugInfoFieldNames ++
        (s.globalSlots.map fun rt => rt.nameKeys ++ rt.shadowRegistryKey.toList).getD []).map (⟨_, ·⟩))
      g (s.markCachedStateStrings g) := by
  have h := markStrings (P := P) g (s.hookEventNames ++ s.hookMaskNames ++ s.debugInfoFieldNames)
  rw [LuaState.markCachedStateStrings]
  cases s.globalSlots with
  | none => simpa using h
  | some rt =>
    refine ((h.trans (markValues _ rt.values)).trans (markStrings _ (rt.nameKeys ++ rt.shadowRegistryKey.toList))).sub
      (fun o ho => ?_) fun o ho => ?_
    all_goals
      simp only [Option.map_some, Option.getD_some, List.mem_append, List.mem_map] at ho ⊢
      grind

/-- The start of a cycle marks the roots that no instruction changes. -/
theorem markRoots (s : LuaState) : MarksRefs P s.fixedRefs
    { s.gc with gcState := { s.gc.gcState with gray := .mainThread :: s.gc.gcState.gray } } s.markRoots.gc := by
  set g : Gc := { s.gc with gcState := { s.gc.gcState with gray := .mainThread :: s.gc.gcState.gray } } with hg
  have hR := SameRoots.markSteps
  have hroots : ((g.markTable s.global).markTable s.registry).rootRefs = s.gc.rootRefs := by
    have h : SameRoots g ((g.markTable s.global).markTable s.registry) := hR.trans (hR.markTable _ _) (hR.markTable _ _)
    rw [h]
    rfl
  have h := (((markTable (P := P) g s.global).trans (markTable _ s.registry)).trans
    (markGcRoots _)).trans (markCachedStateStrings s _)
  refine h.sub (fun o ho => ?_) fun o ho => ?_
  all_goals
    simp only [LuaState.fixedRefs, hroots, List.mem_append, List.mem_cons, List.not_mem_nil] at ho ⊢
    grind

end MarksRefs

end Gc

end Rilua.Vm
