import Rilua.Vm.Gc.Program

/-! Writes to upvalues, with their barriers (`find_upvalue`, `close_upvalues` and `SETUPVAL` of `vm/execute.rs`). A closed
    upvalue refers to its value, so that in the mark phase a value that is captured or assigned is marked if the upvalue
    has been. -/

namespace Rilua.Vm

open Lib Gc

namespace LuaState

/-- Closes an upvalue, with the barrier: the captured value is read back. -/
def closeUpvalueBarrier (s : LuaState) (r : GcRef .upvalue) : LuaState :=
  let s := s.closeUpvalue r
  let capturedVal := ((s.gc.heap.get r).map fun uv => Upvalue.get uv s.stack).getD .nil
  let uvColor := (s.gc.heap.color ⟨_, r⟩).getD .white0
  { s with gc := s.gc.barrierForwardVal uvColor capturedVal }

/-- The loop of `close_upvalues`, with the barrier. -/
def closeFromBarrier (level : ℕ) : List (GcRef .upvalue) → LuaState → LuaState
  | [], s => { s with openUpvalues := [] }
  | r :: rs, s =>
    if (s.openAt r).any (level ≤ ·) then closeFromBarrier level rs (s.closeUpvalueBarrier r)
    else { s with openUpvalues := r :: rs }

/-- `close_upvalues`, with the barrier. -/
def closeUpvaluesBarrier (s : LuaState) (level : ℕ) : LuaState := closeFromBarrier level s.openUpvalues s

/-- `SETUPVAL`: writes through an upvalue, with the barrier. -/
def setUpval (s : LuaState) (r : GcRef .upvalue) (v : Val) : LuaState :=
  let uvColor := s.gc.heap.color ⟨_, r⟩
  let s := s.setUpvalue r v
  match uvColor with
  | some color => { s with gc := s.gc.barrierForwardVal color v }
  | none => s

variable {s s' : LuaState} {r u : GcRef .upvalue} {v : Val}

theorem get_barrierForwardVal (g : Gc) (color : Color) (v : Val) (u : GcRef .upvalue) :
    (g.barrierForwardVal color v).heap.get u = g.heap.get u := by
  rw [Gc.barrierForwardVal]
  split
  · exact (Gc.Keeps.markSteps.markValue g v).get_eq _ u (by simp)
  · rfl

theorem alive_barrierForwardVal {g : Gc} (hw : g.currentWhite.isWhite = true) {color : Color} {v : Val} {o : ObjRef}
    (ho : g.Alive o) : (g.barrierForwardVal color v).Alive o := by
  rw [Gc.barrierForwardVal]
  split
  · have hmarks := (markValue_marks (P := fun _ => True) (g := g) (v := v) (fun _ _ _ _ _ _ _ => trivial) hw
      fun _ _ => trivial).1
    exact (Recolors.of_traverses hmarks.traverses).alive hw ho
  · exact ho

/-- What a write to an upvalue and its barrier leave. -/
structure UpvalueWritten (s : LuaState) (r : GcRef .upvalue) (uv : Upvalue) (g : Gc) : Prop where
  sound : Sound (fun _ => False) { s with gc := g }
  alive : ∀ o, s.gc.Alive o → g.Alive o
  get_self : g.heap.get r = some uv
  get_ne : ∀ u : GcRef .upvalue, u ≠ r → g.heap.get u = s.gc.heap.get u

/-- An upvalue is written to, and what it refers to then is marked if need be. -/
theorem Sound.writeUpvalue (h : s.Sound fun _ => False) {x : Cell (Obj .upvalue)} (hx : s.gc.heap.cell ⟨_, r⟩ = some x)
    {f : Upvalue → Upvalue} (hv : ∀ o ∈ v.objRef, s.gc.Alive o)
    (hf : ∀ c ∈ Obj.refs (k := .upvalue) (f x.value), c ∈ v.objRef) :
    s.UpvalueWritten r (f x.value) ((s.gc.modify r f).barrierForwardVal x.color v) := by
  have hm : Gc.Mutates (· = ⟨.upvalue, r⟩) s.gc (s.gc.modify r f) := by
    refine .modify h.ok.gc (by simp) (by simp) (fun y hy _ c hc => ?_) fun _ _ => trivial
    rw [hx] at hy
    cases hy
    exact hv c (hf c hc)
  have hw : (s.gc.modify r f).currentWhite.isWhite = true := h.ok.gc.white
  have hcell : (s.gc.modify r f).heap.cell ⟨.upvalue, r⟩ = some { x with value := f x.value } := by
    rw [Gc.modify, Heap.cell_modify_self, hx]
    rfl
  have hwritten := h.writes hm fun _ => hm.keepsModes h.ok.gc (by simp)
  refine ⟨hwritten.barrierForwardVal (o := ⟨.upvalue, r⟩) (by simp) hcell hf,
    fun o ho => alive_barrierForwardVal hw (hm.alive h.ok.gc.white ho), ?_, fun u hu => ?_⟩
  · rw [get_barrierForwardVal, Heap.get_eq, hcell]
    rfl
  · rw [get_barrierForwardVal, Gc.modify, Heap.get_modify, if_neg hu]

/-! ### Closing -/

theorem openAt_eq_some {i : ℕ} (h : s.openAt r = some i) : s.gc.heap.get r = some ⟨.openAt i⟩ := by
  obtain ⟨uv, huv, hi⟩ := Option.bind_eq_some_iff.mp h
  rw [huv, Upvalue.stackIndex_eq_some.mp hi]

/-- The value in the slot is captured. -/
theorem Sound.closeUpvalueBarrier (h : s.Sound fun _ => False) {i : ℕ} (hr : s.openAt r = some i)
    (hv : ∀ v ∈ s.stack[i]?, ∀ o ∈ v.objRef, s.gc.Alive o) :
    s.UpvalueWritten r ⟨.closed (s.stack[i]?.getD .nil)⟩ (s.closeUpvalueBarrier r).gc := by
  have hget := openAt_eq_some hr
  rw [Heap.get_eq, Option.map_eq_some_iff] at hget
  obtain ⟨x, hx, hvalue⟩ := hget
  have hclosed : Upvalue.close x.value s.stack = ⟨.closed (s.stack[i]?.getD .nil)⟩ := by
    rw [hvalue]
    rfl
  have hcell : (s.closeUpvalue r).gc.heap.cell ⟨.upvalue, r⟩ =
      some { x with value := Upvalue.close x.value s.stack } := by
    rw [closeUpvalue, Gc.modify, Heap.cell_modify_self, hx]
    rfl
  have heq : (s.closeUpvalueBarrier r).gc =
      (s.gc.modify r fun uv => Upvalue.close uv s.stack).barrierForwardVal x.color (s.stack[i]?.getD .nil) := by
    have hself : (s.closeUpvalue r).gc.heap.get r = some (Upvalue.close x.value s.stack) := by
      rw [Heap.get_eq, hcell]
      rfl
    have hcolor : (s.closeUpvalue r).gc.heap.color ⟨.upvalue, r⟩ = some x.color := by
      rw [Heap.color_eq, hcell]
      rfl
    rw [LuaState.closeUpvalueBarrier]
    simp only [hself, hcolor, Option.map_some, Option.getD_some, hclosed]
    rfl
  rw [heq, ← hclosed]
  refine h.writeUpvalue hx (f := fun uv => Upvalue.close uv s.stack) (fun o ho => ?_) fun c hc => ?_
  · cases hslot : s.stack[i]? with
    | none =>
      rw [hslot] at ho
      cases ho
    | some v =>
      rw [hslot] at ho
      exact hv v hslot o ho
  · rw [hclosed] at hc
    simpa [Obj.refs, Obj.vals, Upvalue.vals, Obj.upvalueRefs] using hc

/-- The list of open upvalues is shortened. -/
theorem Sound.setOpenUpvalues {ex : ObjRef → Prop} (h : s.Sound ex) {rs : List (GcRef .upvalue)}
    (hrs : ∀ r ∈ rs, s.gc.Alive ⟨_, r⟩) : Sound ex { s with openUpvalues := rs } := by
  refine h.own rfl rfl rfl rfl fun o ho => ?_
  have hroots := fun o ho => h.ok.roots o (mem_rootRefs.mpr (.inr (.inl ho)))
  rcases List.mem_append.mp ho with ho | ho
  · exact hroots o (List.mem_append_left _ ho)
  · rw [List.map_append] at ho
    rcases List.mem_append.mp ho with ho | ho
    · obtain ⟨r, hr, rfl⟩ := List.mem_map.mp ho
      exact hrs r hr
    · refine hroots o (List.mem_append_right _ ?_)
      rw [List.map_append]
      exact List.mem_append_right _ ho

/-- The upvalues at or above a level are closed one after the other. -/
theorem Sound.closeFromBarrier {level : ℕ} : ∀ {rs : List (GcRef .upvalue)} {s : LuaState}, s.Sound (fun _ => False) →
    (∀ r ∈ rs, s.gc.Alive ⟨_, r⟩) →
    (∀ r ∈ rs, ∀ i, s.openAt r = some i → level ≤ i → ∀ v ∈ s.stack[i]?, ∀ o ∈ v.objRef, s.gc.Alive o) →
    Sound (fun _ => False) (LuaState.closeFromBarrier level rs s)
  | [], _, h, hrs, _ => h.setOpenUpvalues hrs
  | r :: rs, s, h, hrs, hslots => by
    rw [LuaState.closeFromBarrier]
    split
    · next hany =>
      obtain ⟨i, hi, hle⟩ := (Option.any_eq_true _ _).mp hany
      have hw := h.closeUpvalueBarrier hi (hslots r (List.mem_cons_self ..) i hi (by simpa using hle))
      refine closeFromBarrier hw.sound (fun u hu => hw.alive _ (hrs u (List.mem_cons_of_mem _ hu))) fun u hu j hj hle => ?_
      have hne : u ≠ r := by
        rintro rfl
        rw [openAt, hw.get_self] at hj
        cases hj
      have hj : s.openAt u = some j := by
        rw [openAt, hw.get_ne u hne] at hj
        exact hj
      exact fun v hv o ho => hw.alive o (hslots u (List.mem_cons_of_mem _ hu) j hj hle v hv o ho)
    · exact h.setOpenUpvalues hrs

/-- `close_upvalues`, where the slots that are captured hold what is alive. -/
theorem Sound.closeUpvaluesBarrier (h : s.Sound fun _ => False) {level : ℕ}
    (hslots : ∀ r ∈ s.openUpvalues, ∀ i, s.openAt r = some i → level ≤ i → ∀ v ∈ s.stack[i]?, ∀ o ∈ v.objRef,
      s.gc.Alive o) : Sound (fun _ => False) (s.closeUpvaluesBarrier level) := by
  refine h.closeFromBarrier (fun r hr => h.ok.roots _ (mem_rootRefs.mpr (.inr (.inl ?_)))) hslots
  exact List.mem_append_right _ (List.mem_map_of_mem (List.mem_append_left _ hr))

/-! ### Assignment -/

/-- The slot of an open upvalue is assigned. -/
theorem Sound.setSlot {ex : ObjRef → Prop} (h : s.Sound ex) (hv : ∀ o ∈ v.objRef, s.gc.Alive o) (i : ℕ) :
    Sound ex { s with stack := s.stack.set i v } := by
  obtain ⟨-, -, hlive, hfunc⟩ := forall_ownVals.mp h.ok.ownVals
  have hset : ∀ {j : ℕ} {w : Val}, (s.stack.set i v)[j]? = some w → w = v ∨ s.stack[j]? = some w := by
    intro j w hw
    rw [List.getElem?_set] at hw
    split at hw
    · split at hw
      · cases hw
        exact .inl rfl
      · cases hw
    · exact .inr hw
  have hok : { s with stack := s.stack.set i v }.Ok := by
    refine h.ok.stack (fun j hj w hw => ?_) fun c hc w hw => ?_
    · rcases hset hw with rfl | hw
      · exact hv
      · exact hlive j hj w hw
    · rcases hset hw with rfl | hw
      · exact hv
      · exact hfunc c hc w hw
  exact h.own rfl rfl rfl rfl fun o ho => hok.roots o (mem_rootRefs.mpr (.inr (.inl ho)))

/-- `SETUPVAL`. -/
theorem Sound.setUpval (h : s.Sound fun _ => False) (hv : ∀ o ∈ v.objRef, s.gc.Alive o) :
    Sound (fun _ => False) (s.setUpval r v) := by
  cases hx : s.gc.heap.cell ⟨.upvalue, r⟩ with
  | none =>
    have hget : s.gc.heap.get r = none := by
      rw [Heap.get_eq, hx]
      rfl
    have hcolor : s.gc.heap.color ⟨.upvalue, r⟩ = none := by
      rw [Heap.color_eq, hx]
      rfl
    rw [LuaState.setUpval, hcolor, LuaState.setUpvalue, hget]
    exact h
  | some x =>
    have hget : s.gc.heap.get r = some x.value := by
      rw [Heap.get_eq, hx]
      rfl
    have hcolor : s.gc.heap.color ⟨.upvalue, r⟩ = some x.color := by
      rw [Heap.color_eq, hx]
      rfl
    have hrefs : ∀ c ∈ Obj.refs (k := .upvalue) (Upvalue.set x.value s.stack v).1, c ∈ v.objRef := by
      intro c hc
      rcases x with ⟨⟨i | w⟩, color, flags⟩
      · simp [Upvalue.set, Obj.refs, Obj.vals, Upvalue.vals, Obj.upvalueRefs] at hc
      · simpa [Upvalue.set, Obj.refs, Obj.vals, Upvalue.vals, Obj.upvalueRefs] using hc
    have hw := h.writeUpvalue hx (f := fun _ => (Upvalue.set x.value s.stack v).1) hv hrefs
    have hstack : (Upvalue.set x.value s.stack v).2 = s.stack ∨ ∃ i, (Upvalue.set x.value s.stack v).2 = s.stack.set i v := by
      rcases x with ⟨⟨i | w⟩, color, flags⟩
      · exact .inr ⟨i, rfl⟩
      · exact .inl rfl
    rw [LuaState.setUpval, hcolor, LuaState.setUpvalue, hget]
    rcases hstack with hstack | ⟨i, hstack⟩
    · simpa only [hstack] using hw.sound
    · simpa only [hstack] using hw.sound.setSlot (fun o ho => hw.alive o (hv o ho)) i

/-! ### Opening -/

/-- `find_upvalue`. -/
theorem Sound.findUpvalue (h : s.Sound fun _ => False) {idx : ℕ} (hfind : s.findUpvalue idx = some (s', r)) :
    s'.Sound fun _ => False := by
  rw [LuaState.findUpvalue] at hfind
  split at hfind
  · cases hfind
    exact h
  · obtain ⟨⟨g, r'⟩, halloc, heq⟩ := Option.map_eq_some_iff.mp hfind
    cases heq
    obtain ⟨hm, hr⟩ := Gc.Mutates.alloc h.ok.gc (by simp) halloc
      (by simp [Upvalue.newOpen, Obj.refs, Obj.vals, Upvalue.vals, Obj.upvalueRefs]) trivial
    have hnew : Sound (fun _ => False) { s with gc := g } :=
      h.mutates hm (fun _ => hm.keepsModes h.ok.gc (by simp)) (by simp) (by simp)
    refine hnew.setOpenUpvalues fun u hu => ?_
    rcases List.eq_or_mem_of_mem_insertIdx hu with rfl | hu
    · exact hr
    · refine hnew.ok.roots _ (mem_rootRefs.mpr (.inr (.inl ?_)))
      exact List.mem_append_right _ (List.mem_map_of_mem (List.mem_append_left _ hu))

end LuaState

end Rilua.Vm
