import Rilua.Vm.Gc.Keeps
import Rilua.Vm.Gc.Propagate
import Rilua.Vm.Gc.Reachable

/-! The mark phase as a whole: the roots, one object after the other, and the marking part of the atomic phase. When it
    is over every object is white or black, and what a black one refers to has been reached, weak entries apart. -/

namespace Rilua.Vm

open Gc

namespace Gc

variable {P : ObjRef → Prop} {ex : ObjRef → Prop} {g g' g'' : Gc} {o : ObjRef} {saved : List LuaThread}
  {pending pending' : List GrayItem} {item : GrayItem} {gray : List GrayItem}

/-! ### Steps of the mark phase -/

/-- The invariant of the mark phase, with no exception; only objects of `P` have been put on the gray list. -/
structure Marking (P : ObjRef → Prop) (saved : List LuaThread) (pending : List GrayItem) (g : Gc) : Prop where
  tri : TriInv saved pending (fun _ => False) g
  closed : Closed P g
  gray_mem : ∀ i ∈ g.gcState.gray, ∀ o, GrayItem.obj i = some o → P o

theorem Marks.grayagain_eq (h : Marks P g g') : g'.gcState.grayagain = g.gcState.grayagain := by rw [h.frame]

theorem Traverses.gray_mem (h : Traverses P g g') (hg : ∀ i ∈ g.gcState.gray, ∀ o, GrayItem.obj i = some o → P o) :
    ∀ i ∈ g'.gcState.gray, ∀ o, GrayItem.obj i = some o → P o := by
  intro i hi
  rcases h.gray_new i hi with hi | hP
  · exact hg i hi
  · exact hP

theorem Marking.marks (h : Marking P saved pending g) (hm : Marks P g g') : Marking P saved pending g' :=
  ⟨h.tri.marks hm, h.closed.traverses hm.traverses h.tri.names, hm.traverses.gray_mem h.gray_mem⟩

theorem Marking.pending_mono (h : Marking P saved pending g) (hp : ∀ i ∈ pending, i ∈ pending') :
    Marking P saved pending' g :=
  ⟨h.tri.step (.refl P g) (fun _ _ _ hx => hx) (fun _ hi => hi) hp, h.closed, h.gray_mem⟩

/-- An entry is taken off the gray list. -/
theorem pop_traverses (hgray : g.gcState.gray = item :: gray) :
    Traverses P g { g with gcState := { g.gcState with gray } } where
  frame := rfl
  slots_eq _ := rfl
  cell _ x hx := ⟨x, hx, rfl, rfl, .inl rfl⟩
  cell_none _ hx := hx
  weak_sub _ hr := hr
  gray_new i hi := .inl (by rw [hgray]; exact List.mem_cons_of_mem _ hi)

theorem listed_cons {i : GrayItem} {l : List GrayItem} : Listed o (i :: l) ↔ GrayItem.obj i = some o ∨ Listed o l := by
  simp [Listed]

/-- An object whose entry is taken off the gray list is an exception until it has been traversed. -/
theorem TriInv.pop (h : TriInv saved pending ex g) (hgray : g.gcState.gray = item :: gray) :
    TriInv saved pending (fun o => ex o ∨ GrayItem.obj item = some o)
      { g with gcState := { g.gcState with gray } } where
  white := h.white
  names := (pop_traverses (P := fun _ => True) hgray).toExtends.namesOk h.names
  not_other := h.not_other
  gray o x ho hx hc hf := by
    have hl := h.gray o x (fun he => ho (.inl he)) hx hc hf
    rw [hgray, List.cons_append, listed_cons] at hl
    exact hl.resolve_left fun he => ho (.inr he)
  black o x ho hx hc hf := (h.black o x (fun he => ho (.inl he)) hx hc hf).mono (pop_traverses (P := fun _ => True) hgray)
    h.white h.names fun _ hi => hi

/-- An object that is no longer waiting for the atomic phase is an exception until it has been traversed. -/
theorem TriInv.drop (h : TriInv saved (item :: pending) ex g) :
    TriInv saved pending (fun o => ex o ∨ GrayItem.obj item = some o) g where
  white := h.white
  names := h.names
  not_other := h.not_other
  gray o x ho hx hc hf := by
    have hl := h.gray o x (fun he => ho (.inl he)) hx hc hf
    rw [listed_append, listed_cons] at hl
    rw [listed_append]
    rcases hl with hl | hl | hl
    · exact .inl hl
    · exact absurd (.inr hl) ho
    · exact .inr hl
  black o x ho hx hc hf := by
    have hb := h.black o x (fun he => ho (.inl he)) hx hc hf
    obtain ⟨k, r⟩ := o
    cases k with
    | thread =>
      refine ⟨hb.1, hb.2.imp_left fun hl => ?_⟩
      rw [listed_cons] at hl
      exact hl.resolve_left fun he => ho (.inr he)
    | string | table | closure | upvalue | userdata => exact hb

theorem TriInv.congr {e : ObjRef → Prop} (h : TriInv saved pending ex g) (hex : ∀ o, ex o → e o) :
    TriInv saved pending e g := h.weaken hex

/-! ### What is traversed again -/

/-- Traversing a table leaves the list of what is traversed again as it is. -/
theorem traverseTable_grayagain (hw : g.currentWhite.isWhite = true) (r : GcRef .table) :
    (g.traverseTable r).gcState.grayagain = g.gcState.grayagain := by
  cases hskip : (g.heap.arena .table).isSkipTraverseOrFrozen r with
  | true => rw [traverseTable, hskip, if_pos rfl]
  | false =>
    cases hget : g.heap.get r with
    | none => rw [traverseTable, hskip, if_neg (by simp), hget]
    | some t =>
      set m := g.checkWeakMode (Table.metatable t)
      set g₀ : Gc := { g with heap := g.heap.setColor ⟨_, r⟩ .black }
      set g₁ : Gc := g₀.markTable? (Table.metatable t)
      obtain ⟨h₁, -⟩ := markTable?_marks (P := fun _ => True) (g := g₀) hw (r := Table.metatable t) fun _ _ => trivial
      set g₂ : Gc := if m.1 || m.2 then
          { g₁ with gcState := { g₁.gcState with weakTables := g₁.gcState.weakTables ++ [r] } }
        else g₁ with hg₂
      have h₂ : g₂.gcState.grayagain = g₁.gcState.grayagain ∧ g₂.currentWhite = g₁.currentWhite := by
        rw [hg₂]
        split <;> exact ⟨rfl, rfl⟩
      have hw₂ : g₂.currentWhite.isWhite = true := by rw [h₂.2, h₁.currentWhite_eq]; exact hw
      have heq : g.traverseTable r = if m.1 && m.2 then g₂
          else (if m.2 then g₂ else g₂.markValues (Table.array t)).markValues (hashMarkValues t m.1 m.2) := by
        rw [traverseTable, hskip, if_neg (by simp), hget]
      obtain ⟨h₃, -⟩ := mark_strong (P := fun _ => True) (refClosed_true g₂) hw₂ (t := t) (m := m)
        (fun _ _ _ _ => trivial) heq
      rw [h₃.grayagain_eq, h₂.1, h₁.grayagain_eq]

theorem traverseClosure_grayagain (hw : g.currentWhite.isWhite = true) (r : GcRef .closure) :
    (g.traverseClosure r).gcState.grayagain = g.gcState.grayagain := by
  rw [traverseClosure]
  split
  · rfl
  · next cl _ =>
    set g₀ : Gc := { g with heap := g.heap.setColor ⟨_, r⟩ .black }
    cases cl with
    | lua cl =>
      have hw₀ : g₀.currentWhite.isWhite = true := hw
      have h₁ : Marks (fun _ => True) g₀ (g₀.markTable cl.env) := (markTable_marks hw₀ trivial).1
      have hw₁ : (g₀.markTable cl.env).currentWhite.isWhite = true := h₁.currentWhite_eq ▸ hw
      have h₂ : Marks (fun _ => True) _ ((g₀.markTable cl.env).markUpvalues cl.upvalues) :=
        (markUpvalues_marks (refClosed_true _) hw₁ fun _ _ => trivial).1
      have h₃ : Marks (fun _ => True) _ (((g₀.markTable cl.env).markUpvalues cl.upvalues).markValues
          cl.proto.allConstants) :=
        (markValues_marks (refClosed_true _) (h₂.currentWhite_eq ▸ hw₁) fun _ _ _ _ => trivial).1
      exact h₃.grayagain_eq.trans (h₂.grayagain_eq.trans h₁.grayagain_eq)
    | rust cl =>
      have hw₀ : g₀.currentWhite.isWhite = true := hw
      have h₁ : Marks (fun _ => True) g₀ (g₀.markTable? cl.env) := (markTable?_marks hw₀ fun _ _ => trivial).1
      have h₂ : Marks (fun _ => True) _ ((g₀.markTable? cl.env).markValues cl.upvalues) :=
        (markValues_marks (refClosed_true _) (h₁.currentWhite_eq ▸ hw) fun _ _ _ _ => trivial).1
      exact h₂.grayagain_eq.trans h₁.grayagain_eq

/-- A coroutine that has been traversed is put on the list. -/
theorem traverseThread_grayagain (hw : g.currentWhite.isWhite = true) (r : GcRef .thread) :
    (g.traverseThread r).gcState.grayagain = g.gcState.grayagain ∨
      (g.traverseThread r).gcState.grayagain = g.gcState.grayagain ++ [.thread r] := by
  rw [traverseThread]
  split
  · exact .inl rfl
  · next t _ =>
    let t : LuaThread := t
    set g₀ : Gc := { g with heap := g.heap.setColor ⟨_, r⟩ .black }
    have hw₀ : g₀.currentWhite.isWhite = true := hw
    have h₁ : Marks (fun _ => True) g₀ (g₀.markTable t.global) := (markTable_marks hw₀ trivial).1
    have hw₁ : (g₀.markTable t.global).currentWhite.isWhite = true := h₁.currentWhite_eq ▸ hw
    have h₂ : Marks (fun _ => True) _ ((g₀.markTable t.global).markValue t.hookFunc) :=
      (markValue_marks (refClosed_true _) hw₁ fun _ _ => trivial).1
    have h₃ : Marks (fun _ => True) _ (((g₀.markTable t.global).markValue t.hookFunc).markThreadStack t) :=
      (markThreadStack_marks (refClosed_true _) (h₂.currentWhite_eq ▸ hw₁) fun _ _ => trivial).1
    refine .inr (congrArg (· ++ _) ?_)
    rw [h₃.grayagain_eq, h₂.grayagain_eq, h₁.grayagain_eq]

/-! ### One object after the other -/

/-- The collector goes on from `g` to `g'`, and comes nearer to the end of the list by `n`. -/
structure Advances (P : ObjRef → Prop) (saved : List LuaThread) (pending : List GrayItem) (n : ℕ) (g g' : Gc) :
    Prop where
  marking : Marking P saved pending g'
  traverses : Traverses P g g'
  potential_le : g'.potential + n ≤ g.potential
  threads : g.ThreadsListed → g'.ThreadsListed
  grayagain_sub : ∀ i ∈ g.gcState.grayagain, i ∈ g'.gcState.grayagain
  grayagain_new : ∀ i ∈ g'.gcState.grayagain, i ∈ g.gcState.grayagain ∨ ∀ o, GrayItem.obj i = some o → P o

/-- An object that has been taken off the gray list is traversed. -/
theorem Advances.of_traversed {g₁ : Gc} {a : ObjRef} (h : Marking P saved pending g) (hgray : g.gcState.gray = item :: gray)
    (hitem : GrayItem.obj item = some a)
    (hag : g₁.gcState.grayagain = g.gcState.grayagain ∨ g₁.gcState.grayagain = g.gcState.grayagain ++ [item])
    (ht : TriInv saved pending (fun o => False ∨ o = a) { g with gcState := { g.gcState with gray } } →
      Closed P { g with gcState := { g.gcState with gray } } → P a →
        Traversed P saved pending (fun _ => False) { g with gcState := { g.gcState with gray } } g₁) :
    Advances P saved pending 1 g g₁ := by
  have hpop := pop_traverses (P := P) hgray
  have htri := (h.tri.pop hgray).congr (e := fun o => False ∨ o = a) (by
    rintro o (ho | ho)
    · exact .inl ho
    · rw [hitem] at ho
      exact .inr (Option.some.inj ho).symm)
  have hP : P a := h.gray_mem item (hgray ▸ List.mem_cons_self ..) a hitem
  have htrav := ht htri (h.closed.traverses hpop h.tri.names) hP
  have hall := hpop.trans htrav.traverses
  refine ⟨⟨htrav.tri, h.closed.traverses hall h.tri.names, hall.gray_mem h.gray_mem⟩, hall, ?_,
    fun hl => htrav.threads (hl.congr rfl fun _ => Iff.rfl), fun i hi => ?_, fun i hi => ?_⟩
  · have hle := htrav.potential_le
    simp only [potential] at hle ⊢
    rw [hgray, List.length_cons]
    omega
  · rcases hag with hag | hag <;> rw [hag]
    · exact hi
    · exact List.mem_append_left _ hi
  · rcases hag with hag | hag <;> rw [hag] at hi
    · exact .inl hi
    · rcases List.mem_append.mp hi with hi | hi
      · exact .inl hi
      · obtain rfl := List.mem_singleton.mp hi
        refine .inr fun o ho => ?_
        rw [hitem] at ho
        cases ho
        exact hP

theorem propagateOne_done (h : Marking P saved pending g) (hdone : g.propagateOne = .done g') :
    Advances P saved pending 1 g g' := by
  rw [propagateOne] at hdone
  cases hgray : g.gcState.gray with
  | nil => rw [hgray] at hdone; cases hdone
  | cons item gray =>
    rw [hgray] at hdone
    cases item with
    | table r =>
      cases hdone
      exact .of_traversed h hgray rfl
        (.inl (traverseTable_grayagain (g := { g with gcState := { g.gcState with gray } }) h.tri.white r))
        traverseTable_spec
    | closure r =>
      cases hdone
      exact .of_traversed h hgray rfl
        (.inl (traverseClosure_grayagain (g := { g with gcState := { g.gcState with gray } }) h.tri.white r))
        traverseClosure_spec
    | thread r =>
      cases hdone
      exact .of_traversed h hgray rfl (traverseThread_grayagain (g := { g with gcState := { g.gcState with gray } })
        h.tri.white r) traverseThread_spec
    | mainThread => cases hdone

/-- The entry of the main thread is taken off the list. -/
theorem propagateOne_needMainThread (h : Marking P saved pending g) (hneed : g.propagateOne = .needMainThread g') :
    Advances P saved pending 1 g g' := by
  rw [propagateOne] at hneed
  cases hgray : g.gcState.gray with
  | nil => rw [hgray] at hneed; cases hneed
  | cons item gray =>
    rw [hgray] at hneed
    cases item with
    | mainThread =>
      cases hneed
      have hpop := pop_traverses (P := P) hgray
      have htri := (h.tri.pop hgray).congr (e := fun _ => False) (by
        rintro o (ho | ho)
        · exact ho
        · cases ho)
      refine ⟨⟨htri, h.closed.traverses hpop h.tri.names, hpop.gray_mem h.gray_mem⟩, hpop, ?_,
        fun hl => hl.congr rfl fun _ => Iff.rfl, fun _ hi => hi, fun _ hi => .inl hi⟩
      simp only [potential]
      rw [hgray, List.length_cons]
      omega
    | table | closure | thread => cases hneed

theorem propagateOne_empty (hempty : g.propagateOne = .empty) : g.gcState.gray = [] := by
  rw [propagateOne] at hempty
  cases hgray : g.gcState.gray with
  | nil => rfl
  | cons item gray =>
    rw [hgray] at hempty
    cases item <;> cases hempty

theorem Advances.trans {n m : ℕ} (h : Advances P saved pending n g g') (h' : Advances P saved pending m g' g'') :
    Advances P saved pending (n + m) g g'' where
  marking := h'.marking
  traverses := h.traverses.trans h'.traverses
  potential_le := by
    have h₁ := h.potential_le
    have h₂ := h'.potential_le
    omega
  threads hl := h'.threads (h.threads hl)
  grayagain_sub i hi := h'.grayagain_sub i (h.grayagain_sub i hi)
  grayagain_new i hi := by
    rcases h'.grayagain_new i hi with hi | hP
    · exact h.grayagain_new i hi
    · exact .inr hP

theorem Advances.refl (h : Marking P saved pending g) : Advances P saved pending 0 g g :=
  ⟨h, .refl P g, le_rfl, id, fun _ hi => hi, fun _ hi => .inl hi⟩

/-- When all gray objects have been traversed, the gray list is empty. -/
theorem propagateAllFuel_spec (fuel : ℕ) : ∀ {g : Gc}, Marking P saved pending g → g.potential ≤ fuel →
    (∃ n, Advances P saved pending n g (propagateAllFuel fuel g)) ∧ (propagateAllFuel fuel g).gcState.gray = [] := by
  induction fuel with
  | zero =>
    intro g h hle
    refine ⟨⟨0, .refl h⟩, List.length_eq_zero_iff.mp ?_⟩
    rw [potential] at hle
    rw [propagateAllFuel]
    omega
  | succ fuel ih =>
    have hgo : ∀ {g g' : Gc}, Advances P saved pending 1 g g' → g.potential ≤ fuel + 1 →
        (∃ n, Advances P saved pending n g (propagateAllFuel fuel g')) ∧
          (propagateAllFuel fuel g').gcState.gray = [] := by
      intro g g' hadv hle
      have hlt := hadv.potential_le
      obtain ⟨⟨n, hn⟩, hempty⟩ := ih hadv.marking (by omega)
      exact ⟨⟨_, hadv.trans hn⟩, hempty⟩
    intro g h hle
    rw [propagateAllFuel]
    cases hone : g.propagateOne with
    | done g' => exact hgo (propagateOne_done h hone) hle
    | needMainThread g' => exact hgo (propagateOne_needMainThread h hone) hle
    | empty => exact ⟨⟨0, .refl h⟩, propagateOne_empty hone⟩

theorem propagateAll_spec (h : Marking P saved pending g) :
    (∃ n, Advances P saved pending n g g.propagateAll) ∧ g.propagateAll.gcState.gray = [] := by
  refine propagateAllFuel_spec g.work h ?_
  have h₁ := Heap.whites_le g.heap .table
  have h₂ := Heap.whites_le g.heap .closure
  have h₃ := Heap.whites_le g.heap .thread
  rw [Heap.slots] at h₁ h₂ h₃
  rw [potential, work]
  omega

/-! ### The atomic phase -/

/-- The hooks of coroutines that are traversed again have been marked the first time; they are not marked again. -/
def HooksMarked (pending : List GrayItem) (g : Gc) : Prop :=
  ∀ r x, Listed ⟨.thread, r⟩ pending → g.heap.cell ⟨.thread, r⟩ = some x →
    g.SettledVal (ThreadFields.hookFunc (LuaThread.toThreadFields x.value))

theorem HooksMarked.mono (h : HooksMarked pending g) (ht : Traverses P g g') (hw : g.currentWhite.isWhite = true)
    (hp : ∀ i ∈ pending', i ∈ pending) : HooksMarked pending' g' := by
  intro r y hl hy
  obtain ⟨x, hx, hv, -⟩ := ht.cell_rev hy
  rw [hv]
  exact ht.settledVal hw (h r x (hl.mono hp) hx)

/-- An object on the list of what is traversed again is an exception no longer when that has been done. -/
theorem retraverse_spec (h : Marking P saved (item :: pending) g) (hP : ∀ o, GrayItem.obj item = some o → P o)
    (hhook : HooksMarked (item :: pending) g) :
    Marking P saved pending (g.retraverse item) ∧ Traverses P g (g.retraverse item) := by
  have hdone : ∀ {g' : Gc}, TriInv saved pending (fun _ => False) g' → Traverses P g g' →
      Marking P saved pending g' ∧ Traverses P g g' := fun htri ht =>
    ⟨⟨htri, h.closed.traverses ht h.tri.names, ht.gray_mem h.gray_mem⟩, ht⟩
  have hgray : ∀ {a : ObjRef} {g₁ : Gc}, GrayItem.obj item = some a →
      (TriInv saved pending (fun o => False ∨ o = a) { g with heap := g.heap.setColor a .gray } →
        Closed P { g with heap := g.heap.setColor a .gray } → P a →
          Traversed P saved pending (fun _ => False) { g with heap := g.heap.setColor a .gray } g₁) →
      Marking P saved pending g₁ ∧ Traverses P g g₁ := by
    intro a g₁ hitem ht
    have hset : Traverses P g { g with heap := g.heap.setColor a .gray } := setColor_traverses g rfl (hP a hitem)
    have htri := (h.tri.drop.congr (e := fun o => False ∨ o = a) (by
      rintro o (ho | ho)
      · exact .inl ho
      · rw [hitem] at ho
        exact .inr (Option.some.inj ho).symm)).step hset
      (fun o x ho hx => cell_setColor_ne (fun he => ho (.inr he)) hx) (fun _ hi => hi) fun _ hi => hi
    have htrav := ht htri (h.closed.traverses hset h.tri.names) (hP a hitem)
    exact hdone htrav.tri (hset.trans htrav.traverses)
  cases item with
  | table r => exact hgray rfl traverseTable_spec
  | closure r => exact hgray rfl traverseClosure_spec
  | mainThread =>
    refine hdone (h.tri.drop.congr ?_) (.refl P g)
    rintro o (ho | ho)
    · exact ho
    · cases ho
  | thread r =>
    have hPr : P ⟨_, r⟩ := hP _ rfl
    have htri := h.tri.drop.congr (e := fun o => False ∨ o = ⟨_, r⟩) (by
      rintro o (ho | ho)
      · exact .inl ho
      · exact .inr (Option.some.inj ho).symm)
    rw [retraverse]
    cases hget : g.heap.get r with
    | none =>
      exact hdone (htri.lift fun x hx _ => by rw [cell_eq_none hget] at hx; cases hx) (.refl P g)
    | some t =>
      obtain ⟨x, hx, rfl⟩ := exists_cell hget
      set t : LuaThread := x.value with ht
      have hrefs : ∀ c ∈ Obj.refs (k := .thread) t, P c := h.closed.refs _ x (by simp) hPr hx
      set g₀ : Gc := { g with heap := g.heap.setColor ⟨_, r⟩ .black } with hg₀
      have ht₀ := setColor_traverses (o := ⟨_, r⟩) g (c := .black) rfl hPr
      have hcl₀ : RefClosed P g₀ := ht₀.refClosed h.closed.refs
      have hw : g₀.currentWhite.isWhite = true := h.tri.white
      obtain ⟨h₁, hs₁⟩ := markTable_marks hw (hrefs _ (refs_thread t).1)
      have hw₁ : (g₀.markTable t.global).currentWhite.isWhite = true := h₁.currentWhite_eq ▸ hw
      obtain ⟨h₂, hs₂, hu₂⟩ := markThreadStack_marks (hcl₀.marks h₁) hw₁ hrefs
      have h₁₂ : Marks P g₀ ((g₀.markTable t.global).markThreadStack t) := h₁.trans h₂ hw
      have hall := ht₀.trans h₁₂.traverses
      refine hdone (thread_blackened htri h₁₂ fun y hy c hc => ?_) hall
      rw [hx] at hy
      cases hy
      rcases mem_refs_thread hc with rfl | hc | ⟨v, hv, hvc⟩ | ⟨uv, huv, rfl⟩ | ⟨uv, huv, rfl⟩
      · exact h₂.settled hw₁ hs₁
      · exact hall.settled h.tri.white (hhook r x ⟨_, List.mem_cons_self .., rfl⟩ hx c hc)
      · exact hs₂ v hv c hvc
      · exact hu₂ uv (.inl huv)
      · exact hu₂ uv (.inr huv)

theorem foldl_retraverse_spec : ∀ {pending : List GrayItem} {g : Gc}, Marking P saved pending g →
    (∀ i ∈ pending, ∀ o, GrayItem.obj i = some o → P o) → HooksMarked pending g →
      Marking P saved [] (pending.foldl retraverse g) ∧ Traverses P g (pending.foldl retraverse g)
  | [], g, h, _, _ => ⟨h, .refl P g⟩
  | item :: pending, g, h, hP, hhook => by
    obtain ⟨h₁, ht₁⟩ := retraverse_spec h (hP item (List.mem_cons_self ..)) hhook
    obtain ⟨h₂, ht₂⟩ := foldl_retraverse_spec h₁ (fun i hi => hP i (List.mem_cons_of_mem _ hi))
      (hhook.mono ht₁ h.tri.white fun i hi => List.mem_cons_of_mem _ hi)
    exact ⟨h₂, ht₁.trans ht₂⟩

/-- What is on the stack of a coroutine that has been reached, or of a thread that will come back, is settled. -/
theorem Marking.held_settled (h : Marking P saved [] g) (hempty : g.gcState.gray = [])
    (hsaved : ∀ t ∈ saved, ∀ v ∈ ThreadFields.liveStack (LuaThread.toThreadFields t), g.SettledVal v)
    (hfrozen : ∀ r x, g.heap.cell ⟨.thread, r⟩ = some x → x.flags.frozen = false) {uv : GcRef .upvalue} {v : Val}
    (hheld : Held saved g uv v) : g.SettledVal v := by
  rcases hheld with ⟨t, ht, -, hv⟩ | ⟨r, x, hx, hc, -, hv⟩
  · exact hsaved t ht v hv
  · have hnone : ¬ Listed ⟨.thread, r⟩ (g.gcState.gray ++ []) := by
      rw [hempty]
      rintro ⟨i, hi, -⟩
      cases hi
    have hblack : x.color = .black := by
      cases hcol : x.color with
      | black => rfl
      | gray => exact absurd (h.tri.gray _ x id hx hcol (hfrozen r x hx)) hnone
      | white0 | white1 => rw [hcol] at hc; cases hc
    rcases (h.tri.black _ x id hx hblack (hfrozen r x hx)).2 with hl | hs
    · obtain ⟨i, hi, -⟩ := hl
      cases hi
    · exact fun c hc => hs c ((refs_thread x.value).2.1 v (.inr hv) c hc)

/-! ### What holds of a black object when the heap changes -/

theorem mem_refs_of_vals {k : ObjKind} {x : Obj k} {v : Val} (hv : v ∈ Obj.vals x) {c : ObjRef} (hc : c ∈ v.objRef) :
    c ∈ Obj.refs x :=
  List.mem_append_left _ (List.mem_filterMap.mpr ⟨v, hv, hc⟩)

theorem mem_vals_node {t : Table} {n : Node} (hn : n ∈ t.nodes) (hk : n.key ≠ .nil) (hv : n.value ≠ .nil) {v : Val}
    (h : v = n.key ∨ v = n.value) : v ∈ t.vals := by
  refine List.mem_append_right _ (List.mem_flatMap.mpr ⟨n, hn, ?_⟩)
  rw [if_neg (by simp [hk, hv])]
  simpa using h

theorem TableOk.transfer {r : GcRef .table} {t : Table} (h : g.TableOk r t)
    (hset : ∀ o ∈ Obj.refs (k := .table) t, g.Settled o → g'.Settled o)
    (hweak : ∀ r ∈ g.gcState.weakTables, r ∈ g'.gcState.weakTables)
    (hmode : r ∈ g.gcState.weakTables → ModeLe (g.checkWeakMode t.metatable) (g'.checkWeakMode t.metatable)) :
    g'.TableOk r t := by
  have hentry : ∀ {weak weak' : Bool} {v : Val}, v ∈ t.vals → (r ∈ g.gcState.weakTables → weak = true → weak' = true) →
      g.EntryOk r weak v → g'.EntryOk r weak' v := by
    rintro weak weak' v hmem hle (hv | ⟨hv, hr⟩)
    · exact .inl fun o ho => hset o (mem_refs_of_vals (k := .table) (List.mem_append_right _ hmem) ho) (hv o ho)
    · exact .inr ⟨hle hr hv, hweak r hr⟩
  refine ⟨fun mt hmt => hset _ ?_ (h.metatable mt hmt), fun v hv =>
    hentry (List.mem_append_left _ hv) (fun hr => (hmode hr).2) (h.array v hv),
    fun n hn hk hv => hentry (mem_vals_node hn hk hv (.inl rfl)) (fun hr => (hmode hr).1) (h.key n hn hk hv),
    fun n hn hk hv => hentry (mem_vals_node hn hk hv (.inr rfl)) (fun hr => (hmode hr).2) (h.value n hn hk hv)⟩
  rw [Option.mem_def] at hmt
  exact mem_refs_of_vals (k := .table) (v := .table mt) (List.mem_append_left _ (by simp [hmt])) rfl

/-- The metatable that decides whether an object is weak. -/
def Obj.weakMeta : {k : ObjKind} → Obj k → Option (GcRef .table)
  | .table, t => Table.metatable t
  | .string, _ | .closure, _ | .upvalue, _ | .userdata, _ | .thread, _ => none

theorem BlackOk.transfer {x : Obj o.kind} (h : BlackOk saved pending g o x)
    (hset : ∀ c ∈ Obj.refs x, g.Settled c → g'.Settled c)
    (hweak : ∀ r ∈ g.gcState.weakTables, r ∈ g'.gcState.weakTables)
    (hmode : ∀ r ∈ g.gcState.weakTables, o = ⟨_, r⟩ →
      ModeLe (g.checkWeakMode (Obj.weakMeta x)) (g'.checkWeakMode (Obj.weakMeta x)))
    (hheld : ∀ uv v, Held saved g uv v → Held saved g' uv v) : BlackOk saved pending g' o x := by
  obtain ⟨k, r⟩ := o
  cases k with
  | string => trivial
  | closure | userdata => exact fun c hc => hset c hc (h c hc)
  | upvalue => exact fun v hv => (h v hv).imp (fun hs o ho => hset o (mem_refs_of_vals (k := .upvalue) hv ho) (hs o ho)) (hheld r v)
  | thread =>
    have hhook : ∀ c ∈ (ThreadFields.hookFunc (LuaThread.toThreadFields x)).objRef, c ∈ Obj.refs (k := .thread) x :=
      (refs_thread x).2.1 _ (.inl rfl)
    exact ⟨fun o ho => hset o (hhook o ho) (h.1 o ho), h.2.imp_right fun hs c hc => hset c hc (hs c hc)⟩
  | table =>
    have h : g.TableOk r x := h
    exact h.transfer hset hweak fun hr => hmode r hr rfl

/-! ### Finalization -/

theorem separate_cell (g : Gc) (r : GcRef .userdata) (o : ObjRef) : (g.separate r).heap.cell o =
    if o = ⟨_, r⟩ then ((g.heap.modify r fun ud : Userdata => { ud with finalized := true }).cell o).map
      fun x => { x with color := .gray } else g.heap.cell o := by
  rw [separate, Heap.cell_setColor]
  split_ifs with ho
  · rfl
  · exact Heap.cell_modify_ne _ _ _ ho

/-- The userdata is gray, and flagged. -/
theorem separate_cell_self {r : GcRef .userdata} {x : Cell Userdata} (hx : g.heap.cell ⟨_, r⟩ = some x) :
    (g.separate r).heap.cell ⟨_, r⟩ =
      some { x with value := { x.value with finalized := true }, color := .gray } := by
  rw [separate_cell, if_pos rfl, Heap.cell_modify_self, hx]
  rfl

theorem separate_cell_none {r : GcRef .userdata} (hx : g.heap.cell ⟨_, r⟩ = none) :
    (g.separate r).heap.cell ⟨_, r⟩ = none := by
  rw [separate_cell, if_pos rfl, Heap.cell_modify_self, hx]
  rfl

theorem separate_settled {r : GcRef .userdata} (hw : g.currentWhite.isWhite = true) (hs : g.Settled o) :
    (g.separate r).Settled o := by
  intro y hy hc
  by_cases ho : o = ⟨_, r⟩
  · subst ho
    cases hx : g.heap.cell ⟨.userdata, r⟩ with
    | none => rw [separate_cell_none hx] at hy; cases hy
    | some x =>
      rw [separate_cell_self hx] at hy
      cases hy
      have hgray : Color.gray = g.currentWhite := hc
      rw [← hgray] at hw
      cases hw
  · rw [separate_cell, if_neg ho] at hy
    exact hs y hy hc

theorem TriInv.separate (h : TriInv saved [] ex g) {r : GcRef .userdata} :
    TriInv saved [] (fun o => ex o ∨ o = ⟨_, r⟩) (g.separate r) := by
  have hkeeps : Keeps g (g.separate r) := Keeps.markSteps.separate g r
  have hext : Extends g (g.separate r) := ⟨hkeeps.tmNames_eq, fun s x hx => (hkeeps.get_eq .string s (by simp)).trans hx,
    fun t x hx => (hkeeps.get_eq .table t (by simp)).trans hx⟩
  have hcell : ∀ o x, ¬ (ex o ∨ o = ⟨_, r⟩) → (g.separate r).heap.cell o = some x → g.heap.cell o = some x := by
    intro o x ho hx
    rw [separate_cell, if_neg fun he => ho (.inr he)] at hx
    exact hx
  refine ⟨h.white, hext.namesOk h.names, fun o y hy => ?_, fun o x ho hx hc hf => ?_, fun o x ho hx hc hf => ?_⟩
  · by_cases ho : o = ⟨_, r⟩
    · subst ho
      cases hx : g.heap.cell ⟨.userdata, r⟩ with
      | none => rw [separate_cell_none hx] at hy; cases hy
      | some x =>
        rw [separate_cell_self hx] at hy
        cases hy
        exact Color.ne_otherWhite h.white rfl
    · rw [separate_cell, if_neg ho] at hy
      exact h.not_other o y hy
  · exact h.gray o x (fun he => ho (.inl he)) (hcell o x ho hx) hc hf
  · refine (h.black o x (fun he => ho (.inl he)) (hcell o x ho hx) hc hf).transfer
      (fun o _ hs => separate_settled h.white hs) (fun _ hr => hr) (fun _ _ _ => ?_) fun uv v hv => ?_
    · rw [hkeeps.checkWeakMode_eq]
      exact .refl _
    · rcases hv with hv | ⟨t, y, hy, hrest⟩
      · exact .inl hv
      · refine .inr ⟨t, y, ?_, hrest⟩
        rw [separate_cell, if_neg (by simp)]
        exact hy

/-- Sets the flag of a userdata. -/
def Obj.finalize : {k : ObjKind} → Obj k → Obj k
  | .userdata, ud => { ud with finalized := true : Userdata }
  | .string, x | .table, x | .closure, x | .upvalue, x | .thread, x => x

theorem Obj.refs_finalize {k : ObjKind} (x : Obj k) : Obj.refs (Obj.finalize x) = Obj.refs x := by
  cases k <;> rfl

theorem Obj.finalize_idem {k : ObjKind} (x : Obj k) : Obj.finalize (Obj.finalize x) = Obj.finalize x := by
  cases k <;> rfl

/-- The collector has recoloured objects of `P` and flagged userdata as finalized, between `g` and `g'`. -/
structure Recolors (P : ObjRef → Prop) (g g' : Gc) : Prop where
  frame : g' = { g with
    heap := g'.heap
    gcState := { g.gcState with
      gray := g'.gcState.gray
      grayagain := g'.gcState.grayagain
      weakTables := g'.gcState.weakTables
      tmudata := g'.gcState.tmudata } }
  cell : ∀ o x, g.heap.cell o = some x → ∃ y, g'.heap.cell o = some y ∧
    (y.value = x.value ∨ y.value = Obj.finalize x.value) ∧ y.flags = x.flags ∧
      (y.color = x.color ∨ y.color.isWhite = false ∧ P o)
  cell_none : ∀ o, g.heap.cell o = none → g'.heap.cell o = none

namespace Recolors

theorem of_traverses (h : Traverses P g g') : Recolors P g g' where
  frame := by
    have hf := h.frame
    rw [hf]
  cell o x hx := by
    obtain ⟨y, hy, hv, hrest⟩ := h.cell o x hx
    exact ⟨y, hy, .inl hv, hrest⟩
  cell_none := h.cell_none

theorem refl (P : ObjRef → Prop) (g : Gc) : Recolors P g g := of_traverses (.refl P g)

theorem trans (h : Recolors P g g') (h' : Recolors P g' g'') : Recolors P g g'' where
  frame := by
    have h₁ := h.frame
    have h₂ := h'.frame
    rw [h₁] at h₂
    exact h₂
  cell o x hx := by
    obtain ⟨y, hy, hv, hf, hc⟩ := h.cell o x hx
    obtain ⟨z, hz, hv', hf', hc'⟩ := h'.cell o y hy
    refine ⟨z, hz, ?_, hf'.trans hf, ?_⟩
    · rcases hv with hv | hv <;> rcases hv' with hv' | hv'
      · exact .inl (hv'.trans hv)
      · exact .inr (by rw [hv', hv])
      · exact .inr (hv'.trans hv)
      · exact .inr (by rw [hv', hv, Obj.finalize_idem])
    · rcases hc' with hc' | hc'
      · rw [hc']
        exact hc
      · exact .inr hc'
  cell_none o hx := h'.cell_none o (h.cell_none o hx)

theorem cell_rev (h : Recolors P g g') {y : Cell (Obj o.kind)} (hy : g'.heap.cell o = some y) :
    ∃ x, g.heap.cell o = some x ∧ (y.value = x.value ∨ y.value = Obj.finalize x.value) ∧ y.flags = x.flags ∧
      (y.color = x.color ∨ y.color.isWhite = false ∧ P o) := by
  cases hx : g.heap.cell o with
  | none => rw [h.cell_none o hx] at hy; cases hy
  | some x =>
    obtain ⟨y', hy', hrest⟩ := h.cell o x hx
    rw [hy] at hy'
    cases hy'
    exact ⟨x, rfl, hrest⟩

theorem currentWhite_eq (h : Recolors P g g') : g'.currentWhite = g.currentWhite := by rw [h.frame]

theorem settled (h : Recolors P g g') (hw : g.currentWhite.isWhite = true) (hs : g.Settled o) : g'.Settled o := by
  intro y hy hc
  obtain ⟨x, hx, -, hf, hcol⟩ := h.cell_rev hy
  rw [h.currentWhite_eq] at hc
  rcases hcol with hcol | ⟨hcol, -⟩
  · rw [hf]
    exact hs x hx (hcol ▸ hc)
  · rw [hc, hw] at hcol
    cases hcol

theorem separate (g : Gc) {r : GcRef .userdata} (hP : P ⟨_, r⟩) : Recolors P g (g.separate r) where
  frame := rfl
  cell o x hx := by
    by_cases ho : o = ⟨_, r⟩
    · subst ho
      exact ⟨_, separate_cell_self hx, .inr rfl, rfl, .inr ⟨rfl, hP⟩⟩
    · exact ⟨x, by rw [separate_cell, if_neg ho]; exact hx, .inl rfl, rfl, .inl rfl⟩
  cell_none o hx := by
    by_cases ho : o = ⟨_, r⟩
    · subst ho
      exact separate_cell_none hx
    · rw [separate_cell, if_neg ho]
      exact hx

end Recolors

theorem Closed.separate (h : Closed P g) (r : GcRef .userdata) : Closed P (g.separate r) := by
  have hrec : Recolors (fun _ => True) g (g.separate r) := .separate g trivial
  refine ⟨fun o y hk hP hy c hc => ?_, fun t y hP hy hf v hv o ho => ?_, fun o y hy => ?_⟩
  · obtain ⟨x, hx, hv, -⟩ := hrec.cell_rev hy
    refine h.refs o x hk hP hx c ?_
    rcases hv with hv | hv
    · exact hv ▸ hc
    · rw [hv, Obj.refs_finalize] at hc
      exact hc
  · rw [separate_cell, if_neg (by simp)] at hy
    rw [(Keeps.markSteps.separate g r).checkWeakMode_eq] at hv
    exact h.table t y hP hy hf v hv o ho
  · obtain ⟨x, hx, -, hf, -⟩ := hrec.cell_rev hy
    rw [hf]
    exact h.noSkip o x hx

/-- The userdata to be finalized are separated; each is an exception until it has been marked. -/
theorem foldl_separate_spec : ∀ {l : List (GcRef .userdata)} {ex : ObjRef → Prop} {g : Gc}, TriInv saved [] ex g →
    Closed P g → (∀ r ∈ l, P ⟨_, r⟩) → TriInv saved [] (fun o => ex o ∨ ∃ r ∈ l, o = ⟨_, r⟩) (l.foldl Gc.separate g) ∧
      Closed P (l.foldl Gc.separate g) ∧ Recolors P g (l.foldl Gc.separate g) ∧
      (l.foldl Gc.separate g).gcState.tmudata = g.gcState.tmudata ++ l ∧
      (l.foldl Gc.separate g).gcState.gray = g.gcState.gray
  | [], ex, g, h, hcl, _ => ⟨h.congr fun _ ho => .inl ho, hcl, .refl P g, (List.append_nil _).symm, rfl⟩
  | r :: l, ex, g, h, hcl, hP => by
    obtain ⟨h₁, hcl₁, hrec, htm, hgray⟩ := foldl_separate_spec h.separate (hcl.separate r)
      fun r' hr' => hP r' (List.mem_cons_of_mem _ hr')
    refine ⟨h₁.congr ?_, hcl₁, (Recolors.separate g (hP r (List.mem_cons_self ..))).trans hrec, ?_, hgray⟩
    · rintro o ((ho | ho) | ⟨r', hr', ho⟩)
      · exact .inl ho
      · exact .inr ⟨r, List.mem_cons_self .., ho⟩
      · exact .inr ⟨r', List.mem_cons_of_mem _ hr', ho⟩
    · rw [List.foldl_cons, htm]
      exact List.append_assoc ..

theorem markTm_spec {r : GcRef .userdata} (h : TriInv saved [] (fun o => ex o ∨ o = ⟨_, r⟩) g) (hcl : Closed P g)
    (hP : P ⟨_, r⟩) : Traversed P saved [] ex g (g.markTm r) := by
  cases hget : g.heap.get r with
  | none =>
    have heq : g.markTm r = g := by rw [markTm, hget]
    rw [heq]
    exact .of_none h (cell_eq_none hget)
  | some ud =>
    obtain ⟨x, hx, rfl⟩ := exists_cell hget
    set ud : Userdata := x.value with hud
    have hrefs : ∀ c ∈ Obj.refs (k := .userdata) ud, P c := hcl.refs _ x (by simp) hP hx
    set g₀ : Gc := { g with heap := g.heap.setColor ⟨_, r⟩ .black } with hg₀
    have hcl₀ : RefClosed P g₀ := (setColor_traverses (o := ⟨_, r⟩) g (c := .black) rfl hP).refClosed hcl.refs
    have hw : g₀.currentWhite.isWhite = true := h.white
    have hparts : Marks P g₀ (g.markTm r) ∧ ∀ c ∈ Obj.refs (k := .userdata) ud, (g.markTm r).Settled c := by
      refine mark_userdata_parts hw hrefs markValue (fun g' v hm hv => ?_) ?_
      · refine markValue_marks (hcl₀.marks hm) (hm.currentWhite_eq ▸ hw) fun o ho => hrefs o ?_
        simp only [Obj.refs, Obj.vals, Userdata.vals, List.mem_append, List.mem_filterMap]
        exact .inl ⟨v, .inr (Option.mem_toList.mpr hv), ho⟩
      · cases hsv : ud.secretValue with
        | none => simp only [markTm, hget, hsv, g₀]
        | some v => simp only [markTm, hget, hsv, g₀]
    refine Traversed.of_marks h hP (by simp) hparts.1 fun y hy => ?_
    rw [hx] at hy
    cases hy
    exact hparts.2

theorem foldl_markTm_spec : ∀ {rs : List (GcRef .userdata)} {g : Gc}, TriInv saved [] (fun o => ∃ r ∈ rs, o = ⟨_, r⟩) g →
    Closed P g → (∀ r ∈ rs, P ⟨_, r⟩) → TriInv saved [] (fun _ => False) (rs.foldl markTm g) ∧
      Traverses P g (rs.foldl markTm g)
  | [], g, h, _, _ => ⟨h.congr (by rintro o ⟨r, hr, -⟩; cases hr), .refl P g⟩
  | r :: rs, g, h, hcl, hP => by
    have h₀ := h.congr (e := fun o => (∃ r' ∈ rs, o = ⟨_, r'⟩) ∨ o = ⟨_, r⟩) (by
      rintro o ⟨r', hr', ho⟩
      rcases List.mem_cons.mp hr' with rfl | hr'
      · exact .inr ho
      · exact .inl ⟨r', hr', ho⟩)
    have h₁ := markTm_spec h₀ hcl (hP r (List.mem_cons_self ..))
    obtain ⟨h₂, ht₂⟩ := foldl_markTm_spec h₁.tri (hcl.traverses h₁.traverses h.names)
      fun r' hr' => hP r' (List.mem_cons_of_mem _ hr')
    exact ⟨h₂, h₁.traverses.trans ht₂⟩

/-- What an arena lists. -/
theorem Arena.mem_iter_cell {k : ObjKind} {T : Type} {a : Arena k T} (hw : a.Wf) {r : GcRef k} {v : T} {c : Color}
    (h : (r, v, c) ∈ a.iter) : ∃ x, a.cell r = some x ∧ x.value = v ∧ x.color = c := by
  simp only [Arena.iter, List.mem_filterMap, bind, Option.bind_eq_some_iff] at h
  obtain ⟨i, -, ⟨gen, st⟩, he, v', hv, c', hc, heq⟩ := h
  cases heq
  cases st with
  | free n => cases hv
  | occupied w =>
    cases hv
    have hflags : i < a.flags.length := hw.flags_length ▸ (List.getElem?_eq_some_iff.mp he).1
    exact ⟨⟨v, c, a.flags[i]⟩, (Arena.cell_eq_some hw).mpr ⟨he, Option.join_eq_some_iff.mp hc,
      List.getElem?_eq_getElem hflags⟩, rfl, rfl⟩

/-- A userdata that still has a finalizer to run. -/
def HasFinalizer (g : Gc) (ud : Userdata) : Prop :=
  ud.finalized = false ∧ ud.metatable.any g.hasGcMetamethod = true

/-- What is separated is white, and has a finalizer to run. -/
theorem mem_toFinalize {r : GcRef .userdata} (hr : r ∈ g.toFinalize) :
    ∃ x, g.heap.cell ⟨_, r⟩ = some x ∧ x.color = g.currentWhite ∧ g.HasFinalizer x.value := by
  rw [toFinalize, List.mem_insertionSort, List.mem_map] at hr
  obtain ⟨⟨r', ud, c⟩, he, rfl⟩ := hr
  obtain ⟨hmem, hdue⟩ := List.mem_filter.mp he
  obtain ⟨x, hx, rfl, rfl⟩ := Arena.mem_iter_cell (g.heap.wf .userdata) hmem
  simp only [isDue, Bool.and_eq_true, beq_iff_eq, Bool.not_eq_true'] at hdue
  exact ⟨x, hx, hdue.1.1, hdue.1.2, hdue.2⟩

theorem Keeps.hasFinalizer_iff (h : Keeps g g') (ud : Userdata) : g'.HasFinalizer ud ↔ g.HasFinalizer ud := by
  have heq : g'.hasGcMetamethod = g.hasGcMetamethod := funext fun mt => by
    rw [hasGcMetamethod, hasGcMetamethod, h.metafield_eq]
  rw [HasFinalizer, HasFinalizer, heq]

theorem Keeps.of_traverses (h : Traverses P g g') : Keeps g g' :=
  ⟨h.currentWhite_eq, by rw [h.frame], h.slots_eq, fun _ r _ => h.get_eq r⟩

/-- The lists of the collector are changed, apart from that of the weak tables. -/
theorem lists_traverses (g : Gc) (l : List GrayItem) :
    Traverses P g { g with gcState := { g.gcState with grayagain := l } } where
  frame := rfl
  slots_eq _ := rfl
  cell _ x hx := ⟨x, hx, rfl, rfl, .inl rfl⟩
  cell_none _ hx := hx
  weak_sub _ hr := hr
  gray_new _ hi := .inl hi

theorem Traverses.color_isWhite (h : Traverses P g g') {x : Cell (Obj o.kind)} {y : Cell (Obj o.kind)}
    (hx : g.heap.cell o = some x) (hc : x.color.isWhite = false) (hy : g'.heap.cell o = some y) :
    y.color.isWhite = false := by
  obtain ⟨y', hy', -, -, hcol⟩ := h.cell o x hx
  rw [hy] at hy'
  cases hy'
  rcases hcol with hcol | hcol
  · rw [hcol, hc]
  · exact hcol.1

/-- What the marking part of the atomic phase comes to: `m` is the heap when all that the program can reach has been
    marked. Then the userdata to be finalized are separated, and marked with what they refer to. -/
structure AtomicMarked (P : ObjRef → Prop) (saved : List LuaThread) (g m g' : Gc) : Prop where
  before : Traverses P g m
  reached : Marking P saved [] m
  reached_all : m.gcState.gray = []
  marking : Marking P saved [] g'
  all : g'.gcState.gray = []
  recolors : Recolors P m g'
  tmudata_eq : g'.gcState.tmudata = m.toFinalize
  separated : ∀ r ∈ m.toFinalize, ∃ x, g'.heap.cell ⟨_, r⟩ = some x ∧ x.color.isWhite = false ∧
    Userdata.finalized x.value = true

theorem foldl_separate_finalized : ∀ {rs : List (GcRef .userdata)} {g : Gc} {r : GcRef .userdata} {x : Cell Userdata},
    g.heap.cell ⟨_, r⟩ = some x → r ∈ rs ∨ x.color.isWhite = false ∧ x.value.finalized = true →
      ∃ y, (rs.foldl Gc.separate g).heap.cell ⟨_, r⟩ = some y ∧ y.color.isWhite = false ∧
        Userdata.finalized y.value = true
  | [], g, r, x, hx, hr => by
    rcases hr with hr | hr
    · cases hr
    · exact ⟨x, hx, hr⟩
  | r' :: rs, g, r, x, hx, hr => by
    rw [List.foldl_cons]
    by_cases heq : r = r'
    · subst heq
      exact foldl_separate_finalized (separate_cell_self hx) (.inr ⟨rfl, rfl⟩)
    · refine foldl_separate_finalized (x := x) ?_ (hr.imp_left fun hr => (List.mem_cons.mp hr).resolve_left heq)
      rw [separate_cell, if_neg (by simpa using heq)]
      exact hx

theorem atomicMark_spec (h : Marking P saved g.gcState.grayagain g) (hthreads : g.ThreadsListed)
    (hfrozen : ∀ o x, g.heap.cell o = some x → x.flags.frozen = false)
    (hagain : ∀ i ∈ g.gcState.grayagain, ∀ o, GrayItem.obj i = some o → P o) (hnone : g.gcState.tmudata = [])
    (hdue : ∀ r x, g.heap.cell ⟨.userdata, r⟩ = some x → g.HasFinalizer x.value → P ⟨_, r⟩) :
    ∃ m, AtomicMarked P saved g m g.atomicMark := by
  -- what has to be traversed again, and what comes up then
  set g₁ : Gc := { g with gcState := { g.gcState with grayagain := [] } } with hg₁
  have ht₁ : Traverses P g g₁ := lists_traverses g []
  have h₁ : Marking P saved g.gcState.grayagain g₁ :=
    ⟨h.tri.step ht₁ (fun _ _ _ hx => hx) (fun _ hi => hi) fun _ hi => hi, h.closed.traverses ht₁ h.tri.names, h.gray_mem⟩
  have hhooks : HooksMarked g.gcState.grayagain g₁ := by
    intro r x hl hx
    have hblack := (hthreads r).mp hl
    rw [Heap.color_eq, show g.heap.cell ⟨_, r⟩ = some x from hx, Option.map_some, Option.some.injEq] at hblack
    exact (h₁.tri.black _ x id hx hblack (hfrozen _ x hx)).1
  obtain ⟨h₂, ht₂⟩ := foldl_retraverse_spec h₁ hagain hhooks
  obtain ⟨⟨n, hn⟩, hgray₃⟩ := propagateAll_spec h₂
  set m : Gc := (g.gcState.grayagain.foldl retraverse g₁).propagateAll with hm
  have htm : Traverses P g m := (ht₁.trans ht₂).trans hn.traverses
  -- the userdata to be finalized
  have hP : ∀ r ∈ m.toFinalize, P ⟨_, r⟩ := by
    intro r hr
    obtain ⟨y, hy, -, hfin⟩ := mem_toFinalize hr
    obtain ⟨x, hx, hv, -⟩ := htm.cell_rev hy
    refine hdue r x hx ?_
    rw [← hv]
    exact ((Keeps.of_traverses htm).hasFinalizer_iff _).mp hfin
  obtain ⟨h₄, hcl₄, hrec₄, htmu, hgray₄⟩ := foldl_separate_spec (l := m.toFinalize) hn.marking.tri hn.marking.closed hP
  have htmudata : (m.toFinalize.foldl Gc.separate m).gcState.tmudata = m.toFinalize := by
    rw [htmu, htm.frame]
    exact congrArg (· ++ _) hnone
  have hmark : m.separateUserdata.markTmudata = m.toFinalize.foldl markTm (m.toFinalize.foldl Gc.separate m) := by
    rw [markTmudata, separateUserdata, htmudata]
  obtain ⟨h₅, ht₅⟩ := foldl_markTm_spec (h₄.congr fun o ho => ho.resolve_left id) hcl₄ hP
  have hmark₅ : Marking P saved [] m.separateUserdata.markTmudata := by
    rw [hmark]
    exact ⟨h₅, hcl₄.traverses ht₅ h₄.names, ht₅.gray_mem (by rw [hgray₄]; exact hn.marking.gray_mem)⟩
  obtain ⟨⟨n', hn'⟩, hgray₆⟩ := propagateAll_spec hmark₅
  have heq : g.atomicMark = m.separateUserdata.markTmudata.propagateAll := rfl
  rw [← heq] at hn' hgray₆
  have hafter : Traverses P (m.toFinalize.foldl Gc.separate m) g.atomicMark := by
    rw [hmark] at hn'
    exact ht₅.trans hn'.traverses
  refine ⟨m, htm, hn.marking, hgray₃, hn'.marking, hgray₆, hrec₄.trans (.of_traverses hafter), ?_, fun r hr => ?_⟩
  · rw [hafter.frame]
    exact htmudata
  · obtain ⟨x, hx, -⟩ := mem_toFinalize hr
    obtain ⟨y, hy, hc, hf⟩ := foldl_separate_finalized hx (.inl hr)
    obtain ⟨z, hz, hv, -, -⟩ := hafter.cell _ y hy
    exact ⟨z, hz, hafter.color_isWhite hy hc hz, by rw [hv]; exact hf⟩

end Gc

end Rilua.Vm
