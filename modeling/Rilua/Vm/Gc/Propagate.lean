import Rilua.Vm.Gc.Tricolor

/-! Propagation keeps the tri-colour invariant: traversing an object justifies its colour, and when the
    gray list is empty nothing is left to do. -/

namespace Rilua.Vm

open Gc

namespace Gc

variable {P : ObjRef → Prop} {ex : ObjRef → Prop} {g g' : Gc} {o : ObjRef} {saved : List LuaThread}
  {pending pending' : List GrayItem}

theorem cell_eq_none {k : ObjKind} {r : GcRef k} (h : g.heap.get r = none) :
    g.heap.cell ⟨k, r⟩ = none := by
  rw [Heap.get_eq] at h
  exact Option.map_eq_none_iff.mp h

theorem exists_cell {k : ObjKind} {r : GcRef k} {v : Obj k} (h : g.heap.get r = some v) :
    ∃ x, g.heap.cell ⟨k, r⟩ = some x ∧ x.value = v :=
  Option.map_eq_some_iff.mp ((Heap.get_eq g.heap r).symm.trans h)

/-- What the traversals of one kind of object need: sets closed under what they follow. -/
structure Closed (P : ObjRef → Prop) (g : Gc) : Prop where
  refs : RefClosed P g
  table : TableClosed P g
  noSkip : g.NoSkip

theorem Closed.traverses (h : Closed P g) (ht : Traverses P g g') (hn : g.NamesOk) : Closed P g' :=
  ⟨ht.refClosed h.refs, h.table.traverses ht hn, ht.noSkip h.noSkip⟩

/-- The coroutines that have been traversed are those to be traversed again in the atomic phase. -/
def ThreadsListed (g : Gc) : Prop :=
  ∀ r, Listed ⟨.thread, r⟩ g.gcState.grayagain ↔ g.heap.color ⟨.thread, r⟩ = some .black

theorem ThreadsListed.congr (h : g.ThreadsListed) (hg : g'.gcState.grayagain = g.gcState.grayagain)
    (hc : ∀ r, g'.heap.color ⟨.thread, r⟩ = some .black ↔ g.heap.color ⟨.thread, r⟩ = some .black) :
    g'.ThreadsListed := by
  intro r
  rw [hg, h r, hc r]

/-- Marking turns no coroutine black. -/
theorem Marks.black_thread_iff (hm : Marks P g g') (r : GcRef .thread) :
    (g'.heap.cell ⟨.thread, r⟩).map Cell.color = some .black ↔
      (g.heap.cell ⟨.thread, r⟩).map Cell.color = some .black := by
  rcases hm.cell ⟨.thread, r⟩ with heq | ⟨x, hx, hmx, -, heq, -⟩ | ⟨x, -, -, -, -, hk, -⟩
  · rw [heq]
  · rw [heq, hx, Option.map_some, Option.map_some]
    refine ⟨nofun, fun hb => ?_⟩
    have hc : x.color = .black := Option.some.inj hb
    simp [Arena.markable, hc, Color.isWhite] at hmx
  · exact absurd rfl hk

theorem Marks.threadsListed (hm : Marks P g g') (h : g.ThreadsListed) : g'.ThreadsListed := by
  refine h.congr (by rw [hm.frame]) fun r => ?_
  rw [Heap.color_eq, Heap.color_eq]
  exact hm.black_thread_iff r

theorem setColor_threadsListed (ho : o.kind ≠ .thread) (c : Color) (h : g.ThreadsListed) :
    ThreadsListed { g with heap := g.heap.setColor o c } := by
  refine h.congr rfl fun r => ?_
  show (g.heap.setColor o c).color _ = _ ↔ _
  rw [Heap.color_eq, Heap.color_eq, Heap.cell_setColor, if_neg fun he => ho (congrArg ObjRef.kind he).symm]

/-- The result of traversing an object: the invariant holds again. -/
structure Traversed (P : ObjRef → Prop) (saved : List LuaThread) (pending : List GrayItem)
    (ex : ObjRef → Prop) (g g' : Gc) : Prop where
  tri : TriInv saved pending ex g'
  traverses : Traverses P g g'
  gray_sub : ∀ i ∈ g.gcState.gray, i ∈ g'.gcState.gray
  potential_le : g'.potential ≤ g.potential
  threads : g.ThreadsListed → g'.ThreadsListed

/-- What is black before marking is black after it. -/
theorem cell_setColor_black {g₁ : Gc} {x : Cell (Obj o.kind)} (hx : g.heap.cell o = some x)
    (hm : Marks P { g with heap := g.heap.setColor o .black } g₁) :
    g₁.heap.cell o = some { x with color := .black } := by
  refine hm.cell_same ?_ (Marks.not_markable_black x)
  show (g.heap.setColor o .black).cell o = _
  rw [Heap.cell_setColor, if_pos rfl, hx]
  rfl

theorem TriInv.blacken (h : TriInv saved pending (fun o' => ex o' ∨ o' = o) g) :
    TriInv saved pending (fun o' => ex o' ∨ o' = o) { g with heap := g.heap.setColor o .black } :=
  h.step (setColor_traverses (P := fun _ => True) (o := o) g (c := .black) rfl trivial)
    (fun _ _ hex hx => cell_setColor_ne (fun ho => hex (.inr ho)) hx) (fun _ hi => hi) fun _ hi => hi

/-- The exception for one object is lifted once it is black with settled references. -/
theorem TriInv.lift (h : TriInv saved pending (fun o' => ex o' ∨ o' = o) g)
    (hok : ∀ x, g.heap.cell o = some x → x.flags.frozen = false →
      x.color = .black ∧ BlackOk saved pending g o x.value) : TriInv saved pending ex g := by
  refine h.close ?_
  rintro o' x (ho | rfl) hno hx hf
  · exact absurd ho hno
  · obtain ⟨hc, hb⟩ := hok x hx hf
    rw [hc]
    exact ⟨nofun, fun _ => hb⟩

/-- An object is blackened and what it refers to is marked. -/
theorem Traversed.of_marks {g₁ : Gc} (h : TriInv saved pending (fun o' => ex o' ∨ o' = o) g) (hP : P o)
    (hk : o.kind ≠ .thread) (hm : Marks P { g with heap := g.heap.setColor o .black } g₁)
    (hok : ∀ x, g.heap.cell o = some x → BlackOk saved pending g₁ o x.value) :
    Traversed P saved pending ex g g₁ := by
  refine ⟨(h.blacken.marks hm).lift fun y hy _ => ?_,
    (setColor_traverses (o := o) g rfl hP).trans hm.traverses, hm.gray_sub,
    hm.potential_le.trans (potential_setColor g o rfl),
    fun ht => hm.threadsListed (setColor_threadsListed hk .black ht)⟩
  obtain ⟨x, hx, -⟩ := ((setColor_traverses (o := o) g rfl hP).trans hm.traverses).cell_rev hy
  rw [cell_setColor_black hx hm] at hy
  cases hy
  exact ⟨rfl, hok x hx⟩

/-- Nothing to traverse: the reference is stale. -/
theorem Traversed.of_none (h : TriInv saved pending (fun o' => ex o' ∨ o' = o) g)
    (hx : g.heap.cell o = none) : Traversed P saved pending ex g g :=
  ⟨h.lift (fun x hx' _ => by rw [hx] at hx'; cases hx'), .refl P g, fun _ hi => hi, le_rfl, id⟩

theorem traverseClosure_spec {r : GcRef .closure}
    (h : TriInv saved pending (fun o => ex o ∨ o = ⟨_, r⟩) g) (hcl : Closed P g) (hP : P ⟨_, r⟩) :
    Traversed P saved pending ex g (g.traverseClosure r) := by
  cases hget : g.heap.get r with
  | none =>
    have heq : g.traverseClosure r = g := by rw [traverseClosure, hget]
    rw [heq]
    exact .of_none h (cell_eq_none hget)
  | some cl =>
    obtain ⟨x, hx, rfl⟩ := exists_cell hget
    have hrefs := hcl.refs _ x (by simp) hP hx
    set g₀ : Gc := { g with heap := g.heap.setColor ⟨_, r⟩ .black } with hg₀
    have ht := setColor_traverses (o := ⟨_, r⟩) g (c := .black) rfl hP
    have hcl₀ : RefClosed P g₀ := ht.refClosed hcl.refs
    have hw : g₀.currentWhite.isWhite = true := h.white
    rcases hxv : x.value with cl | cl
    · have hvals : ∀ v ∈ Closure.vals (.lua cl), ∀ o ∈ v.objRef, P o := fun v hv o ho => hrefs o (by
        simp only [Obj.refs, Obj.vals, hxv, List.mem_append, List.mem_filterMap]
        exact .inl ⟨v, hv, ho⟩)
      have huvs : ∀ uv ∈ cl.upvalues, P ⟨_, uv⟩ := fun uv huv => hrefs _ (by
        simp only [Obj.refs, Obj.upvalueRefs, hxv, List.mem_append, List.mem_map]
        exact .inr ⟨uv, huv, rfl⟩)
      have heq : g.traverseClosure r =
          ((g₀.markTable cl.env).markUpvalues cl.upvalues).markValues cl.proto.allConstants := by
        rw [hxv] at hget
        rw [traverseClosure, hget]
      obtain ⟨h1, hs1⟩ := markTable_marks hw (hvals (.table cl.env) (by simp [Closure.vals]) _ rfl)
      have hw1 : (g₀.markTable cl.env).currentWhite.isWhite = true := h1.currentWhite_eq ▸ hw
      obtain ⟨h2, hs2⟩ := markUpvalues_marks (hcl₀.marks h1) hw1 huvs
      have h12 := h1.trans h2 hw
      have hw2 : ((g₀.markTable cl.env).markUpvalues cl.upvalues).currentWhite.isWhite = true :=
        h12.currentWhite_eq ▸ hw
      obtain ⟨h3, hs3⟩ := markValues_marks (hcl₀.marks h12) hw2 fun v
        (hv : v ∈ cl.proto.allConstants) => hvals v (by simp [Closure.vals, hv])
      rw [heq]
      refine Traversed.of_marks h hP (by simp) (h12.trans h3 hw) fun y hy c hc => ?_
      rw [hx] at hy
      cases hy
      simp only [hxv, Obj.refs, Obj.vals, Obj.upvalueRefs, Closure.vals, Closure.upvalueRefs,
        List.mem_append, List.mem_filterMap, List.mem_cons, List.mem_map] at hc
      obtain ⟨v, rfl | hv, hvc⟩ | ⟨uv, huv, rfl⟩ := hc
      · cases hvc; exact h3.settled hw2 (h2.settled hw1 hs1)
      · exact hs3 v hv c hvc
      · exact h3.settled hw2 (hs2 uv huv)
    · have hvals : ∀ v ∈ Closure.vals (.rust cl), ∀ o ∈ v.objRef, P o := fun v hv o ho => hrefs o (by
        simp only [Obj.refs, Obj.vals, hxv, List.mem_append, List.mem_filterMap]
        exact .inl ⟨v, hv, ho⟩)
      have heq : g.traverseClosure r = (g₀.markTable? cl.env).markValues cl.upvalues := by
        rw [hxv] at hget
        rw [traverseClosure, hget]
      obtain ⟨h1, hs1⟩ := markTable?_marks hw (r := cl.env) fun env henv =>
        hvals (.table env) (by rw [Option.mem_def] at henv; simp [Closure.vals, henv]) _ rfl
      have hw1 : (g₀.markTable? cl.env).currentWhite.isWhite = true := h1.currentWhite_eq ▸ hw
      obtain ⟨h2, hs2⟩ := markValues_marks (hcl₀.marks h1) hw1 fun v
        (hv : v ∈ cl.upvalues) => hvals v (by simp [Closure.vals, hv])
      rw [heq]
      refine Traversed.of_marks h hP (by simp) (h1.trans h2 hw) fun y hy c hc => ?_
      rw [hx] at hy
      cases hy
      simp only [hxv, Obj.refs, Obj.vals, Obj.upvalueRefs, Closure.vals, Closure.upvalueRefs,
        List.mem_append, List.mem_filterMap, List.map_nil, List.not_mem_nil, or_false,
        Option.mem_toList, Option.map_eq_some_iff] at hc
      obtain ⟨v, ⟨env, henv, rfl⟩ | hv, hvc⟩ := hc
      · cases hvc; exact h2.settled hw1 (hs1 env henv)
      · exact hs2 v hv c hvc

/-- A table is put on the list of weak tables. -/
theorem addWeak_traverses (g : Gc) (r : GcRef .table) :
    Traverses P g { g with gcState := { g.gcState with weakTables := g.gcState.weakTables ++ [r] } } where
  frame := rfl
  slots_eq _ := rfl
  cell _ x hx := ⟨x, hx, rfl, rfl, .inl rfl⟩
  cell_none _ h := h
  weak_sub _ h := List.mem_append_left _ h
  gray_new _ h := .inl h

theorem addWeak_potential (g : Gc) (l : List (GcRef .table)) :
    potential { g with gcState := { g.gcState with weakTables := l } } = g.potential := rfl

/-- Marking the strong part of a table whose mode is `m`, from a heap where its metatable is marked and
    it is listed if it is weak. -/
theorem mark_strong {g₁ : Gc} (hcl : RefClosed P g) (hw : g.currentWhite.isWhite = true) {t : Table}
    {m : Bool × Bool} (hP : ∀ v ∈ strongVals t m, ∀ o ∈ v.objRef, P o)
    (heq : g₁ = if m.1 && m.2 then g
      else (if m.2 then g else g.markValues t.array).markValues (hashMarkValues t m.1 m.2)) :
    Marks P g g₁ ∧ (m.2 = false → ∀ v ∈ t.array, g₁.SettledVal v) ∧
      ∀ v ∈ hashMarkValues t m.1 m.2, g₁.SettledVal v := by
  have hPh : ∀ v ∈ hashMarkValues t m.1 m.2, ∀ o ∈ v.objRef, P o := fun v hv =>
    hP v (mem_strongVals.mpr (.inr (.inr hv)))
  by_cases hboth : (m.1 && m.2) = true
  · rw [if_pos hboth] at heq
    subst heq
    rw [Bool.and_eq_true] at hboth
    refine ⟨.refl P _, fun h => absurd (hboth.2.symm.trans h) (by simp), fun v hv => ?_⟩
    obtain ⟨n, -, -, -, ⟨h, -⟩ | ⟨h, -⟩⟩ := mem_hashMarkValues.mp hv
    · rw [hboth.1] at h; cases h
    · rw [hboth.2] at h; cases h
  · rw [if_neg hboth] at heq
    cases hm : m.2 with
    | true =>
      rw [hm] at heq hPh
      simp only [if_true] at heq
      obtain ⟨h, hs⟩ := markValues_marks hcl hw hPh
      rw [heq]
      exact ⟨h, nofun, hs⟩
    | false =>
      rw [hm] at heq hPh
      simp only [Bool.false_eq_true, if_false] at heq
      obtain ⟨h1, hs1⟩ := markValues_marks hcl hw fun v (hv : v ∈ t.array) =>
        hP v (mem_strongVals.mpr (.inr (.inl ⟨hm, hv⟩)))
      have hw1 : (g.markValues t.array).currentWhite.isWhite = true := h1.currentWhite_eq ▸ hw
      obtain ⟨h2, hs2⟩ := markValues_marks (hcl.marks h1) hw1 hPh
      rw [heq]
      exact ⟨h1.trans h2 hw, fun _ v hv => h2.settledVal hw1 (hs1 v hv), hs2⟩

theorem traverseTable_spec {r : GcRef .table}
    (h : TriInv saved pending (fun o => ex o ∨ o = ⟨_, r⟩) g) (hcl : Closed P g) (hP : P ⟨_, r⟩) :
    Traversed P saved pending ex g (g.traverseTable r) := by
  have hskip := isSkipTraverseOrFrozen_eq hcl.noSkip r
  cases hget : g.heap.get r with
  | none =>
    have hnone := cell_eq_none hget
    have hfr : (g.heap.arena .table).isSkipTraverseOrFrozen r = false := by
      rw [hskip, Heap.hasFlag_eq, hnone]; rfl
    have heq : g.traverseTable r = g := by
      rw [traverseTable, hfr, if_neg (by simp), hget]
    rw [heq]
    exact .of_none h hnone
  | some t =>
    obtain ⟨x, hx, rfl⟩ := exists_cell hget
    cases hfr : x.flags.frozen with
    | true =>
      have hskip' : (g.heap.arena .table).isSkipTraverseOrFrozen r = true := by
        rw [hskip, Heap.hasFlag_eq, hx]; exact hfr
      have heq : g.traverseTable r = { g with heap := g.heap.setColor ⟨_, r⟩ .black } := by
        rw [traverseTable, hskip', if_pos rfl]
      rw [heq]
      -- a frozen table needs no justification
      refine ⟨h.blacken.lift fun y hy hyf => ?_, setColor_traverses g rfl hP, fun _ hi => hi,
        potential_setColor g _ rfl, setColor_threadsListed (by simp) .black⟩
      have hy' : (g.heap.setColor ⟨_, r⟩ .black).cell ⟨_, r⟩ = some y := hy
      rw [Heap.cell_setColor, if_pos rfl, hx] at hy'
      cases hy'
      rw [hfr] at hyf
      cases hyf
    | false =>
      have hskip' : (g.heap.arena .table).isSkipTraverseOrFrozen r = false := by
        rw [hskip, Heap.hasFlag_eq, hx]; exact hfr
      have hstrong := hcl.table r x hP hx hfr
      set m := g.checkWeakMode (Table.metatable x.value) with hm
      set g₀ : Gc := { g with heap := g.heap.setColor ⟨_, r⟩ .black } with hg₀
      have ht0 := setColor_traverses (o := ⟨_, r⟩) g (c := .black) rfl hP
      have hw : g₀.currentWhite.isWhite = true := h.white
      obtain ⟨h1, hs1⟩ := markTable?_marks hw (r := Table.metatable x.value) fun mt hmt =>
        hstrong _ (mem_strongVals.mpr (.inl ⟨mt, hmt, rfl⟩)) _ rfl
      set g₁ : Gc := g₀.markTable? (Table.metatable x.value) with hg₁
      -- then the table is listed, if it is weak
      set g₂ : Gc := if m.1 || m.2 then
          { g₁ with gcState := { g₁.gcState with weakTables := g₁.gcState.weakTables ++ [r] } }
        else g₁ with hg₂
      have ht2 : Traverses P g₁ g₂ := by
        rw [hg₂]
        split
        · exact addWeak_traverses g₁ r
        · exact .refl P g₁
      have hcell2 : g₂.heap = g₁.heap := by rw [hg₂]; split <;> rfl
      have hgray2 : g₂.gcState.gray = g₁.gcState.gray := by rw [hg₂]; split <;> rfl
      have hpot2 : g₂.potential = g₁.potential := by rw [potential, potential, hcell2, hgray2]
      have hlisted : m.1 = true ∨ m.2 = true → r ∈ g₂.gcState.weakTables := by
        intro hor
        rw [hg₂, if_pos (by simpa using hor)]
        exact List.mem_append_right _ (List.mem_singleton_self r)
      have ht02 : Traverses P g₀ g₂ := h1.traverses.trans ht2
      have hw2 : g₂.currentWhite.isWhite = true := ht02.currentWhite_eq ▸ hw
      have heq : g.traverseTable r = if m.1 && m.2 then g₂
          else (if m.2 then g₂ else g₂.markValues (Table.array x.value)).markValues
            (hashMarkValues x.value m.1 m.2) := by
        rw [traverseTable, hskip', if_neg (by simp), hget]
      obtain ⟨h3, harr, hhash⟩ := mark_strong (m := m) (t := x.value)
        (ht02.refClosed (ht0.refClosed hcl.refs)) hw2 hstrong heq
      set g₃ : Gc := g.traverseTable r
      have ht03 : Traverses P g₀ g₃ := ht02.trans h3.traverses
      have hmode := (ht0.trans ht03).toExtends.mode_le h.names (Table.metatable x.value)
      have htri2 : TriInv saved pending (fun o => ex o ∨ o = ⟨_, r⟩) g₂ :=
        (h.blacken.marks h1).step ht2 (fun o y _ hy => by rw [hcell2] at hy; exact hy)
          (fun i hi => by rw [hgray2]; exact hi) fun _ hi => hi
      refine ⟨(htri2.marks h3).lift fun y hy _ => ?_, ht0.trans ht03,
        fun i hi => h3.gray_sub i (by rw [hgray2]; exact h1.gray_sub i hi), ?_,
        fun ht => h3.threadsListed ?_⟩
      · have hx1 := cell_setColor_black hx h1
        have hx2 : g₂.heap.cell ⟨_, r⟩ = some { x with color := .black } := by rw [hcell2]; exact hx1
        have hx3 := h3.cell_same hx2 (Marks.not_markable_black x)
        rw [hx3] at hy
        cases hy
        refine ⟨rfl, ?_⟩
        have hentry : ∀ v (weak weak' : Bool), (weak = true → weak' = true) →
            (weak = true → m.1 = true ∨ m.2 = true) → (weak = false → g₃.SettledVal v) →
            g₃.EntryOk r weak' v := by
          intro v weak weak' hle hlist hset
          cases weak with
          | false => exact .inl (hset rfl)
          | true => exact .inr ⟨hle rfl, h3.traverses.weak_sub r (hlisted (hlist rfl))⟩
        refine TableOk.mk (fun mt hmt => (ht2.trans h3.traverses).settled
            (h1.currentWhite_eq ▸ hw) (hs1 mt hmt)) (fun v hv => ?_) (fun n hn hk hv => ?_)
          fun n hn hk hv => ?_
        · exact hentry v m.2 _ hmode.2 .inr fun hm2 => harr hm2 v hv
        · exact hentry n.key m.1 _ hmode.1 .inl fun hm1 =>
            hhash _ (mem_hashMarkValues.mpr ⟨n, hn, hk, hv, .inl ⟨hm1, rfl⟩⟩)
        · exact hentry n.value m.2 _ hmode.2 .inr fun hm2 =>
            hhash _ (mem_hashMarkValues.mpr ⟨n, hn, hk, hv, .inr ⟨hm2, rfl⟩⟩)
      · have h0 := potential_setColor g ⟨_, r⟩ (c := .black) rfl
        have h1' := h1.potential_le
        have h3' := h3.potential_le
        rw [hpot2] at h3'
        exact h3'.trans (h1'.trans h0)
      · refine (h1.threadsListed (setColor_threadsListed (by simp) .black ht)).congr ?_ fun r => by rw [hcell2]
        rw [hg₂]
        split <;> rfl

theorem mem_refs_thread {t : LuaThread} {c : ObjRef} (hc : c ∈ Obj.refs (k := .thread) t) :
    c = ⟨_, t.global⟩ ∨ c ∈ t.hookFunc.objRef ∨ (∃ v ∈ t.liveStack, c ∈ v.objRef) ∨
      (∃ uv ∈ t.openUpvalues, c = ⟨_, uv⟩) ∨ ∃ uv ∈ t.suspendedUpvals.map Prod.fst, c = ⟨_, uv⟩ := by
  simp only [Obj.refs, Obj.vals, ThreadFields.vals, Obj.upvalueRefs, LuaThread.upvalueRefs,
    List.mem_append, List.mem_filterMap, List.mem_cons, List.mem_map] at hc
  rcases hc with ⟨v, rfl | rfl | hv, hvc⟩ | ⟨uv, huv | huv, rfl⟩
  · exact .inl (Option.some.inj hvc).symm
  · exact .inr (.inl hvc)
  · exact .inr (.inr (.inl ⟨v, hv, hvc⟩))
  · exact .inr (.inr (.inr (.inl ⟨uv, huv, rfl⟩)))
  · exact .inr (.inr (.inr (.inr ⟨uv, List.mem_map.mpr huv, rfl⟩)))

theorem refs_thread (t : LuaThread) :
    (⟨_, t.global⟩ : ObjRef) ∈ Obj.refs (k := .thread) t ∧
      (∀ v, v = t.hookFunc ∨ v ∈ t.liveStack → ∀ c ∈ v.objRef, c ∈ Obj.refs (k := .thread) t) ∧
      ∀ uv, uv ∈ t.openUpvalues ∨ uv ∈ t.suspendedUpvals.map Prod.fst →
        (⟨_, uv⟩ : ObjRef) ∈ Obj.refs (k := .thread) t := by
  simp only [Obj.refs, Obj.vals, ThreadFields.vals, Obj.upvalueRefs, LuaThread.upvalueRefs,
    List.mem_append, List.mem_filterMap, List.mem_cons]
  refine ⟨.inl ⟨_, .inl rfl, rfl⟩, ?_, ?_⟩
  · rintro v (rfl | hv) c hc
    · exact .inl ⟨_, .inr (.inl rfl), hc⟩
    · exact .inl ⟨v, .inr (.inr hv), hc⟩
  · intro uv huv
    exact .inr (List.mem_map.mpr ⟨uv, List.mem_append.mpr huv, rfl⟩)

/-- Marking the stack and the upvalues of a coroutine. -/
theorem markThreadStack_marks (hcl : RefClosed P g) (hw : g.currentWhite.isWhite = true) {t : LuaThread}
    (hP : ∀ c ∈ Obj.refs (k := .thread) t, P c) :
    Marks P g (g.markThreadStack t) ∧ (∀ v ∈ t.liveStack, (g.markThreadStack t).SettledVal v) ∧
      ∀ uv, uv ∈ t.openUpvalues ∨ uv ∈ t.suspendedUpvals.map Prod.fst →
        (g.markThreadStack t).Settled ⟨_, uv⟩ := by
  obtain ⟨-, hvals, huvs⟩ := refs_thread t
  obtain ⟨h1, hs1⟩ := markValues_marks hcl hw fun v (hv : v ∈ t.liveStack) o ho =>
    hP o (hvals v (.inr hv) o ho)
  have hw1 : (g.markValues t.liveStack).currentWhite.isWhite = true := h1.currentWhite_eq ▸ hw
  obtain ⟨h2, hs2⟩ := markUpvalues_marks (hcl.marks h1) hw1 fun uv (huv : uv ∈ t.openUpvalues) =>
    hP _ (huvs uv (.inl huv))
  have h12 := h1.trans h2 hw
  have hw2 : ((g.markValues t.liveStack).markUpvalues t.openUpvalues).currentWhite.isWhite = true :=
    h12.currentWhite_eq ▸ hw
  obtain ⟨h3, hs3⟩ := markUpvalues_marks (hcl.marks h12) hw2 fun uv
    (huv : uv ∈ t.suspendedUpvals.map Prod.fst) => hP _ (huvs uv (.inr huv))
  refine ⟨h12.trans h3 hw, fun v hv => h3.settledVal hw2 (h2.settledVal hw1 (hs1 v hv)), ?_⟩
  rintro uv (huv | huv)
  · exact h3.settled hw2 (hs2 uv huv)
  · exact hs3 uv huv

/-- The heap after a coroutine has been blackened and its parts have been marked: its references are
    settled if its hook is. -/
theorem thread_blackened {g₁ : Gc} {r : GcRef .thread}
    (h : TriInv saved pending (fun o => ex o ∨ o = ⟨_, r⟩) g)
    (hm : Marks P { g with heap := g.heap.setColor ⟨_, r⟩ .black } g₁)
    (hok : ∀ x, g.heap.cell ⟨_, r⟩ = some x → ∀ c ∈ Obj.refs x.value, g₁.Settled c) :
    TriInv saved pending ex g₁ := by
  refine (h.blacken.marks hm).lift fun y hy _ => ?_
  cases hx : g.heap.cell ⟨_, r⟩ with
  | none =>
    have hnone : (g.heap.setColor ⟨_, r⟩ .black).cell ⟨_, r⟩ = none := by
      rw [Heap.cell_setColor, if_pos rfl, hx]; rfl
    rw [hm.traverses.cell_none _ hnone] at hy
    cases hy
  | some x =>
    rw [cell_setColor_black hx hm] at hy
    cases hy
    refine ⟨rfl, fun o ho => hok x hx o ((refs_thread x.value).2.1 _ (.inl rfl) o ho), .inr (hok x hx)⟩

/-- A coroutine is kept for the atomic phase. -/
theorem addGrayagain_traverses (g : Gc) (i : GrayItem) :
    Traverses P g { g with gcState := { g.gcState with grayagain := g.gcState.grayagain ++ [i] } } where
  frame := rfl
  slots_eq _ := rfl
  cell _ x hx := ⟨x, hx, rfl, rfl, .inl rfl⟩
  cell_none _ h := h
  weak_sub _ h := h
  gray_new _ h := .inl h

theorem listed_append {l l' : List GrayItem} : Listed o (l ++ l') ↔ Listed o l ∨ Listed o l' := by
  simp only [Listed, List.mem_append, or_and_right, exists_or]

theorem listed_singleton {i : GrayItem} : Listed o [i] ↔ GrayItem.obj i = some o := by
  simp [Listed]

theorem traverseThread_spec {r : GcRef .thread}
    (h : TriInv saved pending (fun o => ex o ∨ o = ⟨_, r⟩) g) (hcl : Closed P g) (hP : P ⟨_, r⟩) :
    Traversed P saved pending ex g (g.traverseThread r) := by
  cases hget : g.heap.get r with
  | none =>
    have heq : g.traverseThread r = g := by rw [traverseThread, hget]
    rw [heq]
    exact .of_none h (cell_eq_none hget)
  | some t =>
    obtain ⟨x, hx, rfl⟩ := exists_cell hget
    set t : LuaThread := x.value with ht
    have hrefs : ∀ c ∈ Obj.refs (k := .thread) t, P c := hcl.refs _ x (by simp) hP hx
    obtain ⟨hglobal, hvals, -⟩ := refs_thread t
    set g₀ : Gc := { g with heap := g.heap.setColor ⟨_, r⟩ .black } with hg₀
    have ht0 := setColor_traverses (o := ⟨_, r⟩) g (c := .black) rfl hP
    have hcl₀ : RefClosed P g₀ := ht0.refClosed hcl.refs
    have hw : g₀.currentWhite.isWhite = true := h.white
    obtain ⟨h1, hs1⟩ := markTable_marks hw (hrefs _ hglobal)
    have hw1 : (g₀.markTable t.global).currentWhite.isWhite = true := h1.currentWhite_eq ▸ hw
    obtain ⟨h2, hs2⟩ := markValue_marks (hcl₀.marks h1) hw1 (v := t.hookFunc) fun o ho =>
      hrefs o (hvals _ (.inl rfl) o ho)
    have h12 := h1.trans h2 hw
    have hw2 : ((g₀.markTable t.global).markValue t.hookFunc).currentWhite.isWhite = true :=
      h12.currentWhite_eq ▸ hw
    obtain ⟨h3, hs3, hu3⟩ := markThreadStack_marks (hcl₀.marks h12) hw2 hrefs
    set g₃ : Gc := ((g₀.markTable t.global).markValue t.hookFunc).markThreadStack t with hg₃
    have h13 : Marks P g₀ g₃ := h12.trans h3 hw
    have heq : g.traverseThread r =
        { g₃ with gcState := { g₃.gcState with grayagain := g₃.gcState.grayagain ++ [.thread r] } } := by
      rw [traverseThread, hget]
    have htri : TriInv saved pending ex g₃ := thread_blackened h h13 fun y hy c hc => by
      rw [hx] at hy
      cases hy
      rcases mem_refs_thread hc with rfl | hc | ⟨v, hv, hvc⟩ | ⟨uv, huv, rfl⟩ | ⟨uv, huv, rfl⟩
      · exact h3.settled hw2 (h2.settled hw1 hs1)
      · exact h3.settled hw2 (hs2 c hc)
      · exact hs3 v hv c hvc
      · exact hu3 uv (.inl huv)
      · exact hu3 uv (.inr huv)
    have ht3 := addGrayagain_traverses (P := P) g₃ (.thread r)
    rw [heq]
    refine ⟨htri.step ht3 (fun _ _ _ hy => hy) (fun _ hi => hi) fun _ hi => hi,
      (ht0.trans h13.traverses).trans ht3, h13.gray_sub,
      h13.potential_le.trans (potential_setColor g _ rfl), fun hl r' => ?_⟩
    -- the coroutine has turned black and has been put on the list, the others are as before
    have hx3 := cell_setColor_black hx h13
    show Listed _ (g₃.gcState.grayagain ++ [.thread r]) ↔ g₃.heap.color _ = _
    have hagain : g₃.gcState.grayagain = g.gcState.grayagain := by rw [h13.frame]
    rw [listed_append, listed_singleton, hagain, hl r']
    by_cases hr : r' = r
    · subst hr
      rw [Heap.color_eq g₃.heap, hx3]
      exact ⟨fun _ => rfl, fun _ => .inr rfl⟩
    · have hne : (⟨.thread, r'⟩ : ObjRef) ≠ ⟨.thread, r⟩ := fun he => hr (by cases he; rfl)
      have hblack : g₃.heap.color ⟨.thread, r'⟩ = some .black ↔ g.heap.color ⟨.thread, r'⟩ = some .black := by
        have h0 : (g₀.heap.cell ⟨.thread, r'⟩) = g.heap.cell ⟨.thread, r'⟩ := by
          show (g.heap.setColor _ _).cell _ = _
          rw [Heap.cell_setColor, if_neg hne]
        rw [Heap.color_eq, Heap.color_eq, ← h0]
        exact h13.black_thread_iff r'
      rw [hblack]
      refine ⟨fun h => h.elim id fun he => ?_, .inl⟩
      simp only [GrayItem.obj, Option.some.injEq] at he
      exact absurd he.symm hne

end Gc

end Rilua.Vm
