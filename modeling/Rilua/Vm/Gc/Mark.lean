import Rilua.Vm.Gc.Collector

/-! What marking does to the heap. A marking step recolours white objects that are not frozen: an object
    with references of its own turns gray and is put on the gray list, any other turns black, and then
    what it refers to is marked as well. `Marks` is this relation between the heap before and after; it
    composes, and every marking function of the collector satisfies it. -/

namespace Rilua.Vm

open Gc

namespace Gc

/-- Objects the sweep spares although nothing marks them, and that hold no reference the collector
    would have to follow: frozen objects and pinned strings. -/
def anchored (k : ObjKind) (fl : Flags) : Bool := fl.frozen || fl.pinned && k == .string

/-- The object is not one that the mark phase still has to reach. -/
def Settled (g : Gc) (o : ObjRef) : Prop :=
  ∀ x, g.heap.cell o = some x → x.color = g.currentWhite → anchored o.kind x.flags = true

/-- The object a gray-list entry stands for. -/
def GrayItem.obj : GrayItem → Option ObjRef
  | .table r => some ⟨_, r⟩
  | .closure r => some ⟨_, r⟩
  | .thread r => some ⟨_, r⟩
  | .mainThread => none

/-- There is an entry for the object in the list. -/
def Listed (o : ObjRef) (l : List GrayItem) : Prop := ∃ i ∈ l, GrayItem.obj i = some o

theorem Listed.mono {o : ObjRef} {l l' : List GrayItem} (h : Listed o l) (hl : ∀ i ∈ l, i ∈ l') :
    Listed o l' := by
  obtain ⟨i, hi, ho⟩ := h
  exact ⟨i, hl i hi, ho⟩

/-- What may happen to the cell of an object when objects in `P` are marked. -/
inductive CellMark (P : ObjRef → Prop) (g g' : Gc) (o : ObjRef) : Prop
  | same (h : g'.heap.cell o = g.heap.cell o)
  | gray (x : Cell (Obj o.kind)) (hx : g.heap.cell o = some x) (hm : Arena.markable x = true)
      (hP : P o) (h : g'.heap.cell o = some { x with color := .gray })
      (hl : Listed o g'.gcState.gray)
  | black (x : Cell (Obj o.kind)) (hx : g.heap.cell o = some x) (hm : Arena.markable x = true)
      (hP : P o) (h : g'.heap.cell o = some { x with color := .black }) (hk : o.kind ≠ .thread)
      (hrefs : ∀ c ∈ Obj.refs x.value, g'.Settled c)

/-- An upper bound on the traversals still to come. -/
def potential (g : Gc) : ℕ :=
  g.gcState.gray.length + g.heap.whites .table + g.heap.whites .closure + g.heap.whites .thread

/-- The heap `g'` is `g` after some objects of `P` have been marked. -/
structure Marks (P : ObjRef → Prop) (g g' : Gc) : Prop where
  frame : g' = { g with heap := g'.heap, gcState := { g.gcState with gray := g'.gcState.gray } }
  slots_eq : ∀ k, g'.heap.slots k = g.heap.slots k
  cell : ∀ o, CellMark P g g' o
  gray_sub : ∀ i ∈ g.gcState.gray, i ∈ g'.gcState.gray
  gray_new : ∀ i ∈ g'.gcState.gray, i ∈ g.gcState.gray ∨ ∀ o, GrayItem.obj i = some o → P o
  potential_le : g'.potential ≤ g.potential
  userdata_le : g'.heap.whites .userdata ≤ g.heap.whites .userdata

variable {P : ObjRef → Prop} {g g' g'' : Gc} {o : ObjRef}

namespace Marks

theorem refl (P : ObjRef → Prop) (g : Gc) : Marks P g g where
  frame := rfl
  slots_eq _ := rfl
  cell _ := .same rfl
  gray_sub _ h := h
  gray_new _ h := .inl h
  potential_le := le_rfl
  userdata_le := le_rfl

theorem currentWhite_eq (h : Marks P g g') : g'.currentWhite = g.currentWhite := by rw [h.frame]

theorem not_markable_gray {k : ObjKind} (x : Cell (Obj k)) :
    Arena.markable { x with color := .gray } = false := by simp [Arena.markable, Color.isWhite]

theorem not_markable_black {k : ObjKind} (x : Cell (Obj k)) :
    Arena.markable { x with color := .black } = false := by simp [Arena.markable, Color.isWhite]

/-- Marking only settles objects. -/
theorem settled (h : Marks P g g') (hw : g.currentWhite.isWhite = true) (hs : g.Settled o) :
    g'.Settled o := by
  intro y hy hc
  rw [h.currentWhite_eq] at hc
  rcases h.cell o with heq | ⟨x, -, -, -, heq, -⟩ | ⟨x, -, -, -, heq, -, -⟩
  · exact hs y (heq ▸ hy) hc
  · rw [heq] at hy; cases hy; rw [← hc] at hw; cases hw
  · rw [heq] at hy; cases hy; rw [← hc] at hw; cases hw

theorem trans (h : Marks P g g') (h' : Marks P g' g'') (hw : g.currentWhite.isWhite = true) :
    Marks P g g'' where
  frame := by
    have h1 := h.frame
    have h2 := h'.frame
    rw [h1] at h2
    exact h2
  slots_eq k := (h'.slots_eq k).trans (h.slots_eq k)
  cell o := by
    have hw' : g'.currentWhite.isWhite = true := h.currentWhite_eq ▸ hw
    rcases h.cell o with heq | ⟨x, hx, hm, hP, heq, hl⟩ | ⟨x, hx, hm, hP, heq, hk, hrefs⟩
    · rcases h'.cell o with heq' | ⟨x, hx, hm, hP, heq', hl⟩ | ⟨x, hx, hm, hP, heq', hk, hrefs⟩
      · exact .same (heq'.trans heq)
      · exact .gray x (heq ▸ hx) hm hP heq' hl
      · exact .black x (heq ▸ hx) hm hP heq' hk hrefs
    · -- an object that is no longer white is not marked again
      rcases h'.cell o with heq' | ⟨y, hy, hm', -⟩ | ⟨y, hy, hm', -⟩
      · exact .gray x hx hm hP (heq'.trans heq) (hl.mono h'.gray_sub)
      · rw [heq] at hy; cases hy; rw [not_markable_gray] at hm'; cases hm'
      · rw [heq] at hy; cases hy; rw [not_markable_gray] at hm'; cases hm'
    · rcases h'.cell o with heq' | ⟨y, hy, hm', -⟩ | ⟨y, hy, hm', -⟩
      · exact .black x hx hm hP (heq'.trans heq) hk fun c hc => h'.settled hw' (hrefs c hc)
      · rw [heq] at hy; cases hy; rw [not_markable_black] at hm'; cases hm'
      · rw [heq] at hy; cases hy; rw [not_markable_black] at hm'; cases hm'
  gray_sub i hi := h'.gray_sub i (h.gray_sub i hi)
  gray_new i hi := by
    rcases h'.gray_new i hi with hi' | hP
    · exact h.gray_new i hi'
    · exact .inr hP
  potential_le := h'.potential_le.trans h.potential_le
  userdata_le := h'.userdata_le.trans h.userdata_le

/-- An object that is not white, or frozen, is not touched. -/
theorem cell_same (h : Marks P g g') {x : Cell (Obj o.kind)} (hx : g.heap.cell o = some x)
    (hm : Arena.markable x = false) : g'.heap.cell o = some x := by
  rcases h.cell o with heq | ⟨y, hy, hm', -⟩ | ⟨y, hy, hm', -⟩
  · exact heq.trans hx
  · rw [hx] at hy; cases hy; rw [hm] at hm'; cases hm'
  · rw [hx] at hy; cases hy; rw [hm] at hm'; cases hm'

/-- The value of an object and its flags stay. -/
theorem cell_value (h : Marks P g g') {x : Cell (Obj o.kind)} (hx : g.heap.cell o = some x) :
    ∃ y, g'.heap.cell o = some y ∧ y.value = x.value ∧ y.flags = x.flags := by
  rcases h.cell o with heq | ⟨y, hy, -, -, heq, -⟩ | ⟨y, hy, -, -, heq, -, -⟩
  · exact ⟨x, heq.trans hx, rfl, rfl⟩
  · rw [hx] at hy; cases hy; exact ⟨_, heq, rfl, rfl⟩
  · rw [hx] at hy; cases hy; exact ⟨_, heq, rfl, rfl⟩

theorem cell_value_rev (h : Marks P g g') {y : Cell (Obj o.kind)} (hy : g'.heap.cell o = some y) :
    ∃ x, g.heap.cell o = some x ∧ x.value = y.value ∧ x.flags = y.flags := by
  cases hx : g.heap.cell o with
  | none =>
    rcases h.cell o with heq | ⟨x, hx', -⟩ | ⟨x, hx', -⟩
    · rw [heq, hx] at hy; cases hy
    · rw [hx] at hx'; cases hx'
    · rw [hx] at hx'; cases hx'
  | some x =>
    obtain ⟨y', hy', hv, hf⟩ := h.cell_value hx
    rw [hy] at hy'
    cases hy'
    exact ⟨x, rfl, hv.symm, hf.symm⟩

theorem get_eq (h : Marks P g g') {k : ObjKind} (r : GcRef k) : g'.heap.get r = g.heap.get r := by
  rw [Heap.get_eq, Heap.get_eq]
  cases hx : g.heap.cell ⟨k, r⟩ with
  | none =>
    cases hy : g'.heap.cell ⟨k, r⟩ with
    | none => rfl
    | some y =>
      obtain ⟨x, hx', -⟩ := h.cell_value_rev hy
      rw [hx] at hx'; cases hx'
  | some x =>
    obtain ⟨y, hy, hv, -⟩ := h.cell_value hx
    rw [hy, Option.map_some, Option.map_some, hv]

/-- Marking fewer objects is marking objects of a larger set. -/
theorem mono {Q : ObjRef → Prop} (h : Marks P g g') (hPQ : ∀ o, P o → Q o) : Marks Q g g' where
  frame := h.frame
  slots_eq := h.slots_eq
  cell o := by
    rcases h.cell o with heq | ⟨x, hx, hm, hP, heq, hl⟩ | ⟨x, hx, hm, hP, heq, hk, hrefs⟩
    · exact .same heq
    · exact .gray x hx hm (hPQ o hP) heq hl
    · exact .black x hx hm (hPQ o hP) heq hk hrefs
  gray_sub := h.gray_sub
  gray_new i hi := (h.gray_new i hi).imp_right fun hP o ho => hPQ o (hP o ho)
  potential_le := h.potential_le
  userdata_le := h.userdata_le

end Marks

/-- A set of objects that contains what its members refer to. Tables, which may be weak, are not
    considered here. -/
def RefClosed (P : ObjRef → Prop) (g : Gc) : Prop :=
  ∀ o x, o.kind ≠ .table → P o → g.heap.cell o = some x → ∀ c ∈ Obj.refs x.value, P c

theorem RefClosed.of_values (hP : RefClosed P g)
    (hval : ∀ o y, g'.heap.cell o = some y → ∃ x, g.heap.cell o = some x ∧ x.value = y.value) :
    RefClosed P g' := by
  intro o y hk ho hy c hc
  obtain ⟨x, hx, hv⟩ := hval o y hy
  exact hP o x hk ho hx c (hv ▸ hc)

theorem RefClosed.marks {Q : ObjRef → Prop} (hP : RefClosed P g) (h : Marks Q g g') : RefClosed P g' :=
  hP.of_values fun _ _ hy => by
    obtain ⟨x, hx, hv, -⟩ := h.cell_value_rev hy
    exact ⟨x, hx, hv⟩

theorem refClosed_true (g : Gc) : RefClosed (fun _ => True) g := fun _ _ _ _ _ _ _ => trivial

/-! ### The marking functions -/

/-- An object that is not white, or frozen, is settled. -/
theorem settled_of_not_markable (hw : g.currentWhite.isWhite = true)
    (hm : (g.heap.cell o).any Arena.markable = false) : g.Settled o := by
  intro x hx hc
  rw [hx, Option.any_some, Arena.markable, hc, hw, Bool.and_true, Bool.not_eq_false'] at hm
  simp [anchored, hm]

theorem settled_of_color {x : Cell (Obj o.kind)} (hw : g.currentWhite.isWhite = true)
    (hx : g.heap.cell o = some x) (hc : x.color.isWhite = false) : g.Settled o := by
  intro y hy hcy
  rw [hx] at hy
  cases hy
  rw [hcy, hw] at hc
  cases hc

/-- The cell of an object that has just been marked with colour `c`. -/
theorem cell_mark_self {x : Cell (Obj o.kind)} (hx : g.heap.cell o = some x)
    (hm : Arena.markable x = true) (c : Color) :
    (g.heap.markWhiteUnfrozen o c).1.cell o = some { x with color := c } := by
  rw [Heap.cell_markWhiteUnfrozen, if_pos rfl, hx, Option.map_some, if_pos hm]

theorem cell_mark_ne {o' : ObjRef} (c : Color) (ho : o' ≠ o) :
    (g.heap.markWhiteUnfrozen o c).1.cell o' = g.heap.cell o' := by
  rw [Heap.cell_markWhiteUnfrozen, if_neg ho]

/-- Marking an object that is traversed later: it is put on the gray list. -/
theorem markGray_marks (hw : g.currentWhite.isWhite = true) {item : GrayItem}
    (hitem : GrayItem.obj item = some o) (hk : o.kind = .table ∨ o.kind = .closure ∨ o.kind = .thread)
    (hP : P o) : Marks P g (g.markGray o item) ∧ (g.markGray o item).Settled o := by
  have hsnd := Heap.markWhiteUnfrozen_snd g.heap o .gray
  cases hm : (g.heap.markWhiteUnfrozen o .gray).2 with
  | false =>
    have heq : g.markGray o item = g := by simp [markGray, hm]
    rw [heq]
    exact ⟨.refl P g, settled_of_not_markable hw (hsnd ▸ hm)⟩
  | true =>
    have heq : g.markGray o item = { g with
        heap := (g.heap.markWhiteUnfrozen o .gray).1
        gcState := { g.gcState with gray := item :: g.gcState.gray } } := by simp [markGray, hm]
    rw [hsnd] at hm
    cases hx : g.heap.cell o with
    | none => rw [hx] at hm; cases hm
    | some x =>
      rw [hx, Option.any_some] at hm
      have hself := cell_mark_self hx hm .gray
      rw [heq]
      refine ⟨⟨rfl, fun k => Heap.slots_mark .., fun o' => ?_, fun i hi => List.mem_cons_of_mem _ hi,
        fun i hi => ?_, ?_, ?_⟩, settled_of_color hw hself rfl⟩
      · by_cases ho : o' = o
        · subst ho
          exact .gray x hx hm hP hself ⟨item, List.mem_cons_self .., hitem⟩
        · exact .same (cell_mark_ne .gray ho)
      · rcases List.mem_cons.mp hi with rfl | hi
        · refine .inr fun o' ho' => ?_
          rw [hitem] at ho'
          cases ho'
          exact hP
        · exact .inl hi
      · -- one more entry on the list, one white object less
        have hone := Heap.whites_mark g.heap o (c := .gray) rfl (by rw [hsnd, hx]; exact hm)
        have hne := fun k hne => Heap.whites_mark_ne (k := k) g.heap o .gray hne
        simp only [potential, List.length_cons]
        rcases hk with hk | hk | hk <;> rw [hk] at hone hne
        · rw [hne .closure (by simp), hne .thread (by simp)]; omega
        · rw [hne .table (by simp), hne .thread (by simp)]; omega
        · rw [hne .table (by simp), hne .closure (by simp)]; omega
      · refine (Heap.whites_mark_ne g.heap o .gray ?_).le
        rcases hk with hk | hk | hk <;> rw [hk] <;> simp

theorem markTable_marks (hw : g.currentWhite.isWhite = true) {r : GcRef .table} (hP : P ⟨_, r⟩) :
    Marks P g (g.markTable r) ∧ (g.markTable r).Settled ⟨_, r⟩ :=
  markGray_marks hw rfl (.inl rfl) hP

theorem markClosure_marks (hw : g.currentWhite.isWhite = true) {r : GcRef .closure} (hP : P ⟨_, r⟩) :
    Marks P g (g.markClosure r) ∧ (g.markClosure r).Settled ⟨_, r⟩ :=
  markGray_marks hw rfl (.inr (.inl rfl)) hP

theorem markThread_marks (hw : g.currentWhite.isWhite = true) {r : GcRef .thread} (hP : P ⟨_, r⟩) :
    Marks P g (g.markThread r) ∧ (g.markThread r).Settled ⟨_, r⟩ :=
  markGray_marks hw rfl (.inr (.inr rfl)) hP

/-- Marking an object that turns black at once: once what it refers to is marked, all is marked. -/
theorem Marks.blacken (hw : g.currentWhite.isWhite = true) {x : Cell (Obj o.kind)}
    (hx : g.heap.cell o = some x) (hm : Arena.markable x = true) (hP : P o)
    (hk : o.kind = .string ∨ o.kind = .upvalue ∨ o.kind = .userdata)
    (h : Marks P { g with heap := (g.heap.markWhiteUnfrozen o .black).1 } g')
    (hrefs : ∀ c ∈ Obj.refs x.value, g'.Settled c) : Marks P g g' ∧ g'.Settled o := by
  have hself := cell_mark_self hx hm .black
  have hsnd : (g.heap.markWhiteUnfrozen o .black).2 = true := by
    rw [Heap.markWhiteUnfrozen_snd, hx]; exact hm
  have hone := Heap.whites_mark g.heap o (c := .black) rfl hsnd
  have hne := fun k hne => Heap.whites_mark_ne (k := k) g.heap o .black hne
  refine ⟨⟨?_, fun k => ?_, fun o' => ?_, h.gray_sub, h.gray_new, ?_, ?_⟩,
    h.settled hw (settled_of_color hw hself rfl)⟩
  · rw [h.frame]
  · rw [h.slots_eq, Heap.slots_mark]
  · by_cases ho : o' = o
    · subst ho
      have hcell : g'.heap.cell o' = some { x with color := .black } :=
        h.cell_same hself (not_markable_black x)
      refine .black x hx hm hP hcell ?_ hrefs
      rcases hk with hk | hk | hk <;> rw [hk] <;> simp
    · have hne' := cell_mark_ne (g := g) .black ho
      rcases h.cell o' with heq | ⟨y, hy, hm', hP', heq, hl⟩ | ⟨y, hy, hm', hP', heq, hk', hr⟩
      · exact .same (heq.trans hne')
      · exact .gray y (hne' ▸ hy) hm' hP' heq hl
      · exact .black y (hne' ▸ hy) hm' hP' heq hk' hr
  · refine h.potential_le.trans ?_
    simp only [potential]
    rcases hk with hk | hk | hk <;> rw [hk] at hne <;>
      rw [hne .table (by simp), hne .closure (by simp), hne .thread (by simp)]
  · refine h.userdata_le.trans ?_
    show (g.heap.markWhiteUnfrozen o .black).1.whites .userdata ≤ _
    by_cases hu : o.kind = .userdata
    · rw [hu] at hone; omega
    · exact (hne .userdata (Ne.symm hu)).le

/-- Marking an object that is settled already changes nothing. -/
theorem mark_settled (hw : g.currentWhite.isWhite = true) (c : Color)
    (hm : (g.heap.markWhiteUnfrozen o c).2 = false) : g.Settled o :=
  settled_of_not_markable hw (Heap.markWhiteUnfrozen_snd g.heap o c ▸ hm)

theorem exists_markable {c : Color} (hm : (g.heap.markWhiteUnfrozen o c).2 = true) :
    ∃ x, g.heap.cell o = some x ∧ Arena.markable x = true := by
  rw [Heap.markWhiteUnfrozen_snd] at hm
  cases hx : g.heap.cell o with
  | none => rw [hx] at hm; cases hm
  | some x => exact ⟨x, rfl, by rw [hx, Option.any_some] at hm; exact hm⟩

theorem markString_marks (hw : g.currentWhite.isWhite = true) {r : GcRef .string} (hP : P ⟨_, r⟩) :
    Marks P g (g.markString r) ∧ (g.markString r).Settled ⟨_, r⟩ := by
  cases hm : (g.heap.markWhiteUnfrozen ⟨_, r⟩ .black).2 with
  | false =>
    have heq : g.markString r = g := by rw [markString, Heap.mark_eq_self _ _ _ hm]
    rw [heq]
    exact ⟨.refl P g, mark_settled hw .black hm⟩
  | true =>
    obtain ⟨x, hx, hmx⟩ := exists_markable hm
    exact Marks.blacken hw hx hmx hP (.inl rfl) (.refl P _) fun c hc => by cases hc

theorem markTable?_marks (hw : g.currentWhite.isWhite = true) {r : Option (GcRef .table)}
    (hP : ∀ r' ∈ r, P ⟨_, r'⟩) :
    Marks P g (g.markTable? r) ∧ ∀ r' ∈ r, (g.markTable? r).Settled ⟨_, r'⟩ := by
  cases r with
  | none => exact ⟨.refl P g, by simp⟩
  | some r =>
    obtain ⟨h, hs⟩ := markTable_marks hw (hP r rfl)
    exact ⟨h, by rintro r' ⟨⟩; exact hs⟩

/-- The object a value refers to, if any, is settled. -/
def SettledVal (g : Gc) (v : Val) : Prop := ∀ o ∈ v.objRef, g.Settled o

theorem Marks.settledVal (h : Marks P g g') (hw : g.currentWhite.isWhite = true) {v : Val}
    (hs : g.SettledVal v) : g'.SettledVal v := fun o ho => h.settled hw (hs o ho)

theorem mem_refs_userdata {ud : Userdata} {c : ObjRef} (hc : c ∈ Obj.refs (k := .userdata) ud) :
    (∃ r ∈ ud.metatable, c = ⟨_, r⟩) ∨ (∃ r ∈ ud.env, c = ⟨_, r⟩) ∨
      ∃ v ∈ ud.secretValue, c ∈ v.objRef := by
  simp only [Obj.refs, Obj.vals, Userdata.vals, Obj.upvalueRefs, List.map_nil, List.append_nil,
    List.mem_filterMap, List.mem_append, Option.mem_toList, Option.map_eq_some_iff] at hc
  obtain ⟨v, (⟨r, hr, rfl⟩ | ⟨r, hr, rfl⟩) | hv, hvc⟩ := hc
  · exact .inl ⟨r, hr, (Option.some.inj hvc).symm⟩
  · exact .inr (.inl ⟨r, hr, (Option.some.inj hvc).symm⟩)
  · exact .inr (.inr ⟨v, hv, hvc⟩)

/-- Marking the metatable, the environment and then the secret value of a userdata. -/
theorem mark_userdata_parts (hw : g.currentWhite.isWhite = true) {ud : Userdata}
    (hP : ∀ c ∈ Obj.refs (k := .userdata) ud, P c) (f : Gc → Val → Gc)
    (hf : ∀ g' v, Marks P g g' → v ∈ ud.secretValue → Marks P g' (f g' v) ∧ (f g' v).SettledVal v)
    (hg' : g' = match ud.secretValue with
      | some v => f ((g.markTable? ud.metatable).markTable? ud.env) v
      | none => (g.markTable? ud.metatable).markTable? ud.env) :
    Marks P g g' ∧ ∀ c ∈ Obj.refs (k := .userdata) ud, g'.Settled c := by
  have hmt : ∀ r ∈ ud.metatable, P ⟨_, r⟩ := fun r hr => hP _ (by
    rw [Option.mem_def] at hr
    simp [Obj.refs, Obj.vals, Userdata.vals, hr, Val.objRef])
  have henv : ∀ r ∈ ud.env, P ⟨_, r⟩ := fun r hr => hP _ (by
    rw [Option.mem_def] at hr
    simp [Obj.refs, Obj.vals, Userdata.vals, hr, Val.objRef])
  obtain ⟨h1, hs1⟩ := markTable?_marks hw hmt
  have hw1 : (g.markTable? ud.metatable).currentWhite.isWhite = true := h1.currentWhite_eq ▸ hw
  obtain ⟨h2, hs2⟩ := markTable?_marks hw1 henv
  have h12 := h1.trans h2 hw
  have hw2 : ((g.markTable? ud.metatable).markTable? ud.env).currentWhite.isWhite = true :=
    h12.currentWhite_eq ▸ hw
  cases hv : ud.secretValue with
  | none =>
    rw [hv] at hg'
    subst hg'
    refine ⟨h12, fun c hc => ?_⟩
    rcases mem_refs_userdata hc with ⟨r, hr, rfl⟩ | ⟨r, hr, rfl⟩ | ⟨v, hv', -⟩
    · exact h2.settled hw1 (hs1 r hr)
    · exact hs2 r hr
    · rw [hv] at hv'; cases hv'
  | some v =>
    rw [hv] at hg'
    subst hg'
    obtain ⟨h3, hs3⟩ := hf _ v h12 hv
    refine ⟨h12.trans h3 hw, fun c hc => ?_⟩
    rcases mem_refs_userdata hc with ⟨r, hr, rfl⟩ | ⟨r, hr, rfl⟩ | ⟨v', hv', hc'⟩
    · exact h3.settled hw2 (h2.settled hw1 (hs1 r hr))
    · exact h3.settled hw2 (hs2 r hr)
    · rw [hv] at hv'; cases hv'; exact hs3 c hc'

/-- With fuel for every white userdata, a value is marked and so is what a userdata leads to. -/
theorem markValueFuel_marks {fuel : ℕ} (hfuel : g.heap.whites .userdata < fuel) (hcl : RefClosed P g)
    (hw : g.currentWhite.isWhite = true) {v : Val} (hP : ∀ o ∈ v.objRef, P o) :
    Marks P g (markValueFuel fuel g v) ∧ (markValueFuel fuel g v).SettledVal v := by
  have hnone : ∀ v' : Val, v'.objRef = none → g.SettledVal v' := fun v' h o ho => by rw [h] at ho; cases ho
  induction fuel generalizing g v with
  | zero => omega
  | succ fuel ih =>
    cases v with
    | nil => exact ⟨.refl P g, hnone _ rfl⟩
    | bool b => exact ⟨.refl P g, hnone _ rfl⟩
    | num n => exact ⟨.refl P g, hnone _ rfl⟩
    | lightUserdata p => exact ⟨.refl P g, hnone _ rfl⟩
    | str r =>
      obtain ⟨h, hs⟩ := markString_marks hw (hP _ rfl)
      exact ⟨h, by rintro o ⟨⟩; exact hs⟩
    | table r =>
      obtain ⟨h, hs⟩ := markTable_marks hw (hP _ rfl)
      exact ⟨h, by rintro o ⟨⟩; exact hs⟩
    | function r =>
      obtain ⟨h, hs⟩ := markClosure_marks hw (hP _ rfl)
      exact ⟨h, by rintro o ⟨⟩; exact hs⟩
    | thread r =>
      obtain ⟨h, hs⟩ := markThread_marks hw (hP _ rfl)
      exact ⟨h, by rintro o ⟨⟩; exact hs⟩
    | userdata r =>
      cases hm : (g.heap.markWhiteUnfrozen ⟨_, r⟩ .black).2 with
      | false =>
        have heq : markValueFuel (fuel + 1) g (.userdata r) = g := by simp [markValueFuel, hm]
        rw [heq]
        exact ⟨.refl P g, by rintro o ⟨⟩; exact mark_settled hw .black hm⟩
      | true =>
        obtain ⟨x, hx, hmx⟩ := exists_markable hm
        set g₀ : Gc := { g with heap := (g.heap.markWhiteUnfrozen ⟨_, r⟩ .black).1 } with hg₀
        have hcell : g₀.heap.cell ⟨_, r⟩ = some { x with color := .black } := cell_mark_self hx hmx .black
        have hget : g₀.heap.get r = some x.value := by rw [Heap.get_eq, hcell]; rfl
        have hone := Heap.whites_mark g.heap ⟨_, r⟩ (c := .black) rfl hm
        have hcl₀ : RefClosed P g₀ := hcl.of_values fun o y hy => by
          rw [hg₀, Heap.cell_markWhiteUnfrozen] at hy
          split at hy
          · obtain ⟨z, hz, rfl⟩ := Option.map_eq_some_iff.mp hy
            refine ⟨z, hz, ?_⟩
            split <;> rfl
          · exact ⟨y, hy, rfl⟩
        have hparts := mark_userdata_parts (P := P) (g := g₀) hw
          (hcl _ x (by simp) (hP _ rfl) hx) (markValueFuel fuel) (fun g' v h (hv : v ∈ x.value.secretValue) => by
            have hu : g'.heap.whites .userdata < fuel := by
              have hle := h.userdata_le
              have hone' : g₀.heap.whites .userdata + 1 = g.heap.whites .userdata := hone
              omega
            refine ih hu (hcl₀.marks h) (h.currentWhite_eq ▸ hw) (fun o ho => ?_) fun v' hv' o ho => by
              rw [hv'] at ho; cases ho
            refine hcl _ x (by simp) (hP _ rfl) hx o ?_
            simp only [Obj.refs, Obj.vals, Userdata.vals, List.mem_append, List.mem_filterMap]
            exact .inl ⟨v, .inr (Option.mem_toList.mpr hv), ho⟩) rfl
        have heq : markValueFuel (fuel + 1) g (.userdata r) =
            match x.value.secretValue with
            | some v => markValueFuel fuel ((g₀.markTable? x.value.metatable).markTable? x.value.env) v
            | none => (g₀.markTable? x.value.metatable).markTable? x.value.env := by
          cases hsv : x.value.secretValue with
          | none => simp only [markValueFuel, hm, if_true, hget, hsv, g₀]
          | some v => simp only [markValueFuel, hm, if_true, hget, hsv, g₀]
        rw [← heq] at hparts
        obtain ⟨h, hs⟩ := hparts.1.blacken hw hx hmx (hP _ rfl) (.inr (.inr rfl)) hparts.2
        exact ⟨h, by rintro o ⟨⟩; exact hs⟩

theorem markValue_marks (hcl : RefClosed P g) (hw : g.currentWhite.isWhite = true) {v : Val}
    (hP : ∀ o ∈ v.objRef, P o) : Marks P g (g.markValue v) ∧ (g.markValue v).SettledVal v :=
  markValueFuel_marks (Nat.lt_succ_of_le (Heap.whites_le ..)) hcl hw hP

/-- A fold of marking steps marks every element of the list. -/
theorem foldl_marks {α : Type} {f : Gc → α → Gc} {S : Gc → α → Prop}
    (hS : ∀ g g' a, Marks P g g' → g.currentWhite.isWhite = true → S g a → S g' a) :
    ∀ {l : List α} {g : Gc}, RefClosed P g → g.currentWhite.isWhite = true →
      (∀ g a, a ∈ l → RefClosed P g → g.currentWhite.isWhite = true → Marks P g (f g a) ∧ S (f g a) a) →
      Marks P g (l.foldl f g) ∧ ∀ a ∈ l, S (l.foldl f g) a
  | [], g, _, _, _ => ⟨.refl P g, by simp⟩
  | a :: l, g, hcl, hw, hf => by
    obtain ⟨h, hs⟩ := hf g a (List.mem_cons_self ..) hcl hw
    have hw' : (f g a).currentWhite.isWhite = true := h.currentWhite_eq ▸ hw
    obtain ⟨h', hs'⟩ := foldl_marks hS (hcl.marks h) hw' fun g b hb => hf g b (List.mem_cons_of_mem _ hb)
    refine ⟨h.trans h' hw, fun b hb => ?_⟩
    rcases List.mem_cons.mp hb with rfl | hb
    · exact hS _ _ b h' hw' hs
    · exact hs' b hb

theorem markValues_marks (hcl : RefClosed P g) (hw : g.currentWhite.isWhite = true) {vs : List Val}
    (hP : ∀ v ∈ vs, ∀ o ∈ v.objRef, P o) :
    Marks P g (g.markValues vs) ∧ ∀ v ∈ vs, (g.markValues vs).SettledVal v :=
  foldl_marks (f := markValue) (S := SettledVal) (fun _ _ _ h hw hs => h.settledVal hw hs) hcl hw
    fun _ v hv hcl hw => markValue_marks hcl hw (hP v hv)

theorem markUpvalue_marks (hcl : RefClosed P g) (hw : g.currentWhite.isWhite = true)
    {r : GcRef .upvalue} (hP : P ⟨_, r⟩) :
    Marks P g (g.markUpvalue r) ∧ (g.markUpvalue r).Settled ⟨_, r⟩ := by
  cases hm : (g.heap.markWhiteUnfrozen ⟨_, r⟩ .black).2 with
  | false =>
    have heq : g.markUpvalue r = g := by simp [markUpvalue, hm]
    rw [heq]
    exact ⟨.refl P g, mark_settled hw .black hm⟩
  | true =>
    obtain ⟨x, hx, hmx⟩ := exists_markable hm
    set g₀ : Gc := { g with heap := (g.heap.markWhiteUnfrozen ⟨_, r⟩ .black).1 } with hg₀
    have hcell : g₀.heap.cell ⟨_, r⟩ = some { x with color := .black } := cell_mark_self hx hmx .black
    have hget : g₀.heap.get r = some x.value := by rw [Heap.get_eq, hcell]; rfl
    have hcl₀ : RefClosed P g₀ := hcl.of_values fun o y hy => by
      rw [hg₀, Heap.cell_markWhiteUnfrozen] at hy
      split at hy
      · obtain ⟨z, hz, rfl⟩ := Option.map_eq_some_iff.mp hy
        refine ⟨z, hz, ?_⟩
        split <;> rfl
      · exact ⟨y, hy, rfl⟩
    have hPx := hcl _ x (by simp) hP hx
    rcases hxv : x.value with ⟨i | v⟩
    · have heq : g.markUpvalue r = g₀ := by
        rw [hxv] at hget
        simp only [markUpvalue, hm, if_true]
        rw [hget]
      rw [heq]
      refine Marks.blacken hw hx hmx hP (.inr (.inl rfl)) (.refl P g₀) fun c hc => ?_
      rw [hxv] at hc
      cases hc
    · have heq : g.markUpvalue r = g₀.markValue v := by
        rw [hxv] at hget
        simp only [markUpvalue, hm, if_true]
        rw [hget]
      rw [heq]
      have hrefs : ∀ c, c ∈ Obj.refs (k := .upvalue) x.value ↔ c ∈ v.objRef := by
        intro c
        rw [hxv]
        simp [Obj.refs, Obj.vals, Upvalue.vals, Obj.upvalueRefs]
      obtain ⟨h, hs⟩ := markValue_marks (g := g₀) (v := v) hcl₀ hw fun o ho => hPx o ((hrefs o).mpr ho)
      exact h.blacken hw hx hmx hP (.inr (.inl rfl)) fun c hc => hs c ((hrefs c).mp hc)

theorem markUpvalues_marks (hcl : RefClosed P g) (hw : g.currentWhite.isWhite = true)
    {rs : List (GcRef .upvalue)} (hP : ∀ r ∈ rs, P ⟨_, r⟩) :
    Marks P g (g.markUpvalues rs) ∧ ∀ r ∈ rs, (g.markUpvalues rs).Settled ⟨_, r⟩ :=
  foldl_marks (S := fun g r => g.Settled ⟨_, r⟩) (fun _ _ _ h hw hs => h.settled hw hs) hcl hw
    fun _ r hr hcl hw => markUpvalue_marks hcl hw (hP r hr)

theorem markStrings_marks (hcl : RefClosed P g) (hw : g.currentWhite.isWhite = true)
    {rs : List (GcRef .string)} (hP : ∀ r ∈ rs, P ⟨_, r⟩) :
    Marks P g (rs.foldl markString g) ∧ ∀ r ∈ rs, (rs.foldl markString g).Settled ⟨_, r⟩ :=
  foldl_marks (S := fun g r => g.Settled ⟨_, r⟩) (fun _ _ _ h hw hs => h.settled hw hs) hcl hw
    fun _ r hr _ hw => markString_marks hw (hP r hr)

end Gc

end Rilua.Vm
