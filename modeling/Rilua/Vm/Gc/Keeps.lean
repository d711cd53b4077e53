import Rilua.Vm.Gc.Tricolor
import Rilua.Vm.Gc.Sweeping

/-! What the mark phase leaves as it was: it recolours objects, fills the lists of the collector and flags the userdata
    it schedules for finalization. No string, table, closure, upvalue or coroutine changes its content, so a metafield
    is the same before and after, and with it the weak mode of a table. -/

namespace Rilua.Vm.Gc

namespace Arena

variable {k : ObjKind} {T : Type}

/-- The references to the objects of an arena and their values. -/
def contents (a : Arena k T) : List (GcRef k × T) := a.iter.map fun e => (e.1, e.2.1)

/-- The object in slot `i`. -/
def slotAt (a : Arena k T) (i : ℕ) : Option (GcRef k × T) := do
  let entry ← a.entries[i]?
  let value ← entry.value?
  some (⟨i, entry.generation⟩, value)

theorem slotAt_eq_some {a : Arena k T} {i : ℕ} {r : GcRef k} {v : T} :
    a.slotAt i = some (r, v) ↔ r.index = i ∧ a.get r = some v := by
  simp only [slotAt, bind, Option.bind_eq_some_iff]
  constructor
  · rintro ⟨⟨g, st⟩, he, v', hv, heq⟩
    cases st with
    | free n => cases hv
    | occupied w =>
      cases hv
      cases heq
      exact ⟨rfl, get_eq_some.mpr he⟩
  · rintro ⟨rfl, hget⟩
    exact ⟨_, get_eq_some.mp hget, v, rfl, rfl⟩

theorem contents_eq {a : Arena k T} (hw : a.Wf) :
    a.contents = (List.range a.entries.length).filterMap a.slotAt := by
  rw [contents, iter, List.map_filterMap]
  refine List.filterMap_congr fun i _ => ?_
  simp only [slotAt, bind]
  cases he : a.entries[i]? with
  | none => rfl
  | some e =>
    simp only [Option.bind_some]
    cases hv : e.value? with
    | none => rfl
    | some v =>
      obtain ⟨c, hc⟩ := hw.color_occupied i ⟨e, he, by rw [Entry.isOccupied, hv]; rfl⟩
      simp [hc]

theorem mem_contents {a : Arena k T} (hw : a.Wf) {r : GcRef k} {v : T} : (r, v) ∈ a.contents ↔ a.get r = some v := by
  rw [contents_eq hw, List.mem_filterMap]
  constructor
  · rintro ⟨i, -, hi⟩
    exact (slotAt_eq_some.mp hi).2
  · intro hget
    exact ⟨r.index, List.mem_range.mpr (occupiedSlot_of_get hget).lt, slotAt_eq_some.mpr ⟨rfl, hget⟩⟩

/-- Two arenas that hold the same objects list them in the same order. -/
theorem contents_congr {a b : Arena k T} (ha : a.Wf) (hb : b.Wf) (hlen : b.entries.length = a.entries.length)
    (h : ∀ r, b.get r = a.get r) : b.contents = a.contents := by
  rw [contents_eq ha, contents_eq hb, hlen]
  refine List.filterMap_congr fun i _ => Option.ext fun ⟨r, v⟩ => ?_
  rw [slotAt_eq_some, slotAt_eq_some, h]

end Arena

end Rilua.Vm.Gc

namespace Rilua.Vm

open Gc

namespace Gc

variable {g g' g'' : Gc}

/-! ### Relations kept by marking -/

/-- A relation between the heap before and after that the single writes of the mark phase satisfy. Strings are only
    ever marked black. -/
structure MarkSteps (R : Gc → Gc → Prop) : Prop where
  refl : ∀ g, R g g
  trans : ∀ {g g' g'' : Gc}, R g g' → R g' g'' → R g g''
  mark : ∀ (g : Gc) (o : ObjRef) (c : Color), (o.kind = .string → c = .black) →
    R g { g with heap := (g.heap.markWhiteUnfrozen o c).1 }
  setColor : ∀ (g : Gc) (o : ObjRef) (c : Color), o.kind ≠ .string → R g { g with heap := g.heap.setColor o c }
  lists : ∀ (g : Gc) (gray grayagain : List GrayItem) (weakTables : List (GcRef .table)) (tmudata : List (GcRef .userdata)),
    R g { g with gcState := { g.gcState with gray, grayagain, weakTables, tmudata } }
  finalize : ∀ (g : Gc) (r : GcRef .userdata),
    R g { g with heap := g.heap.modify r fun ud : Userdata => { ud with finalized := true } }

namespace MarkSteps

variable {R : Gc → Gc → Prop} (hR : MarkSteps R)

include hR

theorem foldl {α : Type} {f : Gc → α → Gc} (hf : ∀ g a, R g (f g a)) : ∀ (l : List α) (g : Gc), R g (l.foldl f g)
  | [], g => hR.refl g
  | a :: l, g => hR.trans (hf g a) (foldl hf l (f g a))

theorem markString (g : Gc) (r : GcRef .string) : R g (g.markString r) := hR.mark g _ _ fun _ => rfl

theorem markGray (g : Gc) (o : ObjRef) (item : GrayItem) (ho : o.kind ≠ .string) : R g (g.markGray o item) := by
  rw [Gc.markGray]
  dsimp only
  split
  · exact hR.trans (hR.mark g o .gray fun hs => absurd hs ho) (hR.lists ..)
  · exact hR.refl g

theorem markTable (g : Gc) (r : GcRef .table) : R g (g.markTable r) := hR.markGray g _ _ (by simp)

theorem markTable? (g : Gc) (r : Option (GcRef .table)) : R g (g.markTable? r) := by
  cases r with
  | none => exact hR.refl g
  | some r => exact hR.markTable g r

theorem markValueFuel : ∀ (fuel : ℕ) (g : Gc) (v : Val), R g (Gc.markValueFuel fuel g v)
  | _, g, .str r => by
    rw [Gc.markValueFuel]
    exact hR.markString g r
  | _, g, .table r => by
    rw [Gc.markValueFuel]
    exact hR.markTable g r
  | _, g, .function r => by
    rw [Gc.markValueFuel]
    exact hR.markGray g _ _ (by simp)
  | _, g, .thread r => by
    rw [Gc.markValueFuel]
    exact hR.markGray g _ _ (by simp)
  | 0, g, .userdata _ => by
    rw [Gc.markValueFuel]
    exact hR.refl g
  | fuel + 1, g, .userdata r => by
    have h := hR.mark g ⟨_, r⟩ .black fun _ => rfl
    rw [Gc.markValueFuel]
    dsimp only
    split
    · split
      · next ud _ =>
        have hparts := hR.trans (hR.trans h (hR.markTable? _ ud.metatable)) (hR.markTable? _ ud.env)
        split
        · exact hR.trans hparts (markValueFuel fuel _ _)
        · exact hparts
      · exact h
    · exact hR.refl g
  | _, g, .nil => by
    rw [Gc.markValueFuel]
    exact hR.refl g
  | _, g, .bool _ => by
    rw [Gc.markValueFuel]
    exact hR.refl g
  | _, g, .num _ => by
    rw [Gc.markValueFuel]
    exact hR.refl g
  | _, g, .lightUserdata _ => by
    rw [Gc.markValueFuel]
    exact hR.refl g

theorem markValue (g : Gc) (v : Val) : R g (g.markValue v) := hR.markValueFuel ..

theorem markValues (g : Gc) (vs : List Val) : R g (g.markValues vs) := hR.foldl hR.markValue vs g

theorem markUpvalue (g : Gc) (r : GcRef .upvalue) : R g (g.markUpvalue r) := by
  have h := hR.mark g ⟨_, r⟩ .black fun _ => rfl
  rw [Gc.markUpvalue]
  dsimp only
  split
  · split
    · exact hR.trans h (hR.markValue _ _)
    · exact h
  · exact hR.refl g

theorem markUpvalues (g : Gc) (rs : List (GcRef .upvalue)) : R g (g.markUpvalues rs) := hR.foldl hR.markUpvalue rs g

/-- A weak table is put on the list of the weak tables. -/
theorem addWeak (g : Gc) (r : GcRef .table) (weak : Bool) :
    R g (if weak then
      { g with gcState := { g.gcState with weakTables := g.gcState.weakTables ++ [r] } } else g) := by
  cases weak
  · exact hR.refl g
  · exact hR.lists ..

theorem traverseTable (g : Gc) (r : GcRef .table) : R g (g.traverseTable r) := by
  have hblack := hR.setColor g ⟨_, r⟩ .black (by simp)
  rw [Gc.traverseTable]
  split
  · exact hblack
  · split
    · exact hR.refl g
    · next t _ =>
      have h := fun weak => hR.trans (hR.trans hblack (hR.markTable? _ (Table.metatable t))) (hR.addWeak _ r weak)
      dsimp only
      split
      · exact h _
      · split
        · exact hR.trans (h _) (hR.markValues _ _)
        · exact hR.trans (hR.trans (h _) (hR.markValues _ _)) (hR.markValues _ _)

theorem traverseClosure (g : Gc) (r : GcRef .closure) : R g (g.traverseClosure r) := by
  have hblack := hR.setColor g ⟨_, r⟩ .black (by simp)
  rw [Gc.traverseClosure]
  split
  · exact hR.refl g
  · dsimp only
    split
    · exact hR.trans (hR.trans (hR.trans hblack (hR.markTable ..)) (hR.markUpvalues ..)) (hR.markValues ..)
    · exact hR.trans (hR.trans hblack (hR.markTable? ..)) (hR.markValues ..)

theorem markThreadStack (g : Gc) (t : LuaThread) : R g (g.markThreadStack t) :=
  hR.trans (hR.trans (hR.markValues ..) (hR.markUpvalues ..)) (hR.markUpvalues ..)

theorem traverseThread (g : Gc) (r : GcRef .thread) : R g (g.traverseThread r) := by
  rw [Gc.traverseThread]
  split
  · exact hR.refl g
  · next t _ =>
    let t : LuaThread := t
    have h := hR.trans (hR.trans (hR.trans (hR.setColor g ⟨_, r⟩ .black (by simp)) (hR.markTable _ t.global))
      (hR.markValue _ t.hookFunc)) (hR.markThreadStack _ t)
    exact hR.trans h (hR.lists ..)

theorem propagateOne_done (h : g.propagateOne = .done g') : R g g' := by
  rw [Gc.propagateOne] at h
  split at h
  · cases h
  · next item gray _ =>
    have hpop : R g { g with gcState := { g.gcState with gray } } := hR.lists ..
    cases item with
    | table r =>
      cases h
      exact hR.trans hpop (hR.traverseTable ..)
    | closure r =>
      cases h
      exact hR.trans hpop (hR.traverseClosure ..)
    | thread r =>
      cases h
      exact hR.trans hpop (hR.traverseThread ..)
    | mainThread => cases h

theorem propagateOne_needMainThread (h : g.propagateOne = .needMainThread g') : R g g' := by
  rw [Gc.propagateOne] at h
  split at h
  · cases h
  · next item gray _ =>
    cases item with
    | mainThread =>
      cases h
      exact hR.lists ..
    | _ => cases h

theorem propagateAllFuel : ∀ (fuel : ℕ) (g : Gc), R g (Gc.propagateAllFuel fuel g)
  | 0, g => hR.refl g
  | fuel + 1, g => by
    rw [Gc.propagateAllFuel]
    split
    · next heq => exact hR.trans (hR.propagateOne_done heq) (propagateAllFuel fuel _)
    · next heq => exact hR.trans (hR.propagateOne_needMainThread heq) (propagateAllFuel fuel _)
    · exact hR.refl g

theorem propagateAll (g : Gc) : R g g.propagateAll := hR.propagateAllFuel ..

theorem retraverse (g : Gc) (i : GrayItem) : R g (g.retraverse i) := by
  cases i with
  | thread r =>
    rw [Gc.retraverse]
    split
    · exact hR.refl g
    · exact hR.trans (hR.trans (hR.setColor g ⟨_, r⟩ .black (by simp)) (hR.markTable ..)) (hR.markThreadStack ..)
  | table r => exact hR.trans (hR.setColor g ⟨_, r⟩ .gray (by simp)) (hR.traverseTable ..)
  | closure r => exact hR.trans (hR.setColor g ⟨_, r⟩ .gray (by simp)) (hR.traverseClosure ..)
  | mainThread => exact hR.refl g

theorem separate (g : Gc) (r : GcRef .userdata) : R g (g.separate r) :=
  hR.trans (hR.trans (hR.finalize g r) (hR.setColor _ ⟨_, r⟩ .gray (by simp))) (hR.lists ..)

theorem markTm (g : Gc) (r : GcRef .userdata) : R g (g.markTm r) := by
  rw [Gc.markTm]
  split
  · exact hR.refl g
  · next ud _ =>
    have h := hR.trans (hR.trans (hR.setColor g ⟨_, r⟩ .black (by simp)) (hR.markTable? _ (Userdata.metatable ud)))
      (hR.markTable? _ (Userdata.env ud))
    dsimp only
    split
    · exact hR.trans h (hR.markValue ..)
    · exact h

theorem atomicMark (g : Gc) : R g g.atomicMark := by
  have hlist : R g { g with gcState := { g.gcState with grayagain := [] } } := hR.lists ..
  have hagain := hR.trans (hR.trans hlist (hR.foldl hR.retraverse g.gcState.grayagain _)) (hR.propagateAll _)
  exact hR.trans (hR.trans (hR.trans hagain (hR.foldl hR.separate _ _)) (hR.foldl hR.markTm _ _)) (hR.propagateAll _)

theorem markThreadFields (g : Gc) (t : ThreadFields) (upvalues : List (GcRef .upvalue)) :
    R g (LuaState.markThreadFields g t upvalues) :=
  hR.trans (hR.trans (hR.trans (hR.trans (hR.markValues ..) (hR.markUpvalues ..)) (hR.markValues ..)) (hR.markValue ..))
    (hR.markValues ..)

theorem markMainThread (s : LuaState) : R s.gc s.markMainThread :=
  hR.trans (hR.markThreadFields ..) (hR.foldl (fun _ _ => hR.markThreadFields ..) _ _)

theorem traverseMainThread (s : LuaState) : R s.gc s.traverseMainThread.gc :=
  hR.trans (hR.markMainThread s) (hR.lists ..)

theorem markGcRoots (g : Gc) : R g g.markGcRoots :=
  hR.trans (hR.trans (hR.trans (hR.foldl hR.markTable? _ _) (hR.foldl hR.markString _ _)) (hR.foldl hR.markString _ _))
    (hR.foldl hR.markString _ _)

theorem markCachedStateStrings (s : LuaState) (g : Gc) : R g (s.markCachedStateStrings g) := by
  have hnames : R g ((s.hookEventNames ++ s.hookMaskNames ++ s.debugInfoFieldNames).foldl Gc.markString g) :=
    hR.foldl hR.markString _ _
  rw [LuaState.markCachedStateStrings]
  split
  · exact hR.trans (hR.trans hnames (hR.markValues _ _)) (hR.foldl hR.markString _ _)
  · exact hnames

end MarkSteps

/-! ### Contents are kept -/

/-- No object but a userdata has changed its content. -/
structure Keeps (g g' : Gc) : Prop where
  currentWhite_eq : g'.currentWhite = g.currentWhite
  tmNames_eq : g'.tmNames = g.tmNames
  slots_eq : ∀ k, g'.heap.slots k = g.heap.slots k
  get_eq : ∀ (k : ObjKind) (r : GcRef k), k ≠ .userdata → g'.heap.get r = g.heap.get r

namespace Keeps

theorem refl (g : Gc) : Keeps g g := ⟨rfl, rfl, fun _ => rfl, fun _ _ _ => rfl⟩

theorem trans (h : Keeps g g') (h' : Keeps g' g'') : Keeps g g'' where
  currentWhite_eq := h'.currentWhite_eq.trans h.currentWhite_eq
  tmNames_eq := h'.tmNames_eq.trans h.tmNames_eq
  slots_eq k := (h'.slots_eq k).trans (h.slots_eq k)
  get_eq k r hk := (h'.get_eq k r hk).trans (h.get_eq k r hk)

/-- An object that keeps its value in its cell. -/
theorem of_cell {h : Heap} (hslots : ∀ k, h.slots k = g.heap.slots k)
    (hcell : ∀ o, (h.cell o).map Cell.value = (g.heap.cell o).map Cell.value) : Keeps g { g with heap := h } where
  currentWhite_eq := rfl
  tmNames_eq := rfl
  slots_eq := hslots
  get_eq k r _ := by
    show h.get r = g.heap.get r
    rw [Heap.get_eq, Heap.get_eq]
    exact hcell ⟨k, r⟩

theorem setColor (g : Gc) (o : ObjRef) (c : Color) : Keeps g { g with heap := g.heap.setColor o c } := by
  refine of_cell (Heap.slots_setColor g.heap o c) fun o' => ?_
  rw [Heap.cell_setColor]
  split
  · rw [Option.map_map]
    rfl
  · rfl

theorem mark (g : Gc) (o : ObjRef) (c : Color) : Keeps g { g with heap := (g.heap.markWhiteUnfrozen o c).1 } := by
  refine of_cell (Heap.slots_mark g.heap o c) fun o' => ?_
  rw [Heap.cell_markWhiteUnfrozen]
  split
  · rw [Option.map_map]
    refine congrArg (Option.map · (g.heap.cell o')) (funext fun x => ?_)
    dsimp only [Function.comp_apply]
    split <;> rfl
  · rfl

/-- The mark phase only ever changes the `finalized` bit of a userdata. -/
theorem markSteps : MarkSteps Keeps where
  refl := refl
  trans := trans
  mark g o c _ := mark g o c
  setColor g o c _ := setColor g o c
  lists _ _ _ _ _ := ⟨rfl, rfl, fun _ => rfl, fun _ _ _ => rfl⟩
  finalize g r := by
    refine ⟨rfl, rfl, fun k => Heap.slots_modify .., fun k r' hk => ?_⟩
    show (g.heap.modify r _).get r' = g.heap.get r'
    rw [Heap.get_eq, Heap.get_eq, Heap.cell_modify_ne _ _ _ fun he => hk (congrArg ObjRef.kind he)]

theorem keepString (g : Gc) (v : Val) : Keeps g (g.keepString v) := by
  cases v with
  | str s => exact setColor ..
  | _ => exact refl g

/-! ### Metafields -/

theorem findInternedString_eq (h : Keeps g g') (name : List UInt8) :
    g'.findInternedString name = g.findInternedString name := by
  have hget : ∀ r : GcRef .string, g'.heap.get r = g.heap.get r := fun r => h.get_eq .string r (by simp)
  have hcontents : (g'.heap.arena .string).contents = (g.heap.arena .string).contents :=
    Arena.contents_congr (g.heap.wf .string) (g'.heap.wf .string) (h.slots_eq .string) hget
  have hiter : ∀ g : Gc, ((g.heap.arena .string).iter.find? fun e => e.2.1.data == name).map Prod.fst =
      ((g.heap.arena .string).contents.find? fun e => LuaString.data e.2 == name).map Prod.fst := by
    intro g
    rw [Arena.contents, List.find?_map, Option.map_map]
    rfl
  rw [findInternedString, findInternedString, h.tmNames_eq, hiter, hiter, hcontents]
  simp only [hget]

theorem metafield_eq (h : Keeps g g') (mt : GcRef .table) (name : List UInt8) :
    g'.metafield mt name = g.metafield mt name := by
  have hstr : ∀ r : GcRef .string, g'.heap.get r = g.heap.get r := fun r => h.get_eq .string r (by simp)
  rw [metafield, metafield, h.findInternedString_eq, h.get_eq .table mt (by simp)]
  split
  · next t key _ _ => rw [Table.get_str_congr (hstr key) t]
  · rfl

theorem checkWeakMode_eq (h : Keeps g g') (mt : Option (GcRef .table)) :
    g'.checkWeakMode mt = g.checkWeakMode mt := by
  cases mt with
  | none => rfl
  | some mt =>
    rw [checkWeakMode, checkWeakMode, Option.map_some, Option.map_some, h.metafield_eq]
    split
    · next s _ => rw [h.get_eq .string s (by simp)]
    · rfl

end Keeps

end Gc

end Rilua.Vm
