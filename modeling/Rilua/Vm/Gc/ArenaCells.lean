import Rilua.Vm.Gc.ArenaInv

/-! What an arena looks like through its references. `cell r` is the value, colour and flags of the
    object `r` denotes; on well-formed arenas every operation is described by what it does to the cells,
    and keeps the representation invariant. -/

namespace Rilua.Vm.Gc

open Lib

/-- What a valid reference denotes. -/
structure Cell (T : Type) where
  value : T
  color : Color
  flags : Flags

namespace Arena

variable {k : ObjKind} {T : Type}

def cell (a : Arena k T) (r : GcRef k) : Option (Cell T) := do
  let value ← a.get r
  let color ← a.color r
  let flags ← a.flagsOf r
  some ⟨value, color, flags⟩

theorem entryOf_eq_some {a : Arena k T} {r : GcRef k} {e : Entry T} :
    a.entryOf r = some e ↔ a.entries[r.index]? = some e ∧ e.generation = r.generation := by
  simp [entryOf, Option.filter_eq_some_iff]

theorem get_eq_some {a : Arena k T} {r : GcRef k} {v : T} :
    a.get r = some v ↔ a.entries[r.index]? = some ⟨r.generation, .occupied v⟩ := by
  simp only [get, Option.bind_eq_some_iff, entryOf_eq_some]
  constructor
  · rintro ⟨⟨g, st⟩, ⟨he, rfl⟩, hv⟩
    cases st with
    | occupied w => cases hv; exact he
    | free n => cases hv
  · intro he
    exact ⟨_, ⟨he, rfl⟩, rfl⟩

theorem occupiedSlot_of_get {a : Arena k T} {r : GcRef k} {v : T} (h : a.get r = some v) :
    a.OccupiedSlot r.index := ⟨_, get_eq_some.mp h, rfl⟩

theorem color_eq_some {a : Arena k T} (hw : a.Wf) {r : GcRef k} {c : Color} :
    a.color r = some c ↔ (∃ v, a.get r = some v) ∧ a.colors[r.index]? = some (some c) := by
  simp only [color, Option.bind_eq_some_iff, entryOf_eq_some, Option.join_eq_some_iff]
  constructor
  · rintro ⟨⟨g, st⟩, ⟨he, rfl⟩, hc⟩
    refine ⟨?_, hc⟩
    cases st with
    | occupied v => exact ⟨v, get_eq_some.mpr he⟩
    | free n =>
      have := hw.color_free r.index ⟨_, he, rfl⟩
      rw [this] at hc; cases hc
  · rintro ⟨⟨v, hv⟩, hc⟩
    exact ⟨_, ⟨get_eq_some.mp hv, rfl⟩, hc⟩

theorem flagsOf_eq_some {a : Arena k T} (hw : a.Wf) {r : GcRef k} {fl : Flags} :
    a.flagsOf r = some fl ↔ (∃ v, a.get r = some v) ∧ a.flags[r.index]? = some fl := by
  simp only [flagsOf, occupiedIndex, Option.bind_eq_some_iff, Option.map_eq_some_iff, color_eq_some hw]
  constructor
  · rintro ⟨_, ⟨c, ⟨hv, -⟩, rfl⟩, hf⟩
    exact ⟨hv, hf⟩
  · rintro ⟨⟨v, hv⟩, hf⟩
    obtain ⟨c, hc⟩ := hw.color_occupied _ (occupiedSlot_of_get hv)
    exact ⟨_, ⟨c, ⟨⟨v, hv⟩, hc⟩, rfl⟩, hf⟩

theorem cell_eq_some {a : Arena k T} (hw : a.Wf) {r : GcRef k} {x : Cell T} :
    a.cell r = some x ↔ a.entries[r.index]? = some ⟨r.generation, .occupied x.value⟩ ∧
      a.colors[r.index]? = some (some x.color) ∧ a.flags[r.index]? = some x.flags := by
  simp only [cell, bind, Option.bind_eq_some_iff, color_eq_some hw, flagsOf_eq_some hw]
  constructor
  · rintro ⟨v, hv, c, ⟨-, hc⟩, fl, ⟨-, hf⟩, heq⟩
    cases heq
    exact ⟨get_eq_some.mp hv, hc, hf⟩
  · rintro ⟨hv, hc, hf⟩
    have hv := get_eq_some.mpr hv
    exact ⟨_, hv, _, ⟨⟨_, hv⟩, hc⟩, _, ⟨⟨_, hv⟩, hf⟩, rfl⟩

theorem cell_eq_none {a : Arena k T} (hw : a.Wf) {r : GcRef k} : a.cell r = none ↔ a.get r = none := by
  constructor
  · intro hn
    cases hv : a.get r with
    | none => rfl
    | some v =>
      obtain ⟨c, hc⟩ := hw.color_occupied _ (occupiedSlot_of_get hv)
      have hlt : r.index < a.flags.length := hw.flags_length ▸ (occupiedSlot_of_get hv).lt
      have := (cell_eq_some hw (x := ⟨v, c, a.flags[r.index]⟩)).mpr
        ⟨get_eq_some.mp hv, hc, List.getElem?_eq_getElem hlt⟩
      rw [hn] at this; cases this
  · intro hn
    simp [cell, hn]

theorem get_eq_cell {a : Arena k T} (hw : a.Wf) (r : GcRef k) : a.get r = (a.cell r).map Cell.value := by
  cases hx : a.cell r with
  | none => simpa using (cell_eq_none hw).mp hx
  | some x => simpa using get_eq_some.mpr ((cell_eq_some hw).mp hx).1

theorem color_eq_cell {a : Arena k T} (hw : a.Wf) (r : GcRef k) :
    a.color r = (a.cell r).map Cell.color := by
  cases hx : a.cell r with
  | none =>
    have hn := (cell_eq_none hw).mp hx
    refine Option.eq_none_iff_forall_ne_some.mpr fun c hc => ?_
    obtain ⟨⟨v, hv⟩, -⟩ := (color_eq_some hw).mp hc
    rw [hn] at hv; cases hv
  | some x =>
    obtain ⟨hv, hc, -⟩ := (cell_eq_some hw).mp hx
    exact (color_eq_some hw).mpr ⟨⟨_, get_eq_some.mpr hv⟩, hc⟩

theorem flagsOf_eq_cell {a : Arena k T} (hw : a.Wf) (r : GcRef k) :
    a.flagsOf r = (a.cell r).map Cell.flags := by
  cases hx : a.cell r with
  | none =>
    have hn := (cell_eq_none hw).mp hx
    refine Option.eq_none_iff_forall_ne_some.mpr fun c hc => ?_
    obtain ⟨⟨v, hv⟩, -⟩ := (flagsOf_eq_some hw).mp hc
    rw [hn] at hv; cases hv
  | some x =>
    obtain ⟨hv, -, hf⟩ := (cell_eq_some hw).mp hx
    exact (flagsOf_eq_some hw).mpr ⟨⟨_, get_eq_some.mpr hv⟩, hf⟩

theorem hasFlag_eq_cell {a : Arena k T} (hw : a.Wf) (r : GcRef k) (f : Flag) :
    a.hasFlag r f = ((a.cell r).map fun x => x.flags.has f).getD false := by
  rw [hasFlag, flagsOf_eq_cell hw]
  cases a.cell r <;> rfl

/-- Two references to one occupied slot are equal. -/
theorem cell_index_unique {a : Arena k T} (hw : a.Wf) {r r' : GcRef k} {x x' : Cell T}
    (h : a.cell r = some x) (h' : a.cell r' = some x') (hi : r.index = r'.index) : r = r' := by
  have h1 := ((cell_eq_some hw).mp h).1
  have h2 := ((cell_eq_some hw).mp h').1
  rw [hi, h2] at h1
  cases r; cases r'
  simp_all

/-- Cells only depend on the slot: the arenas agree on slot `r.index`, so they agree on `r`. -/
theorem cell_congr {a b : Arena k T} (ha : a.Wf) (hb : b.Wf) {r : GcRef k}
    (he : b.entries[r.index]? = a.entries[r.index]?) (hc : b.colors[r.index]? = a.colors[r.index]?)
    (hf : b.flags[r.index]? = a.flags[r.index]?) : b.cell r = a.cell r := by
  refine Option.ext fun x => ?_
  rw [cell_eq_some ha, cell_eq_some hb, he, hc, hf]

/-! ### Operations on cells -/

theorem alloc_cases {a a' : Arena k T} (hw : a.Wf) {v : T} {c : Color} {r : GcRef k}
    (h : a.alloc v c = some (a', r)) : ∃ len, checkedIncr a.len = some len ∧
      ((∃ n, a.freeHead = some r.index ∧ a.entries[r.index]? = some ⟨r.generation, .free n⟩ ∧
          a' = a.occupy r.index r.generation v c n len) ∨
        (a.freeHead = none ∧ r = ⟨a.entries.length, 0⟩ ∧ a' = a.push v c len)) := by
  simp only [alloc, bind, Option.bind_eq_some_iff] at h
  obtain ⟨len, hlen, h⟩ := h
  refine ⟨len, hlen, ?_⟩
  cases hh : a.freeHead with
  | none =>
    rw [hh] at h
    cases h
    exact .inr ⟨rfl, by rw [Nat.mod_eq_of_lt hw.capacity_lt], rfl⟩
  | some i =>
    rw [hh] at h
    obtain ⟨⟨g, st⟩, he, h⟩ := Option.bind_eq_some_iff.mp h
    cases h
    left
    -- the head of the free list is a free slot
    obtain ⟨l, hl, hmem⟩ := hw.freeList
    have hi : a.FreeSlot i := by
      refine (hmem i).mp ?_
      cases l with
      | nil => rw [Chain.nil_iff, hh] at hl; cases hl
      | cons j l' =>
        rw [Chain.cons_iff, hh] at hl
        exact Option.some.inj hl.1 ▸ List.mem_cons_self ..
    obtain ⟨e, he', ho⟩ := hi
    rw [he] at he'
    cases he'
    cases st with
    | occupied w => cases ho
    | free n => exact ⟨n, rfl, he, rfl⟩

/-- There is a slot as long as the slot count does not overflow. -/
theorem alloc_isSome {a : Arena k T} (hw : a.Wf) (v : T) (c : Color) (h : a.len + 1 < u32Size) :
    ∃ a' r, a.alloc v c = some (a', r) ∧ a'.len = a.len + 1 := by
  have hlen : checkedIncr a.len = some (a.len + 1) := if_pos h
  simp only [alloc, hlen]
  cases hh : a.freeHead with
  | none => exact ⟨_, _, rfl, rfl⟩
  | some i =>
    obtain ⟨l, hl, hmem⟩ := hw.freeList
    have hi : i ∈ l := by
      cases l with
      | nil => rw [Chain.nil_iff, hh] at hl; cases hl
      | cons j l' =>
        rw [Chain.cons_iff, hh] at hl
        exact Option.some.inj hl.1 ▸ List.mem_cons_self ..
    obtain ⟨e, he, -⟩ := (hmem i).mp hi
    simp only [he]
    exact ⟨_, _, rfl, rfl⟩

theorem Wf.alloc {a a' : Arena k T} (hw : a.Wf) {v : T} {c : Color} {r : GcRef k}
    (h : a.alloc v c = some (a', r)) : a'.Wf := by
  obtain ⟨len, hlen, ⟨n, hh, he, rfl⟩ | ⟨hh, -, rfl⟩⟩ := alloc_cases hw h
  · exact hw.occupy hh he (checkedIncr_eq_some hlen).1
  · exact hw.push hh hlen

/-- The reference handed out was not valid before. -/
theorem cell_alloc_fresh {a a' : Arena k T} (hw : a.Wf) {v : T} {c : Color} {r : GcRef k}
    (h : a.alloc v c = some (a', r)) : a.cell r = none := by
  refine (cell_eq_none hw).mpr (Option.eq_none_iff_forall_ne_some.mpr fun w hv => ?_)
  rw [get_eq_some] at hv
  obtain ⟨len, -, ⟨n, -, he, -⟩ | ⟨-, rfl, -⟩⟩ := alloc_cases hw h
  · rw [he] at hv; cases hv
  · simp at hv

theorem cell_alloc {a a' : Arena k T} (hw : a.Wf) {v : T} {c : Color} {r : GcRef k}
    (h : a.alloc v c = some (a', r)) (r' : GcRef k) :
    a'.cell r' = if r' = r then some ⟨v, c, {}⟩ else a.cell r' := by
  have hw' := hw.alloc h
  have hfresh := cell_alloc_fresh hw h
  obtain ⟨len, -, ⟨n, -, he, rfl⟩ | ⟨-, rfl, rfl⟩⟩ := alloc_cases hw h
  · have hlt : r.index < a.entries.length := (List.getElem?_eq_some_iff.mp he).1
    by_cases hi : r'.index = r.index
    · by_cases hr : r' = r
      · subst hr
        rw [if_pos rfl, cell_eq_some hw']
        simp [occupy, hlt, hw.colors_length, hw.flags_length]
      · rw [if_neg hr]
        have hn : a.cell r' = none := by
          refine (cell_eq_none hw).mpr (Option.eq_none_iff_forall_ne_some.mpr fun w hv => ?_)
          rw [get_eq_some, hi, he] at hv; simp at hv
        rw [hn]
        refine (cell_eq_none hw').mpr (Option.eq_none_iff_forall_ne_some.mpr fun w hv => hr ?_)
        rw [get_eq_some, hi] at hv
        simp only [occupy, List.getElem?_set_self hlt, Option.some.injEq, Entry.mk.injEq] at hv
        exact GcRef.ext hi hv.1.symm
    · rw [if_neg fun hr => hi (congrArg GcRef.index hr)]
      refine cell_congr hw hw' ?_ ?_ ?_ <;> simp [occupy, List.getElem?_set_ne (Ne.symm hi)]
  · by_cases hr : r' = ⟨a.entries.length, 0⟩
    · subst hr
      rw [if_pos rfl, cell_eq_some hw']
      refine ⟨by simp [push], ?_, ?_⟩
      · simp [push, ← hw.colors_length]
      · simp [push, ← hw.flags_length]
    · rw [if_neg hr]
      rcases Nat.lt_trichotomy r'.index a.entries.length with hi | hi | hi
      · refine cell_congr hw hw' ?_ ?_ ?_
        · simp [push, List.getElem?_append_left hi]
        · simp [push, List.getElem?_append_left (hw.colors_length ▸ hi)]
        · simp [push, List.getElem?_append_left (hw.flags_length ▸ hi)]
      · -- the new slot has generation 0, so only the new reference denotes it
        have hn : a.cell r' = none := by
          refine (cell_eq_none hw).mpr (Option.eq_none_iff_forall_ne_some.mpr fun w hv => ?_)
          rw [get_eq_some, hi] at hv; simp at hv
        rw [hn]
        refine (cell_eq_none hw').mpr (Option.eq_none_iff_forall_ne_some.mpr fun w hv => hr ?_)
        rw [get_eq_some, hi] at hv
        simp only [push, List.getElem?_concat_length, Option.some.injEq, Entry.mk.injEq] at hv
        exact GcRef.ext hi hv.1.symm
      · refine cell_congr hw hw' ?_ ?_ ?_
        · rw [push, List.getElem?_eq_none (by simp; omega), List.getElem?_eq_none (by omega)]
        · rw [push, List.getElem?_eq_none (by simp [hw.colors_length]; omega),
            List.getElem?_eq_none (by rw [hw.colors_length]; omega)]
        · rw [push, List.getElem?_eq_none (by simp [hw.flags_length]; omega),
            List.getElem?_eq_none (by rw [hw.flags_length]; omega)]

theorem modify_eq_self {a : Arena k T} {r : GcRef k} (f : T → T) (h : a.get r = none) :
    a.modify r f = a := by
  unfold modify
  split
  · next g v he =>
    rw [entryOf_eq_some] at he
    obtain ⟨he, rfl⟩ := he
    rw [get_eq_some.mpr he] at h; cases h
  · rfl

theorem modify_of_get {a : Arena k T} {r : GcRef k} {v : T} (f : T → T) (h : a.get r = some v) :
    a.modify r f = { a with entries := a.entries.set r.index ⟨r.generation, .occupied (f v)⟩ } := by
  have he : a.entryOf r = some ⟨r.generation, .occupied v⟩ := entryOf_eq_some.mpr ⟨get_eq_some.mp h, rfl⟩
  simp only [modify, he]

/-- Rewriting the value of an occupied slot changes no free slot, colour or flag. -/
theorem Wf.modify {a : Arena k T} (hw : a.Wf) (r : GcRef k) (f : T → T) : (a.modify r f).Wf := by
  cases hv : a.get r with
  | none => rwa [modify_eq_self f hv]
  | some v =>
    rw [modify_of_get f hv]
    have hocc := occupiedSlot_of_get hv
    set b : Arena k T := { a with entries := a.entries.set r.index ⟨r.generation, .occupied (f v)⟩ }
      with hb
    have hfree := freeSlot_set (b := b) hocc.lt rfl
    have hoc := occupiedSlot_set (b := b) hocc.lt rfl
    have hfree' : ∀ i, b.FreeSlot i ↔ a.FreeSlot i := by
      intro i
      rw [hfree i]
      split
      · next hi => subst hi; simp only [Entry.isOccupied_mk_occupied, Bool.true_eq_false, false_iff]
                   exact fun hf => hf.not_occupied hocc
      · rfl
    have hoc' : ∀ i, b.OccupiedSlot i ↔ a.OccupiedSlot i := by
      intro i
      rw [hoc i]
      split
      · next hi => subst hi; simp [hocc]
      · rfl
    refine ⟨by simp [hb, hw.colors_length], by simp [hb, hw.flags_length],
      fun i hi => hw.color_free i ((hfree' i).mp hi), fun i hi => hw.color_occupied i ((hoc' i).mp hi),
      fun i hi => hw.flags_free i ((hfree' i).mp hi), ?_, ?_, ?_, by simpa [hb] using hw.capacity_lt⟩
    · intro i e he
      by_cases hi : i = r.index
      · subst hi
        simp only [hb, List.getElem?_set_self hocc.lt, Option.some.injEq] at he
        subst he
        exact hw.generation_lt r.index ⟨r.generation, .occupied v⟩ (get_eq_some.mp hv)
      · simp only [hb, List.getElem?_set_ne (Ne.symm hi)] at he
        exact hw.generation_lt i e he
    · obtain ⟨l, hl, hmem⟩ := hw.freeList
      refine ⟨l, hl.congr fun j hj => nextFree_set_ne (fun hij => ?_) rfl rfl,
        fun i => by rw [hmem i, hfree' i]⟩
      exact ((hmem j).mp hj).not_occupied (hij ▸ hocc)
    · have hcount := List.countP_set (p := Entry.isOccupied)
        (a := (⟨r.generation, .occupied (f v)⟩ : Entry T)) hocc.lt
      obtain ⟨_, hget⟩ := List.getElem?_eq_some_iff.mp (get_eq_some.mp hv)
      have hpos : 0 < a.occupiedCount :=
        List.countP_pos_iff.mpr ⟨_, List.getElem_mem hocc.lt, by rw [hget]; rfl⟩
      simp only [hget, Entry.isOccupied_mk_occupied, if_true] at hcount
      simp only [occupiedCount, hb, hcount, hw.len_eq]
      simp only [occupiedCount] at hpos
      omega

theorem cell_modify {a : Arena k T} (hw : a.Wf) (r : GcRef k) (f : T → T) (r' : GcRef k) :
    (a.modify r f).cell r' =
      if r' = r then (a.cell r').map fun x => { x with value := f x.value } else a.cell r' := by
  have hw' := hw.modify r f
  cases hv : a.get r with
  | none =>
    rw [modify_eq_self f hv]
    split
    · next hr => subst hr; rw [(cell_eq_none hw).mpr hv]; rfl
    · rfl
  | some v =>
    have hlt := (occupiedSlot_of_get hv).lt
    rw [modify_of_get f hv] at hw' ⊢
    by_cases hi : r'.index = r.index
    · by_cases hr : r' = r
      · subst hr
        rw [if_pos rfl]
        obtain ⟨x, hx⟩ : ∃ x, a.cell r' = some x := by
          refine Option.ne_none_iff_exists'.mp fun hn => ?_
          rw [(cell_eq_none hw).mp hn] at hv; cases hv
        have hxv : x.value = v := by
          rw [get_eq_cell hw, hx] at hv; exact Option.some.inj hv
        rw [hx, Option.map_some, cell_eq_some hw']
        have hx' := (cell_eq_some hw).mp hx
        exact ⟨by simp [hlt, hxv], hx'.2.1, hx'.2.2⟩
      · rw [if_neg hr]
        have hne : r'.generation ≠ r.generation := fun hg => hr (GcRef.ext hi hg)
        have hn : a.cell r' = none := by
          refine (cell_eq_none hw).mpr (Option.eq_none_iff_forall_ne_some.mpr fun w hw' => hne ?_)
          rw [get_eq_some, hi, get_eq_some.mp hv] at hw'
          simp only [Option.some.injEq, Entry.mk.injEq] at hw'
          exact hw'.1.symm
        rw [hn]
        refine (cell_eq_none hw').mpr (Option.eq_none_iff_forall_ne_some.mpr fun w hw' => hne ?_)
        rw [get_eq_some, hi] at hw'
        simp only [List.getElem?_set_self hlt, Option.some.injEq, Entry.mk.injEq] at hw'
        exact hw'.1.symm
    · rw [if_neg fun hr => hi (congrArg GcRef.index hr)]
      exact cell_congr hw hw' (by simp [List.getElem?_set_ne (Ne.symm hi)]) rfl rfl

theorem occupiedIndex_eq {a : Arena k T} (hw : a.Wf) (r : GcRef k) :
    a.occupiedIndex r = (a.cell r).map fun _ => r.index := by
  rw [occupiedIndex, color_eq_cell hw]
  cases a.cell r <;> rfl

theorem occupiedSlot_of_cell {a : Arena k T} (hw : a.Wf) {r : GcRef k} {x : Cell T}
    (h : a.cell r = some x) : a.OccupiedSlot r.index := ⟨_, ((cell_eq_some hw).mp h).1, rfl⟩

theorem setColor_eq {a : Arena k T} (hw : a.Wf) (r : GcRef k) (c : Color) :
    a.setColor r c =
      if (a.cell r).isSome then (a.recolor r.index c, true) else (a, false) := by
  rw [setColor, occupiedIndex_eq hw]
  cases a.cell r <;> rfl

theorem Wf.setColor {a : Arena k T} (hw : a.Wf) (r : GcRef k) (c : Color) : (a.setColor r c).1.Wf := by
  rw [setColor_eq hw]
  cases hx : a.cell r with
  | none => simpa using hw
  | some x => simpa using hw.recolor (occupiedSlot_of_cell hw hx)

/-- Recolouring slot `i` recolours whatever reference denotes it. -/
theorem cell_recolor {a : Arena k T} (hw : a.Wf) {i : ℕ} (hi : a.OccupiedSlot i) (c : Color)
    (r : GcRef k) : (a.recolor i c).cell r =
      if r.index = i then (a.cell r).map fun x => { x with color := c } else a.cell r := by
  have hw' := hw.recolor (c := c) hi
  split
  · next hri =>
    subst hri
    refine Option.ext fun y => ?_
    have hlt : r.index < a.colors.length := hw.colors_length ▸ hi.lt
    rw [cell_eq_some hw', Option.map_eq_some_iff]
    simp only [recolor, List.getElem?_set_self hlt]
    constructor
    · rintro ⟨he, hc, hf⟩
      obtain ⟨c', hc'⟩ := hw.color_occupied _ hi
      refine ⟨⟨y.value, c', y.flags⟩, (cell_eq_some hw).mpr ⟨he, hc', hf⟩, ?_⟩
      cases y; simp_all
    · rintro ⟨x, hx, rfl⟩
      obtain ⟨he, -, hf⟩ := (cell_eq_some hw).mp hx
      exact ⟨he, rfl, hf⟩
  · next hri =>
    exact cell_congr hw hw' rfl (by simp [recolor, List.getElem?_set_ne (Ne.symm hri)]) rfl

/-- Among valid references, only `r` denotes the slot of a valid `r`. -/
theorem ite_index_eq {a : Arena k T} (hw : a.Wf) {r : GcRef k} {x : Cell T} (hx : a.cell r = some x)
    (r' : GcRef k) (f : Cell T → Cell T) :
    (if r'.index = r.index then (a.cell r').map f else a.cell r') =
      if r' = r then (a.cell r').map f else a.cell r' := by
  by_cases hr : r' = r
  · simp [hr]
  · rw [if_neg hr]
    split
    · next hi =>
      have hn : a.cell r' = none := Option.eq_none_iff_forall_ne_some.mpr fun y hy =>
        hr (cell_index_unique hw hy hx hi)
      rw [hn]; rfl
    · rfl

theorem cell_setColor {a : Arena k T} (hw : a.Wf) (r : GcRef k) (c : Color) (r' : GcRef k) :
    (a.setColor r c).1.cell r' =
      if r' = r then (a.cell r').map fun x => { x with color := c } else a.cell r' := by
  rw [setColor_eq hw]
  cases hx : a.cell r with
  | none =>
    simp only [Option.isSome_none, Bool.false_eq_true, if_false]
    split
    · next hr => subst hr; rw [hx]; rfl
    · rfl
  | some x =>
    simp only [Option.isSome_some, if_true]
    rw [cell_recolor hw (occupiedSlot_of_cell hw hx)]
    exact ite_index_eq hw hx r' fun y => { y with color := c }

/-- Whether a cell is one `mark_white_unfrozen` recolours. -/
def markable (x : Cell T) : Bool := !x.flags.frozen && x.color.isWhite

theorem markWhiteUnfrozen_eq {a : Arena k T} (hw : a.Wf) (r : GcRef k) (c : Color) :
    a.markWhiteUnfrozen r c =
      if (a.cell r).any markable then a.setColor r c else (a, false) := by
  rw [markWhiteUnfrozen, color_eq_cell hw, hasFlag_eq_cell hw]
  cases a.cell r with
  | none => rfl
  | some x =>
    simp only [Option.map_some, Option.getD_some, Flags.has, Option.any_some, markable]
    by_cases hf : x.flags.frozen = true
    · simp [hf]
    · by_cases hc : x.color.isWhite = true <;> simp [hf, hc]

/-- Marking succeeds exactly on a white object that is not frozen. -/
theorem markWhiteUnfrozen_snd {a : Arena k T} (hw : a.Wf) (r : GcRef k) (c : Color) :
    (a.markWhiteUnfrozen r c).2 = (a.cell r).any markable := by
  rw [markWhiteUnfrozen_eq hw]
  cases hx : a.cell r with
  | none => rfl
  | some x => cases hm : markable x <;> simp [hm, setColor_eq hw, hx]

theorem Wf.markWhiteUnfrozen {a : Arena k T} (hw : a.Wf) (r : GcRef k) (c : Color) :
    (a.markWhiteUnfrozen r c).1.Wf := by
  rw [markWhiteUnfrozen_eq hw]
  split
  · exact hw.setColor r c
  · exact hw

theorem cell_markWhiteUnfrozen {a : Arena k T} (hw : a.Wf) (r : GcRef k) (c : Color) (r' : GcRef k) :
    (a.markWhiteUnfrozen r c).1.cell r' =
      if r' = r then (a.cell r').map fun x => if markable x then { x with color := c } else x
      else a.cell r' := by
  rw [markWhiteUnfrozen_eq hw]
  by_cases hr : r' = r
  · subst hr
    cases hx : a.cell r' with
    | none => simp [hx]
    | some x => cases hm : markable x <;> simp [hm, cell_setColor hw, hx]
  · rw [if_neg hr]
    split
    · rw [cell_setColor hw, if_neg hr]
    · rfl

/-- Overwrites the flag byte of slot `i`. -/
def reflag (a : Arena k T) (i : ℕ) (f : Flag) (b : Bool) : Arena k T :=
  { a with flags := a.flags.modify i fun fl => fl.put f b }

theorem putFlag_eq {a : Arena k T} (hw : a.Wf) (r : GcRef k) (f : Flag) (b : Bool) :
    a.putFlag r f b = if (a.cell r).isSome then (a.reflag r.index f b, true) else (a, false) := by
  rw [putFlag, occupiedIndex_eq hw]
  cases a.cell r <;> rfl

/-- The representation invariant does not look at the flags of occupied slots. -/
theorem Wf.reflag {a : Arena k T} (hw : a.Wf) {i : ℕ} (hi : a.OccupiedSlot i) (f : Flag) (b : Bool) :
    (a.reflag i f b).Wf := by
  refine ⟨hw.colors_length, by simp [Arena.reflag, hw.flags_length], hw.color_free,
    hw.color_occupied, ?_, hw.generation_lt, hw.freeList, hw.len_eq, hw.capacity_lt⟩
  intro j hj
  have hne : i ≠ j := by rintro rfl; exact FreeSlot.not_occupied hj hi
  simpa [Arena.reflag, List.getElem?_modify, hne] using hw.flags_free j hj

theorem cell_reflag {a : Arena k T} (hw : a.Wf) {i : ℕ} (hi : a.OccupiedSlot i) (f : Flag) (b : Bool)
    (r : GcRef k) : (a.reflag i f b).cell r =
      if r.index = i then (a.cell r).map fun x => { x with flags := x.flags.put f b }
      else a.cell r := by
  have hw' := hw.reflag hi f b
  split
  · next hri =>
    subst hri
    have hlt : r.index < a.flags.length := hw.flags_length ▸ hi.lt
    refine Option.ext fun y => ?_
    rw [cell_eq_some hw', Option.map_eq_some_iff]
    constructor
    · rintro ⟨he, hc, hf⟩
      refine ⟨⟨y.value, y.color, a.flags[r.index]⟩,
        (cell_eq_some hw).mpr ⟨he, hc, List.getElem?_eq_getElem hlt⟩, ?_⟩
      cases y
      simp_all [Arena.reflag]
    · rintro ⟨x, hx, rfl⟩
      obtain ⟨he, hc, hf⟩ := (cell_eq_some hw).mp hx
      exact ⟨he, hc, by simp [Arena.reflag, hf]⟩
  · next hri =>
    exact cell_congr hw hw' rfl rfl (by simp [Arena.reflag, Ne.symm hri])

theorem Wf.putFlag {a : Arena k T} (hw : a.Wf) (r : GcRef k) (f : Flag) (b : Bool) :
    (a.putFlag r f b).1.Wf := by
  rw [putFlag_eq hw]
  cases hx : a.cell r with
  | none => simpa using hw
  | some x => simpa using hw.reflag (occupiedSlot_of_cell hw hx) f b

theorem cell_putFlag {a : Arena k T} (hw : a.Wf) (r : GcRef k) (f : Flag) (b : Bool) (r' : GcRef k) :
    (a.putFlag r f b).1.cell r' =
      if r' = r then (a.cell r').map fun x => { x with flags := x.flags.put f b } else a.cell r' := by
  rw [putFlag_eq hw]
  cases hx : a.cell r with
  | none =>
    simp only [Option.isSome_none, Bool.false_eq_true, if_false]
    split
    · next hr => subst hr; rw [hx]; rfl
    · rfl
  | some x =>
    simp only [Option.isSome_some, if_true]
    rw [cell_reflag hw (occupiedSlot_of_cell hw hx)]
    exact ite_index_eq hw hx r' fun y => { y with flags := y.flags.put f b }

theorem putFlag_snd {a : Arena k T} (hw : a.Wf) (r : GcRef k) (f : Flag) (b : Bool) :
    (a.putFlag r f b).2 = (a.cell r).isSome := by
  rw [putFlag_eq hw]
  cases a.cell r <;> rfl

theorem Wf.resetColors {a : Arena k T} (hw : a.Wf) (c : Color) : (a.resetColors c).Wf := by
  refine ⟨by simp [Arena.resetColors, hw.colors_length], hw.flags_length, ?_, ?_, hw.flags_free,
    hw.generation_lt, hw.freeList, hw.len_eq, hw.capacity_lt⟩
  · intro i hi
    simp [Arena.resetColors, hw.color_free i hi]
  · intro i hi
    obtain ⟨d, hd⟩ := hw.color_occupied i hi
    exact ⟨c, by simp [Arena.resetColors, hd]⟩

theorem cell_resetColors {a : Arena k T} (hw : a.Wf) (c : Color) (r : GcRef k) :
    (a.resetColors c).cell r = (a.cell r).map fun x => { x with color := c } := by
  refine Option.ext fun y => ?_
  rw [cell_eq_some (hw.resetColors c), Option.map_eq_some_iff]
  constructor
  · rintro ⟨he, hc, hf⟩
    obtain ⟨d, hd⟩ := hw.color_occupied r.index ⟨_, he, rfl⟩
    refine ⟨⟨y.value, d, y.flags⟩, (cell_eq_some hw).mpr ⟨he, hd, hf⟩, ?_⟩
    cases y
    simp_all [Arena.resetColors]
  · rintro ⟨x, hx, rfl⟩
    obtain ⟨he, hc, hf⟩ := (cell_eq_some hw).mp hx
    exact ⟨he, by simp [Arena.resetColors, hc], hf⟩

/-! ### Freeing -/

theorem occupiedCount_pos {a : Arena k T} {i : ℕ} (hi : a.OccupiedSlot i) : 0 < a.occupiedCount := by
  obtain ⟨e, he, ho⟩ := hi
  exact List.countP_pos_iff.mpr ⟨e, List.mem_of_getElem? he, ho⟩

/-- An occupied slot is counted, so the count can be decremented. -/
theorem Wf.checkedDecr_len {a : Arena k T} (hw : a.Wf) {i : ℕ} (hi : a.OccupiedSlot i) :
    ∃ len, checkedDecr a.len = some len := by
  have hpos := occupiedCount_pos hi
  rw [← hw.len_eq] at hpos
  obtain ⟨n, hn⟩ := Nat.exists_eq_succ_of_ne_zero (Nat.pos_iff_ne_zero.mp hpos)
  exact ⟨n, by rw [hn]; rfl⟩

/-- Releasing slot `i` removes whatever reference denotes it. -/
theorem cell_release {a : Arena k T} (hw : a.Wf) {i g len : ℕ} (hi : a.OccupiedSlot i)
    (hg : g < u32Size) (hlen : checkedDecr a.len = some len) (r : GcRef k) :
    (a.release i g len).cell r = if r.index = i then none else a.cell r := by
  have hw' := hw.release hi hg hlen
  split
  · next hri =>
    subst hri
    refine (cell_eq_none hw').mpr (Option.eq_none_iff_forall_ne_some.mpr fun w hv => ?_)
    rw [get_eq_some] at hv
    simp [Arena.release, List.getElem?_set_self hi.lt] at hv
  · next hri =>
    refine cell_congr hw hw' ?_ ?_ ?_ <;>
      simp [Arena.release, List.getElem?_set_ne (Ne.symm hri)]

/-- Freeing a valid reference releases its slot. -/
theorem free_of_cell {a : Arena k T} (hw : a.Wf) {r : GcRef k} {x : Cell T} (hx : a.cell r = some x) :
    ∃ len, checkedDecr a.len = some len ∧
      a.free r = some (a.release r.index (wrappingIncr r.generation) len, some x.value) := by
  have he := ((cell_eq_some hw).mp hx).1
  obtain ⟨len, hlen⟩ := hw.checkedDecr_len (occupiedSlot_of_cell hw hx)
  refine ⟨len, hlen, ?_⟩
  have hent : a.entryOf r = some ⟨r.generation, .occupied x.value⟩ := entryOf_eq_some.mpr ⟨he, rfl⟩
  simp only [free, hent, hlen]
  rfl

/-- Freeing a reference whose slot is not at its generation does nothing. -/
theorem free_of_entry_none {a : Arena k T} {r : GcRef k} (h : a.entryOf r = none) :
    a.free r = some (a, none) := by
  simp only [free, h]

/-! ### Sweeping -/

/-- What a sweep leaves of a cell. -/
def sweepCell (deadColor newColor : Color) (x : Cell T) : Option (Cell T) :=
  if x.color = deadColor ∧ x.flags.isKeptAlive = false then none
  else some { x with color := newColor }

/-- An arena after the slots in `[lo, hi)` have been swept and `freed` objects freed. -/
structure Swept (deadColor newColor : Color) (a b : Arena k T) (lo hi freed : ℕ) : Prop where
  wf : b.Wf
  length_eq : b.entries.length = a.entries.length
  cell_eq : ∀ r, b.cell r =
    if lo ≤ r.index ∧ r.index < hi then (a.cell r).bind (sweepCell deadColor newColor) else a.cell r
  entry_eq : ∀ i : ℕ, b.entries[i]? = a.entries[i]? ∨ ∃ g v n,
    a.entries[i]? = some ⟨g, .occupied v⟩ ∧ b.entries[i]? = some ⟨wrappingIncr g, .free n⟩
  len_eq : b.len + freed = a.len

theorem Swept.refl {a : Arena k T} (hw : a.Wf) (dead new : Color) (i : ℕ) : Swept dead new a a i i 0 :=
  ⟨hw, rfl, fun r => by rw [if_neg (by omega)], fun _ => .inl rfl, rfl⟩

theorem Swept.trans {a b c : Arena k T} {dead new : Color} {lo mid hi f f' : ℕ} (hlm : lo ≤ mid)
    (hmh : mid ≤ hi) (h : Swept dead new a b lo mid f) (h' : Swept dead new b c mid hi f') :
    Swept dead new a c lo hi (f + f') := by
  refine ⟨h'.wf, h'.length_eq.trans h.length_eq, fun r => ?_, fun i => ?_, ?_⟩
  · rw [h'.cell_eq r, h.cell_eq r]
    split_ifs <;> first | rfl | omega
  · -- a slot freed by the first pass is free, so the second leaves it as it is
    rcases h.entry_eq i with hb | ⟨g, v, n, ha, hb⟩
    · rcases h'.entry_eq i with hc | ⟨g, v, n, hb', hc⟩
      · exact .inl (hc.trans hb)
      · exact .inr ⟨g, v, n, hb ▸ hb', hc⟩
    · rcases h'.entry_eq i with hc | ⟨g', v', n', hb', -⟩
      · exact .inr ⟨g, v, n, ha, hc.trans hb⟩
      · rw [hb] at hb'; cases hb'
  · have := h.len_eq
    have := h'.len_eq
    omega

theorem occupiedAt_iff {a : Arena k T} (hw : a.Wf) (i : ℕ) : a.occupiedAt i = true ↔ a.OccupiedSlot i := by
  constructor
  · intro h
    by_contra hn
    have hi : i < a.entries.length := by
      by_contra hge
      rw [occupiedAt, List.getElem?_eq_none (by rw [hw.colors_length]; omega)] at h
      cases h
    rw [occupiedAt, hw.color_free i ((free_or_occupied hi).resolve_right hn)] at h
    cases h
  · intro h
    obtain ⟨c, hc⟩ := hw.color_occupied i h
    rw [occupiedAt, hc]

/-- Sweeping one slot is defined and does to it what `sweepCell` says. -/
theorem sweepSlot_spec {a : Arena k T} (hw : a.Wf) (dead new : Color) {i : ℕ} (hi : a.OccupiedSlot i) :
    ∃ b f, sweepSlot dead new a i = some (b, f) ∧ Swept dead new a b i (i + 1) f := by
  obtain ⟨c, hc⟩ := hw.color_occupied i hi
  obtain ⟨⟨g, st⟩, he, ho⟩ := id hi
  obtain ⟨fl, hfl⟩ : ∃ fl, a.flags[i]? = some fl :=
    ⟨_, List.getElem?_eq_getElem (hw.flags_length ▸ hi.lt)⟩
  simp only [sweepSlot, he, hc, hfl]
  -- the cell of any reference to slot `i` has the colour and flags read here
  have hcell : ∀ r x, r.index = i → a.cell r = some x → x.color = c ∧ x.flags = fl := by
    rintro r x rfl hx
    obtain ⟨-, hc', hf'⟩ := (cell_eq_some hw).mp hx
    simp_all
  by_cases hdead : c = dead ∧ fl.isKeptAlive = false
  · obtain ⟨len, hlen⟩ := hw.checkedDecr_len hi
    rw [if_pos hdead]
    refine ⟨a.release i (wrappingIncr g) len, 1, by simp [hlen]; rfl, ?_⟩
    refine ⟨hw.release hi (wrappingIncr_lt g) hlen, by simp [Arena.release], fun r => ?_, fun j => ?_,
      (checkedDecr_eq_some hlen).symm⟩
    · rw [cell_release hw hi (wrappingIncr_lt g) hlen]
      by_cases hri : r.index = i
      · rw [if_pos hri, if_pos (by omega)]
        cases hx : a.cell r with
        | none => rfl
        | some x =>
          obtain ⟨hxc, hxf⟩ := hcell r x hri hx
          simp [sweepCell, hxc, hxf, hdead]
      · rw [if_neg hri, if_neg (by omega)]
    · by_cases hij : i = j
      · subst hij
        cases st with
        | free n => cases ho
        | occupied v => exact .inr ⟨g, v, a.freeHead, he, by simp [Arena.release, hi.lt]⟩
      · exact .inl (by simp [Arena.release, List.getElem?_set_ne hij])
  · rw [if_neg hdead]
    refine ⟨a.recolor i new, 0, rfl, hw.recolor hi, rfl, fun r => ?_, fun _ => .inl rfl, rfl⟩
    rw [cell_recolor hw hi]
    by_cases hri : r.index = i
    · rw [if_pos hri, if_pos (by omega)]
      cases hx : a.cell r with
      | none => rfl
      | some x =>
        obtain ⟨hxc, hxf⟩ := hcell r x hri hx
        simp [sweepCell, hxc, hxf, hdead]
    · rw [if_neg hri, if_neg (by omega)]

/-- A slot that is not occupied has nothing to sweep. -/
theorem Swept.skip {a : Arena k T} (hw : a.Wf) (dead new : Color) {i : ℕ} (hi : ¬a.OccupiedSlot i) :
    Swept dead new a a i (i + 1) 0 := by
  refine ⟨hw, rfl, fun r => ?_, fun _ => .inl rfl, rfl⟩
  split
  · next hri =>
    obtain rfl : r.index = i := by omega
    cases hx : a.cell r with
    | none => rfl
    | some x => exact absurd (occupiedSlot_of_cell hw hx) hi
  · rfl

/-- The sweep loop is defined, and sweeps the slots it passes over. It passes over all `n` of them
    unless the limit stops it, and over at least one if the limit and `n` are positive. -/
theorem sweepLoop_spec (dead new : Color) : ∀ (n i : ℕ) (limit : Option ℕ) (a : Arena k T) (freed : ℕ),
    a.Wf → ∃ b f j, sweepLoop dead new n i limit a freed = some (b, freed + f, j) ∧
      Swept dead new a b i j f ∧ i ≤ j ∧ j ≤ i + n ∧ (limit = none → j = i + n) ∧
      (limit ≠ some 0 → 0 < n → i < j)
  | 0, i, limit, a, freed, hw =>
    ⟨a, 0, i, rfl, .refl hw dead new i, Nat.le_refl _, by omega, fun _ => rfl, fun _ h => absurd h (by omega)⟩
  | n + 1, i, limit, a, freed, hw => by
    by_cases hlim : limit = some 0
    · subst hlim
      exact ⟨a, 0, i, by simp [sweepLoop], .refl hw dead new i, Nat.le_refl _, by omega, by simp, by simp⟩
    · by_cases hocc : a.OccupiedSlot i
      · obtain ⟨b, f, hb, hswept⟩ := sweepSlot_spec hw dead new hocc
        obtain ⟨c, f', j, hc, hswept', hij, hjn, hnone, -⟩ :=
          sweepLoop_spec dead new n (i + 1) (limit.map (· - 1)) b (freed + f) hswept.wf
        refine ⟨c, f + f', j, ?_, hswept.trans (by omega) hij hswept', by omega, by omega, ?_, by omega⟩
        · rw [sweepLoop, if_neg hlim, if_pos ((occupiedAt_iff hw i).mpr hocc), hb]
          simpa [Nat.add_assoc] using hc
        · rintro rfl
          rw [hnone rfl]; omega
      · obtain ⟨c, f', j, hc, hswept', hij, hjn, hnone, -⟩ :=
          sweepLoop_spec dead new n (i + 1) limit a freed hw
        refine ⟨c, f', j, ?_, ?_, by omega, by omega, ?_, by omega⟩
        · rw [sweepLoop, if_neg hlim, if_neg (mt (occupiedAt_iff hw i).mp hocc), hc]
        · simpa using (Swept.skip hw dead new hocc).trans (by omega) hij hswept'
        · rintro rfl
          rw [hnone rfl]; omega

theorem sweep_spec {a : Arena k T} (hw : a.Wf) (dead new : Color) :
    ∃ b f, a.sweep dead new = some (b, f) ∧ Swept dead new a b 0 a.entries.length f := by
  obtain ⟨b, f, j, hb, hswept, -, -, hj, -⟩ := sweepLoop_spec dead new a.entries.length 0 none a 0 hw
  obtain rfl : j = a.entries.length := by simpa using hj rfl
  exact ⟨b, f, by simp [sweep, hb], hswept⟩

/-- A partial sweep is defined when it starts inside the arena. It sweeps from `start` to the position
    it returns, which is past `start` when there is something left and the batch is not empty. -/
theorem sweepPartial_spec {a : Arena k T} (hw : a.Wf) (dead new : Color) {start : ℕ} (maxCount : ℕ)
    (hs : start ≤ a.entries.length) :
    ∃ b f pos, a.sweepPartial dead new start maxCount =
        some (b, f, pos, decide (a.entries.length ≤ pos)) ∧ Swept dead new a b start pos f ∧
      start ≤ pos ∧ pos ≤ a.entries.length ∧
      (maxCount ≠ 0 → start < a.entries.length → start < pos) := by
  obtain ⟨b, f, j, hb, hswept, hsj, hjn, -, hpos⟩ :=
    sweepLoop_spec dead new (a.entries.length - start) start (some maxCount) a 0 hw
  refine ⟨b, f, j, ?_, hswept, hsj, by omega, fun hm hl => hpos (by simpa using hm) (by omega)⟩
  rw [sweepPartial, if_neg (by omega)]
  simp [hb]

/-- Outside the arena `sweep_partial` slices out of bounds. -/
theorem sweepPartial_eq_none {a : Arena k T} (dead new : Color) {start : ℕ} (maxCount : ℕ)
    (hs : a.entries.length < start) : a.sweepPartial dead new start maxCount = none := by
  rw [sweepPartial, if_pos hs]

theorem start_le_of_sweepPartial {a b : Arena k T} {dead new : Color} {start maxCount f pos : ℕ}
    {d : Bool} (h : a.sweepPartial dead new start maxCount = some (b, f, pos, d)) :
    start ≤ a.entries.length := by
  by_contra hs
  rw [sweepPartial_eq_none dead new maxCount (Nat.lt_of_not_le hs)] at h
  cases h

theorem Wf.sweepPartial {a b : Arena k T} (hw : a.Wf) {dead new : Color} {start maxCount f pos : ℕ}
    {d : Bool} (h : a.sweepPartial dead new start maxCount = some (b, f, pos, d)) : b.Wf := by
  obtain ⟨b', f', pos', heq, hswept, -⟩ :=
    sweepPartial_spec hw dead new maxCount (start_le_of_sweepPartial h)
  rw [heq] at h
  cases h
  exact hswept.wf

/-! ### Counting white entries -/

/-- The number of white entries. -/
def whites (a : Arena k T) : ℕ := a.colors.countP fun c => c.any Color.isWhite

theorem whites_setColor {a : Arena k T} (hw : a.Wf) {r : GcRef k} {x : Cell T} (hx : a.cell r = some x)
    {c : Color} (hc : c.isWhite = false) :
    (a.setColor r c).1.whites + x.color.isWhite.toNat = a.whites := by
  obtain ⟨-, hcol, -⟩ := (cell_eq_some hw).mp hx
  have hlt : r.index < a.colors.length := (List.getElem?_eq_some_iff.mp hcol).1
  have hget : a.colors[r.index] = some x.color := (List.getElem?_eq_some_iff.mp hcol).2
  have hcount := List.countP_set (p := fun c : Option Color => c.any Color.isWhite) (a := some c) hlt
  have hpos : (a.colors[r.index]).any Color.isWhite = true → 0 < a.whites := fun h =>
    List.countP_pos_iff.mpr ⟨_, List.getElem_mem hlt, h⟩
  rw [setColor_eq hw, hx]
  simp only [Option.isSome_some, if_true, whites, recolor]
  rw [hcount]
  rw [hget] at hpos ⊢
  simp only [Option.any_some, hc, Bool.false_eq_true, if_false, whites] at hpos ⊢
  rcases Bool.eq_false_or_eq_true x.color.isWhite with hxc | hxc
  · have := hpos hxc
    simp only [hxc, if_true, Bool.toNat_true]
    omega
  · simp [hxc]

theorem whites_setColor_le {a : Arena k T} (hw : a.Wf) (r : GcRef k) {c : Color}
    (hc : c.isWhite = false) : (a.setColor r c).1.whites ≤ a.whites := by
  cases hx : a.cell r with
  | none => rw [setColor_eq hw, hx]; simp
  | some x =>
    have := whites_setColor hw hx hc
    omega

theorem whites_markWhiteUnfrozen {a : Arena k T} (hw : a.Wf) {r : GcRef k} {c : Color}
    (hc : c.isWhite = false) (hm : (a.cell r).any markable = true) :
    (a.markWhiteUnfrozen r c).1.whites + 1 = a.whites := by
  rw [markWhiteUnfrozen_eq hw, if_pos hm]
  cases hx : a.cell r with
  | none => rw [hx] at hm; cases hm
  | some x =>
    have hwhite : x.color.isWhite = true := by
      rw [hx, Option.any_some, markable, Bool.and_eq_true] at hm
      exact hm.2
    have hcount := whites_setColor hw hx hc
    rw [hwhite] at hcount
    exact hcount

end Arena

end Rilua.Vm.Gc
