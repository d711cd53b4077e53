import Rilua.Vm.Gc.Arena

/-! The representation invariant of the arena: the three vectors agree on which slots are occupied, the
    free list is a chain through exactly the free slots, and `len` counts the occupied ones. Each
    operation writes one slot, so each is one of four slot updates (`occupy`, `push`, `release`,
    `recolor`) that keep the invariant. -/

namespace Rilua.Vm.Gc

open Lib

theorem checkedIncr_eq_some {n m : ℕ} (h : checkedIncr n = some m) : m = n + 1 ∧ m < u32Size := by
  unfold checkedIncr at h
  split at h
  · cases h; exact ⟨rfl, by assumption⟩
  · cases h

theorem checkedDecr_eq_some {n m : ℕ} (h : checkedDecr n = some m) : n = m + 1 := by
  cases n with
  | zero => cases h
  | succ n => cases h; rfl

theorem wrappingIncr_lt (n : ℕ) : wrappingIncr n < u32Size := Nat.mod_lt _ (by decide)

theorem wrappingIncr_ne (n : ℕ) : wrappingIncr n ≠ n := by
  unfold wrappingIncr u32Size
  omega

namespace Arena

variable {k : ObjKind} {T : Type}

/-- Slot `i` is on the free list's side: its entry is `Free`. -/
def FreeSlot (a : Arena k T) (i : ℕ) : Prop := ∃ e, a.entries[i]? = some e ∧ e.isOccupied = false

def OccupiedSlot (a : Arena k T) (i : ℕ) : Prop := ∃ e, a.entries[i]? = some e ∧ e.isOccupied = true

/-- The link stored in a free slot. -/
def nextFree (a : Arena k T) (i : ℕ) : Option ℕ :=
  match a.entries[i]? with
  | some ⟨_, .free n⟩ => n
  | _ => none

/-- The free list is acyclic and contains exactly the free slots. -/
def FreeListExact (a : Arena k T) : Prop :=
  ∃ l, Chain a.nextFree a.freeHead l ∧ ∀ i, i ∈ l ↔ a.FreeSlot i

/-- The number of occupied slots. -/
def occupiedCount (a : Arena k T) : ℕ := a.entries.countP Entry.isOccupied

/-- The representation invariant. -/
structure Wf (a : Arena k T) : Prop where
  colors_length : a.colors.length = a.entries.length
  flags_length : a.flags.length = a.entries.length
  color_free : ∀ i, a.FreeSlot i → a.colors[i]? = some none
  color_occupied : ∀ i, a.OccupiedSlot i → ∃ c, a.colors[i]? = some (some c)
  flags_free : ∀ i, a.FreeSlot i → a.flags[i]? = some {}
  generation_lt : ∀ (i : ℕ) (e : Entry T), a.entries[i]? = some e → e.generation < u32Size
  freeList : a.FreeListExact
  len_eq : a.len = a.occupiedCount
  capacity_lt : a.entries.length < u32Size

theorem wf_new : Wf (k := k) (T := T) {} := by
  refine ⟨rfl, rfl, ?_, ?_, ?_, ?_, ⟨[], rfl, ?_⟩, rfl, (by decide : 0 < u32Size)⟩
  all_goals simp [FreeSlot, OccupiedSlot]

theorem free_or_occupied {a : Arena k T} {i : ℕ} (h : i < a.entries.length) :
    a.FreeSlot i ∨ a.OccupiedSlot i := by
  cases ho : a.entries[i].isOccupied
  · exact .inl ⟨_, List.getElem?_eq_getElem h, ho⟩
  · exact .inr ⟨_, List.getElem?_eq_getElem h, ho⟩

theorem FreeSlot.not_occupied {a : Arena k T} {i : ℕ} (h : a.FreeSlot i) : ¬a.OccupiedSlot i := by
  rintro ⟨e, he, ho⟩
  obtain ⟨e', he', ho'⟩ := h
  rw [he] at he'
  cases he'
  simp_all

theorem OccupiedSlot.lt {a : Arena k T} {i : ℕ} (h : a.OccupiedSlot i) : i < a.entries.length := by
  obtain ⟨e, he, -⟩ := h
  exact (List.getElem?_eq_some_iff.mp he).1

/-! ### The slot updates -/

/-- Takes the free slot `i` off the head of the free list and fills it. -/
def occupy (a : Arena k T) (i g : ℕ) (value : T) (color : Color) (freeHead : Option ℕ) (len : ℕ) :
    Arena k T where
  entries := a.entries.set i ⟨g, .occupied value⟩
  colors := a.colors.set i (some color)
  flags := a.flags.set i {}
  freeHead := freeHead
  len := len

/-- Empties slot `i` and puts it at the head of the free list. -/
def release (a : Arena k T) (i g len : ℕ) : Arena k T where
  entries := a.entries.set i ⟨g, .free a.freeHead⟩
  colors := a.colors.set i none
  flags := a.flags.set i {}
  freeHead := some i
  len := len

/-- Appends an occupied slot. -/
def push (a : Arena k T) (value : T) (color : Color) (len : ℕ) : Arena k T where
  entries := a.entries ++ [⟨0, .occupied value⟩]
  colors := a.colors ++ [some color]
  flags := a.flags ++ [{}]
  freeHead := none
  len := len

/-- Overwrites the colour byte of slot `i`. -/
def recolor (a : Arena k T) (i : ℕ) (c : Color) : Arena k T :=
  { a with colors := a.colors.set i (some c) }

theorem nextFree_set_ne {a : Arena k T} {es : List (Entry T)} {e : Entry T} {i j : ℕ} (h : i ≠ j)
    (hes : es = a.entries.set i e) {b : Arena k T} (hb : b.entries = es) :
    a.nextFree j = b.nextFree j := by
  subst hes
  simp only [nextFree, hb, List.getElem?_set_ne h]

/-- Replacing the entry of slot `i` changes which of the two kinds it is, and no other slot's. -/
theorem freeSlot_set {a b : Arena k T} {e : Entry T} {i : ℕ} (hi : i < a.entries.length)
    (hb : b.entries = a.entries.set i e) (j : ℕ) :
    b.FreeSlot j ↔ if j = i then e.isOccupied = false else a.FreeSlot j := by
  by_cases hj : j = i
  · subst hj
    simp [FreeSlot, hb, List.getElem?_set_self hi]
  · simp [FreeSlot, hb, List.getElem?_set_ne (Ne.symm hj), hj]

theorem occupiedSlot_set {a b : Arena k T} {e : Entry T} {i : ℕ} (hi : i < a.entries.length)
    (hb : b.entries = a.entries.set i e) (j : ℕ) :
    b.OccupiedSlot j ↔ if j = i then e.isOccupied = true else a.OccupiedSlot j := by
  by_cases hj : j = i
  · subst hj
    simp [OccupiedSlot, hb, List.getElem?_set_self hi]
  · simp [OccupiedSlot, hb, List.getElem?_set_ne (Ne.symm hj), hj]

theorem Wf.release {a : Arena k T} (h : a.Wf) {i g len : ℕ} (hi : a.OccupiedSlot i)
    (hg : g < u32Size) (hlen : checkedDecr a.len = some len) : (a.release i g len).Wf := by
  have hlt := hi.lt
  obtain ⟨l, hl, hmem⟩ := h.freeList
  have hil : i ∉ l := fun hin => ((hmem i).mp hin).not_occupied hi
  have hfree := freeSlot_set (b := a.release i g len) hlt rfl
  have hocc := occupiedSlot_set (b := a.release i g len) hlt rfl
  refine ⟨by simp [Arena.release, h.colors_length], by simp [Arena.release, h.flags_length],
    ?_, ?_, ?_, ?_, ⟨i :: l, ⟨rfl, ?_⟩, ?_⟩, ?_, by simpa [Arena.release] using h.capacity_lt⟩
  · intro j hj
    by_cases hji : j = i
    · subst hji; simp [Arena.release, h.colors_length, hlt]
    · rw [hfree j, if_neg hji] at hj
      simpa [Arena.release, List.getElem?_set_ne (Ne.symm hji)] using h.color_free j hj
  · intro j hj
    by_cases hji : j = i
    · rw [hocc j, if_pos hji] at hj; simp at hj
    · rw [hocc j, if_neg hji] at hj
      simpa [Arena.release, List.getElem?_set_ne (Ne.symm hji)] using h.color_occupied j hj
  · intro j hj
    by_cases hji : j = i
    · subst hji; simp [Arena.release, h.flags_length, hlt]
    · rw [hfree j, if_neg hji] at hj
      simpa [Arena.release, List.getElem?_set_ne (Ne.symm hji)] using h.flags_free j hj
  · intro j e he
    by_cases hji : j = i
    · subst hji
      simp only [Arena.release, List.getElem?_set_self hlt, Option.some.injEq] at he
      subst he; exact hg
    · simp only [Arena.release, List.getElem?_set_ne (Ne.symm hji)] at he
      exact h.generation_lt j e he
  · -- the new head links to the old one, and the old list does not visit `i`
    have hnext : (a.release i g len).nextFree i = a.freeHead := by
      simp [nextFree, Arena.release, List.getElem?_set_self hlt]
    rw [hnext]
    refine hl.congr fun j hj => nextFree_set_ne (fun hij => ?_) rfl rfl
    exact hil (hij ▸ hj)
  · intro j
    rw [hfree j, List.mem_cons]
    by_cases hji : j = i
    · simp [hji]
    · simp [hji, hmem j]
  · have hcount := List.countP_set (p := Entry.isOccupied) (a := ⟨g, .free a.freeHead⟩) hlt
    obtain ⟨e, he, ho⟩ := hi
    obtain ⟨_, rfl⟩ := List.getElem?_eq_some_iff.mp he
    have hdecr := checkedDecr_eq_some hlen
    rw [h.len_eq, occupiedCount] at hdecr
    simp only [ho, Entry.isOccupied_mk_free, if_true, Bool.false_eq_true, if_false] at hcount
    simp only [occupiedCount, Arena.release, hcount]
    omega

theorem Wf.occupy {a : Arena k T} (h : a.Wf) {i g len : ℕ} {n : Option ℕ} {value : T} {c : Color}
    (hhead : a.freeHead = some i) (he : a.entries[i]? = some ⟨g, .free n⟩)
    (hlen : len = a.len + 1) : (a.occupy i g value c n len).Wf := by
  have hlt : i < a.entries.length := (List.getElem?_eq_some_iff.mp he).1
  obtain ⟨l, hl, hmem⟩ := h.freeList
  -- the list starts with `i`, so its tail is the new free list
  obtain ⟨l', rfl⟩ : ∃ l', l = i :: l' := by
    cases l with
    | nil => rw [Chain.nil_iff, hhead] at hl; cases hl
    | cons j l' => rw [Chain.cons_iff, hhead] at hl; exact ⟨l', by rw [Option.some.inj hl.1]⟩
  have hil : i ∉ l' := (List.nodup_cons.mp hl.nodup).1
  have hnext : a.nextFree i = n := by simp [nextFree, he]
  have hfree := freeSlot_set (b := a.occupy i g value c n len) hlt rfl
  have hocc := occupiedSlot_set (b := a.occupy i g value c n len) hlt rfl
  refine ⟨by simp [Arena.occupy, h.colors_length], by simp [Arena.occupy, h.flags_length],
    ?_, ?_, ?_, ?_, ⟨l', ?_, ?_⟩, ?_, by simpa [Arena.occupy] using h.capacity_lt⟩
  · intro j hj
    by_cases hji : j = i
    · rw [hfree j, if_pos hji] at hj; simp at hj
    · rw [hfree j, if_neg hji] at hj
      simpa [Arena.occupy, List.getElem?_set_ne (Ne.symm hji)] using h.color_free j hj
  · intro j hj
    by_cases hji : j = i
    · subst hji; simp [Arena.occupy, h.colors_length, hlt]
    · rw [hocc j, if_neg hji] at hj
      simpa [Arena.occupy, List.getElem?_set_ne (Ne.symm hji)] using h.color_occupied j hj
  · intro j hj
    by_cases hji : j = i
    · rw [hfree j, if_pos hji] at hj; simp at hj
    · rw [hfree j, if_neg hji] at hj
      simpa [Arena.occupy, List.getElem?_set_ne (Ne.symm hji)] using h.flags_free j hj
  · intro j e hj
    by_cases hji : j = i
    · subst hji
      simp only [Arena.occupy, List.getElem?_set_self hlt, Option.some.injEq] at hj
      subst hj; exact h.generation_lt j ⟨g, .free n⟩ he
    · simp only [Arena.occupy, List.getElem?_set_ne (Ne.symm hji)] at hj
      exact h.generation_lt j e hj
  · have htail := hl.2
    rw [hnext] at htail
    refine htail.congr fun j hj => nextFree_set_ne (fun hij => ?_) rfl rfl
    exact hil (hij ▸ hj)
  · intro j
    rw [hfree j]
    by_cases hji : j = i
    · subst hji; simp [hil]
    · simp [hji, ← hmem j]
  · have hcount := List.countP_set (p := Entry.isOccupied) (a := ⟨g, .occupied value⟩) hlt
    obtain ⟨_, hget⟩ := List.getElem?_eq_some_iff.mp he
    simp only [hget, Entry.isOccupied_mk_free, Entry.isOccupied_mk_occupied, if_true,
      Bool.false_eq_true, if_false] at hcount
    simp only [occupiedCount, Arena.occupy, hcount, hlen, h.len_eq]
    omega

theorem Wf.push {a : Arena k T} (h : a.Wf) {value : T} {c : Color} {len : ℕ}
    (hhead : a.freeHead = none) (hlen : checkedIncr a.len = some len) : (a.push value c len).Wf := by
  obtain ⟨l, hl, hmem⟩ := h.freeList
  obtain rfl : l = [] := by
    cases l with
    | nil => rfl
    | cons j l' => rw [Chain.cons_iff, hhead] at hl; cases hl.1
  -- nothing is free, so the count is the number of slots
  have hall : ∀ i, i < a.entries.length → a.OccupiedSlot i := fun i hi =>
    (free_or_occupied hi).resolve_left fun hf => by simpa using (hmem i).mpr hf
  have hcount : a.occupiedCount = a.entries.length := by
    refine List.countP_eq_length.mpr fun e he => ?_
    obtain ⟨i, hi, rfl⟩ := List.mem_iff_getElem.mp he
    obtain ⟨e', he', ho⟩ := hall i hi
    rw [List.getElem?_eq_getElem hi] at he'
    cases he'; exact ho
  obtain ⟨hlen', hlt⟩ := checkedIncr_eq_some hlen
  have hocc : ∀ (j : ℕ) (e : Entry T), (a.push value c len).entries[j]? = some e → e.isOccupied = true := by
    intro j e he
    rcases List.mem_append.mp (List.mem_of_getElem? he) with hm | hm
    · obtain ⟨i, hi, rfl⟩ := List.mem_iff_getElem.mp hm
      obtain ⟨e', he', ho⟩ := hall i hi
      rw [List.getElem?_eq_getElem hi] at he'
      cases he'; exact ho
    · rw [List.mem_singleton.mp hm]; rfl
  have hnofree : ∀ j, ¬(a.push value c len).FreeSlot j := by
    rintro j ⟨e, he, ho⟩
    rw [hocc j e he] at ho; cases ho
  refine ⟨by simp [Arena.push, h.colors_length], by simp [Arena.push, h.flags_length],
    fun j hj => absurd hj (hnofree j), ?_, fun j hj => absurd hj (hnofree j), ?_,
    ⟨[], rfl, fun j => by simpa using hnofree j⟩, ?_, ?_⟩
  · rintro j ⟨e, he, -⟩
    have hj : j < a.entries.length + 1 := by
      have := (List.getElem?_eq_some_iff.mp he).1
      simpa [Arena.push] using this
    rcases Nat.lt_succ_iff_lt_or_eq.mp hj with hj | rfl
    · obtain ⟨c', hc'⟩ := h.color_occupied j (hall j hj)
      exact ⟨c', by simpa [Arena.push, List.getElem?_append_left (h.colors_length ▸ hj)] using hc'⟩
    · exact ⟨c, by simp [Arena.push, ← h.colors_length]⟩
  · intro j e he
    rcases List.mem_append.mp (List.mem_of_getElem? he) with hm | hm
    · obtain ⟨i, hi⟩ := List.mem_iff_getElem?.mp hm
      exact h.generation_lt i e hi
    · rw [List.mem_singleton.mp hm]; show 0 < u32Size; decide
  · simp only [Arena.push, occupiedCount, List.countP_append, List.countP_singleton,
      Entry.isOccupied_mk_occupied, if_true]
    rw [hlen', h.len_eq, occupiedCount]
  · simp only [Arena.push, List.length_append, List.length_singleton]
    rw [h.len_eq, hcount] at hlen'
    omega

theorem Wf.recolor {a : Arena k T} (h : a.Wf) {i : ℕ} {c : Color} (hi : a.OccupiedSlot i) :
    (a.recolor i c).Wf := by
  refine ⟨by simp [Arena.recolor, h.colors_length], h.flags_length, ?_, ?_, h.flags_free,
    h.generation_lt, h.freeList, h.len_eq, h.capacity_lt⟩
  · intro j hj
    have hji : i ≠ j := by rintro rfl; exact hj.not_occupied hi
    simpa [Arena.recolor, List.getElem?_set_ne hji] using h.color_free j hj
  · intro j hj
    by_cases hji : i = j
    · subst hji; exact ⟨c, by simp [Arena.recolor, h.colors_length, hi.lt]⟩
    · simpa [Arena.recolor, List.getElem?_set_ne hji] using h.color_occupied j hj

end Arena

end Rilua.Vm.Gc
