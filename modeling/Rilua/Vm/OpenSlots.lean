import Rilua.Vm.ControlFrames

/-! The slots of the open upvalues of the running thread: the list is in order, highest slot first, with one
    upvalue for each slot. What is closed when a thread is left is open at the same slots when the thread is
    back. -/

namespace Rilua.Vm

open Lib Gc LuaState

/-- The list of open upvalues is in order, and they are open at slots that are `p`. -/
def OpenOk (s : LuaState) (p : ℕ → Prop) : Prop :=
  ∃ is : List ℕ, s.openUpvalues.map s.openAt = is.map some ∧ is.Pairwise (· > ·) ∧ ∀ i ∈ is, p i

/-- The upvalues that were open when the thread `t` was left. -/
def SavedOpen (t : LuaThread) (p : ℕ → Prop) : Prop :=
  ∃ is : List ℕ, is.length = t.openUpvalues.length ∧ t.suspendedUpvals = t.openUpvalues.zip is ∧
    t.openUpvalues.Nodup ∧ is.Pairwise (· > ·) ∧ ∀ i ∈ is, p i

section

variable {s s' : LuaState} {p q : ℕ → Prop}

theorem OpenOk.of_nil (h : s.openUpvalues = []) : OpenOk s p := ⟨[], by simp [h]⟩

theorem OpenOk.eq_nil (h : OpenOk s p) (hp : ∀ i, ¬ p i) : s.openUpvalues = [] := by
  obtain ⟨is, hmap, -, hall⟩ := h
  cases is with
  | nil => exact List.map_eq_nil_iff.mp hmap
  | cons i is => exact absurd (hall i List.mem_cons_self) (hp i)

theorem OpenOk.mono (h : OpenOk s p) (hpq : ∀ i, p i → q i) : OpenOk s q := by
  obtain ⟨is, hmap, hsorted, hall⟩ := h
  exact ⟨is, hmap, hsorted, fun i hi => hpq i (hall i hi)⟩

theorem OpenOk.congr (h : OpenOk s p) (hopen : s'.openUpvalues = s.openUpvalues)
    (hat : ∀ r ∈ s.openUpvalues, s'.openAt r = s.openAt r) : OpenOk s' p := by
  obtain ⟨is, hmap, hsorted, hall⟩ := h
  refine ⟨is, ?_, hsorted, hall⟩
  rw [hopen, ← hmap]
  exact List.map_congr_left hat

theorem OpenOk.of_sameOpen (h : OpenOk s p) (hsame : SameOpen s s') : OpenOk s' p :=
  h.congr hsame.openUpvalues fun r _ => by rw [hsame.openAt_eq]

/-- The upvalues are all different, since their slots are. -/
theorem nodup_of_slots {f : GcRef .upvalue → Option ℕ} :
    ∀ {rs : List (GcRef .upvalue)} {is : List ℕ}, rs.map f = is.map some → is.Pairwise (· > ·) → rs.Nodup := by
  intro rs is hmap hsorted
  refine List.Nodup.of_map f ?_
  rw [hmap]
  refine List.Nodup.map (Option.some_injective ℕ) (hsorted.imp fun hgt => ?_)
  exact (Nat.ne_of_lt hgt).symm

/-! ### Closing -/

theorem openAt_closeUpvalue (s : LuaState) (r r' : GcRef .upvalue) :
    (s.closeUpvalue r).openAt r' = if r' = r then none else s.openAt r' := by
  rw [openAt, closeUpvalue, get_modify]
  split_ifs
  · cases s.gc.heap.get r with
    | none => rfl
    | some uv =>
      obtain ⟨i | v⟩ := (uv : Upvalue)
      · rfl
      · rfl
  · rfl

/-- Closing goes through the upvalues at or above the level. -/
theorem closeFrom_slots (level : ℕ) :
    ∀ (rs : List (GcRef .upvalue)) (is : List ℕ) (s : LuaState), rs.map s.openAt = is.map some → is.Pairwise (· > ·) →
      OpenOk (closeFrom level rs s) (fun i => i ∈ is ∧ i < level) := by
  intro rs
  induction rs with
  | nil => exact fun is s _ _ => .of_nil rfl
  | cons r rs ih =>
    intro is s hmap hsorted
    cases is with
    | nil => simp at hmap
    | cons i is =>
      obtain ⟨hr, hrs⟩ := List.cons.inj hmap
      obtain ⟨hlt, hsorted'⟩ := List.pairwise_cons.mp hsorted
      have hnodup := nodup_of_slots hmap hsorted
      rw [closeFrom, hr]
      split_ifs with hle
      · refine (ih is (s.closeUpvalue r) ?_ hsorted').mono fun j hj => ⟨List.mem_cons_of_mem _ hj.1, hj.2⟩
        refine (List.map_congr_left fun r' hr' => ?_).trans hrs
        rw [openAt_closeUpvalue, if_neg]
        rintro rfl
        exact (List.nodup_cons.mp hnodup).1 hr'
      · have hlow : i < level := by simpa using hle
        refine ⟨i :: is, hmap, hsorted, fun j hj => ⟨hj, ?_⟩⟩
        obtain rfl | hmem := List.mem_cons.mp hj
        · exact hlow
        · exact (hlt j hmem).trans hlow

/-- `close_upvalues` leaves the upvalues below the level. -/
theorem OpenOk.closeUpvalues (h : OpenOk s p) (level : ℕ) : OpenOk (s.closeUpvalues level) fun i => p i ∧ i < level := by
  obtain ⟨is, hmap, hsorted, hall⟩ := h
  exact (closeFrom_slots level s.openUpvalues is s hmap hsorted).mono fun i hi => ⟨hall i hi.1, hi.2⟩

/-! ### Capturing -/

theorem searchOpen_eq_none {idx : ℕ} :
    ∀ {rs : List (GcRef .upvalue)} {is : List ℕ}, rs.map s.openAt = is.map some → is.Pairwise (· > ·) →
      s.searchOpen idx rs = none → idx ∉ is := by
  intro rs
  induction rs with
  | nil =>
    intro is hmap _ _
    obtain rfl : is = [] := by simpa using hmap
    simp
  | cons r rs ih =>
    intro is hmap hsorted hsearch
    cases is with
    | nil => simp at hmap
    | cons i is =>
      obtain ⟨hr, hrs⟩ := List.cons.inj hmap
      obtain ⟨hlt, hsorted'⟩ := List.pairwise_cons.mp hsorted
      simp only [searchOpen, hr] at hsearch
      split_ifs at hsearch with heq hbelow
      · intro hmem
        obtain rfl | hmem := List.mem_cons.mp hmem
        · exact heq rfl
        · exact absurd (hlt idx hmem) (by omega)
      · intro hmem
        obtain rfl | hmem := List.mem_cons.mp hmem
        · exact heq rfl
        · exact ih hrs hsorted' hsearch hmem

/-- A new slot goes in front of those below. -/
theorem insertIdx_slots {f : GcRef .upvalue → Option ℕ} {idx : ℕ} {r : GcRef .upvalue} (hr : f r = some idx) :
    ∀ {rs : List (GcRef .upvalue)} {is : List ℕ}, rs.map f = is.map some → is.Pairwise (· > ·) → idx ∉ is →
      ∃ js : List ℕ, (rs.insertIdx ((rs.findIdx? fun r => (f r).all (· < idx)).getD rs.length) r).map f = js.map some ∧
        js.Pairwise (· > ·) ∧ ∀ j, j ∈ js ↔ j = idx ∨ j ∈ is := by
  intro rs
  induction rs with
  | nil =>
    intro is hmap _ _
    obtain rfl : is = [] := by simpa using hmap
    exact ⟨[idx], by simp [hr], by simp, by simp⟩
  | cons r' rs ih =>
    intro is hmap hsorted hfresh
    cases is with
    | nil => simp at hmap
    | cons i is =>
      obtain ⟨hr', hrs⟩ := List.cons.inj hmap
      obtain ⟨hlt, hsorted'⟩ := List.pairwise_cons.mp hsorted
      obtain ⟨hne, hfresh'⟩ := not_or.mp (mt List.mem_cons.mpr hfresh)
      rcases Nat.lt_or_gt_of_ne hne with hlow | hhigh
      · -- The slot is below this one, so it goes somewhere behind.
        obtain ⟨js, hjs, hsortedJs, hmem⟩ := ih hrs hsorted' hfresh'
        have hnot : (f r').all (· < idx) = false := by
          rw [hr']
          simpa using hlow.le
        refine ⟨i :: js, ?_, List.pairwise_cons.mpr ⟨fun j hj => ?_, hsortedJs⟩, fun j => ?_⟩
        · rw [List.findIdx?_cons, hnot]
          simp only [Bool.false_eq_true, if_false]
          cases hfind : rs.findIdx? fun r => (f r).all (· < idx) with
          | none => simpa [hfind, hr'] using hjs
          | some k => simpa [hfind, hr'] using hjs
        · obtain rfl | hj := (hmem j).mp hj
          · exact hlow
          · exact hlt j hj
        · rw [List.mem_cons, hmem, List.mem_cons]
          tauto
      · have hhere : (f r').all (· < idx) = true := by
          rw [hr']
          simpa using hhigh
        refine ⟨idx :: i :: is, ?_, List.pairwise_cons.mpr ⟨fun j hj => ?_, hsorted⟩, fun j => List.mem_cons⟩
        · rw [List.findIdx?_cons, hhere]
          simpa [hr] using hmap
        · obtain rfl | hj := List.mem_cons.mp hj
          · exact hhigh
          · exact (hlt j hj).trans hhigh

theorem OpenOk.findUpvalue {idx : ℕ} {r : GcRef .upvalue} (h : OpenOk s p) (hidx : p idx)
    (he : s.findUpvalue idx = some (s', r)) : OpenOk s' p := by
  obtain ⟨is, hmap, hsorted, hall⟩ := h
  obtain rfl | ⟨gc, hsearch, halloc, rfl⟩ := findUpvalue_cases he
  · exact ⟨is, hmap, hsorted, hall⟩
  · obtain ⟨hfresh, hnew, hne, -⟩ := get_allocUpvalue halloc
    have hat : ∀ r', r' ∈ s.openUpvalues → ({ s with gc } : LuaState).openAt r' = s.openAt r' := by
      intro r' hr'
      have hsome : (s.openAt r').isSome := by
        have hmem : s.openAt r' ∈ is.map some := hmap ▸ List.mem_map_of_mem hr'
        obtain ⟨i, -, hi⟩ := List.mem_map.mp hmem
        rw [← hi]
        rfl
      have hne' : r' ≠ r := by
        rintro rfl
        simp [openAt, hfresh] at hsome
      change (gc.heap.get r').bind Upvalue.stackIndex = (s.gc.heap.get r').bind Upvalue.stackIndex
      rw [hne r' hne']
    have hr : ({ s with gc } : LuaState).openAt r = some idx := by
      change (gc.heap.get r).bind Upvalue.stackIndex = some idx
      rw [hnew]
      rfl
    obtain ⟨js, hjs, hsortedJs, hmem⟩ := insertIdx_slots hr ((List.map_congr_left hat).trans hmap) hsorted
      (searchOpen_eq_none hmap hsorted hsearch)
    refine ⟨js, hjs, hsortedJs, fun j hj => ?_⟩
    obtain rfl | hj := (hmem j).mp hj
    · exact hidx
    · exact hall j hj

/-! ### Leaving a thread and coming back -/

theorem openPairs_eq {is : List ℕ} (h : s.openUpvalues.map s.openAt = is.map some) :
    s.openPairs = s.openUpvalues.zip is := by
  rw [openPairs]
  generalize s.openUpvalues = rs at h ⊢
  induction rs generalizing is with
  | nil => simp
  | cons r rs ih =>
    cases is with
    | nil => simp at h
    | cons i is =>
      obtain ⟨hr, hrs⟩ := List.cons.inj h
      rw [openAt, Option.bind_eq_some_iff] at hr
      obtain ⟨uv, huv, hi⟩ := hr
      rw [List.filterMap_cons, List.zip_cons_cons, ih hrs]
      simp only [huv, Option.bind_eq_bind, Option.bind_some, hi]

/-- What is saved of a thread with open upvalues. -/
theorem OpenOk.saved (h : OpenOk s p) {t : LuaThread} (hfields : t.toThreadFields = s.toThreadFields)
    (hpairs : t.suspendedUpvals = s.openPairs) : SavedOpen t p := by
  obtain ⟨is, hmap, hsorted, hall⟩ := h
  have hopen : t.openUpvalues = s.openUpvalues := congrArg ThreadFields.openUpvalues hfields
  refine ⟨is, ?_, ?_, ?_, hsorted, hall⟩
  · rw [hopen]
    simpa using (congrArg List.length hmap).symm
  · rw [hpairs, openPairs_eq hmap, hopen]
  · rw [hopen]
    exact nodup_of_slots hmap hsorted

theorem OpenOk.cells (h : OpenOk s p) : ∀ r ∈ s.openUpvalues, (s.gc.heap.get r).isSome := by
  obtain ⟨is, hmap, -, -⟩ := h
  intro r hr
  have hmem : s.openAt r ∈ is.map some := hmap ▸ List.mem_map_of_mem hr
  obtain ⟨i, -, hi⟩ := List.mem_map.mp hmem
  cases hget : s.gc.heap.get r with
  | none => simp [openAt, hget] at hi
  | some uv => rfl

theorem openAt_reopen (s : LuaState) (x : GcRef .upvalue × ℕ) (hcell : (s.gc.heap.get x.1).isSome)
    (r : GcRef .upvalue) : (s.reopen x).openAt r = if r = x.1 then some x.2 else s.openAt r := by
  change ((s.gc.modify x.1 fun _ => Upvalue.newOpen x.2).heap.get r).bind Upvalue.stackIndex = _
  rw [get_modify]
  split_ifs
  · obtain ⟨uv, huv⟩ := Option.isSome_iff_exists.mp hcell
    rw [huv]
    rfl
  · rfl

/-- Reopening what was open before, with everything in the list already. -/
theorem foldl_reopen_slots :
    ∀ (rs : List (GcRef .upvalue)) (is : List ℕ) (s : LuaState), is.length = rs.length → rs.Nodup →
      (∀ r ∈ rs, r ∈ s.openUpvalues) → (∀ r ∈ rs, (s.gc.heap.get r).isSome) →
      ((rs.zip is).foldl reopen s).openUpvalues = s.openUpvalues ∧
        rs.map ((rs.zip is).foldl reopen s).openAt = is.map some ∧
        ∀ r, r ∉ rs → ((rs.zip is).foldl reopen s).openAt r = s.openAt r := by
  intro rs
  induction rs with
  | nil =>
    intro is s hlen _ _ _
    obtain rfl : is = [] := by simpa using hlen
    exact ⟨rfl, rfl, fun _ _ => rfl⟩
  | cons r rs ih =>
    intro is s hlen hnodup hmem hcell
    cases is with
    | nil => simp at hlen
    | cons i is =>
      obtain ⟨hr, hnodup'⟩ := List.nodup_cons.mp hnodup
      have hopen : (s.reopen (r, i)).openUpvalues = s.openUpvalues := if_pos (hmem r List.mem_cons_self)
      have hcell₀ := hcell r List.mem_cons_self
      have hat := openAt_reopen s (r, i) hcell₀
      have hcell' : ∀ r' ∈ rs, ((s.reopen (r, i)).gc.heap.get r').isSome := fun r' hr' =>
        (reopen_sameFrames s (r, i)).1.cells r' (hcell r' (List.mem_cons_of_mem _ hr'))
      obtain ⟨hopen', hmap', hrest⟩ := ih is (s.reopen (r, i)) (by simpa using hlen) hnodup'
        (fun r' hr' => hopen ▸ hmem r' (List.mem_cons_of_mem _ hr')) hcell'
      rw [List.zip_cons_cons, List.foldl_cons]
      refine ⟨hopen'.trans hopen, ?_, fun r' hr' => ?_⟩
      · rw [List.map_cons, List.map_cons, hmap', hrest r hr, hat r, if_pos rfl]
      · obtain ⟨hne, hnot⟩ := not_or.mp (mt List.mem_cons.mpr hr')
        rw [hrest r' hnot, hat r', if_neg hne]

/-- The resumer's upvalues are open at the slots they were open at. -/
theorem SavedOpen.swapOut {co : GcRef .thread} {caller : Option (GcRef .thread)} {status : ThreadStatus}
    {t : LuaThread} {ts : List LuaThread} (h : SavedOpen t p) (hsaved : s.savedThreads = t :: ts)
    (hcells : ∀ r ∈ t.openUpvalues, (s.gc.heap.get r).isSome) (he : s.swapOut co caller status = some s') :
    OpenOk s' p := by
  obtain ⟨is, hlen, hpairs, hnodup, hsorted, hall⟩ := h
  obtain ⟨t', ts', hsaved', rfl⟩ := swapOut_eq he
  obtain ⟨rfl, rfl⟩ := List.cons.inj (hsaved.symm.trans hsaved')
  rw [hpairs]
  obtain ⟨hopen, hmap, -⟩ := foldl_reopen_slots t.openUpvalues is (s.stored co status t.toThreadFields) hlen hnodup
    (fun r hr => hr) fun r hr => stored_cells s co status _ r (hcells r hr)
  refine ⟨is, ?_, hsorted, hall⟩
  change (List.foldl reopen _ _).openUpvalues.map (List.foldl reopen _ _).openAt = _
  rw [hopen]
  exact hmap

end

end Rilua.Vm
