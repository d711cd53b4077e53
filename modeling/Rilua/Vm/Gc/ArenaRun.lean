import Rilua.Lib.Run
import Rilua.Vm.Gc.ArenaCells

/-! Runs of the arena operations. A slot's generation counts how often it was freed, modulo 2^32, so a
    reference to a slot freed since is rejected until the counter comes round to it again. `free` does
    not look at the state of the slot: once the counter has come round to a reference while its slot is
    free, freeing that reference puts the slot on the free list a second time. `Fresh` is the condition
    that no step does so. -/

namespace Rilua.Vm.Gc

open Lib

/-- The operations on an arena. -/
inductive ArenaOp (k : ObjKind) (T : Type) where
  | alloc (value : T) (color : Color)
  | write (r : GcRef k) (f : T → T)
  | free (r : GcRef k)
  | setColor (r : GcRef k) (newColor : Color)
  | markWhiteUnfrozen (r : GcRef k) (newColor : Color)
  | setFlag (r : GcRef k) (f : Flag)
  | clearFlag (r : GcRef k) (f : Flag)
  | resetColors (color : Color)
  | sweep (deadColor newColor : Color)
  | sweepPartial (deadColor newColor : Color) (start maxCount : ℕ)

namespace Arena

variable {k : ObjKind} {T : Type}

def step (a : Arena k T) : ArenaOp k T → Option (Arena k T)
  | .alloc value color => (a.alloc value color).map Prod.fst
  | .write r f => some (a.modify r f)
  | .free r => (a.free r).map Prod.fst
  | .setColor r newColor => some (a.setColor r newColor).1
  | .markWhiteUnfrozen r newColor => some (a.markWhiteUnfrozen r newColor).1
  | .setFlag r f => some (a.setFlag r f).1
  | .clearFlag r f => some (a.clearFlag r f).1
  | .resetColors color => some (a.resetColors color)
  | .sweep deadColor newColor => (a.sweep deadColor newColor).map Prod.fst
  | .sweepPartial deadColor newColor start maxCount =>
    (a.sweepPartial deadColor newColor start maxCount).map Prod.fst

/-- The step does not free a reference whose slot is free and has come round to its generation. -/
def Fresh (a : Arena k T) : ArenaOp k T → Prop
  | .free r => ∀ e, a.entryOf r = some e → e.isOccupied = true
  | _ => True

/-- What a step does to one slot: nothing, freeing it, filling it again, writing it, or creating it. -/
inductive SlotStep : Option (Entry T) → Option (Entry T) → Prop
  | same (e : Option (Entry T)) : SlotStep e e
  | freed (g : ℕ) (v : T) (n : Option ℕ) :
      SlotStep (some ⟨g, .occupied v⟩) (some ⟨wrappingIncr g, .free n⟩)
  | filled (g : ℕ) (n : Option ℕ) (v : T) : SlotStep (some ⟨g, .free n⟩) (some ⟨g, .occupied v⟩)
  | written (g : ℕ) (v w : T) : SlotStep (some ⟨g, .occupied v⟩) (some ⟨g, .occupied w⟩)
  | pushed (v : T) : SlotStep none (some ⟨0, .occupied v⟩)

theorem slotStep_of_swept {a b : Arena k T} {dead new : Color} {lo hi f : ℕ}
    (h : Swept dead new a b lo hi f) (i : ℕ) : SlotStep a.entries[i]? b.entries[i]? := by
  rcases h.entry_eq i with he | ⟨g, v, n, ha, hb⟩
  · rw [he]; exact .same _
  · rw [ha, hb]; exact .freed g v n

theorem slotStep_alloc {a a' : Arena k T} (hw : a.Wf) {v : T} {c : Color} {r : GcRef k}
    (h : a.alloc v c = some (a', r)) (i : ℕ) : SlotStep a.entries[i]? a'.entries[i]? := by
  obtain ⟨len, -, ⟨n, -, he, rfl⟩ | ⟨-, rfl, rfl⟩⟩ := alloc_cases hw h
  · by_cases hi : r.index = i
    · subst hi
      rw [he, occupy, List.getElem?_set_self (List.getElem?_eq_some_iff.mp he).1]
      exact .filled _ _ _
    · rw [occupy, List.getElem?_set_ne hi]
      exact .same _
  · rcases Nat.lt_trichotomy i a.entries.length with hi | rfl | hi
    · rw [push, List.getElem?_append_left hi]
      exact .same _
    · rw [push, List.getElem?_concat_length, List.getElem?_eq_none (Nat.le_refl _)]
      exact .pushed v
    · rw [List.getElem?_eq_none (Nat.le_of_lt hi), List.getElem?_eq_none (by simp [push]; omega)]
      exact .same _

theorem slotStep_set {a : Arena k T} {e e' : Entry T} {i : ℕ} (he : a.entries[i]? = some e)
    (h : SlotStep (some e) (some e')) (j : ℕ) :
    SlotStep a.entries[j]? (a.entries.set i e')[j]? := by
  by_cases hij : i = j
  · subst hij
    rw [List.getElem?_set_self (List.getElem?_eq_some_iff.mp he).1, he]
    exact h
  · rw [List.getElem?_set_ne hij]
    exact .same _

/-- Freeing either releases an occupied slot or changes nothing, when the reference is `Fresh`. -/
theorem free_cases {a a' : Arena k T} (hw : a.Wf) {r : GcRef k} {v : Option T}
    (hfresh : a.Fresh (.free r)) (h : a.free r = some (a', v)) :
    (a.entryOf r = none ∧ a' = a ∧ v = none) ∨ ∃ x len, a.cell r = some x ∧ v = some x.value ∧
      checkedDecr a.len = some len ∧ a' = a.release r.index (wrappingIncr r.generation) len := by
  cases hent : a.entryOf r with
  | none =>
    rw [free_of_entry_none hent] at h
    cases h
    exact .inl ⟨rfl, rfl, rfl⟩
  | some e =>
    obtain ⟨he, hg⟩ := entryOf_eq_some.mp hent
    obtain ⟨g, st⟩ := e
    cases st with
    | free n => exact absurd (hfresh _ hent) (by simp)
    | occupied w =>
      obtain ⟨x, hx⟩ : ∃ x, a.cell r = some x := by
        refine Option.ne_none_iff_exists'.mp fun hn => ?_
        rw [cell_eq_none hw] at hn
        simp [get, hent] at hn
      obtain ⟨len, hlen, hfree⟩ := free_of_cell hw hx
      rw [hfree] at h
      cases h
      exact .inr ⟨x, len, hx, rfl, hlen, rfl⟩

/-- A `Fresh` step keeps the representation invariant and does one of the five things to each slot. -/
theorem step_spec {a a' : Arena k T} {op : ArenaOp k T} (hw : a.Wf) (hfresh : a.Fresh op)
    (h : a.step op = some a') : a'.Wf ∧ ∀ i : ℕ, SlotStep a.entries[i]? a'.entries[i]? := by
  cases op with
  | alloc v c =>
    obtain ⟨⟨b, r⟩, hb, rfl⟩ := Option.map_eq_some_iff.mp h
    exact ⟨hw.alloc hb, slotStep_alloc hw hb⟩
  | write r f =>
    cases h
    refine ⟨hw.modify r f, fun i => ?_⟩
    cases hv : a.get r with
    | none => rw [modify_eq_self f hv]; exact .same _
    | some v =>
      rw [modify_of_get f hv]
      exact slotStep_set (get_eq_some.mp hv) (.written _ _ _) i
  | free r =>
    obtain ⟨⟨b, v⟩, hb, rfl⟩ := Option.map_eq_some_iff.mp h
    rcases free_cases hw hfresh hb with ⟨-, rfl, -⟩ | ⟨x, len, hx, -, hlen, rfl⟩
    · exact ⟨hw, fun i => .same _⟩
    · exact ⟨hw.release (occupiedSlot_of_cell hw hx) (wrappingIncr_lt _) hlen,
        slotStep_set ((cell_eq_some hw).mp hx).1 (.freed _ _ _)⟩
  | setColor r c =>
    cases h
    refine ⟨hw.setColor r c, fun i => ?_⟩
    rw [setColor_eq hw]
    split <;> exact .same _
  | markWhiteUnfrozen r c =>
    cases h
    refine ⟨hw.markWhiteUnfrozen r c, fun i => ?_⟩
    rw [markWhiteUnfrozen_eq hw, setColor_eq hw]
    split_ifs <;> exact .same _
  | setFlag r f =>
    cases h
    refine ⟨hw.putFlag r f true, fun i => ?_⟩
    rw [setFlag, putFlag_eq hw]
    split <;> exact .same _
  | clearFlag r f =>
    cases h
    refine ⟨hw.putFlag r f false, fun i => ?_⟩
    rw [clearFlag, putFlag_eq hw]
    split <;> exact .same _
  | resetColors c =>
    cases h
    exact ⟨hw.resetColors c, fun i => .same _⟩
  | sweep d n =>
    obtain ⟨⟨b, f⟩, hb, rfl⟩ := Option.map_eq_some_iff.mp h
    obtain ⟨b', f', hb', hswept⟩ := sweep_spec hw d n
    rw [hb'] at hb
    cases hb
    exact ⟨hswept.wf, slotStep_of_swept hswept⟩
  | sweepPartial d n start m =>
    obtain ⟨⟨b, f, pos, done⟩, hb, rfl⟩ := Option.map_eq_some_iff.mp h
    by_cases hs : start ≤ a.entries.length
    · obtain ⟨b', f', pos', hb', hswept, -⟩ := sweepPartial_spec hw d n m hs
      rw [hb'] at hb
      cases hb
      exact ⟨hswept.wf, slotStep_of_swept hswept⟩
    · rw [sweepPartial_eq_none d n m (by omega)] at hb
      cases hb

theorem run_wf {a a' : Arena k T} {ops : List (ArenaOp k T)} (h : Run step Fresh a ops a')
    (hw : a.Wf) : a'.Wf :=
  h.invariant Wf (fun _ _ _ hw hfresh hstep => (step_spec hw hfresh hstep).1) hw

/-! ### Stale references -/

/-- Whether slot `i` holds a value. -/
def holds (a : Arena k T) (i : ℕ) : Bool := (a.entries[i]?).any Entry.isOccupied

/-- How often slot `i` is freed while `ops` are performed: the steps before which it holds a value and
    after which it does not. -/
def freesOf (i : ℕ) : Arena k T → List (ArenaOp k T) → ℕ
  | _, [] => 0
  | a, op :: ops =>
    match a.step op with
    | none => 0
    | some a' => (a.holds i && !a'.holds i).toNat + freesOf i a' ops

/-- One step moves the generation of a slot on by the number of times it frees the slot. -/
theorem SlotStep.generation {e e' : Option (Entry T)} (h : SlotStep e e') {d : Entry T}
    (hd : e = some d) (hlt : d.generation < u32Size) : ∃ d', e' = some d' ∧ d'.generation =
      (d.generation + (e.any Entry.isOccupied && !e'.any Entry.isOccupied).toNat) % u32Size := by
  cases h with
  | same => exact ⟨d, hd, by cases hd; simp [Nat.mod_eq_of_lt hlt]⟩
  | freed g v n => cases hd; exact ⟨_, rfl, rfl⟩
  | filled g n v => cases hd; exact ⟨_, rfl, by simp [Nat.mod_eq_of_lt hlt]⟩
  | written g v w => cases hd; exact ⟨_, rfl, by simp [Nat.mod_eq_of_lt hlt]⟩
  | pushed v => cases hd

theorem run_generation {i : ℕ} {a a' : Arena k T} {ops : List (ArenaOp k T)}
    (h : Run step Fresh a ops a') (hw : a.Wf) {e : Entry T} (he : a.entries[i]? = some e) :
    ∃ e', a'.entries[i]? = some e' ∧
      e'.generation = (e.generation + freesOf i a ops) % u32Size := by
  induction h generalizing e with
  | nil a => exact ⟨e, he, by simp [freesOf, Nat.mod_eq_of_lt (hw.generation_lt i e he)]⟩
  | @cons a b c op ops hfresh hstep hrun ih =>
    obtain ⟨hwb, hslot⟩ := step_spec hw hfresh hstep
    obtain ⟨d, hd, hgen⟩ := (hslot i).generation he (hw.generation_lt i e he)
    obtain ⟨e', he', hgen'⟩ := ih hwb hd
    refine ⟨e', he', ?_⟩
    rw [hgen', hgen, freesOf, hstep]
    rw [Nat.mod_add_mod, Nat.add_assoc]
    rfl

/-- A reference whose slot was freed, but not a multiple of 2^32 times, is rejected. -/
theorem run_stale {a a' : Arena k T} {ops : List (ArenaOp k T)} (h : Run step Fresh a ops a')
    (hw : a.Wf) {r : GcRef k} {v : T} (hv : a.get r = some v) (hpos : 0 < freesOf r.index a ops)
    (hlt : freesOf r.index a ops < u32Size) : a'.entryOf r = none := by
  have hslot := get_eq_some.mp hv
  have hg := hw.generation_lt r.index _ hslot
  obtain ⟨e', he', hgen⟩ := run_generation h hw hslot
  refine Option.eq_none_iff_forall_ne_some.mpr fun e he => ?_
  obtain ⟨he, hge⟩ := entryOf_eq_some.mp he
  rw [he'] at he
  cases he
  -- the generation moved on by a non-zero amount modulo 2^32
  simp only [u32Size] at hg hlt hgen
  omega

/-- Every state reached by `Fresh` steps has an exact free list and an exact count, and rejects the
    references whose slot was freed since (fewer than 2^32 times). -/
theorem run_sound {a : Arena k T} {ops : List (ArenaOp k T)} (h : Run step Fresh {} ops a) :
    a.FreeListExact ∧ a.len = a.occupiedCount ∧
      ∀ (a' : Arena k T) (ops' : List (ArenaOp k T)) (r : GcRef k), Run step Fresh a ops' a' →
        a.isValid r = true → 0 < freesOf r.index a ops' → freesOf r.index a ops' < u32Size →
        a'.get r = none ∧ (∀ f, a'.modify r f = a') ∧ a'.isValid r = false := by
  have hw := run_wf h wf_new
  refine ⟨hw.freeList, hw.len_eq, fun a' ops' r h' hvalid hpos hlt => ?_⟩
  obtain ⟨v, hv⟩ := Option.isSome_iff_exists.mp hvalid
  have hent := run_stale h' hw hv hpos hlt
  have hget : a'.get r = none := by rw [get, hent]; rfl
  exact ⟨hget, fun f => modify_eq_self f hget, by rw [isValid, hget]; rfl⟩

/-- One run: a slot is filled, freed and filled again; the first reference is rejected. -/
theorem run_sound_reuse :
    (step (k := .string) (T := ℕ) ⟨[⟨0, .occupied 5⟩], [some .white0], [{}], none, 1⟩ (.free ⟨0, 0⟩)).isSome ∧
      (⟨[⟨1, .occupied 7⟩], [some .white0], [{}], none, 1⟩ : Arena .string ℕ).get ⟨0, 0⟩ = none := by
  have h : Run step Fresh ({} : Arena .string ℕ) [.alloc 5 .white0]
      ⟨[⟨0, .occupied 5⟩], [some .white0], [{}], none, 1⟩ :=
    .single trivial rfl
  have h' : Run step Fresh (⟨[⟨0, .occupied 5⟩], [some .white0], [{}], none, 1⟩ : Arena .string ℕ)
      [.free ⟨0, 0⟩, .alloc 7 .white0] ⟨[⟨1, .occupied 7⟩], [some .white0], [{}], none, 1⟩ :=
    .cons (by rintro e he; cases he; rfl) rfl (.single trivial rfl)
  exact ⟨rfl, ((run_sound h).2.2 _ _ ⟨0, 0⟩ h' rfl (by decide) (by decide)).1⟩

/-! ### Freeing a free slot -/

/-- Two objects, the first in a slot that was freed `g` times. -/
def spun (g : ℕ) : Arena .string Unit :=
  ⟨[⟨g, .occupied ()⟩, ⟨0, .occupied ()⟩], [some .white0, some .white0], [{}, {}], none, 2⟩

/-- Slot 0 is free at generation `g`; the object in slot 1 is still there. -/
def spunFree (g : ℕ) : Arena .string Unit :=
  ⟨[⟨g, .free none⟩, ⟨0, .occupied ()⟩], [none, some .white0], [{}, {}], some 0, 1⟩

theorem step_free_spun (g : ℕ) : step (spun g) (.free ⟨0, g⟩) = some (spunFree (wrappingIncr g)) := by
  have hent : (spun g).entryOf ⟨0, g⟩ = some ⟨g, .occupied ()⟩ := entryOf_eq_some.mpr ⟨rfl, rfl⟩
  simp only [step, free, hent]
  rfl

/-- Free the object in slot 0 at generation `g` and allocate again, `n` times. -/
def spinOps : ℕ → ℕ → List (ArenaOp .string Unit)
  | 0, _ => []
  | n + 1, g => .free ⟨0, g⟩ :: .alloc () .white0 :: spinOps n (wrappingIncr g)

theorem exec_spinOps (n g : ℕ) (h : g + n < u32Size) :
    exec step (spun g) (spinOps n g) = some (spun (g + n)) := by
  induction n generalizing g with
  | zero => rfl
  | succ n ih =>
    have hg : wrappingIncr g = g + 1 := Nat.mod_eq_of_lt (by omega)
    have halloc : step (spunFree (g + 1)) (.alloc () .white0) = some (spun (g + 1)) := rfl
    rw [spinOps, exec, step_free_spun, Option.bind_some, exec, hg, halloc, Option.bind_some,
      ih (g + 1) (by omega), Nat.add_right_comm, Nat.add_assoc]

/-- Two allocations, 2^32 - 1 reuses of slot 0, and then slot 0 freed twice: at the generation it is
    at, and at generation 0, to which the counter has come round. -/
def doubleFreeOps : List (ArenaOp .string Unit) :=
  [.alloc () .white0, .alloc () .white0] ++ (spinOps (u32Size - 1) 0 ++
    [.free ⟨0, u32Size - 1⟩, .free ⟨0, 0⟩])

/-- The second free succeeds: the free list then runs in a circle and the count is wrong. -/
theorem free_of_free_slot : ∃ a, exec step ({} : Arena .string Unit) doubleFreeOps = some a ∧
    ¬a.FreeListExact ∧ a.len ≠ a.occupiedCount := by
  refine ⟨⟨[⟨1, .free (some 0)⟩, ⟨0, .occupied ()⟩], [none, some .white0], [{}, {}], some 0, 0⟩, ?_,
    ?_, by decide⟩
  · have hspin := exec_spinOps (u32Size - 1) 0 (by decide)
    rw [Nat.zero_add] at hspin
    have hinit : exec step ({} : Arena .string Unit) [.alloc () .white0, .alloc () .white0] =
        some (spun 0) := rfl
    have hwrap : wrappingIncr (u32Size - 1) = 0 := by decide
    rw [doubleFreeOps, exec_append, hinit, Option.bind_some, exec_append, hspin, Option.bind_some,
      exec, step_free_spun, hwrap]
    rfl
  · -- a chain from slot 0 comes back to slot 0
    rintro ⟨l, hl, -⟩
    have hnodup := hl.nodup
    cases l with
    | nil => cases hl
    | cons i l =>
      obtain ⟨hi, hl⟩ := hl
      cases hi
      cases l with
      | nil => cases hl
      | cons j l =>
        obtain ⟨hj, -⟩ := hl
        cases hj
        simp at hnodup

end Arena

end Rilua.Vm.Gc
