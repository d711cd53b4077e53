import Rilua.Vm.Gc.ArenaRun

/-! A sweep in batches. Between the batches objects are allocated, behind the cursor or before it, in slots that the
    sweep has freed or in new ones. What is freed in the end is what one sweep of the arena at the start would free:
    an object that was there at the start is swept once, as it was then, and an object allocated since has a colour
    that the sweep spares. -/

namespace Rilua.Vm.Gc

open Lib

/-- An arena that is being swept, with the cursor of the collector, the objects freed and the objects allocated so far. -/
structure SweepState (k : ObjKind) (T : Type) where
  arena : Arena k T
  cursor : ℕ := 0
  done : Bool := false
  freed : List (GcRef k) := []
  allocated : List (GcRef k) := []

inductive SweepOp (T : Type) where
  | batch (maxCount : ℕ)
  | alloc (value : T)

def SweepOp.isBatch {T : Type} : SweepOp T → Bool
  | .batch _ => true
  | .alloc _ => false

namespace Arena

variable {k : ObjKind} {T : Type}

/-- The references that were valid in `a` and are not in `b`. -/
def freedSince (a b : Arena k T) : List (GcRef k) := (a.iter.map Prod.fst).filter fun r => !b.isValid r

theorem isValid_eq_cell {a : Arena k T} (hw : a.Wf) (r : GcRef k) : a.isValid r = (a.cell r).isSome := by
  rw [isValid, get_eq_cell hw, Option.isSome_map]

theorem mem_iter {a : Arena k T} (hw : a.Wf) {r : GcRef k} : r ∈ a.iter.map Prod.fst ↔ ∃ x, a.cell r = some x := by
  simp only [iter, List.mem_map, List.mem_filterMap, bind, Option.bind_eq_some_iff]
  constructor
  · rintro ⟨⟨r', v, c⟩, ⟨i, -, e, he, v', hv, c', hc, heq⟩, rfl⟩
    cases heq
    obtain ⟨g, st⟩ := e
    cases st with
    | free n => cases hv
    | occupied w =>
      cases hv
      have hflags : i < a.flags.length := hw.flags_length ▸ (List.getElem?_eq_some_iff.mp he).1
      exact ⟨⟨_, _, a.flags[i]⟩, (cell_eq_some hw).mpr ⟨he, Option.join_eq_some_iff.mp hc,
        List.getElem?_eq_getElem hflags⟩⟩
  · rintro ⟨x, hx⟩
    obtain ⟨he, hc, -⟩ := (cell_eq_some hw).mp hx
    have hlt := (List.getElem?_eq_some_iff.mp he).1
    exact ⟨(r, x.value, x.color), ⟨r.index, List.mem_range.mpr hlt, _, he, x.value, rfl, x.color,
      Option.join_eq_some_iff.mpr hc, rfl⟩, rfl⟩

theorem exists_cell {a : Arena k T} (hw : a.Wf) {r : GcRef k} {v : T}
    (he : a.entries[r.index]? = some ⟨r.generation, .occupied v⟩) : ∃ x, a.cell r = some x := by
  refine Option.ne_none_iff_exists'.mp fun hn => ?_
  rw [cell_eq_none hw, get_eq_some.mpr he] at hn
  cases hn

theorem mem_freedSince {a b : Arena k T} (ha : a.Wf) (hb : b.Wf) {r : GcRef k} :
    r ∈ a.freedSince b ↔ (∃ x, a.cell r = some x) ∧ b.cell r = none := by
  rw [freedSince, List.mem_filter, mem_iter ha, isValid_eq_cell hb, Bool.not_eq_true', Option.isSome_eq_false_iff,
    Option.isNone_iff_eq_none]

/-- An allocation leaves the generations of the slots as they are. -/
theorem alloc_generation {a a' : Arena k T} (hw : a.Wf) {v : T} {c : Color} {r : GcRef k}
    (h : a.alloc v c = some (a', r)) {i : ℕ} {e : Entry T} (he : a.entries[i]? = some e) :
    ∃ e', a'.entries[i]? = some e' ∧ e'.generation = e.generation := by
  obtain ⟨hlt, -⟩ := List.getElem?_eq_some_iff.mp he
  obtain ⟨len, -, ⟨n, -, hslot, rfl⟩ | ⟨-, rfl, rfl⟩⟩ := alloc_cases hw h
  · by_cases hi : r.index = i
    · subst hi
      rw [hslot] at he
      cases he
      exact ⟨_, List.getElem?_set_self hlt, rfl⟩
    · exact ⟨e, by rw [occupy, List.getElem?_set_ne hi]; exact he, rfl⟩
  · exact ⟨e, by rw [push, List.getElem?_append_left hlt]; exact he, rfl⟩

theorem alloc_length {a a' : Arena k T} (hw : a.Wf) {v : T} {c : Color} {r : GcRef k}
    (h : a.alloc v c = some (a', r)) : a.entries.length ≤ a'.entries.length := by
  obtain ⟨len, -, ⟨n, -, -, rfl⟩ | ⟨-, -, rfl⟩⟩ := alloc_cases hw h
  · exact Nat.le_of_eq (List.length_set ..).symm
  · rw [push, List.length_append]
    exact Nat.le_add_right ..

/-- The slot of an allocation has the generation of the reference handed out, or is new. -/
theorem alloc_slot {a a' : Arena k T} (hw : a.Wf) {v : T} {c : Color} {r : GcRef k}
    (h : a.alloc v c = some (a', r)) {e : Entry T} (he : a.entries[r.index]? = some e) : e.generation = r.generation := by
  obtain ⟨len, -, ⟨n, -, hslot, -⟩ | ⟨-, rfl, -⟩⟩ := alloc_cases hw h
  · rw [hslot] at he
    cases he
    rfl
  · rw [List.getElem?_eq_none (Nat.le_refl _)] at he
    cases he

end Arena

namespace SweepState

variable {k : ObjKind} {T : Type} {new : Color} {a : Arena k T} {s s' : SweepState k T}

/-- Objects are allocated in the current white; the other white is the colour of the dead. -/
def step (new : Color) (s : SweepState k T) : SweepOp T → Option (SweepState k T)
  | .batch maxCount =>
    if s.done then none
    else do
      let (arena, _, nextPos, isDone) ← s.arena.sweepPartial new.otherWhite new s.cursor maxCount
      some { s with arena, cursor := nextPos, done := isDone, freed := s.freed ++ s.arena.freedSince arena }
  | .alloc value =>
    if s.done then none
    else do
      let (arena, r) ← s.arena.alloc value new
      some { s with arena, allocated := r :: s.allocated }

/-- Batches are not empty. -/
def Positive (_ : SweepState k T) : SweepOp T → Prop
  | .batch maxCount => 1 ≤ maxCount
  | .alloc _ => True

/-- A sweep of `a` that has come to the cursor. -/
structure Sweeping (new : Color) (a : Arena k T) (s : SweepState k T) : Prop where
  wf : s.arena.Wf
  cursor_le : s.cursor ≤ s.arena.entries.length
  cursor_eq : s.done = true → s.cursor = s.arena.entries.length
  old : ∀ r x, a.cell r = some x → s.arena.cell r =
    if r.index < s.cursor then Arena.sweepCell new.otherWhite new x else some x
  /-- The slot of an object that has been freed has moved on to the next generation. -/
  reused : ∀ r x, a.cell r = some x → s.arena.cell r = none →
    ∃ e, s.arena.entries[r.index]? = some e ∧ e.generation = wrappingIncr r.generation
  fresh : ∀ r x, a.cell r = none → s.arena.cell r = some x → x.color = new
  allocated : ∀ r ∈ s.allocated, a.cell r = none ∧ ∃ x, s.arena.cell r = some x
  freed : ∀ r, r ∈ s.freed ↔ (∃ x, a.cell r = some x) ∧ s.arena.cell r = none

theorem sweeping_start (hw : a.Wf) : Sweeping new a { arena := a } where
  wf := hw
  cursor_le := Nat.zero_le _
  cursor_eq h := by cases h
  old r x hx := by rw [if_neg (Nat.not_lt_zero _)]; exact hx
  reused r x hx hn := by rw [hx] at hn; cases hn
  fresh r x hn hx := by rw [hn] at hx; cases hx
  allocated r hr := by cases hr
  freed r := by
    constructor
    · intro hr
      cases hr
    · rintro ⟨⟨x, hx⟩, hn⟩
      rw [hx] at hn
      cases hn

/-- The sweep spares what has the new colour. -/
theorem sweepCell_new (hwhite : new.isWhite = true) {x : Cell T} (hx : x.color = new) :
    Arena.sweepCell new.otherWhite new x = some { x with color := new } := by
  have hne : ¬ (x.color = new.otherWhite ∧ x.flags.isKeptAlive = false) := by
    rintro ⟨hc, -⟩
    exact Color.otherWhite_ne hwhite (hc.symm.trans hx)
  rw [Arena.sweepCell, if_neg hne]

/-- What a batch leaves has been there before, and has the new colour if the batch has passed over it. -/
theorem survivor {b : Arena k T} {lo hi f : ℕ} (h : Arena.Swept new.otherWhite new a b lo hi f) {r : GcRef k} {y : Cell T}
    (hy : b.cell r = some y) : ∃ x, a.cell r = some x ∧ (y = x ∨ y.color = new) := by
  rw [h.cell_eq] at hy
  split at hy
  · obtain ⟨x, hx, hsweep⟩ := Option.bind_eq_some_iff.mp hy
    rw [Arena.sweepCell] at hsweep
    split at hsweep
    · cases hsweep
    · cases hsweep
      exact ⟨x, hx, .inr rfl⟩
  · exact ⟨y, hy, .inl rfl⟩

theorem spared (hwhite : new.isWhite = true) {b : Arena k T} {lo hi f : ℕ}
    (h : Arena.Swept new.otherWhite new a b lo hi f) {r : GcRef k} {x : Cell T} (hx : a.cell r = some x)
    (hnew : x.color = new) : ∃ y, b.cell r = some y := by
  rw [h.cell_eq]
  split
  · exact ⟨_, by rw [hx, Option.bind_some, sweepCell_new hwhite hnew]⟩
  · exact ⟨x, hx⟩

theorem gone {b : Arena k T} {lo hi f : ℕ} (h : Arena.Swept new.otherWhite new a b lo hi f) {r : GcRef k}
    (hn : a.cell r = none) : b.cell r = none := by
  rw [h.cell_eq, hn]
  split
  · rfl
  · rfl

theorem Sweeping.batch (hw : a.Wf) (h : Sweeping new a s) (hwhite : new.isWhite = true) {b : Arena k T} {maxCount f pos : ℕ}
    {done : Bool} (hb : s.arena.sweepPartial new.otherWhite new s.cursor maxCount = some (b, f, pos, done)) :
    Sweeping new a { s with arena := b, cursor := pos, done, freed := s.freed ++ s.arena.freedSince b } := by
  obtain ⟨b', f', pos', heq, hswept, hle, hpos, -⟩ :=
    Arena.sweepPartial_spec h.wf new.otherWhite new maxCount h.cursor_le
  rw [hb] at heq
  cases heq
  -- an object that this batch frees was there at the start
  have hstart : ∀ {r y}, s.arena.cell r = some y → b.cell r = none → ∃ x, a.cell r = some x := by
    intro r y hy hn
    cases hx : a.cell r with
    | some x => exact ⟨x, rfl⟩
    | none =>
      obtain ⟨z, hz⟩ := spared hwhite hswept hy (h.fresh r y hx hy)
      rw [hn] at hz
      cases hz
  refine ⟨hswept.wf, ?_, fun hdone => ?_, fun r x hx => ?_, fun r x hx hn => ?_, fun r y hx hy => ?_,
    fun r hr => ?_, fun r => ?_⟩
  · rw [hswept.length_eq]
    exact hpos
  · rw [hswept.length_eq]
    exact Nat.le_antisymm hpos (of_decide_eq_true hdone)
  · rw [hswept.cell_eq, h.old r x hx]
    dsimp only
    split_ifs <;> first | rfl | omega
  · rcases hswept.entry_eq r.index with hsame | ⟨g, v, n, hbefore, hafter⟩
    · -- the slot is as it was: the object had been freed before
      have hgone : s.arena.cell r = none := by
        refine (Arena.cell_eq_none h.wf).mpr ?_
        have hget := (Arena.cell_eq_none hswept.wf).mp hn
        rwa [Arena.get, Arena.entryOf, hsame] at hget
      obtain ⟨e, he, hg⟩ := h.reused r x hx hgone
      exact ⟨e, hsame.trans he, hg⟩
    · -- the batch frees the slot: it held `r`, since it spares what has been allocated since
      obtain ⟨y, hy⟩ : ∃ y, s.arena.cell ⟨r.index, g⟩ = some y :=
        Arena.exists_cell h.wf hbefore
      have hfreed : b.cell ⟨r.index, g⟩ = none := by
        refine (Arena.cell_eq_none hswept.wf).mpr (Option.eq_none_iff_forall_ne_some.mpr fun w hw => ?_)
        rw [Arena.get_eq_some, hafter] at hw
        simp at hw
      obtain ⟨z, hz⟩ := hstart hy hfreed
      have hr : r = ⟨r.index, g⟩ := Arena.cell_index_unique hw hx hz rfl
      exact ⟨_, hafter, by rw [hr]⟩
  · obtain ⟨x, hsx, rfl | hnew⟩ := survivor hswept hy
    · exact h.fresh r y hx hsx
    · exact hnew
  · obtain ⟨hn, x, hx⟩ := h.allocated r hr
    exact ⟨hn, spared hwhite hswept hx (h.fresh r x hn hx)⟩
  · rw [List.mem_append, h.freed, Arena.mem_freedSince h.wf hswept.wf]
    constructor
    · rintro (⟨hx, hn⟩ | ⟨⟨y, hy⟩, hn⟩)
      · exact ⟨hx, gone hswept hn⟩
      · exact ⟨hstart hy hn, hn⟩
    · rintro ⟨hx, hn⟩
      cases hy : s.arena.cell r with
      | none => exact .inl ⟨hx, rfl⟩
      | some y => exact .inr ⟨⟨y, rfl⟩, hn⟩

theorem Sweeping.alloc (h : Sweeping new a s) (hdone : s.done = false) {b : Arena k T} {v : T} {r₀ : GcRef k}
    (hb : s.arena.alloc v new = some (b, r₀)) :
    Sweeping new a { s with arena := b, allocated := r₀ :: s.allocated } := by
  have hwf := h.wf.alloc hb
  have hcell := Arena.cell_alloc h.wf hb
  have hfresh := Arena.cell_alloc_fresh h.wf hb
  -- the reference handed out was never that of an object of `a`
  have hnew : a.cell r₀ = none := by
    cases hx : a.cell r₀ with
    | none => rfl
    | some x =>
      obtain ⟨e, he, hg⟩ := h.reused r₀ x hx hfresh
      rw [Arena.alloc_slot h.wf hb he] at hg
      exact absurd hg.symm (wrappingIncr_ne _)
  have hne : ∀ {r x}, a.cell r = some x → r ≠ r₀ := by
    rintro r x hx rfl
    rw [hnew] at hx
    cases hx
  refine ⟨hwf, ?_, fun hd => ?_, fun r x hx => ?_, fun r x hx hn => ?_, fun r y hx hy => ?_,
    fun r hr => ?_, fun r => ?_⟩
  · exact Nat.le_trans h.cursor_le (Arena.alloc_length h.wf hb)
  · rw [hdone] at hd
    cases hd
  · rw [hcell, if_neg (hne hx)]
    exact h.old r x hx
  · rw [hcell, if_neg (hne hx)] at hn
    obtain ⟨e, he, hg⟩ := h.reused r x hx hn
    obtain ⟨e', he', hg'⟩ := Arena.alloc_generation h.wf hb he
    exact ⟨e', he', hg'.trans hg⟩
  · rw [hcell] at hy
    split at hy
    · cases hy
      rfl
    · exact h.fresh r y hx hy
  · dsimp only
    rw [hcell]
    rcases List.mem_cons.mp hr with rfl | hr
    · exact ⟨hnew, _, if_pos rfl⟩
    · obtain ⟨hn, x, hx⟩ := h.allocated r hr
      have hrne : r ≠ r₀ := by
        rintro rfl
        rw [hfresh] at hx
        cases hx
      exact ⟨hn, x, by rw [if_neg hrne]; exact hx⟩
  · dsimp only
    rw [h.freed, hcell]
    constructor
    · rintro ⟨⟨x, hx⟩, hn⟩
      exact ⟨⟨x, hx⟩, by rw [if_neg (hne hx)]; exact hn⟩
    · rintro ⟨⟨x, hx⟩, hn⟩
      rw [if_neg (hne hx)] at hn
      exact ⟨⟨x, hx⟩, hn⟩

theorem Sweeping.step (hw : a.Wf) (hwhite : new.isWhite = true) {op : SweepOp T} (h : Sweeping new a s)
    (hstep : s.step new op = some s') : Sweeping new a s' := by
  cases op with
  | batch maxCount =>
    rw [SweepState.step] at hstep
    split at hstep
    · cases hstep
    simp only [bind, Option.bind_eq_some_iff] at hstep
    obtain ⟨⟨b, f, pos, done⟩, hb, hstep⟩ := hstep
    cases hstep
    exact h.batch hw hwhite hb
  | alloc v =>
    rw [SweepState.step] at hstep
    split at hstep
    · cases hstep
    next hdone =>
    simp only [bind, Option.bind_eq_some_iff] at hstep
    obtain ⟨⟨b, r⟩, hb, hstep⟩ := hstep
    cases hstep
    exact h.alloc (Bool.eq_false_iff.mpr hdone) hb

/-! ### The end of the sweep -/

/-- A batch that is not empty comes further, or is the last one. -/
theorem progress (h : Sweeping new a s) {op : SweepOp T} (hop : s.Positive op) (hstep : s.step new op = some s') :
    s.cursor + s.done.toNat + op.isBatch.toNat ≤ s'.cursor + s'.done.toNat := by
  cases op with
  | batch maxCount =>
    rw [SweepState.step] at hstep
    split at hstep
    · cases hstep
    next hdone =>
    simp only [bind, Option.bind_eq_some_iff] at hstep
    obtain ⟨⟨b, f, pos, done⟩, hb, hstep⟩ := hstep
    cases hstep
    obtain ⟨b', f', pos', heq, -, hle, hpos, hfurther⟩ :=
      Arena.sweepPartial_spec h.wf new.otherWhite new maxCount h.cursor_le
    rw [hb] at heq
    cases heq
    have hcount : maxCount ≠ 0 := Nat.one_le_iff_ne_zero.mp hop
    rw [Bool.eq_false_iff.mpr hdone]
    simp only [SweepOp.isBatch, Bool.toNat_false, Bool.toNat_true]
    rcases Nat.lt_or_ge s.cursor s.arena.entries.length with hlt | hge
    · have := hfurther hcount hlt
      omega
    · rw [decide_eq_true (Nat.le_trans hge hle), Bool.toNat_true]
      omega
  | alloc v =>
    rw [SweepState.step] at hstep
    split at hstep
    · cases hstep
    simp only [bind, Option.bind_eq_some_iff] at hstep
    obtain ⟨⟨b, r⟩, hb, hstep⟩ := hstep
    cases hstep
    exact Nat.le_refl _

theorem run_progress (hw : a.Wf) (hwhite : new.isWhite = true) {ops : List (SweepOp T)}
    (hrun : Run (step new) Positive s ops s') (h : Sweeping new a s) :
    s.cursor + s.done.toNat + ops.countP SweepOp.isBatch ≤ s'.cursor + s'.done.toNat := by
  induction hrun with
  | nil => exact Nat.le_refl _
  | @cons s s₁ s₂ op ops hop hstep _ ih =>
    have hone := progress h hop hstep
    have hrest := ih (h.step hw hwhite hstep)
    rw [List.countP_cons]
    cases hbatch : op.isBatch with
    | false =>
      rw [hbatch, Bool.toNat_false] at hone
      simp only [Bool.false_eq_true, if_false]
      omega
    | true =>
      rw [hbatch, Bool.toNat_true] at hone
      simp only [if_true]
      omega

theorem Sweeping.next (h : Sweeping new a s) (hdone : s.done = false) (maxCount : ℕ) :
    ∃ s', s.step new (.batch maxCount) = some s' := by
  obtain ⟨b, f, pos, heq, -⟩ := Arena.sweepPartial_spec h.wf new.otherWhite new maxCount h.cursor_le
  exact ⟨_, by rw [SweepState.step, if_neg (by simp [hdone]), heq]; rfl⟩

/-- Where the sweep is over, the cursor has passed every object. -/
theorem Sweeping.lt_cursor (h : Sweeping new a s) (hdone : s.done = true) {r : GcRef k} {x : Cell T}
    (hx : s.arena.cell r = some x) : r.index < s.cursor := by
  rw [h.cursor_eq hdone]
  exact (Arena.occupiedSlot_of_cell h.wf hx).lt

theorem Sweeping.color_eq (h : Sweeping new a s) (hdone : s.done = true) {r : GcRef k} {y : Cell T}
    (hy : s.arena.cell r = some y) : y.color = new := by
  cases hx : a.cell r with
  | none => exact h.fresh r y hx hy
  | some x =>
    have hold := h.old r x hx
    rw [if_pos (h.lt_cursor hdone hy), hy, Arena.sweepCell] at hold
    split at hold
    · cases hold
    · cases hold
      rfl

theorem Sweeping.cell_none_iff (h : Sweeping new a s) (hdone : s.done = true) {r : GcRef k} {x : Cell T}
    (hx : a.cell r = some x) : s.arena.cell r = none ↔ Arena.sweepCell new.otherWhite new x = none := by
  have hold := h.old r x hx
  split at hold
  · rw [hold]
  · next hge => exact absurd (h.lt_cursor hdone hold) hge

/-- In every sweep in batches, with allocations between them: as long as it is not over there is a next batch, there
    are at most 2^32 of them, and what has been allocated is still there. Where it is over, what has been freed is what
    a sweep of the arena at the start frees, and everything left has the current white. -/
theorem sweepPartial_eq_sweep (hw : a.Wf) (hwhite : new.isWhite = true) {ops : List (SweepOp T)}
    (hrun : Run (step new) Positive { arena := a } ops s) :
    (s.done = false → ∀ maxCount, ∃ s', s.step new (.batch maxCount) = some s') ∧
      ops.countP SweepOp.isBatch ≤ u32Size ∧ (∀ r ∈ s.allocated, s.arena.isValid r = true) ∧
      (s.done = true →
        (∃ b n, a.sweep new.otherWhite new = some (b, n) ∧
          ∀ r, r ∈ s.freed ↔ a.isValid r = true ∧ b.isValid r = false) ∧
        ∀ r c, s.arena.color r = some c → c = new) := by
  have h : Sweeping new a s :=
    hrun.invariant (Sweeping new a) (fun _ _ _ h _ hstep => h.step hw hwhite hstep) (sweeping_start hw)
  refine ⟨fun hdone maxCount => h.next hdone maxCount, ?_, fun r hr => ?_, fun hdone => ⟨?_, fun r c hc => ?_⟩⟩
  · have hcount := run_progress hw hwhite hrun (sweeping_start hw)
    have hle := h.cursor_le
    have hcap := h.wf.capacity_lt
    have hlast : s.done.toNat ≤ 1 := Bool.toNat_le _
    dsimp only at hcount
    omega
  · obtain ⟨-, x, hx⟩ := h.allocated r hr
    rw [Arena.isValid_eq_cell h.wf, hx]
    rfl
  · obtain ⟨b, n, hb, hswept⟩ := Arena.sweep_spec hw new.otherWhite new
    refine ⟨b, n, hb, fun r => ?_⟩
    rw [h.freed, Arena.isValid_eq_cell hw, Arena.isValid_eq_cell hswept.wf, Option.isSome_eq_false_iff,
      Option.isNone_iff_eq_none, Option.isSome_iff_exists]
    refine and_congr_right fun ⟨x, hx⟩ => ?_
    have hlt : r.index < a.entries.length := (Arena.occupiedSlot_of_cell hw hx).lt
    rw [h.cell_none_iff hdone hx, hswept.cell_eq, if_pos ⟨Nat.zero_le _, hlt⟩, hx, Option.bind_some]
  · rw [Arena.color_eq_cell h.wf] at hc
    obtain ⟨y, hy, rfl⟩ := Option.map_eq_some_iff.mp hc
    exact h.color_eq hdone hy

/-- A dead object and a marked one. -/
def deadAndMarked : Arena .string ℕ :=
  ⟨[⟨0, .occupied 5⟩, ⟨0, .occupied 7⟩], [some .white0, some .black], [{}, {}], none, 2⟩

/-- The slot of the dead object is taken again before the second batch. -/
theorem sweepPartial_eq_sweep_reuse : ∃ (s : SweepState .string ℕ) (b : Arena .string ℕ) (n : ℕ),
    s.freed = [⟨0, 0⟩] ∧ s.allocated = [⟨0, 1⟩] ∧ deadAndMarked.sweep .white0 .white1 = some (b, n) ∧
      ∀ r, r ∈ s.freed ↔ deadAndMarked.isValid r = true ∧ b.isValid r = false := by
  have hinit : Run Arena.step Arena.Fresh ({} : Arena .string ℕ) [.alloc 5 .white0, .alloc 7 .black] deadAndMarked :=
    .cons trivial rfl (.single trivial rfl)
  have hw : deadAndMarked.Wf := Arena.run_wf hinit Arena.wf_new
  have hrun : ∃ s : SweepState .string ℕ, Run (step .white1) Positive { arena := deadAndMarked }
      [.batch 1, .alloc 9, .batch 1] s ∧ s.done = true ∧ s.freed = [⟨0, 0⟩] ∧ s.allocated = [⟨0, 1⟩] :=
    ⟨_, .cons (Nat.le_refl 1) rfl (.cons trivial rfl (.cons (Nat.le_refl 1) rfl (.nil _))), rfl, rfl, rfl⟩
  obtain ⟨s, hs, hdone, hfreed, halloc⟩ := hrun
  obtain ⟨⟨b, n, hb, heq⟩, -⟩ := (sweepPartial_eq_sweep hw rfl hs).2.2.2 hdone
  exact ⟨s, b, n, hfreed, halloc, hb, heq⟩

end SweepState

end Rilua.Vm.Gc
