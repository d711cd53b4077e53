import Rilua.Vm.Gc.ArenaCells
import Rilua.Vm.Object

/-! The heap: one arena for each kind of object. The arenas carry their representation invariant, and each
    operation is described by what it does to the cell of every object. -/

namespace Rilua.Vm.Gc

/-- The typed arenas. -/
structure Heap where
  arena : (k : ObjKind) → Arena k (Obj k)
  wf : ∀ k, (arena k).Wf

namespace Heap

def new : Heap := ⟨fun _ => {}, fun _ => Arena.wf_new⟩

/-- Replaces the arena of kind `k`. -/
def put (h : Heap) (k : ObjKind) (a : Arena k (Obj k)) (hw : a.Wf) : Heap where
  arena := Function.update h.arena k a
  wf j := by
    by_cases hj : j = k
    · subst hj; rw [Function.update_self]; exact hw
    · rw [Function.update_of_ne hj]; exact h.wf j

abbrev strings (h : Heap) : StringArena := h.arena .string

/-- What a reference denotes. -/
def cell (h : Heap) (o : ObjRef) : Option (Cell (Obj o.kind)) := (h.arena o.kind).cell o.ref

def get (h : Heap) {k : ObjKind} (r : GcRef k) : Option (Obj k) := (h.arena k).get r

def isValid (h : Heap) (o : ObjRef) : Bool := (h.arena o.kind).isValid o.ref

def color (h : Heap) (o : ObjRef) : Option Color := (h.arena o.kind).color o.ref

def hasFlag (h : Heap) (o : ObjRef) (f : Flag) : Bool := (h.arena o.kind).hasFlag o.ref f

def setColor (h : Heap) (o : ObjRef) (c : Color) : Heap :=
  h.put o.kind _ ((h.wf o.kind).setColor o.ref c)

/-- `mark_white_unfrozen` on the arena of the object. -/
def markWhiteUnfrozen (h : Heap) (o : ObjRef) (c : Color) : Heap × Bool :=
  (h.put o.kind _ ((h.wf o.kind).markWhiteUnfrozen o.ref c),
    ((h.arena o.kind).markWhiteUnfrozen o.ref c).2)

def putFlag (h : Heap) (o : ObjRef) (f : Flag) (b : Bool) : Heap :=
  h.put o.kind _ ((h.wf o.kind).putFlag o.ref f b)

/-- Writing through `get_mut`. -/
def modify (h : Heap) {k : ObjKind} (r : GcRef k) (f : Obj k → Obj k) : Heap :=
  h.put k _ ((h.wf k).modify r f)

def alloc (h : Heap) (k : ObjKind) (value : Obj k) (c : Color) : Option (Heap × GcRef k) :=
  match e : (h.arena k).alloc value c with
  | some (a, r) => some (h.put k a ((h.wf k).alloc e), r)
  | none => none

/-- `sweep_partial` on the arena of kind `k`. -/
def sweepPartial (h : Heap) (k : ObjKind) (deadColor newColor : Color) (start maxCount : ℕ) :
    Option (Heap × ℕ × ℕ × Bool) :=
  match e : (h.arena k).sweepPartial deadColor newColor start maxCount with
  | some (a, freed, nextPos, isDone) =>
    some (h.put k a ((h.wf k).sweepPartial e), freed, nextPos, isDone)
  | none => none

/-- `intern` on the string arena. -/
def intern (h : Heap) (t : StringTable) (data : List UInt8) (w : Color) :
    Option (StringTable × Heap × GcRef .string) :=
  match e : t.intern data (h.arena .string) w with
  | some (t', a, r) => some (t', h.put .string a (StringTable.wf_of_intern (h.wf .string) e), r)
  | none => none

/-! ### Cells after an operation -/

variable {h h' : Heap} {k : ObjKind} {o o' : ObjRef} {c : Color}

@[simp] theorem cell_new (o : ObjRef) : new.cell o = none := rfl

theorem arena_put_self (h : Heap) (a : Arena k (Obj k)) (hw : a.Wf) : (h.put k a hw).arena k = a :=
  Function.update_self ..

theorem arena_put_ne (h : Heap) {j : ObjKind} (hj : j ≠ k) (a : Arena k (Obj k)) (hw : a.Wf) :
    (h.put k a hw).arena j = h.arena j :=
  Function.update_of_ne hj ..

theorem cell_put_self (h : Heap) (a : Arena k (Obj k)) (hw : a.Wf) (r : GcRef k) :
    (h.put k a hw).cell ⟨k, r⟩ = a.cell r := by
  rw [cell, arena_put_self]

theorem cell_put_ne (h : Heap) (ho : o.kind ≠ k) (a : Arena k (Obj k)) (hw : a.Wf) :
    (h.put k a hw).cell o = h.cell o := by
  rw [cell, arena_put_ne h ho, cell]

theorem get_eq (h : Heap) (r : GcRef k) : h.get r = (h.cell ⟨k, r⟩).map Cell.value :=
  Arena.get_eq_cell (h.wf k) r

theorem color_eq (h : Heap) (o : ObjRef) : h.color o = (h.cell o).map Cell.color :=
  Arena.color_eq_cell (h.wf o.kind) o.ref

theorem hasFlag_eq (h : Heap) (o : ObjRef) (f : Flag) :
    h.hasFlag o f = ((h.cell o).map fun x => x.flags.has f).getD false :=
  Arena.hasFlag_eq_cell (h.wf o.kind) o.ref f

theorem isValid_eq (h : Heap) (o : ObjRef) : h.isValid o = (h.cell o).isSome := by
  rw [isValid, Arena.isValid, Arena.get_eq_cell (h.wf o.kind), cell]
  cases (h.arena o.kind).cell o.ref <;> rfl

/-- An operation that acts on the arena of one object as a change of that object's cell. -/
theorem cell_put_at (f : (T : Type) → Option (Cell T) → Option (Cell T))
    {a : Arena o.kind (Obj o.kind)} (hw : a.Wf)
    (hself : ∀ r, a.cell r = if r = o.ref then f _ (h.cell ⟨o.kind, r⟩) else h.cell ⟨o.kind, r⟩)
    (o' : ObjRef) : (h.put o.kind a hw).cell o' = if o' = o then f _ (h.cell o') else h.cell o' := by
  rcases o with ⟨k, r⟩
  rcases o' with ⟨j, r'⟩
  by_cases hj : j = k
  · subst hj
    rw [cell_put_self, hself]
    by_cases hr : r' = r
    · subst hr; simp
    · rw [if_neg hr, if_neg (by simpa using hr)]
  · rw [cell_put_ne _ hj, if_neg fun he => hj (congrArg ObjRef.kind he)]

theorem cell_setColor (h : Heap) (o : ObjRef) (c : Color) (o' : ObjRef) :
    (h.setColor o c).cell o' =
      if o' = o then (h.cell o').map fun x => { x with color := c } else h.cell o' :=
  cell_put_at (fun T x => x.map fun x : Cell T => { x with color := c })
    ((h.wf o.kind).setColor o.ref c) (fun r => Arena.cell_setColor (h.wf o.kind) o.ref c r) o'

theorem cell_markWhiteUnfrozen (h : Heap) (o : ObjRef) (c : Color) (o' : ObjRef) :
    (h.markWhiteUnfrozen o c).1.cell o' =
      if o' = o then (h.cell o').map fun x => if Arena.markable x then { x with color := c } else x
      else h.cell o' :=
  cell_put_at (fun _ x => x.map fun x => if Arena.markable x then { x with color := c } else x)
    ((h.wf o.kind).markWhiteUnfrozen o.ref c) (fun r => Arena.cell_markWhiteUnfrozen (h.wf o.kind) o.ref c r) o'

theorem markWhiteUnfrozen_snd (h : Heap) (o : ObjRef) (c : Color) :
    (h.markWhiteUnfrozen o c).2 = (h.cell o).any Arena.markable :=
  Arena.markWhiteUnfrozen_snd (h.wf o.kind) o.ref c

theorem cell_putFlag (h : Heap) (o : ObjRef) (f : Flag) (b : Bool) (o' : ObjRef) :
    (h.putFlag o f b).cell o' =
      if o' = o then (h.cell o').map fun x => { x with flags := x.flags.put f b } else h.cell o' :=
  cell_put_at (fun T x => x.map fun x : Cell T => { x with flags := x.flags.put f b })
    ((h.wf o.kind).putFlag o.ref f b) (fun r => Arena.cell_putFlag (h.wf o.kind) o.ref f b r) o'

theorem cell_modify_self (h : Heap) (r : GcRef k) (f : Obj k → Obj k) :
    (h.modify r f).cell ⟨k, r⟩ = (h.cell ⟨k, r⟩).map fun x => { x with value := f x.value } := by
  rw [modify, cell_put_self, Arena.cell_modify (h.wf k), if_pos rfl, cell]

theorem cell_modify_ne (h : Heap) (r : GcRef k) (f : Obj k → Obj k) (ho : o ≠ ⟨k, r⟩) :
    (h.modify r f).cell o = h.cell o := by
  rcases o with ⟨j, r'⟩
  by_cases hj : j = k
  · subst hj
    rw [modify, cell_put_self, Arena.cell_modify (h.wf j), if_neg fun hr => ho (by rw [hr]), cell]
  · rw [modify, cell_put_ne _ hj]

theorem alloc_eq {v : Obj k} {r : GcRef k} (he : h.alloc k v c = some (h', r)) :
    ∃ a, ∃ e : (h.arena k).alloc v c = some (a, r), h' = h.put k a ((h.wf k).alloc e) := by
  unfold alloc at he
  split at he
  · next a r' e => cases he; exact ⟨a, e, rfl⟩
  · cases he

/-- A reference that has just been handed out was not valid before. -/
theorem cell_alloc_fresh {v : Obj k} {r : GcRef k} (he : h.alloc k v c = some (h', r)) :
    h.cell ⟨k, r⟩ = none := by
  obtain ⟨a, e, -⟩ := alloc_eq he
  exact Arena.cell_alloc_fresh (h.wf k) e

theorem cell_alloc_self {v : Obj k} {r : GcRef k} (he : h.alloc k v c = some (h', r)) :
    h'.cell ⟨k, r⟩ = some ⟨v, c, {}⟩ := by
  obtain ⟨a, e, rfl⟩ := alloc_eq he
  rw [cell_put_self, Arena.cell_alloc (h.wf k) e, if_pos rfl]

theorem cell_alloc_ne {v : Obj k} {r : GcRef k} (he : h.alloc k v c = some (h', r))
    (ho : o ≠ ⟨k, r⟩) : h'.cell o = h.cell o := by
  obtain ⟨a, e, rfl⟩ := alloc_eq he
  rcases o with ⟨j, r'⟩
  by_cases hj : j = k
  · subst hj
    rw [cell_put_self, Arena.cell_alloc (h.wf j) e, if_neg fun hr => ho (by rw [hr]), cell]
  · rw [cell_put_ne _ hj]

/-- What a batch of the sweep does: the slots from `start` to the new position have been swept. -/
theorem sweepPartial_cell {dead new : Color} {start max freed pos : ℕ} {isDone : Bool}
    (he : h.sweepPartial k dead new start max = some (h', freed, pos, isDone)) (o : ObjRef) :
    h'.cell o = if o.kind = k ∧ start ≤ o.ref.index ∧ o.ref.index < pos
      then (h.cell o).bind (Arena.sweepCell dead new) else h.cell o := by
  unfold sweepPartial at he
  split at he
  · next a f p d e =>
    cases he
    rcases o with ⟨j, r⟩
    by_cases hj : j = k
    · subst hj
      have hs := Arena.start_le_of_sweepPartial e
      obtain ⟨b, f', pos', heq, hswept, -⟩ := Arena.sweepPartial_spec (h.wf j) dead new max hs
      rw [heq] at e
      cases e
      rw [cell_put_self, hswept.cell_eq]
      simp only [true_and]
      rfl
    · rw [cell_put_ne _ hj, if_neg fun hc => hj hc.1]
  · cases he

/-! ### Objects after an operation -/

theorem get_setColor (h : Heap) (o : ObjRef) (c : Color) (r : GcRef k) : (h.setColor o c).get r = h.get r := by
  rw [get_eq, get_eq, cell_setColor]
  split
  · rw [Option.map_map]
    rfl
  · rfl

theorem get_modify (h : Heap) (u r : GcRef k) (f : Obj k → Obj k) :
    (h.modify u f).get r = if r = u then (h.get u).map f else h.get r := by
  rw [get_eq, get_eq, get_eq]
  split_ifs with hr
  · subst hr
    rw [cell_modify_self, Option.map_map, Option.map_map]
    rfl
  · rw [cell_modify_ne]
    rintro ⟨⟩
    exact hr rfl

theorem get_modify_kind {j : ObjKind} (hj : j ≠ k) (h : Heap) (u : GcRef k) (f : Obj k → Obj k) (r : GcRef j) :
    (h.modify u f).get r = h.get r := by
  rw [get_eq, cell_modify_ne, get_eq]
  rintro ⟨⟩
  exact hj rfl

theorem get_putFlag (h : Heap) (o : ObjRef) (f : Flag) (b : Bool) (r : GcRef k) : (h.putFlag o f b).get r = h.get r := by
  rw [get_eq, get_eq, cell_putFlag]
  split
  · rw [Option.map_map]
    rfl
  · rfl

/-! ### Number of slots -/

/-- The number of slots of the arena of kind `k`. -/
def slots (h : Heap) (k : ObjKind) : ℕ := (h.arena k).entries.length

theorem slots_put (h : Heap) {a : Arena k (Obj k)} (hw : a.Wf)
    (ha : a.entries.length = (h.arena k).entries.length) (j : ObjKind) :
    (h.put k a hw).slots j = h.slots j := by
  by_cases hj : j = k
  · subst hj; rw [slots, arena_put_self, ha, slots]
  · rw [slots, arena_put_ne h hj, slots]

@[simp] theorem slots_setColor (h : Heap) (o : ObjRef) (c : Color) (j : ObjKind) :
    (h.setColor o c).slots j = h.slots j := by
  refine slots_put h ((h.wf o.kind).setColor o.ref c) ?_ j
  rw [Arena.setColor_eq (h.wf o.kind)]
  split <;> rfl

@[simp] theorem slots_mark (h : Heap) (o : ObjRef) (c : Color) (j : ObjKind) :
    (h.markWhiteUnfrozen o c).1.slots j = h.slots j := by
  refine slots_put h ((h.wf o.kind).markWhiteUnfrozen o.ref c) ?_ j
  rw [Arena.markWhiteUnfrozen_eq (h.wf o.kind)]
  split
  · rw [Arena.setColor_eq (h.wf o.kind)]
    split <;> rfl
  · rfl

@[simp] theorem slots_putFlag (h : Heap) (o : ObjRef) (f : Flag) (b : Bool) (j : ObjKind) :
    (h.putFlag o f b).slots j = h.slots j := by
  refine slots_put h ((h.wf o.kind).putFlag o.ref f b) ?_ j
  rw [Arena.putFlag_eq (h.wf o.kind)]
  split <;> rfl

@[simp] theorem slots_modify (h : Heap) (r : GcRef k) (f : Obj k → Obj k) (j : ObjKind) :
    (h.modify r f).slots j = h.slots j := by
  refine slots_put h ((h.wf k).modify r f) ?_ j
  rw [Arena.modify]
  split
  · exact List.length_set
  · rfl

theorem slots_alloc {v : Obj k} {r : GcRef k} (he : h.alloc k v c = some (h', r)) (j : ObjKind) :
    h.slots j ≤ h'.slots j := by
  obtain ⟨a, e, rfl⟩ := alloc_eq he
  by_cases hj : j = k
  · subst hj
    obtain ⟨len, -, ⟨n, -, -, ha⟩ | ⟨-, -, ha⟩⟩ := Arena.alloc_cases (h.wf j) e
    · simp [slots, arena_put_self, ha, Arena.occupy]
    · simp [slots, arena_put_self, ha, Arena.push]
  · rw [slots, slots, arena_put_ne h hj]

theorem slots_sweepPartial {dead new : Color} {start max freed pos : ℕ} {isDone : Bool}
    (he : h.sweepPartial k dead new start max = some (h', freed, pos, isDone)) (j : ObjKind) :
    h'.slots j = h.slots j := by
  unfold sweepPartial at he
  split at he
  · next a f p d e =>
    cases he
    refine slots_put h _ ?_ j
    obtain ⟨b, f', pos', heq, hswept, -⟩ :=
      Arena.sweepPartial_spec (h.wf k) dead new max (Arena.start_le_of_sweepPartial e)
    rw [heq] at e
    cases e
    exact hswept.length_eq
  · cases he

theorem arena_alloc_ne {v : Obj k} {r : GcRef k} (he : h.alloc k v c = some (h', r)) {j : ObjKind} (hj : j ≠ k) :
    h'.arena j = h.arena j := by
  obtain ⟨a, e, rfl⟩ := alloc_eq he
  exact arena_put_ne h hj _ _

theorem arena_intern_ne {t t' : StringTable} {data : List UInt8} {r : GcRef .string}
    (he : h.intern t data c = some (t', h', r)) {j : ObjKind} (hj : j ≠ .string) : h'.arena j = h.arena j := by
  unfold intern at he
  split at he
  · cases he
    exact arena_put_ne h hj _ _
  · cases he

/-! ### Counting white objects -/

/-- The number of white objects of kind `k`. -/
def whites (h : Heap) (k : ObjKind) : ℕ := (h.arena k).whites

theorem whites_le (h : Heap) (k : ObjKind) : h.whites k ≤ h.slots k :=
  (List.countP_le_length ..).trans_eq (h.wf k).colors_length

theorem whites_put_ne (h : Heap) {j : ObjKind} (hj : j ≠ k) (a : Arena k (Obj k)) (hw : a.Wf) :
    (h.put k a hw).whites j = h.whites j := by
  rw [whites, arena_put_ne h hj, whites]

/-- Colouring an object in a colour that is not white takes it out of the count. -/
theorem whites_setColor (h : Heap) (o : ObjRef) (hc : c.isWhite = false) (k : ObjKind) :
    (h.setColor o c).whites k ≤ h.whites k := by
  by_cases hk : k = o.kind
  · subst hk
    rw [whites, setColor, arena_put_self]
    exact Arena.whites_setColor_le (h.wf o.kind) o.ref hc
  · exact (whites_put_ne h hk _ _).le

theorem whites_mark_ne (h : Heap) (o : ObjRef) (c : Color) (hk : k ≠ o.kind) :
    (h.markWhiteUnfrozen o c).1.whites k = h.whites k :=
  whites_put_ne h hk _ ((h.wf o.kind).markWhiteUnfrozen o.ref c)

theorem whites_mark (h : Heap) (o : ObjRef) (hc : c.isWhite = false)
    (hm : (h.markWhiteUnfrozen o c).2 = true) :
    (h.markWhiteUnfrozen o c).1.whites o.kind + 1 = h.whites o.kind := by
  rw [markWhiteUnfrozen_snd] at hm
  rw [whites, markWhiteUnfrozen, arena_put_self]
  exact Arena.whites_markWhiteUnfrozen (h.wf o.kind) hc hm

/-- Nothing happens to the heap when there is nothing to mark. -/
theorem mark_eq_self (h : Heap) (o : ObjRef) (c : Color) (hm : (h.markWhiteUnfrozen o c).2 = false) :
    (h.markWhiteUnfrozen o c).1 = h := by
  rw [markWhiteUnfrozen_snd] at hm
  have harena : ((h.arena o.kind).markWhiteUnfrozen o.ref c).1 = h.arena o.kind := by
    rw [Arena.markWhiteUnfrozen_eq (h.wf o.kind), if_neg (by simpa [cell] using hm)]
  cases h with
  | mk arena wf =>
    simp only [markWhiteUnfrozen, put, mk.injEq]
    exact (congrArg _ harena).trans (Function.update_eq_self ..)

end Heap

end Rilua.Vm.Gc
