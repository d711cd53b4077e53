import Rilua.Lib.Chain
import Mathlib.Algebra.GroupWithZero.Nat
import Mathlib.Data.List.Basic

/-! Generational arena: typed slots with generation-checked references (`gc/arena.rs`).

    An arena keeps three parallel vectors (entries, colours, flags), an intrusive free list through the
    free entries and a count of the occupied ones. Arithmetic on the `u32` count is checked: where the
    Rust code would overflow or index out of bounds the operation is `none`. -/

namespace Rilua.Vm.Gc

/-- GC object colour for tri-colour mark-sweep. -/
inductive Color where | white0 | white1 | gray | black
  deriving DecidableEq, Repr

namespace Color

def isWhite : Color → Bool
  | .white0 | .white1 => true
  | _ => false

def isBlack (c : Color) : Bool := c == .black

def otherWhite : Color → Color
  | .white0 => .white1
  | .white1 => .white0
  | other => other

@[simp] theorem otherWhite_otherWhite (c : Color) : c.otherWhite.otherWhite = c := by
  cases c <;> rfl

theorem otherWhite_ne {c : Color} (h : c.isWhite = true) : c.otherWhite ≠ c := by
  cases c <;> simp_all [isWhite, otherWhite]

@[simp] theorem isWhite_otherWhite (c : Color) : c.otherWhite.isWhite = c.isWhite := by
  cases c <;> rfl

theorem ne_otherWhite {c d : Color} (h : c.isWhite = true) (hd : d.isWhite = false) : d ≠ c.otherWhite := by
  rintro rfl
  rw [isWhite_otherWhite, h] at hd
  cases hd

theorem eq_or_eq_otherWhite {c d : Color} (hc : c.isWhite = true) (hd : d.isWhite = true) :
    d = c ∨ d = c.otherWhite := by
  cases c <;> cases d <;> simp_all [isWhite, otherWhite]

end Color

/-- The typed arenas of the heap, one for each kind of collectable object. -/
inductive ObjKind where | string | table | closure | upvalue | userdata | thread
  deriving DecidableEq, Repr

/-- A generation-checked reference into the arena of kind `k`. -/
@[ext] structure GcRef (k : ObjKind) where
  index : ℕ
  generation : ℕ
  deriving DecidableEq, Repr

/-- Per-entry boolean flags, stored beside the colour. -/
inductive Flag where | frozen | pinned | skipTraverse
  deriving DecidableEq, Repr

/-- The flag byte of an entry. -/
structure Flags where
  frozen : Bool := false
  pinned : Bool := false
  skipTraverse : Bool := false
  deriving DecidableEq, Repr

namespace Flags

def has (fl : Flags) : Flag → Bool
  | .frozen => fl.frozen
  | .pinned => fl.pinned
  | .skipTraverse => fl.skipTraverse

def put (fl : Flags) (f : Flag) (b : Bool) : Flags :=
  match f with
  | .frozen => { fl with frozen := b }
  | .pinned => { fl with pinned := b }
  | .skipTraverse => { fl with skipTraverse := b }

/-- Pinned and frozen entries survive a sweep whatever their colour. -/
def isKeptAlive (fl : Flags) : Bool := fl.pinned || fl.frozen

@[simp] theorem has_put_self (fl : Flags) (f : Flag) (b : Bool) : (fl.put f b).has f = b := by
  cases f <;> rfl

theorem has_put_ne (fl : Flags) {f g : Flag} (b : Bool) (h : g ≠ f) :
    (fl.put f b).has g = fl.has g := by
  cases f <;> cases g <;> first | rfl | exact absurd rfl h

end Flags

/-- Slot state: either occupied with a value or on the free list. -/
inductive EntryState (T : Type) where
  | occupied (value : T)
  | free (nextFree : Option ℕ)

/-- A single arena slot with a generation counter. -/
structure Entry (T : Type) where
  generation : ℕ
  state : EntryState T

namespace Entry

variable {T : Type}

def value? (e : Entry T) : Option T :=
  match e.state with
  | .occupied v => some v
  | .free _ => none

def isOccupied (e : Entry T) : Bool := e.value?.isSome

@[simp] theorem isOccupied_mk_occupied (g : ℕ) (v : T) : (⟨g, .occupied v⟩ : Entry T).isOccupied :=
  rfl

@[simp] theorem isOccupied_mk_free (g : ℕ) (n : Option ℕ) :
    (⟨g, .free n⟩ : Entry T).isOccupied = false := rfl

@[simp] theorem value?_mk_occupied (g : ℕ) (v : T) : (⟨g, .occupied v⟩ : Entry T).value? = some v := rfl

end Entry

/-- Number of values of the `u32` type of indices, generations and the slot count. -/
def u32Size : ℕ := 2 ^ 32

/-- `u32::wrapping_add(1)`. -/
def wrappingIncr (n : ℕ) : ℕ := (n + 1) % u32Size

/-- `n + 1` on `u32`, checked. -/
def checkedIncr (n : ℕ) : Option ℕ := if n + 1 < u32Size then some (n + 1) else none

/-- `n - 1` on `u32`, checked. -/
def checkedDecr : ℕ → Option ℕ
  | 0 => none
  | n + 1 => some n

/-- A typed arena. `colors[i]` is `none` (the byte `COLOR_FREE`) for a free slot. -/
structure Arena (k : ObjKind) (T : Type) where
  entries : List (Entry T) := []
  colors : List (Option Color) := []
  flags : List Flags := []
  freeHead : Option ℕ := none
  len : ℕ := 0

namespace Arena

variable {k : ObjKind} {T : Type}

/-- Allocates a slot with the given value and initial colour: the head of the free list if there is
    one, otherwise a new slot at the end. -/
def alloc (a : Arena k T) (value : T) (color : Color) : Option (Arena k T × GcRef k) := do
  let len ← checkedIncr a.len
  match a.freeHead with
  | some freeIdx =>
    let entry ← a.entries[freeIdx]?
    let freeHead := match entry.state with
      | .free nextFree => nextFree
      | .occupied _ => some freeIdx
    some ({ entries := a.entries.set freeIdx { entry with state := .occupied value }
            colors := a.colors.set freeIdx (some color)
            flags := a.flags.set freeIdx {}
            freeHead, len }, ⟨freeIdx, entry.generation⟩)
  | none =>
    some ({ entries := a.entries ++ [⟨0, .occupied value⟩]
            colors := a.colors ++ [some color]
            flags := a.flags ++ [{}]
            freeHead := none, len }, ⟨a.entries.length % u32Size, 0⟩)

/-- The entry a reference denotes, if the generations agree. -/
def entryOf (a : Arena k T) (r : GcRef k) : Option (Entry T) :=
  (a.entries[r.index]?).filter fun e => e.generation == r.generation

/-- The value, if the reference is valid. -/
def get (a : Arena k T) (r : GcRef k) : Option T := (a.entryOf r).bind Entry.value?

/-- Writing through `get_mut`: no effect when the reference is not valid. -/
def modify (a : Arena k T) (r : GcRef k) (f : T → T) : Arena k T :=
  match a.entryOf r with
  | some ⟨g, .occupied v⟩ => { a with entries := a.entries.set r.index ⟨g, .occupied (f v)⟩ }
  | _ => a

/-- Frees the slot and returns the value it held. -/
def free (a : Arena k T) (r : GcRef k) : Option (Arena k T × Option T) :=
  match a.entryOf r with
  | none => some (a, none)
  | some entry => do
    let len ← checkedDecr a.len
    some ({ entries := a.entries.set r.index ⟨wrappingIncr entry.generation, .free a.freeHead⟩
            colors := a.colors.set r.index none
            flags := a.flags.set r.index {}
            freeHead := some r.index, len }, entry.value?)

def isValid (a : Arena k T) (r : GcRef k) : Bool := (a.get r).isSome

/-- The colour of the object, or `none` if the reference is stale. -/
def color (a : Arena k T) (r : GcRef k) : Option Color :=
  (a.entryOf r).bind fun _ => (a.colors[r.index]?).join

/-- The slot index of a reference to an occupied slot. -/
def occupiedIndex (a : Arena k T) (r : GcRef k) : Option ℕ :=
  (a.color r).map fun _ => r.index

/-- Sets the colour of the object; the flag reports success. -/
def setColor (a : Arena k T) (r : GcRef k) (newColor : Color) : Arena k T × Bool :=
  match a.occupiedIndex r with
  | some index => ({ a with colors := a.colors.set index (some newColor) }, true)
  | none => (a, false)

/-- The flag byte of a valid reference. -/
def flagsOf (a : Arena k T) (r : GcRef k) : Option Flags :=
  (a.occupiedIndex r).bind fun index => a.flags[index]?

def hasFlag (a : Arena k T) (r : GcRef k) (f : Flag) : Bool :=
  match a.flagsOf r with
  | some fl => fl.has f
  | none => false

/-- Marks a white, non-frozen entry with `newColor`; reports whether the entry changed colour. -/
def markWhiteUnfrozen (a : Arena k T) (r : GcRef k) (newColor : Color) : Arena k T × Bool :=
  match a.color r with
  | none => (a, false)
  | some color =>
    if a.hasFlag r .frozen then (a, false)
    else if !color.isWhite then (a, false)
    else a.setColor r newColor

/-- `set_flag` (`b = true`) and `clear_flag` (`b = false`); the flag reports success. -/
def putFlag (a : Arena k T) (r : GcRef k) (f : Flag) (b : Bool) : Arena k T × Bool :=
  match a.occupiedIndex r with
  | some index => ({ a with flags := a.flags.modify index fun fl => fl.put f b }, true)
  | none => (a, false)

def setFlag (a : Arena k T) (r : GcRef k) (f : Flag) : Arena k T × Bool := a.putFlag r f true

def clearFlag (a : Arena k T) (r : GcRef k) (f : Flag) : Arena k T × Bool := a.putFlag r f false

def isFrozen (a : Arena k T) (r : GcRef k) : Bool := a.hasFlag r .frozen

def isPinned (a : Arena k T) (r : GcRef k) : Bool := a.hasFlag r .pinned

def isSkipTraverseOrFrozen (a : Arena k T) (r : GcRef k) : Bool :=
  a.hasFlag r .skipTraverse || a.hasFlag r .frozen

/-- The occupied slots in index order, as `(reference, value, colour)`. -/
def iter (a : Arena k T) : List (GcRef k × T × Color) :=
  (List.range a.entries.length).filterMap fun i => do
    let entry ← a.entries[i]?
    let value ← entry.value?
    let color ← (a.colors[i]?).join
    some (⟨i, entry.generation⟩, value, color)

/-- Resets the colour of all occupied entries. -/
def resetColors (a : Arena k T) (color : Color) : Arena k T :=
  { a with colors := a.colors.map fun c => c.map fun _ => color }

/-- The body of the sweep loops at slot `i`: a dead entry that is not kept alive is freed (the count
    returned is 1), a survivor gets the new colour. Free slots are left alone. -/
def sweepSlot (deadColor newColor : Color) (a : Arena k T) (i : ℕ) : Option (Arena k T × ℕ) :=
  match a.entries[i]?, a.colors[i]?, a.flags[i]? with
  | some entry, some (some color), some fl =>
    if color = deadColor ∧ fl.isKeptAlive = false then do
      let len ← checkedDecr a.len
      some ({ entries := a.entries.set i ⟨wrappingIncr entry.generation, .free a.freeHead⟩
              colors := a.colors.set i none
              flags := a.flags.set i {}
              freeHead := some i, len }, 1)
    else some ({ a with colors := a.colors.set i (some newColor) }, 0)
  | _, _, _ => some (a, 0)

/-- Whether slot `i` holds an object (its colour byte is not `COLOR_FREE`). -/
def occupiedAt (a : Arena k T) (i : ℕ) : Bool :=
  match a.colors[i]? with
  | some (some _) => true
  | _ => false

/-- The sweep loop over the `n` slots from `i` on, stopping once `limit` occupied slots were seen.
    Returns the arena, the number of freed objects and the slot the loop stopped at. -/
def sweepLoop (deadColor newColor : Color) :
    ℕ → ℕ → Option ℕ → Arena k T → ℕ → Option (Arena k T × ℕ × ℕ)
  | 0, i, _, a, freed => some (a, freed, i)
  | n + 1, i, limit, a, freed =>
    if limit = some 0 then some (a, freed, i)
    else if a.occupiedAt i then do
      let (a', f) ← sweepSlot deadColor newColor a i
      sweepLoop deadColor newColor n (i + 1) (limit.map (· - 1)) a' (freed + f)
    else sweepLoop deadColor newColor n (i + 1) limit a freed

/-- Sweeps the arena: frees objects with `deadColor`, resets survivors to `newColor`. Returns the
    number of freed objects. -/
def sweep (a : Arena k T) (deadColor newColor : Color) : Option (Arena k T × ℕ) := do
  let (a', freed, _) ← sweepLoop deadColor newColor a.entries.length 0 none a 0
  some (a', freed)

/-- Sweeps up to `maxCount` occupied slots from `start` on. Returns the number of freed objects, the
    slot to resume from and whether the whole arena has been swept. -/
def sweepPartial (a : Arena k T) (deadColor newColor : Color) (start maxCount : ℕ) :
    Option (Arena k T × ℕ × ℕ × Bool) :=
  if a.entries.length < start then none
  else do
    let total := a.entries.length
    let (a', freed, nextPos) ←
      sweepLoop deadColor newColor (total - start) start (some maxCount) a 0
    some (a', freed, nextPos, decide (total ≤ nextPos))

end Arena

end Rilua.Vm.Gc
