import Rilua.Lib.Run
import Rilua.Vm.TableInv
import Rilua.Vm.TableOps

/-! Frozen and read-only tables. The gate of assignments checks both flags, a raw store refuses read-only
    tables but not frozen ones, and a metatable is set with one check or none. Over every run in which no
    store without the gate reaches a frozen table, an immutable table keeps its entries and its metatable,
    and whatever is about to write to it fails. -/

namespace Rilua.Vm

open Lib Gc TableM

/-- Two tables with the same entries, metatable and write protection. -/
structure SameContents (t t' : Table) : Prop where
  lookup_eq : t'.lookup = t.lookup
  metatable_eq : t'.metatable = t.metatable
  readOnly_eq : t'.readOnly = t.readOnly

/-- `r` is a table with the contents of `t`, frozen or not. -/
def Kept (r : GcRef .table) (t : Table) (frozen : Bool) (g : Gc) : Prop :=
  ∃ x, g.heap.cell ⟨.table, r⟩ = some x ∧ SameContents t x.value ∧ x.flags.has .frozen = frozen

/-- Whether a table is frozen or read-only. -/
def Immutable (g : Gc) (r : GcRef .table) : Prop := isFrozen g r = true ∨ isReadOnly g r = true

/-- A table that only its frozen flag protects. -/
def FrozenOnly (g : Gc) (r : GcRef .table) : Prop := isFrozen g r = true ∧ isReadOnly g r = false

variable {r r' : GcRef .table} {t : Table} {frozen : Bool} {g g' : Gc}

namespace Kept

theorem get_eq (h : Kept r t frozen g) : ∃ t', g.heap.get r = some t' ∧ SameContents t t' := by
  obtain ⟨x, hcell, hsame, -⟩ := h
  exact ⟨x.value, by rw [Heap.get_eq, hcell]; rfl, hsame⟩

theorem isFrozen_eq (h : Kept r t frozen g) : isFrozen g r = frozen := by
  obtain ⟨x, hcell, -, hf⟩ := h
  rw [isFrozen, Heap.hasFlag_eq, hcell, ← hf]
  rfl

theorem isReadOnly_eq (h : Kept r t frozen g) : isReadOnly g r = t.readOnly := by
  obtain ⟨t', hget, hsame⟩ := h.get_eq
  rw [isReadOnly, hget, ← hsame.readOnly_eq]
  rfl

theorem of_cell_eq (h : Kept r t frozen g) (hcell : g'.heap.cell ⟨.table, r⟩ = g.heap.cell ⟨.table, r⟩) :
    Kept r t frozen g' := by
  obtain ⟨x, hx, h⟩ := h
  exact ⟨x, hcell.trans hx, h⟩

theorem modify_ne {k : ObjKind} {s : GcRef k} (f : Obj k → Obj k) (h : Kept r t frozen g)
    (hne : (⟨.table, r⟩ : ObjRef) ≠ ⟨k, s⟩) : Kept r t frozen (g.modify s f) :=
  h.of_cell_eq (Heap.cell_modify_ne _ _ _ hne)

/-- The table itself is replaced by one with the same contents. -/
theorem modify_self {t' : Table} (h : Kept r t frozen g) (hsame : SameContents t t') :
    Kept r t frozen (g.modify r fun _ => t') := by
  obtain ⟨x, hx, -, hf⟩ := h
  refine ⟨{ x with value := t' }, ?_, hsame, hf⟩
  rw [Gc.modify, Heap.cell_modify_self, hx]
  rfl

theorem barrierBack (h : Kept r t frozen g) (s : GcRef .table) : Kept r t frozen (g.barrierBack s) := by
  rw [Gc.barrierBack]
  split
  · obtain ⟨x, hx, hsame, hf⟩ := h
    rcases eq_or_ne (⟨.table, r⟩ : ObjRef) ⟨.table, s⟩ with heq | hne
    · exact ⟨{ x with color := .gray }, by rw [Heap.cell_setColor, if_pos heq, hx]; rfl, hsame, hf⟩
    · exact ⟨x, by rw [Heap.cell_setColor, if_neg hne, hx], hsame, hf⟩
  · exact h

theorem alloc {k : ObjKind} {x : Obj k} {size : ℕ} {s : GcRef k} (h : Kept r t frozen g)
    (heq : g.alloc k x size = some (g', s)) :
    Kept r t frozen g' ∧ (⟨k, s⟩ : ObjRef) ≠ ⟨.table, r⟩ ∧ g'.heap.get s = some x := by
  obtain ⟨⟨heap, s'⟩, halloc, heq⟩ := Option.bind_eq_some_iff.mp heq
  cases heq
  have hne : (⟨k, s⟩ : ObjRef) ≠ ⟨.table, r⟩ := by
    intro hs
    obtain ⟨x, hx, -⟩ := h
    cases hs
    rw [Heap.cell_alloc_fresh halloc] at hx
    cases hx
  refine ⟨h.of_cell_eq (Heap.cell_alloc_ne halloc hne.symm), hne, ?_⟩
  show heap.get s = some x
  rw [Heap.get_eq, Heap.cell_alloc_self halloc]
  rfl

end Kept

theorem tables_internString {data : List UInt8} {s : GcRef .string} (heq : g.internString data = some (g', s)) :
    g'.heap.arena .table = g.heap.arena .table := by
  obtain ⟨⟨strings, heap, s'⟩, hintern, heq⟩ := Option.bind_eq_some_iff.mp heq
  cases heq
  exact Heap.arena_intern_ne hintern (by decide)

theorem tables_internStringStatic {key : ℕ} {data : List UInt8} {s : GcRef .string}
    (heq : g.internStringStatic key data = some (g', s)) : g'.heap.arena .table = g.heap.arena .table := by
  rw [Gc.internStringStatic] at heq
  split at heq
  · cases heq
    rfl
  · obtain ⟨⟨g₁, s'⟩, hintern, heq⟩ := Option.bind_eq_some_iff.mp heq
    cases heq
    rw [← tables_internString hintern]
    dsimp only
    split
    · rfl
    all_goals exact Heap.arena_put_ne _ (fun h => by cases h) _ _

theorem Kept.of_tables (h : Kept r t frozen g) (heq : g'.heap.arena .table = g.heap.arena .table) :
    Kept r t frozen g' := h.of_cell_eq (by rw [Heap.cell, Heap.cell, heq])

theorem get_of_tables (heq : g'.heap.arena .table = g.heap.arena .table) (s : GcRef .table) :
    g'.heap.get s = g.heap.get s := by rw [Heap.get, Heap.get, heq]

theorem get_modify_ne {s : GcRef .table} (f : Obj .table → Obj .table) (hne : r ≠ s) :
    (g.modify s f).heap.get r = g.heap.get r := by
  rw [Heap.get_eq, Heap.get_eq, Gc.modify, Heap.cell_modify_ne _ _ _ (by simpa using hne)]

/-! ### Steps that keep a table -/

/-- The triples of an immutable table. -/
abbrev Keeps {α : Type} (r : GcRef .table) (t : Table) (frozen : Bool) (P : Gc → Prop) (x : TableM α)
    (Q : α → Gc → Prop) : Prop :=
  Act.Triple (Kept r t frozen) (· ≠ r) P x Q

namespace Keeps

variable {P : Gc → Prop}

theorem getState (hP : ∀ g, P g → Kept r t frozen g) : Keeps r t frozen P Act.get fun g₁ g => g₁ = g ∧ P g :=
  Act.Triple.get hP

theorem failing {α : Type} {e : LuaError} {Q : α → Gc → Prop} :
    Keeps r t frozen (Kept r t frozen) (Act.fail e) Q := .fail fun _ h => h

theorem returning {α : Type} (a : α) : Keeps r t frozen (Kept r t frozen) (Pure.pure a) fun _ => Kept r t frozen :=
  .pure (fun _ h => h) fun _ h => h

theorem option {α : Type} (x : Option α) :
    Keeps r t frozen (Kept r t frozen) (Act.ofOption x) fun _ => Kept r t frozen :=
  (Act.Triple.ofOption fun _ h => h).mono (fun _ h => h) fun _ _ h => h.2

theorem read (hP : ∀ g, P g → Kept r t frozen g) (s : GcRef .table) (missing : LuaError) :
    Keeps r t frozen P (TableM.read s missing) fun t' g => P g ∧ g.heap.get s = some t' := by
  refine .bind (getState hP) fun g₁ => ?_
  cases hs : g₁.heap.get s with
  | none => exact .fail fun _ h => hP _ h.2
  | some t' =>
    refine .pure (fun _ h => hP _ h.2) ?_
    rintro g ⟨rfl, h⟩
    exact ⟨h, hs⟩

theorem checkTableAccess (hP : ∀ g, P g → Kept r t frozen g) (s : GcRef .table) :
    Keeps r t frozen P (TableM.checkTableAccess s) fun _ => P :=
  .bind (read hP s _) fun _ => .pure (fun _ h => hP _ h.1) fun _ h => h.1

theorem update_ne {α : Type} {f : Table → StringArena → Option (TableResult α)} {missing : LuaError}
    (hne : r' ≠ r) :
    Keeps r t frozen (Kept r t frozen) (update r' missing f) fun _ => Kept r t frozen := by
  refine .attempt fun g g' res h heq => ?_
  split at heq
  · obtain ⟨⟨t', res'⟩, -, heq⟩ := Option.map_eq_some_iff.mp heq
    cases heq
    have h' := h.modify_ne (s := r') (fun _ => t') (by simpa using hne.symm)
    exact ⟨h', fun _ _ => h'⟩
  · cases heq
    exact ⟨h, fun _ _ => h⟩

/-- A raw store fails on a read-only table. -/
theorem rawSet {key value : Val} {missing : LuaError} (hro : r' = r → t.readOnly = true) :
    Keeps r t frozen (Kept r t frozen) (TableM.rawSet r' key value missing) fun _ g => r' ≠ r ∧ Kept r t frozen g := by
  rcases eq_or_ne r' r with rfl | hne
  · refine .attempt fun g g' res h heq => ?_
    obtain ⟨t', hget, hsame⟩ := h.get_eq
    have hro' : t'.readOnly = true := hsame.readOnly_eq.trans (hro rfl)
    simp only [hget, Table.rawSet, Table.rawSetWithMemoryDelta, hro', if_true, Option.bind_eq_bind, Option.bind_some,
      Option.map_some] at heq
    cases heq
    exact ⟨h.modify_self hsame, fun a ha => by cases ha⟩
  · exact (update_ne hne).mono (fun _ h => h) fun _ _ h => ⟨hne, h⟩

theorem barrierBack (s : GcRef .table) :
    Keeps r t frozen (Kept r t frozen) (TableM.barrierBack s) fun _ => Kept r t frozen :=
  .modify fun _ h => h.barrierBack s

theorem internString (data : List UInt8) :
    Keeps r t frozen (Kept r t frozen) (TableM.internString data) fun _ => Kept r t frozen := by
  refine .lift fun g g' s h heq => ?_
  have h' := h.of_tables (tables_internString heq)
  exact ⟨h', h'⟩

theorem internStringStatic (key : ℕ) (data : List UInt8) :
    Keeps r t frozen (Kept r t frozen) (TableM.internStringStatic key data) fun _ => Kept r t frozen := by
  refine .lift fun g g' s h heq => ?_
  have h' := h.of_tables (tables_internStringStatic heq)
  exact ⟨h', h'⟩

/-- The gate of assignments does not let an immutable table through. -/
theorem ensureTableNotFrozen (himm : frozen = true ∨ t.readOnly = true) (s : GcRef .table) :
    Keeps r t frozen (Kept r t frozen) (TableM.ensureTableNotFrozen s) fun _ g => s ≠ r ∧ Kept r t frozen g := by
  refine .bind (getState fun _ h => h) fun g₁ => ?_
  split_ifs with hf hro
  · exact .fail fun _ h => h.2
  · exact .fail fun _ h => h.2
  · refine .pure (fun _ h => h.2) ?_
    rintro g ⟨rfl, h⟩
    refine ⟨?_, h⟩
    rintro rfl
    rcases himm with himm | himm
    · exact hf (h.isFrozen_eq.trans himm)
    · exact hro (h.isReadOnly_eq.trans himm)

/-! ### Assignment and library functions -/

variable (himm : frozen = true ∨ t.readOnly = true)

include himm

theorem tableSet (s : GcRef .table) (key value : Val) :
    Keeps r t frozen (Kept r t frozen) (TableM.tableSet s key value) fun _ => Kept r t frozen := by
  refine .writing (.bind (checkTableAccess (fun _ h => h) s) fun _ => .bind (ensureTableNotFrozen himm s) fun _ => ?_)
  rcases eq_or_ne s r with rfl | hne
  · exact .of_false fun _ h => h.1 rfl
  refine .bind ((update_ne hne).weaken fun _ h => h.2) fun delta => ?_
  refine .bind (.modify fun g h => h.of_cell_eq rfl) fun _ => .bind (getState fun _ h => h) fun g₁ => ?_
  split_ifs
  · exact .fail fun _ h => h.2
  · exact (barrierBack s).mono (fun _ h => h.2) fun _ _ h => ⟨hne, h⟩

theorem handleTableSettable (s : GcRef .table) (key value : Val) :
    Keeps r t frozen (Kept r t frozen) (TableM.handleTableSettable s key value) fun _ => Kept r t frozen := by
  refine .bind (checkTableAccess (fun _ h => h) s) fun _ => .bind (read (fun _ h => h) s _) fun t' => ?_
  split_ifs
  · exact .bind ((tableSet himm s key value).weaken fun _ h => h.1) fun _ => returning _
  refine .bind ((getState fun _ h => h).weaken fun _ h => h.1) fun g₁ => .bind ((option _).weaken fun _ h => h.2) fun v => ?_
  split_ifs
  · split
    · refine .bind (.writing (ensureTableNotFrozen himm s)) fun _ => ?_
      exact .bind (tableSet himm s key value) fun _ => returning _
    · exact returning _
  · refine .bind (.writing (.bind (ensureTableNotFrozen himm s) fun _ => ?_)) fun _ => returning _
    rcases eq_or_ne s r with rfl | hne
    · exact .of_false fun _ h => h.1 rfl
    refine .bind ((update_ne hne).weaken fun _ h => h.2) fun _ => ?_
    exact (barrierBack s).mono (fun _ h => h) fun _ _ h => ⟨hne, h⟩

/-- An assignment, along a chain of `__newindex` tables. -/
theorem vmSettable (obj key value : Val) :
    Keeps r t frozen (Kept r t frozen) (TableM.vmSettable obj key value) fun _ => Kept r t frozen := by
  rw [TableM.vmSettable]
  generalize maxTagLoop = n
  induction n generalizing obj with
  | zero => exact failing
  | succ n ih =>
    refine .bind (R := fun _ => Kept r t frozen) (Q := fun _ => Kept r t frozen) ?_ fun step => ?_
    · cases obj with
      | table s => exact handleTableSettable himm s key value
      | _ =>
        refine .bind (getState fun _ h => h) fun g₁ => ?_
        split
        · exact (returning _).weaken fun _ h => h.2
        · exact .fail fun _ h => h.2
    · cases step with
      | done => exact returning _
      | call => exact returning _
      | next v => exact ih v

omit himm

theorem setRaw {s : GcRef .table} (hro : s = r → t.readOnly = true) (idx : ℤ) (v : Val) :
    Keeps r t frozen (Kept r t frozen) (TableM.setRaw s idx v) fun _ => Kept r t frozen :=
  .writing (.bind (checkTableAccess (fun _ h => h) s) fun _ => rawSet hro)

theorem setField {s : GcRef .table} (hro : s = r → t.readOnly = true) (key : List UInt8) (v : Val) :
    Keeps r t frozen (Kept r t frozen) (TableM.setField s key v) fun _ => Kept r t frozen :=
  .bind (internString key) fun _ => .writing (rawSet hro)

theorem getRaw (s : GcRef .table) (idx : ℤ) :
    Keeps r t frozen (Kept r t frozen) (TableM.getRaw s idx) fun _ => Kept r t frozen := by
  refine .bind (checkTableAccess (fun _ h => h) s) fun _ => .bind (getState fun _ h => h) fun g₁ => ?_
  split
  · exact (option _).weaken fun _ h => h.2
  · exact (returning _).weaken fun _ h => h.2

theorem tableLen (s : GcRef .table) :
    Keeps r t frozen (Kept r t frozen) (TableM.tableLen s) fun _ => Kept r t frozen := by
  refine .bind (checkTableAccess (fun _ h => h) s) fun _ => .bind (getState fun _ h => h) fun g₁ => ?_
  split
  · exact .bind ((option _).weaken fun _ h => h.2) fun _ => returning _
  · exact (returning _).weaken fun _ h => h.2

theorem tableLen_eq {s : GcRef .table} {t' : Table} (hget : g.heap.get s = some t') :
    TableM.tableLen s g = (t'.len g.heap.strings).map fun n => (g, [], .ok (n : ℤ)) := by
  simp only [TableM.tableLen, TableM.checkTableAccess, TableM.read, Bind.bind, Act.andThen, Act.get, hget, Pure.pure,
    Act.ofOption, Act.lift, Option.map_some, List.append_nil]
  cases t'.len g.heap.strings <;> rfl

theorem hasProtection (existing : Option (GcRef .table)) :
    Keeps r t frozen (Kept r t frozen) (TableM.hasProtection existing) fun _ => Kept r t frozen := by
  cases existing with
  | none => exact returning _
  | some mt =>
    refine .bind (internStringStatic _ _) fun _ => .bind (getState fun _ h => h) fun g₁ => ?_
    split
    · exact (returning _).weaken fun _ h => h.2
    · exact .bind ((option _).weaken fun _ h => h.2) fun _ => returning _

theorem checkTable (name : String) (v : Val) :
    Keeps r t frozen (Kept r t frozen) (TableM.checkTable name v) fun s g => v = .table s ∧ Kept r t frozen g := by
  cases v with
  | table s => exact .bind (checkTableAccess (fun _ h => h) s) fun _ => .pure (fun _ h => h) fun _ h => ⟨rfl, h⟩
  | _ => exact failing

theorem numberArg (name : String) (n : ℕ) (v : Val) :
    Keeps r t frozen (Kept r t frozen) (TableM.numberArg name n v) fun _ g => (∃ x, v = .num x) ∧ Kept r t frozen g := by
  cases v with
  | num x => exact .pure (fun _ h => h) fun _ h => ⟨⟨x, rfl⟩, h⟩
  | _ => exact failing

theorem shiftElementsUp {s : GcRef .table} (hro : s = r → t.readOnly = true) (n : ℕ) (idx : ℤ) :
    Keeps r t frozen (Kept r t frozen) (TableM.shiftElementsUp s n idx) fun _ => Kept r t frozen := by
  induction n generalizing idx with
  | zero => exact returning _
  | succ n ih => exact .bind (getRaw s _) fun v => .bind (setRaw hro _ v) fun _ => ih _

theorem shiftElementsDown {s : GcRef .table} (hro : s = r → t.readOnly = true) (n : ℕ) (idx : ℤ) :
    Keeps r t frozen (Kept r t frozen) (TableM.shiftElementsDown s n idx) fun _ => Kept r t frozen := by
  induction n generalizing idx with
  | zero => exact returning _
  | succ n ih => exact .bind (getRaw s _) fun v => .bind (setRaw hro _ v) fun _ => ih _

theorem readField (hP : ∀ g, P g → Kept r t frozen g)
    (htab : ∀ g g', P g → g'.heap.arena .table = g.heap.arena .table → P g') (s : GcRef .table) (key : List UInt8)
    (missing : LuaError) : Keeps r t frozen P (TableM.readField s key missing) fun v g =>
      P g ∧ ∃ t' k, g.heap.get s = some t' ∧ Table.get t' (.str k) g.heap.strings = some v := by
  refine .bind (Q := fun _ => P) (.lift fun g g' k h heq => ?_) fun k => ?_
  · have h' := htab g g' h (tables_internString heq)
    exact ⟨hP _ h', h'⟩
  · refine .bind (read hP s _) fun t' => .bind (getState fun _ h => hP _ h.1) fun g₁ => ?_
    refine (Act.Triple.ofOption fun _ h => hP _ h.2.1).mono (fun _ h => h) ?_
    rintro v g ⟨hv, rfl, h, hget⟩
    exact ⟨h, t', k, hget, hv⟩

theorem getField (s : GcRef .table) (key : List UInt8) :
    Keeps r t frozen (Kept r t frozen) (TableM.getField s key) fun _ => Kept r t frozen := by
  refine .bind (internString key) fun k => .bind (getState fun _ h => h) fun g₁ => ?_
  split
  · exact (option _).weaken fun _ h => h.2
  · exact (returning _).weaken fun _ h => h.2

/-- A new table is empty and is none of those there were. -/
theorem allocTable (s : GcRef .table) :
    Keeps r t frozen (fun g => Kept r t frozen g ∧ (g.heap.get s).isSome) (TableM.allocTable {}) fun new g =>
      new ≠ s ∧ new ≠ r ∧ Kept r t frozen g ∧ g.heap.get new = some {} := by
  refine .lift ?_
  rintro g g' new ⟨h, hs⟩ heq
  obtain ⟨h', hne, hget⟩ := h.alloc heq
  refine ⟨h', ?_, fun hr => hne (by rw [hr]), h', hget⟩
  rintro rfl
  obtain ⟨⟨heap, s'⟩, halloc, heq⟩ := Option.bind_eq_some_iff.mp heq
  cases heq
  rw [Heap.get_eq, Heap.cell_alloc_fresh halloc] at hs
  cases hs

/-- A store that leaves another table alone. -/
theorem setField_new {s new : GcRef .table} (hro : s = r → t.readOnly = true) (hne : new ≠ s) (key : List UInt8)
    (v : Val) : Keeps r t frozen (fun g => Kept r t frozen g ∧ g.heap.get new = some {}) (TableM.setField s key v)
      fun _ g => Kept r t frozen g ∧ g.heap.get new = some {} := by
  refine .bind (Q := fun _ g => Kept r t frozen g ∧ g.heap.get new = some {}) (.lift ?_) fun k => ?_
  · rintro g g' k ⟨h, hget⟩ heq
    have htab := tables_internString heq
    exact ⟨h.of_tables htab, h.of_tables htab, (get_of_tables htab new).trans hget⟩
  rcases eq_or_ne s r with rfl | hsr
  · exact .writing ((rawSet hro).mono (fun _ h => h.1) fun _ _ h => (h.1 rfl).elim)
  · refine .writing (.attempt ?_)
    rintro g g' res ⟨h, hget⟩ heq
    split at heq
    · obtain ⟨⟨t', res'⟩, -, heq⟩ := Option.map_eq_some_iff.mp heq
      cases heq
      have h' := h.modify_ne (s := s) (fun _ => t') (by simpa using hsr.symm)
      exact ⟨h', fun _ _ => ⟨hsr, h', (get_modify_ne _ hne).trans hget⟩⟩
    · cases heq
      exact ⟨h, fun _ ha => by cases ha⟩

/-- A path that goes on from a new table is created on the way. -/
theorem findOrCreateTable_new (parts : List (List UInt8)) {s : GcRef .table} (hne : s ≠ r) :
    Keeps r t frozen (fun g => Kept r t frozen g ∧ g.heap.get s = some {}) (TableM.findOrCreateTable s parts)
      fun _ => Kept r t frozen := by
  induction parts generalizing s with
  | nil => exact (returning _).weaken fun _ h => h.1
  | cons part parts ih =>
    refine .bind (readField (fun _ h => h.1) (fun g g' h htab =>
      ⟨h.1.of_tables htab, (get_of_tables htab s).trans h.2⟩) s part _) fun v => ?_
    -- Nothing is found in an empty table.
    refine .assume (φ := v = .nil) ?_ ?_
    · rintro g ⟨⟨-, hget⟩, t', k, hget', hv⟩
      rw [hget] at hget'
      cases hget'
      cases hv
      rfl
    rintro rfl
    refine .bind ((allocTable s).weaken fun g h => ⟨h.1.1, by rw [h.1.2]; rfl⟩) fun new => ?_
    refine .assume (φ := new ≠ s ∧ new ≠ r) (fun g h => ⟨h.1, h.2.1⟩) fun hnew => ?_
    exact .bind ((setField_new (fun h => (hne h).elim) hnew.1 _ _).weaken fun _ h => h.2.2) fun _ => ih hnew.2

end Keeps

/-! ### Operations -/

/-- What Lua code and its host can do to a heap, as far as it allocates or writes to tables. `setField`
    stands for every store of a library function under a name. -/
inductive HeapOp where
  | alloc (k : ObjKind) (x : Obj k) (size : ℕ)
  | internString (data : List UInt8)
  | freeze (r : GcRef .table)
  | makeReadOnly (r : GcRef .table)
  | settable (obj key value : Val)
  | setList (obj : Val) (values : List Val) (c : ℕ)
  | rawset (args : List Val)
  | setmetatable (args : List Val)
  | debugSetmetatable (args : List Val)
  | insert (args : List Val)
  | remove (args : List Val)
  | swapSortValues (r : GcRef .table) (leftIdx : ℤ) (leftVal : Val) (rightIdx : ℤ) (rightVal : Val)
  | setField (r : GcRef .table) (key : List UInt8) (v : Val)
  | moduleTable (pkg global : GcRef .table) (name : List UInt8)
  | initModule (r : GcRef .table) (name : List UInt8) (caller : Option (GcRef .closure))
  | seeall (global : GcRef .table) (args : List Val)

namespace HeapOp

def discard {α : Type} (x : TableM α) : TableM Unit := do
  let _ ← x

def exec : HeapOp → TableM Unit
  | .alloc k x size => discard (Act.lift fun g => g.alloc k x size)
  | .internString data => discard (TableM.internString data)
  | .freeze r => Act.modify fun g => { g with heap := g.heap.putFlag ⟨.table, r⟩ .frozen true }
  | .makeReadOnly r => Act.modify fun g => g.modify r fun t => { (t : Table) with readOnly := true }
  | .settable obj key value => discard (vmSettable obj key value)
  | .setList obj values c => opSetList obj values c
  | .rawset args => discard (luaRawset args)
  | .setmetatable args => discard (luaSetmetatable args)
  | .debugSetmetatable args => dbSetmetatable args
  | .insert args => tabInsert args
  | .remove args => discard (tabRemove args)
  | .swapSortValues r leftIdx leftVal rightIdx rightVal =>
    TableM.swapSortValues r leftIdx leftVal rightIdx rightVal
  | .setField r key v => TableM.setField r key v
  | .moduleTable pkg global name => discard (TableM.moduleTable pkg global name)
  | .initModule r name caller => TableM.initModule r name caller
  | .seeall global args => llSeeall global args

/-- The operation, whether it fails or not. -/
def step (g : Gc) (op : HeapOp) : Option Gc := (op.exec g).map fun x => x.1

/-! ### Stores without the gate -/

/-- The table `find_or_create_table` stores into: the last one on the path, if the path is not complete. -/
def pathEnd : Gc → GcRef .table → List (List UInt8) → Option (GcRef .table)
  | _, _, [] => none
  | g, current, part :: parts =>
    match readField current part ⟨"package: table not found in find_or_create_table"⟩ g with
    | some (g, _, .ok (.table t)) => pathEnd g t parts
    | some (_, _, .ok .nil) => some current
    | _ => none

def moduleTargets (g : Gc) (pkg global : GcRef .table) (name : List UInt8) : List (GcRef .table) :=
  match getField pkg (utf8 "loaded") g with
  | some (g, _, .ok (.table loaded)) =>
    match readField loaded name ⟨"package.loaded table not found"⟩ g with
    | some (_, _, .ok (.table _)) => []
    | some (g, _, .ok _) => loaded :: (pathEnd g global (splitDots name)).toList
    | _ => []
  | _ => []

/-- Whether `setmetatable` gets as far as setting a metatable. -/
def setsMetatable (g : Gc) (r : GcRef .table) (args : List Val) : Bool :=
  2 ≤ args.length && (metatableArg (argOf args 1)).isSome &&
    match hasProtection ((g.heap.get r).bind Table.metatable) g with
    | some (_, _, .ok true) => false
    | _ => true

/-- The tables an operation stores into with no check but whether they are read-only. -/
def rawTargets (g : Gc) : HeapOp → List (GcRef .table)
  | .setmetatable args =>
    match argOf args 0 with
    | .table r => if setsMetatable g r args then [r] else []
    | _ => []
  | .insert args =>
    match argOf args 0, args.length, argOf args 1 with
    | .table r, 2, _ | .table r, 3, .num _ => [r]
    | _, _, _ => []
  | .remove args =>
    match argOf args 0, argOf args 1 with
    | .table r, .nil | .table r, .num _ =>
      if (g.heap.get r).bind (fun t => Table.len t g.heap.strings) = some 0 then [] else [r]
    | _, _ => []
  | .swapSortValues r leftIdx _ rightIdx _ => if leftIdx = rightIdx then [] else [r]
  | .setField r _ _ => [r]
  | .moduleTable pkg global name => moduleTargets g pkg global name
  | .initModule r _ _ =>
    match readField r (utf8 "_NAME") ⟨"module table not found"⟩ g with
    | some (_, _, .ok .nil) => [r]
    | _ => []
  | .seeall _ args =>
    match argOf args 0 with
    | .table r => ((g.heap.get r).bind Table.metatable).toList
    | _ => []
  | _ => []

/-- The tables whose metatable an operation sets with no check at all. -/
def uncheckedTargets (g : Gc) : HeapOp → List (GcRef .table)
  | .debugSetmetatable args =>
    match argOf args 0, metatableArg (argOf args 1) with
    | .table r, some _ => if 2 ≤ args.length then [r] else []
    | _, _ => []
  | .seeall _ args =>
    match argOf args 0 with
    | .table r => if ((g.heap.get r).bind Table.metatable).isNone then [r] else []
    | _ => []
  | _ => []

/-- `SETLIST` extends the array part before the gate: no key with a value comes to lie in it. -/
def GrowsSafely (g : Gc) (r : GcRef .table) (last : ℕ) : Prop :=
  ∀ t, g.heap.get r = some t → ∀ key idx, Table.slot t key = none →
    (Table.ensureArrayCapacity t last).slot key = some idx → Table.lookup t key = .nil

/-- The condition under which an operation respects immutable tables. -/
structure Checked (g : Gc) (op : HeapOp) : Prop where
  raw : ∀ r ∈ op.rawTargets g, ¬ FrozenOnly g r
  unchecked : ∀ r ∈ op.uncheckedTargets g, ¬ Immutable g r
  grows : ∀ r values c, op = .setList (.table r) values c → Immutable g r →
    GrowsSafely g r ((c - 1) * lfieldsPerFlush + values.length)

end HeapOp

theorem Table.lookup_ensureArrayCapacity {t : Table} {n : ℕ}
    (h : ∀ key idx, t.slot key = none → (t.ensureArrayCapacity n).slot key = some idx → t.lookup key = .nil) :
    (t.ensureArrayCapacity n).lookup = t.lookup := by
  have hslot : ∀ key idx, t.slot key = some idx → idx < t.array.length ∧ (t.ensureArrayCapacity n).slot key = some idx := by
    intro key idx hs
    obtain ⟨k, hk, hidx⟩ := Option.bind_eq_some_iff.mp hs
    rw [arrayIndex] at hidx
    split_ifs at hidx with hlt
    obtain rfl := Option.some.inj hidx
    refine ⟨hlt, Option.bind_eq_some_iff.mpr ⟨k, hk, ?_⟩⟩
    rw [arrayIndex, if_pos]
    rw [ensureArrayCapacity, List.length_append]
    omega
  funext key
  cases hs : t.slot key with
  | some idx =>
    obtain ⟨hlt, hs'⟩ := hslot key idx hs
    rw [lookup, lookup, hs, hs']
    simp [ensureArrayCapacity, List.getElem?_append_left hlt]
  | none =>
    cases hs' : (t.ensureArrayCapacity n).slot key with
    | none =>
      rw [lookup, lookup, hs, hs']
      rfl
    | some idx =>
      rw [h key idx hs hs', lookup, hs']
      -- The key had no slot, so its slot is one of the new ones.
      have hle : t.array.length ≤ idx := by
        by_contra hlt
        obtain ⟨k, hk, hidx⟩ := Option.bind_eq_some_iff.mp hs'
        rw [arrayIndex] at hidx
        split_ifs at hidx
        have hs₀ : t.slot key = some idx := by
          refine Option.bind_eq_some_iff.mpr ⟨k, hk, ?_⟩
          rw [arrayIndex, if_pos (by rw [Option.some.inj hidx]; omega), hidx]
        rw [hs] at hs₀
        cases hs₀
      simp only [ensureArrayCapacity, List.getD_eq_getElem?_getD, List.getElem?_append_right hle,
        List.getElem?_replicate]
      split_ifs <;> rfl

theorem Kept.readOnly_of (h : Kept r t frozen g) (himm : frozen = true ∨ t.readOnly = true) (hn : ¬ FrozenOnly g r) :
    t.readOnly = true := by
  rcases himm with hf | hro
  · by_contra hro
    exact hn ⟨h.isFrozen_eq.trans hf, by rw [h.isReadOnly_eq]; simpa using hro⟩
  · exact hro

theorem Kept.immutable (h : Kept r t frozen g) (himm : frozen = true ∨ t.readOnly = true) : Immutable g r :=
  himm.imp h.isFrozen_eq.trans h.isReadOnly_eq.trans

namespace Keeps

variable {g₀ : Gc} (himm : frozen = true ∨ t.readOnly = true)

include himm

theorem opSetList (obj : Val) (values : List Val) (c : ℕ)
    (hgrow : obj = .table r → HeapOp.GrowsSafely g₀ r ((c - 1) * lfieldsPerFlush + values.length)) :
    Keeps r t frozen (fun g => g = g₀ ∧ Kept r t frozen g) (TableM.opSetList obj values c) fun _ => Kept r t frozen := by
  cases obj with
  | table s =>
    refine .writing (.bind (checkTableAccess (fun _ h => h.2) s) fun _ => ?_)
    refine .bind (Q := fun _ => Kept r t frozen) ?_ fun grown => ?_
    · rcases eq_or_ne s r with rfl | hne
      · refine .attempt ?_
        rintro g g' res ⟨rfl, h⟩ heq
        obtain ⟨t', hget, hsame⟩ := h.get_eq
        simp only [hget, Option.map_some] at heq
        cases heq
        have hgrown : SameContents t (Table.ensureArrayCapacity t' ((c - 1) * lfieldsPerFlush + values.length)) :=
          ⟨(Table.lookup_ensureArrayCapacity (hgrow rfl t' hget)).trans hsame.lookup_eq, hsame.metatable_eq,
            hsame.readOnly_eq⟩
        have h' := h.modify_self hgrown
        exact ⟨h', fun _ _ => h'⟩
      · exact (update_ne hne).weaken fun _ h => h.2
    refine .bind (.modify fun g h => h.of_cell_eq rfl) fun _ => .bind (getState fun _ h => h) fun g₁ => ?_
    split_ifs
    · exact .fail fun _ h => h.2
    refine .bind ((ensureTableNotFrozen himm s).weaken fun _ h => h.2) fun _ => ?_
    rcases eq_or_ne s r with rfl | hne
    · exact .of_false fun _ h => h.1 rfl
    refine .bind ((update_ne hne).weaken fun _ h => h.2) fun _ => ?_
    exact (barrierBack s).mono (fun _ h => h) fun _ _ h => ⟨hne, h⟩
  | _ => exact .fail fun _ h => h.2

theorem luaRawset (args : List Val) :
    Keeps r t frozen (Kept r t frozen) (TableM.luaRawset args) fun _ => Kept r t frozen := by
  rw [TableM.luaRawset]
  split_ifs
  · exact failing
  split
  · next s _ =>
    refine .writing (.bind (checkTableAccess (fun _ h => h) s) fun _ => .bind (getState fun _ h => h) fun g₁ => ?_)
    split_ifs with hf
    · exact .fail fun _ h => h.2
    rcases eq_or_ne s r with rfl | hne
    · -- A table that gets past the check of the frozen flag is read-only.
      refine .bind (Q := fun _ _ => False) ?_ fun _ => .of_false fun _ h => h
      intro g g' w res hP heq
      obtain ⟨rfl, h⟩ := hP
      have hro : t.readOnly = true := h.readOnly_of himm fun hn => hf hn.1
      have hset : Keeps s t frozen (Kept s t frozen)
          (TableM.rawSet s (argOf args 1) (argOf args 2) (badArgument "rawset" 1 "invalid table")) fun _ _ => False :=
        (rawSet fun _ => hro).mono (fun _ h => h) fun _ _ h => h.1 rfl
      exact hset _ _ _ _ h heq
    · refine .bind ((update_ne hne).weaken fun _ h => h.2) fun _ => .bind (barrierBack s) fun _ => ?_
      exact (returning _).mono (fun _ h => h) fun _ _ h => ⟨hne, h⟩
  · exact failing

theorem luaSetmetatable (args : List Val) (hg : r ∈ (HeapOp.setmetatable args).rawTargets g₀ → ¬ FrozenOnly g₀ r) :
    Keeps r t frozen (fun g => g = g₀ ∧ Kept r t frozen g) (TableM.luaSetmetatable args) fun _ => Kept r t frozen := by
  rw [TableM.luaSetmetatable]
  split_ifs with hlen
  · exact .fail fun _ h => h.2
  split
  · next s hs =>
    refine .writing (.bind (checkTableAccess (fun _ h => h.2) s) fun _ => .bind (getState fun _ h => h.2) fun g₁ => ?_)
    split_ifs with hro
    · exact .fail fun _ h => h.2.2
    split
    · exact .fail fun _ h => h.2.2
    · next mt hmt =>
      refine .bind (getState fun _ h => h.2.2) fun g₂ => ?_
      refine .bind (Q := fun b g => (b = false → s ≠ r) ∧ Kept r t frozen g) ?_ fun b => ?_
      · refine .assume (φ := g₂ = g₀ ∧ g₁ = g₀ ∧ Kept r t frozen g₀) ?_ fun hpure => ?_
        · rintro g ⟨rfl, rfl, rfl, h⟩
          exact ⟨rfl, rfl, h⟩
        obtain ⟨rfl, rfl, h₀⟩ := hpure
        refine ((hasProtection _).exact g₁).mono (fun _ h => h.2.2) ?_
        rintro b g ⟨⟨w, heq⟩, h⟩
        refine ⟨?_, h⟩
        rintro rfl rfl
        have hsets : HeapOp.setsMetatable g₁ s args = true := by
          simp [HeapOp.setsMetatable, heq, hmt]
          omega
        refine hg ?_ ⟨?_, ?_⟩
        · simp [HeapOp.rawTargets, hs, hsets]
        · rw [h₀.isFrozen_eq]
          exact himm.resolve_right fun hr => hro (h₀.isReadOnly_eq.trans hr)
        · simpa using hro
      · cases b with
        | true => exact .fail fun _ h => h.2
        | false =>
          rcases eq_or_ne s r with rfl | hne
          · exact .of_false fun _ h => h.1 rfl rfl
          refine .bind (.modify fun g h => h.2.modify_ne (s := s) (k := .table) _ (by simpa using hne.symm)) fun _ => ?_
          refine .bind (barrierBack s) fun _ => (returning _).mono (fun _ h => h) fun _ _ h => ⟨hne, h⟩
  · exact .fail fun _ h => h.2

theorem dbSetmetatable (args : List Val)
    (hg : r ∈ (HeapOp.debugSetmetatable args).uncheckedTargets g₀ → ¬ Immutable g₀ r) :
    Keeps r t frozen (fun g => g = g₀ ∧ Kept r t frozen g) (TableM.dbSetmetatable args) fun _ => Kept r t frozen := by
  refine .assume (φ := Immutable g₀ r) (fun g h => h.1 ▸ h.2.immutable himm) fun hr => ?_
  rw [TableM.dbSetmetatable]
  split_ifs with hlen
  · exact .fail fun _ h => h.2
  split
  · exact .fail fun _ h => h.2
  · next s mt hs hmt =>
    have hne : s ≠ r := by
      rintro rfl
      refine hg ?_ hr
      simp only [HeapOp.uncheckedTargets, hs, hmt]
      rw [if_pos (by omega)]
      exact List.mem_singleton.mpr rfl
    exact (Act.Triple.writing ((update_ne hne).mono (fun _ h => h) fun _ _ h => ⟨hne, h⟩)).weaken fun _ h => h.2
  · refine .bind (getState fun _ h => h.2) fun g₁ => ?_
    split
    · exact (Act.Triple.modify fun g h => Kept.modify_ne _ h (by simp)).weaken fun _ h => h.2.2
    · exact .fail fun _ h => h.2.2
  · exact (Act.Triple.modify fun g h => h.of_cell_eq rfl).weaken fun _ h => h.2

theorem tabInsert (args : List Val) (hg : r ∈ (HeapOp.insert args).rawTargets g₀ → ¬ FrozenOnly g₀ r) :
    Keeps r t frozen (fun g => g = g₀ ∧ Kept r t frozen g) (TableM.tabInsert args) fun _ => Kept r t frozen := by
  refine .assume (φ := Kept r t frozen g₀) (fun g h => h.1 ▸ h.2) fun h₀ => ?_
  refine .bind ((checkTable _ _).weaken fun _ h => h.2) fun s => .assume (fun _ h => h.1) fun hs => ?_
  refine .bind ((tableLen s).weaken fun _ h => h.2) fun e => ?_
  split
  · next hlen =>
    have hro : s = r → t.readOnly = true := by
      rintro rfl
      exact h₀.readOnly_of himm (hg (by simp [HeapOp.rawTargets, hs, hlen]))
    exact .bind (setRaw hro _ _) fun _ => barrierBack s
  · next hlen =>
    refine .bind (numberArg _ _ _) fun pos => .assume (fun _ h => h.1) fun hx => ?_
    obtain ⟨x, hx⟩ := hx
    have hro : s = r → t.readOnly = true := by
      rintro rfl
      exact h₀.readOnly_of himm (hg (by simp [HeapOp.rawTargets, hs, hlen, hx]))
    refine .bind ((shiftElementsUp hro _ _).weaken fun _ h => h.2) fun _ => ?_
    exact .bind (setRaw hro _ _) fun _ => barrierBack s
  · exact failing

theorem tabRemove (args : List Val) (hg : r ∈ (HeapOp.remove args).rawTargets g₀ → ¬ FrozenOnly g₀ r) :
    Keeps r t frozen (fun g => g = g₀ ∧ Kept r t frozen g) (TableM.tabRemove args) fun _ => Kept r t frozen := by
  refine .assume (φ := Kept r t frozen g₀) (fun g h => h.1 ▸ h.2) fun h₀ => ?_
  rw [TableM.tabRemove]
  cases hs : argOf args 0 with
  | table s =>
    refine .bind (.bind (checkTableAccess (fun _ h => h.2) s) fun _ => .pure (Q := fun s' g => s' = s ∧ g = g₀ ∧
      Kept r t frozen g) (fun _ h => h.2) fun _ h => ⟨rfl, h⟩) fun s' => .assume (fun _ h => h.1) ?_
    rintro rfl
    refine .bind (((tableLen s').exact g₀).weaken fun _ h => h.2) fun e => ?_
    refine .assume (φ := ∃ g w, TableM.tableLen s' g₀ = some (g, w, .ok e)) (fun g h => ⟨g, h.1⟩) fun hlen => ?_
    split_ifs with he
    · exact (returning _).weaken fun _ h => h.2
    -- From here on a value is moved, so `r` must not be frozen only.
    have hro : (∃ x, argOf args 1 = .num x) ∨ argOf args 1 = .nil → s' = r → t.readOnly = true := by
      rintro harg rfl
      refine h₀.readOnly_of himm (hg ?_)
      obtain ⟨t', hget, -⟩ := h₀.get_eq
      have hne : (g₀.heap.get s').bind (fun t => Table.len t g₀.heap.strings) ≠ some 0 := by
        intro hzero
        obtain ⟨g, w, hlen⟩ := hlen
        rw [hget, Option.bind_some] at hzero
        rw [tableLen_eq hget, hzero] at hlen
        cases hlen
        exact he rfl
      rcases harg with ⟨x, hx⟩ | hx
      · simp only [HeapOp.rawTargets, hs, hx, if_neg hne, List.mem_singleton]
      · simp only [HeapOp.rawTargets, hs, hx, if_neg hne, List.mem_singleton]
    have hrest : ((∃ x, argOf args 1 = .num x) ∨ argOf args 1 = .nil) → ∀ pos,
        Keeps r t frozen (Kept r t frozen) (do
          let removed ← TableM.getRaw s' pos
          TableM.shiftElementsDown s' (e - pos).toNat pos
          TableM.setRaw s' e .nil
          TableM.barrierBack s'
          pure (some removed)) fun _ => Kept r t frozen := fun harg pos =>
      .bind (getRaw s' pos) fun _ => .bind (shiftElementsDown (hro harg) _ _) fun _ =>
        .bind (setRaw (hro harg) _ _) fun _ => .bind (barrierBack s') fun _ => returning _
    split
    · next hx =>
      exact .bind ((returning e).weaken fun _ h => h.2) fun pos => hrest (.inr hx) pos
    · refine .bind ((numberArg _ _ _).weaken fun _ h => h.2) fun pos => .assume (fun _ h => h.1) fun hx => ?_
      exact (hrest (.inl hx) pos).weaken fun _ h => h.2
  | _ => exact .bind (.fail fun _ h => h.2) fun _ => .of_false (P := fun _ => False) fun _ h => h

theorem swapSortValues {s : GcRef .table} {leftIdx rightIdx : ℤ} {leftVal rightVal : Val}
    (hg : r ∈ (HeapOp.swapSortValues s leftIdx leftVal rightIdx rightVal).rawTargets g₀ → ¬ FrozenOnly g₀ r) :
    Keeps r t frozen (fun g => g = g₀ ∧ Kept r t frozen g)
      (TableM.swapSortValues s leftIdx leftVal rightIdx rightVal) fun _ => Kept r t frozen := by
  refine .assume (φ := Kept r t frozen g₀) (fun g h => h.1 ▸ h.2) fun h₀ => ?_
  refine .bind (checkTableAccess (fun _ h => h.2) s) fun _ => .bind (getState fun _ h => h.2) fun g₁ => ?_
  refine .assume (φ := g₁ = g₀) (fun _ h => h.1.trans h.2.1) ?_
  rintro rfl
  split_ifs with hro heq
  · exact .fail fun _ h => h.2.2
  · exact (returning _).weaken fun _ h => h.2.2
  have hne : s ≠ r := by
    rintro rfl
    have hn := hg (by simp [HeapOp.rawTargets, heq])
    exact hro (h₀.isReadOnly_eq.trans (h₀.readOnly_of himm hn))
  have hro' : s = r → t.readOnly = true := fun h => (hne h).elim
  refine .writing (.bind ((update_ne hne).weaken fun _ h => h.2.2) fun swapped => ?_)
  split_ifs
  · exact (returning _).mono (fun _ h => h) fun _ _ h => ⟨hne, h⟩
  · refine .bind (setRaw hro' _ _) fun _ => ?_
    exact (setRaw hro' _ _).mono (fun _ h => h) fun _ _ h => ⟨hne, h⟩

omit himm in
theorem findOrCreateTable (parts : List (List UInt8)) {s : GcRef .table} {g₀ : Gc}
    (hg : HeapOp.pathEnd g₀ s parts = some r → t.readOnly = true) :
    Keeps r t frozen (fun g => g = g₀ ∧ Kept r t frozen g) (TableM.findOrCreateTable s parts)
      fun _ => Kept r t frozen := by
  induction parts generalizing s g₀ with
  | nil => exact (returning _).weaken fun _ h => h.2
  | cons part parts ih =>
    have hread := (readField (fun _ h => h) (fun _ _ h htab => h.of_tables htab) s part
      ⟨"package: table not found in find_or_create_table"⟩ : Keeps r t frozen _ _ _).exact g₀
    refine .bind hread fun v => ?_
    split
    · next s' =>
      refine .of_state ?_
      rintro g₁ ⟨⟨w, heq⟩, h₁, -⟩
      have hg' : HeapOp.pathEnd g₁ s' parts = some r → t.readOnly = true := by
        rw [HeapOp.pathEnd, heq] at hg
        exact hg
      exact (ih hg').weaken fun _ h => ⟨h.1, h.2.2.1⟩
    · refine .of_state ?_
      rintro g₁ ⟨⟨w, heq⟩, h₁, t', k, hget, -⟩
      have hro : s = r → t.readOnly = true := by
        rw [HeapOp.pathEnd, heq] at hg
        exact fun h => hg (by rw [h])
      refine .bind ((allocTable s).weaken ?_) fun new => ?_
      · rintro g ⟨rfl, -, h, -⟩
        exact ⟨h, by rw [hget]; rfl⟩
      refine .assume (φ := new ≠ s ∧ new ≠ r) (fun g h => ⟨h.1, h.2.1⟩) fun hnew => ?_
      exact .bind ((setField_new hro hnew.1 _ _).weaken fun _ h => h.2.2) fun _ => findOrCreateTable_new _ hnew.2
    · exact .fail fun _ h => h.2.1

omit himm in
theorem moduleTable {pkg global : GcRef .table} {name : List UInt8}
    (hg : r ∈ HeapOp.moduleTargets g₀ pkg global name → t.readOnly = true) :
    Keeps r t frozen (fun g => g = g₀ ∧ Kept r t frozen g) (TableM.moduleTable pkg global name)
      fun _ => Kept r t frozen := by
  refine .bind ((getField pkg _).exact g₀) fun v => ?_
  split
  · next loaded =>
    refine .of_state ?_
    rintro g₁ ⟨⟨w, heq⟩, h₁⟩
    have hread := (readField (fun _ h => h) (fun _ _ h htab => h.of_tables htab) loaded name
      ⟨"package.loaded table not found"⟩ : Keeps r t frozen _ _ _).exact g₁
    refine .bind (hread.weaken fun _ h => ⟨h.1, h.2.2⟩) fun v => ?_
    split
    · exact (returning _).weaken fun _ h => h.2.1
    · next hv =>
      refine .of_state ?_
      rintro g₂ ⟨⟨w₂, heq₂⟩, h₂, -⟩
      have htargets : HeapOp.moduleTargets g₀ pkg global name
          = loaded :: (HeapOp.pathEnd g₂ global (splitDots name)).toList := by
        rw [HeapOp.moduleTargets, heq]
        simp only [heq₂]
      rw [htargets] at hg
      have hend : HeapOp.pathEnd g₂ global (splitDots name) = some r → t.readOnly = true := fun h => hg (by simp [h])
      refine .bind ((findOrCreateTable _ hend).weaken fun _ h => ⟨h.1, h.2.2.1⟩) fun s => ?_
      exact .bind (setField (fun h => hg (by simp [h])) _ _) fun _ => returning _
  · exact .fail fun _ h => h.2

omit himm in
theorem setCallerEnv (caller : Option (GcRef .closure)) (s : GcRef .table) :
    Keeps r t frozen (Kept r t frozen) (TableM.setCallerEnv caller s) fun _ => Kept r t frozen := by
  cases caller with
  | some cl => exact .modify fun g h => h.modify_ne _ (by simp)
  | none => exact returning _

omit himm in
theorem initModule {s : GcRef .table} {name : List UInt8} {caller : Option (GcRef .closure)}
    (hg : r ∈ (HeapOp.initModule s name caller).rawTargets g₀ → t.readOnly = true) :
    Keeps r t frozen (fun g => g = g₀ ∧ Kept r t frozen g) (TableM.initModule s name caller)
      fun _ => Kept r t frozen := by
  have hread := (readField (fun _ h => h) (fun _ _ h htab => h.of_tables htab) s (utf8 "_NAME")
    ⟨"module table not found"⟩ : Keeps r t frozen _ _ _).exact g₀
  refine .bind hread fun v => ?_
  split_ifs with hv
  · refine .of_state ?_
    rintro g₁ ⟨⟨w, heq⟩, h₁, -⟩
    have hro : s = r → t.readOnly = true := by
      rintro rfl
      rw [Val.isNil_eq_true] at hv
      refine hg ?_
      rw [HeapOp.rawTargets, heq, hv]
      exact List.mem_singleton.mpr rfl
    refine .bind ((setField hro _ _).weaken fun _ h => h.2.2.1) fun _ => .bind (internString _) fun _ => ?_
    refine .bind (setField hro _ _) fun _ => .bind (internString _) fun _ => ?_
    exact .bind (setField hro _ _) fun _ => setCallerEnv _ _
  · exact (setCallerEnv caller s).weaken fun _ h => h.2.1

theorem llSeeall {global : GcRef .table} {args : List Val}
    (hraw : r ∈ (HeapOp.seeall global args).rawTargets g₀ → ¬ FrozenOnly g₀ r)
    (hset : r ∈ (HeapOp.seeall global args).uncheckedTargets g₀ → ¬ Immutable g₀ r) :
    Keeps r t frozen (fun g => g = g₀ ∧ Kept r t frozen g) (TableM.llSeeall global args)
      fun _ => Kept r t frozen := by
  refine .assume (φ := Kept r t frozen g₀) (fun g h => h.1 ▸ h.2) fun h₀ => ?_
  rw [TableM.llSeeall]
  split
  · next s hs =>
    refine .bind (read (fun _ h => h.2) s _) fun t' => .assume (φ := g₀.heap.get s = some t') ?_ fun hget => ?_
    · rintro g ⟨⟨rfl, -⟩, hget⟩
      exact hget
    split
    · next mt hmt =>
      have hro : mt = r → t.readOnly = true := by
        rintro rfl
        exact h₀.readOnly_of himm (hraw (by simp [HeapOp.rawTargets, hs, hget, hmt]))
      refine .bind (.pure (Q := fun mt' g => mt' = mt ∧ Kept r t frozen g) (fun _ h => h.1.2) fun _ h => ⟨rfl, h.1.2⟩)
        fun mt' => .assume (fun _ h => h.1) ?_
      rintro rfl
      exact (setField hro _ _).weaken fun _ h => h.2
    · next hmt =>
      have hne : s ≠ r := by
        rintro rfl
        exact hset (by simp [HeapOp.uncheckedTargets, hs, hget, hmt]) (h₀.immutable himm)
      refine .bind ((allocTable s).weaken fun g h => ⟨h.1.2, by rw [h.2]; rfl⟩) fun mt => ?_
      refine .assume (φ := mt ≠ r) (fun _ h => h.2.1) fun hmt' => ?_
      refine .bind (.writing ((update_ne hne).mono (fun _ h => h.2.2.1) fun _ _ h => ⟨hne, h⟩)) fun _ => ?_
      refine .bind (.pure (Q := fun mt' g => mt' = mt ∧ Kept r t frozen g) (fun _ h => h) fun _ h => ⟨rfl, h⟩)
        fun mt' => .assume (fun _ h => h.1) ?_
      rintro rfl
      exact (setField (fun h => (hmt' h).elim) _ _).weaken fun _ h => h.2
  · exact .fail fun _ h => h.2

omit himm in
theorem discard {α : Type} {x : TableM α} {Q : α → Gc → Prop} {P : Gc → Prop}
    (hx : Keeps r t frozen P x Q) (hQ : ∀ a g, Q a g → Kept r t frozen g) :
    Keeps r t frozen P (HeapOp.discard x) fun _ => Kept r t frozen :=
  .bind hx fun a => .pure (hQ a) (hQ a)

/-- Every operation but the two that protect a table keeps an immutable table as it is. -/
theorem exec (op : HeapOp) (hc : op.Checked g₀) (hf : op ≠ .freeze r) (hro : op ≠ .makeReadOnly r) :
    Keeps r t frozen (fun g => g = g₀ ∧ Kept r t frozen g) op.exec fun _ => Kept r t frozen := by
  refine .assume (φ := Kept r t frozen g₀) (fun g h => h.1 ▸ h.2) fun h₀ => ?_
  have hraw : r ∈ op.rawTargets g₀ → ¬ FrozenOnly g₀ r := hc.raw r
  have hraw' : r ∈ op.rawTargets g₀ → t.readOnly = true := fun h => h₀.readOnly_of himm (hraw h)
  cases op with
  | alloc k x size =>
    refine discard (.lift ?_) fun _ _ h => h
    rintro g g' s ⟨-, h⟩ heq
    exact ⟨(h.alloc heq).1, (h.alloc heq).1⟩
  | internString data => exact discard ((internString data).weaken fun _ h => h.2) fun _ _ h => h
  | freeze s =>
    have hne : (⟨.table, r⟩ : ObjRef) ≠ ⟨.table, s⟩ := by
      intro hs
      cases hs
      exact hf rfl
    exact .modify fun g h => h.2.of_cell_eq (by rw [Heap.cell_putFlag, if_neg hne])
  | makeReadOnly s =>
    have hne : (⟨.table, r⟩ : ObjRef) ≠ ⟨.table, s⟩ := by
      intro hs
      cases hs
      exact hro rfl
    exact .modify fun g h => h.2.modify_ne _ hne
  | settable obj key value => exact discard ((vmSettable himm obj key value).weaken fun _ h => h.2) fun _ _ h => h
  | setList obj values c =>
    refine opSetList himm obj values c ?_
    rintro rfl
    exact hc.grows r values c rfl (h₀.immutable himm)
  | rawset args => exact discard ((luaRawset himm args).weaken fun _ h => h.2) fun _ _ h => h
  | setmetatable args => exact discard (luaSetmetatable himm args hraw) fun _ _ h => h
  | debugSetmetatable args => exact dbSetmetatable himm args (hc.unchecked r)
  | insert args => exact tabInsert himm args hraw
  | remove args => exact discard (tabRemove himm args hraw) fun _ _ h => h
  | swapSortValues s leftIdx leftVal rightIdx rightVal => exact swapSortValues himm hraw
  | setField s key v =>
    exact (setField (fun h => hraw' (by rw [h]; exact List.mem_singleton.mpr rfl)) key v).weaken fun _ h => h.2
  | moduleTable pkg global name => exact discard (moduleTable hraw') fun _ _ h => h
  | initModule s name caller => exact initModule hraw'
  | seeall global args => exact llSeeall himm hraw (hc.unchecked r)

end Keeps

/-! ### Runs -/

/-- The entries and the metatable of a table. -/
def contents (g : Gc) (r : GcRef .table) : Option ((Val → Val) × Option (GcRef .table)) :=
  (g.heap.get r).map fun t => (Table.lookup t, Table.metatable t)

theorem Immutable.exists_kept (h : Immutable g r) : ∃ t frozen, Kept r t frozen g ∧ (frozen = true ∨ t.readOnly = true) := by
  cases hcell : g.heap.cell ⟨.table, r⟩ with
  | none =>
    rcases h with h | h
    · rw [isFrozen, Heap.hasFlag_eq, hcell] at h
      cases h
    · rw [isReadOnly, Heap.get_eq, hcell] at h
      cases h
  | some x =>
    have hk : Kept r x.value (x.flags.has .frozen) g := ⟨x, hcell, ⟨rfl, rfl, rfl⟩, rfl⟩
    refine ⟨x.value, _, hk, ?_⟩
    rcases h with h | h
    · exact .inl (hk.isFrozen_eq.symm.trans h)
    · exact .inr (hk.isReadOnly_eq.symm.trans h)

theorem Kept.contents_eq (h : Kept r t frozen g) : contents g r = some (t.lookup, t.metatable) := by
  obtain ⟨t', hget, hsame⟩ := h.get_eq
  rw [contents, hget, ← hsame.lookup_eq, ← hsame.metatable_eq]
  rfl

theorem Kept.freeze (h : Kept r t frozen g) :
    Kept r t true { g with heap := g.heap.putFlag ⟨.table, r⟩ .frozen true } := by
  obtain ⟨x, hx, hsame, -⟩ := h
  exact ⟨{ x with flags := x.flags.put .frozen true }, by rw [Heap.cell_putFlag, if_pos rfl, hx]; rfl, hsame, rfl⟩

theorem Kept.makeReadOnly (h : Kept r t frozen g) :
    Kept r { t with readOnly := true } frozen (g.modify r fun t => { (t : Table) with readOnly := true }) := by
  obtain ⟨x, hx, hsame, hf⟩ := h
  refine ⟨{ x with value := { (x.value : Table) with readOnly := true } }, ?_, ⟨?_, ?_, rfl⟩, hf⟩
  · rw [Gc.modify, Heap.cell_modify_self, hx]
    rfl
  · exact hsame.lookup_eq
  · exact hsame.metatable_eq

/-- One operation leaves an immutable table as it is, and fails if it was about to write to it. -/
theorem exec_immutable {op : HeapOp} {w : List (GcRef .table)} {res : Except LuaError Unit} (h : Immutable g r)
    (hc : op.Checked g) (heq : op.exec g = some (g', w, res)) :
    (contents g' r = contents g r ∧ Immutable g' r) ∧ (r ∈ w → ∃ e, res = .error e) := by
  obtain ⟨t, frozen, hk, himm⟩ := h.exists_kept
  rcases eq_or_ne op (.freeze r) with rfl | hf
  · cases heq
    have hk' := hk.freeze
    exact ⟨⟨by rw [hk'.contents_eq, hk.contents_eq], hk'.immutable (.inl rfl)⟩, by simp⟩
  rcases eq_or_ne op (.makeReadOnly r) with rfl | hro
  · cases heq
    have hk' := hk.makeReadOnly
    exact ⟨⟨by rw [hk'.contents_eq, hk.contents_eq]; rfl, hk'.immutable (.inr rfl)⟩, by simp⟩
  obtain ⟨hk', hok⟩ := Keeps.exec himm op hc hf hro g g' w res ⟨rfl, hk⟩ heq
  refine ⟨⟨by rw [hk'.contents_eq, hk.contents_eq], hk'.immutable himm⟩, fun hr => ?_⟩
  cases res with
  | error e => exact ⟨e, rfl⟩
  | ok a => exact ((hok a rfl).1 r hr rfl).elim

/-- Over every run in which no store without the gate reaches an immutable table it does not refuse, the
    entries and the metatable of a frozen or read-only table stay, and every attempt to write to it fails. -/
theorem run_immutable {ops : List HeapOp} (hrun : Run HeapOp.step HeapOp.Checked g ops g') (h : Immutable g r) :
    contents g' r = contents g r ∧ Immutable g' r ∧ ∀ (op : HeapOp) g'' w res, op.Checked g' → op.exec g' = some (g'', w, res) →
      contents g'' r = contents g r ∧ (r ∈ w → ∃ e, res = .error e) := by
  have hkept : contents g' r = contents g r ∧ Immutable g' r := by
    refine hrun.invariant (fun g₁ => contents g₁ r = contents g r ∧ Immutable g₁ r) ?_ ⟨rfl, h⟩
    rintro g₁ op g₂ ⟨heq, h₁⟩ hc hstep
    obtain ⟨⟨g₂', w, res⟩, hexec, rfl⟩ := Option.map_eq_some_iff.mp hstep
    obtain ⟨⟨hsame, h₂⟩, -⟩ := exec_immutable h₁ hc hexec
    exact ⟨hsame.trans heq, h₂⟩
  refine ⟨hkept.1, hkept.2, fun op g'' w res hc hexec => ?_⟩
  obtain ⟨⟨hsame, -⟩, hfail⟩ := exec_immutable hkept.2 hc hexec
  exact ⟨hsame.trans hkept.1, hfail⟩

/-- A heap with one empty table, which is frozen. -/
def frozenTable : Option Gc :=
  exec HeapOp.step {} [.alloc .table {} 0, .freeze ⟨0, 0⟩]

theorem run_immutable_settable : ∃ g g' g'' w e, frozenTable = some g ∧
    Run HeapOp.step HeapOp.Checked g [.settable (.table ⟨0, 0⟩) (.bool true) (.bool true)] g' ∧
    (HeapOp.rawset [.table ⟨0, 0⟩, .bool true, .bool true]).exec g' = some (g'', w, .error e) ∧
    contents g'' ⟨0, 0⟩ = contents g ⟨0, 0⟩ := by
  have hrun : Run HeapOp.step HeapOp.Checked (frozenTable.getD {})
      [.settable (.table ⟨0, 0⟩) (.bool true) (.bool true)] _ :=
    .single ⟨by simp [HeapOp.rawTargets], by simp [HeapOp.uncheckedTargets], by simp⟩ rfl
  have himm : Immutable (frozenTable.getD {}) ⟨0, 0⟩ := .inl rfl
  have hend := (run_immutable hrun himm).2.2 (.rawset [.table ⟨0, 0⟩, .bool true, .bool true]) _ _ _
    ⟨by simp [HeapOp.rawTargets], by simp [HeapOp.uncheckedTargets], by simp⟩ rfl
  exact ⟨_, _, _, _, _, rfl, hrun, rfl, hend.1⟩

/-- `setmetatable` changes the metatable of a frozen table. -/
theorem not_run_immutable_setmetatable : ∃ g g', frozenTable = some g ∧ Immutable g ⟨0, 0⟩ ∧
    HeapOp.step g (.setmetatable [.table ⟨0, 0⟩, .table ⟨0, 0⟩]) = some g' ∧
    (HeapOp.setmetatable [.table ⟨0, 0⟩, .table ⟨0, 0⟩]).exec g = some (g', [⟨0, 0⟩], .ok ()) ∧
    contents g' ⟨0, 0⟩ ≠ contents g ⟨0, 0⟩ := by
  refine ⟨_, _, rfl, .inl rfl, rfl, rfl, ?_⟩
  intro h
  have hmt := congrArg (Option.map Prod.snd) h
  cases hmt

end Rilua.Vm
