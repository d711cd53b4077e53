import Rilua.Vm.TableCtor

/-! A table over its whole life: `NEWTABLE` with sizes, assignments, `SETLIST`, the stores of `table.sort`, and the
    entries that the collector clears. What an assignment reports is how much the table grows, in every run. An
    assignment that fails changes nothing where no part is longer than `MAXASIZE`, which a rehash takes for granted
    and `NEWTABLE` and `SETLIST` do not see to. -/

namespace Rilua.Vm

open Lib Gc

namespace Table

variable {strings : StringArena} {t t' u : Table} {key value : Val}

/-! ### Clearing and other stores -/

/-- Sets the array element at `idx` to nil (for weak-table clearing). -/
def nilArrayEntry (t : Table) (idx : ℕ) : Table := if idx < t.array.length then t.setArray idx .nil else t

/-- Sets the values at the given node indices to nil (for weak-table clearing). -/
def nilHashEntries (t : Table) (indices : List ℕ) : Table :=
  indices.foldl (fun t idx => if idx < t.nodes.length then t.setValue idx .nil else t) t

/-- The invariant says nothing of what the array slots hold. -/
theorem Inv.withArray (h : t.Inv strings) {array : List Val} (hlen : array.length = t.array.length) :
    Inv strings { t with array } := by
  have hslot : ∀ k, ({ t with array } : Table).slot k = t.slot k := slot_eq_of_length hlen
  refine ⟨h.nodes_inv, h.size, h.lastFree_le, h.scanned, hlen ▸ h.array_le, fun n hn hs => h.shadow n hn ?_⟩
  rwa [← hslot]

theorem Inv.nilNode (h : t.Inv strings) (idx : ℕ) : (t.setValue idx .nil).Inv strings := by
  cases hn : t.nodes[idx]? with
  | none =>
    have hle := List.getElem?_eq_none_iff.mp hn
    rw [setValue, List.modify_eq_self hle]
    exact h
  | some n =>
    by_cases hv : n.value = .nil
    · have hsame : t.nodes.modify idx (fun n => { n with value := .nil }) = t.nodes := by
        refine List.ext_getElem? fun i => ?_
        rw [List.getElem?_modify]
        split
        · next hi =>
          rw [← hi, hn, ← hv]
          rfl
        · exact Option.map_id' ..
      rw [setValue, hsame]
      exact h
    · have hmem := NodesInv.mem hn
      have hslot : t.slot n.key = none := by
        cases hs : t.slot n.key with
        | none => rfl
        | some idx => exact absurd (h.shadow n hmem (by rw [hs]; rfl)) hv
      have hk := key_live h hmem hv
      exact (h.setNode hk hslot hn hk.rawEq_self .nil).inv

theorem swapArrayInts_spec (t : Table) (left right : ℤ) :
    ∃ array, (t.swapArrayInts left right).getD t = { t with array } ∧ array.length = t.array.length := by
  rw [swapArrayInts]
  cases t.arrayIndex left with
  | none => exact ⟨t.array, rfl, rfl⟩
  | some i =>
    cases t.arrayIndex right with
    | none => exact ⟨t.array, rfl, rfl⟩
    | some j => exact ⟨_, rfl, by simp⟩

/-! ### Memory -/

/-- The size of the hash part is that of the nodes also where there are none. -/
def HashSized (t : Table) : Prop := t.nodes = [] → t.log2Size = 0

/-- The same sizes. -/
structure SameSize (t t' : Table) : Prop where
  array : t'.array.length = t.array.length
  nodes : t'.nodes.length = t.nodes.length
  log2Size : t'.log2Size = t.log2Size

theorem SameSize.refl (t : Table) : SameSize t t := ⟨rfl, rfl, rfl⟩

theorem SameSize.hashSized (h : SameSize t t') (ht : t.HashSized) : t'.HashSized := by
  intro hnil
  have hlen := h.nodes
  rw [hnil] at hlen
  rw [h.log2Size]
  exact ht (List.eq_nil_of_length_eq_zero hlen.symm)

theorem SameSize.estimatedMemory (h : SameSize t t') : t'.estimatedMemory = t.estimatedMemory := by
  have hempty : t'.nodes.isEmpty = t.nodes.isEmpty := by
    rw [Bool.eq_iff_iff, List.isEmpty_iff_length_eq_zero, List.isEmpty_iff_length_eq_zero, h.nodes]
  rw [Table.estimatedMemory, Table.estimatedMemory, hashSize, hashSize, h.array, h.log2Size, hempty]

theorem sameSize_setArray (t : Table) (idx : ℕ) (value : Val) : SameSize t (t.setArray idx value) :=
  ⟨by simp [Table.setArray], rfl, rfl⟩

theorem sameSize_setValue (t : Table) (idx : ℕ) (value : Val) : SameSize t (t.setValue idx value) :=
  ⟨rfl, by simp [setValue], rfl⟩

theorem SameSize.trans (h : SameSize t t') (h' : SameSize t' u) : SameSize t u :=
  ⟨h'.array.trans h.array, h'.nodes.trans h.nodes, h'.log2Size.trans h.log2Size⟩

theorem sameSize_nilHashEntries : ∀ (indices : List ℕ) (t : Table), SameSize t (t.nilHashEntries indices)
  | [], t => .refl t
  | idx :: indices, t => by
    rw [nilHashEntries, List.foldl_cons]
    split
    · exact (sameSize_setValue t idx .nil).trans (sameSize_nilHashEntries indices _)
    · exact sameSize_nilHashEntries indices t

theorem sameSize_updateExisting {found : Bool} (h : t.updateExistingHashSlot key value strings = some (t', found)) :
    SameSize t t' := by
  rw [updateExistingHashSlot] at h
  split at h
  · cases h
    exact .refl t
  · simp only [bind, Option.bind_eq_some_iff] at h
    obtain ⟨_ | i, -, h⟩ := h
    · cases h
      exact .refl t
    · cases h
      exact sameSize_setValue t i value

/-- `new_key` moves and changes nodes, it makes none. -/
theorem sameSize_newKey {r : Except LuaError ℕ} (h : t.newKey key strings = some (t', r)) : SameSize t t' := by
  rw [newKey] at h
  split at h
  · cases h
    exact .refl t
  simp only [bind, Option.bind_eq_some_iff] at h
  obtain ⟨occupant, -, h⟩ := h
  split at h
  · cases h
    exact ⟨rfl, List.length_set .., rfl⟩
  split at h
  · cases h
    exact ⟨rfl, List.length_set .., rfl⟩
  simp only [Option.bind_eq_some_iff] at h
  obtain ⟨⟨lastFree, _ | free⟩, -, h⟩ := h
  · cases h
    exact ⟨rfl, rfl, rfl⟩
  dsimp only at h
  split at h
  · cases h
    exact ⟨rfl, by simp, rfl⟩
  · simp only [Option.bind_eq_some_iff] at h
    obtain ⟨prev, -, occ, -, h⟩ := h
    cases h
    exact ⟨rfl, by simp, rfl⟩

/-- What is known of the outcome of an assignment: where it succeeds, how much the table has grown. -/
def Reports (t : Table) (r : TableResult ℕ) : Prop :=
  r.1.HashSized ∧ ∀ d, r.2 = .ok d → r.1.estimatedMemory = t.estimatedMemory + d

theorem SameSize.reports (h : SameSize t t') (ht : t.HashSized) : t.Reports (t', .ok 0) := by
  refine ⟨h.hashSized ht, fun d hd => ?_⟩
  cases hd
  exact h.estimatedMemory

theorem reports_append (ht : t.HashSized) (value : Val) :
    t.Reports ({ t with array := t.array ++ [value] }, .ok 16) := by
  refine ⟨ht, fun d hd => ?_⟩
  cases hd
  have hhash : ({ t with array := t.array ++ [value] } : Table).hashSize = t.hashSize := rfl
  simp only [Table.estimatedMemory, hhash, List.length_append, List.length_singleton]
  omega

theorem reports_insertFirst (ht : t.HashSized) (hfirst : t.insertFirstHashNode key value strings = (t', true)) :
    t.Reports (t', .ok 64) := by
  rw [insertFirstHashNode] at hfirst
  split at hfirst
  · cases hfirst
  next hne =>
  have hnil : t.nodes = [] := by simpa using hne
  cases hfirst
  refine ⟨fun hnodes => ?_, fun d hd => ?_⟩
  · have hlen := congrArg List.length hnodes
    simp at hlen
  · cases hd
    simp only [Table.estimatedMemory, hashSize, ht hnil, hnil]
    simp

/-- An assignment reports its growth, unless `onFull` takes over from a table of the same size. -/
theorem rawSetWith_reports {onFull : Table → LuaError → Option (TableResult ℕ)} {r : TableResult ℕ} (ht : t.HashSized)
    (hset : rawSetWith onFull t key value strings = some r) :
    t.Reports r ∨ ∃ u e, onFull u e = some r ∧ SameSize t u := by
  rw [rawSetWith.eq_def] at hset
  split at hset
  · cases hset
    exact .inl ⟨ht, fun d hd => by cases hd⟩
  split at hset
  · cases hset
    exact .inl ⟨ht, fun d hd => by cases hd⟩
  split at hset
  · cases hset
    exact .inl ((sameSize_setArray t _ value).reports ht)
  simp only [bind, Option.bind_eq_some_iff] at hset
  obtain ⟨⟨u, found⟩, hup, hset⟩ := hset
  have hu := sameSize_updateExisting hup
  have huReports : ∀ {r}, u.Reports r → t.Reports r := fun hr => ⟨hr.1, fun d hd => by rw [hr.2 d hd, hu.estimatedMemory]⟩
  dsimp only at hset
  split at hset
  · cases hset
    exact .inl (hu.reports ht)
  split at hset
  · cases hset
    exact .inl (hu.reports ht)
  split at hset
  · cases hset
    exact .inl (huReports (reports_append (hu.hashSized ht) value))
  split at hset
  · next hinserted =>
    cases hset
    exact .inl (huReports (reports_insertFirst (hu.hashSized ht) (Prod.ext rfl hinserted)))
  next hinserted =>
  have hsame : SameSize t (u.insertFirstHashNode key value strings).1 := by
    rw [insertFirstHashNode] at hinserted ⊢
    split
    · exact hu
    · next hne => exact absurd (by rw [if_neg hne]) hinserted
  simp only [Option.bind_eq_some_iff] at hset
  obtain ⟨⟨v, _ | idx⟩, hnew, hset⟩ := hset
  · exact .inr ⟨v, _, hset, hsame.trans (sameSize_newKey hnew)⟩
  · cases hset
    exact .inl (((hsame.trans (sameSize_newKey hnew)).trans (sameSize_setValue v idx value)).reports ht)

theorem HashSized.rawSetNoRehash {r : TableResult ℕ} (ht : t.HashSized)
    (hset : t.rawSetNoRehash key value strings = some r) : r.1.HashSized := by
  rcases rawSetWith_reports ht hset with hr | ⟨u, e, hr, hsame⟩
  · exact hr.1
  · cases hr
    exact hsame.hashSized ht

theorem HashSized.moveDisplaced : ∀ {idxs : List ℕ} {t : Table} {r : TableResult Unit}, t.HashSized →
    moveDisplaced strings idxs t = some r → r.1.HashSized
  | [], t, r, ht, h => by
    cases h
    exact ht
  | i :: idxs, t, r, ht, h => by
    simp only [Table.moveDisplaced, bind, Option.bind_eq_some_iff] at h
    obtain ⟨val, -, h⟩ := h
    split at h
    · exact HashSized.moveDisplaced ht h
    · simp only [Option.bind_eq_some_iff] at h
      obtain ⟨⟨u, e | idx⟩, hnew, h⟩ := h
      · cases h
        exact (sameSize_newKey hnew).hashSized ht
      · exact HashSized.moveDisplaced (((sameSize_newKey hnew).trans (sameSize_setValue u idx val)).hashSized ht) h

theorem HashSized.reinsert : ∀ {nodes : List Node} {t : Table} {r : TableResult Unit}, t.HashSized →
    reinsert strings nodes t = some r → r.1.HashSized
  | [], t, r, ht, h => by
    cases h
    exact ht
  | n :: nodes, t, r, ht, h => by
    rw [Table.reinsert] at h
    split at h
    · exact HashSized.reinsert ht h
    · simp only [bind, Option.bind_eq_some_iff] at h
      obtain ⟨⟨u, e | d⟩, hset, h⟩ := h
      · cases h
        exact ht.rawSetNoRehash hset
      · exact HashSized.reinsert (ht.rawSetNoRehash hset) h

theorem hashSized_withHashPart {room : ℕ} (h : t.withHashPart room = some u) : u.HashSized := by
  rw [withHashPart] at h
  split at h
  · cases h
    exact fun _ => rfl
  · dsimp only at h
    split at h
    · cases h
    · cases h
      intro hnil
      have hlen := congrArg List.length hnil
      rw [List.length_replicate] at hlen
      exact absurd hlen (Nat.two_pow_pos _).ne'

theorem HashSized.rehash {r : TableResult Unit} (ht : t.HashSized) (h : t.rehash key strings = some r) :
    r.1.HashSized := by
  simp only [Table.rehash, resize, bind] at h
  split at h
  · cases h
  split at h
  · cases h
    exact ht
  next u hu =>
  simp only [Option.bind_eq_some_iff] at h
  obtain ⟨⟨v, e | _⟩, hmove, h⟩ := h
  · cases h
    exact (hashSized_withHashPart hu).moveDisplaced hmove
  · refine HashSized.reinsert ?_ h
    have hv : v.HashSized := (hashSized_withHashPart hu).moveDisplaced hmove
    split
    · exact hv
    · exact hv

/-- Around a rehash the table is measured before and after. -/
theorem rawSetImpl_reports {r : TableResult ℕ} (ht : t.HashSized) (hset : t.rawSetImpl key value strings = some r) :
    r.1.HashSized ∧ ∀ d, r.2 = .ok d → d = r.1.estimatedMemory - t.estimatedMemory := by
  rcases rawSetWith_reports ht hset with hr | ⟨u, e, hfull, hu⟩
  · exact ⟨hr.1, fun d hd => by rw [hr.2 d hd, Nat.add_sub_cancel_left]⟩
  · simp only [bind, Option.bind_eq_some_iff] at hfull
    obtain ⟨⟨v, e | _⟩, hrehash, hfull⟩ := hfull
    · cases hfull
      exact ⟨(hu.hashSized ht).rehash hrehash, fun d hd => by cases hd⟩
    · have hv : v.HashSized := (hu.hashSized ht).rehash hrehash
      simp only [Option.bind_eq_some_iff] at hfull
      obtain ⟨⟨w, e | d⟩, hagain, hfull⟩ := hfull
      · cases hfull
        exact ⟨hv.rawSetNoRehash hagain, fun d hd => by cases hd⟩
      · have hw : w.HashSized := hv.rawSetNoRehash hagain
        cases hfull
        refine ⟨hw, fun d' hd => ?_⟩
        cases hd
        rw [hu.estimatedMemory]

theorem rawSetWithMemoryDelta_reports {r : TableResult ℕ} (ht : t.HashSized)
    (hset : t.rawSetWithMemoryDelta key value strings = some r) :
    r.1.HashSized ∧ ∀ d, r.2 = .ok d → d = r.1.estimatedMemory - t.estimatedMemory := by
  rw [rawSetWithMemoryDelta] at hset
  split at hset
  · cases hset
    exact ⟨ht, fun d hd => by cases hd⟩
  · dsimp only at hset
    split at hset
    · exact rawSetImpl_reports (t := { t with flags := 0 }) ht hset
    · exact rawSetImpl_reports ht hset

end Table

/-! ### Runs -/

/-- A table in use, and the strings. -/
structure TableLife where
  table : Table
  strings : StringArena

inductive TableLifeOp where
  | rawSet (key value : Val)
  | setList (c : ℕ) (values : List Val)
  | setIntExisting (key : ℤ) (value : Val)
  | swapArrayInts (left right : ℤ)
  | nilArrayEntry (idx : ℕ)
  | nilHashEntries (indices : List ℕ)
  | makeReadOnly
  /-- The cache of absent metamethods. -/
  | setFlags (flags : UInt8)
  | strings (strings' : StringArena)

namespace TableLife

/-- The table of `NEWTABLE`. -/
def new (arraySize hashSize : ℕ) (strings : StringArena) : Option TableLife :=
  (Table.withSizes arraySize hashSize).map fun table => { table, strings }

/-- An assignment that fails leaves what it did to the table. -/
def step (s : TableLife) : TableLifeOp → Option TableLife
  | .rawSet key value => (s.table.rawSet key value s.strings).map fun (table, _) => { s with table }
  | .setList c values => (s.table.setList c values).map fun table => { s with table }
  | .setIntExisting key value => (s.table.setIntExisting key value).map fun (table, _) => { s with table }
  | .swapArrayInts left right => some { s with table := (s.table.swapArrayInts left right).getD s.table }
  | .nilArrayEntry idx => some { s with table := s.table.nilArrayEntry idx }
  | .nilHashEntries indices => some { s with table := s.table.nilHashEntries indices }
  | .makeReadOnly => some { s with table := { s.table with readOnly := true } }
  | .setFlags flags => some { s with table := { s.table with flags } }
  | .strings strings' => some { s with strings := strings' }

variable {arraySize hashSize : ℕ} {arena : StringArena} {start s s' : TableLife} {ops : List TableLifeOp} {key value : Val}

/-! ### The growth that is reported -/

theorem hashSized_new (hnew : new arraySize hashSize arena = some start) : start.table.HashSized := by
  obtain ⟨t, ht, rfl⟩ := Option.map_eq_some_iff.mp hnew
  rw [Table.withSizes] at ht
  split at ht
  · cases ht
  dsimp only at ht
  split at ht
  · cases ht
    exact fun _ => rfl
  split at ht
  · cases ht
  · cases ht
    intro hnil
    have hlen := congrArg List.length hnil
    rw [List.length_replicate] at hlen
    exact absurd hlen (Nat.two_pow_pos _).ne'

theorem hashSized_step {op : TableLifeOp} (h : s.table.HashSized) (hstep : s.step op = some s') :
    s'.table.HashSized := by
  cases op with
  | rawSet key value =>
    obtain ⟨⟨t', r⟩, hset, rfl⟩ := Option.map_eq_some_iff.mp hstep
    simp only [Table.rawSet, bind, Option.bind_eq_some_iff] at hset
    obtain ⟨⟨u, e | d⟩, hset, hr⟩ := hset
    · cases hr
      exact (Table.rawSetWithMemoryDelta_reports h hset).1
    · cases hr
      exact (Table.rawSetWithMemoryDelta_reports h hset).1
  | setList c values =>
    obtain ⟨t', hset, rfl⟩ := Option.map_eq_some_iff.mp hstep
    simp only [Table.setList] at hset
    split at hset
    · cases hset
    split at hset
    · cases hset
    cases hset
    obtain ⟨array, heq, -⟩ := Table.setArraySlots_spec values
      (s.table.ensureArrayCapacity (Table.setListOffset c + values.length)) (Table.setListOffset c)
    rw [heq]
    exact h
  | setIntExisting key value =>
    obtain ⟨⟨t', r⟩, hset, rfl⟩ := Option.map_eq_some_iff.mp hstep
    rw [Table.setIntExisting] at hset
    split at hset
    · cases hset
      exact (Table.sameSize_setArray ..).hashSized h
    split at hset
    · cases hset
      exact h
    simp only [bind, Option.bind_eq_some_iff] at hset
    obtain ⟨_ | i, -, hset⟩ := hset
    · cases hset
      exact h
    · cases hset
      exact (Table.sameSize_setValue ..).hashSized h
  | swapArrayInts left right =>
    cases hstep
    obtain ⟨array, heq, -⟩ := Table.swapArrayInts_spec s.table left right
    simp only [heq]
    exact h
  | nilArrayEntry idx =>
    cases hstep
    rw [Table.nilArrayEntry]
    split
    · exact (Table.sameSize_setArray ..).hashSized h
    · exact h
  | nilHashEntries indices =>
    cases hstep
    exact (Table.sameSize_nilHashEntries indices s.table).hashSized h
  | makeReadOnly =>
    cases hstep
    exact h
  | setFlags flags =>
    cases hstep
    exact h
  | strings strings' =>
    cases hstep
    exact h

/-- In every run, what an assignment reports is how much the estimate of the memory grows, zero if it shrinks. -/
theorem rawSet_delta (hnew : new arraySize hashSize arena = some start) (hrun : Run step (fun _ _ => True) start ops s)
    {t' : Table} {d : ℕ} (hset : s.table.rawSetWithMemoryDelta key value s.strings = some (t', .ok d)) :
    (d : ℤ) = max 0 ((t'.estimatedMemory : ℤ) - s.table.estimatedMemory) := by
  have hs : s.table.HashSized :=
    hrun.invariant (fun s => s.table.HashSized) (fun _ _ _ h _ hstep => hashSized_step h hstep) (hashSized_new hnew)
  have hd : d = t'.estimatedMemory - s.table.estimatedMemory := (Table.rawSetWithMemoryDelta_reports hs hset).2 d rfl
  omega

/-- The third key makes a rehash double the hash part. -/
theorem rawSet_delta_rehash : ∃ start s t', new 0 0 {} = some start ∧
    Run step (fun _ _ => True) start [.rawSet (.bool true) (.bool true), .rawSet (.bool false) (.bool true)] s ∧
    s.table.rawSetWithMemoryDelta (.lightUserdata 7) (.bool true) s.strings = some (t', .ok 64) ∧
      ((64 : ℕ) : ℤ) = max 0 ((t'.estimatedMemory : ℤ) - s.table.estimatedMemory) := by
  have hrun : ∃ s t', Run step (fun _ _ => True) ⟨{}, {}⟩
      [.rawSet (.bool true) (.bool true), .rawSet (.bool false) (.bool true)] s ∧
      s.table.rawSetWithMemoryDelta (.lightUserdata 7) (.bool true) s.strings = some (t', .ok 64) :=
    ⟨_, _, .cons trivial rfl (.cons trivial rfl (.nil _)), rfl⟩
  have hnew : new 0 0 {} = some ⟨{}, {}⟩ := rfl
  obtain ⟨s, t', hs, hset⟩ := hrun
  exact ⟨_, s, t', hnew, hs, hset, rawSet_delta hnew hs hset⟩

/-! ### Assignments that fail -/

/-- Programs hold no freed strings, the library passes positions of a sequence, and the collector keeps the strings
    that are keys of entries. -/
def Permitted (s : TableLife) : TableLifeOp → Prop
  | .rawSet key _ => key.isStale s.strings = false
  | .setIntExisting key _ => key.natAbs < 2 ^ 53
  | .strings strings' => s.table.StringsKept s.strings strings'
  | _ => True

/-- What is permitted, with items of `SETLIST` that fit, and not beyond the slots that a rehash counts. -/
def Moderate (s : TableLife) (op : TableLifeOp) : Prop :=
  s.Permitted op ∧ match op with
    | .setList c values => Table.setListOffset c + values.length ≤ maxASize ∧ s.table.Fits c values
    | _ => True

/-- The table is sound, and not longer than a rehash makes it. -/
structure Sound (s : TableLife) : Prop where
  inv : s.table.Inv s.strings
  small : s.table.Small

theorem sound_new (harray : arraySize ≤ maxASize) (hhash : hashSize ≤ maxASize)
    (hnew : new arraySize hashSize arena = some start) : start.Sound := by
  obtain ⟨t, ht, rfl⟩ := Option.map_eq_some_iff.mp hnew
  refine ⟨(Table.withSizes_spec ht arena).1, ?_⟩
  rw [Table.withSizes] at ht
  split at ht
  · cases ht
  dsimp only at ht
  split at ht
  · cases ht
    exact ⟨by rw [List.length_replicate]; exact harray, Nat.zero_le _⟩
  split at ht
  · cases ht
  · cases ht
    have hlog : ceilLog2 hashSize ≤ maxBits := ceilLog2_le.mpr hhash
    refine ⟨by rw [List.length_replicate]; exact harray, ?_⟩
    rw [List.length_replicate]
    exact Nat.pow_le_pow_right (by omega) hlog

theorem Sound.withArray (h : s.Sound) {array : List Val} (hlen : array.length = s.table.array.length) :
    Sound { s with table := { s.table with array } } :=
  ⟨h.inv.withArray hlen, hlen ▸ h.small.array_le, h.small.nodes_le⟩

/-- `set_int_existing` finds the slot or the node of its key. -/
theorem Sound.setIntExisting (h : s.Sound) {i : ℤ} (hi : i.natAbs < 2 ^ 53) {t' : Table} {found : Bool}
    (hset : s.table.setIntExisting i value = some (t', found)) : Sound { s with table := t' } := by
  have hint := Table.intKey_ofInt hi
  rw [Table.setIntExisting] at hset
  split at hset
  · cases hset
    exact h.withArray (List.length_set ..)
  next hidx =>
  split at hset
  · cases hset
    exact h
  simp only [bind, Option.bind_eq_some_iff] at hset
  obtain ⟨_ | j, hwalk, hset⟩ := hset
  · cases hset
    exact h
  · cases hset
    obtain ⟨n, hn, htest⟩ := Table.walk_found hwalk
    have hnk : n.key.rawEq (.num (F64.ofInt i)) = true := by
      cases hkey : n.key with
      | num m =>
        rw [hkey] at htest
        exact htest
      | _ => rw [hkey] at htest; cases htest
    have hslot : s.table.slot (.num (F64.ofInt i)) = none := by
      rw [Table.slot, hint]
      exact hidx
    have hassigned := h.inv.setNode (Table.live_ofInt i s.strings) hslot hn hnk value
    exact ⟨hassigned.inv, hassigned.small h.small⟩

theorem Sound.nilHashEntries : ∀ {indices : List ℕ} {s : TableLife}, s.Sound →
    Sound { s with table := s.table.nilHashEntries indices }
  | [], s, h => h
  | idx :: indices, s, h => by
    rw [Table.nilHashEntries, List.foldl_cons]
    split
    · have hnil : Sound { s with table := s.table.setValue idx .nil } :=
        ⟨h.inv.nilNode idx, h.small.array_le, by
          rw [(Table.sameSize_setValue s.table idx .nil).nodes]
          exact h.small.nodes_le⟩
      exact Sound.nilHashEntries hnil
    · exact Sound.nilHashEntries h

theorem Sound.step {op : TableLifeOp} (h : s.Sound) (hop : s.Moderate op) (hstep : s.step op = some s') : s'.Sound := by
  cases op with
  | rawSet key value =>
    obtain ⟨⟨t', r⟩, hset, rfl⟩ := Option.map_eq_some_iff.mp hstep
    obtain ⟨r', hr, hout⟩ := h.inv.rawSet_spec h.small hop.1 value
    rw [hset, Option.some.injEq] at hr
    subst hr
    exact ⟨hout.inv, hout.small⟩
  | setList c values =>
    obtain ⟨t', hset, rfl⟩ := Option.map_eq_some_iff.mp hstep
    refine ⟨h.inv.setList_inv hop.2.2 hset, ?_⟩
    obtain ⟨array, rfl, hlen, -⟩ := Table.setList_spec h.inv hset
    exact ⟨hlen.le.trans (Nat.max_le.mpr ⟨h.small.array_le, hop.2.1⟩), h.small.nodes_le⟩
  | setIntExisting key value =>
    obtain ⟨⟨t', found⟩, hset, rfl⟩ := Option.map_eq_some_iff.mp hstep
    exact h.setIntExisting hop.1 hset
  | swapArrayInts left right =>
    cases hstep
    obtain ⟨array, heq, hlen⟩ := Table.swapArrayInts_spec s.table left right
    rw [heq]
    exact h.withArray hlen
  | nilArrayEntry idx =>
    cases hstep
    rw [Table.nilArrayEntry]
    split
    · exact h.withArray (List.length_set ..)
    · exact h
  | nilHashEntries indices =>
    cases hstep
    exact h.nilHashEntries
  | makeReadOnly =>
    cases hstep
    exact ⟨⟨h.inv.nodes_inv, h.inv.size, h.inv.lastFree_le, h.inv.scanned, h.inv.array_le, h.inv.shadow⟩,
      h.small.array_le, h.small.nodes_le⟩
  | setFlags flags =>
    cases hstep
    exact ⟨⟨h.inv.nodes_inv, h.inv.size, h.inv.lastFree_le, h.inv.scanned, h.inv.array_le, h.inv.shadow⟩,
      h.small.array_le, h.small.nodes_le⟩
  | strings strings' =>
    cases hstep
    exact ⟨h.inv.strings_step hop.1, h.small⟩

/-- In every run whose parts stay within `MAXASIZE` and whose `SETLIST` items fit, an assignment that fails leaves
    every lookup as it was, and the table sound. -/
theorem rawSet_atomic (harray : arraySize ≤ maxASize) (hhash : hashSize ≤ maxASize)
    (hnew : new arraySize hashSize arena = some start) (hrun : Run step Moderate start ops s)
    (hk : key.isStale s.strings = false) {t' : Table} {e : LuaError}
    (hset : s.table.rawSet key value s.strings = some (t', .error e)) :
    t'.Inv s.strings ∧ ∀ k, t'.get k s.strings = s.table.get k s.strings := by
  have hs : s.Sound :=
    hrun.invariant Sound (fun _ _ _ h hop hstep => h.step hop hstep) (sound_new harray hhash hnew)
  exact hs.inv.rawSet_error hs.small hk hset

/-- A table that became read-only refuses an assignment. -/
theorem rawSet_atomic_readOnly : ∃ start s t' e, new 0 0 {} = some start ∧
    Run step Moderate start [.rawSet (.bool true) (.bool true), .makeReadOnly] s ∧
    s.table.rawSet (.bool true) .nil s.strings = some (t', .error e) ∧ t'.Inv s.strings ∧
      ∀ k, t'.get k s.strings = s.table.get k s.strings := by
  have hrun : ∃ s, Run step Moderate ⟨{}, {}⟩ [.rawSet (.bool true) (.bool true), .makeReadOnly] s ∧
      s.table.readOnly = true :=
    ⟨_, .cons ⟨rfl, trivial⟩ rfl (.cons ⟨trivial, trivial⟩ rfl (.nil _)), rfl⟩
  obtain ⟨s, hs, hro⟩ := hrun
  have hset : s.table.rawSet (.bool true) .nil s.strings =
      some (s.table, .error ⟨"attempt to modify a read-only table"⟩) := by
    rw [Table.rawSet, Table.rawSetWithMemoryDelta, if_pos hro]
    rfl
  have hnew : new 0 0 {} = some ⟨{}, {}⟩ := rfl
  exact ⟨_, s, _, _, hnew, hs, hset, rawSet_atomic (Nat.zero_le _) (Nat.zero_le _) hnew hs rfl hset⟩

end TableLife

/-! ### Beyond `MAXASIZE`

The items beyond the slots that a rehash counts are moved to a hash part that has no room for them. -/

namespace Table

/-- Slots written from `idx` to the end. -/
theorem setArraySlots_array : ∀ (values : List Val) (t : Table) (idx : ℕ), idx + values.length = t.array.length →
    t.setArraySlots idx values = { t with array := t.array.take idx ++ values }
  | [], t, idx, h => by
    rw [List.length_nil, Nat.add_zero] at h
    rw [setArraySlots, List.append_nil, h, List.take_length]
  | value :: values, t, idx, h => by
    rw [List.length_cons] at h
    have hlt : idx < t.array.length := by omega
    have hlen : idx + 1 + values.length = (t.setArray idx value).array.length := by
      rw [setArray, List.length_set]
      omega
    rw [setArraySlots, setArraySlots_array values _ (idx + 1) hlen]
    simp only [setArray, Table.mk.injEq, and_true]
    rw [List.take_add_one, List.getElem?_set_self hlt, List.take_set_of_le (Nat.le_refl idx)]
    simp

theorem numUseArrayLoop_nil {array : List Val} (hnil : ∀ i < maxASize, array.getD i .nil = .nil) :
    ∀ (lgs : List ℕ) (i ause : ℕ) (nums : List ℕ), (∀ lg ∈ lgs, lg ≤ maxBits) → 1 ≤ i →
      numUseArrayLoop array lgs i ause nums = (nums, ause)
  | [], i, ause, nums, _, _ => rfl
  | lg :: lgs, i, ause, nums, hlgs, hi => by
    rw [numUseArrayLoop]
    dsimp only
    split
    · rfl
    · next hlim =>
      have hnone : ((List.range' i (min (2 ^ lg) array.length + 1 - i)).filter fun j =>
          !(array.getD (j - 1) .nil).isNil) = [] := by
        refine List.filter_eq_nil_iff.mpr fun j hj => ?_
        have hmem := List.mem_range'_1.mp hj
        have hpow : 2 ^ lg ≤ maxASize := Nat.pow_le_pow_right (by omega) (hlgs lg (List.mem_cons_self ..))
        rw [hnil (j - 1) (by omega)]
        exact Bool.false_ne_true
      have hsame : nums.modify lg (· + 0) = nums := List.modify_id lg nums
      rw [countSlots_eq, hnone, List.length_nil]
      dsimp only
      rw [hsame]
      exact numUseArrayLoop_nil hnil lgs _ _ _ (fun lg' hlg' => hlgs lg' (List.mem_cons_of_mem _ hlg')) (by omega)

theorem moveDisplaced_nil {strings : StringArena} {t : Table} {rest : List ℕ} : ∀ {idxs : List ℕ},
    (∀ i ∈ idxs, t.array[i]? = some .nil) → moveDisplaced strings (idxs ++ rest) t = moveDisplaced strings rest t
  | [], _ => rfl
  | i :: idxs, h => by
    rw [List.cons_append, moveDisplaced, h i (List.mem_cons_self ..)]
    exact moveDisplaced_nil fun j hj => h j (List.mem_cons_of_mem _ hj)

variable {strings : StringArena} {t u : Table} {i : ℕ} {idxs : List ℕ} {v : Val}

theorem moveDisplaced_ok (hv : t.array[i]? = some v) (hne : v.isNil = false) {idx : ℕ}
    (hnew : t.newKey (.num (F64.ofInt (i + 1))) strings = some (u, .ok idx)) :
    moveDisplaced strings (i :: idxs) t = moveDisplaced strings idxs (u.setValue idx v) := by
  simp only [moveDisplaced, hv, bind, Option.bind_some, hne, Bool.false_eq_true, if_false, hnew]

theorem moveDisplaced_error (hv : t.array[i]? = some v) (hne : v.isNil = false) {e : LuaError}
    (hnew : t.newKey (.num (F64.ofInt (i + 1))) strings = some (u, .error e)) :
    moveDisplaced strings (i :: idxs) t = some (u, .error e) := by
  simp only [moveDisplaced, hv, bind, Option.bind_some, hne, Bool.false_eq_true, if_false, hnew]

theorem rawSetWith_full {onFull : Table → LuaError → Option (TableResult ℕ)} {key value : Val} {e : LuaError}
    (hk : key.Live strings) (hslot : t.slot key = none)
    (hup : t.updateExistingHashSlot key value strings = some (t, false)) (hv : value.isNil = false)
    (happ : t.denseArrayAppendIndex key = none) (hne : t.nodes ≠ []) (hnew : t.newKey key strings = some (u, .error e)) :
    rawSetWith onFull t key value strings = onFull u e := by
  have hfirst : t.insertFirstHashNode key value strings = (t, false) := by
    rw [insertFirstHashNode, if_pos (by simp [hne])]
  rw [rawSetWith_live hk, hslot]
  simp only [hup, hv, happ, hfirst, hnew, bind, Option.bind_some, Option.isSome_none, Bool.false_eq_true, if_false]

/-- A resize that fails while the displaced items are moved stops there. -/
theorem resize_error {w : Table} {size room : ℕ} {e : LuaError} (hle : size ≤ t.array.length)
    (hhash : t.withHashPart room = some u)
    (hmove : moveDisplaced strings (List.range' size (t.array.length - size)) u = some (w, .error e)) :
    t.resize size room strings = some (w, .error e) := by
  have hsame : ({ t with array := t.array ++ List.replicate (size - t.array.length) .nil } : Table) = t := by
    rw [Nat.sub_eq_zero_of_le hle, List.replicate_zero, List.append_nil]
  simp only [resize, hsame, hhash, hmove, bind, Option.bind_some]

end Table

namespace TableLife

/-- A field `true`, and items. -/
def withItems (array : List Val) : Table := { array, nodes := [⟨.bool true, .bool true, none⟩], lastFree := 1 }

/-- The constructor `{[true] = true, f()}`. -/
theorem run_withItems {items : List Val} (hle : items.length ≤ maxVecLength) :
    Run step Permitted ⟨{ nodes := [Node.empty], lastFree := 1 }, {}⟩
      [.rawSet (.bool true) (.bool true), .setList 1 items] ⟨withItems items, {}⟩ := by
  have hgrown : (withItems []).ensureArrayCapacity (0 + items.length) =
      withItems (List.replicate items.length .nil) := by
    rw [Table.ensureArrayCapacity, Nat.zero_add]
    rfl
  have hset : (withItems []).setList 1 items =
      some (withItems items) := by
    have hoffset : Table.setListOffset 1 = 0 := rfl
    have hfit : ¬ ((withItems []).array.length < 0 + items.length ∧
        maxVecLength < 0 + items.length) := by
      omega
    simp only [Table.setList, hoffset]
    rw [if_neg Nat.one_ne_zero, if_neg hfit, hgrown, Table.setArraySlots_array]
    · rfl
    · simp [withItems]
  have hfield : step ⟨{ nodes := [Node.empty], lastFree := 1 }, {}⟩ (.rawSet (.bool true) (.bool true)) =
      some ⟨withItems [], {}⟩ := rfl
  refine .cons rfl hfield (.cons trivial ?_ (.nil _))
  rw [step, hset]
  rfl

/-- What a rehash leaves when two of three items beyond `MAXASIZE` have filled the hash part. -/
def displaced (array : List Val) (nodes : List Node) (lastFree : ℕ) : Table := { array, nodes, lastFree, log2Size := 1 }

theorem newKey_displaced (array : List Val) {nodes nodes' : List Node} {lastFree lastFree' : ℕ} {r : Except LuaError ℕ}
    (h : (displaced [] nodes lastFree).newKey key {} = some (displaced [] nodes' lastFree', r)) :
    (displaced array nodes lastFree).newKey key {} = some (displaced array nodes' lastFree', r) := by
  have heq := Table.newKey_array (displaced [] nodes lastFree) array key {}
  rw [h] at heq
  exact heq

/-- The hash part is full. -/
theorem rawSetWith_withItems (onFull : Table → LuaError → Option (TableResult ℕ)) (items : List Val) :
    Table.rawSetWith onFull (withItems items) (.bool false) (.bool true) {} =
      onFull { withItems items with lastFree := 0 } ⟨"table overflow"⟩ := by
  have hup : (withItems items).updateExistingHashSlot (.bool false) (.bool true) {} = some (withItems items, false) := by
    have hwalk : Table.walk (withItems items).nodes (fun k => k.rawEq (.bool false)) (withItems items).nodes.length
        (some ((withItems items).mainPosition (.bool false) {})) = some none := by
      change Table.walk (withItems []).nodes (fun k => k.rawEq (.bool false)) (withItems []).nodes.length
        (some ((withItems []).mainPosition (.bool false) {})) = some none
      decide +kernel
    rw [Table.updateExistingHashSlot, hwalk]
    rfl
  have hnew : (withItems items).newKey (.bool false) {} =
      some ({ withItems items with lastFree := 0 }, .error ⟨"table overflow"⟩) := by
    have hnone : (withItems []).newKey (.bool false) {} =
        some ({ withItems [] with lastFree := 0 }, .error ⟨"table overflow"⟩) := by decide +kernel
    have heq := Table.newKey_array (withItems []) items (.bool false) {}
    rw [hnone] at heq
    exact heq
  exact Table.rawSetWith_full ⟨by simp, rfl, rfl⟩ rfl hup rfl rfl (by simp [withItems]) hnew

def displacedNode (i : ℕ) (value : Val) (next : Option ℕ) : Node := ⟨.num (F64.ofInt (i + 1)), value, next⟩

/-- With nothing but nil up to `MAXASIZE` and three items beyond, the rehash for one more field fails. -/
theorem rehash_wide {items : List Val} (hlen : items.length = maxASize + 3)
    (hnil : ∀ i < maxASize, items[i]? = some .nil) (hitem : ∀ i < 3, items[maxASize + i]? = some (.bool true)) :
    ({ withItems items with lastFree := 0 } : Table).rehash (.bool false) {} =
      some (displaced items [displacedNode maxASize (.bool true) (some 1), displacedNode (maxASize + 1) (.bool true) none] 0,
        .error ⟨"table overflow"⟩) := by
  have hcount : ({ withItems items with lastFree := 0 } : Table).numUseArray (List.replicate (maxBits + 1) 0) =
      (List.replicate (maxBits + 1) 0, 0) := by
    refine Table.numUseArrayLoop_nil (fun i hi => ?_) _ _ _ _ (fun lg hlg => ?_) (Nat.le_refl 1)
    · rw [List.getD_eq_getElem?_getD]
      exact congrArg (·.getD .nil) (hnil i hi)
    · exact Nat.lt_succ_iff.mp (List.mem_range.mp hlg)
  have hresize : ({ withItems items with lastFree := 0 } : Table).rehash (.bool false) {} =
      ({ withItems items with lastFree := 0 } : Table).resize 0 2 {} := by
    rw [Table.rehash, hcount]
    rfl
  have hmove : Table.moveDisplaced {} (List.range' 0 items.length) (displaced items [Node.empty, Node.empty] 2) =
      some (displaced items [displacedNode maxASize (.bool true) (some 1),
        displacedNode (maxASize + 1) (.bool true) none] 0, .error ⟨"table overflow"⟩) := by
    rw [hlen, ← List.range'_append_1, Nat.zero_add, Table.moveDisplaced_nil fun i hi => hnil i (by
      have := List.mem_range'_1.mp hi
      omega)]
    have h0 : (displaced [] [Node.empty, Node.empty] 2).newKey (.num (F64.ofInt ((maxASize : ℕ) + 1))) {} =
        some (displaced [] [displacedNode maxASize .nil none, Node.empty] 2, .ok 0) := by decide +kernel
    have h1 : (displaced [] [displacedNode maxASize (.bool true) none, Node.empty] 2).newKey
        (.num (F64.ofInt ((maxASize + 1 : ℕ) + 1))) {} =
        some (displaced [] [displacedNode maxASize (.bool true) (some 1), displacedNode (maxASize + 1) .nil none] 1,
          .ok 1) := by decide +kernel
    have h2 : (displaced [] [displacedNode maxASize (.bool true) (some 1),
        displacedNode (maxASize + 1) (.bool true) none] 1).newKey (.num (F64.ofInt ((maxASize + 2 : ℕ) + 1))) {} =
        some (displaced [] [displacedNode maxASize (.bool true) (some 1),
          displacedNode (maxASize + 1) (.bool true) none] 0, .error ⟨"table overflow"⟩) := by decide +kernel
    have hrange : List.range' maxASize 3 = [maxASize, maxASize + 1, maxASize + 2] := rfl
    have hset0 : (displaced items [displacedNode maxASize .nil none, Node.empty] 2).setValue 0 (.bool true) =
        displaced items [displacedNode maxASize (.bool true) none, Node.empty] 2 := rfl
    have hset1 : (displaced items [displacedNode maxASize (.bool true) (some 1),
        displacedNode (maxASize + 1) .nil none] 1).setValue 1 (.bool true) =
        displaced items [displacedNode maxASize (.bool true) (some 1), displacedNode (maxASize + 1) (.bool true) none] 1 :=
      rfl
    rw [hrange, Table.moveDisplaced_ok (hitem 0 (by omega)) rfl (newKey_displaced items h0), hset0,
      Table.moveDisplaced_ok (hitem 1 (by omega)) rfl (newKey_displaced items h1), hset1,
      Table.moveDisplaced_error (hitem 2 (by omega)) rfl (newKey_displaced items h2)]
  rw [hresize]
  exact Table.resize_error (Nat.zero_le _) rfl hmove

/-- Nothing but nil in the slots that a rehash counts, and three items after them. -/
def wideItems : List Val := List.replicate maxASize .nil ++ List.replicate 3 (.bool true)

/-- An assignment that fails is not atomic: the constructor `{[true] = true, unpack(t, 1, 2^26 + 3)}` makes a table that
    loses the field `true` when the assignment to the field `false` fails. -/
theorem not_rawSet_atomic : ¬ ∀ (arraySize hashSize : ℕ) (arena : StringArena) (start s : TableLife)
    (ops : List TableLifeOp) (key value : Val) (t' : Table) (e : LuaError),
    new arraySize hashSize arena = some start → Run step Permitted start ops s → key.isStale s.strings = false →
    s.table.rawSet key value s.strings = some (t', .error e) →
    t'.Inv s.strings ∧ ∀ k, t'.get k s.strings = s.table.get k s.strings := by
  have hlen : wideItems.length = maxASize + 3 := by
    rw [wideItems, List.length_append, List.length_replicate, List.length_replicate]
  have hnil : ∀ i < maxASize, wideItems[i]? = some .nil := by
    intro i hi
    rw [wideItems, List.getElem?_append_left (by rw [List.length_replicate]; exact hi), List.getElem?_replicate, if_pos hi]
  have hitem : ∀ i < 3, wideItems[maxASize + i]? = some (.bool true) := by
    intro i hi
    rw [wideItems, List.getElem?_append_right (by rw [List.length_replicate]; omega), List.length_replicate,
      Nat.add_sub_cancel_left, List.getElem?_replicate, if_pos hi]
  generalize wideItems = items at hlen hnil hitem
  intro hatomic
  have hset : (withItems items).rawSet (.bool false) (.bool true) {} =
      some (displaced items [displacedNode maxASize (.bool true) (some 1), displacedNode (maxASize + 1) (.bool true) none] 0,
        .error ⟨"table overflow"⟩) := by
    have hdelta : (withItems items).rawSetWithMemoryDelta (.bool false) (.bool true) {} =
        (withItems items).rawSetImpl (.bool false) (.bool true) {} := rfl
    rw [Table.rawSet, hdelta, Table.rawSetImpl, rawSetWith_withItems]
    simp only [rehash_wide hlen hnil hitem, bind, Option.bind_some]
  have hle : items.length ≤ maxVecLength := by
    rw [hlen]
    decide
  have hget := (hatomic 0 1 {} _ _ _ _ _ _ _ rfl (run_withItems hle) rfl hset).2 (.bool true)
  have hbefore : (withItems items).get (.bool true) {} = some (.bool true) := by
    change (withItems []).get (.bool true) {} = some (.bool true)
    decide +kernel
  have hafter : (displaced items [displacedNode maxASize (.bool true) (some 1),
      displacedNode (maxASize + 1) (.bool true) none] 0).get (.bool true) {} = some .nil := by
    change (displaced [] [displacedNode maxASize (.bool true) (some 1),
      displacedNode (maxASize + 1) (.bool true) none] 0).get (.bool true) {} = some .nil
    decide +kernel
  dsimp only at hget
  rw [hbefore, hafter] at hget
  cases hget

end TableLife

end Rilua.Vm
