import Rilua.Vm.ApiAccess
import Rilua.Vm.TableReport

/-! Where `LuaState::settable` does what `SETTABLE` does: the store that an assignment comes to, on both sides. -/

namespace Rilua.Vm

open Lib Gc

/-- Writing what is there changes nothing. -/
theorem Gc.Arena.modify_self {k : ObjKind} {T : Type} {a : Arena k T} {r : GcRef k} {v : T} (h : a.get r = some v) :
    a.modify r (fun _ => v) = a := by
  rw [Arena.get] at h
  rw [Arena.modify]
  cases hentry : a.entryOf r with
  | none => rfl
  | some e =>
    rw [hentry] at h
    obtain ⟨g, state⟩ := e
    cases state with
    | free next => rfl
    | occupied w =>
      obtain rfl : w = v := Option.some.inj h
      have hslot : a.entries[r.index]? = some ⟨g, .occupied w⟩ := (Option.filter_eq_some_iff.mp hentry).1
      obtain ⟨hlt, hslot⟩ := List.getElem?_eq_some_iff.mp hslot
      have hentries : a.entries.set r.index ⟨g, .occupied w⟩ = a.entries := by
        rw [← hslot, List.set_getElem_self]
      dsimp only
      rw [hentries]

namespace SecretTables

variable {s : SecretTables} {r : GcRef .table} {t t' : Table}

theorem withTable_self (h : s.gc.heap.get r = some t) : s.withTable r t = s := by
  have hheap : s.gc.heap.modify r (fun _ => t) = s.gc.heap := by
    have harena : (s.gc.heap.modify r fun _ => t).arena = s.gc.heap.arena := by
      change Function.update s.gc.heap.arena .table _ = _
      rw [Gc.Arena.modify_self h, Function.update_eq_self]
    generalize s.gc.heap.modify r (fun _ => t) = h' at harena
    generalize s.gc.heap = h at harena
    cases h
    cases h'
    cases harena
    rfl
  rw [withTable, Gc.modify, hheap]

/-- Only the table that is there leaves the state as it is. -/
theorem withTable_eq_self_iff (h : s.gc.heap.get r = some t) : s.withTable r t' = s ↔ t' = t := by
  refine ⟨fun heq => ?_, fun heq => heq ▸ withTable_self h⟩
  have hget := get_withTable h t'
  rw [heq, h] at hget
  exact (Option.some.inj hget).symm

variable {key value : Val}

/-- The collector has been told about a store into the table. -/
def told (s : SecretTables) (r : GcRef .table) : SecretTables := { s with gc := s.gc.barrierBack r }

/-- Memory has been allocated. -/
def tracked (s : SecretTables) (delta : ℕ) : SecretTables := { s with gc := s.gc.trackAlloc delta }

theorem totalBytes_told (s : SecretTables) (r : GcRef .table) :
    (s.told r).gc.gcState.totalBytes = s.gc.gcState.totalBytes := by
  rw [told, Gc.barrierBack]
  split
  · rfl
  · rfl

theorem wrapTableValue_eq (s : SecretTables) (r : GcRef .table) (value : Val) :
    SecretM.wrapTableValue r value s = (s.stored r value).map fun (s₁, w) => (s₁, [], .ok w) := by
  rw [SecretM.wrapTableValue, Act.get_bind]
  rfl

/-- The assignment of the API to a table. -/
theorem wrapAndSet_eq (hget : s.gc.heap.get r = some t) (missing : LuaError) :
    SecretM.wrapAndSet r key value missing s = (s.stored r value).bind fun (s₁, w) =>
      (t.rawSet key w s.gc.heap.strings).map fun (t', res) => match res with
        | .error e => (s₁.withTable r t', [], .error e)
        | .ok () => ((s₁.withTable r t').told r, [], .ok ()) := by
  rw [SecretM.wrapAndSet]
  change Act.andThen _ _ s = _
  rw [Act.andThen, wrapTableValue_eq]
  cases hstored : s.stored r value with
  | none => rfl
  | some res =>
    obtain ⟨s₁, w⟩ := res
    obtain ⟨hsame, hstrings⟩ := stored_frame hstored
    dsimp only [Option.map_some, Option.bind_some]
    have hraw : SecretM.rawSet r key w missing s₁ = (t.rawSet key w s.gc.heap.strings).map fun (t', res) =>
        (s₁.withTable r t', [], res) := by
      rw [SecretM.rawSet, SecretM.update, Act.attempt]
      simp only [hsame, hget, hstrings, Option.map_map]
      rfl
    change Option.map _ (Act.andThen _ _ s₁) = _
    rw [Act.andThen, hraw]
    cases t.rawSet key w s.gc.heap.strings with
    | none => rfl
    | some res =>
      obtain ⟨t', res⟩ := res
      cases res with
      | error e => rfl
      | ok _ => rfl

/-- `table_set`, where the checks before the store are passed. -/
theorem tableSet_eq {secure : Bool} (hget : s.gc.heap.get r = some t)
    (haccess : SecretM.checkTableAccess secure r (some key) s = some (s, [], .ok ()))
    (hfrozen : SecretM.ensureTableNotFrozen r s = some (s, [], .ok ())) :
    SecretM.tableSet secure r key value s = (s.stored r value).bind fun (s₁, w) =>
      (t.rawSetWithMemoryDelta key w s.gc.heap.strings).map fun (t', res) => match res with
        | .error e => (s₁.withTable r t', [], .error e)
        | .ok delta =>
          if s₁.gc.gcState.totalBytes + delta > s₁.gc.gcState.allocLimit then
            ((s₁.withTable r t').tracked delta, [], .error ⟨"not enough memory"⟩)
          else (((s₁.withTable r t').tracked delta).told r, [], .ok ()) := by
  rw [SecretM.tableSet, Act.bind_of_ok haccess, Act.bind_of_ok hfrozen]
  change Act.andThen _ _ s = _
  rw [Act.andThen, wrapTableValue_eq]
  cases hstored : s.stored r value with
  | none => rfl
  | some res =>
    obtain ⟨s₁, w⟩ := res
    obtain ⟨hsame, hstrings⟩ := stored_frame hstored
    dsimp only [Option.map_some, Option.bind_some]
    have hraw : SecretM.update r SecretM.invalidTable (fun t strings => t.rawSetWithMemoryDelta key w strings) s₁ =
        (t.rawSetWithMemoryDelta key w s.gc.heap.strings).map fun (t', res) => (s₁.withTable r t', [], res) := by
      rw [SecretM.update, Act.attempt]
      simp only [hsame, hget, hstrings, Option.map_map]
      rfl
    change Option.map _ (Act.andThen _ _ s₁) = _
    rw [Act.andThen, hraw]
    cases t.rawSetWithMemoryDelta key w s.gc.heap.strings with
    | none => rfl
    | some res =>
      obtain ⟨t', res⟩ := res
      cases res with
      | error e => rfl
      | ok delta =>
        dsimp only [Option.map_some]
        rw [SecretM.onGc, Act.modify_bind, Act.get_bind]
        change Option.map _ (Option.map _ ((if s₁.gc.gcState.totalBytes + delta > s₁.gc.gcState.allocLimit then
          Act.fail ⟨"not enough memory"⟩ else SecretM.barrierBack r : SecretM Unit) _)) = _
        split
        · rfl
        · rfl

end SecretTables

namespace AccessState

open SecretTables

variable {s : AccessState} {key value v : Val} {r : GcRef .table} {t : Table}

/-- Writing the field marks its slot with a taint that it does not have. -/
def Marks (s : AccessState) (key : Val) (r : GcRef .table) : Prop :=
  s.taintMode = true ∧ ∃ taint, s.frames.head? = some (some taint) ∧
    ∃ k, s.taintKey key = some k ∧ s.slotTaint r k ≠ some taint

theorem propagateSlotTaint_eq (key : Val) (hget : s.tables.gc.heap.get r = some t) :
    ∃ slotTaint, s.propagateSlotTaint r key = { s with slotTaint } ∧ (slotTaint = s.slotTaint ↔ ¬ s.Marks key r) := by
  unfold propagateSlotTaint
  split
  · next taint frames k _ hmode hframes hkey _ =>
    refine ⟨_, rfl, ?_⟩
    constructor
    · rintro hsame ⟨-, taint', hhead, k', hk', hne⟩
      rw [hframes] at hhead
      cases hhead
      cases hkey.symm.trans hk'
      rw [← hsame] at hne
      exact hne (by rw [Function.update_self, Function.update_self])
    · intro hnot
      have hslot : s.slotTaint r k = some taint := by
        by_contra hne
        exact hnot ⟨hmode, taint, by rw [hframes]; rfl, k, hkey, hne⟩
      rw [← hslot, Function.update_eq_self, Function.update_eq_self]
  · next hnot =>
    refine ⟨s.slotTaint, rfl, iff_of_true rfl ?_⟩
    rintro ⟨hmode, taint, hhead, k, hkey, -⟩
    obtain ⟨frames, hframes⟩ := List.head?_eq_some_iff.mp hhead
    exact hnot taint frames k t hmode hframes hkey hget

/-- The value is wrapped when it is stored in the table. -/
def WrapsStored (s : AccessState) (r : GcRef .table) (value : Val) : Prop :=
  s.tables.tableWrapsContents r = true ∧ value.isNil = false ∧ s.tables.isSecretValue value = false

/-- `Table::raw_set` refuses the assignment and leaves the table, and nothing has been wrapped for it. -/
def Refuses (s : AccessState) (key value : Val) (r : GcRef .table) (t : Table) : Prop :=
  ¬ s.WrapsStored r value ∧ ∃ e, t.rawSet key value s.tables.gc.heap.strings = some (t, .error e)

end AccessState

namespace AccessM

open AccessState SecretTables

variable {s : AccessState} {key value : Val} {r : GcRef .table} {t : Table}

theorem stored_plain (h : ¬ s.WrapsStored r value) : s.tables.stored r value = some (s.tables, value) := by
  rw [stored, SecretTables.wrapContentsResult, if_neg]
  intro hwraps
  simp only [Bool.and_eq_true, Bool.not_eq_true'] at hwraps
  exact h ⟨hwraps.1.1, hwraps.1.2, hwraps.2⟩

theorem udAllocSeq_stored {tables : SecretTables} {w : Val} (h : s.WrapsStored r value)
    (hstored : s.tables.stored r value = some (tables, w)) :
    tables.gc.gcState.udAllocSeq = s.tables.gc.gcState.udAllocSeq + 1 := by
  rw [stored, h.1] at hstored
  exact udAllocSeq_wrapContentsResult h.2.1 h.2.2 hstored

theorem rawSetApiTable_eq (hallow : s.Allows key r) (hget : s.tables.gc.heap.get r = some t) :
    rawSetApiTable r key value s = (s.tables.stored r value).bind fun (tables, w) =>
      (t.rawSet key w s.tables.gc.heap.strings).map fun (t', res) => match res with
        | .error e => ({ s with tables := tables.withTable r t' }, [], .error e)
        | .ok () => ({ s with tables := (tables.withTable r t').told r }, [], .ok ()) := by
  obtain ⟨res, hres⟩ := checkTableAccess_total s.stateIsSecure r (some key) s.tables
  obtain ⟨_, _, hok⟩ := hallow
  rw [hres] at hok
  cases hok
  rw [rawSetApiTable, Act.get_bind, onTables, SecretM.rawSetApiTable, Act.bind_of_ok hres, wrapAndSet_eq hget]
  cases s.tables.stored r value with
  | none => rfl
  | some res =>
    obtain ⟨tables, w⟩ := res
    dsimp only [Option.bind_some]
    cases t.rawSet key w s.tables.gc.heap.strings with
    | none => rfl
    | some res =>
      obtain ⟨t', res⟩ := res
      cases res <;> rfl

/-- Where `SETTABLE` fails at once, the API only fails without a change if `raw_set` refuses the assignment. -/
theorem agree_refused_iff (hallow : s.Allows key r) (hget : s.tables.gc.heap.get r = some t) (e : LuaError) :
    Agree (Act.fail e) (rawSetApiTable r key value) s ↔ s.Refuses key value r t := by
  rw [Agree, rawSetApiTable_eq hallow hget]
  by_cases hwraps : s.WrapsStored r value
  · refine iff_of_false (fun h => ?_) fun h => h.1 hwraps
    cases hstored : s.tables.stored r value with
    | none =>
      rw [hstored] at h
      cases h
    | some res =>
      obtain ⟨tables, w⟩ := res
      have hseq := udAllocSeq_stored hwraps hstored
      rw [hstored] at h
      dsimp only [Option.bind_some] at h
      cases hset : t.rawSet key w s.tables.gc.heap.strings with
      | none =>
        rw [hset] at h
        cases h
      | some res =>
        obtain ⟨t', res⟩ := res
        rw [hset] at h
        cases res with
        | ok _ => cases congrArg (Option.map Prod.snd) h
        | error e' =>
          have hstate := congrArg (Option.map fun res => res.1.tables.gc.gcState.udAllocSeq) h
          have hsame : s.tables.gc.gcState.udAllocSeq = tables.gc.gcState.udAllocSeq := Option.some.inj hstate
          omega
  · rw [stored_plain hwraps, Refuses, and_iff_right hwraps]
    dsimp only [Option.bind_some]
    constructor
    · intro h
      cases hset : t.rawSet key value s.tables.gc.heap.strings with
      | none =>
        rw [hset] at h
        cases h
      | some res =>
        obtain ⟨t', res⟩ := res
        rw [hset] at h
        cases res with
        | ok _ => cases congrArg (Option.map Prod.snd) h
        | error e' =>
          have hstate := congrArg (Option.map fun res => res.1.tables) h
          have hsame : s.tables.withTable r t' = s.tables := (Option.some.inj hstate).symm
          rw [(withTable_eq_self_iff hget).mp hsame]
          exact ⟨e', rfl⟩
    · rintro ⟨e', hset⟩
      rw [hset, Option.map_some, withTable_self hget]
      rfl

/-- The gate of table writes is open. -/
def Writable (s : AccessState) (r : GcRef .table) : Prop :=
  TableM.isFrozen s.tables.gc r = false ∧ TableM.isReadOnly s.tables.gc r = false

theorem ensureTableNotFrozen_open (h : Writable s r) :
    SecretM.ensureTableNotFrozen r s.tables = some (s.tables, [], .ok ()) := by
  rw [SecretM.ensureTableNotFrozen, Act.get_bind, h.1, h.2]
  rfl

theorem ensureTableNotFrozen_shut (h : ¬ Writable s r) :
    ∃ e, SecretM.ensureTableNotFrozen r s.tables = some (s.tables, [], .error e) := by
  rw [SecretM.ensureTableNotFrozen, Act.get_bind]
  cases hfrozen : TableM.isFrozen s.tables.gc r with
  | true => exact ⟨_, rfl⟩
  | false =>
    cases hreadOnly : TableM.isReadOnly s.tables.gc r with
    | true => exact ⟨_, rfl⟩
    | false => exact absurd ⟨hfrozen, hreadOnly⟩ h

/-- After a store the same slot is marked, if one is. -/
theorem propagateSlotTaint_stored {tables : SecretTables} {t' : Table} (key : Val)
    (hstrings : tables.gc.heap.strings = s.tables.gc.heap.strings) (hget : tables.gc.heap.get r = some t') :
    ∃ slotTaint, ({ s with tables } : AccessState).propagateSlotTaint r key = { s with tables, slotTaint } ∧
      (slotTaint = s.slotTaint ↔ ¬ s.Marks key r) := by
  obtain ⟨slotTaint, heq, hiff⟩ := propagateSlotTaint_eq (s := { s with tables }) key hget
  refine ⟨slotTaint, heq, hiff.trans (not_congr ?_)⟩
  have hkey : ({ s with tables } : AccessState).taintKey key = s.taintKey key := by
    unfold taintKey
    rw [hstrings]
  rw [AccessState.Marks, AccessState.Marks, hkey]

theorem rawSet_of_delta (t : Table) (key value : Val) (strings : StringArena) :
    t.rawSet key value strings = (t.rawSetWithMemoryDelta key value strings).map fun (t', res) =>
      (t', res.map fun _ => ()) := by
  rw [Table.rawSet]
  cases t.rawSetWithMemoryDelta key value strings with
  | none => rfl
  | some res =>
    obtain ⟨t', res⟩ := res
    cases res <;> rfl

theorem get_told (s : SecretTables) (r r' : GcRef .table) : (s.told r).gc.heap.get r' = s.gc.heap.get r' := by
  rw [told, Gc.barrierBack]
  split
  · exact Heap.get_setColor ..
  · rfl

theorem strings_told (s : SecretTables) (r : GcRef .table) : (s.told r).gc.heap.strings = s.gc.heap.strings := by
  rw [told, Gc.barrierBack]
  split
  · exact Heap.arena_put_ne _ (by decide) _ ((s.gc.heap.wf .table).setColor r _)
  · rfl

/-- The store of a new field, where the gate is open. -/
theorem rawSetNewSlot_eq (hallow : s.Allows key r) (hget : s.tables.gc.heap.get r = some t) (hopen : Writable s r) :
    rawSetNewSlot r key value s = (s.tables.stored r value).bind fun (tables, w) =>
      (t.rawSetWithMemoryDelta key w s.tables.gc.heap.strings).map fun (t', res) => match res with
        | .error e => ({ s with tables := tables.withTable r t' }, [], .error e)
        | .ok delta =>
          if tables.gc.gcState.totalBytes + delta > tables.gc.gcState.allocLimit then
            ({ s with tables := (tables.withTable r t').tracked delta }, [], .error ⟨"not enough memory"⟩)
          else
            (({ s with tables := ((tables.withTable r t').tracked delta).told r } :
              AccessState).propagateSlotTaint r key,
              [], .ok ()) := by
  obtain ⟨res, hres⟩ := checkTableAccess_total s.stateIsSecure r (some key) s.tables
  obtain ⟨_, _, hok⟩ := hallow
  rw [hres] at hok
  cases hok
  rw [rawSetNewSlot, Act.get_bind]
  change Act.andThen _ _ s = _
  rw [Act.andThen, onTables, tableSet_eq hget hres (ensureTableNotFrozen_open hopen)]
  cases s.tables.stored r value with
  | none => rfl
  | some res =>
    obtain ⟨tables, w⟩ := res
    dsimp only [Option.bind_some]
    cases t.rawSetWithMemoryDelta key w s.tables.gc.heap.strings with
    | none => rfl
    | some res =>
      obtain ⟨t', res⟩ := res
      cases res with
      | error e => rfl
      | ok delta =>
        dsimp only [Option.map_some]
        by_cases hlimit : tables.gc.gcState.totalBytes + delta > tables.gc.gcState.allocLimit
        · rw [if_pos hlimit, if_pos hlimit]
        · rw [if_neg hlimit, if_neg hlimit]
          rfl

/-- The API stores a new field like `SETTABLE` exactly where no memory is allocated for it, no slot is marked, and the
    limit is not exceeded as it is. -/
theorem agree_new_iff (hallow : s.Allows key r) (hget : s.tables.gc.heap.get r = some t) (hopen : Writable s r) :
    Agree (rawSetNewSlot r key value) (rawSetApiTable r key value) s ↔
      ∀ tables w t' delta, s.tables.stored r value = some (tables, w) →
        t.rawSetWithMemoryDelta key w s.tables.gc.heap.strings = some (t', .ok delta) →
          ¬ s.Marks key r ∧ delta = 0 ∧ tables.gc.gcState.totalBytes ≤ tables.gc.gcState.allocLimit := by
  rw [Agree, rawSetNewSlot_eq hallow hget hopen, rawSetApiTable_eq hallow hget]
  cases hstored : s.tables.stored r value with
  | none => exact iff_of_true rfl fun tables w t' delta heq => by cases heq
  | some res =>
    obtain ⟨tables, w⟩ := res
    obtain ⟨hsame, hstrings⟩ := stored_frame hstored
    dsimp only [Option.bind_some]
    rw [rawSet_of_delta]
    cases hset : t.rawSetWithMemoryDelta key w s.tables.gc.heap.strings with
    | none =>
      refine iff_of_true rfl fun tables' w' t' delta heq hset' => ?_
      cases heq
      cases hset.symm.trans hset'
    | some res =>
      obtain ⟨t', res⟩ := res
      have hcond : ∀ p : SecretTables → ℕ → Prop, (∀ tables' w' t'' delta, some (tables, w) = some (tables', w') →
          t.rawSetWithMemoryDelta key w' s.tables.gc.heap.strings = some (t'', .ok delta) → p tables' delta) ↔
          ∀ delta, res = .ok delta → p tables delta := by
        refine fun p => ⟨fun h delta hres => h tables w t' delta rfl (hres ▸ hset), ?_⟩
        intro h tables' w' t'' delta heq hset'
        cases heq
        cases hset.symm.trans hset'
        exact h delta rfl
      rw [hcond fun tables delta => ¬ s.Marks key r ∧ delta = 0 ∧
        tables.gc.gcState.totalBytes ≤ tables.gc.gcState.allocLimit]
      cases res with
      | error e => exact iff_of_true rfl fun delta h => by cases h
      | ok delta =>
        have hone : (∀ delta', (.ok delta : Except LuaError ℕ) = .ok delta' → ¬ s.Marks key r ∧ delta' = 0 ∧
            tables.gc.gcState.totalBytes ≤ tables.gc.gcState.allocLimit) ↔ ¬ s.Marks key r ∧ delta = 0 ∧
            tables.gc.gcState.totalBytes ≤ tables.gc.gcState.allocLimit :=
          ⟨fun h => h delta rfl, fun h delta' heq => by cases heq; exact h⟩
        rw [hone]
        dsimp only [Option.map_some]
        by_cases hlimit : tables.gc.gcState.totalBytes + delta > tables.gc.gcState.allocLimit
        · rw [if_pos hlimit]
          have hover : ¬ (delta = 0 ∧ tables.gc.gcState.totalBytes ≤ tables.gc.gcState.allocLimit) := by omega
          refine iff_of_false (fun h => ?_) fun h => hover h.2
          cases congrArg (Option.map Prod.snd) h
        · rw [if_neg hlimit]
          have hget' : (((tables.withTable r t').tracked delta).told r).gc.heap.get r = some t' := by
            rw [get_told]
            exact get_withTable ((hsame r).trans hget) t'
          have hstrings' : (((tables.withTable r t').tracked delta).told r).gc.heap.strings =
              s.tables.gc.heap.strings := by
            rw [strings_told]
            exact (wrapping_withTable tables r t').strings.trans hstrings
          obtain ⟨slotTaint, htaint, hiff⟩ := propagateSlotTaint_stored (s := s) key hstrings' hget'
          rw [htaint, ← hiff]
          simp only [Option.some.injEq, Prod.mk.injEq]
          constructor
          · rintro ⟨heq, -⟩
            have htables : ((tables.withTable r t').tracked delta).told r = (tables.withTable r t').told r :=
              congrArg AccessState.tables heq
            have hbytes := congrArg (fun s => s.gc.gcState.totalBytes) htables
            rw [totalBytes_told, totalBytes_told] at hbytes
            have hsum : tables.gc.gcState.totalBytes + delta = tables.gc.gcState.totalBytes := hbytes
            exact ⟨congrArg AccessState.slotTaint heq, by omega, by omega⟩
          · rintro ⟨rfl, rfl, -⟩
            exact ⟨rfl, rfl⟩

/-- The store to a field that is there, where the gate is open. -/
theorem agree_existing_iff (hallow : s.Allows key r) (hget : s.tables.gc.heap.get r = some t) :
    Agree (rawSetExistingSlot r key value) (rawSetApiTable r key value) s ↔
      ∀ tables w t', s.tables.stored r value = some (tables, w) →
        t.rawSet key w s.tables.gc.heap.strings = some (t', .ok ()) → ¬ s.Marks key r := by
  have hrun : rawSetExistingSlot r key value s = (s.tables.stored r value).bind fun (tables, w) =>
      (t.rawSet key w s.tables.gc.heap.strings).map fun (t', res) => match res with
        | .error e => ({ s with tables := tables.withTable r t' }, [], .error e)
        | .ok () => (({ s with tables := (tables.withTable r t').told r } : AccessState).propagateSlotTaint r key, [],
            .ok ()) := by
    rw [rawSetExistingSlot]
    change Act.andThen _ _ s = _
    rw [Act.andThen, onTables, wrapAndSet_eq hget]
    cases s.tables.stored r value with
    | none => rfl
    | some res =>
      obtain ⟨tables, w⟩ := res
      dsimp only [Option.bind_some]
      cases t.rawSet key w s.tables.gc.heap.strings with
      | none => rfl
      | some res =>
        obtain ⟨t', res⟩ := res
        cases res <;> rfl
  rw [Agree, hrun, rawSetApiTable_eq hallow hget]
  cases hstored : s.tables.stored r value with
  | none => exact iff_of_true rfl fun tables w t' heq => by cases heq
  | some res =>
    obtain ⟨tables, w⟩ := res
    obtain ⟨hsame, hstrings⟩ := stored_frame hstored
    dsimp only [Option.bind_some]
    cases hset : t.rawSet key w s.tables.gc.heap.strings with
    | none =>
      refine iff_of_true rfl fun tables' w' t' heq hset' => ?_
      cases heq
      cases hset.symm.trans hset'
    | some res =>
      obtain ⟨t', res⟩ := res
      cases res with
      | error e =>
        refine iff_of_true rfl fun tables' w' t'' heq hset' => ?_
        cases heq
        cases hset.symm.trans hset'
      | ok _ =>
        have hget' : ((tables.withTable r t').told r).gc.heap.get r = some t' := by
          rw [get_told]
          exact get_withTable ((hsame r).trans hget) t'
        have hstrings' : ((tables.withTable r t').told r).gc.heap.strings = s.tables.gc.heap.strings := by
          rw [strings_told]
          exact (wrapping_withTable tables r t').strings.trans hstrings
        obtain ⟨slotTaint, htaint, hiff⟩ := propagateSlotTaint_stored (s := s) key hstrings' hget'
        dsimp only [Option.map_some]
        rw [htaint]
        rw [Option.some.injEq, Prod.mk.injEq, and_iff_left rfl]
        refine ⟨fun heq _ _ _ _ _ => hiff.mp (congrArg AccessState.slotTaint heq), fun h => ?_⟩
        rw [hiff.mpr (h tables w t' rfl hset)]

/-! ### Steps -/

theorem rawSetNewSlot_shut (value : Val) (hallow : s.Allows key r) (h : ¬ Writable s r) :
    ∃ e, rawSetNewSlot r key value s = some (s, [], .error e) := by
  obtain ⟨res, hres⟩ := checkTableAccess_total s.stateIsSecure r (some key) s.tables
  obtain ⟨_, _, hok⟩ := hallow
  rw [hres] at hok
  cases hok
  obtain ⟨e, he⟩ := ensureTableNotFrozen_shut h
  refine ⟨e, ?_⟩
  rw [rawSetNewSlot, Act.get_bind]
  refine Act.bind_of_error (onTables_apply ?_) _
  rw [SecretM.tableSet, Act.bind_of_ok hres, Act.bind_of_error he]

/-- A field that is there, in a table with a metatable, is assigned in place. -/
def inPlace (s : AccessState) (r : GcRef .table) : Look → Bool
  | .found _ => (s.tables.gc.heap.get r).any fun t => (Table.metatable t).isSome
  | _ => false

/-- The store that `SETTABLE` comes to. -/
def vmStore (inPlace : Bool) (r : GcRef .table) (key value : Val) : AccessM Unit :=
  if inPlace then do
    ensureTableNotFrozen r
    rawSetExistingSlot r key value
  else rawSetNewSlot r key value

/-- What an assignment comes to when it has looked in a value. -/
def writes (store : GcRef .table → AccessM Unit) (rest : Val → AccessM (Option (Val × Val))) (c : Val) :
    Look → AccessM (Option (Val × Val))
  | .next v => rest v
  | .call f => pure (some (.function f, c))
  | .failed => Act.fail ⟨"attempt to index"⟩
  | .found _ | .absent =>
    match c with
    | .table r => do
      store r
      pure none
    | _ => Act.fail ⟨"attempt to index"⟩

/-- A step of `LuaState::settable`. -/
theorem agree_settableLoop (hread : s.Readable key) {c : Val} {l : Look} {n : ℕ}
    (hlook : s.look .newIndex key c = some l) :
    Agree (settableLoop key value (n + 1) c)
      (writes (rawSetApiTable · key value) (settableLoop key value n) c l) s := by
  rw [Agree, settableLoop, Act.get_bind]
  by_cases htab : ∃ r, c = .table r
  · obtain ⟨r, rfl⟩ := htab
    have hmissing := onTables_read (s := s) (r := r) SecretM.invalidTable
    dsimp only
    cases hget : s.tables.gc.heap.get r with
    | none =>
      rw [look_missing hget] at hlook
      rw [hget] at hmissing
      cases hlook
      dsimp only
      rw [Act.bind_of_ok (Act.pure_apply Val.nil s), if_neg (by simp [Val.isNil]), Act.bind_of_error hmissing]
      rfl
    | some t =>
      obtain ⟨v, hv⟩ := Option.isSome_iff_exists.mp (hread r t hget)
      rw [look_table _ hget hv] at hlook
      rw [hget] at hmissing
      obtain rfl := Option.some.inj hlook
      dsimp only
      rw [Act.bind_of_ok (ofOption_some hv s)]
      by_cases hnil : v.isNil = true
      · rw [if_neg (not_not.mpr hnil), if_pos hnil, Act.bind_of_ok hmissing]
        cases (Table.metatable t).bind fun mt => s.tables.gc.fasttm mt .newIndex with
        | none => rfl
        | some tm => cases tm <;> rfl
      · rw [if_pos hnil, if_neg hnil]
        rfl
  · have hother : ∀ r, c ≠ .table r := fun r hr => htab ⟨r, hr⟩
    rw [look_other hother] at hlook
    obtain rfl := Option.some.inj hlook
    split
    · exact absurd rfl (hother _)
    · cases s.tables.gc.gettmbyobj c .newIndex with
      | none => rfl
      | some tm => cases tm <;> rfl

/-- What follows a store is told that it is done. -/
theorem bind_done {σ ω ε α β γ : Type} {step : Act σ ω ε α} {x : Act σ ω ε γ} {d : α} {f : α → Act σ ω ε β} {s : σ}
    (h : step s = (x >>= fun _ => pure d) s) : (step >>= f) s = (x >>= fun _ => f d) s := by
  change Act.andThen step f s = Act.andThen x (fun _ => f d) s
  change step s = Act.andThen x _ s at h
  rw [Act.andThen, h, Act.andThen, Act.andThen]
  cases x s with
  | none => rfl
  | some res =>
    obtain ⟨s₁, w, res⟩ := res
    cases res with
    | error e => rfl
    | ok a =>
      dsimp only [Act.pure_apply, Option.map_some]
      rw [List.append_nil]

theorem ensureTableNotFrozen_cases (s : AccessState) (r : GcRef .table) :
    Writable s r ∧ ensureTableNotFrozen r s = some (s, [], .ok ()) ∨
      ¬ Writable s r ∧ ∃ e, ensureTableNotFrozen r s = some (s, [], .error e) := by
  by_cases h : Writable s r
  · exact .inl ⟨h, onTables_apply (ensureTableNotFrozen_open h)⟩
  · obtain ⟨e, he⟩ := ensureTableNotFrozen_shut h
    exact .inr ⟨h, e, onTables_apply he⟩

/-- A step of `vm_settable`, where access is allowed. -/
theorem agree_vmSettableLoop (hread : s.Readable key) {c : Val} {l : Look} {n : ℕ}
    (hlook : s.look .newIndex key c = some l) (hallows : s.AllowsAll key [c]) :
    Agree (vmSettableLoop key value (n + 1) c)
      (writes (fun r => vmStore (inPlace s r l) r key value) (vmSettableLoop key value n) c l) s := by
  by_cases htab : ∃ r, c = .table r
  · obtain ⟨r, rfl⟩ := htab
    have hallow := hallows r (List.mem_singleton_self _)
    obtain ⟨t, hget⟩ := exists_of_allows hallow
    obtain ⟨v, hv⟩ := Option.isSome_iff_exists.mp (hread r t hget)
    rw [look_table _ hget hv] at hlook
    obtain rfl := Option.some.inj hlook
    have hmissing := onTables_read (s := s) (r := r) SecretM.invalidTable
    rw [hget] at hmissing
    have hplace : ∀ v, inPlace s r (.found v) = (Table.metatable t).isSome := by
      intro v
      rw [inPlace, hget]
      rfl
    have hcheck := checkTableAccess_allowed hallow
    have hstep : settableStep (.table r) key value s = handleTableSettable r key value s := rfl
    rw [handleTableSettable, Act.bind_of_ok hcheck, Act.bind_of_ok hmissing, Act.get_bind] at hstep
    rw [Agree, vmSettableLoop]
    cases hmeta : Table.metatable t with
    | none =>
      rw [hmeta, Option.isNone_none, if_pos rfl] at hstep
      rw [bind_done hstep]
      cases hnil : v.isNil with
      | true => rfl
      | false =>
        change _ = Option.map _ ((vmStore (inPlace s r (.found v)) r key value >>= fun _ => pure none :
          AccessM (Option (Val × Val))) s)
        rw [hplace, hmeta]
        rfl
    | some mt =>
      rw [hmeta, if_neg (by simp), Act.bind_of_ok hcheck, Act.bind_of_ok (ofOption_some hv s)] at hstep
      cases hnil : v.isNil with
      | true =>
        rw [hnil, if_neg (by simp), Option.bind_some] at hstep
        rw [if_pos rfl, Option.bind_some]
        cases htm : s.tables.gc.fasttm mt .newIndex with
        | none =>
          simp only [htm] at hstep
          obtain ⟨-, hopen⟩ | ⟨hshut, e, he⟩ := ensureTableNotFrozen_cases s r
          · rw [Act.bind_of_ok hopen] at hstep
            rw [bind_done hstep]
            rfl
          · rw [Act.bind_of_error he] at hstep
            obtain ⟨e', he'⟩ := rawSetNewSlot_shut value hallow hshut
            rw [Act.bind_of_error hstep]
            change _ = Option.map _
              ((rawSetNewSlot r key value >>= fun _ => pure none : AccessM (Option (Val × Val))) s)
            rw [Act.bind_of_error he']
            rfl
        | some tm =>
          simp only [htm] at hstep
          rw [Act.bind_of_ok hstep]
          cases tm <;> rfl
      | false =>
        rw [hnil, if_pos (by simp)] at hstep
        change _ = Option.map _ ((vmStore (inPlace s r (.found v)) r key value >>= fun _ => pure none :
          AccessM (Option (Val × Val))) s)
        rw [hplace, hmeta]
        have hstore : settableStep (.table r) key value s =
            (vmStore true r key value >>= fun _ => pure TableM.SettableStep.done) s := by
          rw [hstep]
          change _ = ((ensureTableNotFrozen r >>= fun _ => rawSetExistingSlot r key value) >>= fun _ =>
            pure TableM.SettableStep.done : AccessM TableM.SettableStep) s
          obtain ⟨-, hopen⟩ | ⟨-, e, he⟩ := ensureTableNotFrozen_cases s r
          · rw [Act.bind_of_ok hopen]
            change Act.andThen _ _ s = Act.andThen (ensureTableNotFrozen r >>= _) _ s
            rw [Act.andThen, Act.andThen, Act.bind_of_ok hopen]
          · rw [Act.bind_of_error he, Act.bind_of_error (Act.bind_of_error he _)]
        rw [bind_done hstore]
        rfl
  · have hother : ∀ r, c ≠ .table r := fun r hr => htab ⟨r, hr⟩
    rw [look_other hother] at hlook
    obtain rfl := Option.some.inj hlook
    have hstep : settableStep c key value s = handleNonTableSettable c s := by
      unfold settableStep
      split
      · exact absurd rfl (hother _)
      · rfl
    rw [handleNonTableSettable, Act.get_bind] at hstep
    rw [Agree, vmSettableLoop]
    cases htm : s.tables.gc.gettmbyobj c .newIndex with
    | none =>
      simp only [htm] at hstep
      rw [Act.bind_of_error hstep]
      rfl
    | some tm =>
      simp only [htm] at hstep
      rw [Act.bind_of_ok hstep]
      cases tm <;> rfl

theorem vmSettableLoop_denied {c : Val} {n : ℕ} (hdenied : ¬ s.AllowsAll key [c]) :
    ∃ e, vmSettableLoop key value (n + 1) c s = some (s, [], .error e) := by
  obtain ⟨r, hr⟩ := not_forall.mp hdenied
  obtain ⟨hmem, hnot⟩ := Classical.not_imp.mp hr
  obtain rfl := List.mem_singleton.mp hmem
  obtain ⟨e, hcheck⟩ := checkTableAccess_denied hnot
  have hstep : settableStep (.table r) key value s = some (s, [], .error e) := by
    rw [settableStep, handleTableSettable, Act.bind_of_error hcheck]
  refine ⟨e, ?_⟩
  rw [vmSettableLoop, Act.bind_of_error hstep]

/-! ### Where looking for the field comes to an end -/

variable {n : ℕ} {u last : Val} {passed : List Val} {l : Look} {store : GcRef .table → AccessM Unit}

/-- What an assignment comes to where looking has come to an end. -/
def writeAnswer (store : GcRef .table → AccessM Unit) (last : Val) (l : Look) : AccessM (Option (Val × Val)) :=
  writes store (fun _ => Act.fail ⟨"loop in settable"⟩) last l

theorem writeAnswer_eq {rest : Val → AccessM (Option (Val × Val))} (h : l.Answers) :
    writes store rest last l = writeAnswer store last l := by
  cases l with
  | next v => exact h.elim
  | _ => rfl

theorem settableLoop_ends (hread : s.Readable key) (h : s.Ends .newIndex key some n u passed last l) :
    Agree (settableLoop key value n u) (writeAnswer (rawSetApiTable · key value) last l) s := by
  obtain ⟨hreach, hlook, hans⟩ := h
  induction hreach with
  | here htarget =>
    cases htarget
    refine (agree_settableLoop hread hlook).trans ?_
    rw [writeAnswer_eq hans]
    exact .refl _ _
  | next htarget hnext hrest ih =>
    cases htarget
    exact (agree_settableLoop hread hnext).trans (ih hlook)

/-- Where it does not come to an end, `settable` fails: by induction on the steps that are left. -/
theorem settableLoop_fails (hread : s.Readable key) (h : ∀ passed last l, ¬ s.Ends .newIndex key some n u passed last l)
    (e : LuaError) : Agree (settableLoop key value n u) (Act.fail e) s := by
  induction n generalizing u with
  | zero => exact .fail _ _
  | succ n ih =>
    obtain ⟨l, hlook⟩ := look_isSome hread .newIndex u
    refine (agree_settableLoop hread hlook).trans ?_
    cases l with
    | next v => exact ih fun passed last l hends => h _ _ _ (ends_of_next rfl hlook hends)
    | failed => exact .fail _ _
    | _ => exact absurd ⟨.here rfl, hlook, trivial⟩ (h [] u _)

/-- Where access is allowed all the way, `vm_settable` stores through the gate. -/
theorem vmSettableLoop_ends (hread : s.Readable key) (h : s.Ends .newIndex key some n u passed last l)
    (hallows : s.AllowsAll key (passed ++ [last])) :
    Agree (vmSettableLoop key value n u) (writeAnswer (fun r => vmStore (inPlace s r l) r key value) last l) s := by
  obtain ⟨hreach, hlook, hans⟩ := h
  induction hreach with
  | here htarget =>
    cases htarget
    refine (agree_vmSettableLoop hread hlook hallows).trans ?_
    rw [writeAnswer_eq hans]
    exact .refl _ _
  | next htarget hnext hrest ih =>
    cases htarget
    rw [List.cons_append, AllowsAll] at hallows
    have hfirst := fun r hr => hallows r (List.mem_cons.mpr (.inl (List.mem_singleton.mp hr)))
    refine (agree_vmSettableLoop hread hnext hfirst).trans ?_
    exact ih (fun r hr => hallows r (List.mem_cons_of_mem _ hr)) hlook

/-- Where access is denied on the way, `vm_settable` fails. -/
theorem vmSettableLoop_ends_denied (hread : s.Readable key) (h : s.Ends .newIndex key some n u passed last l)
    (hdenied : ¬ s.AllowsAll key (passed ++ [last])) (e : LuaError) :
    Agree (vmSettableLoop key value n u) (Act.fail e) s := by
  obtain ⟨hreach, hlook, hans⟩ := h
  induction hreach with
  | here htarget =>
    cases htarget
    obtain ⟨e', he⟩ := vmSettableLoop_denied hdenied
    rw [Agree, he]
    rfl
  | @next n u c v last passed htarget hnext hrest ih =>
    cases htarget
    by_cases hfirst : s.AllowsAll key [u]
    · refine (agree_vmSettableLoop hread hnext hfirst).trans (ih (fun hall => hdenied fun r hr => ?_) hlook)
      rcases List.mem_cons.mp hr with hr | hr
      · exact hfirst r (List.mem_singleton.mpr hr)
      · exact hall r hr
    · obtain ⟨e', he⟩ := vmSettableLoop_denied hfirst
      rw [Agree, he]
      rfl

/-- Where looking does not come to an end, `vm_settable` fails: by induction on the steps that are left. -/
theorem vmSettableLoop_fails (hread : s.Readable key)
    (h : ∀ passed last l, ¬ s.Ends .newIndex key some n u passed last l)
    (e : LuaError) : Agree (vmSettableLoop key value n u) (Act.fail e) s := by
  induction n generalizing u with
  | zero => exact .fail _ _
  | succ n ih =>
    by_cases hallows : s.AllowsAll key [u]
    · obtain ⟨l, hlook⟩ := look_isSome hread .newIndex u
      refine (agree_vmSettableLoop hread hlook hallows).trans ?_
      cases l with
      | next v => exact ih fun passed last l hends => h _ _ _ (ends_of_next rfl hlook hends)
      | failed => exact .fail _ _
      | _ => exact absurd ⟨.here rfl, hlook, trivial⟩ (h [] u _)
    · obtain ⟨e', he⟩ := vmSettableLoop_denied hallows
      rw [Agree, he]
      rfl

end AccessM

namespace AccessState

/-- The store to a table that access is allowed to. Through an open gate, no slot is marked, and what is not assigned in
    place allocates nothing and does not find the limit exceeded; at a shut gate, the assignment is refused anyway. -/
def StoresAlike (s : AccessState) (key value : Val) (r : GcRef .table) (t : Table) (inPlace : Bool) : Prop :=
  (AccessM.Writable s r → ∀ tables w t' delta, s.tables.stored r value = some (tables, w) →
    t.rawSetWithMemoryDelta key w s.tables.gc.heap.strings = some (t', .ok delta) → ¬ s.Marks key r ∧
      (inPlace = false → delta = 0 ∧ tables.gc.gcState.totalBytes ≤ tables.gc.gcState.allocLimit)) ∧
  (¬ AccessM.Writable s r → s.Refuses key value r t)

/-- The outcome of an assignment that has looked in the values in `passed`, and last in `last`: a function is called
    where access is allowed to all of them; a value is stored alike where access is allowed, and if it was denied
    before, the assignment is refused anyway. -/
structure WritesAlike (s : AccessState) (key value : Val) (passed : List Val) (last : Val) (l : Look) : Prop where
  call : ∀ f, l = .call f → s.AllowsAll key (passed ++ [last])
  store : ∀ r t, last = .table r → (∀ f, l ≠ .call f) → s.Allows key r → s.tables.gc.heap.get r = some t →
    (s.AllowsAll key passed → s.StoresAlike key value r t (AccessM.inPlace s r l)) ∧
    (¬ s.AllowsAll key passed → s.Refuses key value r t)

end AccessState

namespace AccessM

open AccessState SecretTables

variable {s : AccessState} {key value : Val} {r : GcRef .table} {t : Table}
variable {n : ℕ} {u last : Val} {passed : List Val} {l : Look}

theorem agree_vmStore_iff (hallow : s.Allows key r) (hget : s.tables.gc.heap.get r = some t) (inPlace : Bool) :
    Agree (vmStore inPlace r key value) (rawSetApiTable r key value) s ↔ s.StoresAlike key value r t inPlace := by
  by_cases hopen : Writable s r
  · rw [StoresAlike, imp_iff_right hopen, and_iff_left fun h => absurd hopen h]
    cases inPlace with
    | false =>
      simp only [forall_const]
      exact agree_new_iff hallow hget hopen
    | true =>
      have hrun : vmStore true r key value s = rawSetExistingSlot r key value s := by
        exact Act.bind_of_ok (onTables_apply (ensureTableNotFrozen_open hopen)) _
      rw [Agree, hrun]
      refine (agree_existing_iff hallow hget).trans ⟨fun h tables w t' delta hstored hset => ?_, ?_⟩
      · refine ⟨h tables w t' hstored ?_, by rintro ⟨⟩⟩
        rw [rawSet_of_delta, hset]
        rfl
      · intro h tables w t' hstored hset
        rw [rawSet_of_delta] at hset
        obtain ⟨⟨t'', res⟩, hdelta, heq⟩ := Option.map_eq_some_iff.mp hset
        cases res with
        | error e => cases heq
        | ok delta => exact (h tables w t'' delta hstored hdelta).1
  · rw [StoresAlike, imp_iff_right hopen, and_iff_right fun h => absurd h hopen]
    have hrun : ∃ e, vmStore inPlace r key value s = some (s, [], .error e) := by
      cases inPlace with
      | false => exact rawSetNewSlot_shut value hallow hopen
      | true =>
        obtain ⟨e, he⟩ := ensureTableNotFrozen_shut hopen
        exact ⟨e, Act.bind_of_error (onTables_apply he) _⟩
    obtain ⟨e, he⟩ := hrun
    rw [← agree_refused_iff hallow hget e, Agree, Agree, he]
    rfl

/-- Where access is denied, the API does not store. -/
theorem rawSetApiTable_denied (value : Val) (h : ¬ s.Allows key r) :
    ∃ e, rawSetApiTable r key value s = some (s, [], .error e) := by
  obtain ⟨res, hres⟩ := checkTableAccess_total s.stateIsSecure r (some key) s.tables
  cases res with
  | ok _ => exact absurd ⟨_, _, hres⟩ h
  | error e =>
    refine ⟨e, ?_⟩
    rw [rawSetApiTable, Act.get_bind]
    exact onTables_apply (Act.bind_of_error hres _)

/-- Stores agree with what follows them as they agree. -/
theorem agree_bind_done_iff {x y : AccessM Unit} {α : Type} (d : α) :
    Agree (do x; pure d) (do y; pure d) s ↔ Agree x y s := by
  have hrun : ∀ x : AccessM Unit, ((do x; pure d : AccessM α) s).map (fun res => (res.1, res.2.2.toOption)) =
      ((x s).map fun res => (res.1, res.2.2.toOption)).map (Prod.map id (Option.map fun _ => d)) := by
    intro x
    change Option.map _ (Act.andThen x _ s) = _
    rw [Act.andThen]
    cases x s with
    | none => rfl
    | some res =>
      obtain ⟨s', w, res⟩ := res
      cases res <;> rfl
  have hinj : Function.Injective (Option.map fun _ : Unit => d) := Option.map_injective fun _ _ _ => rfl
  rw [Agree, Agree, hrun, hrun]
  exact (Option.map_injective (Function.injective_id.prodMap hinj)).eq_iff

/-- A value is stored in a table, or a function is called. -/
theorem answers_newIndex (hlook : s.look .newIndex key last = some l) (hans : l.Answers) :
    (∃ f, l = .call f) ∨ (∀ f, l ≠ .call f) ∧ ∃ r, last = .table r ∧
      ∀ store : GcRef .table → AccessM Unit, writeAnswer store last l = (do store r; pure none) := by
  by_cases htab : ∃ r, last = .table r
  · obtain ⟨r, rfl⟩ := htab
    cases l with
    | next v => exact hans.elim
    | failed => exact hans.elim
    | call f => exact .inl ⟨f, rfl⟩
    | found v => exact .inr ⟨nofun, r, rfl, fun _ => rfl⟩
    | absent => exact .inr ⟨nofun, r, rfl, fun _ => rfl⟩
  · rw [look_other fun r hr => htab ⟨r, hr⟩] at hlook
    obtain rfl := Option.some.inj hlook
    cases htm : s.tables.gc.gettmbyobj last .newIndex with
    | none =>
      rw [htm] at hans
      exact hans.elim
    | some tm =>
      rw [htm] at hans
      cases tm with
      | function f => exact .inl ⟨f, rfl⟩
      | _ => exact hans.elim

theorem agree_writeAnswer_iff (hlook : s.look .newIndex key last = some l) (hans : l.Answers)
    (hallows : s.AllowsAll key (passed ++ [last])) :
    Agree (writeAnswer (fun r => vmStore (inPlace s r l) r key value) last l)
      (writeAnswer (rawSetApiTable · key value) last l) s ↔ s.WritesAlike key value passed last l := by
  obtain ⟨f, rfl⟩ | ⟨hcall, r, rfl, hwrite⟩ := answers_newIndex hlook hans
  · exact iff_of_true (.refl _ _) ⟨fun _ _ => hallows, fun _ _ _ hnot => absurd rfl (hnot f)⟩
  · have hallow := hallows r (List.mem_append_right _ (List.mem_singleton_self _))
    have hpassed : s.AllowsAll key passed := fun r hr => hallows r (List.mem_append_left _ hr)
    obtain ⟨t, hget⟩ := exists_of_allows hallow
    rw [hwrite, hwrite, agree_bind_done_iff, agree_vmStore_iff hallow hget]
    constructor
    · refine fun h => ⟨fun f heq => absurd heq (hcall f), fun r' t' heq _ _ hget' => ?_⟩
      cases heq
      cases hget.symm.trans hget'
      exact ⟨fun _ => h, fun hnot => absurd hpassed hnot⟩
    · exact fun h => (h.store r t rfl hcall hallow hget).1 hpassed

theorem agree_denied_iff (hlook : s.look .newIndex key last = some l) (hans : l.Answers)
    (hdenied : ¬ s.AllowsAll key (passed ++ [last])) (e : LuaError) :
    Agree (Act.fail e) (writeAnswer (rawSetApiTable · key value) last l) s ↔ s.WritesAlike key value passed last l := by
  obtain ⟨f, rfl⟩ | ⟨hcall, r, rfl, hwrite⟩ := answers_newIndex hlook hans
  · refine iff_of_false (fun h => ?_) fun h => hdenied (h.call f rfl)
    cases h
  · rw [hwrite]
    by_cases hallow : s.Allows key r
    · obtain ⟨t, hget⟩ := exists_of_allows hallow
      have hpassed : ¬ s.AllowsAll key passed := by
        refine fun hall => hdenied fun r' hr' => ?_
        rcases List.mem_append.mp hr' with hr' | hr'
        · exact hall r' hr'
        · cases List.mem_singleton.mp hr'
          exact hallow
      have hfail : Agree (Act.fail e : AccessM (Option (Val × Val))) (do Act.fail e; pure none) s := rfl
      rw [hfail.congr (.refl _ s), agree_bind_done_iff, agree_refused_iff hallow hget]
      constructor
      · refine fun h => ⟨fun f heq => absurd heq (hcall f), fun r' t' heq _ _ hget' => ?_⟩
        cases heq
        cases hget.symm.trans hget'
        exact ⟨fun hall => absurd hall hpassed, fun _ => h⟩
      · exact fun h => (h.store r t rfl hcall hallow hget).2 hpassed
    · obtain ⟨e', he⟩ := rawSetApiTable_denied value hallow
      refine iff_of_true ?_ ⟨fun f heq => absurd heq (hcall f), fun r' t' heq _ hallow' _ => ?_⟩
      · rw [Agree, Act.bind_of_error he]
        rfl
      · cases heq
        exact absurd hallow' hallow

/-- `settable` is `SETTABLE` exactly where looking for the field comes to the same for both. -/
theorem agree_settable (hread : s.Readable key) (value t : Val) :
    Agree (vmSettable t key value) (settable t key value) s ↔
      ∀ passed last l, s.Ends .newIndex key some TableM.maxTagLoop t passed last l →
        s.WritesAlike key value passed last l := by
  by_cases hends : ∃ passed last l, s.Ends .newIndex key some TableM.maxTagLoop t passed last l
  · obtain ⟨passed, last, l, hends⟩ := hends
    have hcond : (∀ passed last l, s.Ends .newIndex key some TableM.maxTagLoop t passed last l →
        s.WritesAlike key value passed last l) ↔ s.WritesAlike key value passed last l := by
      refine ⟨fun h => h _ _ _ hends, fun h passed' last' l' hends' => ?_⟩
      obtain ⟨rfl, rfl, rfl⟩ := hends.unique hends'
      exact h
    have hapi : Agree (settable t key value) _ s := settableLoop_ends hread hends
    rw [hcond]
    by_cases hallows : s.AllowsAll key (passed ++ [last])
    · refine (Agree.congr (vmSettableLoop_ends hread hends hallows) hapi).trans ?_
      exact agree_writeAnswer_iff hends.2.1 hends.2.2 hallows
    · refine (Agree.congr (vmSettableLoop_ends_denied hread hends hallows ⟨"tainted access"⟩) hapi).trans ?_
      exact agree_denied_iff hends.2.1 hends.2.2 hallows _
  · rw [not_exists] at hends
    have hnone : ∀ passed last l, ¬ s.Ends .newIndex key some TableM.maxTagLoop t passed last l :=
      fun passed last l h => hends passed ⟨last, l, h⟩
    refine iff_of_true ?_ fun passed last l h => absurd h (hnone passed last l)
    exact (vmSettableLoop_fails hread hnone ⟨"loop in settable"⟩).trans (settableLoop_fails hread hnone _).symm

end AccessM

/-- Tables that assignments have built can be read. -/
theorem SecretTables.TablesBuilt.readable {s : AccessState} (h : s.tables.TablesBuilt) (key : Val) :
    s.Readable key := by
  intro r t hget
  obtain ⟨hinv, -⟩ := h r t hget
  by_cases hlive : key.Live s.tables.gc.heap.strings
  · rw [hinv.get_eq hlive]
    rfl
  · rw [hinv.get_of_not_live hlive]
    rfl

/-- The first of the tables of `fullHeap` is empty. -/
theorem look_fullHeap {key : Val} (event : TMS)
    (h : Table.get {} key SecretTables.fullHeap.gc.heap.strings = some .nil) :
    ({ tables := SecretTables.fullHeap } : AccessState).look event key (.table ⟨0, 0⟩) = some .absent := by
  have hget : SecretTables.fullHeap.gc.heap.get (⟨0, 0⟩ : GcRef .table) = some {} := rfl
  rw [AccessState.look_table event hget h]
  rfl

theorem OrderM.Uncached.allocTable {g g' : Gc} {u : GcRef .table} (h : Uncached g)
    (halloc : g.allocTable {} = some (g', u)) : Uncached g' := by
  intro r t hget
  rcases SecretTables.get_of_allocTable halloc hget with rfl | hget
  · rfl
  · exact h r t hget

theorem uncached_fullHeap : OrderM.Uncached SecretTables.fullHeap.gc := by
  have hempty : OrderM.Uncached {} := fun r t h => by cases h
  have hone : OrderM.Uncached ((({} : Gc).allocTable {}).elim {} Prod.fst) := hempty.allocTable rfl
  have htwo := hone.allocTable (u := ⟨1, 0⟩) rfl
  intro r t hget
  refine htwo r t ?_
  rw [← hget]
  exact (Heap.get_setColor ..).symm

/-- Two tables, of which the first is frozen. -/
def frozenHeap : AccessState where
  tables := { gc :=
    { SecretTables.fullHeap.gc with heap := SecretTables.fullHeap.gc.heap.putFlag ⟨.table, ⟨0, 0⟩⟩ .frozen true } }

end Rilua.Vm
