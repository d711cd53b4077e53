import Rilua.Vm.Gc.Program

/-! Assignments to tables and `setmetatable`, with their barriers. A store that runs into the memory limit comes to an end
    before the barrier, and one that takes away the weak mode of a table that has been traversed leaves entries behind
    that have neither been marked nor will be cleared; all others keep what the steps of the collector keep. -/

namespace Rilua.Vm

open Lib Gc TableM

namespace Gc

variable {g : Gc} {r : GcRef .table}

/-! ### Weak modes -/

theorem checkWeakMode_modify {f : Obj .table → Obj .table}
    (hf : ∀ t, g.heap.get r = some t → ∀ key, Table.get (f t) (.str key) g.heap.strings =
      Table.get t (.str key) g.heap.strings) (mt : Option (GcRef .table)) :
    (g.modify r f).checkWeakMode mt = g.checkWeakMode mt := by
  have hstrings : (g.modify r f).heap.arena .string = g.heap.arena .string :=
    Heap.arena_put_ne _ (by simp) _ ((g.heap.wf .table).modify r f)
  have hget : ∀ u : GcRef .string, (g.modify r f).heap.get u = g.heap.get u := fun u => by
    rw [Heap.get, Heap.get, hstrings]
  have hname : (g.modify r f).findInternedString modeName = g.findInternedString modeName := by
    have htm : (g.modify r f).tmNames = g.tmNames := rfl
    simp only [findInternedString, hstrings, hget, htm]
  have hmeta : ∀ mt, (g.modify r f).metafield mt modeName = g.metafield mt modeName := by
    intro mt
    rw [metafield, metafield, hname, hstrings]
    by_cases hmt : mt = r
    · subst hmt
      have hself : (g.modify mt f).heap.get mt = (g.heap.get mt).map f := by
        rw [Gc.modify, Heap.get_modify, if_pos rfl]
      rw [hself]
      cases ht : g.heap.get mt with
      | none => rfl
      | some t =>
        cases g.findInternedString modeName with
        | none => rfl
        | some key => exact congrArg (·.getD Val.nil) (hf t ht key)
    · have hother : (g.modify r f).heap.get mt = g.heap.get mt := by
        rw [Gc.modify, Heap.get_modify, if_neg hmt]
      rw [hother]
  cases mt with
  | none => rfl
  | some mt =>
    rw [checkWeakMode, checkWeakMode, Option.map_some, Option.map_some, hmeta]
    simp only [hget]

theorem keepsModes_of_eq {g' : Gc} (h : ∀ mt, g'.checkWeakMode mt = g.checkWeakMode mt) : KeepsModes g g' :=
  fun _ _ _ _ => by
    rw [h]
    exact .refl _

/-! ### Metamethods -/

theorem Ok.alive_metatable (h : g.Ok) (hr : g.Alive ⟨_, r⟩) {t : Table} (ht : g.heap.get r = some t) {mt : GcRef .table}
    (hmt : t.metatable = some mt) : g.Alive ⟨_, mt⟩ := by
  obtain ⟨x, hx, hc⟩ := hr
  rw [Heap.get_eq, hx, Option.map_some, Option.some.injEq] at ht
  subst ht
  refine h.refs ⟨.table, r⟩ x hx hc _ (mem_refs_of_vals (v := .table mt) ?_ rfl)
  simp [Obj.vals, hmt]

/-- The metatable of a value that is alive is alive. -/
theorem Ok.metatableOf (h : g.Ok) {v : Val} (hv : ∀ o ∈ v.objRef, g.Alive o) {mt : GcRef .table}
    (hmt : g.metatableOf v = some mt) : g.Alive ⟨_, mt⟩ := by
  rw [Gc.metatableOf.eq_def] at hmt
  split at hmt
  · obtain ⟨t, ht, hmt⟩ := Option.bind_eq_some_iff.mp hmt
    exact h.alive_metatable (hv _ rfl) ht hmt
  · obtain ⟨u, hu, hmt⟩ := Option.bind_eq_some_iff.mp hmt
    obtain ⟨x, hx, hc⟩ := hv _ rfl
    rw [Heap.get_eq, hx, Option.map_some, Option.some.injEq] at hu
    subst hu
    refine h.refs _ x hx hc _ (mem_refs_of_vals (k := .userdata) (v := .table mt) ?_ rfl)
    simp [Obj.vals, Userdata.vals, hmt]
  · refine h.kept _ ?_
    have hmem := List.mem_of_getElem? (Option.join_eq_some_iff.mp hmt)
    refine List.mem_append_left _ (List.mem_map.mpr ⟨mt, List.mem_filterMap.mpr ⟨_, hmem, rfl⟩, rfl⟩)

/-- A metamethod of a metatable that is alive is alive. -/
theorem Ok.getStr (h : g.Ok) {mt : GcRef .table} (hmt : g.Alive ⟨_, mt⟩) {t : Table} (ht : g.heap.get mt = some t)
    {name : GcRef .string} {v : Val} (hv : t.getStr name g.heap.strings = some v) : ∀ o ∈ v.objRef, g.Alive o :=
  (h.holds hmt ht).getStr (by simp [Val.objRef]) hv

theorem Ok.fasttm (h : g.Ok) {mt : GcRef .table} (hmt : g.Alive ⟨_, mt⟩) {event : TMS} {v : Val}
    (hv : g.fasttm mt event = some v) : ∀ o ∈ v.objRef, g.Alive o := by
  simp only [Gc.fasttm, bind, Option.bind_eq_some_iff] at hv
  obtain ⟨t, ht, hv⟩ := hv
  split at hv
  · cases hv
  · obtain ⟨name, -, hv⟩ := Option.bind_eq_some_iff.mp hv
    obtain ⟨w, hw, hv⟩ := Option.bind_eq_some_iff.mp hv
    split at hv <;> cases hv
    exact h.getStr hmt ht hw

theorem Ok.gettmbyobj (h : g.Ok) {current : Val} (hcur : ∀ o ∈ current.objRef, g.Alive o) {event : TMS} {v : Val}
    (hv : g.gettmbyobj current event = some v) : ∀ o ∈ v.objRef, g.Alive o := by
  simp only [Gc.gettmbyobj, bind, Option.bind_eq_some_iff] at hv
  obtain ⟨name, -, mt, hmt, t, ht, w, hw, hv⟩ := hv
  split at hv <;> cases hv
  exact h.getStr (h.metatableOf hcur hmt) ht hw

end Gc

namespace LuaState

variable {s : LuaState} {r : GcRef .table} {g : Gc} {key value : Val}

/-- The store is within the memory limit, and the metatables of the weak tables that have been listed keep their modes. -/
structure Admits (s : LuaState) (g : Gc) : Prop where
  limit : g.gcState.totalBytes ≤ g.gcState.allocLimit
  modes : s.gc.gcState.phase = .propagate → KeepsModes s.gc g

/-- With the heap `g` the machine is sound, if the stores that have led to it are admitted. -/
def Leaves (s : LuaState) (g : Gc) : Prop := s.Admits g → Sound (fun _ => False) { s with gc := g }

/-- A table has been written to, and the barrier is still to be called. -/
def Written (s : LuaState) (r : GcRef .table) (g : Gc) : Prop :=
  (s.gc.gcState.phase = .propagate → KeepsModes s.gc g) → Sound (· = ⟨.table, r⟩) { s with gc := g }

/-- Nothing has been written to that needs a barrier, and nothing has died. -/
structure Goes (s : LuaState) (g : Gc) : Prop where
  sound : Sound (fun _ => False) { s with gc := g }
  alive : ∀ o, s.gc.Alive o → g.Alive o

/-- What a step of an assignment comes to: it is over, or it goes on with a value that is alive. -/
def After (s : LuaState) : SettableStep → Gc → Prop
  | .done, g | .call .., g => s.Leaves g
  | .next v, g => g = s.gc ∧ ∀ o ∈ v.objRef, s.gc.Alive o

/-- The outcome of a store. -/
abbrev Stores {α : Type} (s : LuaState) (P : Gc → Prop) (x : TableM α) (Q : α → Gc → Prop) : Prop :=
  Act.Outcome s.Leaves P x Q

namespace Stores

/-! ### What only reads -/

theorem observes_read (r : GcRef .table) (missing : LuaError) : Act.Observes (TableM.read r missing) := by
  refine .bind .get fun g => ?_
  split
  · exact .pure _
  · exact .fail _

theorem observes_checkTableAccess (r : GcRef .table) : Act.Observes (TableM.checkTableAccess r) :=
  .bind (observes_read r _) fun _ => .pure _

theorem observes_ensureTableNotFrozen (r : GcRef .table) : Act.Observes (TableM.ensureTableNotFrozen r) := by
  refine .bind .get fun g => ?_
  split_ifs
  · exact .fail _
  · exact .fail _
  · exact .pure _

variable (hs : s.Sound fun _ => False)

include hs

theorem leaves_self : s.Leaves s.gc := fun _ => hs

theorem reading {α : Type} {x : TableM α} (hx : Act.Observes x) : Stores s (· = s.gc) x fun _ => (· = s.gc) :=
  .of_observes hx (by rintro _ rfl; exact leaves_self hs)

theorem read {missing : LuaError} :
    Stores s (· = s.gc) (TableM.read r missing) fun t g => g = s.gc ∧ s.gc.heap.get r = some t := by
  refine .bind .get fun g => ?_
  split
  · next t ht =>
    refine .pure ?_
    rintro _ ⟨rfl, rfl⟩
    exact ⟨rfl, ht⟩
  · refine .fail ?_
    rintro _ ⟨-, rfl⟩
    exact leaves_self hs

/-! ### Stores -/

theorem update {α : Type} {f : Table → StringArena → Option (TableResult α)} {missing : LuaError}
    (keys values : List Val) (hr : s.gc.Alive ⟨_, r⟩)
    (herr : ∀ t t' e, f t s.gc.heap.strings = some (t', .error e) → t.Fills [] [] t')
    (hok : ∀ t t' a, f t s.gc.heap.strings = some (t', .ok a) → t.Fills keys values t' ∧ ∀ k ∈ keys, k ≠ .nil)
    (hkeys : ∀ k ∈ keys, ∀ o ∈ k.objRef, s.gc.Alive o) (hvalues : ∀ v ∈ values, ∀ o ∈ v.objRef, s.gc.Alive o) :
    Stores s (· = s.gc) (TableM.update r missing f) fun _ => s.Written r := by
  obtain ⟨x, hx, hc⟩ := hr
  have hget : s.gc.heap.get r = some x.value := by
    rw [Heap.get_eq, hx]
    rfl
  refine .attempt ?_
  rintro _ g' res rfl heq
  rw [hget] at heq
  obtain ⟨⟨t', res'⟩, hres, heq⟩ := Option.map_eq_some_iff.mp heq
  cases heq
  refine ⟨fun a ha => ?_, fun e he => ?_⟩
  · subst ha
    obtain ⟨hf, hne⟩ := hok _ _ _ hres
    exact hs.writes (Gc.Mutates.fills hs.ok.gc hx hc hf (fun k hk => ⟨hne k hk, hkeys k hk⟩) hvalues)
  · subst he
    exact fun ha => hs.refills hx hc (herr _ _ _ hres) ha.modes

omit hs

/-- The barrier after a write. -/
theorem barrierBack : Stores s (s.Written r) (TableM.barrierBack r) fun _ => s.Leaves := by
  refine .modify fun g hg ha => ?_
  refine (hg fun hp u hu t ht => ?_).barrierBack
  have hmode := ha.modes hp u hu t ht
  rwa [(Gc.Keeps.markSteps.barrierBack g r).checkWeakMode_eq] at hmode

/-- The memory that the table has gained is counted. -/
theorem trackAlloc (n : ℕ) : Stores s (s.Written r) (Act.modify fun g => g.trackAlloc n) fun _ => s.Written r := by
  refine .modify fun g hg hmodes => ?_
  have h := hg hmodes
  exact h.mutates (.counters h.ok.gc.interned _ _) (fun _ => keepsModes_of_eq fun _ => rfl) (fun _ hf => hf.elim) fun _ ho => ho

/-- The limit is checked before the barrier. -/
theorem checked : Stores s (s.Written r) (do
      let g ← Act.get
      if g.gcState.totalBytes > g.gcState.allocLimit then Act.fail ⟨"not enough memory"⟩
      else TableM.barrierBack r : TableM Unit) fun _ => s.Leaves := by
  refine .bind .get fun g => ?_
  split
  · next hlimit =>
    refine .fail ?_
    rintro _ ⟨rfl, -⟩ ha
    exact absurd ha.limit (by omega)
  · exact barrierBack.mono (fun _ h => h.2) fun _ _ h => h

variable (hr : s.gc.Alive ⟨_, r⟩) (hkey : ∀ o ∈ key.objRef, s.gc.Alive o) (hvalue : ∀ o ∈ value.objRef, s.gc.Alive o)

include hs hr hkey hvalue

theorem tableSet : Stores s (· = s.gc) (TableM.tableSet r key value) fun _ => s.Leaves := by
  refine .writing (.bind (reading hs (observes_checkTableAccess r)) fun _ =>
    .bind (reading hs (observes_ensureTableNotFrozen r)) fun _ => .bind (update hs [key] [value] hr
      (fun _ _ _ h => .of_error h) (fun _ _ _ h => ?_) (by simpa using hkey) (by simpa using hvalue)) fun delta =>
    .bind (trackAlloc delta) fun _ => checked)
  obtain ⟨hne, hf⟩ := Table.Fills.of_ok h
  exact ⟨hf, by simpa using hne⟩

theorem rawSet {missing : LuaError} : Stores s (· = s.gc) (TableM.rawSet r key value missing) fun _ => s.Written r := by
  refine update hs [key] [value] hr (fun _ _ _ h => .rawSet_error h) (fun _ _ _ h => ?_)
    (by simpa using hkey) (by simpa using hvalue)
  obtain ⟨hne, hf⟩ := Table.Fills.rawSet_ok h
  exact ⟨hf, by simpa using hne⟩

omit hkey hvalue hr in
theorem after_resolve {current tm : Val} (htm : ∀ o ∈ tm.objRef, s.gc.Alive o) :
    s.After (resolveSettableTm current tm) s.gc := by
  cases tm with
  | function f => exact leaves_self hs
  | _ => exact ⟨rfl, htm⟩

theorem handleTableSettable : Stores s (· = s.gc) (TableM.handleTableSettable r key value) s.After := by
  refine .bind (reading hs (observes_checkTableAccess r)) fun _ => .bind (read hs) fun t => ?_
  refine .assume (φ := s.gc.heap.get r = some t) (fun _ h => h.2) fun ht => ?_
  have hset : Stores s (· = s.gc) (TableM.tableSet r key value >>= fun _ => pure SettableStep.done) s.After :=
    .bind (tableSet hs hr hkey hvalue) fun _ => .pure fun _ h => h
  split_ifs
  · exact hset.mono (fun _ h => h.1) fun _ _ h => h
  refine .bind .get fun g => ?_
  refine .assume (φ := g = s.gc) (fun _ h => h.1.trans h.2.1) fun hg => ?_
  subst hg
  refine .bind (Q := fun _ => (· = s.gc)) (.lift ?_) fun existing => ?_
  · rintro g g' a ⟨-, rfl, -⟩ heq
    obtain ⟨b, -, heq⟩ := Option.map_eq_some_iff.mp heq
    cases heq
    rfl
  split_ifs
  · split
    · exact .bind (.writing (reading hs (observes_ensureTableNotFrozen r))) fun _ => hset
    · next tm htm =>
      obtain ⟨mt, hmt, htm⟩ := Option.bind_eq_some_iff.mp htm
      refine .pure ?_
      rintro _ rfl
      exact after_resolve hs (hs.ok.gc.fasttm (hs.ok.gc.alive_metatable hr ht hmt) htm)
  · refine .bind (Q := fun _ => s.Leaves) (.writing (.bind (reading hs (observes_ensureTableNotFrozen r)) fun _ =>
      .bind (rawSet hs hr hkey hvalue) fun _ => barrierBack)) fun _ => .pure fun _ h => h

omit hr in
theorem settableStep {current : Val} (hcur : ∀ o ∈ current.objRef, s.gc.Alive o) :
    Stores s (· = s.gc) (TableM.settableStep current key value) s.After := by
  rw [TableM.settableStep.eq_def]
  split
  · exact handleTableSettable hs (hcur _ rfl) hkey hvalue
  · refine .bind .get fun g => ?_
    refine .assume (φ := g = s.gc) (fun _ h => h.1.trans h.2) fun hg => ?_
    subst hg
    split
    · next tm htm =>
      refine .pure ?_
      rintro _ ⟨-, rfl⟩
      exact after_resolve hs (hs.ok.gc.gettmbyobj hcur htm)
    · refine .fail ?_
      rintro _ ⟨-, rfl⟩
      exact leaves_self hs

omit hr in
/-- An assignment, along a chain of `__newindex`: by induction on the steps that are left. -/
theorem vmSettable {current : Val} (hcur : ∀ o ∈ current.objRef, s.gc.Alive o) :
    Stores s (· = s.gc) (TableM.vmSettable current key value) fun _ => s.Leaves := by
  rw [TableM.vmSettable]
  generalize maxTagLoop = n
  induction n generalizing current with
  | zero =>
    refine .fail ?_
    rintro _ rfl
    exact leaves_self hs
  | succ n ih =>
    refine .bind (settableStep hs hkey hvalue hcur) fun step => ?_
    cases step with
    | done => exact .pure fun _ h => h
    | call => exact .pure fun _ h => h
    | next v =>
      refine .assume (φ := ∀ o ∈ v.objRef, s.gc.Alive o) (fun _ h => h.2) fun hv => ?_
      exact (ih hv).mono (fun _ h => h.1) fun _ _ h => h

omit hr hkey hvalue in
theorem luaRawset {args : List Val} (hargs : ∀ n, ∀ o ∈ (argOf args n).objRef, s.gc.Alive o) :
    Stores s (· = s.gc) (TableM.luaRawset args) fun _ => s.Leaves := by
  have hfail : ∀ {e : LuaError} {P : Gc → Prop}, (∀ g, P g → g = s.gc) →
      Stores s P (Act.fail e : TableM Val) fun _ => s.Leaves := fun hP => .fail fun g hg => hP g hg ▸ leaves_self hs
  rw [TableM.luaRawset.eq_def]
  split
  · exact hfail fun _ h => h
  split
  · next r harg =>
    have hr : s.gc.Alive ⟨_, r⟩ := hargs 0 _ (by rw [harg]; rfl)
    refine .writing (.bind (reading hs (observes_checkTableAccess r)) fun _ => .bind .get fun g => ?_)
    split
    · exact hfail fun _ h => h.2
    · refine .bind ((rawSet hs hr (hargs 1) (hargs 2)).mono (fun _ h => h.2) fun _ _ h => h) fun _ => ?_
      exact .bind (Q := fun _ => s.Leaves) barrierBack fun _ => .pure fun _ h => h
  · exact hfail fun _ h => h

/-! ### Stores that look at no key -/

omit hs hr hkey hvalue

theorem leaves_of_goes (h : s.Goes g) : s.Leaves g := fun _ => h.sound

theorem goes_self (hs : s.Sound fun _ => False) : s.Goes s.gc := ⟨hs, fun _ h => h⟩

theorem reading' {α : Type} {x : TableM α} (hx : Act.Observes x) : Stores s s.Goes x fun _ => s.Goes :=
  .of_observes hx fun _ => leaves_of_goes

/-- The memory that the table has gained is counted. -/
theorem goes_trackAlloc (h : s.Goes g) (n : ℕ) : s.Goes (g.trackAlloc n) := by
  have hm := Gc.Mutates.counters h.sound.ok.gc.interned (g.gcState.totalBytes + n) g.gcState.udAllocSeq
  exact ⟨h.sound.mutates hm (fun _ => keepsModes_of_eq fun _ => rfl) (fun _ hf => hf) fun _ hf => hf,
    fun o ho => hm.alive h.sound.ok.gc.white (h.alive o ho)⟩

/-- The array part of a table is changed: the barrier is still to be called, unless nothing new has been stored. -/
theorem goes_fills {values : List Val} {F : Table → Table} (h : s.Goes g) (hr : s.gc.Alive ⟨_, r⟩) {t : Table}
    (ht : g.heap.get r = some t) (hF : t.Fills [] values (F t))
    (hget : ∀ key, Table.get (F t) (.str key) g.heap.strings = Table.get t (.str key) g.heap.strings)
    (hvalues : ∀ v ∈ values, ∀ o ∈ v.objRef, s.gc.Alive o) :
    s.Written r (g.modify r fun _ => F t) ∧ (values = [] → s.Goes (g.modify r fun _ => F t)) := by
  obtain ⟨x, hx, hc⟩ := h.alive _ hr
  have hxt : x.value = t := by
    rw [Heap.get_eq, hx] at ht
    exact Option.some.inj ht
  subst hxt
  have hmodes : KeepsModes g (g.modify r fun _ => F x.value) := by
    refine keepsModes_of_eq (checkWeakMode_modify fun u hu key => ?_)
    rw [ht] at hu
    cases hu
    exact hget key
  have hm := Gc.Mutates.fills h.sound.ok.gc hx hc hF (by simp) fun v hv o ho => h.alive o (hvalues v hv o ho)
  refine ⟨fun _ => h.sound.writes hm fun _ => hmodes, ?_⟩
  rintro rfl
  exact ⟨h.sound.refills hx hc hF fun _ => hmodes, fun o ho => hm.alive h.sound.ok.gc.white (h.alive o ho)⟩

/-- The update of a table that cannot fail. -/
theorem update_slots {α : Type} {F : Table → Table} {a : Table → α} {missing : LuaError}
    {Q : Gc → Prop} (hQ : ∀ g t, s.Goes g → g.heap.get r = some t → Q (g.modify r fun _ => F t)) :
    Stores s s.Goes (TableM.update r missing fun t _ => some (F t, .ok (a t))) fun _ => Q := by
  refine .attempt fun g g' res hg heq => ?_
  split at heq
  · next t ht =>
    cases heq
    exact ⟨fun _ _ => hQ g t hg ht, nofun⟩
  · cases heq
    exact ⟨nofun, fun _ _ => leaves_of_goes hg⟩

theorem get_setArraySlots : ∀ (values : List Val) (t : Table) (idx : ℕ) (strings : StringArena) (key : GcRef .string),
    Table.get (t.setArraySlots idx values) (.str key) strings = Table.get t (.str key) strings
  | [], _, _, _, _ => rfl
  | v :: values, t, idx, strings, key => get_setArraySlots values (t.setArray idx v) (idx + 1) strings key

theorem opSetList (hs : s.Sound fun _ => False) {table : Val} {values : List Val}
    (htable : ∀ o ∈ table.objRef, s.gc.Alive o) (hvalues : ∀ v ∈ values, ∀ o ∈ v.objRef, s.gc.Alive o) (c : ℕ) :
    Stores s (· = s.gc) (TableM.opSetList table values c) fun _ => s.Leaves := by
  rw [TableM.opSetList.eq_def]
  split
  · next r =>
    have hr : s.gc.Alive ⟨_, r⟩ := htable _ rfl
    refine Act.Outcome.mono (P := s.Goes) ?_ (fun g hg => hg ▸ goes_self hs) fun _ _ h => h
    refine .writing (.bind (reading' (observes_checkTableAccess r)) fun _ => ?_)
    refine .bind (update_slots (F := fun t => t.ensureArrayCapacity ((c - 1) * lfieldsPerFlush + values.length)) (Q := s.Goes)
      fun g t hg ht => ?_) fun grown => ?_
    · exact (goes_fills (F := fun t => t.ensureArrayCapacity ((c - 1) * lfieldsPerFlush + values.length)) hg hr ht
        (Table.Fills.ensureArrayCapacity t _) (fun _ => rfl) (by simp)).2 rfl
    refine .bind (Q := fun _ => s.Goes) (.modify fun g hg => goes_trackAlloc hg grown) fun _ => .bind .get fun g => ?_
    split
    · exact .fail fun _ h => leaves_of_goes h.2
    refine .bind ((reading' (observes_ensureTableNotFrozen r)).mono (fun _ h => h.2) fun _ _ h => h) fun _ => ?_
    refine .bind (update_slots (F := fun t => t.setArraySlots ((c - 1) * lfieldsPerFlush) values) (Q := s.Written r)
      fun g t hg ht => ?_) fun _ => barrierBack
    exact (goes_fills (F := fun t => t.setArraySlots ((c - 1) * lfieldsPerFlush) values) hg hr ht
      (Table.Fills.setArraySlots values t _) (get_setArraySlots values t _ _) hvalues).1
  · exact .fail fun g hg => hg ▸ leaves_self hs

/-- Setting the metatable leaves the entries as they are. -/
theorem written_setMetatable (h : s.Goes g) (hr : s.gc.Alive ⟨_, r⟩) {mt : Option (GcRef .table)}
    (hmt : ∀ m ∈ mt, s.gc.Alive ⟨_, m⟩) : s.Written r (g.modify r fun t => Table.setMetatable t mt) := by
  intro _
  obtain ⟨x, hx, hc⟩ := h.alive _ hr
  have hent := h.sound.ok.gc.entries hx hc
  obtain ⟨hrefs, htidy⟩ := alive_of_entries (t := x.value.setMetatable mt) ⟨hent.slots, hent.nodes⟩
    fun m hm => h.alive _ (hmt m hm)
  have hself : ∀ y, g.heap.cell ⟨.table, r⟩ = some y → y = x := fun y hy => by
    rw [hx] at hy
    exact (Option.some.inj hy).symm
  refine h.sound.writes (.modify h.sound.ok.gc (by simp) (by simp) (fun y hy _ => hself y hy ▸ hrefs)
    fun y hy => hself y hy ▸ htidy) fun _ => keepsModes_of_eq (checkWeakMode_modify fun t _ key => rfl)

/-- Interning of a static string. -/
theorem goes_internStringStatic {key : ℕ} {data : List UInt8} :
    Stores s s.Goes (TableM.internStringStatic key data) fun _ => s.Goes := by
  refine .lift fun g g' u hg heq => ?_
  obtain ⟨hm, -⟩ := Gc.Mutates.internStringStatic hg.sound.ok.gc heq
  exact ⟨hg.sound.mutates hm (fun _ => hm.keepsModes hg.sound.ok.gc fun _ h => h) (fun _ h => h) fun _ h => h,
    fun o ho => hm.alive hg.sound.ok.gc.white (hg.alive o ho)⟩

theorem hasProtection (existing : Option (GcRef .table)) :
    Stores s s.Goes (TableM.hasProtection existing) fun _ => s.Goes := by
  cases existing with
  | none => exact .pure fun _ h => h
  | some mt =>
    refine .bind goes_internStringStatic fun u => .bind .get fun g => ?_
    split
    · exact .pure fun _ h => h.2
    · refine .bind (Q := fun _ => s.Goes) (.lift fun g g' a hg heq => ?_) fun _ => .pure fun _ h => h
      obtain ⟨b, -, heq⟩ := Option.map_eq_some_iff.mp heq
      cases heq
      exact hg.2

theorem luaSetmetatable (hs : s.Sound fun _ => False) {args : List Val}
    (hargs : ∀ n, ∀ o ∈ (argOf args n).objRef, s.gc.Alive o) :
    Stores s (· = s.gc) (TableM.luaSetmetatable args) fun _ => s.Leaves := by
  refine Act.Outcome.mono (P := s.Goes) ?_ (fun g hg => hg ▸ goes_self hs) fun _ _ h => h
  rw [TableM.luaSetmetatable.eq_def]
  split
  · exact .fail fun _ => leaves_of_goes
  split
  · next r harg =>
    have hr : s.gc.Alive ⟨_, r⟩ := hargs 0 _ (by rw [harg]; rfl)
    refine .writing (.bind (reading' (observes_checkTableAccess r)) fun _ => .bind .get fun g => ?_)
    split
    · exact .fail fun _ h => leaves_of_goes h.2
    split
    · exact .fail fun _ h => leaves_of_goes h.2
    · next mt hmt =>
      have hmt : ∀ m ∈ mt, s.gc.Alive ⟨_, m⟩ := by
        rintro m ⟨⟩
        rw [metatableArg.eq_def] at hmt
        split at hmt <;> cases hmt
        next harg => exact hargs 1 _ (by rw [harg]; rfl)
      refine .bind .get fun g₁ => .bind ((hasProtection _).mono (fun _ h => h.2.2) fun _ _ h => h) fun b => ?_
      split
      · exact .fail fun _ => leaves_of_goes
      · refine .bind (Q := fun _ => s.Written r) (.modify fun g hg => written_setMetatable hg hr hmt) fun _ => ?_
        exact .bind (Q := fun _ => s.Leaves) barrierBack fun _ => .pure fun _ h => h
  · exact .fail fun _ => leaves_of_goes

end Stores

end LuaState

end Rilua.Vm
