import Rilua.Lib.Run
import Rilua.Vm.SecretWrapping

/-! Tables with secret contents in every run. Their values are nil or wrappers, and so is what a read through one of
    them returns, as long as the option is enabled on tables whose keys are found where they are, the stores that do
    not wrap store nil or wrappers in them, and the collector frees no wrapper that they hold. -/

namespace Rilua.Vm

open Lib Gc

/-! ### The machine -/

inductive SecretTablesOp where
  /-- An object of any kind is created. -/
  | alloc (k : ObjKind) (x : Obj k) (size : ℕ)
  | internString (data : List UInt8)
  | setTableSecurity (secure : Bool) (r : GcRef .table) (option : ℕ)
  | tableSet (secure : Bool) (r : GcRef .table) (key value : Val)
  | rawSetExistingSlot (secure : Bool) (r : GcRef .table) (key value : Val)
  | rawSetApiTable (secure : Bool) (r : GcRef .table) (key value : Val)
  | handleRawSet (secure : Bool) (r : GcRef .table) (key value : Val)
  | luaRawset (secure : Bool) (args : List Val)
  | setRaw (secure : Bool) (r : GcRef .table) (idx : ℤ) (value : Val)
  | opSetList (secure : Bool) (table : Val) (values : List Val) (c : ℕ)
  /-- `table.sort` reads a value. -/
  | sortRead (secure : Bool) (r : GcRef .table) (idx : ℤ)
  /-- `table.sort` swaps two values it has read. -/
  | swapSortValues (secure : Bool) (r : GcRef .table) (leftIdx : ℤ) (leftVal : Val) (rightIdx : ℤ) (rightVal : Val)
  | setField (r : GcRef .table) (key value : Val)
  | setGlobalVal (secure : Bool) (global : GcRef .table) (key value : Val)
  | vmGettable (secure canAccessSecrets : Bool) (t key : Val)
  | gettable (canAccessSecrets : Bool) (t key : Val)
  | opGetTable (secure canAccessSecrets : Bool) (t key : Val)
  | opGetGlobalSlot (secure canAccessSecrets : Bool) (slotIdx : ℕ) (env rootGlobal : GcRef .table) (snapshot : Val)
      (shadow : Option (GcRef .table)) (key : Val)
  /-- An `__index` function returns. -/
  | indexReturned (value : Val) (contentsSecret : Bool)
  | setMetatable (r : GcRef .table) (mt : Option (GcRef .table))
  | makeReadOnly (r : GcRef .table)
  | setUserdataMetatable (r : GcRef .userdata) (mt : Option (GcRef .table))
  | putFlag (o : ObjRef) (f : Flag) (b : Bool)
  | setColor (o : ObjRef) (c : Color)
  /-- The collector clears weak entries. -/
  | nilArrayEntry (r : GcRef .table) (idx : ℕ)
  | nilHashEntries (r : GcRef .table) (indices : List ℕ)
  | sweep (k : ObjKind) (deadColor newColor : Color) (start maxCount : ℕ)

namespace SecretM

/-- A new table has no security flags. -/
def resetFlags (flags : GcRef .table → UInt8) : (k : ObjKind) → GcRef k → GcRef .table → UInt8
  | .table, r => Function.update flags r 0
  | _, _ => flags

def alloc (k : ObjKind) (x : Obj k) (size : ℕ) : SecretM Unit :=
  Act.lift fun s => (s.gc.alloc k x size).map fun (gc, r) =>
    ({ s with gc, securityFlags := resetFlags s.securityFlags k r }, ())

def internString (data : List UInt8) : SecretM Unit :=
  Act.lift fun s => (s.gc.internString data).map fun (gc, _) => ({ s with gc }, ())

def sortRead (secure : Bool) (r : GcRef .table) (idx : ℤ) : SecretM Unit := do
  let v ← getRaw secure r idx
  Act.modify fun s => { s with sortReads := (r, v) :: s.sortReads }

def sweep (k : ObjKind) (deadColor newColor : Color) (start maxCount : ℕ) : SecretM Unit :=
  Act.lift fun s => (s.gc.heap.sweepPartial k deadColor newColor start maxCount).map fun (heap, _) =>
    ({ s with gc := { s.gc with heap } }, ())

def onTable (r : GcRef .table) (f : Table → Table) : SecretM Unit := onGc fun g => g.modify r f

/-- The value of a computation does not matter. -/
def ignore {α : Type} (x : SecretM α) : SecretM Unit := do
  let _ ← x

def run : SecretTablesOp → SecretM Unit
  | .alloc k x size => alloc k x size
  | .internString data => internString data
  | .setTableSecurity secure r option => setTableSecurity secure r option
  | .tableSet secure r key value => tableSet secure r key value
  | .rawSetExistingSlot secure r key value => rawSetExistingSlot secure r key value
  | .rawSetApiTable secure r key value => rawSetApiTable secure r key value
  | .handleRawSet secure r key value => handleRawSet secure r key value
  | .luaRawset secure args => ignore (luaRawset secure args)
  | .setRaw secure r idx value => setRaw secure r idx value
  | .opSetList secure table values c => opSetList secure table values c
  | .sortRead secure r idx => sortRead secure r idx
  | .swapSortValues secure r leftIdx leftVal rightIdx rightVal =>
    swapSortValues secure r leftIdx leftVal rightIdx rightVal
  | .setField r key value => setField r key value
  | .setGlobalVal secure global key value => setGlobalVal secure global key value
  | .vmGettable secure can t key => ignore (vmGettable secure can t key)
  | .gettable can t key => ignore (gettable can t key)
  | .opGetTable secure can t key => ignore (opGetTable secure can t key)
  | .opGetGlobalSlot secure can slotIdx env rootGlobal snapshot shadow key =>
    ignore (opGetGlobalSlot secure can slotIdx env rootGlobal snapshot shadow key)
  | .indexReturned value contentsSecret => ignore (wrapContentsResult value contentsSecret)
  | .setMetatable r mt => onTable r fun t => t.setMetatable mt
  | .makeReadOnly r => onTable r fun t => { t with readOnly := true }
  | .setUserdataMetatable r mt => onGc fun g => g.modify r fun ud => Userdata.withMetatable ud mt
  | .putFlag o f b => onGc fun g => { g with heap := g.heap.putFlag o f b }
  | .setColor o c => onGc fun g => { g with heap := g.heap.setColor o c }
  | .nilArrayEntry r idx => onTable r fun t => t.nilArrayEntry idx
  | .nilHashEntries r indices => onTable r fun t => t.nilHashEntries indices
  | .sweep k dead new start maxCount => sweep k dead new start maxCount

end SecretM

namespace SecretTables

/-- `table.sort` stores what it has read. -/
def step (s : SecretTables) (op : SecretTablesOp) : Option SecretTables :=
  match op with
  | .swapSortValues _ r _ leftVal _ rightVal =>
    if (r, leftVal) ∈ s.sortReads ∧ (r, rightVal) ∈ s.sortReads then (SecretM.run op s).map Prod.fst else none
  | _ => (SecretM.run op s).map Prod.fst

/-- The steps that keep the contents of the tables secret. -/
def Guarded (s : SecretTables) : SecretTablesOp → Prop
  | .setTableSecurity secure r option => secure = true → option = 2 → s.tableWrapsContents r = false → ∀ t,
    s.gc.heap.get r = some t → TableM.isFrozen s.gc r = false → Table.readOnly t = false → Table.Located s.gc.heap.strings t
  | .swapSortValues _ r leftIdx leftVal rightIdx rightVal => s.tableWrapsContents r = true → ∀ t, s.gc.heap.get r = some t →
    (Table.swapArrayInts t leftIdx rightIdx).isSome ∨ s.NilOrWrapper leftVal ∧ s.NilOrWrapper rightVal
  | .setField r _ value => s.tableWrapsContents r = true → s.NilOrWrapper value
  | .setGlobalVal _ global _ value => s.tableWrapsContents global = true → s.NilOrWrapper value
  | .sweep .userdata deadColor _ _ _ => ∀ r t, s.tableWrapsContents r = true → s.gc.heap.get r = some t →
    Table.Holds (fun v => ∀ u, v = .userdata u → s.gc.heap.color ⟨_, u⟩ ≠ some deadColor) t
  | _ => True

/-- The tables in `R` have secret contents, and the tables with secret contents hold nil and wrappers. -/
structure Sealed (R : Set (GcRef .table)) (s : SecretTables) : Prop where
  flagged : ∀ r ∈ R, s.securityFlags r &&& secretWrapContents ≠ 0
  policy : ∀ r, s.securityFlags r &&& secretWrapContents ≠ 0 → s.hasSecretContentsPolicy = true
  contents : ∀ r t, s.tableWrapsContents r = true → s.gc.heap.get r = some t → Table.Holds s.NilOrWrapper t

variable {R : Set (GcRef .table)} {s s' : SecretTables} {r : GcRef .table} {t t' : Table} {v : Val}

theorem nilOrWrapper_nil (s : SecretTables) : s.NilOrWrapper .nil := .inl rfl

/-- The tables that are there were there before. -/
theorem Sealed.frame (h : Sealed R s) (hkeep : s.KeepsWrappers s') (hflags : s'.securityFlags = s.securityFlags)
    (hpolicy : s'.hasSecretContentsPolicy = s.hasSecretContentsPolicy)
    (htables : ∀ r t, s'.gc.heap.get (r : GcRef .table) = some t → s.gc.heap.get r = some t) : Sealed R s' := by
  refine ⟨by rw [hflags]; exact h.flagged, by rw [hflags, hpolicy]; exact h.policy, fun r t hwraps hget => ?_⟩
  obtain ⟨hp, -, hf⟩ := tableWrapsContents_iff.mp hwraps
  have hwraps₀ : s.tableWrapsContents r = true :=
    tableWrapsContents_iff.mpr ⟨by rw [← hpolicy, hp], ⟨t, htables r t hget⟩, by rw [← hflags]; exact hf⟩
  exact (h.contents r t hwraps₀ (htables r t hget)).mono fun v hv => hkeep.nilOrWrapper hv

theorem wraps_congr {g : Gc} (htables : g.heap.get r = s.gc.heap.get r) :
    ({ s with gc := g } : SecretTables).tableWrapsContents r = s.tableWrapsContents r := by
  rw [tableWrapsContents, tableWrapsContents, htables]

/-- The table at `r` is replaced. -/
theorem Sealed.withTable (h : Sealed R s) (hget : s.gc.heap.get r = some t)
    (ht' : s.tableWrapsContents r = true → Table.Holds s.NilOrWrapper t') : Sealed R (s.withTable r t') := by
  refine ⟨h.flagged, h.policy, fun r₁ t₁ hwraps hget₁ => ?_⟩
  have hkeep := keepsWrappers_withTable s r t'
  rcases eq_or_ne r₁ r with rfl | hne
  · rw [get_withTable hget, Option.some.injEq] at hget₁
    subst hget₁
    obtain ⟨hp, -, hf⟩ := tableWrapsContents_iff.mp hwraps
    exact (ht' (tableWrapsContents_iff.mpr ⟨hp, ⟨t, hget⟩, hf⟩)).mono fun v hv => hkeep.nilOrWrapper hv
  · have hsame := get_withTable_ne s t' hne
    rw [hsame] at hget₁
    have hwraps₀ : s.tableWrapsContents r₁ = true := (wraps_congr hsame).symm.trans hwraps
    exact (h.contents r₁ t₁ hwraps₀ hget₁).mono fun v hv => hkeep.nilOrWrapper hv

/-- From states that are sealed to states that are sealed. -/
abbrev Seals {α : Type} (R : Set (GcRef .table)) (P : SecretTables → Prop) (x : SecretM α)
    (Q : α → SecretTables → Prop) : Prop := Act.Triple (Sealed R) (fun _ => True) P x Q

/-- What the value `v` of a read through the table at `r` is. -/
def SealedIn (r : GcRef .table) (v : Val) (s : SecretTables) : Prop := s.tableWrapsContents r = true → s.NilOrWrapper v

namespace Seals

variable {P : SecretTables → Prop}

/-! ### Observations -/

theorem observes_read (r : GcRef .table) (missing : LuaError) : Act.Observes (SecretM.read r missing) := by
  refine .bind .get fun s => ?_
  split
  · exact .pure _
  · exact .fail _

theorem observes_checkTableAccess (secure : Bool) (r : GcRef .table) (key : Option Val) :
    Act.Observes (SecretM.checkTableAccess secure r key) := by
  refine .bind (observes_read r _) fun t => .bind .get fun s => ?_
  split
  · exact .fail _
  split
  · exact .fail _
  · exact .pure _

theorem observes_ensureTableNotFrozen (r : GcRef .table) : Act.Observes (SecretM.ensureTableNotFrozen r) := by
  refine .bind .get fun s => ?_
  split
  · exact .fail _
  split
  · exact .fail _
  · exact .pure _

theorem observing {α : Type} {x : SecretM α} (hx : Act.Observes x) (hP : ∀ s, P s → Sealed R s) : Seals R P x fun _ => P :=
  .of_observes hx hP fun _ => trivial

theorem checkTableAccess (secure : Bool) (r : GcRef .table) (key : Option Val) :
    Seals R (Sealed R) (SecretM.checkTableAccess secure r key) fun _ => Sealed R :=
  observing (observes_checkTableAccess _ _ _) fun _ h => h

theorem ensureTableNotFrozen (r : GcRef .table) : Seals R (Sealed R) (SecretM.ensureTableNotFrozen r) fun _ => Sealed R :=
  observing (observes_ensureTableNotFrozen r) fun _ h => h

theorem read (r : GcRef .table) (missing : LuaError) :
    Seals R (Sealed R) (SecretM.read r missing) fun t s => Sealed R s ∧ s.gc.heap.get r = some t := by
  refine .bind (.get fun _ h => h) fun s₁ => ?_
  cases hget : s₁.gc.heap.get r with
  | none => exact .fail fun _ h => h.2
  | some t =>
    refine .pure (fun _ h => h.2) ?_
    rintro s ⟨rfl, h⟩
    exact ⟨h, hget⟩

theorem getState : Seals R (Sealed R) Act.get fun s₁ s => s₁ = s ∧ Sealed R s := .get fun _ h => h

theorem failing {α : Type} {e : LuaError} {Q : α → SecretTables → Prop} : Seals R (Sealed R) (Act.fail e) Q :=
  .fail fun _ h => h

/-! ### Stores -/

/-- A change of a table that keeps what the values in it have in common. -/
theorem update {α : Type} {f : Table → StringArena → Option (TableResult α)} {missing : LuaError} (hP : ∀ s, P s → Sealed R s)
    (hf : ∀ s t res, P s → s.gc.heap.get r = some t → f t s.gc.heap.strings = some res → s.tableWrapsContents r = true →
      Table.Holds s.NilOrWrapper t → Table.Holds s.NilOrWrapper res.1) :
    Seals R P (SecretM.update r missing f) fun _ => Sealed R := by
  refine .attempt fun s s' res h heq => ?_
  split at heq
  · next t hget =>
    obtain ⟨⟨t', res'⟩, hres, heq⟩ := Option.map_eq_some_iff.mp heq
    cases heq
    have h' : Sealed R (s.withTable r t') := (hP s h).withTable hget fun hwraps =>
      hf s t _ h hget hres hwraps ((hP s h).contents r t hwraps hget)
    exact ⟨h', fun _ _ => h'⟩
  · cases heq
    exact ⟨hP s h, fun _ _ => hP s h⟩

theorem rawSet (r : GcRef .table) (key value : Val) (missing : LuaError) :
    Seals R (fun s => Sealed R s ∧ SealedIn r value s) (SecretM.rawSet r key value missing) fun _ => Sealed R :=
  update (fun _ h => h.1) fun s _ _ h _ hres hwraps hholds => hholds.rawSet (nilOrWrapper_nil s) (h.2 hwraps) hres

theorem wrapContentsResult (value : Val) (contentsSecret : Bool) :
    Seals R (Sealed R) (SecretM.wrapContentsResult value contentsSecret) fun v s => Sealed R s ∧ (contentsSecret = true → s.NilOrWrapper v) := by
  refine .lift fun s s' v h heq => ?_
  obtain ⟨htables, hwrapping, hwrapped⟩ := wrapContentsResult_spec (r := ⟨0, 0⟩) heq
  have h' : Sealed R s' := h.frame hwrapping.wrappers hwrapping.securityFlags hwrapping.policy fun r t hget => by
    rw [Heap.get, htables] at hget
    exact hget
  exact ⟨h', h', fun hsecret => (hwrapped hsecret).nilOrWrapper⟩

theorem wrapTableValue (r : GcRef .table) (value : Val) :
    Seals R (Sealed R) (SecretM.wrapTableValue r value) fun v s => Sealed R s ∧ SealedIn r v s := by
  intro s s' w res h heq
  obtain ⟨v, rfl, hwrap⟩ := wrapTableValue_ok heq
  obtain ⟨htables, hwrapping, hwrapped⟩ := wrapContentsResult_spec (r := r) hwrap
  have h' : Sealed R s' := h.frame hwrapping.wrappers hwrapping.securityFlags hwrapping.policy fun r t hget => by
    rw [Heap.get, htables] at hget
    exact hget
  refine ⟨h', fun a ha => ⟨fun _ _ => trivial, ?_⟩⟩
  cases ha
  refine ⟨h', fun hwraps => (hwrapped ?_).nilOrWrapper⟩
  obtain ⟨hp, ⟨t, ht⟩, hf⟩ := tableWrapsContents_iff.mp hwraps
  rw [Heap.get, htables] at ht
  exact tableWrapsContents_iff.mpr ⟨by rw [← hwrapping.policy, hp], ⟨t, ht⟩, by rw [← hwrapping.securityFlags]; exact hf⟩

/-- What the collector keeps account of. -/
theorem onGc {f : Gc → Gc} (htables : ∀ g (o : GcRef .table), (f g).heap.get o = g.heap.get o)
    (huserdata : ∀ g (o : GcRef .userdata), ((f g).heap.get o).bind Userdata.secretValue = (g.heap.get o).bind Userdata.secretValue) :
    Seals R (Sealed R) (SecretM.onGc f) fun _ => Sealed R := by
  refine .modify fun s h => h.frame (fun v p hv => ?_) rfl rfl fun r t hget => by rw [← htables]; exact hget
  cases v with
  | userdata u => exact (huserdata s.gc u).trans hv
  | _ => exact hv

theorem barrierBack (r : GcRef .table) : Seals R (Sealed R) (SecretM.barrierBack r) fun _ => Sealed R :=
  onGc (fun _ _ => get_barrierBack ..) fun _ _ => by rw [get_barrierBack]

theorem trackAlloc (size : ℕ) : Seals R (Sealed R) (SecretM.onGc fun g => g.trackAlloc size) fun _ => Sealed R :=
  onGc (fun _ _ => rfl) fun _ _ => rfl

theorem wrapAndSet (r : GcRef .table) (key value : Val) (missing : LuaError) :
    Seals R (Sealed R) (SecretM.wrapAndSet r key value missing) fun _ => Sealed R :=
  .bind (wrapTableValue r value) fun _ => .bind (rawSet _ _ _ _) fun _ => barrierBack r

/-- What is left of a store when the memory has been accounted for. -/
theorem checkMemory {x : SecretM Unit} (hx : Seals R (Sealed R) x fun _ => Sealed R) :
    Seals R (Sealed R) (do
      let s ← Act.get
      if s.gc.gcState.totalBytes > s.gc.gcState.allocLimit then Act.fail ⟨"not enough memory"⟩ else x) fun _ => Sealed R := by
  refine .bind getState fun s => ?_
  split
  · exact failing.weaken fun _ h => h.2
  · exact hx.weaken fun _ h => h.2

theorem tableSet (secure : Bool) (r : GcRef .table) (key value : Val) :
    Seals R (Sealed R) (SecretM.tableSet secure r key value) fun _ => Sealed R := by
  refine .bind (checkTableAccess _ _ _) fun _ => .bind (ensureTableNotFrozen r) fun _ => .bind (wrapTableValue r value) fun v => ?_
  refine .bind (update (fun _ h => h.1) fun s _ _ h _ hres hwraps hholds => ?_) fun _ =>
    .bind (trackAlloc _) fun _ => checkMemory (barrierBack r)
  exact hholds.rawSetWithMemoryDelta (nilOrWrapper_nil s) (h.2 hwraps) hres

theorem rawSetExistingSlot (secure : Bool) (r : GcRef .table) (key value : Val) :
    Seals R (Sealed R) (SecretM.rawSetExistingSlot secure r key value) fun _ => Sealed R :=
  .bind (checkTableAccess _ _ _) fun _ => .bind (ensureTableNotFrozen r) fun _ => wrapAndSet _ _ _ _

theorem rawSetApiTable (secure : Bool) (r : GcRef .table) (key value : Val) :
    Seals R (Sealed R) (SecretM.rawSetApiTable secure r key value) fun _ => Sealed R :=
  .bind (checkTableAccess _ _ _) fun _ => wrapAndSet _ _ _ _

theorem handleRawSet (secure : Bool) (r : GcRef .table) (key value : Val) :
    Seals R (Sealed R) (SecretM.handleRawSet secure r key value) fun _ => Sealed R :=
  .bind (checkTableAccess _ _ _) fun _ => wrapAndSet _ _ _ _

theorem luaRawset (secure : Bool) (args : List Val) :
    Seals R (Sealed R) (SecretM.luaRawset secure args) fun _ => Sealed R := by
  rw [SecretM.luaRawset]
  split
  · exact failing
  split
  · refine .bind (checkTableAccess _ _ _) fun _ => .bind getState fun s => ?_
    split
    · exact failing.weaken fun _ h => h.2
    · refine Act.Triple.weaken (P := Sealed R) ?_ fun _ h => h.2
      exact .bind (wrapAndSet _ _ _ _) fun _ => .pure (fun _ h => h) fun _ h => h
  · exact failing

theorem setRaw (secure : Bool) (r : GcRef .table) (idx : ℤ) (value : Val) :
    Seals R (Sealed R) (SecretM.setRaw secure r idx value) fun _ => Sealed R :=
  .bind (checkTableAccess _ _ _) fun _ => .bind (wrapTableValue r value) fun _ => rawSet _ _ _ _

theorem writeWrappedValues (r : GcRef .table) (values : List Val) : ∀ i : ℕ,
    Seals R (Sealed R) (SecretM.writeWrappedValues r i values) fun _ => Sealed R := by
  induction values with
  | nil => exact fun i => .pure (fun _ h => h) fun _ h => h
  | cons v vs ih =>
    intro i
    refine .bind (wrapTableValue r v) fun v' => .bind (update (fun _ h => h.1) fun s _ _ h _ hres hwraps hholds => ?_) fun _ => ih (i + 1)
    cases hres
    exact hholds.setArray (h.2 hwraps) i

/-- Unless the table wraps its contents, the items of a constructor are stored as they are. -/
theorem writeSetlistArrayValues (r : GcRef .table) (offset : ℕ) (values : List Val) :
    Seals R (Sealed R) (SecretM.writeSetlistArrayValues r offset values) fun _ => Sealed R := by
  refine .bind (ensureTableNotFrozen r) fun _ => .bind getState fun s₁ => ?_
  split
  · next hwraps => exact (Act.Triple.bind (writeWrappedValues _ _ _) fun _ => barrierBack r).weaken fun _ h => h.2
  · next hwraps =>
    refine .bind (update (fun _ h => h.2) fun s _ _ h _ _ hwraps' _ => ?_) fun _ => barrierBack r
    rw [h.1] at hwraps
    exact absurd hwraps' hwraps

theorem opSetList (secure : Bool) (table : Val) (values : List Val) (c : ℕ) :
    Seals R (Sealed R) (SecretM.opSetList secure table values c) fun _ => Sealed R := by
  rw [SecretM.opSetList.eq_def]
  split
  · next r =>
    refine .bind (checkTableAccess _ _ _) fun _ => .bind (update (fun _ h => h) fun s _ _ _ _ hres _ hholds => ?_) fun _ =>
      .bind (trackAlloc _) fun _ => checkMemory (writeSetlistArrayValues _ _ _)
    cases hres
    exact hholds.ensureArrayCapacity (nilOrWrapper_nil s) _
  · exact failing

theorem setField (r : GcRef .table) (key value : Val) :
    Seals R (fun s => Sealed R s ∧ SealedIn r value s) (SecretM.setField r key value) fun _ => Sealed R := rawSet _ _ _ _

theorem setGlobalVal (secure : Bool) (global : GcRef .table) (key value : Val) :
    Seals R (fun s => Sealed R s ∧ SealedIn global value s) (SecretM.setGlobalVal secure global key value)
      fun _ => Sealed R :=
  .bind (observing (observes_checkTableAccess _ _ _) fun _ h => h.1) fun _ => rawSet _ _ _ _

/-- Where both keys lie in the array part its values change places; elsewhere the values read earlier are stored. -/
theorem swapSortValues (secure : Bool) (r : GcRef .table) (leftIdx : ℤ) (leftVal : Val) (rightIdx : ℤ) (rightVal : Val) :
    Seals R (fun s => Sealed R s ∧ s.Guarded (.swapSortValues secure r leftIdx leftVal rightIdx rightVal))
      (SecretM.swapSortValues secure r leftIdx leftVal rightIdx rightVal) fun _ => Sealed R := by
  refine .bind (observing (observes_checkTableAccess _ _ _) fun _ h => h.1) fun _ => .bind (.get fun _ h => h.1) fun s₁ => ?_
  split
  · exact .fail fun _ h => h.2.1
  split
  · exact .pure (fun _ h => h.2.1) fun _ h => h.2.1
  refine .bind (update (fun _ h => h.2.1) ?_) fun swapped => ?_
  · rintro s t res ⟨-, -, hguard⟩ hget hres hwraps hholds
    obtain ⟨⟨t', found⟩, hswap, hres⟩ := Option.map_eq_some_iff.mp hres
    cases hres
    rw [Table.swapExisting] at hswap
    split at hswap
    · next u hu =>
      cases hswap
      exact hholds.swapArrayInts (nilOrWrapper_nil s) hu
    · next hnone =>
      rcases hguard hwraps t hget with hsome | ⟨hleft, hright⟩
      · rw [hnone] at hsome
        cases hsome
      simp only [bind, Option.bind_eq_some_iff] at hswap
      obtain ⟨⟨u, there⟩, hfirst, hswap⟩ := hswap
      have hu := hholds.setIntExisting hright hfirst
      dsimp only at hswap
      split at hswap
      · exact hu.setIntExisting hleft hswap
      · cases hswap
        exact hu
  · split
    · exact .pure (fun _ h => h) fun _ h => h
    · exact .bind (setRaw _ _ _ _) fun _ => setRaw _ _ _ _

/-! ### Reads -/

theorem luaRawget (secure : Bool) (r : GcRef .table) (key : Val) :
    Seals R (Sealed R) (SecretM.luaRawget secure r key) fun v s => Sealed R s ∧ SealedIn r v s := by
  refine .bind (checkTableAccess _ _ _) fun _ => .bind getState fun s₁ => ?_
  split
  · next t hget =>
    refine (Act.Triple.ofOption fun _ h => h.2).mono (fun _ h => h) ?_
    rintro v s ⟨hv, rfl, h⟩
    exact ⟨h, fun hwraps => (h.contents r t hwraps hget).get (nilOrWrapper_nil _) hv⟩
  · exact .pure (fun _ h => h.2) fun s h => ⟨h.2, fun _ => nilOrWrapper_nil s⟩

theorem getRaw (secure : Bool) (r : GcRef .table) (idx : ℤ) :
    Seals R (Sealed R) (SecretM.getRaw secure r idx) fun v s => Sealed R s ∧ SealedIn r v s := by
  refine .bind (checkTableAccess _ _ _) fun _ => .bind getState fun s₁ => ?_
  split
  · next t hget =>
    refine (Act.Triple.ofOption fun _ h => h.2).mono (fun _ h => h) ?_
    rintro v s ⟨hv, rfl, h⟩
    exact ⟨h, fun hwraps => (h.contents r t hwraps hget).getInt (nilOrWrapper_nil _) hv⟩
  · exact .pure (fun _ h => h.2) fun s h => ⟨h.2, fun _ => nilOrWrapper_nil s⟩

theorem luaNext (secure : Bool) (r : GcRef .table) (key : Val) :
    Seals R (Sealed R) (SecretM.luaNext secure r key) fun entry s => Sealed R s ∧ ∀ k v, entry = some (k, v) → SealedIn r v s := by
  refine .bind (checkTableAccess _ _ _) fun _ => .bind (read r _) fun t => .attempt fun s s' res h heq => ?_
  obtain ⟨res', hnext, heq⟩ := Option.map_eq_some_iff.mp heq
  cases heq
  refine ⟨h.1, fun entry he => ⟨h.1, fun k v hkv hwraps => ?_⟩⟩
  rw [he, hkv] at hnext
  exact (h.1.contents r t hwraps h.2).next (nilOrWrapper_nil _) hnext

theorem observes_luaRawget (secure : Bool) (r : GcRef .table) (key : Val) : Act.Observes (SecretM.luaRawget secure r key) := by
  refine .bind (observes_checkTableAccess _ _ _) fun _ => .bind .get fun s => ?_
  split
  · exact .ofOption _
  · exact .pure _

theorem observes_getRaw (secure : Bool) (r : GcRef .table) (idx : ℤ) : Act.Observes (SecretM.getRaw secure r idx) := by
  refine .bind (observes_checkTableAccess _ _ _) fun _ => .bind .get fun s => ?_
  split
  · exact .ofOption _
  · exact .pure _

theorem observes_luaNext (secure : Bool) (r : GcRef .table) (key : Val) : Act.Observes (SecretM.luaNext secure r key) := by
  refine .bind (observes_checkTableAccess _ _ _) fun _ => .bind (observes_read r _) fun t s s' w res h => ?_
  obtain ⟨⟨s₁, res₁⟩, hnext, h⟩ := Option.map_eq_some_iff.mp h
  obtain ⟨_, -, hnext⟩ := Option.map_eq_some_iff.mp hnext
  cases hnext
  cases h
  rfl

theorem observes_checkedSecretTableRead (can : Bool) (v : Val) : Act.Observes (SecretM.checkedSecretTableRead can v) := by
  refine .bind .get fun s => ?_
  split
  · split
    · exact .pure _
    · exact .fail _
  · exact .pure _

theorem observes_gettableStep (checked secure : Bool) (current key : Val) :
    Act.Observes (SecretM.gettableStep checked secure current key) := by
  rw [SecretM.gettableStep.eq_def]
  split
  · next r =>
    have hrest : Act.Observes (do
        let t ← SecretM.read r SecretM.invalidTable
        let s ← Act.get
        let result ← Act.ofOption (t.get key s.gc.heap.strings)
        if ¬ result.isNil then pure (SecretM.GettableStep.done result)
        else pure (SecretM.resolveGettableTm (.table r) (t.metatable.bind fun mt => s.gc.fasttm mt .index)) : SecretM _) := by
      refine .bind (observes_read r _) fun t => .bind .get fun s => .bind (.ofOption _) fun result => ?_
      split
      · exact .pure _
      · exact .pure _
    split
    · exact .bind (observes_checkTableAccess _ _ _) fun _ => hrest
    · exact hrest
  · refine .bind .get fun s => ?_
    split
    · exact .pure _
    · exact .fail _

end Seals

/-- What a read that is sealed comes to: nil or a wrapper, or a call whose result will be wrapped. -/
def SealedResult (s : SecretTables) : SecretM.ReadResult → Prop
  | .value v => s.NilOrWrapper v
  | .call _ _ contentsSecret => contentsSecret = true

/-- The read that has come to a value passes through the table at `r`. -/
inductive Passes (checked secure can : Bool) (key : Val) (s : SecretTables) (r : GcRef .table) : Val → Prop
  | here {current : Val} (hread : Act.Returns (SecretM.checkedSecretTableRead can current) s (.table r)) :
    Passes checked secure can key s r current
  | next {current target v : Val} (hread : Act.Returns (SecretM.checkedSecretTableRead can current) s target)
      (hstep : Act.Returns (SecretM.gettableStep checked secure target key) s (.next v))
      (hrest : Passes checked secure can key s r v) : Passes checked secure can key s r current

namespace Seals

variable {checked secure can : Bool} {key : Val}

/-- The loop remembers whether it has passed through a table with secret contents. -/
theorem gettableLoop (s₀ : SecretTables) : ∀ (n : ℕ) (current : Val) (contentsSecret : Bool),
    Seals R (fun s => s = s₀ ∧ Sealed R s) (SecretM.gettableLoop checked secure can key n current contentsSecret) fun res s =>
      Sealed R s ∧ ((contentsSecret = true ∨ ∃ r, Passes checked secure can key s₀ r current ∧ s₀.tableWrapsContents r = true) →
        s.SealedResult res)
  | 0, _, _ => .fail fun _ h => h.2
  | n + 1, current, contentsSecret => by
    refine .bind (Act.Triple.returns (observes_checkedSecretTableRead can current) (fun _ h => h) (fun _ => trivial) s₀) fun target => ?_
    refine .assume (fun _ h => h.1) fun hread => .bind (.get fun _ h => h.2.2) fun s₁ => .assume (fun _ h => h.1.trans h.2.2.1) fun hs₁ => ?_
    subst hs₁
    generalize hsecret : (contentsSecret || s₁.valueWrapsContents target) = secret
    -- what the flag says once the target has been looked at
    have hhere : contentsSecret = true ∨ (∃ r, target = .table r ∧ s₁.tableWrapsContents r = true) → secret = true := by
      rintro (h | ⟨r, rfl, h⟩)
      · rw [← hsecret, h]
        rfl
      · rw [← hsecret, valueWrapsContents, h, Bool.or_true]
    refine .bind (((Act.Triple.returns (observes_gettableStep checked secure target key) (fun _ h => h) (fun _ => trivial) s₁)).weaken
      fun _ h => ⟨h.2.2.1, h.2.2.2⟩) fun step => .assume (fun _ h => h.1) fun hstep => ?_
    have hpasses : (∀ v, step ≠ .next v) → (contentsSecret = true ∨ ∃ r, Passes checked secure can key s₁ r current ∧
        s₁.tableWrapsContents r = true) → secret = true := by
      rintro hend (h | ⟨r, hpass, hwraps⟩)
      · exact hhere (.inl h)
      · cases hpass with
        | here hread' => exact hhere (.inr ⟨r, hread.unique hread', hwraps⟩)
        | next hread' hstep' =>
          cases hread.unique hread'
          exact absurd (hstep.unique hstep') (hend _)
    cases step with
    | done v =>
      refine .bind (Act.Triple.weaken (wrapContentsResult v secret) fun _ h => h.2.2) fun v' => .pure (fun _ h => h.1) fun s h => ⟨h.1, fun hp => ?_⟩
      exact h.2 (hpasses (by simp) hp)
    | call tm current' => exact .pure (fun _ h => h.2.2) fun s h => ⟨h.2.2, hpasses (by simp)⟩
    | next v =>
      refine Act.Triple.mono (gettableLoop s₁ n v secret) (fun _ h => h.2) fun res s h => ⟨h.1, ?_⟩
      rintro (hp | ⟨r, hpass, hwraps⟩)
      · exact h.2 (.inl (hhere (.inl hp)))
      · cases hpass with
        | here hread' => exact h.2 (.inl (hhere (.inr ⟨r, hread.unique hread', hwraps⟩)))
        | next hread' hstep' hrest =>
          cases hread.unique hread'
          cases hstep.unique hstep'
          exact h.2 (.inr ⟨r, hrest, hwraps⟩)

theorem read_table_eq {r r' : GcRef .table} (h : Act.Returns (SecretM.checkedSecretTableRead can (.table r)) s (.table r')) :
    r' = r := by
  obtain ⟨s', w, h⟩ := h
  rw [SecretM.checkedSecretTableRead, Act.get_bind] at h
  cases h
  rfl

/-- A read that the fast path answers passes through no other table. -/
theorem passes_plain {r r' : GcRef .table} (hget : s.gc.heap.get r = some t) {result : Val}
    (hresult : t.get key s.gc.heap.strings = some result) (hplain : (result.isNil && t.metatable.isSome) = false)
    (hpass : Passes true secure can key s r' (.table r)) : r' = r := by
  cases hpass with
  | here hread => exact read_table_eq hread
  | next hread hstep =>
    obtain ⟨s₁, w₁, hread⟩ := hread
    rw [SecretM.checkedSecretTableRead, Act.get_bind] at hread
    cases hread
    obtain ⟨s₂, w₂, hstep⟩ := hstep
    rw [SecretM.gettableStep.eq_def] at hstep
    dsimp only at hstep
    rw [if_pos rfl] at hstep
    rcases Act.bind_cases hstep with ⟨e, -, he⟩ | ⟨s₃, w₃, u, w₄, hcheck, hrest⟩
    · cases he
    obtain rfl := observes_checkTableAccess _ _ _ _ _ _ _ hcheck
    have hgot : (Act.ofOption (t.get key s₃.gc.heap.strings) : SecretM Val) s₃ = some (s₃, [], .ok result) := by
      rw [Act.ofOption, Act.lift, hresult]
      rfl
    rw [Act.bind_of_ok (read_ok hget), Act.get_bind, Act.bind_of_ok hgot] at hrest
    split at hrest
    · cases hrest
    · next hnil =>
      rw [not_not] at hnil
      rw [hnil, Bool.true_and, Option.isSome_eq_false_iff, Option.isNone_iff_eq_none] at hplain
      rw [hplain] at hrest
      cases hrest

/-- A value that the fast path finds is in the table, and nothing is consulted after it. -/
theorem tryPlainTableGet_cases {res : Except LuaError (Option Val)} {w : List Unit} {r : GcRef .table}
    (h : SecretM.tryPlainTableGet secure (.table r) key s = some (s', w, res)) :
    s' = s ∧ ∀ v, res = .ok (some v) →
      ∃ t, s.gc.heap.get r = some t ∧ t.get key s.gc.heap.strings = some v ∧ (v.isNil && t.metatable.isSome) = false := by
  unfold SecretM.tryPlainTableGet at h
  dsimp only at h
  split at h
  · next t _ hget =>
    obtain ⟨result, hresult, h⟩ := Option.map_eq_some_iff.mp h
    cases h
    refine ⟨rfl, fun v hv => ⟨t, hget, ?_⟩⟩
    rw [Except.ok.injEq] at hv
    split at hv
    · cases hv
    · next hmt =>
      cases hv
      exact ⟨hresult, by simpa using hmt⟩
  · cases h
    exact ⟨rfl, fun v hv => by cases hv⟩

theorem tryPlainTableGet (s₀ : SecretTables) (secure can : Bool) (t key : Val) :
    Seals R (fun s => s = s₀ ∧ Sealed R s) (SecretM.tryPlainTableGet secure t key) fun found s =>
      (s = s₀ ∧ Sealed R s) ∧ ∀ v, found = some v →
        (∃ r, Passes true secure can key s₀ r t ∧ s₀.tableWrapsContents r = true) → s.NilOrWrapper v := by
  cases t with
  | table r =>
    rintro s s' w res ⟨rfl, h⟩ heq
    obtain ⟨rfl, hfound⟩ := tryPlainTableGet_cases heq
    refine ⟨h, fun found hok => ⟨fun _ _ => trivial, ⟨rfl, h⟩, ?_⟩⟩
    rintro v rfl ⟨r', hpass, hwraps⟩
    obtain ⟨t, hget, hresult, hplain⟩ := hfound v hok
    obtain rfl := passes_plain hget hresult hplain hpass
    exact (h.contents r' t hwraps hget).get (nilOrWrapper_nil _) hresult
  | _ => exact .pure (fun _ h => h.2) fun s h => ⟨h, fun v hv => nomatch hv⟩

theorem opGetTable (s₀ : SecretTables) (secure can : Bool) (t key : Val) :
    Seals R (fun s => s = s₀ ∧ Sealed R s) (SecretM.opGetTable secure can t key) fun res s =>
      Sealed R s ∧ ((∃ r, Passes true secure can key s₀ r t ∧ s₀.tableWrapsContents r = true) → s.SealedResult res) := by
  refine .bind (tryPlainTableGet s₀ secure can t key) fun found => ?_
  cases found with
  | some v => exact .pure (fun _ h => h.1.2) fun s h => ⟨h.1.2, h.2 v rfl⟩
  | none =>
    refine Act.Triple.mono (gettableLoop s₀ TableM.maxTagLoop t false) (fun _ h => h.1) fun res s h => ⟨h.1, fun hp => ?_⟩
    exact h.2 (.inr hp)

theorem passes_self (checked secure can : Bool) (key : Val) (s : SecretTables) (r : GcRef .table) :
    Passes checked secure can key s r (.table r) := by
  refine .here ⟨s, [], ?_⟩
  rw [SecretM.checkedSecretTableRead, Act.get_bind]
  rfl

/-- A value that is wrapped for a table is wrapped if the table wraps its contents before. -/
theorem wrapTableValue_result (s₀ : SecretTables) (r : GcRef .table) (value : Val) :
    Seals R (fun s => s = s₀ ∧ Sealed R s) (do
      let v ← SecretM.wrapTableValue r value
      pure (SecretM.ReadResult.value v)) fun res s => Sealed R s ∧ (s₀.tableWrapsContents r = true → s.SealedResult res) := by
  refine .bind (Q := fun v s => Sealed R s ∧ (s₀.tableWrapsContents r = true → s.NilOrWrapper v)) ?_ fun v =>
    .pure (fun _ h => h.1) fun _ h => h
  rintro s s' w res ⟨rfl, h⟩ heq
  obtain ⟨h', hok⟩ := wrapTableValue r value s s' w res h heq
  refine ⟨h', fun v hv => ⟨fun _ _ => trivial, h', fun hwraps => ?_⟩⟩
  obtain ⟨v', hres, hwrap⟩ := wrapTableValue_ok heq
  rw [hres] at hv
  cases hv
  exact ((wrapContentsResult_spec (r := r) hwrap).2.2 hwraps).nilOrWrapper

/-- A global that is not cached is read like a field of the environment. -/
theorem opGetGlobalSlot (s₀ : SecretTables) (secure can : Bool) (slotIdx : ℕ) (env rootGlobal : GcRef .table) (snapshot : Val)
    (shadow : Option (GcRef .table)) (key : Val) :
    Seals R (fun s => s = s₀ ∧ Sealed R s) (SecretM.opGetGlobalSlot secure can slotIdx env rootGlobal snapshot shadow key)
      fun res s => Sealed R s ∧ (s₀.tableWrapsContents env = true ∨ (env ≠ rootGlobal ∨ slotIdx ≠ 0 ∧ shadow = none) ∧
        (∃ r, Passes true secure can key s₀ r (.table env) ∧ s₀.tableWrapsContents r = true) → s.SealedResult res) := by
  have htable : Seals R (fun s => s = s₀ ∧ Sealed R s) (SecretM.opGetTable secure can (.table env) key)
      fun res s => Sealed R s ∧ (s₀.tableWrapsContents env = true ∨ (env ≠ rootGlobal ∨ slotIdx ≠ 0 ∧ shadow = none) ∧
        (∃ r, Passes true secure can key s₀ r (.table env) ∧ s₀.tableWrapsContents r = true) → s.SealedResult res) := by
    refine Act.Triple.mono (opGetTable s₀ secure can (.table env) key) (fun _ h => h) fun res s h => ⟨h.1, ?_⟩
    rintro (hwraps | ⟨-, hpass⟩)
    · exact h.2 ⟨env, passes_self .., hwraps⟩
    · exact h.2 hpass
  have hcached : ∀ value, slotIdx = 0 ∨ shadow ≠ none → env = rootGlobal → Seals R (fun s => s = s₀ ∧ Sealed R s) (do
      let v ← SecretM.wrapTableValue env value
      pure (SecretM.ReadResult.value v)) fun res s => Sealed R s ∧ (s₀.tableWrapsContents env = true ∨
        (env ≠ rootGlobal ∨ slotIdx ≠ 0 ∧ shadow = none) ∧ (∃ r, Passes true secure can key s₀ r (.table env) ∧
          s₀.tableWrapsContents r = true) → s.SealedResult res) := by
    intro value hslot henv
    refine Act.Triple.mono (wrapTableValue_result s₀ env value) (fun _ h => h) fun res s h => ⟨h.1, ?_⟩
    rintro (hwraps | ⟨hne | ⟨hidx, hnone⟩, -⟩)
    · exact h.2 hwraps
    · exact absurd henv hne
    · exact (hslot.elim hidx fun h => h hnone).elim
  rw [SecretM.opGetGlobalSlot.eq_def]
  split
  · exact htable
  next henv =>
  rw [not_not] at henv
  subst henv
  refine .bind (observing (observes_checkTableAccess _ _ _) fun _ h => h.2) fun _ => ?_
  split
  · next hidx => exact hcached _ (.inl hidx) rfl
  split
  · exact htable
  · next live =>
    refine .bind (observing (observes_checkTableAccess _ _ _) fun _ h => h.2) fun _ => .bind (.get fun _ h => h.2) fun s₁ => ?_
    have hstate : ∀ s, s₁ = s ∧ s = s₀ ∧ Sealed R s → s = s₀ ∧ Sealed R s := fun _ h => h.2
    have hrest : ∀ {x : SecretM Val}, Seals R (fun s => s₁ = s ∧ s = s₀ ∧ Sealed R s) x (fun _ s => s = s₀ ∧ Sealed R s) →
        Seals R (fun s => s₁ = s ∧ s = s₀ ∧ Sealed R s) (do
          let liveVal ← x
          let v ← SecretM.wrapTableValue env (if liveVal.isNil then snapshot else liveVal)
          pure (SecretM.ReadResult.value v)) _ := fun hx => .bind hx fun _ => hcached _ (.inr (by simp)) rfl
    split
    · split
      · exact hrest (.pure (fun _ h => h.2.2) hstate)
      · exact hrest ((Act.Triple.ofOption fun _ h => h.2.2).mono (fun _ h => h) fun _ _ h => h.2.2)
    · exact hrest (.pure (fun _ h => h.2.2) hstate)

/-! ### The other steps -/

theorem ignore {α : Type} {P : SecretTables → Prop} {x : SecretM α} {Q : α → SecretTables → Prop} (hx : Seals R P x Q)
    (hQ : ∀ a s, Q a s → Sealed R s) : Seals R P (SecretM.ignore x) fun _ => Sealed R :=
  .bind hx fun a => .pure (hQ a) (hQ a)

theorem ignoreRead {α : Type} {x : SecretM α} {Q : SecretTables → α → SecretTables → Prop}
    (hx : ∀ s₀, Seals R (fun s => s = s₀ ∧ Sealed R s) x fun a s => Sealed R s ∧ Q s₀ a s) :
    Seals R (Sealed R) (SecretM.ignore x) fun _ => Sealed R :=
  ignore (Q := fun _ => Sealed R) (.of_state fun s₀ _ => (hx s₀).mono (fun _ h => h) fun _ _ h => h.1) fun _ _ h => h

/-- A new object is none of the tables that are known, and a new table has no flags. -/
theorem alloc (k : ObjKind) (x : Obj k) (size : ℕ) :
    Seals R (fun s => Sealed R s ∧ ∀ r ∈ R, (s.gc.heap.get r).isSome) (SecretM.alloc k x size) fun _ => Sealed R := by
  refine .lift fun s s' a ⟨h, hlive⟩ heq => ?_
  suffices hs' : Sealed R s' from ⟨hs', hs'⟩
  obtain ⟨⟨g, o⟩, halloc, heq⟩ := Option.map_eq_some_iff.mp heq
  cases heq
  obtain ⟨⟨heap, o'⟩, hheap, hg⟩ := Option.bind_eq_some_iff.mp halloc
  cases hg
  have hkeep := keepsWrappers_alloc (g := { s.gc with heap }) hheap
  have hne : ∀ r : GcRef .table, ⟨.table, r⟩ ≠ (⟨k, o⟩ : ObjRef) → SecretM.resetFlags s.securityFlags k o r = s.securityFlags r ∧
      heap.get r = s.gc.heap.get r := by
    intro r hr
    refine ⟨?_, by rw [Heap.get_eq, Heap.get_eq, Heap.cell_alloc_ne hheap hr]⟩
    cases k with
    | table => exact Function.update_of_ne (fun he => hr (by rw [he])) ..
    | _ => rfl
  have hflag : ∀ r : GcRef .table, SecretM.resetFlags s.securityFlags k o r &&& secretWrapContents ≠ 0 →
      ⟨.table, r⟩ ≠ (⟨k, o⟩ : ObjRef) := by
    rintro r hr heq
    cases heq
    rw [SecretM.resetFlags, Function.update_self] at hr
    exact hr rfl
  refine ⟨fun r hr => ?_, fun r hr => ?_, fun r t hwraps hget => ?_⟩
  · have hr' : ⟨.table, r⟩ ≠ (⟨k, o⟩ : ObjRef) := by
      rintro heq
      cases heq
      have hfresh := hlive r hr
      rw [Heap.get_eq, Heap.cell_alloc_fresh hheap] at hfresh
      cases hfresh
    change SecretM.resetFlags s.securityFlags k o r &&& secretWrapContents ≠ 0
    rw [(hne r hr').1]
    exact h.flagged r hr
  · refine h.policy r ?_
    rw [← (hne r (hflag r hr)).1]
    exact hr
  · obtain ⟨hp, -, hf⟩ := tableWrapsContents_iff.mp hwraps
    obtain ⟨hflags, hsame⟩ := hne r (hflag r hf)
    have hget₀ : s.gc.heap.get r = some t := hsame.symm.trans hget
    have hwraps₀ : s.tableWrapsContents r = true := by
      refine tableWrapsContents_iff.mpr ⟨hp, ⟨t, hget₀⟩, ?_⟩
      rw [← hflags]
      exact hf
    exact (h.contents r t hwraps₀ hget₀).mono fun v hv => hkeep.nilOrWrapper hv

theorem internString (data : List UInt8) : Seals R (Sealed R) (SecretM.internString data) fun _ => Sealed R := by
  refine .lift fun s s' a h heq => ?_
  suffices hs' : Sealed R s' from ⟨hs', hs'⟩
  obtain ⟨⟨g, o⟩, hintern, heq⟩ := Option.map_eq_some_iff.mp heq
  cases heq
  obtain ⟨⟨strings, heap, o'⟩, hheap, hg⟩ := Option.bind_eq_some_iff.mp hintern
  cases hg
  have hsame : ∀ {k : ObjKind}, k ≠ .string → ∀ o : GcRef k, heap.get o = s.gc.heap.get o := fun hk o => by
    rw [Heap.get, Heap.get, Heap.arena_intern_ne hheap hk]
  refine h.frame (fun v p hv => ?_) rfl rfl fun r t hget => (hsame (by decide) r).symm.trans hget
  rw [payload_congr fun u => hsame (by decide) u]
  exact hv

theorem sweep (k : ObjKind) (deadColor newColor : Color) (start maxCount : ℕ) :
    Seals R (fun s => Sealed R s ∧ s.Guarded (.sweep k deadColor newColor start maxCount))
      (SecretM.sweep k deadColor newColor start maxCount) fun _ => Sealed R := by
  refine .lift fun s s' a hs heq => ?_
  obtain ⟨h, hguard⟩ := hs
  suffices hs' : Sealed R s' from ⟨hs', hs'⟩
  obtain ⟨⟨heap, freed, pos, isDone⟩, hsweep, heq⟩ := Option.map_eq_some_iff.mp heq
  cases heq
  -- an object is there afterwards only if it was there before, and is gone only if its color is the dead one
  have hget : ∀ {j : ObjKind} (o : GcRef j), heap.get o = s.gc.heap.get o ∨
      heap.get o = none ∧ j = k ∧ s.gc.heap.color ⟨j, o⟩ = some deadColor := by
    intro j o
    rw [Heap.get_eq, Heap.get_eq, Heap.color_eq, Heap.sweepPartial_cell hsweep]
    split
    · next hin =>
      cases s.gc.heap.cell ⟨j, o⟩ with
      | none => exact .inl rfl
      | some x =>
        rw [Option.bind_some, Arena.sweepCell]
        split
        · next hdead => exact .inr ⟨rfl, hin.1, congrArg some hdead.1⟩
        · exact .inl rfl
    · exact .inl rfl
  have htables : ∀ (r : GcRef .table) t, heap.get r = some t → s.gc.heap.get r = some t := by
    intro r t hr
    rcases hget r with hsame | ⟨hnone, -⟩
    · rw [← hsame, hr]
    · rw [hnone] at hr
      cases hr
  refine ⟨h.flagged, h.policy, fun r t hwraps hr => ?_⟩
  obtain ⟨hp, -, hf⟩ := tableWrapsContents_iff.mp hwraps
  have hwraps₀ : s.tableWrapsContents r = true := tableWrapsContents_iff.mpr ⟨hp, ⟨t, htables r t hr⟩, hf⟩
  have hheld := h.contents r t hwraps₀ (htables r t hr)
  have hpayload : ∀ u : GcRef .userdata, s.NilOrWrapper (.userdata u) → heap.get u = s.gc.heap.get u →
      NilOrWrapper { s with gc := { s.gc with heap } } (.userdata u) := by
    rintro u (hnil | hw) hsame
    · cases hnil
    · refine .inr ?_
      change ((heap.get u).bind _).isSome = true
      rw [hsame]
      exact hw
  have hval : ∀ v, s.NilOrWrapper v → (k = .userdata → ∀ u, v = .userdata u → s.gc.heap.color ⟨_, u⟩ ≠ some deadColor) →
      NilOrWrapper { s with gc := { s.gc with heap } } v := by
    intro v hv hcolor
    cases v with
    | userdata u =>
      rcases hget u with hsame | ⟨-, hk, hdead⟩
      · exact hpayload u hv hsame
      · exact absurd hdead (hcolor hk.symm u rfl)
    | _ => exact hv
  cases k with
  | userdata =>
    have hsafe := hguard r t hwraps₀ (htables r t hr)
    exact ⟨fun v hv => hval v (hheld.slots v hv) fun _ => hsafe.slots v hv,
      fun n hn => hval _ (hheld.nodes n hn) fun _ => hsafe.nodes n hn⟩
  | _ => exact hheld.mono fun v hv => hval v hv fun hk => by cases hk

theorem sortRead (secure : Bool) (r : GcRef .table) (idx : ℤ) :
    Seals R (Sealed R) (SecretM.sortRead secure r idx) fun _ => Sealed R :=
  .bind (getRaw secure r idx) fun _ => .modify fun _ h => ⟨h.1.flagged, h.1.policy, h.1.contents⟩

theorem onTable (r : GcRef .table) {f : Table → Table}
    (hf : ∀ (s : SecretTables) t, t.Holds s.NilOrWrapper → (f t).Holds s.NilOrWrapper) :
    Seals R (Sealed R) (SecretM.onTable r f) fun _ => Sealed R := by
  refine .modify fun s h => ⟨h.flagged, h.policy, fun r' t hwraps hget => ?_⟩
  change (s.gc.heap.modify r f).get r' = some t at hget
  have hkeep : s.KeepsWrappers { s with gc := s.gc.modify r f } := fun v p hv => by
    rw [payload_congr fun u => Heap.get_modify_kind (by decide) ..]
    exact hv
  have hheld : ∀ t, s.gc.heap.get r' = some t → t.Holds s.NilOrWrapper := fun t ht => by
    obtain ⟨hp, -, hf⟩ := tableWrapsContents_iff.mp hwraps
    exact h.contents r' t (tableWrapsContents_iff.mpr ⟨hp, ⟨t, ht⟩, hf⟩) ht
  rw [Heap.get_modify] at hget
  split at hget
  · next heq =>
    subst heq
    obtain ⟨t₀, ht₀, rfl⟩ := Option.map_eq_some_iff.mp hget
    exact (hf s t₀ (hheld t₀ ht₀)).mono fun v hv => hkeep.nilOrWrapper hv
  · exact (hheld t hget).mono fun v hv => hkeep.nilOrWrapper hv

/-! ### The options -/

theorem addSecurityFlag (r : GcRef .table) {flag : UInt8} (hflag : flag &&& secretWrapContents = 0) :
    Seals R (Sealed R) (SecretM.addSecurityFlag r flag) fun _ => Sealed R := by
  refine .bind (observing (observes_read r _) fun _ h => h) fun _ => .modify fun s h => ?_
  have hsame : ∀ r', Function.update s.securityFlags r (s.securityFlags r ||| flag) r' &&& secretWrapContents =
      s.securityFlags r' &&& secretWrapContents := by
    intro r'
    rcases eq_or_ne r' r with rfl | hne
    · rw [Function.update_self, or_and_flag, hflag, UInt8.or_zero]
    · rw [Function.update_of_ne hne]
  refine ⟨fun r' hr => by rw [hsame]; exact h.flagged r' hr, fun r' hr => h.policy r' (by rw [← hsame]; exact hr),
    fun r' t hwraps hget => h.contents r' t ?_ hget⟩
  obtain ⟨hp, ht, hf⟩ := tableWrapsContents_iff.mp hwraps
  exact tableWrapsContents_iff.mpr ⟨hp, ht, by rw [← hsame]; exact hf⟩

end Seals

theorem forall_of_forall₂ {α β : Type} {p : α → β → Prop} {q : β → Prop} (hpq : ∀ a b, p a b → q b) {as : List α} {bs : List β}
    (h : List.Forall₂ p as bs) : ∀ b ∈ bs, q b := by
  induction h with
  | nil => simp
  | cons hab _ ih => exact List.forall_mem_cons.mpr ⟨hpq _ _ hab, ih⟩

/-- What a table holds after its secret contents have been enabled. -/
theorem Enabled.holds (h : Enabled r t s s') {t' : Table} (hget : s'.gc.heap.get r = some t') : t'.Holds s'.NilOrWrapper := by
  obtain ⟨t₁, hget₁, harray, hnodes, -⟩ := h.contents
  rw [hget, Option.some.injEq] at hget₁
  subst hget₁
  exact ⟨forall_of_forall₂ (fun _ _ hv => hv.nilOrWrapper) harray,
    forall_of_forall₂ (q := fun n => s'.NilOrWrapper n.value) (fun _ _ hn => hn.value.nilOrWrapper) hnodes⟩

theorem Enabled.wraps (h : Enabled r t s s') : s'.tableWrapsContents r = true := by
  obtain ⟨t', hget, -⟩ := h.contents
  refine tableWrapsContents_iff.mpr ⟨h.policy, ⟨t', hget⟩, ?_⟩
  rw [h.securityFlags, Function.update_self, or_and_flag, Ne, or_flag_eq_zero]
  exact fun h0 => absurd h0.2 (by decide)

theorem Sealed.enabled (h : Sealed R s) (hen : Enabled r t s s') : Sealed (insert r R) s' := by
  obtain ⟨-, -, hflag⟩ := tableWrapsContents_iff.mp hen.wraps
  have hsame : ∀ r', r' ≠ r → s'.securityFlags r' = s.securityFlags r' := fun r' hne => by
    rw [hen.securityFlags, Function.update_of_ne hne]
  refine ⟨fun r' hr => ?_, fun _ _ => hen.policy, fun r' t' hwraps hget => ?_⟩
  · rcases eq_or_ne r' r with rfl | hne
    · exact hflag
    · rw [hsame r' hne]
      exact h.flagged r' (hr.resolve_left hne)
  · rcases eq_or_ne r' r with rfl | hne
    · exact hen.holds hget
    · obtain ⟨-, -, hf⟩ := tableWrapsContents_iff.mp hwraps
      rw [hsame r' hne] at hf
      rw [hen.tables r' hne] at hget
      have hwraps₀ : s.tableWrapsContents r' = true := tableWrapsContents_iff.mpr ⟨h.policy r' hf, ⟨t', hget⟩, hf⟩
      exact (h.contents r' t' hwraps₀ hget).mono fun v hv => hen.wrappers.nilOrWrapper hv

theorem Sealed.subset {R' : Set (GcRef .table)} (h : Sealed R' s) (hR : R ⊆ R') : Sealed R s :=
  ⟨fun r hr => h.flagged r (hR hr), h.policy, h.contents⟩

/-- Enabling fails, or has been done before, or wraps what there is. -/
theorem enableSecretContents_cases {w : List Unit} {res : Except LuaError Unit}
    (hguard : s.tableWrapsContents r = false → ∀ t, s.gc.heap.get r = some t → TableM.isFrozen s.gc r = false →
      Table.readOnly t = false → Table.Located s.gc.heap.strings t)
    (h : SecretM.enableSecretContents r s = some (s', w, res)) : s' = s ∨ ∃ t, res = .ok () ∧ Enabled r t s s' := by
  cases hget : s.gc.heap.get r with
  | none =>
    rw [SecretM.enableSecretContents] at h
    have hread : SecretM.read r ⟨"table has been collected"⟩ s = some (s, [], .error ⟨"table has been collected"⟩) := by
      rw [SecretM.read, Act.get_bind]
      simp only [hget]
      rfl
    rcases Act.bind_cases h with ⟨e, hx, -⟩ | ⟨s₁, w₁, t, w₂, hx, -⟩
    · rw [hread] at hx
      cases hx
      exact .inl rfl
    · rw [hread] at hx
      cases hx
  | some t =>
    by_cases himm : TableM.isFrozen s.gc r = true ∨ t.readOnly = true
    · rw [SecretM.enableSecretContents, Act.bind_of_ok (read_ok hget), Act.get_bind, if_pos himm] at h
      cases h
      exact .inl rfl
    · simp only [not_or, Bool.not_eq_true] at himm
      rw [enableSecretContents_eq hget himm.1 himm.2] at h
      split at h
      · cases h
        exact .inl rfl
      · next hwraps =>
        have hloc := hguard (by simpa using hwraps) t hget himm.1 himm.2
        exact .inr ⟨t, enabled_of_located hget hloc himm.2 h⟩

namespace Seals

theorem setTableSecurity (secure : Bool) (r : GcRef .table) (option : ℕ) :
    Seals R (fun s => Sealed R s ∧ s.Guarded (.setTableSecurity secure r option)) (SecretM.setTableSecurity secure r option)
      fun _ => Sealed R := by
  cases secure with
  | false => exact .bind (Q := fun _ _ => False) (.fail fun _ h => h.1) fun _ => .of_false fun _ h => h
  | true =>
    refine .bind (Q := fun _ s => Sealed R s ∧ s.Guarded (.setTableSecurity true r option)) (.pure (fun _ h => h.1) fun _ h => h) fun _ => ?_
    split
    · exact (addSecurityFlag r (by decide)).weaken fun _ h => h.1
    · exact (addSecurityFlag r (by decide)).weaken fun _ h => h.1
    · rintro s s' w res ⟨h, hguard⟩ heq
      suffices hs' : Sealed R s' from ⟨hs', fun _ _ => ⟨fun _ _ => trivial, hs'⟩⟩
      rcases enableSecretContents_cases (hguard rfl rfl) heq with rfl | ⟨t, -, hen⟩
      · exact h
      · exact (h.enabled hen).subset (Set.subset_insert r R)
    · exact .fail fun _ h => h.1

/-- What the steps keep. -/
theorem run (op : SecretTablesOp) :
    Seals R (fun s => Sealed R s ∧ s.Guarded op ∧ ∀ r ∈ R, (s.gc.heap.get r).isSome) (SecretM.run op) fun _ => Sealed R := by
  have hsealed : ∀ s, (Sealed R s ∧ s.Guarded op ∧ ∀ r ∈ R, (s.gc.heap.get r).isSome) → Sealed R s := fun _ h => h.1
  cases op with
  | alloc k x size => exact (alloc k x size).weaken fun _ h => ⟨h.1, h.2.2⟩
  | internString data => exact (internString data).weaken hsealed
  | setTableSecurity secure r option => exact (setTableSecurity secure r option).weaken fun _ h => ⟨h.1, h.2.1⟩
  | tableSet secure r key value => exact (tableSet secure r key value).weaken hsealed
  | rawSetExistingSlot secure r key value => exact (rawSetExistingSlot secure r key value).weaken hsealed
  | rawSetApiTable secure r key value => exact (rawSetApiTable secure r key value).weaken hsealed
  | handleRawSet secure r key value => exact (handleRawSet secure r key value).weaken hsealed
  | luaRawset secure args => exact (ignore (luaRawset secure args) fun _ _ h => h).weaken hsealed
  | setRaw secure r idx value => exact (setRaw secure r idx value).weaken hsealed
  | opSetList secure table values c => exact (opSetList secure table values c).weaken hsealed
  | sortRead secure r idx => exact (sortRead secure r idx).weaken hsealed
  | swapSortValues secure r li lv ri rv => exact (swapSortValues secure r li lv ri rv).weaken fun _ h => ⟨h.1, h.2.1⟩
  | setField r key value => exact (setField r key value).weaken fun _ h => ⟨h.1, h.2.1⟩
  | setGlobalVal secure global key value => exact (setGlobalVal secure global key value).weaken fun _ h => ⟨h.1, h.2.1⟩
  | vmGettable secure can t key => exact (ignoreRead fun s₀ => gettableLoop s₀ _ t false).weaken hsealed
  | gettable can t key => exact (ignoreRead fun s₀ => gettableLoop s₀ _ t false).weaken hsealed
  | opGetTable secure can t key => exact (ignoreRead fun s₀ => opGetTable s₀ secure can t key).weaken hsealed
  | opGetGlobalSlot secure can slotIdx env rootGlobal snapshot shadow key =>
    exact (ignoreRead fun s₀ => opGetGlobalSlot s₀ secure can slotIdx env rootGlobal snapshot shadow key).weaken hsealed
  | indexReturned value contentsSecret =>
    exact (ignore (wrapContentsResult value contentsSecret) fun _ _ h => h.1).weaken hsealed
  | setMetatable r mt =>
    refine Act.Triple.weaken ?_ hsealed
    exact onTable r fun s t h => ⟨h.slots, h.nodes⟩
  | makeReadOnly r =>
    refine Act.Triple.weaken ?_ hsealed
    exact onTable r fun s t h => ⟨h.slots, h.nodes⟩
  | setUserdataMetatable r mt =>
    refine Act.Triple.weaken ?_ hsealed
    refine onGc (f := fun g => g.modify r fun ud => Userdata.withMetatable ud mt)
      (fun g o => Heap.get_modify_kind (by decide) g.heap r _ o) fun g o => ?_
    rw [Gc.modify, Heap.get_modify]
    split
    · next heq =>
      subst heq
      cases g.heap.get o <;> rfl
    · rfl
  | putFlag o flag b =>
    refine Act.Triple.weaken ?_ hsealed
    exact onGc (f := fun g => { g with heap := g.heap.putFlag o flag b }) (fun g _ => Heap.get_putFlag ..)
      fun g u => by rw [Heap.get_putFlag]
  | setColor o c =>
    refine Act.Triple.weaken ?_ hsealed
    exact onGc (f := fun g => { g with heap := g.heap.setColor o c }) (fun g _ => Heap.get_setColor ..)
      fun g u => by rw [Heap.get_setColor]
  | nilArrayEntry r idx =>
    refine Act.Triple.weaken ?_ hsealed
    exact onTable r fun s t h => h.nilArrayEntry (nilOrWrapper_nil s) idx
  | nilHashEntries r indices =>
    refine Act.Triple.weaken ?_ hsealed
    exact onTable r fun s t h => Table.Holds.nilHashEntries (nilOrWrapper_nil s) indices h
  | sweep k dead new start maxCount => exact (sweep k dead new start maxCount).weaken fun _ h => ⟨h.1, h.2.1⟩

end Seals

/-! ### Runs -/

theorem step_run {op : SecretTablesOp} (h : s.step op = some s') : ∃ w res, SecretM.run op s = some (s', w, res) := by
  have hrun : (SecretM.run op s).map Prod.fst = some s' := by
    cases op with
    | swapSortValues =>
      rw [step] at h
      split at h
      · exact h
      · cases h
    | _ => exact h
  obtain ⟨⟨s₁, w, res⟩, heq, rfl⟩ := Option.map_eq_some_iff.mp hrun
  exact ⟨w, res, heq⟩

theorem step_sealed {op : SecretTablesOp} (h : Sealed R s) (hlive : ∀ r ∈ R, (s.gc.heap.get r).isSome) (hguard : s.Guarded op)
    (hstep : s.step op = some s') : Sealed R s' := by
  obtain ⟨w, res, heq⟩ := step_run hstep
  exact (Seals.run op s s' w res ⟨h, hguard, hlive⟩ heq).1

/-- What the table at `r` and the reads through it are. -/
structure ContentsSecret (s : SecretTables) (r : GcRef .table) : Prop where
  stored : ∀ t, s.gc.heap.get r = some t → t.Holds s.NilOrWrapper
  rawget : ∀ secure key s' w v, SecretM.luaRawget secure r key s = some (s', w, .ok v) → s'.NilOrWrapper v
  getRaw : ∀ secure idx s' w v, SecretM.getRaw secure r idx s = some (s', w, .ok v) → s'.NilOrWrapper v
  next : ∀ secure key s' w k v, SecretM.luaNext secure r key s = some (s', w, .ok (some (k, v))) → s'.NilOrWrapper v
  gettable : ∀ secure can t key s' w res, Passes true secure can key s r t →
    SecretM.vmGettable secure can t key s = some (s', w, .ok res) → s'.SealedResult res
  apiGettable : ∀ can t key s' w res, Passes false false can key s r t →
    SecretM.gettable can t key s = some (s', w, .ok res) → s'.SealedResult res
  opGetTable : ∀ secure can t key s' w res, Passes true secure can key s r t →
    SecretM.opGetTable secure can t key s = some (s', w, .ok res) → s'.SealedResult res
  /-- The globals of an environment with secret contents, and those that are looked up along its chain. -/
  opGetGlobalSlot : ∀ secure can slotIdx env rootGlobal snapshot shadow key s' w res,
    env = r ∨ (env ≠ rootGlobal ∨ slotIdx ≠ 0 ∧ shadow = none) ∧ Passes true secure can key s r (.table env) →
    SecretM.opGetGlobalSlot secure can slotIdx env rootGlobal snapshot shadow key s = some (s', w, .ok res) →
    s'.SealedResult res

theorem Sealed.contentsSecret (h : Sealed R s) (hwraps : s.tableWrapsContents r = true) : ContentsSecret s r where
  stored t hget := h.contents r t hwraps hget
  rawget secure key s' w v heq := by
    obtain rfl := Seals.observes_luaRawget _ _ _ _ _ _ _ heq
    exact ((Seals.luaRawget secure r key _ _ w _ h heq).2 v rfl).2.2 hwraps
  getRaw secure idx s' w v heq := by
    obtain rfl := Seals.observes_getRaw _ _ _ _ _ _ _ heq
    exact ((Seals.getRaw secure r idx _ _ w _ h heq).2 v rfl).2.2 hwraps
  next secure key s' w k v heq := by
    obtain rfl := Seals.observes_luaNext _ _ _ _ _ _ _ heq
    exact ((Seals.luaNext secure r key _ _ w _ h heq).2 _ rfl).2.2 k v rfl hwraps
  gettable secure can t key s' w res hpass heq := by
    obtain ⟨-, hres⟩ := ((Seals.gettableLoop s _ t false s s' w _ ⟨rfl, h⟩ heq).2 _ rfl).2
    exact hres (.inr ⟨r, hpass, hwraps⟩)
  apiGettable can t key s' w res hpass heq := by
    obtain ⟨-, hres⟩ := ((Seals.gettableLoop s _ t false s s' w _ ⟨rfl, h⟩ heq).2 _ rfl).2
    exact hres (.inr ⟨r, hpass, hwraps⟩)
  opGetTable secure can t key s' w res hpass heq := by
    obtain ⟨-, hres⟩ := ((Seals.opGetTable s secure can t key s s' w _ ⟨rfl, h⟩ heq).2 _ rfl).2
    exact hres ⟨r, hpass, hwraps⟩
  opGetGlobalSlot secure can slotIdx env rootGlobal snapshot shadow key s' w res hpass heq := by
    obtain ⟨-, hres⟩ :=
      ((Seals.opGetGlobalSlot s secure can slotIdx env rootGlobal snapshot shadow key s s' w _ ⟨rfl, h⟩ heq).2 _ rfl).2
    rcases hpass with rfl | ⟨hslot, hpass⟩
    · exact hres (.inl hwraps)
    · exact hres (.inr ⟨hslot, r, hpass, hwraps⟩)

/-- Steps of which it can be seen that they are guarded. -/
def plainCheck (s : SecretTables) : SecretTablesOp → Bool
  | .setTableSecurity _ r _ => (s.gc.heap.get r).all fun t => t.nodes.isEmpty && decide (t.array.length ≤ 2 ^ 52)
  | .swapSortValues .. | .setField .. | .setGlobalVal .. | .sweep .. => false
  | _ => true

theorem guarded_of_plainCheck {op : SecretTablesOp} (h : s.plainCheck op = true) : s.Guarded op := by
  cases op with
  | setTableSecurity secure r option =>
    intro _ _ _ t hget _ _
    rw [plainCheck, hget, Option.all_some, Bool.and_eq_true, List.isEmpty_iff, decide_eq_true_eq] at h
    exact ⟨h.2, by simp [h.1], by simp [h.1]⟩
  | swapSortValues | setField | setGlobalVal | sweep => cases h
  | _ => exact trivial

/-- The contents of a table with one value are made secret, and a second value is stored. -/
def enabledThenStored : List SecretTablesOp :=
  [.alloc .table {} 0, .tableSet true ⟨0, 0⟩ (.num (F64.ofInt 1)) (.num (F64.ofInt 10)), .setTableSecurity true ⟨0, 0⟩ 2,
    .tableSet false ⟨0, 0⟩ (.num (F64.ofInt 1)) (.num (F64.ofInt 20))]

/-- A table with a value in each part. Its contents are made secret between two comparisons of `table.sort`. -/
def enabledWhileSorting : List SecretTablesOp :=
  [.alloc .table { nodes := [Node.empty], lastFree := 1 } 0,
    .tableSet true ⟨0, 0⟩ (.num (F64.ofInt 2)) (.num (F64.ofInt 20)), .opSetList true (.table ⟨0, 0⟩) [.num (F64.ofInt 10)] 1,
    .sortRead true ⟨0, 0⟩ 1, .sortRead true ⟨0, 0⟩ 2, .setTableSecurity true ⟨0, 0⟩ 2,
    .swapSortValues true ⟨0, 0⟩ 1 (.num (F64.ofInt 10)) 2 (.num (F64.ofInt 20))]

end SecretTables

end Rilua.Vm
