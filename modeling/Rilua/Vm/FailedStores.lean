import Rilua.Vm.SecretRuns
import Rilua.Vm.TableNext
import Rilua.Vm.TableSequence

/-! Stores that fail (`table_set` and `vm_settable` of `vm/execute/runtime_ops.rs`). The checks come before the
    store, and a refused store changes no entry; but the memory limit is checked when the entry has been stored, and
    before the barrier. -/

namespace Rilua.Vm

open Lib Gc

namespace Table

variable {strings : StringArena} {t t' : Table} {key value : Val} {o : ObjRef}

/-! ### References -/

theorem objRef_congr {a b : Val} (h : a.rawEq b = true) : a.objRef = b.objRef := by
  cases a <;> cases b <;> simp only [Val.rawEq, Bool.false_eq_true, beq_iff_eq] at h <;> first | rfl | rw [h]

theorem objRef_ne_nil {v : Val} (h : v.objRef = some o) : v ≠ .nil := by
  rintro rfl
  cases h

/-- What a table refers to: its metatable, and the keys and values of its fields. -/
theorem Inv.mem_refs (h : t.Inv strings) :
    o ∈ Obj.refs (k := .table) t ↔ (∃ mt, t.metatable = some mt ∧ o = ⟨_, mt⟩) ∨
      ∃ i < t.positions, t.valueAt i ≠ .nil ∧ ((t.keyAt i).objRef = some o ∨ (t.valueAt i).objRef = some o) := by
  have hrefs : o ∈ Obj.refs (k := .table) t ↔ (∃ mt, t.metatable = some mt ∧ o = ⟨_, mt⟩) ∨
      ∃ v ∈ t.vals, v.objRef = some o := by
    simp only [Obj.refs, Obj.vals, Obj.upvalueRefs, List.map_nil, List.append_nil, List.mem_filterMap, List.mem_append,
      Option.mem_toList, Option.map_eq_some_iff]
    constructor
    · rintro ⟨v, ⟨mt, hmt, rfl⟩ | hv, ho⟩
      · cases ho
        exact .inl ⟨mt, hmt, rfl⟩
      · exact .inr ⟨v, hv, ho⟩
    · rintro (⟨mt, hmt, rfl⟩ | ⟨v, hv, ho⟩)
      · exact ⟨.table mt, .inl ⟨mt, hmt, rfl⟩, rfl⟩
      · exact ⟨v, .inr hv, ho⟩
  rw [hrefs]
  refine or_congr_right ⟨?_, ?_⟩
  · rintro ⟨v, hv, ho⟩
    rcases List.mem_append.mp hv with hv | hv
    · obtain ⟨i, hi⟩ := List.mem_iff_getElem?.mp hv
      have hlt := (List.getElem?_eq_some_iff.mp hi).1
      have hval : t.valueAt i = v := by rw [valueAt_slot hlt, List.getD_eq_getElem?_getD, hi]; rfl
      exact ⟨i, by rw [positions]; omega, by rw [hval]; exact objRef_ne_nil ho, .inr (by rw [hval]; exact ho)⟩
    · obtain ⟨n, hn, hv⟩ := List.mem_flatMap.mp hv
      split at hv
      · cases hv
      · next hnil =>
        rw [Bool.or_eq_true, not_or] at hnil
        obtain ⟨j, hj⟩ := NodesInv.exists_index hn
        have hlt := NodesInv.lt_length hj
        have hkey : t.keyAt (t.array.length + j) = n.key := by
          rw [keyAt_node, List.getD_eq_getElem?_getD, hj]; rfl
        have hval : t.valueAt (t.array.length + j) = n.value := by
          rw [valueAt_node, List.getD_eq_getElem?_getD, hj]; rfl
        refine ⟨t.array.length + j, by rw [positions]; omega, ?_, ?_⟩
        · rw [hval]
          exact fun h0 => hnil.2 (Val.isNil_eq_true.mpr h0)
        · rw [hkey, hval]
          rcases List.mem_pair.mp hv with rfl | rfl
          · exact .inl ho
          · exact .inr ho
  · rintro ⟨i, hi, hv, ho⟩
    rcases Nat.lt_or_ge i t.array.length with hlt | hge
    · rw [valueAt_slot hlt, List.getD_eq_getElem _ _ hlt] at ho
      rcases ho with ho | ho
      · rw [keyAt, if_pos hlt] at ho
        cases ho
      · exact ⟨t.array[i], List.mem_append_left _ (List.getElem_mem hlt), ho⟩
    · obtain ⟨j, rfl⟩ := Nat.exists_eq_add_of_le hge
      rw [positions] at hi
      have hj : t.nodes[j]? = some t.nodes[j] := List.getElem?_eq_getElem (by omega)
      rw [valueAt_node, List.getD_eq_getElem?_getD, hj, Option.getD_some] at hv ho
      rw [keyAt_node, List.getD_eq_getElem?_getD, hj, Option.getD_some] at ho
      have hmem : t.nodes[j] ∈ t.nodes := List.getElem_mem _
      have hkey := (key_live h hmem hv).ne_nil
      have hpair : ∀ v ∈ [t.nodes[j].key, t.nodes[j].value], v ∈ t.vals := by
        intro v hmemv
        refine List.mem_append_right _ (List.mem_flatMap.mpr ⟨_, hmem, ?_⟩)
        rwa [if_neg (by simp [Val.isNil_eq_false.mpr hkey, Val.isNil_eq_false.mpr hv])]
      rcases ho with ho | ho
      · exact ⟨_, hpair _ (by simp), ho⟩
      · exact ⟨_, hpair _ (by simp), ho⟩

/-- A table with the same fields refers to the same objects. -/
theorem Inv.refs_subset (h : t.Inv strings) (h' : t'.Inv strings) (hlen : t.array.length < 2 ^ 52)
    (hlen' : t'.array.length < 2 ^ 52) (hlookup : ∀ k, k.Live strings → t'.lookup k = t.lookup k)
    (hmeta : t'.metatable = t.metatable) (ho : o ∈ Obj.refs (k := .table) t') : o ∈ Obj.refs (k := .table) t := by
  rw [h.mem_refs]
  rcases h'.mem_refs.mp ho with ⟨mt, hmt, rfl⟩ | ⟨i, hi, hv, ho⟩
  · exact .inl ⟨mt, hmeta ▸ hmt, rfl⟩
  · obtain ⟨hat, hlive⟩ := h'.at_keyAt hlen' hi hv
    have hsame : t.lookup (t'.keyAt i) = t'.valueAt i := by rw [← hlookup _ hlive, hat.lookup_eq h' hlive]
    obtain ⟨j, hj⟩ := exists_at (hsame ▸ hv)
    have hvalue : t.valueAt j = t'.valueAt i := by rw [← hj.lookup_eq h hlive, hsame]
    have hjlt := hj.lt_positions h
    have hkey := (h.at_keyAt hlen hjlt (hvalue ▸ hv)).1.rawEq h hj
    exact .inr ⟨j, hjlt, hvalue ▸ hv, by rw [objRef_congr hkey, hvalue]; exact ho⟩

/-! ### Assignments -/

variable {res : Except LuaError ℕ}

theorem Inv.rawSetWithMemoryDelta_outcome (h : t.Inv strings) (hsmall : t.Small) (hk : key.isStale strings = false)
    (hset : t.rawSetWithMemoryDelta key value strings = some (t', res)) :
    SetOutcome strings t key value (t', res) ∧ t'.metatable = t.metatable := by
  obtain ⟨r, hraw, hout⟩ := h.rawSet_spec hsmall hk value
  have hshell := SameShell.rawSet hraw
  simp only [rawSet, hset, bind, Option.bind_some] at hraw
  cases res with
  | error e =>
    cases hraw
    exact ⟨⟨hout.inv, hout.small, hout.lookup_eq⟩, hshell.metatable_eq⟩
  | ok delta =>
    cases hraw
    exact ⟨⟨hout.inv, hout.small, hout.lookup_eq⟩, hshell.metatable_eq⟩

/-- What has been stored has a proper key. -/
theorem live_of_stored {delta : ℕ} (hk : key.isStale strings = false)
    (hset : t.rawSetWithMemoryDelta key value strings = some (t', .ok delta)) : key.Live strings := by
  refine ⟨?_, Bool.eq_false_iff.mpr fun hnan => ?_, hk⟩
  · rintro rfl
    rw [rawSetWithMemoryDelta] at hset
    split at hset
    · cases hset
    · cases hset
  · rw [rawSetWithMemoryDelta] at hset
    split at hset
    · cases hset
    · dsimp only at hset
      generalize (if isMetaName key strings then { t with flags := 0 } else t : Table) = u at hset
      have hnil : key ≠ .nil := by
        rintro rfl
        cases hnan
      rw [rawSetImpl, rawSetWith, if_pos hnan] at hset
      · cases hset
      · exact hnil

end Table

/-! ### The state after a failed store -/

namespace SecretTables

variable {s s' s₁ : SecretTables} {r r' : GcRef .table} {t t' : Table} {key value v : Val}

/-- The tables are as assignments build them. -/
def TablesBuilt (s : SecretTables) : Prop :=
  ∀ (r : GcRef .table) t, s.gc.heap.get r = some t → Table.Inv s.gc.heap.strings t ∧ Table.Small t

/-- The object has one of the two white colors. -/
def IsWhite (s : SecretTables) (o : ObjRef) : Prop := ∃ c, s.gc.heap.color o = some c ∧ c.isWhite = true

/-- No entry of a table has changed, and no black table refers to a white object that it did not refer to. -/
structure Unchanged (s s' : SecretTables) : Prop where
  entries : ∀ (r : GcRef .table) t, s.gc.heap.get r = some t → ∃ t', s'.gc.heap.get r = some t' ∧
    ∀ k, Table.get t' k s'.gc.heap.strings = Table.get t k s.gc.heap.strings
  barrier : ∀ (r : GcRef .table) t t', s.gc.heap.get r = some t → s'.gc.heap.get r = some t' →
    s'.gc.heap.color ⟨_, r⟩ = some .black → ∀ o ∈ Obj.refs t', s'.IsWhite o → o ∈ Obj.refs t

/-- Other tables and the strings are the same, and the fields of this one. -/
theorem Unchanged.of_table (hbuilt : s.TablesBuilt) (hstrings : s'.gc.heap.strings = s.gc.heap.strings)
    (hother : ∀ r' : GcRef .table, r' ≠ r → s'.gc.heap.get r' = s.gc.heap.get r') (hget : s.gc.heap.get r = some t)
    (hget' : s'.gc.heap.get r = some t') (hinv' : t'.Inv s.gc.heap.strings) (hsmall' : t'.Small)
    (hlookup : ∀ k, k.Live s.gc.heap.strings → t'.lookup k = t.lookup k) (hmeta : t'.metatable = t.metatable) :
    Unchanged s s' := by
  obtain ⟨hinv, hsmall⟩ := hbuilt r t hget
  constructor
  · intro r' u hu
    rcases eq_or_ne r' r with rfl | hne
    · obtain rfl : u = t := Option.some.inj (hu.symm.trans hget)
      refine ⟨t', hget', fun k => ?_⟩
      rw [hstrings]
      by_cases hk : k.Live s.gc.heap.strings
      · rw [Table.Inv.get_eq hinv hk, Table.Inv.get_eq hinv' hk, hlookup k hk]
      · rw [Table.Inv.get_of_not_live hinv hk, Table.Inv.get_of_not_live hinv' hk]
    · exact ⟨u, (hother r' hne).trans hu, fun k => by rw [hstrings]⟩
  · intro r' u u' hu hu' _ o ho _
    rcases eq_or_ne r' r with rfl | hne
    · obtain rfl : u = t := Option.some.inj (hu.symm.trans hget)
      obtain rfl : u' = t' := Option.some.inj (hu'.symm.trans hget')
      have hlt : ∀ {x : Table}, x.Small → x.array.length < 2 ^ 52 := fun hx => hx.array_le.trans_lt (by decide)
      exact hinv.refs_subset hinv' (hlt hsmall) (hlt hsmall') hlookup hmeta ho
    · rw [hother r' hne, hu, Option.some.injEq] at hu'
      rw [hu']
      exact ho

theorem Unchanged.of_same (hstrings : s'.gc.heap.strings = s.gc.heap.strings)
    (hsame : ∀ r : GcRef .table, s'.gc.heap.get r = s.gc.heap.get r) : Unchanged s s' := by
  constructor
  · exact fun r t ht => ⟨t, (hsame r).trans ht, fun k => by rw [hstrings]⟩
  · intro r t t' ht ht' _ o ho _
    rw [hsame r, ht, Option.some.injEq] at ht'
    rw [ht']
    exact ho

/-- The value that is stored, and the state when it has been wrapped. -/
def stored (s : SecretTables) (r : GcRef .table) (value : Val) : Option (SecretTables × Val) :=
  s.wrapContentsResult value (s.tableWrapsContents r)

/-- The checks before the store are passed. -/
def Allows (s : SecretTables) (secure : Bool) (r : GcRef .table) (key : Val) : Prop :=
  Act.Returns (SecretM.checkTableAccess secure r (some key)) s () ∧ Act.Returns (SecretM.ensureTableNotFrozen r) s ()

/-- With the store the memory in use exceeds the limit. -/
def ExceedsLimit (s : SecretTables) (r : GcRef .table) (key value : Val) : Prop :=
  ∃ s₁ v t t' delta, s.stored r value = some (s₁, v) ∧ s.gc.heap.get r = some t ∧
    Table.rawSetWithMemoryDelta t key v s.gc.heap.strings = some (t', .ok delta) ∧
    s₁.gc.gcState.allocLimit < s₁.gc.gcState.totalBytes + delta ∧ Table.get t key s.gc.heap.strings ≠ some v

theorem stored_frame (h : s.stored r value = some (s₁, v)) :
    (∀ r' : GcRef .table, s₁.gc.heap.get r' = s.gc.heap.get r') ∧ s₁.gc.heap.strings = s.gc.heap.strings := by
  obtain ⟨htables, hwrapping, -⟩ := wrapContentsResult_spec (r := r) h
  exact ⟨fun r' => by rw [Heap.get, Heap.get, htables], hwrapping.strings⟩

/-- An assignment that is refused. -/
theorem update_refused {α : Type} {f : Table → StringArena → Option (TableResult α)} {missing e : LuaError}
    {w : List Unit} (hbuilt : s.TablesBuilt) (hstored : s.stored r value = some (s₁, v))
    (hf : ∀ t t' res, s.gc.heap.get r = some t → f t s.gc.heap.strings = some (t', res) →
      Table.SetOutcome s.gc.heap.strings t key v (t', res) ∧ t'.metatable = t.metatable)
    (hrun : SecretM.update r missing f s₁ = some (s', w, .error e)) : Unchanged s s' := by
  obtain ⟨hsame, hstrings⟩ := stored_frame hstored
  rw [SecretM.update, Act.attempt, Option.map_eq_some_iff] at hrun
  obtain ⟨⟨s₂, res⟩, hrun, heq⟩ := hrun
  cases heq
  cases hget : s.gc.heap.get r with
  | none =>
    simp only [hsame, hget, Option.some.injEq, Prod.mk.injEq] at hrun
    obtain ⟨rfl, -⟩ := hrun
    exact .of_same hstrings hsame
  | some t =>
    simp only [hsame, hget] at hrun
    obtain ⟨⟨t', res⟩, hset, heq⟩ := Option.map_eq_some_iff.mp hrun
    cases heq
    rw [hstrings] at hset
    obtain ⟨hout, hmeta⟩ := hf t t' _ hget hset
    refine .of_table hbuilt ((wrapping_withTable s₁ r t').strings.trans hstrings) ?_ hget
      (get_withTable ((hsame r).trans hget) t') hout.inv hout.small ?_ hmeta
    · exact fun r' hne => (get_withTable_ne s₁ t' hne).trans (hsame r')
    · exact fun k hlive => (hout.lookup_eq k hlive).trans (if_neg fun hc => by cases hc.1)

/-- What happens behind the checks: the assignment is refused, or the limit is exceeded. -/
theorem update_failed {w : List Unit} {e : LuaError} (hbuilt : s.TablesBuilt)
    (hk : key.isStale s.gc.heap.strings = false) (hstored : s.stored r value = some (s₁, v))
    (hrun : (do
      let memoryDelta ← SecretM.update r SecretM.invalidTable fun t strings => t.rawSetWithMemoryDelta key v strings
      SecretM.onGc fun g => g.trackAlloc memoryDelta
      let s ← Act.get
      if s.gc.gcState.totalBytes > s.gc.gcState.allocLimit then Act.fail ⟨"not enough memory"⟩
      else SecretM.barrierBack r : SecretM Unit) s₁ = some (s', w, .error e)) :
    Unchanged s s' ↔ ¬ s.ExceedsLimit r key value := by
  obtain ⟨hsame, hstrings⟩ := stored_frame hstored
  have houtcome : ∀ t t' res, s.gc.heap.get r = some t →
      Table.rawSetWithMemoryDelta t key v s.gc.heap.strings = some (t', res) →
      Table.SetOutcome s.gc.heap.strings t key v (t', res) ∧ t'.metatable = t.metatable := fun t t' res hget hset =>
    (hbuilt r t hget).1.rawSetWithMemoryDelta_outcome (hbuilt r t hget).2 hk hset
  have hupdate : ∀ {s₂ w₁ res}, SecretM.update r SecretM.invalidTable
      (fun t strings => Table.rawSetWithMemoryDelta t key v strings) s₁ = some (s₂, w₁, res) →
      ∀ t, s.gc.heap.get r = some t → ∃ t', s₂ = s₁.withTable r t' ∧ w₁ = [] ∧
        Table.rawSetWithMemoryDelta t key v s.gc.heap.strings = some (t', res) := by
    intro s₂ w₁ res h t hget
    rw [SecretM.update, Act.attempt, Option.map_eq_some_iff] at h
    obtain ⟨⟨s₂, res⟩, h, heq⟩ := h
    cases heq
    simp only [hsame, hget, hstrings] at h
    obtain ⟨⟨t', res⟩, hset, heq⟩ := Option.map_eq_some_iff.mp h
    cases heq
    exact ⟨t', rfl, rfl, hset⟩
  rcases Act.bind_cases hrun with ⟨e', hrefused, -⟩ | ⟨s₂, w₁, delta, w₂, hset₁, hrun₁⟩
  · refine iff_of_true (update_refused hbuilt hstored houtcome hrefused) ?_
    rintro ⟨s₂, v₂, t, t', delta, hstored₂, hget, hset, -⟩
    cases hstored.symm.trans hstored₂
    obtain ⟨u, -, -, hset'⟩ := hupdate hrefused t hget
    rw [hset] at hset'
    cases hset'
  cases hget : s.gc.heap.get r with
  | none =>
    rw [SecretM.update, Act.attempt] at hset₁
    simp only [hsame, hget, Option.map_some, Option.some.injEq, Prod.mk.injEq, reduceCtorEq, and_false] at hset₁
  | some t =>
    obtain ⟨t', rfl, rfl, hset⟩ := hupdate hset₁ t hget
    obtain ⟨hout, hmeta⟩ := houtcome t t' _ hget hset
    have hinv := (hbuilt r t hget).1
    have hlive := Table.live_of_stored hk hset
    have hget' : (s₁.withTable r t').gc.heap.get r = some t' := get_withTable ((hsame r).trans hget) t'
    have hother : ∀ r' : GcRef .table, r' ≠ r → (s₁.withTable r t').gc.heap.get r' = s.gc.heap.get r' :=
      fun r' hne => (get_withTable_ne s₁ t' hne).trans (hsame r')
    have hstrings' : (s₁.withTable r t').gc.heap.strings = s.gc.heap.strings :=
      (wrapping_withTable s₁ r t').strings.trans hstrings
    have hlookup : ∀ k, k.Live s.gc.heap.strings → t'.lookup k = if key.rawEq k = true then v else t.lookup k :=
      fun k hk' => by rw [hout.lookup_eq k hk']; simp [Except.isOk, Except.toBool]
    rw [SecretM.onGc, Act.modify_bind, Act.get_bind] at hrun₁
    split at hrun₁
    · next hlimit =>
      cases hrun₁
      constructor
      · rintro hunchanged ⟨s₂, v₂, u, u', delta', hstored₂, hu, -, -, hne⟩
        cases hstored.symm.trans hstored₂
        obtain rfl : u = t := Option.some.inj (hu.symm.trans hget)
        obtain ⟨u', hu', hsameGet⟩ := hunchanged.entries r u hget
        obtain rfl : u' = t' := Option.some.inj (hu'.symm.trans hget')
        refine hne ((hsameGet key).symm.trans ?_)
        change Table.get u' key (s₁.withTable r u').gc.heap.strings = _
        rw [hstrings', Table.Inv.get_eq hout.inv hlive, hlookup key hlive, if_pos hlive.rawEq_self]
      · intro hnot
        have hv : t.lookup key = v := by
          by_contra hne
          refine hnot ⟨s₁, v, t, t', delta, hstored, hget, hset, hlimit, ?_⟩
          rw [Table.Inv.get_eq hinv hlive]
          exact fun h => hne (Option.some.inj h)
        refine .of_table hbuilt hstrings' hother hget hget' hout.inv hout.small (fun k hk' => ?_) hmeta
        rw [hlookup k hk']
        split
        · next heq => rw [← hv, Table.lookup_congr heq]
        · rfl
    · cases hrun₁

/-- `table_set` that fails leaves everything as it was, unless it has got past the checks and exceeds the limit. -/
theorem tableSet_failed {secure : Bool} {w : List Unit} {e : LuaError} (hbuilt : s.TablesBuilt)
    (hk : key.isStale s.gc.heap.strings = false)
    (hrun : SecretM.tableSet secure r key value s = some (s', w, .error e)) :
    Unchanged s s' ↔ ¬ (s.Allows secure r key ∧ s.ExceedsLimit r key value) := by
  rw [SecretM.tableSet] at hrun
  have hrefl : Unchanged s s := .of_same rfl fun _ => rfl
  rcases Act.bind_cases hrun with ⟨e', hcheck, -⟩ | ⟨s₁, w₁, a, w₂, hcheck, hrun₁⟩
  · obtain rfl := Seals.observes_checkTableAccess _ _ _ _ _ _ _ hcheck
    refine iff_of_true hrefl fun h => ?_
    obtain ⟨_, _, hok⟩ := h.1.1
    rw [hcheck] at hok
    cases hok
  obtain rfl := Seals.observes_checkTableAccess _ _ _ _ _ _ _ hcheck
  rcases Act.bind_cases hrun₁ with ⟨e', hfrozen, -⟩ | ⟨s₂, w₃, b, w₄, hfrozen, hrun₂⟩
  · obtain rfl := Seals.observes_ensureTableNotFrozen _ _ _ _ _ hfrozen
    refine iff_of_true hrefl fun h => ?_
    obtain ⟨_, _, hok⟩ := h.1.2
    rw [hfrozen] at hok
    cases hok
  obtain rfl := Seals.observes_ensureTableNotFrozen _ _ _ _ _ hfrozen
  have hallows : s₂.Allows secure r key := ⟨⟨_, _, hcheck⟩, ⟨_, _, hfrozen⟩⟩
  rw [and_iff_right hallows]
  rcases Act.bind_cases hrun₂ with ⟨e', hwrap, -⟩ | ⟨s₃, w₅, v, w₆, hwrap, hrun₃⟩
  · obtain ⟨v, hres, -⟩ := wrapTableValue_ok hwrap
    cases hres
  · obtain ⟨v', hres, hstored⟩ := wrapTableValue_ok hwrap
    cases hres
    exact update_failed hbuilt hk hstored hrun₃

/-! ### Assignments along `__newindex` -/

/-- An assignment to the first value goes on with the second one, which is its `__newindex` and no function. -/
inductive Forwards (s : SecretTables) (secure : Bool) (key : Val) : Val → Val → Prop
  | table {r : GcRef .table} {t : Table} {mt : GcRef .table} {v : Val}
      (haccess : Act.Returns (SecretM.checkTableAccess secure r (some key)) s ()) (hget : s.gc.heap.get r = some t)
      (habsent : Table.get t key s.gc.heap.strings = some .nil) (hmeta : Table.metatable t = some mt)
      (htm : s.gc.fasttm mt .newIndex = some v) (hfunction : ∀ f, v ≠ .function f) : Forwards s secure key (.table r) v
  | other {current v : Val} (htable : ∀ r, current ≠ .table r) (htm : s.gc.gettmbyobj current .newIndex = some v)
      (hfunction : ∀ f, v ≠ .function f) : Forwards s secure key current v

/-- An assignment to a value comes to the table at `r` in less than `n` steps. -/
inductive LeadsTo (s : SecretTables) (secure : Bool) (key : Val) : ℕ → Val → GcRef .table → Prop
  | here {n : ℕ} {r : GcRef .table} : LeadsTo s secure key (n + 1) (.table r) r
  | next {n : ℕ} {current v : Val} {r : GcRef .table} (hstep : Forwards s secure key current v)
      (hrest : LeadsTo s secure key n v r) : LeadsTo s secure key (n + 1) current r

/-- The assignment stops at the table at `r`, and not because it has a value under the key. -/
def StoresNew (s : SecretTables) (r : GcRef .table) (key : Val) : Prop :=
  ∃ t, s.gc.heap.get r = some t ∧ (Table.metatable t = none ∨
    Table.get t key s.gc.heap.strings = some .nil ∧ (Table.metatable t).bind (s.gc.fasttm · .newIndex) = none)

/-- The store that fails is one of `table_set` that exceeds the limit. -/
def Overruns (s : SecretTables) (secure : Bool) (r : GcRef .table) (key value : Val) : Prop :=
  s.Allows secure r key ∧ s.ExceedsLimit r key value

variable {secure : Bool} {w : List Unit} {e : LuaError}

theorem rawSetExistingSlot_failed (hbuilt : s.TablesBuilt) (hk : key.isStale s.gc.heap.strings = false)
    (hrun : SecretM.rawSetExistingSlot secure r key value s = some (s', w, .error e)) : Unchanged s s' := by
  rw [SecretM.rawSetExistingSlot] at hrun
  have hrefl : Unchanged s s := .of_same rfl fun _ => rfl
  rcases Act.bind_cases hrun with ⟨e', hcheck, -⟩ | ⟨s₁, w₁, a, w₂, hcheck, hrun₁⟩
  · obtain rfl := Seals.observes_checkTableAccess _ _ _ _ _ _ _ hcheck
    exact hrefl
  obtain rfl := Seals.observes_checkTableAccess _ _ _ _ _ _ _ hcheck
  rcases Act.bind_cases hrun₁ with ⟨e', hfrozen, -⟩ | ⟨s₂, w₃, b, w₄, hfrozen, hrun₂⟩
  · obtain rfl := Seals.observes_ensureTableNotFrozen _ _ _ _ _ hfrozen
    exact hrefl
  obtain rfl := Seals.observes_ensureTableNotFrozen _ _ _ _ _ hfrozen
  rcases Act.bind_cases hrun₂ with ⟨e', hwrap, -⟩ | ⟨s₃, w₅, v, w₆, hwrap, hrun₃⟩
  · obtain ⟨v, hres, -⟩ := wrapTableValue_ok hwrap
    cases hres
  obtain ⟨v', hres, hstored⟩ := wrapTableValue_ok hwrap
  cases hres
  rcases Act.bind_cases hrun₃ with ⟨e', hset, -⟩ | ⟨s₄, w₇, c, w₈, hset, hrun₄⟩
  · have hout : ∀ t t' res, s₂.gc.heap.get r = some t → Table.rawSet t key v s₂.gc.heap.strings = some (t', res) →
        Table.SetOutcome s₂.gc.heap.strings t key v (t', res) ∧ t'.metatable = t.metatable := by
      intro t t' res hget hraw
      obtain ⟨hinv, hsmall⟩ := hbuilt r t hget
      obtain ⟨res', hraw', hout⟩ := hinv.rawSet_spec hsmall hk v
      cases hraw.symm.trans hraw'
      exact ⟨hout, (Table.SameShell.rawSet hraw).metatable_eq⟩
    exact update_refused hbuilt hstored hout hset
  · cases hrun₄

theorem resolveSettableTm_next {current tm : Val} (h : TableM.resolveSettableTm current tm = .next v) :
    tm = v ∧ ∀ f, tm ≠ .function f := by
  unfold TableM.resolveSettableTm at h
  split at h
  · cases h
  · next hfunction =>
    cases h
    exact ⟨rfl, hfunction⟩

theorem resolveSettableTm_of_ne {current tm : Val} (h : ∀ f, tm ≠ .function f) :
    TableM.resolveSettableTm current tm = .next tm := by
  unfold TableM.resolveSettableTm
  split
  · exact absurd rfl (h _)
  · rfl

theorem read_eq (s : SecretTables) (r : GcRef .table) (missing : LuaError) :
    SecretM.read r missing s = some (s, [], (s.gc.heap.get r).elim (.error missing) .ok) := by
  rw [SecretM.read, Act.get_bind]
  cases s.gc.heap.get r <;> rfl

theorem ofOption_some {α : Type} {x : Option α} {a : α} (h : x = some a) (s : SecretTables) :
    (Act.ofOption x : SecretM α) s = some (s, [], .ok a) := by
  rw [Act.ofOption, Act.lift, h]
  rfl

/-- Where an assignment is forwarded, that is what `settable_step` comes to. -/
theorem Forwards.step {current : Val} {res : Except LuaError TableM.SettableStep} (h : s.Forwards secure key current v)
    (hrun : SecretM.settableStep secure current key value s = some (s', w, res)) : res = .ok (.next v) := by
  cases h with
  | table haccess hget habsent hmeta htm hfunction =>
    rename_i r t mt
    have hcheck : ∀ {s₁ w e}, SecretM.checkTableAccess secure r (some key) s ≠ some (s₁, w, .error e) := by
      intro s₁ w e h
      obtain ⟨_, _, hok⟩ := haccess
      rw [h] at hok
      cases hok
    change SecretM.handleTableSettable secure r key value s = _ at hrun
    rw [SecretM.handleTableSettable] at hrun
    rcases Act.bind_cases hrun with ⟨e, h, -⟩ | ⟨s₁, w₁, a, w₂, hcheck₁, hrun₁⟩
    · exact absurd h hcheck
    obtain rfl := Seals.observes_checkTableAccess _ _ _ _ _ _ _ hcheck₁
    have hread := read_eq s₁ r SecretM.invalidTable
    rw [hget] at hread
    rw [Act.bind_of_ok hread, if_neg (by rw [hmeta]; nofun)] at hrun₁
    rcases Act.bind_cases hrun₁ with ⟨e, h, -⟩ | ⟨s₂, w₃, b, w₄, hcheck₂, hrun₂⟩
    · exact absurd h hcheck
    obtain rfl := Seals.observes_checkTableAccess _ _ _ _ _ _ _ hcheck₂
    rw [Act.get_bind, Act.bind_of_ok (ofOption_some habsent s₂), if_neg (by simp [Val.isNil]), hmeta,
      Option.bind_some] at hrun₂
    simp only [htm, resolveSettableTm_of_ne hfunction] at hrun₂
    cases hrun₂
    rfl
  | other htable htm hfunction =>
    unfold SecretM.settableStep at hrun
    split at hrun
    · exact absurd rfl (htable _)
    · simp only [Act.get_bind, htm, resolveSettableTm_of_ne hfunction] at hrun
      cases hrun
      rfl

/-- One step of an assignment to a table. -/
theorem handleTableSettable_spec {res : Except LuaError TableM.SettableStep} (hbuilt : s.TablesBuilt)
    (hk : key.isStale s.gc.heap.strings = false)
    (hrun : SecretM.handleTableSettable secure r key value s = some (s', w, res)) :
    (∀ e, res = .error e → (Unchanged s s' ↔ ¬ (s.StoresNew r key ∧ s.Overruns secure r key value))) ∧
    ∀ v, res = .ok (.next v) → s' = s ∧ s.Forwards secure key (.table r) v ∧ ¬ s.StoresNew r key := by
  rw [SecretM.handleTableSettable] at hrun
  have hrefl : Unchanged s s := .of_same rfl fun _ => rfl
  have hset : ∀ {w res s'}, (SecretM.tableSet secure r key value >>= fun _ => pure TableM.SettableStep.done) s =
      some (s', w, res) → s.StoresNew r key →
      (∀ e, res = .error e → (Unchanged s s' ↔ ¬ (s.StoresNew r key ∧ s.Overruns secure r key value))) ∧
      ∀ v, res = .ok (.next v) → s' = s ∧ s.Forwards secure key (.table r) v ∧ ¬ s.StoresNew r key := by
    intro w res s' h hnew
    rcases Act.bind_cases h with ⟨e, hfail, rfl⟩ | ⟨s₁, w₁, a, w₂, -, hdone⟩
    · refine ⟨fun _ _ => ?_, fun _ h => by cases h⟩
      rw [and_iff_right hnew]
      exact tableSet_failed hbuilt hk hfail
    · cases hdone
      exact ⟨fun _ h => (by cases h), fun _ h => by cases h⟩
  rcases Act.bind_cases hrun with ⟨e, hcheck, rfl⟩ | ⟨s₁, w₁, a, w₂, hcheck, hrun₁⟩
  · obtain rfl := Seals.observes_checkTableAccess _ _ _ _ _ _ _ hcheck
    refine ⟨fun _ _ => iff_of_true hrefl fun h => ?_, fun _ h => by cases h⟩
    obtain ⟨_, _, hok⟩ := h.2.1.1
    rw [hcheck] at hok
    cases hok
  obtain rfl := Seals.observes_checkTableAccess _ _ _ _ _ _ _ hcheck
  have hread := read_eq s₁ r SecretM.invalidTable
  cases hget : s₁.gc.heap.get r with
  | none =>
    rw [hget] at hread
    rw [Act.bind_of_error hread] at hrun₁
    cases hrun₁
    refine ⟨fun _ _ => iff_of_true hrefl fun h => ?_, fun _ h => by cases h⟩
    obtain ⟨t, ht, -⟩ := h.1
    rw [hget] at ht
    cases ht
  | some t =>
    rw [hget] at hread
    rw [Act.bind_of_ok hread] at hrun₁
    split at hrun₁
    · next hmeta => exact hset hrun₁ ⟨t, hget, .inl (Option.isNone_iff_eq_none.mp hmeta)⟩
    · next hmeta =>
      have hmeta' : Table.metatable t ≠ none := fun h => hmeta (Option.isNone_iff_eq_none.mpr h)
      have hnotNew : (Table.get t key s₁.gc.heap.strings ≠ some .nil ∨
          (Table.metatable t).bind (s₁.gc.fasttm · .newIndex) ≠ none) → ¬ s₁.StoresNew r key := by
        rintro hne ⟨u, hu, hcases⟩
        obtain rfl : u = t := Option.some.inj (hu.symm.trans hget)
        rcases hcases with h | ⟨h₁, h₂⟩
        · exact hmeta' h
        · exact hne.elim (fun h => h h₁) fun h => h h₂
      rcases Act.bind_cases hrun₁ with ⟨e, hcheck', rfl⟩ | ⟨s₂, w₃, b, w₄, hcheck', hrun₂⟩
      · rw [hcheck] at hcheck'
        cases hcheck'
      obtain rfl := Seals.observes_checkTableAccess _ _ _ _ _ _ _ hcheck'
      rw [Act.get_bind] at hrun₂
      cases hgot : Table.get t key s₂.gc.heap.strings with
      | none =>
        rcases Act.bind_cases hrun₂ with ⟨e, hfail, rfl⟩ | ⟨s₃, w₅, existing, w₆, hfound, -⟩
        · rw [Act.ofOption, Act.lift, hgot] at hfail
          cases hfail
        · rw [Act.ofOption, Act.lift, hgot] at hfound
          cases hfound
      | some existing =>
        rw [Act.bind_of_ok (ofOption_some hgot s₂)] at hrun₂
        split at hrun₂
        · next hne =>
          -- the field is there
          have hnot := hnotNew (.inl fun h => hne (by rw [Option.some.inj (hgot.symm.trans h)]; rfl))
          rcases Act.bind_cases hrun₂ with ⟨e, hfail, rfl⟩ | ⟨s₃, w₅, c, w₆, -, hdone⟩
          · exact ⟨fun _ _ => iff_of_true (rawSetExistingSlot_failed hbuilt hk hfail) fun h => hnot h.1, fun _ h => by cases h⟩
          · cases hdone
            exact ⟨fun _ h => (by cases h), fun _ h => by cases h⟩
        · next hnil =>
          have hnil' : existing = .nil := Val.isNil_eq_true.mp (not_not.mp hnil)
          subst hnil'
          cases htm : (Table.metatable t).bind fun mt => s₂.gc.fasttm mt .newIndex with
          | none =>
            simp only [htm] at hrun₂
            have hnew : s₂.StoresNew r key := ⟨t, hget, .inr ⟨hgot, htm⟩⟩
            rcases Act.bind_cases hrun₂ with ⟨e, hfrozen, rfl⟩ | ⟨s₃, w₅, c, w₆, hfrozen, hrun₃⟩
            · obtain rfl := Seals.observes_ensureTableNotFrozen _ _ _ _ _ hfrozen
              refine ⟨fun _ _ => iff_of_true hrefl fun h => ?_, fun _ h => by cases h⟩
              obtain ⟨_, _, hok⟩ := h.2.1.2
              rw [hfrozen] at hok
              cases hok
            · obtain rfl := Seals.observes_ensureTableNotFrozen _ _ _ _ _ hfrozen
              exact hset hrun₃ hnew
          | some tmVal =>
            simp only [htm] at hrun₂
            cases hrun₂
            refine ⟨fun _ h => (by cases h), fun v hv => ⟨rfl, ?_, hnotNew (.inr ?_)⟩⟩
            · obtain ⟨mt, hmt, htm⟩ := Option.bind_eq_some_iff.mp htm
              obtain ⟨rfl, hfunction⟩ := resolveSettableTm_next (Except.ok.inj hv)
              exact .table ⟨_, _, hcheck⟩ hget hgot hmt htm hfunction
            · rw [htm]
              exact Option.some_ne_none _

/-- One step of an assignment: it fails at the table it has come to, or goes on from the same state. -/
theorem settableStep_spec {current : Val} {res : Except LuaError TableM.SettableStep} (hbuilt : s.TablesBuilt)
    (hk : key.isStale s.gc.heap.strings = false)
    (hrun : SecretM.settableStep secure current key value s = some (s', w, res)) :
    (∀ e, res = .error e →
      (Unchanged s s' ↔ ¬ ∃ r, current = .table r ∧ s.StoresNew r key ∧ s.Overruns secure r key value)) ∧
    ∀ v, res = .ok (.next v) →
      s' = s ∧ s.Forwards secure key current v ∧ ∀ r, current = .table r → ¬ s.StoresNew r key := by
  by_cases htable : ∃ r, current = .table r
  · obtain ⟨r, rfl⟩ := htable
    obtain ⟨hfail, hnext⟩ := handleTableSettable_spec hbuilt hk hrun
    refine ⟨fun e he => (hfail e he).trans (not_congr ⟨fun h => ⟨r, rfl, h⟩, ?_⟩), fun v hv => ?_⟩
    · rintro ⟨r', heq, h⟩
      cases heq
      exact h
    · obtain ⟨hsame, hforwards, hnot⟩ := hnext v hv
      refine ⟨hsame, hforwards, fun r' heq => ?_⟩
      cases heq
      exact hnot
  · unfold SecretM.settableStep at hrun
    split at hrun
    · exact absurd ⟨_, rfl⟩ htable
    · rw [Act.get_bind] at hrun
      cases htm : s.gc.gettmbyobj current .newIndex with
      | some tm =>
        simp only [htm] at hrun
        cases hrun
        refine ⟨nofun, fun v hv => ⟨rfl, ?_, fun r heq => absurd ⟨r, heq⟩ htable⟩⟩
        obtain ⟨rfl, hfunction⟩ := resolveSettableTm_next (Except.ok.inj hv)
        exact .other (fun r heq => htable ⟨r, heq⟩) htm hfunction
      | none =>
        simp only [htm] at hrun
        cases hrun
        refine ⟨fun _ _ => iff_of_true (.of_same rfl fun _ => rfl) ?_, nofun⟩
        rintro ⟨r, heq, -⟩
        exact htable ⟨r, heq⟩

/-- An assignment that fails along `__newindex`: by induction on the steps that are left. -/
theorem settableLoop_failed (hbuilt : s.TablesBuilt) (hk : key.isStale s.gc.heap.strings = false) {n : ℕ}
    {current : Val} (hrun : SecretM.settableLoop secure key value n current s = some (s', w, .error e)) :
    Unchanged s s' ↔
      ¬ ∃ r, s.LeadsTo secure key n current r ∧ s.StoresNew r key ∧ s.Overruns secure r key value := by
  induction n generalizing current w with
  | zero =>
    cases hrun
    refine iff_of_true (.of_same rfl fun _ => rfl) ?_
    rintro ⟨r, hleads, -⟩
    cases hleads
  | succ n ih =>
    rw [SecretM.settableLoop] at hrun
    rcases Act.bind_cases hrun with ⟨e', hfail, heq⟩ | ⟨s₁, w₁, step, w₂, hstep, hrun₁⟩
    · rw [(settableStep_spec hbuilt hk hfail).1 e' rfl]
      refine not_congr ⟨?_, ?_⟩
      · rintro ⟨r, rfl, h⟩
        exact ⟨r, .here, h⟩
      · rintro ⟨r, hleads, h⟩
        cases hleads with
        | here => exact ⟨r, rfl, h⟩
        | next hforwards _ => cases hforwards.step hfail
    · cases step with
      | done => cases hrun₁
      | call tm current => cases hrun₁
      | next v =>
        obtain ⟨rfl, hforwards, hnot⟩ := (settableStep_spec hbuilt hk hstep).2 v rfl
        rw [ih hrun₁]
        refine not_congr ⟨?_, ?_⟩
        · rintro ⟨r, hleads, h⟩
          exact ⟨r, .next hforwards hleads, h⟩
        · rintro ⟨r, hleads, h⟩
          cases hleads with
          | here => exact absurd h.1 (hnot r rfl)
          | next hforwards' hrest =>
            cases hforwards'.step hstep
            exact ⟨r, hrest, h⟩

/-- A new table is empty, and the others are still there. -/
theorem get_of_allocTable {g g' : Gc} {u : GcRef .table} (halloc : g.allocTable {} = some (g', u))
    (hget : g'.heap.get r = some t) : t = {} ∨ g.heap.get r = some t := by
  rw [Gc.allocTable, Gc.alloc, Option.bind_eq_bind, Option.bind_eq_some_iff] at halloc
  obtain ⟨⟨heap, u₀⟩, hheap, hgc⟩ := halloc
  cases hgc
  change heap.get r = some t at hget
  rw [Heap.get_eq] at hget
  by_cases heq : r = u
  · subst heq
    rw [Heap.cell_alloc_self hheap] at hget
    cases hget
    exact .inl rfl
  · rw [Heap.cell_alloc_ne hheap, ← Heap.get_eq] at hget
    · exact .inr hget
    · rintro ⟨⟩
      exact heq rfl

theorem TablesBuilt.allocTable {g : Gc} {u : GcRef .table} (h : s.TablesBuilt)
    (halloc : s.gc.allocTable {} = some (g, u)) : TablesBuilt { s with gc := g } := by
  have hstrings : g.heap.strings = s.gc.heap.strings := by
    rw [Gc.allocTable, Gc.alloc, Option.bind_eq_bind, Option.bind_eq_some_iff] at halloc
    obtain ⟨⟨heap, u₀⟩, hheap, hgc⟩ := halloc
    cases hgc
    exact Heap.arena_alloc_ne hheap (by decide)
  intro r t hget
  change Table.Inv g.heap.strings t ∧ t.Small
  rw [hstrings]
  rcases get_of_allocTable halloc hget with rfl | hget
  · exact ⟨Table.inv_new _, Table.small_new⟩
  · exact h r t hget

/-- Two tables, and as much memory in use as there may be. The first table has been marked. -/
def fullHeap : SecretTables where
  gc :=
    let g := ((({} : Gc).allocTable {}).bind fun res => res.1.allocTable {}).elim {} Prod.fst
    { g with
      heap := g.heap.setColor ⟨.table, ⟨0, 0⟩⟩ .black
      gcState := { g.gcState with phase := .propagate, allocLimit := g.gcState.totalBytes } }

theorem built_fullHeap : fullHeap.TablesBuilt := by
  have hempty : TablesBuilt { gc := {} } := fun r t h => by cases h
  have hone : TablesBuilt { gc := ((({} : Gc).allocTable {})).elim {} Prod.fst } := hempty.allocTable rfl
  have htwo := hone.allocTable (u := ⟨1, 0⟩) rfl
  intro r t hget
  refine htwo r t ?_
  rw [← hget]
  exact (Heap.get_setColor ..).symm

end SecretTables

end Rilua.Vm
