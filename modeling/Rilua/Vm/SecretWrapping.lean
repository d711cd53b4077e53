import Rilua.Vm.SecretContents
import Mathlib.Data.List.Forall2

/-! What enabling the secret contents of a table does to it. The entries are collected and stored again, one after the
    other, each wrapped. A table whose keys are found where they are keeps its keys and its absent entries, and every
    value becomes a wrapper of itself, or stays if it is one. -/

namespace Rilua.Vm

open Lib Gc

namespace Table

variable {strings : StringArena} {t t' : Table} {key value : Val}

/-- The walk of an assignment to the node that has the key. -/
def locate (t : Table) (key : Val) (strings : StringArena) : Option (Option ℕ) :=
  walk t.nodes (fun k => k.rawEq key) t.nodes.length (some (t.mainPosition key strings))

/-- Each node that has a key is found under it, in the hash part, unless it is absent. -/
structure Located (strings : StringArena) (t : Table) : Prop where
  array_le : t.array.length ≤ 2 ^ 52
  free : ∀ n ∈ t.nodes, n.key = .nil → n.value = .nil
  nodes : ∀ (i : ℕ) n, t.nodes[i]? = some n → n.key ≠ .nil → n.key.isNaN = false ∧ t.slot n.key = none ∧
    (t.locate n.key strings = some (some i) ∨ t.locate n.key strings = some none ∧ n.value = .nil)

/-- It is so in a table that satisfies the representation invariant, unless a node has an integer key of the array
    part. -/
theorem Inv.located (h : t.Inv strings) (hlen : t.array.length ≤ 2 ^ 52)
    (hslot : ∀ n ∈ t.nodes, n.key ≠ .nil → t.slot n.key = none) : t.Located strings := by
  refine ⟨hlen, fun n hn hkey => ?_, fun i n hi hkey => ?_⟩
  · obtain ⟨i, hi⟩ := NodesInv.exists_index hn
    exact (h.nodes_inv.free i n hi hkey).1
  have hmem := NodesInv.mem hi
  refine ⟨h.nodes_inv.not_nan n hmem, hslot n hmem hkey, ?_⟩
  have hne : t.nodes ≠ [] := List.ne_nil_of_mem hmem
  obtain ⟨l, hl, hb⟩ := h.nodes_inv.chain _ (h.home_lt hne n.key)
  rw [locate, h.mainPosition_eq hne, walk_eq _ hl hb (hl.length_le hb)]
  cases hf : l.find? fun j => (t.nodes[j]?).any fun m => m.key.rawEq n.key with
  | some j =>
    have hfound := List.find?_some hf
    obtain ⟨m, hm, hmk⟩ := (Option.any_eq_true ..).mp hfound
    rw [h.nodes_inv.distinct i j n m hi hm hkey (Val.rawEq_symm hmk)]
    exact .inl rfl
  | none =>
    refine .inr ⟨rfl, ?_⟩
    rcases h.nodes_inv.key_cases hmem with hnil | hlive | hstale
    · exact absurd hnil hkey
    · have hfind := List.find?_eq_none.mp hf i (h.nodes_inv.reach i n l hi hlive hl)
      rw [hi] at hfind
      exact absurd hlive.rawEq_self hfind
    · exact h.nodes_inv.stale n hmem hstale

/-! ### Walks and shapes -/

/-- The table, with its cache of absent metamethods dropped if the key is the name of one. -/
def uncached (t : Table) (key : Val) (strings : StringArena) : Table :=
  if isMetaName key strings then { t with flags := 0 } else t

theorem uncached_eq (t : Table) (key : Val) (strings : StringArena) : ∃ flags, t.uncached key strings = { t with flags } := by
  rw [uncached]
  split
  · exact ⟨0, rfl⟩
  · exact ⟨t.flags, rfl⟩

/-- The key and the link of a node. -/
def nodeShape (n : Node) : Val × Option ℕ := (n.key, n.next)

/-- A walk looks at keys and links. -/
theorem walk_congr {nodes nodes' : List Node} (h : nodes'.map nodeShape = nodes.map nodeShape) (test : Val → Bool) :
    ∀ (fuel : ℕ) (cur : Option ℕ), walk nodes' test fuel cur = walk nodes test fuel cur := by
  have hget : ∀ i : ℕ, (nodes'[i]?).map nodeShape = (nodes[i]?).map nodeShape := by
    intro i
    rw [← List.getElem?_map, ← List.getElem?_map, h]
  intro fuel
  induction fuel with
  | zero =>
    intro cur
    cases cur <;> rfl
  | succ fuel ih =>
    intro cur
    cases cur with
    | none => rfl
    | some i =>
      simp only [walk, bind]
      have hi := hget i
      cases hn : nodes[i]? with
      | none =>
        rw [hn, Option.map_none, Option.map_eq_none_iff] at hi
        rw [hi, Option.bind_none, Option.bind_none]
      | some n =>
        rw [hn] at hi
        obtain ⟨m, hm, hshape⟩ := Option.map_eq_some_iff.mp hi
        have hkey : m.key = n.key := congrArg Prod.fst hshape
        have hnext : m.next = n.next := congrArg Prod.snd hshape
        rw [hm, Option.bind_some, Option.bind_some, hkey, hnext, ih]

theorem map_nodeShape_modify (nodes : List Node) (i : ℕ) (value : Val) :
    (nodes.modify i fun n => { n with value }).map nodeShape = nodes.map nodeShape := by
  refine List.ext_getElem? fun j => ?_
  rw [List.getElem?_map, List.getElem?_map, List.getElem?_modify]
  cases nodes[j]? with
  | none => rfl
  | some n =>
    rw [Option.map_some]
    split
    · rfl
    · rfl

theorem Located.uncached (h : t.Located strings) (key : Val) : (t.uncached key strings).Located strings := by
  obtain ⟨flags, hu⟩ := t.uncached_eq key strings
  rw [hu]
  exact ⟨h.array_le, h.free, h.nodes⟩

theorem locate_setValue (t : Table) (i : ℕ) (value : Val) (key : Val) (strings : StringArena) :
    (t.setValue i value).locate key strings = t.locate key strings := by
  have hlen : (t.setValue i value).nodes.length = t.nodes.length := List.length_modify ..
  have hempty : (t.setValue i value).nodes.isEmpty = t.nodes.isEmpty := by
    rw [Bool.eq_iff_iff, List.isEmpty_iff_length_eq_zero, List.isEmpty_iff_length_eq_zero, hlen]
  have hhome : (t.setValue i value).mainPosition key strings = t.mainPosition key strings := by
    rw [mainPosition, mainPosition, hashSize, hashSize, hempty]
    rfl
  rw [locate, locate, hlen, hhome]
  exact walk_congr (map_nodeShape_modify t.nodes i value) ..

/-- Giving a value to a node that is found. -/
theorem Located.setValue (h : t.Located strings) {i : ℕ} {n : Node} (hi : t.nodes[i]? = some n) (hkey : n.key ≠ .nil)
    (hloc : t.locate n.key strings = some (some i)) (value : Val) : (t.setValue i value).Located strings := by
  have hnode : ∀ (j : ℕ) m, (t.setValue i value).nodes[j]? = some m →
      j = i ∧ m = { n with value } ∨ j ≠ i ∧ t.nodes[j]? = some m := by
    intro j m hj
    rw [Table.setValue, List.getElem?_modify] at hj
    split at hj
    · next heq =>
      subst heq
      rw [hi] at hj
      cases hj
      exact .inl ⟨rfl, rfl⟩
    · next hne => exact .inr ⟨fun h => hne h.symm, by simpa using hj⟩
  refine ⟨h.array_le, fun m hm hnil => ?_, fun j m hj hk => ?_⟩
  · obtain ⟨j, hj⟩ := NodesInv.exists_index hm
    rcases hnode j m hj with ⟨-, rfl⟩ | ⟨-, hj⟩
    · exact absurd hnil hkey
    · exact h.free m (NodesInv.mem hj) hnil
  · rw [locate_setValue]
    rcases hnode j m hj with ⟨rfl, rfl⟩ | ⟨-, hj⟩
    · exact ⟨(h.nodes j n hi hkey).1, (h.nodes j n hi hkey).2.1, .inl hloc⟩
    · exact h.nodes j m hj hk

/-! ### Storing an entry again -/

theorem rawSet_of_with {key value : Val} {d : ℕ} (hro : t.readOnly = false)
    (hset : ∀ onFull, rawSetWith onFull (t.uncached key strings) key value strings = some (t', .ok d)) :
    t.rawSet key value strings = some (t', .ok ()) := by
  have hdelta : t.rawSetWithMemoryDelta key value strings = some (t', .ok d) := by
    rw [rawSetWithMemoryDelta, if_neg (by rw [hro]; exact Bool.false_ne_true)]
    exact hset _
  rw [rawSet, hdelta]
  rfl

theorem rawSet_slotKey {i : ℕ} (hro : t.readOnly = false) (hlen : t.array.length ≤ 2 ^ 52) (hi : i < t.array.length)
    (value : Val) (strings : StringArena) : t.rawSet (slotKey i) value strings = some (t.setArray i value, .ok ()) := by
  have hlive := live_slotKey (hi.trans_le hlen) strings
  have hslot : t.slot (slotKey i) = some i := (slot_eq_some (hlen.trans (by decide))).mpr ⟨intKey_slotKey (hi.trans_le hlen), hi⟩
  refine rawSet_of_with (d := 0) hro fun onFull => ?_
  have huncached : t.uncached (slotKey i) strings = t := if_neg Bool.false_ne_true
  rw [huncached, rawSetWith_live hlive, hslot]

/-- Storing in a node part that does not have the key in the array part comes down to finding the node. -/
theorem rawSetWith_located {i : ℕ} {n : Node} (h : t.Located strings) (hi : t.nodes[i]? = some n) (hkey : n.key ≠ .nil)
    {found : Bool} (hup : (t.uncached n.key strings).updateExistingHashSlot n.key value strings = some (t', found))
    (hfound : found = true ∨ value = .nil) (onFull : Table → LuaError → Option (TableResult ℕ)) :
    rawSetWith onFull (t.uncached n.key strings) n.key value strings = some (t', .ok 0) := by
  obtain ⟨hnan, hslot, -⟩ := h.nodes i n hi hkey
  obtain ⟨flags, hu⟩ := t.uncached_eq n.key strings
  have hslot' : n.key.intKey.bind (t.uncached n.key strings).arrayIndex = none := by
    rw [hu]
    exact hslot
  rw [rawSetWith.eq_def]
  split
  · next hnil => exact absurd hnil hkey
  · rw [if_neg (by rw [hnan]; exact Bool.false_ne_true), hslot']
    simp only [hup, bind, Option.bind_some]
    rcases hfound with rfl | rfl
    · rfl
    · cases found <;> rfl

theorem updateExisting_located {i : ℕ} {n : Node} (hi : t.nodes[i]? = some n) {at? : Option ℕ}
    (hloc : t.locate n.key strings = some at?) (value : Val) :
    (t.uncached n.key strings).updateExistingHashSlot n.key value strings =
      some (match at? with
        | some j => ((t.uncached n.key strings).setValue j value, true)
        | none => (t.uncached n.key strings, false)) := by
  obtain ⟨flags, hu⟩ := t.uncached_eq n.key strings
  have hne : t.nodes.isEmpty = false := by
    rw [List.isEmpty_eq_false_iff]
    exact List.ne_nil_of_mem (NodesInv.mem hi)
  rw [hu, updateExistingHashSlot, if_neg (by rw [hne]; exact Bool.false_ne_true)]
  refine Option.bind_eq_some_iff.mpr ⟨at?, hloc, ?_⟩
  cases at? <;> rfl

theorem rawSet_node {i : ℕ} {n : Node} (hro : t.readOnly = false) (h : t.Located strings) (hi : t.nodes[i]? = some n)
    (hkey : n.key ≠ .nil) (hloc : t.locate n.key strings = some (some i)) (value : Val) :
    t.rawSet n.key value strings = some ((t.uncached n.key strings).setValue i value, .ok ()) :=
  rawSet_of_with hro (rawSetWith_located h hi hkey (updateExisting_located hi hloc value) (.inl rfl))

/-- A node that is not found is absent, and stays as it is. -/
theorem rawSet_absent {i : ℕ} {n : Node} (hro : t.readOnly = false) (h : t.Located strings) (hi : t.nodes[i]? = some n)
    (hkey : n.key ≠ .nil) (hloc : t.locate n.key strings = some none) :
    t.rawSet n.key .nil strings = some (t.uncached n.key strings, .ok ()) :=
  rawSet_of_with hro (rawSetWith_located h hi hkey (updateExisting_located hi hloc .nil) (.inr rfl))

end Table

namespace SecretTables

variable {s s' s'' : SecretTables} {r r' : GcRef .table} {t : Table} {v v' : Val}

/-! ### Wrapping a value -/

/-- What a table with secret contents may hold, and what a read through it may return. -/
def NilOrWrapper (s : SecretTables) (v : Val) : Prop := v = .nil ∨ s.isSecretValue v = true

/-- The wrappers of `s` are wrappers of the same payloads in `s'`. -/
def KeepsWrappers (s s' : SecretTables) : Prop := ∀ v p, s.payload v = some p → s'.payload v = some p

/-- From `s` to `s'` only the table at `r` has changed, and wrappers have been made. -/
structure Wrapping (r : GcRef .table) (s s' : SecretTables) : Prop where
  wrappers : s.KeepsWrappers s'
  tables : ∀ r', r' ≠ r → s'.gc.heap.get r' = s.gc.heap.get r'
  frozen : TableM.isFrozen s'.gc r = TableM.isFrozen s.gc r
  strings : s'.gc.heap.strings = s.gc.heap.strings
  securityFlags : s'.securityFlags = s.securityFlags
  policy : s'.hasSecretContentsPolicy = s.hasSecretContentsPolicy

/-- `v'` is what wrapping makes of `v`. -/
structure WrappedAs (s s' : SecretTables) (v v' : Val) : Prop where
  nilOrWrapper : s'.NilOrWrapper v'
  /-- Nil stays nil, and wrappers are not wrapped again. -/
  kept : s.NilOrWrapper v → v' = v
  payload : v' = v ∨ s'.payload v' = some v

theorem KeepsWrappers.refl (s : SecretTables) : s.KeepsWrappers s := fun _ _ h => h

theorem KeepsWrappers.trans (h : s.KeepsWrappers s') (h' : s'.KeepsWrappers s'') : s.KeepsWrappers s'' :=
  fun v p hv => h' v p (h v p hv)

theorem KeepsWrappers.nilOrWrapper (h : s.KeepsWrappers s') (hv : s.NilOrWrapper v) : s'.NilOrWrapper v := by
  rcases hv with rfl | hv
  · exact .inl rfl
  · obtain ⟨p, hp⟩ := Option.isSome_iff_exists.mp hv
    exact .inr (Option.isSome_iff_exists.mpr ⟨p, h v p hp⟩)

theorem Wrapping.refl (r : GcRef .table) (s : SecretTables) : Wrapping r s s :=
  ⟨.refl s, fun _ _ => rfl, rfl, rfl, rfl, rfl⟩

theorem Wrapping.trans (h : Wrapping r s s') (h' : Wrapping r s' s'') : Wrapping r s s'' :=
  ⟨h.wrappers.trans h'.wrappers, fun r' hr => (h'.tables r' hr).trans (h.tables r' hr), h'.frozen.trans h.frozen,
    h'.strings.trans h.strings, h'.securityFlags.trans h.securityFlags, h'.policy.trans h.policy⟩

theorem WrappedAs.mono {s₀ : SecretTables} (h : WrappedAs s s' v v') (h₀ : s₀.KeepsWrappers s) (h' : s'.KeepsWrappers s'') :
    WrappedAs s₀ s'' v v' where
  nilOrWrapper := h'.nilOrWrapper h.nilOrWrapper
  kept hv := h.kept (h₀.nilOrWrapper hv)
  payload := h.payload.imp_right (h' v' v)

theorem tableWrapsContents_iff : s.tableWrapsContents r = true ↔
    s.hasSecretContentsPolicy = true ∧ (∃ t, s.gc.heap.get r = some t) ∧ s.securityFlags r &&& secretWrapContents ≠ 0 := by
  rw [tableWrapsContents, Bool.and_eq_true, Option.any_eq_true]
  constructor
  · rintro ⟨hpolicy, t, ht, hflag⟩
    exact ⟨hpolicy, ⟨t, ht⟩, by simpa using hflag⟩
  · rintro ⟨hpolicy, ⟨t, ht⟩, hflag⟩
    exact ⟨hpolicy, t, ht, by simpa using hflag⟩

theorem allocUserdata_eq {g g' : Gc} {ud : Userdata} {u : GcRef .userdata} (h : g.allocUserdata ud = some (g', u)) :
    g.heap.alloc .userdata { ud with allocSeq := g.gcState.udAllocSeq } g.currentWhite = some (g'.heap, u) := by
  obtain ⟨⟨heap, u'⟩, halloc, h⟩ := Option.bind_eq_some_iff.mp h
  cases h
  exact halloc

/-- A new userdata is none of those there are. -/
theorem keepsWrappers_alloc {g : Gc} {k : ObjKind} {x : Obj k} {o : GcRef k} {c : Color}
    (halloc : s.gc.heap.alloc k x c = some (g.heap, o)) : s.KeepsWrappers { s with gc := g } := by
  intro v p hv
  cases v with
  | userdata w =>
    change (s.gc.heap.get w).bind _ = _ at hv
    change (g.heap.get w).bind _ = _
    rw [Heap.get_eq] at hv ⊢
    rw [Heap.cell_alloc_ne halloc, hv]
    intro heq
    cases heq
    rw [Heap.cell_alloc_fresh halloc] at hv
    cases hv
  | _ => exact hv

theorem wrapContentsResult_spec {contentsSecret : Bool} (h : s.wrapContentsResult v contentsSecret = some (s', v')) :
    s'.gc.heap.arena .table = s.gc.heap.arena .table ∧ Wrapping r s s' ∧ (contentsSecret = true → WrappedAs s s' v v') := by
  rw [wrapContentsResult] at h
  split at h
  · next hwrap =>
    simp only [Bool.and_eq_true, Bool.not_eq_true'] at hwrap
    obtain ⟨⟨-, hnil⟩, hsecret⟩ := hwrap
    obtain ⟨⟨g, u⟩, halloc, h⟩ := Option.map_eq_some_iff.mp h
    cases h
    have halloc := allocUserdata_eq halloc
    have htables : g.heap.arena .table = s.gc.heap.arena .table := Heap.arena_alloc_ne halloc (by decide)
    have hpayload : ({ s with gc := g } : SecretTables).payload (.userdata u) = some v := by
      change (g.heap.get u).bind _ = _
      rw [Heap.get_eq, Heap.cell_alloc_self halloc]
      rfl
    refine ⟨htables, ⟨keepsWrappers_alloc halloc, fun r' _ => ?_, ?_, Heap.arena_alloc_ne halloc (by decide), rfl, rfl⟩,
      fun _ => ⟨.inr ?_, fun hv => ?_, .inr hpayload⟩⟩
    · rw [Heap.get, Heap.get, htables]
    · rw [TableM.isFrozen, TableM.isFrozen, Heap.hasFlag, Heap.hasFlag, htables]
    · rw [isSecretValue, hpayload]
      rfl
    · rcases hv with hv | hv
      · exact absurd hv (Val.isNil_eq_false.mp hnil)
      · rw [hsecret] at hv
        cases hv
  · next hwrap =>
    cases h
    refine ⟨rfl, .refl r s, fun hsec => ⟨?_, fun _ => rfl, .inl rfl⟩⟩
    by_contra hv
    rw [NilOrWrapper, not_or] at hv
    refine hwrap ?_
    rw [hsec, Val.isNil_eq_false.mpr hv.1, Bool.eq_false_iff.mpr hv.2]
    rfl

/-! ### Storing the entries -/

/-- The state with another table at `r`. -/
def withTable (s : SecretTables) (r : GcRef .table) (t : Table) : SecretTables :=
  { s with gc := s.gc.modify r fun _ => t }

theorem get_withTable (hget : s.gc.heap.get r = some t) (t' : Table) : (s.withTable r t').gc.heap.get r = some t' := by
  rw [withTable, Gc.modify, Heap.get_modify, if_pos rfl, hget]
  rfl

theorem get_withTable_ne (s : SecretTables) (t' : Table) (hne : r' ≠ r) :
    (s.withTable r t').gc.heap.get r' = s.gc.heap.get r' := by
  rw [withTable, Gc.modify, Heap.get_modify, if_neg hne]

theorem keepsWrappers_withTable (s : SecretTables) (r : GcRef .table) (t' : Table) : s.KeepsWrappers (s.withTable r t') := by
  intro v p hv
  cases v with
  | userdata w =>
    change (Heap.get _ w).bind _ = _
    rw [Heap.get_eq, withTable, Gc.modify, Heap.cell_modify_ne _ _ _ (by simp), ← Heap.get_eq]
    exact hv
  | _ => exact hv

theorem wrapping_withTable (s : SecretTables) (r : GcRef .table) (t' : Table) : Wrapping r s (s.withTable r t') := by
  refine ⟨keepsWrappers_withTable s r t', fun r' hne => get_withTable_ne s t' hne, ?_, ?_, rfl, rfl⟩
  · rw [TableM.isFrozen, TableM.isFrozen, Heap.hasFlag_eq, Heap.hasFlag_eq, withTable, Gc.modify, Heap.cell_modify_self]
    cases s.gc.heap.cell ⟨.table, r⟩ <;> rfl
  · exact Heap.arena_put_ne _ (by decide) _ ((s.gc.heap.wf .table).modify r _)

theorem wrapTableValue_ok {w : List Unit} {res : Except LuaError Val} (h : SecretM.wrapTableValue r v s = some (s', w, res)) :
    ∃ v', res = .ok v' ∧ s.wrapContentsResult v (s.tableWrapsContents r) = some (s', v') := by
  rcases Act.bind_cases h with ⟨e, hget, -⟩ | ⟨s₁, w₁, a, w₂, hget, h⟩
  · cases hget
  · cases hget
    obtain ⟨⟨s₂, v'⟩, hwrap, h⟩ := Option.map_eq_some_iff.mp h
    cases h
    exact ⟨v', rfl, hwrap⟩

variable {entries : List (Val × Val)} {key : Val} {w : List Unit} {res : Except LuaError Unit}

theorem wraps_of_wrapping (h : Wrapping r s s') (hwraps : s.tableWrapsContents r = true) (hget : s'.gc.heap.get r = some t) :
    s'.tableWrapsContents r = true := by
  obtain ⟨hpolicy, -, hflag⟩ := tableWrapsContents_iff.mp hwraps
  exact tableWrapsContents_iff.mpr ⟨by rw [h.policy, hpolicy], ⟨t, hget⟩, by rw [h.securityFlags]; exact hflag⟩

/-- One entry is wrapped and stored again. -/
theorem wrap_entry {f : Val → Table} (hget : s.gc.heap.get r = some t) (hwraps : s.tableWrapsContents r = true)
    (hset : ∀ v', (v = .nil → v' = .nil) → t.rawSet key v' s.gc.heap.strings = some (f v', .ok ()))
    (h : SecretM.wrapExistingTableEntries r ((key, v) :: entries) s = some (s', w, res)) :
    ∃ s₁ v' w₁, Wrapping r s s₁ ∧ WrappedAs s s₁ v v' ∧ s₁.gc.heap.get r = some (f v') ∧
      SecretM.wrapExistingTableEntries r entries s₁ = some (s', w₁, res) := by
  rw [SecretM.wrapExistingTableEntries] at h
  rcases Act.bind_cases h with ⟨e, hwrap, -⟩ | ⟨s₁, w₁, v', w₂, hwrap, h⟩
  · obtain ⟨v', hres, -⟩ := wrapTableValue_ok hwrap
    cases hres
  obtain ⟨_, hres, hwrap⟩ := wrapTableValue_ok hwrap
  cases hres
  obtain ⟨htables, hs₁, hwrapped⟩ := wrapContentsResult_spec (r := r) hwrap
  have hget₁ : s₁.gc.heap.get r = some t := by rw [Heap.get, htables]; exact hget
  have hwrapped := hwrapped hwraps
  have hset₁ : SecretM.rawSet r key v' ⟨"table has been collected"⟩ s₁ = some (s₁.withTable r (f v'), [], .ok ()) := by
    have := hset v' fun hv => (hwrapped.kept (.inl hv)).trans hv
    rw [← hs₁.strings] at this
    simp only [SecretM.rawSet, SecretM.update, Act.attempt, hget₁, this, Option.map_some]
    rfl
  rcases Act.bind_cases h with ⟨e, hset₂, -⟩ | ⟨s₂, w₃, a, w₄, hset₂, h⟩
  · rw [hset₁] at hset₂
    cases hset₂
  · rw [hset₁] at hset₂
    cases hset₂
    exact ⟨_, v', w₄, hs₁.trans (wrapping_withTable s₁ r _), hwrapped.mono (.refl s) (keepsWrappers_withTable s₁ r _),
      get_withTable hget₁ _, h⟩

theorem array_withSlot (t : Table) {d vs : List Val} (harray : t.array = d ++ v :: vs) (v' : Val) :
    t.setArray d.length v' = { t with array := d ++ [v'] ++ vs } := by
  rw [Table.setArray, harray]
  congr 1
  simp

/-- The array part is stored again, from the slot after `d` on. -/
theorem wrap_array : ∀ {vs d : List Val} {s : SecretTables} {w : List Unit}, s.tableWrapsContents r = true →
    s.gc.heap.get r = some { t with array := d ++ vs } → t.readOnly = false → d.length + vs.length ≤ 2 ^ 52 →
    SecretM.wrapExistingTableEntries r (arrayEntries d.length vs ++ entries) s = some (s', w, res) →
    ∃ s₁ vs' w₁, Wrapping r s s₁ ∧ List.Forall₂ (WrappedAs s s₁) vs vs' ∧
      s₁.gc.heap.get r = some { t with array := d ++ vs' } ∧
      SecretM.wrapExistingTableEntries r entries s₁ = some (s', w₁, res)
  | [], d, s, w, _, hget, _, _, h => ⟨s, [], w, .refl r s, .nil, hget, h⟩
  | v :: vs, d, s, w, hwraps, hget, hro, hlen, h => by
    rw [List.length_cons] at hlen
    have hdone : ∀ v', d ++ v' :: vs = d ++ [v'] ++ vs := by simp
    have hlen' : ∀ v', (d ++ [v']).length = d.length + 1 := by simp
    rw [arrayEntries] at h
    split at h
    · next hnil =>
      obtain rfl := Val.isNil_eq_true.mp hnil
      rw [hdone] at hget
      rw [← hlen' .nil] at h
      obtain ⟨s₁, vs', w₁, hs₁, hvs, hget₁, h₁⟩ := wrap_array hwraps hget hro (by rw [hlen']; omega) h
      exact ⟨s₁, .nil :: vs', w₁, hs₁, .cons ⟨.inl rfl, fun _ => rfl, .inl rfl⟩ hvs, by rw [hget₁, List.append_assoc]; rfl, h₁⟩
    · have hset : ∀ v', (v = .nil → v' = .nil) → Table.rawSet { t with array := d ++ v :: vs } (Table.slotKey d.length)
          v' s.gc.heap.strings = some ({ t with array := d ++ [v'] ++ vs }, .ok ()) := by
        intro v' _
        rw [Table.rawSet_slotKey (t := { t with array := d ++ v :: vs }) hro (by simpa using hlen) (by simp),
          array_withSlot _ rfl]
      obtain ⟨s₁, v', w₁, hs₁, hv, hget₁, h₁⟩ := wrap_entry hget hwraps hset h
      rw [← hlen' v'] at h₁
      obtain ⟨s₂, vs', w₂, hs₂, hvs, hget₂, h₂⟩ :=
        wrap_array (wraps_of_wrapping hs₁ hwraps hget₁) hget₁ hro (by rw [hlen']; omega) h₁
      refine ⟨s₂, v' :: vs', w₂, hs₁.trans hs₂, .cons (hv.mono (.refl s) hs₂.wrappers) ?_, ?_, h₂⟩
      · exact hvs.imp fun _ _ hv => hv.mono hs₁.wrappers (.refl s₂)
      · rw [hget₂, List.append_assoc]
        rfl

/-- A node keeps its key and its link. -/
structure WrappedNode (s s' : SecretTables) (n n' : Node) : Prop where
  key : n'.key = n.key
  next : n'.next = n.next
  value : WrappedAs s s' n.value n'.value

theorem WrappedNode.mono {s₀ : SecretTables} {n n' : Node} (h : WrappedNode s s' n n') (h₀ : s₀.KeepsWrappers s)
    (h' : s'.KeepsWrappers s'') : WrappedNode s₀ s'' n n' :=
  ⟨h.key, h.next, h.value.mono h₀ h'⟩

/-- A node that is absent stays as it is. -/
theorem WrappedNode.absent (s : SecretTables) {n : Node} (hn : n.value = .nil) : WrappedNode s s n n :=
  ⟨rfl, rfl, .inl hn, fun _ => rfl, .inl rfl⟩

/-- The hash part is stored again, from the node after `d` on. -/
theorem wrap_nodes : ∀ {ns d : List Node} {s : SecretTables} {t : Table} {w : List Unit}, s.tableWrapsContents r = true →
    s.gc.heap.get r = some t → t.readOnly = false → t.nodes = d ++ ns → t.Located s.gc.heap.strings →
    SecretM.wrapExistingTableEntries r (Table.hashEntries { nodes := ns }) s = some (s', w, res) →
    ∃ s₁ t₁ ns' w₁, Wrapping r s s₁ ∧ List.Forall₂ (WrappedNode s s₁) ns ns' ∧ s₁.gc.heap.get r = some t₁ ∧
      t₁.array = t.array ∧ t₁.nodes = d ++ ns' ∧ t₁.readOnly = false ∧
      SecretM.wrapExistingTableEntries r [] s₁ = some (s', w₁, res)
  | [], d, s, t, w, _, hget, hro, hnodes, _, h => ⟨s, t, [], w, .refl r s, .nil, hget, rfl, hnodes, hro, h⟩
  | n :: ns, d, s, t, w, hwraps, hget, hro, hnodes, hloc, h => by
    have hdone : ∀ m : Node, d ++ m :: ns = d ++ [m] ++ ns := by simp
    have hn : t.nodes[d.length]? = some n := by simp [hnodes]
    -- what is left to do once the node is dealt with
    have hrest : ∀ {s₁ : SecretTables} {u : Table} {n' : Node} {w₁ : List Unit}, Wrapping r s s₁ → WrappedNode s s₁ n n' →
        s₁.gc.heap.get r = some u → u.array = t.array → u.nodes = d ++ n' :: ns → u.readOnly = false →
        u.Located s.gc.heap.strings →
        SecretM.wrapExistingTableEntries r (Table.hashEntries { nodes := ns }) s₁ = some (s', w₁, res) →
        ∃ s₂ t₂ ns' w₂, Wrapping r s s₂ ∧ List.Forall₂ (WrappedNode s s₂) (n :: ns) ns' ∧ s₂.gc.heap.get r = some t₂ ∧
          t₂.array = t.array ∧ t₂.nodes = d ++ ns' ∧ t₂.readOnly = false ∧
          SecretM.wrapExistingTableEntries r [] s₂ = some (s', w₂, res) := by
      intro s₁ u n' w₁ hs₁ hn' hget₁ harray hnodes₁ hro₁ hloc₁ h₁
      rw [hdone] at hnodes₁
      obtain ⟨s₂, t₂, ns', w₂, hs₂, hns, hget₂, harray₂, hnodes₂, hro₂, h₂⟩ :=
        wrap_nodes (wraps_of_wrapping hs₁ hwraps hget₁) hget₁ hro₁ hnodes₁ (by rw [hs₁.strings]; exact hloc₁) h₁
      refine ⟨s₂, t₂, n' :: ns', w₂, hs₁.trans hs₂, .cons (hn'.mono (.refl s) hs₂.wrappers) ?_, hget₂,
        harray₂.trans harray, by rw [hnodes₂, List.append_assoc]; rfl, hro₂, h₂⟩
      exact hns.imp fun _ _ hm => hm.mono hs₁.wrappers (.refl s₂)
    have hentries : Table.hashEntries { nodes := n :: ns } =
        if n.key.isNil then Table.hashEntries { nodes := ns } else (n.key, n.value) :: Table.hashEntries { nodes := ns } := by
      rw [Table.hashEntries, Table.hashEntries, List.filter_cons]
      cases n.key.isNil <;> rfl
    rw [hentries] at h
    split at h
    · next hnil =>
      have hvalue := hloc.free n (NodesInv.mem hn) (Val.isNil_eq_true.mp hnil)
      exact hrest (.refl r s) (.absent s hvalue) hget rfl hnodes hro hloc h
    next hkey =>
    rw [Bool.not_eq_true, Val.isNil_eq_false] at hkey
    obtain ⟨flags, hu⟩ := t.uncached_eq n.key s.gc.heap.strings
    have huloc := hloc.uncached n.key
    rcases (hloc.nodes _ n hn hkey).2.2 with hfound | ⟨habsent, hvalue⟩
    · obtain ⟨s₁, v', w₁, hs₁, hv, hget₁, h₁⟩ := wrap_entry hget hwraps
        (fun v' _ => Table.rawSet_node hro hloc hn hkey hfound v') h
      refine @hrest _ _ { n with value := v' } _ hs₁ ⟨rfl, rfl, hv⟩ hget₁ ?_ ?_ ?_ ?_ h₁
      · rw [hu]
        rfl
      · rw [hu, Table.setValue]
        simp [hnodes, List.modify_eq_set_getElem?]
      · rw [hu]
        exact hro
      · refine huloc.setValue (n := n) ?_ hkey ?_ v'
        · rw [hu]
          exact hn
        · rw [hu]
          exact hfound
    · rw [hvalue] at h
      obtain ⟨s₁, v', w₁, hs₁, hv, hget₁, h₁⟩ := wrap_entry (f := fun _ => t.uncached n.key s.gc.heap.strings) hget hwraps
        (fun v' hv' => by rw [hv' rfl, Table.rawSet_absent hro hloc hn hkey habsent]) h
      have hn' : WrappedNode s s₁ n n := ⟨rfl, rfl, .inl hvalue, fun _ => rfl, .inl rfl⟩
      refine hrest hs₁ hn' hget₁ ?_ ?_ ?_ huloc h₁
      · rw [hu]
      · rw [hu]
        exact hnodes
      · rw [hu]
        exact hro

/-! ### Enabling -/

theorem get_barrierBack (g : Gc) (r : GcRef .table) {k : ObjKind} (o : GcRef k) : (g.barrierBack r).heap.get o = g.heap.get o := by
  rw [Gc.barrierBack]
  split
  · exact Heap.get_setColor ..
  · rfl

theorem payload_congr {g : Gc} (h : ∀ u : GcRef .userdata, g.heap.get u = s.gc.heap.get u) (v : Val) :
    ({ s with gc := g } : SecretTables).payload v = s.payload v := by
  cases v with
  | userdata u =>
    change (g.heap.get u).bind _ = _
    rw [h]
    rfl
  | _ => rfl

theorem wrapping_barrierBack (s : SecretTables) (r : GcRef .table) :
    Wrapping r s { s with gc := s.gc.barrierBack r } := by
  refine ⟨fun v p hv => ?_, fun r' _ => get_barrierBack .., ?_, ?_, rfl, rfl⟩
  · rw [payload_congr fun u => get_barrierBack s.gc r u]
    exact hv
  · rw [TableM.isFrozen, TableM.isFrozen, Gc.barrierBack]
    split
    · rw [Heap.hasFlag_eq, Heap.hasFlag_eq, Heap.cell_setColor]
      split
      · cases s.gc.heap.cell ⟨.table, r⟩ <;> rfl
      · rfl
    · rfl
  · change (s.gc.barrierBack r).heap.strings = _
    rw [Gc.barrierBack]
    split
    · exact Heap.arena_put_ne _ (by decide) _ ((s.gc.heap.wf .table).setColor r _)
    · rfl

/-- Enabling the secret contents of the table `t` at `r`: the keys, the links and the absent entries stay, and each
    value becomes what wrapping makes of it. -/
structure Enabled (r : GcRef .table) (t : Table) (s s' : SecretTables) : Prop where
  contents : ∃ t', s'.gc.heap.get r = some t' ∧ List.Forall₂ (WrappedAs s s') t.array t'.array ∧
    List.Forall₂ (WrappedNode s s') t.nodes t'.nodes ∧ t'.readOnly = false
  wrappers : s.KeepsWrappers s'
  tables : ∀ r', r' ≠ r → s'.gc.heap.get r' = s.gc.heap.get r'
  frozen : TableM.isFrozen s'.gc r = TableM.isFrozen s.gc r
  securityFlags : s'.securityFlags = Function.update s.securityFlags r (s.securityFlags r ||| secretWrapContents)
  policy : s'.hasSecretContentsPolicy = true

theorem read_ok {missing : LuaError} (hget : s.gc.heap.get r = some t) : SecretM.read r missing s = some (s, [], .ok t) := by
  rw [SecretM.read, Act.get_bind]
  simp only [hget]
  rfl

/-- The state in which the entries are stored again. -/
def flagged (s : SecretTables) (r : GcRef .table) : SecretTables :=
  { s with
    hasSecretContentsPolicy := true
    securityFlags := Function.update s.securityFlags r (s.securityFlags r ||| secretWrapContents) }

theorem or_and_flag (flags flag mask : UInt8) : (flags ||| flag) &&& mask = (flags &&& mask) ||| (flag &&& mask) := by
  apply UInt8.toBitVec_inj.mp
  rw [UInt8.toBitVec_and, UInt8.toBitVec_or, UInt8.toBitVec_or, UInt8.toBitVec_and, UInt8.toBitVec_and]
  ext i hi
  simp [Bool.and_or_distrib_right]

theorem or_flag_eq_zero (flags flag : UInt8) : flags ||| flag = 0 ↔ flags = 0 ∧ flag = 0 := by
  rw [← UInt8.toBitVec_inj, ← UInt8.toBitVec_inj, ← UInt8.toBitVec_inj, UInt8.toBitVec_or]
  exact BitVec.or_eq_zero_iff

theorem wraps_flagged (hget : s.gc.heap.get r = some t) : (s.flagged r).tableWrapsContents r = true := by
  refine tableWrapsContents_iff.mpr ⟨rfl, ⟨t, hget⟩, ?_⟩
  have hflags : (s.flagged r).securityFlags r = s.securityFlags r ||| secretWrapContents := Function.update_self ..
  rw [hflags, or_and_flag, Ne, or_flag_eq_zero]
  exact fun h => absurd h.2 (by decide)

theorem addSecurityFlag_eq (hget : s.gc.heap.get r = some t) (flag : UInt8) : SecretM.addSecurityFlag r flag s =
    some ({ s with securityFlags := Function.update s.securityFlags r (s.securityFlags r ||| flag) }, [], .ok ()) := by
  rw [SecretM.addSecurityFlag, Act.bind_of_ok (read_ok hget)]
  rfl

theorem enableSecretContents_eq (hget : s.gc.heap.get r = some t) (hfrozen : TableM.isFrozen s.gc r = false)
    (hro : t.readOnly = false) : SecretM.enableSecretContents r s =
      if s.tableWrapsContents r then some (s, [], .ok ())
      else SecretM.wrapExistingTableEntries r (collectTableEntries t) (s.flagged r) := by
  rw [SecretM.enableSecretContents, Act.bind_of_ok (read_ok hget), Act.get_bind,
    if_neg (by rw [hfrozen, hro]; simp)]
  split
  · rfl
  · rw [Act.modify_bind, Act.bind_of_ok (addSecurityFlag_eq (by exact hget) _)]
    rfl

/-- Enabling succeeds where it can be enabled and each key is found where it is. -/
theorem enabled_of_located (hget : s.gc.heap.get r = some t) (hloc : t.Located s.gc.heap.strings) (hro : t.readOnly = false)
    (h : SecretM.wrapExistingTableEntries r (collectTableEntries t) (s.flagged r) = some (s', w, res)) :
    res = .ok () ∧ Enabled r t s s' := by
  have hget₀ : (s.flagged r).gc.heap.get r = some { t with array := [] ++ t.array } := hget
  obtain ⟨s₁, array, w₁, hs₁, harray, hget₁, h₁⟩ :=
    wrap_array (t := t) (d := []) (wraps_flagged hget) hget₀ hro (by simpa using hloc.array_le) h
  have hlen : array.length = t.array.length := harray.length_eq.symm
  have hslot : ∀ k, Table.slot { t with array := array } k = t.slot k := Table.slot_eq_of_length hlen
  have hloc₁ : Table.Located s₁.gc.heap.strings { t with array := array } := by
    rw [hs₁.strings]
    exact ⟨hlen ▸ hloc.array_le, hloc.free, fun i n hi hkey => by rw [hslot]; exact hloc.nodes i n hi hkey⟩
  obtain ⟨s₂, t₂, nodes, w₂, hs₂, hnodes, hget₂, harray₂, hnodes₂, hro₂, h₂⟩ :=
    wrap_nodes (d := []) (wraps_of_wrapping hs₁ (wraps_flagged hget) hget₁) hget₁ hro rfl hloc₁ h₁
  cases h₂
  have hs₃ := wrapping_barrierBack s₂ r
  have hall := (hs₁.trans hs₂).trans hs₃
  refine ⟨rfl, ⟨t₂, ?_, ?_, ?_, hro₂⟩, hall.wrappers, hall.tables, hall.frozen, hall.securityFlags, hall.policy⟩
  · exact (get_barrierBack ..).trans hget₂
  · rw [harray₂]
    exact harray.imp fun _ _ hv => hv.mono (.refl _) (hs₂.wrappers.trans hs₃.wrappers)
  · rw [hnodes₂]
    exact hnodes.imp fun _ _ hn => hn.mono hs₁.wrappers hs₃.wrappers

/-- What is enabled once is enabled. -/
theorem Enabled.again (h : Enabled r t s s') (hfrozen : TableM.isFrozen s.gc r = false) :
    SecretM.setTableSecurity true r 2 s' = some (s', [], .ok ()) := by
  obtain ⟨t', hget, -, -, hro⟩ := h.contents
  have hwraps : s'.tableWrapsContents r = true := by
    refine tableWrapsContents_iff.mpr ⟨h.policy, ⟨t', hget⟩, ?_⟩
    rw [h.securityFlags, Function.update_self, or_and_flag, Ne, or_flag_eq_zero]
    exact fun h0 => absurd h0.2 (by decide)
  rw [SecretM.setTableSecurity, Act.bind_of_ok (show SecretM.ensureSecureCaller true s' = some (s', [], .ok ()) from rfl),
    enableSecretContents_eq hget (h.frozen.trans hfrozen) hro, if_pos hwraps]

end SecretTables

end Rilua.Vm
