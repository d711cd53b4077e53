import Rilua.Vm.TableReport

/-! Traversal of a table with `next`. The slots of the array part and the nodes of the hash part are numbered in
    one row. `next` looks up the position of the key it is given, which assignments to existing fields do not
    move, and goes on from there to the first position with a value. -/

namespace Rilua.Vm

open Lib Gc

namespace Table

/-- Converts a key to a unified iteration index. Nil stands before the first one: one more wraps around to 0. -/
def findIndex (t : Table) (key : Val) (strings : StringArena) : Option (Except LuaError ℕ) :=
  if key.isNil then some (.ok usizeMax)
  else
    match key.intKey.bind t.arrayIndex with
    | some idx => some (.ok idx)
    | none =>
      if t.nodes.isEmpty then some (.error ⟨"invalid key to 'next'"⟩)
      else do
        match ← walk t.nodes (fun k => k.rawEq key) t.nodes.length (some (t.mainPosition key strings)) with
        | some i => some (.ok (i + t.array.length))
        | none => some (.error ⟨"invalid key to 'next'"⟩)

/-- The first entry of the array part from a slot on. -/
def firstSlot (t : Table) (start : ℕ) : Option (Val × Val) :=
  ((List.range' start (t.array.length - start)).find? fun i => !(t.array.getD i .nil).isNil).map fun i =>
    (.num (F64.ofInt (i + 1 : ℕ)), t.array.getD i .nil)

/-- The first entry of the hash part from a node on. -/
def firstNode (t : Table) (start : ℕ) : Option (Val × Val) :=
  ((List.range' start (t.nodes.length - start)).find? fun i => !(t.nodes.getD i .empty).value.isNil).map fun i =>
    ((t.nodes.getD i .empty).key, (t.nodes.getD i .empty).value)

/-- Finds the next key-value pair after `key`. -/
def next (t : Table) (key : Val) (strings : StringArena) : Option (Except LuaError (Option (Val × Val))) := do
  match ← t.findIndex key strings with
  | .error e => some (.error e)
  | .ok idx =>
    let start := (idx + 1) % 2 ^ 64
    match t.firstSlot start with
    | some entry => some (.ok (some entry))
    | none => some (.ok (t.firstNode (if t.array.length ≤ start then start - t.array.length else 0)))

variable {strings : StringArena} {t t' : Table} {key value k k' v : Val} {i j p : ℕ}

/-! ### Positions -/

/-- How many positions a table has. -/
def positions (t : Table) : ℕ := t.array.length + t.nodes.length

def keyAt (t : Table) (i : ℕ) : Val :=
  if i < t.array.length then .num (F64.ofInt (i + 1 : ℕ)) else (t.nodes.getD (i - t.array.length) .empty).key

def valueAt (t : Table) (i : ℕ) : Val :=
  if i < t.array.length then t.array.getD i .nil else (t.nodes.getD (i - t.array.length) .empty).value

/-- The position of a key: its array slot, or the node that has it. -/
def At (t : Table) (i : ℕ) (key : Val) : Prop :=
  t.slot key = some i ∨ t.slot key = none ∧
    ∃ j k, (t.nodes.map Node.key)[j]? = some k ∧ k.rawEq key = true ∧ i = t.array.length + j

/-- The first entry from position `p` on. -/
inductive FirstFrom (t : Table) (p : ℕ) : Option (Val × Val) → Prop
  | none (hrest : ∀ j, p ≤ j → j < t.positions → t.valueAt j = .nil) : FirstFrom t p none
  | some (i : ℕ) (hp : p ≤ i) (hi : i < t.positions) (hv : t.valueAt i ≠ .nil)
      (hskip : ∀ j, p ≤ j → j < i → t.valueAt j = .nil) : FirstFrom t p (some (t.keyAt i, t.valueAt i))

theorem valueAt_slot (hi : i < t.array.length) : t.valueAt i = t.array.getD i .nil := if_pos hi

theorem valueAt_node (t : Table) (j : ℕ) : t.valueAt (t.array.length + j) = (t.nodes.getD j .empty).value := by
  rw [valueAt, if_neg (by omega), Nat.add_sub_cancel_left]

theorem keyAt_node (t : Table) (j : ℕ) : t.keyAt (t.array.length + j) = (t.nodes.getD j .empty).key := by
  rw [keyAt, if_neg (by omega), Nat.add_sub_cancel_left]

/-- The search for a slot, and behind the last slot for a node. -/
theorem firstFrom (t : Table) (p : ℕ) :
    FirstFrom t p (t.firstSlot p <|> t.firstNode (if t.array.length ≤ p then p - t.array.length else 0)) := by
  cases hslot : (List.range' p (t.array.length - p)).find? fun i => !(t.array.getD i .nil).isNil with
  | some i =>
    obtain ⟨hv, hmem, hskip⟩ := List.find?_range'_eq_some.mp hslot
    obtain ⟨hp, hi⟩ := List.mem_range'_1.mp hmem
    have hlt : i < t.array.length := by omega
    have hfirst : t.firstSlot p = some (t.keyAt i, t.valueAt i) := by
      rw [firstSlot, hslot, Option.map_some, keyAt, if_pos hlt, valueAt_slot hlt]
    rw [hfirst]
    refine .some i hp (by rw [positions]; omega) ?_ fun j hpj hj => ?_
    · rw [valueAt_slot hlt]
      simpa using hv
    · rw [valueAt_slot (hj.trans hlt)]
      simpa using hskip j hpj hj
  | none =>
    have hslots : ∀ j, p ≤ j → j < t.array.length → t.valueAt j = .nil := by
      intro j hpj hj
      rw [valueAt_slot hj]
      simpa using List.find?_range'_eq_none.mp hslot j hpj (by omega)
    have hfirst : t.firstSlot p = none := by rw [firstSlot, hslot, Option.map_none]
    rw [hfirst, Option.orElse_eq_orElse, Option.orElse_eq_or, Option.none_or]
    generalize hq : (if t.array.length ≤ p then p - t.array.length else 0) = q
    have hsplit : ∀ j, p ≤ j → t.array.length ≤ j → q ≤ j - t.array.length := by
      intro j hpj hj
      rw [← hq]
      split
      · omega
      · omega
    cases hnode : (List.range' q (t.nodes.length - q)).find? fun i => !(t.nodes.getD i .empty).value.isNil with
    | some i =>
      obtain ⟨hv, hmem, hskip⟩ := List.find?_range'_eq_some.mp hnode
      obtain ⟨hqi, hi⟩ := List.mem_range'_1.mp hmem
      have hpi : p ≤ t.array.length + i := by
        rw [← hq] at hqi
        split at hqi
        · omega
        · omega
      rw [firstNode, hnode, Option.map_some, ← keyAt_node, ← valueAt_node]
      refine .some _ hpi (by rw [positions]; omega) ?_ fun j hpj hj => ?_
      · rw [valueAt_node]
        simpa using hv
      · rcases Nat.lt_or_ge j t.array.length with hlt | hge
        · exact hslots j hpj hlt
        · obtain ⟨j, rfl⟩ := Nat.exists_eq_add_of_le hge
          rw [valueAt_node]
          have hqj : q ≤ j := by simpa using hsplit _ hpj hge
          simpa using hskip j hqj (by omega)
    | none =>
      rw [firstNode, hnode, Option.map_none]
      refine .none fun j hpj hj => ?_
      rw [positions] at hj
      rcases Nat.lt_or_ge j t.array.length with hlt | hge
      · exact hslots j hpj hlt
      · obtain ⟨j, rfl⟩ := Nat.exists_eq_add_of_le hge
        rw [valueAt_node]
        have hqj : q ≤ j := by simpa using hsplit _ hpj hge
        simpa using List.find?_range'_eq_none.mp hnode j hqj (by omega)

theorem next_of_index {idx : ℕ} (hidx : t.findIndex key strings = some (.ok idx)) (hp : (idx + 1) % 2 ^ 64 = p) :
    ∃ r, t.next key strings = some (.ok r) ∧ FirstFrom t p r := by
  refine ⟨_, ?_, firstFrom t p⟩
  rw [next, hidx]
  simp only [bind, Option.bind_some, hp]
  cases t.firstSlot p with
  | some entry => rfl
  | none => rfl

/-! ### The position of a key -/

theorem ne_nil_of_rawEq (h : k.rawEq k' = true) (hk' : k' ≠ .nil) : k ≠ .nil := by
  rintro rfl
  cases k' <;> first | exact hk' rfl | cases h

theorem At.lt_positions (h : t.Inv strings) (hat : At t i key) : i < t.positions := by
  rw [positions]
  rcases hat with hs | ⟨-, j, k, hj, -, rfl⟩
  · have := ((slot_eq_some h.array_le).mp hs).2
    omega
  · have hlt := (List.getElem?_eq_some_iff.mp hj).1
    rw [List.length_map] at hlt
    omega

/-- Keys at one position are raw equal. -/
theorem At.rawEq (h : t.Inv strings) (hk : At t i k) (hk' : At t i k') : k.rawEq k' = true := by
  rcases hk with hs | ⟨-, j, n, hj, hn, rfl⟩
  · rcases hk' with hs' | ⟨-, j', n', -, -, hi⟩
    · exact rawEq_of_intKey ((slot_eq_some h.array_le).mp hs).1 ((slot_eq_some h.array_le).mp hs').1
    · have := ((slot_eq_some h.array_le).mp hs).2
      omega
  · rcases hk' with hs' | ⟨-, j', n', hj', hn', hi⟩
    · have := ((slot_eq_some h.array_le).mp hs').2
      omega
    · obtain rfl : j = j' := by omega
      rw [hj, Option.some.injEq] at hj'
      subst hj'
      exact Val.rawEq_trans (Val.rawEq_symm hn) hn'

/-- A key has one position. -/
theorem At.unique (h : t.Inv strings) (hnil : k ≠ .nil) (hk : At t i k) (hk' : At t j k')
    (heq : k.rawEq k' = true) : i = j := by
  rcases hk with hs | ⟨hs, a, n, ha, hn, rfl⟩
  · rcases hk' with hs' | ⟨hs', -⟩
    · rw [slot_congr heq, hs', Option.some.injEq] at hs
      exact hs.symm
    · rw [slot_congr heq, hs'] at hs
      cases hs
  · rcases hk' with hs' | ⟨-, b, m, hb, hm, rfl⟩
    · rw [slot_congr heq, hs'] at hs
      cases hs
    · rw [List.getElem?_map, Option.map_eq_some_iff] at ha hb
      obtain ⟨x, hx, rfl⟩ := ha
      obtain ⟨y, hy, rfl⟩ := hb
      have hne : x.key ≠ .nil := ne_nil_of_rawEq hn hnil
      have hxy : x.key.rawEq y.key = true := Val.rawEq_trans hn (Val.rawEq_trans heq (Val.rawEq_symm hm))
      rw [h.nodes_inv.distinct a b x y hx hy hne hxy]

theorem At.lookup_eq (h : t.Inv strings) (hk : key.Live strings) (hat : At t i key) : t.lookup key = t.valueAt i := by
  rw [lookup]
  rcases hat with hs | ⟨hs, j, n, hj, hn, rfl⟩
  · rw [hs, valueAt_slot ((slot_eq_some h.array_le).mp hs).2]
  · rw [List.getElem?_map, Option.map_eq_some_iff] at hj
    obtain ⟨x, hx, rfl⟩ := hj
    rw [hs, valueAt_node, List.getD_eq_getElem?_getD, hx]
    exact h.nodes_inv.findValue_eq hk ⟨x, NodesInv.mem hx, hn, rfl⟩

/-- A key with a value has a position. -/
theorem exists_at (hv : t.lookup key ≠ .nil) : ∃ i, At t i key := by
  cases hs : t.slot key with
  | some i => exact ⟨i, .inl hs⟩
  | none =>
    rcases NodesInv.absent_or_hasEntry t.nodes key with habs | ⟨v, n, hn, hnk, -⟩
    · rw [lookup, hs] at hv
      exact absurd (NodesInv.findValue_of_absent habs) hv
    · obtain ⟨j, hj⟩ := NodesInv.exists_index hn
      exact ⟨t.array.length + j, .inr ⟨hs, j, n.key, by rw [List.getElem?_map, hj]; rfl, hnk, rfl⟩⟩

/-- The key at a position with a value. -/
theorem Inv.at_keyAt (h : t.Inv strings) (hnum : t.array.length < 2 ^ 52) (hi : i < t.positions) (hv : t.valueAt i ≠ .nil) :
    At t i (t.keyAt i) ∧ (t.keyAt i).Live strings := by
  rcases Nat.lt_or_ge i t.array.length with hlt | hge
  · have hkey : t.keyAt i = slotKey i := if_pos hlt
    have hmax : i < 2 ^ 52 := hlt.trans hnum
    rw [hkey]
    exact ⟨.inl ((slot_eq_some h.array_le).mpr ⟨intKey_slotKey hmax, hlt⟩), live_slotKey hmax strings⟩
  · obtain ⟨j, rfl⟩ := Nat.exists_eq_add_of_le hge
    rw [positions] at hi
    have hj : t.nodes[j]? = some t.nodes[j] := List.getElem?_eq_getElem (by omega)
    rw [valueAt_node, List.getD_eq_getElem?_getD, hj] at hv
    rw [keyAt_node, List.getD_eq_getElem?_getD, hj]
    have hmem : t.nodes[j] ∈ t.nodes := List.getElem_mem _
    have hlive := key_live h hmem hv
    refine ⟨.inr ⟨?_, j, _, by rw [List.getElem?_map, hj]; rfl, hlive.rawEq_self, rfl⟩, hlive⟩
    -- an integer key of the array part has no value in the hash part
    by_contra hs
    exact hv (h.shadow _ hmem (Option.isSome_iff_ne_none.mpr hs))

theorem Inv.findIndex_of_at (h : t.Inv strings) (hk : key.Live strings) (hat : At t i key) :
    t.findIndex key strings = some (.ok i) := by
  rw [findIndex, if_neg (by simpa using hk.ne_nil)]
  rcases hat with hs | ⟨hs, j, n, hj, hn, rfl⟩
  · rw [slot] at hs
    rw [hs]
  · rw [List.getElem?_map, Option.map_eq_some_iff] at hj
    obtain ⟨x, hx, rfl⟩ := hj
    have hne : t.nodes ≠ [] := by
      intro h0
      rw [h0] at hx
      cases hx
    rw [slot] at hs
    rw [hs]
    simp only [List.isEmpty_iff, hne, if_false]
    rcases h.walk_live hk hne with ⟨a, m, hw, hm, hmk⟩ | ⟨-, habs⟩
    · have hxm : x.key.rawEq m.key = true := Val.rawEq_trans hn (Val.rawEq_symm hmk)
      obtain rfl : j = a := h.nodes_inv.distinct j a x m hx hm (hk.congr (Val.rawEq_symm hn)).ne_nil hxm
      simp only [hw, bind, Option.bind_some, Nat.add_comm]
    · rw [habs x (NodesInv.mem hx)] at hn
      cases hn

theorem Inv.findIndex_of_absent (h : t.Inv strings) (hk : key ≠ .nil) (hs : t.slot key = none)
    (habs : ∀ n ∈ t.nodes, n.key.rawEq key = false) :
    t.findIndex key strings = some (.error ⟨"invalid key to 'next'"⟩) := by
  rw [slot] at hs
  rw [findIndex, if_neg (by simpa using hk), hs]
  by_cases hne : t.nodes = []
  · simp only [hne, List.isEmpty_nil, if_true]
  · have hwalk : walk t.nodes (fun k => k.rawEq key) t.nodes.length (some (t.mainPosition key strings)) = some none :=
      h.walk_of_absent hne habs key
    simp only [List.isEmpty_iff, hne, if_false, hwalk, bind, Option.bind_some]

/-- `next` fails exactly for the keys of neither part. -/
theorem Inv.next_error_iff (h : t.Inv strings) (hk : key.isStale strings = false) :
    (∃ e, t.next key strings = some (.error e)) ↔
      key ≠ .nil ∧ t.slot key = none ∧ ∀ n ∈ t.nodes, n.key.rawEq key = false := by
  constructor
  · rintro ⟨e, he⟩
    have hfound : ∀ idx, t.findIndex key strings ≠ some (.ok idx) := by
      intro idx hidx
      obtain ⟨r, hr, -⟩ := next_of_index hidx rfl
      rw [hr] at he
      cases he
    have hnil : key ≠ .nil := by
      rintro rfl
      exact hfound usizeMax rfl
    have hs : t.slot key = none := by
      cases hs : t.slot key with
      | none => rfl
      | some i =>
        rw [slot] at hs
        exact absurd (by rw [findIndex, if_neg (by simpa using hnil), hs]) (hfound i)
    refine ⟨hnil, hs, fun n hn => Bool.eq_false_iff.mpr fun hnk => ?_⟩
    obtain ⟨j, hj⟩ := NodesInv.exists_index hn
    have hlive : key.Live strings :=
      Val.Live.congr ⟨ne_nil_of_rawEq hnk hnil, h.nodes_inv.not_nan n hn, by rw [Val.isStale_congr hnk, hk]⟩ hnk
    have hat : At t (t.array.length + j) key :=
      .inr ⟨hs, j, n.key, by rw [List.getElem?_map, hj]; rfl, hnk, rfl⟩
    exact hfound _ (h.findIndex_of_at hlive hat)
  · rintro ⟨hnil, hs, habs⟩
    refine ⟨⟨"invalid key to 'next'"⟩, ?_⟩
    rw [next, h.findIndex_of_absent hnil hs habs]
    rfl

/-! ### Assignments to existing fields -/

/-- The tables have the same keys at the same positions. -/
structure SameKeys (t t' : Table) : Prop where
  array_length : t'.array.length = t.array.length
  keys : t'.nodes.map Node.key = t.nodes.map Node.key

theorem SameKeys.refl (t : Table) : SameKeys t t := ⟨rfl, rfl⟩

theorem SameKeys.trans {t'' : Table} (h : SameKeys t t') (h' : SameKeys t' t'') : SameKeys t t'' :=
  ⟨h'.array_length.trans h.array_length, h'.keys.trans h.keys⟩

theorem SameKeys.at_iff (h : SameKeys t t') : At t' i key ↔ At t i key := by
  rw [At, At, slot_eq_of_length h.array_length, h.keys, h.array_length]

theorem SameKeys.positions_eq (h : SameKeys t t') : t'.positions = t.positions := by
  have hlen : t'.nodes.length = t.nodes.length := by simpa using congrArg List.length h.keys
  rw [positions, positions, h.array_length, hlen]

theorem sameKeys_setArray (t : Table) (idx : ℕ) (value : Val) : SameKeys t (t.setArray idx value) :=
  ⟨by simp [Table.setArray], rfl⟩

theorem sameKeys_setValue (t : Table) (idx : ℕ) (value : Val) : SameKeys t (t.setValue idx value) := by
  refine ⟨rfl, List.ext_getElem? fun j => ?_⟩
  simp only [setValue, List.getElem?_map, List.getElem?_modify]
  cases t.nodes[j]? with
  | none => rfl
  | some n =>
    simp only [Option.map_some]
    split
    · rfl
    · rfl

/-- A field that is there is assigned in place, and nothing is assigned nil. -/
theorem Inv.rawSetWith_existing (h : t.Inv strings) (hk : key.Live strings)
    (hex : t.lookup key ≠ .nil ∨ value = .nil) (onFull : Table → LuaError → Option (TableResult ℕ)) :
    ∃ t', rawSetWith onFull t key value strings = some (t', .ok 0) ∧ t'.Inv strings ∧ SameKeys t t' := by
  rw [rawSetWith_live hk]
  cases hslot : t.slot key with
  | some idx => exact ⟨_, rfl, (h.setArray hslot value).inv, sameKeys_setArray t idx value⟩
  | none =>
    simp only
    rcases h.updateExistingHashSlot_spec hk value with ⟨j, n, hup, hn, hnk⟩ | ⟨hup, habs⟩
    · exact ⟨_, by rw [hup]; rfl, (h.setNode hk hslot hn hnk value).inv, sameKeys_setValue t j value⟩
    · have hnil : value = .nil := by
        refine hex.resolve_left fun hv => hv ?_
        rw [lookup, hslot]
        exact NodesInv.findValue_of_absent habs
      exact ⟨t, by rw [hup, hnil]; rfl, h, .refl t⟩

theorem Inv.rawSet_existing (h : t.Inv strings) (hk : key.isStale strings = false)
    (hex : t.lookup key ≠ .nil ∨ value = .nil) {r : Except LuaError Unit}
    (hset : t.rawSet key value strings = some (t', r)) : t'.Inv strings ∧ SameKeys t t' := by
  rw [rawSet, rawSetWithMemoryDelta] at hset
  split at hset
  · cases hset
    exact ⟨h, .refl t⟩
  generalize hu : (if isMetaName key strings then { t with flags := 0 } else t : Table) = u at hset
  have huinv : u.Inv strings ∧ SameKeys t u ∧ u.lookup key = t.lookup key := by
    rw [← hu]
    split
    · exact ⟨⟨h.nodes_inv, h.size, h.lastFree_le, h.scanned, h.array_le, h.shadow⟩, ⟨rfl, rfl⟩, rfl⟩
    · exact ⟨h, .refl t, rfl⟩
  obtain ⟨hinv, hsame, hlookup⟩ := huinv
  refine (fun h' : t'.Inv strings ∧ SameKeys u t' => ⟨h'.1, hsame.trans h'.2⟩) ?_
  by_cases hnil : key = .nil
  · subst hnil
    cases hset
    exact ⟨hinv, .refl _⟩
  by_cases hnan : key.isNaN = true
  · rw [rawSetImpl, rawSetWith, if_pos hnan] at hset
    · cases hset
      exact ⟨hinv, .refl _⟩
    · exact hnil
  · have hlive : key.Live strings := ⟨hnil, Bool.eq_false_iff.mpr hnan, hk⟩
    have hex' : u.lookup key ≠ .nil ∨ value = .nil := hlookup ▸ hex
    rw [rawSetImpl] at hset
    obtain ⟨v, hv, hsound⟩ := hinv.rawSetWith_existing hlive hex' _
    rw [hv] at hset
    cases hset
    exact hsound

end Table

/-! ### Traversals -/

/-- A traversal: the table, the key that comes next into `next`, and the keys returned so far, newest first. -/
structure Traversal where
  table : Table
  strings : StringArena
  control : Val := .nil
  returned : List Val := []
  ended : Bool := false

inductive TraversalOp where
  | next
  | assign (key value : Val)
  /-- Strings are interned and freed. -/
  | strings (strings' : StringArena)

def TraversalOp.isNext : TraversalOp → Bool
  | .next => true
  | _ => false

namespace Traversal

open Table

def step (s : Traversal) : TraversalOp → Option Traversal
  | .next => do
    match ← s.table.next s.control s.strings with
    | .error _ => none
    | .ok none => some { s with ended := true }
    | .ok (some (key, _)) => some { s with control := key, returned := key :: s.returned }
  | .assign key value => (s.table.rawSet key value s.strings).map fun (table, _) => { s with table }
  | .strings strings' => some { s with strings := strings' }

/-- The field has a value. -/
def HasField (key : Val) (s : Traversal) : Prop := ∃ v, s.table.get key s.strings = some v ∧ v ≠ .nil

/-- Up to the end of the traversal, existing fields may be assigned, also nil, and strings may be freed that the
    table does not need and that are not the key at which the traversal stands. -/
def Permitted (s : Traversal) : TraversalOp → Prop
  | .next => s.ended = false
  | .assign key value => s.ended = false ∧ key.isStale s.strings = false ∧ (s.HasField key ∨ value = .nil)
  | .strings strings' => s.ended = false ∧ s.table.StringsKept s.strings strings' ∧ s.control.isStale strings' = false

/-- The traversal of `t` has passed `p` positions. -/
structure Passed (t : Table) (p : ℕ) (s : Traversal) : Prop where
  inv : s.table.Inv s.strings
  array_lt : s.table.array.length < 2 ^ 52
  sameKeys : SameKeys t s.table
  control : s.control = .nil ∧ p = 0 ∨ s.control.Live s.strings ∧ ∃ i, p = i + 1 ∧ At t i s.control
  positions : ∀ k ∈ s.returned, ∃ i < p, At t i k ∧ k ≠ .nil
  distinct : s.returned.Pairwise fun k k' => k.rawEq k' = false
  length_le : s.returned.length ≤ p
  le_positions : p ≤ t.positions

variable {t : Table} {p : ℕ} {s s' : Traversal} {key value k : Val}

theorem passed_start {strings : StringArena} (h : t.Inv strings) (hnum : t.array.length < 2 ^ 52) : Passed t 0 { table := t, strings } where
  inv := h
  array_lt := hnum
  sameKeys := .refl t
  control := .inl ⟨rfl, rfl⟩
  positions k hk := by cases hk
  distinct := .nil
  length_le := Nat.le_refl 0
  le_positions := Nat.zero_le _

/-- `next` goes on from the position that has been reached. -/
theorem Passed.next (h : Passed t p s) :
    ∃ r, s.table.next s.control s.strings = some (.ok r) ∧ FirstFrom s.table p r := by
  rcases h.control with ⟨hnil, rfl⟩ | ⟨hlive, i, rfl, hat⟩
  · rw [hnil]
    exact next_of_index rfl rfl
  · refine next_of_index (h.inv.findIndex_of_at hlive (h.sameKeys.at_iff.mpr hat)) ?_
    have hlt := (h.sameKeys.at_iff.mpr hat).lt_positions h.inv
    have hlen := h.array_lt
    have hnodes := h.inv.nodes_le
    simp only [Table.positions] at hlt
    exact Nat.mod_eq_of_lt (by omega)

/-- The next key that is returned is behind all others. -/
theorem Passed.returned (h : Passed t p s) {i : ℕ} (hp : p ≤ i) (hi : i < s.table.positions)
    (hv : s.table.valueAt i ≠ .nil) :
    Passed t (i + 1) { s with control := s.table.keyAt i, returned := s.table.keyAt i :: s.returned } := by
  obtain ⟨hat, hlive⟩ := h.inv.at_keyAt h.array_lt hi hv
  have hat' : At t i (s.table.keyAt i) := h.sameKeys.at_iff.mp hat
  refine ⟨h.inv, h.array_lt, h.sameKeys, .inr ⟨hlive, i, rfl, hat'⟩, ?_, ?_, ?_, ?_⟩
  · intro k hk
    rcases List.mem_cons.mp hk with rfl | hk
    · exact ⟨i, Nat.lt_succ_self i, hat', hlive.ne_nil⟩
    · obtain ⟨j, hj, hjk, hnil⟩ := h.positions k hk
      exact ⟨j, by omega, hjk, hnil⟩
  · refine List.pairwise_cons.mpr ⟨fun k hk => Bool.eq_false_iff.mpr fun heq => ?_, h.distinct⟩
    obtain ⟨j, hj, hjk, -⟩ := h.positions k hk
    have hij : i = j := hat.unique h.inv hlive.ne_nil (h.sameKeys.at_iff.mpr hjk) heq
    omega
  · have := h.length_le
    simp only [List.length_cons]
    omega
  · rw [← h.sameKeys.positions_eq]
    exact hi

theorem Passed.assign (h : Passed t p s) (hop : s.Permitted (.assign key value)) (hstep : s.step (.assign key value) = some s') :
    Passed t p s' := by
  obtain ⟨-, hstale, hex⟩ := hop
  rw [step, Option.map_eq_some_iff] at hstep
  obtain ⟨⟨t', r⟩, hset, rfl⟩ := hstep
  have hex' : s.table.lookup key ≠ .nil ∨ value = .nil := by
    refine hex.imp_left fun ⟨v, hget, hv⟩ hnil => ?_
    by_cases hlive : key.Live s.strings
    · rw [h.inv.get_eq hlive, hnil, Option.some.injEq] at hget
      exact hv hget.symm
    · rw [h.inv.get_of_not_live hlive, Option.some.injEq] at hget
      exact hv hget.symm
  obtain ⟨hinv, hsame⟩ := h.inv.rawSet_existing hstale hex' hset
  have hnum : t'.array.length < 2 ^ 52 := hsame.array_length ▸ h.array_lt
  exact ⟨hinv, hnum, h.sameKeys.trans hsame, h.control, h.positions, h.distinct, h.length_le, h.le_positions⟩

theorem Passed.strings (h : Passed t p s) {strings' : StringArena} (hop : s.Permitted (.strings strings')) :
    Passed t p { s with strings := strings' } := by
  obtain ⟨-, hkept, hstale⟩ := hop
  refine ⟨h.inv.strings_step hkept, h.array_lt, h.sameKeys, ?_, h.positions, h.distinct, h.length_le, h.le_positions⟩
  exact h.control.imp_right fun ⟨hlive, hi⟩ => ⟨⟨hlive.ne_nil, hlive.not_nan, hstale⟩, hi⟩

/-- A field with a value has a position. -/
theorem HasField.position (h : Passed t p s) (hf : s.HasField key) :
    ∃ i, At t i key ∧ s.table.valueAt i ≠ .nil ∧ ∀ q, At t q key → q = i := by
  obtain ⟨v, hget, hv⟩ := hf
  by_cases hlive : key.Live s.strings
  · rw [h.inv.get_eq hlive, Option.some.injEq] at hget
    subst hget
    obtain ⟨i, hi⟩ := Table.exists_at hv
    refine ⟨i, h.sameKeys.at_iff.mp hi, by rwa [← hi.lookup_eq h.inv hlive], fun q hq => ?_⟩
    exact (h.sameKeys.at_iff.mpr hq).unique h.inv hlive.ne_nil hi hlive.rawEq_self
  · rw [h.inv.get_of_not_live hlive, Option.some.injEq] at hget
    exact absurd hget.symm hv

/-- What is kept about a key with a value throughout: once its position is passed, it has been returned. -/
structure Covers (t : Table) (key : Val) (s : Traversal) : Prop where
  passed : ∃ p, Passed t p s ∧ ∀ q < p, At t q key → ∃ k ∈ s.returned, k.rawEq key = true
  ended : s.ended = true → ∃ k ∈ s.returned, k.rawEq key = true

/-- One step of a traversal. -/
theorem Passed.step (h : Passed t p s) {op : TraversalOp} (hop : s.Permitted op) (hstep : s.step op = some s') :
    ∃ p', Passed t p' s' := by
  cases op with
  | next =>
    obtain ⟨r, hr, hfirst⟩ := h.next
    simp only [Traversal.step, hr, bind, Option.bind_some] at hstep
    cases hfirst with
    | none hrest =>
      cases hstep
      exact ⟨p, h.inv, h.array_lt, h.sameKeys, h.control, h.positions, h.distinct, h.length_le, h.le_positions⟩
    | some i hp hi hv hskip =>
      cases hstep
      exact ⟨i + 1, h.returned hp hi hv⟩
  | assign key value => exact ⟨p, h.assign hop hstep⟩
  | strings strings' =>
    cases hstep
    exact ⟨p, h.strings hop⟩

theorem Covers.step (h : Covers t key s) (hf : s.HasField key) {op : TraversalOp} (hop : s.Permitted op)
    (hstep : s.step op = some s') : Covers t key s' := by
  obtain ⟨⟨p, hpassed, hcovers⟩, hended⟩ := h
  cases op with
  | next =>
    obtain ⟨i₀, hat, hv₀, huniq⟩ := hf.position hpassed
    have hi₀ : i₀ < s.table.positions := (hpassed.sameKeys.at_iff.mpr hat).lt_positions hpassed.inv
    obtain ⟨r, hr, hfirst⟩ := hpassed.next
    simp only [Traversal.step, hr, bind, Option.bind_some] at hstep
    cases hfirst with
    | none hrest =>
      cases hstep
      -- nothing is left, so the position of the key is passed
      have hlt : i₀ < p := by
        by_contra hge
        exact hv₀ (hrest i₀ (Nat.le_of_not_lt hge) hi₀)
      exact ⟨⟨p, ⟨hpassed.inv, hpassed.array_lt, hpassed.sameKeys, hpassed.control, hpassed.positions, hpassed.distinct,
        hpassed.length_le, hpassed.le_positions⟩, hcovers⟩, fun _ => hcovers i₀ hlt hat⟩
    | some i hp hi hv hskip =>
      cases hstep
      refine ⟨⟨i + 1, hpassed.returned hp hi hv, fun q hq hatq => ?_⟩, fun he => ?_⟩
      · obtain rfl := huniq q hatq
        rcases Nat.lt_or_ge q p with hlt | hge
        · obtain ⟨k, hk, heq⟩ := hcovers q hlt hatq
          exact ⟨k, List.mem_cons_of_mem _ hk, heq⟩
        · have hqi : q = i := by
            by_contra hne
            exact hv₀ (hskip q hge (by omega))
          subst hqi
          have hkey := (hpassed.inv.at_keyAt hpassed.array_lt hi hv).1
          exact ⟨_, List.mem_cons_self .., hkey.rawEq hpassed.inv (hpassed.sameKeys.at_iff.mpr hatq)⟩
      · rw [show s.ended = false from hop] at he
        cases he
  | assign key' value =>
    have hended' : s.ended = false := hop.1
    have hpassed' := hpassed.assign hop hstep
    rw [Traversal.step, Option.map_eq_some_iff] at hstep
    obtain ⟨⟨t', r⟩, -, rfl⟩ := hstep
    exact ⟨⟨p, hpassed', hcovers⟩, hended⟩
  | strings strings' =>
    cases hstep
    exact ⟨⟨p, hpassed.strings hop, hcovers⟩, hended⟩

/-- Each call of `next` returns a key, but the last. -/
theorem countP_next {ops : List TraversalOp} (hrun : Run step Permitted s ops s') (hs : s.ended = false) :
    s.returned.length + ops.countP TraversalOp.isNext = s'.returned.length + s'.ended.toNat := by
  induction hrun with
  | nil s => rw [hs]; rfl
  | @cons s s₁ s₂ op ops hop hstep hrest ih =>
    have hended : s.ended = false := by
      cases op with
      | next => exact hop
      | assign key value => exact hop.1
      | strings strings' => exact hop.1
    rw [List.countP_cons]
    cases op with
    | next =>
      simp only [step, bind, Option.bind_eq_some_iff] at hstep
      obtain ⟨r, -, hstep⟩ := hstep
      cases r with
      | error e => cases hstep
      | ok entry =>
        cases entry with
        | none =>
          cases hstep
          -- no operation is permitted after the end
          cases hrest with
          | nil => rfl
          | @cons _ _ _ op' _ hop' _ _ =>
            cases op' with
            | next => cases hop'
            | assign key value => cases hop'.1
            | strings strings' => cases hop'.1
        | some entry =>
          cases hstep
          have hcount := ih hended
          simp only [List.length_cons] at hcount
          simp only [TraversalOp.isNext, if_true]
          omega
    | assign key value =>
      rw [step, Option.map_eq_some_iff] at hstep
      obtain ⟨⟨t', r⟩, -, rfl⟩ := hstep
      exact ih hended
    | strings strings' =>
      cases hstep
      exact ih hended

/-- A traversal of a table that assignments have built. No key is returned twice; `next` does not fail, and is
    called once more than there are keys returned, which are not more than the table has positions; at the end every
    key has been returned that had a value throughout. For other keys `next` fails exactly if they are in neither
    part of the table. -/
theorem next_traverses {strings : StringArena} {sets : List TableOp} {start : TableState}
    (hbuilt : Run TableState.step TableState.Permitted { strings } sets start) {ops : List TraversalOp} {s : Traversal}
    (hrun : Run step Permitted { table := start.table, strings := start.strings } ops s) :
    (s.returned.Pairwise fun k k' => k.rawEq k' = false) ∧
    (∃ r, s.table.next s.control s.strings = some (.ok r)) ∧
    ops.countP TraversalOp.isNext = s.returned.length + s.ended.toNat ∧
    s.returned.length ≤ start.table.array.length + start.table.nodes.length ∧
    (s.ended = true → ∀ key, Always step (HasField key) { table := start.table, strings := start.strings } ops →
      ∃ k ∈ s.returned, k.rawEq key = true) ∧
    ∀ key, key.isStale s.strings = false → ((∃ e, s.table.next key s.strings = some (.error e)) ↔
      key ≠ .nil ∧ s.table.slot key = none ∧ ∀ n ∈ s.table.nodes, n.key.rawEq key = false) := by
  have hinv := (TableState.run_refines hbuilt).inv
  have hnum : start.table.array.length < 2 ^ 52 := (TableState.run_refines hbuilt).small.array_le.trans_lt (by decide)
  obtain ⟨p, hpassed⟩ : ∃ p, Passed start.table p s :=
    hrun.invariant (fun s => ∃ p, Passed start.table p s) (fun s op s' ⟨p, h⟩ hop hstep => h.step hop hstep)
      ⟨0, passed_start hinv hnum⟩
  obtain ⟨r, hr, -⟩ := hpassed.next
  have hcount := countP_next hrun rfl
  refine ⟨hpassed.distinct, ⟨r, hr⟩, by simpa using hcount, hpassed.length_le.trans hpassed.le_positions, ?_,
    fun key => hpassed.inv.next_error_iff⟩
  intro hended key halways
  have hcovers : Covers start.table key s :=
    hrun.invariant_of_always (Covers start.table key) (fun s op s' h hf hop hstep => h.step hf hop hstep) halways
      ⟨⟨0, passed_start hinv hnum, fun q hq => absurd hq (Nat.not_lt_zero q)⟩, nofun⟩
  exact hcovers.ended hended

/-- The table `{[false] = value, [true] = true}`. -/
def twoFields (value : Val) : Table :=
  { nodes := [⟨.bool false, value, none⟩, ⟨.bool true, .bool true, none⟩], lastFree := 2, log2Size := 1 }

/-- Two fields, of which the first is cleared when it has been returned. -/
theorem next_traverses_cleared : ∃ start s, Run TableState.step TableState.Permitted {}
      [.rawSet (.bool true) (.bool true), .rawSet (.bool false) (.bool true)] start ∧
    Run step Permitted { table := start.table, strings := start.strings }
      [.next, .assign (.bool false) .nil, .next, .next] s ∧
    (s.returned.Pairwise fun k k' => k.rawEq k' = false) ∧
    (∃ r, s.table.next s.control s.strings = some (.ok r)) ∧
    [TraversalOp.next, .assign (.bool false) .nil, .next, .next].countP TraversalOp.isNext =
      s.returned.length + s.ended.toNat ∧
    s.returned.length ≤ start.table.array.length + start.table.nodes.length ∧
    (s.ended = true → ∀ key, Always step (HasField key) { table := start.table, strings := start.strings }
        [.next, .assign (.bool false) .nil, .next, .next] → ∃ k ∈ s.returned, k.rawEq key = true) ∧
    ∀ key, key.isStale s.strings = false → ((∃ e, s.table.next key s.strings = some (.error e)) ↔
      key ≠ .nil ∧ s.table.slot key = none ∧ ∀ n ∈ s.table.nodes, n.key.rawEq key = false) := by
  have hbuilt : Run TableState.step TableState.Permitted {}
      [.rawSet (.bool true) (.bool true), .rawSet (.bool false) (.bool true)]
      { table := twoFields (.bool true), sets := [(.bool false, .bool true), (.bool true, .bool true)] } :=
    .cons rfl rfl (.cons rfl rfl (.nil _))
  have hnext : ∀ s : Traversal, s.ended = false → s.Permitted .next := fun _ h => h
  have hrun : Run step Permitted { table := twoFields (.bool true), strings := {} }
      [.next, .assign (.bool false) .nil, .next, .next]
      { table := twoFields .nil, strings := {}, control := .bool true, returned := [.bool true, .bool false], ended := true } :=
    .cons (hnext _ rfl) rfl (.cons ⟨rfl, rfl, .inr rfl⟩ rfl (.cons (hnext _ rfl) rfl (.cons (hnext _ rfl) rfl (.nil _))))
  exact ⟨_, _, hbuilt, hrun, next_traverses hbuilt hrun⟩

end Traversal

end Rilua.Vm
