import Rilua.Vm.TableHolds
import Rilua.Vm.TableSequence

/-! What the keys and the values in a table have in common. A node without a value may have any key, so what counts are
    the entries: after a store that fails they have keys and values that were in the table before, or numbers as keys;
    after one that succeeds, also the key and the value that were given. -/

namespace Rilua.Vm

open Lib Gc

namespace Table

/-- The key of every entry satisfies `K`, and its value `P`. -/
structure Entries (K P : Val → Prop) (t : Table) : Prop where
  slots : ∀ v ∈ t.array, P v
  nodes : ∀ n ∈ t.nodes, n.value ≠ .nil → K n.key ∧ P n.value

variable {K P : Val → Prop} {strings : StringArena} {t t' u : Table} {key value : Val}

/-- What a set of keys needs to be closed under stores: equal keys and numbers belong to it. -/
structure KeySet (K : Val → Prop) : Prop where
  not_nil : ¬ K .nil
  num : ∀ x, K (.num x)
  congr : ∀ a b, a.rawEq b = true → K b → K a

namespace Entries

/-! ### Nodes -/

section Nodes

variable {nodes : List Node} (h : ∀ n ∈ nodes, n.value ≠ .nil → K n.key ∧ P n.value)

include h

/-- Replacing a node by one without a value. -/
theorem set_absent {n : Node} (hn : n.value = .nil) (idx : ℕ) :
    ∀ m ∈ nodes.set idx n, m.value ≠ .nil → K m.key ∧ P m.value := by
  intro m hm hv
  rcases List.mem_or_eq_of_mem_set hm with hm | rfl
  · exact h m hm hv
  · exact absurd hn hv

/-- Relinking a node. -/
theorem modify_next (idx : ℕ) (next : Option ℕ) :
    ∀ m ∈ nodes.modify idx fun n => { n with next }, m.value ≠ .nil → K m.key ∧ P m.value := by
  intro m hm hv
  obtain ⟨i, hi⟩ := NodesInv.exists_index hm
  rw [List.getElem?_modify] at hi
  obtain ⟨n, hn, rfl⟩ := Option.map_eq_some_iff.mp hi
  have := h n (List.mem_of_getElem? hn)
  split_ifs at hv ⊢ <;> exact this hv

/-- A node without a key has no value. -/
theorem value_nil (hK : KeySet K) {n : Node} (hn : n ∈ nodes) (hkey : n.key = .nil) : n.value = .nil := by
  by_contra hv
  exact hK.not_nil (hkey ▸ (h n hn hv).1)

omit h

theorem getElem?_set_key {i : ℕ} {n m : Node} (h : (nodes.set i n)[i]? = some m) : m = n := by
  rw [List.getElem?_set_self'] at h
  obtain ⟨_, _, heq⟩ := Option.map_eq_some_iff.mp h
  exact heq.symm

/-- A free node has no key. -/
theorem getFreePos_key : ∀ {n lastFree f : ℕ}, getFreePos nodes n = some (lastFree, some f) →
    ∃ m, nodes[f]? = some m ∧ m.key = .nil
  | 0, _, _, h => by cases h
  | n + 1, lastFree, f, h => by
    simp only [getFreePos, bind, Option.bind_eq_some_iff] at h
    obtain ⟨m, hm, h⟩ := h
    split at h
    · next hnil =>
      cases h
      exact ⟨m, hm, by simpa using hnil⟩
    · exact getFreePos_key h

end Nodes

/-! ### Stores -/

theorem setArray (h : t.Entries K P) (hv : P value) (idx : ℕ) : (t.setArray idx value).Entries K P := by
  refine ⟨fun v hmem => ?_, h.nodes⟩
  rcases List.mem_or_eq_of_mem_set hmem with hmem | rfl
  · exact h.slots v hmem
  · exact hv

theorem setValue (h : t.Entries K P) (hv : P value) {idx : ℕ} (hkey : ∀ n, t.nodes[idx]? = some n → K n.key) :
    (t.setValue idx value).Entries K P := by
  refine ⟨h.slots, fun n hn hval => ?_⟩
  obtain ⟨i, hi⟩ := NodesInv.exists_index hn
  rw [Table.setValue, List.getElem?_modify] at hi
  obtain ⟨m, hm, rfl⟩ := Option.map_eq_some_iff.mp hi
  split at hval
  · next heq =>
    subst heq
    rw [if_pos rfl]
    exact ⟨hkey m hm, hv⟩
  · next hne =>
    rw [if_neg hne]
    exact h.nodes m (List.mem_of_getElem? hm) hval

theorem updateExisting (h : t.Entries K P) (hK : KeySet K) {found : Bool} (hgiven : found = true → K key ∧ P value)
    (hup : t.updateExistingHashSlot key value strings = some (t', found)) : t'.Entries K P := by
  rw [updateExistingHashSlot] at hup
  split at hup
  · cases hup
    exact h
  · simp only [bind, Option.bind_eq_some_iff] at hup
    obtain ⟨_ | i, hwalk, hup⟩ := hup
    · cases hup
      exact h
    · cases hup
      refine h.setValue (hgiven rfl).2 fun n hn => ?_
      obtain ⟨m, hm, htest⟩ := walk_found hwalk
      rw [hn] at hm
      cases hm
      exact hK.congr _ _ htest (hgiven rfl).1

theorem insertFirst (h : t.Entries K P)
    (hgiven : (t.insertFirstHashNode key value strings).2 = true → K key ∧ P value) :
    (t.insertFirstHashNode key value strings).1.Entries K P := by
  rw [insertFirstHashNode] at hgiven ⊢
  split
  · exact h
  · next hempty =>
    rw [if_neg hempty] at hgiven
    refine ⟨h.slots, fun n hn hv => ?_⟩
    obtain ⟨i, hi⟩ := NodesInv.exists_index hn
    rw [List.getElem?_modify] at hi
    obtain ⟨m, hm, rfl⟩ := Option.map_eq_some_iff.mp hi
    obtain rfl : m = Node.empty := by simpa using List.mem_of_getElem? hm
    split at hv
    · next heq =>
      rw [if_pos heq]
      exact hgiven rfl
    · exact absurd rfl hv

/-- The node of a new key has no value yet. -/
theorem newKey (h : t.Entries K P) (hK : KeySet K) {r : Except LuaError ℕ} (hnew : t.newKey key strings = some (t', r)) :
    t'.Entries K P ∧ ∀ idx, r = .ok idx → ∀ n, t'.nodes[idx]? = some n → n.key = key := by
  rw [Table.newKey] at hnew
  split at hnew
  · cases hnew
    exact ⟨h, by simp⟩
  simp only [bind, Option.bind_eq_some_iff] at hnew
  obtain ⟨occupant, hocc, hnew⟩ := hnew
  have hmem := List.mem_of_getElem? hocc
  -- the node of the main position takes the key, where it has no value
  have hfree : occupant.value = .nil →
      Entries K P { t with nodes := t.nodes.set (t.mainPosition key strings) { occupant with key } } ∧
      ∀ idx, (Except.ok (t.mainPosition key strings) : Except LuaError ℕ) = .ok idx → ∀ n,
        (t.nodes.set (t.mainPosition key strings) { occupant with key })[idx]? = some n → n.key = key := by
    intro hv
    refine ⟨⟨h.slots, set_absent (n := { occupant with key }) h.nodes hv _⟩, ?_⟩
    rintro idx ⟨⟩ n hn
    rw [getElem?_set_key hn]
  split at hnew
  · next hnil =>
    cases hnew
    exact hfree (value_nil h.nodes hK hmem (by simpa using hnil))
  split at hnew
  · next hdead =>
    cases hnew
    rw [Node.isDead, Bool.and_eq_true, Val.isNil_eq_true] at hdead
    exact hfree hdead.1
  simp only [Option.bind_eq_some_iff] at hnew
  obtain ⟨⟨lastFree, _ | free⟩, hpos, hnew⟩ := hnew
  · cases hnew
    exact ⟨⟨h.slots, h.nodes⟩, by simp⟩
  dsimp only at hnew
  split at hnew
  · cases hnew
    have h₁ := modify_next h.nodes free occupant.next
    have h₂ := modify_next h₁ (t.mainPosition key strings) (some free)
    obtain ⟨m, hm, hkey⟩ := getFreePos_key hpos
    have hval := value_nil h.nodes hK (List.mem_of_getElem? hm) hkey
    refine ⟨⟨h.slots, fun n hn hv => ?_⟩, ?_⟩
    · obtain ⟨i, hi⟩ := NodesInv.exists_index hn
      rw [List.getElem?_modify] at hi
      obtain ⟨w, hw, rfl⟩ := Option.map_eq_some_iff.mp hi
      split at hv
      · next heq =>
        -- the free node has no value, however it was relinked
        subst heq
        refine absurd ?_ hv
        simp only [List.getElem?_modify, hm, Option.map_eq_map, Option.map_some, if_true, Option.some.injEq] at hw
        subst hw
        split_ifs <;> exact hval
      · next hne =>
        rw [if_neg hne]
        exact h₂ w (List.mem_of_getElem? hw) hv
    · rintro idx ⟨⟩ n hn
      rw [List.getElem?_modify] at hn
      obtain ⟨w, -, rfl⟩ := Option.map_eq_some_iff.mp hn
      rw [if_pos rfl]
  · simp only [Option.bind_eq_some_iff] at hnew
    obtain ⟨prev, -, occ, hocc', hnew⟩ := hnew
    cases hnew
    have h₁ := modify_next h.nodes prev (some free)
    have hocc₁ := h₁ occ (List.mem_of_getElem? hocc')
    have h₂ : ∀ n ∈ (t.nodes.modify prev fun n => { n with next := some free }).set free occ,
        n.value ≠ .nil → K n.key ∧ P n.value := by
      intro n hn hv
      rcases List.mem_or_eq_of_mem_set hn with hn | rfl
      · exact h₁ n hn hv
      · exact hocc₁ hv
    refine ⟨⟨h.slots, set_absent (n := { Node.empty with key }) h₂ rfl _⟩, ?_⟩
    rintro idx ⟨⟩ n hn
    rw [getElem?_set_key hn]

/-- What is given is stored only where the store succeeds. -/
theorem rawSetWith (h : t.Entries K P) (hK : KeySet K) {onFull : Table → LuaError → Option (TableResult ℕ)}
    {r : TableResult ℕ} (hgiven : ∀ d, r.2 = .ok d → K key ∧ P value)
    (hfull : ∀ u e, u.Entries K P → onFull u e = some r → r.1.Entries K P)
    (hset : Table.rawSetWith onFull t key value strings = some r) : r.1.Entries K P := by
  rw [Table.rawSetWith.eq_def] at hset
  split at hset
  · cases hset
    exact h
  split at hset
  · cases hset
    exact h
  split at hset
  · cases hset
    exact h.setArray (hgiven _ rfl).2 _
  simp only [bind, Option.bind_eq_some_iff] at hset
  obtain ⟨⟨u, found⟩, hup, hset⟩ := hset
  dsimp only at hset
  split at hset
  · next hfound =>
    cases hset
    exact h.updateExisting hK (fun _ => hgiven _ rfl) hup
  next hfound =>
  have hu := h.updateExisting hK (fun hf => absurd hf hfound) hup
  split at hset
  · cases hset
    exact hu
  split at hset
  · cases hset
    refine ⟨fun v hmem => ?_, hu.nodes⟩
    rcases List.mem_append.mp hmem with hmem | hmem
    · exact hu.slots v hmem
    · rw [List.mem_singleton.mp hmem]
      exact (hgiven _ rfl).2
  split at hset
  · cases hset
    exact hu.insertFirst fun _ => hgiven _ rfl
  next hfirst =>
  have hw : (u.insertFirstHashNode key value strings).1.Entries K P := hu.insertFirst fun hf => absurd hf hfirst
  simp only [Option.bind_eq_some_iff] at hset
  obtain ⟨⟨w, e | idx⟩, hnew, hset⟩ := hset
  · exact hfull _ _ (hw.newKey hK hnew).1 hset
  · cases hset
    obtain ⟨hw', hidx⟩ := hw.newKey hK hnew
    refine hw'.setValue (hgiven _ rfl).2 fun n hn => ?_
    rw [hidx idx rfl n hn]
    exact (hgiven _ rfl).1

theorem rawSetNoRehash (h : t.Entries K P) (hK : KeySet K) {r : TableResult ℕ}
    (hgiven : ∀ d, r.2 = .ok d → K key ∧ P value) (hset : t.rawSetNoRehash key value strings = some r) :
    r.1.Entries K P :=
  h.rawSetWith hK hgiven (fun u e hu hr => by cases hr; exact hu) hset

/-! ### Rehash -/

theorem moveDisplaced (hK : KeySet K) : ∀ {idxs : List ℕ} {t : Table} {r : TableResult Unit}, t.Entries K P →
    Table.moveDisplaced strings idxs t = some r → r.1.Entries K P
  | [], t, r, h, hmove => by
    cases hmove
    exact h
  | i :: idxs, t, r, h, hmove => by
    simp only [Table.moveDisplaced, bind, Option.bind_eq_some_iff] at hmove
    obtain ⟨val, hval, hmove⟩ := hmove
    split at hmove
    · exact moveDisplaced hK h hmove
    · simp only [Option.bind_eq_some_iff] at hmove
      obtain ⟨⟨u, e | idx⟩, hnew, hmove⟩ := hmove
      · cases hmove
        exact (h.newKey hK hnew).1
      · obtain ⟨hu, hidx⟩ := h.newKey hK hnew
        -- a slot moves under its number
        refine moveDisplaced hK (hu.setValue (h.slots val (List.mem_of_getElem? hval)) fun n hn => ?_) hmove
        rw [hidx idx rfl n hn]
        exact hK.num _

/-- The old nodes are inserted again under the keys they had; a node without a value is left out. -/
theorem reinsert (hK : KeySet K) : ∀ {nodes : List Node} {t : Table} {r : TableResult Unit}, t.Entries K P →
    (∀ n ∈ nodes, n.value ≠ .nil → K n.key ∧ P n.value) → Table.reinsert strings nodes t = some r → r.1.Entries K P
  | [], t, r, h, _, hins => by
    cases hins
    exact h
  | n :: nodes, t, r, h, hnodes, hins => by
    have hrest : ∀ m ∈ nodes, m.value ≠ .nil → K m.key ∧ P m.value := fun m hm => hnodes m (List.mem_cons_of_mem _ hm)
    rw [Table.reinsert] at hins
    split at hins
    · exact reinsert hK h hrest hins
    · next hskip =>
      have hentry : K n.key ∧ P n.value := by
        refine hnodes n (List.mem_cons_self ..) fun hv => hskip ?_
        simp [hv]
      simp only [bind, Option.bind_eq_some_iff] at hins
      obtain ⟨⟨u, e | d⟩, hset, hins⟩ := hins
      · cases hins
        exact h.rawSetNoRehash hK (fun _ _ => hentry) hset
      · exact reinsert hK (h.rawSetNoRehash hK (fun _ _ => hentry) hset) hrest hins

theorem withHashPart (hslots : ∀ v ∈ t.array, P v) {room : ℕ} (hpart : t.withHashPart room = some u) :
    u.Entries K P := by
  rw [Table.withHashPart] at hpart
  split at hpart
  · cases hpart
    exact ⟨hslots, fun n hn => by simp at hn⟩
  · dsimp only at hpart
    split at hpart
    · cases hpart
    · cases hpart
      refine ⟨hslots, fun n hn hv => ?_⟩
      rw [(List.mem_replicate.mp hn).2] at hv
      exact absurd rfl hv

theorem ensureArrayCapacity (h : t.Entries K P) (hnil : P .nil) (minSize : ℕ) :
    (t.ensureArrayCapacity minSize).Entries K P := by
  refine ⟨fun v hv => ?_, h.nodes⟩
  rcases List.mem_append.mp hv with hv | hv
  · exact h.slots v hv
  · rw [(List.mem_replicate.mp hv).2]
    exact hnil

theorem rehash (h : t.Entries K P) (hK : KeySet K) (hnil : P .nil) {r : TableResult Unit}
    (hre : t.rehash key strings = some r) : r.1.Entries K P := by
  simp only [Table.rehash, resize, bind] at hre
  split at hre
  · cases hre
  have hgrown := fun size => h.ensureArrayCapacity hnil size
  split at hre
  · cases hre
    exact hgrown _
  next u hu =>
  have huE : u.Entries K P := withHashPart (hgrown _).slots hu
  simp only [Option.bind_eq_some_iff] at hre
  obtain ⟨⟨w, e | _⟩, hmove, hre⟩ := hre
  · cases hre
    exact moveDisplaced hK huE hmove
  · have hw : w.Entries K P := moveDisplaced hK huE hmove
    refine reinsert hK ?_ (fun n hn => h.nodes n (List.mem_reverse.mp hn)) hre
    split
    · exact ⟨fun v hv => hw.slots v (List.mem_of_mem_take hv), hw.nodes⟩
    · exact hw

/-! ### Assignment -/

theorem rawSetImpl (h : t.Entries K P) (hK : KeySet K) (hnil : P .nil) {r : TableResult ℕ}
    (hgiven : ∀ d, r.2 = .ok d → K key ∧ P value) (hset : t.rawSetImpl key value strings = some r) :
    r.1.Entries K P := by
  refine h.rawSetWith hK hgiven (fun u e hu hfull => ?_) hset
  simp only [bind, Option.bind_eq_some_iff] at hfull
  obtain ⟨⟨w, e | _⟩, hre, hfull⟩ := hfull
  · cases hfull
    exact hu.rehash hK hnil hre
  · have hw : w.Entries K P := hu.rehash hK hnil hre
    simp only [Option.bind_eq_some_iff] at hfull
    obtain ⟨⟨x, e | d⟩, hagain, hfull⟩ := hfull
    · cases hfull
      exact hw.rawSetNoRehash hK (fun d hd => by cases hd) hagain
    · have hx : x.Entries K P := by
        refine hw.rawSetNoRehash hK (fun _ _ => ?_) hagain
        cases hfull
        exact hgiven _ rfl
      cases hfull
      exact hx

/-- After a store the entries have keys and values that were there before, numbers as keys, or what was given. -/
theorem rawSetWithMemoryDelta (h : t.Entries K P) (hK : KeySet K) (hnil : P .nil) {r : TableResult ℕ}
    (hgiven : ∀ d, r.2 = .ok d → K key ∧ P value) (hset : t.rawSetWithMemoryDelta key value strings = some r) :
    r.1.Entries K P := by
  rw [Table.rawSetWithMemoryDelta] at hset
  split at hset
  · cases hset
    exact h
  · dsimp only at hset
    split at hset
    · exact rawSetImpl (t := { t with flags := 0 }) ⟨h.slots, h.nodes⟩ hK hnil hgiven hset
    · exact h.rawSetImpl hK hnil hgiven hset

end Entries

/-- What is in `t'` was in `t`, or is nil or a number, or is one of the keys and values given. -/
structure Fills (t : Table) (keys values : List Val) (t' : Table) : Prop where
  metatable_eq : t'.metatable = t.metatable
  entries : ∀ K P : Val → Prop, KeySet K → P .nil → (∀ k ∈ keys, K k) → (∀ v ∈ values, P v) → t.Entries K P →
    t'.Entries K P

namespace Fills

variable {keys values : List Val}

theorem metatable_of_rawSet {res : Except LuaError ℕ}
    (hset : t.rawSetWithMemoryDelta key value strings = some (t', res)) : t'.metatable = t.metatable := by
  have hraw : ∃ r, t.rawSet key value strings = some (t', r) := by
    cases res <;> simp [rawSet, hset]
  obtain ⟨r, hraw⟩ := hraw
  exact (SameShell.rawSet hraw).metatable_eq

/-- A store that fails rearranges the table. -/
theorem of_error {e : LuaError} (hset : t.rawSetWithMemoryDelta key value strings = some (t', .error e)) :
    t.Fills [] [] t' :=
  ⟨metatable_of_rawSet hset, fun _ _ hK hnil _ _ h => h.rawSetWithMemoryDelta hK hnil (fun _ hd => by cases hd) hset⟩

theorem of_ok {delta : ℕ} (hset : t.rawSetWithMemoryDelta key value strings = some (t', .ok delta)) :
    key ≠ .nil ∧ t.Fills [key] [value] t' := by
  refine ⟨?_, metatable_of_rawSet hset, fun _ _ hK hnil hk hv h => h.rawSetWithMemoryDelta hK hnil
    (fun _ _ => ⟨hk key (List.mem_singleton_self _), hv value (List.mem_singleton_self _)⟩) hset⟩
  rintro rfl
  rw [rawSetWithMemoryDelta] at hset
  split at hset
  · cases hset
  · cases hset

theorem rawSet_error {e : LuaError} (hset : t.rawSet key value strings = some (t', .error e)) : t.Fills [] [] t' := by
  simp only [rawSet, bind, Option.bind_eq_some_iff] at hset
  obtain ⟨⟨u, e' | d⟩, hset, hr⟩ := hset <;> cases hr
  exact of_error hset

theorem rawSet_ok (hset : t.rawSet key value strings = some (t', .ok ())) : key ≠ .nil ∧ t.Fills [key] [value] t' := by
  simp only [rawSet, bind, Option.bind_eq_some_iff] at hset
  obtain ⟨⟨u, e' | d⟩, hset, hr⟩ := hset <;> cases hr
  exact of_ok hset

theorem ensureArrayCapacity (t : Table) (minSize : ℕ) : t.Fills [] [] (t.ensureArrayCapacity minSize) :=
  ⟨rfl, fun _ _ _ hnil _ _ h => h.ensureArrayCapacity hnil minSize⟩

theorem setArraySlots : ∀ (values : List Val) (t : Table) (idx : ℕ), t.Fills [] values (t.setArraySlots idx values)
  | [], _, _ => ⟨rfl, fun _ _ _ _ _ _ h => h⟩
  | v :: values, t, idx =>
    have hrest := setArraySlots values (t.setArray idx v) (idx + 1)
    ⟨hrest.metatable_eq, fun K P hK hnil hk hv h => hrest.entries K P hK hnil hk
      (fun w hw => hv w (List.mem_cons_of_mem _ hw)) (h.setArray (hv v (List.mem_cons_self ..)) idx)⟩

end Fills

end Table

end Rilua.Vm
