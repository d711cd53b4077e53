import Rilua.Vm.TableBuilt

/-! What the values in a table have in common. Whatever an operation does to the structure of a table, the values in
    it afterwards were in it before, or are nil, or are what the operation was given to store; and whatever a read
    returns is a value in the table, or nil. -/

namespace Rilua.Vm

open Lib Gc

namespace Table

/-- All values in the array part and in the nodes satisfy `P`. -/
structure Holds (P : Val → Prop) (t : Table) : Prop where
  slots : ∀ v ∈ t.array, P v
  nodes : ∀ n ∈ t.nodes, P n.value

variable {P Q : Val → Prop} {strings : StringArena} {t t' u : Table} {key value v : Val}

theorem holds_new : Holds P {} := ⟨by simp, by simp⟩

/-- Changing a node keeps the property if the change does. -/
theorem modifyNode {nodes : List Node} (h : ∀ n ∈ nodes, P n.value) {f : Node → Node}
    (hf : ∀ n, P n.value → P (f n).value) (idx : ℕ) : ∀ n ∈ nodes.modify idx f, P n.value := by
  intro n hn
  obtain ⟨i, hi⟩ := NodesInv.exists_index hn
  rw [List.getElem?_modify] at hi
  obtain ⟨m, hm, rfl⟩ := Option.map_eq_some_iff.mp hi
  have hP := h m (List.mem_of_getElem? hm)
  split
  · exact hf m hP
  · exact hP

theorem setNode {nodes : List Node} (h : ∀ n ∈ nodes, P n.value) {n : Node} (hn : P n.value) (idx : ℕ) :
    ∀ m ∈ nodes.set idx n, P m.value := by
  intro m hm
  rcases List.mem_or_eq_of_mem_set hm with hm | rfl
  · exact h m hm
  · exact hn

namespace Holds

theorem mono (h : t.Holds P) (hPQ : ∀ v, P v → Q v) : t.Holds Q :=
  ⟨fun v hv => hPQ v (h.slots v hv), fun n hn => hPQ _ (h.nodes n hn)⟩

/-! ### Stores -/

theorem setArray (h : t.Holds P) (hv : P value) (idx : ℕ) : (t.setArray idx value).Holds P := by
  refine ⟨fun v hmem => ?_, h.nodes⟩
  rcases List.mem_or_eq_of_mem_set hmem with hmem | rfl
  · exact h.slots v hmem
  · exact hv

theorem setValue (h : t.Holds P) (hv : P value) (idx : ℕ) : (t.setValue idx value).Holds P :=
  ⟨h.slots, modifyNode h.nodes (fun _ _ => hv) idx⟩

theorem updateExisting (h : t.Holds P) (hv : P value) {found : Bool}
    (hup : t.updateExistingHashSlot key value strings = some (t', found)) : t'.Holds P := by
  rw [updateExistingHashSlot] at hup
  split at hup
  · cases hup
    exact h
  · simp only [bind, Option.bind_eq_some_iff] at hup
    obtain ⟨_ | i, -, hup⟩ := hup
    · cases hup
      exact h
    · cases hup
      exact h.setValue hv i

theorem append (h : t.Holds P) (hv : P value) : Holds P { t with array := t.array ++ [value] } := by
  refine ⟨fun v hmem => ?_, h.nodes⟩
  rcases List.mem_append.mp hmem with hmem | hmem
  · exact h.slots v hmem
  · rw [List.mem_singleton.mp hmem]
    exact hv

theorem insertFirst (h : t.Holds P) (hnil : P .nil) (hv : P value) :
    (t.insertFirstHashNode key value strings).1.Holds P := by
  rw [insertFirstHashNode]
  split
  · exact h
  · have hempty : Holds P { t with nodes := [Node.empty, Node.empty], lastFree := 2, log2Size := 1 } := by
      refine ⟨h.slots, fun n hn => ?_⟩
      obtain rfl : n = Node.empty := by simpa using hn
      exact hnil
    exact ⟨h.slots, modifyNode hempty.nodes (fun _ _ => hv) _⟩

/-- A new key has no value yet. -/
theorem newKey (h : t.Holds P) (hnil : P .nil) {r : Except LuaError ℕ} (hnew : t.newKey key strings = some (t', r)) :
    t'.Holds P := by
  rw [Table.newKey] at hnew
  split at hnew
  · cases hnew
    exact h
  simp only [bind, Option.bind_eq_some_iff] at hnew
  obtain ⟨occupant, hocc, hnew⟩ := hnew
  have hoccP := h.nodes occupant (List.mem_of_getElem? hocc)
  split at hnew
  · cases hnew
    exact ⟨h.slots, setNode (n := { occupant with key }) h.nodes hoccP _⟩
  split at hnew
  · cases hnew
    exact ⟨h.slots, setNode (n := { occupant with key }) h.nodes hoccP _⟩
  simp only [Option.bind_eq_some_iff] at hnew
  obtain ⟨⟨lastFree, _ | free⟩, -, hnew⟩ := hnew
  · cases hnew
    exact ⟨h.slots, h.nodes⟩
  dsimp only at hnew
  split at hnew
  · cases hnew
    have h₁ := modifyNode (f := fun n => { n with next := occupant.next }) h.nodes (fun _ hn => hn) free
    have h₂ := modifyNode (f := fun n => { n with next := some free }) h₁ (fun _ hn => hn) (t.mainPosition key strings)
    exact ⟨h.slots, modifyNode (f := fun n => { n with key }) h₂ (fun _ hn => hn) free⟩
  · simp only [Option.bind_eq_some_iff] at hnew
    obtain ⟨prev, -, occ, hocc', hnew⟩ := hnew
    cases hnew
    have h₁ := modifyNode (f := fun n => { n with next := some free }) h.nodes (fun _ hn => hn) prev
    have h₂ := setNode h₁ (h₁ occ (List.mem_of_getElem? hocc')) free
    exact ⟨h.slots, setNode (n := { Node.empty with key }) h₂ hnil _⟩

theorem rawSetWith (h : t.Holds P) (hnil : P .nil) (hv : P value)
    {onFull : Table → LuaError → Option (TableResult ℕ)}
    (hfull : ∀ u e r, u.Holds P → onFull u e = some r → r.1.Holds P) {r : TableResult ℕ}
    (hset : Table.rawSetWith onFull t key value strings = some r) : r.1.Holds P := by
  rw [Table.rawSetWith.eq_def] at hset
  split at hset
  · cases hset
    exact h
  split at hset
  · cases hset
    exact h
  split at hset
  · cases hset
    exact h.setArray hv _
  simp only [bind, Option.bind_eq_some_iff] at hset
  obtain ⟨⟨u, found⟩, hup, hset⟩ := hset
  have hu := h.updateExisting hv hup
  dsimp only at hset
  split at hset
  · cases hset
    exact hu
  split at hset
  · cases hset
    exact hu
  split at hset
  · cases hset
    exact hu.append hv
  have hfirst : (u.insertFirstHashNode key value strings).1.Holds P := hu.insertFirst hnil hv
  split at hset
  · cases hset
    exact hfirst
  simp only [Option.bind_eq_some_iff] at hset
  obtain ⟨⟨w, e | idx⟩, hnew, hset⟩ := hset
  · exact hfull _ _ _ (hfirst.newKey hnil hnew) hset
  · cases hset
    exact (hfirst.newKey hnil hnew).setValue hv idx

theorem rawSetNoRehash (h : t.Holds P) (hnil : P .nil) (hv : P value) {r : TableResult ℕ}
    (hset : t.rawSetNoRehash key value strings = some r) : r.1.Holds P :=
  h.rawSetWith hnil hv (fun u e r hu hr => by cases hr; exact hu) hset

/-! ### Rehash -/

theorem moveDisplaced (hnil : P .nil) : ∀ {idxs : List ℕ} {t : Table} {r : TableResult Unit}, t.Holds P →
    Table.moveDisplaced strings idxs t = some r → r.1.Holds P
  | [], t, r, h, hmove => by
    cases hmove
    exact h
  | i :: idxs, t, r, h, hmove => by
    simp only [Table.moveDisplaced, bind, Option.bind_eq_some_iff] at hmove
    obtain ⟨val, hval, hmove⟩ := hmove
    split at hmove
    · exact moveDisplaced hnil h hmove
    · simp only [Option.bind_eq_some_iff] at hmove
      obtain ⟨⟨u, e | idx⟩, hnew, hmove⟩ := hmove
      · cases hmove
        exact h.newKey hnil hnew
      · exact moveDisplaced hnil ((h.newKey hnil hnew).setValue (h.slots val (List.mem_of_getElem? hval)) idx) hmove

theorem reinsert (hnil : P .nil) : ∀ {nodes : List Node} {t : Table} {r : TableResult Unit}, t.Holds P →
    (∀ n ∈ nodes, P n.value) → Table.reinsert strings nodes t = some r → r.1.Holds P
  | [], t, r, h, _, hins => by
    cases hins
    exact h
  | n :: nodes, t, r, h, hnodes, hins => by
    have hrest : ∀ m ∈ nodes, P m.value := fun m hm => hnodes m (List.mem_cons_of_mem _ hm)
    rw [Table.reinsert] at hins
    split at hins
    · exact reinsert hnil h hrest hins
    · simp only [bind, Option.bind_eq_some_iff] at hins
      obtain ⟨⟨u, e | d⟩, hset, hins⟩ := hins
      · cases hins
        exact h.rawSetNoRehash hnil (hnodes n (List.mem_cons_self ..)) hset
      · exact reinsert hnil (h.rawSetNoRehash hnil (hnodes n (List.mem_cons_self ..)) hset) hrest hins

theorem withHashPart (h : t.Holds P) (hnil : P .nil) {room : ℕ} (hpart : t.withHashPart room = some u) : u.Holds P := by
  rw [Table.withHashPart] at hpart
  split at hpart
  · cases hpart
    exact ⟨h.slots, by simp⟩
  · dsimp only at hpart
    split at hpart
    · cases hpart
    · cases hpart
      refine ⟨h.slots, fun n hn => ?_⟩
      rw [(List.mem_replicate.mp hn).2]
      exact hnil

theorem ensureArrayCapacity (h : t.Holds P) (hnil : P .nil) (minSize : ℕ) : (t.ensureArrayCapacity minSize).Holds P := by
  refine ⟨fun v hv => ?_, h.nodes⟩
  rcases List.mem_append.mp hv with hv | hv
  · exact h.slots v hv
  · rw [(List.mem_replicate.mp hv).2]
    exact hnil

theorem rehash (h : t.Holds P) (hnil : P .nil) {r : TableResult Unit} (hre : t.rehash key strings = some r) :
    r.1.Holds P := by
  simp only [Table.rehash, resize, bind] at hre
  split at hre
  · cases hre
  have hgrown := fun size => h.ensureArrayCapacity hnil size
  split at hre
  · cases hre
    exact hgrown _
  next u hu =>
  have huP : u.Holds P := (hgrown _).withHashPart hnil hu
  simp only [Option.bind_eq_some_iff] at hre
  obtain ⟨⟨w, e | _⟩, hmove, hre⟩ := hre
  · cases hre
    exact moveDisplaced hnil huP hmove
  · have hw : w.Holds P := moveDisplaced hnil huP hmove
    refine reinsert hnil ?_ (fun n hn => h.nodes n (List.mem_reverse.mp hn)) hre
    split
    · exact ⟨fun v hv => hw.slots v (List.mem_of_mem_take hv), hw.nodes⟩
    · exact hw

/-! ### Assignment -/

theorem rawSetImpl (h : t.Holds P) (hnil : P .nil) (hv : P value) {r : TableResult ℕ}
    (hset : t.rawSetImpl key value strings = some r) : r.1.Holds P := by
  refine h.rawSetWith hnil hv (fun u e r hu hfull => ?_) hset
  simp only [bind, Option.bind_eq_some_iff] at hfull
  obtain ⟨⟨w, e | _⟩, hre, hfull⟩ := hfull
  · cases hfull
    exact hu.rehash hnil hre
  · have hw : w.Holds P := hu.rehash hnil hre
    simp only [Option.bind_eq_some_iff] at hfull
    obtain ⟨⟨x, e | d⟩, hagain, hfull⟩ := hfull
    · cases hfull
      exact hw.rawSetNoRehash hnil hv hagain
    · have hx : x.Holds P := hw.rawSetNoRehash hnil hv hagain
      cases hfull
      exact hx

theorem rawSetWithMemoryDelta (h : t.Holds P) (hnil : P .nil) (hv : P value) {r : TableResult ℕ}
    (hset : t.rawSetWithMemoryDelta key value strings = some r) : r.1.Holds P := by
  rw [Table.rawSetWithMemoryDelta] at hset
  split at hset
  · cases hset
    exact h
  · dsimp only at hset
    split at hset
    · exact Holds.rawSetImpl (t := { t with flags := 0 }) ⟨h.slots, h.nodes⟩ hnil hv hset
    · exact h.rawSetImpl hnil hv hset

theorem rawSet (h : t.Holds P) (hnil : P .nil) (hv : P value) {r : TableResult Unit}
    (hset : t.rawSet key value strings = some r) : r.1.Holds P := by
  simp only [Table.rawSet, bind, Option.bind_eq_some_iff] at hset
  obtain ⟨⟨u, e | d⟩, hset, hr⟩ := hset
  · cases hr
    exact h.rawSetWithMemoryDelta hnil hv hset
  · cases hr
    exact h.rawSetWithMemoryDelta hnil hv hset

/-! ### Stores that do not look at the key's type -/

theorem setArraySlots : ∀ {values : List Val} {t : Table} (idx : ℕ), t.Holds P → (∀ v ∈ values, P v) →
    (t.setArraySlots idx values).Holds P
  | [], _, _, h, _ => h
  | v :: _, _, idx, h, hvs =>
    setArraySlots (idx + 1) (h.setArray (hvs v (List.mem_cons_self ..)) idx)
      fun w hw => hvs w (List.mem_cons_of_mem _ hw)

theorem getD_array (h : t.Holds P) (hnil : P .nil) (i : ℕ) : P (t.array.getD i .nil) := by
  rw [List.getD_eq_getElem?_getD]
  cases hv : t.array[i]? with
  | none => exact hnil
  | some v => exact h.slots v (List.mem_of_getElem? hv)

/-- Swapped slots hold what was in the array part. -/
theorem swapArrayInts (h : t.Holds P) (hnil : P .nil) {left right : ℤ} (hswap : t.swapArrayInts left right = some t') :
    t'.Holds P := by
  simp only [Table.swapArrayInts, bind, Option.bind_eq_some_iff] at hswap
  obtain ⟨i, -, j, -, hswap⟩ := hswap
  cases hswap
  exact (h.setArray (h.getD_array hnil j) i).setArray (h.getD_array hnil i) j

theorem setIntExisting (h : t.Holds P) (hv : P value) {k : ℤ} {found : Bool}
    (hset : t.setIntExisting k value = some (t', found)) : t'.Holds P := by
  rw [Table.setIntExisting] at hset
  split at hset
  · cases hset
    exact h.setArray hv _
  split at hset
  · cases hset
    exact h
  simp only [bind, Option.bind_eq_some_iff] at hset
  obtain ⟨_ | i, -, hset⟩ := hset
  · cases hset
    exact h
  · cases hset
    exact h.setValue hv i

theorem nilArrayEntry (h : t.Holds P) (hnil : P .nil) (idx : ℕ) : (t.nilArrayEntry idx).Holds P := by
  rw [Table.nilArrayEntry]
  split
  · exact h.setArray hnil idx
  · exact h

theorem nilHashEntries (hnil : P .nil) : ∀ (indices : List ℕ) {t : Table}, t.Holds P → (t.nilHashEntries indices).Holds P
  | [], _, h => h
  | idx :: indices, t, h => by
    rw [Table.nilHashEntries, List.foldl_cons]
    split
    · exact nilHashEntries hnil indices (h.setValue hnil idx)
    · exact nilHashEntries hnil indices h

/-! ### Reads -/

theorem chainValue (h : t.Holds P) (hnil : P .nil) {test : Val → Bool} {mp : ℕ} (hget : t.chainValue test mp = some v) :
    P v := by
  simp only [Table.chainValue, bind, Option.bind_eq_some_iff] at hget
  obtain ⟨_ | i, -, hget⟩ := hget
  · cases hget
    exact hnil
  · obtain ⟨n, hn, hget⟩ := Option.bind_eq_some_iff.mp hget
    cases hget
    exact h.nodes n (List.mem_of_getElem? hn)

theorem getInt (h : t.Holds P) (hnil : P .nil) {k : ℤ} (hget : t.getInt k = some v) : P v := by
  rw [Table.getInt] at hget
  split at hget
  · exact h.slots v (List.mem_of_getElem? hget)
  split at hget
  · cases hget
    exact hnil
  · exact h.chainValue hnil hget

theorem getStr (h : t.Holds P) (hnil : P .nil) {r : GcRef .string} (hget : t.getStr r strings = some v) : P v := by
  rw [Table.getStr] at hget
  split at hget
  · cases hget
    exact hnil
  split at hget
  · cases hget
    exact hnil
  · rw [getStrHashed] at hget
    split at hget
    · cases hget
      exact hnil
    · exact h.chainValue hnil hget

theorem getHash (h : t.Holds P) (hnil : P .nil) (hget : t.getHash key strings = some v) : P v := by
  rw [Table.getHash] at hget
  split at hget
  · cases hget
    exact hnil
  · exact h.chainValue hnil hget

theorem get (h : t.Holds P) (hnil : P .nil) (hget : t.get key strings = some v) : P v := by
  rw [Table.get.eq_def] at hget
  split at hget
  · cases hget
    exact hnil
  · exact h.getStr hnil hget
  · split at hget
    · exact h.getInt hnil hget
    · exact h.getHash hnil hget
  · exact h.getHash hnil hget

theorem next (h : t.Holds P) (hnil : P .nil) {k : Val} (hnext : t.next key strings = some (.ok (some (k, v)))) : P v := by
  simp only [Table.next, bind, Option.bind_eq_some_iff] at hnext
  obtain ⟨_ | idx, -, hnext⟩ := hnext
  · cases hnext
  dsimp only at hnext
  split at hnext
  · next entry hslot =>
    obtain ⟨i, -, rfl⟩ := Option.map_eq_some_iff.mp hslot
    cases hnext
    exact h.getD_array hnil i
  · simp only [Option.some.injEq, Except.ok.injEq] at hnext
    obtain ⟨i, -, hentry⟩ := Option.map_eq_some_iff.mp hnext
    cases hentry
    rw [List.getD_eq_getElem?_getD]
    cases hn : t.nodes[i]? with
    | none => exact hnil
    | some n => exact h.nodes n (List.mem_of_getElem? hn)

end Holds

end Table

end Rilua.Vm
