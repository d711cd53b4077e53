import Rilua.Lib.Rounding
import Rilua.Vm.TableHolds

/-! Sequences in tables: what is at 1 to `n`, as a list. An assignment leaves the metatable and the protection of the
    table alone, and is refused only where it adds a key to a table that has no room for one more. -/

namespace Rilua.Vm

open Lib Gc

namespace Table

variable {strings : StringArena} {t t' u : Table} {key value : Val}

/-! ### What assignments leave alone -/

/-- The tables have the same metatable and protection. -/
structure SameShell (t t' : Table) : Prop where
  metatable_eq : t'.metatable = t.metatable
  readOnly_eq : t'.readOnly = t.readOnly

namespace SameShell

theorem refl (t : Table) : SameShell t t := ⟨rfl, rfl⟩

theorem trans (h : SameShell t t') (h' : SameShell t' u) : SameShell t u :=
  ⟨h'.metatable_eq.trans h.metatable_eq, h'.readOnly_eq.trans h.readOnly_eq⟩

theorem newKey {r : Except LuaError ℕ} (hnew : t.newKey key strings = some (t', r)) : SameShell t t' := by
  rw [Table.newKey] at hnew
  split at hnew
  · cases hnew
    exact .refl t
  simp only [bind, Option.bind_eq_some_iff] at hnew
  obtain ⟨occupant, -, hnew⟩ := hnew
  split at hnew
  · cases hnew
    exact ⟨rfl, rfl⟩
  split at hnew
  · cases hnew
    exact ⟨rfl, rfl⟩
  simp only [Option.bind_eq_some_iff] at hnew
  obtain ⟨⟨lastFree, _ | free⟩, -, hnew⟩ := hnew
  · cases hnew
    exact ⟨rfl, rfl⟩
  dsimp only at hnew
  split at hnew
  · cases hnew
    exact ⟨rfl, rfl⟩
  · simp only [Option.bind_eq_some_iff] at hnew
    obtain ⟨prev, -, occ, -, hnew⟩ := hnew
    cases hnew
    exact ⟨rfl, rfl⟩

theorem updateExisting {found : Bool} (hup : t.updateExistingHashSlot key value strings = some (t', found)) :
    SameShell t t' := by
  rw [updateExistingHashSlot] at hup
  split at hup
  · cases hup
    exact .refl t
  · simp only [bind, Option.bind_eq_some_iff] at hup
    obtain ⟨_ | i, -, hup⟩ := hup
    · cases hup
      exact .refl t
    · cases hup
      exact ⟨rfl, rfl⟩

theorem insertFirst : SameShell t (t.insertFirstHashNode key value strings).1 := by
  rw [insertFirstHashNode]
  split
  · exact .refl t
  · exact ⟨rfl, rfl⟩

theorem rawSetWith {onFull : Table → LuaError → Option (TableResult ℕ)}
    (hfull : ∀ u e r, SameShell t u → onFull u e = some r → SameShell t r.1) {r : TableResult ℕ}
    (hset : Table.rawSetWith onFull t key value strings = some r) : SameShell t r.1 := by
  rw [Table.rawSetWith.eq_def] at hset
  split at hset
  · cases hset
    exact .refl t
  split at hset
  · cases hset
    exact .refl t
  split at hset
  · cases hset
    exact ⟨rfl, rfl⟩
  simp only [bind, Option.bind_eq_some_iff] at hset
  obtain ⟨⟨u, found⟩, hup, hset⟩ := hset
  have hu := updateExisting hup
  dsimp only at hset
  split at hset
  · cases hset
    exact hu
  split at hset
  · cases hset
    exact hu
  split at hset
  · cases hset
    exact ⟨hu.metatable_eq, hu.readOnly_eq⟩
  have hfirst : SameShell t (u.insertFirstHashNode key value strings).1 := hu.trans insertFirst
  split at hset
  · cases hset
    exact hfirst
  simp only [Option.bind_eq_some_iff] at hset
  obtain ⟨⟨w, e | idx⟩, hnew, hset⟩ := hset
  · exact hfull _ _ _ (hfirst.trans (newKey hnew)) hset
  · have hw := hfirst.trans (newKey hnew)
    cases hset
    exact ⟨hw.metatable_eq, hw.readOnly_eq⟩

theorem rawSetNoRehash {r : TableResult ℕ} (hset : t.rawSetNoRehash key value strings = some r) : SameShell t r.1 :=
  rawSetWith (fun u e r hu hr => by cases hr; exact hu) hset

theorem moveDisplaced : ∀ {idxs : List ℕ} {t : Table} {r : TableResult Unit},
    Table.moveDisplaced strings idxs t = some r → SameShell t r.1
  | [], t, r, hmove => by
    cases hmove
    exact .refl t
  | i :: idxs, t, r, hmove => by
    simp only [Table.moveDisplaced, bind, Option.bind_eq_some_iff] at hmove
    obtain ⟨val, -, hmove⟩ := hmove
    split at hmove
    · exact moveDisplaced hmove
    · simp only [Option.bind_eq_some_iff] at hmove
      obtain ⟨⟨u, e | idx⟩, hnew, hmove⟩ := hmove
      · cases hmove
        exact newKey hnew
      · have hset : SameShell u (u.setValue idx val) := ⟨rfl, rfl⟩
        exact ((newKey hnew).trans hset).trans (moveDisplaced hmove)

theorem reinsert : ∀ {nodes : List Node} {t : Table} {r : TableResult Unit},
    Table.reinsert strings nodes t = some r → SameShell t r.1
  | [], t, r, hins => by
    cases hins
    exact .refl t
  | n :: nodes, t, r, hins => by
    rw [Table.reinsert] at hins
    split at hins
    · exact reinsert hins
    · simp only [bind, Option.bind_eq_some_iff] at hins
      obtain ⟨⟨u, e | d⟩, hset, hins⟩ := hins
      · cases hins
        exact rawSetNoRehash hset
      · exact (rawSetNoRehash hset).trans (reinsert hins)

theorem withHashPart {room : ℕ} (hpart : t.withHashPart room = some u) : SameShell t u := by
  rw [Table.withHashPart] at hpart
  split at hpart
  · cases hpart
    exact ⟨rfl, rfl⟩
  · dsimp only at hpart
    split at hpart
    · cases hpart
    · cases hpart
      exact ⟨rfl, rfl⟩

theorem rehash {r : TableResult Unit} (hre : t.rehash key strings = some r) : SameShell t r.1 := by
  simp only [Table.rehash, resize, bind] at hre
  split at hre
  · cases hre
  split at hre
  · cases hre
    exact ⟨rfl, rfl⟩
  next u hu =>
  have hpart := withHashPart hu
  have htu : SameShell t u := ⟨hpart.metatable_eq, hpart.readOnly_eq⟩
  simp only [Option.bind_eq_some_iff] at hre
  obtain ⟨⟨w, e | _⟩, hmove, hre⟩ := hre
  · cases hre
    exact htu.trans (moveDisplaced hmove)
  · have htw := htu.trans (moveDisplaced hmove)
    have hre' := reinsert hre
    refine htw.trans ⟨?_, ?_⟩
    · rw [hre'.metatable_eq]
      split <;> rfl
    · rw [hre'.readOnly_eq]
      split <;> rfl

theorem rawSetImpl {r : TableResult ℕ} (hset : t.rawSetImpl key value strings = some r) : SameShell t r.1 := by
  refine rawSetWith (fun u e r hu hfull => ?_) hset
  simp only [bind, Option.bind_eq_some_iff] at hfull
  obtain ⟨⟨w, e | _⟩, hre, hfull⟩ := hfull
  · cases hfull
    exact hu.trans (rehash hre)
  · have hw := hu.trans (rehash hre)
    simp only [Option.bind_eq_some_iff] at hfull
    obtain ⟨⟨x, e | d⟩, hagain, hfull⟩ := hfull
    · cases hfull
      exact hw.trans (rawSetNoRehash hagain)
    · have hx := hw.trans (rawSetNoRehash hagain)
      cases hfull
      exact hx

theorem rawSet {r : TableResult Unit} (hset : t.rawSet key value strings = some r) : SameShell t r.1 := by
  have hdelta : ∀ r : TableResult ℕ, t.rawSetWithMemoryDelta key value strings = some r → SameShell t r.1 := by
    intro r hset
    rw [Table.rawSetWithMemoryDelta] at hset
    split at hset
    · cases hset
      exact .refl t
    · dsimp only at hset
      split at hset
      · have hr := rawSetImpl hset
        exact ⟨hr.metatable_eq, hr.readOnly_eq⟩
      · exact rawSetImpl hset
  simp only [Table.rawSet, bind, Option.bind_eq_some_iff] at hset
  obtain ⟨⟨u, e | d⟩, hset, hr⟩ := hset
  · cases hr
    exact hdelta _ hset
  · cases hr
    exact hdelta _ hset

end SameShell

/-! ### Refused assignments -/

/-- Why an assignment to a table that is not protected is refused: the key is new and the table is full. -/
structure Full (t : Table) (key value : Val) (e : LuaError) : Prop where
  error_eq : e = ⟨"table overflow"⟩
  slots : maxASize ≤ t.array.length + t.nodes.length
  absent : t.lookup key = .nil
  value_ne : value ≠ .nil

theorem Inv.rawSetImpl_error (h : t.Inv strings) (hsmall : t.Small) (hk : key.Live strings) {e : LuaError}
    (hset : t.rawSetImpl key value strings = some (t', .error e)) : t.Full key value e := by
  rcases h.rawSetWith_spec hk value with ⟨u, d, hok, -⟩ | ⟨e', hfull, hocc, hslot, hvalue, habsent⟩
  · rw [rawSetImpl, hok] at hset
    cases hset
  · obtain ⟨u, r, hrehash, huinv, husmall, -, hroom, herror⟩ :=
      (h.exhaust hocc).rehash_spec ⟨hsmall.array_le, hsmall.nodes_le⟩ key
    rw [rawSetImpl, hfull] at hset
    simp only [hrehash, bind, Option.bind_some] at hset
    cases r with
    | error e' =>
      cases hset
      obtain ⟨rfl, hle⟩ := herror e rfl
      refine ⟨rfl, hle, ?_, hvalue⟩
      rw [lookup, hslot]
      exact NodesInv.findValue_of_absent habsent
    | ok _ =>
      rcases huinv.rawSetWith_spec hk value with ⟨v, d, hagain, -⟩ | ⟨e', -, hocc', hslot', -, -⟩
      · have hretry : u.rawSetNoRehash key value strings = some (v, .ok d) := hagain _
        simp only [hretry, Option.bind_some] at hset
        cases hset
      · have hroom' := hroom rfl
        rw [← slot_isSome_iff husmall.array_le, hslot'] at hroom'
        simp only [Option.isSome_none, Bool.false_eq_true, if_false] at hroom'
        omega

theorem Inv.withFlags (h : t.Inv strings) (flags : UInt8) : Inv strings { t with flags } :=
  ⟨h.nodes_inv, h.size, h.lastFree_le, h.scanned, h.array_le, h.shadow⟩

theorem Inv.rawSet_full (h : t.Inv strings) (hsmall : t.Small) (hro : t.readOnly = false) (hk : key.Live strings)
    {e : LuaError} (hset : t.rawSet key value strings = some (t', .error e)) : t.Full key value e := by
  simp only [rawSet, bind, Option.bind_eq_some_iff] at hset
  obtain ⟨⟨u, e' | d⟩, hdelta, hset⟩ := hset
  · cases hset
    rw [rawSetWithMemoryDelta, if_neg (by simp [hro])] at hdelta
    dsimp only at hdelta
    split at hdelta
    · have hfull := (h.withFlags 0).rawSetImpl_error ⟨hsmall.array_le, hsmall.nodes_le⟩ hk hdelta
      exact ⟨hfull.error_eq, hfull.slots, hfull.absent, hfull.value_ne⟩
    · exact h.rawSetImpl_error hsmall hk hdelta
  · cases hset

/-- An assignment to a table that is not protected succeeds, or is refused because the table is full. -/
theorem Inv.rawSet_cases (h : t.Inv strings) (hsmall : t.Small) (hro : t.readOnly = false) (hk : key.Live strings)
    (value : Val) : ∃ t' r, t.rawSet key value strings = some (t', r) ∧ SetOutcome strings t key value (t', r) ∧
      t'.readOnly = false ∧ (r = .ok () ∨ ∃ e, r = .error e ∧ t.Full key value e) := by
  obtain ⟨⟨t', r⟩, hset, hout⟩ := h.rawSet_spec hsmall hk.not_stale value
  refine ⟨t', r, hset, hout, (SameShell.rawSet hset).readOnly_eq.trans hro, ?_⟩
  cases r with
  | ok _ => exact .inl rfl
  | error e => exact .inr ⟨e, rfl, h.rawSet_full hsmall hro hk hset⟩

/-! ### Items -/

/-- The value at an integer. -/
def item (t : Table) (i : ℤ) : Val := t.lookup (.num (F64.ofInt i))

/-- The integers from 1 on that have a value are those up to `n`. -/
def IsSequence (t : Table) (n : ℕ) : Prop := ∀ i : ℕ, 0 < i → (t.item i ≠ .nil ↔ i ≤ n)

/-- The values at 1 to `n`. -/
def items (t : Table) (n : ℕ) : List Val := (List.range n).map fun i => t.item (i + 1 : ℕ)

/-- No integer from 1 on is equal to the key. -/
def NotPositive (key : Val) : Prop := ∀ i : ℕ, 0 < i → (Val.num (F64.ofInt i)).rawEq key = false

/-- The table `t'` has `f` at the integers from 1 on, and is `t` elsewhere. -/
structure Becomes (strings : StringArena) (t t' : Table) (f : ℕ → Val) : Prop where
  item_eq : ∀ i : ℕ, 0 < i → t'.item i = f i
  other : ∀ k, k.Live strings → NotPositive k → t'.lookup k = t.lookup k

theorem Becomes.refl (strings : StringArena) (t : Table) : Becomes strings t t fun i => t.item i :=
  ⟨fun _ _ => rfl, fun _ _ _ => rfl⟩

theorem Becomes.trans {f g : ℕ → Val} (h : Becomes strings t t' f) (h' : Becomes strings t' u g) :
    Becomes strings t u g :=
  ⟨h'.item_eq, fun k hk hpos => (h'.other k hk hpos).trans (h.other k hk hpos)⟩

theorem Becomes.congr {f g : ℕ → Val} (h : Becomes strings t t' f) (hfg : ∀ i, 0 < i → f i = g i) :
    Becomes strings t t' g :=
  ⟨fun i hi => (h.item_eq i hi).trans (hfg i hi), h.other⟩

/-- Assigning to an integer. -/
theorem SetOutcome.becomes {i : ℕ} (h0 : 0 < i) (hi : i < 2 ^ 53)
    (h : SetOutcome strings t (.num (F64.ofInt i)) value ((t', .ok ()) : TableResult Unit)) :
    Becomes strings t t' (Function.update (fun j => t.item j) i value) := by
  constructor
  · intro j _
    have hlookup := h.lookup_eq _ (live_ofInt j strings)
    have hbeq : (F64.ofInt (i : ℤ)).beq (F64.ofInt j) = true ↔ (i : ℤ) = j := F64.ofInt_beq_ofInt (by omega)
    rw [item, hlookup]
    by_cases hij : j = i
    · subst hij
      rw [if_pos ⟨rfl, hbeq.mpr rfl⟩, Function.update_self]
    · rw [if_neg fun hc => hij (by have := hbeq.mp hc.2; omega), Function.update_of_ne hij]
      rfl
  · intro k hk hpos
    rw [h.lookup_eq k hk, if_neg fun hc => ?_]
    rw [hpos i h0] at hc
    cases hc.2

/-- A refused assignment changes no value. -/
theorem SetOutcome.unchanged {e : LuaError} (h : SetOutcome strings t key value ((t', .error e) : TableResult Unit)) :
    ∀ k, k.Live strings → t'.lookup k = t.lookup k := fun k hk => by
  rw [h.lookup_eq k hk, if_neg fun hc => by cases hc.1]

/-! ### Sequences -/

/-- Behind the sequence there is nothing. -/
theorem IsSequence.item_eq_nil {n i : ℕ} (h : t.IsSequence n) (h0 : 0 < i) (hi : n < i) : t.item i = .nil := by
  by_contra hne
  exact absurd ((h i h0).mp hne) (by omega)

theorem IsSequence.congr {n : ℕ} (h : t.IsSequence n) (heq : ∀ k, k.Live strings → t'.lookup k = t.lookup k) :
    t'.IsSequence n := fun i hi => by
  rw [item, heq _ (live_ofInt i strings)]
  exact h i hi

theorem items_congr {n : ℕ} (heq : ∀ k, k.Live strings → t'.lookup k = t.lookup k) : t'.items n = t.items n :=
  List.map_congr_left fun _ _ => heq _ (live_ofInt _ strings)

/-- A sequence is no longer than the table. -/
theorem IsSequence.le {n : ℕ} (h : t.IsSequence n) (hinv : t.Inv strings) (hsmall : t.Small) :
    n ≤ t.array.length + t.nodes.length := by
  have hnum : t.array.length < 2 ^ 52 := hsmall.array_le.trans_lt (by decide)
  obtain ⟨k, hk, habsent⟩ := hinv.exists_absent hnum
  by_contra hlt
  have hpresent := (h (1 + k) (by omega)).mpr (by omega)
  rw [intPresent, Bool.not_eq_false', Val.isNil_eq_true] at habsent
  exact hpresent habsent

theorem IsSequence.lt {n : ℕ} (h : t.IsSequence n) (hinv : t.Inv strings) (hsmall : t.Small) : n < 2 ^ 52 := by
  have hle := h.le hinv hsmall
  have harray := hsmall.array_le
  have hnodes := hsmall.nodes_le
  have hmax : maxASize + maxASize < 2 ^ 52 := by decide
  omega

/-- The length of a sequence is found. -/
theorem IsSequence.len {n : ℕ} (h : t.IsSequence n) (hinv : t.Inv strings) (hsmall : t.Small) :
    t.len strings = some n := by
  obtain ⟨m, hlen, hborder⟩ := hinv.len_spec (hsmall.array_le.trans_lt (by decide))
  have hpresent : ∀ i : ℕ, 0 < i → (t.intPresent i = true ↔ i ≤ n) := by
    intro i hi
    rw [← h i hi, intPresent, Bool.not_eq_true', Val.isNil_eq_false]
    rfl
  have hle : m ≤ n := by
    rcases hborder.start_or_present with rfl | hm
    · exact Nat.zero_le n
    · rcases Nat.eq_zero_or_pos m with rfl | hpos
      · exact Nat.zero_le n
      · exact (hpresent m hpos).mp hm
  have hge : ¬ m + 1 ≤ n := by
    rw [← hpresent (m + 1) (Nat.succ_pos m), hborder.absent]
    exact Bool.false_ne_true
  rw [hlen]
  congr 1
  omega

end Table

end Rilua.Vm
