import Rilua.Vm.TableSizes

/-! A rehash changes the layout of a table and none of its values. Resizing moves the array entries above
    the new size and then all entries of the old hash part; the hash part it makes has room for them, so
    none of the moves fails, and the key that caused the rehash finds a slot or a free node. -/

namespace Rilua.Vm

open Lib Gc

namespace Table

variable {strings : StringArena} {t t' t'' : Table} {key value : Val}

/-- The table `t'` is `t` with the entries that have a value moved in. -/
structure Moved (strings : StringArena) (entries : List (Val × Val)) (t t' : Table) : Prop where
  inv : t'.Inv strings
  array_le : t.array.length ≤ t'.array.length
  small : t.Small → t'.Small
  lookup_moved : ∀ e ∈ entries, e.2 ≠ .nil → t'.lookup e.1 = e.2
  lookup_other : ∀ k, k.Live strings → (∀ e ∈ entries, e.2 ≠ .nil → e.1.rawEq k = false) →
    t'.lookup k = t.lookup k

namespace Moved

variable {entries : List (Val × Val)} {e : Val × Val}

theorem refl (h : t.Inv strings) : Moved strings [] t t :=
  ⟨h, Nat.le_refl _, id, fun _ he => absurd he (by simp), fun _ _ _ => rfl⟩

/-- An entry without a value is not moved. -/
theorem skip (h : Moved strings entries t t') (he : e.2 = .nil) : Moved strings (e :: entries) t t' := by
  obtain ⟨hinv, hle, hsmall, hmoved, hother⟩ := h
  refine ⟨hinv, hle, hsmall, fun e' he' hv => ?_, fun k hk hne => ?_⟩
  · rcases List.mem_cons.mp he' with rfl | he'
    · exact absurd he hv
    · exact hmoved e' he' hv
  · exact hother k hk fun e' he' => hne e' (List.mem_cons_of_mem _ he')

/-- Moving one entry, and then others with different keys. -/
theorem cons (ha : Assigned strings t t' e.1 e.2) (h : Moved strings entries t' t'')
    (hk : e.1.Live strings) (hv : e.2 ≠ .nil)
    (hne : ∀ e' ∈ entries, e'.2 ≠ .nil → e'.1.rawEq e.1 = false) :
    Moved strings (e :: entries) t t'' := by
  obtain ⟨hinv, hle, hsmall, hmoved, hother⟩ := h
  refine ⟨hinv, Nat.le_trans ha.array_le hle, fun hs => hsmall (ha.small hs), fun e' he' hv' => ?_, fun k hk' hne' => ?_⟩
  · rcases List.mem_cons.mp he' with rfl | he'
    · rw [hother e'.1 hk hne, ha.lookup_self]
    · exact hmoved e' he' hv'
  · rw [hother k hk' fun e' he' => hne' e' (List.mem_cons_of_mem _ he')]
    exact ha.lookup_other k hk' (hne' e (List.mem_cons_self ..) hv)

end Moved

/-! ### Integer keys and the array part -/

theorem lookup_int (hle : t.array.length ≤ maxVecLength) {i : ℕ} (hk : key.intKey = some (i + 1 : ℤ)) :
    t.lookup key = if i < t.array.length then t.array.getD i .nil else NodesInv.findValue t.nodes key := by
  rw [lookup]
  split
  · next idx hs =>
    obtain ⟨hk', hlt⟩ := (slot_eq_some hle).mp hs
    obtain rfl : idx = i := by
      rw [hk] at hk'
      simp only [Option.some.injEq] at hk'
      omega
    rw [if_pos hlt]
  · next hs =>
    rw [if_neg fun hlt => ?_]
    rw [(slot_eq_some hle).mpr ⟨hk, hlt⟩] at hs
    cases hs

theorem lookup_not_int (hle : t.array.length ≤ maxVecLength) (hk : ∀ i : ℕ, key.intKey ≠ some (i + 1 : ℤ)) :
    t.lookup key = NodesInv.findValue t.nodes key := by
  rw [lookup]
  split
  · next idx hs => exact absurd ((slot_eq_some hle).mp hs).1 (hk idx)
  · rfl

theorem fits_iff {size : ℕ} (hle : size ≤ maxASize) :
    fits size key = true ↔ ∃ i < size, key.intKey = some (i + 1 : ℤ) := by
  rw [fits, arrayKey]
  cases key.intKey with
  | none => simp
  | some k =>
    simp only [Option.bind_some, Option.some.injEq]
    split
    · simp only [Option.any_some, decide_eq_true_eq]
      refine ⟨fun h => ⟨k.toNat - 1, by omega, by omega⟩, ?_⟩
      rintro ⟨i, h1, h2⟩
      omega
    · simp only [Option.any_none, Bool.false_eq_true, false_iff]
      rintro ⟨i, h1, h2⟩
      omega

theorem fits_mono {size size' : ℕ} (h : size ≤ size') (hf : fits size key = true) :
    fits size' key = true := by
  rw [fits] at hf ⊢
  cases hk : arrayKey key with
  | none => rw [hk] at hf; cases hf
  | some k =>
    rw [hk] at hf
    simp only [Option.any_some, decide_eq_true_eq] at hf ⊢
    omega

theorem slot_isSome_iff (hle : t.array.length ≤ maxASize) :
    (t.slot key).isSome = fits t.array.length key := by
  rw [Bool.eq_iff_iff, fits_iff hle, Option.isSome_iff_exists]
  refine exists_congr fun i => ?_
  rw [slot_eq_some (hle.trans maxASize_le_maxVecLength)]
  exact and_comm

theorem slotKey_ne {i j : ℕ} (hi : i < 2 ^ 52) (hj : j < 2 ^ 52) (hne : i ≠ j) :
    (slotKey i).rawEq (slotKey j) = false := by
  refine Bool.eq_false_iff.mpr fun h => hne ?_
  have := intKey_congr h
  rw [intKey_slotKey hi, intKey_slotKey hj] at this
  simp only [Option.some.injEq] at this
  omega

/-! ### Moving the displaced array entries -/

/-- `new_key` does not look at the array part. -/
theorem newKey_array (t : Table) (array : List Val) (key : Val) (strings : StringArena) :
    ({ t with array } : Table).newKey key strings =
      (t.newKey key strings).map fun r => ({ r.1 with array }, r.2) := by
  have hpos : ∀ k, ({ t with array } : Table).mainPosition k strings = t.mainPosition k strings := fun _ => rfl
  simp only [newKey, hpos]
  split
  · rfl
  · cases t.nodes[t.mainPosition key strings]? with
    | none => rfl
    | some occupant =>
      simp only [bind, Option.bind_some]
      split
      · rfl
      · split
        · rfl
        · cases getFreePos t.nodes t.lastFree with
          | none => rfl
          | some r =>
            obtain ⟨lastFree, _ | free⟩ := r
            · rfl
            · simp only [Option.bind_some]
              split
              · rfl
              · cases predecessor t.nodes (t.mainPosition key strings) t.nodes.length
                  (t.mainPosition occupant.key strings) with
                | none => rfl
                | some prev =>
                  simp only [Option.bind_some]
                  cases (t.nodes.modify prev fun n => { n with next := some free })[t.mainPosition key strings]? <;> rfl

theorem newKey_array_eq {r : Except LuaError ℕ} (h : t.newKey key strings = some (t', r)) :
    t'.array = t.array := by
  have heq := newKey_array t t.array key strings
  rw [h] at heq
  have hpair : (t', r) = ({ t' with array := t.array }, r) := Option.some.inj heq
  rw [(Prod.mk.inj hpair).1]

/-- With a free node, a new key is inserted and given its value; no other key comes in. -/
theorem Inv.newKey_insert (h : t.Inv strings) (hk : key.Live strings) (hslot : t.slot key = none)
    (habs : ∀ n ∈ t.nodes, n.key.rawEq key = false) (hfree : occupied t.nodes < t.nodes.length)
    (value : Val) :
    ∃ t' idx, t.newKey key strings = some (t', .ok idx) ∧
      Assigned strings t (t'.setValue idx value) key value ∧
      ∀ n ∈ (t'.setValue idx value).nodes, n.key = key ∨ ∃ m ∈ t.nodes, m.key = n.key := by
  obtain ⟨r, hr, hspec⟩ := h.newKey_spec hk habs
  cases hspec with
  | full e hfull => omega
  | inserted nodes lastFree idx hins hle hscan =>
    refine ⟨_, _, hr, h.insert hk hslot hins hle hscan value, fun n hn => ?_⟩
    obtain ⟨i, hi⟩ := NodesInv.exists_index hn
    rw [setValue, List.getElem?_modify] at hi
    obtain ⟨m, hm, hmn⟩ := Option.map_eq_some_iff.mp hi
    have hkey : m.key = n.key := by rw [← hmn]; split <;> rfl
    rw [← hkey]
    rcases hins.origin m (NodesInv.mem hm) with ⟨hmk, -⟩ | ⟨o, ho, hok, -⟩
    · exact .inl hmk
    · exact .inr ⟨o, ho, hok⟩

/-- The array entries at `idxs` move to the hash part. The array itself is cut to `array` only after the
    loop, so the invariant is that of the table with the array already cut. -/
theorem moveDisplaced_spec {array : List Val} : ∀ {idxs : List ℕ} {t : Table} (c : ℕ),
    Inv strings { t with array } → idxs.Nodup → (∀ i ∈ idxs, array.length ≤ i ∧ i < t.array.length) →
    t.array.length ≤ maxASize → (∀ i ∈ idxs, ∀ n ∈ t.nodes, n.key.rawEq (slotKey i) = false) →
    occupied t.nodes + idxs.countP (fun i => !(t.array.getD i .nil).isNil) + c ≤ t.nodes.length →
    ∃ t', moveDisplaced strings idxs t = some (t', .ok ()) ∧ t'.array = t.array ∧
      occupied t'.nodes + c ≤ t'.nodes.length ∧
      Moved strings (idxs.map fun i => (slotKey i, t.array.getD i .nil)) { t with array } { t' with array }
  | [], t, c, hinv, _, _, _, _, hroom => ⟨t, rfl, rfl, by simpa using hroom, .refl hinv⟩
  | i :: idxs, t, c, hinv, hnd, hidx, hle, habs, hroom => by
    obtain ⟨hi, hnd⟩ := List.nodup_cons.mp hnd
    obtain ⟨hai, hit⟩ := hidx i (List.mem_cons_self ..)
    have hidx' : ∀ j ∈ idxs, array.length ≤ j ∧ j < t.array.length := fun j hj =>
      hidx j (List.mem_cons_of_mem _ hj)
    have hget : t.array[i]? = some (t.array.getD i .nil) := by
      simp [List.getElem?_eq_getElem hit]
    rw [moveDisplaced, hget]
    simp only [bind, Option.bind_some]
    rw [List.countP_cons] at hroom
    rcases Bool.eq_false_or_eq_true (t.array.getD i .nil).isNil with hv | hv
    · rw [if_pos hv]
      obtain ⟨t', heq, harr, hroom', hmoved⟩ := moveDisplaced_spec c hinv hnd hidx' hle
        (fun j hj => habs j (List.mem_cons_of_mem _ hj)) (by simp only [hv] at hroom; simpa using hroom)
      exact ⟨t', heq, harr, hroom', hmoved.skip (Val.isNil_eq_true.mp hv)⟩
    · simp only [hv, Bool.not_false, if_true] at hroom
      rw [if_neg (by rw [hv]; simp)]
      have hi52 : i < 2 ^ 52 := lt_of_lt_maxASize (Nat.lt_of_lt_of_le hit hle)
      have hlive := live_slotKey hi52 strings
      have hslot : ({ t with array } : Table).slot (slotKey i) = none := by
        refine Option.eq_none_iff_forall_ne_some.mpr fun idx hs => ?_
        obtain ⟨h1, h2⟩ := (slot_eq_some hinv.array_le).mp hs
        rw [intKey_slotKey hi52] at h1
        simp only [Option.some.injEq] at h1 h2
        omega
      obtain ⟨u, idx, hnew, hassigned, hkeys⟩ := hinv.newKey_insert hlive hslot
        (habs i (List.mem_cons_self ..)) (by simp only; omega) (t.array.getD i .nil)
      rw [newKey_array] at hnew
      obtain ⟨⟨u', r⟩, hnew', hu⟩ := Option.map_eq_some_iff.mp hnew
      obtain ⟨rfl, rfl⟩ : { u' with array } = u ∧ r = .ok idx := by simpa using hu
      have hnum : t.newKey (.num (F64.ofInt (i + 1))) strings = some (u', .ok idx) := hnew'
      rw [hnum]
      have hu' : u'.array = t.array := newKey_array_eq hnew'
      set t₁ := u'.setValue idx (t.array.getD i .nil) with ht₁
      have harr : t₁.array = t.array := hu'
      have hne : t.nodes ≠ [] := by
        intro h0
        rw [h0] at hroom
        simp at hroom
      have hlen : t₁.nodes.length = t.nodes.length := hassigned.length_eq hne
      have hocc : occupied t₁.nodes ≤ occupied t.nodes + 1 := hassigned.occupied_le
      have hneq : ∀ j ∈ idxs, (slotKey i).rawEq (slotKey j) = false := by
        intro j hj
        have hjlt := (hidx' j hj).2
        exact slotKey_ne hi52 (lt_of_lt_maxASize (by omega)) (by rintro rfl; exact hi hj)
      obtain ⟨t', heq, harr', hroom', hmoved⟩ := moveDisplaced_spec (t := t₁) c
        hassigned.inv hnd (by rw [harr]; exact hidx') (by rw [harr]; exact hle)
        (fun j hj n hn => by
          rcases hkeys n hn with hk | ⟨m, hm, hk⟩
          · rw [hk]; exact hneq j hj
          · rw [← hk]; exact habs j (List.mem_cons_of_mem _ hj) m hm)
        (by rw [hlen, harr]; omega)
      refine ⟨t', heq, harr'.trans harr, hroom', ?_⟩
      rw [harr] at hmoved
      refine .cons hassigned hmoved hlive (by simpa using hv) fun e he _ => ?_
      obtain ⟨j, hj, rfl⟩ := List.mem_map.mp he
      rw [Val.rawEq_comm]
      exact hneq j hj

/-! ### Moving the old hash part -/

theorem reinsert_spec : ∀ {nodes : List Node} {t : Table} (c : ℕ), t.Inv strings → t.Small →
    (∀ n ∈ nodes, n.value ≠ .nil → n.key.Live strings) →
    nodes.Pairwise (fun n m => n.value ≠ .nil → n.key.rawEq m.key = false) →
    occupied t.nodes + nodes.countP (fun n => !n.value.isNil && !fits t.array.length n.key) + c ≤
      t.nodes.length →
    ∃ t', reinsert strings nodes t = some (t', .ok ()) ∧ occupied t'.nodes + c ≤ t'.nodes.length ∧
      Moved strings (nodes.map fun n => (n.key, n.value)) t t'
  | [], t, c, hinv, _, _, _, hroom => ⟨t, rfl, by simpa using hroom, .refl hinv⟩
  | n :: nodes, t, c, hinv, hsmall, hlive, hpair, hroom => by
    obtain ⟨hn, hpair⟩ := List.pairwise_cons.mp hpair
    have hlive' : ∀ m ∈ nodes, m.value ≠ .nil → m.key.Live strings := fun m hm =>
      hlive m (List.mem_cons_of_mem _ hm)
    rw [reinsert]
    rw [List.countP_cons] at hroom
    rcases Bool.eq_false_or_eq_true n.value.isNil with hv | hv
    · rw [if_pos hv]
      obtain ⟨t', heq, hroom', hmoved⟩ := reinsert_spec c hinv hsmall hlive' hpair
        (by simpa [hv] using hroom)
      exact ⟨t', heq, hroom', hmoved.skip (Val.isNil_eq_true.mp hv)⟩
    · rw [if_neg (by simp [hv])]
      have hv' : n.value ≠ .nil := Val.isNil_eq_false.mp hv
      have hk := hlive n (List.mem_cons_self ..) hv'
      have hfit : (t.slot n.key).isSome = _ := slot_isSome_iff hsmall.array_le
      simp only [hv, Bool.not_false, Bool.true_and] at hroom
      rcases hinv.rawSetWith_spec hk n.value with ⟨u, d, hset, hassigned⟩ | ⟨e, -, hfull, hslot, -, -⟩
      · rw [rawSetNoRehash, hset]
        simp only [bind, Option.bind_some]
        have hsmall' : u.Small := hassigned.small hsmall
        have hmono : nodes.countP (fun m => !m.value.isNil && !fits u.array.length m.key) ≤
            nodes.countP (fun m => !m.value.isNil && !fits t.array.length m.key) := by
          refine List.countP_mono_left fun m _ hm => ?_
          simp only [Bool.and_eq_true, Bool.not_eq_true'] at hm ⊢
          refine ⟨hm.1, Bool.eq_false_iff.mpr fun hf => ?_⟩
          rw [fits_mono hassigned.array_le hf] at hm
          cases hm.2
        have hroom₁ : occupied u.nodes + nodes.countP (fun m => !m.value.isNil && !fits u.array.length m.key)
            + c ≤ u.nodes.length := by
          rcases Bool.eq_false_or_eq_true (t.slot n.key).isSome with hs | hs
          · rw [hassigned.nodes_of_slot hs]
            omega
          · rw [← hfit, hs] at hroom
            simp only [Bool.not_false, if_true] at hroom
            have hne : t.nodes ≠ [] := by
              intro h0
              rw [h0] at hroom
              simp at hroom
            have := hassigned.occupied_le
            rw [hassigned.length_eq hne]
            omega
        obtain ⟨t', heq, hroom', hmoved⟩ := reinsert_spec c hassigned.inv hsmall' hlive' hpair hroom₁
        refine ⟨t', heq, hroom', .cons hassigned hmoved hk hv' fun e he _ => ?_⟩
        obtain ⟨m, hm, rfl⟩ := List.mem_map.mp he
        rw [Val.rawEq_comm]
        exact hn m hm hv'
      · rw [hslot] at hfit
        rw [← hfit] at hroom
        simp at hroom
        omega

/-! ### Resize -/

theorem key_live (h : t.Inv strings) {n : Node} (hn : n ∈ t.nodes) (hv : n.value ≠ .nil) :
    n.key.Live strings := by
  rcases h.nodes_inv.key_cases hn with h0 | hk | hs
  · obtain ⟨i, hi⟩ := NodesInv.exists_index hn
    exact absurd (h.nodes_inv.free i n hi h0).1 hv
  · exact hk
  · exact absurd (h.nodes_inv.stale n hn hs) hv

/-- The array entries above the new size, counted as keys and as slots. -/
theorem countP_arrayInts (array : List Val) (size : ℕ) :
    (arrayInts array).countP (size < ·) =
      (List.range' size (array.length - size)).countP fun i => !(array.getD i .nil).isNil := by
  rw [arrayInts, List.countP_filter]
  have hsplit : List.range' 1 array.length =
      List.range' 1 (min size array.length) ++
        (List.range' size (array.length - size)).map (1 + ·) := by
    rw [List.map_add_range']
    rcases Nat.le_total size array.length with h | h
    · have hlen : array.length = size + (array.length - size) := by omega
      rw [Nat.min_eq_left h, List.range'_append_1, ← hlen]
    · rw [Nat.min_eq_right h, Nat.sub_eq_zero_of_le h]
      simp
  rw [hsplit, List.countP_append, List.countP_map]
  have hlow : (List.range' 1 (min size array.length)).countP
      (fun k => decide (size < k) && !(array.getD (k - 1) .nil).isNil) = 0 := by
    refine List.countP_eq_zero.mpr fun k hk => ?_
    have := List.mem_range'_1.mp hk
    simp only [Bool.and_eq_true, decide_eq_true_eq, not_and]
    omega
  rw [hlow, Nat.zero_add]
  refine List.countP_congr fun k hk => ?_
  have := (List.mem_range'_1.mp hk).1
  simp only [Function.comp, Nat.add_sub_cancel_left, Bool.and_eq_true, decide_eq_true_eq]
  exact ⟨fun h => h.2, fun h => ⟨by omega, h⟩⟩

theorem findValue_replicate (n : ℕ) (hk : key.Live strings) :
    NodesInv.findValue (List.replicate n Node.empty) key = .nil := by
  refine NodesInv.findValue_of_absent fun m hm => ?_
  rw [(List.mem_replicate.mp hm).2]
  exact NodesInv.rawEq_nil hk

theorem findValue_eq_nil (h : NodesInv strings t.nodes) (hk : key.Live strings)
    (hnone : ∀ n ∈ t.nodes, n.value ≠ .nil → n.key.rawEq key = false) :
    NodesInv.findValue t.nodes key = .nil := by
  rcases NodesInv.absent_or_hasEntry t.nodes key with habs | ⟨v, n, hn, hnk, hv⟩
  · exact NodesInv.findValue_of_absent habs
  · rw [h.findValue_eq hk ⟨n, hn, hnk, hv⟩]
    by_contra hne
    rw [hnone n hn (hv ▸ hne)] at hnk
    cases hnk

/-- An entry of the hash part that has a value is the value of its key. -/
theorem Inv.lookup_of_node (h : t.Inv strings) (hk : key.Live strings) {n : Node} (hn : n ∈ t.nodes)
    (hv : n.value ≠ .nil) (hnk : n.key.rawEq key = true) : t.lookup key = n.value := by
  rw [lookup]
  split
  · next idx hs =>
    refine absurd (h.shadow n hn ?_) hv
    rw [slot_congr hnk, hs]
    rfl
  · exact h.nodes_inv.findValue_eq hk ⟨n, hn, hnk, rfl⟩

/-- The new hash part of a resize is empty and has the room that was asked for. -/
theorem withHashPart_spec (t : Table) (room : ℕ) (strings : StringArena) :
    (t.withHashPart room = none ∧ maxASize < room) ∨
      ∃ u n, t.withHashPart room = some u ∧ room ≤ n ∧ n ≤ maxASize ∧ u.array = t.array ∧
        u.nodes = List.replicate n Node.empty ∧
        ∀ array : List Val, array.length ≤ maxVecLength → Inv strings { u with array } := by
  have hinv : ∀ (u : Table) (n log2 : ℕ) (array : List Val), u.nodes = List.replicate n Node.empty →
      u.lastFree = n → u.log2Size = log2 → (n = 0 ∧ log2 = 0 ∨ n = 2 ^ log2 ∧ log2 < 32) →
      array.length ≤ maxVecLength → Inv strings { u with array } := by
    intro u n log2 array hnodes hlf hlog hsize hle
    refine ⟨?_, ?_, ?_, ?_, hle, ?_⟩
    · simp only [hnodes]; exact NodesInv.replicate strings n
    · simp only [hnodes, hlog, List.length_replicate]
      rcases hsize with ⟨rfl, h0⟩ | hsize
      · exact .inl ⟨rfl, h0⟩
      · exact .inr hsize
    · simp only [hnodes, hlf, List.length_replicate]; exact Nat.le_refl n
    · intro i m hi hm
      have := NodesInv.lt_length hm
      simp only [hnodes, hlf, List.length_replicate] at this hi
      omega
    · intro m hm _
      simp only [hnodes] at hm
      rw [(List.mem_replicate.mp hm).2]
      rfl
  rw [withHashPart]
  split
  · next h0 =>
    exact .inr ⟨_, 0, rfl, by omega, Nat.zero_le _, rfl, rfl, fun array => hinv _ 0 0 array rfl rfl rfl (.inl ⟨rfl, rfl⟩)⟩
  · next h0 =>
    simp only
    split
    · next hlog =>
      refine .inl ⟨rfl, ?_⟩
      rw [← Nat.not_le, ceilLog2_le] at hlog
      exact Nat.not_le.mp hlog
    · next hlog =>
      have hbits : ceilLog2 room ≤ maxBits := Nat.not_lt.mp hlog
      exact .inr ⟨_, 2 ^ ceilLog2 room, rfl, ceilLog2_le.mp (Nat.le_refl _), Nat.pow_le_pow_right (by omega) hbits,
        rfl, rfl, fun array => hinv _ _ _ array rfl rfl rfl (.inr ⟨rfl, hbits.trans_lt (by decide)⟩)⟩

/-- The array part grown to `size` slots. -/
def grown (t : Table) (size : ℕ) : List Val := t.array ++ List.replicate (size - t.array.length) Val.nil

theorem getD_grown (t : Table) (size i : ℕ) : (t.grown size).getD i .nil = t.array.getD i .nil := by
  simp only [grown, List.getD_eq_getElem?_getD, List.getElem?_append, List.getElem?_replicate]
  split
  · rfl
  · next hi =>
    rw [List.getElem?_eq_none (by omega)]
    split <;> rfl

theorem length_grown (t : Table) (size : ℕ) : (t.grown size).length = max t.array.length size := by
  rw [grown, List.length_append, List.length_replicate]
  omega

/-- Growing the array part by nils is invisible when no entry of the hash part belongs there. -/
theorem Inv.grow (h : t.Inv strings) (hsmall : t.array.length ≤ maxASize) {size : ℕ} (hsize : size ≤ maxASize)
    (hno : t.array.length < size → ∀ n ∈ t.nodes, fits size n.key = false) :
    Inv strings { t with array := t.grown size } ∧
      ∀ k, k.Live strings → ({ t with array := t.grown size } : Table).lookup k = t.lookup k := by
  have hle : (t.grown size).length ≤ maxASize := by
    rw [length_grown]
    exact Nat.max_le.mpr ⟨hsmall, hsize⟩
  have hle' := hle.trans maxASize_le_maxVecLength
  refine ⟨⟨h.nodes_inv, h.size, h.lastFree_le, h.scanned, hle', fun n hn hs => ?_⟩, fun k hk => ?_⟩
  · rw [slot_isSome_iff hle, length_grown] at hs
    rcases Nat.lt_or_ge t.array.length size with hlt | hge
    · rw [Nat.max_eq_right (by omega), hno hlt n hn] at hs
      cases hs
    · rw [Nat.max_eq_left hge, ← slot_isSome_iff hsmall] at hs
      exact h.shadow n hn hs
  · by_cases hint : ∃ i : ℕ, k.intKey = some (i + 1 : ℤ)
    · obtain ⟨i, hi⟩ := hint
      rw [lookup_int hle' hi, lookup_int h.array_le hi, getD_grown, length_grown]
      rcases Nat.lt_or_ge i t.array.length with hlt | hge
      · rw [if_pos (by omega), if_pos hlt]
      · rw [if_neg (Nat.not_lt.mpr hge)]
        split
        · -- the new slots are nil, and so is every entry that could be there
          have hlt : t.array.length < size := by omega
          rw [findValue_eq_nil h.nodes_inv hk fun n hn _ => ?_]
          · simp [List.getElem?_eq_none hge]
          · refine Bool.eq_false_iff.mpr fun hnk => ?_
            have hf := hno hlt n hn
            rw [Bool.eq_false_iff, ne_eq, fits_iff hsize] at hf
            exact hf ⟨i, by omega, by rw [intKey_congr hnk, hi]⟩
        · rfl
    · have hint' : ∀ i : ℕ, k.intKey ≠ some (i + 1 : ℤ) := fun i hi => hint ⟨i, hi⟩
      rw [lookup_not_int hle' hint', lookup_not_int h.array_le hint']

/-- The nodes of the old hash part have different keys, in either order. -/
theorem pairwise_reverse (h : NodesInv strings t.nodes) :
    t.nodes.reverse.Pairwise fun n m => n.value ≠ .nil → n.key.rawEq m.key = false := by
  rw [List.pairwise_reverse, List.pairwise_iff_getElem]
  intro i j hi hj hij hv
  refine Bool.eq_false_iff.mpr fun heq => ?_
  have hgi := List.getElem?_eq_getElem hi
  have hgj := List.getElem?_eq_getElem hj
  have hkey : t.nodes[j].key ≠ .nil := fun h0 => hv (h.free j _ hgj h0).1
  have := h.distinct j i _ _ hgj hgi hkey heq
  omega

/-- From an empty hash part and an array part with the values of the slots it has, the two groups of moves
    make a table with the values of `t`. -/
theorem lookup_after_moves (h : t.Inv strings) (hsmall : t.array.length ≤ maxASize) {v w : Table} {n : ℕ}
    (hle : v.array.length ≤ maxVecLength)
    (harr : ∀ i < v.array.length, v.array.getD i .nil = t.array.getD i .nil)
    (hnodes : v.nodes = List.replicate n Node.empty)
    (hmoved : Moved strings ((List.range' v.array.length (t.array.length - v.array.length)).map
      fun i => (slotKey i, t.array.getD i .nil)) v w)
    (hmoved' : Moved strings (t.nodes.reverse.map fun n => (n.key, n.value)) w t')
    (hk : key.Live strings) : t'.lookup key = t.lookup key := by
  by_cases hnode : ∃ n ∈ t.nodes, n.value ≠ .nil ∧ n.key.rawEq key = true
  · obtain ⟨m, hm, hv, hmk⟩ := hnode
    rw [h.lookup_of_node hk hm hv hmk, ← lookup_congr hmk]
    exact hmoved'.lookup_moved (m.key, m.value) (List.mem_map.mpr ⟨m, List.mem_reverse.mpr hm, rfl⟩) hv
  have hnone : ∀ m ∈ t.nodes, m.value ≠ .nil → m.key.rawEq key = false := fun m hm hv =>
    Bool.eq_false_iff.mpr fun hmk => hnode ⟨m, hm, hv, hmk⟩
  have hfind := findValue_eq_nil h.nodes_inv hk hnone
  have hempty : NodesInv.findValue v.nodes key = .nil := by rw [hnodes, findValue_replicate n hk]
  have hw : t'.lookup key = w.lookup key := by
    refine hmoved'.lookup_other key hk fun e he hv => ?_
    obtain ⟨m, hm, rfl⟩ := List.mem_map.mp he
    exact hnone m (List.mem_reverse.mp hm) hv
  rw [hw]
  by_cases hint : ∃ i : ℕ, key.intKey = some (i + 1 : ℤ)
  · obtain ⟨i, hi⟩ := hint
    have ht : t.lookup key = t.array.getD i .nil := by
      rw [lookup_int h.array_le hi]
      split
      · rfl
      · next hge => simp [hfind, List.getElem?_eq_none (Nat.not_lt.mp hge)]
    rw [ht]
    by_cases hdisp : v.array.length ≤ i ∧ t.array.getD i .nil ≠ .nil
    · -- a displaced entry
      obtain ⟨hge, hv⟩ := hdisp
      have hlt : i < t.array.length := by
        by_contra hge'
        exact hv (by simp [List.getElem?_eq_none (Nat.not_lt.mp hge')])
      have hmem : i ∈ List.range' v.array.length (t.array.length - v.array.length) :=
        List.mem_range'_1.mpr ⟨hge, by omega⟩
      have heq : w.lookup (slotKey i) = t.array.getD i .nil :=
        hmoved.lookup_moved _ (List.mem_map.mpr ⟨i, hmem, rfl⟩) hv
      have hmax : i < 2 ^ 52 := lt_of_lt_maxASize (Nat.lt_of_lt_of_le hlt hsmall)
      rw [← heq]
      exact lookup_congr (rawEq_of_intKey hi (intKey_slotKey hmax)) w
    · have hother : w.lookup key = v.lookup key := by
        refine hmoved.lookup_other key hk fun e he hv => Bool.eq_false_iff.mpr fun heq => hdisp ?_
        obtain ⟨j, hj, rfl⟩ := List.mem_map.mp he
        have hj' := List.mem_range'_1.mp hj
        have hjmax : j < 2 ^ 52 := lt_of_lt_maxASize (by omega)
        have := intKey_congr heq
        rw [intKey_slotKey hjmax, hi] at this
        simp only [Option.some.injEq] at this
        obtain rfl : j = i := by omega
        exact ⟨hj'.1, hv⟩
      rw [hother, lookup_int hle hi]
      split
      · next hlt => exact harr i hlt
      · next hge =>
        rw [hempty]
        by_contra hne
        exact hdisp ⟨Nat.not_lt.mp hge, Ne.symm hne⟩
  · have hint' : ∀ i : ℕ, key.intKey ≠ some (i + 1 : ℤ) := fun i hi => hint ⟨i, hi⟩
    have hother : w.lookup key = v.lookup key := by
      refine hmoved.lookup_other key hk fun e he _ => Bool.eq_false_iff.mpr fun heq => ?_
      obtain ⟨j, hj, rfl⟩ := List.mem_map.mp he
      have hj' := List.mem_range'_1.mp hj
      have hjmax : j < 2 ^ 52 := lt_of_lt_maxASize (by omega)
      exact hint' j (by rw [← intKey_congr heq, intKey_slotKey hjmax])
    rw [hother, lookup_not_int hle hint', hempty, lookup_not_int h.array_le hint', hfind]

/-- Every entry that needs room has a slot. -/
theorem roomFor_le (t : Table) (size : ℕ) (ek : Val) : t.roomFor size ek ≤ t.array.length + t.nodes.length + 1 := by
  have harray : (arrayInts t.array).countP (size < ·) ≤ t.array.length := by
    rw [countP_arrayInts]
    refine List.countP_le_length.trans ?_
    rw [List.length_range']
    exact Nat.sub_le _ _
  have hnodes : t.nodes.countP (fun n => !n.value.isNil && !fits size n.key) ≤ t.nodes.length := List.countP_le_length
  rw [roomFor]
  split <;> omega

/-- Resizing keeps every value. After a resize that succeeds there is room for the key `ek`; it fails only where the
    table has so many slots that no hash part could take more. -/
theorem Inv.resize_spec (h : t.Inv strings) (hsmall : t.Small) {size : ℕ} (hsize : size ≤ maxASize) (ek : Val) :
    ∃ t' r, t.resize size (t.roomFor size ek) strings = some (t', r) ∧ t'.Inv strings ∧ t'.Small ∧
      (∀ k, k.Live strings → t'.lookup k = t.lookup k) ∧
      (r = .ok () → occupied t'.nodes + (if fits t'.array.length ek then 0 else 1) ≤ t'.nodes.length) ∧
      ∀ e, r = .error e → e = ⟨"table overflow"⟩ ∧ maxASize ≤ t.array.length + t.nodes.length := by
  have hgrown_le : (t.grown size).length ≤ maxASize := by
    rw [length_grown]
    exact Nat.max_le.mpr ⟨hsmall.array_le, hsize⟩
  have hroomFor := countP_arrayInts t.array size
  rw [resize]
  have hgrown : t.array ++ List.replicate (size - t.array.length) Val.nil = t.grown size := rfl
  simp only [hgrown]
  rcases withHashPart_spec ({ t with array := t.grown size } : Table) (t.roomFor size ek) strings with
    ⟨hnone, hroom⟩ | ⟨u, n, hsome, hroom, hn, huarr, hunodes, huinv⟩
  · -- the overflow: all nodes are in use, by keys outside of the array part
    rw [hnone]
    have hno : t.array.length < size → ∀ n ∈ t.nodes, fits size n.key = false := by
      intro hlt n hn
      rw [Nat.sub_eq_zero_of_le (Nat.le_of_lt hlt)] at hroomFor
      have hall : t.nodes.countP (fun n => !n.value.isNil && !fits size n.key) = t.nodes.length := by
        have h1 := hsmall.nodes_le
        have h2 := List.countP_le_length (p := fun n : Node => !n.value.isNil && !fits size n.key)
          (l := t.nodes)
        rw [roomFor, hroomFor] at hroom
        simp only [List.range'_zero, List.countP_nil] at hroom
        split at hroom <;> omega
      have := List.countP_eq_length.mp hall n hn
      simp only [Bool.and_eq_true, Bool.not_eq_true'] at this
      exact this.2
    obtain ⟨hinv, hlookup⟩ := h.grow hsmall.array_le hsize hno
    refine ⟨_, _, rfl, hinv, ⟨hgrown_le, hsmall.nodes_le⟩, hlookup, fun hr => (by cases hr), fun e he => ?_⟩
    have hle := t.roomFor_le size ek
    cases he
    exact ⟨rfl, by omega⟩
  · rw [hsome]
    simp only [bind]
    set array := (t.grown size).take size with harray
    have hlen : array.length = size := by
      rw [harray, List.length_take, length_grown]
      omega
    have huarr' : u.array = t.grown size := huarr
    have hulen : u.array.length = max t.array.length size := by rw [huarr', length_grown]
    have hgetD : ∀ i, u.array.getD i .nil = t.array.getD i .nil := by
      intro i
      rw [huarr', getD_grown]
    have hidx : ∀ i ∈ List.range' size (t.array.length - size), array.length ≤ i ∧ i < u.array.length := by
      intro i hi
      have := List.mem_range'_1.mp hi
      omega
    have hocc : occupied u.nodes = 0 := by
      rw [hunodes, occupied, List.countP_replicate]
      rfl
    set kept := t.nodes.countP fun n => !n.value.isNil && !fits size n.key with hkept
    set c := if fits size ek then 0 else 1 with hc
    have hulen' : u.nodes.length = n := by rw [hunodes, List.length_replicate]
    obtain ⟨t₁, hmove, harr₁, hroom₁, hmoved₁⟩ := moveDisplaced_spec (t := u) (kept + c)
      (huinv array (by rw [hlen]; exact hsize.trans maxASize_le_maxVecLength)) List.nodup_range' hidx (by rw [huarr']; exact hgrown_le)
      (fun i hi m hm => by
        rw [hunodes] at hm
        rw [(List.mem_replicate.mp hm).2]
        rfl)
      (by simp only [hgetD]; rw [← hroomFor, hocc, hulen']; rw [roomFor] at hroom; omega)
    rw [hmove]
    have hcut : (if size < t.array.length then { t₁ with array := t₁.array.take size } else t₁) =
        ({ t₁ with array } : Table) := by
      rw [harray, ← huarr', ← harr₁]
      split
      · rfl
      · rw [List.take_of_length_le (by rw [harr₁, hulen]; omega)]
    simp only [Option.bind_some, hcut]
    have hsmall₁ : Small { t₁ with array } := hmoved₁.small ⟨hlen ▸ hsize, hulen' ▸ hn⟩
    obtain ⟨t', hre, hroom', hmoved'⟩ := reinsert_spec (t := { t₁ with array }) c
      hmoved₁.inv hsmall₁ (fun m hm hv => key_live h (List.mem_reverse.mp hm) hv)
      (pairwise_reverse h.nodes_inv) (by
        simp only [List.countP_reverse, hlen]
        omega)
    simp only [hgetD] at hmoved₁
    refine ⟨t', .ok (), hre, hmoved'.inv, hmoved'.small hsmall₁, fun k hk => ?_, fun _ => ?_,
      fun e he => (by cases he)⟩
    · have hcut_le : array.length ≤ maxVecLength := by rw [hlen]; exact hsize.trans maxASize_le_maxVecLength
      refine lookup_after_moves (v := { u with array }) h hsmall.array_le hcut_le ?_ hunodes
        (by simpa only [hlen] using hmoved₁) hmoved' hk
      intro i hi
      have hi : i < size := hlen ▸ hi
      simp only [harray, List.getD_eq_getElem?_getD, List.getElem?_take, if_pos hi]
      exact getD_grown t size i
    · have hle := hmoved'.array_le
      simp only [hlen] at hle
      refine Nat.le_trans (Nat.add_le_add_left ?_ _) hroom'
      cases hf : fits size ek with
      | true => rw [fits_mono hle hf]; simp
      | false => rw [hc, hf]; split <;> simp

end Table

end Rilua.Vm
