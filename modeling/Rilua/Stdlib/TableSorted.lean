import Rilua.Stdlib.TableSort

/-! `table.sort` keeps the items of a table, whatever the comparisons answer. After each step the items are those of
    the start in another order, because a swap finds both of its keys. With a strict weak order they end up sorted. -/

namespace Rilua.Vm

open Lib Gc

namespace Table

variable {strings : StringArena} {t t' u : Table} {key value : Val} {a b : ℤ → Val} {i j : ℤ}

/-! ### Swaps -/

/-- The two tables have the same parts. -/
structure SameParts (t t' : Table) : Prop where
  array_eq : t'.array = t.array
  nodes_eq : t'.nodes = t.nodes
  log2Size_eq : t'.log2Size = t.log2Size
  lastFree_eq : t'.lastFree = t.lastFree

theorem SameParts.slot_eq (h : SameParts t t') (key : Val) : t'.slot key = t.slot key :=
  slot_eq_of_length (by rw [h.array_eq]) key

theorem SameParts.lookup_eq (h : SameParts t t') (key : Val) : t'.lookup key = t.lookup key := by
  rw [lookup, lookup, h.slot_eq, h.array_eq, h.nodes_eq]

theorem SameParts.inv (h : SameParts t t') (ht : t.Inv strings) : t'.Inv strings where
  nodes_inv := h.nodes_eq ▸ ht.nodes_inv
  size := by rw [h.nodes_eq, h.log2Size_eq]; exact ht.size
  lastFree_le := by rw [h.lastFree_eq, h.nodes_eq]; exact ht.lastFree_le
  scanned := by rw [h.lastFree_eq, h.nodes_eq]; exact ht.scanned
  array_le := by rw [h.array_eq]; exact ht.array_le
  shadow n hn hslot := by
    rw [h.nodes_eq] at hn
    rw [h.slot_eq] at hslot
    exact ht.shadow n hn hslot

/-- `t'` has `b` at the integers from 1 on, and is `t` elsewhere. -/
structure Arranged (t t' : Table) (b : ℤ → Val) : Prop where
  item_eq : ∀ k, 0 < k → t'.item k = b k
  other : ∀ key, key ≠ .nil → key.isNaN = false → NotPositive key → t'.lookup key = t.lookup key

theorem Arranged.refl (t : Table) : Arranged t t t.item := ⟨fun _ _ => rfl, fun _ _ _ _ => rfl⟩

theorem Arranged.sameParts (h : Arranged t t' b) (hsame : SameParts t' u) : Arranged t u b :=
  ⟨fun k hk => by rw [item, hsame.lookup_eq]; exact h.item_eq k hk,
    fun key hnil hnan hpos => by rw [hsame.lookup_eq]; exact h.other key hnil hnan hpos⟩

/-- Assigning to an integer. -/
theorem Arranged.assigned (h : Arranged t t' b) (ht : t'.Inv strings) (hi : 0 < i ∧ i < 2 ^ 53)
    (hassigned : Assigned strings t' u (.num (F64.ofInt i)) value) : Arranged t u (Function.update b i value) := by
  constructor
  · intro k hk
    obtain ⟨m, rfl⟩ := Int.eq_ofNat_of_zero_le hk.le
    have hbeq : (F64.ofInt i).beq (F64.ofInt m) = true ↔ i = m := F64.ofInt_beq_ofInt (by omega)
    rw [item, hassigned.lookup_eq (live_ofInt m strings), Val.rawEq]
    by_cases him : (m : ℤ) = i
    · rw [if_pos (hbeq.mpr him.symm), him, Function.update_self]
    · rw [if_neg fun hc => him (hbeq.mp hc).symm, Function.update_of_ne him]
      exact h.item_eq m hk
  · intro key hnil hnan hpos
    obtain ⟨m, rfl⟩ := Int.eq_ofNat_of_zero_le hi.1.le
    rw [← h.other key hnil hnan hpos]
    cases hs : key.isStale strings with
    | true => rw [hassigned.inv.lookup_stale hs, ht.lookup_stale hs]
    | false => exact hassigned.lookup_other key ⟨hnil, hnan, hs⟩ (hpos m (by omega))

/-- An integer that has a value is found. -/
theorem Inv.setIntExisting_spec (h : t.Inv strings) (hi : i.natAbs < 2 ^ 53) (hne : t.item i ≠ .nil) (value : Val) :
    ∃ t', t.setIntExisting i value = some (t', true) ∧ Assigned strings t t' (.num (F64.ofInt i)) value := by
  have hkey : Val.intKey (.num (F64.ofInt i)) = some i := intKey_ofInt hi
  have hlive := live_ofInt i strings
  rw [setIntExisting]
  cases hidx : t.arrayIndex i with
  | some idx => exact ⟨_, rfl, h.setArray (by rw [slot, hkey, Option.bind_some, hidx]) value⟩
  | none =>
    have hslot : t.slot (.num (F64.ofInt i)) = none := by rw [slot, hkey, Option.bind_some, hidx]
    have hvalue : NodesInv.findValue t.nodes (.num (F64.ofInt i)) ≠ .nil := by
      rw [item, lookup, hslot] at hne
      exact hne
    have hnodes : t.nodes ≠ [] := by
      intro hnil
      rw [hnil] at hvalue
      exact hvalue rfl
    have htest : numIs (F64.ofInt i) = fun k => k.rawEq (.num (F64.ofInt i)) := by
      funext k
      cases k <;> rfl
    rcases h.walk_live hlive hnodes with ⟨j, m, hwalk, hm, hmk⟩ | ⟨-, habsent⟩
    · refine ⟨t.setValue j value, ?_, h.setNode hlive hslot hm hmk value⟩
      dsimp only
      rw [if_neg (by simp [hnodes]), htest]
      change (walk t.nodes _ t.nodes.length (some (t.mainPosition (.num (F64.ofInt i)) strings)) >>= _) = _
      rw [hwalk]
      rfl
    · exact absurd (NodesInv.findValue_of_absent habsent) hvalue

/-- A swap finds both keys. -/
theorem Inv.swapExisting_spec (h : t'.Inv strings) (hb : Arranged t t' b) (hi : 0 < i ∧ i < 2 ^ 53)
    (hj : 0 < j ∧ j < 2 ^ 53) (hbi : b i ≠ .nil) (hbj : b j ≠ .nil) :
    ∃ u, t'.swapExisting i (b i) j (b j) = some (u, true) ∧ u.Inv strings ∧ Arranged t u (b ∘ Equiv.swap i j) := by
  have hswap : Function.update (Function.update b i (b j)) j (b i) = b ∘ Equiv.swap i j := by
    funext k
    rw [Function.comp_apply]
    by_cases hkj : k = j
    · rw [hkj, Function.update_self, Equiv.swap_apply_right]
    by_cases hki : k = i
    · rw [hki, Function.update_of_ne (hki ▸ hkj), Function.update_self, Equiv.swap_apply_left]
    · rw [Function.update_of_ne hkj, Function.update_of_ne hki, Equiv.swap_apply_of_ne_of_ne hki hkj]
  have hkeyi : Val.intKey (.num (F64.ofInt i)) = some i := intKey_ofInt (by omega)
  have hkeyj : Val.intKey (.num (F64.ofInt j)) = some j := intKey_ofInt (by omega)
  rw [swapExisting]
  cases harray : t'.swapArrayInts i j with
  | some u =>
    refine ⟨u, rfl, ?_⟩
    simp only [swapArrayInts, bind, Option.bind_eq_some_iff] at harray
    obtain ⟨ki, hidxi, kj, hidxj, hu⟩ := harray
    have hsloti : t'.slot (.num (F64.ofInt i)) = some ki := by rw [slot, hkeyi, Option.bind_some, hidxi]
    have hslotj : t'.slot (.num (F64.ofInt j)) = some kj := by rw [slot, hkeyj, Option.bind_some, hidxj]
    have hvi : t'.array.getD ki .nil = b i := by
      rw [← hb.item_eq i hi.1, item, lookup, hsloti]
    have hvj : t'.array.getD kj .nil = b j := by
      rw [← hb.item_eq j hj.1, item, lookup, hslotj]
    rw [hvi, hvj] at hu
    have hfirst := h.setArray hsloti (b j)
    have hslotj' : (t'.setArray ki (b j)).slot (.num (F64.ofInt j)) = some kj := by
      rw [slot_eq_of_length (t := t') (List.length_set ..), hslotj]
    have hsecond := hfirst.inv.setArray hslotj' (b i)
    have hu' : (t'.setArray ki (b j)).setArray kj (b i) = u := by
      cases hu
      rfl
    rw [← hu', ← hswap]
    exact ⟨hsecond.inv, (hb.assigned h hi hfirst).assigned hfirst.inv hj hsecond⟩
  | none =>
    obtain ⟨u₁, hset₁, hfirst⟩ := h.setIntExisting_spec (i := i) (by omega) (by rw [hb.item_eq i hi.1]; exact hbi) (b j)
    have hb₁ := hb.assigned h hi hfirst
    have hne : u₁.item j ≠ .nil := by
      rw [hb₁.item_eq j hj.1]
      by_cases hji : j = i
      · rw [hji, Function.update_self, ← hji]
        exact hbj
      · rw [Function.update_of_ne hji]
        exact hbj
    obtain ⟨u₂, hset₂, hsecond⟩ := hfirst.inv.setIntExisting_spec (i := j) (by omega) hne (b i)
    refine ⟨u₂, ?_, hsecond.inv, hswap ▸ hb₁.assigned hfirst.inv hj hsecond⟩
    simp only [hset₁, bind, Option.bind_some, if_true, hset₂]

end Table

/-! ### Steps -/

/-- A table of `n` items, what they are compared with, and the order that this may be. -/
structure SortTask (σ : Type) where
  host : SortHost σ
  comp : SortComparator
  r : GcRef .table
  table : Table
  n : ℕ
  lt : Val → Val → Prop

namespace SortTask

variable {σ α : Type} {p : SortTask σ} {s s' : SecretTables × σ} {b : ℤ → Val} {i j l u : ℤ} {x y : Val}

def InRange (p : SortTask σ) (i : ℤ) : Prop := 1 ≤ i ∧ i ≤ p.n

/-- The items at the start. -/
def items (p : SortTask σ) : Set Val := { v | ∃ k, p.InRange k ∧ v = p.table.item k }

/-- Comparisons of items end, and leave the parts of the table alone and the strings that it needs. -/
def Quiet (p : SortTask σ) : Prop :=
  ∀ x ∈ p.items, ∀ y ∈ p.items, ∀ s h t, s.gc.heap.get p.r = some t → ∃ s' h' res t',
    SortM.sortComp p.host x y p.comp (s, h) = some ((s', h'), [], res) ∧ s'.gc.heap.get p.r = some t' ∧
      Table.SameParts t t' ∧ t.StringsKept s.gc.heap.strings s'.gc.heap.strings

/-- Comparisons of items answer by a strict weak order. -/
structure Ordered (p : SortTask σ) : Prop where
  answers : ∀ x ∈ p.items, ∀ y ∈ p.items, ∀ s s' w res, SortM.sortComp p.host x y p.comp s = some (s', w, res) →
    ∃ c, res = .ok c ∧ (c = true ↔ p.lt x y)
  weak : IsStrictWeakOrder p.items fun x y => p.lt x y

/-- There is a value at each of the integers, and comparisons leave them alone. -/
structure Fit (p : SortTask σ) : Prop where
  lt_pow : p.n < 2 ^ 53
  present : ∀ k, p.InRange k → p.table.item k ≠ .nil
  quiet : p.Quiet

/-- The table has `b` at the integers, which are the items of the start in some order. -/
structure Keeps (p : SortTask σ) (b : ℤ → Val) (s : SecretTables × σ) : Prop where
  get_inv : ∃ t, s.1.gc.heap.get p.r = some t ∧ t.Inv s.1.gc.heap.strings ∧ p.table.Arranged t b
  rearranged : Rearranged 1 p.n p.table.item b

/-- Stores into the table are refused. -/
def Refusal (e : LuaError) : Prop :=
  e = ⟨"tainted access to secured table"⟩ ∨ e = ⟨"attempt to modify a read-only table"⟩

/-- Where it ends in an error, the items are still there, and with a strict weak order the table refused stores. -/
def Fails (p : SortTask σ) (e : LuaError) (s : SecretTables × σ) : Prop := (∃ b, p.Keeps b s) ∧ (p.Ordered → Refusal e)

abbrev Ends (p : SortTask σ) (s : SecretTables × σ) (x : SortM σ α) (Q : α → SecretTables × σ → Prop) : Prop :=
  Act.Ends p.InRange p.Fails s x Q

theorem Keeps.mem (h : p.Keeps b s) (hi : p.InRange i) : b i ∈ p.items := by
  obtain ⟨m, hm, heq⟩ := h.rearranged.exists_eq hi
  exact ⟨m, hm, heq⟩

theorem Keeps.ne_nil (h : p.Keeps b s) (hp : p.Fit) (hi : p.InRange i) : b i ≠ .nil := by
  obtain ⟨m, hm, heq⟩ := h.rearranged.exists_eq hi
  rw [heq]
  exact hp.present m hm

/-- The gate of the table library lets through or refuses. -/
theorem checkTableAccess_cases {s : SecretTables} {r : GcRef .table} {t : Table} (hget : s.gc.heap.get r = some t)
    (secure : Bool) : SecretM.checkTableAccess secure r none s = some (s, [], .ok ()) ∨
      SecretM.checkTableAccess secure r none s = some (s, [], .error ⟨"tainted access to secured table"⟩) := by
  rw [SecretM.checkTableAccess, Act.bind_of_ok (SecretTables.read_ok hget), Act.get_bind]
  by_cases haccess : s.securityFlags r &&& disallowTaintedAccess ≠ 0 ∧ secure = false
  · rw [if_pos haccess]
    exact .inr rfl
  · rw [if_neg haccess, if_neg (by simp)]
    exact .inl rfl

theorem Keeps.getRaw (h : p.Keeps b s) (hp : p.Fit) (hi : p.InRange i) :
    p.Ends s (SortM.getRaw p.host p.r i) fun v s' => p.Keeps b s' ∧ v = b i := by
  obtain ⟨s, host⟩ := s
  obtain ⟨t, hget, hinv, harr⟩ := h.get_inv
  refine Act.Ends.writing hi ?_
  rcases checkTableAccess_cases hget (p.host.secure host) with hok | herror
  · have hkey : numberToIntKey (F64.ofInt i) = some i := by
      have := hi.1
      have := hi.2
      have := hp.lt_pow
      exact Table.intKey_ofInt (by omega)
    have hread : SecretM.getRaw (p.host.secure host) p.r i s = some (s, [], .ok (b i)) := by
      rw [SecretM.getRaw, Act.bind_of_ok hok, Act.get_bind, hget]
      simp only [hinv.getInt_eq hkey]
      rw [← harr.item_eq i hi.1]
      rfl
    exact .of_ok (by simp only [SortM.onTables, hread]; rfl) ⟨h, rfl⟩
  · have hread : SecretM.getRaw (p.host.secure host) p.r i s =
        some (s, [], .error ⟨"tainted access to secured table"⟩) := by
      rw [SecretM.getRaw, Act.bind_of_error herror]
    exact .of_error (by simp only [SortM.onTables, hread]; rfl) ⟨⟨b, h⟩, fun _ => .inl rfl⟩

theorem Keeps.sortComp (h : p.Keeps b s) (hp : p.Fit) (hx : x ∈ p.items) (hy : y ∈ p.items) :
    p.Ends s (SortM.sortComp p.host x y p.comp) fun c s' =>
      p.Keeps b s' ∧ (p.Ordered → (c = true ↔ p.lt x y)) := by
  obtain ⟨s, host⟩ := s
  obtain ⟨t, hget, hinv, harr⟩ := h.get_inv
  obtain ⟨s', host', res, t', hrun, hget', hsame, hkept⟩ := hp.quiet x hx y hy s host t hget
  have h' : p.Keeps b (s', host') :=
    ⟨⟨t', hget', hsame.inv (hinv.strings_step hkept), harr.sameParts hsame⟩, h.rearranged⟩
  cases res with
  | ok c =>
    refine .of_ok hrun ⟨h', fun hord => ?_⟩
    obtain ⟨c', hc, hiff⟩ := hord.answers x hx y hy _ _ _ _ hrun
    cases hc
    exact hiff
  | error e =>
    refine .of_error hrun ⟨⟨b, h'⟩, fun hord => ?_⟩
    obtain ⟨c', hc, -⟩ := hord.answers x hx y hy _ _ _ _ hrun
    cases hc

theorem Keeps.swapSortValues (h : p.Keeps b s) (hp : p.Fit) (hi : p.InRange i) (hj : p.InRange j) :
    p.Ends s (SortM.swapSortValues p.host p.r i (b i) j (b j)) fun _ s' => p.Keeps (b ∘ Equiv.swap i j) s' := by
  obtain ⟨s, host⟩ := s
  obtain ⟨t, hget, hinv, harr⟩ := h.get_inv
  refine Act.Ends.writing hi (Act.Ends.writing hj ?_)
  rcases checkTableAccess_cases hget (p.host.secure host) with hok | herror
  · by_cases hro : TableM.isReadOnly s.gc p.r = true
    · have hrun : SecretM.swapSortValues (p.host.secure host) p.r i (b i) j (b j) s =
          some (s, [], .error ⟨"attempt to modify a read-only table"⟩) := by
        rw [SecretM.swapSortValues, Act.bind_of_ok hok, Act.get_bind, if_pos hro]
        rfl
      exact .of_error (by simp only [SortM.onTables, hrun]; rfl) ⟨⟨b, h⟩, fun _ => .inr rfl⟩
    by_cases hij : i = j
    · have hrun : SecretM.swapSortValues (p.host.secure host) p.r i (b i) j (b j) s = some (s, [], .ok ()) := by
        rw [SecretM.swapSortValues, Act.bind_of_ok hok, Act.get_bind, if_neg hro, if_pos hij]
        rfl
      refine .of_ok (by simp only [SortM.onTables, hrun]; rfl) ?_
      rw [hij, Equiv.swap_self]
      exact h
    · obtain ⟨hi1, hin⟩ := hi
      obtain ⟨hj1, hjn⟩ := hj
      have hpow := hp.lt_pow
      obtain ⟨u, hswap, huinv, huarr⟩ := hinv.swapExisting_spec harr (i := i) (j := j) (by omega) (by omega)
        (h.ne_nil hp ⟨hi1, hin⟩) (h.ne_nil hp ⟨hj1, hjn⟩)
      have hrun : SecretM.swapSortValues (p.host.secure host) p.r i (b i) j (b j) s =
          some (s.withTable p.r u, [], .ok ()) := by
        rw [SecretM.swapSortValues, Act.bind_of_ok hok, Act.get_bind, if_neg hro, if_neg hij]
        have hupdate : SecretM.update p.r ⟨"table not found"⟩ (fun t _ =>
            (t.swapExisting i (b i) j (b j)).map fun res => (res.1, (.ok res.2 : Except LuaError Bool))) s =
              some (s.withTable p.r u, [], .ok true) := by
          simp only [SecretM.update, Act.attempt, hget, hswap, Option.map_some]
          rfl
        rw [Act.bind_of_ok hupdate, if_pos rfl]
        rfl
      refine .of_ok (by simp only [SortM.onTables, hrun]; rfl) ⟨⟨u, ?_, ?_, huarr⟩, ?_⟩
      · exact SecretTables.get_withTable hget u
      · rw [(SecretTables.wrapping_withTable s p.r u).strings]
        exact huinv
      · exact h.rearranged.trans (.swap b ⟨hi1, hin⟩ ⟨hj1, hjn⟩)
  · have hrun : SecretM.swapSortValues (p.host.secure host) p.r i (b i) j (b j) s =
        some (s, [], .error ⟨"tainted access to secured table"⟩) := by
      rw [SecretM.swapSortValues, Act.bind_of_error herror]
    exact .of_error (by simp only [SortM.onTables, hrun]; rfl) ⟨⟨b, h⟩, fun _ => .inl rfl⟩

/-! ### The scans -/

/-- The scan stops at the first value that is not less than the pivot. With a strict weak order it finds one where
    there is one up to `m`. -/
theorem Keeps.scanSortForward {idx upper m : ℤ} (hp : p.Fit) (hx : x ∈ p.items) (h0 : 0 ≤ idx) (hupper : upper ≤ p.n)
    (hm : m ≤ upper) (hstop : p.Ordered → ∃ k, idx < k ∧ k ≤ m ∧ ¬ p.lt (b k) x) {s : SecretTables × σ}
    (h : p.Keeps b s) : p.Ends s (SortM.scanSortForward p.host p.r upper x p.comp idx) fun res s' =>
      p.Keeps b s' ∧ (idx < res.1 ∧ res.1 ≤ upper) ∧ res.2 = b res.1 ∧
        (p.Ordered → res.1 ≤ m ∧ (∀ k, idx < k → k < res.1 → p.lt (b k) x) ∧ ¬ p.lt (b res.1) x) := by
  rw [SortM.scanSortForward]
  split
  · next hover =>
    refine .fail ⟨⟨b, h⟩, fun hord => ?_⟩
    obtain ⟨k, hk, hkm, -⟩ := hstop hord
    omega
  · next hin =>
    have hidx : p.InRange (idx + 1) := ⟨by omega, by omega⟩
    refine (h.getRaw hp hidx).bind ?_
    rintro _ s₁ ⟨h₁, rfl⟩
    refine (h₁.sortComp hp (h₁.mem hidx) hx).bind ?_
    rintro c s₂ ⟨h₂, hc⟩
    split
    · next hnot =>
      refine .pure ⟨h₂, ⟨by omega, by omega⟩, rfl, fun hord => ⟨?_, fun k hk hk' => by omega, ?_⟩⟩
      · obtain ⟨k, hk, hkm, -⟩ := hstop hord
        omega
      · rw [← hc hord]
        exact hnot
    · next hyes =>
      have hless : p.Ordered → p.lt (b (idx + 1)) x := fun hord => (hc hord).mp (not_not.mp hyes)
      have hstop' : p.Ordered → ∃ k, idx + 1 < k ∧ k ≤ m ∧ ¬ p.lt (b k) x := fun hord => by
        obtain ⟨k, hk, hkm, hnot⟩ := hstop hord
        rcases Int.lt_or_eq_of_le (Int.add_one_le_of_lt hk) with hlt | rfl
        · exact ⟨k, hlt, hkm, hnot⟩
        · exact absurd (hless hord) hnot
      refine (Keeps.scanSortForward hp hx (by omega) hupper hm hstop' h₂).mono ?_
      rintro ⟨i, v⟩ s₃ ⟨h₃, hrange, hv, hres⟩
      refine ⟨h₃, ⟨by omega, hrange.2⟩, hv, fun hord => ?_⟩
      obtain ⟨him, hall, hnot⟩ := hres hord
      refine ⟨him, fun k hk hki => ?_, hnot⟩
      rcases Int.lt_or_eq_of_le (Int.add_one_le_of_lt hk) with hlt | rfl
      · exact hall k hlt hki
      · exact hless hord
termination_by (upper - idx).toNat

/-- The scan downwards. -/
theorem Keeps.scanSortBackward {idx lower : ℤ} (hp : p.Fit) (hx : x ∈ p.items) (hn : idx ≤ p.n + 1) (hlower : 1 ≤ lower)
    (hstop : p.Ordered → ∃ k, lower ≤ k ∧ k < idx ∧ ¬ p.lt x (b k)) {s : SecretTables × σ}
    (h : p.Keeps b s) : p.Ends s (SortM.scanSortBackward p.host p.r lower x p.comp idx) fun res s' =>
      p.Keeps b s' ∧ (lower ≤ res.1 ∧ res.1 < idx) ∧ res.2 = b res.1 ∧
        (p.Ordered → (∀ k, res.1 < k → k < idx → p.lt x (b k)) ∧ ¬ p.lt x (b res.1)) := by
  rw [SortM.scanSortBackward]
  split
  · next hunder =>
    refine .fail ⟨⟨b, h⟩, fun hord => ?_⟩
    obtain ⟨k, hk, hki, -⟩ := hstop hord
    omega
  · next hin =>
    have hidx : p.InRange (idx - 1) := ⟨by omega, by omega⟩
    refine (h.getRaw hp hidx).bind ?_
    rintro _ s₁ ⟨h₁, rfl⟩
    refine (h₁.sortComp hp hx (h₁.mem hidx)).bind ?_
    rintro c s₂ ⟨h₂, hc⟩
    split
    · next hnot =>
      refine .pure ⟨h₂, ⟨by omega, by omega⟩, rfl, fun hord => ⟨fun k hk hk' => by omega, ?_⟩⟩
      rw [← hc hord]
      exact hnot
    · next hyes =>
      have hless : p.Ordered → p.lt x (b (idx - 1)) := fun hord => (hc hord).mp (not_not.mp hyes)
      have hstop' : p.Ordered → ∃ k, lower ≤ k ∧ k < idx - 1 ∧ ¬ p.lt x (b k) := fun hord => by
        obtain ⟨k, hk, hki, hnot⟩ := hstop hord
        rcases Int.lt_or_eq_of_le (Int.le_sub_one_of_lt hki) with hlt | rfl
        · exact ⟨k, hk, hlt, hnot⟩
        · exact absurd (hless hord) hnot
      refine (Keeps.scanSortBackward hp hx (by omega) hlower hstop' h₂).mono ?_
      rintro ⟨j, v⟩ s₃ ⟨h₃, hrange, hv, hres⟩
      refine ⟨h₃, ⟨hrange.1, by omega⟩, hv, fun hord => ?_⟩
      obtain ⟨hall, hnot⟩ := hres hord
      refine ⟨fun k hk hki => ?_, hnot⟩
      rcases Int.lt_or_eq_of_le (Int.le_sub_one_of_lt hki) with hlt | rfl
      · exact hall k hk hlt
      · exact hless hord
termination_by (idx - lower).toNat

/-! ### Partitions -/

/-- Between the scans: with a strict weak order what is up to `i` is not above the pivot, and what is from `j` on is
    not below it. The pivot waits before the last value. -/
structure Partitioning (p : SortTask σ) (l u i j : ℤ) (x : Val) (b : ℤ → Val) : Prop where
  i_range : l ≤ i ∧ i ≤ u - 2
  j_range : l < j ∧ j ≤ u - 1
  pivot : b (u - 1) = x
  below : p.Ordered → ∀ k, l ≤ k → k ≤ i → ¬ p.lt x (b k)
  above : p.Ordered → ∀ k, j ≤ k → k ≤ u → ¬ p.lt (b k) x

/-- Where the scans from `i` and `j` stopped. -/
structure Stopped (p : SortTask σ) (l u i j : ℤ) (x : Val) (b : ℤ → Val) (i' j' : ℤ) : Prop where
  i_range : i < i' ∧ i' ≤ u
  j_range : l ≤ j' ∧ j' < j
  forward : p.Ordered → i' ≤ u - 1 ∧ (∀ k, i < k → k < i' → p.lt (b k) x) ∧ ¬ p.lt (b i') x
  backward : p.Ordered → (∀ k, j' < k → k < j → p.lt x (b k)) ∧ ¬ p.lt x (b j')

theorem Ordered.asymm (h : p.Ordered) (hx : x ∈ p.items) (hy : y ∈ p.items) (hxy : p.lt x y) : ¬ p.lt y x :=
  not_lt_of_lt h.weak hx hy hxy

theorem Ordered.irrefl (h : p.Ordered) (hx : x ∈ p.items) : ¬ p.lt x x := fun hxx => h.asymm hx hx hxx hxx

variable {i' j' : ℤ}

/-- What the scans passed is on its side. -/
theorem Stopped.sides (h : p.Stopped l u i j x b i' j') (hpart : p.Partitioning l u i j x b) (hx : x ∈ p.items)
    (hmem : ∀ k, l ≤ k → k ≤ u → b k ∈ p.items) (hord : p.Ordered) :
    (∀ k, l ≤ k → k < i' → ¬ p.lt x (b k)) ∧ ∀ k, j' < k → k ≤ u → ¬ p.lt (b k) x := by
  have hi := h.i_range
  have hj := h.j_range
  constructor
  · intro k hl hk
    rcases le_or_gt k i with hki | hki
    · exact hpart.below hord k hl hki
    · exact hord.asymm (hmem k hl (by omega)) hx ((h.forward hord).2.1 k hki hk)
  · intro k hk hu
    rcases lt_or_ge k j with hkj | hkj
    · exact hord.asymm hx (hmem k (by omega) hu) ((h.backward hord).1 k hk hkj)
    · exact hpart.above hord k hkj hu

/-- The two values that stopped the scans are swapped, and the scans go on. -/
theorem Stopped.partitioning (h : p.Stopped l u i j x b i' j') (hpart : p.Partitioning l u i j x b) (hx : x ∈ p.items)
    (hmem : ∀ k, l ≤ k → k ≤ u → b k ∈ p.items) (hmet : i' ≤ j') :
    p.Partitioning l u i' j' x (b ∘ Equiv.swap i' j') := by
  have hi := h.i_range
  have hj := h.j_range
  have hi' := hpart.i_range
  have hj' := hpart.j_range
  refine ⟨⟨by omega, by omega⟩, ⟨by omega, by omega⟩, ?_, fun hord k hl hk => ?_, fun hord k hk hu => ?_⟩
  · rw [Function.comp_apply, Equiv.swap_apply_of_ne_of_ne (by omega) (by omega)]
    exact hpart.pivot
  · rw [Function.comp_apply]
    rcases Int.lt_or_eq_of_le hk with hlt | rfl
    · rw [Equiv.swap_apply_of_ne_of_ne (by omega) (by omega)]
      exact (h.sides hpart hx hmem hord).1 k hl hlt
    · rw [Equiv.swap_apply_left]
      exact (h.backward hord).2
  · rw [Function.comp_apply]
    rcases Int.lt_or_eq_of_le hk with hlt | rfl
    · rw [Equiv.swap_apply_of_ne_of_ne (by omega) (by omega)]
      exact (h.sides hpart hx hmem hord).2 k hlt hu
    · rw [Equiv.swap_apply_right]
      exact (h.forward hord).2.2

/-- Where the scans met, the pivot divides the range. -/
theorem Stopped.divided (h : p.Stopped l u i j x b i' j') (hpart : p.Partitioning l u i j x b) (hx : x ∈ p.items)
    (hmem : ∀ k, l ≤ k → k ≤ u → b k ∈ p.items) (hmet : j' < i') (hord : p.Ordered) :
    Divided p.lt l u i' (b ∘ Equiv.swap (u - 1) i') := by
  have hpivot : (b ∘ Equiv.swap (u - 1) i') i' = x := by
    rw [Function.comp_apply, Equiv.swap_apply_right]
    exact hpart.pivot
  obtain ⟨hle, -, hnot⟩ := h.forward hord
  obtain ⟨hbelow, habove⟩ := h.sides hpart hx hmem hord
  constructor
  · intro k hl hk
    rw [hpivot]
    rcases Int.lt_or_eq_of_le hk with hlt | rfl
    · rw [Function.comp_apply, Equiv.swap_apply_of_ne_of_ne (by omega) (by omega)]
      exact hbelow k hl hlt
    · rw [hpivot]
      exact hord.irrefl hx
  · intro k hk hu
    rw [hpivot]
    by_cases hki : k = i'
    · rw [hki, hpivot]
      exact hord.irrefl hx
    rw [Function.comp_apply]
    by_cases hku : k = u - 1
    · rw [hku, Equiv.swap_apply_left]
      exact hnot
    · rw [Equiv.swap_apply_of_ne_of_ne hku hki]
      exact habove k (by omega) hu

theorem Keeps.partitionLoop (hp : p.Fit) (hx : x ∈ p.items) (hl : 1 ≤ l) (hu : u ≤ p.n) :
    ∀ {fuel : ℕ} {i j : ℤ} {b : ℤ → Val} {s : SecretTables × σ}, u - i ≤ fuel → p.Partitioning l u i j x b →
      p.Keeps b s → p.Ends s (SortM.partitionLoop p.host p.r l u x p.comp fuel i j) fun i' s' =>
        ∃ b', p.Keeps b' s' ∧ Rearranged l u b b' ∧ (l < i' ∧ i' ≤ u) ∧ b' (u - 1) = x ∧
          (p.Ordered → Divided p.lt l u i' (b' ∘ Equiv.swap (u - 1) i')) := by
  intro fuel
  induction fuel with
  | zero =>
    intro i j b s hfuel hpart
    have := hpart.i_range
    omega
  | succ fuel ih =>
    intro i j b s hfuel hpart h
    have hi := hpart.i_range
    have hj := hpart.j_range
    have hmem : ∀ k, l ≤ k → k ≤ u → b k ∈ p.items := fun k hk hk' => h.mem ⟨by omega, by omega⟩
    -- the pivot stops the scan upwards, and the first value the other one
    have hup : p.Ordered → ∃ k, i < k ∧ k ≤ u - 1 ∧ ¬ p.lt (b k) x := fun hord =>
      ⟨u - 1, by omega, le_rfl, by rw [hpart.pivot]; exact hord.irrefl hx⟩
    have hdown : p.Ordered → ∃ k, l ≤ k ∧ k < j ∧ ¬ p.lt x (b k) := fun hord =>
      ⟨l, le_rfl, hj.1, hpart.below hord l le_rfl hi.1⟩
    rw [SortM.partitionLoop]
    refine (Keeps.scanSortForward hp hx (by omega) hu (by omega) hup h).bind ?_
    rintro ⟨i', ai⟩ s₁ ⟨h₁, hrange, hai, hforward⟩
    refine (Keeps.scanSortBackward hp hx (by omega) hl hdown h₁).bind ?_
    rintro ⟨j', aj⟩ s₂ ⟨h₂, hrange', haj, hbackward⟩
    have hstop : p.Stopped l u i j x b i' j' := ⟨hrange, hrange', hforward, hbackward⟩
    dsimp only at hrange hrange' hai haj ⊢
    split
    · next hmet =>
      exact .pure ⟨b, h₂, .refl l u b, ⟨by omega, by omega⟩, hpart.pivot, hstop.divided hpart hx hmem hmet⟩
    · next hmet =>
      rw [hai, haj]
      refine (h₂.swapSortValues hp ⟨by omega, by omega⟩ ⟨by omega, by omega⟩).seq ?_
      intro _ s₃ h₃
      refine (ih (by omega) (hstop.partitioning hpart hx hmem (by omega)) h₃).mono ?_
      rintro m s₄ ⟨b', h₄, hre, hres⟩
      exact ⟨b', h₄, (Rearranged.swap b ⟨by omega, by omega⟩ ⟨by omega, by omega⟩).trans hre, hres⟩

/-! ### The sort -/

theorem Keeps.swapIf (h : p.Keeps b s) (hp : p.Fit) (hi : p.InRange i) (hj : p.InRange j) (less : Bool) :
    p.Ends s (SortM.swapIf p.host p.r less i (b i) j (b j)) fun _ s' =>
      p.Keeps (if less then b ∘ Equiv.swap i j else b) s' := by
  rw [SortM.swapIf]
  split
  · exact h.swapSortValues hp hi hj
  · exact .pure h

/-- The first value is not above the one in the middle, and that one is not above the last. -/
theorem Keeps.sortMiddle {m : ℤ} (h : p.Keeps b s) (hp : p.Fit) (hl : p.InRange l) (hm : p.InRange m)
    (hu : p.InRange u) (hlm : l < m) (hmu : m < u) (hends : p.Ordered → ¬ p.lt (b u) (b l)) :
    p.Ends s (SortM.sortMiddle p.host p.r l m u p.comp) fun _ s' =>
      ∃ b', p.Keeps b' s' ∧ Rearranged l u b b' ∧ (p.Ordered → ¬ p.lt (b' m) (b' l) ∧ ¬ p.lt (b' u) (b' m)) := by
  rw [SortM.sortMiddle]
  refine (h.getRaw hp hm).bind ?_
  rintro _ s₁ ⟨h₁, rfl⟩
  refine (h₁.getRaw hp hl).bind ?_
  rintro _ s₂ ⟨h₂, rfl⟩
  refine (h₂.sortComp hp (h.mem hm) (h.mem hl)).bind ?_
  rintro c s₃ ⟨h₃, hc⟩
  split
  · next hyes =>
    refine (h₃.swapSortValues hp hm hl).mono fun _ s₄ h₄ => ⟨_, h₄, ?_, fun hord => ?_⟩
    · exact .swap b ⟨hlm.le, hmu.le⟩ ⟨le_rfl, (hlm.trans hmu).le⟩
    · simp only [Function.comp_apply]
      rw [Equiv.swap_apply_left, Equiv.swap_apply_right, Equiv.swap_apply_of_ne_of_ne hmu.ne' (hlm.trans hmu).ne']
      exact ⟨hord.asymm (h.mem hm) (h.mem hl) ((hc hord).mp hyes), hends hord⟩
  · next hno =>
    have hml : p.Ordered → ¬ p.lt (b m) (b l) := fun hord hlt => hno ((hc hord).mpr hlt)
    refine (h₃.getRaw hp hu).bind ?_
    rintro _ s₄ ⟨h₄, rfl⟩
    refine (h₄.sortComp hp (h.mem hu) (h.mem hm)).bind ?_
    rintro c' s₅ ⟨h₅, hc'⟩
    refine (h₅.swapIf hp hm hu c').mono fun _ s₆ h₆ => ⟨_, h₆, ?_⟩
    cases c' with
    | true =>
      refine ⟨.swap b ⟨hlm.le, hmu.le⟩ ⟨(hlm.trans hmu).le, le_rfl⟩, fun hord => ?_⟩
      simp only [if_true, Function.comp_apply]
      rw [Equiv.swap_apply_left, Equiv.swap_apply_right, Equiv.swap_apply_of_ne_of_ne hlm.ne (hlm.trans hmu).ne]
      exact ⟨hends hord, hord.asymm (h.mem hu) (h.mem hm) ((hc' hord).mp rfl)⟩
    | false => exact ⟨.refl l u b, fun hord => ⟨hml hord, fun hlt => Bool.false_ne_true ((hc' hord).mpr hlt)⟩⟩

theorem Keeps.sortEnds (h : p.Keeps b s) (hp : p.Fit) (hl : 1 ≤ l) (hu : u ≤ p.n) (hlu : l < u) :
    p.Ends s (SortM.sortEnds p.host p.r l u p.comp) fun more s' =>
      ∃ b', p.Keeps b' s' ∧ Rearranged l u b b' ∧
        (more = false → p.Ordered → SortedRange p.lt l u b') ∧
        (more = true → l + 3 ≤ u ∧ (p.Ordered → ¬ p.lt (b' ((l + u).tdiv 2)) (b' l) ∧
          ¬ p.lt (b' u) (b' ((l + u).tdiv 2)))) := by
  have hlr : p.InRange l := ⟨hl, by omega⟩
  have hur : p.InRange u := ⟨by omega, hu⟩
  rw [SortM.sortEnds]
  refine (h.getRaw hp hlr).bind ?_
  rintro _ s₁ ⟨h₁, rfl⟩
  refine (h₁.getRaw hp hur).bind ?_
  rintro _ s₂ ⟨h₂, rfl⟩
  refine (h₂.sortComp hp (h.mem hur) (h.mem hlr)).bind ?_
  rintro c s₃ ⟨h₃, hc⟩
  refine (h₃.swapIf hp hlr hur c).seq ?_
  intro _ s₄ h₄
  generalize hb' : (if c then b ∘ Equiv.swap l u else b) = b' at h₄
  have hre : Rearranged l u b b' := by
    rw [← hb']
    cases c with
    | true => exact .swap b ⟨le_rfl, hlu.le⟩ ⟨hlu.le, le_rfl⟩
    | false => exact .refl l u b
  have hends : p.Ordered → ¬ p.lt (b' u) (b' l) := fun hord => by
    rw [← hb']
    cases c with
    | true =>
      simp only [if_true, Function.comp_apply]
      rw [Equiv.swap_apply_left, Equiv.swap_apply_right]
      exact hord.asymm (h.mem hur) (h.mem hlr) ((hc hord).mp rfl)
    | false => exact fun hlt => Bool.false_ne_true ((hc hord).mpr hlt)
  split
  · next htwo =>
    refine .pure ⟨b', h₄, hre, fun _ hord i j hi hij hj => ?_, nofun⟩
    obtain rfl : i = l := by omega
    obtain rfl : j = u := by omega
    exact hends hord
  · next htwo =>
    have hmid : (l + u).tdiv 2 = (l + u) / 2 := Int.tdiv_eq_ediv_of_nonneg (by omega)
    rw [hmid]
    refine (h₄.sortMiddle hp hlr ⟨by omega, by omega⟩ hur (by omega) (by omega) hends).seq ?_
    rintro _ s₅ ⟨b'', h₅, hre', hmiddle⟩
    refine .pure ⟨b'', h₅, hre.trans hre', fun hmore hord => ?_, fun hmore => ⟨?_, hmiddle⟩⟩
    · -- there are three of them
      have hthree : u - l = 2 := by simpa using hmore
      obtain ⟨hlow, hhigh⟩ := hmiddle hord
      have hdiv : Divided p.lt l u ((l + u) / 2) b'' := by
        constructor
        · intro k hk hk'
          rcases Int.lt_or_eq_of_le hk' with hlt | rfl
          · obtain rfl : k = l := by omega
            exact hlow
          · exact hord.irrefl (h₅.mem ⟨by omega, by omega⟩)
        · intro k hk hk'
          rcases Int.lt_or_eq_of_le hk with hlt | rfl
          · obtain rfl : k = u := by omega
            exact hhigh
          · exact hord.irrefl (h₅.mem ⟨by omega, by omega⟩)
      exact hdiv.sorted hord.weak (fun k hk hk' => h₅.mem ⟨by omega, by omega⟩) ⟨by omega, by omega⟩
        (.of_le (by omega)) (.of_le (by omega))
    · have hthree : u - l ≠ 2 := by simpa using hmore
      omega

theorem Keeps.partitionRange (h : p.Keeps b s) (hp : p.Fit) (hl : 1 ≤ l) (hu : u ≤ p.n) (hlu : l + 3 ≤ u)
    (hends : p.Ordered → ¬ p.lt (b ((l + u).tdiv 2)) (b l) ∧ ¬ p.lt (b u) (b ((l + u).tdiv 2))) :
    p.Ends s (SortM.partitionRange p.host p.r l u p.comp) fun i s' =>
      ∃ b', p.Keeps b' s' ∧ Rearranged l u b b' ∧ (l < i ∧ i ≤ u) ∧ (p.Ordered → Divided p.lt l u i b') := by
  rw [SortM.partitionRange]
  obtain ⟨m, hm⟩ : ∃ m, m = (l + u).tdiv 2 := ⟨_, rfl⟩
  have hmid : m = (l + u) / 2 := hm.trans (Int.tdiv_eq_ediv_of_nonneg (by omega))
  rw [← hm] at hends ⊢
  have hmr : p.InRange m := ⟨by omega, by omega⟩
  have hur : p.InRange (u - 1) := ⟨by omega, by omega⟩
  have hx := h.mem hmr
  refine (h.getRaw hp hmr).bind ?_
  rintro _ s₁ ⟨h₁, rfl⟩
  refine (h₁.getRaw hp hur).bind ?_
  rintro _ s₂ ⟨h₂, rfl⟩
  refine (h₂.swapSortValues hp hmr hur).seq ?_
  intro _ s₃ h₃
  have hpart : p.Partitioning l u l (u - 1) (b m) (b ∘ Equiv.swap m (u - 1)) := by
    have hlast : (b ∘ Equiv.swap m (u - 1)) (u - 1) = b m := by rw [Function.comp_apply, Equiv.swap_apply_right]
    refine ⟨⟨le_rfl, by omega⟩, ⟨by omega, le_rfl⟩, hlast, fun hord k hk hk' => ?_, fun hord k hk hk' => ?_⟩
    · obtain rfl : k = l := by omega
      rw [Function.comp_apply, Equiv.swap_apply_of_ne_of_ne (by omega) (by omega)]
      exact (hends hord).1
    · rcases Int.lt_or_eq_of_le hk with hlt | rfl
      · obtain rfl : k = u := by omega
        rw [Function.comp_apply, Equiv.swap_apply_of_ne_of_ne (by omega) (by omega)]
        exact (hends hord).2
      · rw [hlast]
        exact hord.irrefl hx
  refine (Keeps.partitionLoop hp hx hl hu (by omega) hpart h₃).bind ?_
  rintro i s₄ ⟨b', h₄, hre, hi, hpivot, hdiv⟩
  have hir : p.InRange i := ⟨by omega, by omega⟩
  refine (h₄.getRaw hp hir).bind ?_
  rintro _ s₅ ⟨h₅, rfl⟩
  rw [← hpivot]
  refine (h₅.swapSortValues hp hur hir).seq ?_
  intro _ s₆ h₆
  refine .pure ⟨_, h₆, ?_, hi, hdiv⟩
  exact ((Rearranged.swap b ⟨by omega, by omega⟩ ⟨by omega, by omega⟩).trans hre).trans
    (.swap b' ⟨by omega, by omega⟩ ⟨by omega, by omega⟩)

/-- The quicksort, by induction on the nesting: a side of a partition is shorter than the range. -/
theorem Keeps.auxsort (hp : p.Fit) : ∀ {fuel : ℕ} {l u : ℤ} {b : ℤ → Val} {s : SecretTables × σ}, 0 < fuel →
    u - l < fuel → 1 ≤ l → u ≤ p.n → p.Keeps b s → p.Ends s (SortM.auxsort p.host p.r p.comp fuel l u) fun _ s' =>
      ∃ b', p.Keeps b' s' ∧ Rearranged l u b b' ∧ (p.Ordered → SortedRange p.lt l u b') := by
  intro fuel
  induction fuel with
  | zero =>
    intro l u b s hpos
    exact absurd hpos (lt_irrefl 0)
  | succ fuel ih =>
    intro l u b s _ hfuel hl hu h
    rw [SortM.auxsort]
    split
    swap
    · exact .pure ⟨b, h, .refl l u b, fun _ => .of_le (by omega)⟩
    next hlu =>
    refine (h.sortEnds hp hl hu hlu).bind ?_
    rintro more s₁ ⟨b₁, h₁, hre₁, hfew, hmore⟩
    cases more with
    | false => exact .pure ⟨b₁, h₁, hre₁, hfew rfl⟩
    | true =>
      obtain ⟨hthree, hends⟩ := hmore rfl
      refine (h₁.partitionRange hp hl hu hthree hends).bind ?_
      rintro i s₂ ⟨b₂, h₂, hre₂, hi, hdiv₂⟩
      split
      · refine (ih (by omega) (by omega) hl (by omega) h₂).seq ?_
        rintro _ s₃ ⟨b₃, h₃, hre₃, hsorted₃⟩
        refine (ih (by omega) (by omega) (by omega) hu h₃).mono ?_
        rintro _ s₄ ⟨b₄, h₄, hre₄, hsorted₄⟩
        refine ⟨b₄, h₄, ?_, fun hord => ?_⟩
        · exact (hre₁.trans hre₂).trans ((hre₃.mono le_rfl (by omega)).trans (hre₄.mono (by omega) le_rfl))
        · have hdiv := ((hdiv₂ hord).below_rearranged hre₃).above_rearranged hre₄
          exact hdiv.sorted hord.weak (fun k hk hk' => h₄.mem ⟨by omega, by omega⟩) ⟨by omega, by omega⟩
            ((hsorted₃ hord).congr fun k hk hk' => hre₄.outside (by omega)) (hsorted₄ hord)
      · refine (ih (by omega) (by omega) (by omega) hu h₂).seq ?_
        rintro _ s₃ ⟨b₃, h₃, hre₃, hsorted₃⟩
        refine (ih (by omega) (by omega) hl (by omega) h₃).mono ?_
        rintro _ s₄ ⟨b₄, h₄, hre₄, hsorted₄⟩
        refine ⟨b₄, h₄, ?_, fun hord => ?_⟩
        · exact (hre₁.trans hre₂).trans ((hre₃.mono (by omega) le_rfl).trans (hre₄.mono le_rfl (by omega)))
        · have hdiv := ((hdiv₂ hord).above_rearranged hre₃).below_rearranged hre₄
          exact hdiv.sorted hord.weak (fun k hk hk' => h₄.mem ⟨by omega, by omega⟩) ⟨by omega, by omega⟩
            (hsorted₄ hord) ((hsorted₃ hord).congr fun k hk hk' => hre₄.outside (by omega))

/-! ### The library function -/

theorem Keeps.barrierBack (h : p.Keeps b s) :
    p.Ends s (SortM.onTables p.host fun _ => SecretM.barrierBack p.r) fun _ s' => p.Keeps b s' := by
  obtain ⟨s, host⟩ := s
  obtain ⟨t, hget, hinv, harr⟩ := h.get_inv
  refine .of_ok rfl ⟨⟨t, (SecretTables.get_barrierBack ..).trans hget, ?_, harr⟩, h.rearranged⟩
  rw [(SecretTables.wrapping_barrierBack s p.r).strings]
  exact hinv

theorem Keeps.gate (h : p.Keeps b s) {x : Bool → SecretM α} {a : α} (hok : ∀ secure t, s.1.gc.heap.get p.r = some t →
    SecretM.checkTableAccess secure p.r none s.1 = some (s.1, [], .ok ()) → x secure s.1 = some (s.1, [], .ok a))
    (herror : ∀ secure e, SecretM.checkTableAccess secure p.r none s.1 = some (s.1, [], .error e) →
      x secure s.1 = some (s.1, [], .error e)) :
    p.Ends s (SortM.onTables p.host x) fun a' s' => a' = a ∧ s' = s := by
  obtain ⟨s, host⟩ := s
  obtain ⟨t, hget, -⟩ := h.get_inv
  rcases checkTableAccess_cases hget (p.host.secure host) with hgate | hgate
  · exact .of_ok (by simp only [SortM.onTables, hok _ t hget hgate]; rfl) ⟨rfl, rfl⟩
  · exact .of_error (by simp only [SortM.onTables, herror _ _ hgate]; rfl) ⟨⟨b, h⟩, fun _ => .inl rfl⟩

theorem Keeps.tabSort (h : p.Keeps p.table.item s) (hp : p.Fit) (hget : s.1.gc.heap.get p.r = some p.table)
    (hlen : p.table.len s.1.gc.heap.strings = some p.n) {v : Val} (hcomp : SortM.comparatorArg v = .ok p.comp) :
    p.Ends s (SortM.tabSort p.host [.table p.r, v]) fun _ s' =>
      ∃ b, p.Keeps b s' ∧ (p.Ordered → SortedRange p.lt 1 p.n b) := by
  have hcheck : p.Ends s (SortM.onTables p.host fun secure => SecretM.checkTable secure "sort" (.table p.r))
      fun a s' => a = p.r ∧ s' = s :=
    h.gate (fun secure t _ hok => by rw [SecretM.checkTable, Act.bind_of_ok hok]; rfl)
      fun secure e herror => by rw [SecretM.checkTable, Act.bind_of_error herror]
  have hlength : p.Ends s (SortM.onTables p.host fun secure => SecretM.tableLen secure p.r)
      fun a s' => a = (p.n : ℤ) ∧ s' = s := by
    refine h.gate (fun secure t _ hok => ?_) fun secure e herror => by rw [SecretM.tableLen, Act.bind_of_error herror]
    rw [SecretM.tableLen, Act.bind_of_ok hok, Act.get_bind, hget]
    simp only [hlen]
    rfl
  rw [SortM.tabSort]
  refine hcheck.bind ?_
  rintro _ _ ⟨rfl, rfl⟩
  refine hlength.bind ?_
  rintro _ _ ⟨rfl, rfl⟩
  have hargs : argOf [.table p.r, v] 1 = v := rfl
  rw [hargs, hcomp]
  dsimp only
  split
  · refine (Keeps.auxsort hp (by omega) (by omega) le_rfl le_rfl h).seq ?_
    rintro _ s₁ ⟨b, h₁, -, hsorted⟩
    exact h₁.barrierBack.mono fun _ s₂ h₂ => ⟨b, h₂, hsorted⟩
  · exact .pure ⟨_, h, fun _ => .of_le (by omega)⟩

theorem Keeps.items_perm (h : p.Keeps b s) {t : Table} (harr : p.table.Arranged t b) :
    (t.items p.n).Perm (p.table.items p.n) := by
  have hperm := h.rearranged.perm
  have hitems : t.items p.n = (List.range p.n).map fun i => b (i + 1 : ℕ) :=
    List.map_congr_left fun i _ => harr.item_eq (i + 1 : ℕ) (by omega)
  rw [hitems]
  exact hperm

theorem pairwise_items {t : Table} (harr : p.table.Arranged t b) (hsorted : SortedRange p.lt 1 p.n b) :
    (t.items p.n).Pairwise fun x y => ¬ p.lt y x := by
  rw [Table.items, List.pairwise_map]
  refine List.pairwise_lt_range.imp_of_mem ?_
  intro i j hi hj hij
  have hj := List.mem_range.mp hj
  rw [harr.item_eq _ (by omega), harr.item_eq _ (by omega)]
  exact hsorted _ _ (by omega) (by omega) (by omega)

/-- The sort of a table with a value at each integer up to its length comes to an end whatever the comparisons answer.
    It reads and swaps items only, and leaves the same items in some order, also where it fails. With a strict weak
    order it fails only where the table refuses stores, and otherwise leaves the items sorted. -/
theorem tabSort_sorts {s : SecretTables} {host : σ} {v : Val} (hget : s.gc.heap.get p.r = some p.table)
    (hinv : p.table.Inv s.gc.heap.strings) (hwidth : p.table.array.length < 2 ^ 52)
    (hlen : p.table.len s.gc.heap.strings = some p.n) (hpresent : ∀ k, p.InRange k → p.table.item k ≠ .nil)
    (hcomp : SortM.comparatorArg v = .ok p.comp) (hquiet : p.Quiet) :
    ∃ s' w res t', SortM.tabSort p.host [.table p.r, v] (s, host) = some (s', w, res) ∧ (∀ i ∈ w, p.InRange i) ∧
      s'.1.gc.heap.get p.r = some t' ∧ (t'.items p.n).Perm (p.table.items p.n) ∧
      (∀ key, key ≠ .nil → key.isNaN = false → (∀ i, p.InRange i → (Val.num (F64.ofInt i)).rawEq key = false) →
        t'.lookup key = p.table.lookup key) ∧
      (p.Ordered → (∀ e, res = .error e → Refusal e) ∧
        (res = .ok () → (t'.items p.n).Pairwise fun x y => ¬ p.lt y x)) := by
  have hn : p.n < 2 ^ 53 := by
    obtain ⟨k, hk, habsent⟩ := hinv.exists_absent hwidth
    have hnodes := hinv.nodes_le
    by_contra hlarge
    rw [Table.intPresent, Bool.not_eq_false', Val.isNil_eq_true] at habsent
    exact hpresent (1 + k : ℕ) ⟨by omega, by omega⟩ habsent
  have hstart : p.Keeps p.table.item (s, host) := ⟨⟨p.table, hget, hinv, .refl p.table⟩, .refl ..⟩
  have helsewhere : ∀ {b : ℤ → Val} {t' : Table}, Rearranged 1 p.n p.table.item b → p.table.Arranged t' b →
      ∀ key, key ≠ .nil → key.isNaN = false → (∀ i, p.InRange i → (Val.num (F64.ofInt i)).rawEq key = false) →
        t'.lookup key = p.table.lookup key := by
    intro b t' hre harr key hnil hnan hout
    by_cases hpos : Table.NotPositive key
    · exact harr.other key hnil hnan hpos
    · -- the key is an integer behind the items
      rw [Table.NotPositive] at hpos
      push Not at hpos
      obtain ⟨i, hi, hkey⟩ := hpos
      have hkey : (Val.num (F64.ofInt i)).rawEq key = true := Bool.eq_true_of_not_eq_false hkey
      have hbehind : ¬ (1 ≤ (i : ℤ) ∧ (i : ℤ) ≤ p.n) := fun hin => by
        rw [hout i hin] at hkey
        cases hkey
      rw [← Table.lookup_congr hkey, ← Table.lookup_congr hkey]
      exact (harr.item_eq i (by omega)).trans (hre.outside hbehind)
  obtain ⟨s', w, res, hrun, hw, hok, herror⟩ := hstart.tabSort ⟨hn, hpresent, hquiet⟩ hget hlen hcomp
  cases res with
  | ok a =>
    obtain ⟨b, hkeeps, hsorted⟩ := hok a rfl
    obtain ⟨t', hget', hinv', harr⟩ := hkeeps.get_inv
    exact ⟨s', w, .ok a, t', hrun, hw, hget', hkeeps.items_perm harr, helsewhere hkeeps.rearranged harr,
      fun hord => ⟨fun _ h => (by cases h), fun _ => pairwise_items harr (hsorted hord)⟩⟩
  | error e =>
    obtain ⟨⟨b, hkeeps⟩, hrefusal⟩ := herror e rfl
    obtain ⟨t', hget', hinv', harr⟩ := hkeeps.get_inv
    refine ⟨s', w, .error e, t', hrun, hw, hget', hkeeps.items_perm harr, helsewhere hkeeps.rearranged harr,
      fun hord => ⟨fun e' he => ?_, fun h => by cases h⟩⟩
    cases he
    exact hrefusal hord

def numLess : Val → Val → Bool
  | .num a, .num b => a.lt b
  | _, _ => false

/-- Two numbers, the larger one first, in the default order. -/
def twoNumbers : SortTask Unit where
  host := {
    canAccessSecrets := fun _ => true
    callFunction := fun _ _ _ => none
    strcoll := fun _ _ => 0
    secure := fun _ => true }
  comp := .default
  r := ⟨0, 0⟩
  table := { array := [.num (F64.ofInt 2), .num (F64.ofInt 1)] }
  n := 2
  lt := fun x y => numLess x y = true

theorem twoNumbers_items : ∀ v ∈ twoNumbers.items, v = .num (F64.ofInt 1) ∨ v = .num (F64.ofInt 2) := by
  rintro v ⟨k, ⟨h1, h2⟩, rfl⟩
  obtain rfl | rfl : k = 1 ∨ k = 2 := by
    change k ≤ 2 at h2
    omega
  · exact .inr (by decide +kernel)
  · exact .inl (by decide +kernel)

theorem twoNumbers_sortComp {x y : Val} (hx : x ∈ twoNumbers.items) (hy : y ∈ twoNumbers.items)
    (s : SecretTables × Unit) :
    SortM.sortComp twoNumbers.host x y twoNumbers.comp s = some (s, [], .ok (numLess x y)) := by
  rcases twoNumbers_items x hx with rfl | rfl <;> rcases twoNumbers_items y hy with rfl | rfl <;> rfl

theorem twoNumbers_ordered : twoNumbers.Ordered where
  answers x hx y hy s s' w res hrun := by
    rw [twoNumbers_sortComp hx hy] at hrun
    cases hrun
    exact ⟨_, rfl, Iff.rfl⟩
  weak := by
    have hless : ∀ x ∈ twoNumbers.items, ∀ y ∈ twoNumbers.items,
        twoNumbers.lt x y ↔ x = .num (F64.ofInt 1) ∧ y = .num (F64.ofInt 2) := by
      intro x hx y hy
      change numLess x y = true ↔ _
      rcases twoNumbers_items x hx with rfl | rfl <;> rcases twoNumbers_items y hy with rfl | rfl <;> decide +kernel
    have hne : Val.num (F64.ofInt 1) ≠ .num (F64.ofInt 2) := by decide +kernel
    refine { irrefl := ?_, trans := ?_, incomp_trans := ?_ }
    · rintro ⟨x, hx⟩
      rw [hless x hx x hx]
      rintro ⟨h1, h2⟩
      exact hne (h1.symm.trans h2)
    · rintro ⟨x, hx⟩ ⟨y, hy⟩ ⟨z, hz⟩ hxy hyz
      rw [hless x hx y hy] at hxy
      rw [hless y hy z hz] at hyz
      exact absurd (hyz.1.symm.trans hxy.2) hne
    · rintro ⟨x, hx⟩ ⟨y, hy⟩ ⟨z, hz⟩
      simp only [hless x hx y hy, hless y hy x hx, hless y hy z hz, hless z hz y hy, hless x hx z hz, hless z hz x hx]
      rcases twoNumbers_items x hx with rfl | rfl <;> rcases twoNumbers_items y hy with rfl | rfl <;>
        rcases twoNumbers_items z hz with rfl | rfl <;> simp [hne, hne.symm]

/-- The two numbers are sorted. -/
theorem tabSort_sorts_two : ∃ s' w res t',
    SortM.tabSort twoNumbers.host [.table ⟨0, 0⟩, .nil] (SecretTables.oneTable twoNumbers.table 0 false, ()) =
      some (s', w, res) ∧ s'.1.gc.heap.get (⟨0, 0⟩ : GcRef .table) = some t' ∧
      (t'.items 2).Perm (twoNumbers.table.items 2) ∧
      (res = .ok () → (t'.items 2).Pairwise fun x y => ¬ twoNumbers.lt y x) := by
  have hquiet : twoNumbers.Quiet := fun x hx y hy s h t hget =>
    ⟨s, h, _, t, twoNumbers_sortComp hx hy (s, h), hget, ⟨rfl, rfl, rfl, rfl⟩, fun n _ r _ => .inl rfl⟩
  have hinv : twoNumbers.table.Inv (SecretTables.oneTable twoNumbers.table 0 false).gc.heap.strings :=
    ⟨NodesInv.replicate _ 0, .inl ⟨rfl, rfl⟩, Nat.le_refl 0, fun _ _ _ h => by (cases h), by decide,
      fun _ h => by (cases h)⟩
  have hpresent : ∀ k, twoNumbers.InRange k → twoNumbers.table.item k ≠ .nil := by
    intro k hk
    rcases twoNumbers_items _ ⟨k, hk, rfl⟩ with h | h <;> rw [h] <;> exact nofun
  obtain ⟨s', w, res, t', hrun, -, hget, hperm, -, hsorted⟩ := SortTask.tabSort_sorts (p := twoNumbers) (v := .nil)
    (SecretTables.get_oneTable ..) hinv (by decide) (by decide +kernel) hpresent rfl hquiet
  exact ⟨s', w, res, t', hrun, hget, hperm, (hsorted twoNumbers_ordered).2⟩

end SortTask

end Rilua.Vm
