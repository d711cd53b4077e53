import Rilua.Vm.TableInv

/-! Assignment to a table without a rehash. Every way to assign a live key (an array slot, an existing
    node, the dense append, the first node, a new node) gives a table with the invariant and the same
    values except at the key; the only other outcome is that no node is free. -/

namespace Rilua.Vm

open Lib Gc

namespace Table

variable {strings : StringArena} {t t' : Table} {key value : Val}

/-- The table `t'` is `t` with `key` assigned `value`. -/
structure Assigned (strings : StringArena) (t t' : Table) (key value : Val) : Prop where
  inv : t'.Inv strings
  lookup_self : t'.lookup key = value
  lookup_other : ∀ k, k.Live strings → key.rawEq k = false → t'.lookup k = t.lookup k
  array_le : t.array.length ≤ t'.array.length
  occupied_le : occupied t'.nodes ≤ occupied t.nodes + 1
  nodes_of_slot : (t.slot key).isSome → t'.nodes = t.nodes
  length_eq : t.nodes ≠ [] → t'.nodes.length = t.nodes.length
  small : t.Small → t'.Small

theorem Assigned.lookup_eq (h : Assigned strings t t' key value) {k : Val} (hk : k.Live strings) :
    t'.lookup k = if key.rawEq k then value else t.lookup k := by
  cases hkk : key.rawEq k with
  | true => rw [if_pos rfl, ← lookup_congr hkk, h.lookup_self]
  | false => rw [if_neg (by simp), h.lookup_other k hk hkk]

theorem slot_eq_of_length (h : t'.array.length = t.array.length) (k : Val) : t'.slot k = t.slot k := by
  have hidx : t'.arrayIndex = t.arrayIndex := by
    funext j
    simp only [arrayIndex, h]
  rw [slot, slot, hidx]

theorem Inv.setArray (h : t.Inv strings) {idx : ℕ} (hslot : t.slot key = some idx) (value : Val) :
    Assigned strings t (t.setArray idx value) key value := by
  have hlt := ((slot_eq_some h.array_le).mp hslot).2
  have hslot' : ∀ k, (t.setArray idx value).slot k = t.slot k :=
    slot_eq_of_length (by simp [Table.setArray])
  refine ⟨⟨h.nodes_inv, h.size, h.lastFree_le, h.scanned, by simpa [Table.setArray] using h.array_le,
    fun n hn hs => h.shadow n hn (by rw [← hslot']; exact hs)⟩, ?_, ?_,
    by simp [Table.setArray], by simp [Table.setArray], fun _ => rfl, fun _ => rfl,
    fun hs => ⟨by simpa [Table.setArray] using hs.array_le, hs.nodes_le⟩⟩
  · rw [lookup, hslot', hslot]
    simp [Table.setArray, hlt]
  · intro k hk hne
    rw [lookup, lookup, hslot']
    cases hs : t.slot k with
    | none => rfl
    | some j =>
      have hj : idx ≠ j := by
        rintro rfl
        have h1 := ((slot_eq_some h.array_le).mp hslot).1
        have h2 := ((slot_eq_some h.array_le).mp hs).1
        rw [rawEq_of_intKey h1 h2] at hne; cases hne
      simp [Table.setArray, List.getElem?_set_ne hj]

/-- Writing the value of a node whose key is the assigned one. -/
theorem Inv.setNode (h : t.Inv strings) (hk : key.Live strings) (hslot : t.slot key = none) {j : ℕ}
    {n : Node} (hn : t.nodes[j]? = some n) (hnk : n.key.rawEq key = true) (value : Val) :
    Assigned strings t (t.setValue j value) key value := by
  have hnl := hk.congr (Val.rawEq_symm hnk)
  obtain ⟨hinv, hother, hself⟩ := h.nodes_inv.setValue hn hnl value
  have hslot' : ∀ k, (t.setValue j value).slot k = t.slot k := fun _ => rfl
  have hlen : (t.setValue j value).nodes.length = t.nodes.length := List.length_modify ..
  -- a node of the new list has the key of the old node at its place
  have hcases : ∀ (i : ℕ) m, (t.setValue j value).nodes[i]? = some m →
      ∃ o, t.nodes[i]? = some o ∧ o.key = m.key ∧ (i ≠ j → o = m) := by
    intro i m hm
    by_cases hij : j = i
    · subst hij
      have hm' : { n with value } = m := by simpa [setValue, hn] using hm
      exact ⟨n, hn, by rw [← hm'], fun hc => absurd rfl hc⟩
    · have hm' : t.nodes[i]? = some m := by simpa [setValue, hij] using hm
      exact ⟨m, hm', rfl, fun _ => rfl⟩
  refine ⟨⟨hinv, ?_, ?_, ?_, h.array_le, ?_⟩, ?_, ?_, Nat.le_refl _, ?_, ?_, fun _ => hlen,
    fun hs => ⟨hs.array_le, hlen ▸ hs.nodes_le⟩⟩
  · rcases h.size with ⟨h0, -⟩ | hsz
    · rw [h0] at hn; cases hn
    · exact .inr (by rw [hlen]; exact hsz)
  · rw [hlen]; exact h.lastFree_le
  · intro i m hi hm
    obtain ⟨o, ho, hok, -⟩ := hcases i m hm
    rw [← hok]; exact h.scanned i o hi ho
  · intro m hm hs
    obtain ⟨i, hi⟩ := NodesInv.exists_index hm
    obtain ⟨o, ho, hok, hom⟩ := hcases i m hi
    have hij : i ≠ j := by
      rintro rfl
      rw [hn] at ho
      cases ho
      rw [hslot', ← hok, slot_congr hnk, hslot] at hs
      cases hs
    obtain rfl := hom hij
    exact h.shadow o (NodesInv.mem ho) hs
  · rw [lookup, hslot', hslot]
    exact hinv.findValue_eq hk (hself key hnk)
  · intro k hk' hne
    rw [lookup, lookup, hslot']
    have hne' : n.key.rawEq k = false := by rw [Val.rawEq_congr_left hnk]; exact hne
    cases t.slot k with
    | some idx => rfl
    | none => exact h.nodes_inv.findValue_congr hinv hk' fun v => hother k v hk' hne'
  · simp only [setValue, NodesInv.occupied_setValue]; omega
  · intro hs; rw [hslot] at hs; cases hs

/-- The dense append: the key after the array part becomes its next slot. -/
theorem Inv.append (h : t.Inv strings) (hk : key.Live strings)
    (hint : key.intKey = some (t.array.length + 1 : ℤ)) (hle : t.array.length + 1 ≤ maxASize)
    (habs : ∀ n ∈ t.nodes, n.key.rawEq key = false) (value : Val) :
    Assigned strings t { t with array := t.array ++ [value] } key value := by
  set u : Table := { t with array := t.array ++ [value] } with hu
  have hlen : u.array.length = t.array.length + 1 := by simp [hu]
  have hule : u.array.length ≤ maxVecLength := by rw [hlen]; exact hle.trans maxASize_le_maxVecLength
  have hslot : ∀ k, u.slot k = if key.rawEq k then some t.array.length else t.slot k := by
    intro k
    refine Option.ext fun idx => ?_
    rw [slot_eq_some hule, hlen]
    cases hkk : key.rawEq k with
    | true =>
      rw [if_pos rfl, ← intKey_congr hkk, hint]
      simp only [Option.some.injEq]
      omega
    | false =>
      rw [if_neg (by simp), slot_eq_some h.array_le]
      refine ⟨fun ⟨h1, h2⟩ => ⟨h1, ?_⟩, fun ⟨h1, h2⟩ => ⟨h1, by omega⟩⟩
      rcases Nat.lt_succ_iff_lt_or_eq.mp h2 with h2 | rfl
      · exact h2
      · rw [rawEq_of_intKey hint h1] at hkk; cases hkk
  have hself : u.slot key = some t.array.length := by rw [hslot, if_pos hk.rawEq_self]
  have hold : t.slot key = none := by
    refine Option.eq_none_iff_forall_ne_some.mpr fun idx hidx => ?_
    obtain ⟨h1, h2⟩ := (slot_eq_some h.array_le).mp hidx
    rw [hint] at h1
    simp only [Option.some.injEq] at h1
    omega
  refine ⟨⟨h.nodes_inv, h.size, h.lastFree_le, h.scanned, hule, ?_⟩, ?_, ?_, by omega,
    Nat.le_succ _, fun _ => rfl, fun _ => rfl, fun hs => ⟨hlen ▸ hle, hs.nodes_le⟩⟩
  · intro n hn hs
    rw [hslot] at hs
    cases hkn : key.rawEq n.key with
    | true => rw [Val.rawEq_comm, habs n hn] at hkn; cases hkn
    | false => rw [hkn] at hs; exact h.shadow n hn hs
  · rw [lookup, hself]
    simp [hu]
  · intro k hk' hne
    rw [lookup, lookup, hslot, hne]
    simp only [Bool.false_eq_true, if_false]
    cases hs : t.slot k with
    | none => rfl
    | some idx =>
      have hlt := ((slot_eq_some h.array_le).mp hs).2
      simp [hu, List.getElem?_append_left hlt]

/-- Inserting a key at a node and writing its value. -/
theorem Inv.insert (h : t.Inv strings) (hk : key.Live strings) (hslot : t.slot key = none)
    {nodes : List Node} {lastFree idx : ℕ} (hins : NodesInv.Inserted strings t.nodes nodes key idx)
    (hle : lastFree ≤ t.nodes.length)
    (hscan : ∀ (i : ℕ) n, lastFree ≤ i → nodes[i]? = some n → n.key ≠ .nil) (value : Val) :
    Assigned strings t (({ t with nodes, lastFree } : Table).setValue idx value) key value := by
  obtain ⟨n, hn, hnk, hnv⟩ := hins.at_idx
  have hnl : n.key.Live strings := hnk ▸ hk
  set u : Table := { t with nodes, lastFree } with hu
  have huinv : u.Inv strings := by
    refine ⟨hins.inv, ?_, by rw [hu, hins.length_eq]; exact hle, hscan, h.array_le, ?_⟩
    · rcases h.size with ⟨h0, -⟩ | hsz
      · have := hins.length_eq
        rw [h0, List.length_nil, List.length_eq_zero_iff] at this
        rw [this] at hn; cases hn
      · exact .inr (by rw [hu, hins.length_eq]; exact hsz)
    · intro m hm hs
      rcases hins.origin m hm with ⟨-, hv⟩ | ⟨o, ho, hok, hov⟩
      · exact hv
      · rw [← hov]
        refine h.shadow o ho ?_
        rw [hok]; exact hs
  have hset := huinv.setNode hk (t := u) hslot hn (hnk ▸ hk.rawEq_self) value
  refine ⟨hset.inv, hset.lookup_self, fun k hk' hne => ?_, hset.array_le, ?_, ?_, fun _ => ?_,
    fun hs => hset.small ⟨hs.array_le, by rw [hu, hins.length_eq]; exact hs.nodes_le⟩⟩
  · rw [hset.lookup_other k hk' hne, lookup, lookup]
    have hs : u.slot k = t.slot k := rfl
    rw [hs]
    cases t.slot k with
    | some i => rfl
    | none => exact h.nodes_inv.findValue_congr hins.inv hk' fun v => hins.entries k v hk' hne
  · simp only [setValue, NodesInv.occupied_setValue]; exact hins.occupied_le
  · intro hs; rw [hslot] at hs; cases hs
  · rw [setValue, List.length_modify]; exact hins.length_eq

/-! ### Inserting a new key -/

theorem getFreePos_spec {nodes : List Node} : ∀ {n : ℕ}, n ≤ nodes.length →
    (getFreePos nodes n = some (0, none) ∧ ∀ (i : ℕ) m, i < n → nodes[i]? = some m → m.key ≠ .nil) ∨
      ∃ f m, getFreePos nodes n = some (f, some f) ∧ f < n ∧ nodes[f]? = some m ∧ m.key = .nil ∧
        ∀ (i : ℕ) m, f < i → i < n → nodes[i]? = some m → m.key ≠ .nil
  | 0, _ => .inl ⟨rfl, fun i m hi => absurd hi (by omega)⟩
  | n + 1, hle => by
    have hlt : n < nodes.length := by omega
    have hget : nodes[n]? = some nodes[n] := List.getElem?_eq_getElem hlt
    rw [getFreePos, hget]
    simp only [bind, Option.bind_some]
    by_cases hnil : nodes[n].key.isNil = true
    · rw [if_pos hnil]
      exact .inr ⟨n, nodes[n], rfl, by omega, hget, by simpa using hnil, fun i m h1 h2 => by omega⟩
    · rw [if_neg hnil]
      -- node `n` is occupied, so the scan goes on below it
      have hstep : ∀ (i : ℕ) m, i = n → nodes[i]? = some m → m.key ≠ .nil := by
        rintro i m rfl hm h0
        rw [hget] at hm
        cases hm
        exact hnil (by simp [h0])
      have hle' : n ≤ nodes.length := by omega
      rcases getFreePos_spec hle' with ⟨heq, hall⟩ | ⟨f, m, heq, hf, hm, h0, hall⟩
      · refine .inl ⟨heq, fun i m hi hm => ?_⟩
        rcases Nat.lt_succ_iff_lt_or_eq.mp hi with hi | hi
        · exact hall i m hi hm
        · exact hstep i m hi hm
      · refine .inr ⟨f, m, heq, by omega, hm, h0, fun i m hi hi' hm => ?_⟩
        rcases Nat.lt_succ_iff_lt_or_eq.mp hi' with hi' | hi'
        · exact hall i m hi hi' hm
        · exact hstep i m hi' hm

/-- The walk to the predecessor of a node of the chain finds it. -/
theorem predecessor_spec {nodes : List Node} {mp : ℕ} : ∀ {fuel i : ℕ} {l : List ℕ},
    Chain (nextOf nodes) (some i) l → (∀ j ∈ l, j < nodes.length) → l.length ≤ fuel → mp ∈ l →
    mp ≠ i → ∃ prev p, predecessor nodes mp fuel i = some prev ∧ nodes[prev]? = some p ∧
      p.next = some mp
  | fuel, i, [], hl, _, _, _, _ => by cases hl
  | 0, i, j :: l, _, _, hlen, _, _ => by simp at hlen
  | fuel + 1, i, j :: l, hl, hb, hlen, hmem, hne => by
    obtain ⟨hij, hl⟩ := hl
    obtain rfl : i = j := Option.some.inj hij
    have hi := hb i (List.mem_cons_self ..)
    have hget : nodes[i]? = some nodes[i] := List.getElem?_eq_getElem hi
    have hn : nextOf nodes i = nodes[i].next := by rw [nextOf, hget]; rfl
    rw [hn] at hl
    rw [predecessor, hget]
    simp only [bind, Option.bind_some]
    by_cases hnext : nodes[i].next = some mp
    · exact ⟨i, nodes[i], if_pos hnext, hget, hnext⟩
    · rw [if_neg hnext]
      have hmem' : mp ∈ l := (List.mem_cons.mp hmem).resolve_left hne
      cases hx : nodes[i].next with
      | none => rw [hx, Chain.nil_of_none_iff] at hl; subst hl; cases hmem'
      | some k =>
        rw [hx] at hl hnext
        exact predecessor_spec hl (fun j hj => hb j (List.mem_cons_of_mem _ hj))
          (by simpa using hlen) hmem' fun hmk => hnext (by rw [hmk])

/-- What `new_key` returns: an error, when every node is occupied, or the node of the new key. -/
inductive NewKey (strings : StringArena) (t : Table) (key : Val) : TableResult ℕ → Prop
  | full (e : LuaError) (hfull : occupied t.nodes = t.nodes.length) :
      NewKey strings t key ({ t with lastFree := 0 }, .error e)
  | inserted (nodes : List Node) (lastFree idx : ℕ)
      (hins : NodesInv.Inserted strings t.nodes nodes key idx) (hle : lastFree ≤ t.nodes.length)
      (hscan : ∀ (i : ℕ) n, lastFree ≤ i → nodes[i]? = some n → n.key ≠ .nil) :
      NewKey strings t key ({ t with nodes, lastFree }, .ok idx)

theorem Inv.newKey_spec (h : t.Inv strings) (hk : key.Live strings)
    (habs : ∀ n ∈ t.nodes, n.key.rawEq key = false) :
    ∃ r, t.newKey key strings = some r ∧ NewKey strings t key r := by
  by_cases hne : t.nodes = []
  · refine ⟨_, by rw [newKey, if_pos (by simp [hne])], ?_⟩
    have hlf : t.lastFree = 0 := by
      have := h.lastFree_le
      rw [hne] at this
      exact Nat.le_zero.mp this
    have heq : t = { t with lastFree := 0 } := by rw [← hlf]
    rw [heq]
    exact .full _ (by simp [hne, occupied])
  · rw [newKey, if_neg (by simp [hne])]
    have hpos := h.mainPosition_eq hne key
    have hlt := h.home_lt hne key
    rw [hpos]
    generalize hmp : key.mainPosition t.nodes.length strings = mp at hlt
    have hocc : t.nodes[mp]? = some t.nodes[mp] := List.getElem?_eq_getElem hlt
    generalize t.nodes[mp] = occ at hocc
    simp only [bind, hocc, Option.bind_some]
    have hplace : (occ.key = .nil ∨ occ.key.isStale strings = true) →
        NewKey strings t key ({ t with nodes := t.nodes.set mp { occ with key } }, .ok mp) := by
      intro hfree
      have hins := h.nodes_inv.place hk hmp hocc hfree habs
      refine .inserted _ t.lastFree mp hins h.lastFree_le fun i n hi hn h0 => ?_
      have hlt' : i < t.nodes.length := hins.length_eq ▸ NodesInv.lt_length hn
      have hget : t.nodes[i]? = some t.nodes[i] := List.getElem?_eq_getElem hlt'
      obtain ⟨n', hn', h0'⟩ := hins.keeps i _ hget (h.scanned i _ hi hget)
      rw [hn] at hn'
      cases hn'
      exact h0' h0
    by_cases h0 : occ.key.isNil = true
    · rw [if_pos h0]
      exact ⟨_, rfl, hplace (.inl (by simpa using h0))⟩
    · rw [if_neg h0]
      have h0' : occ.key ≠ .nil := by simpa using h0
      by_cases hdead : occ.isDead strings = true
      · rw [if_pos hdead]
        refine ⟨_, rfl, hplace (.inr ?_)⟩
        rw [Node.isDead, Bool.and_eq_true] at hdead
        exact hdead.2
      · rw [if_neg hdead]
        -- the occupant is not dead, hence live: a stale key has no value
        have hlive : occ.key.Live strings := by
          rcases h.nodes_inv.key_cases (NodesInv.mem hocc) with h1 | h1 | h1
          · exact absurd h1 h0'
          · exact h1
          · refine absurd ?_ hdead
            rw [Node.isDead, Bool.and_eq_true]
            exact ⟨by simp [h.nodes_inv.stale occ (NodesInv.mem hocc) h1], h1⟩
        rcases getFreePos_spec h.lastFree_le with ⟨hfree, hall⟩ | ⟨f, fn, hfree, hflt, hf, hf0, hall⟩
        · rw [hfree]
          refine ⟨_, rfl, .full _ ?_⟩
          refine List.countP_eq_length.mpr fun n hn => ?_
          obtain ⟨i, hi⟩ := NodesInv.exists_index hn
          have hni : n.key ≠ .nil := by
            rcases Nat.lt_or_ge i t.lastFree with hlf | hlf
            · exact hall i n hlf hi
            · exact h.scanned i n hlf hi
          simpa using hni
        · rw [hfree]
          simp only [Option.bind_some]
          -- everything from the free node on is occupied once the free node is
          have hscan : ∀ (ns : List Node), ns.length = t.nodes.length →
              (∀ (i : ℕ) n, t.nodes[i]? = some n → n.key ≠ .nil → ∃ n', ns[i]? = some n' ∧ n'.key ≠ .nil) →
              (∀ n, ns[f]? = some n → n.key ≠ .nil) →
              ∀ (i : ℕ) n, f ≤ i → ns[i]? = some n → n.key ≠ .nil := by
            intro ns hlen hkeep hfk i n hi hn
            rcases Nat.eq_or_lt_of_le hi with rfl | hi
            · exact hfk n hn
            · have hlt' : i < t.nodes.length := hlen ▸ NodesInv.lt_length hn
              have hget : t.nodes[i]? = some t.nodes[i] := List.getElem?_eq_getElem hlt'
              have hold : t.nodes[i].key ≠ .nil := by
                rcases Nat.lt_or_ge i t.lastFree with hlf | hlf
                · exact hall i _ hi hlf hget
                · exact h.scanned i _ hlf hget
              obtain ⟨n', hn', h0'⟩ := hkeep i _ hget hold
              rw [hn] at hn'
              cases hn'
              exact h0'
          have hflt' : f < t.nodes.length := NodesInv.lt_length hf
          have hfm : f ≠ mp := by
            rintro rfl
            rw [hocc] at hf; cases hf; exact h0' hf0
          have hposo := h.mainPosition_eq hne occ.key
          rw [hposo]
          by_cases hhome : occ.key.mainPosition t.nodes.length strings = mp
          · rw [if_pos hhome]
            set ns := ((t.nodes.modify f fun n => { n with next := occ.next }).modify mp
              fun n => { n with next := some f }).modify f fun n => { n with key } with hns
            have hns_mp : ns[mp]? = some { occ with next := some f } := by
              simp [hns, hfm, hocc]
            have hns_f : ns[f]? = some ⟨key, .nil, occ.next⟩ := by
              simp [hns, Ne.symm hfm, hf, (h.nodes_inv.free f fn hf hf0).1]
            have hns_o : ∀ i : ℕ, i ≠ mp → i ≠ f → ns[i]? = t.nodes[i]? := by
              intro i h1 h2
              simp [hns, Ne.symm h1, Ne.symm h2]
            have hlen : ns.length = t.nodes.length := by simp [hns]
            have hins := h.nodes_inv.chainAfter hk hmp hocc hlive hhome hf hf0 habs hlen hns_mp hns_f
              hns_o
            refine ⟨_, rfl, .inserted ns f f hins (by omega) (hscan ns hlen hins.keeps ?_)⟩
            intro n hn
            rw [hns_f] at hn
            cases hn
            exact hk.ne_nil
          · rw [if_neg hhome]
            obtain ⟨o, ho, -⟩ := h.nodes_inv.home_occ occ (NodesInv.mem hocc) hlive
            obtain ⟨l, hl, hb⟩ := h.nodes_inv.chain _ (NodesInv.lt_length ho)
            have hmem := h.nodes_inv.reach mp occ l hocc hlive hl
            obtain ⟨prev, p, hprev, hp, hpn⟩ := predecessor_spec hl hb (hl.length_le hb) hmem
              (Ne.symm hhome)
            have hpf : prev ≠ f := by
              rintro rfl
              rw [hf] at hp
              cases hp
              rw [(h.nodes_inv.free _ _ hf hf0).2.1] at hpn; cases hpn
            have hpm : prev ≠ mp := by
              rintro rfl
              obtain ⟨q, -, hq⟩ := hl.exists_pred hmem (Ne.symm hhome)
              obtain ⟨l₁, hl₁, -⟩ := h.nodes_inv.chain prev hlt
              obtain ⟨l₂, rfl, hl₂⟩ := hl₁.eq_cons
              have hself : nextOf t.nodes prev = some prev := by rw [nextOf, hp]; exact hpn
              rw [hself] at hl₂
              exact (List.nodup_cons.mp hl₁.nodup).1 hl₂.head_mem
            have hocc' : (t.nodes.modify prev fun n => { n with next := some f })[mp]? = some occ := by
              simp [hpm, hocc]
            simp only [hprev, Option.bind_some, hocc']
            set ns := ((t.nodes.modify prev fun n => { n with next := some f }).set f occ).set mp
              { Node.empty with key } with hns
            have hlen : ns.length = t.nodes.length := by simp [hns]
            have hns_mp : ns[mp]? = some ⟨key, .nil, none⟩ := by simp [hns, hlt, Node.empty]
            have hns_f : ns[f]? = some occ := by
              rw [hns, List.getElem?_set_ne (Ne.symm hfm), List.getElem?_set_self (by simpa using hflt')]
            have hns_p : ns[prev]? = some { p with next := some f } := by
              simp [hns, List.getElem?_set_ne (Ne.symm hpm), List.getElem?_set_ne (Ne.symm hpf), hp]
            have hns_o : ∀ i : ℕ, i ≠ mp → i ≠ f → i ≠ prev → ns[i]? = t.nodes[i]? := by
              intro i h1 h2 h3
              simp [hns, List.getElem?_set_ne (Ne.symm h1), List.getElem?_set_ne (Ne.symm h2),
                Ne.symm h3]
            have hins := h.nodes_inv.relocate hk hmp hocc hlive hhome hf hf0 hp hpn habs hlen hns_mp
              hns_f hns_p hns_o
            refine ⟨_, rfl, .inserted ns f mp hins (by omega) (hscan ns hlen hins.keeps ?_)⟩
            intro n hn
            rw [hns_f] at hn
            cases hn
            exact h0'

/-! ### The assignment itself -/

theorem denseArrayAppendIndex_isSome (t : Table) (key : Val) :
    (t.denseArrayAppendIndex key).isSome ↔
      key.intKey = some (t.array.length + 1 : ℤ) ∧ t.array.length + 1 ≤ maxASize := by
  rw [denseArrayAppendIndex]
  cases hk : key.intKey with
  | none => simp
  | some k =>
    simp only [Option.some.injEq]
    split
    · next hc => simp only [Option.isSome_some, true_iff]; omega
    · next hc => simp only [Option.isSome_none, Bool.false_eq_true, false_iff]; omega

/-- The first insertion: a hash part of two nodes, one of which gets the key. -/
theorem Inv.insertFirst (h : t.Inv strings) (hk : key.Live strings) (hslot : t.slot key = none)
    (hnil : t.nodes = []) (value : Val) :
    ∃ t', t.insertFirstHashNode key value strings = (t', true) ∧ Assigned strings t t' key value := by
  set u : Table := { t with nodes := [Node.empty, Node.empty], lastFree := 2, log2Size := 1 } with hu
  have hnodes : u.nodes = List.replicate 2 Node.empty := rfl
  have huinv : u.Inv strings := by
    refine ⟨hnodes ▸ NodesInv.replicate strings 2, .inr ⟨rfl, by simp [hu]⟩, Nat.le_refl 2, ?_,
      h.array_le, ?_⟩
    · intro i n hi hn
      have := NodesInv.lt_length hn
      simp [hu] at this hi
      omega
    · intro n hn _
      rw [hnodes, List.mem_replicate] at hn
      rw [hn.2]
      rfl
  have hne : u.nodes ≠ [] := by simp [hu]
  have habs : ∀ n ∈ u.nodes, n.key.rawEq key = false := by
    intro n hn
    rw [hnodes, List.mem_replicate] at hn
    rw [hn.2]
    exact NodesInv.rawEq_nil hk
  have hlt := huinv.home_lt hne key
  have hpos := huinv.mainPosition_eq hne key
  set mp := key.mainPosition u.nodes.length strings with hmp
  have hget : u.nodes[mp]? = some Node.empty := by
    rw [hnodes, List.getElem?_replicate, if_pos (by simpa [hu] using hlt)]
  have hins := huinv.nodes_inv.place hk hmp.symm hget (.inl rfl) habs
  have hset := huinv.insert hk hslot hins (Nat.le_refl u.nodes.length) (fun i n hi hn => ?_) value
  · refine ⟨_, ?_, hset.inv, hset.lookup_self, fun k hk' hne' => ?_, hset.array_le, ?_, ?_, ?_,
      fun hs => hset.small ⟨hs.array_le, (by decide : 2 ≤ maxASize)⟩⟩
    · rw [insertFirstHashNode, if_neg (by simp [hnil])]
      have hmod : u.nodes.modify mp (fun n => { n with key, value }) =
          (u.nodes.set mp { Node.empty with key }).modify mp fun n => { n with value } := by
        refine List.ext_getElem? fun i => ?_
        rcases eq_or_ne mp i with rfl | hi
        · have hmp' : u.nodes[mp] = Node.empty := by
            rw [List.getElem?_eq_getElem hlt] at hget
            exact Option.some.inj hget
          simp [hlt, hmp']
        · simp [hi]
      simp only [← hu, hpos]
      change ({ u with nodes := u.nodes.modify mp fun n => { n with key, value } }, true) = _
      rw [hmod]
      rfl
    · rw [hset.lookup_other k hk' hne', lookup, lookup]
      have hs : u.slot k = t.slot k := rfl
      rw [hs, hnodes, hnil]
      cases t.slot k with
      | some i => rfl
      | none => 
        simp only
        rw [NodesInv.findValue_of_absent, NodesInv.findValue_of_absent]
        · intro n hn; cases hn
        · intro n hn
          rw [(List.mem_replicate.mp hn).2]
          exact NodesInv.rawEq_nil hk'
    · refine Nat.le_trans hset.occupied_le ?_
      simp [hnodes, hnil, occupied, Node.empty]
    · intro hs; rw [hslot] at hs; cases hs
    · intro h0; exact absurd hnil h0
  · have hlt' := NodesInv.lt_length hn
    rw [hins.length_eq] at hlt'
    omega

theorem Inv.updateExistingHashSlot_spec (h : t.Inv strings) (hk : key.Live strings) (value : Val) :
    (∃ (j : ℕ) (n : Node), t.updateExistingHashSlot key value strings = some (t.setValue j value, true) ∧
        t.nodes[j]? = some n ∧ n.key.rawEq key = true) ∨
      (t.updateExistingHashSlot key value strings = some (t, false) ∧
        ∀ n ∈ t.nodes, n.key.rawEq key = false) := by
  rw [updateExistingHashSlot]
  by_cases hne : t.nodes = []
  · rw [if_pos (by simp [hne])]
    exact .inr ⟨rfl, by simp [hne]⟩
  · rw [if_neg (by simp [hne])]
    rcases h.walk_live hk hne with ⟨j, n, hw, hn, hnk⟩ | ⟨hw, habs⟩
    · exact .inl ⟨j, n, by simp [hw], hn, hnk⟩
    · exact .inr ⟨by simp [hw], habs⟩

/-- The assignment to a key that an entry can have. -/
theorem rawSetWith_live (hk : key.Live strings) (onFull : Table → LuaError → Option (TableResult ℕ)) (value : Val) :
    rawSetWith onFull t key value strings =
      (match t.slot key with
      | some idx => some (t.setArray idx value, .ok 0)
      | none => do
        let (t, updated) ← t.updateExistingHashSlot key value strings
        if updated then some (t, .ok 0)
        else if value.isNil then some (t, .ok 0)
        else if (t.denseArrayAppendIndex key).isSome then
          some ({ t with array := t.array ++ [value] }, .ok 16)
        else
          let (t, inserted) := t.insertFirstHashNode key value strings
          if inserted then some (t, .ok 64)
          else
            match ← t.newKey key strings with
            | (t, .ok idx) => some (t.setValue idx value, .ok 0)
            | (t, .error e) => onFull t e) := by
  rw [rawSetWith]
  · rw [if_neg (by simp [hk.not_nan])]
    rfl
  · exact hk.ne_nil

/-- An assignment to a live key succeeds, unless the hash part is full; then `onFull` goes on with the
    table, which does not have the key. -/
theorem Inv.rawSetWith_spec (h : t.Inv strings) (hk : key.Live strings) (value : Val) :
    (∃ t' d, (∀ onFull, rawSetWith onFull t key value strings = some (t', .ok d)) ∧
        Assigned strings t t' key value) ∨
      (∃ e, (∀ onFull, rawSetWith onFull t key value strings = onFull { t with lastFree := 0 } e) ∧
        occupied t.nodes = t.nodes.length ∧ t.slot key = none ∧ value ≠ .nil ∧
        ∀ n ∈ t.nodes, n.key.rawEq key = false) := by
  simp only [rawSetWith_live hk]
  cases hslot : t.slot key with
  | some idx => exact .inl ⟨_, 0, fun _ => rfl, h.setArray hslot value⟩
  | none =>
    simp only
    rcases h.updateExistingHashSlot_spec hk value with ⟨j, n, hup, hn, hnk⟩ | ⟨hup, habs⟩
    · exact .inl ⟨_, 0, fun _ => by rw [hup]; rfl, h.setNode hk hslot hn hnk value⟩
    simp only [hup, bind, Option.bind_some, Bool.false_eq_true, if_false]
    rcases Bool.eq_false_or_eq_true value.isNil with hnil | hnil
    · -- nothing is assigned nil: the key stays absent
      rw [hnil]
      refine .inl ⟨t, 0, fun _ => rfl, ⟨h, ?_, fun _ _ _ => rfl, Nat.le_refl _, Nat.le_succ _,
        fun _ => rfl, fun _ => rfl, id⟩⟩
      rw [lookup, hslot, Val.isNil_eq_true.mp hnil]
      exact NodesInv.findValue_of_absent habs
    have hv : value ≠ .nil := Val.isNil_eq_false.mp hnil
    simp only [hnil, Bool.false_eq_true, if_false]
    by_cases happ : (t.denseArrayAppendIndex key).isSome
    · obtain ⟨hint, hle⟩ := (denseArrayAppendIndex_isSome t key).mp happ
      exact .inl ⟨_, 16, fun _ => by rw [if_pos happ], h.append hk hint hle habs value⟩
    simp only [happ, Bool.false_eq_true, if_false]
    by_cases hne : t.nodes = []
    · obtain ⟨t', hfirst, hset⟩ := h.insertFirst hk hslot hne value
      exact .inl ⟨t', 64, fun _ => by rw [hfirst]; rfl, hset⟩
    have hfirst : t.insertFirstHashNode key value strings = (t, false) := by
      rw [insertFirstHashNode, if_pos (by simp [hne])]
    obtain ⟨r, hr, hspec⟩ := h.newKey_spec hk habs
    simp only [hfirst, hr, Option.bind_some, Bool.false_eq_true, if_false]
    cases hspec with
    | full e hfull => exact .inr ⟨e, fun _ => rfl, hfull, trivial, hv, habs⟩
    | inserted nodes lastFree idx hins hle hscan =>
      exact .inl ⟨_, 0, fun _ => rfl, h.insert hk hslot hins hle hscan value⟩

end Table

end Rilua.Vm
