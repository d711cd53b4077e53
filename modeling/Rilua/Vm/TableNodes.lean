import Rilua.Lib.Chain
import Rilua.Vm.Table

/-! The hash part of a table as a set of entries. `NodesInv` is what keeps it one: links form finite
    chains, every live key is on the chain of its main position, no key occurs twice, and the occupant
    of the main position of a live key is at home or dead. Inserting a key (at a free node, over a dead
    one, after the occupant, or in the place of a displaced occupant) and writing a value are the only
    changes, and each is described by what it does to the entries. -/

namespace Rilua.Vm

open Lib Gc

namespace Val

/-- The key is a string that has been freed. -/
def isStale (strings : StringArena) : Val → Bool
  | .str r => (strings.get r).isNone
  | _ => false

/-- What a program can use as a key: not nil, not not-a-number, and not a string that was freed. -/
structure Live (strings : StringArena) (key : Val) : Prop where
  ne_nil : key ≠ .nil
  not_nan : key.isNaN = false
  not_stale : key.isStale strings = false

theorem Live.rawEq_self {strings : StringArena} {key : Val} (h : key.Live strings) :
    key.rawEq key = true := rawEq_refl h.not_nan

/-- Keys that are raw equal are live together. -/
theorem Live.congr {strings : StringArena} {a b : Val} (h : a.Live strings) (heq : a.rawEq b = true) :
    b.Live strings := by
  obtain ⟨hn, hnan, hs⟩ := h
  cases a <;> cases b <;> simp only [rawEq, Bool.false_eq_true, beq_iff_eq] at heq
  case nil.nil => exact absurd rfl hn
  case bool.bool => exact heq ▸ ⟨hn, hnan, hs⟩
  case num.num a b => exact ⟨by simp, F64.isNaN_of_beq (F64.beq_symm heq), rfl⟩
  all_goals exact heq ▸ ⟨hn, hnan, hs⟩

theorem hashNumber_congr {a b : F64} (h : a.beq b = true) : hashNumber a = hashNumber b := by
  rw [hashNumber, hashNumber, F64.add_congr_left h F64.scaled_one_ne_zero]

/-- Keys that are raw equal have the same main position. -/
theorem mainPosition_congr {a b : Val} (h : a.rawEq b = true) (size : ℕ) (strings : StringArena) :
    a.mainPosition size strings = b.mainPosition size strings := by
  cases a <;> cases b <;> simp only [rawEq, Bool.false_eq_true, beq_iff_eq] at h
  case num.num a b => rw [mainPosition, mainPosition, hashNumber_congr h]
  all_goals first | rfl | rw [h]

theorem wrappingPred_eq {n : ℕ} (h0 : 0 < n) (h : n < u32Size) : wrappingPred n = n - 1 := by
  simp only [wrappingPred, u32Size] at *
  omega

theorem mainPosition_lt {k : ℕ} (hk : k < 32) (key : Val) (strings : StringArena) :
    key.mainPosition (2 ^ k) strings < 2 ^ k := by
  have hpos : 0 < 2 ^ k := Nat.two_pow_pos k
  have hlt : 2 ^ k < u32Size := Nat.pow_lt_pow_right (by omega) hk
  have hpred := wrappingPred_eq hpos hlt
  have hpow2 : ∀ h, hashPow2 h (2 ^ k) < 2 ^ k := fun h => by
    rw [hashPow2, hpred]
    exact Nat.lt_of_le_of_lt Nat.and_le_right (by omega)
  have hmod : ∀ h, hashMod h (2 ^ k) < 2 ^ k := fun h => by
    rw [hashMod, hpred]
    have hor : 1 ≤ (2 ^ k - 1) ||| 1 := Nat.right_le_or
    rcases Nat.eq_zero_or_pos k with rfl | hk0
    · simp [Nat.mod_one]
    · have hle : (2 ^ k - 1) ||| 1 < 2 ^ k :=
        Nat.or_lt_two_pow (by omega) (Nat.one_lt_two_pow (by omega))
      exact Nat.lt_trans (Nat.mod_lt _ hor) hle
  cases key <;> first | exact hpos | exact hpow2 _ | exact hmod _

end Val

/-- The link of node `i`. -/
def nextOf (nodes : List Node) (i : ℕ) : Option ℕ := (nodes[i]?).bind Node.next

/-- The hash part holds value `v` at a key equal to `k`. -/
def HasEntry (nodes : List Node) (k v : Val) : Prop := ∃ n ∈ nodes, n.key.rawEq k = true ∧ n.value = v

/-- The number of nodes that are not free. -/
def occupied (nodes : List Node) : ℕ := nodes.countP fun n => !n.key.isNil

/-- The invariant of the nodes of the hash part. -/
structure NodesInv (strings : StringArena) (nodes : List Node) : Prop where
  chain : ∀ i < nodes.length, ∃ l, Chain (nextOf nodes) (some i) l ∧ ∀ j ∈ l, j < nodes.length
  pred_unique : ∀ i j k, nextOf nodes i = some k → nextOf nodes j = some k → i = j
  free : ∀ (i : ℕ) n, nodes[i]? = some n → n.key = .nil →
    n.value = .nil ∧ n.next = none ∧ ∀ j, nextOf nodes j ≠ some i
  not_nan : ∀ n ∈ nodes, n.key.isNaN = false
  stale : ∀ n ∈ nodes, n.key.isStale strings = true → n.value = .nil
  reach : ∀ (i : ℕ) n l, nodes[i]? = some n → n.key.Live strings →
    Chain (nextOf nodes) (some (n.key.mainPosition nodes.length strings)) l → i ∈ l
  home_occ : ∀ n ∈ nodes, n.key.Live strings →
    ∃ m, nodes[n.key.mainPosition nodes.length strings]? = some m ∧
      (m.key.isStale strings = true ∨ m.key.Live strings ∧
        m.key.mainPosition nodes.length strings = n.key.mainPosition nodes.length strings)
  distinct : ∀ (i j : ℕ) n m, nodes[i]? = some n → nodes[j]? = some m → n.key ≠ .nil →
    n.key.rawEq m.key = true → i = j

namespace NodesInv

variable {strings : StringArena} {nodes nodes' : List Node}

theorem lt_length {i : ℕ} {n : Node} (h : nodes[i]? = some n) : i < nodes.length :=
  (List.getElem?_eq_some_iff.mp h).1

theorem mem {i : ℕ} {n : Node} (h : nodes[i]? = some n) : n ∈ nodes := List.mem_of_getElem? h

theorem exists_index {n : Node} (h : n ∈ nodes) : ∃ i : ℕ, nodes[i]? = some n := by
  obtain ⟨i, hi, rfl⟩ := List.mem_iff_getElem.mp h
  exact ⟨i, List.getElem?_eq_getElem hi⟩

/-- A key in the hash part is nil, live or stale. -/
theorem key_cases (h : NodesInv strings nodes) {n : Node} (hn : n ∈ nodes) :
    n.key = .nil ∨ n.key.Live strings ∨ n.key.isStale strings = true := by
  by_cases h0 : n.key = .nil
  · exact .inl h0
  · rcases Bool.eq_false_or_eq_true (n.key.isStale strings) with hs | hs
    · exact .inr (.inr hs)
    · exact .inr (.inl ⟨h0, h.not_nan n hn, hs⟩)

theorem ne_nil_of_stale {k : Val} (h : k.isStale strings = true) : k ≠ .nil := by
  rintro rfl; cases h

/-- No live key equals a stale one. -/
theorem rawEq_stale {k k' : Val} (h : k.isStale strings = true) (h' : k'.Live strings) :
    k.rawEq k' = false := by
  refine Bool.eq_false_iff.mpr fun heq => ?_
  have hs := (h'.congr (Val.rawEq_symm heq)).not_stale
  rw [h] at hs; cases hs

theorem rawEq_nil {k : Val} (h : k.Live strings) : Val.nil.rawEq k = false := by
  cases k <;> first | rfl | exact absurd rfl h.ne_nil

/-- An empty hash part. -/
theorem replicate (strings : StringArena) (n : ℕ) :
    NodesInv strings (List.replicate n Node.empty) := by
  have hget : ∀ (i : ℕ) m, (List.replicate n Node.empty)[i]? = some m → m = Node.empty := by
    intro i m hm
    exact (List.mem_replicate.mp (mem hm)).2
  have hnext : ∀ i, nextOf (List.replicate n Node.empty) i = none := by
    intro i
    rw [nextOf]
    cases hm : (List.replicate n Node.empty)[i]? with
    | none => rfl
    | some m => rw [hget i m hm]; rfl
  have hmem : ∀ m ∈ List.replicate n Node.empty, m.key = .nil := by
    intro m hm
    rw [(List.mem_replicate.mp hm).2]; rfl
  refine ⟨?_, ?_, ?_, ?_, ?_, ?_, ?_, ?_⟩
  · intro i hi
    refine ⟨[i], ⟨rfl, by rw [hnext i]; rfl⟩, ?_⟩
    intro j hj
    rwa [List.mem_singleton.mp hj]
  · intro i j k hi
    rw [hnext] at hi; cases hi
  · intro i m hm _
    rw [hget i m hm]
    exact ⟨rfl, rfl, fun j => by rw [hnext]; simp⟩
  · intro m hm; rw [hmem m hm]; rfl
  · intro m hm hs; rw [hmem m hm] at hs; cases hs
  · intro i m l hm hl _; exact absurd (hmem m (mem hm)) hl.ne_nil
  · intro m hm hl; exact absurd (hmem m hm) hl.ne_nil
  · intro i j m m' hm _ h0; exact absurd (hmem m (mem hm)) h0

/-- Strings that are freed, when their entries are nil, leave the invariant as it is. -/
theorem strings_step {strings' : StringArena} (h : NodesInv strings nodes)
    (hstep : ∀ n ∈ nodes, ∀ r, n.key = .str r →
      strings'.get r = strings.get r ∨ strings'.get r = none ∧ n.value = .nil) :
    NodesInv strings' nodes := by
  -- a live key was live, with the same main position
  have hlive : ∀ n ∈ nodes, n.key.Live strings' → n.key.Live strings ∧
      n.key.mainPosition nodes.length strings' = n.key.mainPosition nodes.length strings := by
    intro n hn ⟨h0, hnan, hs⟩
    cases hk : n.key with
    | str r =>
      rcases hstep n hn r hk with heq | ⟨hnone, -⟩
      · rw [hk] at hs
        refine ⟨⟨by simp, rfl, ?_⟩, ?_⟩
        · rw [Val.isStale, ← heq]; exact hs
        · rw [Val.mainPosition, Val.mainPosition, heq]
      · rw [hk, Val.isStale, hnone] at hs; cases hs
    | nil => exact absurd hk h0
    | num x => rw [hk] at hnan; exact ⟨⟨by simp, hnan, rfl⟩, rfl⟩
    | _ => exact ⟨⟨by simp, rfl, rfl⟩, rfl⟩
  have hstale : ∀ n ∈ nodes, n.key.isStale strings = true → n.key.isStale strings' = true := by
    intro n hn hs
    cases hk : n.key with
    | str r =>
      rw [hk, Val.isStale] at hs
      rcases hstep n hn r hk with heq | ⟨hnone, -⟩
      · rw [Val.isStale, heq]; exact hs
      · rw [Val.isStale, hnone]; rfl
    | _ => rw [hk] at hs; cases hs
  refine ⟨h.chain, h.pred_unique, h.free, h.not_nan, ?_, ?_, ?_, h.distinct⟩
  · intro n hn hs
    cases hk : n.key with
    | str r =>
      rcases hstep n hn r hk with heq | ⟨-, hv⟩
      · refine h.stale n hn ?_
        rw [hk, Val.isStale, heq] at hs
        rw [hk, Val.isStale]
        exact hs
      · exact hv
    | _ => rw [hk] at hs; cases hs
  · intro i n l hn hl hc
    obtain ⟨hl, hpos⟩ := hlive n (mem hn) hl
    rw [hpos] at hc
    exact h.reach i n l hn hl hc
  · intro n hn hl'
    obtain ⟨hl, hpos⟩ := hlive n hn hl'
    obtain ⟨m, hm, hcase⟩ := h.home_occ n hn hl
    rw [hpos]
    refine ⟨m, hm, ?_⟩
    rcases hcase with hs | ⟨hml, hmp⟩
    · exact .inl (hstale m (mem hm) hs)
    · rcases h.key_cases (mem hm) with h0 | - | hs
      · exact absurd h0 hml.ne_nil
      · rcases Bool.eq_false_or_eq_true (m.key.isStale strings') with hs' | hs'
        · exact .inl hs'
        · have hml' : m.key.Live strings' := ⟨hml.ne_nil, hml.not_nan, hs'⟩
          exact .inr ⟨hml', (hlive m (mem hm) hml').2.trans hmp⟩
      · rw [hml.not_stale] at hs; cases hs

/-! ### Entries -/

/-- A key has at most one value. -/
theorem hasEntry_unique (h : NodesInv strings nodes) {k v v' : Val} (hk : k.Live strings)
    (hv : HasEntry nodes k v) (hv' : HasEntry nodes k v') : v = v' := by
  obtain ⟨n, hn, hnk, rfl⟩ := hv
  obtain ⟨m, hm, hmk, rfl⟩ := hv'
  obtain ⟨i, hi⟩ := exists_index hn
  obtain ⟨j, hj⟩ := exists_index hm
  have hnl := hk.congr (Val.rawEq_symm hnk)
  obtain rfl := h.distinct i j n m hi hj hnl.ne_nil (Val.rawEq_trans hnk (Val.rawEq_symm hmk))
  rw [hi] at hj
  cases hj; rfl

/-- The value of a key in the hash part. -/
def findValue (nodes : List Node) (k : Val) : Val :=
  ((nodes.find? fun n => n.key.rawEq k).map Node.value).getD .nil

theorem findValue_eq (h : NodesInv strings nodes) {k v : Val} (hk : k.Live strings)
    (hv : HasEntry nodes k v) : findValue nodes k = v := by
  cases hf : nodes.find? fun n => n.key.rawEq k with
  | none =>
    obtain ⟨n, hn, hnk, -⟩ := hv
    rw [List.find?_eq_none] at hf
    exact absurd hnk (hf n hn)
  | some n =>
    have hn : HasEntry nodes k n.value :=
      ⟨n, List.mem_of_find?_eq_some hf, by simpa using List.find?_some hf, rfl⟩
    rw [findValue, hf]
    exact h.hasEntry_unique hk hn hv

theorem findValue_of_absent {k : Val} (h : ∀ n ∈ nodes, n.key.rawEq k = false) :
    findValue nodes k = .nil := by
  have hf : nodes.find? (fun n => n.key.rawEq k) = none :=
    List.find?_eq_none.mpr fun n hn => by simp [h n hn]
  rw [findValue, hf]; rfl

theorem absent_or_hasEntry (nodes : List Node) (k : Val) :
    (∀ n ∈ nodes, n.key.rawEq k = false) ∨ ∃ v, HasEntry nodes k v := by
  by_cases h : ∃ n ∈ nodes, n.key.rawEq k = true
  · obtain ⟨n, hn, hk⟩ := h
    exact .inr ⟨n.value, n, hn, hk, rfl⟩
  · exact .inl fun n hn => Bool.eq_false_iff.mpr fun hk => h ⟨n, hn, hk⟩

/-- Hash parts with the same entries for a key have the same value for it. -/
theorem findValue_congr (h : NodesInv strings nodes) (h' : NodesInv strings nodes') {k : Val}
    (hk : k.Live strings) (heq : ∀ v, HasEntry nodes' k v ↔ HasEntry nodes k v) :
    findValue nodes' k = findValue nodes k := by
  rcases absent_or_hasEntry nodes k with habs | ⟨v, hv⟩
  · rw [findValue_of_absent habs]
    refine findValue_of_absent fun n hn => Bool.eq_false_iff.mpr fun hnk => ?_
    obtain ⟨m, hm, hmk, -⟩ := (heq n.value).mp ⟨n, hn, hnk, rfl⟩
    rw [habs m hm] at hmk; cases hmk
  · rw [h.findValue_eq hk hv, h'.findValue_eq hk ((heq v).mpr hv)]

theorem findValue_congr_key {k k' : Val} (h : k.rawEq k' = true) (nodes : List Node) :
    findValue nodes k = findValue nodes k' := by
  have hf : (fun n : Node => n.key.rawEq k) = fun n => n.key.rawEq k' :=
    funext fun n => Val.rawEq_congr_right h n.key
  rw [findValue, findValue, hf]

/-! ### Inserting a key -/

/-- Changing one node changes the number of occupied nodes by at most one. -/
theorem occupied_le {f : ℕ} (hlen : nodes'.length = nodes.length)
    (hsame : ∀ i : ℕ, i ≠ f →
      (nodes'[i]?).map (fun n => n.key.isNil) = (nodes[i]?).map fun n => n.key.isNil) :
    occupied nodes' ≤ occupied nodes + 1 := by
  have hcount : ∀ ns : List Node, occupied ns = (ns.map fun n => n.key.isNil).countP (! ·) := by
    intro ns
    rw [occupied, List.countP_map]; rfl
  by_cases hf : f < nodes.length
  · have hf' : f < nodes'.length := hlen ▸ hf
    have hset : nodes'.map (fun n => n.key.isNil) =
        (nodes.map fun n => n.key.isNil).set f nodes'[f].key.isNil := by
      refine List.ext_getElem? fun i => ?_
      by_cases hi : i = f
      · subst hi
        rw [List.getElem?_set_self (by simpa using hf), List.getElem?_map,
          List.getElem?_eq_getElem hf']
        rfl
      · rw [List.getElem?_set_ne (Ne.symm hi), List.getElem?_map, List.getElem?_map, hsame i hi]
    rw [hcount, hcount, hset, List.countP_set (by simpa using hf)]
    split <;> split <;> omega
  · have heq : nodes'.map (fun n => n.key.isNil) = nodes.map fun n => n.key.isNil := by
      refine List.ext_getElem? fun i => ?_
      rw [List.getElem?_map, List.getElem?_map]
      by_cases hi : i = f
      · rw [List.getElem?_eq_none (by omega), List.getElem?_eq_none (by omega)]
      · exact hsame i hi
    rw [hcount, hcount, heq]
    omega

/-- The hash part after `key` has been inserted at node `idx`, with value nil. -/
structure Inserted (strings : StringArena) (nodes nodes' : List Node) (key : Val) (idx : ℕ) :
    Prop where
  inv : NodesInv strings nodes'
  length_eq : nodes'.length = nodes.length
  at_idx : ∃ n, nodes'[idx]? = some n ∧ n.key = key ∧ n.value = .nil
  entries : ∀ k v, k.Live strings → key.rawEq k = false →
    (HasEntry nodes' k v ↔ HasEntry nodes k v)
  occupied_le : occupied nodes' ≤ occupied nodes + 1
  keeps : ∀ (i : ℕ) n, nodes[i]? = some n → n.key ≠ .nil → ∃ n', nodes'[i]? = some n' ∧ n'.key ≠ .nil
  origin : ∀ n' ∈ nodes', n'.key = key ∧ n'.value = .nil ∨
    ∃ n ∈ nodes, n.key = n'.key ∧ n.value = n'.value

/-- The new key goes to its main position, where the node is free or dead. -/
theorem place (h : NodesInv strings nodes) {key : Val} (hk : key.Live strings) {mp : ℕ} {n : Node}
    (hmp : key.mainPosition nodes.length strings = mp) (hn : nodes[mp]? = some n)
    (hfree : n.key = .nil ∨ n.key.isStale strings = true)
    (habs : ∀ m ∈ nodes, m.key.rawEq key = false) :
    Inserted strings nodes (nodes.set mp { n with key }) key mp := by
  have hlt := lt_length hn
  have hself : (nodes.set mp { n with key })[mp]? = some { n with key } := List.getElem?_set_self hlt
  have hne : ∀ i : ℕ, i ≠ mp → (nodes.set mp { n with key })[i]? = nodes[i]? :=
    fun i hi => List.getElem?_set_ne (Ne.symm hi)
  have hnext : nextOf (nodes.set mp { n with key }) = nextOf nodes := by
    funext i
    by_cases hi : i = mp
    · subst hi; rw [nextOf, nextOf, hself, hn]; rfl
    · rw [nextOf, nextOf, hne i hi]
  have hvalue : n.value = .nil := by
    rcases hfree with h0 | hs
    · exact (h.free mp n hn h0).1
    · exact h.stale n (mem hn) hs
  have hnot : ∀ k, k.Live strings → n.key.rawEq k = false := by
    intro k hk'
    rcases hfree with h0 | hs
    · rw [h0]; exact rawEq_nil hk'
    · exact rawEq_stale hs hk'
  set nodes' := nodes.set mp { n with key } with hnodes'
  have hlen : nodes'.length = nodes.length := List.length_set
  -- a node is the new one or an old one
  have hcases : ∀ (i : ℕ) m, nodes'[i]? = some m →
      (i = mp ∧ m = { n with key }) ∨ (i ≠ mp ∧ nodes[i]? = some m) := by
    intro i m hm
    by_cases hi : i = mp
    · subst hi; rw [hself] at hm; exact .inl ⟨rfl, (Option.some.inj hm).symm⟩
    · rw [hne i hi] at hm; exact .inr ⟨hi, hm⟩
  have hcases_mem : ∀ m ∈ nodes', m = { n with key } ∨ m ∈ nodes := by
    intro m hm
    obtain ⟨i, hi⟩ := exists_index hm
    rcases hcases i m hi with ⟨-, rfl⟩ | ⟨-, hm⟩
    · exact .inl rfl
    · exact .inr (mem hm)
  have hinv : NodesInv strings nodes' := by
    refine ⟨?_, ?_, ?_, ?_, ?_, ?_, ?_, ?_⟩
    · rw [hlen, hnext]; exact h.chain
    · rw [hnext]; exact h.pred_unique
    · rw [hnext]
      intro i m hm h0
      rcases hcases i m hm with ⟨-, rfl⟩ | ⟨-, hm⟩
      · exact absurd h0 hk.ne_nil
      · exact h.free i m hm h0
    · intro m hm
      rcases hcases_mem m hm with rfl | hm
      · exact hk.not_nan
      · exact h.not_nan m hm
    · intro m hm hs
      rcases hcases_mem m hm with rfl | hm
      · exact hvalue
      · exact h.stale m hm hs
    · rw [hlen, hnext]
      intro i m l hm hl hc
      rcases hcases i m hm with ⟨rfl, rfl⟩ | ⟨-, hm⟩
      · rw [hmp] at hc; exact hc.head_mem
      · exact h.reach i m l hm hl hc
    · rw [hlen]
      intro m hm hl
      rcases hcases_mem m hm with rfl | hm
      · exact ⟨_, by rw [hmp]; exact hself, .inr ⟨hk, rfl⟩⟩
      · obtain ⟨o, ho, hcase⟩ := h.home_occ m hm hl
        by_cases hpos : m.key.mainPosition nodes.length strings = mp
        · exact ⟨_, by rw [hpos]; exact hself, .inr ⟨hk, by rw [hpos]; exact hmp⟩⟩
        · exact ⟨o, by rw [hne _ hpos]; exact ho, hcase⟩
    · intro i j m m' hm hm' h0 heq
      rcases hcases i m hm with ⟨rfl, rfl⟩ | ⟨-, ho⟩ <;> rcases hcases j m' hm' with ⟨rfl, rfl⟩ | ⟨-, ho'⟩
      · rfl
      · rw [Val.rawEq_comm, habs m' (mem ho')] at heq; cases heq
      · rw [habs m (mem ho)] at heq; cases heq
      · exact h.distinct i j m m' ho ho' h0 heq
  refine ⟨hinv, hlen, ⟨_, hself, rfl, hvalue⟩, ?_, ?_, ?_, ?_⟩
  · intro k v hk' hne'
    constructor
    · rintro ⟨m, hm, hmk, rfl⟩
      rcases hcases_mem m hm with rfl | hm
      · rw [hne'] at hmk; cases hmk
      · exact ⟨m, hm, hmk, rfl⟩
    · rintro ⟨m, hm, hmk, rfl⟩
      obtain ⟨i, hi⟩ := exists_index hm
      by_cases him : i = mp
      · subst him
        rw [hn] at hi
        cases hi
        rw [hnot k hk'] at hmk; cases hmk
      · exact ⟨m, mem (by rw [hne i him]; exact hi), hmk, rfl⟩
  · exact NodesInv.occupied_le hlen fun i hi => by rw [hne i hi]
  · intro i m hm h0
    by_cases hi : i = mp
    · subst hi; exact ⟨_, hself, hk.ne_nil⟩
    · exact ⟨m, by rw [hne i hi]; exact hm, h0⟩
  · intro m hm
    rcases hcases_mem m hm with rfl | hm
    · exact .inl ⟨rfl, hvalue⟩
    · exact .inr ⟨m, hm, rfl, rfl⟩

/-- A free node is on no chain but its own. -/
theorem free_not_mem (h : NodesInv strings nodes) {free : ℕ} {f : Node} (hf : nodes[free]? = some f)
    (hf0 : f.key = .nil) {i : ℕ} {l : List ℕ} (hi : i ≠ free)
    (hl : Chain (nextOf nodes) (some i) l) : free ∉ l := by
  intro hmem
  obtain ⟨p, -, hp⟩ := hl.exists_pred hmem (Ne.symm hi)
  exact (h.free free f hf hf0).2.2 p hp

/-- A free node is nobody's main position. -/
theorem home_ne_free (h : NodesInv strings nodes) {free : ℕ} {f : Node} (hf : nodes[free]? = some f)
    (hf0 : f.key = .nil) {n : Node} (hn : n ∈ nodes) (hl : n.key.Live strings) :
    n.key.mainPosition nodes.length strings ≠ free := by
  intro heq
  obtain ⟨m, hm, hcase⟩ := h.home_occ n hn hl
  rw [heq, hf] at hm
  cases hm
  rcases hcase with hs | ⟨hl', -⟩
  · exact ne_nil_of_stale hs hf0
  · exact hl'.ne_nil hf0

/-- Case B: the occupant of the main position is at home, the new key goes to a free node, which is
    linked in after the occupant. -/
theorem chainAfter (h : NodesInv strings nodes) {key : Val} (hk : key.Live strings) {mp free : ℕ}
    {occ f : Node} (hmp : key.mainPosition nodes.length strings = mp) (hocc : nodes[mp]? = some occ)
    (hlive : occ.key.Live strings) (hhome : occ.key.mainPosition nodes.length strings = mp)
    (hf : nodes[free]? = some f) (hf0 : f.key = .nil)
    (habs : ∀ m ∈ nodes, m.key.rawEq key = false) (hlen : nodes'.length = nodes.length)
    (hmp' : nodes'[mp]? = some { occ with next := some free })
    (hfree' : nodes'[free]? = some ⟨key, .nil, occ.next⟩)
    (hother : ∀ i : ℕ, i ≠ mp → i ≠ free → nodes'[i]? = nodes[i]?) :
    Inserted strings nodes nodes' key free := by
  have hfm : free ≠ mp := by
    rintro rfl
    rw [hf] at hocc; cases hocc; exact hlive.ne_nil hf0
  obtain ⟨-, -, hnopred⟩ := h.free free f hf hf0
  have hnmp : nextOf nodes mp = occ.next := by rw [nextOf, hocc]; rfl
  have hnmp' : nextOf nodes' mp = some free := by rw [nextOf, hmp']; rfl
  have hnfree' : nextOf nodes' free = nextOf nodes mp := by rw [nextOf, hfree', hnmp]; rfl
  have hnother : ∀ i, i ≠ mp → i ≠ free → nextOf nodes' i = nextOf nodes i := by
    intro i h1 h2; rw [nextOf, nextOf, hother i h1 h2]
  -- a node is the new one, or has the key and value of the old node at its place
  have hcases : ∀ (i : ℕ) m, nodes'[i]? = some m → (i = free ∧ m = ⟨key, .nil, occ.next⟩) ∨
      i ≠ free ∧ ∃ n, nodes[i]? = some n ∧ n.key = m.key ∧ n.value = m.value ∧
        (i ≠ mp → n = m) := by
    intro i m hm
    by_cases hi : i = free
    · subst hi; rw [hfree'] at hm; exact .inl ⟨rfl, (Option.some.inj hm).symm⟩
    · refine .inr ⟨hi, ?_⟩
      by_cases him : i = mp
      · subst him
        rw [hmp'] at hm
        cases hm
        exact ⟨occ, hocc, rfl, rfl, fun hc => absurd rfl hc⟩
      · rw [hother i him hi] at hm
        exact ⟨m, hm, rfl, rfl, fun _ => rfl⟩
  have hback : ∀ (i : ℕ) n, nodes[i]? = some n → i ≠ free →
      ∃ m, nodes'[i]? = some m ∧ m.key = n.key ∧ m.value = n.value := by
    intro i n hn hi
    by_cases him : i = mp
    · subst him
      rw [hocc] at hn
      cases hn
      exact ⟨_, hmp', rfl, rfl⟩
    · exact ⟨n, by rw [hother i him hi]; exact hn, rfl, rfl⟩
  -- chains get the new node spliced in after `mp`
  have hsplice : ∀ i l, i ≠ free → Chain (nextOf nodes) (some i) l →
      Chain (nextOf nodes') (some i) (l.flatMap fun j => if j = mp then [mp, free] else [j]) := by
    intro i l hi hl
    have hnot := h.free_not_mem hf hf0 hi hl
    exact hl.splice hnmp' hnfree' fun j hj hjm => hnother j hjm fun hjf => hnot (hjf ▸ hj)
  have hchain : ∀ i l, i ≠ free → Chain (nextOf nodes) (some i) l →
      ∀ l', Chain (nextOf nodes') (some i) l' → (∀ j ∈ l, j ∈ l') ∧ (mp ∈ l → free ∈ l') := by
    intro i l hi hl l' hl'
    rw [hl'.unique (hsplice i l hi hl)]
    simp only [List.mem_flatMap]
    refine ⟨fun j hj => ⟨j, hj, ?_⟩, fun hmem => ⟨mp, hmem, by simp⟩⟩
    by_cases hjm : j = mp <;> simp [hjm]
  have hinv : NodesInv strings nodes' := by
    refine ⟨?_, ?_, ?_, ?_, ?_, ?_, ?_, ?_⟩
    · intro i hi
      rw [hlen] at hi ⊢
      have hbound : ∀ l : List ℕ, (∀ j ∈ l, j < nodes.length) →
          ∀ j ∈ l.flatMap fun j => if j = mp then [mp, free] else [j], j < nodes.length := by
        intro l hl j hj
        obtain ⟨i, hi, hj⟩ := List.mem_flatMap.mp hj
        split at hj
        · rcases List.mem_cons.mp hj with rfl | hj
          · exact lt_length hocc
          · rw [List.mem_singleton.mp hj]; exact lt_length hf
        · rw [List.mem_singleton.mp hj]; exact hl i hi
      by_cases hif : i = free
      · subst hif
        obtain ⟨l, hl, hb⟩ := h.chain mp (lt_length hocc)
        have hs := hsplice mp l (Ne.symm hfm) hl
        obtain ⟨l', rfl, -⟩ := hl.eq_cons
        rw [List.flatMap_cons, if_pos rfl] at hs
        refine ⟨_, hs.suffix (l := [mp]), fun j hj => hbound _ hb j ?_⟩
        rw [List.flatMap_cons, if_pos rfl]
        exact List.mem_cons_of_mem _ hj
      · obtain ⟨l, hl, hb⟩ := h.chain i hi
        exact ⟨_, hsplice i l hif hl, hbound l hb⟩
    · intro i j k hi hj
      have hfrom : ∀ i, nextOf nodes' i = some k → (i = mp ∧ k = free) ∨
          (k ≠ free ∧ ((i = free ∧ nextOf nodes mp = some k) ∨
            (i ≠ mp ∧ i ≠ free ∧ nextOf nodes i = some k))) := by
        intro i hi
        by_cases him : i = mp
        · rw [him, hnmp'] at hi; exact .inl ⟨him, (Option.some.inj hi).symm⟩
        · by_cases hif : i = free
          · rw [hif, hnfree'] at hi
            exact .inr ⟨fun hkf => hnopred mp (hkf ▸ hi), .inl ⟨hif, hi⟩⟩
          · rw [hnother i him hif] at hi
            exact .inr ⟨fun hkf => hnopred i (hkf ▸ hi), .inr ⟨him, hif, hi⟩⟩
      rcases hfrom i hi with ⟨hi, hkf⟩ | ⟨hkf, hi⟩ <;> rcases hfrom j hj with ⟨hj, hkf'⟩ | ⟨hkf', hj⟩
      · rw [hi, hj]
      · exact absurd hkf hkf'
      · exact absurd hkf' hkf
      · rcases hi with ⟨hi, hi'⟩ | ⟨h1, -, hi⟩ <;> rcases hj with ⟨hj, hj'⟩ | ⟨h2, -, hj⟩
        · rw [hi, hj]
        · exact absurd (h.pred_unique j mp k hj hi') h2
        · exact absurd (h.pred_unique i mp k hi hj') h1
        · exact h.pred_unique i j k hi hj
    · intro i m hm h0
      rcases hcases i m hm with ⟨-, rfl⟩ | ⟨hif, n, hn, hnk, hnv, hnm⟩
      · exact absurd h0 hk.ne_nil
      · have him : i ≠ mp := by
          rintro rfl
          rw [hocc] at hn
          cases hn
          exact hlive.ne_nil (hnk.trans h0)
        obtain rfl := hnm him
        obtain ⟨hv, hnx, hno⟩ := h.free i n hn h0
        refine ⟨hv, hnx, fun j hj => ?_⟩
        by_cases hjm : j = mp
        · rw [hjm, hnmp'] at hj; exact hif (Option.some.inj hj).symm
        · by_cases hjf : j = free
          · rw [hjf, hnfree'] at hj; exact hno mp hj
          · rw [hnother j hjm hjf] at hj; exact hno j hj
    · intro m hm
      obtain ⟨i, hi⟩ := exists_index hm
      rcases hcases i m hi with ⟨-, rfl⟩ | ⟨-, n, hn, hnk, -⟩
      · exact hk.not_nan
      · rw [← hnk]; exact h.not_nan n (mem hn)
    · intro m hm hs
      obtain ⟨i, hi⟩ := exists_index hm
      rcases hcases i m hi with ⟨-, rfl⟩ | ⟨-, n, hn, hnk, hnv, -⟩
      · rfl
      · rw [← hnv]; exact h.stale n (mem hn) (hnk ▸ hs)
    · rw [hlen]
      intro i m l hm hl hc
      rcases hcases i m hm with ⟨rfl, rfl⟩ | ⟨-, n, hn, hnk, -⟩
      · rw [hmp] at hc
        obtain ⟨l₀, hl₀, -⟩ := h.chain mp (lt_length hocc)
        exact (hchain mp l₀ (Ne.symm hfm) hl₀ l hc).2 hl₀.head_mem
      · rw [← hnk] at hl hc
        obtain ⟨o, ho, -⟩ := h.home_occ n (mem hn) hl
        obtain ⟨l₀, hl₀, -⟩ := h.chain _ (lt_length ho)
        exact (hchain _ l₀ (h.home_ne_free hf hf0 (mem hn) hl) hl₀ l hc).1 i
          (h.reach i n l₀ hn hl hl₀)
    · rw [hlen]
      intro m hm hl
      obtain ⟨i, hi⟩ := exists_index hm
      rcases hcases i m hi with ⟨-, rfl⟩ | ⟨-, n, hn, hnk, -⟩
      · exact ⟨{ occ with next := some free }, by rw [hmp]; exact hmp',
          .inr ⟨hlive, hhome.trans hmp.symm⟩⟩
      · rw [← hnk] at hl ⊢
        obtain ⟨o, ho, hcase⟩ := h.home_occ n (mem hn) hl
        obtain ⟨o', ho', hok, -⟩ := hback _ o ho (h.home_ne_free hf hf0 (mem hn) hl)
        exact ⟨o', ho', by rw [hok]; exact hcase⟩
    · intro i j m m' hm hm' h0 heq
      rcases hcases i m hm with ⟨rfl, rfl⟩ | ⟨-, n, hn, hnk, -⟩ <;>
        rcases hcases j m' hm' with ⟨rfl, rfl⟩ | ⟨-, n', hn', hnk', -⟩
      · rfl
      · rw [← hnk', Val.rawEq_comm, habs n' (mem hn')] at heq; cases heq
      · rw [← hnk, habs n (mem hn)] at heq; cases heq
      · rw [← hnk, ← hnk'] at heq
        exact h.distinct i j n n' hn hn' (hnk ▸ h0) heq
  refine ⟨hinv, hlen, ⟨_, hfree', rfl, rfl⟩, ?_, ?_, ?_, ?_⟩
  · intro k v hk' hne'
    constructor
    · rintro ⟨m, hm, hmk, rfl⟩
      obtain ⟨i, hi⟩ := exists_index hm
      rcases hcases i m hi with ⟨-, rfl⟩ | ⟨-, n, hn, hnk, hnv, -⟩
      · rw [hne'] at hmk; cases hmk
      · exact ⟨n, mem hn, hnk ▸ hmk, hnv⟩
    · rintro ⟨n, hn, hnk, rfl⟩
      obtain ⟨i, hi⟩ := exists_index hn
      have hif : i ≠ free := by
        rintro rfl
        rw [hf] at hi
        cases hi
        rw [hf0, rawEq_nil hk'] at hnk
        cases hnk
      obtain ⟨m, hm, hmk, hmv⟩ := hback i n hi hif
      exact ⟨m, mem hm, hmk ▸ hnk, hmv⟩
  · refine NodesInv.occupied_le (f := free) hlen fun i hi => ?_
    by_cases him : i = mp
    · subst him; rw [hmp', hocc]; rfl
    · rw [hother i him hi]
  · intro i n hn h0
    by_cases hif : i = free
    · subst hif; exact ⟨_, hfree', hk.ne_nil⟩
    · obtain ⟨m, hm, hmk, -⟩ := hback i n hn hif
      exact ⟨m, hm, hmk ▸ h0⟩
  · intro m hm
    obtain ⟨i, hi⟩ := exists_index hm
    rcases hcases i m hi with ⟨-, rfl⟩ | ⟨-, n, hn, hnk, hnv, -⟩
    · exact .inl ⟨rfl, rfl⟩
    · exact .inr ⟨n, mem hn, hnk, hnv⟩

/-- Case A: the occupant of the main position is displaced. It moves to a free node, its predecessor is
    linked to that node, and the new key takes its place. -/
theorem relocate (h : NodesInv strings nodes) {key : Val} (hk : key.Live strings)
    {mp free prev : ℕ} {occ f p : Node} (hmp : key.mainPosition nodes.length strings = mp)
    (hocc : nodes[mp]? = some occ) (hlive : occ.key.Live strings)
    (hhome : occ.key.mainPosition nodes.length strings ≠ mp) (hf : nodes[free]? = some f)
    (hf0 : f.key = .nil) (hp : nodes[prev]? = some p) (hpn : p.next = some mp)
    (habs : ∀ m ∈ nodes, m.key.rawEq key = false) (hlen : nodes'.length = nodes.length)
    (hmp' : nodes'[mp]? = some ⟨key, .nil, none⟩) (hfree' : nodes'[free]? = some occ)
    (hprev' : nodes'[prev]? = some { p with next := some free })
    (hother : ∀ i : ℕ, i ≠ mp → i ≠ free → i ≠ prev → nodes'[i]? = nodes[i]?) :
    Inserted strings nodes nodes' key mp := by
  obtain ⟨-, hfnext, hnopred⟩ := h.free free f hf hf0
  have hfm : free ≠ mp := by
    rintro rfl
    rw [hf] at hocc; cases hocc; exact hlive.ne_nil hf0
  have hfp : free ≠ prev := by
    rintro rfl
    rw [hf] at hp; cases hp; rw [hfnext] at hpn; cases hpn
  have hnprev : nextOf nodes prev = some mp := by rw [nextOf, hp]; exact hpn
  have hnmp : nextOf nodes mp = occ.next := by rw [nextOf, hocc]; rfl
  -- the occupant is not its own successor, since it is not at home
  have hpm : prev ≠ mp := by
    intro heq
    obtain ⟨o, ho, -⟩ := h.home_occ occ (mem hocc) hlive
    obtain ⟨l, hl, -⟩ := h.chain _ (lt_length ho)
    obtain ⟨q, hq, hqn⟩ := hl.exists_pred (h.reach mp occ l hocc hlive hl) (Ne.symm hhome)
    obtain rfl := h.pred_unique q prev mp hqn hnprev
    obtain ⟨l₁, hl₁, -⟩ := h.chain mp (lt_length hocc)
    obtain ⟨l₂, rfl, hl₂⟩ := hl₁.eq_cons
    rw [heq] at hnprev
    rw [hnprev] at hl₂
    exact (List.nodup_cons.mp hl₁.nodup).1 hl₂.head_mem
  have hnmp' : nextOf nodes' mp = none := by rw [nextOf, hmp']; rfl
  have hnfree' : nextOf nodes' free = nextOf nodes mp := by rw [nextOf, hfree', hnmp]; rfl
  have hnprev' : nextOf nodes' prev = some free := by rw [nextOf, hprev']; rfl
  have hnother : ∀ i, i ≠ mp → i ≠ free → i ≠ prev → nextOf nodes' i = nextOf nodes i := by
    intro i h1 h2 h3; rw [nextOf, nextOf, hother i h1 h2 h3]
  have hnself : nextOf nodes mp ≠ some mp := fun heq => hpm (h.pred_unique prev mp mp hnprev heq)
  -- no live key has its home at `mp`, since the occupant is neither stale nor at home
  have hhome_ne : ∀ n ∈ nodes, n.key.Live strings →
      n.key.mainPosition nodes.length strings ≠ mp := by
    intro n hn hl heq
    obtain ⟨o, ho, hcase⟩ := h.home_occ n hn hl
    rw [heq, hocc] at ho
    cases ho
    rcases hcase with hs | ⟨-, ho⟩
    · rw [hlive.not_stale] at hs; cases hs
    · exact hhome (ho.trans heq)
  -- the old node whose key and value node `i` now holds
  let src : ℕ → ℕ := fun i => if i = free then mp else i
  let dst : ℕ → ℕ := fun i => if i = mp then free else i
  have hcases : ∀ (i : ℕ) m, nodes'[i]? = some m → (i = mp ∧ m = ⟨key, .nil, none⟩) ∨
      i ≠ mp ∧ ∃ n, nodes[src i]? = some n ∧ n.key = m.key ∧ n.value = m.value := by
    intro i m hm
    by_cases him : i = mp
    · subst him; rw [hmp'] at hm; exact .inl ⟨rfl, (Option.some.inj hm).symm⟩
    · refine .inr ⟨him, ?_⟩
      by_cases hif : i = free
      · subst hif
        rw [hfree'] at hm
        cases hm
        exact ⟨occ, by simp only [src, if_true]; exact hocc, rfl, rfl⟩
      · simp only [src, if_neg hif]
        by_cases hip : i = prev
        · subst hip
          rw [hprev'] at hm
          cases hm
          exact ⟨p, hp, rfl, rfl⟩
        · rw [hother i him hif hip] at hm
          exact ⟨m, hm, rfl, rfl⟩
  have hback : ∀ (i : ℕ) n, nodes[i]? = some n → i ≠ free →
      ∃ m, nodes'[dst i]? = some m ∧ m.key = n.key ∧ m.value = n.value := by
    intro i n hn hif
    by_cases him : i = mp
    · subst him
      rw [hocc] at hn
      cases hn
      exact ⟨occ, by simp only [dst, if_true]; exact hfree', rfl, rfl⟩
    · simp only [dst, if_neg him]
      by_cases hip : i = prev
      · subst hip
        rw [hp] at hn
        cases hn
        exact ⟨_, hprev', rfl, rfl⟩
      · exact ⟨n, by rw [hother i him hif hip]; exact hn, rfl, rfl⟩
  -- chains have `mp` renamed to `free`
  have hmap : ∀ i l, i ≠ free → Chain (nextOf nodes) (some i) l →
      Chain (nextOf nodes') (some (dst i)) (l.map dst) := by
    intro i l hi hl
    have hnot := h.free_not_mem hf hf0 hi hl
    refine hl.map dst fun j hj => ?_
    have hjf : j ≠ free := fun hjf => hnot (hjf ▸ hj)
    by_cases hjm : j = mp
    · subst hjm
      simp only [dst, if_true, hnfree']
      cases hn : nextOf nodes j with
      | none => rfl
      | some k =>
        have hkj : k ≠ j := fun hkj => hnself (hkj ▸ hn)
        rw [Option.map_some, if_neg hkj]
    · simp only [dst, if_neg hjm]
      by_cases hjp : j = prev
      · rw [hjp, hnprev', hnprev, Option.map_some, if_pos rfl]
      · rw [hnother j hjm hjf hjp]
        cases hn : nextOf nodes j with
        | none => rfl
        | some k =>
          have hkm : k ≠ mp := fun hkm => hjp (h.pred_unique j prev mp (hkm ▸ hn) hnprev)
          rw [Option.map_some, if_neg hkm]
  have hdst : ∀ i, i ≠ mp → dst i = i := fun i hi => if_neg hi
  have hinv : NodesInv strings nodes' := by
    refine ⟨?_, ?_, ?_, ?_, ?_, ?_, ?_, ?_⟩
    · intro i hi
      rw [hlen] at hi ⊢
      have hbound : ∀ l : List ℕ, (∀ j ∈ l, j < nodes.length) → ∀ j ∈ l.map dst, j < nodes.length := by
        intro l hl j hj
        obtain ⟨i, hi, rfl⟩ := List.mem_map.mp hj
        by_cases him : i = mp
        · simp only [dst, if_pos him]; exact lt_length hf
        · rw [hdst i him]; exact hl i hi
      by_cases him : i = mp
      · subst him
        refine ⟨[i], ⟨rfl, by rw [hnmp']; rfl⟩, fun j hj => ?_⟩
        rw [List.mem_singleton.mp hj]; exact hi
      · by_cases hif : i = free
        · subst hif
          obtain ⟨l, hl, hb⟩ := h.chain mp (lt_length hocc)
          have hm := hmap mp l (Ne.symm hfm) hl
          simp only [dst, if_true] at hm
          exact ⟨_, hm, hbound l hb⟩
        · obtain ⟨l, hl, hb⟩ := h.chain i hi
          have hm := hmap i l hif hl
          rw [hdst i him] at hm
          exact ⟨_, hm, hbound l hb⟩
    · intro i j k hi hj
      have hfrom : ∀ i, nextOf nodes' i = some k → (i = prev ∧ k = free) ∨
          (k ≠ free ∧ i ≠ mp ∧ nextOf nodes (src i) = some k) := by
        intro i hi
        have him : i ≠ mp := by rintro rfl; rw [hnmp'] at hi; cases hi
        by_cases hip : i = prev
        · rw [hip, hnprev'] at hi; exact .inl ⟨hip, (Option.some.inj hi).symm⟩
        · have hsrc : nextOf nodes (src i) = some k := by
            by_cases hif : i = free
            · simp only [src, if_pos hif]; rw [← hnfree', ← hif]; exact hi
            · simp only [src, if_neg hif]; rw [← hnother i him hif hip]; exact hi
          exact .inr ⟨fun hkf => hnopred _ (hkf ▸ hsrc), him, hsrc⟩
      rcases hfrom i hi with ⟨hi, hkf⟩ | ⟨hkf, him, hi⟩ <;>
        rcases hfrom j hj with ⟨hj, hkf'⟩ | ⟨hkf', hjm, hj⟩
      · rw [hi, hj]
      · exact absurd hkf hkf'
      · exact absurd hkf' hkf
      · have heq := h.pred_unique _ _ k hi hj
        simp only [src] at heq
        split at heq <;> split at heq
        · next h1 h2 => rw [h1, h2]
        · exact absurd heq.symm hjm
        · exact absurd heq him
        · exact heq
    · intro i m hm h0
      rcases hcases i m hm with ⟨-, rfl⟩ | ⟨him, n, hn, hnk, -⟩
      · exact absurd h0 hk.ne_nil
      · have hif : i ≠ free := by
          rintro rfl
          simp only [src, if_true] at hn
          rw [hocc] at hn
          cases hn
          exact hlive.ne_nil (hnk.trans h0)
        simp only [src, if_neg hif] at hn
        have hip : i ≠ prev := by
          rintro rfl
          rw [hp] at hn
          cases hn
          have := (h.free i _ hp (hnk.trans h0)).2.1
          rw [hpn] at this; cases this
        rw [hother i him hif hip] at hm
        obtain ⟨hv, hnx, hno⟩ := h.free i m hm h0
        refine ⟨hv, hnx, fun j hj => ?_⟩
        by_cases hjm : j = mp
        · rw [hjm, hnmp'] at hj; cases hj
        · by_cases hjp : j = prev
          · rw [hjp, hnprev'] at hj; exact hif (Option.some.inj hj).symm
          · by_cases hjf : j = free
            · rw [hjf, hnfree'] at hj; exact hno mp hj
            · rw [hnother j hjm hjf hjp] at hj; exact hno j hj
    · intro m hm
      obtain ⟨i, hi⟩ := exists_index hm
      rcases hcases i m hi with ⟨-, rfl⟩ | ⟨-, n, hn, hnk, -⟩
      · exact hk.not_nan
      · rw [← hnk]; exact h.not_nan n (mem hn)
    · intro m hm hs
      obtain ⟨i, hi⟩ := exists_index hm
      rcases hcases i m hi with ⟨-, rfl⟩ | ⟨-, n, hn, hnk, hnv⟩
      · rfl
      · rw [← hnv]; exact h.stale n (mem hn) (hnk ▸ hs)
    · rw [hlen]
      intro i m l hm hl hc
      rcases hcases i m hm with ⟨rfl, rfl⟩ | ⟨him, n, hn, hnk, -⟩
      · rw [hmp] at hc; exact hc.head_mem
      · rw [← hnk] at hl hc
        obtain ⟨o, ho, -⟩ := h.home_occ n (mem hn) hl
        obtain ⟨l₀, hl₀, -⟩ := h.chain _ (lt_length ho)
        have hm := hmap _ l₀ (h.home_ne_free hf hf0 (mem hn) hl) hl₀
        rw [hdst _ (hhome_ne n (mem hn) hl)] at hm
        rw [hc.unique hm]
        refine List.mem_map.mpr ⟨src i, h.reach _ n l₀ hn hl hl₀, ?_⟩
        simp only [src, dst]
        by_cases hif : i = free
        · rw [if_pos hif, if_pos rfl, hif]
        · rw [if_neg hif, if_neg him]
    · rw [hlen]
      intro m hm hl
      obtain ⟨i, hi⟩ := exists_index hm
      rcases hcases i m hi with ⟨-, rfl⟩ | ⟨-, n, hn, hnk, -⟩
      · exact ⟨_, by rw [hmp]; exact hmp', .inr ⟨hk, rfl⟩⟩
      · rw [← hnk] at hl ⊢
        obtain ⟨o, ho, hcase⟩ := h.home_occ n (mem hn) hl
        obtain ⟨o', ho', hok, -⟩ := hback _ o ho (h.home_ne_free hf hf0 (mem hn) hl)
        rw [hdst _ (hhome_ne n (mem hn) hl)] at ho'
        exact ⟨o', ho', by rw [hok]; exact hcase⟩
    · intro i j m m' hm hm' h0 heq
      rcases hcases i m hm with ⟨rfl, rfl⟩ | ⟨him, n, hn, hnk, -⟩ <;>
        rcases hcases j m' hm' with ⟨rfl, rfl⟩ | ⟨hjm, n', hn', hnk', -⟩
      · rfl
      · rw [← hnk', Val.rawEq_comm, habs n' (mem hn')] at heq; cases heq
      · rw [← hnk, habs n (mem hn)] at heq; cases heq
      · rw [← hnk, ← hnk'] at heq
        have hsrc := h.distinct _ _ n n' hn hn' (hnk ▸ h0) heq
        simp only [src] at hsrc
        split at hsrc <;> split at hsrc
        · next h1 h2 => rw [h1, h2]
        · exact absurd hsrc.symm hjm
        · exact absurd hsrc him
        · exact hsrc
  refine ⟨hinv, hlen, ⟨_, hmp', rfl, rfl⟩, ?_, ?_, ?_, ?_⟩
  · intro k v hk' hne'
    constructor
    · rintro ⟨m, hm, hmk, rfl⟩
      obtain ⟨i, hi⟩ := exists_index hm
      rcases hcases i m hi with ⟨-, rfl⟩ | ⟨-, n, hn, hnk, hnv⟩
      · rw [hne'] at hmk; cases hmk
      · exact ⟨n, mem hn, hnk ▸ hmk, hnv⟩
    · rintro ⟨n, hn, hnk, rfl⟩
      obtain ⟨i, hi⟩ := exists_index hn
      have hif : i ≠ free := by
        rintro rfl
        rw [hf] at hi
        cases hi
        rw [hf0, rawEq_nil hk'] at hnk
        cases hnk
      obtain ⟨m, hm, hmk, hmv⟩ := hback i n hi hif
      exact ⟨m, mem hm, hmk ▸ hnk, hmv⟩
  · refine NodesInv.occupied_le (f := free) hlen fun i hi => ?_
    by_cases him : i = mp
    · subst him
      have h1 : key.isNil = false := Val.isNil_eq_false.mpr hk.ne_nil
      have h2 : occ.key.isNil = false := Val.isNil_eq_false.mpr hlive.ne_nil
      rw [hmp', hocc, Option.map_some, Option.map_some, h1, h2]
    · by_cases hip : i = prev
      · subst hip; rw [hprev', hp]; rfl
      · rw [hother i him hi hip]
  · intro i n hn h0
    by_cases him : i = mp
    · subst him; exact ⟨_, hmp', hk.ne_nil⟩
    · by_cases hif : i = free
      · subst hif; exact ⟨_, hfree', hlive.ne_nil⟩
      · obtain ⟨m, hm, hmk, -⟩ := hback i n hn hif
        rw [hdst i him] at hm
        exact ⟨m, hm, hmk ▸ h0⟩
  · intro m hm
    obtain ⟨i, hi⟩ := exists_index hm
    rcases hcases i m hi with ⟨-, rfl⟩ | ⟨-, n, hn, hnk, hnv⟩
    · exact .inl ⟨rfl, rfl⟩
    · exact .inr ⟨n, mem hn, hnk, hnv⟩

/-! ### Writing a value -/

/-- Writing a value (nil, if the key is stale) to a node. -/
theorem setValue (h : NodesInv strings nodes) {idx : ℕ} {n : Node} (hn : nodes[idx]? = some n)
    (hl : n.key.Live strings) (value : Val) :
    NodesInv strings (nodes.modify idx fun m => { m with value }) ∧
      (∀ k v, k.Live strings → n.key.rawEq k = false →
        (HasEntry (nodes.modify idx fun m => { m with value }) k v ↔ HasEntry nodes k v)) ∧
      ∀ k, n.key.rawEq k = true → HasEntry (nodes.modify idx fun m => { m with value }) k value := by
  set nodes' := nodes.modify idx fun m => { m with value } with hnodes'
  have hlen : nodes'.length = nodes.length := List.length_modify ..
  have hself : nodes'[idx]? = some { n with value } := by simp [hnodes', hn]
  have hne : ∀ i : ℕ, i ≠ idx → nodes'[i]? = nodes[i]? := fun i hi => by
    simp [hnodes', Ne.symm hi]
  have hnext : nextOf nodes' = nextOf nodes := by
    funext i
    by_cases hi : i = idx
    · subst hi; rw [nextOf, nextOf, hself, hn]; rfl
    · rw [nextOf, nextOf, hne i hi]
  -- every node keeps its key and link
  have hcases : ∀ (i : ℕ) m, nodes'[i]? = some m →
      ∃ o, nodes[i]? = some o ∧ o.key = m.key ∧ o.next = m.next ∧ (i ≠ idx → o = m) := by
    intro i m hm
    by_cases hi : i = idx
    · subst hi; rw [hself] at hm; cases hm; exact ⟨n, hn, rfl, rfl, fun hc => absurd rfl hc⟩
    · rw [hne i hi] at hm; exact ⟨m, hm, rfl, rfl, fun _ => rfl⟩
  have hidx : ∀ (i : ℕ) m, nodes'[i]? = some m → ¬m.key.Live strings → i ≠ idx := by
    rintro i m hm hml rfl
    rw [hself] at hm
    cases hm
    exact hml hl
  have hback : ∀ (i : ℕ) o, nodes[i]? = some o → ∃ m, nodes'[i]? = some m ∧ m.key = o.key := by
    intro i o ho
    by_cases hi : i = idx
    · subst hi; rw [hn] at ho; cases ho; exact ⟨_, hself, rfl⟩
    · exact ⟨o, by rw [hne i hi]; exact ho, rfl⟩
  refine ⟨⟨?_, ?_, ?_, ?_, ?_, ?_, ?_, ?_⟩, ?_, ?_⟩
  · rw [hlen, hnext]; exact h.chain
  · rw [hnext]; exact h.pred_unique
  · rw [hnext]
    intro i m hm h0
    obtain ⟨o, ho, -, -, hom⟩ := hcases i m hm
    obtain rfl := hom (hidx i m hm fun hml => hml.ne_nil h0)
    exact h.free i o ho h0
  · intro m hm
    obtain ⟨i, hi⟩ := exists_index hm
    obtain ⟨o, ho, hok, -⟩ := hcases i m hi
    rw [← hok]; exact h.not_nan o (mem ho)
  · intro m hm hs
    obtain ⟨i, hi⟩ := exists_index hm
    obtain ⟨o, ho, -, -, hom⟩ := hcases i m hi
    obtain rfl := hom (hidx i m hi fun hml => by rw [hml.not_stale] at hs; cases hs)
    exact h.stale o (mem ho) hs
  · rw [hlen, hnext]
    intro i m l hm hml hc
    obtain ⟨o, ho, hok, -⟩ := hcases i m hm
    rw [← hok] at hml hc
    exact h.reach i o l ho hml hc
  · rw [hlen]
    intro m hm hml
    obtain ⟨i, hi⟩ := exists_index hm
    obtain ⟨o, ho, hok, -⟩ := hcases i m hi
    rw [← hok] at hml ⊢
    obtain ⟨q, hq, hcase⟩ := h.home_occ o (mem ho) hml
    obtain ⟨q', hq', hqk⟩ := hback _ q hq
    exact ⟨q', hq', by rw [hqk]; exact hcase⟩
  · intro i j m m' hm hm' h0 heq
    obtain ⟨o, ho, hok, -⟩ := hcases i m hm
    obtain ⟨o', ho', hok', -⟩ := hcases j m' hm'
    rw [← hok, ← hok'] at heq
    exact h.distinct i j o o' ho ho' (hok ▸ h0) heq
  · intro k v _ hne'
    constructor
    · rintro ⟨m, hm, hmk, rfl⟩
      obtain ⟨i, hi⟩ := exists_index hm
      obtain ⟨o, ho, hok, -, hom⟩ := hcases i m hi
      have hi' : i ≠ idx := by
        rintro rfl
        rw [hself] at hi
        cases hi
        rw [hne'] at hmk; cases hmk
      obtain rfl := hom hi'
      exact ⟨o, mem ho, hmk, rfl⟩
    · rintro ⟨m, hm, hmk, rfl⟩
      obtain ⟨i, hi⟩ := exists_index hm
      have hi' : i ≠ idx := by
        rintro rfl
        rw [hn] at hi
        cases hi
        rw [hne'] at hmk; cases hmk
      exact ⟨m, mem (by rw [hne i hi']; exact hi), hmk, rfl⟩
  · intro k hk
    exact ⟨_, mem hself, hk, rfl⟩

theorem occupied_setValue (nodes : List Node) (idx : ℕ) (value : Val) :
    occupied (nodes.modify idx fun m => { m with value }) = occupied nodes := by
  have hcount : ∀ ns : List Node, occupied ns = (ns.map Node.key).countP fun k => !k.isNil := by
    intro ns
    rw [occupied, List.countP_map]; rfl
  have hkeys : (nodes.modify idx fun m => { m with value }).map Node.key = nodes.map Node.key := by
    refine List.ext_getElem? fun i => ?_
    simp only [List.getElem?_map, List.getElem?_modify]
    cases nodes[i]? with
    | none => rfl
    | some n => by_cases hi : idx = i <;> simp [hi]
  rw [hcount, hcount, hkeys]

end NodesInv

end Rilua.Vm
