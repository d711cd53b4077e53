import Mathlib.Data.List.Perm.Subperm

/-! Singly linked lists threaded through the cells of a store: `next i` is the cell after cell `i`.
    `Chain next h l` says that following the links from `h` visits exactly the cells of `l` and then
    ends, so a chain is finite and never comes back to a cell it has left. -/

namespace Lib

/-- Following `next` from `h` visits exactly the cells of the list, in order, and stops. -/
def Chain (next : ℕ → Option ℕ) : Option ℕ → List ℕ → Prop
  | h, [] => h = none
  | h, i :: l => h = some i ∧ Chain next (next i) l

namespace Chain

variable {next next' : ℕ → Option ℕ} {h : Option ℕ} {i : ℕ} {l l' : List ℕ}

@[simp] theorem nil_iff : Chain next h [] ↔ h = none := Iff.rfl

theorem nil_of_none_iff : Chain next none l ↔ l = [] := by
  cases l with
  | nil => simp [Chain]
  | cons i l => simp [Chain]

@[simp] theorem cons_iff : Chain next h (i :: l) ↔ h = some i ∧ Chain next (next i) l := Iff.rfl

/-- The cells visited are determined by the head. -/
theorem unique : ∀ {h : Option ℕ} {l l' : List ℕ}, Chain next h l → Chain next h l' → l = l'
  | _, [], [], _, _ => rfl
  | _, [], _ :: _, hl, hl' => by cases hl; cases hl'.1
  | _, _ :: _, [], hl, hl' => by cases hl'; cases hl.1
  | _, i :: l, j :: l', hl, hl' => by
      obtain rfl : i = j := Option.some.inj (hl.1.symm.trans hl'.1)
      rw [unique hl.2 hl'.2]

/-- Only the links of the cells visited matter. -/
theorem congr : ∀ {h : Option ℕ} {l : List ℕ}, (∀ j ∈ l, next j = next' j) → Chain next h l →
    Chain next' h l
  | _, [], _, hl => hl
  | _, i :: l, heq, hl => by
      refine ⟨hl.1, ?_⟩
      rw [← heq i (List.mem_cons_self ..)]
      exact congr (fun j hj => heq j (List.mem_cons_of_mem _ hj)) hl.2

/-- A chain read from one of its cells on is a chain. -/
theorem suffix : ∀ {h : Option ℕ} {l l' : List ℕ}, Chain next h (l ++ i :: l') →
    Chain next (some i) (i :: l')
  | _, [], _, hl => ⟨rfl, hl.2⟩
  | _, _ :: _, _, hl => suffix hl.2

/-- A chain does not come back to a cell. -/
theorem nodup : ∀ {h : Option ℕ} {l : List ℕ}, Chain next h l → l.Nodup
  | _, [], _ => List.nodup_nil
  | _, i :: l, hl => by
      refine List.nodup_cons.mpr ⟨fun hmem => ?_, nodup hl.2⟩
      obtain ⟨a, b, rfl⟩ := List.append_of_mem hmem
      -- the suffix from the second visit would have to be the whole chain again
      have hself : i :: b = i :: (a ++ i :: b) :=
        unique (suffix hl.2) (h := some i) ⟨rfl, hl.2⟩
      have hlen := congrArg List.length hself
      simp only [List.length_cons, List.length_append] at hlen
      omega

theorem length_le {n : ℕ} (hl : Chain next h l) (hb : ∀ j ∈ l, j < n) : l.length ≤ n := by
  have hsub : l ⊆ List.range n := fun j hj => List.mem_range.mpr (hb j hj)
  simpa using (hl.nodup.subperm hsub).length_le

/-- A chain from a cell starts with that cell. -/
theorem eq_cons (hl : Chain next (some i) l) : ∃ l', l = i :: l' ∧ Chain next (next i) l' := by
  cases l with
  | nil => cases hl
  | cons j l' =>
    obtain ⟨hj, hl'⟩ := hl
    cases hj
    exact ⟨l', rfl, hl'⟩

theorem head_mem (hl : Chain next (some i) l) : i ∈ l := by
  obtain ⟨l', rfl, -⟩ := eq_cons hl
  exact List.mem_cons_self ..

/-- Chains are closed under following a link. -/
theorem mem_of_next {j k : ℕ} (hl : Chain next h l) (hj : j ∈ l) (hk : next j = some k) : k ∈ l := by
  induction l generalizing h with
  | nil => cases hj
  | cons i l ih =>
    rcases List.mem_cons.mp hj with rfl | hj
    · rw [Chain.cons_iff, hk] at hl
      exact List.mem_cons_of_mem _ (head_mem hl.2)
    · exact List.mem_cons_of_mem _ (ih hl.2 hj)

/-- Every cell of a chain but its first has a predecessor in it. -/
theorem exists_pred {j : ℕ} (hl : Chain next (some i) l) (hj : j ∈ l) (hne : j ≠ i) :
    ∃ p ∈ l, next p = some j := by
  induction l generalizing i with
  | nil => cases hj
  | cons i' l ih =>
    obtain ⟨l', heq, hl⟩ := eq_cons hl
    cases heq
    rcases List.mem_cons.mp hj with rfl | hj
    · exact absurd rfl hne
    · cases hn : next i' with
      | none => rw [hn, nil_of_none_iff] at hl; subst hl; cases hj
      | some k =>
        by_cases hjk : j = k
        · exact ⟨i', List.mem_cons_self .., by rw [hn, hjk]⟩
        · rw [hn] at hl
          obtain ⟨p, hp, hpn⟩ := ih hl hj hjk
          exact ⟨p, List.mem_cons_of_mem _ hp, hpn⟩

/-- Renaming the cells of a chain. -/
theorem map (f : ℕ → ℕ) (hf : ∀ j ∈ l, next' (f j) = (next j).map f) (hl : Chain next h l) :
    Chain next' (h.map f) (l.map f) := by
  induction l generalizing h with
  | nil => rw [Chain.nil_iff] at hl; subst hl; rfl
  | cons i l ih =>
    obtain ⟨rfl, hl⟩ := hl
    refine ⟨rfl, ?_⟩
    rw [hf i (List.mem_cons_self ..)]
    exact ih (fun j hj => hf j (List.mem_cons_of_mem _ hj)) hl

/-- Splicing the cell `b` in after the cell `a`. -/
theorem splice {a b : ℕ} (ha : next' a = some b) (hb : next' b = next a)
    (hf : ∀ j ∈ l, j ≠ a → next' j = next j) (hl : Chain next h l) :
    Chain next' h (l.flatMap fun j => if j = a then [a, b] else [j]) := by
  induction l generalizing h with
  | nil => exact hl
  | cons i l ih =>
    obtain ⟨rfl, hl⟩ := hl
    have ih := ih (fun j hj => hf j (List.mem_cons_of_mem _ hj)) hl
    rw [List.flatMap_cons]
    split
    · next hi => subst hi; exact ⟨rfl, ha, hb ▸ ih⟩
    · next hi => exact ⟨rfl, (hf i (List.mem_cons_self ..) hi) ▸ ih⟩

end Chain

end Lib
