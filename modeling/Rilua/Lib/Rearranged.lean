import Mathlib.Algebra.Order.Ring.Int
import Mathlib.Data.List.Perm.Basic
import Mathlib.GroupTheory.Perm.Support
import Mathlib.Order.RelClasses
import Mathlib.Tactic.Linarith

/-! Sequences that are sorted in place. `Rearranged l u a b`: the values of `a` between `l` and `u` are moved around.
    A range is sorted once it is divided at a pivot and both sides are sorted. -/

namespace Lib

variable {α : Type} {l u i j p : ℤ} {a b c : ℤ → α}

/-- `b` has the values of `a`, and those between `l` and `u` may be in other places there. -/
def Rearranged (l u : ℤ) (a b : ℤ → α) : Prop :=
  ∃ σ : Equiv.Perm ℤ, (∀ k, ¬ (l ≤ k ∧ k ≤ u) → σ k = k) ∧ b = a ∘ σ

namespace Rearranged

theorem refl (l u : ℤ) (a : ℤ → α) : Rearranged l u a a := ⟨1, fun _ _ => rfl, rfl⟩

theorem trans (h : Rearranged l u a b) (h' : Rearranged l u b c) : Rearranged l u a c := by
  obtain ⟨σ, hσ, rfl⟩ := h
  obtain ⟨τ, hτ, rfl⟩ := h'
  refine ⟨σ * τ, fun k hk => ?_, rfl⟩
  rw [Equiv.Perm.mul_apply, hτ k hk, hσ k hk]

theorem mono {l' u' : ℤ} (h : Rearranged l u a b) (hl : l' ≤ l) (hu : u ≤ u') : Rearranged l' u' a b := by
  obtain ⟨σ, hσ, rfl⟩ := h
  exact ⟨σ, fun k hk => hσ k fun hin => hk ⟨hl.trans hin.1, hin.2.trans hu⟩, rfl⟩

theorem swap (a : ℤ → α) (hi : l ≤ i ∧ i ≤ u) (hj : l ≤ j ∧ j ≤ u) : Rearranged l u a (a ∘ Equiv.swap i j) := by
  refine ⟨Equiv.swap i j, fun k hk => Equiv.swap_apply_of_ne_of_ne ?_ ?_, rfl⟩
  · rintro rfl
    exact hk hi
  · rintro rfl
    exact hk hj

theorem outside (h : Rearranged l u a b) {k : ℤ} (hk : ¬ (l ≤ k ∧ k ≤ u)) : b k = a k := by
  obtain ⟨σ, hσ, rfl⟩ := h
  rw [Function.comp_apply, hσ k hk]

/-- Each value comes from the range. -/
theorem exists_eq (h : Rearranged l u a b) {k : ℤ} (hk : l ≤ k ∧ k ≤ u) : ∃ m, (l ≤ m ∧ m ≤ u) ∧ b k = a m := by
  obtain ⟨σ, hσ, rfl⟩ := h
  refine ⟨σ k, by_contra fun hm => ?_, rfl⟩
  have hfix : σ k = k := σ.injective (hσ _ hm)
  rw [hfix] at hm
  exact hm hk

/-- What holds of all values in the range holds of them in their new places. -/
theorem forall_of {P : α → Prop} (h : Rearranged l u a b) (ha : ∀ k, l ≤ k → k ≤ u → P (a k)) :
    ∀ k, l ≤ k → k ≤ u → P (b k) := fun k hl hu => by
  obtain ⟨m, hm, heq⟩ := h.exists_eq ⟨hl, hu⟩
  rw [heq]
  exact ha m hm.1 hm.2

/-- As lists, the ranges are permutations of each other. -/
theorem perm {n : ℕ} (h : Rearranged 1 n a b) :
    ((List.range n).map fun i => b (i + 1 : ℕ)).Perm ((List.range n).map fun i => a (i + 1 : ℕ)) := by
  obtain ⟨σ, hσ, rfl⟩ := h
  have hin : ∀ k, 1 ≤ k ∧ k ≤ (n : ℤ) → 1 ≤ σ k ∧ σ k ≤ n := fun k hk => by_contra fun hm => by
    have hfix : σ k = k := σ.injective (hσ _ hm)
    rw [hfix] at hm
    exact hm hk
  have hcast : Function.Injective fun i : ℕ => ((i + 1 : ℕ) : ℤ) := fun i j hij => by
    have := Int.ofNat_injective hij
    omega
  have hplaces : ((List.range n).map fun i => σ (i + 1 : ℕ)).Perm ((List.range n).map fun i => ((i + 1 : ℕ) : ℤ)) := by
    refine (List.perm_ext_iff_of_nodup (List.nodup_range.map (σ.injective.comp hcast))
      (List.nodup_range.map hcast)).mpr fun k => ?_
    rw [List.mem_map, List.mem_map]
    constructor
    · rintro ⟨i, hi, rfl⟩
      have hk := hin (i + 1 : ℕ) (by have := List.mem_range.mp hi; omega)
      refine ⟨(σ (i + 1 : ℕ) - 1).toNat, List.mem_range.mpr (by omega), ?_⟩
      change (((σ (i + 1 : ℕ) - 1).toNat + 1 : ℕ) : ℤ) = σ (i + 1 : ℕ)
      omega
    · rintro ⟨i, hi, rfl⟩
      have hi := List.mem_range.mp hi
      -- the place before the permutation is in the range, or it would be its own
      have hk : 1 ≤ σ.symm (i + 1 : ℕ) ∧ σ.symm (i + 1 : ℕ) ≤ n := by_contra fun hm => by
        have hfix := hσ _ hm
        rw [Equiv.apply_symm_apply] at hfix
        rw [← hfix] at hm
        omega
      refine ⟨(σ.symm (i + 1 : ℕ) - 1).toNat, List.mem_range.mpr (by omega), ?_⟩
      have hcast' : (((σ.symm (i + 1 : ℕ) - 1).toNat + 1 : ℕ) : ℤ) = σ.symm (i + 1 : ℕ) := by omega
      change σ (((σ.symm (i + 1 : ℕ) - 1).toNat + 1 : ℕ) : ℤ) = (i + 1 : ℕ)
      rw [hcast', Equiv.apply_symm_apply]
  have hvalues := hplaces.map a
  rw [List.map_map, List.map_map] at hvalues
  exact hvalues

end Rearranged

/-! ### Sorted ranges -/

section Sorted

variable {lt : α → α → Prop}

/-- No value between `l` and `u` is less than one before it. -/
def SortedRange (lt : α → α → Prop) (l u : ℤ) (a : ℤ → α) : Prop := ∀ i j, l ≤ i → i < j → j ≤ u → ¬ lt (a j) (a i)

/-- What is not less than `b`, where `b` is not less than `c`, is not less than `c`. -/
theorem not_lt_trans {S : Set α} (h : IsStrictWeakOrder S fun x y => lt x y) {x y z : α} (hx : x ∈ S) (hy : y ∈ S)
    (hz : z ∈ S) (hyx : ¬ lt y x) (hzy : ¬ lt z y) : ¬ lt z x := by
  intro hzx
  have htrans : ∀ {a b c : α}, a ∈ S → b ∈ S → c ∈ S → lt a b → lt b c → lt a c := fun ha hb hc hab hbc =>
    h.trans ⟨_, ha⟩ ⟨_, hb⟩ ⟨_, hc⟩ hab hbc
  -- otherwise `x` and `y`, and `y` and `z`, are both equivalent
  have hxy : ¬ lt x y := fun hxy => hzy (htrans hz hx hy hzx hxy)
  have hyz : ¬ lt y z := fun hyz => hyx (htrans hy hz hx hyz hzx)
  exact (h.incomp_trans ⟨x, hx⟩ ⟨y, hy⟩ ⟨z, hz⟩ ⟨hxy, hyx⟩ ⟨hyz, hzy⟩).2 hzx

theorem not_lt_of_lt {S : Set α} (h : IsStrictWeakOrder S fun x y => lt x y) {x y : α} (hx : x ∈ S) (hy : y ∈ S)
    (hxy : lt x y) : ¬ lt y x := fun hyx =>
  h.irrefl ⟨x, hx⟩ (h.trans ⟨x, hx⟩ ⟨y, hy⟩ ⟨x, hx⟩ hxy hyx)

theorem SortedRange.of_le (h : u ≤ l) : SortedRange lt l u a := fun i j hl hij hu => by omega

theorem SortedRange.congr (h : SortedRange lt l u a) (hab : ∀ k, l ≤ k → k ≤ u → b k = a k) : SortedRange lt l u b := by
  intro i j hl hij hu
  rw [hab i hl (by omega), hab j (by omega) hu]
  exact h i j hl hij hu

/-- The values up to `p` are not above the one at `p`, and those from there on are not below it. -/
structure Divided (lt : α → α → Prop) (l u p : ℤ) (a : ℤ → α) : Prop where
  below : ∀ k, l ≤ k → k ≤ p → ¬ lt (a p) (a k)
  above : ∀ k, p ≤ k → k ≤ u → ¬ lt (a k) (a p)

/-- Rearranging a side keeps the division. -/
theorem Divided.below_rearranged (h : Divided lt l u p a) (hab : Rearranged l (p - 1) a b) : Divided lt l u p b := by
  have hp : b p = a p := hab.outside (by omega)
  constructor
  · intro k hl hk
    rw [hp]
    rcases Int.lt_or_eq_of_le hk with hlt | rfl
    · exact hab.forall_of (P := fun x => ¬ lt (a p) x) (fun m hm hm' => h.below m hm (by omega)) k hl (by omega)
    · rw [hp]
      exact h.below k hl le_rfl
  · intro k hk hu
    rw [hp, hab.outside (by omega)]
    exact h.above k hk hu

theorem Divided.above_rearranged (h : Divided lt l u p a) (hab : Rearranged (p + 1) u a b) : Divided lt l u p b := by
  have hp : b p = a p := hab.outside (by omega)
  constructor
  · intro k hl hk
    rw [hp, hab.outside (by omega)]
    exact h.below k hl hk
  · intro k hk hu
    rw [hp]
    rcases Int.lt_or_eq_of_le hk with hlt | rfl
    · exact hab.forall_of (P := fun x => ¬ lt x (a p)) (fun m hm hm' => h.above m (by omega) hm') k (by omega) hu
    · rw [hp]
      exact h.above p le_rfl hu

/-- A divided range with both sides sorted is sorted. -/
theorem Divided.sorted {S : Set α} (h : Divided lt l u p a) (hlt : IsStrictWeakOrder S fun x y => lt x y)
    (hS : ∀ k, l ≤ k → k ≤ u → a k ∈ S) (hp : l ≤ p ∧ p ≤ u) (hbelow : SortedRange lt l (p - 1) a)
    (habove : SortedRange lt (p + 1) u a) : SortedRange lt l u a := by
  intro i j hl hij hu
  rcases lt_or_ge j p with hj | hj
  · exact hbelow i j hl hij (by omega)
  rcases lt_or_ge p i with hi | hi
  · exact habove i j (by omega) hij hu
  · have hjS := hS j (by omega) hu
    exact not_lt_trans hlt (hS i hl (by omega)) (hS p hp.1 hp.2) hjS (h.below i hl hi) (h.above j hj hu)

end Sorted

end Lib
