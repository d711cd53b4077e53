import Mathlib.Logic.Relation
import Mathlib.Data.List.Basic

/-! A loop that computes its next value from the last one until there is none. `Visits next x vs` says that the loop
    from `x` visits `vs` and ends. -/

namespace Lib

open Relation

variable {α : Type*} {next next' : α → Option α} {x y : α} {vs vs' : List α}

/-- The loop from `x` visits exactly these values, in order, and ends. -/
def Visits (next : α → Option α) : α → List α → Prop
  | x, [] => next x = none
  | x, y :: ys => next x = some y ∧ Visits next y ys

/-- A value that the loop from `x` comes to. -/
def Reached (next : α → Option α) : α → α → Prop := ReflTransGen fun a b => next a = some b

theorem Visits.unique : ∀ {x : α} {vs vs' : List α}, Visits next x vs → Visits next x vs' → vs = vs'
  | _, [], [], _, _ => rfl
  | _, [], _ :: _, h, h' => nomatch h.symm.trans h'.1
  | _, _ :: _, [], h, h' => nomatch h'.symm.trans h.1
  | _, y :: ys, z :: zs, h, h' => by
    obtain rfl := Option.some.inj (h.1.symm.trans h'.1)
    rw [Visits.unique h.2 h'.2]

/-- A loop that comes to a value at which it stays does not end. -/
theorem Visits.not_fixed (h : Visits next x vs) (hfixed : next y = some y) : ¬ Reached next x y := by
  have hstay : ∀ ys, ¬ Visits next y ys := by
    intro ys
    induction ys with
    | nil => exact fun h => nomatch hfixed.symm.trans h
    | cons z zs ih =>
      rintro ⟨hz, hzs⟩
      obtain rfl := Option.some.inj (hfixed.symm.trans hz)
      exact ih hzs
  intro hreach
  have hrest : ∃ ys, Visits next y ys := by
    clear hfixed hstay
    induction hreach with
    | refl => exact ⟨vs, h⟩
    | tail _ hstep ih =>
      obtain ⟨ys, hys⟩ := ih
      cases ys with
      | nil => exact absurd (hys.symm.trans hstep) (by simp)
      | cons z zs =>
        obtain rfl := Option.some.inj (hys.1.symm.trans hstep)
        exact ⟨zs, hys.2⟩
  obtain ⟨ys, hys⟩ := hrest
  exact hstay ys hys

/-- What holds of `x` and is kept by the loop holds of all that it comes to. -/
theorem Reached.invariant {P : α → Prop} (hx : P x) (hstep : ∀ a b, P a → next a = some b → P b)
    (h : Reached next x y) : P y := by
  induction h with
  | refl => exact hx
  | tail _ hab ih => exact hstep _ _ ih hab

theorem Reached.head (h : next x = some y) {z : α} (hz : Reached next y z) : Reached next x z := ReflTransGen.head h hz

/-- A loop ends if a measure gets smaller at each of its values. -/
theorem visits_of_measure (μ : α → ℕ) : ∀ (n : ℕ) (x : α), μ x ≤ n →
    (∀ a b, Reached next x a → next a = some b → μ b < μ a) → ∃ vs, Visits next x vs := by
  intro n
  induction n with
  | zero =>
    intro x hx hdecr
    cases hnext : next x with
    | none => exact ⟨[], hnext⟩
    | some y =>
      have := hdecr x y .refl hnext
      omega
  | succ n ih =>
    intro x hx hdecr
    cases hnext : next x with
    | none => exact ⟨[], hnext⟩
    | some y =>
      have hlt := hdecr x y .refl hnext
      obtain ⟨ys, hys⟩ := ih y (by omega) fun a b ha hab => hdecr a b (.head hnext ha) hab
      exact ⟨y :: ys, hnext, hys⟩

/-! ### Loops on numbers that go down or back to one value -/

section Down

variable {next : ℕ → Option ℕ} {back x : ℕ} {vs : List ℕ}

theorem Visits.suffix {next : α → Option α} {x y : α} : ∀ {vs us : List α}, Visits next x (vs ++ y :: us) →
    Visits next y us
  | [], _, h => h.2
  | _ :: _, _, h => Visits.suffix h.2

/-- Such a loop does not come to that value twice and end. -/
theorem Visits.not_mem_of_self {next : α → Option α} {x : α} {vs : List α} (h : Visits next x vs) : x ∉ vs := by
  intro hmem
  obtain ⟨ws, us, rfl⟩ := List.append_of_mem hmem
  have heq := congrArg List.length (h.unique h.suffix)
  simp at heq
  omega

/-- As long as it does not come back, it goes down. -/
theorem Visits.length_le_of_down : ∀ {x : ℕ} {vs us : List ℕ}, Visits next x (vs ++ us) → back ∉ vs →
    (∀ a b, next a = some b → b < a ∨ b = back) → vs.length ≤ x
  | _, [], _, _, _, _ => Nat.zero_le _
  | x, y :: ys, us, h, hback, hdown => by
    have hne : y ≠ back := fun he => hback (he ▸ List.mem_cons_self)
    have hlt : y < x := (hdown x y h.1).resolve_right hne
    have hrest := Visits.length_le_of_down h.2 (fun hmem => hback (List.mem_cons_of_mem _ hmem)) hdown
    rw [List.length_cons]
    omega

/-- It ends after a bounded number of steps, or never. -/
theorem Visits.length_le (h : Visits next x vs) (hdown : ∀ a b, next a = some b → b < a ∨ b = back) :
    vs.length ≤ x + back + 1 := by
  by_cases hmem : back ∈ vs
  · obtain ⟨ws, us, rfl, hws⟩ := List.eq_append_cons_of_mem hmem
    have hus : Visits next back us := h.suffix
    have hdownUs := (show Visits next back (us ++ []) by rwa [List.append_nil]).length_le_of_down hus.not_mem_of_self
      hdown
    have hdownWs := h.length_le_of_down hws hdown
    rw [List.length_append, List.length_cons]
    omega
  · have hlen := (show Visits next x (vs ++ []) by rwa [List.append_nil]).length_le_of_down hmem hdown
    omega

end Down

end Lib
