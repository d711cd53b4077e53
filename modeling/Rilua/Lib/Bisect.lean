import Mathlib.Algebra.Order.Group.Nat

/-! Searching for a border: a place where a test holds, or the start, in front of a place where it does not.
    `gallop` doubles the distance until the test fails, `bisect` halves the interval until its ends are
    neighbours. Nothing is assumed of the test: it may hold anywhere, and the border that is found is one of
    many. The test may also be undefined (`none`). -/

namespace Lib

/-- Halves the interval between `lo` and `hi`, at most as often as the fuel allows. -/
def bisect (test : ℕ → Option Bool) : ℕ → ℕ → ℕ → Option ℕ
  | 0, lo, hi => if 1 < hi - lo then none else some lo
  | fuel + 1, lo, hi =>
    if 1 < hi - lo then do
      let m := (lo + hi) / 2
      if ← test m then bisect test fuel m hi else bisect test fuel lo m
    else some lo

/-- Doubles `j` while the test holds of it and it stays below the limit; the last two values of `j`, or nothing
    if the limit is reached. -/
def gallop (test : ℕ → Option Bool) (limit : ℕ) : ℕ → ℕ → ℕ → Option (Option (ℕ × ℕ))
  | 0, _, _ => none
  | fuel + 1, i, j => do
    if ← test j then
      if j * 2 < limit then gallop test limit fuel j (j * 2) else some none
    else some (some (i, j))

/-- Counts up from `i` while the test holds. -/
def countUp (test : ℕ → Option Bool) : ℕ → ℕ → Option ℕ
  | 0, _ => none
  | fuel + 1, i => do
    if ← test i then countUp test fuel (i + 1) else some (i - 1)

variable {test : ℕ → Option Bool} {present : ℕ → Bool}

/-- `n` is the start `lo`, or the test holds of it; the test fails at `n + 1`. -/
structure IsBorder (present : ℕ → Bool) (lo n : ℕ) : Prop where
  start_or_present : n = lo ∨ present n = true
  absent : present (n + 1) = false

theorem bisect_spec : ∀ {fuel lo hi : ℕ}, lo < hi → hi - lo ≤ 2 ^ fuel →
    (∀ m, lo < m → m < hi → test m = some (present m)) → present hi = false →
    ∃ n, bisect test fuel lo hi = some n ∧ IsBorder present lo n
  | 0, lo, hi, hlt, hle, _, habsent => by
    have hnext : hi = lo + 1 := by omega
    subst hnext
    exact ⟨lo, by simp [bisect], .inl rfl, habsent⟩
  | fuel + 1, lo, hi, hlt, hle, htest, habsent => by
    rw [bisect]
    by_cases hgap : 1 < hi - lo
    · rw [if_pos hgap]
      rw [Nat.pow_succ] at hle
      have hm : test ((lo + hi) / 2) = some (present ((lo + hi) / 2)) := htest _ (by omega) (by omega)
      simp only [hm, bind, Option.bind_some]
      cases hpresent : present ((lo + hi) / 2) with
      | true =>
        obtain ⟨n, hn, hborder⟩ := bisect_spec (by omega : (lo + hi) / 2 < hi) (by omega : _ ≤ 2 ^ fuel)
          (fun m h h' => htest m (by omega) h') habsent
        refine ⟨n, hn, .inr ?_, hborder.absent⟩
        rcases hborder.start_or_present with rfl | h
        · exact hpresent
        · exact h
      | false => exact bisect_spec (by omega) (by omega) (fun m h h' => htest m h (by omega)) hpresent
    · rw [if_neg hgap]
      have hnext : hi = lo + 1 := by omega
      subst hnext
      exact ⟨lo, rfl, .inl rfl, habsent⟩

/-- Galloping ends at an interval with the test true (or the start) at one end and false at the other, or at the
    limit. -/
theorem gallop_spec (htest : ∀ m, test m = some (present m)) {limit lo : ℕ} : ∀ {fuel i j : ℕ}, i < j →
    j < limit → limit ≤ j * 2 ^ fuel → (i = lo ∨ present i = true) →
    gallop test limit fuel i j = some none ∨ ∃ i' j', gallop test limit fuel i j = some (some (i', j')) ∧
      i' < j' ∧ j' < limit ∧ (i' = lo ∨ present i' = true) ∧ present j' = false
  | 0, i, j, _, hj, hfuel, _ => by omega
  | fuel + 1, i, j, hij, hj, hfuel, hi => by
    rw [gallop, htest]
    simp only [bind, Option.bind_some]
    cases hpresent : present j with
    | false => exact .inr ⟨i, j, rfl, hij, hj, hi, hpresent⟩
    | true =>
      by_cases hdouble : j * 2 < limit
      · rw [if_pos rfl, if_pos hdouble]
        rw [Nat.pow_succ] at hfuel
        have hstep : limit ≤ j * 2 * 2 ^ fuel := by
          rw [Nat.mul_assoc, Nat.mul_comm 2]
          exact hfuel
        exact gallop_spec htest (by omega) hdouble hstep (.inr hpresent)
      · rw [if_pos rfl, if_neg hdouble]
        exact .inl rfl

/-- Counting ends where the test fails, if that is within the fuel. -/
theorem countUp_spec (htest : ∀ m, test m = some (present m)) : ∀ {fuel i : ℕ}, 0 < i →
    (i = 1 ∨ present (i - 1) = true) → (∃ k < fuel, present (i + k) = false) →
    ∃ n, countUp test fuel i = some n ∧ IsBorder present 0 n
  | 0, i, _, _, ⟨k, hk, _⟩ => absurd hk (Nat.not_lt_zero k)
  | fuel + 1, i, hi, hlast, ⟨k, hk, habsent⟩ => by
    rw [countUp, htest]
    simp only [bind, Option.bind_some]
    cases hpresent : present i with
    | false =>
      refine ⟨i - 1, rfl, ?_, ?_⟩
      · rcases hlast with rfl | h
        · exact .inl rfl
        · exact .inr h
      · rw [Nat.sub_add_cancel hi]
        exact hpresent
    | true =>
      rw [if_pos rfl]
      refine countUp_spec htest (Nat.succ_pos i) (.inr hpresent) ?_
      cases k with
      | zero => rw [Nat.add_zero, hpresent] at habsent; cases habsent
      | succ k => exact ⟨k, Nat.lt_of_succ_lt_succ hk, by rwa [Nat.add_assoc, Nat.add_comm 1]⟩

end Lib
