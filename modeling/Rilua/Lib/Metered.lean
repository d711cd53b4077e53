import Mathlib.Order.Lattice.Nat
import Mathlib.Order.SupClosed
import Mathlib.Order.UpperLower.CompleteLattice

/-! Computations of a state that may fail, and that leave marks of what they did, also where they fail. The marks
    of a computation are the join of those of its steps, so they record what was reached at most: the deepest
    call, the longest loop. `Meets P E x s Q` bounds the marks that `x` leaves from `s`; what is claimed may
    depend on a guard for the marks of the whole computation. It composes along the steps. -/

namespace Lib

/-- A computation of a state `σ` with errors `ε` that leaves marks `μ`. -/
def Metered (μ σ ε α : Type) : Type := σ → μ × Except ε (α × σ)

namespace Metered

variable {μ σ ε α β γ : Type} [SemilatticeSup μ] [OrderBot μ]

protected def bind (x : Metered μ σ ε α) (f : α → Metered μ σ ε β) : Metered μ σ ε β := fun s =>
  match x s with
  | (m, .error e) => (m, .error e)
  | (m, .ok (a, s')) => (m ⊔ (f a s').1, (f a s').2)

instance : Monad (Metered μ σ ε) where
  pure a := fun s => (⊥, .ok (a, s))
  bind := Metered.bind

/-- Fails. -/
def fail (e : ε) : Metered μ σ ε α := fun _ => (⊥, .error e)

/-- Reads the state. -/
def get : Metered μ σ ε σ := fun s => (⊥, .ok (s, s))

/-- A step that may fail. -/
def attempt (f : σ → Except ε (α × σ)) : Metered μ σ ε α := fun s => (⊥, f s)

def modify (f : σ → σ) : Metered μ σ ε Unit := fun s => (⊥, .ok ((), f s))

/-- Leaves a mark. -/
def mark (m : μ) : Metered μ σ ε Unit := fun s => (m, .ok ((), s))

/-- `x`, whose marks count as `g` says. -/
def rescale (g : μ → μ) (x : Metered μ σ ε α) : Metered μ σ ε α := fun s => (g (x s).1, (x s).2)

/-- Performs `f` until it gives a result, at most as often as the fuel allows. -/
def repeatFor (exhausted : ε) (f : β → Metered μ σ ε (β ⊕ γ)) : ℕ → β → Metered μ σ ε γ
  | 0, _ => fail exhausted
  | n + 1, b => do
    match ← f b with
    | .inl b => repeatFor exhausted f n b
    | .inr c => pure c

@[simp] theorem pure_apply (a : α) (s : σ) : (pure a : Metered μ σ ε α) s = (⊥, .ok (a, s)) := rfl

theorem bind_of_ok {x : Metered μ σ ε α} (f : α → Metered μ σ ε β) {s s' : σ} {m : μ} {a : α}
    (h : x s = (m, .ok (a, s'))) : (x >>= f) s = (m ⊔ (f a s').1, (f a s').2) := by
  change Metered.bind x f s = _
  rw [Metered.bind, h]

theorem bind_of_error {x : Metered μ σ ε α} (f : α → Metered μ σ ε β) {s : σ} {m : μ} {e : ε}
    (h : x s = (m, .error e)) : (x >>= f) s = (m, .error e) := by
  change Metered.bind x f s = _
  rw [Metered.bind, h]

/-- What is claimed of marks: where those of the whole computation are guarded, they are allowed. -/
structure Policy (μ : Type) [SemilatticeSup μ] [OrderBot μ] where
  guard : LowerSet μ
  allowed : Set μ
  supClosed : SupClosed allowed
  bot_mem : ⊥ ∈ allowed

/-- From `s`, if the marks of `x` are guarded, then they are allowed, an error is in `E`, and a result is in `Q`. -/
structure Meets (P : Policy μ) (E : ε → Prop) (x : Metered μ σ ε α) (s : σ) (Q : α → σ → Prop) : Prop where
  marks : (x s).1 ∈ P.guard → (x s).1 ∈ P.allowed
  error : (x s).1 ∈ P.guard → ∀ e, (x s).2 = .error e → E e
  ok : (x s).1 ∈ P.guard → ∀ a s', (x s).2 = .ok (a, s') → Q a s'

namespace Meets

variable {P P' : Policy μ} {E : ε → Prop} {x : Metered μ σ ε α} {s : σ} {Q Q' : α → σ → Prop} {R : β → σ → Prop}

protected theorem pure {a : α} (h : Q a s) : Meets P E (pure a : Metered μ σ ε α) s Q := by
  refine ⟨fun _ => P.bot_mem, fun _ e he => ?_, fun _ a' s' he => ?_⟩
  · cases he
  · cases he
    exact h

theorem fail {e : ε} (h : E e) : Meets P E (Metered.fail e : Metered μ σ ε α) s Q := by
  refine ⟨fun _ => P.bot_mem, fun _ e' he => ?_, fun _ a' s' he => ?_⟩
  · cases he
    exact h
  · cases he

theorem get {Q : σ → σ → Prop} (h : Q s s) : Meets P E (Metered.get : Metered μ σ ε σ) s Q := by
  refine ⟨fun _ => P.bot_mem, fun _ e he => ?_, fun _ a' s' he => ?_⟩
  · cases he
  · cases he
    exact h

theorem modify {f : σ → σ} {Q : Unit → σ → Prop} (h : Q () (f s)) :
    Meets P E (Metered.modify f : Metered μ σ ε Unit) s Q := by
  refine ⟨fun _ => P.bot_mem, fun _ e he => ?_, fun _ a' s' he => ?_⟩
  · cases he
  · cases he
    exact h

theorem attempt {f : σ → Except ε (α × σ)} (herr : ∀ e, f s = .error e → E e)
    (hok : ∀ a s', f s = .ok (a, s') → Q a s') : Meets P E (Metered.attempt f : Metered μ σ ε α) s Q :=
  ⟨fun _ => P.bot_mem, fun _ => herr, fun _ => hok⟩

/-- A mark is allowed, and what follows may rely on its being guarded. -/
theorem mark {m : μ} {Q : Unit → σ → Prop} (hm : m ∈ P.guard → m ∈ P.allowed) (h : m ∈ P.guard → Q () s) :
    Meets P E (Metered.mark m : Metered μ σ ε Unit) s Q := by
  refine ⟨hm, fun _ e he => ?_, fun hg a' s' he => ?_⟩
  · cases he
  · cases he
    exact h hg

theorem bind {f : α → Metered μ σ ε β} (h : Meets P E x s Q) (h' : ∀ a s', Q a s' → Meets P E (f a) s' R) :
    Meets P E (x >>= f) s R := by
  rcases hx : x s with ⟨m, e | ⟨a, s'⟩⟩
  · have hrun := bind_of_error f hx
    refine ⟨fun hg => ?_, fun hg e' he => ?_, fun hg a s' he => ?_⟩
    · rw [hrun] at hg ⊢
      have hmarks := h.marks
      rw [hx] at hmarks
      exact hmarks hg
    · rw [hrun] at hg he
      have herror := h.error
      rw [hx] at herror
      cases he
      exact herror hg e rfl
    · rw [hrun] at he
      cases he
  · have hrun := bind_of_ok f hx
    have hfirst : m ⊔ (f a s').1 ∈ P.guard → m ∈ P.guard := P.guard.lower le_sup_left
    have hsecond : m ⊔ (f a s').1 ∈ P.guard → (f a s').1 ∈ P.guard := P.guard.lower le_sup_right
    have hnext : m ∈ P.guard → Meets P E (f a) s' R := by
      intro hg
      have hok := h.ok
      rw [hx] at hok
      exact h' a s' (hok hg a s' rfl)
    refine ⟨fun hg => ?_, fun hg e' he => ?_, fun hg b s'' he => ?_⟩
    · rw [hrun] at hg ⊢
      have hmarks := h.marks
      rw [hx] at hmarks
      exact P.supClosed (hmarks (hfirst hg)) ((hnext (hfirst hg)).marks (hsecond hg))
    · rw [hrun] at hg he
      exact (hnext (hfirst hg)).error (hsecond hg) e' he
    · rw [hrun] at hg he
      exact (hnext (hfirst hg)).ok (hsecond hg) b s'' he

theorem mono (h : Meets P E x s Q) (hQ : ∀ a s', Q a s' → Q' a s') : Meets P E x s Q' :=
  ⟨h.marks, h.error, fun hg a s' he => hQ a s' (h.ok hg a s' he)⟩

theorem congr {y : Metered μ σ ε α} (h : Meets P E x s Q) (hy : y s = x s) : Meets P E y s Q := by
  refine ⟨?_, ?_, ?_⟩ <;> rw [hy]
  · exact h.marks
  · exact h.error
  · exact h.ok

/-- A computation whose marks are counted otherwise. -/
theorem rescale {g : μ → μ} (h : Meets P E x s Q) (hguard : ∀ m, g m ∈ P'.guard → m ∈ P.guard)
    (hallowed : ∀ m ∈ P.allowed, g m ∈ P'.allowed) : Meets P' E (Metered.rescale g x) s Q :=
  ⟨fun hg => hallowed _ (h.marks (hguard _ hg)), fun hg => h.error (hguard _ hg), fun hg => h.ok (hguard _ hg)⟩

/-- A weaker policy. -/
theorem relax (h : Meets P E x s Q) (hguard : ∀ m ∈ P'.guard, m ∈ P.guard) (hallowed : ∀ m ∈ P.allowed, m ∈ P'.allowed) :
    Meets P' E x s Q :=
  ⟨fun hg => hallowed _ (h.marks (hguard _ hg)), fun hg => h.error (hguard _ hg), fun hg => h.ok (hguard _ hg)⟩

theorem ite {c : Prop} [Decidable c] {y : Metered μ σ ε α} (ht : c → Meets P E x s Q) (hf : ¬ c → Meets P E y s Q) :
    Meets P E (if c then x else y) s Q := by
  split
  · rename_i hc
    exact ht hc
  · rename_i hc
    exact hf hc

/-- A loop with an invariant and a variant: there is fuel for all of it. -/
theorem repeatFor {f : β → Metered μ σ ε (β ⊕ γ)} {exhausted : ε} {I : β → σ → Prop} {R : γ → σ → Prop} (size : σ → ℕ)
    (h : ∀ b s, I b s → Meets P E (f b) s fun r s' =>
      match r with
      | .inl b' => I b' s' ∧ size s' < size s
      | .inr c => R c s') :
    ∀ (n : ℕ) (b : β) (s : σ), I b s → size s < n → Meets P E (Metered.repeatFor exhausted f n b) s R := by
  intro n
  induction n with
  | zero => exact fun b s _ hlt => absurd hlt (Nat.not_lt_zero _)
  | succ n ih =>
    intro b s hb hlt
    refine (h b s hb).bind fun r s' hr => ?_
    cases r with
    | inl b' => exact ih b' s' hr.1 (lt_of_lt_of_le hr.2 (Nat.lt_succ_iff.mp hlt))
    | inr c => exact .pure hr

/-- A loop with an invariant, where running out of fuel is no harm. -/
theorem repeatFor_of_exhausted {f : β → Metered μ σ ε (β ⊕ γ)} {exhausted : ε} {I : β → σ → Prop} {R : γ → σ → Prop}
    (he : E exhausted)
    (h : ∀ b s, I b s → Meets P E (f b) s fun r s' =>
      match r with
      | .inl b' => I b' s'
      | .inr c => R c s') :
    ∀ (n : ℕ) (b : β) (s : σ), I b s → Meets P E (Metered.repeatFor exhausted f n b) s R := by
  intro n
  induction n with
  | zero => exact fun b s _ => .fail he
  | succ n ih =>
    intro b s hb
    refine (h b s hb).bind fun r s' hr => ?_
    cases r with
    | inl b' => exact ih b' s' hr
    | inr c => exact .pure hr

end Meets

end Metered

end Lib
