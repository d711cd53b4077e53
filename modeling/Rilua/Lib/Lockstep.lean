import Mathlib.Data.Nat.Notation

/-! Two runs of computations of a state that may fail, side by side. `Lockstep R E P x y Q`: from states related
    by `R`, the first of which is in `P`, the computations `x` and `y` return the same value or fail with the
    same error, in states that are related again; a value comes with `Q`, an error with `E`. It composes along
    the steps of the computations. With equality for `R` it is a triple about one computation. -/

namespace Lib

variable {σ τ ε α β γ : Type}

/-- Reads something of the state. -/
def observe (f : σ → α) : EStateM ε σ α := fun s => .ok (f s) s

/-- Changes the state. -/
def change (f : σ → σ) : EStateM ε σ Unit := fun s => .ok () (f s)

/-- A step that does not fail. -/
def transition (f : σ → α × σ) : EStateM ε σ α := fun s => .ok (f s).1 (f s).2

/-- Performs `f` until it gives a result, at most as often as the fuel allows. -/
def repeatFor (exhausted : ε) (f : β → EStateM ε σ (β ⊕ γ)) : ℕ → β → EStateM ε σ γ
  | 0, _ => throw exhausted
  | n + 1, b => do
    match ← f b with
    | .inl b => repeatFor exhausted f n b
    | .inr c => pure c

/-- The second of two computations goes on from where the first one ended. -/
theorem bind_of_done {x : EStateM ε σ α} {f : α → EStateM ε σ β} {s s' : σ} {a : α} (h : x s = .ok a s') :
    (x >>= f) s = f a s' := by
  change EStateM.bind x f s = _
  rw [EStateM.bind, h]

/-- The second of two computations is not performed where the first one fails. -/
theorem bind_of_error {x : EStateM ε σ α} {f : α → EStateM ε σ β} {s s' : σ} {e : ε} (h : x s = .error e s') :
    (x >>= f) s = .error e s' := by
  change EStateM.bind x f s = _
  rw [EStateM.bind, h]

@[simp] theorem observe_bind (f : σ → α) (g : α → EStateM ε σ β) (s : σ) : (observe f >>= g) s = g (f s) s := rfl

@[simp] theorem transition_bind (f : σ → α × σ) (g : α → EStateM ε σ β) (s : σ) :
    (transition f >>= g) s = g (f s).1 (f s).2 := rfl

/-- The same outcome, in states that are related. -/
inductive Alike (R : σ → τ → Prop) (E : ε → Prop) (Q : α → σ → Prop) :
    EStateM.Result ε σ α → EStateM.Result ε τ α → Prop
  | ok {a : α} {s : σ} {t : τ} (hrel : R s t) (hpost : Q a s) : Alike R E Q (.ok a s) (.ok a t)
  | error {e : ε} {s : σ} {t : τ} (hrel : R s t) (herr : E e) : Alike R E Q (.error e s) (.error e t)

/-- From related states, `x` and `y` have the same outcome. -/
def Lockstep (R : σ → τ → Prop) (E : ε → Prop) (P : σ → Prop) (x : EStateM ε σ α) (y : EStateM ε τ α)
    (Q : α → σ → Prop) : Prop :=
  ∀ s t, R s t → P s → Alike R E Q (x s) (y t)

namespace Lockstep

variable {R : σ → τ → Prop} {E : ε → Prop} {P P' : σ → Prop} {Q Q' : α → σ → Prop} {x : EStateM ε σ α}
  {y y' : EStateM ε τ α}

theorem pure (a : α) (h : ∀ s, P s → Q a s) : Lockstep R E P (Pure.pure a) (Pure.pure a) Q := fun s _ hrel hpre =>
  .ok hrel (h s hpre)

theorem throw {e : ε} (he : E e) : Lockstep R E P (MonadExcept.throw e) (MonadExcept.throw e) Q :=
  fun _ _ hrel _ => .error hrel he

theorem bind {M : β → σ → Prop} {x : EStateM ε σ β} {y : EStateM ε τ β} {f : β → EStateM ε σ α}
    {g : β → EStateM ε τ α} (hx : Lockstep R E P x y M) (hf : ∀ b, Lockstep R E (M b) (f b) (g b) Q) :
    Lockstep R E P (x >>= f) (y >>= g) Q := by
  intro s t hrel hpre
  change Alike R E Q (EStateM.bind x f s) (EStateM.bind y g t)
  rw [EStateM.bind, EStateM.bind]
  have h := hx s t hrel hpre
  generalize x s = r at h ⊢
  generalize y t = r' at h ⊢
  cases h with
  | ok hrel hpost => exact hf _ _ _ hrel hpost
  | error hrel herr => exact .error hrel herr

/-- Less may be assumed of the states before, and more may be claimed of those behind. -/
theorem mono (h : Lockstep R E P x y Q) (hpre : ∀ s, P' s → P s) (hpost : ∀ a s, Q a s → Q' a s) :
    Lockstep R E P' x y Q' := by
  intro s t hrel hp
  have h := h s t hrel (hpre s hp)
  generalize x s = r at h ⊢
  generalize y t = r' at h ⊢
  cases h with
  | ok hrel hq => exact .ok hrel (hpost _ _ hq)
  | error hrel herr => exact .error hrel herr

theorem pre (h : Lockstep R E P x y Q) (hpre : ∀ s, P' s → P s) : Lockstep R E P' x y Q := h.mono hpre fun _ _ => id

theorem post (h : Lockstep R E P x y Q) (hpost : ∀ a s, Q a s → Q' a s) : Lockstep R E P x y Q' :=
  h.mono (fun _ => id) hpost

/-- What holds of the states before, independently of them, may be used. -/
theorem of_pre {p : Prop} (hp : ∀ s, P s → p) (h : p → Lockstep R E P x y Q) : Lockstep R E P x y Q :=
  fun s t hrel hpre => h (hp s hpre) s t hrel hpre

/-- The second computation may do the same in another way. -/
theorem congr (h : Lockstep R E P x y Q) (hy : ∀ s t, R s t → P s → y' t = y t) : Lockstep R E P x y' Q := by
  intro s t hrel hpre
  rw [hy s t hrel hpre]
  exact h s t hrel hpre

/-- Related states look alike. -/
theorem observe {f : σ → α} {g : τ → α} (h : ∀ s t, R s t → P s → f s = g t ∧ Q (f s) s) :
    Lockstep R E P (Lib.observe f) (Lib.observe g) Q := by
  intro s t hrel hpre
  obtain ⟨heq, hpost⟩ := h s t hrel hpre
  change Alike R E Q (.ok (f s) s) (.ok (g t) t)
  rw [← heq]
  exact .ok hrel hpost

theorem change {f : σ → σ} {g : τ → τ} {Q : Unit → σ → Prop} (h : ∀ s t, R s t → P s → R (f s) (g t) ∧ Q () (f s)) :
    Lockstep R E P (Lib.change f) (Lib.change g) Q := fun s t hrel hpre =>
  .ok (h s t hrel hpre).1 (h s t hrel hpre).2

theorem ite {c : Prop} [Decidable c] {x' : EStateM ε σ α} {y' : EStateM ε τ α} (ht : c → Lockstep R E P x y Q)
    (he : ¬ c → Lockstep R E P x' y' Q) : Lockstep R E P (if c then x else x') (if c then y else y') Q := by
  by_cases hc : c
  · rw [if_pos hc, if_pos hc]
    exact ht hc
  · rw [if_neg hc, if_neg hc]
    exact he hc

/-- A loop that keeps an invariant, which says how much fuel it needs at most. -/
theorem repeatFor {I : ℕ → β → σ → Prop} {Q : γ → σ → Prop} {exhausted : ε} {f : β → EStateM ε σ (β ⊕ γ)}
    {g : β → EStateM ε τ (β ⊕ γ)} (hzero : ∀ b s, ¬ I 0 b s)
    (hstep : ∀ n b, Lockstep R E (I (n + 1) b) (f b) (g b) (Sum.elim (I n) Q)) (n : ℕ) (b : β) :
    Lockstep R E (I n b) (Lib.repeatFor exhausted f n b) (Lib.repeatFor exhausted g n b) Q := by
  induction n generalizing b with
  | zero => exact fun s _ _ hpre => absurd hpre (hzero b s)
  | succ n ih =>
    refine (hstep n b).bind fun r => ?_
    cases r with
    | inl b => exact ih b
    | inr c => exact .pure c fun _ => id

end Lockstep

end Lib
