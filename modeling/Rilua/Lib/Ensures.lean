import Rilua.Lib.Lockstep

/-! What a computation that may fail leaves behind. `Ensures P x Q E`: from a state in `P`, the computation `x` returns a
    value and a state in `Q`, or fails with an error and a state in `E`. It composes along the steps of a computation, and
    goes on where an error is handled. -/

namespace Lib

variable {σ ε α β γ : Type}

def Ensures (P : σ → Prop) (x : EStateM ε σ α) (Q : α → σ → Prop) (E : ε → σ → Prop) : Prop :=
  ∀ s, P s → (∀ a s', x s = .ok a s' → Q a s') ∧ ∀ e s', x s = .error e s' → E e s'

namespace Ensures

variable {P P' : σ → Prop} {Q Q' : α → σ → Prop} {E E' : ε → σ → Prop} {x y : EStateM ε σ α}

theorem of_ok {a : σ → α} {f : σ → σ} (hx : ∀ s, x s = .ok (a s) (f s)) (h : ∀ s, P s → Q (a s) (f s)) :
    Ensures P x Q E := by
  refine fun s hs => ⟨fun a s' heq => ?_, fun e s' heq => ?_⟩ <;> rw [hx] at heq <;> cases heq
  exact h s hs

theorem of_error {e : ε} (hx : ∀ s, x s = .error e s) (h : ∀ s, P s → E e s) : Ensures P x Q E := by
  refine fun s hs => ⟨fun a s' heq => ?_, fun e s' heq => ?_⟩ <;> rw [hx] at heq <;> cases heq
  exact h s hs

theorem pure (a : α) (h : ∀ s, P s → Q a s) : Ensures P (Pure.pure a) Q E := of_ok (fun _ => rfl) h

theorem throw {e : ε} (h : ∀ s, P s → E e s) : Ensures P (MonadExcept.throw e) Q E := of_error (fun _ => rfl) h

theorem observe {f : σ → α} (h : ∀ s, P s → Q (f s) s) : Ensures P (Lib.observe f) Q E := of_ok (fun _ => rfl) h

theorem change {f : σ → σ} {Q : Unit → σ → Prop} (h : ∀ s, P s → Q () (f s)) : Ensures P (Lib.change f) Q E :=
  of_ok (fun _ => rfl) h

theorem bind {M : β → σ → Prop} {x : EStateM ε σ β} {f : β → EStateM ε σ α} (hx : Ensures P x M E)
    (hf : ∀ b, Ensures (M b) (f b) Q E) : Ensures P (x >>= f) Q E := by
  intro s hs
  cases hrun : x s with
  | ok b s₁ =>
    rw [bind_of_done hrun]
    exact hf b s₁ ((hx s hs).1 b s₁ hrun)
  | error e s₁ =>
    rw [bind_of_error hrun]
    refine ⟨fun a s' heq => ?_, fun e s' heq => ?_⟩ <;> cases heq
    exact (hx s hs).2 e s₁ hrun

theorem mono (h : Ensures P x Q E) (hpre : ∀ s, P' s → P s) (hpost : ∀ a s, Q a s → Q' a s)
    (herr : ∀ e s, E e s → E' e s) : Ensures P' x Q' E' := fun s hs =>
  ⟨fun a s' heq => hpost a s' ((h s (hpre s hs)).1 a s' heq), fun e s' heq => herr e s' ((h s (hpre s hs)).2 e s' heq)⟩

/-- Less may be assumed of the states before. -/
theorem pre (h : Ensures P x Q E) (hpre : ∀ s, P' s → P s) : Ensures P' x Q E := h.mono hpre (fun _ _ => id) fun _ _ => id

/-- More may be claimed of the states behind. -/
theorem post (h : Ensures P x Q E) (hpost : ∀ a s, Q a s → Q' a s) : Ensures P x Q' E :=
  h.mono (fun _ => id) hpost fun _ _ => id

/-- What holds of the states before, independently of them, may be used. -/
theorem of_pre {p : Prop} (hp : ∀ s, P s → p) (h : p → Ensures P x Q E) : Ensures P x Q E := fun s hs =>
  h (hp s hs) s hs

theorem of_and {p : Prop} (h : p → Ensures P x Q E) : Ensures (fun s => p ∧ P s) x Q E := fun s hs => h hs.1 s hs.2

theorem of_exists {ι : Type} {P : ι → σ → Prop} (h : ∀ i, Ensures (P i) x Q E) : Ensures (fun s => ∃ i, P i s) x Q E :=
  fun s ⟨i, hs⟩ => h i s hs

theorem ite {c : Prop} [Decidable c] (hx : c → Ensures P x Q E) (hy : ¬ c → Ensures P y Q E) :
    Ensures P (if c then x else y) Q E := by
  split
  · exact hx ‹_›
  · exact hy ‹_›

/-- A loop that keeps an invariant. -/
theorem repeatFor {I : β → σ → Prop} {Q : γ → σ → Prop} {exhausted : ε} {f : β → EStateM ε σ (β ⊕ γ)}
    (hstep : ∀ b, Ensures (I b) (f b) (Sum.elim I Q) E) (hzero : ∀ b s, I b s → E exhausted s) (n : ℕ) (b : β) :
    Ensures (I b) (Lib.repeatFor exhausted f n b) Q E := by
  induction n generalizing b with
  | zero => exact throw (hzero b)
  | succ n ih =>
    refine (hstep b).bind fun r => ?_
    cases r with
    | inl b => exact ih b
    | inr c => exact pure c fun _ => id

end Ensures

end Lib
