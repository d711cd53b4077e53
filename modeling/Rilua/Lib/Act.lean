import Mathlib.Data.List.Basic

/-! Computations that change a state, may be stuck, may fail, and say what they are about to write to.
    `Triple I W P x Q`: from a state in `P`, the computation ends in a state in `I`, and where it does not
    fail it has written to nothing but what is in `W` and ends in a state in `Q`. `Ends` also says that it is not
    stuck. Both compose along the steps of a computation. -/

namespace Lib

/-- Nothing where the computation is stuck, and otherwise the state after it, what it was about to write
    to, and a value or an error. -/
def Act (σ ω ε α : Type) : Type := σ → Option (σ × List ω × Except ε α)

namespace Act

variable {σ ω ε α β : Type}

/-- Performs `x`, and `f` with its value unless it failed. -/
def andThen (x : Act σ ω ε α) (f : α → Act σ ω ε β) : Act σ ω ε β := fun s =>
  match x s with
  | none => none
  | some (s, w, .error e) => some (s, w, .error e)
  | some (s, w, .ok a) => (f a s).map fun (s, w', r) => (s, w ++ w', r)

instance : Monad (Act σ ω ε) where
  pure a := fun s => some (s, [], .ok a)
  bind := andThen

/-- Fails. -/
def fail (e : ε) : Act σ ω ε α := fun s => some (s, [], .error e)

/-- Reads the state. -/
def get : Act σ ω ε σ := fun s => some (s, [], .ok s)

/-- A step that may be stuck but does not fail. -/
def lift (f : σ → Option (σ × α)) : Act σ ω ε α := fun s => (f s).map fun (s, a) => (s, [], .ok a)

/-- A step that may be stuck or fail. -/
def attempt (f : σ → Option (σ × Except ε α)) : Act σ ω ε α := fun s => (f s).map fun (s, r) => (s, [], r)

/-- A value that may be missing, where the computation is stuck. -/
def ofOption (x : Option α) : Act σ ω ε α := lift fun s => x.map fun a => (s, a)

def modify (f : σ → σ) : Act σ ω ε Unit := fun s => some (f s, [], .ok ())

/-- `x`, which is about to write to `o`. -/
def writing (o : ω) (x : Act σ ω ε α) : Act σ ω ε α := fun s => (x s).map fun (s, w, r) => (s, o :: w, r)

/-! ### Running -/

/-- Where the first of two computations is known, the second one goes on from its result. -/
theorem bind_of_ok {x : Act σ ω ε α} {s s₁ : σ} {a : α} (h : x s = some (s₁, [], .ok a)) (f : α → Act σ ω ε β) :
    (x >>= f) s = f a s₁ := by
  change andThen x f s = _
  rw [andThen, h]
  exact Option.map_id' ..

/-- Where the first of two computations fails, nothing else is done. -/
theorem bind_of_error {x : Act σ ω ε α} {s s₁ : σ} {e : ε} (h : x s = some (s₁, [], .error e)) (f : α → Act σ ω ε β) :
    (x >>= f) s = some (s₁, [], .error e) := by
  change andThen x f s = _
  rw [andThen, h]

@[simp] theorem get_bind (f : σ → Act σ ω ε β) (s : σ) : (Act.get >>= f) s = f s s := bind_of_ok rfl f

@[simp] theorem modify_bind (g : σ → σ) (f : Unit → Act σ ω ε β) (s : σ) : (Act.modify g >>= f) s = f () (g s) :=
  bind_of_ok rfl f

@[simp] theorem pure_apply (a : α) (s : σ) : (Pure.pure a : Act σ ω ε α) s = some (s, [], .ok a) := rfl

/-- Only the states and values that the first of two computations comes to matter to the second one. -/
theorem bind_congr {x : Act σ ω ε α} {f g : α → Act σ ω ε β} {s : σ}
    (h : ∀ s' w a, x s = some (s', w, .ok a) → f a s' = g a s') : (x >>= f) s = (x >>= g) s := by
  change andThen x f s = andThen x g s
  rw [andThen, andThen]
  cases hx : x s with
  | none => rfl
  | some res =>
    obtain ⟨s', w, _ | a⟩ := res
    · rfl
    · simp only [h s' w a hx]

/-- The first computation of two fails, or the second one goes on from its result. -/
theorem bind_cases {x : Act σ ω ε α} {f : α → Act σ ω ε β} {s s' : σ} {w : List ω} {r : Except ε β}
    (h : (x >>= f) s = some (s', w, r)) :
    (∃ e, x s = some (s', w, .error e) ∧ r = .error e) ∨
      ∃ s₁ w₁ a w₂, x s = some (s₁, w₁, .ok a) ∧ f a s₁ = some (s', w₂, r) := by
  change andThen x f s = _ at h
  rw [andThen] at h
  split at h
  · cases h
  · next e heq =>
    cases h
    exact .inl ⟨e, heq, rfl⟩
  · next s₁ w₁ a heq =>
    obtain ⟨⟨s₂, w₂, r₂⟩, heq₂, h⟩ := Option.map_eq_some_iff.mp h
    cases h
    exact .inr ⟨s₁, w₁, a, w₂, heq, heq₂⟩

/-! ### Observation -/

/-- `x` leaves the state as it is. -/
def Observes (x : Act σ ω ε α) : Prop := ∀ s s' w r, x s = some (s', w, r) → s' = s

/-- `x` comes to the value `a`. -/
def Returns (x : Act σ ω ε α) (s : σ) (a : α) : Prop := ∃ s' w, x s = some (s', w, .ok a)

theorem Returns.unique {x : Act σ ω ε α} {s : σ} {a b : α} (ha : Returns x s a) (hb : Returns x s b) : a = b := by
  obtain ⟨s₁, w₁, h₁⟩ := ha
  obtain ⟨s₂, w₂, h₂⟩ := hb
  rw [h₁] at h₂
  cases h₂
  rfl

namespace Observes

theorem pure (a : α) : Observes (Pure.pure a : Act σ ω ε α) := fun s s' w r h => by
  cases h
  rfl

theorem fail (e : ε) : Observes (Act.fail e : Act σ ω ε α) := fun s s' w r h => by
  cases h
  rfl

theorem get : Observes (Act.get : Act σ ω ε σ) := fun s s' w r h => by
  cases h
  rfl

theorem ofOption (x : Option α) : Observes (Act.ofOption x : Act σ ω ε α) := by
  intro s s' w r h
  obtain ⟨⟨s₁, a⟩, h₁, h⟩ := Option.map_eq_some_iff.mp h
  obtain ⟨b, -, h₁⟩ := Option.map_eq_some_iff.mp h₁
  cases h₁
  cases h
  rfl

theorem bind {x : Act σ ω ε α} {f : α → Act σ ω ε β} (hx : Observes x) (hf : ∀ a, Observes (f a)) :
    Observes (x >>= f) := by
  intro s s' w r h
  rcases bind_cases h with ⟨e, h, -⟩ | ⟨s₁, w₁, a, w₂, h₁, h₂⟩
  · exact hx _ _ _ _ h
  · exact (hf a _ _ _ _ h₂).trans (hx _ _ _ _ h₁)

end Observes

/-! ### Triples -/

/-- From `P`, `x` keeps `I`, and where it does not fail it writes to `W` only and ends in `Q`. -/
def Triple (I : σ → Prop) (W : ω → Prop) (P : σ → Prop) (x : Act σ ω ε α) (Q : α → σ → Prop) : Prop :=
  ∀ s s' w r, P s → x s = some (s', w, r) → I s' ∧ ∀ a, r = .ok a → (∀ o ∈ w, W o) ∧ Q a s'

namespace Triple

variable {I : σ → Prop} {W : ω → Prop} {P P' : σ → Prop} {Q Q' : α → σ → Prop} {R : β → σ → Prop}

theorem pure {a : α} (hI : ∀ s, P s → I s) (hQ : ∀ s, P s → Q a s) :
    Triple I W P (Pure.pure a : Act σ ω ε α) Q := by
  intro s s' w r hP heq
  cases heq
  refine ⟨hI s hP, fun b hb => ?_⟩
  cases hb
  exact ⟨by simp, hQ s hP⟩

theorem bind {x : Act σ ω ε α} {f : α → Act σ ω ε β} (hx : Triple I W P x Q)
    (hf : ∀ a, Triple I W (Q a) (f a) R) : Triple I W P (x >>= f) R := by
  intro s s' w r hP heq
  change andThen x f s = _ at heq
  rw [andThen] at heq
  split at heq
  · cases heq
  · next heq' =>
    cases heq
    exact ⟨(hx _ _ _ _ hP heq').1, fun a ha => by cases ha⟩
  · next s₁ w₁ a heq' =>
    obtain ⟨-, hok⟩ := hx _ _ _ _ hP heq'
    obtain ⟨hw, hQ⟩ := hok a rfl
    obtain ⟨⟨s₂, w₂, r₂⟩, heq₂, heq⟩ := Option.map_eq_some_iff.mp heq
    cases heq
    obtain ⟨hI, hok₂⟩ := hf a _ _ _ _ hQ heq₂
    refine ⟨hI, fun b hb => ?_⟩
    obtain ⟨hw₂, hR⟩ := hok₂ b hb
    refine ⟨fun o ho => ?_, hR⟩
    rcases List.mem_append.mp ho with ho | ho
    · exact hw o ho
    · exact hw₂ o ho

theorem mono {x : Act σ ω ε α} (hx : Triple I W P x Q) (hP : ∀ s, P' s → P s) (hQ : ∀ a s, Q a s → Q' a s) :
    Triple I W P' x Q' := by
  intro s s' w r hP' heq
  obtain ⟨hI, hok⟩ := hx s s' w r (hP s hP') heq
  refine ⟨hI, fun a ha => ?_⟩
  obtain ⟨hw, hq⟩ := hok a ha
  exact ⟨hw, hQ a s' hq⟩

theorem weaken {x : Act σ ω ε α} (hx : Triple I W P x Q) (hP : ∀ s, P' s → P s) : Triple I W P' x Q :=
  hx.mono hP fun _ _ h => h

/-- What every state in `P` implies may be assumed. -/
theorem assume {x : Act σ ω ε α} {φ : Prop} (h : ∀ s, P s → φ) (hx : φ → Triple I W P x Q) : Triple I W P x Q :=
  fun s s' w r hP heq => hx (h s hP) s s' w r hP heq

/-- From each state in `P`. -/
theorem of_state {x : Act σ ω ε α} (h : ∀ s₀, P s₀ → Triple I W (fun s => s = s₀ ∧ P s) x Q) : Triple I W P x Q :=
  fun s s' w r hP heq => h s hP s s' w r ⟨rfl, hP⟩ heq

/-- From no state. -/
theorem of_false {x : Act σ ω ε α} (hP : ∀ s, ¬ P s) : Triple I W P x Q := fun s _ _ _ h _ => (hP s h).elim

theorem fail {e : ε} (hI : ∀ s, P s → I s) : Triple I W P (Act.fail e : Act σ ω ε α) Q := by
  intro s s' w r hP heq
  cases heq
  exact ⟨hI s hP, fun a ha => by cases ha⟩

theorem get (hI : ∀ s, P s → I s) : Triple I W P (Act.get : Act σ ω ε σ) fun t s => t = s ∧ P s := by
  intro s s' w r hP heq
  cases heq
  refine ⟨hI s hP, fun t ht => ?_⟩
  cases ht
  exact ⟨by simp, rfl, hP⟩

theorem attempt {f : σ → Option (σ × Except ε α)}
    (hf : ∀ s s' r, P s → f s = some (s', r) → I s' ∧ ∀ a, r = .ok a → Q a s') : Triple I W P (Act.attempt f) Q := by
  intro s s' w r hP heq
  obtain ⟨⟨s₁, r₁⟩, heq₁, heq⟩ := Option.map_eq_some_iff.mp heq
  cases heq
  obtain ⟨hI, hok⟩ := hf s _ _ hP heq₁
  exact ⟨hI, fun a ha => ⟨by simp, hok a ha⟩⟩

theorem lift {f : σ → Option (σ × α)} (hf : ∀ s s' a, P s → f s = some (s', a) → I s' ∧ Q a s') :
    Triple I W P (Act.lift f : Act σ ω ε α) Q := by
  intro s s' w r hP heq
  obtain ⟨⟨s₁, a⟩, heq₁, heq⟩ := Option.map_eq_some_iff.mp heq
  cases heq
  obtain ⟨hI, hQ⟩ := hf s _ _ hP heq₁
  refine ⟨hI, fun b hb => ?_⟩
  cases hb
  exact ⟨by simp, hQ⟩

theorem ofOption {x : Option α} (hI : ∀ s, P s → I s) :
    Triple I W P (Act.ofOption x : Act σ ω ε α) fun a s => x = some a ∧ P s := by
  refine lift fun s s' a hP heq => ?_
  obtain ⟨b, hb, heq⟩ := Option.map_eq_some_iff.mp heq
  cases heq
  exact ⟨hI s hP, hb, hP⟩

theorem modify {f : σ → σ} (hf : ∀ s, P s → I (f s)) :
    Triple I W P (Act.modify f : Act σ ω ε Unit) fun _ s => I s := by
  intro s s' w r hP heq
  cases heq
  exact ⟨hf s hP, fun a _ => ⟨by simp, hf s hP⟩⟩

/-- An observation keeps what held before. -/
theorem of_observes {x : Act σ ω ε α} (hx : Observes x) (hP : ∀ s, P s → I s) (hW : ∀ o, W o) :
    Triple I W P x fun _ => P := by
  intro s s' w r h heq
  obtain rfl := hx _ _ _ _ heq
  exact ⟨hP s' h, fun _ _ => ⟨fun o _ => hW o, h⟩⟩

/-- From a known state, an observation comes to what it returns there. -/
theorem returns {x : Act σ ω ε α} (hx : Observes x) (hP : ∀ s, P s → I s) (hW : ∀ o, W o) (s₀ : σ) :
    Triple I W (fun s => s = s₀ ∧ P s) x fun a s => Returns x s₀ a ∧ s = s₀ ∧ P s := by
  rintro s s' w r ⟨rfl, h⟩ heq
  obtain rfl := hx _ _ _ _ heq
  refine ⟨hP s' h, fun a ha => ⟨fun o _ => hW o, ⟨s', w, ?_⟩, rfl, h⟩⟩
  rw [heq, ha]

/-- Where the state is known, so is what `x` does to it. -/
theorem exact {x : Act σ ω ε α} (s₀ : σ) (hx : Triple I W P x Q) :
    Triple I W (fun s => s = s₀ ∧ P s) x fun a s => (∃ w, x s₀ = some (s, w, .ok a)) ∧ Q a s := by
  rintro s s' w r ⟨rfl, hP⟩ heq
  obtain ⟨hI, hok⟩ := hx s s' w r hP heq
  refine ⟨hI, fun a ha => ?_⟩
  obtain ⟨hw, hQ⟩ := hok a ha
  exact ⟨hw, ⟨w, by rw [heq, ha]⟩, hQ⟩

/-- A write may be announced where it fails unless it is allowed. -/
theorem writing {o : ω} {x : Act σ ω ε α} (hx : Triple I W P x fun a s => W o ∧ Q a s) :
    Triple I W P (Act.writing o x) Q := by
  intro s s' w r hP heq
  obtain ⟨⟨s₁, w₁, r₁⟩, heq₁, heq⟩ := Option.map_eq_some_iff.mp heq
  cases heq
  obtain ⟨hI, hok⟩ := hx s _ _ _ hP heq₁
  refine ⟨hI, fun a ha => ?_⟩
  obtain ⟨hw, ho, hQ⟩ := hok a ha
  refine ⟨fun o' ho' => ?_, hQ⟩
  rcases List.mem_cons.mp ho' with rfl | ho'
  · exact ho
  · exact hw o' ho'

end Triple

/-! ### Outcomes -/

/-- From `P`, `x` ends in `Q` where it comes to a value, and in `E` where it fails. What holds in between is left open. -/
def Outcome (E : σ → Prop) (P : σ → Prop) (x : Act σ ω ε α) (Q : α → σ → Prop) : Prop :=
  ∀ s s' w r, P s → x s = some (s', w, r) → (∀ a, r = .ok a → Q a s') ∧ ∀ e, r = .error e → E s'

namespace Outcome

variable {E P P' : σ → Prop} {Q Q' : α → σ → Prop} {R : β → σ → Prop}

theorem pure {a : α} (h : ∀ s, P s → Q a s) : Outcome E P (Pure.pure a : Act σ ω ε α) Q := by
  intro s s' w r hP heq
  cases heq
  exact ⟨fun b hb => by cases hb; exact h s hP, nofun⟩

theorem fail {e : ε} (h : ∀ s, P s → E s) : Outcome E P (Act.fail e : Act σ ω ε α) Q := by
  intro s s' w r hP heq
  cases heq
  exact ⟨nofun, fun _ _ => h s hP⟩

theorem bind {x : Act σ ω ε α} {f : α → Act σ ω ε β} (hx : Outcome E P x Q) (hf : ∀ a, Outcome E (Q a) (f a) R) :
    Outcome E P (x >>= f) R := by
  intro s s' w r hP heq
  rcases bind_cases heq with ⟨e, h, rfl⟩ | ⟨s₁, w₁, a, w₂, h₁, h₂⟩
  · exact ⟨nofun, fun _ _ => (hx _ _ _ _ hP h).2 e rfl⟩
  · exact hf a _ _ _ _ ((hx _ _ _ _ hP h₁).1 a rfl) h₂

theorem mono {x : Act σ ω ε α} (hx : Outcome E P x Q) (hP : ∀ s, P' s → P s) (hQ : ∀ a s, Q a s → Q' a s) :
    Outcome E P' x Q' := fun s s' w r h heq =>
  ⟨fun a ha => hQ a s' ((hx s s' w r (hP s h) heq).1 a ha), (hx s s' w r (hP s h) heq).2⟩

/-- What every state in `P` implies may be assumed. -/
theorem assume {x : Act σ ω ε α} {φ : Prop} (h : ∀ s, P s → φ) (hx : φ → Outcome E P x Q) : Outcome E P x Q :=
  fun s s' w r hP heq => hx (h s hP) s s' w r hP heq

theorem get : Outcome E P (Act.get : Act σ ω ε σ) fun t s => t = s ∧ P s := by
  intro s s' w r hP heq
  cases heq
  exact ⟨fun t ht => by cases ht; exact ⟨rfl, hP⟩, nofun⟩

theorem modify {f : σ → σ} {S : σ → Prop} (h : ∀ s, P s → S (f s)) :
    Outcome E P (Act.modify f : Act σ ω ε Unit) fun _ => S := by
  intro s s' w r hP heq
  cases heq
  exact ⟨fun _ _ => h s hP, nofun⟩

theorem attempt {f : σ → Option (σ × Except ε α)}
    (hf : ∀ s s' r, P s → f s = some (s', r) → (∀ a, r = .ok a → Q a s') ∧ ∀ e, r = .error e → E s') :
    Outcome E P (Act.attempt f : Act σ ω ε α) Q := by
  intro s s' w r hP heq
  obtain ⟨⟨s₁, r₁⟩, heq₁, heq⟩ := Option.map_eq_some_iff.mp heq
  cases heq
  exact hf s _ _ hP heq₁

theorem lift {f : σ → Option (σ × α)} (hf : ∀ s s' a, P s → f s = some (s', a) → Q a s') :
    Outcome E P (Act.lift f : Act σ ω ε α) Q := by
  intro s s' w r hP heq
  obtain ⟨⟨s₁, a⟩, heq₁, heq⟩ := Option.map_eq_some_iff.mp heq
  cases heq
  exact ⟨fun b hb => by cases hb; exact hf s _ _ hP heq₁, nofun⟩

theorem writing {o : ω} {x : Act σ ω ε α} (hx : Outcome E P x Q) : Outcome E P (Act.writing o x) Q := by
  intro s s' w r hP heq
  obtain ⟨⟨s₁, w₁, r₁⟩, heq₁, heq⟩ := Option.map_eq_some_iff.mp heq
  cases heq
  exact hx s _ _ _ hP heq₁

/-- An observation leaves the state as it is. -/
theorem of_observes {x : Act σ ω ε α} (hx : Observes x) (hE : ∀ s, P s → E s) : Outcome E P x fun _ => P := by
  intro s s' w r h heq
  obtain rfl := hx _ _ _ _ heq
  exact ⟨fun _ _ => h, fun _ _ => hE s' h⟩

end Outcome

/-! ### Total correctness -/

/-- From `s`, `x` is not stuck and writes to `W` only. It comes to a value in `Q`, or to an error in `E`. -/
def Ends (W : ω → Prop) (E : ε → σ → Prop) (s : σ) (x : Act σ ω ε α) (Q : α → σ → Prop) : Prop :=
  ∃ s' w r, x s = some (s', w, r) ∧ (∀ o ∈ w, W o) ∧ (∀ a, r = .ok a → Q a s') ∧ ∀ e, r = .error e → E e s'

namespace Ends

variable {W : ω → Prop} {E : ε → σ → Prop} {Q Q' : α → σ → Prop} {R : β → σ → Prop} {s : σ}

theorem of_ok {x : Act σ ω ε α} {s' : σ} {a : α} (hx : x s = some (s', [], .ok a)) (h : Q a s') : Ends W E s x Q :=
  ⟨s', [], .ok a, hx, by simp, fun _ hb => by cases hb; exact h, nofun⟩

theorem of_error {x : Act σ ω ε α} {s' : σ} {e : ε} (hx : x s = some (s', [], .error e)) (h : E e s') :
    Ends W E s x Q :=
  ⟨s', [], .error e, hx, by simp, nofun, fun _ he => by cases he; exact h⟩

theorem pure {a : α} (h : Q a s) : Ends W E s (Pure.pure a : Act σ ω ε α) Q := of_ok rfl h

theorem fail {e : ε} (h : E e s) : Ends W E s (Act.fail e : Act σ ω ε α) Q := of_error rfl h

theorem mono {x : Act σ ω ε α} (hx : Ends W E s x Q) (hQ : ∀ a s', Q a s' → Q' a s') : Ends W E s x Q' := by
  obtain ⟨s', w, r, heq, hw, hok, herror⟩ := hx
  exact ⟨s', w, r, heq, hw, fun a ha => hQ a s' (hok a ha), herror⟩

theorem bind {x : Act σ ω ε α} {f : α → Act σ ω ε β} (hx : Ends W E s x Q)
    (hf : ∀ a s', Q a s' → Ends W E s' (f a) R) : Ends W E s (x >>= f) R := by
  obtain ⟨s₁, w₁, r₁, heq₁, hw₁, hok₁, herror₁⟩ := hx
  change ∃ s' w r, andThen x f s = some (s', w, r) ∧ _
  rw [andThen, heq₁]
  cases r₁ with
  | error e => exact ⟨s₁, w₁, .error e, rfl, hw₁, nofun, fun e' he => herror₁ e' (by cases he; rfl)⟩
  | ok a =>
    obtain ⟨s₂, w₂, r₂, heq₂, hw₂, hok₂, herror₂⟩ := hf a s₁ (hok₁ a rfl)
    refine ⟨s₂, w₁ ++ w₂, r₂, by simp only [heq₂, Option.map_some], fun o ho => ?_, hok₂, herror₂⟩
    rcases List.mem_append.mp ho with ho | ho
    · exact hw₁ o ho
    · exact hw₂ o ho

theorem seq {x : Act σ ω ε α} {y : Act σ ω ε β} (hx : Ends W E s x Q) (hy : ∀ a s', Q a s' → Ends W E s' y R) :
    Ends W E s (x >>= fun _ => y) R :=
  hx.bind (f := fun _ => y) hy

/-- A write to what may be written to. -/
theorem writing {o : ω} {x : Act σ ω ε α} (ho : W o) (hx : Ends W E s x Q) : Ends W E s (Act.writing o x) Q := by
  obtain ⟨s', w, r, heq, hw, hok, herror⟩ := hx
  refine ⟨s', o :: w, r, by rw [Act.writing, heq]; rfl, fun o' ho' => ?_, hok, herror⟩
  rcases List.mem_cons.mp ho' with rfl | ho'
  · exact ho
  · exact hw o' ho'

end Ends

end Act

end Lib
