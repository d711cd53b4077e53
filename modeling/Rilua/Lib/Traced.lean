import Rilua.Lib.Reader

/-! Readers that record what they demand of the machine (a computation of a position, an access, storage) also
    when they fail. Erasing the record gives a plain reader. A walker over the same input, which checks the
    sizes it meets and builds nothing, decides whether every demand is met: `Agrees` composes along the steps
    of both. -/

namespace Lib

/-- A reader of tokens `τ` with errors `ε` that records demands `δ`. -/
def Traced (τ ε δ α : Type) := List τ → ℕ → List δ × Except ε (α × ℕ)

/-- Why a walker stops: the input is no input of the format, or a size in it is out of bounds. -/
inductive Refusal where | malformed | excessive
  deriving DecidableEq

namespace Traced

variable {τ ε δ α β γ κ : Type}

protected def pure (a : α) : Traced τ ε δ α := fun _ pos => ([], .ok (a, pos))

protected def bind (r : Traced τ ε δ α) (f : α → Traced τ ε δ β) : Traced τ ε δ β := fun data pos =>
  match r data pos with
  | (ds, .error e) => (ds, .error e)
  | (ds, .ok (a, q)) => (ds ++ (f a data q).1, (f a data q).2)

instance : Monad (Traced τ ε δ) where
  pure := Traced.pure
  bind := Traced.bind

/-- Records a demand. -/
def note (d : δ) : Traced τ ε δ Unit := fun _ pos => ([d], .ok ((), pos))

/-- Fails. -/
def fail (e : ε) : Traced τ ε δ α := fun _ _ => ([], .error e)

/-- Performs `f i`, ..., `f (i + n - 1)` in this order. -/
def timesFrom (f : ℕ → Traced τ ε δ α) : ℕ → ℕ → Traced τ ε δ (List α)
  | _, 0 => Pure.pure []
  | i, n + 1 => do
    let a ← f i
    let as ← timesFrom f (i + 1) n
    Pure.pure (a :: as)

/-- Performs `r` `n` times. -/
def times (n : ℕ) (r : Traced τ ε δ α) : Traced τ ε δ (List α) := timesFrom (fun _ => r) 0 n

theorem bind_of_error {r : Traced τ ε δ α} (f : α → Traced τ ε δ β) {data : List τ} {pos : ℕ} {e : ε}
    (h : (r data pos).2 = .error e) : (r >>= f) data pos = ((r data pos).1, .error e) := by
  change Traced.bind r f data pos = _
  unfold Traced.bind
  split <;> rename_i hr
  · rw [hr] at h
    cases h
    rw [hr]
  · rw [hr] at h
    cases h

theorem bind_of_ok {r : Traced τ ε δ α} (f : α → Traced τ ε δ β) {data : List τ} {pos q : ℕ} {a : α}
    (h : (r data pos).2 = .ok (a, q)) :
    (r >>= f) data pos = ((r data pos).1 ++ (f a data q).1, (f a data q).2) := by
  change Traced.bind r f data pos = _
  unfold Traced.bind
  split <;> rename_i hr
  · rw [hr] at h
    cases h
  · rw [hr] at h
    cases h
    rw [hr]

theorem mem_bind {r : Traced τ ε δ α} (f : α → Traced τ ε δ β) {data : List τ} {pos : ℕ} {d : δ}
    (h : d ∈ (r data pos).1) : d ∈ ((r >>= f) data pos).1 := by
  rcases hr : (r data pos).2 with e | ⟨a, q⟩
  · rw [bind_of_error f hr]
    exact h
  · rw [bind_of_ok f hr]
    exact List.mem_append_left _ h

/-! ### Erasing the record -/

/-- What is read, without the record. -/
def erase (r : Traced τ ε δ α) : Reader τ ε α := fun data pos => (r data pos).2

@[simp] theorem erase_pure (a : α) : erase (Pure.pure a : Traced τ ε δ α) = Pure.pure a := rfl

@[simp] theorem erase_fail (e : ε) : erase (fail e : Traced τ ε δ α) = Reader.fail e := rfl

@[simp] theorem erase_note (d : δ) : erase (note d : Traced τ ε δ Unit) = Pure.pure () := rfl

@[simp] theorem erase_bind (r : Traced τ ε δ α) (f : α → Traced τ ε δ β) :
    erase (r >>= f) = erase r >>= fun a => erase (f a) := by
  funext data pos
  rw [Reader.bind_apply]
  unfold erase
  rcases hr : (r data pos).2 with e | ⟨a, q⟩
  · rw [bind_of_error f hr]
    rfl
  · rw [bind_of_ok f hr]
    rfl

theorem erase_timesFrom {f : ℕ → Traced τ ε δ α} {g : ℕ → Reader τ ε α} (h : ∀ i, erase (f i) = g i) :
    ∀ n i, erase (timesFrom f i n) = Reader.timesFrom g i n
  | 0, _ => rfl
  | n + 1, i => by simp only [timesFrom, Reader.timesFrom, erase_bind, erase_pure, h, erase_timesFrom h n]

theorem erase_times {r : Traced τ ε δ α} {g : Reader τ ε α} (h : erase r = g) (n : ℕ) :
    erase (times n r) = Reader.times n g := erase_timesFrom (fun _ => h) n 0

/-! ### Agreement with a walker -/

section Agrees

variable (met : δ → Prop) (benign : ε → Prop) (data : List τ)

/-- Every demand is met, and an error is a benign one. -/
def Sound (x : List δ × Except ε κ) : Prop := (∀ d ∈ x.1, met d) ∧ ∀ e, x.2 = .error e → benign e

/-- From `pos` the walker `w` succeeds where `r` does, ending at the same place with results related by `R`; it
    takes the input for malformed where `r` fails; in both cases `r` is sound. It finds a size out of bounds
    only where `r` is not. -/
def Agrees (pos : ℕ) (r : Traced τ ε δ α) (w : Reader τ Refusal β) (R : α → β → ℕ → Prop) : Prop :=
  match w data pos with
  | .ok (b, q) =>
    (∀ d ∈ (r data pos).1, met d) ∧ ∃ a, (r data pos).2 = .ok (a, q) ∧ pos ≤ q ∧ q ≤ data.length ∧ R a b q
  | .error .malformed => (∀ d ∈ (r data pos).1, met d) ∧ ∃ e, (r data pos).2 = .error e ∧ benign e
  | .error .excessive => ¬ Sound met benign (r data pos)

variable {met benign data} {pos : ℕ} {r : Traced τ ε δ α} {w : Reader τ Refusal β} {R : α → β → ℕ → Prop}

namespace Agrees

theorem sound_iff (h : Agrees met benign data pos r w R) :
    Sound met benign (r data pos) ↔ w data pos ≠ .error .excessive := by
  unfold Agrees at h
  split at h <;> rename_i hw <;> rw [hw]
  · obtain ⟨hmet, a, hr, -⟩ := h
    refine ⟨fun _ => by rintro ⟨⟩, fun _ => ⟨hmet, fun e he => ?_⟩⟩
    rw [hr] at he
    cases he
  · obtain ⟨hmet, e, hr, hben⟩ := h
    refine ⟨fun _ => by rintro ⟨⟩, fun _ => ⟨hmet, fun e' he => ?_⟩⟩
    rw [hr] at he
    cases he
    exact hben
  · exact ⟨fun hs => absurd hs h, fun hne => absurd rfl hne⟩

theorem pure (hpos : pos ≤ data.length) {a : α} {b : β} (h : R a b pos) :
    Agrees met benign data pos (Pure.pure a) (Pure.pure b) R :=
  ⟨fun _ hd => (List.not_mem_nil hd).elim, a, rfl, Nat.le_refl pos, hpos, h⟩

theorem fail {e : ε} (h : benign e) :
    Agrees met benign data pos (Traced.fail e) (Reader.fail .malformed) R :=
  ⟨fun _ hd => (List.not_mem_nil hd).elim, e, rfl, h⟩

/-- A demand that is not met, where the walker finds a size out of bounds. -/
theorem unmet {d : δ} (hd : ¬ met d) (hmem : d ∈ (r data pos).1) (hw : w data pos = .error .excessive) :
    Agrees met benign data pos r w R := by
  unfold Agrees
  rw [hw]
  intro hs
  exact hd (hs.1 d hmem)

/-- A check of the walker that succeeds. -/
theorem check {c : Reader τ Refusal Unit} {g : Unit → Reader τ Refusal β} (hc : c data pos = .ok ((), pos))
    (h : Agrees met benign data pos r (g ()) R) : Agrees met benign data pos r (c >>= g) R := by
  have hwrun : (c >>= g) data pos = g () data pos := by
    rw [Reader.bind_apply, hc]
    rfl
  unfold Agrees at h ⊢
  rw [hwrun]
  exact h

/-- A demand that is met. -/
theorem note {d : δ} (hd : met d) {f : Unit → Traced τ ε δ α} (h : Agrees met benign data pos (f ()) w R) :
    Agrees met benign data pos (Traced.note d >>= f) w R := by
  have hrun : (Traced.note d >>= f) data pos = (d :: (f () data pos).1, (f () data pos).2) := rfl
  unfold Agrees at h ⊢
  rw [hrun]
  split <;> rename_i hw <;> rw [hw] at h
  · exact ⟨List.forall_mem_cons.mpr ⟨hd, h.1⟩, h.2⟩
  · exact ⟨List.forall_mem_cons.mpr ⟨hd, h.1⟩, h.2⟩
  · intro hs
    exact h ⟨(List.forall_mem_cons.mp hs.1).2, hs.2⟩

theorem bind {f : α → Traced τ ε δ γ} {g : β → Reader τ Refusal κ} {Q : γ → κ → ℕ → Prop}
    (h : Agrees met benign data pos r w R)
    (h' : ∀ a b q, pos ≤ q → q ≤ data.length → R a b q → Agrees met benign data q (f a) (g b) Q) :
    Agrees met benign data pos (r >>= f) (w >>= g) Q := by
  have hwrun : (w >>= g) data pos = (w data pos).bind fun x => g x.1 data x.2 := rfl
  unfold Agrees at h
  rcases hw : w data pos with (_ | _) | ⟨b, q⟩ <;> rw [hw] at h hwrun
  · obtain ⟨hmet, e, hr, hben⟩ := h
    unfold Agrees
    rw [hwrun, bind_of_error f hr]
    exact ⟨hmet, e, rfl, hben⟩
  · unfold Agrees
    rw [hwrun]
    intro hs
    refine h ⟨fun d hd => hs.1 d (mem_bind f hd), fun e he => ?_⟩
    exact hs.2 e (by rw [bind_of_error f he])
  · obtain ⟨hmet, a, hr, hle, hlen, hR⟩ := h
    have hwok : (w >>= g) data pos = g b data q := hwrun
    have hnext := h' a b q hle hlen hR
    unfold Agrees at hnext ⊢
    rw [hwok, bind_of_ok f hr]
    split <;> rename_i hg <;> rw [hg] at hnext
    · obtain ⟨hmet', c, hc, hle', hlen', hQ⟩ := hnext
      exact ⟨List.forall_mem_append.mpr ⟨hmet, hmet'⟩, c, hc, Nat.le_trans hle hle', hlen', hQ⟩
    · exact ⟨List.forall_mem_append.mpr ⟨hmet, hnext.1⟩, hnext.2⟩
    · intro hs
      exact hnext ⟨(List.forall_mem_append.mp hs.1).2, hs.2⟩

/-- The value read is put together. -/
theorem map (h : Agrees met benign data pos r w R) (f : α → γ) {Q : γ → β → ℕ → Prop}
    (hQ : ∀ a b q, R a b q → Q (f a) b q) :
    Agrees met benign data pos (r >>= fun a => Pure.pure (f a)) w Q := by
  have hbind := h.bind (f := fun a => Pure.pure (f a)) (g := Pure.pure) (Q := Q)
    fun a b q _ hq hR => .pure hq (hQ a b q hR)
  rwa [bind_pure] at hbind

theorem mono {Q : α → β → ℕ → Prop} (h : Agrees met benign data pos r w R) (hQ : ∀ a b q, R a b q → Q a b q) :
    Agrees met benign data pos r w Q := by
  unfold Agrees at h ⊢
  split <;> rename_i hw <;> rw [hw] at h
  · obtain ⟨hmet, a, hr, hle, hlen, hR⟩ := h
    exact ⟨hmet, a, hr, hle, hlen, hQ _ _ _ hR⟩
  · exact h
  · exact h

theorem timesFrom {f : ℕ → Traced τ ε δ α} {g : ℕ → Reader τ Refusal β}
    (h : ∀ i q, pos ≤ q → q ≤ data.length → Agrees met benign data q (f i) (g i) fun _ _ _ => True) :
    ∀ (n i : ℕ) {q : ℕ}, pos ≤ q → q ≤ data.length →
      Agrees met benign data q (Traced.timesFrom f i n) (Reader.timesFrom g i n) fun _ _ _ => True
  | 0, _, _, _, hlen => .pure hlen trivial
  | n + 1, i, _, hle, hlen => by
    refine (h i _ hle hlen).bind fun a b q hq hqlen _ => ?_
    refine (timesFrom h n (i + 1) (Nat.le_trans hle hq) hqlen).bind fun as bs q' _ hlen' _ => ?_
    exact .pure hlen' trivial

theorem times (hlen : pos ≤ data.length)
    (h : ∀ q, pos ≤ q → q ≤ data.length → Agrees met benign data q r w fun _ _ _ => True) (n : ℕ) :
    Agrees met benign data pos (Traced.times n r) (Reader.times n w) fun _ _ _ => True :=
  timesFrom (fun _ => h) n 0 (Nat.le_refl pos) hlen

end Agrees

end Agrees

end Traced

end Lib
