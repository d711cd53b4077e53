import Mathlib.Data.List.Basic

/-! Readers: partial functions from a position of an input to a value and the position behind it. Two
    judgments about a reader compose along its steps. `Reads r bs a`: wherever the input continues with
    `bs`, the reader takes exactly `bs` and returns `a`, which is what a round trip needs. `Returns r P`:
    whatever the reader returns satisfies `P`, which is what can be said of an unknown input. -/

namespace Lib

/-- A reader of tokens `τ` with errors `ε`. -/
abbrev Reader (τ ε : Type) := ReaderT (List τ) (StateT ℕ (Except ε))

namespace Reader

variable {τ ε α β γ : Type} {data : List τ}

/-- Fails. -/
def fail (e : ε) : Reader τ ε α := fun _ _ => .error e

/-- Performs `f i`, ..., `f (i + n - 1)` in this order. -/
def timesFrom (f : ℕ → Reader τ ε α) : ℕ → ℕ → Reader τ ε (List α)
  | _, 0 => pure []
  | i, n + 1 => do
    let a ← f i
    let as ← timesFrom f (i + 1) n
    pure (a :: as)

/-- Performs `r` `n` times. -/
def times (n : ℕ) (r : Reader τ ε α) : Reader τ ε (List α) := timesFrom (fun _ => r) 0 n

theorem bind_apply (r : Reader τ ε α) (f : α → Reader τ ε β) (data : List τ) (pos : ℕ) :
    (r >>= f) data pos = (r data pos).bind fun x => f x.1 data x.2 := rfl

theorem pure_apply (a : α) (data : List τ) (pos : ℕ) :
    (pure a : Reader τ ε α) data pos = .ok (a, pos) := rfl

/-- Where the input continues with `bs`, `r` takes `bs` and returns `a`. -/
def Reads (data : List τ) (r : Reader τ ε α) (bs : List τ) (a : α) : Prop :=
  ∀ pos ≤ data.length, bs <+: data.drop pos → r data pos = .ok (a, pos + bs.length)

/-- What `r` returns satisfies `P`. -/
def Returns (data : List τ) (r : Reader τ ε α) (P : α → Prop) : Prop :=
  ∀ pos a pos', r data pos = .ok (a, pos') → P a

namespace Reads

theorem pure (a : α) : Reads data (Pure.pure a : Reader τ ε α) [] a := fun _ _ _ => rfl

/-- The input is at least as long as what is read of it. -/
theorem of_length_le {r : Reader τ ε α} {bs : List τ} {a : α}
    (h : bs.length ≤ data.length → Reads data r bs a) : Reads data r bs a := fun pos hle hpos =>
  h (Nat.le_trans hpos.length_le (by rw [List.length_drop]; omega)) pos hle hpos

theorem bind {r : Reader τ ε α} {f : α → Reader τ ε β} {bs bs' : List τ} {a : α} {b : β}
    (h : Reads data r bs a) (h' : Reads data (f a) bs' b) : Reads data (r >>= f) (bs ++ bs') b := by
  intro pos hle hpos
  have hlen := hpos.length_le
  rw [List.length_append, List.length_drop] at hlen
  obtain ⟨rest, hrest⟩ := hpos
  have h₁ : bs <+: data.drop pos := ⟨bs' ++ rest, by rw [← hrest, List.append_assoc]⟩
  have h₂ : bs' <+: data.drop (pos + bs.length) :=
    ⟨rest, by rw [← List.drop_drop, ← hrest, List.append_assoc, List.drop_left]⟩
  rw [bind_apply, h pos hle h₁]
  change f a data (pos + bs.length) = _
  rw [h' _ (by omega) h₂, List.length_append, Nat.add_assoc]

/-- A step that reads one token. -/
theorem bind_cons {r : Reader τ ε α} {f : α → Reader τ ε β} {x : τ} {bs : List τ} {a : α} {b : β}
    (h : Reads data r [x] a) (h' : Reads data (f a) bs b) : Reads data (r >>= f) (x :: bs) b := h.bind h'

/-- A step that reads nothing. -/
theorem bind_nil {r : Reader τ ε α} {f : α → Reader τ ε β} {bs : List τ} {a : α} {b : β}
    (h : Reads data r [] a) (h' : Reads data (f a) bs b) : Reads data (r >>= f) bs b := h.bind h'

/-- A last step that reads nothing. -/
theorem bind_last {r : Reader τ ε α} {f : α → Reader τ ε β} {bs : List τ} {a : α} {b : β}
    (h : Reads data r bs a) (h' : Reads data (f a) [] b) : Reads data (r >>= f) bs b := by
  have := h.bind h'
  rwa [List.append_nil] at this

/-- The last step: the value is put together. -/
theorem map {r : Reader τ ε α} {bs : List τ} {a : α} (h : Reads data r bs a) (g : α → β) :
    Reads data (r >>= fun a => Pure.pure (g a)) bs (g a) :=
  bind_last (f := fun a => Pure.pure (g a)) h (.pure (g a))

theorem timesFrom {f : ℕ → Reader τ ε α} {enc : γ × ℕ → List τ} {val : γ × ℕ → α} :
    ∀ {xs : List γ} {i : ℕ}, (∀ x ∈ xs.zipIdx i, Reads data (f x.2) (enc x) (val x)) →
      Reads data (Reader.timesFrom f i xs.length) ((xs.zipIdx i).flatMap enc) ((xs.zipIdx i).map val)
  | [], _, _ => .pure []
  | x :: xs, i, h => by
    rw [List.zipIdx_cons, List.flatMap_cons, List.map_cons]
    refine (h (x, i) (by simp)).bind (Reads.map (timesFrom fun y hy => h y ?_) _)
    rw [List.zipIdx_cons]
    exact List.mem_cons_of_mem _ hy

theorem times {r : Reader τ ε α} {enc : γ → List τ} {val : γ → α} {xs : List γ}
    (h : ∀ x ∈ xs, Reads data r (enc x) (val x)) :
    Reads data (Reader.times xs.length r) (xs.flatMap enc) (xs.map val) := by
  have hall := timesFrom (f := fun _ => r) fun x (hx : x ∈ xs.zipIdx 0) => h x.1 (List.fst_mem_of_mem_zipIdx hx)
  have henc : (xs.zipIdx 0).flatMap (fun x => enc x.1) = xs.flatMap enc := by
    rw [← List.flatMap_map Prod.fst, List.zipIdx_map_fst]
  have hval : (xs.zipIdx 0).map (fun x => val x.1) = xs.map val := by
    rw [← Function.comp_def, ← List.map_map, List.zipIdx_map_fst]
  rwa [henc, hval] at hall

end Reads

namespace Returns

theorem fail (e : ε) (P : α → Prop) : Returns data (Reader.fail e : Reader τ ε α) P := by
  rintro pos a pos' ⟨⟩

theorem pure {a : α} {P : α → Prop} (h : P a) : Returns data (Pure.pure a : Reader τ ε α) P := by
  rintro pos a pos' ⟨⟩
  exact h

theorem any (r : Reader τ ε α) : Returns data r fun _ => True := fun _ _ _ _ => trivial

theorem bind {r : Reader τ ε α} {f : α → Reader τ ε β} {P : α → Prop} {Q : β → Prop}
    (h : Returns data r P) (h' : ∀ a, P a → Returns data (f a) Q) : Returns data (r >>= f) Q := by
  intro pos b pos' heq
  rw [bind_apply] at heq
  cases hr : r data pos with
  | error e => rw [hr] at heq; cases heq
  | ok x =>
    rw [hr] at heq
    exact h' x.1 (h pos x.1 x.2 hr) x.2 b pos' heq

theorem timesFrom {f : ℕ → Reader τ ε α} {P : α → Prop} (h : ∀ i, Returns data (f i) P) :
    ∀ n i, Returns data (Reader.timesFrom f i n) fun as => as.length = n ∧ ∀ a ∈ as, P a
  | 0, _ => .pure ⟨rfl, by simp⟩
  | n + 1, i => (h i).bind fun a ha => (timesFrom h n (i + 1)).bind fun as has =>
    .pure ⟨congrArg (· + 1) has.1, List.forall_mem_cons.mpr ⟨ha, has.2⟩⟩

theorem times {r : Reader τ ε α} {P : α → Prop} (h : Returns data r P) (n : ℕ) :
    Returns data (Reader.times n r) fun as => as.length = n ∧ ∀ a ∈ as, P a :=
  timesFrom (fun _ => h) n 0

end Returns

end Reader

end Lib
