import Mathlib.Data.List.Basic
import Mathlib.Tactic

/-! An array that reads a default value beyond its end and grows when it is written there, seen as the
    function from indices to values: windows onto a range of it, writes of a whole range, and the loops
    that move a range element by element to a place that may overlap it. -/

namespace Lib

variable {α : Type*}

/-- The values of `f` from `lo` up to `hi`. -/
def window (f : ℕ → α) (lo hi : ℕ) : List α := (List.range' lo (hi - lo)).map f

/-- Writes `xs` over `f`, starting at `lo`. -/
def blit (f : ℕ → α) (lo : ℕ) : List α → ℕ → α
  | [] => f
  | x :: xs => blit (Function.update f lo x) (lo + 1) xs

/-! ### Windows -/

section Window

variable {f g : ℕ → α} {lo mid hi : ℕ}

@[simp] theorem length_window (f : ℕ → α) (lo hi : ℕ) : (window f lo hi).length = hi - lo := by
  simp [window]

theorem getElem?_window (f : ℕ → α) (lo hi i : ℕ) :
    (window f lo hi)[i]? = if lo + i < hi then some (f (lo + i)) else none := by
  rw [window, List.getElem?_map]
  rcases lt_or_ge (lo + i) hi with h | h
  · rw [if_pos h, List.getElem?_range' (by omega), Option.map_some, Nat.one_mul]
  · rw [if_neg (by omega), List.getElem?_eq_none (by rw [List.length_range']; omega), Option.map_none]

theorem window_of_le (f : ℕ → α) (h : hi ≤ lo) : window f lo hi = [] := by
  simp [window, Nat.sub_eq_zero_of_le h]

@[simp] theorem window_self (f : ℕ → α) (lo : ℕ) : window f lo lo = [] := window_of_le f le_rfl

theorem window_congr (h : ∀ i, lo ≤ i → i < hi → f i = g i) : window f lo hi = window g lo hi := by
  refine List.map_congr_left fun i hi' => ?_
  rw [List.mem_range'_1] at hi'
  exact h i hi'.1 (by omega)

theorem window_shift {lo' n : ℕ} (h : ∀ i < n, f (lo + i) = g (lo' + i)) :
    window f lo (lo + n) = window g lo' (lo' + n) := by
  refine List.ext_getElem? fun i => ?_
  rw [getElem?_window, getElem?_window]
  rcases lt_or_ge i n with hi | hi
  · rw [if_pos (by omega), if_pos (by omega), h i hi]
  · rw [if_neg (by omega), if_neg (by omega)]

theorem window_append (f : ℕ → α) (h : lo ≤ mid) (h' : mid ≤ hi) :
    window f lo mid ++ window f mid hi = window f lo hi := by
  refine List.ext_getElem? fun i => ?_
  rw [List.getElem?_append, length_window, getElem?_window, getElem?_window, getElem?_window]
  split_ifs <;> first | rfl | omega | (congr 2; omega)

theorem window_prefix (f : ℕ → α) (lo : ℕ) (h : mid ≤ hi) : window f lo mid <+: window f lo hi := by
  rcases le_total lo mid with hlo | hlo
  · exact ⟨_, window_append f hlo h⟩
  · rw [window_of_le f hlo]
    exact List.nil_prefix

theorem window_cons (f : ℕ → α) (h : lo < hi) : window f lo hi = f lo :: window f (lo + 1) hi := by
  obtain ⟨n, rfl⟩ := Nat.exists_eq_add_of_lt h
  rw [window, window, show lo + n + 1 - lo = n + 1 by omega, show lo + n + 1 - (lo + 1) = n by omega,
    List.range'_succ, List.map_cons]

theorem window_concat (f : ℕ → α) (h : lo ≤ hi) : window f lo (hi + 1) = window f lo hi ++ [f hi] := by
  rw [← window_append f h (Nat.le_succ hi), window_cons f (Nat.lt_succ_self hi), window_self]

theorem take_window (f : ℕ → α) (lo hi n : ℕ) : (window f lo hi).take n = window f lo (min hi (lo + n)) := by
  refine List.ext_getElem? fun i => ?_
  rw [List.getElem?_take, getElem?_window, getElem?_window]
  split_ifs <;> first | rfl | omega

theorem drop_window (f : ℕ → α) (lo hi n : ℕ) : (window f lo hi).drop n = window f (lo + n) hi := by
  refine List.ext_getElem? fun i => ?_
  rw [List.getElem?_drop, getElem?_window, getElem?_window, Nat.add_assoc]

theorem window_replicate {v : α} (h : ∀ i, lo ≤ i → i < hi → f i = v) :
    window f lo hi = List.replicate (hi - lo) v := by
  rw [List.eq_replicate_iff]
  refine ⟨length_window f lo hi, fun x hx => ?_⟩
  obtain ⟨i, hi', rfl⟩ := List.mem_map.mp hx
  rw [List.mem_range'_1] at hi'
  exact h i hi'.1 (by omega)

theorem window_update (f : ℕ → α) (lo hi i : ℕ) (v : α) :
    window (Function.update f (lo + i) v) lo hi = (window f lo hi).set i v := by
  refine List.ext_getElem? fun j => ?_
  rw [List.getElem?_set, getElem?_window, getElem?_window, length_window]
  rcases eq_or_ne i j with rfl | hij
  · rw [if_pos rfl, Function.update_self]
    split_ifs <;> first | rfl | omega
  · rw [if_neg hij, Function.update_of_ne (by omega)]

end Window

/-! ### Writing a range -/

section Blit

variable {f : ℕ → α} {lo hi a i : ℕ} {xs : List α}

@[simp] theorem blit_nil (f : ℕ → α) (lo : ℕ) : blit f lo [] = f := rfl

theorem blit_cons (f : ℕ → α) (lo : ℕ) (x : α) (xs : List α) :
    blit f lo (x :: xs) = blit (Function.update f lo x) (lo + 1) xs := rfl

theorem blit_append (f : ℕ → α) (lo : ℕ) (xs ys : List α) :
    blit f lo (xs ++ ys) = blit (blit f lo xs) (lo + xs.length) ys := by
  induction xs generalizing f lo with
  | nil => rfl
  | cons x xs ih =>
    rw [List.cons_append, blit_cons, blit_cons, ih, List.length_cons, Nat.add_assoc, Nat.add_comm 1]

theorem blit_of_lt (f : ℕ → α) (xs : List α) (h : i < lo) : blit f lo xs i = f i := by
  induction xs generalizing f lo with
  | nil => rfl
  | cons x xs ih => rw [blit_cons, ih _ (by omega), Function.update_of_ne (by omega)]

theorem blit_of_le (f : ℕ → α) (h : lo + xs.length ≤ i) : blit f lo xs i = f i := by
  induction xs generalizing f lo with
  | nil => rfl
  | cons x xs ih =>
    rw [List.length_cons] at h
    rw [blit_cons, ih _ (by omega), Function.update_of_ne (by omega)]

theorem blit_add (f : ℕ → α) (lo : ℕ) (h : i < xs.length) : blit f lo xs (lo + i) = xs[i] := by
  induction xs generalizing f lo i with
  | nil => simp at h
  | cons x xs ih =>
    cases i with
    | zero => rw [Nat.add_zero, blit_cons, blit_of_lt _ _ (Nat.lt_succ_self lo), Function.update_self]; rfl
    | succ i =>
      rw [blit_cons, show lo + (i + 1) = lo + 1 + i by omega, ih _ _ (by simpa using h)]
      rfl

theorem window_blit_of_le (f : ℕ → α) (xs : List α) (h : hi ≤ a) :
    window (blit f a xs) lo hi = window f lo hi :=
  window_congr fun _ _ hi' => blit_of_lt f xs (by omega)

theorem window_blit_of_ge (f : ℕ → α) (h : a + xs.length ≤ lo) :
    window (blit f a xs) lo hi = window f lo hi :=
  window_congr fun _ hi' _ => blit_of_le f (by omega)

@[simp] theorem window_blit_self (f : ℕ → α) (lo : ℕ) (xs : List α) :
    window (blit f lo xs) lo (lo + xs.length) = xs := by
  refine List.ext_getElem? fun i => ?_
  rw [getElem?_window]
  rcases lt_or_ge i xs.length with h | h
  · rw [if_pos (by omega), blit_add f lo h, List.getElem?_eq_getElem h]
  · rw [if_neg (by omega), List.getElem?_eq_none h]

end Blit

theorem window_blit_drop (f : ℕ → α) (lo k : ℕ) (xs : List α) :
    window (blit f lo xs) (lo + k) (lo + xs.length) = xs.drop k := by
  rw [← drop_window, window_blit_self]

theorem blit_replicate (f : ℕ → α) (lo n : ℕ) (v : α) (i : ℕ) :
    blit f lo (List.replicate n v) i = if lo ≤ i ∧ i < lo + n then v else f i := by
  rcases lt_or_ge i lo with h | h
  · rw [if_neg (by omega), blit_of_lt _ _ h]
  · rcases lt_or_ge i (lo + n) with h' | h'
    · obtain ⟨j, rfl⟩ := Nat.exists_eq_add_of_le h
      rw [if_pos ⟨h, h'⟩, blit_add _ _ (by simp; omega), List.getElem_replicate]
    · rw [if_neg (by omega), blit_of_le _ (by simpa using h')]

/-! ### Lists cut off or padded to a length -/

theorem getElem?_takeD (n : ℕ) (xs : List α) (d : α) (i : ℕ) :
    (xs.takeD n d)[i]? = if i < n then some (xs[i]?.getD d) else none := by
  induction n generalizing xs i with
  | zero => simp
  | succ n ih =>
    cases i with
    | zero => cases xs <;> simp
    | succ i => cases xs <;> simp [ih, List.getElem?_replicate]

theorem takeD_of_length_eq {n : ℕ} {xs : List α} (h : xs.length = n) (d : α) : xs.takeD n d = xs := by
  refine List.ext_getElem? fun i => ?_
  rw [getElem?_takeD]
  rcases lt_or_ge i n with hi | hi
  · rw [if_pos hi, List.getElem?_eq_getElem (h ▸ hi)]
    rfl
  · rw [if_neg (by omega), List.getElem?_eq_none (h ▸ hi)]

/-- A window with the values of another one, and the default value after these. -/
theorem window_eq_takeD {f g : ℕ → α} {lo lo' hi n : ℕ} {d : α}
    (h : ∀ i < n, g (lo' + i) = if lo + i < hi then f (lo + i) else d) :
    window g lo' (lo' + n) = (window f lo hi).takeD n d := by
  refine List.ext_getElem? fun i => ?_
  rw [getElem?_window, getElem?_takeD, getElem?_window]
  rcases lt_or_ge i n with hi' | hi'
  · rw [if_pos (by omega), if_pos hi', h i hi']
    split_ifs <;> rfl
  · rw [if_neg (by omega), if_neg (by omega)]

/-! ### Growing arrays -/

section Grow

variable (d : α)

/-- The array as a function: the default value beyond the end. -/
def slot (xs : List α) (i : ℕ) : α := xs[i]?.getD d

/-- Makes the array `n` long at least. -/
def grow (xs : List α) (n : ℕ) : List α := xs ++ List.replicate (n - xs.length) d

/-- Writes one element, growing the array if needed. -/
def put (xs : List α) (i : ℕ) (v : α) : List α := (grow d xs (i + 1)).set i v

/-- Writes a range, growing the array if needed. -/
def putAll (xs : List α) (i : ℕ) : List α → List α
  | [] => xs
  | v :: vs => putAll (put d xs i v) (i + 1) vs

/-- Moves `n` elements, the lowest first. -/
def copyUp (src dst : ℕ) : ℕ → List α → List α
  | 0, xs => xs
  | n + 1, xs => copyUp (src + 1) (dst + 1) n (put d xs dst (slot d xs src))

/-- Moves `n` elements up by one place, the highest first. -/
def shiftUp (lo : ℕ) : ℕ → List α → List α
  | 0, xs => xs
  | n + 1, xs => shiftUp lo n (put d xs (lo + n + 1) (slot d xs (lo + n)))

variable (xs : List α)

@[simp] theorem slot_grow (n : ℕ) : slot d (grow d xs n) = slot d xs := by
  funext i
  rw [slot, slot, grow]
  rcases lt_or_ge i xs.length with h | h
  · rw [List.getElem?_append_left h]
  · rw [List.getElem?_append_right h, List.getElem?_eq_none h, List.getElem?_replicate]
    split_ifs <;> rfl

@[simp] theorem slot_put (i : ℕ) (v : α) : slot d (put d xs i v) = Function.update (slot d xs) i v := by
  funext j
  rw [slot, put, List.getElem?_set]
  rcases eq_or_ne i j with rfl | hij
  · have hlen : i < (grow d xs (i + 1)).length := by simp [grow]; omega
    rw [if_pos rfl, if_pos hlen, Function.update_self]
    rfl
  · rw [if_neg hij, Function.update_of_ne hij.symm, ← slot, slot_grow]

@[simp] theorem slot_putAll (i : ℕ) (vs : List α) : slot d (putAll d xs i vs) = blit (slot d xs) i vs := by
  induction vs generalizing xs i with
  | nil => rfl
  | cons v vs ih => rw [putAll, ih, slot_put, blit_cons]

/-- Moving down, or not at all, lowest first does not overwrite what is still to be moved. -/
theorem slot_copyUp {src dst : ℕ} (h : dst ≤ src) (n : ℕ) :
    slot d (copyUp d src dst n xs) = blit (slot d xs) dst (window (slot d xs) src (src + n)) := by
  induction n generalizing src dst xs with
  | zero => rw [Nat.add_zero, window_self]; rfl
  | succ n ih =>
    have hrest : window (Function.update (slot d xs) dst (slot d xs src)) (src + 1) (src + 1 + n) =
        window (slot d xs) (src + 1) (src + (n + 1)) := by
      rw [show src + 1 + n = src + (n + 1) by omega]
      exact window_congr fun i hi _ => Function.update_of_ne (by omega) _ _
    rw [copyUp, ih _ (by omega), slot_put, hrest, ← blit_cons, ← window_cons _ (by omega)]

/-- Moving a range up past its own end is a plain copy as well. -/
theorem slot_copyUp_of_le {src dst n : ℕ} (h : src + n ≤ dst) :
    slot d (copyUp d src dst n xs) = blit (slot d xs) dst (window (slot d xs) src (src + n)) := by
  induction n generalizing src dst xs with
  | zero => rw [Nat.add_zero, window_self]; rfl
  | succ n ih =>
    have hrest : window (Function.update (slot d xs) dst (slot d xs src)) (src + 1) (src + 1 + n) =
        window (slot d xs) (src + 1) (src + (n + 1)) := by
      rw [show src + 1 + n = src + (n + 1) by omega]
      exact window_congr fun i _ hi => Function.update_of_ne (by omega) _ _
    rw [copyUp, ih _ (by omega), slot_put, hrest, ← blit_cons, ← window_cons _ (by omega)]

/-- Moving up by one place highest first. -/
theorem slot_shiftUp (lo n : ℕ) :
    slot d (shiftUp d lo n xs) = blit (slot d xs) (lo + 1) (window (slot d xs) lo (lo + n)) := by
  induction n generalizing xs with
  | zero => simp [shiftUp]
  | succ n ih =>
    funext i
    have hlow : window (slot d (put d xs (lo + n + 1) (slot d xs (lo + n)))) lo (lo + n) =
        window (slot d xs) lo (lo + n) := by
      rw [slot_put]
      exact window_congr fun i _ hi => Function.update_of_ne (by omega) _ _
    rw [shiftUp, ih, hlow, slot_put, show lo + (n + 1) = lo + n + 1 by omega,
      window_concat _ (Nat.le_add_right lo n), blit_append, length_window, Nat.add_sub_cancel_left,
      show lo + 1 + n = lo + n + 1 by omega, blit_cons, blit_nil]
    rcases eq_or_ne i (lo + n + 1) with rfl | hi
    · rw [Function.update_self, blit_of_le _ (by simp; omega), Function.update_self]
    · rw [Function.update_of_ne hi]
      rcases lt_or_ge i (lo + 1) with h | h
      · rw [blit_of_lt _ _ h, blit_of_lt _ _ h, Function.update_of_ne hi]
      · obtain ⟨j, rfl⟩ := Nat.exists_eq_add_of_le h
        rcases lt_or_ge j n with hj | hj
        · rw [blit_add _ _ (by simpa using hj), blit_add _ _ (by simpa using hj)]
        · rw [blit_of_le _ (by simp; omega), blit_of_le _ (by simp; omega), Function.update_of_ne hi]

end Grow

end Lib
