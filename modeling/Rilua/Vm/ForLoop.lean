import Rilua.Lib.Iterate
import Rilua.Lib.Rounding
import Rilua.Vm.State

/-! The numeric `for` loop (`vm/execute.rs`). Where the initial value, the limit and the step are integers, `FORPREP` and
    `FORLOOP` work on `i64`, and otherwise on floating-point numbers. The registers are floating-point numbers either
    way, so that both round, and they differ where the limit is compared with a sum before or after it is rounded. -/

namespace Rilua.Vm

open Lib Gc Relation

section Model

-- `str_to_number` is given.
variable (strToNumber : List UInt8 → Option F64)

def coerceToNumber (v : Val) (g : Gc) : Option F64 :=
  match v with
  | .num n => some n
  | .str r => (g.heap.get r).bind fun s => strToNumber (LuaString.data s)
  | _ => none

def exactIntegerNumber (n : F64) : Option ℤ :=
  if n.isFinite = false then none
  else
    let int := n.toI64
    let roundTrip := (F64.ofInt int).toBits
    let input := n.toBits
    if roundTrip = input ∨ int = 0 ∧ (input = (F64.zero false).toBits ∨ input = (F64.zero true).toBits) then some int
    else none

def coerceIntegerForLoop (init limit step : Val) (g : Gc) : Option (ℤ × ℤ × ℤ) := do
  let init ← exactIntegerNumber (← coerceToNumber strToNumber init g)
  let limit ← exactIntegerNumber (← coerceToNumber strToNumber limit g)
  let step ← exactIntegerNumber (← coerceToNumber strToNumber step g)
  some (init, limit, step)

/-- The registers of a loop: the index, the limit and the step. -/
structure ForRegs where
  idx : F64
  limit : F64
  step : F64

/-- `FORPREP` where one of the values is not an integer. -/
def floatForPrep (init limit step : Val) (g : Gc) : Except LuaError ForRegs :=
  match coerceToNumber strToNumber init g with
  | none => .error ⟨"'for' initial value must be a number"⟩
  | some init =>
    match coerceToNumber strToNumber limit g with
    | none => .error ⟨"'for' limit must be a number"⟩
    | some limit =>
      match coerceToNumber strToNumber step g with
      | none => .error ⟨"'for' step must be a number"⟩
      | some step => .ok ⟨init.sub step, limit, step⟩

/-- `FORPREP`: nothing where the subtraction panics. -/
def forPrep (checked : Bool) (init limit step : Val) (g : Gc) : Option (Except LuaError ForRegs) :=
  match coerceIntegerForLoop strToNumber init limit step g with
  | some (init, limit, step) =>
    (F64.i64Result checked (init - step)).map fun idx => .ok ⟨.ofInt idx, .ofInt limit, .ofInt step⟩
  | none => some (floatForPrep strToNumber init limit step g)

def integerForLoopState (idx limit step : Val) : Option (ℤ × ℤ × ℤ) :=
  match idx, limit, step with
  | .num idx, .num limit, .num step => do
    some (← exactIntegerNumber idx, ← exactIntegerNumber limit, ← exactIntegerNumber step)
  | _, _, _ => none

def checkedAdd (a b : ℤ) : Option ℤ := if F64.i64Min ≤ a + b ∧ a + b ≤ F64.i64Max then some (a + b) else none

/-- `FORLOOP` where the registers are not integers, or their sum is too large: the next index, if the loop goes on. -/
def floatForLoop (idx limit step : Val) : Except LuaError (Option F64) :=
  match step with
  | .num step =>
    match idx with
    | .num idx =>
      let idx := idx.add step
      match limit with
      | .num limit =>
        let continueLoop := if (F64.zero false).lt step then idx.le limit else limit.le idx
        .ok (if continueLoop then some idx else none)
      | _ => .error ⟨"'for' limit is not a number"⟩
    | _ => .error ⟨"'for' index is not a number"⟩
  | _ => .error ⟨"'for' step is not a number"⟩

/-- `FORLOOP`. -/
def forLoop (idx limit step : Val) : Except LuaError (Option F64) :=
  match integerForLoopState idx limit step with
  | some (idx', limit', step') =>
    match checkedAdd idx' step' with
    | some nextIdx =>
      let continueLoop := if 0 < step' then nextIdx ≤ limit' else limit' ≤ nextIdx
      .ok (if continueLoop then some (.ofInt nextIdx) else none)
    | none => floatForLoop idx limit step
  | none => floatForLoop idx limit step

end Model

/-- The next index of a loop that has been prepared. -/
def ForRegs.next (q : ForRegs) (x : F64) : Option F64 := (forLoop (.num x) (.num q.limit) (.num q.step)).toOption.join

/-- The next index of the loop on floating-point numbers. -/
def ForRegs.floatNext (q : ForRegs) (x : F64) : Option F64 :=
  (floatForLoop (.num x) (.num q.limit) (.num q.step)).toOption.join

/-- The index is within the limit. -/
def WithinLimit (limit step i : ℤ) : Prop := if 0 < step then i ≤ limit else limit ≤ i

instance (limit step i : ℤ) : Decidable (WithinLimit limit step i) :=
  inferInstanceAs (Decidable (if 0 < step then i ≤ limit else limit ≤ i))

variable {strToNumber : List UInt8 → Option F64} {init limit step : Val} {g : Gc} {checked : Bool} {q q' : ForRegs}
  {n x y : F64} {i a l s : ℤ}

/-! ### Integers among the numbers -/

theorem representable_of_le {m : ℕ} (h : m ≤ 2 ^ 53) : Representable m := by
  rcases Nat.lt_or_eq_of_le h with hlt | rfl
  · exact representable_of_lt hlt
  · exact representable_two_pow 53

/-- No number lies between `2^63 - 1024` and `2^63`. -/
theorem le_of_representable (hrep : Representable i.natAbs) (hmax : i < 2 ^ 63) : i ≤ 2 ^ 63 - 1024 := by
  by_contra hgt
  have hlog : i.natAbs.log2 = 62 := by
    refine le_antisymm (Nat.le_of_lt_succ ((Nat.log2_lt (by omega)).mpr (by omega))) ?_
    exact (Nat.le_log2 (by omega)).mpr (by omega)
  rw [Representable, hlog] at hrep
  omega

theorem toBits_inj {x y : F64} (h : x.toBits = y.toBits) : x = y := by
  rw [← F64.ofBits_toBits x, h, F64.ofBits_toBits]

theorem roundInt_i64Max : roundInt F64.i64Max = 2 ^ 63 := by decide

/-- What passes for the greatest `i64` is `2^63`. -/
theorem isInt_i64Max : (F64.ofInt F64.i64Max).IsInt (2 ^ 63) := by
  rw [← roundInt_i64Max]
  exact F64.isInt_ofInt (by decide)

theorem exactInteger_i64Max : exactIntegerNumber (F64.ofInt F64.i64Max) = some F64.i64Max := by decide +kernel

/-- An exact integer is one, unless it is `2^63`. -/
theorem exactInteger_cases (h : exactIntegerNumber n = some i) : F64.i64Min ≤ i ∧ i ≤ F64.i64Max ∧
    (n.IsInt i ∨ i = F64.i64Max ∧ n = F64.ofInt F64.i64Max) := by
  rw [exactIntegerNumber] at h
  split at h
  · cases h
  next hfin =>
  rw [Bool.not_eq_false] at hfin
  dsimp only at h
  split at h
  · next hbits =>
    rw [Option.some.injEq] at h
    have hrange : F64.i64Min ≤ i ∧ i ≤ F64.i64Max := by
      rw [← h]
      cases n with
      | nan => cases hfin
      | infinite => cases hfin
      | finite sg m =>
        rw [F64.toI64, F64.i64Min, F64.i64Max]
        omega
    refine ⟨hrange.1, hrange.2, ?_⟩
    rcases hbits with hbits | ⟨hzero, hbits⟩
    · have hn := toBits_inj hbits
      rw [h] at hn
      have habs : i.natAbs ≤ 2 ^ 64 := by
        rw [F64.i64Min, F64.i64Max] at hrange
        omega
      have hint := F64.isInt_ofInt habs
      rw [hn] at hint
      have hclamp := hint.toI64
      rw [h] at hclamp
      rcases eq_or_ne i F64.i64Max with hmax | hmax
      · exact .inr ⟨hmax, by rw [← hn, hmax]⟩
      · refine .inl ?_
        have heq : i = roundInt i := by
          have hmin := le_roundInt (z := i) (l := F64.i64Min) (by decide) hrange.1
          omega
        rw [heq]
        exact hint
    · rw [h] at hzero
      rw [hzero]
      rcases hbits with hbits | hbits
      · rw [toBits_inj hbits]
        exact .inl (F64.isInt_zero false)
      · rw [toBits_inj hbits]
        exact .inl (F64.isInt_zero true)
  · cases h

/-- An integer that is an `i64` is an exact one. -/
theorem exactInteger_of_isInt (h : n.IsInt i) (hmin : F64.i64Min ≤ i) (hmax : i ≤ F64.i64Max) :
    exactIntegerNumber n = some i := by
  have hint : n.toI64 = i := by
    rw [h.toI64]
    omega
  have habs : i.natAbs ≤ 2 ^ 64 := by
    rw [F64.i64Min] at hmin
    rw [F64.i64Max] at hmax
    omega
  rw [exactIntegerNumber, if_neg (by rw [h.1]; simp)]
  dsimp only
  rw [hint, if_pos ?_]
  rcases eq_or_ne i 0 with rfl | hi
  · refine .inr ⟨rfl, ?_⟩
    cases n with
    | nan => cases h.1
    | infinite => cases h.1
    | finite sg m =>
      have hm : m.1 = 0 := by
        have hscaled := h.2
        cases sg
        · change (m.1 : ℤ) = _ at hscaled
          omega
        · change -(m.1 : ℤ) = _ at hscaled
          omega
      have hzero : F64.finite sg m = F64.zero sg := congrArg (F64.finite sg) (Subtype.ext hm)
      rw [hzero]
      cases sg
      · exact .inl rfl
      · exact .inr rfl
  · exact .inl (congrArg F64.toBits ((F64.isInt_ofInt_of_representable habs h.representable).eq h hi))

/-! ### One step -/

/-- The limit as a number: what passes for the greatest `i64` is `2^63`. -/
def limitValue (l : ℤ) : ℤ := if l = F64.i64Max then 2 ^ 63 else l

/-- `q` are the registers of an integer loop, and `q'` those of the same loop on floating-point numbers. -/
structure Prepared (l s : ℤ) (q q' : ForRegs) : Prop where
  limit : q.limit = .ofInt l
  step : q.step = .ofInt s
  limit_min : F64.i64Min ≤ l
  limit_max : l ≤ F64.i64Max
  isLimit : q'.limit.IsInt (limitValue l)
  step_ne : s ≠ 0
  step_min : F64.i64Min ≤ s
  step_max : s ≤ F64.i64Max
  isStep : q'.step.IsInt s

theorem withinLimit_pos (hs : 0 < s) : WithinLimit l s i ↔ i ≤ l := iff_of_eq (if_pos hs)

theorem withinLimit_neg (hs : s < 0) : WithinLimit l s i ↔ l ≤ i := iff_of_eq (if_neg (by omega))

/-- A step of the loop on floating-point numbers, where the registers are integers. -/
theorem floatNext_eq {L : ℤ} (hlimit : q.limit.IsInt L) (hstep : q.step.IsInt s) (hs : s ≠ 0) (hx : x.IsInt i)
    (hle : (i + s).natAbs ≤ 2 ^ 64) : q.floatNext x =
      if WithinLimit L s (roundInt (i + s)) then some (.ofInt (i + s)) else none := by
  have hsum := F64.isInt_ofInt hle
  have hpos : (F64.zero false).lt q.step = true ↔ 0 < s := (F64.isInt_zero false).lt_iff hstep
  have hcontinue : (if (F64.zero false).lt q.step = true then (F64.ofInt (i + s)).le q.limit
      else q.limit.le (F64.ofInt (i + s))) = true ↔ WithinLimit L s (roundInt (i + s)) := by
    rcases Int.lt_or_gt_of_ne hs with h | h
    · rw [if_neg (fun hp => absurd (hpos.mp hp) (by omega)), hlimit.le_iff hsum, withinLimit_neg h]
    · rw [if_pos (hpos.mpr h), hsum.le_iff hlimit, withinLimit_pos h]
  rw [ForRegs.floatNext, floatForLoop, hx.add hstep hs]
  change (if _ then some (F64.ofInt (i + s)) else none) = _
  simp only [hcontinue]

namespace Prepared

variable (h : Prepared l s q q')

include h

theorem isInt_limit : q.limit.IsInt (limitValue l) := by
  have hlim := h.isLimit
  rw [h.limit]
  rw [limitValue] at hlim ⊢
  split
  · next hl =>
    rw [hl]
    exact isInt_i64Max
  · next hl =>
    rw [if_neg hl] at hlim
    have hmin := h.limit_min
    have hmax := h.limit_max
    rw [F64.i64Min] at hmin
    rw [F64.i64Max] at hmax
    exact F64.isInt_ofInt_of_representable (by omega) hlim.representable

theorem isInt_step : q.step.IsInt s := by
  have hmin := h.step_min
  have hmax := h.step_max
  rw [F64.i64Min] at hmin
  rw [F64.i64Max] at hmax
  rw [h.step]
  exact F64.isInt_ofInt_of_representable (by omega) h.isStep.representable

theorem le_limitValue : l ≤ limitValue l ∧ (l ≠ F64.i64Max → limitValue l = l) := by
  have hmax := h.limit_max
  rw [F64.i64Max] at hmax
  rw [limitValue]
  split
  · next hl => exact ⟨by omega, fun hne => absurd hl hne⟩
  · exact ⟨le_rfl, fun _ => rfl⟩

theorem exactInteger_limit : exactIntegerNumber q.limit = some l := by
  rcases eq_or_ne l F64.i64Max with hl | hl
  · rw [h.limit, hl]
    exact exactInteger_i64Max
  · have hint := h.isInt_limit
    rw [h.le_limitValue.2 hl] at hint
    exact exactInteger_of_isInt hint h.limit_min h.limit_max

theorem next_eq (hx : exactIntegerNumber x = some i) : q.next x =
    if F64.i64Min ≤ i + s ∧ i + s ≤ F64.i64Max then
      if WithinLimit l s (i + s) then some (.ofInt (i + s)) else none
    else q.floatNext x := by
  have hstate : integerForLoopState (.num x) (.num q.limit) (.num q.step) = some (i, l, s) := by
    rw [integerForLoopState, hx, h.exactInteger_limit, exactInteger_of_isInt h.isInt_step h.step_min h.step_max]
    rfl
  rw [ForRegs.next, forLoop, hstate]
  simp only [checkedAdd]
  split
  · next n hn =>
    split at hn
    · next hrange =>
      cases hn
      rw [if_pos hrange]
      rfl
    · cases hn
  · next hn =>
    split at hn
    · cases hn
    · next hrange =>
      rw [if_neg hrange]
      rfl

theorem natAbs_limitValue : (limitValue l).natAbs ≤ 2 ^ 64 ∧ Representable (limitValue l).natAbs := by
  have hmin := h.limit_min
  have hmax := h.limit_max
  rw [F64.i64Min] at hmin
  rw [F64.i64Max] at hmax
  refine ⟨?_, h.isLimit.representable⟩
  rw [limitValue]
  split <;> omega

end Prepared

/-- What is known of an index: it is an `i64`, or `2^63` in a loop that counts up to the greatest `i64`. -/
def Index (l s : ℤ) (x : F64) : Prop :=
  (∃ i, x.IsInt i ∧ F64.i64Min ≤ i ∧ i ≤ F64.i64Max) ∨ x = .ofInt F64.i64Max ∧ 0 < s ∧ l = F64.i64Max

/-- The loop stops at a sum that lies beyond the limit, where the loop on floating-point numbers goes on because the
    sum is rounded to the limit. -/
def StopsBeyond (l s : ℤ) (q q' : ForRegs) (x : F64) : Prop :=
  q.next x = none ∧ ∃ i, x.IsInt i ∧ ¬ WithinLimit l s (i + s) ∧ ∃ y, q'.floatNext x = some y ∧ y.beq q'.limit = true

/-- An index is an integer. -/
theorem Index.isInt (hx : Index l s x) : ∃ i, x.IsInt i ∧ F64.i64Min ≤ i ∧ (i ≤ F64.i64Max ∨ 0 < s ∧ i = 2 ^ 63) := by
  rcases hx with ⟨i, hi, hmin, hmax⟩ | ⟨rfl, hs, -⟩
  · exact ⟨i, hi, hmin, .inl hmax⟩
  · exact ⟨2 ^ 63, isInt_i64Max, by decide, .inr ⟨hs, rfl⟩⟩

namespace Prepared

variable (h : Prepared l s q q')

include h

/-- Rounding does not take a sum beyond the limit. -/
theorem within_round (hw : WithinLimit l s i) : WithinLimit (limitValue l) s (roundInt i) := by
  have hle := h.le_limitValue
  rcases Int.lt_or_gt_of_ne h.step_ne with hs | hs
  · rw [withinLimit_neg hs] at hw ⊢
    rcases eq_or_ne l F64.i64Max with hl | hl
    · rw [limitValue, if_pos hl]
      rw [hl] at hw
      rcases eq_or_lt_of_le hw with rfl | hlt
      · exact roundInt_i64Max.ge
      · rw [F64.i64Max] at hlt
        exact le_roundInt (by decide) (by omega)
    · exact le_roundInt h.natAbs_limitValue.2 (by rw [hle.2 hl]; exact hw)
  · rw [withinLimit_pos hs] at hw ⊢
    exact roundInt_le h.natAbs_limitValue.2 (hw.trans hle.1)

/-- A sum beyond the limit that is rounded to a value within it is rounded to the limit. -/
theorem round_eq_limit (hmax : i ≤ F64.i64Max) (hw : ¬ WithinLimit l s i)
    (hround : WithinLimit (limitValue l) s (roundInt i)) : roundInt i = limitValue l := by
  have hle := h.le_limitValue
  have hrep := h.natAbs_limitValue.2
  rcases Int.lt_or_gt_of_ne h.step_ne with hs | hs
  · rw [withinLimit_neg hs] at hw hround
    exact le_antisymm (roundInt_le hrep (by omega)) hround
  · rw [withinLimit_pos hs] at hw hround
    rw [hle.2 (by omega)] at hrep hround ⊢
    exact le_antisymm hround (le_roundInt hrep (by omega))

/-- The sum of an index and the step is not beyond `2^64`. -/
theorem sum_le (hmin : F64.i64Min ≤ i) (hmax : i ≤ 2 ^ 63) : (i + s).natAbs ≤ 2 ^ 64 := by
  have hsmin := h.step_min
  have hsmax := h.step_max
  rw [F64.i64Min] at hmin hsmin
  rw [F64.i64Max] at hsmax
  omega

theorem index_sum (hx : x.IsInt i) (hmin : F64.i64Min ≤ i) (hmax : i ≤ F64.i64Max ∨ 0 < s ∧ i = 2 ^ 63)
    (hw : WithinLimit (limitValue l) s (roundInt (i + s))) : Index l s (.ofInt (i + s)) := by
  have hle : i ≤ 2 ^ 63 := by
    rw [F64.i64Max] at hmax
    omega
  have hsum := F64.isInt_ofInt (h.sum_le hmin hle)
  have hl := h.limit_max
  rcases Int.lt_or_gt_of_ne h.step_ne with hs | hs
  · rw [withinLimit_neg hs] at hw
    have hround : roundInt (i + s) ≤ i := roundInt_le hx.representable (by omega)
    exact .inl ⟨_, hsum, (h.limit_min.trans h.le_limitValue.1).trans hw, by omega⟩
  · rw [withinLimit_pos hs] at hw
    have hround : i ≤ roundInt (i + s) := le_roundInt hx.representable (by omega)
    rcases le_or_gt (roundInt (i + s)) F64.i64Max with hle' | hgt
    · exact .inl ⟨_, hsum, hmin.trans hround, hle'⟩
    · -- only the greatest limit has such a sum within it
      have hlimit : l = F64.i64Max := by
        by_contra hne
        rw [h.le_limitValue.2 hne] at hw
        omega
      rw [limitValue, if_pos hlimit] at hw
      rw [F64.i64Max] at hgt
      have heq : roundInt (i + s) = 2 ^ 63 := by omega
      rw [heq] at hsum
      exact .inr ⟨hsum.eq isInt_i64Max (by decide), hs, hlimit⟩

/-- At an index `FORLOOP` computes on floating-point numbers, or compares the exact sum with the limit. -/
theorem next_cases (hx : Index l s x) : q.next x = q.floatNext x ∨ ∃ i, x.IsInt i ∧ F64.i64Min ≤ i ∧ i ≤ F64.i64Max ∧
    i + s ≤ F64.i64Max ∧ q.next x = if WithinLimit l s (i + s) then some (.ofInt (i + s)) else none := by
  rcases hx with ⟨i, hi, hmin, hmax⟩ | ⟨rfl, hs, -⟩
  · have hnext := h.next_eq (exactInteger_of_isInt hi hmin hmax)
    split at hnext
    · next hrange => exact .inr ⟨i, hi, hmin, hmax, hrange.2, hnext⟩
    · exact .inl hnext
  · have hnext := h.next_eq exactInteger_i64Max
    rw [if_neg (by omega)] at hnext
    exact .inl hnext

/-- What a step can do: both loops go on with the rounded sum, both stop, or the loop stops before the one on
    floating-point numbers. -/
theorem step_cases (hx : Index l s x) :
    (∃ i, x.IsInt i ∧ WithinLimit (limitValue l) s (roundInt (i + s)) ∧ (i + s).natAbs ≤ 2 ^ 64 ∧
      q.next x = some (.ofInt (i + s)) ∧ q'.floatNext x = some (.ofInt (i + s)) ∧ Index l s (.ofInt (i + s))) ∨
    q.next x = none ∧ q'.floatNext x = none ∨ StopsBeyond l s q q' x := by
  obtain ⟨i, hi, hmin, hmax⟩ := hx.isInt
  have hle : (i + s).natAbs ≤ 2 ^ 64 := by
    refine h.sum_le hmin ?_
    rw [F64.i64Max] at hmax
    omega
  have hfloat := floatNext_eq h.isLimit h.isStep h.step_ne hi hle
  have hfloat' := floatNext_eq h.isInt_limit h.isInt_step h.step_ne hi hle
  by_cases hround : WithinLimit (limitValue l) s (roundInt (i + s))
  · rw [if_pos hround] at hfloat hfloat'
    have hindex := h.index_sum hi hmin hmax hround
    rcases h.next_cases hx with hnext | ⟨j, hj, -, -, hsum, hnext⟩
    · exact .inl ⟨i, hi, hround, hle, hnext.trans hfloat', hfloat, hindex⟩
    · obtain rfl := hi.unique hj
      by_cases hw : WithinLimit l s (i + s)
      · rw [if_pos hw] at hnext
        exact .inl ⟨i, hi, hround, hle, hnext, hfloat, hindex⟩
      · rw [if_neg hw] at hnext
        have hlimit := F64.isInt_ofInt hle
        rw [h.round_eq_limit hsum hw hround] at hlimit
        exact .inr (.inr ⟨hnext, i, hi, hw, _, hfloat, hlimit.beq h.isLimit⟩)
  · rw [if_neg hround] at hfloat hfloat'
    refine .inr (.inl ⟨?_, hfloat⟩)
    rcases h.next_cases hx with hnext | ⟨j, hj, -, -, -, hnext⟩
    · exact hnext.trans hfloat'
    · obtain rfl := hi.unique hj
      rw [hnext, if_neg fun hw => hround (h.within_round hw)]

/-- What the loop comes to from an index is an index. -/
theorem reached_index (hx : Index l s x) (hreach : Reached q.next x y) : Index l s y := by
  refine Reached.invariant hx (fun a b ha hab => ?_) hreach
  rcases h.step_cases ha with ⟨i, -, -, -, hnext, -, hb⟩ | ⟨hnext, -⟩ | ⟨hnext, -⟩
  · obtain rfl := Option.some.inj (hnext.symm.trans hab)
    exact hb
  · exact nomatch hnext.symm.trans hab
  · exact nomatch hnext.symm.trans hab

/-- A step that moves takes the index closer to the limit. -/
theorem closer (hx : x.IsInt i) (hle : (i + s).natAbs ≤ 2 ^ 64)
    (hw : WithinLimit (limitValue l) s (roundInt (i + s))) (hmove : (F64.ofInt (i + s)).beq x = false) :
    (q.limit.scaled - (F64.ofInt (i + s)).scaled).natAbs < (q.limit.scaled - x.scaled).natAbs := by
  have hsum := F64.isInt_ofInt hle
  have hne : roundInt (i + s) ≠ i := fun heq => absurd ((hsum.beq_iff hx).mpr heq) (by rw [hmove]; simp)
  rw [h.isInt_limit.natAbs_sub hsum, h.isInt_limit.natAbs_sub hx]
  refine Nat.mul_lt_mul_of_pos_right ?_ magOne_pos
  rcases Int.lt_or_gt_of_ne h.step_ne with hs | hs
  · rw [withinLimit_neg hs] at hw
    have hround : roundInt (i + s) ≤ i := roundInt_le hx.representable (by omega)
    omega
  · rw [withinLimit_pos hs] at hw
    have hround : i ≤ roundInt (i + s) := le_roundInt hx.representable (by omega)
    omega

/-- The loop ends exactly if it comes to no index at which it stays. -/
theorem terminates_iff (hx : Index l s x) : (∃ vs, Visits q.next x vs) ↔
    ∀ y z, Reached q.next x y → q.next y = some z → z.beq y = false := by
  constructor
  · rintro ⟨vs, hvs⟩ y z hy hz
    rw [Bool.eq_false_iff]
    intro hbeq
    rcases h.step_cases (h.reached_index hx hy) with ⟨i, hi, -, hle, hnext, -⟩ | ⟨hnext, -⟩ | ⟨hnext, -⟩
    · obtain rfl := Option.some.inj (hnext.symm.trans hz)
      have hsum := F64.isInt_ofInt hle
      have heq := (hsum.beq_iff hi).mp hbeq
      have hne : i ≠ 0 := by
        rintro rfl
        have hmin := h.isStep.representable
        rw [Int.zero_add, roundInt_eq_self hmin] at heq
        exact h.step_ne heq
      rw [heq] at hsum
      rw [hsum.eq hi hne] at hnext
      exact hvs.not_fixed hnext hy
    · exact nomatch hnext.symm.trans hz
    · exact nomatch hnext.symm.trans hz
  · intro hmove
    refine visits_of_measure (fun y => (q.limit.scaled - y.scaled).natAbs) _ x le_rfl fun a b ha hab => ?_
    rcases h.step_cases (h.reached_index hx ha) with ⟨i, hi, hw, hle, hnext, -⟩ | ⟨hnext, -⟩ | ⟨hnext, -⟩
    · obtain rfl := Option.some.inj (hnext.symm.trans hab)
      exact h.closer hi hle hw (hmove a _ ha hab)
    · exact nomatch hnext.symm.trans hab
    · exact nomatch hnext.symm.trans hab

/-! ### Small numbers -/

/-- Up to `2^53` nothing is rounded, and both loops compare the exact sum. -/
theorem small_step (hx : x.IsInt i) (hi : i.natAbs ≤ 2 ^ 53) (hsum : (i + s).natAbs ≤ 2 ^ 53) (hl : l.natAbs ≤ 2 ^ 53) :
    q.next x = (if WithinLimit l s (i + s) then some (.ofInt (i + s)) else none) ∧
    q'.floatNext x = (if WithinLimit l s (i + s) then some (.ofInt (i + s)) else none) := by
  have hlimit : limitValue l = l := by
    refine h.le_limitValue.2 ?_
    rw [F64.i64Max]
    omega
  have hmin : F64.i64Min ≤ i ∧ F64.i64Min ≤ i + s := by
    rw [F64.i64Min]
    omega
  have hmax : i ≤ F64.i64Max ∧ i + s ≤ F64.i64Max := by
    rw [F64.i64Max]
    omega
  have hfloat := floatNext_eq h.isLimit h.isStep h.step_ne hx (by omega)
  rw [hlimit, roundInt_eq_self (representable_of_le hsum)] at hfloat
  have hnext := h.next_eq (exactInteger_of_isInt hx hmin.1 hmax.1)
  rw [if_pos ⟨hmin.2, hmax.2⟩] at hnext
  exact ⟨hnext, hfloat⟩

/-- Both loops visit the values of the exact arithmetic progression. -/
theorem visits_range {n : ℕ} (hn : ∀ k : ℕ, k < n ↔ WithinLimit l s (a + k * s))
    (hsmall : ∀ k : ℕ, k ≤ n → (a + k * s).natAbs ≤ 2 ^ 53) (hl : l.natAbs ≤ 2 ^ 53) :
    ∀ (m k : ℕ) (x : F64), k + m = n → x.IsInt (a + k * s - s) → (a + k * s - s).natAbs ≤ 2 ^ 53 →
    Visits q.next x ((List.range' k m).map fun k => .ofInt (a + k * s)) ∧
    Visits q'.floatNext x ((List.range' k m).map fun k => .ofInt (a + k * s)) := by
  intro m
  induction m with
  | zero =>
    intro k x hk hx hle
    have hsum := hsmall k (by omega)
    have hstep := h.small_step hx hle (by rwa [Int.sub_add_cancel]) hl
    rw [Int.sub_add_cancel, if_neg fun hw => absurd ((hn k).mpr hw) (by omega)] at hstep
    exact hstep
  | succ m ih =>
    intro k x hk hx hle
    have hsum := hsmall k (by omega)
    have hstep := h.small_step hx hle (by rwa [Int.sub_add_cancel]) hl
    rw [Int.sub_add_cancel, if_pos ((hn k).mp (by omega))] at hstep
    have hlast : a + (k + 1 : ℕ) * s - s = a + k * s := by push_cast; ring
    have hint : (F64.ofInt (a + k * s)).IsInt (a + k * s) :=
      F64.isInt_ofInt_of_representable (by omega) (representable_of_le hsum)
    have hrest := ih (k + 1) (.ofInt (a + k * s)) (by omega) (by rwa [hlast]) (by rwa [hlast])
    exact ⟨⟨hstep.1, hrest.1⟩, hstep.2, hrest.2⟩

end Prepared

/-- The values within the limit are the first ones of the progression. -/
theorem exists_count (a l : ℤ) (hs : s ≠ 0) : ∃ n : ℕ, ∀ k : ℕ, k < n ↔ WithinLimit l s (a + k * s) := by
  have hanti : Antitone fun k : ℕ => WithinLimit l s (a + k * s) := by
    refine antitone_nat_of_succ_le fun k hw => ?_
    change WithinLimit l s (a + (k + 1 : ℕ) * s) at hw
    rw [show ((k + 1 : ℕ) : ℤ) * s = k * s + s by push_cast; ring] at hw
    rcases Int.lt_or_gt_of_ne hs with h | h
    · rw [withinLimit_neg h] at hw ⊢
      omega
    · rw [withinLimit_pos h] at hw ⊢
      omega
  have hend : ∃ k : ℕ, ¬ WithinLimit l s (a + k * s) := by
    refine ⟨(l - a).natAbs + 1, ?_⟩
    rcases Int.lt_or_gt_of_ne hs with h | h
    · rw [withinLimit_neg h]
      have hmul : (((l - a).natAbs + 1 : ℕ) : ℤ) * s ≤ ((l - a).natAbs + 1 : ℕ) * (-1) :=
        Int.mul_le_mul_of_nonneg_left (by omega) (by omega)
      omega
    · rw [withinLimit_pos h]
      have hmul : (((l - a).natAbs + 1 : ℕ) : ℤ) * 1 ≤ ((l - a).natAbs + 1 : ℕ) * s :=
        Int.mul_le_mul_of_nonneg_left (by omega) (by omega)
      omega
  refine ⟨Nat.find hend, fun k => ⟨fun hk => not_not.mp (Nat.find_min hend hk), fun hk => ?_⟩⟩
  by_contra hge
  exact Nat.find_spec hend (hanti (Nat.le_of_not_lt hge) hk)

/-- Up to the first value beyond the limit the progression is small. -/
theorem natAbs_progression {n : ℕ} (hs : s ≠ 0) (hn : ∀ k : ℕ, k < n ↔ WithinLimit l s (a + k * s))
    (ha : a.natAbs ≤ 2 ^ 53) (hl : (l + s).natAbs ≤ 2 ^ 53) : ∀ k : ℕ, k ≤ n → (a + k * s).natAbs ≤ 2 ^ 53
  | 0, _ => by simpa using ha
  | k + 1, hk => by
    have hw := (hn k).mp (by omega)
    have hmul : ((k + 1 : ℕ) : ℤ) * s = k * s + s := by push_cast; ring
    rcases Int.lt_or_gt_of_ne hs with h | h
    · rw [withinLimit_neg h] at hw
      have hnonpos : (k : ℤ) * s ≤ 0 := Int.mul_nonpos_of_nonneg_of_nonpos (by omega) (by omega)
      omega
    · rw [withinLimit_pos h] at hw
      have hnonneg : 0 ≤ (k : ℤ) * s := Int.mul_nonneg (by omega) (by omega)
      omega

/-! ### The loop -/

theorem isInt_limitValue (hl : exactIntegerNumber n = some l) : n.IsInt (limitValue l) := by
  obtain ⟨-, hmax, hint | ⟨rfl, rfl⟩⟩ := exactInteger_cases hl
  · have hne : l ≠ F64.i64Max := by
      have hle := le_of_representable hint.representable
      rw [F64.i64Max] at hmax ⊢
      omega
    rwa [limitValue, if_neg hne]
  · exact isInt_i64Max

/-- `FORPREP` where it takes the integer path. -/
theorem forPrep_prepared (hint : coerceIntegerForLoop strToNumber init limit step g = some (a, l, s)) (hs : s ≠ 0)
    (ha : a ≠ F64.i64Max) (hs' : s ≠ F64.i64Max) (hmin : F64.i64Min ≤ a - s) (hmax : a - s ≤ 2 ^ 63 - 1024) :
    ∃ q q', (∀ checked, forPrep strToNumber checked init limit step g = some (.ok q)) ∧
      floatForPrep strToNumber init limit step g = .ok q' ∧
      q.idx = .ofInt (a - s) ∧ q'.idx = .ofInt (a - s) ∧ Prepared l s q q' := by
  have hints := hint
  rw [coerceIntegerForLoop] at hint
  simp only [Option.bind_eq_bind, Option.bind_eq_some_iff] at hint
  obtain ⟨na, hca, a', hna, nl, hcl, l', hnl, ns, hcs, s', hns, heq⟩ := hint
  cases heq
  have hia := (exactInteger_cases hna).2.2.resolve_right fun hmax => ha hmax.1
  have his := (exactInteger_cases hns).2.2.resolve_right fun hmax => hs' hmax.1
  obtain ⟨hlmin, hlmax, -⟩ := exactInteger_cases hnl
  obtain ⟨hsmin, hsmax, -⟩ := exactInteger_cases hns
  refine ⟨⟨.ofInt (a - s), .ofInt l, .ofInt s⟩, ⟨na.sub ns, nl, ns⟩, fun checked => ?_, ?_, rfl, hia.sub his hs,
    ⟨rfl, rfl, hlmin, hlmax, isInt_limitValue hnl, hs, hsmin, hsmax, his⟩⟩
  · rw [forPrep, hints]
    dsimp only
    rw [F64.i64Result_eq hmin (by rw [F64.i64Max]; omega)]
    rfl
  · rw [floatForPrep, hca]
    dsimp only
    rw [hcl]
    dsimp only
    rw [hcs]

/-- The index before the first step. -/
theorem index_ofInt (hmin : F64.i64Min ≤ i) (hmax : i ≤ 2 ^ 63 - 1024) : Index l s (.ofInt i) := by
  have hle : i.natAbs ≤ 2 ^ 64 := by
    rw [F64.i64Min] at hmin
    omega
  have hround : roundInt i ≤ 2 ^ 63 - 1024 := roundInt_le (by decide) hmax
  refine .inl ⟨_, F64.isInt_ofInt hle, le_roundInt (by decide) hmin, ?_⟩
  rw [F64.i64Max]
  omega

def loopNumber (i : ℤ) : Val := .num (.ofInt i)

end Rilua.Vm
