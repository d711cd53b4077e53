import Rilua.Lib.Lockstep
import Rilua.Vm.LuaVal
import Mathlib.Data.List.Range

/-! Concatenation (`vm/execute/runtime_ops.rs`). The operands of `CONCAT` are collected from the right, a maximal run of
    strings and numbers at a time, and the length of a run is computed before its bytes are appended. The outcome is
    that of concatenating in pairs from the right. -/

namespace Rilua.Vm

open Lib

/-- A call of a metamethod. -/
structure ConcatCall where
  tm : LuaVal
  lhs : LuaVal
  rhs : LuaVal
  deriving DecidableEq

/-- The world outside the operands, and the metamethods that have been called. -/
structure ConcatState (W : Type) where
  world : W
  calls : List ConcatCall

/-- An attempt to concatenate the value in a register, a string that would be too long, or an error that a metamethod
    has raised. -/
inductive ConcatError (E : Type) where
  | concatenate (reg : ℕ) (val : LuaVal)
  | overflow
  | raised (e : E)

/-- What concatenation asks the rest of the machine. -/
structure ConcatHost (W E : Type) where
  display : F64 → List UInt8
  /-- `get_tm_for_val` with the event `__concat`. -/
  metamethod : W → LuaVal → Option LuaVal
  /-- Calls a function with two arguments for one result. -/
  call : LuaVal → LuaVal → LuaVal → EStateM E W LuaVal

variable {W E : Type}

abbrev ConcatM (W E : Type) : Type → Type := EStateM (ConcatError E) (ConcatState W)

/-- `MAX_STRING_SIZE`. -/
def maxStringSize : ℕ := 2 ^ 32 - 1 - 2

def isStringOrNumber : LuaVal → Bool
  | .num _ => true
  | .str _ => true
  | _ => false

def valStringLen (display : F64 → List UInt8) : LuaVal → ℕ
  | .str s => s.length
  | .num n => luaNumberStringLen display n
  | _ => 0

/-- `val_to_string_bytes`: appends the bytes of a value. -/
def valToStringBytes (display : F64 → List UInt8) (val : LuaVal) (buffer : List UInt8) : List UInt8 :=
  match val with
  | .str s => buffer ++ s
  | .num n => appendLuaNumberBytes display buffer n
  | _ => buffer

def needsConcatMetamethod (lhs rhs : LuaVal) : Bool := !isStringOrNumber lhs || !isStringOrNumber rhs

def callTmRes (host : ConcatHost W E) (tm lhs rhs : LuaVal) : ConcatM W E LuaVal := fun s =>
  let calls := s.calls ++ [⟨tm, lhs, rhs⟩]
  match host.call tm lhs rhs s.world with
  | .ok val world => .ok val ⟨world, calls⟩
  | .error e world => .error (.raised e) ⟨world, calls⟩

/-- Concatenates the values in the registers `last - 1` and `last` with a metamethod. -/
def concatViaMetamethod (host : ConcatHost W E) (lhs rhs : LuaVal) (last : ℕ) : ConcatM W E LuaVal := do
  match ← observe fun s => (host.metamethod s.world lhs).or (host.metamethod s.world rhs) with
  | some tm => callTmRes host tm lhs rhs
  | none =>
    if isStringOrNumber lhs then throw (.concatenate last rhs) else throw (.concatenate (last - 1) lhs)

/-- Goes on to count the strings and numbers that end below `top`, at most `total`. -/
def countConcatRun (regs : ℕ → LuaVal) (top total runLen : ℕ) : ℕ :=
  if runLen < total ∧ isStringOrNumber (regs (top - runLen - 1)) = true then countConcatRun regs top total (runLen + 1)
  else runLen
termination_by total - runLen

/-- The total length of a run, if it is not too large. -/
def concatRunLength (display : F64 → List UInt8) : List LuaVal → ℕ → Option ℕ
  | [], totalLen => some totalLen
  | val :: vals, totalLen =>
    let valueLen := valStringLen display val
    if maxStringSize - totalLen ≤ valueLen then none else concatRunLength display vals (totalLen + valueLen)

/-- The operands of a run. -/
def runOperands (regs : ℕ → LuaVal) (top runLen : ℕ) : List LuaVal := (List.range' (top - runLen) runLen).map regs

/-- Concatenates the `runLen` values below `top` into the first of their registers. -/
def concatStringRun (host : ConcatHost W E) (regs : ℕ → LuaVal) (top runLen : ℕ) : ConcatM W E (ℕ → LuaVal) :=
  match concatRunLength host.display (runOperands regs top runLen) 0 with
  | none => throw .overflow
  | some _ =>
    let buffer := (runOperands regs top runLen).foldl (fun buffer val => valToStringBytes host.display val buffer) []
    pure (Function.update regs (top - runLen) (.str buffer))

theorem le_countConcatRun (regs : ℕ → LuaVal) (top total runLen : ℕ) : runLen ≤ countConcatRun regs top total runLen := by
  fun_induction countConcatRun regs top total runLen with
  | case1 runLen h ih => exact Nat.le_of_succ_le ih
  | case2 runLen h => exact Nat.le_refl _

/-- Concatenates the last `total` operands, up to the register `last`. -/
def concatLoop (host : ConcatHost W E) (total last : ℕ) (regs : ℕ → LuaVal) : ConcatM W E (ℕ → LuaVal) :=
  if _h : 1 < total then
    let top := last + 1
    let lhs := regs (top - 2)
    let rhs := regs (top - 1)
    if needsConcatMetamethod lhs rhs then do
      let val ← concatViaMetamethod host lhs rhs last
      concatLoop host (total - 1) (last - 1) (Function.update regs (top - 2) val)
    else do
      let runLen := countConcatRun regs top total 2
      let regs' ← concatStringRun host regs top runLen
      concatLoop host (total - (runLen - 1)) (last - (runLen - 1)) regs'
  else pure regs
termination_by total
decreasing_by
  · omega
  · have hrun := le_countConcatRun regs (last + 1) total 2
    omega

/-- Concatenates the registers `b` through `c` into `b`. -/
def vmConcat (host : ConcatHost W E) (regs : ℕ → LuaVal) (b c : ℕ) : ConcatM W E (ℕ → LuaVal) :=
  concatLoop host (c - b + 1) c regs

/-! ### Concatenation in pairs -/

/-- The bytes of a string or a number. -/
def bytesOf (display : F64 → List UInt8) (val : LuaVal) : List UInt8 := valToStringBytes display val []

/-- Concatenates two values, the first of which is in the register `reg`. -/
def concatPair (host : ConcatHost W E) (reg : ℕ) (lhs rhs : LuaVal) : ConcatM W E LuaVal :=
  if isStringOrNumber lhs ∧ isStringOrNumber rhs then
    let text := bytesOf host.display lhs ++ bytesOf host.display rhs
    if maxStringSize ≤ text.length then throw .overflow else pure (.str text)
  else concatViaMetamethod host lhs rhs (reg + 1)

/-- Concatenates values in the registers from `reg` on, associating to the right. -/
def concatPairwise (host : ConcatHost W E) : ℕ → List LuaVal → ConcatM W E LuaVal
  | _, [] => pure .nil
  | _, [val] => pure val
  | reg, val :: val' :: vals => do
    let rest ← concatPairwise host (reg + 1) (val' :: vals)
    concatPair host reg val rest

variable {host : ConcatHost W E} {regs : ℕ → LuaVal} {reg : ℕ} {vals run : List LuaVal}

/-! ### Lengths -/

/-- The length that is computed for a value is that of the bytes that are appended. -/
theorem length_valToStringBytes (display : F64 → List UInt8) (val : LuaVal) (buffer : List UInt8) :
    (valToStringBytes display val buffer).length = buffer.length + valStringLen display val := by
  cases val with
  | str s => exact List.length_append
  | num n => exact length_appendLuaNumberBytes display buffer n
  | _ => rfl

theorem valToStringBytes_eq (display : F64 → List UInt8) (val : LuaVal) (buffer : List UInt8) :
    valToStringBytes display val buffer = buffer ++ bytesOf display val := by
  cases val with
  | str s => rfl
  | num n => exact appendLuaNumberBytes_append display buffer n
  | _ => exact (List.append_nil buffer).symm

theorem length_bytesOf (display : F64 → List UInt8) (val : LuaVal) :
    (bytesOf display val).length = valStringLen display val := by
  rw [bytesOf, length_valToStringBytes, List.length_nil, Nat.zero_add]

/-- The bytes of a run. -/
theorem foldl_valToStringBytes (display : F64 → List UInt8) (vals : List LuaVal) (buffer : List UInt8) :
    vals.foldl (fun buffer val => valToStringBytes display val buffer) buffer =
      buffer ++ vals.flatMap (bytesOf display) := by
  induction vals generalizing buffer with
  | nil => exact (List.append_nil buffer).symm
  | cons val vals ih => rw [List.foldl_cons, ih, valToStringBytes_eq, List.flatMap_cons, List.append_assoc]

/-- The length of a run is computed if it is not too large. -/
theorem concatRunLength_eq (display : F64 → List UInt8) (vals : List LuaVal) {totalLen : ℕ} (h : totalLen < maxStringSize) :
    concatRunLength display vals totalLen =
      if maxStringSize ≤ totalLen + (vals.flatMap (bytesOf display)).length then none
      else some (totalLen + (vals.flatMap (bytesOf display)).length) := by
  induction vals generalizing totalLen with
  | nil => exact (if_neg (Nat.not_le.mpr h)).symm
  | cons val vals ih =>
    have hval := length_bytesOf display val
    rw [List.flatMap_cons, List.length_append, concatRunLength]
    by_cases hlen : maxStringSize - totalLen ≤ valStringLen display val
    · rw [if_pos hlen, if_pos (by omega)]
    · rw [if_neg hlen, ih (by omega), ← hval, Nat.add_assoc]

/-! ### From the right -/

theorem concatPairwise_cons (host : ConcatHost W E) (reg : ℕ) (val : LuaVal) (h : vals ≠ []) :
    concatPairwise host reg (val :: vals) = (do
      let rest ← concatPairwise host (reg + 1) vals
      concatPair host reg val rest) := by
  cases vals with
  | nil => exact absurd rfl h
  | cons val' vals => rfl

/-- The last two values are concatenated first. -/
theorem concatPairwise_snoc (host : ConcatHost W E) (reg : ℕ) (vals : List LuaVal) (lhs rhs : LuaVal) :
    concatPairwise host reg (vals ++ [lhs, rhs]) = (do
      let val ← concatPair host (reg + vals.length) lhs rhs
      concatPairwise host reg (vals ++ [val])) := by
  induction vals generalizing reg with
  | nil => simp [concatPairwise]
  | cons val vals ih =>
    have hne (l : List LuaVal) (hl : l ≠ []) : vals ++ l ≠ [] := List.append_ne_nil_of_right_ne_nil vals hl
    have hreg : reg + 1 + vals.length = reg + (val :: vals).length := by
      rw [List.length_cons]
      omega
    simp only [List.cons_append]
    rw [concatPairwise_cons host reg val (hne _ (by simp)), ih (reg + 1), hreg, bind_assoc]
    congr 1
    funext r
    rw [concatPairwise_cons host reg val (hne [r] (by simp))]

/-- Two strings or numbers become one string. -/
theorem concatPair_strings {lhs rhs : LuaVal} (hlhs : isStringOrNumber lhs = true) (hrhs : isStringOrNumber rhs = true) :
    concatPair host reg lhs rhs =
      if maxStringSize ≤ (bytesOf host.display lhs ++ bytesOf host.display rhs).length then throw .overflow
      else pure (.str (bytesOf host.display lhs ++ bytesOf host.display rhs)) :=
  if_pos ⟨hlhs, hrhs⟩

theorem concatPairwise_pair {lhs rhs : LuaVal} (hlhs : isStringOrNumber lhs = true) (hrhs : isStringOrNumber rhs = true)
    (vals : List LuaVal) :
    concatPairwise host reg (vals ++ [lhs, rhs]) =
      if maxStringSize ≤ (bytesOf host.display lhs ++ bytesOf host.display rhs).length then throw .overflow
      else concatPairwise host reg (vals ++ [.str (bytesOf host.display lhs ++ bytesOf host.display rhs)]) := by
  rw [concatPairwise_snoc, concatPair_strings hlhs hrhs]
  split
  · rfl
  · exact pure_bind _ _

/-- A run of strings and numbers becomes one string. -/
theorem concatPairwise_run (hrun : ∀ val ∈ run, isStringOrNumber val = true) (h : 2 ≤ run.length) (vals : List LuaVal) :
    concatPairwise host reg (vals ++ run) =
      if maxStringSize ≤ (run.flatMap (bytesOf host.display)).length then throw .overflow
      else concatPairwise host reg (vals ++ [.str (run.flatMap (bytesOf host.display))]) := by
  induction run generalizing vals with
  | nil => exact absurd h (Nat.not_succ_le_zero 1)
  | cons lhs run ih =>
    obtain ⟨hlhs, hrest⟩ := List.forall_mem_cons.mp hrun
    cases run with
    | nil => exact absurd h (Nat.not_succ_le_self 1)
    | cons rhs run =>
      cases run with
      | nil =>
        rw [concatPairwise_pair hlhs (hrest rhs List.mem_cons_self)]
        simp
      | cons val run =>
        -- The rest of the run is one string first; together they are too long if that is.
        have hih := ih hrest (Nat.le_add_left 2 run.length) (vals ++ [lhs])
        rw [List.append_assoc, List.singleton_append] at hih
        rw [hih, List.append_assoc, List.singleton_append, concatPairwise_pair hlhs rfl]
        have hcons : (lhs :: rhs :: val :: run).flatMap (bytesOf host.display) =
            bytesOf host.display lhs ++ (rhs :: val :: run).flatMap (bytesOf host.display) := List.flatMap_cons
        have hstr : bytesOf host.display (.str ((rhs :: val :: run).flatMap (bytesOf host.display))) =
            (rhs :: val :: run).flatMap (bytesOf host.display) := rfl
        rw [hstr, hcons]
        by_cases hlong : maxStringSize ≤ ((rhs :: val :: run).flatMap (bytesOf host.display)).length
        · rw [if_pos hlong, if_pos]
          rw [List.length_append]
          omega
        · rw [if_neg hlong]

/-! ### The loop -/

/-- All values of a run are strings or numbers. -/
theorem isStringOrNumber_countConcatRun {top total runLen : ℕ}
    (h : ∀ i < runLen, isStringOrNumber (regs (top - i - 1)) = true) (hle : runLen ≤ total) :
    countConcatRun regs top total runLen ≤ total ∧
      ∀ i < countConcatRun regs top total runLen, isStringOrNumber (regs (top - i - 1)) = true := by
  fun_induction countConcatRun regs top total runLen with
  | case1 runLen hmore ih =>
    refine ih (fun i hi => ?_) hmore.1
    rcases Nat.lt_succ_iff_lt_or_eq.mp hi with hlt | rfl
    · exact h i hlt
    · exact hmore.2
  | case2 runLen hstop => exact ⟨hle, h⟩

/-- What concatenating a run stores. -/
theorem concatStringRun_eq (host : ConcatHost W E) (regs : ℕ → LuaVal) (top runLen : ℕ) :
    concatStringRun host regs top runLen =
      if maxStringSize ≤ ((runOperands regs top runLen).flatMap (bytesOf host.display)).length then throw .overflow
      else pure (Function.update regs (top - runLen)
        (.str ((runOperands regs top runLen).flatMap (bytesOf host.display)))) := by
  rw [concatStringRun, concatRunLength_eq _ _ (by decide), foldl_valToStringBytes, Nat.zero_add, List.nil_append]
  split
  · next h =>
    split at h
    · next hlong => rw [if_pos hlong]
    · cases h
  · next h =>
    split at h
    · cases h
    · next hshort => rw [if_neg hshort]

/-- The operands in the registers from `b` on. -/
def operands (regs : ℕ → LuaVal) (b total : ℕ) : List LuaVal := (List.range' b total).map regs

theorem operands_split (regs : ℕ → LuaVal) (b : ℕ) {total n : ℕ} (h : n ≤ total) :
    operands regs b total = operands regs b n ++ operands regs (b + n) (total - n) := by
  have hsplit : List.range' b total = List.range' b n ++ List.range' (b + n) (total - n) := by
    rw [List.range'_append_1, Nat.add_sub_cancel' h]
  rw [operands, hsplit, List.map_append]
  rfl

/-- The last operands have gone into one register. -/
theorem operands_update (regs : ℕ → LuaVal) (b n : ℕ) (val : LuaVal) :
    operands (Function.update regs (b + n) val) b (n + 1) = operands regs b n ++ [val] := by
  rw [operands, List.range'_1_concat, List.map_append, List.map_singleton, Function.update_self]
  congr 1
  refine List.map_congr_left fun r hr => Function.update_of_ne ?_ _ _
  have := List.mem_range'_1.mp hr
  omega

theorem length_operands (regs : ℕ → LuaVal) (b n : ℕ) : (operands regs b n).length = n := by simp [operands]

/-- A pair that is not two strings or numbers goes to a metamethod. -/
theorem concatPairwise_metamethod {lhs rhs : LuaVal} (h : needsConcatMetamethod lhs rhs = true) (vals : List LuaVal) :
    concatPairwise host reg (vals ++ [lhs, rhs]) = (do
      let val ← concatViaMetamethod host lhs rhs (reg + vals.length + 1)
      concatPairwise host reg (vals ++ [val])) := by
  rw [concatPairwise_snoc, concatPair, if_neg]
  rintro ⟨hlhs, hrhs⟩
  rw [needsConcatMetamethod, hlhs, hrhs] at h
  cases h

/-- The loop concatenates the operands that are left in pairs. -/
theorem concatLoop_eq (b : ℕ) {total r : ℕ} (hpos : 0 < total) (hlast : r + 1 = b + total) (regs : ℕ → LuaVal) :
    (do let regs' ← concatLoop host total r regs; pure (regs' b)) = concatPairwise host b (operands regs b total) := by
  induction total using Nat.strong_induction_on generalizing r regs with
  | _ total ih =>
  rw [concatLoop]
  by_cases hmore : 1 < total
  · rw [dif_pos hmore]
    obtain ⟨n, rfl⟩ : ∃ n, total = n + 2 := ⟨total - 2, by omega⟩
    obtain rfl : r = b + n + 1 := by omega
    have hlhs : b + n + 1 + 1 - 2 = b + n := by omega
    have hrhs : b + n + 1 + 1 - 1 = b + n + 1 := by omega
    have hpair : operands regs b (n + 2) = operands regs b n ++ [regs (b + n), regs (b + n + 1)] := by
      rw [operands_split regs b (Nat.le_add_right n 2), Nat.add_sub_cancel_left]
      rfl
    simp only [hlhs, hrhs]
    cases hneeds : needsConcatMetamethod (regs (b + n)) (regs (b + n + 1)) with
    | true =>
      rw [if_pos rfl, hpair, concatPairwise_metamethod hneeds, length_operands, bind_assoc]
      congr 1
      funext val
      have hih := ih (n + 1) (by omega) (Nat.succ_pos n) (r := b + n) (by omega) (Function.update regs (b + n) val)
      rw [operands_update] at hih
      exact hih
    | false =>
      have hstrings : ∀ i < 2, isStringOrNumber (regs (b + n + 1 + 1 - i - 1)) = true := by
        rw [needsConcatMetamethod, Bool.or_eq_false_iff, Bool.not_eq_false', Bool.not_eq_false'] at hneeds
        intro i hi
        interval_cases i
        · exact hneeds.2
        · exact hneeds.1
      obtain ⟨hle, hrun⟩ := isStringOrNumber_countConcatRun hstrings (Nat.le_add_left 2 n)
      have htwo := le_countConcatRun regs (b + n + 1 + 1) (n + 2) 2
      rw [if_neg Bool.false_ne_true]
      generalize countConcatRun regs (b + n + 1 + 1) (n + 2) 2 = runLen at hle hrun htwo
      -- `k` operands are left in front of the run.
      obtain ⟨k, hk⟩ : ∃ k, n + 2 = k + runLen := ⟨n + 2 - runLen, by omega⟩
      have htop : b + n + 1 + 1 - runLen = b + k := by omega
      have hops : runOperands regs (b + n + 1 + 1) runLen = operands regs (b + k) runLen := by
        rw [runOperands, htop]
        rfl
      have hall : ∀ val ∈ operands regs (b + k) runLen, isStringOrNumber val = true := by
        intro val hval
        obtain ⟨r, hr, rfl⟩ := List.mem_map.mp hval
        have hmem := List.mem_range'_1.mp hr
        have := hrun (b + n + 1 - r) (by omega)
        rwa [show b + n + 1 + 1 - (b + n + 1 - r) - 1 = r by omega] at this
      have hsplit : operands regs b (n + 2) = operands regs b k ++ operands regs (b + k) runLen := by
        rw [operands_split regs b (show k ≤ n + 2 by omega), show n + 2 - k = runLen by omega]
      rw [hsplit, concatPairwise_run hall (by rw [length_operands]; exact htwo), concatStringRun_eq, hops, htop]
      by_cases hlong : maxStringSize ≤ ((operands regs (b + k) runLen).flatMap (bytesOf host.display)).length
      · rw [if_pos hlong, if_pos hlong]
        rfl
      · rw [if_neg hlong, if_neg hlong, pure_bind, show n + 2 - (runLen - 1) = k + 1 by omega,
          show b + n + 1 - (runLen - 1) = b + k by omega]
        have hih := ih (k + 1) (by omega) (Nat.succ_pos k) (r := b + k) (by omega) (Function.update regs (b + k)
          (.str ((operands regs (b + k) runLen).flatMap (bytesOf host.display))))
        rwa [operands_update] at hih
  · obtain rfl : total = 1 := by omega
    rw [dif_neg hmore]
    obtain rfl : r = b := by omega
    rfl

end Rilua.Vm
