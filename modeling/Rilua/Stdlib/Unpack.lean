import Rilua.Lib.Rounding
import Rilua.Vm.CallSpec
import Rilua.Vm.TableLen
import Rilua.Vm.TableOps

/-! `unpack` (`stdlib/base.rs`). The number of values is computed in `i64` and handed back as a `u32`, and the room for
    them is asked for without a limit: it is right where neither matters. -/

namespace Rilua.Stdlib

open Lib Vm Gc

/-- Argument `n`, counted from 0. -/
def arg (s : LuaState) (n : ℕ) : Val := if s.base + n < s.top then s.stackGet (s.base + n) else .nil

def checkArgs (name : String) (s : LuaState) (min : ℕ) : Except LuaError Unit :=
  if s.top - s.base < min then .error (badArgument name min "value expected") else .ok ()

/-- The table with the first and the last index. `access` is what `check_table_access` answers. The search for the
    length returns in a table the machine has built. -/
def unpackArgs (access : GcRef .table → Except LuaError Unit) (s : LuaState) :
    Except LuaError (GcRef .table × ℤ × ℤ) := do
  checkArgs "unpack" s 1
  match arg s 0 with
  | .table r => do
    access r
    let i ← match arg s 1 with
      | .num n => .ok n.toI64
      | .nil => .ok 1
      | _ => .error (badArgument "unpack" 2 "number expected")
    let j ← match arg s 2 with
      | .nil =>
        match s.gc.heap.get r with
        | some t => .ok (((Table.len t s.gc.heap.strings).getD 0 : ℕ) : ℤ)
        | none => .error (badArgument "unpack" 1 "invalid table")
      | .num n => .ok n.toI64
      | _ => .error (badArgument "unpack" 3 "number expected")
    .ok (r, i, j)
  | _ => .error (badArgument "unpack" 1 "table expected")

/-- Room for `n` values above the top. A vector that would be too long is a panic. -/
def ensureStack (s : LuaState) (n : ℕ) : Option LuaState :=
  if maxVecLength < s.top + n then none else some (s.ensureStackLen (s.top + n))

/-- The value of an integer key. The lookup returns in a table the machine has built. -/
def field (s : LuaState) (r : GcRef .table) (k : ℤ) : Val :=
  match s.gc.heap.get r with
  | some t => (Table.get t (.num (F64.ofInt k)) s.gc.heap.strings).getD .nil
  | none => .nil

/-- Pushes the values of `n` keys from `k` on. -/
def pushFields (r : GcRef .table) : ℕ → ℤ → LuaState → LuaState
  | 0, _, s => s
  | n + 1, k, s => pushFields r n (k + 1) (s.push (field s r k))

/-- `unpack`: nothing where it panics, and otherwise the state and the number of results, or an error. -/
def luaUnpack (checked : Bool) (access : GcRef .table → Except LuaError Unit) (s : LuaState) :
    Option (Except LuaError (LuaState × ℕ)) :=
  match unpackArgs access s with
  | .error e => some (.error e)
  | .ok (r, i, j) => do
    let d ← F64.i64Result checked (j - i)
    let n ← F64.i64Result checked (d + 1)
    if n ≤ 0 then some (.ok (s, 0))
    else do
      let s ← ensureStack s (s.top + n.toNat)
      some (.ok (pushFields r (j + 1 - i).toNat i s, n.toNat % 2 ^ 32))

variable {checked : Bool} {access : GcRef .table → Except LuaError Unit} {s s' : LuaState} {r : GcRef .table}
  {i j : ℤ} {n : ℕ}

/-! ### The values -/

/-- The `n` values above the old top are those of the keys from `i` on. -/
structure Unpacked (r : GcRef .table) (i j : ℤ) (s s' : LuaState) (n : ℕ) : Prop where
  count : n = (j - i + 1).toNat
  top : s'.top = s.top + n
  values : s'.slots s.top s'.top = (List.range n).map fun k : ℕ => field s r (i + k)
  below : ∀ idx < s.top, s'.stackGet idx = s.stackGet idx
  gc : s'.gc = s.gc

theorem field_push (s : LuaState) (v : Val) (r : GcRef .table) (k : ℤ) : field (s.push v) r k = field s r k := rfl

theorem pushFields_spec (r : GcRef .table) (n : ℕ) : ∀ (k : ℤ) (s : LuaState),
    (pushFields r n k s).top = s.top + n ∧ (pushFields r n k s).gc = s.gc ∧
      (∀ idx < s.top, (pushFields r n k s).stackGet idx = s.stackGet idx) ∧
      ∀ m < n, (pushFields r n k s).stackGet (s.top + m) = field s r (k + m) := by
  induction n with
  | zero => exact fun k s => ⟨rfl, rfl, fun _ _ => rfl, by simp⟩
  | succ n ih =>
    intro k s
    obtain ⟨htop, hgc, hbelow, hvalues⟩ := ih (k + 1) (s.push (field s r k))
    have hpush : (s.push (field s r k)).top = s.top + 1 := rfl
    have hget := LuaState.stackGet_push s (field s r k)
    rw [hpush] at htop hbelow hvalues
    refine ⟨by rw [pushFields, htop]; omega, hgc, fun idx hidx => ?_, fun m hm => ?_⟩
    · rw [pushFields, hbelow idx (by omega), hget, Function.update_of_ne (by omega)]
    · rw [pushFields]
      cases m with
      | zero =>
        rw [Nat.add_zero, hbelow s.top (by omega), hget, Function.update_self]
        simp
      | succ m =>
        have hval := hvalues m (by omega)
        rw [show s.top + 1 + m = s.top + (m + 1) by omega] at hval
        rw [hval, field_push]
        congr 1
        push_cast
        ring

theorem unpacked_pushFields (hn : n = (j - i + 1).toNat) (m : ℕ) :
    Unpacked r i j s (pushFields r n i (s.ensureStackLen m)) n := by
  obtain ⟨htop, hgc, hbelow, hvalues⟩ := pushFields_spec r n i (s.ensureStackLen m)
  refine ⟨hn, htop, ?_, fun idx hidx => ?_, hgc⟩
  · have htop' : (s.ensureStackLen m).top = s.top := rfl
    rw [htop, htop', LuaState.slots, window, Nat.add_sub_cancel_left]
    refine List.ext_getElem? fun idx => ?_
    rcases lt_or_ge idx n with hidx | hidx
    · rw [List.getElem?_map, List.getElem?_map, List.getElem?_range' hidx, List.getElem?_range hidx, Option.map_some,
        Option.map_some, Nat.one_mul]
      exact congrArg some (hvalues idx hidx)
    · rw [List.getElem?_eq_none (by simpa using hidx), List.getElem?_eq_none (by simpa using hidx)]
  · rw [hbelow idx hidx, LuaState.stackGet_ensureStackLen]

/-! ### The count -/

/-- What `unpack` is to do, in a build with overflow checks and in one without. -/
def UnpacksRight (access : GcRef .table → Except LuaError Unit) (s : LuaState) : Prop :=
  ∀ checked, ∃ res, luaUnpack checked access s = some res ∧
    ∀ s' n, res = .ok (s', n) → ∃ r i j, unpackArgs access s = .ok (r, i, j) ∧ Unpacked r i j s s' n

theorem luaUnpack_of_args (hargs : unpackArgs access s = .ok (r, i, j)) : luaUnpack checked access s = (do
    let d ← F64.i64Result checked (j - i)
    let n ← F64.i64Result checked (d + 1)
    if n ≤ 0 then some (.ok (s, 0))
    else do
      let s ← ensureStack s (s.top + n.toNat)
      some (.ok (pushFields r (j + 1 - i).toNat i s, n.toNat % 2 ^ 32))) := by
  rw [luaUnpack, hargs]

/-- With its arguments accepted, `unpack` is right if and only if the count is not too negative, is a `u32`, and there
    may be that many values on the stack. -/
theorem unpacksRight_of_args (hargs : unpackArgs access s = .ok (r, i, j)) : UnpacksRight access s ↔
    F64.i64Min ≤ j - i ∧ j - i + 1 < 2 ^ 32 ∧ (i ≤ j → s.top + (s.top + (j - i + 1).toNat) ≤ maxVecLength) := by
  constructor
  · intro h
    obtain ⟨res, hres, hright⟩ := h true
    rw [luaUnpack_of_args hargs] at hres
    obtain ⟨d, hd, hres⟩ := Option.bind_eq_some_iff.mp hres
    obtain ⟨n, hn, hres⟩ := Option.bind_eq_some_iff.mp hres
    obtain ⟨hmin, -, rfl⟩ := F64.i64Result_checked hd
    obtain ⟨-, -, rfl⟩ := F64.i64Result_checked hn
    refine ⟨hmin, ?_⟩
    split at hres
    · exact ⟨by omega, fun hle => by omega⟩
    · next hpos =>
      obtain ⟨s₁, hs₁, hres⟩ := Option.bind_eq_some_iff.mp hres
      cases hres
      obtain ⟨r', i', j', hargs', hun⟩ := hright _ _ rfl
      rw [hargs] at hargs'
      cases hargs'
      have hcount := hun.count
      rw [ensureStack] at hs₁
      split at hs₁
      · cases hs₁
      · next hroom => exact ⟨by omega, fun _ => Nat.le_of_not_lt hroom⟩
  · rintro ⟨hmin, hcount, hroom⟩ checked
    have hmax : j - i + 1 ≤ F64.i64Max := by
      rw [F64.i64Max]
      omega
    rw [luaUnpack_of_args hargs, F64.i64Result_eq hmin (by omega)]
    simp only [Option.bind_eq_bind, Option.bind_some]
    rw [F64.i64Result_eq (le_trans hmin (by omega)) hmax, Option.bind_some]
    split
    · next hle =>
      refine ⟨_, rfl, fun s' n hres => ?_⟩
      cases hres
      refine ⟨r, i, j, hargs, by omega, rfl, ?_, fun _ _ => rfl, rfl⟩
      rw [LuaState.slots, window_self]
      rfl
    · next hpos =>
      rw [ensureStack, if_neg (Nat.not_lt.mpr (hroom (by omega))), Option.bind_some]
      refine ⟨_, rfl, fun s' n hres => ?_⟩
      cases hres
      have hn : (j - i + 1).toNat % 2 ^ 32 = (j - i + 1).toNat := Nat.mod_eq_of_lt (by omega)
      have heq : (j + 1 - i).toNat = (j - i + 1).toNat := by omega
      rw [hn, heq]
      exact ⟨r, i, j, hargs, unpacked_pushFields rfl _⟩

/-- `unpack` pushes the values it is asked for, or raises an error, and neither overflows nor panics, if and only if its
    arguments are not accepted, or the count is not too negative, is a `u32`, and there may be that many values on the
    stack. -/
theorem unpacksRight_iff (access : GcRef .table → Except LuaError Unit) (s : LuaState) : UnpacksRight access s ↔
    ∀ r i j, unpackArgs access s = .ok (r, i, j) → F64.i64Min ≤ j - i ∧ j - i + 1 < 2 ^ 32 ∧
      (i ≤ j → s.top + (s.top + (j - i + 1).toNat) ≤ maxVecLength) := by
  cases hargs : unpackArgs access s with
  | error e =>
    refine ⟨fun _ r i j h => (nomatch h), fun _ checked => ⟨.error e, ?_, fun _ _ h => nomatch h⟩⟩
    rw [luaUnpack, hargs]
  | ok args =>
    obtain ⟨r, i, j⟩ := args
    rw [unpacksRight_of_args hargs]
    constructor
    · rintro h r' i' j' heq
      cases heq
      exact h
    · exact fun h => h r i j rfl

/-- `unpack({}, i, j)` with the least and the greatest `i64`. -/
def widest : LuaState where
  stack := [.nil, .table ⟨0, 0⟩, .num (F64.ofInt F64.i64Min), .num (F64.ofInt F64.i64Max)]
  base := 1
  top := 4
  callStack := [CallInfo.initial]
  global := ⟨0, 0⟩
  gc := { heap := ((Heap.new.alloc .table {} .white0).map Prod.fst).getD Heap.new }
  registry := ⟨0, 0⟩
  hookEventNames := []
  hookMaskNames := []
  debugInfoFieldNames := []

/-- The count is `2^64`. -/
theorem not_unpacksRight : ¬ UnpacksRight (fun _ => .ok ()) widest := by
  have hi : (F64.ofInt F64.i64Min).toI64 = F64.i64Min := by decide +kernel
  have hj : (F64.ofInt F64.i64Max).toI64 = F64.i64Max := by decide +kernel
  have hargs : unpackArgs (fun _ => .ok ()) widest = .ok (⟨0, 0⟩, F64.i64Min, F64.i64Max) := by
    rw [← hi, ← hj]
    rfl
  rw [unpacksRight_of_args hargs]
  exact fun h => absurd h.2.1 (by decide)

end Rilua.Stdlib
