import Rilua.Lib.Rounding
import Rilua.Stdlib.TableLists
import Rilua.Vm.Call
import Rilua.Vm.NativeCalls
import Rilua.Vm.TableNext

/-! `secureexecuterange` (`stdlib/taint.rs`): the fields of a table are listed, and a callback is called with each of
    them. What a callback does is left open, also to the table, and the collector may run in it. The list is kept in
    host memory, where the collector does not see it. Taint is left out here. -/

namespace Rilua.Vm

open Lib Gc

/-- What limits the nesting of calls on a thread. -/
structure CallLimits extends Counters where
  ci : ℕ := 0
  ciOverflow : Bool := false

namespace CallLimits

/-- `check_stack_overflow`, as `call_function` makes it. -/
def tooDeep (c : CallLimits) : Bool :=
  (Counters.checkStackOverflow ⟨c.nCcalls + 1, c.callDepth + 1⟩ "").isSome

/-- The limit on the number of frames, as `precall` checks it. -/
def overflows (c : CallLimits) : Bool :=
  if c.ciOverflow then decide (maxCalls * 2 ≤ c.ci + 1) else decide (maxCalls ≤ c.ci + 1)

def admits (c : CallLimits) : Bool := !c.tooDeep && !c.overflows

end CallLimits

structure RangeState (σ : Type) where
  tables : SecretTables
  limits : CallLimits := {}
  host : σ

/-- A callback's turn: its arguments, and the state before the call. -/
structure RangeTurn where
  args : List Val
  limits : CallLimits
  gc : Gc

abbrev RangeM (σ α : Type) : Type := Act (RangeState σ) RangeTurn LuaError α

/-- The interpreter. A callback comes back with a result, which is dropped, or with an error. -/
structure RangeHost (σ : Type) where
  secure : σ → Bool
  callback : Val → List Val → RangeState σ → Option (RangeState σ × Except LuaError Unit)

/-- The integer that a number is taken for. The difference of a number and its integral part is exact, and
    `f64::EPSILON` is 2^-52. -/
def numericSlotIndex (value : F64) : Option ℤ :=
  if value.isFinite = false then none
  else
    let whole := value.scaled.tdiv magOne
    if (value.scaled - whole * magOne).natAbs * 2 ^ 52 > magOne then none
    else if F64.i64Min ≤ whole ∧ whole ≤ F64.i64Max then some whole
    else none

def isArrayPrefixKey (key : Val) (prefixLen : ℕ) : Bool :=
  match key with
  | .num number => (numericSlotIndex number).any fun index => decide (1 ≤ index ∧ index ≤ (prefixLen : ℤ))
  | _ => false

/-- The fields of the array part from the slot `i` on, up to the first that is nil. -/
def arrayPrefix : ℕ → List Val → List (Val × Val)
  | _, [] => []
  | i, v :: vs => if v.isNil then [] else (Table.slotKey i, v) :: arrayPrefix (i + 1) vs

/-- The loop of `next`, without the keys that are in the prefix. `fuel` bounds its rounds. -/
def Table.remainingEntries (t : Table) (strings : StringArena) (prefixLen : ℕ) :
    ℕ → Val → Option (Except LuaError (List (Val × Val)))
  | 0, _ => none
  | fuel + 1, previousKey => do
    match ← t.next previousKey strings with
    | .error e => some (.error e)
    | .ok none => some (.ok [])
    | .ok (some (key, value)) =>
      match ← t.remainingEntries strings prefixLen fuel key with
      | .error e => some (.error e)
      | .ok entries => some (.ok (if isArrayPrefixKey key prefixLen then entries else (key, value) :: entries))

def collectSecureRangeEntries (secure : Bool) (r : GcRef .table) : SecretM (List (Val × Val)) := do
  SecretM.checkTableAccess secure r none
  let t ← SecretM.read r ⟨"secureexecuterange table missing"⟩
  let entries := arrayPrefix 0 t.array
  let rest ← Act.attempt fun s =>
    (t.remainingEntries s.gc.heap.strings entries.length (t.positions + 1) .nil).map fun res => (s, res)
  pure (entries ++ rest)

namespace RangeM

variable {σ : Type}

/-- `call_function`. -/
def callFunction (host : RangeHost σ) (callback : Val) (args : List Val) : RangeM σ Unit := fun s =>
  let turn : RangeTurn := ⟨args, s.limits, s.tables.gc⟩
  if s.limits.tooDeep then some (s, [turn], .error ⟨"stack overflow"⟩)
  else if s.limits.overflows then
    some ({ s with limits := { s.limits with ciOverflow := true } }, [turn], .error ⟨"stack overflow"⟩)
  else (host.callback callback args s).map fun (s, res) => (s, [turn], res)

/-- Calls the callback. After an error the limits are what they were before. -/
def callSecureRangeCallback (host : RangeHost σ) (callback : Val) (args : List Val) : RangeM σ Unit := fun s =>
  (callFunction host callback args s).map fun
    | (s', turns, .ok ()) => (s', turns, .ok ())
    | (s', turns, .error e) =>
      let ciOverflow := if s.limits.ci < maxCalls then false else s'.limits.ciOverflow
      ({ s' with limits := { s.limits with ciOverflow } }, turns, .error e)

/-- The result of a callback is dropped. -/
def dropResult (x : RangeM σ Unit) : RangeM σ Unit := fun s => (x s).map fun (s, turns, _) => (s, turns, .ok ())

def callRange (host : RangeHost σ) (callback : Val) (extraArgs : List Val) : List (Val × Val) → RangeM σ Unit
  | [] => pure ()
  | (key, value) :: entries => do
    dropResult (callSecureRangeCallback host callback (key :: value :: extraArgs))
    callRange host callback extraArgs entries

def onTables {α : Type} (host : RangeHost σ) (x : Bool → SecretM α) : RangeM σ α := fun s =>
  (x (host.secure s.host) s.tables).map fun (tables, _, r) => ({ s with tables }, [], r)

/-- `secureexecuterange`. It has no results. -/
def secureexecuterange (host : RangeHost σ) (args : List Val) : RangeM σ Unit :=
  match argOf args 0, argOf args 1 with
  | .table r, .function f => do
    let entries ← onTables host fun secure => collectSecureRangeEntries secure r
    callRange host (.function f) (args.drop 2) entries
  | _, _ => pure ()

end RangeM

/-! ### The numeric filter -/

/-- The number behind 1. -/
def nextAfterOne : F64 := .ofBits 0x3ff0000000000001

theorem nextAfterOne_eq : nextAfterOne.isFinite = true ∧ nextAfterOne.scaled = magOne + 2 ^ (unitExp - 52) := by
  refine ⟨by decide +kernel, ?_⟩
  rw [magOne, unitExp]
  decide +kernel

theorem eq_of_rawEq_nextAfterOne {key : Val} (h : key.rawEq (.num nextAfterOne) = true) : key = .num nextAfterOne := by
  cases key with
  | num x =>
    refine congrArg Val.num (F64.eq_of_beq h fun _ h0 => ?_)
    rw [F64.scaled_congr h, nextAfterOne_eq.2] at h0
    have hone := magOne_pos
    have hpos : (0 : ℤ) < 2 ^ (unitExp - 52) := by positivity
    omega
  | _ => cases h

theorem numericSlotIndex_nextAfterOne : numericSlotIndex nextAfterOne = some 1 := by decide +kernel

theorem numericSlotIndex_eq_some {x : F64} {i : ℤ} :
    numericSlotIndex x = some i ↔ x.isFinite = true ∧ i = x.scaled.tdiv magOne ∧
      (x.scaled - i * magOne).natAbs * 2 ^ 52 ≤ magOne ∧ F64.i64Min ≤ i ∧ i ≤ F64.i64Max := by
  unfold numericSlotIndex
  split
  · next h => simp [h]
  · next h =>
    rw [Bool.not_eq_false] at h
    simp only [h, true_and]
    split
    · next hfar =>
      refine ⟨nofun, ?_⟩
      rintro ⟨rfl, hnear, -⟩
      omega
    · next hnear =>
      split
      · next hrange =>
        rw [Option.some.injEq, eq_comm]
        refine ⟨?_, fun h => h.1⟩
        rintro rfl
        exact ⟨rfl, Nat.le_of_not_lt hnear, hrange⟩
      · next hrange =>
        refine ⟨nofun, ?_⟩
        rintro ⟨rfl, -, hmin, hmax⟩
        exact absurd ⟨hmin, hmax⟩ hrange

theorem numericSlotIndex_of_isInt {x : F64} {i : ℤ} (h : x.IsInt i) (hmin : F64.i64Min ≤ i) (hmax : i ≤ F64.i64Max) :
    numericSlotIndex x = some i := by
  refine numericSlotIndex_eq_some.mpr ⟨h.1, ?_, ?_, hmin, hmax⟩
  · rw [h.2, Int.mul_tdiv_cancel _ F64.magOne_ne_zero]
  · rw [h.2, sub_self]
    simp

/-- The numbers that are taken for a positive integer are that integer, and the number behind 1. -/
theorem numericSlotIndex_cases {x : F64} {i : ℤ} (h : numericSlotIndex x = some i) (hi : 1 ≤ i) :
    x.IsInt i ∨ i = 1 ∧ x = nextAfterOne := by
  obtain ⟨hf, hdiv, hnear, -⟩ := numericSlotIndex_eq_some.mp h
  have hone := magOne_pos
  have hnonneg : 0 ≤ x.scaled := by
    by_contra hneg
    obtain ⟨k, hk⟩ := Int.exists_eq_neg_ofNat (show x.scaled ≤ 0 by omega)
    rw [hk, Int.neg_tdiv, ← Int.ofNat_tdiv] at hdiv
    exact absurd hdiv (by have := Int.natCast_nonneg (k / magOne); lia)
  obtain ⟨m, hm⟩ := Int.eq_ofNat_of_zero_le hnonneg
  have hrep : Representable m := by
    have := F64.magnitude_scaled hf
    rwa [hm, Int.natAbs_natCast] at this
  have hquot : i = (m / magOne : ℕ) := by rw [hdiv, hm, Int.ofNat_tdiv]
  have hrest : (x.scaled - i * magOne).natAbs = m % magOne := by
    have hdm := Nat.div_add_mod' m magOne
    rw [hm, hquot, ← Int.natCast_mul]
    omega
  have hge : magOne ≤ m := by
    by_contra hlt
    rw [Nat.div_eq_of_lt (by omega)] at hquot
    omega
  rw [hrest] at hnear
  rcases hrep.near_integer hge hnear with hzero | heq
  · refine .inl ⟨hf, ?_⟩
    have hdm := Nat.div_add_mod m magOne
    rw [hzero, Nat.add_zero] at hdm
    rw [hm, hquot, ← Int.natCast_mul, Nat.mul_comm, hdm]
  · have hx : x = nextAfterOne := by
      refine F64.eq_of_beq (F64.beq_of_scaled hf nextAfterOne_eq.1 ?_) fun _ => by omega
      rw [hm, nextAfterOne_eq.2, heq]
      push_cast
      rfl
    subst hx
    rw [numericSlotIndex_nextAfterOne, Option.some.injEq] at h
    exact .inr ⟨h.symm, rfl⟩

theorem isArrayPrefixKey_iff {key : Val} {n : ℕ} (hn : n < 2 ^ 52) :
    isArrayPrefixKey key n = true ↔ (∃ i < n, key = Table.slotKey i) ∨ 0 < n ∧ key = .num nextAfterOne := by
  constructor
  · intro h
    cases key with
    | num x =>
      obtain ⟨i, hi, hrange⟩ := (Option.any_eq_true ..).mp h
      obtain ⟨hlo, hhi⟩ := of_decide_eq_true hrange
      rcases numericSlotIndex_cases hi hlo with hint | ⟨rfl, rfl⟩
      · obtain ⟨j, rfl⟩ : ∃ j : ℕ, i = j + 1 := ⟨(i - 1).toNat, by omega⟩
        have hkey : (F64.ofInt (j + 1)).IsInt (j + 1) := ⟨F64.isFinite_ofInt (by omega), F64.scaled_ofInt (by omega)⟩
        exact .inl ⟨j, by omega, congrArg Val.num (hint.eq hkey (by omega))⟩
      · exact .inr ⟨by omega, rfl⟩
    | _ => cases h
  · rintro (⟨i, hi, rfl⟩ | ⟨hpos, rfl⟩)
    · have hkey : (F64.ofInt (i + 1)).IsInt (i + 1) := ⟨F64.isFinite_ofInt (by omega), F64.scaled_ofInt (by omega)⟩
      have hindex := numericSlotIndex_of_isInt hkey (by rw [F64.i64Min]; omega) (by rw [F64.i64Max]; omega)
      rw [Table.slotKey, isArrayPrefixKey, hindex, Option.any_some]
      exact decide_eq_true ⟨by omega, by omega⟩
    · rw [isArrayPrefixKey, numericSlotIndex_nextAfterOne, Option.any_some]
      exact decide_eq_true ⟨by omega, by omega⟩

/-! ### The list of the fields -/

namespace Table

variable {strings : StringArena} {t : Table} {key : Val} {i j n p : ℕ}

/-- The fields from position `p` on. -/
def fieldsFrom (t : Table) (p : ℕ) : List (Val × Val) :=
  ((List.range' p (t.positions - p)).filter fun i => !(t.valueAt i).isNil).map fun i => (t.keyAt i, t.valueAt i)

theorem fieldsFrom_of_le (h : t.positions ≤ p) : t.fieldsFrom p = [] := by
  rw [fieldsFrom, Nat.sub_eq_zero_of_le h]
  rfl

theorem fieldsFrom_cons (hp : p < t.positions) (hv : t.valueAt p ≠ .nil) :
    t.fieldsFrom p = (t.keyAt p, t.valueAt p) :: t.fieldsFrom (p + 1) := by
  have hlen : t.positions - p = t.positions - (p + 1) + 1 := by omega
  rw [fieldsFrom, hlen, List.range'_succ, List.filter_cons_of_pos (by simpa using hv), List.map_cons]
  rfl

theorem fieldsFrom_skip (hp : p < t.positions) (hv : t.valueAt p = .nil) : t.fieldsFrom p = t.fieldsFrom (p + 1) := by
  have hlen : t.positions - p = t.positions - (p + 1) + 1 := by omega
  rw [fieldsFrom, hlen, List.range'_succ, List.filter_cons_of_neg (by simp [hv])]
  rfl

theorem fieldsFrom_skip_to (hpi : p ≤ i) (hi : i ≤ t.positions) (hskip : ∀ j, p ≤ j → j < i → t.valueAt j = .nil) :
    t.fieldsFrom p = t.fieldsFrom i := by
  induction i, hpi using Nat.le_induction with
  | base => rfl
  | succ i hpi ih =>
    rw [ih (by omega) fun j hpj hj => hskip j hpj (by omega)]
    exact fieldsFrom_skip (by omega) (hskip i hpi (Nat.lt_succ_self i))

theorem mem_fieldsFrom {e : Val × Val} :
    e ∈ t.fieldsFrom p ↔ ∃ i, p ≤ i ∧ i < t.positions ∧ t.valueAt i ≠ .nil ∧ e = (t.keyAt i, t.valueAt i) := by
  simp only [fieldsFrom, List.mem_map, List.mem_filter, List.mem_range'_1, Bool.not_eq_true', Bool.eq_false_iff, Ne,
    Val.isNil_eq_true]
  constructor
  · rintro ⟨i, ⟨⟨hpi, hi⟩, hv⟩, rfl⟩
    exact ⟨i, hpi, by omega, hv, rfl⟩
  · rintro ⟨i, hpi, hi, hv, rfl⟩
    exact ⟨i, ⟨⟨hpi, by omega⟩, hv⟩, rfl⟩

/-- The loop of `next` lists the fields that it has not reached yet. -/
theorem Inv.remainingEntries_eq (h : t.Inv strings) (hlen : t.array.length < 2 ^ 52) (n : ℕ) : ∀ (fuel idx : ℕ)
    (key : Val), t.findIndex key strings = some (.ok idx) → (idx + 1) % 2 ^ 64 = p → t.positions - p < fuel →
      t.remainingEntries strings n fuel key =
        some (.ok ((t.fieldsFrom p).filter fun e => !isArrayPrefixKey e.1 n)) := by
  intro fuel
  induction fuel generalizing p with
  | zero => intro idx key _ _ hfuel; omega
  | succ fuel ih =>
    intro idx key hidx hp hfuel
    obtain ⟨r, hr, hfirst⟩ := next_of_index hidx hp
    rw [remainingEntries, hr]
    cases hfirst with
    | none hrest =>
      have hnone : t.fieldsFrom p = [] := by
        rcases Nat.lt_or_ge p t.positions with hlt | hge
        · rw [fieldsFrom_skip_to hlt.le le_rfl hrest, fieldsFrom_of_le le_rfl]
        · exact fieldsFrom_of_le hge
      rw [hnone]
      rfl
    | some i hpi hi hv hskip =>
      obtain ⟨hat, hlive⟩ := h.at_keyAt hlen hi hv
      have hnodes := h.nodes_le
      have hmod : (i + 1) % 2 ^ 64 = i + 1 := by
        have := hi
        rw [positions] at this
        exact Nat.mod_eq_of_lt (by omega)
      have hrest := ih i (t.keyAt i) (h.findIndex_of_at hlive hat) hmod (by omega)
      simp only [bind, Option.bind_some, hrest]
      rw [fieldsFrom_skip_to hpi hi.le hskip, fieldsFrom_cons hi hv]
      cases hkey : isArrayPrefixKey (t.keyAt i) n with
      | true => rw [List.filter_cons_of_neg (by simp [hkey]), if_pos rfl]
      | false => rw [List.filter_cons_of_pos (by simp [hkey]), if_neg Bool.false_ne_true]

/-- The fields of the prefix are the first ones. -/
theorem fieldsFrom_prefix (t : Table) : ∀ (vs : List Val) (i : ℕ), t.array.drop i = vs →
    t.fieldsFrom i = arrayPrefix i vs ++ t.fieldsFrom (i + (arrayPrefix i vs).length)
  | [], i, _ => rfl
  | v :: vs, i, hdrop => by
    have hi : i < t.array.length := by
      by_contra hge
      rw [List.drop_eq_nil_of_le (by omega)] at hdrop
      cases hdrop
    have hcons := List.drop_eq_getElem_cons hi
    rw [hdrop, List.cons.injEq] at hcons
    obtain ⟨hv, htail⟩ := hcons
    rw [arrayPrefix]
    split
    · rfl
    · next hnil =>
      have hval : t.valueAt i = v := by rw [valueAt_slot hi, List.getD_eq_getElem _ _ hi, hv]
      have hkey : t.keyAt i = slotKey i := if_pos hi
      have hne : t.valueAt i ≠ .nil := by
        rw [hval]
        exact fun h => hnil (Val.isNil_eq_true.mpr h)
      rw [fieldsFrom_cons (by rw [positions]; omega) hne, hkey, hval, fieldsFrom_prefix t vs (i + 1) htail.symm,
        List.length_cons, List.cons_append, Nat.add_right_comm, ← Nat.add_assoc]

theorem arrayPrefix_keys : ∀ (vs : List Val) (i : ℕ), ∀ e ∈ arrayPrefix i vs,
    ∃ j, i ≤ j ∧ j < i + (arrayPrefix i vs).length ∧ e.1 = slotKey j
  | [], _, e, he => by cases he
  | v :: vs, i, e, he => by
    rw [arrayPrefix] at he ⊢
    split at he
    · cases he
    · next hnil =>
      rw [if_neg hnil, List.length_cons]
      rcases List.mem_cons.mp he with rfl | he
      · exact ⟨i, le_rfl, by omega, rfl⟩
      · obtain ⟨j, hij, hj, hkey⟩ := arrayPrefix_keys vs (i + 1) e he
        exact ⟨j, by omega, by omega, hkey⟩

theorem length_arrayPrefix : ∀ (vs : List Val) (i : ℕ), (arrayPrefix i vs).length ≤ vs.length
  | [], _ => le_rfl
  | v :: vs, i => by
    rw [arrayPrefix]
    split
    · exact Nat.zero_le _
    · exact Nat.succ_le_succ (length_arrayPrefix vs (i + 1))

theorem length_arrayPrefix_pos : 0 < (arrayPrefix 0 t.array).length ↔ t.array.getD 0 .nil ≠ .nil := by
  cases t.array with
  | nil => simp [arrayPrefix]
  | cons v vs => cases v <;> simp [arrayPrefix, Val.isNil]

/-- All fields but the one that is taken for 1. -/
def visitedFields (t : Table) : List (Val × Val) :=
  (t.fieldsFrom 0).filter fun e => !decide (0 < (arrayPrefix 0 t.array).length ∧ e.1 = .num nextAfterOne)

/-- What the list of the entries comes to. -/
theorem Inv.entries_eq (h : t.Inv strings) (hlen : t.array.length < 2 ^ 52) :
    arrayPrefix 0 t.array ++
        (t.fieldsFrom 0).filter (fun e => !isArrayPrefixKey e.1 (arrayPrefix 0 t.array).length) =
      t.visitedFields := by
  have hsplit := fieldsFrom_prefix t t.array 0 rfl
  unfold visitedFields
  generalize hentries : arrayPrefix 0 t.array = entries at *
  have hn : entries.length < 2 ^ 52 := by
    rw [← hentries]
    exact (length_arrayPrefix t.array 0).trans_lt hlen
  have hkeys : ∀ e ∈ entries, ∃ j < entries.length, e.1 = slotKey j := by
    intro e he
    rw [← hentries] at he ⊢
    obtain ⟨j, -, hj, hkey⟩ := arrayPrefix_keys t.array 0 e he
    exact ⟨j, by omega, hkey⟩
  have hslot : ∀ j < entries.length, slotKey j ≠ .num nextAfterOne := by
    intro j hj heq
    have hkey : (slotKey j).intKey = (Val.num nextAfterOne).intKey := by rw [heq]
    rw [intKey_slotKey (by omega)] at hkey
    exact absurd hkey (by rw [show (Val.num nextAfterOne).intKey = none from by decide +kernel]; nofun)
  have hdropped : entries.filter (fun e => !isArrayPrefixKey e.1 entries.length) = [] := by
    refine List.filter_eq_nil_iff.mpr fun e he => ?_
    obtain ⟨j, hj, hkey⟩ := hkeys e he
    simp [(isArrayPrefixKey_iff hn).mpr (.inl ⟨j, hj, hkey⟩)]
  have hkept : entries.filter (fun e => !decide (0 < entries.length ∧ e.1 = .num nextAfterOne)) = entries := by
    refine List.filter_eq_self.mpr fun e he => ?_
    obtain ⟨j, hj, hkey⟩ := hkeys e he
    simp [hkey, hslot j hj]
  rw [hsplit, List.filter_append, List.filter_append, hdropped, hkept, List.nil_append]
  congr 1
  refine List.filter_congr fun e he => ?_
  obtain ⟨i, hni, hi, hv, rfl⟩ := mem_fieldsFrom.mp he
  refine congrArg Bool.not (Bool.eq_iff_iff.mpr ?_)
  rw [isArrayPrefixKey_iff hn, decide_eq_true_eq]
  refine ⟨fun hkey => hkey.resolve_left ?_, .inr⟩
  rintro ⟨j, hj, hkey⟩
  -- the key of a slot of the prefix is at that slot
  obtain ⟨hat, hlive⟩ := h.at_keyAt hlen hi hv
  have hslotAt : At t j (slotKey j) := by
    refine .inl ((slot_eq_some h.array_le).mpr ⟨intKey_slotKey (by omega), ?_⟩)
    exact hj.trans_le (hentries ▸ length_arrayPrefix t.array 0)
  rw [show t.keyAt i = slotKey j from hkey] at hat hlive
  have := hat.unique h hlive.ne_nil hslotAt hlive.rawEq_self
  omega

/-- The fields have distinct keys. -/
theorem Inv.fieldsFrom_distinct (h : t.Inv strings) (hlen : t.array.length < 2 ^ 52) (p : ℕ) :
    (t.fieldsFrom p).Pairwise fun e e' => e.1.rawEq e'.1 = false := by
  rw [fieldsFrom, List.pairwise_map]
  have hlt : (List.range' p (t.positions - p)).Pairwise (· < ·) := List.pairwise_lt_range' ..
  refine (hlt.filter _).imp_of_mem fun {i j} hi hj hij => Bool.eq_false_iff.mpr fun heq => ?_
  simp only [List.mem_filter, List.mem_range'_1, Bool.not_eq_true', Bool.eq_false_iff, Ne, Val.isNil_eq_true] at hi hj
  obtain ⟨hati, hlive⟩ := h.at_keyAt hlen (by omega) hi.2
  obtain ⟨hatj, -⟩ := h.at_keyAt hlen (by omega) hj.2
  exact hij.ne (hati.unique h hlive.ne_nil hatj heq)

theorem Inv.get_of_mem_fieldsFrom (h : t.Inv strings) (hlen : t.array.length < 2 ^ 52) {e : Val × Val}
    (he : e ∈ t.fieldsFrom p) : t.get e.1 strings = some e.2 ∧ e.2 ≠ .nil := by
  obtain ⟨i, -, hi, hv, rfl⟩ := mem_fieldsFrom.mp he
  obtain ⟨hat, hlive⟩ := h.at_keyAt hlen hi hv
  exact ⟨by rw [h.get_eq hlive, hat.lookup_eq h hlive], hv⟩

theorem Inv.exists_mem_fieldsFrom (h : t.Inv strings) (hlen : t.array.length < 2 ^ 52) {v : Val}
    (hget : t.get key strings = some v) (hv : v ≠ .nil) : ∃ e ∈ t.fieldsFrom 0, e.1.rawEq key = true := by
  have hlive : key.Live strings := by
    by_contra hnot
    rw [h.get_of_not_live hnot, Option.some.injEq] at hget
    exact hv hget.symm
  rw [h.get_eq hlive, Option.some.injEq] at hget
  subst hget
  obtain ⟨i, hat⟩ := exists_at hv
  have hval := hat.lookup_eq h hlive
  rw [hval] at hv
  have hi := hat.lt_positions h
  exact ⟨_, mem_fieldsFrom.mpr ⟨i, Nat.zero_le i, hi, hv, rfl⟩, (h.at_keyAt hlen hi hv).1.rawEq h hat⟩

end Table

/-! ### The turns -/

namespace RangeTurn

/-- The key and the value that are passed. -/
def entry (c : RangeTurn) : Val × Val := (argOf c.args 0, argOf c.args 1)

def called (c : RangeTurn) : Bool := c.limits.admits

end RangeTurn

/-- The object of the value, if it has one, has not been freed. -/
def Alive (gc : Gc) (v : Val) : Prop := ∀ o ∈ v.objRef, gc.heap.isValid o = true

/-- From each turn to the next one, nothing is freed that is still waiting to be passed. -/
def KeepsWaiting : List RangeTurn → Prop
  | c :: d :: turns =>
    (∀ e ∈ d :: turns, ∀ v ∈ [e.entry.1, e.entry.2], Alive c.gc v → Alive d.gc v) ∧ KeepsWaiting (d :: turns)
  | _ => True

/-- There has been one call for each field that has a value, and those of the array part up to the first nil came
    first. -/
structure VisitsEvery (t : Table) (strings : StringArena) (extraArgs : List Val) (calls : List RangeTurn) : Prop where
  args : ∀ c ∈ calls, c.args = c.entry.1 :: c.entry.2 :: extraArgs
  first : arrayPrefix 0 t.array <+: calls.map RangeTurn.entry
  once : calls.Pairwise fun c c' => c.entry.1.rawEq c'.entry.1 = false
  fields : ∀ c ∈ calls, t.get c.entry.1 strings = some c.entry.2 ∧ c.entry.2 ≠ .nil
  every : ∀ key v, t.get key strings = some v → v ≠ .nil → ∃ c ∈ calls, c.entry.1.rawEq key = true

/-- The first slot of the array part has a value, and so has the field with the number behind 1 as its key. -/
def HasFieldBehindOne (t : Table) (strings : StringArena) : Prop :=
  t.array.getD 0 .nil ≠ .nil ∧ ∃ v, t.get (.num nextAfterOne) strings = some v ∧ v ≠ .nil

/-- Where both have values, the field behind 1 is not visited. -/
theorem not_visitsEvery {t : Table} {strings : StringArena} {extraArgs : List Val} {calls : List RangeTurn}
    (hclash : HasFieldBehindOne t strings) (hcalls : ∀ c ∈ calls, c.entry ∈ t.visitedFields) :
    ¬ VisitsEvery t strings extraArgs calls := by
  obtain ⟨hone, v, hv, hnil⟩ := hclash
  intro hvisits
  obtain ⟨c, hc, heq⟩ := hvisits.every _ v hv hnil
  have hin := hcalls c hc
  rw [Table.visitedFields, List.mem_filter] at hin
  simp [eq_of_rawEq_nextAfterOne heq, Table.length_arrayPrefix_pos.mpr hone] at hin

theorem KeepsWaiting.alive : ∀ {turns : List RangeTurn}, KeepsWaiting turns → ∀ c, turns.head? = some c →
    ∀ d ∈ turns, ∀ v ∈ [d.entry.1, d.entry.2], Alive c.gc v → Alive d.gc v
  | [c], _, _, rfl, d, hd, v, _, hc => by
    rw [List.mem_singleton.mp hd]
    exact hc
  | c :: e :: turns, ⟨hstep, hrest⟩, _, rfl, d, hd, v, hv, hc => by
    rcases List.mem_cons.mp hd with rfl | hd
    · exact hc
    · exact hrest.alive e rfl d hd v hv (hstep d hd v hv hc)

namespace RangeM

variable {σ : Type} {host : RangeHost σ} {s s' : RangeState σ} {callback : Val} {args extraArgs : List Val}
  {turns : List RangeTurn} {r : GcRef .table} {t : Table}

/-- Each entry has one turn, whatever becomes of the call. -/
theorem callSecureRangeCallback_turn {res : Except LuaError Unit}
    (h : callSecureRangeCallback host callback args s = some (s', turns, res)) :
    turns = [⟨args, s.limits, s.tables.gc⟩] := by
  have hturn : ∀ {s₁ w res₁}, callFunction host callback args s = some (s₁, w, res₁) →
      w = [⟨args, s.limits, s.tables.gc⟩] := by
    intro s₁ w res₁ hcall
    rw [callFunction] at hcall
    split at hcall
    · cases hcall
      rfl
    · split at hcall
      · cases hcall
        rfl
      · obtain ⟨⟨s₂, res₂⟩, -, hcall⟩ := Option.map_eq_some_iff.mp hcall
        cases hcall
        rfl
  obtain ⟨⟨s₁, w, res₁⟩, hcall, h⟩ := Option.map_eq_some_iff.mp h
  cases res₁ with
  | ok u =>
    cases h
    exact hturn hcall
  | error e =>
    cases h
    exact hturn hcall

theorem callRange_turns : ∀ {entries : List (Val × Val)} {s : RangeState σ} {turns : List RangeTurn}
    {res : Except LuaError Unit}, callRange host callback extraArgs entries s = some (s', turns, res) →
      res = .ok () ∧ turns.map RangeTurn.args = entries.map (fun e => e.1 :: e.2 :: extraArgs) ∧
        ∀ c, turns.head? = some c → c.gc = s.tables.gc
  | [], s, turns, res, h => by
    cases h
    exact ⟨rfl, rfl, nofun⟩
  | (key, value) :: entries, s, turns, res, h => by
    rw [callRange] at h
    rcases Act.bind_cases h with ⟨e, h, -⟩ | ⟨s₁, w₁, u, w₂, h₁, h₂⟩
    · obtain ⟨⟨s₁, w, res₁⟩, -, h⟩ := Option.map_eq_some_iff.mp h
      cases h
    · obtain ⟨⟨s₂, w, res₂⟩, hcall, hdrop⟩ := Option.map_eq_some_iff.mp h₁
      cases hdrop
      have hw := callSecureRangeCallback_turn hcall
      obtain ⟨hres, hargs, -⟩ := callRange_turns h₂
      have hturns : turns = w₁ ++ w₂ := by
        change Act.andThen _ _ s = _ at h
        rw [Act.andThen, h₁] at h
        simp only [h₂, Option.map_some, Option.some.injEq, Prod.mk.injEq] at h
        exact h.2.1.symm
      rw [hturns, hw]
      refine ⟨hres, by simp [hargs], ?_⟩
      rintro c hc
      cases hc
      rfl

/-- The entries that are listed. -/
theorem collectSecureRangeEntries_eq {secure : Bool} {x : SecretTables} (hget : x.gc.heap.get r = some t)
    (h : t.Inv x.gc.heap.strings) (hlen : t.array.length < 2 ^ 52)
    (hopen : SecretM.checkTableAccess secure r none x = some (x, [], .ok ())) :
    collectSecureRangeEntries secure r x = some (x, [], .ok t.visitedFields) := by
  have hread : SecretM.read r ⟨"secureexecuterange table missing"⟩ x = some (x, [], .ok t) := by
    rw [SecretM.read, Act.get_bind, hget]
    rfl
  have hrest := h.remainingEntries_eq hlen (arrayPrefix 0 t.array).length (t.positions + 1) usizeMax .nil rfl
    (p := 0) rfl (by omega)
  rw [collectSecureRangeEntries, Act.bind_of_ok hopen, Act.bind_of_ok hread]
  refine (Act.bind_of_ok (by rw [Act.attempt, hrest]; rfl) _).trans ?_
  rw [Act.pure_apply, h.entries_eq hlen]

/-- The turns are those of the entries that are listed. -/
theorem secureexecuterange_turns {f : GcRef .closure} {res : Except LuaError Unit}
    (hget : s.tables.gc.heap.get r = some t) (h : t.Inv s.tables.gc.heap.strings) (hlen : t.array.length < 2 ^ 52)
    (hopen : SecretM.checkTableAccess (host.secure s.host) r none s.tables = some (s.tables, [], .ok ()))
    (hrun : secureexecuterange host (.table r :: .function f :: extraArgs) s = some (s', turns, res)) :
    res = .ok () ∧
    turns.map RangeTurn.args = t.visitedFields.map (fun e => e.1 :: e.2 :: extraArgs) ∧
    ∀ c, turns.head? = some c → c.gc = s.tables.gc := by
  have hcollect : onTables host (fun secure => collectSecureRangeEntries secure r) s =
      some (s, [], .ok t.visitedFields) := by
    rw [onTables, collectSecureRangeEntries_eq hget h hlen hopen]
    rfl
  change (onTables host (fun secure => collectSecureRangeEntries secure r) >>=
    callRange host (.function f) extraArgs) s = _ at hrun
  rw [Act.bind_of_ok hcollect] at hrun
  exact callRange_turns hrun

theorem map_entry {entries : List (Val × Val)}
    (hargs : turns.map RangeTurn.args = entries.map (fun e => e.1 :: e.2 :: extraArgs)) :
    turns.map RangeTurn.entry = entries := by
  have hmap := congrArg (List.map fun args => (argOf args 0, argOf args 1)) hargs
  rw [List.map_map, List.map_map] at hmap
  exact hmap.trans (List.map_id' ..)

theorem mem_visitedFields (hargs : turns.map RangeTurn.args = t.visitedFields.map (fun e => e.1 :: e.2 :: extraArgs)) :
    ∀ c ∈ turns, c.entry ∈ t.visitedFields :=
  fun _ hc => map_entry hargs ▸ List.mem_map_of_mem hc

/-- Callbacks that return at once. -/
def idleHost : RangeHost Unit where
  secure _ := true
  callback _ _ s := some (s, .ok ())

/-- A run with the only table of the heap. -/
def rangeRun (t : Table) : Option (RangeState Unit × List RangeTurn × Except LuaError Unit) :=
  secureexecuterange idleHost [.table ⟨0, 0⟩, .function ⟨0, 0⟩] ⟨SecretTables.oneTable t 0 false, {}, ()⟩

def oneItem : Table := { array := [.bool true] }

theorem inv_oneItem : oneItem.Inv {} :=
  ⟨NodesInv.replicate _ 0, .inl ⟨rfl, rfl⟩, Nat.le_refl 0, fun _ _ _ h => by (cases h), by decide,
    fun _ h => by (cases h)⟩

/-- `{true, [1 + 2^-52] = true}`. -/
def twoItems : Table := ((oneItem.rawSet (.num nextAfterOne) (.bool true) {}).map Prod.fst).getD {}

theorem inv_twoItems : twoItems.Inv {} := by
  have hstale : (Val.num nextAfterOne).isStale {} = false := rfl
  obtain ⟨r, hr, hout⟩ := inv_oneItem.rawSet_spec ⟨by decide, by decide⟩ hstale (.bool true)
  rw [twoItems, hr]
  exact hout.inv

end RangeM

end Rilua.Vm
