import Rilua.Vm.SecretWrapping
import Rilua.Vm.TableSequence

/-! `table.insert` and `table.remove` (`stdlib/table.rs`) on a table that is a sequence. The shifts move one item after
    the other through reads and stores, and the table may be rehashed in between. Only the first store can add a key,
    so only it can be refused. -/

namespace Rilua.Vm

open Lib Gc Table

namespace SecretM

/-! ### The functions -/

def checkTable (secure : Bool) (name : String) (v : Val) : SecretM (GcRef .table) :=
  match v with
  | .table r => do
    checkTableAccess secure r none
    pure r
  | _ => Act.fail (badArgument name 1 "table expected")

/-- The length of a table. -/
def tableLen (secure : Bool) (r : GcRef .table) : SecretM ℤ := do
  checkTableAccess secure r none
  let s ← Act.get
  match s.gc.heap.get r with
  | some t => do
    let n ← Act.ofOption (Table.len t s.gc.heap.strings)
    pure n
  | none => pure 0

def numberArg (name : String) (n : ℕ) (v : Val) : SecretM ℤ :=
  match v with
  | .num x => pure x.toI64
  | _ => Act.fail (badArgument name n "number expected")

/-- Moves the element below `idx` up to `idx`, and so on, `n` times. -/
def shiftElementsUp (secure : Bool) (r : GcRef .table) : ℕ → ℤ → SecretM Unit
  | 0, _ => pure ()
  | n + 1, idx => do
    let v ← getRaw secure r (idx - 1)
    setRaw secure r idx v
    shiftElementsUp secure r n (idx - 1)

/-- `table.insert`. -/
def tabInsert (secure : Bool) (args : List Val) : SecretM Unit := do
  let r ← checkTable secure "insert" (argOf args 0)
  let e := (← tableLen secure r) + 1
  match args.length with
  | 2 =>
    setRaw secure r e (argOf args 1)
    barrierBack r
  | 3 => do
    let pos ← numberArg "insert" 2 (argOf args 1)
    let top := if pos > e then pos else e
    shiftElementsUp secure r (top - pos).toNat top
    setRaw secure r pos (argOf args 2)
    barrierBack r
  | _ => Act.fail ⟨"wrong number of arguments to 'insert'"⟩

/-- Moves the element above `p` down to `p`, and so on, `n` times. -/
def shiftElementsDown (secure : Bool) (r : GcRef .table) : ℕ → ℤ → SecretM Unit
  | 0, _ => pure ()
  | n + 1, p => do
    let v ← getRaw secure r (p + 1)
    setRaw secure r p v
    shiftElementsDown secure r n (p + 1)

/-- `table.remove`. -/
def tabRemove (secure : Bool) (args : List Val) : SecretM (Option Val) := do
  let r ← checkTable secure "remove" (argOf args 0)
  let e ← tableLen secure r
  if e = 0 then pure none
  else
    let pos ← match argOf args 1 with
      | .nil => pure e
      | v => numberArg "remove" 2 v
    let removed ← getRaw secure r pos
    shiftElementsDown secure r (e - pos).toNat pos
    setRaw secure r e .nil
    barrierBack r
    pure (some removed)

end SecretM

/-! ### Reads and stores -/

namespace SecretTables

/-- The caller may read and store items of the table `t` at `r`, and they are stored as they are. -/
structure Usable (secure : Bool) (r : GcRef .table) (s : SecretTables) (t : Table) : Prop where
  get_eq : s.gc.heap.get r = some t
  access : ¬ (s.securityFlags r &&& disallowTaintedAccess ≠ 0 ∧ secure = false)
  plain : s.tableWrapsContents r = false
  inv : t.Inv s.gc.heap.strings
  small : t.Small
  readOnly : t.readOnly = false

variable {secure : Bool} {r : GcRef .table} {s s' : SecretTables} {t t' : Table} {v : Val} {i n : ℕ}

theorem Usable.checkTableAccess (h : Usable secure r s t) :
    SecretM.checkTableAccess secure r none s = some (s, [], .ok ()) := by
  rw [SecretM.checkTableAccess, Act.bind_of_ok (read_ok h.get_eq), Act.get_bind, if_neg h.access, if_neg (by simp)]
  rfl

theorem Usable.getRaw (h : Usable secure r s t) (hi : i < 2 ^ 53) :
    SecretM.getRaw secure r i s = some (s, [], .ok (t.item i)) := by
  have hkey : numberToIntKey (F64.ofInt i) = some (i : ℤ) := intKey_num hi
  rw [SecretM.getRaw, Act.bind_of_ok h.checkTableAccess, Act.get_bind, h.get_eq]
  simp only [h.inv.getInt_eq hkey]
  rfl

/-- Another table at `r`. -/
theorem Usable.withTable (h : Usable secure r s t) (hinv : t'.Inv s.gc.heap.strings) (hsmall : t'.Small)
    (hro : t'.readOnly = false) : Usable secure r (s.withTable r t') t' := by
  have hwrapping := wrapping_withTable s r t'
  have hget := get_withTable h.get_eq t'
  refine ⟨hget, ?_, ?_, by rw [hwrapping.strings]; exact hinv, hsmall, hro⟩
  · rw [hwrapping.securityFlags]
    exact h.access
  · rw [← h.plain, tableWrapsContents, tableWrapsContents, hwrapping.policy, hwrapping.securityFlags, hget, h.get_eq]
    rfl

/-- A store is done, or refused because the table is full. -/
theorem Usable.setRaw (h : Usable secure r s t) (i : ℕ) (v : Val) :
    ∃ t', Usable secure r (s.withTable r t') t' ∧
      ∃ res, SecretM.setRaw secure r i v s = some (s.withTable r t', [], res) ∧
        SetOutcome s.gc.heap.strings t (.num (F64.ofInt i)) v (t', res) ∧
        (res = .ok () ∨ ∃ e, res = .error e ∧ t.Full (.num (F64.ofInt i)) v e) := by
  obtain ⟨t', res, hset, hout, hro, hres⟩ := h.inv.rawSet_cases h.small h.readOnly (live_ofInt i _) v
  refine ⟨t', h.withTable hout.inv hout.small hro, res, ?_, hout, hres⟩
  have hwrap : SecretM.wrapTableValue r v s = some (s, [], .ok v) := by
    rw [SecretM.wrapTableValue, Act.get_bind, h.plain]
    rfl
  rw [SecretM.setRaw, Act.bind_of_ok h.checkTableAccess, Act.bind_of_ok hwrap]
  simp only [SecretM.rawSet, SecretM.update, Act.attempt, h.get_eq, hset, Option.map_some]
  rfl

/-- From `s` with the table `t` at `r`, `x` returns `a`, and leaves a table with `f` at the integers from 1 on. -/
structure Leaves {α : Type} (secure : Bool) (r : GcRef .table) (s : SecretTables) (t : Table) (x : SecretM α) (a : α)
    (f : ℕ → Val) (s' : SecretTables) (t' : Table) : Prop where
  run : x s = some (s', [], .ok a)
  usable : Usable secure r s' t'
  wrapping : Wrapping r s s'
  becomes : Becomes s.gc.heap.strings t t' f

variable {α β : Type} {x : SecretM α} {y : α → SecretM β} {a : α} {b : β} {f g : ℕ → Val} {s'' : SecretTables}
  {t'' : Table}

theorem Leaves.bind (h : Leaves secure r s t x a f s' t') (h' : Leaves secure r s' t' (y a) b g s'' t'') :
    Leaves secure r s t (x >>= y) b g s'' t'' where
  run := by rw [Act.bind_of_ok h.run, h'.run]
  usable := h'.usable
  wrapping := h.wrapping.trans h'.wrapping
  becomes := h.becomes.trans (h.wrapping.strings ▸ h'.becomes)

theorem Leaves.seq {z : SecretM β} (h : Leaves secure r s t x a f s' t') (h' : Leaves secure r s' t' z b g s'' t'') :
    Leaves secure r s t (x >>= fun _ => z) b g s'' t'' :=
  h.bind (y := fun _ => z) h'

theorem Leaves.congr (h : Leaves secure r s t x a f s' t') (hfg : ∀ i, 0 < i → f i = g i) :
    Leaves secure r s t x a g s' t' :=
  ⟨h.run, h.usable, h.wrapping, h.becomes.congr hfg⟩

theorem Usable.pure (h : Usable secure r s t) (a : α) : Leaves secure r s t (pure a) a (fun i => t.item i) s t where
  run := rfl
  usable := h
  wrapping := .refl r s
  becomes := .refl _ t

/-- What is read does not change the table. -/
theorem Leaves.reads (hx : x s = some (s, [], .ok a))
    (h' : Leaves secure r s t (y a) b f s' t') : Leaves secure r s t (x >>= y) b f s' t' :=
  ⟨by rw [Act.bind_of_ok hx, h'.run], h'.usable, h'.wrapping, h'.becomes⟩

theorem Usable.barrierBack (h : Usable secure r s t) :
    Leaves secure r s t (SecretM.barrierBack r) () (fun i => t.item i) { s with gc := s.gc.barrierBack r } t := by
  have hwrapping := wrapping_barrierBack s r
  have hget : (s.gc.barrierBack r).heap.get r = some t := (get_barrierBack ..).trans h.get_eq
  refine ⟨rfl, ⟨hget, h.access, ?_, ?_, h.small, h.readOnly⟩, hwrapping, .refl _ t⟩
  · have hplain := h.plain
    rw [tableWrapsContents, h.get_eq] at hplain
    rw [tableWrapsContents, hget]
    exact hplain
  · rw [hwrapping.strings]
    exact h.inv

/-- A store to an integer that has a value, and a store of nil, are done. -/
theorem Usable.setItem (h : Usable secure r s t) (h0 : 0 < i) (hi : i < 2 ^ 53) (hv : t.item i ≠ .nil ∨ v = .nil) :
    ∃ s' t', Leaves secure r s t (SecretM.setRaw secure r i v) () (Function.update (fun j => t.item j) i v) s' t' := by
  obtain ⟨t', husable, res, hrun, hout, rfl | ⟨e, rfl, hfull⟩⟩ := h.setRaw i v
  · exact ⟨_, t', hrun, husable, wrapping_withTable s r t', hout.becomes h0 hi⟩
  · rcases hv with hv | hv
    · exact absurd hfull.absent hv
    · exact absurd hv hfull.value_ne

/-! ### Shifts -/

/-- Items move up by one where all the places they move to have values. By induction on how many they are. -/
theorem Usable.shiftElementsUp : ∀ (n idx : ℕ) {s : SecretTables} {t : Table}, Usable secure r s t → n < idx →
    idx < 2 ^ 53 → (∀ j, idx - n < j → j ≤ idx → t.item j ≠ .nil) →
    ∃ s' t', Leaves secure r s t (SecretM.shiftElementsUp secure r n idx) ()
      (fun j => if idx - n < j ∧ j ≤ idx then t.item (j - 1 : ℕ) else t.item j) s' t'
  | 0, idx, s, t, h, _, _, _ => ⟨s, t, (h.pure ()).congr fun i _ => (if_neg (by omega)).symm⟩
  | n + 1, idx, s, t, h, hlt, hidx, hitems => by
    have hcast : (idx : ℤ) - 1 = (idx - 1 : ℕ) := by omega
    obtain ⟨s₁, t₁, h₁⟩ := h.setItem (v := t.item (idx - 1 : ℕ)) (by omega) hidx (.inl (hitems idx (by omega) le_rfl))
    obtain ⟨s₂, t₂, h₂⟩ := h₁.usable.shiftElementsUp n (idx - 1) (by omega) (by omega) fun j hj hle => by
      rw [h₁.becomes.item_eq j (by omega), Function.update_of_ne (by omega)]
      exact hitems j (by omega) (by omega)
    rw [← hcast] at h₂
    have hread : SecretM.getRaw secure r ((idx : ℤ) - 1) s = some (s, [], .ok (t.item (idx - 1 : ℕ))) := by
      rw [hcast]
      exact h.getRaw (by omega)
    refine ⟨s₂, t₂, (Leaves.reads hread (h₁.seq h₂)).congr fun j hj => ?_⟩
    by_cases hmoved : idx - 1 - n < j ∧ j ≤ idx - 1
    · rw [if_pos hmoved, if_pos (by omega), h₁.becomes.item_eq (j - 1) (by omega), Function.update_of_ne (by omega)]
    · rw [if_neg hmoved, h₁.becomes.item_eq j hj]
      by_cases hj' : j = idx
      · rw [hj', Function.update_self, if_pos (by omega)]
      · rw [Function.update_of_ne hj', if_neg (by omega)]

/-- Items move down by one where all the places they move to have values. -/
theorem Usable.shiftElementsDown : ∀ (n p : ℕ) {s : SecretTables} {t : Table}, Usable secure r s t → 0 < p →
    p + n < 2 ^ 53 → (∀ j, p ≤ j → j < p + n → t.item j ≠ .nil) →
    ∃ s' t', Leaves secure r s t (SecretM.shiftElementsDown secure r n p) ()
      (fun j => if p ≤ j ∧ j < p + n then t.item (j + 1 : ℕ) else t.item j) s' t'
  | 0, p, s, t, h, _, _, _ => ⟨s, t, (h.pure ()).congr fun i _ => (if_neg (by omega)).symm⟩
  | n + 1, p, s, t, h, hp, hlt, hitems => by
    obtain ⟨s₁, t₁, h₁⟩ := h.setItem (v := t.item (p + 1 : ℕ)) hp (by omega) (.inl (hitems p le_rfl (by omega)))
    obtain ⟨s₂, t₂, h₂⟩ := h₁.usable.shiftElementsDown n (p + 1) (by omega) (by omega) fun j hj hle => by
      rw [h₁.becomes.item_eq j (by omega), Function.update_of_ne (by omega)]
      exact hitems j (by omega) (by omega)
    have hread := h.getRaw (i := p + 1) (by omega)
    refine ⟨s₂, t₂, (Leaves.reads hread (h₁.seq h₂)).congr fun j hj => ?_⟩
    by_cases hmoved : p + 1 ≤ j ∧ j < p + 1 + n
    · rw [if_pos hmoved, if_pos (by omega), h₁.becomes.item_eq (j + 1) (by omega), Function.update_of_ne (by omega)]
    · rw [if_neg hmoved, h₁.becomes.item_eq j hj]
      by_cases hj' : j = p
      · rw [hj', Function.update_self, if_pos (by omega)]
      · rw [Function.update_of_ne hj', if_neg (by omega)]

/-! ### Insertion and removal -/

theorem Usable.checkTable (h : Usable secure r s t) (name : String) :
    SecretM.checkTable secure name (.table r) s = some (s, [], .ok r) := by
  rw [SecretM.checkTable, Act.bind_of_ok h.checkTableAccess]
  rfl

theorem Usable.tableLen (h : Usable secure r s t) (hseq : t.IsSequence n) :
    SecretM.tableLen secure r s = some (s, [], .ok (n : ℤ)) := by
  rw [SecretM.tableLen, Act.bind_of_ok h.checkTableAccess, Act.get_bind, h.get_eq]
  simp only [hseq.len h.inv h.small]
  rfl

/-- The refusal of an insertion: the table has no room, and every value is what it was. -/
structure Refused {α : Type} (secure : Bool) (r : GcRef .table) (s : SecretTables) (t : Table) (x : SecretM α)
    (s' : SecretTables) (t' : Table) : Prop where
  run : x s = some (s', [], .error ⟨"table overflow"⟩)
  usable : Usable secure r s' t'
  wrapping : Wrapping r s s'
  full : maxASize ≤ t.array.length + t.nodes.length
  unchanged : ∀ k, k.Live s.gc.heap.strings → t'.lookup k = t.lookup k

/-- The items and then the new one behind the last, moved to its place. -/
def inserted (t : Table) (pos : ℕ) (v : Val) (j : ℕ) : Val :=
  if j < pos then t.item j else if j = pos then v else t.item (j - 1 : ℕ)

theorem Refused.bind (h : Refused secure r s t x s' t') (y : α → SecretM β) : Refused secure r s t (x >>= y) s' t' :=
  ⟨Act.bind_of_error h.run y, h.usable, h.wrapping, h.full, h.unchanged⟩

/-- A read before a refused store. -/
theorem Refused.reads (hx : x s = some (s, [], .ok a))
    (h' : Refused secure r s t (y a) s' t') : Refused secure r s t (x >>= y) s' t' :=
  ⟨by rw [Act.bind_of_ok hx, h'.run], h'.usable, h'.wrapping, h'.full, h'.unchanged⟩

/-- A store to any integer is done or refused. -/
theorem Usable.setNew (h : Usable secure r s t) (h0 : 0 < i) (hi : i < 2 ^ 53) (v : Val) :
    ∃ s' t', Leaves secure r s t (SecretM.setRaw secure r i v) () (Function.update (fun j => t.item j) i v) s' t' ∨
      Refused secure r s t (SecretM.setRaw secure r i v) s' t' := by
  obtain ⟨t', husable, res, hrun, hout, rfl | ⟨e, rfl, hfull⟩⟩ := h.setRaw i v
  · exact ⟨_, t', .inl ⟨hrun, husable, wrapping_withTable s r t', hout.becomes h0 hi⟩⟩
  · refine ⟨_, t', .inr ⟨?_, husable, wrapping_withTable s r t', hfull.slots, hout.unchanged⟩⟩
    rw [hrun, hfull.error_eq]

/-- A store, and then the collector is told. -/
theorem Leaves.told (h : Leaves secure r s t (SecretM.setRaw secure r i v) () f s' t') :
    Leaves secure r s t (do
      SecretM.setRaw secure r i v
      SecretM.barrierBack r) () f { s' with gc := s'.gc.barrierBack r } t' :=
  (h.seq h.usable.barrierBack).congr h.becomes.item_eq

/-- The part of `table.insert` that moves items and stores. -/
def insertAt (secure : Bool) (r : GcRef .table) (count : ℕ) (top pos : ℤ) (v : Val) : SecretM Unit := do
  SecretM.shiftElementsUp secure r count top
  SecretM.setRaw secure r pos v
  SecretM.barrierBack r

theorem Usable.insertAt {pos : ℕ} (h : Usable secure r s t) (hseq : t.IsSequence n) (h0 : 0 < pos) (hpos : pos ≤ n + 1)
    (v : Val) : ∃ s' t',
      Leaves secure r s t (insertAt secure r (n + 1 - pos) (n + 1 : ℕ) pos v) () (inserted t pos v) s' t' ∨
        Refused secure r s t (SecretTables.insertAt secure r (n + 1 - pos) (n + 1 : ℕ) pos v) s' t' := by
  have hn := hseq.lt h.inv h.small
  rw [SecretTables.insertAt]
  rcases Nat.lt_or_eq_of_le hpos with hlt | rfl
  · -- the last item moves to a new place, and then there is a place for each other one
    obtain ⟨m, hm⟩ : ∃ m, n + 1 - pos = m + 1 := ⟨n - pos, by omega⟩
    have hcast : ((n + 1 : ℕ) : ℤ) - 1 = n := by omega
    have hread : SecretM.getRaw secure r (((n + 1 : ℕ) : ℤ) - 1) s = some (s, [], .ok (t.item n)) := by
      rw [hcast]
      exact h.getRaw (by omega)
    rw [hm, SecretM.shiftElementsUp]
    obtain ⟨s₁, t₁, h₁ | h₁⟩ := h.setNew (Nat.succ_pos n) (by omega) (t.item n)
    · have hitem : ∀ j : ℕ, 0 < j → j ≤ n → t₁.item j = t.item j := fun j hj hle => by
        rw [h₁.becomes.item_eq j hj, Function.update_of_ne (by omega)]
      have hpresent : ∀ j : ℕ, 0 < j → j ≤ n → t₁.item j ≠ .nil := fun j hj hle => by
        rw [hitem j hj hle]
        exact (hseq j hj).mpr hle
      obtain ⟨s₂, t₂, h₂⟩ := h₁.usable.shiftElementsUp m n (by omega) (by omega) fun j hj hle =>
        hpresent j (by omega) hle
      obtain ⟨s₃, t₃, h₃⟩ := h₂.usable.setItem (v := v) h0 (by omega) (.inl (by
        rw [h₂.becomes.item_eq pos h0, if_neg (by omega)]
        exact hpresent pos h0 (by omega)))
      rw [← hcast] at h₂
      refine ⟨_, t₃, .inl (((Leaves.reads hread (h₁.seq h₂)).seq h₃.told).congr fun j hj => ?_)⟩
      rw [inserted]
      by_cases hj' : j = pos
      · rw [hj', Function.update_self, if_neg (lt_irrefl pos), if_pos rfl]
      rw [Function.update_of_ne hj', h₂.becomes.item_eq j hj]
      by_cases hmoved : n - m < j ∧ j ≤ n
      · rw [if_pos hmoved, if_neg (by omega), if_neg hj', hitem (j - 1) (by omega) (by omega)]
      rw [if_neg hmoved, h₁.becomes.item_eq j hj]
      by_cases hlast : j = n + 1
      · rw [hlast, Function.update_self, if_neg (by omega), if_neg (by omega)]
        rfl
      rw [Function.update_of_ne hlast]
      by_cases hbefore : j < pos
      · rw [if_pos hbefore]
      · rw [if_neg hbefore, if_neg hj', hseq.item_eq_nil hj (by omega), hseq.item_eq_nil (by omega) (by omega)]
    · exact ⟨s₁, t₁, .inr ((Refused.reads hread (h₁.bind _)).bind _)⟩
  · -- there is nothing to move
    rw [Nat.sub_self]
    obtain ⟨s₁, t₁, h₁ | h₁⟩ := h.setNew (Nat.succ_pos n) (by omega) v
    · refine ⟨_, t₁, .inl (((h.pure ()).seq h₁.told).congr fun j hj => ?_)⟩
      rw [inserted]
      by_cases hlast : j = n + 1
      · rw [hlast, Function.update_self, if_neg (lt_irrefl _), if_pos rfl]
      rw [Function.update_of_ne hlast]
      by_cases hbefore : j < n + 1
      · rw [if_pos hbefore]
      · rw [if_neg hbefore, if_neg hlast, hseq.item_eq_nil hj (by omega), hseq.item_eq_nil (by omega) (by omega)]
    · exact ⟨s₁, t₁, .inr (Refused.reads (x := SecretM.shiftElementsUp secure r 0 _) rfl (h₁.bind _))⟩

/-- `table.insert` at a position of the sequence or behind it. -/
theorem Usable.tabInsert_eq {p : F64} {pos : ℕ} (h : Usable secure r s t) (hseq : t.IsSequence n) (hp : p.toI64 = pos)
    (hpos : pos ≤ n + 1) (v : Val) : SecretM.tabInsert secure [.table r, .num p, v] s =
      SecretTables.insertAt secure r (n + 1 - pos) (n + 1 : ℕ) pos v s := by
  have hcount : ((n : ℤ) + 1 - pos).toNat = n + 1 - pos := by omega
  have hargs : argOf [.table r, .num p, v] 0 = .table r := rfl
  have hnumber : SecretM.numberArg "insert" 2 (argOf [.table r, .num p, v] 1) s = some (s, [], .ok (pos : ℤ)) := by
    rw [← hp]
    rfl
  rw [SecretM.tabInsert, hargs, Act.bind_of_ok (h.checkTable _), Act.bind_of_ok (h.tableLen hseq)]
  change (SecretM.numberArg "insert" 2 (argOf [.table r, .num p, v] 1) >>= _) s = _
  rw [Act.bind_of_ok hnumber, if_neg (by omega), hcount]
  rfl

/-- The items without the one at `pos`. -/
def removed (t : Table) (pos j : ℕ) : Val := if j < pos then t.item j else t.item (j + 1 : ℕ)

/-- `table.remove` at a position of the sequence. -/
theorem Usable.tabRemove {p : F64} {pos : ℕ} (h : Usable secure r s t) (hseq : t.IsSequence n) (hp : p.toI64 = pos)
    (h0 : 0 < pos) (hpos : pos ≤ n) : ∃ s' t',
      Leaves secure r s t (SecretM.tabRemove secure [.table r, .num p]) (some (t.item pos)) (removed t pos) s' t' := by
  have hn := hseq.lt h.inv h.small
  have hcount : ((n : ℤ) - pos).toNat = n - pos := by omega
  have hargs : argOf [.table r, .num p] 0 = .table r := rfl
  have hnumber : SecretM.numberArg "remove" 2 (.num p) s = some (s, [], .ok (pos : ℤ)) := by
    rw [← hp]
    rfl
  have hread : SecretM.getRaw secure r pos s = some (s, [], .ok (t.item pos)) := h.getRaw (by omega)
  obtain ⟨s₁, t₁, h₁⟩ := h.shiftElementsDown (n - pos) pos h0 (by omega) fun j hj hlt =>
    (hseq j (by omega)).mpr (by omega)
  obtain ⟨s₂, t₂, h₂⟩ := h₁.usable.setItem (v := .nil) (i := n) (by omega) (by omega) (.inr rfl)
  have h₃ := h₂.usable.barrierBack
  have hall := h₁.seq (h₂.seq (h₃.seq (h₃.usable.pure (some (t.item pos)))))
  refine ⟨_, t₂, ⟨?_, hall.usable, hall.wrapping, hall.becomes.congr fun j hj => ?_⟩⟩
  · rw [SecretM.tabRemove, hargs, Act.bind_of_ok (h.checkTable _), Act.bind_of_ok (h.tableLen hseq), if_neg (by omega)]
    change (SecretM.numberArg "remove" 2 (.num p) >>= _) s = _
    rw [Act.bind_of_ok hnumber]
    dsimp only
    rw [hcount, Act.bind_of_ok hread]
    exact hall.run
  · rw [h₂.becomes.item_eq j hj, removed]
    by_cases hlast : j = n
    · rw [hlast, Function.update_self, if_neg (by omega), hseq.item_eq_nil (by omega) (by omega)]
    rw [Function.update_of_ne hlast, h₁.becomes.item_eq j hj]
    by_cases hmoved : pos ≤ j ∧ j < pos + (n - pos)
    · rw [if_pos hmoved, if_neg (by omega)]
    · rw [if_neg hmoved]
      by_cases hbefore : j < pos
      · rw [if_pos hbefore]
      · rw [if_neg hbefore, hseq.item_eq_nil hj (by omega), hseq.item_eq_nil (by omega) (by omega)]

/-! ### As lists -/

theorem getElem?_items (t : Table) (n j : ℕ) : (t.items n)[j]? = if j < n then some (t.item (j + 1 : ℕ)) else none := by
  rw [items, List.getElem?_map]
  split
  · next h => rw [List.getElem?_range h, Option.map_some]
  · next h => rw [List.getElem?_eq_none (by simpa using h), Option.map_none]

theorem length_items (t : Table) (n : ℕ) : (t.items n).length = n := by simp [items]

/-- The items after an insertion. -/
theorem items_inserted {pos : ℕ} {v : Val} (hseq : t.IsSequence n) (h0 : 0 < pos) (hpos : pos ≤ n + 1) (hv : v ≠ .nil)
    (h : ∀ j : ℕ, 0 < j → t'.item j = inserted t pos v j) :
    t'.IsSequence (n + 1) ∧ t'.items (n + 1) = (t.items n).insertIdx (pos - 1) v := by
  constructor
  · intro j hj
    rw [h j hj, inserted]
    split
    · rw [hseq j hj]
      omega
    split
    · exact iff_of_true hv (by omega)
    · rw [hseq (j - 1) (by omega)]
      omega
  · refine List.ext_getElem? fun j => ?_
    rw [getElem?_items, h (j + 1) (Nat.succ_pos j), inserted, List.getElem?_insertIdx, length_items, getElem?_items]
    rcases lt_trichotomy j (pos - 1) with hlt | rfl | hgt
    · rw [if_pos (by omega), if_pos (by omega), if_pos hlt, if_pos (by omega)]
    · rw [if_pos (by omega), if_neg (by omega), if_pos (by omega), if_neg (lt_irrefl _), if_pos rfl, if_pos (by omega)]
    · rw [if_neg (not_lt.mpr hgt.le), if_neg hgt.ne', getElem?_items]
      by_cases hj : j < n + 1
      · rw [if_pos hj, if_neg (by omega), if_neg (by omega), if_pos (by omega), Nat.sub_add_cancel (by omega)]
        rfl
      · rw [if_neg hj, if_neg (by omega)]

/-- The items after a removal. -/
theorem items_removed {pos : ℕ} (hseq : t.IsSequence n) (h0 : 0 < pos) (hpos : pos ≤ n)
    (h : ∀ j : ℕ, 0 < j → t'.item j = removed t pos j) :
    t'.IsSequence (n - 1) ∧ t'.items (n - 1) = (t.items n).eraseIdx (pos - 1) := by
  constructor
  · intro j hj
    rw [h j hj, removed]
    split
    · rw [hseq j hj]
      omega
    · rw [hseq (j + 1) (by omega)]
      omega
  · refine List.ext_getElem? fun j => ?_
    rw [getElem?_items, h (j + 1) (Nat.succ_pos j), removed, List.getElem?_eraseIdx, getElem?_items, getElem?_items]
    by_cases hj : j < pos - 1
    · rw [if_pos hj, if_pos (by omega), if_pos (by omega), if_pos (by omega)]
    · have hafter : ¬ j + 1 < pos := by omega
      rw [if_neg hj, if_neg hafter]
      by_cases hn : j < n - 1
      · rw [if_pos hn, if_pos (by omega)]
      · rw [if_neg hn, if_neg (by omega)]

/-- The keys of the table that are no positive integers have the values that they have in `t`. -/
def SameElsewhere (s : SecretTables) (t t' : Table) : Prop :=
  ∀ k, k.Live s.gc.heap.strings → NotPositive k → t'.lookup k = t.lookup k

/-- A heap with one table. -/
def oneTable (t : Table) (flags : UInt8) (policy : Bool) : SecretTables where
  gc := ((({} : Gc).allocTable t).map Prod.fst).getD {}
  securityFlags _ := flags
  hasSecretContentsPolicy := policy

theorem get_oneTable (t : Table) (flags : UInt8) (policy : Bool) :
    (oneTable t flags policy).gc.heap.get (⟨0, 0⟩ : GcRef .table) = some t := rfl

theorem isSequence_empty (readOnly : Bool) : Table.IsSequence { readOnly } 0 := by
  intro i hi
  have hnil : Table.item { readOnly } i = .nil := by
    rw [item, lookup]
    cases hslot : Table.slot { readOnly } (.num (F64.ofInt i)) <;> rfl
  rw [hnil]
  exact ⟨fun h => absurd rfl h, fun h => by omega⟩

theorem usable_oneTable : Usable true ⟨0, 0⟩ (oneTable {} 0 false) {} where
  get_eq := rfl
  access := by simp
  plain := rfl
  inv := inv_new _
  small := small_new
  readOnly := rfl

end SecretTables

end Rilua.Vm
