import Rilua.Lib.Run
import Rilua.Vm.TableRehash

/-! A table is a finite map. `raw_set` either succeeds and changes the value of its key only, or fails and
    changes no value, whatever it did to the layout; over a run of assignments, lookups and collections
    of strings, `get` is the value of the last assignment that succeeded. -/

namespace Rilua.Vm

open Lib Gc

theorem Val.isStale_congr {a b : Val} {strings : StringArena} (h : a.rawEq b = true) :
    a.isStale strings = b.isStale strings := by
  cases a <;> cases b <;> simp only [rawEq, Bool.false_eq_true, beq_iff_eq] at h
  case str.str => rw [h]
  all_goals rfl

namespace Table

variable {strings : StringArena} {t t' : Table} {key value : Val}

/-! ### One assignment -/

/-- The outcome `r` of assigning `value` to `key` in `t`: the table is still sound and not too long, and each value is the assigned one, or the old one. -/
structure SetOutcome {α : Type} (strings : StringArena) (t : Table) (key value : Val)
    (r : TableResult α) : Prop where
  inv : r.1.Inv strings
  small : r.1.Small
  lookup_eq : ∀ k, k.Live strings →
    r.1.lookup k = if r.2.isOk ∧ key.rawEq k = true then value else t.lookup k

theorem SetOutcome.of_error {α : Type} {e : LuaError} (h : t'.Inv strings) (hsmall : t'.Small)
    (hlookup : ∀ k, k.Live strings → t'.lookup k = t.lookup k) :
    SetOutcome strings t key value ((t', .error e) : TableResult α) :=
  ⟨h, hsmall, fun k hk => by rw [hlookup k hk]; exact (if_neg (by simp [Except.isOk, Except.toBool])).symm⟩

theorem SetOutcome.of_ok {α : Type} {a : α} (h : t'.Inv strings) (hsmall : t'.Small)
    (hlookup : ∀ k, k.Live strings → t'.lookup k = if key.rawEq k = true then value else t.lookup k) :
    SetOutcome strings t key value ((t', .ok a) : TableResult α) :=
  ⟨h, hsmall, fun k hk => by rw [hlookup k hk]; simp [Except.isOk, Except.toBool]⟩

/-- A full hash part has no free node left of `lastFree`. -/
theorem Inv.exhaust (h : t.Inv strings) (hfull : occupied t.nodes = t.nodes.length) :
    Inv strings { t with lastFree := 0 } := by
  refine ⟨h.nodes_inv, h.size, Nat.zero_le _, fun i n _ hn => ?_, h.array_le, h.shadow⟩
  have := List.countP_eq_length.mp hfull n (NodesInv.mem hn)
  simpa using this

theorem Inv.rehash_spec (h : t.Inv strings) (hsmall : t.Small) (ek : Val) :
    ∃ t' r, t.rehash ek strings = some (t', r) ∧ t'.Inv strings ∧ t'.Small ∧
      (∀ k, k.Live strings → t'.lookup k = t.lookup k) ∧
      (r = .ok () → occupied t'.nodes + (if fits t'.array.length ek then 0 else 1) ≤ t'.nodes.length) ∧
      ∀ e, r = .error e → e = ⟨"table overflow"⟩ ∧ maxASize ≤ t.array.length + t.nodes.length := by
  obtain ⟨size, hsize, heq⟩ := rehash_eq hsmall.array_le ek strings
  rw [heq]
  exact h.resize_spec hsmall hsize ek

theorem Inv.rawSetImpl_spec (h : t.Inv strings) (hsmall : t.Small) (hk : key.Live strings)
    (value : Val) :
    ∃ r, t.rawSetImpl key value strings = some r ∧ SetOutcome strings t key value r := by
  rcases h.rawSetWith_spec hk value with ⟨t', d, hset, hassigned⟩ | ⟨e, hfull, hocc, hslot, -, -⟩
  · exact ⟨_, hset _, .of_ok hassigned.inv (hassigned.small hsmall) fun k hk' => hassigned.lookup_eq hk'⟩
  · -- no node is free: rehash, and then there is room
    obtain ⟨u, r, hrehash, huinv, husmall, hulookup, hroom, -⟩ := (h.exhaust hocc).rehash_spec ⟨hsmall.array_le, hsmall.nodes_le⟩ key
    rw [rawSetImpl, hfull]
    simp only [hrehash, bind, Option.bind_some]
    cases r with
    | error e' => exact ⟨_, rfl, .of_error huinv husmall hulookup⟩
    | ok _ =>
      rcases huinv.rawSetWith_spec hk value with ⟨t', d, hset, hassigned⟩ | ⟨e', -, hocc', hslot', -, -⟩
      · have hretry : u.rawSetNoRehash key value strings = some (t', .ok d) := hset _
        simp only [hretry, Option.bind_some]
        exact ⟨_, rfl, .of_ok hassigned.inv (hassigned.small husmall) fun k hk' => by rw [hassigned.lookup_eq hk', hulookup k hk']; rfl⟩
      · have hroom' := hroom rfl
        rw [← slot_isSome_iff husmall.array_le, hslot'] at hroom'
        simp only [Option.isSome_none, Bool.false_eq_true, if_false] at hroom'
        omega

/-- `raw_set` of a key that is not a freed string is defined, sound, and an assignment or an error. -/
theorem Inv.rawSet_spec (h : t.Inv strings) (hsmall : t.Small) (hk : key.isStale strings = false)
    (value : Val) :
    ∃ r, t.rawSet key value strings = some r ∧ SetOutcome strings t key value r := by
  rw [rawSet, rawSetWithMemoryDelta]
  by_cases hro : t.readOnly = true
  · rw [if_pos hro]
    exact ⟨_, rfl, .of_error h hsmall fun _ _ => rfl⟩
  rw [if_neg hro]
  set u : Table := if isMetaName key strings then { t with flags := 0 } else t with hu
  have huinv : u.Inv strings := by
    rw [hu]
    split
    · exact ⟨h.nodes_inv, h.size, h.lastFree_le, h.scanned, h.array_le, h.shadow⟩
    · exact h
  have husmall : u.Small := by
    rw [hu]
    split
    · exact ⟨hsmall.array_le, hsmall.nodes_le⟩
    · exact hsmall
  have hulookup : ∀ k, u.lookup k = t.lookup k := by
    intro k
    rw [hu]
    split <;> rfl
  have himpl : ∃ r, u.rawSetImpl key value strings = some r ∧ SetOutcome strings t key value r := by
    by_cases hnil : key = .nil
    · subst hnil
      exact ⟨_, rfl, .of_error huinv husmall fun k _ => hulookup k⟩
    by_cases hnan : key.isNaN = true
    · have hnanSet : u.rawSetImpl key value strings = some (u, .error ⟨"table index is NaN"⟩) := by
        rw [rawSetImpl, rawSetWith, if_pos hnan]
        exact hnil
      exact ⟨_, hnanSet, .of_error huinv husmall fun k _ => hulookup k⟩
    · have hlive : key.Live strings := ⟨hnil, Bool.eq_false_iff.mpr hnan, hk⟩
      obtain ⟨r, hr, hout⟩ := huinv.rawSetImpl_spec husmall hlive value
      exact ⟨r, hr, hout.inv, hout.small, fun k hk' => by rw [hout.lookup_eq k hk', hulookup]⟩
  obtain ⟨⟨t', r⟩, hr, hout⟩ := himpl
  simp only [hr, bind, Option.bind_some]
  cases r with
  | error e => exact ⟨_, rfl, hout.inv, hout.small, hout.lookup_eq⟩
  | ok d => exact ⟨_, rfl, hout.inv, hout.small, hout.lookup_eq⟩

/-- The strings that a change of the arena frees are not needed by the table: their entries are nil. -/
def StringsKept (t : Table) (strings strings' : StringArena) : Prop :=
  ∀ n ∈ t.nodes, ∀ r, n.key = .str r →
    strings'.get r = strings.get r ∨ strings'.get r = none ∧ n.value = .nil

theorem Inv.strings_step {strings' : StringArena} (h : t.Inv strings)
    (hkept : t.StringsKept strings strings') : t.Inv strings' :=
  ⟨h.nodes_inv.strings_step hkept, h.size, h.lastFree_le, h.scanned, h.array_le, h.shadow⟩

/-- A string that was freed has no value. -/
theorem Inv.lookup_stale (h : t.Inv strings) (hs : key.isStale strings = true) : t.lookup key = .nil := by
  have hint : ∀ i : ℕ, key.intKey ≠ some (i + 1 : ℤ) := by
    intro i hi
    cases key <;> first | cases hs | cases hi
  rw [lookup_not_int h.array_le hint, NodesInv.findValue]
  cases hf : t.nodes.find? fun n => n.key.rawEq key with
  | none => rfl
  | some n =>
    refine h.nodes_inv.stale n (List.mem_of_find?_eq_some hf) ?_
    have heq := List.find?_some hf
    cases hkey : key <;> rw [hkey] at hs heq <;> first | cases hs | skip
    cases hn : n.key <;> rw [hn] at heq <;> first | cases heq | skip
    simp only [Val.rawEq, beq_iff_eq] at heq
    rw [heq]
    exact hs

end Table

/-! ### Runs -/

/-- The value of the newest entry whose key is raw equal to `key`, nil if there is none. -/
def lastSet (sets : List (Val × Val)) (key : Val) : Val :=
  ((sets.find? fun e => e.1.rawEq key).map Prod.snd).getD .nil

theorem lastSet_cons (e : Val × Val) (sets : List (Val × Val)) (key : Val) :
    lastSet (e :: sets) key = if e.1.rawEq key = true then e.2 else lastSet sets key := by
  rw [lastSet, List.find?_cons]
  cases e.1.rawEq key <;> rfl

/-- A table, the strings it is used with, and the assignments that have succeeded, newest first. -/
structure TableState where
  table : Table := {}
  strings : StringArena := {}
  sets : List (Val × Val) := []

inductive TableOp where
  | rawSet (key value : Val)
  | get (key : Val)
  | makeReadOnly
  /-- Strings are interned and freed. -/
  | strings (strings' : StringArena)

namespace TableState

def step (s : TableState) : TableOp → Option TableState
  | .rawSet key value => (s.table.rawSet key value s.strings).map fun (table, r) =>
    { s with table, sets := if r.isOk then (key, value) :: s.sets else s.sets }
  | .get key => (s.table.get key s.strings).map fun _ => s
  | .makeReadOnly => some { s with table := { s.table with readOnly := true } }
  | .strings strings' => some { s with strings := strings' }

/-- Programs hold no freed strings and look up no nil or not-a-number; the collector keeps the strings
    that are keys of entries. -/
def Permitted (s : TableState) : TableOp → Prop
  | .rawSet key _ => key.isStale s.strings = false
  | .get key => key.Live s.strings
  | .makeReadOnly => True
  | .strings strings' => s.table.StringsKept s.strings strings'

/-- The values of the table are those of the last assignments. -/
structure Refines (s : TableState) : Prop where
  inv : s.table.Inv s.strings
  small : s.table.Small
  lookup_eq : ∀ key, key ≠ .nil → key.isNaN = false → s.table.lookup key = lastSet s.sets key

theorem refines_init (strings : StringArena) : Refines { strings } :=
  ⟨Table.inv_new strings, Table.small_new, fun key _ _ => by
    rw [Table.lookup]
    split
    · rfl
    · rfl⟩

theorem step_refines {s : TableState} {op : TableOp} (h : s.Refines) (hop : s.Permitted op) :
    ∃ s', s.step op = some s' ∧ s'.Refines := by
  obtain ⟨hinv, hsmall, hlookup⟩ := h
  cases op with
  | rawSet key value =>
    obtain ⟨⟨t', r⟩, hset, hout⟩ := hinv.rawSet_spec hsmall hop value
    refine ⟨_, by rw [step, hset]; rfl, hout.inv, hout.small, fun k hnil hnan => ?_⟩
    rcases Bool.eq_false_or_eq_true (k.isStale s.strings) with hs | hs
    · -- a freed string has no value, and is not the key
      have hne : key.rawEq k = false := by
        refine Bool.eq_false_iff.mpr fun heq => ?_
        rw [← Val.isStale_congr heq, hop] at hs
        cases hs
      have hlast : lastSet (if r.isOk then (key, value) :: s.sets else s.sets) k = lastSet s.sets k := by
        split
        · rw [lastSet_cons, if_neg (by simp [hne])]
        · rfl
      rw [hlast, ← hlookup k hnil hnan, hinv.lookup_stale hs]
      exact hout.inv.lookup_stale hs
    · rw [hout.lookup_eq k ⟨hnil, hnan, hs⟩, hlookup k hnil hnan]
      change _ = lastSet (if r.isOk then (key, value) :: s.sets else s.sets) k
      cases r.isOk with
      | false => rfl
      | true => simp only [true_and, if_true, lastSet_cons]
  | get key => exact ⟨s, by rw [step, hinv.get_eq hop]; rfl, hinv, hsmall, hlookup⟩
  | makeReadOnly =>
    exact ⟨_, rfl, ⟨hinv.nodes_inv, hinv.size, hinv.lastFree_le, hinv.scanned, hinv.array_le, hinv.shadow⟩,
      ⟨hsmall.array_le, hsmall.nodes_le⟩, hlookup⟩
  | strings strings' => exact ⟨_, rfl, hinv.strings_step hop, hsmall, hlookup⟩

theorem Refines.rawSet {s : TableState} (h : s.Refines) (key value : Val) (hk : key.isStale s.strings = false) :
    ∃ s', s.step (.rawSet key value) = some s' ∧ s'.Refines := step_refines h hk

theorem run_refines {strings : StringArena} {ops : List TableOp} {s : TableState}
    (hrun : Run step Permitted { strings } ops s) : s.Refines := by
  refine hrun.invariant Refines (fun s op s' h hop hstep => ?_) (refines_init strings)
  obtain ⟨s'', hs'', h'⟩ := step_refines h hop
  rw [hstep] at hs''
  cases hs''
  exact h'

/-- In every run from an empty table each lookup gives the value of the last assignment to a raw equal
    key that succeeded, and every operation goes through. -/
theorem get_lastSet {strings : StringArena} {ops : List TableOp} {s : TableState}
    (hrun : Run step Permitted { strings } ops s) :
    (∀ key, key.Live s.strings → s.table.get key s.strings = some (lastSet s.sets key)) ∧
      ∀ op, s.Permitted op → ∃ s', s.step op = some s' := by
  have href := run_refines hrun
  refine ⟨fun key hk => ?_, fun op hop => ?_⟩
  · rw [href.inv.get_eq hk, href.lookup_eq key hk.ne_nil hk.not_nan]
  · obtain ⟨s', hs', -⟩ := step_refines href hop
    exact ⟨s', hs'⟩

/-- Three keys, one of them cleared: the last assignment finds both nodes in use and rehashes. -/
theorem get_lastSet_three : ∃ s, Run step Permitted {} [.rawSet (.bool true) (.bool true),
      .rawSet (.bool false) (.bool true), .rawSet (.bool true) .nil,
      .rawSet (.lightUserdata 7) (.bool false)] s ∧
    s.table.get (.bool true) s.strings = some .nil ∧
    s.table.get (.lightUserdata 7) s.strings = some (.bool false) := by
  have hget : ∀ s, Run step Permitted {} [.rawSet (.bool true) (.bool true),
      .rawSet (.bool false) (.bool true), .rawSet (.bool true) .nil,
      .rawSet (.lightUserdata 7) (.bool false)] s → ∀ key : Val, key.Live s.strings →
      s.table.get key s.strings = some (lastSet s.sets key) := fun _ hrun => (get_lastSet hrun).1
  refine ⟨_, .cons rfl rfl (.cons rfl rfl (.cons rfl rfl (.cons rfl rfl (.nil _)))), ?_, ?_⟩
  · exact hget _ (.cons rfl rfl (.cons rfl rfl (.cons rfl rfl (.cons rfl rfl (.nil _))))) _ ⟨by simp, rfl, rfl⟩
  · exact hget _ (.cons rfl rfl (.cons rfl rfl (.cons rfl rfl (.cons rfl rfl (.nil _))))) _ ⟨by simp, rfl, rfl⟩

end TableState

end Rilua.Vm
