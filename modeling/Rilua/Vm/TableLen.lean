import Mathlib.Data.List.Nodup
import Mathlib.Data.List.Perm.Subperm
import Rilua.Lib.Bisect
import Rilua.Vm.TableMap

/-! The length of a table (`Table::len`): a border, found by bisection in the array part, or beyond it by doubling
    and then bisection. Where the doubling would overflow, a scan from 1 finds a border, since a table has fewer
    entries than the scan has steps. -/

namespace Rilua.Vm

open Lib Gc

/-- The number of bits of `usize`. -/
def usizeBits : ℕ := 64

namespace Table

variable {strings : StringArena} {t : Table}

/-- Whether the table has a value at an integer. -/
def hasInt (t : Table) (strings : StringArena) (i : ℕ) : Option Bool :=
  (t.get (.num (F64.ofInt i)) strings).map fun v => !v.isNil

/-- Linear fallback for boundary search when the exponential probe overflows. -/
def linearBoundarySearch (t : Table) (strings : StringArena) : Option ℕ :=
  countUp (t.hasInt strings) (t.array.length + t.nodes.length + 1) 1

/-- Exponential and binary search for a boundary beyond the array part. -/
def unboundSearch (t : Table) (arraySize : ℕ) (strings : StringArena) : Option ℕ := do
  match ← gallop (t.hasInt strings) (2 ^ usizeBits) usizeBits arraySize (arraySize + 1) with
  | none => t.linearBoundarySearch strings
  | some (i, j) => bisect (t.hasInt strings) usizeBits i j

/-- Computes the table length (the `#` operator). -/
def len (t : Table) (strings : StringArena) : Option ℕ :=
  let j := t.array.length
  if 0 < j ∧ t.array[j - 1]? = some .nil then
    bisect (fun m => (t.array[m - 1]?).map fun v => !v.isNil) usizeBits 0 j
  else if t.nodes.isEmpty then some j
  else t.unboundSearch j strings

/-- Whether the value of an integer key is not nil. -/
def intPresent (t : Table) (i : ℕ) : Bool := !(t.lookup (.num (F64.ofInt i))).isNil

theorem live_ofInt (i : ℤ) (strings : StringArena) : Val.Live strings (.num (F64.ofInt i)) := by
  refine ⟨by simp, ?_, rfl⟩
  rw [Val.isNaN, F64.ofInt, F64.ofMag]
  split
  · rfl
  · rfl

theorem Inv.hasInt_eq (h : t.Inv strings) (i : ℕ) : t.hasInt strings i = some (t.intPresent i) := by
  rw [hasInt, h.get_eq (live_ofInt i strings), intPresent]
  rfl

/-- The integer keys are numbers as far as the array part and the entries of a table reach. -/
theorem intKey_num {i : ℕ} (h : i < 2 ^ 53) : Val.intKey (.num (F64.ofInt i)) = some (i : ℤ) :=
  intKey_ofInt (by omega)

theorem Inv.intPresent_array (h : t.Inv strings) (hnum : t.array.length < 2 ^ 52) {m : ℕ} (h0 : 0 < m) (hm : m ≤ t.array.length) :
    (t.array[m - 1]?).map (fun v => !v.isNil) = some (t.intPresent m) := by
  have hkey : Val.intKey (.num (F64.ofInt m)) = some ((m - 1 : ℕ) + 1 : ℤ) := by
    rw [intKey_num (by omega), Option.some.injEq]
    omega
  have hlt : m - 1 < t.array.length := by omega
  rw [intPresent, lookup_int h.array_le hkey, if_pos hlt, List.getD_eq_getElem?_getD,
    List.getElem?_eq_getElem hlt]
  rfl

/-- Beyond the array part an integer key that is present has a node. -/
theorem Inv.node_of_intPresent (h : t.Inv strings) {m : ℕ} (hm : t.array.length < m) (hlt : m < 2 ^ 53)
    (hp : t.intPresent m = true) : ∃ n ∈ t.nodes, n.key.intKey = some (m : ℤ) := by
  have hkey : Val.intKey (.num (F64.ofInt m)) = some ((m - 1 : ℕ) + 1 : ℤ) := by
    rw [intKey_num hlt, Option.some.injEq]
    omega
  rw [intPresent, lookup_int h.array_le hkey, if_neg (by omega)] at hp
  rcases NodesInv.absent_or_hasEntry t.nodes (.num (F64.ofInt m)) with habs | ⟨v, n, hn, hnk, -⟩
  · rw [NodesInv.findValue_of_absent habs] at hp
    cases hp
  · exact ⟨n, hn, by rw [intKey_congr hnk, intKey_num hlt]⟩

/-- A table has room for fewer integer keys in a row than the linear scan has steps. -/
theorem Inv.exists_absent (h : t.Inv strings) (hnum : t.array.length < 2 ^ 52) :
    ∃ k < t.array.length + t.nodes.length + 1, t.intPresent (1 + k) = false := by
  by_contra hall
  push Not at hall
  have hnodes := h.nodes_le
  let ints : List ℤ := (List.range (t.nodes.length + 1)).map fun k => ((t.array.length + 1 + k : ℕ) : ℤ)
  have hnodup : ints.Nodup := by
    refine List.Nodup.map (fun a b hab => ?_) List.nodup_range
    have hab' : t.array.length + 1 + a = t.array.length + 1 + b := Int.natCast_inj.mp hab
    omega
  have hsub : ints ⊆ t.nodes.filterMap fun n => n.key.intKey := by
    intro i hi
    obtain ⟨k, hk, rfl⟩ := List.mem_map.mp hi
    have hk' : k < t.nodes.length + 1 := List.mem_range.mp hk
    have hp : t.intPresent (1 + (t.array.length + k)) = true := by
      simpa using hall (t.array.length + k) (by omega)
    have hindex : 1 + (t.array.length + k) = t.array.length + 1 + k := by omega
    rw [hindex] at hp
    obtain ⟨n, hn, hkey⟩ := h.node_of_intPresent (by omega) (by omega) hp
    exact List.mem_filterMap.mpr ⟨n, hn, hkey⟩
  have hle := (List.subperm_of_subset hnodup hsub).length_le
  have hfilter := List.length_filterMap_le (fun n : Node => n.key.intKey) t.nodes
  have hints : ints.length = t.nodes.length + 1 := by simp [ints]
  omega

/-- The end of the array part is the start or present, unless its last slot is nil. -/
theorem Inv.array_end (h : t.Inv strings) (hnum : t.array.length < 2 ^ 52)
    (hlast : ¬ (0 < t.array.length ∧ t.array[t.array.length - 1]? = some .nil)) :
    t.array.length = 0 ∨ t.intPresent t.array.length = true := by
  rcases Nat.eq_zero_or_pos t.array.length with h0 | hpos
  · exact .inl h0
  · have harray := h.intPresent_array hnum hpos le_rfl
    cases hv : t.array[t.array.length - 1]? with
    | none => rw [hv] at harray; cases harray
    | some v =>
      rw [hv, Option.map_some, Option.some.injEq] at harray
      rw [← harray]
      refine .inr ?_
      cases v with
      | nil => exact absurd ⟨hpos, hv⟩ hlast
      | _ => rfl

theorem Inv.unboundSearch_spec (h : t.Inv strings) (hnum : t.array.length < 2 ^ 52)
    (hend : t.array.length = 0 ∨ t.intPresent t.array.length = true) :
    ∃ n, t.unboundSearch t.array.length strings = some n ∧ IsBorder t.intPresent 0 n := by
  have hstart : t.array.length + 1 < 2 ^ usizeBits ∧ 2 ^ usizeBits ≤ (t.array.length + 1) * 2 ^ usizeBits := by
    simp only [usizeBits]
    omega
  have hlo : t.array.length = t.array.length ∨ t.intPresent t.array.length = true := .inl rfl
  rw [unboundSearch]
  rcases gallop_spec h.hasInt_eq (Nat.lt_succ_self _) hstart.1 hstart.2 hlo with
    hover | ⟨i, j, hfound, hij, hj, hi, habsent⟩
  · simp only [hover, bind, Option.bind_some]
    exact countUp_spec h.hasInt_eq Nat.one_pos (.inl rfl) (h.exists_absent hnum)
  · simp only [hfound, bind, Option.bind_some]
    have hgap : j - i ≤ 2 ^ usizeBits := by omega
    obtain ⟨n, hn, hborder⟩ := bisect_spec hij hgap (fun m _ _ => h.hasInt_eq m) habsent
    refine ⟨n, hn, ?_, hborder.absent⟩
    rcases hborder.start_or_present with rfl | hn'
    · rcases hi with rfl | hi'
      · exact hend
      · exact .inr hi'
    · exact .inr hn'

theorem Inv.len_spec (h : t.Inv strings) (hnum : t.array.length < 2 ^ 52) : ∃ n, t.len strings = some n ∧ IsBorder t.intPresent 0 n := by
  rw [len]
  by_cases hlast : 0 < t.array.length ∧ t.array[t.array.length - 1]? = some .nil
  · rw [if_pos hlast]
    refine bisect_spec hlast.1 (by simp only [usizeBits]; omega) (fun m h0 hm => h.intPresent_array hnum h0 hm.le) ?_
    have harray := h.intPresent_array hnum hlast.1 le_rfl
    rw [hlast.2, Option.map_some, Option.some.injEq] at harray
    rw [← harray]
    rfl
  · rw [if_neg hlast]
    have hend := h.array_end hnum hlast
    by_cases hne : t.nodes.isEmpty = true
    · rw [if_pos hne]
      refine ⟨_, rfl, hend, Bool.eq_false_iff.mpr fun hp => ?_⟩
      obtain ⟨n, hn, -⟩ := h.node_of_intPresent (Nat.lt_succ_self _) (by omega) hp
      rw [List.isEmpty_iff.mp hne] at hn
      cases hn
    · rw [if_neg hne]
      exact h.unboundSearch_spec hnum hend

end Table

namespace TableState

/-- In every state that assignments lead to, the length of the table is defined, and it is a border. -/
theorem len_border {strings : StringArena} {ops : List TableOp} {s : TableState}
    (hrun : Run step Permitted { strings } ops s) :
    ∃ n v v', s.table.len s.strings = some n ∧ s.table.get (.num (F64.ofInt n)) s.strings = some v ∧
      s.table.get (.num (F64.ofInt (n + 1))) s.strings = some v' ∧ (n = 0 ∨ v ≠ .nil) ∧ v' = .nil := by
  have hnum : s.table.array.length < 2 ^ 52 := (run_refines hrun).small.array_le.trans_lt (by decide)
  obtain ⟨n, hn, hborder⟩ := (run_refines hrun).inv.len_spec hnum
  refine ⟨n, _, _, hn, (run_refines hrun).inv.get_eq (Table.live_ofInt n _),
    (run_refines hrun).inv.get_eq (Table.live_ofInt (n + 1) _), ?_, ?_⟩
  · refine hborder.start_or_present.imp_right fun hp hnil => ?_
    rw [Table.intPresent, hnil] at hp
    cases hp
  · have habsent := hborder.absent
    rw [Table.intPresent] at habsent
    simpa using habsent

/-- Three values, of which the second is cleared. -/
theorem len_border_hole : ∃ s, Run step Permitted {} [.rawSet (.num F64.one) (.bool true),
      .rawSet (.num (F64.ofInt 2)) (.bool true), .rawSet (.num (F64.ofInt 3)) (.bool true),
      .rawSet (.num (F64.ofInt 2)) .nil] s ∧
    ∃ n v v', s.table.len s.strings = some n ∧ s.table.get (.num (F64.ofInt n)) s.strings = some v ∧
      s.table.get (.num (F64.ofInt (n + 1))) s.strings = some v' ∧ (n = 0 ∨ v ≠ .nil) ∧ v' = .nil := by
  have hrun : ∃ s, Run step Permitted {} [.rawSet (.num F64.one) (.bool true),
      .rawSet (.num (F64.ofInt 2)) (.bool true), .rawSet (.num (F64.ofInt 3)) (.bool true),
      .rawSet (.num (F64.ofInt 2)) .nil] s := by
    obtain ⟨s₁, hs₁, h₁⟩ := (refines_init {}).rawSet (.num F64.one) (.bool true) rfl
    obtain ⟨s₂, hs₂, h₂⟩ := h₁.rawSet (.num (F64.ofInt 2)) (.bool true) rfl
    obtain ⟨s₃, hs₃, h₃⟩ := h₂.rawSet (.num (F64.ofInt 3)) (.bool true) rfl
    obtain ⟨s₄, hs₄, -⟩ := h₃.rawSet (.num (F64.ofInt 2)) .nil rfl
    exact ⟨s₄, .cons rfl hs₁ (.cons rfl hs₂ (.cons rfl hs₃ (.cons rfl hs₄ (.nil _))))⟩
  obtain ⟨s, hs⟩ := hrun
  exact ⟨s, hs, len_border hs⟩

end TableState

end Rilua.Vm
