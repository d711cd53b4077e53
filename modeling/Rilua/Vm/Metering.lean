import Mathlib.Data.List.Basic
import Rilua.Vm.InstructionBudget

/-! Budgets cannot be evaded. The active owner is at all times that of the innermost scope, so the mode of
    an activation, chosen when it was entered, fits whenever it dispatches an instruction, and each
    instruction is charged to that owner once. -/

namespace Rilua.Vm

open Lib

namespace InstructionBudgets

variable {b b' : InstructionBudgets} {o o' : String} {i j : ℕ} {budget : InstructionBudget}

theorem find_eq (b : InstructionBudgets) (o : String) :
    b.findInstructionOwner o = (b.owners.map Prod.fst).findIdx? fun name => name = o := by
  rw [findInstructionOwner, List.findIdx?_map]
  rfl

theorem map_fst_modify (l : List (String × InstructionBudget)) (i : ℕ)
    (f : InstructionBudget → InstructionBudget) :
    (l.modify i fun p => (p.1, f p.2)).map Prod.fst = l.map Prod.fst := by
  refine List.ext_getElem? fun n => ?_
  rw [List.getElem?_map, List.getElem?_map, List.getElem?_modify]
  cases l[n]? with
  | none => rfl
  | some p => simp only [Option.map_some]; split <;> rfl

/-- Changing a budget finds every owner where it was. -/
theorem find_modify (b : InstructionBudgets) (i : ℕ) (f : InstructionBudget → InstructionBudget) (o : String) :
    ({ b with owners := b.owners.modify i fun p => (p.1, f p.2) } : InstructionBudgets).findInstructionOwner o =
      b.findInstructionOwner o := by
  rw [find_eq, find_eq, map_fst_modify]

theorem exists_of_find (h : b.findInstructionOwner o = some i) : ∃ budget, b.owners[i]? = some (o, budget) := by
  obtain ⟨hi, hname, -⟩ := List.findIdx?_eq_some_iff_getElem.mp h
  refine ⟨(b.owners[i]).2, ?_⟩
  rw [List.getElem?_eq_getElem hi]
  have hname : (b.owners[i]).1 = o := by simpa using hname
  rw [← hname]

/-- Every owner stays where it is. -/
def Extends (b b' : InstructionBudgets) : Prop :=
  ∀ o i, b.findInstructionOwner o = some i → b'.findInstructionOwner o = some i

theorem extends_modify (b : InstructionBudgets) (i : ℕ) (f : InstructionBudget → InstructionBudget) :
    b.Extends { b with owners := b.owners.modify i fun p => (p.1, f p.2) } := by
  intro o j h
  rw [find_modify]
  exact h

theorem extends_append (b : InstructionBudgets) (p : String × InstructionBudget) :
    b.Extends { b with owners := b.owners ++ [p] } := by
  intro o i h
  rw [find_eq] at h ⊢
  rw [List.map_append, List.findIdx?_append, h]
  rfl

theorem extends_setInstructionBudget (b : InstructionBudgets) (o : String) (limit : Option UInt64) :
    b.Extends (b.setInstructionBudget o limit) := by
  unfold setInstructionBudget
  dsimp only
  split
  · exact extends_modify b _ fun _ => ⟨limit, 0⟩
  · exact extends_append b _

theorem extends_resetInstructionUsage (b : InstructionBudgets) (o : String) :
    b.Extends ((b.resetInstructionUsage o).getD b) := by
  unfold resetInstructionUsage
  cases b.findInstructionOwner o with
  | none => exact fun _ _ h => h
  | some i => exact extends_modify b i fun budget => { budget with used := 0 }

theorem instructionBudget_modify (h : b.findInstructionOwner o = some i) (f : InstructionBudget → InstructionBudget)
    (j : ℕ) : ({ b with owners := b.owners.modify j fun p => (p.1, f p.2) } : InstructionBudgets).instructionBudget
      o = (b.instructionBudget o).map fun budget => if j = i then f budget else budget := by
  obtain ⟨budget, hget⟩ := exists_of_find h
  rw [instructionBudget, find_modify, instructionBudget, h]
  simp only [Option.bind_some, List.getElem?_modify, hget, Option.map_some]
  split <;> rfl

/-- Configuring another owner. -/
theorem instructionBudget_set_ne (hne : o ≠ o') (limit : Option UInt64)
    (hb : b.instructionBudget o = some budget) :
    (b.setInstructionBudget o' limit).instructionBudget o = some budget := by
  obtain ⟨i, hi, hget⟩ := Option.bind_eq_some_iff.mp hb
  unfold setInstructionBudget
  dsimp only
  split
  · next j hj =>
    rw [instructionBudget_modify hi fun _ => ⟨limit, 0⟩, hb, Option.map_some, if_neg]
    intro hji
    subst hji
    obtain ⟨x, hx⟩ := exists_of_find hi
    obtain ⟨y, hy⟩ := exists_of_find hj
    rw [hx] at hy
    exact hne (congrArg Prod.fst (Option.some.inj hy))
  · rw [instructionBudget, extends_append b _ o i hi]
    obtain ⟨x, hx⟩ := exists_of_find hi
    have hlt : i < b.owners.length := (List.getElem?_eq_some_iff.mp hx).1
    simp only [Option.bind_some, List.getElem?_append_left hlt]
    exact hget

theorem instructionBudget_reset_ne (hne : o ≠ o') (hb : b.instructionBudget o = some budget) :
    ((b.resetInstructionUsage o').getD b).instructionBudget o = some budget := by
  obtain ⟨i, hi, hget⟩ := Option.bind_eq_some_iff.mp hb
  unfold resetInstructionUsage
  cases hj : b.findInstructionOwner o' with
  | none => exact hb
  | some j =>
    rw [Option.map_some, Option.getD_some, instructionBudget_modify hi fun x => { x with used := 0 }, hb,
      Option.map_some, if_neg]
    intro hji
    subst hji
    obtain ⟨x, hx⟩ := exists_of_find hi
    obtain ⟨y, hy⟩ := exists_of_find hj
    rw [hx] at hy
    exact hne (congrArg Prod.fst (Option.some.inj hy))

/-- What a charge does: there was room, one instruction is added, and all other budgets stay. -/
theorem of_chargeInstruction (hi : b.findInstructionOwner o = some i) (h : b.chargeInstruction i = some b') :
    b'.active = b.active ∧ b'.exempt = b.exempt ∧ b.Extends b' ∧
      ∃ budget, b.instructionBudget o = some budget ∧ (∀ limit ∈ budget.limit, budget.used < limit) ∧
        b'.instructionBudget o = some { budget with used := saturatingSucc budget.used } ∧
        ∀ o', o' ≠ o → ∀ other, b.instructionBudget o' = some other → b'.instructionBudget o' = some other := by
  obtain ⟨budget, hget⟩ := exists_of_find hi
  have hb : b.instructionBudget o = some budget := by
    rw [instructionBudget, hi, Option.bind_some, hget, Option.map_some]
  rw [chargeInstruction, hget] at h
  simp only at h
  split at h
  · cases h
  · next hroom =>
    cases h
    refine ⟨rfl, rfl, extends_modify b i fun x => { x with used := saturatingSucc x.used }, budget, hb, ?_, ?_, ?_⟩
    · intro limit hlimit
      by_contra hge
      exact hroom (by rw [Option.mem_def.mp hlimit]; simpa using hge)
    · rw [instructionBudget_modify hi fun x => { x with used := saturatingSucc x.used }, hb, Option.map_some,
        if_pos rfl]
    · intro o' hne other hother
      obtain ⟨j, hj, -⟩ := Option.bind_eq_some_iff.mp hother
      rw [instructionBudget_modify hj fun x => { x with used := saturatingSucc x.used }, hother, Option.map_some,
        if_neg]
      intro hij
      subst hij
      obtain ⟨x, hx⟩ := exists_of_find hj
      rw [hget] at hx
      exact hne (congrArg Prod.fst (Option.some.inj hx)).symm

end InstructionBudgets

open InstructionBudgets

/-- The scopes save what was in force outside them, and an interpreter loop meters iff an owner is active. -/
def SavedScopes (b : InstructionBudgets) : List MeterFrame → Prop
  | [] => True
  | .execute metered :: fs => metered = (scopeOf fs).1.isSome ∧ SavedScopes b fs
  | .native :: fs => SavedScopes b fs
  | .owner name previous :: fs =>
    (b.findInstructionOwner name).isSome ∧ previous = (scopeOf fs).1.bind b.findInstructionOwner ∧
      SavedScopes b fs
  | .exemption previousOwner previousExempt :: fs =>
    previousOwner = (scopeOf fs).1.bind b.findInstructionOwner ∧ previousExempt = (scopeOf fs).2 ∧
      SavedScopes b fs

namespace SavedScopes

variable {b b' : InstructionBudgets} {fs : List MeterFrame}

/-- The active owner is configured. -/
theorem found (h : SavedScopes b fs) : ∀ name ∈ (scopeOf fs).1, (b.findInstructionOwner name).isSome := by
  induction fs with
  | nil => simp [scopeOf]
  | cons f fs ih =>
    cases f with
    | execute metered => exact ih h.2
    | native => exact ih h
    | owner name previous =>
      intro name' hname
      rw [scopeOf] at hname
      split at hname
      · simp at hname
      · cases hname; exact h.1
    | exemption => simp [scopeOf]

theorem bind_eq (h : SavedScopes b fs) (hext : b.Extends b') :
    (scopeOf fs).1.bind b'.findInstructionOwner = (scopeOf fs).1.bind b.findInstructionOwner := by
  cases hname : (scopeOf fs).1 with
  | none => rfl
  | some name =>
    obtain ⟨i, hi⟩ := Option.isSome_iff_exists.mp (h.found name hname)
    rw [Option.bind_some, Option.bind_some, hi, hext name i hi]

theorem mono (h : SavedScopes b fs) (hext : b.Extends b') : SavedScopes b' fs := by
  induction fs with
  | nil => trivial
  | cons f fs ih =>
    cases f with
    | execute metered => exact ⟨h.1, ih h.2⟩
    | native => exact ih h
    | owner name previous =>
      obtain ⟨hname, hprev, hrest⟩ := h
      obtain ⟨i, hi⟩ := Option.isSome_iff_exists.mp hname
      exact ⟨by rw [hext name i hi]; rfl, hprev.trans (hrest.bind_eq hext).symm, ih hrest⟩
    | exemption previousOwner previousExempt =>
      obtain ⟨hprev, hexempt, hrest⟩ := h
      exact ⟨hprev.trans (hrest.bind_eq hext).symm, hexempt, ih hrest⟩

end SavedScopes

namespace MeterState

variable {s s' : MeterState}

/-- The invariant of metering. -/
structure Metered (s : MeterState) : Prop where
  active : s.budgets.active = (scopeOf s.frames).1.bind s.budgets.findInstructionOwner
  exempt : s.budgets.exempt = (scopeOf s.frames).2
  saved : SavedScopes s.budgets s.frames
  charged : s.charged = s.dispatched.filterMap id

/-- Whether an owner is active is decided by the scopes. -/
theorem Metered.active_isSome (hs : s.Metered) : s.budgets.active.isSome = (scopeOf s.frames).1.isSome := by
  rw [hs.active]
  cases hname : (scopeOf s.frames).1 with
  | none => rfl
  | some name =>
    rw [Option.bind_some, hs.saved.found name hname]
    rfl

/-- Host code changes the budgets. -/
theorem Metered.configure (hs : s.Metered) {b : InstructionBudgets} (hext : s.budgets.Extends b)
    (ha : b.active = s.budgets.active) (he : b.exempt = s.budgets.exempt) :
    ({ s with budgets := b } : MeterState).Metered where
  active := ha.trans (hs.active.trans (hs.saved.bind_eq hext).symm)
  exempt := he.trans hs.exempt
  saved := hs.saved.mono hext
  charged := hs.charged

theorem Metered.enterOwner (hs : s.Metered) (o : String) : (s.enterOwner o).Metered := by
  unfold MeterState.enterOwner
  cases hi : s.budgets.findInstructionOwner o with
  | none => exact hs
  | some i =>
    have hname : (s.budgets.findInstructionOwner o).isSome := by rw [hi]; rfl
    refine ⟨?_, ?_, ⟨hname, hs.active, hs.saved.mono fun _ _ h => h⟩, hs.charged⟩
    · simp only [scopeOf, ← hs.exempt]
      split
      · rfl
      · exact hi.symm
    · simp only [scopeOf, ← hs.exempt]
      split
      · next h => exact h
      · next h => simpa using h

theorem Metered.enterExemption (hs : s.Metered) : s.enterExemption.Metered where
  active := rfl
  exempt := rfl
  saved := ⟨hs.active, hs.exempt, hs.saved.mono fun _ _ h => h⟩
  charged := hs.charged

theorem Metered.leave (hs : s.Metered) (h : s.leave = some s') : s'.Metered := by
  unfold MeterState.leave at h
  have hsaved := hs.saved
  split at h
  · cases h
  · next metered fs hfs =>
    cases h
    rw [hfs] at hsaved
    exact ⟨by rw [hs.active, hfs]; rfl, by rw [hs.exempt, hfs]; rfl, hsaved.2, hs.charged⟩
  · next fs hfs =>
    cases h
    rw [hfs] at hsaved
    exact ⟨by rw [hs.active, hfs]; rfl, by rw [hs.exempt, hfs]; rfl, hsaved, hs.charged⟩
  · next name previous fs hfs =>
    cases h
    rw [hfs] at hsaved
    refine ⟨hsaved.2.1, ?_, hsaved.2.2.mono fun _ _ h => h, hs.charged⟩
    have he := hs.exempt
    rw [hfs, scopeOf] at he
    rw [he]
    split
    · next h => exact h.symm
    · next h => simpa using h
  · next previousOwner previousExempt fs hfs =>
    cases h
    rw [hfs] at hsaved
    exact ⟨hsaved.1, hsaved.2.1, hsaved.2.2.mono fun _ _ h => h, hs.charged⟩

/-- One turn of the loop: either the budget is exhausted and nothing happens, or one instruction is
    dispatched for the innermost active owner, who is charged for it. -/
theorem Metered.dispatch_cases (hs : s.Metered) (h : s.dispatch = some s') :
    s' = s ∨ (scopeOf s.frames).1 = none ∧ s' = { s with dispatched := none :: s.dispatched } ∨
      ∃ name i b, (scopeOf s.frames).1 = some name ∧ s.budgets.findInstructionOwner name = some i ∧
        s.budgets.chargeInstruction i = some b ∧
        s' = { s with budgets := b, dispatched := some name :: s.dispatched, charged := name :: s.charged } := by
  unfold MeterState.dispatch at h
  split at h
  · next metered fs hfs =>
    have hmetered : metered = (scopeOf fs).1.isSome := by
      have hsaved := hs.saved
      rw [hfs] at hsaved
      exact hsaved.1
    have hscope : (scopeOf s.frames).1 = (scopeOf fs).1 := by rw [hfs]; rfl
    have hactive : (if metered then s.budgets.active else none) = s.budgets.active := by
      cases hm : metered with
      | true => rfl
      | false =>
        have hnone := hs.active_isSome
        rw [hscope, ← hmetered, hm] at hnone
        simp [Option.not_isSome_iff_eq_none.mp (by rw [hnone]; simp)]
    rw [hactive] at h
    split at h
    · next hnone =>
      cases h
      have hscope' : (scopeOf s.frames).1 = none := by
        have hsome := hs.active_isSome
        rw [hnone] at hsome
        exact Option.not_isSome_iff_eq_none.mp (by rw [← hsome]; simp)
      exact .inr (.inl ⟨hscope', by rw [hscope']⟩)
    · next i hi =>
      obtain ⟨name, hname, hfind⟩ := Option.bind_eq_some_iff.mp (hs.active.symm.trans hi)
      obtain ⟨budget, hget⟩ := exists_of_find hfind
      split at h
      · cases h; exact .inl rfl
      · next b hb =>
        cases h
        refine .inr (.inr ⟨name, i, b, hname, hfind, hb, ?_⟩)
        rw [hname, InstructionBudgets.ownerName, hget]
        rfl
  · cases h

theorem Metered.dispatch (hs : s.Metered) (h : s.dispatch = some s') : s'.Metered := by
  rcases hs.dispatch_cases h with rfl | ⟨-, rfl⟩ | ⟨name, i, b, hname, hfind, hb, rfl⟩
  · exact hs
  · exact ⟨hs.active, hs.exempt, hs.saved, by simp [hs.charged]⟩
  · obtain ⟨ha, he, hext, -⟩ := of_chargeInstruction hfind hb
    have hc := hs.configure hext ha he
    exact ⟨hc.active, hc.exempt, hc.saved, by simp [hs.charged]⟩

theorem Metered.step (hs : s.Metered) {op : MeterOp} (h : s.step op = some s') : s'.Metered := by
  cases op with
  | execute => cases h; exact ⟨hs.active, hs.exempt, ⟨hs.active_isSome, hs.saved⟩, hs.charged⟩
  | native => cases h; exact ⟨hs.active, hs.exempt, hs.saved, hs.charged⟩
  | withInstructionOwner o =>
    obtain ⟨-, h⟩ := Option.ite_none_right_eq_some.mp h
    cases h
    exact hs.enterOwner o
  | withInstructionBudgetExemption =>
    obtain ⟨-, h⟩ := Option.ite_none_right_eq_some.mp h
    cases h
    exact hs.enterExemption
  | leave how => exact hs.leave h
  | dispatch => exact hs.dispatch h
  | setInstructionBudget o limit =>
    obtain ⟨-, h⟩ := Option.ite_none_right_eq_some.mp h
    cases h
    refine hs.configure (extends_setInstructionBudget _ o limit) ?_ ?_ <;>
      (unfold InstructionBudgets.setInstructionBudget; dsimp only; split <;> rfl)
  | resetInstructionUsage o =>
    obtain ⟨-, h⟩ := Option.ite_none_right_eq_some.mp h
    cases h
    refine hs.configure (extends_resetInstructionUsage _ o) ?_ ?_ <;>
      (unfold InstructionBudgets.resetInstructionUsage; cases s.budgets.findInstructionOwner o <;> rfl)

/-- Owners are never removed. -/
theorem Metered.extends_step (hs : s.Metered) {op : MeterOp} (h : s.step op = some s') :
    s.budgets.Extends s'.budgets := by
  cases op with
  | execute => cases h; exact fun _ _ h => h
  | native => cases h; exact fun _ _ h => h
  | withInstructionOwner o =>
    obtain ⟨-, h⟩ := Option.ite_none_right_eq_some.mp h
    cases h
    unfold MeterState.enterOwner
    split <;> exact fun _ _ h => h
  | withInstructionBudgetExemption =>
    obtain ⟨-, h⟩ := Option.ite_none_right_eq_some.mp h
    cases h
    exact fun _ _ h => h
  | leave how =>
    unfold MeterState.step MeterState.leave at h
    dsimp only at h
    split at h
    · cases h
    all_goals
      cases h
      exact fun _ _ h => h
  | dispatch =>
    rcases hs.dispatch_cases h with rfl | ⟨-, rfl⟩ | ⟨name, i, b, hname, hfind, hb, rfl⟩
    · exact fun _ _ h => h
    · exact fun _ _ h => h
    · exact (of_chargeInstruction hfind hb).2.2.1
  | setInstructionBudget o limit =>
    obtain ⟨-, h⟩ := Option.ite_none_right_eq_some.mp h
    cases h
    exact extends_setInstructionBudget _ o limit
  | resetInstructionUsage o =>
    obtain ⟨-, h⟩ := Option.ite_none_right_eq_some.mp h
    cases h
    exact extends_resetInstructionUsage _ o

theorem metered_init : ({} : MeterState).Metered := ⟨rfl, rfl, trivial, rfl⟩

/-! ### Usage in a budget period -/

/-- Since the state `s₀`, in which the budget of `o` was `b`, the owner was charged for each of the
    instructions dispatched for it, and these fit in what was left of the limit. -/
structure Period (s₀ : MeterState) (o : String) (b : InstructionBudget) (s : MeterState) : Prop where
  fits : ∃ (d : List (Option String)) (b' : InstructionBudget), s.dispatched = d ++ s₀.dispatched ∧
    s.budgets.instructionBudget o = some b' ∧ b'.limit = b.limit ∧
    b'.used.toNat = min (UInt64.size - 1) (b.used.toNat + d.count (some o)) ∧
    ∀ limit ∈ b.limit, d.count (some o) ≤ limit.toNat - b.used.toNat

theorem toNat_saturatingSucc (n : UInt64) : (saturatingSucc n).toNat = min (UInt64.size - 1) (n.toNat + 1) := by
  have hlt : n.toNat < UInt64.size := n.toNat_lt
  unfold saturatingSucc
  split
  · next h =>
    rw [UInt64.toNat_add]
    have : (1 : UInt64).toNat = 1 := rfl
    rw [this, Nat.mod_eq_of_lt h]
    omega
  · omega

variable {s₀ : MeterState} {o : String} {b : InstructionBudget}

theorem period_refl (hb : s₀.budgets.instructionBudget o = some b) : Period s₀ o b s₀ := by
  refine ⟨[], b, rfl, hb, rfl, ?_, fun _ _ => Nat.zero_le _⟩
  have hlt : b.used.toNat < UInt64.size := b.used.toNat_lt
  simp only [List.count_nil]
  omega

/-- Steps that dispatch nothing and leave the budget of `o` alone. -/
theorem Period.keep {s : MeterState} (h : Period s₀ o b s) (hd : s'.dispatched = s.dispatched)
    (hb : ∀ b', s.budgets.instructionBudget o = some b' → s'.budgets.instructionBudget o = some b') :
    Period s₀ o b s' := by
  obtain ⟨d, b', hdisp, hget, hlimit, hused, hfit⟩ := h.fits
  exact ⟨d, b', hd.trans hdisp, hb b' hget, hlimit, hused, hfit⟩

theorem Period.dispatch {s : MeterState} (h : Period s₀ o b s) (hs : s.Metered) (hst : s.dispatch = some s') :
    Period s₀ o b s' := by
  obtain ⟨d, b', hdisp, hget, hlimit, hused, hfit⟩ := h.fits
  rcases hs.dispatch_cases hst with rfl | ⟨-, rfl⟩ | ⟨name, i, budgets, hname, hfind, hb, rfl⟩
  · exact h
  · refine ⟨none :: d, b', by rw [hdisp]; rfl, hget, hlimit, ?_, ?_⟩
    · rwa [List.count_cons_of_ne (by simp)]
    · rwa [List.count_cons_of_ne (by simp)]
  · obtain ⟨-, -, -, budget, hbudget, hroom, hafter, hothers⟩ := of_chargeInstruction hfind hb
    by_cases hown : o = name
    · subst hown
      have hsame : budget = b' := Option.some.inj (hbudget.symm.trans hget)
      subst hsame
      have hlt : budget.used.toNat < UInt64.size := budget.used.toNat_lt
      refine ⟨some o :: d, _, by rw [hdisp]; rfl, hafter, hlimit, ?_, ?_⟩
      · simp only [toNat_saturatingSucc, hused, List.count_cons_self]
        omega
      · intro limit hmem
        have hroom' : budget.used.toNat < limit.toNat := hroom limit (by rw [hlimit]; exact hmem)
        have hle := hfit limit hmem
        have hsize : limit.toNat < UInt64.size := limit.toNat_lt
        rw [List.count_cons_self]
        omega
    · have hne : (some name : Option String) ≠ some o := fun e => hown (Option.some.inj e).symm
      refine ⟨some name :: d, b', by rw [hdisp]; rfl, hothers o hown b' hget, hlimit, ?_, ?_⟩
      · rwa [List.count_cons_of_ne hne]
      · rwa [List.count_cons_of_ne hne]

theorem Period.step {s : MeterState} (h : Period s₀ o b s) (hs : s.Metered) {op : MeterOp}
    (hop : op.configures o = false) (hst : s.step op = some s') : Period s₀ o b s' := by
  cases op with
  | execute => cases hst; exact h.keep rfl fun _ hb => hb
  | native => cases hst; exact h.keep rfl fun _ hb => hb
  | withInstructionOwner owner =>
    obtain ⟨-, hst⟩ := Option.ite_none_right_eq_some.mp hst
    cases hst
    unfold enterOwner
    split
    · exact h
    · exact h.keep rfl fun _ hb => hb
  | withInstructionBudgetExemption =>
    obtain ⟨-, hst⟩ := Option.ite_none_right_eq_some.mp hst
    cases hst
    exact h.keep rfl fun _ hb => hb
  | leave how =>
    unfold MeterState.step MeterState.leave at hst
    dsimp only at hst
    split at hst
    · cases hst
    all_goals
      cases hst
      exact h.keep rfl fun _ hb => hb
  | dispatch => exact h.dispatch hs hst
  | setInstructionBudget owner limit =>
    obtain ⟨-, hst⟩ := Option.ite_none_right_eq_some.mp hst
    cases hst
    have hne : o ≠ owner := by simpa [MeterOp.configures, eq_comm] using hop
    exact h.keep rfl fun _ hb => instructionBudget_set_ne hne limit hb
  | resetInstructionUsage owner =>
    obtain ⟨-, hst⟩ := Option.ite_none_right_eq_some.mp hst
    cases hst
    have hne : o ≠ owner := by simpa [MeterOp.configures, eq_comm] using hop
    exact h.keep rfl fun _ hb => instructionBudget_reset_ne hne hb

end MeterState

end Rilua.Vm
