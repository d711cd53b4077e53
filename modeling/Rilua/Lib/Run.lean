import Mathlib.Logic.Relation
import Mathlib.Tactic.SplitIfs

/-! Runs of a partial transition system. A step may be undefined (`none`: the program stops there), a
    run is a finite sequence of defined steps, and `ok` is a condition on the state before each step.
    Everything a development proves about "every state reached" is an instance of `Run.invariant`. -/

namespace Lib

variable {σ ω : Type*}

/-- `Run step ok s ops s'`: performing `ops` from `s` is defined throughout, ends in `s'`, and every
    step met `ok` in the state it started from. -/
inductive Run (step : σ → ω → Option σ) (ok : σ → ω → Prop) : σ → List ω → σ → Prop
  | nil (s : σ) : Run step ok s [] s
  | cons {s s' s'' : σ} {op : ω} {ops : List ω} (hok : ok s op) (hstep : step s op = some s')
      (hrun : Run step ok s' ops s'') : Run step ok s (op :: ops) s''

/-- Performing `ops` one after the other. -/
def exec (step : σ → ω → Option σ) : σ → List ω → Option σ
  | s, [] => some s
  | s, op :: ops => (step s op).bind fun s' => exec step s' ops

/-- `P` holds in every state that performing `ops` goes through. -/
def Always (step : σ → ω → Option σ) (P : σ → Prop) : σ → List ω → Prop
  | s, [] => P s
  | s, op :: ops => P s ∧ ∀ s', step s op = some s' → Always step P s' ops

variable {step : σ → ω → Option σ} {ok ok' : σ → ω → Prop}

theorem Always.start {P : σ → Prop} {s : σ} {ops : List ω} (h : Always step P s ops) : P s := by
  cases ops with
  | nil => exact h
  | cons op ops => exact h.1

namespace Run

/-- What holds at the start and is kept by every permitted step holds at the end. -/
theorem invariant (Inv : σ → Prop) (hstep : ∀ s op s', Inv s → ok s op → step s op = some s' → Inv s')
    {s s' : σ} {ops : List ω} (hrun : Run step ok s ops s') (hs : Inv s) : Inv s' := by
  induction hrun with
  | nil => exact hs
  | cons hok hst _ ih => exact ih (hstep _ _ _ hs hok hst)

/-- What every permitted step keeps as long as `P` holds. -/
theorem invariant_of_always {P : σ → Prop} (Inv : σ → Prop)
    (hstep : ∀ s op s', Inv s → P s → ok s op → step s op = some s' → Inv s') {s s' : σ} {ops : List ω}
    (hrun : Run step ok s ops s') (hP : Always step P s ops) (hs : Inv s) : Inv s' := by
  induction hrun with
  | nil => exact hs
  | cons hok hst _ ih => exact ih (hP.2 _ hst) (hstep _ _ _ hs hP.1 hok hst)

/-- What holds throughout holds at the end. -/
theorem always_end {P : σ → Prop} {s s' : σ} {ops : List ω} (hrun : Run step ok s ops s') (hP : Always step P s ops) :
    P s' := by
  induction hrun with
  | nil => exact hP
  | cons _ hst _ ih => exact ih (hP.2 _ hst)

theorem append {s s' s'' : σ} {ops ops' : List ω} (h : Run step ok s ops s')
    (h' : Run step ok s' ops' s'') : Run step ok s (ops ++ ops') s'' := by
  induction h with
  | nil => exact h'
  | cons hok hst _ ih => exact .cons hok hst (ih h')

theorem single {s s' : σ} {op : ω} (hok : ok s op) (hstep : step s op = some s') :
    Run step ok s [op] s' :=
  .cons hok hstep (.nil _)

/-- A run under a stronger condition is a run under a weaker one. -/
theorem mono (hw : ∀ s op, ok s op → ok' s op) {s s' : σ} {ops : List ω}
    (h : Run step ok s ops s') : Run step ok' s ops s' := by
  induction h with
  | nil => exact .nil _
  | cons hok hst _ ih => exact .cons (hw _ _ hok) hst ih

/-- Systems that take the same permitted steps have the same runs. -/
theorem congr {step' : σ → ω → Option σ} (hsame : ∀ s op, ok s op → step s op = step' s op) {s s' : σ} {ops : List ω} :
    Run step ok s ops s' ↔ Run step' ok s ops s' := by
  constructor
  · intro h
    induction h with
    | nil => exact .nil _
    | cons hok hst _ ih => exact .cons hok ((hsame _ _ hok).symm.trans hst) ih
  · intro h
    induction h with
    | nil => exact .nil _
    | cons hok hst _ ih => exact .cons hok ((hsame _ _ hok).trans hst) ih

theorem exec_eq {s s' : σ} {ops : List ω} (h : Run step ok s ops s') : exec step s ops = some s' := by
  induction h with
  | nil => rfl
  | cons _ hst _ ih => simp [exec, hst, ih]

end Run

theorem exec_append (s : σ) (ops ops' : List ω) :
    exec step s (ops ++ ops') = (exec step s ops).bind fun s' => exec step s' ops' := by
  induction ops generalizing s with
  | nil => rfl
  | cons op ops ih =>
    simp only [List.cons_append, exec]
    cases step s op with
    | none => rfl
    | some s' => simpa using ih s'

/-- Executions are exactly the runs without a condition on their steps. -/
theorem run_of_exec {s s' : σ} {ops : List ω} (h : exec step s ops = some s') :
    Run step (fun _ _ => True) s ops s' := by
  induction ops generalizing s with
  | nil => cases h; exact .nil _
  | cons op ops ih =>
    obtain ⟨t, ht, hrest⟩ := Option.bind_eq_some_iff.mp h
    exact .cons trivial ht (ih hrest)

/-- What the steps of a run put out, in order. -/
def emitted {τ : Type*} (step : σ → ω → Option σ) (emit : σ → ω → List τ) : σ → List ω → List τ
  | _, [] => []
  | s, op :: ops => emit s op ++ ((step s op).map fun s' => emitted step emit s' ops).getD []

/-- A log to which every permitted step adds what it puts out. -/
theorem Run.log_eq {τ : Type*} (Inv : σ → Prop) (log : σ → List τ) (emit : σ → ω → List τ)
    (hstep : ∀ s op s', Inv s → ok s op → step s op = some s' → Inv s' ∧ log s' = log s ++ emit s op)
    {s s' : σ} {ops : List ω} (hrun : Run step ok s ops s') (hs : Inv s) :
    log s' = log s ++ emitted step emit s ops := by
  induction hrun with
  | nil s => simp [emitted]
  | cons hok hst hrun ih =>
    obtain ⟨hinv, hlog⟩ := hstep _ _ _ hs hok hst
    rw [ih hinv, hlog, emitted, hst, Option.map_some, Option.getD_some, List.append_assoc]

/-- Performing `ops` as long as `check` says that they may be performed. -/
def execIf (step : σ → ω → Option σ) (check : σ → ω → Bool) : σ → List ω → Option σ
  | s, [] => some s
  | s, op :: ops => if check s op then (step s op).bind fun s' => execIf step check s' ops else none

theorem run_of_execIf {check : σ → ω → Bool} (hcheck : ∀ s op, check s op = true → ok s op) {s s' : σ} {ops : List ω}
    (h : execIf step check s ops = some s') : Run step ok s ops s' := by
  induction ops generalizing s with
  | nil => cases h; exact .nil _
  | cons op ops ih =>
    rw [execIf] at h
    split_ifs at h with hop
    obtain ⟨t, ht, hrest⟩ := Option.bind_eq_some_iff.mp h
    exact .cons (hcheck _ _ hop) ht (ih hrest)

end Lib
