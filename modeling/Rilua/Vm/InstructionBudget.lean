import Mathlib.Data.List.Basic
import Rilua.Lib.Run

/-! Instruction budgets (`vm/state/instruction_budget.rs`) and the metering of the interpreter loop
    (`execute` and `execute_inner` of `vm/execute.rs`). Host code opens owner and exemption scopes around
    calls into the interpreter; which activation meters is decided when it is entered. -/

namespace Rilua.Vm

open Lib

/-- Snapshot of an owner's usage. Without a limit it is metered only. -/
structure InstructionBudget where
  limit : Option UInt64
  used : UInt64
  deriving DecidableEq

structure InstructionBudgets where
  owners : List (String × InstructionBudget) := []
  active : Option ℕ := none
  exempt : Bool := false
  deriving DecidableEq

/-- `saturating_add(1)`. -/
def saturatingSucc (n : UInt64) : UInt64 := if n.toNat + 1 < UInt64.size then n + 1 else n

namespace InstructionBudgets

def findInstructionOwner (b : InstructionBudgets) (owner : String) : Option ℕ :=
  b.owners.findIdx? fun p => p.1 = owner

def instructionBudget (b : InstructionBudgets) (owner : String) : Option InstructionBudget :=
  (b.findInstructionOwner owner).bind fun i => (b.owners[i]?).map Prod.snd

/-- Configures a budget, resetting its usage. -/
def setInstructionBudget (b : InstructionBudgets) (owner : String) (limit : Option UInt64) : InstructionBudgets :=
  let budget : InstructionBudget := ⟨limit, 0⟩
  match b.findInstructionOwner owner with
  | some i => { b with owners := b.owners.modify i fun p => (p.1, budget) }
  | none => { b with owners := b.owners ++ [(owner, budget)] }

/-- Starts a new budget period; `none` if the owner is not configured. -/
def resetInstructionUsage (b : InstructionBudgets) (owner : String) : Option InstructionBudgets :=
  (b.findInstructionOwner owner).map fun i =>
    { b with owners := b.owners.modify i fun p => (p.1, { p.2 with used := 0 }) }

/-- Charges one instruction to the owner with index `i`; `none` if its budget is exhausted. -/
def chargeInstruction (b : InstructionBudgets) (i : ℕ) : Option InstructionBudgets :=
  match b.owners[i]? with
  | none => none
  | some (_, budget) =>
    if budget.limit.any fun limit => limit ≤ budget.used then none
    else some { b with
      owners := b.owners.modify i fun p => (p.1, { p.2 with used := saturatingSucc p.2.used }) }

/-- The name of an owner. -/
def ownerName (b : InstructionBudgets) (i : ℕ) : Option String := (b.owners[i]?).map Prod.fst

end InstructionBudgets

/-- What is in progress on the native stack: the interpreter loop, a native function, or a host scope with
    what it restores. -/
inductive MeterFrame where
  | execute (metered : Bool)
  | native
  | owner (name : String) (previous : Option ℕ)
  | exemption (previousOwner : Option ℕ) (previousExempt : Bool)

/-- How an activation ends. -/
inductive MeterExit where | returned | error | yielded | panicked

/-- The budgets and the native stack, innermost activation first. `dispatched` records for each instruction
    the innermost active owner, `charged` the owners that were charged; both last first. -/
structure MeterState where
  budgets : InstructionBudgets := {}
  frames : List MeterFrame := []
  dispatched : List (Option String) := []
  charged : List String := []

inductive MeterOp where
  /-- An activation of the interpreter loop is entered. -/
  | execute
  /-- Native code is entered: a library function, a metamethod, a hook, a finalizer, a resume. -/
  | native
  | withInstructionOwner (owner : String)
  | withInstructionBudgetExemption
  /-- The innermost activation or scope ends. -/
  | leave (how : MeterExit)
  | dispatch
  | setInstructionBudget (owner : String) (limit : Option UInt64)
  | resetInstructionUsage (owner : String)

/-- The host starts a new budget period for `owner`. -/
def MeterOp.configures (owner : String) : MeterOp → Bool
  | .setInstructionBudget o _ | .resetInstructionUsage o => o = owner
  | _ => false

/-- The innermost active owner, and whether an exemption is in force. -/
def scopeOf : List MeterFrame → Option String × Bool
  | [] => (none, false)
  | .execute _ :: fs | .native :: fs => scopeOf fs
  | .owner name _ :: fs => if (scopeOf fs).2 then (none, true) else (some name, false)
  | .exemption .. :: _ => (none, true)

namespace MeterState

/-- Host code runs, not the interpreter loop. -/
def inHost (s : MeterState) : Bool :=
  match s.frames with
  | .execute _ :: _ => false
  | _ => true

/-- `with_instruction_owner`, up to its operation. An owner that is not configured is an error. -/
def enterOwner (s : MeterState) (owner : String) : MeterState :=
  match s.budgets.findInstructionOwner owner with
  | none => s
  | some i =>
    { s with
      frames := .owner owner s.budgets.active :: s.frames
      budgets := { s.budgets with active := if s.budgets.exempt then none else some i } }

/-- `with_instruction_budget_exemption`, up to its operation. -/
def enterExemption (s : MeterState) : MeterState :=
  { s with
    frames := .exemption s.budgets.active s.budgets.exempt :: s.frames
    budgets := { s.budgets with active := none, exempt := true } }

/-- The innermost activation ends. A scope is left in the same way however it ends. -/
def leave (s : MeterState) : Option MeterState :=
  match s.frames with
  | [] => none
  | .execute _ :: fs | .native :: fs => some { s with frames := fs }
  | .owner _ previous :: fs => some { s with frames := fs, budgets := { s.budgets with active := previous } }
  | .exemption previousOwner previousExempt :: fs =>
    some { s with
      frames := fs
      budgets := { s.budgets with exempt := previousExempt, active := previousOwner } }

/-- One turn of the interpreter loop. With an exhausted budget the instruction is not dispatched. -/
def dispatch (s : MeterState) : Option MeterState :=
  match s.frames with
  | .execute metered :: _ =>
    match if metered then s.budgets.active else none with
    | none => some { s with dispatched := (scopeOf s.frames).1 :: s.dispatched }
    | some i =>
      match s.budgets.chargeInstruction i with
      | none => some s
      | some budgets =>
        some { s with
          budgets
          dispatched := (scopeOf s.frames).1 :: s.dispatched
          charged := (s.budgets.ownerName i).toList ++ s.charged }
  | _ => none

def step (s : MeterState) : MeterOp → Option MeterState
  | .execute => some { s with frames := .execute s.budgets.active.isSome :: s.frames }
  | .native => some { s with frames := .native :: s.frames }
  | .withInstructionOwner owner => if s.inHost then some (s.enterOwner owner) else none
  | .withInstructionBudgetExemption => if s.inHost then some s.enterExemption else none
  | .leave _ => s.leave
  | .dispatch => s.dispatch
  | .setInstructionBudget owner limit =>
    if s.inHost then some { s with budgets := s.budgets.setInstructionBudget owner limit } else none
  | .resetInstructionUsage owner =>
    if s.inHost then
      some { s with budgets := (s.budgets.resetInstructionUsage owner).getD s.budgets }
    else none

end MeterState

end Rilua.Vm
