import Rilua.Vm.Instructions
import Rilua.Vm.Value

/-! Function prototypes (`vm/proto.rs`): the instructions of a function, its constants, the prototypes
    nested in it and its debug information. -/

namespace Rilua.Vm

/-- Debug information on a local variable: its name and the instructions in which it is active. -/
structure LocalVar where
  name : String
  startPc : BitVec 32
  endPc : BitVec 32
  deriving DecidableEq

/-- A string constant that has not been interned yet: the index of its placeholder in the constants. -/
structure StringPoolEntry where
  index : BitVec 32
  bytes : List UInt8
  hash : UInt32
  deriving DecidableEq

/-- A function prototype. -/
structure Proto where
  code : List (BitVec 32) := []
  constants : List Val := []
  protos : List Proto := []
  lineInfo : List (BitVec 32) := []
  localVars : List LocalVar := []
  upvalueNames : List String := []
  source : String := ""
  lineDefined : BitVec 32 := 0
  lastLineDefined : BitVec 32 := 0
  numUpvalues : UInt8 := 0
  numParams : UInt8 := 0
  isVararg : UInt8 := 0
  maxStackSize : UInt8 := 2
  stringPool : List StringPoolEntry := []
  globalSlotNames : List (Option (List UInt8)) := []

namespace Proto

/-- A new prototype for a source. -/
def new (source : String) : Proto := { source }

mutual

/-- The constants of the whole prototype tree, in the order the collector visits them. -/
def allConstants : Proto → List Val
  | { constants, protos, .. } => constants ++ allConstantsList protos

def allConstantsList : List Proto → List Val
  | [] => []
  | p :: ps => p.allConstants ++ allConstantsList ps

end

theorem allConstantsList_eq : ∀ ps, allConstantsList ps = ps.flatMap allConstants
  | [] => rfl
  | p :: ps => by rw [allConstantsList, allConstantsList_eq ps, List.flatMap_cons]

theorem allConstants_eq (p : Proto) : p.allConstants = p.constants ++ p.protos.flatMap allConstants := by
  obtain ⟨⟩ := p
  rw [allConstants, allConstantsList_eq]

theorem sizeOf_child {p c : Proto} (h : c ∈ p.protos) : sizeOf c < sizeOf p := by
  have hlt := List.sizeOf_lt_of_mem h
  have hle : sizeOf p.protos < sizeOf p := by
    obtain ⟨⟩ := p
    simp only [Proto.mk.sizeOf_spec]
    omega
  omega

/-- Induction on the tree of prototypes. -/
theorem induction {P : Proto → Prop} (step : ∀ p : Proto, (∀ c ∈ p.protos, P c) → P p) (p : Proto) :
    P p := by
  induction hn : sizeOf p using Nat.strong_induction_on generalizing p with
  | _ n ih =>
    subst hn
    exact step p fun c hc => ih _ (sizeOf_child hc) c rfl

/-- `P` holds of the prototype and of all prototypes nested in it. -/
inductive Forall (P : Proto → Prop) : Proto → Prop
  | mk {p : Proto} (root : P p) (children : ∀ c ∈ p.protos, Forall P c) : Forall P p

namespace Forall

variable {P Q : Proto → Prop} {p : Proto}

theorem root (h : Forall P p) : P p := by
  cases h with
  | mk root _ => exact root

theorem child (h : Forall P p) {c : Proto} (hc : c ∈ p.protos) : Forall P c := by
  cases h with
  | mk _ children => exact children c hc

theorem forall_iff : Forall P p ↔ P p ∧ ∀ c ∈ p.protos, Forall P c :=
  ⟨fun h => ⟨h.root, fun _ => h.child⟩, fun h => .mk h.1 h.2⟩

theorem mono (hPQ : ∀ p, P p → Q p) (h : Forall P p) : Forall Q p := by
  induction h with
  | mk root _ ih => exact .mk (hPQ _ root) ih

end Forall

end Proto

end Rilua.Vm
