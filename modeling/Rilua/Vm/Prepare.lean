import Rilua.Vm.Dump
import Rilua.Vm.Interning
import Rilua.Vm.Object

/-! Preparing a loaded prototype for execution (`lib.rs`): its string constants are interned, and where
    the embedder has installed global slots, accesses to the globals that have one are rewritten to slot
    opcodes. -/

namespace Rilua.Vm

open Lib Gc

/-- The part of the state that preparing a prototype reads and writes. -/
structure PrepareState where
  gc : InternState := {}
  globalSlots : Option GlobalSlotRuntime := none

/-- Interns the entries of a string pool and puts the references in the place of the placeholders. -/
def patchEntries : List StringPoolEntry → List Val → InternState → Option (InternState × List Val)
  | [], constants, gc => some (gc, constants)
  | entry :: pool, constants, gc => do
    let (gc, r) ← gc.call (.internHashedOwned entry.bytes entry.hash)
    if entry.index.toNat < constants.length then
      patchEntries pool (constants.set entry.index.toNat (.str r)) gc
    else none

mutual

def patchStringConstantsInner (gc : InternState) : Proto → Option (InternState × Proto)
  | p@{ protos, .. } => do
    let (gc, constants) ← patchEntries p.stringPool p.constants gc
    let (gc, protos) ← patchStringConstantsList gc protos
    some (gc, { p with constants, protos, stringPool := [] })

def patchStringConstantsList (gc : InternState) : List Proto → Option (InternState × List Proto)
  | [] => some (gc, [])
  | p :: ps => do
    let (gc, p) ← patchStringConstantsInner gc p
    let (gc, ps) ← patchStringConstantsList gc ps
    some (gc, p :: ps)

end

mutual

def countStringConstants : Proto → ℕ
  | { stringPool, protos, .. } => stringPool.length + countStringConstantsList protos

def countStringConstantsList : List Proto → ℕ
  | [] => 0
  | p :: ps => countStringConstants p + countStringConstantsList ps

end

/-- Interns all string constants of a prototype. -/
def patchStringConstants (gc : InternState) (p : Proto) : Option (InternState × Proto) := do
  let strings ← gc.strings.reserve (countStringConstants p) gc.stringArena
  patchStringConstantsInner { gc with strings } p

/-- The slot an instruction accesses. A store to the global of slot 0 is left as it is. -/
def resolveSlotIndex (rt : GlobalSlotRuntime) (constants : List Val) (op : OpCode) (bx : ℕ) :
    Option (BitVec 32) :=
  match op with
  | .getGlobal | .setGlobal =>
    match constants[bx]? with
    | some (.str r) => (rt.keyToSlot r).filter fun slotIdx => !(op = .setGlobal ∧ slotIdx = 0)
    | _ => none
  | .getGlobalSlot | .setGlobalSlot => some (BitVec.ofNat 32 bx)
  | _ => none

/-- The slot opcode for an access to a global. -/
def slotOpcode : OpCode → Option OpCode
  | .getGlobal => some .getGlobalSlot
  | .setGlobal => some .setGlobalSlot
  | .getGlobalSlot => some .getGlobalSlot
  | .setGlobalSlot => some .setGlobalSlot
  | _ => none

/-- Records the name of a slot for error messages, unless it is there already. -/
def populateSlotDebugName (rt : GlobalSlotRuntime) (arena : StringArena) (names : List (Option (List UInt8)))
    (slotIdx : ℕ) : List (Option (List UInt8)) :=
  let names := names ++ List.replicate (slotIdx + 1 - names.length) none
  match names[slotIdx]?.join with
  | some _ => names
  | none =>
    match (rt.nameKeys[slotIdx]?).bind arena.get with
    | some s => names.set slotIdx (some s.data)
    | none => names

/-- The loop body of `patch_global_slot_opcodes`: the instruction rewritten, and the slot. -/
def patchInstruction (rt : GlobalSlotRuntime) (constants : List Val) (instr : Instruction) :
    Option (Instruction × BitVec 32) := do
  let slotOp ← slotOpcode instr.opcode
  let slotIdx ← resolveSlotIndex rt constants instr.opcode instr.bx.toNat
  some ((instr.setOpcode slotOp).setBx slotIdx, slotIdx)

/-- The loop over the instructions. -/
def patchCode (rt : GlobalSlotRuntime) (arena : StringArena) (constants : List Val) :
    List (BitVec 32) → List (Option (List UInt8)) → List (BitVec 32) × List (Option (List UInt8))
  | [], names => ([], names)
  | raw :: code, names =>
    match patchInstruction rt constants ⟨raw⟩ with
    | some (instr, slotIdx) =>
      let (code, names) := patchCode rt arena constants code (populateSlotDebugName rt arena names slotIdx.toNat)
      (instr.raw :: code, names)
    | none =>
      let (code, names) := patchCode rt arena constants code names
      (raw :: code, names)

mutual

def patchGlobalSlots (rt : GlobalSlotRuntime) (arena : StringArena) : Proto → Proto
  | p@{ protos, .. } =>
    let (code, globalSlotNames) := patchCode rt arena p.constants p.code p.globalSlotNames
    { p with code, globalSlotNames, protos := patchGlobalSlotsList rt arena protos }

def patchGlobalSlotsList (rt : GlobalSlotRuntime) (arena : StringArena) : List Proto → List Proto
  | [] => []
  | p :: ps => patchGlobalSlots rt arena p :: patchGlobalSlotsList rt arena ps

end

/-- Rewrites the accesses to globals that have a slot. -/
def patchGlobalSlotOpcodes (st : PrepareState) (p : Proto) : Proto :=
  match st.globalSlots with
  | some rt => patchGlobalSlots rt st.gc.stringArena p
  | none => p

/-- Prepares a prototype for execution. -/
def prepareLoadedProto (st : PrepareState) (p : Proto) : Option (PrepareState × Proto) := do
  let (gc, p) ← patchStringConstants st.gc p
  let st := { st with gc }
  some (st, patchGlobalSlotOpcodes st p)

theorem patchStringConstantsList_cons (gc : InternState) (p : Proto) (ps : List Proto) :
    patchStringConstantsList gc (p :: ps) = (patchStringConstantsInner gc p).bind fun x =>
      (patchStringConstantsList x.1 ps).map fun y => (y.1, x.2 :: y.2) := by
  rw [patchStringConstantsList]
  cases patchStringConstantsInner gc p with
  | none => rfl
  | some x =>
    simp only [Option.bind_some, Option.bind_eq_bind]
    cases patchStringConstantsList x.1 ps <;> rfl

theorem patchGlobalSlotsList_eq (rt : GlobalSlotRuntime) (arena : StringArena) :
    ∀ ps, patchGlobalSlotsList rt arena ps = ps.map (patchGlobalSlots rt arena)
  | [] => rfl
  | p :: ps => by rw [patchGlobalSlotsList, patchGlobalSlotsList_eq rt arena ps, List.map_cons]

/-- The instruction that takes the place of `raw`. -/
def patchedRaw (rt : GlobalSlotRuntime) (constants : List Val) (raw : BitVec 32) : BitVec 32 :=
  (patchInstruction rt constants ⟨raw⟩).elim raw fun x => x.1.raw

/-- Each instruction is rewritten by itself. -/
theorem patchCode_fst (rt : GlobalSlotRuntime) (arena : StringArena) (constants : List Val) :
    ∀ code names, (patchCode rt arena constants code names).1 = code.map (patchedRaw rt constants)
  | [], _ => rfl
  | raw :: code, names => by
    rw [patchCode, List.map_cons, patchedRaw]
    cases patchInstruction rt constants ⟨raw⟩ with
    | none => exact congrArg (raw :: ·) (patchCode_fst rt arena constants code names)
    | some x => exact congrArg (x.1.raw :: ·) (patchCode_fst rt arena constants code _)

/-! ### Interning the constants -/

namespace InternState

/-- Every string of `s` is still there in `s'`. -/
def Extends (s s' : InternState) : Prop := ∀ r x, s.stringArena.get r = some x → s'.stringArena.get r = some x

theorem Extends.refl (s : InternState) : Extends s s := fun _ _ => id

theorem Extends.trans {s s' s'' : InternState} (h : Extends s s') (h' : Extends s' s'') : Extends s s'' :=
  fun r x hx => h' r x (h r x hx)

/-- `n` more strings can be created. -/
def HasRoom (s : InternState) (n : ℕ) : Prop := s.stringArena.len + n < u32Size

instance (s : InternState) (n : ℕ) : Decidable (s.HasRoom n) := inferInstanceAs (Decidable (_ < _))

/-- While there is room a call succeeds; the string is there then, beside those that were. -/
theorem call_total {s : InternState} (h : s.Inv) {n : ℕ} (hroom : s.HasRoom (n + 1)) {c : InternCall}
    (hc : c.HashOk) :
    ∃ s' r, s.call c = some (s', r) ∧ s'.Inv ∧ Extends s s' ∧ s'.Denotes r c.data ∧ s'.HasRoom n := by
  have hsucc : ∃ s' r, s.call c = some (s', r) ∧ s'.HasRoom n := by
    rw [HasRoom] at hroom
    rw [call_eq s hc]
    simp only [StringTable.internHashed]
    have hlt := StringTable.bucketIdx_lt (luaHash c.data) h.buckets_pos
    rw [List.getElem?_eq_getElem hlt]
    simp only [Option.bind_eq_bind, Option.bind_some]
    split
    · refine ⟨_, _, rfl, ?_⟩
      simp only [HasRoom, resurrectIfDead, Arena.setColor]
      split
      · split <;> simp only <;> omega
      · omega
    · obtain ⟨a', r, halloc, hlen⟩ := Arena.alloc_isSome h.wf ⟨luaHash c.data, c.data⟩ s.currentWhite
        (by omega)
      rw [halloc]
      refine ⟨_, _, rfl, ?_⟩
      simp only [HasRoom, hlen]
      omega
  obtain ⟨s', r, hcall, hroom'⟩ := hsucc
  have hres := call_cases h hc hcall
  obtain ⟨h', -, ⟨y, hy, hyv, -⟩, -⟩ := hres.spec h
  refine ⟨s', r, hcall, h', ?_, by rw [Denotes, Arena.get_eq_cell h'.wf, hy, Option.map_some, hyv], hroom'⟩
  intro r' x hx
  cases hres with
  | found _ hr =>
    have hcell := cellStep_resurrect h.wf h.white r r'
    rw [Arena.get_eq_cell h.wf] at hx
    obtain ⟨z, hz, rfl⟩ := Option.map_eq_some_iff.mp hx
    rw [Arena.get_eq_cell (resurrectIfDead_wf h.wf r s.currentWhite)]
    rw [hz] at hcell
    cases hz' : (resurrectIfDead s.stringArena r s.currentWhite).cell r' with
    | none =>
      -- recolouring frees nothing
      rw [resurrectIfDead] at hz'
      split at hz'
      · rw [Arena.cell_setColor h.wf, hz] at hz'
        split at hz' <;> cases hz'
      · rw [hz] at hz'; cases hz'
    | some z' =>
      rw [hz'] at hcell
      rw [Option.map_some, hcell.1]
  | fresh t a _ hnone halloc =>
    have hfresh := Arena.cell_alloc_fresh h.wf halloc
    rw [Arena.get_eq_cell h.wf] at hx
    rw [Arena.get_eq_cell (h.wf.alloc halloc), Arena.cell_alloc h.wf halloc, if_neg, hx]
    rintro rfl
    rw [hfresh] at hx
    cases hx

end InternState

end Rilua.Vm
