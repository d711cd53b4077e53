import Rilua.Vm.ApiAccess
import Rilua.Vm.DebugInfo
import Rilua.Vm.Prepare

/-! Accesses to globals (`vm/execute.rs`): GETGLOBAL and SETGLOBAL, and the slot opcodes that take their place. What
    other instructions do is a parameter, as are hooks, the calls of metamethods and the handling of errors. They see
    the code through the words that an instruction reads and through the names that error messages have for
    registers. -/

namespace Rilua.Vm

open Lib Gc

/-- The runtime of global slots with the table that the values have been captured from. -/
structure SlotRuntime extends GlobalSlotRuntime where
  rootGlobal : GcRef .table

/-- The activation of a Lua function; `fn` is the number of its prototype. -/
structure CodeActivation where
  fn : ℕ
  env : GcRef .table
  base : ℕ
  pc : ℕ
  savedPc : ℕ

/-- The interpreter: what accesses to globals read and write, and the rest of the state. -/
structure Interp (W : Type) where
  access : AccessState
  registry : GcRef .table
  stack : ℕ → Val
  frame : CodeActivation
  world : W

abbrev InterpM (W α : Type) : Type := Act (Interp W) Unit LuaError α

/-- An instruction with the words behind it that it reads. -/
structure Fetched where
  instr : Instruction
  operands : List (BitVec 32)

/-- The names of registers: for a function, an instruction of it and a register. -/
abbrev Names := ℕ → ℕ → ℕ → Option (Option ObjName)

/-- The rest of the interpreter. The strings that code refers to are kept, and do not change. -/
structure InterpHost (W : Type) where
  text : GcRef .string → Option (List UInt8)
  /-- Interrupts, metering and hooks. -/
  before : Names → InterpM W Unit
  other : Names → Fetched → InterpM W Unit
  callIndex : Names → Val → Val → Val → Bool → ℕ → InterpM W Unit
  callNewindex : Names → Val → Val → Val → Val → InterpM W Unit
  raise : Names → LuaError → Interp W → Option (Interp W)

/-- The number of words behind an instruction that it reads. -/
def Proto.operandWords (p : Proto) (i : Instruction) : ℕ :=
  match i.opcode with
  | .eq | .lt | .le | .test | .testSet | .tForLoop => 1
  | .setList => if i.c = 0 then 1 else 0
  | .closure => (p.protos[i.bx.toNat]?).elim 0 fun child => child.numUpvalues.toNat
  | _ => 0

def Proto.fetched (p : Proto) (pc : ℕ) (i : Instruction) : Fetched :=
  ⟨i, (p.code.drop pc).take (p.operandWords i)⟩

namespace Interp

variable {W : Type}

def lookupSlotShadowTable (rt : SlotRuntime) (s : Interp W) : Option (GcRef .table) := do
  let key ← rt.shadowRegistryKey
  let registry ← s.access.tables.gc.heap.get s.registry
  match registry.get (.str key) s.access.tables.gc.heap.strings with
  | some (.table r) => some r
  | _ => none

end Interp

namespace InterpM

variable {W : Type} (host : InterpHost W) (names : Names)

def onAccess {α : Type} (x : AccessM α) : InterpM W α := fun s =>
  (x s.access).map fun (access, w, res) => ({ s with access }, w, res)

def stackSet (reg : ℕ) (v : Val) : InterpM W Unit :=
  Act.modify fun s => { s with stack := Function.update s.stack reg v }

def savePc (pc : ℕ) : InterpM W Unit :=
  Act.modify fun s => { s with frame := { s.frame with savedPc := pc } }

/-- The read of a global in a table. -/
def getGlobalIn (table : GcRef .table) (key : Val) (pc resultReg : ℕ) : InterpM W Unit := do
  match ← onAccess (AccessM.tryPlainTableGet (.table table) key) with
  | some v => stackSet resultReg v
  | none => do
    savePc pc
    match ← onAccess (AccessM.vmGettable (.table table) key) with
    | .value v => stackSet resultReg v
    | .call tm current contentsSecret => host.callIndex names tm current key contentsSecret resultReg

/-- The store to a global in the environment. -/
def setGlobalIn (table : GcRef .table) (key value : Val) (pc : ℕ) : InterpM W Unit := do
  savePc pc
  match ← onAccess (AccessM.vmSettable (.table table) key value) with
  | none => pure ()
  | some (tm, current) => host.callNewindex names tm current key value

/-- The captured value of a slot. -/
def readSnapshot (rt : SlotRuntime) (snapshot : Val) (resultReg : ℕ) : InterpM W Unit := do
  let v ← onAccess (AccessM.onTables (SecretM.wrapTableValue rt.rootGlobal snapshot))
  stackSet resultReg v

/-- The read of a slot where there is a shadow table. -/
def readShadow (rt : SlotRuntime) (live : GcRef .table) (key snapshot : Val) (resultReg : ℕ) : InterpM W Unit := do
  onAccess (AccessM.checkTableAccess live (some key))
  let s ← Act.get
  let liveVal ← match s.access.tables.gc.heap.get live with
    | some t =>
      if t.array.length = 0 ∧ t.hashSize = 0 then pure .nil
      else Act.ofOption (t.get key s.access.tables.gc.heap.strings)
    | none => pure .nil
  if ¬ liveVal.isNil then do
    onAccess (Act.modify fun s => s.propagateSlotReadTaint live key)
    let v ← onAccess (AccessM.onTables (SecretM.wrapTableValue rt.rootGlobal liveVal))
    stackSet resultReg v
  else readSnapshot rt snapshot resultReg

def slotMissing : LuaError := ⟨"global slot runtime missing"⟩

/-- The read of a slot in the environment that the values have been captured from. -/
def readRootSlot (rt : SlotRuntime) (shadow : Option (GcRef .table)) (slotIdx : ℕ) (key snapshot : Val)
    (pc resultReg : ℕ) : InterpM W Unit := do
  onAccess (AccessM.checkTableAccess rt.rootGlobal (some key))
  if slotIdx = 0 then readSnapshot rt snapshot resultReg
  else
    match shadow with
    | none => getGlobalIn host names rt.rootGlobal key pc resultReg
    | some live => readShadow rt live key snapshot resultReg

def opGetGlobalSlot (rt : SlotRuntime) (slotIdx pc resultReg : ℕ) : InterpM W Unit := do
  let s ← Act.get
  let snapshot ← Act.ofOption rt.values[slotIdx]?
  match rt.nameKeys[slotIdx]? with
  | none => Act.fail slotMissing
  | some key =>
    if s.frame.env ≠ rt.rootGlobal then getGlobalIn host names s.frame.env (.str key) pc resultReg
    else readRootSlot host names rt (s.lookupSlotShadowTable rt) slotIdx (.str key) snapshot pc resultReg

/-- An instruction; `pc` is the index of the word behind it. -/
def execute (globalSlots : Option SlotRuntime) (p : Proto) (pc : ℕ) (i : Instruction) : InterpM W Unit := do
  let s ← Act.get
  let ra := s.frame.base + i.a.toNat
  match i.opcode with
  | .getGlobal => do
    let key ← Act.ofOption p.constants[i.bx.toNat]?
    getGlobalIn host names s.frame.env key pc ra
  | .setGlobal => do
    let key ← Act.ofOption p.constants[i.bx.toNat]?
    setGlobalIn host names s.frame.env key (s.stack ra) pc
  | .getGlobalSlot =>
    match globalSlots with
    | none => Act.fail slotMissing
    | some rt => opGetGlobalSlot host names rt i.bx.toNat pc ra
  | .setGlobalSlot =>
    match globalSlots.bind fun rt => rt.nameKeys[i.bx.toNat]? with
    | none => Act.fail slotMissing
    | some key => setGlobalIn host names s.frame.env (.str key) (s.stack ra) pc
  | _ => host.other names (p.fetched pc i)

end InterpM

variable {W : Type}

def InterpHost.names (host : InterpHost W) (protos : ℕ → Proto) : Names := fun fn pc reg =>
  (protos fn).getobjname host.text pc reg

/-- One turn of the loop of `execute`, and what follows an error. -/
def Interp.step (host : InterpHost W) (globalSlots : Option SlotRuntime) (protos : ℕ → Proto) (s : Interp W) :
    Option (Interp W) :=
  let names := host.names protos
  let p := protos s.frame.fn
  let pc := s.frame.pc + 1
  match p.code[s.frame.pc]? with
  | none => host.raise names ⟨"bytecode overrun"⟩ s
  | some raw =>
    let turn := do
      host.before names
      InterpM.execute host names globalSlots p pc ⟨raw⟩
    match turn { s with frame := { s.frame with pc } } with
    | none => none
    | some (s, _, .ok ()) => some s
    | some (s, _, .error e) => host.raise names e s

/-! ### The rewritten instructions -/

/-- The opcodes that take the place of others when code is loaded. -/
def OpCode.isSlot (op : OpCode) : Bool := op == .getGlobalSlot || op == .setGlobalSlot

section Rewriting

variable {rt : GlobalSlotRuntime} {constants : List Val} {i i' : Instruction} {raw : BitVec 32}
  {key : GcRef .string} {slotIdx : BitVec 32}

theorem GlobalSlotRuntime.keyToSlot_spec (hfit : rt.nameKeys.length ≤ 2 ^ sizeBx)
    (h : rt.keyToSlot key = some slotIdx) : rt.nameKeys[slotIdx.toNat]? = some key ∧ slotIdx.toNat < 2 ^ sizeBx := by
  obtain ⟨⟨k, i⟩, hlast, rfl⟩ := Option.map_eq_some_iff.mp h
  obtain ⟨hmem, hkey⟩ := List.mem_filter.mp (List.mem_of_getLast? hlast)
  have hget : rt.nameKeys[i]? = some k := List.mem_zipIdx_iff_getElem?.mp hmem
  have hlt : i < 2 ^ sizeBx := (List.getElem?_eq_some_iff.mp hget).1.trans_le hfit
  have hnat : (BitVec.ofNat 32 i).toNat = i := by
    rw [BitVec.toNat_ofNat]
    exact Nat.mod_eq_of_lt (hlt.trans (by decide))
  simp only [decide_eq_true_eq] at hkey
  rw [hnat, hget, hkey]
  exact ⟨rfl, hlt⟩

/-- An access to a global, and the access to the slot of the same key. -/
structure Rewritten (rt : GlobalSlotRuntime) (constants : List Val) (i i' : Instruction) (key : GcRef .string) :
    Prop where
  opcode : i.opcode = .getGlobal ∧ i'.opcode = .getGlobalSlot ∨ i.opcode = .setGlobal ∧ i'.opcode = .setGlobalSlot
  a_eq : i'.a = i.a
  key_eq : constants[i.bx.toNat]? = some (.str key)
  slot_eq : rt.keyToSlot key = some i'.bx
  nameKey : rt.nameKeys[i'.bx.toNat]? = some key

theorem patchInstruction_spec (hfit : rt.nameKeys.length ≤ 2 ^ sizeBx) (hplain : i.opcode.isSlot = false)
    (h : patchInstruction rt constants i = some (i', slotIdx)) :
    i'.bx = slotIdx ∧ ∃ key, Rewritten rt constants i i' key := by
  simp only [patchInstruction, Option.bind_eq_bind, Option.bind_eq_some_iff, Option.some.injEq, Prod.mk.injEq] at h
  obtain ⟨op, hop, slotIdx, hslot, rfl, rfl⟩ := h
  have hops : i.opcode = .getGlobal ∧ op = .getGlobalSlot ∨ i.opcode = .setGlobal ∧ op = .setGlobalSlot := by
    cases hi : i.opcode <;> rw [hi] at hop hplain <;> simp_all [slotOpcode, OpCode.isSlot]
  obtain ⟨key, hkey, hfind⟩ : ∃ key, constants[i.bx.toNat]? = some (.str key) ∧ rt.keyToSlot key = some slotIdx := by
    rcases hops with ⟨hi, -⟩ | ⟨hi, -⟩
    all_goals
      rw [hi, resolveSlotIndex] at hslot
      split at hslot
      · next r hr => exact ⟨r, hr, (Option.filter_eq_some_iff.mp hslot).1⟩
      · cases hslot
  obtain ⟨hname, hlt⟩ := rt.keyToSlot_spec hfit hfind
  have hbx : ((i.setOpcode op).setBx slotIdx).bx = slotIdx := by
    rw [Instruction.bx_setBx, ← BitVec.toNat_inj, BitField.toNat_get _ (by decide)]
    simpa using Nat.mod_eq_of_lt hlt
  refine ⟨hbx, key, ?_, ?_, hkey, ?_, ?_⟩
  · simpa using hops
  · simp
  · rw [hbx, hfind]
  · rw [hbx, hname]

theorem patchedRaw_cases (constants : List Val) (hfit : rt.nameKeys.length ≤ 2 ^ sizeBx)
    (hplain : (Instruction.opcode ⟨raw⟩).isSlot = false) : patchedRaw rt constants raw = raw ∨
      ∃ key, Rewritten rt constants ⟨raw⟩ ⟨patchedRaw rt constants raw⟩ key := by
  rw [patchedRaw]
  cases h : patchInstruction rt constants ⟨raw⟩ with
  | none => exact .inl rfl
  | some x => exact .inr (patchInstruction_spec hfit hplain h).2

theorem patchedRaw_zero : patchedRaw rt constants 0 = 0 := rfl

end Rewriting

/-! ### The names of registers -/

section Names

variable (rt : GlobalSlotRuntime) (arena : StringArena)

/-- The text of the key of a slot. -/
def GlobalSlotRuntime.keyData (slotIdx : ℕ) : Option (List UInt8) :=
  ((rt.nameKeys[slotIdx]?).bind arena.get).map LuaString.data

theorem populateSlotDebugName_join (names : List (Option (List UInt8))) (slotIdx i : ℕ) :
    (populateSlotDebugName rt arena names slotIdx)[i]?.join =
      names[i]?.join.or (if slotIdx = i then rt.keyData arena i else none) := by
  have hpad : ∀ i : ℕ, (names ++ List.replicate (slotIdx + 1 - names.length) none)[i]?.join = names[i]?.join := by
    intro i
    rw [List.getElem?_append]
    split_ifs with hlt
    · rfl
    · rw [List.getElem?_eq_none (Nat.not_lt.mp hlt), List.getElem?_replicate]
      split_ifs <;> rfl
  have hlen : slotIdx < (names ++ List.replicate (slotIdx + 1 - names.length) none).length := by
    simp only [List.length_append, List.length_replicate]
    omega
  rw [populateSlotDebugName, hpad]
  cases hname : names[slotIdx]?.join with
  | some name =>
    dsimp only
    rw [hpad]
    split_ifs with heq
    · rw [← heq, hname, Option.some_or]
    · rw [Option.or_none]
  | none =>
    dsimp only
    cases hkey : (rt.nameKeys[slotIdx]?).bind arena.get with
    | none =>
      dsimp only
      rw [hpad]
      split_ifs with heq
      · rw [← heq, GlobalSlotRuntime.keyData, hkey, Option.map_none, Option.or_none]
      · rw [Option.or_none]
    | some s =>
      dsimp only
      rw [List.getElem?_set]
      split_ifs with heq
      · rw [← heq, hname, GlobalSlotRuntime.keyData, hkey]
        rfl
      · rw [hpad, Option.or_none]

/-- The slot that an instruction is rewritten to access. -/
def accessedSlot (constants : List Val) (raw : BitVec 32) : Option ℕ :=
  (patchInstruction rt constants ⟨raw⟩).map fun x => x.2.toNat

/-- The names of the slots that are accessed are recorded. -/
theorem patchCode_snd (constants : List Val) (i : ℕ) (code : List (BitVec 32)) (names : List (Option (List UInt8))) :
    (patchCode rt arena constants code names).2[i]?.join =
      names[i]?.join.or (if some i ∈ code.map (accessedSlot rt constants) then rt.keyData arena i else none) := by
  induction code generalizing names with
  | nil => simp [patchCode]
  | cons raw code ih =>
    have hslot : accessedSlot rt constants raw = (patchInstruction rt constants ⟨raw⟩).map fun x => x.2.toNat := rfl
    rw [patchCode]
    simp only [List.map_cons, List.mem_cons, hslot]
    cases h : patchInstruction rt constants ⟨raw⟩ with
    | none => simpa using ih names
    | some x =>
      have hrest := ih (populateSlotDebugName rt arena names x.2.toNat)
      rw [populateSlotDebugName_join] at hrest
      refine hrest.trans ?_
      simp only [Option.map_some, Option.some.injEq, eq_comm (a := i)]
      by_cases heq : x.2.toNat = i
      · cases names[i]?.join <;> cases rt.keyData arena i <;> simp [heq]
      · simp [heq]

end Names


namespace Proto

section Patched

variable {rt : GlobalSlotRuntime} {p : Proto} {raw : BitVec 32} {text : GcRef .string → Option (List UInt8)}

/-- Code as compilation leaves it: there is no slot opcode in it, and the words that instructions read are kept when it
    is rewritten. -/
structure Rewritable (rt : GlobalSlotRuntime) (p : Proto) : Prop where
  names : p.globalSlotNames = []
  plain : ∀ raw ∈ p.code, (Instruction.opcode ⟨raw⟩).isSlot = false
  data : ∀ (pc : ℕ) raw, p.code[pc]? = some raw →
    ∀ w ∈ (p.fetched (pc + 1) ⟨raw⟩).operands, patchedRaw rt p.constants w = w

variable (arena : StringArena)

theorem patchGlobalSlots_code (p : Proto) :
    (patchGlobalSlots rt arena p).code = p.code.map (patchedRaw rt p.constants) := by
  obtain ⟨⟩ := p
  exact patchCode_fst ..

theorem patchGlobalSlots_names (p : Proto) :
    (patchGlobalSlots rt arena p).globalSlotNames = (patchCode rt arena p.constants p.code p.globalSlotNames).2 := by
  obtain ⟨⟩ := p
  rfl

theorem patchGlobalSlots_constants (p : Proto) : (patchGlobalSlots rt arena p).constants = p.constants := by
  obtain ⟨⟩ := p
  rfl

theorem patchGlobalSlots_localVars (p : Proto) : (patchGlobalSlots rt arena p).localVars = p.localVars := by
  obtain ⟨⟩ := p
  rfl

theorem patchGlobalSlots_upvalueNames (p : Proto) : (patchGlobalSlots rt arena p).upvalueNames = p.upvalueNames := by
  obtain ⟨⟩ := p
  rfl

theorem patchGlobalSlots_numUpvalues (p : Proto) : (patchGlobalSlots rt arena p).numUpvalues = p.numUpvalues := by
  obtain ⟨⟩ := p
  rfl

theorem patchGlobalSlots_protos (p : Proto) :
    (patchGlobalSlots rt arena p).protos = p.protos.map (patchGlobalSlots rt arena) := by
  obtain ⟨⟩ := p
  exact patchGlobalSlotsList_eq ..

theorem operandWords_patched (p : Proto) (i : Instruction) :
    (patchGlobalSlots rt arena p).operandWords i = p.operandWords i := by
  simp only [operandWords, patchGlobalSlots_protos, List.getElem?_map]
  cases p.protos[i.bx.toNat]? with
  | none => rfl
  | some child => simp [patchGlobalSlots_numUpvalues]

/-- Instructions read the words that they would read in the code as it was. -/
theorem fetched_patched (h : p.Rewritable rt) {pc : ℕ} (hraw : p.code[pc]? = some raw) :
    (patchGlobalSlots rt arena p).fetched (pc + 1) ⟨raw⟩ = p.fetched (pc + 1) ⟨raw⟩ := by
  rw [fetched, fetched, operandWords_patched, patchGlobalSlots_code, ← List.map_drop, ← List.map_take]
  exact congrArg (Fetched.mk _) ((List.map_congr_left (g := id) (h.data pc raw hraw)).trans (List.map_id _))

theorem nextPc_patched_self (lastpc reg pc : ℕ) (i : Instruction) :
    (patchGlobalSlots rt arena p).nextPc lastpc reg pc i = p.nextPc lastpc reg pc i := by
  simp only [nextPc, patchGlobalSlots_protos, List.getElem?_map]
  cases p.protos[i.bx.toNat]? with
  | none => rfl
  | some child => simp [patchGlobalSlots_numUpvalues]

variable (hfit : rt.nameKeys.length ≤ 2 ^ sizeBx) (h : p.Rewritable rt)

include hfit h

/-- The walk over the rewritten code finds the same instruction. -/
theorem marks_nextPc_patched (hmem : raw ∈ p.code) (lastpc reg pc : ℕ) :
    marks ⟨patchedRaw rt p.constants raw⟩ reg = marks ⟨raw⟩ reg ∧
      (patchGlobalSlots rt arena p).nextPc lastpc reg pc ⟨patchedRaw rt p.constants raw⟩ =
        p.nextPc lastpc reg pc ⟨raw⟩ := by
  rw [nextPc_patched_self]
  rcases patchedRaw_cases p.constants hfit (h.plain raw hmem) with heq | ⟨key, hrw⟩
  · rw [heq]
    exact ⟨rfl, rfl⟩
  · rcases hrw.opcode with ⟨hop, hop'⟩ | ⟨hop, hop'⟩ <;>
      simp [marks, nextPc, hop, hop', hrw.a_eq, OpCode.setsRegisterA]

theorem symbexecFrom_patched (lastpc reg pc last : ℕ) :
    (patchGlobalSlots rt arena p).symbexecFrom lastpc reg pc last = p.symbexecFrom lastpc reg pc last := by
  induction pc, last using symbexecFrom.induct p lastpc reg with
  | case1 pc last hlt hnone =>
    rw [symbexecFrom, symbexecFrom, if_pos hlt, if_pos hlt, patchGlobalSlots_code, List.getElem?_map, hnone]
    rfl
  | case2 pc last hlt raw hraw ih =>
    obtain ⟨hmarks, hnext⟩ := marks_nextPc_patched arena hfit h (List.mem_of_getElem? hraw) lastpc reg pc
    rw [symbexecFrom, symbexecFrom, if_pos hlt, if_pos hlt, patchGlobalSlots_code, List.getElem?_map, hraw]
    simp only [Option.map_some, hmarks, hnext]
    exact ih
  | case3 pc last hlt => rw [symbexecFrom, symbexecFrom, if_neg hlt, if_neg hlt]

theorem symbexec_patched (lastpc reg : ℕ) : (patchGlobalSlots rt arena p).symbexec lastpc reg =
    (p.symbexec lastpc reg).map (patchedRaw rt p.constants) := by
  rw [symbexec, symbexec, Option.map_map, patchGlobalSlots_code, List.length_map, symbexecFrom_patched arena hfit h]
  refine congrArg (Option.map · _) (funext fun last => ?_)
  rw [Function.comp_apply, List.getElem?_map]
  cases p.code[last]? <;> rfl

end Patched

end Proto


namespace Proto

section Names

variable {rt : GlobalSlotRuntime} {p : Proto} {raw : BitVec 32} {text : GcRef .string → Option (List UInt8)}
  {arena : StringArena}

/-- The texts of the keys of the slots are those of the strings in the arena. -/
def KeysKept (rt : GlobalSlotRuntime) (arena : StringArena) (text : GcRef .string → Option (List UInt8)) : Prop :=
  ∀ key ∈ rt.nameKeys, ∃ s, arena.get key = some s ∧ text key = some s.data

/-- The name that a slot opcode gives is the one that the global had. -/
theorem objOfInstruction_patched (hfit : rt.nameKeys.length ≤ 2 ^ sizeBx) (h : p.Rewritable rt)
    (hkeys : KeysKept rt arena text) (hmem : raw ∈ p.code) :
    (patchGlobalSlots rt arena p).objOfInstruction text ⟨patchedRaw rt p.constants raw⟩ =
      p.objOfInstruction text ⟨raw⟩ := by
  rcases patchedRaw_cases p.constants hfit (h.plain raw hmem) with heq | ⟨key, hrw⟩
  · have hplain := h.plain raw hmem
    rw [heq, objOfInstruction, objOfInstruction]
    cases hop : Instruction.opcode ⟨raw⟩ <;> rw [hop] at hplain
    case getGlobalSlot => cases hplain
    all_goals
      simp only [constantText, kname, patchGlobalSlots_constants, patchGlobalSlots_upvalueNames]
  · rcases hrw.opcode with ⟨hop, hop'⟩ | ⟨hop, hop'⟩
    · obtain ⟨s, hget, htext⟩ := hkeys key (List.mem_of_getElem? hrw.nameKey)
      have hslot : some (Instruction.bx ⟨patchedRaw rt p.constants raw⟩).toNat ∈
          p.code.map (accessedSlot rt p.constants) := by
        refine List.mem_map.mpr ⟨raw, hmem, ?_⟩
        rw [accessedSlot]
        cases hpatch : patchInstruction rt p.constants ⟨raw⟩ with
        | none =>
          have hkept : patchedRaw rt p.constants raw = raw := by rw [patchedRaw, hpatch, Option.elim_none]
          rw [hkept, hop] at hop'
          cases hop'
        | some x =>
          have hbx := (patchInstruction_spec hfit (h.plain raw hmem) hpatch).1
          have hsome : patchedRaw rt p.constants raw = x.1.raw := by rw [patchedRaw, hpatch, Option.elim_some]
          rw [hsome, Option.map_some, ← hbx]
      have hname := patchCode_snd rt arena p.constants (Instruction.bx ⟨patchedRaw rt p.constants raw⟩).toNat p.code []
      rw [List.getElem?_nil, if_pos hslot, GlobalSlotRuntime.keyData, hrw.nameKey, Option.bind_some, hget] at hname
      rw [objOfInstruction, objOfInstruction, hop, hop', patchGlobalSlots_names, h.names]
      dsimp only
      rw [constantText, hrw.key_eq]
      dsimp only
      rw [htext]
      rw [Option.join_eq_some_iff.mp hname]
      rfl
    · rw [objOfInstruction, objOfInstruction, hop, hop']

theorem objTurn_patched (hfit : rt.nameKeys.length ≤ 2 ^ sizeBx) (h : p.Rewritable rt) (hkeys : KeysKept rt arena text)
    (pc reg : ℕ) : (patchGlobalSlots rt arena p).objTurn text pc reg = p.objTurn text pc reg := by
  rw [objTurn, objTurn, getLocalName, getLocalName, patchGlobalSlots_localVars, symbexec_patched arena hfit h]
  cases getLocalNameFrom pc p.localVars (reg + 1) with
  | none => rfl
  | some name =>
    cases name with
    | some name => rfl
    | none =>
      simp only [Option.bind_eq_bind, Option.bind_some]
      cases hraw : p.symbexec pc reg with
      | none => rfl
      | some raw =>
        simp only [Option.map_some, Option.bind_some, Option.some.injEq]
        obtain ⟨last, -, hlast⟩ := Option.map_eq_some_iff.mp hraw
        cases hget : p.code[last]? with
        | none =>
          rw [hget, Option.getD_none] at hlast
          rw [← hlast, patchedRaw_zero]
          rfl
        | some raw' =>
          rw [hget, Option.getD_some] at hlast
          exact objOfInstruction_patched hfit h hkeys (hlast ▸ List.mem_of_getElem? hget)

/-- Error messages name registers as before. -/
theorem getobjname_patched (hfit : rt.nameKeys.length ≤ 2 ^ sizeBx) (h : p.Rewritable rt)
    (hkeys : KeysKept rt arena text) (pc reg : ℕ) :
    (patchGlobalSlots rt arena p).getobjname text pc reg = p.getobjname text pc reg := by
  rw [getobjname, getobjname]
  generalize reg + 2 ^ sizeB + 2 = fuel
  induction fuel generalizing reg with
  | zero => rfl
  | succ fuel ih =>
    rw [getobjnameFuel, getobjnameFuel, objTurn_patched hfit h hkeys]
    cases p.objTurn text pc reg with
    | none => rfl
    | some turn =>
      cases turn with
      | found name => rfl
      | movedFrom b => exact ih b

end Names

end Proto

end Rilua.Vm
