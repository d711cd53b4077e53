import Rilua.Vm.Prepare
import Rilua.Vm.Undump

/-! What a prototype means to the program that runs it: an abstract prototype in which a constant is its
    content, an access to a global is the name it accesses, and nothing refers to an arena or to the slots
    of a state. The same source function compiled, loaded or prepared in different states has the same
    meaning. -/

namespace Rilua.Vm

open Lib Gc

/-- The content of a constant. -/
inductive Constant where
  | nil
  | bool (b : Bool)
  | num (n : F64)
  | str (bytes : List UInt8)
  /-- Not a constant: a stale reference, or a value of another type. -/
  | invalid
  deriving DecidableEq

/-- The content of constant `i`: an interned string is looked up in the arena, a placeholder in the
    string pool. -/
def constantOf (arena : Option StringArena) (pool : List StringPoolEntry) (i : ℕ) : Val → Constant
  | .nil => (poolBytes pool i).elim .nil .str
  | .bool b => .bool b
  | .num n => .num n
  | .str r => (arena.bind fun a => a.get r).elim .invalid fun s => .str s.data
  | _ => .invalid

/-- What an instruction does: an access to a global by name, or what the instruction word says. -/
inductive InstrMeaning where
  | getGlobal (a : BitVec 32) (name : Option (List UInt8))
  | setGlobal (a : BitVec 32) (name : Option (List UInt8))
  | other (raw : BitVec 32)
  deriving DecidableEq

/-- The name a constant holds. -/
def Constant.name? : Constant → Option (List UInt8)
  | .str bytes => some bytes
  | _ => none

def instrMeaning (constants : List Constant) (slotName : ℕ → Option (List UInt8)) (i : Instruction) :
    InstrMeaning :=
  match i.opcode with
  | .getGlobal => .getGlobal i.a (constants[i.bx.toNat]?.bind Constant.name?)
  | .setGlobal => .setGlobal i.a (constants[i.bx.toNat]?.bind Constant.name?)
  | .getGlobalSlot => .getGlobal i.a (slotName i.bx.toNat)
  | .setGlobalSlot => .setGlobal i.a (slotName i.bx.toNat)
  | _ => .other i.raw

/-- The meaning of a prototype. -/
structure ProtoMeaning where
  code : List InstrMeaning
  constants : List Constant
  children : List ProtoMeaning
  lineInfo : List (BitVec 32)
  localVars : List LocalVar
  upvalueNames : List String
  source : String
  lineDefined : BitVec 32
  lastLineDefined : BitVec 32
  numUpvalues : UInt8
  numParams : UInt8
  isVararg : UInt8
  maxStackSize : UInt8

namespace Proto

/-- The contents of the constants. -/
def constantList (p : Proto) (arena : Option StringArena) : List Constant :=
  p.constants.zipIdx.map fun (v, i) => constantOf arena p.stringPool i v

/-- Every constant is a constant: nil, a boolean, a number, or a string that is in the arena. -/
def Valid (arena : Option StringArena) (p : Proto) : Prop := .invalid ∉ p.constantList arena

instance (arena : Option StringArena) (p : Proto) : Decidable (p.Valid arena) :=
  inferInstanceAs (Decidable (¬_))

mutual

/-- The meaning of a prototype whose strings are in `arena` and whose slots have the given names, with or
    without the debug information. -/
def meaning (arena : Option StringArena) (slotName : ℕ → Option (List UInt8)) (strip : Bool) :
    Proto → ProtoMeaning
  | p@{ protos, .. } =>
    { code := p.code.map fun raw => instrMeaning (p.constantList arena) slotName ⟨raw⟩
      constants := p.constantList arena
      children := meaningList arena slotName strip protos
      lineInfo := if strip then [] else p.lineInfo
      localVars := if strip then [] else p.localVars
      upvalueNames := if strip then [] else p.upvalueNames
      source := p.source
      lineDefined := p.lineDefined
      lastLineDefined := p.lastLineDefined
      numUpvalues := p.numUpvalues
      numParams := p.numParams
      isVararg := p.isVararg
      maxStackSize := p.maxStackSize }

def meaningList (arena : Option StringArena) (slotName : ℕ → Option (List UInt8)) (strip : Bool) :
    List Proto → List ProtoMeaning
  | [] => []
  | p :: ps => p.meaning arena slotName strip :: meaningList arena slotName strip ps

end

theorem meaningList_eq (arena : Option StringArena) (slotName : ℕ → Option (List UInt8)) (strip : Bool) :
    ∀ ps, meaningList arena slotName strip ps = ps.map (meaning arena slotName strip)
  | [] => rfl
  | p :: ps => by rw [meaningList, meaningList_eq arena slotName strip ps, List.map_cons]

theorem length_constantList (p : Proto) (arena : Option StringArena) :
    (p.constantList arena).length = p.constants.length := by
  rw [constantList, List.length_map, List.length_zipIdx]

end Proto

/-! ### What a load makes of a dump -/

/-- How a constant is loaded: a string becomes a placeholder. -/
def Constant.placeholder : Constant → Val
  | .bool b => .bool b
  | .num n => .num n
  | _ => .nil

/-- The pool entry of a string. -/
def Constant.poolEntry : Constant × ℕ → Option StringPoolEntry
  | (.str bytes, i) => some ⟨BitVec.ofNat 32 i, bytes, luaHash bytes⟩
  | _ => none

/-- The source name a prototype is loaded with, when the parent's was `parentSource` in the dump and is
    `loadedSource` now. -/
def reloadSource (source parentSource loadedSource : String) : String :=
  if source = parentSource then loadedSource else source

namespace Proto

mutual

/-- The prototype a dump is loaded as. -/
def reload (arena : Option StringArena) (strip : Bool) (parentSource loadedSource : String) : Proto → Proto
  | p@{ protos, .. } =>
    { p with
      constants := (p.constantList arena).map Constant.placeholder
      stringPool := (p.constantList arena).zipIdx.filterMap Constant.poolEntry
      protos := reloadList arena strip p.source (reloadSource p.source parentSource loadedSource) protos
      lineInfo := if strip then [] else p.lineInfo
      localVars := if strip then [] else p.localVars
      upvalueNames := if strip then [] else p.upvalueNames
      source := reloadSource p.source parentSource loadedSource
      globalSlotNames := [] }

def reloadList (arena : Option StringArena) (strip : Bool) (parentSource loadedSource : String) :
    List Proto → List Proto
  | [] => []
  | p :: ps => p.reload arena strip parentSource loadedSource ::
    reloadList arena strip parentSource loadedSource ps

end

theorem reloadList_eq (arena : Option StringArena) (strip : Bool) (parentSource loadedSource : String) :
    ∀ ps, reloadList arena strip parentSource loadedSource ps =
      ps.map (reload arena strip parentSource loadedSource)
  | [] => rfl
  | p :: ps => by rw [reloadList, reloadList_eq arena strip parentSource loadedSource ps, List.map_cons]

end Proto

/-! ### Global slots by name -/

namespace PrepareState

/-- The name of a slot. -/
def slotName (st : PrepareState) (i : ℕ) : Option (List UInt8) :=
  st.globalSlots.bind fun rt => (rt.nameKeys[i]?).bind fun key =>
    (st.gc.stringArena.get key).map LuaString.data

/-- The slot of a name; the last one where several have it. -/
def slotOf (st : PrepareState) (name : List UInt8) : Option (BitVec 32) :=
  st.globalSlots.bind fun rt =>
    ((rt.nameKeys.zipIdx.filter fun (key, _) =>
      (st.gc.stringArena.get key).map LuaString.data = some name).getLast?).map fun (_, i) => BitVec.ofNat 32 i

/-- Interning works and the keys of the slots are alive. -/
structure Ok (st : PrepareState) : Prop where
  inv : st.gc.Inv
  keys : ∀ rt, st.globalSlots = some rt → ∀ key ∈ rt.nameKeys, (st.gc.stringArena.get key).isSome

/-- The slot the access of an instruction is rewritten to. -/
def accessSlot (st : PrepareState) (op : OpCode) (name : List UInt8) : Option (BitVec 32) :=
  (st.slotOf name).filter fun slotIdx => !(op = .setGlobal ∧ slotIdx = 0)

/-- The name an access to the global `name` accesses after it has been prepared. -/
def accessName (st : PrepareState) (op : OpCode) (name : List UInt8) : Option (List UInt8) :=
  (st.accessSlot op name).elim (some name) fun slotIdx => st.slotName (BitField.get 0 sizeBx slotIdx).toNat

/-- What an instruction does after it has been prepared. -/
def preparedInstr (st : PrepareState) (constants : List Constant) (i : Instruction) : InstrMeaning :=
  match i.opcode with
  | .getGlobal =>
    .getGlobal i.a ((constants[i.bx.toNat]?.bind Constant.name?).bind (st.accessName .getGlobal))
  | .setGlobal =>
    .setGlobal i.a ((constants[i.bx.toNat]?.bind Constant.name?).bind (st.accessName .setGlobal))
  | .getGlobalSlot => .getGlobal i.a (st.slotName i.bx.toNat)
  | .setGlobalSlot => .setGlobal i.a (st.slotName i.bx.toNat)
  | _ => .other i.raw

end PrepareState

end Rilua.Vm
