import Rilua.Lib.Traced
import Rilua.Vm.Undump

/-! The readers of `vm/undump.rs` with a record of what they demand of the machine: where a position is added
    to, which bytes of the input are indexed, for how many elements storage is requested, and how deep
    functions nest. Without the record they are the readers of `Undump`. -/

namespace Rilua.Vm

open Lib

/-- What loading a chunk demands. -/
inductive Demand where
  /-- `pos + n` is computed. -/
  | advance (pos n : ℕ)
  /-- `n` bytes of the input from `pos` are indexed. -/
  | index (pos n : ℕ)
  /-- Storage for `n` elements is requested. -/
  | storage (n : ℕ)
  /-- A function nested `d` deep is loaded. -/
  | depth (d : ℕ)
  deriving DecidableEq

abbrev TracedChunkReader := Traced UInt8 UndumpError Demand

namespace Demand

def loadByte (name : String) : TracedChunkReader UInt8 := fun data pos =>
  match data[pos]? with
  | some b => ([.index pos 1, .advance pos 1], .ok (b, pos + 1))
  | none => ([], .error (loadError name "truncated"))

def loadBlock (name : String) (n : ℕ) : TracedChunkReader (List UInt8) := fun data pos =>
  if usizeMax < pos + n then ([.advance pos n], .error .capacity)
  else if data.length < pos + n then ([.advance pos n], .error (loadError name "truncated"))
  else ([.advance pos n, .index pos n], .ok ((data.drop pos).take n, pos + n))

def loadInt (name : String) : TracedChunkReader (BitVec 32) := do
  let bytes ← loadBlock name 4
  pure (BitVec.ofNat 32 (ofLeBytes bytes))

def loadU32Vec (name : String) (n : ℕ) : TracedChunkReader (List (BitVec 32)) :=
  if usizeMax < n * 4 then Traced.fail (loadError name "size overflow")
  else do
    let bytes ← loadBlock name (n * 4)
    Traced.note (.storage n)
    pure (u32Chunks bytes)

def loadSize (name : String) : TracedChunkReader (BitVec 64) := do
  let bytes ← loadBlock name 8
  pure (BitVec.ofNat 64 (ofLeBytes bytes))

def loadNumber (name : String) : TracedChunkReader F64 := do
  let bytes ← loadBlock name 8
  pure (F64.ofBits (ofLeBytes bytes))

def loadString (name : String) : TracedChunkReader (Option (List UInt8)) := do
  let size ← loadSize name
  if size = 0 then pure none
  else do
    let data ← loadBlock name (size - 1).toNat
    Traced.note (.storage (size - 1).toNat)
    let _ ← loadByte name
    pure (some data)

def loadHeader (name : String) : TracedChunkReader Unit := do
  let sig ← loadBlock name luaSignature.length
  if sig ≠ luaSignature then Traced.fail (loadError name "not a precompiled chunk")
  else do
    let rest ← loadBlock name (luacHeaderSize - luaSignature.length)
    if rest ≠ makeHeader.drop luaSignature.length then
      Traced.fail (loadError name "incompatible precompiled chunk")
    else pure ()

def reserve (n size : ℕ) : TracedChunkReader Unit := do
  Traced.note (.storage n)
  if isizeMax < n * size then Traced.fail .capacity else pure ()

def loadCode (name : String) : TracedChunkReader (List (BitVec 32)) := do
  let n ← loadInt name
  loadU32Vec name (asUsize n)

def loadConstant (name : String) (i : ℕ) : TracedChunkReader (Val × Option StringPoolEntry) := do
  let tag ← loadByte name
  if tag = luaTNil then pure (.nil, none)
  else if tag = luaTBoolean then do
    let b ← loadByte name
    pure (.bool (b != 0), none)
  else if tag = luaTNumber then do
    let num ← loadNumber name
    pure (.num num, none)
  else if tag = luaTString then do
    let bytes ← loadString name
    let bytes := bytes.getD []
    pure (.nil, some ⟨BitVec.ofNat 32 i, bytes, luaHash bytes⟩)
  else Traced.fail (loadError name "bad constant type")

def loadConstantPool (name : String) : TracedChunkReader (List (Val × Option StringPoolEntry)) := do
  let n ← loadInt name
  reserve (asUsize n) 16
  Traced.timesFrom (loadConstant name) 0 (asUsize n)

def loadList {α : Type} (name : String) (size : ℕ) (element : TracedChunkReader α) :
    TracedChunkReader (List α) := do
  let n ← loadInt name
  reserve (asUsize n) size
  Traced.times (asUsize n) element

def loadName (name : String) : TracedChunkReader String := do
  let bytes ← loadString name
  pure (fromUtf8Lossy (bytes.getD []))

def loadLocalVar (name : String) : TracedChunkReader LocalVar := do
  let varName ← loadName name
  let startPc ← loadInt name
  let endPc ← loadInt name
  pure ⟨varName, startPc, endPc⟩

def loadDebug (name : String) (p : Proto) : TracedChunkReader Proto := do
  let lineInfo ← loadCode name
  let localVars ← loadList name 32 (loadLocalVar name)
  let upvalueNames ← loadList name 24 (loadName name)
  pure { p with lineInfo, localVars, upvalueNames }

def loadSource (name parentSource : String) : TracedChunkReader String := do
  let bytes ← loadString name
  pure (bytes.elim parentSource fromUtf8Lossy)

/-- Reads a function nested `d` deep in functions. -/
def loadFunction (name : String) : ℕ → ℕ → String → TracedChunkReader Proto
  | 0, _, _ => Traced.fail .fuel
  | fuel + 1, d, parentSource => do
    Traced.note (.depth (d + 1))
    let source ← loadSource name parentSource
    let lineDefined ← loadInt name
    let lastLineDefined ← loadInt name
    let numUpvalues ← loadByte name
    let numParams ← loadByte name
    let isVararg ← loadByte name
    let maxStackSize ← loadByte name
    let code ← loadCode name
    let constants ← loadConstantPool name
    let protos ← loadList name 8 (loadFunction name fuel (d + 1) source)
    loadDebug name
      { Proto.new source with
        lineDefined, lastLineDefined, numUpvalues, numParams, isVararg, maxStackSize, code, protos,
        constants := constants.map Prod.fst, stringPool := constants.filterMap Prod.snd }

/-! ### Without the record -/

open Traced

theorem erase_loadByte (name : String) : erase (loadByte name) = Vm.loadByte name := by
  funext data pos
  unfold erase loadByte Vm.loadByte
  cases data[pos]? <;> rfl

theorem erase_loadBlock (name : String) (n : ℕ) : erase (loadBlock name n) = Vm.loadBlock name n := by
  funext data pos
  unfold erase loadBlock Vm.loadBlock
  split
  · rfl
  · split <;> rfl

theorem erase_loadInt (name : String) : erase (loadInt name) = Vm.loadInt name := by
  simp [loadInt, Vm.loadInt, erase_loadBlock]

theorem erase_loadU32Vec (name : String) (n : ℕ) : erase (loadU32Vec name n) = Vm.loadU32Vec name n := by
  unfold loadU32Vec Vm.loadU32Vec
  split <;> simp [erase_loadBlock]

theorem erase_loadString (name : String) : erase (loadString name) = Vm.loadString name := by
  have hsize : erase (loadSize name) = Vm.loadSize name := by simp [loadSize, Vm.loadSize, erase_loadBlock]
  rw [loadString, Vm.loadString, erase_bind, hsize]
  congr 1
  funext size
  split <;> simp [erase_loadBlock, erase_loadByte]

theorem erase_loadHeader (name : String) : erase (loadHeader name) = Vm.loadHeader name := by
  rw [loadHeader, Vm.loadHeader, erase_bind, erase_loadBlock]
  congr 1
  funext sig
  split
  · rfl
  · rw [erase_bind, erase_loadBlock]
    congr 1
    funext rest
    split <;> rfl

theorem erase_reserve (n size : ℕ) : erase (reserve n size) = Vm.reserve n size := by
  unfold reserve Vm.reserve
  split <;> rfl

theorem erase_loadCode (name : String) : erase (loadCode name) = Vm.loadCode name := by
  simp [loadCode, Vm.loadCode, erase_loadInt, erase_loadU32Vec]

theorem erase_loadConstant (name : String) (i : ℕ) : erase (loadConstant name i) = Vm.loadConstant name i := by
  have hnum : erase (loadNumber name) = Vm.loadNumber name := by simp [loadNumber, Vm.loadNumber, erase_loadBlock]
  rw [loadConstant, Vm.loadConstant, erase_bind, erase_loadByte]
  congr 1
  funext tag
  split
  · rfl
  · split
    · simp [erase_loadByte]
    · split
      · simp [hnum]
      · split <;> simp [erase_loadString]

theorem erase_loadConstantPool (name : String) : erase (loadConstantPool name) = Vm.loadConstantPool name := by
  simp [loadConstantPool, Vm.loadConstantPool, erase_loadInt, erase_reserve,
    erase_timesFrom (erase_loadConstant name)]

theorem erase_loadList {α : Type} (name : String) (size : ℕ) {element : TracedChunkReader α}
    {element' : ChunkReader α} (h : erase element = element') :
    erase (loadList name size element) = Vm.loadList name size element' := by
  simp [loadList, Vm.loadList, erase_loadInt, erase_reserve, erase_times h]

theorem erase_loadName (name : String) : erase (loadName name) = Vm.loadName name := by
  simp [loadName, Vm.loadName, erase_loadString]

theorem erase_loadLocalVar (name : String) : erase (loadLocalVar name) = Vm.loadLocalVar name := by
  simp [loadLocalVar, Vm.loadLocalVar, erase_loadName, erase_loadInt]

theorem erase_loadDebug (name : String) (p : Proto) : erase (loadDebug name p) = Vm.loadDebug name p := by
  simp [loadDebug, Vm.loadDebug, erase_loadCode, erase_loadList name _ (erase_loadLocalVar name),
    erase_loadList name _ (erase_loadName name)]

theorem erase_loadSource (name parentSource : String) :
    erase (loadSource name parentSource) = Vm.loadSource name parentSource := by
  simp [loadSource, Vm.loadSource, erase_loadString]

theorem erase_loadFunction (name : String) (fuel : ℕ) :
    ∀ (d : ℕ) (parentSource : String),
      erase (loadFunction name fuel d parentSource) = Vm.loadFunction name fuel parentSource := by
  induction fuel with
  | zero =>
    intro d parentSource
    rfl
  | succ fuel ih =>
    intro d parentSource
    have hprotos : ∀ source, erase (loadList name 8 (loadFunction name fuel (d + 1) source)) =
        Vm.loadList name 8 (Vm.loadFunction name fuel source) :=
      fun source => erase_loadList name 8 (ih (d + 1) source)
    simp [loadFunction, Vm.loadFunction, erase_loadSource, erase_loadInt, erase_loadByte, erase_loadCode,
      erase_loadConstantPool, hprotos, erase_loadDebug]

end Demand

/-- `undump` with its demands. -/
def undumpTraced (data : List UInt8) (name : String) : List Demand × Except UndumpError (Proto × ℕ) :=
  (do Demand.loadHeader name; Demand.loadFunction name (data.length + 1) 0 name :
    TracedChunkReader Proto) data 0

/-- What `undump` demands. -/
def undumpDemands (data : List UInt8) (name : String) : List Demand := (undumpTraced data name).1

theorem undumpTraced_snd (data : List UInt8) (name : String) :
    undump data name = (undumpTraced data name).2.map Prod.fst := by
  have herase : Traced.erase (do Demand.loadHeader name; Demand.loadFunction name (data.length + 1) 0 name :
      TracedChunkReader Proto) = (do loadHeader name; loadFunction name (data.length + 1) name) := by
    rw [Traced.erase_bind, Demand.erase_loadHeader]
    congr 1
    funext _
    exact Demand.erase_loadFunction name _ 0 name
  exact congrArg (fun r : ChunkReader Proto => (r data 0).map Prod.fst) herase.symm

end Rilua.Vm
