import Rilua.Lib.Reader
import Rilua.Lib.Utf8Lossy
import Rilua.Vm.Dump

/-! Loading a binary chunk (`vm/undump.rs`). The result is what the compiler would have produced: string
    constants are in the string pool, with nil in their place among the constants. -/

namespace Rilua.Vm

open Lib

/-- A `SyntaxError` (`error.rs`). -/
structure SyntaxError where
  message : String
  source : String
  line : ℕ
  deriving DecidableEq

/-- How loading a chunk can fail: a Lua error, or a panic (an index computation that leaves the range of
    `usize`, or a vector larger than memory can be). -/
inductive UndumpError where
  | syntaxError (e : SyntaxError)
  | capacity
  /-- Nested deeper than the input has bytes, which no input is. -/
  | fuel
  deriving DecidableEq

abbrev ChunkReader := Reader UInt8 UndumpError

/-- `LoadState::error`, for the chunk `name`. -/
def loadError (name reason : String) : UndumpError :=
  .syntaxError ⟨s!"{name}: {reason} in precompiled chunk", name, 0⟩

/-- Reads a byte. -/
def loadByte (name : String) : ChunkReader UInt8 := fun data pos =>
  match data[pos]? with
  | some b => .ok (b, pos + 1)
  | none => .error (loadError name "truncated")

/-- Reads `n` bytes. -/
def loadBlock (name : String) (n : ℕ) : ChunkReader (List UInt8) := fun data pos =>
  if usizeMax < pos + n then .error .capacity
  else if data.length < pos + n then .error (loadError name "truncated")
  else .ok ((data.drop pos).take n, pos + n)

/-- Reads a 4-byte int. -/
def loadInt (name : String) : ChunkReader (BitVec 32) := do
  let bytes ← loadBlock name 4
  pure (BitVec.ofNat 32 (ofLeBytes bytes))

/-- An `i32` cast to `usize`. -/
def asUsize (n : BitVec 32) : ℕ := (n.signExtend 64).toNat

/-- A negative length is out of the range of any allocation. -/
theorem asUsize_lt_or (n : BitVec 32) : asUsize n < 2 ^ 31 ∨ 2 ^ 63 ≤ asUsize n := by
  have hlt := n.isLt
  rw [asUsize, BitVec.toNat_signExtend, BitVec.toNat_setWidth]
  cases hmsb : n.msb with
  | false =>
    rw [BitVec.msb_eq_decide, decide_eq_false_iff_not] at hmsb
    left
    simp only [Bool.false_eq_true, if_false]
    omega
  | true => right; simp only [if_true]; omega

/-- Decodes chunks of 4 bytes. -/
def u32Chunks : List UInt8 → List (BitVec 32)
  | b₀ :: b₁ :: b₂ :: b₃ :: bytes => BitVec.ofNat 32 (ofLeBytes [b₀, b₁, b₂, b₃]) :: u32Chunks bytes
  | _ => []

/-- Reads `n` 4-byte values. -/
def loadU32Vec (name : String) (n : ℕ) : ChunkReader (List (BitVec 32)) :=
  if usizeMax < n * 4 then Reader.fail (loadError name "size overflow")
  else do
    let bytes ← loadBlock name (n * 4)
    pure (u32Chunks bytes)

/-- Reads an 8-byte size. -/
def loadSize (name : String) : ChunkReader (BitVec 64) := do
  let bytes ← loadBlock name 8
  pure (BitVec.ofNat 64 (ofLeBytes bytes))

/-- Reads a number. -/
def loadNumber (name : String) : ChunkReader F64 := do
  let bytes ← loadBlock name 8
  pure (F64.ofBits (ofLeBytes bytes))

/-- Reads a string; `none` for size 0. -/
def loadString (name : String) : ChunkReader (Option (List UInt8)) := do
  let size ← loadSize name
  if size = 0 then pure none
  else do
    let data ← loadBlock name (size - 1).toNat
    let _ ← loadByte name
    pure (some data)

/-- Reads the header and checks it. -/
def loadHeader (name : String) : ChunkReader Unit := do
  let sig ← loadBlock name luaSignature.length
  if sig ≠ luaSignature then Reader.fail (loadError name "not a precompiled chunk")
  else do
    let rest ← loadBlock name (luacHeaderSize - luaSignature.length)
    if rest ≠ makeHeader.drop luaSignature.length then
      Reader.fail (loadError name "incompatible precompiled chunk")
    else pure ()

/-- Largest size of an allocation in bytes. -/
def isizeMax : ℕ := 2 ^ 63 - 1

/-- `Vec::reserve` for `n` elements of `size` bytes. -/
def reserve (n size : ℕ) : ChunkReader Unit :=
  if isizeMax < n * size then Reader.fail .capacity else pure ()

def loadCode (name : String) : ChunkReader (List (BitVec 32)) := do
  let n ← loadInt name
  loadU32Vec name (asUsize n)

/-- Reads constant `i`: the constant, and its entry in the string pool if it is a string. -/
def loadConstant (name : String) (i : ℕ) : ChunkReader (Val × Option StringPoolEntry) := do
  let tag ← loadByte name
  if tag = luaTNil then pure (.nil, none)
  else if tag = luaTBoolean then do
    let b ← loadByte name
    pure (.bool (b != 0), none)
  else if tag = luaTNumber then do
    let num ← loadNumber name
    pure (.num num, none)
  else if tag = luaTString then do
    let bytes ← loadString name
    let bytes := bytes.getD []
    pure (.nil, some ⟨BitVec.ofNat 32 i, bytes, luaHash bytes⟩)
  else Reader.fail (loadError name "bad constant type")

def loadConstantPool (name : String) : ChunkReader (List (Val × Option StringPoolEntry)) := do
  let n ← loadInt name
  reserve (asUsize n) 16
  Reader.timesFrom (loadConstant name) 0 (asUsize n)

/-- Reads a counted list of elements that take `size` bytes each in memory. -/
def loadList {α : Type} (name : String) (size : ℕ) (element : ChunkReader α) : ChunkReader (List α) := do
  let n ← loadInt name
  reserve (asUsize n) size
  Reader.times (asUsize n) element

/-- Reads a name. -/
def loadName (name : String) : ChunkReader String := do
  let bytes ← loadString name
  pure (fromUtf8Lossy (bytes.getD []))

def loadLocalVar (name : String) : ChunkReader LocalVar := do
  let varName ← loadName name
  let startPc ← loadInt name
  let endPc ← loadInt name
  pure ⟨varName, startPc, endPc⟩

/-- Reads the debug information into a prototype. -/
def loadDebug (name : String) (p : Proto) : ChunkReader Proto := do
  let lineInfo ← loadCode name
  let localVars ← loadList name 32 (loadLocalVar name)
  let upvalueNames ← loadList name 24 (loadName name)
  pure { p with lineInfo, localVars, upvalueNames }

/-- Reads the source name; the parent's if it was left out. -/
def loadSource (name parentSource : String) : ChunkReader String := do
  let bytes ← loadString name
  pure (bytes.elim parentSource fromUtf8Lossy)

/-- Reads a function with the functions nested in it; `fuel` bounds the depth. -/
def loadFunction (name : String) : ℕ → String → ChunkReader Proto
  | 0, _ => Reader.fail .fuel
  | fuel + 1, parentSource => do
    let source ← loadSource name parentSource
    let lineDefined ← loadInt name
    let lastLineDefined ← loadInt name
    let numUpvalues ← loadByte name
    let numParams ← loadByte name
    let isVararg ← loadByte name
    let maxStackSize ← loadByte name
    let code ← loadCode name
    let constants ← loadConstantPool name
    let protos ← loadList name 8 (loadFunction name fuel source)
    loadDebug name
      { Proto.new source with
        lineDefined, lastLineDefined, numUpvalues, numParams, isVararg, maxStackSize, code, protos,
        constants := constants.map Prod.fst, stringPool := constants.filterMap Prod.snd }

/-- Deserializes a binary chunk. Every nested function takes a byte at least, so that the length of the
    input bounds the depth. -/
def undump (data : List UInt8) (name : String) : Except UndumpError Proto :=
  ((do loadHeader name; loadFunction name (data.length + 1) name : ChunkReader Proto) data 0).map Prod.fst

end Rilua.Vm
