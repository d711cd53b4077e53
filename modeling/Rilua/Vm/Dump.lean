import Rilua.Vm.LuaString
import Rilua.Vm.Proto

/-! Writing a prototype as a binary chunk (`vm/dump.rs`). Each function returns the bytes it appends to
    the output buffer. An `int` is 4 bytes, a `size_t` 8, the lowest byte first. -/

namespace Rilua.Vm

open Lib Gc

/-- The chunk signature: escape and `Lua`. -/
def luaSignature : List UInt8 := [0x1b, 0x4c, 0x75, 0x61]

def luacVersion : UInt8 := 0x51
def luacFormat : UInt8 := 0
def luacHeaderSize : ℕ := 12
def endianness : UInt8 := 1
def sizeofInt : UInt8 := 4
def sizeofSizeT : UInt8 := 8
def sizeofInstruction : UInt8 := 4
def sizeofLuaNumber : UInt8 := 8
def integralFlag : UInt8 := 0

def luaTNil : UInt8 := 0
def luaTBoolean : UInt8 := 1
def luaTNumber : UInt8 := 3
def luaTString : UInt8 := 4

/-- The header, which the loader compares with what it reads. -/
def makeHeader : List UInt8 :=
  luaSignature ++ [luacVersion, luacFormat, endianness, sizeofInt, sizeofSizeT, sizeofInstruction,
    sizeofLuaNumber, integralFlag]

def dumpInt (n : BitVec 32) : List UInt8 := leBytes 4 n.toNat

def dumpSize (n : BitVec 64) : List UInt8 := leBytes 8 n.toNat

def dumpNumber (n : F64) : List UInt8 := leBytes 8 n.toBits

/-- A string is written as its size with the terminating zero, its bytes and the zero; no string as
    size 0. -/
def dumpString : Option (List UInt8) → List UInt8
  | none => dumpSize 0
  | some data => dumpSize (BitVec.ofNat 64 data.length + 1) ++ data ++ [0]

/-- A length, cast to `i32`. -/
def dumpLength (n : ℕ) : List UInt8 := dumpInt (BitVec.ofNat 32 n)

/-- The text of a Rust string as bytes. -/
def asBytes (s : String) : List UInt8 := s.toByteArray.data.toList

/-- What stays the same during a dump: whether to leave out the debug information, and the arena to look
    interned constants up in, if there is one. -/
structure DumpState where
  strip : Bool
  stringArena : Option StringArena

/-- The bytes of the pool entry for constant `i`. -/
def poolBytes (pool : List StringPoolEntry) (i : ℕ) : Option (List UInt8) :=
  (pool.find? fun entry => entry.index == BitVec.ofNat 32 i).map StringPoolEntry.bytes

def dumpCode (p : Proto) : List UInt8 := dumpLength p.code.length ++ p.code.flatMap dumpInt

/-- The loop body of `dump_constants`: constant `i`. -/
def dumpConstant (d : DumpState) (pool : List StringPoolEntry) (i : ℕ) : Val → List UInt8
  | .nil =>
    match poolBytes pool i with
    | some bytes => luaTString :: dumpString (some bytes)
    | none => [luaTNil]
  | .bool b => [luaTBoolean, b.toUInt8]
  | .num n => luaTNumber :: dumpNumber n
  | .str r =>
    match d.stringArena with
    | some arena => luaTString :: dumpString (some ((arena.get r).elim [] LuaString.data))
    | none => luaTString :: dumpString (some ((poolBytes pool i).getD []))
  | _ => [luaTNil]

def dumpLocalVar (var : LocalVar) : List UInt8 :=
  dumpString (some (asBytes var.name)) ++ dumpInt var.startPc ++ dumpInt var.endPc

/-- The debug information; three empty lists if it is stripped. -/
def dumpDebug (d : DumpState) (p : Proto) : List UInt8 :=
  if d.strip then dumpInt 0 ++ dumpInt 0 ++ dumpInt 0
  else
    dumpLength p.lineInfo.length ++ p.lineInfo.flatMap dumpInt ++
      (dumpLength p.localVars.length ++ p.localVars.flatMap dumpLocalVar) ++
      (dumpLength p.upvalueNames.length ++ p.upvalueNames.flatMap fun name =>
        dumpString (some (asBytes name)))

/-- The source name, left out if it is the parent's. -/
def dumpSource (source parentSource : String) : List UInt8 :=
  if source = parentSource then dumpString none else dumpString (some (asBytes source))

mutual

/-- A function with the functions nested in it. -/
def dumpFunction (d : DumpState) (parentSource : String) : Proto → List UInt8
  | p@{ protos, .. } =>
    dumpSource p.source parentSource ++
      (dumpInt p.lineDefined ++ dumpInt p.lastLineDefined ++
        [p.numUpvalues, p.numParams, p.isVararg, p.maxStackSize]) ++
      dumpCode p ++
      (dumpLength p.constants.length ++ p.constants.zipIdx.flatMap fun (val, i) =>
        dumpConstant d p.stringPool i val) ++
      (dumpLength p.protos.length ++ dumpFunctions d p.source protos) ++
      dumpDebug d p

def dumpFunctions (d : DumpState) (parentSource : String) : List Proto → List UInt8
  | [] => []
  | p :: ps => dumpFunction d parentSource p ++ dumpFunctions d parentSource ps

end

/-- Serializes a prototype. -/
def dump (p : Proto) (stringArena : Option StringArena) (strip : Bool) : List UInt8 :=
  makeHeader ++ dumpFunction { strip, stringArena } "" p

end Rilua.Vm
