import Rilua.Lib.BitField

/-! Opcodes and instruction words (`vm/instructions.rs`). An instruction is a 32-bit word with the opcode
    in its 6 lowest bits, then the fields A (8 bits), C and B (9 bits each); Bx is C and B together. -/

namespace Rilua.Vm

open Lib

/-- The opcodes, in the order of their encoding. -/
inductive OpCode where
  | move | loadK | loadBool | loadNil | getUpval | getGlobal | getTable | setGlobal | setUpval | setTable
  | newTable | opSelf | add | sub | mul | div | mod | pow | unm | not | len | concat | jmp | eq | lt | le
  | test | testSet | call | tailCall | «return» | forLoop | forPrep | tForLoop | setList | close | closure
  | varArg | getGlobalSlot | setGlobalSlot
  deriving DecidableEq, Repr

/-- Every opcode, at the index that encodes it. -/
def OpCode.all : List OpCode :=
  [.move, .loadK, .loadBool, .loadNil, .getUpval, .getGlobal, .getTable, .setGlobal, .setUpval, .setTable,
    .newTable, .opSelf, .add, .sub, .mul, .div, .mod, .pow, .unm, .not, .len, .concat, .jmp, .eq, .lt, .le,
    .test, .testSet, .call, .tailCall, .return, .forLoop, .forPrep, .tForLoop, .setList, .close, .closure,
    .varArg, .getGlobalSlot, .setGlobalSlot]

/-- The encoding of an opcode. -/
def OpCode.toNat (op : OpCode) : ℕ := OpCode.all.idxOf op

def OpCode.fromU8 (n : ℕ) : Option OpCode := OpCode.all[n]?

@[simp] theorem OpCode.fromU8_toNat (op : OpCode) : OpCode.fromU8 op.toNat = some op := by
  cases op <;> rfl

theorem OpCode.toNat_lt (op : OpCode) : op.toNat < 2 ^ 6 := by
  cases op <;> decide

def sizeOp : ℕ := 6
def sizeA : ℕ := 8
def sizeB : ℕ := 9
def sizeC : ℕ := 9
def sizeBx : ℕ := sizeB + sizeC

def posOp : ℕ := 0
def posA : ℕ := posOp + sizeOp
def posC : ℕ := posA + sizeA
def posB : ℕ := posC + sizeC
def posBx : ℕ := posC

/-- Largest value of the field Bx. -/
def maxArgBx : ℕ := 2 ^ sizeBx - 1

/-- An instruction word. -/
structure Instruction where
  raw : BitVec 32
  deriving DecidableEq

namespace Instruction

/-- The opcode. A number that encodes none counts as `move`. -/
def opcode (i : Instruction) : OpCode :=
  (OpCode.fromU8 (BitField.get posOp sizeOp i.raw).toNat).getD .move

def a (i : Instruction) : BitVec 32 := BitField.get posA sizeA i.raw

def b (i : Instruction) : BitVec 32 := BitField.get posB sizeB i.raw

def c (i : Instruction) : BitVec 32 := BitField.get posC sizeC i.raw

def bx (i : Instruction) : BitVec 32 := BitField.get posBx sizeBx i.raw

def setOpcode (i : Instruction) (op : OpCode) : Instruction :=
  ⟨BitField.set posOp sizeOp i.raw (BitVec.ofNat 32 op.toNat)⟩

def setBx (i : Instruction) (bx : BitVec 32) : Instruction := ⟨BitField.set posBx sizeBx i.raw bx⟩

@[simp] theorem opcode_setOpcode (i : Instruction) (op : OpCode) : (i.setOpcode op).opcode = op := by
  have hlt := op.toNat_lt
  have hget : (BitField.get 0 sizeOp (BitVec.ofNat 32 op.toNat)).toNat = op.toNat := by
    rw [BitField.toNat_get _ (by decide), BitVec.toNat_ofNat, sizeOp]
    omega
  rw [opcode, setOpcode, BitField.get_set (by decide), hget, OpCode.fromU8_toNat, Option.getD_some]

@[simp] theorem a_setOpcode (i : Instruction) (op : OpCode) : (i.setOpcode op).a = i.a :=
  BitField.get_set_of_disjoint (by decide) _ _

@[simp] theorem bx_setOpcode (i : Instruction) (op : OpCode) : (i.setOpcode op).bx = i.bx :=
  BitField.get_set_of_disjoint (by decide) _ _

@[simp] theorem opcode_setBx (i : Instruction) (bx : BitVec 32) : (i.setBx bx).opcode = i.opcode := by
  rw [opcode, setBx, BitField.get_set_of_disjoint (by decide), opcode]

@[simp] theorem a_setBx (i : Instruction) (bx : BitVec 32) : (i.setBx bx).a = i.a :=
  BitField.get_set_of_disjoint (by decide) _ _

/-- Bx keeps the 18 lowest bits. -/
@[simp] theorem bx_setBx (i : Instruction) (bx : BitVec 32) :
    (i.setBx bx).bx = BitField.get 0 sizeBx bx :=
  BitField.get_set (by decide) _ _

theorem bx_lt (i : Instruction) : i.bx.toNat < 2 ^ sizeBx := by
  rw [bx, BitField.toNat_get _ (by decide)]
  exact Nat.mod_lt _ (Nat.two_pow_pos _)

end Instruction

end Rilua.Vm
