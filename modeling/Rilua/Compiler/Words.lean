import Rilua.Vm.Encoding

/-! What the code generator does with instruction words, apart from how wide their fields are. The words of the
    program are those of the virtual machine; the instructions that the compiler means are words as well, with
    operands of any size. The same code generator writes either. -/

namespace Rilua.Codegen

open Lib Vm

/-- An instruction as the compiler means it, or the number of a batch behind a SETLIST. -/
inductive Instr where
  | abc (op : OpCode) (a b c : ℕ)
  | aBx (op : OpCode) (a bx : ℕ)
  | aSbx (op : OpCode) (a : ℕ) (sbx : ℤ)
  | raw (n : ℕ)
  deriving DecidableEq

/-- What the code generator builds its code from. -/
class Words (I : Type) where
  /-- The word of an instruction. -/
  word : Instr → I
  /-- Whether a word is an instruction with one of the opcodes. -/
  hasOpcode : I → List OpCode → Bool
  /-- Whether a word is the number of a batch, which reads as one of the opcodes. -/
  looksLike : I → List OpCode → Bool
  a : I → ℕ
  b : I → ℕ
  c : I → ℕ
  sbx : I → ℤ
  setA : I → ℕ → I
  setB : I → ℕ → I
  setC : I → ℕ → I
  setSbx : I → ℤ → I
  /-- The index of a local variable, as `active_vars` keeps it. -/
  narrow : ℕ → ℕ
  /-- The index that stands for a numeral where the constant table is full. -/
  fallback : Option ℕ
  /-- Whether an operand that finds no register is an operand all the same. -/
  ignores : Bool

/-- The word that the virtual machine executes. -/
def Instr.pack : Instr → Instruction
  | .abc op a b c => .abc op a b c
  | .aBx op a bx => .aBx op a bx
  | .aSbx op a sbx => .aSbx op a sbx
  | .raw n => .fromRaw n

/-- The words of the program: a local variable's index is kept in 16 bits, a numeral that has found no place among the
    constants is taken for the first of them, and an operand that has found no register goes without its jumps. -/
instance : Words Instruction where
  word := Instr.pack
  hasOpcode i ops := i.opcode ∈ ops
  looksLike _ _ := false
  a i := i.a.toNat
  b i := i.b.toNat
  c i := i.c.toNat
  sbx := Instruction.sbx
  setA := Instruction.setA
  setB := Instruction.setB
  setC := Instruction.setC
  setSbx := Instruction.setSbx
  narrow idx := idx % 2 ^ 16
  fallback := some 0
  ignores := true

namespace Instr

def hasOpcode : Instr → List OpCode → Bool
  | .abc op _ _ _, ops => op ∈ ops
  | .aBx op _ _, ops => op ∈ ops
  | .aSbx op _ _, ops => op ∈ ops
  | .raw _, _ => false

def looksLike : Instr → List OpCode → Bool
  | .raw n, ops => (Instruction.fromRaw n).opcode ∈ ops
  | _, _ => false

/-! An operand that an instruction has not got is taken from its word. -/

def a : Instr → ℕ
  | .abc _ a _ _ => a
  | .aBx _ a _ => a
  | .aSbx _ a _ => a
  | .raw n => (Instruction.fromRaw n).a.toNat

def b : Instr → ℕ
  | .abc _ _ b _ => b
  | i => i.pack.b.toNat

def c : Instr → ℕ
  | .abc _ _ _ c => c
  | i => i.pack.c.toNat

def sbx : Instr → ℤ
  | .aSbx _ _ sbx => sbx
  | i => i.pack.sbx

def ofWord (i : Instruction) : Instr := .raw i.raw.toNat

def setA (x : ℕ) : Instr → Instr
  | .abc op _ b c => .abc op x b c
  | .aBx op _ bx => .aBx op x bx
  | .aSbx op _ sbx => .aSbx op x sbx
  | i => .ofWord (i.pack.setA x)

def setB (x : ℕ) : Instr → Instr
  | .abc op a _ c => .abc op a x c
  | i => .ofWord (i.pack.setB x)

def setC (x : ℕ) : Instr → Instr
  | .abc op a b _ => .abc op a b x
  | i => .ofWord (i.pack.setC x)

def setSbx (x : ℤ) : Instr → Instr
  | .aSbx op a _ => .aSbx op a x
  | i => .ofWord (i.pack.setSbx x)

end Instr

/-- What the compiler means: nothing is cut off, a numeral needs a place among the constants, and an operand with
    jumps a register. -/
instance : Words Instr where
  word := id
  hasOpcode := Instr.hasOpcode
  looksLike := Instr.looksLike
  a := Instr.a
  b := Instr.b
  c := Instr.c
  sbx := Instr.sbx
  setA i x := i.setA x
  setB i x := i.setB x
  setC i x := i.setC x
  setSbx i x := i.setSbx x
  narrow := id
  fallback := none
  ignores := false

/-! ### Operands that fit -/

/-- Every operand fits into its field. -/
def Instr.Fits : Instr → Prop
  | .abc _ a b c => a ≤ maxArgA ∧ b ≤ maxArgB ∧ c ≤ maxArgC
  | .aBx _ a bx => a ≤ maxArgA ∧ bx ≤ maxArgBx
  | .aSbx _ a sbx => a ≤ maxArgA ∧ -maxArgSbx ≤ sbx ∧ sbx ≤ maxArgSbx + 1
  | .raw n => n < 2 ^ 32

end Rilua.Codegen
