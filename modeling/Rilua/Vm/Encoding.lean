import Rilua.Vm.Instructions

/-! How instruction words are built and changed (`vm/instructions.rs`). Every field keeps the lowest bits of its
    operand, so an operand that is too large is cut off. -/

namespace Rilua.Vm

open Lib

/-- Largest values of the fields. -/
def maxArgA : ℕ := 2 ^ sizeA - 1
def maxArgB : ℕ := 2 ^ sizeB - 1
def maxArgC : ℕ := 2 ^ sizeC - 1

/-- The field sBx holds a number in excess of this one. -/
def maxArgSbx : ℤ := 131071

/-- The opcodes of tests, which a jump follows. -/
def OpCode.testModes : List OpCode := [.eq, .lt, .le, .test, .testSet]

namespace Instruction

def fromRaw (n : ℕ) : Instruction := ⟨BitVec.ofNat 32 n⟩

def abc (op : OpCode) (a b c : ℕ) : Instruction :=
  ⟨BitField.field posOp sizeOp (BitVec.ofNat 32 op.toNat) ||| BitField.field posA sizeA (BitVec.ofNat 32 a) |||
    BitField.field posB sizeB (BitVec.ofNat 32 b) ||| BitField.field posC sizeC (BitVec.ofNat 32 c)⟩

def aBx (op : OpCode) (a bx : ℕ) : Instruction :=
  ⟨BitField.field posOp sizeOp (BitVec.ofNat 32 op.toNat) ||| BitField.field posA sizeA (BitVec.ofNat 32 a) |||
    BitField.field posBx sizeBx (BitVec.ofNat 32 bx)⟩

/-- The number of an sBx field in excess of `maxArgSbx`, as an unsigned word. -/
def encodeSbx (sbx : ℤ) : ℕ := ((sbx + maxArgSbx) % 2 ^ 32).toNat

def aSbx (op : OpCode) (a : ℕ) (sbx : ℤ) : Instruction := aBx op a (encodeSbx sbx)

def sbx (i : Instruction) : ℤ := i.bx.toNat - maxArgSbx

def setA (i : Instruction) (a : ℕ) : Instruction := ⟨BitField.set posA sizeA i.raw (BitVec.ofNat 32 a)⟩

def setB (i : Instruction) (b : ℕ) : Instruction := ⟨BitField.set posB sizeB i.raw (BitVec.ofNat 32 b)⟩

def setC (i : Instruction) (c : ℕ) : Instruction := ⟨BitField.set posC sizeC i.raw (BitVec.ofNat 32 c)⟩

def setSbx (i : Instruction) (sbx : ℤ) : Instruction := i.setBx (BitVec.ofNat 32 (encodeSbx sbx))

/-! ### The fields of a new word -/

theorem toNat_get_opcode (op : OpCode) : (BitField.get 0 sizeOp (BitVec.ofNat 32 op.toNat)).toNat = op.toNat :=
  BitField.toNat_get_zero_ofNat (by decide) op.toNat_lt

@[simp] theorem opcode_abc (op : OpCode) (a b c : ℕ) : (abc op a b c).opcode = op := by
  rw [opcode, abc, BitField.get_or, BitField.get_or, BitField.get_or, BitField.get_field (by decide),
    BitField.get_field_of_disjoint (by decide), BitField.get_field_of_disjoint (by decide),
    BitField.get_field_of_disjoint (by decide), BitVec.or_zero, BitVec.or_zero, BitVec.or_zero, toNat_get_opcode,
    OpCode.fromU8_toNat, Option.getD_some]

theorem a_abc (op : OpCode) (a b c : ℕ) : (abc op a b c).a = BitField.get 0 sizeA (BitVec.ofNat 32 a) := by
  rw [Instruction.a, abc, BitField.get_or, BitField.get_or, BitField.get_or, BitField.get_field (by decide),
    BitField.get_field_of_disjoint (by decide), BitField.get_field_of_disjoint (by decide),
    BitField.get_field_of_disjoint (by decide), BitVec.or_zero, BitVec.or_zero, BitVec.zero_or]

theorem b_abc (op : OpCode) (a b c : ℕ) : (abc op a b c).b = BitField.get 0 sizeB (BitVec.ofNat 32 b) := by
  rw [Instruction.b, abc, BitField.get_or, BitField.get_or, BitField.get_or, BitField.get_field (by decide),
    BitField.get_field_of_disjoint (by decide), BitField.get_field_of_disjoint (by decide),
    BitField.get_field_of_disjoint (by decide), BitVec.or_zero, BitVec.zero_or, BitVec.zero_or]

theorem c_abc (op : OpCode) (a b c : ℕ) : (abc op a b c).c = BitField.get 0 sizeC (BitVec.ofNat 32 c) := by
  rw [Instruction.c, abc, BitField.get_or, BitField.get_or, BitField.get_or, BitField.get_field (by decide),
    BitField.get_field_of_disjoint (by decide), BitField.get_field_of_disjoint (by decide),
    BitField.get_field_of_disjoint (by decide), BitVec.zero_or, BitVec.zero_or, BitVec.zero_or]

@[simp] theorem opcode_aBx (op : OpCode) (a bx : ℕ) : (aBx op a bx).opcode = op := by
  rw [opcode, aBx, BitField.get_or, BitField.get_or, BitField.get_field (by decide),
    BitField.get_field_of_disjoint (by decide), BitField.get_field_of_disjoint (by decide), BitVec.or_zero,
    BitVec.or_zero, toNat_get_opcode, OpCode.fromU8_toNat, Option.getD_some]

theorem a_aBx (op : OpCode) (a bx : ℕ) : (aBx op a bx).a = BitField.get 0 sizeA (BitVec.ofNat 32 a) := by
  rw [Instruction.a, aBx, BitField.get_or, BitField.get_or, BitField.get_field (by decide),
    BitField.get_field_of_disjoint (by decide), BitField.get_field_of_disjoint (by decide), BitVec.or_zero,
    BitVec.zero_or]

theorem bx_aBx (op : OpCode) (a bx : ℕ) : (aBx op a bx).bx = BitField.get 0 sizeBx (BitVec.ofNat 32 bx) := by
  rw [Instruction.bx, aBx, BitField.get_or, BitField.get_or, BitField.get_field (by decide),
    BitField.get_field_of_disjoint (by decide), BitField.get_field_of_disjoint (by decide), BitVec.zero_or,
    BitVec.zero_or]

/-- An sBx operand that fits is read back. -/
theorem sbx_aSbx (op : OpCode) (a : ℕ) {sbx : ℤ} (hlo : -maxArgSbx ≤ sbx) (hhi : sbx ≤ maxArgSbx + 1) :
    (aSbx op a sbx).sbx = sbx := by
  have hmax : maxArgSbx = 131071 := rfl
  have hfit : encodeSbx sbx < 2 ^ sizeBx := by
    rw [encodeSbx, sizeBx, sizeB, sizeC]
    omega
  rw [Instruction.sbx, aSbx, bx_aBx, BitField.toNat_get_zero_ofNat (by decide) hfit, encodeSbx]
  omega

/-! ### Changed words -/

/-- A word is given by its four fields. -/
theorem ext_fields {i j : Instruction} (hop : BitField.get posOp sizeOp i.raw = BitField.get posOp sizeOp j.raw)
    (ha : i.a = j.a) (hb : i.b = j.b) (hc : i.c = j.c) : i = j := by
  have hraw : i.raw = j.raw := by
    refine BitVec.eq_of_getLsbD_eq fun k hk => ?_
    rcases Nat.lt_or_ge k posA with h | h
    · exact BitField.getLsbD_of_get_eq hop (Nat.zero_le _) (by simpa [posOp, posA] using h)
    rcases Nat.lt_or_ge k posC with h' | h'
    · exact BitField.getLsbD_of_get_eq ha h (by simpa [posC, posA] using h')
    rcases Nat.lt_or_ge k posB with h'' | h''
    · exact BitField.getLsbD_of_get_eq hc h' (by simpa [posC, posB] using h'')
    · exact BitField.getLsbD_of_get_eq hb h'' (by simp [posB, posC, posA, posOp, sizeOp, sizeA, sizeB, sizeC]; omega)
  obtain ⟨x⟩ := i
  obtain ⟨y⟩ := j
  exact congrArg Instruction.mk hraw

@[simp] theorem a_setA (i : Instruction) (x : ℕ) : (i.setA x).a = BitField.get 0 sizeA (BitVec.ofNat 32 x) :=
  BitField.get_set (by decide) _ _

@[simp] theorem b_setA (i : Instruction) (x : ℕ) : (i.setA x).b = i.b := BitField.get_set_of_disjoint (by decide) _ _

@[simp] theorem c_setA (i : Instruction) (x : ℕ) : (i.setA x).c = i.c := BitField.get_set_of_disjoint (by decide) _ _

@[simp] theorem a_setB (i : Instruction) (x : ℕ) : (i.setB x).a = i.a := BitField.get_set_of_disjoint (by decide) _ _

@[simp] theorem b_setB (i : Instruction) (x : ℕ) : (i.setB x).b = BitField.get 0 sizeB (BitVec.ofNat 32 x) :=
  BitField.get_set (by decide) _ _

@[simp] theorem c_setB (i : Instruction) (x : ℕ) : (i.setB x).c = i.c := BitField.get_set_of_disjoint (by decide) _ _

@[simp] theorem a_setC (i : Instruction) (x : ℕ) : (i.setC x).a = i.a := BitField.get_set_of_disjoint (by decide) _ _

@[simp] theorem b_setC (i : Instruction) (x : ℕ) : (i.setC x).b = i.b := BitField.get_set_of_disjoint (by decide) _ _

@[simp] theorem c_setC (i : Instruction) (x : ℕ) : (i.setC x).c = BitField.get 0 sizeC (BitVec.ofNat 32 x) :=
  BitField.get_set (by decide) _ _

theorem op_setA (i : Instruction) (x : ℕ) :
    BitField.get posOp sizeOp (i.setA x).raw = BitField.get posOp sizeOp i.raw :=
  BitField.get_set_of_disjoint (by decide) _ _

theorem op_setB (i : Instruction) (x : ℕ) :
    BitField.get posOp sizeOp (i.setB x).raw = BitField.get posOp sizeOp i.raw :=
  BitField.get_set_of_disjoint (by decide) _ _

theorem op_setC (i : Instruction) (x : ℕ) :
    BitField.get posOp sizeOp (i.setC x).raw = BitField.get posOp sizeOp i.raw :=
  BitField.get_set_of_disjoint (by decide) _ _

theorem op_abc (op : OpCode) (a b c : ℕ) :
    BitField.get posOp sizeOp (abc op a b c).raw = BitField.get 0 sizeOp (BitVec.ofNat 32 op.toNat) := by
  rw [abc, BitField.get_or, BitField.get_or, BitField.get_or, BitField.get_field (by decide),
    BitField.get_field_of_disjoint (by decide), BitField.get_field_of_disjoint (by decide),
    BitField.get_field_of_disjoint (by decide), BitVec.or_zero, BitVec.or_zero, BitVec.or_zero]

theorem op_aBx (op : OpCode) (a bx : ℕ) :
    BitField.get posOp sizeOp (aBx op a bx).raw = BitField.get 0 sizeOp (BitVec.ofNat 32 op.toNat) := by
  rw [aBx, BitField.get_or, BitField.get_or, BitField.get_field (by decide),
    BitField.get_field_of_disjoint (by decide), BitField.get_field_of_disjoint (by decide), BitVec.or_zero,
    BitVec.or_zero]

@[simp] theorem setA_abc (op : OpCode) (a b c x : ℕ) : (abc op a b c).setA x = abc op x b c :=
  ext_fields (by rw [op_setA, op_abc, op_abc]) (by rw [a_setA, a_abc]) (by rw [b_setA, b_abc, b_abc])
    (by rw [c_setA, c_abc, c_abc])

@[simp] theorem setB_abc (op : OpCode) (a b c x : ℕ) : (abc op a b c).setB x = abc op a x c :=
  ext_fields (by rw [op_setB, op_abc, op_abc]) (by rw [a_setB, a_abc, a_abc]) (by rw [b_setB, b_abc])
    (by rw [c_setB, c_abc, c_abc])

@[simp] theorem setC_abc (op : OpCode) (a b c x : ℕ) : (abc op a b c).setC x = abc op a b x :=
  ext_fields (by rw [op_setC, op_abc, op_abc]) (by rw [a_setC, a_abc, a_abc]) (by rw [b_setC, b_abc, b_abc])
    (by rw [c_setC, c_abc])

/-- B and C are the two halves of Bx. -/
theorem ext_bx {i j : Instruction} (hop : BitField.get posOp sizeOp i.raw = BitField.get posOp sizeOp j.raw)
    (ha : i.a = j.a) (hbx : i.bx = j.bx) : i = j := by
  refine ext_fields hop ha ?_ ?_
  · refine BitVec.eq_of_getLsbD_eq fun k _ => ?_
    rw [Instruction.b, Instruction.b, BitField.getLsbD_get, BitField.getLsbD_get]
    rcases Nat.lt_or_ge k sizeB with hs | hs
    · have hlt : k < 9 := hs
      rw [BitField.getLsbD_of_get_eq hbx (by simp [posB, posBx]; omega)
        (by simp [posB, posBx, posC, posA, posOp, sizeOp, sizeA, sizeBx, sizeB, sizeC]; omega)]
    · rw [decide_eq_false (by omega), Bool.false_and, Bool.false_and]
  · refine BitVec.eq_of_getLsbD_eq fun k _ => ?_
    rw [Instruction.c, Instruction.c, BitField.getLsbD_get, BitField.getLsbD_get]
    rcases Nat.lt_or_ge k sizeC with hs | hs
    · have hlt : k < 9 := hs
      rw [BitField.getLsbD_of_get_eq hbx (by simp [posBx]) (by simp [posBx, sizeBx, sizeB, sizeC]; omega)]
    · rw [decide_eq_false (by omega), Bool.false_and, Bool.false_and]

@[simp] theorem setA_aBx (op : OpCode) (a bx x : ℕ) : (aBx op a bx).setA x = aBx op x bx := by
  refine ext_bx (by rw [op_setA, op_aBx, op_aBx]) (by rw [a_setA, a_aBx]) ?_
  rw [show ((aBx op a bx).setA x).bx = (aBx op a bx).bx from BitField.get_set_of_disjoint (by decide) _ _, bx_aBx,
    bx_aBx]

@[simp] theorem setSbx_aSbx (op : OpCode) (a : ℕ) (s s' : ℤ) : (aSbx op a s).setSbx s' = aSbx op a s' := by
  have hop : BitField.get posOp sizeOp ((aSbx op a s).setSbx s').raw = BitField.get posOp sizeOp (aSbx op a s).raw :=
    BitField.get_set_of_disjoint (by decide) _ _
  refine ext_bx ?_ ?_ ?_
  · rw [hop, aSbx, op_aBx, aSbx, op_aBx]
  · rw [setSbx, a_setBx, aSbx, a_aBx, aSbx, a_aBx]
  · rw [setSbx, bx_setBx, aSbx, bx_aBx]

end Instruction

end Rilua.Vm
