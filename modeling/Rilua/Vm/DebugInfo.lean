import Rilua.Lib.Iterate
import Rilua.Lib.Utf8Lossy
import Rilua.Vm.Encoding
import Rilua.Vm.Proto

/-! Names for registers (`vm/debug_info.rs`). The instructions before a given one are walked over, to find the last one
    that has written a register. A result is missing where the code would be indexed outside, or the search does not
    end. -/

namespace Rilua.Vm

open Lib Gc

/-- Does the instruction write the register of its field A? -/
def OpCode.setsRegisterA (op : OpCode) : Bool :=
  op ∉ [OpCode.setGlobal, .setGlobalSlot, .setUpval, .setTable, .jmp, .eq, .lt, .le, .return, .setList, .close,
    .tForLoop]

/-- No register. -/
def noReg : ℕ := maxArgA

/-- Kind and name of an object. -/
abbrev ObjName := String × String

namespace Proto

/-- The name of local variable `remaining` among those that are active at an instruction. Counting down from 0 fails. -/
def getLocalNameFrom (pc : ℕ) : List LocalVar → ℕ → Option (Option String)
  | [], _ => some none
  | var :: vars, remaining =>
    if pc < var.startPc.toNat then some none
    else if pc < var.endPc.toNat then
      match remaining with
      | 0 => none
      | 1 => some (some var.name)
      | n + 2 => getLocalNameFrom pc vars (n + 1)
    else getLocalNameFrom pc vars remaining

def getLocalName (p : Proto) (localNumber pc : ℕ) : Option (Option String) :=
  getLocalNameFrom pc p.localVars localNumber

/-- Does the instruction count as one that writes the register? -/
def marks (i : Instruction) (reg : ℕ) : Bool :=
  (i.opcode.setsRegisterA && i.a.toNat == reg) ||
    match i.opcode with
    | .loadNil => decide (i.a.toNat ≤ reg ∧ reg ≤ i.b.toNat)
    | .opSelf => reg == i.a.toNat + 1
    | .call | .tailCall => decide (i.a.toNat ≤ reg)
    | .tForLoop => decide (i.a.toNat + 2 ≤ reg)
    | _ => false

/-- The instruction that the walk goes to: a jump forwards is followed, and pseudo instructions are passed over. -/
def nextPc (p : Proto) (lastpc reg pc : ℕ) (i : Instruction) : ℕ :=
  match i.opcode with
  | .jmp | .forLoop | .forPrep =>
    let dest := (pc : ℤ) + 1 + i.sbx
    if reg ≠ noReg ∧ (pc : ℤ) < dest ∧ dest ≤ lastpc then dest.toNat else pc + 1
  | .setList => if i.c = 0 then pc + 2 else pc + 1
  | .closure =>
    match p.protos[i.bx.toNat]? with
    | some child => pc + child.numUpvalues.toNat + 1
    | none => pc + 1
  | _ => pc + 1

theorem lt_nextPc (p : Proto) (lastpc reg pc : ℕ) (i : Instruction) : pc < p.nextPc lastpc reg pc i := by
  rw [nextPc]
  split
  any_goals first | omega | (split <;> omega)
  all_goals
    simp only
    split <;> omega

/-- The walk from `pc` on, where `last` is the last instruction found so far. -/
def symbexecFrom (p : Proto) (lastpc reg pc last : ℕ) : Option ℕ :=
  if pc < lastpc then
    match p.code[pc]? with
    | none => none
    | some raw => p.symbexecFrom lastpc reg (p.nextPc lastpc reg pc ⟨raw⟩) (if marks ⟨raw⟩ reg then pc else last)
  else some last
termination_by lastpc - pc
decreasing_by
  have := p.lt_nextPc lastpc reg pc ⟨raw⟩
  omega

/-- The last instruction before `lastpc` that has written the register; the one at the end of the code if there is
    none. -/
def symbexec (p : Proto) (lastpc reg : ℕ) : Option (BitVec 32) :=
  (p.symbexecFrom lastpc reg 0 (p.code.length - 1)).map fun last => p.code[last]?.getD 0

/-- The text of a constant that is a string. -/
def constantText (strings : GcRef .string → Option (List UInt8)) (p : Proto) (idx : ℕ) : Option String :=
  match p.constants[idx]? with
  | some (.str r) => (strings r).map fromUtf8Lossy
  | _ => none

/-- The name of a key in a field RK. -/
def kname (strings : GcRef .string → Option (List UInt8)) (p : Proto) (c : ℕ) : String :=
  if 256 ≤ c then (p.constantText strings (c - 256)).getD "?" else "?"

/-- What one turn of the search finds: an answer, or the register that the value has been moved from. -/
inductive ObjTurn where
  | found (name : Option ObjName)
  | movedFrom (reg : ℕ)

/-- What the instruction that has written a register says about its value. -/
def objOfInstruction (strings : GcRef .string → Option (List UInt8)) (p : Proto) (i : Instruction) : ObjTurn :=
  match i.opcode with
  | .getGlobal => .found ((p.constantText strings i.bx.toNat).map fun name => ("global", name))
  | .getGlobalSlot =>
    match p.globalSlotNames[i.bx.toNat]? with
    | some (some name) => .found (some ("global", fromUtf8Lossy name))
    | _ => .found none
  | .move => if i.b.toNat < i.a.toNat then .movedFrom i.b.toNat else .found none
  | .getTable => .found (some ("field", p.kname strings i.c.toNat))
  | .getUpval => .found (some ("upvalue", (p.upvalueNames[i.b.toNat]?).getD "?"))
  | .opSelf => .found (some ("method", p.kname strings i.c.toNat))
  | _ => .found none

def objTurn (strings : GcRef .string → Option (List UInt8)) (p : Proto) (pc reg : ℕ) : Option ObjTurn := do
  match ← p.getLocalName (reg + 1) pc with
  | some name => some (.found (some ("local", name)))
  | none => do
    let raw ← p.symbexec pc reg
    some (p.objOfInstruction strings ⟨raw⟩)

/-- The recursion of `getobjname`, as far as `fuel` calls go. -/
def getobjnameFuel (strings : GcRef .string → Option (List UInt8)) (p : Proto) (pc : ℕ) :
    ℕ → ℕ → Option (Option ObjName)
  | 0, _ => none
  | fuel + 1, reg =>
    match p.objTurn strings pc reg with
    | none => none
    | some (.found name) => some name
    | some (.movedFrom b) => p.getobjnameFuel strings pc fuel b

/-- The kind and name of the value in a register: no result if the recursion does not end. -/
def getobjname (strings : GcRef .string → Option (List UInt8)) (p : Proto) (pc reg : ℕ) : Option (Option ObjName) :=
  p.getobjnameFuel strings pc (reg + 2 ^ sizeB + 2) reg

/-! ### Every search stays inside the code -/

theorem getLocalNameFrom_isSome (pc : ℕ) : ∀ (vars : List LocalVar) {remaining : ℕ}, 0 < remaining →
    (getLocalNameFrom pc vars remaining).isSome
  | [], _, _ => rfl
  | var :: vars, 1, h => by
    simp only [getLocalNameFrom]
    split_ifs
    · rfl
    · rfl
    · exact getLocalNameFrom_isSome pc vars h
  | var :: vars, n + 2, h => by
    simp only [getLocalNameFrom]
    split_ifs
    · rfl
    · exact getLocalNameFrom_isSome pc vars (Nat.succ_pos n)
    · exact getLocalNameFrom_isSome pc vars h

theorem symbexecFrom_isSome (p : Proto) {lastpc : ℕ} (h : lastpc ≤ p.code.length) (reg : ℕ) : ∀ (n pc last : ℕ),
    lastpc ≤ pc + n → (p.symbexecFrom lastpc reg pc last).isSome := by
  intro n
  induction n with
  | zero =>
    intro pc last hpc
    rw [symbexecFrom, if_neg (by omega)]
    rfl
  | succ n ih =>
    intro pc last hpc
    rw [symbexecFrom]
    split_ifs with hlt
    · rw [List.getElem?_eq_getElem (by omega)]
      have hnext := p.lt_nextPc lastpc reg pc ⟨p.code[pc]⟩
      exact ih _ _ (by omega)
    · rfl

/-- `symbexec` ends, and never reads behind the code. -/
theorem symbexec_isSome (p : Proto) {lastpc : ℕ} (h : lastpc ≤ p.code.length) (reg : ℕ) :
    (p.symbexec lastpc reg).isSome := by
  rw [symbexec, Option.isSome_map]
  exact p.symbexecFrom_isSome h reg lastpc 0 _ (by omega)

theorem symbexecFrom_cases {p : Proto} {lastpc reg : ℕ} : ∀ {n pc last res : ℕ}, lastpc ≤ pc + n →
    p.symbexecFrom lastpc reg pc last = some res →
    res = last ∨ ∃ raw, p.code[res]? = some raw ∧ marks ⟨raw⟩ reg := by
  intro n
  induction n with
  | zero =>
    intro pc last res hpc h
    rw [symbexecFrom, if_neg (by omega)] at h
    exact .inl (Option.some.inj h).symm
  | succ n ih =>
    intro pc last res hpc h
    rw [symbexecFrom] at h
    split_ifs at h with hlt
    · cases hraw : p.code[pc]? with
      | none => simp [hraw] at h
      | some raw =>
        rw [hraw] at h
        have hnext := p.lt_nextPc lastpc reg pc ⟨raw⟩
        rcases ih (by omega) h with rfl | hmark
        · split_ifs with hmark
          · exact .inr ⟨raw, hraw, hmark⟩
          · exact .inl rfl
        · exact .inr hmark
    · exact .inl (Option.some.inj h).symm

/-- The instruction found has written the register, or is the last one of the code. -/
theorem symbexec_cases {p : Proto} {lastpc reg : ℕ} {raw : BitVec 32} (h : p.symbexec lastpc reg = some raw) :
    raw = p.code[p.code.length - 1]?.getD 0 ∨ marks ⟨raw⟩ reg := by
  obtain ⟨last, hlast, rfl⟩ := Option.map_eq_some_iff.mp h
  rcases symbexecFrom_cases (n := lastpc) (by omega) hlast with rfl | ⟨raw, hraw, hmark⟩
  · exact .inl rfl
  · rw [hraw]
    exact .inr hmark

variable {strings : GcRef .string → Option (List UInt8)} {p : Proto} {pc reg b : ℕ}

theorem objTurn_isSome (h : pc ≤ p.code.length) (reg : ℕ) : (p.objTurn strings pc reg).isSome := by
  obtain ⟨name, hname⟩ := Option.isSome_iff_exists.mp (getLocalNameFrom_isSome pc p.localVars (Nat.succ_pos reg))
  obtain ⟨raw, hraw⟩ := Option.isSome_iff_exists.mp (p.symbexec_isSome h reg)
  rw [objTurn, getLocalName, hname]
  cases name with
  | some name => rfl
  | none =>
    rw [hraw]
    rfl

theorem objOfInstruction_movedFrom {i : Instruction} (h : p.objOfInstruction strings i = .movedFrom b) :
    i.opcode = .move ∧ b = i.b.toNat ∧ b < i.a.toNat := by
  rw [objOfInstruction] at h
  split at h
  all_goals first | (next hop => split_ifs at h with hlt; cases h; exact ⟨hop, rfl, hlt⟩) | cases h | skip
  split at h <;> cases h

/-- The register that the value has been moved from is lower, or the one that the last instruction of the code reads. -/
theorem objTurn_movedFrom (h : p.objTurn strings pc reg = some (.movedFrom b)) :
    b < reg ∨ b = (Instruction.b ⟨p.code[p.code.length - 1]?.getD 0⟩).toNat := by
  simp only [objTurn, Option.bind_eq_bind, Option.bind_eq_some_iff] at h
  obtain ⟨name, -, h⟩ := h
  cases name with
  | some name => cases h
  | none =>
    simp only [Option.bind_eq_some_iff, Option.some.injEq] at h
    obtain ⟨raw, hraw, h⟩ := h
    obtain ⟨hop, rfl, hlt⟩ := objOfInstruction_movedFrom h
    rcases symbexec_cases hraw with rfl | hmark
    · exact .inr rfl
    · have ha : (Instruction.a ⟨raw⟩).toNat = reg := by simpa [marks, hop, OpCode.setsRegisterA] using hmark
      exact .inl (ha ▸ hlt)

/-! ### When the recursion ends -/

/-- The registers that the recursion comes to. -/
def movedFrom (strings : GcRef .string → Option (List UInt8)) (p : Proto) (pc reg : ℕ) : Option ℕ :=
  match p.objTurn strings pc reg with
  | some (.movedFrom b) => some b
  | _ => none

theorem movedFrom_eq_some : p.movedFrom strings pc reg = some b ↔ p.objTurn strings pc reg = some (.movedFrom b) := by
  rw [movedFrom]
  split
  · next h => simp [h]
  · next h =>
    constructor
    · nofun
    · exact fun he => absurd he (h b)

/-- So many calls are enough exactly if the loop over the registers ends within them. -/
theorem getobjnameFuel_isSome (h : pc ≤ p.code.length) : ∀ (fuel reg : ℕ),
    (p.getobjnameFuel strings pc fuel reg).isSome ↔
      ∃ vs, Visits (p.movedFrom strings pc) reg vs ∧ vs.length < fuel := by
  intro fuel
  induction fuel with
  | zero => simp [getobjnameFuel]
  | succ fuel ih =>
    intro reg
    obtain ⟨turn, hturn⟩ := Option.isSome_iff_exists.mp (@objTurn_isSome strings p pc h reg)
    rw [getobjnameFuel, hturn]
    cases turn with
    | found name =>
      have hend : p.movedFrom strings pc reg = none := by rw [movedFrom, hturn]
      simp only [Option.isSome_some, true_iff]
      exact ⟨[], hend, Nat.succ_pos fuel⟩
    | movedFrom b =>
      have hnext : p.movedFrom strings pc reg = some b := movedFrom_eq_some.mpr hturn
      simp only [ih b]
      constructor
      · rintro ⟨vs, hvs, hlen⟩
        exact ⟨b :: vs, ⟨hnext, hvs⟩, by simpa using hlen⟩
      · rintro ⟨vs, hvs, hlen⟩
        cases vs with
        | nil => exact absurd (hnext.symm.trans hvs) (by simp)
        | cons c vs =>
          obtain rfl := Option.some.inj (hnext.symm.trans hvs.1)
          exact ⟨vs, hvs.2, by simpa using hlen⟩

/-- `getobjname` has no result exactly if no number of calls is enough. -/
theorem getobjname_eq_none_iff (h : pc ≤ p.code.length) :
    p.getobjname strings pc reg = none ↔ ∀ fuel, p.getobjnameFuel strings pc fuel reg = none := by
  refine ⟨fun hnone fuel => ?_, fun hall => hall _⟩
  by_contra hsome
  obtain ⟨vs, hvs, -⟩ := (getobjnameFuel_isSome h fuel reg).mp (Option.isSome_iff_ne_none.mpr hsome)
  have hb : (Instruction.b ⟨p.code[p.code.length - 1]?.getD 0⟩).toNat < 2 ^ sizeB := by
    rw [Instruction.b, BitField.toNat_get _ (by decide)]
    exact Nat.mod_lt _ (Nat.two_pow_pos _)
  have hlen := hvs.length_le fun a b hab => objTurn_movedFrom (movedFrom_eq_some.mp hab)
  have henough := (getobjnameFuel_isSome h (reg + 2 ^ sizeB + 2) reg).mpr ⟨vs, hvs, by omega⟩
  rw [getobjname] at hnone
  rw [hnone] at henough
  cases henough

end Proto
end Rilua.Vm
