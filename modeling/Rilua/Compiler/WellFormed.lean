import Rilua.Compiler.Codegen
import Rilua.Lib.Ensures

/-! What the virtual machine relies on in a prototype that has been compiled, and what holds of the functions under
    compilation meanwhile. The scopes of a function are its `Shape`: an expression leaves it as it is, a statement adds
    local variables, and the end of a block takes them away. -/

namespace Rilua.Codegen

open Lib Vm Rilua.Compiler

variable {I : Type}

/-! ### Prototypes -/

/-- The constants and the strings among them, which are nil until they are interned. A number, a truth value or a string
    occurs once. -/
structure Draft.Constants (p : Draft I) : Prop where
  limit : p.constants.length ≤ maxArgBx + 1
  plain : ∀ v ∈ p.constants, v = .nil ∨ (constantKey v).isSome
  once : ∀ (i j : ℕ) v w key, p.constants[i]? = some v → p.constants[j]? = some w → constantKey v = some key →
    constantKey w = some key → i = j
  strings : ∀ e ∈ p.stringPool, p.constants[e.index.toNat]? = some .nil ∧ e.hash = luaHash e.bytes
  stringsOnce : p.stringPool.Pairwise fun a b => a.index ≠ b.index ∧ a.bytes ≠ b.bytes
  nilOnce : ∀ i j : ℕ, p.constants[i]? = some .nil → p.constants[j]? = some .nil →
    (∀ e ∈ p.stringPool, e.index.toNat ≠ i) → (∀ e ∈ p.stringPool, e.index.toNat ≠ j) → i = j

/-- What holds of a prototype, apart from those in it. -/
structure Draft.Sound [Words I] (p : Draft I) : Prop where
  lines : p.lineInfo.length = p.code.length
  final : p.code.getLast? = some (Words.word (.abc .return 0 1 0))
  stack : 2 ≤ p.maxStackSize ∧ p.maxStackSize ≤ maxStack
  params : p.numParams ≤ p.maxStackSize
  upvalues : p.upvalueNames.length = p.numUpvalues ∧ p.numUpvalues ≤ luaiMaxUpvalues
  constants : p.Constants
  localVars : p.code.length < 2 ^ 32 → ∀ v ∈ p.localVars, v.startPc ≤ v.endPc ∧ v.endPc.toNat ≤ p.code.length

/-- A prototype, and those in it. -/
inductive Draft.WellFormed [Words I] : Draft I → Prop
  | intro {p : Draft I} (sound : p.Sound) (protos : ∀ q ∈ p.protos, q.WellFormed) : p.WellFormed

/-! ### Functions under compilation -/

/-- The constants of a function, and what is kept to find them again. Every nil is the place of a string, or the constant
    nil. -/
structure FuncState.Pool (fs : FuncState I) : Prop where
  limit : fs.proto.constants.length ≤ maxArgBx + 1
  plain : ∀ v ∈ fs.proto.constants, v = .nil ∨ (constantKey v).isSome
  lookup : ∀ key idx, fs.constantIndex.lookup key = some idx ↔
    ∃ v, fs.proto.constants[idx]? = some v ∧ constantKey v = some key
  strings : ∀ e ∈ fs.proto.stringPool, fs.proto.constants[e.index.toNat]? = some .nil ∧ e.hash = luaHash e.bytes
  stringsOnce : fs.proto.stringPool.Pairwise fun a b => a.index ≠ b.index ∧ a.bytes ≠ b.bytes
  nils : ∀ i : ℕ, fs.proto.constants[i]? = some .nil → (∃ e ∈ fs.proto.stringPool, e.index.toNat = i) ∨ fs.nilK = some i

section

variable {fs : FuncState I}

theorem getElem?_concat_eq_some {γ : Type} {l : List γ} {a b : γ} {i : ℕ} :
    (l ++ [a])[i]? = some b ↔ l[i]? = some b ∨ i = l.length ∧ a = b := by
  rcases lt_trichotomy i l.length with h | rfl | h
  · simp [List.getElem?_append_left h, h.ne]
  · simp
  · simp [List.getElem?_eq_none h.le, List.getElem?_eq_none (show (l ++ [a]).length ≤ i by simp; omega), h.ne']

theorem constantKey_ne_nil {v : Val} {key : ConstantKey} (h : constantKey v = some key) : v ≠ .nil := by
  rintro rfl
  cases h

/-- A number or a truth value that is new. -/
theorem FuncState.Pool.scalar (h : fs.Pool) {val : Val} {key : ConstantKey} (hkey : constantKey val = some key)
    (hnew : fs.constantIndex.lookup key = none) (hroom : fs.proto.constants.length ≤ maxArgBx) :
    FuncState.Pool { fs with
      proto := { fs.proto with constants := fs.proto.constants ++ [val] }
      constantIndex := (key, fs.proto.constants.length) :: fs.constantIndex } := by
  have hold : ∀ (i : ℕ) w, fs.proto.constants[i]? = some w → (fs.proto.constants ++ [val])[i]? = some w := fun i w hw =>
    getElem?_concat_eq_some.mpr (.inl hw)
  refine ⟨by simpa using hroom, fun v hv => ?_, fun k idx => ?_,
    fun e he => ⟨hold _ _ (h.strings e he).1, (h.strings e he).2⟩, h.stringsOnce, fun i hi => ?_⟩
  · rcases List.mem_append.mp hv with hv | hv
    · exact h.plain v hv
    · rw [List.mem_singleton.mp hv, hkey]
      exact .inr rfl
  · rw [List.lookup_cons]
    by_cases hk : k = key
    · subst hk
      simp only [beq_self_eq_true, Option.some.injEq, getElem?_concat_eq_some]
      refine ⟨fun hidx => ⟨val, .inr ⟨hidx.symm, rfl⟩, hkey⟩, ?_⟩
      rintro ⟨v, hv | ⟨rfl, -⟩, hkv⟩
      · have := (h.lookup k idx).mpr ⟨v, hv, hkv⟩
        rw [hnew] at this
        cases this
      · rfl
    · rw [beq_eq_false_iff_ne.mpr hk]
      simp only [h.lookup, getElem?_concat_eq_some]
      refine ⟨fun ⟨v, hv, hkv⟩ => ⟨v, .inl hv, hkv⟩, ?_⟩
      rintro ⟨v, hv | ⟨-, rfl⟩, hkv⟩
      · exact ⟨v, hv, hkv⟩
      · exact absurd (Option.some.inj (hkv.symm.trans hkey)) hk
  · rcases getElem?_concat_eq_some.mp hi with hi | ⟨-, hval⟩
    · exact h.nils i hi
    · exact absurd hval (constantKey_ne_nil hkey)

/-- A nil that is new, and that is noted as the constant nil or as the place of a string. -/
theorem FuncState.Pool.null (h : fs.Pool) (hroom : fs.proto.constants.length ≤ maxArgBx) {pool : List StringPoolEntry}
    {nilK : Option ℕ} (hpool : ∀ e ∈ pool, e ∈ fs.proto.stringPool ∨
      e.index.toNat = fs.proto.constants.length ∧ e.hash = luaHash e.bytes)
    (honce : pool.Pairwise fun a b => a.index ≠ b.index ∧ a.bytes ≠ b.bytes) (hold : ∀ e ∈ fs.proto.stringPool, e ∈ pool)
    (hnil : ∀ i ∈ fs.nilK, i ∈ nilK) (hnoted : (∃ e ∈ pool, e.index.toNat = fs.proto.constants.length) ∨
      nilK = some fs.proto.constants.length) : FuncState.Pool { fs with
        proto := { fs.proto with constants := fs.proto.constants ++ [.nil], stringPool := pool }
        nilK } := by
  refine ⟨by simpa using hroom, fun v hv => ?_, fun k idx => ?_, fun e he => ?_, honce, fun i hi => ?_⟩
  · rcases List.mem_append.mp hv with hv | hv
    · exact h.plain v hv
    · exact .inl (List.mem_singleton.mp hv)
  · simp only [h.lookup, getElem?_concat_eq_some]
    refine ⟨fun ⟨v, hv, hkv⟩ => ⟨v, .inl hv, hkv⟩, ?_⟩
    rintro ⟨v, hv | ⟨-, rfl⟩, hkv⟩
    · exact ⟨v, hv, hkv⟩
    · cases hkv
  · simp only [getElem?_concat_eq_some]
    rcases hpool e he with he | ⟨hidx, hhash⟩
    · exact ⟨.inl (h.strings e he).1, (h.strings e he).2⟩
    · exact ⟨.inr ⟨hidx, trivial⟩, hhash⟩
  · rcases getElem?_concat_eq_some.mp hi with hi | ⟨rfl, -⟩
    · exact (h.nils i hi).imp (fun ⟨e, he, hidx⟩ => ⟨e, hold e he, hidx⟩) (hnil i)
    · exact hnoted

theorem findString_none {pool : List StringPoolEntry} {s : List UInt8} (h : findString pool s = none)
    (hhash : ∀ e ∈ pool, e.hash = luaHash e.bytes) : ∀ e ∈ pool, e.bytes ≠ s := by
  rintro e he rfl
  rw [findString] at h
  cases hlast : pool.getLast? with
  | none =>
    rw [List.getLast?_eq_none_iff.mp hlast] at he
    cases he
  | some last =>
    simp only [hlast] at h
    split at h
    · cases h
    · simpa [hhash e he] using List.find?_eq_none.mp h e he

end

/-- A local variable has been in scope for some of the instructions below `pc`, or it still is. -/
def Spans (v : LocalVar) (pc : ℕ) (active : Prop) : Prop :=
  ∃ m n, v.startPc = BitVec.ofNat 32 m ∧ v.endPc = BitVec.ofNat 32 n ∧ m ≤ pc ∧ n ≤ pc ∧ (m ≤ n ∨ active)

theorem Spans.mono {v : LocalVar} {m n : ℕ} {p q : Prop} (h : Spans v m p) (hmn : m ≤ n) (hpq : p → q) : Spans v n q := by
  obtain ⟨a, b, ha, hb, ham, hbm, hab⟩ := h
  exact ⟨a, b, ha, hb, ham.trans hmn, hbm.trans hmn, hab.imp_right hpq⟩

/-- The levels of the open blocks, and the local variables: how many are visible, and all that are declared. `entered`
    says that the parameters have their registers. -/
structure Shape where
  levels : List ℕ := []
  numActiveVars : ℕ := 0
  activeVars : List ℕ := []
  numParams : ℕ := 0
  entered : Bool := false

/-- What holds of a function while it is compiled. The last `d` instructions may have been taken back. -/
structure FuncState.Ok [Words I] (d : ℕ) (sh : Shape) (fs : FuncState I) : Prop where
  levels : fs.blocks.map (·.numActiveVars) = sh.levels
  numActiveVars : fs.numActiveVars = sh.numActiveVars
  activeVars : fs.activeVars = sh.activeVars
  lines : fs.proto.lineInfo.length = fs.proto.code.length
  stack : 2 ≤ fs.proto.maxStackSize ∧ fs.proto.maxStackSize ≤ maxStack
  numParams : fs.proto.numParams = sh.numParams
  params : sh.entered = true → sh.numParams ≤ fs.proto.maxStackSize
  upvalues : fs.upvalues.length = fs.proto.numUpvalues ∧ fs.proto.numUpvalues ≤ luaiMaxUpvalues
  pool : fs.Pool
  localVars : ∀ i v, fs.proto.localVars[i]? = some v → Spans v (fs.pc + d) (i ∈ fs.activeVars)
  protos : ∀ p ∈ fs.proto.protos, p.WellFormed

/-- The functions of the compiler have these shapes, the innermost one first. -/
structure At [Words I] (d : ℕ) (sh : Shape) (outer : List Shape) (s : Compiler I) : Prop where
  fs : s.fs.Ok d sh
  enclosing : List.Forall₂ (FuncState.Ok 0) outer s.enclosing

def Abort.IsSyntax : Abort → Prop
  | .syntaxError .. => True
  | .panic | .loops | .refused => False

/-- The computation leaves the shapes as they are; where `c` holds, also if it fails with an error of the source. -/
def Keeps [Words I] {α : Type} (d : ℕ) (c : Prop) (x : Gen I α) : Prop :=
  ∀ sh outer, Ensures (At d sh outer) x (fun _ => At d sh outer) fun e s => c → e.IsSyntax → At d sh outer s

theorem syntaxError_spec {α : Type} {message : String} {P : Compiler I → Prop} :
    Ensures P (syntaxError message : Gen I α) (fun _ _ => False) fun _ => P :=
  .bind (M := fun _ => P) (.observe fun _ => id) fun _ => .bind (M := fun _ => P) (.observe fun _ => id) fun _ =>
    .throw fun _ => id

section

variable [Words I] {α β : Type} {d : ℕ} {c : Prop} {sh : Shape} {fs : FuncState I}

/-- The invariant does not speak of registers in use and of jumps. -/
theorem FuncState.Ok.frame (h : fs.Ok d sh) {freeReg : ℕ} {jpc lastTarget : Option ℕ} :
    FuncState.Ok d sh { fs with freeReg, jpc, lastTarget } :=
  { h with pool := { h.pool with } }

namespace Keeps

theorem pure (a : α) : Keeps d c (Pure.pure a : Gen I α) := fun _ _ => .pure a fun _ => id

theorem throw (e : Abort) : Keeps d c (MonadExcept.throw e : Gen I α) := fun _ _ => .throw fun _ h _ _ => h

theorem bind {x : Gen I β} {f : β → Gen I α} (hx : Keeps d c x) (hf : ∀ b, Keeps d c (f b)) : Keeps d c (x >>= f) :=
  fun sh outer => (hx sh outer).bind fun b => hf b sh outer

theorem observe (f : Compiler I → α) : Keeps d c (Lib.observe f) := fun _ _ => .observe fun _ => id

theorem ite {p : Prop} [Decidable p] {x y : Gen I α} (hx : Keeps d c x) (hy : Keeps d c y) : Keeps d c (if p then x else y) :=
  fun sh outer => .ite (fun _ => hx sh outer) fun _ => hy sh outer

theorem onlyIf {p : Prop} [Decidable p] {x : Gen I Unit} (hx : Keeps d c x) : Keeps d c (Codegen.onlyIf p x) :=
  .ite hx (.pure ())

/-- The error of an expression that does not fit is handled. -/
theorem recover {x : Gen I α} {handle : Abort → Gen I α} (hx : Keeps d True x) (hh : ∀ e, Keeps d c (handle e)) :
    Keeps d c (Codegen.recover x handle) := by
  intro sh outer s hs
  have h := hx sh outer s hs
  rw [Codegen.recover]
  split
  next heq => exact hh _ sh outer _ (h.2 _ _ heq trivial trivial)
  next hne =>
    refine ⟨h.1, fun e s' heq _ he => ?_⟩
    cases e with
    | syntaxError m src l => exact absurd heq (hne m src l s')
    | panic | loops | refused => exact he.elim

theorem modifyFs {f : FuncState I → FuncState I} (h : ∀ sh fs, fs.Ok d sh → (f fs).Ok d sh) :
    Keeps d c (Codegen.modifyFs f) := fun _ _ => .change fun _ hs => ⟨h _ _ hs.fs, hs.enclosing⟩

theorem getFs (f : FuncState I → α) : Keeps d c (Codegen.getFs f) := observe _

theorem setLine (line : ℕ) : Keeps (I := I) d c (Codegen.setLine line) := fun _ _ => .change fun _ hs => ⟨hs.fs, hs.enclosing⟩

theorem syntaxError (message : String) : Keeps d c (Codegen.syntaxError message : Gen I α) := fun _ _ =>
  syntaxError_spec.mono (fun _ => id) (fun _ _ => False.elim) fun _ _ h _ _ => h

theorem orPanic (a : Option α) : Keeps d c (Codegen.orPanic a : Gen I α) := by
  cases a with
  | none => exact throw _
  | some a => exact pure a

theorem slip (x : Slip) : Keeps (I := I) d c (Codegen.slip x) := (observe _).bind fun _ => ite (throw _) (pure _)

theorem repeatFor {exhausted : Abort} {f : β → Gen I (β ⊕ α)} (hf : ∀ b, Keeps d c (f b)) (n : ℕ) (b : β) :
    Keeps d c (Lib.repeatFor exhausted f n b) := fun sh outer =>
  .repeatFor (fun b => ((hf b) sh outer).post fun r s hs => by cases r <;> exact hs) (fun _ _ hs _ _ => hs) n b

theorem forM {f : β → Gen I Unit} (hf : ∀ b, Keeps d c (f b)) : ∀ l : List β, Keeps d c (l.forM f)
  | [] => pure _
  | b :: l => (hf b).bind fun _ => forM hf l

end Keeps

/-! ### Reading and changing instructions -/

theorem getInstruction_keeps {pc : ℕ} : Keeps (I := I) d c (getInstruction pc) := (Keeps.getFs _).bind fun _ => .orPanic _

theorem setInstruction_keeps {pc : ℕ} {instr : I} : Keeps d c (setInstruction pc instr) := by
  refine (Keeps.getFs _).bind fun _ => .ite (.modifyFs fun sh fs h => ?_) (.throw _)
  have hpc : (fs.proto.code.set pc instr).length = fs.proto.code.length := List.length_set ..
  exact { h with
    lines := h.lines.trans hpc.symm
    pool := { h.pool with }
    localVars := fun i v hv => by
      have hspan := h.localVars i v hv
      rwa [FuncState.pc, ← hpc] at hspan }

theorem isOp_keeps {instr : I} {ops : List OpCode} : Keeps d c (isOp instr ops) :=
  (Keeps.onlyIf (.slip _)).bind fun _ => .pure _

theorem patchJump_keeps {pc target : ℕ} : Keeps (I := I) d c (patchJump pc target) :=
  getInstruction_keeps.bind fun _ => (Keeps.slip _).bind fun _ => setInstruction_keeps

theorem getJumpTarget_keeps {pc : ℕ} : Keeps (I := I) d c (getJumpTarget pc) :=
  getInstruction_keeps.bind fun _ => .ite (.pure _) (.ite (.throw _) (.pure _))

theorem longestWalk_keeps : Keeps (I := I) d c longestWalk := (Keeps.getFs _).bind fun _ => .pure _

theorem concatJumps_keeps {l1 l2 : Option ℕ} : Keeps (I := I) d c (concatJumps l1 l2) := by
  unfold concatJumps
  split
  · exact .pure _
  · exact .pure _
  · refine longestWalk_keeps.bind fun n => .bind (.repeatFor (fun list => getJumpTarget_keeps.bind fun next => ?_) _ _)
      fun _ => .pure _
    cases next with
    | none => exact patchJump_keeps.bind fun _ => .pure _
    | some next => exact .pure _

theorem concatJumpsResult_keeps {l1 : ℕ} {l2 : Option ℕ} : Keeps (I := I) d c (concatJumpsResult l1 l2) :=
  concatJumps_keeps.bind fun _ => .pure _

theorem getJumpControl_keeps {pc : ℕ} : Keeps (I := I) d c (getJumpControl pc) :=
  .ite (getInstruction_keeps.bind fun _ => isOp_keeps.bind fun _ => .ite (.pure _) (.pure _)) (.pure _)

theorem needValue_keeps {list : Option ℕ} : Keeps (I := I) d c (needValue list) := by
  refine longestWalk_keeps.bind fun n => .repeatFor (fun list => ?_) n list
  cases list with
  | none => exact .pure _
  | some list => exact getJumpControl_keeps.bind fun _ => getInstruction_keeps.bind fun _ =>
      isOp_keeps.bind fun _ => .ite (getJumpTarget_keeps.bind fun _ => .pure _) (.pure _)

theorem patchTestReg_keeps {node reg : ℕ} : Keeps (I := I) d c (patchTestReg node reg) :=
  getJumpControl_keeps.bind fun _ => getInstruction_keeps.bind fun _ => isOp_keeps.bind fun _ =>
    .ite (setInstruction_keeps.bind fun _ => .pure _) (.pure _)

theorem removeValues_keeps {list : Option ℕ} : Keeps (I := I) d c (removeValues list) := by
  refine longestWalk_keeps.bind fun n => .repeatFor (fun list => ?_) n list
  cases list with
  | none => exact .pure _
  | some list => exact patchTestReg_keeps.bind fun _ => getJumpTarget_keeps.bind fun _ => .pure _

theorem patchListAux_keeps {list : Option ℕ} {vtarget reg dtarget : ℕ} :
    Keeps (I := I) d c (patchListAux list vtarget reg dtarget) := by
  refine longestWalk_keeps.bind fun n => .repeatFor (fun list => ?_) n list
  cases list with
  | none => exact .pure _
  | some list => exact getJumpTarget_keeps.bind fun _ => patchTestReg_keeps.bind fun _ =>
      patchJump_keeps.bind fun _ => .pure _

theorem getLabel_keeps : Keeps (I := I) d c getLabel :=
  (Keeps.getFs _).bind fun _ => .bind (.modifyFs fun _ _ h => h.frame) fun _ => .pure _

theorem patchToHere_keeps {list : Option ℕ} : Keeps (I := I) d c (patchToHere list) :=
  getLabel_keeps.bind fun _ => (Keeps.getFs _).bind fun _ => concatJumps_keeps.bind fun _ =>
    .modifyFs fun _ _ h => h.frame

theorem patchList_keeps {list : Option ℕ} {target : ℕ} : Keeps (I := I) d c (patchList list target) :=
  (Keeps.getFs _).bind fun _ => .ite patchToHere_keeps patchListAux_keeps

theorem dischargeJpc_keeps : Keeps (I := I) d c dischargeJpc := by
  refine (Keeps.getFs _).bind fun jpc => ?_
  cases jpc with
  | none => exact .pure _
  | some jpc =>
    refine (Keeps.getFs _).bind fun pc => patchListAux_keeps.bind fun _ => ?_
    exact .modifyFs fun _ _ h => h.frame

/-! ### Emission -/

/-- A word behind the others; where one has been taken back, it takes its place. -/
theorem emit_spec {instr : I} {line k : ℕ} {outer : List Shape} (hk : d ≤ k + 1) :
    Ensures (At d sh outer) (emit instr line) (fun _ s => At k sh outer s ∧ s.fs.proto.code.getLast? = some instr)
      fun e s => c → e.IsSyntax → At d sh outer s := by
  refine (dischargeJpc_keeps sh outer).bind fun _ => (Keeps.getFs _ sh outer).bind fun pc => .bind
    (M := fun _ s => At k sh outer s ∧ s.fs.proto.code.getLast? = some instr) (.change fun s hs => ?_)
    fun _ => .pure _ fun _ => id
  refine ⟨⟨?_, hs.enclosing⟩, List.getLast?_concat⟩
  exact { hs.fs with
    lines := by simp [hs.fs.lines]
    pool := { hs.fs.pool with }
    localVars := fun i v hv => (hs.fs.localVars i v hv).mono (by simp [FuncState.pc]; omega) id }

theorem emit_keeps {instr : I} {line : ℕ} : Keeps d c (emit instr line) := fun _ _ =>
  (emit_spec (Nat.le_succ d)).post fun _ _ h => h.1

theorem emitAbc_keeps {op : OpCode} {a b x line : ℕ} : Keeps (I := I) d c (emitAbc op a b x line) := emit_keeps

theorem emitAbx_keeps {op : OpCode} {a bx line : ℕ} : Keeps (I := I) d c (emitAbx op a bx line) := emit_keeps

theorem emitAsbx_keeps {op : OpCode} {a line : ℕ} {sbx : ℤ} : Keeps (I := I) d c (emitAsbx op a sbx line) := emit_keeps

theorem emitNil_keeps {fr n line : ℕ} : Keeps (I := I) d c (emitNil fr n line) := by
  have hemit : Keeps (I := I) d c (do let _ ← emitAbc .loadNil fr (fr + n - 1) 0 line) := emitAbc_keeps.bind fun _ => .pure _
  refine (Keeps.getFs _).bind fun _ => (Keeps.getFs _).bind fun _ => .ite (.ite (.pure _) ?_) hemit
  exact getInstruction_keeps.bind fun _ => isOp_keeps.bind fun _ => .ite (.onlyIf setInstruction_keeps) hemit

theorem emitJump_keeps {line : ℕ} : Keeps (I := I) d c (emitJump line) :=
  (Keeps.getFs _).bind fun _ => .bind (.modifyFs fun _ _ h => h.frame) fun _ =>
    emitAsbx_keeps.bind fun _ => concatJumpsResult_keeps

theorem codeLabel_keeps {reg b jump line : ℕ} : Keeps (I := I) d c (codeLabel reg b jump line) :=
  getLabel_keeps.bind fun _ => emitAbc_keeps

/-! ### Constants -/

/-- A constant is pushed, and it is noted where to find it. -/
theorem pushConstant_keeps {val : Val} {note : ℕ → FuncState I → FuncState I} {p : FuncState I → Prop} {outer : List Shape}
    (h : ∀ fs : FuncState I, p fs → fs.Ok d sh → fs.proto.constants.length ≤ maxArgBx →
      (note fs.proto.constants.length
        { fs with proto := { fs.proto with constants := fs.proto.constants ++ [val] } }).Ok d sh) :
    Ensures (fun s => At d sh outer s ∧ p s.fs) (do
        let idx ← pushConstant val
        modifyFs (note idx)
        pure idx) (fun _ => At d sh outer) fun e s => c → e.IsSyntax → At d sh outer s := by
  refine .bind (M := fun idx s => (note idx s.fs).Ok d sh ∧ List.Forall₂ (FuncState.Ok 0) outer s.enclosing) ?_ fun idx =>
    .bind (M := fun _ => At d sh outer) (.change fun s hs => ⟨hs.1, hs.2⟩) fun _ => .pure _ fun _ => id
  refine .bind (M := fun idx s => (At d sh outer s ∧ p s.fs) ∧ idx = s.fs.proto.constants.length)
    (.observe fun s hs => ⟨hs, rfl⟩) fun idx => .ite (fun _ => ?_) fun hlt => ?_
  · exact syntaxError_spec.mono (fun _ hs => hs.1.1) (fun _ _ => False.elim) fun _ _ h _ _ => h
  · refine .bind (M := fun _ s => (note idx s.fs).Ok d sh ∧ List.Forall₂ (FuncState.Ok 0) outer s.enclosing)
      (.change fun s hs => ?_) fun _ => .pure _ fun _ => id
    obtain ⟨⟨hs, hp⟩, rfl⟩ := hs
    exact ⟨h s.fs hp hs.fs (by omega), hs.enclosing⟩

theorem addConstant_keeps {val : Val} (hval : (constantKey val).isSome) : Keeps (I := I) d c (addConstant val) := by
  intro sh outer
  obtain ⟨key, hkey⟩ := Option.isSome_iff_exists.mp hval
  rw [addConstant, hkey]
  refine .bind (M := fun r s => At d sh outer s ∧ s.fs.constantIndex = r) (.observe fun s hs => ⟨hs, rfl⟩) fun r => ?_
  cases hr : r.lookup key with
  | some idx => exact .pure _ fun _ h => h.1
  | none =>
    refine (pushConstant_keeps (p := fun fs => fs.constantIndex.lookup key = none) fun fs hnew h hroom => ?_).pre
      fun s hs => ⟨hs.1, by rw [hs.2, hr]⟩
    exact { h with pool := h.pool.scalar hkey hnew hroom }

theorem numberConstant_keeps {n : F64} : Keeps (I := I) d c (numberConstant n) := addConstant_keeps rfl

theorem nilConstant_keeps : Keeps (I := I) d c nilConstant := by
  intro sh outer
  refine .bind (M := fun r s => At d sh outer s ∧ s.fs.nilK = r) (.observe fun s hs => ⟨hs, rfl⟩) fun r => ?_
  cases r with
  | some idx => exact .pure _ fun _ h => h.1
  | none =>
    refine pushConstant_keeps (p := fun fs => fs.nilK = none) fun fs hnil h hroom => ?_
    refine { h with pool := ?_ }
    exact h.pool.null hroom (fun e he => .inl he) h.pool.stringsOnce (fun _ => id) (by simp [hnil]) (.inr rfl)

theorem stringConstant_keeps {str : List UInt8} : Keeps (I := I) d c (stringConstant str) := by
  intro sh outer
  refine .bind (M := fun r s => At d sh outer s ∧ s.fs.proto.stringPool = r) (.observe fun s hs => ⟨hs, rfl⟩) fun r => ?_
  cases hr : findString r str with
  | some entry => exact .pure _ fun _ h => h.1
  | none =>
    refine (pushConstant_keeps (p := fun fs => findString fs.proto.stringPool str = none) fun fs hnew h hroom => ?_).pre
      fun s hs => ⟨hs.1, by rw [hs.2, hr]⟩
    have hidx : (BitVec.ofNat 32 fs.proto.constants.length).toNat = fs.proto.constants.length :=
      by
      rw [BitVec.toNat_ofNat, Nat.mod_eq_of_lt (hroom.trans_lt (by decide))]
    refine { h with pool := ?_ }
    refine h.pool.null hroom (fun e he => ?_) (List.pairwise_append.mpr ⟨h.pool.stringsOnce, List.pairwise_singleton ..,
      fun e he e' he' => ?_⟩) (fun _ => List.mem_append_left _) (fun _ => id)
      (.inl ⟨_, List.mem_append_right _ (List.mem_singleton.mpr rfl), hidx⟩)
    · exact (List.mem_append.mp he).imp_right fun he => by
        rw [List.mem_singleton.mp he]
        exact ⟨hidx, rfl⟩
    · rw [List.mem_singleton.mp he']
      refine ⟨fun heq => ?_, findString_none hnew (fun e he => (h.pool.strings e he).2) e he⟩
      have hslot := (h.pool.strings e he).1
      rw [heq, hidx, List.getElem?_eq_none le_rfl] at hslot
      cases hslot

/-! ### Registers -/

theorem checkStack_keeps {n : ℕ} : Keeps (I := I) d c (checkStack n) := by
  refine (Keeps.getFs _).bind fun m => ?_
  intro sh outer
  refine .ite (fun _ => Keeps.syntaxError _ sh outer) fun hroom => .change fun s hs => ⟨?_, hs.enclosing⟩
  exact { hs.fs with
    stack := ⟨hs.fs.stack.1.trans (le_max_left ..), max_le hs.fs.stack.2 (Nat.le_of_not_lt hroom)⟩
    params := fun he => (hs.fs.params he).trans (le_max_left ..)
    pool := { hs.fs.pool with } }

theorem allocReg_keeps : Keeps (I := I) d c allocReg :=
  checkStack_keeps.bind fun _ => (Keeps.getFs _).bind fun _ =>
    .bind (.modifyFs fun _ _ h => h.frame) fun _ => .pure _

theorem reserveRegs_keeps {n : ℕ} : Keeps (I := I) d c (reserveRegs n) :=
  checkStack_keeps.bind fun _ => .modifyFs fun _ _ h => h.frame

theorem freeReg_keeps {reg : ℕ} : Keeps (I := I) d c (freeReg reg) := by
  refine .modifyFs fun _ _ h => ?_
  split
  · exact h.frame
  · exact h

end

end Rilua.Codegen
