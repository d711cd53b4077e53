import Rilua.Compiler.FuncState

/-! Names and scopes in the code generator (`compiler/codegen.rs`): local variables, upvalues and blocks. -/

namespace Rilua.Codegen

open Lib Vm Rilua.Compiler

variable {I : Type}

namespace FuncState

/-- Searches the active local variables below `n` by name, the newest first. -/
def searchLocalBelow (fs : FuncState I) (name : String) : ℕ → Option (Option ℕ)
  | 0 => some none
  | i + 1 => do
    let idx ← fs.activeVars[i]?
    let var ← fs.proto.localVars[idx]?
    if var.name = name then some (some i) else fs.searchLocalBelow name i

/-- The register of the active local variable of that name. -/
def searchLocal (fs : FuncState I) (name : String) : Option (Option ℕ) := fs.searchLocalBelow name fs.numActiveVars

/-- The first upvalue of that name. -/
def searchUpvalue (fs : FuncState I) (name : String) : Option ℕ := fs.upvalues.findIdx? (·.name = name)

/-- Marks the block that declares the local variable at `level`: one of its variables is captured. -/
def markUpval (fs : FuncState I) (level : ℕ) : FuncState I :=
  { fs with blocks := fs.blocks.modify (fs.blocks.findIdx (·.numActiveVars ≤ level)) ({ · with hasUpval := true }) }

/-- Registers an upvalue, unless it is there. Fails where there are too many. -/
def addUpvalue (fs : FuncState I) (name : String) (inStack : Bool) (index : ℕ) : Option (ℕ × FuncState I) :=
  match fs.upvalues.findIdx? fun uv => uv.inStack = inStack ∧ uv.index = index with
  | some i => some (i, fs)
  | none =>
    if luaiMaxUpvalues ≤ fs.upvalues.length then none
    else
      let upvalues := fs.upvalues ++ [⟨inStack, index, name⟩]
      some (fs.upvalues.length, { fs with upvalues, proto := { fs.proto with numUpvalues := upvalues.length } })

end FuncState

/-- Looks a name up in the functions around `fs` and makes it an upvalue of `fs`. -/
def resolveVarAux (tooMany : Abort) (name : String) (fs : FuncState I) :
    List (FuncState I) → Except Abort (Option ℕ × FuncState I × List (FuncState I))
  | [] => .ok (none, fs, [])
  | parent :: outer =>
    let capture (inStack : Bool) (index : ℕ) (parent : FuncState I) (outer : List (FuncState I)) :=
      match fs.addUpvalue name inStack index with
      | some (idx, fs) => Except.ok (some idx, fs, parent :: outer)
      | none => .error tooMany
    match parent.searchLocal name with
    | none => .error .panic
    | some (some i) => capture true i (parent.markUpval i) outer
    | some none =>
      match parent.searchUpvalue name with
      | some i => capture false i parent outer
      | none => do
        match ← resolveVarAux tooMany name parent outer with
        | (some idx, parent, outer) => capture false idx parent outer
        | (none, parent, outer) => .ok (none, fs, parent :: outer)

section

variable [Words I]

/-- Resolves a variable name: local, upvalue or global. -/
def resolveVar (name : String) : Gen I ExprContext := do
  match ← orPanic (← getFs (·.searchLocal name)) with
  | some reg => pure (.new .local reg)
  | none =>
    match ← getFs (·.searchUpvalue name) with
    | some idx => pure (.new .upval idx)
    | none => do
      let tooMany := Abort.syntaxError "too many upvalues" (← sourceName) (← currentLine)
      match ← observe fun s => resolveVarAux tooMany name s.fs s.enclosing with
      | .error e => throw e
      | .ok (idx, fs, enclosing) => do
        change fun s => { s with fs, enclosing }
        match idx with
        | some idx => pure (.new .upval idx)
        | none => pure (.new .global (← stringConstant name.toUTF8.toList))

/-! ### Local variables -/

/-- The error for a function with too many local variables. -/
def localVariableLimitMessage (lineDefined : ℕ) : String :=
  if lineDefined = 0 then s!"main function has more than {luaiMaxActiveVars} local variables"
  else s!"function at line {lineDefined} has more than {luaiMaxActiveVars} local variables"

/-- Registers a local variable, which is not visible yet. -/
def newLocal (name : String) : Gen I Unit := do
  let lineDefined ← getFs (·.proto.lineDefined)
  if luaiMaxActiveVars ≤ (← getFs (·.activeVars.length)) then
    syntaxError (localVariableLimitMessage lineDefined)
  else do
    let idx ← getFs (·.proto.localVars.length)
    slip (.localIndex idx)
    modifyFs fun fs => { fs with
      proto := { fs.proto with localVars := fs.proto.localVars ++ [⟨name, 0, 0⟩] }
      activeVars := fs.activeVars ++ [Words.narrow I idx] }

end

/-- The debug information of the variables with the given indices starts at `pc`. -/
def startVars (pc : ℕ) (localVars : List LocalVar) (idxs : List ℕ) : List LocalVar :=
  idxs.foldl (fun vars idx => vars.modify idx ({ · with startPc := BitVec.ofNat 32 pc })) localVars

/-- Makes the `n` newest local variables visible. -/
def activateLocals (n : ℕ) : Gen I Unit := do
  if (← getFs (·.activeVars.length)) < n then throw .panic
  else modifyFs fun fs => { fs with
    proto := { fs.proto with
      localVars := startVars fs.pc fs.proto.localVars (fs.activeVars.drop (fs.activeVars.length - n)) }
    numActiveVars := fs.numActiveVars + n }

namespace FuncState

/-- Takes the newest local variable out of scope. -/
def removeLocal (fs : FuncState I) : FuncState I :=
  { fs with
    numActiveVars := fs.numActiveVars - 1
    activeVars := fs.activeVars.dropLast
    proto := match fs.activeVars.getLast? with
      | some idx => { fs.proto with
          localVars := fs.proto.localVars.modify idx ({ · with endPc := BitVec.ofNat 32 fs.pc }) }
      | none => fs.proto }

/-- Takes the local variables from `toLevel` on out of scope. -/
def removeLocals (fs : FuncState I) (toLevel : ℕ) : FuncState I :=
  removeLocal^[fs.numActiveVars - toLevel] fs

end FuncState

def removeLocals (toLevel : ℕ) : Gen I Unit := modifyFs (·.removeLocals toLevel)

/-! ### Blocks -/

def enterBlock (isBreakable : Bool) : Gen I Unit :=
  modifyFs fun fs => { fs with blocks := { numActiveVars := fs.numActiveVars, isBreakable } :: fs.blocks }

section

variable [Words I]

/-- Leaves the innermost block: its variables go out of scope, its upvalues are closed, and its breaks arrive. -/
def leaveBlock : Gen I Unit := do
  match ← getFs (·.blocks) with
  | [] => pure ()
  | block :: blocks => do
    modifyFs fun fs => { fs with blocks }
    removeLocals block.numActiveVars
    modifyFs fun fs => { fs with freeReg := fs.numActiveVars }
    onlyIf block.hasUpval do
      let _ ← emitAbc .close block.numActiveVars 0 0 (← currentLine)
    onlyIf block.isBreakable do
      patchList block.breakList (← getFs (·.pc))

/-- The walk of `add_break_jump` to the end of a list, which `jump` is appended to. -/
def appendBreak (list jump : ℕ) : Gen I Unit := do
  repeatFor Abort.loops (fun list => do
    let instr ← getInstruction list
    let offset := Words.sbx instr
    if offset = -1 then
      slip (.offset (jump - list - 1))
      setInstruction list (Words.setSbx instr (jump - list - 1))
      pure (.inr ())
    else
      let next : ℤ := list + 1 + offset
      if next < 0 then throw .panic else pure (.inl next.toNat)) (← longestWalk) list

/-- Records a jump out of the innermost breakable block. -/
def addBreakJump (jump : ℕ) : Gen I Unit := do
  let blocks ← getFs (·.blocks)
  let i := blocks.findIdx (·.isBreakable)
  match blocks[i]? with
  | none => syntaxError "no loop to break"
  | some block =>
    match block.breakList with
    | none => modifyFs fun fs => { fs with blocks := fs.blocks.modify i ({ · with breakList := some jump }) }
    | some list => appendBreak list jump

end

end Rilua.Codegen
