import Rilua.Stdlib.StackLevels
import Rilua.Vm.DebugInfo

/-! Tracebacks (`stdlib/debug.rs`). A traceback is a list of lines, one for each level from the start level on, where
    a middle part may be left out. There are two ways to make one: a stack without tail calls is counted, any other
    is probed level by level. What `getobjname` finds for a register is a parameter; it need not return. -/

namespace Rilua.Debug

open Vm

/-- `getobjname` for a prototype, an instruction and a register. -/
abbrev Resolver := Proto → ℕ → ℕ → Option (Option ObjName)

/-- Levels shown before and after the part that is left out. -/
def levels1 : ℕ := 12
def levels2 : ℕ := 10

/-- The line in place of the part that is left out. -/
def dots : String := "..."

namespace TracebackContext

/-- The closure in a stack slot. -/
def closureAt (t : TracebackContext) (func : ℕ) : Option FrameClosure :=
  match t.stack[func]? with
  | some (.function r) => t.closures r
  | _ => none

/-- `getfuncname_raw`: the name of the function that frame `ciIdx` runs, taken from the instruction that called it. -/
def getfuncnameRaw (objName : Resolver) (t : TracebackContext) (ciIdx : ℕ) : Option (Option ObjName) :=
  if ciIdx = 0 then some none
  else do
    let ci ← t.callStack[ciIdx]?
    if 0 < ci.tailCalls then
      some none
    else do
      let caller ← t.callStack[ciIdx - 1]?
      match t.closureAt caller.func with
      | some (.lua proto _) =>
        if caller.savedPc = 0 then some none
        else
          match proto.code[caller.savedPc - 1]? with
          | none => some none
          | some raw =>
            let callInstr : Instruction := ⟨raw⟩
            if callInstr.opcode ∈ [OpCode.call, .tailCall, .tForLoop] then
              objName proto (caller.savedPc - 1) callInstr.a.toNat
            else some none
      | _ => some none

/-- `current_line_raw` for a frame that runs `proto`. -/
def currentLineRaw (ci : Frame) (proto : Proto) : ℤ :=
  if 0 < ci.savedPc ∧ ci.savedPc ≤ proto.lineInfo.length then
    (proto.lineInfo[ci.savedPc - 1]?.getD 0).toInt
  else
    match proto.lineInfo with
    | line :: _ => line.toInt
    | [] => -1

/-- What follows the position in the line of a Lua function. -/
def luaFunctionText (proto : Proto) (shortSource : String) : Option ObjName → String
  | some (_, name) => " in function '" ++ name ++ "'"
  | none =>
    if proto.lineDefined = 0 then " in main chunk"
    else " in function <" ++ shortSource ++ ":" ++ toString proto.lineDefined.toNat ++ ">"

/-- What follows the position in the line of a native function. -/
def rustFunctionText (ownName : String) : Option ObjName → String
  | some (_, name) => " in function '" ++ name ++ "'"
  | none => if ownName = "" then " ?" else " in function '" ++ ownName ++ "'"

/-- The line of frame `ciIdx`. -/
def formatFrameLine (objName : Resolver) (t : TracebackContext) (ciIdx : ℕ) : Option String := do
  let ci ← t.callStack[ciIdx]?
  let funcName ← t.getfuncnameRaw objName ciIdx
  match t.closureAt ci.func with
  | some (.lua proto shortSource) =>
    let line := currentLineRaw ci proto
    let lineText := if 0 < line then toString line ++ ":" else ""
    some (shortSource ++ ":" ++ lineText ++ luaFunctionText proto shortSource funcName)
  | some (.rust name _) => some ("[C]:" ++ rustFunctionText name funcName)
  | none => some "[C]: ?"

def hasNoTailCalls (t : TracebackContext) : Bool :=
  if t.ci < t.callStack.length then (t.callStack.take (t.ci + 1)).all fun frame => frame.tailCalls = 0 else true

def countFramesWithoutTailCalls (t : TracebackContext) : ℕ :=
  t.ci + t.hasMainThreadSentinel.toNat

def appendTracebackFrameRange (objName : Resolver) (t : TracebackContext) (start len : ℕ) : Option (List String) :=
  (List.range' start len).mapM fun offset => t.formatFrameLine objName (t.ci - offset)

/-- The fast path. -/
def appendTracebackWithoutTailCalls (objName : Resolver) (t : TracebackContext) (startLevel : ℕ) :
    Option (List String) :=
  let totalFrames := t.countFramesWithoutTailCalls
  if totalFrames ≤ startLevel then some []
  else
    let remainingFrames := totalFrames - startLevel
    let firstFrames := if levels1 + levels2 < remainingFrames then levels1 else remainingFrames
    let skippedFrames := remainingFrames - (firstFrames + levels2)
    do
      let first ← t.appendTracebackFrameRange objName startLevel firstFrames
      if skippedFrames = 0 then
        some first
      else do
        let last ← t.appendTracebackFrameRange objName (totalFrames - levels2) levels2
        some (first ++ dots :: last)

/-- An addition of levels, which are `usize`. -/
def addLevel (n k : ℕ) : Option ℕ := if n + k < 2 ^ 64 then some (n + k) else none

/-- The first number from `probe` on that is no level. -/
def probeEnd (t : TracebackContext) (probe : ℕ) : Option ℕ :=
  match t.resolveStackLevelRaw probe with
  | none => none
  | some none => some probe
  | some (some _) => if probe + 1 < 2 ^ 64 then t.probeEnd (probe + 1) else none
termination_by 2 ^ 64 - probe

/-- Where the listing goes on when `level` is the first one to be left out. -/
def skipTo (t : TracebackContext) (level : ℕ) (firstPart : Bool) : Option (Option ℕ) :=
  if levels1 < level ∧ firstPart then do
    let probe ← addLevel level levels2
    match ← t.resolveStackLevelRaw probe with
    | none => some none
    | some _ => do
      let stop ← t.probeEnd probe
      some (some (stop - levels2))
  else some none

/-- The line of a level. -/
def levelLine (objName : Resolver) (t : TracebackContext) : StackLevel → Option String
  | .tailCall => some "(tail call): ?"
  | .real ciIdx => t.formatFrameLine objName ciIdx

/-- One turn of the loop at a level: the line it adds, and where the loop goes on. -/
def levelTurn (objName : Resolver) (t : TracebackContext) (level : ℕ) (firstPart : Bool) (stackLevel : StackLevel) :
    Option (String × ℕ × Bool) := do
  match ← t.skipTo level firstPart with
  | some next => some (dots, next, false)
  | none => do
    let line ← t.levelLine objName stackLevel
    let next ← addLevel level 1
    some (line, next, firstPart && decide (level ≤ levels1))

theorem skipTo_false (t : TracebackContext) (level : ℕ) : t.skipTo level false = some none := by
  simp [skipTo]

/-- The loop comes closer to its end: it leaves the first part, or goes on to a higher level. -/
theorem levelTurn_decreases {objName : Resolver} {t : TracebackContext} {level : ℕ} {firstPart : Bool}
    {stackLevel : StackLevel} {line : String} {next : ℕ} {firstPart' : Bool}
    (h : t.levelTurn objName level firstPart stackLevel = some (line, next, firstPart')) :
    Prod.Lex (· < ·) (· < ·) (firstPart'.toNat, 2 ^ 64 - next) (firstPart.toNat, 2 ^ 64 - level) := by
  rw [levelTurn, Option.bind_eq_bind, Option.bind_eq_some_iff] at h
  obtain ⟨skip, hskip, h⟩ := h
  cases skip with
  | some stop =>
    obtain ⟨-, -, rfl⟩ : dots = line ∧ stop = next ∧ false = firstPart' := by simpa using h
    cases firstPart with
    | false => simp [skipTo_false] at hskip
    | true => exact .left _ _ (by decide)
  | none =>
    simp only [Option.bind_eq_bind, Option.bind_eq_some_iff, Option.some.injEq, Prod.mk.injEq, addLevel,
      Option.ite_none_right_eq_some] at h
    obtain ⟨_, _, _, ⟨hlt, rfl⟩, -, rfl, rfl⟩ := h
    cases firstPart with
    | false => exact .right _ (by omega)
    | true =>
      rcases lt_or_ge levels1 level with hlevel | hlevel
      · exact .left _ _ (by simp [hlevel])
      · rw [decide_eq_true hlevel]
        exact .right _ (by omega)

/-- The loop of the general path. -/
def levelLoop (objName : Resolver) (t : TracebackContext) (level : ℕ) (firstPart : Bool) : Option (List String) :=
  match t.resolveStackLevelRaw level with
  | none => none
  | some none => some []
  | some (some stackLevel) =>
    match _h : t.levelTurn objName level firstPart stackLevel with
    | none => none
    | some (line, next, firstPart') => (t.levelLoop objName next firstPart').map (line :: ·)
termination_by (firstPart.toNat, 2 ^ 64 - level)
decreasing_by exact levelTurn_decreases _h

theorem levelLoop_end {objName : Resolver} {t : TracebackContext} {level : ℕ}
    (h : t.resolveStackLevelRaw level = some none)
    (firstPart : Bool) : t.levelLoop objName level firstPart = some [] := by
  rw [levelLoop, h]

theorem levelLoop_level {objName : Resolver} {t : TracebackContext} {level : ℕ} {stackLevel : StackLevel}
    (h : t.resolveStackLevelRaw level = some (some stackLevel)) (firstPart : Bool) :
    t.levelLoop objName level firstPart = (t.levelTurn objName level firstPart stackLevel).bind fun turn =>
      (t.levelLoop objName turn.2.1 turn.2.2).map (turn.1 :: ·) := by
  rw [levelLoop, h]
  simp only
  split <;> simp [*]

/-- The general path. -/
def appendTracebackWithTailCalls (objName : Resolver) (t : TracebackContext) (startLevel : ℕ) :
    Option (List String) :=
  t.levelLoop objName startLevel true

/-- `generate_traceback_raw`. -/
def generateTracebackRaw (objName : Resolver) (t : TracebackContext) (msg : String) (startLevel : ℕ) :
    Option String := do
  let lines ← if t.hasNoTailCalls then t.appendTracebackWithoutTailCalls objName startLevel
    else t.appendTracebackWithTailCalls objName startLevel
  let header := (if msg = "" then "" else msg ++ "\n") ++ "stack traceback:"
  some (lines.foldl (fun result line => result ++ "\n\t" ++ line) header)

end TracebackContext
end Rilua.Debug
