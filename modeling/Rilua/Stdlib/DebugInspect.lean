import Rilua.Stdlib.Traceback
import Rilua.Lib.Binary64

/-! `debug.getinfo`, `debug.getlocal` and `debug.traceback` (`stdlib/debug.rs`). A thread argument selects the object of
    a coroutine. The stacks of the running coroutine, and of those that have resumed another one, have been moved out
    of their objects, where only the number of the current frame is left. There is no result where the code would be
    indexed outside, where the arithmetic would overflow, or where the search for a name does not end. -/

namespace Rilua.Debug

open Lib Vm Gc

/-- What inspection reads of a thread. -/
structure ThreadStacks where
  stack : List Val
  callStack : List Frame
  ci : ℕ
  top : ℕ

/-- What inspection reads of the state: the running thread, those that wait for it with their stacks, and the objects
    of all coroutines. How text is parsed as a number, and a number displayed, is left open. -/
structure InspectState where
  closures : GcRef .closure → Option FrameClosure
  strings : GcRef .string → Option (List UInt8)
  currentThread : Option (GcRef .thread)
  running : ThreadStacks
  resumers : List (Option (GcRef .thread) × ThreadStacks)
  threads : GcRef .thread → ThreadStacks
  parseNumber : String → Option F64
  displayNumber : F64 → String

/-- `n as usize`. -/
def levelOf : F64 → ℕ
  | .nan _ => 0
  | .infinite neg => if neg then 0 else usizeMax
  | .finite true _ => 0
  | .finite false m => min usizeMax (m.1 / magOne)

def argOf (args : List Val) (n : ℕ) : Val := args[n]?.getD .nil

def badArgument (name : String) (n : ℕ) (msg : String) : String :=
  "bad argument #" ++ toString n ++ " to '" ++ name ++ "' (" ++ msg ++ ")"

namespace InspectState

/-- The raw fields that inspection of a thread goes through. -/
def context (s : InspectState) (ts : ThreadStacks) : TracebackContext := ⟨ts.stack, ts.callStack, ts.ci, s.closures⟩

/-- The thread in front of the arguments. -/
def threadArg : List Val → Option (GcRef .thread)
  | .thread t :: _ => some t
  | _ => none

/-- `get_thread_offset`. -/
def threadOffset (args : List Val) : ℕ := if (threadArg args).isSome then 1 else 0

/-- The stacks that the functions read for a thread argument. -/
def viewed (s : InspectState) : Option (GcRef .thread) → ThreadStacks
  | none => s.running
  | some t => s.threads t

def checkNumber (s : InspectState) (name : String) (args : List Val) (n : ℕ) : Except String F64 :=
  match argOf args n with
  | .num x => .ok x
  | .str r =>
    match (s.strings r).bind fun bytes => s.parseNumber (fromUtf8Lossy bytes) with
    | some x => .ok x
    | none => .error (badArgument name (n + 1) "number expected")
  | _ => .error (badArgument name (n + 1) "number expected")

end InspectState

/-! ### `debug.getlocal` -/

/-- The name of local variable `n` among those that are active at an instruction. Counting down from 0 fails. -/
def localNameAt (pc : ℕ) : List LocalVar → ℕ → Option (Option String)
  | [], _ => some none
  | lv :: lvs, n =>
    if lv.startPc.toNat ≤ pc ∧ pc < lv.endPc.toNat then
      match n with
      | 0 => none
      | 1 => some (some lv.name)
      | n + 2 => localNameAt pc lvs (n + 1)
    else localNameAt pc lvs n

/-- A local variable, or a temporary value under a name that no variable has. -/
inductive LocalResult where
  | nil
  | found (name : String) (value : Val)
  deriving DecidableEq

namespace TracebackContext

/-- `get_local_name_raw`. -/
def getLocalNameRaw (t : TracebackContext) (ciIdx localNumber : ℕ) : Option (Option String) := do
  let ci ← t.callStack[ciIdx]?
  match t.closureAt ci.func with
  | some (.lua proto _) => localNameAt (ci.savedPc - 1) proto.localVars localNumber
  | _ => some none

/-- `ci_base + local_idx - 1`. -/
def localSlot (base localIdx : ℕ) : Option ℕ :=
  if base + localIdx < 2 ^ 64 ∧ 0 < base + localIdx then some (base + localIdx - 1) else none

/-- The end of the values of a frame. -/
def localLimit (t : TracebackContext) (top targetCi : ℕ) : ℕ :=
  if targetCi = t.ci then top
  else
    match t.callStack[targetCi + 1]? with
    | some next => next.func
    | none => top

/-- The local variable `localIdx` of frame `targetCi`. -/
def localAt (t : TracebackContext) (top targetCi localIdx : ℕ) : Option LocalResult := do
  let name ← t.getLocalNameRaw targetCi localIdx
  let ci ← t.callStack[targetCi]?
  let stackIdx ← localSlot ci.base localIdx
  let value := t.stack[stackIdx]?.getD .nil
  match name with
  | some name => some (.found name value)
  | none =>
    if 0 < localIdx ∧ stackIdx < t.localLimit top targetCi then some (.found "(*temporary)" value)
    else some .nil

end TracebackContext

namespace InspectState

/-- `debug.getlocal` once its arguments are numbers. -/
def getlocalAt (s : InspectState) (thread : Option (GcRef .thread)) (level localIdx : ℕ) : Option LocalResult := do
  let view := s.viewed thread
  match ← (s.context view).resolveStackLevelRaw level with
  | some (.real targetCi) => (s.context view).localAt view.top targetCi localIdx
  | _ => some .nil

/-- `debug.getlocal`. -/
def dbGetlocal (s : InspectState) (args : List Val) : Option (Except String LocalResult) :=
  let argOffset := threadOffset args
  match s.checkNumber "getlocal" args argOffset with
  | .error msg => some (.error msg)
  | .ok level =>
    match s.checkNumber "getlocal" args (argOffset + 1) with
    | .error msg => some (.error msg)
    | .ok localIdx => (s.getlocalAt (threadArg args) (levelOf level) (levelOf localIdx)).map .ok

end InspectState

/-! ### `debug.getinfo` -/

inductive DebugInfoField where
  | source | shortSrc | lineDefined | lastLineDefined | what | currentLine | nups | name | nameWhat | func
  | activeLines
  deriving DecidableEq

inductive InfoValue where
  | str (s : String)
  | int (n : ℤ)
  | val (v : Val)
  | lines (lines : List ℕ)

abbrev InfoTable := List (DebugInfoField × InfoValue)

/-- What `getinfo` takes from a closure. -/
structure ClosureInfo where
  isLua : Bool
  source : String
  shortSrc : String
  lineDefined : ℤ
  lastLineDefined : ℤ
  what : String
  nups : ℕ
  name : String
  lineInfo : List ℕ

def extractClosureInfo : FrameClosure → ClosureInfo
  | .lua proto shortSource =>
    { isLua := true
      source := proto.source
      shortSrc := shortSource
      lineDefined := proto.lineDefined.toNat
      lastLineDefined := proto.lastLineDefined.toNat
      what := if proto.lineDefined = 0 then "main" else "Lua"
      nups := proto.numUpvalues.toNat
      name := ""
      lineInfo := proto.lineInfo.map BitVec.toNat }
  | .rust name upvalueCount =>
    { isLua := false
      source := "=[C]"
      shortSrc := "[C]"
      lineDefined := -1
      lastLineDefined := -1
      what := "C"
      nups := upvalueCount
      name := name
      lineInfo := [] }

/-- What is set if the options ask for it. -/
def ifOption (options : String) (option : Char) (fields : InfoTable) : InfoTable :=
  if option ∈ options.toList then fields else []

/-- The placeholders for an elided call. -/
def fillTailCallInfo (options : String) : InfoTable :=
  ifOption options 'S' [(.source, .str "=(tail call)"), (.shortSrc, .str "(tail call)"), (.lineDefined, .int (-1)),
    (.lastLineDefined, .int (-1)), (.what, .str "tail")] ++
  ifOption options 'l' [(.currentLine, .int (-1))] ++
  ifOption options 'u' [(.nups, .int 0)] ++
  ifOption options 'n' [(.name, .str ""), (.nameWhat, .str "")] ++
  ifOption options 'f' [(.func, .val .nil)]

/-- The name of a function and what kind of name it is. In a frame, it is taken from the call. -/
def functionName (objName : Resolver) (names : TracebackContext) (info : ClosureInfo) :
    Option ℕ → Option (String × String)
  | some ci =>
    if 0 < ci then do
      match ← names.getfuncnameRaw objName ci with
      | some (kind, name) => some (name, kind)
      | none => some (info.name, "")
    else some (info.name, "")
  | none => some (info.name, if info.name = "" then "" else "global")

/-- The two fields of a name. -/
def nameFields : String × String → InfoTable
  | (name, nameWhat) => [(.name, if name = "" then .val .nil else .str name), (.nameWhat, .str nameWhat)]

/-- The fields for a closure, with a current line and a name. -/
def infoFields (options : String) (line : ℤ) (r : GcRef .closure) (info : ClosureInfo) (name : String × String) :
    InfoTable :=
  ifOption options 'S' [(.source, .str info.source), (.shortSrc, .str info.shortSrc),
    (.lineDefined, .int info.lineDefined), (.lastLineDefined, .int info.lastLineDefined), (.what, .str info.what)] ++
  ifOption options 'l' [(.currentLine, .int line)] ++
  ifOption options 'u' [(.nups, .int info.nups)] ++
  ifOption options 'n' (nameFields name) ++
  ifOption options 'f' [(.func, .val (.function r))] ++
  ifOption options 'L' (if info.isLua then [(.activeLines, .lines info.lineInfo)] else [])

/-- The table for a closure, which frame `ciIdx` runs if there is one, with the current line of this frame. -/
def infoTable (objName : Resolver) (names : TracebackContext) (options : String) (ciIdx : Option ℕ) (line : ℤ)
    (r : GcRef .closure) (info : ClosureInfo) : Option InfoTable :=
  if 'n' ∈ options.toList then
    (functionName objName names info ciIdx).map (infoFields options line r info)
  else some (infoFields options line r info ("", ""))

/-- The closure of a frame. -/
def TracebackContext.frameClosure (t : TracebackContext) (ci : Frame) : Option (GcRef .closure) :=
  match t.stack[ci.func]? with
  | some (.function r) => some r
  | _ => none

/-- The current line of a frame. -/
def TracebackContext.frameLine (t : TracebackContext) (ci : Frame) : ℤ :=
  match t.closureAt ci.func with
  | some (.lua proto _) => TracebackContext.currentLineRaw ci proto
  | _ => -1

/-- The table for frame `target`. The names of functions are looked up in the frames of `names`. -/
def frameInfo (objName : Resolver) (t names : TracebackContext) (options : String) (target : ℕ) : Option InfoTable := do
  let ci ← t.callStack[target]?
  match t.frameClosure ci with
  | none => some []
  | some r =>
    match t.closures r with
    | none => some []
    | some cl => infoTable objName names options (some target) (t.frameLine ci) r (extractClosureInfo cl)

inductive InfoResult where
  | nil
  | table (fields : InfoTable)

/-- The options of `getinfo`. -/
def InspectState.infoOptions (s : InspectState) (args : List Val) (n : ℕ) : String :=
  match args[n]? with
  | some (.str r) => ((s.strings r).map fromUtf8Lossy).getD "flnSu"
  | _ => "flnSu"

/-- `debug.getinfo` for a level. The names of functions come from the running thread. -/
def InspectState.getinfoAt (objName : Resolver) (s : InspectState) (thread : Option (GcRef .thread)) (level : ℕ)
    (options : String) : Option InfoResult := do
  let view := s.context (s.viewed thread)
  match ← view.resolveStackLevelRaw level with
  | none => some .nil
  | some .tailCall => some (.table (fillTailCallInfo options))
  | some (.real target) => (frameInfo objName view (s.context s.running) options target).map .table

/-- `debug.getinfo` for a function. -/
def InspectState.getinfoOf (objName : Resolver) (s : InspectState) (r : GcRef .closure) (options : String) :
    Option InfoResult :=
  match s.closures r with
  | none => some (.table [])
  | some cl => (infoTable objName (s.context s.running) options none (-1) r (extractClosureInfo cl)).map .table

/-- `debug.getinfo`. -/
def InspectState.dbGetinfo (objName : Resolver) (s : InspectState) (args : List Val) :
    Option (Except String InfoResult) :=
  let argOffset := threadOffset args
  let options := s.infoOptions args (argOffset + 1)
  match argOf args argOffset with
  | .num level => (s.getinfoAt objName (threadArg args) (levelOf level) options).map .ok
  | .function r => (s.getinfoOf objName r options).map .ok
  | _ => some (.error (badArgument "getinfo" (argOffset + 1) "function or level expected"))

/-! ### `debug.traceback` -/

inductive TracebackResult where
  | text (s : String)
  | value (v : Val)

/-- The start level of a traceback. -/
def startLevelOf (args : List Val) (argOffset : ℕ) : ℕ :=
  if argOffset + 1 < args.length then
    match argOf args (argOffset + 1) with
    | .num n => levelOf n
    | _ => 1
  else if argOffset = 0 then 1
  else 0

/-- The message of a traceback; anything but a string or a number is returned as it is. -/
def InspectState.messageOf (s : InspectState) (args : List Val) (argOffset : ℕ) : String ⊕ Val :=
  if args.length ≤ argOffset then .inl ""
  else
    match argOf args argOffset with
    | .str r => .inl (((s.strings r).map fromUtf8Lossy).getD "")
    | .num n => .inl (s.displayNumber n)
    | other => .inr other

/-- `debug.traceback`. -/
def InspectState.dbTraceback (objName : Resolver) (s : InspectState) (args : List Val) :
    Option (Except String TracebackResult) :=
  let argOffset := threadOffset args
  match s.messageOf args argOffset with
  | .inr other => some (.ok (.value other))
  | .inl msg => do
    let text ← (s.context (s.viewed (threadArg args))).generateTracebackRaw objName msg (startLevelOf args argOffset)
    some (.ok (.text text))

end Rilua.Debug
