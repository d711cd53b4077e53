import Rilua.Lib.Run
import Rilua.Lib.Utf8Lossy
import Rilua.Vm.Object

/-! Native recursion: the places where the interpreter is entered again from native code, the counters
    they keep, and the way an error leaves them (`call_function` of `vm/execute.rs`, `pcall`, `xpcall` and
    `load` of `stdlib/base.rs`, `auxresume` of `stdlib/coroutine.rs`). A `Result` that travels up the
    native stack is an error in flight, and each activation it reaches handles it in a step of its own.
    What the running code does otherwise is left open. -/

namespace Rilua.Vm

open Lib Gc

/-- `MAXCCALLS`. -/
def maxCCalls : ℕ := 200

/-- An error value. A string is taken by its content. -/
inductive ErrorVal where
  | str (data : List UInt8)
  | other (v : Val)
  deriving DecidableEq

/-- What an `Err` carries: the text of the error, or the request to yield. `value` is the value the error
    was raised with. It is history: no step reads it but to report it. -/
inductive Raised where
  | error (message : String) (value : ErrorVal)
  | yield
  deriving DecidableEq

/-- The bytes of a text. -/
def textBytes (s : String) : List UInt8 := s.toByteArray.data.toList

/-- An error raised with a text only. -/
def simpleError (message : String) : Raised := .error message (.str (textBytes message))

namespace Raised

/-- `to_string` of the error. -/
def text : Raised → String
  | .error message _ => message
  | .yield => "cannot yield"

def value : Raised → ErrorVal
  | .error _ v => v
  | .yield => .str (textBytes "cannot yield")

end Raised

namespace ErrorVal

/-- Whether `error` puts the position in front. -/
def isStringable : ErrorVal → Bool
  | .str _ => true
  | .other (.num _) => true
  | .other _ => false

/-- The text of an error value, with `display` for the values that are no strings. -/
def message (display : Val → String) : ErrorVal → String
  | .str data => fromUtf8Lossy data
  | .other v => display v

/-- The value `error(msg, level)` raises at the position `wherePrefix`. -/
def ofLuaError (display : Val → String) (wherePrefix : String) (msg : ErrorVal) (level : ℕ) : ErrorVal :=
  if msg.isStringable && 0 < level then .str (textBytes (wherePrefix ++ msg.message display)) else msg

/-- The value the function of `coroutine.wrap` raises for the error value of its coroutine. -/
def ofWrap (wherePrefix : String) : ErrorVal → ErrorVal
  | .str data =>
    if wherePrefix = "" then .str data else .str (textBytes (wherePrefix ++ fromUtf8Lossy data))
  | v => v

end ErrorVal

/-- The two counters of a thread: `n_ccalls` guards yields, `call_depth` the native stack. -/
structure Counters where
  nCcalls : ℕ := 0
  callDepth : ℕ := 0
  deriving DecidableEq

/-- The part of the state of a thread that is concerned. -/
structure ThreadRegs extends Counters where
  errorObject : Option ErrorVal := none
  deriving DecidableEq

structure Coroutine where
  regs : ThreadRegs := {}
  status : ThreadStatus := .initial

/-- What is in progress on the native stack. `saved` are the counters to restore after an error. -/
inductive Native where
  /-- A metamethod, a callback of a library function, a hook or a finalizer. -/
  | callFunction
  /-- The iterator of `TFORLOOP` or an order metamethod. -/
  | iterator
  | pcall (saved : Counters)
  | xpcall (saved : Counters)
  /-- The handler of `xpcall`. -/
  | handler (saved : Counters)
  /-- The reader function of `load`; called by the lexer it has no counters to restore. -/
  | reader (saved : Option Counters)
  /-- A return hook, whose result `poscall` ignores. -/
  | returnHook
  /-- The callback of `secureexecuterange`. -/
  | secureRange (saved : Counters)
  /-- `auxresume`, from `coroutine.resume` or a function of `coroutine.wrap`. -/
  | resume (co : GcRef .thread) (caller : Option (GcRef .thread)) (wrap : Bool)
  deriving DecidableEq

/-- Who is given an error value. -/
inductive Receiver where | pcall | handler | resume
  deriving DecidableEq

/-- An error value given to a receiver, beside the value the error was raised with. -/
structure Report where
  receiver : Receiver
  delivered : ErrorVal
  actual : ErrorVal
  deriving DecidableEq

/-- The native stack, innermost activation first, with the running thread and the threads it was resumed
    from. -/
structure NativeState where
  regs : ThreadRegs := {}
  natives : List Native := []
  savedThreads : List ThreadRegs := []
  threads : GcRef .thread → Option Coroutine := fun _ => none
  currentThread : Option (GcRef .thread) := none
  raised : Option Raised := none
  reports : List Report := []

/-- What the running code does. `wherePrefix` is the position put in front of a message. -/
inductive NativeOp where
  | callFunction (wherePrefix : String)
  | iterator (wherePrefix : String)
  | pcall (wherePrefix : String)
  | xpcall (wherePrefix : String)
  | reader (lexer : Bool) (wherePrefix : String)
  | returnHook (wherePrefix : String)
  | secureRange (wherePrefix : String)
  | create (co : GcRef .thread)
  | resume (co : GcRef .thread) (wrap : Bool) (wherePrefix : String)
  /-- The function `error`. -/
  | error (wherePrefix : String) (msg : ErrorVal) (level : ℕ)
  /-- Any other error. -/
  | fail (message : String)
  | yield
  /-- The innermost activation ends without an error. -/
  | ret
  /-- The error in flight reaches the innermost activation. -/
  | unwind (wherePrefix : String)

/-- The operation calls a function in an activation that is counted; `w` is the position of the call. -/
inductive NativeOp.Calls (w : String) : NativeOp → Prop
  | callFunction : Calls w (.callFunction w)
  | iterator : Calls w (.iterator w)
  | pcall : Calls w (.pcall w)
  | xpcall : Calls w (.xpcall w)
  | reader (lexer : Bool) : Calls w (.reader lexer w)
  | returnHook : Calls w (.returnHook w)
  | secureRange : Calls w (.secureRange w)

/-- `check_stack_overflow`: the error for a thread with counters `c`. -/
def Counters.checkStackOverflow (c : Counters) (wherePrefix : String) : Option Raised :=
  if maxCCalls ≤ c.callDepth then
    if maxCCalls + maxCCalls / 8 ≤ c.callDepth then some (simpleError "stack overflow")
    else if c.callDepth = maxCCalls then some (simpleError (wherePrefix ++ "stack overflow"))
    else none
  else none

namespace ThreadRegs

def enterCall (r : ThreadRegs) : ThreadRegs :=
  { r with nCcalls := r.nCcalls + 1, callDepth := r.callDepth + 1 }

def leaveCall (r : ThreadRegs) : ThreadRegs :=
  { r with nCcalls := r.nCcalls - 1, callDepth := r.callDepth - 1 }

def enterIterator (r : ThreadRegs) : ThreadRegs := { r with callDepth := r.callDepth + 1 }

def leaveIterator (r : ThreadRegs) : ThreadRegs := { r with callDepth := r.callDepth - 1 }

/-- Restores the counters saved by a protected call. -/
def restore (r : ThreadRegs) (saved : Counters) : ThreadRegs := { r with toCounters := saved }

/-- `error_object.take()`, with the text of the error for want of an error object. -/
def takeError (r : ThreadRegs) (err : Raised) : ErrorVal :=
  r.errorObject.getD (.str (textBytes err.text))

end ThreadRegs

namespace NativeState

/-- `call_function`, entered by `n`. -/
def callFunction (s : NativeState) (n : Native) (wherePrefix : String) : NativeState :=
  let regs := s.regs.enterCall
  { s with regs, natives := n :: s.natives, raised := regs.checkStackOverflow wherePrefix }

/-- The call of an iterator or an order metamethod. -/
def callIterator (s : NativeState) (wherePrefix : String) : NativeState :=
  let regs := s.regs.enterIterator
  { s with regs, natives := .iterator :: s.natives, raised := regs.checkStackOverflow wherePrefix }

/-- Empties the slot of the error object. -/
def clearError (s : NativeState) : NativeState := { s with regs := { s.regs with errorObject := none } }

/-- Raises `v` as `error` and the functions of `coroutine.wrap` do: through the slot of the error object. -/
def throwObject (display : Val → String) (s : NativeState) (v actual : ErrorVal) : NativeState :=
  { s with
    regs := { s.regs with errorObject := some v }
    raised := some (.error (v.message display) actual) }

/-- The function of `coroutine.wrap` passes on an error value of its coroutine. -/
def throwWrapped (display : Val → String) (s : NativeState) (wherePrefix : String) (v actual : ErrorVal) :
    NativeState :=
  s.throwObject display (v.ofWrap wherePrefix) (actual.ofWrap wherePrefix)

/-- The status of a coroutine; one that does not exist is dead. -/
def coStatus (s : NativeState) (co : GcRef .thread) : ThreadStatus :=
  (s.threads co).elim .dead Coroutine.status

/-- `save_thread_state` and `load_thread_by_ref`. -/
def enterCoroutine (s : NativeState) (co : GcRef .thread) (c : Coroutine) (wrap : Bool) : NativeState :=
  { s with
    regs := c.regs
    natives := .resume co s.currentThread wrap :: s.natives
    savedThreads := s.regs :: s.savedThreads
    threads := Function.update s.threads co (some ⟨{ c.regs with errorObject := none }, .running⟩)
    currentThread := some co }

/-- `auxresume`, up to the point where the coroutine runs. -/
def auxresume (display : Val → String) (s : NativeState) (co : GcRef .thread) (wrap : Bool)
    (wherePrefix : String) : NativeState :=
  match s.threads co, s.coStatus co with
  | some c, .initial | some c, .suspended => s.enterCoroutine co c wrap
  | _, status =>
    let message := if status = .dead then "cannot resume dead coroutine"
      else "cannot resume non-suspended coroutine"
    let v := ErrorVal.str (textBytes message)
    if wrap then s.throwWrapped display wherePrefix v v else s

/-- `save_and_restore_by_ref`. Without a resumer, which the code answers with an internal error, it is
    undefined. -/
def leaveCoroutine (s : NativeState) (co : GcRef .thread) (caller : Option (GcRef .thread))
    (status : ThreadStatus) : Option NativeState :=
  match s.savedThreads with
  | [] => none
  | resumer :: rest =>
    some { s with
      regs := resumer
      savedThreads := rest
      threads := Function.update s.threads co (some ⟨s.regs, status⟩)
      currentThread := caller }

/-- Takes the error value for `receiver`. -/
def deliver (s : NativeState) (receiver : Receiver) (err : Raised) : NativeState :=
  { s.clearError with
    raised := none
    reports := ⟨receiver, s.regs.takeError err, err.value⟩ :: s.reports }

/-- Whether `coroutine.yield` is possible. -/
def canYield (s : NativeState) : Bool := s.currentThread.isSome && s.regs.nCcalls = 0

/-- The error `err` reaches the activation `n` on top of `ns`. -/
def unwindTo (display : Val → String) (s : NativeState) (err : Raised) (wherePrefix : String) (ns : List Native) :
    Native → Option NativeState
  | .callFunction => some { s with natives := ns, regs := s.regs.leaveCall }
  | .iterator => some { s with natives := ns, regs := s.regs.leaveIterator }
  | .pcall saved =>
    some ({ s with natives := ns, regs := s.regs.leaveCall.restore saved }.deliver .pcall err)
  | .xpcall saved =>
    -- the handler runs before the counters are restored
    let s := { s with natives := ns, regs := s.regs.leaveCall }.deliver .handler err
    some (s.callFunction (.handler saved) wherePrefix)
  | .handler saved => some { s with natives := ns, regs := s.regs.leaveCall.restore saved, raised := none }
  | .reader saved =>
    let regs := s.regs.leaveCall
    some { s with natives := ns, regs := saved.elim regs regs.restore, raised := none }
  | .returnHook => some { s with natives := ns, regs := s.regs.leaveCall, raised := none }
  | .secureRange saved =>
    some { s with natives := ns, regs := s.regs.leaveCall.restore saved, raised := none }.clearError
  | .resume co caller wrap =>
    match err with
    | .yield => { s with natives := ns, raised := none }.leaveCoroutine co caller .suspended
    | .error _ actual =>
      let v := s.regs.takeError err
      let t := { s.clearError with natives := ns, raised := none }.leaveCoroutine co caller .dead
      t.map fun t =>
        if wrap then t.throwWrapped display wherePrefix v actual
        else { t with reports := ⟨.resume, v, actual⟩ :: t.reports }

/-- The error in flight goes one activation further; past the last one it is the host's. -/
def unwind (display : Val → String) (s : NativeState) (wherePrefix : String) : Option NativeState :=
  match s.raised, s.natives with
  | none, _ => none
  | some _, [] => some { s with raised := none }
  | some err, n :: ns => s.unwindTo display err wherePrefix ns n

/-- The innermost activation returns. -/
def ret (s : NativeState) : Option NativeState :=
  match s.natives with
  | [] => none
  | .iterator :: ns => some { s with natives := ns, regs := s.regs.leaveIterator }
  | .handler saved :: ns => some { s with natives := ns, regs := s.regs.leaveCall.restore saved }
  | .resume co caller _ :: ns => { s with natives := ns }.leaveCoroutine co caller .dead
  | _ :: ns => some { s with natives := ns, regs := s.regs.leaveCall }

/-- One step. While an error is in flight no code runs. -/
def step (display : Val → String) (s : NativeState) (op : NativeOp) : Option NativeState :=
  match s.raised, op with
  | some _, .unwind w => s.unwind display w
  | some _, _ => none
  | none, .callFunction w => some (s.callFunction .callFunction w)
  | none, .iterator w => some (s.callIterator w)
  | none, .pcall w => some (s.clearError.callFunction (.pcall s.regs.toCounters) w)
  | none, .xpcall w => some (s.clearError.callFunction (.xpcall s.regs.toCounters) w)
  | none, .reader lexer w =>
    some (s.callFunction (.reader (if lexer then none else some s.regs.toCounters)) w)
  | none, .returnHook w => some (s.callFunction .returnHook w)
  | none, .secureRange w => some (s.callFunction (.secureRange s.regs.toCounters) w)
  | none, .create co =>
    if (s.threads co).isSome then none
    else some { s with threads := Function.update s.threads co (some {}) }
  | none, .resume co wrap w => some (s.auxresume display co wrap w)
  | none, .error w msg level =>
    let v := msg.ofLuaError display w level
    some (s.throwObject display v v)
  | none, .fail message => some { s with raised := some (simpleError message) }
  | none, .yield =>
    if s.canYield then some { s with raised := some .yield }
    else some { s with
      raised := some (simpleError "attempt to yield across metamethod/C-call boundary") }
  | none, .ret => s.ret
  | none, .unwind _ => none

end NativeState

end Rilua.Vm
