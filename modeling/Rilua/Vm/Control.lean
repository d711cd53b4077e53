import Rilua.Vm.CallMachine
import Rilua.Vm.NativeCalls
import Rilua.Vm.OpenUpvalues

/-! The control of the interpreter: Lua functions, native functions, metamethods, hooks, protected calls,
    coroutines and the calls of the host, with errors and yields on their way up the native stack
    (`vm/execute.rs`, `stdlib/base.rs`, `stdlib/coroutine.rs`, `lib.rs`). What an instruction or a native
    function does besides is given by the slots it writes. A place where native code calls a function and
    waits for it, with what it keeps in local variables, is a site. -/

namespace Rilua.Vm

open Lib Gc

/-- An `Err` on its way up the native stack. -/
inductive InFlight where
  | error
  | yield (n : ℕ)
  deriving DecidableEq

/-- What the code at a site may have saved. `openList` is history: it tells whether the values of the running
    frame up to the top were an open list. -/
structure SavedCall where
  ci : ℕ
  base : ℕ
  top : ℕ
  nCcalls : ℕ
  callDepth : ℕ
  openList : Bool
  deriving DecidableEq

/-- What calls a function and waits for it. -/
inductive Site where
  /-- `call_tm_res`: a metamethod with a result. -/
  | tmRes (resultReg : ℕ)
  /-- `call_tm_void`. -/
  | tmVoid
  /-- `call_order_tm`. -/
  | orderTm
  /-- The iterator of `TFORLOOP`. -/
  | tforloop (ra : ℕ)
  /-- `callhook`. The result of a return hook is ignored. -/
  | hook (savedCiTop : ℕ) (ret : Bool)
  /-- A `__gc` metamethod. -/
  | finalizer
  /-- `call_function` in a library function. -/
  | callFunction
  | pcall
  | xpcall
  /-- The handler of the `xpcall` whose function is at `funcPos`. -/
  | handler (funcPos : ℕ)
  /-- The reader function of `load`. An error in one that the lexer calls is not recovered from. -/
  | reader (recovers : Bool)
  /-- The callback of `secureexecuterange`. -/
  | secureRange
  /-- `auxresume`, from `coroutine.resume` or a function of `coroutine.wrap`. It runs the frames of a suspended
      coroutine one after the other. -/
  | resume (co : GcRef .thread) (caller : Option (GcRef .thread)) (loops wrap : Bool)
  /-- `run_proto` of the host. -/
  | exec
  /-- `call_function` and `call_function_traced` of the host. -/
  | hostCall (traced : Bool)
  deriving DecidableEq

namespace Site

/-- What the site adds to `n_ccalls`. -/
def nCcalls : Site → ℕ
  | .orderTm | .tforloop _ | .resume .. | .exec | .hostCall _ => 0
  | _ => 1

/-- What the site adds to `call_depth`. -/
def callDepth : Site → ℕ
  | .resume .. | .exec | .hostCall _ => 0
  | _ => 1

end Site

/-- What is in progress on the native stack: an interpreter loop with its count of Lua functions, a native
    function by what called it, or a site with the position of the function it calls. -/
inductive ControlFrame where
  | execute (nexeccalls : ℕ)
  | opCall (c : ℕ)
  | opTailCall
  | callee
  | site (pos : ℕ) (wanted : Option ℕ) (saved : SavedCall) (k : Site)
  deriving DecidableEq

/-- The machine, with the native stack, innermost first. `openList` is history: the values of the running
    Lua frame up to the top are an open list, which the next instruction takes. -/
structure Control where
  st : LuaState
  native : List ControlFrame := []
  raised : Option InFlight := none
  openList : Bool := false

/-- What a step does. -/
inductive ControlOp where
  /-- Writes a slot of the current frame. -/
  | write (i : ℕ) (v : Val)
  /-- Changes the heap, but for its upvalues and coroutines. -/
  | heap (g : Gc)
  /-- Writes through an upvalue. -/
  | setUpval (r : GcRef .upvalue) (v : Val)
  /-- Raises an error. -/
  | fail
  | call (pc a b c : ℕ)
  | tailCall (pc a b : ℕ)
  | ret (a b : ℕ)
  | varArg (a b : ℕ)
  | setList (b : ℕ)
  | tforloop (pc a c : ℕ)
  /-- Captures a register in a closure. -/
  | capture (a : ℕ)
  | close (a : ℕ)
  | tmRes (tm arg1 arg2 : Val) (resultReg : ℕ)
  | tmVoid (tm arg1 arg2 arg3 : Val)
  | orderTm (tm lhs rhs : Val)
  | hook (event line : Val)
  /-- The return hook; `RETURN` has set the top before. -/
  | returnHook (instr : Option (ℕ × ℕ)) (event : Val)
  | finalizer (gcFn ud : Val)
  | push (v : Val)
  | setTop (n : ℕ)
  /-- Calls the function in a slot of the current frame from a library function, which has pushed it. -/
  | callFunction (i : ℕ) (wanted : Option ℕ)
  | pcall
  | xpcall
  | reader (recovers : Bool) (func : Val)
  | secureRange (callback : Val) (args : List Val)
  | create (func : Val)
  | resume (co : GcRef .thread) (args : List Val) (wrap : Bool)
  | yield
  /-- Returns from a native function. -/
  | retRust (n : ℕ)
  /-- A site goes on after its function has returned. -/
  | done
  /-- The error in flight goes one step further; `v` is the error value, if someone asks for it. -/
  | unwind (v : Val)
  | exec (main : Val)
  | hostCall (traced : Bool) (func : Val) (args : List Val)

namespace LuaState

/-- Pushes values in order. -/
def pushAll (s : LuaState) (vs : List Val) : LuaState := vs.foldl push s

/-- The state after `precall` failed: an overflow is flagged. -/
def precallFailed (s : LuaState) : CallError → LuaState
  | .stackOverflow => { s with ciOverflow := true }
  | _ => s

def counters (s : LuaState) : Counters := ⟨s.nCcalls, s.callDepth⟩

def enterCount (s : LuaState) (k : Site) : LuaState :=
  { s with nCcalls := s.nCcalls + k.nCcalls, callDepth := s.callDepth + k.callDepth }

def leaveCount (s : LuaState) (k : Site) : LuaState :=
  { s with nCcalls := s.nCcalls - k.nCcalls, callDepth := s.callDepth - k.callDepth }

/-- The overflow flag is cleared by what brings the frames back below the limit. -/
def clearOverflow (s : LuaState) : LuaState :=
  { s with ciOverflow := if s.ci < maxCalls then false else s.ciOverflow }

/-- The frame and the counters from before a protected call. -/
def restoreCall (s : LuaState) (saved : SavedCall) : LuaState :=
  { { s with ci := saved.ci } with
    base := (s.callInfo saved.ci).base
    nCcalls := saved.nCcalls
    callDepth := saved.callDepth }.clearOverflow

/-- Sets the `top` of the current frame. -/
def setCiTop (s : LuaState) (top : ℕ) : LuaState := s.modifyCallInfo s.ci fun c => { c with top }

/-- `TFORLOOP` copies the iterator, the state and the control variable. -/
def openIterator (s : LuaState) (pc ra : ℕ) : LuaState :=
  let cb := ra + 3
  let s := s.stackSet (cb + 2) (s.stackGet (ra + 2))
  let s := s.stackSet (cb + 1) (s.stackGet (ra + 1))
  let s := s.stackSet cb (s.stackGet ra)
  { s with top := cb + 3 }.modifyCallInfo s.ci fun c => { c with savedPc := pc }

/-- `RETURN` before the frame is left: the upvalues of the frame are closed, and the results end at the top. -/
def openReturn (s : LuaState) (a b : ℕ) : LuaState :=
  let ra := s.base + a
  let s := s.closeUpvalues s.base
  if b ≠ 0 then { s with top := ra + b - 1 } else s

/-- `auxresume` up to the point where the frames of the coroutine are run. -/
def swapIn (s : LuaState) (co : GcRef .thread) : LuaState :=
  let suspendedUpvals := s.openPairs
  let s := s.closeAll suspendedUpvals
  let resumer := s.saveThreadState suspendedUpvals
  let t := s.loadThreadByRef co .running
  { t with savedThreads := resumer :: s.savedThreads, currentThread := some co }

/-- The end of `auxresume`. Without a resumer, which the code answers with an internal error, it is undefined. -/
def swapOut (s : LuaState) (co : GcRef .thread) (caller : Option (GcRef .thread)) (status : ThreadStatus) :
    Option LuaState :=
  match s.savedThreads with
  | [] => none
  | resumer :: ts => some { s.saveAndRestoreByRef co status resumer with savedThreads := ts, currentThread := caller }

/-- The arguments of a resume become the results of the `yield` in progress. -/
def finishYield (s : LuaState) (args : List Val) : LuaState × Bool :=
  let s := { s with stack := putAll .nil s.stack s.base args, top := s.base + args.length }
  let (s, fixedResults) := s.poscall s.base
  (if fixedResults then s.restoreTop else s, fixedResults)

end LuaState

namespace Control

def save (m : Control) : SavedCall where
  ci := m.st.ci
  base := m.st.base
  top := m.st.top
  nCcalls := m.st.nCcalls
  callDepth := m.st.callDepth
  openList := m.openList

/-- A site calls the function at `pos`, whose arguments are on the stack. -/
def enter (m : Control) (k : Site) (pos : ℕ) (wanted : Option ℕ) (saved : SavedCall) : Option Control :=
  let native := .site pos wanted saved k :: m.native
  let st := m.st.enterCount k
  if k.callDepth = 1 ∧ (st.counters.checkStackOverflow "").isSome then
    some { m with st, native, raised := some .error }
  else
    match st.precall pos wanted with
    | .ok (st, .lua _) => some { st, native := .execute 1 :: native }
    | .ok (st, .rust _) => some { st, native := .callee :: native }
    | .error .exhausted => none
    | .error e => some { m with st := st.precallFailed e, native, raised := some .error }

/-- A site that pushes the function with its arguments. -/
def callAtTop (m : Control) (k : Site) (vs : List Val) (wanted : Option ℕ) : Option Control :=
  { m with st := m.st.pushAll vs }.enter k m.st.top wanted m.save

/-- An instruction or native function has failed. -/
def raise (m : Control) : Control := { m with raised := some .error }

/-- `OP_CALL`. -/
def opCall (m : Control) (n : ℕ) (native : List ControlFrame) (pc a b c : ℕ) : Option Control :=
  let st := m.st.openCall pc a b
  match st.precall (m.st.base + a) (if c = 0 then none else some (c - 1)) with
  | .ok (st, .lua _) => some { st, native := .execute (n + 1) :: native }
  | .ok (st, .rust _) => some { st, native := .opCall c :: .execute n :: native }
  | .error .exhausted => none
  | .error e => some { m with st := st.precallFailed e, raised := some .error }

/-- `TAILCALL`. -/
def opTailCall (m : Control) (n : ℕ) (native : List ControlFrame) (pc a b : ℕ) : Option Control :=
  let st := m.st.openCall pc a b
  match st.precall (m.st.base + a) none with
  | .ok (st, .lua _) =>
    let st := (st.closeUpvalues (st.callInfo (st.ci - 1)).base).replaceFrame
    some { st, native := .execute n :: native }
  | .ok (st, .rust _) => some { st, native := .opTailCall :: .execute n :: native }
  | .error .exhausted => none
  | .error e => some { m with st := st.precallFailed e, raised := some .error }

/-- `RETURN`. -/
def opReturn (m : Control) (n : ℕ) (native : List ControlFrame) (a b : ℕ) : Control :=
  let (st, fixedResults) := (m.st.openReturn a b).poscall (m.st.base + a)
  if n - 1 = 0 then { st, native, openList := !fixedResults }
  else
    { st := if fixedResults then st.restoreTop else st
      native := .execute (n - 1) :: native
      openList := !fixedResults }

/-- A native function returns. -/
def opReturnRust (m : Control) (native : List ControlFrame) (n : ℕ) : ControlFrame → Option Control
  | .opCall c =>
    let (st, _) := m.st.poscall (m.st.top - n)
    some { st := if c ≠ 0 then st.restoreTop else st, native, openList := c = 0 }
  | .opTailCall => some { st := (m.st.poscall (m.st.top - n)).1, native, openList := true }
  | .callee => some { st := (m.st.poscall (m.st.top - n)).1, native }
  | .execute _ | .site .. => none

/-- `auxresume`, up to the point where the coroutine runs. -/
def auxresume (m : Control) (co : GcRef .thread) (args : List Val) (wrap : Bool) : Option Control :=
  match m.st.gc.heap.get co with
  | none => some (if wrap then m.raise else m)
  | some t =>
    let t : LuaThread := t
    let st := m.st.swapIn co
    match t.status with
    | .initial =>
      { m with st := st.pushAll args }.enter (.resume co m.st.currentThread false wrap) 0 none m.save
    | .suspended =>
      let (st, fixedResults) := st.finishYield args
      some { st
             native := .site 0 none m.save (.resume co m.st.currentThread true wrap) :: m.native
             openList := !fixedResults }
    | .running | .normal | .dead => some (if wrap then m.raise else m)

/-- The coroutine is left. -/
def leaveCoroutine (m : Control) (native : List ControlFrame) (co : GcRef .thread) (caller : Option (GcRef .thread))
    (status : ThreadStatus) (raised : Option InFlight) : Option Control :=
  (m.st.swapOut co caller status).map fun st => { st, native, raised }

/-- The function called by a site has returned. -/
def siteDone (m : Control) (native : List ControlFrame) (pos : ℕ) (saved : SavedCall) (k : Site) : Option Control :=
  let st := m.st.leaveCount k
  let m' : Control := { st, native, openList := saved.openList }
  match k with
  | .tmRes resultReg => some { m' with st := st.stackSet resultReg (st.stackGet pos) }
  | .tmVoid | .orderTm | .finalizer | .callFunction => some m'
  | .tforloop ra =>
    let st := st.restoreTop
    let control := st.stackGet (ra + 3)
    some { m' with st := if control.isNil then st else st.stackSet (ra + 2) control }
  | .hook savedCiTop _ => some { m' with st := { st.setCiTop savedCiTop with top := saved.top } }
  | .pcall =>
    let st := { st with stack := shiftUp .nil pos (st.top - pos) st.stack, top := st.top + 1 }
    some { m' with st := st.stackSet pos (.bool true) }
  | .xpcall => some { m' with st := st.stackSet (pos - 1) (.bool true) }
  | .handler funcPos =>
    let handlerRet := st.stackGet pos
    let st := ((st.restoreCall saved).stackSet funcPos (.bool false)).stackSet (funcPos + 1) handlerRet
    some { m' with st := { st with top := funcPos + 2 } }
  | .reader _ | .secureRange => some { m' with st := { st with top := pos } }
  | .resume co caller loops _ =>
    if loops ∧ 0 < st.ci then some { m with native := .execute 1 :: m.native }
    else m.leaveCoroutine native co caller .dead none
  | .exec => some m'
  | .hostCall _ => some { m' with st := { st with top := pos, base := saved.base } }

/-- An error reaches a site; `v` is the error value. -/
def siteFailed (m : Control) (native : List ControlFrame) (pos : ℕ) (saved : SavedCall) (v : Val) (err : InFlight)
    (k : Site) : Option Control :=
  let st := m.st.leaveCount k
  let m' : Control := { st, native, raised := some err, openList := saved.openList }
  match k with
  | .tmRes _ | .tmVoid | .orderTm | .callFunction | .tforloop _ => some m'
  | .hook savedCiTop ret =>
    some { m' with st := { st.setCiTop savedCiTop with top := saved.top }
                   raised := if ret then none else some err }
  | .finalizer =>
    some { m' with st := { st with ci := saved.ci, base := (st.callInfo saved.ci).base, top := saved.top } }
  | .pcall =>
    let st := (((st.restoreCall saved).closeUpvalues pos).stackSet pos (.bool false)).stackSet (pos + 1) v
    some { m' with st := { st with top := pos + 2 }, raised := none }
  | .xpcall =>
    -- the handler runs on top of the frames of the failed call
    let st := st.closeUpvalues (pos - 1)
    let handlerPos := st.top
    let st := (st.stackSet handlerPos (st.stackGet (pos - 1))).stackSet (handlerPos + 1) v
    { m' with st := { st with top := handlerPos + 2 }, raised := none }.enter (.handler (pos - 1)) handlerPos
      (some 1) saved
  | .handler funcPos =>
    let st := ((st.restoreCall saved).stackSet funcPos (.bool false)).stackSet (funcPos + 1) v
    some { m' with st := { st with top := funcPos + 2 }, raised := none }
  | .reader recovers =>
    let st := if recovers then { st.restoreCall saved with top := saved.top } else st
    some { m' with st := (st.push .nil).push v, raised := none }
  | .secureRange =>
    let st := { st.restoreCall saved with base := saved.base }.closeUpvalues pos
    some { m' with st := { st with top := pos }, raised := none }
  | .resume co caller _ wrap =>
    match err with
    | .yield _ => m.leaveCoroutine native co caller .suspended none
    | .error => m.leaveCoroutine native co caller .dead (if wrap then some .error else none)
  | .exec => some { m' with raised := none }
  | .hostCall traced =>
    let st := { st with top := pos, base := saved.base, ci := saved.ci }
    some { m' with st := if traced then st else st.clearOverflow, raised := none }

/-- The error in flight goes one step further. -/
def unwind (m : Control) (err : InFlight) (v : Val) : Option Control :=
  match m.native with
  | [] => none
  | .site pos _ saved k :: native => m.siteFailed native pos saved v err k
  | _ :: native => some { m with native }

/-- A step of the host. -/
def hostStep (m : Control) : ControlOp → Option Control
  | .heap g => some { m with st := { m.st with gc := g } }
  | .exec main =>
    let st := { m.st.stackSet 0 main with top := 1, base := 1 }
    { m with st }.enter .exec 0 none m.save
  | .hostCall traced func args =>
    let funcIdx := m.st.top
    let st := { m.st.pushAll (func :: args) with base := funcIdx + 1 }
    { m with st }.enter (.hostCall traced) funcIdx none m.save
  | _ => none

/-- A step that Lua code and native code have in common. -/
def commonStep (m : Control) : ControlOp → Option Control
  | .write i v => some { m with st := m.st.stackSet (m.st.base + i) v }
  | .heap g => some { m with st := { m.st with gc := g } }
  | .setUpval r v => some { m with st := m.st.setUpvalue r v }
  | .fail => some m.raise
  | .hook event line =>
    let savedCiTop := (m.st.callInfo m.st.ci).top
    { m with st := m.st.setCiTop (m.st.top + luaMinStack) }.callAtTop (.hook savedCiTop false)
      [m.st.hookFunc, event, line] (some 0)
  | .finalizer gcFn ud => m.callAtTop .finalizer [gcFn, ud] (some 0)
  | _ => none

/-- The return hook. -/
def returnHook (m : Control) (event : Val) : Option Control :=
  let savedCiTop := (m.st.callInfo m.st.ci).top
  { m with st := m.st.setCiTop (m.st.top + luaMinStack) }.callAtTop (.hook savedCiTop true)
    [m.st.hookFunc, event, .nil] (some 0)

/-- A step of the interpreter loop. -/
def luaStep (m : Control) (n : ℕ) (native : List ControlFrame) : ControlOp → Option Control
  | .call pc a b c => m.opCall n native pc a b c
  | .tailCall pc a b => m.opTailCall n native pc a b
  | .ret a b => some (m.opReturn n native a b)
  | .varArg a b =>
    (m.st.gc.protoOf (m.st.stackGet (m.st.callInfo m.st.ci).func)).map fun proto =>
      { m with st := m.st.opVarArg proto a b, openList := b = 0 }
  | .setList b => some { m with st := if b = 0 then m.st.restoreTop else m.st, openList := false }
  | .tforloop pc a c =>
    let ra := m.st.base + a
    { m with st := m.st.openIterator pc ra }.enter (.tforloop ra) (ra + 3) (some c) m.save
  | .capture a => (m.st.findUpvalue (m.st.base + a)).map fun (st, _) => { m with st }
  | .close a => some { m with st := m.st.closeUpvalues (m.st.base + a) }
  | .tmRes tm arg1 arg2 resultReg => m.callAtTop (.tmRes resultReg) [tm, arg1, arg2] (some 1)
  | .tmVoid tm arg1 arg2 arg3 => m.callAtTop .tmVoid [tm, arg1, arg2, arg3] (some 0)
  | .orderTm tm lhs rhs => m.callAtTop .orderTm [tm, lhs, rhs] (some 1)
  | .returnHook (some (a, b)) event =>
    { m with st := m.st.openReturn a b, openList := true }.returnHook event
  | op => m.commonStep op

/-- A step of the native function `f`. -/
def rustStep (m : Control) (f : ControlFrame) (native : List ControlFrame) : ControlOp → Option Control
  | .push v => some { m with st := m.st.push v }
  | .setTop n => some { m with st := { m.st with top := m.st.base + n } }
  | .callFunction i wanted =>
    if m.st.base + i < m.st.top then m.enter .callFunction (m.st.base + i) wanted m.save else none
  | .pcall => if m.st.base < m.st.top then m.enter .pcall m.st.base none m.save else some m.raise
  | .xpcall =>
    let funcPos := m.st.base
    if funcPos + 1 < m.st.top then
      let handlerVal := m.st.stackGet (funcPos + 1)
      let st := (m.st.stackSet (funcPos + 1) (m.st.stackGet funcPos)).stackSet funcPos handlerVal
      { m with st := { st with top := funcPos + 2 } }.enter .xpcall (funcPos + 1) none m.save
    else some m.raise
  | .reader recovers func => m.callAtTop (.reader recovers) [func] (some 1)
  | .secureRange callback args => m.callAtTop .secureRange (callback :: args) (some 0)
  | .create func =>
    (m.st.gc.allocThread (LuaThread.new func m.st.global)).map fun (gc, r) =>
      { m with st := { m.st with gc }.push (.thread r) }
  | .resume co args wrap => m.auxresume co args wrap
  | .yield =>
    if m.st.currentThread.isSome && m.st.nCcalls = 0 then
      some { m with raised := some (.yield (m.st.top - m.st.base)) }
    else some m.raise
  | .retRust n => m.opReturnRust native n f
  | .returnHook none event => m.returnHook event
  | op => m.commonStep op

/-- One step. While an error is in flight no code runs. -/
def step (m : Control) (op : ControlOp) : Option Control :=
  match m.raised, m.native, op with
  | some err, _, .unwind v => m.unwind err v
  | some _, _, _ => none
  | none, [], op => m.hostStep op
  | none, .site pos _ saved k :: native, .done => m.siteDone native pos saved k
  | none, .site .. :: _, _ => none
  | none, .execute n :: native, op => m.luaStep n native op
  | none, f :: native, op => m.rustStep f native op

end Control

end Rilua.Vm
