import Rilua.Vm.EnvCache

/-! Values that cross between the environments of Lua functions (`vm/state/environment_transfer.rs`), on one thread.
    `precall` lets the transfer hook convert the arguments of a Lua function before its frame is pushed, `poscall` the
    results before it is popped, if the environment of the function and that of the nearest Lua function below differ.
    The latter is looked up in the function slots of the frames, down to slot 0, which is that of the base frame.

    The routes are the ways into `precall`. An error in flight leaves the frames as they are; what catches it goes back
    to a frame, or does not. The slots that an instruction, a native function or the hook writes, the top that it sets
    and what it does to the heap are given by the steps. The `top` of the frames and the counters are left out. -/

namespace Rilua.Vm

open Lib Gc LuaState

namespace LuaState

/-- `lua_function_environment`. -/
def luaFunctionEnvironment (s : LuaState) (function : Val) : Option (GcRef .table) :=
  function.closureRef.bind s.gc.envOf

/-- `nearest_lua_environment`: the frames are looked at from the one with index `i` down to the base frame. -/
def nearestLuaEnvironment (s : LuaState) (i : ℕ) : GcRef .table :=
  ((s.callStack.take (i + 1)).reverse.findSome? fun frame => s.luaFunctionEnvironment (s.stackGet frame.func)).getD
    s.global

/-- `precall` after the arguments were transferred. -/
def enterFunction (s : LuaState) (r : GcRef .closure) (funcIdx : ℕ) (numResults : Option ℕ) :
    Except CallError (LuaState × CallResult) :=
  match s.gc.heap.get r with
  | none => .error .invalidFunction
  | some (.lua cl) =>
    match s.enterLua cl funcIdx numResults with
    | some s => .ok (s, .lua cl)
    | none => .error .exhausted
  | some (.rust cl) => .ok (s.enterRust funcIdx numResults, .rust cl)

/-- Without a hook, `precall` is its two halves. -/
theorem precall_eq (s : LuaState) (funcIdx : ℕ) (numResults : Option ℕ) :
    s.precall funcIdx numResults =
      if s.overflows then .error .stackOverflow
      else (s.resolveCallee funcIdx).bind fun x => x.1.enterFunction x.2 funcIdx numResults := by
  rw [precall]
  split_ifs
  · rfl
  · cases s.resolveCallee funcIdx with
    | error e => rfl
    | ok x => rfl

end LuaState

/-- The ways to call a function. -/
inductive Route where
  /-- `OP_CALL`. -/
  | call (pc a b c : ℕ)
  | tailCall (pc a b : ℕ)
  /-- The iterator of `TFORLOOP`. -/
  | tforloop (pc a c : ℕ)
  /-- A function that is pushed with its arguments: a metamethod, a debug hook, a finalizer, a reader function, the
      callback of `secureexecuterange`, or the handler of `xpcall`, on top of the frames of the function that failed. -/
  | atTop (func : Val) (args : List Val) (wanted : Option ℕ)
  /-- `call_function` with a slot of the running function: `pcall`, `xpcall` and the functions that libraries call. -/
  | callFunction (i : ℕ) (wanted : Option ℕ)
  /-- `run_proto`, with the closure it has made. -/
  | exec (main : GcRef .closure)
  /-- `call_function` and `call_function_traced` of the host. -/
  | hostCall (func : Val) (args : List Val)
  /-- The first resume of the thread, with the function of the coroutine in slot 0. -/
  | body (args : List Val)
  deriving DecidableEq

namespace Route

/-- The state in which `precall` is called, the slot of the function and the number of results. -/
def prepare (s : LuaState) : Route → LuaState × ℕ × Option ℕ
  | call pc a b c => (s.openCall pc a b, s.base + a, if c = 0 then none else some (c - 1))
  | tailCall pc a b => (s.openCall pc a b, s.base + a, none)
  | tforloop pc a c => (s.openIterator pc (s.base + a), s.base + a + 3, some c)
  | atTop func args wanted => (s.pushAll (func :: args), s.top, wanted)
  | callFunction i wanted => (s, s.base + i, wanted)
  | exec main => ({ s.stackSet 0 (.function main) with top := 1, base := 1 }, 0, none)
  | hostCall func args => ({ s.pushAll (func :: args) with base := s.top + 1 }, s.top, none)
  | body args => (s.pushAll args, 0, none)

def isTail : Route → Bool
  | tailCall .. => true
  | _ => false

def isBody : Route → Bool
  | body _ => true
  | _ => false

end Route

/-- One run of the transfer hook: the range starts at `start` and ends with `values`. -/
structure Transfer (H : Type) where
  hook : H
  source : GcRef .table
  target : GcRef .table
  start : ℕ
  values : List Val
  deriving DecidableEq

/-- What is left of a call or a return when the hook has returned. -/
inductive Rest where
  | enter (r : GcRef .closure) (pos : ℕ) (wanted : Option ℕ) (tail : Bool)
  | leave (first : ℕ)

/-- The hook in progress. It was called with these frames and this top. -/
structure Conversion (H : Type) where
  hook : H
  rest : Rest
  frames : List CallInfo
  top : ℕ

/-- A thread and the transfer hook. What the source does not have is history: `running` is the index of the frame whose
    code runs, `owners` has the functions of the frames above the base frame, innermost first, `chosen` is the hook that
    the embedder has set last, and `log` has the runs of the hook. -/
structure Transfers (H : Type) where
  st : LuaState
  environmentTransferHook : Option H
  converting : List (Conversion H) := []
  coroutine : Bool := false
  running : ℕ := 0
  owners : List (GcRef .closure) := []
  chosen : Option H := environmentTransferHook
  log : List (Transfer H) := []

inductive TransferOp (H : Type) where
  /-- Writes a slot of the running function. -/
  | write (i : ℕ) (v : Val)
  /-- Writes another slot: through an upvalue, with `debug.setlocal`, or by the hook, which converts a value. -/
  | writeSlot (i : ℕ) (v : Val)
  | setTop (n : ℕ)
  /-- Changes the heap, the environments of functions included. -/
  | heap (g : Gc)
  /-- Changes the global table of the thread. -/
  | setGlobal (t : GcRef .table)
  | call (route : Route)
  | ret (a b : ℕ)
  /-- Returns from a native function. -/
  | retRust (n : ℕ)
  /-- An error is caught by the function of the frame `j`, or by the host, which goes back to the frame. -/
  | unwind (j top : ℕ)
  /-- An error ends with the frames left as they are: in `run_proto`, a return hook, or a reader function that the lexer
      calls. -/
  | swallow (j : ℕ)
  /-- The embedder sets the hook. -/
  | setHook (hook : Option H)
  /-- The hook returns, with an error or without. -/
  | hookReturns (ok : Bool)

namespace Transfers

variable {H : Type}

/-- The frames up to this index are not those of calls that the hook has made. -/
def floor (t : Transfers H) : ℕ :=
  match t.converting with
  | [] => 0
  | p :: _ => p.frames.length - 1

/-- The functions in progress, without those whose frames were left behind by an error. -/
def active (t : Transfers H) : List (GcRef .closure) := t.owners.drop (t.st.ci - t.running)

/-- Whether a Lua function runs. -/
def inLua (t : Transfers H) : Bool := (t.active.head?.bind t.st.gc.envOf).isSome

/-- The call or return goes on. -/
def finish (t : Transfers H) (s : LuaState) : Rest → Option (Transfers H)
  | .enter r pos wanted tail =>
    match s.enterFunction r pos wanted with
    | .ok (s, .lua _) =>
      if tail then
        let s := (s.closeUpvalues (s.callInfo (s.ci - 1)).base).replaceFrame
        some { t with st := s, owners := r :: t.owners.tail, running := s.ci }
      else some { t with st := s, owners := r :: t.owners, running := s.ci }
    | .ok (s, .rust _) => some { t with st := s, owners := r :: t.owners, running := s.ci }
    | .error .exhausted => none
    | .error _ => some { t with st := s }
  | .leave first =>
    let (s, _) := s.poscall first
    some { t with st := s, owners := t.owners.tail, running := s.ci }

/-- `transfer_environment_values`. The hook is taken while it runs. -/
def transferEnvironmentValues (t : Transfers H) (s : LuaState) (source target : GcRef .table) (start : ℕ)
    (rest : Rest) : Option (Transfers H) :=
  if source = target ∨ s.top ≤ start then t.finish s rest
  else
    match t.environmentTransferHook with
    | none => t.finish s rest
    | some hook =>
      some { t with
        st := s
        environmentTransferHook := none
        converting := ⟨hook, rest, s.chain, s.top⟩ :: t.converting
        log := t.log ++ [⟨hook, source, target, start, s.slots start s.top⟩] }

/-- `transfer_call_arguments`. -/
def transferCallArguments (t : Transfers H) (s : LuaState) (function : GcRef .closure) (start : ℕ) (rest : Rest) :
    Option (Transfers H) :=
  match t.environmentTransferHook with
  | none => t.finish s rest
  | some _ =>
    match s.luaFunctionEnvironment (.function function) with
    | none => t.finish s rest
    | some target => t.transferEnvironmentValues s (s.nearestLuaEnvironment s.ci) target start rest

/-- `transfer_return_values`. -/
def transferReturnValues (t : Transfers H) (s : LuaState) (start : ℕ) (rest : Rest) : Option (Transfers H) :=
  match t.environmentTransferHook with
  | none => t.finish s rest
  | some _ =>
    match s.luaFunctionEnvironment (s.stackGet (s.callInfo s.ci).func) with
    | none => t.finish s rest
    | some source => t.transferEnvironmentValues s source (s.nearestLuaEnvironment (s.ci - 1)) start rest

/-- Who can call a function by a route. The closure that `run_proto` makes has the global table as its environment. -/
def mayCall (t : Transfers H) : Route → Bool
  | .call .. | .tailCall .. | .tforloop .. => t.floor < t.running && t.inLua
  | .atTop .. | .callFunction .. => !t.coroutine || 0 < t.st.ci
  | .exec main => !t.coroutine && t.running = 0 && t.converting.isEmpty && t.st.gc.envOf main = some t.st.global
  | .hostCall .. => !t.coroutine && t.running = 0 && t.converting.isEmpty
  | .body _ => t.coroutine && t.st.ci = 0 && t.converting.isEmpty

/-- `precall`. The function to call is below the top. -/
def callRoute (t : Transfers H) (route : Route) : Option (Transfers H) :=
  let (s, pos, wanted) := route.prepare t.st
  if t.mayCall route && pos < s.top then
    if s.overflows then some { t with st := s.precallFailed .stackOverflow }
    else
      match s.resolveCallee pos with
      | .error _ => some { t with st := s }
      | .ok (s, r) => t.transferCallArguments s r (pos + 1) (.enter r pos wanted route.isTail)
  else none

/-- What the hook has to preserve: the frames in progress and the top. The function to call is none of the values. -/
def preserved (s : LuaState) (p : Conversion H) : Bool :=
  s.chain = p.frames && s.top = p.top &&
    match p.rest with
    | .enter r pos _ _ => s.stackGet pos = .function r
    | .leave _ => true

def step (t : Transfers H) : TransferOp H → Option (Transfers H)
  | .write i v => some { t with st := t.st.stackSet (t.st.base + i) v }
  | .writeSlot i v => some { t with st := t.st.stackSet i v }
  | .setTop n => some { t with st := { t.st with top := n } }
  | .heap g => some { t with st := { t.st with gc := g } }
  | .setGlobal env => some { t with st := { t.st with global := env } }
  | .call route => t.callRoute route
  | .ret a b =>
    if t.floor < t.running && t.inLua then
      t.transferReturnValues (t.st.openReturn a b) (t.st.base + a) (.leave (t.st.base + a))
    else none
  | .retRust n =>
    if t.floor < t.running && !t.inLua then t.transferReturnValues t.st (t.st.top - n) (.leave (t.st.top - n)) else none
  | .unwind j top =>
    if t.floor ≤ j ∧ j ≤ t.st.ci then
      some { t with
        st := { t.st with ci := j, base := (t.st.callInfo j).base, top }
        owners := t.owners.drop (t.st.ci - j)
        running := j }
    else none
  | .swallow j => if j ≤ t.st.ci then some { t with running := j } else none
  | .setHook hook =>
    if t.converting.isEmpty then some { t with environmentTransferHook := hook, chosen := hook } else none
  | .hookReturns ok =>
    match t.converting with
    | [] => none
    | p :: ps =>
      let t := { t with environmentTransferHook := some p.hook, converting := ps }
      if ok then if preserved t.st p then t.finish t.st p.rest else none
      else some { t with running := t.st.ci }

/-- A thread on which nothing is in progress. -/
def start (s : LuaState) (hook : Option H) (coroutine : Bool) : Transfers H where
  st := s
  environmentTransferHook := hook
  coroutine

/-! ### What crosses -/

/-- The environment of the innermost of the Lua functions `fs`, the global table if there is none. -/
def nearestActive (s : LuaState) (fs : List (GcRef .closure)) : GcRef .table := (fs.findSome? s.gc.envOf).getD s.global

/-- The hook, which does not run for what it calls itself. -/
def activeHook (t : Transfers H) : Option H := if t.converting.isEmpty then t.chosen else none

/-- The values that cross, if any do. -/
def crosses (hook : H) (source target : GcRef .table) (start : ℕ) (values : List Val) : List (Transfer H) :=
  if source ≠ target ∧ values ≠ [] then [⟨hook, source, target, start, values⟩] else []

/-- The call of a Lua function from a state: the function, its environment, and the arguments. -/
def luaCall (s : LuaState) (pos : ℕ) : Option (GcRef .closure × GcRef .table × List Val) :=
  if s.overflows then none
  else (resolve s.gc (s.stackGet pos) (s.slots (pos + 1) s.top)).bind fun x =>
    (s.gc.envOf x.1).map fun env => (x.1, env, x.2)

/-- The results of the running Lua function. -/
def results (s : LuaState) (a b : ℕ) : List Val := s.slots (s.base + a) (if b = 0 then s.top else s.base + a + b - 1)

/-- What the calls of and returns from Lua functions are to hand to the hook. The first resume of a coroutine and the
    return from its function are calls between threads. -/
def crossing (t : Transfers H) : TransferOp H → List (Transfer H)
  | .call route =>
    let (s, pos, _) := route.prepare t.st
    match t.activeHook, luaCall s pos with
    | some hook, some (_, target, args) =>
      if route.isBody then [] else crosses hook (nearestActive s t.active) target (pos + 1) args
    | _, _ => []
  | .ret a b =>
    match t.activeHook, t.active with
    | some hook, r :: rs =>
      match t.st.gc.envOf r with
      | some source =>
        if t.coroutine ∧ rs = [] then []
        else crosses hook source (nearestActive t.st rs) (t.st.base + a) (results t.st a b)
      | none => []
    | _, _ => []
  | _ => []

/-! ### Where the base frame counts -/

/-- A Lua function is among `fs`. -/
def LuaAmong (s : LuaState) (fs : List (GcRef .closure)) : Prop := ∃ r ∈ fs, (s.gc.envOf r).isSome

/-- What is in the function slot of the base frame has no environment but the global table. -/
def BaseQuiet (s : LuaState) (v : Val) : Prop := ∀ env ∈ s.luaFunctionEnvironment v, env = s.global

/-- The frames are those of the functions in progress, and where the base frame is asked for an environment, it has none
    of its own. A function that is pushed is above the function of the innermost frame, and what is written through
    upvalues is in no function slot. -/
def Quiet (t : Transfers H) : TransferOp H → Prop
  | .write _ _ | .retRust _ => t.running = t.st.ci
  | .writeSlot i _ => t.running = t.st.ci ∧ ∀ c ∈ t.st.chain.dropLast, c.func ≠ i
  | .call route =>
    let (s, pos, _) := route.prepare t.st
    t.running = t.st.ci ∧ (∀ func args wanted, route = .atTop func args wanted → t.st.ci ≠ 0 →
        (t.st.callInfo t.st.ci).func < t.st.top) ∧
      (route.isBody = false → t.activeHook.isSome → ∀ r env args, luaCall s pos = some (r, env, args) → args ≠ [] →
        LuaAmong s t.active ∨ BaseQuiet s (if pos = 0 then .function r else s.stackGet 0))
  | .ret a b =>
    t.running = t.st.ci ∧ (t.activeHook.isSome → results t.st a b ≠ [] → ¬ (t.coroutine ∧ t.active.length = 1) →
      LuaAmong t.st t.active.tail ∨ BaseQuiet t.st (t.st.stackGet 0))
  | _ => True

end Transfers

end Rilua.Vm
