import Rilua.Stdlib.TableOrder
import Rilua.Vm.Concat

/-! The operations of the API on values (`vm/state/api_ops.rs`), and the opcodes that do the same: `GETTABLE` and
    `SETTABLE` with the taint of slots and frames, `EQ`, and for `LT` and `CONCAT` what the API does in their place.
    Where a metamethod is called, the outcome of an access is the call. -/

namespace Rilua.Vm

open Lib Gc

/-! ### Access to tables -/

/-- A key that taint is kept for. -/
inductive TaintKey where
  | str (bytes : List UInt8)
  | int (k : ℤ)
  deriving DecidableEq

/-- `slotTaint` stands for the field of the same name of each table. -/
structure AccessState where
  tables : SecretTables
  taintMode : Bool := false
  /-- The tags of the running thread's frames, innermost first. -/
  frames : List Taint := [none]
  slotTaint : GcRef .table → TaintKey → Taint := fun _ _ => none
  /-- Whether access to secrets has been revoked, here or in a resumer. -/
  revoked : Bool := false

/-- Computations that read and write fields. -/
abbrev AccessM (α : Type) : Type := Act AccessState Unit LuaError α

namespace AccessState

def stateIsSecure (s : AccessState) : Bool := s.frames.all Option.isNone

def canAccessSecrets (s : AccessState) : Bool := s.stateIsSecure && !s.revoked

/-- The key that the taint of a slot is kept under. -/
def taintKey (s : AccessState) : Val → Option TaintKey
  | .str r => (s.tables.gc.heap.strings.get r).map fun str => .str (LuaString.data str)
  | .num n => (numberToIntKey n).map .int
  | _ => none

/-- Marks a slot that the running frame has written, if the frame is tainted. -/
def propagateSlotTaint (s : AccessState) (r : GcRef .table) (key : Val) : AccessState :=
  match s.taintMode, s.frames, s.taintKey key, s.tables.gc.heap.get r with
  | true, some taint :: _, some k, some _ =>
    { s with slotTaint := Function.update s.slotTaint r (Function.update (s.slotTaint r) k (some taint)) }
  | _, _, _, _ => s

/-- Taints the running frame, if it is not tainted, with the taint of a slot that it has read. -/
def propagateSlotReadTaint (s : AccessState) (r : GcRef .table) (key : Val) : AccessState :=
  match s.taintMode, s.frames, s.taintKey key, s.tables.gc.heap.get r with
  | true, none :: frames, some k, some _ => { s with frames := s.slotTaint r k :: frames }
  | _, _, _, _ => s

end AccessState

namespace AccessM

/-- What is done to the tables alone. -/
def onTables {α : Type} (x : SecretM α) : AccessM α := fun s =>
  (x s.tables).map fun (tables, w, res) => ({ s with tables }, w, res)

def checkTableAccess (r : GcRef .table) (key : Option Val) : AccessM Unit := do
  let s ← Act.get
  onTables (SecretM.checkTableAccess s.stateIsSecure r key)

def checkedSecretTableRead (value : Val) : AccessM Val := do
  let s ← Act.get
  onTables (SecretM.checkedSecretTableRead s.canAccessSecrets value)

/-! ### Reads -/

def handleTableGettable (r : GcRef .table) (key : Val) : AccessM SecretM.GettableStep := do
  checkTableAccess r (some key)
  let t ← onTables (SecretM.read r SecretM.invalidTable)
  let s ← Act.get
  let result ← Act.ofOption (t.get key s.tables.gc.heap.strings)
  if ¬ result.isNil then do
    Act.modify fun s => s.propagateSlotReadTaint r key
    pure (.done result)
  else pure (SecretM.resolveGettableTm (.table r) (t.metatable.bind fun mt => s.tables.gc.fasttm mt .index))

def handleNonTableGettable (current : Val) : AccessM SecretM.GettableStep := do
  match (← Act.get).tables.gc.gettmbyobj current .index with
  | some tm => pure (SecretM.resolveGettableTm current (some tm))
  | none => Act.fail ⟨"attempt to index a " ++ current.typeName ++ " value"⟩

def gettableStep (current key : Val) : AccessM SecretM.GettableStep :=
  match current with
  | .table r => handleTableGettable r key
  | _ => handleNonTableGettable current

/-- The loop of `vm_gettable`. -/
def vmGettableLoop (key : Val) : ℕ → Val → Bool → AccessM SecretM.ReadResult
  | 0, _, _ => Act.fail ⟨"loop in gettable"⟩
  | n + 1, current, contentsSecret => do
    let current ← checkedSecretTableRead current
    let s ← Act.get
    let contentsSecret := contentsSecret || s.tables.valueWrapsContents current
    match ← gettableStep current key with
    | .done v => do
      let v ← onTables (SecretM.wrapContentsResult v contentsSecret)
      pure (.value v)
    | .call tm current => pure (.call tm current contentsSecret)
    | .next v => vmGettableLoop key n v contentsSecret

def vmGettable (t key : Val) : AccessM SecretM.ReadResult := vmGettableLoop key TableM.maxTagLoop t false

/-- The fast path of the index opcodes, where access is allowed and no `__index` is asked. -/
def tryPlainTableGet (t key : Val) : AccessM (Option Val) := do
  match t with
  | .table r =>
    let s ← Act.get
    match SecretM.checkTableAccess s.stateIsSecure r (some key) s.tables, s.tables.gc.heap.get r with
    | some (_, _, .ok ()), some t => do
      let result ← Act.ofOption (t.get key s.tables.gc.heap.strings)
      if result.isNil && t.metatable.isSome then pure none
      else do
        if ¬ result.isNil then Act.modify fun s => s.propagateSlotReadTaint r key
        pure (some result)
    | _, _ => pure none
  | _ => pure none

/-- `GETTABLE`. -/
def opGetTable (t key : Val) : AccessM SecretM.ReadResult := do
  match ← tryPlainTableGet t key with
  | some v => pure (.value v)
  | none => vmGettable t key

/-- The loop of `resolve_gettable_chain`. -/
def resolveGettableChain (key : Val) : ℕ → Val → Bool → AccessM SecretM.ReadResult
  | 0, _, _ => Act.fail ⟨"loop in gettable"⟩
  | n + 1, current, contentsSecret => do
    let current ← checkedSecretTableRead current
    let s ← Act.get
    match current with
    | .table r =>
      let contentsSecret := contentsSecret || s.tables.tableWrapsContents r
      let result ← match s.tables.gc.heap.get r with
        | some t => Act.ofOption (t.get key s.tables.gc.heap.strings)
        | none => pure .nil
      if ¬ result.isNil then do
        let v ← onTables (SecretM.wrapContentsResult result contentsSecret)
        pure (.value v)
      else do
        let t ← onTables (SecretM.read r SecretM.invalidTable)
        match t.metatable.bind fun mt => s.tables.gc.fasttm mt .index with
        | none => pure (.value .nil)
        | some (.function f) => pure (.call (.function f) current contentsSecret)
        | some v => resolveGettableChain key n v contentsSecret
    | _ =>
      match s.tables.gc.gettmbyobj current .index with
      | none => Act.fail ⟨"attempt to index a " ++ current.typeName ++ " value"⟩
      | some (.function f) => pure (.call (.function f) current contentsSecret)
      | some v => resolveGettableChain key n v contentsSecret

/-- `LuaState::gettable`. -/
def gettable (t key : Val) : AccessM SecretM.ReadResult := resolveGettableChain key TableM.maxTagLoop t false

/-! ### Stores -/

def ensureTableNotFrozen (r : GcRef .table) : AccessM Unit := onTables (SecretM.ensureTableNotFrozen r)

def rawSetExistingSlot (r : GcRef .table) (key value : Val) : AccessM Unit := do
  onTables (SecretM.wrapAndSet r key value SecretM.invalidTable)
  Act.modify fun s => s.propagateSlotTaint r key

def rawSetNewSlot (r : GcRef .table) (key value : Val) : AccessM Unit := do
  let s ← Act.get
  onTables (SecretM.tableSet s.stateIsSecure r key value)
  Act.modify fun s => s.propagateSlotTaint r key

def handleTableSettable (r : GcRef .table) (key value : Val) : AccessM TableM.SettableStep := do
  checkTableAccess r (some key)
  let t ← onTables (SecretM.read r SecretM.invalidTable)
  let s ← Act.get
  if t.metatable.isNone then do
    rawSetNewSlot r key value
    pure .done
  else do
    checkTableAccess r (some key)
    let existing ← Act.ofOption (t.get key s.tables.gc.heap.strings)
    if ¬ existing.isNil then do
      ensureTableNotFrozen r
      rawSetExistingSlot r key value
      pure .done
    else
      match t.metatable.bind fun mt => s.tables.gc.fasttm mt .newIndex with
      | none => do
        ensureTableNotFrozen r
        rawSetNewSlot r key value
        pure .done
      | some tmVal => pure (TableM.resolveSettableTm (.table r) tmVal)

def handleNonTableSettable (current : Val) : AccessM TableM.SettableStep := do
  match (← Act.get).tables.gc.gettmbyobj current .newIndex with
  | some tmVal => pure (TableM.resolveSettableTm current tmVal)
  | none => Act.fail ⟨"attempt to index a " ++ current.typeName ++ " value"⟩

def settableStep (current key value : Val) : AccessM TableM.SettableStep :=
  match current with
  | .table r => handleTableSettable r key value
  | _ => handleNonTableSettable current

/-- The loop of `vm_settable`. The result is a `__newindex` function to call and what it is called with. -/
def vmSettableLoop (key value : Val) : ℕ → Val → AccessM (Option (Val × Val))
  | 0, _ => Act.fail ⟨"loop in settable"⟩
  | n + 1, current => do
    match ← settableStep current key value with
    | .done => pure none
    | .call tm current => pure (some (tm, current))
    | .next v => vmSettableLoop key value n v

/-- `SETTABLE`. -/
def vmSettable (t key value : Val) : AccessM (Option (Val × Val)) := vmSettableLoop key value TableM.maxTagLoop t

def rawSetApiTable (r : GcRef .table) (key value : Val) : AccessM Unit := do
  let s ← Act.get
  onTables (SecretM.rawSetApiTable s.stateIsSecure r key value)

/-- The loop of `LuaState::settable`. -/
def settableLoop (key value : Val) : ℕ → Val → AccessM (Option (Val × Val))
  | 0, _ => Act.fail ⟨"loop in settable"⟩
  | n + 1, current => do
    let s ← Act.get
    match current with
    | .table r =>
      let existing ← match s.tables.gc.heap.get r with
        | some t => Act.ofOption (t.get key s.tables.gc.heap.strings)
        | none => pure .nil
      if ¬ existing.isNil then do
        rawSetApiTable r key value
        pure none
      else do
        let t ← onTables (SecretM.read r SecretM.invalidTable)
        match t.metatable.bind fun mt => s.tables.gc.fasttm mt .newIndex with
        | none => do
          rawSetApiTable r key value
          pure none
        | some (.function f) => pure (some (.function f, current))
        | some v => settableLoop key value n v
    | _ =>
      match s.tables.gc.gettmbyobj current .newIndex with
      | none => Act.fail ⟨"attempt to index a " ++ current.typeName ++ " value"⟩
      | some (.function f) => pure (some (.function f, current))
      | some v => settableLoop key value n v

/-- `LuaState::settable`. -/
def settable (t key value : Val) : AccessM (Option (Val × Val)) := settableLoop key value TableM.maxTagLoop t

end AccessM

/-! ### Comparison -/

/-- `get_comp_tm`: the metamethod that two metatables share. -/
def Gc.getCompTm (g : Gc) (mt1 mt2 : Option (GcRef .table)) (event : TMS) : Option Val := do
  let mt1 ← mt1
  let tm1 ← g.fasttm mt1 event
  if mt2 = some mt1 then some tm1
  else
    let mt2 ← mt2
    let tm2 ← g.fasttm mt2 event
    if valRawEqual g.heap.strings tm1 tm2 then some tm1 else none

namespace OrderM

variable {σ : Type} (host : OrderHost σ)

def checkedSecretNil (v : Val) : OrderM σ Bool := do
  let st ← Act.get
  match st.1.payload v with
  | some .nil => if host.canAccessSecrets st.2 then pure true else Act.fail SecretTables.secretAccess
  | _ => pure false

def boolOf : Val → Option Bool
  | .bool b => some b
  | _ => none

/-- Compares wrapped booleans and wrapped nil. Other values are left to the rest of the comparison. -/
def checkedSecretEquality (left right : Val) : OrderM σ (Option Bool) := do
  let leftBool ← checkedSecretBool host left
  let rightBool ← checkedSecretBool host right
  if leftBool.isNone ∧ rightBool.isNone then do
    let leftNil ← checkedSecretNil host left
    let rightNil ← checkedSecretNil host right
    if ¬ leftNil ∧ ¬ rightNil then pure none
    else pure (some ((leftNil || left.isNil) && (rightNil || right.isNil)))
  else do
    let left := leftBool.or (boolOf left)
    let right := rightBool.or (boolOf right)
    pure (some (left.isSome && left == right))

/-- The `__eq` of the operands of `EQ`. -/
def eqTm (g : Gc) (a b : Val) : Option Val :=
  match a, b with
  | .table r1, .table r2 =>
    g.getCompTm ((g.heap.get r1).bind Table.metatable) ((g.heap.get r2).bind Table.metatable) .eq
  | .userdata r1, .userdata r2 =>
    g.getCompTm ((g.heap.get r1).bind Userdata.metatable) ((g.heap.get r2).bind Userdata.metatable) .eq
  | _, _ => none

/-- The comparison of `EQ`. -/
def opEq (a b : Val) : OrderM σ Bool := do
  match ← checkedSecretEquality host a b with
  | some equal => pure equal
  | none =>
    let st ← Act.get
    if valRawEqual st.1.gc.heap.strings a b then pure true
    else if typeTag a ≠ typeTag b then pure false
    else
      match eqTm st.1.gc a b with
      | some tm => callForBool host tm a b
      | none => pure false

/-- `LuaState::api_equal`. -/
def apiEqual (a b : Val) : OrderM σ Bool := do
  match ← checkedSecretEquality host a b with
  | some equal => pure equal
  | none =>
    let st ← Act.get
    if valRawEqual st.1.gc.heap.strings a b then pure true
    else if typeTag a ≠ typeTag b then pure false
    else
      match a with
      | .table _ | .userdata _ =>
        match st.1.gc.gettmbyobj a .eq with
        | none => pure false
        | some lhsTm =>
          let rhsTm := (st.1.gc.gettmbyobj b .eq).getD .nil
          if valRawEqual st.1.gc.heap.strings lhsTm rhsTm then callForBool host lhsTm a b else pure false
      | _ => pure false

def apiCompareError (a b : Val) : LuaError := ⟨"attempt to compare " ++ a.typeName ++ " with " ++ b.typeName⟩

def callOrderTmApi (lhs rhs : Val) (event : TMS) : OrderM σ (Option Bool) := do
  let st ← Act.get
  match st.1.gc.gettmbyobj lhs event with
  | none => pure none
  | some lhsTm =>
    let rhsTm := (st.1.gc.gettmbyobj rhs event).getD .nil
    if ¬ valRawEqual st.1.gc.heap.strings lhsTm rhsTm then pure none
    else do
      let b ← callForBool host lhsTm lhs rhs
      pure (some b)

/-- `LuaState::api_lessthan`. -/
def apiLessthan (a b : Val) : OrderM σ Bool := do
  let a ← checkedOrderOperand host a
  let b ← checkedOrderOperand host b
  let st ← Act.get
  match a, b with
  | .num x, .num y => pure (x.lt y)
  | .str x, .str y =>
    match st.1.gc.heap.strings.get x, st.1.gc.heap.strings.get y with
    | some sx, some sy => do
      let o ← Act.ofOption (lStrcmp host.strcoll (LuaString.data sx) (LuaString.data sy))
      pure (o == .lt)
    | _, _ => Act.fail (apiCompareError a b)
  | _, _ =>
    if typeTag a ≠ typeTag b then Act.fail (apiCompareError a b)
    else
      match ← callOrderTmApi host a b .lt with
      | some result => pure result
      | none => Act.fail (apiCompareError a b)

end OrderM

/-! ### Concatenation -/

/-- An attempt to concatenate a value, or an error that a metamethod has raised. -/
inductive ApiConcatError (E : Type) where
  | concatenate (val : LuaVal)
  | raised (e : E)

variable {W E : Type}

abbrev ApiConcatM (W E : Type) : Type → Type := EStateM (ApiConcatError E) (ConcatState W)

def callTmTwoArgs (host : ConcatHost W E) (tm lhs rhs : LuaVal) : ApiConcatM W E LuaVal := fun s =>
  let calls := s.calls ++ [⟨tm, lhs, rhs⟩]
  match host.call tm lhs rhs s.world with
  | .ok val world => .ok val ⟨world, calls⟩
  | .error e world => .error (.raised e) ⟨world, calls⟩

def apiConcatViaMetamethod (host : ConcatHost W E) (lhs rhs : LuaVal) : ApiConcatM W E LuaVal := do
  match ← observe fun s => (host.metamethod s.world lhs).or (host.metamethod s.world rhs) with
  | some tm => callTmTwoArgs host tm lhs rhs
  | none => throw (.concatenate (if isStringOrNumber lhs then rhs else lhs))

/-- Joins the `runLen` values below `top` in the first of their slots. -/
def apiConcatStringRun (host : ConcatHost W E) (stack : ℕ → LuaVal) (top runLen : ℕ) : ℕ → LuaVal :=
  let buffer := (runOperands stack top runLen).foldl (fun buffer val => valToStringBytes host.display val buffer) []
  Function.update stack (top - runLen) (.str buffer)

/-- Concatenates the `total` values from `resultPos` on. -/
def apiConcatLoop (host : ConcatHost W E) (resultPos total : ℕ) (stack : ℕ → LuaVal) : ApiConcatM W E (ℕ → LuaVal) :=
  if _h : 1 < total then
    let top := resultPos + total
    let lhs := stack (top - 2)
    let rhs := stack (top - 1)
    if needsConcatMetamethod lhs rhs then do
      let val ← apiConcatViaMetamethod host lhs rhs
      apiConcatLoop host resultPos (total - 1) (Function.update stack (top - 2) val)
    else
      let runLen := countConcatRun stack top total 2
      apiConcatLoop host resultPos (total - (runLen - 1)) (apiConcatStringRun host stack top runLen)
  else pure stack
termination_by total
decreasing_by
  · omega
  · have hrun := le_countConcatRun stack (resultPos + total) total 2
    omega

/-- `LuaState::api_concat`. -/
def apiConcat (host : ConcatHost W E) (stack : ℕ → LuaVal) (top count : ℕ) : ApiConcatM W E (ℕ → LuaVal) :=
  if count = 0 then pure (Function.update stack top (.str []))
  else if count = 1 then pure stack
  else apiConcatLoop host (top - count) count stack

end Rilua.Vm
