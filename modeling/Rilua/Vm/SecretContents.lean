import Rilua.Vm.TableHolds
import Rilua.Vm.TableOps
import Rilua.Vm.TaintChain

/-! Tables with secret contents: option 2 of `set_table_security` (`table_security.rs`), the stores that wrap a value
    for such a table, those that do not, and the reads that wrap what they return. Taint of slots, the transfer of
    environments and the hooks are left out. Whether the caller is secure, and whether it may unwrap secrets, is
    given. -/

namespace Rilua.Vm

open Lib Gc

def secretWrapContents : UInt8 := 4

/-- `securityFlags` stands for the field of the same name of each table. -/
structure SecretTables where
  gc : Gc
  securityFlags : GcRef .table → UInt8 := fun _ => 0
  hasSecretContentsPolicy : Bool := false
  /-- What `table.sort` has read from which table. It holds on to these values while comparisons run. -/
  sortReads : List (GcRef .table × Val) := []

/-- Computations that fail with a Lua error. -/
abbrev SecretM (α : Type) : Type := Act SecretTables Unit LuaError α

/-- Iterates over the non-nil keys of the hash part. -/
def Table.hashEntries (t : Table) : List (Val × Val) :=
  (t.nodes.filter fun n => !n.key.isNil).map fun n => (n.key, n.value)

/-- The entries of the array part from the slot `i` on. -/
def arrayEntries : ℕ → List Val → List (Val × Val)
  | _, [] => []
  | i, v :: vs => if v.isNil then arrayEntries (i + 1) vs else (Table.slotKey i, v) :: arrayEntries (i + 1) vs

def collectTableEntries (t : Table) : List (Val × Val) := arrayEntries 0 t.array ++ t.hashEntries

namespace SecretTables

/-- The payload of a live wrapper. -/
def payload (s : SecretTables) : Val → Option Val
  | .userdata r => (s.gc.heap.get r).bind Userdata.secretValue
  | _ => none

def isSecretValue (s : SecretTables) (v : Val) : Bool := (s.payload v).isSome

def tableWrapsContents (s : SecretTables) (r : GcRef .table) : Bool :=
  s.hasSecretContentsPolicy && (s.gc.heap.get r).any fun _ => s.securityFlags r &&& secretWrapContents != 0

/-- Whether a value is a table with secret contents. -/
def valueWrapsContents (s : SecretTables) : Val → Bool
  | .table r => s.tableWrapsContents r
  | _ => false

/-- Missing nil remains public; existing wrappers are preserved. -/
def wrapContentsResult (s : SecretTables) (value : Val) (contentsSecret : Bool) : Option (SecretTables × Val) :=
  if contentsSecret && !value.isNil && !s.isSecretValue value then
    (s.gc.allocUserdata { secretValue := some value }).map fun (gc, r) => ({ s with gc }, .userdata r)
  else some (s, value)

end SecretTables

namespace SecretM

/-! ### Access -/

def read (r : GcRef .table) (missing : LuaError) : SecretM Table := do
  match (← Act.get).gc.heap.get r with
  | some t => pure t
  | none => Act.fail missing

/-- Changes the table at a reference. -/
def update {α : Type} (r : GcRef .table) (missing : LuaError) (f : Table → StringArena → Option (TableResult α)) :
    SecretM α :=
  Act.attempt fun s =>
    match s.gc.heap.get r with
    | some t => (f t s.gc.heap.strings).map fun (t, res) => ({ s with gc := s.gc.modify r fun _ => t }, res)
    | none => some (s, .error missing)

def rawSet (r : GcRef .table) (key value : Val) (missing : LuaError) : SecretM Unit :=
  update r missing fun t strings => t.rawSet key value strings

/-- A step of the collector's bookkeeping. -/
def onGc (f : Gc → Gc) : SecretM Unit := Act.modify fun s => { s with gc := f s.gc }

def barrierBack (r : GcRef .table) : SecretM Unit := onGc fun g => g.barrierBack r

def wrapContentsResult (value : Val) (contentsSecret : Bool) : SecretM Val :=
  Act.lift fun s => s.wrapContentsResult value contentsSecret

/-- Applies the flagged table's storage and result policy. -/
def wrapTableValue (r : GcRef .table) (value : Val) : SecretM Val := do
  wrapContentsResult value ((← Act.get).tableWrapsContents r)

/-- Rejects forbidden caller or key access. -/
def checkTableAccess (secure : Bool) (r : GcRef .table) (key : Option Val) : SecretM Unit := do
  let _ ← read r ⟨"table has been collected"⟩
  let s ← Act.get
  if s.securityFlags r &&& disallowTaintedAccess ≠ 0 ∧ secure = false then
    Act.fail ⟨"tainted access to secured table"⟩
  else if s.securityFlags r &&& disallowSecretKeys ≠ 0 ∧ key.any s.isSecretValue then
    Act.fail ⟨"secret key access to secured table"⟩
  else pure ()

def ensureTableNotFrozen (r : GcRef .table) : SecretM Unit := do
  let s ← Act.get
  if TableM.isFrozen s.gc r then Act.fail ⟨"attempt to modify a frozen table"⟩
  else if TableM.isReadOnly s.gc r then Act.fail ⟨"attempt to modify a read-only table"⟩
  else pure ()

/-! ### The options -/

def ensureSecureCaller (secure : Bool) : SecretM Unit :=
  if secure then pure () else Act.fail ⟨"table security operation requires an untainted caller"⟩

/-- Stores the entries again, wrapped. -/
def wrapExistingTableEntries (r : GcRef .table) : List (Val × Val) → SecretM Unit
  | [] => barrierBack r
  | (key, value) :: entries => do
    let value ← wrapTableValue r value
    rawSet r key value ⟨"table has been collected"⟩
    wrapExistingTableEntries r entries

def addSecurityFlag (r : GcRef .table) (flag : UInt8) : SecretM Unit := do
  let _ ← read r ⟨"table has been collected"⟩
  Act.modify fun s => { s with securityFlags := Function.update s.securityFlags r (s.securityFlags r ||| flag) }

def enableSecretContents (r : GcRef .table) : SecretM Unit := do
  let target ← read r ⟨"table has been collected"⟩
  let s ← Act.get
  if TableM.isFrozen s.gc r ∨ target.readOnly then Act.fail ⟨"cannot secure contents of an immutable table"⟩
  else if s.tableWrapsContents r then pure ()
  else do
    Act.modify fun s => { s with hasSecretContentsPolicy := true }
    addSecurityFlag r secretWrapContents
    wrapExistingTableEntries r (collectTableEntries target)

/-- Adds a restriction; options accumulate. -/
def setTableSecurity (secure : Bool) (r : GcRef .table) (option : ℕ) : SecretM Unit := do
  ensureSecureCaller secure
  match option with
  | 0 => addSecurityFlag r disallowTaintedAccess
  | 1 => addSecurityFlag r disallowSecretKeys
  | 2 => enableSecretContents r
  | _ => Act.fail ⟨"invalid TableSecurityOption"⟩

/-! ### Stores that wrap -/

def invalidTable : LuaError := ⟨"invalid table reference"⟩

/-- The store of most callers: the value is wrapped, and the collector is told. -/
def wrapAndSet (r : GcRef .table) (key value : Val) (missing : LuaError) : SecretM Unit := do
  let value ← wrapTableValue r value
  rawSet r key value missing
  barrierBack r

/-- Raw assignment with memory tracking. -/
def tableSet (secure : Bool) (r : GcRef .table) (key value : Val) : SecretM Unit := do
  checkTableAccess secure r (some key)
  ensureTableNotFrozen r
  let value ← wrapTableValue r value
  let memoryDelta ← update r invalidTable fun t strings => t.rawSetWithMemoryDelta key value strings
  onGc fun g => g.trackAlloc memoryDelta
  let s ← Act.get
  if s.gc.gcState.totalBytes > s.gc.gcState.allocLimit then Act.fail ⟨"not enough memory"⟩
  else barrierBack r

/-- An assignment that `handle_table_settable` makes to a field that is there. -/
def rawSetExistingSlot (secure : Bool) (r : GcRef .table) (key value : Val) : SecretM Unit := do
  checkTableAccess secure r (some key)
  ensureTableNotFrozen r
  wrapAndSet r key value invalidTable

def handleTableSettable (secure : Bool) (r : GcRef .table) (key value : Val) : SecretM TableM.SettableStep := do
  checkTableAccess secure r (some key)
  let t ← read r invalidTable
  if t.metatable.isNone then do
    tableSet secure r key value
    pure .done
  else do
    checkTableAccess secure r (some key)
    let s ← Act.get
    let existing ← Act.ofOption (t.get key s.gc.heap.strings)
    if ¬ existing.isNil then do
      rawSetExistingSlot secure r key value
      pure .done
    else
      match t.metatable.bind fun mt => s.gc.fasttm mt .newIndex with
      | none => do
        ensureTableNotFrozen r
        tableSet secure r key value
        pure .done
      | some tmVal => pure (TableM.resolveSettableTm (.table r) tmVal)

def settableStep (secure : Bool) (current key value : Val) : SecretM TableM.SettableStep :=
  match current with
  | .table r => handleTableSettable secure r key value
  | _ => do
    match (← Act.get).gc.gettmbyobj current .newIndex with
    | some tmVal => pure (TableM.resolveSettableTm current tmVal)
    | none => Act.fail ⟨"attempt to index a " ++ current.typeName ++ " value"⟩

/-- The loop of `vm_settable`. The result is a `__newindex` function to call and what it is called with. -/
def settableLoop (secure : Bool) (key value : Val) : ℕ → Val → SecretM (Option (Val × Val))
  | 0, _ => Act.fail ⟨"loop in settable"⟩
  | n + 1, current => do
    match ← settableStep secure current key value with
    | .done => pure none
    | .call tm current => pure (some (tm, current))
    | .next v => settableLoop secure key value n v

/-- `SETTABLE`. -/
def vmSettable (secure : Bool) (t key value : Val) : SecretM (Option (Val × Val)) :=
  settableLoop secure key value TableM.maxTagLoop t

/-- The store of `LuaState::settable`. -/
def rawSetApiTable (secure : Bool) (r : GcRef .table) (key value : Val) : SecretM Unit := do
  checkTableAccess secure r (some key)
  wrapAndSet r key value invalidTable

/-- `Table::raw_set` of the handles. -/
def handleRawSet (secure : Bool) (r : GcRef .table) (key value : Val) : SecretM Unit := do
  checkTableAccess secure r (some key)
  wrapAndSet r key value ⟨"table has been collected"⟩

/-- `rawset`. -/
def luaRawset (secure : Bool) (args : List Val) : SecretM Val := do
  if args.length < 3 then Act.fail (badArgument "rawset" 3 "value expected")
  else
    match argOf args 0 with
    | .table r => do
      checkTableAccess secure r (some (argOf args 1))
      if TableM.isFrozen (← Act.get).gc r then Act.fail ⟨"attempt to modify a frozen table"⟩
      else
        wrapAndSet r (argOf args 1) (argOf args 2) (badArgument "rawset" 1 "invalid table")
        pure (.table r)
    | _ => Act.fail (badArgument "rawset" 1 "table expected")

/-- The store of the table library. -/
def setRaw (secure : Bool) (r : GcRef .table) (idx : ℤ) (value : Val) : SecretM Unit := do
  checkTableAccess secure r none
  let value ← wrapTableValue r value
  rawSet r (.num (F64.ofInt idx)) value ⟨"table not found"⟩

/-- Wraps the items of a constructor one by one. -/
def writeWrappedValues (r : GcRef .table) : ℕ → List Val → SecretM Unit
  | _, [] => pure ()
  | i, v :: vs => do
    let v ← wrapTableValue r v
    update r invalidTable fun t _ => some (t.setArray i v, .ok ())
    writeWrappedValues r (i + 1) vs

def writeSetlistArrayValues (r : GcRef .table) (offset : ℕ) (values : List Val) : SecretM Unit := do
  ensureTableNotFrozen r
  if (← Act.get).tableWrapsContents r then writeWrappedValues r offset values
  else update r invalidTable fun t _ => some (t.setArraySlots offset values, .ok ())
  barrierBack r

/-- `SETLIST` with the operand `c`. -/
def opSetList (secure : Bool) (table : Val) (values : List Val) (c : ℕ) : SecretM Unit := do
  match table with
  | .table r =>
    checkTableAccess secure r none
    let offset := (c - 1) * lfieldsPerFlush
    let last := offset + values.length
    let grown ← update r invalidTable fun t _ =>
      let t' := t.ensureArrayCapacity last
      some (t', .ok (t'.estimatedMemory - t.estimatedMemory))
    onGc fun g => g.trackAlloc grown
    let s ← Act.get
    if s.gc.gcState.totalBytes > s.gc.gcState.allocLimit then Act.fail ⟨"not enough memory"⟩
    else writeSetlistArrayValues r offset values
  | _ => Act.fail ⟨"attempt to index a " ++ table.typeName ++ " value"⟩

/-! ### Stores that do not wrap -/

/-- The swap of `table.sort`. Where a key lies in the hash part, the values that were read earlier are stored. -/
def swapSortValues (secure : Bool) (r : GcRef .table) (leftIdx : ℤ) (leftVal : Val) (rightIdx : ℤ) (rightVal : Val) :
    SecretM Unit := do
  checkTableAccess secure r none
  if TableM.isReadOnly (← Act.get).gc r then Act.fail ⟨"attempt to modify a read-only table"⟩
  else if leftIdx = rightIdx then pure ()
  else
    let swapped ← update r ⟨"table not found"⟩ fun t _ =>
      (t.swapExisting leftIdx leftVal rightIdx rightVal).map fun (t, swapped) => (t, .ok swapped)
    if swapped then pure ()
    else
      setRaw secure r leftIdx rightVal
      setRaw secure r rightIdx leftVal

/-- `set_field` of the package library, which also stands for its other stores under a name. -/
def setField (r : GcRef .table) (key value : Val) : SecretM Unit :=
  rawSet r key value ⟨"package: table not found"⟩

/-- `set_global_val`. -/
def setGlobalVal (secure : Bool) (global : GcRef .table) (key value : Val) : SecretM Unit := do
  checkTableAccess secure global (some key)
  rawSet global key value ⟨"global table not found"⟩

/-! ### Reads -/

/-- `rawget`, and the read of the handles. -/
def luaRawget (secure : Bool) (r : GcRef .table) (key : Val) : SecretM Val := do
  checkTableAccess secure r (some key)
  let s ← Act.get
  match s.gc.heap.get r with
  | some t => Act.ofOption (t.get key s.gc.heap.strings)
  | none => pure .nil

/-- The read of the table library and of `unpack`. -/
def getRaw (secure : Bool) (r : GcRef .table) (idx : ℤ) : SecretM Val := do
  checkTableAccess secure r none
  match (← Act.get).gc.heap.get r with
  | some t => Act.ofOption (t.getInt idx)
  | none => pure .nil

/-- `next`. -/
def luaNext (secure : Bool) (r : GcRef .table) (key : Val) : SecretM (Option (Val × Val)) := do
  checkTableAccess secure r (some key)
  let t ← read r (badArgument "next" 1 "invalid table")
  Act.attempt fun s => (t.next key s.gc.heap.strings).map fun res => (s, res)

/-- What a step along `__index` comes to. -/
inductive GettableStep where
  | done (v : Val)
  /-- The read goes on with the value of `__index`. -/
  | next (v : Val)
  /-- The `__index` function of `current` is called. -/
  | call (tm current : Val)

def resolveGettableTm (current : Val) : Option Val → GettableStep
  | none => .done .nil
  | some (.function f) => .call (.function f) current
  | some v => .next v

/-- One step of `vm_gettable`, and without the check of `resolve_gettable_chain`. -/
def gettableStep (checked secure : Bool) (current key : Val) : SecretM GettableStep := do
  match current with
  | .table r =>
    if checked then checkTableAccess secure r (some key)
    let t ← read r invalidTable
    let s ← Act.get
    let result ← Act.ofOption (t.get key s.gc.heap.strings)
    if ¬ result.isNil then pure (.done result)
    else pure (resolveGettableTm current (t.metatable.bind fun mt => s.gc.fasttm mt .index))
  | _ =>
    match (← Act.get).gc.gettmbyobj current .index with
    | some tm => pure (resolveGettableTm current (some tm))
    | none => Act.fail ⟨"attempt to index a " ++ current.typeName ++ " value"⟩

/-- Resolves a wrapped table for indexing, if the caller may unwrap secrets. -/
def checkedSecretTableRead (canAccessSecrets : Bool) (value : Val) : SecretM Val := do
  match (← Act.get).payload value with
  | some (.table r) =>
    if canAccessSecrets then pure (.table r)
    else Act.fail ⟨"secret access requires an untainted caller without revoked access"⟩
  | _ => pure value

/-- The result of a read, or the `__index` function that is to be called for it. -/
inductive ReadResult where
  | value (v : Val)
  | call (tm current : Val) (contentsSecret : Bool)

/-- The loop of `vm_gettable` and of `resolve_gettable_chain`. -/
def gettableLoop (checked secure canAccessSecrets : Bool) (key : Val) : ℕ → Val → Bool → SecretM ReadResult
  | 0, _, _ => Act.fail ⟨"loop in gettable"⟩
  | n + 1, current, contentsSecret => do
    let current ← checkedSecretTableRead canAccessSecrets current
    let s ← Act.get
    let contentsSecret := contentsSecret || s.valueWrapsContents current
    match ← gettableStep checked secure current key with
    | .done v => do
      let v ← wrapContentsResult v contentsSecret
      pure (.value v)
    | .call tm current => pure (.call tm current contentsSecret)
    | .next v => gettableLoop checked secure canAccessSecrets key n v contentsSecret

def vmGettable (secure canAccessSecrets : Bool) (t key : Val) : SecretM ReadResult :=
  gettableLoop true secure canAccessSecrets key TableM.maxTagLoop t false

/-- `LuaState::gettable`, of `gsub`. -/
def gettable (canAccessSecrets : Bool) (t key : Val) : SecretM ReadResult :=
  gettableLoop false false canAccessSecrets key TableM.maxTagLoop t false

/-- The fast path of the index opcodes. -/
def tryPlainTableGet (secure : Bool) (t key : Val) : SecretM (Option Val) :=
  match t with
  | .table r => fun s =>
    match checkTableAccess secure r (some key) s, s.gc.heap.get r with
    | some (_, _, .ok ()), some t =>
      (t.get key s.gc.heap.strings).map fun result =>
        (s, [], .ok (if result.isNil && t.metatable.isSome then none else some result))
    | _, _ => some (s, [], .ok none)
  | _ => pure none

/-- `GETTABLE`, and `GETGLOBAL` with the environment as the table. -/
def opGetTable (secure canAccessSecrets : Bool) (t key : Val) : SecretM ReadResult := do
  match ← tryPlainTableGet secure t key with
  | some v => pure (.value v)
  | none => vmGettable secure canAccessSecrets t key

/-- Whether a table has neither an array part nor a hash part. -/
def isEmptyTable (t : Table) : Bool := t.array.length == 0 && t.hashSize == 0

/-- `GETGLOBAL_SLOT`. `snapshot` is the captured value of the slot, and `shadow` the table with newer values. -/
def opGetGlobalSlot (secure canAccessSecrets : Bool) (slotIdx : ℕ) (env rootGlobal : GcRef .table) (snapshot : Val)
    (shadow : Option (GcRef .table)) (key : Val) : SecretM ReadResult := do
  if env ≠ rootGlobal then opGetTable secure canAccessSecrets (.table env) key
  else do
    checkTableAccess secure rootGlobal (some key)
    if slotIdx = 0 then do
      let v ← wrapTableValue rootGlobal snapshot
      pure (.value v)
    else
      match shadow with
      | none => opGetTable secure canAccessSecrets (.table rootGlobal) key
      | some live => do
        checkTableAccess secure live (some key)
        let s ← Act.get
        let liveVal ← match s.gc.heap.get live with
          | some t => if isEmptyTable t then pure .nil else Act.ofOption (t.get key s.gc.heap.strings)
          | none => pure .nil
        let v ← wrapTableValue rootGlobal (if liveVal.isNil then snapshot else liveVal)
        pure (.value v)

end SecretM

end Rilua.Vm
