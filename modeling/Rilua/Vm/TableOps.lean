import Rilua.Lib.Act
import Rilua.Vm.Call
import Rilua.Vm.Gc.Collector
import Rilua.Vm.TableLen

/-! What Lua code can do to a table: assignments (`vm/execute/runtime_ops.rs`), `SETLIST`, and the library
    functions that store into tables or set metatables. Each computation says which tables it is about to
    write to. Arguments are given as values. The access policies of `table_security` and taint are left
    out. -/

namespace Rilua.Vm

open Lib Gc

/-- Computations on the heap that fail with a Lua error. -/
abbrev TableM (α : Type) : Type := Act Gc (GcRef .table) LuaError α

namespace Table

/-! ### Stores that do not look at the key's type -/

/-- Swaps the values of two integer keys that are there. -/
def swapExisting (t : Table) (left : ℤ) (leftVal : Val) (right : ℤ) (rightVal : Val) : Option (Table × Bool) :=
  match t.swapArrayInts left right with
  | some t => some (t, true)
  | none => do
    let (t, found) ← t.setIntExisting left rightVal
    if found then t.setIntExisting right leftVal else some (t, false)

/-- Sets or clears the metatable. -/
def setMetatable (t : Table) (mt : Option (GcRef .table)) : Table := { t with metatable := mt, flags := 0 }

end Table

/-- `fasttm`: the cache of absent metamethods only has the first five events. -/
def Gc.fasttm (g : Gc) (mt : GcRef .table) (event : TMS) : Option Val := do
  let t ← g.heap.get mt
  let bit := event.ctorIdx
  if bit ≤ TMS.eq.ctorIdx ∧ (Table.flags t).toNat.testBit bit then none
  else
    let name ← g.tmNames[bit]?.join
    let v ← Table.getStr t name g.heap.strings
    if v.isNil then none else some v

def Userdata.withMetatable (ud : Userdata) (mt : Option (GcRef .table)) : Userdata := { ud with metatable := mt }

def Val.typeName : Val → String
  | .nil => "nil"
  | .bool _ => "boolean"
  | .num _ => "number"
  | .str _ => "string"
  | .table _ => "table"
  | .function _ => "function"
  | .userdata _ | .lightUserdata _ => "userdata"
  | .thread _ => "thread"

def badArgument (name : String) (n : ℕ) (msg : String) : LuaError :=
  ⟨"bad argument #" ++ toString n ++ " to '" ++ name ++ "' (" ++ msg ++ ")"⟩

/-- Argument `n`, counted from 0. -/
def argOf (args : List Val) (n : ℕ) : Val := args[n]?.getD .nil

namespace TableM

/-! ### Access -/

/-- The table at a reference. -/
def read (r : GcRef .table) (missing : LuaError) : TableM Table := do
  match (← Act.get).heap.get r with
  | some t => pure t
  | none => Act.fail missing

/-- Changes the table at a reference. -/
def update {α : Type} (r : GcRef .table) (missing : LuaError)
    (f : Table → StringArena → Option (TableResult α)) : TableM α :=
  Act.attempt fun g =>
    match g.heap.get r with
    | some t => (f t g.heap.strings).map fun (t, res) => (g.modify r fun _ => t, res)
    | none => some (g, .error missing)

def rawSet (r : GcRef .table) (key value : Val) (missing : LuaError) : TableM Unit :=
  update r missing fun t strings => t.rawSet key value strings

def internString (data : List UInt8) : TableM (GcRef .string) := Act.lift fun g => g.internString data

def internStringStatic (key : ℕ) (data : List UInt8) : TableM (GcRef .string) :=
  Act.lift fun g => g.internStringStatic key data

def allocTable (t : Table) : TableM (GcRef .table) := Act.lift fun g => g.allocTable t

def barrierBack (r : GcRef .table) : TableM Unit := Act.modify fun g => g.barrierBack r

/-- `check_table_access` without the policies: the table must be there. -/
def checkTableAccess (r : GcRef .table) : TableM Unit := do
  let _ ← read r ⟨"table has been collected"⟩

/-- `tables.get(r).is_some_and(Table::is_read_only)`. -/
def isReadOnly (g : Gc) (r : GcRef .table) : Bool := (g.heap.get r).any Table.readOnly

def isFrozen (g : Gc) (r : GcRef .table) : Bool := g.heap.hasFlag ⟨.table, r⟩ .frozen

/-- The gate of table writes. -/
def ensureTableNotFrozen (r : GcRef .table) : TableM Unit := do
  let g ← Act.get
  if isFrozen g r then Act.fail ⟨"attempt to modify a frozen table"⟩
  else if isReadOnly g r then Act.fail ⟨"attempt to modify a read-only table"⟩
  else pure ()

/-! ### Assignment -/

def invalidTable : LuaError := ⟨"invalid table reference"⟩

/-- Raw assignment with memory tracking. -/
def tableSet (r : GcRef .table) (key value : Val) : TableM Unit :=
  Act.writing r do
    checkTableAccess r
    ensureTableNotFrozen r
    let memoryDelta ← update r invalidTable fun t strings => t.rawSetWithMemoryDelta key value strings
    Act.modify fun g => g.trackAlloc memoryDelta
    let g ← Act.get
    if g.gcState.totalBytes > g.gcState.allocLimit then Act.fail ⟨"not enough memory"⟩
    else barrierBack r

/-- What a step of an assignment comes to. -/
inductive SettableStep where
  | done
  /-- The assignment goes on with the value of `__newindex`. -/
  | next (v : Val)
  /-- The `__newindex` function of `current` is called. -/
  | call (tm current : Val)

def resolveSettableTm (current tmVal : Val) : SettableStep :=
  match tmVal with
  | .function _ => .call tmVal current
  | _ => .next tmVal

def handleTableSettable (r : GcRef .table) (key value : Val) : TableM SettableStep := do
  checkTableAccess r
  let t ← read r invalidTable
  if t.metatable.isNone then
    tableSet r key value
    pure .done
  else
    let g ← Act.get
    let existing ← Act.ofOption (t.get key g.heap.strings)
    if ¬ existing.isNil then
      Act.writing r do
        ensureTableNotFrozen r
        rawSet r key value invalidTable
        barrierBack r
      pure .done
    else
      match t.metatable.bind fun mt => g.fasttm mt .newIndex with
      | none =>
        Act.writing r (ensureTableNotFrozen r)
        tableSet r key value
        pure .done
      | some tmVal => pure (resolveSettableTm (.table r) tmVal)

def settableStep (current key value : Val) : TableM SettableStep :=
  match current with
  | .table r => handleTableSettable r key value
  | _ => do
    match (← Act.get).gettmbyobj current .newIndex with
    | some tmVal => pure (resolveSettableTm current tmVal)
    | none => Act.fail ⟨"attempt to index a " ++ current.typeName ++ " value"⟩

def maxTagLoop : ℕ := 100

/-- The loop of `vm_settable`. The result is a `__newindex` function to call and what it is called with. -/
def settableLoop (key value : Val) : ℕ → Val → TableM (Option (Val × Val))
  | 0, _ => Act.fail ⟨"loop in settable"⟩
  | n + 1, current => do
    match ← settableStep current key value with
    | .done => pure none
    | .call tm current => pure (some (tm, current))
    | .next v => settableLoop key value n v

/-- Assignment with `__newindex`, of `SETTABLE`, `SETGLOBAL` and `SETGLOBAL_SLOT`. -/
def vmSettable (t key value : Val) : TableM (Option (Val × Val)) := settableLoop key value maxTagLoop t

/-- `SETLIST` with the operand `c`. -/
def opSetList (table : Val) (values : List Val) (c : ℕ) : TableM Unit := do
  match table with
  | .table r =>
    Act.writing r do
      checkTableAccess r
      let offset := (c - 1) * lfieldsPerFlush
      let last := offset + values.length
      let grown ← update r invalidTable fun t _ =>
        let t' := t.ensureArrayCapacity last
        some (t', .ok (t'.estimatedMemory - t.estimatedMemory))
      Act.modify fun g => g.trackAlloc grown
      let g ← Act.get
      if g.gcState.totalBytes > g.gcState.allocLimit then Act.fail ⟨"not enough memory"⟩
      else
        ensureTableNotFrozen r
        update r invalidTable fun t _ => some (t.setArraySlots offset values, .ok ())
        barrierBack r
  | _ => Act.fail ⟨"attempt to index a " ++ table.typeName ++ " value"⟩

/-! ### Base library -/

/-- `rawset`. -/
def luaRawset (args : List Val) : TableM Val := do
  if args.length < 3 then Act.fail (badArgument "rawset" 3 "value expected")
  else
    match argOf args 0 with
    | .table r =>
      Act.writing r do
        checkTableAccess r
        if isFrozen (← Act.get) r then Act.fail ⟨"attempt to modify a frozen table"⟩
        else
          rawSet r (argOf args 1) (argOf args 2) (badArgument "rawset" 1 "invalid table")
          barrierBack r
          pure (.table r)
    | _ => Act.fail (badArgument "rawset" 1 "table expected")

/-- The metatable an argument stands for. -/
def metatableArg : Val → Option (Option (GcRef .table))
  | .nil => some none
  | .table r => some (some r)
  | _ => none

/-- Address of the literal `__metatable`. -/
def metatableLiteral : ℕ := 0

/-- Whether the metatable has a `__metatable` field. -/
def hasProtection (existing : Option (GcRef .table)) : TableM Bool :=
  match existing with
  | none => pure false
  | some mt => do
    let key ← internStringStatic metatableLiteral "__metatable".toUTF8.data.toList
    let g ← Act.get
    match g.heap.get mt with
    | none => pure false
    | some t => do
      let v ← Act.ofOption (Table.getStr t key g.heap.strings)
      pure (!v.isNil)

/-- `setmetatable`. -/
def luaSetmetatable (args : List Val) : TableM Val := do
  if args.length < 2 then Act.fail (badArgument "setmetatable" 2 "value expected")
  else
    match argOf args 0 with
    | .table r =>
      Act.writing r do
        checkTableAccess r
        if isReadOnly (← Act.get) r then Act.fail ⟨"attempt to modify a read-only table"⟩
        else
          match metatableArg (argOf args 1) with
          | none => Act.fail (badArgument "setmetatable" 2 "nil or table expected")
          | some mt =>
            if ← hasProtection (((← Act.get).heap.get r).bind Table.metatable) then
              Act.fail ⟨"cannot change a protected metatable"⟩
            else
              Act.modify fun g => g.modify r fun t => Table.setMetatable t mt
              barrierBack r
              pure (.table r)
    | _ => Act.fail (badArgument "setmetatable" 1 "table expected")

/-- `debug.setmetatable`. -/
def dbSetmetatable (args : List Val) : TableM Unit := do
  if args.length < 2 then Act.fail (badArgument "setmetatable" 2 "nil or table expected")
  else
    match argOf args 0, metatableArg (argOf args 1) with
    | _, none => Act.fail (badArgument "setmetatable" 2 "nil or table expected")
    | .table r, some mt =>
      Act.writing r (update r ⟨"table not found"⟩ fun t _ => some (t.setMetatable mt, .ok ()))
    | .userdata r, some mt =>
      match (← Act.get).heap.get r with
      | some _ => Act.modify fun g => g.modify r fun ud => Userdata.withMetatable ud mt
      | none => Act.fail ⟨"userdata not found"⟩
    | obj, some mt => Act.modify fun g => { g with typeMetatables := g.typeMetatables.set (typeTag obj) mt }

/-! ### Table library -/

def checkTable (name : String) (v : Val) : TableM (GcRef .table) :=
  match v with
  | .table r => do
    checkTableAccess r
    pure r
  | _ => Act.fail (badArgument name 1 "table expected")

def getRaw (r : GcRef .table) (idx : ℤ) : TableM Val := do
  checkTableAccess r
  match (← Act.get).heap.get r with
  | some t => Act.ofOption (Table.getInt t idx)
  | none => pure .nil

def setRaw (r : GcRef .table) (idx : ℤ) (v : Val) : TableM Unit :=
  Act.writing r do
    checkTableAccess r
    rawSet r (.num (F64.ofInt idx)) v ⟨"table not found"⟩

def tableLen (r : GcRef .table) : TableM ℤ := do
  checkTableAccess r
  let g ← Act.get
  match g.heap.get r with
  | some t => do
    let n ← Act.ofOption (Table.len t g.heap.strings)
    pure n
  | none => pure 0

def numberArg (name : String) (n : ℕ) (v : Val) : TableM ℤ :=
  match v with
  | .num x => pure x.toI64
  | _ => Act.fail (badArgument name n "number expected")

/-- Moves the element below `idx` up to `idx`, and so on, `n` times. -/
def shiftElementsUp (r : GcRef .table) : ℕ → ℤ → TableM Unit
  | 0, _ => pure ()
  | n + 1, idx => do
    let v ← getRaw r (idx - 1)
    setRaw r idx v
    shiftElementsUp r n (idx - 1)

/-- `table.insert`. -/
def tabInsert (args : List Val) : TableM Unit := do
  let r ← checkTable "insert" (argOf args 0)
  let e := (← tableLen r) + 1
  match args.length with
  | 2 =>
    setRaw r e (argOf args 1)
    barrierBack r
  | 3 => do
    let pos ← numberArg "insert" 2 (argOf args 1)
    let top := if pos > e then pos else e
    shiftElementsUp r (top - pos).toNat top
    setRaw r pos (argOf args 2)
    barrierBack r
  | _ => Act.fail ⟨"wrong number of arguments to 'insert'"⟩

/-- Moves the element above `p` down to `p`, and so on, `n` times. -/
def shiftElementsDown (r : GcRef .table) : ℕ → ℤ → TableM Unit
  | 0, _ => pure ()
  | n + 1, p => do
    let v ← getRaw r (p + 1)
    setRaw r p v
    shiftElementsDown r n (p + 1)

/-- `table.remove`. -/
def tabRemove (args : List Val) : TableM (Option Val) := do
  let r ← checkTable "remove" (argOf args 0)
  let e ← tableLen r
  if e = 0 then pure none
  else
    let pos ← match argOf args 1 with
      | .nil => pure e
      | v => numberArg "remove" 2 v
    let removed ← getRaw r pos
    shiftElementsDown r (e - pos).toNat pos
    setRaw r e .nil
    barrierBack r
    pure (some removed)

/-- `swap_sort_values`: what `table.sort` does to its table between comparisons. -/
def swapSortValues (r : GcRef .table) (leftIdx : ℤ) (leftVal : Val) (rightIdx : ℤ) (rightVal : Val) :
    TableM Unit := do
  checkTableAccess r
  if isReadOnly (← Act.get) r then Act.fail ⟨"attempt to modify a read-only table"⟩
  else if leftIdx = rightIdx then pure ()
  else
    Act.writing r do
      let swapped ← update r ⟨"table not found"⟩ fun t _ =>
        (t.swapExisting leftIdx leftVal rightIdx rightVal).map fun (t, swapped) => (t, .ok swapped)
      if swapped then pure ()
      else
        setRaw r leftIdx rightVal
        setRaw r rightIdx leftVal

/-! ### Package library -/

/-- `get_field`. -/
def getField (r : GcRef .table) (key : List UInt8) : TableM Val := do
  let k ← internString key
  let g ← Act.get
  match g.heap.get r with
  | some t => Act.ofOption (Table.getStr t k g.heap.strings)
  | none => pure .nil

/-- `set_field`, which also stands for every other store of a library function under a name. -/
def setField (r : GcRef .table) (key : List UInt8) (v : Val) : TableM Unit := do
  let k ← internString key
  Act.writing r (rawSet r (.str k) v ⟨"package: table not found"⟩)

/-- The value of a field of a table that must be there. -/
def readField (r : GcRef .table) (key : List UInt8) (missing : LuaError) : TableM Val := do
  let k ← internString key
  let t ← read r missing
  Act.ofOption (t.get (.str k) (← Act.get).heap.strings)

/-- `find_or_create_table`: follows a path of names, creating what is missing. -/
def findOrCreateTable : GcRef .table → List (List UInt8) → TableM (GcRef .table)
  | current, [] => pure current
  | current, part :: parts => do
    match ← readField current part ⟨"package: table not found in find_or_create_table"⟩ with
    | .table t => findOrCreateTable t parts
    | .nil => do
      let newTable ← allocTable {}
      setField current part (.table newTable)
      findOrCreateTable newTable parts
    | _ => Act.fail ⟨"name conflict for module"⟩

/-- The parts of a name between dots. -/
def splitDots (name : List UInt8) : List (List UInt8) := name.splitOn 46

/-- The part of a name up to the last dot. -/
def packageName (name : List UInt8) : List UInt8 := (name.reverse.dropWhile (· ≠ 46)).reverse

def utf8 (s : String) : List UInt8 := s.toUTF8.data.toList

/-- The first half of `module`: the table of the module, from `package.loaded` or from the globals. -/
def moduleTable (pkg global : GcRef .table) (name : List UInt8) : TableM (GcRef .table) := do
  match ← getField pkg (utf8 "loaded") with
  | .table loaded => do
    match ← readField loaded name ⟨"package.loaded table not found"⟩ with
    | .table t => pure t
    | _ => do
      let t ← findOrCreateTable global (splitDots name)
      setField loaded name (.table t)
      pure t
  | _ => Act.fail ⟨"'package.loaded' must be a table"⟩

/-- Sets the environment of the function that called `module`, if it is a Lua function. -/
def setCallerEnv (caller : Option (GcRef .closure)) (t : GcRef .table) : TableM Unit :=
  match caller with
  | some cl => Act.modify fun g => g.modify cl fun
    | .lua cl => Closure.lua { cl with env := t }
    | cl => cl
  | none => pure ()

/-- The second half of `module`: the fields of a new module, and the environment of the caller. -/
def initModule (t : GcRef .table) (name : List UInt8) (caller : Option (GcRef .closure)) : TableM Unit := do
  let existing ← readField t (utf8 "_NAME") ⟨"module table not found"⟩
  if existing.isNil then
    setField t (utf8 "_M") (.table t)
    let nameStr ← internString name
    setField t (utf8 "_NAME") (.str nameStr)
    let pkgStr ← internString (packageName name)
    setField t (utf8 "_PACKAGE") (.str pkgStr)
  setCallerEnv caller t

/-- `module` up to the option functions. -/
def llModule (pkg global : GcRef .table) (name : List UInt8) (caller : Option (GcRef .closure)) :
    TableM (GcRef .table) := do
  let t ← moduleTable pkg global name
  initModule t name caller
  pure t

/-- `package.seeall`. -/
def llSeeall (global : GcRef .table) (args : List Val) : TableM Unit := do
  match argOf args 0 with
  | .table r => do
    let t ← read r ⟨"package.seeall: table not found"⟩
    let mt ← match t.metatable with
      | some mt => pure mt
      | none => do
        let mt ← allocTable {}
        Act.writing r (update r ⟨"package.seeall: table not found"⟩ fun t _ =>
          some (t.setMetatable (some mt), .ok ()))
        pure mt
    setField mt (utf8 "__index") (.table global)
  | _ => Act.fail (badArgument "package.seeall" 1 "table expected")

end TableM

end Rilua.Vm
