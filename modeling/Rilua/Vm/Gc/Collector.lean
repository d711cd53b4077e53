import Rilua.Vm.State

/-! The incremental mark-sweep collector (`gc/collector.rs`): marking, propagation, the atomic phase, the
    sweep and the write barriers. A cycle goes through the phases
    `pause → propagate → sweepString → sweep → finalize → pause`, one unit of work at a time. -/

namespace Rilua.Vm

open Gc

namespace Gc

/-! ### Marking -/

/-- Marks a string: black at once, strings have no children. -/
def markString (g : Gc) (r : GcRef .string) : Gc :=
  { g with heap := (g.heap.markWhiteUnfrozen ⟨_, r⟩ .black).1 }

/-- Marks an object that has to be traversed: white to gray, pushed on the gray list. -/
def markGray (g : Gc) (o : ObjRef) (item : GrayItem) : Gc :=
  let (heap, marked) := g.heap.markWhiteUnfrozen o .gray
  if marked then { g with heap, gcState := { g.gcState with gray := item :: g.gcState.gray } } else g

def markTable (g : Gc) (r : GcRef .table) : Gc := g.markGray ⟨_, r⟩ (.table r)

def markClosure (g : Gc) (r : GcRef .closure) : Gc := g.markGray ⟨_, r⟩ (.closure r)

def markThread (g : Gc) (r : GcRef .thread) : Gc := g.markGray ⟨_, r⟩ (.thread r)

def markTable? (g : Gc) : Option (GcRef .table) → Gc
  | some r => g.markTable r
  | none => g

/-- `mark_value`. A userdata goes black at once and its metatable, environment and secret value are
    marked with it; the secret may be a userdata again, so each round uses up one unit of fuel. -/
def markValueFuel : ℕ → Gc → Val → Gc
  | _, g, .str r => g.markString r
  | _, g, .table r => g.markTable r
  | _, g, .function r => g.markClosure r
  | _, g, .thread r => g.markThread r
  | 0, g, .userdata _ => g
  | fuel + 1, g, .userdata r =>
    let (heap, marked) := g.heap.markWhiteUnfrozen ⟨_, r⟩ .black
    if marked then
      match heap.get r with
      | some ud =>
        let ud : Userdata := ud
        let g := ({ g with heap }.markTable? ud.metatable).markTable? ud.env
        match ud.secretValue with
        | some v => markValueFuel fuel g v
        | none => g
      | none => { g with heap }
    else g
  | _, g, .nil | _, g, .bool _ | _, g, .num _ | _, g, .lightUserdata _ => g

/-- Marks a value if it is collectable. Each round of the recursion blackens a white userdata. -/
def markValue (g : Gc) (v : Val) : Gc :=
  markValueFuel ((g.heap.arena .userdata).entries.length + 1) g v

def markValues (g : Gc) (vs : List Val) : Gc := vs.foldl markValue g

/-- Marks an upvalue: black at once, with the stored value if it is closed. -/
def markUpvalue (g : Gc) (r : GcRef .upvalue) : Gc :=
  let (heap, marked) := g.heap.markWhiteUnfrozen ⟨_, r⟩ .black
  if marked then
    match heap.get r with
    | some ⟨.closed v⟩ => { g with heap }.markValue v
    | _ => { g with heap }
  else g

def markUpvalues (g : Gc) (rs : List (GcRef .upvalue)) : Gc := rs.foldl markUpvalue g

/-- Marks the roots the heap keeps itself: type metatables, metamethod names, type names and the cache
    of static strings. -/
def markGcRoots (g : Gc) : Gc :=
  let g := g.typeMetatables.foldl markTable? g
  let g := (g.tmNames.filterMap id).foldl markString g
  let g := (g.typeNameRefs.filterMap id).foldl markString g
  (g.staticInternCache.map Prod.snd).foldl markString g

/-! ### Propagation -/

/-- The string with the given content: a metamethod name, or any string of the arena. -/
def findInternedString (g : Gc) (name : List UInt8) : Option (GcRef .string) :=
  match (g.tmNames.filterMap id).find? fun r => (g.heap.get r).any fun s => LuaString.data s == name with
  | some r => some r
  | none => ((g.heap.arena .string).iter.find? fun e => e.2.1.data == name).map Prod.fst

/-- The raw value of a metafield. A lookup in a table the machine has built returns. -/
def metafield (g : Gc) (mt : GcRef .table) (name : List UInt8) : Val :=
  match g.heap.get mt, g.findInternedString name with
  | some t, some key => (Table.get t (.str key) (g.heap.arena .string)).getD .nil
  | _, _ => .nil

def modeName : List UInt8 := "__mode".toUTF8.data.toList

def gcName : List UInt8 := "__gc".toUTF8.data.toList

/-- `(weak_keys, weak_values)` for the `__mode` metafield of a metatable. -/
def checkWeakMode (g : Gc) (mt : Option (GcRef .table)) : Bool × Bool :=
  match mt.map fun mt => g.metafield mt modeName with
  | some (.str s) =>
    match g.heap.get s with
    | some ls => (LuaString.data ls |>.contains 107, LuaString.data ls |>.contains 118)
    | none => (false, false)
  | _ => (false, false)

/-- The keys and values of a table's live nodes that are strong. -/
def hashMarkValues (t : Table) (weakKeys weakValues : Bool) : List Val :=
  t.nodes.flatMap fun n =>
    if n.key.isNil || n.value.isNil then []
    else (if weakKeys then [] else [n.key]) ++ (if weakValues then [] else [n.value])

/-- Traverses a gray table. A frozen or skip-traverse table goes black without its children. -/
def traverseTable (g : Gc) (r : GcRef .table) : Gc :=
  if (g.heap.arena .table).isSkipTraverseOrFrozen r then
    { g with heap := g.heap.setColor ⟨_, r⟩ .black }
  else
    match g.heap.get r with
    | none => g
    | some t =>
      let t : Table := t
      let (weakKeys, weakValues) := g.checkWeakMode t.metatable
      let g := { g with heap := g.heap.setColor ⟨_, r⟩ .black }
      let g := g.markTable? t.metatable
      let g := if weakKeys || weakValues then
          { g with gcState := { g.gcState with weakTables := g.gcState.weakTables ++ [r] } }
        else g
      if weakKeys && weakValues then g
      else
        let g := if weakValues then g else g.markValues t.array
        g.markValues (hashMarkValues t weakKeys weakValues)

/-- Traverses a gray closure: environment, upvalues and the constants of its prototype. -/
def traverseClosure (g : Gc) (r : GcRef .closure) : Gc :=
  match g.heap.get r with
  | none => g
  | some cl =>
    let g := { g with heap := g.heap.setColor ⟨_, r⟩ .black }
    match cl with
    | .lua cl =>
      ((g.markTable cl.env).markUpvalues cl.upvalues).markValues cl.proto.allConstants
    | .rust cl => (g.markTable? cl.env).markValues cl.upvalues

/-- What `traverse_thread` and the atomic phase both mark of a coroutine. -/
def markThreadStack (g : Gc) (t : LuaThread) : Gc :=
  ((g.markValues t.liveStack).markUpvalues t.openUpvalues).markUpvalues (t.suspendedUpvals.map Prod.fst)

/-- Traverses a gray coroutine, and keeps it for the atomic phase. -/
def traverseThread (g : Gc) (r : GcRef .thread) : Gc :=
  match g.heap.get r with
  | none => g
  | some t =>
    let t : LuaThread := t
    let g := { g with heap := g.heap.setColor ⟨_, r⟩ .black }
    let g := ((g.markTable t.global).markValue t.hookFunc).markThreadStack t
    { g with gcState := { g.gcState with grayagain := g.gcState.grayagain ++ [.thread r] } }

/-- Result of `propagate_one`. -/
inductive PropagateResult where
  | done (g : Gc)
  | needMainThread (g : Gc)
  | empty

/-- Traverses the object on top of the gray list. -/
def propagateOne (g : Gc) : PropagateResult :=
  match g.gcState.gray with
  | [] => .empty
  | item :: gray =>
    let g := { g with gcState := { g.gcState with gray } }
    match item with
    | .table r => .done (g.traverseTable r)
    | .closure r => .done (g.traverseClosure r)
    | .thread r => .done (g.traverseThread r)
    | .mainThread => .needMainThread g

/-- A bound on the number of objects still to be traversed. -/
def work (g : Gc) : ℕ :=
  g.gcState.gray.length + (g.heap.arena .table).entries.length +
    (g.heap.arena .closure).entries.length + (g.heap.arena .thread).entries.length

def propagateAllFuel : ℕ → Gc → Gc
  | 0, g => g
  | fuel + 1, g =>
    match g.propagateOne with
    | .done g => propagateAllFuel fuel g
    | .needMainThread g => propagateAllFuel fuel g
    | .empty => g

/-- Traverses gray objects until there are none: an object is traversed at most once after it turned
    gray, so the number of rounds is bounded. -/
def propagateAll (g : Gc) : Gc := propagateAllFuel g.work g

/-! ### Atomic phase -/

/-- Traverses one object of the `grayagain` list again. -/
def retraverse (g : Gc) : GrayItem → Gc
  | .thread r =>
    match g.heap.get r with
    | none => g
    | some t =>
      let t : LuaThread := t
      ({ g with heap := g.heap.setColor ⟨_, r⟩ .black }.markTable t.global).markThreadStack t
  | .table r => { g with heap := g.heap.setColor ⟨_, r⟩ .gray }.traverseTable r
  | .closure r => { g with heap := g.heap.setColor ⟨_, r⟩ .gray }.traverseClosure r
  | .mainThread => g

/-- Whether a metatable has a `__gc` field. -/
def hasGcMetamethod (g : Gc) (mt : GcRef .table) : Bool := !(g.metafield mt gcName).isNil

/-- Whether `separate_userdata` picks a userdata: it has the colour of unmarked objects, has not been
    finalized and has a `__gc` metamethod. -/
def isDue (g : Gc) (e : GcRef .userdata × Userdata × Color) : Bool :=
  e.2.2 == g.currentWhite && !e.2.1.finalized && e.2.1.metatable.any g.hasGcMetamethod

/-- The allocation number of a userdata. -/
def allocSeq (g : Gc) (r : GcRef .userdata) : ℕ := ((g.heap.get r).map Userdata.allocSeq).getD 0

/-- The userdata to finalize, oldest first. -/
def toFinalize (g : Gc) : List (GcRef .userdata) :=
  (((g.heap.arena .userdata).iter.filter g.isDue).map Prod.fst).insertionSort fun a b =>
    g.allocSeq a ≤ g.allocSeq b

/-- Moves a userdata to `tmudata`. -/
def separate (g : Gc) (r : GcRef .userdata) : Gc :=
  let heap := (g.heap.modify r fun ud : Userdata => { ud with finalized := true }).setColor ⟨_, r⟩ .gray
  { g with heap, gcState := { g.gcState with tmudata := g.gcState.tmudata ++ [r] } }

/-- Separates dead userdata with `__gc` metamethods. -/
def separateUserdata (g : Gc) : Gc := g.toFinalize.foldl separate g

/-- Marks a userdata of `tmudata` and what it holds. -/
def markTm (g : Gc) (r : GcRef .userdata) : Gc :=
  match g.heap.get r with
  | none => g
  | some ud =>
    let ud : Userdata := ud
    let g := { g with heap := g.heap.setColor ⟨_, r⟩ .black }
    let g := (g.markTable? ud.metatable).markTable? ud.env
    match ud.secretValue with
    | some v => g.markValue v
    | none => g

def markTmudata (g : Gc) : Gc := g.gcState.tmudata.foldl markTm g

/-- The values in a table, of absent entries too. -/
def entryValues (t : Table) : List Val :=
  t.array ++ t.nodes.flatMap fun n => if n.key.isNil then [] else [n.key, n.value]

/-- Recolours the string a value refers to in the current white. -/
def keepString (g : Gc) : Val → Gc
  | .str s => { g with heap := g.heap.setColor ⟨_, s⟩ g.currentWhite }
  | _ => g

/-- Keeps the strings of a weak table: they are never cleared. -/
def keepStrings (g : Gc) (r : GcRef .table) : Gc :=
  match g.heap.get r with
  | some t => (entryValues t).foldl keepString g
  | none => g

/-- Whether an entry of a weak table refers to a dead object. Finalized userdata are dead as values. -/
def isDeadCollectable (g : Gc) (v : Val) (isKey : Bool) : Bool :=
  let dead (o : ObjRef) : Bool := g.heap.color o == some g.currentWhite.otherWhite
  match v with
  | .table r => dead ⟨_, r⟩
  | .function r => dead ⟨_, r⟩
  | .userdata r => dead ⟨_, r⟩ || !isKey && (g.heap.get r).any Userdata.finalized
  | .thread r => dead ⟨_, r⟩
  | _ => false

/-- A table without its dead weak entries: the values are set to nil, keys and links stay. -/
def clearEntries (g : Gc) (weakKeys weakValues : Bool) (t : Table) : Table :=
  { t with
    array := t.array.map fun v => if weakValues && g.isDeadCollectable v false then .nil else v
    nodes := t.nodes.map fun n =>
      if !n.key.isNil && (weakKeys && g.isDeadCollectable n.key true ||
          weakValues && g.isDeadCollectable n.value false) then { n with value := .nil }
      else n }

/-- Clears a weak table, by the mode its metatable has now. -/
def clearWeakTable (g : Gc) (r : GcRef .table) : Gc :=
  match g.heap.get r with
  | some t =>
    let t : Table := t
    let (weakKeys, weakValues) := g.checkWeakMode t.metatable
    if weakKeys || weakValues then g.modify r fun _ => g.clearEntries weakKeys weakValues t else g
  | none => g

/-- Clears dead entries from weak tables, after the flip of the whites. -/
def clearWeakTables (g : Gc) : Gc :=
  let weakRefs := g.gcState.weakTables
  let g := { g with gcState := { g.gcState with weakTables := [] } }
  let g := weakRefs.foldl keepStrings g
  weakRefs.foldl clearWeakTable g

/-- The marking part of the atomic phase. -/
def atomicMark (g : Gc) : Gc :=
  let grayagain := g.gcState.grayagain
  let g := { g with gcState := { g.gcState with grayagain := [] } }
  let g := (grayagain.foldl retraverse g).propagateAll
  g.separateUserdata.markTmudata.propagateAll

/-- The indivisible phase between mark and sweep. -/
def atomic (g : Gc) : Gc :=
  let g := g.atomicMark
  let g := { g with currentWhite := g.currentWhite.otherWhite }
  let g := g.clearWeakTables
  { g with gcState := { g.gcState with sweepCursor := {}, phase := .sweepString } }

/-! ### Sweep -/

/-- Subtracts the size of freed objects from the byte count, saturating. -/
def trackFree (g : Gc) (size : ℕ) : Gc :=
  { g with gcState := { g.gcState with totalBytes := g.gcState.totalBytes - size } }

/-- Sweeps a batch of the string arena. -/
def sweepStringsStep (g : Gc) : Option Gc := do
  let (heap, freed, nextPos, isDone) ← g.heap.sweepPartial .string g.currentWhite.otherWhite
    g.currentWhite g.gcState.sweepCursor.slotPosition gcSweepMax
  let g := { g with heap }.trackFree (freed * estStringSize)
  if isDone then
    some { g with
      strings := g.strings.sweepDead (heap.arena .string)
      gcState := { g.gcState with phase := .sweep, sweepCursor := {} } }
  else
    some { g with gcState.sweepCursor.slotPosition := nextPos }

/-- The arenas of the sweep phase in order, with the size of their objects. -/
def sweepArena : ℕ → ObjKind × ℕ
  | 0 => (.table, estTableSize)
  | 1 => (.closure, estClosureSize)
  | 2 => (.upvalue, estUpvalueSize)
  | 3 => (.userdata, estUserdataSize)
  | _ => (.thread, estThreadSize)

/-- Sweeps a batch of the other arenas. -/
def sweepOtherStep (g : Gc) : Option Gc := do
  let arenaIdx := g.gcState.sweepCursor.arenaIndex
  let (k, size) := sweepArena arenaIdx
  let (heap, freed, nextPos, isDone) ← g.heap.sweepPartial k g.currentWhite.otherWhite
    g.currentWhite g.gcState.sweepCursor.slotPosition gcSweepMax
  let g := { g with heap }.trackFree (freed * size)
  if isDone then
    if 4 ≤ arenaIdx then some { g with gcState := { g.gcState with phase := .finalize } }
    else some { g with gcState := { g.gcState with sweepCursor := ⟨arenaIdx + 1, 0⟩ } }
  else
    some { g with gcState.sweepCursor.slotPosition := nextPos }

/-! ### Write barriers -/

/-- Backward barrier: a black table that is written to turns gray again. -/
def barrierBack (g : Gc) (parent : GcRef .table) : Gc :=
  if g.gcState.phase = .propagate ∧ g.heap.color ⟨_, parent⟩ = some .black then
    { g with
      heap := g.heap.setColor ⟨_, parent⟩ .gray
      gcState := { g.gcState with grayagain := g.gcState.grayagain ++ [.table parent] } }
  else g

/-- Whether a value refers to an object in the current white. -/
def isWhiteValue (g : Gc) (v : Val) : Bool :=
  v.objRef.any fun o => g.heap.color o == some g.currentWhite

/-- Forward barrier: marks a white child written into a black object that is not a table. -/
def barrierForwardVal (g : Gc) (parentColor : Color) (child : Val) : Gc :=
  if g.gcState.phase = .propagate ∧ parentColor = .black ∧ g.isWhiteValue child then g.markValue child
  else g

end Gc

namespace LuaState

/-- Marks the strings and values the machine has cached. -/
def markCachedStateStrings (s : LuaState) (g : Gc) : Gc :=
  let g := (s.hookEventNames ++ s.hookMaskNames ++ s.debugInfoFieldNames).foldl markString g
  match s.globalSlots with
  | some runtime =>
    (runtime.nameKeys ++ runtime.shadowRegistryKey.toList).foldl markString (g.markValues runtime.values)
  | none => g

/-- Marks the roots. The main thread is put on the gray list, to be traversed in its turn. -/
def markRoots (s : LuaState) : LuaState :=
  let g := { s.gc with gcState := { s.gc.gcState with gray := .mainThread :: s.gc.gcState.gray } }
  let g := ((g.markTable s.global).markTable s.registry).markGcRoots
  { s with gc := s.markCachedStateStrings g }

/-- Marks the stack, the open upvalues, the error object, the hook and the functions of the call stack
    of a thread. -/
def markThreadFields (g : Gc) (t : ThreadFields) (upvalues : List (GcRef .upvalue)) : Gc :=
  let g := (g.markValues t.liveStack).markUpvalues upvalues
  let g := (g.markValues t.errorObject.toList).markValue t.hookFunc
  g.markValues ((t.callStack.take (t.ci + 1)).filterMap fun c => t.stack[c.func]?)

/-- What is marked of the running thread and of the threads it was resumed from. -/
def markMainThread (s : LuaState) : Gc :=
  s.savedThreads.reverse.foldl
    (fun g t => markThreadFields g t.toThreadFields (t.openUpvalues ++ t.suspendedUpvals.map Prod.fst))
    (markThreadFields s.gc s.toThreadFields s.openUpvalues)

/-- Traverses the main thread and keeps it for the atomic phase. -/
def traverseMainThread (s : LuaState) : LuaState :=
  let g := s.markMainThread
  { s with gc := { g with gcState := { g.gcState with grayagain := g.gcState.grayagain ++ [.mainThread] } } }

def clearLists (s : LuaState) : LuaState :=
  { s with gc.gcState.gray := [], gc.gcState.grayagain := [], gc.gcState.weakTables := [] }

/-- Pops a userdata off `tmudata` and pushes its finalizer and the userdata, about to be called. The
    flag tells whether there was one, the pair is the call. -/
def callGcFinalizer (s : LuaState) : LuaState × Bool × Option (Val × GcRef .userdata) :=
  match s.gc.gcState.tmudata.getLast? with
  | none => (s, false, none)
  | some ud =>
    let s := { s with gc.gcState.tmudata := s.gc.gcState.tmudata.dropLast }
    let gcFn := match (s.gc.heap.get ud).bind Userdata.metatable with
      | some mt => s.gc.metafield mt gcName
      | none => .nil
    if gcFn.isNil then (s, true, none)
    else ((s.push gcFn).push (.userdata ud), true, some (gcFn, ud))

/-- One unit of work in the current phase. In the finalize phase the result says which finalizer is
    called. -/
def gcSinglestep (s : LuaState) : Option (LuaState × Option (Val × GcRef .userdata)) :=
  match s.gc.gcState.phase with
  | .pause =>
    let s := s.clearLists.markRoots
    some ({ s with gc.gcState.phase := .propagate }, none)
  | .propagate =>
    match s.gc.propagateOne with
    | .done gc => some ({ s with gc }, none)
    | .needMainThread gc => some ({ s with gc }.traverseMainThread, none)
    | .empty => some ({ s with gc := s.markMainThread.atomic }, none)
  | .sweepString => s.gc.sweepStringsStep.map fun gc => ({ s with gc }, none)
  | .sweep => s.gc.sweepOtherStep.map fun gc => ({ s with gc }, none)
  | .finalize =>
    match s.callGcFinalizer with
    | (s, true, call) => some (s, call)
    | (s, false, _) => some ({ s with gc.gcState.phase := .pause }, none)

end LuaState

end Rilua.Vm
