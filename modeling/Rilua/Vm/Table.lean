import Rilua.Vm.Value

/-! Tables (`vm/table.rs`): an array part for the keys 1..n and a hash part for all others.

    The hash part is a flat vector of nodes with chained collisions (Brent's variation): each node has a
    key (nil when the node is free), a value and a link to the next node of its chain, and free nodes are
    found by scanning backwards from `lastFree`. Operations that index outside a vector or follow links
    for ever are `none`; a Lua error is an `Except.error` beside the table it leaves behind. -/

namespace Rilua.Vm

open Lib Gc

/-- A Lua error: its message. -/
structure LuaError where
  message : String
  deriving DecidableEq

/-- A node of the hash part. -/
structure Node where
  key : Val
  value : Val
  next : Option ℕ
  deriving DecidableEq

def Node.empty : Node := ⟨.nil, .nil, none⟩

/-- `n.wrapping_sub(1)` on `u32`. -/
def wrappingPred (n : ℕ) : ℕ := (n + (u32Size - 1)) % u32Size

/-- The number hash: the two halves of the bits of `n + 1.0`, added. -/
def hashNumber (n : F64) : ℕ :=
  let bits := (n.add F64.one).toBits
  (bits % u32Size + bits / u32Size) % u32Size

/-- Power-of-2 modulus for string and boolean keys. -/
def hashPow2 (hash size : ℕ) : ℕ := hash &&& wrappingPred size

/-- Odd modulus for number and reference keys. -/
def hashMod (hash size : ℕ) : ℕ := hash % (wrappingPred size ||| 1)

/-- The integer a number is equal to, if any. -/
def numberToIntKey (n : F64) : Option ℤ :=
  if n.isFinite then
    if (F64.ofInt n.toI64).beq n then some n.toI64 else none
  else none

/-- The least `k` with `n ≤ 2^k`. -/
def ceilLog2 (n : ℕ) : ℕ := if n ≤ 1 then 0 else (n - 1).log2 + 1

/-- Maximum number of bits for the array part, and for the hash part. -/
def maxBits : ℕ := 26

/-- Maximum array part size. -/
def maxASize : ℕ := 2 ^ maxBits

/-- The greatest length of a vector of values: its bytes are at most `isize::MAX`. -/
def maxVecLength : ℕ := (2 ^ 63 - 1) / 16

/-- The string `__`, with which the names of metamethods start. -/
def underscores : List UInt8 := [95, 95]

/-- A Lua table. -/
structure Table where
  array : List Val := []
  nodes : List Node := []
  lastFree : ℕ := 0
  log2Size : ℕ := 0
  metatable : Option (GcRef .table) := none
  flags : UInt8 := 0
  readOnly : Bool := false

namespace Val

/-- The main (home) position of a key in a hash part of `size` nodes. -/
def mainPosition (size : ℕ) (strings : StringArena) : Val → ℕ
  | .num n => hashMod (hashNumber n) size
  | .str r => hashPow2 (((strings.get r).map fun s => s.hash.toNat).getD 0) size
  | .bool b => hashPow2 b.toNat size
  | .lightUserdata p => hashMod (p % u32Size) size
  | .table r => hashMod r.index size
  | .function r => hashMod r.index size
  | .userdata r => hashMod r.index size
  | .thread r => hashMod r.index size
  | .nil => 0

/-- The integer a key is equal to, if any. -/
def intKey : Val → Option ℤ
  | .num n => numberToIntKey n
  | _ => none

end Val

/-- A dead node: its key is a string that has been freed, its value is nil. -/
def Node.isDead (n : Node) (strings : StringArena) : Bool :=
  n.value.isNil && match n.key with
    | .str r => (strings.get r).isNone
    | _ => false

/-- What a table operation returns: the table after it, and a result or an error. -/
abbrev TableResult (α : Type) : Type := Table × Except LuaError α

namespace Table

/-- The size of the hash part. -/
def hashSize (t : Table) : ℕ := if t.log2Size = 0 ∧ t.nodes.isEmpty then 0 else 2 ^ t.log2Size

/-- Estimated memory of the array and hash parts. -/
def estimatedMemory (t : Table) : ℕ := t.array.length * 16 + t.hashSize * 32

def mainPosition (t : Table) (key : Val) (strings : StringArena) : ℕ :=
  key.mainPosition t.hashSize strings

/-- The array slot of an integer key: `(key as u64).wrapping_sub(1)`, if below the array length. -/
def arrayIndex (t : Table) (key : ℤ) : Option ℕ :=
  let idx := ((key - 1) % 2 ^ 64).toNat
  if idx < t.array.length then some idx else none

def setArray (t : Table) (idx : ℕ) (value : Val) : Table :=
  { t with array := t.array.set idx value }

def setValue (t : Table) (idx : ℕ) (value : Val) : Table :=
  { t with nodes := t.nodes.modify idx fun n => { n with value } }

/-! ### Lookup -/

/-- The walk along a chain from `cur` to the first node whose key satisfies `test`. -/
def walk (nodes : List Node) (test : Val → Bool) : ℕ → Option ℕ → Option (Option ℕ)
  | _, none => some none
  | 0, some _ => none
  | fuel + 1, some i => do
    let node ← nodes[i]?
    if test node.key then some (some i) else walk nodes test fuel node.next

/-- The value of the node a walk from `mp` finds, nil if it finds none. -/
def chainValue (t : Table) (test : Val → Bool) (mp : ℕ) : Option Val := do
  match ← walk t.nodes test t.nodes.length (some mp) with
  | some i =>
    let node ← t.nodes[i]?
    some node.value
  | none => some .nil

/-- The test of `get_int`: the key is a number equal to `nk`. -/
def numIs (nk : F64) : Val → Bool
  | .num n => n.beq nk
  | _ => false

/-- The test of `get_str_hashed`: the key is this string. -/
def strIs (key : GcRef .string) : Val → Bool
  | .str nodeKey => nodeKey == key
  | _ => false

def getInt (t : Table) (key : ℤ) : Option Val :=
  match t.arrayIndex key with
  | some idx => t.array[idx]?
  | none =>
    if t.nodes.isEmpty then some .nil
    else
      let nk := F64.ofInt key
      t.chainValue (numIs nk) (hashMod (hashNumber nk) t.hashSize)

def getStrHashed (t : Table) (key : GcRef .string) (hash : ℕ) : Option Val :=
  if t.nodes.isEmpty then some .nil
  else t.chainValue (strIs key) (hashPow2 hash t.hashSize)

def getStr (t : Table) (key : GcRef .string) (strings : StringArena) : Option Val :=
  if t.nodes.isEmpty then some .nil
  else
    match strings.get key with
    | none => some .nil
    | some s => t.getStrHashed key s.hash.toNat

def getHash (t : Table) (key : Val) (strings : StringArena) : Option Val :=
  if t.nodes.isEmpty then some .nil
  else t.chainValue (fun k => k.rawEq key) (t.mainPosition key strings)

/-- Generic key lookup. -/
def get (t : Table) (key : Val) (strings : StringArena) : Option Val :=
  match key with
  | .nil => some .nil
  | .str r => t.getStr r strings
  | .num n =>
    match numberToIntKey n with
    | some k => t.getInt k
    | none => t.getHash key strings
  | _ => t.getHash key strings

/-! ### Insertion of a new key -/

/-- Scans backward from `lastFree` for a node whose key is nil; returns the new `lastFree` too. -/
def getFreePos (nodes : List Node) : ℕ → Option (ℕ × Option ℕ)
  | 0 => some (0, none)
  | n + 1 => do
    let node ← nodes[n]?
    if node.key.isNil then some (n, some n) else getFreePos nodes n

/-- The walk from `prev` to the predecessor of `mp` (or to the end of the chain). -/
def predecessor (nodes : List Node) (mp : ℕ) : ℕ → ℕ → Option ℕ
  | 0, _ => none
  | fuel + 1, prev => do
    let node ← nodes[prev]?
    if node.next = some mp then some prev
    else
      match node.next with
      | some next => predecessor nodes mp fuel next
      | none => some prev

/-- Inserts a new key into the hash part, with value nil, and returns its node. It is an error if no
    node is free. -/
def newKey (t : Table) (key : Val) (strings : StringArena) : Option (TableResult ℕ) :=
  if t.nodes.isEmpty then some (t, .error ⟨"table overflow"⟩)
  else do
    let mp := t.mainPosition key strings
    let occupant ← t.nodes[mp]?
    if occupant.key.isNil then
      some ({ t with nodes := t.nodes.set mp { occupant with key } }, .ok mp)
    else if occupant.isDead strings then
      -- the chain through the dead node stays as it is
      some ({ t with nodes := t.nodes.set mp { occupant with key } }, .ok mp)
    else
      match ← getFreePos t.nodes t.lastFree with
      | (lastFree, none) => some ({ t with lastFree }, .error ⟨"table overflow"⟩)
      | (lastFree, some free) =>
        let otherMp := t.mainPosition occupant.key strings
        if otherMp = mp then
          -- Case B: the occupant is at home, the new key goes to the free node, chained after it
          let nodes := t.nodes.modify free fun n => { n with next := occupant.next }
          let nodes := nodes.modify mp fun n => { n with next := some free }
          let nodes := nodes.modify free fun n => { n with key }
          some ({ t with nodes, lastFree }, .ok free)
        else do
          -- Case A: the occupant is displaced, it moves to the free node and the new key takes its place
          let prev ← predecessor t.nodes mp t.nodes.length otherMp
          let nodes := t.nodes.modify prev fun n => { n with next := some free }
          let occ ← nodes[mp]?
          let nodes := nodes.set free occ
          let nodes := nodes.set mp { Node.empty with key }
          some ({ t with nodes, lastFree }, .ok mp)

/-- Updates the node of a key that is in the hash part; reports whether there was one. -/
def updateExistingHashSlot (t : Table) (key value : Val) (strings : StringArena) :
    Option (Table × Bool) :=
  if t.nodes.isEmpty then some (t, false)
  else do
    match ← walk t.nodes (fun k => k.rawEq key) t.nodes.length (some (t.mainPosition key strings)) with
    | some i => some (t.setValue i value, true)
    | none => some (t, false)

/-- The first insertion into an empty hash part makes two nodes. -/
def insertFirstHashNode (t : Table) (key value : Val) (strings : StringArena) : Table × Bool :=
  if !t.nodes.isEmpty then (t, false)
  else
    let t := { t with nodes := [Node.empty, Node.empty], lastFree := 2, log2Size := 1 }
    let bucket := t.mainPosition key strings
    ({ t with nodes := t.nodes.modify bucket fun n => { n with key, value } }, true)

/-- Whether the key is the one after the array part. -/
def denseArrayAppendIndex (t : Table) (key : Val) : Option ℕ :=
  match key.intKey with
  | some k =>
    if 0 ≤ k ∧ k.toNat = t.array.length + 1 ∧ k.toNat ≤ maxASize then some k.toNat else none
  | none => none

/-- The body of `raw_set_impl`; `onFull` is what happens when the hash part is empty or full. On
    success the result is the growth of the estimated memory. -/
def rawSetWith (onFull : Table → LuaError → Option (TableResult ℕ)) (t : Table) (key value : Val)
    (strings : StringArena) : Option (TableResult ℕ) :=
  match key with
  | .nil => some (t, .error ⟨"table index is nil"⟩)
  | key =>
    if key.isNaN then some (t, .error ⟨"table index is NaN"⟩)
    else
      match key.intKey.bind t.arrayIndex with
      | some idx => some (t.setArray idx value, .ok 0)
      | none => do
        let (t, updated) ← t.updateExistingHashSlot key value strings
        if updated then some (t, .ok 0)
        else if value.isNil then some (t, .ok 0)
        else if (t.denseArrayAppendIndex key).isSome then
          some ({ t with array := t.array ++ [value] }, .ok 16)
        else
          let (t, inserted) := t.insertFirstHashNode key value strings
          if inserted then some (t, .ok 64)
          else
            match ← t.newKey key strings with
            | (t, .ok idx) => some (t.setValue idx value, .ok 0)
            | (t, .error e) => onFull t e

/-- `raw_set_impl` without a rehash (`allow_rehash = false`). -/
def rawSetNoRehash (t : Table) (key value : Val) (strings : StringArena) : Option (TableResult ℕ) :=
  rawSetWith (fun t e => some (t, .error e)) t key value strings

/-! ### Rehash -/

/-- Counts a candidate for the array part in the histogram `nums`: bucket `i` counts the keys in
    `(2^(i-1), 2^i]`. -/
def countInt (key : Val) (nums : List ℕ) : List ℕ × ℕ :=
  match key.intKey with
  | some k =>
    if 1 ≤ k ∧ k.toNat ≤ maxASize then (nums.modify (ceilLog2 k.toNat) (· + 1), 1) else (nums, 0)
  | none => (nums, 0)

/-- Counts the array slots that are not nil among the `n` slots from the 1-based index `i` on. -/
def countSlots (array : List Val) : ℕ → ℕ → ℕ → ℕ × ℕ
  | 0, i, lc => (i, lc)
  | n + 1, i, lc =>
    countSlots array n (i + 1) (if (array.getD (i - 1) .nil).isNil then lc else lc + 1)

/-- The loop of `num_use_array` over the ranges `lgs`. -/
def numUseArrayLoop (array : List Val) : List ℕ → ℕ → ℕ → List ℕ → List ℕ × ℕ
  | [], _, ause, nums => (nums, ause)
  | lg :: lgs, i, ause, nums =>
    let lim := min (2 ^ lg) array.length
    if lim < i then (nums, ause)
    else
      let (i, lc) := countSlots array (lim + 1 - i) i 0
      numUseArrayLoop array lgs i (ause + lc) (nums.modify lg (· + lc))

/-- Counts the keys in the array part. -/
def numUseArray (t : Table) (nums : List ℕ) : List ℕ × ℕ :=
  numUseArrayLoop t.array (List.range (maxBits + 1)) 1 0 nums

/-- Counts the entries of the hash part: the histogram, the integer keys added to `naSize`, and the
    number of entries. -/
def numUseHash : List Node → List ℕ → ℕ → ℕ → List ℕ × ℕ × ℕ
  | [], nums, naSize, totalUse => (nums, naSize, totalUse)
  | node :: nodes, nums, naSize, totalUse =>
    if node.value.isNil then numUseHash nodes nums naSize totalUse
    else
      let (nums, c) := countInt node.key nums
      numUseHash nodes nums (naSize + c) (totalUse + 1)

/-- The loop of `compute_sizes`: `a` keys so far, the best size and the keys it holds. -/
def computeSizesLoop (naSize : ℕ) : List ℕ → ℕ → ℕ → ℕ → ℕ → ℕ × ℕ
  | [], _, na, bestSize, _ => (na, bestSize)
  | num :: nums, a, na, bestSize, twotoi =>
    let a := if 0 < num then a + num else a
    let best := 0 < num ∧ twotoi / 2 < a
    let na := if best then a else na
    let bestSize := if best then twotoi else bestSize
    if a = naSize then (na, bestSize)
    else computeSizesLoop naSize nums a na bestSize (min (twotoi * 2) (u32Size - 1))

/-- The number of keys that go to the array part, and the size of it: the largest power of two such
    that more than half of its slots are in use. -/
def computeSizes (nums : List ℕ) (naSize : ℕ) : ℕ × ℕ := computeSizesLoop naSize nums 0 0 0 1

/-- Moves the entries at the array slots `idxs` to the hash part. -/
def moveDisplaced (strings : StringArena) : List ℕ → Table → Option (TableResult Unit)
  | [], t => some (t, .ok ())
  | i :: idxs, t => do
    let val ← t.array[i]?
    if val.isNil then moveDisplaced strings idxs t
    else
      match ← t.newKey (.num (F64.ofInt (i + 1))) strings with
      | (t, .error e) => some (t, .error e)
      | (t, .ok idx) => moveDisplaced strings idxs (t.setValue idx val)

/-- Inserts the entries of the old hash part again. -/
def reinsert (strings : StringArena) : List Node → Table → Option (TableResult Unit)
  | [], t => some (t, .ok ())
  | node :: nodes, t =>
    if node.value.isNil then reinsert strings nodes t
    else do
      match ← t.rawSetNoRehash node.key node.value strings with
      | (t, .error e) => some (t, .error e)
      | (t, .ok _) => reinsert strings nodes t

/-- The new hash part of `resize`: no nodes, or the next power of two; `none` is the overflow. -/
def withHashPart (t : Table) (newHashSize : ℕ) : Option Table :=
  if newHashSize = 0 then some { t with nodes := [], log2Size := 0, lastFree := 0 }
  else
    let log2 := ceilLog2 newHashSize
    if maxBits < log2 then none
    else some { t with
      nodes := List.replicate (2 ^ log2) Node.empty, log2Size := log2, lastFree := 2 ^ log2 }

/-- Resizes both parts, inserting all entries again (the old nodes backwards). -/
def resize (t : Table) (newArraySize newHashSize : ℕ) (strings : StringArena) : Option (TableResult Unit) := do
  let oldArraySize := t.array.length
  let oldNodes := t.nodes
  let t := { t with array := t.array ++ List.replicate (newArraySize - oldArraySize) Val.nil }
  match t.withHashPart newHashSize with
  | none => some (t, .error ⟨"table overflow"⟩)
  | some t =>
    match ← moveDisplaced strings (List.range' newArraySize (oldArraySize - newArraySize)) t with
    | (t, .error e) => some (t, .error e)
    | (t, .ok ()) =>
      let t := if newArraySize < oldArraySize then { t with array := t.array.take newArraySize } else t
      reinsert strings oldNodes.reverse t

/-- Recomputes the split of the table into its two parts, counting the key about to be inserted. -/
def rehash (t : Table) (ek : Val) (strings : StringArena) : Option (TableResult Unit) := do
  let nums := List.replicate (maxBits + 1) 0
  let (nums, ause) := t.numUseArray nums
  let (nums, naSize, hashUse) := numUseHash t.nodes.reverse nums ause 0
  let (nums, c) := countInt ek nums
  let totalUse := ause + hashUse + 1
  let (na, newSize) := computeSizes nums (naSize + c)
  if totalUse < na then none
  else t.resize newSize (totalUse - na) strings

/-! ### Assignment -/

/-- `raw_set_impl` with `allow_rehash = true`: when the hash part is empty or full, rehash and try
    again. -/
def rawSetImpl (t : Table) (key value : Val) (strings : StringArena) : Option (TableResult ℕ) :=
  rawSetWith
    (fun t _ => do
      let memBefore := t.estimatedMemory
      match ← t.rehash key strings with
      | (t, .error e) => some (t, .error e)
      | (t, .ok ()) =>
        match ← t.rawSetNoRehash key value strings with
        | (t, .error e) => some (t, .error e)
        | (t, .ok _) => some (t, .ok (t.estimatedMemory - memBefore)))
    t key value strings

/-- Whether the key is the name of a metamethod, which invalidates the metamethod cache. -/
def isMetaName (key : Val) (strings : StringArena) : Bool :=
  match key with
  | .str r => ((strings.get r).map fun s => underscores.isPrefixOf s.data).getD false
  | _ => false

/-- Sets a raw key-value pair and returns the growth of the estimated memory. -/
def rawSetWithMemoryDelta (t : Table) (key value : Val) (strings : StringArena) : Option (TableResult ℕ) :=
  if t.readOnly then some (t, .error ⟨"attempt to modify a read-only table"⟩)
  else
    let t := if isMetaName key strings then { t with flags := 0 } else t
    t.rawSetImpl key value strings

/-- Sets a key-value pair, without metamethods. -/
def rawSet (t : Table) (key value : Val) (strings : StringArena) : Option (TableResult Unit) := do
  match ← t.rawSetWithMemoryDelta key value strings with
  | (t, .error e) => some (t, .error e)
  | (t, .ok _) => some (t, .ok ())

/-! ### Stores that do not look at the key's type -/

/-- Extends the array part with nil. -/
def ensureArrayCapacity (t : Table) (minSize : ℕ) : Table :=
  { t with array := t.array ++ List.replicate (minSize - t.array.length) .nil }

/-- `swap_array_ints`: swaps two slots of the array part, if both keys are there. -/
def swapArrayInts (t : Table) (left right : ℤ) : Option Table := do
  let i ← t.arrayIndex left
  let j ← t.arrayIndex right
  some { t with array := (t.array.set i (t.array.getD j .nil)).set j (t.array.getD i .nil) }

/-- `set_int_existing`: updates an integer key that is there. -/
def setIntExisting (t : Table) (key : ℤ) (value : Val) : Option (Table × Bool) :=
  match t.arrayIndex key with
  | some i => some (t.setArray i value, true)
  | none =>
    if t.nodes.isEmpty then some (t, false)
    else do
      let nk := F64.ofInt key
      match ← walk t.nodes (numIs nk) t.nodes.length (some (hashMod (hashNumber nk) t.hashSize)) with
      | some i => some (t.setValue i value, true)
      | none => some (t, false)

/-- Sets allocated slots of the array part from `i` on. -/
def setArraySlots : Table → ℕ → List Val → Table
  | t, _, [] => t
  | t, i, v :: vs => setArraySlots (t.setArray i v) (i + 1) vs

end Table

/-- `SETLIST` writes the items of a constructor in groups of so many. -/
def lfieldsPerFlush : ℕ := 50

end Rilua.Vm
