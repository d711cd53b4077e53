import Rilua.Vm.Gc.ArenaCells

/-! String interning with cached hash (`vm/string.rs`).

    All strings are interned through a `StringTable`: creating a string that already exists returns the
    existing reference. The table is a vector of buckets; a bucket holds the references whose hashes map
    to it, and may hold stale ones until the dead strings are swept out of it. -/

namespace Rilua.Vm

open Gc

/-- An interned string: its bytes and their cached hash. -/
structure LuaString where
  hash : UInt32
  data : List UInt8
  deriving DecidableEq

/-- The walk of `lua_hash` from position `l1` backwards; `fuel` bounds the number of rounds. -/
def luaHashLoop (data : List UInt8) (step : ℕ) : ℕ → ℕ → UInt32 → UInt32
  | 0, _, h => h
  | fuel + 1, l1, h =>
    if step ≤ l1 then
      luaHashLoop data step fuel (l1 - step)
        (h ^^^ ((h <<< 5) + (h >>> 2) + (data.getD (l1 - 1) 0).toUInt32))
    else h

/-- The string hash: seed with the length, then fold in sampled bytes walking backwards with step
    `len / 32 + 1`. -/
def luaHash (data : List UInt8) : UInt32 :=
  luaHashLoop data (data.length / 32 + 1) data.length data.length (UInt32.ofNat data.length)

/-- The walk has ended within `l1` rounds. -/
theorem luaHashLoop_fuel (data : List UInt8) {step : ℕ} (hs : 0 < step) :
    ∀ {fuel l1 : ℕ} (h : UInt32), l1 ≤ fuel →
      luaHashLoop data step (fuel + 1) l1 h = luaHashLoop data step fuel l1 h
  | 0, l1, h, hl => by
    obtain rfl : l1 = 0 := by omega
    simp [luaHashLoop, Nat.ne_of_gt hs]
  | fuel + 1, l1, h, hl => by
    conv => lhs; rw [luaHashLoop]
    conv => rhs; rw [luaHashLoop]
    split
    · exact luaHashLoop_fuel data hs _ (by omega)
    · rfl

/-- Minimum number of buckets. -/
def minStrTabSize : ℕ := 32

/-- Largest value of `usize`. -/
def usizeMax : ℕ := 2 ^ 64 - 1

/-- `usize::saturating_mul`. -/
def saturatingMul (a b : ℕ) : ℕ := min (a * b) usizeMax

/-- `usize::saturating_add`. -/
def saturatingAdd (a b : ℕ) : ℕ := min (a + b) usizeMax

/-- `usize::next_power_of_two`, checked. -/
def checkedNextPowerOfTwo (n : ℕ) : Option ℕ :=
  if n.nextPowerOfTwo ≤ usizeMax then some n.nextPowerOfTwo else none

/-- The arena of the strings. -/
abbrev StringArena := Arena .string LuaString

/-- Revives a string the collector left for dead but has not swept yet. -/
def resurrectIfDead (arena : StringArena) (r : GcRef .string) (currentWhite : Color) : StringArena :=
  if arena.color r = some currentWhite.otherWhite then (arena.setColor r currentWhite).1 else arena

/-- The interning table. -/
structure StringTable where
  buckets : List (List (GcRef .string)) := List.replicate minStrTabSize []
  count : ℕ := 0

namespace StringTable

/-- The bucket of a hash in a table of `size` buckets. -/
def bucketIdx (hash : UInt32) (size : ℕ) : ℕ := hash.toNat &&& (size - 1)

/-- Whether an entry of a bucket is the string looked for. -/
def isEntry (arena : StringArena) (data : List UInt8) (hash : UInt32) (r : GcRef .string) : Bool :=
  match arena.get r with
  | some s => s.hash == hash && s.data.length == data.length && s.data == data
  | none => false

/-- The loop body of `rehash`: an entry goes to its new bucket, unless it is stale. -/
def pushRehashed (arena : StringArena) (newSize : ℕ) (newBuckets : List (List (GcRef .string)))
    (r : GcRef .string) : List (List (GcRef .string)) :=
  match arena.get r with
  | some s => newBuckets.modify (bucketIdx s.hash newSize) (· ++ [r])
  | none => newBuckets

/-- Rehashes all entries into a new bucket array of the given size. -/
def rehash (t : StringTable) (newSize : ℕ) (arena : StringArena) : StringTable :=
  { t with buckets := t.buckets.flatten.foldl (pushRehashed arena newSize) (List.replicate newSize []) }

/-- Doubles the bucket count. -/
def grow (t : StringTable) (arena : StringArena) : StringTable :=
  let newSize := saturatingMul t.buckets.length 2
  if newSize ≤ t.buckets.length then t else t.rehash newSize arena

/-- Makes room for `additional` new strings. -/
def reserve (t : StringTable) (additional : ℕ) (arena : StringArena) : Option StringTable :=
  let needed := saturatingAdd t.count additional
  if needed ≤ t.buckets.length then some t
  else do
    let pow ← checkedNextPowerOfTwo needed
    some (t.rehash (max (saturatingMul pow 2) minStrTabSize) arena)

/-- Halves the bucket count if the load factor is below 25%. -/
def maybeShrink (t : StringTable) (arena : StringArena) : StringTable :=
  if t.count < t.buckets.length / 4 ∧ minStrTabSize * 2 < t.buckets.length then
    t.rehash (t.buckets.length / 2) arena
  else t

/-- Interns a string with its cached hash: the existing reference if the same content is found in its
    bucket, otherwise a new string. -/
def internHashed (t : StringTable) (data : List UInt8) (hash : UInt32) (arena : StringArena)
    (currentWhite : Color) : Option (StringTable × StringArena × GcRef .string) := do
  let idx := bucketIdx hash t.buckets.length
  let bucket ← t.buckets[idx]?
  match bucket.find? (isEntry arena data hash) with
  | some r => some (t, resurrectIfDead arena r currentWhite, r)
  | none =>
    let (arena', r) ← arena.alloc ⟨hash, data⟩ currentWhite
    let t' : StringTable := ⟨t.buckets.modify idx (· ++ [r]), t.count + 1⟩
    some (if t'.buckets.length < t'.count then t'.grow arena' else t', arena', r)

/-- Interns a byte vector by moving it; what the table and the arena see is the same. -/
def internHashedOwned (t : StringTable) (data : List UInt8) (hash : UInt32) (arena : StringArena)
    (currentWhite : Color) : Option (StringTable × StringArena × GcRef .string) :=
  t.internHashed data hash arena currentWhite

def intern (t : StringTable) (data : List UInt8) (arena : StringArena) (currentWhite : Color) :
    Option (StringTable × StringArena × GcRef .string) :=
  t.internHashed data (luaHash data) arena currentWhite

/-- Retains only the entries for which `predicate` holds. -/
def retain (t : StringTable) (predicate : GcRef .string → Bool) : StringTable where
  buckets := t.buckets.map fun bucket => bucket.filter predicate
  count := t.count - (t.buckets.map fun bucket => bucket.length - (bucket.filter predicate).length).sum

/-- Removes the entries whose string has been freed. -/
def sweepDead (t : StringTable) (arena : StringArena) : StringTable :=
  t.retain fun r => (arena.get r).isSome

/-! ### Which bucket an entry is in -/

/-- `r` is in the bucket of `hash`. -/
def InBucket (t : StringTable) (hash : UInt32) (r : GcRef .string) : Prop :=
  ∃ bucket, t.buckets[bucketIdx hash t.buckets.length]? = some bucket ∧ r ∈ bucket

theorem bucketIdx_lt (hash : UInt32) {size : ℕ} (h : 0 < size) : bucketIdx hash size < size :=
  Nat.lt_of_le_of_lt Nat.and_le_right (by omega)

theorem InBucket.mem_flatten {t : StringTable} {hash : UInt32} {r : GcRef .string}
    (h : t.InBucket hash r) : r ∈ t.buckets.flatten := by
  obtain ⟨bucket, hb, hr⟩ := h
  exact List.mem_flatten.mpr ⟨bucket, List.mem_of_getElem? hb, hr⟩

/-- Adding a reference to a bucket. -/
theorem inBucket_push {t : StringTable} (h0 : 0 < t.buckets.length) (hash hash' : UInt32)
    (r r' : GcRef .string) (n : ℕ) :
    InBucket ⟨t.buckets.modify (bucketIdx hash t.buckets.length) (· ++ [r]), n⟩ hash' r' ↔
      t.InBucket hash' r' ∨
        bucketIdx hash t.buckets.length = bucketIdx hash' t.buckets.length ∧ r' = r := by
  have hlt := bucketIdx_lt hash' h0
  simp only [InBucket, List.length_modify, List.getElem?_modify, List.getElem?_eq_getElem hlt]
  split
  · next heq => simp [heq]
  · next hne => simp [hne]

/-- What the loop of `rehash` has put in bucket `i`. -/
theorem foldl_pushRehashed_getElem? (arena : StringArena) (newSize i : ℕ) (rs : List (GcRef .string))
    (bs : List (List (GcRef .string))) :
    (rs.foldl (pushRehashed arena newSize) bs)[i]? = (bs[i]?).map (· ++ rs.filter fun r =>
      (arena.get r).any fun s => bucketIdx s.hash newSize == i) := by
  induction rs generalizing bs with
  | nil => simp
  | cons r rs ih =>
    rw [List.foldl_cons, ih, pushRehashed]
    cases hr : arena.get r with
    | none => simp [hr]
    | some s =>
      simp only [List.getElem?_modify, List.filter_cons, hr, Option.any_some, beq_iff_eq]
      by_cases hi : bucketIdx s.hash newSize = i
      · cases bs[i]? <;> simp [hi]
      · simp [hi]

theorem length_foldl_pushRehashed (arena : StringArena) (newSize : ℕ) (rs : List (GcRef .string))
    (bs : List (List (GcRef .string))) :
    (rs.foldl (pushRehashed arena newSize) bs).length = bs.length := by
  induction rs generalizing bs with
  | nil => rfl
  | cons r rs ih =>
    rw [List.foldl_cons, ih, pushRehashed]
    cases arena.get r <;> simp

theorem length_rehash (t : StringTable) (newSize : ℕ) (arena : StringArena) :
    (t.rehash newSize arena).buckets.length = newSize := by
  simp [rehash, length_foldl_pushRehashed]

/-- After a rehash an entry that denotes a string is in the bucket of that string's hash. -/
theorem inBucket_rehash {t : StringTable} {newSize : ℕ} {arena : StringArena} (h0 : 0 < newSize)
    {r : GcRef .string} {s : LuaString} (hs : arena.get r = some s) (hmem : r ∈ t.buckets.flatten) :
    (t.rehash newSize arena).InBucket s.hash r := by
  refine ⟨t.buckets.flatten.filter fun r' =>
    (arena.get r').any fun s' => bucketIdx s'.hash newSize == bucketIdx s.hash newSize, ?_, ?_⟩
  · rw [length_rehash]
    simp only [rehash, foldl_pushRehashed_getElem?, List.getElem?_replicate, if_pos (bucketIdx_lt s.hash h0),
      Option.map_some, List.nil_append]
  · exact List.mem_filter.mpr ⟨hmem, by simp [hs]⟩

/-- `retain` keeps the entries that satisfy the predicate where they are. -/
theorem inBucket_retain {t : StringTable} {p : GcRef .string → Bool} {hash : UInt32}
    {r : GcRef .string} (h : t.InBucket hash r) (hp : p r = true) : (t.retain p).InBucket hash r := by
  obtain ⟨bucket, hb, hr⟩ := h
  exact ⟨bucket.filter p, by simp [retain, hb], List.mem_filter.mpr ⟨hr, hp⟩⟩

theorem isEntry_iff {arena : StringArena} {data : List UInt8} {hash : UInt32} {r : GcRef .string} :
    isEntry arena data hash r = true ↔ arena.get r = some ⟨hash, data⟩ := by
  rw [isEntry]
  cases arena.get r with
  | none => simp
  | some s =>
    obtain ⟨h, d⟩ := s
    simp only [Bool.and_eq_true, beq_iff_eq, Option.some.injEq, LuaString.mk.injEq]
    constructor
    · rintro ⟨⟨rfl, -⟩, rfl⟩; exact ⟨rfl, rfl⟩
    · rintro ⟨rfl, rfl⟩; exact ⟨⟨rfl, rfl⟩, rfl⟩

/-- What an intern call does to the arena: it finds a valid string and at most revives it, or it
    allocates a new one. -/
theorem internHashed_arena {t t' : StringTable} {data : List UInt8} {hash : UInt32}
    {arena arena' : StringArena} {w : Color} {r : GcRef .string}
    (h : t.internHashed data hash arena w = some (t', arena', r)) :
    (arena.get r = some ⟨hash, data⟩ ∧ arena' = resurrectIfDead arena r w) ∨
      arena.alloc ⟨hash, data⟩ w = some (arena', r) := by
  obtain ⟨bucket, -, hfind⟩ := Option.bind_eq_some_iff.mp h
  cases hf : bucket.find? (isEntry arena data hash) with
  | some r₀ =>
    rw [hf] at hfind
    cases hfind
    exact .inl ⟨isEntry_iff.mp (List.find?_some hf), rfl⟩
  | none =>
    rw [hf] at hfind
    obtain ⟨⟨a, r₀⟩, halloc, hrest⟩ := Option.bind_eq_some_iff.mp hfind
    cases hrest
    exact .inr halloc

theorem wf_of_intern {t t' : StringTable} {data : List UInt8} {arena arena' : StringArena} {w : Color}
    {r : GcRef .string} (hw : arena.Wf) (h : t.intern data arena w = some (t', arena', r)) :
    arena'.Wf := by
  rcases internHashed_arena h with ⟨-, rfl⟩ | halloc
  · rw [resurrectIfDead]
    split
    · exact hw.setColor r w
    · exact hw
  · exact hw.alloc halloc

end StringTable

end Rilua.Vm
