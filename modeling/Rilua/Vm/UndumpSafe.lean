import Rilua.Vm.UndumpDemands

/-! When loading a chunk is safe. The sizes in a chunk are bounded as they are read: a walker over the bytes of
    the chunk looks at the sizes alone, and meets one out of bounds exactly if the loader panics, requests
    storage beyond the length of the input or nests deeper than allowed. -/

namespace Rilua.Vm

open Lib

/-- A demand that an input of `len` bytes can be granted, with functions nested at most `D` deep. -/
def Demand.Met (D len : ℕ) : Demand → Prop
  | .advance pos n => pos + n ≤ usizeMax
  | .index pos n => pos + n ≤ len
  | .storage n => n ≤ len
  | .depth d => d ≤ D

/-- A Lua error, not a panic. -/
def UndumpError.IsSyntax : UndumpError → Prop
  | .syntaxError _ => True
  | .capacity | .fuel => False

/-- `undump` returns a prototype or a syntax error, and all it demands of the machine is granted. -/
def UndumpSafe (D : ℕ) (data : List UInt8) (name : String) : Prop :=
  (∀ e, undump data name = .error e → e.IsSyntax) ∧ ∀ d ∈ undumpDemands data name, d.Met D data.length

/-! ### The sizes of a chunk -/

abbrev ChunkWalker := Reader UInt8 Refusal

namespace ChunkWalker

def takeByte : ChunkWalker UInt8 := fun data pos =>
  match data[pos]? with
  | some b => .ok (b, pos + 1)
  | none => .error .malformed

def takeBytes (n : ℕ) : ChunkWalker (List UInt8) := fun data pos =>
  if data.length < pos + n then .error .malformed else .ok ((data.drop pos).take n, pos + n)

/-- A 4-byte int as a count. -/
def takeCount : ChunkWalker ℕ := do
  let bytes ← takeBytes 4
  pure (asUsize (BitVec.ofNat 32 (ofLeBytes bytes)))

/-- The end of the next `n` bytes is a position. -/
def addressable (n : ℕ) : ChunkWalker Unit := fun _ pos =>
  if usizeMax < pos + n then .error .excessive else .ok ((), pos)

/-- The input has at least `n` bytes. -/
def bounded (n : ℕ) : ChunkWalker Unit := fun data pos =>
  if data.length < n then .error .excessive else .ok ((), pos)

/-- A string is a size and so many bytes, the last of which is not part of it. -/
def skipString : ChunkWalker Unit := do
  let bytes ← takeBytes 8
  let size := BitVec.ofNat 64 (ofLeBytes bytes)
  if size = 0 then pure ()
  else do
    addressable (size - 1).toNat
    let _ ← takeBytes (size - 1).toNat
    let _ ← takeByte
    pure ()

def skipWords : ChunkWalker Unit := do
  let n ← takeCount
  if usizeMax < n * 4 then Reader.fail .malformed
  else do
    let _ ← takeBytes (n * 4)
    pure ()

/-- A count and so many elements. -/
def skipCounted (element : ChunkWalker Unit) : ChunkWalker (List Unit) := do
  let n ← takeCount
  bounded n
  Reader.times n element

def skipConstant : ChunkWalker Unit := do
  let tag ← takeByte
  if tag = luaTNil then pure ()
  else if tag = luaTBoolean then do
    let _ ← takeByte
    pure ()
  else if tag = luaTNumber then do
    let _ ← takeBytes 8
    pure ()
  else if tag = luaTString then skipString
  else Reader.fail .malformed

def skipLocalVar : ChunkWalker Unit := do
  skipString
  let _ ← takeCount
  let _ ← takeCount
  pure ()

/-- A function, with at most `D` functions nested in one another. -/
def skipFunction : ℕ → ChunkWalker Unit
  | 0 => Reader.fail .excessive
  | D + 1 => do
    skipString
    let _ ← takeCount
    let _ ← takeCount
    let _ ← takeByte
    let _ ← takeByte
    let _ ← takeByte
    let _ ← takeByte
    skipWords
    let _ ← skipCounted skipConstant
    let _ ← skipCounted (skipFunction D)
    skipWords
    let _ ← skipCounted skipLocalVar
    let _ ← skipCounted skipString
    pure ()

def skipHeader : ChunkWalker Unit := do
  let sig ← takeBytes luaSignature.length
  if sig ≠ luaSignature then Reader.fail .malformed
  else do
    let rest ← takeBytes (luacHeaderSize - luaSignature.length)
    if rest ≠ makeHeader.drop luaSignature.length then Reader.fail .malformed else pure ()

end ChunkWalker

/-- Up to the place where the input is cut off or malformed, if there is one: the size of each string leads to
    a position, the count of each list is at most the length of the input, and functions nest at most `D` deep. -/
def SizesBounded (D : ℕ) (data : List UInt8) : Prop :=
  (do ChunkWalker.skipHeader; ChunkWalker.skipFunction D : ChunkWalker Unit) data 0 ≠ .error .excessive

/-! ### The loader follows the walker -/

/-- The loader, at `pos`, agrees with a walker. -/
abbrev Follows (D : ℕ) (data : List UInt8) {α β : Type} (pos : ℕ) (r : TracedChunkReader α) (w : ChunkWalker β)
    (R : α → β → ℕ → Prop) : Prop :=
  Traced.Agrees (Demand.Met D data.length) UndumpError.IsSyntax data pos r w R

namespace Demand

open ChunkWalker Traced

variable {D pos : ℕ} {data : List UInt8} (name : String)

theorem follows_loadByte (hlen : data.length ≤ isizeMax) :
    Follows D data pos (loadByte name) takeByte fun a b _ => a = b := by
  unfold Follows Agrees loadByte takeByte
  cases hget : data[pos]? with
  | none => exact ⟨fun _ hd => (List.not_mem_nil hd).elim, _, rfl, trivial⟩
  | some b =>
    have hlt : pos < data.length := (List.getElem?_eq_some_iff.mp hget).1
    refine ⟨?_, b, rfl, Nat.le_succ pos, hlt, rfl⟩
    rw [isizeMax] at hlen
    have hadvance : Met D data.length (.advance pos 1) := by
      rw [Met, usizeMax]
      omega
    have hindex : Met D data.length (.index pos 1) := hlt
    simp [hadvance, hindex]

theorem follows_loadBlock {n : ℕ} (hn : pos + n ≤ usizeMax) :
    Follows D data pos (loadBlock name n) (takeBytes n) fun a b q => a = b ∧ q = pos + n := by
  have hadvance : Met D data.length (.advance pos n) := hn
  unfold Follows Agrees loadBlock takeBytes
  rw [if_neg (Nat.not_lt.mpr hn)]
  by_cases hlt : data.length < pos + n
  · rw [if_pos hlt, if_pos hlt]
    exact ⟨by simp [hadvance], _, rfl, trivial⟩
  · have hindex : Met D data.length (.index pos n) := Nat.not_lt.mp hlt
    rw [if_neg hlt, if_neg hlt]
    exact ⟨by simp [hadvance, hindex], _, rfl, Nat.le_add_right pos n, Nat.not_lt.mp hlt, rfl, rfl⟩

/-- A position in the input leaves room for any fixed number of bytes. -/
theorem add_le_usizeMax (hlen : data.length ≤ isizeMax) (hpos : pos ≤ data.length) {n : ℕ} (hn : n < 2 ^ 63) :
    pos + n ≤ usizeMax := by
  rw [isizeMax] at hlen
  rw [usizeMax]
  omega

theorem follows_loadInt (hlen : data.length ≤ isizeMax) (hpos : pos ≤ data.length) :
    Follows D data pos (loadInt name) takeCount fun a b _ => asUsize a = b := by
  refine (follows_loadBlock name (add_le_usizeMax hlen hpos (by decide))).bind fun a b q _ hq hab => ?_
  exact .pure hq (by rw [hab.1])

theorem follows_loadSize (hlen : data.length ≤ isizeMax) (hpos : pos ≤ data.length) :
    Follows D data pos (loadSize name) (takeBytes 8) fun a b q =>
      a = BitVec.ofNat 64 (ofLeBytes b) ∧ q = pos + 8 := by
  exact (follows_loadBlock name (add_le_usizeMax hlen hpos (n := 8) (by decide))).map _ fun a b q hab =>
    ⟨by rw [hab.1], hab.2⟩

/-- A size is the one place where a position is computed without a bound. -/
theorem follows_loadString (hlen : data.length ≤ isizeMax) (hpos : pos ≤ data.length) :
    Follows D data pos (loadString name) skipString fun _ _ q => pos + 8 ≤ q := by
  refine (follows_loadSize name hlen hpos).bind fun size bytes q _ hq hab => ?_
  obtain ⟨rfl, rfl⟩ := hab
  by_cases hzero : BitVec.ofNat 64 (ofLeBytes bytes) = 0
  · rw [if_pos hzero, if_pos hzero]
    exact .pure hq (Nat.le_refl _)
  rw [if_neg hzero, if_neg hzero]
  generalize (BitVec.ofNat 64 (ofLeBytes bytes) - 1).toNat = n
  by_cases hsum : usizeMax < pos + 8 + n
  · refine .unmet (d := .advance (pos + 8) n) (Nat.not_le.mpr hsum) (mem_bind _ ?_) ?_
    · rw [loadBlock, if_pos hsum]
      exact List.mem_singleton_self _
    · rw [Reader.bind_apply, addressable, if_pos hsum]
      rfl
  · refine .check (by rw [addressable, if_neg hsum]) ?_
    refine (follows_loadBlock name (Nat.not_lt.mp hsum)).bind fun a b q _ hq hab => ?_
    have hstorage : Met D data.length (.storage n) := by
      rw [Met]
      omega
    refine .note hstorage ((follows_loadByte name hlen).bind fun _ _ q' hle' hq' _ => .pure hq' ?_)
    omega

/-- A number of words is checked: a negative one is too large, any other leads to a position. -/
theorem follows_loadCode (hlen : data.length ≤ isizeMax) (hpos : pos ≤ data.length) :
    Follows D data pos (loadCode name) skipWords fun _ _ _ => True := by
  refine (follows_loadInt name hlen hpos).bind fun n _ q _ hq hn => ?_
  subst hn
  rw [loadU32Vec]
  by_cases hbig : usizeMax < asUsize n * 4
  · rw [if_pos hbig, if_pos hbig]
    exact .fail trivial
  · rw [if_neg hbig, if_neg hbig]
    have hn : asUsize n < 2 ^ 31 := by
      rcases asUsize_lt_or n with hlt | hle
      · exact hlt
      · rw [usizeMax] at hbig
        omega
    have hfit : asUsize n * 4 < 2 ^ 63 := by omega
    refine (follows_loadBlock name (add_le_usizeMax hlen hq hfit)).bind fun a b q' _ hq' hab => ?_
    have hstorage : Met D data.length (.storage (asUsize n)) := by
      rw [Met]
      omega
    exact .note hstorage (.pure hq' trivial)

/-- A count of at most the length of the input is no cause for a panic. -/
theorem follows_counted {n : BitVec 32} {size : ℕ} (hsize : size ≤ 32) (hlen : data.length ≤ isizeMax)
    (hpos : pos ≤ data.length) {α : Type} {r : TracedChunkReader (List α)} {w : ChunkWalker (List Unit)}
    (h : Follows D data pos r w fun _ _ _ => True) :
    Follows D data pos (do reserve (asUsize n) size; r)
      (do bounded (asUsize n); w) fun _ _ _ => True := by
  by_cases hbig : data.length < asUsize n
  · refine .unmet (d := .storage (asUsize n)) (Nat.not_le.mpr hbig) (mem_bind _ (mem_bind _ ?_)) ?_
    · exact List.mem_singleton_self _
    · rw [Reader.bind_apply, bounded, if_pos hbig]
      rfl
  · refine .check (by rw [bounded, if_neg hbig]) ?_
    have hstorage : Met D data.length (.storage (asUsize n)) := Nat.not_lt.mp hbig
    have hroom : ¬ isizeMax < asUsize n * size := by
      have hmul : asUsize n * size ≤ asUsize n * 32 := Nat.mul_le_mul_left _ hsize
      rw [isizeMax] at hlen ⊢
      rcases asUsize_lt_or n with hlt | hle <;> omega
    have hreserve : Follows D data pos (reserve (asUsize n) size) (pure ()) fun _ _ q => q = pos := by
      rw [reserve, if_neg hroom]
      exact .note hstorage (.pure hpos rfl)
    have hbind := hreserve.bind (f := fun _ => r) (g := fun _ => w) (Q := fun _ _ _ => True)
      fun _ _ q _ _ hq => hq ▸ h
    rwa [pure_bind] at hbind

theorem follows_loadConstant (hlen : data.length ≤ isizeMax) (i : ℕ) :
    Follows D data pos (loadConstant name i) skipConstant fun _ _ _ => True := by
  refine (follows_loadByte name hlen).bind fun tag _ q _ hq htag => ?_
  subst htag
  by_cases hnil : tag = luaTNil
  · rw [if_pos hnil, if_pos hnil]
    exact .pure hq trivial
  rw [if_neg hnil, if_neg hnil]
  by_cases hbool : tag = luaTBoolean
  · rw [if_pos hbool, if_pos hbool]
    exact (follows_loadByte name hlen).bind fun _ _ _ _ hq' _ => .pure hq' trivial
  rw [if_neg hbool, if_neg hbool]
  by_cases hnum : tag = luaTNumber
  · rw [if_pos hnum, if_pos hnum]
    have hblock : Follows D data q (loadBlock name 8) (takeBytes 8) _ :=
      follows_loadBlock name (add_le_usizeMax hlen hq (by decide))
    have hnumber : Follows D data q (loadNumber name) (takeBytes 8) fun _ _ _ => True :=
      hblock.map _ fun _ _ _ _ => trivial
    exact hnumber.bind fun _ _ _ _ hq' _ => .pure hq' trivial
  rw [if_neg hnum, if_neg hnum]
  by_cases hstr : tag = luaTString
  · rw [if_pos hstr, if_pos hstr]
    exact (follows_loadString name hlen hq).map _ fun _ _ _ _ => trivial
  · rw [if_neg hstr, if_neg hstr]
    exact .fail trivial

theorem follows_loadConstantPool (hlen : data.length ≤ isizeMax) (hpos : pos ≤ data.length) :
    Follows D data pos (loadConstantPool name) (skipCounted skipConstant) fun _ _ _ => True := by
  refine (follows_loadInt name hlen hpos).bind fun n _ q _ hq hn => ?_
  subst hn
  refine follows_counted (by decide) hlen hq ?_
  exact Agrees.timesFrom (fun i _ _ _ => follows_loadConstant name hlen i) _ 0 (Nat.le_refl q) hq

theorem follows_loadList {α : Type} {size : ℕ} (hsize : size ≤ 32) (hlen : data.length ≤ isizeMax)
    (hpos : pos ≤ data.length) {element : TracedChunkReader α} {skip : ChunkWalker Unit}
    (h : ∀ q, pos ≤ q → q ≤ data.length → Follows D data q element skip fun _ _ _ => True) :
    Follows D data pos (loadList name size element) (skipCounted skip) fun _ _ _ => True := by
  refine (follows_loadInt name hlen hpos).bind fun n _ q hle hq hn => ?_
  subst hn
  refine follows_counted hsize hlen hq (Agrees.times hq (fun q' hle' => h q' (hle.trans hle')) _)

theorem follows_loadName (hlen : data.length ≤ isizeMax) (hpos : pos ≤ data.length) :
    Follows D data pos (loadName name) skipString fun _ _ _ => True :=
  (follows_loadString name hlen hpos).map _ fun _ _ _ _ => trivial

theorem follows_loadLocalVar (hlen : data.length ≤ isizeMax) (hpos : pos ≤ data.length) :
    Follows D data pos (loadLocalVar name) skipLocalVar fun _ _ _ => True := by
  refine (follows_loadName name hlen hpos).bind fun _ _ _ _ hq _ => ?_
  refine (follows_loadInt name hlen hq).bind fun _ _ _ _ hq _ => ?_
  exact (follows_loadInt name hlen hq).bind fun _ _ _ _ hq _ => .pure hq trivial

/-- The walk goes on in the nested functions until the depth is exhausted. The fuel of the loader outlasts it,
    as it exceeds what is left of the input. -/
theorem follows_loadFunction (hlen : data.length ≤ isizeMax) {fuel : ℕ} :
    ∀ {d pos : ℕ} (parentSource : String), pos ≤ data.length → data.length < pos + fuel →
      Follows D data pos (loadFunction name fuel d parentSource) (skipFunction (D - d)) fun _ _ _ => True := by
  induction fuel with
  | zero =>
    intro d pos parentSource hpos hfuel
    omega
  | succ fuel ih =>
    intro d pos parentSource hpos hfuel
    cases hD : D - d with
    | zero =>
      refine .unmet (d := .depth (d + 1)) (fun hmet : d + 1 ≤ D => by omega) ?_ rfl
      exact mem_bind _ (List.mem_singleton_self _)
    | succ D' =>
      have hdepth : Met D data.length (.depth (d + 1)) := by
        rw [Met]
        omega
      refine .note hdepth ?_
      have hsource : Follows D data pos (loadSource name parentSource) skipString fun _ _ q => pos + 8 ≤ q :=
        (follows_loadString name hlen hpos).map _ fun _ _ _ h => h
      refine hsource.bind fun source _ q _ hq hadv => ?_
      refine (follows_loadInt name hlen hq).bind fun _ _ q₁ h₁ hq _ => ?_
      refine (follows_loadInt name hlen hq).bind fun _ _ q₂ h₂ hq _ => ?_
      refine (follows_loadByte name hlen).bind fun _ _ q₃ h₃ hq _ => ?_
      refine (follows_loadByte name hlen).bind fun _ _ q₄ h₄ hq _ => ?_
      refine (follows_loadByte name hlen).bind fun _ _ q₅ h₅ hq _ => ?_
      refine (follows_loadByte name hlen).bind fun _ _ q₆ h₆ hq _ => ?_
      refine (follows_loadCode name hlen hq).bind fun _ _ q₇ h₇ hq _ => ?_
      refine (follows_loadConstantPool name hlen hq).bind fun _ _ q₈ h₈ hq _ => ?_
      have hchild : ∀ q', q₈ ≤ q' → q' ≤ data.length →
          Follows D data q' (loadFunction name fuel (d + 1) source) (skipFunction D') fun _ _ _ => True := by
        intro q' hle hq'
        have hrest : D - (d + 1) = D' := by omega
        rw [← hrest]
        exact ih source hq' (by omega)
      refine (follows_loadList name (by decide) hlen hq hchild).bind fun _ _ q₉ _ hq _ => ?_
      refine (follows_loadCode name hlen hq).bind fun _ _ _ _ hq _ => ?_
      refine (follows_loadList name (by decide) hlen hq fun _ _ h => follows_loadLocalVar name hlen h).bind
        fun _ _ _ _ hq _ => ?_
      exact (follows_loadList name (by decide) hlen hq fun _ _ h => follows_loadName name hlen h).bind
        fun _ _ _ _ hq _ => .pure hq trivial

theorem follows_loadHeader (hlen : data.length ≤ isizeMax) (hpos : pos ≤ data.length) :
    Follows D data pos (loadHeader name) skipHeader fun _ _ _ => True := by
  refine (follows_loadBlock name (add_le_usizeMax hlen hpos (by decide))).bind fun sig _ q _ hq hsig => ?_
  obtain ⟨rfl, -⟩ := hsig
  by_cases hne : sig ≠ luaSignature
  · rw [if_pos hne, if_pos hne]
    exact .fail trivial
  rw [if_neg hne, if_neg hne]
  refine (follows_loadBlock name (add_le_usizeMax hlen hq (by decide))).bind fun rest _ q' _ hq' hrest => ?_
  obtain ⟨rfl, -⟩ := hrest
  by_cases hne' : rest ≠ makeHeader.drop luaSignature.length
  · rw [if_pos hne', if_pos hne']
    exact .fail trivial
  · rw [if_neg hne', if_neg hne']
    exact .pure hq' trivial

end Demand

/-- The loader keeps to the bounds of the machine exactly on the chunks whose sizes are bounded. -/
theorem undump_safe_iff (D : ℕ) (data : List UInt8) (name : String) (hlen : data.length ≤ isizeMax) :
    UndumpSafe D data name ↔ SizesBounded D data := by
  have hfollows : Follows D data 0
      (do Demand.loadHeader name; Demand.loadFunction name (data.length + 1) 0 name : TracedChunkReader Proto)
      (do ChunkWalker.skipHeader; ChunkWalker.skipFunction D : ChunkWalker Unit) fun _ _ _ => True := by
    refine (Demand.follows_loadHeader name hlen (Nat.zero_le _)).bind fun _ _ q _ hq _ => ?_
    exact Demand.follows_loadFunction name hlen name hq (by omega)
  have hsound : UndumpSafe D data name ↔
      Traced.Sound (Demand.Met D data.length) UndumpError.IsSyntax (undumpTraced data name) := by
    rw [UndumpSafe, undumpTraced_snd, Traced.Sound, and_comm]
    refine and_congr Iff.rfl (forall_congr' fun e => ?_)
    rcases (undumpTraced data name).2 with e' | x <;> simp [Except.map]
  exact hsound.trans hfollows.sound_iff

/-- An empty prototype, dumped, is loaded safely. -/
theorem undump_safe_iff_empty :
    (dump (Proto.new "f") none false).length ≤ isizeMax ∧ UndumpSafe 1 (dump (Proto.new "f") none false) "f" := by
  have hlen : (dump (Proto.new "f") none false).length ≤ isizeMax := by decide
  have hwalk : (do ChunkWalker.skipHeader; ChunkWalker.skipFunction 1 : ChunkWalker Unit)
      (dump (Proto.new "f") none false) 0 = .ok ((), 58) := by rfl
  refine ⟨hlen, (undump_safe_iff 1 _ "f" hlen).2 ?_⟩
  rw [SizesBounded, hwalk]
  rintro ⟨⟩

/-- A source name of size 2^64 - 1 is enough to leave the range of positions. -/
theorem not_undump_safe :
    ¬ ∃ D, ∀ (data : List UInt8) (name : String),
      luaSignature <+: data → data.length ≤ isizeMax → UndumpSafe D data name := by
  rintro ⟨D, h⟩
  have hsafe := h (makeHeader ++ List.replicate 8 0xff) "f" (by decide) (by decide)
  have hpanic : undump (makeHeader ++ List.replicate 8 0xff) "f" = .error .capacity := by rfl
  exact hsafe.1 _ hpanic

end Rilua.Vm
