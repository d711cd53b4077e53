import Rilua.Lib.Run
import Rilua.Vm.LuaString

/-! Interning is canonical. The string table, the string arena and the current white are stepped together
    through every interleaving of the intern calls with what the collector does to strings: marking,
    white flips, sweep batches, removal of dead entries, and table growth. The invariant is that every
    string in the arena has its own hash, is in the bucket of that hash, and is the only one with its
    bytes; what else a bucket holds does not matter. -/

namespace Rilua.Vm

open Lib Gc

/-- The part of the `Gc` record that interning reads and writes. -/
structure InternState where
  strings : StringTable := {}
  stringArena : StringArena := {}
  currentWhite : Color := .white0

/-- The three ways to intern bytes. -/
inductive InternCall where
  | intern (data : List UInt8)
  | internHashed (data : List UInt8) (hash : UInt32)
  | internHashedOwned (data : List UInt8) (hash : UInt32)

/-- The bytes given to a call. -/
def InternCall.data : InternCall → List UInt8
  | .intern data | .internHashed data _ | .internHashedOwned data _ => data

/-- A hash the caller provides is the cached hash of the bytes. -/
def InternCall.HashOk : InternCall → Prop
  | .intern _ => True
  | .internHashed data hash | .internHashedOwned data hash => hash = luaHash data

/-- What happens to strings between two intern calls. -/
inductive InternOp where
  | call (c : InternCall)
  /-- `mark_white_unfrozen(r, Black)` -/
  | mark (r : GcRef .string)
  /-- Colouring a static string black (`intern_string_static`). -/
  | blacken (r : GcRef .string)
  /-- Keeping a string found in a weak table (`clear_weak_tables`). -/
  | whiten (r : GcRef .string)
  | putFlag (r : GcRef .string) (f : Flag) (b : Bool)
  | flip
  | sweepBatch (start maxCount : ℕ)
  | sweepDead
  | reserve (additional : ℕ)
  | maybeShrink

namespace InternState

/-- One intern call: the state after it and the reference it returns. -/
def call (s : InternState) (c : InternCall) : Option (InternState × GcRef .string) :=
  (match c with
    | .intern data => s.strings.intern data s.stringArena s.currentWhite
    | .internHashed data hash => s.strings.internHashed data hash s.stringArena s.currentWhite
    | .internHashedOwned data hash =>
      s.strings.internHashedOwned data hash s.stringArena s.currentWhite).map
    fun (strings, stringArena, r) => ({ s with strings, stringArena }, r)

def step (s : InternState) : InternOp → Option InternState
  | .call c => (s.call c).map Prod.fst
  | .mark r => some { s with stringArena := (s.stringArena.markWhiteUnfrozen r .black).1 }
  | .blacken r => some { s with stringArena := (s.stringArena.setColor r .black).1 }
  | .whiten r => some { s with stringArena := (s.stringArena.setColor r s.currentWhite).1 }
  | .putFlag r f b => some { s with stringArena := (s.stringArena.putFlag r f b).1 }
  | .flip => some { s with currentWhite := s.currentWhite.otherWhite }
  | .sweepBatch start maxCount =>
    (s.stringArena.sweepPartial s.currentWhite.otherWhite s.currentWhite start maxCount).map
      fun (stringArena, _) => { s with stringArena }
  | .sweepDead => some { s with strings := s.strings.sweepDead s.stringArena }
  | .reserve additional =>
    (s.strings.reserve additional s.stringArena).map fun strings => { s with strings }
  | .maybeShrink => some { s with strings := s.strings.maybeShrink s.stringArena }

/-- The hashes callers provide are right. -/
def HashOk (_ : InternState) : InternOp → Prop
  | .call c => c.HashOk
  | _ => True

/-- The step does not free the string `r`. -/
def Keeps (r : GcRef .string) (s : InternState) (op : InternOp) : Prop :=
  ∀ s', s.step op = some s' → s'.stringArena.isValid r = true

/-- The invariant of interning. -/
structure Inv (s : InternState) : Prop where
  wf : s.stringArena.Wf
  white : s.currentWhite.isWhite = true
  buckets_pos : 0 < s.strings.buckets.length
  hash_eq : ∀ r x, s.stringArena.get r = some x → x.hash = luaHash x.data
  inBucket : ∀ r x, s.stringArena.get r = some x → s.strings.InBucket x.hash r
  unique : ∀ r r' x, s.stringArena.get r = some x → s.stringArena.get r' = some x → r = r'

theorem inv_new : Inv {} :=
  ⟨Arena.wf_new, rfl, by decide, by rintro _ _ ⟨⟩, by rintro _ _ ⟨⟩, by rintro _ _ _ ⟨⟩⟩

/-- Losing strings, and moving the entries of those left to their buckets, keeps the invariant. -/
theorem Inv.shrink {s s' : InternState} (h : s.Inv) (hwf : s'.stringArena.Wf)
    (hwhite : s'.currentWhite.isWhite = true) (hpos : 0 < s'.strings.buckets.length)
    (hget : ∀ r x, s'.stringArena.get r = some x → s.stringArena.get r = some x)
    (hbucket : ∀ r x, s'.stringArena.get r = some x → s.strings.InBucket x.hash r →
      s'.strings.InBucket x.hash r) : s'.Inv where
  wf := hwf
  white := hwhite
  buckets_pos := hpos
  hash_eq r x hx := h.hash_eq r x (hget r x hx)
  inBucket r x hx := hbucket r x hx (h.inBucket r x (hget r x hx))
  unique r r' x hx hx' := h.unique r r' x (hget r x hx) (hget r' x hx')

/-- What a step does to one string: it stays, and does not become dead unless it was; or it was dead
    and is freed; or there was none and there is none. -/
def CellStep (w : Color) : Option (Cell LuaString) → Option (Cell LuaString) → Prop
  | some x, some y => y.value = x.value ∧ (x.color ≠ w.otherWhite → y.color ≠ w.otherWhite)
  | some x, none => x.color = w.otherWhite
  | none, y => y = none

theorem CellStep.refl (w : Color) (x : Option (Cell LuaString)) : CellStep w x x := by
  cases x with
  | none => rfl
  | some x => exact ⟨rfl, id⟩

theorem CellStep.get_eq {w : Color} {a b : StringArena} (ha : a.Wf) (hb : b.Wf) {r : GcRef .string}
    (h : CellStep w (a.cell r) (b.cell r)) {s : LuaString} (hs : b.get r = some s) :
    a.get r = some s := by
  rw [Arena.get_eq_cell hb] at hs
  rw [Arena.get_eq_cell ha]
  cases hy : b.cell r with
  | none => rw [hy] at hs; cases hs
  | some y =>
    rw [hy] at hs h
    cases hx : a.cell r with
    | none => rw [hx] at h; cases h
    | some x =>
      rw [hx] at h
      rw [← hs, Option.map_some, Option.map_some, h.1]

/-- Recolouring a string with anything but the dead colour. -/
theorem cellStep_setColor {a : StringArena} (ha : a.Wf) {w c : Color} (hc : c ≠ w.otherWhite)
    (r r' : GcRef .string) : CellStep w (a.cell r') ((a.setColor r c).1.cell r') := by
  rw [Arena.cell_setColor ha]
  split
  · cases a.cell r' with
    | none => rfl
    | some x => exact ⟨rfl, fun _ => hc⟩
  · exact .refl _ _

theorem black_ne_otherWhite {w : Color} (h : w.isWhite = true) : Color.black ≠ w.otherWhite := by
  cases w <;> simp_all [Color.isWhite, Color.otherWhite]

theorem cellStep_mark {a : StringArena} (ha : a.Wf) {w : Color} (hw : w.isWhite = true)
    (r r' : GcRef .string) :
    CellStep w (a.cell r') ((a.markWhiteUnfrozen r .black).1.cell r') := by
  rw [Arena.markWhiteUnfrozen_eq ha]
  split
  · exact cellStep_setColor ha (black_ne_otherWhite hw) r r'
  · exact .refl _ _

theorem cellStep_putFlag {a : StringArena} (ha : a.Wf) (w : Color) (r : GcRef .string) (f : Flag)
    (b : Bool) (r' : GcRef .string) : CellStep w (a.cell r') ((a.putFlag r f b).1.cell r') := by
  rw [Arena.cell_putFlag ha]
  split
  · cases a.cell r' with
    | none => rfl
    | some x => exact ⟨rfl, id⟩
  · exact .refl _ _

theorem cellStep_swept {a b : StringArena} {w : Color} (hw : w.isWhite = true) {lo hi f : ℕ}
    (h : Arena.Swept w.otherWhite w a b lo hi f) (r : GcRef .string) :
    CellStep w (a.cell r) (b.cell r) := by
  rw [h.cell_eq r]
  split
  · cases a.cell r with
    | none => rfl
    | some x =>
      rw [Option.bind_some, Arena.sweepCell]
      split
      · next hd => exact hd.1
      · exact ⟨rfl, fun _ => Ne.symm (Color.otherWhite_ne hw)⟩
  · exact .refl _ _

theorem resurrectIfDead_wf {a : StringArena} (ha : a.Wf) (r : GcRef .string) (w : Color) :
    (resurrectIfDead a r w).Wf := by
  rw [resurrectIfDead]
  split
  · exact ha.setColor r w
  · exact ha

theorem cellStep_resurrect {a : StringArena} (ha : a.Wf) {w : Color} (hw : w.isWhite = true)
    (r r' : GcRef .string) : CellStep w (a.cell r') ((resurrectIfDead a r w).cell r') := by
  rw [resurrectIfDead]
  split
  · exact cellStep_setColor ha (Ne.symm (Color.otherWhite_ne hw)) r r'
  · exact .refl _ _

/-- A string handed back by the table is not dead. -/
theorem cell_resurrect_self {a : StringArena} (ha : a.Wf) {w : Color} (hw : w.isWhite = true)
    {r : GcRef .string} {x : Cell LuaString} (hx : a.cell r = some x) :
    ∃ y, (resurrectIfDead a r w).cell r = some y ∧ y.value = x.value ∧ y.color ≠ w.otherWhite := by
  rw [resurrectIfDead, Arena.color_eq_cell ha, hx]
  split
  · rw [Arena.cell_setColor ha, if_pos rfl, hx]
    exact ⟨_, rfl, rfl, Ne.symm (Color.otherWhite_ne hw)⟩
  · next hc => exact ⟨x, hx, rfl, fun h => hc (by rw [Option.map_some, h])⟩

/-! ### The intern calls -/

theorem call_eq (s : InternState) {c : InternCall} (hc : c.HashOk) :
    s.call c = (s.strings.internHashed c.data (luaHash c.data) s.stringArena s.currentWhite).map
      fun (strings, stringArena, r) => ({ s with strings, stringArena }, r) := by
  cases c with
  | intern data => rfl
  | internHashed data hash => obtain rfl : hash = luaHash data := hc; rfl
  | internHashedOwned data hash => obtain rfl : hash = luaHash data := hc; rfl

theorem grow_pos {t : StringTable} (h : 0 < t.buckets.length) (a : StringArena) :
    0 < (t.grow a).buckets.length := by
  rw [StringTable.grow]
  split
  · exact h
  · rw [StringTable.length_rehash]; omega

theorem inBucket_grow {t : StringTable} {a : StringArena} (h : 0 < t.buckets.length)
    {r : GcRef .string} {x : LuaString} (hx : a.get r = some x) (hb : t.InBucket x.hash r) :
    (t.grow a).InBucket x.hash r := by
  rw [StringTable.grow]
  split
  · exact hb
  · exact StringTable.inBucket_rehash (by omega) hx hb.mem_flatten

/-- What an intern call does. Either it finds the string, and at most recolours it, or there is no
    string with these bytes and the reference is a new one. -/
inductive CallResult (s : InternState) (data : List UInt8) : InternState → GcRef .string → Prop
  | found (r : GcRef .string) (hr : s.stringArena.get r = some ⟨luaHash data, data⟩) :
      CallResult s data { s with stringArena := resurrectIfDead s.stringArena r s.currentWhite } r
  | fresh (t : StringTable) (a : StringArena) (r : GcRef .string)
      (hnone : ∀ r' h, s.stringArena.get r' ≠ some ⟨h, data⟩)
      (halloc : s.stringArena.alloc ⟨luaHash data, data⟩ s.currentWhite = some (a, r))
      (hpos : 0 < t.buckets.length) (hnew : t.InBucket (luaHash data) r)
      (hold : ∀ r' x, a.get r' = some x → s.strings.InBucket x.hash r' → t.InBucket x.hash r') :
      CallResult s data { s with strings := t, stringArena := a } r

theorem call_cases {s s' : InternState} (h : s.Inv) {c : InternCall} (hc : c.HashOk)
    {r : GcRef .string} (hcall : s.call c = some (s', r)) : CallResult s c.data s' r := by
  rw [call_eq s hc] at hcall
  obtain ⟨⟨t, a, r'⟩, hintern, heq⟩ := Option.map_eq_some_iff.mp hcall
  cases heq
  obtain ⟨bucket, hbucket, hfind⟩ := Option.bind_eq_some_iff.mp hintern
  cases hf : bucket.find? (StringTable.isEntry s.stringArena c.data (luaHash c.data)) with
  | some r₀ =>
    rw [hf] at hfind
    cases hfind
    exact .found r (StringTable.isEntry_iff.mp (List.find?_some hf))
  | none =>
    rw [hf] at hfind
    obtain ⟨⟨a', r'⟩, halloc, hrest⟩ := Option.bind_eq_some_iff.mp hfind
    cases hrest
    have hwf' := h.wf.alloc halloc
    have hr : a.get r = some ⟨luaHash c.data, c.data⟩ := by
      rw [Arena.get_eq_cell hwf', Arena.cell_alloc h.wf halloc, if_pos rfl]; rfl
    -- the entry is pushed on its bucket, where the table may then grow
    have hpush := fun n hash' r' =>
      StringTable.inBucket_push h.buckets_pos (luaHash c.data) hash' r r' n
    set t' : StringTable := ⟨s.strings.buckets.modify
      (StringTable.bucketIdx (luaHash c.data) s.strings.buckets.length) (· ++ [r]),
      s.strings.count + 1⟩ with ht'
    have hpos' : 0 < t'.buckets.length := by simp [ht', h.buckets_pos]
    have hnew : t'.InBucket (luaHash c.data) r := (hpush _ _ _).mpr (.inr ⟨rfl, rfl⟩)
    have hold : ∀ r' (x : LuaString), s.strings.InBucket x.hash r' → t'.InBucket x.hash r' :=
      fun r' x hb => (hpush _ _ _).mpr (.inl hb)
    refine .fresh _ a r ?_ halloc ?_ ?_ ?_
    · -- a string with these bytes would have been found in the bucket of its hash
      intro r' hash' hr'
      obtain rfl : hash' = luaHash c.data := h.hash_eq r' _ hr'
      obtain ⟨b, hb, hmem⟩ := h.inBucket r' _ hr'
      obtain rfl : bucket = b := Option.some.inj (hbucket.symm.trans hb)
      exact absurd (StringTable.isEntry_iff.mpr hr')
        (by simpa using List.find?_eq_none.mp hf r' hmem)
    · split
      · exact grow_pos hpos' a
      · exact hpos'
    · split
      · exact inBucket_grow hpos' hr hnew
      · exact hnew
    · intro r' x hx hb
      split
      · exact inBucket_grow hpos' hx (hold r' x hb)
      · exact hold r' x hb

/-- What the arena looks like after a call: the returned reference is a live string with the given
    bytes, and everything else only steps. -/
theorem CallResult.spec {s s' : InternState} (h : s.Inv) {data : List UInt8} {r : GcRef .string}
    (hres : CallResult s data s' r) : s'.Inv ∧ s'.currentWhite = s.currentWhite ∧
      (∃ y, s'.stringArena.cell r = some y ∧ y.value = ⟨luaHash data, data⟩ ∧
        y.color ≠ s.currentWhite.otherWhite) ∧
      ∀ r' x, s.stringArena.cell r' = some x →
        CellStep s.currentWhite (some x) (s'.stringArena.cell r') := by
  cases hres with
  | found _ hr =>
    have hstep := cellStep_resurrect h.wf h.white r
    have hwf := resurrectIfDead_wf h.wf r s.currentWhite
    refine ⟨h.shrink hwf h.white h.buckets_pos (fun r' x hx => (hstep r').get_eq h.wf hwf hx)
      fun _ _ _ hb => hb, rfl, ?_, fun r' x hx => hx ▸ hstep r'⟩
    obtain ⟨x, hx, hv⟩ := Option.map_eq_some_iff.mp ((Arena.get_eq_cell h.wf r).symm.trans hr)
    obtain ⟨y, hy, hyv, hyc⟩ := cell_resurrect_self h.wf h.white hx
    exact ⟨y, hy, hyv.trans hv, hyc⟩
  | fresh t a _ hnone halloc hpos hnew hold =>
    have hwf := h.wf.alloc halloc
    have hcell := Arena.cell_alloc h.wf halloc
    have hfresh := Arena.cell_alloc_fresh h.wf halloc
    have hget : ∀ r', a.get r' =
        if r' = r then some ⟨luaHash data, data⟩ else s.stringArena.get r' := by
      intro r'
      rw [Arena.get_eq_cell hwf, hcell, Arena.get_eq_cell h.wf]
      split <;> rfl
    refine ⟨⟨hwf, h.white, hpos, ?_, ?_, ?_⟩, rfl, ?_, ?_⟩
    · intro r' x hx
      rw [hget] at hx
      split at hx
      · cases hx; rfl
      · exact h.hash_eq r' x hx
    · intro r' x hx
      have hx' := hx
      rw [hget] at hx'
      split at hx'
      · next hr' => cases hx'; subst hr'; exact hnew
      · exact hold r' x hx (h.inBucket r' x hx')
    · intro r₁ r₂ x h₁ h₂
      rw [hget] at h₁ h₂
      split at h₁ <;> split at h₂
      · next e₁ e₂ => rw [e₁, e₂]
      · cases h₁; exact absurd h₂ (hnone r₂ _)
      · cases h₂; exact absurd h₁ (hnone r₁ _)
      · exact h.unique r₁ r₂ x h₁ h₂
    · exact ⟨_, by rw [hcell, if_pos rfl], rfl, Ne.symm (Color.otherWhite_ne h.white)⟩
    · intro r' x hx
      have hne : r' ≠ r := by rintro rfl; rw [hfresh] at hx; cases hx
      rw [hcell, if_neg hne, hx]
      exact .refl _ _

/-! ### One step, and runs -/

theorem Inv.arenaStep {s : InternState} (h : s.Inv) {a : StringArena} (ha : a.Wf)
    (hcell : ∀ r, CellStep s.currentWhite (s.stringArena.cell r) (a.cell r)) :
    ({ s with stringArena := a } : InternState).Inv :=
  h.shrink ha h.white h.buckets_pos (fun r _ hx => (hcell r).get_eq h.wf ha hx) fun _ _ _ hb => hb

theorem Inv.rehash {s : InternState} (h : s.Inv) {n : ℕ} (hn : 0 < n) :
    ({ s with strings := s.strings.rehash n s.stringArena } : InternState).Inv :=
  h.shrink h.wf h.white (by rw [StringTable.length_rehash]; exact hn) (fun _ _ hx => hx)
    fun _ _ hx hb => StringTable.inBucket_rehash hn hx hb.mem_flatten

/-- A step keeps the invariant; a string either stays (and does not become dead unless the whites are
    flipped), or was dead and is freed. -/
theorem step_spec {s s' : InternState} (h : s.Inv) {op : InternOp} (hok : s.HashOk op)
    (hstep : s.step op = some s') : s'.Inv ∧ (op ≠ .flip → s'.currentWhite = s.currentWhite) ∧
      ∀ r x, s.stringArena.cell r = some x →
        CellStep s.currentWhite (some x) (s'.stringArena.cell r) := by
  have hself : ∀ r x, s.stringArena.cell r = some x →
      CellStep s.currentWhite (some x) (s.stringArena.cell r) := fun r x hx => hx ▸ .refl _ _
  have arena : ∀ {a : StringArena}, a.Wf →
      (∀ r, CellStep s.currentWhite (s.stringArena.cell r) (a.cell r)) →
      ({ s with stringArena := a } : InternState).Inv ∧ (op ≠ .flip → s.currentWhite = s.currentWhite) ∧
        ∀ r x, s.stringArena.cell r = some x → CellStep s.currentWhite (some x) (a.cell r) :=
    fun ha hcell => ⟨h.arenaStep ha hcell, fun _ => rfl, fun r x hx => hx ▸ hcell r⟩
  cases op with
  | call c =>
    obtain ⟨⟨t, r⟩, hcall, rfl⟩ := Option.map_eq_some_iff.mp hstep
    obtain ⟨hinv, hw, -, hcell⟩ := (call_cases h hok hcall).spec h
    exact ⟨hinv, fun _ => hw, hcell⟩
  | mark r => cases hstep; exact arena (h.wf.markWhiteUnfrozen r _) (cellStep_mark h.wf h.white r)
  | blacken r =>
    cases hstep
    exact arena (h.wf.setColor r _) (cellStep_setColor h.wf (black_ne_otherWhite h.white) r)
  | whiten r =>
    cases hstep
    exact arena (h.wf.setColor r _)
      (cellStep_setColor h.wf (Ne.symm (Color.otherWhite_ne h.white)) r)
  | putFlag r f b => cases hstep; exact arena (h.wf.putFlag r f b) (cellStep_putFlag h.wf _ r f b)
  | flip =>
    cases hstep
    refine ⟨⟨h.wf, by simpa using h.white, h.buckets_pos, h.hash_eq, h.inBucket, h.unique⟩,
      fun hne => absurd rfl hne, hself⟩
  | sweepBatch start maxCount =>
    obtain ⟨⟨a, f, pos, done⟩, ha, rfl⟩ := Option.map_eq_some_iff.mp hstep
    by_cases hs : start ≤ s.stringArena.entries.length
    · obtain ⟨a', f', pos', ha', hswept, -⟩ := Arena.sweepPartial_spec h.wf s.currentWhite.otherWhite
        s.currentWhite maxCount hs
      rw [ha'] at ha
      cases ha
      exact arena hswept.wf (cellStep_swept h.white hswept)
    · rw [Arena.sweepPartial_eq_none _ _ _ (by omega)] at ha
      cases ha
  | sweepDead =>
    cases hstep
    refine ⟨h.shrink h.wf h.white (by simpa [StringTable.sweepDead, StringTable.retain] using
      h.buckets_pos) (fun _ _ hx => hx) fun r x hx hb => ?_, fun _ => rfl, hself⟩
    exact StringTable.inBucket_retain hb (by simp only [hx, Option.isSome_some])
  | reserve n =>
    obtain ⟨t, ht, rfl⟩ := Option.map_eq_some_iff.mp hstep
    refine ⟨?_, fun _ => rfl, hself⟩
    simp only [StringTable.reserve] at ht
    split at ht
    · cases ht; exact h
    · obtain ⟨p, -, hp⟩ := Option.bind_eq_some_iff.mp ht
      cases hp
      exact h.rehash (Nat.lt_of_lt_of_le (by decide) (Nat.le_max_right _ _))
  | maybeShrink =>
    cases hstep
    refine ⟨?_, fun _ => rfl, hself⟩
    rw [StringTable.maybeShrink]
    split
    · next hc =>
      simp only [minStrTabSize] at hc
      exact h.rehash (by omega)
    · exact h

theorem run_inv {s s' : InternState} {ops : List InternOp} (hrun : Run step HashOk s ops s')
    (h : s.Inv) : s'.Inv :=
  hrun.invariant Inv (fun _ _ _ h hok hstep => (step_spec h hok hstep).1) h

/-- `r` denotes a string with these bytes. -/
def Denotes (s : InternState) (r : GcRef .string) (data : List UInt8) : Prop :=
  s.stringArena.get r = some ⟨luaHash data, data⟩

/-- A string that is not freed still denotes the same bytes. -/
theorem run_denotes {s s' : InternState} {ops : List InternOp} {r : GcRef .string} {data : List UInt8}
    (hrun : Run step (fun s op => HashOk s op ∧ Keeps r s op) s ops s') (h : s.Inv)
    (hd : s.Denotes r data) : s'.Denotes r data := by
  refine (hrun.invariant (fun s => s.Inv ∧ s.Denotes r data) ?_ ⟨h, hd⟩).2
  rintro s op s' ⟨h, hd⟩ ⟨hok, hkeeps⟩ hstep
  obtain ⟨h', -, hcell⟩ := step_spec h hok hstep
  refine ⟨h', ?_⟩
  obtain ⟨x, hx, hv⟩ := Option.map_eq_some_iff.mp ((Arena.get_eq_cell h.wf r).symm.trans hd)
  obtain ⟨v, hv'⟩ := Option.isSome_iff_exists.mp (hkeeps s' hstep)
  obtain ⟨y, hy, -⟩ := Option.map_eq_some_iff.mp ((Arena.get_eq_cell h'.wf r).symm.trans hv')
  have hxy := hcell r x hx
  rw [hy] at hxy
  rw [Denotes, Arena.get_eq_cell h'.wf, hy, Option.map_some, hxy.1, hv]

/-- Until the next flip, a string that is not dead is neither freed nor dead. -/
theorem run_settled {s s' : InternState} {ops : List InternOp} {r : GcRef .string}
    {x : Cell LuaString} (hrun : Run step (fun s op => HashOk s op ∧ op ≠ .flip) s ops s') (h : s.Inv)
    (hx : s.stringArena.cell r = some x) (hc : x.color ≠ s.currentWhite.otherWhite) :
    ∃ y, s'.stringArena.cell r = some y ∧ y.value = x.value ∧
      y.color ≠ s'.currentWhite.otherWhite := by
  refine (hrun.invariant (fun s => s.Inv ∧ ∃ y, s.stringArena.cell r = some y ∧
    y.value = x.value ∧ y.color ≠ s.currentWhite.otherWhite) ?_ ⟨h, x, hx, rfl, hc⟩).2
  rintro s op s' ⟨h, y, hy, hyv, hyc⟩ ⟨hok, hflip⟩ hstep
  obtain ⟨h', hw, hcell⟩ := step_spec h hok hstep
  refine ⟨h', ?_⟩
  have hyz := hcell r y hy
  cases hz : s'.stringArena.cell r with
  | none => rw [hz] at hyz; exact absurd hyz hyc
  | some z =>
    rw [hz] at hyz
    exact ⟨z, rfl, hyz.1.trans hyv, hw hflip ▸ hyz.2 hyc⟩

/-- In every state a run reaches, an intern call returns a reference that denotes exactly the given
    bytes; a later call with equal bytes returns the same reference if the string was not freed in
    between; and until the next flip no step frees it. -/
theorem call_canonical {s : InternState} {ops : List InternOp} (hrun : Run step HashOk {} ops s)
    (c : InternCall) (hc : c.HashOk) {s₁ : InternState} {r : GcRef .string}
    (hcall : s.call c = some (s₁, r)) :
    (s₁.stringArena.get r).map LuaString.data = some c.data ∧
      (∀ ops' s₂ c' s₃ r', Run step (fun s op => HashOk s op ∧ Keeps r s op) s₁ ops' s₂ →
        c'.HashOk → c'.data = c.data → s₂.call c' = some (s₃, r') → r' = r) ∧
      ∀ ops' s₂, Run step (fun s op => HashOk s op ∧ op ≠ .flip) s₁ ops' s₂ →
        (s₂.stringArena.get r).map LuaString.data = some c.data := by
  have h := run_inv hrun inv_new
  obtain ⟨h₁, hw, ⟨y, hy, hyv, hyc⟩, -⟩ := (call_cases h hc hcall).spec h
  have hd : s₁.Denotes r c.data := by rw [Denotes, Arena.get_eq_cell h₁.wf, hy, Option.map_some, hyv]
  refine ⟨by rw [hd]; rfl, ?_, ?_⟩
  · intro ops' s₂ c' s₃ r' hrun' hc' hdata hcall'
    have hd₂ := run_denotes hrun' h₁ hd
    have h₂ := run_inv (hrun'.mono fun _ _ hok => hok.1) h₁
    have hres := call_cases h₂ hc' hcall'
    rw [hdata] at hres
    cases hres with
    | found _ hr' => exact h₂.unique r' r _ hr' hd₂
    | fresh t a _ hnone => exact absurd hd₂ (hnone r _)
  · intro ops' s₂ hrun'
    obtain ⟨z, hz, hzv, -⟩ := run_settled hrun' h₁ hy (hw ▸ hyc)
    have h₂ := run_inv (hrun'.mono fun _ _ hok => hok.1) h₁
    rw [Arena.get_eq_cell h₂.wf, hz, Option.map_some, hzv, hyv]
    rfl

/-- The first string of a program: interned again after a flip and a sweep batch that would have freed
    it, it is the same reference. -/
theorem call_canonical_twice :
    (({} : InternState).call (.intern [97])).bind (fun (s₁, r) => s₁.step .flip >>= fun s₂ =>
      (s₂.call (.intern [97])).bind fun (s₃, r') => (s₃.step (.sweepBatch 0 40)).map fun s₄ =>
        (decide (r' = r), s₄.stringArena.isValid r)) = some (true, true) ∧
      ∃ s₁ r, ({} : InternState).call (.intern [97]) = some (s₁, r) ∧
        (s₁.stringArena.get r).map LuaString.data = some [97] :=
  ⟨by rfl, _, _, rfl, (@call_canonical {} [] (.nil _) (.intern [97]) trivial _ _ rfl).1⟩

end InternState

end Rilua.Vm
