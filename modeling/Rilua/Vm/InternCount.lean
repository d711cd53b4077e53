import Rilua.Vm.Interning

/-! The counter of the string table. Interning, and taking freed strings out of the buckets, keep it equal to the number
    of references that the buckets hold. A rehash leaves out the references to freed strings without counting them off,
    so the counter stays equal where no rehash meets one. -/

namespace Rilua.Vm

open Lib Gc

namespace StringTable

/-- The number of references in the buckets. -/
def held (t : StringTable) : ℕ := (t.buckets.map List.length).sum

/-- The counter is the number of references. -/
def Exact (t : StringTable) : Prop := t.count = t.held

theorem sum_length_push {α : Type} (r : α) : ∀ {bs : List (List α)} {idx : ℕ}, idx < bs.length →
    ((bs.modify idx (· ++ [r])).map List.length).sum = (bs.map List.length).sum + 1
  | b :: bs, 0, _ => by
    simp only [List.modify_zero_cons, List.map_cons, List.sum_cons, List.length_append, List.length_singleton]
    omega
  | b :: bs, idx + 1, h => by
    simp only [List.modify_succ_cons, List.map_cons, List.sum_cons, sum_length_push r (Nat.lt_of_succ_lt_succ h)]
    omega

theorem held_push {t : StringTable} {idx : ℕ} (hidx : idx < t.buckets.length) (r : GcRef .string) (n : ℕ) :
    held ⟨t.buckets.modify idx (· ++ [r]), n⟩ = t.held + 1 := sum_length_push r hidx

theorem mem_pushed {t : StringTable} {idx : ℕ} {r r' : GcRef .string} {n : ℕ}
    (h : r' ∈ (⟨t.buckets.modify idx (· ++ [r]), n⟩ : StringTable).buckets.flatten) : r' ∈ t.buckets.flatten ∨ r' = r := by
  simp only [List.mem_flatten] at h ⊢
  obtain ⟨bucket, hb, hr⟩ := h
  obtain ⟨i, hi⟩ := List.getElem?_of_mem hb
  rw [List.getElem?_modify] at hi
  obtain ⟨b, hold, hmod⟩ := Option.map_eq_some_iff.mp hi
  have hmem := List.mem_of_getElem? hold
  split at hmod
  · rw [← hmod] at hr
    rcases List.mem_append.mp hr with hr | hr
    · exact .inl ⟨b, hmem, hr⟩
    · exact .inr (List.mem_singleton.mp hr)
  · exact .inl ⟨b, hmem, by rw [← hmod] at hr; exact hr⟩

/-- The loop of a rehash puts every reference that is not stale in one bucket. -/
theorem held_foldl_pushRehashed (arena : StringArena) {newSize : ℕ} (h0 : 0 < newSize) (count : ℕ) :
    ∀ (rs : List (GcRef .string)) (bs : List (List (GcRef .string))), bs.length = newSize →
      held ⟨rs.foldl (pushRehashed arena newSize) bs, count⟩ =
        held ⟨bs, count⟩ + rs.countP fun r => (arena.get r).isSome
  | [], bs, _ => rfl
  | r :: rs, bs, hlen => by
    rw [List.foldl_cons, List.countP_cons, pushRehashed]
    cases hr : arena.get r with
    | none =>
      rw [held_foldl_pushRehashed arena h0 count rs bs hlen]
      simp
    | some s =>
      have hidx : bucketIdx s.hash newSize < (⟨bs, count⟩ : StringTable).buckets.length := by
        dsimp only
        rw [hlen]
        exact bucketIdx_lt s.hash h0
      have hpush : held ⟨bs.modify (bucketIdx s.hash newSize) (· ++ [r]), count⟩ = held ⟨bs, count⟩ + 1 :=
        held_push hidx r count
      dsimp only
      rw [held_foldl_pushRehashed arena h0 count rs _ (by rw [List.length_modify]; exact hlen), hpush]
      simp only [Option.isSome_some, if_true]
      omega

theorem held_rehash (t : StringTable) {newSize : ℕ} (h0 : 0 < newSize) (arena : StringArena) :
    (t.rehash newSize arena).held = t.buckets.flatten.countP fun r => (arena.get r).isSome := by
  have hnew : held ⟨List.replicate newSize [], t.count⟩ = 0 := by simp [held]
  rw [rehash, held_foldl_pushRehashed arena h0 _ _ _ (List.length_replicate ..), hnew, Nat.zero_add]

/-- No bucket holds a reference to a freed string. -/
def NoneStale (t : StringTable) (arena : StringArena) : Prop := ∀ r ∈ t.buckets.flatten, (arena.get r).isSome = true

/-- A rehash keeps the counter equal if and only if it meets no reference to a freed string. -/
theorem Exact.rehash_iff {t : StringTable} (h : t.Exact) {newSize : ℕ} (h0 : 0 < newSize) (arena : StringArena) :
    (t.rehash newSize arena).Exact ↔ t.NoneStale arena := by
  have hcount : (t.rehash newSize arena).count = t.buckets.flatten.length := by
    rw [List.length_flatten]
    exact h
  rw [Exact, held_rehash t h0, hcount, eq_comm, List.countP_eq_length]
  rfl

theorem Exact.retain {t : StringTable} (h : t.Exact) (p : GcRef .string → Bool) : (t.retain p).Exact := by
  have hsum : ∀ bs : List (List (GcRef .string)), (bs.map List.length).sum =
      ((bs.map fun b => b.filter p).map List.length).sum + (bs.map fun b => b.length - (b.filter p).length).sum := by
    intro bs
    induction bs with
    | nil => rfl
    | cons b bs ih =>
      have hle := List.length_filter_le p b
      simp only [List.map_cons, List.sum_cons, ih]
      omega
  have hall := hsum t.buckets
  rw [Exact, held] at h
  rw [Exact, held, StringTable.retain]
  dsimp only
  omega

end StringTable

/-- The hash that a call looks for. -/
def InternCall.hash : InternCall → UInt32
  | .intern data => luaHash data
  | .internHashed _ hash | .internHashedOwned _ hash => hash

namespace InternState

theorem call_hash (s : InternState) (c : InternCall) :
    s.call c = (s.strings.internHashed c.data c.hash s.stringArena s.currentWhite).map
      fun (strings, stringArena, r) => ({ s with strings, stringArena }, r) := by
  cases c with
  | intern data => rfl
  | internHashed data hash => rfl
  | internHashedOwned data hash => rfl

/-- Whether a call makes a new string and the table grows. -/
def Grows (s : InternState) (c : InternCall) : Prop :=
  s.strings.buckets.length ≤ s.strings.count ∧
    ∀ bucket, s.strings.buckets[StringTable.bucketIdx c.hash s.strings.buckets.length]? = some bucket →
      bucket.find? (StringTable.isEntry s.stringArena c.data c.hash) = none

/-- A step that lays the buckets out anew meets no reference to a freed string. -/
def Settled (s : InternState) : InternOp → Prop
  | .call c => s.Grows c → s.strings.NoneStale s.stringArena
  | .reserve additional => s.strings.buckets.length < saturatingAdd s.strings.count additional →
    s.strings.NoneStale s.stringArena
  | .maybeShrink => s.strings.count < s.strings.buckets.length / 4 ∧ minStrTabSize * 2 < s.strings.buckets.length →
    s.strings.NoneStale s.stringArena
  | _ => True

/-- The counter is right, and there are buckets. -/
structure Counted (s : InternState) : Prop where
  wf : s.stringArena.Wf
  white : s.currentWhite.isWhite = true
  buckets_pos : 0 < s.strings.buckets.length
  exact : s.strings.Exact

theorem counted_new : Counted {} := ⟨Arena.wf_new, rfl, by decide, by simp [StringTable.Exact, StringTable.held]⟩

theorem Counted.call {s s' : InternState} (h : s.Counted) {c : InternCall} (hop : s.Settled (.call c))
    (hstep : s.step (.call c) = some s') : s'.Counted := by
  obtain ⟨⟨s₁, r⟩, hcall, rfl⟩ := Option.map_eq_some_iff.mp hstep
  rw [call_hash] at hcall
  obtain ⟨⟨t, a, r'⟩, hintern, heq⟩ := Option.map_eq_some_iff.mp hcall
  cases heq
  obtain ⟨bucket, hbucket, hfind⟩ := Option.bind_eq_some_iff.mp hintern
  cases hf : bucket.find? (StringTable.isEntry s.stringArena c.data c.hash) with
  | some r₀ =>
    rw [hf] at hfind
    cases hfind
    exact ⟨resurrectIfDead_wf h.wf r _, h.white, h.buckets_pos, h.exact⟩
  | none =>
    rw [hf] at hfind
    obtain ⟨⟨a', r'⟩, halloc, hrest⟩ := Option.bind_eq_some_iff.mp hfind
    have hwf := h.wf.alloc halloc
    set idx := StringTable.bucketIdx c.hash s.strings.buckets.length with hidx
    set t' : StringTable := ⟨s.strings.buckets.modify idx (· ++ [r']), s.strings.count + 1⟩ with ht'
    have hlt : idx < s.strings.buckets.length := StringTable.bucketIdx_lt _ h.buckets_pos
    have hexact : t'.Exact := by
      rw [StringTable.Exact, ht', StringTable.held_push hlt]
      exact congrArg (· + 1) h.exact
    have hpos : 0 < t'.buckets.length := by
      rw [ht', List.length_modify]
      exact h.buckets_pos
    cases hrest
    refine ⟨hwf, h.white, ?_, ?_⟩
    · dsimp only
      split
      · exact grow_pos hpos a
      · exact hpos
    · dsimp only
      split
      · next hgrow =>
        have hgrows : s.Grows c := by
          refine ⟨?_, fun b hb => ?_⟩
          · rw [List.length_modify] at hgrow
            exact Nat.le_of_lt_succ hgrow
          · rw [hbucket] at hb
            cases hb
            exact hf
        have hnone : t'.NoneStale a := by
          intro r₁ hr₁
          rw [Arena.get_eq_cell hwf, Arena.cell_alloc h.wf halloc]
          rcases StringTable.mem_pushed hr₁ with hold | rfl
          · split
            · rfl
            · rw [← Arena.get_eq_cell h.wf]
              exact hop hgrows r₁ hold
          · rw [if_pos rfl]
            rfl
        rw [StringTable.grow]
        split
        · exact hexact
        · next hsize => exact (hexact.rehash_iff (by omega) a).mpr hnone
      · exact hexact

theorem Counted.step {s s' : InternState} (h : s.Counted) {op : InternOp} (hop : s.Settled op)
    (hstep : s.step op = some s') : s'.Counted := by
  cases op with
  | call c => exact h.call hop hstep
  | mark r =>
    cases hstep
    exact ⟨h.wf.markWhiteUnfrozen r _, h.white, h.buckets_pos, h.exact⟩
  | blacken r =>
    cases hstep
    exact ⟨h.wf.setColor r _, h.white, h.buckets_pos, h.exact⟩
  | whiten r =>
    cases hstep
    exact ⟨h.wf.setColor r _, h.white, h.buckets_pos, h.exact⟩
  | putFlag r f b =>
    cases hstep
    exact ⟨h.wf.putFlag r f b, h.white, h.buckets_pos, h.exact⟩
  | flip =>
    cases hstep
    exact ⟨h.wf, by simpa using h.white, h.buckets_pos, h.exact⟩
  | sweepBatch start maxCount =>
    obtain ⟨⟨a, f, pos, done⟩, ha, rfl⟩ := Option.map_eq_some_iff.mp hstep
    exact ⟨h.wf.sweepPartial ha, h.white, h.buckets_pos, h.exact⟩
  | sweepDead =>
    cases hstep
    refine ⟨h.wf, h.white, ?_, h.exact.retain _⟩
    rw [StringTable.sweepDead, StringTable.retain, List.length_map]
    exact h.buckets_pos
  | reserve additional =>
    obtain ⟨t, ht, rfl⟩ := Option.map_eq_some_iff.mp hstep
    simp only [StringTable.reserve] at ht
    split at ht
    · cases ht
      exact h
    · next hmore =>
      obtain ⟨pow, -, hpow⟩ := Option.bind_eq_some_iff.mp ht
      cases hpow
      have hsize : 0 < max (saturatingMul pow 2) minStrTabSize :=
        Nat.lt_of_lt_of_le (by decide) (Nat.le_max_right _ _)
      refine ⟨h.wf, h.white, ?_, (h.exact.rehash_iff hsize _).mpr (hop (Nat.lt_of_not_le hmore))⟩
      rw [StringTable.length_rehash]
      exact hsize
  | maybeShrink =>
    cases hstep
    rw [StringTable.maybeShrink]
    split
    · next hshrink =>
      have hsize : 0 < s.strings.buckets.length / 2 := by
        have hmin := hshrink.2
        rw [minStrTabSize] at hmin
        omega
      refine ⟨h.wf, h.white, ?_, (h.exact.rehash_iff hsize _).mpr (hop hshrink)⟩
      rw [StringTable.length_rehash]
      exact hsize
    · exact h

/-- In every run in which no growth, reservation or shrinking of the table meets a reference to a freed string, the
    counter is the number of references in the buckets. -/
theorem count_eq_held {ops : List InternOp} {s : InternState} (hrun : Run step Settled {} ops s) :
    s.strings.count = s.strings.held :=
  (hrun.invariant Counted (fun _ _ _ h hop hstep => h.step hop hstep) counted_new).exact

/-- Steps that make no rehash. -/
def noRehash (s : InternState) : InternOp → Bool
  | .call _ => decide (s.strings.count < s.strings.buckets.length)
  | .reserve _ | .maybeShrink => false
  | _ => true

theorem settled_of_noRehash {s : InternState} {op : InternOp} (h : s.noRehash op = true) : s.Settled op := by
  cases op with
  | call c => exact fun hgrows => absurd (of_decide_eq_true h) (Nat.not_lt.mpr hgrows.1)
  | reserve additional => cases h
  | maybeShrink => cases h
  | _ => trivial

/-- Two strings, the first of them freed and swept out of its bucket. -/
theorem count_eq_held_swept : ∃ s, Run step Settled {} [.call (.intern [1]), .flip, .call (.intern [2]),
    .sweepBatch 0 40, .sweepDead] s ∧ s.strings.count = 1 ∧ s.strings.count = s.strings.held := by
  have hexec : (execIf step noRehash {} [.call (.intern [1]), .flip, .call (.intern [2]), .sweepBatch 0 40,
      .sweepDead]).map (fun s => s.strings.count) = some 1 := by decide +kernel
  obtain ⟨s, hs, hcount⟩ := Option.map_eq_some_iff.mp hexec
  have hrun := run_of_execIf (fun _ _ => settled_of_noRehash) hs
  exact ⟨s, hrun, hcount, count_eq_held hrun⟩

/-- Thirty-two strings are freed in a batch of a sweep, and before the references to them are swept one more string
    makes the table grow. -/
def growMidSweep : List InternOp :=
  ((List.range 32).map fun i => .call (.intern [UInt8.ofNat i])) ++ [.flip, .sweepBatch 0 40, .call (.intern [32])]

/-- The counter is not the number of references after that: it says 33, and there is one. -/
theorem not_count_eq_held : ¬ ∀ (ops : List InternOp) (s : InternState),
    Run step (fun _ _ => True) {} ops s → s.strings.count = s.strings.held := by
  intro hall
  have hexec : (exec step {} growMidSweep).map (fun s => (s.strings.count, s.strings.held)) = some (33, 1) := by
    decide +kernel
  obtain ⟨s, hs, hcount⟩ := Option.map_eq_some_iff.mp hexec
  have heq := hall _ s (run_of_exec hs)
  rw [Prod.mk.injEq] at hcount
  omega

end InternState

end Rilua.Vm
