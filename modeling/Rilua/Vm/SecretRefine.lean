import Rilua.Vm.SecretAccess

/-! The side lists say the same as the flags. The list of revoked threads is right about a thread at every
    depth, so frames may be pruned late; and a resumer with a flagged frame is in the list of resumers. -/

namespace Rilua.Vm

open Lib Gc

/-- The entries of `t` reach down to depth `p`. -/
def Reaches (revoked : List (ThreadKey × ℕ)) (t : ThreadKey) (p : ℕ) : Prop := ∃ d ≤ p, (t, d) ∈ revoked

/-- At the depth of each frame the entries of `t` say whether it or a frame below it is flagged. -/
def Tracks (revoked : List (ThreadKey × ℕ)) (t : ThreadKey) : List FlagFrame → Prop
  | [] => True
  | f :: fs => (Reaches revoked t fs.length ↔ (f :: fs).any FlagFrame.revoked) ∧ Tracks revoked t fs

/-- The call stack of a thread holds its live frames. -/
structure Holds (c : CallFrames) (fs : List FlagFrame) : Prop where
  length_eq : fs.length = c.ci + 1
  slots : ∃ stale, c.isLua = (fs.map FlagFrame.isLua).reverse ++ stale
  sentinel : fs.getLast? = some ⟨false, false⟩

section Tracks

variable {revoked revoked' : List (ThreadKey × ℕ)} {t : ThreadKey} {f g : FlagFrame} {fs : List FlagFrame}

theorem Tracks.congr (h : Tracks revoked t fs)
    (hr : ∀ p < fs.length, Reaches revoked' t p ↔ Reaches revoked t p) : Tracks revoked' t fs := by
  induction fs with
  | nil => trivial
  | cons f fs ih =>
    refine ⟨(hr _ (by simp)).trans h.1, ih h.2 fun p hp => hr p ?_⟩
    simp only [List.length_cons]
    omega

theorem Tracks.drop (h : Tracks revoked t fs) (k : ℕ) : Tracks revoked t (fs.drop k) := by
  induction fs generalizing k with
  | nil => simpa using h
  | cons f fs ih =>
    cases k with
    | zero => exact h
    | succ k => exact ih h.2 k

/-- Entries of other threads do not matter. -/
theorem Tracks.of_mem_iff (h : Tracks revoked t fs) (hr : ∀ d, (t, d) ∈ revoked' ↔ (t, d) ∈ revoked) :
    Tracks revoked' t fs :=
  h.congr fun p _ => by simp only [Reaches, hr]

theorem tracks_nil (h : ∀ d, (t, d) ∉ revoked) (hf : fs.any FlagFrame.revoked = false) : Tracks revoked t fs := by
  induction fs with
  | nil => trivial
  | cons f fs ih =>
    refine ⟨?_, ih (by simp only [List.any_cons, Bool.or_eq_false_iff] at hf; exact hf.2)⟩
    rw [hf]
    simp only [Bool.false_eq_true, iff_false]
    rintro ⟨d, -, hd⟩
    exact h d hd

end Tracks

namespace SecretAccessContexts

variable {x : SecretAccessContexts} {t u : ThreadKey} {d p n m : ℕ}

theorem mem_prune : (t, d) ∈ (x.prune u n).revoked ↔ (t, d) ∈ x.revoked ∧ (t ≠ u ∨ d ≤ n) := by
  simp [prune]

theorem reaches_prune (hp : p ≤ n) : Reaches (x.prune u n).revoked t p ↔ Reaches x.revoked t p := by
  constructor
  · rintro ⟨d, hd, hmem⟩
    exact ⟨d, hd, (mem_prune.mp hmem).1⟩
  · rintro ⟨d, hd, hmem⟩
    exact ⟨d, hd, mem_prune.mpr ⟨hmem, .inr (hd.trans hp)⟩⟩

/-- Right after pruning no entry reaches beyond the frame on top. -/
theorem reaches_prune_succ : Reaches (x.prune t n).revoked t (n + 1) ↔ Reaches x.revoked t n := by
  constructor
  · rintro ⟨d, -, hmem⟩
    obtain ⟨hmem, hd⟩ := mem_prune.mp hmem
    exact ⟨d, hd.resolve_left (by simp), hmem⟩
  · rintro ⟨d, hd, hmem⟩
    exact ⟨d, by omega, mem_prune.mpr ⟨hmem, .inr hd⟩⟩

theorem mem_transferTail (hne : t ≠ u) : (t, d) ∈ (x.transferTail u n m).revoked ↔ (t, d) ∈ x.revoked := by
  simp only [transferTail, List.mem_map]
  constructor
  · rintro ⟨q, hq, he⟩
    split at he
    · next hc => exact absurd (congrArg Prod.fst he).symm (by rw [hc.1]; exact hne)
    · rw [← he]; exact hq
  · intro h
    exact ⟨(t, d), h, if_neg fun hc => hne hc.1⟩

theorem reaches_transferTail : Reaches (x.transferTail t (n + 1) n).revoked t p ↔
    Reaches x.revoked t p ∨ p = n ∧ Reaches x.revoked t (n + 1) := by
  constructor
  · rintro ⟨d, hd, hmem⟩
    obtain ⟨q, hq, he⟩ := List.mem_map.mp hmem
    split at he
    · next hc =>
      have hq' : (t, n + 1) ∈ x.revoked := by rw [← hc.2, ← hc.1]; exact hq
      have hdn : n = d := congrArg Prod.snd he
      subst hdn
      rcases Nat.lt_or_ge n p with hlt | hge
      · exact .inl ⟨n + 1, hlt, hq'⟩
      · exact .inr ⟨le_antisymm hge hd, n + 1, le_rfl, hq'⟩
    · subst he; exact .inl ⟨d, hd, hq⟩
  · rintro (⟨d, hd, hmem⟩ | ⟨rfl, d, hd, hmem⟩)
    · rcases eq_or_ne d (n + 1) with rfl | hne
      · exact ⟨n, by omega, List.mem_map.mpr ⟨_, hmem, if_pos ⟨rfl, rfl⟩⟩⟩
      · exact ⟨d, hd, List.mem_map.mpr ⟨_, hmem, if_neg fun hc => hne hc.2⟩⟩
    · rcases eq_or_ne d (p + 1) with rfl | hne
      · exact ⟨p, le_rfl, List.mem_map.mpr ⟨_, hmem, if_pos ⟨rfl, rfl⟩⟩⟩
      · exact ⟨d, by omega, List.mem_map.mpr ⟨_, hmem, if_neg fun hc => hne hc.2⟩⟩

theorem mem_mark_ne (hne : t ≠ u) (ps : List (ThreadKey × ℕ)) : (t, d) ∈ mark u n ps ↔ (t, d) ∈ ps := by
  induction ps with
  | nil => simp [mark, hne]
  | cons q ps ih =>
    rw [mark]
    split
    · next hq =>
      have h₁ : (t, d) ≠ (q.1, min q.2 n) := fun e => hne ((congrArg Prod.fst e).trans hq)
      have h₂ : (t, d) ≠ q := fun e => hne ((congrArg Prod.fst e).trans hq)
      simp only [List.mem_cons, h₁, h₂, false_or]
    · simp only [List.mem_cons, ih]

theorem reaches_mark (ps : List (ThreadKey × ℕ)) : Reaches (mark t n ps) t p ↔ Reaches ps t p ∨ n ≤ p := by
  induction ps with
  | nil => simp [Reaches, mark]
  | cons q ps ih =>
    rw [mark]
    split
    · next hq =>
      constructor
      · rintro ⟨d, hd, hmem⟩
        rcases List.mem_cons.mp hmem with he | hmem
        · cases he
          rcases le_total q.2 n with hle | hle
          · exact .inl ⟨q.2, by omega, by rw [← hq]; exact List.mem_cons_self ..⟩
          · exact .inr (by omega)
        · exact .inl ⟨d, hd, List.mem_cons_of_mem _ hmem⟩
      · have hself : (t, min q.2 n) ∈ (q.1, min q.2 n) :: ps := by rw [hq]; exact List.mem_cons_self ..
        rintro (⟨d, hd, hmem⟩ | hle)
        · rcases List.mem_cons.mp hmem with he | hmem
          · exact ⟨min q.2 n, by rw [← he]; simp only; omega, hself⟩
          · exact ⟨d, hd, List.mem_cons_of_mem _ hmem⟩
        · exact ⟨min q.2 n, by omega, hself⟩
    · next hq =>
      have hcons : ∀ qs, Reaches (q :: qs) t p ↔ Reaches qs t p := by
        intro qs
        constructor
        · rintro ⟨d, hd, hmem⟩
          rcases List.mem_cons.mp hmem with he | hmem
          · exact absurd (congrArg Prod.fst he).symm hq
          · exact ⟨d, hd, hmem⟩
        · rintro ⟨d, hd, hmem⟩
          exact ⟨d, hd, List.mem_cons_of_mem _ hmem⟩
      rw [hcons, hcons, ih]

end SecretAccessContexts

/-! ### Call stacks -/

section Holds

variable {c : CallFrames} {f g : FlagFrame} {fs : List FlagFrame}

theorem Holds.push (h : Holds c fs) (b : Bool) :
    Holds ⟨c.ci + 1, if c.ci + 1 < c.isLua.length then c.isLua.set (c.ci + 1) b else c.isLua ++ [b]⟩
      (⟨b, false⟩ :: fs) := by
  obtain ⟨stale, hslots⟩ := h.slots
  have hlen : ((fs.map FlagFrame.isLua).reverse).length = c.ci + 1 := by simp [h.length_eq]
  refine ⟨by simp [h.length_eq], ?_, ?_⟩
  · cases stale with
    | nil =>
      refine ⟨[], ?_⟩
      have hge : ¬ c.ci + 1 < c.isLua.length := by rw [hslots, List.append_nil, hlen]; omega
      rw [if_neg hge, hslots]
      simp
    | cons y ys =>
      refine ⟨ys, ?_⟩
      have hlt : c.ci + 1 < c.isLua.length := by rw [hslots, List.length_append, hlen]; simp
      rw [if_pos hlt, hslots, ← hlen, List.set_append_right _ _ le_rfl]
      simp
  · rw [List.getLast?_cons, h.sentinel]
    rfl

/-- Dropping the frames above `savedCi`. -/
theorem Holds.unwind (h : Holds c fs) {savedCi : ℕ} (hle : savedCi ≤ c.ci) :
    Holds { c with ci := savedCi } (fs.drop (fs.length - (savedCi + 1))) := by
  obtain ⟨stale, hslots⟩ := h.slots
  have hlen := h.length_eq
  generalize hk : fs.length - (savedCi + 1) = k
  refine ⟨by simp only [List.length_drop]; omega, ⟨((fs.take k).map FlagFrame.isLua).reverse ++ stale, ?_⟩, ?_⟩
  · calc c.isLua
      _ = (fs.map FlagFrame.isLua).reverse ++ stale := hslots
      _ = ((fs.take k ++ fs.drop k).map FlagFrame.isLua).reverse ++ stale := by rw [List.take_append_drop]
      _ = _ := by simp only [List.map_append, List.reverse_append, List.append_assoc]
  · rw [List.getLast?_drop, if_neg (by omega), h.sentinel]

theorem Holds.pop (h : Holds c (f :: g :: fs)) : Holds { c with ci := c.ci - 1 } (g :: fs) := by
  have hlen := h.length_eq
  simp only [List.length_cons] at hlen
  have hu := h.unwind (Nat.sub_le c.ci 1)
  have hone : (f :: g :: fs).length - (c.ci - 1 + 1) = 1 := by simp only [List.length_cons]; omega
  rw [hone] at hu
  exact hu

/-- Flags are no part of the call stack. -/
theorem Holds.congr {fs' : List FlagFrame} (h : Holds c fs) (hmap : fs'.map FlagFrame.isLua = fs.map FlagFrame.isLua)
    (hlast : fs'.getLast? = some ⟨false, false⟩) : Holds c fs' := by
  obtain ⟨stale, hslots⟩ := h.slots
  refine ⟨?_, ⟨stale, by rw [hmap]; exact hslots⟩, hlast⟩
  have hlen := congrArg List.length hmap
  simp only [List.length_map] at hlen
  rw [hlen, h.length_eq]

theorem Holds.getElem_ci (h : Holds c (f :: fs)) : c.isLua[c.ci]? = some f.isLua := by
  obtain ⟨stale, hslots⟩ := h.slots
  have hlen := h.length_eq
  simp only [List.length_cons, Nat.add_right_cancel_iff] at hlen
  rw [hslots, ← hlen]
  simp

theorem Holds.getElem_pred (h : Holds c (f :: g :: fs)) : c.isLua[c.ci - 1]? = some g.isLua :=
  h.pop.getElem_ci

/-- The sentinel is no Lua frame. -/
theorem Holds.eq_sentinel (h : Holds c [f]) : f = ⟨false, false⟩ := by
  have hs := h.sentinel
  simpa using hs

theorem Holds.ne_nil (h : Holds c fs) : fs ≠ [] := by
  rintro rfl
  exact absurd h.length_eq (by simp)

theorem holds_new : Holds {} [⟨false, false⟩] := ⟨rfl, ⟨[], rfl⟩, rfl⟩

/-- The entries of a thread reach its frames iff one of them is flagged. -/
theorem Tracks.reaches_iff {revoked : List (ThreadKey × ℕ)} {t : ThreadKey} (h : Tracks revoked t fs)
    (hc : Holds c fs) : Reaches revoked t c.ci ↔ fs.any FlagFrame.revoked := by
  cases fs with
  | nil => exact absurd rfl hc.ne_nil
  | cons f fs =>
    have hlen := hc.length_eq
    simp only [List.length_cons, Nat.add_right_cancel_iff] at hlen
    rw [← hlen]
    exact h.1

end Holds

/-! ### The list of resumers -/

/-- The threads waiting for a resume, with their indices. -/
def resumerChain : List ThreadKey → List (ℕ × ThreadKey)
  | [] => []
  | t :: ts => resumerChain ts ++ [(ts.length, t)]

/-- Every waiting thread with a flagged frame is in the list of resumers. -/
def Listed (resumers : List (ℕ × ThreadKey)) : List (ThreadKey × List FlagFrame) → Prop
  | [] => True
  | (t, fs) :: rest => (fs.any FlagFrame.revoked → (rest.length, t) ∈ resumers) ∧ Listed resumers rest

section Resumers

variable {resumers resumers' : List (ℕ × ThreadKey)} {rs : List (ThreadKey × List FlagFrame)}
  {saved : List CallFrames} {t : ThreadKey} {i : ℕ}

theorem lt_of_mem_resumerChain {ts : List ThreadKey} (h : (i, t) ∈ resumerChain ts) : i < ts.length := by
  induction ts with
  | nil => cases h
  | cons u ts ih =>
    rcases List.mem_append.mp h with h | h
    · exact (ih h).trans (Nat.lt_succ_self _)
    · cases List.mem_singleton.mp h
      exact Nat.lt_succ_self _

/-- The saved thread a resumer stands for. -/
theorem exists_of_mem_resumerChain (hs : List.Forall₂ Holds saved (rs.map Prod.snd)) (h : (i, t) ∈ resumerChain (rs.map Prod.fst)) :
    ∃ c fs, savedAt saved i = some c ∧ (t, fs) ∈ rs ∧ Holds c fs := by
  induction rs generalizing saved with
  | nil => cases h
  | cons r rs ih =>
    obtain ⟨c, saved', hc, hs', rfl⟩ := List.forall₂_cons_right_iff.mp hs
    have hlen : saved'.length = rs.length := by simpa using hs'.length_eq
    rcases List.mem_append.mp h with h | h
    · obtain ⟨c', fs, hget, hmem, hh⟩ := ih hs' h
      have hlt := lt_of_mem_resumerChain h
      rw [List.length_map] at hlt
      refine ⟨c', fs, ?_, List.mem_cons_of_mem _ hmem, hh⟩
      rw [savedAt, if_neg (by omega)]
      exact hget
    · have he := List.mem_singleton.mp h
      rw [List.length_map] at he
      cases he
      exact ⟨c, r.2, by rw [savedAt, if_pos hlen.symm], List.mem_cons_self .., hc⟩

/-- A flagged thread is found through the list of resumers. -/
theorem Listed.exists_index (hl : Listed resumers rs) (hs : List.Forall₂ Holds saved (rs.map Prod.snd))
    {fs : List FlagFrame} (hmem : (t, fs) ∈ rs) (hf : fs.any FlagFrame.revoked) :
    ∃ i c, (i, t) ∈ resumers ∧ i < saved.length ∧ savedAt saved i = some c ∧ Holds c fs := by
  induction rs generalizing saved with
  | nil => cases hmem
  | cons r rs ih =>
    obtain ⟨c, saved', hc, hs', rfl⟩ := List.forall₂_cons_right_iff.mp hs
    have hlen : saved'.length = rs.length := by simpa using hs'.length_eq
    rcases List.mem_cons.mp hmem with rfl | hmem
    · exact ⟨rs.length, c, hl.1 hf, by simp [hlen], by rw [savedAt, if_pos hlen.symm], hc⟩
    · obtain ⟨i, c', hi, hlt, hget, hh⟩ := ih hl.2 hs' hmem
      exact ⟨i, c', hi, hlt.trans (Nat.lt_succ_self _), by rw [savedAt, if_neg hlt.ne]; exact hget, hh⟩

theorem Listed.mono (hl : Listed resumers rs) (h : ∀ i t, i < rs.length → (i, t) ∈ resumers → (i, t) ∈ resumers') :
    Listed resumers' rs := by
  induction rs with
  | nil => trivial
  | cons r rs ih =>
    refine ⟨fun hf => h _ _ (Nat.lt_succ_self _) (hl.1 hf), ih hl.2 fun i t hi => ?_⟩
    exact h i t (hi.trans (Nat.lt_succ_self _))

/-- Leaving a coroutine removes the entry of its resumer, if there is one. -/
theorem popResumer_sublist {x : SecretAccessContexts} {ts : List ThreadKey} {u : ThreadKey} (ended : Bool)
    (h : x.resumers.Sublist (resumerChain (t :: ts))) :
    (x.popResumer ts.length u ended).resumers.Sublist (resumerChain ts) ∧
      ∀ i v, i < ts.length → (i, v) ∈ x.resumers → (i, v) ∈ (x.popResumer ts.length u ended).resumers := by
  obtain ⟨l₁, l₂, hx, h₁, h₂⟩ := List.sublist_append_iff.mp h
  have hlast : x.resumers.getLast?.any (fun p => p.1 = ts.length) = !l₂.isEmpty := by
    rcases List.sublist_singleton.mp h₂ with rfl | rfl
    · rw [hx, List.append_nil]
      cases hlast : l₁.getLast? with
      | none => rfl
      | some p =>
        have hlt := lt_of_mem_resumerChain (h₁.subset (List.mem_of_getLast? hlast))
        simp [hlt.ne]
    · rw [hx]
      simp
  unfold SecretAccessContexts.popResumer
  simp only [hlast]
  rcases List.sublist_singleton.mp h₂ with rfl | rfl
  · rw [hx]
    simpa using h₁
  · rw [hx]
    refine ⟨by simpa using h₁, fun i v hi hmem => ?_⟩
    simp only [List.isEmpty_cons, Bool.not_false, if_true, List.dropLast_concat]
    rcases List.mem_append.mp hmem with hmem | hmem
    · exact hmem
    · cases List.mem_singleton.mp hmem
      exact absurd hi (lt_irrefl _)

end Resumers

/-! ### The refinement -/

/-- A coroutine in both states. Only one that can be resumed is looked at again. -/
structure SameCoroutine (revoked : List (ThreadKey × ℕ)) (t : ThreadKey) (p : CallFrames × ThreadStatus)
    (q : List FlagFrame × ThreadStatus) : Prop where
  status : p.2 = q.2
  holds : p.2 = .initial ∨ p.2 = .suspended → Holds p.1 q.1 ∧ Tracks revoked t q.1

/-- The state of the code and the flagged frames agree. -/
structure Secrets (c : SecretState) (a : FlagState) : Prop where
  current : c.currentThread = a.currentThread
  frames : Holds c.frames a.frames
  saved : List.Forall₂ Holds c.savedThreads (a.resumers.map Prod.snd)
  callers : c.callers = a.resumers.map Prod.fst
  threads : ∀ co, Option.Rel (SameCoroutine (c.contexts.getD {}).revoked (some co)) (c.threads co) (a.threads co)
  tracks : Tracks (c.contexts.getD {}).revoked a.currentThread a.frames
  tracksSaved : ∀ r ∈ a.resumers, Tracks (c.contexts.getD {}).revoked r.1 r.2
  nodup : (a.currentThread :: a.resumers.map Prod.fst).Nodup
  running : ∀ co, some co ∈ a.currentThread :: a.resumers.map Prod.fst →
    ∃ fs, a.threads co = some (fs, .running)
  known : ∀ co d, (some co, d) ∈ (c.contexts.getD {}).revoked → (a.threads co).isSome
  sublist : (c.contexts.getD {}).resumers.Sublist (resumerChain (a.resumers.map Prod.fst))
  listed : Listed (c.contexts.getD {}).resumers a.resumers

namespace Secrets

variable {c c' : SecretState} {a a' : FlagState}

/-- The guard says whether a live frame is flagged. -/
theorem isRevoked_eq (h : Secrets c a) : c.secretContextIsRevoked = a.isRevoked := by
  have hguard : c.secretContextIsRevoked = true ↔ Reaches (c.contexts.getD {}).revoked c.currentThread c.frames.ci ∨
      ∃ p ∈ (c.contexts.getD {}).revoked, ∃ r ∈ (c.contexts.getD {}).resumers, p.1 = r.2 ∧
        ∃ f ∈ savedAt c.savedThreads r.1, p.2 ≤ f.ci := by
    unfold SecretState.secretContextIsRevoked Reaches
    cases c.contexts with
    | none => simp
    | some x =>
      simp only [List.any_eq_true, Option.any_eq_true, Option.getD_some, Bool.decide_or, Bool.or_eq_true,
        decide_eq_true_eq, Option.mem_def]
      constructor
      · rintro ⟨p, hp, ⟨ht, hd⟩ | ⟨r, hr, ht, f, hf, hd⟩⟩
        · exact .inl ⟨p.2, hd, by rw [← ht]; exact hp⟩
        · exact .inr ⟨p, hp, r, hr, ht, f, hf, hd⟩
      · rintro (⟨d, hd, hp⟩ | ⟨p, hp, r, hr, ht, f, hf, hd⟩)
        · exact ⟨_, hp, .inl ⟨rfl, hd⟩⟩
        · exact ⟨p, hp, .inr ⟨r, hr, ht, f, hf, hd⟩⟩
  have hflag : a.isRevoked = true ↔ a.frames.any FlagFrame.revoked = true ∨
      ∃ r ∈ a.resumers, r.2.any FlagFrame.revoked = true := by
    simp only [FlagState.isRevoked, Bool.or_eq_true, List.any_eq_true]
  refine Bool.eq_iff_iff.mpr (hguard.trans (Iff.trans ?_ hflag.symm))
  refine or_congr ?_ ?_
  · rw [h.current]
    exact h.tracks.reaches_iff h.frames
  · constructor
    · rintro ⟨⟨t, d⟩, hp, ⟨i, t'⟩, hr, rfl, f, hf, hd⟩
      obtain ⟨f', fs, hget, hmem, hh⟩ := exists_of_mem_resumerChain h.saved (h.sublist.subset hr)
      cases hget.symm.trans hf
      exact ⟨_, hmem, ((h.tracksSaved _ hmem).reaches_iff hh).mp ⟨d, hd, hp⟩⟩
    · rintro ⟨⟨t, fs⟩, hmem, hf⟩
      obtain ⟨i, f, hi, -, hget, hh⟩ := h.listed.exists_index h.saved hmem hf
      obtain ⟨d, hd, hp⟩ := ((h.tracksSaved _ hmem).reaches_iff hh).mpr hf
      exact ⟨_, hp, _, hi, rfl, f, hget, hd⟩

/-- A step of the running thread: only its own frames and entries change. -/
theorem update (h : Secrets c a) (hcur : c'.currentThread = c.currentThread)
    (hsaved : c'.savedThreads = c.savedThreads) (hcallers : c'.callers = c.callers) (hth : c'.threads = c.threads)
    (hacur : a'.currentThread = a.currentThread) (hares : a'.resumers = a.resumers) (hath : a'.threads = a.threads)
    (hframes : Holds c'.frames a'.frames)
    (htracks : Tracks (c'.contexts.getD {}).revoked a.currentThread a'.frames)
    (hres : (c'.contexts.getD {}).resumers = (c.contexts.getD {}).resumers)
    (hothers : ∀ t d, t ≠ a.currentThread →
      ((t, d) ∈ (c'.contexts.getD {}).revoked ↔ (t, d) ∈ (c.contexts.getD {}).revoked)) : Secrets c' a' := by
  have hrunning := h.running
  have hnodup := List.nodup_cons.mp h.nodup
  refine ⟨?_, hframes, ?_, ?_, ?_, ?_, ?_, ?_, ?_, ?_, ?_, ?_⟩
  · rw [hcur, hacur]; exact h.current
  · rw [hsaved, hares]; exact h.saved
  · rw [hcallers, hares]; exact h.callers
  · intro co
    rw [hth, hath]
    have hco := h.threads co
    generalize hc : c.threads co = x at hco
    generalize ha : a.threads co = y at hco
    cases hco with
    | none => exact .none
    | some hsame =>
      refine .some ⟨hsame.status, fun hst => ⟨(hsame.holds hst).1, ?_⟩⟩
      refine (hsame.holds hst).2.of_mem_iff fun d => hothers _ d fun he => ?_
      obtain ⟨fs, hfs⟩ := hrunning co (by rw [he]; exact List.mem_cons_self ..)
      have hst' : _ = ThreadStatus.running := hsame.status.trans (congrArg Prod.snd (Option.some.inj (ha.symm.trans hfs)))
      rw [hst'] at hst
      simp at hst
  · rw [hacur]; exact htracks
  · rw [hares]
    intro r hr
    refine (h.tracksSaved r hr).of_mem_iff fun d => hothers _ d fun he => ?_
    exact hnodup.1 (by rw [← he]; exact List.mem_map_of_mem hr)
  · rw [hacur, hares]; exact h.nodup
  · rw [hacur, hares, hath]; exact h.running
  · intro co d hd
    rw [hath]
    by_cases hco : some co = a.currentThread
    · obtain ⟨fs, hfs⟩ := hrunning co (by rw [hco]; exact List.mem_cons_self ..)
      rw [hfs]
      rfl
    · exact h.known co d ((hothers _ d hco).mp hd)
  · rw [hres, hares]; exact h.sublist
  · rw [hres, hares]; exact h.listed

theorem getD_map {x : Option SecretAccessContexts} {f : SecretAccessContexts → SecretAccessContexts}
    (hf : f {} = {}) : (x.map f).getD {} = f (x.getD {}) := by
  cases x with
  | none => exact hf.symm
  | some x => rfl

theorem contexts_prune (s : SecretState) : s.pruneSecretContexts.contexts.getD {} =
    (s.contexts.getD {}).prune s.currentThread s.frames.ci :=
  getD_map rfl

open SecretAccessContexts

theorem push (h : Secrets c a) (b : Bool) :
    Secrets (c.pushCi b) { a with frames := ⟨b, false⟩ :: a.frames } := by
  have hX : ((c.pushCi b).contexts.getD {}) = (c.contexts.getD {}).prune a.currentThread c.frames.ci := by
    rw [← h.current]
    exact contexts_prune c
  refine h.update rfl rfl rfl rfl rfl rfl rfl (h.frames.push b) ?_ (by rw [hX]; rfl) ?_
  · rw [hX]
    refine ⟨?_, h.tracks.congr fun p hp => reaches_prune ?_⟩
    · rw [h.frames.length_eq, reaches_prune_succ, h.tracks.reaches_iff h.frames, List.any_cons, Bool.false_or]
    · have hlen := h.frames.length_eq
      omega
  · intro t d ht
    rw [hX, mem_prune]
    simp [ht]

/-- Leaving frames with `pop_ci`: pruning takes no entry of a frame that stays. -/
theorem popTo (h : Secrets c a) {fs : List FlagFrame} {x : Option SecretAccessContexts} {n : ℕ}
    (hframes : Holds { c.frames with ci := n } fs)
    (htracks : Tracks (x.getD {}).revoked a.currentThread fs)
    (hres : (x.getD {}).resumers = (c.contexts.getD {}).resumers)
    (hothers : ∀ t d, t ≠ a.currentThread → ((t, d) ∈ (x.getD {}).revoked ↔ (t, d) ∈ (c.contexts.getD {}).revoked)) :
    Secrets ({ c with frames := { c.frames with ci := n }, contexts := x } : SecretState).pruneSecretContexts
      { a with frames := fs } := by
  have hX := contexts_prune { c with frames := { c.frames with ci := n }, contexts := x }
  refine h.update rfl rfl rfl rfl rfl rfl rfl hframes ?_ (by rw [hX]; exact hres) ?_
  · rw [hX]
    refine htracks.congr fun p hp => reaches_prune ?_
    have hlen := hframes.length_eq
    simp only at hlen ⊢
    omega
  · intro t d ht
    rw [hX, mem_prune, h.current]
    simp [ht, hothers t d ht]

theorem pop (h : Secrets c a) : ∃ a', a.step .popCi = some a' ∧ Secrets c.popCi a' := by
  have hframes := h.frames
  have htracks := h.tracks
  cases hfs : a.frames with
  | nil => exact absurd hfs hframes.ne_nil
  | cons f fs =>
    rw [hfs] at hframes htracks
    cases fs with
    | nil =>
      have hci : c.frames.ci = 0 := by simpa using hframes.length_eq.symm
      have hzero : Holds { c.frames with ci := c.frames.ci - 1 } [f] := by
        rw [hci, Nat.zero_sub, ← hci]
        exact hframes
      refine ⟨{ a with frames := [f] }, ?_, ?_⟩
      · simp only [FlagState.step, hfs, Option.some.injEq]
        rw [← hfs]
      exact h.popTo hzero htracks rfl fun _ _ _ => Iff.rfl
    | cons g fs =>
      refine ⟨{ a with frames := g :: fs }, by simp [FlagState.step, hfs], ?_⟩
      exact h.popTo hframes.pop htracks.2 rfl fun _ _ _ => Iff.rfl

theorem tail (h : Secrets c a) (hlua : c.frames.isLua[c.frames.ci]? = some true)
    (hlua' : c.frames.isLua[c.frames.ci - 1]? = some true) :
    ∃ a', a.step .tailCall = some a' ∧ Secrets c.tailCall a' := by
  have hframes := h.frames
  have htracks := h.tracks
  cases hfs : a.frames with
  | nil => exact absurd hfs hframes.ne_nil
  | cons f fs =>
    rw [hfs] at hframes htracks
    have hf : f.isLua = true := Option.some.inj (hframes.getElem_ci.symm.trans hlua)
    cases fs with
    | nil => rw [hframes.eq_sentinel] at hf; simp at hf
    | cons g fs =>
      have hg : g.isLua = true := Option.some.inj (hframes.getElem_pred.symm.trans hlua')
      have hci : c.frames.ci = fs.length + 1 := by simpa using hframes.length_eq.symm
      refine ⟨{ a with frames := ⟨g.isLua, f.revoked || g.revoked⟩ :: fs }, by simp [FlagState.step, hfs, hf, hg], ?_⟩
      have hX : (c.contexts.map fun x => x.transferTail c.currentThread c.frames.ci (c.frames.ci - 1)).getD {} =
          (c.contexts.getD {}).transferTail a.currentThread (fs.length + 1) fs.length := by
        rw [getD_map rfl, h.current, hci, Nat.add_sub_cancel]
      refine h.popTo (hframes.pop.congr rfl ?_) ?_ (by rw [hX]; rfl) ?_
      · cases fs with
        | nil =>
          have hs := hframes.pop.eq_sentinel
          rw [hs] at hg
          simp at hg
        | cons k fs =>
          have hlast := hframes.pop.sentinel
          rw [List.getLast?_cons_cons] at hlast ⊢
          exact hlast
      · rw [hX]
        have htop : Reaches (c.contexts.getD {}).revoked a.currentThread (fs.length + 1) ↔
            (f :: g :: fs).any FlagFrame.revoked = true := htracks.1
        refine ⟨?_, htracks.2.2.congr fun p hp => ?_⟩
        · rw [reaches_transferTail, htop]
          have hsub : (g :: fs).any FlagFrame.revoked = true → (f :: g :: fs).any FlagFrame.revoked = true := by
            intro hany
            rw [List.any_cons, hany, Bool.or_true]
          have hlow := htracks.2.1.mp
          simp only [List.any_cons, Bool.or_eq_true] at hsub hlow ⊢
          constructor
          · rintro (hr | ⟨-, hr⟩)
            · rcases hlow hr with hr | hr
              · exact .inl (.inr hr)
              · exact .inr hr
            · rcases hr with hr | hr | hr
              · exact .inl (.inl hr)
              · exact .inl (.inr hr)
              · exact .inr hr
          · rintro ((hr | hr) | hr)
            · exact .inr ⟨trivial, .inl hr⟩
            · exact .inr ⟨trivial, .inr (.inl hr)⟩
            · exact .inr ⟨trivial, .inr (.inr hr)⟩
        · rw [reaches_transferTail]
          simp [hp.ne]
      · intro t d ht
        rw [hX, mem_transferTail ht]

theorem unwind (h : Secrets c a) {savedCi : ℕ} (hle : savedCi ≤ c.frames.ci) :
    ∃ a', a.step (.unwind savedCi) = some a' ∧
      Secrets { c with frames := { c.frames with ci := savedCi } } a' := by
  have hlt : savedCi < a.frames.length := by rw [h.frames.length_eq]; omega
  refine ⟨_, if_pos hlt, ?_⟩
  exact h.update rfl rfl rfl rfl rfl rfl rfl (h.frames.unwind hle) (h.tracks.drop _) rfl fun _ _ _ => Iff.rfl

/-- Flagging the frame at depth `n`. -/
theorem mark_frames (h : Secrets c a) {fs : List FlagFrame} {n : ℕ} (hmap : fs.map FlagFrame.isLua = a.frames.map FlagFrame.isLua)
    (hlast : fs.getLast? = some ⟨false, false⟩)
    (htracks : Tracks (mark a.currentThread n (c.contexts.getD {}).revoked) a.currentThread fs) :
    Secrets { c with contexts := some { c.contexts.getD {} with
      revoked := mark c.currentThread n (c.contexts.getD {}).revoked } } { a with frames := fs } := by
  refine h.update rfl rfl rfl rfl rfl rfl rfl (h.frames.congr hmap hlast) ?_ rfl ?_
  · rw [h.current]
    exact htracks
  · intro t d ht
    rw [h.current]
    exact mem_mark_ne ht _

theorem revoke (h : Secrets c a) : Secrets c.revokeSecretAccess { a with frames := FlagState.revoke a.frames } := by
  have hframes := h.frames
  have htracks := h.tracks
  cases hfs : a.frames with
  | nil => exact absurd hfs hframes.ne_nil
  | cons f fs =>
    rw [hfs] at hframes htracks
    have htop := hframes.getElem_ci
    have hlast := hframes.sentinel
    unfold SecretState.revokeSecretAccess
    rw [htop]
    simp only [Option.getD_some]
    cases fs with
    | nil =>
      have hci : c.frames.ci = 0 := by simpa using hframes.length_eq.symm
      rw [hci]
      simp only [Nat.zero_sub, ite_self, if_true]
      rw [FlagState.revoke, ← hfs]
      · exact h
      · simp
    | cons g fs =>
      have hci : c.frames.ci = fs.length + 1 := by simpa using hframes.length_eq.symm
      have hlow : ∀ n, fs.length < n → Tracks (mark a.currentThread n (c.contexts.getD {}).revoked) a.currentThread
          (g :: fs) := by
        intro n hn
        refine htracks.2.congr fun p hp => ?_
        rw [reaches_mark, or_iff_left]
        simp only [List.length_cons] at hp
        omega
      rw [hci, FlagState.revoke]
      cases hl : f.isLua with
      | true =>
        simp only [if_true, Nat.succ_ne_zero, if_false]
        refine h.mark_frames (by simp [hfs, hl]) (by rw [List.getLast?_cons_cons] at hlast ⊢; exact hlast)
          ⟨?_, hlow _ (by omega)⟩
        simp [reaches_mark]
      | false =>
        simp only [Bool.false_eq_true, if_false, Nat.add_sub_cancel]
        cases fs with
        | nil => simp only [List.length_nil, if_true, ← hfs]; exact h
        | cons k fs =>
          simp only [List.length_cons, Nat.succ_ne_zero, if_false, reduceCtorEq]
          refine h.mark_frames (by simp [hfs, hl]) ?_ ⟨?_, ?_, ?_⟩
          · rw [List.getLast?_cons_cons, List.getLast?_cons_cons] at hlast ⊢
            exact hlast
          · simp [reaches_mark]
          · simp [reaches_mark]
          · refine htracks.2.2.congr fun p hp => ?_
            rw [reaches_mark, or_iff_left]
            simp only [List.length_cons] at hp
            omega

theorem create (h : Secrets c a) {co : GcRef .thread} (hnew : c.threads co = none) :
    ∃ a', a.step (.create co) = some a' ∧
      Secrets { c with threads := Function.update c.threads co (some ({}, .initial)) } a' := by
  have hnew' : a.threads co = none := by
    have hco := h.threads co
    rw [hnew] at hco
    generalize ha : a.threads co = y at hco
    cases hco
    rfl
  refine ⟨{ a with threads := Function.update a.threads co (some ([⟨false, false⟩], .initial)) },
    by simp [FlagState.step, hnew'], ?_⟩
  refine ⟨h.current, h.frames, h.saved, h.callers, ?_, h.tracks, h.tracksSaved, h.nodup, ?_, ?_, h.sublist, h.listed⟩
  · intro co'
    by_cases hco : co' = co
    · subst hco
      simp only [Function.update_self]
      refine .some ⟨rfl, fun _ => ⟨holds_new, tracks_nil (fun d hd => ?_) rfl⟩⟩
      have hk := h.known co' d hd
      rw [hnew'] at hk
      cases hk
    · simp only [Function.update_of_ne hco]
      exact h.threads co'
  · intro co' hmem
    obtain ⟨fs, hfs⟩ := h.running co' hmem
    have hne : co' ≠ co := fun he => by rw [he, hnew'] at hfs; cases hfs
    exact ⟨fs, by simp only [Function.update_of_ne hne]; exact hfs⟩
  · intro co' d hd
    by_cases hco : co' = co
    · subst hco
      simp
    · simp only [Function.update_of_ne hco]
      exact h.known co' d hd

/-- The coroutine in the abstract state. -/
theorem parked_coroutine (h : Secrets c a) {co : GcRef .thread} {frames : CallFrames} {status : ThreadStatus}
    (hco : c.threads co = some (frames, status)) (hst : status = .initial ∨ status = .suspended) :
    ∃ fs, a.threads co = some (fs, status) ∧ Holds frames fs ∧ Tracks (c.contexts.getD {}).revoked (some co) fs ∧
      some co ∉ a.currentThread :: a.resumers.map Prod.fst := by
  have hrel := h.threads co
  rw [hco] at hrel
  generalize ha : a.threads co = y at hrel
  cases hrel with
  | some hsame =>
    next q =>
    obtain ⟨hholds, htracks⟩ := hsame.holds hst
    have hq : q = (q.1, status) := Prod.ext rfl hsame.status.symm
    refine ⟨q.1, congrArg some hq, hholds, htracks, fun hmem => ?_⟩
    obtain ⟨fs, hfs⟩ := h.running co hmem
    have hrun : q.2 = .running := congrArg Prod.snd (Option.some.inj (ha.symm.trans hfs))
    rw [← hsame.status] at hrun
    rw [show status = .running from hrun] at hst
    simp at hst

theorem resume (h : Secrets c a) {co : GcRef .thread} {frames : CallFrames} {status : ThreadStatus}
    (hco : c.threads co = some (frames, status)) (hst : status = .initial ∨ status = .suspended) :
    ∃ a', a.step (.resume co) = some a' ∧ Secrets (c.resume co frames) a' := by
  obtain ⟨fs, hfs, hholds, htracks, hfresh⟩ := h.parked_coroutine hco hst
  refine ⟨{ frames := fs, currentThread := some co, resumers := (a.currentThread, a.frames) :: a.resumers,
            threads := Function.update a.threads co (some (fs, .running)) }, ?_, ?_⟩
  · rcases hst with rfl | rfl <;> simp [FlagState.step, hfs]
  have hlen : c.savedThreads.length = a.resumers.length := by simpa using h.saved.length_eq
  have hX : ((c.resume co frames).contexts.getD {}) =
      (c.contexts.getD {}).pushResumer a.resumers.length a.currentThread := by
    rw [← h.current, ← hlen]
    exact getD_map rfl
  have hrev : ((c.resume co frames).contexts.getD {}).revoked = (c.contexts.getD {}).revoked := by
    rw [hX, pushResumer]
    split <;> rfl
  refine ⟨rfl, hholds, ?_, ?_, ?_, ?_, ?_, ?_, ?_, ?_, ?_, ?_⟩
  · exact .cons h.frames h.saved
  · exact congrArg₂ List.cons h.current h.callers
  · intro co'
    rw [hrev]
    by_cases hne : co' = co
    · subst hne
      simp only [SecretState.resume, Function.update_self]
      exact .some ⟨rfl, by simp⟩
    · simp only [SecretState.resume, Function.update_of_ne hne]
      exact h.threads co'
  · rw [hrev]; exact htracks
  · rw [hrev]
    intro r hr
    rcases List.mem_cons.mp hr with rfl | hr
    · exact h.tracks
    · exact h.tracksSaved r hr
  · exact List.nodup_cons.mpr ⟨hfresh, h.nodup⟩
  · intro co' hmem
    by_cases hne : co' = co
    · subst hne
      exact ⟨fs, by simp⟩
    · obtain ⟨fs', hfs'⟩ := h.running co' ((List.mem_cons.mp hmem).resolve_left (by simpa using hne))
      exact ⟨fs', by simp only [Function.update_of_ne hne]; exact hfs'⟩
  · rw [hrev]
    intro co' d hd
    by_cases hne : co' = co
    · subst hne
      simp
    · simp only [Function.update_of_ne hne]
      exact h.known co' d hd
  · rw [hX, pushResumer, List.map_cons, resumerChain, List.length_map]
    split
    · exact h.sublist.trans (List.sublist_append_left _ _)
    · exact h.sublist.append_right _
  · rw [hX, pushResumer]
    split
    · next hnil =>
      refine ⟨fun hany => ?_, h.listed⟩
      obtain ⟨d, -, hd⟩ := (h.tracks.reaches_iff h.frames).mpr hany
      rw [hnil] at hd
      cases hd
    · exact ⟨fun _ => List.mem_append_right _ (List.mem_singleton_self _),
        h.listed.mono fun i t _ hmem => List.mem_append_left _ hmem⟩

theorem mem_popResumer {x : SecretAccessContexts} {t u : ThreadKey} {d n : ℕ} {ended : Bool} (hne : t ≠ u) :
    (t, d) ∈ (x.popResumer n u ended).revoked ↔ (t, d) ∈ x.revoked := by
  unfold popResumer
  dsimp only
  split
  · simp [hne]
  · rfl

theorem leave (h : Secrets c a) {status : ThreadStatus} (hst : status = .suspended ∨ status = .dead)
    (hc : c.leave status = some c') : ∃ a', a.leave status = some a' ∧ Secrets c' a' := by
  unfold SecretState.leave at hc
  split at hc
  · next co resumer saved caller callers hcur hsaved hcallers =>
    cases hc
    have hforall := h.saved
    have hkeys := h.callers
    have htracks := h.tracksSaved
    have hnodup := h.nodup
    have hrunning := h.running
    have hsub := h.sublist
    have hlisted := h.listed
    rw [hsaved] at hforall
    rw [hcallers] at hkeys
    cases hres : a.resumers with
    | nil => rw [hres] at hkeys; cases hkeys
    | cons r rest =>
      rw [hres] at hforall hkeys htracks hnodup hrunning hsub hlisted
      obtain ⟨hhold, hrest⟩ := List.forall₂_cons.mp hforall
      obtain ⟨hcaller, hcallers'⟩ := List.cons.inj hkeys
      have hacur : a.currentThread = some co := by rw [← h.current]; exact hcur
      rw [hacur] at hnodup hrunning
      obtain ⟨hfresh, hnodup'⟩ := List.nodup_cons.mp hnodup
      refine ⟨{ frames := r.2, currentThread := r.1, resumers := rest,
                threads := Function.update a.threads co (some (a.frames, status)) },
        by simp [FlagState.leave, hacur, hres], ?_⟩
      have hlen : saved.length = (rest.map Prod.fst).length := by simpa using hrest.length_eq
      have hX : (c.contexts.map fun x => x.popResumer saved.length c.currentThread (status = .dead)).getD {} =
          (c.contexts.getD {}).popResumer (rest.map Prod.fst).length (some co) (status = .dead) := by
        rw [getD_map (by simp [popResumer]), hcur, hlen]
      obtain ⟨hsub', hkeep⟩ := popResumer_sublist (u := some co) (decide (status = .dead)) hsub
      have hother : ∀ t, t ≠ some co → ∀ d, (t, d) ∈ ((c.contexts.getD {}).popResumer (rest.map Prod.fst).length
          (some co) (status = .dead)).revoked ↔ (t, d) ∈ (c.contexts.getD {}).revoked :=
        fun t ht d => mem_popResumer ht
      refine ⟨hcaller, hhold, hrest, hcallers', ?_, ?_, ?_, hnodup', ?_, ?_, ?_, ?_⟩
      · intro co'
        rw [hX]
        by_cases hne : co' = co
        · subst hne
          simp only [Function.update_self]
          refine .some ⟨rfl, fun hparked => ⟨h.frames, ?_⟩⟩
          have hlive : (decide (status = .dead)) = false := by
            rcases hst with rfl | rfl
            · rfl
            · simp at hparked
          rw [hlive, ← hacur]
          exact h.tracks
        · simp only [Function.update_of_ne hne]
          have hco' := h.threads co'
          generalize c.threads co' = x at hco'
          generalize a.threads co' = y at hco'
          cases hco' with
          | none => exact .none
          | some hsame =>
            refine .some ⟨hsame.status, fun hparked => ⟨(hsame.holds hparked).1, ?_⟩⟩
            exact (hsame.holds hparked).2.of_mem_iff (hother _ (by simpa using hne))
      · rw [hX]
        have hne : r.1 ≠ some co := fun he => hfresh (by rw [← he]; exact List.mem_cons_self ..)
        exact (htracks r (List.mem_cons_self ..)).of_mem_iff (hother _ hne)
      · rw [hX]
        intro q hq
        have hne : q.1 ≠ some co := fun he =>
          hfresh (by rw [← he]; exact List.mem_cons_of_mem _ (List.mem_map_of_mem hq))
        exact (htracks q (List.mem_cons_of_mem _ hq)).of_mem_iff (hother _ hne)
      · intro co' hmem
        have hne : co' ≠ co := fun he => hfresh (by rw [← he]; exact hmem)
        obtain ⟨fs, hfs⟩ := hrunning co' (List.mem_cons_of_mem _ hmem)
        exact ⟨fs, by simp only [Function.update_of_ne hne]; exact hfs⟩
      · rw [hX]
        intro co' d hd
        by_cases hne : co' = co
        · subst hne
          simp
        · simp only [Function.update_of_ne hne]
          exact h.known co' d ((hother _ (by simpa using hne) d).mp hd)
      · rw [hX]; exact hsub'
      · rw [hX]
        refine hlisted.2.mono fun i t hi hmem => hkeep i t ?_ hmem
        rw [List.length_map]
        exact hi
  · cases hc

theorem step (h : Secrets c a) {op : SecretOp} (hop : op ≠ .execFailed) (hst : c.step op = some c') :
    ∃ a', a.step op = some a' ∧ Secrets c' a' := by
  cases op with
  | pushCi b => cases hst; exact ⟨_, rfl, h.push b⟩
  | popCi => cases hst; exact h.pop
  | tailCall =>
    obtain ⟨hlua, hst⟩ := Option.ite_none_right_eq_some.mp hst
    cases hst
    exact h.tail hlua.1 hlua.2
  | unwind savedCi =>
    obtain ⟨hle, hst⟩ := Option.ite_none_right_eq_some.mp hst
    cases hst
    exact h.unwind hle
  | create co =>
    obtain ⟨hnew, hst⟩ := Option.ite_none_left_eq_some.mp hst
    cases hst
    exact h.create (by simpa using hnew)
  | resume co =>
    unfold SecretState.step at hst
    dsimp only at hst
    split at hst
    · next frames hco => cases hst; exact h.resume hco (.inl rfl)
    · next frames hco => cases hst; exact h.resume hco (.inr rfl)
    · cases hst
  | yield => exact h.leave (.inl rfl) hst
  | finish => exact h.leave (.inr rfl) hst
  | revokeSecretAccess => cases hst; exact ⟨_, rfl, h.revoke⟩
  | execFailed => exact absurd rfl hop

theorem init : Secrets {} {} where
  current := rfl
  frames := holds_new
  saved := .nil
  callers := rfl
  threads _ := .none
  tracks := tracks_nil (by simp) rfl
  tracksSaved := by simp
  nodup := by simp
  running := by simp
  known := by simp
  sublist := .slnil
  listed := trivial

end Secrets

end Rilua.Vm
