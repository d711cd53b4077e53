import Mathlib.Algebra.Order.BigOperators.Group.List
import Rilua.Vm.NativeCalls

/-! How deep the native stack gets. The counter of a thread is the number of its activations that are
    counted, and every coroutine starts with a counter of its own: one thread stays below the limit, and
    the whole stack is as deep as the threads resumed from one another are together. -/

namespace Rilua.Vm

open Lib Gc

/-- `n` was entered through `call_function` by a thread with counters `c`. -/
def Native.CalledAt (c : Counters) : Native → Prop
  | .callFunction | .returnHook | .reader none => True
  | .pcall saved | .xpcall saved | .handler saved | .reader (some saved) | .secureRange saved => saved = c
  | .iterator | .resume .. => False

/-- The counters of the running thread and of the threads below it count the activations. -/
inductive Balanced : List Native → Counters → List ThreadRegs → Prop
  | host : Balanced [] {} []
  | call {n : Native} {ns : List Native} {c : Counters} {saved : List ThreadRegs} (hn : n.CalledAt c)
      (h : Balanced ns c saved) : Balanced (n :: ns) ⟨c.nCcalls + 1, c.callDepth + 1⟩ saved
  | iterator {ns : List Native} {c : Counters} {saved : List ThreadRegs} (h : Balanced ns c saved) :
      Balanced (.iterator :: ns) ⟨c.nCcalls, c.callDepth + 1⟩ saved
  | resume {ns : List Native} {r : ThreadRegs} {saved : List ThreadRegs} {co : GcRef .thread}
      {caller : Option (GcRef .thread)} {wrap : Bool} (h : Balanced ns r.toCounters saved) :
      Balanced (.resume co caller wrap :: ns) {} (r :: saved)

namespace Balanced

variable {ns : List Native} {r : ThreadRegs} {saved : List ThreadRegs} {n : Native} {c : Counters}

/-- The native stack has an activation for each unit of the counters and one for each resume. -/
theorem length_eq (h : Balanced ns c saved) :
    ns.length = c.callDepth + (saved.map fun r => r.callDepth).sum + saved.length := by
  induction h with
  | host => rfl
  | call _ _ ih => simp only [List.length_cons, ih]; omega
  | iterator _ ih => simp only [List.length_cons, ih]; omega
  | resume _ ih => simp only [List.length_cons, List.map_cons, List.sum_cons, ih]; omega

theorem enterCall (h : Balanced ns r.toCounters saved) (hn : n.CalledAt r.toCounters) :
    Balanced (n :: ns) r.enterCall.toCounters saved :=
  .call hn h

theorem enterIterator (h : Balanced ns r.toCounters saved) :
    Balanced (.iterator :: ns) r.enterIterator.toCounters saved :=
  .iterator h

/-- What `call_function` leaves behind when it is left. -/
theorem leaveCall (h : Balanced (n :: ns) r.toCounters saved) (hi : n ≠ .iterator)
    (hr : ∀ co caller wrap, n ≠ .resume co caller wrap) :
    Balanced ns r.leaveCall.toCounters saved ∧ n.CalledAt r.leaveCall.toCounters := by
  generalize hc : r.toCounters = c at h
  cases h with
  | call hn h =>
    have hl : r.leaveCall.toCounters = _ := congrArg (fun c : Counters =>
      (⟨c.nCcalls - 1, c.callDepth - 1⟩ : Counters)) hc
    rw [hl]
    exact ⟨h, hn⟩
  | iterator => exact absurd rfl hi
  | resume => exact absurd rfl (hr _ _ _)

theorem leaveIterator (h : Balanced (.iterator :: ns) r.toCounters saved) :
    Balanced ns r.leaveIterator.toCounters saved := by
  generalize hc : r.toCounters = c at h
  cases h with
  | call hn => exact hn.elim
  | iterator h =>
    have hl : r.leaveIterator.toCounters = _ := congrArg (fun c : Counters =>
      (⟨c.nCcalls, c.callDepth - 1⟩ : Counters)) hc
    rw [hl]
    exact h

theorem of_resume {co : GcRef .thread} {caller : Option (GcRef .thread)} {wrap : Bool}
    (h : Balanced (.resume co caller wrap :: ns) c saved) :
    c = {} ∧ ∃ r rest, saved = r :: rest ∧ Balanced ns r.toCounters rest := by
  cases h with
  | call hn => exact hn.elim
  | resume h => exact ⟨rfl, _, _, rfl, h⟩

end Balanced

@[simp] theorem ThreadRegs.restore_self (r : ThreadRegs) : r.restore r.toCounters = r := rfl

/-- The invariant of the counters. -/
structure NativeState.Counted (s : NativeState) : Prop where
  balanced : Balanced s.natives s.regs.toCounters s.savedThreads
  depth_le : s.regs.callDepth ≤ maxCCalls
  running : s.raised = none → s.regs.callDepth < maxCCalls
  saved_lt : ∀ r ∈ s.savedThreads, r.callDepth < maxCCalls
  parked : ∀ co c, s.threads co = some c → c.status = .initial ∨ c.status = .suspended →
    c.regs.toCounters = {}

namespace Counters

variable {c : Counters} {w : String}

theorem checkStackOverflow_eq_none (h : c.callDepth < maxCCalls) : c.checkStackOverflow w = none := by
  rw [checkStackOverflow, if_neg (by omega)]

theorem checkStackOverflow_eq_some (h : c.callDepth = maxCCalls) :
    c.checkStackOverflow w = some (simpleError (w ++ "stack overflow")) := by
  rw [checkStackOverflow, if_pos (by omega), if_neg (by rw [h]; decide), if_pos h]

end Counters

namespace NativeState

variable {display : Val → String} {s s' t : NativeState} {w : String} {n : Native} {ns : List Native}

/-- Steps that touch neither counters nor activations keep the invariant. -/
theorem Counted.congr (hs : s.Counted) (hn : t.natives = s.natives) (hr : t.regs.toCounters = s.regs.toCounters)
    (hv : t.savedThreads = s.savedThreads) (hth : t.threads = s.threads)
    (hraised : t.raised = none → s.regs.callDepth < maxCCalls) : t.Counted where
  balanced := by rw [hn, hr, hv]; exact hs.balanced
  depth_le := by rw [congrArg Counters.callDepth hr]; exact hs.depth_le
  running h := by rw [congrArg Counters.callDepth hr]; exact hraised h
  saved_lt := by rw [hv]; exact hs.saved_lt
  parked := by rw [hth]; exact hs.parked

theorem Counted.lt (hs : s.Counted) (hr : s.raised = none) : s.regs.callDepth < maxCCalls := hs.running hr

/-- Entering `call_function` with room for one more activation. -/
theorem counted_callFunction (hb : Balanced s.natives s.regs.toCounters s.savedThreads)
    (hlt : s.regs.callDepth < maxCCalls) (hsaved : ∀ r ∈ s.savedThreads, r.callDepth < maxCCalls)
    (hparked : ∀ co c, s.threads co = some c → c.status = .initial ∨ c.status = .suspended →
      c.regs.toCounters = {}) (hn : n.CalledAt s.regs.toCounters) : (s.callFunction n w).Counted where
  balanced := hb.enterCall hn
  depth_le := hlt
  running h := by
    by_contra hge
    have heq : s.regs.enterCall.callDepth = maxCCalls := le_antisymm hlt (not_lt.mp hge)
    rw [callFunction, Counters.checkStackOverflow_eq_some heq] at h
    exact absurd h (by simp)
  saved_lt := hsaved
  parked := hparked

theorem Counted.callFunction (hs : s.Counted) (hr : s.raised = none) (hn : n.CalledAt s.regs.toCounters) :
    (s.callFunction n w).Counted :=
  counted_callFunction hs.balanced (hs.lt hr) hs.saved_lt hs.parked hn

theorem Counted.callIterator (hs : s.Counted) (hr : s.raised = none) : (s.callIterator w).Counted where
  balanced := hs.balanced.enterIterator
  depth_le := hs.lt hr
  running h := by
    by_contra hge
    have heq : s.regs.enterIterator.callDepth = maxCCalls := le_antisymm (hs.lt hr) (not_lt.mp hge)
    rw [NativeState.callIterator, Counters.checkStackOverflow_eq_some heq] at h
    exact absurd h (by simp)
  saved_lt := hs.saved_lt
  parked := hs.parked

theorem Counted.clearError (hs : s.Counted) : s.clearError.Counted :=
  hs.congr rfl rfl rfl rfl hs.running

theorem Counted.throwObject (hs : s.Counted) (v actual : ErrorVal) :
    (s.throwObject display v actual).Counted :=
  hs.congr rfl rfl rfl rfl fun h => absurd h (by simp [NativeState.throwObject])

/-- Leaving an activation that went through `call_function`. -/
theorem Counted.leaveCall (hs : s.Counted) (hstack : s.natives = n :: ns) (hi : n ≠ .iterator)
    (hr : ∀ co caller wrap, n ≠ .resume co caller wrap) (hn : t.natives = ns)
    (hreg : t.regs.toCounters = s.regs.leaveCall.toCounters) (hv : t.savedThreads = s.savedThreads)
    (hth : t.threads = s.threads) : t.Counted := by
  have hb := hs.balanced
  rw [hstack] at hb
  have hlt : s.regs.leaveCall.callDepth < maxCCalls := by
    have hle := hs.depth_le
    have hpos : s.regs.callDepth - 1 < maxCCalls := by
      have : 0 < maxCCalls := by decide
      omega
    exact hpos
  have hdepth : t.regs.callDepth < maxCCalls := by rw [congrArg Counters.callDepth hreg]; exact hlt
  refine ⟨?_, hdepth.le, fun _ => hdepth, ?_, ?_⟩
  · rw [hn, hreg, hv]
    exact (hb.leaveCall hi hr).1
  · rw [hv]; exact hs.saved_lt
  · rw [hth]; exact hs.parked

theorem Counted.leaveIterator (hs : s.Counted) (hstack : s.natives = .iterator :: ns) (hn : t.natives = ns)
    (hreg : t.regs.toCounters = s.regs.leaveIterator.toCounters) (hv : t.savedThreads = s.savedThreads)
    (hth : t.threads = s.threads) : t.Counted := by
  have hb := hs.balanced
  rw [hstack] at hb
  have hdepth : t.regs.callDepth < maxCCalls := by
    rw [congrArg Counters.callDepth hreg]
    have hle := hs.depth_le
    have hpos : s.regs.callDepth - 1 < maxCCalls := by
      have : 0 < maxCCalls := by decide
      omega
    exact hpos
  refine ⟨?_, hdepth.le, fun _ => hdepth, ?_, ?_⟩
  · rw [hn, hreg, hv]
    exact hb.leaveIterator
  · rw [hv]; exact hs.saved_lt
  · rw [hth]; exact hs.parked

/-- The counters saved by a protected call are those it is left with. -/
theorem Counted.saved_eq (hs : s.Counted) (hstack : s.natives = n :: ns) (hi : n ≠ .iterator)
    (hr : ∀ co caller wrap, n ≠ .resume co caller wrap) : n.CalledAt s.regs.leaveCall.toCounters := by
  have hb := hs.balanced
  rw [hstack] at hb
  exact (hb.leaveCall hi hr).2

theorem Counted.enterCoroutine (hs : s.Counted) (hr : s.raised = none) {co : GcRef .thread} {c : Coroutine}
    {wrap : Bool} (hco : s.threads co = some c) (hst : c.status = .initial ∨ c.status = .suspended) :
    (s.enterCoroutine co c wrap).Counted := by
  have hzero : c.regs.toCounters = {} := hs.parked co c hco hst
  have hdepth : c.regs.callDepth = 0 := congrArg Counters.callDepth hzero
  refine ⟨?_, by simp [NativeState.enterCoroutine, hdepth], ?_, ?_, ?_⟩
  · simp only [NativeState.enterCoroutine, hzero]
    exact .resume hs.balanced
  · intro _
    simp [NativeState.enterCoroutine, hdepth, maxCCalls]
  · intro r hmem
    rcases List.mem_cons.mp hmem with rfl | hmem
    · exact hs.lt hr
    · exact hs.saved_lt r hmem
  · intro co' c' hget hst'
    simp only [NativeState.enterCoroutine] at hget
    by_cases hco' : co' = co
    · subst hco'
      rw [Function.update_self] at hget
      cases hget
      simp at hst'
    · rw [Function.update_of_ne hco'] at hget
      exact hs.parked co' c' hget hst'

theorem Counted.auxresume (hs : s.Counted) (hr : s.raised = none) (co : GcRef .thread) (wrap : Bool) (w : String) :
    (s.auxresume display co wrap w).Counted := by
  unfold NativeState.auxresume
  split
  · next c hco hst => exact hs.enterCoroutine hr hco (.inl (by rw [coStatus, hco] at hst; exact hst))
  · next c hco hst => exact hs.enterCoroutine hr hco (.inr (by rw [coStatus, hco] at hst; exact hst))
  · dsimp only
    split
    · exact hs.throwObject _ _
    · exact hs

/-- A coroutine is left with the counters it had when it was entered. -/
theorem Counted.leaveCoroutine (hs : s.Counted) {co : GcRef .thread} {caller : Option (GcRef .thread)}
    {wrap : Bool} {status : ThreadStatus} (hstack : s.natives = .resume co caller wrap :: ns)
    (hn : t.natives = ns) (hreg : t.regs.toCounters = s.regs.toCounters) (hv : t.savedThreads = s.savedThreads)
    (hth : t.threads = s.threads) (h : t.leaveCoroutine co caller status = some s') : s'.Counted := by
  have hb := hs.balanced
  rw [hstack] at hb
  obtain ⟨hzero, r, rest, hsaved, hb'⟩ := hb.of_resume
  rw [NativeState.leaveCoroutine, hv, hsaved] at h
  cases h
  have hr := hs.saved_lt r (by rw [hsaved]; exact List.mem_cons_self ..)
  refine ⟨by rw [hn]; exact hb', hr.le, fun _ => hr, ?_, ?_⟩
  · intro r' hmem
    exact hs.saved_lt r' (by rw [hsaved]; exact List.mem_cons_of_mem _ hmem)
  · intro co' c' hget hst
    by_cases hco' : co' = co
    · subst hco'
      simp only [Function.update_self] at hget
      cases hget
      exact hreg.trans hzero
    · simp only [Function.update_of_ne hco', hth] at hget
      exact hs.parked co' c' hget hst

theorem Counted.unwindTo (hs : s.Counted) {err : Raised} (hstack : s.natives = n :: ns)
    (h : s.unwindTo display err w ns n = some s') : s'.Counted := by
  cases n with
  | callFunction =>
    cases h
    exact hs.leaveCall hstack (by simp) (by simp) rfl rfl rfl rfl
  | iterator =>
    cases h
    exact hs.leaveIterator hstack rfl rfl rfl rfl
  | pcall saved =>
    cases h
    have hsaved : saved = _ := hs.saved_eq hstack (by simp) (by simp)
    exact hs.leaveCall hstack (by simp) (by simp) rfl hsaved rfl rfl
  | xpcall saved =>
    cases h
    have hsaved : saved = _ := hs.saved_eq hstack (by simp) (by simp)
    have ht : ({ s with natives := ns, regs := s.regs.leaveCall }.deliver .handler err).Counted :=
      hs.leaveCall hstack (by simp) (by simp) rfl rfl rfl rfl
    exact ht.callFunction rfl hsaved
  | handler saved =>
    cases h
    have hsaved : saved = _ := hs.saved_eq hstack (by simp) (by simp)
    exact hs.leaveCall hstack (by simp) (by simp) rfl hsaved rfl rfl
  | reader saved =>
    cases h
    have hsaved := hs.saved_eq hstack (by simp) (by simp)
    refine hs.leaveCall hstack (by simp) (by simp) rfl ?_ rfl rfl
    cases saved with
    | none => rfl
    | some saved => exact hsaved
  | returnHook =>
    cases h
    exact hs.leaveCall hstack (by simp) (by simp) rfl rfl rfl rfl
  | secureRange saved =>
    cases h
    have hsaved : saved = _ := hs.saved_eq hstack (by simp) (by simp)
    exact hs.leaveCall hstack (by simp) (by simp) rfl hsaved rfl rfl
  | resume co caller wrap =>
    cases err with
    | yield => exact hs.leaveCoroutine (t := { s with natives := ns, raised := none }) hstack rfl rfl rfl rfl h
    | error message actual =>
      obtain ⟨t, ht, rfl⟩ := Option.map_eq_some_iff.mp h
      have hc := hs.leaveCoroutine (t := { s.clearError with natives := ns, raised := none }) hstack rfl rfl
        rfl rfl ht
      split
      · exact hc.throwObject _ _
      · exact hc.congr rfl rfl rfl rfl hc.running

theorem Counted.ret (hs : s.Counted) (h : s.ret = some s') : s'.Counted := by
  unfold NativeState.ret at h
  split at h
  · cases h
  · next hstack => cases h; exact hs.leaveIterator hstack rfl rfl rfl rfl
  · next saved ns hstack =>
    cases h
    have hsaved : saved = _ := hs.saved_eq hstack (by simp) (by simp)
    exact hs.leaveCall hstack (by simp) (by simp) rfl hsaved rfl rfl
  · next co caller wrap ns hstack =>
    exact hs.leaveCoroutine (t := { s with natives := ns }) hstack rfl rfl rfl rfl h
  · next n ns hni _ hnr hstack =>
    cases h
    exact hs.leaveCall hstack hni hnr rfl rfl rfl rfl

theorem Counted.step (hs : s.Counted) {op : NativeOp} (h : s.step display op = some s') : s'.Counted := by
  unfold NativeState.step at h
  split at h
  · next err w hr =>
    unfold NativeState.unwind at h
    rw [hr] at h
    cases hstack : s.natives with
    | nil =>
      rw [hstack] at h
      cases h
      have hzero : s.regs.callDepth = 0 := by
        have hb := hs.balanced.length_eq
        rw [hstack, List.length_nil] at hb
        omega
      exact hs.congr hstack.symm rfl rfl rfl fun _ => by rw [hzero]; decide
    | cons n ns =>
      rw [hstack] at h
      exact hs.unwindTo hstack h
  · cases h
  · next hr => cases h; exact hs.callFunction hr trivial
  · next hr => cases h; exact hs.callIterator hr
  · next hr => cases h; exact hs.clearError.callFunction hr rfl
  · next hr => cases h; exact hs.clearError.callFunction hr rfl
  · next lexer w hr =>
    cases h
    refine hs.callFunction hr ?_
    cases lexer <;> simp [Native.CalledAt]
  · next hr => cases h; exact hs.callFunction hr trivial
  · next hr => cases h; exact hs.callFunction hr rfl
  · next co hr =>
    split at h
    · cases h
    · cases h
      refine ⟨hs.balanced, hs.depth_le, hs.running, hs.saved_lt, ?_⟩
      intro co' c hget hst
      by_cases hco : co' = co
      · subst hco
        simp only [Function.update_self] at hget
        cases hget
        rfl
      · simp only [Function.update_of_ne hco] at hget
        exact hs.parked co' c hget hst
  · next hr => cases h; exact hs.auxresume hr _ _ _
  · cases h; exact hs.throwObject _ _
  · cases h; exact hs.congr rfl rfl rfl rfl fun h => absurd h (by simp)
  · split at h <;> cases h <;> exact hs.congr rfl rfl rfl rfl fun h => absurd h (by simp)
  · exact hs.ret h
  · cases h

theorem counted_init : ({} : NativeState).Counted where
  balanced := .host
  depth_le := by decide
  running _ := by decide
  saved_lt := by simp
  parked := by simp

/-! ### The bound -/

/-- Every resume happens in a coroutine that fewer than `K` threads wait for. -/
def ShallowResumes (K : ℕ) (s : NativeState) (op : NativeOp) : Prop :=
  ∀ co wrap w, op = .resume co wrap w → s.savedThreads.length < K

theorem savedThreads_leaveCoroutine {co : GcRef .thread} {caller : Option (GcRef .thread)}
    {status : ThreadStatus} (h : t.leaveCoroutine co caller status = some s') :
    s'.savedThreads.length ≤ t.savedThreads.length := by
  unfold NativeState.leaveCoroutine at h
  split at h
  · cases h
  · next r rest hsaved => cases h; simp [hsaved]

theorem savedThreads_unwindTo {err : Raised} (h : s.unwindTo display err w ns n = some s') :
    s'.savedThreads.length ≤ s.savedThreads.length := by
  cases n with
  | resume co caller wrap =>
    cases err with
    | yield => exact savedThreads_leaveCoroutine (t := { s with natives := ns, raised := none }) h
    | error message actual =>
      obtain ⟨t, ht, rfl⟩ := Option.map_eq_some_iff.mp h
      have hle := savedThreads_leaveCoroutine ht
      split
      · exact hle
      · exact hle
  | _ => cases h; exact le_rfl

/-- Only a resume adds a thread. -/
theorem savedThreads_step {op : NativeOp} (h : s.step display op = some s') :
    s'.savedThreads.length ≤ s.savedThreads.length ∨
      (∃ co wrap w, op = .resume co wrap w) ∧ s'.savedThreads.length ≤ s.savedThreads.length + 1 := by
  unfold NativeState.step at h
  split at h
  · next err w hr =>
    left
    unfold NativeState.unwind at h
    split at h
    · cases h
    · cases h; exact le_rfl
    · exact savedThreads_unwindTo h
  · cases h
  · cases h; exact .inl le_rfl
  · cases h; exact .inl le_rfl
  · cases h; exact .inl le_rfl
  · cases h; exact .inl le_rfl
  · cases h; exact .inl le_rfl
  · cases h; exact .inl le_rfl
  · cases h; exact .inl le_rfl
  · split at h
    · cases h
    · cases h; exact .inl le_rfl
  · next co wrap w hr =>
    cases h
    refine .inr ⟨⟨co, wrap, w, rfl⟩, ?_⟩
    unfold NativeState.auxresume
    split
    · exact le_rfl
    · exact le_rfl
    · dsimp only
      split <;> exact Nat.le_succ _
  · cases h; exact .inl le_rfl
  · cases h; exact .inl le_rfl
  · split at h <;> cases h <;> exact .inl le_rfl
  · left
    unfold NativeState.ret at h
    split at h
    · cases h
    · cases h; exact le_rfl
    · cases h; exact le_rfl
    · next co caller wrap ns hstack => exact savedThreads_leaveCoroutine (t := { s with natives := ns }) h
    · cases h; exact le_rfl
  · cases h

theorem Counted.length_le (hs : s.Counted) : s.natives.length ≤ (s.savedThreads.length + 1) * maxCCalls := by
  have hsum : (s.savedThreads.map fun r => r.callDepth).sum ≤ s.savedThreads.length * (maxCCalls - 1) := by
    have hle := List.sum_le_card_nsmul (s.savedThreads.map fun r => r.callDepth) (maxCCalls - 1) (by
      intro d hd
      obtain ⟨r, hr, rfl⟩ := List.mem_map.mp hd
      exact Nat.le_sub_one_of_lt (hs.saved_lt r hr))
    simpa using hle
  have hlen := hs.balanced.length_eq
  have hdepth : s.regs.callDepth ≤ maxCCalls := hs.depth_le
  have hmax : maxCCalls = 200 := rfl
  rw [hmax] at hsum hdepth ⊢
  omega

theorem run_counted {ok : NativeState → NativeOp → Prop} {ops : List NativeOp}
    (h : Run (NativeState.step display) ok {} ops s') : s'.Counted :=
  h.invariant Counted (fun _ _ _ hs _ hst => hs.step hst) counted_init

theorem run_savedThreads {K : ℕ} {ops : List NativeOp}
    (h : Run (NativeState.step display) (ShallowResumes K) {} ops s') : s'.savedThreads.length ≤ K := by
  refine h.invariant (fun s => s.savedThreads.length ≤ K) ?_ (Nat.zero_le K)
  intro s op s' hs hok hst
  rcases savedThreads_step hst with hle | ⟨⟨co, wrap, w, rfl⟩, hle⟩
  · exact hle.trans hs
  · exact hle.trans (hok co wrap w rfl)

/-- A call of a thread that has used up its activations raises an error. -/
theorem overflow_step {op : NativeOp} (hop : op.Calls w) (hr : s.raised = none)
    (hfull : s.regs.callDepth + 1 = maxCCalls) :
    ∃ t, s.step display op = some t ∧ t.raised = some (simpleError (w ++ "stack overflow")) := by
  have hover : ∀ c : Counters, c.callDepth = s.regs.callDepth + 1 →
      c.checkStackOverflow w = some (simpleError (w ++ "stack overflow")) :=
    fun c hc => Counters.checkStackOverflow_eq_some (hc.trans hfull)
  cases hop <;> exact ⟨_, by unfold NativeState.step; rw [hr], hover _ rfl⟩

/-- **Native depth.** As long as no resume happens with `K` threads below, the native stack has at most
    `(K + 1) * MAXCCALLS` activations; it is at least as deep as the threads are many. The call that would
    go past the limit of its thread raises an error. -/
theorem run_depth (K : ℕ) {ops : List NativeOp}
    (h : Run (NativeState.step display) (ShallowResumes K) {} ops s') :
    s'.natives.length ≤ (K + 1) * maxCCalls ∧ s'.savedThreads.length ≤ s'.natives.length ∧
      ∀ op w, op.Calls w → s'.raised = none → s'.regs.callDepth + 1 = maxCCalls →
        ∃ t, s'.step display op = some t ∧ t.raised = some (simpleError (w ++ "stack overflow")) := by
  have hs := run_counted h
  refine ⟨?_, ?_, fun op w hop hr hfull => overflow_step hop hr hfull⟩
  · calc s'.natives.length
      _ ≤ (s'.savedThreads.length + 1) * maxCCalls := hs.length_le
      _ ≤ (K + 1) * maxCCalls := Nat.mul_le_mul_right _ (Nat.succ_le_succ (run_savedThreads h))
  · have hlen := hs.balanced.length_eq
    omega

/-- A protected call inside a coroutine. -/
theorem run_depth_pcall :
    ∃ s' : NativeState, s'.natives.length = 2 ∧ s'.natives.length ≤ (1 + 1) * maxCCalls ∧
      s'.savedThreads.length ≤ s'.natives.length := by
  have h : Run (NativeState.step fun _ => "") (ShallowResumes 1) {}
      [.create ⟨0, 0⟩, .resume ⟨0, 0⟩ false "", .pcall ""] _ :=
    .cons (by simp [ShallowResumes]) rfl
      (.cons (by simp [ShallowResumes]) rfl (.cons (by simp [ShallowResumes]) rfl (.nil _)))
  exact ⟨_, rfl, (run_depth 1 h).1, (run_depth 1 h).2.1⟩

/-- Coroutines that resume a new coroutine each, `n` deep. -/
theorem exists_nested (display : Val → String) (n : ℕ) : ∃ (ops : List NativeOp) (s' : NativeState),
    Run (NativeState.step display) (fun _ _ => True) {} ops s' ∧ s'.natives.length = n ∧ s'.raised = none ∧
      ∀ i, n ≤ i → s'.threads ⟨i, 0⟩ = none := by
  induction n with
  | zero => exact ⟨[], {}, .nil _, rfl, rfl, fun _ _ => rfl⟩
  | succ n ih =>
    obtain ⟨ops, s, hrun, hlen, hr, hfresh⟩ := ih
    let t : NativeState := { s with threads := Function.update s.threads ⟨n, 0⟩ (some {}) }
    have hcreate : s.step display (.create ⟨n, 0⟩) = some t := by
      simp [NativeState.step, hr, hfresh n le_rfl, t]
    have hresume : t.step display (.resume ⟨n, 0⟩ false "") = some (t.enterCoroutine ⟨n, 0⟩ {} false) := by
      simp [NativeState.step, hr, NativeState.auxresume, coStatus, t]
    refine ⟨ops ++ [.create ⟨n, 0⟩, .resume ⟨n, 0⟩ false ""], t.enterCoroutine ⟨n, 0⟩ {} false,
      hrun.append (.cons trivial hcreate (.cons trivial hresume (.nil _))), ?_, hr, ?_⟩
    · simp [NativeState.enterCoroutine, hlen, t]
    · intro i hi
      have hne : (⟨i, 0⟩ : GcRef .thread) ≠ ⟨n, 0⟩ := by simp; omega
      simp only [NativeState.enterCoroutine, Function.update_of_ne hne, t]
      exact hfresh i (by omega)

/-- Nested resumes go past every bound. -/
theorem not_run_depth : ¬ ∃ bound : ℕ, ∀ (ops : List NativeOp) (s' : NativeState),
    Run (NativeState.step fun _ => "") (fun _ _ => True) {} ops s' → s'.natives.length ≤ bound := by
  rintro ⟨bound, hbound⟩
  obtain ⟨ops, s', hrun, hlen, -⟩ := exists_nested (fun _ => "") (bound + 1)
  have hle := hbound ops s' hrun
  omega

end NativeState

end Rilua.Vm
