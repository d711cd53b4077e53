import Rilua.Vm.NativeDepth

/-! The error value that reaches a protected call. It travels in the slot of the error object, beside the
    error itself, and errors that are swallowed on the way leave it there. As long as no error without an
    error object is raised towards a protected call while the slot is filled, every value delivered is the
    value its error was raised with. -/

namespace Rilua.Vm

open Lib Gc

/-- Errors pass through the activation. -/
def Native.passes : Native → Bool
  | .callFunction | .iterator => true
  | _ => false

/-- The activation takes its error value out of the slot: what `err` is raised towards. -/
def Raised.takenBy (err : Raised) (natives : List Native) : Bool :=
  match natives.find? fun n => !n.passes with
  | some (.pcall _) | some (.xpcall _) => true
  | some (.resume ..) => err ≠ .yield
  | _ => false

namespace NativeState

variable {display : Val → String} {s s' t : NativeState} {w : String} {n : Native} {ns : List Native}
  {err : Raised}

/-- The step raises an error that carries no error object. -/
def raisesText (s : NativeState) : NativeOp → Option Raised
  | .fail message => some (simpleError message)
  | .yield =>
    if s.canYield then none else some (simpleError "attempt to yield across metamethod/C-call boundary")
  | .callFunction w => s.regs.enterCall.checkStackOverflow w
  | .iterator w => s.regs.enterIterator.checkStackOverflow w
  | _ => none

/-- When an error without an error object is raised towards a protected call, no error object is left in the
    slot. -/
def SlotEmpty (s : NativeState) (op : NativeOp) : Prop :=
  ∀ err, s.raisesText op = some err → err.takenBy s.natives → s.regs.errorObject = none

/-- The error in flight will be delivered with its own value. -/
def InFlight (s : NativeState) : Prop :=
  ∀ err, s.raised = some err → err.takenBy s.natives → s.regs.takeError err = err.value

/-- Every value was delivered for the error it belongs to. -/
def ReportsRight (s : NativeState) : Prop := ∀ r ∈ s.reports, r.delivered = r.actual

theorem slotEmpty_of_none {op : NativeOp} (h : s.raisesText op = none) : s.SlotEmpty op := by
  intro err herr
  rw [h] at herr
  cases herr

theorem takenBy_passes (hn : n.passes = true) : err.takenBy (n :: ns) = err.takenBy ns := by
  simp [Raised.takenBy, hn]

theorem takeError_of_none {r : ThreadRegs} {message : String} (h : r.errorObject = none) :
    r.takeError (simpleError message) = (simpleError message).value := by
  rw [ThreadRegs.takeError, h]
  rfl

theorem checkStackOverflow_simple {c : Counters} (h : c.checkStackOverflow w = some err) :
    ∃ message, err = simpleError message := by
  unfold Counters.checkStackOverflow at h
  split at h
  · split at h
    · exact ⟨_, (Option.some.inj h).symm⟩
    · split at h
      · exact ⟨_, (Option.some.inj h).symm⟩
      · cases h
  · cases h

/-- Calls that fail for want of room. -/
theorem inFlight_overflow {regs : ThreadRegs} (hraised : t.raised = regs.checkStackOverflow w)
    (hempty : ∀ err, regs.checkStackOverflow w = some err → err.takenBy t.natives →
      t.regs.errorObject = none) : t.InFlight := by
  intro err hr htaken
  rw [hraised] at hr
  obtain ⟨message, rfl⟩ := checkStackOverflow_simple hr
  exact takeError_of_none (hempty _ hr htaken)

theorem inFlight_throwObject (s : NativeState) (v : ErrorVal) : (s.throwObject display v v).InFlight := by
  intro err hr _
  cases hr
  rfl

theorem inFlight_of_none (h : t.raised = none) : t.InFlight := by
  intro err hr
  rw [h] at hr
  cases hr

theorem ReportsRight.deliver {receiver : Receiver} (hs : s.ReportsRight)
    (htake : s.regs.takeError err = err.value) : (s.deliver receiver err).ReportsRight := by
  intro r hr
  rcases List.mem_cons.mp hr with rfl | hr
  · exact htake
  · exact hs r hr

/-- An activation that swallows errors is called. -/
theorem inFlight_swallowed (hn : ∀ err : Raised, err.takenBy (n :: s.natives) = false) :
    (s.callFunction n w).InFlight := by
  intro err _ htaken
  rw [NativeState.callFunction, hn err] at htaken
  exact absurd htaken Bool.false_ne_true

/-- A yield passes through iterators only, up to the resume. -/
theorem not_takenBy_yield {c : Counters} {saved : List ThreadRegs} (h : Balanced ns c saved)
    (hc : c.nCcalls = 0) : Raised.yield.takenBy ns = false := by
  induction h with
  | host => rfl
  | call => cases hc
  | iterator _ ih => exact (takenBy_passes rfl).trans (ih hc)
  | resume => rfl

theorem leaveCoroutine_raised {co : GcRef .thread} {caller : Option (GcRef .thread)} {status : ThreadStatus}
    (h : t.leaveCoroutine co caller status = some s') : s'.raised = t.raised ∧ s'.reports = t.reports := by
  unfold NativeState.leaveCoroutine at h
  split at h
  · cases h
  · cases h; exact ⟨rfl, rfl⟩

theorem unwindTo_right (hs : s.ReportsRight) (hf : s.InFlight) (hr : s.raised = some err)
    (hstack : s.natives = n :: ns) (h : s.unwindTo display err w ns n = some s') :
    s'.ReportsRight ∧ s'.InFlight := by
  have htake : err.takenBy (n :: ns) → s.regs.takeError err = err.value := by
    rw [← hstack]; exact hf err hr
  cases n with
  | callFunction =>
    cases h
    refine ⟨hs, ?_⟩
    intro err' hr' htaken
    cases hr.symm.trans hr'
    exact htake ((takenBy_passes rfl).trans htaken)
  | iterator =>
    cases h
    refine ⟨hs, ?_⟩
    intro err' hr' htaken
    cases hr.symm.trans hr'
    exact htake ((takenBy_passes rfl).trans htaken)
  | pcall saved =>
    cases h
    exact ⟨ReportsRight.deliver hs (htake rfl), inFlight_of_none rfl⟩
  | xpcall saved =>
    cases h
    refine ⟨ReportsRight.deliver (s := { s with natives := ns, regs := s.regs.leaveCall }) hs (htake rfl), ?_⟩
    exact inFlight_overflow rfl fun _ _ _ => rfl
  | handler saved => cases h; exact ⟨hs, inFlight_of_none rfl⟩
  | reader saved => cases h; exact ⟨hs, inFlight_of_none rfl⟩
  | returnHook => cases h; exact ⟨hs, inFlight_of_none rfl⟩
  | secureRange saved => cases h; exact ⟨hs, inFlight_of_none rfl⟩
  | resume co caller wrap =>
    cases err with
    | yield =>
      obtain ⟨hraised, hreports⟩ := leaveCoroutine_raised (t := { s with natives := ns, raised := none }) h
      exact ⟨fun r hr => hs r (by rw [← hreports]; exact hr), inFlight_of_none hraised⟩
    | error message actual =>
      obtain ⟨t, ht, rfl⟩ := Option.map_eq_some_iff.mp h
      obtain ⟨hraised, hreports⟩ := leaveCoroutine_raised ht
      have hv : s.regs.takeError (.error message actual) = actual := htake rfl
      have hright : t.ReportsRight := fun r hr => hs r (by rw [hreports] at hr; exact hr)
      rw [hv]
      split
      · exact ⟨hright, inFlight_throwObject t _⟩
      · refine ⟨?_, inFlight_of_none hraised⟩
        intro r hr
        rcases List.mem_cons.mp hr with rfl | hr
        · rfl
        · exact hright r hr

theorem step_right (hs : s.ReportsRight) (hf : s.InFlight) (hc : s.Counted) {op : NativeOp}
    (hempty : s.SlotEmpty op) (h : s.step display op = some s') : s'.ReportsRight ∧ s'.InFlight := by
  unfold NativeState.step at h
  split at h
  · next err w hr =>
    unfold NativeState.unwind at h
    rw [hr] at h
    cases hstack : s.natives with
    | nil => rw [hstack] at h; cases h; exact ⟨hs, inFlight_of_none rfl⟩
    | cons n ns => rw [hstack] at h; exact unwindTo_right hs hf hr hstack h
  · cases h
  · next w hr =>
    cases h
    refine ⟨hs, inFlight_overflow rfl fun err he htaken => ?_⟩
    exact hempty err he ((takenBy_passes rfl).symm.trans htaken)
  · next w hr =>
    cases h
    refine ⟨hs, inFlight_overflow rfl fun err he htaken => ?_⟩
    exact hempty err he ((takenBy_passes rfl).symm.trans htaken)
  · cases h
    exact ⟨hs, inFlight_overflow rfl fun _ _ _ => rfl⟩
  · cases h
    exact ⟨hs, inFlight_overflow rfl fun _ _ _ => rfl⟩
  · cases h
    exact ⟨hs, inFlight_swallowed fun _ => rfl⟩
  · cases h
    exact ⟨hs, inFlight_swallowed fun _ => rfl⟩
  · cases h
    exact ⟨hs, inFlight_swallowed fun _ => rfl⟩
  · next co hr =>
    split at h
    · cases h
    · cases h; exact ⟨hs, hf⟩
  · next co wrap w hr =>
    cases h
    unfold NativeState.auxresume
    split
    · exact ⟨hs, inFlight_of_none hr⟩
    · exact ⟨hs, inFlight_of_none hr⟩
    · dsimp only
      split
      · exact ⟨hs, inFlight_throwObject s _⟩
      · exact ⟨hs, hf⟩
  · cases h; exact ⟨hs, inFlight_throwObject s _⟩
  · next message hr =>
    cases h
    refine ⟨hs, fun err he htaken => ?_⟩
    cases he
    exact takeError_of_none (hempty _ rfl htaken)
  · next hr =>
    split at h
    · next hy =>
      cases h
      refine ⟨hs, fun err he htaken => absurd htaken ?_⟩
      cases he
      have hzero : s.regs.nCcalls = 0 := by simp [canYield] at hy; exact hy.2
      rw [not_takenBy_yield hc.balanced hzero]
      simp
    · next hy =>
      cases h
      refine ⟨hs, fun err he htaken => ?_⟩
      cases he
      exact takeError_of_none (hempty _ (by simp [raisesText, hy]) htaken)
  · next hr =>
    unfold NativeState.ret at h
    split at h
    · cases h
    · cases h; exact ⟨hs, inFlight_of_none hr⟩
    · cases h; exact ⟨hs, inFlight_of_none hr⟩
    · next co caller wrap ns hstack =>
      obtain ⟨hraised, hreports⟩ := leaveCoroutine_raised (t := { s with natives := ns }) h
      exact ⟨fun r hm => hs r (by rw [← hreports]; exact hm), inFlight_of_none (hraised.trans hr)⟩
    · cases h; exact ⟨hs, inFlight_of_none hr⟩
  · cases h

/-- **Protected calls report the right error.** In every run in which no error without an error object is
    raised towards a protected call while an old error object is in the slot, each value delivered is the one
    its error was raised with. -/
theorem run_reports {ops : List NativeOp} (h : Run (NativeState.step display) SlotEmpty {} ops s') :
    ∀ r ∈ s'.reports, r.delivered = r.actual := by
  have hinv : s'.ReportsRight ∧ s'.InFlight ∧ s'.Counted :=
    h.invariant (fun s => s.ReportsRight ∧ s.InFlight ∧ s.Counted)
      (fun s op s' ⟨hs, hf, hc⟩ hempty hst =>
        have hr := step_right hs hf hc hempty hst
        ⟨hr.1, hr.2, hc.step hst⟩)
      ⟨by simp [ReportsRight], inFlight_of_none rfl, counted_init⟩
  exact hinv.1

/-- The reader of `load` raises an error, which is swallowed, and then the function calls `error`. -/
theorem run_reports_error : ∃ s' : NativeState,
    (s'.reports.map Report.delivered = [.other (.bool false)]) ∧ ∀ r ∈ s'.reports, r.delivered = r.actual := by
  have h : Run (NativeState.step fun _ => "") SlotEmpty {}
      [.pcall "", .reader false "", .error "" (.other (.bool true)) 1, .unwind "",
        .error "" (.other (.bool false)) 1, .unwind ""] _ :=
    .cons (slotEmpty_of_none rfl) rfl (.cons (slotEmpty_of_none rfl) rfl (.cons (slotEmpty_of_none rfl) rfl
      (.cons (slotEmpty_of_none rfl) rfl (.cons (slotEmpty_of_none rfl) rfl (.cons (slotEmpty_of_none rfl) rfl
        (.nil _))))))
  exact ⟨_, rfl, run_reports h⟩

/-- Without the condition the error object of the swallowed error is delivered for a later error. -/
theorem not_run_reports : ¬ ∀ (ops : List NativeOp) (s' : NativeState),
    Run (NativeState.step fun _ => "") (fun _ _ => True) {} ops s' → ∀ r ∈ s'.reports, r.delivered = r.actual := by
  intro hall
  have h : Run (NativeState.step fun _ => "") (fun _ _ => True) {}
      [.pcall "", .reader false "", .error "" (.other (.bool true)) 1, .unwind "",
        .fail "attempt to perform arithmetic on a nil value", .unwind ""] _ :=
    .cons trivial rfl (.cons trivial rfl (.cons trivial rfl (.cons trivial rfl (.cons trivial rfl
      (.cons trivial rfl (.nil _))))))
  have hright := hall _ _ h ⟨.pcall, .other (.bool true), _⟩ (List.mem_cons_self ..)
  exact absurd hright (by simp [Raised.value, simpleError])

end NativeState

end Rilua.Vm
