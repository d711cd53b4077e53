import Rilua.Vm.ControlFloor

/-! `poscall` and the return hooks. Before it pops a frame, `poscall` calls the return hooks and ignores their
    errors. An error that is raised in a hook, and not by its call, leaves the frames of the hook on the call
    stack, and `poscall` pops the last of these. -/

namespace Rilua.Vm

open Lib Gc LuaState

variable {m m₁ m₂ t : Control} {ends : List (List ControlOp × Control)} {ops : List ControlOp} {op : ControlOp}

/-- A return hook is called in `m` and has come back in `m₁`: it has returned, or an error is in flight. Its function
    has made the steps `ops`, none if it was not entered. -/
def HookCalled (m : Control) (ops : List ControlOp) (m₁ : Control) : Prop :=
  ∃ event m₀ site, m.returnHook event = some m₀ ∧
    CalledRun (fun m op => m.Regular (fun _ _ => True) op) site m.native m₀ ops m₁

/-- The hooks that `poscall` calls, one after the other. `ends` has what the function of each has done, and the state
    in which it has come back. -/
inductive HooksCalled : Control → List (List ControlOp × Control) → Control → Prop
  | nil (m : Control) : HooksCalled m [] m
  | cons {m m₁ m₂ t : Control} {ops : List ControlOp} {op : ControlOp} {ends : List (List ControlOp × Control)}
      (hcall : HookCalled m ops m₁) (hstep : m₁.step op = some m₂) (h : HooksCalled m₂ ends t) :
      HooksCalled m ((ops, m₁) :: ends) t

/-- `s'` is `s` after its frame was left: one frame is gone, the base is the caller's, and where the function was
    are the results that the caller wants of those from `first` on, which are in `t`. -/
structure PopsExactly (s t s' : LuaState) (first : ℕ) : Prop where
  ci_eq : s'.ci + 1 = s.ci
  base_eq : s'.base = (s.callInfo (s.ci - 1)).base
  results_eq : s'.slots (s.callInfo s.ci).func s'.top =
    deliver (s.callInfo s.ci).numResults (t.slots first s.top)

/-- `callhook` after its function has come back. -/
def afterHook (s : LuaState) (savedCiTop savedTop : ℕ) (ret : Bool) : LuaState :=
  { (s.leaveCount (.hook savedCiTop ret)).setCiTop savedCiTop with top := savedTop }

/-- Whether a return hook has failed or not, `callhook` goes on in the same way. -/
theorem step_returnHook {ns : List ControlFrame} {pos savedCiTop : ℕ} {wanted : Option ℕ} {saved : SavedCall}
    (hn : m₁.native = .site pos wanted saved (.hook savedCiTop true) :: ns) (hstep : m₁.step op = some m₂) :
    m₂.st = afterHook m₁.st savedCiTop saved.top true := by
  cases hr : m₁.raised with
  | none =>
    cases op with
    | done =>
      simp only [Control.step, hr, hn, Control.siteDone] at hstep
      cases hstep
      rfl
    | _ => simp [Control.step, hr, hn] at hstep
  | some err =>
    cases op with
    | unwind v =>
      simp only [Control.step, hr, hn, Control.unwind, Control.siteFailed] at hstep
      cases hstep
      rfl
    | _ => simp [Control.step, hr] at hstep

/-- A hook has come back. Whether it has failed or not, the top is back, and that of the current frame. -/
theorem HookCalled.spec (h : HookCalled m ops m₁) (hstep : m₁.step op = some m₂) :
    m.st.ci ≤ m₁.st.ci ∧ (m₁.st.ci = m.st.ci ↔ (ops ≠ [] → m₁.raised = none)) ∧
      m₂.st = afterHook m₁.st (m.st.callInfo m.st.ci).top m.st.top true ∧
      (m.st.setCiTop (m.st.top + luaMinStack)).callStack.take (m.st.ci + 1) <+: m₁.st.callStack := by
  obtain ⟨event, m₀, site, hhook, hrun⟩ := h
  rw [Control.returnHook] at hhook
  obtain rfl := hrun.site_of_callAtTop hhook rfl
  obtain ⟨hback, hdone, hfailed⟩ := hrun.cameBack_of_callAtTop hhook rfl
  refine ⟨hback.ci_le, ?_, step_returnHook hrun.2 hstep, hback.frames⟩
  by_cases hr : m₁.raised = none
  · exact ⟨fun _ _ => hr, fun _ => (hdone hr).1⟩
  · have hlast := hfailed hr
    split_ifs at hlast with hops
    · exact ⟨fun _ hne => absurd hops hne, fun _ => hlast.1⟩
    · exact ⟨fun heq => absurd heq hlast.ne', fun h => absurd (h hops) hr⟩

/-- Hooks never make the current frame a lower one. -/
theorem HooksCalled.ci_le (h : HooksCalled m ends t) :
    m.st.ci ≤ t.st.ci ∧ (t.st.ci = m.st.ci → ∀ e ∈ ends, e.1 ≠ [] → e.2.raised = none) := by
  induction h with
  | nil m => exact ⟨le_rfl, by simp⟩
  | @cons m m₁ m₂ t ops op ends hcall hstep h ih =>
    obtain ⟨hle, hback, hafter, -⟩ := hcall.spec hstep
    have hci : m₂.st.ci = m₁.st.ci := by
      rw [hafter]
      rfl
    obtain ⟨hle', hall⟩ := ih
    rw [hci] at hle' hall
    refine ⟨hle.trans hle', fun heq => List.forall_mem_cons.mpr ⟨?_, hall (by omega)⟩⟩
    exact hback.mp (by omega)

theorem getElem?_of_take_prefix {α : Type} {xs ys : List α} {n i : ℕ} (h : xs.take n <+: ys) (hi : i < n)
    (hlt : i < xs.length) : ys[i]? = xs[i]? := by
  obtain ⟨rest, rfl⟩ := h
  rw [List.getElem?_append_left (by rw [List.length_take]; omega), List.getElem?_take_of_lt hi]

/-- A hook that leaves no frames behind leaves those below as they were. -/
theorem HookCalled.callInfo_eq (h : HookCalled m ops m₁) (hstep : m₁.step op = some m₂) (hci : m₁.st.ci = m.st.ci)
    (hlt : m.st.ci < m.st.callStack.length) :
    m₂.st.ci < m₂.st.callStack.length ∧ ∀ i ≤ m.st.ci, m₂.st.callInfo i = m.st.callInfo i := by
  obtain ⟨-, -, hafter, hframes⟩ := h.spec hstep
  change (m.st.callStack.modify m.st.ci fun c => { c with top := m.st.top + luaMinStack }).take (m.st.ci + 1) <+: _ at hframes
  have hlen : m.st.ci < m₁.st.callStack.length := by
    have hle := hframes.length_le
    rw [List.length_take, List.length_modify] at hle
    omega
  rw [hafter]
  refine ⟨?_, fun i hi => ?_⟩
  · change m₁.st.ci < (m₁.st.callStack.modify _ _).length
    rw [List.length_modify, hci]
    exact hlen
  · have hget : m₁.st.callStack[i]? =
        (m.st.callStack.modify m.st.ci fun c => { c with top := m.st.top + luaMinStack })[i]? := by
      refine getElem?_of_take_prefix hframes (Nat.lt_succ_of_le hi) ?_
      rw [List.length_modify]
      omega
    obtain ⟨c, hc⟩ : ∃ c, m.st.callStack[i]? = some c := ⟨_, List.getElem?_eq_getElem (hi.trans_lt hlt)⟩
    have hinfo : m.st.callInfo i = c := by rw [callInfo, hc, Option.getD_some]
    change ((m₁.st.callStack.modify m₁.st.ci fun c => { c with top := (m.st.callInfo m.st.ci).top })[i]?).getD
      CallInfo.initial = m.st.callInfo i
    rw [List.getElem?_modify, hget, hci, List.getElem?_modify, hc]
    by_cases heq : m.st.ci = i
    · -- the frame of the function that returns, whose `top` is put back
      rw [heq, hinfo]
      simp
    · simp [heq, hinfo]

theorem HooksCalled.callInfo_eq (h : HooksCalled m ends t) :
    m.st.ci < m.st.callStack.length → (∀ e ∈ ends, e.1 ≠ [] → e.2.raised = none) →
      t.st.ci = m.st.ci ∧ t.st.top = m.st.top ∧ t.st.ci < t.st.callStack.length ∧
      ∀ i ≤ m.st.ci, t.st.callInfo i = m.st.callInfo i := by
  induction h with
  | nil m => exact fun hlt _ => ⟨rfl, rfl, hlt, fun _ _ => rfl⟩
  | @cons m m₁ m₂ t ops op ends hcall hstep h ih =>
    intro hlt hends
    obtain ⟨hfirst, hrest⟩ := List.forall_mem_cons.mp hends
    obtain ⟨-, hends₁, hafter, -⟩ := hcall.spec hstep
    have hci : m₂.st.ci = m₁.st.ci := by
      rw [hafter]
      rfl
    have htop : m₂.st.top = m.st.top := by
      rw [hafter]
      rfl
    have hback : m₁.st.ci = m.st.ci := hends₁.mpr hfirst
    obtain ⟨hlt₂, hsame⟩ := hcall.callInfo_eq hstep hback hlt
    rw [hback] at hci
    obtain ⟨hci', htop', hlt', hsame'⟩ := ih hlt₂ hrest
    rw [hci] at hci' hsame'
    exact ⟨hci', htop'.trans htop, hlt', fun i hi => (hsame' i hi).trans (hsame i hi)⟩

/-- With the frames as they were, `poscall` leaves the frame of the function. -/
theorem popsExactly_of_same {s t : LuaState} (first : ℕ) (hcaller : 0 < s.ci) (hci : t.ci = s.ci) (htop : t.top = s.top)
    (hlt : t.ci < t.callStack.length) (hsame : ∀ i ≤ s.ci, t.callInfo i = s.callInfo i) :
    PopsExactly s t (t.poscall first).1 first := by
  have hlen := length_chain hlt
  obtain ⟨c, cs, hchain⟩ := List.exists_cons_of_length_eq_add_one hlen
  obtain ⟨c', cs', rfl⟩ : ∃ c' cs', cs = c' :: cs' := by
    refine List.exists_cons_of_ne_nil ?_
    rintro rfl
    rw [hchain, List.length_singleton] at hlen
    omega
  obtain ⟨hleft, -⟩ := poscall_spec first hlt hchain
  have hcur : s.callInfo s.ci = c := by
    rw [← hsame _ le_rfl, ← hci]
    exact callInfo_ci hlt hchain
  obtain ⟨hchain', hlt'⟩ := chain_popCi hlt hchain
  have hbelow : s.callInfo (s.ci - 1) = c' := by
    rw [← hsame _ (Nat.sub_le _ _), ← hci]
    exact callInfo_ci hlt' hchain'
  refine ⟨?_, ?_, ?_⟩
  · rw [(poscall_frames t first).1, hci]
    omega
  · rw [hbelow]
    exact hleft.base_eq
  · rw [hcur, ← htop]
    exact hleft.results_eq

/-- `twoLoaded` with the native function as hook. -/
def hooked : LuaState := { twoLoaded with hookFunc := twoLoaded.native }

theorem idle_hooked : hooked.Idle :=
  ⟨rfl, rfl, rfl, rfl, rfl, rfl, rfl, rfl, idle_twoLoaded.threads, idle_twoLoaded.openAt⟩

/-- A Lua function that the host has called. -/
def returning : Control := (Control.step { st := hooked } (.hostCall false twoLoaded.lua [])).getD { st := hooked }

/-- The hook returns. -/
theorem hooksCalled_returns : ∃ m₁ t, HooksCalled returning [([.retRust 0], m₁)] t := by
  refine ⟨_, _, @HooksCalled.cons _ _ _ _ _ .done _ ⟨.nil, _, _, rfl, .single ⟨?_, _, [], rfl⟩ rfl, rfl⟩ rfl (.nil _)⟩
  exact trivial

/-- The hook raises an error. -/
theorem hooksCalled_fails :
    ∃ m₁ t, HooksCalled returning [([.fail, .unwind .nil], m₁)] t ∧ t.st.ci = returning.st.ci + 1 := by
  refine ⟨_, _, @HooksCalled.cons _ _ _ _ _ (.unwind .nil) _ ⟨.nil, _, _, rfl,
    .cons ⟨?_, _, [], rfl⟩ rfl (.single ⟨?_, _, [], rfl⟩ rfl), rfl⟩ rfl (.nil _), rfl⟩
  · exact trivial
  · exact trivial

end Rilua.Vm
