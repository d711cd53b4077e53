import Rilua.Vm.TailCall

/-! The call protocol as a whole: from a thread at rest, through every run in which native functions see the
    arguments they were called with, the machine does what the machine with a frame of its own for every
    invocation does, in which a tail call is an ordinary call and a return. -/

namespace Rilua.Vm

open Lib Gc LuaState

/-- The outermost frame: what called into the thread, with all that lies on the stack. -/
def Frame.host (s : LuaState) : Frame where
  regs := s.slots 0 s.top
  wanted := none
  window := 0
  entry := .host

/-- No function runs on the thread. -/
structure LuaState.AtRest (s : LuaState) : Prop where
  ci_eq : s.ci = 0
  nonempty : 0 < s.callStack.length
  base_eq : s.base = (s.callInfo 0).base

namespace Machine

/-- A step of a run that keeps the call protocol. -/
def Sound (m : Machine) (op : MachineOp) : Prop := m.Permitted op ∧ m.SeesArgs op

/-- The step leaves the frames up to index `d`. -/
def Stays (d : ℕ) (m : Machine) (op : MachineOp) : Prop := ∀ m', m.step op = some m' → d ≤ m'.st.ci

/-- `tail` runs from a tail call to the return of its callee, and `ordinary` does the same with an ordinary
    call. A Lua function replaces the frame of its caller, which the ordinary call leaves in between. -/
inductive TailRun (m : Machine) : (tail ordinary : List MachineOp) → Machine → Prop
  | lua {pc x b y z : ℕ} {body : List MachineOp} {m₁ m₂ m₃ : Machine} (hcall : m.Sound (.tailCall pc x b))
      (htail : m.step (.tailCall pc x b) = some m₁) (hlua : m₁.st.ci = m.st.ci)
      (hbody : Run Machine.step (fun m' op => m'.Sound op ∧ m'.Stays m.st.ci op) m₁ body m₂)
      (hok : m₂.Sound (.ret y z)) (hret : m₂.step (.ret y z) = some m₃) (hleft : m₃.st.ci + 1 = m.st.ci) :
    TailRun m (.tailCall pc x b :: body ++ [.ret y z])
      (.call pc x b 0 :: body.map (Calls.lift m.st.ci 1) ++ [.ret y z, .ret x 0]) m₃
  | rust {pc x b n : ℕ} {body : List MachineOp} {m₁ m₂ m₃ : Machine} (hcall : m.Sound (.tailCall pc x b))
      (htail : m.step (.tailCall pc x b) = some m₁) (hrust : m₁.st.ci = m.st.ci + 1)
      (hbody : Run Machine.step (fun m' op => m'.Sound op ∧ m'.Stays (m.st.ci + 1) op) m₁ body m₂)
      (hok : m₂.Sound (.retRust n)) (hret : m₂.step (.retRust n) = some m₃) (hleft : m₃.st.ci = m.st.ci) :
    TailRun m (.tailCall pc x b :: body ++ [.retRust n]) (.call pc x b 0 :: body ++ [.retRust n]) m₃

end Machine

theorem Refines.length_frames {m : Machine} {a : Calls} (h : Refines m a) : a.frames.length = m.st.ci + 1 := by
  rw [← h.standing.frames.length_eq, length_chain h.standing.ci_lt]

theorem Refines.regs_eq {m : Machine} {f : Frame} {fs : List Frame} {g : Gc} (h : Refines m ⟨f :: fs, g⟩)
    (hne : m.native ≠ []) : f.regs = m.st.slots m.st.base m.st.top := by
  obtain ⟨c, cs, hcur⟩ := Current.of_standing h.standing (h.native.entry_ne hne)
  rw [hcur.frame.regs_eq, hcur.base_eq, slots]

/-- Calling a function on a thread at rest starts a run. -/
theorem start_refines {s : LuaState} {i : ℕ} {wanted : Option ℕ} {m : Machine} (hrest : s.AtRest)
    (hi : s.base + i < s.top) (hcall : Machine.step ⟨s, []⟩ (.callFunction i wanted) = some m) :
    ∃ a, Calls.Step ⟨[.host s], s.gc⟩ (.callFunction (s.base + i) wanted) a ∧ Refines m a := by
  have hci : s.ci < s.callStack.length := by
    rw [hrest.ci_eq]
    exact hrest.nonempty
  have hsplit : s.slots 0 s.top
      = s.slots 0 (s.base + i) ++ s.stackGet (s.base + i) :: s.slots (s.base + i + 1) s.top := by
    rw [slots, slots, slots, ← window_cons _ hi, window_append _ (Nat.zero_le _) hi.le]
  have hstart : ∀ {s' : LuaState} {res : CallResult} {native : List Activation},
      s.precall (s.base + i) wanted = .ok (s', res) →
      (∀ {f : Frame}, f.RunBy res → f.entry = .native → ∀ {f' : Frame}, f'.entry = .host → NativeRel native [f, f']) →
      ∃ a, Calls.Step ⟨[.host s], s.gc⟩ (.callFunction (s.base + i) wanted) a ∧ Refines ⟨s', native⟩ a := by
    intro s' res native hpre hnative
    obtain ⟨r, args, f, hres, hent, hcalled, hrun⟩ := precall_spec .native hi hci hpre
    obtain ⟨c, hchain, hfunc, hbase, hrel⟩ := hcalled.frame
    refine ⟨_, .callFunction (f := .host s) (by simp [slots]) hsplit hres hent, rfl, ⟨hcalled.ci_lt, ?_, ?_⟩,
      hnative hrun (wanted_of_enter hent).2 rfl⟩
    · rw [hbase, callInfo_ci hcalled.ci_lt hchain]
    · rw [hchain, LuaState.chain_eq hci, hrest.ci_eq]
      refine .frame hrel (.host _ rfl ?_)
      rw [hfunc]
      exact (window_congr fun k _ hk => hcalled.below k hk).symm
  rw [Machine.step] at hcall
  split at hcall
  · next hpre =>
    cases hcall
    exact hstart hpre fun hrun hf _ hf' => .first hrun hf (.host hf')
  · next hpre =>
    cases hcall
    exact hstart hpre fun hrun hf _ hf' => .callFunction hrun hf (.host hf')
  · cases hcall

/-- A run that stays above index `d` does so for the machine with frames of its own. -/
theorem run_refines_above {d : ℕ} {m m' : Machine} {a : Calls} {ops : List MachineOp}
    (hrun : Run Machine.step (fun m op => m.Sound op ∧ m.Stays d op) m ops m') (h : Refines m a) :
    ∃ a', Calls.StepsAbove d a ops a' ∧ Refines m' a' := by
  induction hrun generalizing a with
  | nil m => exact ⟨a, .nil a, h⟩
  | cons hok hst _ ih =>
    obtain ⟨a₁, hstep, h₁⟩ := step_refines h hok.1.1 hok.1.2 hst
    obtain ⟨a₂, hsteps, h₂⟩ := ih h₁
    refine ⟨a₂, .cons hstep ?_ hsteps, h₂⟩
    rw [h₁.length_frames]
    exact Nat.lt_succ_of_le (hok.2 _ hst)

theorem Calls.StepsAbove.steps {d : ℕ} {a a' : Calls} {ops : List MachineOp} (h : Calls.StepsAbove d a ops a') :
    Calls.Steps a ops a' := by
  induction h with
  | nil a => exact .nil a
  | cons h _ _ ih => exact .cons h ih

/-- A tail call ends as an ordinary call and a return do. -/
theorem tailRun_refines {m m' : Machine} {a : Calls} {tail ordinary : List MachineOp}
    (htail : m.TailRun tail ordinary m') (h : Refines m a) :
    ∃ a', Calls.Steps a tail a' ∧ Calls.Steps a ordinary a' ∧ Refines m' a' := by
  obtain ⟨F, below, g, rfl⟩ : ∃ F below g, a = ⟨F :: below, g⟩ := by
    obtain ⟨F, below, hframes⟩ := List.exists_cons_of_length_pos (l := a.frames) (by rw [h.length_frames]; omega)
    exact ⟨F, below, a.gc, congrArg (Calls.mk · a.gc) hframes⟩
  have hlen : below.length = m.st.ci := Nat.succ.inj h.length_frames
  cases htail with
  | lua hcall htail hlua hbody hok hret hleft =>
    obtain ⟨a₁, hstep₁, h₁⟩ := step_refines h hcall.1 hcall.2 htail
    obtain ⟨a₂, hsteps, h₂⟩ := run_refines_above hbody h₁
    obtain ⟨a₃, hstep₃, h₃⟩ := step_refines h₂ hok.1 hok.2 hret
    have hlen₁ := h₁.length_frames
    have hlen₃ := h₃.length_frames
    rw [← hlen] at hsteps
    refine ⟨a₃, (Calls.Steps.cons hstep₁ hsteps.steps).append (.cons hstep₃ (.nil _)), ?_, h₃⟩
    rw [← hlen]
    exact .ofTailCallLua hstep₁ (by omega) hsteps hstep₃ (by omega)
  | rust hcall htail hrust hbody hok hret hleft =>
    obtain ⟨a₁, hstep₁, h₁⟩ := step_refines h hcall.1 hcall.2 htail
    obtain ⟨a₂, hsteps, h₂⟩ := run_refines_above hbody h₁
    obtain ⟨a₃, hstep₃, h₃⟩ := step_refines h₂ hok.1 hok.2 hret
    have hlen₁ := h₁.length_frames
    have hlen₃ := h₃.length_frames
    rw [← hlen] at hsteps
    exact ⟨a₃, (Calls.Steps.cons hstep₁ hsteps.steps).append (.cons hstep₃ (.nil _)),
      .ofTailCallRust hstep₁ (by omega) hsteps hstep₃ (by omega), h₃⟩

/-- The host has called `coroutine.create` with an argument before and calls it without one now: the argument
    of before still lies above the top. -/
def staleCall : LuaState where
  stack := [.nil, .function ⟨0, 0⟩, .function ⟨0, 0⟩]
  base := 1
  top := 2
  callStack := [CallInfo.initial]
  global := ⟨0, 0⟩
  gc := { heap := ((Heap.new.alloc .closure (.rust ⟨[], none⟩) .white0).map Prod.fst).getD Heap.new }
  registry := ⟨0, 0⟩
  hookEventNames := []
  hookMaskNames := []
  debugInfoFieldNames := []

end Rilua.Vm
