import Rilua.Vm.CallRefine

/-! A tail call delivers what an ordinary call followed by a return would. What runs in a frame depends
    neither on what its caller wants of it nor on the frames below, so a run with the frame of the tail
    caller gone is a run with that frame kept and its results passed on. -/

namespace Rilua.Vm

open Lib Gc

namespace Calls

/-- The step with the invocations from index `d` on moved up by `k`. -/
def lift (d k : ℕ) : MachineOp → MachineOp
  | .setUpval j i v => .setUpval (if j < d then j else j + k) i v
  | .unwind j => .unwind (if j < d then j else j + k)
  | op => op

/-- A run in which, after every step, there are more than `d` invocations. -/
inductive StepsAbove (d : ℕ) : Calls → List MachineOp → Calls → Prop
  | nil (a : Calls) : StepsAbove d a [] a
  | cons {a a' a'' : Calls} {op : MachineOp} {ops : List MachineOp} (h : Step a op a') (hd : d < a'.frames.length)
    (hs : StepsAbove d a' ops a'') : StepsAbove d a (op :: ops) a''

theorem length_setReg (j i : ℕ) (v : Val) (fs : List Frame) : (setReg j i v fs).length = fs.length := by
  induction fs with
  | nil => rfl
  | cons f fs ih =>
    rw [setReg]
    split_ifs
    · rfl
    · exact congrArg (· + 1) ih

theorem setReg_append_of_lt {j : ℕ} (i : ℕ) (v : Val) (xs : List Frame) {ys : List Frame} (h : j < ys.length) :
    setReg j i v (xs ++ ys) = xs ++ setReg j i v ys := by
  induction xs with
  | nil => rfl
  | cons x xs ih =>
    rw [List.cons_append, setReg, if_neg (by simp; omega), ih, List.cons_append]

theorem setReg_append_of_le {j : ℕ} (i : ℕ) (v : Val) (xs : List Frame) {ys : List Frame} (h : ys.length ≤ j) :
    setReg j i v (xs ++ ys) = setReg (j - ys.length) i v xs ++ ys := by
  induction xs with
  | nil =>
    have hout : ∀ {zs : List Frame}, zs.length ≤ j → setReg j i v zs = zs := by
      intro zs hz
      induction zs with
      | nil => rfl
      | cons z zs ih =>
        rw [List.length_cons] at hz
        rw [setReg, if_neg (by omega), ih (by omega)]
    exact hout h
  | cons x xs ih =>
    rw [List.cons_append, setReg, setReg, ih, List.length_append]
    split_ifs <;> first | rfl | omega

theorem setReg_below {j i : ℕ} {v : Val} {top below : List Frame} {f : Frame} (h : j < below.length) :
    setReg j i v (top ++ f :: below) = top ++ f :: setReg j i v below := by
  rw [setReg_append_of_lt _ _ _ (by rw [List.length_cons]; omega), setReg, if_neg (by omega)]

theorem setReg_self {i : ℕ} {v : Val} {top below : List Frame} {f : Frame} :
    setReg below.length i v (top ++ f :: below) = top ++ { f with regs := f.regs.set i v } :: below := by
  rw [setReg_append_of_lt _ _ _ (by rw [List.length_cons]; omega), setReg, if_pos rfl]

theorem setReg_above {j i : ℕ} {v : Val} {top below : List Frame} {f : Frame} (h : below.length < j) :
    setReg j i v (top ++ f :: below) = setReg (j - (below.length + 1)) i v top ++ f :: below :=
  setReg_append_of_le i v top (by rw [List.length_cons]; omega)

/-- One step in or above a frame: it can be taken as well when the frame owes its results elsewhere and has
    other invocations between itself and `below`. -/
theorem Step.rebase {top below : List Frame} {f : Frame} {g : Gc} {op : MachineOp} {a : Calls}
    (mid : List Frame) (wanted : Option ℕ) (entry : Entry) (h : Step ⟨top ++ f :: below, g⟩ op a)
    (hd : below.length < a.frames.length) :
    ∃ top' f' below', a.frames = top' ++ f' :: below' ∧ below'.length = below.length ∧ f'.wanted = f.wanted ∧
      f'.entry = f.entry ∧
      Step ⟨top ++ owing wanted entry f :: (mid ++ below), g⟩ (lift below.length mid.length op)
        ⟨top' ++ owing wanted entry f' :: (mid ++ below'), a.gc⟩ := by
  generalize hfs : top ++ f :: below = fs at h
  cases h with
  | write i v f₀ fs₀ =>
    rcases top with _ | ⟨t, top⟩
    · cases hfs
      exact ⟨[], _, below, rfl, rfl, rfl, rfl, .write i v _ _ _⟩
    · cases hfs
      exact ⟨_ :: top, f, below, rfl, rfl, rfl, rfl, .write i v _ _ _⟩
  | push v f₀ fs₀ =>
    rcases top with _ | ⟨t, top⟩
    · cases hfs
      exact ⟨[], _, below, rfl, rfl, rfl, rfl, .push v _ _ _⟩
    · cases hfs
      exact ⟨_ :: top, f, below, rfl, rfl, rfl, rfl, .push v _ _ _⟩
  | setTop fs₀ _ hr =>
    rcases top with _ | ⟨t, top⟩
    · cases hfs
      exact ⟨[], _, below, rfl, rfl, rfl, rfl, .setTop _ _ hr⟩
    · cases hfs
      exact ⟨_ :: top, f, below, rfl, rfl, rfl, rfl, .setTop _ _ hr⟩
  | arg access n fs₀ _ hf =>
    rcases top with _ | ⟨t, top⟩
    · cases hfs
      exact ⟨[], _, below, rfl, rfl, rfl, rfl, .arg (f := owing wanted entry f) access n _ _ hf⟩
    · cases hfs
      exact ⟨_ :: top, f, below, rfl, rfl, rfl, rfl, .arg access n _ _ hf⟩
  | setUpval j i v =>
    cases hfs
    rw [lift]
    rcases lt_trichotomy j below.length with hj | rfl | hj
    · refine ⟨top, f, setReg j i v below, setReg_below hj, length_setReg .., rfl, rfl, ?_⟩
      have hset : setReg j i v (top ++ owing wanted entry f :: (mid ++ below))
          = top ++ owing wanted entry f :: (mid ++ setReg j i v below) := by
        rw [setReg_below (by rw [List.length_append]; omega), setReg_append_of_lt i v mid hj]
      rw [if_pos hj, ← hset]
      exact .setUpval _ _ _ _ _
    · refine ⟨top, _, below, setReg_self, rfl, rfl, rfl, ?_⟩
      have hset : setReg (below.length + mid.length) i v (top ++ owing wanted entry f :: (mid ++ below))
          = top ++ owing wanted entry { f with regs := f.regs.set i v } :: (mid ++ below) := by
        rw [Nat.add_comm, ← List.length_append, setReg_self]
        rfl
      rw [if_neg (lt_irrefl _), ← hset]
      exact .setUpval _ _ _ _ _
    · refine ⟨_, f, below, setReg_above hj, rfl, rfl, rfl, ?_⟩
      have hset : setReg (j + mid.length) i v (top ++ owing wanted entry f :: (mid ++ below))
          = setReg (j - (below.length + 1)) i v top ++ owing wanted entry f :: (mid ++ below) := by
        rw [setReg_above (by rw [List.length_append]; omega), List.length_append]
        congr 2
        omega
      rw [if_neg (by omega), ← hset]
      exact .setUpval _ _ _ _ _
  | heap _ _ g' =>
    cases hfs
    exact ⟨top, f, below, rfl, rfl, rfl, rfl, .heap _ _ g'⟩
  | call hf hlen hregs hres hent =>
    rcases top with _ | ⟨t, top⟩
    · cases hfs
      exact ⟨[_], _, below, rfl, rfl, rfl, rfl, .call (f := owing wanted entry f) hf hlen hregs hres hent⟩
    · cases hfs
      exact ⟨_ :: _ :: top, f, below, rfl, rfl, rfl, rfl, .call hf hlen hregs hres hent⟩
  | tailCallLua hf hlen hregs hres hent hlua =>
    rcases top with _ | ⟨t, top⟩
    · cases hfs
      exact ⟨[], _, below, rfl, rfl, (wanted_of_enter hent).1, (wanted_of_enter hent).2,
        .tailCallLua (f := owing wanted entry f) hf hlen hregs hres (enter_owing hent) hlua⟩
    · cases hfs
      exact ⟨_ :: top, f, below, rfl, rfl, rfl, rfl, .tailCallLua hf hlen hregs hres hent hlua⟩
  | tailCallRust hf hlen hregs hres hent hrust =>
    rcases top with _ | ⟨t, top⟩
    · cases hfs
      exact ⟨[_], _, below, rfl, rfl, rfl, rfl,
        .tailCallRust (f := owing wanted entry f) hf hlen hregs hres hent hrust⟩
    · cases hfs
      exact ⟨_ :: _ :: top, f, below, rfl, rfl, rfl, rfl, .tailCallRust hf hlen hregs hres hent hrust⟩
  | ret hf hregs hrec =>
    rcases top with _ | ⟨t, _ | ⟨t', top⟩⟩
    · cases hfs
      simp at hd
    · cases hfs
      cases hrec with
      | all h => exact ⟨[], _, below, rfl, rfl, rfl, rfl, .ret hf hregs (.all h)⟩
      | restored h h' hr => exact ⟨[], _, below, rfl, rfl, rfl, rfl, .ret hf hregs (.restored h h' hr)⟩
    · cases hfs
      exact ⟨_ :: top, f, below, rfl, rfl, rfl, rfl, .ret hf hregs hrec⟩
  | varArg fs₀ _ hf hb =>
    rcases top with _ | ⟨t, top⟩
    · cases hfs
      exact ⟨[], _, below, rfl, rfl, rfl, rfl, .varArg (f := owing wanted entry f) _ _ hf hb⟩
    · cases hfs
      exact ⟨_ :: top, f, below, rfl, rfl, rfl, rfl, .varArg _ _ hf hb⟩
  | varArgOpen fs₀ _ hf hregs =>
    rcases top with _ | ⟨t, top⟩
    · cases hfs
      exact ⟨[], _, below, rfl, rfl, rfl, rfl, .varArgOpen (f := owing wanted entry f) _ _ hf hregs⟩
    · cases hfs
      exact ⟨_ :: top, f, below, rfl, rfl, rfl, rfl, .varArgOpen _ _ hf hregs⟩
  | callFunction hlen hregs hres hent =>
    rcases top with _ | ⟨t, top⟩
    · cases hfs
      exact ⟨[_], _, below, rfl, rfl, rfl, rfl,
        .callFunction (f := owing wanted entry f) hlen hregs hres hent⟩
    · cases hfs
      exact ⟨_ :: _ :: top, f, below, rfl, rfl, rfl, rfl, .callFunction hlen hregs hres hent⟩
  | retRust hf hrec =>
    rcases top with _ | ⟨t, _ | ⟨t', top⟩⟩
    · cases hfs
      simp at hd
    · cases hfs
      cases hrec with
      | all h => exact ⟨[], _, below, rfl, rfl, rfl, rfl, .retRust hf (.all h)⟩
      | restored h h' hr => exact ⟨[], _, below, rfl, rfl, rfl, rfl, .retRust hf (.restored h h' hr)⟩
    · cases hfs
      exact ⟨_ :: top, f, below, rfl, rfl, rfl, rfl, .retRust hf hrec⟩
  | @unwind j f₀ regs inner fs₀ _ hj hf hregs =>
    rw [List.length_cons, hj] at hd
    have hlift : lift below.length mid.length (.unwind j) = .unwind (j + mid.length) := by
      rw [lift, if_neg (by omega)]
    rw [hlift]
    obtain ⟨above, rfl, hrest⟩ : ∃ above, top = inner ++ above ∧ f₀ :: fs₀ = above ++ f :: below := by
      rcases List.append_eq_append_iff.mp hfs with ⟨as, rfl, has⟩ | ⟨above, rfl, habove⟩
      · rcases as with _ | ⟨a, as⟩
        · exact ⟨[], by simp, by simpa using has.symm⟩
        · have hlen := congrArg List.length has
          simp only [List.length_append, List.length_cons] at hlen
          omega
      · exact ⟨above, rfl, habove⟩
    rcases above with _ | ⟨a, above⟩
    · cases hrest
      refine ⟨[], _, below, rfl, rfl, rfl, rfl, ?_⟩
      rw [List.append_nil]
      exact .unwind (f := owing wanted entry f) (by simp; omega) hf hregs
    · cases hrest
      refine ⟨_ :: above, f, below, rfl, rfl, rfl, rfl, ?_⟩
      rw [List.append_assoc, List.cons_append]
      have hlen : (above ++ f :: below).length = j := hj
      refine .unwind ?_ hf hregs
      simp only [List.length_append, List.length_cons] at hlen ⊢
      omega

/-- The same for a run in and above the frame. -/
theorem StepsAbove.rebase (top mid : List Frame) {below : List Frame} {f : Frame} {g : Gc} {ops : List MachineOp}
    {a : Calls} (wanted : Option ℕ) (entry : Entry) (hs : StepsAbove below.length ⟨top ++ f :: below, g⟩ ops a) :
    ∃ top' f' below', a.frames = top' ++ f' :: below' ∧ below'.length = below.length ∧ f'.wanted = f.wanted ∧
      f'.entry = f.entry ∧
      Steps ⟨top ++ owing wanted entry f :: (mid ++ below), g⟩ (ops.map (lift below.length mid.length))
        ⟨top' ++ owing wanted entry f' :: (mid ++ below'), a.gc⟩ := by
  generalize hd : below.length = d at hs ⊢
  generalize ha : (⟨top ++ f :: below, g⟩ : Calls) = a₀ at hs
  induction hs generalizing top f below g with
  | nil =>
    cases ha
    exact ⟨top, f, below, rfl, hd, rfl, rfl, .nil _⟩
  | @cons a₀ a₁ a₂ op ops h habove hs ih =>
    subst ha
    obtain ⟨top₁, f₁, below₁, hframes, hlen, hwanted, hentry, hstep⟩ :=
      Step.rebase mid wanted entry h (hd ▸ habove)
    have heq : (⟨top₁ ++ f₁ :: below₁, a₁.gc⟩ : Calls) = a₁ := by rw [← hframes]
    obtain ⟨top', f', below', hframes', hlen', hwanted', hentry', hsteps⟩ := ih _ (hlen.trans hd) heq
    rw [hd] at hstep
    exact ⟨top', f', below', hframes', hlen', hwanted'.trans hwanted, hentry'.trans hentry, .cons hstep hsteps⟩

/-- What is left of the invocations at the bottom is one frame `f`. -/
theorem StepsAbove.rebase_single {below : List Frame} {f : Frame} {g : Gc} {ops : List MachineOp} {a : Calls}
    (mid : List Frame) (wanted : Option ℕ) (entry : Entry) (hs : StepsAbove below.length ⟨f :: below, g⟩ ops a)
    (hlen : a.frames.length = below.length + 1) :
    ∃ f' below', a = ⟨f' :: below', a.gc⟩ ∧ below'.length = below.length ∧ f'.wanted = f.wanted ∧
      f'.entry = f.entry ∧
      Steps ⟨owing wanted entry f :: (mid ++ below), g⟩ (ops.map (lift below.length mid.length))
        ⟨owing wanted entry f' :: (mid ++ below'), a.gc⟩ := by
  obtain ⟨top', f', below', hframes, hlen', hwanted, hentry, hsteps⟩ :=
    StepsAbove.rebase [] mid wanted entry hs
  obtain rfl : top' = [] := by
    have hlen'' := congrArg List.length hframes
    rw [List.length_append, List.length_cons] at hlen''
    exact List.eq_nil_of_length_eq_zero (by omega)
  exact ⟨f', below', congrArg (Calls.mk · a.gc) hframes, hlen', hwanted, hentry, hsteps⟩

theorem lift_zero (d : ℕ) : lift d 0 = id := by
  funext op
  cases op with
  | setUpval j i v => rw [lift, Nat.add_zero, ite_self, id]
  | unwind j => rw [lift, Nat.add_zero, ite_self, id]
  | _ => rfl

variable {F : Frame} {below : List Frame} {g : Gc} {pc x b : ℕ} {body : List MachineOp} {a₁ a₂ a₃ : Calls}

/-- A Lua function called in tail position: what its caller gets, and all else, is what it is when the function
    is called and its results are returned. -/
theorem Steps.ofTailCallLua {y z : ℕ} (htail : Step ⟨F :: below, g⟩ (.tailCall pc x b) a₁)
    (hlua : a₁.frames.length = below.length + 1) (hbody : StepsAbove below.length a₁ body a₂)
    (hret : Step a₂ (.ret y z) a₃) (hlen : a₃.frames.length = below.length) :
    Steps ⟨F :: below, g⟩ (.call pc x b 0 :: body.map (lift below.length 1) ++ [.ret y z, .ret x 0]) a₃ := by
  generalize hfs : F :: below = fs at htail
  cases htail with
  | tailCallRust =>
    cases hfs
    simp at hlua
  | @tailCallLua _ _ _ _ f' regs _ _ _ _ _ _ _ hf hx hregs hres hent _ =>
    cases hfs
    obtain ⟨hwanted, hentry⟩ := wanted_of_enter hent
    cases hret with
    | @ret _ _ f₂ caller caller' results fs _ hf₂ hopen hrec =>
      -- The frame of the tail caller stays between the callee and the frames below.
      have hsplit := hbody.rebase_single [{ F with regs, pc }] none .call (by simpa using hlen)
      obtain ⟨f₂', below₂, heq, -, hwanted₂, hentry₂, hsteps⟩ := hsplit
      cases heq
      rw [hwanted₂, hentry₂, hwanted, hentry] at hrec
      refine .cons (.call hf hx hregs hres (enter_owing hent)) (hsteps.append ?_)
      refine .cons (.ret (f := owing none .call f₂) hf₂ hopen (.all (.inl rfl))) (.cons ?_ (.nil _))
      have hopen' : Opened 0 (x + 0 - 1) (regs ++ results.drop y) (regs ++ results.drop y) := by simp [Opened]
      refine .ret (f := { F with regs := regs ++ results.drop y, pc }) hf hopen' ?_
      rwa [List.drop_left' hx]

/-- The same for a native function, whose results the tail caller returns itself. -/
theorem Steps.ofTailCallRust {n : ℕ} (htail : Step ⟨F :: below, g⟩ (.tailCall pc x b) a₁)
    (hrust : a₁.frames.length = below.length + 2) (hbody : StepsAbove (below.length + 1) a₁ body a₂)
    (hret : Step a₂ (.retRust n) a₃) (hlen : a₃.frames.length = below.length + 1) :
    Steps ⟨F :: below, g⟩ (.call pc x b 0 :: body ++ [.retRust n]) a₃ := by
  generalize hfs : F :: below = fs at htail
  cases htail with
  | tailCallLua =>
    cases hfs
    simp at hrust
  | @tailCallRust _ _ _ _ f' regs _ _ _ _ _ _ _ hf hx hregs hres hent _ =>
    cases hfs
    obtain ⟨hwanted, hentry⟩ := wanted_of_enter hent
    cases hret with
    | @retRust _ f₂ caller caller' fs _ hf₂ hrec =>
      have hlen' : (caller :: fs).length = ({ F with regs, pc } :: below).length := by simpa using hlen
      have hbody' : StepsAbove ({ F with regs, pc } :: below).length ⟨f' :: { F with regs, pc } :: below, _⟩ body _ :=
        hbody
      have hsplit := hbody'.rebase_single [] none .call (congrArg (· + 1) hlen')
      obtain ⟨f₂', below₂, heq, -, hwanted₂, hentry₂, hsteps⟩ := hsplit
      cases heq
      rw [List.length_nil, lift_zero, List.map_id] at hsteps
      refine .cons (.call hf hx hregs hres (enter_owing hent)) (hsteps.append (.cons ?_ (.nil _)))
      refine .retRust (f := owing none .call f₂) hf₂ ?_
      rw [hwanted₂, hentry₂, hwanted, hentry] at hrec
      cases hrec with
      | all _ => exact .all (.inl rfl)
      | restored _ h => cases h

end Calls

end Rilua.Vm
