import Rilua.Vm.StackTop

/-! What a function does that a site has called, as long as it is in progress. The frames below stay as they are,
    and so do the threads that wait; the counters are back when the site goes on, and so is the current frame
    if the function has returned. After an error there may be frames of abandoned functions on top, wherever the
    error comes from. This holds of any state of the machine, whatever has happened before. -/

namespace Rilua.Vm

open Lib Gc LuaState

/-! ### Frames -/

namespace LuaState

variable {s s' : LuaState} {F : List CallInfo}

/-- `s'` has one frame more than `s`. -/
def Pushes (s s' : LuaState) : Prop := s'.ci = s.ci + 1 ∧ ∃ c, s'.callStack = (s.pushCi c).callStack

theorem OnlyStack.pushes {t : LuaState} (h : OnlyStack s t) (h' : t.Pushes s') : s.Pushes s' := by
  obtain ⟨stack, top, gc, rfl⟩ := h
  exact h'

theorem copyParams_onlyStack (n : ℕ) : ∀ (src : ℕ) (s : LuaState), OnlyStack s (copyParams src n s) := by
  induction n with
  | zero => exact fun _ s => ⟨_, _, _, rfl⟩
  | succ n ih => exact fun src s => .trans ⟨_, _, _, rfl⟩ (ih (src + 1) _)

theorem relocate_onlyStack (p : Proto) (fixed : ℕ) (arg : Option (GcRef .table)) :
    OnlyStack s (s.relocate p fixed arg).1 := by
  have hcopy := copyParams_onlyStack p.numParams.toNat fixed (s.ensureStackLen (s.top + p.numParams.toNat + 1))
  have hgrow : OnlyStack s (s.ensureStackLen (s.top + p.numParams.toNat + 1)) := ⟨_, _, _, rfl⟩
  cases arg with
  | none => exact hgrow.trans hcopy
  | some r => exact (hgrow.trans hcopy).trans ⟨_, _, _, rfl⟩

theorem adjustVarargs_onlyStack {p : Proto} {nargs newBase : ℕ} (h : s.adjustVarargs p nargs = some (s', newBase)) :
    OnlyStack s s' := by
  obtain ⟨-, -, honly, -⟩ := padNil_spec (p.numParams.toNat - nargs) s
  rw [adjustVarargs] at h
  obtain ⟨⟨gc, arg⟩, -, heq⟩ := Option.map_eq_some_iff.mp h
  have hheap : OnlyStack (padNil (p.numParams.toNat - nargs) s) { padNil (p.numParams.toNat - nargs) s with gc } :=
    ⟨_, _, _, rfl⟩
  obtain rfl : _ = s' := congrArg Prod.fst heq
  exact (honly.trans hheap).trans (relocate_onlyStack _ _ _)

theorem pushes_enterLua {cl : LuaClosure} {pos : ℕ} {wanted : Option ℕ} (h : s.enterLua cl pos wanted = some s') :
    s.Pushes s' := by
  rw [enterLua] at h
  obtain ⟨⟨t, newBase⟩, hadj, rfl⟩ := Option.map_eq_some_iff.mp h
  have honly : OnlyStack s t := by
    split_ifs at hadj
    · exact adjustVarargs_onlyStack hadj
    · obtain rfl : _ = t := congrArg Prod.fst (Option.some.inj hadj)
      rw [adjustFixed]
      split_ifs <;> exact ⟨_, _, _, rfl⟩
  refine honly.pushes ?_
  simp only [pushFrame]
  split_ifs <;> exact ⟨rfl, _, rfl⟩

/-- A call pushes a frame. -/
theorem pushes_precall {pos : ℕ} {wanted : Option ℕ} {res : CallResult} (h : s.precall pos wanted = .ok (s', res)) :
    s.Pushes s' := by
  rw [precall] at h
  split_ifs at h
  cases hres : s.resolveCallee pos with
  | error e => simp [hres] at h
  | ok x =>
    obtain ⟨t, r⟩ := x
    have honly : OnlyStack s t := by
      rw [resolveCallee] at hres
      split at hres
      · cases hres
        exact ⟨_, _, _, rfl⟩
      · split at hres
        · cases hres
          exact ⟨_, _, _, rfl⟩
        · cases hres
    simp only [hres] at h
    refine honly.pushes ?_
    split at h
    · cases h
    · split at h
      · rename_i hlua
        cases h
        exact pushes_enterLua hlua
      · cases h
    · cases h
      exact ⟨rfl, _, rfl⟩

theorem Pushes.prefix (h : s.Pushes s') (hF : F <+: s.callStack) (hlen : F.length ≤ s.ci + 1) : F <+: s'.callStack := by
  obtain ⟨-, c, hc⟩ := h
  rw [hc, pushCi]
  dsimp only
  split_ifs
  · rw [List.prefix_iff_eq_take] at hF ⊢
    rw [List.take_set_of_le hlen]
    exact hF
  · exact hF.trans (List.prefix_append ..)

theorem prefix_modify {i : ℕ} (f : CallInfo → CallInfo) {cs : List CallInfo} (hF : F <+: cs) (hi : F.length ≤ i) :
    F <+: cs.modify i f := by
  rw [List.prefix_iff_eq_take] at hF ⊢
  rw [List.take_modify, List.modify_eq_self (by rw [List.length_take]; omega)]
  exact hF

/-- A return pops a frame. -/
theorem poscall_frames (s : LuaState) (first : ℕ) :
    (s.poscall first).1.ci = s.ci - 1 ∧ (s.poscall first).1.callStack = s.callStack := by
  rw [poscall]
  split <;> exact ⟨rfl, rfl⟩

end LuaState

/-! ### The floor -/

/-- What a site leaves to the function it calls: the native stack with the site on top, the frames in use, and the
    threads that wait. -/
structure Floor where
  native : List ControlFrame
  atSite : ∀ f ∈ native.head?, ¬ f.IsCode
  frames : List CallInfo
  ci : ℕ
  counters : Counters
  threads : List LuaThread
  length_le : frames.length ≤ ci + 1

/-- The frame `ci` of the call stack `cs` is the current one of the code in progress on the native stack, which is on
    top of the floor `b`. -/
inductive Over (b : Floor) : List ControlFrame → List CallInfo → ℕ → Counters → List LuaThread → Prop
  | floor {cs : List CallInfo} (h : b.frames <+: cs) : Over b b.native cs b.ci b.counters b.threads
  | execute {j : ℕ} {ns : List ControlFrame} {cs : List CallInfo} {ci : ℕ} {n : Counters} {ts : List LuaThread}
      (hj : 0 < j) (h : Over b ns cs ci n ts) : Over b (.execute j :: ns) cs (ci + j) n ts
  | rust {f : ControlFrame} {ns : List ControlFrame} {cs : List CallInfo} {ci : ℕ} {n : Counters} {ts : List LuaThread}
      (hf : f.IsRust) (h : Over b ns cs ci n ts) : Over b (f :: ns) cs (ci + 1) n ts
  | site {pos : ℕ} {wanted : Option ℕ} {saved : SavedCall} {k : Site} {f : ControlFrame} {ns : List ControlFrame}
      {cs : List CallInfo} {ci : ℕ} {n : Counters} {ts : List LuaThread} (hk : ¬ k.IsResume) (hhost : ¬ k.IsHost)
      (hf : f.IsCode) (hcount : (⟨saved.nCcalls, saved.callDepth⟩ : Counters) = n) (hle : saved.ci ≤ ci)
      (hci : ¬ k.IsHandler → ci = saved.ci) (h : Over b (f :: ns) cs saved.ci n ts) :
      Over b (.site pos wanted saved k :: f :: ns) cs ci (k.count n) ts
  | resume {pos : ℕ} {wanted : Option ℕ} {saved : SavedCall} {k : Site} {f : ControlFrame} {ns : List ControlFrame}
      {cs : List CallInfo} {ci : ℕ} {n : Counters} {t : LuaThread} {ts : List LuaThread} (hk : k.IsResume)
      (hf : f.IsCode) (h : Over b (f :: ns) t.callStack t.ci ⟨t.nCcalls, t.callDepth⟩ ts) :
      Over b (.site pos wanted saved k :: f :: ns) cs ci n (t :: ts)

section Over

variable {b : Floor} {ns : List ControlFrame} {cs cs' : List CallInfo} {ci : ℕ} {n : Counters} {ts : List LuaThread}
  {f : ControlFrame} {pos : ℕ} {wanted : Option ℕ} {saved : SavedCall} {k : Site}

theorem Over.length_le (h : Over b ns cs ci n ts) : b.native.length ≤ ns.length := by
  induction h with
  | floor => exact le_rfl
  | execute _ _ ih => exact ih.trans (Nat.le_succ _)
  | rust _ _ ih => exact ih.trans (Nat.le_succ _)
  | site _ _ _ _ _ _ _ ih => exact ih.trans (Nat.le_succ _)
  | resume _ _ _ ih => exact ih.trans (Nat.le_succ _)

/-- Frames above the current one may change. -/
theorem Over.congr (h : Over b ns cs ci n ts) :
    (∀ F, F.length ≤ ci + 1 → F <+: cs → F <+: cs') → Over b ns cs' ci n ts := by
  induction h with
  | floor h => exact fun hcs => .floor (hcs _ b.length_le h)
  | execute hj h ih => exact fun hcs => .execute hj (ih fun F hF => hcs F (hF.trans (by omega)))
  | rust hf h ih => exact fun hcs => .rust hf (ih fun F hF => hcs F (hF.trans (by omega)))
  | site hk hhost hf hcount hle hci h ih =>
    exact fun hcs => .site hk hhost hf hcount hle hci (ih fun F hF => hcs F (hF.trans (by omega)))
  | resume hk hf h ih => exact fun _ => .resume hk hf h

theorem Over.of_execute {j : ℕ} (h : Over b (.execute j :: ns) cs ci n ts) :
    ∃ ci₀, 0 < j ∧ ci = ci₀ + j ∧ Over b ns cs ci₀ n ts := by
  generalize hns : ControlFrame.execute j :: ns = l at h
  cases h with
  | floor => exact absurd trivial (b.atSite (.execute j) (by simp [← hns]))
  | execute hj h =>
    obtain ⟨⟨⟩, rfl⟩ := List.cons.inj hns
    exact ⟨_, hj, rfl, h⟩
  | rust hf =>
    obtain ⟨rfl, -⟩ := List.cons.inj hns
    exact hf.elim
  | site => cases hns
  | resume => cases hns

theorem Over.of_rust (h : Over b (f :: ns) cs ci n ts) (hf : f.IsRust) :
    ∃ ci₀, ci = ci₀ + 1 ∧ Over b ns cs ci₀ n ts := by
  generalize hns : f :: ns = l at h
  cases h with
  | floor => exact absurd hf.isCode (b.atSite f (by simp [← hns]))
  | execute =>
    obtain ⟨rfl, -⟩ := List.cons.inj hns
    exact hf.elim
  | rust hf h =>
    obtain ⟨rfl, rfl⟩ := List.cons.inj hns
    exact ⟨_, rfl, h⟩
  | site =>
    obtain ⟨rfl, -⟩ := List.cons.inj hns
    exact hf.elim
  | resume =>
    obtain ⟨rfl, -⟩ := List.cons.inj hns
    exact hf.elim

/-- What is below the code that runs. -/
theorem Over.of_code (h : Over b (f :: ns) cs ci n ts) (hf : f.IsCode) :
    ∃ ci₀ < ci, Over b ns cs ci₀ n ts := by
  rcases ControlFrame.isCode_cases hf with hrust | ⟨j, rfl⟩
  · obtain ⟨ci₀, rfl, hbelow⟩ := h.of_rust hrust
    exact ⟨ci₀, Nat.lt_succ_self _, hbelow⟩
  · obtain ⟨ci₀, hj, rfl, hbelow⟩ := h.of_execute
    exact ⟨ci₀, by omega, hbelow⟩

/-- The code that runs may change its own frame. -/
theorem Over.congr_code (h : Over b (f :: ns) cs ci n ts) (hf : f.IsCode)
    (hcs : ∀ F, F.length ≤ ci → F <+: cs → F <+: cs') : Over b (f :: ns) cs' ci n ts := by
  rcases ControlFrame.isCode_cases hf with hrust | ⟨j, rfl⟩
  · obtain ⟨ci₀, rfl, hbelow⟩ := h.of_rust hrust
    exact .rust hrust (hbelow.congr hcs)
  · obtain ⟨ci₀, hj, rfl, hbelow⟩ := h.of_execute
    exact .execute hj (hbelow.congr fun F hF => hcs F (hF.trans (by omega)))

theorem Over.of_site (h : Over b (.site pos wanted saved k :: ns) cs ci n ts) (hlen : b.native.length ≤ ns.length)
    (hk : ¬ k.IsResume) :
    ¬ k.IsHost ∧ (∃ f ns', ns = f :: ns' ∧ f.IsCode) ∧ (¬ k.IsHandler → ci = saved.ci) ∧ saved.ci ≤ ci ∧
      n = k.count ⟨saved.nCcalls, saved.callDepth⟩ ∧ Over b ns cs saved.ci ⟨saved.nCcalls, saved.callDepth⟩ ts := by
  generalize hns : ControlFrame.site pos wanted saved k :: ns = l at h
  cases h with
  | floor =>
    rw [← hns] at hlen
    simp at hlen
  | execute => cases hns
  | rust hf =>
    obtain ⟨rfl, -⟩ := List.cons.inj hns
    exact hf.elim
  | site hres hhost hf hcount hle hci h =>
    cases hns
    exact ⟨hhost, ⟨_, _, rfl, hf⟩, hci, hle, by rw [hcount], hcount ▸ h⟩
  | resume hres =>
    cases hns
    exact absurd hres hk

theorem Over.of_resume (h : Over b (.site pos wanted saved k :: ns) cs ci n ts) (hlen : b.native.length ≤ ns.length)
    (hk : k.IsResume) :
    ∃ t ts' f ns', ts = t :: ts' ∧ ns = f :: ns' ∧ f.IsCode ∧
      Over b ns t.callStack t.ci ⟨t.nCcalls, t.callDepth⟩ ts' := by
  generalize hns : ControlFrame.site pos wanted saved k :: ns = l at h
  cases h with
  | floor =>
    rw [← hns] at hlen
    simp at hlen
  | execute => cases hns
  | rust hf =>
    obtain ⟨rfl, -⟩ := List.cons.inj hns
    exact hf.elim
  | site hres =>
    cases hns
    exact absurd hk hres
  | resume hres hf h =>
    cases hns
    exact ⟨_, _, _, _, rfl, rfl, hf, h⟩

/-- At the floor there is nothing on top. -/
theorem Over.at_floor (h : Over b b.native cs ci n ts) : b.frames <+: cs ∧ ci = b.ci ∧ n = b.counters ∧ ts = b.threads := by
  generalize hns : b.native = l at h
  cases h with
  | floor h => exact ⟨h, rfl, rfl, rfl⟩
  | execute _ h | rust _ h | site _ _ _ _ _ _ h | resume _ _ h =>
    have hle := h.length_le
    rw [hns, List.length_cons] at hle
    exact absurd hle (Nat.not_succ_le_self _)

end Over

/-- The machine is in what a site has called. While an error is in flight there may be more frames. -/
def Stands (b : Floor) (m : Control) : Prop :=
  ∃ ci ≤ m.st.ci, (m.raised = none → ci = m.st.ci) ∧
    Over b m.native m.st.callStack ci m.st.counters m.st.savedThreads

section Stands

variable {b : Floor} {m m' : Control} {ns : List ControlFrame} {f : ControlFrame} {pos : ℕ} {wanted : Option ℕ}
  {saved : SavedCall} {k : Site} {st : LuaState}

theorem Stands.over (h : Stands b m) (hr : m.raised = none) :
    Over b m.native m.st.callStack m.st.ci m.st.counters m.st.savedThreads := by
  obtain ⟨ci, -, hci, hover⟩ := h
  rw [← hci hr]
  exact hover

theorem Over.stands (h : Over b m.native m.st.callStack m.st.ci m.st.counters m.st.savedThreads) : Stands b m :=
  ⟨m.st.ci, le_rfl, fun _ => rfl, h⟩

/-- A site calls what is at `pos`. -/
theorem Stands.enter
    (h : Over b (.site pos wanted saved k :: m.native) m.st.callStack m.st.ci (k.count m.st.counters) m.st.savedThreads)
    (he : m.enter k pos wanted saved = some m') : Stands b m' := by
  have hcode : ∀ {st : LuaState} {res : CallResult} {f : ControlFrame}, f = .execute 1 ∨ f = .callee →
      (m.st.enterCount k).precall pos wanted = .ok (st, res) →
      Stands b { st, native := f :: .site pos wanted saved k :: m.native } := by
    intro st res f hf hcall
    have hpush := pushes_precall hcall
    have hsame := precall_sameRest hcall
    have hbelow := h.congr fun F hF hpre => hpush.prefix hpre hF
    refine Over.stands ?_
    dsimp only
    rw [hsame.counters_eq, hsame.savedThreads, hpush.1]
    rcases hf with rfl | rfl
    · exact .execute Nat.one_pos hbelow
    · exact .rust trivial hbelow
  rw [Control.enter] at he
  split_ifs at he
  · cases he
    exact Over.stands h
  · split at he
    · rename_i hcall
      cases he
      exact hcode (.inl rfl) hcall
    · rename_i hcall
      cases he
      exact hcode (.inr rfl) hcall
    · cases he
    · rename_i e _ _
      cases he
      obtain ⟨overflow, heq⟩ := precallFailed_eq (m.st.enterCount k) e
      rw [heq]
      exact Over.stands h

/-- Code goes on with its own frame changed at most. -/
theorem Stands.keep (h : Stands b m) (hr : m.raised = none) (hn : m.native = f :: ns) (hf : f.IsCode)
    {raised : Option InFlight} {openList : Bool} (hcore : SameCore m.st st)
    (hci : st.ci = m.st.ci) (hcs : ∀ F, F.length ≤ m.st.ci → F <+: m.st.callStack → F <+: st.callStack) :
    Stands b { m with st, raised, openList } := by
  have hover := h.over hr
  rw [hn] at hover
  refine Over.stands ?_
  dsimp only
  rw [hn, hci, hcore.counters_eq, hcore.savedThreads]
  exact hover.congr_code hf hcs

/-- Code calls a function from a site of its own. -/
theorem Stands.callSite (h : Stands b m) (hr : m.raised = none) (hn : m.native = f :: ns) (hf : f.IsCode)
    {openList : Bool} (hcore : SameCore m.st st) (hci : st.ci = m.st.ci)
    (hcs : ∀ F, F.length ≤ m.st.ci → F <+: m.st.callStack → F <+: st.callStack) (hk : ¬ k.IsResume)
    (hhost : ¬ k.IsHost) (hsaved : saved.ci = m.st.ci ∧ (⟨saved.nCcalls, saved.callDepth⟩ : Counters) = m.st.counters)
    (he : ({ m with st, openList } : Control).enter k pos wanted saved = some m') : Stands b m' := by
  have hover := h.over hr
  rw [hn] at hover
  refine Stands.enter ?_ he
  dsimp only
  rw [hn, hci, hcore.counters_eq, hcore.savedThreads]
  refine .site hk hhost hf hsaved.2 hsaved.1.le (fun _ => hsaved.1.symm) ?_
  rw [hsaved.1]
  exact hover.congr_code hf hcs

theorem Stands.callAtTop (h : Stands b m) (hr : m.raised = none) (hn : m.native = f :: ns) (hf : f.IsCode)
    (hk : ¬ k.IsResume) (hhost : ¬ k.IsHost) {vs : List Val}
    (he : m.callAtTop k vs wanted = some m') : Stands b m' := by
  have hpush := SameFrames.pushAll vs m.st
  rw [Control.callAtTop] at he
  refine h.callSite hr hn hf hpush.toSameCore hpush.ci (fun F _ hF => ?_) hk hhost ⟨rfl, rfl⟩ he
  rw [hpush.callStack]
  exact hF

/-- A hook is called. -/
theorem Stands.callHook (h : Stands b m) (hr : m.raised = none) (hn : m.native = f :: ns) (hf : f.IsCode)
    {vs : List Val} {savedCiTop : ℕ} {ret : Bool}
    (he : ({ m with st := m.st.setCiTop (m.st.top + luaMinStack) } : Control).callAtTop (.hook savedCiTop ret) vs
      (some 0) = some m') : Stands b m' := by
  have hset : SameRest m.st (m.st.setCiTop (m.st.top + luaMinStack)) := .of_heap rfl rfl
  refine Stands.callAtTop (m := { m with st := m.st.setCiTop (m.st.top + luaMinStack) }) (f := f) ?_ hr hn hf id id he
  exact h.keep hr hn hf hset.toSameCore rfl fun F hF hpre => prefix_modify _ hpre hF

/-! ### Instructions -/

theorem Stands.same (h : Stands b m) (hr : m.raised = none) (hn : m.native = f :: ns) (hf : f.IsCode)
    {raised : Option InFlight} {openList : Bool} (hsame : SameFrames m.st st) :
    Stands b { m with st, raised, openList } := by
  refine h.keep hr hn hf hsame.toSameCore hsame.ci fun F _ hpre => ?_
  rw [hsame.callStack]
  exact hpre

theorem Stands.commonStep (h : Stands b m) (hr : m.raised = none) (hn : m.native = f :: ns) (hf : f.IsCode)
    {op : ControlOp} (he : m.commonStep op = some m') : Stands b m' := by
  cases op with
  | write i v =>
    cases he
    exact h.same hr hn hf (.stackSet _ _ _)
  | heap g =>
    cases he
    exact Over.stands (h.over hr)
  | setUpval r v =>
    cases he
    exact h.same hr hn hf (setUpvalue_sameFrames m.st r v).1
  | fail =>
    cases he
    exact h.same hr hn hf (.refl m.st)
  | hook event line => exact h.callHook hr hn hf he
  | finalizer gcFn ud => exact h.callAtTop (k := .finalizer) hr hn hf id id he
  | _ => cases he

/-- A call instruction before the call. -/
theorem Stands.openCall {n : ℕ} (h : Stands b m) (hr : m.raised = none) (hn : m.native = .execute n :: ns)
    (pc a b₁ : ℕ) :
    Over b (.execute n :: ns) (m.st.openCall pc a b₁).callStack (m.st.openCall pc a b₁).ci
      (m.st.openCall pc a b₁).counters (m.st.openCall pc a b₁).savedThreads := by
  have hrest : SameRest m.st (m.st.openCall pc a b₁) := by
    rw [LuaState.openCall]
    split_ifs <;> exact .of_heap rfl rfl
  have hci : (m.st.openCall pc a b₁).ci = m.st.ci := by
    rw [LuaState.openCall]
    split_ifs <;> rfl
  have hopen : Stands b { m with st := m.st.openCall pc a b₁ } := by
    refine h.keep hr hn trivial hrest.toSameCore hci fun F hF hpre => ?_
    rw [LuaState.openCall]
    split_ifs <;> exact prefix_modify _ hpre hF
  rw [← hn]
  exact hopen.over hr

/-- A call instruction has pushed the frame of a native function. -/
theorem Over.callRust {s s' : LuaState} {n pos : ℕ} {wanted : Option ℕ} {res : CallResult}
    (h : Over b (.execute n :: ns) s.callStack s.ci s.counters s.savedThreads) (hf : f.IsRust)
    (hcall : s.precall pos wanted = .ok (s', res)) : Stands b { st := s', native := f :: .execute n :: ns } := by
  have hpush := pushes_precall hcall
  have hsame := precall_sameRest hcall
  refine Over.stands ?_
  dsimp only
  rw [hsame.counters_eq, hsame.savedThreads, hpush.1]
  exact .rust hf (h.congr fun F hF hpre => hpush.prefix hpre hF)

/-- A call instruction has failed. -/
theorem Over.callFailed {s : LuaState} {n : ℕ} (hn : m.native = .execute n :: ns)
    (h : Over b (.execute n :: ns) s.callStack s.ci s.counters s.savedThreads) (e : CallError) :
    Stands b { m with st := s.precallFailed e, raised := some .error } := by
  obtain ⟨overflow, heq⟩ := precallFailed_eq s e
  rw [heq]
  refine Over.stands ?_
  dsimp only
  rw [hn]
  exact h

theorem Stands.opCall {n pc a b₁ c : ℕ} (h : Stands b m) (hr : m.raised = none) (hn : m.native = .execute n :: ns)
    (he : m.opCall n ns pc a b₁ c = some m') : Stands b m' := by
  have hover := h.openCall hr hn pc a b₁
  obtain ⟨ci₀, hj, hci₀, hbelow⟩ := hover.of_execute
  rw [Control.opCall] at he
  split at he
  · rename_i hcall
    cases he
    have hpush := pushes_precall hcall
    have hsame := precall_sameRest hcall
    refine Over.stands ?_
    dsimp only
    rw [hsame.counters_eq, hsame.savedThreads, hpush.1, hci₀, Nat.add_assoc]
    exact .execute (Nat.succ_pos n) (hbelow.congr fun F hF hpre => hpush.prefix hpre (by omega))
  · rename_i hcall
    cases he
    exact hover.callRust trivial hcall
  · cases he
  · cases he
    exact hover.callFailed hn _

theorem Stands.opTailCall {n pc a b₁ : ℕ} (h : Stands b m) (hr : m.raised = none) (hn : m.native = .execute n :: ns)
    (he : m.opTailCall n ns pc a b₁ = some m') : Stands b m' := by
  have hover := h.openCall hr hn pc a b₁
  rw [Control.opTailCall] at he
  split at he
  · rename_i st _ hcall
    cases he
    have hpush := pushes_precall hcall
    have hsame := (precall_sameRest hcall).toSameCore
    have hclose := closeUpvalues_sameFrames st (st.callInfo (st.ci - 1)).base
    have hrep : SameRest (st.closeUpvalues (st.callInfo (st.ci - 1)).base)
        (st.closeUpvalues (st.callInfo (st.ci - 1)).base).replaceFrame := .of_heap rfl rfl
    have hcore := (hsame.trans hclose.toSameCore).trans hrep.toSameCore
    have hci : (st.closeUpvalues (st.callInfo (st.ci - 1)).base).ci - 1 = (m.st.openCall pc a b₁).ci := by
      rw [hclose.ci, hpush.1, Nat.add_sub_cancel]
    refine Over.stands ?_
    dsimp only
    rw [hcore.counters_eq, hcore.savedThreads]
    change Over b _ _ ((st.closeUpvalues (st.callInfo (st.ci - 1)).base).ci - 1) _ _
    rw [hci]
    refine hover.congr_code trivial fun F hF hpre => ?_
    refine prefix_modify _ ?_ (hF.trans hci.ge)
    rw [hclose.callStack]
    exact hpush.prefix hpre (by omega)
  · rename_i hcall
    cases he
    exact hover.callRust trivial hcall
  · cases he
  · cases he
    exact hover.callFailed hn _

/-! ### Returns -/

theorem Over.restoreTop {s : LuaState} (h : Over b ns s.callStack s.ci s.counters s.savedThreads) (p : Prop)
    [Decidable p] :
    Over b ns (if p then s.restoreTop else s).callStack (if p then s.restoreTop else s).ci
      (if p then s.restoreTop else s).counters (if p then s.restoreTop else s).savedThreads := by
  split_ifs
  · exact h
  · exact h

theorem Stands.opReturn {n : ℕ} (h : Stands b m) (hr : m.raised = none) (hn : m.native = .execute n :: ns)
    (a b₁ : ℕ) : Stands b (m.opReturn n ns a b₁) := by
  have hover := h.over hr
  rw [hn] at hover
  obtain ⟨ci₀, hj, hci₀, hbelow⟩ := hover.of_execute
  obtain ⟨hsame, -, -⟩ := openReturn_spec m.st a b₁
  obtain ⟨hci, hcs⟩ := poscall_frames (m.st.openReturn a b₁) (m.st.base + a)
  have hcore := hsame.toSameCore.trans (poscall_sameRest (m.st.openReturn a b₁) (m.st.base + a)).toSameCore
  have hpop : ∀ ns' ci', Over b ns' m.st.callStack ci' m.st.counters m.st.savedThreads → ci' = m.st.ci - 1 →
      Over b ns' ((m.st.openReturn a b₁).poscall (m.st.base + a)).1.callStack
        ((m.st.openReturn a b₁).poscall (m.st.base + a)).1.ci
        ((m.st.openReturn a b₁).poscall (m.st.base + a)).1.counters
        ((m.st.openReturn a b₁).poscall (m.st.base + a)).1.savedThreads := by
    rintro ns' ci' h' rfl
    rw [hci, hcs, hsame.ci, hsame.callStack, hcore.counters_eq, hcore.savedThreads]
    exact h'
  rw [Control.opReturn]
  split_ifs with hlast
  · exact Over.stands (hpop ns ci₀ hbelow (by omega))
  · have hexec := hpop (.execute (n - 1) :: ns) (ci₀ + (n - 1)) (.execute (by omega) hbelow) (by omega)
    exact Over.stands (hexec.restoreTop _)

theorem Stands.opReturnRust {n : ℕ} (h : Stands b m) (hr : m.raised = none) (hn : m.native = f :: ns) (hf : f.IsRust)
    (he : m.opReturnRust ns n f = some m') : Stands b m' := by
  have hover := h.over hr
  rw [hn] at hover
  obtain ⟨ci₀, hci₀, hbelow⟩ := hover.of_rust hf
  obtain ⟨hci, hcs⟩ := poscall_frames m.st (m.st.top - n)
  have hcore := (poscall_sameRest m.st (m.st.top - n)).toSameCore
  have hpop : Over b ns (m.st.poscall (m.st.top - n)).1.callStack (m.st.poscall (m.st.top - n)).1.ci
      (m.st.poscall (m.st.top - n)).1.counters (m.st.poscall (m.st.top - n)).1.savedThreads := by
    rw [hci, hcs, hcore.counters_eq, hcore.savedThreads, hci₀, Nat.add_sub_cancel]
    exact hbelow
  cases f with
  | opCall c =>
    rw [Control.opReturnRust] at he
    cases he
    exact Over.stands (hpop.restoreTop _)
  | opTailCall =>
    cases he
    exact Over.stands hpop
  | callee =>
    cases he
    exact Over.stands hpop
  | execute => exact hf.elim
  | site => exact hf.elim

/-! ### Steps of code -/

theorem Stands.luaStep {n : ℕ} (h : Stands b m) (hr : m.raised = none) (hn : m.native = .execute n :: ns)
    {op : ControlOp} (he : m.luaStep n ns op = some m') : Stands b m' := by
  unfold Control.luaStep at he
  cases op with
  | call pc a b₁ c => exact h.opCall hr hn he
  | tailCall pc a b₁ => exact h.opTailCall hr hn he
  | ret a b₁ =>
    cases he
    exact h.opReturn hr hn a b₁
  | varArg a b₁ =>
    obtain ⟨proto, -, rfl⟩ := Option.map_eq_some_iff.mp he
    exact h.same hr hn trivial (opVarArg_spec m.st proto a b₁).1
  | setList b₁ =>
    cases he
    refine h.same hr hn trivial ?_
    split_ifs
    · exact .restoreTop m.st
    · exact .refl m.st
  | tforloop pc a c =>
    have hrest : SameRest m.st (m.st.openIterator pc (m.st.base + a)) := .of_heap rfl rfl
    exact h.callSite (k := .tforloop (m.st.base + a)) hr hn trivial hrest.toSameCore rfl
      (fun F hF hpre => prefix_modify _ hpre hF) id id ⟨rfl, rfl⟩ he
  | capture a =>
    obtain ⟨⟨st, r⟩, hfind, rfl⟩ := Option.map_eq_some_iff.mp he
    exact h.same hr hn trivial (findUpvalue_sameFrames hfind).1
  | close a =>
    cases he
    exact h.same hr hn trivial (closeUpvalues_sameFrames m.st (m.st.base + a))
  | tmRes tm arg1 arg2 resultReg => exact h.callAtTop (k := .tmRes resultReg) hr hn trivial id id he
  | tmVoid tm arg1 arg2 arg3 => exact h.callAtTop (k := .tmVoid) hr hn trivial id id he
  | orderTm tm lhs rhs => exact h.callAtTop (k := .orderTm) hr hn trivial id id he
  | returnHook instr event =>
    cases instr with
    | none => exact h.commonStep hr hn trivial he
    | some x =>
      obtain ⟨a, b₁⟩ := x
      have hopen : Stands b { m with st := m.st.openReturn a b₁, openList := true } :=
        h.same hr hn trivial (openReturn_spec m.st a b₁).1
      exact hopen.callHook hr hn trivial he
  | _ => exact h.commonStep hr hn trivial he

theorem Stands.auxresume (h : Stands b m) (hr : m.raised = none) (hn : m.native = f :: ns) (hf : f.IsCode)
    {co : GcRef .thread} {args : List Val} {wrap : Bool}
    (he : m.auxresume co args wrap = some m') : Stands b m' := by
  have hnot : ∀ {m₁}, some (if wrap then m.raise else m) = some m₁ → Stands b m₁ := by
    intro m₁ hm
    cases hm
    split_ifs
    · exact h.same hr hn hf (.refl m.st)
    · exact h
  rw [Control.auxresume] at he
  cases hget : m.st.gc.heap.get co with
  | none =>
    rw [hget] at he
    exact hnot he
  | some t =>
    rw [hget] at he
    obtain ⟨-, ⟨resumer, hfields, -, hsaved⟩, -, -⟩ := swapIn_spec hget
    have hwaits : Over b m.native resumer.callStack resumer.ci ⟨resumer.nCcalls, resumer.callDepth⟩
        m.st.savedThreads := by
      rw [hfields]
      exact h.over hr
    have hresume : ∀ {k : Site} {pos : ℕ} {wanted : Option ℕ} {saved : SavedCall} (cs : List CallInfo) (ci : ℕ)
        (n : Counters), k.IsResume →
        Over b (.site pos wanted saved k :: m.native) cs ci n (m.st.swapIn co).savedThreads := by
      intro k pos wanted saved cs ci n hk
      rw [hsaved, hn]
      exact .resume hk hf (hn ▸ hwaits)
    dsimp only at he
    cases hstatus : (t : LuaThread).status with
    | initial =>
      rw [hstatus] at he
      refine Stands.enter ?_ he
      dsimp only
      rw [(SameFrames.pushAll args (m.st.swapIn co)).savedThreads]
      exact hresume _ _ _ trivial
    | suspended =>
      rw [hstatus] at he
      simp only [Option.some.injEq] at he
      subst he
      have hfinish : ((m.st.swapIn co).finishYield args).1.savedThreads = (m.st.swapIn co).savedThreads := by
        have hpop := poscall_sameRest { m.st.swapIn co with
          stack := putAll .nil (m.st.swapIn co).stack (m.st.swapIn co).base args
          top := (m.st.swapIn co).base + args.length } (m.st.swapIn co).base
        rw [finishYield]
        dsimp only
        split_ifs
        · exact hpop.savedThreads
        · exact hpop.savedThreads
      refine Over.stands ?_
      dsimp only
      rw [hfinish]
      exact hresume _ _ _ trivial
    | running | normal | dead =>
      rw [hstatus] at he
      exact hnot he

theorem Stands.rustStep (h : Stands b m) (hr : m.raised = none) (hn : m.native = f :: ns) (hf : f.IsRust)
    {op : ControlOp} (he : m.rustStep f ns op = some m') : Stands b m' := by
  have hsite : ∀ {st : LuaState} {k : Site} {pos : ℕ} {wanted : Option ℕ}, SameFrames m.st st → ¬ k.IsResume →
      ¬ k.IsHost → ({ m with st } : Control).enter k pos wanted m.save = some m' → Stands b m' := by
    intro st k pos wanted hsame hk hhost he
    refine h.callSite hr hn hf.isCode hsame.toSameCore hsame.ci (fun F _ hpre => ?_) hk hhost ⟨rfl, rfl⟩ he
    rw [hsame.callStack]
    exact hpre
  unfold Control.rustStep at he
  cases op with
  | push v =>
    cases he
    exact h.same hr hn hf.isCode (.push m.st v)
  | setTop n =>
    cases he
    exact h.same hr hn hf.isCode (.of_stack _ m.st.stack _)
  | callFunction i wanted =>
    dsimp only at he
    split_ifs at he
    exact hsite (k := .callFunction) (.refl m.st) id id he
  | pcall =>
    dsimp only at he
    split_ifs at he
    · exact hsite (k := .pcall) (.refl m.st) id id he
    · cases he
      exact h.same hr hn hf.isCode (.refl m.st)
  | xpcall =>
    dsimp only at he
    split_ifs at he
    · exact hsite (k := .xpcall) (.of_stack _ _ _) id id he
    · cases he
      exact h.same hr hn hf.isCode (.refl m.st)
  | reader recovers func => exact h.callAtTop (k := .reader recovers) hr hn hf.isCode id id he
  | secureRange callback args => exact h.callAtTop (k := .secureRange) hr hn hf.isCode id id he
  | create func =>
    obtain ⟨⟨gc, r⟩, -, rfl⟩ := Option.map_eq_some_iff.mp he
    exact Over.stands (h.over hr)
  | resume co args wrap => exact h.auxresume hr hn hf.isCode he
  | yield =>
    dsimp only at he
    split_ifs at he
    · cases he
      exact h.same hr hn hf.isCode (.refl m.st)
    · cases he
      exact h.same hr hn hf.isCode (.refl m.st)
  | retRust n => exact h.opReturnRust hr hn hf he
  | returnHook instr event =>
    cases instr with
    | none => exact h.callHook hr hn hf.isCode he
    | some x => exact h.commonStep hr hn hf.isCode he
  | _ => exact h.commonStep hr hn hf.isCode he

/-! ### Sites -/

theorem Stands.leaveCoroutine (h : Stands b m) (hn : m.native = .site pos wanted saved k :: ns)
    (hlen : b.native.length ≤ ns.length) (hk : k.IsResume) {co : GcRef .thread} {caller : Option (GcRef .thread)}
    {status : ThreadStatus} {raised : Option InFlight} (he : m.leaveCoroutine ns co caller status raised = some m') :
    Stands b m' := by
  obtain ⟨ci, -, -, hover⟩ := h
  rw [hn] at hover
  obtain ⟨t, ts, -, -, hts, -, -, hbelow⟩ := hover.of_resume hlen hk
  obtain ⟨st, hout, rfl⟩ := Option.map_eq_some_iff.mp he
  obtain ⟨resumer, ts', hsaved, hruns, hts', -, -⟩ := swapOut_spec hout
  obtain ⟨rfl, rfl⟩ := List.cons.inj (hts.symm.trans hsaved)
  refine Over.stands ?_
  dsimp only
  rw [hruns.callStack, hruns.ci, hts', counters, hruns.nCcalls, hruns.callDepth]
  exact hbelow

/-- What is below a site that is not a coroutine's. -/
theorem Stands.below_site (h : Stands b m) (hn : m.native = .site pos wanted saved k :: ns)
    (hlen : b.native.length ≤ ns.length) (hk : ¬ k.IsResume) :
    ¬ k.IsHost ∧ saved.ci ≤ m.st.ci ∧ (m.raised = none → ¬ k.IsHandler → m.st.ci = saved.ci) ∧
      (m.st.leaveCount k).counters = ⟨saved.nCcalls, saved.callDepth⟩ ∧
      (∃ f ns', ns = f :: ns' ∧ f.IsCode) ∧
      Over b ns m.st.callStack saved.ci ⟨saved.nCcalls, saved.callDepth⟩ m.st.savedThreads := by
  obtain ⟨ci, hle, hci, hover⟩ := h
  rw [hn] at hover
  obtain ⟨hhost, ⟨f, ns', hns, hf⟩, hsame, hle', hcount, hbelow⟩ := hover.of_site hlen hk
  refine ⟨hhost, hle'.trans hle, fun hr hh => ?_, (leaveCount_counters hcount).1, ⟨f, ns', hns, hf⟩, hbelow⟩
  rw [← hci hr, hsame hh]

/-- Code goes on below a site, in the frame of the site. -/
theorem Over.goOn {n : Counters} {ts : List LuaThread} {cs : List CallInfo} {ci : ℕ} (h : Over b ns cs ci n ts)
    {s : LuaState} (hcs : s.callStack = cs) (hci : s.ci = ci) (hcount : s.counters = n)
    (hts : s.savedThreads = ts) (raised : Option InFlight) (openList : Bool) :
    Stands b { st := s, native := ns, raised, openList } := by
  subst hcs hci hcount hts
  exact Over.stands h

/-- An error goes on below a site, with the frames as they are. -/
theorem Over.passOn {n : Counters} {ts : List LuaThread} {cs : List CallInfo} {ci : ℕ} (h : Over b ns cs ci n ts)
    {s : LuaState} (hcs : s.callStack = cs) (hci : ci ≤ s.ci) (hcount : s.counters = n)
    (hts : s.savedThreads = ts) (err : InFlight) (openList : Bool) :
    Stands b { st := s, native := ns, raised := some err, openList } := by
  subst hcs hcount hts
  exact ⟨ci, hci, by simp, h⟩

theorem restoreCall_frames (s : LuaState) (saved : SavedCall) :
    (s.restoreCall saved).callStack = s.callStack ∧ (s.restoreCall saved).ci = saved.ci ∧
      (s.restoreCall saved).counters = ⟨saved.nCcalls, saved.callDepth⟩ ∧
      (s.restoreCall saved).savedThreads = s.savedThreads :=
  ⟨rfl, rfl, rfl, rfl⟩

theorem Stands.siteDone (h : Stands b m) (hr : m.raised = none) (hn : m.native = .site pos wanted saved k :: ns)
    (hlen : b.native.length ≤ ns.length) (he : m.siteDone ns pos saved k = some m') : Stands b m' := by
  by_cases hk : k.IsResume
  · cases k with
    | resume co caller loops wrap =>
      simp only [Control.siteDone] at he
      split_ifs at he with hloop
      · cases he
        have hover := h.over hr
        rw [hn] at hover
        obtain ⟨t, ts, f, ns', hts, rfl, hf, hbelow⟩ := hover.of_resume hlen hk
        obtain ⟨ci, hci⟩ : ∃ ci, m.st.ci = ci + 1 := Nat.exists_eq_add_one.mpr hloop.2
        refine Over.stands ?_
        dsimp only
        rw [hn, hts, hci]
        exact .execute Nat.one_pos (.resume hk hf hbelow)
      · exact h.leaveCoroutine hn hlen hk he
    | _ => exact hk.elim
  · obtain ⟨hhost, -, hci, hcount, ⟨f, ns', rfl, hf⟩, hbelow⟩ := h.below_site hn hlen hk
    have hgo : ∀ {s : LuaState}, s.callStack = m.st.callStack → s.ci = saved.ci →
        s.counters = ⟨saved.nCcalls, saved.callDepth⟩ → s.savedThreads = m.st.savedThreads →
        Stands b { st := s, native := f :: ns', openList := saved.openList } :=
      fun hcs hci' hcount' hts => hbelow.goOn hcs hci' hcount' hts none _
    cases k with
    | tmRes | tmVoid | orderTm | finalizer | callFunction | pcall | xpcall | reader | secureRange =>
      cases he
      exact hgo rfl (hci hr id) hcount rfl
    | tforloop ra =>
      cases he
      have hset : ∀ (p : Prop) [Decidable p] (s : LuaState) (i : ℕ) (v : Val), s.callStack = m.st.callStack →
          s.ci = saved.ci → s.counters = ⟨saved.nCcalls, saved.callDepth⟩ → s.savedThreads = m.st.savedThreads →
          Stands b { st := if p then s else s.stackSet i v, native := f :: ns', openList := saved.openList } := by
        intro p _ s i v hcs hci' hcount' hts
        split_ifs
        · exact hgo hcs hci' hcount' hts
        · exact hgo (s := s.stackSet i v) hcs hci' hcount' hts
      exact hset _ (m.st.leaveCount (.tforloop ra)).restoreTop _ _ rfl (hci hr id) hcount rfl
    | hook savedCiTop ret =>
      cases he
      have hset := hbelow.congr_code hf fun F hF hpre =>
        prefix_modify (fun c => { c with top := savedCiTop }) hpre (hF.trans (hci hr id).ge)
      exact hset.goOn (s := { (m.st.leaveCount (.hook savedCiTop ret)).setCiTop savedCiTop with top := saved.top }) rfl
        (hci hr id) hcount rfl none _
    | handler funcPos =>
      cases he
      exact hgo rfl rfl rfl rfl
    | resume => exact absurd trivial hk
    | exec => exact absurd trivial hhost
    | hostCall => exact absurd trivial hhost

/-- An error that ends in a return hook or in a reader function of the lexer comes from the call itself. -/
theorem Stands.siteFailed (h : Stands b m) {err : InFlight} (hr : m.raised = some err)
    (hn : m.native = .site pos wanted saved k :: ns) (hlen : b.native.length ≤ ns.length) {v : Val}
    (hreg : m.Regular (fun _ _ => True) (.unwind v)) (he : m.siteFailed ns pos saved v err k = some m') :
    Stands b m' := by
  by_cases hk : k.IsResume
  · cases k with
    | resume co caller loops wrap =>
      cases err with
      | yield n => exact h.leaveCoroutine hn hlen hk he
      | error => exact h.leaveCoroutine hn hlen hk he
    | _ => exact hk.elim
  · obtain ⟨hhost, hle, -, hcount, ⟨f, ns', rfl, hf⟩, hbelow⟩ := h.below_site hn hlen hk
    have hgo : ∀ {s : LuaState} {raised : Option InFlight}, s.callStack = m.st.callStack → s.ci = saved.ci →
        s.counters = ⟨saved.nCcalls, saved.callDepth⟩ → s.savedThreads = m.st.savedThreads →
        Stands b { st := s, native := f :: ns', raised, openList := saved.openList } :=
      fun hcs hci' hcount' hts => hbelow.goOn hcs hci' hcount' hts _ _
    cases k with
    | tmRes | tmVoid | orderTm | callFunction | tforloop =>
      cases he
      exact hbelow.passOn (s := m.st.leaveCount _) rfl hle hcount rfl err _
    | hook savedCiTop ret =>
      have hset := hbelow.congr_code hf fun F hF hpre =>
        prefix_modify (fun c => { c with top := savedCiTop }) hpre (hF.trans hle)
      cases ret with
      | true =>
        cases he
        unfold Control.Regular at hreg
        rw [hr, hn] at hreg
        exact hset.goOn (s := { (m.st.leaveCount (.hook savedCiTop true)).setCiTop savedCiTop with top := saved.top })
          rfl hreg.1 hcount rfl none _
      | false =>
        cases he
        exact hset.passOn
          (s := { (m.st.leaveCount (.hook savedCiTop false)).setCiTop savedCiTop with top := saved.top }) rfl hle hcount rfl err _
    | finalizer =>
      cases he
      exact hgo rfl rfl hcount rfl
    | pcall =>
      cases he
      have hclose := closeUpvalues_sameFrames ((m.st.leaveCount .pcall).restoreCall saved) pos
      exact hgo hclose.callStack hclose.ci hclose.counters_eq hclose.savedThreads
    | xpcall =>
      rw [Control.siteFailed] at he
      have hclose := closeUpvalues_sameFrames (m.st.leaveCount .xpcall) (pos - 1)
      have hcount' := hclose.counters_eq.trans hcount
      refine Stands.enter ?_ he
      change Over b _ ((m.st.leaveCount .xpcall).closeUpvalues (pos - 1)).callStack
        ((m.st.leaveCount .xpcall).closeUpvalues (pos - 1)).ci
        ((Site.handler (pos - 1)).count ((m.st.leaveCount .xpcall).closeUpvalues (pos - 1)).counters)
        ((m.st.leaveCount .xpcall).closeUpvalues (pos - 1)).savedThreads
      rw [hclose.callStack, hclose.ci, hclose.savedThreads, hcount']
      exact .site id id hf rfl hle (fun hh => absurd trivial hh) hbelow
    | handler funcPos =>
      cases he
      exact hgo rfl rfl rfl rfl
    | reader recovers =>
      cases recovers with
      | true =>
        cases he
        exact hgo rfl rfl rfl rfl
      | false =>
        cases he
        unfold Control.Regular at hreg
        rw [hr, hn] at hreg
        exact hgo rfl hreg.1 hcount rfl
    | secureRange =>
      cases he
      have hclose := closeUpvalues_sameFrames
        { (m.st.leaveCount .secureRange).restoreCall saved with base := saved.base } pos
      exact hgo hclose.callStack hclose.ci hclose.counters_eq hclose.savedThreads
    | resume => exact absurd trivial hk
    | exec => exact absurd trivial hhost
    | hostCall => exact absurd trivial hhost

/-! ### The way back -/

theorem length_native_enter (h : m.enter k pos wanted saved = some m') : m.native.length < m'.native.length := by
  rw [Control.enter] at h
  split_ifs at h
  · cases h
    exact Nat.lt_succ_self _
  · split at h
    · cases h
      exact Nat.lt_succ_of_lt (Nat.lt_succ_self _)
    · cases h
      exact Nat.lt_succ_of_lt (Nat.lt_succ_self _)
    · cases h
    · cases h
      exact Nat.lt_succ_self _

theorem length_native_commonStep {op : ControlOp} (h : m.commonStep op = some m') :
    m.native.length ≤ m'.native.length := by
  cases op with
  | write | heap | setUpval | fail =>
    cases h
    exact le_rfl
  | hook | finalizer => exact (length_native_enter h).le
  | _ => cases h

/-- An instruction other than `RETURN` takes nothing off the native stack. -/
theorem length_native_luaStep {n : ℕ} (hn : m.native = .execute n :: ns) {op : ControlOp}
    (hop : ∀ a b, op ≠ .ret a b) (h : m.luaStep n ns op = some m') : m.native.length ≤ m'.native.length := by
  have hlen : m.native.length = ns.length + 1 := by rw [hn, List.length_cons]
  unfold Control.luaStep at h
  cases op with
  | call | tailCall =>
    simp only [Control.opCall, Control.opTailCall] at h
    split at h
    · cases h
      exact hlen.le
    · cases h
      exact hlen.le.trans (Nat.le_succ _)
    · cases h
    · cases h
      exact le_rfl
  | ret a b => exact absurd rfl (hop a b)
  | varArg | capture =>
    obtain ⟨_, -, rfl⟩ := Option.map_eq_some_iff.mp h
    exact le_rfl
  | setList | close =>
    cases h
    exact le_rfl
  | tforloop | tmRes | tmVoid | orderTm => exact (length_native_enter h).le
  | returnHook instr event =>
    cases instr with
    | none => exact length_native_commonStep h
    | some x => exact (length_native_enter h).le
  | _ => exact length_native_commonStep h

/-- A native function that does not return takes nothing off the native stack. -/
theorem length_native_rustStep {op : ControlOp} (hop : ∀ n, op ≠ .retRust n) (h : m.rustStep f ns op = some m') :
    m.native.length ≤ m'.native.length := by
  have hraise : ∀ {p : Prop} [Decidable p] {m₁}, some (if p then m.raise else m) = some m₁ →
      m.native.length ≤ m₁.native.length := by
    intro p _ m₁ h₁
    cases h₁
    split_ifs <;> exact le_rfl
  unfold Control.rustStep at h
  cases op with
  | push | setTop =>
    cases h
    exact le_rfl
  | callFunction =>
    dsimp only at h
    split_ifs at h
    exact (length_native_enter h).le
  | pcall | xpcall =>
    dsimp only at h
    split_ifs at h
    · exact (length_native_enter h).le
    · cases h
      exact le_rfl
  | reader | secureRange => exact (length_native_enter h).le
  | create =>
    obtain ⟨_, -, rfl⟩ := Option.map_eq_some_iff.mp h
    exact le_rfl
  | resume co args wrap =>
    dsimp only [Control.auxresume] at h
    split at h
    · exact hraise h
    · split at h
      · exact (length_native_enter h).le
      · cases h
        exact Nat.le_succ _
      all_goals exact hraise h
  | yield =>
    dsimp only at h
    split_ifs at h
    · cases h
      exact le_rfl
    · cases h
      exact le_rfl
  | retRust n => exact absurd rfl (hop n)
  | returnHook instr event =>
    cases instr with
    | none => exact (length_native_enter h).le
    | some x => exact length_native_commonStep h
  | _ => exact length_native_commonStep h

theorem native_leaveCoroutine {co : GcRef .thread} {caller : Option (GcRef .thread)} {status : ThreadStatus}
    {raised : Option InFlight} (h : m.leaveCoroutine ns co caller status raised = some m') : m'.native = ns := by
  obtain ⟨st, -, rfl⟩ := Option.map_eq_some_iff.mp h
  rfl

theorem native_siteDone (h : m.siteDone ns pos saved k = some m') :
    m'.native = ns ∨ m'.native = .execute 1 :: m.native := by
  cases k with
  | resume co caller loops wrap =>
    simp only [Control.siteDone] at h
    split_ifs at h
    · cases h
      exact .inr rfl
    · exact .inl (native_leaveCoroutine h)
  | _ =>
    cases h
    exact .inl rfl

theorem native_siteFailed {v : Val} {err : InFlight} (h : m.siteFailed ns pos saved v err k = some m') :
    m'.native = ns ∨ ns.length < m'.native.length := by
  cases k with
  | resume co caller loops wrap =>
    cases err with
    | yield n => exact .inl (native_leaveCoroutine h)
    | error => exact .inl (native_leaveCoroutine h)
  | xpcall => exact .inr (length_native_enter h)
  | _ =>
    cases h
    exact .inl rfl

/-- A return leaves the base of the frame that goes on. -/
theorem base_poscall (s : LuaState) (first : ℕ) :
    (s.poscall first).1.base = ((s.poscall first).1.callInfo (s.poscall first).1.ci).base := by
  rw [poscall]
  split <;> rfl

theorem base_opReturnRust {n : ℕ} (h : m.opReturnRust ns n f = some m') :
    m'.raised = none ∧ m'.st.base = (m'.st.callInfo m'.st.ci).base := by
  have hpop := base_poscall m.st (m.st.top - n)
  cases f with
  | opCall c =>
    have hres : ∀ (p : Prop) [Decidable p] (s : LuaState), s.base = (s.callInfo s.ci).base →
        (if p then s.restoreTop else s).base =
          ((if p then s.restoreTop else s).callInfo (if p then s.restoreTop else s).ci).base := by
      intro p _ s hs
      split_ifs
      · exact hs
      · exact hs
    rw [Control.opReturnRust] at h
    cases h
    exact ⟨rfl, hres _ _ hpop⟩
  | opTailCall | callee =>
    cases h
    exact ⟨rfl, hpop⟩
  | _ => cases h

/-- What is below a site is code. -/
theorem Stands.code_below (h : Stands b m) (hn : m.native = .site pos wanted saved k :: ns)
    (hlen : b.native.length ≤ ns.length) : ns ≠ b.native := by
  obtain ⟨f, ns', rfl, hf⟩ : ∃ f ns', ns = f :: ns' ∧ f.IsCode := by
    by_cases hk : k.IsResume
    · obtain ⟨ci, -, -, hover⟩ := h
      rw [hn] at hover
      obtain ⟨-, -, f, ns', -, hns, hf, -⟩ := hover.of_resume hlen hk
      exact ⟨f, ns', hns, hf⟩
    · obtain ⟨-, -, -, -, hcode, -⟩ := h.below_site hn hlen hk
      exact hcode
  intro heq
  exact b.atSite f (by simp [← heq]) hf

/-- A site is come back to by a return, or by an error that leaves a frame behind. -/
theorem Stands.to_floor {op : ControlOp} (h : Stands b m) (habove : b.native.length < m.native.length)
    (he : m.step op = some m') (hn' : m'.native = b.native) :
    m'.raised = none ∧ m'.st.base = (m'.st.callInfo m'.st.ci).base ∨ m'.raised ≠ none ∧ b.ci < m'.st.ci := by
  have hshort : ¬ m.native.length ≤ m'.native.length := by
    rw [hn']
    omega
  cases hn : m.native with
  | nil => simp [hn] at habove
  | cons f ns =>
    have hlen : b.native.length ≤ ns.length := by
      rw [hn, List.length_cons] at habove
      omega
    cases hr : m.raised with
    | some err =>
      cases op with
      | unwind v =>
        simp only [Control.step, hr, Control.unwind, hn] at he
        cases f with
        | site pos wanted saved k =>
          rcases native_siteFailed he with hns | hlong
          · exact absurd (hns.symm.trans hn') (h.code_below hn hlen)
          · rw [hn'] at hlong
            omega
        | execute | opCall | opTailCall | callee =>
          cases he
          obtain ⟨ci, hle, -, hover⟩ := h
          rw [hn] at hover
          obtain ⟨ci₀, hlt, hbelow⟩ := hover.of_code trivial
          dsimp only at hn'
          rw [hn'] at hbelow
          obtain ⟨-, rfl, -, -⟩ := hbelow.at_floor
          exact .inr ⟨by simp, hlt.trans_le hle⟩
      | _ => simp [Control.step, hr] at he
    | none =>
      have hback : m.rustStep f ns op = some m' → m'.raised = none ∧ m'.st.base = (m'.st.callInfo m'.st.ci).base ∨
          m'.raised ≠ none ∧ b.ci < m'.st.ci := by
        intro hrust
        cases op with
        | retRust n => exact .inl (base_opReturnRust hrust)
        | _ => exact absurd (length_native_rustStep (by simp) hrust) hshort
      cases f with
      | site pos wanted saved k =>
        cases op with
        | done =>
          simp only [Control.step, hr, hn] at he
          rcases native_siteDone he with hns | hexec
          · exact absurd (hns.symm.trans hn') (h.code_below hn hlen)
          · rw [hexec] at hshort
            exact absurd (Nat.le_succ _) hshort
        | _ => simp [Control.step, hr, hn] at he
      | execute n =>
        have hlua : m.luaStep n ns op = some m' := by simpa [Control.step, hr, hn] using he
        cases op with
        | ret a b₁ =>
          cases hlua
          rw [Control.opReturn] at hn' ⊢
          split_ifs at hn' ⊢
          · exact .inl ⟨rfl, base_poscall _ _⟩
          · exact absurd trivial (b.atSite (.execute (n - 1)) (by simp [← hn']))
        | _ => exact absurd (length_native_luaStep hn (by simp) hlua) hshort
      | opCall c =>
        have hrust : m.rustStep (.opCall c) ns op = some m' := by simpa [Control.step, hr, hn] using he
        exact hback hrust
      | opTailCall =>
        have hrust : m.rustStep .opTailCall ns op = some m' := by simpa [Control.step, hr, hn] using he
        exact hback hrust
      | callee =>
        have hrust : m.rustStep .callee ns op = some m' := by simpa [Control.step, hr, hn] using he
        exact hback hrust

/-! ### Steps and runs -/

/-- What a site has called leaves the frames below alone as long as it is in progress. -/
theorem Stands.step {op : ControlOp} (h : Stands b m) (habove : b.native.length < m.native.length)
    (hreg : m.Regular (fun _ _ => True) op) (he : m.step op = some m') : Stands b m' := by
  cases hn : m.native with
  | nil => simp [hn] at habove
  | cons f ns =>
    rw [hn, List.length_cons] at habove
    have hlen : b.native.length ≤ ns.length := Nat.le_of_lt_succ habove
    cases hr : m.raised with
    | some err =>
      cases op with
      | unwind v =>
        simp only [Control.step, hr, Control.unwind, hn] at he
        have hcode : f.IsCode → Stands b { m with native := ns } := by
          intro hf
          obtain ⟨ci, hle, -, hover⟩ := h
          rw [hn] at hover
          obtain ⟨ci₀, hlt, hbelow⟩ := hover.of_code hf
          exact ⟨ci₀, hlt.le.trans hle, by simp [hr], hbelow⟩
        cases f with
        | site pos wanted saved k => exact h.siteFailed hr hn hlen hreg he
        | execute | opCall | opTailCall | callee =>
          cases he
          have hbelow := hcode trivial
          rw [hr] at hbelow
          exact hbelow
      | _ => simp [Control.step, hr] at he
    | none =>
      cases f with
      | site pos wanted saved k =>
        cases op with
        | done =>
          simp only [Control.step, hr, hn] at he
          exact h.siteDone hr hn hlen he
        | _ => simp [Control.step, hr, hn] at he
      | execute n =>
        have hlua : m.luaStep n ns op = some m' := by simpa [Control.step, hr, hn] using he
        exact h.luaStep hr hn hlua
      | opCall c =>
        have hrust : m.rustStep (.opCall c) ns op = some m' := by simpa [Control.step, hr, hn] using he
        exact h.rustStep hr hn trivial hrust
      | opTailCall =>
        have hrust : m.rustStep .opTailCall ns op = some m' := by simpa [Control.step, hr, hn] using he
        exact h.rustStep hr hn trivial hrust
      | callee =>
        have hrust : m.rustStep .callee ns op = some m' := by simpa [Control.step, hr, hn] using he
        exact h.rustStep hr hn trivial hrust

end Stands

/-- The function that `site` on top of `ns` has called runs from `m` to `m'`, where it has come back to the site. -/
def CalledRun (ok : Control → ControlOp → Prop) (site : ControlFrame) (ns : List ControlFrame) (m : Control)
    (ops : List ControlOp) (m' : Control) : Prop :=
  Run Control.step (fun m op => ok m op ∧ ∃ f fs, m.native = f :: fs ++ site :: ns) m ops m' ∧ m'.native = site :: ns

section CalledRun

variable {ok : Control → ControlOp → Prop} {m m₁ m₂ : Control} {site : ControlFrame} {ops : List ControlOp} {k : Site}
  {pos : ℕ} {wanted : Option ℕ} {saved : SavedCall}

/-- A site has pushed itself, and the code it has called unless that has failed. -/
theorem native_enter (h : m.enter k pos wanted saved = some m₁) :
    m₁.raised = some .error ∧ m₁.native = .site pos wanted saved k :: m.native ∧
        (m₁.st.ci = m.st.ci ∧ m₁.st.base = m.st.base ∧ m₁.st.top = m.st.top) ∨
      ∃ f, m₁.native = f :: .site pos wanted saved k :: m.native := by
  rw [Control.enter] at h
  split_ifs at h
  · cases h
    exact .inl ⟨rfl, rfl, rfl, rfl, rfl⟩
  · split at h
    · cases h
      exact .inr ⟨_, rfl⟩
    · cases h
      exact .inr ⟨_, rfl⟩
    · cases h
    · rename_i e _ _
      cases h
      obtain ⟨overflow, heq⟩ := precallFailed_eq (m.st.enterCount k) e
      rw [heq]
      exact .inl ⟨rfl, rfl, rfl, rfl, rfl⟩

/-- The site is the one that was pushed. -/
theorem CalledRun.site_eq {ns : List ControlFrame} (hrun : CalledRun ok site ns m₁ ops m₂)
    (he : m.enter k pos wanted saved = some m₁) (hns : m.native = ns) : site = .site pos wanted saved k := by
  subst hns
  obtain ⟨hrun, hn₂⟩ := hrun
  cases hrun with
  | nil =>
    rcases native_enter he with ⟨-, hn₁, -⟩ | ⟨f, hn₁⟩
    · exact (List.cons.inj (hn₂.symm.trans hn₁)).1
    · have hlen := congrArg List.length (hn₁.symm.trans hn₂)
      simp at hlen
  | cons hok _ _ =>
    obtain ⟨-, f, fs, hn₁⟩ := hok
    rcases native_enter he with ⟨-, hsite, -⟩ | ⟨g, hsite⟩
    · have hlen := congrArg List.length (hsite.symm.trans hn₁)
      simp only [List.cons_append, List.length_cons, List.length_append] at hlen
      omega
    · have heq := hsite.symm.trans hn₁
      have hlen := congrArg List.length heq
      simp only [List.cons_append, List.length_cons, List.length_append] at hlen
      obtain rfl : fs = [] := List.eq_nil_of_length_eq_zero (by omega)
      exact (List.cons.inj (List.cons.inj heq).2).1.symm

/-- What a site finds when its function has come back. -/
structure CameBack (k : Site) (s s' : LuaState) : Prop where
  frames : s.callStack.take (s.ci + 1) <+: s'.callStack
  ci_le : s.ci ≤ s'.ci
  counters_eq : s'.counters = k.count s.counters
  savedThreads : s'.savedThreads = s.savedThreads

/-- The function that a site has called comes back with the frames below unchanged. If it has returned, there are no
    others; after an error there are, unless the function was not entered. -/
theorem CalledRun.cameBack {ns : List ControlFrame}
    (hrun : CalledRun (fun m op => m.Regular (fun _ _ => True) op) site ns m₁ ops m₂)
    (he : m.enter k pos wanted saved = some m₁) (hns : m.native = ns) :
    CameBack k m.st m₂.st ∧
      (m₂.raised = none → m₂.st.ci = m.st.ci ∧ m₂.st.base = (m₂.st.callInfo m₂.st.ci).base) ∧
      (m₂.raised ≠ none →
        if ops = [] then m₂.st.ci = m.st.ci ∧ m₂.st.base = m.st.base ∧ m₂.st.top = m.st.top
        else m.st.ci < m₂.st.ci) := by
  obtain rfl := hrun.site_eq he hns
  subst hns
  obtain ⟨hrun, hn₂⟩ := hrun
  let b : Floor :=
    { native := .site pos wanted saved k :: m.native
      atSite := fun f hf => by
        obtain rfl : ControlFrame.site pos wanted saved k = f := by simpa using hf
        exact id
      frames := m.st.callStack.take (m.st.ci + 1)
      ci := m.st.ci
      counters := k.count m.st.counters
      threads := m.st.savedThreads
      length_le := List.length_take_le _ _ }
  have hfloor : Over b (.site pos wanted saved k :: m.native) m.st.callStack m.st.ci (k.count m.st.counters)
      m.st.savedThreads := Over.floor (b := b) (List.take_prefix _ _)
  have hstart : Stands b m₁ := Stands.enter hfloor he
  have habove : ∀ {m' : Control} {f : ControlFrame} {fs : List ControlFrame},
      m'.native = f :: fs ++ .site pos wanted saved k :: m.native → b.native.length < m'.native.length := by
    intro m' f fs hn
    change (_ :: m.native).length < m'.native.length
    rw [hn]
    simp only [List.cons_append, List.length_cons, List.length_append]
    omega
  have hends : Stands b m₂ ∧ (m₁.native.length ≠ b.native.length → m₂.native = b.native →
      m₂.raised = none ∧ m₂.st.base = (m₂.st.callInfo m₂.st.ci).base ∨ m₂.raised ≠ none ∧ b.ci < m₂.st.ci) := by
    refine hrun.invariant (fun m' => Stands b m' ∧ (m₁.native.length ≠ b.native.length → m'.native = b.native →
      m'.raised = none ∧ m'.st.base = (m'.st.callInfo m'.st.ci).base ∨ m'.raised ≠ none ∧ b.ci < m'.st.ci))
      (fun m' op m'' h hok hstep => ?_) ⟨hstart, fun hne hn => absurd (congrArg List.length hn) hne⟩
    obtain ⟨hreg, f, fs, hn⟩ := hok
    exact ⟨h.1.step (habove hn) hreg hstep, fun _ hn' => h.1.to_floor (habove hn) hstep hn'⟩
  obtain ⟨⟨ci, hle, hci, hover⟩, hlast⟩ := hends
  rw [hn₂] at hover
  obtain ⟨hframes, rfl, hcount, hts⟩ := hover.at_floor
  refine ⟨⟨hframes, hle, hcount, hts⟩, ?_⟩
  cases hrun with
  | nil =>
    rcases native_enter he with ⟨hr, -, hsame⟩ | ⟨f, hn₁⟩
    · exact ⟨fun hnone => absurd (hr.symm.trans hnone) (by simp), fun _ => by simpa using hsame⟩
    · have hlen := congrArg List.length (hn₁.symm.trans hn₂)
      simp at hlen
  | cons hok _ _ =>
    obtain ⟨-, f, fs, hn₁⟩ := hok
    rcases hlast (habove hn₁).ne' hn₂ with ⟨hnone, hbase⟩ | ⟨hsome, hlt⟩
    · exact ⟨fun _ => ⟨(hci hnone).symm, hbase⟩, fun h => absurd hnone h⟩
    · exact ⟨fun h => absurd h hsome, fun _ => by simpa using hlt⟩

theorem CalledRun.site_of_callAtTop {ns : List ControlFrame} {vs : List Val} (hrun : CalledRun ok site ns m₁ ops m₂)
    (he : m.callAtTop k vs wanted = some m₁) (hns : m.native = ns) : site = .site m.st.top wanted m.save k :=
  hrun.site_eq (m := { m with st := m.st.pushAll vs }) he hns

theorem CalledRun.cameBack_of_callAtTop {ns : List ControlFrame} {vs : List Val}
    (hrun : CalledRun (fun m op => m.Regular (fun _ _ => True) op) site ns m₁ ops m₂)
    (he : m.callAtTop k vs wanted = some m₁) (hns : m.native = ns) :
    CameBack k m.st m₂.st ∧
      (m₂.raised = none → m₂.st.ci = m.st.ci ∧ m₂.st.base = (m₂.st.callInfo m₂.st.ci).base) ∧
      (m₂.raised ≠ none →
        if ops = [] then m₂.st.ci = m.st.ci ∧ m₂.st.base = m.st.base ∧ m₂.st.top = m.st.top + vs.length
        else m.st.ci < m₂.st.ci) := by
  have hpush := SameFrames.pushAll vs m.st
  obtain ⟨hback, hdone, hfailed⟩ := hrun.cameBack (m := { m with st := m.st.pushAll vs }) he hns
  obtain ⟨hframes, hle, hcount, hts⟩ := hback
  dsimp only at hframes hle hcount hts hdone hfailed
  rw [hpush.ci] at hframes hle hdone hfailed
  rw [hpush.base, top_pushAll] at hfailed
  rw [hpush.callStack] at hframes
  rw [hpush.counters_eq] at hcount
  rw [hpush.savedThreads] at hts
  exact ⟨⟨hframes, hle, hcount, hts⟩, hdone, hfailed⟩

end CalledRun

end Rilua.Vm
