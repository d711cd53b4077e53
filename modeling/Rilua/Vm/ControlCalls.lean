import Rilua.Vm.ControlInv

/-! Calls and returns keep the frames as the native stack has them. -/

namespace Rilua.Vm

open Lib Gc LuaState

variable {K : FrameSpec} {m m' : Control} {f : ControlFrame} {ns : List ControlFrame} {p : ℕ → Prop}

/-! ### What a call can do -/

/-- The state after `precall` failed. -/
def failedAt (s : LuaState) (overflow : Bool) : LuaState := { s with ciOverflow := s.ciOverflow || overflow }

theorem precallFailed_eq (s : LuaState) (e : CallError) : ∃ overflow, s.precallFailed e = failedAt s overflow := by
  cases e with
  | stackOverflow => exact ⟨true, by simp [precallFailed, failedAt]⟩
  | notCallable v => exact ⟨false, by simp [precallFailed, failedAt]⟩
  | invalidFunction => exact ⟨false, by simp [precallFailed, failedAt]⟩
  | exhausted => exact ⟨false, by simp [precallFailed, failedAt]⟩

/-- A call of the function at `pos` in the state `s`: it fails, or the frame of the function is pushed. -/
inductive CallOutcome (s : LuaState) (pos : ℕ) (wanted : Option ℕ) (failed lua rust : LuaState → Control) :
    Control → Prop
  | failed {s' : LuaState} {overflow : Bool} (h : s' = failedAt s overflow) :
      CallOutcome s pos wanted failed lua rust (failed s')
  | lua {s' : LuaState} {c : CallInfo} {cl : LuaClosure} (h : PushedFrame s s' pos wanted (.lua cl) c) :
      CallOutcome s pos wanted failed lua rust (lua s')
  | rust {s' : LuaState} {c : CallInfo} {cl : RustClosure} (h : PushedFrame s s' pos wanted (.rust cl) c) :
      CallOutcome s pos wanted failed lua rust (rust s')

/-- What follows from the outcome of `precall`. -/
theorem outcome_of_precall {s : LuaState} {pos : ℕ} {wanted : Option ℕ} (failed lua rust : LuaState → Control)
    (hpos : pos < s.top) (hci : s.ci < s.callStack.length)
    (h : (match s.precall pos wanted with
      | .ok (st, .lua _) => some (lua st)
      | .ok (st, .rust _) => some (rust st)
      | .error .exhausted => none
      | .error e => some (failed (s.precallFailed e))) = some m) :
    CallOutcome s pos wanted failed lua rust m := by
  split at h
  · rename_i hres
    cases h
    obtain ⟨c, hc⟩ := precall_pushedFrame hpos hci hres
    exact .lua hc
  · rename_i hres
    cases h
    obtain ⟨c, hc⟩ := precall_pushedFrame hpos hci hres
    exact .rust hc
  · cases h
  · rename_i e _ _
    cases h
    obtain ⟨overflow, heq⟩ := precallFailed_eq s e
    exact .failed heq

theorem enter_outcome {k : Site} {pos : ℕ} {wanted : Option ℕ} {saved : SavedCall} (hpos : pos < m.st.top)
    (hci : m.st.ci < m.st.callStack.length) (h : m.enter k pos wanted saved = some m') :
    CallOutcome (m.st.enterCount k) pos wanted
      (fun st => { m with st, native := .site pos wanted saved k :: m.native, raised := some .error })
      (fun st => { st, native := .execute 1 :: .site pos wanted saved k :: m.native })
      (fun st => { st, native := .callee :: .site pos wanted saved k :: m.native }) m' := by
  rw [Control.enter] at h
  split_ifs at h
  · cases h
    have heq : m.st.enterCount k = failedAt (m.st.enterCount k) false := by simp [failedAt]
    exact .failed heq
  · exact outcome_of_precall (s := m.st.enterCount k) _ _ _ hpos hci h

/-- A call keeps below the limit, unless a handler is in progress. -/
theorem Calm.pushedFrame {s s' : LuaState} {native native' : List ControlFrame} {pos : ℕ} {wanted : Option ℕ}
    {res : CallResult} {c : CallInfo} (h : Calm K s native) (hpush : PushedFrame s s' pos wanted res c)
    (hnative : HandlerIn native → HandlerIn native') : Calm K s' native' := by
  intro hK hover
  refine hnative (h hK (.inl ?_))
  rw [hpush.ciOverflow, hpush.ci_eq] at hover
  have hroom := hpush.room
  rw [overflows] at hroom
  cases hflag : s.ciOverflow with
  | true => rfl
  | false => simp_all

/-! ### Sites -/

/-- A site that has called a function. -/
theorem Framed.enter {k : Site} {pos : ℕ} {wanted : Option ℕ} {saved : SavedCall}
    (hci : m.st.ci < m.st.callStack.length)
    (hfits : Fits K (.site pos wanted saved k :: m.native) m.st.chain (k.count m.st.counters) m.st.savedThreads p)
    (hopen : OpenIn K m.st p) (hco : Coroutines K m.st)
    (hcalm : Calm K m.st (.site pos wanted saved k :: m.native)) (hpos : pos < m.st.top)
    (h : m.enter k pos wanted saved = some m') : Framed K m' := by
  have hco' : Coroutines K (m.st.enterCount k) := ⟨hco.parked, hco.cells⟩
  have hopen' : OpenIn K (m.st.enterCount k) p := hopen
  cases enter_outcome hpos hci h with
  | failed heq =>
    subst heq
    exact .of_error (p := p) rfl hci hpos.le [] rfl hfits (hopen.mono fun i => .inl) ⟨hco.parked, hco.cells⟩
  | @lua s' c cl hpush =>
    have hok : FrameOk pos c :=
      ⟨hpush.func_eq.ge, hpush.func_lt, hpush.func_eq ▸ hpush.func_lt.le.trans hpush.base_le_ciTop⟩
    have hfuncs : pos < c.base := hpush.func_eq ▸ hpush.func_lt
    have hbelow : Fits K (.site pos wanted saved k :: m.native) m.st.chain s'.counters s'.savedThreads p := by
      rw [hpush.counters_eq, hpush.savedThreads]
      exact hfits
    refine .of_none (p := fun i => (∃ f ∈ [c], f.base ≤ i) ∨ p i) rfl hpush.ci_lt (hfuncs.le.trans hpush.base_le_top) ?_
      ?_ (hco'.congr hpush.toSameCore) ?_ (fun _ => ⟨c, _, hpush.chain_eq, hpush.base_eq⟩) ?_ (by simp) (by simp)
    · change Fits K _ s'.chain s'.counters s'.savedThreads _
      rw [hpush.chain_eq]
      exact .execute [] rfl rfl (by simp) hok (fun _ => ⟨hpush.func_eq, hpush.wanted_eq⟩) (fun _ => Iff.rfl)
        hbelow
    · exact (hopen'.congr hpush.toSameOpen hpush.savedThreads).mono fun i => .inr
    · exact Calm.pushedFrame (s := m.st.enterCount k) hcalm hpush id
    · rintro - - c₁ hc₁
      dsimp only at hc₁ ⊢
      rw [hpush.chain_eq] at hc₁
      obtain rfl : c = c₁ := by simpa using hc₁
      rw [hpush.top_eq ⟨cl, rfl⟩]
      exact K.atTop_refl _
  | @rust s' c cl hpush =>
    have hok : FrameOk pos c :=
      ⟨hpush.func_eq.ge, hpush.func_lt, hpush.func_eq ▸ hpush.func_lt.le.trans hpush.base_le_ciTop⟩
    have hfuncs : pos < c.base := hpush.func_eq ▸ hpush.func_lt
    have hbelow : Fits K (.site pos wanted saved k :: m.native) m.st.chain s'.counters s'.savedThreads p := by
      rw [hpush.counters_eq, hpush.savedThreads]
      exact hfits
    refine .of_none (p := p) rfl hpush.ci_lt (hfuncs.le.trans hpush.base_le_top) ?_
      (hopen'.congr hpush.toSameOpen hpush.savedThreads) (hco'.congr hpush.toSameCore) ?_
      (fun _ => ⟨c, _, hpush.chain_eq, hpush.base_eq⟩) (by simp) (by simp) (by simp)
    · change Fits K _ s'.chain s'.counters s'.savedThreads _
      rw [hpush.chain_eq]
      exact .rust trivial (by simp) hok (fun _ _ => ⟨hpush.func_eq, hpush.wanted_eq⟩) hbelow
    · exact Calm.pushedFrame (s := m.st.enterCount k) hcalm hpush id

/-- The running code calls a function and waits for it. The frame of the code may have been changed before. -/
theorem Framed.callSite (h : Framed K m) (hr : m.raised = none) (hn : m.native = f :: ns) (hf : f.IsCode)
    (st : LuaState) {openList : Bool} {c c' : CallInfo} {cs : List CallInfo} (hchain : m.st.chain = c :: cs)
    (hcore : SameCore m.st st) (hsame : SameOpen m.st st) (hci : st.ci = m.st.ci) (hlen : st.ci < st.callStack.length)
    (hchain' : st.chain = c' :: cs) (hle : level ns ≤ c'.top) (hfunc : c'.func = c.func)
    (hwanted : c'.numResults = c.numResults) (hbase : c'.base = c.base) {k : Site} (hresume : ¬ k.IsResume)
    (hhost : ¬ k.IsHost) (hfrom : f.IsRust ∨ k.AtTop ∨ ∃ ra, k = .tforloop ra) {pos : ℕ} {wanted : Option ℕ}
    (hvoid : k.IsVoid → wanted = some 0) (hpos : level ns ≤ pos) (hfloor : level ns ≤ k.floor pos)
    (hlt : pos < st.top) (hciTop : ∀ t ∈ k.ciTop, level ns ≤ t) (saved : SavedCall)
    (hsaved : saved = { m.save with top := saved.top, openList }) (hsavedTop : level ns ≤ saved.top)
    (hposEq : k.AtTop → pos = saved.top)
    (hatTop : k.AtTop → openList = false → (∃ j, f = .execute j) → K.atTop (k.ciTop.getD c'.top) saved.top)
    (he : ({ m with st, openList } : Control).enter k pos wanted saved = some m') : Framed K m' := by
  obtain ⟨c₀, cs₀, p, hchain₀, hbase₀, hok, -, hfits, hopen⟩ := h.running hr hn hf
  obtain ⟨rfl, rfl⟩ := List.cons.inj (hchain.symm.trans hchain₀)
  have hok' : FrameOk (level ns) c' := ⟨hfunc ▸ hok.le_func, hfunc ▸ hbase ▸ hok.func_lt, hle⟩
  obtain ⟨q, hfits', hpq⟩ := hfits.setHead hf hok' hfunc hwanted
  have hlength := length_chain h.ci_lt
  rw [hchain, List.length_cons] at hlength
  have hcalm := h.calm (by simp [hr])
  have hsite : SiteOk K (f :: ns) pos wanted saved k (c' :: cs) m.st.counters := by
    rw [hsaved]
    refine ⟨hlength.symm, rfl, fun _ => ⟨c', cs, rfl, hbase₀.trans hbase.symm⟩, ?_, ?_, ?_, ?_, fun _ => ⟨f, ns, rfl, hf, hfrom⟩,
      fun hk => absurd hk hhost, hvoid, hposEq, ?_, ?_, fun _ hk => absurd hk hhost⟩
    · rw [level_cons hf]
      exact hpos
    · rw [level_cons hf]
      exact hfloor
    · rw [level_cons hf]
      exact hsavedTop
    · rw [level_cons hf]
      exact hciTop
    · rintro hk hlist ⟨j, ns', hn'⟩ c₁ hc₁
      obtain rfl : c' = c₁ := by simpa using hc₁
      exact hatTop hk hlist ⟨j, (List.cons.inj hn').1⟩
    · intro hK hlim
      rw [← hn]
      exact hcalm hK (.inr hlim)
  refine Framed.enter (p := q) hlen ?_ ?_ (h.coroutines.congr hcore) ?_ hlt he
  · change Fits K (_ :: m.native) st.chain (k.count st.counters) st.savedThreads q
    rw [hcore.counters_eq, hcore.savedThreads, hn, hchain']
    exact .site [] hresume rfl (fun _ => rfl) rfl hsite hfits'
  · exact (hopen.congr hsame hcore.savedThreads).mono fun i hi => hpq i hi (.inr hbase.le)
  · exact hcalm.congr hcore.ciOverflow hci.le fun hin => hin.site hresume

/-- A site that pushes what it calls. -/
theorem Framed.callAtTop (h : Framed K m) (hr : m.raised = none) (hn : m.native = f :: ns) (hf : f.IsCode) {k : Site}
    (hresume : ¬ k.IsResume) (hhost : ¬ k.IsHost) (hfrom : f.IsRust ∨ k.AtTop) (hfloor : k.floor m.st.top = m.st.top)
    (hciTop : k.ciTop = none) {v : Val} {vs : List Val} {wanted : Option ℕ} (hvoid : k.IsVoid → wanted = some 0)
    (he : m.callAtTop k (v :: vs) wanted = some m') : Framed K m' := by
  obtain ⟨c, cs, p, hchain, -, hok, -, -, -⟩ := h.running hr hn hf
  have hpush := SameFrames.pushAll (v :: vs) m.st
  have hlevel := h.level_le_top hn hf
  rw [Control.callAtTop] at he
  refine h.callSite hr hn hf (m.st.pushAll (v :: vs)) hchain hpush.toSameCore (.pushAll _ _) hpush.ci
    (hpush.ci_lt h.ci_lt) (hpush.chain_eq.trans hchain) hok.le_top rfl rfl rfl hresume hhost (hfrom.imp_right .inl) hvoid hlevel ?_ ?_
    (by simp [hciTop]) m.save rfl hlevel (fun _ => rfl) ?_ he
  · rw [hfloor]
    exact hlevel
  · rw [top_pushAll, List.length_cons]
    omega
  · rintro - hlist ⟨j, rfl⟩
    rw [hciTop]
    refine h.atTop hr hlist ⟨j, ns, hn⟩ c ?_
    simp [hchain]

/-! ### Calls of the interpreter loop -/

/-- The frame of an instruction after its program counter was saved. -/
theorem openCall_spec {s : LuaState} {c : CallInfo} {cs : List CallInfo} (hci : s.ci < s.callStack.length)
    (hchain : s.chain = c :: cs) (pc a b : ℕ) :
    SameRest s (s.openCall pc a b) ∧ (s.openCall pc a b).chain = { c with savedPc := pc } :: cs ∧
      (s.openCall pc a b).ci = s.ci ∧ (s.openCall pc a b).ci < (s.openCall pc a b).callStack.length ∧
      (s.openCall pc a b).top = (if b ≠ 0 then s.base + a + b else s.top) := by
  have hmodify : ∀ top, ({ s with top } : LuaState).chain = c :: cs := fun _ => hchain
  rw [openCall]
  split_ifs
  · refine ⟨.of_heap rfl rfl, chain_modifyCallInfo (s := { s with top := _ }) hci (hmodify _) _, rfl, ?_, rfl⟩
    change s.ci < (s.callStack.modify _ _).length
    rw [List.length_modify]
    exact hci
  · refine ⟨.of_heap rfl rfl, chain_modifyCallInfo hci hchain _, rfl, ?_, rfl⟩
    change s.ci < (s.callStack.modify _ _).length
    rw [List.length_modify]
    exact hci

/-- What `OP_CALL` and `TAILCALL` have before the call. -/
theorem Framed.openCall {n a b : ℕ} (h : Framed K m) (hr : m.raised = none) (hn : m.native = .execute n :: ns) (pc : ℕ)
    (hlist : b = 0 → m.st.base + a < m.st.top) :
    m.st.base + a < (m.st.openCall pc a b).top ∧
      (m.st.openCall pc a b).ci < (m.st.openCall pc a b).callStack.length ∧ level ns ≤ m.st.base + a ∧
      Coroutines K (m.st.openCall pc a b) ∧ Calm K (m.st.openCall pc a b) m.native ∧
      ∃ c cs q, (m.st.openCall pc a b).chain = c :: cs ∧ FrameOk (level ns) c ∧
        Fits K (.execute n :: ns) (c :: cs) (m.st.openCall pc a b).counters (m.st.openCall pc a b).savedThreads q ∧
        OpenIn K (m.st.openCall pc a b) q := by
  obtain ⟨c₀, cs, p, hchain, hbase, hok, -, hfits, hopen⟩ := h.running hr hn trivial
  obtain ⟨hrest, hchain', hci, hlen, htop⟩ := openCall_spec h.ci_lt hchain pc a b
  have hok' : FrameOk (level ns) { c₀ with savedPc := pc } := ⟨hok.le_func, hok.func_lt, hok.le_top⟩
  obtain ⟨q, hfits', hpq⟩ := hfits.setHead trivial hok' rfl rfl
  refine ⟨?_, hlen, ?_, h.coroutines.congr hrest.toSameCore, ?_, _, cs, q, hchain', hok', ?_, ?_⟩
  · rw [htop]
    split_ifs with hb
    · omega
    · exact hlist (not_not.mp hb)
  · have := hok.le_func
    have := hok.func_lt
    omega
  · exact (h.calm (by simp [hr])).congr hrest.ciOverflow hci.le id
  · rw [hrest.counters_eq, hrest.savedThreads]
    exact hfits'
  · exact (hopen.congr hrest.toSameOpen hrest.savedThreads).mono fun i hi => hpq i hi (.inr le_rfl)

/-- A call of the interpreter loop has failed. -/
theorem Framed.callFailed {s : LuaState} {n : ℕ} {overflow : Bool} (hn : m.native = .execute n :: ns)
    (hlen : s.ci < s.callStack.length) (hlevel : level ns ≤ s.top) (hco : Coroutines K s)
    (hfits : Fits K (.execute n :: ns) s.chain s.counters s.savedThreads p) (hopen : OpenIn K s p) :
    Framed K { m with st := failedAt s overflow, raised := some .error } := by
  refine .of_error (p := p) rfl hlen ?_ [] rfl ?_ (hopen.mono fun i => .inl) ⟨hco.parked, hco.cells⟩
  · rw [hn]
    exact hlevel
  · rw [hn]
    exact hfits

/-- A call of the interpreter loop has pushed the frame of a native function. -/
theorem Framed.callRust {s s' : LuaState} {n pos : ℕ} {wanted : Option ℕ} {cl : RustClosure} {c : CallInfo}
    (hlow : level ns ≤ pos) (hco : Coroutines K s) (hcalm : Calm K s (.execute n :: ns))
    (hfits : Fits K (.execute n :: ns) s.chain s.counters s.savedThreads p) (hopen : OpenIn K s p)
    (hpush : PushedFrame s s' pos wanted (.rust cl) c) (hf : f.IsRust) (hne : f ≠ .callee) :
    Framed K { st := s', native := f :: .execute n :: ns } := by
  have hfunc : level ns ≤ c.func := hpush.func_eq ▸ hlow
  have hlevel : level (f :: .execute n :: ns) = level ns := level_cons hf.isCode
  refine .of_none (p := p) rfl hpush.ci_lt ?_ ?_ (hopen.congr hpush.toSameOpen hpush.savedThreads)
    (hco.congr hpush.toSameCore) ?_ (fun _ => ⟨c, _, hpush.chain_eq, hpush.base_eq⟩) ?_ ?_ (by simp)
  · rw [hlevel]
    exact (hfunc.trans hpush.func_lt.le).trans hpush.base_le_top
  · change Fits K (f :: .execute n :: ns) s'.chain s'.counters s'.savedThreads p
    rw [hpush.chain_eq, hpush.counters_eq, hpush.savedThreads]
    exact .rust hf (fun _ => ⟨n, ns, rfl⟩)
      ⟨hfunc, hpush.func_lt, (hfunc.trans hpush.func_lt.le).trans hpush.base_le_ciTop⟩ (fun heq => absurd heq hne) hfits
  · exact hcalm.pushedFrame hpush (handlerIn_cons hf.isCode).mpr
  · rintro - ⟨k, ns', heq⟩
    obtain ⟨rfl, -⟩ := List.cons.inj heq
    exact hf.elim
  · intro pos saved k ns' heq
    obtain ⟨rfl, -⟩ := List.cons.inj heq
    exact hf.elim

/-- `OP_CALL`. -/
theorem Framed.opCall {n pc a b c : ℕ} (h : Framed K m) (hr : m.raised = none) (hn : m.native = .execute n :: ns)
    (hlist : b = 0 → m.st.base + a < m.st.top) (he : m.opCall n ns pc a b c = some m') : Framed K m' := by
  obtain ⟨hlt, hlen, hlevel, hco, hcalm, c₀, cs, q, hchain', -, hfits', hopen⟩ := h.openCall hr hn pc hlist
  rw [hn] at hcalm
  rw [← hchain'] at hfits'
  rw [Control.opCall] at he
  cases outcome_of_precall (s := m.st.openCall pc a b)
    (fun st => { m with st, raised := some .error }) (fun st => { st, native := .execute (n + 1) :: ns })
    (fun st => { st, native := .opCall c :: .execute n :: ns }) hlt hlen he with
  | failed heq =>
    subst heq
    exact .callFailed hn hlen (hlevel.trans hlt.le) hco hfits' hopen
  | @lua s' c' cl hpush =>
    have hlow : level ns ≤ c'.func := hpush.func_eq ▸ hlevel
    have hok : FrameOk (level ns) c' :=
      ⟨hlow, hpush.func_lt, (hlow.trans hpush.func_lt.le).trans hpush.base_le_ciTop⟩
    rw [hchain'] at hfits'
    cases hfits' with
    | @execute _ _ fs c₁ _ rest _ _ p₀ _ hcs hk hfs hc hcalled hq hbelow =>
      refine .of_none (p := fun i => (∃ f ∈ (c' :: fs) ++ [c₁], f.base ≤ i) ∨ p₀ i) rfl hpush.ci_lt ?_ ?_ ?_
        (hco.congr hpush.toSameCore) (hcalm.pushedFrame hpush id)
        (fun _ => ⟨c', _, hpush.chain_eq, hpush.base_eq⟩) ?_ (by simp) (by simp)
      · exact (hlow.trans hpush.func_lt.le).trans hpush.base_le_top
      · change Fits K (.execute (n + 1) :: ns) s'.chain s'.counters s'.savedThreads _
        rw [hpush.chain_eq, hpush.counters_eq, hpush.savedThreads, hchain']
        refine .execute (c' :: fs) (by rw [hcs]; rfl) (by rw [hk]; rfl) ?_ hc hcalled (fun _ => Iff.rfl) hbelow
        exact List.forall_mem_cons.mpr ⟨hok, hfs⟩
      · refine (hopen.congr hpush.toSameOpen hpush.savedThreads).mono fun i hi => ((hq i).mp hi).imp_left ?_
        rintro ⟨f, hf, hle⟩
        exact ⟨f, List.mem_cons_of_mem _ hf, hle⟩
      · rintro - - c₂ hc₂
        dsimp only at hc₂ ⊢
        rw [hpush.chain_eq] at hc₂
        obtain rfl : c' = c₂ := by simpa using hc₂
        rw [hpush.top_eq ⟨cl, rfl⟩]
        exact K.atTop_refl _
    | rust hf => exact hf.elim
  | rust hpush => exact .callRust hlevel hco hcalm hfits' hopen hpush trivial (by simp)

/-- `TAILCALL`. -/
theorem Framed.opTailCall {n pc a b : ℕ} (h : Framed K m) (hr : m.raised = none) (hn : m.native = .execute n :: ns)
    (hlist : b = 0 → m.st.base + a < m.st.top) (he : m.opTailCall n ns pc a b = some m') : Framed K m' := by
  obtain ⟨hlt, hlen, hlevel, hco, hcalm, c₀, cs, q, hchain', hok, hfits', hopen⟩ := h.openCall hr hn pc hlist
  rw [hn] at hcalm
  rw [Control.opTailCall] at he
  cases outcome_of_precall (s := m.st.openCall pc a b)
    (fun st => { m with st, raised := some .error })
    (fun st => { st := (st.closeUpvalues (st.callInfo (st.ci - 1)).base).replaceFrame, native := .execute n :: ns })
    (fun st => { st, native := .opTailCall :: .execute n :: ns }) hlt hlen he with
  | failed heq =>
    subst heq
    rw [← hchain'] at hfits'
    exact .callFailed hn hlen (hlevel.trans hlt.le) hco hfits' hopen
  | @lua s' c' cl hpush =>
    have hclose := closeUpvalues_sameFrames s' (s'.callInfo (s'.ci - 1)).base
    have hprev : s'.callInfo (s'.ci - 1) = c₀ := by
      obtain ⟨hpopped, hpop⟩ := chain_popCi hpush.ci_lt (hpush.chain_eq.trans (congrArg (c' :: ·) hchain'))
      exact callInfo_ci hpop hpopped
    obtain ⟨c₂, hrep⟩ := replaceFrame_replacedFrame (hclose.ci_lt hpush.ci_lt)
      (hclose.chain_eq.trans (hpush.chain_eq.trans (congrArg (c' :: ·) hchain'))) hpush.func_lt
      (by rw [top_closeUpvalues]; exact hpush.base_le_top)
    have hlow : level ns ≤ c₂.func := hrep.func_eq ▸ hok.le_func
    have hok₂ : FrameOk (level ns) c₂ :=
      ⟨hlow, hrep.func_lt, (hlow.trans hrep.func_lt.le).trans hrep.base_le_ciTop⟩
    obtain ⟨q', hfits₂, hqq⟩ := hfits'.setHead trivial hok₂ hrep.func_eq hrep.wanted_eq
    refine .of_none (p := q') rfl hrep.ci_lt ?_ ?_ ?_
      (((hco.congr hpush.toSameCore).congr hclose.toSameCore).congr hrep.toSameCore) ?_
      (fun _ => ⟨c₂, _, hrep.chain_eq, hrep.base_eq⟩) ?_ (by simp) (by simp)
    · change level ns ≤ (LuaState.replaceFrame _).top
      rw [hrep.top_eq]
      exact hok₂.le_top
    · change Fits K (.execute n :: ns) (LuaState.replaceFrame _).chain (LuaState.replaceFrame _).counters
        (LuaState.replaceFrame _).savedThreads q'
      rw [hrep.chain_eq, hrep.counters_eq, hrep.savedThreads, hclose.counters_eq, hclose.savedThreads,
        hpush.counters_eq, hpush.savedThreads]
      exact hfits₂
    · intro hK hsaved
      have hsaved' := hrep.savedThreads.symm.trans hsaved
      have hopen' := (hopen.congr hpush.toSameOpen hpush.savedThreads) hK (hclose.savedThreads.symm.trans hsaved')
      have hclosed := (hopen'.closeUpvalues (s'.callInfo (s'.ci - 1)).base).of_sameOpen hrep.toSameOpen
      refine hclosed.mono fun i hi => hqq i hi.1 (.inl ?_)
      rw [← hprev]
      exact hi.2
    · have hci₂ : (LuaState.replaceFrame (s'.closeUpvalues (s'.callInfo (s'.ci - 1)).base)).ci = s'.ci - 1 := by
        change (s'.closeUpvalues _).ci - 1 = _
        rw [hclose.ci]
      refine hcalm.congr (hrep.ciOverflow.trans (hclose.ciOverflow.trans hpush.ciOverflow)) ?_ id
      change (LuaState.replaceFrame _).ci ≤ _
      rw [hci₂, hpush.ci_eq]
      exact le_rfl
    · rintro - - c₃ hc₃
      dsimp only at hc₃ ⊢
      rw [hrep.chain_eq] at hc₃
      obtain rfl : c₂ = c₃ := by simpa using hc₃
      rw [hrep.top_eq]
      exact K.atTop_refl _
  | rust hpush =>
    rw [← hchain'] at hfits'
    exact .callRust hlevel hco hcalm hfits' hopen hpush trivial (by simp)

/-! ### Returns -/

/-- What a site that runs the frames of a coroutine wants of them is all values. -/
theorem Fits.not_loops {pos : ℕ} {saved : SavedCall} {k : Site} {cs : List CallInfo} {n : Counters}
    {ts : List LuaThread} (h : Fits K (.site pos (some 0) saved k :: ns) cs n ts p) : ¬ k.Loops := by
  intro hloops
  generalize hwanted : some 0 = wanted at h
  cases h with
  | rust hf => exact hf.elim
  | site stale hres =>
    cases k with
    | resume => exact hres trivial
    | _ => exact hloops.elim
  | resume hres hpos hnone => simp [← hwanted] at hnone

/-- The frames after the innermost one was left, with the top restored or not. -/
theorem LuaState.PoppedFrame.framed {c c' : CallInfo} {cs : List CallInfo} {s s' : LuaState}
    (hpop : PoppedFrame s s' c c' cs) (hci : s'.ci ≤ s.ci) (hco : Coroutines K s) (hcalm : Calm K s ns)
    (hfits : Fits K ns (c' :: cs) s.counters s.savedThreads p) (hopen : OpenIn K s p) (hlow : level ns ≤ c.func)
    (restores openList : Bool) (hne : ns ≠ []) (htop : restores = true → level ns ≤ c'.top)
    (hlist : (∃ k ns', ns = .execute k :: ns') → openList = false → restores = true)
    (hcalled : ∀ pos saved k ns', ns = .site pos (some 0) saved k :: ns' →
      restores = false ∧ c.func = pos ∧ c.numResults = some 0) :
    Framed K { st := if restores then s'.restoreTop else s', native := ns, openList } := by
  have hsame : SameFrames s' (if restores then s'.restoreTop else s') := by
    split_ifs
    · exact .restoreTop s'
    · exact .refl s'
  have hopened : SameOpen s' (if restores then s'.restoreTop else s') := by
    split_ifs
    · exact ⟨rfl, fun _ => rfl⟩
    · exact .refl s'
  have hchain := hsame.chain_eq.trans hpop.chain_eq
  refine .of_none (p := p) rfl (hsame.ci_lt hpop.ci_lt) ?_ ?_ ?_
    ((hco.congr hpop.toSameCore).congr hsame.toSameCore) ?_
    (fun _ => ⟨c', cs, hchain, hsame.base.trans hpop.base_eq⟩) ?_ ?_ (fun _ hnil => absurd hnil hne)
  · dsimp only
    split_ifs with hres
    · change level ns ≤ (s'.callInfo s'.ci).top
      rw [callInfo_ci hpop.ci_lt hpop.chain_eq]
      exact htop hres
    · exact hlow.trans hpop.func_le_top
  · dsimp only
    rw [hchain, hsame.counters_eq, hsame.savedThreads, hpop.counters_eq, hpop.savedThreads]
    exact hfits
  · exact (hopen.congr hpop.toSameOpen hpop.savedThreads).congr hopened hsame.savedThreads
  · refine hcalm.congr (hsame.ciOverflow.trans hpop.ciOverflow) ?_ id
    dsimp only
    rw [hsame.ci]
    exact hci
  · intro hopenList hexec c₁ hc₁
    have hres := hlist hexec hopenList
    dsimp only at hc₁ ⊢
    rw [hchain] at hc₁
    obtain rfl : c' = c₁ := by simpa using hc₁
    rw [hres]
    change K.atTop c'.top (s'.callInfo s'.ci).top
    rw [callInfo_ci hpop.ci_lt hpop.chain_eq]
    exact K.atTop_refl _
  · intro pos saved k ns' hn
    obtain ⟨hres, rfl, hwanted⟩ := hcalled pos saved k ns' hn
    rw [hres]
    exact hpop.top_of_none hwanted

/-- `RETURN` up to the point where the frame is left. -/
theorem openReturn_spec (s : LuaState) (a b : ℕ) :
    SameFrames s (s.openReturn a b) ∧ SameOpen (s.closeUpvalues s.base) (s.openReturn a b) ∧
      (s.openReturn a b).top = if b ≠ 0 then s.base + a + b - 1 else s.top := by
  have hclose := closeUpvalues_sameFrames s s.base
  rw [openReturn]
  split_ifs
  · exact ⟨hclose.trans (.of_stack _ (s.closeUpvalues s.base).stack _), ⟨rfl, fun _ => rfl⟩, rfl⟩
  · exact ⟨hclose, .refl _, top_closeUpvalues s s.base⟩

/-- `RETURN`. -/
theorem Framed.opReturn {n : ℕ} (h : Framed K m) (hr : m.raised = none) (hn : m.native = .execute n :: ns) (a b : ℕ) :
    Framed K (m.opReturn n ns a b) := by
  obtain ⟨c, cs, p, hchain, hbase, hok, hne, hfits, hopen⟩ := h.running hr hn trivial
  obtain ⟨c', cs', rfl⟩ := List.exists_cons_of_ne_nil hne
  obtain ⟨hsame, hclosed, -⟩ := openReturn_spec m.st a b
  have hlen := hsame.ci_lt h.ci_lt
  have hchain' := hsame.chain_eq.trans hchain
  obtain ⟨hpop, hfixed⟩ := poscall_poppedFrame (m.st.base + a) hlen hchain'
  have hci := hpop.ci_eq hlen hchain'
  have hcalm : Calm K (m.st.openReturn a b) (.execute n :: ns) :=
    hn ▸ (h.calm (by simp [hr])).congr hsame.ciOverflow hsame.ci.le id
  have hco := h.coroutines.congr hsame.toSameCore
  have hopen' : OpenIn K (m.st.openReturn a b) fun i => p i ∧ i < c.base := by
    intro hK hsaved
    have := ((hopen hK (hsame.savedThreads.symm.trans hsaved)).closeUpvalues m.st.base).of_sameOpen hclosed
    rwa [hbase] at this
  rw [Control.opReturn]
  cases hfits with
  | @execute _ _ fs c₁ _ rest _ _ p₀ _ hcs hk hfs hc hcalled hq hbelow =>
    cases fs with
    | nil =>
      obtain ⟨rfl, rfl⟩ := List.cons.inj hcs
      have hlast : n - 1 = 0 := by simp [hk]
      simp only [hlast, if_true]
      have hcalm' : Calm K (m.st.openReturn a b) ns := hcalm
      refine hpop.framed (p := p₀) (by omega) hco hcalm' ?_ ?_ hok.le_func false _ ?_ (by simp) ?_ ?_
      · rw [hsame.counters_eq, hsame.savedThreads]
        exact hbelow
      · refine hopen'.mono fun i hi => ((hq i).mp hi.1).resolve_left ?_
        rintro ⟨f, hf, hle⟩
        obtain rfl := List.mem_singleton.mp hf
        exact absurd hi.2 (by omega)
      · rintro rfl
        exact hcalled
      · rintro ⟨k, ns', rfl⟩
        exact hcalled.elim
      · rintro pos saved k ns' rfl
        obtain ⟨hfunc, hwanted⟩ := hcalled hbelow.not_loops
        exact ⟨rfl, hfunc, hwanted⟩
    | cons c₂ fs =>
      obtain ⟨rfl, hcs'⟩ := List.cons.inj hcs
      have hmore : ¬ n - 1 = 0 := by simp [hk]
      simp only [hmore, if_false]
      have hfits' : Fits K (.execute (n - 1) :: ns) (c' :: cs') (m.st.openReturn a b).counters
          (m.st.openReturn a b).savedThreads fun i => (∃ f ∈ fs ++ [c₁], f.base ≤ i) ∨ p₀ i := by
        rw [hsame.counters_eq, hsame.savedThreads]
        exact .execute fs hcs' (by simp [hk]) (fun f hf => hfs f (List.mem_cons_of_mem _ hf)) hc hcalled
          (fun _ => Iff.rfl) hbelow
      obtain ⟨c₃, rest₃, heq, hok₃, -⟩ := hfits'.running trivial
      obtain ⟨rfl, -⟩ := List.cons.inj heq
      have hcalm' : Calm K (m.st.openReturn a b) (.execute (n - 1) :: ns) := hcalm
      refine hpop.framed (by omega) hco hcalm' hfits' ?_ hok.le_func _ _ (by simp) (fun _ => hok₃.le_top)
        (fun _ hlist => by simpa using hlist) (by simp)
      refine hopen'.mono fun i hi => ((hq i).mp hi.1).imp_left ?_
      rintro ⟨f, hf, hle⟩
      obtain rfl | hf := List.mem_cons.mp hf
      · exact absurd hi.2 (by omega)
      · exact ⟨f, hf, hle⟩
  | rust hf => exact hf.elim

/-- The return of a native function. -/
theorem Framed.opReturnRust {n : ℕ} (h : Framed K m) (hr : m.raised = none) (hn : m.native = f :: ns) (hf : f.IsRust)
    (he : m.opReturnRust ns n f = some m') : Framed K m' := by
  obtain ⟨c, cs, p, hchain, -, hok, hne, hfits, hopen⟩ := h.running hr hn hf.isCode
  obtain ⟨c', cs', rfl⟩ := List.exists_cons_of_ne_nil hne
  obtain ⟨hpop, -⟩ := poscall_poppedFrame (m.st.top - n) h.ci_lt hchain
  have hci := hpop.ci_eq h.ci_lt hchain
  have hcalm : Calm K m.st ns :=
    (h.calm (by simp [hr])).congr rfl le_rfl fun hin => (handlerIn_cons hf.isCode).mp (hn ▸ hin)
  obtain ⟨hcaller, hcalled, hbelow⟩ := hfits.of_rust hf
  cases f with
  | opCall c₁ =>
    rw [Control.opReturnRust] at he
    cases he
    obtain ⟨k, ns', rfl⟩ := hcaller (by simp)
    obtain ⟨c₃, rest₃, heq, hok₃, -⟩ := hbelow.running trivial
    obtain ⟨rfl, -⟩ := List.cons.inj heq
    have hframed := hpop.framed (by omega) h.coroutines hcalm hbelow hopen hok.le_func (decide (c₁ ≠ 0))
      (decide (c₁ = 0)) (by simp) (fun _ => hok₃.le_top) (by simp) (by simp)
    have hif : ∀ s s' : LuaState, (if decide (c₁ ≠ 0) = true then s else s') = if c₁ ≠ 0 then s else s' := fun _ _ =>
      if_congr decide_eq_true_iff rfl rfl
    rw [hif] at hframed
    exact hframed
  | opTailCall =>
    rw [Control.opReturnRust] at he
    cases he
    obtain ⟨k, ns', rfl⟩ := hcaller (by simp)
    exact hpop.framed (by omega) h.coroutines hcalm hbelow hopen hok.le_func false true (by simp)
      (by simp) (by simp) (by simp)
  | callee =>
    rw [Control.opReturnRust] at he
    cases he
    have hin := hcalled rfl
    refine hpop.framed (by omega) h.coroutines hcalm hbelow hopen hok.le_func false false ?_ (by simp) ?_ ?_
    · rintro rfl
      exact hin
    · rintro ⟨k, ns', rfl⟩
      exact hin.elim
    · rintro pos saved k ns' rfl
      obtain ⟨hfunc, hwanted⟩ := hin hbelow.not_loops
      exact ⟨rfl, hfunc, hwanted⟩
  | execute => exact hf.elim
  | site => exact hf.elim

end Rilua.Vm
