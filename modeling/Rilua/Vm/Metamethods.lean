import Rilua.Vm.ControlFloor

/-! What is left on the stack of an instruction that calls a metamethod. The function with its arguments is
    pushed at the top, and when it has returned its result is there: `call_tm_res` and `call_order_tm` read it
    and leave it, so the top is one slot higher after each of them. Only `__newindex` wants no result. -/

namespace Rilua.Vm

open Lib Gc LuaState

variable {K : FrameSpec} {m m' : Control} {f : ControlFrame} {ns : List ControlFrame} {k : Site} {pos : ℕ}
  {wanted : Option ℕ} {saved : SavedCall}

/-! ### What a call has left at the top -/

theorem top_poscall {s : LuaState} {w : ℕ} (first : ℕ) (h : (s.callInfo s.ci).numResults = some w) :
    (s.poscall first).1.top = (s.callInfo s.ci).func + w := by
  rw [poscall, h]
  rcases w with _ | _ | w
  · rfl
  · rfl
  · rfl

namespace Control

/-- The results of a function that a site has called end at the top. -/
def Delivered (m : Control) : Prop :=
  m.raised = none → ∀ pos w saved k ns, m.native = .site pos (some w) saved k :: ns → m.st.top = pos + w

/-- Code runs, or the host, or an error is in flight. -/
def NotAtSite (m : Control) : Prop := m.raised = none → ∀ f ∈ m.native.head?, f.IsCode

theorem NotAtSite.delivered (h : m.NotAtSite) : m.Delivered := by
  intro hr pos w saved k ns hn
  exact (h hr (.site pos (some w) saved k) (by simp [hn])).elim

theorem NotAtSite.of_code (hn : m.native = f :: ns) (hf : f.IsCode) : m.NotAtSite := by
  intro _ g hg
  rw [hn] at hg
  obtain rfl : f = g := by simpa using hg
  exact hf

theorem NotAtSite.of_error {err : InFlight} (h : m.raised = some err) : m.NotAtSite := by
  intro hr
  simp [h] at hr

theorem notAtSite_enter (h : m.enter k pos wanted saved = some m') : m'.NotAtSite := by
  rw [Control.enter] at h
  split_ifs at h
  · cases h
    exact .of_error rfl
  · split at h
    · cases h
      exact .of_code rfl trivial
    · cases h
      exact .of_code rfl trivial
    · cases h
    · cases h
      exact .of_error rfl

theorem notAtSite_opCall {n pc a b c : ℕ} (h : m.opCall n ns pc a b c = some m') : m'.NotAtSite := by
  rw [Control.opCall] at h
  split at h
  · cases h
    exact .of_code rfl trivial
  · cases h
    exact .of_code rfl trivial
  · cases h
  · cases h
    exact .of_error rfl

theorem notAtSite_opTailCall {n pc a b : ℕ} (h : m.opTailCall n ns pc a b = some m') : m'.NotAtSite := by
  rw [Control.opTailCall] at h
  split at h
  · cases h
    exact .of_code rfl trivial
  · cases h
    exact .of_code rfl trivial
  · cases h
  · cases h
    exact .of_error rfl

theorem notAtSite_commonStep (hn : m.native = f :: ns) (hf : f.IsCode) {op : ControlOp}
    (h : m.commonStep op = some m') : m'.NotAtSite := by
  cases op with
  | write | heap | setUpval =>
    cases h
    exact .of_code hn hf
  | fail =>
    cases h
    exact .of_error rfl
  | hook | finalizer => exact notAtSite_enter h
  | _ => cases h

/-- An instruction other than `RETURN` does not come back to a site. -/
theorem notAtSite_luaStep {n : ℕ} (hn : m.native = .execute n :: ns) {op : ControlOp}
    (hop : ∀ a b, op ≠ .ret a b) (h : m.luaStep n ns op = some m') : m'.NotAtSite := by
  unfold Control.luaStep at h
  cases op with
  | call => exact notAtSite_opCall h
  | tailCall => exact notAtSite_opTailCall h
  | ret a b => exact absurd rfl (hop a b)
  | varArg | capture =>
    obtain ⟨_, -, rfl⟩ := Option.map_eq_some_iff.mp h
    exact .of_code hn trivial
  | setList | close =>
    cases h
    exact .of_code hn trivial
  | tforloop | tmRes | tmVoid | orderTm => exact notAtSite_enter h
  | returnHook instr event =>
    cases instr with
    | none => exact notAtSite_commonStep hn trivial h
    | some x => exact notAtSite_enter h
  | _ => exact notAtSite_commonStep hn trivial h

theorem delivered_auxresume (hn : m.native = f :: ns) (hf : f.IsCode) {co : GcRef .thread} {args : List Val}
    {wrap : Bool} (h : m.auxresume co args wrap = some m') : m'.Delivered := by
  have hnot : ∀ {m₁}, some (if wrap then m.raise else m) = some m₁ → m₁.Delivered := by
    intro m₁ h₁
    cases h₁
    split_ifs
    · exact NotAtSite.delivered (.of_error rfl)
    · exact NotAtSite.delivered (.of_code hn hf)
  rw [Control.auxresume] at h
  cases hget : m.st.gc.heap.get co with
  | none =>
    rw [hget] at h
    exact hnot h
  | some t =>
    rw [hget] at h
    dsimp only at h
    cases hstatus : (t : LuaThread).status with
    | initial =>
      rw [hstatus] at h
      exact (notAtSite_enter h).delivered
    | suspended =>
      rw [hstatus] at h
      cases h
      -- the loop of `auxresume` wants all values
      rintro - pos w saved k ns' hn'
      cases hn'
    | running | normal | dead =>
      rw [hstatus] at h
      exact hnot h

/-- A native function that does not return does not come back to what has called it. -/
theorem delivered_rustStep (hn : m.native = f :: ns) (hf : f.IsCode) {op : ControlOp} (hop : ∀ n, op ≠ .retRust n)
    (h : m.rustStep f ns op = some m') : m'.Delivered := by
  unfold Control.rustStep at h
  cases op with
  | push | setTop =>
    cases h
    exact NotAtSite.delivered (.of_code hn hf)
  | callFunction =>
    dsimp only at h
    split_ifs at h
    exact (notAtSite_enter h).delivered
  | pcall | xpcall =>
    dsimp only at h
    split_ifs at h
    · exact (notAtSite_enter h).delivered
    · cases h
      exact NotAtSite.delivered (.of_error rfl)
  | reader | secureRange => exact (notAtSite_enter h).delivered
  | create =>
    obtain ⟨_, -, rfl⟩ := Option.map_eq_some_iff.mp h
    exact NotAtSite.delivered (.of_code hn hf)
  | resume => exact delivered_auxresume hn hf h
  | yield =>
    dsimp only at h
    split_ifs at h
    · cases h
      exact NotAtSite.delivered (.of_error rfl)
    · cases h
      exact NotAtSite.delivered (.of_error rfl)
  | retRust n => exact absurd rfl (hop n)
  | returnHook instr event =>
    cases instr with
    | none => exact (notAtSite_enter h).delivered
    | some x => exact (notAtSite_commonStep hn hf h).delivered
  | _ => exact (notAtSite_commonStep hn hf h).delivered

end Control

open Control

/-! ### The steps back to a site -/

/-- The code below a site. -/
theorem Framed.below_site (h : Framed K m) (hn : m.native = .site pos wanted saved k :: ns) :
    ∀ f ∈ ns.head?, f.IsCode := by
  intro f hf
  by_cases hk : k.IsResume
  · obtain ⟨extra, cs, t, ts, rest, p, -, -, -, -, -, -, -, -, -, -, ht, -⟩ := h.inCoroutine hn hk
    obtain ⟨g, ns', rfl, hg⟩ := ht.rust
    obtain rfl : g = f := by simpa using hf
    exact hg.isCode
  · obtain ⟨extra, c, cs, p, hat⟩ := h.atSite hn hk
    by_cases hhost : k.IsHost
    · rw [hat.site.host hhost] at hf
      cases hf
    · obtain ⟨g, ns', rfl, hg, -⟩ := hat.site.code hhost
      obtain rfl : g = f := by simpa using hf
      exact hg

theorem siteFailed_cases {v : Val} {err : InFlight} (h : m.siteFailed ns pos saved v err k = some m') :
    m'.native = ns ∨ m'.NotAtSite := by
  cases k with
  | resume co caller loops wrap =>
    cases err with
    | yield n => exact .inl (native_leaveCoroutine h)
    | error => exact .inl (native_leaveCoroutine h)
  | xpcall => exact .inr (notAtSite_enter h)
  | _ =>
    cases h
    exact .inl rfl

/-- The function that has returned is the one the site has called. -/
theorem delivered_of_called {s : LuaState} {c : CallInfo} {cs : List CallInfo} {first : ℕ}
    (hci : s.ci < s.callStack.length) (hchain : s.chain = c :: cs) {w : ℕ}
    (hcalled : Called c (.site pos (some w) saved k :: ns)) (hloops : ¬ k.Loops) :
    (s.poscall first).1.top = pos + w := by
  obtain ⟨hfunc, hwanted⟩ := hcalled hloops
  rw [← hfunc]
  rw [← callInfo_ci hci hchain] at hwanted ⊢
  exact top_poscall first hwanted

/-- A site that wants a number of results does not run the frames of a coroutine. -/
theorem Fits.not_loops_of_wanted {w : ℕ} {cs : List CallInfo} {n : Counters} {ts : List LuaThread} {p : ℕ → Prop}
    (h : Fits K (.site pos (some w) saved k :: ns) cs n ts p) : ¬ k.Loops := by
  intro hloops
  generalize hwanted : some w = wanted at h
  cases h with
  | rust hf => exact hf.elim
  | site stale hres =>
    cases k with
    | resume => exact hres trivial
    | _ => exact hloops.elim
  | resume hres hpos hnone => simp [← hwanted] at hnone

theorem Framed.delivered_opReturn {n : ℕ} (h : Framed K m) (hr : m.raised = none) (hn : m.native = .execute n :: ns)
    (a b : ℕ) : (m.opReturn n ns a b).Delivered := by
  obtain ⟨c, cs, p, hchain, -, -, -, hfits, -⟩ := h.running hr hn trivial
  obtain ⟨hsame, -, -⟩ := openReturn_spec m.st a b
  rw [Control.opReturn]
  split_ifs with hlast
  · rintro - pos w saved k ns' rfl
    cases hfits with
    | @execute _ _ fs c₁ _ rest _ _ p₀ _ hcs hk hfs hc hcalled hq hbelow =>
      -- the last Lua function of the interpreter loop
      obtain rfl : fs = [] := List.eq_nil_of_length_eq_zero (by omega)
      obtain ⟨rfl, -⟩ := List.cons.inj hcs
      exact delivered_of_called (hsame.ci_lt h.ci_lt) (hsame.chain_eq.trans hchain) hcalled hbelow.not_loops_of_wanted
    | rust hf => exact hf.elim
  · exact NotAtSite.delivered (.of_code rfl trivial)

theorem Framed.delivered_opReturnRust {n : ℕ} (h : Framed K m) (hr : m.raised = none) (hn : m.native = f :: ns)
    (hf : f.IsRust) (he : m.opReturnRust ns n f = some m') : m'.Delivered := by
  obtain ⟨c, cs, p, hchain, -, -, -, hfits, -⟩ := h.running hr hn hf.isCode
  obtain ⟨hcaller, hcalled, hbelow⟩ := hfits.of_rust hf
  cases f with
  | opCall c₁ =>
    obtain ⟨j, ns', rfl⟩ := hcaller (by simp)
    cases he
    exact NotAtSite.delivered (.of_code rfl trivial)
  | opTailCall =>
    obtain ⟨j, ns', rfl⟩ := hcaller (by simp)
    cases he
    exact NotAtSite.delivered (.of_code rfl trivial)
  | callee =>
    cases he
    rintro - pos w saved k ns' rfl
    exact delivered_of_called h.ci_lt hchain (hcalled rfl) hbelow.not_loops_of_wanted
  | execute => exact hf.elim
  | site => exact hf.elim

theorem Framed.delivered_rustStep (h : Framed K m) (hr : m.raised = none) (hn : m.native = f :: ns) (hf : f.IsRust)
    {op : ControlOp} (he : m.rustStep f ns op = some m') : m'.Delivered := by
  cases op with
  | retRust n => exact h.delivered_opReturnRust hr hn hf he
  | _ => exact Control.delivered_rustStep hn hf.isCode (by simp) he

/-- Where a step leads back to a site, the results it wants end at the top. -/
theorem Framed.delivered {op : ControlOp} (h : Framed K m) (he : m.step op = some m') : m'.Delivered := by
  cases hr : m.raised with
  | some err =>
    cases op with
    | unwind v =>
      simp only [Control.step, hr, Control.unwind] at he
      cases hn : m.native with
      | nil => simp [hn] at he
      | cons f ns =>
        rw [hn] at he
        cases f with
        | site pos wanted saved k =>
          rcases siteFailed_cases he with hns | hnot
          · exact NotAtSite.delivered fun _ => hns ▸ h.below_site hn
          · exact hnot.delivered
        | _ =>
          cases he
          exact NotAtSite.delivered (.of_error rfl)
    | _ => simp [Control.step, hr] at he
  | none =>
    cases hn : m.native with
    | nil =>
      have hhost : m.hostStep op = some m' := by
        cases op with
        | _ => simpa [Control.step, hr, hn] using he
      cases op with
      | heap g =>
        cases hhost
        exact NotAtSite.delivered fun _ f hf => by simp [hn] at hf
      | exec | hostCall =>
        rw [Control.hostStep] at hhost
        exact (notAtSite_enter hhost).delivered
      | _ => cases hhost
    | cons f ns =>
      cases f with
      | site pos wanted saved k =>
        cases op with
        | done =>
          simp only [Control.step, hr, hn] at he
          rcases native_siteDone he with hns | hexec
          · exact NotAtSite.delivered fun _ => hns ▸ h.below_site hn
          · exact NotAtSite.delivered (.of_code hexec trivial)
        | _ => simp [Control.step, hr, hn] at he
      | execute n =>
        have hlua : m.luaStep n ns op = some m' := by simpa [Control.step, hr, hn] using he
        cases op with
        | ret a b =>
          cases hlua
          exact h.delivered_opReturn hr hn a b
        | _ => exact (notAtSite_luaStep hn (by simp) hlua).delivered
      | opCall c =>
        have hrust : m.rustStep (.opCall c) ns op = some m' := by simpa [Control.step, hr, hn] using he
        exact h.delivered_rustStep hr hn trivial hrust
      | opTailCall =>
        have hrust : m.rustStep .opTailCall ns op = some m' := by simpa [Control.step, hr, hn] using he
        exact h.delivered_rustStep hr hn trivial hrust
      | callee =>
        have hrust : m.rustStep .callee ns op = some m' := by simpa [Control.step, hr, hn] using he
        exact h.delivered_rustStep hr hn trivial hrust

/-! ### Instructions that call a metamethod -/

namespace ControlOp

/-- An instruction calls a metamethod. -/
def IsMetamethod : ControlOp → Prop
  | .tmRes .. | .orderTm .. | .tmVoid .. => True
  | _ => False

/-- A table is assigned to. -/
def IsNewindex : ControlOp → Prop
  | .tmVoid .. => True
  | _ => False

/-- What an instruction does besides, without a call. -/
def IsPlain : ControlOp → Prop
  | .write .. | .heap _ | .setUpval .. | .capture _ | .close _ => True
  | _ => False

/-- The results an instruction wants of its metamethod. -/
def results : ControlOp → ℕ
  | .tmRes .. | .orderTm .. => 1
  | _ => 0

theorem results_eq_zero {op : ControlOp} (h : op.IsMetamethod) : op.results = 0 ↔ op.IsNewindex := by
  cases op with
  | tmRes | orderTm => exact iff_of_false one_ne_zero id
  | tmVoid => exact iff_of_true rfl trivial
  | _ => exact h.elim

end ControlOp

variable {ok : Control → ControlOp → Prop} {op : ControlOp} {ops : List ControlOp}

/-- The instruction `op` calls a metamethod and goes on after it, in `m'`. -/
def Dispatched (ok : Control → ControlOp → Prop) (m : Control) (op : ControlOp) (m' : Control) : Prop :=
  op.IsMetamethod ∧ ok m op ∧ ∃ m₁ m₂ site ops, m.step op = some m₁ ∧ CalledRun ok site m.native m₁ ops m₂ ∧
    m₂.raised = none ∧ ok m₂ .done ∧ m₂.step .done = some m'

/-- A stretch of a Lua function: instructions without calls, and the instructions `ops`, which call metamethods. -/
inductive Stretch (ok : Control → ControlOp → Prop) : Control → List ControlOp → Control → Prop
  | nil (m : Control) : Stretch ok m [] m
  | plain {m m' m'' : Control} {op : ControlOp} {ops : List ControlOp} (hop : op.IsPlain) (hok : ok m op)
      (hstep : m.step op = some m') (h : Stretch ok m' ops m'') : Stretch ok m ops m''
  | dispatch {m m' m'' : Control} {op : ControlOp} {ops : List ControlOp} (hd : Dispatched ok m op m')
      (h : Stretch ok m' ops m'') : Stretch ok m (op :: ops) m''

/-- The current frame, its base and the top are the same. -/
def SameStack (s s' : LuaState) : Prop := s'.ci = s.ci ∧ s'.base = s.base ∧ s'.top = s.top

/-- What is called is pushed at the top. -/
theorem step_of_isMetamethod (hop : op.IsMetamethod) (he : m.step op = some m') :
    ∃ (k : Site) (vs : List Val), k.AtTop ∧ ¬ k.IsHandler ∧
      (∀ {m₂ m₃ : Control} {ns : List ControlFrame} {pos : ℕ} {saved : SavedCall}, m₂.siteDone ns pos saved k = some m₃ →
        SameStack m₂.st m₃.st) ∧
      m.callAtTop k vs (some op.results) = some m' := by
  have hlua : ∃ n ns, m.luaStep n ns op = some m' := by
    cases hr : m.raised with
    | some err =>
      cases op with
      | tmRes | orderTm | tmVoid => simp [Control.step, hr] at he
      | _ => exact hop.elim
    | none =>
      cases hn : m.native with
      | nil =>
        cases op with
        | tmRes | orderTm | tmVoid => simp [Control.step, hr, hn, Control.hostStep] at he
        | _ => exact hop.elim
      | cons f ns =>
        cases f with
        | execute n => exact ⟨n, ns, by simpa [Control.step, hr, hn] using he⟩
        | _ =>
          cases op with
          | tmRes | orderTm | tmVoid => simp [Control.step, hr, hn, Control.rustStep, Control.commonStep] at he
          | _ => exact hop.elim
  obtain ⟨n, ns, hlua⟩ := hlua
  cases op with
  | tmRes tm arg1 arg2 resultReg =>
    refine ⟨.tmRes resultReg, _, trivial, id, fun h => ?_, hlua⟩
    cases h
    exact ⟨rfl, rfl, rfl⟩
  | orderTm tm lhs rhs =>
    refine ⟨.orderTm, _, trivial, id, fun h => ?_, hlua⟩
    cases h
    exact ⟨rfl, rfl, rfl⟩
  | tmVoid tm arg1 arg2 arg3 =>
    refine ⟨.tmVoid, _, trivial, id, fun h => ?_, hlua⟩
    cases h
    exact ⟨rfl, rfl, rfl⟩
  | _ => exact hop.elim

/-- When the metamethod has returned, the top is as many slots higher as there are results. -/
theorem Dispatched.top_eq (h : Framed K m) (hok : ∀ m op, Framed K m → ok m op → K.Allows m op) (hd : Dispatched ok m op m') :
    Framed K m' ∧ m'.st.ci = m.st.ci ∧ m'.st.base = m.st.base ∧ m'.st.top = m.st.top + op.results := by
  obtain ⟨hop, hallowed, m₁, m₂, site, ops, hcall, hrun, hr₂, hallowed₂, hdone⟩ := hd
  obtain ⟨k, vs, hk, hhandler, hgoOn, henter⟩ := step_of_isMetamethod hop hcall
  have h₁ := h.step (hok m op h hallowed) hcall
  have hdel₁ := h.delivered hcall
  obtain rfl := hrun.site_of_callAtTop henter rfl
  obtain ⟨hrun, hn₂⟩ := hrun
  have h₂ : Framed K m₂ ∧ m₂.Delivered := by
    refine hrun.invariant (fun m => Framed K m ∧ m.Delivered) (fun m op m' hm hokm he => ?_) ⟨h₁, hdel₁⟩
    exact ⟨hm.1.step (hok m op hm.1 hokm.1) he, hm.1.delivered he⟩
  obtain ⟨h₂, hdel₂⟩ := h₂
  have hresume : ¬ k.IsResume := by
    cases k with
    | resume => exact hk.elim
    | _ => exact id
  have hhost : ¬ k.IsHost := by
    cases k with
    | exec => exact hk.elim
    | hostCall => exact hk.elim
    | _ => exact id
  obtain ⟨extra, c, cs, p, hat⟩ := h₂.atSite hn₂ hresume
  obtain rfl := hat.extra_nil hr₂ hhandler
  have hci := hat.length_eq
  obtain ⟨c₁, cs₁, heq, hsaved⟩ := hat.site.base_eq hhost
  obtain ⟨rfl, rfl⟩ := List.cons.inj heq
  obtain ⟨c₂, cs₂, hchain, hbase⟩ := h₂.base_eq hr₂ (by simp [hn₂])
  obtain ⟨rfl, -⟩ := List.cons.inj (hchain.symm.trans hat.chain_eq)
  have htop := hdel₂ hr₂ _ _ _ _ _ hn₂
  have hsite : m₂.siteDone m.native m.st.top m.save k = some m' := by simpa [Control.step, hr₂, hn₂] using hdone
  obtain ⟨hci', hbase', htop'⟩ := hgoOn hsite
  refine ⟨h₂.step (hok m₂ .done h₂ hallowed₂) hdone, ?_, ?_, htop'.trans htop⟩
  · rw [hci', hci]
    exact Nat.zero_add _
  · rw [hbase', hbase, ← hsaved]
    rfl

theorem sameStack_commonStep (hop : op.IsPlain) (he : m.commonStep op = some m') : SameStack m.st m'.st := by
  cases op with
  | write | heap =>
    cases he
    exact ⟨rfl, rfl, rfl⟩
  | setUpval r v =>
    cases he
    obtain ⟨hsame, htop⟩ := setUpvalue_sameFrames m.st r v
    exact ⟨hsame.ci, hsame.base, htop⟩
  | capture | close => cases he
  | _ => exact hop.elim

theorem sameStack_luaStep {n : ℕ} (hop : op.IsPlain) (he : m.luaStep n ns op = some m') : SameStack m.st m'.st := by
  cases op with
  | write | heap | setUpval => exact sameStack_commonStep hop he
  | capture a =>
    obtain ⟨⟨st, r⟩, hfind, rfl⟩ := Option.map_eq_some_iff.mp he
    obtain ⟨hsame, htop⟩ := findUpvalue_sameFrames hfind
    exact ⟨hsame.ci, hsame.base, htop⟩
  | close a =>
    cases he
    have hsame := closeUpvalues_sameFrames m.st (m.st.base + a)
    exact ⟨hsame.ci, hsame.base, top_closeUpvalues _ _⟩
  | _ => exact hop.elim

theorem sameStack_hostStep (hop : op.IsPlain) (he : m.hostStep op = some m') : SameStack m.st m'.st := by
  cases op with
  | heap g =>
    cases he
    exact ⟨rfl, rfl, rfl⟩
  | write | setUpval | capture | close => cases he
  | _ => exact hop.elim

theorem sameStack_rustStep (hop : op.IsPlain) (he : m.rustStep f ns op = some m') : SameStack m.st m'.st := by
  cases op with
  | write | heap | setUpval => exact sameStack_commonStep hop he
  | capture | close => cases he
  | _ => exact hop.elim

theorem sameStack_of_isPlain (hop : op.IsPlain) (he : m.step op = some m') : SameStack m.st m'.st := by
  unfold Control.step at he
  split at he
  · exact hop.elim
  · cases he
  · exact sameStack_hostStep hop he
  · exact hop.elim
  · cases he
  · exact sameStack_luaStep hop he
  · exact sameStack_rustStep hop he

/-- After a stretch, the top is higher by what the metamethods have returned. -/
theorem Stretch.top_eq (hok : ∀ m op, Framed K m → ok m op → K.Allows m op) (hst : Stretch ok m ops m') (h : Framed K m) :
    Framed K m' ∧ m'.st.ci = m.st.ci ∧ m'.st.base = m.st.base ∧
      m'.st.top = m.st.top + (ops.map ControlOp.results).sum := by
  induction hst with
  | nil m => exact ⟨h, rfl, rfl, rfl⟩
  | @plain m m₁ m' op ops hop hm hstep hrest ih =>
    obtain ⟨hci, hbase, htop⟩ := sameStack_of_isPlain hop hstep
    obtain ⟨h', hci', hbase', htop'⟩ := ih (h.step (hok m op h hm) hstep)
    exact ⟨h', hci'.trans hci, hbase'.trans hbase, by rw [htop', htop]⟩
  | @dispatch m m₁ m' op ops hd hrest ih =>
    obtain ⟨h₁, hci, hbase, htop⟩ := hd.top_eq h hok
    obtain ⟨h', hci', hbase', htop'⟩ := ih h₁
    refine ⟨h', hci'.trans hci, hbase'.trans hbase, ?_⟩
    rw [htop', htop, List.map_cons, List.sum_cons, Nat.add_assoc]

theorem Stretch.isMetamethod (hst : Stretch ok m ops m') : ∀ op ∈ ops, op.IsMetamethod := by
  induction hst with
  | nil m => simp
  | plain _ _ _ _ ih => exact ih
  | dispatch hd _ ih => exact List.forall_mem_cons.mpr ⟨hd.1, ih⟩

/-- A Lua function that the host has called. -/
def inLua : Control := (Control.step { st := twoLoaded } (.hostCall false twoLoaded.lua [])).getD { st := twoLoaded }

theorem run_inLua {ok : Control → ControlOp → Prop} (hok : ok { st := twoLoaded } (.hostCall false twoLoaded.lua [])) :
    Run Control.step ok { st := twoLoaded } [.hostCall false twoLoaded.lua []] inLua := .single hok rfl

/-- A Lua function assigns to a table whose `__newindex` is a native function. -/
theorem stretch_newindex : ∃ m', Stretch (fun m op => m.Sound op ∧ m.Regular (fun _ _ => True) op) inLua
    [.tmVoid twoLoaded.native .nil .nil .nil] m' := by
  refine ⟨_, .dispatch ⟨trivial, ?_, _, _, _, [.retRust 0], rfl, ⟨.single ⟨?_, _, [], rfl⟩ rfl, rfl⟩, rfl, ?_, rfl⟩
    (.nil _)⟩
  · exact ⟨rfl, trivial⟩
  · exact ⟨trivial, trivial⟩
  · exact ⟨trivial, trivial⟩

/-- A Lua function adds to a table whose `__add` is a native function. -/
theorem stretch_add : ∃ m', Stretch (fun m op => m.Sound op ∧ m.Regular (fun _ _ => True) op) inLua
    [.tmRes twoLoaded.native .nil .nil 1] m' ∧ m'.st.top = inLua.st.top + 1 := by
  refine ⟨_, .dispatch ⟨trivial, ?_, _, _, _, [.retRust 0], rfl, ⟨.single ⟨?_, _, [], rfl⟩ rfl, rfl⟩, rfl, ?_, rfl⟩
    (.nil _), rfl⟩
  · exact ⟨rfl, trivial⟩
  · exact ⟨trivial, trivial⟩
  · exact ⟨trivial, trivial⟩

end Rilua.Vm
