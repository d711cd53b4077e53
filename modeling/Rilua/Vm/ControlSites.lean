import Rilua.Vm.ControlCalls

/-! What a site does when the function it has called returns, and when an error reaches it. Some sites recover
    from an error without unwinding the frames or closing the upvalues of the functions that were abandoned, and
    one runs the frames of a coroutine without restoring the top: there the invariant needs a condition. -/

namespace Rilua.Vm

open Lib Gc LuaState

/-- No upvalue is open at or above the slot. -/
def NoneOpen (s : LuaState) (pos : ℕ) : Prop := ∀ r ∈ s.openUpvalues, ∀ i ∈ s.openAt r, i < pos

/-- The frame of the site is the current one. -/
def Intact (s : LuaState) (saved : SavedCall) : Prop := s.ci = saved.ci ∧ s.base = saved.base

namespace FrameSpec

variable (K : FrameSpec)

/-- The site may go on after its function has returned. -/
def DoneOk (m : Control) (ns : List ControlFrame) (saved : SavedCall) : Site → Prop
  | .tmRes _ | .orderTm =>
    (∃ j ns', ns = .execute j :: ns') → saved.openList = false → ∀ a b c, K.atTop a b → b ≤ c → K.atTop a c
  | .resume _ _ loops _ =>
    loops = true → 0 < m.st.ci → m.openList = false → ∀ c ∈ m.st.chain.head?, K.atTop c.top m.st.top
  | .exec => K.strict → m.st.top = 1
  | _ => True

/-- The site may go on after an error. -/
def FailOk (m : Control) (pos : ℕ) (saved : SavedCall) : Site → Prop
  | .hook _ true | .reader false => Intact m.st saved ∧ (K.strict → NoneOpen m.st pos ∧ m.st.ciOverflow = false)
  | .reader true | .handler _ => K.strict → NoneOpen m.st pos
  | .exec => ¬ K.strict ∧ K.bottom m.st.chain m.st.counters
  | .hostCall traced => K.strict → NoneOpen m.st pos ∧ (traced = true → m.st.ciOverflow = false)
  | _ => True

end FrameSpec

variable {K : FrameSpec} {m m' : Control} {f : ControlFrame} {ns : List ControlFrame} {p : ℕ → Prop} {k : Site}
  {pos : ℕ} {wanted : Option ℕ} {saved : SavedCall}

theorem OpenIn.noneOpen {s : LuaState} {q : ℕ → Prop} (h : OpenIn K s q) (hnone : K.strict → NoneOpen s pos)
    (hq : ∀ i, q i → i < pos → p i) : OpenIn K s p := by
  intro hK hsaved
  obtain ⟨is, hmap, hsorted, hall⟩ := h hK hsaved
  refine ⟨is, hmap, hsorted, fun i hi => hq i (hall i hi) ?_⟩
  have hmem : some i ∈ s.openUpvalues.map s.openAt := hmap ▸ List.mem_map_of_mem hi
  obtain ⟨r, hr, hat⟩ := List.mem_map.mp hmem
  exact hnone hK r hr i hat

/-! ### The frames below a site -/

/-- What is known where a site takes over. There may be frames of abandoned functions on top. -/
structure AtSite (K : FrameSpec) (m : Control) (ns : List ControlFrame) (pos : ℕ) (wanted : Option ℕ)
    (saved : SavedCall) (k : Site) (extra : List CallInfo) (c : CallInfo) (cs : List CallInfo) (p : ℕ → Prop) :
    Prop where
  chain_eq : m.st.chain = extra ++ c :: cs
  length_eq : m.st.ci = extra.length + saved.ci
  site : SiteOk K ns pos wanted saved k (c :: cs) (m.st.leaveCount k).counters
  below : Fits K ns (c :: cs) (m.st.leaveCount k).counters m.st.savedThreads p
  opened : OpenIn K m.st fun i => p i ∨ m.raised ≠ none ∧ pos ≤ i
  le_top : pos ≤ m.st.top
  nCcalls : m.st.nCcalls = (m.st.leaveCount k).nCcalls + k.nCcalls
  extra_nil : m.raised = none → ¬ k.IsHandler → extra = []
  yielded : ∀ n, m.raised = some (.yield n) → m.st.nCcalls = 0 ∧ extra ≠ [] ∧ (¬ k.IsHandler → ∀ c ∈ extra, FrameOk 0 c)

theorem leaveCount_counters {s : LuaState} {n : Counters} (h : s.counters = k.count n) :
    (s.leaveCount k).counters = n ∧ s.nCcalls = (s.leaveCount k).nCcalls + k.nCcalls := by
  have hcalls : s.nCcalls = n.nCcalls + k.nCcalls := congrArg Counters.nCcalls h
  have hdepth : s.callDepth = n.callDepth + k.callDepth := congrArg Counters.callDepth h
  constructor
  · simp [leaveCount, counters, hcalls, hdepth]
  · simp [leaveCount, hcalls]

theorem Framed.atSite (h : Framed K m) (hn : m.native = .site pos wanted saved k :: ns) (hk : ¬ k.IsResume) :
    ∃ extra c cs p, AtSite K m ns pos wanted saved k extra c cs p := by
  obtain ⟨extra, rest, p, hchain, hextra, hyield, hfits, hopen⟩ := h.fits
  have hlevel := h.level_le
  rw [hn] at hfits hlevel
  generalize hcount : m.st.counters = n at hfits
  generalize hts : m.st.savedThreads = ts at hfits
  cases hfits with
  | rust hf => exact hf.elim
  | @site _ _ _ _ _ stale _ rest' _ n' _ _ hres hcs hstale hcount' hsite hbelow =>
    obtain ⟨c, cs, rfl⟩ := List.exists_cons_of_ne_nil hbelow.ne_nil
    obtain ⟨hleave, hcalls⟩ := leaveCount_counters (hcount.trans hcount')
    have hlen := length_chain h.ci_lt
    rw [hchain, hcs, List.length_append, List.length_append] at hlen
    have hci := hsite.ci_eq
    refine ⟨extra ++ stale, c, cs, p, ?_, ?_, hleave ▸ hsite, hts ▸ hleave ▸ hbelow, ?_, hlevel, hcalls, ?_, ?_⟩
    · rw [hchain, hcs, List.append_assoc]
    · rw [List.length_append]
      omega
    · rw [hn] at hopen
      exact hopen
    · intro hr hh
      rw [hextra hr, hstale hh, List.nil_append]
    · intro n hr
      obtain ⟨hzero, hframes, hrust⟩ := hyield n hr
      refine ⟨hzero, fun hnil => ?_, fun hh => ?_⟩
      · obtain ⟨f, ns', hn', hf⟩ := hrust (List.append_eq_nil_iff.mp hnil).1
        rw [hn] at hn'
        obtain ⟨rfl, -⟩ := List.cons.inj hn'
        exact hf
      · rw [hstale hh, List.append_nil]
        exact hframes
  | resume hres => exact absurd hres hk

/-- Code goes on below a site. -/
theorem Framed.goOn (hns : ∃ f ns', ns = f :: ns' ∧ f.IsCode) {st : LuaState} {openList : Bool} {c : CallInfo}
    {cs : List CallInfo} (hlen : st.ci < st.callStack.length) (hchain : st.chain = c :: cs)
    (hfits : Fits K ns (c :: cs) st.counters st.savedThreads p) (hopen : OpenIn K st p) (hco : Coroutines K st)
    (hcalm : Calm K st ns) (hbase : st.base = c.base) (htop : level ns ≤ st.top)
    (hatTop : openList = false → (∃ j ns', ns = .execute j :: ns') → K.atTop c.top st.top) :
    Framed K { st, native := ns, openList } := by
  obtain ⟨f, ns', rfl, hf⟩ := hns
  refine .of_none (p := p) rfl hlen htop ?_ hopen hco hcalm (fun _ => ⟨c, cs, hchain, hbase⟩) ?_ ?_ (by simp)
  · dsimp only
    rw [hchain]
    exact hfits
  · intro hlist hexec c₁ hc₁
    dsimp only at hc₁ ⊢
    rw [hchain] at hc₁
    obtain rfl : c = c₁ := by simpa using hc₁
    exact hatTop hlist hexec
  · intro pos saved k ns'' heq
    obtain ⟨rfl, -⟩ := List.cons.inj heq
    exact hf.elim

/-- The host goes on. -/
theorem Framed.atHost {st : LuaState} {openList : Bool} {cs : List CallInfo} {n : Counters} {ts : List LuaThread}
    (hlen : st.ci < st.callStack.length) (hchain : st.chain = cs) (hfits : Fits K [] cs n ts p)
    (hcount : st.counters = n) (hsaved : st.savedThreads = ts) (hopen : OpenIn K st p) (hco : Coroutines K st)
    (hcalm : Calm K st []) (hstack : K.strict → st.top = 1 ∧ st.base = 1) :
    Framed K { st, native := [], openList } := by
  subst hchain hcount hsaved
  exact .of_none (p := p) rfl hlen (Nat.zero_le _) hfits hopen hco hcalm (by simp) (by simp) (by simp)
    fun hK _ => hstack hK

/-- Bringing back the frame and the counters from before a call. -/
theorem restoreCall_spec {s : LuaState} {c : CallInfo} {cs extra : List CallInfo} {n : Counters}
    (hlen : s.ci < s.callStack.length) (hchain : s.chain = extra ++ c :: cs) (hci : s.ci = extra.length + saved.ci)
    (hsite : SiteOk K ns pos wanted saved k (c :: cs) n) :
    (s.restoreCall saved).chain = c :: cs ∧ (s.restoreCall saved).ci < (s.restoreCall saved).callStack.length ∧
      (s.restoreCall saved).base = c.base ∧ (s.restoreCall saved).counters = n ∧ SameOpen s (s.restoreCall saved) ∧
      (s.restoreCall saved).top = s.top ∧ (s.restoreCall saved).savedThreads = s.savedThreads ∧
      (s.restoreCall saved).gc = s.gc ∧ Calm K (s.restoreCall saved) ns := by
  have hlt : saved.ci < s.callStack.length := by omega
  have hunwind := chain_unwind hlen (j := saved.ci) (by omega) (t := { s with ci := saved.ci }) rfl rfl
  rw [hchain, hci, Nat.add_sub_cancel, List.drop_left] at hunwind
  refine ⟨hunwind, hlt, ?_, hsite.counters_eq, ⟨rfl, fun _ => rfl⟩, rfl, rfl, rfl, ?_⟩
  · change (s.callInfo saved.ci).base = c.base
    have hhead := callInfo_ci (s := { s with ci := saved.ci }) hlt hunwind
    exact congrArg CallInfo.base hhead
  · intro hK hover
    change (if saved.ci < maxCalls then false else s.ciOverflow) = true ∨ maxCalls ≤ saved.ci at hover
    refine hsite.handler hK ?_
    rcases hover with hflag | hle
    · by_contra hlow
      simp [Nat.lt_of_not_le hlow] at hflag
    · exact hle

/-- What a site has of the heap is the heap of the state it takes over. -/
theorem Coroutines.of_gc {s s' : LuaState} (h : Coroutines K s) (hgc : s'.gc = s.gc)
    (hsaved : s'.savedThreads = s.savedThreads) : Coroutines K s' := by
  refine ⟨fun co t ht => h.parked co t (by rw [← hgc]; exact ht), fun hK t ht r hr => ?_⟩
  rw [hsaved] at ht
  rw [hgc]
  exact h.cells hK t ht r hr

/-! ### After a return -/

/-- The state in which the code below a site goes on after a return, where the top of the frame of the site may
    have been changed back. -/
theorem Framed.returnTo (h : Framed K m) (hr : m.raised = none) (hn : m.native = .site pos wanted saved k :: ns)
    (hk : ¬ k.IsResume) (hhandler : ¬ k.IsHandler) (hhost : ¬ k.IsHost) {stack : List Val} {top : ℕ}
    (htop : level ns ≤ top)
    (hatTop : k.AtTop ∨ (∃ ra, k = .tforloop ra) → saved.openList = false → (∃ j ns', ns = .execute j :: ns') →
      ∀ c ∈ m.st.chain.head?, K.atTop c.top top) :
    Framed K { st := { m.st.leaveCount k with stack, top }, native := ns, openList := saved.openList } := by
  obtain ⟨extra, c, cs, p, hat⟩ := h.atSite hn hk
  obtain rfl := hat.extra_nil hr hhandler
  obtain ⟨f, ns', hns, hf, hfrom⟩ := hat.site.code hhost
  obtain ⟨c₁, cs₁, hchain, hbase⟩ := h.base_eq hr (by simp [hn])
  have hchain' := hat.chain_eq
  rw [List.nil_append] at hchain'
  obtain ⟨rfl, rfl⟩ := List.cons.inj (hchain.symm.trans hchain')
  have hcalm : Calm K m.st ns := by
    intro hK hover
    have hin := h.calm (by simp [hr]) hK hover
    rwa [hn, handlerIn_site hk hhandler] at hin
  refine .goOn (p := p) ⟨f, ns', hns, hf⟩ h.ci_lt hchain hat.below ?_ ?_ hcalm hbase htop ?_
  · exact hat.opened.mono fun i hi => hi.resolve_right fun hor => hor.1 hr
  · exact ⟨h.coroutines.parked, h.coroutines.cells⟩
  · rintro hlist ⟨j, ns'', hn'⟩
    refine hatTop ?_ hlist ⟨j, ns'', hn'⟩ c₁ (by simp [hchain])
    refine hfrom.resolve_left fun hrust => ?_
    obtain ⟨rfl, -⟩ := List.cons.inj (hns.symm.trans hn')
    exact hrust

/-- The state in which the code below a hook goes on. -/
theorem Framed.afterHook {savedCiTop : ℕ} {ret : Bool} {c : CallInfo} {cs : List CallInfo} (h : Framed K m)
    (hat : AtSite K m ns pos wanted saved (.hook savedCiTop ret) [] c cs p) (hbase : m.st.base = c.base)
    (hcalm : Calm K m.st ns) (hopen : OpenIn K m.st p) :
    Framed K { st := { (m.st.leaveCount (.hook savedCiTop ret)).setCiTop savedCiTop with top := saved.top }
               native := ns
               openList := saved.openList } := by
  obtain ⟨f, ns', rfl, hf, -⟩ := hat.site.code id
  have hbelow := hat.below
  obtain ⟨c₁, cs₁, heq, hok, -⟩ := hbelow.running hf
  obtain ⟨rfl, rfl⟩ := List.cons.inj heq
  have hle := hat.site.le_ciTop savedCiTop rfl
  rw [level_cons hf] at hle
  have hframe : FrameOk (level ns') { c with top := savedCiTop } := ⟨hok.le_func, hok.func_lt, hle⟩
  obtain ⟨q, hfits, hpq⟩ := hbelow.setHead hf hframe rfl rfl
  have hchain : (m.st.leaveCount (.hook savedCiTop ret)).chain = c :: cs := hat.chain_eq
  refine .goOn (p := q) (c := { c with top := savedCiTop }) ⟨f, ns', rfl, hf⟩ ?_
    (chain_modifyCallInfo h.ci_lt hchain _) hfits (hopen.mono fun i hi => hpq i hi (.inr le_rfl)) ?_ hcalm hbase
    hat.site.le_top ?_
  · change m.st.ci < (m.st.callStack.modify _ _).length
    rw [List.length_modify]
    exact h.ci_lt
  · exact ⟨h.coroutines.parked, h.coroutines.cells⟩
  · exact fun hlist hexec => hat.site.atTop trivial hlist hexec c (by simp)

/-- What is left of the frames of abandoned functions is unwound. -/
theorem AtSite.restored {extra : List CallInfo} {c : CallInfo} {cs : List CallInfo}
    (hat : AtSite K m ns pos wanted saved k extra c cs p) (h : Framed K m) {s : LuaState}
    (hs : s = (m.st.leaveCount k).restoreCall saved) :
    s.chain = c :: cs ∧ s.ci < s.callStack.length ∧ s.base = c.base ∧
      Fits K ns (c :: cs) s.counters s.savedThreads p ∧
      OpenIn K s (fun i => p i ∨ m.raised ≠ none ∧ pos ≤ i) ∧ Coroutines K s ∧ Calm K s ns := by
  subst hs
  obtain ⟨hchain, hlen, hbase, hcount, hopen, -, hsaved, hgc, hcalm⟩ :=
    restoreCall_spec (s := m.st.leaveCount k) h.ci_lt hat.chain_eq hat.length_eq hat.site
  refine ⟨hchain, hlen, hbase, ?_, ?_, h.coroutines.of_gc hgc hsaved, hcalm⟩
  · rw [hcount, hsaved]
    exact hat.below
  · exact OpenIn.congr (s := m.st.leaveCount k) hat.opened hopen hsaved

/-- Code of a library goes on after the frames were unwound. -/
theorem AtSite.recover {extra : List CallInfo} {c : CallInfo} {cs : List CallInfo}
    (hat : AtSite K m ns pos wanted saved k extra c cs p) (h : Framed K m) (hhost : ¬ k.IsHost) (hk : ¬ k.AtTop)
    (hfor : ∀ ra, k ≠ .tforloop ra) {st : LuaState} {openList : Bool}
    (hsame : SameFrames ((m.st.leaveCount k).restoreCall saved) st) (htop : level ns ≤ st.top)
    (hopen : OpenIn K st p) : Framed K { st, native := ns, openList } := by
  obtain ⟨hchain, hlen, hbase, hfits, -, hco, hcalm⟩ := hat.restored h rfl
  obtain ⟨f, ns', hns, hf, hfrom⟩ := hat.site.code hhost
  have hrust : f.IsRust := hfrom.resolve_right (not_or.mpr ⟨hk, fun ⟨ra, hra⟩ => hfor ra hra⟩)
  refine .goOn (p := p) ⟨f, ns', hns, hf⟩ (hsame.ci_lt hlen) (hsame.chain_eq.trans hchain) ?_ hopen
    (hco.congr hsame.toSameCore) (hcalm.congr hsame.ciOverflow hsame.ci.le id) (hsame.base.trans hbase) htop ?_
  · rw [hsame.counters_eq, hsame.savedThreads]
    exact hfits
  · rintro - ⟨j, ns'', hn'⟩
    obtain ⟨rfl, -⟩ := List.cons.inj (hns.symm.trans hn')
    exact hrust.elim

/-- The function called by a site has returned, other than by the end of a coroutine. -/
theorem Framed.siteDone (h : Framed K m) (hr : m.raised = none) (hn : m.native = .site pos wanted saved k :: ns)
    (hk : ¬ k.IsResume) (hok : K.DoneOk m ns saved k) (he : m.siteDone ns pos saved k = some m') : Framed K m' := by
  obtain ⟨extra, c, cs, p, hat⟩ := h.atSite hn hk
  have hsite := hat.site
  have htop : level ns ≤ m.st.top := hsite.le_pos.trans hat.le_top
  have hnil : ¬ k.IsHandler → m.st.chain = c :: cs := fun hh => by rw [hat.chain_eq, hat.extra_nil hr hh, List.nil_append]
  have hopen : OpenIn K m.st p := hat.opened.mono fun i hi => hi.resolve_right fun hor => hor.1 hr
  -- The top of a site of an instruction was where it pushed what it called.
  have hmono : k.AtTop → ∀ top, (∀ a, K.atTop a saved.top → K.atTop a top) → k.ciTop = none →
      saved.openList = false → (∃ j ns', ns = .execute j :: ns') → ¬ k.IsHandler →
      ∀ c ∈ m.st.chain.head?, K.atTop c.top top := by
    intro hkTop top hup hciTop hlist hexec hh c₁ hc₁
    rw [hnil hh] at hc₁
    have hsaved := hsite.atTop hkTop hlist hexec c₁ hc₁
    rw [hciTop] at hsaved
    exact hup _ hsaved
  cases k with
  | tmRes resultReg =>
    cases he
    refine h.returnTo hr hn hk id id htop fun _ hlist hexec => ?_
    refine hmono trivial _ (fun a ha => ?_) rfl hlist hexec id
    exact hok hexec hlist a _ _ ha (hsite.pos_eq trivial ▸ hat.le_top)
  | orderTm =>
    cases he
    refine h.returnTo hr hn hk id id htop fun _ hlist hexec => ?_
    refine hmono trivial _ (fun a ha => ?_) rfl hlist hexec id
    exact hok hexec hlist a _ _ ha (hsite.pos_eq trivial ▸ hat.le_top)
  | tmVoid =>
    cases he
    refine h.returnTo hr hn hk id id htop fun _ hlist hexec => ?_
    have hback : m.st.top = saved.top := by
      rw [← hsite.pos_eq trivial]
      exact h.returned hr pos saved _ ns (hsite.void trivial ▸ hn)
    exact hmono trivial m.st.top (fun a ha => hback ▸ ha) rfl hlist hexec id
  | finalizer =>
    cases he
    refine h.returnTo hr hn hk id id htop fun _ hlist hexec => ?_
    have hback : m.st.top = saved.top := by
      rw [← hsite.pos_eq trivial]
      exact h.returned hr pos saved _ ns (hsite.void trivial ▸ hn)
    exact hmono trivial m.st.top (fun a ha => hback ▸ ha) rfl hlist hexec id
  | callFunction =>
    cases he
    refine h.returnTo hr hn hk id id htop fun hfrom => ?_
    rcases hfrom with hfrom | ⟨ra, hfrom⟩
    · exact hfrom.elim
    · cases hfrom
  | tforloop ra =>
    rw [Control.siteDone] at he
    have hchain := hnil id
    have hcur : (m.st.callInfo m.st.ci).top = c.top := by rw [callInfo_ci h.ci_lt hchain]
    obtain ⟨f, ns', hns, hf, -⟩ := hsite.code id
    have hbelow := hat.below
    rw [hns] at hbelow
    obtain ⟨c₁, cs₁, heq, hframe, -⟩ := hbelow.running hf
    obtain ⟨rfl, rfl⟩ := List.cons.inj heq
    have hle : level ns ≤ c.top := by
      rw [hns, level_cons hf]
      exact hframe.le_top
    have hgo : ∀ stack, Framed K
        { st := { m.st.leaveCount (.tforloop ra) with stack, top := (m.st.callInfo m.st.ci).top }
          native := ns
          openList := saved.openList } := by
      intro stack
      refine h.returnTo hr hn hk id id (hcur ▸ hle) fun _ _ _ c₂ hc₂ => ?_
      rw [hchain] at hc₂
      obtain rfl : c = c₂ := by simpa using hc₂
      rw [hcur]
      exact K.atTop_refl _
    cases he
    split_ifs
    · exact hgo _
    · exact hgo _
  | hook savedCiTop ret =>
    cases he
    obtain ⟨c₁, cs₁, hchain, hbase⟩ := h.base_eq hr (by simp [hn])
    obtain ⟨rfl, rfl⟩ := List.cons.inj (hchain.symm.trans (hnil id))
    obtain rfl := hat.extra_nil hr id
    refine h.afterHook hat hbase ?_ hopen
    intro hK hover
    have hin := h.calm (by simp [hr]) hK hover
    rwa [hn, handlerIn_site hk id] at hin
  | pcall =>
    cases he
    refine h.returnTo hr hn hk id id (htop.trans (Nat.le_succ _)) fun hfrom => ?_
    rcases hfrom with hfrom | ⟨ra, hfrom⟩
    · exact hfrom.elim
    · cases hfrom
  | xpcall =>
    cases he
    refine h.returnTo hr hn hk id id htop fun hfrom => ?_
    rcases hfrom with hfrom | ⟨ra, hfrom⟩
    · exact hfrom.elim
    · cases hfrom
  | handler funcPos =>
    cases he
    exact hat.recover h id id (by simp) (.of_stack _ _ _)
      (hsite.le_floor.trans (Nat.le_add_right funcPos 2)) hopen
  | reader recovers =>
    cases he
    refine h.returnTo hr hn hk id id hsite.le_pos fun hfrom => ?_
    rcases hfrom with hfrom | ⟨ra, hfrom⟩
    · exact hfrom.elim
    · cases hfrom
  | secureRange =>
    cases he
    refine h.returnTo hr hn hk id id hsite.le_pos fun hfrom => ?_
    rcases hfrom with hfrom | ⟨ra, hfrom⟩
    · exact hfrom.elim
    · cases hfrom
  | resume => exact absurd trivial hk
  | exec =>
    cases he
    obtain rfl := hsite.host trivial
    refine .atHost h.ci_lt (hnil id) hat.below rfl rfl hopen ⟨h.coroutines.parked, h.coroutines.cells⟩ ?_ fun hK => ?_
    · intro hK hover
      have hin := h.calm (by simp [hr]) hK hover
      rwa [hn, handlerIn_site hk id] at hin
    · obtain ⟨c₁, cs₁, hchain, hbase⟩ := h.base_eq hr (by simp [hn])
      obtain ⟨rfl, rfl⟩ := List.cons.inj (hchain.symm.trans (hnil id))
      refine ⟨hok hK, ?_⟩
      change m.st.base = 1
      rw [hbase]
      exact K.bottom_base hK hat.below.of_host.1 c₁ (by simp)
  | hostCall traced =>
    cases he
    obtain rfl := hsite.host trivial
    refine .atHost h.ci_lt (hnil id) hat.below rfl rfl hopen ⟨h.coroutines.parked, h.coroutines.cells⟩ ?_ fun hK => ?_
    · intro hK hover
      have hin := h.calm (by simp [hr]) hK hover
      rwa [hn, handlerIn_site hk id] at hin
    · obtain ⟨-, hbase, hpos⟩ := hsite.stack hK trivial
      exact ⟨hpos (by simp), hbase⟩

/-! ### After an error -/

/-- The error goes on below a site. -/
theorem Framed.passOn (h : Framed K m) {err : InFlight} (hr : m.raised = some err)
    (hn : m.native = .site pos wanted saved k :: ns) (hk : ¬ k.IsResume) (hh : ¬ k.IsHandler) :
    Framed K { st := m.st.leaveCount k, native := ns, raised := some err, openList := saved.openList } := by
  obtain ⟨extra, c, cs, p, hat⟩ := h.atSite hn hk
  have htop : level ns ≤ m.st.top := hat.site.le_pos.trans hat.le_top
  have hco : Coroutines K (m.st.leaveCount k) := ⟨h.coroutines.parked, h.coroutines.cells⟩
  have hopen : OpenIn K m.st fun i => p i ∨ level ns ≤ i :=
    hat.opened.mono fun i hi => hi.imp_right fun hle => hat.site.le_pos.trans hle.2
  cases err with
  | error => exact .of_error rfl h.ci_lt htop extra hat.chain_eq hat.below hopen hco
  | yield n =>
    obtain ⟨hzero, hne, hframes⟩ := hat.yielded n hr
    refine ⟨h.ci_lt, htop, ⟨extra, _, p, hat.chain_eq, by simp, fun _ _ => ⟨?_, hframes hh, fun hnil => absurd hnil hne⟩,
      hat.below, hopen.mono fun i hi => hi.imp_right fun hle => ⟨by simp, hle⟩⟩, hco, fun _ => ?_, by simp, by simp,
      by simp, by simp⟩
    · change m.st.nCcalls - k.nCcalls = 0
      omega
    · intro hK hover
      have hin := h.calm (by simp [hr]) hK hover
      rwa [hn, handlerIn_site hk hh] at hin

/-- A site that counts as a native call is not reached by a yield. -/
theorem AtSite.error {extra : List CallInfo} {c : CallInfo} {cs : List CallInfo}
    (hat : AtSite K m ns pos wanted saved k extra c cs p) {err : InFlight} (hr : m.raised = some err)
    (hk : k.nCcalls = 1) : err = .error := by
  cases err with
  | error => rfl
  | yield n =>
    have := (hat.yielded n hr).1
    have := hat.nCcalls
    omega

/-- Intact sites have no frames on top. -/
theorem AtSite.intact {extra : List CallInfo} {c : CallInfo} {cs : List CallInfo}
    (hat : AtSite K m ns pos wanted saved k extra c cs p) (hhost : ¬ k.IsHost) (hi : Intact m.st saved) :
    extra = [] ∧ m.st.base = c.base := by
  obtain ⟨hci, hbase⟩ := hi
  obtain ⟨c₁, cs₁, heq, hsaved⟩ := hat.site.base_eq hhost
  obtain ⟨rfl, rfl⟩ := List.cons.inj heq
  have hlen := hat.length_eq
  exact ⟨List.length_eq_zero_iff.mp (by omega), hbase.trans hsaved⟩

/-- A site that is intact is as calm as it was. -/
theorem AtSite.calm {extra : List CallInfo} {c : CallInfo} {cs : List CallInfo}
    (hat : AtSite K m ns pos wanted saved k extra c cs p) (hci : m.st.ci = saved.ci)
    (hflag : K.strict → m.st.ciOverflow = false) : Calm K m.st ns := by
  intro hK hover
  refine hat.site.handler hK ?_
  rcases hover with hover | hle
  · simp [hflag hK] at hover
  · exact hci ▸ hle

theorem AtSite.noneOpen {extra : List CallInfo} {c : CallInfo} {cs : List CallInfo}
    (hat : AtSite K m ns pos wanted saved k extra c cs p) (hnone : K.strict → NoneOpen m.st pos) : OpenIn K m.st p :=
  hat.opened.noneOpen hnone fun _ hi hlt => hi.resolve_right fun hle => absurd hle.2 (by omega)

theorem OpenIn.closed {s : LuaState} {q : ℕ → Prop} {lo : ℕ} (h : OpenIn K s q)
    (hq : ∀ i, q i → i < lo → p i) : OpenIn K (s.closeUpvalues lo) p := by
  intro hK hsaved
  have hsaved' := (closeUpvalues_sameFrames s lo).savedThreads.symm.trans hsaved
  exact ((h hK hsaved').closeUpvalues lo).mono fun i hi => hq i hi.1 hi.2

/-- An error reaches a site that is not a coroutine's. -/
theorem Framed.siteFailed (h : Framed K m) {err : InFlight} (hr : m.raised = some err)
    (hn : m.native = .site pos wanted saved k :: ns) (hk : ¬ k.IsResume) (hok : K.FailOk m pos saved k) {v : Val}
    (he : m.siteFailed ns pos saved v err k = some m') : Framed K m' := by
  obtain ⟨extra, c, cs, p, hat⟩ := h.atSite hn hk
  have hsite := hat.site
  have htop : level ns ≤ m.st.top := hsite.le_pos.trans hat.le_top
  have hclosed : ∀ {lo}, lo ≤ pos → ∀ i, p i ∨ m.raised ≠ none ∧ pos ≤ i → i < lo → p i :=
    fun hle i hi hlt => hi.resolve_right fun hor => absurd hor.2 (by omega)
  cases k with
  | tmRes | tmVoid | orderTm | callFunction | tforloop =>
    cases he
    exact h.passOn hr hn hk id
  | hook savedCiTop ret =>
    obtain rfl := hat.error hr rfl
    cases he
    cases ret with
    | true =>
      obtain ⟨hintact, hstrict⟩ := hok
      obtain ⟨rfl, hbase⟩ := hat.intact id hintact
      exact h.afterHook hat hbase (hat.calm hintact.1 fun hK => (hstrict hK).2) (hat.noneOpen fun hK => (hstrict hK).1)
    | false =>
      have hle := hsite.le_ciTop savedCiTop rfl
      have hmodify : ∀ {c₁ : CallInfo} {cs₁ : List CallInfo}, m.st.chain = c₁ :: cs₁ →
          ((m.st.leaveCount (.hook savedCiTop false)).setCiTop savedCiTop).chain = { c₁ with top := savedCiTop } :: cs₁ :=
        fun hchain => chain_modifyCallInfo (s := m.st.leaveCount (.hook savedCiTop false)) h.ci_lt hchain _
      have hlen : m.st.ci < (m.st.callStack.modify m.st.ci fun c => { c with top := savedCiTop }).length := by
        rw [List.length_modify]
        exact h.ci_lt
      have hopen : OpenIn K m.st fun i => p i ∨ level ns ≤ i :=
        hat.opened.mono fun i hi => hi.imp_right fun hor => hsite.le_pos.trans hor.2
      cases extra with
      | nil =>
        obtain ⟨f, ns', rfl, hf, -⟩ := hsite.code id
        have hbelow := hat.below
        obtain ⟨c₁, cs₁, heq, hframe, -⟩ := hbelow.running hf
        obtain ⟨rfl, rfl⟩ := List.cons.inj heq
        rw [level_cons hf] at hle
        have hset : FrameOk (level ns') { c with top := savedCiTop } := ⟨hframe.le_func, hframe.func_lt, hle⟩
        obtain ⟨q, hfits, hpq⟩ := hbelow.setHead hf hset rfl rfl
        exact .of_error (p := q) rfl hlen hsite.le_top [] (hmodify hat.chain_eq) hfits
          (hopen.mono fun i hi => hi.imp_left fun hp => hpq i hp (.inr le_rfl))
          ⟨h.coroutines.parked, h.coroutines.cells⟩
      | cons c₁ extra =>
        exact .of_error (p := p) rfl hlen hsite.le_top ({ c₁ with top := savedCiTop } :: extra) (hmodify hat.chain_eq)
          hat.below hopen ⟨h.coroutines.parked, h.coroutines.cells⟩
  | finalizer =>
    obtain rfl := hat.error hr rfl
    cases he
    have hunwind := chain_unwind h.ci_lt (j := saved.ci) (by rw [hat.length_eq]; omega)
      (t := { m.st with ci := saved.ci }) rfl rfl
    rw [hat.chain_eq, hat.length_eq, Nat.add_sub_cancel, List.drop_left] at hunwind
    have hci := hat.length_eq
    have hlt := h.ci_lt
    have hlt' : saved.ci < m.st.callStack.length := by omega
    refine .of_error (p := p) rfl hlt' hsite.le_top [] hunwind hat.below ?_ ⟨h.coroutines.parked, h.coroutines.cells⟩
    exact hat.opened.mono fun i hi => hi.imp_right fun hor => hsite.le_pos.trans hor.2
  | pcall =>
    obtain rfl := hat.error hr rfl
    cases he
    obtain ⟨-, -, -, -, hopen, -, -⟩ := hat.restored h rfl
    refine hat.recover h id id (by simp)
      ((closeUpvalues_sameFrames _ pos).trans (.of_stack _ _ _)) ?_ ?_
    · exact hsite.le_pos.trans (Nat.le_add_right pos 2)
    · exact (hopen.closed (hclosed le_rfl)).congr ⟨rfl, fun _ => rfl⟩ rfl
  | xpcall =>
    obtain rfl := hat.error hr rfl
    rw [Control.siteFailed] at he
    have hclose := closeUpvalues_sameFrames (m.st.leaveCount .xpcall) (pos - 1)
    have hcount := hclose.counters_eq
    have hstage : SameFrames (m.st.leaveCount .xpcall)
        { (((m.st.leaveCount .xpcall).closeUpvalues (pos - 1)).stackSet
            ((m.st.leaveCount .xpcall).closeUpvalues (pos - 1)).top
            (((m.st.leaveCount .xpcall).closeUpvalues (pos - 1)).stackGet (pos - 1))).stackSet
            (((m.st.leaveCount .xpcall).closeUpvalues (pos - 1)).top + 1) v with
          top := ((m.st.leaveCount .xpcall).closeUpvalues (pos - 1)).top + 2 } := hclose.trans (.of_stack _ _ _)
    have hopen : OpenIn K ((m.st.leaveCount .xpcall).closeUpvalues (pos - 1)) p :=
      OpenIn.closed (s := m.st.leaveCount .xpcall) hat.opened (hclosed (Nat.sub_le pos 1))
    have hco : Coroutines K (m.st.leaveCount .xpcall) := ⟨h.coroutines.parked, h.coroutines.cells⟩
    have htop' : ((m.st.leaveCount .xpcall).closeUpvalues (pos - 1)).top = m.st.top := top_closeUpvalues _ _
    refine Framed.enter (p := p) (hstage.ci_lt h.ci_lt) ?_ (hopen.congr ⟨rfl, fun _ => rfl⟩ rfl)
      (hco.congr hstage.toSameCore) ?_ (Nat.lt_add_of_pos_right two_pos) he
    on_goal 2 => exact fun _ _ => trivial
    refine .site extra id (hstage.chain_eq.trans hat.chain_eq) (fun hh => absurd trivial hh) rfl ?_ ?_
    · rw [hstage.counters_eq, htop']
      exact ⟨hsite.ci_eq, hsite.counters_eq, fun _ => hsite.base_eq id, htop, hsite.le_floor, hsite.le_top, by simp [Site.ciTop],
        fun _ => (hsite.code id).imp fun f hf => hf.imp fun ns' hf' => ⟨hf'.1, hf'.2.1, .inl (hf'.2.2.resolve_right
          (not_or.mpr ⟨id, by simp⟩))⟩, fun hh => hh.elim, fun hh => hh.elim, fun hh => hh.elim, fun hh => hh.elim,
        hsite.handler, fun _ hh => hh.elim⟩
    · rw [hstage.counters_eq, hstage.savedThreads]
      exact hat.below
  | handler funcPos =>
    obtain rfl := hat.error hr rfl
    cases he
    obtain ⟨-, -, -, -, hopen, -, -⟩ := hat.restored h rfl
    refine hat.recover h id id (by simp) (.of_stack _ _ _) ?_ ?_
    · exact hsite.le_floor.trans (Nat.le_add_right funcPos 2)
    · exact OpenIn.congr (s := m.st) (hat.noneOpen hok) ⟨rfl, fun _ => rfl⟩ rfl
  | reader recovers =>
    obtain rfl := hat.error hr rfl
    cases recovers with
    | true =>
      cases he
      refine hat.recover h id id (by simp) (.of_stack _ _ _) ?_ ?_
      · exact hsite.le_top.trans (Nat.le_add_right saved.top 2)
      · exact OpenIn.congr (s := m.st) (hat.noneOpen hok) ⟨rfl, fun _ => rfl⟩ rfl
    | false =>
      obtain ⟨hintact, hstrict⟩ := hok
      obtain ⟨rfl, hbase⟩ := hat.intact id hintact
      cases he
      obtain ⟨f, ns', hns, hf, hfrom⟩ := hsite.code id
      refine .goOn (p := p) ⟨f, ns', hns, hf⟩ h.ci_lt hat.chain_eq hat.below ?_
        ⟨h.coroutines.parked, h.coroutines.cells⟩ (hat.calm hintact.1 fun hK => (hstrict hK).2) hbase ?_ ?_
      · exact OpenIn.congr (s := m.st) (hat.noneOpen fun hK => (hstrict hK).1) ⟨rfl, fun _ => rfl⟩ rfl
      · exact htop.trans (Nat.le_add_right m.st.top 2)
      · rintro - ⟨j, ns'', hn'⟩
        obtain ⟨rfl, -⟩ := List.cons.inj (hns.symm.trans hn')
        exact (hfrom.resolve_right (not_or.mpr ⟨id, by simp⟩)).elim
  | secureRange =>
    obtain rfl := hat.error hr rfl
    cases he
    obtain ⟨-, -, hbase, -, hopen, -, -⟩ := hat.restored h rfl
    obtain ⟨c₁, cs₁, heq, hsaved⟩ := hsite.base_eq id
    obtain ⟨rfl, rfl⟩ := List.cons.inj heq
    have hsame : SameFrames ((m.st.leaveCount .secureRange).restoreCall saved)
        { (m.st.leaveCount .secureRange).restoreCall saved with base := saved.base } :=
      ⟨⟨rfl, rfl, rfl, rfl, rfl, fun _ => rfl, fun _ => id⟩, rfl, rfl, hsaved.trans hbase.symm⟩
    refine hat.recover h id id (by simp) ((hsame.trans (closeUpvalues_sameFrames _ pos)).trans (.of_stack _ _ _))
      hsite.le_pos ?_
    refine OpenIn.congr (OpenIn.closed (p := p) ?_ (hclosed (le_refl pos))) ⟨rfl, fun _ => rfl⟩ rfl
    exact hopen.congr ⟨rfl, fun _ => rfl⟩ rfl
  | resume => exact absurd trivial hk
  | exec =>
    obtain ⟨hstrict, hbottom⟩ := hok
    cases he
    obtain rfl := hsite.host trivial
    have hne : m.st.chain ≠ [] := by simp [hat.chain_eq]
    exact .atHost h.ci_lt rfl (.host hbottom hne) rfl hat.below.of_host.2.1 (fun hK => absurd hK hstrict)
      ⟨h.coroutines.parked, h.coroutines.cells⟩ (fun hK => absurd hK hstrict) fun hK => absurd hK hstrict
  | hostCall traced =>
    cases he
    obtain rfl := hsite.host trivial
    have hunwind := chain_unwind h.ci_lt (j := saved.ci) (by rw [hat.length_eq]; omega)
      (t := { m.st with ci := saved.ci }) rfl rfl
    rw [hat.chain_eq, hat.length_eq, Nat.add_sub_cancel, List.drop_left] at hunwind
    have hci := hat.length_eq
    have hlt := h.ci_lt
    have hlt' : saved.ci < m.st.callStack.length := by omega
    have hlow : K.strict → ¬ maxCalls ≤ saved.ci := fun hK hle => hsite.handler hK hle
    have hopen : OpenIn K m.st p := hat.noneOpen fun hK => (hok hK).1
    have hstack : K.strict → pos = 1 ∧ saved.base = 1 := fun hK =>
      ⟨(hsite.stack hK trivial).2.2 (by simp), (hsite.stack hK trivial).2.1⟩
    cases traced with
    | true =>
      refine .atHost hlt' hunwind hat.below rfl rfl hopen ⟨h.coroutines.parked, h.coroutines.cells⟩ ?_ hstack
      intro hK hover
      refine absurd hover (not_or.mpr ⟨?_, hlow hK⟩)
      have hflag := (hok hK).2 rfl
      change ¬ m.st.ciOverflow = true
      simp [hflag]
    | false =>
      refine .atHost hlt' hunwind hat.below rfl rfl hopen ⟨h.coroutines.parked, h.coroutines.cells⟩ ?_ hstack
      intro hK hover
      refine absurd hover (not_or.mpr ⟨?_, hlow hK⟩)
      change ¬ (if saved.ci < maxCalls then false else m.st.ciOverflow) = true
      simp [Nat.lt_of_not_le (hlow hK)]

end Rilua.Vm
