import Rilua.Vm.ControlSites

/-! Every step keeps the frames as the native stack has them: coroutines, the host, and the step lemma. -/

namespace Rilua.Vm

open Lib Gc LuaState

variable {K : FrameSpec} {m m' : Control} {f : ControlFrame} {ns : List ControlFrame} {p : ℕ → Prop} {k : Site}
  {pos : ℕ} {wanted : Option ℕ} {saved : SavedCall}

/-! ### Coroutines -/

/-- The state of a coroutine that is running, and of the thread that has resumed it. -/
theorem Framed.inCoroutine (h : Framed K m) (hn : m.native = .site pos wanted saved k :: ns) (hk : k.IsResume) :
    ∃ extra cs t ts rest p, m.st.chain = extra ++ cs ∧ (m.raised = none → extra = []) ∧
      (∀ n, m.raised = some (.yield n) → extra ≠ [] ∧ ∀ c ∈ extra, FrameOk 0 c) ∧ (∀ c ∈ cs, FrameOk 0 c) ∧ cs ≠ [] ∧
      m.st.nCcalls = 0 ∧ m.st.callDepth = 0 ∧ m.st.savedThreads = t :: ts ∧ pos = 0 ∧ wanted = none ∧
      Waits K ns t.toThreadFields rest ∧ (K.strict → ts = [] → SavedOpen t p) ∧
      Fits K ns rest ⟨t.nCcalls, t.callDepth⟩ ts p := by
  obtain ⟨extra, cs, p, hchain, hextra, hyield, hfits, -⟩ := h.fits
  rw [hn] at hfits
  generalize hcount : m.st.counters = n at hfits
  generalize hts : m.st.savedThreads = ts at hfits
  cases hfits with
  | rust hf => exact hf.elim
  | site _ hres => exact absurd hk hres
  | @resume _ _ _ _ _ _ rest _ t ts q hres hpos hwanted hcs hne hzero ht hopen hbelow =>
    refine ⟨extra, cs, t, ts, rest, q, hchain, hextra, fun n hr => ?_, hcs, hne, ?_, ?_, rfl, hpos, hwanted, ht, hopen,
      hbelow⟩
    · obtain ⟨-, hframes, hrust⟩ := hyield n hr
      refine ⟨fun hnil => ?_, hframes⟩
      obtain ⟨f, ns', hn', hf⟩ := hrust hnil
      rw [hn] at hn'
      obtain ⟨rfl, -⟩ := List.cons.inj hn'
      exact hf
    · exact congrArg Counters.nCcalls (hcount.trans hzero)
    · exact congrArg Counters.callDepth (hcount.trans hzero)

/-- A running coroutine is left, for the thread that has resumed it. -/
theorem Framed.leaveCoroutine (h : Framed K m) (hn : m.native = .site pos wanted saved k :: ns) (hk : k.IsResume)
    {co : GcRef .thread} {caller : Option (GcRef .thread)} {status : ThreadStatus} {raised : Option InFlight}
    (hraised : raised = none ∨ raised = some .error)
    (hstatus : status = .dead ∨ status = .suspended ∧ ∃ n, m.raised = some (.yield n))
    (he : m.leaveCoroutine ns co caller status raised = some m') : Framed K m' := by
  obtain ⟨extra, cs, t, ts, rest, p, hchain, -, hyield, hcs, hne, hcalls, hdepth, hsaved, -, -, ht, hopen, hbelow⟩ :=
    h.inCoroutine hn hk
  obtain ⟨st, hout, rfl⟩ := Option.map_eq_some_iff.mp he
  obtain ⟨resumer, ts', hsaved', hruns, hts, hcells, hthreads⟩ := swapOut_spec hout
  obtain ⟨rfl, rfl⟩ := List.cons.inj (hsaved.symm.trans hsaved')
  obtain ⟨c, cs', rfl, hbase⟩ := ht.base_eq
  have hlen : st.ci < st.callStack.length := by
    rw [hruns.ci, hruns.callStack]
    exact ht.ci_lt
  have hchain' : st.chain = c :: cs' := by
    rw [← ht.chain_eq, chain, ThreadFields.chain, hruns.ci, hruns.callStack]
  have hfits : Fits K ns (c :: cs') st.counters st.savedThreads p := by
    rw [hts, counters, hruns.nCcalls, hruns.callDepth]
    exact hbelow
  have htop : level ns ≤ st.top := by
    rw [hruns.top]
    exact ht.le_top
  have hopen' : OpenIn K st p := by
    intro hK hnil
    have hlast : t ∈ m.st.savedThreads.getLast? := by
      rw [hsaved, ← hts, hnil]
      rfl
    exact (hopen hK (hts.symm.trans hnil)).swapOut hsaved (h.coroutines.cells hK t hlast) hout
  have hco : Coroutines K st := by
    refine ⟨fun co' t' ht' hst => ?_, fun hK t' ht' r hr => ?_⟩
    · rw [hthreads co'] at ht'
      split_ifs at ht' with heq
      · obtain ⟨t₀, -, rfl⟩ := Option.map_eq_some_iff.mp ht'
        rcases hstatus with rfl | ⟨rfl, n, hr⟩
        · simp at hst
        · obtain ⟨hextra, hframes⟩ := hyield n hr
          have hlength := length_chain h.ci_lt
          rw [hchain, List.length_append] at hlength
          have hpos₁ := List.length_pos_of_ne_nil hextra
          have hpos₂ := List.length_pos_of_ne_nil hne
          refine ⟨h.ci_lt, fun c' hc' => ?_, hcalls, hdepth, by simp, fun _ => by dsimp only; omega, fun hK => ?_⟩
          · have hmem : c' ∈ extra ++ cs := hchain ▸ hc'
            rcases List.mem_append.mp hmem with hmem | hmem
            · exact hframes c' hmem
            · exact hcs c' hmem
          · have hcalm : ¬ (m.st.ciOverflow = true ∨ maxCalls ≤ m.st.ci) := by
              intro hover
              have hin := h.calm (by simp [hr]) hK hover
              rw [hn] at hin
              cases k with
              | resume => exact hin
              | _ => exact hk.elim
            obtain ⟨hflag, hle⟩ := not_or.mp hcalm
            exact ⟨by simpa using hflag, Nat.lt_of_not_le hle⟩
      · exact h.coroutines.parked co' t' ht' hst
    · refine hcells r (h.coroutines.cells hK t' ?_ r hr)
      rw [hts] at ht'
      rw [hsaved]
      exact List.mem_getLast?_cons ht'
  have hcalm : Calm K st ns := by
    intro hK hover
    rw [hruns.ciOverflow, hruns.ci] at hover
    exact ht.handler hK hover
  rcases hraised with rfl | rfl
  · obtain ⟨f, ns', hns, hf⟩ := ht.rust
    refine .goOn (p := p) ⟨f, ns', hns, hf.isCode⟩ hlen hchain' hfits hopen' hco hcalm (hruns.base.trans hbase) htop ?_
    rintro - ⟨j, ns'', hn'⟩
    obtain ⟨rfl, -⟩ := List.cons.inj (hns.symm.trans hn')
    exact hf.elim
  · exact .of_error (p := p) rfl hlen htop [] hchain' hfits (hopen'.mono fun i => .inl) hco

/-- A frame of a coroutine has returned, and the one below goes on. -/
theorem Framed.loop (h : Framed K m) (hr : m.raised = none) (hn : m.native = .site pos wanted saved k :: ns)
    (hk : k.IsResume) (hloops : k.Loops) (hci : 0 < m.st.ci)
    (hatTop : m.openList = false → ∀ c ∈ m.st.chain.head?, K.atTop c.top m.st.top) :
    Framed K { m with native := .execute 1 :: m.native } := by
  obtain ⟨extra, cs, t, ts, rest, p, hchain, hextra, -, hcs, -, hcalls, hdepth, hsaved, rfl, hwanted, ht, hopen, hbelow⟩ :=
    h.inCoroutine hn hk
  obtain rfl := hextra hr
  rw [List.nil_append] at hchain
  have hlength := length_chain h.ci_lt
  obtain ⟨c, cs', hchain', hbase⟩ := h.base_eq hr (by simp [hn])
  rw [hchain', List.length_cons] at hlength
  obtain rfl : cs = c :: cs' := hchain.symm.trans hchain'
  have hne : cs' ≠ [] := by
    rintro rfl
    simp at hlength
    omega
  have hcounters : m.st.counters = ⟨0, 0⟩ := by rw [counters, hcalls, hdepth]
  have hsite : Fits K m.native cs' m.st.counters m.st.savedThreads fun _ => False := by
    rw [hn, hsaved, hcounters]
    exact .resume hk rfl hwanted (fun c' hc' => hcs c' (List.mem_cons_of_mem _ hc')) hne rfl ht hopen hbelow
  refine .of_none (p := fun i => (∃ f ∈ [c], f.base ≤ i) ∨ False) hr h.ci_lt ?_ ?_ ?_ h.coroutines
    (h.calm (by simp [hr])) (fun _ => ⟨c, cs', hchain', hbase⟩) (fun hlist _ => hatTop hlist) (by simp) (by simp)
  · have hlevel := h.level_le
    exact hlevel
  · refine .execute [] hchain' rfl (by simp) ?_ ?_ (fun _ => Iff.rfl) hsite
    · rw [hn]
      exact hcs c List.mem_cons_self
    · rw [hn]
      exact fun hnot => absurd hloops hnot
  · intro _ hnil
    simp [hsaved] at hnil

/-- `auxresume`. -/
theorem Framed.auxresume (h : Framed K m) (hr : m.raised = none) (hn : m.native = f :: ns) (hf : f.IsRust)
    {co : GcRef .thread} {args : List Val} {wrap : Bool} (he : m.auxresume co args wrap = some m') : Framed K m' := by
  obtain ⟨c, cs, p, hchain, hbase, hok, -, hfits, hopen⟩ := h.running hr hn hf.isCode
  have hnot : ∀ {m₁}, some (if wrap then m.raise else m) = some m₁ → Framed K m₁ := by
    intro m₁ hm
    cases hm
    split_ifs
    · exact h.raise hr
    · exact h
  have hlevel := h.level_le_top hn hf.isCode
  rw [Control.auxresume] at he
  cases hget : m.st.gc.heap.get co with
  | none =>
    rw [hget] at he
    exact hnot he
  | some t =>
    rw [hget] at he
    obtain ⟨hruns, ⟨resumer, hfields, hpairs, hsaved⟩, hcells, hthreads⟩ := swapIn_spec hget
    have hwaits : Waits K m.native resumer.toThreadFields m.st.chain := by
      rw [hfields]
      refine ⟨h.ci_lt, rfl, ⟨c, cs, hchain, hbase⟩, ?_, ⟨f, ns, hn, hf⟩, fun hK hover => h.calm (by simp [hr]) hK hover⟩
      rw [hn, level_cons hf.isCode]
      exact hlevel
    have hsavedOpen : K.strict → m.st.savedThreads = [] → SavedOpen resumer p := fun hK hnil =>
      (hopen hK hnil).saved hfields hpairs
    have hbelow : Fits K m.native m.st.chain ⟨resumer.nCcalls, resumer.callDepth⟩ m.st.savedThreads p := by
      rw [hn, hchain, hfields]
      exact hfits
    have hco : Coroutines K (m.st.swapIn co) := by
      refine ⟨fun co' t' ht' hst => ?_, fun hK t' ht' r hmem => hcells r ?_⟩
      · rw [hthreads co'] at ht'
        split_ifs at ht' with heq
        · obtain rfl := Option.some.inj ht'
          simp [shell] at hst
        · exact h.coroutines.parked co' t' ht' hst
      · rw [hsaved] at ht'
        cases hts : m.st.savedThreads with
        | nil =>
          rw [hts] at ht'
          obtain rfl : resumer = t' := by simpa using ht'
          rw [hfields] at hmem
          exact (hopen hK hts).cells r hmem
        | cons t₀ ts =>
          refine h.coroutines.cells hK t' ?_ r hmem
          rw [hts] at ht' ⊢
          rwa [List.getLast?_cons_cons] at ht'
    have hvacuous : ∀ q, OpenIn K (m.st.swapIn co) q := by
      intro q _ hnil
      rw [hsaved] at hnil
      cases hnil
    have hfits' : ∀ (k : Site) (cs : List CallInfo) (n : Counters), k.IsResume → (∀ c ∈ cs, FrameOk 0 c) → cs ≠ [] →
        n = ⟨0, 0⟩ → Fits K (.site 0 none m.save k :: m.native) cs n (m.st.swapIn co).savedThreads fun _ => False := by
      intro k cs n hk hcs hne hzero
      rw [hsaved]
      exact .resume hk rfl rfl hcs hne hzero hwaits hsavedOpen hbelow
    have hchain' : (m.st.swapIn co).chain = (t : LuaThread).chain := by
      rw [chain, ThreadFields.chain, hruns.ci, hruns.callStack]
    have hlive : Parked K t → (m.st.swapIn co).ci < (m.st.swapIn co).callStack.length ∧
        (m.st.swapIn co).counters = ⟨0, 0⟩ ∧ ∀ native, Calm K (m.st.swapIn co) native := by
      intro ht
      refine ⟨?_, ?_, fun native hK hover => ?_⟩
      · rw [hruns.ci, hruns.callStack]
        exact ht.ci_lt
      · rw [counters, hruns.nCcalls, hruns.callDepth, ht.nCcalls, ht.callDepth]
      · rw [hruns.ciOverflow, hruns.ci] at hover
        obtain ⟨hflag, hlt⟩ := ht.calm hK
        rcases hover with hover | hle
        · simp [hflag] at hover
        · omega
    dsimp only at he
    cases hstatus : (t : LuaThread).status with
    | initial =>
      rw [hstatus] at he
      have ht := h.coroutines.parked co t hget (.inl hstatus)
      obtain ⟨hlen, hzero, hcalm⟩ := hlive ht
      have hpush := SameFrames.pushAll args (m.st.swapIn co)
      have hne : (m.st.swapIn co).chain ≠ [] := by
        intro hnil
        have hlength := length_chain hlen
        simp [hnil] at hlength
      refine Framed.enter (p := fun _ => False) (hpush.ci_lt hlen) ?_ ?_ (hco.congr hpush.toSameCore) ?_ ?_ he
      · dsimp only
        rw [hpush.chain_eq, hpush.counters_eq, hpush.savedThreads, hzero]
        refine hfits' _ _ _ trivial (fun c' hc' => ?_) hne rfl
        rw [hchain'] at hc'
        exact ht.frames c' hc'
      · exact (hvacuous _).congr (.pushAll _ _) hpush.savedThreads
      · exact (hcalm _).congr hpush.ciOverflow hpush.ci.le id
      · dsimp only
        rw [top_pushAll, hruns.top]
        exact (ht.top_pos hstatus).trans_le (Nat.le_add_right ..)
    | suspended =>
      rw [hstatus] at he
      have ht := h.coroutines.parked co t hget (.inr hstatus)
      obtain ⟨hlen, hzero, hcalm⟩ := hlive ht
      have hci := ht.ci_pos hstatus
      rw [← hruns.ci] at hci
      obtain ⟨c₁, c₂, cs', hcs⟩ : ∃ c₁ c₂ cs', (m.st.swapIn co).chain = c₁ :: c₂ :: cs' := by
        have hlength := length_chain hlen
        cases hcase : (m.st.swapIn co).chain with
        | nil => simp [hcase] at hlength
        | cons c₁ cs₁ =>
          cases cs₁ with
          | nil =>
            rw [hcase] at hlength
            simp at hlength
            omega
          | cons c₂ cs' => exact ⟨c₁, c₂, cs', rfl⟩
      have hframes : ∀ c' ∈ c₁ :: c₂ :: cs', FrameOk 0 c' := fun c' hc' =>
        ht.frames c' (hchain' ▸ hcs.symm ▸ hc')
      obtain ⟨hpop, -⟩ := poscall_poppedFrame
        (s := { m.st.swapIn co with
          stack := putAll .nil (m.st.swapIn co).stack (m.st.swapIn co).base args
          top := (m.st.swapIn co).base + args.length }) (m.st.swapIn co).base hlen hcs
      have hpopci := hpop.ci_eq hlen hcs
      simp only [Option.some.injEq] at he
      subst he
      refine hpop.framed (p := fun _ => False) (by omega) ⟨hco.parked, hco.cells⟩ (hcalm _) ?_ ?_ (Nat.zero_le _) _ _
        (by simp) (fun _ => Nat.zero_le _) (by simp) (by simp)
      · refine hfits' _ _ _ trivial (fun c' hc' => hframes c' (List.mem_cons_of_mem _ hc')) (by simp) hzero
      · exact hvacuous _
    | running =>
      rw [hstatus] at he
      exact hnot he
    | normal =>
      rw [hstatus] at he
      exact hnot he
    | dead =>
      rw [hstatus] at he
      exact hnot he

/-! ### The steps -/

/-- The heap keeps its coroutines and upvalues, or collects them, but not the upvalues that are open or will be open
    again, and a new upvalue is closed. -/
structure HeapOk (s : LuaState) (g : Gc) : Prop where
  threads : ∀ (co : GcRef .thread) (t : LuaThread), g.heap.get co = some t → s.gc.heap.get co = some t
  upvalues : ∀ (r : GcRef .upvalue) (uv : Upvalue), s.gc.heap.get r = some uv →
    g.heap.get r = some uv ∨ g.heap.get r = none
  fresh : ∀ (r : GcRef .upvalue) (uv : Upvalue), s.gc.heap.get r = none → g.heap.get r = some uv →
    uv.stackIndex = none
  opened : ∀ r ∈ s.openUpvalues, (g.heap.get r).isSome
  saved : ∀ t ∈ s.savedThreads, ∀ r ∈ t.openUpvalues, (g.heap.get r).isSome

namespace Control

/-- What the code that runs does: an instruction takes the values up to the top if and only if they are an open
    list, and the heap is what the collector and the library leave of it. -/
def Sound (m : Control) : ControlOp → Prop
  | .heap g => HeapOk m.st g
  | .call _ a b _ | .tailCall _ a b => (b = 0 ↔ m.openList = true) ∧ (b = 0 → m.st.base + a < m.st.top)
  | .ret _ b | .setList b | .returnHook (some (_, b)) _ => b = 0 ↔ m.openList = true
  | .varArg .. | .tforloop .. | .capture _ | .close _ | .tmRes .. | .tmVoid .. | .orderTm .. => m.openList = false
  | _ => True

/-- Whether a step that does not change the heap is sound. -/
def soundCheck (m : Control) : ControlOp → Bool
  | .heap _ => false
  | .call _ a b _ | .tailCall _ a b => (b = 0) = m.openList && (b ≠ 0 || m.st.base + a < m.st.top)
  | .ret _ b | .setList b | .returnHook (some (_, b)) _ => (b = 0) = m.openList
  | .varArg .. | .tforloop .. | .capture _ | .close _ | .tmRes .. | .tmVoid .. | .orderTm .. => !m.openList
  | _ => true

theorem sound_of_check {m : Control} {op : ControlOp} (h : m.soundCheck op = true) : m.Sound op := by
  have hiff : ∀ b : ℕ, decide (b = 0) = m.openList → (b = 0 ↔ m.openList = true) := by
    intro b hb
    rw [← hb, decide_eq_true_iff]
  have hcall : ∀ a b : ℕ, ((b = 0) = m.openList && (b ≠ 0 || m.st.base + a < m.st.top)) = true →
      (b = 0 ↔ m.openList = true) ∧ (b = 0 → m.st.base + a < m.st.top) := by
    intro a b hb
    obtain ⟨hlist, hlt⟩ := Bool.and_eq_true_iff.mp hb
    exact ⟨hiff b (by simpa using hlist), fun hzero => by simpa [hzero] using hlt⟩
  cases op with
  | heap => simp [soundCheck] at h
  | call pc a b c => exact hcall a b h
  | tailCall pc a b => exact hcall a b h
  | ret a b => exact hiff b (by simpa [soundCheck] using h)
  | setList b => exact hiff b (by simpa [soundCheck] using h)
  | returnHook instr event =>
    cases instr with
    | none => exact trivial
    | some x => exact hiff x.2 (by simpa [soundCheck] using h)
  | varArg | tforloop | capture | close | tmRes | tmVoid | orderTm =>
    have hlist : (!m.openList) = true := h
    exact (Bool.not_eq_true' _).mp hlist
  | _ => exact trivial

end Control

/-- The step keeps the invariant. -/
def FrameSpec.Allows (K : FrameSpec) (m : Control) (op : ControlOp) : Prop :=
  m.Sound op ∧
    match m.raised, m.native, op with
    | none, .site _ _ saved k :: ns, .done => K.DoneOk m ns saved k
    | some _, .site pos _ saved k :: _, .unwind _ => K.FailOk m pos saved k
    | _, _, _ => True

theorem OpenIn.heap {s : LuaState} {g : Gc} (h : OpenIn K s p) (hg : HeapOk s g) : OpenIn K { s with gc := g } p := by
  intro hK hsaved
  refine (h hK hsaved).congr rfl fun r hr => ?_
  obtain ⟨uv, huv⟩ := Option.isSome_iff_exists.mp ((h hK hsaved).cells r hr)
  have hkept := (hg.upvalues r uv huv).resolve_right (Option.isSome_iff_ne_none.mp (hg.opened r hr))
  change (g.heap.get r).bind Upvalue.stackIndex = (s.gc.heap.get r).bind Upvalue.stackIndex
  rw [hkept, huv]

theorem Coroutines.heap {s : LuaState} {g : Gc} (h : Coroutines K s) (hg : HeapOk s g) :
    Coroutines K { s with gc := g } :=
  ⟨fun co t ht => h.parked co t (hg.threads co t ht),
    fun _ t ht => hg.saved t (List.mem_of_getLast? ht)⟩

theorem OpenIn.setUpvalue {s : LuaState} (h : OpenIn K s p) (r : GcRef .upvalue) (v : Val) :
    OpenIn K (s.setUpvalue r v) p := by
  intro hK hsaved
  rw [LuaState.setUpvalue] at hsaved ⊢
  cases hget : s.gc.heap.get r with
  | none =>
    rw [hget] at hsaved
    exact h hK hsaved
  | some uv =>
    rw [hget] at hsaved
    refine (h hK hsaved).congr rfl fun r' _ => ?_
    change ((s.gc.modify r _).heap.get r').bind Upvalue.stackIndex = (s.gc.heap.get r').bind Upvalue.stackIndex
    rw [get_modify]
    split_ifs with heq
    · subst heq
      rw [hget]
      obtain ⟨i | v'⟩ := (uv : Upvalue)
      · rfl
      · rfl
    · rfl

/-- A step of the host. -/
theorem Framed.hostStep (h : Framed K m) (hr : m.raised = none) (hn : m.native = []) {op : ControlOp}
    (hok : m.Sound op) (he : m.hostStep op = some m') : Framed K m' := by
  obtain ⟨p, hfits, hopen⟩ := h.fits_of_none hr
  rw [hn] at hfits
  have hcalm := h.calm (by simp [hr])
  rw [hn] at hcalm
  have hlength := length_chain h.ci_lt
  have hsite : ∀ {k : Site} {pos : ℕ}, k.IsHost → (K.strict → k ≠ .exec → pos = 1) →
      SiteOk K m.native pos none m.save k m.st.chain m.st.counters := by
    intro k pos hk hpos
    have hnot : ¬ k.AtTop ∧ ¬ k.IsVoid ∧ k.ciTop = none := by
      cases k with
      | exec => exact ⟨id, id, rfl⟩
      | hostCall => exact ⟨id, id, rfl⟩
      | _ => exact hk.elim
    rw [hn]
    exact ⟨hlength.symm, rfl, fun hh => absurd hk hh, Nat.zero_le _, Nat.zero_le _, Nat.zero_le _, by simp [hnot.2.2],
      fun hh => absurd hk hh, fun _ => rfl, fun hh => absurd hh hnot.2.1, fun hh => absurd hh hnot.1,
      fun hh => absurd hh hnot.1, fun hK hle => hcalm hK (.inr hle),
      fun hK _ => ⟨(h.stack hK hr hn).1, (h.stack hK hr hn).2, hpos hK⟩⟩
  cases op with
  | heap g =>
    cases he
    refine .of_none (p := p) hr h.ci_lt h.level_le (hn ▸ hfits) (hopen.heap hok) (h.coroutines.heap hok) (hn ▸ hcalm)
      (fun hne => absurd hn hne) ?_ ?_ fun hK hn' => h.stack hK hr hn'
    · rintro - ⟨k, ns, hn'⟩
      simp [hn] at hn'
    · intro pos saved k ns hn'
      simp [hn] at hn'
  | exec main =>
    rw [Control.hostStep] at he
    refine Framed.enter (p := p) (m := { m with st := { m.st.stackSet 0 main with top := 1, base := 1 } }) h.ci_lt ?_
      (hopen.congr ⟨rfl, fun _ => rfl⟩ rfl) ⟨h.coroutines.parked, h.coroutines.cells⟩ ?_ Nat.zero_lt_one he
    · exact .site [] id rfl (fun _ => rfl) rfl (hsite trivial fun _ hne => absurd rfl hne) (hn ▸ hfits)
    · intro hK hover
      exact (hcalm hK hover).elim
  | hostCall traced func args =>
    rw [Control.hostStep] at he
    have hpush := SameFrames.pushAll (func :: args) m.st
    refine Framed.enter (p := p) (m := { m with st := { m.st.pushAll (func :: args) with base := m.st.top + 1 } })
      (hpush.ci_lt h.ci_lt) ?_ ?_ ?_ ?_ ?_ he
    · change Fits K (_ :: m.native) (m.st.pushAll (func :: args)).chain
        ((Site.hostCall traced).count (m.st.pushAll (func :: args)).counters)
        (m.st.pushAll (func :: args)).savedThreads p
      rw [hpush.chain_eq, hpush.counters_eq, hpush.savedThreads]
      exact .site [] id rfl (fun _ => rfl) rfl (hsite trivial fun hK _ => (h.stack hK hr hn).1) (hn ▸ hfits)
    · exact (hopen.congr (.pushAll _ _) hpush.savedThreads).congr ⟨rfl, fun _ => rfl⟩ rfl
    · exact (h.coroutines.congr hpush.toSameCore).of_gc rfl rfl
    · intro hK hover
      change (m.st.pushAll (func :: args)).ciOverflow = true ∨ maxCalls ≤ (m.st.pushAll (func :: args)).ci at hover
      rw [hpush.ciOverflow, hpush.ci] at hover
      exact (hcalm hK hover).elim
    · change m.st.top < (m.st.pushAll (func :: args)).top
      rw [top_pushAll, List.length_cons]
      omega
  | _ => cases he

/-- A hook. -/
theorem Framed.callHook (h : Framed K m) (hr : m.raised = none) (hn : m.native = f :: ns) (hf : f.IsCode)
    {v : Val} {vs : List Val} {ret : Bool}
    (he : ({ m with st := m.st.setCiTop (m.st.top + luaMinStack) } : Control).callAtTop
      (.hook (m.st.callInfo m.st.ci).top ret) (v :: vs) (some 0) = some m') : Framed K m' := by
  obtain ⟨c, cs, p, hchain, -, hok, -, -, -⟩ := h.running hr hn hf
  have hcur : (m.st.callInfo m.st.ci).top = c.top := by rw [callInfo_ci h.ci_lt hchain]
  have hlevel := h.level_le_top hn hf
  have hset : SameRest m.st (m.st.setCiTop (m.st.top + luaMinStack)) := .of_heap rfl rfl
  have hlen : (m.st.setCiTop (m.st.top + luaMinStack)).ci < (m.st.setCiTop (m.st.top + luaMinStack)).callStack.length := by
    change m.st.ci < (m.st.callStack.modify _ _).length
    rw [List.length_modify]
    exact h.ci_lt
  have hpush := SameFrames.pushAll (v :: vs) (m.st.setCiTop (m.st.top + luaMinStack))
  rw [hcur] at he
  refine h.callSite (k := .hook c.top ret) hr hn hf ((m.st.setCiTop (m.st.top + luaMinStack)).pushAll (v :: vs)) hchain
    (hset.toSameCore.trans hpush.toSameCore) (hset.toSameOpen.trans (.pushAll _ _)) hpush.ci (hpush.ci_lt hlen)
    (hpush.chain_eq.trans (chain_modifyCallInfo h.ci_lt hchain _)) (hlevel.trans (Nat.le_add_right _ _)) rfl rfl rfl id id
    (.inr (.inl trivial)) (fun hh => hh.elim) hlevel hlevel ?_ ?_ m.save rfl hlevel (fun _ => rfl) ?_ he
  · rw [top_pushAll, List.length_cons]
    change m.st.top < m.st.top + _
    omega
  · intro t ht
    obtain rfl : c.top = t := by simpa [Site.ciTop] using ht
    exact hok.le_top
  · rintro - hlist ⟨j, rfl⟩
    exact h.atTop hr hlist ⟨j, ns, hn⟩ c (by simp [hchain])

/-- A step that Lua code and native code have in common. -/
theorem Framed.commonStep (h : Framed K m) (hr : m.raised = none) (hn : m.native = f :: ns) (hf : f.IsCode)
    {op : ControlOp} (hok : m.Sound op) (he : m.commonStep op = some m') : Framed K m' := by
  have hlevel := h.level_le_top hn hf
  have hatTop : m.openList = false → (∃ k, f = .execute k) → ∀ c ∈ m.st.chain.head?, K.atTop c.top m.st.top :=
    fun hlist ⟨k, hk⟩ => h.atTop hr hlist ⟨k, ns, hk ▸ hn⟩
  cases op with
  | write i v =>
    cases he
    exact h.keep hr hn hf (.stackSet _ _ _) hlevel (fun p _ hopen => hopen.congr ⟨rfl, fun _ => rfl⟩ rfl) hatTop
  | heap g =>
    cases he
    exact h.stay hr hn hf rfl rfl rfl rfl rfl rfl (h.coroutines.heap hok) hlevel (fun p _ hopen => hopen.heap hok) hatTop
  | setUpval r v =>
    cases he
    obtain ⟨hsame, htop⟩ := setUpvalue_sameFrames m.st r v
    refine h.keep hr hn hf hsame (htop ▸ hlevel) (fun p _ hopen => hopen.setUpvalue r v) ?_
    rw [htop]
    exact hatTop
  | fail =>
    cases he
    exact h.raise hr
  | hook event line => exact h.callHook hr hn hf he
  | finalizer gcFn ud =>
    exact h.callAtTop (k := .finalizer) hr hn hf id id (.inr trivial) rfl rfl (fun _ => rfl) he
  | _ => cases he

/-- Everything up to the top is an open list, and the upvalues of the frame are closed. -/
theorem Framed.openReturn {n : ℕ} (h : Framed K m) (hr : m.raised = none) (hn : m.native = .execute n :: ns)
    (a b : ℕ) : Framed K { m with st := m.st.openReturn a b, openList := true } := by
  obtain ⟨c, cs, p, hchain, hbase, hok, -, -, -⟩ := h.running hr hn trivial
  obtain ⟨hsame, hopened, htop⟩ := openReturn_spec m.st a b
  have hlevel := h.level_le_top hn trivial
  refine h.keep hr hn trivial hsame ?_ (fun q _ hopen => ?_) (by simp)
  · have := hok.le_func
    have := hok.func_lt
    rw [htop]
    split_ifs
    · omega
    · exact hlevel
  · have hclosed : OpenIn K (m.st.closeUpvalues m.st.base) q := hopen.closed fun i hi _ => hi
    exact hclosed.congr hopened (hsame.savedThreads.trans (closeUpvalues_sameFrames m.st m.st.base).savedThreads.symm)

/-- `VARARG` writes registers, and sets the top if all values are wanted. -/
theorem opVarArg_spec (s : LuaState) (proto : Proto) (a b : ℕ) :
    SameFrames s (s.opVarArg proto a b) ∧ SameOpen s (s.opVarArg proto a b) ∧
      (if b = 0 then s.base ≤ (s.opVarArg proto a b).top else (s.opVarArg proto a b).top = s.top) := by
  have hcopy : ∀ (n src dst avail : ℕ) (t : LuaState), SameFrames t (copyVarargs n src dst avail t) ∧
      SameOpen t (copyVarargs n src dst avail t) ∧ (copyVarargs n src dst avail t).top = t.top := by
    intro n
    induction n with
    | zero => exact fun _ _ _ t => ⟨.refl t, .refl t, rfl⟩
    | succ n ih =>
      intro src dst avail t
      obtain ⟨hsame, hopen, htop⟩ := ih (src + 1) (dst + 1) (avail - 1)
        (t.stackSet dst (if 0 < avail then t.stackGet src else .nil))
      have hset : SameOpen t (t.stackSet dst (if 0 < avail then t.stackGet src else .nil)) := ⟨rfl, fun _ => rfl⟩
      exact ⟨(SameFrames.stackSet t _ _).trans hsame, hset.trans hopen, htop⟩
  have hgrow : ∀ n, SameFrames s (s.ensureStackLen n) ∧ SameOpen s (s.ensureStackLen n) :=
    fun _ => ⟨.of_stack _ _ _, rfl, fun _ => rfl⟩
  rw [opVarArg]
  split_ifs with hb
  · obtain ⟨hsame, hopen, -⟩ := hcopy (s.base - ((s.callInfo s.ci).func + 1 + proto.numParams.toNat))
      ((s.callInfo s.ci).func + 1 + proto.numParams.toNat) (s.base + a)
      (s.base - ((s.callInfo s.ci).func + 1 + proto.numParams.toNat))
      (s.ensureStackLen (s.top + (s.base + a + (s.base - ((s.callInfo s.ci).func + 1 + proto.numParams.toNat)))))
    refine ⟨((hgrow _).1.trans hsame).trans (.of_stack _ _ _), ((hgrow _).2.trans hopen).trans ⟨rfl, fun _ => rfl⟩, ?_⟩
    change s.base ≤ s.base + a + _
    omega
  · obtain ⟨hsame, hopen, htop⟩ := hcopy (b - 1) ((s.callInfo s.ci).func + 1 + proto.numParams.toNat) (s.base + a)
      (s.base - ((s.callInfo s.ci).func + 1 + proto.numParams.toNat))
      (s.ensureStackLen (s.top + (s.base + a + (b - 1))))
    exact ⟨(hgrow _).1.trans hsame, (hgrow _).2.trans hopen, htop⟩

/-- The copies that `TFORLOOP` makes. -/
theorem openIterator_spec {s : LuaState} {c : CallInfo} {cs : List CallInfo} (hci : s.ci < s.callStack.length)
    (hchain : s.chain = c :: cs) (pc ra : ℕ) :
    SameRest s (s.openIterator pc ra) ∧ (s.openIterator pc ra).ci = s.ci ∧
      (s.openIterator pc ra).ci < (s.openIterator pc ra).callStack.length ∧
      (s.openIterator pc ra).chain = { c with savedPc := pc } :: cs ∧ (s.openIterator pc ra).top = ra + 3 + 3 := by
  refine ⟨.of_heap rfl rfl, rfl, ?_, ?_, rfl⟩
  · change s.ci < (s.callStack.modify _ _).length
    rw [List.length_modify]
    exact hci
  · rw [openIterator]
    exact chain_modifyCallInfo (s := { (((s.stackSet (ra + 3 + 2) (s.stackGet (ra + 2))).stackSet (ra + 3 + 1) _).stackSet
      (ra + 3) _) with top := ra + 3 + 3 }) hci hchain _

/-- A step of the interpreter loop. -/
theorem Framed.luaStep {n : ℕ} (h : Framed K m) (hr : m.raised = none) (hn : m.native = .execute n :: ns)
    {op : ControlOp} (hok : m.Sound op) (he : m.luaStep n ns op = some m') : Framed K m' := by
  obtain ⟨c, cs, p, hchain, hbase, hframe, -, -, -⟩ := h.running hr hn trivial
  have hlevel := h.level_le_top hn trivial
  have hlow : level ns ≤ m.st.base := by
    have := hframe.le_func
    have := hframe.func_lt
    omega
  have hatTop : m.openList = false → K.atTop c.top m.st.top :=
    fun hlist => h.atTop hr hlist ⟨n, ns, hn⟩ c (by simp [hchain])
  have hhead : ∀ {top}, K.atTop c.top top → ∀ c' ∈ m.st.chain.head?, K.atTop c'.top top := by
    intro top hk c' hc'
    rw [hchain] at hc'
    obtain rfl : c = c' := by simpa using hc'
    exact hk
  unfold Control.luaStep at he
  cases op with
  | call pc a b c => exact h.opCall hr hn (fun hb => hok.2 hb) he
  | tailCall pc a b => exact h.opTailCall hr hn (fun hb => hok.2 hb) he
  | ret a b =>
    cases he
    exact h.opReturn hr hn a b
  | varArg a b =>
    obtain ⟨proto, -, rfl⟩ := Option.map_eq_some_iff.mp he
    obtain ⟨hsame, hopen, htop⟩ := opVarArg_spec m.st proto a b
    refine h.keep hr hn trivial hsame ?_ (fun q _ hq => hq.congr hopen hsame.savedThreads) fun hlist _ => hhead ?_
    · split_ifs at htop
      · exact hlow.trans htop
      · rw [htop]
        exact hlevel
    · rw [if_neg (by simpa using hlist)] at htop
      rw [htop]
      exact hatTop hok
  | setList b =>
    cases he
    split_ifs with hb
    · have hcur : (m.st.callInfo m.st.ci).top = c.top := by rw [callInfo_ci h.ci_lt hchain]
      refine h.keep hr hn trivial (.restoreTop m.st) ?_ (fun q _ hq => hq.congr ⟨rfl, fun _ => rfl⟩ rfl)
        fun _ _ => hhead ?_
      · change level ns ≤ (m.st.callInfo m.st.ci).top
        rw [hcur]
        exact hframe.le_top
      · change K.atTop c.top (m.st.callInfo m.st.ci).top
        rw [hcur]
        exact K.atTop_refl _
    · refine h.keep hr hn trivial (.refl m.st) hlevel (fun q _ hq => hq) fun _ _ => hhead (hatTop ?_)
      exact Bool.eq_false_iff.mpr fun hlist => hb (hok.mpr hlist)
  | tforloop pc a c₁ =>
    obtain ⟨hrest, hci, hlen, hchain', htop⟩ := openIterator_spec h.ci_lt hchain pc (m.st.base + a)
    refine h.callSite (k := .tforloop (m.st.base + a)) hr hn trivial (m.st.openIterator pc (m.st.base + a)) hchain
      hrest.toSameCore hrest.toSameOpen hci hlen hchain' hframe.le_top rfl rfl rfl id id (.inr (.inr ⟨_, rfl⟩))
      (fun hh => hh.elim) (by omega) (hlow.trans (by simp [Site.floor]; omega)) (by rw [htop]; omega) (by simp [Site.ciTop])
      m.save rfl hlevel (fun hh => hh.elim) (fun hh => hh.elim) he
  | capture a =>
    obtain ⟨⟨st, r⟩, hfind, rfl⟩ := Option.map_eq_some_iff.mp he
    obtain ⟨hsame, htop⟩ := findUpvalue_sameFrames hfind
    refine h.keep hr hn trivial hsame (htop ▸ hlevel) (fun q hq hopen => ?_) fun hlist _ => hhead ?_
    · intro hK hsaved
      exact (hopen hK (hsame.savedThreads.symm.trans hsaved)).findUpvalue
        (hq _ (Nat.le_add_right _ _) ⟨n, rfl⟩) hfind
    · rw [htop]
      exact hatTop hlist
  | close a =>
    cases he
    have hclose := closeUpvalues_sameFrames m.st (m.st.base + a)
    refine h.keep hr hn trivial hclose ?_ (fun q _ hopen => hopen.closed fun i hi _ => hi) fun hlist _ => hhead ?_
    · rw [top_closeUpvalues]
      exact hlevel
    · rw [top_closeUpvalues]
      exact hatTop hlist
  | tmRes tm arg1 arg2 resultReg =>
    exact h.callAtTop (k := .tmRes resultReg) hr hn trivial id id (.inr trivial) rfl rfl (fun hh => hh.elim) he
  | tmVoid tm arg1 arg2 arg3 =>
    exact h.callAtTop (k := .tmVoid) hr hn trivial id id (.inr trivial) rfl rfl (fun _ => rfl) he
  | orderTm tm lhs rhs =>
    exact h.callAtTop (k := .orderTm) hr hn trivial id id (.inr trivial) rfl rfl (fun hh => hh.elim) he
  | returnHook instr event =>
    cases instr with
    | none => exact h.commonStep hr hn trivial hok he
    | some x =>
      obtain ⟨a, b⟩ := x
      exact (h.openReturn hr hn a b).callHook hr hn trivial he
  | _ => exact h.commonStep hr hn trivial hok he

/-- A new coroutine can be resumed. -/
theorem parked_new (func : Val) (global : GcRef .table) : Parked K (LuaThread.new func global) := by
  refine ⟨Nat.zero_lt_one, fun c hc => ?_, rfl, rfl, fun _ => Nat.zero_lt_one, fun hst => ?_, fun _ => ⟨rfl, ?_⟩⟩
  · obtain rfl : c = CallInfo.initial := by simpa [ThreadFields.chain, LuaThread.new] using hc
    exact ⟨Nat.zero_le _, Nat.zero_lt_one, Nat.zero_le _⟩
  · simp [LuaThread.new] at hst
  · simp [LuaThread.new, maxCalls]

/-- A coroutine is created. -/
theorem Framed.create (h : Framed K m) (hr : m.raised = none) (hn : m.native = f :: ns) (hf : f.IsRust) {func : Val}
    {gc : Gc} {r : GcRef .thread} (he : m.st.gc.allocThread (LuaThread.new func m.st.global) = some (gc, r)) :
    Framed K { m with st := { m.st with gc }.push (.thread r) } := by
  have hlevel := h.level_le_top hn hf.isCode
  rw [Gc.allocThread, Gc.alloc, Option.bind_eq_bind, Option.bind_eq_some_iff] at he
  obtain ⟨⟨heap, r'⟩, halloc, hgc⟩ := he
  cases hgc
  have hup : ∀ u : GcRef .upvalue, heap.get u = m.st.gc.heap.get u := fun u => by
    rw [Heap.get, Heap.arena_alloc_ne halloc (by decide), Heap.get]
  have hthreads : ∀ t : GcRef .thread, heap.get t =
      if t = r then some (LuaThread.new func m.st.global) else m.st.gc.heap.get t := by
    intro t
    rw [Heap.get_eq, Heap.get_eq]
    split_ifs with heq
    · subst heq
      rw [Heap.cell_alloc_self halloc]
      rfl
    · rw [Heap.cell_alloc_ne halloc]
      rintro ⟨⟩
      exact heq rfl
  refine h.stay hr hn hf.isCode rfl rfl rfl rfl rfl rfl ?_ (hlevel.trans (Nat.le_succ _)) (fun q _ hopen => ?_) ?_
  · refine ⟨fun co t ht hst => ?_, fun hK t ht r' hr' => ?_⟩
    · have ht' := (hthreads co).symm.trans ht
      split_ifs at ht'
      · obtain rfl := Option.some.inj ht'
        exact parked_new func m.st.global
      · exact h.coroutines.parked co t ht' hst
    · change (heap.get r').isSome
      rw [hup r']
      exact h.coroutines.cells hK t ht r' hr'
  · exact hopen.congr ⟨rfl, hup⟩ rfl
  · rintro - ⟨k, rfl⟩
    exact hf.elim

/-- A step of a native function. -/
theorem Framed.rustStep (h : Framed K m) (hr : m.raised = none) (hn : m.native = f :: ns) (hf : f.IsRust)
    {op : ControlOp} (hok : m.Sound op) (he : m.rustStep f ns op = some m') : Framed K m' := by
  obtain ⟨c, cs, p, hchain, hbase, hframe, -, hfits, hopen⟩ := h.running hr hn hf.isCode
  have hlevel := h.level_le_top hn hf.isCode
  have hlow : level ns ≤ m.st.base := by
    have := hframe.le_func
    have := hframe.func_lt
    omega
  have hnot : ∀ {top}, (∃ k, f = .execute k) → ∀ c ∈ m.st.chain.head?, K.atTop c.top top := by
    rintro top ⟨k, rfl⟩
    exact hf.elim
  -- A site in a library function, on the frame as it is.
  have hsite : ∀ {st : LuaState} {k : Site} {pos : ℕ} {wanted : Option ℕ}, SameFrames m.st st → SameOpen m.st st →
      ¬ k.IsResume → ¬ k.IsHost → ¬ k.AtTop → ¬ k.IsVoid → k.ciTop = none → m.st.base ≤ pos →
      m.st.base ≤ k.floor pos → pos < st.top → ({ m with st } : Control).enter k pos wanted m.save = some m' →
      Framed K m' := by
    intro st k pos wanted hsame hopened hresume hhost htop hvoid hciTop hpos hfloor hlt he
    exact h.callSite hr hn hf.isCode st hchain hsame.toSameCore hopened hsame.ci (hsame.ci_lt h.ci_lt)
      (hsame.chain_eq.trans hchain) hframe.le_top rfl rfl rfl hresume hhost (.inl hf) (fun hh => absurd hh hvoid)
      (hlow.trans hpos) (hlow.trans hfloor) hlt (by simp [hciTop]) m.save rfl hlevel (fun hh => absurd hh htop)
      (fun hh => absurd hh htop) he
  unfold Control.rustStep at he
  cases op with
  | push v =>
    cases he
    exact h.keep hr hn hf.isCode (.push m.st v) (hlevel.trans (Nat.le_succ _))
      (fun q _ hq => hq.congr ⟨rfl, fun _ => rfl⟩ rfl) fun _ => hnot
  | setTop n =>
    cases he
    exact h.keep hr hn hf.isCode (.of_stack _ m.st.stack _) (hlow.trans (Nat.le_add_right _ _))
      (fun q _ hq => hq.congr ⟨rfl, fun _ => rfl⟩ rfl) fun _ => hnot
  | callFunction i wanted =>
    dsimp only at he
    split_ifs at he with hlt
    exact hsite (k := .callFunction) (.refl m.st) (.refl m.st) id id id id rfl (Nat.le_add_right _ _)
      (Nat.le_add_right _ _) hlt he
  | pcall =>
    dsimp only at he
    split_ifs at he with hlt
    · exact hsite (k := .pcall) (.refl m.st) (.refl m.st) id id id id rfl le_rfl le_rfl hlt he
    · cases he
      exact h.raise hr
  | xpcall =>
    dsimp only at he
    split_ifs at he with hlt
    · refine hsite (k := .xpcall) ?_ ?_ id id id id rfl (Nat.le_succ _) le_rfl ?_ he
      · exact .of_stack _ _ _
      · exact ⟨rfl, fun _ => rfl⟩
      · exact Nat.lt_succ_self _
    · cases he
      exact h.raise hr
  | reader recovers func =>
    exact h.callAtTop (k := .reader recovers) hr hn hf.isCode id id (.inl hf) rfl rfl (fun hh => hh.elim) he
  | secureRange callback args =>
    exact h.callAtTop (k := .secureRange) hr hn hf.isCode id id (.inl hf) rfl rfl (fun hh => hh.elim) he
  | create func =>
    obtain ⟨⟨gc, r⟩, halloc, rfl⟩ := Option.map_eq_some_iff.mp he
    exact h.create hr hn hf halloc
  | resume co args wrap => exact h.auxresume hr hn hf he
  | yield =>
    dsimp only at he
    split_ifs at he with hyield
    · cases he
      have hzero : m.st.nCcalls = 0 := by simp_all
      rw [← hchain, ← hn] at hfits
      exact ⟨h.ci_lt, h.level_le, ⟨[], _, p, rfl, fun _ => rfl, fun _ _ => ⟨hzero, by simp, fun _ => ⟨f, ns, hn, hf⟩⟩,
        hfits, hopen.mono fun i => .inl⟩, h.coroutines, fun _ => h.calm (by simp [hr]), by simp, by simp, by simp, by simp⟩
    · cases he
      exact h.raise hr
  | retRust n => exact h.opReturnRust hr hn hf he
  | returnHook instr event =>
    cases instr with
    | none => exact h.callHook hr hn hf.isCode he
    | some x => exact h.commonStep hr hn hf.isCode hok he
  | _ => exact h.commonStep hr hn hf.isCode hok he

/-- Every step that is allowed keeps the frames as the native stack has them. -/
theorem Framed.step {op : ControlOp} (h : Framed K m) (hok : K.Allows m op) (he : m.step op = some m') :
    Framed K m' := by
  obtain ⟨hsound, hsite⟩ := hok
  cases hr : m.raised with
  | some err =>
    cases op with
    | unwind v =>
      simp only [Control.step, hr, Control.unwind] at he
      cases hn : m.native with
      | nil => simp [hn] at he
      | cons f ns =>
        rw [hn] at he
        simp only [hr, hn] at hsite
        cases f with
        | site pos wanted saved k =>
          cases k with
          | resume co caller loops wrap =>
            cases err with
            | yield n => exact h.leaveCoroutine hn trivial (.inl rfl) (.inr ⟨rfl, n, hr⟩) he
            | error =>
              refine h.leaveCoroutine hn trivial ?_ (.inl rfl) he
              split_ifs
              · exact .inr rfl
              · exact .inl rfl
          | _ => exact h.siteFailed hr hn id hsite he
        | _ =>
          cases he
          have hbelow := h.abandon hr hn trivial
          rw [hr] at hbelow
          exact hbelow
    | _ => simp [Control.step, hr] at he
  | none =>
    cases hn : m.native with
    | nil =>
      have hhost : m.hostStep op = some m' := by
        cases op with
        | _ => simpa [Control.step, hr, hn] using he
      exact h.hostStep hr hn hsound hhost
    | cons f ns =>
      cases f with
      | site pos wanted saved k =>
        cases op with
        | done =>
          simp only [Control.step, hr, hn] at he
          simp only [hr, hn] at hsite
          cases k with
          | resume co caller loops wrap =>
            simp only [Control.siteDone] at he
            split_ifs at he with hloop
            · cases he
              exact h.loop hr hn trivial hloop.1 hloop.2 (hsite hloop.1 hloop.2)
            · exact h.leaveCoroutine hn trivial (.inl rfl) (.inl rfl) he
          | _ => exact h.siteDone hr hn id hsite he
        | _ => simp [Control.step, hr, hn] at he
      | execute n =>
        have hlua : m.luaStep n ns op = some m' := by simpa [Control.step, hr, hn] using he
        exact h.luaStep hr hn hsound hlua
      | opCall c =>
        have hrust : m.rustStep (.opCall c) ns op = some m' := by simpa [Control.step, hr, hn] using he
        exact h.rustStep hr hn trivial hsound hrust
      | opTailCall =>
        have hrust : m.rustStep .opTailCall ns op = some m' := by simpa [Control.step, hr, hn] using he
        exact h.rustStep hr hn trivial hsound hrust
      | callee =>
        have hrust : m.rustStep .callee ns op = some m' := by simpa [Control.step, hr, hn] using he
        exact h.rustStep hr hn trivial hsound hrust

/-! ### The beginning -/

theorem arena_internAll {j : ObjKind} (hj : j ≠ .string) :
    ∀ {names : List String} {g g' : Gc} {rs : List (GcRef .string)}, g.internAll names = some (g', rs) →
      g'.heap.arena j = g.heap.arena j := by
  intro names
  induction names with
  | nil =>
    intro g g' rs h
    cases h
    rfl
  | cons name names ih =>
    intro g g' rs h
    simp only [Gc.internAll, Option.bind_eq_bind, Option.bind_eq_some_iff] at h
    obtain ⟨⟨g₁, r⟩, hone, ⟨g₂, rs₂⟩, hmore, heq⟩ := h
    cases heq
    rw [ih hmore]
    simp only [Gc.internString, Option.bind_eq_bind, Option.bind_eq_some_iff] at hone
    obtain ⟨⟨strings, heap, r'⟩, hint, hg⟩ := hone
    cases hg
    exact Heap.arena_intern_ne hint hj

theorem arena_allocTable {j : ObjKind} (hj : j ≠ .table) {t : Table} {g g' : Gc} {r : GcRef .table}
    (h : g.allocTable t = some (g', r)) : g'.heap.arena j = g.heap.arena j := by
  simp only [Gc.allocTable, Gc.alloc, Option.bind_eq_bind, Option.bind_eq_some_iff] at h
  obtain ⟨⟨heap, r'⟩, halloc, hg⟩ := h
  cases hg
  exact Heap.arena_alloc_ne halloc hj

/-- Nothing is in progress yet. The libraries may have been loaded. -/
structure LuaState.Idle (s : LuaState) : Prop where
  callStack : s.callStack = [CallInfo.initial]
  ci : s.ci = 0
  base : s.base = 1
  top : s.top = 1
  counters : s.counters = ⟨0, 0⟩
  ciOverflow : s.ciOverflow = false
  openUpvalues : s.openUpvalues = []
  savedThreads : s.savedThreads = []
  threads : ∀ co : GcRef .thread, s.gc.heap.get co = none
  openAt : ∀ r, s.openAt r = none

theorem idle_new {s : LuaState} (h : LuaState.new = some s) : s.Idle := by
  simp only [LuaState.new, Gc.new, Option.bind_eq_bind, Option.bind_eq_some_iff] at h
  obtain ⟨g, ⟨⟨g₁, tm⟩, htm, ⟨g₂, names⟩, hnames, hg⟩, ⟨g₃, ev⟩, hev, ⟨g₄, masks⟩, hmasks, ⟨g₅, fields⟩, hfields,
    ⟨g₆, global⟩, hglobal, ⟨g₇, registry⟩, hregistry, hs⟩ := h
  cases hg
  cases hs
  have harena : ∀ j : ObjKind, j ≠ .string → j ≠ .table → g₇.heap.arena j = Heap.new.arena j := by
    intro j hstr htab
    rw [arena_allocTable htab hregistry, arena_allocTable htab hglobal, arena_internAll hstr hfields,
      arena_internAll hstr hmasks, arena_internAll hstr hev]
    exact (arena_internAll hstr hnames).trans (arena_internAll hstr htm)
  refine ⟨rfl, rfl, rfl, rfl, rfl, rfl, rfl, rfl, fun co => ?_, fun r => ?_⟩
  · change g₇.heap.get co = none
    rw [Heap.get, harena .thread (by decide) (by decide)]
    rfl
  · change (g₇.heap.get r).bind Upvalue.stackIndex = none
    rw [Heap.get, harena .upvalue (by decide) (by decide)]
    rfl

theorem LuaState.Idle.framed {s : LuaState} (h : s.Idle) (hb : K.bottom [CallInfo.initial] ⟨0, 0⟩) :
    Framed K { st := s } := by
  have hchain : s.chain = [CallInfo.initial] := by simp [chain, h.callStack, h.ci]
  have hfits : Fits K [] s.chain s.counters s.savedThreads fun _ => False := by
    rw [hchain, h.counters, h.savedThreads]
    exact .host hb (by simp)
  refine .of_none (p := fun _ => False) rfl ?_ (Nat.zero_le _) hfits (fun _ _ => .of_nil h.openUpvalues) ?_ ?_ (by simp)
    (by simp) (by simp) fun _ _ => ⟨h.top, h.base⟩
  · simp [h.callStack, h.ci]
  · refine ⟨fun co t ht => ?_, fun _ t ht => ?_⟩
    · rw [h.threads co] at ht
      cases ht
    · dsimp only at ht
      simp [h.savedThreads] at ht
  · rintro - hover
    dsimp only at hover
    simp [h.ciOverflow, h.ci, maxCalls] at hover

/-- The frames are as the native stack has them in every state that a run of steps that are allowed reaches. -/
theorem framed_run {ops : List ControlOp} (hrun : Run Control.step K.Allows m ops m') (h : Framed K m) : Framed K m' :=
  hrun.invariant (Framed K) (fun _ _ _ h hok he => h.step hok he) h

end Rilua.Vm
