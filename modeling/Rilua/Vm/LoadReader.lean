import Rilua.Vm.ReturnHooks

/-! `load` with a reader function. The first chunk and those of a binary chunk are read before anything else
    happens, and after an error `load` restores its frame. The chunks of a text are read by the lexer, which keeps
    the error for later: what the reader has left on the stack stays there. -/

namespace Rilua.Vm

open Lib Gc LuaState

/-! ### `lua_load` -/

/-- What a call of the reader function gives. -/
inductive Chunk where
  | data (bytes : List UInt8)
  | eof
  | notString

/-- `call_load_reader` after the function has returned `v`. -/
def chunkOf (gc : Gc) (v : Val) : Chunk :=
  match v with
  | .nil => .eof
  | .str r =>
    let bytes := ((gc.heap.get r).map LuaString.data).getD []
    if bytes = [] then .eof else .data bytes
  | _ => .notString

/-- What `load` is about to do. -/
inductive LoadPhase where
  /-- To call the reader for the first time. -/
  | first
  /-- To call it for more of a binary chunk. -/
  | binary (collected : List UInt8)
  /-- To undump what it has; the limit is reached. -/
  | full
  /-- To compile; the lexer may call the reader. -/
  | text

namespace LoadPhase

/-- `MAX_LOAD_SIZE`. -/
def maxLoadSize : ℕ := 10 * 1024 * 1024

/-- The reader can be called. -/
def Reads : LoadPhase → Prop
  | .full => False
  | _ => True

/-- It need not be called again. -/
def Stops : LoadPhase → Prop
  | .full | .text => True
  | _ => False

/-- An error is answered by `restore_state`. -/
def recovers : LoadPhase → Bool
  | .text => false
  | _ => true

def next : LoadPhase → List UInt8 → LoadPhase
  | .first, bytes => if bytes.head? = some 0x1b then .binary bytes else .text
  | .binary collected, bytes =>
    if maxLoadSize < (collected ++ bytes).length then .full else .binary (collected ++ bytes)
  | p, _ => p

end LoadPhase

/-- What is compiled or undumped: a function, or an error message. -/
inductive LoadResult where
  | loaded (closure : GcRef .closure)
  | failed (msg : GcRef .string)

/-- `push_load_result`, with the heap that has the result. -/
def pushLoadResult (s : LuaState) (gc : Gc) : LoadResult → LuaState × ℕ
  | .loaded closure => ({ s with gc }.push (.function closure), 1)
  | .failed msg => (({ s with gc }.push .nil).push (.str msg), 2)

/-- The reader has failed, or has returned something else than a string. `saved` is from the beginning of `load`. -/
def loadFailed (s : LuaState) (saved : SavedCall) (recovers : Bool) (msg : Val) : LuaState :=
  let s := if recovers then { s.restoreCall saved with top := saved.top } else s
  (s.push .nil).push msg

/-- The reader is called in `m`. In `m₁` it has returned, or its error is in flight. -/
def ReaderCalled (func : Val) (recovers : Bool) (m m₁ : Control) : Prop :=
  ∃ m₀ site ops, m.step (.reader recovers func) = some m₀ ∧
    CalledRun (fun m op => m.Regular (fun _ _ => True) op) site m.native m₀ ops m₁

/-- `lua_load` from `m` on, up to its return with `n` results on top of the stack `t`. `calls` are the calls of the
    reader, with the states in which it has come back. Where the chunks of a text end, and when the lexer asks for
    more, is left open. -/
inductive Loads (func : Val) (saved : SavedCall) :
    LoadPhase → Control → List (Bool × Control) → LuaState → ℕ → Prop
  | chunk {p : LoadPhase} {m m₁ m₂ : Control} {bytes : List UInt8} {calls : List (Bool × Control)} {t : LuaState} {n : ℕ}
      (hp : p.Reads) (hcall : ReaderCalled func p.recovers m m₁) (hdone : m₁.step .done = some m₂)
      (hchunk : chunkOf m₂.st.gc (m₂.st.stackGet m₂.st.top) = .data bytes)
      (h : Loads func saved (p.next bytes) m₂ calls t n) : Loads func saved p m ((p.recovers, m₁) :: calls) t n
  | eof {p : LoadPhase} {m m₁ m₂ : Control} (gc : Gc) (res : LoadResult)
      (hp : p.Reads) (hcall : ReaderCalled func p.recovers m m₁) (hdone : m₁.step .done = some m₂)
      (hchunk : chunkOf m₂.st.gc (m₂.st.stackGet m₂.st.top) = .eof) :
      Loads func saved p m [(p.recovers, m₁)] (pushLoadResult m₂.st gc res).1 (pushLoadResult m₂.st gc res).2
  | compiled {p : LoadPhase} {m : Control} (gc : Gc) (res : LoadResult) (hp : p.Stops) :
      Loads func saved p m [] (pushLoadResult m.st gc res).1 (pushLoadResult m.st gc res).2
  | notString {p : LoadPhase} {m m₁ m₂ : Control} (gc : Gc) (msg : GcRef .string)
      (hp : p.Reads) (hcall : ReaderCalled func p.recovers m m₁) (hdone : m₁.step .done = some m₂)
      (hchunk : chunkOf m₂.st.gc (m₂.st.stackGet m₂.st.top) = .notString) :
      Loads func saved p m [(p.recovers, m₁)] (loadFailed { m₂.st with gc } saved p.recovers (.str msg)) 2
  | failed {p : LoadPhase} {m m₁ : Control} (gc : Gc) (msg : GcRef .string)
      (hp : p.Reads) (hcall : ReaderCalled func p.recovers m m₁) (hr : m₁.raised ≠ none) :
      Loads func saved p m [(p.recovers, m₁)]
        (loadFailed { m₁.st.leaveCount (.reader p.recovers) with gc } saved p.recovers (.str msg)) 2

/-- `load` returns `n` results to the frame that has called it: the frame, the base, the counters and the top below
    the results are those from its beginning, and the return pops the frame of `load`. -/
structure LoadRestores (s s' : LuaState) (n : ℕ) : Prop where
  ci_eq : s'.ci = s.ci
  base_eq : s'.base = s.base
  counters_eq : s'.counters = s.counters
  top_eq : s'.top = s.top + n
  returns : PopsExactly { s with top := s.top + n } s' (s'.poscall s.top).1 s.top

/-! ### Calls of the reader -/

variable {m m₁ m₂ : Control} {func : Val} {recovers : Bool} {s s' t : LuaState} {n : ℕ}
  {calls : List (Bool × Control)} {p : LoadPhase}

/-- `load` goes on in its own frame. -/
structure InLoad (s s' : LuaState) : Prop where
  ci_eq : s'.ci = s.ci
  base_eq : s'.base = s.base
  counters_eq : s'.counters = s.counters
  top_eq : s'.top = s.top
  frames : s.callStack.take (s.ci + 1) <+: s'.callStack

theorem InLoad.refl (s : LuaState) : InLoad s s := ⟨rfl, rfl, rfl, rfl, List.take_prefix _ _⟩

theorem InLoad.trans {s'' : LuaState} (h : InLoad s s') (h' : InLoad s' s'') : InLoad s s'' where
  ci_eq := h'.ci_eq.trans h.ci_eq
  base_eq := h'.base_eq.trans h.base_eq
  counters_eq := h'.counters_eq.trans h.counters_eq
  top_eq := h'.top_eq.trans h.top_eq
  frames := by
    have hpre := h'.frames
    rw [h.ci_eq] at hpre
    have htake : s.callStack.take (s.ci + 1) <+: s'.callStack.take (s.ci + 1) := by
      rw [List.prefix_take_iff]
      exact ⟨h.frames, List.length_take_le _ _⟩
    exact htake.trans hpre

/-- The frames up to the current one are the same. -/
theorem frames_callInfo (h : s.callStack.take (s.ci + 1) <+: s'.callStack) (hlt : s.ci < s.callStack.length) :
    s.ci < s'.callStack.length ∧ ∀ i ≤ s.ci, s'.callInfo i = s.callInfo i := by
  constructor
  · have hle := h.length_le
    rw [List.length_take] at hle
    omega
  · intro i hi
    rw [callInfo, getElem?_of_take_prefix h (Nat.lt_succ_of_le hi) (hi.trans_lt hlt), callInfo]

/-- Only native code calls a reader. -/
theorem ReaderCalled.callAtTop (h : ReaderCalled func recovers m m₁) :
    ∃ m₀ site ops, m.callAtTop (.reader recovers) [func] (some 1) = some m₀ ∧
      CalledRun (fun m op => m.Regular (fun _ _ => True) op) site m.native m₀ ops m₁ := by
  obtain ⟨m₀, site, ops, hstep, hrun⟩ := h
  refine ⟨m₀, site, ops, ?_, hrun⟩
  cases hr : m.raised with
  | some err => simp [Control.step, hr] at hstep
  | none =>
    cases hn : m.native with
    | nil => simp [Control.step, hr, hn, Control.hostStep] at hstep
    | cons f ns =>
      cases f with
      | site => simp [Control.step, hr, hn] at hstep
      | execute => simp [Control.step, hr, hn, Control.luaStep, Control.commonStep] at hstep
      | opCall | opTailCall | callee =>
        simp only [Control.step, hr, hn] at hstep
        exact hstep

/-- The reader has returned. -/
theorem ReaderCalled.returned (h : ReaderCalled func recovers m m₁) (hlt : m.st.ci < m.st.callStack.length)
    (hbase : m.st.base = (m.st.callInfo m.st.ci).base) (hdone : m₁.step .done = some m₂) :
    m₁.raised = none ∧ InLoad m.st m₂.st := by
  obtain ⟨m₀, site, ops, hcall, hrun⟩ := h.callAtTop
  obtain rfl := hrun.site_of_callAtTop hcall rfl
  obtain ⟨hback, hret, -⟩ := hrun.cameBack_of_callAtTop hcall rfl
  cases hr : m₁.raised with
  | some err => simp [Control.step, hr] at hdone
  | none =>
    obtain ⟨hci, hbase₁⟩ := hret hr
    simp only [Control.step, hr, hrun.2, Control.siteDone] at hdone
    cases hdone
    refine ⟨rfl, hci, ?_, (leaveCount_counters hback.counters_eq).1, rfl, hback.frames⟩
    change m₁.st.base = _
    rw [hbase₁, hbase, hci, (frames_callInfo hback.frames hlt).2 _ le_rfl]

/-- The reader has failed. `restore_state` is enough to go on; without it there is always something left. -/
theorem ReaderCalled.failed (h : ReaderCalled func recovers m m₁) (hr : m₁.raised ≠ none) :
    m.st.callStack.take (m.st.ci + 1) <+: m₁.st.callStack ∧
      (m₁.st.ci = m.st.ci → m₁.st.top = m.st.top + 1) := by
  obtain ⟨m₀, site, ops, hcall, hrun⟩ := h.callAtTop
  obtain ⟨hback, -, hfailed⟩ := hrun.cameBack_of_callAtTop hcall rfl
  refine ⟨hback.frames, fun hci => ?_⟩
  have hlast := hfailed hr
  split_ifs at hlast with hops
  · exact hlast.2.2
  · omega

/-- The machine answers an error of the reader as `load` does, which has saved the same frame. -/
theorem ReaderCalled.step_unwind (h : ReaderCalled func recovers m m₁) (hin : InLoad s m.st) (hr : m₁.raised ≠ none)
    (saved : SavedCall) (hci : saved.ci = s.ci) (htop : saved.top = s.top)
    (hcount : (⟨saved.nCcalls, saved.callDepth⟩ : Counters) = s.counters) (v : Val) :
    ∃ m₂, m₁.step (.unwind v) = some m₂ ∧
      m₂.st = loadFailed (m₁.st.leaveCount (.reader recovers)) saved recovers v ∧ m₂.native = m.native := by
  obtain ⟨m₀, site, ops, hcall, hrun⟩ := h.callAtTop
  obtain rfl := hrun.site_of_callAtTop hcall rfl
  obtain ⟨err, herr⟩ := Option.ne_none_iff_exists'.mp hr
  have hsame : ∀ t : LuaState, { t.restoreCall m.save with top := m.save.top } =
      { t.restoreCall saved with top := saved.top } := by
    intro t
    have hcalls : m.st.nCcalls = saved.nCcalls :=
      congrArg Counters.nCcalls (hin.counters_eq.trans hcount.symm)
    have hdepth : m.st.callDepth = saved.callDepth :=
      congrArg Counters.callDepth (hin.counters_eq.trans hcount.symm)
    simp only [restoreCall, Control.save, hin.ci_eq, hin.top_eq, hci, htop, hcalls, hdepth]
  simp only [Control.step, herr, Control.unwind, hrun.2, Control.siteFailed, loadFailed, hsame]
  exact ⟨_, rfl, rfl, rfl⟩

/-! ### Returning from `load` -/

/-- With its results on top `load` can return. -/
theorem InLoad.restores (h : InLoad s t) (hlt : s.ci < s.callStack.length) (hcaller : 0 < s.ci)
    (hsame : SameFrames t s') (htop : s'.top = t.top + n) : LoadRestores s s' n := by
  have hci := hsame.ci.trans h.ci_eq
  have htop' : s'.top = s.top + n := by rw [htop, h.top_eq]
  have hframes : s.callStack.take (s.ci + 1) <+: s'.callStack := by
    rw [hsame.callStack]
    exact h.frames
  obtain ⟨hlt', hinfo⟩ := frames_callInfo hframes hlt
  refine ⟨hci, hsame.base.trans h.base_eq, hsame.counters_eq.trans h.counters_eq, htop', ?_⟩
  exact popsExactly_of_same s.top hcaller hci htop' (hci.trans_lt hlt') hinfo

theorem InLoad.pushLoadResult (h : InLoad s t) (hlt : s.ci < s.callStack.length) (hcaller : 0 < s.ci) (gc : Gc)
    (res : LoadResult) : LoadRestores s (pushLoadResult t gc res).1 (pushLoadResult t gc res).2 := by
  have hgc : InLoad s { t with gc } := ⟨h.ci_eq, h.base_eq, h.counters_eq, h.top_eq, h.frames⟩
  cases res with
  | loaded closure => exact hgc.restores hlt hcaller (.push _ _) rfl
  | failed msg => exact hgc.restores hlt hcaller ((SameFrames.push _ _).trans (.push _ _)) rfl

theorem restores_loadFailed (hlt : s.ci < s.callStack.length) (hcaller : 0 < s.ci)
    (hbase : s.base = (s.callInfo s.ci).base) {saved : SavedCall} (hci : saved.ci = s.ci) (htop : saved.top = s.top)
    (hcount : (⟨saved.nCcalls, saved.callDepth⟩ : Counters) = s.counters)
    (hframes : s.callStack.take (s.ci + 1) <+: t.callStack) (v : Val) :
    LoadRestores s (loadFailed t saved true v) 2 := by
  have hin : InLoad s { t.restoreCall saved with top := saved.top } := by
    refine ⟨hci, ?_, hcount, htop, hframes⟩
    change (t.callInfo saved.ci).base = s.base
    rw [hci, (frames_callInfo hframes hlt).2 _ le_rfl, hbase]
  exact hin.restores hlt hcaller ((SameFrames.push _ _).trans (.push _ _)) rfl

/-- `load` restores the state of its caller if and only if no call of the reader by the lexer ends in an error. -/
theorem Loads.restores_iff {saved : SavedCall} (h : Loads func saved p m calls t n) :
    ∀ {s : LuaState}, s.ci < s.callStack.length → 0 < s.ci → s.base = (s.callInfo s.ci).base →
      saved.ci = s.ci → saved.top = s.top → (⟨saved.nCcalls, saved.callDepth⟩ : Counters) = s.counters →
      InLoad s m.st → (LoadRestores s t n ↔ ∀ c ∈ calls, c.1 = false → c.2.raised = none) := by
  have hgo : ∀ {s : LuaState} {m : Control}, s.ci < s.callStack.length → s.base = (s.callInfo s.ci).base →
      InLoad s m.st → m.st.ci < m.st.callStack.length ∧ m.st.base = (m.st.callInfo m.st.ci).base := by
    intro s m hlt hbase hin
    obtain ⟨hlt', hinfo⟩ := frames_callInfo hin.frames hlt
    rw [hin.ci_eq, hin.base_eq, hinfo _ le_rfl]
    exact ⟨hlt', hbase⟩
  induction h with
  | chunk hp hcall hdone hchunk h ih =>
    intro s hlt hcaller hbase hci htop hcount hin
    obtain ⟨hltm, hbasem⟩ := hgo hlt hbase hin
    obtain ⟨hr, hin'⟩ := hcall.returned hltm hbasem hdone
    rw [ih hlt hcaller hbase hci htop hcount (hin.trans hin'), List.forall_mem_cons]
    exact (and_iff_right fun _ => hr).symm
  | eof gc res hp hcall hdone hchunk =>
    intro s hlt hcaller hbase hci htop hcount hin
    obtain ⟨hltm, hbasem⟩ := hgo hlt hbase hin
    obtain ⟨hr, hin'⟩ := hcall.returned hltm hbasem hdone
    refine iff_of_true ((hin.trans hin').pushLoadResult hlt hcaller gc res) ?_
    simp [hr]
  | compiled gc res hp =>
    intro s hlt hcaller hbase hci htop hcount hin
    exact iff_of_true (hin.pushLoadResult hlt hcaller gc res) (by simp)
  | @notString p m m₁ m₂ gc msg hp hcall hdone hchunk =>
    intro s hlt hcaller hbase hci htop hcount hin
    obtain ⟨hltm, hbasem⟩ := hgo hlt hbase hin
    obtain ⟨hr, hin'⟩ := hcall.returned hltm hbasem hdone
    have hin₂ := hin.trans hin'
    refine iff_of_true ?_ (by simp [hr])
    cases p.recovers with
    | true => exact restores_loadFailed (t := { m₂.st with gc }) hlt hcaller hbase hci htop hcount hin₂.frames _
    | false =>
      have hgc : InLoad s { m₂.st with gc } :=
        ⟨hin₂.ci_eq, hin₂.base_eq, hin₂.counters_eq, hin₂.top_eq, hin₂.frames⟩
      exact hgc.restores hlt hcaller ((SameFrames.push _ _).trans (.push _ _)) rfl
  | @failed p m m₁ gc msg hp hcall hr =>
    intro s hlt hcaller hbase hci htop hcount hin
    obtain ⟨hframes, hlast⟩ := hcall.failed hr
    cases hrec : p.recovers with
    | true =>
      have hpre : s.callStack.take (s.ci + 1) <+: m₁.st.callStack :=
        (InLoad.trans hin ⟨rfl, rfl, rfl, rfl, hframes⟩ : InLoad s { m.st with callStack := m₁.st.callStack }).frames
      refine iff_of_true ?_ (by simp)
      exact restores_loadFailed (t := { m₁.st.leaveCount (.reader true) with gc }) hlt hcaller hbase hci htop hcount
        hpre _
    | false =>
      -- the frames of the reader are left, or the function itself
      refine iff_of_false (fun hres => ?_) (by simp [hr])
      have hback : m₁.st.ci = m.st.ci := hres.ci_eq.trans hin.ci_eq.symm
      have htop₂ : m₁.st.top + 1 + 1 = s.top + 2 := hres.top_eq
      have hone := hlast hback
      rw [hin.top_eq] at hone
      omega

/-- What `load` relies on when it is called: its frame and that of its caller are on the call stack, and the base is
    that of its frame. -/
structure InFrame (s : LuaState) : Prop where
  ci_lt : s.ci < s.callStack.length
  caller : 0 < s.ci
  base_eq : s.base = (s.callInfo s.ci).base

/-- It is so whenever code runs. -/
theorem Framed.inFrame {K : FrameSpec} {f : ControlFrame} {ns : List ControlFrame} (h : Framed K m)
    (hr : m.raised = none) (hn : m.native = f :: ns) (hf : f.IsCode) : InFrame m.st := by
  obtain ⟨c, cs, -, hchain, hbase, -, hne, -⟩ := h.running hr hn hf
  have hlen := length_chain h.ci_lt
  have hpos := List.length_pos_iff.mpr hne
  rw [hchain, List.length_cons] at hlen
  exact ⟨h.ci_lt, by omega, by rw [callInfo_ci h.ci_lt hchain, hbase]⟩

/-- `twoLoaded` with a string. -/
def stringLoaded : LuaState :=
  { twoLoaded with gc := { heap := ((twoLoaded.gc.heap.alloc .string ⟨0, [0x78]⟩ .white0).map Prod.fst).getD Heap.new } }

theorem idle_stringLoaded : stringLoaded.Idle := by
  refine ⟨rfl, rfl, rfl, rfl, rfl, rfl, rfl, rfl, fun co => ?_, fun r => ?_⟩
  · have harena : stringLoaded.gc.heap.arena .thread = {} := rfl
    rw [Heap.get, harena]
    rfl
  · have harena : stringLoaded.gc.heap.arena .upvalue = {} := rfl
    rw [openAt, Heap.get, harena]
    rfl

/-- `load` has been called by the host. -/
def loading : Control :=
  (Control.step { st := stringLoaded } (.hostCall false twoLoaded.native [])).getD { st := stringLoaded }

/-- The reader returns nil. -/
theorem loads_eof : ∃ m₁ t, Loads twoLoaded.native loading.save .first loading [(true, m₁)] t 2 := by
  refine ⟨_, _, .eof (p := .first) stringLoaded.gc (.failed ⟨0, 0⟩) trivial
    ⟨_, _, [.retRust 0], rfl, .single ⟨?_, _, [], rfl⟩ rfl, rfl⟩ rfl rfl⟩
  exact trivial

/-- The reader returns a string and then raises an error. -/
theorem loads_fails : ∃ m₁ m₂ t, Loads twoLoaded.native loading.save .first loading [(true, m₁), (false, m₂)] t 2 ∧
    m₂.raised ≠ none := by
  refine ⟨_, _, _, @Loads.chunk _ _ .first _ _ _ [0x78] _ _ _ trivial
    ⟨_, _, [.push (.str ⟨0, 0⟩), .retRust 1], rfl, .cons ⟨?_, _, [], rfl⟩ rfl (.single ⟨?_, _, [], rfl⟩ rfl), rfl⟩ rfl
    rfl (.failed (p := .text) stringLoaded.gc ⟨0, 0⟩ trivial
      ⟨_, _, [.fail, .unwind .nil], rfl, .cons ⟨?_, _, [], rfl⟩ rfl (.single ⟨?_, _, [], rfl⟩ rfl), rfl⟩ ?_), ?_⟩
  · exact trivial
  · exact trivial
  · exact trivial
  · exact trivial
  · exact Option.some_ne_none InFlight.error
  · exact Option.some_ne_none InFlight.error

theorem inFrame_loading : InFrame loading.st := ⟨by decide, by decide, rfl⟩

end Rilua.Vm
