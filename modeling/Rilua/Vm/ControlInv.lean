import Rilua.Vm.OpenSlots

/-! The frames are the ones the native stack stands for: each interpreter loop has the frames of its Lua
    functions, each native function in progress has its own, and what a site has saved is what it finds when
    its function has returned. While an error is in flight there may be frames of abandoned functions on top.
    The invariant is kept by every step but those which recover from an error without unwinding the frames. -/

namespace Rilua.Vm

open Lib Gc LuaState

namespace Site

/-- `auxresume`. -/
def IsResume : Site → Prop
  | .resume .. => True
  | _ => False

/-- The site runs the frames of a suspended coroutine one after the other. -/
def Loops : Site → Prop
  | .resume _ _ loops _ => loops
  | _ => False

def IsHandler : Site → Prop
  | .handler _ => True
  | _ => False

def IsHost : Site → Prop
  | .exec | .hostCall _ => True
  | _ => False

/-- The site of an instruction or of a hook, which pushes what it calls. -/
def AtTop : Site → Prop
  | .tmRes _ | .tmVoid | .orderTm | .hook .. | .finalizer => True
  | _ => False

/-- The top is back after a call without results. -/
def IsVoid : Site → Prop
  | .tmVoid | .finalizer => True
  | _ => False

/-- The lowest slot the site uses. -/
def floor (pos : ℕ) : Site → ℕ
  | .xpcall => pos - 1
  | .handler funcPos => funcPos
  | _ => pos

/-- The `top` that the frame of the site gets back. -/
def ciTop : Site → Option ℕ
  | .hook savedCiTop _ => some savedCiTop
  | _ => none

/-- The counters in a call from the site. -/
def count (k : Site) (n : Counters) : Counters := ⟨n.nCcalls + k.nCcalls, n.callDepth + k.callDepth⟩

end Site

namespace ControlFrame

/-- A native function in progress. -/
def IsRust : ControlFrame → Prop
  | .opCall _ | .opTailCall | .callee => True
  | .execute _ | .site .. => False

/-- Code in progress. -/
def IsCode : ControlFrame → Prop
  | .site .. => False
  | _ => True

end ControlFrame

/-- The frames of a thread in use, innermost first. -/
def ThreadFields.chain (t : ThreadFields) : List CallInfo := (t.callStack.take (t.ci + 1)).reverse

/-- What is in progress on top of `ns` is on the stack from this slot on. -/
def level : List ControlFrame → ℕ
  | [] => 0
  | .site pos _ _ _ :: _ => pos
  | _ :: ns => level ns

/-- The handler of an `xpcall` is in progress on the running thread. -/
def HandlerIn : List ControlFrame → Prop
  | [] => False
  | .site _ _ _ (.handler _) :: _ => True
  | .site _ _ _ (.resume ..) :: _ => False
  | _ :: ns => HandlerIn ns

/-- What is followed of a run. -/
structure FrameSpec where
  /-- The frames and the counters when only the host is in progress. -/
  bottom : List CallInfo → Counters → Prop
  /-- How the top of the stack lies to that of the frame of a Lua function, where it has no open list. -/
  atTop : ℕ → ℕ → Prop
  /-- Whether the open upvalues, the overflow flag and the stack of the host are followed. -/
  strict : Prop
  atTop_refl : ∀ n, atTop n n
  bottom_base : strict → ∀ {cs : List CallInfo} {n : Counters}, bottom cs n → ∀ c ∈ cs.head?, c.base = 1

structure FrameOk (lo : ℕ) (c : CallInfo) : Prop where
  le_func : lo ≤ c.func
  func_lt : c.func < c.base
  le_top : lo ≤ c.top

/-- `c` may be the frame of the function that the site on top of `ns` has called. -/
def Called (c : CallInfo) : List ControlFrame → Prop
  | .site pos wanted _ k :: _ => ¬ k.Loops → c.func = pos ∧ c.numResults = wanted
  | _ => False

variable (K : FrameSpec)

/-- What the site `k` on top of `ns` has saved, above the frames `cs`. -/
structure SiteOk (ns : List ControlFrame) (pos : ℕ) (wanted : Option ℕ) (saved : SavedCall) (k : Site)
    (cs : List CallInfo) (n : Counters) : Prop where
  ci_eq : saved.ci + 1 = cs.length
  counters_eq : (⟨saved.nCcalls, saved.callDepth⟩ : Counters) = n
  base_eq : ¬ k.IsHost → ∃ c cs', cs = c :: cs' ∧ saved.base = c.base
  le_pos : level ns ≤ pos
  le_floor : level ns ≤ k.floor pos
  le_top : level ns ≤ saved.top
  le_ciTop : ∀ t ∈ k.ciTop, level ns ≤ t
  code : ¬ k.IsHost → ∃ f ns', ns = f :: ns' ∧ f.IsCode ∧ (f.IsRust ∨ k.AtTop ∨ ∃ ra, k = .tforloop ra)
  host : k.IsHost → ns = []
  void : k.IsVoid → wanted = some 0
  pos_eq : k.AtTop → pos = saved.top
  atTop : k.AtTop → saved.openList = false → (∃ j ns', ns = .execute j :: ns') →
    ∀ c ∈ cs.head?, K.atTop (k.ciTop.getD c.top) saved.top
  handler : K.strict → maxCalls ≤ saved.ci → HandlerIn ns
  stack : K.strict → k.IsHost → saved.top = 1 ∧ saved.base = 1 ∧ (k ≠ .exec → pos = 1)

/-- The thread `t` with the frames `cs` waits for a coroutine, with `ns` in progress. -/
structure Waits (ns : List ControlFrame) (t : ThreadFields) (cs : List CallInfo) : Prop where
  ci_lt : t.ci < t.callStack.length
  chain_eq : t.chain = cs
  base_eq : ∃ c cs', cs = c :: cs' ∧ t.base = c.base
  le_top : level ns ≤ t.top
  rust : ∃ f ns', ns = f :: ns' ∧ f.IsRust
  handler : K.strict → t.ciOverflow = true ∨ maxCalls ≤ t.ci → HandlerIn ns

/-- The native stack stands for the frames `cs` and the counters `n` of the running thread and for those of
    the threads it was resumed from. The slots from the base of a Lua function in progress on are `p`. -/
inductive Fits :
    List ControlFrame → List CallInfo → Counters → List LuaThread → (ℕ → Prop) → Prop
  | host {cs : List CallInfo} {n : Counters} (hb : K.bottom cs n) (hne : cs ≠ []) : Fits [] cs n [] fun _ => False
  | execute {k : ℕ} {ns : List ControlFrame} (fs : List CallInfo) {c : CallInfo} {cs rest : List CallInfo}
      {n : Counters} {ts : List LuaThread} {p q : ℕ → Prop} (hcs : cs = fs ++ c :: rest) (hk : k = fs.length + 1)
      (hfs : ∀ f ∈ fs, FrameOk (level ns) f) (hc : FrameOk (level ns) c) (hcalled : Called c ns)
      (hq : ∀ i, q i ↔ (∃ f ∈ fs ++ [c], f.base ≤ i) ∨ p i) (h : Fits ns rest n ts p) :
      Fits (.execute k :: ns) cs n ts q
  | rust {f : ControlFrame} {ns : List ControlFrame} {c : CallInfo} {rest : List CallInfo} {n : Counters}
      {ts : List LuaThread} {p : ℕ → Prop} (hf : f.IsRust) (hcaller : f ≠ .callee → ∃ k ns', ns = .execute k :: ns')
      (hc : FrameOk (level ns) c) (hcalled : f = .callee → Called c ns) (h : Fits ns rest n ts p) :
      Fits (f :: ns) (c :: rest) n ts p
  | site {pos : ℕ} {wanted : Option ℕ} {saved : SavedCall} {k : Site} {ns : List ControlFrame}
      (stale : List CallInfo) {cs rest : List CallInfo} {n n' : Counters} {ts : List LuaThread} {p : ℕ → Prop} (hk : ¬ k.IsResume)
      (hcs : cs = stale ++ rest) (hstale : ¬ k.IsHandler → stale = []) (hn : n = k.count n')
      (hsite : SiteOk K ns pos wanted saved k rest n') (h : Fits ns rest n' ts p) :
      Fits (.site pos wanted saved k :: ns) cs n ts p
  | resume {pos : ℕ} {wanted : Option ℕ} {saved : SavedCall} {k : Site} {ns : List ControlFrame}
      {cs rest : List CallInfo} {n : Counters} {t : LuaThread} {ts : List LuaThread} {p : ℕ → Prop} (hk : k.IsResume)
      (hpos : pos = 0) (hwanted : wanted = none) (hcs : ∀ c ∈ cs, FrameOk 0 c) (hne : cs ≠ []) (hn : n = ⟨0, 0⟩)
      (ht : Waits K ns t.toThreadFields rest) (hopen : K.strict → ts = [] → SavedOpen t p)
      (h : Fits ns rest ⟨t.nCcalls, t.callDepth⟩ ts p) :
      Fits (.site pos wanted saved k :: ns) cs n (t :: ts) fun _ => False

/-- A coroutine that can be resumed. -/
structure Parked (t : LuaThread) : Prop where
  ci_lt : t.ci < t.callStack.length
  frames : ∀ c ∈ t.chain, FrameOk 0 c
  nCcalls : t.nCcalls = 0
  callDepth : t.callDepth = 0
  top_pos : t.status = .initial → 0 < t.top
  ci_pos : t.status = .suspended → 0 < t.ci
  calm : K.strict → t.ciOverflow = false ∧ t.ci < maxCalls

/-- The coroutines can be resumed, and what the thread at the bottom reopens is still there. -/
structure Coroutines (s : LuaState) : Prop where
  parked : ∀ (co : GcRef .thread) (t : LuaThread), s.gc.heap.get co = some t →
    t.status = .initial ∨ t.status = .suspended → Parked K t
  cells : K.strict → ∀ t ∈ s.savedThreads.getLast?, ∀ r ∈ t.openUpvalues, (s.gc.heap.get r).isSome

/-- There is nothing to restore: the limit is not exceeded, or a handler is in progress. -/
def Calm (s : LuaState) (native : List ControlFrame) : Prop :=
  K.strict → s.ciOverflow = true ∨ maxCalls ≤ s.ci → HandlerIn native

/-- The open upvalues of the main thread are open at slots that are `p`. -/
def OpenIn (s : LuaState) (p : ℕ → Prop) : Prop := K.strict → s.savedThreads = [] → OpenOk s p

/-- The frames, the counters and the coroutines are as the native stack has it. -/
structure Framed (m : Control) : Prop where
  ci_lt : m.st.ci < m.st.callStack.length
  level_le : level m.native ≤ m.st.top
  fits : ∃ extra rest p, m.st.chain = extra ++ rest ∧ (m.raised = none → extra = []) ∧
    (∀ n, m.raised = some (.yield n) → m.st.nCcalls = 0 ∧ (∀ c ∈ extra, FrameOk 0 c) ∧
      (extra = [] → ∃ f ns, m.native = f :: ns ∧ f.IsRust)) ∧
    Fits K m.native rest m.st.counters m.st.savedThreads p ∧
    OpenIn K m.st fun i => p i ∨ m.raised ≠ none ∧ level m.native ≤ i
  coroutines : Coroutines K m.st
  calm : m.raised ≠ some .error → Calm K m.st m.native
  base_eq : m.raised = none → m.native ≠ [] → ∃ c cs, m.st.chain = c :: cs ∧ m.st.base = c.base
  atTop : m.raised = none → m.openList = false → (∃ k ns, m.native = .execute k :: ns) →
    ∀ c ∈ m.st.chain.head?, K.atTop c.top m.st.top
  returned : m.raised = none → ∀ pos saved k ns, m.native = .site pos (some 0) saved k :: ns → m.st.top = pos
  stack : K.strict → m.raised = none → m.native = [] → m.st.top = 1 ∧ m.st.base = 1

section Fits

variable {K : FrameSpec} {ns : List ControlFrame} {cs : List CallInfo} {n : Counters} {ts : List LuaThread}
  {f : ControlFrame} {c c' : CallInfo} {lo : ℕ} {p : ℕ → Prop}

theorem ControlFrame.isCode_cases (hf : f.IsCode) : f.IsRust ∨ ∃ k, f = .execute k := by
  cases f with
  | execute k => exact .inr ⟨k, rfl⟩
  | opCall => exact .inl trivial
  | opTailCall => exact .inl trivial
  | callee => exact .inl trivial
  | site => exact hf.elim

theorem ControlFrame.IsRust.isCode (hf : f.IsRust) : f.IsCode := by
  cases f with
  | execute => exact trivial
  | opCall => exact trivial
  | opTailCall => exact trivial
  | callee => exact trivial
  | site => exact hf.elim

theorem level_cons (hf : f.IsCode) : level (f :: ns) = level ns := by
  cases f with
  | site => exact hf.elim
  | execute => rfl
  | opCall => rfl
  | opTailCall => rfl
  | callee => rfl

theorem handlerIn_cons (hf : f.IsCode) : HandlerIn (f :: ns) ↔ HandlerIn ns := by
  cases f with
  | site => exact hf.elim
  | execute => exact Iff.rfl
  | opCall => exact Iff.rfl
  | opTailCall => exact Iff.rfl
  | callee => exact Iff.rfl

theorem handlerIn_site {pos : ℕ} {wanted : Option ℕ} {saved : SavedCall} {k : Site} (hk : ¬ k.IsResume)
    (hh : ¬ k.IsHandler) : HandlerIn (.site pos wanted saved k :: ns) ↔ HandlerIn ns := by
  cases k with
  | resume => exact absurd trivial hk
  | handler => exact absurd trivial hh
  | _ => exact Iff.rfl

theorem HandlerIn.site {pos : ℕ} {wanted : Option ℕ} {saved : SavedCall} {k : Site} (h : HandlerIn ns)
    (hk : ¬ k.IsResume) : HandlerIn (.site pos wanted saved k :: ns) := by
  cases k with
  | resume => exact absurd trivial hk
  | handler => exact trivial
  | _ => exact h

theorem FrameOk.mono (h : FrameOk lo c) {lo' : ℕ} (hle : lo' ≤ lo) : FrameOk lo' c :=
  ⟨hle.trans h.le_func, h.func_lt, hle.trans h.le_top⟩

theorem Fits.ne_nil (h : Fits K ns cs n ts p) : cs ≠ [] := by
  induction h with
  | host hb hne => exact hne
  | execute fs hcs => simp [hcs]
  | rust => simp
  | site stale hk hcs hstale hn hsite h ih => simp [hcs, ih]
  | resume hk hpos hwanted hcs hne => exact hne

/-- Where only the host is in progress, no slot belongs to a Lua function. -/
theorem Fits.of_host (h : Fits K [] cs n ts p) : K.bottom cs n ∧ ts = [] ∧ ∀ i, ¬ p i := by
  cases h with
  | host hb => exact ⟨hb, rfl, fun _ => id⟩

/-- While a handler is in progress, native code is being called. -/
theorem Fits.not_handlerIn (h : Fits K ns cs n ts p) : n.nCcalls = 0 → ¬ HandlerIn ns := by
  induction h with
  | host => exact fun _ => id
  | execute fs hcs hk hfs hc hcalled hq h ih => exact ih
  | rust hf hcaller hc hcalled h ih =>
    intro hn
    rw [handlerIn_cons hf.isCode]
    exact ih hn
  | @site pos wanted saved k ns stale cs rest n n' ts p hk hcs hstale hn hsite h ih =>
    intro hzero
    rw [hn] at hzero
    obtain ⟨hzero', hcount⟩ := Nat.add_eq_zero_iff.mp hzero
    cases k with
    | handler => simp [Site.nCcalls] at hcount
    | resume => exact absurd trivial hk
    | _ => exact ih hzero'
  | @resume pos wanted saved k ns cs rest n t ts p hk =>
    intro _
    cases k with
    | resume => exact id
    | _ => exact hk.elim

/-- The frame of the code that runs. -/
theorem Fits.running (h : Fits K (f :: ns) cs n ts p) (hf : f.IsCode) :
    ∃ c rest, cs = c :: rest ∧ FrameOk (level ns) c ∧ rest ≠ [] := by
  cases h with
  | @execute k _ fs c _ rest _ _ _ _ hcs hk hfs hc hcalled hq h =>
    cases fs with
    | nil => exact ⟨c, rest, hcs, hc, h.ne_nil⟩
    | cons c' fs => exact ⟨c', fs ++ c :: rest, hcs, hfs c' List.mem_cons_self, by simp⟩
  | @rust _ _ c rest _ _ _ hr hcaller hc hcalled h => exact ⟨c, rest, rfl, hc, h.ne_nil⟩
  | site => exact hf.elim
  | resume => exact hf.elim

theorem Fits.of_rust {rest : List CallInfo} (h : Fits K (f :: ns) (c :: rest) n ts p) (hf : f.IsRust) :
    (f ≠ .callee → ∃ k ns', ns = .execute k :: ns') ∧ (f = .callee → Called c ns) ∧ Fits K ns rest n ts p := by
  cases h with
  | execute => exact hf.elim
  | rust hr hcaller hc hcalled h => exact ⟨hcaller, hcalled, h⟩
  | site => exact hf.elim
  | resume => exact hf.elim

theorem Called.congr (h : Called c ns) (hfunc : c'.func = c.func) (hwanted : c'.numResults = c.numResults) :
    Called c' ns := by
  unfold Called at h ⊢
  split at h
  · rw [hfunc, hwanted]
    exact h
  · exact h

/-- The slots of the frame of the interpreter loop that runs. -/
theorem Fits.owned {k : ℕ} {rest : List CallInfo} (h : Fits K (.execute k :: ns) (c :: rest) n ts p) {i : ℕ}
    (hi : c.base ≤ i) : p i := by
  cases h with
  | @execute _ _ fs c₁ _ _ _ _ _ _ hcs hk hfs hc hcalled hq h =>
    refine (hq i).mpr (.inl ⟨c, ?_, hi⟩)
    cases fs with
    | nil =>
      obtain ⟨rfl, -⟩ := List.cons.inj hcs
      exact List.mem_cons_self
    | cons c₂ fs =>
      obtain ⟨rfl, -⟩ := List.cons.inj hcs
      exact List.mem_cons_self
  | rust hf => exact hf.elim

/-- The frame of the code that runs may change, but for what was called and what is wanted of it. -/
theorem Fits.setHead {rest : List CallInfo} (h : Fits K (f :: ns) (c :: rest) n ts p) (hf : f.IsCode)
    (hok : FrameOk (level ns) c') (hfunc : c'.func = c.func) (hwanted : c'.numResults = c.numResults) :
    ∃ q, Fits K (f :: ns) (c' :: rest) n ts q ∧ ∀ i, p i → i < c.base ∨ c'.base ≤ c.base → q i := by
  cases h with
  | @execute k _ fs c₀ _ rest₀ _ _ p₀ _ hcs hk hfs hc hcalled hq h =>
    cases fs with
    | nil =>
      obtain ⟨rfl, rfl⟩ := List.cons.inj hcs
      refine ⟨fun i => (∃ f ∈ [c'], f.base ≤ i) ∨ p₀ i,
        .execute [] rfl hk (by simp) hok (hcalled.congr hfunc hwanted) (fun _ => Iff.rfl) h, fun i hi hlow => ?_⟩
      rcases (hq i).mp hi with ⟨f, hf, hle⟩ | hp
      · obtain rfl := List.mem_singleton.mp hf
        exact .inl ⟨c', List.mem_cons_self, by omega⟩
      · exact .inr hp
    | cons c₁ fs =>
      obtain ⟨rfl, rfl⟩ := List.cons.inj hcs
      refine ⟨fun i => (∃ f ∈ (c' :: fs) ++ [c₀], f.base ≤ i) ∨ p₀ i,
        .execute (c' :: fs) rfl hk ?_ hc hcalled (fun _ => Iff.rfl) h, fun i hi hlow => ?_⟩
      · exact List.forall_mem_cons.mpr ⟨hok, fun f hmem => hfs f (List.mem_cons_of_mem _ hmem)⟩
      · rcases (hq i).mp hi with ⟨f, hf, hle⟩ | hp
        · obtain rfl | hf := List.mem_cons.mp hf
          · exact .inl ⟨c', List.mem_cons_self, by omega⟩
          · exact .inl ⟨f, List.mem_cons_of_mem _ hf, hle⟩
        · exact .inr hp
  | rust hr hcaller hc hcalled h =>
    exact ⟨p, .rust hr hcaller hok (fun heq => (hcalled heq).congr hfunc hwanted) h, fun i hi _ => hi⟩
  | site => exact hf.elim
  | resume => exact hf.elim

end Fits

section Framed

variable {K : FrameSpec} {m m' : Control} {f : ControlFrame} {ns : List ControlFrame} {s s' : LuaState} {p q : ℕ → Prop}

theorem Coroutines.congr (h : Coroutines K s) (hsame : SameCore s s') : Coroutines K s' := by
  refine ⟨fun co t ht => h.parked co t ((hsame.threads co).symm.trans ht), fun hK t ht r hr => ?_⟩
  rw [hsame.savedThreads] at ht
  exact hsame.cells r (h.cells hK t ht r hr)

theorem Calm.congr {native native' : List ControlFrame} (h : Calm K s native) (hflag : s'.ciOverflow = s.ciOverflow)
    (hci : s'.ci ≤ s.ci) (hnative : HandlerIn native → HandlerIn native') : Calm K s' native' := by
  intro hK hover
  rw [hflag] at hover
  exact hnative (h hK (hover.imp_right hci.trans'))

theorem OpenIn.mono (h : OpenIn K s p) (hpq : ∀ i, p i → q i) : OpenIn K s q := fun hK hs => (h hK hs).mono hpq

theorem OpenIn.congr (h : OpenIn K s p) (hsame : SameOpen s s') (hsaved : s'.savedThreads = s.savedThreads) :
    OpenIn K s' p := fun hK hs => (h hK (hsaved.symm.trans hs)).of_sameOpen hsame

theorem Framed.fits_of_none (h : Framed K m) (hr : m.raised = none) :
    ∃ p, Fits K m.native m.st.chain m.st.counters m.st.savedThreads p ∧ OpenIn K m.st p := by
  obtain ⟨extra, rest, p, hchain, hextra, -, hfits, hopen⟩ := h.fits
  obtain rfl := hextra hr
  rw [hchain]
  exact ⟨p, hfits, hopen.mono fun i hi => hi.resolve_right fun hor => hor.1 hr⟩

theorem Framed.of_error (hr : m.raised = some .error) (hci : m.st.ci < m.st.callStack.length)
    (hlevel : level m.native ≤ m.st.top) (extra : List CallInfo) {rest : List CallInfo}
    (hchain : m.st.chain = extra ++ rest) (hfits : Fits K m.native rest m.st.counters m.st.savedThreads p)
    (hopen : OpenIn K m.st fun i => p i ∨ level m.native ≤ i) (hco : Coroutines K m.st) : Framed K m where
  ci_lt := hci
  level_le := hlevel
  fits := ⟨extra, rest, p, hchain, by simp [hr], by simp [hr], hfits, hopen.mono fun i => by simp [hr]⟩
  coroutines := hco
  calm := by simp [hr]
  base_eq := by simp [hr]
  atTop := by simp [hr]
  returned := by simp [hr]
  stack := by simp [hr]

/-- What is left to be shown of a state in which code of the running thread goes on. -/
theorem Framed.of_none (hr : m.raised = none) (hci : m.st.ci < m.st.callStack.length)
    (hlevel : level m.native ≤ m.st.top) (hfits : Fits K m.native m.st.chain m.st.counters m.st.savedThreads p)
    (hopen : OpenIn K m.st p) (hco : Coroutines K m.st) (hcalm : Calm K m.st m.native)
    (hbase : m.native ≠ [] → ∃ c cs, m.st.chain = c :: cs ∧ m.st.base = c.base)
    (hatTop : m.openList = false → (∃ k ns, m.native = .execute k :: ns) →
      ∀ c ∈ m.st.chain.head?, K.atTop c.top m.st.top)
    (hreturned : ∀ pos saved k ns, m.native = .site pos (some 0) saved k :: ns → m.st.top = pos)
    (hstack : K.strict → m.native = [] → m.st.top = 1 ∧ m.st.base = 1) : Framed K m where
  ci_lt := hci
  level_le := hlevel
  fits := ⟨[], _, p, rfl, fun _ => rfl, by simp [hr], hfits, hopen.mono fun i => .inl⟩
  coroutines := hco
  calm _ := hcalm
  base_eq _ := hbase
  atTop _ := hatTop
  returned _ := hreturned
  stack hK _ := hstack hK

/-- The frame of the code that runs. -/
theorem Framed.running (h : Framed K m) (hr : m.raised = none) (hn : m.native = f :: ns) (hf : f.IsCode) :
    ∃ c cs p, m.st.chain = c :: cs ∧ m.st.base = c.base ∧ FrameOk (level ns) c ∧ cs ≠ [] ∧
      Fits K (f :: ns) (c :: cs) m.st.counters m.st.savedThreads p ∧ OpenIn K m.st p := by
  obtain ⟨p, hfits, hopen⟩ := h.fits_of_none hr
  obtain ⟨c, cs, hchain, hbase⟩ := h.base_eq hr (by simp [hn])
  rw [hn, hchain] at hfits
  obtain ⟨c', cs', heq, hok, hne⟩ := hfits.running hf
  obtain ⟨rfl, rfl⟩ := List.cons.inj heq
  exact ⟨c, cs, p, hchain, hbase, hok, hne, hfits, hopen⟩

theorem Framed.level_le_top (h : Framed K m) (hn : m.native = f :: ns) (hf : f.IsCode) : level ns ≤ m.st.top := by
  have hlevel := h.level_le
  rw [hn, level_cons hf] at hlevel
  exact hlevel

theorem Framed.raise (h : Framed K m) (hr : m.raised = none) : Framed K m.raise := by
  obtain ⟨p, hfits, hopen⟩ := h.fits_of_none hr
  exact .of_error rfl h.ci_lt h.level_le [] rfl hfits (hopen.mono fun i => .inl) h.coroutines

/-- What leaves the frames as they are. -/
theorem Framed.stay (h : Framed K m) (hr : m.raised = none) (hn : m.native = f :: ns) (hf : f.IsCode)
    {st : LuaState} {openList : Bool} (hstack : st.callStack = m.st.callStack) (hci : st.ci = m.st.ci)
    (hst : st.base = m.st.base) (hcount : st.counters = m.st.counters) (hsaved : st.savedThreads = m.st.savedThreads)
    (hflag : st.ciOverflow = m.st.ciOverflow) (hco : Coroutines K st) (htop : level ns ≤ st.top)
    (hopen : ∀ p, (∀ i, m.st.base ≤ i → (∃ k, f = .execute k) → p i) → OpenIn K m.st p → OpenIn K st p)
    (hatTop : openList = false → (∃ k, f = .execute k) → ∀ c ∈ m.st.chain.head?, K.atTop c.top st.top) :
    Framed K { m with st, openList } := by
  obtain ⟨c, cs, p, hchain, hbase, hok, -, hfits, hopen₀⟩ := h.running hr hn hf
  have hchain' : st.chain = c :: cs := by
    rw [← hchain, chain, chain, hstack, hci]
  refine .of_none (p := p) hr ?_ ?_ ?_ (hopen p (fun i hi hexec => ?_) hopen₀) hco ?_
    (fun _ => ⟨c, cs, hchain', hst.trans hbase⟩) ?_ ?_ ?_
  · dsimp only
    rw [hci, hstack]
    exact h.ci_lt
  · rw [hn, level_cons hf]
    exact htop
  · rw [hn]
    change Fits K (f :: ns) st.chain st.counters st.savedThreads p
    rw [hchain', hcount, hsaved]
    exact hfits
  · obtain ⟨k, rfl⟩ := hexec
    exact hfits.owned (hbase ▸ hi)
  · exact (h.calm (by simp [hr])).congr hflag hci.le id
  · rintro hlist ⟨k, ns', hn'⟩ c₁ hc₁
    refine hatTop hlist ⟨k, (List.cons.inj (hn.symm.trans hn')).1⟩ c₁ ?_
    rw [hchain, ← hchain']
    exact hc₁
  · intro pos saved k ns' hn'
    obtain ⟨rfl, -⟩ := List.cons.inj (hn.symm.trans hn')
    exact hf.elim
  · intro _ hn'
    simp [hn] at hn'

theorem Framed.keep (h : Framed K m) (hr : m.raised = none) (hn : m.native = f :: ns) (hf : f.IsCode)
    {st : LuaState} {openList : Bool} (hsame : SameFrames m.st st) (htop : level ns ≤ st.top)
    (hopen : ∀ p, (∀ i, m.st.base ≤ i → (∃ k, f = .execute k) → p i) → OpenIn K m.st p → OpenIn K st p)
    (hatTop : openList = false → (∃ k, f = .execute k) → ∀ c ∈ m.st.chain.head?, K.atTop c.top st.top) :
    Framed K { m with st, openList } :=
  h.stay hr hn hf hsame.callStack hsame.ci hsame.base hsame.counters_eq hsame.savedThreads hsame.ciOverflow
    (h.coroutines.congr hsame.toSameCore) htop hopen hatTop

/-- An error leaves the code that runs. -/
theorem Framed.abandon (h : Framed K m) {err : InFlight} (hr : m.raised = some err) (hn : m.native = f :: ns)
    (hf : f.IsCode) : Framed K { m with native := ns } := by
  obtain ⟨extra, rest, p, hchain, -, hyield, hfits, hopen⟩ := h.fits
  have hlevel := h.level_le
  rw [hn] at hfits hopen hlevel
  rw [level_cons hf] at hopen hlevel
  obtain ⟨gone, rest', q, hrest, hgone, hne, hbelow, hq⟩ : ∃ gone rest' q, rest = gone ++ rest' ∧
      (∀ c ∈ gone, FrameOk (level ns) c) ∧ gone ≠ [] ∧ Fits K ns rest' m.st.counters m.st.savedThreads q ∧
      ∀ i, p i → q i ∨ level ns ≤ i := by
    generalize m.st.counters = n at hfits ⊢
    generalize m.st.savedThreads = ts at hfits ⊢
    cases hfits with
    | @execute _ _ fs c _ rest' _ _ q _ hcs hk hfs hc hcalled hq hbelow =>
      have hall : ∀ c' ∈ fs ++ [c], FrameOk (level ns) c' := by
        intro c' hc'
        rcases List.mem_append.mp hc' with hmem | hmem
        · exact hfs c' hmem
        · exact List.mem_singleton.mp hmem ▸ hc
      refine ⟨fs ++ [c], rest', q, by simp [hcs], hall, by simp, hbelow, fun i hi => ?_⟩
      rcases (hq i).mp hi with ⟨c', hc', hle⟩ | hp
      · have hframe := hall c' hc'
        exact .inr ((hframe.le_func.trans hframe.func_lt.le).trans hle)
      · exact .inl hp
    | @rust _ _ c rest' _ _ _ hrust hcaller hc hcalled hbelow =>
      exact ⟨[c], rest', p, rfl, fun c' hc' => List.mem_singleton.mp hc' ▸ hc, by simp, hbelow, fun i hi => .inl hi⟩
    | site => exact hf.elim
    | resume => exact hf.elim
  have hopen' : OpenIn K m.st fun i => q i ∨ level ns ≤ i := by
    refine hopen.mono fun i hi => ?_
    rcases hi with hp | ⟨-, hle⟩
    · exact hq i hp
    · exact .inr hle
  have hchain' : m.st.chain = (extra ++ gone) ++ rest' := by rw [hchain, hrest, List.append_assoc]
  refine ⟨h.ci_lt, hlevel, ⟨extra ++ gone, rest', q, hchain', by simp [hr], fun n hn' => ?_, hbelow, ?_⟩, h.coroutines,
    fun hne' => ?_, by simp [hr], by simp [hr], by simp [hr], by simp [hr]⟩
  · obtain ⟨hzero, hframes, -⟩ := hyield n hn'
    refine ⟨hzero, fun c hc => ?_, fun hnil => absurd (List.append_eq_nil_iff.mp hnil).2 hne⟩
    rcases List.mem_append.mp hc with hmem | hmem
    · exact hframes c hmem
    · exact (hgone c hmem).mono (Nat.zero_le _)
  · exact hopen'.mono fun i hi => hi.imp_right fun hle => ⟨by simp [hr], hle⟩
  · intro hK hover
    have hin := h.calm hne' hK hover
    rwa [hn, handlerIn_cons hf] at hin

end Framed

end Rilua.Vm
