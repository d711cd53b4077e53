import Rilua.Vm.CallSpec

/-! The call protocol. The machine that moves arguments, frames and results about on one stack does what
    the machine with a frame of its own for every invocation does, over every run in which a native
    function does not read a stale slot as a missing argument. -/

namespace Rilua.Vm

open Lib Gc LuaState

/-! ### Stack of frames -/

variable {get get' : ℕ → Val} {proto proto' : Val → Option Proto} {hi hi' : ℕ} {c : CallInfo} {f : Frame}
  {cs : List CallInfo} {fs : List Frame}

/-- The frames `cs`, of which the first ends at `hi`, are the invocations `fs`. The outermost one belongs to
    what called into the thread, the host or a `resume`, and has whatever lies on the stack. -/
inductive FramesRel (get : ℕ → Val) (proto : Val → Option Proto) : ℕ → List CallInfo → List Frame → Prop
  | host {hi : ℕ} {f : Frame} (c : CallInfo) (he : f.entry = .host) (hr : f.regs = window get 0 hi) :
    FramesRel get proto hi [c] [f]
  | frame {hi : ℕ} {c : CallInfo} {f : Frame} {cs : List CallInfo} {fs : List Frame}
      (h : FrameRel get proto hi c f) (hs : FramesRel get proto c.func cs fs) :
    FramesRel get proto hi (c :: cs) (f :: fs)

/-- The registers of a frame may change, what is below its base does not. -/
theorem FrameRel.regs (h : FrameRel get proto hi c f) (hget : ∀ i, c.func ≤ i → i < c.base → get' i = get i)
    (hproto : proto' (get c.func) = proto (get c.func)) (hle : c.base ≤ hi') :
    FrameRel get' proto' hi' c { f with regs := window get' c.base hi' } where
  func_lt := h.func_lt
  base_le := hle
  proto_eq := by rw [hget _ le_rfl h.func_lt, hproto, ← h.proto_eq]
  regs_eq := rfl
  varargs_eq := by
    rw [window_congr fun i hi hi' => hget i (Nat.le_of_succ_le hi) hi']
    exact h.varargs_eq
  wanted_eq := h.wanted_eq
  top_eq := h.top_eq
  pc_eq := h.pc_eq
  base_eq := h.base_eq

theorem FrameRel.congr (h : FrameRel get proto hi c f) (hget : ∀ i, c.func ≤ i → i < hi → get' i = get i)
    (hproto : proto' (get c.func) = proto (get c.func)) : FrameRel get' proto' hi c f := by
  have h' : FrameRel get' proto' hi c { f with regs := window get' c.base hi } :=
    h.regs (fun i hi hi' => hget i hi (hi'.trans_le h.base_le)) hproto h.base_le
  rwa [window_congr fun i hi hi' => hget i (h.func_lt.le.trans hi) hi', ← h.regs_eq] at h'

theorem FrameRel.withPc (h : FrameRel get proto hi c f) (pc : ℕ) :
    FrameRel get proto hi { c with savedPc := pc } { f with pc } where
  func_lt := h.func_lt
  base_le := h.base_le
  proto_eq := h.proto_eq
  regs_eq := h.regs_eq
  varargs_eq := h.varargs_eq
  wanted_eq := h.wanted_eq
  top_eq := h.top_eq
  pc_eq := rfl
  base_eq := h.base_eq

namespace FramesRel

theorem congr (h : FramesRel get proto hi cs fs) (hget : ∀ i < hi, get' i = get i)
    (hproto : ∀ c ∈ cs, proto' (get c.func) = proto (get c.func)) : FramesRel get' proto' hi cs fs := by
  induction h with
  | host c he hr => exact .host c he (by rw [window_congr fun i _ hi => hget i hi, hr])
  | frame h hs ih =>
    have hlt := h.func_lt.trans_le h.base_le
    exact .frame (h.congr (fun i _ hi => hget i hi) (hproto _ (by simp)))
      (ih (fun i hi => hget i (hi.trans hlt)) fun c hc => hproto c (by simp [hc]))

theorem length_eq (h : FramesRel get proto hi cs fs) : cs.length = fs.length := by
  induction h with
  | host => rfl
  | frame _ _ ih => exact congrArg (· + 1) ih

/-- What is left of the frames when the first `k` are dropped. -/
theorem drop (h : FramesRel get proto hi cs fs) {k : ℕ} (hk : k < fs.length) :
    ∃ hi' ≤ hi, FramesRel get proto hi' (cs.drop k) (fs.drop k) := by
  induction k generalizing hi cs fs with
  | zero => exact ⟨hi, le_rfl, h⟩
  | succ k ih =>
    cases h with
    | host => simp at hk
    | frame h hs =>
      obtain ⟨hi', hle, h'⟩ := ih hs (by simpa using hk)
      exact ⟨hi', hle.trans (h.func_lt.le.trans h.base_le), h'⟩

/-- Every frame but the outermost has registers of its own. -/
theorem of_ne_host (h : FramesRel get proto hi (c :: cs) (f :: fs)) (hf : f.entry ≠ .host) :
    FrameRel get proto hi c f ∧ FramesRel get proto c.func cs fs := by
  cases h with
  | host _ he _ => exact (hf he).elim
  | frame h hs => exact ⟨h, hs⟩

/-- Values appended to the stack above a frame are appended to its registers. -/
theorem append {vals : List Val} (h : FramesRel get proto hi (c :: cs) (f :: fs)) (hle : hi ≤ hi')
    (hget : ∀ i < hi, get' i = get i) (hvals : window get' hi hi' = vals) :
    FramesRel get' proto hi' (c :: cs) ({ f with regs := f.regs ++ vals } :: fs) := by
  cases h with
  | host _ he hr =>
    refine .host c he ?_
    rw [← window_append get' (Nat.zero_le hi) hle, hvals, window_congr fun i _ hi => hget i hi, ← hr]
  | frame h hs =>
    have hbase := h.base_le
    have hlt := h.func_lt
    refine .frame ?_ (hs.congr (fun i hi => hget i (by omega)) fun _ _ => rfl)
    rw [h.regs_eq, ← hvals, ← window_congr fun i _ hi => hget i hi, window_append _ hbase hle]
    exact h.regs (fun i _ hi => hget i (by omega)) rfl (hbase.trans hle)

end FramesRel

/-! ### Native stack -/

/-- What the native stack is doing belongs to the invocations `fs`: an interpreter loop to the Lua functions
    it has called, and an activation of a native function to that function. -/
inductive NativeRel : List Activation → List Frame → Prop
  | host {f : Frame} (he : f.entry = .host) : NativeRel [] [f]
  | first {f : Frame} {fs : List Frame} {native : List Activation} (hf : f.proto.isSome)
      (he : f.entry = .native) (h : NativeRel native fs) : NativeRel (.execute 1 :: native) (f :: fs)
  | next {n : ℕ} {f : Frame} {fs : List Frame} {native : List Activation} (hf : f.proto.isSome)
      (he : f.entry = .call) (h : NativeRel (.execute (n + 1) :: native) fs) :
    NativeRel (.execute (n + 2) :: native) (f :: fs)
  | opCall {c : ℕ} {f : Frame} {fs : List Frame} {native : List Activation} (hf : f.proto = none)
      (he : f.entry = .call) (hc : f.wanted.isSome ↔ c ≠ 0) (hne : native ≠ []) (h : NativeRel native fs) :
    NativeRel (.opCall c :: native) (f :: fs)
  | opTailCall {f : Frame} {fs : List Frame} {native : List Activation} (hf : f.proto = none)
      (he : f.entry = .tailCall) (h : NativeRel native fs) : NativeRel (.opTailCall :: native) (f :: fs)
  | callFunction {f : Frame} {fs : List Frame} {native : List Activation} (hf : f.proto = none)
      (he : f.entry = .native) (h : NativeRel native fs) : NativeRel (.callFunction :: native) (f :: fs)

namespace NativeRel

variable {native : List Activation}

/-- Only the prototype, the entry and the wanted results of an invocation matter. -/
theorem withHead {f' : Frame} (h : NativeRel native (f :: fs)) (hp : f'.proto.isSome = f.proto.isSome)
    (he : f'.entry = f.entry) (hw : f'.wanted = f.wanted) : NativeRel native (f' :: fs) := by
  have hnone : f.proto = none → f'.proto = none := by
    intro hf
    rw [hf] at hp
    simpa using hp
  cases h with
  | host hentry => exact .host (he.trans hentry)
  | first hf hentry h => exact .first (hp.trans hf) (he.trans hentry) h
  | next hf hentry h => exact .next (hp.trans hf) (he.trans hentry) h
  | opCall hf hentry hc hne h => exact .opCall (hnone hf) (he.trans hentry) (hw ▸ hc) hne h
  | opTailCall hf hentry h => exact .opTailCall (hnone hf) (he.trans hentry) h
  | callFunction hf hentry h => exact .callFunction (hnone hf) (he.trans hentry) h

theorem exists_cons (h : NativeRel native fs) : ∃ f fs', fs = f :: fs' := by
  cases h <;> exact ⟨_, _, rfl⟩

/-- Every invocation but the outermost has a caller. -/
theorem exists_caller (h : NativeRel native (f :: fs)) (hne : native ≠ []) : ∃ caller fs', fs = caller :: fs' := by
  cases h with
  | host => exact (hne rfl).elim
  | first _ _ h => exact h.exists_cons
  | next _ _ h => exact h.exists_cons
  | opCall _ _ _ _ h => exact h.exists_cons
  | opTailCall _ _ h => exact h.exists_cons
  | callFunction _ _ h => exact h.exists_cons

/-- The Lua functions of an interpreter loop. -/
theorem of_execute {n : ℕ} (h : NativeRel (.execute n :: native) fs) :
    0 < n ∧ NativeRel native (fs.drop n) ∧ ∃ f fs', fs = f :: fs' ∧ f.proto.isSome := by
  induction n generalizing fs with
  | zero => cases h
  | succ n ih =>
    cases h with
    | first hf he h => exact ⟨Nat.one_pos, h, _, _, rfl, hf⟩
    | next hf he h =>
      obtain ⟨-, hdrop, -⟩ := ih h
      exact ⟨Nat.succ_pos _, hdrop, _, _, rfl, hf⟩

/-- The outermost invocation is below everything on the native stack. -/
theorem entry_ne (h : NativeRel native (f :: fs)) (hne : native ≠ []) : f.entry ≠ .host := by
  cases h with
  | host => exact (hne rfl).elim
  | first _ he _ => simp [he]
  | next _ he _ => simp [he]
  | opCall _ he _ _ _ => simp [he]
  | opTailCall _ he _ => simp [he]
  | callFunction _ he _ => simp [he]

/-- What is no interpreter loop is a native function. -/
theorem proto_eq (h : NativeRel native (f :: fs)) (hnil : native ≠ []) (hne : ∀ n as, native ≠ .execute n :: as) :
    f.proto = none := by
  cases h with
  | host => exact (hnil rfl).elim
  | first _ _ _ => exact (hne _ _ rfl).elim
  | next _ _ _ => exact (hne _ _ rfl).elim
  | opCall hf _ _ _ _ => exact hf
  | opTailCall hf _ _ => exact hf
  | callFunction hf _ _ => exact hf

theorem unwind {k : ℕ} {native' : List Activation} (h : NativeRel native fs)
    (hk : Machine.unwindNative k native = some native') : NativeRel native' (fs.drop k) := by
  induction k, native using Machine.unwindNative.induct generalizing fs with
  | case1 native =>
    rw [Machine.unwindNative] at hk
    cases hk
    exact h
  | case2 k n native hle ih =>
    rw [Machine.unwindNative, if_pos hle] at hk
    have hdrop := ih h.of_execute.2.1 hk
    rwa [List.drop_drop, Nat.add_sub_of_le hle] at hdrop
  | case3 k n native hle =>
    rw [Machine.unwindNative, if_neg hle] at hk
    cases hk
  | case4 k x native hx ih =>
    rw [Machine.unwindNative.eq_3 _ _ _ hx] at hk
    cases h with
    | first hf he h => exact (hx _ rfl).elim
    | next hf he h => exact (hx _ rfl).elim
    | opCall hf he hc hne h => exact ih h hk
    | opTailCall hf he h => exact ih h hk
    | callFunction hf he h => exact ih h hk
  | case5 k =>
    rw [Machine.unwindNative] at hk
    cases hk

theorem setReg (h : NativeRel native fs) (j i : ℕ) (v : Val) : NativeRel native (setReg j i v fs) := by
  induction h with
  | host he =>
    rw [Vm.setReg]
    split_ifs
    · exact .host he
    · exact .host he
  | first hf he h ih =>
    rw [Vm.setReg]
    split_ifs
    · exact .first hf he h
    · exact .first hf he ih
  | next hf he h ih =>
    rw [Vm.setReg]
    split_ifs
    · exact .next hf he h
    · exact .next hf he ih
  | opCall hf he hc hne h ih =>
    rw [Vm.setReg]
    split_ifs
    · exact .opCall hf he hc hne h
    · exact .opCall hf he hc hne ih
  | opTailCall hf he h ih =>
    rw [Vm.setReg]
    split_ifs
    · exact .opTailCall hf he h
    · exact .opTailCall hf he ih
  | callFunction hf he h ih =>
    rw [Vm.setReg]
    split_ifs
    · exact .callFunction hf he h
    · exact .callFunction hf he ih

end NativeRel

/-! ### The current frame -/

/-- The frame `c` on top of `cs` is the current one, and the invocations are `f` and `fs`. -/
structure Current (s : LuaState) (c : CallInfo) (cs : List CallInfo) (f : Frame) (fs : List Frame) : Prop where
  ci_lt : s.ci < s.callStack.length
  chain_eq : s.chain = c :: cs
  base_eq : s.base = c.base
  frame : FrameRel s.stackGet s.gc.protoOf s.top c f
  rest : FramesRel s.stackGet s.gc.protoOf c.func cs fs

/-- The invocations of a thread, the current one first. -/
structure Standing (s : LuaState) (fs : List Frame) : Prop where
  ci_lt : s.ci < s.callStack.length
  base_eq : s.base = (s.callInfo s.ci).base
  frames : FramesRel s.stackGet s.gc.protoOf s.top s.chain fs

namespace Current

variable {s s' t : LuaState}

theorem standing (h : Current s c cs f fs) : Standing s (f :: fs) where
  ci_lt := h.ci_lt
  base_eq := by rw [callInfo_ci h.ci_lt h.chain_eq, h.base_eq]
  frames := by
    rw [h.chain_eq]
    exact .frame h.frame h.rest

theorem of_standing (h : Standing s (f :: fs)) (hf : f.entry ≠ .host) : ∃ c cs, Current s c cs f fs := by
  have hframes := h.frames
  rw [LuaState.chain_eq h.ci_lt] at hframes
  obtain ⟨hframe, hrest⟩ := hframes.of_ne_host hf
  exact ⟨_, _, h.ci_lt, LuaState.chain_eq h.ci_lt, h.base_eq, hframe, hrest⟩

theorem func_lt (h : Current s c cs f fs) : c.func < c.base := h.frame.func_lt

/-- Registers of the current frame change, and its end may move. -/
theorem withRegs {regs : List Val} (h : Current s c cs f fs) (honly : OnlyStack s s')
    (hproto : ∀ d ∈ c :: cs, s'.gc.protoOf (s.stackGet d.func) = s.gc.protoOf (s.stackGet d.func))
    (hget : ∀ i < c.base, s'.stackGet i = s.stackGet i) (hle : c.base ≤ s'.top)
    (hregs : s'.slots c.base s'.top = regs) : Current s' c cs { f with regs } fs where
  ci_lt := honly.ci_lt h.ci_lt
  chain_eq := honly.chain_eq.trans h.chain_eq
  base_eq := honly.base_eq.trans h.base_eq
  frame := by
    rw [← hregs]
    exact h.frame.regs (fun i _ hi => hget i hi) (hproto c (by simp)) hle
  rest := h.rest.congr (fun i hi => hget i (hi.trans h.func_lt)) fun d hd => hproto d (by simp [hd])

/-- The end of the current frame moves. -/
theorem resize {n : ℕ} (h : Current s c cs f fs) :
    ∃ regs, Resized n f.regs regs ∧ Current { s with top := s.base + n } c cs { f with regs } fs := by
  have hle : c.base ≤ s.base + n := by
    rw [h.base_eq]
    exact Nat.le_add_right ..
  refine ⟨s.slots c.base (s.base + n), ⟨by simp [slots, h.base_eq], ?_⟩,
    h.withRegs ⟨_, _, _, rfl⟩ (fun _ _ => rfl) (fun _ _ => rfl) hle rfl⟩
  rw [h.base_eq]
  rw [h.frame.regs_eq, take_window]
  exact window_prefix _ _ (min_le_right ..)

theorem write (h : Current s c cs f fs) (i : ℕ) (v : Val) :
    Current (s.stackSet (s.base + i) v) c cs { f with regs := f.regs.set i v } fs := by
  have hbase := h.base_eq
  refine h.withRegs ⟨_, _, _, rfl⟩ (fun _ _ => rfl) (fun k hk => ?_) h.frame.base_le ?_
  · rw [stackGet_stackSet, Function.update_of_ne (by omega)]
  · show window (s.stackSet (s.base + i) v).stackGet c.base s.top = _
    rw [stackGet_stackSet, hbase, window_update, ← h.frame.regs_eq]

theorem push (h : Current s c cs f fs) (v : Val) : Current (s.push v) c cs { f with regs := f.regs ++ [v] } fs := by
  have hle := h.frame.base_le
  refine h.withRegs ⟨_, _, _, rfl⟩ (fun _ _ => rfl) (fun k hk => ?_) (show c.base ≤ s.top + 1 by omega) ?_
  · rw [stackGet_push, Function.update_of_ne (by omega)]
  · show window (s.push v).stackGet c.base (s.top + 1) = _
    rw [window_concat _ hle, stackGet_push, Function.update_self, h.frame.regs_eq,
      window_congr fun k _ hk => Function.update_of_ne hk.ne _ _]

theorem openCall (pc : ℕ) {a b : ℕ} (h : Current s c cs f fs) (hb : b = 0 → s.base + a < s.top) :
    ∃ regs, Opened b (a + b) f.regs regs ∧ c.base + a < (s.openCall pc a b).top ∧
      (s.openCall pc a b).gc = s.gc ∧ Current (s.openCall pc a b) { c with savedPc := pc } cs { f with regs, pc } fs := by
  have hpc : ∀ {t : LuaState} {f' : Frame}, Current t c cs f' fs →
      Current (t.modifyCallInfo t.ci fun c => { c with savedPc := pc }) { c with savedPc := pc } cs
        { f' with pc } fs := by
    intro t f' ht
    refine ⟨?_, chain_modifyCallInfo ht.ci_lt ht.chain_eq _, ht.base_eq, ht.frame.withPc pc, ht.rest⟩
    show t.ci < (t.callStack.modify _ _).length
    rw [List.length_modify]
    exact ht.ci_lt
  rw [LuaState.openCall]
  rcases Nat.eq_zero_or_pos b with rfl | hpos
  · exact ⟨f.regs, by simp [Opened], by rw [← h.base_eq]; exact hb rfl, rfl, hpc h⟩
  · have hb' : b ≠ 0 := by omega
    obtain ⟨regs, hregs, hcur⟩ := h.resize (n := a + b)
    rw [if_pos hb', Nat.add_assoc]
    refine ⟨regs, by rw [Opened, if_neg hb']; exact hregs, ?_, rfl, hpc hcur⟩
    show c.base + a < s.base + (a + b)
    have := h.base_eq
    omega

theorem call {a : ℕ} {wanted : Option ℕ} {res : CallResult} (entry : Entry) (h : Current s c cs f fs)
    (ha : c.base + a < s.top) (he : s.precall (c.base + a) wanted = .ok (s', res)) :
    ∃ below func args r args' f' c', f.regs = below ++ func :: args ∧ below.length = a ∧
      resolve s.gc func args = some (r, args') ∧ enter s.gc r args' wanted entry = some (s'.gc, f') ∧
      f'.RunBy res ∧ Current s' c' (c :: cs) f' ({ f with regs := below } :: fs) := by
  obtain ⟨r, args', f', hresolve, henter, hcalled, hres⟩ := precall_spec entry ha h.ci_lt he
  obtain ⟨c', hchain, hfunc, hbase, hrel⟩ := hcalled.frame
  have hbelow : ∀ i < c.base + a, s'.stackGet i = s.stackGet i := fun i hi =>
    hcalled.below i hi
  have hlt := h.func_lt
  refine ⟨s.slots c.base (c.base + a), _, _, r, args', f', c', ?_, by simp [slots], hresolve, henter, hres,
    hcalled.ci_lt, by rw [hchain, h.chain_eq], hbase, hrel, ?_⟩
  · rw [h.frame.regs_eq, slots, slots, ← window_cons _ ha, window_append _ (Nat.le_add_right ..) ha.le]
  · refine .frame ?_ (h.rest.congr (fun i hi => hbelow i (by omega)) fun _ _ => by rw [hcalled.protoOf_eq])
    rw [hfunc, slots, ← window_congr fun i _ hi => hbelow i hi]
    exact h.frame.regs (fun i _ hi => hbelow i (by omega)) (by rw [hcalled.protoOf_eq]) (Nat.le_add_right ..)

theorem replaceFrame {cp : CallInfo} {fp : Frame} (h : Current s c (cp :: cs) f (fp :: fs))
    (hlen : f.regs.length = f.window) (hfp : fp.entry ≠ .host) :
    ∃ c', Current s.replaceFrame c' cs { f with wanted := fp.wanted } fs ∧ s.replaceFrame.gc = s.gc := by
  obtain ⟨hprev, hrest⟩ := h.rest.of_ne_host hfp
  have hlt : cp.func < c.func := hprev.func_lt.trans_le hprev.base_le
  obtain ⟨c', hchain, hci, hfunc, hbase, hrel, hbelow⟩ :=
    replaceFrame_spec h.ci_lt h.chain_eq h.frame hlen hlt
  refine ⟨c', ⟨hci, hchain, hbase, ?_, ?_⟩, rfl⟩
  · rw [hprev.wanted_eq]
    exact hrel
  · rw [hfunc]
    exact hrest.congr hbelow fun _ _ => rfl

/-- The results are appended to the registers the caller has left. -/
theorem poscall {f' : Frame} (firstResult : ℕ) (h : Current s c cs f (f' :: fs)) :
    Standing (s.poscall firstResult).1
        ({ f' with regs := f'.regs ++ deliver f.wanted (s.slots firstResult s.top) } :: fs) ∧
      (s.poscall firstResult).2 = f.wanted.isSome ∧ (s.poscall firstResult).1.gc = s.gc := by
  obtain ⟨c', cs', rfl⟩ : ∃ c' cs', cs = c' :: cs' := List.exists_cons_of_length_pos (by
    rw [h.rest.length_eq]
    exact Nat.succ_pos _)
  obtain ⟨hleft, hfixed⟩ := poscall_spec firstResult h.ci_lt h.chain_eq
  refine ⟨⟨hleft.ci_lt, ?_, ?_⟩, by rw [hfixed, h.frame.wanted_eq], hleft.gc_eq⟩
  · rw [hleft.base_eq, callInfo_ci hleft.ci_lt hleft.chain_eq]
  · rw [hleft.chain_eq, hleft.gc_eq, h.frame.wanted_eq]
    exact h.rest.append hleft.le_top hleft.below hleft.results_eq

theorem openRet {a b : ℕ} (h : Current s c cs f fs) (ht : t = if b ≠ 0 then { s with top := s.base + a + b - 1 } else s) :
    ∃ regs, Opened b (a + b - 1) f.regs regs ∧ t.gc = s.gc ∧ Current t c cs { f with regs } fs := by
  subst ht
  rcases Nat.eq_zero_or_pos b with rfl | hpos
  · exact ⟨f.regs, by simp [Opened], rfl, h⟩
  · have hb : b ≠ 0 := by omega
    obtain ⟨regs, hregs, hcur⟩ := h.resize (n := a + b - 1)
    rw [if_pos hb, show s.base + a + b - 1 = s.base + (a + b - 1) by omega]
    exact ⟨regs, by rw [Opened, if_neg hb]; exact hregs, rfl, hcur⟩

/-- The results are the registers from `a` up to the end. -/
theorem slots_eq_drop (h : Current s c cs f fs) (a : ℕ) : s.slots (s.base + a) s.top = f.regs.drop a := by
  rw [h.frame.regs_eq, drop_window, h.base_eq, slots]

theorem restoreTop (h : Current s c cs f fs) :
    ∃ regs, Resized f.window f.regs regs ∧ Current s.restoreTop c cs { f with regs } fs := by
  rw [LuaState.restoreTop, callInfo_ci h.ci_lt h.chain_eq, h.frame.top_eq, ← h.base_eq]
  exact h.resize

/-- After an `OP_CALL` for a fixed number of results the caller has all its registers again. -/
theorem receives {wanted : Option ℕ} {results : List Val} (hf : f.entry ≠ .host)
    (h : Standing s ({ f with regs := f.regs ++ deliver wanted results } :: fs)) :
    ∃ regs, Receives wanted .call results f { f with regs } ∧
      (if wanted.isSome then s.restoreTop else s).gc = s.gc ∧
      Standing (if wanted.isSome then s.restoreTop else s) ({ f with regs } :: fs) := by
  rcases hw : wanted with _ | n
  · rw [hw] at h
    exact ⟨_, .all (.inl rfl), rfl, h⟩
  · rw [hw] at h
    obtain ⟨c, cs, hcur⟩ := of_standing h hf
    obtain ⟨regs, hsize, hcur'⟩ := hcur.restoreTop
    exact ⟨regs, .restored rfl rfl hsize, rfl, hcur'.standing⟩

end Current

variable {s : LuaState}

theorem chain_unwind (hci : s.ci < s.callStack.length) {j : ℕ} (hj : j ≤ s.ci) {t : LuaState}
    (hstack : t.callStack = s.callStack) (ht : t.ci = j) : t.chain = s.chain.drop (s.ci - j) := by
  rw [chain, chain, hstack, ht, List.drop_reverse, List.length_take, List.take_take]
  congr 2
  omega

/-- Catching an error leaves the frame of the native function that catches it as it was. -/
theorem Current.unwind {native native' : List Activation} {j : ℕ} (h : Current s c cs f fs)
    (hnat : NativeRel native (f :: fs)) (hpos : 0 < j) (hj : j ≤ s.ci)
    (hunw : Machine.unwindNative (s.ci - j) native = some native')
    (hne : ∀ n as, native' ≠ .execute n :: as) :
    ∃ f' fs' c' cs', f :: fs = (f :: fs).take (s.ci - j) ++ f' :: fs' ∧ fs'.length = j ∧ f'.proto = none ∧
      f'.regs <+: s.slots c'.base s.top ∧
      Current { s with ci := j, base := (s.callInfo j).base, ciOverflow := if j < maxCalls then false else s.ciOverflow }
        c' cs' { f' with regs := s.slots c'.base s.top } fs' ∧
      NativeRel native' ({ f' with regs := s.slots c'.base s.top } :: fs') := by
  have hdrop := hnat.unwind hunw
  have hframes : FramesRel s.stackGet s.gc.protoOf s.top (c :: cs) (f :: fs) := .frame h.frame h.rest
  have hchain := chain_unwind h.ci_lt hj (t := { s with
    ci := j, base := (s.callInfo j).base, ciOverflow := if j < maxCalls then false else s.ciOverflow }) rfl rfl
  rw [h.chain_eq] at hchain
  have hlen : (f :: fs).length = s.ci + 1 := by
    rw [← hframes.length_eq, ← h.chain_eq, length_chain h.ci_lt]
  obtain ⟨hi', hle, hrel⟩ := hframes.drop (k := s.ci - j) (by omega)
  -- There are invocations left, and the innermost is native.
  obtain ⟨f', fs', hfs⟩ : ∃ f' fs', (f :: fs).drop (s.ci - j) = f' :: fs' := by
    refine List.exists_cons_of_length_pos ?_
    rw [List.length_drop]
    omega
  rw [hfs] at hdrop hrel
  obtain ⟨c', cs', hcs⟩ : ∃ c' cs', (c :: cs).drop (s.ci - j) = c' :: cs' := by
    refine List.exists_cons_of_length_pos ?_
    rw [hrel.length_eq]
    exact Nat.succ_pos _
  rw [hcs] at hrel hchain
  have hfs' : fs'.length = j := by
    have := congrArg List.length hfs
    simp only [List.length_drop, List.length_cons] at this hlen
    omega
  have hnil : native' ≠ [] := by
    rintro rfl
    cases hdrop
    exact hpos.ne hfs'
  obtain ⟨hrel', hrest⟩ := hrel.of_ne_host (hdrop.entry_ne hnil)
  refine ⟨f', fs', c', cs', by rw [← hfs, List.take_append_drop], hfs', hdrop.proto_eq hnil hne, ?_,
    ⟨hj.trans_lt h.ci_lt, hchain, ?_, ?_, hrest⟩, hdrop.withHead rfl rfl rfl⟩
  · rw [hrel'.regs_eq]
    exact window_prefix _ _ hle
  · rw [← callInfo_ci (hj.trans_lt h.ci_lt) hchain]
    rfl
  · exact hrel'.regs (fun _ _ _ => rfl) rfl (hrel'.base_le.trans hle)

/-- The stack slot of register `i` of the frame with index `j`, if the frame has that register now. The
    outermost frame has none. -/
def registerSlot : ℕ → List CallInfo → ℕ → ℕ → Option ℕ
  | _, [], _, _ => none
  | hi, c :: cs, j, i =>
    if cs.length = j then if 0 < j ∧ c.base + i < hi then some (c.base + i) else none
    else registerSlot c.func cs j i

/-- Writing a register that a frame has changes that register of its invocation and nothing else. -/
theorem FramesRel.setReg {j i idx : ℕ} {v : Val} (h : FramesRel get proto hi cs fs)
    (hidx : registerSlot hi cs j i = some idx) :
    FramesRel (Function.update get idx v) proto hi cs (setReg j i v fs) ∧ idx < hi := by
  induction h with
  | host c he hr =>
    rw [registerSlot] at hidx
    split_ifs at hidx with hj hi'
    · exact absurd hj hi'.1.ne
    · cases hidx
  | @frame hi c f cs fs h hs ih =>
    have hlt := h.func_lt
    have hle := h.base_le
    rw [registerSlot] at hidx
    rw [Vm.setReg, ← hs.length_eq]
    split_ifs at hidx ⊢ with hj hi'
    · obtain rfl := Option.some.inj hidx
      refine ⟨.frame ?_ (hs.congr (fun k hk => Function.update_of_ne (by omega) _ _) fun _ _ => rfl), hi'.2⟩
      rw [h.regs_eq, ← window_update]
      exact h.regs (fun k _ hk => Function.update_of_ne (by omega) _ _) rfl hle
    · obtain ⟨hrest, hidx'⟩ := ih hidx
      exact ⟨.frame (h.congr (fun k hk _ => Function.update_of_ne (by omega) _ _) rfl) hrest, by omega⟩

/-! ### Machine -/

/-- What bytecode and native functions promise: an instruction that takes its arguments up to the top has
    the function below the top, as has a call from native code, a native function returns values of its own
    frame and catches errors of what it called, an open upvalue is a register of a frame, and the functions
    that are running stay what they are. The run ends when the outermost function has returned. -/
def Machine.Permitted (m : Machine) (op : MachineOp) : Prop :=
  m.native ≠ [] ∧ match op with
    | .setUpval frame i _ =>
      registerSlot m.st.top m.st.chain frame i = some ((m.st.callInfo frame).base + i)
    | .heap g => ∀ c ∈ m.st.chain, g.protoOf (m.st.stackGet c.func) = m.st.gc.protoOf (m.st.stackGet c.func)
    | .call _ a b _ | .tailCall _ a b => b = 0 → m.st.base + a < m.st.top
    | .callFunction i _ => m.st.base + i < m.st.top
    | .retRust n => m.st.base + n ≤ m.st.top
    | .unwind frame => 0 < frame ∧ frame ≤ m.st.ci
    | _ => True

/-- The condition under which a native function sees the arguments it was called with: it compares the
    position with the top, the argument exists, or the slot it reads instead happens to be nil. -/
def Machine.SeesArgs (m : Machine) : MachineOp → Prop
  | .arg .unchecked n => m.st.base + n < m.st.top ∨ m.st.stackGet ((m.st.callInfo m.st.ci).func + 1 + n) = .nil
  | _ => True

/-- The machine `m` is in the state `a`. -/
structure Refines (m : Machine) (a : Calls) : Prop where
  gc_eq : a.gc = m.st.gc
  standing : Standing m.st a.frames
  native : NativeRel m.native a.frames

theorem wanted_of_enter {g g' : Gc} {r : GcRef .closure} {args : List Val} {wanted : Option ℕ} {entry : Entry}
    (h : enter g r args wanted entry = some (g', f)) : f.wanted = wanted ∧ f.entry = entry := by
  rw [enter] at h
  split at h
  · split_ifs at h
    · obtain ⟨⟨g₁, arg⟩, -, heq⟩ := Option.map_eq_some_iff.mp h
      cases heq
      exact ⟨rfl, rfl⟩
    · cases h
      exact ⟨rfl, rfl⟩
  · cases h
    exact ⟨rfl, rfl⟩
  · cases h

/-- The frame of a function does not depend on to whom its results are owed. -/
theorem enter_owing {g g' : Gc} {r : GcRef .closure} {args : List Val} {wanted wanted' : Option ℕ}
    {entry entry' : Entry} (h : enter g r args wanted entry = some (g', f)) :
    enter g r args wanted' entry' = some (g', owing wanted' entry' f) := by
  rw [enter] at h ⊢
  split at h
  · dsimp only
    split_ifs at h ⊢
    · obtain ⟨⟨g₁, arg⟩, harg, heq⟩ := Option.map_eq_some_iff.mp h
      cases heq
      rw [harg]
      rfl
    · cases h
      rfl
  · cases h
    rfl
  · cases h

theorem enter_wanted {g g' : Gc} {r : GcRef .closure} {args : List Val} {wanted : Option ℕ} {entry : Entry}
    (wanted' : Option ℕ) (h : enter g r args wanted entry = some (g', f)) :
    enter g r args wanted' entry = some (g', { f with wanted := wanted' }) := by
  obtain ⟨-, rfl⟩ := wanted_of_enter h
  exact enter_owing h

theorem step_refines {m m' : Machine} {a : Calls} {op : MachineOp} (h : Refines m a) (hperm : m.Permitted op)
    (hargs : m.SeesArgs op) (hstep : m.step op = some m') : ∃ a', Calls.Step a op a' ∧ Refines m' a' := by
  obtain ⟨s, native⟩ := m
  obtain ⟨frames, gc⟩ := a
  obtain ⟨rfl, hstand, hnat⟩ := h
  obtain ⟨hne, hperm⟩ := hperm
  obtain ⟨f, fs, rfl⟩ := hnat.exists_cons
  obtain ⟨c, cs, hcur⟩ := Current.of_standing hstand (hnat.entry_ne hne)
  have hbase := hcur.base_eq
  have hle := hcur.frame.base_le
  have hregs := hcur.frame.regs_eq
  have hhead : ∀ {regs : List Val} {pc : ℕ}, NativeRel native ({ f with regs, pc } :: fs) := hnat.withHead rfl rfl rfl
  dsimp only at hcur hnat hbase hle hregs
  cases op with
  | write i v =>
    dsimp only [Machine.step] at hstep
    cases hstep
    exact ⟨_, .write i v f fs _, rfl, (hcur.write i v).standing, hhead⟩
  | push v =>
    cases hstep
    exact ⟨_, .push v f fs _, rfl, (hcur.push v).standing, hhead⟩
  | setTop n =>
    cases hstep
    obtain ⟨regs, hsize, hcur'⟩ := hcur.resize (n := n)
    exact ⟨_, .setTop fs _ hsize, rfl, hcur'.standing, hhead⟩
  | arg access n =>
    have hnative : f.proto = none → s.arg access n = f.regs[n]?.getD .nil := by
      intro hf
      have hfunc := hcur.frame.base_eq hf
      rw [hregs, getElem?_window]
      cases access with
      | checked =>
        rw [LuaState.arg, hbase]
        split_ifs <;> rfl
      | unchecked =>
        rw [LuaState.arg, callInfo_ci hcur.ci_lt hcur.chain_eq, ← hfunc]
        dsimp only [Machine.SeesArgs] at hargs
        rw [callInfo_ci hcur.ci_lt hcur.chain_eq, ← hfunc, hbase] at hargs
        split_ifs with hlt
        · rfl
        · exact hargs.resolve_left hlt
    dsimp only [Machine.step] at hstep
    split at hstep
    · cases hstep
    · next hexec =>
      cases hstep
      have hf := hnat.proto_eq hne hexec
      refine ⟨_, .arg access n fs _ hf, rfl, ?_, hhead⟩
      rw [← hnative hf]
      exact (hcur.push _).standing
  | setUpval j i v =>
    dsimp only [Machine.step] at hstep
    cases hstep
    obtain ⟨hrel, -⟩ := hstand.frames.setReg (v := v) hperm
    rw [← stackGet_stackSet] at hrel
    exact ⟨_, .setUpval j i v _ _, rfl, ⟨hstand.ci_lt, hstand.base_eq, hrel⟩, hnat.setReg j i v⟩
  | heap g =>
    cases hstep
    exact ⟨_, .heap _ _ g, rfl, ⟨hstand.ci_lt, hstand.base_eq, hstand.frames.congr (fun _ _ => rfl) hperm⟩, hnat⟩
  | call pc a b k =>
    dsimp only [Machine.step] at hstep
    split at hstep
    · next n native' =>
      obtain ⟨hpos, -, f₀, fs₀, hfs, hlua⟩ := hnat.of_execute
      cases hfs
      obtain ⟨n, rfl⟩ := Nat.exists_eq_succ_of_ne_zero hpos.ne'
      obtain ⟨regs, hopen, hlt, hgc, hcur₁⟩ := hcur.openCall pc (a := a) hperm
      rw [hbase] at hstep
      split at hstep
      · next s' cl hpre =>
        cases hstep
        obtain ⟨below, func, args, r, args', f', c', hsplit, hlen, hres, hent, hrun, hcur'⟩ :=
          hcur₁.call .call hlt hpre
        rw [show regs = _ from hsplit] at hopen
        rw [hgc] at hres hent
        obtain ⟨-, hentry⟩ := wanted_of_enter hent
        exact ⟨_, .call hlua hlen hopen hres hent, rfl, hcur'.standing, .next hrun hentry hhead⟩
      · next s' cl hpre =>
        cases hstep
        obtain ⟨below, func, args, r, args', f', c', hsplit, hlen, hres, hent, hrun, hcur'⟩ :=
          hcur₁.call .call hlt hpre
        rw [show regs = _ from hsplit] at hopen
        rw [hgc] at hres hent
        obtain ⟨hwanted, hentry⟩ := wanted_of_enter hent
        refine ⟨_, .call hlua hlen hopen hres hent, rfl, hcur'.standing, .opCall hrun hentry ?_ (by simp) hhead⟩
        rw [hwanted]
        split_ifs with hk <;> simp [hk]
      · cases hstep
    · cases hstep
  | tailCall pc a b =>
    dsimp only [Machine.step] at hstep
    split at hstep
    · next n native' =>
      obtain ⟨hpos, -, f₀, fs₀, hfs, hlua⟩ := hnat.of_execute
      cases hfs
      obtain ⟨regs, hopen, hlt, hgc, hcur₁⟩ := hcur.openCall pc (a := a) hperm
      rw [hbase] at hstep
      split at hstep
      · next s' cl hpre =>
        cases hstep
        obtain ⟨below, func, args, r, args', f', c', hsplit, hlen, hres, hent, hrun, hcur'⟩ :=
          hcur₁.call f.entry hlt hpre
        rw [show regs = _ from hsplit] at hopen
        rw [hgc] at hres hent
        obtain ⟨c'', hcur'', hgc'⟩ := hcur'.replaceFrame (length_regs_of_enter hent hrun)
          (hnat.entry_ne hne)
        obtain ⟨-, hentry⟩ := wanted_of_enter hent
        refine ⟨_, .tailCallLua hlua hlen hopen hres (enter_wanted f.wanted hent) hrun, hgc'.symm, hcur''.standing, ?_⟩
        exact hnat.withHead (hrun.trans hlua.symm) hentry rfl
      · next s' cl hpre =>
        cases hstep
        obtain ⟨below, func, args, r, args', f', c', hsplit, hlen, hres, hent, hrun, hcur'⟩ :=
          hcur₁.call .tailCall hlt hpre
        rw [show regs = _ from hsplit] at hopen
        rw [hgc] at hres hent
        obtain ⟨hwanted, hentry⟩ := wanted_of_enter hent
        exact ⟨_, .tailCallRust hlua hlen hopen hres hent hrun, rfl, hcur'.standing,
          .opTailCall hrun hentry hhead⟩
      · cases hstep
    · cases hstep
  | ret a b =>
    dsimp only [Machine.step] at hstep
    split at hstep
    · next n native' =>
      obtain ⟨caller, fs', rfl⟩ := hnat.exists_caller (by simp)
      generalize hs₁ : (if b ≠ 0 then { s with top := s.base + a + b - 1 } else s) = s₁ at hstep
      obtain ⟨regs, hopen, hgc₁, hcur₁⟩ := hcur.openRet hs₁.symm
      have hbase₁ : s₁.base = s.base := hcur₁.base_eq.trans hbase.symm
      obtain ⟨hcur₂, hfixed, hgc₂⟩ := hcur₁.poscall (s₁.base + a)
      rw [hcur₁.slots_eq_drop a, hbase₁] at hcur₂
      rw [hbase₁] at hfixed hgc₂
      rcases hp : s₁.poscall (s.base + a) with ⟨s₂, fixed⟩
      simp only [hp] at hcur₂ hfixed hgc₂ hstep
      cases hstep
      have hgc : s₂.gc = s.gc := hgc₂.trans hgc₁
      cases hnat with
      | first hf he h =>
        exact ⟨_, .ret hf hopen (.all (.inr (by simp [he]))), hgc.symm, hcur₂,
          h.withHead rfl rfl rfl⟩
      | next hf he h =>
        obtain ⟨regs', hrec, hgc', hcur₃⟩ := Current.receives (h.entry_ne (by simp)) hcur₂
        rw [← he] at hrec
        rw [← hfixed] at hcur₃ hgc'
        exact ⟨_, .ret hf hopen hrec, (hgc'.trans hgc).symm, hcur₃,
          h.withHead rfl rfl rfl⟩
    · cases hstep
  | varArg a b =>
    dsimp only [Machine.step] at hstep
    split at hstep
    · obtain ⟨hpos, -, f₀, fs₀, hfs, hlua⟩ := hnat.of_execute
      cases hfs
      obtain ⟨p, hp, rfl⟩ := Option.map_eq_some_iff.mp hstep
      rw [callInfo_ci hcur.ci_lt hcur.chain_eq, ← hcur.frame.proto_eq] at hp
      obtain ⟨honly, hgc, hbelow, hle', hslots⟩ := opVarArg_spec a b hcur.ci_lt hcur.chain_eq hcur.frame hbase hp
      have hcur' : ∀ {regs : List Val}, (s.opVarArg p a b).slots c.base (s.opVarArg p a b).top = regs →
          Current (s.opVarArg p a b) c cs { f with regs } fs := fun h =>
        hcur.withRegs honly (fun _ _ => by rw [hgc]) hbelow hle' h
      split_ifs at hslots with hb
      · subst hb
        obtain ⟨below, hsize, hregs'⟩ := hslots
        exact ⟨_, .varArgOpen fs _ hlua hsize, hgc.symm, (hcur' hregs').standing, hhead⟩
      · exact ⟨_, .varArg fs _ hlua hb, hgc.symm, (hcur' hslots).standing, hhead⟩
    · cases hstep
  | callFunction i wanted =>
    dsimp only [Machine.step] at hstep
    dsimp only [Machine.Permitted] at hperm
    rw [hbase] at hstep hperm
    split at hstep
    · next s' cl hpre =>
      cases hstep
      obtain ⟨below, func, args, r, args', f', c', hsplit, hlen, hres, hent, hrun, hcur'⟩ :=
        hcur.call .native hperm hpre
      obtain ⟨-, hentry⟩ := wanted_of_enter hent
      exact ⟨_, .callFunction hlen hsplit hres hent, rfl, hcur'.standing, .first hrun hentry hhead⟩
    · next s' cl hpre =>
      cases hstep
      obtain ⟨below, func, args, r, args', f', c', hsplit, hlen, hres, hent, hrun, hcur'⟩ :=
        hcur.call .native hperm hpre
      obtain ⟨-, hentry⟩ := wanted_of_enter hent
      exact ⟨_, .callFunction hlen hsplit hres hent, rfl, hcur'.standing, .callFunction hrun hentry hhead⟩
    · cases hstep
  | retRust n =>
    dsimp only [Machine.step] at hstep
    dsimp only [Machine.Permitted] at hperm
    have hreturn : ∃ caller fs', fs = caller :: fs' ∧ Standing (s.poscall (s.top - n)).1 ({ caller with
          regs := caller.regs ++ deliver f.wanted (f.regs.drop (f.regs.length - n)) } :: fs') ∧
        (s.poscall (s.top - n)).1.gc = s.gc := by
      obtain ⟨caller, fs', rfl⟩ := hnat.exists_caller hne
      obtain ⟨hcur', -, hgc⟩ := hcur.poscall (s.top - n)
      have hlen : f.regs.length = s.top - c.base := by rw [hregs, length_window]
      rw [show s.top - n = s.base + (f.regs.length - n) by omega, hcur.slots_eq_drop] at hcur'
      rw [show s.top - n = s.base + (f.regs.length - n) by omega] at hgc ⊢
      exact ⟨caller, fs', rfl, hcur', hgc⟩
    obtain ⟨caller, fs', rfl, hcur', hgc⟩ := hreturn
    split at hstep
    · next k native' =>
      cases hnat with
      | opCall hf he hk hne' h =>
        rcases hp : s.poscall (s.top - n) with ⟨s', fixed⟩
        simp only [hp] at hcur' hgc hstep
        cases hstep
        obtain ⟨regs, hrec, hgc', hcur''⟩ := Current.receives (h.entry_ne hne') hcur'
        rw [← he] at hrec
        simp only [hk] at hcur'' hgc'
        exact ⟨_, .retRust hf hrec, (hgc'.trans hgc).symm, hcur'',
          h.withHead rfl rfl rfl⟩
    · cases hnat with
      | opTailCall hf he h =>
        cases hstep
        exact ⟨_, .retRust hf (.all (.inr (by simp [he]))), hgc.symm, hcur',
          h.withHead rfl rfl rfl⟩
    · cases hnat with
      | callFunction hf he h =>
        cases hstep
        exact ⟨_, .retRust hf (.all (.inr (by simp [he]))), hgc.symm, hcur',
          h.withHead rfl rfl rfl⟩
    · cases hstep
  | unwind j =>
    dsimp only [Machine.step] at hstep
    dsimp only [Machine.Permitted] at hperm
    split at hstep
    · cases hstep
    · cases hstep
    · next native' hexec hunw =>
      cases hstep
      obtain ⟨f', fs', c', cs', hsplit, hlen, hf', hregs', hcur', hnat'⟩ :=
        hcur.unwind hnat hperm.1 hperm.2 hunw hexec
      rw [hsplit]
      exact ⟨_, .unwind hlen hf' hregs', rfl, hcur'.standing, hnat'⟩

/-- What a run of the machine does, the machine with frames of their own does. -/
theorem run_refines {m m' : Machine} {a : Calls} {ops : List MachineOp}
    (hrun : Run Machine.step (fun m op => m.Permitted op ∧ m.SeesArgs op) m ops m') (h : Refines m a) :
    ∃ a', Calls.Steps a ops a' ∧ Refines m' a' := by
  induction hrun generalizing a with
  | nil m => exact ⟨a, .nil a, h⟩
  | cons hok hst _ ih =>
    obtain ⟨a₁, hstep, h₁⟩ := step_refines h hok.1 hok.2 hst
    obtain ⟨a₂, hsteps, h₂⟩ := ih h₁
    exact ⟨a₂, .cons hstep hsteps, h₂⟩

end Rilua.Vm
