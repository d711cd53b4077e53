import Rilua.Vm.CallRefine
import Rilua.Vm.Control

/-! What the operations of the machine do to the frames: which of them push a frame, pop one or leave the
    frames alone, with everything else they keep. -/

namespace Rilua.Vm

open Lib Gc

namespace LuaState

variable {s s' s'' : LuaState}

/-! ### What is kept -/

/-- The counters and the coroutines are the same, and there are the same upvalues, but for new ones. -/
structure SameCore (s s' : LuaState) : Prop where
  nCcalls : s'.nCcalls = s.nCcalls
  callDepth : s'.callDepth = s.callDepth
  ciOverflow : s'.ciOverflow = s.ciOverflow
  savedThreads : s'.savedThreads = s.savedThreads
  currentThread : s'.currentThread = s.currentThread
  threads : ∀ r : GcRef .thread, s'.gc.heap.get r = s.gc.heap.get r
  cells : ∀ r : GcRef .upvalue, (s.gc.heap.get r).isSome → (s'.gc.heap.get r).isSome

/-- The upvalues are the same. -/
structure SameOpen (s s' : LuaState) : Prop where
  openUpvalues : s'.openUpvalues = s.openUpvalues
  upvalues : ∀ r : GcRef .upvalue, s'.gc.heap.get r = s.gc.heap.get r

/-- Nothing changed but the frames, the stack and other objects of the heap. -/
structure SameRest (s s' : LuaState) : Prop extends SameCore s s', SameOpen s s'

/-- The frames, the counters and the coroutines are the same. -/
structure SameFrames (s s' : LuaState) : Prop extends SameCore s s' where
  callStack : s'.callStack = s.callStack
  ci : s'.ci = s.ci
  base : s'.base = s.base

namespace SameCore

theorem refl (s : LuaState) : SameCore s s := ⟨rfl, rfl, rfl, rfl, rfl, fun _ => rfl, fun _ => id⟩

theorem trans (h : SameCore s s') (h' : SameCore s' s'') : SameCore s s'' where
  nCcalls := h'.nCcalls.trans h.nCcalls
  callDepth := h'.callDepth.trans h.callDepth
  ciOverflow := h'.ciOverflow.trans h.ciOverflow
  savedThreads := h'.savedThreads.trans h.savedThreads
  currentThread := h'.currentThread.trans h.currentThread
  threads r := (h'.threads r).trans (h.threads r)
  cells r hr := h'.cells r (h.cells r hr)

theorem counters_eq (h : SameCore s s') : s'.counters = s.counters := by
  rw [counters, counters, h.nCcalls, h.callDepth]

end SameCore

namespace SameOpen

theorem refl (s : LuaState) : SameOpen s s := ⟨rfl, fun _ => rfl⟩

theorem trans (h : SameOpen s s') (h' : SameOpen s' s'') : SameOpen s s'' :=
  ⟨h'.openUpvalues.trans h.openUpvalues, fun r => (h'.upvalues r).trans (h.upvalues r)⟩

theorem openAt_eq (h : SameOpen s s') : s'.openAt = s.openAt := by
  funext r
  rw [openAt, openAt, h.upvalues r]

theorem pushAll (vs : List Val) : ∀ s : LuaState, SameOpen s (s.pushAll vs) := by
  induction vs with
  | nil => exact refl
  | cons v vs ih =>
    intro s
    have hpush : SameOpen s (s.push v) := ⟨rfl, fun _ => rfl⟩
    exact hpush.trans (ih (s.push v))

end SameOpen

namespace SameRest

theorem refl (s : LuaState) : SameRest s s := ⟨.refl s, .refl s⟩

theorem trans (h : SameRest s s') (h' : SameRest s' s'') : SameRest s s'' :=
  ⟨h.toSameCore.trans h'.toSameCore, h.toSameOpen.trans h'.toSameOpen⟩

/-- Whatever changes the frames, the stack and the heap outside of its upvalues and coroutines. -/
theorem of_heap {stack : List Val} {base top ci : ℕ} {callStack : List CallInfo} {gc : Gc}
    (hu : gc.heap.arena .upvalue = s.gc.heap.arena .upvalue)
    (ht : gc.heap.arena .thread = s.gc.heap.arena .thread) :
    SameRest s { s with stack, base, top, ci, callStack, gc } where
  nCcalls := rfl
  callDepth := rfl
  ciOverflow := rfl
  openUpvalues := rfl
  savedThreads := rfl
  currentThread := rfl
  threads r := by
    change gc.heap.get r = s.gc.heap.get r
    rw [Heap.get, ht, Heap.get]
  cells r hr := by
    change (gc.heap.get r).isSome
    rw [Heap.get, hu]
    exact hr
  upvalues r := by
    change gc.heap.get r = s.gc.heap.get r
    rw [Heap.get, hu, Heap.get]

end SameRest

namespace SameFrames

theorem refl (s : LuaState) : SameFrames s s := ⟨.refl s, rfl, rfl, rfl⟩

theorem trans (h : SameFrames s s') (h' : SameFrames s' s'') : SameFrames s s'' where
  toSameCore := h.toSameCore.trans h'.toSameCore
  callStack := h'.callStack.trans h.callStack
  ci := h'.ci.trans h.ci
  base := h'.base.trans h.base

theorem chain_eq (h : SameFrames s s') : s'.chain = s.chain := by
  rw [chain, chain, h.callStack, h.ci]

theorem ci_lt (h : SameFrames s s') (hci : s.ci < s.callStack.length) : s'.ci < s'.callStack.length := by
  rw [h.callStack, h.ci]
  exact hci

theorem of_stack (s : LuaState) (stack : List Val) (top : ℕ) : SameFrames s { s with stack, top } :=
  ⟨⟨rfl, rfl, rfl, rfl, rfl, fun _ => rfl, fun _ => id⟩, rfl, rfl, rfl⟩

theorem stackSet (s : LuaState) (i : ℕ) (v : Val) : SameFrames s (s.stackSet i v) := of_stack s _ s.top

theorem push (s : LuaState) (v : Val) : SameFrames s (s.push v) := of_stack s _ _

theorem pushAll (vs : List Val) : ∀ s : LuaState, SameFrames s (s.pushAll vs) := by
  induction vs with
  | nil => exact refl
  | cons v vs ih => exact fun s => (push s v).trans (ih (s.push v))

theorem restoreTop (s : LuaState) : SameFrames s s.restoreTop := of_stack s s.stack _

end SameFrames

@[simp] theorem top_stackSet (s : LuaState) (i : ℕ) (v : Val) : (s.stackSet i v).top = s.top := rfl

theorem top_pushAll (vs : List Val) : ∀ s : LuaState, (s.pushAll vs).top = s.top + vs.length := by
  induction vs with
  | nil => exact fun _ => rfl
  | cons v vs ih =>
    intro s
    have htop : (s.push v).top = s.top + 1 := rfl
    rw [List.length_cons, pushAll, List.foldl_cons, ← pushAll, ih, htop]
    omega

/-! ### Entering a function -/

/-- Making an `arg` table leaves everything but tables and strings as it is. -/
theorem arena_argTableOf {g g' : Gc} {p : Proto} {extras : List Val} {arg : Option (GcRef .table)}
    (h : g.argTableOf p extras = some (g', arg)) {k : ObjKind} (ht : k ≠ .table) (hs : k ≠ .string) :
    g'.heap.arena k = g.heap.arena k := by
  rw [Gc.argTableOf] at h
  split_ifs at h
  · obtain ⟨⟨g₁, r⟩, harg, heq⟩ := Option.map_eq_some_iff.mp h
    obtain ⟨rfl, -⟩ := Prod.mk.inj heq
    simp only [Gc.argTable, Option.bind_eq_bind, Option.bind_eq_some_iff, Gc.internString, Gc.allocTable,
      Gc.alloc] at harg
    obtain ⟨t, _, ⟨g₂, nKey⟩, ⟨⟨strings, heap, r₂⟩, hint, hg₂⟩, ⟨t', _⟩, _, ⟨heap', r₃⟩, halloc, hg₁⟩ := harg
    cases hg₂
    cases hg₁
    exact (Heap.arena_alloc_ne halloc ht).trans (Heap.arena_intern_ne hint hs)
  · cases h
    rfl

theorem OnlyStack.sameRest (h : OnlyStack s s') (hgc : s'.gc = s.gc) : SameRest s s' := by
  obtain ⟨stack, top, gc, rfl⟩ := h
  exact .of_heap (by rw [← hgc]) (by rw [← hgc])

theorem relocate_sameRest {p : Proto} {fixed : ℕ} {arg : Option (GcRef .table)} :
    SameRest s (s.relocate p fixed arg).1 := by
  have hcopy : ∀ (n src : ℕ) (t : LuaState), SameRest t (copyParams src n t) := by
    intro n
    induction n with
    | zero => exact fun _ t => .refl t
    | succ n ih =>
      intro src t
      exact SameRest.trans (.of_heap rfl rfl) (ih (src + 1) _)
  have hgrow : SameRest s (s.ensureStackLen (s.top + p.numParams.toNat + 1)) := .of_heap rfl rfl
  cases arg with
  | none => exact hgrow.trans (hcopy _ _ _)
  | some r => exact (hgrow.trans (hcopy _ _ _)).trans (.of_heap rfl rfl)

theorem adjustVarargs_sameRest {p : Proto} {nargs newBase : ℕ}
    (h : s.adjustVarargs p nargs = some (s', newBase)) : SameRest s s' := by
  obtain ⟨-, hgc, honly, -⟩ := padNil_spec (p.numParams.toNat - nargs) s
  rw [adjustVarargs] at h
  obtain ⟨⟨gc, arg⟩, harg, heq⟩ := Option.map_eq_some_iff.mp h
  have hheap : SameRest (padNil (p.numParams.toNat - nargs) s)
      { padNil (p.numParams.toNat - nargs) s with gc } :=
    .of_heap (arena_argTableOf harg (by decide) (by decide)) (arena_argTableOf harg (by decide) (by decide))
  obtain rfl : _ = s' := congrArg Prod.fst heq
  exact ((honly.sameRest hgc).trans hheap).trans relocate_sameRest

theorem pushFrame_sameRest (p : Proto) (pos newBase : ℕ) (wanted : Option ℕ) :
    SameRest s (s.pushFrame p pos newBase wanted) := by
  simp only [pushFrame]
  split_ifs <;> exact .of_heap rfl rfl

theorem enterLua_sameRest {cl : LuaClosure} {pos : ℕ} {wanted : Option ℕ} (h : s.enterLua cl pos wanted = some s') :
    SameRest s s' := by
  rw [enterLua] at h
  obtain ⟨⟨t, newBase⟩, hadj, rfl⟩ := Option.map_eq_some_iff.mp h
  refine SameRest.trans ?_ (pushFrame_sameRest ..)
  split_ifs at hadj
  · exact adjustVarargs_sameRest hadj
  · obtain rfl : _ = t := congrArg Prod.fst (Option.some.inj hadj)
    rw [adjustFixed]
    split_ifs <;> exact .of_heap rfl rfl

/-- `precall` changes the frames, the stack and the heap, to make an `arg` table. -/
theorem precall_sameRest {pos : ℕ} {wanted : Option ℕ} {res : CallResult} (h : s.precall pos wanted = .ok (s', res)) :
    SameRest s s' := by
  rw [precall] at h
  split_ifs at h
  cases hres : s.resolveCallee pos with
  | error e => simp [hres] at h
  | ok x =>
    obtain ⟨t, r⟩ := x
    have hcallee : SameRest s t := by
      rw [resolveCallee] at hres
      split at hres
      · cases hres
        exact .refl s
      · split at hres
        · cases hres
          exact .of_heap rfl rfl
        · cases hres
    simp only [hres] at h
    split at h
    · cases h
    · split at h
      · rename_i hlua
        cases h
        exact hcallee.trans (enterLua_sameRest hlua)
      · cases h
    · cases h
      exact hcallee.trans (.of_heap rfl rfl)

/-- `s'` is `s` after entering the function at `pos`. -/
structure PushedFrame (s s' : LuaState) (pos : ℕ) (wanted : Option ℕ) (res : CallResult) (c : CallInfo) : Prop
    extends SameRest s s' where
  chain_eq : s'.chain = c :: s.chain
  ci_lt : s'.ci < s'.callStack.length
  ci_eq : s'.ci = s.ci + 1
  base_eq : s'.base = c.base
  func_eq : c.func = pos
  wanted_eq : c.numResults = wanted
  func_lt : c.func < c.base
  base_le_top : c.base ≤ s'.top
  base_le_ciTop : c.base ≤ c.top
  top_eq : (∃ cl, res = .lua cl) → s'.top = c.top
  room : s.overflows = false

theorem precall_pushedFrame {pos : ℕ} {wanted : Option ℕ} {res : CallResult} (hpos : pos < s.top)
    (hci : s.ci < s.callStack.length) (h : s.precall pos wanted = .ok (s', res)) :
    ∃ c, PushedFrame s s' pos wanted res c := by
  obtain ⟨r, args, f, -, henter, hcalled, hrun⟩ := precall_spec .call hpos hci h
  obtain ⟨c, hchain, hfunc, hbase, hrel⟩ := hcalled.frame
  have hlen := length_chain hci
  have hlen' := length_chain hcalled.ci_lt
  rw [hchain, List.length_cons] at hlen'
  refine ⟨c, precall_sameRest h, hchain, hcalled.ci_lt, by omega, hbase, hfunc, ?_, hrel.func_lt, hrel.base_le, ?_,
    ?_, ?_⟩
  · rw [← hrel.wanted_eq]
    exact (wanted_of_enter henter).1
  · rw [hrel.top_eq]
    exact Nat.le_add_right ..
  · rintro ⟨cl, rfl⟩
    have hregs := length_regs_of_enter henter hrun
    rw [hrel.regs_eq, length_window] at hregs
    have hle := hrel.base_le
    rw [hrel.top_eq]
    omega
  · rw [precall] at h
    cases ho : s.overflows with
    | true => simp [ho] at h
    | false => rfl

/-! ### Leaving a function -/

theorem poscall_sameRest (s : LuaState) (firstResult : ℕ) : SameRest s (s.poscall firstResult).1 := by
  rw [poscall]
  split <;> exact .of_heap rfl rfl

/-- `s'` is `s` after its frame `c` was left, on top of `c'`. -/
structure PoppedFrame (s s' : LuaState) (c c' : CallInfo) (cs : List CallInfo) : Prop extends SameRest s s' where
  chain_eq : s'.chain = c' :: cs
  ci_lt : s'.ci < s'.callStack.length
  base_eq : s'.base = c'.base
  func_le_top : c.func ≤ s'.top
  top_of_none : c.numResults = some 0 → s'.top = c.func

theorem poscall_poppedFrame {c c' : CallInfo} {cs : List CallInfo} (firstResult : ℕ)
    (hci : s.ci < s.callStack.length) (h : s.chain = c :: c' :: cs) :
    PoppedFrame s (s.poscall firstResult).1 c c' cs ∧ (s.poscall firstResult).2 = c.numResults.isSome := by
  obtain ⟨hleft, hfixed⟩ := poscall_spec firstResult hci h
  refine ⟨⟨poscall_sameRest s firstResult, hleft.chain_eq, hleft.ci_lt, hleft.base_eq, hleft.le_top, ?_⟩, hfixed⟩
  intro hnone
  rw [poscall, callInfo_ci hci h, hnone]
  rfl

theorem PoppedFrame.ci_eq {c c' : CallInfo} {cs : List CallInfo} (h : PoppedFrame s s' c c' cs)
    (hci : s.ci < s.callStack.length) (hchain : s.chain = c :: c' :: cs) : s.ci = s'.ci + 1 := by
  have hlen := length_chain hci
  have hlen' := length_chain h.ci_lt
  rw [hchain, List.length_cons] at hlen
  rw [h.chain_eq] at hlen'
  omega

/-- `s'` is `s` after the frame `c` took the place of the frame `cp` below. -/
structure ReplacedFrame (s s' : LuaState) (c cp c' : CallInfo) (cs : List CallInfo) : Prop extends SameRest s s' where
  chain_eq : s'.chain = c' :: cs
  ci_lt : s'.ci < s'.callStack.length
  base_eq : s'.base = c'.base
  func_eq : c'.func = cp.func
  wanted_eq : c'.numResults = cp.numResults
  func_lt : c'.func < c'.base
  top_eq : s'.top = c'.top
  base_le_ciTop : c'.base ≤ c'.top

theorem replaceFrame_replacedFrame {c cp : CallInfo} {cs : List CallInfo} (hci : s.ci < s.callStack.length)
    (h : s.chain = c :: cp :: cs) (hlt : c.func < c.base) (htop : c.base ≤ s.top) :
    ∃ c', ReplacedFrame s s.replaceFrame c cp c' cs := by
  obtain ⟨hchain, hpop⟩ := chain_popCi hci h
  have hprev : s.callInfo (s.ci - 1) = cp := callInfo_ci hpop hchain
  refine ⟨{ cp with base := cp.func + (c.base - c.func), top := cp.func + (s.top - c.func), savedPc := c.savedPc },
    ?_, ?_, ?_, ?_, rfl, rfl, ?_, ?_, ?_⟩
  · rw [replaceFrame]
    exact .of_heap rfl rfl
  · rw [replaceFrame, hprev, callInfo_ci hci h]
    exact chain_modifyCallInfo hpop hchain _
  · change s.ci - 1 < (s.callStack.modify _ _).length
    rw [List.length_modify]
    exact hpop
  · rw [replaceFrame, hprev, callInfo_ci hci h]
    rfl
  · change cp.func < cp.func + (c.base - c.func)
    omega
  · rw [replaceFrame, hprev, callInfo_ci hci h]
    rfl
  · change cp.func + (c.base - c.func) ≤ cp.func + (s.top - c.func)
    omega

/-! ### Upvalues -/

theorem get_modify {k : ObjKind} (g : Gc) (u : GcRef k) (f : Obj k → Obj k) (r : GcRef k) :
    (g.modify u f).heap.get r = if r = u then (g.heap.get u).map f else g.heap.get r :=
  Heap.get_modify g.heap u r f

theorem get_modify_ne {k j : ObjKind} (hj : j ≠ k) (g : Gc) (u : GcRef k) (f : Obj k → Obj k) (r : GcRef j) :
    (g.modify u f).heap.get r = g.heap.get r :=
  Heap.get_modify_kind hj g.heap u f r

theorem isSome_get_modify {k : ObjKind} (g : Gc) (u : GcRef k) (f : Obj k → Obj k) (r : GcRef k) :
    ((g.modify u f).heap.get r).isSome = (g.heap.get r).isSome := by
  rw [get_modify]
  split_ifs with hr
  · rw [hr, Option.isSome_map]
  · rfl

theorem SameFrames.of_upvalues (openUpvalues : List (GcRef .upvalue)) {gc : Gc} (stack : List Val)
    (ht : ∀ r : GcRef .thread, gc.heap.get r = s.gc.heap.get r)
    (hu : ∀ r : GcRef .upvalue, (s.gc.heap.get r).isSome → (gc.heap.get r).isSome) :
    SameFrames s { s with openUpvalues, gc, stack } :=
  ⟨⟨rfl, rfl, rfl, rfl, rfl, ht, hu⟩, rfl, rfl, rfl⟩

theorem SameFrames.modify (openUpvalues : List (GcRef .upvalue)) (stack : List Val) (u : GcRef .upvalue)
    (f : Upvalue → Upvalue) : SameFrames s { s with openUpvalues, gc := s.gc.modify u f, stack } :=
  .of_upvalues openUpvalues stack (get_modify_ne (by decide) s.gc u f) fun r => (isSome_get_modify s.gc u f r).ge

theorem closeUpvalue_sameFrames (s : LuaState) (r : GcRef .upvalue) : SameFrames s (s.closeUpvalue r) :=
  .modify s.openUpvalues s.stack r _

theorem closeFrom_sameFrames (level : ℕ) (rs : List (GcRef .upvalue)) :
    ∀ s : LuaState, SameFrames s (closeFrom level rs s) ∧ (closeFrom level rs s).top = s.top := by
  induction rs with
  | nil => exact fun s => ⟨.of_upvalues _ _ (fun _ => rfl) fun _ => id, rfl⟩
  | cons r rs ih =>
    intro s
    rw [closeFrom]
    split_ifs
    · obtain ⟨hsame, htop⟩ := ih (s.closeUpvalue r)
      exact ⟨(closeUpvalue_sameFrames s r).trans hsame, htop⟩
    · exact ⟨.of_upvalues _ _ (fun _ => rfl) fun _ => id, rfl⟩

theorem closeUpvalues_sameFrames (s : LuaState) (level : ℕ) : SameFrames s (s.closeUpvalues level) :=
  (closeFrom_sameFrames level s.openUpvalues s).1

@[simp] theorem top_closeUpvalues (s : LuaState) (level : ℕ) : (s.closeUpvalues level).top = s.top :=
  (closeFrom_sameFrames level s.openUpvalues s).2

theorem setUpvalue_sameFrames (s : LuaState) (r : GcRef .upvalue) (v : Val) :
    SameFrames s (s.setUpvalue r v) ∧ (s.setUpvalue r v).top = s.top := by
  rw [setUpvalue]
  split
  · exact ⟨.modify s.openUpvalues _ r _, rfl⟩
  · exact ⟨.refl s, rfl⟩

/-- The list of open upvalues with a new one, open at `idx`. -/
def insertOpen (s : LuaState) (idx : ℕ) (r : GcRef .upvalue) : List (GcRef .upvalue) :=
  s.openUpvalues.insertIdx
    ((s.openUpvalues.findIdx? fun r => (s.openAt r).all (· < idx)).getD s.openUpvalues.length) r

theorem findUpvalue_cases {idx : ℕ} {r : GcRef .upvalue} (h : s.findUpvalue idx = some (s', r)) :
    s' = s ∨ ∃ gc, s.searchOpen idx s.openUpvalues = none ∧ s.gc.allocUpvalue (Upvalue.newOpen idx) = some (gc, r) ∧
      s' = { s with gc, openUpvalues := insertOpen { s with gc } idx r } := by
  rw [findUpvalue] at h
  split at h
  · cases h
    exact .inl rfl
  · rename_i hsearch
    obtain ⟨⟨gc, r'⟩, halloc, heq⟩ := Option.map_eq_some_iff.mp h
    cases heq
    exact .inr ⟨gc, hsearch, halloc, rfl⟩

/-- What allocating an upvalue does to the heap. -/
theorem get_allocUpvalue {g g' : Gc} {uv : Upvalue} {r : GcRef .upvalue} (h : g.allocUpvalue uv = some (g', r)) :
    g.heap.get r = none ∧ g'.heap.get r = some uv ∧
      (∀ r' : GcRef .upvalue, r' ≠ r → g'.heap.get r' = g.heap.get r') ∧
      ∀ t : GcRef .thread, g'.heap.get t = g.heap.get t := by
  rw [Gc.allocUpvalue, Gc.alloc, Option.bind_eq_bind, Option.bind_eq_some_iff] at h
  obtain ⟨⟨heap, r₀⟩, hheap, hgc⟩ := h
  cases hgc
  change g.heap.get r = none ∧ heap.get r = some uv ∧ (∀ r', r' ≠ r → heap.get r' = g.heap.get r') ∧
    ∀ t : GcRef .thread, heap.get t = g.heap.get t
  refine ⟨?_, ?_, fun r' hr' => ?_, fun t => ?_⟩
  · rw [Heap.get_eq, Heap.cell_alloc_fresh hheap]
    rfl
  · rw [Heap.get_eq, Heap.cell_alloc_self hheap]
    rfl
  · rw [Heap.get_eq, Heap.get_eq, Heap.cell_alloc_ne hheap]
    rintro ⟨⟩
    exact hr' rfl
  · rw [Heap.get, Heap.arena_alloc_ne hheap (by decide), Heap.get]

theorem findUpvalue_sameFrames {idx : ℕ} {r : GcRef .upvalue} (h : s.findUpvalue idx = some (s', r)) :
    SameFrames s s' ∧ s'.top = s.top := by
  obtain rfl | ⟨gc, -, halloc, rfl⟩ := findUpvalue_cases h
  · exact ⟨.refl _, rfl⟩
  · obtain ⟨hfresh, -, hne, hthreads⟩ := get_allocUpvalue halloc
    refine ⟨.of_upvalues _ s.stack hthreads fun r' hr' => ?_, rfl⟩
    rw [hne r' fun heq => by simp [heq, hfresh] at hr']
    exact hr'

/-! ### Swapping threads -/

theorem reopen_sameFrames (s : LuaState) (p : GcRef .upvalue × ℕ) :
    SameFrames s (s.reopen p) ∧ (s.reopen p).top = s.top :=
  ⟨.modify _ _ p.1 _, rfl⟩

theorem foldl_reopen_sameFrames (ps : List (GcRef .upvalue × ℕ)) :
    ∀ s : LuaState, SameFrames s (ps.foldl reopen s) ∧ (ps.foldl reopen s).top = s.top := by
  induction ps with
  | nil => exact fun s => ⟨.refl s, rfl⟩
  | cons p ps ih =>
    intro s
    obtain ⟨hsame, htop⟩ := reopen_sameFrames s p
    obtain ⟨hsame', htop'⟩ := ih (s.reopen p)
    exact ⟨hsame.trans hsame', htop'.trans htop⟩

theorem closeAll_sameFrames (ps : List (GcRef .upvalue × ℕ)) : ∀ s : LuaState, SameFrames s (s.closeAll ps) := by
  induction ps with
  | nil => exact SameFrames.refl
  | cons p ps ih =>
    intro s
    have hclose : SameFrames s { s with gc := s.gc.modify p.1 fun uv => Upvalue.close uv s.stack } :=
      .modify s.openUpvalues s.stack p.1 _
    exact hclose.trans (ih _)

/-- `s` runs the thread `t`. -/
structure Runs (s : LuaState) (t : ThreadFields) : Prop where
  callStack : s.callStack = t.callStack
  ci : s.ci = t.ci
  base : s.base = t.base
  top : s.top = t.top
  nCcalls : s.nCcalls = t.nCcalls
  callDepth : s.callDepth = t.callDepth
  ciOverflow : s.ciOverflow = t.ciOverflow

theorem Runs.of_sameFrames {t : ThreadFields} (h : Runs s t) (hsame : SameFrames s s') (htop : s'.top = s.top) :
    Runs s' t where
  callStack := hsame.callStack.trans h.callStack
  ci := hsame.ci.trans h.ci
  base := hsame.base.trans h.base
  top := htop.trans h.top
  nCcalls := hsame.nCcalls.trans h.nCcalls
  callDepth := hsame.callDepth.trans h.callDepth
  ciOverflow := hsame.ciOverflow.trans h.ciOverflow

theorem loadThreadByRef_spec {co : GcRef .thread} {t : LuaThread} (status : ThreadStatus)
    (h : s.gc.heap.get co = some t) :
    Runs (s.loadThreadByRef co status) t.toThreadFields ∧
      (∀ r : GcRef .upvalue, (s.gc.heap.get r).isSome →
        ((s.loadThreadByRef co status).gc.heap.get r).isSome) ∧
      ∀ r : GcRef .thread, (s.loadThreadByRef co status).gc.heap.get r =
        if r = co then some (shell t status) else s.gc.heap.get r := by
  rw [loadThreadByRef, h]
  obtain ⟨hsame, htop⟩ := foldl_reopen_sameFrames t.suspendedUpvals
    { s with toThreadFields := t.toThreadFields, gc := s.gc.modify co fun _ => shell t status }
  have hruns : Runs { s with toThreadFields := t.toThreadFields, gc := s.gc.modify co fun _ => shell t status }
      t.toThreadFields := ⟨rfl, rfl, rfl, rfl, rfl, rfl, rfl⟩
  refine ⟨(hruns.of_sameFrames hsame htop).of_sameFrames (.of_upvalues _ _ (fun _ => rfl) fun _ => id) rfl,
    fun r hr => hsame.cells r ?_, fun r => ?_⟩
  · change ((s.gc.modify co _).heap.get r).isSome
    rw [get_modify_ne (by decide)]
    exact hr
  · refine (hsame.threads r).trans ((get_modify s.gc co _ r).trans ?_)
    rw [h]
    rfl

/-- Entering the coroutine `co` that is `t`. -/
theorem swapIn_spec {co : GcRef .thread} {t : LuaThread} (h : s.gc.heap.get co = some t) :
    Runs (s.swapIn co) t.toThreadFields ∧
      (∃ resumer : LuaThread, resumer.toThreadFields = s.toThreadFields ∧ resumer.suspendedUpvals = s.openPairs ∧
        (s.swapIn co).savedThreads = resumer :: s.savedThreads) ∧
      (∀ r : GcRef .upvalue, (s.gc.heap.get r).isSome → ((s.swapIn co).gc.heap.get r).isSome) ∧
      ∀ r : GcRef .thread, (s.swapIn co).gc.heap.get r =
        if r = co then some (shell t .running) else s.gc.heap.get r := by
  have hclose := closeAll_sameFrames s.openPairs s
  obtain ⟨hruns, hcells, hthreads⟩ := loadThreadByRef_spec .running ((hclose.threads co).trans h)
  refine ⟨⟨hruns.1, hruns.2, hruns.3, hruns.4, hruns.5, hruns.6, hruns.7⟩, ⟨_, rfl, rfl, rfl⟩,
    fun r hr => hcells r (hclose.cells r hr), fun r => (hthreads r).trans ?_⟩
  rw [hclose.threads r]

/-- `s` after the running thread was stored in its coroutine `co`, with `fields` running. -/
def stored (s : LuaState) (co : GcRef .thread) (status : ThreadStatus) (fields : ThreadFields) : LuaState :=
  { s.closeAll s.openPairs with
    toThreadFields := fields
    gc := (s.closeAll s.openPairs).gc.modify co fun _ =>
      { toThreadFields := s.toThreadFields, suspendedUpvals := s.openPairs, status } }

theorem swapOut_eq {co : GcRef .thread} {caller : Option (GcRef .thread)} {status : ThreadStatus}
    (h : s.swapOut co caller status = some s') :
    ∃ resumer ts, s.savedThreads = resumer :: ts ∧ s' =
      { resumer.suspendedUpvals.foldl reopen (s.stored co status resumer.toThreadFields) with
        savedThreads := ts, currentThread := caller } := by
  rw [swapOut] at h
  split at h
  · cases h
  · rename_i resumer ts hsaved
    cases h
    exact ⟨resumer, ts, hsaved, rfl⟩

theorem stored_cells (s : LuaState) (co : GcRef .thread) (status : ThreadStatus) (fields : ThreadFields)
    (r : GcRef .upvalue) (hr : (s.gc.heap.get r).isSome) : ((s.stored co status fields).gc.heap.get r).isSome := by
  change (((s.closeAll s.openPairs).gc.modify co _).heap.get r).isSome
  rw [get_modify_ne (by decide)]
  exact (closeAll_sameFrames s.openPairs s).cells r hr

/-- Leaving the coroutine `co` for `resumer`. -/
theorem swapOut_spec {co : GcRef .thread} {caller : Option (GcRef .thread)} {status : ThreadStatus}
    (h : s.swapOut co caller status = some s') :
    ∃ resumer ts, s.savedThreads = resumer :: ts ∧ Runs s' resumer.toThreadFields ∧ s'.savedThreads = ts ∧
      (∀ r : GcRef .upvalue, (s.gc.heap.get r).isSome → (s'.gc.heap.get r).isSome) ∧
      ∀ r : GcRef .thread, s'.gc.heap.get r =
        if r = co then (s.gc.heap.get co).map fun _ =>
          { toThreadFields := s.toThreadFields, suspendedUpvals := s.openPairs, status } else s.gc.heap.get r := by
  obtain ⟨resumer, ts, hsaved, rfl⟩ := swapOut_eq h
  have hruns : Runs (s.stored co status resumer.toThreadFields) resumer.toThreadFields :=
    ⟨rfl, rfl, rfl, rfl, rfl, rfl, rfl⟩
  obtain ⟨hsame, htop⟩ := foldl_reopen_sameFrames resumer.suspendedUpvals (s.stored co status resumer.toThreadFields)
  have hruns' := hruns.of_sameFrames hsame htop
  refine ⟨resumer, ts, hsaved, ⟨hruns'.1, hruns'.2, hruns'.3, hruns'.4, hruns'.5, hruns'.6, hruns'.7⟩, rfl,
    fun r hr => hsame.cells r (stored_cells s co status _ r hr), fun r => (hsame.threads r).trans ?_⟩
  have hclose := closeAll_sameFrames s.openPairs s
  rw [stored, get_modify, hclose.threads, hclose.threads]

end LuaState

end Rilua.Vm
