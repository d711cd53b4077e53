import Rilua.Vm.ControlCells
import Rilua.Vm.StackTop

/-! Calls of the host after each other (`exec`, `call_function` and `call_function_traced`). Between the calls
    nothing is left of those before: the stack, the frames, the counters and the open upvalues are as they were,
    and an upvalue that was captured has the last value of its local, on its own. An error breaks this, since
    `run_proto` restores nothing and the others do not close the upvalues of the frames they drop. -/

namespace Rilua.Vm

open Lib Gc LuaState

/-- What the host finds of the state between its calls. -/
structure HostView where
  top : ℕ
  base : ℕ
  ci : ℕ
  nCcalls : ℕ
  callDepth : ℕ
  ciOverflow : Bool
  openUpvalues : List (GcRef .upvalue)

namespace LuaState

def hostView (s : LuaState) : HostView where
  top := s.top
  base := s.base
  ci := s.ci
  nCcalls := s.nCcalls
  callDepth := s.callDepth
  ciOverflow := s.ciOverflow
  openUpvalues := s.openUpvalues

/-- The value that a closure reads through an upvalue. -/
def upvalueGet (s : LuaState) (r : GcRef .upvalue) : Option Val :=
  (s.gc.heap.get r).map fun uv => Upvalue.get uv s.stack

/-- The upvalue belongs to a coroutine that can be resumed. -/
def Suspended (s : LuaState) (r : GcRef .upvalue) : Prop :=
  ∃ (co : GcRef .thread) (t : LuaThread), s.gc.heap.get co = some t ∧ (t.status = .initial ∨ t.status = .suspended) ∧
    (r ∈ t.openUpvalues ∨ r ∈ t.suspendedUpvals.map Prod.fst)

end LuaState

namespace Control

/-- Only the host is in progress. -/
def AtHost (m : Control) : Prop := m.native = [] ∧ m.raised = none

/-- An `exec` returns one value and does not fail. Where another call fails, or an error is recovered from without
    closing upvalues, none is open from the function on that was called; the traced call does not fail by an
    overflow. -/
def Contained (m : Control) (op : ControlOp) : Prop :=
  match m.raised, m.native, op with
  | none, .site _ _ _ .exec :: _, .done => m.st.top = 1
  | some _, .site _ _ _ .exec :: _, .unwind _ => False
  | some _, .site pos _ _ (.hostCall traced) :: _, .unwind _ =>
    NoneOpen m.st pos ∧ (traced = true → m.st.ciOverflow = false)
  | some _, .site pos _ saved (.hook _ true) :: _, .unwind _ | some _, .site pos _ saved (.reader false) :: _, .unwind _ =>
    Intact m.st saved ∧ NoneOpen m.st pos ∧ m.st.ciOverflow = false
  | some _, .site pos _ _ (.reader true) :: _, .unwind _ | some _, .site pos _ _ (.handler _) :: _, .unwind _ =>
    NoneOpen m.st pos
  | _, _, _ => True

/-- The step does not collect the upvalue. -/
def Keeps (r : GcRef .upvalue) (s : LuaState) : ControlOp → Prop
  | .heap g => HeapOk s g ∧ (g.heap.get r).isSome
  | _ => True

/-- The step neither collects the upvalue nor writes through it. -/
def Spares (r : GcRef .upvalue) (s : LuaState) (op : ControlOp) : Prop := Keeps r s op ∧ ∀ v, op ≠ .setUpval r v

end Control

/-- The frames of the host, with the upvalues. -/
def hostSpec : FrameSpec where
  bottom cs n := cs = [CallInfo.initial] ∧ n = ⟨0, 0⟩
  atTop _ _ := True
  strict := True
  atTop_refl _ := trivial
  bottom_base := by
    rintro - cs n ⟨rfl, -⟩ c hc
    obtain rfl : CallInfo.initial = c := by simpa using hc
    rfl

variable {m m' : Control} {s s' : LuaState} {ops : List ControlOp} {r : GcRef .upvalue} {v : Val}

theorem allows_of_contained {op : ControlOp} (hsound : m.Sound op) (hcont : m.Contained op) : hostSpec.Allows m op := by
  refine ⟨hsound, ?_⟩
  unfold Control.Contained at hcont
  split
  · rename_i pos wanted saved k ns hr hn
    rw [hr, hn] at hcont
    cases k with
    | exec => exact fun _ => hcont
    | tmRes => exact fun _ _ _ _ _ _ _ => trivial
    | orderTm => exact fun _ _ _ _ _ _ _ => trivial
    | resume => exact fun _ _ _ _ _ => trivial
    | _ => exact trivial
  · rename_i err pos wanted saved k ns v hr hn
    rw [hr, hn] at hcont
    cases k with
    | hook savedCiTop ret =>
      cases ret with
      | true => exact ⟨hcont.1, fun _ => hcont.2⟩
      | false => exact trivial
    | reader recovers =>
      cases recovers with
      | true => exact fun _ => hcont
      | false => exact ⟨hcont.1, fun _ => hcont.2⟩
    | handler => exact fun _ => hcont
    | exec => exact hcont.elim
    | hostCall => exact fun _ => hcont
    | _ => exact trivial
  · trivial

/-! ### Every open upvalue is in the list -/

/-- The upvalues that are open are in the list. -/
def OpenListed (s : LuaState) : Prop := ∀ r i, s.openAt r = some i → r ∈ s.openUpvalues

/-- What allocating a coroutine does to the heap. -/
theorem get_allocThread {g g' : Gc} {t : LuaThread} {co : GcRef .thread} (h : g.allocThread t = some (g', co)) :
    (∀ r' : GcRef .upvalue, g'.heap.get r' = g.heap.get r') ∧
      ∀ co' : GcRef .thread, g'.heap.get co' = if co' = co then some t else g.heap.get co' := by
  rw [Gc.allocThread, Gc.alloc, Option.bind_eq_bind, Option.bind_eq_some_iff] at h
  obtain ⟨⟨heap, co₀⟩, hheap, hgc⟩ := h
  cases hgc
  refine ⟨fun r' => ?_, fun co' => ?_⟩
  · change heap.get r' = g.heap.get r'
    rw [Heap.get, Heap.arena_alloc_ne hheap (by decide), Heap.get]
  · change heap.get co' = if co' = co then some t else g.heap.get co'
    rw [Heap.get_eq, Heap.get_eq]
    split_ifs with heq
    · subst heq
      rw [Heap.cell_alloc_self hheap]
      rfl
    · rw [Heap.cell_alloc_ne hheap]
      rintro ⟨⟩
      exact heq rfl

/-- The upvalues that are not closed stay as they are. -/
theorem get_closeAll (ps : List (GcRef .upvalue × ℕ)) : ∀ s : LuaState,
    (r ∉ ps.map Prod.fst → (s.closeAll ps).gc.heap.get r = s.gc.heap.get r) ∧
      (s.openAt r = none ∨ r ∈ ps.map Prod.fst → (s.closeAll ps).openAt r = none) := by
  induction ps with
  | nil => exact fun s => ⟨fun _ => rfl, fun h => h.resolve_right (by simp)⟩
  | cons p ps ih =>
    intro s
    obtain ⟨hkept, hclosed⟩ := ih (s.closeUpvalue p.1)
    refine ⟨fun hr => ?_, fun hr => hclosed ?_⟩
    · obtain ⟨hne, hr'⟩ := not_or.mp (mt List.mem_cons.mpr hr)
      refine (hkept hr').trans ?_
      rw [closeUpvalue, get_modify, if_neg hne]
    · rw [openAt_closeUpvalue]
      rw [List.map_cons, List.mem_cons] at hr
      split_ifs with heq
      · exact .inl rfl
      · exact hr.imp_right fun hor => hor.resolve_left heq

theorem openAt_closeAll_openPairs (h : OpenListed s) (r : GcRef .upvalue) : (s.closeAll s.openPairs).openAt r = none := by
  refine (get_closeAll s.openPairs s).2 ?_
  cases hat : s.openAt r with
  | none => exact .inl rfl
  | some i =>
    obtain ⟨uv, huv, hi⟩ := Option.bind_eq_some_iff.mp hat
    refine .inr (List.mem_map.mpr ⟨(r, i), ?_, rfl⟩)
    rw [openPairs, List.mem_filterMap]
    exact ⟨r, h r i hat, by simp [huv, hi]⟩

theorem mem_of_mem_openPairs (h : r ∈ s.openPairs.map Prod.fst) : r ∈ s.openUpvalues := by
  obtain ⟨⟨r', i⟩, hmem, rfl⟩ := List.mem_map.mp h
  rw [openPairs, List.mem_filterMap] at hmem
  obtain ⟨r₀, hr₀, hpair⟩ := hmem
  simp only [Option.bind_eq_bind, Option.bind_eq_some_iff, Option.some.injEq, Prod.mk.injEq] at hpair
  obtain ⟨uv, -, j, -, rfl, -⟩ := hpair
  exact hr₀

/-- What is reopened is in the list, and the other upvalues stay as they are. -/
theorem foldl_reopen_cells (ps : List (GcRef .upvalue × ℕ)) : ∀ s : LuaState,
    (r ∉ ps.map Prod.fst → (ps.foldl reopen s).gc.heap.get r = s.gc.heap.get r) ∧
      (r ∈ (ps.foldl reopen s).openUpvalues ↔ r ∈ s.openUpvalues ∨ r ∈ ps.map Prod.fst) := by
  induction ps with
  | nil => simp
  | cons p ps ih =>
    intro s
    obtain ⟨hkept, hlist⟩ := ih (s.reopen p)
    rw [List.foldl_cons, List.map_cons]
    refine ⟨fun hr => ?_, hlist.trans ?_⟩
    · obtain ⟨hne, hr'⟩ := not_or.mp (mt List.mem_cons.mpr hr)
      refine (hkept hr').trans ?_
      change (s.gc.modify p.1 _).heap.get r = s.gc.heap.get r
      rw [get_modify, if_neg hne]
    · have hopen : r ∈ (s.reopen p).openUpvalues ↔ r ∈ s.openUpvalues ∨ r = p.1 := by
        rw [reopen]
        dsimp only
        split_ifs with hmem
        · exact ⟨.inl, fun hor => hor.elim id fun heq => heq ▸ hmem⟩
        · simp
      rw [hopen, List.mem_cons, or_assoc]

theorem OpenListed.foldl_reopen (ps : List (GcRef .upvalue × ℕ)) (h : OpenListed s) : OpenListed (ps.foldl reopen s) := by
  intro r i hat
  obtain ⟨hkept, hlist⟩ := foldl_reopen_cells (r := r) ps s
  rw [hlist]
  refine or_iff_not_imp_right.mpr fun hr => h r i ?_
  rw [openAt, ← hkept hr]
  exact hat

/-- Only what is in the list is closed, and what is closed leaves it. -/
theorem OpenListed.closeFrom (level : ℕ) (rs : List (GcRef .upvalue)) :
    ∀ s : LuaState, (∀ r i, s.openAt r = some i → r ∈ rs) → OpenListed (LuaState.closeFrom level rs s) := by
  induction rs with
  | nil => exact fun s h => h
  | cons r rs ih =>
    intro s h
    rw [LuaState.closeFrom]
    split_ifs
    · refine ih (s.closeUpvalue r) fun r' i hat => ?_
      rw [openAt_closeUpvalue] at hat
      split_ifs at hat with heq
      exact (List.mem_cons.mp (h r' i hat)).resolve_left heq
    · exact h

theorem mem_insertOpen (idx : ℕ) (r r' : GcRef .upvalue) :
    r' ∈ insertOpen s idx r ↔ r' = r ∨ r' ∈ s.openUpvalues := by
  rw [insertOpen]
  refine List.mem_insertIdx ?_
  cases hfind : s.openUpvalues.findIdx? fun r => (s.openAt r).all (· < idx) with
  | none => exact le_rfl
  | some k => exact (List.findIdx?_eq_some_iff_findIdx_eq.mp hfind).1.le

theorem openListed_cellInv : CellInv (fun s op => ∀ g, op = .heap g → HeapOk s g) OpenListed where
  same h hsame r i hat := by
    rw [hsame.openUpvalues]
    refine h r i ?_
    rw [openAt, ← hsame.upvalues r]
    exact hat
  closeUpvalues lo h := .closeFrom lo _ _ h
  findUpvalue he h r i hat := by
    obtain rfl | ⟨gc, -, halloc, rfl⟩ := findUpvalue_cases he
    · exact h r i hat
    · obtain ⟨-, -, hne, -⟩ := get_allocUpvalue halloc
      refine (mem_insertOpen _ _ _).mpr (or_iff_not_imp_left.mpr fun hr => h r i ?_)
      rw [openAt, ← hne r hr]
      exact hat
  setUpvalue := by
    intro s u v _ h r i hat
    rw [setUpvalue] at hat ⊢
    split at hat
    · rename_i uv huv
      refine h r i ?_
      change ((s.gc.modify u _).heap.get r).bind Upvalue.stackIndex = some i at hat
      rw [get_modify] at hat
      split_ifs at hat with heq
      · subst heq
        rw [openAt, huv]
        rw [huv] at hat
        obtain ⟨j | w⟩ := (uv : Upvalue)
        · exact hat
        · exact hat
      · exact hat
    · exact h r i hat
  heap := by
    intro s g hok h r i hat
    refine h r i ?_
    obtain ⟨uv, huv, hi⟩ := Option.bind_eq_some_iff.mp hat
    have hg := hok g rfl
    cases hget : s.gc.heap.get r with
    | none => simp [hg.fresh r uv hget huv] at hi
    | some uv' =>
      have hkept := (hg.upvalues r uv' hget).resolve_right (by simp [huv])
      rw [openAt, hget, ← hkept]
      exact hat
  create halloc h r i hat := by
    refine h r i ?_
    rw [openAt, ← (get_allocThread halloc).1 r]
    exact hat
  swapIn := by
    intro s co t hget _ h
    have hclosed := openAt_closeAll_openPairs h
    have hstart : OpenListed { s.closeAll s.openPairs with
        toThreadFields := t.toThreadFields
        gc := (s.closeAll s.openPairs).gc.modify co fun _ => shell t .running } := by
      intro r i hat
      change ((Gc.modify _ co _).heap.get r).bind Upvalue.stackIndex = some i at hat
      rw [get_modify_ne (by decide)] at hat
      exact absurd ((hclosed r).symm.trans hat) (by simp)
    have hco : (s.closeAll s.openPairs).gc.heap.get co = some t := ((closeAll_sameFrames s.openPairs s).threads co).trans hget
    intro r i hat
    rw [LuaState.swapIn, loadThreadByRef, hco] at hat ⊢
    exact (List.mem_insertionSort _).mpr ((hstart.foldl_reopen t.suspendedUpvals) r i hat)
  swapOut := by
    intro s s' co caller status he h
    obtain ⟨resumer, ts, -, rfl⟩ := swapOut_eq he
    have hclosed := openAt_closeAll_openPairs h
    refine OpenListed.foldl_reopen (s := s.stored co status resumer.toThreadFields) resumer.suspendedUpvals ?_
    intro r i hat
    change ((Gc.modify _ co _).heap.get r).bind Upvalue.stackIndex = some i at hat
    rw [get_modify_ne (by decide)] at hat
    exact absurd ((hclosed r).symm.trans hat) (by simp)

/-! ### A closed upvalue on its own -/

/-- The thread does not reopen the upvalue. -/
def LuaThread.Leaves (t : LuaThread) (r : GcRef .upvalue) : Prop :=
  r ∉ t.openUpvalues ∧ r ∉ t.suspendedUpvals.map Prod.fst

/-- The upvalue has the value `v` of its own, and no thread that may run reopens it. -/
structure Detached (r : GcRef .upvalue) (v : Val) (s : LuaState) : Prop where
  closed : s.gc.heap.get r = some ⟨.closed v⟩
  running : r ∉ s.openUpvalues
  saved : ∀ t ∈ s.savedThreads, t.Leaves r
  coroutines : ∀ (co : GcRef .thread) (t : LuaThread), s.gc.heap.get co = some t →
    t.status = .initial ∨ t.status = .suspended → t.Leaves r

theorem closeFrom_cells (level : ℕ) (rs : List (GcRef .upvalue)) : ∀ s : LuaState,
    (r ∉ rs → (closeFrom level rs s).gc.heap.get r = s.gc.heap.get r) ∧
      (r ∈ (closeFrom level rs s).openUpvalues → r ∈ rs) := by
  induction rs with
  | nil => exact fun s => ⟨fun _ => rfl, id⟩
  | cons r' rs ih =>
    intro s
    rw [closeFrom]
    split_ifs
    · obtain ⟨hkept, hmem⟩ := ih (s.closeUpvalue r')
      refine ⟨fun hr => ?_, fun hr => List.mem_cons_of_mem _ (hmem hr)⟩
      obtain ⟨hne, hr'⟩ := not_or.mp (mt List.mem_cons.mpr hr)
      refine (hkept hr').trans ?_
      rw [closeUpvalue, get_modify, if_neg hne]
    · exact ⟨fun _ => rfl, id⟩

theorem mem_of_searchOpen {idx : ℕ} : ∀ {rs : List (GcRef .upvalue)}, s.searchOpen idx rs = some r → r ∈ rs := by
  intro rs
  induction rs with
  | nil => simp [searchOpen]
  | cons r' rs ih =>
    intro h
    rw [searchOpen] at h
    split at h
    · split_ifs at h
      · cases h
        exact List.mem_cons_self
      · exact List.mem_cons_of_mem _ (ih h)
    · exact List.mem_cons_of_mem _ (ih h)

theorem detached_cellInv (r : GcRef .upvalue) (v : Val) : CellInv (Control.Spares r) (Detached r v) where
  same h hsame :=
    ⟨(hsame.upvalues r).trans h.closed, hsame.openUpvalues ▸ h.running, hsame.savedThreads ▸ h.saved,
      fun co t ht => h.coroutines co t ((hsame.threads co).symm.trans ht)⟩
  closeUpvalues := by
    intro s lo h
    obtain ⟨hkept, hmem⟩ := closeFrom_cells (r := r) lo s.openUpvalues s
    have hframes := closeUpvalues_sameFrames s lo
    exact ⟨(hkept h.running).trans h.closed, fun hr => h.running (hmem hr), hframes.savedThreads ▸ h.saved,
      fun co t ht => h.coroutines co t ((hframes.threads co).symm.trans ht)⟩
  findUpvalue := by
    intro s s' idx r' he h
    have hframes := (findUpvalue_sameFrames he).1
    have hsaved : ∀ t ∈ s'.savedThreads, t.Leaves r := hframes.savedThreads ▸ h.saved
    have hcoroutines := fun co t ht => h.coroutines co t ((hframes.threads co).symm.trans ht)
    obtain rfl | ⟨gc, -, halloc, rfl⟩ := findUpvalue_cases he
    · exact h
    · obtain ⟨hfresh, -, hne, -⟩ := get_allocUpvalue halloc
      have hr : r ≠ r' := by
        rintro rfl
        simp [h.closed] at hfresh
      refine ⟨(hne r hr).trans h.closed, fun hmem => ?_, hsaved, hcoroutines⟩
      exact h.running (((mem_insertOpen _ _ _).mp hmem).resolve_left hr)
  setUpvalue := by
    rintro s u w ⟨-, hwrite⟩ h
    have hne : u ≠ r := fun heq => hwrite w (heq ▸ rfl)
    have hframes := (setUpvalue_sameFrames s u w).1
    have hkept : (s.setUpvalue u w).gc.heap.get r = s.gc.heap.get r ∧ (s.setUpvalue u w).openUpvalues = s.openUpvalues := by
      rw [setUpvalue]
      split
      · refine ⟨?_, rfl⟩
        change (s.gc.modify u _).heap.get r = s.gc.heap.get r
        rw [get_modify, if_neg hne.symm]
      · exact ⟨rfl, rfl⟩
    exact ⟨hkept.1.trans h.closed, hkept.2 ▸ h.running, hframes.savedThreads ▸ h.saved,
      fun co t ht => h.coroutines co t ((hframes.threads co).symm.trans ht)⟩
  heap := by
    rintro s g ⟨⟨hok, hsome⟩, -⟩ h
    have hkept := (hok.upvalues r _ h.closed).resolve_right (Option.isSome_iff_ne_none.mp hsome)
    exact ⟨hkept, h.running, h.saved, fun co t ht => h.coroutines co t (hok.threads co t ht)⟩
  create := by
    intro s gc co func halloc h
    obtain ⟨hup, hthreads⟩ := get_allocThread halloc
    refine ⟨(hup r).trans h.closed, h.running, h.saved, fun co' t ht hst => ?_⟩
    have ht' := (hthreads co').symm.trans ht
    split_ifs at ht'
    · obtain rfl := Option.some.inj ht'
      exact ⟨List.not_mem_nil, List.not_mem_nil⟩
    · exact h.coroutines co' t ht' hst
  swapIn := by
    intro s co t hget hst h
    obtain ⟨-, ⟨resumer, hfields, hpairs, hsaved⟩, -, hthreads⟩ := swapIn_spec hget
    obtain ⟨hopen, hsuspended⟩ := h.coroutines co t hget hst
    have hnot : r ∉ s.openPairs.map Prod.fst := fun hr => h.running (mem_of_mem_openPairs hr)
    have hco : (s.closeAll s.openPairs).gc.heap.get co = some t := ((closeAll_sameFrames s.openPairs s).threads co).trans hget
    obtain ⟨hkept, hlist⟩ := foldl_reopen_cells (r := r) t.suspendedUpvals { s.closeAll s.openPairs with
      toThreadFields := t.toThreadFields
      gc := (s.closeAll s.openPairs).gc.modify co fun _ => shell t .running }
    refine ⟨?_, fun hr => ?_, fun t' ht' => ?_, fun co' t' ht' hst' => ?_⟩
    · rw [LuaState.swapIn, loadThreadByRef, hco]
      refine (hkept hsuspended).trans ?_
      change (Gc.modify _ co _).heap.get r = _
      rw [get_modify_ne (by decide), (get_closeAll s.openPairs s).1 hnot]
      exact h.closed
    · rw [LuaState.swapIn, loadThreadByRef, hco] at hr
      exact (hlist.mp ((List.mem_insertionSort _).mp hr)).elim hopen hsuspended
    · rw [hsaved] at ht'
      obtain rfl | ht' := List.mem_cons.mp ht'
      · refine ⟨?_, hpairs ▸ hnot⟩
        rw [hfields]
        exact h.running
      · exact h.saved t' ht'
    · have ht'' := (hthreads co').symm.trans ht'
      split_ifs at ht''
      · obtain rfl := Option.some.inj ht''
        simp [shell] at hst'
      · exact h.coroutines co' t' ht'' hst'
  swapOut := by
    intro s s' co caller status he h
    obtain ⟨resumer, ts, hsaved, -, hsaved', -, hthreads⟩ := swapOut_spec he
    obtain ⟨resumer', ts', hsaved'', rfl⟩ := swapOut_eq he
    obtain ⟨rfl, rfl⟩ := List.cons.inj (hsaved.symm.trans hsaved'')
    have hnot : r ∉ s.openPairs.map Prod.fst := fun hr => h.running (mem_of_mem_openPairs hr)
    obtain ⟨hopen, hsuspended⟩ := h.saved resumer (hsaved ▸ List.mem_cons_self)
    obtain ⟨hkept, hlist⟩ := foldl_reopen_cells (r := r) resumer.suspendedUpvals
      (s.stored co status resumer.toThreadFields)
    refine ⟨?_, fun hr => (hlist.mp hr).elim hopen hsuspended, fun t' ht' => ?_, fun co' t' ht' hst' => ?_⟩
    · refine (hkept hsuspended).trans ?_
      change (Gc.modify _ co _).heap.get r = _
      rw [get_modify_ne (by decide), (get_closeAll s.openPairs s).1 hnot]
      exact h.closed
    · exact h.saved t' (hsaved ▸ List.mem_cons_of_mem _ ht')
    · have ht'' := (hthreads co').symm.trans ht'
      split_ifs at ht''
      · obtain ⟨t₀, -, rfl⟩ := Option.map_eq_some_iff.mp ht''
        exact ⟨h.running, hnot⟩
      · exact h.coroutines co' t' ht'' hst'

/-- A write through the upvalue stays in it. -/
theorem detached_of_keeps (r : GcRef .upvalue) : CellInv (Control.Keeps r) fun s => ∃ v, Detached r v s where
  same := fun ⟨v, h⟩ hsame => ⟨v, (detached_cellInv r v).same h hsame⟩
  closeUpvalues := fun lo ⟨v, h⟩ => ⟨v, (detached_cellInv r v).closeUpvalues lo h⟩
  findUpvalue := fun he ⟨v, h⟩ => ⟨v, (detached_cellInv r v).findUpvalue he h⟩
  setUpvalue := by
    rintro s u w - ⟨v, h⟩
    by_cases hu : u = r
    · subst hu
      have hframes := (setUpvalue_sameFrames s u w).1
      have hset : s.setUpvalue u w = { s with gc := s.gc.modify u fun _ => ⟨.closed w⟩ } := by
        rw [setUpvalue, h.closed]
        rfl
      rw [hset] at hframes ⊢
      refine ⟨w, ?_, h.running, h.saved, fun co t ht => h.coroutines co t ((hframes.threads co).symm.trans ht)⟩
      change (s.gc.modify u _).heap.get u = _
      rw [get_modify, if_pos rfl, h.closed]
      rfl
    · refine ⟨v, (detached_cellInv r v).setUpvalue ⟨trivial, fun w' heq => hu ?_⟩ h⟩
      cases heq
      rfl
  heap := fun hok ⟨v, h⟩ => ⟨v, (detached_cellInv r v).heap ⟨hok, by simp⟩ h⟩
  create := fun halloc ⟨v, h⟩ => ⟨v, (detached_cellInv r v).create halloc h⟩
  swapIn := fun hget hst ⟨v, h⟩ => ⟨v, (detached_cellInv r v).swapIn hget hst h⟩
  swapOut := fun he ⟨v, h⟩ => ⟨v, (detached_cellInv r v).swapOut he h⟩

/-! ### Between the calls -/

/-- Between the calls the state is as at the beginning. -/
theorem Framed.hostView_eq (h : Framed hostSpec m) (hm : m.AtHost) (hs : s.Idle) :
    m.st.hostView = s.hostView ∧ m.st.savedThreads = [] := by
  obtain ⟨hn, hr⟩ := hm
  obtain ⟨p, hfits, hopen⟩ := h.fits_of_none hr
  rw [hn] at hfits
  obtain ⟨⟨hchain, hcounters⟩, hsaved, hp⟩ := hfits.of_host
  have hlist := (hopen trivial hsaved).eq_nil hp
  have hci : m.st.ci = 0 := by
    have hlen := length_chain h.ci_lt
    rw [hchain] at hlen
    simpa using hlen
  have hflag : m.st.ciOverflow = false := by
    cases hover : m.st.ciOverflow with
    | false => rfl
    | true =>
      have hin := h.calm (by simp [hr]) trivial (.inl hover)
      rw [hn] at hin
      exact hin.elim
  obtain ⟨htop, hbase⟩ := h.stack trivial hr hn
  refine ⟨?_, hsaved⟩
  obtain ⟨hccalls, hdepth⟩ := Counters.mk.inj hcounters
  obtain ⟨hccalls', hdepth'⟩ := Counters.mk.inj hs.counters
  simp only [hostView, htop, hbase, hci, hccalls, hdepth, hflag, hlist, hs.top, hs.base, hs.ci, hccalls', hdepth',
    hs.ciOverflow, hs.openUpvalues]

theorem Idle.openListed (hs : s.Idle) : OpenListed s := by
  intro r i hat
  rw [hs.openAt r] at hat
  cases hat

/-- Between the calls every upvalue has a value of its own. -/
theorem closed_of_openListed (h : OpenListed s) (hopen : s.openUpvalues = []) :
    (∀ r, s.openAt r = none) ∧ (s.upvalueGet r = some v → s.gc.heap.get r = some ⟨.closed v⟩) := by
  have hnone : ∀ r, s.openAt r = none := by
    intro r
    cases hat : s.openAt r with
    | none => rfl
    | some i =>
      have hmem := h r i hat
      rw [hopen] at hmem
      cases hmem
  refine ⟨hnone, fun hget => ?_⟩
  obtain ⟨uv, huv, hval⟩ := Option.map_eq_some_iff.mp hget
  have hat := hnone r
  rw [openAt, huv] at hat
  obtain ⟨i | w⟩ := (uv : Upvalue)
  · cases hat
  · cases hval
    exact huv

/-- Between calls of the host that are contained, the stack, the frame, the counters, the flag and the open upvalues
    are as at the beginning. What a closure reads through an upvalue at the end of a call that has failed is what it
    reads afterwards. As long as the upvalue is not collected it is on its own, and has this value until something is
    written through it, unless it belongs to a coroutine that may be resumed. -/
theorem run_hostCalls (hs : s.Idle)
    (hrun : Run Control.step (fun m op => m.Sound op ∧ m.Contained op) { st := s } ops m) :
    (m.AtHost → m.st.hostView = s.hostView ∧ (∀ r, m.st.openAt r = none) ∧
      ∀ r v, m.st.upvalueGet r = some v → ¬ m.st.Suspended r → ∀ ops' m',
        (Run Control.step (fun m op => Control.Keeps r m.st op) m ops' m' → m'.st.openAt r = none) ∧
          (Run Control.step (fun m op => Control.Spares r m.st op) m ops' m' → m'.st.upvalueGet r = some v)) ∧
      ∀ pos wanted saved traced v m', m.native = [.site pos wanted saved (.hostCall traced)] →
        m.raised = some .error → m.step (.unwind v) = some m' →
          m'.AtHost ∧ ∀ r, m'.st.upvalueGet r = m.st.upvalueGet r := by
  have hframed : Framed hostSpec m := hrun.invariant (Framed hostSpec)
    (fun m op m' h hok he => h.step (allows_of_contained hok.1 hok.2) he) (hs.framed ⟨rfl, rfl⟩)
  have hlisted : OpenListed m.st := hrun.invariant (fun m => OpenListed m.st)
    (fun m op m' h hok he => openListed_cellInv.step (fun g hop => by simpa [hop, Control.Sound] using hok.1) he h)
    (Idle.openListed hs)
  constructor
  · intro hm
    obtain ⟨hview, hsaved⟩ := hframed.hostView_eq hm hs
    have hopen : m.st.openUpvalues = [] := by
      have heq := congrArg HostView.openUpvalues hview
      exact heq.trans hs.openUpvalues
    refine ⟨hview, (closed_of_openListed (r := ⟨0, 0⟩) (v := .nil) hlisted hopen).1, fun r v hget hnot ops' m' => ?_⟩
    have hdetached : Detached r v m.st := by
      refine ⟨(closed_of_openListed hlisted hopen).2 hget, by simp [hopen], by simp [hsaved], fun co t ht hst => ?_⟩
      exact ⟨fun hr => hnot ⟨co, t, ht, hst, .inl hr⟩, fun hr => hnot ⟨co, t, ht, hst, .inr hr⟩⟩
    constructor
    · intro hrun'
      obtain ⟨w, hw⟩ := hrun'.invariant (fun m => ∃ v, Detached r v m.st)
        (fun _ _ _ h hok he => (detached_of_keeps r).step hok he h) ⟨v, hdetached⟩
      rw [openAt, hw.closed]
      rfl
    · intro hrun'
      have hkept := hrun'.invariant (fun m => Detached r v m.st)
        (fun _ _ _ h hok he => (detached_cellInv r v).step hok he h) hdetached
      rw [upvalueGet, hkept.closed]
      rfl
  · intro pos wanted saved traced v m' hn hr he
    simp only [Control.step, hr, Control.unwind, hn] at he
    cases he
    cases traced with
    | true => exact ⟨⟨rfl, rfl⟩, fun r => rfl⟩
    | false => exact ⟨⟨rfl, rfl⟩, fun r => rfl⟩

/-- A call fails. -/
theorem run_hostCalls_failed : ∃ m, Run Control.step (fun m op => m.Sound op ∧ m.Contained op) { st := twoLoaded }
    [.hostCall false twoLoaded.lua [], .write 0 (.bool true), .fail, .unwind .nil, .unwind .nil] m ∧
      m.st.hostView = twoLoaded.hostView := by
  have hnone : ∀ s : LuaState, s.openUpvalues = [] → NoneOpen s 1 := by
    intro s hs
    simp [NoneOpen, hs]
  have hrun : Run Control.step (fun m op => m.Sound op ∧ m.Contained op) { st := twoLoaded }
      [.hostCall false twoLoaded.lua [], .write 0 (.bool true), .fail, .unwind .nil, .unwind .nil] _ :=
    .cons ⟨trivial, trivial⟩ rfl (.cons ⟨trivial, trivial⟩ rfl (.cons ⟨trivial, trivial⟩ rfl
      (.cons ⟨trivial, trivial⟩ rfl (.single ⟨trivial, hnone _ rfl, by decide⟩ rfl))))
  exact ⟨_, hrun, ((run_hostCalls idle_twoLoaded hrun).1 ⟨rfl, rfl⟩).1⟩

/-- Whether a step that changes no upvalue is sound. -/
def Control.spareCheck (m : Control) : ControlOp → Bool
  | .setUpval .. => false
  | op => m.soundCheck op

theorem Control.spares_of_check {op : ControlOp} (h : m.spareCheck op = true) (r : GcRef .upvalue) :
    m.Sound op ∧ Control.Spares r m.st op := by
  cases op with
  | heap => cases h
  | setUpval => cases h
  | _ => exact ⟨Control.sound_of_check h, trivial, fun _ hop => by cases hop⟩

/-- A call captures a local variable that is true, and fails. -/
def failedCall : List ControlOp :=
  [.hostCall false twoLoaded.lua [], .write 0 (.bool true), .capture 0, .fail, .unwind .nil, .unwind .nil]

/-- The next call uses the slot for a variable of its own. -/
def nextCall : List ControlOp := [.hostCall false twoLoaded.lua [], .write 0 (.bool false)]

theorem not_run_hostCalls :
    ¬ (∀ (s : LuaState) (ops : List ControlOp) (m : Control), s.Idle →
      Run Control.step Control.Sound { st := s } ops m → m.AtHost → m.st.hostView = s.hostView) ∧
    ¬ (∀ (s : LuaState) (ops ops' : List ControlOp) (m m' : Control) (r : GcRef .upvalue) (v : Val), s.Idle →
      Run Control.step Control.Sound { st := s } ops m → m.AtHost → m.st.upvalueGet r = some v →
        ¬ m.st.Suspended r → Run Control.step (fun m op => m.Sound op ∧ Control.Spares r m.st op) m ops' m' →
          m'.st.upvalueGet r = some v) := by
  have hsome : (execIf Control.step Control.soundCheck { st := twoLoaded } failedCall).isSome = true := by decide
  obtain ⟨m, hm⟩ := Option.isSome_iff_exists.mp hsome
  have hfound : (execIf Control.step Control.soundCheck { st := twoLoaded } failedCall).all (fun m =>
      m.native = [] ∧ m.raised = none ∧ m.st.openUpvalues = [⟨0, 0⟩] ∧ m.st.upvalueGet ⟨0, 0⟩ = some (.bool true)) =
        true := by decide
  have hnext : ((execIf Control.step Control.soundCheck { st := twoLoaded } failedCall).bind fun m =>
      execIf Control.step Control.spareCheck m nextCall).any (fun m =>
        m.st.upvalueGet ⟨0, 0⟩ = some (.bool false)) = true := by decide
  have hthreads : (execIf Control.step Control.soundCheck { st := twoLoaded } failedCall).map (fun m =>
      m.st.gc.heap.arena .thread) = some {} := rfl
  rw [hm] at hfound hnext hthreads
  obtain ⟨hn, hr, hopen, hget⟩ := of_decide_eq_true hfound
  have harena : m.st.gc.heap.arena .thread = {} := Option.some.inj hthreads
  have hrun := run_of_execIf (fun _ _ => Control.sound_of_check) hm
  constructor
  · intro hall
    have hview := hall twoLoaded failedCall m idle_twoLoaded hrun ⟨hn, hr⟩
    have hlist : m.st.openUpvalues = [] := congrArg HostView.openUpvalues hview
    simp [hlist] at hopen
  · intro hall
    obtain ⟨m', hm', hlow⟩ := (Option.any_eq_true _ _).mp hnext
    have hnot : ¬ m.st.Suspended ⟨0, 0⟩ := by
      rintro ⟨co, t, ht, -, -⟩
      rw [Heap.get, harena] at ht
      cases ht
    have hrun' := run_of_execIf (fun _ _ h => Control.spares_of_check h ⟨0, 0⟩) hm'
    have hkept := hall twoLoaded failedCall nextCall m m' ⟨0, 0⟩ (.bool true) idle_twoLoaded hrun ⟨hn, hr⟩ hget hnot hrun'
    have hval := hkept.symm.trans (of_decide_eq_true hlow)
    simp at hval

end Rilua.Vm
