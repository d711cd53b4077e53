import Rilua.Vm.TaintChain

/-! Secure calls: `securecall`, and the calls of callbacks by `secureexecuterange` (`stdlib/taint.rs`). Both take away
    taint when they begin and put it back when they end. What runs in between keeps to the frames it has entered
    itself: it returns from them, unwinds to them and tags them, and a coroutine does not yield across a secure
    call. -/

namespace Rilua.Vm

open Lib Gc

/-- The outermost `d` frames. -/
def outermost (d : ℕ) (frames : List Taint) : List Taint := frames.drop (frames.length - d)

/-- The frames above them. -/
def above (d : ℕ) (frames : List Taint) : List Taint := frames.take (frames.length - d)

/-- The number of frames when the secure call began. -/
def SavedTaint.depth : SavedTaint → ℕ
  | .chain taints => taints.length
  | .own _ depth => depth

/-- The number of frames that the innermost secure call found. -/
def floorOf : List SavedTaint → ℕ
  | [] => 0
  | saved :: _ => saved.depth

def TaintThread.floor (t : TaintThread) : ℕ := floorOf t.secured

namespace TaintState

/-- What runs keeps to the frames above the innermost secure call. -/
def Disciplined (s : TaintState) : TaintOp → Prop
  | .ret | .forceInsecure | .slotRead _ | .secureCall | .secureRange => s.running.floor < s.running.frames.length
  | .tailCall | .setStackTaint _ => s.running.floor + 2 ≤ s.running.frames.length
  | .unwind depth => s.running.floor ≤ depth
  | .yield | .finish => s.running.secured = []
  | _ => True

/-- The running thread and those that wait for it, innermost first. -/
def chain (s : TaintState) : List (Option (GcRef .thread) × TaintThread) := (s.currentThread, s.running) :: s.resumers

/-- The thread of the secure call that began in `s₀` runs, and has no other secure call in progress above it. -/
def AtCall (s₀ s : TaintState) : Prop :=
  s.resumers.length = s₀.resumers.length ∧ s.running.secured.length = s₀.running.secured.length + 1

/-- Steps during the secure call that began in `s₀`. -/
def Inside (s₀ s : TaintState) (op : TaintOp) : Prop := s.Disciplined op ∧ (op = .endSecure → ¬ AtCall s₀ s)

/-- The frames that `s₀` had are there and untainted. While their thread runs, security queries see the taint of the
    frames above them. -/
def Isolated (s₀ s : TaintState) : Prop :=
  ∃ inner t, s.chain = inner ++ (s₀.currentThread, t) :: s₀.resumers ∧
    s₀.running.frames.length ≤ t.frames.length ∧
    (∀ taint ∈ outermost s₀.running.frames.length t.frames, taint = none) ∧
    (inner = [] →
      s.stateIsSecure = (above s₀.running.frames.length t.frames).all Option.isNone ∧
      s.running.activeTaint = (above s₀.running.frames.length t.frames).findSome? id)

/-- The frames that `s₀` had have the tags that they had. -/
def Restored (s₀ s : TaintState) : Prop :=
  ∃ t, s.chain = (s₀.currentThread, t) :: s₀.resumers ∧ t.secured = s₀.running.secured ∧
    outermost s₀.running.frames.length t.frames = s₀.running.frames

/-- The secure call that began in `s₀` and leads to `s₁` isolates taint, up to its end. -/
def Isolates (s₀ s₁ : TaintState) : Prop :=
  ∀ ops s, Run step (Inside s₀) s₁ ops s → Isolated s₀ s ∧
    (AtCall s₀ s → ∀ s', s.step .endSecure = some s' → Restored s₀ s')

end TaintState

/-! ### Frames -/

variable {d n : ℕ} {taint : Taint} {frames fs : List Taint}

theorem outermost_append {a b : List Taint} (h : d ≤ b.length) : outermost d (a ++ b) = outermost d b := by
  rw [outermost, outermost, List.length_append, Nat.add_sub_assoc h, ← List.drop_drop, List.drop_left]

theorem outermost_cons (h : d ≤ fs.length) : outermost d (taint :: fs) = outermost d fs :=
  outermost_append (a := [taint]) h

theorem outermost_cons_cons (x y : Taint) (h : d ≤ fs.length) : outermost d (x :: y :: fs) = outermost d fs :=
  outermost_append (a := [x, y]) h

theorem outermost_drop (h : d ≤ n) : outermost d (frames.drop (frames.length - n)) = outermost d frames := by
  rw [outermost, outermost, List.drop_drop, List.length_drop]
  congr 1
  omega

theorem outermost_self : outermost frames.length frames = frames := by
  rw [outermost, Nat.sub_self, List.drop_zero]

theorem length_outermost (h : d ≤ frames.length) : (outermost d frames).length = d := by
  rw [outermost, List.length_drop]
  omega

theorem above_append_outermost (d : ℕ) (frames : List Taint) : above d frames ++ outermost d frames = frames :=
  List.take_append_drop ..

/-! ### Nesting -/

/-- The tags that are put back on the outermost `d` frames are none. -/
def SavedTaint.Clean (d : ℕ) : SavedTaint → Prop
  | .chain taints => ∀ taint ∈ outermost d taints, taint = none
  | .own _ _ => True

/-- Secure calls in progress above those in `base`, each of which began with more frames than the one around it. -/
inductive Nested (d : ℕ) (base : List SavedTaint) : List SavedTaint → Prop
  | base : Nested d base base
  | cons {saved : SavedTaint} {rest : List SavedTaint} (h : Nested d base rest) (hlt : floorOf rest < saved.depth)
      (hclean : saved.Clean d) : Nested d base (saved :: rest)

variable {base secured : List SavedTaint}

theorem Nested.length_le (h : Nested d base secured) : base.length ≤ secured.length := by
  induction h with
  | base => exact le_rfl
  | cons _ _ _ ih => exact ih.trans (Nat.le_succ _)

theorem Nested.eq_base (h : Nested d base secured) (hlen : secured.length ≤ base.length) : secured = base := by
  cases h with
  | base => rfl
  | cons h _ _ =>
    have := h.length_le
    rw [List.length_cons] at hlen
    omega

theorem Nested.le_floor (h : Nested d base secured) (hd : d ≤ floorOf base) : d ≤ floorOf secured := by
  induction h with
  | base => exact hd
  | cons _ hlt _ ih => exact (ih.trans hlt.le)

namespace TaintState

theorem chain_leave {s s' : TaintState} {status : ThreadStatus} (h : s.leave status = some s') :
    s'.chain = s.chain.tail := by
  unfold leave at h
  split at h
  · next hres =>
    cases h
    rw [chain, chain, hres]
    rfl
  · cases h

theorem setTableSecurity_eq {s s' : TaintState} {t : GcRef .table} {flag : UInt8}
    (h : s.step (.setTableSecurity t flag) = some s') : ∃ flags, s' = { s with flags } := by
  cases h
  unfold setTableSecurity ensureSecureCaller
  split
  · cases s.flags t <;> exact ⟨_, rfl⟩
  · exact ⟨_, rfl⟩

end TaintState

/-- A thread in a secure call that began with `d` frames. -/
structure Callee (d : ℕ) (base : List SavedTaint) (t : TaintThread) : Prop where
  nested : Nested d base t.secured
  floor_base : d ≤ floorOf base
  floor_le : t.floor ≤ t.frames.length
  clean : ∀ taint ∈ outermost d t.frames, taint = none

namespace Callee

variable {t : TaintThread}

theorem le_floor (h : Callee d base t) : d ≤ t.floor := h.nested.le_floor h.floor_base

theorem le_length (h : Callee d base t) : d ≤ t.frames.length := h.le_floor.trans h.floor_le

/-- The outermost frames are left alone. -/
theorem with_frames (h : Callee d base t) (hfloor : t.floor ≤ frames.length)
    (hout : outermost d frames = outermost d t.frames) : Callee d base { t with frames } :=
  ⟨h.nested, h.floor_base, hfloor, hout ▸ h.clean⟩

theorem setTop (h : Callee d base t) (hlt : t.floor < t.frames.length) (taint : Taint) :
    Callee d base (t.setTop taint) := by
  have hd := h.le_floor
  unfold TaintThread.setTop
  split
  · exact h
  · next f fs heq =>
    rw [heq, List.length_cons] at hlt
    refine h.with_frames (by rw [List.length_cons]; omega) ?_
    rw [heq, outermost_cons (by omega), outermost_cons (by omega)]

theorem setCaller (h : Callee d base t) (hlt : t.floor + 2 ≤ t.frames.length) (taint : Taint) :
    Callee d base (t.setCaller taint) := by
  have hd := h.le_floor
  unfold TaintThread.setCaller
  split
  · next f g fs heq =>
    rw [heq, List.length_cons, List.length_cons] at hlt
    refine h.with_frames (by rw [List.length_cons, List.length_cons]; omega) ?_
    rw [heq, outermost_cons_cons _ _ (by omega), outermost_cons_cons _ _ (by omega)]
  · next f heq =>
    rw [heq] at hlt
    simp at hlt
  · exact h

/-- A secure call begins. -/
theorem push (h : Callee d base t) (hlt : t.floor < t.frames.length) {saved : SavedTaint}
    (hdepth : saved.depth = t.frames.length) (hlen : frames.length = t.frames.length) (hsaved : saved.Clean d)
    (hclean : ∀ taint ∈ outermost d frames, taint = none) : Callee d base ⟨frames, saved :: t.secured⟩ :=
  ⟨.cons h.nested (by rw [hdepth]; exact hlt) hsaved, h.floor_base, (hdepth.trans hlen.symm).le, hclean⟩

theorem restoreChain_eq {taints : List Taint} (h : taints.length ≤ frames.length) :
    TaintThread.restoreChain frames taints = frames.take (frames.length - taints.length) ++ taints := by
  rw [TaintThread.restoreChain, Nat.sub_eq_zero_of_le h, List.drop_zero]

/-- A nested secure call ends. -/
theorem endSecure (h : Callee d base t) (hnot : t.secured.length ≠ base.length) : Callee d base t.endSecure := by
  obtain ⟨nested, hbase, hfloor, hclean⟩ := h
  obtain ⟨frames, secured⟩ := t
  cases nested with
  | base => exact absurd rfl hnot
  | @cons saved rest hnested hlt hsaved =>
    have hd := hnested.le_floor hbase
    cases saved with
    | chain taints =>
      change taints.length ≤ frames.length at hfloor
      change floorOf rest < taints.length at hlt
      change Callee d base ⟨TaintThread.restoreChain frames taints, rest⟩
      rw [restoreChain_eq hfloor]
      refine ⟨hnested, hbase, ?_, ?_⟩
      · change floorOf rest ≤ _
        rw [List.length_append]
        omega
      · rw [outermost_append (by omega)]
        exact hsaved
    | own taint depth =>
      change depth ≤ frames.length at hfloor
      change floorOf rest < depth at hlt
      have hcallee : Callee d base ⟨frames.drop (frames.length - depth), rest⟩ := by
        refine ⟨hnested, hbase, ?_, ?_⟩
        · change floorOf rest ≤ _
          rw [List.length_drop]
          omega
        · rw [outermost_drop (by omega)]
          exact hclean
      refine hcallee.setTop ?_ taint
      change floorOf rest < _
      rw [List.length_drop]
      omega

/-- What an operation makes of the running thread, unless threads are switched. -/
theorem step {s s' : TaintState} (h : Callee d base s.running) {op : TaintOp} (hop : s.Disciplined op)
    (hend : op = .endSecure → s.running.secured.length ≠ base.length) (hstep : s.step op = some s')
    (hsame : s'.chain.length = s.chain.length) : Callee d base s'.running := by
  have hd := h.le_floor
  cases op with
  | call f =>
    cases hstep
    refine h.with_frames (Nat.le_succ_of_le h.floor_le) ?_
    exact outermost_cons h.le_length
  | ret =>
    cases hstep
    have hlt : s.running.floor < s.running.frames.length := hop
    refine h.with_frames ?_ ?_
    · rw [List.length_tail]
      omega
    · rw [← List.drop_one, show 1 = s.running.frames.length - (s.running.frames.length - 1) by omega]
      exact outermost_drop (by omega)
  | tailCall =>
    have hlt : s.running.floor + 2 ≤ s.running.frames.length := hop
    cases hstep
    unfold TaintState.onRunning
    dsimp only
    split
    · next callee caller fs heq =>
      rw [heq, List.length_cons, List.length_cons] at hlt
      refine h.with_frames (by rw [List.length_cons]; omega) ?_
      rw [heq, outermost_cons (by omega), outermost_cons_cons _ _ (by omega)]
    · exact h
  | unwind depth =>
    cases hstep
    have hle : s.running.floor ≤ depth := hop
    have hfloor := h.floor_le
    refine h.with_frames ?_ (outermost_drop (hd.trans hle))
    rw [List.length_drop]
    omega
  | setStackTaint taint =>
    cases hstep
    exact h.setCaller hop taint
  | forceInsecure =>
    cases hstep
    exact h.setTop hop _
  | slotRead taint =>
    cases hstep
    change Callee d base (if (s.running.frames.headD none).isSome then s.running else s.running.setTop (some taint))
    split
    · exact h
    · exact h.setTop hop _
  | secureCall =>
    cases hstep
    refine h.push hop rfl (List.length_map ..) h.clean fun taint htaint => ?_
    obtain ⟨_, -, rfl⟩ := List.mem_map.mp (List.mem_of_mem_drop htaint)
    rfl
  | secureRange =>
    cases hstep
    have htop := h.setTop hop none
    have hlen : (s.running.setTop none).frames.length = s.running.frames.length := by
      unfold TaintThread.setTop
      split
      · rfl
      · next heq => rw [heq]; rfl
    exact h.push hop rfl hlen trivial htop.clean
  | endSecure =>
    cases hstep
    exact h.endSecure (hend rfl)
  | setObjectTaint f taint =>
    cases hstep
    exact h
  | newClosure f =>
    cases hstep
    exact h
  | newTable t =>
    cases hstep
    exact h
  | setTableSecurity t flag =>
    obtain ⟨flags, rfl⟩ := TaintState.setTableSecurity_eq hstep
    exact h
  | create co =>
    obtain ⟨-, hstep⟩ := Option.ite_none_left_eq_some.mp hstep
    cases hstep
    exact h
  | resume co =>
    unfold TaintState.step at hstep
    dsimp only at hstep
    split at hstep
    · cases hstep
      exact absurd hsame (by simp [TaintState.chain, TaintState.resume])
    · cases hstep
      exact absurd hsame (by simp [TaintState.chain, TaintState.resume])
    · cases hstep
  | yield =>
    rw [TaintState.chain_leave hstep] at hsame
    simp [TaintState.chain] at hsame
  | finish =>
    rw [TaintState.chain_leave hstep] at hsame
    simp [TaintState.chain] at hsame

/-- The secure call itself ends. -/
theorem restores (h : Callee d base t) {saved : SavedTaint} {rest : List SavedTaint} (hbase : base = saved :: rest)
    (hlen : t.secured.length = base.length) (hframes : frames.length = d)
    (hsaved : saved = .chain frames ∨ saved = .own (frames.headD none) d ∧ ∀ taint ∈ frames.tail, taint = none) :
    t.endSecure.secured = rest ∧ outermost d t.endSecure.frames = frames := by
  obtain ⟨nested, hbased, hfloor, hclean⟩ := h
  obtain ⟨own, secured⟩ := t
  obtain rfl : secured = saved :: rest := (nested.eq_base hlen.le).trans hbase
  rcases hsaved with rfl | ⟨rfl, htail⟩
  · change frames.length ≤ own.length at hfloor
    refine ⟨rfl, ?_⟩
    change outermost d (TaintThread.restoreChain own frames) = frames
    rw [restoreChain_eq hfloor, outermost_append hframes.ge, ← hframes, outermost_self]
  · change d ≤ own.length at hfloor
    have hout : outermost d own = List.replicate d none :=
      List.eq_replicate_iff.mpr ⟨length_outermost hfloor, hclean⟩
    change (TaintThread.setTop ⟨outermost d own, rest⟩ (frames.headD none)).secured = rest ∧
      outermost d (TaintThread.setTop ⟨outermost d own, rest⟩ (frames.headD none)).frames = frames
    rw [hout]
    cases frames with
    | nil =>
      obtain rfl : d = 0 := hframes.symm
      exact ⟨rfl, rfl⟩
    | cons taint fs =>
      obtain rfl : d = fs.length + 1 := hframes.symm
      have hfs : fs = List.replicate fs.length none := List.eq_replicate_iff.mpr ⟨rfl, htail⟩
      have hset : TaintThread.setTop ⟨List.replicate (fs.length + 1) none, rest⟩ taint = ⟨taint :: fs, rest⟩ := by
        rw [List.replicate_succ, ← hfs]
        rfl
      rw [List.headD_cons, hset]
      exact ⟨rfl, outermost_self⟩

end Callee

namespace TaintState

variable {s₀ s₁ s s' : TaintState} {op : TaintOp}

/-- An operation is one of the running thread, or leaves it, or enters another one. -/
theorem chain_step (hop : s.Disciplined op) (h : s.step op = some s') :
    s'.chain = (s.currentThread, s'.running) :: s.resumers ∨ s'.chain = s.chain.tail ∧ s.running.secured = [] ∨
      ∃ co t, s'.chain = (co, t) :: s.chain := by
  cases op with
  | setTableSecurity t flag =>
    obtain ⟨flags, rfl⟩ := setTableSecurity_eq h
    exact .inl rfl
  | create co =>
    obtain ⟨-, h⟩ := Option.ite_none_left_eq_some.mp h
    cases h
    exact .inl rfl
  | resume co =>
    unfold step at h
    dsimp only at h
    split at h
    · cases h
      exact .inr (.inr ⟨_, _, rfl⟩)
    · cases h
      exact .inr (.inr ⟨_, _, rfl⟩)
    · cases h
  | yield => exact .inr (.inl ⟨chain_leave h, hop⟩)
  | finish => exact .inr (.inl ⟨chain_leave h, hop⟩)
  | _ =>
    cases h
    exact .inl rfl

/-- The thread of the secure call that began in `s₀` is in the chain, above the threads that waited for it. -/
def Within (s₀ : TaintState) (base : List SavedTaint) (s : TaintState) : Prop :=
  ∃ inner t, s.chain = inner ++ (s₀.currentThread, t) :: s₀.resumers ∧ Callee s₀.running.frames.length base t

variable {base : List SavedTaint}

theorem Within.step (h : Within s₀ base s) (hbase : base.length = s₀.running.secured.length + 1)
    (hop : Inside s₀ s op) (hstep : s.step op = some s') : Within s₀ base s' := by
  obtain ⟨inner, t, hchain, hcallee⟩ := h
  obtain ⟨hdisc, hend⟩ := hop
  rcases chain_step hdisc hstep with hsame | ⟨htail, hsecured⟩ | ⟨co, u, hpush⟩
  · cases inner with
    | nil =>
      obtain ⟨hrun, hres⟩ := List.cons.inj hchain
      obtain ⟨hcur, rfl⟩ := Prod.mk.inj hrun
      refine ⟨[], s'.running, by rw [hsame, hcur, hres]; rfl, hcallee.step hdisc ?_ hstep ?_⟩
      · intro he hlen
        exact hend he ⟨by rw [hres], by rw [hlen, hbase]⟩
      · rw [hsame, chain]
        rfl
    | cons x inner =>
      obtain ⟨-, hres⟩ := List.cons.inj hchain
      exact ⟨(s.currentThread, s'.running) :: inner, t, by rw [hsame, hres]; rfl, hcallee⟩
  · cases inner with
    | nil =>
      -- no yield out of a secure call
      obtain ⟨hrun, -⟩ := List.cons.inj hchain
      obtain ⟨-, rfl⟩ := Prod.mk.inj hrun
      have hle := hcallee.nested.length_le
      rw [hsecured, hbase] at hle
      cases hle
    | cons x inner => exact ⟨inner, t, by rw [htail, hchain]; rfl, hcallee⟩
  · exact ⟨(co, u) :: inner, t, by rw [hpush, hchain]; rfl, hcallee⟩

theorem Within.isolated (h : Within s₀ base s) : Isolated s₀ s := by
  obtain ⟨inner, t, hchain, hcallee⟩ := h
  refine ⟨inner, t, hchain, hcallee.le_length, hcallee.clean, ?_⟩
  rintro rfl
  obtain ⟨hrun, -⟩ := List.cons.inj hchain
  obtain ⟨-, hrun⟩ := Prod.mk.inj hrun
  rw [stateIsSecure, TaintThread.activeTaint, hrun]
  have hall : (outermost s₀.running.frames.length t.frames).all Option.isNone = true :=
    List.all_eq_true.mpr fun taint htaint => by rw [hcallee.clean taint htaint]; rfl
  have hfind : (outermost s₀.running.frames.length t.frames).findSome? id = none :=
    List.findSome?_eq_none_iff.mpr hcallee.clean
  generalize hown : above s₀.running.frames.length t.frames = own
  rw [← above_append_outermost s₀.running.frames.length t.frames, hown, List.all_append, hall, Bool.and_true,
    List.findSome?_append, hfind, Option.or_none]
  exact ⟨rfl, rfl⟩

/-- The tags that the secure call will put back. -/
def Saves (s₀ : TaintState) (saved : SavedTaint) : Prop :=
  saved = .chain s₀.running.frames ∨
    saved = .own (s₀.running.frames.headD none) s₀.running.frames.length ∧
      ∀ taint ∈ s₀.running.frames.tail, taint = none

theorem Saves.depth_eq {saved : SavedTaint} (h : Saves s₀ saved) : saved.depth = s₀.running.frames.length := by
  rcases h with rfl | ⟨rfl, -⟩
  · rfl
  · rfl

theorem within_start {saved : SavedTaint} (hsaves : Saves s₀ saved)
    (hframes : s₁.running.frames.length = s₀.running.frames.length) (hclean : ∀ taint ∈ s₁.running.frames, taint = none)
    (hsecured : s₁.running.secured = saved :: s₀.running.secured) (hcur : s₁.currentThread = s₀.currentThread)
    (hres : s₁.resumers = s₀.resumers) : Within s₀ (saved :: s₀.running.secured) s₁ := by
  refine ⟨[], s₁.running, by rw [chain, hcur, hres]; rfl, ?_, ?_, ?_, fun taint htaint => ?_⟩
  · rw [hsecured]
    exact .base
  · exact hsaves.depth_eq.ge
  · rw [TaintThread.floor, hsecured, hframes]
    exact hsaves.depth_eq.le
  · exact hclean taint (List.mem_of_mem_drop htaint)

theorem Within.isolates {saved : SavedTaint} (hsaves : Saves s₀ saved)
    (h : Within s₀ (saved :: s₀.running.secured) s₁) : Isolates s₀ s₁ := by
  intro ops s hrun
  have hs : Within s₀ (saved :: s₀.running.secured) s :=
    hrun.invariant _ (fun s op s' hs hop hstep => hs.step rfl hop hstep) h
  refine ⟨hs.isolated, ?_⟩
  rintro ⟨hres, hsecured⟩ s' hstep
  obtain ⟨inner, t, hchain, hcallee⟩ := hs
  obtain rfl : inner = [] := by
    have hlen := congrArg List.length hchain
    simp only [chain, List.length_cons, List.length_append, hres] at hlen
    exact List.length_eq_zero_iff.mp (by omega)
  obtain ⟨hrun, hres⟩ := List.cons.inj hchain
  obtain ⟨hcur, rfl⟩ := Prod.mk.inj hrun
  cases hstep
  obtain ⟨hrest, hout⟩ := hcallee.restores rfl hsecured rfl hsaves
  exact ⟨s.running.endSecure, by rw [chain, ← hcur, ← hres]; rfl, hrest, hout⟩

end TaintState

end Rilua.Vm
