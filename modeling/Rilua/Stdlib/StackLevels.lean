import Rilua.Vm.Object

/-! Numeric stack levels (`stdlib/debug.rs`). A level counts the frames of a call stack from the innermost one on, and
    the calls that tail calls have elided count as well. The frames are looked up through the raw fields of a thread,
    so that an index can be outside; then there is no result. -/

namespace Rilua.Debug

open Vm Gc

/-- A frame with what only inspection reads: the number of tail calls elided under it, an `i32`, and whether its
    function is a Lua closure. -/
structure Frame extends CallInfo where
  tailCalls : ℕ := 0
  isLua : Bool := false
  tailCalls_lt : tailCalls < 2 ^ 31 := by decide
  deriving DecidableEq

/-- A closure as inspection shows it. -/
inductive FrameClosure where
  | lua (proto : Proto) (shortSource : String)
  | rust (name : String) (upvalueCount : ℕ)

/-- The raw fields of a thread that inspection reads, and the arena of closures. -/
structure TracebackContext where
  stack : List Val
  callStack : List Frame
  ci : ℕ
  closures : GcRef .closure → Option FrameClosure

/-- What a level stands for. -/
inductive StackLevel where
  | real (ci : ℕ)
  | tailCall
  deriving DecidableEq

/-- Size from which on `level as i64` is negative. -/
def i64Limit : ℕ := 2 ^ 63

/-- Number of calls at which even error handlers get no further frame. -/
def maxFrames : ℕ := 40000

namespace TracebackContext

/-- The walk from frame `ci` outwards until the level is used up: the frame and what is left of the level. -/
def walkFrames (callStack : List Frame) : ℕ → ℤ → Option (ℕ × ℤ)
  | 0, remaining => some (0, remaining)
  | ci + 1, remaining =>
    if 0 < remaining then do
      let frame ← callStack[ci + 1]?
      walkFrames callStack ci (remaining - 1 - if frame.isLua then frame.tailCalls else 0)
    else some (ci + 1, remaining)

/-- `resolve_stack_level_raw`. The bottom frame is a level only if its slot holds no function. -/
def resolveStackLevelRaw (t : TracebackContext) (level : ℕ) : Option (Option StackLevel) := do
  let (ci, remaining) ← walkFrames t.callStack t.ci (BitVec.ofNat 64 level).toInt
  if remaining = 0 ∧ 0 < ci then
    some (some (.real ci))
  else if remaining = 0 then do
    let base ← t.callStack[0]?
    if t.stack[base.func]? = some .nil then some (some (.real 0)) else some none
  else if remaining < 0 then
    some (some .tailCall)
  else
    some none

end TracebackContext

/-- The fields of a thread that has its stacks: there is a frame `ci`, and calls are refused before there are
    `maxFrames` of them. -/
structure CallStack extends TracebackContext where
  ci_lt : ci < callStack.length
  ci_lt_max : ci < maxFrames

/-! ### The list of levels -/

/-- The calls elided under a frame. -/
def elided (callStack : List Frame) (ci : ℕ) : ℕ :=
  match callStack[ci]? with
  | some frame => if frame.isLua then frame.tailCalls else 0
  | none => 0

/-- The levels of the frames `ci`, …, 1. -/
def levelsUpTo (callStack : List Frame) : ℕ → List StackLevel
  | 0 => []
  | ci + 1 => .real (ci + 1) :: (List.replicate (elided callStack (ci + 1)) .tailCall ++ levelsUpTo callStack ci)

namespace TracebackContext

/-- Is the bottom frame the one of the main thread, without a function? -/
def hasMainThreadSentinel (t : TracebackContext) : Bool :=
  match t.callStack[0]? with
  | some frame => t.stack[frame.func]? = some .nil
  | none => false

/-- The levels of a thread, innermost first: each frame, followed by the calls elided under it. -/
def levels (t : TracebackContext) : List StackLevel :=
  levelsUpTo t.callStack t.ci ++ if t.hasMainThreadSentinel then [.real 0] else []

/-- What the end of a walk stands for. -/
def levelAt (sentinel : Bool) : ℕ × ℤ → Option StackLevel
  | (ci, remaining) =>
    if remaining = 0 ∧ 0 < ci then some (.real ci)
    else if remaining = 0 then (if sentinel then some (.real 0) else none)
    else if remaining < 0 then some .tailCall
    else none

theorem walkFrames_nonpos (callStack : List Frame) (ci : ℕ) {remaining : ℤ} (h : remaining ≤ 0) :
    walkFrames callStack ci remaining = some (ci, remaining) := by
  cases ci with
  | zero => rfl
  | succ ci => rw [walkFrames, if_neg (by omega)]

/-- A walk ends where the list of levels says. -/
theorem walkFrames_levels (callStack : List Frame) (sentinel : Bool) : ∀ (ci n : ℕ), ci < callStack.length →
    (walkFrames callStack ci n).map (levelAt sentinel) =
      some ((levelsUpTo callStack ci ++ if sentinel then [.real 0] else [])[n]?) := by
  intro ci
  induction ci with
  | zero =>
    intro n _
    rcases n with _ | n
    · cases sentinel <;> simp [walkFrames, levelAt, levelsUpTo]
    · have hpos : ¬ ((n : ℤ) + 1 = 0) ∧ ¬ ((n : ℤ) + 1 < 0) := by omega
      cases sentinel <;> simp [walkFrames, levelAt, levelsUpTo, hpos]
  | succ ci ih =>
    intro n hci
    obtain ⟨frame, hframe⟩ : ∃ frame, callStack[ci + 1]? = some frame :=
      ⟨_, List.getElem?_eq_getElem hci⟩
    have helided : elided callStack (ci + 1) = if frame.isLua then frame.tailCalls else 0 := by
      simp [elided, hframe]
    rcases n with _ | n
    · simp [walkFrames, levelAt, levelsUpTo]
    · have hwalk : walkFrames callStack (ci + 1) ((n + 1 : ℕ) : ℤ) =
          walkFrames callStack ci ((n : ℤ) - elided callStack (ci + 1)) := by
        rw [walkFrames, if_pos (by omega), hframe, helided]
        simp
      rw [hwalk, levelsUpTo, List.cons_append, List.getElem?_cons_succ, List.append_assoc]
      rcases lt_or_ge n (elided callStack (ci + 1)) with hlt | hge
      · -- the level ends among the calls elided under this frame
        rw [walkFrames_nonpos _ _ (by omega), List.getElem?_append_left (by simpa using hlt)]
        have hneg : (n : ℤ) - elided callStack (ci + 1) < 0 := by omega
        simp [levelAt, hneg, hneg.ne, hlt]
      · obtain ⟨m, rfl⟩ := Nat.exists_eq_add_of_le hge
        rw [List.getElem?_append_right (by simp)]
        have hm : ((elided callStack (ci + 1) + m : ℕ) : ℤ) - elided callStack (ci + 1) = (m : ℤ) := by omega
        rw [hm, ih m (by omega)]
        simp

/-- The numeric level `n` is the entry `n` of the list of levels. -/
theorem resolveStackLevelRaw_eq (t : TracebackContext) (hci : t.ci < t.callStack.length) {n : ℕ} (hn : n < i64Limit) :
    t.resolveStackLevelRaw n = some t.levels[n]? := by
  have hlevel : (BitVec.ofNat 64 n).toInt = n := by
    rw [i64Limit] at hn
    rw [BitVec.toInt_eq_toNat_bmod, BitVec.toNat_ofNat, Int.bmod_eq_of_le] <;> omega
  obtain ⟨base, hbase⟩ : ∃ base, t.callStack[0]? = some base := ⟨_, List.getElem?_eq_getElem (by omega)⟩
  have hsentinel : t.hasMainThreadSentinel = decide (t.stack[base.func]? = some .nil) := by
    simp [hasMainThreadSentinel, hbase]
  have hwalk := walkFrames_levels t.callStack t.hasMainThreadSentinel t.ci n hci
  obtain ⟨⟨ci, remaining⟩, hend, hat⟩ := Option.map_eq_some_iff.mp hwalk
  rw [resolveStackLevelRaw, hlevel, hend, levels, ← hat]
  simp only [Option.bind_eq_bind, Option.bind_some, levelAt, hbase, hsentinel, decide_eq_true_eq]
  split_ifs <;> rfl

/-- From 2^63 on every number is taken for an elided call. -/
theorem resolveStackLevelRaw_huge (t : TracebackContext) {n : ℕ} (hn : i64Limit ≤ n) (hlt : n < 2 ^ 64) :
    t.resolveStackLevelRaw n = some (some .tailCall) := by
  have hneg : (BitVec.ofNat 64 n).toInt < 0 := by
    rw [i64Limit] at hn
    rw [BitVec.toInt_eq_toNat_bmod, BitVec.toNat_ofNat, Int.bmod_def]
    split_ifs <;> omega
  rw [resolveStackLevelRaw, walkFrames_nonpos _ _ hneg.le]
  simp [hneg, hneg.ne]

end TracebackContext

theorem elided_lt (callStack : List Frame) (ci : ℕ) : elided callStack ci < 2 ^ 31 := by
  rw [elided]
  split
  · split
    · exact Frame.tailCalls_lt _
    · decide
  · decide

theorem length_levelsUpTo_le (callStack : List Frame) (ci : ℕ) : (levelsUpTo callStack ci).length ≤ ci * 2 ^ 31 := by
  induction ci with
  | zero => simp [levelsUpTo]
  | succ ci ih =>
    have hlt := elided_lt callStack (ci + 1)
    rw [levelsUpTo, List.length_cons, List.length_append, List.length_replicate]
    omega

namespace CallStack

/-- There are far fewer levels than numbers for them. -/
theorem length_levels_lt (t : CallStack) : t.levels.length < 2 ^ 62 := by
  have hupTo := length_levelsUpTo_le t.callStack t.ci
  have hci : t.ci < 40000 := t.ci_lt_max
  rw [TracebackContext.levels, List.length_append]
  split_ifs <;> simp <;> omega

theorem resolve_of_lt (t : CallStack) {n : ℕ} (h : n < t.levels.length) :
    t.resolveStackLevelRaw n = some (some t.levels[n]) := by
  have hlen := t.length_levels_lt
  rw [t.resolveStackLevelRaw_eq t.ci_lt (by rw [i64Limit]; omega), List.getElem?_eq_getElem h]

theorem resolve_of_le (t : CallStack) {n : ℕ} (h : t.levels.length ≤ n) (hn : n < i64Limit) :
    t.resolveStackLevelRaw n = some none := by
  rw [t.resolveStackLevelRaw_eq t.ci_lt hn, List.getElem?_eq_none h]

end CallStack
end Rilua.Debug
