import Rilua.Stdlib.DebugInspect
import Rilua.Stdlib.TracebackPaths

/-! When `debug.getinfo`, `debug.getlocal` and `debug.traceback` return, and report the thread they were asked about. -/

namespace Rilua.Debug

open Lib Vm Gc

/-- The fields of a thread that has its stacks. Each frame has its function below its base. -/
structure ThreadStacks.Sound (ts : ThreadStacks) : Prop where
  ci_lt : ts.ci < ts.callStack.length
  ci_lt_max : ts.ci < maxFrames
  base_pos : ∀ frame ∈ ts.callStack, 0 < frame.base

namespace InspectState

/-- The coroutine runs, or waits for one that it has resumed. -/
def Active (s : InspectState) (t : GcRef .thread) : Prop :=
  s.currentThread = some t ∨ ∃ waiting ∈ s.resumers, waiting.1 = some t

/-- The stacks of the thread that was asked about, wherever they are. -/
def asked (s : InspectState) : Option (GcRef .thread) → ThreadStacks
  | none => s.running
  | some t =>
    if s.currentThread = some t then s.running
    else
      match s.resumers.find? fun waiting => waiting.1 = some t with
      | some waiting => waiting.2
      | none => s.threads t

/-- Threads that have been moved out of their objects have left these empty; all others have their stacks. -/
structure Coherent (s : InspectState) : Prop where
  running : s.running.Sound
  resumers : ∀ waiting ∈ s.resumers, waiting.2.Sound
  moved : ∀ t, s.Active t → (s.threads t).stack = [] ∧ (s.threads t).callStack = []
  own : ∀ t, ¬ s.Active t → (s.threads t).Sound

/-- The thread argument names a coroutine whose stacks have been moved out of its object. -/
def Moved (s : InspectState) (thread : Option (GcRef .thread)) : Prop := ∃ t, thread = some t ∧ s.Active t

variable {s : InspectState} {thread : Option (GcRef .thread)}

theorem asked_sound (h : s.Coherent) (thread : Option (GcRef .thread)) : (s.asked thread).Sound := by
  cases thread with
  | none => exact h.running
  | some t =>
    rw [asked]
    split_ifs with hcurrent
    · exact h.running
    · split
      · next waiting hfind => exact h.resumers waiting (List.mem_of_find?_eq_some hfind)
      · next hfind =>
        refine h.own t ?_
        rintro (hactive | ⟨waiting, hmem, hactive⟩)
        · exact hcurrent hactive
        · exact absurd hactive (by simpa using List.find?_eq_none.mp hfind waiting hmem)

/-- The functions read the stacks that they were asked about, unless these have been moved out of the object. -/
theorem viewed_eq_asked (hmoved : ¬ s.Moved thread) : s.viewed thread = s.asked thread := by
  cases thread with
  | none => rfl
  | some t =>
    have hnot : ¬ s.Active t := fun hactive => hmoved ⟨t, rfl, hactive⟩
    have hcurrent : s.currentThread ≠ some t := fun h => hnot (.inl h)
    have hfind : s.resumers.find? (fun waiting => waiting.1 = some t) = none :=
      List.find?_eq_none.mpr fun waiting hmem => by
        simpa using fun hactive => hnot (.inr ⟨waiting, hmem, hactive⟩)
    rw [viewed, asked, if_neg hcurrent, hfind]

end InspectState

/-- A thread that has its stacks is a call stack. -/
def ThreadStacks.Sound.callStack {ts : ThreadStacks} (h : ts.Sound) (s : InspectState) : CallStack where
  toTracebackContext := s.context ts
  ci_lt := h.ci_lt
  ci_lt_max := h.ci_lt_max

namespace TracebackContext

/-- What resolving a level finds in the fields of a thread whose stacks have been moved away. -/
theorem resolve_of_moved {t : TracebackContext} (hcalls : t.callStack = []) {level : ℕ} (hlt : level < 2 ^ 64) :
    t.resolveStackLevelRaw level =
      if i64Limit ≤ level then some (some .tailCall)
      else if t.ci = 0 then (if level = 0 then none else some none)
      else if level = 0 then some (some (.real t.ci))
      else none := by
  split_ifs with hhuge hci hlevel hlevel
  · exact t.resolveStackLevelRaw_huge hhuge hlt
  · subst hlevel
    rw [resolveStackLevelRaw, hci, walkFrames]
    simp [hcalls]
  · have hint : (BitVec.ofNat 64 level).toInt = level := by
      rw [i64Limit] at hhuge
      rw [BitVec.toInt_eq_toNat_bmod, BitVec.toNat_ofNat, Int.bmod_eq_of_le] <;> omega
    rw [resolveStackLevelRaw, hci, walkFrames, hint]
    have hne : ¬ (level : ℤ) = 0 ∧ ¬ (level : ℤ) < 0 := by omega
    simp [hlevel, hne]
  · subst hlevel
    rw [resolveStackLevelRaw, walkFrames_nonpos _ _ (by simp)]
    simp [Nat.pos_of_ne_zero hci]
  · have hint : (BitVec.ofNat 64 level).toInt = level := by
      rw [i64Limit] at hhuge
      rw [BitVec.toInt_eq_toNat_bmod, BitVec.toNat_ofNat, Int.bmod_eq_of_le] <;> omega
    obtain ⟨ci, hci'⟩ := Nat.exists_eq_succ_of_ne_zero hci
    rw [resolveStackLevelRaw, hci', hint, walkFrames, if_pos (by omega), hcalls]
    rfl

end TracebackContext

/-! ### Local variables -/

/-- The names of the local variables that are active in a frame. -/
def activeLocals (t : TracebackContext) (ci : Frame) : List String :=
  match t.closureAt ci.func with
  | some (.lua proto _) =>
    (proto.localVars.filter fun lv =>
      decide (lv.startPc.toNat ≤ ci.savedPc - 1 ∧ ci.savedPc - 1 < lv.endPc.toNat)).map LocalVar.name
  | _ => []

/-- Local variable or temporary value number `localIdx` of a frame; there is no number 0. -/
def localOf (t : TracebackContext) (top targetCi localIdx : ℕ) (ci : Frame) : LocalResult :=
  if localIdx = 0 then .nil
  else
    let slot := ci.base + localIdx - 1
    match (activeLocals t ci)[localIdx - 1]? with
    | some name => .found name (t.stack[slot]?.getD .nil)
    | none => if slot < t.localLimit top targetCi then .found "(*temporary)" (t.stack[slot]?.getD .nil) else .nil

theorem localNameAt_eq (pc : ℕ) : ∀ (lvs : List LocalVar) (n : ℕ), localNameAt pc lvs n =
    let names := (lvs.filter fun lv => decide (lv.startPc.toNat ≤ pc ∧ pc < lv.endPc.toNat)).map LocalVar.name
    if n = 0 then (if names = [] then some none else none) else some names[n - 1]?
  | [], n => by cases n <;> simp [localNameAt]
  | lv :: lvs, n => by
    by_cases hactive : lv.startPc.toNat ≤ pc ∧ pc < lv.endPc.toNat
    · match n with
      | 0 => simp [localNameAt, hactive]
      | 1 => simp [localNameAt, hactive]
      | n + 2 => simp [localNameAt, hactive, localNameAt_eq pc lvs (n + 1)]
    · have hrest := localNameAt_eq pc lvs n
      have hfilter : (lv :: lvs).filter (fun lv => decide (lv.startPc.toNat ≤ pc ∧ pc < lv.endPc.toNat)) =
          lvs.filter fun lv => decide (lv.startPc.toNat ≤ pc ∧ pc < lv.endPc.toNat) :=
        List.filter_cons_of_neg (by simpa using hactive)
      rw [hfilter, ← hrest]
      cases n <;> simp only [localNameAt, if_neg hactive]

namespace TracebackContext

/-- The name of a local variable is found, unless the number is 0 and there are local variables. -/
theorem getLocalNameRaw_eq {t : TracebackContext} {targetCi : ℕ} {ci : Frame} (hci : t.callStack[targetCi]? = some ci)
    (n : ℕ) : t.getLocalNameRaw targetCi n =
      if n = 0 then (if activeLocals t ci = [] then some none else none) else some (activeLocals t ci)[n - 1]? := by
  rw [getLocalNameRaw, hci, activeLocals]
  simp only [Option.bind_eq_bind, Option.bind_some]
  cases hclosure : t.closureAt ci.func with
  | none => simp
  | some cl =>
    cases cl with
    | lua proto shortSource => exact localNameAt_eq ..
    | rust name upvalueCount => simp

/-- A local variable is reported unless the counting or the addition of the number to the base overflows. -/
theorem localAt_eq {t : TracebackContext} {top targetCi localIdx : ℕ} {ci : Frame}
    (hci : t.callStack[targetCi]? = some ci) (hbase : 0 < ci.base) :
    t.localAt top targetCi localIdx =
      if (localIdx = 0 → activeLocals t ci = []) ∧ ci.base + localIdx < 2 ^ 64 then
        some (localOf t top targetCi localIdx ci)
      else none := by
  have hslot : localSlot ci.base localIdx =
      if ci.base + localIdx < 2 ^ 64 then some (ci.base + localIdx - 1) else none := by
    rw [localSlot]
    exact if_congr (by omega) rfl rfl
  rw [localAt, getLocalNameRaw_eq hci, hci]
  rcases Nat.eq_zero_or_pos localIdx with rfl | hpos
  · by_cases hlocals : activeLocals t ci = []
    · simp only [hlocals, if_true, Option.bind_eq_bind, Option.bind_some, hslot, implies_true, true_and, localOf,
        lt_self_iff_false, false_and, if_false]
      by_cases hsum : ci.base + 0 < 2 ^ 64
      · simp only [if_pos hsum, Option.bind_some]
      · simp only [if_neg hsum, Option.bind_none]
    · simp [hlocals]
  · have hne : localIdx ≠ 0 := hpos.ne'
    simp only [hne, if_false, Option.bind_eq_bind, Option.bind_some, hslot, false_implies, true_and, localOf, hpos]
    by_cases hsum : ci.base + localIdx < 2 ^ 64
    · simp only [if_pos hsum, Option.bind_some]
      cases (activeLocals t ci)[localIdx - 1]? with
      | some name => rfl
      | none => simp only; split_ifs <;> rfl
    · simp only [if_neg hsum, Option.bind_none]

end TracebackContext

theorem levelOf_lt (x : F64) : levelOf x < 2 ^ 64 := by
  have hmax : usizeMax = 2 ^ 64 - 1 := rfl
  cases x with
  | nan neg => simp [levelOf]
  | infinite neg => cases neg <;> simp [levelOf, hmax]
  | finite neg m =>
    cases neg with
    | true => simp [levelOf]
    | false =>
      rw [levelOf, hmax]
      omega

namespace InspectState

variable {s : InspectState} {thread : Option (GcRef .thread)} {level localIdx : ℕ}

theorem viewed_of_moved (h : s.Coherent) (hmoved : s.Moved thread) :
    (s.viewed thread).stack = [] ∧ (s.viewed thread).callStack = [] := by
  obtain ⟨t, rfl, hactive⟩ := hmoved
  exact h.moved t hactive

/-! ### `debug.getlocal` -/

/-- What there is to report of a local variable of the thread that was asked about. -/
def localSpec (s : InspectState) (thread : Option (GcRef .thread)) (level localIdx : ℕ) : LocalResult :=
  let t := s.context (s.asked thread)
  match t.levels[level]? with
  | some (.real target) =>
    match t.callStack[target]? with
    | some ci => localOf t (s.asked thread).top target localIdx ci
    | none => .nil
  | _ => .nil

def getlocalSpec (s : InspectState) (args : List Val) : Except String LocalResult := do
  let level ← s.checkNumber "getlocal" args (threadOffset args)
  let localIdx ← s.checkNumber "getlocal" args (threadOffset args + 1)
  pure (s.localSpec (threadArg args) (levelOf level) (levelOf localIdx))

/-- The numbers are ones for which a local variable is reported. A coroutine whose stacks are not in its object has to
    have been without frames when it was last suspended, and to have nothing to report there. -/
structure LocalSafe (s : InspectState) (thread : Option (GcRef .thread)) (level localIdx : ℕ) : Prop where
  moved : s.Moved thread → (i64Limit ≤ level ∨ (0 < level ∧ (s.viewed thread).ci = 0)) ∧
    s.localSpec thread level localIdx = .nil
  own : ¬ s.Moved thread → ∀ target ci, (s.context (s.asked thread)).levels[level]? = some (.real target) →
    (s.asked thread).callStack[target]? = some ci →
    (localIdx = 0 → activeLocals (s.context (s.asked thread)) ci = []) ∧ ci.base + localIdx < 2 ^ 64

theorem levels_getElem?_of_huge (h : s.Coherent) (thread : Option (GcRef .thread)) (hhuge : i64Limit ≤ level) :
    (s.context (s.asked thread)).levels[level]? = none := by
  have hlen := ((asked_sound h thread).callStack s).length_levels_lt
  rw [i64Limit] at hhuge
  exact List.getElem?_eq_none (by have := hlen.le; exact this.trans (by omega))

theorem getlocalAt_of_moved (h : s.Coherent) (hmoved : s.Moved thread) (hlt : level < 2 ^ 64) :
    s.getlocalAt thread level localIdx =
      if i64Limit ≤ level ∨ (0 < level ∧ (s.viewed thread).ci = 0) then some .nil else none := by
  obtain ⟨hstack, hcalls⟩ := viewed_of_moved h hmoved
  have hlocal : ∀ top targetCi,
      (s.context (s.viewed thread)).localAt top targetCi localIdx = none := fun top targetCi => by
    rw [TracebackContext.localAt, TracebackContext.getLocalNameRaw, context, hcalls]
    rfl
  rw [getlocalAt, TracebackContext.resolve_of_moved (t := s.context (s.viewed thread)) hcalls hlt]
  by_cases hhuge : i64Limit ≤ level
  · simp [hhuge]
  · by_cases hci : (s.viewed thread).ci = 0
    · rcases Nat.eq_zero_or_pos level with rfl | hpos
      · simp [hhuge, context, hci]
      · simp [hhuge, context, hci, hpos, hpos.ne']
    · rcases Nat.eq_zero_or_pos level with rfl | hpos
      · have hlocal' := hlocal
        simp only [context] at hlocal'
        simp [hhuge, context, hci, hlocal']
      · simp [hhuge, context, hci, hpos.ne']

theorem getlocalAt_of_own (h : s.Coherent) (hmoved : ¬ s.Moved thread) (hlt : level < 2 ^ 64) :
    s.getlocalAt thread level localIdx = some (s.localSpec thread level localIdx) ↔
      ∀ target ci, (s.context (s.asked thread)).levels[level]? = some (.real target) →
        (s.asked thread).callStack[target]? = some ci →
        (localIdx = 0 → activeLocals (s.context (s.asked thread)) ci = []) ∧ ci.base + localIdx < 2 ^ 64 := by
  have hsound := asked_sound h thread
  rw [getlocalAt, viewed_eq_asked hmoved, localSpec]
  rcases lt_or_ge level i64Limit with hsmall | hhuge
  · rw [(s.context (s.asked thread)).resolveStackLevelRaw_eq hsound.ci_lt hsmall]
    rcases hlevel : (s.context (s.asked thread)).levels[level]? with _ | (target | _)
    · simp
    · have htarget : target < (s.asked thread).callStack.length :=
        lt_of_le_of_lt (TracebackContext.mem_levels (List.mem_of_getElem? hlevel)) hsound.ci_lt
      have hci : (s.context (s.asked thread)).callStack[target]? = some (s.asked thread).callStack[target] :=
        List.getElem?_eq_getElem htarget
      have hci' : (s.asked thread).callStack[target]? = some (s.asked thread).callStack[target] := hci
      have hbase := hsound.base_pos _ (List.getElem_mem htarget)
      simp only [Option.bind_eq_bind, Option.bind_some, hci, TracebackContext.localAt_eq hci hbase]
      constructor
      · intro hsome target' ci hreal hframe
        cases hreal
        obtain rfl := Option.some.inj (hci'.symm.trans hframe)
        by_contra hnot
        rw [if_neg hnot] at hsome
        cases hsome
      · exact fun hall => if_pos (hall target _ rfl hci')
    · simp
  · rw [(s.context (s.asked thread)).resolveStackLevelRaw_huge hhuge hlt, levels_getElem?_of_huge h thread hhuge]
    simp

theorem getlocalAt_iff (h : s.Coherent) (hlt : level < 2 ^ 64) :
    s.getlocalAt thread level localIdx = some (s.localSpec thread level localIdx) ↔
      s.LocalSafe thread level localIdx := by
  by_cases hmoved : s.Moved thread
  · rw [getlocalAt_of_moved h hmoved hlt]
    constructor
    · intro hsome
      refine ⟨fun _ => ?_, fun hown => absurd hmoved hown⟩
      split_ifs at hsome with hcases
      exact ⟨hcases, (Option.some.inj hsome).symm⟩
    · intro hsafe
      obtain ⟨hcases, hnil⟩ := hsafe.moved hmoved
      rw [if_pos hcases, hnil]
  · rw [getlocalAt_of_own h hmoved hlt]
    exact ⟨fun hall => ⟨fun hm => absurd hm hmoved, fun _ => hall⟩, fun hsafe => hsafe.own hmoved⟩

theorem getlocal_iff (h : s.Coherent) (args : List Val) :
    s.dbGetlocal args = some (s.getlocalSpec args) ↔
      ∀ level localIdx, s.checkNumber "getlocal" args (threadOffset args) = .ok level →
        s.checkNumber "getlocal" args (threadOffset args + 1) = .ok localIdx →
        s.LocalSafe (threadArg args) (levelOf level) (levelOf localIdx) := by
  rw [dbGetlocal, getlocalSpec]
  cases hlevel : s.checkNumber "getlocal" args (threadOffset args) with
  | error msg => simp; rfl
  | ok level =>
    cases hidx : s.checkNumber "getlocal" args (threadOffset args + 1) with
    | error msg => simp; rfl
    | ok localIdx =>
      have hspec : ∀ res, (s.getlocalAt (threadArg args) (levelOf level) (levelOf localIdx)).map Except.ok =
          some (Except.ok (ε := String) res) ↔
            s.getlocalAt (threadArg args) (levelOf level) (levelOf localIdx) = some res := fun res => by
        cases s.getlocalAt (threadArg args) (levelOf level) (levelOf localIdx) <;> simp
      refine (hspec _).trans ((getlocalAt_iff h (levelOf_lt level)).trans ?_)
      constructor
      · rintro hsafe _ _ ⟨⟩ ⟨⟩
        exact hsafe
      · exact fun hall => hall level localIdx rfl rfl

/-! ### `debug.getinfo` -/

/-- The closure of a frame, as `debug.getinfo` sees it. -/
def frameClosureInfo (t : TracebackContext) (target : ℕ) : Option ClosureInfo := do
  let ci ← t.callStack[target]?
  let r ← t.frameClosure ci
  let cl ← t.closures r
  some (extractClosureInfo cl)

/-- What there is to report of a level of the thread that was asked about. -/
def infoSpec (objName : Resolver) (s : InspectState) (thread : Option (GcRef .thread)) (level : ℕ)
    (options : String) : Option InfoResult :=
  let t := s.context (s.asked thread)
  match t.levels[level]? with
  | none => some .nil
  | some .tailCall => some (.table (fillTailCallInfo options))
  | some (.real target) => (frameInfo objName t t options target).map .table

/-- The level is one that is reported. A coroutine whose stacks are not in its object has to have been without frames
    when it was last suspended, and to have no such level. If a name is asked for, it has to be found, and to be the
    same in the frames of the running thread. -/
structure InfoSafe (objName : Resolver) (s : InspectState) (thread : Option (GcRef .thread)) (level : ℕ)
    (options : String) : Prop where
  small : level < i64Limit
  moved : s.Moved thread → (s.viewed thread).ci = 0 ∧ 0 < level ∧
    (s.context (s.asked thread)).levels.length ≤ level
  own : ¬ s.Moved thread → ∀ target info, (s.context (s.asked thread)).levels[level]? = some (.real target) →
    frameClosureInfo (s.context (s.asked thread)) target = some info → 'n' ∈ options.toList →
    ∃ name, functionName objName (s.context (s.asked thread)) info (some target) = some name ∧
      functionName objName (s.context s.running) info (some target) = some name

theorem nameFields_injective : Function.Injective nameFields := by
  rintro ⟨name, nameWhat⟩ ⟨name', nameWhat'⟩ h
  simp only [nameFields, List.cons.injEq, Prod.mk.injEq, true_and, InfoValue.str.injEq, and_true] at h
  obtain ⟨hname, rfl⟩ := h
  split_ifs at hname with hempty hempty'
  · rw [hempty, hempty']
  · cases hname
    rfl

theorem infoFields_injective {options : String} (hn : 'n' ∈ options.toList) (line : ℤ) (r : GcRef .closure)
    (info : ClosureInfo) : Function.Injective (infoFields options line r info) := by
  intro name name' h
  simp only [infoFields, ifOption, if_pos hn, List.append_assoc, List.append_cancel_left_eq,
    List.append_cancel_right_eq] at h
  exact nameFields_injective h

/-- Without the names, the tables are the same; with them, they are the same exactly if the names are. -/
theorem infoTable_agree (objName : Resolver) (names names' : TracebackContext) (options : String) (ciIdx : Option ℕ)
    (line : ℤ) (r : GcRef .closure) (info : ClosureInfo) :
    (∃ fields, infoTable objName names options ciIdx line r info = some fields ∧
        infoTable objName names' options ciIdx line r info = some fields) ↔
      ('n' ∈ options.toList → ∃ name, functionName objName names info ciIdx = some name ∧
        functionName objName names' info ciIdx = some name) := by
  rw [infoTable, infoTable]
  by_cases hn : 'n' ∈ options.toList
  · rw [if_pos hn, if_pos hn]
    simp only [hn, true_implies, Option.map_eq_some_iff]
    constructor
    · rintro ⟨fields, ⟨name, hname, hfields⟩, ⟨name', hname', hfields'⟩⟩
      obtain rfl := infoFields_injective hn line r info (hfields.trans hfields'.symm)
      exact ⟨name, hname, hname'⟩
    · rintro ⟨name, hname, hname'⟩
      exact ⟨_, ⟨name, hname, rfl⟩, ⟨name, hname', rfl⟩⟩
  · simp [hn]

theorem frameInfo_agree {objName : Resolver} {t names names' : TracebackContext} {options : String} {target : ℕ}
    (htarget : target < t.callStack.length) :
    (∃ fields, frameInfo objName t names options target = some fields ∧
        frameInfo objName t names' options target = some fields) ↔
      ∀ info, frameClosureInfo t target = some info → 'n' ∈ options.toList →
        ∃ name, functionName objName names info (some target) = some name ∧
          functionName objName names' info (some target) = some name := by
  rw [frameInfo, frameInfo, frameClosureInfo, List.getElem?_eq_getElem htarget]
  simp only [Option.bind_eq_bind, Option.bind_some]
  cases t.frameClosure t.callStack[target] with
  | none => simp
  | some r =>
    simp only [Option.bind_some]
    cases t.closures r with
    | none => simp
    | some cl =>
      simp only [Option.bind_some, Option.some.injEq, forall_eq']
      exact infoTable_agree ..

/-- `debug.getinfo` reports the level that it was asked about. -/
def InfoReports (objName : Resolver) (s : InspectState) (args : List Val) : Prop :=
  (s.dbGetinfo objName args).isSome ∧ ∀ level, argOf args (threadOffset args) = .num level →
    ∃ res, s.infoSpec objName (threadArg args) (levelOf level) (s.infoOptions args (threadOffset args + 1)) = some res ∧
      s.dbGetinfo objName args = some (.ok res)

theorem infoAt_of_moved (objName : Resolver) (h : s.Coherent) (hmoved : s.Moved thread) (hlt : level < 2 ^ 64)
    (options : String) :
    (∃ res, s.infoSpec objName thread level options = some res ∧ s.getinfoAt objName thread level options = some res) ↔
      level < i64Limit ∧ (s.viewed thread).ci = 0 ∧ 0 < level ∧
        (s.context (s.asked thread)).levels.length ≤ level := by
  obtain ⟨hstack, hcalls⟩ := viewed_of_moved h hmoved
  have hframe : ∀ target, frameInfo objName (s.context (s.viewed thread)) (s.context s.running) options target = none :=
    fun target => by
      rw [frameInfo, context, hcalls]
      rfl
  have hfound : s.getinfoAt objName thread level options =
      if i64Limit ≤ level then some (.table (fillTailCallInfo options))
      else if (s.viewed thread).ci = 0 ∧ 0 < level then some .nil else none := by
    rw [getinfoAt, TracebackContext.resolve_of_moved (t := s.context (s.viewed thread)) hcalls hlt]
    by_cases hhuge : i64Limit ≤ level
    · simp [hhuge]
    · by_cases hci : (s.viewed thread).ci = 0
      · rcases Nat.eq_zero_or_pos level with rfl | hpos
        · simp [hhuge, context, hci]
        · simp [hhuge, context, hci, hpos, hpos.ne']
      · rcases Nat.eq_zero_or_pos level with rfl | hpos
        · have hframe' := hframe (s.viewed thread).ci
          simp only [context] at hframe'
          simp [hhuge, context, hci, hframe']
        · simp [hhuge, context, hci, hpos.ne']
  rw [hfound, infoSpec]
  constructor
  · rintro ⟨res, hspec, hres⟩
    by_cases hhuge : i64Limit ≤ level
    · rw [if_pos hhuge] at hres
      rw [levels_getElem?_of_huge h thread hhuge] at hspec
      cases hres
      cases hspec
    · rw [if_neg hhuge] at hres
      split_ifs at hres with hcases
      refine ⟨not_le.mp hhuge, hcases.1, hcases.2, ?_⟩
      obtain rfl := Option.some.inj hres
      by_contra hlevels
      rw [List.getElem?_eq_getElem (not_le.mp hlevels)] at hspec
      generalize (s.context (s.asked thread)).levels[level] = stackLevel at hspec
      cases stackLevel with
      | tailCall => cases hspec
      | real target =>
        obtain ⟨fields, -, hnil⟩ := Option.map_eq_some_iff.mp hspec
        cases hnil
  · rintro ⟨hsmall, hci, hpos, hlen⟩
    refine ⟨.nil, ?_, ?_⟩
    · simp only [List.getElem?_eq_none hlen]
    · rw [if_neg (not_le.mpr hsmall), if_pos ⟨hci, hpos⟩]

theorem infoAt_of_own (objName : Resolver) (h : s.Coherent) (hmoved : ¬ s.Moved thread) (hlt : level < 2 ^ 64)
    (options : String) :
    (∃ res, s.infoSpec objName thread level options = some res ∧ s.getinfoAt objName thread level options = some res) ↔
      level < i64Limit ∧ ∀ target info, (s.context (s.asked thread)).levels[level]? = some (.real target) →
        frameClosureInfo (s.context (s.asked thread)) target = some info → 'n' ∈ options.toList →
        ∃ name, functionName objName (s.context (s.asked thread)) info (some target) = some name ∧
          functionName objName (s.context s.running) info (some target) = some name := by
  have hsound := asked_sound h thread
  rw [infoSpec, getinfoAt, viewed_eq_asked hmoved]
  rcases lt_or_ge level i64Limit with hsmall | hhuge
  · rw [(s.context (s.asked thread)).resolveStackLevelRaw_eq hsound.ci_lt hsmall]
    simp only [hsmall, true_and]
    rcases hlevel : (s.context (s.asked thread)).levels[level]? with _ | (target | _)
    · simp
    · have htarget : target < (s.context (s.asked thread)).callStack.length :=
        lt_of_le_of_lt (TracebackContext.mem_levels (List.mem_of_getElem? hlevel)) hsound.ci_lt
      simp only [Option.bind_eq_bind, Option.bind_some, Option.map_eq_some_iff, Option.some.injEq,
        StackLevel.real.injEq]
      constructor
      · rintro ⟨res, ⟨fields, hspec, rfl⟩, ⟨fields', hres, hsame⟩⟩ _ info rfl
        cases hsame
        exact (frameInfo_agree htarget).mp ⟨fields, hspec, hres⟩ info
      · intro hall
        obtain ⟨fields, hspec, hres⟩ :=
          (@frameInfo_agree objName _ _ _ options target htarget).mpr fun info => hall target info rfl
        exact ⟨_, ⟨fields, hspec, rfl⟩, ⟨fields, hres, rfl⟩⟩
    · simp
  · rw [(s.context (s.asked thread)).resolveStackLevelRaw_huge hhuge hlt, levels_getElem?_of_huge h thread hhuge]
    simp [not_lt.mpr hhuge]

theorem infoAt_iff (objName : Resolver) (h : s.Coherent) (thread : Option (GcRef .thread)) (hlt : level < 2 ^ 64)
    (options : String) :
    (∃ res, s.infoSpec objName thread level options = some res ∧ s.getinfoAt objName thread level options = some res) ↔
      s.InfoSafe objName thread level options := by
  by_cases hmoved : s.Moved thread
  · rw [infoAt_of_moved objName h hmoved hlt]
    exact ⟨fun ⟨hsmall, hrest⟩ => ⟨hsmall, fun _ => hrest, fun hown => absurd hmoved hown⟩,
      fun hsafe => ⟨hsafe.small, hsafe.moved hmoved⟩⟩
  · rw [infoAt_of_own objName h hmoved hlt]
    exact ⟨fun ⟨hsmall, hall⟩ => ⟨hsmall, fun hm => absurd hm hmoved, fun _ => hall⟩,
      fun hsafe => ⟨hsafe.small, hsafe.own hmoved⟩⟩

theorem getinfoOf_isSome (objName : Resolver) (s : InspectState) (r : GcRef .closure) (options : String) :
    (s.getinfoOf objName r options).isSome := by
  rw [getinfoOf]
  split
  · rfl
  · rw [infoTable, functionName]
    split_ifs <;> rfl

theorem getinfo_iff (objName : Resolver) (h : s.Coherent) (args : List Val) :
    s.InfoReports objName args ↔ ∀ level, argOf args (threadOffset args) = .num level →
      s.InfoSafe objName (threadArg args) (levelOf level) (s.infoOptions args (threadOffset args + 1)) := by
  rw [InfoReports, dbGetinfo]
  cases harg : argOf args (threadOffset args) with
  | num level =>
    have hiff := infoAt_iff objName h (threadArg args) (levelOf_lt level)
      (s.infoOptions args (threadOffset args + 1))
    simp only [Val.num.injEq, forall_eq', Option.map_eq_some_iff, Except.ok.injEq, exists_eq_right,
      Option.isSome_map]
    refine Iff.trans ⟨fun ⟨_, hspec⟩ => hspec, fun hspec => ⟨?_, hspec⟩⟩ hiff
    obtain ⟨res, -, hres⟩ := hspec
    rw [hres]
    rfl
  | function r => simp [getinfoOf_isSome]
  | _ => simp

end InspectState

/-! ### `debug.traceback` -/

namespace TracebackContext

/-- The entries of a traceback of a thread that has its stacks. -/
def shown (t : TracebackContext) (startLevel : ℕ) : List (Option StackLevel) :=
  elide t.levels startLevel (if t.hasNoTailCalls then startLevel + levels1 else max startLevel (levels1 + 1))

/-- A traceback as one text. -/
def tracebackText (msg : String) (lines : List String) : String :=
  lines.foldl (fun result line => result ++ "\n\t" ++ line)
    ((if msg = "" then "" else msg ++ "\n") ++ "stack traceback:")

theorem formatFrameLine_isSome_iff {objName : Resolver} {t : TracebackContext} {ciIdx : ℕ}
    (h : ciIdx < t.callStack.length) :
    (t.formatFrameLine objName ciIdx).isSome ↔ (t.getfuncnameRaw objName ciIdx).isSome := by
  rw [formatFrameLine, List.getElem?_eq_getElem h]
  simp only [Option.bind_eq_bind, Option.bind_some]
  cases t.getfuncnameRaw objName ciIdx with
  | none => rfl
  | some funcName =>
    simp only [Option.bind_some, Option.isSome_some, iff_true]
    split <;> rfl

theorem linesOf_isSome_iff {objName : Resolver} {t : TracebackContext} : ∀ {listing : List (Option StackLevel)},
    (t.linesOf objName listing).isSome ↔ ∀ entry ∈ listing, (t.lineOf objName entry).isSome
  | [] => by simp [linesOf]
  | entry :: listing => by
    rw [linesOf_cons, List.forall_mem_cons, ← linesOf_isSome_iff]
    cases t.lineOf objName entry <;> simp

theorem generateTracebackRaw_eq (objName : Resolver) (t : CallStack) (msg : String) {level : ℕ}
    (h : t.hasNoTailCalls ∨ level < i64Limit) :
    t.generateTracebackRaw objName msg level = (t.linesOf objName (t.shown level)).map (tracebackText msg) := by
  rw [generateTracebackRaw, shown]
  by_cases hnone : t.hasNoTailCalls
  · rw [if_pos hnone, if_pos hnone, appendTracebackWithoutTailCalls_eq objName t hnone]
    exact (Option.map_eq_bind ..).symm
  · rw [if_neg hnone, if_neg hnone, appendTracebackWithTailCalls_eq objName t (h.resolve_left hnone)]
    exact (Option.map_eq_bind ..).symm

theorem generateTracebackRaw_huge (objName : Resolver) (t : TracebackContext) (msg : String) {level : ℕ}
    (hlt : level < 2 ^ 64) (h : ¬ (t.hasNoTailCalls ∨ level < i64Limit)) :
    t.generateTracebackRaw objName msg level = none := by
  obtain ⟨hnone, hhuge⟩ := not_or.mp h
  rw [generateTracebackRaw, if_neg hnone, appendTracebackWithTailCalls_huge objName t (not_lt.mp hhuge) hlt]
  rfl

/-- A traceback of a thread that has its stacks has all its lines if the names of the frames shown are found. -/
theorem generateTracebackRaw_isSome_iff (objName : Resolver) (t : CallStack) (msg : String) {level : ℕ}
    (hlt : level < 2 ^ 64) :
    (t.generateTracebackRaw objName msg level).isSome ↔ (t.hasNoTailCalls ∨ level < i64Limit) ∧
      ∀ ci, some (.real ci) ∈ t.shown level → (t.getfuncnameRaw objName ci).isSome := by
  by_cases hcases : t.hasNoTailCalls ∨ level < i64Limit
  · rw [generateTracebackRaw_eq objName t msg hcases, Option.isSome_map, linesOf_isSome_iff]
    simp only [hcases, true_and]
    have hlen : ∀ ci, some (.real ci) ∈ t.shown level → ci < t.callStack.length := fun ci hci =>
      lt_of_le_of_lt (mem_levels (mem_elide hci)) t.ci_lt
    constructor
    · exact fun hall ci hci => (formatFrameLine_isSome_iff (hlen ci hci)).mp (hall _ hci)
    · intro hall entry hentry
      rcases entry with _ | (ci | _)
      · rfl
      · exact (formatFrameLine_isSome_iff (hlen ci hentry)).mpr (hall ci hentry)
      · rfl
  · rw [generateTracebackRaw_huge objName t.toTracebackContext msg hlt hcases]
    simp [hcases]

theorem foldl_lines_length (lines : List String) (header : String) :
    (lines.foldl (fun result line => result ++ "\n\t" ++ line) header).length ≥ header.length + 2 * lines.length := by
  induction lines generalizing header with
  | nil => simp
  | cons line lines ih =>
    have hrest := ih (header ++ "\n\t" ++ line)
    have htab : ("\n\t" : String).length = 2 := rfl
    rw [String.length_append, String.length_append, htab] at hrest
    rw [List.foldl_cons, List.length_cons]
    omega

theorem tracebackText_eq_header {msg : String} {lines : List String} :
    tracebackText msg lines = tracebackText msg [] ↔ lines = [] := by
  refine ⟨fun h => ?_, fun h => by rw [h]⟩
  have hlen := foldl_lines_length lines ((if msg = "" then "" else msg ++ "\n") ++ "stack traceback:")
  have hsame := congrArg String.length h
  rw [tracebackText, tracebackText, List.foldl_nil] at hsame
  exact List.length_eq_zero_iff.mp (by omega)

theorem linesOf_eq_nil {objName : Resolver} {t : TracebackContext} {listing : List (Option StackLevel)} :
    t.linesOf objName listing = some [] ↔ listing = [] := by
  cases listing with
  | nil => simp [linesOf]
  | cons entry listing =>
    rw [linesOf_cons]
    cases t.lineOf objName entry <;> simp

theorem elide_eq_nil {levels : List StackLevel} {s k : ℕ} :
    elide levels s k = [] ↔ levels.length ≤ s ∧ levels.length ≤ k + levels2 := by
  rw [elide]
  split_ifs with h
  · simp; omega
  · simp; omega

/-- A traceback without lines comes of a start level behind the levels. -/
theorem generateTracebackRaw_eq_header (objName : Resolver) (t : CallStack) (msg : String) {level : ℕ}
    (hlt : level < 2 ^ 64) :
    t.generateTracebackRaw objName msg level = some (tracebackText msg []) ↔
      (t.hasNoTailCalls ∨ level < i64Limit) ∧ t.levels.length ≤ level := by
  by_cases hcases : t.hasNoTailCalls ∨ level < i64Limit
  · rw [generateTracebackRaw_eq objName t msg hcases]
    simp only [Option.map_eq_some_iff, tracebackText_eq_header, exists_eq_right, linesOf_eq_nil, shown, elide_eq_nil,
      hcases, true_and]
    split_ifs <;> omega
  · rw [generateTracebackRaw_huge objName t.toTracebackContext msg hlt hcases]
    simp [hcases]

/-- A thread whose stacks have been moved away has no traceback, unless it had fewer frames than the start level. -/
theorem generateTracebackRaw_moved (objName : Resolver) {t : TracebackContext} (hcalls : t.callStack = [])
    (msg : String) (level : ℕ) :
    t.generateTracebackRaw objName msg level = if t.ci ≤ level then some (tracebackText msg []) else none := by
  have hnone : t.hasNoTailCalls := by simp [hasNoTailCalls, hcalls]
  have hcount : t.countFramesWithoutTailCalls = t.ci := by
    simp [countFramesWithoutTailCalls, hasMainThreadSentinel, hcalls]
  have hline : ∀ ci, t.formatFrameLine objName ci = none := fun ci => by
    rw [formatFrameLine, hcalls]
    rfl
  rw [generateTracebackRaw, if_pos hnone, appendTracebackWithoutTailCalls, hcount]
  by_cases hle : t.ci ≤ level
  · rw [if_pos hle, if_pos hle]
    rfl
  · rw [if_neg hle, if_neg hle]
    have hfirst : ∀ len, 0 < len → t.appendTracebackFrameRange objName level len = none := fun len hlen => by
      obtain ⟨n, rfl⟩ := Nat.exists_eq_succ_of_ne_zero hlen.ne'
      rw [appendTracebackFrameRange, List.range'_succ, List.mapM_cons, hline]
      rfl
    simp only
    rw [hfirst _ (by split_ifs <;> first | decide | omega)]
    rfl

end TracebackContext

namespace InspectState

variable {s : InspectState} {level : ℕ}

/-- The traceback that there is to make of the thread that was asked about. -/
def tracebackSpec (objName : Resolver) (s : InspectState) (args : List Val) : Option TracebackResult :=
  match s.messageOf args (threadOffset args) with
  | .inr other => some (.value other)
  | .inl msg =>
    ((s.context (s.asked (threadArg args))).generateTracebackRaw objName msg
      (startLevelOf args (threadOffset args))).map .text

/-- The start level is one that a traceback can be made from. The names of the frames shown have to be found. A
    coroutine whose stacks are not in its object has to have no more frames than that, neither now nor when it was last
    suspended. -/
structure TracebackSafe (objName : Resolver) (s : InspectState) (thread : Option (GcRef .thread))
    (level : ℕ) : Prop where
  small : (s.context (s.asked thread)).hasNoTailCalls ∨ level < i64Limit
  named : ∀ ci, some (.real ci) ∈ (s.context (s.asked thread)).shown level →
    ((s.context (s.asked thread)).getfuncnameRaw objName ci).isSome
  moved : s.Moved thread → (s.viewed thread).ci ≤ level ∧ (s.context (s.asked thread)).levels.length ≤ level

theorem startLevelOf_lt (args : List Val) (argOffset : ℕ) : startLevelOf args argOffset < 2 ^ 64 := by
  rw [startLevelOf]
  split_ifs
  · split
    · exact levelOf_lt _
    · decide
  · decide
  · decide

theorem tracebackAt_iff (objName : Resolver) (h : s.Coherent) (thread : Option (GcRef .thread)) (msg : String)
    (hlt : level < 2 ^ 64) :
    (∃ text, (s.context (s.asked thread)).generateTracebackRaw objName msg level = some text ∧
        (s.context (s.viewed thread)).generateTracebackRaw objName msg level = some text) ↔
      s.TracebackSafe objName thread level := by
  have hsome := TracebackContext.generateTracebackRaw_isSome_iff objName ((asked_sound h thread).callStack s) msg hlt
  by_cases hmoved : s.Moved thread
  · obtain ⟨hstack, hcalls⟩ := viewed_of_moved h hmoved
    have hempty := TracebackContext.generateTracebackRaw_eq_header objName ((asked_sound h thread).callStack s) msg hlt
    rw [TracebackContext.generateTracebackRaw_moved objName (t := s.context (s.viewed thread)) hcalls]
    constructor
    · rintro ⟨text, htext, hview⟩
      split_ifs at hview with hci
      obtain rfl := Option.some.inj hview
      obtain ⟨hsmall, hlen⟩ := hempty.mp htext
      obtain ⟨-, hnamed⟩ := hsome.mp (Option.isSome_iff_exists.mpr ⟨_, htext⟩)
      exact ⟨hsmall, hnamed, fun _ => ⟨hci, hlen⟩⟩
    · intro hsafe
      obtain ⟨hci, hlen⟩ := hsafe.moved hmoved
      exact ⟨_, hempty.mpr ⟨hsafe.small, hlen⟩, if_pos hci⟩
  · rw [viewed_eq_asked hmoved]
    simp only [and_self]
    rw [← Option.isSome_iff_exists]
    refine hsome.trans ⟨fun ⟨hsmall, hnamed⟩ => ⟨hsmall, hnamed, fun hm => absurd hm hmoved⟩, fun hsafe => ?_⟩
    exact ⟨hsafe.small, hsafe.named⟩

theorem traceback_iff (objName : Resolver) (h : s.Coherent) (args : List Val) :
    (∃ res, s.tracebackSpec objName args = some res ∧ s.dbTraceback objName args = some (.ok res)) ↔
      ∀ msg, s.messageOf args (threadOffset args) = .inl msg →
        s.TracebackSafe objName (threadArg args) (startLevelOf args (threadOffset args)) := by
  rw [tracebackSpec, dbTraceback]
  cases hmsg : s.messageOf args (threadOffset args) with
  | inr other => simp
  | inl msg =>
    have hiff := tracebackAt_iff objName h (threadArg args) msg (startLevelOf_lt args (threadOffset args))
    simp only [Sum.inl.injEq, forall_eq', Option.map_eq_some_iff, Option.bind_eq_bind, Option.bind_eq_some_iff,
      Option.some.injEq, Except.ok.injEq]
    refine Iff.trans ⟨?_, ?_⟩ hiff
    · rintro ⟨res, ⟨text, htext, rfl⟩, ⟨text', hview, hsame⟩⟩
      cases hsame
      exact ⟨text, htext, hview⟩
    · rintro ⟨text, htext, hview⟩
      exact ⟨_, ⟨text, htext, rfl⟩, ⟨text, hview, rfl⟩⟩

/-- `getobjname` with the constants of the state. -/
def resolver (s : InspectState) : Resolver := fun proto pc reg => proto.getobjname s.strings pc reg

end InspectState

open InspectState

/-- A state between two instructions: each thread has its stacks in its object, if it neither runs nor waits. -/
structure Inspectable extends InspectState where
  coherent : toInspectState.Coherent

/-- When `debug.getlocal`, `debug.getinfo` and `debug.traceback` return and report the thread that they were asked
    about, with any arguments. -/
theorem debug_inspection (s : Inspectable) (args : List Val) :
    (s.dbGetlocal args = some (s.getlocalSpec args) ↔
      ∀ level localIdx, s.checkNumber "getlocal" args (threadOffset args) = .ok level →
        s.checkNumber "getlocal" args (threadOffset args + 1) = .ok localIdx →
        s.LocalSafe (threadArg args) (levelOf level) (levelOf localIdx)) ∧
    (s.InfoReports s.resolver args ↔ ∀ level, argOf args (threadOffset args) = .num level →
      s.InfoSafe s.resolver (threadArg args) (levelOf level) (s.infoOptions args (threadOffset args + 1))) ∧
    ((∃ res, s.tracebackSpec s.resolver args = some res ∧ s.dbTraceback s.resolver args = some (.ok res)) ↔
      ∀ msg, s.messageOf args (threadOffset args) = .inl msg →
        s.TracebackSafe s.resolver (threadArg args) (startLevelOf args (threadOffset args))) :=
  ⟨InspectState.getlocal_iff s.coherent args, InspectState.getinfo_iff s.resolver s.coherent args,
    InspectState.traceback_iff s.resolver s.coherent args⟩

/-- The bottom frame of a thread and nothing else. -/
def emptyThread : ThreadStacks :=
  ⟨[.nil], [{ CallInfo.initial with tailCalls_lt := Nat.two_pow_pos 31 }], 0, 1⟩

theorem emptyThread_sound : emptyThread.Sound := ⟨by decide, by decide, by decide⟩

/-- The main thread has resumed a new coroutine, which runs a native function. -/
def firstResumeState : InspectState where
  closures _ := none
  strings _ := none
  currentThread := some ⟨0, 0⟩
  running := ⟨[.function ⟨0, 0⟩],
    List.replicate 2 { CallInfo.initial with tailCalls_lt := Nat.two_pow_pos 31 }, 1, 1⟩
  resumers := [(none, emptyThread)]
  threads t := if t = ⟨0, 0⟩ then ⟨[], [], 0, 1⟩ else emptyThread
  parseNumber _ := none
  displayNumber _ := ""

theorem firstResumeState_coherent : firstResumeState.Coherent where
  running := ⟨by decide, by decide, by decide⟩
  resumers waiting hmem := by
    obtain rfl := List.mem_singleton.mp hmem
    exact emptyThread_sound
  moved t hactive := by
    rcases hactive with h | ⟨waiting, hmem, h⟩
    · obtain rfl := Option.some.inj h
      exact ⟨rfl, rfl⟩
    · obtain rfl := List.mem_singleton.mp hmem
      cases h
  own t hidle := by
    have hne : t ≠ ⟨0, 0⟩ := by
      rintro rfl
      exact hidle (.inl rfl)
    have hown : firstResumeState.threads t = emptyThread := if_neg hne
    rw [hown]
    exact emptyThread_sound

def firstResume : Inspectable := ⟨firstResumeState, firstResumeState_coherent⟩

/-- A coroutine that asks about its own level 0 looks for a frame in its empty object. -/
theorem not_debug_inspection :
    firstResume.dbGetinfo firstResume.resolver [.thread ⟨0, 0⟩, .num (F64.zero false)] = none := by
  have hlevel : levelOf (F64.zero false) = 0 := by simp [levelOf, F64.zero]
  have hresolve := TracebackContext.resolve_of_moved (t := firstResume.context (firstResume.viewed (some ⟨0, 0⟩))) rfl
    (show 0 < 2 ^ 64 by decide)
  rw [InspectState.dbGetinfo]
  change (firstResume.getinfoAt firstResume.resolver (some ⟨0, 0⟩) (levelOf (F64.zero false)) _).map _ = none
  rw [hlevel, InspectState.getinfoAt, hresolve]
  rfl

end Rilua.Debug
