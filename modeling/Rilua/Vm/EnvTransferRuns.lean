import Rilua.Vm.EnvTransfer

/-! Where the transfer hook runs. The function slots of the frames above the base frame hold the functions in progress,
    so that a walk over the frames meets these, innermost first, and then what is in slot 0. Hence the hook is handed
    what crosses, wherever slot 0 has nothing to say. -/

namespace Rilua.Vm

open Lib Gc LuaState Transfers

variable {H : Type}

/-! ### The functions on the stack -/

/-- The function slots of the frames `cs` hold the functions `fs`. The slots are below `hi`, each is below the base of
    its frame and above those of the frames further out. The base frame has slot 0, and so does the frame of the
    function of a coroutine. -/
inductive Owned (co : Bool) (get : ℕ → Val) : ℕ → List CallInfo → List (GcRef .closure) → Prop
  | base {hi : ℕ} {c : CallInfo} (hfunc : c.func = 0) : Owned co get hi [c] []
  | cons {hi : ℕ} {c : CallInfo} {cs : List CallInfo} {r : GcRef .closure} {rs : List (GcRef .closure)}
      (hlt : c.func < hi) (hbase : c.func < c.base) (hget : get c.func = .function r)
      (hbody : co = true → rs = [] → c.func = 0) (h : Owned co get c.func cs rs) : Owned co get hi (c :: cs) (r :: rs)

variable {co : Bool} {get get' : ℕ → Val} {hi hi' : ℕ} {c c' : CallInfo} {cs : List CallInfo} {r : GcRef .closure}
  {rs : List (GcRef .closure)} {s s' : LuaState} {t t' : Transfers H} {rest : Rest}

namespace Owned

theorem length_eq (h : Owned co get hi cs rs) : cs.length = rs.length + 1 := by
  induction h with
  | base => rfl
  | cons _ _ _ _ _ ih => rw [List.length_cons, ih, List.length_cons]

theorem congr (h : Owned co get hi cs rs) (hget : ∀ i < hi, get' i = get i) : Owned co get' hi cs rs := by
  induction h with
  | base hfunc => exact .base hfunc
  | cons hlt hbase hslot hbody _ ih =>
    exact .cons hlt hbase ((hget _ hlt).trans hslot) hbody (ih fun i hi => hget i (hi.trans hlt))

/-- The bound only concerns the innermost frame. -/
theorem rebound (h : Owned co get hi cs rs) (hlt : rs ≠ [] → ∀ c ∈ cs.head?, c.func < hi') :
    Owned co get hi' cs rs := by
  cases h with
  | base hfunc => exact .base hfunc
  | cons _ hbase hslot hbody h => exact .cons (hlt (by simp) _ rfl) hbase hslot hbody h

theorem mono (h : Owned co get hi cs rs) (hle : hi ≤ hi') : Owned co get hi' cs rs := by
  cases h with
  | base hfunc => exact .base hfunc
  | cons hlt hbase hslot hbody h => exact .cons (hlt.trans_le hle) hbase hslot hbody h

/-- The functions are below the base of the innermost frame. -/
theorem rebase (h : Owned co get hi (c :: cs) rs) : Owned co get c.base (c :: cs) rs := by
  cases h with
  | base hfunc => exact .base hfunc
  | cons _ hbase hslot hbody h => exact .cons hbase hbase hslot hbody h

theorem setHead (h : Owned co get hi (c :: cs) rs) (hfunc : c'.func = c.func) (hbase' : rs ≠ [] → c'.func < c'.base) :
    Owned co get hi (c' :: cs) rs := by
  cases h with
  | base hzero => exact .base (hfunc.trans hzero)
  | cons hlt hbase hslot hbody h =>
    refine .cons (hfunc ▸ hlt) (hbase' (by simp)) (hfunc ▸ hslot) (hfunc ▸ hbody) ?_
    rw [hfunc]
    exact h

theorem drop (h : Owned co get hi cs rs) : ∀ {k : ℕ}, k ≤ rs.length → Owned co get hi (cs.drop k) (rs.drop k) := by
  induction h with
  | base hfunc => exact fun hk => by simpa [Nat.le_zero.mp hk] using Owned.base hfunc
  | cons hlt hbase hslot hbody h ih =>
    intro k hk
    cases k with
    | zero => exact .cons hlt hbase hslot hbody h
    | succ k => exact (ih (Nat.le_of_succ_le_succ hk)).mono hlt.le

/-- A write to a slot that is no function slot. -/
theorem update (h : Owned co get hi cs rs) {i : ℕ} {v : Val} (hne : ∀ c ∈ cs.dropLast, c.func ≠ i) :
    Owned co (Function.update get i v) hi cs rs := by
  induction h with
  | base hfunc => exact .base hfunc
  | @cons _ c cs _ rs hlt hbase hslot hbody h ih =>
    have hcs : cs ≠ [] := by
      rintro rfl
      cases h
    rw [List.dropLast_cons_of_ne_nil hcs] at hne
    have hfunc := hne c List.mem_cons_self
    refine .cons hlt hbase ?_ hbody (ih fun c' hc' => hne c' (List.mem_cons_of_mem _ hc'))
    rw [Function.update_of_ne hfunc]
    exact hslot

/-- A walk over the frames meets the functions, and then slot 0. -/
theorem findSome_eq (h : Owned co get hi cs rs) {α : Type} (f : Val → Option α) :
    (cs.findSome? fun c => f (get c.func)) = (rs.findSome? fun r => f (.function r)).or (f (get 0)) := by
  induction h with
  | base hfunc => simp [hfunc]
  | cons hlt hbase hslot hbody h ih =>
    rw [List.findSome?_cons, List.findSome?_cons, hslot, ih]
    cases f _ with
    | some x => rfl
    | none => rfl

end Owned

/-- Where the base frame has nothing to say, the environment that is found is that of the nearest Lua function. -/
theorem findSome_nearest (h : Owned co s.stackGet hi cs rs) (hquiet : LuaAmong s rs ∨ BaseQuiet s (s.stackGet 0)) :
    (cs.findSome? fun frame => s.luaFunctionEnvironment (s.stackGet frame.func)).getD s.global =
      nearestActive s rs := by
  rw [h.findSome_eq s.luaFunctionEnvironment, nearestActive]
  change ((rs.findSome? s.gc.envOf).or _).getD s.global = _
  cases hfind : rs.findSome? s.gc.envOf with
  | some env => rfl
  | none =>
    rcases hquiet with ⟨r, hr, henv⟩ | hbase
    · rw [List.findSome?_eq_none_iff.mp hfind r hr] at henv
      cases henv
    · cases hslot : s.luaFunctionEnvironment (s.stackGet 0) with
      | none => rfl
      | some env => exact hbase env hslot

theorem nearestLuaEnvironment_ci (h : Owned co s.stackGet hi s.chain rs)
    (hquiet : LuaAmong s rs ∨ BaseQuiet s (s.stackGet 0)) : s.nearestLuaEnvironment s.ci = nearestActive s rs :=
  findSome_nearest h hquiet

/-- Where no Lua function is in progress, slot 0 is asked. -/
theorem nearestLuaEnvironment_base {i : ℕ} {env : GcRef .table}
    (h : Owned co s.stackGet hi (s.callStack.take (i + 1)).reverse [])
    (henv : s.luaFunctionEnvironment (s.stackGet 0) = some env) :
    s.nearestLuaEnvironment i = env := by
  rw [nearestLuaEnvironment, h.findSome_eq s.luaFunctionEnvironment, henv]
  rfl

/-! ### What the parts of a call and a return do to the stack -/

theorem pushAll_spec (vs : List Val) : ∀ s : LuaState, (s.pushAll vs).gc = s.gc ∧ (s.pushAll vs).global = s.global ∧
    ∀ i < s.top, (s.pushAll vs).stackGet i = s.stackGet i := by
  induction vs with
  | nil => exact fun s => ⟨rfl, rfl, fun _ _ => rfl⟩
  | cons v vs ih =>
    intro s
    obtain ⟨hgc, hglobal, hget⟩ := ih (s.push v)
    refine ⟨hgc, hglobal, fun i hi => (hget i (hi.trans (Nat.lt_succ_self _))).trans ?_⟩
    rw [stackGet_push, Function.update_of_ne hi.ne]

theorem closeUpvalues_eq (s : LuaState) (level : ℕ) :
    ∃ gc openUpvalues, s.closeUpvalues level = { s with gc, openUpvalues } := by
  have hfrom : ∀ (rs : List (GcRef .upvalue)) (s : LuaState),
      ∃ gc openUpvalues, LuaState.closeFrom level rs s = { s with gc, openUpvalues } := by
    intro rs
    induction rs with
    | nil => exact fun s => ⟨_, _, rfl⟩
    | cons r rs ih =>
      intro s
      rw [LuaState.closeFrom]
      split_ifs
      · obtain ⟨gc, openUpvalues, heq⟩ := ih (s.closeUpvalue r)
        exact ⟨gc, openUpvalues, heq⟩
      · exact ⟨_, _, rfl⟩
  exact hfrom s.openUpvalues s

theorem openReturn_keeps (s : LuaState) (a b : ℕ) : (s.openReturn a b).stackGet = s.stackGet ∧
    (s.openReturn a b).global = s.global ∧ (s.openReturn a b).chain = s.chain ∧ (s.openReturn a b).ci = s.ci ∧
      (s.openReturn a b).callStack = s.callStack ∧ (s.openReturn a b).base = s.base ∧
        (s.openReturn a b).gc.envOf = s.gc.envOf := by
  have henv : (s.openReturn a b).gc.envOf = s.gc.envOf := funext (SameClosures.openReturn s a b).envOf
  refine ⟨?_, ?_, ?_, ?_, ?_, ?_, henv⟩ <;>
    obtain ⟨gc, openUpvalues, heq⟩ := closeUpvalues_eq s s.base <;> rw [openReturn, heq] <;> split_ifs <;> rfl

/-- The frame of the function that is entered. -/
structure EnteredAt (s s' : LuaState) (pos : ℕ) (c : CallInfo) : Prop where
  ci_lt : s'.ci < s'.callStack.length
  chain_eq : s'.chain = c :: s.chain
  func_eq : c.func = pos
  base_eq : s'.base = c.base
  func_lt : c.func < c.base
  base_le : c.base ≤ s'.top
  below : ∀ i ≤ pos, s'.stackGet i = s.stackGet i

theorem LuaState.Entered.enteredAt {pos : ℕ} {f : Frame} (h : Entered s s' pos f) : ∃ c, EnteredAt s s' pos c := by
  obtain ⟨c, hchain, hfunc, hbase, hrel⟩ := h.frame
  obtain ⟨hlt, hle⟩ : c.func < c.base ∧ c.base ≤ s'.top := by
    have := hrel (fun _ => f.proto) rfl
    exact ⟨this.func_lt, this.base_le⟩
  exact ⟨c, h.ci_lt, hchain, hfunc, hbase, hlt, hle, h.below⟩

theorem enterFunction_spec {pos : ℕ} {wanted : Option ℕ} {res : CallResult} (hpos : pos < s.top)
    (hci : s.ci < s.callStack.length) (he : s.enterFunction r pos wanted = .ok (s', res)) :
    ∃ c, EnteredAt s s' pos c := by
  rw [enterFunction] at he
  split at he
  · cases he
  · split at he
    · rename_i hlua
      cases he
      obtain ⟨_, -, hent⟩ := enterLua_spec .call hpos hci hlua
      exact hent.enteredAt
    · cases he
  · cases he
    exact (enterRust_spec hpos hci wanted .call).1.enteredAt

/-- The frame of the callee moves down to the function slot of its caller. -/
theorem stackGet_replaceFrame {cp : CallInfo} (hci : s.ci < s.callStack.length) (h : s.chain = c :: cp :: cs)
    (hlt : cp.func < c.func) (htop : c.func < s.top) :
    s.replaceFrame.stackGet cp.func = s.stackGet c.func ∧
      ∀ i < cp.func, s.replaceFrame.stackGet i = s.stackGet i := by
  obtain ⟨hchain, hpop⟩ := chain_popCi hci h
  have hget : s.replaceFrame.stackGet = blit s.stackGet cp.func (window s.stackGet c.func s.top) := by
    rw [replaceFrame, show s.callInfo (s.ci - 1) = cp from callInfo_ci hpop hchain, callInfo_ci hci h]
    refine (slot_copyUp _ _ hlt.le _).trans ?_
    rw [Nat.add_sub_of_le htop.le]
    rfl
  refine ⟨?_, fun i hi => ?_⟩
  · rw [hget, window_cons _ htop, blit_cons, blit_of_lt _ _ (Nat.lt_succ_self _), Function.update_self]
  · rw [hget, blit_of_lt _ _ hi]

/-! ### A call or a return goes on -/

/-- The frames of the thread, with the functions in their slots. -/
structure Framing (co : Bool) (s : LuaState) (hi : ℕ) (rs : List (GcRef .closure)) : Prop where
  ci_lt : s.ci < s.callStack.length
  owned : Owned co s.stackGet hi s.chain rs

/-- The function of the innermost frame is below `pos`. -/
def Above (s : LuaState) (rs : List (GcRef .closure)) (pos : ℕ) : Prop := rs ≠ [] → ∀ c ∈ s.chain.head?, c.func < pos

/-- What the rest of a call or a return needs. -/
def Ready (co : Bool) (s : LuaState) (rs : List (GcRef .closure)) : Rest → Prop
  | .enter r pos _ tail => pos < s.top ∧ s.stackGet pos = .function r ∧ Above s rs pos ∧
      (co = true → rs = [] → pos = 0) ∧ (tail = true → rs ≠ [])
  | .leave _ => rs ≠ []

namespace Framing

theorem ci_eq (h : Framing co s hi rs) : s.ci = rs.length := by
  have hlen := h.owned.length_eq
  rw [length_chain h.ci_lt] at hlen
  omega

theorem above (h : Framing co s hi rs) : Above s rs hi := by
  obtain ⟨-, howned⟩ := h
  intro hne c hc
  generalize s.chain = cs at howned hc
  cases howned with
  | base => exact absurd rfl hne
  | cons hlt => exact Option.some.inj hc ▸ hlt

/-- What changes nothing below a slot above the functions. -/
theorem keep {pos : ℕ} (h : Framing co s hi rs) (habove : Above s rs pos) (hci : s'.ci < s'.callStack.length)
    (hchain : s'.chain = s.chain) (hget : ∀ i < pos, s'.stackGet i = s.stackGet i) : Framing co s' hi rs := by
  refine ⟨hci, ?_⟩
  rw [hchain]
  exact ((h.owned.rebound habove).congr hget).rebound h.above

theorem of_onlyStack {pos : ℕ} (h : Framing co s hi rs) (habove : Above s rs pos) (honly : OnlyStack s s')
    (hget : ∀ i < pos, s'.stackGet i = s.stackGet i) : Framing co s' hi rs :=
  h.keep habove (honly.ci_lt h.ci_lt) honly.chain_eq hget

/-- The frames of a thread in the middle of calls. -/
theorem exists_cons (h : Framing co s hi (r :: rs)) : ∃ c c' cs, s.chain = c :: c' :: cs ∧ c.func < c.base ∧
    c.func < hi ∧ s.stackGet c.func = .function r ∧ (co = true → rs = [] → c.func = 0) ∧
      Owned co s.stackGet c.func (c' :: cs) rs := by
  obtain ⟨-, howned⟩ := h
  generalize s.chain = cs at howned ⊢
  cases howned with
  | @cons _ c cs _ _ hlt hbase hget hbody h =>
    cases cs with
    | nil => cases h
    | cons c' cs => exact ⟨c, c', cs, rfl, hbase, hlt, hget, hbody, h⟩

/-- A function is entered. -/
theorem enter {pos : ℕ} (h : Framing co s hi rs) (hent : EnteredAt s s' pos c) (hfunc : s.stackGet pos = .function r)
    (habove : Above s rs pos) (hbody : co = true → rs = [] → pos = 0) : Framing co s' s'.base (r :: rs) := by
  refine ⟨hent.ci_lt, ?_⟩
  rw [hent.chain_eq, hent.base_eq]
  refine .cons hent.func_lt hent.func_lt ?_ (hent.func_eq.symm ▸ hbody) ?_
  · rw [hent.func_eq, hent.below pos le_rfl]
    exact hfunc
  · rw [hent.func_eq]
    exact (h.owned.rebound habove).congr fun i hi => hent.below i hi.le

/-- A Lua function that was entered takes the place of its caller. -/
theorem replaceFrame {r' : GcRef .closure} (h : Framing co s s.base (r :: r' :: rs)) (htop : s.base ≤ s.top)
    (hbase : ∀ c ∈ s.chain.head?, c.base = s.base) : Framing co s.replaceFrame s.replaceFrame.base (r :: rs) := by
  obtain ⟨c, cp, cs, hchain, hlt, -, hslot, -, howned⟩ := h.exists_cons
  rw [hchain] at hbase
  have hle : c.base ≤ s.top := (hbase c rfl).trans_le htop
  cases howned with
  | cons hcp hcpb hcps hbody howned =>
    obtain ⟨c', hrep⟩ := replaceFrame_replacedFrame h.ci_lt hchain hlt hle
    obtain ⟨hfunc, hbelow⟩ := stackGet_replaceFrame h.ci_lt hchain hcp (hlt.trans_le hle)
    refine ⟨hrep.ci_lt, ?_⟩
    rw [hrep.chain_eq, hrep.base_eq]
    refine .cons hrep.func_lt hrep.func_lt ?_ (hrep.func_eq.symm ▸ hbody) ?_
    · rw [hrep.func_eq, hfunc, hslot]
    · rw [hrep.func_eq]
      exact howned.congr hbelow

/-- The innermost frame is left. -/
theorem poscall (h : Framing co s hi (r :: rs)) (first : ℕ) :
    Framing co (s.poscall first).1 (s.poscall first).1.base rs := by
  obtain ⟨c, c', cs, hchain, -, -, -, -, howned⟩ := h.exists_cons
  obtain ⟨hleft, -⟩ := poscall_spec first h.ci_lt hchain
  refine ⟨hleft.ci_lt, ?_⟩
  rw [hleft.chain_eq, hleft.base_eq]
  exact (howned.congr hleft.below).rebase

/-- An error takes the thread back to the frame `j`. -/
theorem unwind {j top : ℕ} (h : Framing co s hi rs) (hj : j ≤ s.ci) :
    Framing co { s with ci := j, base := (s.callInfo j).base, top } (s.callInfo j).base (rs.drop (s.ci - j)) := by
  have hlen := h.ci_eq
  have hci : j < s.callStack.length := hj.trans_lt h.ci_lt
  have hchain := chain_unwind h.ci_lt hj (t := { s with ci := j, base := (s.callInfo j).base, top }) rfl rfl
  have howned := h.owned.drop (show s.ci - j ≤ rs.length by omega)
  refine ⟨hci, ?_⟩
  rw [← hchain, chain_eq hci] at howned
  rw [chain_eq hci]
  exact howned.rebase

end Framing

/-- Besides the frames, a call or a return that goes on changes nothing. -/
theorem finish_spec (h : Framing t.coroutine s s.base t.owners) (hready : Ready t.coroutine s t.owners rest)
    (he : t.finish s rest = some t') :
    ∃ st owners running, t' = { t with st, owners, running } ∧ Framing t.coroutine st st.base owners := by
  cases rest with
  | leave first =>
    obtain ⟨r, rs, howners⟩ := List.exists_cons_of_ne_nil hready
    rw [howners] at h
    cases he
    refine ⟨_, _, _, rfl, ?_⟩
    rw [howners]
    exact h.poscall first
  | enter r pos wanted tail =>
    obtain ⟨hpos, hfunc, habove, hbody, htail⟩ := hready
    simp only [Transfers.finish] at he
    cases hent : s.enterFunction r pos wanted with
    | error e =>
      rw [hent] at he
      cases e with
      | exhausted => cases he
      | _ =>
        cases he
        exact ⟨_, _, _, rfl, h⟩
    | ok x =>
      obtain ⟨s₁, res⟩ := x
      rw [hent] at he
      obtain ⟨c, hc⟩ := enterFunction_spec hpos h.ci_lt hent
      have hframe := h.enter hc hfunc habove hbody
      cases res with
      | rust cl =>
        cases he
        exact ⟨_, _, _, rfl, hframe⟩
      | lua cl =>
        dsimp only at he
        split_ifs at he with htl
        · cases he
          obtain ⟨r', rs, howners⟩ := List.exists_cons_of_ne_nil (htail htl)
          rw [howners] at hframe
          obtain ⟨gc, openUpvalues, hclose⟩ := closeUpvalues_eq s₁ (s₁.callInfo (s₁.ci - 1)).base
          have hclosed :
            Framing t.coroutine (s₁.closeUpvalues (s₁.callInfo (s₁.ci - 1)).base) s₁.base (r :: r' :: rs) := by
            rw [hclose]
            exact ⟨hframe.ci_lt, hframe.owned⟩
          have hbase : (s₁.closeUpvalues (s₁.callInfo (s₁.ci - 1)).base).base = s₁.base := by rw [hclose]
          have hchain : (s₁.closeUpvalues (s₁.callInfo (s₁.ci - 1)).base).chain = c :: s.chain := by
            rw [hclose]
            exact hc.chain_eq
          refine ⟨_, _, _, rfl, ?_⟩
          rw [howners]
          refine Framing.replaceFrame (hbase ▸ hclosed) ?_ ?_
          · rw [hbase, top_closeUpvalues, hc.base_eq]
            exact hc.base_le
          · rw [hchain, hbase, hc.base_eq]
            rintro _ ⟨⟩
            rfl
        · cases he
          exact ⟨_, _, _, rfl, hframe⟩

/-! ### The invariant -/

/-- What is kept for the call or the return that waits for the hook. -/
def Waiting (co : Bool) (p : Conversion H) : Prop :=
  match p.rest with
  | .enter _ pos _ tail => pos < p.top ∧ (p.frames.length ≠ 1 → ∀ c ∈ p.frames.head?, c.func < pos) ∧
      (co = true → p.frames.length = 1 → pos = 0) ∧ (tail = true → p.frames.length ≠ 1)
  | .leave _ => p.frames.length ≠ 1

/-- At most one hook runs, and it is not installed then. -/
structure Hooked (t : Transfers H) : Prop where
  one : t.converting.length ≤ 1
  installed : t.environmentTransferHook = t.activeHook
  converts : ∀ p ∈ t.converting, t.chosen = some p.hook ∧ Waiting t.coroutine p

structure TransferInv (t : Transfers H) : Prop extends Hooked t where
  framing : Framing t.coroutine t.st t.st.base t.owners

theorem Framing.owners_eq_nil (h : Framing co s hi rs) : rs = [] ↔ s.chain.length = 1 := by
  rw [length_chain h.ci_lt, h.ci_eq, ← List.length_eq_zero_iff]
  omega

theorem Ready.waiting (h : Framing co s hi rs) (hready : Ready co s rs rest) (hook : H) :
    Waiting co ⟨hook, rest, s.chain, s.top⟩ := by
  have hnil := h.owners_eq_nil
  cases rest with
  | enter r pos wanted tail =>
    obtain ⟨hpos, -, habove, hbody, htail⟩ := hready
    exact ⟨hpos, fun hne => habove (mt hnil.mp hne), fun hco hlen => hbody hco (hnil.mpr hlen),
      fun ht => mt hnil.mpr (htail ht)⟩
  | leave first => exact mt hnil.mpr hready

theorem Waiting.ready {p : Conversion H} (hw : Waiting co p) (h : Framing co s hi rs) (hp : preserved s p = true) :
    Ready co s rs p.rest := by
  have hnil := h.owners_eq_nil
  obtain ⟨hook, rest, frames, top⟩ := p
  simp only [preserved, Bool.and_eq_true, decide_eq_true_eq] at hp
  obtain ⟨⟨rfl, rfl⟩, hfunc⟩ := hp
  cases rest with
  | enter r pos wanted tail =>
    obtain ⟨hpos, habove, hbody, htail⟩ := hw
    exact ⟨hpos, of_decide_eq_true hfunc, fun hne => habove (mt hnil.mpr hne), fun hco hrs => hbody hco (hnil.mp hrs),
      fun ht => mt hnil.mp (htail ht)⟩
  | leave first => exact mt hnil.mp hw

theorem TransferInv.finish (ht : Hooked t) (h : Framing t.coroutine s s.base t.owners)
    (hready : Ready t.coroutine s t.owners rest) (he : t.finish s rest = some t') :
      TransferInv t' ∧ t'.log = t.log := by
  obtain ⟨st, owners, running, rfl, hframe⟩ := finish_spec h hready he
  exact ⟨⟨⟨ht.one, ht.installed, ht.converts⟩, hframe⟩, rfl⟩

/-- What the hook is handed, if there is one. -/
def handed (t : Transfers H) (source target : GcRef .table) (start : ℕ) (values : List Val) : List (Transfer H) :=
  match t.activeHook with
  | some hook => crosses hook source target start values
  | none => []

theorem transferEnvironmentValues_spec {source target : GcRef .table} {start : ℕ} (ht : Hooked t)
    (h : Framing t.coroutine s s.base t.owners) (hready : Ready t.coroutine s t.owners rest)
    (he : t.transferEnvironmentValues s source target start rest = some t') :
    TransferInv t' ∧ t'.log = t.log ++ handed t source target start (s.slots start s.top) := by
  have hempty : s.slots start s.top = [] ↔ s.top ≤ start := by
    rw [slots, ← List.length_eq_zero_iff, length_window]
    omega
  rw [transferEnvironmentValues] at he
  split_ifs at he with hsame
  · obtain ⟨hinv, hlog⟩ := TransferInv.finish ht h hready he
    refine ⟨hinv, ?_⟩
    have hnone : ∀ hook : H, crosses hook source target start (s.slots start s.top) = [] := fun hook =>
      if_neg fun hcross => hsame.elim hcross.1 fun hle => hcross.2 (hempty.mpr hle)
    rw [hlog, handed]
    split <;> simp [hnone]
  · rw [ht.installed] at he
    obtain ⟨hne, hlt⟩ := not_or.mp hsame
    cases hactive : t.activeHook with
    | none =>
      rw [hactive] at he
      obtain ⟨hinv, hlog⟩ := TransferInv.finish ht h hready he
      exact ⟨hinv, by simp [hlog, handed, hactive]⟩
    | some hook =>
      rw [hactive] at he
      cases he
      have hactive' := hactive
      rw [activeHook] at hactive'
      split_ifs at hactive' with hconv
      have hnil : t.converting = [] := List.isEmpty_iff.mp hconv
      refine ⟨⟨⟨by simp [hnil], by simp [activeHook], ?_⟩, h⟩, ?_⟩
      · intro p hp
        rw [hnil] at hp
        obtain rfl := List.mem_singleton.mp hp
        exact ⟨hactive', hready.waiting h hook⟩
      · rw [handed, hactive]
        simp [crosses, hne, hempty, hlt]

theorem transferCallArguments_spec {function : GcRef .closure} {start : ℕ} (ht : Hooked t)
    (h : Framing t.coroutine s s.base t.owners) (hready : Ready t.coroutine s t.owners rest)
    (he : t.transferCallArguments s function start rest = some t') :
    TransferInv t' ∧ t'.log = t.log ++ ((s.gc.envOf function).map fun target =>
      handed t (s.nearestLuaEnvironment s.ci) target start (s.slots start s.top)).getD [] := by
  rw [transferCallArguments, ht.installed] at he
  cases hactive : t.activeHook with
  | none =>
    rw [hactive] at he
    obtain ⟨hinv, hlog⟩ := TransferInv.finish ht h hready he
    refine ⟨hinv, ?_⟩
    cases s.gc.envOf function <;> simp [hlog, handed, hactive]
  | some hook =>
    have hlua : s.luaFunctionEnvironment (.function function) = s.gc.envOf function := rfl
    rw [hactive] at he
    dsimp only at he
    rw [hlua] at he
    cases henv : s.gc.envOf function with
    | none =>
      rw [henv] at he
      obtain ⟨hinv, hlog⟩ := TransferInv.finish ht h hready he
      exact ⟨hinv, by simp [hlog]⟩
    | some target =>
      rw [henv] at he
      exact transferEnvironmentValues_spec ht h hready he

theorem transferReturnValues_spec {start : ℕ} (ht : Hooked t) (h : Framing t.coroutine s s.base t.owners)
    (hready : Ready t.coroutine s t.owners rest) (howners : t.owners = r :: rs)
    (he : t.transferReturnValues s start rest = some t') :
    TransferInv t' ∧ t'.log = t.log ++ ((s.gc.envOf r).map fun source =>
      handed t source (s.nearestLuaEnvironment (s.ci - 1)) start (s.slots start s.top)).getD [] := by
  have hfunc : s.luaFunctionEnvironment (s.stackGet (s.callInfo s.ci).func) = s.gc.envOf r := by
    rw [howners] at h
    obtain ⟨c, c', cs, hchain, -, -, hslot, -, -⟩ := h.exists_cons
    rw [callInfo_ci h.ci_lt hchain, hslot]
    rfl
  rw [transferReturnValues, ht.installed, hfunc] at he
  cases hactive : t.activeHook with
  | none =>
    rw [hactive] at he
    obtain ⟨hinv, hlog⟩ := TransferInv.finish ht h hready he
    refine ⟨hinv, ?_⟩
    cases s.gc.envOf r <;> simp [hlog, handed, hactive]
  | some hook =>
    rw [hactive] at he
    cases henv : s.gc.envOf r with
    | none =>
      rw [henv] at he
      obtain ⟨hinv, hlog⟩ := TransferInv.finish ht h hready he
      exact ⟨hinv, by simp [hlog]⟩
    | some target =>
      rw [henv] at he
      exact transferEnvironmentValues_spec ht h hready he

/-! ### Calls -/

theorem resolve_of_error {pos : ℕ} {e : CallError} {args : List Val} (he : s.resolveCallee pos = .error e) :
    resolve s.gc (s.stackGet pos) args = none := by
  rw [resolveCallee] at he
  rw [resolve]
  cases hfunc : (s.stackGet pos).closureRef with
  | some r => simp [hfunc] at he
  | none =>
    cases htm : (s.gc.gettmbyobj (s.stackGet pos) .call).bind Val.closureRef with
    | some r => simp [hfunc, htm] at he
    | none => rfl

theorem active_eq (hrun : t.running = t.st.ci) : t.active = t.owners := by
  rw [active, hrun, Nat.sub_self, List.drop_zero]

/-- The state in which a route calls `precall`. -/
structure CallReady (t : Transfers H) (route : Route) (s : LuaState) (pos : ℕ) : Prop where
  framing : Framing t.coroutine s s.base t.owners
  above : Above s t.owners pos
  gc_eq : s.gc = t.st.gc
  global_eq : s.global = t.st.global
  body : t.coroutine = true → t.owners = [] → pos = 0
  tail : route.isTail = true → t.owners ≠ []
  first : route.isBody = true → t.coroutine = true ∧ t.owners = []

theorem Framing.setPc (h : Framing co s s.base rs) (pc : ℕ) {pos : ℕ} (hle : s.base ≤ pos)
    (hci : s'.ci < s'.callStack.length) (hbase : s'.base = s.base) (hchain : ∀ c cs, s.chain = c :: cs → s'.chain = { c with savedPc := pc } :: cs)
    (hget : ∀ i < s.base, s'.stackGet i = s.stackGet i) : Framing co s' s'.base rs ∧ Above s' rs pos := by
  have howned : Owned co s'.stackGet s'.base s'.chain rs := by
    have hold := h.owned
    obtain ⟨c, cs, hcs⟩ : ∃ c cs, s.chain = c :: cs := ⟨_, _, chain_eq h.ci_lt⟩
    rw [hcs] at hold
    rw [hchain c cs hcs, hbase]
    have hlt : rs ≠ [] → c.func < c.base := fun hne => by
      cases hold with
      | base => exact absurd rfl hne
      | cons _ hlt => exact hlt
    have hnew : Owned co s.stackGet s.base ({ c with savedPc := pc } :: cs) rs := hold.setHead rfl hlt
    exact hnew.congr hget
  have hframe : Framing co s' s'.base rs := ⟨hci, howned⟩
  exact ⟨hframe, fun hne c hc => (hframe.above hne c hc).trans_le (hbase.trans_le hle)⟩

/-- The host calls while no function is in progress. -/
theorem Framing.host (h : Framing co s hi rs) (hci : s.ci = 0) (hstack : s'.callStack = s.callStack)
    (hci' : s'.ci = s.ci) (pos : ℕ) : rs = [] ∧ Framing co s' s'.base rs ∧ Above s' rs pos := by
  have hrs : rs = [] := List.length_eq_zero_iff.mp (h.ci_eq.symm.trans hci)
  subst hrs
  have hchain : s'.chain = s.chain := by rw [chain, chain, hstack, hci']
  refine ⟨rfl, ⟨by rw [hstack, hci']; exact h.ci_lt, ?_⟩, fun hne => absurd rfl hne⟩
  rw [hchain]
  obtain ⟨-, howned⟩ := h
  generalize s.chain = cs at howned
  cases howned with
  | base hfunc => exact .base hfunc

theorem prepare_spec {route : Route} (h : Framing t.coroutine t.st t.st.base t.owners) (hmay : t.mayCall route = true)
    (hq : t.Quiet (.call route)) : CallReady t route (route.prepare t.st).1 (route.prepare t.st).2.1 := by
  obtain ⟨hrun, htop, -⟩ := hq
  have hlen := h.ci_eq
  have hlua : t.floor < t.running → t.owners ≠ [] := by
    intro hlt hnil
    rw [hnil, ← hrun] at hlen
    rw [hlen, List.length_nil] at hlt
    exact absurd hlt (Nat.not_lt_zero _)
  have hop : ∀ pc a b, Framing t.coroutine (t.st.openCall pc a b) (t.st.openCall pc a b).base t.owners ∧
      Above (t.st.openCall pc a b) t.owners (t.st.base + a) ∧ (t.st.openCall pc a b).gc = t.st.gc ∧
        (t.st.openCall pc a b).global = t.st.global := by
    intro pc a b
    have hkeep : (t.st.openCall pc a b).base = t.st.base ∧ (t.st.openCall pc a b).stackGet = t.st.stackGet ∧
        (t.st.openCall pc a b).gc = t.st.gc ∧ (t.st.openCall pc a b).global = t.st.global := by
      rw [openCall]
      split_ifs <;> exact ⟨rfl, rfl, rfl, rfl⟩
    obtain ⟨hbase, hget, hgc, hglobal⟩ := hkeep
    obtain ⟨c, cs, hcs⟩ : ∃ c cs, t.st.chain = c :: cs := ⟨_, _, chain_eq h.ci_lt⟩
    obtain ⟨-, -, -, hci, -⟩ := openCall_spec h.ci_lt hcs pc a b
    obtain ⟨hframe, habove⟩ := h.setPc pc (Nat.le_add_right _ a) hci hbase
      (fun c cs hcs => (openCall_spec h.ci_lt hcs pc a b).2.1) fun i _ => by rw [hget]
    exact ⟨hframe, habove, hgc, hglobal⟩
  cases route with
  | call pc a b c =>
    simp only [mayCall, Bool.and_eq_true, decide_eq_true_eq] at hmay
    obtain ⟨hframe, habove, hgc, hglobal⟩ := hop pc a b
    exact ⟨hframe, habove, hgc, hglobal, fun _ hnil => absurd hnil (hlua hmay.1), by simp [Route.isTail], by
      simp [Route.isBody]⟩
  | tailCall pc a b =>
    simp only [mayCall, Bool.and_eq_true, decide_eq_true_eq] at hmay
    obtain ⟨hframe, habove, hgc, hglobal⟩ := hop pc a b
    exact ⟨hframe, habove, hgc, hglobal, fun _ hnil => absurd hnil (hlua hmay.1), fun _ => hlua hmay.1, by
      simp [Route.isBody]⟩
  | tforloop pc a c =>
    simp only [mayCall, Bool.and_eq_true, decide_eq_true_eq] at hmay
    have hget : ∀ i < t.st.base, (t.st.openIterator pc (t.st.base + a)).stackGet i = t.st.stackGet i := by
      intro i hi
      change ((t.st.stackSet _ _).stackSet _ _ |>.stackSet _ _).stackGet i = _
      rw [stackGet_stackSet, stackGet_stackSet, stackGet_stackSet, Function.update_of_ne (by omega),
        Function.update_of_ne (by omega), Function.update_of_ne (by omega)]
    obtain ⟨c', cs, hcs⟩ : ∃ c cs, t.st.chain = c :: cs := ⟨_, _, chain_eq h.ci_lt⟩
    obtain ⟨-, -, hci, -, -⟩ := openIterator_spec h.ci_lt hcs pc (t.st.base + a)
    obtain ⟨hframe, habove⟩ := h.setPc pc (show t.st.base ≤ t.st.base + a + 3 by omega) hci rfl
      (fun c cs hcs => (openIterator_spec h.ci_lt hcs pc (t.st.base + a)).2.2.2.1) hget
    exact ⟨hframe, habove, rfl, rfl, fun _ hnil => absurd hnil (hlua hmay.1), by simp [Route.isTail], by
      simp [Route.isBody]⟩
  | atTop func args wanted =>
    simp only [mayCall, Bool.or_eq_true, Bool.not_eq_true', decide_eq_true_eq] at hmay
    obtain ⟨hgc, hglobal, hget⟩ := pushAll_spec (func :: args) t.st
    have hsame := SameFrames.pushAll (func :: args) t.st
    have habove : Above t.st t.owners t.st.top := by
      intro hne c hc
      have hci : t.st.ci ≠ 0 := by
        rw [hlen]
        exact mt List.length_eq_zero_iff.mp hne
      rw [chain_eq h.ci_lt] at hc
      exact Option.some.inj hc ▸ htop func args wanted rfl hci
    have hframe := h.keep habove (hsame.ci_lt h.ci_lt) hsame.chain_eq hget
    refine ⟨?_, fun hne c hc => habove hne c (hsame.chain_eq ▸ hc), hgc, hglobal, fun hco hnil => ?_, by
      simp [Route.isTail], by simp [Route.isBody]⟩
    · change Framing _ (t.st.pushAll (func :: args)) (t.st.pushAll (func :: args)).base _
      rw [hsame.base]
      exact hframe
    · rw [hnil] at hlen
      simp [hco, hlen] at hmay
  | callFunction i wanted =>
    simp only [mayCall, Bool.or_eq_true, Bool.not_eq_true', decide_eq_true_eq] at hmay
    refine ⟨h, fun hne c hc => (h.above hne c hc).trans_le (Nat.le_add_right _ _), rfl, rfl, fun hco hnil => ?_, by
      simp [Route.isTail], by simp [Route.isBody]⟩
    rw [hnil] at hlen
    simp [hco, hlen] at hmay
  | exec main =>
    simp only [mayCall, Bool.and_eq_true, Bool.not_eq_true', decide_eq_true_eq] at hmay
    obtain ⟨⟨⟨hco, hzero⟩, -⟩, -⟩ := hmay
    let s : LuaState := { t.st.stackSet 0 (.function main) with top := 1, base := 1 }
    have hstack : s.callStack = t.st.callStack := rfl
    obtain ⟨-, hframe, habove⟩ := h.host (hrun.symm.trans hzero) hstack rfl 0
    exact ⟨hframe, habove, rfl, rfl, fun _ _ => rfl, by simp [Route.isTail], by simp [Route.isBody]⟩
  | hostCall func args =>
    simp only [mayCall, Bool.and_eq_true, Bool.not_eq_true', decide_eq_true_eq] at hmay
    obtain ⟨⟨hco, hzero⟩, -⟩ := hmay
    obtain ⟨hgc, hglobal, -⟩ := pushAll_spec (func :: args) t.st
    have hsame := SameFrames.pushAll (func :: args) t.st
    let s : LuaState := { t.st.pushAll (func :: args) with base := t.st.top + 1 }
    have hstack : s.callStack = t.st.callStack := hsame.callStack
    obtain ⟨-, hframe, habove⟩ := h.host (hrun.symm.trans hzero) hstack hsame.ci t.st.top
    exact ⟨hframe, habove, hgc, hglobal, by simp [hco], by simp [Route.isTail], by simp [Route.isBody]⟩
  | body args =>
    simp only [mayCall, Bool.and_eq_true, decide_eq_true_eq] at hmay
    obtain ⟨⟨hco, hzero⟩, -⟩ := hmay
    obtain ⟨hgc, hglobal, -⟩ := pushAll_spec args t.st
    have hsame := SameFrames.pushAll args t.st
    obtain ⟨hnil, hframe, habove⟩ := h.host hzero hsame.callStack hsame.ci 0
    exact ⟨hframe, habove, hgc, hglobal, fun _ _ => rfl, by simp [Route.isTail], fun _ => ⟨hco, hnil⟩⟩

theorem quiet_call {route : Route} (hq : t.Quiet (.call route)) : t.running = t.st.ci ∧
    (route.isBody = false → t.activeHook.isSome → ∀ r env args,
      luaCall (route.prepare t.st).1 (route.prepare t.st).2.1 = some (r, env, args) → args ≠ [] →
        LuaAmong (route.prepare t.st).1 t.active ∨ BaseQuiet (route.prepare t.st).1
          (if (route.prepare t.st).2.1 = 0 then .function r else (route.prepare t.st).1.stackGet 0)) :=
  ⟨hq.1, hq.2.2⟩

theorem TransferInv.callRoute {route : Route} (h : TransferInv t) (hq : t.Quiet (.call route))
    (he : t.callRoute route = some t') : TransferInv t' ∧ t'.log = t.log ++ t.crossing (.call route) := by
  rw [Transfers.callRoute] at he
  simp only at he
  split_ifs at he with hmay hover
  · obtain ⟨hmay, hpos⟩ := Bool.and_eq_true_iff.mp hmay
    have hprep := prepare_spec h.framing hmay hq
    cases he
    refine ⟨⟨⟨h.one, h.installed, h.converts⟩, hprep.framing.ci_lt, hprep.framing.owned⟩, ?_⟩
    have hcall : luaCall (route.prepare t.st).1 (route.prepare t.st).2.1 = none := by rw [luaCall, if_pos hover]
    simp [crossing, hcall]
  · obtain ⟨hmay, hpos⟩ := Bool.and_eq_true_iff.mp hmay
    have hprep := prepare_spec h.framing hmay hq
    obtain ⟨hrun, hquiet⟩ := quiet_call hq
    have hpos' := of_decide_eq_true hpos
    rw [crossing]
    simp only
    generalize (route.prepare t.st).1 = s at hprep hpos' he hover hquiet ⊢
    generalize (route.prepare t.st).2.1 = pos at hprep hpos' he hquiet ⊢
    generalize (route.prepare t.st).2.2 = wanted at he
    cases hres : s.resolveCallee pos with
    | error e =>
      rw [hres] at he
      cases he
      refine ⟨⟨⟨h.one, h.installed, h.converts⟩, hprep.framing⟩, ?_⟩
      have hcall : luaCall s pos = none := by rw [luaCall, if_neg hover, resolve_of_error hres, Option.bind_none]
      simp [hcall]
    | ok x =>
      obtain ⟨s₁, r⟩ := x
      rw [hres] at he
      dsimp only at he
      obtain ⟨hresolve, honly, hgc, hlt, hfunc, hbelow⟩ := resolveCallee_spec hpos' hres
      have hbase : s₁.base = s.base := honly.base_eq
      have hglobal : s₁.global = s.global := by
        obtain ⟨_, _, _, rfl⟩ := honly
        rfl
      have hframe : Framing t.coroutine s₁ s₁.base t.owners := by
        rw [hbase]
        exact hprep.framing.of_onlyStack hprep.above honly hbelow
      have hready : Ready t.coroutine s₁ t.owners (.enter r pos wanted route.isTail) := by
        refine ⟨hlt, hfunc, fun hne c hc => hprep.above hne c ?_, hprep.body, hprep.tail⟩
        rw [← honly.chain_eq]
        exact hc
      obtain ⟨hinv, hlog⟩ := transferCallArguments_spec h.toHooked hframe hready he
      refine ⟨hinv, ?_⟩
      have hcall : luaCall s pos = (s.gc.envOf r).map fun env => (r, env, s₁.slots (pos + 1) s₁.top) := by
        rw [luaCall, if_neg hover, hresolve, Option.bind_some]
      rw [hlog, hgc, hcall]
      congr 1
      cases henv : s.gc.envOf r with
      | none => simp
      | some target =>
        rw [Option.map_some, Option.map_some, Option.getD_some, handed]
        cases hactive : t.activeHook with
        | none => rfl
        | some hook =>
          dsimp only
          rw [hcall, henv] at hquiet
          have hslot : s₁.stackGet 0 = if pos = 0 then .function r else s.stackGet 0 := by
            split_ifs with hzero
            · rw [← hfunc, hzero]
            · exact hbelow 0 (Nat.pos_of_ne_zero hzero)
          cases hbody : route.isBody with
          | true =>
            -- slot 0 has the function itself
            obtain ⟨hco, hnil⟩ := hprep.first hbody
            have hzero : pos = 0 := hprep.body hco hnil
            have hsource : s₁.nearestLuaEnvironment s₁.ci = target := by
              have howned : Owned t.coroutine s₁.stackGet s₁.base s₁.chain [] := hnil ▸ hframe.owned
              refine nearestLuaEnvironment_base howned ?_
              rw [hslot, if_pos hzero]
              change s₁.gc.envOf r = _
              rw [hgc, henv]
            rw [hsource]
            simp [crosses]
          | false =>
            rw [if_neg (by simp), active_eq hrun]
            by_cases hargs : s₁.slots (pos + 1) s₁.top = []
            · simp [crosses, hargs]
            · have hsource : s₁.nearestLuaEnvironment s₁.ci = nearestActive s t.owners := by
                have hnear : s₁.nearestLuaEnvironment s₁.ci = nearestActive s₁ t.owners := by
                  refine nearestLuaEnvironment_ci hframe.owned ?_
                  refine (hquiet hbody (by simp [hactive]) r target _ rfl hargs).imp ?_ ?_
                  · rw [active_eq hrun]
                    rintro ⟨r', hr', hsome⟩
                    exact ⟨r', hr', hgc.symm ▸ hsome⟩
                  · rw [hslot]
                    intro hbase env henv'
                    rw [hglobal]
                    refine hbase env ?_
                    rw [luaFunctionEnvironment, ← hgc]
                    exact henv'
                rw [hnear, nearestActive, nearestActive, hgc, hglobal]
              rw [hsource]

/-! ### Returns -/

/-- The functions below the one that returns. -/
theorem Framing.below {s₁ : LuaState} (h : Framing co s hi (r :: rs)) (hstack : s₁.callStack = s.callStack)
    (hci : s₁.ci = s.ci) (hget : s₁.stackGet = s.stackGet) :
    ∃ c, s.callInfo s.ci = c ∧ s.stackGet c.func = .function r ∧ (co = true → rs = [] → c.func = 0) ∧
      Owned co s₁.stackGet c.func (s₁.callStack.take (s₁.ci - 1 + 1)).reverse rs := by
  have hlen := h.ci_eq
  obtain ⟨c, c', cs, hchain, -, -, hslot, hbody, howned⟩ := h.exists_cons
  have hcs : c' :: cs = (s.callStack.take s.ci).reverse := by
    rw [chain_eq h.ci_lt] at hchain
    exact (List.cons.inj hchain).2.symm
  refine ⟨c, callInfo_ci h.ci_lt hchain, hslot, hbody, ?_⟩
  rw [hget, hstack, hci, Nat.sub_add_cancel (by rw [hlen]; exact Nat.succ_pos _), ← hcs]
  exact howned

theorem exists_owner (h : Framing co s hi rs) (hpos : 0 < s.ci) : ∃ r rs', rs = r :: rs' := by
  refine List.exists_cons_of_ne_nil fun hnil => ?_
  rw [h.ci_eq, hnil] at hpos
  exact Nat.lt_irrefl _ hpos

theorem TransferInv.ret {a b : ℕ} (h : TransferInv t) (hq : t.Quiet (.ret a b)) (he : t.step (.ret a b) = some t') :
    TransferInv t' ∧ t'.log = t.log ++ t.crossing (.ret a b) := by
  obtain ⟨hrun, hquiet⟩ := hq
  simp only [Transfers.step] at he
  split_ifs at he with hmay
  obtain ⟨hfloor, hlua⟩ := Bool.and_eq_true_iff.mp hmay
  have hpos : 0 < t.st.ci := hrun ▸ Nat.zero_lt_of_lt (of_decide_eq_true hfloor)
  obtain ⟨r, rs, howners⟩ := exists_owner h.framing hpos
  obtain ⟨hget, hglobal, hchain, hci, hstack, hbase, henv⟩ := openReturn_keeps t.st a b
  have hframe : Framing t.coroutine (t.st.openReturn a b) (t.st.openReturn a b).base t.owners := by
    refine ⟨by rw [hci, hstack]; exact h.framing.ci_lt, ?_⟩
    rw [hget, hchain, hbase]
    exact h.framing.owned
  have hready : Ready t.coroutine (t.st.openReturn a b) t.owners (.leave (t.st.base + a)) := by simp [Ready, howners]
  obtain ⟨hinv, hlog⟩ := transferReturnValues_spec h.toHooked hframe hready howners he
  refine ⟨hinv, ?_⟩
  have hresults : (t.st.openReturn a b).slots (t.st.base + a) (t.st.openReturn a b).top = results t.st a b := by
    obtain ⟨-, -, htop⟩ := openReturn_spec t.st a b
    rw [results, slots, slots, hget, htop]
    by_cases hb : b = 0 <;> simp [hb]
  rw [hlog, crossing, active_eq hrun, howners, henv, hresults]
  congr 1
  obtain ⟨c, -, hslot, hbody, howned⟩ := (howners ▸ h.framing).below hstack hci hget
  cases hactive : t.activeHook with
  | none => cases t.st.gc.envOf r <;> simp [handed, hactive]
  | some hook =>
    dsimp only
    cases hsource : t.st.gc.envOf r with
    | none => rfl
    | some source =>
      rw [Option.map_some, Option.getD_some, handed, hactive]
      dsimp only
      split_ifs with hfirst
      · -- the function of a coroutine is in slot 0
        obtain ⟨hco, rfl⟩ := hfirst
        have hsame : (t.st.openReturn a b).nearestLuaEnvironment ((t.st.openReturn a b).ci - 1) = source := by
          refine nearestLuaEnvironment_base howned ?_
          rw [hget, ← hbody hco rfl, hslot]
          exact (congrFun henv r).trans hsource
        rw [hsame]
        simp [crosses]
      · by_cases hempty : results t.st a b = []
        · simp [crosses, hempty]
        · have hnear : (t.st.openReturn a b).nearestLuaEnvironment ((t.st.openReturn a b).ci - 1) =
              nearestActive (t.st.openReturn a b) rs := by
            refine findSome_nearest howned ?_
            have hone : ¬ (t.coroutine ∧ t.active.length = 1) := by
              rw [active_eq hrun, howners]
              simpa using hfirst
            refine (hquiet (by simp [hactive]) hempty hone).imp ?_ ?_
            · rw [active_eq hrun, howners]
              rintro ⟨r', hr', hsome⟩
              exact ⟨r', hr', (congrFun henv r').symm ▸ hsome⟩
            · rw [hget]
              intro hquiet₀ env henv₀
              rw [hglobal]
              refine hquiet₀ env ?_
              rw [luaFunctionEnvironment, ← henv]
              exact henv₀
          rw [hnear, nearestActive, nearestActive, henv, hglobal]

/-- A native function hands nothing over. -/
theorem TransferInv.retRust {n : ℕ} (h : TransferInv t) (hq : t.Quiet (.retRust n))
    (he : t.step (.retRust n) = some t') :
    TransferInv t' ∧ t'.log = t.log := by
  have hrun : t.running = t.st.ci := hq
  simp only [Transfers.step] at he
  split_ifs at he with hmay
  obtain ⟨hfloor, hlua⟩ := Bool.and_eq_true_iff.mp hmay
  have hpos : 0 < t.st.ci := hrun ▸ Nat.zero_lt_of_lt (of_decide_eq_true hfloor)
  obtain ⟨r, rs, howners⟩ := exists_owner h.framing hpos
  have hready : Ready t.coroutine t.st t.owners (.leave (t.st.top - n)) := by simp [Ready, howners]
  obtain ⟨hinv, hlog⟩ := transferReturnValues_spec h.toHooked h.framing hready howners he
  refine ⟨hinv, ?_⟩
  have hnone : t.st.gc.envOf r = none := by
    rw [inLua, active_eq hrun, howners] at hlua
    simpa using hlua
  rw [hlog, hnone]
  simp

/-! ### Runs -/

theorem TransferInv.setState {st : LuaState} (h : TransferInv t) (hframe : Framing t.coroutine st st.base t.owners) :
    TransferInv { t with st } := ⟨⟨h.one, h.installed, h.converts⟩, hframe⟩

theorem TransferInv.hookReturns {ok : Bool} (h : TransferInv t) (he : t.step (.hookReturns ok) = some t') :
    TransferInv t' ∧ t'.log = t.log := by
  have hone := h.one
  have hconv := h.converts
  simp only [Transfers.step] at he
  cases hps : t.converting with
  | nil =>
    rw [hps] at he
    cases he
  | cons p ps =>
    rw [hps] at he hone hconv
    dsimp only at he
    obtain rfl : ps = [] := List.length_eq_zero_iff.mp (Nat.le_zero.mp (Nat.le_of_succ_le_succ hone))
    obtain ⟨hchosen, hwaits⟩ := hconv p List.mem_cons_self
    have hhooked : Hooked { t with environmentTransferHook := some p.hook, converting := [] } :=
      ⟨Nat.zero_le _, by simp [activeHook, hchosen], by simp⟩
    split_ifs at he with hok hkept
    · have hframe : Framing t.coroutine t.st t.st.base t.owners := h.framing
      obtain ⟨hinv, hlog⟩ := TransferInv.finish hhooked hframe (hwaits.ready hframe hkept) he
      exact ⟨hinv, hlog⟩
    · cases he
      exact ⟨⟨⟨hhooked.one, hhooked.installed, hhooked.converts⟩, h.framing⟩, rfl⟩

theorem TransferInv.step {op : TransferOp H} (h : TransferInv t) (hq : t.Quiet op) (he : t.step op = some t') :
    TransferInv t' ∧ t'.log = t.log ++ t.crossing op := by
  have hf := h.framing
  cases op with
  | write i v =>
    cases he
    have hframe : Framing t.coroutine (t.st.stackSet (t.st.base + i) v) t.st.base t.owners := by
      refine hf.of_onlyStack hf.above ⟨_, _, _, rfl⟩ fun j hj => ?_
      rw [stackGet_stackSet, Function.update_of_ne (by omega)]
    exact ⟨h.setState hframe, (List.append_nil _).symm⟩
  | writeSlot i v =>
    cases he
    have hframe : Framing t.coroutine (t.st.stackSet i v) t.st.base t.owners := by
      refine ⟨hf.ci_lt, ?_⟩
      rw [stackGet_stackSet]
      exact hf.owned.update hq.2
    exact ⟨h.setState hframe, (List.append_nil _).symm⟩
  | setTop n =>
    cases he
    exact ⟨h.setState ⟨hf.ci_lt, hf.owned⟩, (List.append_nil _).symm⟩
  | heap g =>
    cases he
    exact ⟨h.setState ⟨hf.ci_lt, hf.owned⟩, (List.append_nil _).symm⟩
  | setGlobal env =>
    cases he
    exact ⟨h.setState ⟨hf.ci_lt, hf.owned⟩, (List.append_nil _).symm⟩
  | call route => exact h.callRoute hq he
  | ret a b => exact h.ret hq he
  | retRust n =>
    obtain ⟨hinv, hlog⟩ := h.retRust hq he
    exact ⟨hinv, hlog.trans (List.append_nil _).symm⟩
  | unwind j top =>
    simp only [Transfers.step] at he
    split_ifs at he with hj
    cases he
    exact ⟨⟨⟨h.one, h.installed, h.converts⟩, hf.unwind hj.2⟩, (List.append_nil _).symm⟩
  | swallow j =>
    simp only [Transfers.step] at he
    split_ifs at he
    cases he
    exact ⟨⟨⟨h.one, h.installed, h.converts⟩, hf⟩, (List.append_nil _).symm⟩
  | setHook hook =>
    simp only [Transfers.step] at he
    split_ifs at he with hnil
    cases he
    refine ⟨⟨⟨h.one, by simp [activeHook, hnil], ?_⟩, hf⟩, (List.append_nil _).symm⟩
    simp [List.isEmpty_iff.mp hnil]
  | hookReturns ok =>
    obtain ⟨hinv, hlog⟩ := h.hookReturns he
    exact ⟨hinv, hlog.trans (List.append_nil _).symm⟩

theorem transferInv_start (hci : s.ci = 0) (hstack : s.callStack = [CallInfo.initial]) (hook : Option H) (co : Bool) :
    TransferInv (.start s hook co) := by
  refine ⟨⟨Nat.zero_le _, rfl, by simp [Transfers.start]⟩, ?_, ?_⟩
  · simp [Transfers.start, hci, hstack]
  · have hchain : s.chain = [CallInfo.initial] := by simp [chain, hci, hstack]
    change Owned co s.stackGet s.base s.chain []
    rw [hchain]
    exact .base rfl

/-- In a run in which slot 0 has no environment of its own where it is asked for one, the runs of the hook are, in
    order, what crosses in the calls of Lua functions and the returns from them. The hook does not run within itself,
    and when it does not run it is installed. -/
theorem run_transfers {hook : Option H} {ops : List (TransferOp H)} (hci : s.ci = 0)
    (hstack : s.callStack = [CallInfo.initial]) (hrun : Run Transfers.step Transfers.Quiet (.start s hook co) ops t) :
    t.log = emitted Transfers.step Transfers.crossing (.start s hook co) ops ∧ t.converting.length ≤ 1 ∧
      t.environmentTransferHook = if t.converting = [] then t.chosen else none := by
  have hstart := transferInv_start hci hstack hook co
  have hinv : TransferInv t := hrun.invariant TransferInv (fun _ _ _ h hq he => (h.step hq he).1) hstart
  refine ⟨?_, hinv.one, ?_⟩
  · exact (hrun.log_eq TransferInv Transfers.log Transfers.crossing (fun _ _ _ h hq he => h.step hq he) hstart).trans
      (List.nil_append _)
  · rw [hinv.installed, activeHook]
    simp only [List.isEmpty_iff]

/-- The heap with one more Lua function, whose environment is another table. -/
def twoLoaded.private : Gc :=
  ((twoLoaded.gc.allocClosure (.lua ⟨{}, [], ⟨1, 0⟩⟩)).map Prod.fst).getD twoLoaded.gc

/-- The host calls a function with an environment of its own, which returns its argument. -/
def calledByHost : List (TransferOp Unit) :=
  [.heap twoLoaded.private, .call (.hostCall (.function ⟨2, 0⟩) [.bool true]), .hookReturns true,
    .write 0 (.bool false), .ret 0 2]

theorem run_transfers_hostCall : ∃ t, Run Transfers.step Transfers.Quiet
    (.start twoLoaded (some ()) false) calledByHost t ∧
    t.log = [⟨(), ⟨0, 0⟩, ⟨1, 0⟩, 2, [.bool true]⟩, ⟨(), ⟨1, 0⟩, ⟨0, 0⟩, 2, [.bool false]⟩] := by
  have hrun : Run Transfers.step Transfers.Quiet (.start twoLoaded (some ()) false) calledByHost _ :=
    .cons trivial rfl (.cons ⟨rfl, by simp, fun _ _ _ _ _ _ _ => .inr (by rintro env ⟨⟩)⟩ rfl (.cons trivial rfl
      (.cons rfl rfl (.single ⟨rfl, fun _ _ _ => .inr (by rintro env ⟨⟩)⟩ rfl))))
  exact ⟨_, hrun, (run_transfers rfl rfl hrun).1.trans rfl⟩

/-- The host runs a chunk that returns nothing, and then calls a function with an environment of its own. The function
    is in slot 0, and the hook does not run. -/
theorem not_run_transfers : ¬ ∀ (s : LuaState) (hook : Option Unit) (co : Bool) (ops : List (TransferOp Unit))
    (t : Transfers Unit), s.Idle → Run Transfers.step (fun _ _ => True) (.start s hook co) ops t →
      t.log = emitted Transfers.step Transfers.crossing (.start s hook co) ops := by
  intro hall
  have hrun : Run Transfers.step (fun _ _ => True) (.start twoLoaded (some ()) false)
      [.call (.exec ⟨0, 0⟩), .heap twoLoaded.private, .ret 0 1, .call (.hostCall (.function ⟨2, 0⟩) [.bool true])] _ :=
    .cons trivial rfl (.cons trivial rfl (.cons trivial rfl (.single trivial rfl)))
  exact absurd (hall twoLoaded _ _ _ _ idle_twoLoaded hrun) (by decide)

end Rilua.Vm
