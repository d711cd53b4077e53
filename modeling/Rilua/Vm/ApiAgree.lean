import Rilua.Vm.ApiOps

/-! Where the API compares and concatenates like the opcodes: `api_lessthan` is `LT`, `api_equal` is `EQ` but for a
    shared `__eq` that is NaN, and `api_concat` is `CONCAT` but for strings that are too long. -/

namespace Rilua.Vm

open Lib Gc

/-- Both are stuck, or both end in the same state, with the same value or with an error each. -/
def Agree {σ α : Type} (x y : Act σ Unit LuaError α) (s : σ) : Prop :=
  (x s).map (fun res => (res.1, res.2.2.toOption)) = (y s).map fun res => (res.1, res.2.2.toOption)

namespace Agree

variable {σ α β : Type} {x y z : Act σ Unit LuaError α} {s s₁ s₂ : σ} {w w₁ w₂ : List Unit}

theorem refl (x : Act σ Unit LuaError α) (s : σ) : Agree x x s := rfl

theorem symm (h : Agree x y s) : Agree y x s := Eq.symm h

theorem trans (h : Agree x y s) (h' : Agree y z s) : Agree x z s := Eq.trans h h'

theorem of_eq (h : x s = y s) : Agree x y s := by rw [Agree, h]

theorem congr {x' y' : Act σ Unit LuaError α} (hx : Agree x x' s) (hy : Agree y y' s) : Agree x y s ↔ Agree x' y' s :=
  ⟨fun h => hx.symm.trans (h.trans hy), fun h => hx.trans (h.trans hy.symm)⟩

theorem fail (e e' : LuaError) : Agree (Act.fail e : Act σ Unit LuaError α) (Act.fail e') s := rfl

/-- What follows the same computation. -/
theorem bind_of (x : Act σ Unit LuaError α) {f g : α → Act σ Unit LuaError β}
    (h : ∀ s₁ w a, x s = some (s₁, w, .ok a) → Agree (f a) (g a) s₁) : Agree (x >>= f) (x >>= g) s := by
  change Option.map _ (Act.andThen x f s) = Option.map _ (Act.andThen x g s)
  rw [Act.andThen, Act.andThen]
  split
  · rfl
  · rfl
  · next s₁ w a hx =>
    have hfg := h s₁ w a hx
    rw [Agree] at hfg
    rw [Option.map_map, Option.map_map]
    exact hfg

theorem bind (x : Act σ Unit LuaError α) {f g : α → Act σ Unit LuaError β} (h : ∀ a s, Agree (f a) (g a) s) :
    Agree (x >>= f) (x >>= g) s := bind_of x fun s₁ _ a _ => h a s₁

end Agree

/-! ### Comparison -/

namespace OrderM

variable {σ : Type} {host : OrderHost σ} {s : SecretTables × σ} {a b : Val}

theorem callOrderTmApi_eq (lhs rhs : Val) (event : TMS) :
    callOrderTmApi host lhs rhs event = callOrderTm host lhs rhs event := by
  funext st
  rw [callOrderTmApi, callOrderTm, Act.get_bind, Act.get_bind]
  cases st.1.gc.gettmbyobj lhs event with
  | none => rfl
  | some lhsTm =>
    dsimp only
    by_cases heq : valRawEqual st.1.gc.heap.strings lhsTm ((st.1.gc.gettmbyobj rhs event).getD .nil) = true
    · rw [if_neg (not_not.mpr heq), if_pos heq]
    · rw [if_pos heq, if_neg heq]

/-- `api_lessthan` on operands that are not wrapped. -/
def apiLessthanChecked (host : OrderHost σ) (a b : Val) : OrderM σ Bool := do
  let st ← Act.get
  match a, b with
  | .num x, .num y => pure (x.lt y)
  | .str x, .str y =>
    match st.1.gc.heap.strings.get x, st.1.gc.heap.strings.get y with
    | some sx, some sy => do
      let o ← Act.ofOption (lStrcmp host.strcoll (LuaString.data sx) (LuaString.data sy))
      pure (o == .lt)
    | _, _ => Act.fail (apiCompareError a b)
  | _, _ =>
    if typeTag a ≠ typeTag b then Act.fail (apiCompareError a b)
    else
      match ← callOrderTmApi host a b .lt with
      | some result => pure result
      | none => Act.fail (apiCompareError a b)

theorem apiLessthan_eq (a b : Val) : apiLessthan host a b = (do
    let a ← checkedOrderOperand host a
    let b ← checkedOrderOperand host b
    apiLessthanChecked host a b) := rfl

section Mixed

variable (hnum : ∀ x y, a = .num x → b = .num y → False) (hstr : ∀ x y, a = .str x → b = .str y → False)
include hnum hstr

/-- Operands that are neither two numbers nor two strings. -/
theorem apiLessthanChecked_mixed : apiLessthanChecked host a b = (do
    if typeTag a ≠ typeTag b then Act.fail (apiCompareError a b)
    else
      match ← callOrderTmApi host a b .lt with
      | some result => pure result
      | none => Act.fail (apiCompareError a b)) := by
  funext st
  rw [apiLessthanChecked, Act.get_bind]
  split
  · exact (hnum _ _ rfl rfl).elim
  · exact (hstr _ _ rfl rfl).elim
  · rfl

theorem lessThanChecked_mixed : lessThanChecked host a b = (do
    if typeTag a ≠ typeTag b then Act.fail (SecretTables.compareError a b)
    else
      match ← callOrderTm host a b .lt with
      | some result => pure result
      | none => Act.fail (SecretTables.compareError a b)) := by
  funext st
  rw [lessThanChecked, Act.get_bind]
  split
  · exact (hnum _ _ rfl rfl).elim
  · exact (hstr _ _ rfl rfl).elim
  · rfl

end Mixed

theorem agree_apiLessthanChecked (a b : Val) (s : SecretTables × σ) :
    Agree (apiLessthanChecked host a b) (lessThanChecked host a b) s := by
  by_cases hnum : ∃ x y, a = .num x ∧ b = .num y
  · obtain ⟨x, y, rfl, rfl⟩ := hnum
    exact .refl _ _
  · by_cases hstr : ∃ x y, a = .str x ∧ b = .str y
    · obtain ⟨x, y, rfl, rfl⟩ := hstr
      rw [apiLessthanChecked, lessThanChecked]
      refine .bind _ fun st s => ?_
      dsimp only
      cases st.1.gc.heap.strings.get x with
      | none => exact .fail _ _
      | some sx =>
        cases st.1.gc.heap.strings.get y with
        | none => exact .fail _ _
        | some sy => exact .refl _ _
    · have hnum' : ∀ x y, a = .num x → b = .num y → False := fun x y hx hy => hnum ⟨x, y, hx, hy⟩
      have hstr' : ∀ x y, a = .str x → b = .str y → False := fun x y hx hy => hstr ⟨x, y, hx, hy⟩
      rw [apiLessthanChecked_mixed hnum' hstr', lessThanChecked_mixed hnum' hstr', callOrderTmApi_eq]
      by_cases htag : typeTag a ≠ typeTag b
      · rw [if_pos htag, if_pos htag]
        exact .fail _ _
      · rw [if_neg htag, if_neg htag]
        refine .bind _ fun result s => ?_
        cases result with
        | none => exact .fail _ _
        | some result => exact .refl _ _

/-- `api_lessthan` is the operator `<`. -/
theorem agree_apiLessthan (a b : Val) (s : SecretTables × σ) :
    Agree (apiLessthan host a b) (valLessThan host a b) s := by
  rw [apiLessthan_eq, valLessThan]
  exact .bind _ fun a s => .bind _ fun b s => agree_apiLessthanChecked a b s

/-! ### Equality -/

/-- The cache of absent metamethods is empty. -/
def Uncached (g : Gc) : Prop := ∀ (r : GcRef .table) t, g.heap.get r = some t → Table.flags t = 0

theorem fasttm_eq {g : Gc} (h : Uncached g) (mt : GcRef .table) (event : TMS) :
    g.fasttm mt event = (do
      let name ← g.tmNames[event.ctorIdx]?.join
      let t ← g.heap.get mt
      let result ← Table.getStr t name g.heap.strings
      if result.isNil then none else some result) := by
  rw [Gc.fasttm]
  cases hget : g.heap.get mt with
  | none => cases g.tmNames[event.ctorIdx]?.join <;> rfl
  | some t =>
    rw [Option.bind_eq_bind, Option.bind_some, h mt t hget, if_neg (by simp)]
    rfl

theorem gettmbyobj_eq {g : Gc} (h : Uncached g) (v : Val) (event : TMS) :
    g.gettmbyobj v event = (g.metatableOf v).bind (g.fasttm · event) := by
  rw [Gc.gettmbyobj]
  cases hmeta : g.metatableOf v with
  | none => cases g.tmNames[event.ctorIdx]?.join <;> rfl
  | some mt =>
    rw [Option.bind_some, fasttm_eq h]
    rfl

theorem fasttm_ne_nil {g : Gc} {mt : GcRef .table} {event : TMS} {tm : Val} (h : g.fasttm mt event = some tm) :
    tm ≠ .nil := by
  rw [Gc.fasttm, Option.bind_eq_bind, Option.bind_eq_some_iff] at h
  obtain ⟨t, -, h⟩ := h
  dsimp only at h
  split at h
  · cases h
  · simp only [bind, Option.bind_eq_some_iff] at h
    obtain ⟨_, -, v, -, h⟩ := h
    split at h
    · cases h
    · next hnil =>
      cases h
      rintro rfl
      exact hnil rfl

theorem valRawEqual_self (strings : StringArena) (v : Val) : valRawEqual strings v v = !v.isNaN := by
  cases v with
  | num n =>
    change n.beq n = !n.isNaN
    cases hnan : n.isNaN with
    | true =>
      refine Bool.eq_false_iff.mpr fun heq => ?_
      rw [F64.isNaN_of_beq heq] at hnan
      cases hnan
    | false => exact F64.beq_refl hnan
  | _ => simp [valRawEqual, Val.rawEq, Val.isNaN]

/-- The `__eq` that `api_equal` calls. -/
def apiEqTm (g : Gc) (a b : Val) : Option Val :=
  match a with
  | .table _ | .userdata _ => (g.gettmbyobj a .eq).filter fun tm =>
      valRawEqual g.heap.strings tm ((g.gettmbyobj b .eq).getD .nil)
  | _ => none

/-- Two tables, or two userdata, share a metatable with NaN as `__eq`. -/
def SharesNaN (g : Gc) (a b tm : Val) : Prop :=
  (typeTag a = 7 ∨ typeTag a = 5) ∧ typeTag a = typeTag b ∧
    ∃ mt, g.metatableOf a = some mt ∧ g.metatableOf b = some mt ∧ g.fasttm mt .eq = some tm ∧ tm.isNaN = true

/-- The `__eq` of two metatables, found by `get_comp_tm` and by two lookups. -/
theorem getCompTm_cases (g : Gc) (mt1 mt2 : Option (GcRef .table)) :
    g.getCompTm mt1 mt2 .eq = (mt1.bind (g.fasttm · .eq)).filter (fun tm =>
        valRawEqual g.heap.strings tm ((mt2.bind (g.fasttm · .eq)).getD .nil)) ∨
      ∃ mt tm, mt1 = some mt ∧ mt2 = some mt ∧ g.fasttm mt .eq = some tm ∧ tm.isNaN = true := by
  cases mt1 with
  | none => exact .inl rfl
  | some mt =>
    rw [Gc.getCompTm, Option.bind_eq_bind, Option.bind_some, Option.bind_some]
    cases htm : g.fasttm mt .eq with
    | none => exact .inl rfl
    | some tm =>
      have hnil : valRawEqual g.heap.strings tm .nil = false := valRawEqual_nil (fasttm_ne_nil htm)
      by_cases hsame : mt2 = some mt
      · subst hsame
        by_cases hnan : tm.isNaN = true
        · exact .inr ⟨mt, tm, rfl, rfl, htm, hnan⟩
        · have hself := valRawEqual_self g.heap.strings tm
          rw [Bool.not_eq_true] at hnan
          rw [hnan] at hself
          refine .inl ?_
          simp [htm, hself, Option.filter]
      · refine .inl ?_
        cases mt2 with
        | none => simp [Option.filter, hnil]
        | some mt' =>
          have hne : mt' ≠ mt := fun h => hsame (congrArg some h)
          cases htm' : g.fasttm mt' .eq with
          | none => simp [Option.filter, hnil, hne, htm']
          | some tm' => simp [Option.filter, hne, htm']

/-- Neither a wrapped boolean nor a wrapped nil. -/
def PlainOperand (s : SecretTables) (v : Val) : Prop := s.secretBool v = none ∧ s.payload v ≠ some .nil

theorem checkedSecretBool_none {v : Val} (h : s.1.secretBool v = none) :
    checkedSecretBool host v s = some (s, [], .ok none) := by
  rw [checkedSecretBool, Act.get_bind, h]
  rfl

theorem checkedSecretBool_some {v : Val} {x : Bool} (h : s.1.secretBool v = some x) :
    checkedSecretBool host v s = some (s, [], .ok (some x)) ∨
      ∃ e, checkedSecretBool host v s = some (s, [], .error e) := by
  rw [checkedSecretBool, Act.get_bind, h]
  dsimp only
  split
  · exact .inl rfl
  · exact .inr ⟨_, rfl⟩

theorem checkedSecretNil_plain {v : Val} (h : s.1.payload v ≠ some .nil) :
    checkedSecretNil host v s = some (s, [], .ok false) := by
  rw [checkedSecretNil, Act.get_bind]
  cases hp : s.1.payload v with
  | none => rfl
  | some p =>
    cases p with
    | nil => exact absurd hp h
    | _ => rfl

theorem checkedSecretNil_nil {v : Val} (h : s.1.payload v = some .nil) :
    checkedSecretNil host v s = some (s, [], .ok true) ∨ ∃ e, checkedSecretNil host v s = some (s, [], .error e) := by
  rw [checkedSecretNil, Act.get_bind, h]
  dsimp only
  split
  · exact .inl rfl
  · exact .inr ⟨_, rfl⟩

theorem checkedSecretEquality_plain (ha : PlainOperand s.1 a) (hb : PlainOperand s.1 b) :
    checkedSecretEquality host a b s = some (s, [], .ok none) := by
  rw [checkedSecretEquality, Act.bind_of_ok (checkedSecretBool_none ha.1), Act.bind_of_ok (checkedSecretBool_none hb.1),
    if_pos ⟨rfl, rfl⟩, Act.bind_of_ok (checkedSecretNil_plain ha.2), Act.bind_of_ok (checkedSecretNil_plain hb.2)]
  rfl

/-- Only where both operands are plain, the comparison is left to the rest. -/
theorem checkedSecretEquality_none {s' : SecretTables × σ} {w : List Unit}
    (h : checkedSecretEquality host a b s = some (s', w, .ok none)) :
    s' = s ∧ PlainOperand s.1 a ∧ PlainOperand s.1 b := by
  rw [checkedSecretEquality] at h
  have hsome : ∀ {la rb : Option Bool}, ¬ (la.isNone ∧ rb.isNone) →
      (if la.isNone ∧ rb.isNone then do
        let leftNil ← checkedSecretNil host a
        let rightNil ← checkedSecretNil host b
        if ¬ leftNil ∧ ¬ rightNil then pure none
        else pure (some ((leftNil || a.isNil) && (rightNil || b.isNil)))
      else do
        let left := la.or (boolOf a)
        let right := rb.or (boolOf b)
        pure (some (left.isSome && left == right)) : OrderM σ (Option Bool)) s ≠ some (s', w, .ok none) := by
    intro la rb hne h
    rw [if_neg hne] at h
    cases h
  cases ha : s.1.secretBool a with
  | some x =>
    obtain hx | ⟨e, hx⟩ := checkedSecretBool_some ha
    · rw [Act.bind_of_ok hx] at h
      cases hb : s.1.secretBool b with
      | some y =>
        obtain hy | ⟨e, hy⟩ := checkedSecretBool_some hb
        · rw [Act.bind_of_ok hy] at h
          exact absurd h (hsome (by simp))
        · rw [Act.bind_of_error hy] at h
          cases h
      | none =>
        rw [Act.bind_of_ok (checkedSecretBool_none hb)] at h
        exact absurd h (hsome (by simp))
    · rw [Act.bind_of_error hx] at h
      cases h
  | none =>
    rw [Act.bind_of_ok (checkedSecretBool_none ha)] at h
    cases hb : s.1.secretBool b with
    | some y =>
      obtain hy | ⟨e, hy⟩ := checkedSecretBool_some hb
      · rw [Act.bind_of_ok hy] at h
        exact absurd h (hsome (by simp))
      · rw [Act.bind_of_error hy] at h
        cases h
    | none =>
      rw [Act.bind_of_ok (checkedSecretBool_none hb), if_pos ⟨rfl, rfl⟩] at h
      by_cases hpa : s.1.payload a = some .nil
      · obtain hx | ⟨e, hx⟩ := checkedSecretNil_nil hpa
        · rw [Act.bind_of_ok hx] at h
          by_cases hpb : s.1.payload b = some .nil
          · obtain hy | ⟨e, hy⟩ := checkedSecretNil_nil hpb
            · rw [Act.bind_of_ok hy] at h
              cases h
            · rw [Act.bind_of_error hy] at h
              cases h
          · rw [Act.bind_of_ok (checkedSecretNil_plain hpb)] at h
            cases h
        · rw [Act.bind_of_error hx] at h
          cases h
      · rw [Act.bind_of_ok (checkedSecretNil_plain hpa)] at h
        by_cases hpb : s.1.payload b = some .nil
        · obtain hy | ⟨e, hy⟩ := checkedSecretNil_nil hpb
          · rw [Act.bind_of_ok hy] at h
            cases h
          · rw [Act.bind_of_error hy] at h
            cases h
        · rw [Act.bind_of_ok (checkedSecretNil_plain hpb)] at h
          cases h
          exact ⟨rfl, ⟨ha, hpa⟩, hb, hpb⟩

theorem getCompTm_same {g : Gc} {mt : GcRef .table} {tm : Val} (h : g.fasttm mt .eq = some tm) :
    g.getCompTm (some mt) (some mt) .eq = some tm := by
  rw [Gc.getCompTm, Option.bind_eq_bind, Option.bind_some, h, Option.bind_eq_bind, Option.bind_some, if_pos rfl]

/-- What is looked up for two tables or two userdata. -/
theorem eqTm_of_kind {g : Gc} (hcache : Uncached g) (hkind : typeTag a = 7 ∨ typeTag a = 5)
    (htag : typeTag a = typeTag b) :
    eqTm g a b = g.getCompTm (g.metatableOf a) (g.metatableOf b) .eq ∧
      apiEqTm g a b = ((g.metatableOf a).bind (g.fasttm · .eq)).filter fun tm =>
        valRawEqual g.heap.strings tm (((g.metatableOf b).bind (g.fasttm · .eq)).getD .nil) := by
  rw [← gettmbyobj_eq hcache, ← gettmbyobj_eq hcache]
  cases a with
  | table r =>
    cases b with
    | table r' => exact ⟨rfl, rfl⟩
    | _ => cases htag
  | userdata r =>
    cases b with
    | userdata r' => exact ⟨rfl, rfl⟩
    | _ => cases htag
  | _ => rcases hkind with h | h <;> cases h

theorem SharesNaN.tms {g : Gc} {tm : Val} (hcache : Uncached g) (h : SharesNaN g a b tm) :
    eqTm g a b = some tm ∧ apiEqTm g a b = none := by
  obtain ⟨hkind, htag, mt, ha, hb, htm, hnan⟩ := h
  obtain ⟨heq, hapi⟩ := eqTm_of_kind hcache hkind htag
  rw [ha, hb] at heq hapi
  refine ⟨heq.trans (getCompTm_same htm), hapi.trans ?_⟩
  rw [Option.bind_some, htm, Option.getD_some, Option.filter_some, if_neg]
  rw [valRawEqual_self, hnan]
  exact Bool.false_ne_true

/-- The two lookups differ only where a shared `__eq` is NaN. -/
theorem eqTm_cases {g : Gc} (hcache : Uncached g) (htag : typeTag a = typeTag b) :
    eqTm g a b = apiEqTm g a b ∨ ∃ tm, SharesNaN g a b tm := by
  by_cases hkind : typeTag a = 7 ∨ typeTag a = 5
  · obtain ⟨heq, hapi⟩ := eqTm_of_kind hcache hkind htag
    rw [heq, hapi]
    rcases getCompTm_cases g (g.metatableOf a) (g.metatableOf b) with h | ⟨mt, tm, ha, hb, htm, hnan⟩
    · exact .inl h
    · exact .inr ⟨tm, hkind, htag, mt, ha, hb, htm, hnan⟩
  · cases a with
    | table r => exact absurd (.inl rfl) hkind
    | userdata r => exact absurd (.inr rfl) hkind
    | _ => exact .inl rfl

/-- What `api_equal` comes to for plain operands of one type that are not raw equal. -/
theorem apiEqual_eq (ha : PlainOperand s.1 a) (hb : PlainOperand s.1 b)
    (hraw : valRawEqual s.1.gc.heap.strings a b = false) (htag : typeTag a = typeTag b) :
    apiEqual host a b s = ((apiEqTm s.1.gc a b).elim (pure false) (callForBool host · a b) : OrderM σ Bool) s := by
  rw [apiEqual, Act.bind_of_ok (checkedSecretEquality_plain ha hb)]
  dsimp only
  rw [Act.get_bind, if_neg (by rw [hraw]; exact Bool.false_ne_true), if_neg (not_not.mpr htag)]
  have hfound : ∀ tm : Val, (if valRawEqual s.1.gc.heap.strings tm ((s.1.gc.gettmbyobj b .eq).getD .nil) then
        callForBool host tm a b else pure false : OrderM σ Bool) =
      ((some tm).filter fun tm => valRawEqual s.1.gc.heap.strings tm ((s.1.gc.gettmbyobj b .eq).getD .nil)).elim
        (pure false) (callForBool host · a b) := by
    intro tm
    rw [Option.filter_some]
    split
    · rfl
    · rfl
  cases a with
  | table r =>
    rw [apiEqTm]
    dsimp only
    cases s.1.gc.gettmbyobj (.table r) .eq with
    | none => rfl
    | some tm => exact congrFun (hfound tm) s
  | userdata r =>
    rw [apiEqTm]
    dsimp only
    cases s.1.gc.gettmbyobj (.userdata r) .eq with
    | none => rfl
    | some tm => exact congrFun (hfound tm) s
  | _ => rfl

theorem opEq_eq (ha : PlainOperand s.1 a) (hb : PlainOperand s.1 b)
    (hraw : valRawEqual s.1.gc.heap.strings a b = false) (htag : typeTag a = typeTag b) :
    opEq host a b s = ((eqTm s.1.gc a b).elim (pure false) (callForBool host · a b) : OrderM σ Bool) s := by
  rw [opEq, Act.bind_of_ok (checkedSecretEquality_plain ha hb)]
  dsimp only
  rw [Act.get_bind, if_neg (by rw [hraw]; exact Bool.false_ne_true), if_neg (not_not.mpr htag)]
  cases eqTm s.1.gc a b <;> rfl

/-- `api_equal` is `EQ`, unless the operands share a metatable with NaN as `__eq`: `EQ` calls it. -/
theorem agree_apiEqual (hcache : Uncached s.1.gc) : Agree (apiEqual host a b) (opEq host a b) s ↔
    ∀ tm, PlainOperand s.1 a → PlainOperand s.1 b → valRawEqual s.1.gc.heap.strings a b = false →
      SharesNaN s.1.gc a b tm → Agree (pure false) (callForBool host tm a b) s := by
  constructor
  · intro hagree tm ha hb hraw hshares
    obtain ⟨heq, hapi⟩ := hshares.tms hcache
    rw [Agree, apiEqual_eq ha hb hraw hshares.2.1, opEq_eq ha hb hraw hshares.2.1, heq, hapi] at hagree
    exact hagree
  · intro hcond
    rw [apiEqual, opEq]
    refine .bind_of _ fun s₁ w equal hequal => ?_
    cases equal with
    | some equal => exact .refl _ _
    | none =>
      obtain ⟨rfl, ha, hb⟩ := checkedSecretEquality_none hequal
      have happly : Agree (apiEqual host a b) (opEq host a b) s₁ := by
        by_cases hraw : valRawEqual s₁.1.gc.heap.strings a b = true
        · rw [apiEqual, opEq]
          refine .of_eq ?_
          rw [Act.bind_of_ok (checkedSecretEquality_plain ha hb), Act.bind_of_ok (checkedSecretEquality_plain ha hb)]
          dsimp only
          rw [Act.get_bind, Act.get_bind, if_pos hraw, if_pos hraw]
        · by_cases htag : typeTag a = typeTag b
          · rw [Bool.not_eq_true] at hraw
            rw [Agree, apiEqual_eq ha hb hraw htag, opEq_eq ha hb hraw htag]
            rcases eqTm_cases hcache htag with heq | ⟨tm, hshares⟩
            · rw [heq]
            · obtain ⟨heq, hapi⟩ := hshares.tms hcache
              rw [heq, hapi]
              exact hcond tm ha hb hraw hshares
          · rw [apiEqual, opEq]
            refine .of_eq ?_
            rw [Act.bind_of_ok (checkedSecretEquality_plain ha hb), Act.bind_of_ok (checkedSecretEquality_plain ha hb)]
            dsimp only
            rw [Act.get_bind, Act.get_bind, if_neg hraw, if_neg hraw, if_pos htag, if_pos htag]
      rwa [Agree, apiEqual, opEq, Act.bind_of_ok (checkedSecretEquality_plain ha hb),
        Act.bind_of_ok (checkedSecretEquality_plain ha hb)] at happly

end OrderM

/-! ### Concatenation -/

section Concatenation

variable {W E : Type} {host : ConcatHost W E} {b : ℕ}

/-- Both end in the same state, with the same value or with an error each. -/
def SameResult {ε ε' τ α : Type} : EStateM.Result ε τ α → EStateM.Result ε' τ α → Prop
  | .ok x s, .ok y t => x = y ∧ s = t
  | .error _ s, .error _ t => s = t
  | _, _ => False

/-- What is left to concatenate: how many values, the stack, and the state. -/
structure Pending (W : Type) where
  total : ℕ
  stack : ℕ → LuaVal
  state : ConcatState W

namespace Pending

/-- The values next to the end. -/
def lhs (b : ℕ) (p : Pending W) : LuaVal := p.stack (b + p.total - 2)

def rhs (b : ℕ) (p : Pending W) : LuaVal := p.stack (b + p.total - 1)

def runLen (b : ℕ) (p : Pending W) : ℕ := countConcatRun p.stack (b + p.total) p.total 2

/-- The strings and numbers at the end have been joined. -/
def joined (host : ConcatHost W E) (b : ℕ) (p : Pending W) : Pending W :=
  ⟨p.total - (p.runLen b - 1), apiConcatStringRun host p.stack (b + p.total) (p.runLen b), p.state⟩

/-- The strings and numbers at the end are too long for one string. -/
def TooLong (host : ConcatHost W E) (b : ℕ) (p : Pending W) : Prop :=
  1 < p.total ∧ needsConcatMetamethod (p.lhs b) (p.rhs b) = false ∧
    maxStringSize ≤ ((runOperands p.stack (b + p.total) (p.runLen b)).flatMap (bytesOf host.display)).length

/-- There is no `__concat` for the values at the end. -/
def Refused (host : ConcatHost W E) (b : ℕ) (p : Pending W) : Prop :=
  1 < p.total ∧ host.metamethod p.state.world (p.lhs b) = none ∧ host.metamethod p.state.world (p.rhs b) = none

/-- A step of the concatenation: a metamethod has been called, or a run of strings and numbers has been joined. -/
inductive Next (host : ConcatHost W E) (b : ℕ) (p : Pending W) : Pending W → Prop
  | metamethod {val : LuaVal} {state : ConcatState W} (htotal : 1 < p.total)
      (hneeds : needsConcatMetamethod (p.lhs b) (p.rhs b) = true)
      (hcall : apiConcatViaMetamethod host (p.lhs b) (p.rhs b) p.state = .ok val state) :
      Next host b p ⟨p.total - 1, Function.update p.stack (b + p.total - 2) val, state⟩
  | join (htotal : 1 < p.total) (hneeds : needsConcatMetamethod (p.lhs b) (p.rhs b) = false) :
      Next host b p (p.joined host b)

/-- Where a run is too long, the concatenation would fail right behind it anyway. -/
def Bounded (host : ConcatHost W E) (b : ℕ) (p : Pending W) : Prop :=
  ∀ q, Relation.ReflTransGen (Next host b) p q → q.TooLong host b → (q.joined host b).Refused host b

theorem bounded_iff (p : Pending W) : p.Bounded host b ↔
    (p.TooLong host b → (p.joined host b).Refused host b) ∧ ∀ q, Next host b p q → q.Bounded host b := by
  constructor
  · exact fun h => ⟨h p .refl, fun q hq q' hq' => h q' (.head hq hq')⟩
  · rintro ⟨hhere, hnext⟩ q hq
    rcases Relation.ReflTransGen.cases_head hq with rfl | ⟨p', hp', hq⟩
    · exact hhere
    · exact hnext p' hp' q hq

end Pending

theorem not_string_countConcatRun {stack : ℕ → LuaVal} {top total runLen : ℕ}
    (h : countConcatRun stack top total runLen < total) :
    isStringOrNumber (stack (top - countConcatRun stack top total runLen - 1)) = false := by
  fun_induction countConcatRun stack top total runLen with
  | case1 runLen _ ih => exact ih h
  | case2 runLen hstop =>
    rw [not_and, Bool.not_eq_true] at hstop
    exact hstop h

/-- The two ways of calling a metamethod. -/
theorem sameResult_metamethod (host : ConcatHost W E) (lhs rhs : LuaVal) (last : ℕ) (s : ConcatState W) :
    SameResult (apiConcatViaMetamethod host lhs rhs s) (concatViaMetamethod host lhs rhs last s) := by
  rw [apiConcatViaMetamethod, concatViaMetamethod, observe_bind, observe_bind]
  cases (host.metamethod s.world lhs).or (host.metamethod s.world rhs) with
  | none =>
    dsimp only
    split
    · rfl
    · rfl
  | some tm =>
    dsimp only
    rw [callTmTwoArgs, callTmRes]
    cases host.call tm lhs rhs s.world with
    | ok val world => exact ⟨rfl, rfl⟩
    | error e world => rfl

/-- What is left of `api_concat`, and what is left of `CONCAT`. -/
def Pending.api (host : ConcatHost W E) (b : ℕ) (p : Pending W) :=
  apiConcatLoop host b p.total p.stack p.state

def Pending.vm (host : ConcatHost W E) (b : ℕ) (p : Pending W) :=
  concatLoop host p.total (b + p.total - 1) p.stack p.state

theorem api_done {p : Pending W} (h : ¬ 1 < p.total) : p.api host b = .ok p.stack p.state := by
  rw [Pending.api, apiConcatLoop, dif_neg h]
  rfl

theorem vm_done {p : Pending W} (h : ¬ 1 < p.total) : p.vm host b = .ok p.stack p.state := by
  rw [Pending.vm, concatLoop, dif_neg h]
  rfl

theorem api_metamethod {p : Pending W} (h : 1 < p.total) (hneeds : needsConcatMetamethod (p.lhs b) (p.rhs b) = true) :
    p.api host b = (apiConcatViaMetamethod host (p.lhs b) (p.rhs b) >>= fun val =>
      apiConcatLoop host b (p.total - 1) (Function.update p.stack (b + p.total - 2) val)) p.state := by
  rw [Pending.lhs, Pending.rhs] at hneeds ⊢
  rw [Pending.api, apiConcatLoop, dif_pos h]
  dsimp only
  rw [if_pos hneeds]

theorem api_join {p : Pending W} (h : 1 < p.total) (hneeds : needsConcatMetamethod (p.lhs b) (p.rhs b) = false) :
    p.api host b = (p.joined host b).api host b := by
  rw [Pending.lhs, Pending.rhs] at hneeds
  rw [Pending.api, apiConcatLoop, dif_pos h]
  dsimp only
  rw [if_neg (Bool.eq_false_iff.mp hneeds)]
  rfl

theorem vm_metamethod {p : Pending W} (h : 1 < p.total) (hneeds : needsConcatMetamethod (p.lhs b) (p.rhs b) = true) :
    p.vm host b = (concatViaMetamethod host (p.lhs b) (p.rhs b) (b + p.total - 1) >>= fun val =>
      concatLoop host (p.total - 1) (b + p.total - 1 - 1) (Function.update p.stack (b + p.total - 2) val)) p.state := by
  have htop : b + p.total - 1 + 1 = b + p.total := by omega
  rw [Pending.lhs, Pending.rhs] at hneeds ⊢
  rw [Pending.vm, concatLoop, dif_pos h]
  dsimp only
  rw [htop, if_pos hneeds]

/-- A run has at least two values, and at most those that are left. -/
theorem runLen_bounds {p : Pending W} (h : 1 < p.total) (hneeds : needsConcatMetamethod (p.lhs b) (p.rhs b) = false) :
    2 ≤ p.runLen b ∧ p.runLen b ≤ p.total := by
  rw [needsConcatMetamethod, Bool.or_eq_false_iff, Bool.not_eq_false', Bool.not_eq_false'] at hneeds
  refine ⟨le_countConcatRun .., (isStringOrNumber_countConcatRun (fun i hi => ?_) h).1⟩
  have hcases : i = 0 ∨ i = 1 := by omega
  rcases hcases with rfl | rfl
  · exact hneeds.2
  · exact hneeds.1

theorem vm_join {p : Pending W} (h : 1 < p.total) (hneeds : needsConcatMetamethod (p.lhs b) (p.rhs b) = false) :
    p.vm host b = if maxStringSize ≤ ((runOperands p.stack (b + p.total) (p.runLen b)).flatMap
        (bytesOf host.display)).length
      then .error .overflow p.state else (p.joined host b).vm host b := by
  have htop : b + p.total - 1 + 1 = b + p.total := by omega
  obtain ⟨hge, hle⟩ := runLen_bounds h hneeds
  have hlast : b + p.total - 1 - (p.runLen b - 1) = b + (p.joined host b).total - 1 := by
    change _ = b + (p.total - (p.runLen b - 1)) - 1
    omega
  rw [Pending.lhs, Pending.rhs] at hneeds
  rw [Pending.vm, concatLoop, dif_pos h]
  dsimp only
  rw [htop, if_neg (Bool.eq_false_iff.mp hneeds)]
  change (concatStringRun host p.stack (b + p.total) (p.runLen b) >>= fun regs' =>
    concatLoop host (p.total - (p.runLen b - 1)) (b + p.total - 1 - (p.runLen b - 1)) regs') p.state = _
  rw [hlast, concatStringRun_eq]
  by_cases hlong : maxStringSize ≤ ((runOperands p.stack (b + p.total) (p.runLen b)).flatMap
      (bytesOf host.display)).length
  · rw [if_pos hlong, if_pos hlong]
    rfl
  · rw [if_neg hlong, if_neg hlong, Pending.vm, Pending.joined, apiConcatStringRun, foldl_valToStringBytes,
      List.nil_append]
    rfl

/-- The state that a computation ends in. -/
def endState {ε τ α : Type} : EStateM.Result ε τ α → τ
  | .ok _ s => s
  | .error _ s => s

theorem calls_metamethod (host : ConcatHost W E) (lhs rhs : LuaVal) (s : ConcatState W) :
    s.calls.length ≤ (endState (apiConcatViaMetamethod host lhs rhs s)).calls.length ∧
      ((host.metamethod s.world lhs).or (host.metamethod s.world rhs) ≠ none →
        s.calls.length < (endState (apiConcatViaMetamethod host lhs rhs s)).calls.length) := by
  rw [apiConcatViaMetamethod, observe_bind]
  cases (host.metamethod s.world lhs).or (host.metamethod s.world rhs) with
  | none => exact ⟨le_refl _, fun h => absurd rfl h⟩
  | some tm =>
    have hcall : s.calls.length < (endState (callTmTwoArgs host tm lhs rhs s)).calls.length := by
      rw [callTmTwoArgs]
      cases host.call tm lhs rhs s.world <;> simp [endState]
    exact ⟨hcall.le, fun _ => hcall⟩

/-- Concatenation only adds to the calls that have been made: by induction on the number of values that are left. -/
theorem calls_api (host : ConcatHost W E) (b : ℕ) (p : Pending W) :
    p.state.calls.length ≤ (endState (p.api host b)).calls.length := by
  induction hn : p.total using Nat.strong_induction_on generalizing p with
  | _ n ih =>
    subst hn
    by_cases h : 1 < p.total
    · cases hneeds : needsConcatMetamethod (p.lhs b) (p.rhs b) with
      | true =>
        have hle := (calls_metamethod host (p.lhs b) (p.rhs b) p.state).1
        rw [api_metamethod h hneeds]
        cases hcall : apiConcatViaMetamethod host (p.lhs b) (p.rhs b) p.state with
        | ok val s =>
          rw [hcall] at hle
          rw [bind_of_done hcall]
          exact hle.trans (ih _ (by dsimp only; omega)
            ⟨p.total - 1, Function.update p.stack (b + p.total - 2) val, s⟩ rfl)
        | error e s =>
          rw [hcall] at hle
          rw [bind_of_error hcall]
          exact hle
      | false =>
        obtain ⟨hge, hle⟩ := runLen_bounds h hneeds
        rw [api_join h hneeds]
        exact ih (p.joined host b).total (by change p.total - (p.runLen b - 1) < _; omega) (p.joined host b) rfl
    · rw [api_done h]
      exact le_refl _

/-- Behind a joined run, the value to the left is neither a string nor a number. -/
theorem needs_joined (host : ConcatHost W E) {p : Pending W} (h : 1 < p.total)
    (hneeds : needsConcatMetamethod (p.lhs b) (p.rhs b) = false)
    (hmore : 1 < (p.joined host b).total) :
    needsConcatMetamethod ((p.joined host b).lhs b) ((p.joined host b).rhs b) = true := by
  obtain ⟨hge, hle⟩ := runLen_bounds h hneeds
  have htotal : (p.joined host b).total = p.total - (p.runLen b - 1) := rfl
  have hlt : p.runLen b < p.total := by omega
  have hlhs : (p.joined host b).lhs b = p.stack (b + p.total - p.runLen b - 1) := by
    have hslot : b + (p.joined host b).total - 2 = b + p.total - p.runLen b - 1 := by omega
    rw [Pending.lhs, hslot]
    exact Function.update_of_ne (by omega) ..
  have hnot : isStringOrNumber (p.stack (b + p.total - p.runLen b - 1)) = false := not_string_countConcatRun hlt
  rw [needsConcatMetamethod, hlhs, hnot]
  rfl

theorem refused_iff (p : Pending W) : p.Refused host b ↔
    1 < p.total ∧ (host.metamethod p.state.world (p.lhs b)).or (host.metamethod p.state.world (p.rhs b)) = none := by
  rw [Pending.Refused, Option.or_eq_none_iff]

theorem sameResult_error_iff {ε ε' τ α : Type} {r : EStateM.Result ε τ α} {e : ε'} {s : τ} :
    SameResult r (.error e s) ↔ ∃ e', r = .error e' s := by
  cases r with
  | ok a t => exact ⟨False.elim, nofun⟩
  | error e' t =>
    refine ⟨fun h => ⟨e', ?_⟩, fun ⟨_, h⟩ => ?_⟩
    · cases h
      rfl
    · cases h
      rfl

/-- Where a metamethod is needed next, `api_concat` fails and leaves the state only if there is none. -/
theorem api_fails_iff (host : ConcatHost W E) {q : Pending W}
    (hneeds : 1 < q.total → needsConcatMetamethod (q.lhs b) (q.rhs b) = true) :
    (∃ e, q.api host b = .error e q.state) ↔ q.Refused host b := by
  rw [refused_iff]
  by_cases hmore : 1 < q.total
  · rw [and_iff_right hmore, api_metamethod hmore (hneeds hmore)]
    constructor
    · rintro ⟨e, he⟩
      by_contra hsome
      have hlt := (calls_metamethod host (q.lhs b) (q.rhs b) q.state).2 hsome
      cases hcall : apiConcatViaMetamethod host (q.lhs b) (q.rhs b) q.state with
      | ok val s =>
        rw [hcall] at hlt
        rw [bind_of_done hcall] at he
        have hle := calls_api host b ⟨q.total - 1, Function.update q.stack (b + q.total - 2) val, s⟩
        rw [Pending.api, he] at hle
        exact absurd hle (Nat.not_le.mpr hlt)
      | error e' s =>
        rw [hcall] at hlt
        rw [bind_of_error hcall] at he
        cases he
        exact absurd hlt (lt_irrefl _)
    · intro hnone
      have hfail : apiConcatViaMetamethod host (q.lhs b) (q.rhs b) q.state =
          .error (.concatenate (if isStringOrNumber (q.lhs b) then q.rhs b else q.lhs b)) q.state := by
        rw [apiConcatViaMetamethod, observe_bind, hnone]
        rfl
      exact ⟨_, bind_of_error hfail⟩
  · rw [api_done hmore]
    exact iff_of_false (fun ⟨_, he⟩ => by cases he) fun h => hmore h.1

/-- `api_concat` is `CONCAT` as long as no string is too long: by induction on the number of values that are left. -/
theorem sameResult_loop (host : ConcatHost W E) (b : ℕ) (p : Pending W) :
    SameResult (p.api host b) (p.vm host b) ↔ p.Bounded host b := by
  induction hn : p.total using Nat.strong_induction_on generalizing p with
  | _ n ih =>
    subst hn
    rw [Pending.bounded_iff]
    by_cases h : 1 < p.total
    · cases hneeds : needsConcatMetamethod (p.lhs b) (p.rhs b) with
      | true =>
        have hsame := sameResult_metamethod host (p.lhs b) (p.rhs b) (b + p.total - 1) p.state
        rw [api_metamethod h hneeds, vm_metamethod h hneeds, and_iff_right fun hlong => by
          rw [hlong.2.1] at hneeds
          cases hneeds]
        cases hvm : concatViaMetamethod host (p.lhs b) (p.rhs b) (b + p.total - 1) p.state with
        | ok val s =>
          cases hapi : apiConcatViaMetamethod host (p.lhs b) (p.rhs b) p.state with
          | ok val' s' =>
            rw [hvm, hapi] at hsame
            obtain ⟨rfl, rfl⟩ := hsame
            have hlast : b + p.total - 1 - 1 = b + (p.total - 1) - 1 := by omega
            rw [bind_of_done hvm, bind_of_done hapi, hlast]
            have hrest := ih _ (by dsimp only; omega)
              ⟨p.total - 1, Function.update p.stack (b + p.total - 2) val', s'⟩ rfl
            refine hrest.trans ⟨fun hbounded q hq => ?_, fun hq => hq _ (.metamethod h hneeds hapi)⟩
            cases hq with
            | metamethod _ _ hcall =>
              cases hapi.symm.trans hcall
              exact hbounded
            | join _ hnot =>
              rw [hneeds] at hnot
              cases hnot
          | error e s' =>
            rw [hvm, hapi] at hsame
            exact hsame.elim
        | error e s =>
          cases hapi : apiConcatViaMetamethod host (p.lhs b) (p.rhs b) p.state with
          | ok val' s' =>
            rw [hvm, hapi] at hsame
            exact hsame.elim
          | error e' s' =>
            rw [hvm, hapi] at hsame
            rw [bind_of_error hvm, bind_of_error hapi]
            refine iff_of_true hsame fun q hq => ?_
            cases hq with
            | metamethod _ _ hcall => cases hapi.symm.trans hcall
            | join _ hnot =>
              rw [hneeds] at hnot
              cases hnot
      | false =>
        obtain ⟨hge, hle⟩ := runLen_bounds h hneeds
        have hnext : ∀ q, Pending.Next host b p q ↔ q = p.joined host b := by
          refine fun q => ⟨fun hq => ?_, fun hq => hq ▸ .join h hneeds⟩
          cases hq with
          | metamethod _ hnot =>
            rw [hneeds] at hnot
            cases hnot
          | join => rfl
        simp only [hnext, forall_eq]
        rw [api_join h hneeds, vm_join h hneeds]
        have hrest := ih (p.joined host b).total (by change p.total - (p.runLen b - 1) < _; omega) (p.joined host b) rfl
        split
        · next hlong =>
          -- `CONCAT` stops here
          have hfails := api_fails_iff host (needs_joined host h hneeds)
          have hlong' : p.TooLong host b := ⟨h, hneeds, hlong⟩
          rw [sameResult_error_iff]
          refine hfails.trans ⟨fun hrefused => ⟨fun _ => hrefused, ?_⟩, fun hboth => hboth.1 hlong'⟩
          rw [Pending.bounded_iff]
          have hneeds' := needs_joined host h hneeds hrefused.1
          refine ⟨fun hlong₂ => ?_, fun q hq => ?_⟩
          · rw [hlong₂.2.1] at hneeds'
            cases hneeds'
          · cases hq with
            | metamethod _ _ hcall =>
              rw [apiConcatViaMetamethod, observe_bind, ((refused_iff _).mp hrefused).2] at hcall
              cases hcall
            | join _ hnot =>
              rw [hneeds'] at hnot
              cases hnot
        · next hshort =>
          rw [hrest, and_iff_right fun hlong => absurd hlong.2.2 hshort]
    · rw [api_done h, vm_done h]
      refine iff_of_true ⟨rfl, rfl⟩ ⟨fun hlong => absurd hlong.1 h, fun q hq => ?_⟩
      cases hq with
      | metamethod htotal => exact absurd htotal h
      | join htotal => exact absurd htotal h

/-- `api_concat` on the registers of `CONCAT`. -/
theorem sameResult_apiConcat (host : ConcatHost W E) (regs : ℕ → LuaVal) {c : ℕ} (h : b ≤ c) (s : ConcatState W) :
    SameResult (apiConcat host regs (c + 1) (c - b + 1) s) (vmConcat host regs b c s) ↔
      Pending.Bounded host b ⟨c - b + 1, regs, s⟩ := by
  have hbase : c + 1 - (c - b + 1) = b := by omega
  have hlast : b + (c - b + 1) - 1 = c := by omega
  have hapi : apiConcat host regs (c + 1) (c - b + 1) s = apiConcatLoop host b (c - b + 1) regs s := by
    rw [apiConcat, if_neg (by omega), hbase]
    split
    · next hone => rw [apiConcatLoop, dif_neg (by omega)]
    · rfl
  have hloop := sameResult_loop host b ⟨c - b + 1, regs, s⟩
  rw [Pending.api, Pending.vm, hlast] at hloop
  rw [hapi]
  exact hloop

end Concatenation

end Rilua.Vm
