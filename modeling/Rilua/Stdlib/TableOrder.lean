import Rilua.Lib.Rounding
import Rilua.Vm.SecretContents

/-! The operator `<` (`vm/execute/runtime_ops.rs`) and the default order of `table.sort` (`stdlib/table.rs`), which
    repeats it without the types, the collation and the secrets. Calls run Lua code, which may change anything: its
    state `σ` is left open. -/

namespace Rilua.Vm

open Lib Gc

/-- Computations that compare values. -/
abbrev OrderM (σ α : Type) : Type := Act (SecretTables × σ) Unit LuaError α

/-- The interpreter and the C library: whether the caller may unwrap secrets, a call for one result, and the order of
    texts without NUL in the locale. -/
structure OrderHost (σ : Type) where
  canAccessSecrets : σ → Bool
  callFunction : Val → List Val → SecretTables × σ → Option ((SecretTables × σ) × Except LuaError Val)
  strcoll : List UInt8 → List UInt8 → ℤ

def Val.isTruthy : Val → Bool
  | .nil | .bool false => false
  | _ => true

/-- Lua raw equality. Strings that are not the same one may still have the same bytes. -/
def valRawEqual (strings : StringArena) : Val → Val → Bool
  | .str x, .str y => x == y || match strings.get x, strings.get y with
    | some a, some b => LuaString.data a == LuaString.data b
    | _, _ => false
  | a, b => a.rawEq b

/-- The order of strings: their segments between NULs are collated one after the other. It is stuck where it slices
    behind the end of the right string. -/
def lStrcmp (strcoll : List UInt8 → List UInt8 → ℤ) (l r : List UInt8) : Option Ordering :=
  let lNul := (l.takeWhile (· ≠ 0)).length
  let rNul := (r.takeWhile (· ≠ 0)).length
  let temp := strcoll (l.take lNul) (r.take rNul)
  if temp ≠ 0 then some (if temp < 0 then .lt else .gt)
  else if rNul ≥ r.length then some (if lNul ≥ l.length then .eq else .gt)
  else if h : lNul ≥ l.length then some .lt
  else if lNul + 1 > r.length then none
  else lStrcmp strcoll (l.drop (lNul + 1)) (r.drop (lNul + 1))
termination_by l.length
decreasing_by
  rw [List.length_drop]
  omega

namespace SecretTables

def secretAccess : LuaError := ⟨"secret access requires an untainted caller without revoked access"⟩

/-- The payload of a wrapped boolean. -/
def secretBool (s : SecretTables) (v : Val) : Option Bool :=
  match s.payload v with
  | some (.bool b) => some b
  | _ => none

def compareError (a b : Val) : LuaError :=
  if a.typeName = b.typeName then ⟨"attempt to compare two " ++ a.typeName ++ " values"⟩
  else ⟨"attempt to compare " ++ a.typeName ++ " with " ++ b.typeName⟩

end SecretTables

namespace OrderM

variable {σ : Type} (host : OrderHost σ)

def checkedSecretBool (v : Val) : OrderM σ (Option Bool) := do
  let st ← Act.get
  match st.1.secretBool v with
  | some b => if host.canAccessSecrets st.2 then pure (some b) else Act.fail SecretTables.secretAccess
  | none => pure none

def checkedTruthiness (v : Val) : OrderM σ Bool := do
  match ← checkedSecretBool host v with
  | some b => pure b
  | none => pure v.isTruthy

/-- Wrapped booleans and numbers are compared by what is in them. -/
def checkedOrderOperand (v : Val) : OrderM σ Val := do
  match ← checkedSecretBool host v with
  | some b => pure (.bool b)
  | none =>
    let st ← Act.get
    match st.1.payload v with
    | some (.num n) => if host.canAccessSecrets st.2 then pure (.num n) else Act.fail SecretTables.secretAccess
    | _ => pure v

/-- A call of a metamethod whose result is a truth value. -/
def callForBool (tm a b : Val) : OrderM σ Bool := do
  let result ← Act.attempt (host.callFunction tm [a, b])
  checkedTruthiness host result

def callOrderTm (lhs rhs : Val) (event : TMS) : OrderM σ (Option Bool) := do
  let st ← Act.get
  match st.1.gc.gettmbyobj lhs event with
  | none => pure none
  | some tm1 =>
    let tm2 := (st.1.gc.gettmbyobj rhs event).getD .nil
    if valRawEqual st.1.gc.heap.strings tm1 tm2 then do
      let b ← callForBool host tm1 lhs rhs
      pure (some b)
    else pure none

/-- The operator `<` behind the check of its operands. -/
def lessThanChecked (a b : Val) : OrderM σ Bool := do
  let st ← Act.get
  match a, b with
  | .num x, .num y => pure (x.lt y)
  | .str x, .str y =>
    match st.1.gc.heap.strings.get x, st.1.gc.heap.strings.get y with
    | some sx, some sy => do
      let o ← Act.ofOption (lStrcmp host.strcoll (LuaString.data sx) (LuaString.data sy))
      pure (o == .lt)
    | _, _ => Act.fail (SecretTables.compareError a b)
  | _, _ =>
    if typeTag a ≠ typeTag b then Act.fail (SecretTables.compareError a b)
    else
      match ← callOrderTm host a b .lt with
      | some result => pure result
      | none => Act.fail (SecretTables.compareError a b)

/-- The operator `<`. -/
def valLessThan (a b : Val) : OrderM σ Bool := do
  let a ← checkedOrderOperand host a
  let b ← checkedOrderOperand host b
  lessThanChecked host a b

/-- The default order of `table.sort`. -/
def defaultLessThan (a b : Val) : OrderM σ Bool := do
  let st ← Act.get
  match a, b with
  | .num x, .num y => pure (x.lt y)
  | .str x, .str y =>
    let xdata := ((st.1.gc.heap.strings.get x).map LuaString.data).getD []
    let ydata := ((st.1.gc.heap.strings.get y).map LuaString.data).getD []
    pure (decide (xdata < ydata))
  | _, _ =>
    match st.1.gc.gettmbyobj a .lt, st.1.gc.gettmbyobj b .lt with
    | some tmA, some tmB =>
      if valRawEqual st.1.gc.heap.strings tmA tmB then callForBool host tmA a b
      else Act.fail ⟨"attempt to compare two " ++ a.typeName ++ " values"⟩
    | _, _ => Act.fail ⟨"attempt to compare two " ++ a.typeName ++ " values"⟩

/-! ### Outcomes -/

/-- True, false, an error, or nothing where the computation is stuck. -/
def outcome (x : OrderM σ Bool) (s : SecretTables × σ) : Option (Option Bool) := (x s).map fun res => res.2.2.toOption

end OrderM

/-- The `__lt` of two values. -/
def SecretTables.sharedLt (s : SecretTables) (a b : Val) : Option Val := do
  let tmA ← s.gc.gettmbyobj a .lt
  let tmB ← s.gc.gettmbyobj b .lt
  if valRawEqual s.gc.heap.strings tmA tmB then some tmA else none

/-- What is compared in place of a wrapper. -/
def SecretTables.orderPayload (s : SecretTables) (v : Val) : Option Val :=
  match s.payload v with
  | some (.bool b) => some (.bool b)
  | some (.num n) => some (.num n)
  | _ => none

namespace OrderM

variable {σ : Type} {host : OrderHost σ} {s : SecretTables × σ} {a b : Val}

/-- What the `__lt` of two values answers. Without one it is an error to compare them. -/
def metaOutcome (host : OrderHost σ) (s : SecretTables × σ) (a b : Val) : Option (Option Bool) :=
  match s.1.sharedLt a b with
  | some tm => outcome (callForBool host tm a b) s
  | none => some none

/-- Neither are both numbers nor both strings. -/
def Mixed (a b : Val) : Prop := (∀ x y, ¬ (a = .num x ∧ b = .num y)) ∧ ∀ x y, ¬ (a = .str x ∧ b = .str y)

theorem outcome_fail (e : LuaError) : outcome (Act.fail e : OrderM σ Bool) s = some none := rfl

theorem gettmbyobj_ne_nil {g : Gc} {v tm : Val} {event : TMS} (h : g.gettmbyobj v event = some tm) : tm ≠ .nil := by
  simp only [Gc.gettmbyobj, bind, Option.bind_eq_some_iff] at h
  obtain ⟨_, -, _, -, _, -, result, -, h⟩ := h
  split at h
  · cases h
  · next hnil =>
    cases h
    rintro rfl
    exact hnil rfl

theorem valRawEqual_nil {strings : StringArena} {v : Val} (h : v ≠ .nil) : valRawEqual strings v .nil = false := by
  cases v <;> first | rfl | exact absurd rfl h

theorem outcome_defaultLessThan (h : Mixed a b) : outcome (defaultLessThan host a b) s = metaOutcome host s a b := by
  rw [outcome, defaultLessThan, Act.get_bind]
  split
  · next x y => exact absurd ⟨rfl, rfl⟩ (h.1 x y)
  · next x y => exact absurd ⟨rfl, rfl⟩ (h.2 x y)
  · rw [metaOutcome, SecretTables.sharedLt]
    cases hA : s.1.gc.gettmbyobj a .lt with
    | none => rfl
    | some tmA =>
      cases hB : s.1.gc.gettmbyobj b .lt with
      | none => rfl
      | some tmB =>
        simp only [bind, Option.bind_some]
        split
        · rfl
        · rfl

theorem callOrderTm_of_none (h : s.1.sharedLt a b = none) : callOrderTm host a b .lt s = some (s, [], .ok none) := by
  rw [callOrderTm, Act.get_bind]
  rw [SecretTables.sharedLt] at h
  cases hA : s.1.gc.gettmbyobj a .lt with
  | none => rfl
  | some tmA =>
    rw [hA] at h
    dsimp only
    cases hB : s.1.gc.gettmbyobj b .lt with
    | none =>
      rw [Option.getD_none, if_neg (by rw [valRawEqual_nil (gettmbyobj_ne_nil hA)]; exact Bool.false_ne_true)]
      rfl
    | some tmB =>
      rw [hB] at h
      simp only [bind, Option.bind_some] at h
      split at h
      · cases h
      · next hne =>
        rw [Option.getD_some, if_neg hne]
        rfl

theorem callOrderTm_of_some {tm : Val} (h : s.1.sharedLt a b = some tm) :
    callOrderTm host a b .lt s = (callForBool host tm a b >>= fun r => pure (some r)) s := by
  rw [callOrderTm, Act.get_bind]
  simp only [SecretTables.sharedLt, bind, Option.bind_eq_some_iff] at h
  obtain ⟨tmA, hA, tmB, hB, h⟩ := h
  split at h
  · next heq =>
    cases h
    rw [hA, hB]
    dsimp only
    rw [Option.getD_some, if_pos heq]
  · cases h

theorem outcome_lessThanChecked (h : Mixed a b) : outcome (lessThanChecked host a b) s =
    if typeTag a ≠ typeTag b then some none else metaOutcome host s a b := by
  rw [outcome, lessThanChecked, Act.get_bind]
  split
  · next x y => exact absurd ⟨rfl, rfl⟩ (h.1 x y)
  · next x y => exact absurd ⟨rfl, rfl⟩ (h.2 x y)
  · split
    · rfl
    · rw [metaOutcome]
      cases hshared : s.1.sharedLt a b with
      | none =>
        rw [Act.bind_of_ok (callOrderTm_of_none hshared)]
        rfl
      | some tm =>
        change Option.map _ (Act.andThen (callOrderTm host a b .lt) _ s) = Option.map _ _
        rw [Act.andThen, callOrderTm_of_some hshared]
        simp only [bind, Act.andThen]
        rcases callForBool host tm a b s with _ | ⟨s', w, e | c⟩
        · rfl
        · rfl
        · rfl

/-! ### Operands -/

theorem checkedOrderOperand_of_none {v : Val} (h : s.1.orderPayload v = none) :
    checkedOrderOperand host v s = some (s, [], .ok v) := by
  have hbool : s.1.secretBool v = none := by
    rw [SecretTables.orderPayload] at h
    rw [SecretTables.secretBool]
    split at h <;> simp_all
  have hcheck : checkedSecretBool host v s = some (s, [], .ok none) := by
    rw [checkedSecretBool, Act.get_bind, hbool]
    rfl
  rw [checkedOrderOperand, Act.bind_of_ok hcheck]
  dsimp only
  rw [Act.get_bind]
  rcases hp : s.1.payload v with _ | p
  · rfl
  · cases p with
    | num n =>
      rw [SecretTables.orderPayload, hp] at h
      cases h
    | _ => rfl

theorem checkedOrderOperand_of_some {v p : Val} (h : s.1.orderPayload v = some p) :
    checkedOrderOperand host v s =
      if host.canAccessSecrets s.2 then some (s, [], .ok p) else some (s, [], .error SecretTables.secretAccess) := by
  rw [SecretTables.orderPayload] at h
  split at h
  · next b hb =>
    cases h
    have hbool : s.1.secretBool v = some b := by rw [SecretTables.secretBool, hb]
    split
    · next haccess =>
      have hcheck : checkedSecretBool host v s = some (s, [], .ok (some b)) := by
        rw [checkedSecretBool, Act.get_bind, hbool]
        dsimp only
        rw [if_pos haccess]
        rfl
      rw [checkedOrderOperand, Act.bind_of_ok hcheck]
      rfl
    · next haccess =>
      have hcheck : checkedSecretBool host v s = some (s, [], .error SecretTables.secretAccess) := by
        rw [checkedSecretBool, Act.get_bind, hbool]
        dsimp only
        rw [if_neg haccess]
        rfl
      rw [checkedOrderOperand, Act.bind_of_error hcheck]
  · next n hn =>
    cases h
    have hbool : s.1.secretBool v = none := by rw [SecretTables.secretBool, hn]
    have hcheck : checkedSecretBool host v s = some (s, [], .ok none) := by
      rw [checkedSecretBool, Act.get_bind, hbool]
      rfl
    rw [checkedOrderOperand, Act.bind_of_ok hcheck]
    dsimp only
    rw [Act.get_bind, hn]
    dsimp only
    split
    · rfl
    · rfl
  · cases h

/-- What is compared. -/
def operand (s : SecretTables × σ) (v : Val) : Val := (s.1.orderPayload v).getD v

theorem checkedOrderOperand_of_access (h : host.canAccessSecrets s.2 = true) (v : Val) :
    checkedOrderOperand host v s = some (s, [], .ok (operand s v)) := by
  rw [operand]
  cases hv : s.1.orderPayload v with
  | none => exact checkedOrderOperand_of_none hv
  | some p => rw [checkedOrderOperand_of_some hv, if_pos h, Option.getD_some]

theorem outcome_of_access (h : host.canAccessSecrets s.2 = true) :
    outcome (valLessThan host a b) s = outcome (lessThanChecked host (operand s a) (operand s b)) s := by
  rw [outcome, valLessThan, Act.bind_of_ok (checkedOrderOperand_of_access h a),
    Act.bind_of_ok (checkedOrderOperand_of_access h b)]
  rfl

theorem outcome_of_public (ha : s.1.orderPayload a = none) (hb : s.1.orderPayload b = none) :
    outcome (valLessThan host a b) s = outcome (lessThanChecked host a b) s := by
  rw [outcome, valLessThan, Act.bind_of_ok (checkedOrderOperand_of_none ha),
    Act.bind_of_ok (checkedOrderOperand_of_none hb)]
  rfl

theorem outcome_of_denied (h : ¬ host.canAccessSecrets s.2 = true)
    (hab : (s.1.orderPayload a).isSome ∨ (s.1.orderPayload b).isSome) :
    outcome (valLessThan host a b) s = some none := by
  have hdenied : ∀ {v p}, s.1.orderPayload v = some p →
      checkedOrderOperand host v s = some (s, [], .error SecretTables.secretAccess) := fun hv => by
    rw [checkedOrderOperand_of_some hv, if_neg h]
  rw [outcome, valLessThan]
  cases ha : s.1.orderPayload a with
  | some p =>
    rw [Act.bind_of_error (hdenied ha)]
    rfl
  | none =>
    rw [Act.bind_of_ok (checkedOrderOperand_of_none ha)]
    cases hb : s.1.orderPayload b with
    | some p =>
      rw [Act.bind_of_error (hdenied hb)]
      rfl
    | none =>
      rw [ha, hb] at hab
      simp at hab

/-! ### Agreement -/

/-- Collation and the order of the bytes say the same of two live strings. -/
def SameCollation (host : OrderHost σ) (s : SecretTables × σ) (x y : GcRef .string) : Prop :=
  ∃ sx sy o, s.1.gc.heap.strings.get x = some sx ∧ s.1.gc.heap.strings.get y = some sy ∧
    lStrcmp host.strcoll (LuaString.data sx) (LuaString.data sy) = some o ∧
    (o = .lt ↔ LuaString.data sx < LuaString.data sy)

/-- When the default order is the operator: strings collate as their bytes do, values of different types have no `__lt`
    that answers, and where wrappers are looked into, what is in them would be answered too. -/
def LikeOperator (host : OrderHost σ) (s : SecretTables × σ) (a b : Val) : Prop :=
  match a, b with
  | .num _, .num _ => True
  | .str x, .str y => SameCollation host s x y
  | _, _ =>
    if (s.1.orderPayload a).isSome ∨ (s.1.orderPayload b).isSome then
      if host.canAccessSecrets s.2 then
        match operand s a, operand s b with
        | .num x, .num y => metaOutcome host s a b = some (some (x.lt y))
        | .bool x, .bool y => metaOutcome host s a b = metaOutcome host s (.bool x) (.bool y)
        | _, _ => metaOutcome host s a b = some none
      else metaOutcome host s a b = some none
    else typeTag a = typeTag b ∨ metaOutcome host s a b = some none

theorem likeOperator_str (x y : GcRef .string) :
    outcome (defaultLessThan host (.str x) (.str y)) s = outcome (valLessThan host (.str x) (.str y)) s ↔
      SameCollation host s x y := by
  rw [outcome_of_public rfl rfl]
  have hdefault : outcome (defaultLessThan host (.str x) (.str y)) s = some (some (decide
      (((s.1.gc.heap.strings.get x).map LuaString.data).getD [] <
        ((s.1.gc.heap.strings.get y).map LuaString.data).getD []))) := rfl
  rw [hdefault, outcome, lessThanChecked, Act.get_bind]
  dsimp only
  constructor
  · intro h
    cases hx : s.1.gc.heap.strings.get x with
    | none =>
      rw [hx] at h
      cases h
    | some sx =>
      cases hy : s.1.gc.heap.strings.get y with
      | none =>
        rw [hx, hy] at h
        cases h
      | some sy =>
        rw [hx, hy] at h
        dsimp only at h
        cases ho : lStrcmp host.strcoll (LuaString.data sx) (LuaString.data sy) with
        | none =>
          rw [ho] at h
          cases h
        | some o =>
          rw [ho] at h
          refine ⟨sx, sy, o, hx, hy, ho, ?_⟩
          have h' : decide (LuaString.data sx < LuaString.data sy) = (o == Ordering.lt) := by
            injection h with h
            injection h
          rw [← beq_iff_eq, ← h', decide_eq_true_iff]
  · rintro ⟨sx, sy, o, hx, hy, ho, hiff⟩
    rw [hx, hy]
    dsimp only
    rw [ho]
    have h' : decide (LuaString.data sx < LuaString.data sy) = (o == Ordering.lt) := by
      rw [Bool.eq_iff_iff, decide_eq_true_iff, beq_iff_eq]
      exact hiff.symm
    change some (some (decide (LuaString.data sx < LuaString.data sy))) = some (some (o == Ordering.lt))
    rw [h']

theorem operand_wrapped {v : Val} (h : (s.1.orderPayload v).isSome) :
    (∃ n, operand s v = .num n) ∨ ∃ b, operand s v = .bool b := by
  obtain ⟨p, hp⟩ := Option.isSome_iff_exists.mp h
  rw [operand, hp, Option.getD_some]
  rw [SecretTables.orderPayload] at hp
  split at hp
  · next b _ =>
    cases hp
    exact .inr ⟨b, rfl⟩
  · next n _ =>
    cases hp
    exact .inl ⟨n, rfl⟩
  · cases hp

theorem eq_num_of_typeTag {v : Val} (h : typeTag v = 2) : ∃ n, v = .num n := by
  cases v <;> first | exact ⟨_, rfl⟩ | cases h

theorem eq_bool_of_typeTag {v : Val} (h : typeTag v = 1) : ∃ b, v = .bool b := by
  cases v <;> first | exact ⟨_, rfl⟩ | cases h

/-- Where neither both are numbers nor both strings. -/
theorem likeOperator_mixed (h : Mixed a b) :
    metaOutcome host s a b = outcome (valLessThan host a b) s ↔
      if (s.1.orderPayload a).isSome ∨ (s.1.orderPayload b).isSome then
        if host.canAccessSecrets s.2 then
          match operand s a, operand s b with
          | .num x, .num y => metaOutcome host s a b = some (some (x.lt y))
          | .bool x, .bool y => metaOutcome host s a b = metaOutcome host s (.bool x) (.bool y)
          | _, _ => metaOutcome host s a b = some none
        else metaOutcome host s a b = some none
      else typeTag a = typeTag b ∨ metaOutcome host s a b = some none := by
  split
  · next hwrapped =>
    split
    · next haccess =>
      rw [outcome_of_access haccess]
      split
      · next x y hx hy =>
        rw [hx, hy]
        rfl
      · next x y hx hy =>
        have hmixed : Mixed (.bool x) (.bool y) :=
          ⟨fun _ _ hn => Val.noConfusion hn.1, fun _ _ hn => Val.noConfusion hn.1⟩
        have htag : ¬ typeTag (.bool x) ≠ typeTag (.bool y) := fun hne => hne rfl
        rw [hx, hy, outcome_lessThanChecked hmixed, if_neg htag]
      · next hnum hbool =>
        have htag : typeTag (operand s a) ≠ typeTag (operand s b) := by
          intro htag
          rcases hwrapped with ha | hb
          · rcases operand_wrapped ha with ⟨x, hx⟩ | ⟨x, hx⟩
            · rw [hx] at htag
              obtain ⟨y, hy⟩ := eq_num_of_typeTag htag.symm
              exact hnum x y hx hy
            · rw [hx] at htag
              obtain ⟨y, hy⟩ := eq_bool_of_typeTag htag.symm
              exact hbool x y hx hy
          · rcases operand_wrapped hb with ⟨y, hy⟩ | ⟨y, hy⟩
            · rw [hy] at htag
              obtain ⟨x, hx⟩ := eq_num_of_typeTag htag
              exact hnum x y hx hy
            · rw [hy] at htag
              obtain ⟨x, hx⟩ := eq_bool_of_typeTag htag
              exact hbool x y hx hy
        have hmixed : Mixed (operand s a) (operand s b) :=
          ⟨fun x y hxy => hnum x y hxy.1 hxy.2, fun x y hxy => htag (by rw [hxy.1, hxy.2]; rfl)⟩
        rw [outcome_lessThanChecked hmixed, if_pos htag]
    · next haccess => rw [outcome_of_denied haccess hwrapped]
  · next hpublic =>
    rw [not_or, Option.not_isSome_iff_eq_none, Option.not_isSome_iff_eq_none] at hpublic
    rw [outcome_of_public hpublic.1 hpublic.2, outcome_lessThanChecked h]
    by_cases htag : typeTag a = typeTag b
    · rw [if_neg (not_not.mpr htag)]
      exact iff_of_true rfl (.inl htag)
    · rw [if_pos htag]
      exact ⟨.inr, fun h => h.resolve_left htag⟩

/-- Two wrapped numbers. The operator looks into the wrappers, and the default order does not. -/
def wrappedNumbers : SecretTables where
  gc := (({} : Gc).allocUserdata { secretValue := some (.num (F64.ofInt 1)) }).bind (fun (gc, _) =>
    (gc.allocUserdata { secretValue := some (.num (F64.ofInt 2)) }).map Prod.fst) |>.getD {}

/-- A caller that may unwrap secrets, where strings collate as their bytes do. -/
def plainHost : OrderHost Unit where
  canAccessSecrets _ := true
  callFunction _ _ _ := none
  strcoll l r := if l < r then -1 else if l = r then 0 else 1

end OrderM

end Rilua.Vm
