import Rilua.Vm.ApiAgree
import Rilua.Vm.FailedStores

/-! Where `LuaState::gettable` and `LuaState::settable` do what `GETTABLE` and `SETTABLE` do. Both follow the same
    metamethods; the API does not ask for access on the way, does not pass taint on, and stores without the gate of
    frozen tables and without the memory limit. -/

namespace Rilua.Vm

open Lib Gc

namespace AccessState

/-- What looking for a field comes to: a value, no value, a function to call, another value to look in, an error. -/
inductive Look where
  | found (v : Val)
  | absent
  | call (f : GcRef .closure)
  | next (v : Val)
  | failed

def handler : Option Val → Look
  | none => .absent
  | some (.function f) => .call f
  | some v => .next v

/-- Looks for a field of a value. -/
def look (s : AccessState) (event : TMS) (key c : Val) : Option Look :=
  match c with
  | .table r =>
    match s.tables.gc.heap.get r with
    | none => some .failed
    | some t => (t.get key s.tables.gc.heap.strings).map fun v =>
        if v.isNil then handler (t.metatable.bind fun mt => s.tables.gc.fasttm mt event) else .found v
  | _ =>
    match s.tables.gc.gettmbyobj c event with
    | none => some .failed
    | some tm => some (handler (some tm))

/-- From a value, looking goes on with the values in `passed`, and comes to `last` in less than `n` steps. -/
inductive Reaches (s : AccessState) (event : TMS) (key : Val) (target : Val → Option Val) :
    ℕ → Val → List Val → Val → Prop
  | here {n : ℕ} {u c : Val} (htarget : target u = some c) : Reaches s event key target (n + 1) u [] c
  | next {n : ℕ} {u c v last : Val} {passed : List Val} (htarget : target u = some c)
      (hlook : s.look event key c = some (.next v)) (hrest : Reaches s event key target n v passed last) :
      Reaches s event key target (n + 1) u (c :: passed) last

/-- Looking has come to an end without an error. -/
def Look.Answers : Look → Prop
  | .next _ | .failed => False
  | _ => True

/-- Looking comes to an end at `last`, with the outcome `l`. -/
def Ends (s : AccessState) (event : TMS) (key : Val) (target : Val → Option Val) (n : ℕ) (u : Val) (passed : List Val)
    (last : Val) (l : Look) : Prop :=
  Reaches s event key target n u passed last ∧ s.look event key last = some l ∧ l.Answers

/-- A wrapped table is read in place of its wrapper. -/
def readTarget (s : AccessState) (u : Val) : Option Val :=
  match s.tables.payload u with
  | some (.table r) => if s.canAccessSecrets then some (.table r) else none
  | _ => some u

/-- Access to the table is allowed. -/
def Allows (s : AccessState) (key : Val) (r : GcRef .table) : Prop :=
  Act.Returns (SecretM.checkTableAccess s.stateIsSecure r (some key)) s.tables ()

/-- Access is allowed to every table among some values. -/
def AllowsAll (s : AccessState) (key : Val) (vals : List Val) : Prop := ∀ r, Val.table r ∈ vals → s.Allows key r

/-- Reading the field taints the running frame. -/
def PicksUp (s : AccessState) (key : Val) (r : GcRef .table) : Prop :=
  s.taintMode = true ∧ s.frames.head? = some none ∧
    ∃ k taint, s.taintKey key = some k ∧ s.slotTaint r k = some taint

/-- A value is wrapped when it is read from the table. -/
def WrapsValue (s : AccessState) (r : GcRef .table) (v : Val) : Prop :=
  s.tables.tableWrapsContents r = true ∧ s.tables.isSecretValue v = false

/-- The outcome of a read that has looked in the values in `passed`, and last in `last`: access is allowed to all of
    them, and where a value is found, the read taints nothing, and the fast path does not return it without a
    wrapper. (If no wrapper can be made, both are stuck.) -/
structure ReadsAlike (s : AccessState) (key t : Val) (passed : List Val) (last : Val) (l : Look) : Prop where
  allowed : s.AllowsAll key (passed ++ [last])
  taint : ∀ v r, l = .found v → last = .table r → s.PicksUp key r → t ≠ last ∧
    s.tables.wrapContentsResult v ((passed ++ [last]).any s.tables.valueWrapsContents) = none
  plain : ∀ v r, l = .found v → last = .table r → t = last → ¬ s.WrapsValue r v

/-- Every table can be read. -/
def Readable (s : AccessState) (key : Val) : Prop :=
  ∀ (r : GcRef .table) t, s.tables.gc.heap.get r = some t → (Table.get t key s.tables.gc.heap.strings).isSome

variable {s : AccessState} {event : TMS} {key c v : Val} {r : GcRef .table} {t : Table}

/-- Where no value is found, only access is asked for. -/
theorem ReadsAlike.of_not_found {t last : Val} {passed : List Val} {l : Look}
    (hallow : s.AllowsAll key (passed ++ [last])) (h : ∀ v, l ≠ .found v) : s.ReadsAlike key t passed last l :=
  ⟨hallow, fun v _ hl => absurd hl (h v), fun v _ hl => absurd hl (h v)⟩

theorem look_missing (hget : s.tables.gc.heap.get r = none) : s.look event key (.table r) = some .failed := by
  rw [look, hget]

theorem look_table (event : TMS) (hget : s.tables.gc.heap.get r = some t)
    (hv : Table.get t key s.tables.gc.heap.strings = some v) :
    s.look event key (.table r) =
      some (if v.isNil then handler (t.metatable.bind fun mt => s.tables.gc.fasttm mt event) else .found v) := by
  rw [look, hget]
  dsimp only
  rw [hv]
  rfl

theorem look_other (h : ∀ r, c ≠ .table r) : s.look event key c =
    some ((s.tables.gc.gettmbyobj c event).elim .failed fun tm => handler (some tm)) := by
  unfold look
  split
  · exact absurd rfl (h _)
  · cases s.tables.gc.gettmbyobj c event <;> rfl

theorem look_isSome (hread : s.Readable key) (event : TMS) (c : Val) : ∃ l, s.look event key c = some l := by
  by_cases htab : ∃ r, c = .table r
  · obtain ⟨r, rfl⟩ := htab
    cases hget : s.tables.gc.heap.get r with
    | none => exact ⟨_, look_missing hget⟩
    | some t =>
      obtain ⟨v, hv⟩ := Option.isSome_iff_exists.mp (hread r t hget)
      exact ⟨_, look_table _ hget hv⟩
  · exact ⟨_, look_other fun r hr => htab ⟨r, hr⟩⟩

variable {target : Val → Option Val} {n : ℕ} {u last last' : Val} {passed passed' : List Val} {l l' : Look}

/-- Looking comes to one end only. -/
theorem Ends.unique (h : s.Ends event key target n u passed last l)
    (h' : s.Ends event key target n u passed' last' l') :
    passed = passed' ∧ last = last' ∧ l = l' := by
  obtain ⟨hreach, hlook, hans⟩ := h
  obtain ⟨hreach', hlook', hans'⟩ := h'
  induction hreach generalizing passed' with
  | here htarget =>
    cases hreach' with
    | here htarget' =>
      cases htarget.symm.trans htarget'
      cases hlook.symm.trans hlook'
      exact ⟨rfl, rfl, rfl⟩
    | next htarget' hnext _ =>
      cases htarget.symm.trans htarget'
      cases hlook.symm.trans hnext
      exact hans.elim
  | next htarget hnext _ ih =>
    cases hreach' with
    | here htarget' =>
      cases htarget.symm.trans htarget'
      cases hnext.symm.trans hlook'
      exact hans'.elim
    | next htarget' hnext' hrest' =>
      cases htarget.symm.trans htarget'
      cases hnext.symm.trans hnext'
      obtain ⟨rfl, rfl, rfl⟩ := ih hlook hrest'
      exact ⟨rfl, rfl, rfl⟩

/-- If it does not come to an end from the next value, it does not come to an end. -/
theorem ends_of_next (htarget : target u = some c) (hlook : s.look event key c = some (.next v)) :
    s.Ends event key target n v passed last l → s.Ends event key target (n + 1) u (c :: passed) last l :=
  fun h => ⟨.next htarget hlook h.1, h.2⟩

theorem propagateSlotReadTaint_eq (key : Val) (hget : s.tables.gc.heap.get r = some t) :
    ∃ frames, s.propagateSlotReadTaint r key = { s with frames } ∧ (frames = s.frames ↔ ¬ s.PicksUp key r) := by
  unfold propagateSlotReadTaint
  split
  · next frames k _ hmode hframes hkey _ =>
    refine ⟨_, rfl, ?_⟩
    rw [hframes, List.cons.injEq, and_iff_left rfl]
    constructor
    · rintro hnone ⟨-, -, k', taint, hk', htaint⟩
      cases hkey.symm.trans hk'
      rw [hnone] at htaint
      cases htaint
    · intro hnot
      by_contra hsome
      obtain ⟨taint, htaint⟩ := Option.ne_none_iff_exists'.mp hsome
      exact hnot ⟨hmode, by rw [hframes]; rfl, k, taint, hkey, htaint⟩
  · next hnot =>
    refine ⟨s.frames, rfl, iff_of_true rfl ?_⟩
    rintro ⟨hmode, hframes, k, taint, hkey, -⟩
    obtain ⟨frames, hframes⟩ := List.head?_eq_some_iff.mp hframes
    exact hnot frames k t hmode hframes hkey hget

end AccessState

namespace AccessM

open AccessState

variable {s : AccessState} {key : Val} {r : GcRef .table} {α : Type}

theorem onTables_apply {x : SecretM α} {res : Except LuaError α} (h : x s.tables = some (s.tables, [], res)) :
    onTables x s = some (s, [], res) := by
  rw [onTables, h]
  rfl

theorem checkTableAccess_total (secure : Bool) (r : GcRef .table) (key : Option Val) (t : SecretTables) :
    ∃ res, SecretM.checkTableAccess secure r key t = some (t, [], res) := by
  rw [SecretM.checkTableAccess]
  have hread := SecretTables.read_eq t r ⟨"table has been collected"⟩
  cases hget : t.gc.heap.get r with
  | none =>
    rw [hget] at hread
    exact ⟨_, Act.bind_of_error hread _⟩
  | some u =>
    rw [hget] at hread
    rw [Act.bind_of_ok hread, Act.get_bind]
    split
    · exact ⟨_, rfl⟩
    · split
      · exact ⟨_, rfl⟩
      · exact ⟨_, rfl⟩

theorem checkTableAccess_allowed (h : s.Allows key r) : checkTableAccess r (some key) s = some (s, [], .ok ()) := by
  rw [checkTableAccess, Act.get_bind]
  obtain ⟨res, hres⟩ := checkTableAccess_total s.stateIsSecure r (some key) s.tables
  obtain ⟨_, _, hok⟩ := h
  rw [hres] at hok
  cases hok
  exact onTables_apply hres

theorem checkTableAccess_denied (h : ¬ s.Allows key r) :
    ∃ e, checkTableAccess r (some key) s = some (s, [], .error e) := by
  rw [checkTableAccess, Act.get_bind]
  obtain ⟨res, hres⟩ := checkTableAccess_total s.stateIsSecure r (some key) s.tables
  cases res with
  | ok _ => exact absurd ⟨_, _, hres⟩ h
  | error e => exact ⟨e, onTables_apply hres⟩

/-- Where access is allowed, there is a table. -/
theorem exists_of_allows (h : s.Allows key r) : ∃ t, s.tables.gc.heap.get r = some t := by
  obtain ⟨_, _, hok⟩ := h
  cases hget : s.tables.gc.heap.get r with
  | some t => exact ⟨t, rfl⟩
  | none =>
    have hread := SecretTables.read_eq s.tables r ⟨"table has been collected"⟩
    rw [hget] at hread
    rw [SecretM.checkTableAccess, Act.bind_of_error hread] at hok
    cases hok

theorem onTables_read (missing : LuaError) : onTables (SecretM.read r missing) s =
    some (s, [], (s.tables.gc.heap.get r).elim (.error missing) .ok) :=
  onTables_apply (SecretTables.read_eq ..)

theorem ofOption_some {x : Option α} {a : α} (h : x = some a) (s : AccessState) :
    (Act.ofOption x : AccessM α) s = some (s, [], .ok a) := by
  rw [Act.ofOption, Act.lift, h]
  rfl

/-! ### Reads -/

/-- What a read comes to when it has looked in a value. -/
def reads (contentsSecret : Bool) (rest : Val → AccessM SecretM.ReadResult) (c : Val) :
    Look → AccessM SecretM.ReadResult
  | .found v => do
    let v ← onTables (SecretM.wrapContentsResult v contentsSecret)
    pure (.value v)
  | .absent => pure (.value .nil)
  | .call f => pure (.call (.function f) c contentsSecret)
  | .next v => rest v
  | .failed => Act.fail ⟨"attempt to index"⟩

theorem checkedSecretTableRead_eq (s : AccessState) (u : Val) :
    checkedSecretTableRead u s = some (s, [], (s.readTarget u).elim (.error SecretTables.secretAccess) .ok) := by
  rw [checkedSecretTableRead, Act.get_bind]
  refine onTables_apply ?_
  rw [SecretM.checkedSecretTableRead, Act.get_bind, readTarget]
  cases s.tables.payload u with
  | none => rfl
  | some p =>
    cases p with
    | table r =>
      cases s.canAccessSecrets with
      | true => rfl
      | false => rfl
    | _ => rfl

/-- A step of `resolve_gettable_chain`. -/
theorem agree_resolveGettableChain (hread : s.Readable key) {u c : Val} {l : Look} {contentsSecret : Bool} {n : ℕ}
    (htarget : s.readTarget u = some c) (hlook : s.look .index key c = some l) :
    Agree (resolveGettableChain key (n + 1) u contentsSecret)
      (reads (contentsSecret || s.tables.valueWrapsContents c)
        (resolveGettableChain key n · (contentsSecret || s.tables.valueWrapsContents c)) c l) s := by
  have htable := checkedSecretTableRead_eq s u
  rw [htarget] at htable
  rw [Agree, resolveGettableChain, Act.bind_of_ok htable, Act.get_bind]
  by_cases htab : ∃ r, c = .table r
  · obtain ⟨r, rfl⟩ := htab
    have hmissing := onTables_read (s := s) (r := r) SecretM.invalidTable
    dsimp only
    cases hget : s.tables.gc.heap.get r with
    | none =>
      rw [look_missing hget] at hlook
      rw [hget] at hmissing
      cases hlook
      dsimp only
      rw [Act.bind_of_ok (Act.pure_apply Val.nil s), if_neg (by simp [Val.isNil]), Act.bind_of_error hmissing]
      rfl
    | some t =>
      obtain ⟨v, hv⟩ := Option.isSome_iff_exists.mp (hread r t hget)
      rw [look_table _ hget hv] at hlook
      rw [hget] at hmissing
      obtain rfl := Option.some.inj hlook
      dsimp only
      rw [Act.bind_of_ok (ofOption_some hv s)]
      by_cases hnil : v.isNil = true
      · rw [if_neg (not_not.mpr hnil), if_pos hnil, Act.bind_of_ok hmissing]
        cases (Table.metatable t).bind fun mt => s.tables.gc.fasttm mt .index with
        | none => rfl
        | some tm => cases tm <;> rfl
      · rw [if_pos hnil, if_neg hnil]
        rfl
  · have hother : ∀ r, c ≠ .table r := fun r hr => htab ⟨r, hr⟩
    rw [look_other hother] at hlook
    obtain rfl := Option.some.inj hlook
    have hwraps : s.tables.valueWrapsContents c = false := by
      unfold SecretTables.valueWrapsContents
      split
      · exact absurd rfl (hother _)
      · rfl
    rw [hwraps, Bool.or_false]
    split
    · exact absurd rfl (hother _)
    · cases s.tables.gc.gettmbyobj c .index with
      | none => rfl
      | some tm => cases tm <;> rfl

/-- Nothing is wrapped where there is no value. -/
theorem wrapContentsResult_nil (contentsSecret : Bool) :
    onTables (SecretM.wrapContentsResult .nil contentsSecret) s = some (s, [], .ok .nil) := by
  refine onTables_apply ?_
  rw [SecretM.wrapContentsResult, Act.lift, SecretTables.wrapContentsResult, if_neg (by simp [Val.isNil])]
  rfl

/-- The taint that reading a field passes to the running frame. -/
def readTaint (key c : Val) : Look → AccessState → AccessState
  | .found _, s => match c with
    | .table r => s.propagateSlotReadTaint r key
    | _ => s
  | _, s => s

/-- A step of `vm_gettable`, where access is allowed. -/
theorem agree_vmGettableLoop (hread : s.Readable key) {u c : Val} {l : Look} {contentsSecret : Bool} {n : ℕ}
    (htarget : s.readTarget u = some c) (hlook : s.look .index key c = some l) (hallows : s.AllowsAll key [c]) :
    Agree (vmGettableLoop key (n + 1) u contentsSecret) (do
      Act.modify (readTaint key c l)
      reads (contentsSecret || s.tables.valueWrapsContents c)
        (vmGettableLoop key n · (contentsSecret || s.tables.valueWrapsContents c)) c l) s := by
  have htable := checkedSecretTableRead_eq s u
  rw [htarget] at htable
  rw [Agree, vmGettableLoop, Act.bind_of_ok htable, Act.get_bind, Act.modify_bind]
  by_cases htab : ∃ r, c = .table r
  · obtain ⟨r, rfl⟩ := htab
    have hallow := hallows r (List.mem_singleton_self _)
    obtain ⟨t, hget⟩ := exists_of_allows hallow
    obtain ⟨v, hv⟩ := Option.isSome_iff_exists.mp (hread r t hget)
    rw [look_table _ hget hv] at hlook
    obtain rfl := Option.some.inj hlook
    have hmissing := onTables_read (s := s) (r := r) SecretM.invalidTable
    rw [hget] at hmissing
    have hstep : gettableStep (.table r) key s = if v.isNil then
        some (s, [], .ok (SecretM.resolveGettableTm (.table r)
          ((Table.metatable t).bind fun mt => s.tables.gc.fasttm mt .index)))
        else some (s.propagateSlotReadTaint r key, [], .ok (.done v)) := by
      rw [gettableStep, handleTableGettable, Act.bind_of_ok (checkTableAccess_allowed hallow), Act.bind_of_ok hmissing,
        Act.get_bind, Act.bind_of_ok (ofOption_some hv s)]
      by_cases hnil : v.isNil = true
      · rw [if_neg (not_not.mpr hnil), if_pos hnil]
        rfl
      · rw [if_pos hnil, if_neg hnil]
        rfl
    by_cases hnil : v.isNil = true
    · rw [if_pos hnil] at hstep ⊢
      rw [Act.bind_of_ok hstep]
      cases (Table.metatable t).bind fun mt => s.tables.gc.fasttm mt .index with
      | none =>
        change Option.map _ ((onTables (SecretM.wrapContentsResult .nil _) >>= fun v =>
          pure (SecretM.ReadResult.value v) : AccessM SecretM.ReadResult) s) = _
        rw [Act.bind_of_ok (wrapContentsResult_nil _)]
        rfl
      | some tm => cases tm <;> rfl
    · rw [if_neg hnil] at hstep ⊢
      rw [Act.bind_of_ok hstep]
      rfl
  · have hother : ∀ r, c ≠ .table r := fun r hr => htab ⟨r, hr⟩
    rw [look_other hother] at hlook
    obtain rfl := Option.some.inj hlook
    have hstep : gettableStep c key s = handleNonTableGettable c s := by
      unfold gettableStep
      split
      · exact absurd rfl (hother _)
      · rfl
    rw [handleNonTableGettable, Act.get_bind] at hstep
    cases htm : s.tables.gc.gettmbyobj c .index with
    | none =>
      simp only [htm] at hstep
      rw [Act.bind_of_error hstep]
      rfl
    | some tm =>
      simp only [htm] at hstep
      rw [Act.bind_of_ok hstep]
      cases tm <;> rfl

theorem vmGettableLoop_denied {u c : Val} {n : ℕ} (contentsSecret : Bool) (htarget : s.readTarget u = some c)
    (hdenied : ¬ s.AllowsAll key [c]) :
      ∃ e, vmGettableLoop key (n + 1) u contentsSecret s = some (s, [], .error e) := by
  have htable := checkedSecretTableRead_eq s u
  rw [htarget] at htable
  obtain ⟨r, hr⟩ := not_forall.mp hdenied
  obtain ⟨hmem, hnot⟩ := Classical.not_imp.mp hr
  obtain rfl := List.mem_singleton.mp hmem
  obtain ⟨e, hcheck⟩ := checkTableAccess_denied hnot
  have hstep : gettableStep (.table r) key s = some (s, [], .error e) := by
    rw [gettableStep, handleTableGettable, Act.bind_of_error hcheck]
  refine ⟨e, ?_⟩
  rw [vmGettableLoop, Act.bind_of_ok htable, Act.get_bind, Act.bind_of_error hstep]

section Ends

variable {n : ℕ} {u last : Val} {passed : List Val} {l : Look} {contentsSecret : Bool}

/-- What a read comes to where looking has come to an end. -/
def readAnswer (contentsSecret : Bool) (last : Val) (l : Look) : AccessM SecretM.ReadResult :=
  reads contentsSecret (fun _ => Act.fail ⟨"loop in gettable"⟩) last l

theorem readAnswer_eq {rest : Val → AccessM SecretM.ReadResult} (h : l.Answers) :
    reads contentsSecret rest last l = readAnswer contentsSecret last l := by
  cases l with
  | next v => exact h.elim
  | _ => rfl

/-- Where looking comes to an end, `resolve_gettable_chain` does so. -/
theorem resolveGettableChain_ends (contentsSecret : Bool) (hread : s.Readable key)
    (h : s.Ends .index key s.readTarget n u passed last l) :
    Agree (resolveGettableChain key n u contentsSecret)
      (readAnswer (contentsSecret || (passed ++ [last]).any s.tables.valueWrapsContents) last l) s := by
  obtain ⟨hreach, hlook, hans⟩ := h
  induction hreach generalizing contentsSecret with
  | here htarget =>
    refine (agree_resolveGettableChain hread htarget hlook).trans ?_
    rw [readAnswer_eq hans, List.nil_append, List.any_cons, List.any_nil, Bool.or_false]
    exact .refl _ _
  | next htarget hnext hrest ih =>
    refine (agree_resolveGettableChain hread htarget hnext).trans (.trans (ih _ hlook) ?_)
    rw [List.cons_append, List.any_cons, Bool.or_assoc]
    exact .refl _ _

/-- Where it does not come to an end, `resolve_gettable_chain` fails: by induction on the steps that are left. -/
theorem resolveGettableChain_fails (contentsSecret : Bool) (hread : s.Readable key)
    (h : ∀ passed last l, ¬ s.Ends .index key s.readTarget n u passed last l) (e : LuaError) :
    Agree (resolveGettableChain key n u contentsSecret) (Act.fail e) s := by
  induction n generalizing u contentsSecret with
  | zero => exact .fail _ _
  | succ n ih =>
    cases htarget : s.readTarget u with
    | none =>
      have htable := checkedSecretTableRead_eq s u
      rw [htarget] at htable
      rw [Agree, resolveGettableChain, Act.bind_of_error htable]
      rfl
    | some c =>
      obtain ⟨l, hlook⟩ := look_isSome hread .index c
      refine (agree_resolveGettableChain hread htarget hlook).trans ?_
      cases l with
      | next v => exact ih _ fun passed last l hends => h _ _ _ (ends_of_next htarget hlook hends)
      | failed => exact .fail _ _
      | _ => exact absurd ⟨.here htarget, hlook, trivial⟩ (h [] c _)

/-- Where looking comes to an end and access is allowed all the way, `vm_gettable` passes the taint on. -/
theorem vmGettableLoop_ends (contentsSecret : Bool) (hread : s.Readable key)
    (h : s.Ends .index key s.readTarget n u passed last l)
    (hallows : s.AllowsAll key (passed ++ [last])) :
    Agree (vmGettableLoop key n u contentsSecret) (do
      Act.modify (readTaint key last l)
      readAnswer (contentsSecret || (passed ++ [last]).any s.tables.valueWrapsContents) last l) s := by
  obtain ⟨hreach, hlook, hans⟩ := h
  induction hreach generalizing contentsSecret with
  | here htarget =>
    refine (agree_vmGettableLoop hread htarget hlook hallows).trans ?_
    rw [readAnswer_eq hans, List.nil_append, List.any_cons, List.any_nil, Bool.or_false]
    exact .refl _ _
  | @next n u c v last passed htarget hnext hrest ih =>
    rw [List.cons_append, AllowsAll] at hallows
    have hfirst := fun r hr => hallows r (List.mem_cons.mpr (.inl (List.mem_singleton.mp hr)))
    refine (agree_vmGettableLoop hread htarget hnext hfirst).trans ?_
    have hrest := ih (contentsSecret || s.tables.valueWrapsContents c)
      (fun r hr => hallows r (List.mem_cons_of_mem _ hr)) hlook
    rw [Bool.or_assoc] at hrest
    rw [Agree, Act.modify_bind, List.cons_append, List.any_cons]
    exact hrest

/-- Where access is denied on the way, `vm_gettable` fails. -/
theorem vmGettableLoop_ends_denied (contentsSecret : Bool) (hread : s.Readable key)
    (h : s.Ends .index key s.readTarget n u passed last l)
    (hdenied : ¬ s.AllowsAll key (passed ++ [last])) (e : LuaError) :
    Agree (vmGettableLoop key n u contentsSecret) (Act.fail e) s := by
  obtain ⟨hreach, hlook, hans⟩ := h
  induction hreach generalizing contentsSecret with
  | here htarget =>
    obtain ⟨e', he⟩ := vmGettableLoop_denied contentsSecret htarget hdenied
    rw [Agree, he]
    rfl
  | @next n u c v last passed htarget hnext hrest ih =>
    by_cases hfirst : s.AllowsAll key [c]
    · refine (agree_vmGettableLoop hread htarget hnext hfirst).trans ?_
      rw [Agree, Act.modify_bind]
      refine ih _ (fun hall => hdenied fun r hr => ?_) hlook
      rcases List.mem_cons.mp hr with hr | hr
      · exact hfirst r (List.mem_singleton.mpr hr)
      · exact hall r hr
    · obtain ⟨e', he⟩ := vmGettableLoop_denied contentsSecret htarget hfirst
      rw [Agree, he]
      rfl

/-- Where looking does not come to an end, `vm_gettable` fails: by induction on the steps that are left. -/
theorem vmGettableLoop_fails (contentsSecret : Bool) (hread : s.Readable key)
    (h : ∀ passed last l, ¬ s.Ends .index key s.readTarget n u passed last l) (e : LuaError) :
    Agree (vmGettableLoop key n u contentsSecret) (Act.fail e) s := by
  induction n generalizing u contentsSecret with
  | zero => exact .fail _ _
  | succ n ih =>
    cases htarget : s.readTarget u with
    | none =>
      have htable := checkedSecretTableRead_eq s u
      rw [htarget] at htable
      rw [Agree, vmGettableLoop, Act.bind_of_error htable]
      rfl
    | some c =>
      by_cases hallows : s.AllowsAll key [c]
      · obtain ⟨l, hlook⟩ := look_isSome hread .index c
        refine (agree_vmGettableLoop hread htarget hlook hallows).trans ?_
        rw [Agree, Act.modify_bind]
        cases l with
        | next v => exact ih _ fun passed last l hends => h _ _ _ (ends_of_next htarget hlook hends)
        | failed => rfl
        | _ => exact absurd ⟨.here htarget, hlook, trivial⟩ (h [] c _)
      · obtain ⟨e', he⟩ := vmGettableLoop_denied contentsSecret htarget hallows
        rw [Agree, he]
        rfl

/-- A value is wrapped and returned. -/
theorem readAnswer_found (v : Val) : readAnswer contentsSecret last (.found v) s =
    (s.tables.wrapContentsResult v contentsSecret).map fun (tables, v) => ({ s with tables }, [], .ok (.value v)) := by
  rw [readAnswer, reads]
  change Act.andThen (onTables (Act.lift _)) _ s = _
  rw [Act.andThen, onTables, Act.lift]
  cases hwrap : s.tables.wrapContentsResult v contentsSecret with
  | none => rfl
  | some res => rfl

/-- Where looking has come to an end, a read does not fail. -/
theorem not_readAnswer_fail (h : l.Answers) (e : LuaError) :
    ¬ Agree (readAnswer contentsSecret last l) (Act.fail e) s := by
  intro hagree
  cases l with
  | next v => exact h
  | failed => exact h
  | absent => cases hagree
  | call f => cases hagree
  | found v =>
    have hvalue := congrArg (Option.map Prod.snd) hagree
    rw [readAnswer_found] at hvalue
    cases hwrap : s.tables.wrapContentsResult v contentsSecret with
    | none =>
      rw [hwrap] at hvalue
      cases hvalue
    | some res =>
      rw [hwrap] at hvalue
      cases hvalue

/-- The fast path returns a value that is there, or nil if there is no metatable. -/
theorem tryPlainTableGet_allowed {t : Table} {v : Val} (hallow : s.Allows key r)
    (hget : s.tables.gc.heap.get r = some t) (hv : t.get key s.tables.gc.heap.strings = some v) :
    tryPlainTableGet (.table r) key s =
      if v.isNil then some (s, [], .ok (if t.metatable.isSome then none else some .nil))
      else some (s.propagateSlotReadTaint r key, [], .ok (some v)) := by
  obtain ⟨res, hres⟩ := checkTableAccess_total s.stateIsSecure r (some key) s.tables
  obtain ⟨_, _, hok⟩ := hallow
  rw [hres] at hok
  cases hok
  rw [tryPlainTableGet, Act.get_bind, hres, hget]
  dsimp only
  rw [Act.bind_of_ok (ofOption_some hv s)]
  cases hnil : v.isNil with
  | true =>
    obtain rfl := Val.isNil_eq_true.mp hnil
    cases t.metatable <;> rfl
  | false => rfl

theorem tryPlainTableGet_denied (h : ¬ s.Allows key r) :
    tryPlainTableGet (.table r) key s = some (s, [], .ok none) := by
  obtain ⟨res, hres⟩ := checkTableAccess_total s.stateIsSecure r (some key) s.tables
  cases res with
  | ok _ => exact absurd ⟨_, _, hres⟩ h
  | error e =>
    rw [tryPlainTableGet, Act.get_bind, hres]
    rfl

theorem tryPlainTableGet_other {t : Val} (h : ∀ r, t ≠ .table r) :
    tryPlainTableGet t key s = some (s, [], .ok none) := by
  unfold tryPlainTableGet
  split
  · exact absurd rfl (h _)
  · rfl

/-- Reads that look in the same value agree where they find the same frames: the taint is not picked up, or no
    wrapper can be made. -/
theorem agree_found_iff {t : Table} (hget : s.tables.gc.heap.get r = some t) (v : Val) :
    Agree (do Act.modify (readTaint key (.table r) (.found v)); readAnswer contentsSecret (.table r) (.found v))
        (readAnswer contentsSecret (.table r) (.found v)) s ↔
      (s.PicksUp key r → s.tables.wrapContentsResult v contentsSecret = none) := by
  obtain ⟨frames, hframes, hsame⟩ := propagateSlotReadTaint_eq key hget
  have hstate : readTaint key (.table r) (.found v) s = { s with frames } := hframes
  rw [Agree, Act.modify_bind, readAnswer_found, readAnswer_found, hstate]
  dsimp only
  cases hwrap : s.tables.wrapContentsResult v contentsSecret with
  | none => exact iff_of_true rfl fun _ => rfl
  | some res =>
    simp only [Option.map_some, reduceCtorEq, imp_false, ← hsame, Option.some.injEq, Prod.mk.injEq, and_true]
    constructor
    · intro h
      exact congrArg AccessState.frames h
    · rintro rfl
      rfl

theorem readTarget_table (s : AccessState) (r : GcRef .table) : s.readTarget (.table r) = some (.table r) := rfl

/-- A new wrapper is counted. -/
theorem udAllocSeq_wrapContentsResult {tables : SecretTables} {v w : Val} (hnil : v.isNil = false)
    (hsecret : s.tables.isSecretValue v = false) (h : s.tables.wrapContentsResult v true = some (tables, w)) :
    tables.gc.gcState.udAllocSeq = s.tables.gc.gcState.udAllocSeq + 1 := by
  rw [SecretTables.wrapContentsResult, hnil, hsecret, if_pos (by decide)] at h
  obtain ⟨⟨g, u⟩, halloc, heq⟩ := Option.map_eq_some_iff.mp h
  cases heq
  obtain ⟨⟨heap, u'⟩, -, hgc⟩ := Option.bind_eq_some_iff.mp halloc
  cases hgc
  rfl

/-- The fast path of `GETTABLE`: it returns nil, or a value, from the first table. -/
inductive FastPath (s : AccessState) (key : Val) : Val → Prop
  | absent {r : GcRef .table} (hallow : s.Allows key r) (hlook : s.look .index key (.table r) = some .absent)
      (hrun : opGetTable (.table r) key s = some (s, [], .ok (.value .nil))) : FastPath s key (.table r)
  | found {r : GcRef .table} {t : Table} {v : Val} (hallow : s.Allows key r) (hget : s.tables.gc.heap.get r = some t)
      (hnil : v.isNil = false) (hlook : s.look .index key (.table r) = some (.found v))
      (hrun : opGetTable (.table r) key s = some (s.propagateSlotReadTaint r key, [], .ok (.value v))) :
      FastPath s key (.table r)

theorem opGetTable_of_none {t : Val} (h : tryPlainTableGet t key s = some (s, [], .ok none)) :
    opGetTable t key s = vmGettable t key s := by
  rw [opGetTable, Act.bind_of_ok h]

theorem opGetTable_cases (hread : s.Readable key) (t : Val) :
    FastPath s key t ∨ opGetTable t key s = vmGettable t key s ∧
      ∀ r v, t = .table r → s.Allows key r → s.look .index key t ≠ some (.found v) := by
  by_cases htab : ∃ r, t = .table r
  · obtain ⟨r, rfl⟩ := htab
    by_cases hallow : s.Allows key r
    · obtain ⟨t, hget⟩ := exists_of_allows hallow
      obtain ⟨v, hv⟩ := Option.isSome_iff_exists.mp (hread r t hget)
      have hfast := tryPlainTableGet_allowed hallow hget hv
      have hlook := look_table .index hget hv
      cases hnil : v.isNil with
      | true =>
        rw [if_pos hnil] at hfast hlook
        by_cases hmeta : (Table.metatable t).isSome = true
        · rw [if_pos hmeta] at hfast
          refine .inr ⟨opGetTable_of_none hfast, fun r' v' _ _ hfound => ?_⟩
          rw [hlook] at hfound
          cases htm : (Table.metatable t).bind fun mt => s.tables.gc.fasttm mt .index with
          | none =>
            rw [htm] at hfound
            cases hfound
          | some tm =>
            rw [htm] at hfound
            cases tm <;> cases hfound
        · rw [if_neg hmeta] at hfast
          rw [Option.not_isSome_iff_eq_none.mp hmeta] at hlook
          exact .inl (.absent hallow hlook (by rw [opGetTable, Act.bind_of_ok hfast]; rfl))
      | false =>
        rw [hnil, if_neg Bool.false_ne_true] at hfast hlook
        refine .inl (.found hallow hget hnil hlook ?_)
        rw [opGetTable]
        change Act.andThen _ _ s = _
        rw [Act.andThen, hfast]
        rfl
    · refine .inr ⟨opGetTable_of_none (tryPlainTableGet_denied hallow), fun r' v heq hallow' => ?_⟩
      cases heq
      exact absurd hallow' hallow
  · exact .inr ⟨opGetTable_of_none (tryPlainTableGet_other fun r hr => htab ⟨r, hr⟩),
      fun r v heq => absurd ⟨r, heq⟩ htab⟩

/-- A value that the fast path has returned is what `gettable` returns, if it taints nothing and is not wrapped. -/
theorem agree_fast_iff (key : Val) {t : Table} {v : Val} (hget : s.tables.gc.heap.get r = some t)
    (hnil : v.isNil = false) :
    (some (s.propagateSlotReadTaint r key, [], .ok (.value v)) :
        Option (AccessState × List Unit × Except LuaError SecretM.ReadResult)).map
          (fun res => (res.1, res.2.2.toOption)) =
        (readAnswer (s.tables.valueWrapsContents (.table r)) (.table r) (.found v) s).map
          (fun res => (res.1, res.2.2.toOption)) ↔
      ¬ s.PicksUp key r ∧ ¬ s.WrapsValue r v := by
  obtain ⟨frames, hframes, hsame⟩ := propagateSlotReadTaint_eq key hget
  rw [readAnswer_found, hframes, ← hsame]
  change _ = Option.map _ (Option.map _ (s.tables.wrapContentsResult v (s.tables.tableWrapsContents r))) ↔ _
  by_cases hwraps : s.WrapsValue r v
  · rw [hwraps.1]
    refine iff_of_false (fun h => ?_) fun h => h.2 hwraps
    cases hwrap : s.tables.wrapContentsResult v true with
    | none =>
      rw [hwrap] at h
      cases h
    | some res =>
      rw [hwrap] at h
      simp only [Option.map_some, Option.some.injEq, Prod.mk.injEq] at h
      have hseq := udAllocSeq_wrapContentsResult hnil hwraps.2 hwrap
      have hsame : s.tables = res.1 := congrArg AccessState.tables h.1
      rw [← hsame] at hseq
      exact absurd hseq (Nat.ne_of_lt (Nat.lt_succ_self _))
  · have hplain : s.tables.wrapContentsResult v (s.tables.tableWrapsContents r) = some (s.tables, v) := by
      rw [SecretTables.wrapContentsResult, if_neg]
      rw [hnil]
      intro h
      simp only [Bool.not_false, Bool.and_true, Bool.and_eq_true, Bool.not_eq_true'] at h
      exact hwraps h
    rw [hplain]
    simp only [Option.map_some, Option.some.injEq, Prod.mk.injEq, and_true]
    refine ⟨fun h => ⟨congrArg AccessState.frames h, hwraps⟩, ?_⟩
    rintro ⟨rfl, -⟩
    rfl

theorem not_found_other {l : Look} {v : Val} (hother : ∀ r, last ≠ .table r) (h : s.look .index key last = some l) :
    l ≠ .found v := by
  rw [look_other hother] at h
  cases Option.some.inj h
  cases s.tables.gc.gettmbyobj last .index with
  | none => nofun
  | some tm => cases tm <;> nofun

/-- `gettable` is `GETTABLE` exactly where looking for the field comes to the same for both. -/
theorem agree_gettable (hread : s.Readable key) (t : Val) : Agree (opGetTable t key) (gettable t key) s ↔
    ∀ passed last l, s.Ends .index key s.readTarget TableM.maxTagLoop t passed last l →
      s.ReadsAlike key t passed last l := by
  by_cases hends : ∃ passed last l, s.Ends .index key s.readTarget TableM.maxTagLoop t passed last l
  · obtain ⟨passed, last, l, hends⟩ := hends
    have hcond : (∀ passed last l, s.Ends .index key s.readTarget TableM.maxTagLoop t passed last l →
        s.ReadsAlike key t passed last l) ↔ s.ReadsAlike key t passed last l := by
      refine ⟨fun h => h _ _ _ hends, fun h passed' last' l' hends' => ?_⟩
      obtain ⟨rfl, rfl, rfl⟩ := hends.unique hends'
      exact h
    have hapi := resolveGettableChain_ends false hread hends
    rw [Bool.false_or] at hapi
    rw [hcond]
    rcases opGetTable_cases hread t with hfast | ⟨hvm, hnot⟩
    · cases hfast with
      | @absent r hallow hlook hrun =>
        obtain ⟨rfl, rfl, rfl⟩ := hends.unique ⟨.here rfl, hlook, trivial⟩
        refine iff_of_true ?_ (.of_not_found (fun r' hr' => ?_) fun v h => by cases h)
        · refine Agree.trans ?_ hapi.symm
          rw [Agree, hrun]
          rfl
        · cases List.mem_singleton.mp hr'
          exact hallow
      | @found r u v hallow hget hnil hlook hrun =>
        obtain ⟨rfl, rfl, rfl⟩ := hends.unique ⟨.here rfl, hlook, trivial⟩
        rw [List.nil_append, List.any_cons, List.any_nil, Bool.or_false] at hapi
        have hiff := agree_fast_iff key hget hnil
        rw [← hrun] at hiff
        refine (Agree.congr (.refl _ _) hapi).trans
          (hiff.trans ⟨fun h => ⟨fun r' hr' => ?_, ?_, ?_⟩, fun h => ⟨?_, ?_⟩⟩)
        · cases List.mem_singleton.mp hr'
          exact hallow
        · intro v' r' _ heq hpicks
          cases heq
          exact absurd hpicks h.1
        · intro v' r' hv' heq _
          cases hv'
          cases heq
          exact h.2
        · exact fun hpicks => (h.taint v r rfl rfl hpicks).1 rfl
        · exact h.plain v r rfl rfl rfl
    · by_cases hallows : s.AllowsAll key (passed ++ [last])
      · have hrun := vmGettableLoop_ends false hread hends hallows
        rw [Bool.false_or] at hrun
        have hvm' : Agree (opGetTable t key) (vmGettableLoop key TableM.maxTagLoop t false) s := .of_eq hvm
        refine (Agree.congr (hvm'.trans hrun) hapi).trans ?_
        cases l with
        | found v =>
          by_cases htab : ∃ r, last = .table r
          · obtain ⟨r, rfl⟩ := htab
            have hallow := hallows r (List.mem_append_right _ (List.mem_singleton_self _))
            obtain ⟨u, hget⟩ := exists_of_allows hallow
            have hne : t ≠ .table r := by
              rintro rfl
              exact hnot r v rfl hallow hends.2.1
            refine (agree_found_iff hget v).trans ⟨fun h => ⟨hallows, ?_, ?_⟩, fun h hpicks => ?_⟩
            · intro v' r' hv' heq hpicks
              cases hv'
              cases heq
              exact ⟨hne, h hpicks⟩
            · exact fun _ _ _ _ heq => absurd heq hne
            · exact (h.taint v r rfl rfl hpicks).2
          · exact absurd rfl (not_found_other (fun r hr => htab ⟨r, hr⟩) hends.2.1)
        | _ => exact iff_of_true (.refl _ _) (.of_not_found hallows fun v h => by cases h)
      · have hrun := vmGettableLoop_ends_denied false hread hends hallows ⟨"tainted access"⟩
        refine iff_of_false (fun h => ?_) fun h => hallows h.allowed
        rw [Agree, hvm] at h
        exact not_readAnswer_fail hends.2.2 _ (hapi.symm.trans ((Eq.symm h).trans hrun))
  · rw [not_exists] at hends
    have hnone : ∀ passed last l, ¬ s.Ends .index key s.readTarget TableM.maxTagLoop t passed last l :=
      fun passed last l h => hends passed ⟨last, l, h⟩
    refine iff_of_true ?_ fun passed last l h => absurd h (hnone passed last l)
    have hapi := resolveGettableChain_fails false hread hnone ⟨"loop in gettable"⟩
    rcases opGetTable_cases hread t with hfast | ⟨hvm, -⟩
    · cases hfast with
      | absent hallow hlook _ => exact absurd ⟨.here rfl, hlook, trivial⟩ (hnone [] _ _)
      | found hallow hget hnil hlook _ => exact absurd ⟨.here rfl, hlook, trivial⟩ (hnone [] _ _)
    · have hfails := vmGettableLoop_fails false hread hnone ⟨"loop in gettable"⟩
      rw [Agree, hvm]
      exact hfails.trans hapi.symm

end Ends

end AccessM

end Rilua.Vm
