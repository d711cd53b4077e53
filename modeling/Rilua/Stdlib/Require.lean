import Rilua.Lib.Run
import Rilua.Lib.Utf8Lossy
import Rilua.Vm.Value
import Mathlib.Data.List.Basic
import Mathlib.Logic.Function.Basic

/-! `require` (`stdlib/package.rs`). It marks the entry of a module as being loaded, asks the searchers for a loader
    and runs it. What it calls may do anything in between, also require further modules or the same one, and errors
    leave every call of `require` that they pass through. -/

namespace Rilua.Package

open Lib Vm Gc

/-- A table as `require` uses it: fields with string keys, positions, and the protection against writes. -/
structure PackageTable where
  field : List UInt8 → Val
  position : ℕ → Val
  readOnly : Bool

/-- Whether a value counts as true. -/
def isTruthy : Val → Bool
  | .nil | .bool false => false
  | _ => true

/-- What `require` sees: two fields of the package table, the tables and strings that are alive, and the test of a
    value, which fails on a secret where the caller may not know it. -/
structure Store where
  loadedField : Val
  loadersField : Val
  tables : GcRef .table → Option PackageTable
  strings : GcRef .string → List UInt8
  checkedTruthiness : Val → Except String Bool
  checkedTruthiness_plain : ∀ v, (∀ r, v ≠ .userdata r) → checkedTruthiness v = .ok (isTruthy v)

/-- The mark of a module that is being loaded. -/
def sentinel : Val := .lightUserdata 0xDEADCAFE

/-- The string key for a name. -/
def keyBytes (name : String) : List UInt8 := name.toByteArray.data.toList

/-- A table and the name of a module: the place of the module's entry. -/
abbrev Entry := GcRef .table × String

namespace Store

/-- The entry, if its table is alive. -/
def field? (s : Store) (e : Entry) : Option Val := (s.tables e.1).map fun t => t.field (keyBytes e.2)

def setEntry (s : Store) (e : Entry) (v : Val) : Store :=
  let table := (s.tables e.1).map fun t => { t with field := Function.update t.field (keyBytes e.2) v }
  { s with tables := Function.update s.tables e.1 table }

/-- A raw store to the entry. -/
def rawSet (s : Store) (e : Entry) (v : Val) : Except String Store :=
  match s.tables e.1 with
  | none => .error "package.loaded table not found"
  | some t => if t.readOnly then .error "attempt to modify a read-only table" else .ok (s.setEntry e v)

/-- The text of a string. -/
def text (s : Store) (r : GcRef .string) : String := fromUtf8Lossy (s.strings r)

/-- The entry counts as false. -/
def Falsy (s : Store) (e : Entry) : Prop := ∃ v, s.field? e = some v ∧ s.checkedTruthiness v = .ok false

end Store

/-- How far a call of `require` has come: it has called searcher `i`, with the messages of the ones before, or the
    loader. -/
inductive Stage where
  | searching (i : ℕ) (errorMsg : String)
  | running
  deriving DecidableEq

/-- A call of `require` that waits for what it has called. -/
structure Request where
  entry : Entry
  loaders : GcRef .table
  stage : Stage
  deriving DecidableEq

/-- How `require` goes on: it ends, or calls `f` with the name. -/
inductive Outcome where
  | returns (v : Val)
  | raises (msg : String)
  | calls (f : Val) (r : Request)

def loopError (name : String) : String := "loop or previous error loading module '" ++ name ++ "'"

def notFound (name errorMsg : String) : String := "module '" ++ name ++ "' not found:" ++ errorMsg

/-- Goes on after a store, which may fail. -/
def afterSet (s : Store) (e : Entry) (v : Val) (next : Store → Store × Outcome) : Store × Outcome :=
  match s.rawSet e v with
  | .error msg => (s, .raises msg)
  | .ok s' => next s'

/-- The loop over the searchers, from the `i`-th one on. -/
def searchFrom (s : Store) (e : Entry) (loaders : GcRef .table) (i : ℕ) (errorMsg : String) : Store × Outcome :=
  match s.tables loaders with
  | none => (s, .raises "package.loaders table not found")
  | some t =>
    match t.position i with
    | .nil => afterSet s e .nil fun s' => (s', .raises (notFound e.2 errorMsg))
    | loader => (s, .calls loader ⟨e, loaders, .searching i errorMsg⟩)

/-- `require` up to its first call. -/
def requireName (s : Store) (name : String) : Store × Outcome :=
  match s.loadedField with
  | .table loaded =>
    match s.field? (loaded, name) with
    | none => (s, .raises "package.loaded table not found")
    | some cached =>
      match s.checkedTruthiness cached with
      | .error msg => (s, .raises msg)
      | .ok true => if cached = sentinel then (s, .raises (loopError name)) else (s, .returns cached)
      | .ok false =>
        match s.loadersField with
        | .table loaders => afterSet s (loaded, name) sentinel fun s' => searchFrom s' (loaded, name) loaders 1 ""
        | _ => (s, .raises "'package.loaders' must be a table")
  | _ => (s, .raises "'package.loaded' must be a table")

/-- `require`. Its argument has to be a string. -/
def llRequire (s : Store) : Val → Store × Outcome
  | .str r => requireName s (s.text r)
  | _ => (s, .raises "bad argument #1 to 'require' (string expected)")

/-- The end of `require`, after its last store. -/
def finish (s : Store) (e : Entry) : Store × Outcome :=
  match s.field? e with
  | none => (s, .raises "package.loaded table not found")
  | some final =>
    if final = sentinel then afterSet s e (.bool true) fun s' => (s', .returns (.bool true))
    else (s, .returns final)

/-- `require` goes on when what it called has returned `result`. -/
def resume (s : Store) (r : Request) (result : Val) : Store × Outcome :=
  match r.stage with
  | .searching i errorMsg =>
    match result with
    | .function f => (s, .calls (.function f) { r with stage := .running })
    | .str msg => searchFrom s r.entry r.loaders (i + 1) (errorMsg ++ s.text msg)
    | _ => searchFrom s r.entry r.loaders (i + 1) errorMsg
  | .running => if result = .nil then finish s r.entry else afterSet s r.entry result fun s' => finish s' r.entry

/-! ### Runs -/

/-- The calls of `require` in progress, innermost first. -/
structure Machine where
  store : Store
  active : List Request

/-- What happens next: code changes the store, calls `require`, and what the innermost call of `require` has called
    returns or raises an error. -/
inductive Turn where
  | code (store : Store)
  | require (arg : Val)
  | returned (result : Val)
  | raised

namespace Machine

def start (s : Store) : Machine := ⟨s, []⟩

/-- The call of `require` on top of `rest` goes on. -/
def goOn (rest : List Request) : Store × Outcome → Machine
  | (s, .calls _ r) => ⟨s, r :: rest⟩
  | (s, .returns _) => ⟨s, rest⟩
  | (s, .raises _) => ⟨s, rest⟩

def step (m : Machine) : Turn → Option Machine
  | .code store => some { m with store }
  | .require arg => some (goOn m.active (llRequire m.store arg))
  | .returned result =>
    match m.active with
    | [] => none
    | r :: rest => some (goOn rest (resume m.store r result))
  | .raised =>
    match m.active with
    | [] => none
    | _ :: rest => some { m with active := rest }

/-- The turn starts the loader of a module. -/
def StartsLoader (m : Machine) (e : Entry) (turn : Turn) : Prop :=
  ∃ r rest i errorMsg f, m.active = r :: rest ∧ r.entry = e ∧ r.stage = .searching i errorMsg ∧
    turn = .returned (.function f)

/-- Is a call of `require` in progress for the field? -/
def Requires (m : Machine) (e : Entry) : Prop := ∃ r ∈ m.active, r.entry = e

/-- The loader of the module runs. -/
def Runs (m : Machine) (e : Entry) : Prop := ∃ r ∈ m.active, r.entry = e ∧ r.stage = .running

/-- Code makes no entry false whose module is being searched for. -/
def SparesSearches (m : Machine) : Turn → Prop
  | .code store => ∀ r ∈ m.active, r.stage ≠ .running → ¬ store.Falsy r.entry
  | _ => True

/-- Code leaves the entry of a module that is being required. -/
def LeavesEntry (e : Entry) (m : Machine) : Turn → Prop
  | .code store => m.Requires e → store.field? e = m.store.field? e
  | _ => True

end Machine

/-! ### Entries -/

theorem keyBytes_injective : Function.Injective keyBytes := fun a b h => by
  rw [← fromUtf8Lossy_toByteArray a, ← fromUtf8Lossy_toByteArray b]
  exact congrArg fromUtf8Lossy h

namespace Store

variable {s s' : Store} {e e' : Entry} {v : Val}

theorem field?_setEntry_self (h : (s.tables e.1).isSome) : (s.setEntry e v).field? e = some v := by
  obtain ⟨t, ht⟩ := Option.isSome_iff_exists.mp h
  simp [setEntry, field?, ht]

theorem field?_setEntry_of_ne (hne : e' ≠ e) : (s.setEntry e v).field? e' = s.field? e' := by
  rcases eq_or_ne e'.1 e.1 with htable | htable
  · have hname : keyBytes e'.2 ≠ keyBytes e.2 := fun hkey =>
      hne (Prod.ext htable (keyBytes_injective hkey))
    cases ht : s.tables e.1 <;> simp [setEntry, field?, htable, ht, hname]
  · simp [setEntry, field?, htable]

/-- What a raw store does, if it succeeds. -/
theorem rawSet_eq_ok (h : s.rawSet e v = .ok s') :
    s'.field? e = some v ∧ ∀ e', e' ≠ e → s'.field? e' = s.field? e' := by
  rw [rawSet] at h
  cases ht : s.tables e.1 with
  | none => simp [ht] at h
  | some t =>
    rw [ht] at h
    simp only at h
    split_ifs at h
    cases h
    exact ⟨field?_setEntry_self (by simp [ht]), fun e' hne => field?_setEntry_of_ne hne⟩

@[simp] theorem checkedTruthiness_setEntry : (s.setEntry e v).checkedTruthiness = s.checkedTruthiness := rfl

theorem rawSet_truthiness (h : s.rawSet e v = .ok s') : s'.checkedTruthiness = s.checkedTruthiness := by
  rw [rawSet] at h
  cases ht : s.tables e.1 with
  | none => simp [ht] at h
  | some t =>
    rw [ht] at h
    simp only at h
    split_ifs at h
    cases h
    rfl

theorem not_falsy_of_sentinel (h : s.field? e = some sentinel) : ¬ s.Falsy e := by
  rintro ⟨v, hv, hfalse⟩
  obtain rfl := Option.some.inj (h.symm.trans hv)
  rw [s.checkedTruthiness_plain sentinel (by simp [sentinel])] at hfalse
  cases hfalse

end Store

/-! ### What one step does

A step of a call of `require` writes no entry but its own. -/

/-- What a call of `require` for `e` may do in a step: other entries stay; where it goes on, it calls a searcher or the
    loader; where it returns a value, this is the entry. -/
structure Steps (s : Store) (e : Entry) (out : Store × Outcome) : Prop where
  truthiness : out.1.checkedTruthiness = s.checkedTruthiness
  others : ∀ e', e' ≠ e → out.1.field? e' = s.field? e'
  calls : ∀ f r, out.2 = .calls f r → r.entry = e ∧ out.1 = s
  returned : ∀ v, out.2 = .returns v → out.1.field? e = some v

variable {s s' : Store} {e : Entry} {v : Val}

theorem Steps.raises (msg : String) : Steps s e (s, .raises msg) :=
  ⟨rfl, fun _ _ => rfl, nofun, nofun⟩

/-- A store of its own, followed by steps that call nothing. -/
theorem Steps.afterSet {next : Store → Store × Outcome} (h : ∀ s', Steps s' e (next s'))
    (hret : ∀ s' f r, (next s').2 ≠ .calls f r) : Steps s e (afterSet s e v next) := by
  rw [Package.afterSet]
  cases hset : s.rawSet e v with
  | error msg => exact .raises msg
  | ok s' =>
    obtain ⟨htruth, hothers, -, hreturned⟩ := h s'
    exact ⟨htruth.trans (Store.rawSet_truthiness hset),
      fun e' hne => (hothers e' hne).trans ((Store.rawSet_eq_ok hset).2 e' hne),
      fun f r hcalls => absurd hcalls (hret s' f r), hreturned⟩

theorem steps_searchFrom (s : Store) (e : Entry) (loaders : GcRef .table) (i : ℕ) (errorMsg : String) :
    Steps s e (searchFrom s e loaders i errorMsg) := by
  rw [searchFrom]
  split
  · exact .raises _
  · split
    · exact .afterSet (fun s' => .raises _) fun s' f r => by simp
    · exact ⟨rfl, fun _ _ => rfl, fun f r h => by cases h; exact ⟨rfl, rfl⟩, nofun⟩

theorem finish_ne_calls (s : Store) (e : Entry) (f : Val) (r : Request) : (finish s e).2 ≠ .calls f r := by
  rw [finish, afterSet]
  intro h
  split at h
  · cases h
  · split at h
    · split at h <;> cases h
    · cases h

theorem steps_finish (s : Store) (e : Entry) : Steps s e (finish s e) := by
  rw [finish]
  split
  · exact .raises _
  · next final hfinal =>
    split
    · rw [afterSet]
      split
      · exact .raises _
      · next s' hset =>
        obtain ⟨hentry, hothers⟩ := Store.rawSet_eq_ok hset
        exact ⟨Store.rawSet_truthiness hset, hothers, nofun, fun v h => by cases h; exact hentry⟩
    · exact ⟨rfl, fun _ _ => rfl, nofun, fun v h => by cases h; exact hfinal⟩

theorem resume_running {r : Request} (h : r.stage = .running) (s : Store) (result f : Val) (r' : Request) :
    (resume s r result).2 ≠ .calls f r' := by
  rw [resume, h]
  simp only
  split
  · exact finish_ne_calls s r.entry f r'
  · rw [afterSet]
    split
    · simp
    · next s' _ => exact finish_ne_calls s' r.entry f r'

theorem steps_resume (s : Store) (r : Request) (result : Val) : Steps s r.entry (resume s r result) := by
  rw [resume]
  split
  · split
    · exact ⟨rfl, fun _ _ => rfl, fun f r' h => by cases h; exact ⟨rfl, rfl⟩, nofun⟩
    · exact steps_searchFrom ..
    · exact steps_searchFrom ..
  · split
    · exact steps_finish ..
    · exact .afterSet (fun s' => steps_finish s' _) fun s' => finish_ne_calls s' _

/-- What `require` does up to its first call: it ends where it began, or it has found the entry false, marked it and
    begun to search. -/
theorem requireName_cases (s : Store) (name : String) :
    ((requireName s name).1 = s ∧ (∀ f r, (requireName s name).2 ≠ .calls f r) ∧
      ∀ v, (requireName s name).2 = .returns v →
        ∃ loaded, s.loadedField = .table loaded ∧ s.field? (loaded, name) = some v) ∨
    ∃ loaded loaders s', s.loadedField = .table loaded ∧ s.Falsy (loaded, name) ∧
      s.rawSet (loaded, name) sentinel = .ok s' ∧
      requireName s name = searchFrom s' (loaded, name) loaders 1 "" := by
  rw [requireName]
  split
  · next loaded hloaded =>
    split
    · exact .inl ⟨rfl, nofun, nofun⟩
    · next cached hcached =>
      split
      · exact .inl ⟨rfl, nofun, nofun⟩
      · split
        · exact .inl ⟨rfl, nofun, nofun⟩
        · exact .inl ⟨rfl, nofun, fun v h => by cases h; exact ⟨loaded, hloaded, hcached⟩⟩
      · next hfalse =>
        split
        · next loaders _ =>
          rw [afterSet]
          split
          · exact .inl ⟨rfl, nofun, nofun⟩
          · next s' hset => exact .inr ⟨loaded, loaders, s', hloaded, ⟨cached, hcached, hfalse⟩, hset, rfl⟩
        · exact .inl ⟨rfl, nofun, nofun⟩
  · exact .inl ⟨rfl, nofun, nofun⟩

end Rilua.Package
