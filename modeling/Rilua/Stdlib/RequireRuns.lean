import Rilua.Stdlib.Require

/-! What holds in all runs of `require`: how often a loader runs, when a module finds itself being loaded, and what is
    left in the table of loaded modules. -/

namespace Rilua.Package

open Lib Vm Gc

namespace Machine

variable {m m' : Machine} {e : Entry} {turn : Turn}

/-! ### Searches -/

/-- A module that is being searched for has a true entry, and no further call of `require` for it has begun. -/
structure Exclusive (m : Machine) : Prop where
  apart : m.active.Pairwise fun r r' => r'.stage ≠ .running → r'.entry ≠ r.entry
  marked : ∀ r ∈ m.active, r.stage ≠ .running → ¬ m.store.Falsy r.entry

theorem Falsy.congr {s s' : Store} (htruth : s'.checkedTruthiness = s.checkedTruthiness)
    (hentry : s'.field? e = s.field? e) : s'.Falsy e ↔ s.Falsy e := by
  rw [Store.Falsy, Store.Falsy, htruth, hentry]

/-- A call of `require` for `e` on top of others goes on, which do not search for `e`. -/
theorem Exclusive.goOn {s : Store} {rest : List Request} {out : Store × Outcome} (h : Exclusive ⟨s, rest⟩)
    (hsteps : Steps s e out) (hapart : ∀ r ∈ rest, r.stage ≠ .running → r.entry ≠ e)
    (hmarked : ∀ f r, out.2 = .calls f r → r.stage ≠ .running → ¬ s.Falsy e) : Exclusive (goOn rest out) := by
  have hrest : ∀ r ∈ rest, r.stage ≠ .running → ¬ out.1.Falsy r.entry := fun r hr hstage => by
    rw [Falsy.congr hsteps.truthiness (hsteps.others _ (hapart r hr hstage))]
    exact h.marked r hr hstage
  obtain ⟨s', outcome⟩ := out
  cases outcome with
  | returns v => exact ⟨h.apart, hrest⟩
  | raises msg => exact ⟨h.apart, hrest⟩
  | calls f r =>
    obtain ⟨rfl, rfl⟩ := hsteps.calls f r rfl
    refine ⟨List.pairwise_cons.mpr ⟨hapart, h.apart⟩, ?_⟩
    rintro r' (_ | ⟨_, hr'⟩) hstage
    · exact hmarked f r rfl hstage
    · exact hrest r' hr' hstage

/-- `require` leaves everything as it is, or begins to search. -/
theorem step_require {arg : Val} (h : m.step (.require arg) = some m') :
    m' = m ∨ ∃ e s' loaders, m.store.loadedField = .table e.1 ∧ m.store.Falsy e ∧
      m.store.rawSet e sentinel = .ok s' ∧ m' = goOn m.active (searchFrom s' e loaders 1 "") := by
  simp only [step, Option.some.injEq] at h
  subst h
  have hstay : ∀ {out : Store × Outcome}, out.1 = m.store → (∀ f r, out.2 ≠ .calls f r) → goOn m.active out = m := by
    rintro ⟨s, outcome⟩ rfl hne
    cases outcome with
    | calls f r => exact absurd rfl (hne f r)
    | returns v => rfl
    | raises msg => rfl
  cases arg with
  | str r =>
    rcases requireName_cases m.store (m.store.text r) with ⟨hstore, hne, -⟩ | ⟨loaded, loaders, s', hl, hf, hset, heq⟩
    · exact .inl (hstay hstore hne)
    · exact .inr ⟨(loaded, m.store.text r), s', loaders, hl, hf, hset, by rw [llRequire, heq]⟩
  | _ => exact .inl (hstay rfl (by simp [llRequire]))

theorem Exclusive.step (h : Exclusive m) (hspares : m.SparesSearches turn) (hstep : m.step turn = some m') :
    Exclusive m' := by
  cases turn with
  | code store =>
    cases hstep
    exact ⟨h.apart, hspares⟩
  | require arg =>
    rcases step_require hstep with rfl | ⟨e, s', loaders, -, hfalse, hset, rfl⟩
    · exact h
    · obtain ⟨hentry, hothers⟩ := Store.rawSet_eq_ok hset
      have hapart : ∀ r ∈ m.active, r.stage ≠ .running → r.entry ≠ e := by
        rintro r hr hstage rfl
        exact h.marked r hr hstage hfalse
      have hexcl : Exclusive ⟨s', m.active⟩ := ⟨h.apart, fun r hr hstage => by
        rw [Falsy.congr (Store.rawSet_truthiness hset) (hothers _ (hapart r hr hstage))]
        exact h.marked r hr hstage⟩
      exact hexcl.goOn (steps_searchFrom ..) hapart fun _ _ _ _ => Store.not_falsy_of_sentinel hentry
  | returned result =>
    obtain ⟨s, active⟩ := m
    cases active with
    | nil => cases hstep
    | cons r rest =>
      cases hstep
      obtain ⟨hhead, hrest⟩ := List.pairwise_cons.mp h.apart
      have hexcl : Exclusive ⟨s, rest⟩ := ⟨hrest, fun r' hr' => h.marked r' (List.mem_cons_of_mem _ hr')⟩
      refine hexcl.goOn (steps_resume s r result) hhead fun f r' hcalls hstage => ?_
      have hsearching : r.stage ≠ .running := fun hrunning => resume_running hrunning s result f r' hcalls
      exact h.marked r List.mem_cons_self hsearching
  | raised =>
    obtain ⟨s, active⟩ := m
    cases active with
    | nil => cases hstep
    | cons r rest =>
      cases hstep
      exact ⟨(List.pairwise_cons.mp h.apart).2, fun r' hr' => h.marked r' (List.mem_cons_of_mem _ hr')⟩

theorem exclusive_of_run {s : Store} {turns : List Turn} (hrun : Run step SparesSearches (start s) turns m) :
    Exclusive m :=
  hrun.invariant Exclusive (fun _ _ _ h hspares hstep => h.step hspares hstep) ⟨.nil, nofun⟩

/-- No call of `require` searches for the module. -/
def NoSearch (e : Entry) (m : Machine) : Prop := ∀ r ∈ m.active, r.entry = e → r.stage = .running

/-- When its loader starts, no other call of `require` searches for the module. -/
theorem Exclusive.noSearch (h : Exclusive m) (hstarts : m.StartsLoader e turn) (hstep : m.step turn = some m') :
    NoSearch e m' := by
  obtain ⟨r, rest, i, errorMsg, f, hactive, rfl, hstage, rfl⟩ := hstarts
  obtain ⟨s, active⟩ := m
  obtain rfl : active = r :: rest := hactive
  have hm : m' = ⟨s, { r with stage := .running } :: rest⟩ := by
    simp only [Machine.step, resume, hstage, Option.some.injEq] at hstep
    exact hstep.symm
  subst hm
  rintro r' (_ | ⟨_, hr'⟩) hentry
  · rfl
  · by_contra hsearching
    exact (List.pairwise_cons.mp h.apart).1 r' hr' hsearching hentry

/-- As long as the entry is not false, no search for the module begins. -/
theorem NoSearch.step (h : NoSearch e m) (htrue : ¬ m.store.Falsy e) (hstep : m.step turn = some m') :
    NoSearch e m' := by
  cases turn with
  | code store =>
    cases hstep
    exact h
  | require arg =>
    rcases step_require hstep with rfl | ⟨e', s', loaders, -, hfalse, hset, rfl⟩
    · exact h
    · have hne : e' ≠ e := by
        rintro rfl
        exact htrue hfalse
      have hsteps := steps_searchFrom s' e' loaders 1 ""
      generalize searchFrom s' e' loaders 1 "" = out at hsteps
      obtain ⟨s'', outcome⟩ := out
      cases outcome with
      | returns v => exact h
      | raises msg => exact h
      | calls f r =>
        rintro r' (_ | ⟨_, hr'⟩) hentry
        · exact absurd ((hsteps.calls f r rfl).1.symm.trans hentry) hne
        · exact h r' hr' hentry
  | returned result =>
    obtain ⟨s, active⟩ := m
    cases active with
    | nil => cases hstep
    | cons r rest =>
      cases hstep
      have hsteps := steps_resume s r result
      have hrunning := fun hr => resume_running (r := r) hr s result
      generalize resume s r result = out at hsteps hrunning
      obtain ⟨s', outcome⟩ := out
      cases outcome with
      | returns v => exact fun r' hr' => h r' (List.mem_cons_of_mem _ hr')
      | raises msg => exact fun r' hr' => h r' (List.mem_cons_of_mem _ hr')
      | calls f r₁ =>
        rintro r' (_ | ⟨_, hr'⟩) hentry
        · have hstage := h r List.mem_cons_self ((hsteps.calls f r₁ rfl).1.symm.trans hentry)
          exact absurd rfl (hrunning hstage f r₁)
        · exact h r' (List.mem_cons_of_mem _ hr') hentry
  | raised =>
    obtain ⟨s, active⟩ := m
    cases active with
    | nil => cases hstep
    | cons r rest =>
      cases hstep
      exact fun r' hr' => h r' (List.mem_cons_of_mem _ hr')

theorem NoSearch.not_starts (h : NoSearch e m) : ¬ m.StartsLoader e turn := by
  rintro ⟨r, rest, i, errorMsg, f, hactive, hentry, hstage, -⟩
  have := h r (by simp [hactive]) hentry
  simp [hstage] at this

/-! ### Modules being loaded -/

/-- The entry of a module that is being required has the mark, and there is one such call of `require` only. -/
structure Held (e : Entry) (m : Machine) : Prop where
  once : m.active.Pairwise fun r r' => r.entry = e → r'.entry ≠ e
  mark : m.Requires e → m.store.field? e = some sentinel

theorem Held.tail {s : Store} {r : Request} {rest : List Request} (h : Held e ⟨s, r :: rest⟩) : Held e ⟨s, rest⟩ where
  once := (List.pairwise_cons.mp h.once).2
  mark := fun ⟨r', hr', hentry⟩ => h.mark ⟨r', List.mem_cons_of_mem _ hr', hentry⟩

/-- A call of `require` on top of others goes on, the only one for its entry if this is `e`. -/
theorem Held.goOn {s : Store} {rest : List Request} {e' : Entry} {out : Store × Outcome} (h : Held e ⟨s, rest⟩)
    (hsteps : Steps s e' out) (hother : e' = e → ¬ Requires ⟨s, rest⟩ e)
    (hmark : e' = e → ∀ f r, out.2 = .calls f r → s.field? e = some sentinel) : Held e (goOn rest out) := by
  have hrest : Requires ⟨s, rest⟩ e → out.1.field? e = some sentinel := fun hreq => by
    rw [hsteps.others e (fun he => hother he.symm hreq)]
    exact h.mark hreq
  obtain ⟨s', outcome⟩ := out
  cases outcome with
  | returns v => exact ⟨h.once, hrest⟩
  | raises msg => exact ⟨h.once, hrest⟩
  | calls f r =>
    obtain ⟨rfl, rfl⟩ := hsteps.calls f r rfl
    refine ⟨List.pairwise_cons.mpr ⟨fun r' hr' he he' => hother he ⟨r', hr', he'⟩, h.once⟩, ?_⟩
    rintro ⟨r', _ | ⟨_, hr'⟩, hentry⟩
    · exact hmark hentry f r rfl
    · exact hrest ⟨r', hr', hentry⟩

theorem Held.step (h : Held e m) (hleaves : m.LeavesEntry e turn) (hstep : m.step turn = some m') : Held e m' := by
  cases turn with
  | code store =>
    cases hstep
    exact ⟨h.once, fun hreq => (hleaves hreq).trans (h.mark hreq)⟩
  | require arg =>
    rcases step_require hstep with rfl | ⟨e', s', loaders, -, hfalse, hset, rfl⟩
    · exact h
    · obtain ⟨hentry, hothers⟩ := Store.rawSet_eq_ok hset
      have hother : e' = e → ¬ m.Requires e := by
        rintro rfl hreq
        exact Store.not_falsy_of_sentinel (h.mark hreq) hfalse
      have hheld : Held e ⟨s', m.active⟩ := ⟨h.once, fun hreq => by
        rw [hothers e fun he => hother he.symm hreq]
        exact h.mark hreq⟩
      refine hheld.goOn (steps_searchFrom ..) hother ?_
      rintro rfl f r -
      exact hentry
  | returned result =>
    obtain ⟨s, active⟩ := m
    cases active with
    | nil => cases hstep
    | cons r rest =>
      cases hstep
      refine h.tail.goOn (steps_resume s r result) ?_ fun he _ _ _ => h.mark ⟨r, List.mem_cons_self, he⟩
      rintro he ⟨r', hr', he'⟩
      exact (List.pairwise_cons.mp h.once).1 r' hr' he he'
  | raised =>
    obtain ⟨s, active⟩ := m
    cases active with
    | nil => cases hstep
    | cons r rest =>
      cases hstep
      exact h.tail

theorem held_of_run {s : Store} {turns : List Turn} (hrun : Run step (LeavesEntry e) (start s) turns m) : Held e m :=
  hrun.invariant (Held e) (fun _ _ _ h hleaves hstep => h.step hleaves hstep) ⟨.nil, fun ⟨_, hr, _⟩ => nomatch hr⟩

end Machine

/-! ### The end of a call -/

theorem requireName_of_sentinel {s : Store} {loaded : GcRef .table} {name : String}
    (hloaded : s.loadedField = .table loaded)
    (hentry : s.field? (loaded, name) = some sentinel) : requireName s name = (s, .raises (loopError name)) := by
  have htrue : s.checkedTruthiness sentinel = .ok true := s.checkedTruthiness_plain sentinel (by simp [sentinel])
  rw [requireName, hloaded]
  simp only [hentry, htrue, if_true]

/-- A module whose entry is false is searched for, from the first searcher on. -/
theorem requireName_of_falsy {s s' : Store} {loaded loaders : GcRef .table} {name : String}
    (hloaded : s.loadedField = .table loaded) (hloaders : s.loadersField = .table loaders)
    (hfalse : s.Falsy (loaded, name)) (hset : s.rawSet (loaded, name) sentinel = .ok s') :
    requireName s name = searchFrom s' (loaded, name) loaders 1 "" := by
  obtain ⟨v, hv, htruth⟩ := hfalse
  rw [requireName, hloaded]
  simp only [hv, htruth, hloaders]
  rw [afterSet, hset]

theorem requireName_returns {s : Store} {name : String} {v : Val} (h : (requireName s name).2 = .returns v) :
    ∃ loaded, s.loadedField = .table loaded ∧ (requireName s name).1.field? (loaded, name) = some v := by
  rcases requireName_cases s name with ⟨hs, -, hret⟩ | ⟨loaded, loaders, s', hloaded, -, -, heq⟩
  · rw [hs]
    exact hret v h
  · rw [heq] at h ⊢
    exact ⟨loaded, hloaded, (steps_searchFrom ..).returned v h⟩

/-- When no searcher is left, the entry becomes nil. -/
theorem searchFrom_notFound {s s' : Store} {e : Entry} {loaders : GcRef .table} {t : PackageTable} {i : ℕ}
    (errorMsg : String) (ht : s.tables loaders = some t) (hi : t.position i = .nil) (hset : s.rawSet e .nil = .ok s') :
    searchFrom s e loaders i errorMsg = (s', .raises (notFound e.2 errorMsg)) ∧ s'.field? e = some .nil := by
  refine ⟨?_, (Store.rawSet_eq_ok hset).1⟩
  rw [searchFrom, ht]
  simp only [hi]
  rw [afterSet, hset]

theorem Store.falsy_of_nil {s : Store} {e : Entry} (h : s.field? e = some .nil) : s.Falsy e :=
  ⟨.nil, h, s.checkedTruthiness_plain .nil (by simp)⟩

theorem Store.text_keyBytes {s : Store} {r : GcRef .string} {name : String} (h : s.strings r = keyBytes name) :
    s.text r = name := by
  rw [Store.text, h, keyBytes, fromUtf8Lossy_toByteArray]

/-! ### The protocol -/

namespace Machine

/-- Between two starts of the loader of a module, its entry is false at some point. -/
def RunsOnceWhileTrue : Prop :=
  ∀ (s : Store) (turns turns' : List Turn) (m₀ m₁ m₂ : Machine) (e : Entry) (turn turn' : Turn),
    Run step SparesSearches (start s) turns m₀ → m₀.StartsLoader e turn → m₀.step turn = some m₁ →
    Run step (fun _ _ => True) m₁ turns' m₂ → Always step (fun m => ¬ m.store.Falsy e) m₁ turns' →
    ¬ m₂.StartsLoader e turn'

/-- A module that is required while it is loaded, and whose entry has been left alone, is not loaded again. -/
def DetectsLoops : Prop :=
  ∀ (s : Store) (turns : List Turn) (m : Machine) (e : Entry) (arg : GcRef .string),
    Run step (LeavesEntry e) (start s) turns m → m.Runs e → m.store.loadedField = .table e.1 →
    m.store.strings arg = keyBytes e.2 → llRequire m.store (.str arg) = (m.store, .raises (loopError e.2))

/-- What `require` returns, at once or in the end, is the entry in the table that it found in `package.loaded`. -/
def ReturnsEntry : Prop :=
  (∀ (s : Store) (arg : GcRef .string) (v : Val), (llRequire s (.str arg)).2 = .returns v →
    ∃ loaded, s.loadedField = .table loaded ∧ (llRequire s (.str arg)).1.field? (loaded, s.text arg) = some v) ∧
  ∀ (s : Store) (r : Request) (result v : Val), (resume s r result).2 = .returns v →
    (resume s r result).1.field? r.entry = some v

/-- When no searcher finds a module, its entry is nil again, and the module can be searched for again. -/
def ForgetsNotFound : Prop :=
  ∀ (s s' : Store) (e : Entry) (loaders : GcRef .table) (t : PackageTable) (i : ℕ) (errorMsg : String),
    s.tables loaders = some t → t.position i = .nil → s.rawSet e .nil = .ok s' →
    searchFrom s e loaders i errorMsg = (s', .raises (notFound e.2 errorMsg)) ∧ s'.field? e = some .nil ∧
      ∀ later loaders' marked, later.field? e = some .nil → later.loadedField = .table e.1 →
        later.loadersField = .table loaders' → later.rawSet e sentinel = .ok marked →
        requireName later e.2 = searchFrom marked e loaders' 1 ""

theorem runsOnceWhileTrue : RunsOnceWhileTrue := by
  intro s turns turns' m₀ m₁ m₂ e turn turn' hrun hstarts hstep hrun' htrue
  have hstart : NoSearch e m₁ := (exclusive_of_run hrun).noSearch hstarts hstep
  have hsearch : NoSearch e m₂ :=
    hrun'.invariant_of_always (NoSearch e) (fun _ _ _ h htrue _ hstep => h.step htrue hstep) htrue hstart
  exact hsearch.not_starts

theorem detectsLoops : DetectsLoops := by
  rintro s turns m e arg hrun ⟨r, hr, hentry, -⟩ hloaded hname
  rw [llRequire, Store.text_keyBytes hname]
  exact requireName_of_sentinel hloaded ((held_of_run hrun).mark ⟨r, hr, hentry⟩)

end Machine

/-- A package with one searcher, and the module `m`. -/
def onePackage : Store where
  loadedField := .table ⟨0, 0⟩
  loadersField := .table ⟨1, 0⟩
  tables r :=
    if r = ⟨0, 0⟩ then some ⟨fun _ => .nil, fun _ => .nil, false⟩
    else if r = ⟨1, 0⟩ then some ⟨fun _ => .nil, fun i => if i = 1 then .function ⟨0, 0⟩ else .nil, false⟩
    else none
  strings _ := keyBytes "m"
  checkedTruthiness v := .ok (isTruthy v)
  checkedTruthiness_plain _ _ := rfl

def entryM : Entry := (⟨0, 0⟩, "m")

/-- The module `m` is being required, and its loader has been found. -/
def loadingM : Machine := ⟨onePackage.setEntry entryM sentinel, [⟨entryM, ⟨1, 0⟩, .running⟩]⟩

theorem run_loadingM (ok : Machine → Turn → Prop) (hok : ∀ m turn, (∀ store, turn ≠ .code store) → ok m turn) :
    Run Machine.step ok (.start onePackage) [.require (.str ⟨0, 0⟩), .returned (.function ⟨1, 0⟩)] loadingM := by
  have hname : onePackage.text ⟨0, 0⟩ = "m" := Store.text_keyBytes rfl
  have hset : onePackage.rawSet (⟨0, 0⟩, "m") sentinel = .ok (onePackage.setEntry entryM sentinel) := rfl
  have hsearch := requireName_of_falsy rfl rfl ⟨.nil, rfl, rfl⟩ hset
  have hfirst : (Machine.start onePackage).step (.require (.str ⟨0, 0⟩)) =
      some ⟨onePackage.setEntry entryM sentinel, [⟨entryM, ⟨1, 0⟩, .searching 1 ""⟩]⟩ := by
    rw [Machine.step, Machine.start, llRequire, hname, hsearch]
    rfl
  exact .cons (hok _ _ nofun) hfirst (.single (hok _ _ nofun) rfl)

end Rilua.Package
