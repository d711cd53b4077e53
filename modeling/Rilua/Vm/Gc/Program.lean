import Rilua.Vm.FailedStores
import Rilua.Vm.Gc.Mutator
import Rilua.Vm.OpenUpvalues
import Rilua.Vm.TableEntries

/-! The operations by which a program changes the heap. Each keeps what the steps of the collector keep, in every phase:
    those that allocate or intern because what is new is white, and those that write because of their barriers. -/

namespace Rilua.Vm

open Lib Gc

/-- A table whose nodes have no value where they have no key; other objects are not concerned. -/
def Gc.Obj.Tidy : {k : ObjKind} → Obj k → Prop
  | .table, t => Table.Tidy t
  | .string, _ | .closure, _ | .upvalue, _ | .userdata, _ | .thread, _ => True

namespace Gc

variable {W : ObjRef → Prop} {g g' : Gc} {k : ObjKind} {data : List UInt8}

/-! ### Allocation -/

/-- The object is written to, or nothing but the counters of the collector changes. -/
theorem Mutates.of_heap {heap : Heap} {totalBytes udAllocSeq : ℕ} (hinv : g.interning.Inv)
    (hslots : ∀ k, g.heap.slots k ≤ heap.slots k)
    (hcell : ∀ o x, g.heap.cell o = some x → ∃ y, heap.cell o = some y ∧
      (y.value = x.value ∨ W o ∧ o.kind ≠ .string ∧ o.kind ≠ .thread) ∧ y.flags = x.flags ∧ y.color = x.color)
    (hfresh : ∀ o y, g.heap.cell o = none → heap.cell o = some y → y.flags = {} ∧ y.color = g.currentWhite)
    (hrefs : ∀ o y, heap.cell o = some y → g.heap.cell o = none ∨ W o → y.color ≠ g.currentWhite.otherWhite →
      ∀ c ∈ Obj.refs y.value, g.Alive c)
    (htidy : ∀ o y, heap.cell o = some y → g.heap.cell o = none ∨ W o → Obj.Tidy y.value)
    (hstrings : heap.arena .string = g.heap.arena .string) :
    Mutates W g { g with heap, gcState := { g.gcState with totalBytes, udAllocSeq } } where
  frame := rfl
  slots_le := hslots
  cell o x hx := by
    obtain ⟨y, hy, hv, hf, hc⟩ := hcell o x hx
    exact ⟨y, hy, hv, hf, .inl hc⟩
  fresh o y hx hy := (hfresh o y hx hy).imp_right .inl
  refs o y hy hwhy hc c hcr := by
    obtain ⟨x, hx, hcx⟩ := hrefs o y hy hwhy hc c hcr
    obtain ⟨z, hz, -, -, hcz⟩ := hcell c x hx
    exact ⟨z, hz, hcz ▸ hcx⟩
  tidy r y hy hwhy := htidy _ y hy hwhy
  roots _ ho := ho
  roots_new _ ho := .inl ho
  interned := by
    rw [interning] at hinv ⊢
    change InternState.Inv ⟨g.strings, heap.arena .string, g.currentWhite⟩
    rw [hstrings]
    exact hinv

/-- An object that is allocated refers to what is alive. -/
theorem Mutates.alloc (hok : g.Ok) (hk : k ≠ .string) {x : Obj k} {size : ℕ} {r : GcRef k}
    (halloc : g.alloc k x size = some (g', r)) (hrefs : ∀ c ∈ Obj.refs x, g.Alive c) (htidy : Obj.Tidy x) :
    Mutates (fun _ => False) g g' ∧ g'.Alive ⟨k, r⟩ := by
  obtain ⟨⟨heap, r'⟩, halloc, heq⟩ := Option.bind_eq_some_iff.mp halloc
  cases heq
  have hself := Heap.cell_alloc_self halloc
  have hnew : ∀ o y, heap.cell o = some y → g.heap.cell o = none → o = ⟨k, r⟩ := by
    intro o y hy hx
    by_contra ho
    rw [Heap.cell_alloc_ne halloc ho, hx] at hy
    cases hy
  refine ⟨.of_heap hok.interned (Heap.slots_alloc halloc) (fun o y hy => ?_) (fun o y hx hy => ?_) (fun o y hy hwhy _ c hc => ?_)
    (fun o y hy hwhy => ?_) (Heap.arena_alloc_ne halloc hk.symm), ⟨_, hself, (Color.otherWhite_ne hok.white).symm⟩⟩
  · refine ⟨y, ?_, .inl rfl, rfl, rfl⟩
    rw [Heap.cell_alloc_ne halloc, hy]
    rintro rfl
    rw [Heap.cell_alloc_fresh halloc] at hy
    cases hy
  · obtain rfl := hnew o y hy hx
    rw [hself] at hy
    cases hy
    exact ⟨rfl, rfl⟩
  · obtain rfl := hnew o y hy (hwhy.resolve_right id)
    rw [hself] at hy
    cases hy
    exact hrefs c hc
  · obtain rfl := hnew o y hy (hwhy.resolve_right id)
    rw [hself] at hy
    cases hy
    exact htidy

/-- Only the counters of the collector change. -/
theorem Mutates.counters (hinv : g.interning.Inv) (totalBytes udAllocSeq : ℕ) :
    Mutates (fun _ => False) g { g with gcState := { g.gcState with totalBytes, udAllocSeq } } :=
  .of_heap hinv (fun _ => le_rfl) (fun _ x hx => ⟨x, hx, .inl rfl, rfl, rfl⟩) (fun o y hx hy => by rw [hx] at hy; cases hy)
    (fun o y hy hwhy => by rw [hwhy.resolve_right id] at hy; cases hy)
    (fun o y hy hwhy => by rw [hwhy.resolve_right id] at hy; cases hy) rfl

/-- The program writes to an object, which refers to what is alive afterwards. -/
theorem Mutates.modify (hok : g.Ok) (hs : k ≠ .string) (ht : k ≠ .thread) {r : GcRef k} {f : Obj k → Obj k}
    (hrefs : ∀ x, g.heap.cell ⟨k, r⟩ = some x → x.color ≠ g.currentWhite.otherWhite →
      ∀ c ∈ Obj.refs (f x.value), g.Alive c)
    (htidy : ∀ x, g.heap.cell ⟨k, r⟩ = some x → Obj.Tidy (f x.value)) :
    Mutates (· = ⟨k, r⟩) g (g.modify r f) := by
  have hwritten : ∀ o y, (g.heap.modify r f).cell o = some y → g.heap.cell o = none ∨ o = ⟨k, r⟩ → o = ⟨k, r⟩ := by
    rintro o y hy (hx | rfl)
    · by_contra ho
      rw [Heap.cell_modify_ne _ _ _ ho, hx] at hy
      cases hy
    · rfl
  refine .of_heap hok.interned (fun _ => (Heap.slots_modify ..).ge) (fun o x hx => ?_) (fun o y hx hy => ?_)
    (fun o y hy hwhy hc => ?_) (fun o y hy hwhy => ?_) (Heap.arena_put_ne _ hs.symm _ _)
  · by_cases ho : o = ⟨k, r⟩
    · subst ho
      exact ⟨{ x with value := f x.value }, by rw [Heap.cell_modify_self, hx]; rfl, .inr ⟨rfl, hs, ht⟩, rfl, rfl⟩
    · exact ⟨x, by rw [Heap.cell_modify_ne _ _ _ ho, hx], .inl rfl, rfl, rfl⟩
  · obtain rfl := hwritten o y hy (.inl hx)
    rw [Heap.cell_modify_self, hx] at hy
    cases hy
  · obtain rfl := hwritten o y hy hwhy
    rw [Heap.cell_modify_self] at hy
    obtain ⟨x, hx, rfl⟩ := Option.map_eq_some_iff.mp hy
    exact hrefs x hx hc
  · obtain rfl := hwritten o y hy hwhy
    rw [Heap.cell_modify_self] at hy
    obtain ⟨x, hx, rfl⟩ := Option.map_eq_some_iff.mp hy
    exact htidy x hx

/-! ### Interning -/

theorem slots_internString (hinv : g.interning.Inv) {r : GcRef .string} (h : g.internString data = some (g', r))
    (k : ObjKind) : g.heap.slots k ≤ g'.heap.slots k := by
  by_cases hk : k = .string
  · subst hk
    have hres := internString_result hinv h
    change g.interning.stringArena.entries.length ≤ g'.interning.stringArena.entries.length
    generalize g'.interning = s' at hres
    cases hres with
    | found r hr =>
      change _ ≤ (resurrectIfDead _ _ _).entries.length
      rw [resurrectIfDead]
      split
      · rw [Arena.setColor_eq hinv.wf]
        split <;> exact le_rfl
      · exact le_rfl
    | fresh t a r _ halloc =>
      obtain ⟨len, -, ⟨n, -, -, rfl⟩ | ⟨-, -, rfl⟩⟩ := Arena.alloc_cases hinv.wf halloc
      · simp [Arena.occupy]
      · simp [Arena.push]
  · rw [internString] at h
    obtain ⟨⟨t, heap, r'⟩, hintern, hrest⟩ := Option.bind_eq_some_iff.mp h
    cases hrest
    show (g.heap.arena k).entries.length ≤ (heap.arena k).entries.length
    rw [Heap.arena_intern_ne hintern hk]

/-- A string that interning makes is white. -/
theorem internString_fresh (hinv : g.interning.Inv) {r u : GcRef .string} (h : g.internString data = some (g', r))
    (hx : g.heap.cell ⟨.string, u⟩ = none) {y : Cell LuaString} (hy : g'.heap.cell ⟨.string, u⟩ = some y) :
    y.flags = {} ∧ y.color = g.currentWhite := by
  have hres := internString_result hinv h
  have hx' : g.interning.stringArena.cell u = none := hx
  change g'.interning.stringArena.cell u = some y at hy
  generalize g'.interning = s' at hres hy
  cases hres with
  | found r hr =>
    change (resurrectIfDead _ _ _).cell u = _ at hy
    rw [resurrectIfDead] at hy
    split at hy
    · rw [Arena.cell_setColor hinv.wf] at hy
      split at hy
      · next heq =>
        subst heq
        rw [hx'] at hy
        cases hy
      · rw [hx'] at hy
        cases hy
    · rw [hx'] at hy
      cases hy
  | fresh t a r _ halloc =>
    change a.cell u = some y at hy
    rw [Arena.cell_alloc hinv.wf halloc] at hy
    split at hy
    · cases hy
      exact ⟨rfl, rfl⟩
    · rw [hx'] at hy
      cases hy

/-- Interning revives a string or makes one. -/
theorem Mutates.internString (hinv : g.interning.Inv) {r : GcRef .string} (h : g.internString data = some (g', r)) :
    Mutates (fun _ => False) g g' ∧ g'.Alive ⟨_, r⟩ := by
  have hother : ∀ o : ObjRef, o.kind ≠ .string → g'.heap.cell o = g.heap.cell o := by
    intro o ho
    rw [Gc.internString] at h
    obtain ⟨⟨t, heap, r'⟩, hintern, hrest⟩ := Option.bind_eq_some_iff.mp h
    cases hrest
    show (heap.arena o.kind).cell o.ref = (g.heap.arena o.kind).cell o.ref
    rw [Heap.arena_intern_ne hintern ho]
  have hframe : g' = { g with
      heap := g'.heap
      strings := g'.strings
      gcState := { g.gcState with totalBytes := g'.gcState.totalBytes } } := by
    rw [Gc.internString] at h
    obtain ⟨⟨t, heap, r'⟩, -, hrest⟩ := Option.bind_eq_some_iff.mp h
    cases hrest
    rfl
  have hwhite : g'.currentWhite = g.currentWhite := by rw [hframe]
  have hroots : g'.rootRefs = g.rootRefs := by
    rw [hframe]
    rfl
  obtain ⟨z, hz, -, hcz⟩ := internString_self hinv h
  refine ⟨⟨?_, slots_internString hinv h, fun o x hx => ?_, fun o y hx hy => ?_, fun o y hy hwhy _ c hc => ?_,
    fun u y hy hwhy => ?_, fun o ho => hroots ▸ ho, fun o ho => .inl (hroots ▸ ho), internString_inv hinv h⟩, z, hz, hcz⟩
  · rw [hframe]
  · by_cases ho : o.kind = .string
    · obtain ⟨k, u⟩ := o
      cases ho
      rcases internString_cell hinv h hx with hy | ⟨hdead, hy⟩
      · exact ⟨x, hy, .inl rfl, rfl, .inl rfl⟩
      · exact ⟨_, hy, .inl rfl, rfl, .inr ⟨rfl, .inl hwhite.symm, .inr hdead⟩⟩
    · exact ⟨x, (hother o ho).trans hx, .inl rfl, rfl, .inl rfl⟩
  · by_cases ho : o.kind = .string
    · obtain ⟨k, u⟩ := o
      cases ho
      obtain ⟨hf, hc⟩ := internString_fresh hinv h hx hy
      exact ⟨hf, .inl (hc.trans hwhite.symm)⟩
    · rw [hother o ho, hx] at hy
      cases hy
  · by_cases ho : o.kind = .string
    · obtain ⟨k, u⟩ := o
      cases ho
      cases hc
    · rw [hother o ho, hwhy.resolve_right id] at hy
      cases hy
  · rw [hother _ (by simp), hwhy.resolve_right id] at hy
    cases hy

theorem cell_protect (g : Gc) (r : GcRef .string) (o : ObjRef) : (g.protect r).cell o = g.heap.cell o ∨
    g.gcState.phase ≠ .pause ∧ o = ⟨_, r⟩ ∧ (g.protect r).cell o = (g.heap.cell o).map fun x => { x with color := .black } := by
  by_cases ho : o = ⟨_, r⟩
  · cases hp : g.gcState.phase <;> simp only [protect, hp]
    case pause => exact .inl trivial
    all_goals exact .inr ⟨by simp, ho, by rw [Heap.cell_setColor, if_pos ho]⟩
  · refine .inl ?_
    cases hp : g.gcState.phase <;> simp only [protect, hp]
    all_goals rw [Heap.cell_setColor, if_neg ho]

/-- A cached string is a root. In the middle of a cycle it turns black. -/
theorem Mutates.cache (hok : g.Ok) (key : ℕ) {r : GcRef .string} (hr : g.Alive ⟨_, r⟩) :
    Mutates (fun _ => False) g { g with heap := g.protect r, staticInternCache := (key, r) :: g.staticInternCache } := by
  have hroot : ∀ o, o ∈ Gc.rootRefs { g with heap := g.protect r, staticInternCache := (key, r) :: g.staticInternCache } ↔
      o ∈ g.rootRefs ∨ o = ⟨_, r⟩ := by
    intro o
    simp only [Gc.rootRefs, List.map_append, List.map_cons, List.mem_append, List.mem_cons]
    tauto
  have hnone : ∀ o, g.heap.cell o = none → (g.protect r).cell o = none := by
    intro o ho
    rcases cell_protect g r o with h | ⟨-, -, h⟩ <;> rw [h, ho]
    rfl
  refine ⟨rfl, fun k => ?_, fun o x hx => ?_, fun o y hx hy => ?_, fun o y hy hwhy => ?_, fun u y hy hwhy => ?_,
    fun o ho => (hroot o).mpr (.inl ho), fun o ho => ((hroot o).mp ho).imp_right ?_, (protect_steps hok.interned r).inv⟩
  · rw [protect]
    split <;> simp
  · rcases cell_protect g r o with h | ⟨-, rfl, h⟩
    · exact ⟨x, h.trans hx, .inl rfl, rfl, .inl rfl⟩
    · rw [hx] at h
      exact ⟨_, h, .inl rfl, rfl, .inr ⟨rfl, .inr ⟨rfl, rfl, (hroot _).mpr (.inr rfl)⟩, .inl rfl⟩⟩
  · change (g.protect r).cell o = some y at hy
    rw [hnone o hx] at hy
    cases hy
  · change (g.protect r).cell o = some y at hy
    rw [hnone o (hwhy.resolve_right id)] at hy
    cases hy
  · change (g.protect r).cell _ = some y at hy
    rw [hnone _ (hwhy.resolve_right id)] at hy
    cases hy
  · rintro rfl
    obtain ⟨x, hx, hc⟩ := hr
    rcases hp : g.gcState.phase with _ | _ | _ | _ | _
    case pause => exact ⟨x, by simpa only [protect, hp] using hx, hc, .inl rfl⟩
    all_goals
      refine ⟨{ x with color := .black }, ?_, Color.ne_otherWhite hok.white rfl, .inr rfl⟩
      simp only [protect, hp]
      rw [Heap.cell_setColor, if_pos rfl, hx]
      rfl

/-- A static string is interned and cached, unless it is cached already. -/
theorem Mutates.internStringStatic (hok : g.Ok) {key : ℕ} {r : GcRef .string}
    (h : g.internStringStatic key data = some (g', r)) : Mutates (fun _ => False) g g' ∧ g'.Alive ⟨_, r⟩ := by
  cases hl : g.staticInternCache.lookup key with
  | some u =>
    rw [Gc.internStringStatic, hl] at h
    cases h
    refine ⟨.counters hok.interned _ _, hok.kept _ ?_⟩
    obtain ⟨l₁, l₂, hl', -⟩ := List.lookup_eq_some_iff.mp hl
    simp [Gc.rootRefs, hl']
  | none =>
    rw [internStringStatic_none hl] at h
    obtain ⟨⟨g₁, u⟩, hone, heq⟩ := Option.map_eq_some_iff.mp h
    cases heq
    obtain ⟨hm, hu⟩ := Mutates.internString hok.interned hone
    have hm' := Mutates.cache (hm.ok hok) key hu
    refine ⟨?_, hm'.alive (hm.ok hok).white hu⟩
    simpa only [or_self] using hm.trans hm' hok.white

/-! ### Tables -/

/-- What a set of alive objects comes to as a set of keys. -/
theorem keySet_alive (g : Gc) : Table.KeySet fun v => v ≠ .nil ∧ ∀ o ∈ v.objRef, g.Alive o where
  not_nil h := h.1 rfl
  num _ := ⟨nofun, nofun⟩
  congr _ _ h hb := ⟨Table.ne_nil_of_rawEq h hb.1, by rw [Table.objRef_congr h]; exact hb.2⟩

/-- What a table that is alive holds is alive. -/
theorem Ok.entries (h : g.Ok) {r : GcRef .table} {x : Cell (Obj .table)} (hx : g.heap.cell ⟨_, r⟩ = some x)
    (hc : x.color ≠ g.currentWhite.otherWhite) :
    Table.Entries (fun v => v ≠ .nil ∧ ∀ o ∈ v.objRef, g.Alive o) (fun v => ∀ o ∈ v.objRef, g.Alive o) x.value := by
  have hvals : ∀ v ∈ Table.vals x.value, ∀ o ∈ v.objRef, g.Alive o := fun v hv o ho =>
    h.refs ⟨.table, r⟩ x hx hc o (mem_refs_of_vals (List.mem_append_right _ hv) ho)
  refine ⟨fun v hv => hvals v (mem_vals.mpr (.inl hv)), fun n hn hval => ?_⟩
  have hkey : n.key ≠ .nil := fun hk => hval (h.tidy r x hx n hn hk)
  exact ⟨⟨hkey, hvals _ (mem_vals.mpr (.inr ⟨n, hn, hkey, hval, .inl rfl⟩))⟩,
    hvals _ (mem_vals.mpr (.inr ⟨n, hn, hkey, hval, .inr rfl⟩))⟩

/-- A table whose entries are alive refers to what is alive. -/
theorem alive_of_entries {t : Table} {A : ObjRef → Prop}
    (h : t.Entries (fun v => v ≠ .nil ∧ ∀ o ∈ v.objRef, A o) fun v => ∀ o ∈ v.objRef, A o)
    (hmeta : ∀ mt ∈ t.metatable, A ⟨_, mt⟩) : (∀ c ∈ Obj.refs (k := .table) t, A c) ∧ t.Tidy := by
  refine ⟨fun c hc => ?_, fun n hn hkey => ?_⟩
  · rcases mem_refs_table hc with ⟨mt, hmt, rfl⟩ | ⟨v, hv, hcv⟩
    · exact hmeta mt hmt
    · rcases mem_vals.mp hv with hv | ⟨n, hn, -, hval, rfl | rfl⟩
      · exact h.slots v hv c hcv
      · exact (h.nodes n hn hval).1.2 c hcv
      · exact (h.nodes n hn hval).2 c hcv
  · by_contra hval
    exact (h.nodes n hn hval).1.1 hkey

end Gc

/-- A table is filled with what is alive. -/
theorem Gc.Mutates.fills {g : Gc} (hok : g.Ok) {r : GcRef .table} {x : Cell (Obj .table)}
    (hx : g.heap.cell ⟨_, r⟩ = some x) (hc : x.color ≠ g.currentWhite.otherWhite) {keys values : List Val} {t' : Table}
    (hf : Table.Fills x.value keys values t') (hkeys : ∀ k ∈ keys, k ≠ .nil ∧ ∀ o ∈ k.objRef, g.Alive o)
    (hvalues : ∀ v ∈ values, ∀ o ∈ v.objRef, g.Alive o) : Mutates (· = ⟨_, r⟩) g (g.modify r fun _ => t') := by
  have hent := hf.entries _ _ (keySet_alive g) (by simp [Val.objRef]) hkeys hvalues (hok.entries hx hc)
  obtain ⟨hrefs, htidy⟩ := alive_of_entries hent fun mt hmt => by
    rw [hf.metatable_eq] at hmt
    refine hok.refs ⟨.table, r⟩ x hx hc _ (mem_refs_of_vals (v := .table mt) ?_ rfl)
    rw [Option.mem_def] at hmt
    simp [Obj.vals, hmt]
  exact .modify hok (by simp) (by simp) (fun _ _ _ => hrefs) fun _ _ => htidy

namespace LuaState

variable {s : LuaState} {r : GcRef .table} {t t' : Table} {keys values : List Val}

/-- After a write to one object, the barrier for it is still to be called. -/
theorem Sound.writes {o : ObjRef} {g : Gc} (h : s.Sound fun _ => False) (hm : Mutates (· = o) s.gc g)
    (hmodes : s.gc.gcState.phase = .propagate → KeepsModes s.gc g) : Sound (· = o) { s with gc := g } :=
  h.mutates hm hmodes (fun _ ho => ho) fun _ ho => ho.elim

/-- A table that is rearranged needs no barrier. -/
theorem Sound.refills (h : s.Sound fun _ => False) {x : Cell (Obj .table)} (hx : s.gc.heap.cell ⟨_, r⟩ = some x)
    (hc : x.color ≠ s.gc.currentWhite.otherWhite) (hf : Table.Fills x.value [] [] t')
    (hmodes : s.gc.gcState.phase = .propagate → KeepsModes s.gc (s.gc.modify r fun _ => t')) :
    Sound (fun _ => False) { s with gc := s.gc.modify r fun _ => t' } := by
  set g := s.gc.modify r fun _ => t' with hg
  have hm : Mutates (· = ⟨_, r⟩) s.gc g := .fills h.ok.gc hx hc hf (by simp) (by simp)
  refine (h.writes hm hmodes).lift fun hphase o y ho hy hblack => ?_
  have hphase : s.gc.gcState.phase = .propagate := hphase
  subst ho
  change (s.gc.heap.modify r fun _ => t').cell _ = some y at hy
  rw [Heap.cell_modify_self, hx] at hy
  cases hy
  have hmark := h.mark hphase
  have hb := hmark.tri.black ⟨.table, r⟩ x not_false hx hblack (by rw [h.ok.gc.plain ⟨.table, r⟩ x hx])
  have hb' : g.TableOk r x.value := hb.mutates h.ok.gc hmark.tri.not_other hm (hmodes hphase) hx hblack
  set m := g.checkWeakMode (Table.metatable x.value) with hmode
  have hnil : g.EntryOk r m.2 .nil := .inl (by rintro o ⟨⟩)
  have hkeys : Table.KeySet fun v => v ≠ .nil ∧ g.EntryOk r m.1 v :=
    ⟨fun hn => hn.1 rfl, fun n => ⟨nofun, .inl (by rintro o ⟨⟩)⟩, fun a b hab hb =>
      ⟨Table.ne_nil_of_rawEq hab hb.1, by rw [EntryOk, SettledVal, Table.objRef_congr hab]; exact hb.2⟩⟩
  have hent := hf.entries _ _ hkeys hnil (by simp) (by simp) ⟨hb'.array, fun n hn hval => by
    have hkey : n.key ≠ .nil := fun hk => hval (h.ok.gc.tidy r x hx n hn hk)
    exact ⟨⟨hkey, hb'.key n hn hkey hval⟩, hb'.value n hn hkey hval⟩⟩
  have hresult : g.TableOk r t' := by
    refine ⟨?_, ?_, ?_, ?_⟩ <;> rw [hf.metatable_eq]
    · exact hb'.metatable
    · exact hent.slots
    · exact fun n hn _ hval => (hent.nodes n hn hval).1.2
    · exact fun n hn _ hval => (hent.nodes n hn hval).2
  exact hresult

end LuaState

end Rilua.Vm
