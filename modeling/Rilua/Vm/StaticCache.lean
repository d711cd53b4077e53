import Rilua.Vm.Gc.WeakTables
import Rilua.Vm.Interning

/-! The cache of static strings (`vm/state.rs`) is keyed by the address of a slice alone. What it holds denotes the bytes
    it was cached for and stays through every cycle of the collector: the roots of a cycle mark it, and what is cached
    during a cycle is coloured black. So it agrees with interning, except where slices of different lengths start at
    one address. -/

namespace Rilua.Vm

open Lib Gc

namespace Gc

variable {g g' g'' : Gc} {r : GcRef .string} {data : List UInt8}

/-- What interning reads and writes. -/
def interning (g : Gc) : InternState := ⟨g.strings, g.heap.strings, g.currentWhite⟩

/-! ### What the collector does to strings -/

/-- A string may turn black and get flags, but keeps its bytes. -/
def Darkened : Option (Cell LuaString) → Option (Cell LuaString) → Prop
  | some x, some y => y.value = x.value ∧ (∀ f, x.flags.has f = true → y.flags.has f = true) ∧
      (y.color = x.color ∨ y.color = .black)
  | some _, none => False
  | none, y => y = none

theorem Darkened.refl (x : Option (Cell LuaString)) : Darkened x x := by
  cases x with
  | none => rfl
  | some x => exact ⟨rfl, fun _ h => h, .inl rfl⟩

theorem Darkened.trans {x y z : Option (Cell LuaString)} (h : Darkened x y) (h' : Darkened y z) : Darkened x z := by
  cases x with
  | none =>
    obtain rfl : y = none := h
    exact h'
  | some x =>
    cases y with
    | none => exact h.elim
    | some y =>
      cases z with
      | none => exact h'.elim
      | some z =>
        obtain ⟨hv, hf, hc⟩ := h
        obtain ⟨hv', hf', hc'⟩ := h'
        refine ⟨hv'.trans hv, fun f hx => hf' f (hf f hx), ?_⟩
        rcases hc' with hc' | hc'
        · exact hc.imp hc'.trans hc'.trans
        · exact .inr hc'

/-- Strings have been marked, and nothing else about interning has changed. -/
structure StringsMarked (g g' : Gc) : Prop where
  strings_eq : g'.strings = g.strings
  currentWhite_eq : g'.currentWhite = g.currentWhite
  cache_eq : g'.staticInternCache = g.staticInternCache
  phase_eq : g'.gcState.phase = g.gcState.phase
  cell : ∀ r, Darkened (g.heap.cell ⟨.string, r⟩) (g'.heap.cell ⟨.string, r⟩)

namespace StringsMarked

theorem refl (g : Gc) : StringsMarked g g := ⟨rfl, rfl, rfl, rfl, fun _ => .refl _⟩

theorem trans (h : StringsMarked g g') (h' : StringsMarked g' g'') : StringsMarked g g'' where
  strings_eq := h'.strings_eq.trans h.strings_eq
  currentWhite_eq := h'.currentWhite_eq.trans h.currentWhite_eq
  cache_eq := h'.cache_eq.trans h.cache_eq
  phase_eq := h'.phase_eq.trans h.phase_eq
  cell r := (h.cell r).trans (h'.cell r)

theorem of_cell_eq {h : Heap} (hcell : ∀ r, h.cell ⟨.string, r⟩ = g.heap.cell ⟨.string, r⟩) :
    StringsMarked g { g with heap := h } :=
  ⟨rfl, rfl, rfl, rfl, fun r => by
    rw [hcell]
    exact .refl _⟩

theorem mark (g : Gc) (o : ObjRef) (c : Color) (ho : o.kind = .string → c = .black) :
    StringsMarked g { g with heap := (g.heap.markWhiteUnfrozen o c).1 } := by
  refine ⟨rfl, rfl, rfl, rfl, fun r => ?_⟩
  rw [Heap.cell_markWhiteUnfrozen]
  split
  · next heq =>
    obtain rfl := ho (heq ▸ rfl)
    cases g.heap.cell ⟨.string, r⟩ with
    | none => rfl
    | some x =>
      rw [Option.map_some]
      split
      · exact ⟨rfl, fun _ h => h, .inr rfl⟩
      · exact ⟨rfl, fun _ h => h, .inl rfl⟩
  · exact .refl _

theorem blacken (g : Gc) (r : GcRef .string) : StringsMarked g { g with heap := g.heap.setColor ⟨_, r⟩ .black } := by
  refine ⟨rfl, rfl, rfl, rfl, fun r' => ?_⟩
  rw [Heap.cell_setColor]
  split
  · cases g.heap.cell ⟨.string, r'⟩ with
    | none => rfl
    | some x => exact ⟨rfl, fun _ h => h, .inr rfl⟩
  · exact .refl _

/-- The mark phase only marks strings. -/
theorem markSteps : MarkSteps StringsMarked where
  refl := refl
  trans := trans
  mark := mark
  setColor g o c ho := of_cell_eq fun r => by
    rw [Heap.cell_setColor, if_neg (by rintro rfl; exact ho rfl)]
  lists _ _ _ _ _ := ⟨rfl, rfl, rfl, rfl, fun _ => .refl _⟩
  finalize g r := of_cell_eq fun r' => Heap.cell_modify_ne _ _ _ fun heq => nomatch congrArg ObjRef.kind heq

end StringsMarked

/-! ### Strings that stay -/

/-- In the mark phase a string stays if it is marked or frozen, and otherwise if it is not dead or kept alive. -/
def Survives (g : Gc) (x : Cell LuaString) : Prop :=
  if g.gcState.phase = .propagate then x.color.isWhite = false ∨ x.flags.frozen = true
  else x.color ≠ g.currentWhite.otherWhite ∨ x.flags.isKeptAlive = true

/-- The reference denotes the bytes, and goes on to do so. -/
def Holds (g : Gc) (r : GcRef .string) (data : List UInt8) : Prop :=
  ∃ x, g.heap.cell ⟨.string, r⟩ = some x ∧ x.value = ⟨luaHash data, data⟩ ∧ g.Survives x

theorem isKeptAlive_of_frozen {fl : Flags} (h : fl.frozen = true) : fl.isKeptAlive = true := by
  rw [Flags.isKeptAlive, h, Bool.or_true]

/-- What stays in the mark phase stays in the others. -/
theorem not_dead_of_marked {x : Cell LuaString} {w : Color} (hw : w.isWhite = true)
    (h : x.color.isWhite = false ∨ x.flags.frozen = true) : x.color ≠ w.otherWhite ∨ x.flags.isKeptAlive = true :=
  h.imp (Color.ne_otherWhite hw) isKeptAlive_of_frozen

theorem survives_black (hw : g.currentWhite.isWhite = true) {x : Cell LuaString} (hx : x.color = .black) :
    g.Survives x := by
  rw [Survives, hx]
  split
  · exact .inl rfl
  · exact .inl (Color.ne_otherWhite hw rfl)

theorem StringsMarked.survives (h : StringsMarked g g') (hw : g.currentWhite.isWhite = true) {x y : Cell LuaString}
    (hxy : Darkened (some x) (some y)) (hx : g.Survives x) : g'.Survives y := by
  obtain ⟨-, hf, hc⟩ := hxy
  rw [Survives, h.phase_eq, h.currentWhite_eq]
  rw [Survives] at hx
  split
  · next hphase =>
    rw [if_pos hphase] at hx
    refine hx.imp (fun hcolor => ?_) (hf .frozen)
    rcases hc with hc | hc
    · rw [hc]
      exact hcolor
    · rw [hc]
      rfl
  · next hphase =>
    rw [if_neg hphase] at hx
    refine hx.imp (fun hcolor => ?_) fun hkept => ?_
    · rcases hc with hc | hc
      · rw [hc]
        exact hcolor
      · rw [hc]
        exact Color.ne_otherWhite hw rfl
    · rw [Flags.isKeptAlive, Bool.or_eq_true] at hkept ⊢
      exact hkept.imp (hf .pinned) (hf .frozen)

theorem StringsMarked.exists_cell (h : StringsMarked g g') {x : Cell LuaString} (hx : g.heap.cell ⟨.string, r⟩ = some x) :
    ∃ y, g'.heap.cell ⟨.string, r⟩ = some y ∧ Darkened (some x) (some y) := by
  have hcell := h.cell r
  rw [hx] at hcell
  cases hy : g'.heap.cell ⟨.string, r⟩ with
  | none =>
    rw [hy] at hcell
    exact hcell.elim
  | some y =>
    rw [hy] at hcell
    exact ⟨y, rfl, hcell⟩

theorem StringsMarked.holds (h : StringsMarked g g') (hw : g.currentWhite.isWhite = true) (hr : g.Holds r data) :
    g'.Holds r data := by
  obtain ⟨x, hx, hv, hs⟩ := hr
  obtain ⟨y, hy, hxy⟩ := h.exists_cell hx
  exact ⟨y, hy, hxy.1.trans hv, h.survives hw hxy hs⟩

/-- Marking keeps the invariant of interning. -/
theorem StringsMarked.inv (h : StringsMarked g g') (hinv : g.interning.Inv) : g'.interning.Inv := by
  have hstep : ∀ r, InternState.CellStep g.currentWhite (g.heap.cell ⟨.string, r⟩) (g'.heap.cell ⟨.string, r⟩) := fun r => by
    have hcell := h.cell r
    cases hx : g.heap.cell ⟨.string, r⟩ with
    | none =>
      rw [hx] at hcell
      exact hcell
    | some x =>
      cases hy : g'.heap.cell ⟨.string, r⟩ with
      | none =>
        rw [hx, hy] at hcell
        exact hcell.elim
      | some y =>
        rw [hx, hy] at hcell
        refine ⟨hcell.1, fun hne => ?_⟩
        rcases hcell.2.2 with hc | hc
        · rw [hc]
          exact hne
        · rw [hc]
          exact Color.ne_otherWhite hinv.white rfl
  have hinv' := hinv.arenaStep (g'.heap.wf .string) hstep
  rw [interning, h.strings_eq, h.currentWhite_eq]
  exact hinv'

/-! ### Interning -/

theorem internString_eq (g : Gc) (data : List UInt8) :
    (g.internString data).map (fun p => (p.1.interning, p.2)) = g.interning.call (.intern data) := by
  have hcall : ∀ x, g.strings.intern data (g.heap.arena .string) g.currentWhite = x → g.interning.call (.intern data) =
      x.map fun res => (⟨res.1, res.2.1, g.currentWhite⟩, res.2.2) := by
    rintro x rfl
    rfl
  rw [internString, Heap.intern]
  split
  · next t a r e =>
    rw [hcall _ e]
    change some (({ g with strings := t, heap := g.heap.put .string a (StringTable.wf_of_intern (g.heap.wf .string) e) } : Gc).interning, r) = _
    rw [interning, Heap.strings, Heap.arena_put_self]
    rfl
  · next e =>
    rw [hcall _ e]
    rfl

theorem internString_call (h : g.internString data = some (g', r)) :
    g.interning.call (.intern data) = some (g'.interning, r) := by
  rw [← internString_eq, h]
  rfl

theorem internString_result (hinv : g.interning.Inv) (h : g.internString data = some (g', r)) :
    InternState.CallResult g.interning data g'.interning r :=
  InternState.call_cases (c := .intern data) hinv trivial (internString_call h)

theorem internString_frame (h : g.internString data = some (g', r)) : g'.staticInternCache = g.staticInternCache ∧
    g'.gcState.phase = g.gcState.phase ∧ g'.currentWhite = g.currentWhite := by
  rw [internString] at h
  obtain ⟨⟨t, heap, r'⟩, -, hrest⟩ := Option.bind_eq_some_iff.mp h
  cases hrest
  exact ⟨rfl, rfl, rfl⟩

/-- Interning leaves a string alone, or revives it. -/
theorem internString_cell (hinv : g.interning.Inv) (h : g.internString data = some (g', r)) {r' : GcRef .string}
    {x : Cell LuaString} (hx : g.heap.cell ⟨.string, r'⟩ = some x) : g'.heap.cell ⟨.string, r'⟩ = some x ∨
    x.color = g.currentWhite.otherWhite ∧ g'.heap.cell ⟨.string, r'⟩ = some { x with color := g.currentWhite } := by
  have hres := internString_result hinv h
  have hx' : g.interning.stringArena.cell r' = some x := hx
  change g'.interning.stringArena.cell r' = some x ∨ _ ∧ g'.interning.stringArena.cell r' = _
  generalize g'.interning = s' at hres
  cases hres with
  | found _ hr =>
    change (resurrectIfDead _ _ _).cell r' = _ ∨ _ ∧ (resurrectIfDead _ _ _).cell r' = _
    rw [resurrectIfDead]
    split
    · next hdead =>
      rw [Arena.cell_setColor hinv.wf]
      split
      · next heq =>
        subst heq
        rw [Arena.color_eq_cell hinv.wf, hx'] at hdead
        rw [hx']
        exact .inr ⟨Option.some.inj hdead, rfl⟩
      · exact .inl hx'
    · exact .inl hx'
  | fresh t a _ hnone halloc =>
    have hfresh := Arena.cell_alloc_fresh hinv.wf halloc
    refine .inl ?_
    change a.cell r' = some x
    rw [Arena.cell_alloc hinv.wf halloc, if_neg]
    · exact hx'
    · rintro rfl
      rw [hfresh] at hx'
      cases hx'

theorem internString_inv (hinv : g.interning.Inv) (h : g.internString data = some (g', r)) : g'.interning.Inv :=
  ((internString_result hinv h).spec hinv).1

theorem internString_holds (hinv : g.interning.Inv) (h : g.internString data = some (g', r)) {r' : GcRef .string}
    {data' : List UInt8} (hr : g.Holds r' data') : g'.Holds r' data' := by
  obtain ⟨x, hx, hv, hs⟩ := hr
  obtain ⟨-, hphase, hwhite⟩ := internString_frame h
  rcases internString_cell hinv h hx with hy | ⟨hdead, hy⟩
  · refine ⟨x, hy, hv, ?_⟩
    rw [Survives, hphase, hwhite]
    exact hs
  · refine ⟨_, hy, hv, ?_⟩
    rw [Survives, hphase, hwhite]
    rw [Survives] at hs
    split
    · next hp =>
      have hwhite : g.currentWhite.isWhite = true := hinv.white
      rw [if_pos hp, hdead, Color.isWhite_otherWhite, hwhite] at hs
      exact .inr (hs.resolve_left (by simp))
    · exact .inl (Ne.symm (Color.otherWhite_ne hinv.white))

/-- What interning returns denotes the bytes and is not dead. -/
theorem internString_self (hinv : g.interning.Inv) (h : g.internString data = some (g', r)) :
    ∃ x, g'.heap.cell ⟨.string, r⟩ = some x ∧ x.value = ⟨luaHash data, data⟩ ∧ x.color ≠ g'.currentWhite.otherWhite := by
  obtain ⟨-, -, ⟨x, hx, hv, hc⟩, -⟩ := (internString_result hinv h).spec hinv
  rw [(internString_frame h).2.2]
  exact ⟨x, hx, hv, hc⟩

/-- A string with the bytes is what interning them returns. -/
theorem internString_of_get (hinv : g.interning.Inv) (hr : g.heap.get r = some ⟨luaHash data, data⟩) :
    ∃ g', g.internString data = some (g', r) := by
  obtain ⟨bucket, hbucket, hmem⟩ := hinv.inBucket r _ hr
  have hentry : StringTable.isEntry g.interning.stringArena data (luaHash data) r = true := StringTable.isEntry_iff.mpr hr
  have hcall : ∃ s', g.interning.call (.intern data) = some (s', r) := by
    cases hf : bucket.find? (StringTable.isEntry g.interning.stringArena data (luaHash data)) with
    | none => exact absurd hentry (List.find?_eq_none.mp hf r hmem)
    | some r' =>
      have hr' := StringTable.isEntry_iff.mp (List.find?_some hf)
      obtain rfl := hinv.unique r' r _ hr' hr
      have hfound : g.interning.strings.internHashed data (luaHash data) g.interning.stringArena g.interning.currentWhite =
          some (g.interning.strings, resurrectIfDead g.interning.stringArena r' g.interning.currentWhite, r') := by
        refine Option.bind_eq_some_iff.mpr ⟨bucket, hbucket, ?_⟩
        rw [hf]
      rw [InternState.call_eq (c := .intern data) _ trivial]
      exact ⟨_, congrArg (Option.map _) hfound⟩
  obtain ⟨s', hcall⟩ := hcall
  rw [← internString_eq, Option.map_eq_some_iff] at hcall
  obtain ⟨⟨g', r'⟩, hg', heq⟩ := hcall
  cases heq
  exact ⟨g', hg'⟩

/-! ### The phases of a cycle -/

theorem Darkened.marked {x y : Cell LuaString} (h : Darkened (some x) (some y))
    (hx : x.color.isWhite = false ∨ x.flags.frozen = true) : y.color.isWhite = false ∨ y.flags.frozen = true := by
  refine hx.imp (fun hcolor => ?_) (h.2.1 .frozen)
  rcases h.2.2 with hc | hc
  · rw [hc]
    exact hcolor
  · rw [hc]
    rfl

/-- The roots include what is cached. -/
theorem marked_of_mem : ∀ (l : List (GcRef .string)) (g : Gc), r ∈ l → ∀ x, (l.foldl markString g).heap.cell ⟨.string, r⟩ =
    some x → x.color.isWhite = false ∨ x.flags.frozen = true
  | r' :: l, g, hr, x, hx => by
    rcases List.mem_cons.mp hr with rfl | hr
    · have hrest := (StringsMarked.markSteps.foldl StringsMarked.markSteps.markString l (g.markString r)).cell r
      rw [List.foldl_cons] at hx
      rw [hx] at hrest
      cases hy : (g.markString r).heap.cell ⟨.string, r⟩ with
      | none =>
        rw [hy] at hrest
        cases hrest
      | some y =>
        rw [hy] at hrest
        have hmarked : y.color.isWhite = false ∨ y.flags.frozen = true := by
          rw [markString, Heap.cell_markWhiteUnfrozen, if_pos rfl] at hy
          obtain ⟨z, -, rfl⟩ := Option.map_eq_some_iff.mp hy
          split
          · exact .inl rfl
          · next hm =>
            rw [Arena.markable, Bool.not_eq_true, Bool.and_eq_false_iff, Bool.not_eq_false'] at hm
            exact hm.symm
        exact hrest.marked hmarked
    · exact marked_of_mem l _ hr x hx

/-- Strings have been recoloured in the current white. -/
structure StringsWhitened (g g' : Gc) : Prop where
  strings_eq : g'.strings = g.strings
  currentWhite_eq : g'.currentWhite = g.currentWhite
  cache_eq : g'.staticInternCache = g.staticInternCache
  cell : ∀ r : GcRef .string, g'.heap.cell ⟨.string, r⟩ = g.heap.cell ⟨.string, r⟩ ∨
    g'.heap.cell ⟨.string, r⟩ = (g.heap.cell ⟨.string, r⟩).map fun x => { x with color := g.currentWhite }

theorem clearWeakTables_whitened (g : Gc) : StringsWhitened g g.clearWeakTables := by
  set g₀ : Gc := { g with gcState := { g.gcState with weakTables := [] } } with hg₀
  have hkept := StringsKept.foldl_keepStrings g.gcState.weakTables g₀
  have hclear : Clears g.gcState.weakTables (g.gcState.weakTables.foldl keepStrings g₀) g.clearWeakTables :=
    Clears.foldl_clearWeakTable _ _
  generalize g.gcState.weakTables.foldl keepStrings g₀ = g₁ at hkept hclear
  refine ⟨?_, ?_, ?_, fun r => ?_⟩
  · rw [hclear.frame, hkept.frame]
  · rw [hclear.frame, hkept.frame]
  · rw [hclear.frame, hkept.frame]
  · have hcell : g.clearWeakTables.heap.cell ⟨.string, r⟩ = g₁.heap.cell ⟨.string, r⟩ :=
      congrArg (Arena.cell · r) (hclear.arena_eq .string (by simp))
    rw [hcell, hkept.cell]
    by_cases hmem : Val.str r ∈ g.gcState.weakTables.flatMap g₀.heldBy
    · simp only [if_pos hmem]
      exact .inr rfl
    · simp only [if_neg hmem, Option.map_id_fun', id]
      exact .inl rfl

namespace StringsWhitened

theorem inv (h : StringsWhitened g g') (hinv : g.interning.Inv) : g'.interning.Inv := by
  have hinv' := hinv.arenaStep (g'.heap.wf .string) fun r => by
    change InternState.CellStep _ (g.heap.cell ⟨.string, r⟩) (g'.heap.cell ⟨.string, r⟩)
    rcases h.cell r with hsame | hwhitened
    · rw [hsame]
      exact .refl _ _
    · rw [hwhitened]
      cases g.heap.cell ⟨.string, r⟩ with
      | none => rfl
      | some x => exact ⟨rfl, fun _ => Ne.symm (Color.otherWhite_ne hinv.white)⟩
  rw [interning, h.strings_eq, h.currentWhite_eq]
  exact hinv'

/-- After the flip, what stayed in the mark phase is not dead. -/
theorem not_dead (h : StringsWhitened g g') (hw : g.currentWhite.isWhite = true) {x : Cell LuaString}
    (hx : g.heap.cell ⟨.string, r⟩ = some x) (hs : x.color.isWhite = false ∨ x.flags.frozen = true) :
    ∃ y, g'.heap.cell ⟨.string, r⟩ = some y ∧ y.value = x.value ∧
      (y.color ≠ g'.currentWhite.otherWhite ∨ y.flags.isKeptAlive = true) := by
  rw [h.currentWhite_eq]
  rcases h.cell r with hsame | hwhitened
  · exact ⟨x, hsame.trans hx, rfl, not_dead_of_marked hw hs⟩
  · rw [hx] at hwhitened
    exact ⟨_, hwhitened, rfl, .inl (Ne.symm (Color.otherWhite_ne hw))⟩

end StringsWhitened

theorem flip_inv (hinv : g.interning.Inv) : g.flip.interning.Inv :=
  (InternState.step_spec hinv (show InternState.HashOk _ .flip from trivial) rfl).1

/-- The atomic phase is the rest of the marking, the flip, and the clearing of the weak tables. -/
theorem atomic_eq (g : Gc) : ∃ m k, StringsMarked g m ∧ StringsWhitened m.flip k ∧
    g.atomic = { k with gcState := { k.gcState with sweepCursor := {}, phase := .sweepString } } := by
  refine ⟨g.atomicMark, g.atomicMark.flip.clearWeakTables, StringsMarked.markSteps.atomicMark g,
    clearWeakTables_whitened _, ?_⟩
  rw [atomic, flip]

theorem atomic_inv (hinv : g.interning.Inv) : g.atomic.interning.Inv := by
  obtain ⟨m, k, hmark, hwhiten, heq⟩ := atomic_eq g
  rw [heq]
  exact hwhiten.inv (flip_inv (hmark.inv hinv))

theorem atomic_cache (g : Gc) : g.atomic.staticInternCache = g.staticInternCache := by
  obtain ⟨m, k, hmark, hwhiten, heq⟩ := atomic_eq g
  rw [heq]
  exact hwhiten.cache_eq.trans hmark.cache_eq

/-- The atomic phase keeps the strings that stay in the mark phase. -/
theorem atomic_holds (hw : g.currentWhite.isWhite = true) (hphase : g.gcState.phase = .propagate)
    (hr : g.Holds r data) : g.atomic.Holds r data := by
  obtain ⟨m, k, hmark, hwhiten, heq⟩ := atomic_eq g
  obtain ⟨x, hx, hv, hs⟩ := hmark.holds hw hr
  rw [Survives, if_pos (hmark.phase_eq.trans hphase)] at hs
  have hwm : m.flip.currentWhite.isWhite = true := by
    rw [flip, hmark.currentWhite_eq, Color.isWhite_otherWhite, hw]
  obtain ⟨y, hy, hyv, hys⟩ := hwhiten.not_dead hwm hx hs
  rw [heq]
  exact ⟨y, hy, hyv.trans hv, hys⟩

/-- What one step of the collector does, where it does not mark: the cache stays, and what stays goes on to stay. -/
structure Steps (g g' : Gc) : Prop where
  inv : g'.interning.Inv
  cache_eq : g'.staticInternCache = g.staticInternCache
  holds : ∀ r data, g.Holds r data → g'.Holds r data

theorem StringsMarked.steps (h : StringsMarked g g') (hinv : g.interning.Inv) : Steps g g' :=
  ⟨h.inv hinv, h.cache_eq, fun _ _ => h.holds hinv.white⟩

/-- Outside the mark phase only the strings matter. -/
theorem steps_of_phase {st : GcState} (hinv : g.interning.Inv) (hphase : st.phase ≠ .propagate) :
    Steps g { g with gcState := st } := by
  refine ⟨hinv, rfl, fun r data ⟨x, hx, hv, hs⟩ => ⟨x, hx, hv, ?_⟩⟩
  rw [Survives, if_neg hphase]
  rw [Survives] at hs
  split at hs
  · exact not_dead_of_marked hinv.white hs
  · exact hs

theorem Steps.trans (h : Steps g g') (h' : Steps g' g'') : Steps g g'' :=
  ⟨h'.inv, h'.cache_eq.trans h.cache_eq, fun r data hr => h'.holds r data (h.holds r data hr)⟩

/-- The heap after a batch of the sweep, with the string table as it is. -/
theorem sweepPartial_steps {k : ObjKind} {heap : Heap} {start freed pos : ℕ} {isDone : Bool} (hinv : g.interning.Inv)
    (hphase : g.gcState.phase ≠ .propagate)
    (h : g.heap.sweepPartial k g.currentWhite.otherWhite g.currentWhite start gcSweepMax = some (heap, freed, pos, isDone)) :
    Steps g { g with heap } := by
  have hcell := Heap.sweepPartial_cell h
  refine ⟨?_, rfl, fun r data ⟨x, hx, hv, hs⟩ => ?_⟩
  · refine hinv.arenaStep (heap.wf .string) fun r => ?_
    change InternState.CellStep _ (g.heap.cell ⟨.string, r⟩) (heap.cell ⟨.string, r⟩)
    rw [hcell]
    split
    · cases g.heap.cell ⟨.string, r⟩ with
      | none => rfl
      | some x =>
        rw [Option.bind_some, Arena.sweepCell]
        split
        · next hd => exact hd.1
        · exact ⟨rfl, fun _ => Ne.symm (Color.otherWhite_ne hinv.white)⟩
    · exact .refl _ _
  · have hx' := hcell ⟨.string, r⟩
    rw [hx] at hx'
    have hs' := hs
    rw [Survives, if_neg hphase] at hs'
    split at hx'
    · have hlive : ¬ (x.color = g.currentWhite.otherWhite ∧ x.flags.isKeptAlive = false) := fun hd =>
        hs'.elim (fun hne => hne hd.1) fun hk => by
          rw [hd.2] at hk
          cases hk
      rw [Option.bind_some, Arena.sweepCell, if_neg hlive] at hx'
      refine ⟨_, hx', hv, ?_⟩
      rw [Survives, if_neg hphase]
      exact .inl (Ne.symm (Color.otherWhite_ne hinv.white))
    · exact ⟨x, hx', hv, hs⟩

theorem sweepStringsStep_steps (hinv : g.interning.Inv) (hphase : g.gcState.phase ≠ .propagate)
    (h : g.sweepStringsStep = some g') : Steps g g' := by
  obtain ⟨⟨heap, freed, pos, isDone⟩, hsweep, hrest⟩ := Option.bind_eq_some_iff.mp h
  have hswept := sweepPartial_steps hinv hphase hsweep
  dsimp only at hrest
  split at hrest
  · cases hrest
    have hdead := (InternState.step_spec hswept.inv (show InternState.HashOk _ .sweepDead from trivial) rfl).1
    have htable : Steps { g with heap } { g with heap, strings := g.strings.sweepDead (heap.arena .string) } :=
      ⟨hdead, rfl, fun _ _ hr => hr⟩
    exact (hswept.trans htable).trans (steps_of_phase hdead (by simp))
  · cases hrest
    exact hswept.trans (steps_of_phase hswept.inv hphase)

theorem sweepOtherStep_steps (hinv : g.interning.Inv) (hphase : g.gcState.phase ≠ .propagate)
    (h : g.sweepOtherStep = some g') : Steps g g' := by
  obtain ⟨⟨heap, freed, pos, isDone⟩, hsweep, hrest⟩ := Option.bind_eq_some_iff.mp h
  have hswept := sweepPartial_steps hinv hphase hsweep
  dsimp only at hrest
  split at hrest
  · split at hrest
    · cases hrest
      exact hswept.trans (steps_of_phase hswept.inv (by simp))
    · cases hrest
      exact hswept.trans (steps_of_phase hswept.inv hphase)
  · cases hrest
    exact hswept.trans (steps_of_phase hswept.inv hphase)

/-- The roots of the heap include what is cached. -/
theorem markGcRoots_marked (g : Gc) (hr : r ∈ g.staticInternCache.map Prod.snd) {x : Cell LuaString}
    (hx : g.markGcRoots.heap.cell ⟨.string, r⟩ = some x) : x.color.isWhite = false ∨ x.flags.frozen = true := by
  have hfirst : ∀ g₁, StringsMarked g g₁ → r ∈ g₁.staticInternCache.map Prod.snd := fun g₁ h => by
    rw [h.cache_eq]
    exact hr
  refine marked_of_mem _ _ (hfirst _ ?_) x hx
  have hR := StringsMarked.markSteps
  exact hR.trans (hR.trans (hR.foldl hR.markTable? _ _) (hR.foldl hR.markString _ _)) (hR.foldl hR.markString _ _)

end Gc

/-! ### Runs -/

namespace LuaState

/-- The start of a cycle. -/
def startCycle (s : LuaState) : LuaState := { s.clearLists.markRoots with gc.gcState.phase := .propagate }

/-- What `full_gc` does first: a cycle that is still marking is given up, and the heap is swept as it is. -/
def abortMark (s : LuaState) : LuaState :=
  if s.gc.gcState.phase = .pause ∨ s.gc.gcState.phase = .propagate then
    { s.clearLists with gc.gcState.phase := .sweepString, gc.gcState.sweepCursor := {} }
  else s

end LuaState

/-- The bytes of a static slice. Static memory does not change. -/
def staticSlice (memory : ℕ → UInt8) (addr len : ℕ) : List UInt8 := (List.range len).map fun i => memory (addr + i)

/-- What happens to the cache: calls of `intern_string_static` and `intern_string`, steps of the collector, the two
    steps that only `full_gc` takes, and anything else that leaves the cache and the string table alone. -/
inductive CacheOp where
  | internStringStatic (addr len : ℕ)
  | internString (data : List UInt8)
  | singlestep
  | abortMark
  | startCycle
  | other (s : LuaState)

namespace CacheOp

def step (memory : ℕ → UInt8) (s : LuaState) : CacheOp → Option LuaState
  | .internStringStatic addr len =>
    (s.gc.internStringStatic addr (staticSlice memory addr len)).map fun p => { s with gc := p.1 }
  | .internString data => (s.gc.internString data).map fun p => { s with gc := p.1 }
  | .singlestep => s.gcSinglestep.map Prod.fst
  | .abortMark => some s.abortMark
  | .startCycle => some s.startCycle
  | .other s' => some s'

/-- The rest of the machine may mark strings and put flags on them, but interns only by the calls above. -/
def Ok (s : LuaState) : CacheOp → Prop
  | .other s' => StringsMarked s.gc s'.gc
  | _ => True

/-- The length of the slice with which the address was given first. -/
def firstLength (addr : ℕ) (ops : List CacheOp) : Option ℕ :=
  ops.findSome? fun
    | .internStringStatic addr' len => if addr' = addr then some len else none
    | _ => none

end CacheOp

variable {memory : ℕ → UInt8} {past ops : List CacheOp} {s s' s₀ : LuaState}

/-- The cache holds, for each address, what its first slice denotes. -/
structure CacheInv (memory : ℕ → UInt8) (past : List CacheOp) (s : LuaState) : Prop where
  inv : s.gc.interning.Inv
  cached : ∀ addr, Option.Rel (fun r len => s.gc.Holds r (staticSlice memory addr len))
    (s.gc.staticInternCache.lookup addr) (CacheOp.firstLength addr past)

theorem firstLength_append (addr : ℕ) (op : CacheOp) : CacheOp.firstLength addr (past ++ [op]) =
    (CacheOp.firstLength addr past).or (CacheOp.firstLength addr [op]) := by
  rw [CacheOp.firstLength, List.findSome?_append]
  rfl

theorem firstLength_other (op : CacheOp) (hop : ∀ addr len, op ≠ .internStringStatic addr len) (addr : ℕ) :
    CacheOp.firstLength addr (past ++ [op]) = CacheOp.firstLength addr past := by
  rw [firstLength_append]
  cases op with
  | internStringStatic addr' len => exact absurd rfl (hop addr' len)
  | _ => exact Option.or_none

/-- A step that is no static call keeps the invariant if it keeps what is cached. -/
theorem CacheInv.keep (h : CacheInv memory past s) {op : CacheOp} (hop : ∀ addr len, op ≠ .internStringStatic addr len)
    (hinv : s'.gc.interning.Inv) (hcache : s'.gc.staticInternCache = s.gc.staticInternCache)
    (hholds : ∀ r ∈ s.gc.staticInternCache.map Prod.snd, ∀ data, s.gc.Holds r data → s'.gc.Holds r data) :
    CacheInv memory (past ++ [op]) s' := by
  refine ⟨hinv, fun addr => ?_⟩
  have hrel := h.cached addr
  rw [firstLength_other op hop, hcache]
  cases hl : s.gc.staticInternCache.lookup addr with
  | none =>
    rw [hl] at hrel
    generalize CacheOp.firstLength addr past = first at hrel ⊢
    cases hrel
    exact .none
  | some r =>
    rw [hl] at hrel
    cases hf : CacheOp.firstLength addr past with
    | none =>
      rw [hf] at hrel
      cases hrel
    | some len =>
      rw [hf] at hrel
      obtain ⟨l₁, l₂, hl', -⟩ := List.lookup_eq_some_iff.mp hl
      have hmem : r ∈ s.gc.staticInternCache.map Prod.snd := by
        rw [hl']
        exact List.mem_map.mpr ⟨(addr, r), by simp, rfl⟩
      cases hrel with
      | some hr => exact .some (hholds r hmem _ hr)

theorem CacheInv.steps (h : CacheInv memory past s) {op : CacheOp} (hop : ∀ addr len, op ≠ .internStringStatic addr len)
    (hsteps : Gc.Steps s.gc s'.gc) : CacheInv memory (past ++ [op]) s' :=
  h.keep hop hsteps.inv hsteps.cache_eq fun r _ => hsteps.holds r

/-- The start of a cycle marks what is cached. -/
theorem CacheInv.startCycle (h : CacheInv memory past s) : CacheInv memory (past ++ [.startCycle]) s.startCycle := by
  have hR := StringsMarked.markSteps
  set g₀ : Gc := { s.clearLists.gc with gcState := { s.clearLists.gc.gcState with
    gray := .mainThread :: s.clearLists.gc.gcState.gray } } with hg₀
  set g₁ : Gc := (g₀.markTable s.global).markTable s.registry with hg₁
  have hbefore : StringsMarked s.gc g₁ :=
    hR.trans (hR.trans (hR.lists s.gc _ _ _ _) (hR.markTable g₀ s.global)) (hR.markTable _ s.registry)
  have hafter : StringsMarked g₁.markGcRoots (s.clearLists.markCachedStateStrings g₁.markGcRoots) :=
    hR.markCachedStateStrings _ _
  have hall := hR.trans (hR.trans hbefore (hR.markGcRoots g₁)) hafter
  refine h.keep (by simp) (hall.inv h.inv) hall.cache_eq fun r hr data hs => ?_
  obtain ⟨x, hx, hv, -⟩ := hs
  obtain ⟨y, hy, hxy⟩ := (hR.trans hbefore (hR.markGcRoots g₁)).exists_cell hx
  obtain ⟨z, hz, hyz⟩ := hafter.exists_cell hy
  have hmarked : y.color.isWhite = false ∨ y.flags.frozen = true := by
    refine Gc.markGcRoots_marked g₁ ?_ hy
    rw [hbefore.cache_eq]
    exact hr
  refine ⟨z, hz, hyz.1.trans (hxy.1.trans hv), ?_⟩
  rw [Gc.Survives, if_pos (show s.startCycle.gc.gcState.phase = .propagate from rfl)]
  exact hyz.marked hmarked

theorem CacheInv.singlestep (h : CacheInv memory past s) (hstep : CacheOp.step memory s .singlestep = some s') :
    CacheInv memory (past ++ [.singlestep]) s' := by
  have hR := StringsMarked.markSteps
  obtain ⟨⟨s'', call⟩, hone, rfl⟩ := Option.map_eq_some_iff.mp hstep
  rw [LuaState.gcSinglestep] at hone
  split at hone
  · cases hone
    have hstart := h.startCycle
    exact ⟨hstart.inv, fun addr => by
      have hcached := hstart.cached addr
      rw [firstLength_other _ (by simp)] at hcached ⊢
      exact hcached⟩
  · next hphase =>
    split at hone
    · next g' heq =>
      cases hone
      exact h.steps (by simp) ((hR.propagateOne_done heq).steps h.inv)
    · next g' heq =>
      cases hone
      have hmark := hR.trans (hR.propagateOne_needMainThread heq) (hR.traverseMainThread { s with gc := g' })
      exact h.steps (by simp) (hmark.steps h.inv)
    · cases hone
      have hmark := hR.markMainThread s
      refine h.keep (by simp) (Gc.atomic_inv (hmark.inv h.inv)) ((Gc.atomic_cache _).trans hmark.cache_eq)
        fun r _ data hr => ?_
      refine Gc.atomic_holds ?_ (hmark.phase_eq.trans hphase) (hmark.holds h.inv.white hr)
      rw [hmark.currentWhite_eq]
      exact h.inv.white
  · next hphase =>
    obtain ⟨g', hg', heq⟩ := Option.map_eq_some_iff.mp hone
    cases heq
    exact h.steps (by simp) (Gc.sweepStringsStep_steps h.inv (by simp [hphase]) hg')
  · next hphase =>
    obtain ⟨g', hg', heq⟩ := Option.map_eq_some_iff.mp hone
    cases heq
    exact h.steps (by simp) (Gc.sweepOtherStep_steps h.inv (by simp [hphase]) hg')
  · next hphase =>
    have hfinal : StringsMarked s.gc s.callGcFinalizer.1.gc := by
      rw [LuaState.callGcFinalizer]
      split
      · exact hR.refl _
      · dsimp only
        split
        · exact hR.lists ..
        · exact hR.lists ..
    split at hone
    · next heq =>
      cases hone
      rw [heq] at hfinal
      exact h.steps (by simp) (hfinal.steps h.inv)
    · next heq =>
      cases hone
      rw [heq] at hfinal
      have hdone := hfinal.steps h.inv
      exact h.steps (by simp) (hdone.trans (Gc.steps_of_phase hdone.inv (by simp)))

namespace Gc

variable {g g' : Gc} {r : GcRef .string} {data : List UInt8}

/-- The black colour given to what is cached during a cycle. -/
def protect (g : Gc) (r : GcRef .string) : Heap :=
  match g.gcState.phase with
  | .pause => g.heap
  | .propagate | .sweepString | .sweep | .finalize => g.heap.setColor ⟨_, r⟩ .black

theorem internStringStatic_none {key : ℕ} (hl : g.staticInternCache.lookup key = none) (data : List UInt8) :
    g.internStringStatic key data = (g.internString data).map fun p =>
      ({ p.1 with heap := p.1.protect p.2, staticInternCache := (key, p.2) :: p.1.staticInternCache }, p.2) := by
  rw [internStringStatic, hl]
  cases g.internString data with
  | none => rfl
  | some p => rfl

theorem protect_steps (hinv : g.interning.Inv) (r : GcRef .string) : Steps g { g with heap := g.protect r } := by
  rw [protect]
  split
  · exact (StringsMarked.refl g).steps hinv
  all_goals exact (StringsMarked.blacken g r).steps hinv

/-- A string that is not dead stays once it is protected. -/
theorem protect_holds (hw : g.currentWhite.isWhite = true) {x : Cell LuaString}
    (hx : g.heap.cell ⟨.string, r⟩ = some x) (hv : x.value = ⟨luaHash data, data⟩)
    (hc : x.color ≠ g.currentWhite.otherWhite) : { g with heap := g.protect r }.Holds r data := by
  have hblack : (g.heap.setColor ⟨_, r⟩ .black).cell ⟨.string, r⟩ = some { x with color := .black } := by
    rw [Heap.cell_setColor, if_pos rfl, hx]
    rfl
  rw [protect]
  split
  · next hphase =>
    refine ⟨x, hx, hv, ?_⟩
    rw [Survives, if_neg (by simp [hphase])]
    exact .inl hc
  all_goals exact ⟨_, hblack, hv, survives_black hw rfl⟩

end Gc

theorem firstLength_static (addr addr' len : ℕ) :
    CacheOp.firstLength addr' (past ++ [.internStringStatic addr len]) =
      (CacheOp.firstLength addr' past).or (if addr = addr' then some len else none) := by
  rw [firstLength_append]
  congr 1
  rw [CacheOp.firstLength]
  by_cases h : addr = addr'
  · simp [h]
  · simp [h]

theorem CacheInv.static (h : CacheInv memory past s) {addr len : ℕ}
    (hstep : CacheOp.step memory s (.internStringStatic addr len) = some s') :
    CacheInv memory (past ++ [.internStringStatic addr len]) s' := by
  obtain ⟨⟨g', r⟩, hcall, rfl⟩ := Option.map_eq_some_iff.mp hstep
  cases hl : s.gc.staticInternCache.lookup addr with
  | some r₀ =>
    rw [Gc.internStringStatic, hl] at hcall
    cases hcall
    refine ⟨h.inv, fun addr' => ?_⟩
    have hrel := h.cached addr'
    rw [firstLength_static]
    by_cases ha : addr = addr'
    · subst ha
      rw [hl] at hrel ⊢
      generalize CacheOp.firstLength addr past = first at hrel ⊢
      cases hrel with
      | some hr => exact .some hr
    · rw [if_neg ha, Option.or_none]
      exact hrel
  | none =>
    rw [Gc.internStringStatic_none hl] at hcall
    obtain ⟨⟨g₁, r₁⟩, hintern, heq⟩ := Option.map_eq_some_iff.mp hcall
    cases heq
    have hinv₁ := Gc.internString_inv h.inv hintern
    have hsteps := Gc.protect_steps hinv₁ r₁
    obtain ⟨x, hx, hv, hc⟩ := Gc.internString_self h.inv hintern
    obtain ⟨hcache, -⟩ := Gc.internString_frame hintern
    refine ⟨hsteps.inv, fun addr' => ?_⟩
    have hrel := h.cached addr'
    rw [firstLength_static]
    change Option.Rel _ (List.lookup addr' ((addr, r₁) :: g₁.staticInternCache)) _
    rw [List.lookup_cons, hcache]
    by_cases ha : addr = addr'
    · subst ha
      rw [hl] at hrel
      generalize CacheOp.firstLength addr past = first at hrel ⊢
      cases hrel
      rw [beq_self_eq_true, if_pos rfl]
      exact .some (Gc.protect_holds hinv₁.white hx hv hc)
    · have hne : (addr' == addr) = false := beq_eq_false_iff_ne.mpr fun he => ha he.symm
      rw [hne, if_neg ha, Option.or_none]
      cases hl' : s.gc.staticInternCache.lookup addr' with
      | none =>
        rw [hl'] at hrel
        generalize CacheOp.firstLength addr' past = first at hrel ⊢
        cases hrel
        exact .none
      | some r' =>
        rw [hl'] at hrel
        generalize CacheOp.firstLength addr' past = first at hrel ⊢
        cases hrel with
        | some hr => exact .some (hsteps.holds _ _ (Gc.internString_holds h.inv hintern hr))

theorem CacheInv.step (h : CacheInv memory past s) {op : CacheOp} (hok : op.Ok s)
    (hstep : CacheOp.step memory s op = some s') : CacheInv memory (past ++ [op]) s' := by
  cases op with
  | internStringStatic addr len => exact h.static hstep
  | internString data =>
    obtain ⟨⟨g', r⟩, hcall, rfl⟩ := Option.map_eq_some_iff.mp hstep
    exact h.keep (by simp) (Gc.internString_inv h.inv hcall) (Gc.internString_frame hcall).1
      fun _ _ _ hr => Gc.internString_holds h.inv hcall hr
  | singlestep => exact h.singlestep hstep
  | abortMark =>
    cases hstep
    rw [LuaState.abortMark]
    split
    · exact h.steps (by simp) (Gc.steps_of_phase h.inv (by simp))
    · exact h.steps (by simp) ((StringsMarked.refl _).steps h.inv)
  | startCycle =>
    cases hstep
    exact h.startCycle
  | other s'' =>
    cases hstep
    exact h.steps (by simp) (Gc.StringsMarked.steps hok h.inv)

theorem CacheInv.run (hrun : Run (CacheOp.step memory) CacheOp.Ok s ops s') :
    ∀ past, CacheInv memory past s → CacheInv memory (past ++ ops) s' := by
  induction hrun with
  | nil s =>
    intro past h
    rw [List.append_nil]
    exact h
  | cons hok hstep _ ih =>
    intro past h
    have hnext := ih _ (h.step hok hstep)
    rwa [List.append_assoc] at hnext

/-! ### The start -/

namespace Gc

theorem internAll_inv : ∀ (names : List String) {g g' : Gc} {rs : List (GcRef .string)},
    internAll names g = some (g', rs) → g.interning.Inv →
    g'.interning.Inv ∧ g'.staticInternCache = g.staticInternCache
  | [], _, _, _, h, hinv => by
    cases h
    exact ⟨hinv, rfl⟩
  | name :: names, g, g', rs, h, hinv => by
    rw [internAll, Option.bind_eq_bind, Option.bind_eq_some_iff] at h
    obtain ⟨⟨g₁, r⟩, hone, hrest⟩ := h
    obtain ⟨⟨g₂, rs'⟩, hnames, heq⟩ := Option.bind_eq_some_iff.mp hrest
    cases heq
    obtain ⟨hinv', hcache⟩ := internAll_inv names hnames (internString_inv hinv hone)
    exact ⟨hinv', hcache.trans (internString_frame hone).1⟩

theorem allocTable_interning {g g' : Gc} {t : Table} {r : GcRef .table} (h : g.allocTable t = some (g', r)) :
    g'.interning = g.interning ∧ g'.staticInternCache = g.staticInternCache := by
  obtain ⟨⟨heap, r'⟩, halloc, heq⟩ := Option.bind_eq_some_iff.mp h
  cases heq
  refine ⟨?_, rfl⟩
  change InternState.mk _ (heap.arena .string) _ = InternState.mk _ (g.heap.arena .string) _
  rw [Heap.arena_alloc_ne halloc (by simp)]
  rfl

end Gc

theorem CacheInv.new (hnew : LuaState.new = some s₀) : CacheInv memory [] s₀ := by
  have hempty : ({} : Gc).interning.Inv := InternState.inv_new
  simp only [LuaState.new, Gc.new, Option.bind_eq_bind, Option.bind_eq_some_iff, Option.some.injEq] at hnew
  obtain ⟨_, ⟨⟨g₁, _⟩, h₁, ⟨g₂, _⟩, h₂, rfl⟩, ⟨g₃, _⟩, h₃, ⟨g₄, _⟩, h₄, ⟨g₅, _⟩, h₅, ⟨g₆, _⟩, h₆, ⟨g₇, _⟩, h₇, rfl⟩ := hnew
  obtain ⟨hinv₁, hc₁⟩ := Gc.internAll_inv _ h₁ hempty
  obtain ⟨hinv₂, hc₂⟩ := Gc.internAll_inv _ h₂ hinv₁
  obtain ⟨hinv₃, hc₃⟩ := Gc.internAll_inv _ h₃ hinv₂
  obtain ⟨hinv₄, hc₄⟩ := Gc.internAll_inv _ h₄ hinv₃
  obtain ⟨hinv₅, hc₅⟩ := Gc.internAll_inv _ h₅ hinv₄
  obtain ⟨hi₆, hc₆⟩ := Gc.allocTable_interning h₆
  obtain ⟨hi₇, hc₇⟩ := Gc.allocTable_interning h₇
  have hcache : g₇.staticInternCache = [] := by
    rw [hc₇, hc₆, hc₅, hc₄, hc₃]
    exact hc₂.trans hc₁
  refine ⟨?_, fun addr => ?_⟩
  · change g₇.interning.Inv
    rw [hi₇, hi₆]
    exact hinv₅
  · change Option.Rel _ (g₇.staticInternCache.lookup addr) _
    rw [hcache]
    exact .none

/-! ### Agreement -/

/-- `intern_string_static` returns the reference that `intern_string` would. -/
def Gc.StaticAgrees (g : Gc) (memory : ℕ → UInt8) (addr len : ℕ) : Prop :=
  (g.internStringStatic addr (staticSlice memory addr len)).map Prod.snd =
    (g.internString (staticSlice memory addr len)).map Prod.snd

theorem length_staticSlice (memory : ℕ → UInt8) (addr len : ℕ) : (staticSlice memory addr len).length = len := by
  rw [staticSlice, List.length_map, List.length_range]

theorem CacheInv.agrees_iff (h : CacheInv memory past s) (addr len : ℕ) :
    s.gc.StaticAgrees memory addr len ↔ ∀ n, CacheOp.firstLength addr past = some n → n = len := by
  have hrel := h.cached addr
  rw [Gc.StaticAgrees]
  cases hl : s.gc.staticInternCache.lookup addr with
  | none =>
    rw [hl] at hrel
    generalize CacheOp.firstLength addr past = first at hrel ⊢
    cases hrel
    rw [Gc.internStringStatic_none hl, Option.map_map]
    exact iff_of_true rfl (by simp)
  | some r =>
    rw [hl] at hrel
    generalize CacheOp.firstLength addr past = first at hrel ⊢
    cases hrel with
    | @some _ n hr =>
      obtain ⟨x, hx, hv, -⟩ := hr
      rw [Gc.internStringStatic, hl]
      constructor
      · intro hagrees n' hn'
        cases hn'
        obtain ⟨⟨g', r'⟩, hintern, heq⟩ := Option.map_eq_some_iff.mp hagrees.symm
        obtain rfl : r' = r := heq
        -- the cached reference denotes the bytes of both slices
        obtain ⟨y, hy, hyv, -⟩ := Gc.internString_self h.inv hintern
        have hbytes : y.value = x.value := by
          rcases Gc.internString_cell h.inv hintern hx with hsame | ⟨-, hsame⟩
          · rw [hsame] at hy
            cases hy
            rfl
          · rw [hsame] at hy
            cases hy
            rfl
        rw [hyv, hv] at hbytes
        have hlength := congrArg (fun l : LuaString => l.data.length) hbytes
        simp only [length_staticSlice] at hlength
        exact hlength.symm
      · intro hlen
        obtain rfl := hlen n rfl
        have hget : s.gc.heap.get r = some ⟨luaHash (staticSlice memory addr n), staticSlice memory addr n⟩ := by
          rw [Heap.get_eq, hx]
          exact congrArg some hv
        obtain ⟨g', hg'⟩ := Gc.internString_of_get h.inv hget
        rw [hg']
        rfl

/-- In every run, `intern_string_static` agrees with plain interning if and only if the first slice that was given with
    its address had the same length. -/
theorem internStringStatic_agrees_iff (hnew : LuaState.new = some s₀)
    (hrun : Run (CacheOp.step memory) CacheOp.Ok s₀ ops s) (addr len : ℕ) :
    s.gc.StaticAgrees memory addr len ↔ ∀ n, CacheOp.firstLength addr ops = some n → n = len :=
  (CacheInv.run hrun [] (.new hnew)).agrees_iff addr len

/-- A slice of five bytes, interned, and then its first four bytes. -/
def helloMemory (addr : ℕ) : UInt8 := "hello".toUTF8.data.toList.getD addr 0

def afterHello : Option (LuaState × LuaState) := do
  let s₀ ← LuaState.new
  let s ← CacheOp.step helloMemory s₀ (.internStringStatic 0 5)
  some (s₀, s)

theorem afterHello_run : ∃ s₀ s, LuaState.new = some s₀ ∧
    Run (CacheOp.step helloMemory) CacheOp.Ok s₀ [.internStringStatic 0 5] s := by
  have hsome : afterHello.isSome = true := by decide +kernel
  obtain ⟨⟨s₀, s⟩, hs⟩ := Option.isSome_iff_exists.mp hsome
  rw [afterHello, Option.bind_eq_bind] at hs
  obtain ⟨s₁, hnew, hrest⟩ := Option.bind_eq_some_iff.mp hs
  obtain ⟨s₂, hstep, heq⟩ := Option.bind_eq_some_iff.mp hrest
  cases heq
  exact ⟨_, _, hnew, .single trivial hstep⟩

theorem internStringStatic_agrees_hello : ∃ s₀ s, LuaState.new = some s₀ ∧
    Run (CacheOp.step helloMemory) CacheOp.Ok s₀ [.internStringStatic 0 5] s ∧
    (s.gc.StaticAgrees helloMemory 0 5 ↔ ∀ n, CacheOp.firstLength 0 [.internStringStatic 0 5] = some n → n = 5) := by
  obtain ⟨s₀, s, hnew, hrun⟩ := afterHello_run
  exact ⟨s₀, s, hnew, hrun, internStringStatic_agrees_iff hnew hrun 0 5⟩

theorem internStringStatic_disagrees : ∃ s₀ s, LuaState.new = some s₀ ∧
    Run (CacheOp.step helloMemory) CacheOp.Ok s₀ [.internStringStatic 0 5] s ∧ ¬ s.gc.StaticAgrees helloMemory 0 4 := by
  obtain ⟨s₀, s, hnew, hrun⟩ := afterHello_run
  refine ⟨s₀, s, hnew, hrun, fun hagrees => ?_⟩
  have hlength := ((CacheInv.run hrun [] (.new hnew)).agrees_iff 0 4).mp hagrees 5 rfl
  omega

end Rilua.Vm
