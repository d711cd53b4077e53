import Rilua.Vm.Gc.Cycle

/-! What the program does to the heap between two steps of the collector: it allocates objects, interns strings and writes
    to objects. In the mark phase an object that has been traversed may then refer to one that has not, until the barrier
    has been called. -/

namespace Rilua.Vm

open Lib Gc

namespace Gc

variable {W W' ex : ObjRef → Prop} {g g' g'' : Gc} {o c : ObjRef} {saved : List LuaThread} {pending : List GrayItem}

/-- Between `g` and `g'` the program has written to objects of `W`, allocated objects and interned strings. -/
structure Mutates (W : ObjRef → Prop) (g g' : Gc) : Prop where
  frame : g' = { g with
    heap := g'.heap
    strings := g'.strings
    staticInternCache := g'.staticInternCache
    gcState := { g.gcState with totalBytes := g'.gcState.totalBytes, udAllocSeq := g'.gcState.udAllocSeq } }
  slots_le : ∀ k, g.heap.slots k ≤ g'.heap.slots k
  cell : ∀ o x, g.heap.cell o = some x → ∃ y, g'.heap.cell o = some y ∧
    (y.value = x.value ∨ W o ∧ o.kind ≠ .string ∧ o.kind ≠ .thread) ∧ y.flags = x.flags ∧
      (y.color = x.color ∨ o.kind = .string ∧ g'.Rested o y ∧ (y.color = .black ∨ x.color = g.currentWhite.otherWhite))
  fresh : ∀ o y, g.heap.cell o = none → g'.heap.cell o = some y → y.flags = {} ∧ g'.Rested o y
  refs : ∀ o y, g'.heap.cell o = some y → g.heap.cell o = none ∨ W o → y.color ≠ g.currentWhite.otherWhite →
    ∀ c ∈ Obj.refs y.value, g'.Alive c
  tidy : ∀ r y, g'.heap.cell ⟨.table, r⟩ = some y → g.heap.cell ⟨.table, r⟩ = none ∨ W ⟨_, r⟩ → Table.Tidy y.value
  roots : ∀ o ∈ g.rootRefs, o ∈ g'.rootRefs
  roots_new : ∀ o ∈ g'.rootRefs, o ∈ g.rootRefs ∨ ∃ y, g'.heap.cell o = some y ∧ y.color ≠ g.currentWhite.otherWhite ∧
    (g.gcState.phase = .pause ∨ y.color = .black)
  interned : g'.interning.Inv

namespace Mutates

theorem currentWhite_eq (h : Mutates W g g') : g'.currentWhite = g.currentWhite := by rw [h.frame]

/-- A cell of the heap is one that was there before, or belongs to a new object. -/
theorem cell_rev (h : Mutates W g g') {y : Cell (Obj o.kind)} (hy : g'.heap.cell o = some y) :
    (g.heap.cell o = none ∧ y.flags = {} ∧ g'.Rested o y) ∨ ∃ x, g.heap.cell o = some x ∧
      (y.value = x.value ∨ W o ∧ o.kind ≠ .string ∧ o.kind ≠ .thread) ∧ y.flags = x.flags ∧
      (y.color = x.color ∨ o.kind = .string ∧ g'.Rested o y ∧ (y.color = .black ∨ x.color = g.currentWhite.otherWhite)) := by
  cases hx : g.heap.cell o with
  | none => exact .inl ⟨rfl, h.fresh o y hx hy⟩
  | some x =>
    obtain ⟨y', hy', hrest⟩ := h.cell o x hx
    rw [hy] at hy'
    cases hy'
    exact .inr ⟨x, rfl, hrest⟩

/-- What is at rest has no colour but the current white and black. -/
theorem rested_color (h : Mutates W g g') {y : Cell (Obj o.kind)} (hy : g'.Rested o y) :
    y.color = g.currentWhite ∨ y.color = .black ∧ o.kind = .string := by
  rcases hy with hy | ⟨hy, hk, -⟩
  · exact .inl (hy.trans h.currentWhite_eq)
  · exact .inr ⟨hy, hk⟩

theorem rested_ne_dead (h : Mutates W g g') (hw : g.currentWhite.isWhite = true) {y : Cell (Obj o.kind)}
    (hy : g'.Rested o y) : y.color ≠ g.currentWhite.otherWhite := by
  rcases h.rested_color hy with hy | ⟨hy, -⟩
  · rw [hy]
    exact (Color.otherWhite_ne hw).symm
  · rw [hy]
    exact Color.ne_otherWhite hw rfl

theorem not_rested_gray (h : Mutates W g g') (hw : g.currentWhite.isWhite = true) {y : Cell (Obj o.kind)}
    (hc : y.color = .gray) : ¬ g'.Rested o y := by
  intro hrest
  rcases h.rested_color hrest with hy | ⟨hy, -⟩
  · rw [← hy, hc] at hw
    cases hw
  · rw [hc] at hy
    cases hy

/-- Nothing dies. -/
theorem alive (h : Mutates W g g') (hw : g.currentWhite.isWhite = true) (ho : g.Alive o) : g'.Alive o := by
  obtain ⟨x, hx, hc⟩ := ho
  obtain ⟨y, hy, -, -, hcol⟩ := h.cell o x hx
  refine ⟨y, hy, ?_⟩
  rw [h.currentWhite_eq]
  rcases hcol with hcol | ⟨-, hrest, -⟩
  · rw [hcol]
    exact hc
  · exact h.rested_ne_dead hw hrest

theorem get_string (h : Mutates W g g') {r : GcRef .string} {s : LuaString} (hs : g.heap.get r = some s) :
    g'.heap.get r = some s := by
  rw [Heap.get_eq] at hs ⊢
  obtain ⟨x, hx, rfl⟩ := Option.map_eq_some_iff.mp hs
  obtain ⟨y, hy, hv, -⟩ := h.cell _ x hx
  rw [hy, Option.map_some, hv.resolve_right fun hW => hW.2.1 rfl]

theorem names (h : Mutates W g g') (hn : g.NamesOk) : g'.NamesOk := by
  have htm : g'.tmNames = g.tmNames := by rw [h.frame]
  refine ⟨fun r hr => ?_, fun name hname => ?_⟩
  · obtain ⟨s, hs⟩ := hn.valid r (htm ▸ hr)
    exact ⟨s, h.get_string hs⟩
  · obtain ⟨r, hr, s, hs, heq⟩ := hn.exists_name name hname
    exact ⟨r, htm ▸ hr, s, h.get_string hs, heq⟩

theorem ok (h : Mutates W g g') (hok : g.Ok) : g'.Ok where
  white := h.currentWhite_eq ▸ hok.white
  names := h.names hok.names
  plain o y hy := by
    rcases h.cell_rev hy with ⟨-, hf, -⟩ | ⟨x, hx, -, hf, -⟩
    · exact hf
    · exact hf.trans (hok.plain o x hx)
  interned := h.interned
  refs o y hy hc c hcr := by
    rw [h.currentWhite_eq] at hc
    rcases h.cell_rev hy with ⟨hx, -⟩ | ⟨x, hx, hv, -, hcol⟩
    · exact h.refs o y hy (.inl hx) hc c hcr
    · rcases hv with hv | ⟨hW, -⟩
      · rcases hcol with hcol | ⟨hk, -⟩
        · exact h.alive hok.white (hok.refs o x hx (hcol ▸ hc) c (hv ▸ hcr))
        · -- a string refers to nothing
          obtain ⟨k, r⟩ := o
          cases hk
          cases hcr
      · exact h.refs o y hy (.inr hW) hc c hcr
  tidy r y hy := by
    rcases h.cell_rev hy with ⟨hx, -⟩ | ⟨x, hx, hv, -⟩
    · exact h.tidy r y hy (.inl hx)
    · rcases hv with hv | ⟨hW, -⟩
      · rw [hv]
        exact hok.tidy r x hx
      · exact h.tidy r y hy (.inr hW)
  kept o ho := by
    rcases h.roots_new o ho with ho | ⟨y, hy, hc, -⟩
    · exact h.alive hok.white (hok.kept o ho)
    · exact ⟨y, hy, h.currentWhite_eq ▸ hc⟩
  waiting r hr := by
    rw [h.frame] at hr
    exact h.alive hok.white (hok.waiting r hr)

/-! ### Outside the mark phase -/

theorem rested (h : Mutates W g g') {x y : Cell (Obj o.kind)} (hx : g.heap.cell o = some x)
    (hy : g'.heap.cell o = some y) (hrest : g.Rested o x) : g'.Rested o y := by
  rcases h.cell_rev hy with ⟨hnone, -⟩ | ⟨x', hx', -, -, hcol⟩
  · rw [hx] at hnone
    cases hnone
  · rw [hx] at hx'
    cases hx'
    rcases hcol with hcol | ⟨-, hr, -⟩
    · rcases hrest with hrest | ⟨hblack, hk, hroot⟩
      · exact .inl (hcol.trans (hrest.trans h.currentWhite_eq.symm))
      · exact .inr ⟨hcol.trans hblack, hk, h.roots o hroot⟩
    · exact hr

theorem sweptTo (h : Mutates W g g') {rank pos : ℕ} (hs : g.SweptTo rank pos) : g'.SweptTo rank pos := by
  intro o y hy hbefore
  rcases h.cell_rev hy with ⟨-, -, hrest⟩ | ⟨x, hx, -⟩
  · exact hrest
  · exact h.rested hx hy (hs o x hx hbefore)

theorem resting (h : Mutates W g g') (hr : g.Resting) : g'.Resting := by
  intro o y hy
  rcases h.cell_rev hy with ⟨-, -, hrest⟩ | ⟨x, hx, -⟩
  · exact hrest
  · exact h.rested hx hy (hr o x hx)

/-! ### In the mark phase -/

/-- What existed before and was settled is settled. -/
theorem settled (h : Mutates W g g') (hok : g.Ok) (hother : ∀ o x, g.heap.cell o = some x → x.color ≠ g.currentWhite.otherWhite)
    (ho : ∃ x, g.heap.cell o = some x) (hs : g.Settled o) : g'.Settled o := by
  rw [(h.ok hok).settled_iff]
  rw [hok.settled_iff] at hs
  obtain ⟨x, hx⟩ := ho
  intro y hy
  rcases h.cell_rev hy with ⟨hnone, -⟩ | ⟨x', hx', -, -, hcol⟩
  · rw [hx] at hnone
    cases hnone
  · rw [h.currentWhite_eq]
    rcases hcol with hcol | ⟨-, -, hblack | hdead⟩
    · rw [hcol]
      exact hs x' hx'
    · rw [hblack]
      intro hw
      have := hok.white
      rw [← hw] at this
      cases this
    · exact absurd hdead (hother o x' hx')

theorem held (h : Mutates W g g') {uv : GcRef .upvalue} {v : Val} (hv : Held saved g uv v) : Held saved g' uv v := by
  refine hv.imp_right ?_
  rintro ⟨r, x, hx, hc, huv, hval⟩
  obtain ⟨y, hy, hvalue, -, hcol⟩ := h.cell _ x hx
  have hvalue := hvalue.resolve_right fun hW => hW.2.2 rfl
  rcases hcol with hcol | ⟨hk, -⟩
  · exact ⟨r, y, hy, hcol ▸ hc, hvalue ▸ huv, hvalue ▸ hval⟩
  · cases hk

/-! ### One after the other -/

theorem not_dead_rev (h : Mutates W g g') (hw : g.currentWhite.isWhite = true) {x y : Cell (Obj o.kind)}
    (hx : g.heap.cell o = some x) (hy : g'.heap.cell o = some y) (hc : x.color ≠ g.currentWhite.otherWhite) :
    y.color ≠ g.currentWhite.otherWhite := by
  obtain ⟨y', hy', hc'⟩ := h.alive hw ⟨x, hx, hc⟩
  rw [hy] at hy'
  cases hy'
  exact h.currentWhite_eq ▸ hc'

theorem trans (h : Mutates W g g') (h' : Mutates W' g' g'') (hw : g.currentWhite.isWhite = true) :
    Mutates (fun o => W o ∨ W' o) g g'' where
  frame := by
    rw [h'.frame, h.frame]
  slots_le k := (h.slots_le k).trans (h'.slots_le k)
  cell o x hx := by
    obtain ⟨y, hy, hv, hf, hcol⟩ := h.cell o x hx
    obtain ⟨z, hz, hv', hf', hcol'⟩ := h'.cell o y hy
    refine ⟨z, hz, ?_, hf'.trans hf, ?_⟩
    · rcases hv' with hv' | ⟨hW, hk⟩
      · rw [hv']
        exact hv.imp_right fun ⟨hW, hk⟩ => ⟨.inl hW, hk⟩
      · exact .inr ⟨.inr hW, hk⟩
    · rcases hcol' with hcol' | ⟨hk, hrest, hwhy⟩
      · rcases hcol with hcol | ⟨hk, hrest, hwhy⟩
        · exact .inl (hcol'.trans hcol)
        · exact .inr ⟨hk, h'.rested hy hz hrest, hwhy.imp_left hcol'.trans⟩
      · refine .inr ⟨hk, hrest, hwhy.imp_right fun hdead => ?_⟩
        rw [h.currentWhite_eq] at hdead
        rcases hcol with hcol | ⟨-, hrest', -⟩
        · exact hcol ▸ hdead
        · exact absurd hdead (h.rested_ne_dead hw hrest')
  fresh o z hx hz := by
    cases hy : g'.heap.cell o with
    | none => exact h'.fresh o z hy hz
    | some y =>
      obtain ⟨hf, hrest⟩ := h.fresh o y hx hy
      obtain ⟨z', hz', -, hf', -⟩ := h'.cell o y hy
      rw [hz] at hz'
      cases hz'
      exact ⟨hf'.trans hf, h'.rested hy hz hrest⟩
  refs o z hz hwhy hc c hcr := by
    have hwhite := h.currentWhite_eq
    rcases h'.cell_rev hz with ⟨hy, -⟩ | ⟨y, hy, hv, -, hcol⟩
    · exact h'.refs o z hz (.inl hy) (hwhite ▸ hc) c hcr
    · rcases hv with hv | ⟨hW, -⟩
      · rcases hcol with hcol | ⟨hk, -⟩
        · rcases hwhy with hnone | hW | hW
          · exact h'.alive (hwhite ▸ hw) (h.refs o y hy (.inl hnone) (hcol ▸ hc) c (hv ▸ hcr))
          · exact h'.alive (hwhite ▸ hw) (h.refs o y hy (.inr hW) (hcol ▸ hc) c (hv ▸ hcr))
          · exact h'.refs o z hz (.inr hW) (hwhite ▸ hc) c hcr
        · obtain ⟨k, r⟩ := o
          cases hk
          cases hcr
      · exact h'.refs o z hz (.inr hW) (hwhite ▸ hc) c hcr
  tidy r z hz hwhy := by
    rcases h'.cell_rev hz with ⟨hy, -⟩ | ⟨y, hy, hv, -⟩
    · exact h'.tidy r z hz (.inl hy)
    · rcases hv with hv | ⟨hW, -⟩
      · rcases hwhy with hnone | hW | hW
        · rw [hv]
          exact h.tidy r y hy (.inl hnone)
        · rw [hv]
          exact h.tidy r y hy (.inr hW)
        · exact h'.tidy r z hz (.inr hW)
      · exact h'.tidy r z hz (.inr hW)
  roots o ho := h'.roots o (h.roots o ho)
  roots_new o ho := by
    have hphase : g'.gcState.phase = g.gcState.phase := by rw [h.frame]
    rcases h'.roots_new o ho with ho | ⟨z, hz, hc, hwhy⟩
    · rcases h.roots_new o ho with ho | ⟨y, hy, hc, hwhy⟩
      · exact .inl ho
      · obtain ⟨z, hz, -, -, hcol⟩ := h'.cell o y hy
        have hc' : z.color ≠ g'.currentWhite.otherWhite :=
          h'.not_dead_rev (h.currentWhite_eq ▸ hw) hy hz (h.currentWhite_eq ▸ hc)
        refine .inr ⟨z, hz, h.currentWhite_eq ▸ hc', hwhy.imp_right fun hblack => ?_⟩
        rcases hcol with hcol | ⟨-, -, hz | hdead⟩
        · exact hcol.trans hblack
        · exact hz
        · rw [h.currentWhite_eq] at hdead
          exact absurd hdead hc
    · exact .inr ⟨z, hz, h.currentWhite_eq ▸ hc, hphase ▸ hwhy⟩
  interned := h'.interned

end Mutates

/-- The metatables of the weak tables that have been listed keep their modes. -/
def KeepsModes (g g' : Gc) : Prop :=
  ∀ r ∈ g.gcState.weakTables, ∀ t, g.heap.get r = some t →
    ModeLe (g.checkWeakMode (Table.metatable t)) (g'.checkWeakMode (Table.metatable t))

/-- Where no table is written to, all metatables keep their modes. -/
theorem Mutates.keepsModes (h : Mutates W g g') (hok : g.Ok) (hW : ∀ r, ¬ W ⟨.table, r⟩) : KeepsModes g g' := by
  intro r _ t _
  refine Extends.mode_le ⟨by rw [h.frame], fun u s hs => h.get_string hs, fun u t ht => ?_⟩ hok.names _
  rw [Heap.get_eq] at ht ⊢
  obtain ⟨x, hx, rfl⟩ := Option.map_eq_some_iff.mp ht
  obtain ⟨y, hy, hv, -⟩ := h.cell _ x hx
  rw [hy, Option.map_some, hv.resolve_right fun hu => hW u hu.1]

/-- What holds of a black object goes on to hold, for what it referred to before. -/
theorem BlackOk.mutates {x : Cell (Obj o.kind)} (hb : BlackOk saved pending g o x.value) (hok : g.Ok)
    (hother : ∀ o x, g.heap.cell o = some x → x.color ≠ g.currentWhite.otherWhite) (hm : Mutates W g g')
    (hmodes : KeepsModes g g') (hx : g.heap.cell o = some x) (hblack : x.color = .black) :
    BlackOk saved pending g' o x.value := by
  have halive : ∀ c ∈ Obj.refs x.value, g.Alive c := hok.refs o x hx (hblack ▸ Color.ne_otherWhite hok.white rfl)
  refine hb.transfer (fun c hc hs => ?_) (fun r hr => ?_) (fun r hr heq => ?_) fun uv v => hm.held
  · obtain ⟨z, hz, -⟩ := halive c hc
    exact hm.settled hok hother ⟨z, hz⟩ hs
  · rw [hm.frame]
    exact hr
  · subst heq
    refine hmodes r hr x.value ?_
    rw [Heap.get_eq, hx]
    rfl

/-- The objects that have been written to are exceptions to the tri-colour invariant. -/
theorem TriInv.mutates (h : TriInv saved pending ex g) (hok : g.Ok) (hm : Mutates W g g') (hmodes : KeepsModes g g')
    (hW : ∀ o, W o → W' o) (hex : ∀ o, ex o → W' o) : TriInv saved pending W' g' where
  white := hm.currentWhite_eq ▸ hok.white
  names := hm.names hok.names
  not_other o y hy := by
    rw [hm.currentWhite_eq]
    rcases hm.cell_rev hy with ⟨-, -, hrest⟩ | ⟨x, hx, -, -, hcol⟩
    · exact hm.rested_ne_dead hok.white hrest
    · rcases hcol with hcol | ⟨-, hrest, -⟩
      · rw [hcol]
        exact h.not_other o x hx
      · exact hm.rested_ne_dead hok.white hrest
  gray o y ho hy hgray hf := by
    have hlists : g'.gcState.gray = g.gcState.gray := by rw [hm.frame]
    rcases hm.cell_rev hy with ⟨-, -, hrest⟩ | ⟨x, hx, -, hflags, hcol⟩
    · exact absurd hrest (hm.not_rested_gray hok.white hgray)
    · rw [hlists]
      refine h.gray o x (fun he => ho (hex o he)) hx ?_ (hflags ▸ hf)
      exact (hcol.resolve_right fun hc => hm.not_rested_gray hok.white hgray hc.2.1) ▸ hgray
  black o y ho hy hblack hf := by
    have hstring : ∀ hk : o.kind = .string, BlackOk saved pending g' o y.value := by
      obtain ⟨k, r⟩ := o
      rintro ⟨⟩
      trivial
    rcases hm.cell_rev hy with ⟨-, -, hrest⟩ | ⟨x, hx, hv, hflags, hcol⟩
    · refine hstring ((hm.rested_color hrest).resolve_left fun hc => ?_).2
      have := hok.white
      rw [← hc, hblack] at this
      cases this
    · rcases hcol with hcol | ⟨hk, -⟩
      · have hxb : x.color = .black := hcol ▸ hblack
        rw [hv.resolve_right fun hWo => ho (hW o hWo.1)]
        exact (h.black o x (fun he => ho (hex o he)) hx hxb (hflags ▸ hf)).mutates hok h.not_other hm hmodes hx hxb
      · exact hstring hk

theorem MarkSteps.barrierBack {R : Gc → Gc → Prop} (hR : MarkSteps R) (g : Gc) (r : GcRef .table) : R g (g.barrierBack r) := by
  rw [Gc.barrierBack]
  split
  · exact hR.trans (hR.setColor g ⟨_, r⟩ .gray (by simp))
      (hR.lists { g with heap := g.heap.setColor ⟨_, r⟩ .gray } g.gcState.gray _ g.gcState.weakTables g.gcState.tmudata)
  · exact hR.refl g

theorem ThreadsListed.mutates (h : g.ThreadsListed) (hok : g.Ok) (hm : Mutates W g g') : g'.ThreadsListed := by
  refine h.congr (by rw [hm.frame]) fun r => ?_
  rw [Heap.color_eq, Heap.color_eq]
  cases hx : g.heap.cell ⟨.thread, r⟩ with
  | some x =>
    obtain ⟨y, hy, -, -, hcol⟩ := hm.cell _ x hx
    rcases hcol with hcol | ⟨hk, -⟩
    · rw [hy, Option.map_some, Option.map_some, hcol]
    · cases hk
  | none =>
    cases hy : g'.heap.cell ⟨.thread, r⟩ with
    | none => rfl
    | some y =>
      obtain ⟨-, hrest⟩ := hm.fresh _ y hx hy
      rcases hm.rested_color hrest with hc | ⟨-, hk⟩
      · refine ⟨fun hb => ?_, nofun⟩
        have := hok.white
        rw [← hc, Option.some.inj hb] at this
        cases this
      · cases hk

end Gc

namespace LuaState

variable {W W' ex : ObjRef → Prop} {s s' : LuaState} {g : Gc} {o : ObjRef}

/-- What holds in the mark phase, where the objects of `ex` have been written to and the barrier has not been called. -/
structure Marking (ex : ObjRef → Prop) (s : LuaState) : Prop where
  tri : TriInv s.savedThreads s.gc.gcState.grayagain ex s.gc
  gray : ∀ o x, s.gc.heap.cell o = some x → x.color = .gray → Gc.Listed o (s.gc.gcState.gray ++ s.gc.gcState.grayagain)
  threads : s.gc.ThreadsListed
  fixed : ∀ o ∈ s.fixedRefs, s.gc.Settled o
  waiting : s.gc.gcState.tmudata = []

/-- What holds while the program runs, where the objects of `ex` have been written to and the barrier has not been called
    yet. -/
structure Sound (ex : ObjRef → Prop) (s : LuaState) : Prop where
  ok : s.Ok
  mark : s.gc.gcState.phase = .propagate → s.Marking ex
  rest : s.gc.gcState.phase ≠ .propagate → s.PhaseOk fun _ => True

/-- Where nothing has been written to, this is what the steps of the collector keep. -/
theorem sound_iff : s.Sound (fun _ => False) ↔ s.Ok ∧ s.PhaseOk fun _ => True := by
  refine ⟨fun h => ⟨h.ok, ?_⟩, fun ⟨h, hp⟩ => ⟨h, fun hphase => ?_, fun _ => hp⟩⟩
  · by_cases hphase : s.gc.gcState.phase = .propagate
    · have hm := h.mark hphase
      exact .of_inMark ⟨⟨hm.tri, h.ok.closed_true, fun _ _ _ _ => trivial⟩, hm.threads, fun _ _ _ _ => trivial, hm.fixed,
        hm.waiting, fun _ _ _ _ => trivial⟩ hphase
    · exact h.rest hphase
  · rw [PhaseOk, hphase] at hp
    have hm : s.InMark fun _ => True := hp
    refine ⟨hm.marking.tri, fun o x hx hc => hm.marking.tri.gray o x not_false hx hc ?_, hm.threads, hm.fixed, hm.waiting⟩
    rw [h.gc.plain o x hx]

/-- The program does something to the heap. -/
theorem Sound.mutates (h : s.Sound ex) (hm : Mutates W s.gc g)
    (hmodes : s.gc.gcState.phase = .propagate → KeepsModes s.gc g) (hW : ∀ o, W o → W' o) (hex : ∀ o, ex o → W' o) :
    Sound W' { s with gc := g } := by
  have hphase : g.gcState.phase = s.gc.gcState.phase := by rw [hm.frame]
  refine ⟨⟨hm.ok h.ok.gc, fun o ho => ?_, h.ok.oneGlobal⟩, fun hp => ?_, fun hp => ?_⟩
  · rcases List.mem_append.mp ho with ho | ho
    · exact hm.alive h.ok.gc.white (h.ok.roots o (List.mem_append_left _ ho))
    · exact (hm.ok h.ok.gc).kept o ho
  · rw [hphase] at hp
    have hmark := h.mark hp
    have htri := hmark.tri.mutates h.ok.gc hm (hmodes hp) hW hex
    have hag : g.gcState.grayagain = s.gc.gcState.grayagain := by rw [hm.frame]
    have hgr : g.gcState.gray = s.gc.gcState.gray := by rw [hm.frame]
    refine ⟨?_, fun o y hy hgray => ?_, hmark.threads.mutates h.ok.gc hm, fun o ho => ?_, ?_⟩
    · show TriInv s.savedThreads g.gcState.grayagain W' g
      rw [hag]
      exact htri
    · show Gc.Listed o (g.gcState.gray ++ g.gcState.grayagain)
      rw [hag, hgr]
      have hnot := hm.not_rested_gray h.ok.gc.white hgray
      rcases hm.cell_rev hy with ⟨-, -, hrest⟩ | ⟨x, hx, -, -, hcol⟩
      · exact absurd hrest hnot
      · exact hmark.gray o x hx ((hcol.resolve_right fun hc => hnot hc.2.1) ▸ hgray)
    · have hsettled : ∀ o ∈ s.fixedRefs, g.Settled o := by
        intro o ho
        obtain ⟨x, hx, -⟩ := h.ok.roots o (mem_rootRefs.mpr (.inl ho))
        exact hm.settled h.ok.gc hmark.tri.not_other ⟨x, hx⟩ (hmark.fixed o ho)
      rcases List.mem_append.mp ho with ho | ho
      · exact hsettled o (List.mem_append_left _ ho)
      · rcases hm.roots_new o ho with ho | ⟨y, hy, -, hpause | hblack⟩
        · exact hsettled o (List.mem_append_right _ ho)
        · rw [hp] at hpause
          cases hpause
        · intro z hz hc
          rw [hy] at hz
          cases hz
          have := (hm.ok h.ok.gc).white
          rw [← hc, hblack] at this
          cases this
    · show g.gcState.tmudata = []
      rw [hm.frame]
      exact hmark.waiting
  · rw [hphase] at hp
    have hrest := h.rest hp
    have htm : g.gcState.tmudata = s.gc.gcState.tmudata := by rw [hm.frame]
    have hcursor : g.gcState.sweepCursor = s.gc.gcState.sweepCursor := by rw [hm.frame]
    have hslots : ∀ k, s.gc.heap.slots k ≤ g.heap.slots k := hm.slots_le
    cases hcase : s.gc.gcState.phase <;> simp only [PhaseOk, hphase, hcase, htm, hcursor] at hrest ⊢
    case pause => exact ⟨hm.resting hrest.1, hrest.2⟩
    case propagate => exact absurd hcase hp
    case sweepString => exact ⟨hm.sweptTo hrest.1, hrest.2.trans (hslots _)⟩
    case sweep => exact ⟨hm.sweptTo hrest.1, hrest.2.1, hrest.2.2.trans (hslots _)⟩
    case finalize => exact hm.resting hrest

/-! ### Barriers -/

/-- A barrier recolours objects in the mark phase. -/
theorem Sound.traverses (h : s.Sound ex) (hphase : s.gc.gcState.phase = .propagate)
    (ht : Traverses (fun _ => True) s.gc g) (hs : StringsMarked s.gc g)
    (htri : TriInv s.savedThreads g.gcState.grayagain W' g)
    (hgray : ∀ o x, g.heap.cell o = some x → x.color = .gray → Gc.Listed o (g.gcState.gray ++ g.gcState.grayagain))
    (hthreads : g.ThreadsListed) : Sound W' { s with gc := g } := by
  have hmark := h.mark hphase
  have hroots : SameRoots s.gc g := by
    rw [SameRoots, ht.frame]
  have hphase' : g.gcState.phase = .propagate := by
    rw [ht.frame]
    exact hphase
  refine ⟨h.ok.traverses hmark.tri.not_other ht hs, fun _ => ⟨htri, hgray, hthreads, fun o ho => ?_, ?_⟩,
    fun hp => absurd hphase' hp⟩
  · exact ht.settled h.ok.gc.white (hmark.fixed o (fixedRefs_eq hroots ▸ ho))
  · show g.gcState.tmudata = []
    rw [ht.frame]
    exact hmark.waiting

/-- An object that is not black may have been written to. -/
theorem Sound.lift (h : s.Sound ex)
    (hex : s.gc.gcState.phase = .propagate → ∀ o x, ex o → s.gc.heap.cell o = some x → x.color = .black →
      BlackOk s.savedThreads s.gc.gcState.grayagain s.gc o x.value) : s.Sound fun _ => False := by
  refine ⟨h.ok, fun hp => ?_, h.rest⟩
  have hmark := h.mark hp
  exact ⟨hmark.tri.close fun o x ho _ hx _ => ⟨hmark.gray o x hx, hex hp o x ho hx⟩, hmark.gray, hmark.threads, hmark.fixed,
    hmark.waiting⟩

/-- The backward barrier: the table will be traversed again. -/
theorem Sound.barrierBack {r : GcRef .table} (h : s.Sound (· = ⟨_, r⟩)) :
    Sound (fun _ => False) { s with gc := s.gc.barrierBack r } := by
  have hstrings := StringsMarked.markSteps.barrierBack s.gc r
  rw [Gc.barrierBack] at hstrings ⊢
  split
  · next hb =>
    rw [if_pos hb] at hstrings
    obtain ⟨hphase, -⟩ := hb
    have hmark := h.mark hphase
    set g₁ : Gc := { s.gc with heap := s.gc.heap.setColor ⟨_, r⟩ .gray } with hg₁
    set g : Gc := { g₁ with gcState := { g₁.gcState with grayagain := g₁.gcState.grayagain ++ [.table r] } } with hg
    have ht₁ : Traverses (fun _ => True) s.gc g₁ := setColor_traverses s.gc rfl trivial
    have ht : Traverses (fun _ => True) s.gc g := ht₁.trans (addGrayagain_traverses g₁ (.table r))
    have hcell : ∀ o x, ¬ o = ⟨_, r⟩ → g.heap.cell o = some x → s.gc.heap.cell o = some x :=
      fun o x ho hx => cell_setColor_ne ho hx
    have hsub : ∀ i ∈ s.gc.gcState.grayagain, i ∈ g.gcState.grayagain := fun i hi => List.mem_append_left _ hi
    have hlisted : ∀ l, Gc.Listed (⟨_, r⟩ : ObjRef) (l ++ g.gcState.grayagain) := fun l =>
      ⟨.table r, List.mem_append_right _ (List.mem_append_right _ (List.mem_singleton_self _)), rfl⟩
    have hgray : ∀ o x, g.heap.cell o = some x → x.color = .gray → Gc.Listed o (g.gcState.gray ++ g.gcState.grayagain) := by
      intro o x hx hc
      by_cases ho : o = ⟨_, r⟩
      · exact ho ▸ hlisted _
      · refine (hmark.gray o x (hcell o x ho hx) hc).mono fun i hi => ?_
        exact (List.mem_append.mp hi).elim (List.mem_append_left _) fun hi => List.mem_append_right _ (hsub i hi)
    have hgray_color : ∀ x, g.heap.cell ⟨_, r⟩ = some x → x.color = .gray := by
      intro x hx
      change (s.gc.heap.setColor ⟨_, r⟩ .gray).cell ⟨_, r⟩ = some x at hx
      rw [Heap.cell_setColor, if_pos rfl] at hx
      obtain ⟨y, -, rfl⟩ := Option.map_eq_some_iff.mp hx
      rfl
    refine h.traverses hphase ht hstrings ?_ hgray ?_
    · refine (hmark.tri.step ht hcell (fun i hi => hi) hsub).close ?_
      rintro o x rfl - hx -
      refine ⟨hgray _ x hx, fun hblack => ?_⟩
      rw [hgray_color x hx] at hblack
      cases hblack
    · have hthreads := setColor_threadsListed (o := ⟨.table, r⟩) (by simp) .gray hmark.threads
      intro u
      rw [← hthreads u, listed_append]
      refine or_iff_left ?_
      rw [listed_singleton]
      simp [GrayItem.obj]
  · next hb =>
    refine h.lift fun hphase o x ho hx hblack => absurd ⟨hphase, ?_⟩ hb
    subst ho
    rw [Heap.color_eq, hx, ← hblack]
    rfl

/-- The forward barrier: what the object refers to now is marked. -/
theorem Sound.barrierForwardVal {x : Cell (Obj o.kind)} (h : s.Sound (· = o)) (hk : o.kind ≠ .thread)
    (hx : s.gc.heap.cell o = some x) {v : Val} (hv : ∀ c ∈ Obj.refs x.value, c ∈ v.objRef) :
    Sound (fun _ => False) { s with gc := s.gc.barrierForwardVal x.color v } := by
  rw [Gc.barrierForwardVal]
  split
  · next hb =>
    obtain ⟨hphase, -, -⟩ := hb
    have hmark := h.mark hphase
    obtain ⟨hmarks, hset⟩ := markValue_marks (P := fun _ => True) h.ok.closed_true.refs h.ok.gc.white (v := v)
      fun _ _ => trivial
    have hag : (s.gc.markValue v).gcState.grayagain = s.gc.gcState.grayagain := hmarks.grayagain_eq
    have hgray : ∀ o x, (s.gc.markValue v).heap.cell o = some x → x.color = .gray →
        Gc.Listed o ((s.gc.markValue v).gcState.gray ++ (s.gc.markValue v).gcState.grayagain) := by
      intro o' y hy hc
      rcases hmarks.cell o' with heq | ⟨z, hz, -, -, heq, hl⟩ | ⟨z, hz, -, -, heq, -, -⟩
      · refine (hmark.gray o' y (heq ▸ hy) hc).mono fun i hi => ?_
        rcases List.mem_append.mp hi with hi | hi
        · exact List.mem_append_left _ (hmarks.gray_sub i hi)
        · exact List.mem_append_right _ (hag ▸ hi)
      · exact hl.mono fun i hi => List.mem_append_left _ hi
      · rw [heq] at hy
        cases hy
        cases hc
    refine h.traverses hphase hmarks.traverses (StringsMarked.markSteps.markValue s.gc v) ?_ hgray
      (hmarks.threadsListed hmark.threads)
    rw [hag]
    refine (hmark.tri.marks hmarks).close ?_
    rintro o' y rfl - hy -
    refine ⟨fun hc => hag ▸ hgray _ y hy hc, fun _ => ?_⟩
    obtain ⟨z, hz, hvalue, -⟩ := hmarks.traverses.cell_rev hy
    rw [hx] at hz
    cases hz
    exact blackOk_of_refs hk fun c hc => hset c (hv c (hvalue ▸ hc))
  · next hb =>
    refine h.lift fun hphase o' y ho hy hblack => ?_
    subst ho
    rw [hx] at hy
    cases hy
    refine blackOk_of_refs hk fun c hc z hz hwhite => ?_
    refine absurd ⟨hphase, hblack, ?_⟩ hb
    rw [isWhiteValue, hv c hc]
    simp [Heap.color_eq, hz, hwhite]

/-! ### What only concerns the threads -/

/-- The machine does something that leaves the heap and the fixed roots alone, and brings no dead object into a thread. -/
theorem Sound.own (h : s.Sound ex) (hgc : s'.gc = s.gc) (hfixed : s'.fixedRefs = s.fixedRefs)
    (hsaved : s'.savedThreads = s.savedThreads) (hglobal : s'.global = s.global)
    (hown : ∀ o ∈ s'.ownRefs, s.gc.Alive o) : s'.Sound ex := by
  refine ⟨h.ok.own hgc hfixed hsaved hglobal hown, fun hp => ?_, fun hp => ?_⟩
  · have hm := h.mark (hgc ▸ hp)
    exact ⟨by rw [hgc, hsaved]; exact hm.tri, by rw [hgc]; exact hm.gray, by rw [hgc]; exact hm.threads,
      by rw [hgc, hfixed]; exact hm.fixed, by rw [hgc]; exact hm.waiting⟩
  · exact (h.rest (hgc ▸ hp)).congr hgc hfixed hsaved

end LuaState

end Rilua.Vm
