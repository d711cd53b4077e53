import Rilua.Vm.Gc.Keeps
import Rilua.Vm.Gc.Reachable
import Rilua.Vm.TableInv

/-! What the atomic phase removes from weak tables. The collector goes by the colour of a referent: it takes one that
    has the colour of the dead for dead. The sweep goes by the colour and the flags: it spares what is frozen or pinned,
    and a frozen object keeps the colour of the unmarked whether it is reachable or not. -/

namespace Rilua.Vm

open Lib Gc

/-- The entry in a slot of the array part (`.inl`) or of the hash part (`.inr`): its key, if it has one of its own, and
    its value. -/
def Table.entryAt (t : Table) : ℕ ⊕ ℕ → Option (Option Val × Val)
  | .inl i => (t.array[i]?).bind fun v => if v.isNil then none else some (none, v)
  | .inr i => (t.nodes[i]?).bind fun n => if n.key.isNil || n.value.isNil then none else some (some n.key, n.value)

namespace Gc

variable {g g' : Gc} {o : ObjRef} {r : GcRef .table} {t : Table} {vs ws : List Val} {rs : List (GcRef .table)}

/-- The weak referents of an entry of a table with the given mode, each with whether it is the key. -/
def weakReferents (mode : Bool × Bool) (e : Option Val × Val) : List (Val × Bool) :=
  (if mode.1 then e.1.toList.map (·, true) else []) ++ if mode.2 then [(e.2, false)] else []

/-- The sweep that starts in the state frees the object. -/
def FreedBySweep (g : Gc) (o : ObjRef) : Prop :=
  g.heap.isValid o = true ∧ ∃ b n, (g.heap.arena o.kind).sweep g.currentWhite.otherWhite g.currentWhite = some (b, n) ∧
    b.isValid o.ref = false

/-- A userdata that has been scheduled for finalization. -/
def Finalized (g : Gc) (v : Val) : Prop :=
  ∃ r x, v = .userdata r ∧ g.heap.get r = some x ∧ Userdata.finalized x = true

/-- A weak referent that an entry must not keep: the sweep frees it, or it is a value and has been scheduled for
    finalization. -/
def Lost (g : Gc) (p : Val × Bool) : Prop :=
  (∃ o ∈ p.1.objRef, g.FreedBySweep o) ∨ p.2 = false ∧ g.Finalized p.1

/-- From `g` to `g'` exactly the entries with a lost weak referent have gone from the table. -/
def ClearedExactly (g g' : Gc) (r : GcRef .table) : Prop :=
  ∀ t, g.heap.get r = some t → ∃ t', g'.heap.get r = some t' ∧ ∀ i e, Table.entryAt t' i = some e ↔
    Table.entryAt t i = some e ∧ ¬∃ p ∈ weakReferents (g.checkWeakMode (Table.metatable t)) e, g'.Lost p

/-! ### What the clearing does -/

/-- What is held by a weak table. -/
def heldBy (g : Gc) (r : GcRef .table) : List Val := ((g.heap.get r).map entryValues).getD []

/-- The strings among the values have been recoloured in the current white. -/
structure StringsKept (vs : List Val) (g g' : Gc) : Prop where
  frame : g' = { g with heap := g'.heap }
  keeps : Keeps g g'
  arena_eq : ∀ k, k ≠ .string → g'.heap.arena k = g.heap.arena k
  cell : ∀ s, g'.heap.cell ⟨.string, s⟩ = (g.heap.cell ⟨.string, s⟩).map fun x =>
    if .str s ∈ vs then { x with color := g.currentWhite } else x

namespace StringsKept

theorem refl (g : Gc) : StringsKept [] g g where
  frame := rfl
  keeps := .refl g
  arena_eq _ _ := rfl
  cell s := by simp

theorem trans {g'' : Gc} (h : StringsKept vs g g') (h' : StringsKept ws g' g'') : StringsKept (vs ++ ws) g g'' where
  frame := by
    have h₁ := h.frame
    have h₂ := h'.frame
    rw [h₁] at h₂
    exact h₂
  keeps := h.keeps.trans h'.keeps
  arena_eq k hk := (h'.arena_eq k hk).trans (h.arena_eq k hk)
  cell s := by
    rw [h'.cell, h.cell, Option.map_map, h.keeps.currentWhite_eq]
    refine congrArg (Option.map · _) (funext fun x => ?_)
    dsimp only [Function.comp_apply]
    by_cases hv : Val.str s ∈ vs
    · rw [if_pos hv, if_pos (List.mem_append_left _ hv)]
      split <;> rfl
    · rw [if_neg hv]
      by_cases hw : Val.str s ∈ ws
      · rw [if_pos hw, if_pos (List.mem_append_right _ hw)]
      · rw [if_neg hw, if_neg fun hm => (List.mem_append.mp hm).elim hv hw]

theorem keepString (g : Gc) (v : Val) : StringsKept [v] g (g.keepString v) := by
  have hother : (∀ s, v ≠ .str s) → StringsKept [v] g g := fun hv => by
    refine ⟨rfl, .refl g, fun _ _ => rfl, fun s => ?_⟩
    have hne : Val.str s ∉ [v] := fun hm => hv s (List.mem_singleton.mp hm).symm
    simp only [if_neg hne, Option.map_id_fun', id]
  cases v with
  | str s =>
    refine ⟨rfl, .keepString g (.str s), fun k hk =>
      Heap.arena_put_ne g.heap hk _ ((g.heap.wf .string).setColor s g.currentWhite), fun s' => ?_⟩
    show (g.heap.setColor ⟨.string, s⟩ g.currentWhite).cell _ = _
    rw [Heap.cell_setColor]
    by_cases hs : s' = s
    · subst hs
      rw [if_pos rfl]
      simp only [if_pos (List.mem_singleton_self (Val.str s'))]
    · have hne : Val.str s' ∉ [Val.str s] := fun hm => hs (by simpa using hm)
      rw [if_neg fun he => hs (by simpa using he)]
      simp only [if_neg hne, Option.map_id_fun', id]
  | _ => exact hother fun s hs => by cases hs

theorem foldl_keepString : ∀ (vs : List Val) (g : Gc), StringsKept vs g (vs.foldl Gc.keepString g)
  | [], g => refl g
  | v :: vs, g => (keepString g v).trans (foldl_keepString vs (g.keepString v))

theorem keepStrings (g : Gc) (r : GcRef .table) : StringsKept (g.heldBy r) g (g.keepStrings r) := by
  rw [Gc.keepStrings, heldBy]
  cases g.heap.get r with
  | none => exact refl g
  | some t => exact foldl_keepString (entryValues t) g

theorem heldBy_eq (h : StringsKept vs g g') (r : GcRef .table) : g'.heldBy r = g.heldBy r := by
  rw [heldBy, heldBy, h.keeps.get_eq .table r (by simp)]

theorem foldl_keepStrings : ∀ (rs : List (GcRef .table)) (g : Gc),
    StringsKept (rs.flatMap g.heldBy) g (rs.foldl Gc.keepStrings g)
  | [], g => refl g
  | r :: rs, g => by
    have h := keepStrings g r
    have hrest := foldl_keepStrings rs (g.keepStrings r)
    rw [funext h.heldBy_eq] at hrest
    exact h.trans hrest

end StringsKept

/-- A table after its clearing. -/
def clearedTable (g : Gc) (t : Table) : Table :=
  g.clearEntries (g.checkWeakMode t.metatable).1 (g.checkWeakMode t.metatable).2 t

theorem clearEntries_strong (g : Gc) (t : Table) : g.clearEntries false false t = t := by
  simp [clearEntries]

theorem clearEntries_idem (g : Gc) (wk wv : Bool) (t : Table) :
    g.clearEntries wk wv (g.clearEntries wk wv t) = g.clearEntries wk wv t := by
  have hnil : g.isDeadCollectable .nil false = false := rfl
  simp only [clearEntries, List.map_map, Table.mk.injEq, and_self, and_true]
  constructor
  · refine List.map_congr_left fun v _ => ?_
    dsimp only [Function.comp_apply]
    split
    · rw [hnil, Bool.and_false, if_neg (by simp)]
    · rfl
  · refine List.map_congr_left fun n _ => ?_
    dsimp only [Function.comp_apply]
    split
    · split <;> rfl
    · rfl

/-- A lookup of a string in the cleared table gives what it gave before, or nil where it gave no string. -/
theorem get_str_clearEntries (g : Gc) (wk wv : Bool) (t : Table) (key : GcRef .string) (strings : StringArena) :
    (g.clearEntries wk wv t).get (.str key) strings = t.get (.str key) strings ∨
      (g.clearEntries wk wv t).get (.str key) strings = some .nil ∧
        ∃ v, t.get (.str key) strings = some v ∧ ∀ s, v ≠ .str s := by
  have hwalk : ∀ (test : Val → Bool) (fuel : ℕ) (cur : Option ℕ),
      Table.walk (g.clearEntries wk wv t).nodes test fuel cur = Table.walk t.nodes test fuel cur := by
    intro test fuel
    induction fuel with
    | zero =>
      intro cur
      cases cur <;> rfl
    | succ fuel ih =>
      intro cur
      cases cur with
      | none => rfl
      | some i =>
        simp only [Table.walk, clearEntries, List.getElem?_map] at ih ⊢
        cases t.nodes[i]? with
        | none => rfl
        | some n =>
          simp only [Option.map_some, bind, Option.bind_some]
          split
          · next hn => rw [ih]
          · rw [ih]
  have hempty : (g.clearEntries wk wv t).nodes.isEmpty = t.nodes.isEmpty := by
    simp [clearEntries]
  have hsize : (g.clearEntries wk wv t).hashSize = t.hashSize := by
    rw [Table.hashSize, Table.hashSize, hempty]
    rfl
  simp only [Table.get, Table.getStr, Table.getStrHashed, Table.chainValue, hempty, hsize, hwalk]
  have hlen : (g.clearEntries wk wv t).nodes.length = t.nodes.length := by simp [clearEntries]
  rw [hlen]
  split
  · exact .inl rfl
  split
  · exact .inl rfl
  cases hw : Table.walk t.nodes (Table.strIs key) t.nodes.length _ with
  | none => exact .inl rfl
  | some found =>
    cases found with
    | none => exact .inl rfl
    | some i =>
      obtain ⟨n, hn, htest⟩ := Table.walk_found hw
      have hkey : ∃ s, n.key = .str s := by
        cases hk : n.key with
        | str s => exact ⟨s, rfl⟩
        | _ =>
          rw [hk] at htest
          cases htest
      obtain ⟨s, hs⟩ := hkey
      have hdead : g.isDeadCollectable n.key true = false := by rw [hs]; rfl
      simp only [bind, Option.bind_some, clearEntries, List.getElem?_map, hn, Option.map_some, hdead, Bool.and_false,
        Bool.false_or]
      split
      · next hc =>
        refine .inr ⟨rfl, n.value, rfl, fun s' hs' => ?_⟩
        rw [hs'] at hc
        simp [isDeadCollectable] at hc
      · exact .inl rfl

/-- The tables of the list have been cleared. -/
structure Clears (rs : List (GcRef .table)) (g g' : Gc) : Prop where
  frame : g' = { g with heap := g'.heap }
  arena_eq : ∀ k, k ≠ .table → g'.heap.arena k = g.heap.arena k
  cell : ∀ r, g'.heap.cell ⟨.table, r⟩ = (g.heap.cell ⟨.table, r⟩).map fun x =>
    if r ∈ rs then { x with value := g.clearedTable x.value } else x

namespace Clears

theorem refl (g : Gc) : Clears [] g g where
  frame := rfl
  arena_eq _ _ := rfl
  cell r := by simp

theorem get_eq (h : Clears rs g g') {k : ObjKind} (hk : k ≠ .table) (r : GcRef k) : g'.heap.get r = g.heap.get r := by
  rw [Heap.get, Heap.get, h.arena_eq k hk]

theorem get_table (h : Clears rs g g') (r : GcRef .table) :
    g'.heap.get r = (g.heap.get r).map fun t => if r ∈ rs then g.clearedTable t else t := by
  rw [Heap.get_eq, Heap.get_eq, h.cell, Option.map_map, Option.map_map]
  refine congrArg (Option.map · _) (funext fun x => ?_)
  dsimp only [Function.comp_apply]
  split <;> rfl

theorem color_eq (h : Clears rs g g') (o : ObjRef) :
    g'.heap.color o = g.heap.color o ∧ ∀ f, g'.heap.hasFlag o f = g.heap.hasFlag o f := by
  by_cases hk : o.kind = .table
  · obtain ⟨k, r⟩ := o
    cases hk
    rw [Heap.color_eq, Heap.color_eq, h.cell]
    refine ⟨?_, fun f => ?_⟩
    · cases g.heap.cell ⟨.table, r⟩ with
      | none => rfl
      | some x =>
        simp only [Option.map_some]
        split <;> rfl
    · rw [Heap.hasFlag_eq, Heap.hasFlag_eq, h.cell]
      cases g.heap.cell ⟨.table, r⟩ with
      | none => rfl
      | some x =>
        simp only [Option.map_some]
        split <;> rfl
  · refine ⟨?_, fun f => ?_⟩
    · rw [Heap.color, Heap.color, h.arena_eq _ hk]
    · rw [Heap.hasFlag, Heap.hasFlag, h.arena_eq _ hk]

theorem isDeadCollectable_eq (h : Clears rs g g') (v : Val) (isKey : Bool) :
    g'.isDeadCollectable v isKey = g.isDeadCollectable v isKey := by
  have hwhite : g'.currentWhite = g.currentWhite := by rw [h.frame]
  cases v with
  | userdata r => simp only [isDeadCollectable, (h.color_eq _).1, hwhite, h.get_eq (k := .userdata) (by simp)]
  | _ => simp only [isDeadCollectable, (h.color_eq _).1, hwhite]

/-- Clearing tables does not change the mode of any table. -/
theorem checkWeakMode_eq (h : Clears rs g g') (mt : Option (GcRef .table)) :
    g'.checkWeakMode mt = g.checkWeakMode mt := by
  have hname : g'.findInternedString modeName = g.findInternedString modeName := by
    have htm : g'.tmNames = g.tmNames := by rw [h.frame]
    simp only [findInternedString, htm, h.get_eq (k := .string) (by simp), h.arena_eq .string (by simp)]
  have hmeta : ∀ mt, g'.metafield mt modeName = g.metafield mt modeName ∨
      g'.metafield mt modeName = .nil ∧ ∀ s, g.metafield mt modeName ≠ .str s := by
    intro mt
    rw [metafield, metafield, hname, h.get_table, h.arena_eq .string (by simp)]
    cases g.heap.get mt with
    | none => exact .inl rfl
    | some t =>
      cases g.findInternedString modeName with
      | none => exact .inl rfl
      | some key =>
        simp only [Option.map_some]
        split
        · rcases get_str_clearEntries g (g.checkWeakMode (Table.metatable t)).1 (g.checkWeakMode (Table.metatable t)).2 t
            key (g.heap.arena .string) with heq | ⟨hnil, v, hv, hns⟩
          · exact .inl (congrArg (·.getD Val.nil) heq)
          · refine .inr ⟨congrArg (·.getD Val.nil) hnil, fun s => ?_⟩
            rw [hv]
            exact hns s
        · exact .inl rfl
  cases mt with
  | none => rfl
  | some mt =>
    rw [checkWeakMode, checkWeakMode, Option.map_some, Option.map_some]
    rcases hmeta mt with heq | ⟨hnil, hns⟩
    · rw [heq]
      simp only [h.get_eq (k := .string) (by simp)]
    · rw [hnil]
      cases hm : g.metafield mt modeName with
      | str s => exact absurd hm (hns s)
      | _ => rfl

theorem clearedTable_eq (h : Clears rs g g') (t : Table) : g'.clearedTable t = g.clearedTable t := by
  rw [clearedTable, clearedTable, h.checkWeakMode_eq, clearEntries, clearEntries]
  simp only [h.isDeadCollectable_eq]

theorem trans {g'' : Gc} {rs' : List (GcRef .table)} (h : Clears rs g g') (h' : Clears rs' g' g'') :
    Clears (rs ++ rs') g g'' where
  frame := by
    have h₁ := h.frame
    have h₂ := h'.frame
    rw [h₁] at h₂
    exact h₂
  arena_eq k hk := (h'.arena_eq k hk).trans (h.arena_eq k hk)
  cell r := by
    rw [h'.cell, h.cell, Option.map_map]
    refine congrArg (Option.map · _) (funext fun x => ?_)
    dsimp only [Function.comp_apply]
    have hidem : g.clearedTable (g.clearedTable x.value) = g.clearedTable x.value := clearEntries_idem ..
    by_cases hr : r ∈ rs
    · rw [if_pos hr, if_pos (List.mem_append_left _ hr)]
      split
      · rw [h.clearedTable_eq, hidem]
      · rfl
    · rw [if_neg hr, h.clearedTable_eq]
      by_cases hr' : r ∈ rs'
      · rw [if_pos hr', if_pos (List.mem_append_right _ hr')]
      · rw [if_neg hr', if_neg fun hm => (List.mem_append.mp hm).elim hr hr']

theorem clearWeakTable (g : Gc) (r : GcRef .table) : Clears [r] g (g.clearWeakTable r) := by
  -- nothing happens where the table is not there or has no weak mode
  have hsame : (∀ t, g.heap.get r = some t → g.clearedTable t = t) → Clears [r] g g := by
    intro hid
    refine ⟨rfl, fun _ _ => rfl, fun r' => ?_⟩
    cases hx : g.heap.cell ⟨.table, r'⟩ with
    | none => rfl
    | some x =>
      rw [Option.map_some]
      split
      · next hr =>
        have hget : g.heap.get r' = some x.value := by rw [Heap.get_eq, hx]; rfl
        rw [hid x.value (by rw [← List.mem_singleton.mp hr, hget])]
      · rfl
  rw [Gc.clearWeakTable]
  cases hget : g.heap.get r with
  | none =>
    refine hsame fun t ht => ?_
    rw [hget] at ht
    cases ht
  | some t =>
    dsimp only
    split
    · refine ⟨rfl, fun k hk => Heap.arena_put_ne g.heap hk _ ((g.heap.wf .table).modify r _), fun r' => ?_⟩
      by_cases hr : r' = r
      · subst hr
        refine (Heap.cell_modify_self ..).trans ?_
        obtain ⟨x, hx, rfl⟩ : ∃ x, g.heap.cell ⟨.table, r'⟩ = some x ∧ x.value = t := by
          rw [Heap.get_eq] at hget
          exact Option.map_eq_some_iff.mp hget
        rw [hx, Option.map_some, Option.map_some, if_pos (List.mem_singleton_self r')]
        rfl
      · have hne : r' ∉ [r] := fun hm => hr (List.mem_singleton.mp hm)
        refine (Heap.cell_modify_ne _ _ _ fun he => hr (by simpa using he)).trans ?_
        simp only [if_neg hne, Option.map_id_fun', id]
    · next hmode =>
      refine hsame fun t' ht' => ?_
      rw [hget] at ht'
      cases ht'
      simp only [Bool.or_eq_true, not_or, Bool.not_eq_true] at hmode
      rw [clearedTable, hmode.1, hmode.2, clearEntries_strong]

theorem foldl_clearWeakTable : ∀ (rs : List (GcRef .table)) (g : Gc), Clears rs g (rs.foldl Gc.clearWeakTable g)
  | [], g => refl g
  | r :: rs, g => (clearWeakTable g r).trans (foldl_clearWeakTable rs (g.clearWeakTable r))

end Clears

/-! ### What is gone, before and after -/

/-- The colour of an object is the one that unmarked objects have when the marking is over. -/
def HasDeadColor (g : Gc) (o : ObjRef) : Prop := g.heap.color o = some g.currentWhite.otherWhite

/-- The sweep spares the object whatever its colour. -/
def KeptAlive (g : Gc) (o : ObjRef) : Prop := g.heap.hasFlag o .pinned = true ∨ g.heap.hasFlag o .frozen = true

/-- An object that has the colour of the dead and is neither frozen nor pinned, nor a string in a table to be cleared. -/
def Doomed (g : Gc) (o : ObjRef) : Prop :=
  g.HasDeadColor o ∧ ¬g.KeptAlive o ∧
    ∀ s, o = ⟨.string, s⟩ → ∀ r ∈ g.gcState.weakTables, .str s ∉ g.heldBy r

/-- A weak referent that is lost when the marking is over. -/
def Gone (g : Gc) (p : Val × Bool) : Prop := (∃ o ∈ p.1.objRef, g.Doomed o) ∨ p.2 = false ∧ g.Finalized p.1

/-- A frozen or pinned object that has the colour of the dead. Strings are not cleared. -/
def Spared (g : Gc) (v : Val) : Prop := ∃ o ∈ v.objRef, o.kind ≠ .string ∧ g.HasDeadColor o ∧ g.KeptAlive o

theorem freedBySweep_iff : g.FreedBySweep o ↔ g.HasDeadColor o ∧ ¬g.KeptAlive o := by
  obtain ⟨b, n, hb, hswept⟩ := Arena.sweep_spec (g.heap.wf o.kind) g.currentWhite.otherWhite g.currentWhite
  have hvalid : b.isValid o.ref = false ↔ b.cell o.ref = none := by
    rw [Arena.isValid_eq_cell hswept.wf, Option.isSome_eq_false_iff, Option.isNone_iff_eq_none]
  have hiff : g.FreedBySweep o ↔ g.heap.isValid o = true ∧ b.cell o.ref = none := by
    refine and_congr_right fun _ => ?_
    rw [← hvalid]
    constructor
    · rintro ⟨b', n', hb', hv⟩
      rw [hb] at hb'
      cases hb'
      exact hv
    · exact fun hv => ⟨b, n, hb, hv⟩
  rw [hiff, Heap.isValid_eq, HasDeadColor, KeptAlive, Heap.color_eq, Heap.hasFlag_eq, Heap.hasFlag_eq]
  cases hx : g.heap.cell o with
  | none => simp
  | some x =>
    have hlt : o.ref.index < (g.heap.arena o.kind).entries.length := (Arena.occupiedSlot_of_cell (g.heap.wf o.kind) hx).lt
    have hcell : b.cell o.ref = Arena.sweepCell g.currentWhite.otherWhite g.currentWhite x := by
      rw [hswept.cell_eq, if_pos ⟨Nat.zero_le _, hlt⟩]
      exact congrArg (Option.bind · _) hx
    rw [hcell, Arena.sweepCell]
    cases hp : x.flags.pinned <;> cases hf : x.flags.frozen <;>
      simp [Flags.isKeptAlive, Flags.has, hp, hf]

theorem hasDeadColor_congr (hwhite : g'.currentWhite = g.currentWhite) (hcolor : g'.heap.color o = g.heap.color o) :
    g'.HasDeadColor o ↔ g.HasDeadColor o := by
  rw [HasDeadColor, HasDeadColor, hwhite, hcolor]

theorem keptAlive_congr (hflag : ∀ f, g'.heap.hasFlag o f = g.heap.hasFlag o f) : g'.KeptAlive o ↔ g.KeptAlive o := by
  rw [KeptAlive, KeptAlive, hflag, hflag]

/-- What has the dead colour when strings have been kept. -/
theorem StringsKept.dead_iff (h : StringsKept vs g g') (hwhite : g.currentWhite.isWhite = true) (o : ObjRef) :
    (g'.HasDeadColor o ↔ g.HasDeadColor o ∧ ∀ s, o = ⟨.string, s⟩ → .str s ∉ vs) ∧ (g'.KeptAlive o ↔ g.KeptAlive o) := by
  by_cases hk : o.kind = .string
  · obtain ⟨k, s⟩ := o
    cases hk
    have hs : (∀ s', (⟨.string, s⟩ : ObjRef) = ⟨.string, s'⟩ → .str s' ∉ vs) ↔ .str s ∉ vs := by
      constructor
      · exact fun hall => hall s rfl
      · rintro hn s' hs'
        cases hs'
        exact hn
    rw [hs, HasDeadColor, HasDeadColor, h.keeps.currentWhite_eq, Heap.color_eq, Heap.color_eq, KeptAlive, KeptAlive]
    simp only [Heap.hasFlag_eq, h.cell]
    cases g.heap.cell ⟨.string, s⟩ with
    | none => simp
    | some x =>
      by_cases hm : Val.str s ∈ vs
      · simp [hm, (Color.otherWhite_ne hwhite).symm]
      · simp [hm]
  · have harena := h.arena_eq o.kind hk
    refine ⟨?_, keptAlive_congr fun f => ?_⟩
    · rw [hasDeadColor_congr h.keeps.currentWhite_eq (by rw [Heap.color, Heap.color, harena])]
      refine (and_iff_left fun s hs => ?_).symm
      exact absurd (congrArg ObjRef.kind hs) hk
    · rw [Heap.hasFlag, Heap.hasFlag, harena]

theorem StringsKept.isDeadCollectable_eq (h : StringsKept vs g g') (v : Val) (isKey : Bool) :
    g'.isDeadCollectable v isKey = g.isDeadCollectable v isKey := by
  have hcolor : ∀ o : ObjRef, o.kind ≠ .string → g'.heap.color o = g.heap.color o := fun o hk => by
    rw [Heap.color, Heap.color, h.arena_eq _ hk]
  have hud : ∀ r : GcRef .userdata, g'.heap.get r = g.heap.get r := fun r => by
    rw [Heap.get, Heap.get, h.arena_eq _ (by simp)]
  cases v with
  | str s => rfl
  | nil => rfl
  | bool b => rfl
  | num n => rfl
  | lightUserdata p => rfl
  | userdata r => simp only [isDeadCollectable, h.keeps.currentWhite_eq, hcolor ⟨.userdata, r⟩ (by simp), hud]
  | table r => simp only [isDeadCollectable, h.keeps.currentWhite_eq, hcolor ⟨.table, r⟩ (by simp)]
  | function r => simp only [isDeadCollectable, h.keeps.currentWhite_eq, hcolor ⟨.closure, r⟩ (by simp)]
  | thread r => simp only [isDeadCollectable, h.keeps.currentWhite_eq, hcolor ⟨.thread, r⟩ (by simp)]

/-- The clearing: tables of the list lose the entries with a dead weak referent, and what the sweep will free is what
    is doomed before. -/
theorem clearWeakTables_spec (hwhite : g.currentWhite.isWhite = true) :
    (∀ r, g.clearWeakTables.heap.get r = (g.heap.get r).map fun t =>
      if r ∈ g.gcState.weakTables then g.clearedTable t else t) ∧
      ∀ p, g.clearWeakTables.Lost p ↔ g.Gone p := by
  set g₀ : Gc := { g with gcState := { g.gcState with weakTables := [] } } with hg₀
  have hkept : StringsKept (g.gcState.weakTables.flatMap g.heldBy) g₀ (g.gcState.weakTables.foldl keepStrings g₀) :=
    StringsKept.foldl_keepStrings g.gcState.weakTables g₀
  set g₁ : Gc := g.gcState.weakTables.foldl keepStrings g₀ with hg₁
  have hclear : Clears g.gcState.weakTables g₁ g.clearWeakTables :=
    Clears.foldl_clearWeakTable g.gcState.weakTables g₁
  have hwhite' : g.clearWeakTables.currentWhite = g₁.currentWhite := by rw [hclear.frame]
  have hmode : Keeps g g₀ := ⟨rfl, rfl, fun _ => rfl, fun _ _ _ => rfl⟩
  refine ⟨fun r => ?_, fun p => or_congr (exists_congr fun o => and_congr_right fun _ => ?_)
    (and_congr_right fun _ => ?_)⟩
  · have htable : ∀ t, g₁.clearedTable t = g.clearedTable t := fun t => by
      rw [clearedTable, clearedTable, (hmode.trans hkept.keeps).checkWeakMode_eq, clearEntries, clearEntries]
      simp only [hkept.isDeadCollectable_eq]
      rfl
    rw [hclear.get_table, (hmode.trans hkept.keeps).get_eq .table r (by simp)]
    simp only [htable]
  · obtain ⟨hcolor, hflag⟩ := hclear.color_eq o
    obtain ⟨hdead, halive⟩ := hkept.dead_iff hwhite o
    rw [freedBySweep_iff, hasDeadColor_congr hwhite' hcolor, keptAlive_congr hflag, hdead, halive, Doomed]
    have hheld : (∀ s, o = ⟨.string, s⟩ → .str s ∉ g.gcState.weakTables.flatMap g.heldBy) ↔
        ∀ s, o = ⟨.string, s⟩ → ∀ r ∈ g.gcState.weakTables, .str s ∉ g.heldBy r := by
      simp only [List.mem_flatMap, not_exists, not_and]
    rw [hheld]
    exact and_assoc.trans (and_congr_right fun _ => and_comm)
  · have hud : ∀ r : GcRef .userdata, g.clearWeakTables.heap.get r = g.heap.get r := fun r => by
      rw [hclear.get_eq (by simp), Heap.get, hkept.arena_eq _ (by simp)]
      rfl
    simp only [Finalized, hud]

theorem exists_weakReferents {mode : Bool × Bool} {key : Option Val} {v : Val} {P : Val × Bool → Prop} :
    (∃ p ∈ weakReferents mode (key, v), P p) ↔
      (mode.1 = true ∧ ∃ k ∈ key, P (k, true)) ∨ mode.2 = true ∧ P (v, false) := by
  obtain ⟨wk, wv⟩ := mode
  cases wk <;> cases wv <;> cases key <;> simp [weakReferents]

/-- Setting the value of an entry to nil where `c` holds removes the entry there. -/
theorem some_entry_iff {absent c : Bool} {e e' : Option Val × Val} {P : Option Val × Val → Prop} (hP : P e ↔ c = true) :
    (if absent || c then none else some e) = some e' ↔ (if absent then none else some e) = some e' ∧ ¬P e' := by
  cases absent
  · simp only [Bool.false_or, Bool.false_eq_true, if_false, Option.some.injEq]
    cases c
    · rw [if_neg (by simp), Option.some.injEq]
      refine (and_iff_left_of_imp ?_).symm
      rintro rfl
      rw [hP]
      simp
    · rw [if_pos rfl]
      refine ⟨fun h => by simp at h, ?_⟩
      rintro ⟨rfl, hn⟩
      exact absurd (hP.mpr rfl) hn
  · simp

/-- An entry of a cleared table is an entry that was there with no dead weak referent. -/
theorem entryAt_clearEntries {mode : Bool × Bool} {i : ℕ ⊕ ℕ} {e : Option Val × Val} :
    (g.clearEntries mode.1 mode.2 t).entryAt i = some e ↔
      t.entryAt i = some e ∧ ¬∃ p ∈ weakReferents mode e, g.isDeadCollectable p.1 p.2 = true := by
  cases i with
  | inl i =>
    simp only [Table.entryAt, clearEntries, List.getElem?_map]
    cases t.array[i]? with
    | none => simp
    | some v =>
      have hvalue : (if (if mode.2 && g.isDeadCollectable v false then Val.nil else v).isNil then none
          else some ((none : Option Val), if mode.2 && g.isDeadCollectable v false then Val.nil else v)) =
          if v.isNil || (mode.2 && g.isDeadCollectable v false) then none else some (none, v) := by
        cases mode.2 && g.isDeadCollectable v false <;> simp
      simp only [Option.map_some, Option.bind_some, hvalue]
      refine some_entry_iff (P := fun e => ∃ p ∈ weakReferents mode e, g.isDeadCollectable p.1 p.2 = true) ?_
      rw [exists_weakReferents]
      simp
  | inr i =>
    simp only [Table.entryAt, clearEntries, List.getElem?_map]
    cases t.nodes[i]? with
    | none => simp
    | some n =>
      simp only [Option.map_some, Option.bind_some]
      cases hk : n.key.isNil
      · set c := mode.1 && g.isDeadCollectable n.key true || mode.2 && g.isDeadCollectable n.value false with hc
        have hvalue : (if (if !false && c then { n with value := Val.nil } else n).key.isNil ||
            (if !false && c then { n with value := Val.nil } else n).value.isNil then none
            else some (some (if !false && c then { n with value := Val.nil } else n).key,
              (if !false && c then { n with value := Val.nil } else n).value)) =
            if n.value.isNil || c then none else some (some n.key, n.value) := by
          cases c <;> simp [hk]
        rw [hvalue, Bool.false_or]
        refine some_entry_iff (P := fun e => ∃ p ∈ weakReferents mode e, g.isDeadCollectable p.1 p.2 = true) ?_
        rw [exists_weakReferents, hc]
        simp
      · simp [hk]

theorem mem_entryValues_of_entryAt {i : ℕ ⊕ ℕ} {e : Option Val × Val} (he : t.entryAt i = some e) {mode : Bool × Bool}
    {p : Val × Bool} (hp : p ∈ weakReferents mode e) : p.1 ∈ entryValues t := by
  have hmem : e.2 ∈ entryValues t ∧ ∀ k ∈ e.1, k ∈ entryValues t := by
    cases i with
    | inl i =>
      simp only [Table.entryAt, Option.bind_eq_some_iff] at he
      obtain ⟨v, hv, he⟩ := he
      split at he
      · cases he
      · cases he
        exact ⟨List.mem_append_left _ (List.mem_of_getElem? hv), fun k hk => by cases hk⟩
    | inr i =>
      simp only [Table.entryAt, Option.bind_eq_some_iff] at he
      obtain ⟨n, hn, he⟩ := he
      split at he
      · cases he
      · next hnil =>
        simp only [Bool.or_eq_true, not_or, Bool.not_eq_true] at hnil
        cases he
        have hnode : ∀ v ∈ [n.key, n.value], v ∈ entryValues t := fun v hv =>
          List.mem_append_right _ (List.mem_flatMap.mpr ⟨n, List.mem_of_getElem? hn, by rw [hnil.1]; exact hv⟩)
        refine ⟨hnode _ (by simp), fun k hk => ?_⟩
        cases hk
        exact hnode _ (by simp)
  rw [weakReferents, List.mem_append] at hp
  rcases hp with hp | hp
  · split at hp
    · obtain ⟨k, hk, rfl⟩ := List.mem_map.mp hp
      exact hmem.2 k (Option.mem_toList.mp hk)
    · cases hp
  · split at hp
    · rw [List.mem_singleton.mp hp]
      exact hmem.1
    · cases hp

theorem isDeadCollectable_iff (p : Val × Bool) : g.isDeadCollectable p.1 p.2 = true ↔
    (∃ o ∈ p.1.objRef, o.kind ≠ .string ∧ g.HasDeadColor o) ∨ p.2 = false ∧ g.Finalized p.1 := by
  obtain ⟨v, isKey⟩ := p
  cases v with
  | userdata r =>
    have hfin : g.Finalized (.userdata r) ↔ (g.heap.get r).any Userdata.finalized = true := by
      rw [Option.any_eq_true]
      constructor
      · rintro ⟨r', x, hr, hx, hf⟩
        cases hr
        exact ⟨x, hx, hf⟩
      · rintro ⟨x, hx, hf⟩
        exact ⟨r, x, rfl, hx, hf⟩
    simp [isDeadCollectable, Val.objRef, HasDeadColor, hfin]
  | _ => simp [isDeadCollectable, Val.objRef, HasDeadColor, Finalized]

/-- In a table of the list, a weak referent with the colour of the dead is gone or is spared by the sweep. -/
theorem dead_iff_gone {i : ℕ ⊕ ℕ} {e : Option Val × Val} (hlist : r ∈ g.gcState.weakTables) (ht : g.heap.get r = some t)
    (he : t.entryAt i = some e) {mode : Bool × Bool} {p : Val × Bool} (hp : p ∈ weakReferents mode e) :
    g.isDeadCollectable p.1 p.2 = true ↔ g.Gone p ∨ g.Spared p.1 := by
  have hheld : p.1 ∈ g.heldBy r := by
    rw [heldBy, ht]
    exact mem_entryValues_of_entryAt he hp
  rw [isDeadCollectable_iff, Gone, Spared]
  constructor
  · rintro (⟨o, ho, hk, hdead⟩ | hfin)
    · by_cases halive : g.KeptAlive o
      · exact .inr ⟨o, ho, hk, hdead, halive⟩
      · exact .inl (.inl ⟨o, ho, hdead, halive, fun s hs => absurd (congrArg ObjRef.kind hs) hk⟩)
    · exact .inl (.inr hfin)
  · rintro ((⟨o, ho, hdead, -, hstr⟩ | hfin) | ⟨o, ho, hk, hdead, -⟩)
    · refine .inl ⟨o, ho, fun hk => ?_, hdead⟩
      -- a string in the table is kept
      obtain ⟨k, s⟩ := o
      cases hk
      have hv : p.1 = .str s := by
        cases hp1 : p.1 <;> rw [hp1] at ho <;> cases ho
        rfl
      exact hstr s rfl r hlist (hv ▸ hheld)
    · exact .inr hfin
    · exact .inl ⟨o, ho, hk, hdead⟩

/-- The colours tell of the weak referents of an entry whether one is lost: the table is on the list, and if one of
    them is frozen or pinned and has the colour of the dead, then another one is gone; or the table is not on the list
    and none of them is gone. -/
def Discerned (g : Gc) (r : GcRef .table) (ps : List (Val × Bool)) : Prop :=
  if r ∈ g.gcState.weakTables then (∃ p ∈ ps, g.Spared p.1) → ∃ p ∈ ps, g.Gone p else ¬∃ p ∈ ps, g.Gone p

theorem clearWeakTables_iff (hwhite : g.currentWhite.isWhite = true) (ht : g.heap.get r = some t) :
    (∃ t', g.clearWeakTables.heap.get r = some t' ∧ ∀ i e, Table.entryAt t' i = some e ↔
      t.entryAt i = some e ∧ ¬∃ p ∈ weakReferents (g.checkWeakMode t.metatable) e, g.clearWeakTables.Lost p) ↔
      ∀ i e, t.entryAt i = some e → g.Discerned r (weakReferents (g.checkWeakMode t.metatable) e) := by
  obtain ⟨hget, hlost⟩ := clearWeakTables_spec hwhite
  rw [hget, ht, Option.map_some]
  simp only [Option.some.injEq, exists_eq_left', hlost]
  by_cases hlist : r ∈ g.gcState.weakTables
  · simp only [if_pos hlist, clearedTable, entryAt_clearEntries, Discerned]
    refine forall_congr' fun i => forall_congr' fun e => ?_
    have hdead : t.entryAt i = some e →
        ((∃ p ∈ weakReferents (g.checkWeakMode t.metatable) e, g.isDeadCollectable p.1 p.2 = true) ↔
          (∃ p ∈ weakReferents (g.checkWeakMode t.metatable) e, g.Gone p) ∨
            ∃ p ∈ weakReferents (g.checkWeakMode t.metatable) e, g.Spared p.1) := fun he => by
      rw [← exists_or]
      refine exists_congr fun p => ?_
      rw [← and_or_left]
      exact and_congr_right fun hp => dead_iff_gone hlist ht he hp
    constructor
    · intro h he hspared
      by_contra hgone
      exact ((h.mpr ⟨he, hgone⟩).2) ((hdead he).mpr (.inr hspared))
    · intro h
      refine and_congr_right fun he => ?_
      rw [hdead he]
      exact not_congr ⟨fun h' => h'.elim id (h he), .inl⟩
  · simp only [if_neg hlist, Discerned]
    refine forall_congr' fun i => forall_congr' fun e => ?_
    constructor
    · exact fun h he => (h.mp he).2
    · exact fun h => (and_iff_left_of_imp h).symm

/-- The other white becomes the current one. -/
def flip (g : Gc) : Gc := { g with currentWhite := g.currentWhite.otherWhite }

theorem clearedExactly_atomic (g₀ g : Gc) (r : GcRef .table) :
    ClearedExactly g₀ g.atomic r ↔ ClearedExactly g₀ g.atomicMark.flip.clearWeakTables r := by
  have hstate : ∀ (c : Gc) (st : GcState), ClearedExactly g₀ { c with gcState := st } r ↔ ClearedExactly g₀ c r :=
    fun _ _ => Iff.rfl
  rw [atomic]
  exact hstate _ _

theorem Keeps.clearedExactly_iff {m : Gc} (h : Keeps g m) (hwhite : g.currentWhite.isWhite = true) :
    ClearedExactly g m.flip.clearWeakTables r ↔ ∀ t, g.heap.get r = some t → ∀ i e, Table.entryAt t i = some e →
      m.flip.Discerned r (weakReferents (g.checkWeakMode (Table.metatable t)) e) := by
  have hflip : m.flip.currentWhite.isWhite = true := by
    rw [flip, Color.isWhite_otherWhite, h.currentWhite_eq, hwhite]
  refine forall_congr' fun t => imp_congr_right fun ht => ?_
  have hget : m.flip.heap.get r = some t := (h.get_eq .table r (by simp)).trans ht
  have hmode : m.flip.checkWeakMode (Table.metatable t) = g.checkWeakMode (Table.metatable t) := h.checkWeakMode_eq _
  rw [← hmode]
  exact clearWeakTables_iff hflip hget

end Gc

namespace LuaState

/-- The heap when the weak tables are cleared: the marking is over and the whites have been flipped. -/
def marked (s : LuaState) : Gc := s.markMainThread.atomicMark.flip

theorem clearedExactly_iff (s : LuaState) (hwhite : s.gc.currentWhite.isWhite = true) (r : GcRef .table) :
    ClearedExactly s.gc s.markMainThread.atomic r ↔ ∀ t, s.gc.heap.get r = some t → ∀ i e, Table.entryAt t i = some e →
      s.marked.Discerned r (weakReferents (s.gc.checkWeakMode (Table.metatable t)) e) := by
  have hkeeps := (Keeps.markSteps.markMainThread s).trans (Keeps.markSteps.atomicMark s.markMainThread)
  rw [clearedExactly_atomic, hkeeps.clearedExactly_iff hwhite, marked]

/-- The atomic phase removes exactly the entries it should remove from every reachable table, if and only if, when the
    marking is over, the colours tell of the weak referents of each entry whether one of them is lost. -/
theorem atomic_clears_iff (s : LuaState) (hwhite : s.gc.currentWhite.isWhite = true) :
    (∀ r, s.Reaches ⟨.table, r⟩ → ClearedExactly s.gc s.markMainThread.atomic r) ↔
      ∀ r, s.Reaches ⟨.table, r⟩ → ∀ t, s.gc.heap.get r = some t → ∀ i e, Table.entryAt t i = some e →
        s.marked.Discerned r (weakReferents (s.gc.checkWeakMode (Table.metatable t)) e) :=
  forall_congr' fun r => imp_congr_right fun _ => s.clearedExactly_iff hwhite r

/-- The marking is over. The global table has weak values, and one entry: a table that has not been marked. -/
def oneWeakEntry (frozen : Bool) : LuaState where
  stack := []
  base := 1
  top := 0
  callStack := []
  global := ⟨0, 0⟩
  registry := ⟨0, 0⟩
  hookEventNames := []
  hookMaskNames := []
  debugInfoFieldNames := []
  gc :=
    let strings := (Heap.new.alloc .string ⟨luaHash modeName, modeName⟩ .black).bind fun x =>
      x.1.alloc .string ⟨luaHash [118], [118]⟩ .black
    let tables := ((strings.bind fun x => x.1.alloc .table { array := [.table ⟨2, 0⟩], metatable := some ⟨1, 0⟩ } .black).bind
      fun x => x.1.alloc .table { nodes := [⟨.str ⟨0, 0⟩, .str ⟨1, 0⟩, none⟩] } .black).bind
        fun x => x.1.alloc .table {} .white0
    { heap := ((tables.map Prod.fst).getD Heap.new).putFlag ⟨.table, ⟨2, 0⟩⟩ .frozen frozen
      gcState := { phase := .propagate, weakTables := [⟨0, 0⟩] } }

theorem oneWeakEntry_mode (frozen : Bool) : (oneWeakEntry frozen).gc.checkWeakMode (some ⟨1, 0⟩) = (false, true) := by
  cases frozen <;> decide +kernel

theorem oneWeakEntry_weakTables (frozen : Bool) : (oneWeakEntry frozen).marked.gcState.weakTables = [⟨0, 0⟩] := by
  cases frozen <;> decide +kernel

/-- No table but the global one has a metatable. -/
theorem oneWeakEntry_tables {frozen : Bool} {r : GcRef .table} {t : Table}
    (ht : (oneWeakEntry frozen).gc.heap.get r = some t) :
    r = ⟨0, 0⟩ ∨ t.metatable = none := by
  have hall : ((oneWeakEntry frozen).gc.heap.arena .table).contents.all (fun e =>
      decide (e.1 = ⟨0, 0⟩ ∨ Table.metatable e.2 = none)) = true := by
    cases frozen <;> decide +kernel
  have hmem := (Arena.mem_contents ((oneWeakEntry frozen).gc.heap.wf .table)).mpr ht
  exact of_decide_eq_true (List.all_eq_true.mp hall (r, t) hmem)

theorem oneWeakEntry_flags (o : ObjRef) (f : Flag) : (oneWeakEntry false).marked.heap.hasFlag o f = false := by
  have hall : ∀ k, ((oneWeakEntry false).marked.heap.arena k).flags.all (fun fl => decide (fl = {})) = true := by
    intro k
    cases k <;> decide +kernel
  rw [Heap.hasFlag, Arena.hasFlag]
  split
  · next fl hfl =>
    obtain ⟨i, -, hi⟩ := Option.bind_eq_some_iff.mp hfl
    rw [of_decide_eq_true (List.all_eq_true.mp (hall o.kind) fl (List.mem_of_getElem? hi))]
    cases f <;> rfl
  · rfl

theorem oneWeakEntry_reaches (frozen : Bool) : (oneWeakEntry frozen).Reaches ⟨.table, ⟨0, 0⟩⟩ :=
  Reach.of_root (List.mem_append_left _ (List.mem_append_left _ (List.mem_append_left _ (List.mem_cons_self ..))))

/-- A table that is not frozen is taken for dead, and dies. -/
theorem atomic_clears_iff_unfrozen :
    ClearedExactly (oneWeakEntry false).gc (oneWeakEntry false).markMainThread.atomic ⟨0, 0⟩ := by
  refine ((oneWeakEntry false).atomic_clears_iff rfl).mpr (fun r _ t ht i e _ => ?_) _ (oneWeakEntry_reaches false)
  rw [Discerned, oneWeakEntry_weakTables]
  split
  · rintro ⟨p, -, o, -, -, -, hkept⟩
    rw [KeptAlive, oneWeakEntry_flags, oneWeakEntry_flags] at hkept
    simp at hkept
  · next hlist =>
    rcases oneWeakEntry_tables ht with rfl | hmt
    · exact absurd (List.mem_singleton_self _) hlist
    · rw [hmt]
      rintro ⟨p, hp, -⟩
      cases hp

/-- A frozen table survives the sweep, but the collector takes it for dead. -/
theorem not_atomic_clears : ¬ ∀ s : LuaState, s.gc.currentWhite.isWhite = true → ∀ r, s.Reaches ⟨.table, r⟩ →
    ClearedExactly s.gc s.markMainThread.atomic r := by
  intro hall
  have hcleared := hall (oneWeakEntry true) rfl ⟨0, 0⟩ (oneWeakEntry_reaches true)
  rw [clearedExactly_iff _ rfl] at hcleared
  have hentry : ((oneWeakEntry true).gc.heap.get (⟨0, 0⟩ : GcRef .table)).any (fun t => decide (
      Table.metatable t = some ⟨1, 0⟩ ∧ Table.entryAt t (.inl 0) = some (none, .table ⟨2, 0⟩))) = true := by
    decide +kernel
  obtain ⟨t, ht, he⟩ := (Option.any_eq_true ..).mp hentry
  obtain ⟨hmt, he⟩ := of_decide_eq_true he
  have hdiscerned := hcleared t ht _ _ he
  have hwhite : (oneWeakEntry true).marked.HasDeadColor ⟨.table, ⟨2, 0⟩⟩ := by
    rw [HasDeadColor]
    decide +kernel
  have hfrozen : (oneWeakEntry true).marked.heap.hasFlag ⟨.table, ⟨2, 0⟩⟩ .frozen = true := by decide +kernel
  rw [Discerned, oneWeakEntry_weakTables, if_pos (List.mem_singleton_self _), hmt, oneWeakEntry_mode] at hdiscerned
  obtain ⟨p, hp, ⟨o, ho, -, hkept, -⟩ | ⟨-, r, x, hr, -⟩⟩ := hdiscerned ⟨(.table ⟨2, 0⟩, false), by simp [weakReferents],
    ⟨.table, ⟨2, 0⟩⟩, rfl, by simp, hwhite, .inr hfrozen⟩
  all_goals
    obtain rfl : p = (.table ⟨2, 0⟩, false) := by simpa [weakReferents] using hp
  · cases ho
    exact hkept (.inr hfrozen)
  · cases hr

end LuaState

end Rilua.Vm
