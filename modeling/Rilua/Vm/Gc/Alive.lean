import Rilua.Vm.Gc.Roots
import Rilua.Vm.StaticCache
import Rilua.Vm.TableHolds

/-! What holds of the heap in every phase of the collector: what an object that is alive refers to is alive, through
    weak entries too. An object is alive if it exists and the sweep in progress, if there is one, is not going to free
    it. The atomic phase turns what has not been marked dead, and the sweep frees what is dead. -/

namespace Rilua.Vm

open Gc

/-- A node without a key has no value. -/
def Table.Tidy (t : Table) : Prop := ∀ n ∈ t.nodes, n.key = .nil → n.value = .nil

namespace Gc

variable {P : ObjRef → Prop} {g g' m : Gc} {o c : ObjRef} {saved : List LuaThread}

/-- The object exists, and it does not have the colour of the dead. -/
def Alive (g : Gc) (o : ObjRef) : Prop := ∃ x, g.heap.cell o = some x ∧ x.color ≠ g.currentWhite.otherWhite

/-- What holds of the heap in every phase. No object is frozen or pinned. -/
structure Ok (g : Gc) : Prop where
  white : g.currentWhite.isWhite = true
  names : g.NamesOk
  plain : ∀ o x, g.heap.cell o = some x → x.flags = {}
  interned : g.interning.Inv
  refs : ∀ o x, g.heap.cell o = some x → x.color ≠ g.currentWhite.otherWhite → ∀ c ∈ Obj.refs x.value, g.Alive c
  tidy : ∀ r x, g.heap.cell ⟨.table, r⟩ = some x → Table.Tidy x.value
  kept : ∀ o ∈ g.rootRefs, g.Alive o
  waiting : ∀ r ∈ g.gcState.tmudata, g.Alive ⟨_, r⟩

/-- The string table and the state of the collector change. -/
theorem Ok.congr (h : g.Ok) {strings : StringTable} {gcState : GcState} (hinv : { g with strings }.interning.Inv)
    (hwait : ∀ r ∈ gcState.tmudata, r ∈ g.gcState.tmudata) : { g with strings, gcState }.Ok :=
  ⟨h.white, ⟨h.names.valid, h.names.exists_name⟩, h.plain, hinv, h.refs, h.tidy, h.kept,
    fun r hr => h.waiting r (hwait r hr)⟩

theorem Ok.settled_iff (h : g.Ok) : g.Settled o ↔ ∀ x, g.heap.cell o = some x → x.color ≠ g.currentWhite := by
  refine ⟨fun hs x hx hc => ?_, fun hs x hx hc => absurd hc (hs x hx)⟩
  have := hs x hx hc
  rw [h.plain o x hx] at this
  simp [anchored] at this

theorem mem_vals {t : Table} {v : Val} : v ∈ t.vals ↔
    v ∈ t.array ∨ ∃ n ∈ t.nodes, n.key ≠ .nil ∧ n.value ≠ .nil ∧ (v = n.key ∨ v = n.value) := by
  rw [Table.vals, List.mem_append, List.mem_flatMap]
  refine or_congr_right (exists_congr fun n => and_congr_right fun _ => ?_)
  split_ifs with hnil
  · simp only [Bool.or_eq_true, Val.isNil_eq_true] at hnil
    simp only [List.not_mem_nil, false_iff, not_and]
    rintro hk hv -
    exact hnil.elim hk hv
  · simp only [Bool.or_eq_true, Val.isNil_eq_true, not_or] at hnil
    simp [hnil.1, hnil.2]

/-- What a table that is alive holds is alive. -/
theorem Ok.holds (h : g.Ok) {r : GcRef .table} (hr : g.Alive ⟨_, r⟩) {t : Table} (ht : g.heap.get r = some t) :
    t.Holds fun v => ∀ o ∈ v.objRef, g.Alive o := by
  obtain ⟨x, hx, hc⟩ := hr
  rw [Heap.get_eq, hx, Option.map_some, Option.some.injEq] at ht
  subst ht
  have hvals : ∀ v ∈ Table.vals x.value, ∀ o ∈ v.objRef, g.Alive o := fun v hv o ho =>
    h.refs _ x hx hc o (mem_refs_of_vals (List.mem_append_right _ hv) ho)
  refine ⟨fun v hv => hvals v (mem_vals.mpr (.inl hv)), fun n hn => ?_⟩
  by_cases hval : n.value = .nil
  · simp [hval, Val.objRef]
  · exact hvals _ (mem_vals.mpr (.inr ⟨n, hn, fun hk => hval (h.tidy r x hx n hn hk), hval, .inr rfl⟩))

/-- The value of a metafield is alive. -/
theorem Ok.metafield (h : g.Ok) {mt : GcRef .table} (hmt : g.Alive ⟨_, mt⟩) (name : List UInt8) :
    ∀ o ∈ (g.metafield mt name).objRef, g.Alive o := by
  rw [Gc.metafield]
  split
  · next t key ht _ =>
    cases hget : Table.get t (.str key) (g.heap.arena .string) with
    | none => simp [Val.objRef]
    | some v => exact (h.holds hmt ht).get (by simp [Val.objRef]) hget
  · simp [Val.objRef]

/-! ### Marking -/

theorem Recolors.alive (h : Recolors P g g') (hw : g.currentWhite.isWhite = true) (ho : g.Alive o) : g'.Alive o := by
  obtain ⟨x, hx, hc⟩ := ho
  obtain ⟨y, hy, -, -, hcol⟩ := h.cell o x hx
  refine ⟨y, hy, ?_⟩
  rw [h.currentWhite_eq]
  rcases hcol with hcol | ⟨hcol, -⟩
  · rw [hcol]
    exact hc
  · exact Color.ne_otherWhite hw hcol

theorem Recolors.get_string (h : Recolors P g g') (r : GcRef .string) {x : LuaString} (hx : g.heap.get r = some x) :
    g'.heap.get r = some x := by
  rw [Heap.get_eq] at hx ⊢
  obtain ⟨y, hy, rfl⟩ := Option.map_eq_some_iff.mp hx
  obtain ⟨z, hz, hv, -⟩ := h.cell _ y hy
  rw [hz, Option.map_some]
  rcases hv with hv | hv
  · rw [hv]
  · rw [hv]
    rfl

theorem Ok.recolors (h : g.Ok) (hr : Recolors P g g')
    (hother : ∀ o x, g.heap.cell o = some x → x.color ≠ g.currentWhite.otherWhite) (hinv : g'.interning.Inv)
    (hwait : ∀ r ∈ g'.gcState.tmudata, g'.Alive ⟨_, r⟩) : g'.Ok := by
  have htm : g'.tmNames = g.tmNames := by rw [hr.frame]
  refine ⟨hr.currentWhite_eq ▸ h.white, ⟨fun r hr' => ?_, fun name hname => ?_⟩, fun o y hy => ?_, hinv,
    fun o y hy _ c hc => ?_, fun r y hy => ?_, fun o ho => hr.alive h.white (h.kept o ?_), hwait⟩
  · rw [htm] at hr'
    obtain ⟨s, hs⟩ := h.names.valid r hr'
    exact ⟨s, hr.get_string r hs⟩
  · obtain ⟨r, hr', s, hs, heq⟩ := h.names.exists_name name hname
    exact ⟨r, htm ▸ hr', s, hr.get_string r hs, heq⟩
  · obtain ⟨x, hx, -, hf, -⟩ := hr.cell_rev hy
    rw [hf]
    exact h.plain o x hx
  · obtain ⟨x, hx, hv, -⟩ := hr.cell_rev hy
    refine hr.alive h.white (h.refs o x hx (hother o x hx) c ?_)
    rcases hv with hv | hv
    · exact hv ▸ hc
    · rw [hv, Obj.refs_finalize] at hc
      exact hc
  · obtain ⟨x, hx, hv, -⟩ := hr.cell_rev hy
    rcases hv with hv | hv <;> rw [hv] <;> exact h.tidy r x hx
  · rw [hr.frame] at ho
    exact ho

/-! ### The clearing of weak tables -/

/-- The strings in weak tables are kept first, then the tables are cleared. -/
theorem clearWeakTables_steps (g : Gc) : ∃ g₁, StringsKept (g.gcState.weakTables.flatMap g.heldBy)
      { g with gcState := { g.gcState with weakTables := [] } } g₁ ∧
    Clears g.gcState.weakTables g₁ g.clearWeakTables ∧ ∀ t, g₁.clearedTable t = g.clearedTable t := by
  set g₀ : Gc := { g with gcState := { g.gcState with weakTables := [] } } with hg₀
  have hkept : StringsKept (g.gcState.weakTables.flatMap g.heldBy) g₀ (g.gcState.weakTables.foldl keepStrings g₀) :=
    StringsKept.foldl_keepStrings g.gcState.weakTables g₀
  refine ⟨_, hkept, Clears.foldl_clearWeakTable g.gcState.weakTables _, fun t => ?_⟩
  have hmode : Keeps g g₀ := ⟨rfl, rfl, fun _ => rfl, fun _ _ _ => rfl⟩
  rw [clearedTable, clearedTable, (hmode.trans hkept.keeps).checkWeakMode_eq, clearEntries, clearEntries]
  simp only [hkept.isDeadCollectable_eq]
  rfl

theorem clearWeakTables_cell (g : Gc) (hk : o.kind ≠ .string) (ht : o.kind ≠ .table) :
    g.clearWeakTables.heap.cell o = g.heap.cell o := by
  obtain ⟨g₁, hkept, hclear, -⟩ := clearWeakTables_steps g
  rw [Heap.cell, hclear.arena_eq _ ht, hkept.arena_eq _ hk]
  rfl

theorem clearWeakTables_cell_string (g : Gc) (s : GcRef .string) :
    g.clearWeakTables.heap.cell ⟨_, s⟩ = (g.heap.cell ⟨_, s⟩).map fun x =>
      if .str s ∈ g.gcState.weakTables.flatMap g.heldBy then { x with color := g.currentWhite } else x := by
  obtain ⟨g₁, hkept, hclear, -⟩ := clearWeakTables_steps g
  rw [Heap.cell, hclear.arena_eq _ (by simp)]
  exact hkept.cell s

theorem clearWeakTables_cell_table (g : Gc) (r : GcRef .table) :
    g.clearWeakTables.heap.cell ⟨_, r⟩ = (g.heap.cell ⟨_, r⟩).map fun x =>
      if r ∈ g.gcState.weakTables then { x with value := g.clearedTable x.value } else x := by
  obtain ⟨g₁, hkept, hclear, htable⟩ := clearWeakTables_steps g
  rw [hclear.cell, Heap.cell, hkept.arena_eq _ (by simp)]
  simp only [htable]
  rfl

/-- What an object turns into when the weak tables are cleared. -/
theorem clearWeakTables_cases (g : Gc) {y : Cell (Obj o.kind)} (hy : g.clearWeakTables.heap.cell o = some y) :
    ∃ x, g.heap.cell o = some x ∧ y.flags = x.flags ∧ (y.color = x.color ∨ o.kind = .string ∧ y.color = g.currentWhite) ∧
      (y.value = x.value ∨ ∃ r, o = ⟨.table, r⟩) := by
  obtain ⟨k, r⟩ := o
  by_cases hs : k = .string
  · subst hs
    rw [clearWeakTables_cell_string] at hy
    obtain ⟨x, hx, rfl⟩ := Option.map_eq_some_iff.mp hy
    refine ⟨x, hx, ?_⟩
    split
    · exact ⟨rfl, .inr ⟨rfl, rfl⟩, .inl rfl⟩
    · exact ⟨rfl, .inl rfl, .inl rfl⟩
  by_cases ht : k = .table
  · subst ht
    rw [clearWeakTables_cell_table] at hy
    obtain ⟨x, hx, rfl⟩ := Option.map_eq_some_iff.mp hy
    refine ⟨x, hx, ?_, .inl ?_, .inr ⟨r, rfl⟩⟩ <;> split <;> rfl
  · rw [clearWeakTables_cell g hs ht] at hy
    exact ⟨y, hy, rfl, .inl rfl, .inl rfl⟩

theorem clearWeakTables_frame (g : Gc) : g.clearWeakTables =
    { g with heap := g.clearWeakTables.heap, gcState := { g.gcState with weakTables := [] } } := by
  obtain ⟨g₁, hkept, hclear, -⟩ := clearWeakTables_steps g
  have h₁ := hkept.frame
  have h₂ := hclear.frame
  rw [h₁] at h₂
  exact h₂

theorem clearWeakTables_currentWhite (g : Gc) : g.clearWeakTables.currentWhite = g.currentWhite := by
  rw [clearWeakTables_frame]

/-- The clearing makes nothing dead. -/
theorem clearWeakTables_alive (hw : g.currentWhite.isWhite = true) (ho : g.Alive o) : g.clearWeakTables.Alive o := by
  obtain ⟨x, hx, hc⟩ := ho
  rw [Alive, clearWeakTables_currentWhite]
  obtain ⟨k, r⟩ := o
  by_cases hs : k = .string
  · subst hs
    rw [clearWeakTables_cell_string, hx]
    refine ⟨_, rfl, ?_⟩
    split
    · exact (Color.otherWhite_ne hw).symm
    · exact hc
  by_cases ht : k = .table
  · subst ht
    rw [clearWeakTables_cell_table, hx]
    refine ⟨_, rfl, ?_⟩
    split <;> exact hc
  · exact ⟨x, by rw [clearWeakTables_cell g hs ht]; exact hx, hc⟩

theorem mem_refs_table {t : Table} (hc : c ∈ Obj.refs (k := .table) t) :
    (∃ mt ∈ t.metatable, c = ⟨_, mt⟩) ∨ ∃ v ∈ t.vals, c ∈ v.objRef := by
  rcases List.mem_append.mp hc with hc | hc
  · obtain ⟨v, hv, hc⟩ := List.mem_filterMap.mp hc
    rcases List.mem_append.mp hv with hv | hv
    · obtain ⟨mt, hmt, rfl⟩ := Option.map_eq_some_iff.mp (Option.mem_toList.mp hv)
      exact .inl ⟨mt, hmt, (Option.some.inj hc).symm⟩
    · exact .inr ⟨v, hv, hc⟩
  · cases hc

/-- What is left in a table that has been cleared. -/
theorem mem_vals_clearedTable {t : Table} {v : Val} (hv : v ∈ (g.clearedTable t).vals) (hc : c ∈ v.objRef) :
    (v ∈ t.array ∧ ((g.checkWeakMode t.metatable).2 = true → g.isDeadCollectable v false = false)) ∨
      ∃ n ∈ t.nodes, n.key ≠ .nil ∧ n.value ≠ .nil ∧
        (v = n.key ∧ ((g.checkWeakMode t.metatable).1 = true → g.isDeadCollectable v true = false) ∨
          v = n.value ∧ ((g.checkWeakMode t.metatable).2 = true → g.isDeadCollectable v false = false)) := by
  rw [Table.vals, List.mem_append] at hv
  rcases hv with hv | hv
  · obtain ⟨w, hw, rfl⟩ := List.mem_map.mp hv
    refine .inl ?_
    split_ifs at hc ⊢ with hdead
    · cases hc
    · refine ⟨hw, fun hmode => ?_⟩
      rw [hmode, Bool.true_and, Bool.not_eq_true] at hdead
      exact hdead
  · obtain ⟨n', hn', hv⟩ := List.mem_flatMap.mp hv
    obtain ⟨n, hn, rfl⟩ := List.mem_map.mp hn'
    refine .inr ⟨n, hn, ?_⟩
    split_ifs at hv with hdead hnil hnil
    · cases hv
    · simp at hnil
    · cases hv
    · simp only [Bool.or_eq_true, Val.isNil_eq_true, not_or] at hnil
      refine ⟨hnil.1, hnil.2, ?_⟩
      have hkey : n.key.isNil = false := by simp [hnil.1]
      simp only [hkey, Bool.not_false, Bool.true_and, Bool.or_eq_true, Bool.and_eq_true, not_or, not_and,
        Bool.not_eq_true] at hdead
      rcases List.mem_cons.mp hv with rfl | hv
      · exact .inl ⟨rfl, hdead.1⟩
      · obtain rfl := List.mem_singleton.mp hv
        exact .inr ⟨rfl, hdead.2⟩

theorem clearedTable_tidy {t : Table} (h : t.Tidy) : (g.clearedTable t).Tidy := by
  intro n' hn' hk
  obtain ⟨n, hn, rfl⟩ := List.mem_map.mp hn'
  split_ifs at hk ⊢ with hdead
  · rfl
  · exact h n hn hk

/-! ### The atomic phase -/

/-- The heap when all marking is over: what is not black is garbage. -/
structure AllMarked (P : ObjRef → Prop) (saved : List LuaThread) (a : Gc) : Prop where
  ok : a.Ok
  marking : Marking P saved [] a
  gray : a.gcState.gray = []
  saved : ∀ t ∈ saved, ∀ v ∈ ThreadFields.liveStack (LuaThread.toThreadFields t), a.SettledVal v

namespace AllMarked

variable {a : Gc}

theorem color_eq (h : AllMarked P saved a) {x : Cell (Obj o.kind)} (hx : a.heap.cell o = some x) :
    x.color = a.currentWhite ∨ x.color = .black := by
  have hother := h.marking.tri.not_other o x hx
  have hgray : x.color ≠ .gray := fun hc => by
    obtain ⟨i, hi, -⟩ := h.marking.tri.gray o x id hx hc (by rw [h.ok.plain o x hx])
    rw [h.gray] at hi
    cases hi
  cases hcol : x.color with
  | black => exact .inr rfl
  | gray => exact absurd hcol hgray
  | white0 | white1 =>
    refine .inl ?_
    rw [hcol] at hother
    rcases Color.eq_or_eq_otherWhite (d := x.color) h.ok.white (by rw [hcol]; rfl) with he | he
    · rw [← hcol]
      exact he
    · rw [hcol] at he
      exact absurd he hother

/-- What has been reached is alive after the flip. -/
theorem alive_of_settled (h : AllMarked P saved a) (hs : a.Settled c) (hc : a.Alive c) : a.flip.Alive c := by
  obtain ⟨x, hx, -⟩ := hc
  refine ⟨x, hx, ?_⟩
  show x.color ≠ a.currentWhite.otherWhite.otherWhite
  rw [Color.otherWhite_otherWhite]
  exact h.ok.settled_iff.mp hs x hx

theorem flip_white (h : AllMarked P saved a) : a.flip.currentWhite.isWhite = true := by
  show a.currentWhite.otherWhite.isWhite = true
  rw [Color.isWhite_otherWhite]
  exact h.ok.white

/-- A weak entry that the clearing leaves refers to what is alive. -/
theorem alive_of_not_dead (h : AllMarked P saved a) {r : GcRef .table} {t : Table} (hr : r ∈ a.gcState.weakTables)
    (ht : a.heap.get r = some t) {v : Val} (hv : v ∈ entryValues t) {isKey : Bool}
    (hdead : a.flip.isDeadCollectable v isKey = false) (hcv : c ∈ v.objRef) (hc : a.Alive c) :
    a.flip.clearWeakTables.Alive c := by
  have hnot : ∀ {k : ObjKind} {s : GcRef k}, c = ⟨k, s⟩ →
      (a.flip.heap.color ⟨k, s⟩ == some a.flip.currentWhite.otherWhite) = false →
        a.flip.clearWeakTables.Alive c := by
    rintro k s rfl hcol
    obtain ⟨x, hx, -⟩ := hc
    refine clearWeakTables_alive h.flip_white ⟨x, hx, fun he => ?_⟩
    rw [Heap.color_eq, show a.flip.heap.cell ⟨k, s⟩ = some x from hx, Option.map_some, he, beq_self_eq_true] at hcol
    cases hcol
  cases v with
  | nil | bool | num | lightUserdata => cases hcv
  | str s =>
    cases hcv
    obtain ⟨x, hx, -⟩ := hc
    have hheld : Val.str s ∈ a.flip.gcState.weakTables.flatMap a.flip.heldBy := by
      refine List.mem_flatMap.mpr ⟨r, hr, ?_⟩
      rw [heldBy, show a.flip.heap.get r = some t from ht]
      exact hv
    rw [Alive, clearWeakTables_cell_string, show a.flip.heap.cell ⟨_, s⟩ = some x from hx, clearWeakTables_currentWhite]
    refine ⟨_, rfl, ?_⟩
    simp only [if_pos hheld]
    exact (Color.otherWhite_ne h.flip_white).symm
  | table r | function r | thread r =>
    cases hcv
    exact hnot rfl hdead
  | userdata r =>
    cases hcv
    simp only [isDeadCollectable, Bool.or_eq_false_iff] at hdead
    exact hnot rfl hdead.1

/-- What a table that has been reached refers to is alive when it has been cleared. -/
theorem alive_of_table (h : AllMarked P saved a) {r : GcRef .table} {x : Cell (Obj .table)}
    (hx : a.heap.cell ⟨_, r⟩ = some x) (hok : a.TableOk r x.value)
    (halive : ∀ c ∈ Obj.refs x.value, a.Alive c)
    (hc : c ∈ Obj.refs (k := .table) (if r ∈ a.gcState.weakTables then a.flip.clearedTable x.value else x.value)) :
    a.flip.clearWeakTables.Alive c := by
  have hsettled : ∀ {v : Val}, v ∈ Obj.vals x.value → a.SettledVal v → c ∈ v.objRef → a.flip.clearWeakTables.Alive c :=
    fun hv hs hcv => clearWeakTables_alive h.flip_white
      (h.alive_of_settled (hs c hcv) (halive c (mem_refs_of_vals hv hcv)))
  have hmeta : ∀ mt ∈ Table.metatable x.value, c ∈ (Val.table mt).objRef → a.flip.clearWeakTables.Alive c := fun mt hmt hcv =>
    hsettled (List.mem_append_left _ (by rw [Option.mem_def] at hmt; simp [hmt]))
      (fun o ho => by cases ho; exact hok.metatable mt hmt) hcv
  -- an entry is settled, or it is weak and has been looked at by the clearing
  have hentry : ∀ {v : Val} {weak : Bool} (isKey : Bool), v ∈ Table.vals x.value → c ∈ v.objRef → a.EntryOk r weak v →
      (r ∈ a.gcState.weakTables → weak = true → a.flip.isDeadCollectable v isKey = false ∧ v ∈ entryValues x.value) →
        a.flip.clearWeakTables.Alive c := by
    rintro v weak isKey hv hcv (hs | ⟨hweak, hr⟩) hdead
    · exact hsettled (List.mem_append_right _ hv) hs hcv
    · obtain ⟨hdead, hmem⟩ := hdead hr hweak
      exact h.alive_of_not_dead hr (by rw [Heap.get_eq, hx]; rfl) hmem hdead hcv
        (halive c (mem_refs_of_vals (List.mem_append_right _ hv) hcv))
  have hmem : ∀ {n : Node}, n ∈ Table.nodes x.value → n.key ≠ .nil → ∀ {v : Val}, v = n.key ∨ v = n.value →
      v ∈ entryValues x.value := fun {n} hn hk {v} hv => by
    refine List.mem_append_right _ (List.mem_flatMap.mpr ⟨n, hn, ?_⟩)
    rw [if_neg (by simp [hk])]
    simpa using hv
  split_ifs at hc with hr
  · rcases mem_refs_table hc with ⟨mt, hmt, rfl⟩ | ⟨v, hv, hcv⟩
    · exact hmeta mt hmt rfl
    · rcases mem_vals_clearedTable hv hcv with ⟨hv, hdead⟩ | ⟨n, hn, hk, hval, ⟨rfl, hdead⟩ | ⟨rfl, hdead⟩⟩
      · exact hentry _ (mem_vals.mpr (.inl hv)) hcv (hok.array v hv) fun _ hw => ⟨hdead hw, List.mem_append_left _ hv⟩
      · exact hentry _ (mem_vals.mpr (.inr ⟨n, hn, hk, hval, .inl rfl⟩)) hcv (hok.key n hn hk hval)
          fun _ hw => ⟨hdead hw, hmem hn hk (.inl rfl)⟩
      · exact hentry _ (mem_vals.mpr (.inr ⟨n, hn, hk, hval, .inr rfl⟩)) hcv (hok.value n hn hk hval)
          fun _ hw => ⟨hdead hw, hmem hn hk (.inr rfl)⟩
  · have hnone : ∀ {φ : Prop}, r ∈ a.gcState.weakTables → φ := fun h => absurd h hr
    rcases mem_refs_table hc with ⟨mt, hmt, rfl⟩ | ⟨v, hv, hcv⟩
    · exact hmeta mt hmt rfl
    · rcases mem_vals.mp hv with ha | ⟨n, hn, hk, hval, rfl | rfl⟩
      · exact hentry false hv hcv (hok.array v ha) hnone
      · exact hentry true hv hcv (hok.key n hn hk hval) hnone
      · exact hentry false hv hcv (hok.value n hn hk hval) hnone

/-- What has been reached leads, when the weak tables have been cleared, to what is alive. -/
theorem refs_alive (h : AllMarked P saved a) {y : Cell (Obj o.kind)} (hy : a.flip.clearWeakTables.heap.cell o = some y)
    (hcol : y.color ≠ a.currentWhite) (hc : c ∈ Obj.refs y.value) : a.flip.clearWeakTables.Alive c := by
  obtain ⟨x, hx, hf, hcolor, hvalue⟩ := clearWeakTables_cases a.flip hy
  have hx : a.heap.cell o = some x := hx
  by_cases hs : o.kind = .string
  · obtain ⟨k, r⟩ := o
    cases hs
    cases hc
  have hblack : x.color = .black := by
    rcases hcolor with hcolor | ⟨hk, -⟩
    · rw [hcolor] at hcol
      exact (h.color_eq hx).resolve_left hcol
    · exact absurd hk hs
  have hfrozen : x.flags.frozen = false := by rw [h.ok.plain o x hx]
  have halive : ∀ c ∈ Obj.refs x.value, a.Alive c :=
    h.ok.refs o x hx (by rw [hblack]; exact Color.ne_otherWhite h.ok.white rfl)
  have hok := h.marking.tri.black o x id hx hblack hfrozen
  have hsettled : y.value = x.value → (∀ c ∈ Obj.refs x.value, a.Settled c) → a.flip.clearWeakTables.Alive c :=
    fun hv hset => clearWeakTables_alive h.flip_white (h.alive_of_settled (hset c (hv ▸ hc)) (halive c (hv ▸ hc)))
  obtain ⟨k, r⟩ := o
  have hsame : k ≠ .table → y.value = x.value := fun hk => by
    rcases hvalue with hv | ⟨r', hr'⟩
    · exact hv
    · exact absurd (congrArg ObjRef.kind hr') hk
  cases k with
  | string => exact absurd rfl hs
  | closure | userdata => exact hsettled (hsame (by simp)) hok
  | thread =>
    refine hsettled (hsame (by simp)) (hok.2.resolve_left ?_)
    rintro ⟨i, hi, -⟩
    cases hi
  | upvalue =>
    refine hsettled (hsame (by simp)) fun c hc => ?_
    simp only [Obj.refs, Obj.upvalueRefs, List.map_nil, List.append_nil] at hc
    obtain ⟨v, hv, hcv⟩ := List.mem_filterMap.mp hc
    rcases hok v hv with hs | hheld
    · exact hs c hcv
    · exact h.marking.held_settled h.gray h.saved (fun r x hx => by rw [h.ok.plain _ x hx]) hheld c hcv
  | table =>
    have hyv : y.value = if r ∈ a.gcState.weakTables then a.flip.clearedTable x.value else x.value := by
      rw [clearWeakTables_cell_table, show a.flip.heap.cell ⟨_, r⟩ = some x from hx, Option.map_some,
        Option.some.injEq] at hy
      rw [← hy]
      exact apply_ite Cell.value ..
    exact h.alive_of_table hx hok halive (hyv ▸ hc)

/-- The heap as the sweep finds it. -/
theorem clearWeakTables_ok (h : AllMarked P saved a) (hinv : a.flip.clearWeakTables.interning.Inv)
    (hkept : ∀ o ∈ a.rootRefs, a.Settled o) (hwait : ∀ r ∈ a.gcState.tmudata, a.Settled ⟨_, r⟩) :
    a.flip.clearWeakTables.Ok := by
  have hstring : ∀ (r : GcRef .string) x, a.heap.get r = some x → a.flip.clearWeakTables.heap.get r = some x := by
    intro r x hx
    rw [Heap.get_eq] at hx ⊢
    rw [clearWeakTables_cell_string, Option.map_map]
    obtain ⟨y, hy, rfl⟩ := Option.map_eq_some_iff.mp hx
    rw [show a.flip.heap.cell ⟨_, r⟩ = some y from hy, Option.map_some, Function.comp_apply]
    split <;> rfl
  have htm : a.flip.clearWeakTables.tmNames = a.tmNames := by
    rw [clearWeakTables_frame]
    rfl
  refine ⟨?_, ⟨fun r hr => ?_, fun name hname => ?_⟩, fun o y hy => ?_, hinv, fun o y hy hc c hcm => ?_, fun r y hy => ?_,
    fun o ho => ?_, fun r hr => ?_⟩
  · rw [clearWeakTables_currentWhite]
    exact h.flip_white
  · rw [htm] at hr
    obtain ⟨s, hs⟩ := h.ok.names.valid r hr
    exact ⟨s, hstring r s hs⟩
  · obtain ⟨r, hr, s, hs, heq⟩ := h.ok.names.exists_name name hname
    exact ⟨r, htm ▸ hr, s, hstring r s hs, heq⟩
  · obtain ⟨x, hx, hf, -⟩ := clearWeakTables_cases a.flip hy
    rw [hf]
    exact h.ok.plain o x hx
  · refine h.refs_alive hy (fun he => hc ?_) hcm
    rw [he, clearWeakTables_currentWhite]
    exact (Color.otherWhite_otherWhite _).symm
  · rw [clearWeakTables_cell_table] at hy
    obtain ⟨x, hx, rfl⟩ := Option.map_eq_some_iff.mp hy
    have htidy := h.ok.tidy r x hx
    split
    · exact clearedTable_tidy htidy
    · exact htidy
  · have ho : o ∈ a.rootRefs := by
      rw [clearWeakTables_frame] at ho
      exact ho
    exact clearWeakTables_alive h.flip_white (h.alive_of_settled (hkept o ho) (h.ok.kept o ho))
  · have hr : r ∈ a.gcState.tmudata := by
      rw [clearWeakTables_frame] at hr
      exact hr
    exact clearWeakTables_alive h.flip_white (h.alive_of_settled (hwait r hr) (h.ok.waiting r hr))

end AllMarked

/-! ### The sweep -/

section Sweep

variable {k : ObjKind} {heap : Heap} {start maxCount freed pos : ℕ} {isDone : Bool}

/-- What a batch leaves has been there before. -/
theorem sweep_cases (he : g.heap.sweepPartial k g.currentWhite.otherWhite g.currentWhite start maxCount =
      some (heap, freed, pos, isDone)) (hplain : ∀ o x, g.heap.cell o = some x → x.flags = {}) {y : Cell (Obj o.kind)}
    (hy : heap.cell o = some y) : ∃ x, g.heap.cell o = some x ∧ y.value = x.value ∧ y.flags = x.flags ∧
      if o.kind = k ∧ start ≤ o.ref.index ∧ o.ref.index < pos then
        y.color = g.currentWhite ∧ x.color ≠ g.currentWhite.otherWhite else y = x := by
  rw [Heap.sweepPartial_cell he] at hy
  split_ifs at hy ⊢ with hin
  · obtain ⟨x, hx, hy⟩ := Option.bind_eq_some_iff.mp hy
    rw [Arena.sweepCell, hplain o x hx] at hy
    split_ifs at hy with hdead
    cases hy
    exact ⟨x, hx, rfl, (hplain o x hx).symm, rfl, fun hc => hdead ⟨hc, rfl⟩⟩
  · exact ⟨y, hy, rfl, rfl, rfl⟩

theorem sweep_alive (he : g.heap.sweepPartial k g.currentWhite.otherWhite g.currentWhite start maxCount =
      some (heap, freed, pos, isDone)) (hw : g.currentWhite.isWhite = true) (ho : g.Alive o) :
    { g with heap }.Alive o := by
  obtain ⟨x, hx, hc⟩ := ho
  rw [Alive, Heap.sweepPartial_cell he]
  split_ifs
  · rw [hx, Option.bind_some, Arena.sweepCell, if_neg fun hdead => hc hdead.1]
    exact ⟨_, rfl, (Color.otherWhite_ne hw).symm⟩
  · exact ⟨x, hx, hc⟩

theorem Ok.sweep (h : g.Ok) (he : g.heap.sweepPartial k g.currentWhite.otherWhite g.currentWhite start maxCount =
      some (heap, freed, pos, isDone)) (hinv : { g with heap }.interning.Inv) : { g with heap }.Ok := by
  have halive : ∀ o, g.Alive o → { g with heap }.Alive o := fun o ho => sweep_alive he h.white ho
  have hstring : ∀ r ∈ g.tmNames.filterMap id, ∀ s, g.heap.get r = some s → heap.get r = some s := by
    intro r hr s hs
    obtain ⟨y, hy, -⟩ := halive ⟨.string, r⟩ (h.kept _ (by
      simp only [rootRefs, List.filterMap_append, List.map_append, List.mem_append]
      exact .inr (.inl (.inl (List.mem_map_of_mem hr)))))
    have hy : heap.cell ⟨.string, r⟩ = some y := hy
    obtain ⟨x, hx, hv, -⟩ := sweep_cases he h.plain hy
    rw [Heap.get_eq, hx] at hs
    rw [Heap.get_eq, hy, ← hs, Option.map_some, hv, Option.map_some]
  refine ⟨h.white, ⟨fun r hr => ?_, fun name hname => ?_⟩, fun o y hy => ?_, hinv, fun o y hy hc c hcm => ?_,
    fun r y hy => ?_, fun o ho => halive o (h.kept o ho), fun r hr => halive _ (h.waiting r hr)⟩
  · obtain ⟨s, hs⟩ := h.names.valid r hr
    exact ⟨s, hstring r hr s hs⟩
  · obtain ⟨r, hr, s, hs, heq⟩ := h.names.exists_name name hname
    exact ⟨r, hr, s, hstring r hr s hs, heq⟩
  · obtain ⟨x, hx, -, hf, -⟩ := sweep_cases he h.plain hy
    rw [hf]
    exact h.plain o x hx
  · obtain ⟨x, hx, hv, -, hin⟩ := sweep_cases he h.plain hy
    refine halive c (h.refs o x hx ?_ c (hv ▸ hcm))
    split_ifs at hin
    · exact hin.2
    · exact hin ▸ hc
  · obtain ⟨x, hx, hv, -⟩ := sweep_cases he h.plain hy
    rw [hv]
    exact h.tidy r x hx

end Sweep

end Gc

end Rilua.Vm
