import Rilua.Vm.Gc.Mark

/-! The tri-colour invariant of the mark phase. A gray object is on one of the collector's lists, and a
    black object refers to settled objects only, with these exceptions: the weak entries of a weak table,
    what is on the stack of a coroutine that will be traversed again, and the value of an upvalue closed
    on suspension as long as it is also on the stack it came from. -/

namespace Rilua.Vm

open Gc

namespace Table

/-- A lookup of a string key depends on the strings only through the hash of the key. -/
theorem get_str_congr {strings strings' : StringArena} {r : GcRef .string}
    (h : strings'.get r = strings.get r) (t : Table) :
    t.get (.str r) strings' = t.get (.str r) strings := by
  simp only [Table.get, getStr, h]

end Table

namespace Gc

variable {P : ObjRef → Prop} {g g' : Gc} {o : ObjRef} {saved : List LuaThread}
  {pending pending' : List GrayItem}

/-! ### The weak mode of a table -/

/-- The first mode has no weakness that the second lacks. -/
def ModeLe (m m' : Bool × Bool) : Prop := (m.1 = true → m'.1 = true) ∧ (m.2 = true → m'.2 = true)

theorem ModeLe.refl (m : Bool × Bool) : ModeLe m m := ⟨id, id⟩

theorem ModeLe.trans {a b c : Bool × Bool} (h : ModeLe a b) (h' : ModeLe b c) : ModeLe a c :=
  ⟨fun ha => h'.1 (h.1 ha), fun ha => h'.2 (h.2 ha)⟩

theorem modeLe_false (m : Bool × Bool) : ModeLe (false, false) m := ⟨by simp, by simp⟩

/-- The metamethod names are interned strings, so that a metafield is looked up under one key. -/
structure NamesOk (g : Gc) : Prop where
  valid : ∀ r ∈ g.tmNames.filterMap id, ∃ s, g.heap.get r = some s
  exists_name : ∀ name ∈ [modeName, gcName], ∃ r ∈ g.tmNames.filterMap id, ∃ s, g.heap.get r = some s ∧
    (LuaString.data s == name) = true

/-- Strings and tables that exist in `g` exist in `g'` with the same content. -/
structure Extends (g g' : Gc) : Prop where
  tmNames_eq : g'.tmNames = g.tmNames
  string : ∀ (r : GcRef .string) x, g.heap.get r = some x → g'.heap.get r = some x
  table : ∀ (r : GcRef .table) x, g.heap.get r = some x → g'.heap.get r = some x

theorem Extends.refl (g : Gc) : Extends g g := ⟨rfl, fun _ _ h => h, fun _ _ h => h⟩

theorem Extends.trans {g'' : Gc} (h : Extends g g') (h' : Extends g' g'') : Extends g g'' :=
  ⟨h'.tmNames_eq.trans h.tmNames_eq, fun r x hx => h'.string r x (h.string r x hx),
    fun r x hx => h'.table r x (h.table r x hx)⟩

theorem Extends.namesOk (h : Extends g g') (hn : g.NamesOk) : g'.NamesOk := by
  constructor
  · rw [h.tmNames_eq]
    intro r hr
    obtain ⟨s, hs⟩ := hn.valid r hr
    exact ⟨s, h.string r s hs⟩
  · rw [h.tmNames_eq]
    intro name hname
    obtain ⟨r, hr, s, hs, hd⟩ := hn.exists_name name hname
    exact ⟨r, hr, s, h.string r s hs, hd⟩

/-- The key of a metafield is found among the metamethod names. -/
theorem findInternedString_mem (hn : g.NamesOk) {name : List UInt8} (hname : name ∈ [modeName, gcName]) :
    ∃ r ∈ g.tmNames.filterMap id, g.findInternedString name = some r := by
  obtain ⟨r, hr, s, hs, hd⟩ := hn.exists_name name hname
  cases hf : (g.tmNames.filterMap id).find? fun r => (g.heap.get r).any fun s => LuaString.data s == name with
  | none =>
    refine absurd hd ?_
    have := List.find?_eq_none.mp hf r hr
    rw [hs, Option.any_some] at this
    exact this
  | some r' => exact ⟨r', List.mem_of_find?_eq_some hf, by rw [findInternedString, hf]⟩

theorem Extends.findInternedString_eq (h : Extends g g') (hn : g.NamesOk) {name : List UInt8}
    (hname : name ∈ [modeName, gcName]) : g'.findInternedString name = g.findInternedString name := by
  have hget : ∀ r ∈ g.tmNames.filterMap id, g'.heap.get r = g.heap.get r := by
    intro r hr
    obtain ⟨s, hs⟩ := hn.valid r hr
    rw [hs, h.string r s hs]
  have hfind : (g'.tmNames.filterMap id).find? (fun r => (g'.heap.get r).any fun s => LuaString.data s == name) =
      (g.tmNames.filterMap id).find? fun r => (g.heap.get r).any fun s => LuaString.data s == name := by
    rw [h.tmNames_eq]
    revert hget
    generalize g.tmNames.filterMap id = l
    intro hget
    induction l with
    | nil => rfl
    | cons a l ih =>
      rw [List.find?_cons, List.find?_cons, hget a (List.mem_cons_self ..),
        ih fun r hr => hget r (List.mem_cons_of_mem _ hr)]
  unfold findInternedString
  rw [hfind]
  cases hf : (g.tmNames.filterMap id).find? fun r => (g.heap.get r).any fun s => LuaString.data s == name with
  | some r' => rfl
  | none =>
    obtain ⟨r', hr', s, hs, hd⟩ := hn.exists_name name hname
    have := List.find?_eq_none.mp hf r' hr'
    rw [hs, Option.any_some] at this
    exact absurd hd this

/-- The metafields of a table that exists are the same in the extended heap. -/
theorem Extends.metafield_eq (h : Extends g g') (hn : g.NamesOk) {name : List UInt8}
    (hname : name ∈ [modeName, gcName]) {mt : GcRef .table} {t : Table} (ht : g.heap.get mt = some t) :
    g'.metafield mt name = g.metafield mt name := by
  obtain ⟨r, hr, hfind⟩ := findInternedString_mem hn hname
  obtain ⟨s, hs⟩ := hn.valid r hr
  have hs' := h.string r s hs
  rw [metafield, metafield, h.table mt t ht, ht, h.findInternedString_eq hn hname, hfind]
  simp only
  exact congrArg (·.getD Val.nil) (Table.get_str_congr (hs'.trans hs.symm) t)

/-- A table that has a weak mode keeps it when the heap is extended. -/
theorem Extends.mode_le (h : Extends g g') (hn : g.NamesOk) (mt : Option (GcRef .table)) :
    ModeLe (g.checkWeakMode mt) (g'.checkWeakMode mt) := by
  cases mt with
  | none => exact .refl _
  | some mt =>
    cases ht : g.heap.get mt with
    | none =>
      have hnil : g.metafield mt modeName = .nil := by rw [metafield, ht]
      rw [checkWeakMode, Option.map_some, hnil]
      exact modeLe_false _
    | some t =>
      rw [checkWeakMode, checkWeakMode, Option.map_some, Option.map_some,
        h.metafield_eq hn (List.mem_cons_self ..) ht]
      cases g.metafield mt modeName with
      | str s =>
        cases hs : g.heap.get s with
        | none => simp only [hs]; exact modeLe_false _
        | some ls => simp only [hs, h.string s ls hs]; exact .refl _
      | _ => exact .refl _

/-! ### The invariant -/

/-- A value is settled, or it is a weak reference (`weak`) of a weak table on the list. -/
def EntryOk (g : Gc) (r : GcRef .table) (weak : Bool) (v : Val) : Prop :=
  g.SettledVal v ∨ weak = true ∧ r ∈ g.gcState.weakTables

/-- What holds of a table that has been traversed. -/
structure TableOk (g : Gc) (r : GcRef .table) (t : Table) : Prop where
  metatable : ∀ mt ∈ t.metatable, g.Settled ⟨_, mt⟩
  array : ∀ v ∈ t.array, g.EntryOk r (g.checkWeakMode t.metatable).2 v
  key : ∀ n ∈ t.nodes, n.key ≠ .nil → n.value ≠ .nil → g.EntryOk r (g.checkWeakMode t.metatable).1 n.key
  value : ∀ n ∈ t.nodes, n.key ≠ .nil → n.value ≠ .nil →
    g.EntryOk r (g.checkWeakMode t.metatable).2 n.value

/-- An upvalue that was closed when its thread was left, and whose value is still on the stack of that
    thread: of a thread that will come back, or of a coroutine the collector has reached. -/
def Held (saved : List LuaThread) (g : Gc) (uv : GcRef .upvalue) (v : Val) : Prop :=
  (∃ t ∈ saved, uv ∈ t.suspendedUpvals.map Prod.fst ∧ v ∈ t.liveStack) ∨
    ∃ r x, g.heap.cell ⟨.thread, r⟩ = some x ∧ x.color.isWhite = false ∧
      uv ∈ (LuaThread.suspendedUpvals x.value).map Prod.fst ∧
      v ∈ ThreadFields.liveStack (LuaThread.toThreadFields x.value)

/-- What holds of a black object of each kind. A coroutine on the `pending` list will have its stack
    marked again, but not its hook. -/
def BlackOk (saved : List LuaThread) (pending : List GrayItem) (g : Gc) : (o : ObjRef) → Obj o.kind → Prop
  | ⟨.string, _⟩, _ => True
  | ⟨.table, r⟩, t => g.TableOk r t
  | ⟨.closure, _⟩, cl => ∀ c ∈ Obj.refs (k := .closure) cl, g.Settled c
  | ⟨.upvalue, r⟩, uv => ∀ v ∈ Upvalue.vals uv, g.SettledVal v ∨ Held saved g r v
  | ⟨.userdata, _⟩, ud => ∀ c ∈ Obj.refs (k := .userdata) ud, g.Settled c
  | ⟨.thread, r⟩, t => g.SettledVal (ThreadFields.hookFunc (LuaThread.toThreadFields t)) ∧
      (Listed ⟨.thread, r⟩ pending ∨ ∀ c ∈ Obj.refs (k := .thread) t, g.Settled c)

/-- The tri-colour invariant, except for the objects in `ex`. -/
structure TriInv (saved : List LuaThread) (pending : List GrayItem) (ex : ObjRef → Prop) (g : Gc) : Prop
    where
  white : g.currentWhite.isWhite = true
  names : g.NamesOk
  not_other : ∀ o x, g.heap.cell o = some x → x.color ≠ g.currentWhite.otherWhite
  gray : ∀ o x, ¬ex o → g.heap.cell o = some x → x.color = .gray → x.flags.frozen = false →
    Listed o (g.gcState.gray ++ pending)
  black : ∀ o x, ¬ex o → g.heap.cell o = some x → x.color = .black → x.flags.frozen = false →
    BlackOk saved pending g o x.value

/-- All that an object refers to is settled. -/
theorem blackOk_of_refs {x : Obj o.kind} (hk : o.kind ≠ .thread) (h : ∀ c ∈ Obj.refs x, g.Settled c) :
    BlackOk saved pending g o x := by
  rcases o with ⟨k, r⟩
  cases k with
  | string => trivial
  | closure => exact h
  | userdata => exact h
  | thread => exact absurd rfl hk
  | upvalue =>
    intro v hv
    refine .inl fun o ho => h o ?_
    simp only [Obj.refs, Obj.vals, List.mem_append, List.mem_filterMap]
    exact .inl ⟨v, hv, ho⟩
  | table =>
    have hval : ∀ v ∈ Table.vals x, g.SettledVal v := fun v hv o ho => h o (by
      simp only [Obj.refs, Obj.vals, List.mem_append, List.mem_filterMap]
      exact .inl ⟨v, .inr hv, ho⟩)
    have hnode : ∀ n ∈ Table.nodes x, n.key ≠ .nil → n.value ≠ .nil → ∀ v ∈ [n.key, n.value], g.SettledVal v := by
      intro n hn hk hv v hmem
      refine hval v ?_
      rw [Table.vals, List.mem_append, List.mem_flatMap]
      refine .inr ⟨n, hn, ?_⟩
      rw [if_neg (by simp [Val.isNil_eq_false.mpr hk, Val.isNil_eq_false.mpr hv])]
      exact hmem
    refine ⟨fun mt hmt => h _ ?_, fun v hv => .inl (hval v ?_), fun n hn hk hv => .inl ?_,
      fun n hn hk hv => .inl ?_⟩
    · simp only [Obj.refs, Obj.vals, List.mem_append, List.mem_filterMap]
      exact .inl ⟨.table mt, .inl (by simpa using hmt), rfl⟩
    · rw [Table.vals, List.mem_append]; exact .inl hv
    · exact hnode n hn hk hv _ (by simp)
    · exact hnode n hn hk hv _ (by simp)

/-! ### Traversal -/

/-- The collector has recoloured objects of `P`, and moved entries of its lists, between `g` and `g'`. -/
structure Traverses (P : ObjRef → Prop) (g g' : Gc) : Prop where
  frame : g' = { g with
    heap := g'.heap
    gcState := { g.gcState with
      gray := g'.gcState.gray
      grayagain := g'.gcState.grayagain
      weakTables := g'.gcState.weakTables } }
  slots_eq : ∀ k, g'.heap.slots k = g.heap.slots k
  cell : ∀ o x, g.heap.cell o = some x → ∃ y, g'.heap.cell o = some y ∧ y.value = x.value ∧
    y.flags = x.flags ∧ (y.color = x.color ∨ y.color.isWhite = false ∧ P o)
  cell_none : ∀ o, g.heap.cell o = none → g'.heap.cell o = none
  weak_sub : ∀ r ∈ g.gcState.weakTables, r ∈ g'.gcState.weakTables
  gray_new : ∀ i ∈ g'.gcState.gray, i ∈ g.gcState.gray ∨ ∀ o, GrayItem.obj i = some o → P o

theorem Marks.traverses (h : Marks P g g') : Traverses P g g' where
  frame := by
    have := h.frame
    rw [this]
  slots_eq := h.slots_eq
  cell o x hx := by
    rcases h.cell o with heq | ⟨y, hy, -, hP, heq, -⟩ | ⟨y, hy, -, hP, heq, -, -⟩
    · exact ⟨x, heq.trans hx, rfl, rfl, .inl rfl⟩
    · rw [hx] at hy; cases hy; exact ⟨_, heq, rfl, rfl, .inr ⟨rfl, hP⟩⟩
    · rw [hx] at hy; cases hy; exact ⟨_, heq, rfl, rfl, .inr ⟨rfl, hP⟩⟩
  cell_none o hx := by
    rcases h.cell o with heq | ⟨y, hy, -⟩ | ⟨y, hy, -⟩
    · exact heq.trans hx
    · rw [hx] at hy; cases hy
    · rw [hx] at hy; cases hy
  weak_sub r hr := by rw [h.frame]; exact hr
  gray_new := h.gray_new

namespace Traverses

theorem refl (P : ObjRef → Prop) (g : Gc) : Traverses P g g where
  frame := rfl
  slots_eq _ := rfl
  cell _ x hx := ⟨x, hx, rfl, rfl, .inl rfl⟩
  cell_none _ h := h
  weak_sub _ h := h
  gray_new _ h := .inl h

theorem trans {g'' : Gc} (h : Traverses P g g') (h' : Traverses P g' g'') : Traverses P g g'' where
  frame := by
    have h1 := h.frame
    have h2 := h'.frame
    rw [h1] at h2
    exact h2
  slots_eq k := (h'.slots_eq k).trans (h.slots_eq k)
  cell o x hx := by
    obtain ⟨y, hy, hv, hf, hc⟩ := h.cell o x hx
    obtain ⟨z, hz, hv', hf', hc'⟩ := h'.cell o y hy
    refine ⟨z, hz, hv'.trans hv, hf'.trans hf, ?_⟩
    rcases hc' with hc' | hc'
    · rw [hc']; exact hc
    · exact .inr hc'
  cell_none o hx := h'.cell_none o (h.cell_none o hx)
  weak_sub r hr := h'.weak_sub r (h.weak_sub r hr)
  gray_new i hi := by
    rcases h'.gray_new i hi with hi' | hP
    · exact h.gray_new i hi'
    · exact .inr hP

theorem currentWhite_eq (h : Traverses P g g') : g'.currentWhite = g.currentWhite := by rw [h.frame]

theorem cell_rev (h : Traverses P g g') {y : Cell (Obj o.kind)} (hy : g'.heap.cell o = some y) :
    ∃ x, g.heap.cell o = some x ∧ y.value = x.value ∧ y.flags = x.flags ∧
      (y.color = x.color ∨ y.color.isWhite = false ∧ P o) := by
  cases hx : g.heap.cell o with
  | none => rw [h.cell_none o hx] at hy; cases hy
  | some x =>
    obtain ⟨y', hy', hrest⟩ := h.cell o x hx
    rw [hy] at hy'
    cases hy'
    exact ⟨x, rfl, hrest⟩

theorem get_eq (h : Traverses P g g') {k : ObjKind} (r : GcRef k) : g'.heap.get r = g.heap.get r := by
  rw [Heap.get_eq, Heap.get_eq]
  cases hx : g.heap.cell ⟨k, r⟩ with
  | none => rw [h.cell_none _ hx]
  | some x =>
    obtain ⟨y, hy, hv, -⟩ := h.cell _ x hx
    rw [hy, Option.map_some, Option.map_some, hv]

theorem settled (h : Traverses P g g') (hw : g.currentWhite.isWhite = true) (hs : g.Settled o) :
    g'.Settled o := by
  intro y hy hc
  obtain ⟨x, hx, -, hf, hcol⟩ := h.cell_rev hy
  rw [h.currentWhite_eq] at hc
  rcases hcol with hcol | ⟨hcol, -⟩
  · rw [hf]; exact hs x hx (hcol ▸ hc)
  · rw [hc, hw] at hcol; cases hcol

theorem settledVal (h : Traverses P g g') (hw : g.currentWhite.isWhite = true) {v : Val}
    (hs : g.SettledVal v) : g'.SettledVal v := fun o ho => h.settled hw (hs o ho)

theorem toExtends (h : Traverses P g g') : Extends g g' where
  tmNames_eq := by rw [h.frame]
  string r x hx := (h.get_eq r).trans hx
  table r x hx := (h.get_eq r).trans hx

theorem refClosed (h : Traverses P g g') {Q : ObjRef → Prop} (hQ : RefClosed Q g) : RefClosed Q g' :=
  hQ.of_values fun _ _ hy => by
    obtain ⟨x, hx, hv, -⟩ := h.cell_rev hy
    exact ⟨x, hx, hv.symm⟩

end Traverses

theorem EntryOk.mono (h : Traverses P g g') (hw : g.currentWhite.isWhite = true) {r : GcRef .table}
    {weak weak' : Bool} (hle : weak = true → weak' = true) {v : Val} (hv : g.EntryOk r weak v) :
    g'.EntryOk r weak' v := by
  rcases hv with hv | ⟨hv, hr⟩
  · exact .inl (h.settledVal hw hv)
  · exact .inr ⟨hle hv, h.weak_sub r hr⟩

theorem Held.mono (h : Traverses P g g') {uv : GcRef .upvalue} {v : Val} (hv : Held saved g uv v) :
    Held saved g' uv v := by
  rcases hv with hv | ⟨r, x, hx, hc, huv, hv⟩
  · exact .inl hv
  · obtain ⟨y, hy, hval, -, hcol⟩ := h.cell _ x hx
    refine .inr ⟨r, y, hy, ?_, hval ▸ huv, hval ▸ hv⟩
    rcases hcol with hcol | ⟨hcol, -⟩
    · rw [hcol]; exact hc
    · exact hcol

/-- A black object stays well-behaved while the collector goes on. -/
theorem BlackOk.mono (h : Traverses P g g') (hw : g.currentWhite.isWhite = true) (hn : g.NamesOk)
    (hp : ∀ i ∈ pending, i ∈ pending') {x : Obj o.kind} (hx : BlackOk saved pending g o x) :
    BlackOk saved pending' g' o x := by
  rcases o with ⟨k, r⟩
  cases k with
  | string => trivial
  | closure => exact fun c hc => h.settled hw (hx c hc)
  | userdata => exact fun c hc => h.settled hw (hx c hc)
  | upvalue =>
    intro v hv
    rcases hx v hv with hs | hs
    · exact .inl (h.settledVal hw hs)
    · exact .inr (hs.mono h)
  | thread =>
    refine ⟨h.settledVal hw hx.1, ?_⟩
    rcases hx.2 with hl | hs
    · exact .inl (hl.mono hp)
    · exact .inr fun c hc => h.settled hw (hs c hc)
  | table =>
    have hmode := h.toExtends.mode_le hn (Table.metatable x)
    have hx : g.TableOk r x := hx
    exact ⟨fun mt hmt => h.settled hw (hx.metatable mt hmt), fun v hv => (hx.array v hv).mono h hw hmode.2,
      fun n hn hk hv => (hx.key n hn hk hv).mono h hw hmode.1,
      fun n hn hk hv => (hx.value n hn hk hv).mono h hw hmode.2⟩

namespace TriInv

variable {ex : ObjRef → Prop}

/-- Marking keeps the invariant. -/
theorem marks (h : TriInv saved pending ex g) (hm : Marks P g g') : TriInv saved pending ex g' where
  white := hm.currentWhite_eq ▸ h.white
  names := hm.traverses.toExtends.namesOk h.names
  not_other o y hy := by
    rw [hm.currentWhite_eq]
    rcases hm.cell o with heq | ⟨x, hx, -, -, heq, -⟩ | ⟨x, hx, -, -, heq, -, -⟩
    · exact h.not_other o y (heq ▸ hy)
    · rw [heq] at hy; cases hy; exact Color.ne_otherWhite h.white rfl
    · rw [heq] at hy; cases hy; exact Color.ne_otherWhite h.white rfl
  gray o y hex hy hc hf := by
    rcases hm.cell o with heq | ⟨x, hx, -, -, heq, hl⟩ | ⟨x, hx, -, -, heq, -, -⟩
    · refine (h.gray o y hex (heq ▸ hy) hc hf).mono fun i hi => ?_
      rcases List.mem_append.mp hi with hi | hi
      · exact List.mem_append_left _ (hm.gray_sub i hi)
      · exact List.mem_append_right _ hi
    · exact hl.mono fun i hi => List.mem_append_left _ hi
    · rw [heq] at hy; cases hy; cases hc
  black o y hex hy hc hf := by
    rcases hm.cell o with heq | ⟨x, hx, -, -, heq, -⟩ | ⟨x, hx, -, -, heq, hk, hrefs⟩
    · exact (h.black o y hex (heq ▸ hy) hc hf).mono hm.traverses h.white h.names fun _ hi => hi
    · rw [heq] at hy; cases hy; cases hc
    · rw [heq] at hy; cases hy; exact blackOk_of_refs hk hrefs

/-- The collector does something that leaves the objects outside `ex` alone. -/
theorem step (h : TriInv saved pending ex g) (ht : Traverses P g g')
    (hcell : ∀ o x, ¬ex o → g'.heap.cell o = some x → g.heap.cell o = some x)
    (hgray : ∀ i ∈ g.gcState.gray, i ∈ g'.gcState.gray) (hp : ∀ i ∈ pending, i ∈ pending') :
    TriInv saved pending' ex g' where
  white := ht.currentWhite_eq ▸ h.white
  names := ht.toExtends.namesOk h.names
  not_other o y hy := by
    rw [ht.currentWhite_eq]
    obtain ⟨x, hx, -, -, hc | ⟨hc, -⟩⟩ := ht.cell_rev hy
    · rw [hc]; exact h.not_other o x hx
    · exact Color.ne_otherWhite h.white hc
  gray o y hex hy hc hf := by
    refine (h.gray o y hex (hcell o y hex hy) hc hf).mono fun i hi => ?_
    rcases List.mem_append.mp hi with hi | hi
    · exact List.mem_append_left _ (hgray i hi)
    · exact List.mem_append_right _ (hp i hi)
  black o y hex hy hc hf :=
    (h.black o y hex (hcell o y hex hy) hc hf).mono ht h.white h.names hp

/-- Objects whose colour is justified again are no exceptions any more. -/
theorem close {ex' : ObjRef → Prop} (h : TriInv saved pending ex g)
    (hex : ∀ o x, ex o → ¬ex' o → g.heap.cell o = some x → x.flags.frozen = false →
      (x.color = .gray → Listed o (g.gcState.gray ++ pending)) ∧
        (x.color = .black → BlackOk saved pending g o x.value)) :
    TriInv saved pending ex' g where
  white := h.white
  names := h.names
  not_other := h.not_other
  gray o x ho hx hc hf := by
    by_cases hx' : ex o
    · exact (hex o x hx' ho hx hf).1 hc
    · exact h.gray o x hx' hx hc hf
  black o x ho hx hc hf := by
    by_cases hx' : ex o
    · exact (hex o x hx' ho hx hf).2 hc
    · exact h.black o x hx' hx hc hf

/-- Making more exceptions. -/
theorem weaken {ex' : ObjRef → Prop} (h : TriInv saved pending ex g) (hex : ∀ o, ex o → ex' o) :
    TriInv saved pending ex' g :=
  h.close fun o _ ho hno => absurd (hex o ho) hno

end TriInv

/-- No table has the skip-traverse flag, which only embedders set. -/
def NoSkip (g : Gc) : Prop := ∀ o x, g.heap.cell o = some x → x.flags.skipTraverse = false

theorem Traverses.noSkip (h : Traverses P g g') (hns : g.NoSkip) : g'.NoSkip := by
  intro o y hy
  obtain ⟨x, hx, -, hf, -⟩ := h.cell_rev hy
  rw [hf]
  exact hns o x hx

theorem isSkipTraverseOrFrozen_eq (hns : g.NoSkip) (r : GcRef .table) :
    (g.heap.arena .table).isSkipTraverseOrFrozen r = g.heap.hasFlag ⟨_, r⟩ .frozen := by
  have hskip : (g.heap.arena .table).hasFlag r .skipTraverse = false := by
    have := Heap.hasFlag_eq g.heap ⟨_, r⟩ .skipTraverse
    rw [Heap.hasFlag] at this
    rw [this]
    cases hx : g.heap.cell ⟨_, r⟩ with
    | none => rfl
    | some x => exact hns _ x hx
  rw [Arena.isSkipTraverseOrFrozen, hskip, Bool.false_or]
  rfl

/-- The values the collector follows out of a table with the given weak mode. -/
def strongVals (t : Table) (m : Bool × Bool) : List Val :=
  (t.metatable.map Val.table).toList ++ (if m.2 then [] else t.array) ++ hashMarkValues t m.1 m.2

theorem mem_hashMarkValues {t : Table} {wk wv : Bool} {v : Val} :
    v ∈ hashMarkValues t wk wv ↔ ∃ n ∈ t.nodes, n.key ≠ .nil ∧ n.value ≠ .nil ∧
      (wk = false ∧ v = n.key ∨ wv = false ∧ v = n.value) := by
  rw [hashMarkValues, List.mem_flatMap]
  refine exists_congr fun n => and_congr_right fun _ => ?_
  cases hk : n.key.isNil <;> cases hv : n.value.isNil <;> cases wk <;> cases wv <;>
    simp_all [Val.isNil_eq_false]

theorem mem_strongVals {t : Table} {m : Bool × Bool} {v : Val} :
    v ∈ strongVals t m ↔ (∃ mt ∈ t.metatable, v = .table mt) ∨ (m.2 = false ∧ v ∈ t.array) ∨
      v ∈ hashMarkValues t m.1 m.2 := by
  rw [strongVals, List.mem_append, List.mem_append, or_assoc]
  refine or_congr ?_ (or_congr ?_ Iff.rfl)
  · simp [eq_comm]
  · cases m.2 <;> simp

/-- A weaker mode leaves fewer strong references. -/
theorem strongVals_mono {t : Table} {m m' : Bool × Bool} (h : ModeLe m m') {v : Val}
    (hv : v ∈ strongVals t m') : v ∈ strongVals t m := by
  have hle : ∀ {a b : Bool}, (a = true → b = true) → b = false → a = false := by
    intro a b h hb
    cases a
    · rfl
    · rw [h rfl] at hb; cases hb
  rw [mem_strongVals] at hv ⊢
  rcases hv with hmt | ⟨hm, hv⟩ | hv
  · exact .inl hmt
  · exact .inr (.inl ⟨hle h.2 hm, hv⟩)
  · refine .inr (.inr (mem_hashMarkValues.mpr ?_))
    obtain ⟨n, hn, hk, hnv, ⟨hm, rfl⟩ | ⟨hm, rfl⟩⟩ := mem_hashMarkValues.mp hv
    · exact ⟨n, hn, hk, hnv, .inl ⟨hle h.1 hm, rfl⟩⟩
    · exact ⟨n, hn, hk, hnv, .inr ⟨hle h.2 hm, rfl⟩⟩

/-- A set that contains what the collector follows out of its tables. -/
def TableClosed (P : ObjRef → Prop) (g : Gc) : Prop :=
  ∀ r x, P ⟨.table, r⟩ → g.heap.cell ⟨.table, r⟩ = some x → x.flags.frozen = false →
    ∀ v ∈ strongVals x.value (g.checkWeakMode (Table.metatable x.value)), ∀ o ∈ v.objRef, P o

theorem tableClosed_true (g : Gc) : TableClosed (fun _ => True) g := fun _ _ _ _ _ _ _ _ _ => trivial

theorem TableClosed.traverses {Q : ObjRef → Prop} (hcl : TableClosed Q g) (h : Traverses P g g')
    (hn : g.NamesOk) : TableClosed Q g' := by
  intro r y hr hy hf v hv o ho
  obtain ⟨x, hx, hval, hfl, -⟩ := h.cell_rev hy
  refine hcl r x hr hx (hfl ▸ hf) v ?_ o ho
  rw [hval] at hv
  exact strongVals_mono (h.toExtends.mode_le hn _) hv

/-- Recolouring an object in a colour that is not white. -/
theorem setColor_traverses (g : Gc) {c : Color} (hc : c.isWhite = false) (hP : P o) :
    Traverses P g { g with heap := g.heap.setColor o c } where
  frame := rfl
  slots_eq k := Heap.slots_setColor ..
  cell o' x hx := by
    show ∃ y, (g.heap.setColor o c).cell o' = some y ∧ _
    rw [Heap.cell_setColor, hx]
    by_cases ho : o' = o
    · subst ho; rw [if_pos rfl]; exact ⟨_, rfl, rfl, rfl, .inr ⟨hc, hP⟩⟩
    · rw [if_neg ho]; exact ⟨x, rfl, rfl, rfl, .inl rfl⟩
  cell_none o' hx := by
    show (g.heap.setColor o c).cell o' = none
    rw [Heap.cell_setColor, hx]
    split <;> rfl
  weak_sub _ h := h
  gray_new _ h := .inl h

theorem cell_setColor_ne {o' : ObjRef} {x : Cell (Obj o'.kind)} {c : Color} (ho : o' ≠ o)
    (hx : (g.heap.setColor o c).cell o' = some x) : g.heap.cell o' = some x := by
  rwa [Heap.cell_setColor, if_neg ho] at hx

theorem potential_setColor (g : Gc) (o : ObjRef) {c : Color} (hc : c.isWhite = false) :
    potential { g with heap := g.heap.setColor o c } ≤ g.potential := by
  have h := Heap.whites_setColor g.heap o hc
  have h1 := h .table
  have h2 := h .closure
  have h3 := h .thread
  simp only [potential]
  omega

end Gc

end Rilua.Vm
