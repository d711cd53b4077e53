import Rilua.Vm.Gc.Stores
import Rilua.Vm.Gc.Upvalues

/-! Runs of a program with an incremental collector: steps of both, in any order. The program gets at objects through
    references only, weak entries among them, and what it has got at it can hold and store. -/

namespace Rilua.Vm

open Lib Gc

/-! ### The operations of a program -/

/-- An object that a program makes. -/
inductive NewObject where
  | table (t : Table)
  | closure (cl : Closure)
  | userdata (ud : Userdata)
  | thread (t : LuaThread)

namespace NewObject

/-- What the object refers to. -/
def refs : NewObject → List ObjRef
  | .table t => Obj.refs (k := .table) t
  | .closure cl => Obj.refs (k := .closure) cl
  | .userdata ud => Obj.refs (k := .userdata) ud
  | .thread t => Obj.refs (k := .thread) t

def Tidy : NewObject → Prop
  | .table t => t.Tidy
  | .closure _ | .userdata _ | .thread _ => True

/-- Allocates the object. -/
def alloc (g : Gc) : NewObject → Option (Gc × Val)
  | .table t => (g.allocTable t).map fun (g, r) => (g, .table r)
  | .closure cl => (g.allocClosure cl).map fun (g, r) => (g, .function r)
  | .userdata ud => (g.allocUserdata ud).map fun (g, r) => (g, .userdata r)
  | .thread t => (g.allocThread t).map fun (g, r) => (g, .thread r)

end NewObject

/-- A write to a table: an assignment, `rawset`, `SETLIST` or `setmetatable`. -/
inductive TableStore where
  | settable (t key value : Val)
  | rawset (args : List Val)
  | setList (table : Val) (values : List Val) (c : ℕ)
  | setmetatable (args : List Val)

namespace TableStore

def operands : TableStore → List Val
  | .settable t key value => [t, key, value]
  | .rawset args | .setmetatable args => args
  | .setList table values _ => table :: values

/-- The heap afterwards, also where the write fails. -/
def perform (g : Gc) : TableStore → Option Gc
  | .settable t key value => (TableM.vmSettable t key value g).map Prod.fst
  | .rawset args => (TableM.luaRawset args g).map Prod.fst
  | .setList table values c => (TableM.opSetList table values c g).map Prod.fst
  | .setmetatable args => (TableM.luaSetmetatable args g).map Prod.fst

end TableStore

/-- What happens next. `thread` stands for what a program does to its own stack, its frames, its hook and its error
    object, and what is made goes to a slot of the stack. -/
inductive ProgramOp where
  | collect
  | abortMark
  | thread (t : ThreadFields)
  | new (x : NewObject) (idx : ℕ)
  | intern (data : List UInt8) (idx : ℕ)
  | internStatic (key : ℕ) (data : List UInt8)
  | findUpvalue (idx : ℕ)
  | closeUpvalues (level : ℕ)
  | setUpval (r : GcRef .upvalue) (v : Val)
  | store (st : TableStore)

namespace LuaState

variable {s s' : LuaState} {o : ObjRef} {v : Val}

/-- What the program can get at, through weak entries too. -/
def Attains (s : LuaState) (o : ObjRef) : Prop :=
  Reach (fun o c => ∃ x, s.gc.heap.cell o = some x ∧ c ∈ Obj.refs x.value) (· ∈ s.rootRefs) o

def AttainsVal (s : LuaState) (v : Val) : Prop := ∀ o ∈ v.objRef, s.Attains o

end LuaState

namespace ProgramOp

def step (s : LuaState) : ProgramOp → Option LuaState
  | .collect => s.gcSinglestep.map Prod.fst
  | .abortMark => some s.abortMark
  | .thread t => some { s with toThreadFields := t }
  | .new x idx => (x.alloc s.gc).map fun (gc, v) => { s with gc }.stackSet idx v
  | .intern data idx => (s.gc.internString data).map fun (gc, r) => { s with gc }.stackSet idx (.str r)
  | .internStatic key data => (s.gc.internStringStatic key data).map fun (gc, _) => { s with gc }
  | .findUpvalue idx => (s.findUpvalue idx).map Prod.fst
  | .closeUpvalues level => some (s.closeUpvaluesBarrier level)
  | .setUpval r v => some (s.setUpval r v)
  | .store st => (st.perform s.gc).map fun gc => { s with gc }

/-- A program only uses what it can get at. The environment of the thread stays, its open upvalues are opened and closed
    by the operations for that, and writes to tables are within the memory limit and keep the modes of the weak tables that
    have been traversed. -/
def Permitted (s : LuaState) : ProgramOp → Prop
  | .thread t => t.global = s.global ∧ t.openUpvalues = s.openUpvalues ∧ ∀ v ∈ t.ownVals, s.AttainsVal v
  | .new x _ => x.Tidy ∧ ∀ o ∈ x.refs, s.Attains o
  | .closeUpvalues level => ∀ r ∈ s.openUpvalues, ∀ i, s.openAt r = some i → level ≤ i → s.AttainsVal (s.stackGet i)
  | .setUpval _ v => s.AttainsVal v
  | .store st => (∀ v ∈ st.operands, s.AttainsVal v) ∧ ∀ g, st.perform s.gc = some g → s.Admits g
  | .collect | .abortMark | .intern .. | .internStatic .. | .findUpvalue _ => True

end ProgramOp

/-! ### What each operation keeps -/

namespace LuaState

variable {s s' : LuaState} {o : ObjRef} {v : Val} {g : Gc} {ex : ObjRef → Prop}

/-- What the program can get at is alive. -/
theorem Ok.alive (h : s.Ok) (ho : s.Attains o) : s.gc.Alive o := by
  refine ho.of_closed (S := s.gc.Alive) h.roots ?_
  rintro o c ⟨x, hx, hne⟩ ⟨y, hy, hc⟩
  rw [hx] at hy
  cases hy
  exact h.gc.refs o x hx hne c hc

theorem Sound.stackSet (h : s.Sound ex) (hv : ∀ o ∈ v.objRef, s.gc.Alive o) (idx : ℕ) : (s.stackSet idx v).Sound ex :=
  h.own rfl rfl rfl rfl fun o ho => (h.ok.stackSet hv idx).roots o (mem_rootRefs.mpr (.inr (.inl ho)))

/-- The program makes something or interns a string. -/
theorem Sound.creates (h : s.Sound fun _ => False) (hm : Gc.Mutates (fun _ => False) s.gc g) :
    Sound (fun _ => False) { s with gc := g } :=
  h.mutates hm (fun _ => hm.keepsModes h.ok.gc nofun) nofun nofun

end LuaState

namespace NewObject

variable {g g' : Gc} {v : Val}

theorem mutates_alloc (hok : g.Ok) {x : NewObject} (halloc : x.alloc g = some (g', v)) (htidy : x.Tidy)
    (hrefs : ∀ o ∈ x.refs, g.Alive o) : Gc.Mutates (fun _ => False) g g' ∧ ∀ o ∈ v.objRef, g'.Alive o := by
  cases x with
  | table t =>
    obtain ⟨⟨g₁, r⟩, hmade, heq⟩ := Option.map_eq_some_iff.mp halloc
    cases heq
    obtain ⟨hm, hr⟩ := Gc.Mutates.alloc hok (by simp) hmade hrefs htidy
    exact ⟨hm, by rintro o ⟨⟩; exact hr⟩
  | closure cl =>
    obtain ⟨⟨g₁, r⟩, hmade, heq⟩ := Option.map_eq_some_iff.mp halloc
    cases heq
    obtain ⟨hm, hr⟩ := Gc.Mutates.alloc hok (by simp) hmade hrefs trivial
    exact ⟨hm, by rintro o ⟨⟩; exact hr⟩
  | userdata ud =>
    obtain ⟨⟨g₁, r⟩, hmade, heq⟩ := Option.map_eq_some_iff.mp halloc
    cases heq
    have hcount := Gc.Mutates.counters hok.interned g.gcState.totalBytes (g.gcState.udAllocSeq + 1)
    obtain ⟨hm, hr⟩ := Gc.Mutates.alloc (hcount.ok hok) (by simp) hmade (fun o ho => hcount.alive hok.white (hrefs o ho))
      trivial
    refine ⟨?_, by rintro o ⟨⟩; exact hr⟩
    simpa only [or_self] using hcount.trans hm hok.white
  | thread t =>
    obtain ⟨⟨g₁, r⟩, hmade, heq⟩ := Option.map_eq_some_iff.mp halloc
    cases heq
    obtain ⟨hm, hr⟩ := Gc.Mutates.alloc hok (by simp) hmade hrefs trivial
    exact ⟨hm, by rintro o ⟨⟩; exact hr⟩

end NewObject

namespace TableStore

/-- Whether a write succeeds or fails, it leaves a sound machine. -/
theorem leaves_of_stores {α : Type} {s : LuaState} {x : TableM α}
    (h : LuaState.Stores s (· = s.gc) x fun _ => s.Leaves) {g : Gc} (hg : (x s.gc).map Prod.fst = some g) :
    s.Leaves g := by
  obtain ⟨⟨g', w, r⟩, hx, heq⟩ := Option.map_eq_some_iff.mp hg
  cases heq
  obtain ⟨hok, herror⟩ := h _ _ _ _ rfl hx
  cases r with
  | ok a => exact hok a rfl
  | error e => exact herror e rfl

theorem forall_argOf {args : List Val} {A : ObjRef → Prop} (h : ∀ v ∈ args, ∀ o ∈ v.objRef, A o) (n : ℕ) :
    ∀ o ∈ (argOf args n).objRef, A o := by
  rw [argOf]
  cases hn : args[n]? with
  | none => simp [Val.objRef]
  | some v => exact h v (List.mem_of_getElem? hn)

theorem leaves {s : LuaState} (hs : s.Sound fun _ => False) {st : TableStore}
    (hops : ∀ v ∈ st.operands, ∀ o ∈ v.objRef, s.gc.Alive o) {g : Gc} (hg : st.perform s.gc = some g) : s.Leaves g := by
  cases st with
  | settable t key value =>
    exact leaves_of_stores (LuaState.Stores.vmSettable hs (hops key (by simp [operands]))
      (hops value (by simp [operands])) (hops t (by simp [operands]))) hg
  | rawset args => exact leaves_of_stores (LuaState.Stores.luaRawset hs (forall_argOf hops)) hg
  | setList table values c =>
    exact leaves_of_stores (LuaState.Stores.opSetList hs (hops table (by simp [operands]))
      (fun v hv => hops v (by simp [operands, hv])) c) hg
  | setmetatable args => exact leaves_of_stores (LuaState.Stores.luaSetmetatable hs (forall_argOf hops)) hg

end TableStore

namespace ProgramOp

variable {s s' : LuaState} {op : ProgramOp}

/-- Every operation keeps what the steps of the collector keep, in every phase. -/
theorem sound_step (h : s.Sound fun _ => False) (hp : Permitted s op) (hstep : step s op = some s') :
    s'.Sound fun _ => False := by
  have halive : ∀ {o : ObjRef}, s.Attains o → s.gc.Alive o := h.ok.alive
  have hvals : ∀ {v : Val}, s.AttainsVal v → ∀ o ∈ v.objRef, s.gc.Alive o := fun hv o ho => halive (hv o ho)
  cases op with
  | collect =>
    obtain ⟨⟨s₁, call⟩, hsingle, heq⟩ := Option.map_eq_some_iff.mp hstep
    cases heq
    obtain ⟨hok, hphase⟩ := LuaState.sound_iff.mp h
    exact LuaState.sound_iff.mpr (LuaState.gcSinglestep_ok hok hphase hsingle)
  | abortMark =>
    cases hstep
    obtain ⟨hok, hphase⟩ := LuaState.sound_iff.mp h
    exact LuaState.sound_iff.mpr (LuaState.abortMark_ok hok hphase)
  | thread t =>
    cases hstep
    obtain ⟨hglobal, hopen, hown⟩ := hp
    refine h.own rfl (by simp only [LuaState.fixedRefs, hglobal]) rfl hglobal fun o ho => ?_
    have hroot : ∀ o ∈ s.ownRefs, s.gc.Alive o := fun o ho => h.ok.roots o (LuaState.mem_rootRefs.mpr (.inr (.inl ho)))
    simp only [LuaState.ownRefs, hopen, List.mem_append, List.mem_filterMap] at ho hroot
    rcases ho with ⟨v, hv | hv, ho⟩ | ho
    · exact hvals (hown v hv) o ho
    · exact hroot o (.inl ⟨v, .inr hv, ho⟩)
    · exact hroot o (.inr ho)
  | new x idx =>
    obtain ⟨⟨g, v⟩, halloc, heq⟩ := Option.map_eq_some_iff.mp hstep
    cases heq
    obtain ⟨hm, hv⟩ := x.mutates_alloc h.ok.gc halloc hp.1 fun o ho => halive (hp.2 o ho)
    exact (h.creates hm).stackSet hv idx
  | intern data idx =>
    obtain ⟨⟨g, r⟩, hintern, heq⟩ := Option.map_eq_some_iff.mp hstep
    cases heq
    obtain ⟨hm, hr⟩ := Gc.Mutates.internString h.ok.gc.interned hintern
    exact (h.creates hm).stackSet (by rintro o ⟨⟩; exact hr) idx
  | internStatic key data =>
    obtain ⟨⟨g, r⟩, hintern, heq⟩ := Option.map_eq_some_iff.mp hstep
    cases heq
    exact h.creates (Gc.Mutates.internStringStatic h.ok.gc hintern).1
  | findUpvalue idx =>
    obtain ⟨⟨s₁, r⟩, hfind, heq⟩ := Option.map_eq_some_iff.mp hstep
    cases heq
    exact h.findUpvalue hfind
  | closeUpvalues level =>
    cases hstep
    refine h.closeUpvaluesBarrier fun r hr i hi hle v hv => hvals ?_
    have hslot := hp r hr i hi hle
    rwa [LuaState.stackGet, hv] at hslot
  | setUpval r v =>
    cases hstep
    exact h.setUpval (hvals hp)
  | store st =>
    obtain ⟨g, hg, heq⟩ := Option.map_eq_some_iff.mp hstep
    cases heq
    exact st.leaves h (fun v hv => hvals (hp.1 v hv)) hg (hp.2 g hg)

end ProgramOp

/-! ### The start -/

namespace Gc

variable {g g' : Gc}

theorem internAll_mutates : ∀ (names : List String) {g g' : Gc} {rs : List (GcRef .string)},
    internAll names g = some (g', rs) → g.interning.Inv → g.currentWhite.isWhite = true →
    Mutates (fun _ => False) g g' ∧ (∀ r ∈ rs, g'.Alive ⟨_, r⟩) ∧ ∀ name ∈ names, ∃ r ∈ rs,
      g'.heap.get r = some ⟨luaHash name.toUTF8.data.toList, name.toUTF8.data.toList⟩
  | [], _, _, _, h, hinv, _ => by
    cases h
    exact ⟨.counters hinv _ _, by simp, by simp⟩
  | name :: names, g, g', rs, h, hinv, hw => by
    rw [internAll, Option.bind_eq_bind, Option.bind_eq_some_iff] at h
    obtain ⟨⟨g₁, r⟩, hone, hrest⟩ := h
    obtain ⟨⟨g₂, rs'⟩, hnames, heq⟩ := Option.bind_eq_some_iff.mp hrest
    cases heq
    obtain ⟨hm₁, hr⟩ := Mutates.internString hinv hone
    obtain ⟨x, hx, hvalue, -⟩ := internString_self hinv hone
    have hw₁ : g₁.currentWhite.isWhite = true := hm₁.currentWhite_eq ▸ hw
    obtain ⟨hm₂, halive, hget⟩ := internAll_mutates names hnames (internString_inv hinv hone) hw₁
    refine ⟨by simpa only [or_self] using hm₁.trans hm₂ hw, fun u hu => ?_, fun n hn => ?_⟩
    · rcases List.mem_cons.mp hu with rfl | hu
      · exact hm₂.alive hw₁ hr
      · exact halive u hu
    · rcases List.mem_cons.mp hn with rfl | hn
      · refine ⟨r, List.mem_cons_self .., hm₂.get_string ?_⟩
        rw [Heap.get_eq, hx]
        exact congrArg some hvalue
      · obtain ⟨u, hu, hgu⟩ := hget n hn
        exact ⟨u, List.mem_cons_of_mem _ hu, hgu⟩

/-- A heap that is built from nothing and in which the names of the metamethods are interned. -/
theorem Mutates.ok_of_empty (h : Mutates (fun _ => False) {} g) {tmNames typeNameRefs : List (GcRef .string)}
    (hnames : ∀ r ∈ tmNames ++ typeNameRefs, g.Alive ⟨_, r⟩)
    (hgc : ∀ name ∈ [modeName, gcName], ∃ r ∈ tmNames, ∃ s, g.heap.get r = some s ∧ (LuaString.data s == name) = true) :
    Ok { g with tmNames := tmNames.map some, typeNameRefs := typeNameRefs.map some } ∧
      Resting { g with tmNames := tmNames.map some, typeNameRefs := typeNameRefs.map some } := by
  have hwhite : g.currentWhite = .white0 := h.currentWhite_eq
  have hwait : g.gcState.tmudata = [] := by rw [h.frame]
  have hroots : ∀ o ∈ rootRefs { g with tmNames := tmNames.map some, typeNameRefs := typeNameRefs.map some },
      o ∈ g.rootRefs ∨ ∃ r ∈ tmNames ++ typeNameRefs, o = ⟨_, r⟩ := by
    intro o ho
    simp only [Gc.rootRefs, List.filterMap_append, List.map_append, List.mem_append, List.mem_map, List.mem_filterMap] at ho ⊢
    rcases ho with ho | ⟨⟨r, ⟨_, ⟨u, hu, rfl⟩, hr⟩, rfl⟩ | ⟨r, ⟨_, ⟨u, hu, rfl⟩, hr⟩, rfl⟩⟩ | ho
    · exact .inl (.inl ho)
    · cases hr
      exact .inr ⟨r, .inl hu, rfl⟩
    · cases hr
      exact .inr ⟨r, .inr hu, rfl⟩
    · exact .inl (.inr (.inr ho))
  have hrested : ∀ o x, g.heap.cell o = some x → g.Rested o x := fun o x hx => (h.fresh o x rfl hx).2
  refine ⟨⟨?_, ⟨fun r hr => ?_, fun name hname => ?_⟩, fun o x hx => (h.fresh o x rfl hx).1, h.interned,
    fun o x hx hc c hcr => ?_, fun r x hx => h.tidy r x hx (.inl rfl), fun o ho => ?_, fun r hr => ?_⟩, fun o x hx => ?_⟩
  · exact congrArg Color.isWhite hwhite
  · obtain ⟨x, hx, -⟩ := hnames r (List.mem_append_left _ (by simpa using hr))
    exact ⟨x.value, by rw [Heap.get_eq]; exact congrArg (Option.map Cell.value) hx⟩
  · obtain ⟨r, hr, u, hu, hd⟩ := hgc name hname
    exact ⟨r, by simpa using hr, u, hu, hd⟩
  · refine h.refs o x hx (.inl rfl) ?_ c hcr
    rw [← h.currentWhite_eq]
    exact hc
  · rcases hroots o ho with ho | ⟨r, hr, rfl⟩
    · rcases h.roots_new o ho with ho | ⟨x, hx, hc, -⟩
      · cases ho
      · exact ⟨x, hx, h.currentWhite_eq ▸ hc⟩
    · exact hnames r hr
  · change r ∈ g.gcState.tmudata at hr
    rw [hwait] at hr
    cases hr
  · refine (hrested o x hx).imp_right fun hb => ⟨hb.1, hb.2.1, ?_⟩
    have ho := hb.2.2
    have htm : g.tmNames = [] := by rw [h.frame]
    have htypes : g.typeNameRefs = [] := by rw [h.frame]
    simp only [Gc.rootRefs, htm, htypes, List.filterMap_append, List.map_append, List.mem_append] at ho ⊢
    rcases ho with ho | (ho | ho) | ho
    · exact .inl ho
    · cases ho
    · cases ho
    · exact .inr (.inr ho)

end Gc

theorem LuaState.Sound.new {s : LuaState} (hnew : LuaState.new = some s) : s.Sound fun _ => False := by
  have hempty : ({} : Gc).interning.Inv := InternState.inv_new
  simp only [LuaState.new, Gc.new, Option.bind_eq_bind, Option.bind_eq_some_iff, Option.some.injEq] at hnew
  obtain ⟨_, ⟨⟨g₁, tm⟩, h₁, ⟨g₂, types⟩, h₂, rfl⟩, ⟨g₃, events⟩, h₃, ⟨g₄, masks⟩, h₄, ⟨g₅, fields⟩, h₅, ⟨g₆, global⟩, h₆,
    ⟨g₇, registry⟩, h₇, rfl⟩ := hnew
  obtain ⟨hm₁, ha₁, hn₁⟩ := Gc.internAll_mutates _ h₁ hempty rfl
  have hw₁ : g₁.currentWhite.isWhite = true := congrArg Color.isWhite hm₁.currentWhite_eq
  obtain ⟨hm₂, ha₂, -⟩ := Gc.internAll_mutates _ h₂ hm₁.interned hw₁
  have hm : Gc.Mutates (fun _ => False) {} g₂ := by simpa only [or_self] using hm₁.trans hm₂ rfl
  have hnames : ∀ name ∈ [modeName, gcName], ∃ r ∈ tm, ∃ u, g₂.heap.get r = some u ∧
      (LuaString.data u == name) = true := by
    have hname : ∀ name ∈ Vm.tmNames, ∃ r ∈ tm, ∃ u, g₂.heap.get r = some u ∧
        (LuaString.data u == name.toUTF8.data.toList) = true := fun name hn => by
      obtain ⟨r, hr, hget⟩ := hn₁ name hn
      exact ⟨r, hr, _, hm₂.get_string hget, beq_self_eq_true _⟩
    intro name hn
    simp only [List.mem_cons, List.not_mem_nil, or_false] at hn
    rcases hn with rfl | rfl
    · exact hname "__mode" (by simp [Vm.tmNames])
    · exact hname "__gc" (by simp [Vm.tmNames])
  obtain ⟨hok₀, hrest₀⟩ := hm.ok_of_empty (fun r hr =>
    (List.mem_append.mp hr).elim (fun hr => hm₂.alive hw₁ (ha₁ r hr)) (ha₂ r)) hnames
  obtain ⟨hm₃, ha₃, -⟩ := Gc.internAll_mutates _ h₃ hok₀.interned hok₀.white
  have hok₃ := hm₃.ok hok₀
  obtain ⟨hm₄, ha₄, -⟩ := Gc.internAll_mutates _ h₄ hok₃.interned hok₃.white
  have hok₄ := hm₄.ok hok₃
  obtain ⟨hm₅, ha₅, -⟩ := Gc.internAll_mutates _ h₅ hok₄.interned hok₄.white
  have hok₅ := hm₅.ok hok₄
  have hrefs : ∀ o ∈ Obj.refs (k := .table) ({} : Table), ∀ g : Gc, g.Alive o := by
    simp [Obj.refs, Obj.vals, Table.vals, Obj.upvalueRefs]
  have htidy : Table.Tidy {} := by
    rintro n hn
    simp at hn
  obtain ⟨hm₆, ha₆⟩ := Gc.Mutates.alloc hok₅ (by simp) h₆ (fun o ho => hrefs o ho g₅) htidy
  have hok₆ := hm₆.ok hok₅
  obtain ⟨hm₇, ha₇⟩ := Gc.Mutates.alloc hok₆ (by simp) h₇ (fun o ho => hrefs o ho g₆) htidy
  have hok₇ := hm₇.ok hok₆
  have hrest : g₇.Resting := hm₇.resting (hm₆.resting (hm₅.resting (hm₄.resting (hm₃.resting hrest₀))))
  have hstate : g₇.gcState.phase = .pause ∧ g₇.gcState.tmudata = [] := by
    rw [hm₇.frame, hm₆.frame, hm₅.frame, hm₄.frame, hm₃.frame, hm.frame]
    exact ⟨rfl, rfl⟩
  have hstrings : ∀ r ∈ events ++ masks ++ fields, g₇.Alive ⟨_, r⟩ := by
    intro r hr
    refine hm₇.alive hok₆.white (hm₆.alive hok₅.white ?_)
    rcases List.mem_append.mp hr with hr | hr
    · rcases List.mem_append.mp hr with hr | hr
      · exact hm₅.alive hok₄.white (hm₄.alive hok₃.white (ha₃ r hr))
      · exact hm₅.alive hok₄.white (ha₄ r hr)
    · exact ha₅ r hr
  refine sound_iff.mpr ⟨⟨hok₇, fun o ho => ?_, by simp [OneGlobal]⟩, ?_⟩
  · rcases mem_rootRefs.mp ho with ho | ho | ⟨t, ht, -⟩
    · simp only [fixedRefs, Option.map_none, Option.getD_none, List.filterMap_nil, List.append_nil, List.mem_append,
        List.mem_cons, List.mem_map] at ho
      rcases ho with ((rfl | rfl | ho) | ⟨r, hr, rfl⟩) | ho
      · exact hm₇.alive hok₆.white ha₆
      · exact ha₇
      · cases ho
      · exact hstrings r (by simpa only [List.mem_append] using hr)
      · exact hok₇.kept o ho
    · have hnil : ∀ {i : ℕ} {v : Val}, (List.replicate basicStackSize Val.nil)[i]? = some v → v.objRef = none := by
        intro i v hv
        rw [List.eq_of_mem_replicate (List.mem_of_getElem? hv)]
        rfl
      simp only [ownRefs, List.flatMap_nil, List.append_nil, List.mem_append, List.mem_filterMap] at ho
      rcases ho with ⟨v, hv, ho⟩ | ho
      · rw [forall_ownVals (p := fun v => v.objRef = none) |>.mpr ⟨rfl, by simp, fun _ _ _ => hnil, fun _ _ _ => hnil⟩ v hv] at ho
        cases ho
      · cases ho
    · cases ht
  · rw [PhaseOk, hstate.1]
    exact ⟨hrest, hstate.2⟩

/-! ### The result -/

/-- In every run of a program and the collector, an object the program can get at has not been freed. -/
theorem attains_isValid {s₀ s : LuaState} {ops : List ProgramOp} (hnew : LuaState.new = some s₀)
    (hrun : Run ProgramOp.step ProgramOp.Permitted s₀ ops s) {o : ObjRef} (ho : s.Attains o) :
    s.gc.heap.isValid o = true := by
  have hs := hrun.invariant (fun s => s.Sound fun _ => False) (fun _ _ _ => ProgramOp.sound_step) (.new hnew)
  obtain ⟨x, hx, -⟩ := hs.ok.alive ho
  rw [Heap.isValid_eq, hx]
  rfl

/-- A table is made and stored in the stack, and a cycle begins. -/
def makeAndCollect : Option (LuaState × LuaState × LuaState) := do
  let s₀ ← LuaState.new
  let s₁ ← ProgramOp.step s₀ (.new (.table {}) 0)
  let s ← ProgramOp.step s₁ .collect
  some (s₀, s₁, s)

theorem attains_isValid_global : ∃ s₀ s, LuaState.new = some s₀ ∧
    Run ProgramOp.step ProgramOp.Permitted s₀ [.new (.table {}) 0, .collect] s ∧
    s.gc.heap.isValid ⟨_, s.global⟩ = true := by
  have hsome : makeAndCollect.isSome = true := by decide +kernel
  obtain ⟨⟨s₀, s₁, s⟩, hs⟩ := Option.isSome_iff_exists.mp hsome
  rw [makeAndCollect, Option.bind_eq_bind] at hs
  obtain ⟨_, hnew, hs⟩ := Option.bind_eq_some_iff.mp hs
  obtain ⟨_, hmake, hs⟩ := Option.bind_eq_some_iff.mp hs
  obtain ⟨_, hcollect, heq⟩ := Option.bind_eq_some_iff.mp hs
  cases heq
  have hmade : ProgramOp.Permitted s₀ (.new (.table {}) 0) :=
    ⟨by rintro n hn; simp at hn, by simp [NewObject.refs, Obj.refs, Obj.vals, Table.vals, Obj.upvalueRefs]⟩
  have hrun : Run ProgramOp.step ProgramOp.Permitted s₀ [.new (.table {}) 0, .collect] s :=
    .cons hmade hmake (.single trivial hcollect)
  exact ⟨s₀, s, hnew, hrun, attains_isValid hnew hrun (.of_root (by simp [LuaState.rootRefs, ThreadFields.rootVals,
    Val.objRef]))⟩

end Rilua.Vm
