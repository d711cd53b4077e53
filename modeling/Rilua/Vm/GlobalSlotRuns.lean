import Rilua.Lib.Run
import Rilua.Vm.ApiStores
import Rilua.Vm.GlobalSlots

/-! Code that has been rewritten to access slots does what it did before, in every environment and whatever is assigned
    to the globals, except that slot 0 is not read anew: in the environment that the values have been captured from, the
    captured value stays. -/

namespace Rilua.Vm

open Lib Gc

/-! ### Running rewritten code -/

namespace InterpM

variable {W : Type} {host : InterpHost W} {names : Names} {s : Interp W} {p q : Proto} {i i' : Instruction}
  {key : GcRef .string} {rt : SlotRuntime} {slotIdx pc reg : ℕ} {v : Val} {globalSlots : Option SlotRuntime}

theorem onAccess_apply {α : Type} {x : AccessM α} {res : Except LuaError α}
    (h : x s.access = some (s.access, [], res)) : onAccess x s = some (s, [], res) := by
  rw [onAccess, h]
  rfl

theorem execute_getGlobal (hop : i.opcode = .getGlobal) (hkey : p.constants[i.bx.toNat]? = some (.str key)) :
    execute host names globalSlots p pc i s =
      getGlobalIn host names s.frame.env (.str key) pc (s.frame.base + i.a.toNat) s := by
  have hconst : (Act.ofOption p.constants[i.bx.toNat]? : InterpM W Val) s = some (s, [], .ok (.str key)) := by
    rw [Act.ofOption, Act.lift, hkey]
    rfl
  rw [execute, Act.get_bind]
  simp only [hop]
  rw [Act.bind_of_ok hconst]

theorem execute_setGlobal (hop : i.opcode = .setGlobal) (hkey : p.constants[i.bx.toNat]? = some (.str key)) :
    execute host names globalSlots p pc i s =
      setGlobalIn host names s.frame.env (.str key) (s.stack (s.frame.base + i.a.toNat)) pc s := by
  have hconst : (Act.ofOption p.constants[i.bx.toNat]? : InterpM W Val) s = some (s, [], .ok (.str key)) := by
    rw [Act.ofOption, Act.lift, hkey]
    rfl
  rw [execute, Act.get_bind]
  simp only [hop]
  rw [Act.bind_of_ok hconst]

theorem execute_setGlobalSlot (hop : i.opcode = .setGlobalSlot) (hkey : rt.nameKeys[i.bx.toNat]? = some key) :
    execute host names (some rt) p pc i s =
      setGlobalIn host names s.frame.env (.str key) (s.stack (s.frame.base + i.a.toNat)) pc s := by
  rw [execute, Act.get_bind]
  simp only [hop, Option.bind_some, hkey]

theorem execute_getGlobalSlot (hop : i.opcode = .getGlobalSlot) : execute host names (some rt) p pc i s =
    opGetGlobalSlot host names rt i.bx.toNat pc (s.frame.base + i.a.toNat) s := by
  rw [execute, Act.get_bind]
  simp only [hop]

/-- The opcode of a slot in another environment. -/
theorem opGetGlobalSlot_elsewhere (hkey : rt.nameKeys[slotIdx]? = some key) (hval : rt.values[slotIdx]? = some v)
    (henv : s.frame.env ≠ rt.rootGlobal) : opGetGlobalSlot host names rt slotIdx pc reg s =
      getGlobalIn host names s.frame.env (.str key) pc reg s := by
  have hsnap : (Act.ofOption rt.values[slotIdx]? : InterpM W Val) s = some (s, [], .ok v) := by
    rw [Act.ofOption, Act.lift, hval]
    rfl
  rw [opGetGlobalSlot, Act.get_bind, Act.bind_of_ok hsnap, hkey]
  dsimp only
  rw [if_pos henv]

/-- The opcode of a slot in the environment that the values have been captured from. -/
theorem opGetGlobalSlot_root (hkey : rt.nameKeys[slotIdx]? = some key) (hval : rt.values[slotIdx]? = some v)
    (henv : s.frame.env = rt.rootGlobal) : opGetGlobalSlot host names rt slotIdx pc reg s =
      readRootSlot host names rt (s.lookupSlotShadowTable rt) slotIdx (.str key) v pc reg s := by
  have hsnap : (Act.ofOption rt.values[slotIdx]? : InterpM W Val) s = some (s, [], .ok v) := by
    rw [Act.ofOption, Act.lift, hval]
    rfl
  rw [opGetGlobalSlot, Act.get_bind, Act.bind_of_ok hsnap, hkey]
  dsimp only
  rw [if_neg (not_not_intro henv)]

end InterpM

namespace Interp

variable {W : Type}

/-- The instruction reads a global that has a slot, in the environment that the values have been captured from. -/
structure ReadsSlot (rt : SlotRuntime) (p : Proto) (i : Instruction) (s : Interp W) (key : GcRef .string)
    (slotIdx : ℕ) : Prop where
  opcode : i.opcode = .getGlobal
  key_eq : p.constants[i.bx.toNat]? = some (.str key)
  slot_eq : (rt.keyToSlot key).map BitVec.toNat = some slotIdx
  env_eq : s.frame.env = rt.rootGlobal

/-- The global still has the captured value of slot 0, and reading it neither taints the frame nor makes a wrapper. -/
def Captured (rt : SlotRuntime) (s : Interp W) (key : GcRef .string) : Prop :=
  ∃ t v, s.access.tables.gc.heap.get rt.rootGlobal = some t ∧ rt.values[0]? = some v ∧
    t.get (.str key) s.access.tables.gc.heap.strings = some v ∧ (v.isNil = true → t.metatable = none) ∧
    (v.isNil = false → ¬ s.access.PicksUp (.str key) rt.rootGlobal) ∧ ¬ s.access.WrapsStored rt.rootGlobal v

/-- There is no shadow table; access to the captured environment is allowed, and slot 0 is not read after its global
    has been changed. -/
structure Settled (rt : SlotRuntime) (p : Proto) (i : Instruction) (s : Interp W) : Prop where
  noShadow : s.lookupSlotShadowTable rt = none
  allowed : ∀ key slotIdx, ReadsSlot rt p i s key slotIdx → s.access.Allows (.str key) rt.rootGlobal
  captured : ∀ key, ReadsSlot rt p i s key 0 → s.Captured rt key

end Interp

/-- What a host makes sure of when it installs slots and loads code. -/
structure SlotRuntime.Loaded {W : Type} (host : InterpHost W) (rt : SlotRuntime) (protos : ℕ → Proto)
    (arenas : ℕ → StringArena) : Prop where
  length_eq : rt.values.length = rt.nameKeys.length
  fits : rt.nameKeys.length ≤ 2 ^ sizeBx
  rewritable : ∀ fn, (protos fn).Rewritable rt.toGlobalSlotRuntime
  keys : ∀ fn, Proto.KeysKept rt.toGlobalSlotRuntime (arenas fn) host.text

/-- The prototypes as `patch_global_slot_opcodes` leaves them; each is loaded with some strings. -/
def SlotRuntime.rewritten (rt : SlotRuntime) (arenas : ℕ → StringArena) (protos : ℕ → Proto) (fn : ℕ) : Proto :=
  patchGlobalSlots rt.toGlobalSlotRuntime (arenas fn) (protos fn)

namespace SlotRuntime.Loaded

open InterpM Interp

variable {W : Type} {host : InterpHost W} {rt : SlotRuntime} {protos : ℕ → Proto} {arenas : ℕ → StringArena}
  {s : Interp W} {fn pc reg slotIdx : ℕ} {raw : BitVec 32} {key : GcRef .string} {names : Names}

theorem names_eq (h : rt.Loaded host protos arenas) : host.names (rt.rewritten arenas protos) = host.names protos := by
  funext fn pc reg
  exact Proto.getobjname_patched h.fits (h.rewritable fn) (h.keys fn) pc reg

theorem exists_value (h : rt.Loaded host protos arenas) (hkey : rt.nameKeys[slotIdx]? = some key) :
    ∃ v, rt.values[slotIdx]? = some v := by
  have hlt := (List.getElem?_eq_some_iff.mp hkey).1
  rw [← h.length_eq] at hlt
  exact ⟨_, List.getElem?_eq_getElem hlt⟩

/-- While slot 0 is as it has been captured, reading its global comes to the captured value. -/
theorem getGlobalIn_captured (host : InterpHost W) (names : Names) (pc reg : ℕ)
    (hallow : s.access.Allows (.str key) rt.rootGlobal) (hcap : s.Captured rt key) :
    ∃ v, rt.values[0]? = some v ∧
      getGlobalIn host names rt.rootGlobal (.str key) pc reg s = readSnapshot rt v reg s := by
  obtain ⟨t, v, hget, hval, hv, hnil, hpick, hwrap⟩ := hcap
  refine ⟨v, hval, ?_⟩
  have htry : AccessM.tryPlainTableGet (.table rt.rootGlobal) (.str key) s.access =
      some (s.access, [], .ok (some v)) := by
    rw [AccessM.tryPlainTableGet_allowed hallow hget hv]
    cases h : v.isNil with
    | true =>
      rw [if_pos rfl, hnil h, Val.isNil_eq_true.mp h]
      rfl
    | false =>
      obtain ⟨frames, hframes, hsame⟩ := AccessState.propagateSlotReadTaint_eq (.str key) hget
      rw [if_neg Bool.false_ne_true, hframes, hsame.mpr (hpick h)]
  have hstored : AccessM.onTables (SecretM.wrapTableValue rt.rootGlobal v) s.access =
      some (s.access, [], .ok v) := by
    refine AccessM.onTables_apply ?_
    rw [SecretTables.wrapTableValue_eq, AccessM.stored_plain hwrap]
    rfl
  rw [getGlobalIn, Act.bind_of_ok (onAccess_apply htry), readSnapshot, Act.bind_of_ok (onAccess_apply hstored)]

/-- An instruction and what it is rewritten to do the same. -/
theorem execute_eq (h : rt.Loaded host protos arenas) (hraw : (protos fn).code[pc]? = some raw)
    (hset : Settled rt (protos fn) ⟨raw⟩ s) :
    execute host names (some rt) (rt.rewritten arenas protos fn) (pc + 1)
        ⟨patchedRaw rt.toGlobalSlotRuntime (protos fn).constants raw⟩ s =
      execute host names (some rt) (protos fn) (pc + 1) ⟨raw⟩ s := by
  have hplain := (h.rewritable fn).plain raw (List.mem_of_getElem? hraw)
  rcases patchedRaw_cases (protos fn).constants h.fits hplain with heq | ⟨key, hrw⟩
  · rw [heq, execute, execute, SlotRuntime.rewritten, Proto.fetched_patched _ (h.rewritable fn) hraw,
      Proto.patchGlobalSlots_constants]
  · obtain ⟨v, hval⟩ := h.exists_value hrw.nameKey
    rcases hrw.opcode with ⟨hop, hop'⟩ | ⟨hop, hop'⟩
    · rw [execute_getGlobalSlot hop', execute_getGlobal hop hrw.key_eq, hrw.a_eq]
      by_cases henv : s.frame.env = rt.rootGlobal
      · have hreads : ReadsSlot rt (protos fn) ⟨raw⟩ s key _ :=
          ⟨hop, hrw.key_eq, by rw [hrw.slot_eq]; rfl, henv⟩
        have hallow := hset.allowed _ _ hreads
        rw [opGetGlobalSlot_root hrw.nameKey hval henv, hset.noShadow, readRootSlot,
          Act.bind_of_ok (onAccess_apply (AccessM.checkTableAccess_allowed hallow)), henv]
        split_ifs with hzero
        · rw [hzero] at hreads hval
          obtain ⟨v', hval', hread⟩ := getGlobalIn_captured host names (pc + 1)
            (s.frame.base + (Instruction.a ⟨raw⟩).toNat) hallow (hset.captured key hreads)
          cases hval.symm.trans hval'
          exact hread.symm
        · rfl
      · exact opGetGlobalSlot_elsewhere hrw.nameKey hval henv
    · rw [execute_setGlobalSlot hop' hrw.nameKey, execute_setGlobal hop hrw.key_eq, hrw.a_eq]

end SlotRuntime.Loaded

section Steps

variable {W : Type} {host : InterpHost W} {rt : SlotRuntime} {protos : ℕ → Proto} {arenas : ℕ → StringArena}
  {s : Interp W} {fn pc slotIdx : ℕ} {raw : BitVec 32} {key : GcRef .string}

/-- The next instruction finds the state settled, after what comes before every instruction. -/
def Interp.SettledNext (host : InterpHost W) (rt : SlotRuntime) (protos : ℕ → Proto) (s : Interp W) : Prop :=
  ∀ raw s' w, (protos s.frame.fn).code[s.frame.pc]? = some raw →
    host.before (host.names protos) { s with frame := { s.frame with pc := s.frame.pc + 1 } } = some (s', w, .ok ()) →
    s'.Settled rt (protos s.frame.fn) ⟨raw⟩

namespace SlotRuntime.Loaded

open InterpM Interp

/-- A step of the rewritten code is the step of the code as it was. -/
theorem step_eq (h : rt.Loaded host protos arenas) (hset : s.SettledNext host rt protos) :
    s.step host (some rt) (rt.rewritten arenas protos) = s.step host (some rt) protos := by
  have hcode : (rt.rewritten arenas protos s.frame.fn).code[s.frame.pc]? =
      ((protos s.frame.fn).code[s.frame.pc]?).map
        (patchedRaw rt.toGlobalSlotRuntime (protos s.frame.fn).constants) := by
    rw [SlotRuntime.rewritten, Proto.patchGlobalSlots_code, List.getElem?_map]
  rw [step, step, h.names_eq, hcode]
  cases hraw : (protos s.frame.fn).code[s.frame.pc]? with
  | none => rfl
  | some raw =>
    simp only [Option.map_some]
    rw [Act.bind_congr fun s' w _ hbefore => h.execute_eq hraw (hset raw s' w hraw hbefore)]

/-- The read of a global with a slot is rewritten. -/
theorem rewritten_read (h : rt.Loaded host protos arenas) (hraw : (protos fn).code[pc]? = some raw)
    (hreads : s.ReadsSlot rt (protos fn) ⟨raw⟩ key slotIdx) : ∃ i' : Instruction,
      patchedRaw rt.toGlobalSlotRuntime (protos fn).constants raw = i'.raw ∧
        Rewritten rt.toGlobalSlotRuntime (protos fn).constants ⟨raw⟩ i' key ∧ i'.opcode = .getGlobalSlot ∧
        i'.bx.toNat = slotIdx := by
  obtain ⟨hop, hkey, hslot, -⟩ := hreads
  obtain ⟨idx, hidx, hnat⟩ := Option.map_eq_some_iff.mp hslot
  have hpatch : patchInstruction rt.toGlobalSlotRuntime (protos fn).constants ⟨raw⟩ =
      some (((Instruction.mk raw).setOpcode .getGlobalSlot).setBx idx, idx) := by
    have hresolve : resolveSlotIndex rt.toGlobalSlotRuntime (protos fn).constants .getGlobal
        (Instruction.bx ⟨raw⟩).toNat = some idx := by
      rw [resolveSlotIndex, hkey]
      simp [hidx]
    rw [patchInstruction, hop, hresolve]
    rfl
  have hplain := (h.rewritable fn).plain raw (List.mem_of_getElem? hraw)
  obtain ⟨hbx, key', hrw⟩ := patchInstruction_spec h.fits hplain hpatch
  have hsame : key' = key := by
    have heq := hrw.key_eq.symm.trans hkey
    simpa using heq
  subst hsame
  refine ⟨_, by rw [patchedRaw, hpatch, Option.elim_some], hrw, by simp, ?_⟩
  rw [hbx, hnat]

theorem execute_read (h : rt.Loaded host protos arenas) (hraw : (protos fn).code[pc]? = some raw)
    (hreads : s.ReadsSlot rt (protos fn) ⟨raw⟩ key slotIdx) (names : Names) :
    ∃ v, rt.values[slotIdx]? = some v ∧
      execute host names (some rt) (rt.rewritten arenas protos fn) (pc + 1)
          ⟨patchedRaw rt.toGlobalSlotRuntime (protos fn).constants raw⟩ s =
        readRootSlot host names rt (s.lookupSlotShadowTable rt) slotIdx (.str key) v (pc + 1)
          (s.frame.base + (Instruction.a ⟨raw⟩).toNat) s := by
  obtain ⟨i', hi', hrw, hop, rfl⟩ := h.rewritten_read hraw hreads
  obtain ⟨v, hval⟩ := h.exists_value hrw.nameKey
  refine ⟨v, hval, ?_⟩
  rw [hi', execute_getGlobalSlot hop, hrw.a_eq, opGetGlobalSlot_root hrw.nameKey hval hreads.env_eq]

/-- Slot 0 in the environment that the values have been captured from: the captured value, whatever the global is. -/
theorem execute_slot_zero (h : rt.Loaded host protos arenas) (hraw : (protos fn).code[pc]? = some raw)
    (hreads : s.ReadsSlot rt (protos fn) ⟨raw⟩ key 0) (hallow : s.access.Allows (.str key) rt.rootGlobal)
    (names : Names) : ∃ v, rt.values[0]? = some v ∧
      execute host names (some rt) (rt.rewritten arenas protos fn) (pc + 1)
          ⟨patchedRaw rt.toGlobalSlotRuntime (protos fn).constants raw⟩ s =
        readSnapshot rt v (s.frame.base + (Instruction.a ⟨raw⟩).toNat) s := by
  obtain ⟨v, hval, hrun⟩ := h.execute_read hraw hreads names
  refine ⟨v, hval, ?_⟩
  rw [hrun, readRootSlot.eq_def, Act.bind_of_ok (onAccess_apply (AccessM.checkTableAccess_allowed hallow)), if_pos rfl]

/-- Where access is denied, the error is the same. -/
theorem execute_denied (h : rt.Loaded host protos arenas) (hraw : (protos fn).code[pc]? = some raw)
    (hreads : s.ReadsSlot rt (protos fn) ⟨raw⟩ key slotIdx) (hdenied : ¬ s.access.Allows (.str key) rt.rootGlobal)
    (names : Names) : ∃ e,
      execute host names (some rt) (rt.rewritten arenas protos fn) (pc + 1)
          ⟨patchedRaw rt.toGlobalSlotRuntime (protos fn).constants raw⟩ s = some (s, [], .error e) ∧
        execute host names (some rt) (protos fn) (pc + 1) ⟨raw⟩ s =
          some ({ s with frame := { s.frame with savedPc := pc + 1 } }, [], .error e) := by
  obtain ⟨e, hcheck⟩ := AccessM.checkTableAccess_denied hdenied
  obtain ⟨v, -, hrun⟩ := h.execute_read hraw hreads names
  refine ⟨e, ?_, ?_⟩
  · rw [hrun, readRootSlot.eq_def, Act.bind_of_error (onAccess_apply hcheck)]
  · have htry := AccessM.tryPlainTableGet_denied hdenied
    have hget : AccessM.vmGettable (.table rt.rootGlobal) (.str key) s.access = some (s.access, [], .error e) := by
      have hstep : AccessM.gettableStep (.table rt.rootGlobal) (.str key) s.access = some (s.access, [], .error e) := by
        rw [AccessM.gettableStep, AccessM.handleTableGettable, Act.bind_of_error hcheck]
      have htable := AccessM.checkedSecretTableRead_eq s.access (.table rt.rootGlobal)
      rw [AccessM.readTarget_table] at htable
      rw [AccessM.vmGettable, TableM.maxTagLoop, AccessM.vmGettableLoop, Act.bind_of_ok htable, Act.get_bind,
        Act.bind_of_error hstep]
    rw [execute_getGlobal hreads.opcode hreads.key_eq, hreads.env_eq, getGlobalIn,
      Act.bind_of_ok (onAccess_apply htry)]
    dsimp only
    rw [savePc, Act.modify_bind]
    exact Act.bind_of_error
      (onAccess_apply (s := { s with frame := { s.frame with savedPc := pc + 1 } }) hget) _

end SlotRuntime.Loaded

end Steps

/-- A global table, and the string of one key. -/
def slotGc : Gc :=
  let g := (({} : Gc).allocTable {}).elim {} Prod.fst
  (g.internString [95, 71]).elim g Prod.fst

/-- The global has slot 0; nothing is assigned to it yet. -/
def slotRuntime : SlotRuntime where
  values := [.nil]
  nameKeys := [⟨0, 0⟩]
  shadowRegistryKey := none
  rootGlobal := ⟨0, 0⟩

/-- Instructions on globals only. -/
def slotHost : InterpHost Unit where
  text r := if r = ⟨0, 0⟩ then some [95, 71] else none
  before _ := pure ()
  other _ _ := pure ()
  callIndex _ _ _ _ _ _ := pure ()
  callNewindex _ _ _ _ _ := pure ()
  raise _ _ _ := none

/-- The global is assigned a value, and then it is read. -/
def slotProto : Proto where
  code := [7, 69]
  constants := [.str ⟨0, 0⟩]

def slotStart : Interp Unit where
  access := { tables := { gc := slotGc } }
  registry := ⟨0, 0⟩
  stack _ := .bool true
  frame := ⟨0, ⟨0, 0⟩, 0, 0, 0⟩
  world := ()

theorem slotProto_rewritable : slotProto.Rewritable slotRuntime.toGlobalSlotRuntime := by
  have hops : (Instruction.mk 7).opcode = .setGlobal ∧ (Instruction.mk 69).opcode = .getGlobal := by decide +kernel
  refine ⟨rfl, fun raw hmem => ?_, ?_⟩
  · rcases List.mem_pair.mp hmem with rfl | rfl
    · rw [hops.1]
      rfl
    · rw [hops.2]
      rfl
  have hnone : (slotProto.fetched 1 ⟨7⟩).operands = [] ∧ (slotProto.fetched 2 ⟨69⟩).operands = [] := by decide +kernel
  rintro (_ | _ | pc) raw hraw w hw
  · cases hraw
    rw [hnone.1] at hw
    cases hw
  · cases hraw
    rw [hnone.2] at hw
    cases hw
  · cases hraw

theorem slotRuntime_loaded : slotRuntime.Loaded slotHost (fun _ => slotProto) fun _ => slotGc.heap.strings := by
  refine ⟨rfl, by decide, fun _ => slotProto_rewritable, fun _ key hkey => ?_⟩
  cases List.mem_singleton.mp hkey
  have htext : (slotGc.heap.strings.get ⟨0, 0⟩).map LuaString.data = some [95, 71] := by decide +kernel
  obtain ⟨x, hx, hdata⟩ := Option.map_eq_some_iff.mp htext
  refine ⟨x, hx, ?_⟩
  rw [hdata]
  rfl

/-- After an assignment to the global of slot 0, the rewritten code still reads the value from before. -/
theorem not_run_rewritten :
    (slotStart.access.tables.gc.heap.get slotRuntime.rootGlobal).bind
        (fun t => Table.get t (.str ⟨0, 0⟩) slotStart.access.tables.gc.heap.strings) = slotRuntime.values[0]? ∧
      slotStart.lookupSlotShadowTable slotRuntime = none ∧
      (exec (fun s (_ : Unit) => s.step slotHost (some slotRuntime) fun _ => slotProto) slotStart [(), ()]).map
          (fun s => s.stack 1) = some (.bool true) ∧
      (exec (fun s (_ : Unit) => s.step slotHost (some slotRuntime)
          (slotRuntime.rewritten (fun _ => slotGc.heap.strings) fun _ => slotProto)) slotStart [(), ()]).map
          (fun s => s.stack 1) = some .nil :=
  ⟨by decide +kernel, rfl, by decide +kernel, by decide +kernel⟩

end Rilua.Vm
