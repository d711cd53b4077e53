import Rilua.Lib.Reach
import Rilua.Vm.Gc.Tricolor

/-! What a program can reach: the roots of the machine, and from an object everything it refers to, weak entries of weak
    tables apart. -/

namespace Rilua.Vm

open Lib Gc

/-- The values a thread holds as a root: its environment, its hook, its error object, the stack in use and the
    functions of its call stack. -/
def ThreadFields.rootVals (t : ThreadFields) : List Val :=
  .table t.global :: t.hookFunc :: t.errorObject.toList ++ t.liveStack ++
    (t.callStack.take (t.ci + 1)).filterMap fun c => t.stack[c.func]?

namespace Gc

/-- The roots the heap keeps itself. -/
def rootRefs (g : Gc) : List ObjRef :=
  (g.typeMetatables.filterMap id).map (⟨_, ·⟩) ++
    ((g.tmNames ++ g.typeNameRefs).filterMap id ++ g.staticInternCache.map Prod.snd).map (⟨_, ·⟩)

/-- The references of an object that keep their target alive. -/
def strongRefs (g : Gc) : ObjRef → List ObjRef
  | ⟨.table, r⟩ =>
    match g.heap.get r with
    | some t => (strongVals t (g.checkWeakMode (Table.metatable t))).filterMap Val.objRef
    | none => []
  | ⟨_, r⟩ => ((g.heap.get r).map Obj.refs).getD []

end Gc

namespace LuaState

def rootRefs (s : LuaState) : List ObjRef :=
  let values := .table s.registry :: s.rootVals ++ s.savedThreads.flatMap (fun t => t.rootVals) ++
    (s.globalSlots.map GlobalSlotRuntime.values).getD []
  let upvalues := s.openUpvalues ++ s.savedThreads.flatMap LuaThread.upvalueRefs
  let strings := s.hookEventNames ++ s.hookMaskNames ++ s.debugInfoFieldNames ++
    (s.globalSlots.map fun rt => rt.nameKeys ++ rt.shadowRegistryKey.toList).getD []
  values.filterMap Val.objRef ++ upvalues.map (⟨_, ·⟩) ++ strings.map (⟨_, ·⟩) ++ s.gc.rootRefs

/-- What the program can reach in the state. -/
def Reaches (s : LuaState) (o : ObjRef) : Prop := Reach (fun o o' => o' ∈ s.gc.strongRefs o) (· ∈ s.rootRefs) o

end LuaState

end Rilua.Vm
