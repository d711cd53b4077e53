import Rilua.Vm.ControlRun

/-! The top of the stack between the instructions of a Lua function. What an instruction pushes for a metamethod
    or a hook goes to the top, so the top must not lie below that of the frame, which bounds its registers.
    It does where a suspended coroutine goes on below the frame that has returned: the loop of `auxresume`
    runs the frame without restoring the top, as `RETURN` does. And it is one slot too high after each
    metamethod with a result. -/

namespace Rilua.Vm

open Lib Gc LuaState

namespace Control

/-- How the top lies to that of the frame of a Lua function about to execute an instruction, where no open list
    is on the stack. -/
def TopAt (R : ℕ → ℕ → Prop) (m : Control) : Prop :=
  m.raised = none → m.openList = false → (∃ n ns, m.native = .execute n :: ns) →
    R (m.st.callInfo m.st.ci).top m.st.top

/-- A suspended coroutine goes on below a frame that has returned only where the results are an open list or the
    top is where it belongs, and an error that ends in a return hook or in a reader function called by the
    lexer comes from the call itself. -/
def Regular (R : ℕ → ℕ → Prop) (m : Control) (op : ControlOp) : Prop :=
  match m.raised, m.native, op with
  | none, .site _ _ _ (.resume _ _ loops _) :: _, .done =>
    loops = true → 0 < m.st.ci → m.openList = false → R (m.st.callInfo m.st.ci).top m.st.top
  | some _, .site _ _ saved (.hook _ true) :: _, .unwind _ | some _, .site _ _ saved (.reader false) :: _, .unwind _ =>
    Intact m.st saved
  | _, _, _ => True

/-- No metamethod returns a result to an instruction. -/
def NoResult (m : Control) (op : ControlOp) : Prop :=
  match m.raised, m.native, op with
  | none, .site _ _ saved (.tmRes _) :: .execute _ :: _, .done
  | none, .site _ _ saved .orderTm :: .execute _ :: _, .done => saved.openList = true
  | _, _, _ => True

end Control

/-- The frames are followed with the top at `R`. -/
def topSpec (R : ℕ → ℕ → Prop) (hR : ∀ n, R n n) : FrameSpec where
  bottom _ _ := True
  atTop := R
  strict := False
  atTop_refl := hR
  bottom_base h := h.elim

variable {R : ℕ → ℕ → Prop} {m m' : Control} {s : LuaState} {ops : List ControlOp}

theorem head_chain (h : m.st.ci < m.st.callStack.length) {c : CallInfo} (hc : c ∈ m.st.chain.head?) :
    c = m.st.callInfo m.st.ci := by
  obtain ⟨cs, hcs⟩ : ∃ cs, m.st.chain = c :: cs := List.head?_eq_some_iff.mp hc
  exact (callInfo_ci h hcs).symm

theorem Framed.topAt {hR : ∀ n, R n n} (h : Framed (topSpec R hR) m) : m.TopAt R := by
  intro hr hlist hn
  have hlen := length_chain h.ci_lt
  obtain ⟨c, cs, hchain⟩ := List.exists_cons_of_length_eq_add_one hlen
  rw [callInfo_ci h.ci_lt hchain]
  exact h.atTop hr hlist hn c (by simp [hchain])

/-- A regular step is allowed, if it brings no result of a metamethod or a higher top does no harm. -/
theorem allows_of_regular {hR : ∀ n, R n n} (h : Framed (topSpec R hR) m) {op : ControlOp} (hsound : m.Sound op)
    (hreg : m.Regular R op) (hres : (∀ a b c, R a b → b ≤ c → R a c) ∨ m.NoResult op) :
    (topSpec R hR).Allows m op := by
  refine ⟨hsound, ?_⟩
  unfold Control.Regular at hreg
  unfold Control.NoResult at hres
  split
  · -- A site goes on.
    rename_i pos wanted saved k ns hr hn
    rw [hr, hn] at hreg hres
    cases k with
    | tmRes =>
      rintro ⟨j, ns', rfl⟩ hlist
      exact hres.resolve_right (by simp [hlist])
    | orderTm =>
      rintro ⟨j, ns', rfl⟩ hlist
      exact hres.resolve_right (by simp [hlist])
    | resume co caller loops wrap =>
      intro hloops hci hlist c hc
      rw [head_chain h.ci_lt hc]
      exact hreg hloops hci hlist
    | exec => exact fun hK => hK.elim
    | _ => exact trivial
  · -- An error reaches a site.
    rename_i err pos wanted saved k ns v hr hn
    rw [hr, hn] at hreg
    cases k with
    | hook savedCiTop ret =>
      cases ret with
      | true => exact ⟨hreg, fun hK => hK.elim⟩
      | false => exact trivial
    | reader recovers =>
      cases recovers with
      | true => exact fun hK => hK.elim
      | false => exact ⟨hreg, fun hK => hK.elim⟩
    | handler => exact fun hK => hK.elim
    | exec => exact ⟨id, trivial⟩
    | hostCall => exact fun hK => hK.elim
    | _ => exact trivial
  · trivial

/-- A run from the beginning of steps that are regular. -/
theorem framed_regular (hR : ∀ n, R n n) {ok : Control → ControlOp → Prop} (hs : s.Idle)
    (hok : ∀ m op, ok m op → m.Sound op ∧ m.Regular R op ∧ ((∀ a b c, R a b → b ≤ c → R a c) ∨ m.NoResult op))
    (hrun : Run Control.step ok { st := s } ops m) : Framed (topSpec R hR) m := by
  refine hrun.invariant (Framed (topSpec R hR)) (fun m op m' h hm he => ?_) (hs.framed trivial)
  obtain ⟨hsound, hreg, hres⟩ := hok m op hm
  exact h.step (allows_of_regular h hsound hreg hres) he

/-- A Lua function and a native function are loaded. -/
def twoLoaded : LuaState where
  stack := []
  base := 1
  top := 1
  callStack := [CallInfo.initial]
  global := ⟨0, 0⟩
  gc := { heap := ((Heap.new.alloc .closure (.lua ⟨{}, [], ⟨0, 0⟩⟩) .white0).bind fun x =>
    (x.1.alloc .closure (.rust ⟨[], none⟩) .white0).map Prod.fst).getD Heap.new }
  registry := ⟨0, 0⟩
  hookEventNames := []
  hookMaskNames := []
  debugInfoFieldNames := []

def twoLoaded.lua : Val := .function ⟨0, 0⟩

def twoLoaded.native : Val := .function ⟨1, 0⟩

theorem idle_twoLoaded : twoLoaded.Idle := by
  refine ⟨rfl, rfl, rfl, rfl, rfl, rfl, rfl, rfl, fun co => ?_, fun r => ?_⟩
  · have harena : twoLoaded.gc.heap.arena .thread = {} := rfl
    rw [Heap.get, harena]
    rfl
  · have harena : twoLoaded.gc.heap.arena .upvalue = {} := rfl
    rw [openAt, Heap.get, harena]
    rfl

/-- What the host does: it creates a coroutine and resumes it. The function of the coroutine calls another one, which
    yields. When it has returned after the second resume, the function of the coroutine goes on with the top below
    its registers. -/
def deepYield : List ControlOp :=
  [.hostCall false twoLoaded.native [twoLoaded.lua], .create twoLoaded.lua, .retRust 1, .done,
    .hostCall false twoLoaded.native [.thread ⟨0, 0⟩], .resume ⟨0, 0⟩ [] false,
    .write 0 twoLoaded.lua, .call 1 0 1 1, .write 0 twoLoaded.native, .call 1 0 1 1, .yield,
    .unwind .nil, .unwind .nil, .unwind .nil, .retRust 0, .done,
    .hostCall false twoLoaded.native [.thread ⟨0, 0⟩], .resume ⟨0, 0⟩ [] false, .done, .ret 0 1, .done]

end Rilua.Vm
