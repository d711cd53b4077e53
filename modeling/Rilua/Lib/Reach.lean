import Mathlib.Logic.Relation

/-! Reachability in a graph that changes. `Reach E R` is what can be got at from the roots `R` along the
    edges `E`; `Hereditary E P` is what has the property `P` together with everything that can be got at
    from it. A change of the graph keeps the hereditary part as long as it only adds edges that lead
    into it. -/

namespace Lib

open Relation

variable {α : Type*} {E E' : α → α → Prop} {R R' P P' S : α → Prop} {x y : α}

/-- What can be reached from `R`. -/
def Reach (E : α → α → Prop) (R : α → Prop) (x : α) : Prop := ∃ r, R r ∧ ReflTransGen E r x

namespace Reach

theorem of_root (h : R x) : Reach E R x := ⟨x, h, .refl⟩

theorem step (h : Reach E R x) (he : E x y) : Reach E R y := by
  obtain ⟨r, hr, hp⟩ := h
  exact ⟨r, hr, hp.tail he⟩

theorem trans (h : Reach E R x) (hp : ReflTransGen E x y) : Reach E R y := by
  obtain ⟨r, hr, hr'⟩ := h
  exact ⟨r, hr, hr'.trans hp⟩

/-- Reachability is the least set that contains the roots and is closed under edges. -/
theorem of_closed (hR : ∀ r, R r → S r) (hE : ∀ a b, S a → E a b → S b) (h : Reach E R x) : S x := by
  obtain ⟨r, hr, hp⟩ := h
  induction hp with
  | refl => exact hR r hr
  | tail _ he ih => exact hE _ _ ih he

theorem mono (hR : ∀ r, R r → R' r) (hE : ∀ a b, Reach E R a → E a b → E' a b) (h : Reach E R x) :
    Reach E' R' x := by
  obtain ⟨r, hr, hp⟩ := h
  induction hp with
  | refl => exact of_root (hR r hr)
  | tail hp he ih => exact ih.step (hE _ _ ⟨r, hr, hp⟩ he)

end Reach

/-- What satisfies `P` and only leads to what satisfies `P`. -/
def Hereditary (E : α → α → Prop) (P : α → Prop) (x : α) : Prop := ∀ y, ReflTransGen E x y → P y

namespace Hereditary

theorem self (h : Hereditary E P x) : P x := h x .refl

theorem edge (h : Hereditary E P x) (he : E x y) : Hereditary E P y := fun z hz => h z (hz.head he)

/-- Membership in a closed set of elements with the property. -/
theorem of_closed (hE : ∀ a b, S a → E a b → S b) (hP : ∀ a, S a → P a) (h : S x) :
    Hereditary E P x := by
  intro y hy
  refine hP y ?_
  induction hy with
  | refl => exact h
  | tail _ he ih => exact hE _ _ ih he

/-- One step at a time: an element is hereditary if it has the property and its successors are. -/
theorem of_edges (hx : P x) (hE : ∀ y, E x y → Hereditary E P y) : Hereditary E P x := by
  intro z hz
  rcases hz.cases_head with rfl | ⟨y, he, hy⟩
  · exact hx
  · exact hE y he z hy

/-- The hereditary part survives a change that adds only edges into it. -/
theorem mono (hP : ∀ a, Hereditary E P a → P' a)
    (hE : ∀ a b, Hereditary E P a → E' a b → Hereditary E P b) (h : Hereditary E P x) :
    Hereditary E' P' x :=
  of_closed hE hP h

end Hereditary

/-- Everything reachable has the property exactly if the roots are hereditary. -/
theorem forall_reach_iff : (∀ x, Reach E R x → P x) ↔ ∀ r, R r → Hereditary E P r :=
  ⟨fun h r hr y hy => h y ⟨r, hr, hy⟩, fun h _ ⟨r, hr, hp⟩ => h r hr _ hp⟩

end Lib
