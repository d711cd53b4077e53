import Rilua.Vm.TableMap

/-! Keys that no entry can have, and assignments that fail: no lookup has changed, for whatever key, even where the
    table was being laid out anew. -/

namespace Rilua.Vm

open Lib Gc

namespace Table

variable {strings : StringArena} {t t' : Table} {key value : Val}

/-! ### Errors -/

/-- A walk from a main position finds nothing if no key passes the test. -/
theorem Inv.walk_of_absent (h : t.Inv strings) {test : Val → Bool} (hne : t.nodes ≠ [])
    (habs : ∀ n ∈ t.nodes, test n.key = false) (key : Val) :
    walk t.nodes test t.nodes.length (some (t.mainPosition key strings)) = some none := by
  obtain ⟨l, hl, hb⟩ := h.nodes_inv.chain _ (h.home_lt hne key)
  have hfind : (l.find? fun j => (t.nodes[j]?).any fun n => test n.key) = none := by
    refine List.find?_eq_none.mpr fun j hj => ?_
    rw [List.getElem?_eq_getElem (hb j hj), Option.any_some, habs _ (List.getElem_mem (hb j hj))]
    exact Bool.false_ne_true
  rw [h.mainPosition_eq hne, walk_eq test hl hb (hl.length_le hb), hfind]

theorem Inv.chainValue_of_absent (h : t.Inv strings) {test : Val → Bool} (hne : t.nodes ≠ [])
    (habs : ∀ n ∈ t.nodes, test n.key = false) (key : Val) :
    t.chainValue test (t.mainPosition key strings) = some .nil := by
  rw [chainValue, h.walk_of_absent hne habs]
  rfl

/-- A key that no entry can have has no value. -/
theorem Inv.get_of_not_live (h : t.Inv strings) (hk : ¬ key.Live strings) : t.get key strings = some .nil := by
  cases key with
  | nil => rfl
  | str r =>
    have hfreed : strings.get r = none := by
      by_contra hget
      refine hk ⟨by simp, rfl, ?_⟩
      rw [Val.isStale]
      cases hs : strings.get r with
      | none => exact absurd hs hget
      | some s => rfl
    simp only [get, getStr, hfreed]
    split
    · rfl
    · rfl
  | num n =>
    have hnan : n.isNaN = true := by
      by_contra hn
      exact hk ⟨by simp, Bool.eq_false_iff.mpr hn, rfl⟩
    have hint : numberToIntKey n = none := by
      cases hi : numberToIntKey n with
      | none => rfl
      | some k =>
        have hnot := F64.isNaN_of_beq (F64.beq_symm (beq_of_numberToIntKey hi).1)
        rw [hnan] at hnot
        cases hnot
    simp only [get, hint, getHash]
    by_cases hne : t.nodes = []
    · rw [if_pos (by simp [hne])]
    · rw [if_neg (by simp [hne])]
      refine h.chainValue_of_absent hne (fun m hm => Bool.eq_false_iff.mpr fun heq => ?_) (.num n)
      cases hkey : m.key with
      | num m' =>
        rw [hkey] at heq
        rw [F64.isNaN_of_beq (F64.beq_symm heq)] at hnan
        cases hnan
      | _ => rw [hkey] at heq; cases heq
  | _ => exact absurd ⟨by simp, rfl, rfl⟩ hk

theorem Inv.get_congr (h : t.Inv strings) (h' : t'.Inv strings)
    (heq : ∀ k, k.Live strings → t'.lookup k = t.lookup k) (k : Val) : t'.get k strings = t.get k strings := by
  by_cases hk : k.Live strings
  · rw [h'.get_eq hk, h.get_eq hk, heq k hk]
  · rw [h'.get_of_not_live hk, h.get_of_not_live hk]

theorem Inv.rawSet_error (h : t.Inv strings) (hsmall : t.Small) (hk : key.isStale strings = false) {e : LuaError}
    (hset : t.rawSet key value strings = some (t', .error e)) :
    t'.Inv strings ∧ ∀ k, t'.get k strings = t.get k strings := by
  obtain ⟨r, hr, hout⟩ := h.rawSet_spec hsmall hk value
  rw [hset, Option.some.injEq] at hr
  subst hr
  refine ⟨hout.inv, h.get_congr hout.inv fun k hk' => ?_⟩
  rw [hout.lookup_eq k hk', if_neg fun hc => by cases hc.1]

end Table

end Rilua.Vm
