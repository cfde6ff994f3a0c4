import Mathlib.Data.List.Basic
import Mathlib.Tactic.Common

/-!
# Pools

A list of things in progress, of which one at a time is replaced or leaves.
-/

namespace Pool
variable {α : Type*}

/-- The list around one of its elements, which is replaced or erased. -/
theorem split {l : List α} {i : ℕ} {a : α} (h : l[i]? = some a) :
    ∃ before after, l = before ++ a :: after ∧ (∀ b, l.set i b = before ++ b :: after) ∧
      l.eraseIdx i = before ++ after := by
  obtain ⟨hi, rfl⟩ := List.getElem?_eq_some_iff.mp h
  refine ⟨l.take i, l.drop (i + 1), ?_, fun b => ?_, List.eraseIdx_eq_take_drop_succ ..⟩
  · rw [← List.drop_eq_getElem_cons hi, List.take_append_drop]
  · rw [List.set_eq_take_append_cons_drop, if_pos hi]

end Pool
