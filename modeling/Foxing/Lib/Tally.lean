import Mathlib.Algebra.BigOperators.Ring.Finset
import Mathlib.Algebra.Order.BigOperators.Group.Finset
import Mathlib.Data.Fintype.BigOperators
import Mathlib.Tactic.Ring

/-!
# Counting processes by their phase

Finitely many processes are each in some phase; the tally of a class of phases
is the number of processes in it. When one process moves, a tally changes by the
difference between where it goes and where it was.
-/

/-- The number of processes whose phase is in the class. -/
def tally {T P : Type*} [Fintype T] (phase : T → P) (c : P → Bool) : ℤ :=
  (Finset.univ.filter fun t => c (phase t) = true).card

namespace Tally
variable {T P : Type*} [Fintype T] (phase : T → P) (c : P → Bool)

theorem tally_eq_sum : tally phase c = ∑ t, if c (phase t) = true then (1 : ℤ) else 0 := by
  simp [tally]

/-- One process moves to another phase. -/
theorem tally_update [DecidableEq T] (t : T) (p : P) :
    tally (Function.update phase t p) c = tally phase c +
      ((if c p = true then 1 else 0) - if c (phase t) = true then 1 else 0) := by
  have hcomp : (fun u => if c (Function.update phase t p u) = true then (1 : ℤ) else 0) =
      Function.update (fun u => if c (phase u) = true then (1 : ℤ) else 0) t
        (if c p = true then 1 else 0) := by
    funext u
    by_cases hu : u = t
    · subst hu
      simp
    · simp [hu]
  rw [tally_eq_sum, tally_eq_sum, hcomp, Finset.sum_update_of_mem (Finset.mem_univ t),
    ← Finset.add_sum_erase Finset.univ _ (Finset.mem_univ t), Finset.sdiff_singleton_eq_erase]
  ring

theorem tally_pos {t : T} (h : c (phase t) = true) : 0 < tally phase c := by
  have hmem : t ∈ Finset.univ.filter fun t => c (phase t) = true := by simp [h]
  have hcard := Finset.card_pos.mpr ⟨t, hmem⟩
  unfold tally
  exact_mod_cast hcard

/-- A class with at most one member. -/
theorem eq_of_tally_le_one (h : tally phase c ≤ 1) {t u : T} (ht : c (phase t) = true)
    (hu : c (phase u) = true) : t = u := by
  have hcard : (Finset.univ.filter fun t => c (phase t) = true).card ≤ 1 := by
    unfold tally at h
    exact_mod_cast h
  exact Finset.card_le_one.mp hcard t (Finset.mem_filter.mpr ⟨Finset.mem_univ t, ht⟩) u
    (Finset.mem_filter.mpr ⟨Finset.mem_univ u, hu⟩)

/-- A class made of two that do not meet. -/
theorem tally_add {c₁ c₂ : P → Bool} (h : ∀ p, (if c p = true then (1 : ℤ) else 0) =
    (if c₁ p = true then 1 else 0) + if c₂ p = true then 1 else 0) :
    tally phase c = tally phase c₁ + tally phase c₂ := by
  rw [tally_eq_sum, tally_eq_sum, tally_eq_sum, ← Finset.sum_add_distrib]
  exact Finset.sum_congr rfl (fun t _ => h (phase t))

theorem tally_const {p : P} (h : c p = false) : tally (fun _ : T => p) c = 0 := by
  simp [tally, h]

end Tally
