import Mathlib.Data.List.Basic
import Mathlib.Logic.Function.Basic
import Mathlib.Tactic.Common

/-!
# Lanes

Items wait in lanes. A lane is worked off in its order, and independently of the others: so
two items are done in the order in which they have to be if they are in one lane, and
nothing is known about them if they are not.
-/
namespace Lanes
variable {W ι : Type*} {before : ι → ι → Prop} {lanes : W → List ι} {done : List ι}

/-- Items of different lanes have nothing to do with each other. -/
def Separated (before : ι → ι → Prop) (lanes : W → List ι) : Prop :=
  ∀ i j, i ≠ j → ∀ x ∈ lanes i, ∀ y ∈ lanes j, ¬ before x y

/-- An item that is done, or ahead in its lane, does not have to wait for one that comes
after it. -/
structure Ordered (before : ι → ι → Prop) (lanes : W → List ι) (done : List ι) : Prop where
  separated : Separated before lanes
  lane : ∀ i, (lanes i).Pairwise fun x y => ¬ before y x
  ahead : ∀ x ∈ done, ∀ i, ∀ y ∈ lanes i, ¬ before y x
  done : done.Pairwise fun x y => ¬ before y x

theorem Separated.mono (h : Separated before lanes) {lanes' : W → List ι}
    (hsub : ∀ i, lanes' i ⊆ lanes i) : Separated before lanes' :=
  fun i j hij x hx y hy => h i j hij x (hsub i hx) y (hsub j hy)

/-- A new item has nothing to do with those of the other lanes. -/
theorem Separated.insert (h : Separated before lanes) {lanes' : W → List ι} {i : W} {x : ι}
    (hsub : ∀ j, ∀ y ∈ lanes' j, y ∈ lanes j ∨ j = i ∧ y = x)
    (hx : ∀ j, j ≠ i → ∀ y ∈ lanes j, ¬ before x y ∧ ¬ before y x) : Separated before lanes' := by
  intro j k hjk a ha b hb
  rcases hsub j a ha with ha | ⟨rfl, rfl⟩
  · rcases hsub k b hb with hb | ⟨rfl, rfl⟩
    · exact h j k hjk a ha b hb
    · exact (hx j hjk a ha).2
  · rcases hsub k b hb with hb | ⟨rfl, rfl⟩
    · exact (hx k hjk.symm b hb).1
    · exact absurd rfl hjk

theorem ordered_nil : Ordered before (fun _ : W => []) [] :=
  ⟨fun _ _ _ _ hx => by simp at hx, fun _ => .nil, fun _ hx => by simp at hx, .nil⟩

section Update
variable [DecidableEq W]

theorem Separated.push (h : Separated before lanes) {i : W} {x : ι}
    (hx : ∀ j, j ≠ i → ∀ y ∈ lanes j, ¬ before x y ∧ ¬ before y x) :
    Separated before (Function.update lanes i (lanes i ++ [x])) := by
  refine h.insert (fun j y hy => ?_) hx
  by_cases hj : j = i
  · subst hj
    rw [Function.update_self] at hy
    exact (List.mem_append.mp hy).imp_right fun hy => ⟨rfl, List.mem_singleton.mp hy⟩
  · rw [Function.update_of_ne hj] at hy
    exact .inl hy

/-- A new item, for which nothing has to wait that is there already. -/
theorem Ordered.push (h : Ordered before lanes done) {i : W} {x : ι}
    (hlast : ∀ j, ∀ y ∈ lanes j, ¬ before x y) (hdone : ∀ y ∈ done, ¬ before x y)
    (hx : ∀ j, j ≠ i → ∀ y ∈ lanes j, ¬ before y x) :
    Ordered before (Function.update lanes i (lanes i ++ [x])) done := by
  refine ⟨h.separated.push fun j hj y hy => ⟨hlast j y hy, hx j hj y hy⟩, fun j => ?_, ?_, h.done⟩
  · by_cases hj : j = i
    · subst hj
      rw [Function.update_self]
      refine List.pairwise_append.mpr ⟨h.lane j, List.pairwise_singleton _ _, ?_⟩
      intro a ha b hb
      rw [List.mem_singleton.mp hb]
      exact hlast j a ha
    · rw [Function.update_of_ne hj]
      exact h.lane j
  · intro a ha j y hy
    by_cases hj : j = i
    · subst hj
      rw [Function.update_self] at hy
      rcases List.mem_append.mp hy with hy | hy
      · exact h.ahead a ha j y hy
      · rw [List.mem_singleton.mp hy]
        exact hdone a ha
    · rw [Function.update_of_ne hj] at hy
      exact h.ahead a ha j y hy

/-- The first item of a lane is done. -/
theorem Ordered.pop (h : Ordered before lanes done) {i : W} {x : ι} {rest : List ι}
    (hlane : lanes i = x :: rest) :
    Ordered before (Function.update lanes i rest) (done ++ [x]) := by
  have hmem : x ∈ lanes i := hlane ▸ List.mem_cons_self ..
  have hsub : ∀ j, Function.update lanes i rest j ⊆ lanes j := by
    intro j y hy
    by_cases hj : j = i
    · subst hj
      rw [Function.update_self] at hy
      exact hlane ▸ List.mem_cons_of_mem x hy
    · rwa [Function.update_of_ne hj] at hy
  have hfirst := h.lane i
  rw [hlane, List.pairwise_cons] at hfirst
  refine ⟨h.separated.mono hsub, fun j => ?_, ?_, ?_⟩
  · by_cases hj : j = i
    · subst hj
      rw [Function.update_self]
      exact hfirst.2
    · rw [Function.update_of_ne hj]
      exact h.lane j
  · intro a ha j y hy
    rcases List.mem_append.mp ha with ha | ha
    · exact h.ahead a ha j y (hsub j hy)
    · rw [List.mem_singleton.mp ha]
      by_cases hj : j = i
      · subst hj
        rw [Function.update_self] at hy
        exact hfirst.1 y hy
      · exact h.separated j i hj y (hsub j hy) x hmem
  · refine List.pairwise_append.mpr ⟨h.done, List.pairwise_singleton _ _, ?_⟩
    intro a ha b hb
    rw [List.mem_singleton.mp hb]
    exact h.ahead a ha i x hmem

end Update

end Lanes
