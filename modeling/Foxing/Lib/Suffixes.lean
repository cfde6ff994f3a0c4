import Mathlib.Data.List.Nodup
import Mathlib.Tactic.Common

/-!
# Longest suffixes

Of the suffixes of a list that are good the longest is kept. Where the end of a good list is
good, an element belongs to it exactly if the list from this element on is good.
-/
namespace Suffixes
variable {α : Type*} {good : List α → Prop} {l s t : List α}

/-- The end of a good list is good. -/
def Closed (good : List α → Prop) : Prop := ∀ a l, good (a :: l) → good l

structure IsLongest (good : List α → Prop) (l s : List α) : Prop where
  suffix : s <:+ l
  isGood : good s
  longest : ∀ t, t <:+ l → good t → t.length ≤ s.length

theorem Closed.of_suffix (hclosed : Closed good) (h : s <:+ l) (hl : good l) : good s := by
  obtain ⟨pre, rfl⟩ := h
  induction pre with
  | nil => exact hl
  | cons a pre ih => exact ih (hclosed a _ hl)

theorem exists_isLongest (good : List α → Prop) (hnil : good []) (l : List α) : ∃ s, IsLongest good l s := by
  induction l with
  | nil =>
    refine ⟨[], List.suffix_rfl, hnil, ?_⟩
    intro t ht _
    exact ht.length_le
  | cons a l ih =>
    by_cases h : good (a :: l)
    · exact ⟨a :: l, List.suffix_rfl, h, fun t ht _ => ht.length_le⟩
    · obtain ⟨s, hs⟩ := ih
      refine ⟨s, hs.suffix.trans (List.suffix_cons a l), hs.isGood, ?_⟩
      intro t ht hgood
      rcases List.suffix_cons_iff.mp ht with rfl | ht
      · exact absurd hgood h
      · exact hs.longest t ht hgood

/-- An element is kept if the list from it on is good. -/
theorem IsLongest.mem_iff (hclosed : Closed good) (h : IsLongest good l s) (hnodup : l.Nodup)
    {older newer : List α} {v : α} (heq : l = older ++ v :: newer) :
    v ∈ s ↔ good (v :: newer) := by
  have hfrom : v :: newer <:+ l := ⟨older, heq.symm⟩
  constructor
  · intro hv
    rcases List.suffix_or_suffix_of_suffix h.suffix hfrom with hs | hs
    · -- the kept suffix does not begin behind the element
      rcases List.suffix_cons_iff.mp hs with rfl | hs
      · exact h.isGood
      · have hmem := hs.subset hv
        rw [heq, List.nodup_append] at hnodup
        exact absurd hmem (List.nodup_cons.mp hnodup.2.1).1
    · exact hclosed.of_suffix hs h.isGood
  · intro hgood
    have hle := h.longest _ hfrom hgood
    exact (List.suffix_of_suffix_length_le hfrom h.suffix hle).subset (List.mem_cons_self ..)

end Suffixes
