import Mathlib.Data.List.Induction
import Mathlib.Data.List.Nodup
import Mathlib.Tactic.Common

/-!
# Sweeping a tree, contents first

The entries of a tree are visited in an order in which nothing comes before what
it contains. An entry that may go is removed, except that one with contents has
to be empty by then. In the end an entry is gone exactly when it and everything
below it may go.
-/

namespace Sweep
variable {E : Type*} [DecidableEq E]

/-- One visit: an entry that may go does, if nothing below it is left. -/
def visit (drops : E → Bool) (below : E → E → Bool) (left : List E) (e : E) : List E :=
  if drops e && left.all (fun x => !below x e) then left.filter (fun x => x ≠ e) else left

/-- What is left of the entries after all visits. -/
def sweep (drops : E → Bool) (below : E → E → Bool) (entries : List E) : List E :=
  entries.foldl (visit drops below) entries

/-- The entry and all that is below it may go. -/
def Gone (drops : E → Bool) (below : E → E → Bool) (entries : List E) (e : E) : Prop :=
  drops e = true ∧ ∀ x ∈ entries, below x e = true → drops x = true

section
variable {drops : E → Bool} {below : E → E → Bool} {entries : List E}

omit [DecidableEq E] in
/-- What is below a removed entry is removed as well. -/
theorem Gone.of_below (htrans : ∀ x y z, below x y = true → below y z = true → below x z = true)
    {x e : E} (he : Gone drops below entries e) (hx : x ∈ entries) (hbelow : below x e = true) :
    Gone drops below entries x :=
  ⟨he.2 x hx hbelow, fun y hy hyx => he.2 y hy (htrans y x e hyx hbelow)⟩

/-- The state of the sweep when a part of the entries has been visited. -/
theorem mem_foldl_visit (htrans : ∀ x y z, below x y = true → below y z = true → below x z = true)
    (hirrefl : ∀ x, below x x = false) (hnodup : entries.Nodup)
    (horder : entries.Pairwise fun a b => below b a = false)
    (visited : List E) (hvisited : visited <+: entries) (x : E) :
    x ∈ visited.foldl (visit drops below) entries ↔
      x ∈ entries ∧ ¬ (x ∈ visited ∧ Gone drops below entries x) := by
  induction visited using List.reverseRecOn generalizing x with
  | nil => simp
  | append_singleton past e ih =>
    obtain ⟨rest, hrest⟩ := hvisited
    have hpast : past <+: entries := ⟨e :: rest, by rw [← hrest]; simp⟩
    have he : e ∈ entries := by
      rw [← hrest]
      simp
    have hfresh : e ∉ past := by
      rw [← hrest, List.append_assoc] at hnodup
      intro hin
      exact (List.disjoint_of_nodup_append hnodup) hin (by simp)
    -- whatever is below the entry has had its visit
    have hdone : ∀ y ∈ entries, below y e = true → y ∈ past := by
      intro y hy hbelow
      rw [← hrest, List.append_assoc, List.pairwise_append] at horder
      rw [← hrest, List.append_assoc, List.mem_append] at hy
      rcases hy with hy | hy
      · exact hy
      rcases List.mem_cons.mp hy with rfl | hy
      · rw [hirrefl] at hbelow
        cases hbelow
      · rw [(List.pairwise_cons.mp horder.2.1).1 y hy] at hbelow
        cases hbelow
    have hvisit : (drops e && (past.foldl (visit drops below) entries).all
        (fun x => !below x e)) = true ↔ Gone drops below entries e := by
      rw [Bool.and_eq_true, List.all_eq_true]
      constructor
      · rintro ⟨hdrop, hempty⟩
        refine ⟨hdrop, fun y hy hbelow => ?_⟩
        by_contra hkeep
        have hleft : y ∈ past.foldl (visit drops below) entries :=
          (ih hpast y).mpr ⟨hy, fun hgone => hkeep hgone.2.1⟩
        have hnot := hempty y hleft
        rw [hbelow] at hnot
        cases hnot
      · intro hgone
        refine ⟨hgone.1, fun y hy => ?_⟩
        have hleft := (ih hpast y).mp hy
        by_contra hbelow
        have hbelow : below y e = true := by simpa using hbelow
        exact hleft.2 ⟨hdone y hleft.1 hbelow, hgone.of_below htrans hleft.1 hbelow⟩
    rw [List.foldl_append, List.foldl_cons, List.foldl_nil, visit]
    by_cases hgone : Gone drops below entries e
    · rw [if_pos (hvisit.mpr hgone), List.mem_filter, ih hpast]
      by_cases hx : x = e
      · subst hx
        simp [hgone]
      · simp [hx]
    · rw [if_neg (fun h => hgone (hvisit.mp h)), ih hpast]
      by_cases hx : x = e
      · subst hx
        simp [hgone]
      · simp [hx]

/-- An entry is left exactly when it, or something below it, has to stay. -/
theorem mem_sweep (htrans : ∀ x y z, below x y = true → below y z = true → below x z = true)
    (hirrefl : ∀ x, below x x = false) (hnodup : entries.Nodup)
    (horder : entries.Pairwise fun a b => below b a = false) (x : E) :
    x ∈ sweep drops below entries ↔ x ∈ entries ∧ ¬ Gone drops below entries x := by
  rw [sweep, mem_foldl_visit htrans hirrefl hnodup horder entries (List.prefix_refl _)]
  constructor
  · rintro ⟨hx, hnot⟩
    exact ⟨hx, fun hgone => hnot ⟨hx, hgone⟩⟩
  · rintro ⟨hx, hnot⟩
    exact ⟨hx, fun h => hnot h.2⟩

end

/-! ## Marks, containers first -/

/-- One visit: an entry that passes is marked, and one that fails takes away the marks above it. -/
def mark (verdict : E → Option Bool) (above : E → E → Bool) (marked : List E) (e : E) : List E :=
  match verdict e with
  | none => marked
  | some true => marked ++ [e]
  | some false => marked.filter fun m => !above m e

omit [DecidableEq E] in
/-- An entry has a mark in the end if it passed and nothing below it failed. -/
theorem mem_foldl_mark {verdict : E → Option Bool} {above : E → E → Bool} (visited : List E)
    (horder : visited.Pairwise fun a b => above b a = false) (m : E) :
    m ∈ visited.foldl (mark verdict above) [] ↔
      m ∈ visited ∧ verdict m = some true ∧
        ∀ e ∈ visited, above m e = true → verdict e ≠ some false := by
  induction visited using List.reverseRecOn with
  | nil => simp
  | append_singleton past e ih =>
    obtain ⟨hpast, -, hlast⟩ := List.pairwise_append.mp horder
    have hbelow : (∀ x ∈ past ++ [e], above m x = true → verdict x ≠ some false) ↔
        (∀ x ∈ past, above m x = true → verdict x ≠ some false) ∧
          (above m e = true → verdict e ≠ some false) := by
      simp only [List.forall_mem_append, List.forall_mem_singleton]
    -- nothing that has had its visit is below the entry
    have hfirst : ∀ x ∈ past, above e x = true → verdict x ≠ some false := by
      intro x hx habove
      rw [hlast x hx e (List.mem_singleton_self e)] at habove
      cases habove
    rw [List.foldl_append, List.foldl_cons, List.foldl_nil, mark, hbelow, List.mem_append,
      List.mem_singleton]
    cases hverdict : verdict e with
    | none =>
      dsimp only
      rw [ih hpast]
      by_cases hm : m = e
      · simp [hm, hverdict]
      · simp [hm]
    | some passed =>
      cases passed with
      | true =>
        dsimp only
        rw [List.mem_append, ih hpast, List.mem_singleton]
        by_cases hm : m = e
        · subst hm
          exact iff_of_true (.inr rfl) ⟨.inr rfl, hverdict, hfirst, by simp⟩
        · simp [hm]
      | false =>
        dsimp only
        rw [List.mem_filter, ih hpast]
        by_cases hm : m = e
        · simp [hm, hverdict]
        · simp [hm, and_assoc]

end Sweep
