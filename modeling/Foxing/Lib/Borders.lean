import Mathlib.Data.List.Infix
import Mathlib.Tactic.Common

/-!
# Parts between separators

Parts that are joined by a separator, where no part contains it. What starts the joined text and
ends at a border is joined from the first parts.
-/
namespace Borders
variable {α : Type*} (sep : α)

/-- The end of the text or a separator follows. -/
def Closes (after : List α) : Prop := after = [] ∨ ∃ rest, after = sep :: rest

variable {sep}

theorem join_append {front rest : List (List α)} (hfront : front ≠ []) (hrest : rest ≠ []) :
    [sep].intercalate (front ++ rest) =
      [sep].intercalate front ++ sep :: [sep].intercalate rest := by
  induction front with
  | nil => exact absurd rfl hfront
  | cons c front ih =>
    cases front with
    | nil =>
      rw [List.singleton_append, List.intercalate_cons_of_ne_nil hrest, List.intercalate_singleton,
        List.append_assoc, List.singleton_append]
    | cons d front =>
      rw [List.cons_append, List.cons_append, List.intercalate_cons_cons, ← List.cons_append,
        ih (List.cons_ne_nil _ _), List.intercalate_cons_cons]
      simp only [List.append_assoc]

theorem mem_join {parts : List (List α)} {x : α} (h : x ∈ [sep].intercalate parts) :
    x = sep ∨ ∃ c ∈ parts, x ∈ c := by
  induction parts with
  | nil => exact absurd h List.not_mem_nil
  | cons c parts ih =>
    cases parts with
    | nil =>
      rw [List.intercalate_singleton] at h
      exact .inr ⟨c, List.mem_cons_self, h⟩
    | cons d parts =>
      rw [List.intercalate_cons_cons, List.append_assoc, List.singleton_append] at h
      rcases List.mem_append.mp h with h | h
      · exact .inr ⟨c, List.mem_cons_self, h⟩
      · rcases List.mem_cons.mp h with h | h
        · exact .inl h
        · refine (ih h).imp id fun hx => ?_
          obtain ⟨e, he, hx⟩ := hx
          exact ⟨e, List.mem_cons_of_mem c he, hx⟩

/-- Parts that are not empty can be read off the joined text. -/
theorem join_inj [DecidableEq α] {parts parts' : List (List α)}
    (hparts : ∀ c ∈ parts, c ≠ [] ∧ sep ∉ c) (hparts' : ∀ c ∈ parts', c ≠ [] ∧ sep ∉ c)
    (h : [sep].intercalate parts = [sep].intercalate parts') : parts = parts' := by
  have hnil : ∀ {parts : List (List α)}, (∀ c ∈ parts, c ≠ [] ∧ sep ∉ c) →
      [sep].intercalate parts = [] → parts = [] := by
    intro parts hparts h
    cases parts with
    | nil => rfl
    | cons c parts =>
      have hc := (hparts c List.mem_cons_self).1
      cases parts with
      | nil => exact absurd (List.intercalate_singleton.symm.trans h) hc
      | cons d parts =>
        rw [List.intercalate_cons_cons, List.append_assoc] at h
        exact absurd (List.append_eq_nil_iff.mp h).1 hc
  by_cases hempty : [sep].intercalate parts = []
  · rw [hnil hparts hempty, hnil hparts' (h ▸ hempty)]
  · have hne : parts ≠ [] := fun hn => hempty (hn ▸ rfl)
    have hne' : parts' ≠ [] := fun hn => hempty (h.trans (hn ▸ rfl))
    have hsplit := congrArg (List.splitOn sep) h
    rwa [List.splitOn_intercalate sep (fun c hc => (hparts c hc).2) hne,
      List.splitOn_intercalate sep (fun c hc => (hparts' c hc).2) hne'] at hsplit

/-- Up to a border the first part ends or goes on behind its separator. -/
theorem first_part {c t occ after : List α} (hc : sep ∉ c) (hafter : Closes sep after)
    (h : c ++ sep :: t = occ ++ after) :
    occ = c ∧ after = sep :: t ∨ ∃ rest, occ = c ++ sep :: rest ∧ t = rest ++ after := by
  rcases List.append_eq_append_iff.mp h with ⟨u, rfl, hu⟩ | ⟨u, rfl, hu⟩
  · cases u with
    | nil => exact .inl ⟨List.append_nil c, hu.symm⟩
    | cons x rest =>
      obtain ⟨rfl, hrest⟩ := List.cons.inj hu
      exact .inr ⟨rest, rfl, hrest⟩
  · cases u with
    | nil => exact .inl ⟨(List.append_nil occ).symm, hu⟩
    | cons x u =>
      -- the part would contain the separator that follows
      rcases hafter with hnil | ⟨rest, hsep⟩
      · rw [hnil] at hu
        cases hu
      · rw [hsep] at hu
        obtain ⟨rfl, -⟩ := List.cons.inj hu
        exact absurd (List.mem_append_right occ List.mem_cons_self) hc

/-- What starts the text and ends at a border is joined from the first parts. -/
theorem leading_iff {parts : List (List α)} (hparts : ∀ c ∈ parts, sep ∉ c) {occ : List α} :
    (∃ after, [sep].intercalate parts = occ ++ after ∧ Closes sep after) ↔
      ∃ front, front <+: parts ∧ (front = [] → parts = []) ∧ [sep].intercalate front = occ := by
  constructor
  · rintro ⟨after, h, hafter⟩
    induction parts generalizing occ with
    | nil =>
      obtain ⟨rfl, -⟩ := List.append_eq_nil_iff.mp h.symm
      exact ⟨[], List.nil_prefix, id, rfl⟩
    | cons c parts ih =>
      have hc : sep ∉ c := hparts c List.mem_cons_self
      cases parts with
      | nil =>
        rw [List.intercalate_singleton] at h
        rcases hafter with rfl | ⟨rest, rfl⟩
        · rw [List.append_nil] at h
          exact ⟨[c], List.prefix_rfl, fun hnil => absurd hnil (List.cons_ne_nil _ _),
            h ▸ List.intercalate_singleton⟩
        · exact absurd (h ▸ List.mem_append_right occ List.mem_cons_self) hc
      | cons d parts =>
        rw [List.intercalate_cons_cons, List.append_assoc, List.singleton_append] at h
        rcases first_part hc hafter h with ⟨rfl, -⟩ | ⟨rest, rfl, hrest⟩
        · exact ⟨[occ], List.prefix_append [occ] _, fun hnil => absurd hnil (List.cons_ne_nil _ _),
            List.intercalate_singleton⟩
        · obtain ⟨front, hfront, hne, rfl⟩ :=
            ih (fun x hx => hparts x (List.mem_cons_of_mem _ hx)) hrest
          have hfront' : front ≠ [] := fun hnil => absurd (hne hnil) (List.cons_ne_nil _ _)
          refine ⟨c :: front, List.prefix_cons_inj c |>.mpr hfront,
            fun hnil => absurd hnil (List.cons_ne_nil _ _), ?_⟩
          rw [List.intercalate_cons_of_ne_nil hfront', List.append_assoc, List.singleton_append]
  · rintro ⟨front, ⟨rest, rfl⟩, hne, rfl⟩
    by_cases hrest : rest = []
    · exact ⟨[], by rw [hrest, List.append_nil, List.append_nil], .inl rfl⟩
    · have hfront : front ≠ [] := by
        intro hnil
        exact hrest (List.append_eq_nil_iff.mp (hne hnil)).2
      exact ⟨_, join_append hfront hrest, .inr ⟨_, rfl⟩⟩

end Borders
