import Mathlib.Data.List.Infix
import Mathlib.Tactic.Common

/-!
# Words and lines of a text

The words of a text are its longest pieces without a blank. Words that are written with blanks
between them are read back, and so are lines that are ended each.
-/
namespace Words
variable {α : Type*} (blank : α → Bool)

def words (s : List α) : List (List α) := (s.splitOnP blank).filter fun w => !w.isEmpty

/-- A word: it is not empty and has no blank in it. -/
def IsWord (w : List α) : Prop := w ≠ [] ∧ ∀ c ∈ w, blank c = false

variable {blank}

theorem words_append {b : α} (hb : blank b = true) (s t : List α) :
    words blank (s ++ b :: t) = words blank s ++ words blank t := by
  rw [words, List.splitOnP_append_cons s t hb, List.filter_append]
  rfl

theorem words_of_isWord {w : List α} (hw : IsWord blank w) : words blank w = [w] := by
  have hne : w.isEmpty = false := List.isEmpty_eq_false_iff.mpr hw.1
  rw [words, List.splitOnP_eq_singleton hw.2, List.filter_singleton, hne]
  rfl

/-- A word and what follows it behind a blank. -/
theorem words_cons {b : α} (hb : blank b = true) {w : List α} (hw : IsWord blank w) (t : List α) :
    words blank (w ++ b :: t) = w :: words blank t := by
  rw [words_append hb, words_of_isWord hw]
  rfl

/-- A text that begins with no blank begins with a word. -/
theorem words_eq_cons {c : α} (hc : blank c = false) (s : List α) :
    ∃ w ws, words blank (c :: s) = w :: ws := by
  rw [words, List.splitOnP_cons_eq_if_modifyHead, if_neg (by simp [hc])]
  obtain ⟨w, ws, hsplit⟩ := List.exists_cons_of_ne_nil (List.splitOnP_ne_nil blank s)
  rw [hsplit]
  exact ⟨c :: w, ws.filter fun w => !w.isEmpty, by simp⟩

/-- Words that are each written behind a blank. -/
theorem words_flatMap {b : α} (hb : blank b = true) {s : List α} {ws : List (List α)}
    (hws : ∀ w ∈ ws, IsWord blank w) :
    words blank (s ++ ws.flatMap fun w => b :: w) = words blank s ++ ws := by
  induction ws generalizing s with
  | nil => rw [List.flatMap_nil, List.append_nil, List.append_nil]
  | cons w ws ih =>
    have hw := words_of_isWord (hws w List.mem_cons_self)
    have hrest := ih (s := s ++ b :: w) fun w hw => hws w (List.mem_cons_of_mem _ hw)
    rw [words_append hb, hw, List.append_assoc, List.append_assoc] at hrest
    rw [List.flatMap_cons]
    exact hrest

/-! ## Lines -/

/-- The lines of a text, of which the last one need not be ended. -/
def lines [DecidableEq α] (nl : α) (s : List α) : List (List α) :=
  if (s.splitOn nl).getLast? = some [] then (s.splitOn nl).dropLast else s.splitOn nl

theorem lines_flatMap [DecidableEq α] {nl : α} {ls : List (List α)} (hls : ∀ l ∈ ls, nl ∉ l) :
    lines nl (ls.flatMap fun l => l ++ [nl]) = ls := by
  have hsplit : (ls.flatMap fun l => l ++ [nl]).splitOn nl = ls ++ [[]] := by
    induction ls with
    | nil => rfl
    | cons l ls ih =>
      have hl : ∀ c ∈ l, (c == nl) = false := by
        intro c hc
        rw [beq_eq_false_iff_ne]
        rintro rfl
        exact hls l List.mem_cons_self hc
      rw [List.flatMap_cons, List.append_assoc, List.splitOn_eq_splitOnP, List.singleton_append,
        List.splitOnP_append_cons_of_forall_mem hl nl (by simp), ← List.splitOn_eq_splitOnP,
        ih fun l hl => hls l (List.mem_cons_of_mem _ hl)]
      rfl
  rw [lines, hsplit, if_pos List.getLast?_concat, List.dropLast_concat]

end Words
