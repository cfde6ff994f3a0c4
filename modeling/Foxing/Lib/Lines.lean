import Mathlib.Data.List.Basic
import Mathlib.Tactic.Common

/-!
# Lines

A list is split at every separator into the lines that the separators end and the
rest after the last one. What is appended continues the rest.
-/

namespace Lines
variable {α : Type*} [DecidableEq α] (nl : α)

/-- An element in front of what has been split. -/
def push (a : α) : List (List α) × List α → List (List α) × List α
  | (ls, r) =>
    if a = nl then ([] :: ls, r)
    else
      match ls with
      | [] => ([], a :: r)
      | l :: ls => ((a :: l) :: ls, r)

/-- The lines with an end, and the rest. -/
def split : List α → List (List α) × List α
  | [] => ([], [])
  | a :: l => push nl a (split l)

/-- The lines that a separator ends. -/
def ended (l : List α) : List (List α) := (split nl l).1

/-- What stands after the last separator. -/
def rest (l : List α) : List α := (split nl l).2

theorem split_eq (l : List α) : split nl l = (ended nl l, rest nl l) := rfl

@[simp] theorem ended_nil : ended nl ([] : List α) = [] := rfl

@[simp] theorem rest_nil : rest nl ([] : List α) = [] := rfl

variable {nl}

theorem split_of_notMem {l : List α} (h : nl ∉ l) : split nl l = ([], l) := by
  induction l with
  | nil => rfl
  | cons a l ih =>
    rw [List.mem_cons, not_or] at h
    rw [split, ih h.2, push, if_neg (Ne.symm h.1)]

theorem split_line {l : List α} (h : nl ∉ l) (d : List α) :
    split nl (l ++ nl :: d) = (l :: ended nl d, rest nl d) := by
  induction l with
  | nil => exact if_pos rfl
  | cons a l ih =>
    rw [List.mem_cons, not_or] at h
    rw [List.cons_append, split, ih h.2, push, if_neg (Ne.symm h.1)]

theorem ended_of_notMem {l : List α} (h : nl ∉ l) : ended nl l = [] :=
  congrArg Prod.fst (split_of_notMem h)

theorem rest_of_notMem {l : List α} (h : nl ∉ l) : rest nl l = l :=
  congrArg Prod.snd (split_of_notMem h)

theorem ended_line {l : List α} (h : nl ∉ l) : ended nl (l ++ [nl]) = [l] :=
  congrArg Prod.fst (split_line h [])

theorem rest_line {l : List α} (h : nl ∉ l) : rest nl (l ++ [nl]) = [] :=
  congrArg Prod.snd (split_line h [])

/-- What is appended continues the rest. -/
theorem split_append (c d : List α) :
    split nl (c ++ d) = (ended nl c ++ ended nl (rest nl c ++ d), rest nl (rest nl c ++ d)) := by
  induction c with
  | nil => rfl
  | cons a c ih =>
    rw [List.cons_append, split, ih]
    by_cases ha : a = nl
    · simp only [ended, rest, split, push, if_pos ha, List.cons_append]
    · cases hc : ended nl c with
      | nil =>
        have hrest : rest nl (a :: c) = a :: rest nl c := by
          rw [rest, split, split_eq, hc, push, if_neg ha]
        have hended : ended nl (a :: c) = [] := by
          rw [ended, split, split_eq, hc, push, if_neg ha]
        rw [hrest, hended, List.cons_append, List.nil_append, List.nil_append]
        rfl
      | cons l ls =>
        have hrest : rest nl (a :: c) = rest nl c := by
          rw [rest, split, split_eq, hc, push, if_neg ha]
        have hended : ended nl (a :: c) = (a :: l) :: ls := by
          rw [ended, split, split_eq, hc, push, if_neg ha]
        rw [hrest, hended, List.cons_append, List.cons_append, push, if_neg ha]

theorem ended_append (c d : List α) :
    ended nl (c ++ d) = ended nl c ++ ended nl (rest nl c ++ d) :=
  congrArg Prod.fst (split_append c d)

theorem rest_append (c d : List α) : rest nl (c ++ d) = rest nl (rest nl c ++ d) := by
  rw [rest, split_append]

end Lines
