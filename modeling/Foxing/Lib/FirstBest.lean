import Mathlib.Data.List.Induction
import Mathlib.Tactic.Common

/-!
# The first of the best

A search through a list that keeps an element until a better one comes. What it ends with is the
first element with the greatest key among those that count.
-/
namespace FirstBest
variable {α : Type*} (ok : α → Bool) (key : α → ℕ)

/-- An element that counts takes the place of one with a smaller key. -/
def better (best : Option α) (x : α) : Option α :=
  if ok x && best.all fun b => key b < key x then some x else best

def first (l : List α) : Option α := l.foldl (better ok key) none

/-- The element counts, those before it that count have smaller keys and those behind it no
greater ones. -/
structure IsFirst (before : List α) (x : α) (after : List α) : Prop where
  counts : ok x = true
  before : ∀ y ∈ before, ok y = true → key y < key x
  after : ∀ y ∈ after, ok y = true → key y ≤ key x

variable {ok key}

theorem first_concat (l : List α) (x : α) :
    first ok key (l ++ [x]) = better ok key (first ok key l) x := by
  rw [first, List.foldl_append]
  rfl

/-- What the search ends with, and that nothing counts where it ends without an element. -/
theorem first_spec (l : List α) :
    (∀ x, first ok key l = some x →
      ∃ before after, l = before ++ x :: after ∧ IsFirst ok key before x after) ∧
    (first ok key l = none → ∀ y ∈ l, ok y = false) := by
  induction l using List.reverseRecOn with
  | nil =>
    exact ⟨fun _ h => absurd h (Option.some_ne_none _).symm,
      fun _ _ hy => absurd hy List.not_mem_nil⟩
  | append_singleton l y ih =>
    obtain ⟨hsome, hnone⟩ := ih
    rw [first_concat, better]
    cases hok : ok y with
    | false =>
      rw [Bool.false_and, if_neg Bool.false_ne_true]
      refine ⟨fun x hx => ?_, fun h z hz => ?_⟩
      · obtain ⟨before, after, rfl, hfirst⟩ := hsome x hx
        refine ⟨before, after ++ [y], by simp, hfirst.counts, hfirst.before,
          fun z hz hcounts => ?_⟩
        rcases List.mem_append.mp hz with hz | hz
        · exact hfirst.after z hz hcounts
        · rw [List.mem_singleton.mp hz, hok] at hcounts
          cases hcounts
      · rcases List.mem_append.mp hz with hz | hz
        · exact hnone h z hz
        · rw [List.mem_singleton.mp hz, hok]
    | true =>
      rw [Bool.true_and]
      cases hfirst : first ok key l with
      | none =>
        rw [Option.all_none, if_pos rfl]
        refine ⟨fun x hx => ?_, fun h => absurd h (Option.some_ne_none _)⟩
        obtain rfl := Option.some.inj hx
        refine ⟨l, [], rfl, hok, fun z hz hcounts => ?_, fun z hz => absurd hz List.not_mem_nil⟩
        rw [hnone hfirst z hz] at hcounts
        cases hcounts
      | some b =>
        obtain ⟨before, after, rfl, hb⟩ := hsome b hfirst
        rw [Option.all_some]
        by_cases hlt : key b < key y
        · rw [if_pos (decide_eq_true hlt)]
          refine ⟨fun x hx => ?_, fun h => absurd h (Option.some_ne_none _)⟩
          obtain rfl := Option.some.inj hx
          refine ⟨_, [], rfl, hok, fun z hz hcounts => ?_, fun z hz => absurd hz List.not_mem_nil⟩
          rcases List.mem_append.mp hz with hz | hz
          · exact Nat.lt_trans (hb.before z hz hcounts) hlt
          · rcases List.mem_cons.mp hz with rfl | hz
            · exact hlt
            · exact Nat.lt_of_le_of_lt (hb.after z hz hcounts) hlt
        · rw [if_neg fun h => hlt (of_decide_eq_true h)]
          refine ⟨fun x hx => ?_, fun h => absurd h (Option.some_ne_none _)⟩
          obtain rfl := Option.some.inj hx
          refine ⟨before, after ++ [y], by simp, hb.counts, hb.before, fun z hz hcounts => ?_⟩
          rcases List.mem_append.mp hz with hz | hz
          · exact hb.after z hz hcounts
          · rw [List.mem_singleton.mp hz]
            exact Nat.le_of_not_lt hlt

/-- There is one place for the first of the best. -/
theorem IsFirst.eq {before after before' after' : List α} {x y : α}
    (hx : IsFirst ok key before x after) (hy : IsFirst ok key before' y after')
    (h : before ++ x :: after = before' ++ y :: after') : x = y := by
  rcases List.append_eq_append_iff.mp h with ⟨u, rfl, hu⟩ | ⟨u, rfl, hu⟩
  · cases u with
    | nil => exact (List.cons.inj hu).1
    | cons z u =>
      obtain ⟨rfl, rfl⟩ := List.cons.inj hu
      have hlt := hy.before x (List.mem_append_right _ List.mem_cons_self) hx.counts
      have hle := hx.after y (List.mem_append_right _ List.mem_cons_self) hy.counts
      omega
  · cases u with
    | nil => exact (List.cons.inj hu).1.symm
    | cons z u =>
      obtain ⟨rfl, rfl⟩ := List.cons.inj hu
      have hlt := hx.before y (List.mem_append_right _ List.mem_cons_self) hy.counts
      have hle := hy.after x (List.mem_append_right _ List.mem_cons_self) hx.counts
      omega

theorem first_of_isFirst {before after : List α} {x : α} (hx : IsFirst ok key before x after) :
    first ok key (before ++ x :: after) = some x := by
  obtain ⟨hsome, hnone⟩ := @first_spec _ ok key (before ++ x :: after)
  cases hfirst : first ok key (before ++ x :: after) with
  | none =>
    have hcounts := hnone hfirst x (List.mem_append_right _ List.mem_cons_self)
    rw [hx.counts] at hcounts
    cases hcounts
  | some y =>
    obtain ⟨before', after', h, hy⟩ := hsome y hfirst
    rw [hx.eq hy h]

end FirstBest
