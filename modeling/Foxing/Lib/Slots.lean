import Mathlib.Data.Option.Basic
import Mathlib.Tactic.Common

/-!
# Places that hold something or nothing

What is at a place is replaced, moved to another one, or swapped with what is there. All of it
leaves every other place as it was, so that two ways to get somewhere are compared at the places
that they name.
-/
namespace Slots
variable {κ α : Type} [DecidableEq κ]

def put (m : κ → Option α) (a : κ) (v : Option α) : κ → Option α :=
  fun x => if x = a then v else m x

/-- What is at `a` is put at `b`, and `a` is empty. -/
def move (m : κ → Option α) (a b : κ) : κ → Option α :=
  fun x => if x = b then m a else if x = a then none else m x

def swap (m : κ → Option α) (a b : κ) : κ → Option α :=
  fun x => if x = a then m b else if x = b then m a else m x

variable {m m' : κ → Option α} {a b c : κ} {v w : Option α}

theorem put_apply (x : κ) : put m a v x = if x = a then v else m x := rfl

theorem move_apply (x : κ) :
    move m a b x = if x = b then m a else if x = a then none else m x := rfl

theorem swap_apply (x : κ) :
    swap m a b x = if x = a then m b else if x = b then m a else m x := rfl

theorem swap_left : swap m a b a = m b := if_pos rfl

theorem swap_right (hab : a ≠ b) : swap m a b b = m a := by
  rw [swap_apply, if_neg hab.symm, if_pos rfl]

@[simp] theorem put_put : put (put m a v) a w = put m a w := by
  funext x
  simp only [put_apply]
  split_ifs <;> rfl

/-- What is moved to a place replaces what is there. -/
theorem move_put (hbc : b ≠ c) : move (put m c v) b c = move m b c := by
  funext x
  simp only [move_apply, put_apply, if_neg hbc]
  split_ifs <;> rfl

@[simp] theorem move_self : move m a a = m := by
  funext x
  simp only [move_apply]
  split_ifs with h
  · rw [h]
  · rfl

@[simp] theorem swap_self : swap m a a = m := by
  funext x
  simp only [swap_apply]
  split_ifs with h
  · rw [h]
  · rfl

theorem put_eq_self : put m a v = m ↔ m a = v := by
  constructor
  · intro h
    have ha := congrFun h a
    rw [put_apply, if_pos rfl] at ha
    exact ha.symm
  · rintro rfl
    funext x
    rw [put_apply]
    split_ifs with h
    · rw [h]
    · rfl

/-- Two ways that leave all but three places alone are the same if they are so there. -/
theorem eq_iff_at (h : ∀ x, x ≠ a → x ≠ b → x ≠ c → m x = m' x) :
    m = m' ↔ m a = m' a ∧ m b = m' b ∧ m c = m' c := by
  refine ⟨fun heq => by simp only [heq, and_self], ?_⟩
  rintro ⟨ha, hb, hc⟩
  funext x
  by_cases hxa : x = a
  · rw [hxa, ha]
  · by_cases hxb : x = b
    · rw [hxb, hb]
    · by_cases hxc : x = c
      · rw [hxc, hc]
      · exact h x hxa hxb hxc

/-- Swapping by way of a third place, from where a copy or the thing itself is taken back, leaves
that place empty. -/
theorem move_move_put_eq_swap (hab : a ≠ b) (hac : a ≠ c) (hbc : b ≠ c) :
    move (move (put m c (m b)) a b) c a = swap m a b ↔ m c = none := by
  rw [eq_iff_at (a := a) (b := b) (c := c)]
  · simp only [put_apply, move_apply, swap_apply, if_true, if_neg hab, if_neg hab.symm, if_neg hac,
      if_neg hac.symm, if_neg hbc, if_neg hbc.symm, true_and]
    exact eq_comm
  · intro x ha hb hc
    simp only [put_apply, move_apply, swap_apply, if_neg ha, if_neg hb, if_neg hc]

theorem move_move_move_eq_swap (hab : a ≠ b) (hac : a ≠ c) (hbc : b ≠ c) :
    move (move (move m b c) a b) c a = swap m a b ↔ m c = none := by
  rw [eq_iff_at (a := a) (b := b) (c := c)]
  · simp only [move_apply, swap_apply, if_true, if_neg hab, if_neg hab.symm, if_neg hac,
      if_neg hac.symm, if_neg hbc, if_neg hbc.symm, true_and]
    exact eq_comm
  · intro x ha hb hc
    simp only [move_apply, swap_apply, if_neg ha, if_neg hb, if_neg hc]

/-- Moving there and back again empties the place in between. -/
theorem move_move_eq_self (hbc : b ≠ c) : move (move m b c) c b = m ↔ m c = none := by
  rw [eq_iff_at (a := b) (b := b) (c := c)]
  · simp only [move_apply, if_true, if_neg hbc.symm, true_and]
    exact eq_comm
  · intro x hb _ hc
    simp only [move_apply, if_neg hb, if_neg hc]

theorem move_put_eq_self (hac : a ≠ c) : move (put m c (m a)) c a = m ↔ m c = none := by
  rw [eq_iff_at (a := a) (b := a) (c := c)]
  · simp only [put_apply, move_apply, if_true, if_neg hac.symm, true_and]
    exact eq_comm
  · intro x ha _ hc
    simp only [put_apply, move_apply, if_neg ha, if_neg hc]

/-- A copy that is taken back empties the place where it was. -/
theorem move_copy_eq_self (hab : a ≠ b) : move (put m a (m b)) a b = m ↔ m a = none := by
  rw [eq_iff_at (a := a) (b := b) (c := b)]
  · simp only [put_apply, move_apply, if_true, if_neg hab, and_true]
    exact eq_comm
  · intro x ha hb _
    simp only [put_apply, move_apply, if_neg ha, if_neg hb]

/-- What has been moved to another place is not where it was. -/
theorem move_ne_of_ne (hab : a ≠ b) (ha : m' a ≠ none) : move m a b ≠ m' := by
  intro h
  have h' := congrFun h a
  rw [move_apply, if_neg hab, if_pos rfl] at h'
  exact ha h'.symm

/-- A move is a swap if the other place is empty. -/
theorem move_eq_swap (hab : a ≠ b) : move m a b = swap m a b ↔ m b = none := by
  rw [eq_iff_at (a := a) (b := b) (c := b)]
  · simp only [move_apply, swap_apply, if_true, if_neg hab, if_neg hab.symm, and_true]
    exact eq_comm
  · intro x ha hb _
    simp only [move_apply, swap_apply, if_neg ha, if_neg hb]

end Slots
