import Mathlib.Data.List.Sort
import Mathlib.Algebra.BigOperators.Group.List.Basic
import Mathlib.Algebra.Order.Group.Nat
import Mathlib.Algebra.GroupWithZero.Nat

/-!
# What comes before

The elements of a list with a smaller key come before an element. In a sorted list
the first `k` elements are those with fewer than `k` before them, and what can be spent
on it is decided in the same way. Two keys with the same numbers before each element
of some kind have the same order between those elements.
-/
namespace Foxing.Ranks

variable {α κ κ' : Type*} [LinearOrder κ] [LinearOrder κ'] {key : α → κ} {key' : α → κ'}
  {l l' : List α} {a b : α}

def before (key : α → κ) (l : List α) (a : α) : List α := l.filter fun b => key b < key a

theorem mem_before : b ∈ before key l a ↔ b ∈ l ∧ key b < key a := by
  rw [before, List.mem_filter, decide_eq_true_eq]

theorem before_perm (h : l.Perm l') (a : α) : (before key l a).Perm (before key l' a) := h.filter _

theorem before_filter (p : α → Bool) (a : α) :
    before key (l.filter p) a = (before key l a).filter p := by
  rw [before, before, List.filter_filter, List.filter_filter]
  exact List.filter_congr fun b _ => Bool.and_comm ..

theorem before_cons_of_lt (h : key b < key a) : before key (b :: l) a = b :: before key l a :=
  List.filter_cons_of_pos (decide_eq_true h)

/-- Nothing comes before the first element of a sorted list. -/
theorem before_head (h : (a :: l).Pairwise fun x y => key x < key y) :
    before key (a :: l) a = [] := by
  refine List.filter_eq_nil_iff.mpr fun b hb => ?_
  rw [decide_eq_true_eq, not_lt]
  rcases List.mem_cons.mp hb with rfl | hb
  · exact le_rfl
  · exact ((List.pairwise_cons.mp h).1 b hb).le

theorem length_before_le (h : key a ≤ key b) :
    (before key l a).length ≤ (before key l b).length := by
  refine (List.monotone_filter_right l fun c hc => ?_).length_le
  exact decide_eq_true ((of_decide_eq_true hc).trans_le h)

theorem length_before_lt (ha : a ∈ l) (h : key a < key b) :
    (before key l a).length < (before key l b).length := by
  refine lt_of_le_of_ne (length_before_le h.le) fun heq => ?_
  have hsub : (before key l a).Sublist (before key l b) :=
    List.monotone_filter_right l fun c hc => decide_eq_true ((of_decide_eq_true hc).trans h)
  have hmem : a ∈ before key l b := mem_before.mpr ⟨ha, h⟩
  rw [← hsub.eq_of_length heq] at hmem
  exact lt_irrefl _ (mem_before.mp hmem).2

theorem length_before_lt_iff (key : α → κ) (ha : a ∈ l) :
    (before key l a).length < (before key l b).length ↔ key a < key b := by
  refine ⟨fun h => ?_, length_before_lt ha⟩
  by_contra hle
  exact absurd (length_before_le (not_lt.mp hle)) (not_le.mpr h)

/-! ## Sorted lists -/

theorem mem_take_iff (h : l.Pairwise fun x y => key x < key y) (ha : a ∈ l) (k : ℕ) :
    a ∈ l.take k ↔ (before key l a).length < k := by
  induction l generalizing k with
  | nil => cases ha
  | cons x l ih =>
    cases k with
    | zero => simp
    | succ k =>
      rw [List.take_succ_cons, List.mem_cons]
      rcases List.mem_cons.mp ha with rfl | htail
      · rw [before_head h]
        simp
      · have hlt := (List.pairwise_cons.mp h).1 a htail
        have hne : a ≠ x := by
          rintro rfl
          exact lt_irrefl _ hlt
        rw [before_cons_of_lt hlt, List.length_cons, Nat.succ_lt_succ_iff,
          ih (List.pairwise_cons.mp h).2 htail]
        simp [hne]

/-- Spends the elements of a list in order, as long as more than the limit is left. -/
def spend (cost : α → ℕ) (limit : ℕ) : List α → ℕ → List α
  | [], _ => []
  | a :: l, left => if left ≤ limit then [] else a :: spend cost limit l (left - cost a)

variable {cost : α → ℕ} {limit : ℕ}

theorem spend_of_le {left : ℕ} (h : left ≤ limit) : spend cost limit l left = [] := by
  cases l with
  | nil => rfl
  | cons a l => rw [spend, if_pos h]

theorem spend_sublist (left : ℕ) : (spend cost limit l left).Sublist l := by
  induction l generalizing left with
  | nil => exact List.Sublist.slnil
  | cons a l ih =>
    rw [spend]
    split_ifs
    · exact List.nil_sublist _
    · exact (ih _).cons_cons a

/-- What is spent is what the elements before it leave more for than the limit. -/
theorem mem_spend_iff (h : l.Pairwise fun x y => key x < key y) (ha : a ∈ l) (left : ℕ) :
    a ∈ spend cost limit l left ↔ limit < left - ((before key l a).map cost).sum := by
  induction l generalizing left with
  | nil => cases ha
  | cons x l ih =>
    obtain ⟨hhead, hpair⟩ := List.pairwise_cons.mp h
    rw [spend]
    rcases List.mem_cons.mp ha with rfl | htail
    · rw [before_head h]
      split_ifs with hleft
      · simp [hleft]
      · simpa using hleft
    · have hlt := hhead a htail
      have hne : a ≠ x := by
        rintro rfl
        exact lt_irrefl _ hlt
      rw [before_cons_of_lt hlt, List.map_cons, List.sum_cons, ← Nat.sub_sub]
      split_ifs with hleft
      · simp only [List.not_mem_nil, false_iff, not_lt]
        omega
      · rw [List.mem_cons, or_iff_right hne, ih hpair htail]

/-! ## Two orders -/

/-- Where an element of a kind has the same number of elements before it in both orders, the same
elements of this kind come before it. -/
theorem filter_before_congr (key : α → κ) (key' : α → κ') {p : α → Bool}
    (h : ∀ a ∈ l, p a = true → (before key l a).length = (before key' l a).length)
    (hb : b ∈ l) (hp : p b = true) :
    (before key l b).filter p = (before key' l b).filter p := by
  rw [before, before, List.filter_filter, List.filter_filter]
  refine List.filter_congr fun a ha => ?_
  cases hpa : p a with
  | false => rfl
  | true =>
    have hiff : key a < key b ↔ key' a < key' b := by
      rw [← length_before_lt_iff key ha, ← length_before_lt_iff key' ha,
        h a ha hpa, h b hb hp]
    simp only [Bool.true_and, hiff]

end Foxing.Ranks
