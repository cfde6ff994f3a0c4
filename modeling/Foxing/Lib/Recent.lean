import Mathlib.Data.List.DropRight
import Mathlib.Tactic.Common

/-!
# The recent part of a history

A queue that forgets in two ways: what is no longer fresh leaves at the front, and so does what
exceeds its size. If freshness only ever grows along the queue, what is in it is the fresh part of
the end of the history, in whatever order the two happen.
-/
namespace Recent
variable {α : Type*} (p : α → Bool) (size : ℕ)

/-- What counts of a history: the fresh elements among the last ones. -/
def recent (l : List α) : List α := (l.rtake size).filter p

/-- The elements behind a fresh one are fresh. -/
def Upward (l : List α) : Prop := l.Pairwise fun a b => p a = true → p b = true

/-- Elements leave at the front until there is room for one more. -/
def makeRoom : List α → List α
  | [] => []
  | a :: l => if size ≤ (a :: l).length then makeRoom l else a :: l

variable {p size} {l : List α}

theorem makeRoom_eq (l : List α) :
    makeRoom size l = l.drop (l.length + 1 - size) := by
  induction l with
  | nil => simp [makeRoom]
  | cons a l ih =>
    rw [makeRoom]
    split_ifs with hlong
    · have hdrop : (a :: l).length + 1 - size = l.length + 1 - size + 1 := by
        rw [List.length_cons] at hlong ⊢
        omega
      rw [ih, hdrop, List.drop_succ_cons]
    · have hdrop : (a :: l).length + 1 - size = 0 := by omega
      rw [hdrop, List.drop_zero]

theorem Upward.sublist {l' : List α} (h : Upward p l) (hsub : l'.Sublist l) : Upward p l' :=
  List.Pairwise.sublist hsub h

/-- What is dropped from the front is all that is not fresh. -/
theorem dropWhile_eq_filter (h : Upward p l) : l.dropWhile (fun a => !p a) = l.filter p := by
  induction l with
  | nil => rfl
  | cons a l ih =>
    obtain ⟨hall, hrest⟩ := List.pairwise_cons.mp h
    by_cases ha : p a = true
    · have hfresh : l.filter p = l := List.filter_eq_self.mpr fun b hb => hall b hb ha
      simp [ha, hfresh]
    · simp only [Bool.not_eq_true] at ha
      simp [ha, ih hrest]

theorem rtake_eq_drop {n : ℕ} (l : List α) :
    l.rtake n = (l.rtake (n + 1)).drop ((l.rtake (n + 1)).length - n) := by
  simp only [List.rtake, List.length_drop, List.drop_drop]
  congr 1
  omega

/-- An element too many leaves before or after what is not fresh. -/
theorem filter_drop {n : ℕ} (h : Upward p l) (hlength : l.length ≤ n + 1) :
    (l.drop (l.length - n)).filter p = (l.filter p).drop ((l.filter p).length - n) := by
  have hfilter := List.length_filter_le p l
  by_cases hshort : l.length ≤ n
  · rw [Nat.sub_eq_zero_of_le hshort, Nat.sub_eq_zero_of_le (hfilter.trans hshort), List.drop_zero,
      List.drop_zero]
  have hone : l.length - n = 1 := by omega
  cases l with
  | nil => simp at hshort
  | cons a l =>
    obtain ⟨hall, hrest⟩ := List.pairwise_cons.mp h
    rw [hone, List.drop_one, List.tail_cons]
    by_cases ha : p a = true
    · have hfresh : l.filter p = l := List.filter_eq_self.mpr fun b hb => hall b hb ha
      rw [List.filter_cons_of_pos ha, hfresh, hone, List.drop_one, List.tail_cons]
    · rw [List.length_cons] at hlength
      rw [List.filter_cons_of_neg ha, Nat.sub_eq_zero_of_le
        ((List.length_filter_le p l).trans (by omega)), List.drop_zero]

/-- A new element that is fresh takes its place behind what there is room for. -/
theorem recent_concat {a : α} (h : Upward p l) (hsize : 0 < size) (ha : p a = true) :
    recent p size (l ++ [a]) = makeRoom size (recent p size l) ++ [a] := by
  obtain ⟨n, rfl⟩ : ∃ n, size = n + 1 := ⟨size - 1, by omega⟩
  have hup : Upward p (l.rtake (n + 1)) := h.sublist (List.drop_sublist _ _)
  have hlength : (l.rtake (n + 1)).length ≤ n + 1 := by
    rw [List.rtake, List.length_drop]
    omega
  rw [makeRoom_eq, recent, List.rtake_concat_succ, List.filter_append, rtake_eq_drop,
    filter_drop hup hlength, Nat.add_sub_add_right]
  simp [recent, ha]

/-- What is fresh later was fresh before. -/
theorem recent_recent {q : α → Bool} (hq : ∀ a, q a = true → p a = true) (l : List α) :
    (recent p size l).filter q = recent q size l := by
  rw [recent, recent, List.filter_filter]
  refine List.filter_congr fun a _ => ?_
  cases hqa : q a with
  | false => rfl
  | true => rw [hq a hqa, Bool.true_and]

/-! ## The best of a list -/

section Choose
variable {better : α → α → Bool}

/-- The one that was the best, or one that is better. -/
def choose (better : α → α → Bool) (best a : α) : α := if better a best then a else best

theorem choose_cases (best a : α) :
    choose better best a = a ∧ better a best = true ∨
      choose better best a = best ∧ better a best = false := by
  unfold choose
  cases h : better a best with
  | true => exact .inl ⟨rfl, rfl⟩
  | false => exact .inr ⟨rfl, rfl⟩

/-- A search that keeps the better of two ends with an element that none is better than. -/
theorem foldl_choose (hasymm : ∀ a b, better a b = true → better b a = false)
    (htrans : ∀ a b c, better a b = false → better b c = false → better a c = false)
    (s : α) (l : List α) :
    l.foldl (choose better) s ∈ s :: l ∧
      ∀ a ∈ s :: l, better a (l.foldl (choose better) s) = false := by
  have hirrefl : ∀ a, better a a = false := by
    intro a
    by_contra h
    rw [Bool.not_eq_false] at h
    exact Bool.noConfusion (h.symm.trans (hasymm a a h))
  induction l generalizing s with
  | nil =>
    refine ⟨List.mem_singleton_self s, fun a ha => ?_⟩
    rw [List.mem_singleton.mp ha]
    exact hirrefl s
  | cons b l ih =>
    obtain ⟨hmem, hbest⟩ := ih (choose better s b)
    rw [List.foldl_cons]
    have hkept := @choose_cases α better s b
    generalize List.foldl (choose better) (choose better s b) l = r at hmem hbest ⊢
    have hchosen := hbest _ (List.mem_cons_self ..)
    have hsr : better s r = false ∧ better b r = false := by
      rcases hkept with ⟨heq, hbs⟩ | ⟨heq, hbs⟩
      · rw [heq] at hchosen
        exact ⟨htrans s b r (hasymm b s hbs) hchosen, hchosen⟩
      · rw [heq] at hchosen
        exact ⟨hchosen, htrans b s r hbs hchosen⟩
    refine ⟨?_, fun a ha => ?_⟩
    · rcases List.mem_cons.mp hmem with rfl | hmem
      · rcases hkept with ⟨heq, -⟩ | ⟨heq, -⟩ <;> simp [heq]
      · exact List.mem_cons_of_mem _ (List.mem_cons_of_mem _ hmem)
    · rcases List.mem_cons.mp ha with rfl | ha
      · exact hsr.1
      · rcases List.mem_cons.mp ha with rfl | ha
        · exact hsr.2
        · exact hbest a (List.mem_cons_of_mem _ ha)

end Choose

end Recent
