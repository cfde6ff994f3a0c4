import Mathlib.Data.List.Basic
import Mathlib.Algebra.Order.Group.Nat
import Mathlib.Tactic.Common

/-!
# Cutting a list at positions

Positions that go up from the beginning of an interval to its end cut it into
pieces that are not empty. The pieces of a list put together are the list, and
those behind a cut are the pieces of what lies behind it.
-/
namespace Cuts

/-- The positions go up behind `start`, and the last one is `stop`. -/
def Tiles : ℕ → ℕ → List ℕ → Prop
  | start, stop, [] => start = stop
  | start, stop, p :: ps => start < p ∧ Tiles p stop ps

/-- The lengths of the pieces. -/
def gaps : ℕ → List ℕ → List ℕ
  | _, [] => []
  | start, p :: ps => (p - start) :: gaps p ps

/-- The pieces of a list that end at the positions. -/
def pieces {α : Type*} (l : List α) : ℕ → List ℕ → List (List α)
  | _, [] => []
  | start, p :: ps => (l.drop start).take (p - start) :: pieces l p ps

section Positions
variable {start stop : ℕ} {ps : List ℕ}

theorem Tiles.start_le (h : Tiles start stop ps) : start ≤ stop := by
  induction ps generalizing start with
  | nil => exact h.le
  | cons p ps ih => exact h.1.le.trans (ih h.2)

theorem Tiles.bounds (h : Tiles start stop ps) {p : ℕ} (hp : p ∈ ps) : start < p ∧ p ≤ stop := by
  induction ps generalizing start with
  | nil => cases hp
  | cons q ps ih =>
    rcases List.mem_cons.mp hp with rfl | hp
    · exact ⟨h.1, h.2.start_le⟩
    · exact ⟨h.1.trans (ih h.2 hp).1, (ih h.2 hp).2⟩

theorem Tiles.pairwise (h : Tiles start stop ps) : ps.Pairwise (· < ·) := by
  induction ps generalizing start with
  | nil => exact .nil
  | cons p ps ih => exact .cons (fun q hq => (h.2.bounds hq).1) (ih h.2)

theorem Tiles.getLast? (h : Tiles start stop ps) :
    ps.getLast? = if start = stop then none else some stop := by
  induction ps generalizing start with
  | nil =>
    have heq : start = stop := h
    rw [if_pos heq, List.getLast?_nil]
  | cons p ps ih =>
    have hne : start ≠ stop := by
      have := h.2.start_le
      have := h.1
      omega
    rw [List.getLast?_cons, ih h.2, if_neg hne]
    split_ifs with heq
    · rw [Option.getD_none, heq]
    · rw [Option.getD_some]

theorem Tiles.shift (k : ℕ) (h : Tiles start stop ps) :
    Tiles (k + start) (k + stop) (ps.map (k + ·)) := by
  induction ps generalizing start with
  | nil => exact congrArg (k + ·) h
  | cons p ps ih => exact ⟨Nat.add_lt_add_left h.1 k, ih h.2⟩

/-- What goes up to a position and what goes up from it are told apart by it. -/
theorem Tiles.filter_append {mid : ℕ} {qs : List ℕ} (h : Tiles start mid ps)
    (h' : Tiles mid stop qs) : (ps ++ qs).filter (mid < ·) = qs := by
  have hbefore : ps.filter (mid < ·) = [] := by
    rw [List.filter_eq_nil_iff]
    intro p hp
    simpa using (h.bounds hp).2
  have hbehind : qs.filter (mid < ·) = qs := by
    rw [List.filter_eq_self]
    intro p hp
    simpa using (h'.bounds hp).1
  rw [List.filter_append, hbefore, hbehind, List.nil_append]

end Positions

section Pieces
variable {α : Type*} {l : List α} {start stop : ℕ} {ps : List ℕ}

theorem flatten_pieces (h : Tiles start l.length ps) : (pieces l start ps).flatten = l.drop start := by
  induction ps generalizing start with
  | nil =>
    have hend : start = l.length := h
    rw [pieces, List.flatten_nil, hend, List.drop_length]
  | cons p ps ih =>
    have hjoin := List.take_append_drop (p - start) (l.drop start)
    rw [List.drop_drop, Nat.add_sub_cancel' h.1.le] at hjoin
    rw [pieces, List.flatten_cons, ih h.2, hjoin]

theorem length_pieces (hstop : stop ≤ l.length) (h : Tiles start stop ps) :
    (pieces l start ps).map List.length = gaps start ps := by
  induction ps generalizing start with
  | nil => rfl
  | cons p ps ih =>
    have hle := h.2.start_le
    have hlength : ((l.drop start).take (p - start)).length = p - start := by
      rw [List.length_take, List.length_drop]
      omega
    rw [pieces, gaps, List.map_cons, ih h.2, hlength]

theorem pieces_append (h : Tiles start stop ps) (qs : List ℕ) :
    pieces l start (ps ++ qs) = pieces l start ps ++ pieces l stop qs := by
  induction ps generalizing start with
  | nil => rw [show start = stop from h]; rfl
  | cons p ps ih => rw [List.cons_append, pieces, ih h.2, pieces, List.cons_append]

/-- The pieces of the rest of a list. -/
theorem pieces_drop (pre : List α) (start : ℕ) (ps : List ℕ) :
    pieces (pre ++ l) (pre.length + start) (ps.map (pre.length + ·)) = pieces l start ps := by
  induction ps generalizing start with
  | nil => rfl
  | cons p ps ih =>
    rw [List.map_cons, pieces, pieces, ih, Nat.add_sub_add_left, ← List.drop_drop, List.drop_left]

/-- The pieces of the beginning of a list. -/
theorem pieces_take {pre : List α} (h : Tiles start stop ps) (hstop : stop ≤ pre.length) :
    pieces (pre ++ l) start ps = pieces pre start ps := by
  induction ps generalizing start with
  | nil => rfl
  | cons p ps ih =>
    have hle := h.2.start_le
    have hlt := h.1
    rw [pieces, pieces, ih h.2, List.drop_append_of_le_length (by omega),
      List.take_append_of_le_length (by rw [List.length_drop]; omega)]

end Pieces

end Cuts
