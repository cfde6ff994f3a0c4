import Mathlib.Data.List.Basic
import Mathlib.Tactic.Common

/-!
# Reading up to the end

A reader gives the data in as many pieces as it likes, and nothing at the end. A loop that
goes on until nothing comes has the data in the end, whatever the pieces were.
-/
namespace Reads
variable {α ε σ : Type*}

/-- The loop over the calls: what has been read goes into the state. Behind the last call the
data has ended. -/
def run (feed : σ → List α → σ) (s : σ) : List (Except ε (List α)) → Except ε σ
  | [] => .ok s
  | .error e :: _ => .error e
  | .ok [] :: _ => .ok s
  | .ok (a :: piece) :: rest => run feed (feed s (a :: piece)) rest

/-- The pieces in which the data may come. -/
structure Delivers (pieces : List (List α)) (data : List α) : Prop where
  ne_nil : ∀ piece ∈ pieces, piece ≠ []
  flatten : pieces.flatten = data

theorem run_pieces (feed : σ → List α → σ) (s : σ) {pieces : List (List α)}
    (h : ∀ piece ∈ pieces, piece ≠ []) :
    run feed s (pieces.map (Except.ok (ε := ε))) = .ok (pieces.foldl feed s) := by
  induction pieces generalizing s with
  | nil => rfl
  | cons piece pieces ih =>
    obtain ⟨hpiece, hrest⟩ := List.forall_mem_cons.mp h
    cases piece with
    | nil => exact absurd rfl hpiece
    | cons a piece => rw [List.map_cons, run, ih _ hrest, List.foldl_cons]

/-- Collecting the pieces gives the data. -/
theorem run_append {pieces : List (List α)} {data : List α} (h : Delivers pieces data) :
    run (· ++ ·) [] (pieces.map (Except.ok (ε := ε))) = .ok data := by
  rw [run_pieces _ _ h.ne_nil, List.foldl_append_eq_append, List.map_id', List.nil_append,
    h.flatten]

/-! ## Reads of a bounded length -/

/-- How a call goes: it gives at most so many more than one, is interrupted, or fails. -/
inductive Turn where
  | give (k : ℕ)
  | interrupted
  | fail
  deriving DecidableEq, Repr

/-- What is still to be read, and how the next calls go. Behind them a call gives all that it is
asked for. -/
structure Source (α : Type*) where
  data : List α
  turns : List Turn

/-- The loop that fills a buffer: interrupted calls are repeated, and nothing is left to fill at
the end of the data. There is no result if a call fails. -/
def fill (room : ℕ) (data : List α) : List Turn → Option (List α × Source α)
  | [] => some (data.take room, ⟨data.drop room, []⟩)
  | .fail :: turns => if room = 0 then some ([], ⟨data, .fail :: turns⟩) else none
  | .interrupted :: turns =>
    if room = 0 then some ([], ⟨data, .interrupted :: turns⟩) else fill room data turns
  | .give k :: turns =>
    if room = 0 then some ([], ⟨data, .give k :: turns⟩)
    else if data = [] then some ([], ⟨[], turns⟩)
    else
      let n := min (min (k + 1) room) data.length
      (fill (room - n) (data.drop n) turns).map fun r => (data.take n ++ r.1, r.2)

/-- What has been read of the data, and what is left. -/
def Fills (room : ℕ) (data : List α) (r : List α × Source α) : Prop :=
  r.1 = data.take room ∧ r.2.data = data.drop room

theorem Fills.cons {room n : ℕ} {data : List α} {r : List α × Source α} (hn : n ≤ room)
    (h : Fills (room - n) (data.drop n) r) : Fills room data (data.take n ++ r.1, r.2) := by
  constructor
  · show data.take n ++ r.1 = data.take room
    rw [h.1, ← List.take_add, Nat.add_sub_cancel' hn]
  · show r.2.data = data.drop room
    rw [h.2, List.drop_drop, Nat.add_sub_cancel' hn]

/-- However the calls go, the buffer gets the first elements of the data. -/
theorem fills_fill {room : ℕ} {data : List α} {turns : List Turn} {r : List α × Source α}
    (h : fill room data turns = some r) : Fills room data r := by
  induction turns generalizing room data r with
  | nil =>
    cases h
    exact ⟨rfl, rfl⟩
  | cons turn turns ih =>
    by_cases hroom : room = 0
    · subst hroom
      cases turn <;> cases h <;> exact ⟨rfl, rfl⟩
    cases turn with
    | fail =>
      rw [fill, if_neg hroom] at h
      cases h
    | interrupted =>
      rw [fill, if_neg hroom] at h
      exact ih h
    | give k =>
      rw [fill, if_neg hroom] at h
      by_cases hdata : data = []
      · rw [if_pos hdata] at h
        cases h
        exact ⟨by simp [hdata], by simp [hdata]⟩
      · rw [if_neg hdata] at h
        obtain ⟨r', hr', rfl⟩ := Option.map_eq_some_iff.mp h
        exact Fills.cons (by omega) (ih hr')

/-- A buffer that got something has taken it from the data. -/
theorem length_rest_lt {room : ℕ} {data : List α} {turns : List Turn} {filled : List α}
    {rest : Source α} (h : fill room data turns = some (filled, rest)) (hfilled : filled ≠ []) :
    rest.data.length < data.length := by
  obtain ⟨htake, hdrop⟩ := fills_fill h
  dsimp only at htake hdrop
  have hpos : 0 < filled.length := List.length_pos_iff.mpr hfilled
  rw [htake, List.length_take] at hpos
  rw [hdrop, List.length_drop]
  omega

end Reads
