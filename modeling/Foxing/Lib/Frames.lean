import Mathlib.Data.List.Basic
import Mathlib.Tactic.Common

/-!
# Frames with a separator

Records of a head of any length and a payload of a fixed one are written one after the
other, with a separator after the head. What is written tells the records, unless a head
goes on with the separator where another one ends.
-/
namespace Foxing.Frames

variable {α β : Type*} (head payload : α → List β) (sep : β)

def frame (a : α) : List β := head a ++ sep :: payload a

def frames (l : List α) : List β := l.flatMap (frame head payload sep)

/-- Where the records first differ, the head of the second one begins with that of the first one
and the separator, and the same follows. -/
def RunsOn (l l' : List α) : Prop :=
  ∃ pre a rest b rest', l = pre ++ a :: rest ∧ l' = pre ++ b :: rest' ∧
    ∃ r, head b = head a ++ sep :: r ∧
      payload a ++ frames head payload sep rest =
        r ++ sep :: (payload b ++ frames head payload sep rest')

variable {head payload sep} {l l' : List α} {w : ℕ}

theorem frames_cons (a : α) (l : List α) :
    frames head payload sep (a :: l) =
      head a ++ sep :: (payload a ++ frames head payload sep l) := by
  rw [frames, List.flatMap_cons, frame, ← frames, List.append_assoc, List.cons_append]

theorem frames_append (l l' : List α) :
    frames head payload sep (l ++ l') = frames head payload sep l ++ frames head payload sep l' :=
  List.flatMap_append

theorem RunsOn.frames_eq (h : RunsOn head payload sep l l') :
    frames head payload sep l = frames head payload sep l' := by
  obtain ⟨pre, a, rest, b, rest', rfl, rfl, r, hhead, hrest⟩ := h
  rw [frames_append, frames_append, frames_cons, frames_cons, hhead, hrest, List.append_assoc,
    List.cons_append]

theorem RunsOn.ne (h : RunsOn head payload sep l l') : l ≠ l' := by
  obtain ⟨pre, a, rest, b, rest', rfl, rfl, r, hhead, -⟩ := h
  intro heq
  obtain ⟨rfl, -⟩ := List.cons.inj (List.append_cancel_left heq)
  have hlen := congrArg List.length hhead
  rw [List.length_append, List.length_cons] at hlen
  omega

theorem RunsOn.cons (h : RunsOn head payload sep l l') (x : α) :
    RunsOn head payload sep (x :: l) (x :: l') := by
  obtain ⟨pre, a, rest, b, rest', rfl, rfl, hrest⟩ := h
  exact ⟨x :: pre, a, rest, b, rest', rfl, rfl, hrest⟩

/-- After two heads comes the separator: they are equal, or one of them runs on. -/
theorem head_cases {x y u v : List β} (h : x ++ sep :: u = y ++ sep :: v) :
    (x = y ∧ u = v) ∨ (∃ r, y = x ++ sep :: r ∧ u = r ++ sep :: v) ∨
      ∃ r, x = y ++ sep :: r ∧ v = r ++ sep :: u := by
  rcases List.append_eq_append_iff.mp h with ⟨z, rfl, hz⟩ | ⟨z, rfl, hz⟩
  · cases z with
    | nil => exact .inl ⟨(List.append_nil x).symm, (List.cons.inj hz).2⟩
    | cons c z =>
      obtain ⟨rfl, rfl⟩ := List.cons.inj hz
      exact .inr (.inl ⟨z, rfl, rfl⟩)
  · cases z with
    | nil => exact .inl ⟨List.append_nil y, (List.cons.inj hz).2.symm⟩
    | cons c z =>
      obtain ⟨rfl, rfl⟩ := List.cons.inj hz
      exact .inr (.inr ⟨z, rfl, rfl⟩)

/-- What is written tells the records, or some record runs on. -/
theorem eq_or_runsOn (hw : ∀ a, (payload a).length = w)
    (hinj : ∀ a b, head a = head b → payload a = payload b → a = b)
    (h : frames head payload sep l = frames head payload sep l') :
    l = l' ∨ RunsOn head payload sep l l' ∨ RunsOn head payload sep l' l := by
  induction l generalizing l' with
  | nil =>
    cases l' with
    | nil => exact .inl rfl
    | cons b l' =>
      rw [frames_cons] at h
      exact absurd h (List.append_ne_nil_of_right_ne_nil _ (List.cons_ne_nil _ _)).symm
  | cons a l ih =>
    cases l' with
    | nil =>
      rw [frames_cons] at h
      exact absurd h (List.append_ne_nil_of_right_ne_nil _ (List.cons_ne_nil _ _))
    | cons b l' =>
      rw [frames_cons, frames_cons] at h
      rcases head_cases h with ⟨hhead, hrest⟩ | ⟨r, hhead, hrest⟩ | ⟨r, hhead, hrest⟩
      · obtain ⟨hpayload, htail⟩ := List.append_inj hrest ((hw a).trans (hw b).symm)
        obtain rfl := hinj a b hhead hpayload
        rcases ih htail with rfl | hruns
        · exact .inl rfl
        · exact .inr (hruns.imp (fun hr => hr.cons a) fun hr => hr.cons a)
      · exact .inr (.inl ⟨[], a, l, b, l', rfl, rfl, r, hhead, hrest⟩)
      · exact .inr (.inr ⟨[], b, l', a, l, rfl, rfl, r, hhead, hrest⟩)

end Foxing.Frames
