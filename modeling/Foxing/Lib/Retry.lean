import Foxing.Lib.Locality
import Mathlib.Data.List.Perm.Basic

/-!
# Attempts that are repeated later

A task is attempted; an attempt that fails may leave something behind and is
made again later, after other tasks. Where the footprints of the tasks that wait
and of those that overtake them do not meet, and a successful attempt absorbs
what the failed ones before it have left, nothing is lost: carrying out the
waiting tasks leads to the state in which every task has succeeded at once.
-/

/-- Tasks with their successful and their failing attempts. The footprint of a
task may depend on the state, but only on what it reads there. -/
structure Tasks {S K : Type} {V : K → Type} (c : Cells S K V) (T F α : Type) where
  act : T → StateM S α
  fail : T → F → StateM S α
  reads : T → S → Set K
  writes : T → S → Set K
  Retriable : T → S → Prop
  sub : ∀ t s, writes t s ⊆ reads t s
  local_act : ∀ t s, c.LocalAt (reads t s) (writes t s) (act t) s
  local_fail : ∀ t f s, c.LocalAt (reads t s) (writes t s) (fail t f) s
  foot_of_agree : ∀ t s s', c.Agree (reads t s) s s' →
    reads t s' = reads t s ∧ writes t s' = writes t s
  retriable_of_agree : ∀ t s s', c.Agree (reads t s) s s' → Retriable t s → Retriable t s'
  retriable_fail : ∀ t f s, Retriable t s → Retriable t (fail t f s).2
  foot_fail : ∀ t f s, Retriable t s →
    reads t (fail t f s).2 ⊆ reads t s ∧ writes t (fail t f s).2 ⊆ writes t s
  absorb : ∀ t f s, Retriable t s → act t (fail t f s).2 = act t s

namespace Tasks
variable {S K T F α : Type} {V : K → Type} {c : Cells S K V} (P : Tasks c T F α)

/-- Neither task writes what the other one reads. -/
def Independent (s : S) (t u : T) : Prop :=
  Disjoint (P.writes t s) (P.reads u s) ∧ Disjoint (P.writes u s) (P.reads t s)

/-- The tasks carried out in order. -/
def drain (s : S) (ts : List T) : S := ts.foldl (fun s t => (P.act t s).2) s

/-- The waiting tasks do not meet, and may be attempted again. -/
structure Calm (s : S) (ts : List T) : Prop where
  apart : ts.Pairwise (P.Independent s)
  retriable : ∀ t ∈ ts, P.Retriable t s

variable {P} {s s' r : S} {t u : T} {ts us : List T} {m : StateM S α}

theorem Independent.symm (h : P.Independent s t u) : P.Independent s u t := ⟨h.2, h.1⟩

theorem Independent.of_agree (h : P.Independent s t u) (ht : c.Agree (P.reads t s) s s')
    (hu : c.Agree (P.reads u s) s s') : P.Independent s' t u := by
  obtain ⟨hrt, hwt⟩ := P.foot_of_agree t s s' ht
  obtain ⟨hru, hwu⟩ := P.foot_of_agree u s s' hu
  rw [Independent, hrt, hwt, hru, hwu]
  exact h

@[simp] theorem drain_nil (s : S) : P.drain s [] = s := rfl

@[simp] theorem drain_cons (s : S) (t : T) (ts : List T) :
    P.drain s (t :: ts) = P.drain (P.act t s).2 ts := rfl

theorem drain_concat (s : S) (t : T) (ts : List T) :
    P.drain s (ts ++ [t]) = (P.act t (P.drain s ts)).2 := by
  simp [drain]

section Attempt
variable (hm : ∀ s, c.LocalAt (P.reads t s) (P.writes t s) m s)
include hm

/-- An attempt leaves alone what an independent task reads. -/
theorem Independent.agree (h : P.Independent s t u) : c.Agree (P.reads u s) s (m s).2 :=
  (hm s).agree_of_disjoint h.1

/-- Tasks that do not meet the attempted one stay as they are. -/
theorem apart_after (hi : ∀ u ∈ ts, P.Independent s t u)
    (h : ts.Pairwise (P.Independent s)) : ts.Pairwise (P.Independent (m s).2) :=
  h.imp_of_mem fun ha hb hab => hab.of_agree ((hi _ ha).agree hm) ((hi _ hb).agree hm)

theorem Calm.after (h : P.Calm s ts) (hi : ∀ u ∈ ts, P.Independent s t u) :
    P.Calm (m s).2 ts where
  apart := apart_after hm hi h.apart
  retriable u hu := P.retriable_of_agree u s _ ((hi u hu).agree hm) (h.retriable u hu)

/-- An attempt may be made before or after tasks that it does not meet. -/
theorem drain_comm (h : (t :: ts).Pairwise (P.Independent s)) :
    m (P.drain s ts) = ((m s).1, P.drain (m s).2 ts) := by
  induction ts generalizing s with
  | nil => rfl
  | cons u us ih =>
    obtain ⟨htu, hu, hus⟩ : (∀ x ∈ u :: us, P.Independent s t x) ∧
        (∀ x ∈ us, P.Independent s u x) ∧ us.Pairwise (P.Independent s) := by
      simpa using h
    have hind : P.Independent s u t := (htu u (by simp)).symm
    have hnext : (t :: us).Pairwise (P.Independent (P.act u s).2) := by
      refine apart_after (P.local_act u) (fun x hx => ?_) ?_
      · rcases List.mem_cons.mp hx with rfl | hx
        · exact hind
        · exact hu x hx
      · exact List.pairwise_cons.mpr ⟨fun x hx => htu x (by simp [hx]), hus⟩
    obtain ⟨hres, hstate⟩ := Cells.comm_of_disjoint (P.local_act u s) (hm s) (P.sub u s) (P.sub t s)
      hind.1 hind.2
    rw [drain_cons, ih hnext, hres, hstate]
    rfl

end Attempt

/-- The state `r` is what carrying out the waiting tasks leads to. -/
structure Pending (P : Tasks c T F α) (r s : S) (ts : List T) : Prop where
  calm : P.Calm s ts
  drained : r = P.drain s ts

namespace Pending
variable {f : F}

/-- A task that meets none of the waiting ones has the same result as after them. -/
theorem result (h : P.Pending r s ts) (hi : ∀ u ∈ ts, P.Independent s t u) :
    (P.act t r).1 = (P.act t s).1 := by
  rw [h.drained, drain_comm (P.local_act t) (List.pairwise_cons.mpr ⟨hi, h.calm.apart⟩)]

/-- A task succeeds at its first attempt. -/
theorem succeed (h : P.Pending r s ts) (hi : ∀ u ∈ ts, P.Independent s t u) :
    P.Pending (P.act t r).2 (P.act t s).2 ts where
  calm := h.calm.after (P.local_act t) hi
  drained := by
    rw [h.drained, drain_comm (P.local_act t) (List.pairwise_cons.mpr ⟨hi, h.calm.apart⟩)]

/-- A failed attempt leaves the task retriable, and as independent as it was. -/
theorem calm_fail (h : P.Calm s ts) (hi : ∀ u ∈ ts, P.Independent s t u)
    (ht : P.Retriable t s) : P.Calm (P.fail t f s).2 (ts ++ [t]) := by
  have hcalm := h.after (P.local_fail t f) hi
  obtain ⟨hreads, hwrites⟩ := P.foot_fail t f s ht
  refine ⟨List.pairwise_append.mpr ⟨hcalm.apart, List.pairwise_singleton _ _, ?_⟩, ?_⟩
  · intro u hu x hx
    obtain rfl := List.mem_singleton.mp hx
    obtain ⟨hru, hwu⟩ := P.foot_of_agree u s _ ((hi u hu).agree (P.local_fail x f))
    rw [Independent, hru, hwu]
    exact ⟨(hi u hu).2.mono_right hreads, (hi u hu).1.mono_left hwrites⟩
  · intro u hu
    rcases List.mem_append.mp hu with hu | hu
    · exact hcalm.retriable u hu
    · obtain rfl := List.mem_singleton.mp hu
      exact P.retriable_fail u f s ht

/-- Draining after a failed attempt absorbs it. -/
theorem drain_fail (h : P.Calm s ts) (hi : ∀ u ∈ ts, P.Independent s t u)
    (ht : P.Retriable t s) :
    P.drain (P.fail t f s).2 (ts ++ [t]) = (P.act t (P.drain s ts)).2 := by
  have hpair : (t :: ts).Pairwise (P.Independent s) := List.pairwise_cons.mpr ⟨hi, h.apart⟩
  have hcomm := drain_comm (P.local_fail t f) hpair
  have hagree : c.Agree (P.reads t s) s (P.drain s ts) := by
    clear hcomm ht
    induction ts generalizing s with
    | nil => exact .refl _ _
    | cons u us ih =>
      have hut : P.Independent s u t := (hi u (by simp)).symm
      have hstep := hut.agree (P.local_act u)
      have hus : ∀ x ∈ us, P.Independent s u x := (List.pairwise_cons.mp h.apart).1
      have htail : P.Calm s us :=
        ⟨(List.pairwise_cons.mp h.apart).2, fun x hx => h.retriable x (by simp [hx])⟩
      have hnext : ∀ x ∈ us, P.Independent (P.act u s).2 t x := fun x hx =>
        (hi x (by simp [hx])).of_agree hstep ((hus x hx).agree (P.local_act u))
      have hcalm := htail.after (P.local_act u) hus
      have hrest := ih hcalm hnext (List.pairwise_cons.mpr ⟨hnext, hcalm.apart⟩)
      rw [(P.foot_of_agree t s _ hstep).1] at hrest
      exact hstep.trans hrest
  rw [drain_concat]
  calc (P.act t (P.drain (P.fail t f s).2 ts)).2
      = (P.act t (P.fail t f (P.drain s ts)).2).2 := by rw [hcomm]
    _ = (P.act t (P.drain s ts)).2 := by
      rw [P.absorb t f _ (P.retriable_of_agree t s _ hagree ht)]

/-- The first attempt at a task fails, and the task joins the waiting ones. -/
theorem postpone (h : P.Pending r s ts) (hi : ∀ u ∈ ts, P.Independent s t u)
    (ht : P.Retriable t s) : P.Pending (P.act t r).2 (P.fail t f s).2 (ts ++ [t]) where
  calm := calm_fail h.calm hi ht
  drained := by rw [drain_fail h.calm hi ht, ← h.drained]

/-- A waiting task is attempted with success. -/
theorem resume (h : P.Pending r s (t :: ts)) : P.Pending r (P.act t s).2 ts := by
  have hpair := List.pairwise_cons.mp h.calm.apart
  have htail : P.Calm s ts := ⟨hpair.2, fun u hu => h.calm.retriable u (by simp [hu])⟩
  exact ⟨htail.after (P.local_act t) hpair.1, h.drained⟩

/-- A waiting task fails again. -/
theorem refail (h : P.Pending r s (t :: ts)) : P.Pending r (P.fail t f s).2 (ts ++ [t]) := by
  have hpair := List.pairwise_cons.mp h.calm.apart
  have htail : P.Calm s ts := ⟨hpair.2, fun u hu => h.calm.retriable u (by simp [hu])⟩
  have ht : P.Retriable t s := h.calm.retriable t (by simp)
  refine ⟨calm_fail htail hpair.1 ht, ?_⟩
  rw [drain_fail htail hpair.1 ht, h.drained, drain_cons,
    drain_comm (P.local_act t) (List.pairwise_cons.mpr ⟨hpair.1, htail.apart⟩)]

end Pending

end Tasks
