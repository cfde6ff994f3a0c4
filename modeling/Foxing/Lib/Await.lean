import Mathlib.Algebra.Order.Group.Nat
import Mathlib.Data.List.Basic
import Mathlib.Logic.Function.Basic
import Mathlib.Tactic.Common

/-!
# Waiting for a count

A producer counts up to a total. Workers take tasks in any order, and each task waits, by looking
at the count again and again, until it has come to the number that the task needs. What a task
does then may put an end to others that have not been taken. Where every turn comes again and
again, every wait is over at some time exactly if no task needs more than the total.
-/
namespace Await
variable {ι : Type} {w : ℕ}

structure State (ι : Type) (w : ℕ) where
  published : ℕ
  queue : List ι
  task : Fin w → Option ι

/-- Whose turn it is. A worker without a task takes the one with this number, and one that has
ended its wait takes some tasks with it. -/
inductive Turn (ι : Type) (w : ℕ) where
  | producer
  | worker (j : Fin w) (pick : ℕ) (lost : ι → Bool)

def step (need : ι → ℕ) (total : ℕ) (s : State ι w) : Turn ι w → State ι w
  | .producer => if s.published < total then { s with published := s.published + 1 } else s
  | .worker j pick lost =>
    match s.task j with
    | none =>
      match s.queue[pick]? with
      | none => s
      | some i =>
        { s with queue := s.queue.eraseIdx pick, task := Function.update s.task j (some i) }
    | some i =>
      if s.published < need i then s
      else
        { s with
          queue := s.queue.filter fun i => !lost i
          task := Function.update s.task j none }

def run (need : ι → ℕ) (total : ℕ) (s : State ι w) (σ : ℕ → Turn ι w) : ℕ → State ι w
  | 0 => s
  | n + 1 => step need total (run need total s σ n) (σ n)

def start (tasks : List ι) : State ι w := ⟨0, tasks, fun _ => none⟩

/-- Every turn comes again and again. -/
structure Fair (σ : ℕ → Turn ι w) : Prop where
  producer : ∀ n, ∃ m ≥ n, σ m = .producer
  worker : ∀ j n, ∃ m ≥ n, ∃ pick lost, σ m = .worker j pick lost

/-- No task that has been taken needs more than will be published, and every wait is over at
some time. -/
structure Served (need : ι → ℕ) (total : ℕ) (s : State ι w) (σ : ℕ → Turn ι w) : Prop where
  enough : ∀ n j i, (run need total s σ n).task j = some i → need i ≤ total
  ends : ∀ n j, ∃ m ≥ n, (run need total s σ m).task j = none

variable {need : ι → ℕ} {total : ℕ} {s : State ι w} {σ : ℕ → Turn ι w}

/-! ## The count -/

theorem published_step (turn : Turn ι w) : s.published ≤ (step need total s turn).published := by
  cases turn with
  | producer =>
    simp only [step]
    split_ifs
    · exact Nat.le_succ _
    · exact le_refl _
  | worker j pick lost =>
    simp only [step]
    split
    · split <;> exact le_refl _
    · split_ifs <;> exact le_refl _

theorem published_mono {n m : ℕ} (h : n ≤ m) :
    (run need total s σ n).published ≤ (run need total s σ m).published := by
  induction m, h using Nat.le_induction with
  | base => exact le_refl _
  | succ m _ ih => exact ih.trans (published_step _)

theorem published_le_step (turn : Turn ι w) (h : s.published ≤ total) :
    (step need total s turn).published ≤ total := by
  cases turn with
  | producer =>
    simp only [step]
    split_ifs with hlt
    · exact hlt
    · exact h
  | worker j pick lost =>
    simp only [step]
    split
    · split <;> exact h
    · split_ifs <;> exact h

theorem published_le (h : s.published ≤ total) (n : ℕ) :
    (run need total s σ n).published ≤ total := by
  induction n with
  | zero => exact h
  | succ n ih => exact published_le_step _ ih

/-- The count comes to every number up to the total. -/
theorem eventually_published (hfair : Fair σ) {k : ℕ} (hk : k ≤ total) :
    ∃ n, k ≤ (run need total s σ n).published := by
  induction k with
  | zero => exact ⟨0, Nat.zero_le _⟩
  | succ k ih =>
    obtain ⟨n, hn⟩ := ih (by omega)
    obtain ⟨m, hm, hturn⟩ := hfair.producer n
    have hbefore : k ≤ (run need total s σ m).published := hn.trans (published_mono hm)
    refine ⟨m + 1, ?_⟩
    rw [run, hturn, step]
    split_ifs with hlt
    · exact Nat.succ_le_succ hbefore
    · omega

/-! ## The tasks -/

/-- What is waiting or can be taken is one of the tasks. -/
def Within (tasks : List ι) (s : State ι w) : Prop :=
  (∀ i ∈ s.queue, i ∈ tasks) ∧ ∀ j i, s.task j = some i → i ∈ tasks

theorem Within.step {tasks : List ι} (h : Within tasks s) (turn : Turn ι w) :
    Within tasks (step need total s turn) := by
  obtain ⟨hqueue, htask⟩ := h
  cases turn with
  | producer =>
    simp only [Await.step]
    split_ifs <;> exact ⟨hqueue, htask⟩
  | worker j pick lost =>
    simp only [Await.step]
    split
    · split
      · exact ⟨hqueue, htask⟩
      · rename_i i hi
        refine ⟨fun i hmem => hqueue i (List.mem_of_mem_eraseIdx hmem), fun k i' hk => ?_⟩
        dsimp only at hk
        by_cases hkj : k = j
        · subst hkj
          rw [Function.update_self] at hk
          cases hk
          exact hqueue _ (List.mem_of_getElem? hi)
        · rw [Function.update_of_ne hkj] at hk
          exact htask k i' hk
    · split_ifs
      · exact ⟨hqueue, htask⟩
      · refine ⟨fun i hmem => hqueue i (List.mem_filter.mp hmem).1, fun k i' hk => ?_⟩
        dsimp only at hk
        by_cases hkj : k = j
        · subst hkj
          rw [Function.update_self] at hk
          cases hk
        · rw [Function.update_of_ne hkj] at hk
          exact htask k i' hk

theorem within_run (tasks : List ι) (n : ℕ) :
    Within tasks (run need total (start tasks) σ n) := by
  induction n with
  | zero => exact ⟨fun _ h => h, fun _ _ h => by cases h⟩
  | succ n ih => exact ih.step _

/-- A task that needs no more than has been published is over at the next turn of its worker. -/
theorem task_after_turn {j : Fin w} {pick : ℕ} {lost : ι → Bool} {i : ι}
    (htask : s.task j = some i) (hneed : need i ≤ s.published) :
    (step need total s (.worker j pick lost)).task j = none := by
  simp only [step, htask]
  rw [if_neg (Nat.not_lt.mpr hneed)]
  exact Function.update_self ..

/-- A task that needs more than the total waits forever. -/
theorem task_kept_step {j : Fin w} {i : ι} (htask : s.task j = some i)
    (hneed : s.published < need i) (turn : Turn ι w) :
    (step need total s turn).task j = some i := by
  cases turn with
  | producer =>
    simp only [step]
    split_ifs <;> exact htask
  | worker k pick lost =>
    by_cases hkj : j = k
    · subst hkj
      simp only [step, htask]
      rw [if_pos hneed]
      exact htask
    · simp only [step]
      split
      · split
        · exact htask
        · exact (Function.update_of_ne hkj ..).trans htask
      · split_ifs
        · exact htask
        · exact (Function.update_of_ne hkj ..).trans htask

theorem task_kept {n m : ℕ} {j : Fin w} {i : ι} (hpublished : s.published ≤ total)
    (hneed : total < need i) (hnm : n ≤ m) (htask : (run need total s σ n).task j = some i) :
    (run need total s σ m).task j = some i := by
  induction m, hnm using Nat.le_induction with
  | base => exact htask
  | succ m _ ih =>
    have hle : (run need total s σ m).published ≤ total := published_le hpublished m
    exact task_kept_step ih (by omega) _

/-! ## Every wait is over -/

theorem served_of_le {tasks : List ι} (h : ∀ i ∈ tasks, need i ≤ total) (hfair : Fair σ) :
    Served need total (start tasks) σ := by
  refine ⟨fun n j i htask => h i ((within_run tasks n).2 j i htask), fun n j => ?_⟩
  have hcount : ∃ n, total ≤ (run need total (start tasks) σ n).published :=
    eventually_published hfair (le_refl total)
  obtain ⟨N, hN⟩ := hcount
  obtain ⟨m, hm, pick, lost, hturn⟩ := hfair.worker j (max n N)
  cases htask : (run need total (start tasks) σ m).task j with
  | none => exact ⟨m, (le_max_left n N).trans hm, htask⟩
  | some i =>
    refine ⟨m + 1, ((le_max_left n N).trans hm).trans (Nat.le_succ m), ?_⟩
    have hneed := h i ((within_run tasks m).2 j i htask)
    have hcount : total ≤ (run need total (start tasks) σ m).published :=
      hN.trans (published_mono ((le_max_right n N).trans hm))
    rw [run, hturn]
    exact task_after_turn htask (hneed.trans hcount)

/-- The first worker takes a task, and then all have their turns one after the other. -/
def taking (hw : 0 < w) (k : ℕ) : ℕ → Turn ι w
  | 0 => .worker ⟨0, hw⟩ k fun _ => false
  | n + 1 =>
    if h : n % (w + 1) < w then .worker ⟨n % (w + 1), h⟩ 0 fun _ => false else .producer

theorem fair_taking (hw : 0 < w) (k : ℕ) : Fair (taking (ι := ι) hw k) where
  producer n := by
    have hle : n ≤ (w + 1) * n := Nat.le_mul_of_pos_left n (Nat.succ_pos w)
    refine ⟨(w + 1) * n + w + 1, by omega, ?_⟩
    have hmod : ((w + 1) * n + w) % (w + 1) = w := by
      rw [Nat.mul_add_mod]
      exact Nat.mod_eq_of_lt (Nat.lt_succ_self w)
    rw [taking, dif_neg (by omega)]
  worker j n := by
    have hle : n ≤ (w + 1) * n := Nat.le_mul_of_pos_left n (Nat.succ_pos w)
    refine ⟨(w + 1) * n + j + 1, by omega, 0, fun _ => false, ?_⟩
    have hmod : ((w + 1) * n + j) % (w + 1) = j := by
      rw [Nat.mul_add_mod]
      exact Nat.mod_eq_of_lt (by omega)
    rw [taking, dif_pos (by omega)]
    congr 1
    exact Fin.ext hmod

/-- Every wait is over, whoever has his turn when, exactly if no task needs more than the
total. -/
theorem served_iff (hw : 0 < w) (tasks : List ι) :
    (∀ σ : ℕ → Turn ι w, Fair σ → Served need total (start tasks) σ) ↔
      ∀ i ∈ tasks, need i ≤ total := by
  refine ⟨fun h i hi => ?_, fun h σ hfair => served_of_le h hfair⟩
  by_contra hneed
  obtain ⟨k, hk⟩ := List.mem_iff_getElem?.mp hi
  have htaken : (run need total (start tasks) (taking hw k) 1).task ⟨0, hw⟩ = some i := by
    simp only [run, taking, step, start, hk]
    exact Function.update_self ..
  obtain ⟨m, hm, hover⟩ := (h _ (fair_taking hw k)).ends 1 ⟨0, hw⟩
  have hkept := task_kept (Nat.zero_le total) (Nat.lt_of_not_le hneed) hm htaken
  rw [hover] at hkept
  cases hkept

end Await
