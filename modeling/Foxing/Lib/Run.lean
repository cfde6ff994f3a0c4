import Mathlib.Data.List.Basic
import Mathlib.Tactic.Common

/-!
# Runs of a deterministic machine

A machine is a step function; a run feeds it a list of actions. `Along` says
that every step of a run meets a condition in the state it is taken from. The
rules below turn facts about one step into facts about every state of a run.
-/

namespace Run
variable {σ α : Type*} (step : σ → α → σ)

/-- The state after a list of actions. -/
def exec (s : σ) (as : List α) : σ := as.foldl step s

/-- Every action of the run is taken from a state that allows it. -/
def Along (ok : σ → α → Prop) : σ → List α → Prop
  | _, [] => True
  | s, a :: as => ok s a ∧ Along ok (step s a) as

instance decidableAlong (ok : σ → α → Prop) [∀ s a, Decidable (ok s a)] :
    ∀ s as, Decidable (Along step ok s as)
  | _, [] => inferInstanceAs (Decidable True)
  | s, a :: as => @instDecidableAnd _ _ inferInstance (decidableAlong ok (step s a) as)

/-- What a run puts out, where `out` is the output of a single step. -/
def outputs {β : Type*} (out : σ → α → List β) : σ → List α → List β
  | _, [] => []
  | s, a :: as => out s a ++ outputs out (step s a) as

@[simp] theorem exec_nil (s : σ) : exec step s [] = s := rfl

@[simp] theorem exec_cons (s : σ) (a : α) (as : List α) :
    exec step s (a :: as) = exec step (step s a) as := rfl

theorem exec_append (s : σ) (as bs : List α) :
    exec step s (as ++ bs) = exec step (exec step s as) bs := by
  simp [exec]

theorem exec_concat (s : σ) (as : List α) (a : α) :
    exec step s (as ++ [a]) = step (exec step s as) a := by
  simp [exec]

theorem along_append (ok : σ → α → Prop) (s : σ) (as bs : List α) :
    Along step ok s (as ++ bs) ↔ Along step ok s as ∧ Along step ok (exec step s as) bs := by
  induction as generalizing s with
  | nil => simp [Along]
  | cons a as ih => simp [Along, ih, and_assoc]

theorem along_concat (ok : σ → α → Prop) (s : σ) (as : List α) (a : α) :
    Along step ok s (as ++ [a]) ↔ Along step ok s as ∧ ok (exec step s as) a := by
  simp [along_append, Along]

theorem outputs_append {β : Type*} (out : σ → α → List β) (s : σ) (as bs : List α) :
    outputs step out s (as ++ bs) =
      outputs step out s as ++ outputs step out (exec step s as) bs := by
  induction as generalizing s with
  | nil => rfl
  | cons a as ih => simp [outputs, ih]

theorem along_of_forall {ok : σ → α → Prop} (h : ∀ s a, ok s a) (s : σ) (as : List α) :
    Along step ok s as := by
  induction as generalizing s with
  | nil => trivial
  | cons a as ih => exact ⟨h s a, ih _⟩

theorem along_mono {ok ok' : σ → α → Prop} (h : ∀ s a, ok s a → ok' s a) {s : σ} {as : List α}
    (has : Along step ok s as) : Along step ok' s as := by
  induction as generalizing s with
  | nil => trivial
  | cons a as ih => exact ⟨h s a has.1, ih has.2⟩

theorem along_and {ok ok' : σ → α → Prop} {s : σ} {as : List α} (has : Along step ok s as)
    (has' : Along step ok' s as) : Along step (fun s a => ok s a ∧ ok' s a) s as := by
  induction as generalizing s with
  | nil => trivial
  | cons a as ih => exact ⟨⟨has.1, has'.1⟩, ih has.2 has'.2⟩

/-- What every allowed step preserves holds at the end of every allowed run. -/
theorem invariant {ok : σ → α → Prop} {I : σ → Prop}
    (hstep : ∀ s a, ok s a → I s → I (step s a)) {s : σ} {as : List α}
    (has : Along step ok s as) (hs : I s) : I (exec step s as) := by
  induction as generalizing s with
  | nil => exact hs
  | cons a as ih => exact ih has.2 (hstep s a has.1 hs)

/-- It holds in every state on the way, too. -/
theorem invariant_prefix {ok : σ → α → Prop} {I : σ → Prop}
    (hstep : ∀ s a, ok s a → I s → I (step s a)) {s : σ} {as : List α}
    (has : Along step ok s as) (hs : I s) : ∀ p, p <+: as → I (exec step s p) := by
  rintro p ⟨rest, rfl⟩
  exact invariant step hstep ((along_append step ok s p rest).mp has).1 hs

/-- Where every allowed step preserves `I`, what an allowed step does from a state with
`I` holds of every step of an allowed run. -/
theorem along_of_invariant {ok ok' : σ → α → Prop} {I : σ → Prop}
    (hstep : ∀ s a, ok s a → I s → I (step s a)) (h : ∀ s a, ok s a → I s → ok' s a)
    {s : σ} {as : List α} (has : Along step ok s as) (hs : I s) : Along step ok' s as := by
  induction as generalizing s with
  | nil => trivial
  | cons a as ih => exact ⟨h s a has.1 hs, ih has.2 (hstep s a has.1 hs)⟩

/-- Conditions that agree wherever an invariant holds agree along every run. -/
theorem along_congr {ok ok' : σ → α → Prop} {I : σ → Prop} (hstep : ∀ s a, I s → I (step s a))
    (h : ∀ s a, I s → (ok s a ↔ ok' s a)) {s : σ} (as : List α) (hs : I s) :
    Along step ok s as ↔ Along step ok' s as := by
  induction as generalizing s with
  | nil => exact Iff.rfl
  | cons a as ih => exact and_congr (h s a hs) (ih (hstep s a hs))

/-- The same rule when no step is excluded. -/
theorem invariant_all {I : σ → Prop} (hstep : ∀ s a, I s → I (step s a)) {s : σ}
    (as : List α) (hs : I s) : I (exec step s as) :=
  invariant step (fun s a _ => hstep s a)
    (along_of_forall step (fun _ _ => trivial) s as : Along step (fun _ _ => True) s as) hs

/-- Suppose that, wherever `I` and the auxiliary `A` hold, a step keeps `A`, and
keeps `I` exactly when it is allowed. Then `I` holds in every state of a run
exactly when every step of the run is allowed. -/
theorem forall_prefix_iff_along {ok : σ → α → Prop} {I A : σ → Prop} {P : α → Prop}
    (haux : ∀ s a, P a → A s → I s → A (step s a))
    (hstep : ∀ s a, P a → A s → I s → (I (step s a) ↔ ok s a))
    {s : σ} (as : List α) (has : ∀ a ∈ as, P a) (hA : A s) (hI : I s) :
    (∀ p, p <+: as → I (exec step s p)) ↔ Along step ok s as := by
  induction as generalizing s with
  | nil =>
    refine ⟨fun _ => trivial, fun _ p hp => ?_⟩
    rw [List.prefix_nil.mp hp]
    exact hI
  | cons a as ih =>
    have hPa := has a (List.mem_cons_self ..)
    have hPas : ∀ b ∈ as, P b := fun b hb => has b (List.mem_cons_of_mem _ hb)
    constructor
    · intro h
      have ha : I (step s a) := by simpa using h [a] ⟨as, rfl⟩
      refine ⟨(hstep s a hPa hA hI).mp ha,
        (ih hPas (haux s a hPa hA hI) ha).mp (fun p hp => ?_)⟩
      simpa using h (a :: p) (List.cons_prefix_cons.mpr ⟨rfl, hp⟩)
    · rintro ⟨hok, hal⟩ p hp
      cases p with
      | nil => exact hI
      | cons b p =>
        obtain ⟨rfl, hrest⟩ := List.cons_prefix_cons.mp hp
        exact (ih hPas (haux s b hPa hA hI) ((hstep s b hPa hA hI).mpr hok)).mpr hal p hrest

/-- Suppose that an allowed step keeps `G`, which implies `I`; that a free step is always
allowed; and that after a step that is not allowed free steps can lead out of `I`. Then `I`
holds after every prefix of a run and any free steps exactly when every step is allowed. -/
theorem forall_schedule_iff_along {ok : σ → α → Prop} {G I : σ → Prop} {free : α → Prop}
    (hkeep : ∀ s a, ok s a → G s → G (step s a)) (hfree : ∀ s a, free a → ok s a)
    (hgood : ∀ s, G s → I s)
    (hbad : ∀ s a, G s → ¬ ok s a → ∃ bs, (∀ b ∈ bs, free b) ∧ ¬ I (exec step (step s a) bs))
    {s : σ} (as : List α) (hs : G s) :
    (∀ p, p <+: as → ∀ bs, (∀ b ∈ bs, free b) → I (exec step s (p ++ bs))) ↔
      Along step ok s as := by
  constructor
  · intro h
    induction as generalizing s with
    | nil => trivial
    | cons a as ih =>
      have hok : ok s a := by
        by_contra hnot
        obtain ⟨bs, hbs, hbad⟩ := hbad s a hs hnot
        exact hbad (h [a] ⟨as, rfl⟩ bs hbs)
      refine ⟨hok, ih (hkeep s a hok hs) fun p hp bs hbs => ?_⟩
      exact h (a :: p) (List.cons_prefix_cons.mpr ⟨rfl, hp⟩) bs hbs
  · rintro h p ⟨rest, rfl⟩ bs hbs
    have hp := ((along_append step ok s p rest).mp h).1
    have hallowed : Along step ok (exec step s p) bs := by
      generalize exec step s p = t
      induction bs generalizing t with
      | nil => trivial
      | cons b bs ih =>
        exact ⟨hfree t b (hbs b (List.mem_cons_self ..)),
          ih (fun c hc => hbs c (List.mem_cons_of_mem b hc)) _⟩
    exact hgood _ (invariant step hkeep ((along_append step ok s p bs).mpr ⟨hp, hallowed⟩) hs)

/-- What a run puts out first, it puts out in one of its steps. -/
theorem head_outputs {β : Type*} {out : σ → α → List β} {s : σ} {as : List α} {b : β}
    (h : (outputs step out s as).head? = some b) :
    ∃ p a q, as = p ++ a :: q ∧ outputs step out s p = [] ∧
      (out (exec step s p) a).head? = some b := by
  induction as generalizing s with
  | nil => cases h
  | cons a as ih =>
    by_cases hnil : out s a = []
    · rw [outputs, hnil, List.nil_append] at h
      obtain ⟨p, a', q, rfl, hp, hb⟩ := ih h
      refine ⟨a :: p, a', q, rfl, ?_, hb⟩
      rw [outputs, hnil, hp, List.nil_append]
    · rw [outputs, List.head?_append_of_ne_nil _ hnil] at h
      exact ⟨[], a, as, rfl, rfl, h⟩

/-- A run with a step that is not allowed has a first one. -/
theorem exists_of_not_along {ok : σ → α → Prop} {s : σ} {as : List α}
    (h : ¬ Along step ok s as) :
    ∃ p a q, as = p ++ a :: q ∧ Along step ok s p ∧ ¬ ok (exec step s p) a := by
  induction as generalizing s with
  | nil => exact absurd trivial h
  | cons a as ih =>
    by_cases hok : ok s a
    · obtain ⟨p, a', q, rfl, hp, hnot⟩ := ih fun has => h ⟨hok, has⟩
      exact ⟨a :: p, a', q, rfl, ⟨hok, hp⟩, hnot⟩
    · exact ⟨[], a, as, rfl, trivial, hok⟩

/-! ### Progress -/

section Progress
variable (counts : σ → α → Bool)

/-- The number of actions of a run that count. -/
def tally : σ → List α → ℕ
  | _, [] => 0
  | s, a :: as => (if counts s a then 1 else 0) + tally (step s a) as

/-- Until what is aimed at is reached, no action adds to a measure and one that counts takes from
it. Then no more actions count than the measure has. -/
theorem reached_or_tally_le {I G : σ → Prop} {μ : σ → ℕ} (hstep : ∀ s a, I s → I (step s a))
    (hG : ∀ s a, I s → G s → G (step s a)) (hle : ∀ s a, I s → μ (step s a) ≤ μ s)
    (hlt : ∀ s a, I s → ¬ G s → counts s a = true → μ (step s a) < μ s) {s : σ} (hs : I s)
    (as : List α) : G (exec step s as) ∨ tally step counts s as ≤ μ s := by
  induction as generalizing s with
  | nil => exact .inr (Nat.zero_le _)
  | cons a as ih =>
    have hkeeps : G (step s a) → G (exec step (step s a) as) := fun h =>
      (invariant_all step (I := fun s => I s ∧ G s)
        (fun s a h => ⟨hstep s a h.1, hG s a h.1 h.2⟩) as ⟨hstep s a hs, h⟩).2
    by_cases hdone : G s
    · exact .inl (hkeeps (hG s a hs hdone))
    · have hle' := hle s a hs
      have hlt' := hlt s a hs hdone
      rcases ih (hstep s a hs) with h | h
      · exact .inl h
      · refine .inr ?_
        rw [tally]
        split_ifs with hcounts
        · have := hlt' hcounts
          omega
        · omega

/-- A machine that runs has an action that counts; so any number of them can be had, unless the
machine comes to a stop. -/
theorem exists_tally {R : σ → Prop} {f : σ → α}
    (hf : ∀ s, R s → counts s (f s) = true)
    (n : ℕ) (s : σ) : ∃ as, R (exec step s as) → n ≤ tally step counts s as := by
  induction n generalizing s with
  | zero => exact ⟨[], fun _ => Nat.zero_le _⟩
  | succ n ih =>
    by_cases hs : R s
    · obtain ⟨as, has⟩ := ih (step s (f s))
      refine ⟨f s :: as, fun h => ?_⟩
      rw [tally, if_pos (hf s hs)]
      have := has h
      omega
    · exact ⟨[], fun h => absurd h hs⟩

end Progress

end Run
