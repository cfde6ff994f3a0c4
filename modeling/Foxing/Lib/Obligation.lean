import Foxing.Lib.Run

/-!
# Requests that have to be served

The steps of a machine leave marks; some marks ask for something, some serve what
has been asked for. A request is outstanding as long as nothing after it has
served it. The machine with its log is a machine again, so that the rules for runs
apply to it.
-/
namespace Obligation
variable {σ α μ ρ : Type*}

/-- Which requests a mark makes, and which it serves. -/
structure Terms (μ ρ : Type*) where
  Asks : μ → ρ → Prop
  Serves : μ → ρ → Prop

/-- The machine that keeps a log of its marks. -/
def logged (step : σ → α → σ) (marks : σ → α → List μ) (x : σ × List μ) (a : α) : σ × List μ :=
  (step x.1 a, x.2 ++ marks x.1 a)

variable (T : Terms μ ρ)

/-- The request has been made, and nothing since then has served it. -/
def Outstanding (log : List μ) (r : ρ) : Prop :=
  ∃ before m after, log = before ++ m :: after ∧ T.Asks m r ∧ ∀ m' ∈ after, ¬ T.Serves m' r

/-- Every outstanding request is still pending in the state of the machine. -/
def NoneLost (Pending : σ → ρ → Prop) (x : σ × List μ) : Prop :=
  ∀ r, Outstanding T x.2 r → Pending x.1 r

variable {T}

theorem not_outstanding_nil (r : ρ) : ¬ Outstanding T [] r := by
  rintro ⟨before, m, after, h, -⟩
  simp at h

theorem Outstanding.exists_asks {log : List μ} {r : ρ} (h : Outstanding T log r) :
    ∃ m ∈ log, T.Asks m r := by
  obtain ⟨before, m, after, rfl, hasks, -⟩ := h
  exact ⟨m, by simp, hasks⟩

theorem outstanding_append {log new : List μ} {r : ρ} :
    Outstanding T (log ++ new) r ↔
      Outstanding T new r ∨ Outstanding T log r ∧ ∀ m ∈ new, ¬ T.Serves m r := by
  constructor
  · rintro ⟨before, m, after, h, hasks, hserves⟩
    rcases List.append_eq_append_iff.mp h with ⟨mid, rfl, hnew⟩ | ⟨mid, rfl, hmid⟩
    · exact .inl ⟨mid, m, after, hnew, hasks, hserves⟩
    · cases mid with
      | nil => exact .inl ⟨[], m, after, by simpa using hmid.symm, hasks, hserves⟩
      | cons m' mid =>
        obtain ⟨rfl, rfl⟩ := List.cons.inj hmid
        refine .inr ⟨⟨before, m, mid, rfl, hasks, fun m' hm' => ?_⟩, fun m' hm' => ?_⟩
        · exact hserves m' (List.mem_append_left _ hm')
        · exact hserves m' (List.mem_append_right _ hm')
  · rintro (⟨before, m, after, rfl, hasks, hserves⟩ | ⟨⟨before, m, after, rfl, hasks, hserves⟩, h⟩)
    · exact ⟨log ++ before, m, after, by simp, hasks, hserves⟩
    · refine ⟨before, m, after ++ new, by simp, hasks, fun m' hm' => ?_⟩
      rcases List.mem_append.mp hm' with hm' | hm'
      · exact hserves m' hm'
      · exact h m' hm'

/-- A step loses nothing if the requests it makes are pending after it, and those that
were pending before are pending still, or served. -/
theorem NoneLost.step {Pending : σ → ρ → Prop} {step : σ → α → σ} {marks : σ → α → List μ}
    {x : σ × List μ} {a : α} (h : NoneLost T Pending x)
    (hnew : ∀ r, Outstanding T (marks x.1 a) r → Pending (step x.1 a) r)
    (hold : ∀ r, Outstanding T x.2 r → Pending x.1 r → (∀ m ∈ marks x.1 a, ¬ T.Serves m r) →
      Pending (step x.1 a) r) :
    NoneLost T Pending (logged step marks x a) := by
  intro r hr
  rcases outstanding_append.mp hr with hr | ⟨hr, hserves⟩
  · exact hnew r hr
  · exact hold r hr (h r hr) hserves

end Obligation
