import Mathlib.Tactic.Common

/-!
# Calls that change a state and may fail

A call takes a state to a result or an error, and to a new state in either case. `Triple P m Q E`
says of a call that from a state with `P` it comes to a result with `Q` or to an error with `E`.
-/

/-- A computation with a state that survives its errors. -/
abbrev Failing (ε σ α : Type) := ExceptT ε (StateM σ) α

namespace Failing
variable {ε σ α β : Type}

def exec (m : Failing ε σ α) (s : σ) : Except ε α × σ := m.run.run s

/-! ## Runs -/

theorem exec_get (s : σ) : exec (get : Failing ε σ σ) s = (.ok s, s) := rfl

theorem exec_bind_ok {m : Failing ε σ α} {k : α → Failing ε σ β} {s s' : σ} {a : α}
    (h : exec m s = (.ok a, s')) : exec (m >>= k) s = exec (k a) s' := by
  show (m.run >>= ExceptT.bindCont k).run s = _
  rw [StateT.run_bind]
  rw [show m.run.run s = (Except.ok a, s') from h]
  rfl

theorem exec_bind_error {m : Failing ε σ α} {k : α → Failing ε σ β} {s s' : σ} {e : ε}
    (h : exec m s = (.error e, s')) : exec (m >>= k) s = (.error e, s') := by
  show (m.run >>= ExceptT.bindCont k).run s = _
  rw [StateT.run_bind]
  rw [show m.run.run s = (Except.error e, s') from h]
  rfl

theorem exec_tryCatch_ok {m : Failing ε σ α} {k : ε → Failing ε σ α} {s s' : σ} {a : α}
    (h : exec m s = (.ok a, s')) : exec (tryCatch m k) s = (.ok a, s') := by
  simp only [exec, tryCatch, tryCatchThe, MonadExceptOf.tryCatch, ExceptT.tryCatch, ExceptT.run_mk,
    StateT.run_bind]
  rw [show StateT.run m s = (Except.ok a, s') from h]
  rfl

theorem exec_tryCatch_error {m : Failing ε σ α} {k : ε → Failing ε σ α} {s s' : σ} {e : ε}
    (h : exec m s = (.error e, s')) : exec (tryCatch m k) s = exec (k e) s' := by
  simp only [exec, tryCatch, tryCatchThe, MonadExceptOf.tryCatch, ExceptT.tryCatch, ExceptT.run_mk,
    StateT.run_bind]
  rw [show StateT.run m s = (Except.error e, s') from h]
  rfl

/-! ## Rules -/

/-- From `P` the call comes to a result with `Q` or to an error with `E`. -/
def Triple (P : σ → Prop) (m : Failing ε σ α) (Q : α → σ → Prop) (E : ε → σ → Prop) : Prop :=
  ∀ s, P s → (∀ a s', exec m s = (.ok a, s') → Q a s') ∧
    ∀ e s', exec m s = (.error e, s') → E e s'

variable {P P' : σ → Prop} {Q Q' : α → σ → Prop} {R : β → σ → Prop} {E E' : ε → σ → Prop}
  {m : Failing ε σ α}

theorem Triple.imp (h : Triple P' m Q' E') (hP : ∀ s, P s → P' s)
    (hQ : ∀ a s, Q' a s → Q a s) (hE : ∀ e s, E' e s → E e s) : Triple P m Q E := by
  intro s hs
  obtain ⟨hok, herror⟩ := h s (hP s hs)
  exact ⟨fun a s' h => hQ a s' (hok a s' h), fun e s' h => hE e s' (herror e s' h)⟩

theorem Triple.bind {k : α → Failing ε σ β} (h : Triple P m Q E)
    (hk : ∀ a, Triple (Q a) (k a) R E) : Triple P (m >>= k) R E := by
  intro s hs
  obtain ⟨hok, herror⟩ := h s hs
  cases hm : exec m s with
  | mk result s' =>
    cases result with
    | ok a =>
      rw [exec_bind_ok hm]
      exact hk a s' (hok a s' hm)
    | error e =>
      rw [exec_bind_error hm]
      refine ⟨fun b s'' h => ?_, fun e' s'' h => ?_⟩
      · cases h
      · cases h
        exact herror e s' hm

theorem Triple.tryCatch {k : ε → Failing ε σ α} (h : Triple P m Q E)
    (hk : ∀ e, Triple (E e) (k e) Q E') : Triple P (tryCatch m k) Q E' := by
  intro s hs
  obtain ⟨hok, herror⟩ := h s hs
  cases hm : exec m s with
  | mk result s' =>
    cases result with
    | ok a =>
      rw [exec_tryCatch_ok hm]
      refine ⟨fun b s'' h => ?_, fun e' s'' h => ?_⟩
      · cases h
        exact hok a s' hm
      · cases h
    | error e =>
      rw [exec_tryCatch_error hm]
      exact hk e s' (herror e s' hm)

theorem Triple.pure {a : α} (h : ∀ s, P s → Q a s) : Triple P (pure a : Failing ε σ α) Q E := by
  intro s hs
  refine ⟨fun b s' heq => ?_, fun e s' heq => ?_⟩
  · cases heq
    exact h s hs
  · cases heq

theorem Triple.throw {e : ε} (h : ∀ s, P s → E e s) :
    Triple P (throw e : Failing ε σ α) Q E := by
  intro s hs
  refine ⟨fun b s' heq => ?_, fun e s' heq => ?_⟩
  · cases heq
  · cases heq
    exact h s hs

theorem Triple.get {Q : σ → σ → Prop} (h : ∀ s, P s → Q s s) :
    Triple P (get : Failing ε σ σ) Q E := by
  intro s hs
  refine ⟨fun b s' heq => ?_, fun e s' heq => ?_⟩
  · cases heq
    exact h s hs
  · cases heq

theorem Triple.set {Q : PUnit → σ → Prop} {t : σ} (h : ∀ s, P s → Q ⟨⟩ t) :
    Triple P (set t : Failing ε σ PUnit) Q E := by
  intro s hs
  refine ⟨fun b s' heq => ?_, fun e s' heq => ?_⟩
  · cases heq
    exact h s hs
  · cases heq

theorem Triple.modify {Q : PUnit → σ → Prop} {f : σ → σ} (h : ∀ s, P s → Q ⟨⟩ (f s)) :
    Triple P (modify f : Failing ε σ PUnit) Q E := by
  intro s hs
  refine ⟨fun b s' heq => ?_, fun e s' heq => ?_⟩
  · cases heq
    exact h s hs
  · cases heq

/-- The state is looked at. -/
theorem keeps_get : Triple P (get : Failing ε σ σ) (fun _ => P) E :=
  Triple.get fun _ h => h

/-- The state is looked at and known from then on. -/
theorem knows_get : Triple P (get : Failing ε σ σ) (fun t s => P s ∧ s = t) E :=
  Triple.get fun _ h => ⟨h, rfl⟩

theorem keeps_modify {f : σ → σ} (h : ∀ s, P s → P (f s)) :
    Triple P (modify f : Failing ε σ PUnit) (fun _ => P) E :=
  Triple.modify h

theorem Triple.ite {c : Prop} [Decidable c] {m' : Failing ε σ α} (h : c → Triple P m Q E)
    (h' : ¬ c → Triple P m' Q E) : Triple P (if c then m else m') Q E := by
  split_ifs with hc
  · exact h hc
  · exact h' hc

end Failing
