import Mathlib.Data.Set.BooleanAlgebra
import Mathlib.Order.CompletePartialOrder
import Mathlib.Data.Set.Disjoint
import Mathlib.Data.List.Basic
import Mathlib.Tactic.Common

/-!
# Actions that stay within a footprint

A state is seen as a family of cells that determine it. An action is local at a
state when its outcome depends on the cells it reads alone and only the cells it
writes change. Local actions whose footprints do not meet commute, also under
the results they return; so do whole lists of them.
-/

/-- Reading something off the state. -/
def peek {S α : Type} (f : S → α) : StateM S α := fun s => (f s, s)

theorem StateM.run_bind {S α β : Type} (m : StateM S α) (k : α → StateM S β) (s : S) :
    (m >>= k) s = k (m s).1 (m s).2 := rfl

theorem StateM.run_pure {S α : Type} (a : α) (s : S) : (pure a : StateM S α) s = (a, s) := rfl

theorem StateM.run_map {S α β : Type} (f : α → β) (m : StateM S α) (s : S) :
    (f <$> m) s = (f (m s).1, (m s).2) := rfl

theorem StateM.run_modify {S : Type} (g : S → S) (s : S) :
    (modify g : StateM S Unit) s = ((), g s) := rfl

theorem StateM.run_peek {S α : Type} (f : S → α) (s : S) : peek f s = (f s, s) := rfl

theorem StateM.run_ite_peek {S α : Type} (f : S → Bool) (a b : StateM S α) (s : S) :
    (peek f >>= fun c => if c = true then a else b) s = if f s = true then a s else b s := by
  show (if f s = true then a else b) s = _
  split_ifs <;> rfl

/-- A view of states as families of cells. -/
structure Cells (S K : Type*) (V : K → Type*) where
  get : S → (k : K) → V k
  ext : ∀ {s t : S}, (∀ k, get s k = get t k) → s = t

namespace Cells
variable {S α β : Type} {K : Type*} {V : K → Type*} (c : Cells S K V)

/-- The states coincide on a set of cells. -/
def Agree (Z : Set K) (s t : S) : Prop := ∀ k ∈ Z, c.get s k = c.get t k

/-- Run from `s`, the action reads `Z` and writes `W`: from every state that
agrees with `s` on `Z` it returns the same result, leaves the same content in
`Z` and changes nothing outside `W`. -/
def LocalAt (Z W : Set K) (m : StateM S α) (s : S) : Prop :=
  ∀ t, c.Agree Z s t →
    (m t).1 = (m s).1 ∧ c.Agree Z (m s).2 (m t).2 ∧ c.Agree Wᶜ t (m t).2

variable {c} {Z Z' W W' : Set K} {s t u : S} {m : StateM S α}

theorem Agree.refl (Z : Set K) (s : S) : c.Agree Z s s := fun _ _ => rfl

theorem Agree.trans (h₁ : c.Agree Z s t) (h₂ : c.Agree Z t u) : c.Agree Z s u :=
  fun k hk => (h₁ k hk).trans (h₂ k hk)

theorem Agree.mono (hZ : Z ⊆ Z') (h : c.Agree Z' s t) : c.Agree Z s t :=
  fun k hk => h k (hZ hk)

namespace LocalAt

/-- What is not written stays. -/
theorem frame (h : c.LocalAt Z W m s) : c.Agree Wᶜ s (m s).2 := (h s (.refl Z s)).2.2

theorem frame_get (h : c.LocalAt Z W m s) {k : K} (hk : k ∉ W) :
    c.get (m s).2 k = c.get s k := (h.frame k hk).symm

/-- An action that writes none of the cells in question leaves them alone. -/
theorem agree_of_disjoint (h : c.LocalAt Z W m s) (hd : Disjoint W Z') :
    c.Agree Z' s (m s).2 :=
  h.frame.mono fun _ hk hw => Set.disjoint_left.mp hd hw hk

theorem pure (a : α) : c.LocalAt Z W (Pure.pure a) s := fun _ hst => ⟨rfl, hst, .refl _ _⟩

theorem bind {k : α → StateM S β} (hm : c.LocalAt Z W m s)
    (hk : c.LocalAt Z W (k (m s).1) (m s).2) : c.LocalAt Z W (m >>= k) s := by
  intro t hst
  obtain ⟨hres, hin, hout⟩ := hm t hst
  obtain ⟨hres', hin', hout'⟩ := hk (m t).2 hin
  have hrun : ∀ u, (m >>= k) u = k (m u).1 (m u).2 := fun _ => rfl
  rw [hrun, hrun, hres]
  exact ⟨hres', hin', hout.trans hout'⟩

/-- An action that only looks. -/
theorem read {f : S → α} (h : ∀ t, c.Agree Z s t → f t = f s) :
    c.LocalAt Z W (peek f) s :=
  fun t hst => ⟨h t hst, hst, .refl _ _⟩

/-- An action that changes the state without a result. -/
theorem write {g : S → S} (hin : ∀ t, c.Agree Z s t → c.Agree Z (g s) (g t))
    (hout : ∀ t, c.Agree Z s t → c.Agree Wᶜ t (g t)) : c.LocalAt Z W (modify g) s :=
  fun t hst => ⟨rfl, hin t hst, hout t hst⟩

theorem map (f : α → β) (hm : c.LocalAt Z W m s) : c.LocalAt Z W (f <$> m) s := by
  intro t hst
  obtain ⟨hres, hin, hout⟩ := hm t hst
  exact ⟨congrArg f hres, hin, hout⟩

/-- Looking first, and going on with what was seen. -/
theorem bind_peek {f : S → α} {k : α → StateM S β} (hf : ∀ t, c.Agree Z s t → f t = f s)
    (hk : c.LocalAt Z W (k (f s)) s) : c.LocalAt Z W (peek f >>= k) s :=
  .bind (.read hf) hk

theorem bind_modify {g : S → S} {k : Unit → StateM S β} (hg : c.LocalAt Z W (modify g) s)
    (hk : c.LocalAt Z W (k ()) (g s)) : c.LocalAt Z W (modify g >>= k) s :=
  .bind hg hk

end LocalAt

/-- Local actions whose footprints do not meet commute, and neither notices the other. -/
theorem comm_of_disjoint {m' : StateM S β} (h : c.LocalAt Z W m s) (h' : c.LocalAt Z' W' m' s)
    (hWZ : W ⊆ Z) (hWZ' : W' ⊆ Z') (hd : Disjoint W Z') (hd' : Disjoint W' Z) :
    (m' (m s).2).1 = (m' s).1 ∧ (m' (m s).2).2 = (m (m' s).2).2 := by
  have hagree' : c.Agree Z' s (m s).2 := h.agree_of_disjoint hd
  have hagree : c.Agree Z s (m' s).2 := h'.agree_of_disjoint hd'
  obtain ⟨hres', hin', hout'⟩ := h' _ hagree'
  obtain ⟨-, hin, hout⟩ := h _ hagree
  refine ⟨hres', c.ext fun k => ?_⟩
  by_cases hkW' : k ∈ W'
  · have hkW : k ∉ W := fun hk => Set.disjoint_left.mp hd hk (hWZ' hkW')
    calc c.get (m' (m s).2).2 k = c.get (m' s).2 k := (hin' k (hWZ' hkW')).symm
      _ = c.get (m (m' s).2).2 k := hout k hkW
  · calc c.get (m' (m s).2).2 k = c.get (m s).2 k := (hout' k hkW').symm
      _ = c.get (m (m' s).2).2 k := by
        by_cases hkW : k ∈ W
        · exact hin k (hWZ hkW)
        · rw [h.frame_get hkW, ← hout k hkW, h'.frame_get hkW']

end Cells
