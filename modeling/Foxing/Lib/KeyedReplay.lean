import Mathlib.Logic.Function.Basic
import Mathlib.Data.List.Basic

/-!
# Replaying keyed actions

A store assigns a cell to every key, and every action changes the cell of its
own key only. The final content of a cell then depends on the actions of that
key alone, in their order.
-/

namespace KeyedReplay
variable {κ σ ε : Type*} [DecidableEq κ] (key : ε → κ) (effect : ε → σ → σ)

def step (m : κ → σ) (e : ε) : κ → σ := Function.update m (key e) (effect e (m (key e)))

def replay (m : κ → σ) (es : List ε) : κ → σ := es.foldl (step key effect) m

/-- The effect of a list of actions on a single cell. -/
def cell (s : σ) (es : List ε) : σ := es.foldl (fun s e => effect e s) s

theorem replay_append (m : κ → σ) (es fs : List ε) :
    replay key effect m (es ++ fs) = replay key effect (replay key effect m es) fs :=
  List.foldl_append

theorem cell_append (s : σ) (es fs : List ε) :
    cell effect s (es ++ fs) = cell effect (cell effect s es) fs :=
  List.foldl_append

theorem replay_apply (m : κ → σ) (es : List ε) (k : κ) :
    replay key effect m es k = cell effect (m k) (es.filter (fun e => key e = k)) := by
  induction es generalizing m with
  | nil => rfl
  | cons e es ih =>
    have hcons : replay key effect m (e :: es) = replay key effect (step key effect m e) es := rfl
    rw [hcons, ih]
    by_cases h : key e = k
    · subst h
      simp [step, cell]
    · simp [step, h, Function.update_of_ne (Ne.symm h)]

/-- Two lists of actions agree when they agree on every cell. -/
theorem replay_congr {m : κ → σ} {es fs : List ε}
    (h : ∀ k, cell effect (m k) (es.filter (fun e => key e = k)) =
      cell effect (m k) (fs.filter (fun e => key e = k))) :
    replay key effect m es = replay key effect m fs := by
  funext k
  rw [replay_apply, replay_apply, h k]

/-- An action that commutes with all actions of a list can be moved in front. -/
theorem cell_move_front {e : ε} {es : List ε}
    (h : ∀ x ∈ es, ∀ s, effect e (effect x s) = effect x (effect e s)) (s : σ) :
    cell effect s (es ++ [e]) = cell effect s (e :: es) := by
  induction es generalizing s with
  | nil => rfl
  | cons x es ih =>
    have hrest := ih (fun y hy => h y (List.mem_cons_of_mem _ hy)) (effect x s)
    calc cell effect s (x :: es ++ [e]) = cell effect (effect x s) (es ++ [e]) := rfl
      _ = cell effect (effect e (effect x s)) es := hrest
      _ = cell effect (effect x (effect e s)) es := by rw [h x (List.mem_cons_self ..)]
      _ = cell effect s (e :: x :: es) := rfl

end KeyedReplay
