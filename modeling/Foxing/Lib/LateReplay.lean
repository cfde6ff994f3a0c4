import Foxing.Lib.KeyedReplay
import Foxing.Lib.Run

/-!
# Replicas that read their source late

A source has a cell for every key. A change of a cell sends an event, and a replica works the
events off in their order, reading the source as it is by then. An event announces a change if
it makes up for it wherever the events in front of it would have brought the replica into line
with the source as it was. Then the replica is in line whenever no event is waiting.
-/
namespace LateReplay
open KeyedReplay
variable {κ σ τ ε : Type*} [DecidableEq κ]

/-- How an event changes a cell of the replica, given that of the source, and what the cell
should be. -/
structure Replication (κ σ τ ε : Type*) where
  key : ε → κ
  apply : σ → ε → τ → τ
  view : σ → τ

structure State (κ σ τ ε : Type*) where
  source : κ → σ
  queue : List ε
  replica : κ → τ

inductive Action (σ ε : Type*) where
  | change (e : ε) (s : σ)
  | work

section Machine
variable (r : Replication κ σ τ ε)

def step (st : State κ σ τ ε) : Action σ ε → State κ σ τ ε
  | .change e s =>
    { st with source := Function.update st.source (r.key e) s, queue := st.queue ++ [e] }
  | .work =>
    match st.queue with
    | [] => st
    | e :: es =>
      { st with
        queue := es
        replica := Function.update st.replica (r.key e)
          (r.apply (st.source (r.key e)) e (st.replica (r.key e))) }

/-- The events of a cell that are waiting. -/
def waiting (st : State κ σ τ ε) (k : κ) : List ε := st.queue.filter fun e => r.key e = k

/-- The waiting events bring every cell into line if the source stays as it is. -/
def Promised (st : State κ σ τ ε) : Prop :=
  ∀ k, cell (r.apply (st.source k)) (st.replica k) (waiting r st k) = r.view (st.source k)

/-- The event makes up for the change, whatever is in front of it. -/
def Announces (e : ε) (s s' : σ) : Prop :=
  ∀ t es, (∀ x ∈ es, r.key x = r.key e) → cell (r.apply s) t es = r.view s →
    cell (r.apply s') t (es ++ [e]) = r.view s'

variable {r} {st : State κ σ τ ε}

theorem Promised.change {e : ε} {s : σ} (h : Promised r st)
    (hannounces : Announces r e (st.source (r.key e)) s) :
    Promised r (step r st (.change e s)) := by
  intro k
  by_cases hk : r.key e = k
  · subst hk
    have hwaiting : waiting r (step r st (.change e s)) (r.key e) =
        waiting r st (r.key e) ++ [e] := by
      simp [waiting, step]
    rw [hwaiting]
    simp only [step, Function.update_self]
    exact hannounces _ _ (fun x hx => by simpa using (List.mem_filter.mp hx).2) (h _)
  · have hwaiting : waiting r (step r st (.change e s)) k = waiting r st k := by
      simp [waiting, step, hk]
    rw [hwaiting]
    simp only [step, Function.update_of_ne (Ne.symm hk)]
    exact h k

theorem Promised.work (h : Promised r st) : Promised r (step r st .work) := by
  intro k
  cases hqueue : st.queue with
  | nil =>
    simp only [step, hqueue]
    exact h k
  | cons e es =>
    have hk := h k
    rw [waiting, hqueue] at hk
    by_cases hkey : r.key e = k
    · subst hkey
      simpa [waiting, step, hqueue, cell] using hk
    · simpa [waiting, step, hqueue, hkey, Function.update_of_ne (Ne.symm hkey)] using hk

end Machine

end LateReplay
