import Foxing.Fanout
import Foxing.WorkerLoop

/-!
# A target with its workers

Events are pushed to the queue of a target and taken by its workers, each of which runs its
own loop. An attempt at an event is made on what the maps and the target are at that time; they
are given with the step, as other targets and scans change them, too. A worker that ends takes
its channels and all that is in them with it.
-/
namespace Foxing

/-- What an attempt at an event ends with. -/
def Attempt.resultAt (x : Attempt) (w : World) (e : Event) : WorkerLoop.AttemptResult :=
  let (o, w) := processSingleEvent x.env x.fault e w
  let (p, w) := resolveEventPath e.parentInode e.name w
  let (q, _) := resolveEventPath e.parentInode e.name w
  ⟨o, p, q, x.now⟩

namespace Fanout
variable (q : Fanout)

/-- What a worker finds in one of its channels. -/
def eventsOf (tin : EventTin) (i : ℕ) : List Event :=
  if h : i < q.workers then (q.channel tin ⟨i, h⟩).events else []

def dropHead (tin : EventTin) (i : ℕ) : Fanout :=
  if h : i < q.workers then q.setChannel tin ⟨i, h⟩ (q.channel tin ⟨i, h⟩).recv.2 else q

/-- The receivers of a worker are dropped. -/
def dropReceivers (i : ℕ) : Fanout :=
  { q with channel := fun tin j =>
      if j.val = i then ⟨(q.channel tin j).capacity, [], true⟩ else q.channel tin j }

section Channels
variable {q : Fanout} {e : Event} {tin tin' : EventTin} {i j : ℕ}

theorem eventsOf_setChannel {j : Fin q.workers} {c : Channel} :
    (q.setChannel tin j c).eventsOf tin' i =
      if tin' = tin ∧ i = j.val then c.events else q.eventsOf tin' i := by
  unfold eventsOf
  by_cases hi : i < q.workers
  · have hsame : (⟨i, hi⟩ : Fin q.workers) = j ↔ i = j.val := by rw [Fin.ext_iff]
    have hi' : i < (q.setChannel tin j c).workers := hi
    rw [dif_pos hi, dif_pos hi']
    by_cases htin : tin' = tin
    · subst htin
      by_cases hj : i = j.val
      · subst hj
        simp [setChannel]
      · simp [setChannel, hsame, hj]
    · simp [setChannel, htin]
  · have hi' : ¬ i < (q.setChannel tin j c).workers := hi
    rw [dif_neg hi, dif_neg hi', if_neg]
    rintro ⟨-, rfl⟩
    exact hi j.isLt

theorem eventsOf_val (j : Fin q.workers) : q.eventsOf tin j.val = (q.channel tin j).events :=
  dif_pos j.isLt

theorem eventsOf_trySend {j : Fin q.workers} (hsent : (q.channel tin j).result = .sent) :
    (q.trySend e tin j).2.eventsOf tin' i =
      q.eventsOf tin' i ++ if tin' = tin ∧ i = j.val then [e] else [] := by
  show (q.setChannel tin j _).eventsOf tin' i = _
  rw [eventsOf_setChannel]
  split_ifs with h
  · rw [h.1, h.2, eventsOf_val, Channel.trySend, if_pos hsent]
  · rw [List.append_nil]

theorem eventsOf_dropHead :
    (q.dropHead tin i).eventsOf tin' j =
      if tin' = tin ∧ j = i then (q.eventsOf tin i).tail else q.eventsOf tin' j := by
  unfold dropHead
  by_cases hi : i < q.workers
  · rw [dif_pos hi, eventsOf_setChannel]
    simp [eventsOf, hi, Channel.recv]
  · rw [dif_neg hi]
    split_ifs with h
    · simp [h.2, eventsOf, hi]
    · rfl

theorem eventsOf_dropReceivers :
    (q.dropReceivers i).eventsOf tin j = if j = i then [] else q.eventsOf tin j := by
  unfold eventsOf dropReceivers
  by_cases hj : j < q.workers <;> by_cases hji : j = i <;> simp [hj, hji]

end Channels

end Fanout

/-- A target, with the push to it that waits for room. -/
structure TargetLine where
  queue : Fanout
  waiting : Option Event
  board : TargetBoard
  worker : ℕ → WorkerLoop

namespace TargetLine

inductive Action
  | push (e : Event)
  | enter
  | work (i : ℕ) (a : WorkerLoop.Action) (x : Attempt) (w : World)
  | outside (board : TargetBoard)

section Steps
variable (hash : U64 → ℕ) (s : TargetLine)

def push (e : Event) : TargetLine :=
  if s.waiting.isSome then s
  else
    match s.queue.push hash e with
    | some (_, q) => { s with queue := q }
    | none => { s with waiting := some e }

/-- The push that waits gets room with the first worker, or that worker is gone. -/
def enter : TargetLine :=
  match s.waiting with
  | some e =>
    if (s.queue.channel .structural s.queue.first).result = .full then s
    else { s with queue := (s.queue.trySend e .structural s.queue.first).2, waiting := none }
  | none => s

/-- A worker that is not gone receives what is first in its channel. -/
def Offers (i : ℕ) (a : WorkerLoop.Action) : Prop :=
  i < s.queue.workers ∧ ¬ (s.worker i).Ended ∧
    match a with
    | .recv tin e _ _ _ =>
      (s.worker i).Receives s.board.paused ∧ (s.queue.eventsOf tin i).head? = some e
    | _ => True

instance (i : ℕ) (a : WorkerLoop.Action) : Decidable (s.Offers i a) :=
  match a with
  | .recv .. => inferInstanceAs (Decidable (_ ∧ _ ∧ _ ∧ _))
  | .turn | .wait | .shutdown | .retryTick _ | .flushTick | .pauseAndFlush | .resume
  | .mountCheck _ | .next _ => inferInstanceAs (Decidable (_ ∧ _ ∧ True))

def queueAfter (i : ℕ) : WorkerLoop.Action → Fanout
  | .recv tin _ _ _ _ => s.queue.dropHead tin i
  | _ => s.queue

def work (i : ℕ) (a : WorkerLoop.Action) (x : Attempt) (w : World) : TargetLine :=
  if s.Offers i a then
    let (b, l) := WorkerLoop.step (s.board, s.worker i) a (x.resultAt w)
    let q := s.queueAfter i a
    { s with
      queue := if l.Ended then q.dropReceivers i else q
      board := b
      worker := Function.update s.worker i l }
  else s

def step : Action → TargetLine
  | .push e => s.push hash e
  | .enter => s.enter
  | .work i a x w => s.work i a x w
  | .outside board => { s with board := board }

/-- The event that a worker takes. -/
def taken (i : ℕ) (a : WorkerLoop.Action) : Option (WorkerLoop.TakeSite × Event) :=
  if s.Offers i a then ((s.worker i).take s.board.paused a).1 else none

end Steps

def start (workers : ℕ) (board : TargetBoard) (scanDepth : U64) (now : ℕ) : TargetLine :=
  ⟨.createFanout workers, none, board, fun _ => .start scanDepth now⟩

end TargetLine

end Foxing
