import Foxing.Worker
import Foxing.Lib.Run

/-!
# The retry queue of a worker

An event whose attempt fails for a reason that may pass is put into a queue and
attempted again after a delay, with the events that have come in since then
already processed. How a failure is handled depends on where the event was taken
from. Latency figures and the error streak are left out.
-/
namespace Foxing

inductive ErrorClass where
  | targetNotFound | sourceNotFound | transient | permanent
  deriving DecidableEq, Repr

/-- The events that need their file to be on the target. -/
def EventType.needsTarget : EventType → Bool
  | .write | .writeRange | .clone | .truncate | .fallocate | .rename | .renameIncomplete => true
  | _ => false

def classifyError (f : Failure) (t : EventType) : ErrorClass :=
  match f with
  | .notFound => if t.needsTarget then .targetNotFound else .sourceNotFound
  | .permissionDenied => .permanent
  | .alreadyExists | .other => .transient

/-- An event with the time, in milliseconds, of its next attempt and the number of
attempts that have been scheduled. -/
structure RetryItem where
  event : Event
  nextAttempt : ℕ
  attempts : ℕ

structure RetryQueue where
  queue : List RetryItem
  maxRetries : ℕ
  baseBackoffMs : ℕ
  capacity : ℕ

namespace RetryQueue

def new (maxRetries baseBackoffMs capacity : ℕ) : RetryQueue :=
  ⟨[], maxRetries, baseBackoffMs, capacity⟩

/-- The queue of a worker as it starts. -/
def initial : RetryQueue := new 10 50 1000

def push (now : ℕ) (e : Event) (attempts : ℕ) (q : RetryQueue) : RetryQueue :=
  if attempts ≥ q.maxRetries then q
  else if q.queue.length ≥ q.capacity then q
  else
    let backoffMs := min (q.baseBackoffMs * 2 ^ attempts) 5000
    { q with queue := q.queue ++ [⟨e, now + backoffMs, attempts + 1⟩] }

/-- The ready items at the front, and what is left. -/
def popReady (now : ℕ) : ℕ → List RetryItem → List RetryItem × List RetryItem
  | 0, items => ([], items)
  | _ + 1, [] => ([], [])
  | max + 1, item :: items =>
    if now ≥ item.nextAttempt then
      let (ready, rest) := popReady now max items
      (item :: ready, rest)
    else ([], item :: items)

def popReadyBatch (now max : ℕ) (q : RetryQueue) : List RetryItem × RetryQueue :=
  let (ready, rest) := popReady now max q.queue
  (ready, { q with queue := rest })

theorem popReady_append (now max : ℕ) (items : List RetryItem) :
    (popReady now max items).1 ++ (popReady now max items).2 = items := by
  induction max generalizing items with
  | zero => rfl
  | succ max ih =>
    cases items with
    | nil => rfl
    | cons item items =>
      unfold popReady
      split_ifs
      · exact congrArg (item :: ·) (ih items)
      · rfl

theorem push_room (now : ℕ) (e : Event) {attempts : ℕ} {q : RetryQueue}
    (hmax : attempts < q.maxRetries) (hcap : q.queue.length < q.capacity) :
    q.push now e attempts = { q with
      queue := q.queue ++ [⟨e, now + min (q.baseBackoffMs * 2 ^ attempts) 5000, attempts + 1⟩] } := by
  unfold push
  rw [if_neg (by omega), if_neg (by omega)]

end RetryQueue

/-- Where an event is taken from: received, taken out of the coalescer while the
retry queue is long, flushed at a tick, or flushed for a barrier. -/
inductive Intake where
  | received | pressed | flushed | paused
  deriving DecidableEq, Repr

/-- What an attempt meets with. -/
structure Attempt where
  env : Env
  fault : Option ℕ
  now : ℕ

structure RetryWorker where
  world : World
  retryQueue : RetryQueue
  outageJournal : List Path
  repairs : List RepairJob
  crashed : Bool

namespace RetryWorker
variable (e : Event)

/-- The path is looked up and put into the outage journal. -/
def journal (s : RetryWorker) : RetryWorker :=
  match resolveEventPath e.parentInode e.name s.world with
  | (some rel, w) => { s with world := w, outageJournal := s.outageJournal ++ [rel] }
  | (none, w) => { s with world := w, crashed := true }

/-- The path is looked up and sent to be repaired. -/
def askRepair (s : RetryWorker) : RetryWorker :=
  match resolveEventPath e.parentInode e.name s.world with
  | (some rel, w) => { s with world := w, repairs := s.repairs ++ [⟨.mount, rel, e.inode⟩] }
  | (none, w) => { s with world := w, crashed := true }

/-- What is done about a failure, by its class. -/
def onErrorClass (o : Intake) (attempts now : ℕ) (f : Failure) (s : RetryWorker) : RetryWorker :=
  match classifyError f e.eventType with
  | .targetNotFound =>
    if o = .flushed then
      { s with repairs := s.repairs ++ [⟨.path, components e.name, e.inode⟩] }
    else s.askRepair e
  | .sourceNotFound => s
  | .transient => { s with retryQueue := s.retryQueue.push now e attempts }
  | .permanent => s

/-- A received event is not journaled, and failures during a barrier are ignored. -/
def onError (o : Intake) (attempts now : ℕ) (f : Failure) (s : RetryWorker) : RetryWorker :=
  match o with
  | .paused => s
  | .received => s.onErrorClass e .received attempts now f
  | o =>
    let s := s.journal e
    if s.crashed then s else s.onErrorClass e o attempts now f

def attempt (o : Intake) (a : Attempt) (attempts : ℕ) (s : RetryWorker) : RetryWorker :=
  if s.crashed then s
  else
    let (r, w) := processSingleEvent a.env a.fault e s.world
    match r with
    | none => { s with world := w, crashed := true }
    | some x =>
      let s := { s with world := w, repairs := s.repairs ++ x.repairs }
      match x.result with
      | .ok () => s
      | .error f => s.onError e o attempts a.now f

end RetryWorker

/-- An event is handled, or the retry timer ticks; the attempts at the events that
are ready then meet with different things. -/
inductive RetryAction where
  | handle (o : Intake) (a : Attempt) (e : Event)
  | tick (now : ℕ) (tries : ℕ → Attempt)

namespace RetryWorker

/-- The retry of an event is handled as if the event had been taken under pressure. -/
def retryBatch (tries : ℕ → Attempt) (batch : List RetryItem) (s : RetryWorker) : RetryWorker :=
  batch.zipIdx.foldl (fun s x => s.attempt x.1.event .pressed (tries x.2) x.1.attempts) s

def step (s : RetryWorker) : RetryAction → RetryWorker
  | .handle o a e => s.attempt e o a 0
  | .tick now tries =>
    let (batch, q) := s.retryQueue.popReadyBatch now 16
    { s with retryQueue := q }.retryBatch tries batch

end RetryWorker

end Foxing
