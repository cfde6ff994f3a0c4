import Foxing.Coalescer
import Foxing.HydrationRequests

/-!
# The loop of a worker

A worker waits for an event or a timer, and handles one event after the other. It takes
events out of its channels, out of the coalescer that bulk events go through, and out of its
retry queue. Every step here takes at most one event, with how the attempt at it ends given as
an argument; what is then done about the event depends on where it was taken, and is listed
as effects.

Latency figures are left out, and so are timers that have no effect.
-/
namespace Foxing

/-- What a worker shares with the other workers and with the scans. -/
structure TargetBoard where
  paused : Bool
  outageJournal : List Path
  outageJournalOverflowed : Bool
  requestRescan : Bool
  requestRecoveryScan : Bool
  repairs : List RepairJob

namespace WorkerLoop

/-- Where an event is taken: received, taken out of the coalescer while the retry queue is
long, at a tick or for a barrier, taken out of the retry queue, or received by a paused
worker. -/
inductive TakeSite
  | received | pressed | flushed | barrier
  | retried (attempts : ℕ)
  | paused (tin : EventTin)
  deriving DecidableEq, Repr

/-- How an attempt ends, and what the path of the event is resolved to for the journal and
for a repair. Without an outcome, or a path that is needed, the worker panics. -/
structure AttemptResult where
  outcome : Option Outcome
  journalPath : Option Path
  repairPath : Option Path
  now : ℕ

/-- What is done about an event. A job that the attempt itself has sent is told from one that
is sent because the attempt failed. -/
inductive Effect
  | done | retry | dropped | sourceGone
  | repair (job : RepairJob)
  | journal (path : Path)
  | redirect (job : RepairJob)
  | clearRename | requestRescan | panic
  deriving DecidableEq, Repr

/-- An event that a worker has taken, with what it has done about it. -/
structure Entry where
  site : TakeSite
  event : Event
  effects : List Effect
  deriving DecidableEq

inductive Phase
  | top | selecting | draining | parked | stopped | panicked
  | pressing (left : ℕ)
  | retrying (batch : List RetryItem)
  | flushing (count : ℕ)

end WorkerLoop

/-- What a worker has for itself. The counters are its share of the metrics, and the log is
what it has done so far. -/
structure WorkerLoop where
  phase : WorkerLoop.Phase
  coalescer : Coalescer
  retryQueue : RetryQueue
  errorStreak : ℕ
  eventsDropped : ℕ
  eventsSourceGone : ℕ
  log : List WorkerLoop.Entry

namespace WorkerLoop
namespace TakeSite

def attempts : TakeSite → ℕ
  | .retried n => n
  | _ => 0

/-- The sites that save a failed event for the recovery. -/
def journals : TakeSite → Bool
  | .pressed | .flushed | .retried _ => true
  | _ => false

/-- The sites that keep count of the failures in a row. -/
def countsErrors : TakeSite → Bool
  | .received | .pressed | .flushed => true
  | _ => false

end TakeSite

namespace Phase

def ended : Phase → Bool
  | .stopped | .panicked => true
  | _ => false

/-- The places where events are received. A target that is paused is drained at the head of
the loop. -/
def receives (paused : Bool) : Phase → Bool
  | .top => paused
  | .selecting => true
  | _ => false

end Phase

def start (scanDepth : U64) (now : ℕ) : WorkerLoop :=
  ⟨.top, .new scanDepth now, .initial, 0, 0, 0, []⟩

/-- The worker is gone. -/
def Ended (l : WorkerLoop) : Prop := l.phase.ended = true

instance (l : WorkerLoop) : Decidable l.Ended := inferInstanceAs (Decidable (_ = _))

/-- The worker waits for events of its channels. -/
def Receives (l : WorkerLoop) (paused : Bool) : Prop := l.phase.receives paused = true

instance (l : WorkerLoop) (paused : Bool) : Decidable (l.Receives paused) :=
  inferInstanceAs (Decidable (_ = _))

/-! ## The effects of an event -/

section Effects
variable (l : WorkerLoop) (s : TakeSite) (e : Event) (x : AttemptResult)

/-- An event that has been tried too often is given up without further notice. -/
def retryEffects : List Effect :=
  if s.attempts ≥ l.retryQueue.maxRetries then []
  else if l.retryQueue.queue.length ≥ l.retryQueue.capacity then [.dropped]
  else [.retry]

def classEffects (f : Failure) : List Effect :=
  match classifyError f e.eventType with
  | .targetNotFound =>
    if s = .flushed then [.repair ⟨.path, components e.name, e.inode⟩]
    else
      match x.repairPath with
      | some p => [.repair ⟨.mount, p, e.inode⟩]
      | none => [.panic]
  | .sourceNotFound => [.sourceGone]
  | .transient => l.retryEffects s
  | .permanent => [.dropped]

/-- Failures during a barrier are ignored, and a received event is not journaled. -/
def failureEffects (f : Failure) : List Effect :=
  match s with
  | .barrier | .paused _ => []
  | .received => l.classEffects s e x f
  | .pressed | .flushed | .retried _ =>
    match x.journalPath with
    | some p => .journal p :: l.classEffects s e x f
    | none => [.panic]

/-- A success after many failures asks for a scan. -/
def successEffects : List Effect :=
  .done :: if s.countsErrors ∧ 5 < l.errorStreak then [.requestRescan] else []

/-- What the attempt itself has done. -/
def ownEffects (o : Outcome) : List Effect :=
  (if o.clearsRename then [.clearRename] else []) ++ o.repairs.map .redirect

/-- What is done about the way the attempt has ended. -/
def resultEffects : CallResult → List Effect
  | .ok () => l.successEffects s
  | .error f => l.failureEffects s e x f

def attemptEffects : List Effect :=
  match x.outcome with
  | none => [.panic]
  | some o => ownEffects o ++ l.resultEffects s e x o.result

/-- A paused worker journals what it receives, except for the barriers and gaps among the
events of the control tin. -/
def pausedEffects (tin : EventTin) : List Effect :=
  if tin = .control ∧ (e.eventType = .barrier ∨ e.eventType = .sequenceGap) then []
  else
    match x.journalPath with
    | some p => [.journal p]
    | none => [.panic]

def effects : List Effect :=
  match s with
  | .paused tin => pausedEffects e x tin
  | _ => l.attemptEffects s e x

/-- The failures in a row, with this attempt. -/
def streakAfter : ℕ :=
  match s.countsErrors, x.outcome with
  | true, some ⟨.ok (), _, _⟩ => 0
  | true, some ⟨.error _, _, _⟩ => l.errorStreak + 1
  | _, _ => l.errorStreak

end Effects

/-! ## Carrying out the effects -/

def onBoard (b : TargetBoard) : Effect → TargetBoard
  | .repair job | .redirect job => { b with repairs := b.repairs ++ [job] }
  | .journal p => { b with outageJournal := Daemon.insertPath p b.outageJournal }
  | .requestRescan => { b with requestRescan := true }
  | _ => b

def onLoop (e : Event) (attempts now : ℕ) (l : WorkerLoop) : Effect → WorkerLoop
  | .retry => { l with retryQueue := l.retryQueue.push now e attempts }
  | .dropped => { l with eventsDropped := l.eventsDropped + 1 }
  | .sourceGone => { l with eventsSourceGone := l.eventsSourceGone + 1 }
  | .panic => { l with phase := .panicked }
  | _ => l

/-- A journal that has grown too long is given up. -/
def limitJournal (b : TargetBoard) : TargetBoard :=
  if b.outageJournal.length > Daemon.outageJournalMaxEntries then
    { b with outageJournal := [], outageJournalOverflowed := true }
  else b

/-- What the worker does with an event that it has taken: it is put down in the log, and its
effects are carried out. A paused worker looks at the length of the journal then. -/
def handle (s : TakeSite) (e : Event) (x : AttemptResult) (w : TargetBoard × WorkerLoop) :
    TargetBoard × WorkerLoop :=
  let fx := w.2.effects s e x
  let b := fx.foldl onBoard w.1
  let l := { w.2 with errorStreak := w.2.streakAfter s x, log := w.2.log ++ [⟨s, e, fx⟩] }
  (match s with | .paused _ => limitJournal b | _ => b, fx.foldl (onLoop e s.attempts x.now) l)

/-! ## The steps -/

/-- A step of the loop: a channel that it receives from, a timer or a command, or the next
event of those that are taken one after the other. -/
inductive Action
  | turn
  | wait
  | shutdown
  | recv (tin : EventTin) (e : Event) (limitBytes : U64) (maxLatency now : ℕ)
  | retryTick (now : ℕ)
  | flushTick
  | pauseAndFlush
  | resume
  | mountCheck (present : Bool)
  | next (now : ℕ)

def goTo (l : WorkerLoop) (p : Phase) : WorkerLoop := { l with phase := p }

/-- The head of the loop. With many events to retry, some are taken out of the coalescer. -/
def turn (l : WorkerLoop) : WorkerLoop :=
  if l.retryQueue.queue.length > 100 ∧ l.coalescer.batch ≠ [] then
    l.goTo (.pressing (min (l.retryQueue.queue.length / 100) 8))
  else l.goTo .selecting

/-- What the worker has for itself goes with it. -/
def stop (l : WorkerLoop) : WorkerLoop :=
  { l with
    phase := .stopped
    coalescer := { l.coalescer with batch := [] }
    retryQueue := { l.retryQueue with queue := [] } }

/-- A bulk event is put into the coalescer, which may return one. -/
def recvBulk (l : WorkerLoop) (e : Event) (limitBytes : U64) (maxLatency now : ℕ) :
    Option (TakeSite × Event) × WorkerLoop :=
  let (evt, c) := (l.coalescer.push e).popBatch limitBytes maxLatency true now
  (evt.map fun evt => (.received, evt), { l with coalescer := c })

/-- The next event out of the coalescer, if there is one. -/
def flush (l : WorkerLoop) (s : TakeSite) (again drained : Phase) (now : ℕ) :
    Option (TakeSite × Event) × WorkerLoop :=
  match l.coalescer.popBatch 0 0 false now with
  | (some evt, c) => (some (s, evt), { l with coalescer := c, phase := again })
  | (none, c) => (none, { l with coalescer := c, phase := drained })

/-- The next event of those that are taken one after the other. -/
def next (l : WorkerLoop) (now : ℕ) : Option (TakeSite × Event) × WorkerLoop :=
  match l.phase with
  | .pressing (n + 1) => l.flush .pressed (.pressing n) .selecting now
  | .pressing 0 => (none, l.goTo .selecting)
  | .flushing n => l.flush .flushed (if n + 1 ≥ 256 then .top else .flushing (n + 1)) .top now
  | .draining => l.flush .barrier .draining .parked now
  | .retrying (item :: rest) =>
    (some (.retried item.attempts, item.event), l.goTo (.retrying rest))
  | .retrying [] => (none, l.goTo .top)
  | _ => (none, l)

def retryTick (l : WorkerLoop) (now : ℕ) : WorkerLoop :=
  if l.retryQueue.queue = [] then l
  else
    let (batch, q) := l.retryQueue.popReadyBatch now 16
    { l with phase := .retrying batch, retryQueue := q }

/-- What a worker does while its target is paused. -/
def takePaused (l : WorkerLoop) : Action → Option (TakeSite × Event) × WorkerLoop
  | .shutdown => (none, l.stop)
  | .recv tin e _ _ _ => (some (.paused tin, e), l)
  | _ => (none, l)

/-- What a worker does when it has the choice. -/
def takeSelected (l : WorkerLoop) : Action → Option (TakeSite × Event) × WorkerLoop
  | .shutdown => (none, l.stop)
  | .recv .bulk e limitBytes maxLatency now => (l.goTo .top).recvBulk e limitBytes maxLatency now
  | .recv _ e _ _ _ => (some (.received, e), l.goTo .top)
  | .retryTick now => (none, l.retryTick now)
  | .flushTick => (none, if l.coalescer.batch = [] then l else l.goTo (.flushing 0))
  | .pauseAndFlush => (none, l.goTo .draining)
  | .mountCheck _ => (none, l.goTo .top)
  | _ => (none, l)

/-- The event that a step takes, and the worker that has taken it. -/
def take (l : WorkerLoop) (paused : Bool) (a : Action) : Option (TakeSite × Event) × WorkerLoop :=
  match l.phase with
  | .top =>
    if paused then l.takePaused a
    else
      match a with
      | .turn => (none, l.turn)
      | _ => (none, l)
  | .selecting => l.takeSelected a
  | .parked =>
    match a with
    | .resume => (none, l.goTo .top)
    | _ => (none, l)
  | _ =>
    match a with
    | .next now => l.next now
    | _ => (none, l)

/-- What a step that takes no event does to what the workers share. -/
def boardAfter (l : WorkerLoop) (b : TargetBoard) (a : Action) : TargetBoard :=
  match l.phase, a with
  | .top, .wait => if b.paused then limitJournal b else b
  | .selecting, .mountCheck present =>
    if b.paused = false ∧ present = false then
      { b with paused := true, requestRecoveryScan := true }
    else b
  | _, _ => b

/-- A step of the worker, whose attempt at the event that it takes ends as `tries` says. -/
def step (w : TargetBoard × WorkerLoop) (a : Action) (tries : Event → AttemptResult) :
    TargetBoard × WorkerLoop :=
  match w.2.take w.1.paused a with
  | (some (s, e), l) => handle s e (tries e) (w.1, l)
  | (none, l) => (w.2.boardAfter w.1 a, l)

/-! ## What a step does -/

section Folds
variable (e : Event) (attempts now : ℕ) (l : WorkerLoop) (fx : List Effect)

@[simp] theorem onLoop_foldl_log :
    (fx.foldl (onLoop e attempts now) l).log = l.log := by
  induction fx generalizing l with
  | nil => rfl
  | cons f fx ih =>
    rw [List.foldl_cons, ih]
    cases f <;> rfl

@[simp] theorem onLoop_foldl_coalescer :
    (fx.foldl (onLoop e attempts now) l).coalescer = l.coalescer := by
  induction fx generalizing l with
  | nil => rfl
  | cons f fx ih =>
    rw [List.foldl_cons, ih]
    cases f <;> rfl

@[simp] theorem onLoop_foldl_eventsDropped :
    (fx.foldl (onLoop e attempts now) l).eventsDropped =
      l.eventsDropped + fx.count .dropped := by
  induction fx generalizing l with
  | nil => rfl
  | cons f fx ih =>
    rw [List.foldl_cons, ih]
    cases f with
    | dropped =>
      rw [List.count_cons_self]
      exact Nat.add_right_comm _ _ _
    | _ => rfl

@[simp] theorem onLoop_foldl_eventsSourceGone :
    (fx.foldl (onLoop e attempts now) l).eventsSourceGone =
      l.eventsSourceGone + fx.count .sourceGone := by
  induction fx generalizing l with
  | nil => rfl
  | cons f fx ih =>
    rw [List.foldl_cons, ih]
    cases f with
    | sourceGone =>
      rw [List.count_cons_self]
      exact Nat.add_right_comm _ _ _
    | _ => rfl

@[simp] theorem onLoop_foldl_phase :
    (fx.foldl (onLoop e attempts now) l).phase = if .panic ∈ fx then .panicked else l.phase := by
  induction fx generalizing l with
  | nil => rfl
  | cons f fx ih =>
    rw [List.foldl_cons, ih]
    cases f <;> simp [onLoop]

@[simp] theorem onLoop_foldl_retryQueue :
    (fx.foldl (onLoop e attempts now) l).retryQueue =
      (fun q => q.push now e attempts)^[fx.count .retry] l.retryQueue := by
  induction fx generalizing l with
  | nil => rfl
  | cons f fx ih =>
    rw [List.foldl_cons, ih]
    cases f <;> simp [onLoop]

end Folds

section Handling
variable (s : TakeSite) (e : Event) (x : AttemptResult) (w : TargetBoard × WorkerLoop)

@[simp] theorem handle_log :
    (handle s e x w).2.log = w.2.log ++ [⟨s, e, w.2.effects s e x⟩] :=
  onLoop_foldl_log ..

@[simp] theorem handle_eventsDropped :
    (handle s e x w).2.eventsDropped =
      w.2.eventsDropped + (w.2.effects s e x).count .dropped :=
  onLoop_foldl_eventsDropped ..

@[simp] theorem handle_eventsSourceGone :
    (handle s e x w).2.eventsSourceGone =
      w.2.eventsSourceGone + (w.2.effects s e x).count .sourceGone :=
  onLoop_foldl_eventsSourceGone ..

@[simp] theorem handle_phase :
    (handle s e x w).2.phase =
      if .panic ∈ w.2.effects s e x then .panicked else w.2.phase :=
  onLoop_foldl_phase ..

@[simp] theorem handle_retryQueue :
    (handle s e x w).2.retryQueue =
      (fun q => q.push x.now e s.attempts)^[(w.2.effects s e x).count .retry] w.2.retryQueue :=
  onLoop_foldl_retryQueue ..

end Handling

/-! ## The effects of an attempt -/

section Results
variable {l : WorkerLoop} {s : TakeSite} {e : Event} {x : AttemptResult}

theorem mem_ownEffects {o : Outcome} {f : Effect} (hf : f ∈ ownEffects o) :
    f = .clearRename ∨ ∃ job, f = .redirect job := by
  rcases List.mem_append.mp hf with h | h
  · split_ifs at h
    · exact .inl (List.mem_singleton.mp h)
    · exact absurd h List.not_mem_nil
  · obtain ⟨job, -, rfl⟩ := List.mem_map.mp h
    exact .inr ⟨job, rfl⟩

/-- One effect stands for the class of the failure, unless the event has been tried too
often. An event that is to be tried again finds room. -/
theorem classEffects_cases (f : Failure) :
    (∃ y, l.classEffects s e x f = [y] ∧
      (y = .retry ∧ s.attempts < l.retryQueue.maxRetries ∧
          l.retryQueue.queue.length < l.retryQueue.capacity ∨
        (∃ job, y = .repair job) ∨ y = .dropped ∨ y = .sourceGone ∨ y = .panic)) ∨
    l.classEffects s e x f = [] ∧ l.retryQueue.maxRetries ≤ s.attempts := by
  unfold classEffects
  cases classifyError f e.eventType with
  | targetNotFound =>
    simp only
    split_ifs
    · exact .inl ⟨_, rfl, by simp⟩
    · cases x.repairPath with
      | none => exact .inl ⟨_, rfl, by simp⟩
      | some p => exact .inl ⟨_, rfl, by simp⟩
  | sourceNotFound => exact .inl ⟨_, rfl, by simp⟩
  | permanent => exact .inl ⟨_, rfl, by simp⟩
  | transient =>
    simp only [retryEffects]
    split_ifs with hmax hcap
    · exact .inr ⟨rfl, hmax⟩
    · exact .inl ⟨_, rfl, by simp⟩
    · exact .inl ⟨_, rfl, .inl ⟨rfl, by omega, by omega⟩⟩

theorem ownEffects_countP {p : Effect → Bool} (hclear : p .clearRename = false)
    (hredirect : ∀ job, p (.redirect job) = false) (o : Outcome) :
    (ownEffects o).countP p = 0 := by
  rw [List.countP_eq_zero]
  intro f hf
  rcases mem_ownEffects hf with rfl | ⟨job, rfl⟩
  · simp [hclear]
  · simp [hredirect]

theorem classEffects_retry (f : Failure) : (l.classEffects s e x f).count .retry = 0 ∨
    (l.classEffects s e x f).count .retry = 1 ∧ s.attempts < l.retryQueue.maxRetries ∧
      l.retryQueue.queue.length < l.retryQueue.capacity := by
  rcases classEffects_cases (l := l) (s := s) (e := e) (x := x) f with
    ⟨y, hy, ⟨rfl, hroom⟩ | ⟨job, rfl⟩ | rfl | rfl | rfl⟩ | ⟨hy, -⟩
  · rw [hy]
    exact .inr ⟨rfl, hroom⟩
  all_goals
    rw [hy]
    exact .inl rfl

/-- An event is put into the retry queue at most once, and finds room there. -/
theorem effects_retry : (l.effects s e x).count .retry = 0 ∨
    (l.effects s e x).count .retry = 1 ∧ s.attempts < l.retryQueue.maxRetries ∧
      l.retryQueue.queue.length < l.retryQueue.capacity := by
  have hattempt : (l.attemptEffects s e x).count .retry = 0 ∨
      (l.attemptEffects s e x).count .retry = 1 ∧ s.attempts < l.retryQueue.maxRetries ∧
        l.retryQueue.queue.length < l.retryQueue.capacity := by
    unfold attemptEffects
    cases x.outcome with
    | none => exact .inl rfl
    | some o =>
      have hown : (ownEffects o).count .retry = 0 := ownEffects_countP rfl (fun _ => rfl) o
      simp only [List.count_append, hown, Nat.zero_add]
      cases o.result with
      | ok u =>
        left
        simp only [resultEffects, successEffects]
        split_ifs <;> rfl
      | error f =>
        simp only [resultEffects, failureEffects]
        cases s with
        | barrier => exact .inl rfl
        | paused tin => exact .inl rfl
        | received => exact classEffects_retry f
        | _ =>
          cases x.journalPath with
          | none => exact .inl rfl
          | some p =>
            simp only
            rw [List.count_cons_of_ne (by simp)]
            exact classEffects_retry f
  cases s with
  | paused tin =>
    left
    simp only [effects, pausedEffects]
    split_ifs
    · rfl
    · cases x.journalPath <;> rfl
  | _ => exact hattempt

end Results

end WorkerLoop

end Foxing
