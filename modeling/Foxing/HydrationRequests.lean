import Foxing.Fanout
import Foxing.RetryQueue
import Foxing.Lib.Run

/-!
# Requests for scans and repairs

The workers, the consumer loop and the scans of the sources share flags that ask
for a scan, journals of paths that could not be copied, and queues of repair jobs.
Every access to them is a step here. What a worker handles, how an attempt ends
and when a step is taken is given with the step. A repair job is identified by its
source and its path below it.
-/
namespace Foxing

/-- The state of a target that its workers and the consumer share. The streaks are those
of the workers. -/
structure TargetState where
  queue : Fanout
  paused : Bool
  outageJournal : List Path
  outageJournalOverflowed : Bool
  errorStreak : ℕ → ℕ

structure HydrationState where
  requestRescan : Bool
  requestRecoveryScan : Bool
  activeRepairs : List Path

/-- A push that dropped its event. -/
structure Drop (σ τ : Type*) where
  source : σ
  target : τ
  path : Path
  deriving DecidableEq

structure HydrationJob (σ τ : Type*) where
  source : σ
  target : τ
  path : Path
  deriving DecidableEq

/-- How an attempt at an event ends: the repair jobs that were sent on the way, the error
if there is one, and what the path of the event resolves to for the journal and for a
repair. -/
structure AttemptEnd where
  sent : List Path
  error : Option ErrorClass
  journalPath : Option Path
  repairPath : Option Path

/-- What the consumer finds out about the mount of a target. -/
inductive Probe where
  | lost | recovered | remounted

/-- The state of the daemon; `targets` are those that the scans of a source serve. The
last field records which metadata and bulk events have been dropped since the last
scan of their source began. -/
structure Daemon (σ τ : Type*) where
  targets : σ → List τ
  rootSource : σ
  hydration : σ → HydrationState
  target : σ → τ → TargetState
  repairs : List (σ × Path)
  jobs : List (HydrationJob σ τ)
  lastFullScan : ℤ
  dropped : List (Drop σ τ)

namespace Daemon
variable {σ τ : Type*} [DecidableEq σ] [DecidableEq τ]

section Updates
variable (d : Daemon σ τ) (s : σ) (t : τ)

def onHydration (f : HydrationState → HydrationState) : Daemon σ τ :=
  { d with hydration := Function.update d.hydration s (f (d.hydration s)) }

def onTarget (f : TargetState → TargetState) : Daemon σ τ :=
  { d with target := Function.update d.target s (Function.update (d.target s) t (f (d.target s t))) }

def sendRepairJob (path : Path) : Daemon σ τ := { d with repairs := d.repairs ++ [(s, path)] }

def requestRescan : Daemon σ τ := d.onHydration s fun h => { h with requestRescan := true }

def requestRecoveryScan : Daemon σ τ :=
  d.onHydration s fun h => { h with requestRecoveryScan := true }

/-- A scan of the source begins. -/
def beginScan : Daemon σ τ := { d with dropped := d.dropped.filter fun x => x.source ≠ s }

theorem onTarget_target (f : TargetState → TargetState) (s' : σ) (t' : τ) :
    (d.onTarget s t f).target s' t' =
      if s' = s ∧ t' = t then f (d.target s t) else d.target s' t' := by
  by_cases hs : s' = s
  · subst hs
    by_cases ht : t' = t
    · subst ht
      simp [onTarget]
    · simp [onTarget, ht]
  · simp [onTarget, hs]

omit [DecidableEq τ] in
theorem onHydration_hydration (f : HydrationState → HydrationState) (s' : σ) :
    (d.onHydration s f).hydration s' = if s' = s then f (d.hydration s) else d.hydration s' :=
  Function.update_apply ..

end Updates

/-! ## The workers -/

section Workers
variable (d : Daemon σ τ) (s : σ) (t : τ)

def outageJournalMaxEntries : ℕ := 100000

def insertPath (path : Path) (journal : List Path) : List Path :=
  if path ∈ journal then journal else journal ++ [path]

def journalPath (path : Option Path) (T : TargetState) : TargetState :=
  match path with
  | some p => { T with outageJournal := insertPath p T.outageJournal }
  | none => T

/-- The event is pushed to one target. -/
def pushEvent (hash : U64 → ℕ) (e : Event) (path : Path) : Daemon σ τ :=
  match (d.target s t).queue.push hash e with
  | none => d
  | some (pushed, q) =>
    let d := d.onTarget s t fun T => { T with queue := q }
    if pushed = false ∧ Fanout.Droppable e then { d with dropped := d.dropped ++ [⟨s, t, path⟩] }
    else d

/-- A worker takes an event out of one of its channels. While the target is paused, the
path goes to the journal; barriers and gaps are not journaled. -/
def receive (tin : EventTin) (worker : ℕ) (path : Option Path) : Daemon σ τ :=
  d.onTarget s t fun T =>
    if h : worker < T.queue.workers then
      let (e, c) := (T.queue.channel tin ⟨worker, h⟩).recv
      let T' := { T with queue := T.queue.setChannel tin ⟨worker, h⟩ c }
      match e with
      | none => T
      | some e =>
        if T.paused = false ∨ e.eventType = .barrier ∨ e.eventType = .sequenceGap then T'
        else journalPath path T'
    else T

/-- The worker of a paused target gives up a journal that has grown too long. -/
def limitJournal : Daemon σ τ :=
  d.onTarget s t fun T =>
    if T.outageJournal.length > outageJournalMaxEntries then
      { T with outageJournal := [], outageJournalOverflowed := true }
    else T

/-- The failures in a row of a worker. -/
def countError (o : Intake) (worker : ℕ) (error : Option ErrorClass) (T : TargetState) :
    TargetState :=
  if o = .pressed ∨ o = .flushed ∨ o = .received then
    { T with
      errorStreak := Function.update T.errorStreak worker
        (if error = none then 0 else T.errorStreak worker + 1) }
  else T

/-- A success after many failures asks for a scan. -/
def onSuccess (o : Intake) (retried : Bool) (streak : ℕ) : Daemon σ τ :=
  if retried = false ∧ o ≠ .paused ∧ streak > 5 then d.requestRescan s else d

/-- A received event is not journaled, and failures during a barrier are ignored. -/
def onFailure (o : Intake) (e : Event) (c : ErrorClass) (x : AttemptEnd) : Daemon σ τ :=
  if o = .paused then d
  else
    let d := if o = .received then d else d.onTarget s t (journalPath x.journalPath)
    match c with
    | .targetNotFound =>
      if o = .flushed then d.sendRepairJob s (components e.name)
      else d.sendRepairJob s (x.repairPath.getD (components e.name))
    | _ => d

/-- The end of an attempt. The retry of an event does not count for the streak. -/
def handled (o : Intake) (retried : Bool) (worker : ℕ) (e : Event) (x : AttemptEnd) : Daemon σ τ :=
  let streak := (d.target s t).errorStreak worker
  let d := { d with repairs := d.repairs ++ x.sent.map fun p => (s, p) }
  let d := if retried then d else d.onTarget s t (countError o worker x.error)
  match x.error with
  | none => d.onSuccess s o retried streak
  | some c => d.onFailure s t o e c x

/-- The worker looks for the mount of its target. -/
def mountCheck (present : Bool) : Daemon σ τ :=
  if (d.target s t).paused = false ∧ present = false then
    (d.onTarget s t fun T => { T with paused := true }).requestRecoveryScan s
  else d

/-- A worker ends. -/
def workerExit (worker : ℕ) : Daemon σ τ :=
  d.onTarget s t fun T =>
    if h : worker < T.queue.workers then
      { T with queue := { T.queue with
          channel := fun tin => Function.update (T.queue.channel tin) ⟨worker, h⟩
            (T.queue.channel tin ⟨worker, h⟩).close } }
    else T

end Workers

/-! ## The consumer loop -/

section Consumer
variable (d : Daemon σ τ) (s : σ) (t : τ) (now : ℤ)

/-- Whether a scan has been asked for. -/
def Requested : Prop :=
  (d.hydration s).requestRescan = true ∨ (d.hydration s).requestRecoveryScan = true

instance : Decidable (d.Requested s) := inferInstanceAs (Decidable (_ ∨ _))

/-- The last scan began more than five seconds ago. -/
def ScanDue : Prop := now - d.lastFullScan > 5000

instance : Decidable (d.ScanDue now) := inferInstanceAs (Decidable (_ > _))

def JournalsEmpty : Prop := ∀ t ∈ d.targets s, (d.target s t).outageJournal = []

instance : Decidable (d.JournalsEmpty s) := inferInstanceAs (Decidable (∀ _ ∈ _, _))

def clearRequests : Daemon σ τ :=
  d.onHydration s fun h => { h with requestRescan := false, requestRecoveryScan := false }

/-- The first overflow that is found is taken. -/
def takeOverflow : Daemon σ τ :=
  match (d.targets s).find? fun t => (d.target s t).outageJournalOverflowed with
  | some t => d.onTarget s t fun T => { T with outageJournalOverflowed := false }
  | none => d

/-- The requests are taken, whether or not a scan begins. Without a request for recovery,
and with a path in some journal, only the paths of the journals are looked at. -/
def checkRequests : Daemon σ τ :=
  let recovery := (d.hydration s).requestRecoveryScan
  let requested : Bool := d.Requested s
  let d := d.clearRequests s
  if requested ∧ d.ScanDue now then
    let d := { d with lastFullScan := now }
    if recovery then (d.takeOverflow s).beginScan s
    else if d.JournalsEmpty s then d.beginScan s
    else d
  else d

def health (probe : Probe) : Daemon σ τ :=
  match probe with
  | .lost => d.onTarget s t fun T => { T with paused := true }
  | .recovered =>
    { (d.onTarget s t fun T => { T with paused := false }).requestRecoveryScan s with
      lastFullScan := now - 60000 }
  | .remounted => { d.requestRecoveryScan s with lastFullScan := now - 60000 }

/-- The job is submitted for those targets whose queue accepts it. -/
def submitJobs (path : Path) (accepted : τ → Bool) : Daemon σ τ :=
  { d with jobs := d.jobs ++ ((d.targets s).filter accepted).map fun t => ⟨s, t, path⟩ }

/-- The first repair job is taken. A job for the root asks for a scan of everything; any
other is submitted unless one for the path is active. -/
def takeRepair (accepted : τ → Bool) : Daemon σ τ :=
  match d.repairs with
  | [] => d
  | (s, path) :: rest =>
    let d := { d with repairs := rest }
    if s = d.rootSource ∧ path = [] then
      if d.ScanDue now then { d with lastFullScan := now, dropped := [] } else d
    else if path ∈ (d.hydration s).activeRepairs then d
    else
      (d.onHydration s fun h => { h with activeRepairs := h.activeRepairs ++ [path] }).submitJobs
        s path accepted

end Consumer

/-! ## Scans and their jobs -/

section Scans
variable (d : Daemon σ τ) (s : σ) (t : τ)

/-- A scan submits a job, which the queue may refuse. -/
def submitJob (path : Path) (accepted : Bool) : Daemon σ τ :=
  if accepted then { d with jobs := d.jobs ++ [⟨s, t, path⟩] } else d

/-- The rescan of one target's journal, which falls back to a scan if there is nothing. -/
def targetedRescan : Daemon σ τ :=
  if (d.target s t).outageJournal = [] then d.beginScan s
  else d.onTarget s t fun T => { T with outageJournal := [] }

/-- The recovery scan takes the paths of a journal. -/
def collectJournal : Daemon σ τ := d.onTarget s t fun T => { T with outageJournal := [] }

/-- A job that is skipped stays active. -/
def finishJob (job : HydrationJob σ τ) (skipped : Bool) : Daemon σ τ :=
  if skipped then d
  else d.onHydration job.source fun h =>
    { h with activeRepairs := h.activeRepairs.filter (· ≠ job.path) }

/-- A hydration worker takes the `i`th job. After a success that follows failures a scan is
asked for. -/
def takeJob (i : ℕ) (skipped recovered : Bool) : Daemon σ τ :=
  match d.jobs[i]? with
  | none => d
  | some job =>
    let d := { d with jobs := d.jobs.eraseIdx i }.finishJob job skipped
    if recovered then d.requestRescan job.source else d

end Scans

/-! ## Runs -/

/-- The daemon as it starts. -/
def start (targets : σ → List τ) (rootSource : σ) (workers : σ → τ → ℕ) (paused : σ → τ → Bool)
    (now : ℤ) : Daemon σ τ where
  targets := targets
  rootSource := rootSource
  hydration := fun _ => ⟨false, false, []⟩
  target := fun s t =>
    ⟨Fanout.createFanout (max (workers s t) 2), paused s t, [], false, fun _ => 0⟩
  repairs := []
  jobs := []
  lastFullScan := now - 60000
  dropped := []

inductive Action (σ τ : Type*) where
  | push (s : σ) (t : τ) (e : Event) (path : Path)
  | receive (s : σ) (t : τ) (tin : EventTin) (worker : ℕ) (path : Option Path)
  | limitJournal (s : σ) (t : τ)
  | handled (s : σ) (t : τ) (o : Intake) (retried : Bool) (worker : ℕ) (e : Event) (x : AttemptEnd)
  | mountCheck (s : σ) (t : τ) (present : Bool)
  | workerExit (s : σ) (t : τ) (worker : ℕ)
  | checkRequests (s : σ) (now : ℤ)
  | health (s : σ) (t : τ) (now : ℤ) (probe : Probe)
  | takeRepair (now : ℤ) (accepted : τ → Bool)
  | submitJob (s : σ) (t : τ) (path : Path) (accepted : Bool)
  | targetedRescan (s : σ) (t : τ)
  | collectJournal (s : σ) (t : τ)
  | takeJob (i : ℕ) (skipped recovered : Bool)

def step (hash : U64 → ℕ) (d : Daemon σ τ) : Action σ τ → Daemon σ τ
  | .push s t e path => d.pushEvent s t hash e path
  | .receive s t tin worker path => d.receive s t tin worker path
  | .limitJournal s t => d.limitJournal s t
  | .handled s t o retried worker e x => d.handled s t o retried worker e x
  | .mountCheck s t present => d.mountCheck s t present
  | .workerExit s t worker => d.workerExit s t worker
  | .checkRequests s now => d.checkRequests s now
  | .health s t now probe => d.health s t now probe
  | .takeRepair now accepted => d.takeRepair now accepted
  | .submitJob s t path accepted => d.submitJob s t path accepted
  | .targetedRescan s t => d.targetedRescan s t
  | .collectJournal s t => d.collectJournal s t
  | .takeJob i skipped recovered => d.takeJob i skipped recovered

end Daemon

end Foxing
