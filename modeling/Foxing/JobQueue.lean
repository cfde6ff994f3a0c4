import Mathlib.Data.List.Basic
import Foxing.Lib.Pool
import Foxing.Lib.Run

/-!
# The queue of hydration jobs

Jobs get into the channels of the workers in turn. A worker takes a job and, if others are
waiting, a batch of them, copies the small files of the batch and then goes through the
rest. Repairs are asked for by path: the consumer of the requests records the path among
the active repairs and submits a job for every target, unless the path is there already.

Every access to the generations and to the channels is a step of its own, and the steps of
callers and workers follow each other in any order. What is found on the disks is given
with the step.
-/
namespace Foxing.JobQueue

/-- A job. The last three fields are not read: how often the generation had been bumped when
the call was made and when the job got into a channel, and whether it is part of a repair. -/
structure Job (π τ : Type*) where
  relPath : π
  target : τ
  inode : Option ℕ
  generation : ℕ
  calledAt : ℕ
  sentAt : ℕ
  repair : Bool
  deriving DecidableEq, Repr

/-- How a job ends. -/
inductive Exit
  | dropped
  | stale
  | storm
  | vanished
  | unchanged
  | completed
  | failed
  | closed
  deriving DecidableEq, Repr

/-- The path is taken from the active repairs when a job is completed or has failed. -/
def Exit.clears : Exit → Bool
  | .completed | .failed => true
  | _ => false

/-- What happens in a step: a job is taken in hand, or a job with the path ends. -/
inductive Event (π τ : Type*)
  | began (job : Job π τ)
  | stale (job : Job π τ)
  | ended (relPath : π) (repair : Bool) (exit : Exit)
  deriving DecidableEq, Repr

namespace Job
variable {π τ : Type*}

def ended (job : Job π τ) (exit : Exit) : Event π τ := .ended job.relPath job.repair exit

/-- What is said of a job where only its path matters. -/
def key (job : Job π τ) : π × Bool := (job.relPath, job.repair)

end Job

/-! ## Workers -/

/-- Where a worker is in its loop, with the jobs it has taken from its channel. -/
inductive Phase (π τ : Type*)
  | idle
  | received (job : Job π τ)
  | draining (currentGen : ℕ) (batch : List (Job π τ))
  | fast (todo remaining : List (Job π τ))
  | copying (job : Job π τ) (todo remaining : List (Job π τ))
  | slow (remaining : List (Job π τ))
  | single (job : Job π τ)
  | processing (job : Job π τ) (remaining : List (Job π τ))
  | exited
  deriving DecidableEq, Repr

structure Worker (π τ : Type*) where
  channel : List (Job π τ)
  phase : Phase π τ
  deriving DecidableEq, Repr

/-- The copy of a small file: the source may be missing before or after it. -/
inductive CopyEnd
  | missing
  | copied
  | renamed
  | error
  deriving DecidableEq, Repr

/-- What `process_hydration_job` returns. -/
inductive JobEnd
  | stats
  | none
  | error
  deriving DecidableEq, Repr

inductive WorkerAction
  | recv
  | check (renames : ℕ)
  | drain (renames : ℕ)
  | drained
  | pick (there : Bool)
  | copied (outcome : CopyEnd)
  | processed (outcome : JobEnd)
  | next
  | exit
  deriving DecidableEq, Repr

namespace Worker
variable {π τ : Type*}

/-- The inode of the job has renames that are not processed. -/
def stormy (job : Job π τ) (renames : ℕ) : Bool := job.inode.isSome && 0 < renames

/-- The checks of a job that has been received. The generation is read once for a batch. -/
def check (generation : ℕ) (w : Worker π τ) (job : Job π τ) (renames : ℕ) :
    Worker π τ × List (Event π τ) :=
  if job.generation < generation then ({ w with phase := .idle }, [.stale job, job.ended .stale])
  else if stormy job renames then ({ w with phase := .idle }, [job.ended .storm])
  else ({ w with phase := .draining generation [job] }, [])

/-- Another job is taken into the batch, unless it is stale or its inode is being renamed. -/
def drain (w : Worker π τ) (currentGen : ℕ) (batch : List (Job π τ)) (renames : ℕ) :
    Worker π τ × List (Event π τ) :=
  match w.channel with
  | [] => (w, [])
  | job :: channel =>
    if 64 ≤ batch.length then (w, [])
    else if job.generation < currentGen then
      ({ w with channel := channel }, [.stale job, job.ended .stale])
    else if stormy job renames then ({ w with channel := channel }, [job.ended .storm])
    else (⟨channel, .draining currentGen (batch ++ [job])⟩, [])

/-- The batch is full or the channel is empty. -/
def drained (w : Worker π τ) (batch : List (Job π τ)) : Worker π τ :=
  if w.channel = [] ∨ 64 ≤ batch.length then
    match batch with
    | [job] => { w with phase := .single job }
    | batch => { w with phase := .fast batch [] }
  else w

/-- In the first loop over a batch `there` says that the source is a small file, in the others
that it exists; what does not exist is removed from the target. -/
def pick (w : Worker π τ) (there : Bool) : Worker π τ × List (Event π τ) :=
  match w.phase with
  | .fast (job :: todo) remaining =>
    if there then ({ w with phase := .copying job todo remaining }, [.began job])
    else ({ w with phase := .fast todo (remaining ++ [job]) }, [])
  | .slow (job :: remaining) =>
    if there then ({ w with phase := .processing job remaining }, [.began job])
    else ({ w with phase := .slow remaining }, [.began job, job.ended .vanished])
  | .single job =>
    if there then ({ w with phase := .processing job [] }, [.began job])
    else ({ w with phase := .idle }, [.began job, job.ended .vanished])
  | _ => (w, [])

/-- A small file that could not be copied is left to the second loop. -/
def copied (w : Worker π τ) (job : Job π τ) (todo remaining : List (Job π τ)) :
    CopyEnd → Worker π τ × List (Event π τ)
  | .missing => ({ w with phase := .fast todo remaining }, [job.ended .vanished])
  | .copied => ({ w with phase := .fast todo remaining }, [job.ended .completed])
  | .renamed => ({ w with phase := .fast todo remaining }, [job.ended .vanished])
  | .error => ({ w with phase := .fast todo (remaining ++ [job]) }, [])

def processed (w : Worker π τ) (job : Job π τ) (remaining : List (Job π τ)) :
    JobEnd → Worker π τ × List (Event π τ)
  | .stats => ({ w with phase := .slow remaining }, [job.ended .completed])
  | .none => ({ w with phase := .slow remaining }, [job.ended .unchanged])
  | .error => ({ w with phase := .slow remaining }, [job.ended .failed])

/-- A worker that ends its loop closes its channel. -/
def exit (w : Worker π τ) : Worker π τ × List (Event π τ) :=
  (⟨[], .exited⟩, w.channel.map fun job => job.ended .closed)

/-- A step of a worker; what is not possible changes nothing. -/
def step (generation : ℕ) (w : Worker π τ) : WorkerAction → Worker π τ × List (Event π τ)
  | .recv =>
    match w.phase, w.channel with
    | .idle, job :: channel => (⟨channel, .received job⟩, [])
    | _, _ => (w, [])
  | .check renames =>
    match w.phase with
    | .received job => w.check generation job renames
    | _ => (w, [])
  | .drain renames =>
    match w.phase with
    | .draining currentGen batch => w.drain currentGen batch renames
    | _ => (w, [])
  | .drained =>
    match w.phase with
    | .draining _ batch => (w.drained batch, [])
    | _ => (w, [])
  | .pick there => w.pick there
  | .copied outcome =>
    match w.phase with
    | .copying job todo remaining => w.copied job todo remaining outcome
    | _ => (w, [])
  | .processed outcome =>
    match w.phase with
    | .processing job remaining => w.processed job remaining outcome
    | _ => (w, [])
  | .next =>
    match w.phase with
    | .fast [] remaining => ({ w with phase := .slow remaining }, [])
    | .slow [] => ({ w with phase := .idle }, [])
    | _ => (w, [])
  | .exit =>
    match w.phase with
    | .idle => w.exit
    | _ => (w, [])

end Worker

/-! ## Submission -/

/-- A call of `submit_job`, which tries again while the channel is full, or of
`try_submit_job_sync`: it has been made, or the job is to be sent to a worker. -/
inductive Call (π τ : Type*)
  | entered (relPath : π) (target : τ) (inode : Option ℕ) (calledAt : ℕ) (repair retries : Bool)
  | made (job : Job π τ) (worker attempts : ℕ) (retries : Bool)
  deriving DecidableEq, Repr

/-- The request that the consumer is at: the targets without a call, and the call. -/
structure Request (π τ : Type*) where
  relPath : π
  inode : Option ℕ
  targets : List τ
  call : Option (Call π τ)
  deriving DecidableEq, Repr

/-- The queue and its users. The workers have a counter of their own for the generation. -/
structure State (π τ : Type*) where
  activeRepairs : List π
  generation : ℕ
  workerGeneration : ℕ
  shutdown : Bool
  nextWorker : ℕ
  workers : List (Worker π τ)
  calls : List (Call π τ)
  request : Option (Request π τ)
  deriving DecidableEq, Repr

inductive Action (π τ : Type*)
  | request (relPath : π) (inode : Option ℕ)
  | nextTarget
  | advanceRequest
  | submit (relPath : π) (target : τ) (inode : Option ℕ)
  | advanceCall (i : ℕ)
  | bumpGeneration
  | signalShutdown
  | worker (i : ℕ) (a : WorkerAction)
  deriving DecidableEq, Repr

/-- What the queue is made with: the targets, and the room in a channel. -/
structure Setting (τ : Type*) where
  targets : List τ
  perWorkerCapacity : ℕ

def backpressureTimeoutAttempts : ℕ := 120

/-- The channel has not been closed. -/
def Worker.isOpen {π τ : Type*} (w : Worker π τ) : Bool :=
  match w.phase with
  | .exited => false
  | _ => true

namespace State
variable {π τ : Type*}

/-- A call does nothing if the queue is shut down or has no workers. -/
def refuses (s : State π τ) : Bool := s.shutdown || s.workers.isEmpty

/-- A job that is sent is the last one in the channel of the worker. -/
def push (s : State π τ) (job : Job π τ) (worker : ℕ) (w : Worker π τ) : State π τ :=
  let job := { job with sentAt := s.generation }
  { s with workers := s.workers.set worker ⟨w.channel ++ [job], w.phase⟩ }

/-- The next step of a call: the job gets the generation of the queue and a worker, and is then
sent if there is room. The call is given back unless it has ended. -/
def advance (setting : Setting τ) (s : State π τ) :
    Call π τ → State π τ × Option (Call π τ) × List (Event π τ)
  | .entered relPath target inode calledAt repair retries =>
    ({ s with nextWorker := s.nextWorker + 1 },
      some (.made ⟨relPath, target, inode, s.generation, calledAt, calledAt, repair⟩
        (s.nextWorker % s.workers.length) 0 retries), [])
  | .made job worker attempts retries =>
    if retries && s.shutdown then (s, none, [job.ended .dropped])
    else
      match s.workers[worker]? with
      | none => (s, none, [job.ended .dropped])
      | some w =>
        if !w.isOpen then (s, none, [job.ended .dropped])
        else if w.channel.length < setting.perWorkerCapacity then
          (s.push job worker w, none, [])
        else if retries && attempts + 1 < backpressureTimeoutAttempts then
          (s, some (.made job worker (attempts + 1) retries), [])
        else (s, none, [job.ended .dropped])

/-- The paths that are taken from the active repairs. -/
def cleared (es : List (Event π τ)) : List π :=
  es.filterMap fun e =>
    match e with
    | .ended relPath _ exit => if exit.clears then some relPath else none
    | _ => none

/-- The calls after a step of one of them. -/
def settle (calls : List (Call π τ)) (i : ℕ) : Option (Call π τ) → List (Call π τ)
  | none => calls.eraseIdx i
  | some call => calls.set i call

/-- The next target of a request, or the end of it. -/
def nextTarget (s : State π τ) (r : Request π τ) : State π τ × List (Event π τ) :=
  match r.targets with
  | [] => ({ s with request := none }, [])
  | target :: targets =>
    if s.refuses then
      ({ s with request := some { r with targets := targets } },
        [.ended r.relPath true .dropped])
    else
      let call := .entered r.relPath target r.inode s.generation true true
      ({ s with request := some { r with targets := targets, call := some call } }, [])

variable [DecidableEq π]

/-- A step, and what happens in it; what is not possible changes nothing. -/
def next (setting : Setting τ) (s : State π τ) : Action π τ → State π τ × List (Event π τ)
  | .request relPath inode =>
    if s.request.isSome || relPath ∈ s.activeRepairs then (s, [])
    else
      ({ s with
        activeRepairs := relPath :: s.activeRepairs
        request := some ⟨relPath, inode, setting.targets, none⟩ }, [])
  | .nextTarget =>
    match s.request with
    | some ⟨relPath, inode, targets, none⟩ => s.nextTarget ⟨relPath, inode, targets, none⟩
    | _ => (s, [])
  | .advanceRequest =>
    match s.request with
    | some ⟨relPath, inode, targets, some call⟩ =>
      let x := s.advance setting call
      ({ x.1 with request := some ⟨relPath, inode, targets, x.2.1⟩ }, x.2.2)
    | _ => (s, [])
  | .submit relPath target inode =>
    if s.refuses then (s, [])
    else
      let call := .entered relPath target inode s.generation false false
      ({ s with calls := s.calls ++ [call] }, [])
  | .advanceCall i =>
    match s.calls[i]? with
    | none => (s, [])
    | some call =>
      let x := s.advance setting call
      ({ x.1 with calls := settle s.calls i x.2.1 }, x.2.2)
  | .bumpGeneration => ({ s with generation := s.generation + 1 }, [])
  | .signalShutdown => ({ s with shutdown := true }, [])
  | .worker i a =>
    match s.workers[i]? with
    | none => (s, [])
    | some w =>
      let x := w.step s.workerGeneration a
      ({ s with
        workers := s.workers.set i x.1
        activeRepairs := s.activeRepairs.filter fun p => p ∉ cleared x.2 }, x.2)

def step (setting : Setting τ) (s : State π τ) (a : Action π τ) : State π τ :=
  (s.next setting a).1

end State

/-- A new queue: it is given a counter for the generation that is not that of its workers. -/
def State.init (π τ : Type*) (workerCount : ℕ) : State π τ :=
  ⟨[], 0, 0, false, 0, List.replicate workerCount ⟨[], .idle⟩, [], none⟩

/-! ## What a worker does -/

/-- The jobs that a worker has taken and has still to take in hand. -/
def Phase.waiting {π τ : Type*} : Phase π τ → List (Job π τ)
  | .idle | .exited => []
  | .received job | .single job => [job]
  | .draining _ batch => batch
  | .fast todo remaining => todo ++ remaining
  | .copying job todo remaining => job :: (todo ++ remaining)
  | .slow remaining | .processing _ remaining => remaining

/-- The jobs that a worker has taken. -/
def Phase.jobs {π τ : Type*} : Phase π τ → List (Job π τ)
  | .processing job remaining => job :: remaining
  | phase => phase.waiting

namespace Worker
variable {π τ : Type*}

def waiting (w : Worker π τ) : List (Job π τ) := w.channel ++ w.phase.waiting

def jobs (w : Worker π τ) : List (Job π τ) := w.channel ++ w.phase.jobs

/-- The generation with which a worker compares the next job. -/
def compared (generation : ℕ) (w : Worker π τ) : ℕ :=
  match w.phase with
  | .draining currentGen _ => currentGen
  | _ => generation

/-- Jobs end one by one unless the worker itself does; before that they are only moved. A job
is taken in hand while it is waiting. -/
inductive Moves (generation : ℕ) (w w' : Worker π τ) : List (Event π τ) → Prop
  | silent (hjobs : w.jobs.Perm w'.jobs) : Moves generation w w' []
  | began {job : Job π τ} (hwaiting : job ∈ w.waiting) (hjobs : w.jobs.Perm w'.jobs) :
    Moves generation w w' [.began job]
  | vanished {job : Job π τ} (hwaiting : job ∈ w.waiting) (hjobs : w.jobs.Perm (job :: w'.jobs)) :
    Moves generation w w' [.began job, job.ended .vanished]
  | stale {job : Job π τ} (hstale : job.generation < w.compared generation)
    (hjobs : w.jobs.Perm (job :: w'.jobs)) :
    Moves generation w w' [.stale job, job.ended .stale]
  | ended {job : Job π τ} {exit : Exit} (hjobs : w.jobs.Perm (job :: w'.jobs)) :
    Moves generation w w' [job.ended exit]
  | exited (hphase : w.phase = .idle) (hjobs : w'.jobs = []) :
    Moves generation w w' (w.channel.map fun job => job.ended .closed)

/-- A job goes from the front of a list to the end of another. -/
theorem perm_last {α : Type*} (x : α) (a b : List α) : (x :: (a ++ b)).Perm (a ++ (b ++ [x])) := by
  rw [← List.append_assoc]
  exact (List.perm_append_singleton x (a ++ b)).symm

section Moves
variable {generation : ℕ} {w : Worker π τ} {job : Job π τ}

theorem moves_check (hphase : w.phase = .received job) (renames : ℕ) :
    Moves generation w (w.check generation job renames).1 (w.check generation job renames).2 := by
  obtain ⟨channel, phase⟩ := w
  cases hphase
  unfold check
  split_ifs with hstale hstorm
  · exact .stale hstale List.perm_middle
  · exact .ended List.perm_middle
  · exact .silent (List.Perm.refl _)

theorem moves_drain {currentGen : ℕ} {batch : List (Job π τ)}
    (hphase : w.phase = .draining currentGen batch) (renames : ℕ) :
    Moves generation w (w.drain currentGen batch renames).1
      (w.drain currentGen batch renames).2 := by
  obtain ⟨channel, phase⟩ := w
  cases hphase
  unfold drain
  cases channel with
  | nil => exact .silent (List.Perm.refl _)
  | cons job channel =>
    dsimp only
    split_ifs with hfull hstale hstorm
    · exact .silent (List.Perm.refl _)
    · exact .stale hstale (List.Perm.refl _)
    · exact .ended (List.Perm.refl _)
    · exact .silent (perm_last job channel batch)

theorem moves_drained {currentGen : ℕ} {batch : List (Job π τ)}
    (hphase : w.phase = .draining currentGen batch) :
    Moves generation w (w.drained batch) [] := by
  obtain ⟨channel, phase⟩ := w
  cases hphase
  refine .silent ?_
  unfold drained
  split_ifs
  · split
    · exact List.Perm.refl _
    · simp [jobs, Phase.jobs, Phase.waiting]
  · exact List.Perm.refl _

theorem moves_pick (there : Bool) :
    Moves generation w (w.pick there).1 (w.pick there).2 := by
  obtain ⟨channel, phase⟩ := w
  unfold pick
  dsimp only
  split
  case h_1 job todo remaining =>
    cases there with
    | true => exact .began (by simp [waiting, Phase.waiting]) (List.Perm.refl _)
    | false => exact .silent ((perm_last job todo remaining).append_left channel)
  case h_2 job remaining =>
    cases there with
    | true => exact .began (by simp [waiting, Phase.waiting]) (List.Perm.refl _)
    | false => exact .vanished (by simp [waiting, Phase.waiting]) List.perm_middle
  case h_3 job =>
    cases there with
    | true => exact .began (by simp [waiting, Phase.waiting]) (List.Perm.refl _)
    | false => exact .vanished (by simp [waiting, Phase.waiting]) List.perm_middle
  case h_4 => exact .silent (List.Perm.refl _)

theorem moves_copied {todo remaining : List (Job π τ)}
    (hphase : w.phase = .copying job todo remaining) (outcome : CopyEnd) :
    Moves generation w (w.copied job todo remaining outcome).1
      (w.copied job todo remaining outcome).2 := by
  obtain ⟨channel, phase⟩ := w
  cases hphase
  cases outcome with
  | missing => exact .ended List.perm_middle
  | copied => exact .ended List.perm_middle
  | renamed => exact .ended List.perm_middle
  | error => exact .silent ((perm_last job todo remaining).append_left channel)

theorem moves_processed {remaining : List (Job π τ)}
    (hphase : w.phase = .processing job remaining) (outcome : JobEnd) :
    Moves generation w (w.processed job remaining outcome).1
      (w.processed job remaining outcome).2 := by
  obtain ⟨channel, phase⟩ := w
  cases hphase
  cases outcome with
  | stats => exact .ended List.perm_middle
  | none => exact .ended List.perm_middle
  | error => exact .ended List.perm_middle

/-- All that a worker can do. -/
theorem moves_step (generation : ℕ) (w : Worker π τ) (a : WorkerAction) :
    Moves generation w (w.step generation a).1 (w.step generation a).2 := by
  have hstay : Moves generation w w [] := .silent (List.Perm.refl _)
  cases a with
  | recv =>
    obtain ⟨channel, phase⟩ := w
    cases phase with
    | idle =>
      cases channel with
      | nil => exact hstay
      | cons job channel => exact .silent (perm_last job channel [])
    | _ => exact hstay
  | check renames =>
    cases hphase : w.phase with
    | received job =>
      simp only [step, hphase]
      exact moves_check hphase renames
    | _ =>
      simp only [step, hphase]
      exact hstay
  | drain renames =>
    cases hphase : w.phase with
    | draining currentGen batch =>
      simp only [step, hphase]
      exact moves_drain hphase renames
    | _ =>
      simp only [step, hphase]
      exact hstay
  | drained =>
    cases hphase : w.phase with
    | draining currentGen batch =>
      simp only [step, hphase]
      exact moves_drained hphase
    | _ =>
      simp only [step, hphase]
      exact hstay
  | pick there => exact moves_pick there
  | copied outcome =>
    cases hphase : w.phase with
    | copying job todo remaining =>
      simp only [step, hphase]
      exact moves_copied hphase outcome
    | _ =>
      simp only [step, hphase]
      exact hstay
  | processed outcome =>
    cases hphase : w.phase with
    | processing job remaining =>
      simp only [step, hphase]
      exact moves_processed hphase outcome
    | _ =>
      simp only [step, hphase]
      exact hstay
  | next =>
    obtain ⟨channel, phase⟩ := w
    unfold step
    dsimp only
    split
    · exact .silent (List.Perm.refl _)
    · exact .silent (List.Perm.refl _)
    · exact hstay
  | exit =>
    cases hphase : w.phase with
    | idle =>
      simp only [step, hphase]
      exact .exited hphase rfl
    | _ =>
      simp only [step, hphase]
      exact hstay

end Moves

end Worker

/-! ## What a call does -/

/-- The path of a call, and whether it is part of a repair. -/
def Call.key {π τ : Type*} : Call π τ → π × Bool
  | .entered relPath _ _ _ repair _ => (relPath, repair)
  | .made job _ _ _ => job.key

namespace State
variable {π τ : Type*}

/-- A call goes on, or ends without a job, or adds the job to a channel. -/
inductive Advances (s : State π τ) (call : Call π τ) :
    State π τ × Option (Call π τ) × List (Event π τ) → Prop
  | goesOn {nextWorker : ℕ} {call' : Call π τ} (hkey : call'.key = call.key) :
    Advances s call ({ s with nextWorker := nextWorker }, some call', [])
  | drops : Advances s call (s, none, [.ended call.key.1 call.key.2 .dropped])
  | sends {job : Job π τ} {worker : ℕ} {w : Worker π τ} (hworker : s.workers[worker]? = some w)
    (hkey : job.key = call.key) : Advances s call (s.push job worker w, none, [])

theorem advances (setting : Setting τ) (s : State π τ) (call : Call π τ) :
    Advances s call (s.advance setting call) := by
  cases call with
  | entered relPath target inode calledAt repair retries => exact .goesOn rfl
  | made job worker attempts retries =>
    dsimp only [advance]
    by_cases hshut : (retries && s.shutdown) = true
    · rw [if_pos hshut]
      exact .drops
    · rw [if_neg hshut]
      cases hworker : s.workers[worker]? with
      | none => exact .drops
      | some w =>
        dsimp only
        split_ifs
        · exact .drops
        · exact .sends hworker rfl
        · exact @Advances.goesOn _ _ s _ s.nextWorker _ rfl
        · exact .drops

end State

end Foxing.JobQueue
