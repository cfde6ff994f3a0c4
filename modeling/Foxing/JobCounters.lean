import Mathlib.Algebra.BigOperators.Group.List.Basic
import Mathlib.Algebra.Order.Group.Nat
import Mathlib.Algebra.GroupWithZero.Nat
import Foxing.ActiveRepairs

/-!
# The counters of the hydration jobs

The queue counts a job up when it is made and down when it ends; each worker counts the
jobs it has processed, and of these the skipped and the failed ones. Both are kept here
beside the queue, and compared with the jobs there are. A job that is still in the channel
of a worker when that ends is not counted down, and some ways to skip a job do not count
it as processed.
-/
namespace Foxing.JobQueue

/-- The counters of a worker. -/
structure Totals where
  processed : ℕ
  skipped : ℕ
  failed : ℕ
  deriving DecidableEq, Repr

/-- The subtractions in the messages of the worker do not underflow. -/
def Totals.Sound (t : Totals) : Prop := t.skipped + t.failed ≤ t.processed

instance (t : Totals) : Decidable t.Sound := inferInstanceAs (Decidable (_ ≤ _))

/-- What a worker counts when a job ends in a step. A small file of a batch that has vanished
is not counted as processed, other files are. -/
def Totals.count {π τ : Type*} (a : WorkerAction) (t : Totals) : Event π τ → Totals
  | .ended _ _ .stale | .ended _ _ .storm => { t with skipped := t.skipped + 1 }
  | .ended _ _ .vanished =>
    match a with
    | .copied _ => { t with skipped := t.skipped + 1 }
    | _ => { t with skipped := t.skipped + 1, processed := t.processed + 1 }
  | .ended _ _ .completed => { t with processed := t.processed + 1 }
  | .ended _ _ .unchanged => { t with skipped := t.skipped + 1, processed := t.processed + 1 }
  | .ended _ _ .failed => { t with failed := t.failed + 1, processed := t.processed + 1 }
  | _ => t

namespace Event
variable {π τ : Type*}

def isEnd : Event π τ → Bool
  | .ended .. => true
  | _ => false

/-- A job that is in the channel of a worker that ends is not counted down. -/
def countsDown : Event π τ → Bool
  | .ended _ _ .closed => false
  | .ended .. => true
  | _ => false

end Event

/-- The job has been made, and counted. -/
def Call.isMade {π τ : Type*} : Call π τ → Bool
  | .entered .. => false
  | .made .. => true

namespace State
variable {π τ : Type*}

def beingSubmitted (s : State π τ) : ℕ :=
  ((s.request.bind Request.call).toList ++ s.calls).countP Call.isMade

def withWorkers (s : State π τ) : ℕ := (s.workers.map fun w => w.jobs.length).sum

/-- The jobs that are being submitted, wait in a channel or are with a worker. -/
def inFlight (s : State π τ) : ℕ := s.beingSubmitted + s.withWorkers

/-- The call that goes on in a step. -/
def called (s : State π τ) : Action π τ → Option (Call π τ)
  | .advanceRequest => s.request.bind Request.call
  | .advanceCall i => s.calls[i]?
  | _ => none

end State

/-- The queue with its counter of pending jobs and the counters of the workers. -/
structure Counted (π τ : Type*) where
  queue : State π τ
  pendingCount : ℤ
  totals : ℕ → Totals

namespace Counted
variable {π τ : Type*}

def init (π τ : Type*) (workerCount : ℕ) : Counted π τ :=
  ⟨State.init π τ workerCount, 0, fun _ => ⟨0, 0, 0⟩⟩

/-- The counter goes up when a call makes its job, and down when the job ends. A call that is
refused has no job yet. -/
def countPending (c : Counted π τ) (a : Action π τ) (es : List (Event π τ)) : ℤ :=
  match a with
  | .nextTarget => c.pendingCount
  | a =>
    c.pendingCount + (c.queue.called a).toList.countP (fun call => !call.isMade) -
      es.countP Event.countsDown

def countTotals (c : Counted π τ) (a : Action π τ) (es : List (Event π τ)) : ℕ → Totals :=
  match a with
  | .worker i b => Function.update c.totals i (es.foldl (Totals.count b) (c.totals i))
  | _ => c.totals

variable [DecidableEq π]

def step (setting : Setting τ) (c : Counted π τ) (a : Action π τ) : Counted π τ :=
  let x := c.queue.next setting a
  ⟨x.1, c.countPending a x.2, c.countTotals a x.2⟩

/-- The counter of pending jobs is their number, and the counters of the workers fit. -/
structure Accounted (c : Counted π τ) : Prop where
  pending : c.pendingCount = c.queue.inFlight
  totals : ∀ i, (c.totals i).Sound

end Counted

/-! ## Steps that keep the counters right -/

namespace Worker
variable {π τ : Type*}

/-- A job is skipped in this step and is not counted as processed: it is stale or its inode is
being renamed, or it is a small file of a batch that is missing or has been renamed. -/
def SkipsUncounted (generation : ℕ) (w : Worker π τ) : WorkerAction → Prop
  | .check renames => ∃ job, w.phase = .received job ∧
      (job.generation < generation ∨ stormy job renames = true)
  | .drain renames => ∃ currentGen batch job channel, w.phase = .draining currentGen batch ∧
      w.channel = job :: channel ∧ batch.length < 64 ∧
      (job.generation < currentGen ∨ stormy job renames = true)
  | .copied outcome => (∃ job todo remaining, w.phase = .copying job todo remaining) ∧
      (outcome = .missing ∨ outcome = .renamed)
  | _ => False

/-- The worker ends with jobs in its channel. -/
def LeavesJobs (w : Worker π τ) (a : WorkerAction) : Prop :=
  a = .exit ∧ w.phase = .idle ∧ w.channel ≠ []

end Worker

/-- No worker ends with jobs in its channel, and where a job is skipped without being counted as
processed, the counters of the worker leave room for it. -/
def Counted.Safe {π τ : Type*} (c : Counted π τ) : Action π τ → Prop
  | .worker i a => ∀ w, c.queue.workers[i]? = some w → ¬ w.LeavesJobs a ∧
      (w.SkipsUncounted c.queue.workerGeneration a →
        (c.totals i).skipped + (c.totals i).failed < (c.totals i).processed)
  | _ => True

/-! ## What a worker counts -/

section Totals
variable {π τ : Type*} {generation : ℕ} {w : Worker π τ} {t : Totals}

theorem foldl_count_closed (jobs : List (Job π τ)) (a : WorkerAction) :
    (jobs.map fun job => job.ended .closed).foldl (Totals.count a) t = t := by
  induction jobs with
  | nil => rfl
  | cons job jobs ih => exact ih

/-- Skipping a job that is not counted as processed needs a completed one. -/
theorem sound_skip_iff :
    Totals.Sound { t with skipped := t.skipped + 1 } ↔ t.skipped + t.failed < t.processed := by
  simp only [Totals.Sound]
  omega

theorem sound_check_iff (ht : t.Sound) {job : Job π τ} (hphase : w.phase = .received job)
    (renames : ℕ) :
    ((w.check generation job renames).2.foldl (Totals.count (.check renames)) t).Sound ↔
      (w.SkipsUncounted generation (.check renames) →
        t.skipped + t.failed < t.processed) := by
  have hskips : w.SkipsUncounted generation (.check renames) ↔
      job.generation < generation ∨ Worker.stormy job renames = true := by
    simp [Worker.SkipsUncounted, hphase]
  rw [hskips]
  unfold Worker.check
  split_ifs with hstale hstorm
  · exact sound_skip_iff.trans ⟨fun h _ => h, fun h => h (.inl hstale)⟩
  · exact sound_skip_iff.trans ⟨fun h _ => h, fun h => h (.inr hstorm)⟩
  · exact ⟨fun _ h => absurd h (not_or.mpr ⟨hstale, hstorm⟩), fun _ => ht⟩

theorem sound_drain_iff (ht : t.Sound) {currentGen : ℕ} {batch : List (Job π τ)}
    (hphase : w.phase = .draining currentGen batch) (renames : ℕ) :
    ((w.drain currentGen batch renames).2.foldl (Totals.count (.drain renames)) t).Sound ↔
      (w.SkipsUncounted generation (.drain renames) →
        t.skipped + t.failed < t.processed) := by
  have hskips : w.SkipsUncounted generation (.drain renames) ↔ ∃ job channel,
      w.channel = job :: channel ∧ batch.length < 64 ∧
        (job.generation < currentGen ∨ Worker.stormy job renames = true) := by
    simp [Worker.SkipsUncounted, hphase]
  rw [hskips]
  unfold Worker.drain
  cases w.channel with
  | nil =>
    refine ⟨fun _ h => ?_, fun _ => ht⟩
    obtain ⟨_, _, hcons, -⟩ := h
    cases hcons
  | cons job channel =>
    have hhead : (∃ job' channel', job :: channel = job' :: channel' ∧ batch.length < 64 ∧
        (job'.generation < currentGen ∨ Worker.stormy job' renames = true)) ↔
        batch.length < 64 ∧ (job.generation < currentGen ∨ Worker.stormy job renames = true) := by
      simp
    rw [hhead]
    dsimp only
    split_ifs with hfull hstale hstorm
    · exact ⟨fun _ h => absurd h.1 (not_lt.mpr hfull), fun _ => ht⟩
    · exact sound_skip_iff.trans ⟨fun h _ => h, fun h => h ⟨not_le.mp hfull, .inl hstale⟩⟩
    · exact sound_skip_iff.trans ⟨fun h _ => h, fun h => h ⟨not_le.mp hfull, .inr hstorm⟩⟩
    · exact ⟨fun _ h => absurd h.2 (not_or.mpr ⟨hstale, hstorm⟩), fun _ => ht⟩

theorem sound_pick (ht : t.Sound) (there : Bool) :
    ((w.pick there).2.foldl (Totals.count (.pick there)) t).Sound := by
  have hvanished :
      Totals.Sound { t with skipped := t.skipped + 1, processed := t.processed + 1 } := by
    simp only [Totals.Sound] at ht ⊢
    omega
  unfold Worker.pick
  split <;> cases there
  all_goals first | exact ht | exact hvanished

theorem sound_copied_iff (ht : t.Sound) {job : Job π τ} {todo remaining : List (Job π τ)}
    (hphase : w.phase = .copying job todo remaining) (outcome : CopyEnd) :
    ((w.copied job todo remaining outcome).2.foldl (Totals.count (.copied outcome)) t).Sound ↔
      (w.SkipsUncounted generation (.copied outcome) →
        t.skipped + t.failed < t.processed) := by
  have hskips : w.SkipsUncounted generation (.copied outcome) ↔
      outcome = .missing ∨ outcome = .renamed := by
    simp [Worker.SkipsUncounted, hphase]
  rw [hskips]
  cases outcome with
  | missing => exact sound_skip_iff.trans ⟨fun h _ => h, fun h => h (.inl rfl)⟩
  | renamed => exact sound_skip_iff.trans ⟨fun h _ => h, fun h => h (.inr rfl)⟩
  | copied =>
    have hcopied : Totals.Sound { t with processed := t.processed + 1 } := ht.trans (Nat.le_succ _)
    exact ⟨fun _ h => by simp at h, fun _ => hcopied⟩
  | error => exact ⟨fun _ h => by simp at h, fun _ => ht⟩

theorem sound_processed (ht : t.Sound) (job : Job π τ) (remaining : List (Job π τ))
    (outcome : JobEnd) :
    ((w.processed job remaining outcome).2.foldl (Totals.count (.processed outcome)) t).Sound := by
  cases outcome with
  | stats => exact ht.trans (Nat.le_succ _)
  | none =>
    show t.skipped + 1 + t.failed ≤ t.processed + 1
    simp only [Totals.Sound] at ht
    omega
  | error => exact Nat.succ_le_succ ht

theorem events_silent (w : Worker π τ) {a : WorkerAction}
    (ha : a = .recv ∨ a = .drained ∨ a = .next) : (w.step generation a).2 = [] := by
  rcases ha with rfl | rfl | rfl
  all_goals
    unfold Worker.step
    dsimp only
    split <;> rfl

/-- The counters of a worker still fit after its step, exactly if a job that is skipped without
being counted as processed leaves room for it. -/
theorem sound_step_iff (ht : t.Sound) (a : WorkerAction) :
    ((w.step generation a).2.foldl (Totals.count a) t).Sound ↔
      (w.SkipsUncounted generation a → t.skipped + t.failed < t.processed) := by
  have hkept : (w.SkipsUncounted generation a → False) → (t.Sound ↔
      (w.SkipsUncounted generation a → t.skipped + t.failed < t.processed)) :=
    fun hnot => ⟨fun _ h => absurd h hnot, fun _ => ht⟩
  cases a with
  | recv =>
    rw [events_silent w (by simp)]
    exact hkept id
  | check renames =>
    cases hphase : w.phase with
    | received job =>
      simp only [Worker.step, hphase]
      exact sound_check_iff ht hphase renames
    | _ =>
      simp only [Worker.step, hphase]
      exact hkept (by simp [Worker.SkipsUncounted, hphase])
  | drain renames =>
    cases hphase : w.phase with
    | draining currentGen batch =>
      simp only [Worker.step, hphase]
      exact sound_drain_iff ht hphase renames
    | _ =>
      simp only [Worker.step, hphase]
      exact hkept (by simp [Worker.SkipsUncounted, hphase])
  | drained =>
    rw [events_silent w (by simp)]
    exact hkept id
  | pick there => exact ⟨fun _ h => absurd h id, fun _ => sound_pick ht there⟩
  | copied outcome =>
    cases hphase : w.phase with
    | copying job todo remaining =>
      simp only [Worker.step, hphase]
      exact sound_copied_iff ht hphase outcome
    | _ =>
      simp only [Worker.step, hphase]
      exact hkept (by simp [Worker.SkipsUncounted, hphase])
  | processed outcome =>
    refine ⟨fun _ h => absurd h id, fun _ => ?_⟩
    cases hphase : w.phase with
    | processing job remaining =>
      simp only [Worker.step, hphase]
      exact sound_processed ht job remaining outcome
    | _ =>
      simp only [Worker.step, hphase]
      exact ht
  | next =>
    rw [events_silent w (by simp)]
    exact hkept id
  | exit =>
    refine ⟨fun _ h => absurd h id, fun _ => ?_⟩
    cases hphase : w.phase with
    | idle =>
      simp only [Worker.step, hphase, Worker.exit]
      rw [foldl_count_closed]
      exact ht
    | _ =>
      simp only [Worker.step, hphase]
      exact ht

end Totals

/-! ## What the queue counts -/

section Pending
variable {π τ : Type*} {generation : ℕ}

theorem countP_closed (jobs : List (Job π τ)) :
    (jobs.map fun job => job.ended .closed).countP Event.countsDown = 0 := by
  rw [List.countP_eq_zero]
  simp [Job.ended, Event.countsDown]

/-- The jobs that end in a step of a worker are gone from it. -/
theorem length_jobs_step (generation : ℕ) (w : Worker π τ) (a : WorkerAction) :
    w.jobs.length =
      (w.step generation a).2.countP Event.isEnd + (w.step generation a).1.jobs.length := by
  have hmoves := Worker.moves_step generation w a
  generalize w.step generation a = x at hmoves
  obtain ⟨w', es⟩ := x
  dsimp only at hmoves ⊢
  cases hmoves with
  | silent hjobs => simpa using hjobs.length_eq
  | began _ hjobs => simpa [Event.isEnd] using hjobs.length_eq
  | vanished _ hjobs | stale _ hjobs | ended hjobs =>
    simpa [Event.isEnd, Job.ended, Nat.add_comm] using hjobs.length_eq
  | exited hphase hjobs =>
    have hall : (w.channel.map fun job => job.ended .closed).countP Event.isEnd =
        w.channel.length := by
      rw [List.countP_eq_length.mpr (by simp [Job.ended, Event.isEnd]), List.length_map]
    rw [hall, hjobs]
    simp [Worker.jobs, hphase, Phase.jobs, Phase.waiting]

/-- Except by the end of the worker, a job is counted down when it ends. -/
theorem countsDown_eq_isEnd (w : Worker π τ) {a : WorkerAction} (ha : a ≠ .exit) :
    ∀ e ∈ (w.step generation a).2, e.countsDown = e.isEnd := by
  have hnil : ∀ e ∈ ([] : List (Event π τ)), e.countsDown = e.isEnd := by simp
  cases a with
  | recv | drained | next =>
    rw [events_silent w (by simp)]
    exact hnil
  | check renames =>
    unfold Worker.step Worker.check
    dsimp only
    split
    · split_ifs <;> simp [Job.ended, Event.countsDown, Event.isEnd]
    · exact hnil
  | drain renames =>
    unfold Worker.step Worker.drain
    dsimp only
    split
    · split
      · exact hnil
      · split_ifs <;> simp [Job.ended, Event.countsDown, Event.isEnd]
    · exact hnil
  | pick there =>
    unfold Worker.step Worker.pick
    dsimp only
    split <;> cases there <;> simp [Job.ended, Event.countsDown, Event.isEnd]
  | copied outcome =>
    unfold Worker.step
    dsimp only
    split
    · cases outcome <;> simp [Worker.copied, Job.ended, Event.countsDown, Event.isEnd]
    · exact hnil
  | processed outcome =>
    unfold Worker.step
    dsimp only
    split
    · cases outcome <;> simp [Worker.processed, Job.ended, Event.countsDown, Event.isEnd]
    · exact hnil
  | exit => exact absurd rfl ha

/-- All jobs that end are counted down, unless the worker leaves some in its channel. -/
theorem countP_step_iff (generation : ℕ) (w : Worker π τ) (a : WorkerAction) :
    (w.step generation a).2.countP Event.countsDown = (w.step generation a).2.countP Event.isEnd ↔
      ¬ w.LeavesJobs a := by
  by_cases ha : a = .exit
  swap
  · rw [List.countP_congr fun e he => by rw [countsDown_eq_isEnd w ha e he]]
    exact iff_of_true rfl fun h => ha h.1
  subst ha
  cases hphase : w.phase with
  | idle =>
    have hlength := length_jobs_step generation w .exit
    simp only [Worker.step, hphase, Worker.exit] at hlength ⊢
    rw [countP_closed]
    simp only [Worker.jobs, Worker.LeavesJobs, hphase, Phase.jobs, Phase.waiting,
      List.append_nil, List.length_nil, Nat.add_zero] at hlength ⊢
    rw [← hlength, eq_comm, List.length_eq_zero_iff]
    simp
  | _ =>
    simp only [Worker.step, hphase]
    exact iff_of_true rfl fun h => by
      rw [Worker.LeavesJobs, hphase] at h
      cases h.2.1

end Pending

namespace State
variable {π τ : Type*} {setting : Setting τ} {s : State π τ}

theorem withWorkers_set {i : ℕ} {w : Worker π τ} (hw : s.workers[i]? = some w) (w' : Worker π τ) :
    ((s.workers.set i w').map fun w => w.jobs.length).sum + w.jobs.length =
      s.withWorkers + w'.jobs.length := by
  obtain ⟨before, after, hworkers, hset, -⟩ := Pool.split hw
  rw [hset, withWorkers, hworkers]
  simp only [List.map_append, List.map_cons, List.sum_append, List.sum_cons]
  omega

/-- A call that goes on has made its job, which is sent or ends. -/
theorem advance_inFlight (setting : Setting τ) (s : State π τ) (call : Call π τ) :
    (s.advance setting call).2.1.toList.countP Call.isMade +
        (s.advance setting call).1.withWorkers +
        (s.advance setting call).2.2.countP Event.countsDown =
      s.withWorkers + 1 := by
  cases call with
  | entered relPath target inode calledAt repair retries =>
    simp [advance, Call.isMade, withWorkers, Nat.add_comm]
  | made job worker attempts retries =>
    dsimp only [advance]
    by_cases hshut : (retries && s.shutdown) = true
    · rw [if_pos hshut]
      simp [Job.ended, Event.countsDown]
    · rw [if_neg hshut]
      cases hworker : s.workers[worker]? with
      | none => simp [Job.ended, Event.countsDown]
      | some w =>
        dsimp only
        split_ifs
        · simp [Job.ended, Event.countsDown]
        · have hset := withWorkers_set hworker
            ⟨w.channel ++ [{ job with sentAt := s.generation }], w.phase⟩
          have hlength : (Worker.jobs ⟨w.channel ++ [{ job with sentAt := s.generation }],
              w.phase⟩).length = w.jobs.length + 1 := by
            simp [Worker.jobs]
            omega
          have hpush : (s.push job worker w).withWorkers = s.withWorkers + 1 := by
            simp only [withWorkers, push] at hset ⊢
            omega
          simp [hpush]
        · simp [Call.isMade, Nat.add_comm]
        · simp [Job.ended, Event.countsDown]

end State

namespace Counted
variable {π τ : Type*} [DecidableEq π] {setting : Setting τ} {c : Counted π τ}

omit [DecidableEq π] in
/-- Where a call goes on, the counter goes with it. -/
theorem pending_advance {call : Call π τ} {x : State π τ × Option (Call π τ) × List (Event π τ)}
    (hx : x = c.queue.advance setting call) {s' : State π τ}
    (hworkers : s'.withWorkers = x.1.withWorkers)
    (hcalls : s'.beingSubmitted + [call].countP Call.isMade =
      c.queue.beingSubmitted + x.2.1.toList.countP Call.isMade) :
    c.pendingCount + ([call].countP fun call => !call.isMade : ℕ) -
        (x.2.2.countP Event.countsDown : ℕ) - s'.inFlight =
      c.pendingCount - c.queue.inFlight := by
  have hadvance := State.advance_inFlight setting c.queue call
  rw [← hx] at hadvance
  have hone : [call].countP Call.isMade + ([call].countP fun call => !call.isMade) = 1 := by
    cases call <;> rfl
  simp only [State.inFlight]
  omega

/-- What is not a step of a worker keeps the difference of the counter and the jobs. -/
theorem pending_step {a : Action π τ} (ha : ∀ i b, a ≠ .worker i b) (setting : Setting τ) :
    (c.step setting a).pendingCount - (c.step setting a).queue.inFlight =
      c.pendingCount - c.queue.inFlight := by
  cases a with
  | request relPath inode =>
    simp only [step, State.next, countPending, State.called]
    split_ifs with h
    · simp
    · simp only [Bool.or_eq_true, decide_eq_true_eq, not_or, Bool.not_eq_true,
        Option.isSome_eq_false_iff, Option.isNone_iff_eq_none] at h
      simp [State.inFlight, State.beingSubmitted, State.withWorkers, h.1]
  | nextTarget =>
    have hflight : (c.queue.next setting .nextTarget).1.inFlight = c.queue.inFlight := by
      cases hrequest : c.queue.request with
      | none => simp only [State.next, hrequest]
      | some r =>
        obtain ⟨relPath, inode, targets, call⟩ := r
        cases call with
        | some call => simp only [State.next, hrequest]
        | none =>
          simp only [State.next, hrequest, State.nextTarget]
          cases targets with
          | nil => simp [State.inFlight, State.beingSubmitted, State.withWorkers, hrequest]
          | cons target targets =>
            dsimp only
            split_ifs <;> simp [State.inFlight, State.beingSubmitted, State.withWorkers, hrequest,
              Call.isMade]
    simp only [step, countPending, hflight]
  | advanceRequest =>
    cases hrequest : c.queue.request with
    | none => simp [step, State.next, countPending, State.called, hrequest]
    | some r =>
      obtain ⟨relPath, inode, targets, call⟩ := r
      cases call with
      | none => simp [step, State.next, countPending, State.called, hrequest]
      | some call =>
        obtain ⟨-, hcalls, -⟩ := State.advance_frame setting c.queue call
        simp only [step, State.next, countPending, State.called, hrequest, Option.bind_some,
          Option.toList_some]
        refine pending_advance rfl rfl ?_
        simp only [State.beingSubmitted, hrequest, hcalls, Option.bind_some, Option.toList_some,
          List.countP_append]
        omega
  | submit relPath target inode =>
    simp only [step, State.next, countPending, State.called]
    split_ifs with h
    · simp
    · simp [State.inFlight, State.beingSubmitted, State.withWorkers, Call.isMade]
  | advanceCall i =>
    cases hcall : c.queue.calls[i]? with
    | none => simp [step, State.next, countPending, State.called, hcall]
    | some call =>
      obtain ⟨hold, hnew⟩ := State.calls_perm hcall (c.queue.advance setting call).2.1
      obtain ⟨hrequest, -⟩ := State.advance_frame setting c.queue call
      have hold := hold.countP_eq Call.isMade
      have hnew := hnew.countP_eq Call.isMade
      simp only [step, State.next, countPending, State.called, hcall, Option.toList_some]
      refine pending_advance rfl rfl ?_
      rw [State.beingSubmitted, State.beingSubmitted, List.countP_append, List.countP_append]
      dsimp only
      rw [hrequest]
      simp only [List.countP_append, List.countP_cons, List.countP_nil] at hold hnew ⊢
      omega
  | bumpGeneration | signalShutdown =>
    simp [step, State.next, countPending, State.called, State.inFlight,
      State.beingSubmitted, State.withWorkers]
  | worker i b => exact absurd rfl (ha i b)

/-- A worker takes no part in what is being submitted. -/
theorem beingSubmitted_worker (i : ℕ) (b : WorkerAction) :
    (c.step setting (.worker i b)).queue.beingSubmitted = c.queue.beingSubmitted := by
  simp only [step, State.next]
  cases c.queue.workers[i]? <;> rfl

/-- A step of a worker keeps the counter right, unless the worker leaves jobs in its channel. -/
theorem pending_worker_iff (hc : c.pendingCount = c.queue.inFlight) {i : ℕ} {b : WorkerAction} :
    (c.step setting (.worker i b)).pendingCount = (c.step setting (.worker i b)).queue.inFlight ↔
      ∀ w, c.queue.workers[i]? = some w → ¬ w.LeavesJobs b := by
  cases hw : c.queue.workers[i]? with
  | none => simpa [step, State.next, countPending, State.called, hw] using hc
  | some w =>
    have hcount := countP_step_iff c.queue.workerGeneration w b
    have hlength := length_jobs_step c.queue.workerGeneration w b
    have hset := State.withWorkers_set hw (w.step c.queue.workerGeneration b).1
    simp only [Option.some.injEq, forall_eq']
    rw [← hcount, State.inFlight, beingSubmitted_worker]
    simp only [step, State.next, countPending, State.called, hw, hc, State.inFlight,
      State.withWorkers, Option.toList_none, List.countP_nil] at hset ⊢
    omega

/-- A step of a worker keeps its counters fit, unless it skips a job without room for it. -/
theorem totals_worker_iff (ht : ∀ i, (c.totals i).Sound) {i : ℕ} {b : WorkerAction} :
    (∀ j, ((c.step setting (.worker i b)).totals j).Sound) ↔
      ∀ w, c.queue.workers[i]? = some w → w.SkipsUncounted c.queue.workerGeneration b →
        (c.totals i).skipped + (c.totals i).failed < (c.totals i).processed := by
  have hothers : (∀ j, ((c.step setting (.worker i b)).totals j).Sound) ↔
      ((c.step setting (.worker i b)).totals i).Sound := by
    refine ⟨fun h => h i, fun h j => ?_⟩
    by_cases hj : j = i
    · rwa [hj]
    · simpa only [step, countTotals, Function.update_of_ne hj] using ht j
  rw [hothers]
  cases hw : c.queue.workers[i]? with
  | none => simpa [step, State.next, countTotals, hw] using ht i
  | some w =>
    simp only [step, State.next, countTotals, hw, Function.update_self, Option.some.injEq,
      forall_eq']
    exact sound_step_iff (ht i) b

/-- A step keeps the counters right exactly if it is safe. -/
theorem accounted_step_iff (hc : Accounted c) (a : Action π τ) :
    Accounted (c.step setting a) ↔ c.Safe a := by
  by_cases ha : ∃ i b, a = .worker i b
  · obtain ⟨i, b, rfl⟩ := ha
    constructor
    · intro h w hw
      exact ⟨(pending_worker_iff hc.pending).mp h.pending w hw,
        (totals_worker_iff hc.totals).mp h.totals w hw⟩
    · intro h
      exact ⟨(pending_worker_iff hc.pending).mpr fun w hw => (h w hw).1,
        (totals_worker_iff hc.totals).mpr fun w hw => (h w hw).2⟩
  · have hne : ∀ i b, a ≠ .worker i b := fun i b heq => ha ⟨i, b, heq⟩
    have hsafe : c.Safe a := by
      cases a with
      | worker i b => exact absurd rfl (hne i b)
      | _ => trivial
    refine iff_of_true ⟨?_, ?_⟩ hsafe
    · have := pending_step (c := c) hne setting
      have := hc.pending
      omega
    · cases a with
      | worker i b => exact absurd rfl (hne i b)
      | _ => exact hc.totals

omit [DecidableEq π] in
theorem accounted_init (workerCount : ℕ) : Accounted (init π τ workerCount) := by
  refine ⟨?_, fun _ => le_rfl⟩
  simp [init, State.init, State.inFlight, State.beingSubmitted, State.withWorkers, Worker.jobs,
    Phase.jobs, Phase.waiting]

/-- The counters are right in every state of a run exactly if no worker ends with jobs in its
channel, and each time a job is skipped that is not counted as processed, the worker has
processed more jobs than it has skipped and failed before. -/
theorem accounted_iff (setting : Setting τ) (workerCount : ℕ) (as : List (Action π τ)) :
    (∀ p, p <+: as → Accounted (Run.exec (step setting) (init π τ workerCount) p)) ↔
      Run.Along (step setting) Safe (init π τ workerCount) as := by
  have hstep : ∀ (c : Counted π τ) (a : Action π τ), True → True → Accounted c →
      (Accounted (step setting c a) ↔ Safe c a) := fun _ a _ _ hc => accounted_step_iff hc a
  exact Run.forall_prefix_iff_along (step setting) (fun _ _ _ _ _ => trivial) hstep as
    (fun _ _ => trivial) trivial (accounted_init workerCount)

/-- Jobs that are left behind stay counted, so that the counter is never too low. -/
theorem inFlight_le_step (hc : (c.queue.inFlight : ℤ) ≤ c.pendingCount) (a : Action π τ) :
    ((c.step setting a).queue.inFlight : ℤ) ≤ (c.step setting a).pendingCount := by
  by_cases ha : ∃ i b, a = .worker i b
  · obtain ⟨i, b, rfl⟩ := ha
    cases hw : c.queue.workers[i]? with
    | none => simpa [step, State.next, countPending, State.called, hw] using hc
    | some w =>
      have hlength := length_jobs_step c.queue.workerGeneration w b
      have hset := State.withWorkers_set hw (w.step c.queue.workerGeneration b).1
      have hcount : (w.step c.queue.workerGeneration b).2.countP Event.countsDown ≤
          (w.step c.queue.workerGeneration b).2.countP Event.isEnd :=
        List.countP_mono_left fun e _ => by cases e <;> simp [Event.countsDown, Event.isEnd]
      rw [State.inFlight] at hc
      rw [State.inFlight, beingSubmitted_worker]
      simp only [step, State.next, countPending, State.called, hw, State.withWorkers,
        Option.toList_none, List.countP_nil] at hc hset ⊢
      omega
  · have := pending_step (c := c) (fun i b heq => ha ⟨i, b, heq⟩) setting
    omega

theorem inFlight_le_pendingCount (setting : Setting τ) (workerCount : ℕ)
    (as : List (Action π τ)) :
    ((Run.exec (step setting) (init π τ workerCount) as).queue.inFlight : ℤ) ≤
      (Run.exec (step setting) (init π τ workerCount) as).pendingCount :=
  Run.invariant_all (step setting) (I := fun c => (c.queue.inFlight : ℤ) ≤ c.pendingCount)
    (fun _ a hc => inFlight_le_step hc a) as (accounted_init workerCount).pending.ge

/-- The one job there is waits for the renames of its inode. -/
theorem deferredJob_not_accounted :
    ¬ ∀ (setting : Setting Unit) (workerCount : ℕ) (as : List (Action Bool Unit)),
      ∀ p, p <+: as → Accounted (Run.exec (step setting) (init Bool Unit workerCount) p) := by
  intro h
  have hsound := (h ⟨[()], 16⟩ 1 [.submit true () (some 7), .advanceCall 0, .advanceCall 0,
    .worker 0 .recv, .worker 0 (.check 1)] _ (List.prefix_refl _)).totals 0
  revert hsound
  decide

-- A worker is shut down while a job is in its channel.
example :
    (Run.exec (step ⟨[()], 16⟩) (init Bool Unit 1) [.submit true () none, .advanceCall 0,
      .advanceCall 0, .worker 0 .exit]).pendingCount = 1 ∧
    (Run.exec (step ⟨[()], 16⟩) (init Bool Unit 1) [.submit true () none, .advanceCall 0,
      .advanceCall 0, .worker 0 .exit]).queue.inFlight = 0 := by
  decide

end Counted

end Foxing.JobQueue
