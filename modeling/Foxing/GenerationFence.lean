import Foxing.JobQueue

/-!
# Generations of jobs

A bump of the generation is to keep the jobs out that have been submitted before. The
workers compare the generation of a job with a counter that is never bumped, so that no
job is ever skipped as stale, and a bump keeps out nothing unless no job is waiting.
-/
namespace Foxing.JobQueue

namespace Worker
variable {π τ : Type*} {generation : ℕ} {w : Worker π τ} {job : Job π τ}

theorem jobs_of_mem_waiting (h : job ∈ w.waiting) : job ∈ w.jobs := by
  rw [waiting, List.mem_append] at h
  rw [jobs, List.mem_append]
  refine h.imp_right fun h => ?_
  cases hphase : w.phase with
  | processing job' remaining =>
    rw [hphase] at h
    exact List.mem_cons_of_mem _ h
  | _ =>
    rw [hphase] at h
    exact h

/-- What is processed has been taken in hand; nothing else changes until it ends. -/
theorem step_processing {remaining : List (Job π τ)} (hphase : w.phase = .processing job remaining)
    (a : WorkerAction) :
    (w.step generation a).1 = w ∨ (w.step generation a).1 = { w with phase := .slow remaining } := by
  cases a with
  | processed outcome =>
    right
    simp only [step, hphase]
    cases outcome <;> rfl
  | _ =>
    left
    simp only [step, hphase, pick]

/-- The jobs that wait for a worker have waited before, whatever it does. -/
theorem mem_waiting_step {a : WorkerAction} (h : job ∈ (w.step generation a).1.waiting) :
    job ∈ w.waiting := by
  have hjobs := jobs_of_mem_waiting h
  have hold : job ∈ w.jobs := by
    have hmoves := moves_step generation w a
    generalize (w.step generation a).2 = es at hmoves
    cases hmoves with
    | silent hperm => exact hperm.mem_iff.mpr hjobs
    | began _ hperm => exact hperm.mem_iff.mpr hjobs
    | vanished _ hperm | stale _ hperm | ended hperm =>
      exact hperm.mem_iff.mpr (List.mem_cons_of_mem _ hjobs)
    | exited _ hnil =>
      rw [hnil] at hjobs
      cases hjobs
  cases hphase : w.phase with
  | processing job' remaining =>
    have hstep : (w.step generation a).1 = w ∨
        (w.step generation a).1 = { w with phase := .slow remaining } := step_processing hphase a
    rcases hstep with heq | heq
    · rwa [heq] at h
    · rw [heq] at h
      rw [waiting, hphase]
      exact h
  | _ =>
    rw [jobs, hphase] at hold
    rw [waiting, hphase]
    exact hold

/-- A batch is compared with the generation that was read for it. -/
theorem compared_step (a : WorkerAction) (h : w.compared generation = generation) :
    (w.step generation a).1.compared generation = generation := by
  cases a with
  | check renames =>
    cases hphase : w.phase with
    | received job =>
      simp only [step, hphase, check]
      split_ifs <;> rfl
    | _ => simpa only [step, hphase] using h
  | drain renames =>
    cases hphase : w.phase with
    | draining currentGen batch =>
      have hgen : currentGen = generation := by
        rw [compared, hphase] at h
        exact h
      simp only [step, hphase, drain]
      cases w.channel with
      | nil => exact h
      | cons job channel =>
        dsimp only
        split_ifs
        · exact h
        · simpa only [compared, hphase] using hgen
        · simpa only [compared, hphase] using hgen
        · exact hgen
    | _ => simpa only [step, hphase] using h
  | recv =>
    obtain ⟨channel, phase⟩ := w
    cases phase with
    | idle => cases channel <;> rfl
    | _ => exact h
  | drained =>
    cases hphase : w.phase with
    | draining currentGen batch =>
      simp only [step, hphase, drained]
      split_ifs
      · split <;> rfl
      · exact h
    | _ => simpa only [step, hphase] using h
  | pick there =>
    simp only [step, pick]
    split
    · split_ifs <;> rfl
    · split_ifs <;> rfl
    · split_ifs <;> rfl
    · exact h
  | copied outcome =>
    cases hphase : w.phase with
    | copying job todo remaining =>
      simp only [step, hphase]
      cases outcome <;> rfl
    | _ => simpa only [step, hphase] using h
  | processed outcome =>
    cases hphase : w.phase with
    | processing job remaining =>
      simp only [step, hphase]
      cases outcome <;> rfl
    | _ => simpa only [step, hphase] using h
  | next =>
    simp only [step]
    split
    · rfl
    · rfl
    · exact h
  | exit =>
    cases hphase : w.phase with
    | idle =>
      simp only [step, hphase]
      rfl
    | _ => simpa only [step, hphase] using h

end Worker

namespace State
variable {π τ : Type*} [DecidableEq π]

/-- A step in which a worker takes a job in hand that was submitted before the last bump, or
skips one as stale that was submitted after it, breaks the fence. -/
def Fenced (setting : Setting τ) (s : State π τ) (a : Action π τ) : Prop :=
  (∀ job, .began job ∈ (s.next setting a).2 → job.sentAt = s.generation) ∧
    ∀ job, .stale job ∈ (s.next setting a).2 → job.calledAt < s.generation

/-- The generation is bumped only while no job is waiting. -/
def Quiet (s : State π τ) (a : Action π τ) : Prop :=
  a = .bumpGeneration → ∀ w ∈ s.workers, w.waiting = []

instance [DecidableEq τ] (s : State π τ) (a : Action π τ) : Decidable (Quiet s a) :=
  inferInstanceAs (Decidable (_ → _))

/-- The jobs that wait for a worker have been sent since the last bump, and workers compare
generations with zero. -/
structure Fresh (s : State π τ) : Prop where
  workerGeneration : s.workerGeneration = 0
  compared : ∀ w ∈ s.workers, w.compared 0 = 0
  waiting : ∀ w ∈ s.workers, ∀ job ∈ w.waiting, job.sentAt = s.generation

section Fresh
variable {setting : Setting τ} {s : State π τ}

omit [DecidableEq π] in
theorem Fresh.push (h : Fresh s) {job : Job π τ} {worker : ℕ} {w : Worker π τ}
    (hworker : s.workers[worker]? = some w) : Fresh (s.push job worker w) := by
  have hw := List.mem_of_getElem? hworker
  refine ⟨h.workerGeneration, fun w' hw' => ?_, fun w' hw' job' hjob' => ?_⟩
  · rcases List.mem_or_eq_of_mem_set hw' with hw' | rfl
    · exact h.compared w' hw'
    · exact h.compared w hw
  · rcases List.mem_or_eq_of_mem_set hw' with hw' | rfl
    · exact h.waiting w' hw' job' hjob'
    · simp only [Worker.waiting, List.mem_append, List.mem_singleton] at hjob'
      rcases hjob' with (hjob' | rfl) | hjob'
      · exact h.waiting w hw job' (List.mem_append_left _ hjob')
      · rfl
      · exact h.waiting w hw job' (List.mem_append_right _ hjob')

omit [DecidableEq π] in
/-- A call adds a job to a channel at most, and nothing begins. -/
theorem Fresh.advance (h : Fresh s) (call : Call π τ) :
    Fresh (s.advance setting call).1 ∧
      ∀ job, .began job ∉ (s.advance setting call).2.2 ∧ .stale job ∉ (s.advance setting call).2.2 := by
  have hadvances := advances setting s call
  generalize s.advance setting call = x at hadvances
  cases hadvances with
  | goesOn => exact ⟨⟨h.workerGeneration, h.compared, h.waiting⟩, by simp⟩
  | drops => exact ⟨h, by simp⟩
  | sends hworker => exact ⟨h.push hworker, by simp⟩

omit [DecidableEq π] in
theorem Fresh.worker (h : Fresh s) {i : ℕ} {w : Worker π τ} (hw : w ∈ s.workers)
    (a : WorkerAction) (activeRepairs : List π) :
    Fresh { s with
      workers := s.workers.set i (w.step s.workerGeneration a).1, activeRepairs := activeRepairs } := by
  refine ⟨h.workerGeneration, fun w' hw' => ?_, fun w' hw' job hjob => ?_⟩
  · rcases List.mem_or_eq_of_mem_set hw' with hw' | rfl
    · exact h.compared w' hw'
    · rw [h.workerGeneration]
      exact Worker.compared_step a (h.compared w hw)
  · rcases List.mem_or_eq_of_mem_set hw' with hw' | rfl
    · exact h.waiting w' hw' job hjob
    · exact h.waiting w hw job (Worker.mem_waiting_step hjob)

omit [DecidableEq π] in
/-- What a worker takes in hand has been waiting, and nothing is stale. -/
theorem Fresh.fenced_worker (h : Fresh s) {w : Worker π τ} (hw : w ∈ s.workers)
    (a : WorkerAction) (job : Job π τ) :
    (.began job ∈ (w.step s.workerGeneration a).2 → job.sentAt = s.generation) ∧
      .stale job ∉ (w.step s.workerGeneration a).2 := by
  have hmoves := Worker.moves_step s.workerGeneration w a
  generalize w.step s.workerGeneration a = x at hmoves
  obtain ⟨w', es⟩ := x
  cases hmoves with
  | silent => simp
  | began hwaiting =>
    refine ⟨fun hjob => ?_, by simp⟩
    rw [List.mem_singleton] at hjob
    cases hjob
    exact h.waiting w hw _ hwaiting
  | vanished hwaiting =>
    refine ⟨fun hjob => ?_, by simp [Job.ended]⟩
    simp only [Job.ended, List.mem_cons, List.not_mem_nil, or_false, reduceCtorEq] at hjob
    cases hjob
    exact h.waiting w hw _ hwaiting
  | stale hstale =>
    rw [h.workerGeneration, h.compared w hw] at hstale
    cases hstale
  | ended => simp [Job.ended]
  | exited => simp [Job.ended]

omit [DecidableEq π] in
theorem Fresh.congr (h : Fresh s) {s' : State π τ} (hworkers : s'.workers = s.workers)
    (hgeneration : s'.generation = s.generation)
    (hworkerGeneration : s'.workerGeneration = s.workerGeneration) : Fresh s' := by
  refine ⟨hworkerGeneration.trans h.workerGeneration, ?_, ?_⟩
  · rw [hworkers]
    exact h.compared
  · rw [hworkers, hgeneration]
    exact h.waiting

theorem fenced_of_ended {a : Action π τ}
    (h : ∀ e ∈ (s.next setting a).2, ∃ relPath repair exit, e = .ended relPath repair exit) :
    Fenced setting s a := by
  refine ⟨fun job hjob => ?_, fun job hjob => ?_⟩
  · obtain ⟨_, _, _, heq⟩ := h _ hjob
    cases heq
  · obtain ⟨_, _, _, heq⟩ := h _ hjob
    cases heq

/-- As long as the generation is bumped only while no job is waiting, the jobs that wait have been
sent since the last bump. -/
theorem Fresh.step (h : Fresh s) {a : Action π τ} (ha : Quiet s a) : Fresh (s.step setting a) := by
  cases a with
  | request relPath inode =>
    unfold State.step State.next
    dsimp only
    split_ifs
    · exact h
    · exact h.congr rfl rfl rfl
  | nextTarget =>
    unfold State.step State.next
    dsimp only
    split
    · unfold State.nextTarget
      dsimp only
      split
      · exact h.congr rfl rfl rfl
      · split_ifs
        · exact h.congr rfl rfl rfl
        · exact h.congr rfl rfl rfl
    · exact h
  | advanceRequest =>
    unfold State.step State.next
    dsimp only
    split
    · exact (h.advance _).1.congr rfl rfl rfl
    · exact h
  | submit relPath target inode =>
    unfold State.step State.next
    dsimp only
    split_ifs
    · exact h
    · exact h.congr rfl rfl rfl
  | advanceCall i =>
    unfold State.step State.next
    dsimp only
    split
    · exact h
    · exact (h.advance _).1.congr rfl rfl rfl
  | bumpGeneration =>
    refine ⟨h.workerGeneration, h.compared, fun w hw job hjob => ?_⟩
    rw [ha rfl w hw] at hjob
    cases hjob
  | signalShutdown => exact h.congr rfl rfl rfl
  | worker i a =>
    unfold State.step State.next
    dsimp only
    cases hw : s.workers[i]? with
    | none => exact h
    | some w => exact h.worker (List.mem_of_getElem? hw) a _

/-- While the jobs that wait have been sent since the last bump, no step breaks the fence. -/
theorem Fresh.fenced (h : Fresh s) (a : Action π τ) : Fenced setting s a := by
  cases a with
  | advanceRequest =>
    unfold Fenced State.next
    dsimp only
    split
    case h_1 relPath inode targets call hrequest =>
      have hnone := (@Fresh.advance _ _ setting _ h call).2
      exact ⟨fun job hjob => absurd hjob (hnone job).1, fun job hjob => absurd hjob (hnone job).2⟩
    case h_2 => simp
  | advanceCall i =>
    unfold Fenced State.next
    dsimp only
    split
    case h_1 => simp
    case h_2 call hcall =>
      have hnone := (@Fresh.advance _ _ setting _ h call).2
      exact ⟨fun job hjob => absurd hjob (hnone job).1, fun job hjob => absurd hjob (hnone job).2⟩
  | worker i a =>
    unfold Fenced State.next
    dsimp only
    cases hw : s.workers[i]? with
    | none => simp
    | some w =>
      have hfenced := h.fenced_worker (List.mem_of_getElem? hw) a
      exact ⟨fun job => (hfenced job).1, fun job hjob => absurd hjob (hfenced job).2⟩
  | request relPath inode =>
    refine fenced_of_ended fun e he => ?_
    unfold State.next at he
    dsimp only at he
    split_ifs at he <;> cases he
  | nextTarget =>
    refine fenced_of_ended fun e he => ?_
    unfold State.next State.nextTarget at he
    dsimp only at he
    split at he
    · split at he
      · cases he
      · split_ifs at he
        · rw [List.mem_singleton] at he
          exact ⟨_, _, _, he⟩
        · cases he
    · cases he
  | submit relPath target inode =>
    refine fenced_of_ended fun e he => ?_
    unfold State.next at he
    dsimp only at he
    split_ifs at he <;> cases he
  | bumpGeneration | signalShutdown => exact fenced_of_ended fun e he => by cases he

omit [DecidableEq π] in
theorem fresh_init (workerCount : ℕ) : Fresh (init π τ workerCount) := by
  refine ⟨rfl, fun w hw => ?_, fun w hw job hjob => ?_⟩
  · rw [List.eq_of_mem_replicate hw]
    rfl
  · rw [List.eq_of_mem_replicate hw] at hjob
    cases hjob

/-- If the generation is bumped only while no job is waiting in a channel or for its turn in a
batch, no step of a run breaks the fence. -/
theorem fenced_of_quiet (setting : Setting τ) (workerCount : ℕ) (as : List (Action π τ))
    (has : Run.Along (step setting) Quiet (init π τ workerCount) as) :
    Run.Along (step setting) (Fenced setting) (init π τ workerCount) as :=
  Run.along_of_invariant (step setting) (fun _ _ ha hs => Fresh.step hs ha)
    (fun _ a _ hs => Fresh.fenced hs a) has (fresh_init workerCount)

end Fresh

/-! ### A bump while a job is waiting -/

def sampleSetting : Setting ℕ := ⟨[7], 64⟩

/-- A job gets into the channel. -/
def submitted (relPath : String) : List (Action String ℕ) :=
  [.submit relPath 7 none, .advanceCall 0, .advanceCall 0]

/-- The worker takes it in hand. -/
def taken : List (Action String ℕ) :=
  [.worker 0 .recv, .worker 0 (.check 0), .worker 0 .drained, .worker 0 (.pick true)]

/-- The bump comes while the first job is processed, and another job is submitted after it. -/
def bumpedLate : List (Action String ℕ) :=
  submitted "a" ++ taken ++ [.bumpGeneration] ++ submitted "b" ++
    [.worker 0 (.processed .stats), .worker 0 .next] ++ taken

theorem bumpedLate_fenced :
    Run.Along (step sampleSetting) (Fenced sampleSetting) (init String ℕ 1) bumpedLate :=
  fenced_of_quiet sampleSetting 1 bumpedLate (by decide +kernel)

/-- The job is in the channel when the generation is bumped, and the worker takes it in hand. -/
theorem bumpedEarly_begins :
    ¬ Run.Along (step sampleSetting) (Fenced sampleSetting) (init String ℕ 1)
      (submitted "a" ++ [.bumpGeneration] ++ taken) := by
  rintro ⟨-, -, -, -, -, -, -, hfenced, -⟩
  have hsent := hfenced.1 ⟨"a", 7, none, 0, 0, 0, false⟩ (by decide +kernel)
  revert hsent
  decide +kernel

end State

end Foxing.JobQueue
