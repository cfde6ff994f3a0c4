import Foxing.EventAccounting
import Foxing.Ingress
import Foxing.TargetLine
import Foxing.TransientFilter

/-!
# Gaps and rescans

A gap stands for events that never arrived; what they were about can only be found by a scan
or a repair. A gap comes out of the reorder buffer of its device, passes the transient filter
and is pushed to the queue of a target, where a worker takes it like any other event. Here the
whole way is one machine, and what the worker does about the gap is read off its log.

The callback and the poll loop that pop the buffer run in one thread; while a push waits for
room, that thread does nothing else.
-/
namespace Foxing

namespace WorkerLoop

/-- A scan or a repair is asked for. -/
def Effect.isRequest : Effect → Bool
  | .requestRescan | .repair _ | .redirect _ => true
  | _ => false

/-- A gap is answered when a worker first handles it. -/
def Entry.Answered (x : Entry) : Prop :=
  x.event.eventType = .sequenceGap → x.resumed = false → ∃ f ∈ x.effects, f.isRequest = true

end WorkerLoop

/-- The event has a path that is not blocked. -/
def World.passes (w : World) (e : Event) : Bool :=
  ((resolution e w).1.bind ResolveResult.path?).isSome

/-- No arm is for gaps. -/
theorem processSingleEvent_gap {env : Env} {fault : Option ℕ} {e : Event} {w : World}
    (he : e.eventType = .sequenceGap) :
    (processSingleEvent env fault e w).1 =
      (resolution e w).1.map fun r => if r.path?.isSome then .done else .failed .other := by
  have hat (p : Path) (v : World) : (processAt env fault e p v).1 = some .done := by
    unfold processAt
    split_ifs with hex hgate
    · rfl
    · simp [he, EventType.isGated] at hgate
    · simp only [perform, he]
      rfl
  unfold processSingleEvent
  simp only [StateM.run_bind]
  cases (resolution e w).1 with
  | none => rfl
  | some r =>
    cases r with
    | securityBlock => rfl
    | success p _ _ => exact hat p _
    | needsRepair p => exact hat p _

namespace WorkerLoop
variable {l : WorkerLoop} {s : TakeSite} {e : Event}

/-- An event that is blocked is not sent to be repaired. -/
theorem other_failureEffects {x : AttemptResult} :
    ∀ f ∈ l.failureEffects s e x .other, f.isRequest = false := by
  have hclass : ∀ f ∈ l.classEffects s e x .other, f.isRequest = false := by
    simp only [classEffects, classifyError, retryEffects]
    split_ifs <;> simp [Effect.isRequest]
  unfold failureEffects
  cases s with
  | received => exact hclass
  | barrier => simp
  | paused tin => simp
  | _ =>
    cases x.journalPath with
    | none => simp [Effect.isRequest]
    | some p => simpa [Effect.isRequest] using hclass

/-- A gap is answered by the worker only if it has had failures before and none now. -/
theorem gap_request_iff (he : e.eventType = .sequenceGap) (x : Attempt) (w : World) :
    (∃ f ∈ l.effects s e (x.resultAt w e), f.isRequest = true) ↔
      s.countsErrors = true ∧ 5 < l.errorStreak ∧ w.passes e = true := by
  have houtcome : (x.resultAt w e).outcome =
      (resolution e w).1.map fun r => if r.path?.isSome then .done else .failed .other :=
    processSingleEvent_gap he
  by_cases hpaused : ∃ tin, s = .paused tin
  · obtain ⟨tin, rfl⟩ := hpaused
    simp only [effects, pausedEffects, TakeSite.countsErrors, Bool.false_eq_true, false_and, iff_false]
    split_ifs
    · simp
    · cases (x.resultAt w e).journalPath <;> simp [Effect.isRequest]
  have heffects : l.effects s e (x.resultAt w e) = l.attemptEffects s e (x.resultAt w e) := by
    cases s with
    | paused tin => exact absurd ⟨tin, rfl⟩ hpaused
    | _ => rfl
  rw [heffects, attemptEffects, houtcome, World.passes]
  cases hr : (resolution e w).1 with
  | none => simp [Effect.isRequest]
  | some r =>
    cases hpath : r.path? with
    | none =>
      have hfail := other_failureEffects (l := l) (s := s) (e := e) (x := x.resultAt w e)
      simpa [hpath, Outcome.failed, Outcome.ofResult, ownEffects, resultEffects] using hfail
    | some p =>
      simp only [Option.map_some, hpath, Option.isSome_some, if_true, Outcome.done,
        Outcome.ofResult, ownEffects, resultEffects, successEffects, Option.bind_some]
      by_cases hstreak : s.countsErrors = true ∧ 5 < l.errorStreak
      · simp [hstreak, Effect.isRequest]
      · rw [if_neg hstreak]
        simpa [Effect.isRequest] using hstreak

end WorkerLoop

/-! ## From the reorder buffer to the workers -/

namespace GapRescans
open WorkerLoop

/-- A device, and a target that its events are pushed to. -/
structure Pipeline where
  lane : Lane
  filter : TransientFilter
  line : TargetLine

/-- A record from the ring, a pop of the buffer, or a step of the target. -/
inductive Action
  | record (e : Event)
  | pop (now : ℕ)
  | gc
  | enter
  | work (i : ℕ) (a : WorkerLoop.Action) (x : Attempt) (w : World)
  | outside (board : TargetBoard)

section Steps
variable (hash : U64 → ℕ) (s : Pipeline)

/-- An event that has been popped is pushed, unless the filter suppresses it. -/
def dispatch (e : Event) : Pipeline :=
  { s with
    filter := (s.filter.shouldPrune e).2
    line := if (s.filter.shouldPrune e).1 then s.line else s.line.push hash e }

def pop (now : ℕ) : Pipeline :=
  match (s.lane.history.buffer.pop now).1 with
  | some e => dispatch hash { s with lane := s.lane.pop now } e
  | none => { s with lane := s.lane.pop now }

def step : Action → Pipeline
  | .record e => if s.line.waiting.isSome then s else { s with lane := s.lane.receive e }
  | .pop now => if s.line.waiting.isSome then s else pop hash s now
  | .gc => { s with filter := s.filter.gc }
  | .enter => { s with line := s.line.enter }
  | .work i a x w => { s with line := s.line.work i a x w }
  | .outside board => { s with line := s.line.step hash (.outside board) }

/-- Every gap that a worker has taken has been answered. -/
def Resynchronised : Prop := ∀ i, ∀ x ∈ (s.line.worker i).log, x.Answered

/-- A gap is taken by a worker that is neither paused nor drained for a barrier and has failed
more than five times in a row, and the gap is not blocked. -/
def Heard (s : Pipeline) : Action → Prop
  | .work i a _ w => ∀ r ∈ s.line.taken i a, r.2.eventType = .sequenceGap →
      (∀ n, r.1 ≠ .retried n) →
      r.1.countsErrors = true ∧ 5 < (s.line.worker i).errorStreak ∧ w.passes r.2 = true
  | _ => True

end Steps

def start (workers : ℕ) (board : TargetBoard) (scanDepth : U64) (now : ℕ) : Pipeline :=
  ⟨.start, .new, .start workers board scanDepth now⟩

theorem resumed_eq_false {z : Entry} : z.resumed = false ↔ ∀ n, z.site ≠ .retried n := by
  unfold Entry.resumed
  cases z.site <;> simp

theorem push_worker (hash : U64 → ℕ) (t : TargetLine) (e : Event) :
    (t.push hash e).worker = t.worker := by
  unfold TargetLine.push
  split_ifs
  · rfl
  · cases t.queue.push hash e <;> rfl

theorem enter_worker (t : TargetLine) : t.enter.worker = t.worker := by
  unfold TargetLine.enter
  cases t.waiting with
  | none => rfl
  | some e =>
    simp only
    split_ifs <;> rfl

/-- What a worker takes is put down in its log. -/
theorem work_log (t : TargetLine) (i j : ℕ) (a : WorkerLoop.Action) (x : Attempt) (w : World) :
    ((t.work i a x w).worker j).log = (t.worker j).log ++
      if j = i then (t.taken i a).toList.map
        (((t.worker i).take t.board.paused a).2.entry (x.resultAt w)) else [] := by
  unfold TargetLine.work TargetLine.taken
  by_cases hoffers : t.Offers i a
  · rw [if_pos hoffers, if_pos hoffers]
    by_cases hij : j = i
    · subst hij
      simp [step_log]
    · simp [hij]
  · simp [if_neg hoffers]

theorem dispatch_worker (hash : U64 → ℕ) (s : Pipeline) (e : Event) :
    (dispatch hash s e).line.worker = s.line.worker := by
  unfold dispatch
  simp only
  split_ifs
  · rfl
  · exact push_worker hash s.line e

theorem pop_worker (hash : U64 → ℕ) (s : Pipeline) (now : ℕ) :
    (pop hash s now).line.worker = s.line.worker := by
  unfold pop
  cases (s.lane.history.buffer.pop now).1 with
  | none => rfl
  | some e => exact dispatch_worker hash _ e

/-- Only a worker that takes a gap can leave one unanswered. -/
theorem resynchronised_step (hash : U64 → ℕ) (s : Pipeline) (a : Action) :
    Resynchronised (step hash s a) ↔ Resynchronised s ∧ Heard s a := by
  have hquiet {s' : Pipeline} (h : s'.line.worker = s.line.worker) :
      Resynchronised s' ↔ Resynchronised s ∧ True := by
    simp [Resynchronised, h]
  cases a with
  | record e =>
    simp only [step]
    split_ifs <;> exact hquiet rfl
  | pop now =>
    simp only [step]
    split_ifs
    · exact hquiet rfl
    · exact hquiet (pop_worker hash s now)
  | gc => exact hquiet rfl
  | enter => exact hquiet (enter_worker s.line)
  | outside board => exact hquiet rfl
  | work i a x w =>
    have hentry (r : TakeSite × Event) :
        ((((s.line.worker i).take s.line.board.paused a).2.entry (x.resultAt w)) r).Answered ↔
          (r.2.eventType = .sequenceGap → (∀ n, r.1 ≠ .retried n) →
            r.1.countsErrors = true ∧ 5 < (s.line.worker i).errorStreak ∧
              w.passes r.2 = true) := by
      have hstreak := (take_took (l := s.line.worker i) s.line.board.paused a).errorStreak
      refine forall_congr' fun he => ?_
      rw [resumed_eq_false]
      refine forall_congr' fun hs => ?_
      rw [← hstreak]
      exact gap_request_iff he x w
    simp only [Resynchronised, step, work_log, List.forall_mem_append, forall_and]
    refine and_congr_right fun _ => ?_
    constructor
    · intro h r hr
      have hi := h i
      rw [if_pos rfl] at hi
      exact (hentry r).mp (hi _ (List.mem_map.mpr ⟨r, by simpa using hr, rfl⟩))
    · intro h j z hz
      split_ifs at hz
      · obtain ⟨r, hr, rfl⟩ := List.mem_map.mp hz
        exact (hentry r).mpr (h r (by simpa using hr))
      · exact absurd hz List.not_mem_nil

/-- In every run, each gap that a worker takes leads to a request before the worker goes on,
if and only if each is taken by a worker that recovers from failures just then. The gaps get
there by `pop_gap`. -/
theorem resynchronised_iff (hash : U64 → ℕ) (workers : ℕ) (board : TargetBoard) (scanDepth : U64)
    (now : ℕ) (acts : List Action) :
    Resynchronised (Run.exec (step hash) (start workers board scanDepth now) acts) ↔
      Run.Along (step hash) Heard (start workers board scanDepth now) acts := by
  induction acts using List.reverseRecOn with
  | nil => simp [Resynchronised, start, TargetLine.start, WorkerLoop.start, Run.Along]
  | append_singleton acts a ih =>
    rw [Run.exec_concat, resynchronised_step, ih, Run.along_concat]

/-- Neither the filter nor a full channel keeps a gap from the worker that it is meant for. -/
theorem pop_gap (hash : U64 → ℕ) (s : Pipeline) (now : ℕ) {g : Event}
    (hpop : (s.lane.history.buffer.pop now).1 = some g) (hgap : g.eventType = .sequenceGap)
    (hint : g.isInternalTraffic = false) (hwaiting : s.line.waiting = none)
    (hopen : (s.line.queue.channel .control (s.line.queue.targetIdx hash g)).closed = false)
    (hcapacity : (s.line.queue.channel .control (s.line.queue.targetIdx hash g)).capacity = none) :
    (step hash s (.pop now)).line.queue.eventsOf .control (s.line.queue.targetIdx hash g) =
      s.line.queue.eventsOf .control (s.line.queue.targetIdx hash g) ++ [g] := by
  have hprune : s.filter.shouldPrune g = (false, s.filter) := by
    simp [TransientFilter.shouldPrune, hgap]
  have hsent : (s.line.queue.channel .control (s.line.queue.targetIdx hash g)).result = .sent := by
    simp [Channel.result, hopen, hcapacity]
  have hpush : s.line.queue.push hash g =
      some (true, (s.line.queue.trySend g .control (s.line.queue.targetIdx hash g)).2) := by
    simp [Fanout.push, hint, hgap, EventType.tin]
  have hqueue : (step hash s (.pop now)).line.queue =
      (s.line.queue.trySend g .control (s.line.queue.targetIdx hash g)).2 := by
    simp [step, pop, dispatch, hwaiting, hpop, hprune, TargetLine.push, hpush]
  rw [hqueue]
  simp [Fanout.eventsOf, Fanout.trySend, Fanout.setChannel, Channel.trySend, hsent]

/-! ## Gaps that lead to nothing -/

def board (paused : Bool) : TargetBoard := ⟨paused, [], false, false, false, []⟩

def writeOf (n : U64) : Event := { Event.zero with eventType := .write, seqNum := n }

def gap : Event := ReorderBuffer.gapEvent 0 2 5 "GAP"

def steady : Attempt := ⟨.plain (.root ⟨493, 0, 0⟩), none, 0⟩

def blankWorld : World := ⟨.root ⟨493, 0, 0⟩, fun _ => none, fun _ => none⟩

/-- The writes from the second to the fourth never arrive. -/
def gapRun : List Action :=
  [.record (writeOf 1), .pop 0, .record (writeOf 5), .pop 0, .pop 600000000]

def worker (a : WorkerLoop.Action) : Action := .work 0 a steady blankWorld

/-- The gap is taken by a worker that has had no failures, and by one that is paused. -/
theorem gap_unanswered :
    ¬ Resynchronised (Run.exec (step fun _ => 0) (start 1 (board false) 8 0)
      (gapRun ++ [worker .turn, worker (.recv .control gap 0 0 0)])) ∧
    ¬ Resynchronised (Run.exec (step fun _ => 0) (start 1 (board true) 8 0)
      (gapRun ++ [worker (.recv .control gap 0 0 0)])) := by
  constructor
  · intro h
    have hlog := h 0 ⟨.received, gap, [.done]⟩ (by decide) rfl rfl
    simp [Effect.isRequest] at hlog
  · intro h
    have hlog := h 0 ⟨.paused .control, gap, []⟩ (by decide) rfl rfl
    simp at hlog

end GapRescans

end Foxing
