import Foxing.WorkerLoop

/-!
# Accounting for the events of a worker

Whatever a worker takes out of its channels, its coalescer or its retry queue leaves a trace:
it has been applied, it is to be tried again, a repair has been asked for, it has been counted
as dropped or as gone from the source, or its path has been journaled. The log of a worker
says which; here the log is compared with what the worker really has.

In between the steps of the worker, what it shares with others changes in any way.
-/
namespace Foxing

namespace WorkerLoop.Effect

/-- An outcome accounts for an event. The journal is kept apart. -/
def isOutcome : Effect → Bool
  | .done | .retry | .dropped | .sourceGone | .repair _ => true
  | _ => false

def isJournal : Effect → Bool
  | .journal _ => true
  | _ => false

def accounts : Effect → Bool
  | .redirect _ => true
  | f => f.isOutcome || f.isJournal

/-- What the effect leaves with the things that a worker shares. -/
def HoldsIn (b : TargetBoard) : Effect → Prop
  | .repair job | .redirect job => job ∈ b.repairs
  | .journal p => p ∈ b.outageJournal ∨ b.outageJournalOverflowed = true
  | .requestRescan => b.requestRescan = true
  | _ => True

end WorkerLoop.Effect

namespace WorkerLoop.Entry

def outcomes (x : Entry) : ℕ := x.effects.countP Effect.isOutcome

def journalings (x : Entry) : ℕ := x.effects.countP Effect.isJournal

/-- All that the event has been accounted as. -/
def accounts (x : Entry) : ℕ := x.effects.countP Effect.accounts

def origin (x : Entry) : TakeSite × Event := (x.site, x.event)

/-- The event has been put into the retry queue. -/
def scheduled (x : Entry) : Bool := .retry ∈ x.effects

/-- The event has been taken out of the retry queue. -/
def resumed (x : Entry) : Bool :=
  match x.site with
  | .retried _ => true
  | _ => false

/-- A barrier or a gap that a paused worker has received on its control tin. -/
def PassedOver (x : Entry) : Prop :=
  x.site = .paused .control ∧
    (x.event.eventType = .barrier ∨ x.event.eventType = .sequenceGap)

instance (x : Entry) : Decidable x.PassedOver := inferInstanceAs (Decidable (_ ∧ _))

/-- An event has one outcome. Where a failed event is journaled, it is journaled besides, and
one that has been tried too often is only journaled; a paused worker journals. Failures during
a barrier are left open. -/
def Accounted (x : Entry) : Prop :=
  match x.site with
  | .received => x.outcomes = 1 ∧ x.journalings = 0
  | .pressed | .flushed =>
    x.outcomes = 1 ∧ x.journalings = if .done ∈ x.effects then 0 else 1
  | .retried attempts =>
    (x.outcomes = 1 ∨ x.outcomes = 0 ∧ .done ∉ x.effects ∧ 10 ≤ attempts) ∧
      x.journalings = if .done ∈ x.effects then 0 else 1
  | .paused _ => x.outcomes = 0 ∧ x.journalings = if x.PassedOver then 0 else 1
  | .barrier => .done ∈ x.effects → x.outcomes = 1 ∧ x.journalings = 0

end WorkerLoop.Entry

namespace EventAccounting
open WorkerLoop

inductive Action
  | own (a : WorkerLoop.Action) (tries : Event → AttemptResult)
  | outside (board : TargetBoard)

def step (w : TargetBoard × WorkerLoop) : Action → TargetBoard × WorkerLoop
  | .own a tries => WorkerLoop.step w a tries
  | .outside board => (board, w.2)

/-- The event that a step takes, if there is one. -/
def taken (w : TargetBoard × WorkerLoop) : Action → List (TakeSite × Event)
  | .own a _ => (w.2.take w.1.paused a).1.toList
  | .outside _ => []

end EventAccounting

namespace WorkerLoop

/-- The events that are to be tried again, in the order in which they will be. -/
def toRetry (l : WorkerLoop) : List Event :=
  match l.phase with
  | .retrying batch => batch.map RetryItem.event ++ l.retryQueue.queue.map RetryItem.event
  | _ => l.retryQueue.queue.map RetryItem.event

/-- Every event in the log is accounted for, unless the worker has panicked at it; the events
put into the retry queue are those taken out of it, followed by those that are still there; and
the counters agree with the log. -/
structure Balanced (l : WorkerLoop) : Prop where
  accounted : ∀ x ∈ l.log, .panic ∉ x.effects → x.Accounted
  retries : ¬ l.Ended →
    (l.log.filter Entry.scheduled).map Entry.event =
      (l.log.filter Entry.resumed).map Entry.event ++ l.toRetry
  dropped : l.eventsDropped = (l.log.map fun x => x.effects.count .dropped).sum
  sourceGone : l.eventsSourceGone = (l.log.map fun x => x.effects.count .sourceGone).sum
  maxRetries : l.retryQueue.maxRetries = 10

/-! ## Taking an event -/

/-- The event that has been taken out of the retry queue. -/
def retriedEvent : Option (TakeSite × Event) → List Event
  | some (.retried _, e) => [e]
  | _ => []

/-- Taking an event changes none of the records, and an event that is taken out of the retry
queue is the next one of it. -/
structure Took (l l' : WorkerLoop) (r : Option (TakeSite × Event)) : Prop where
  log : l'.log = l.log
  dropped : l'.eventsDropped = l.eventsDropped
  sourceGone : l'.eventsSourceGone = l.eventsSourceGone
  errorStreak : l'.errorStreak = l.errorStreak
  maxRetries : l'.retryQueue.maxRetries = l.retryQueue.maxRetries
  ended : l.Ended → l'.Ended
  toRetry : ¬ l'.Ended → l.toRetry = retriedEvent r ++ l'.toRetry

variable {l : WorkerLoop}

theorem Took.refl : Took l l none := ⟨rfl, rfl, rfl, rfl, rfl, id, fun _ => rfl⟩

/-- The worker goes on to a place where it has the same events to try again. -/
theorem Took.goTo {p : Phase} (h : ¬ l.Ended) (hl : (l.goTo p).toRetry = l.toRetry) :
    Took l (l.goTo p) none :=
  ⟨rfl, rfl, rfl, rfl, rfl, fun hl => absurd hl h, fun _ => hl.symm⟩

theorem Took.stop : Took l l.stop none :=
  ⟨rfl, rfl, rfl, rfl, rfl, fun _ => rfl, fun h => absurd rfl h⟩

theorem took_turn (hphase : l.phase = .top) : Took l l.turn none := by
  unfold turn
  split_ifs <;> exact .goTo (by simp [Ended, Phase.ended, hphase]) (by simp [toRetry, goTo, hphase])

theorem took_paused (a : Action) :
    Took l (l.takePaused a).2 (l.takePaused a).1 := by
  cases a with
  | shutdown => exact .stop
  | recv tin e limitBytes maxLatency now =>
    exact ⟨rfl, rfl, rfl, rfl, rfl, id, fun _ => rfl⟩
  | _ => exact .refl

/-- An event that comes out of the coalescer is not one that is tried again. -/
theorem took_flush {s : TakeSite} {again drained : Phase} (now : ℕ) (hs : ∀ n, s ≠ .retried n)
    (hl : ¬ l.Ended) (hagain : (l.goTo again).toRetry = l.toRetry)
    (hdrained : (l.goTo drained).toRetry = l.toRetry) :
    Took l (l.flush s again drained now).2 (l.flush s again drained now).1 := by
  unfold flush
  cases h : l.coalescer.popBatch 0 0 false now with
  | mk evt c =>
    cases evt with
    | none => exact ⟨rfl, rfl, rfl, rfl, rfl, fun h => absurd h hl, fun _ => hdrained.symm⟩
    | some evt =>
      refine ⟨rfl, rfl, rfl, rfl, rfl, fun h => absurd h hl, fun _ => hagain.symm.trans ?_⟩
      cases s with
      | retried n => exact absurd rfl (hs n)
      | _ => rfl

theorem took_next (now : ℕ) (hl : ¬ l.Ended) : Took l (l.next now).2 (l.next now).1 := by
  unfold next
  cases hphase : l.phase with
  | pressing left =>
    cases left with
    | zero => exact .goTo hl (by simp [toRetry, WorkerLoop.goTo, hphase])
    | succ left =>
      exact took_flush now (by simp) hl (by simp [toRetry, WorkerLoop.goTo, hphase])
        (by simp [toRetry, WorkerLoop.goTo, hphase])
  | flushing count =>
    refine took_flush now (by simp) hl ?_ (by simp [toRetry, WorkerLoop.goTo, hphase])
    split_ifs <;> simp [toRetry, WorkerLoop.goTo, hphase]
  | draining =>
    exact took_flush now (by simp) hl (by simp [toRetry, WorkerLoop.goTo, hphase])
      (by simp [toRetry, WorkerLoop.goTo, hphase])
  | retrying batch =>
    cases batch with
    | nil => exact .goTo hl (by simp [toRetry, WorkerLoop.goTo, hphase])
    | cons item rest =>
      exact ⟨rfl, rfl, rfl, rfl, rfl, fun h => absurd h hl,
        fun _ => by simp [toRetry, WorkerLoop.goTo, hphase, retriedEvent]⟩
  | _ => exact .refl

theorem took_retryTick (now : ℕ) (hphase : l.phase = .selecting) :
    Took l (l.retryTick now) none := by
  unfold retryTick
  split_ifs
  · exact .refl
  · refine ⟨rfl, rfl, rfl, rfl, rfl, fun h => absurd h (by simp [Ended, Phase.ended, hphase]), fun _ => ?_⟩
    have happ := RetryQueue.popReady_append now 16 l.retryQueue.queue
    simp only [toRetry, hphase, RetryQueue.popReadyBatch, ← List.map_append, happ, retriedEvent,
      List.nil_append]

theorem took_selected (a : Action) (hphase : l.phase = .selecting) :
    Took l (l.takeSelected a).2 (l.takeSelected a).1 := by
  have hl : ¬ l.Ended := by simp [Ended, Phase.ended, hphase]
  have hgo {p : Phase} (hp : ∀ batch, p ≠ .retrying batch) :
      (l.goTo p).toRetry = l.toRetry := by
    cases p with
    | retrying batch => exact absurd rfl (hp batch)
    | _ => simp [toRetry, WorkerLoop.goTo, hphase]
  cases a with
  | shutdown => exact .stop
  | recv tin e limitBytes maxLatency now =>
    have htop := hgo (p := .top) (by simp)
    cases tin with
    | bulk =>
      refine ⟨rfl, rfl, rfl, rfl, rfl, fun h => absurd h hl, fun _ => htop.symm.trans ?_⟩
      simp only [takeSelected, recvBulk]
      cases ((l.goTo .top).coalescer.push e).popBatch limitBytes maxLatency true now with
      | mk evt c => cases evt <;> rfl
    | _ => exact ⟨rfl, rfl, rfl, rfl, rfl, fun h => absurd h hl, fun _ => htop.symm⟩
  | retryTick now => exact took_retryTick now hphase
  | flushTick =>
    simp only [takeSelected]
    split_ifs
    · exact .refl
    · exact .goTo hl (hgo (by simp))
  | pauseAndFlush | mountCheck present => exact .goTo hl (hgo (by simp))
  | _ => exact .refl

theorem take_took (paused : Bool) (a : Action) : Took l (l.take paused a).2 (l.take paused a).1 := by
  unfold take
  cases hphase : l.phase with
  | top =>
    simp only
    split_ifs
    · exact took_paused a
    · cases a with
      | turn => exact took_turn hphase
      | _ => exact .refl
  | selecting => exact took_selected a hphase
  | parked =>
    cases a with
    | resume => exact .goTo (by simp [Ended, Phase.ended, hphase]) (by simp [toRetry, WorkerLoop.goTo, hphase])
    | _ => exact .refl
  | stopped | panicked =>
    cases a with
    | next now => simpa [next, hphase] using Took.refl
    | _ => exact .refl
  | _ =>
    cases a with
    | next now => exact took_next now (by simp [Ended, Phase.ended, hphase])
    | _ => exact .refl

/-! ## The effects of an attempt -/

section Effects
variable {s : TakeSite} {e : Event} {x : AttemptResult}

/-- A failure has one outcome, except for an event that has been tried too often. -/
theorem classEffects_counts (f : Failure) (hpanic : .panic ∉ l.classEffects s e x f) :
    .done ∉ l.classEffects s e x f ∧ (l.classEffects s e x f).countP Effect.isJournal = 0 ∧
      ((l.classEffects s e x f).countP Effect.isOutcome = 1 ∨
        (l.classEffects s e x f).countP Effect.isOutcome = 0 ∧
          l.retryQueue.maxRetries ≤ s.attempts) := by
  rcases classEffects_cases (l := l) (s := s) (e := e) (x := x) f with ⟨y, hy, hcase⟩ | ⟨hy, hmax⟩
  · rw [hy] at hpanic ⊢
    rcases hcase with ⟨rfl, -⟩ | ⟨job, rfl⟩ | rfl | rfl | rfl
    · simp [Effect.isJournal, Effect.isOutcome]
    · simp [Effect.isJournal, Effect.isOutcome]
    · simp [Effect.isJournal, Effect.isOutcome]
    · simp [Effect.isJournal, Effect.isOutcome]
    · simp at hpanic
  · rw [hy]
    simp [hmax]

theorem attemptEffects_countP {p : Effect → Bool} (hclear : p .clearRename = false)
    (hredirect : ∀ job, p (.redirect job) = false) {o : Outcome} (ho : x.outcome = some o) :
    (l.attemptEffects s e x).countP p = (l.resultEffects s e x o.result).countP p := by
  simp only [attemptEffects, ho, List.countP_append, ownEffects_countP hclear hredirect, Nat.zero_add]

theorem mem_attemptEffects {y : Effect} (hclear : y ≠ .clearRename)
    (hredirect : ∀ job, y ≠ .redirect job) {o : Outcome} (ho : x.outcome = some o) :
    y ∈ l.attemptEffects s e x ↔ y ∈ l.resultEffects s e x o.result := by
  simp only [attemptEffects, ho, List.mem_append, or_iff_right_iff_imp]
  intro hy
  rcases mem_ownEffects hy with rfl | ⟨job, rfl⟩
  · exact absurd rfl hclear
  · exact absurd rfl (hredirect job)

/-- A success has one outcome and is not journaled. -/
theorem successEffects_counts :
    .done ∈ l.successEffects s ∧ (l.successEffects s).countP Effect.isJournal = 0 ∧
      (l.successEffects s).countP Effect.isOutcome = 1 := by
  unfold successEffects
  split_ifs <;> exact ⟨List.mem_cons_self .., rfl, rfl⟩

/-- The sites differ in whether a failed event is journaled, and in whether anything is done
about it at all. -/
theorem failureEffects_counts (f : Failure) (hpanic : .panic ∉ l.failureEffects s e x f)
    (hs : s ≠ .barrier) (hpaused : ∀ tin, s ≠ .paused tin) :
    .done ∉ l.failureEffects s e x f ∧
      (l.failureEffects s e x f).countP Effect.isJournal = (if s.journals then 1 else 0) ∧
      ((l.failureEffects s e x f).countP Effect.isOutcome = 1 ∨
        (l.failureEffects s e x f).countP Effect.isOutcome = 0 ∧
          l.retryQueue.maxRetries ≤ s.attempts) := by
  unfold failureEffects at hpanic ⊢
  cases s with
  | barrier => exact absurd rfl hs
  | paused tin => exact absurd rfl (hpaused tin)
  | received => simpa [TakeSite.journals] using classEffects_counts f hpanic
  | _ =>
    cases hpath : x.journalPath with
    | none => simp [hpath] at hpanic
    | some p =>
      simp only [hpath, List.mem_cons, not_or] at hpanic
      obtain ⟨hdone, hjournal, houtcome⟩ := classEffects_counts f hpanic.2
      simp only
      rw [List.countP_cons_of_pos (show Effect.isJournal (.journal p) = true from rfl), hjournal,
        List.countP_cons_of_neg (show ¬ Effect.isOutcome (.journal p) = true by simp [Effect.isOutcome])]
      exact ⟨by simpa using hdone, rfl, houtcome⟩

theorem accounted_of_done {z : Entry} (hs : ∀ tin, z.site ≠ .paused tin)
    (hdone : .done ∈ z.effects) (hjournal : z.journalings = 0) (houtcome : z.outcomes = 1) :
    z.Accounted := by
  unfold Entry.Accounted
  cases hsite : z.site with
  | paused tin => exact absurd hsite (hs tin)
  | _ => simp [hdone, hjournal, houtcome]

theorem accounted_of_failed {z : Entry} (hs : ∀ tin, z.site ≠ .paused tin)
    (hdone : .done ∉ z.effects)
    (hrest : z.site ≠ .barrier → z.journalings = (if z.site.journals then 1 else 0) ∧
      (z.outcomes = 1 ∨ z.outcomes = 0 ∧ 10 ≤ z.site.attempts)) :
    z.Accounted := by
  unfold Entry.Accounted
  cases hsite : z.site with
  | paused tin => exact absurd hsite (hs tin)
  | barrier => exact fun h => absurd h hdone
  | _ =>
    rw [hsite] at hrest
    simpa [hdone, TakeSite.journals, TakeSite.attempts, and_comm] using hrest (by simp)

/-- A paused worker journals an event or passes it over. -/
theorem pausedEffects_accounted (tin : EventTin) (hpanic : .panic ∉ pausedEffects e x tin) :
    (Entry.mk (.paused tin) e (pausedEffects e x tin)).Accounted := by
  unfold pausedEffects at hpanic ⊢
  simp only [Entry.Accounted, Entry.outcomes, Entry.journalings, Entry.PassedOver,
    TakeSite.paused.injEq]
  split_ifs at hpanic ⊢ with hskip
  · exact ⟨rfl, rfl⟩
  · cases hpath : x.journalPath with
    | none => simp [hpath] at hpanic
    | some p => exact ⟨rfl, rfl⟩

theorem attemptEffects_accounted (hmax : l.retryQueue.maxRetries = 10)
    (hs : ∀ tin, s ≠ .paused tin) (hpanic : .panic ∉ l.attemptEffects s e x) :
    (Entry.mk s e (l.attemptEffects s e x)).Accounted := by
  cases ho : x.outcome with
  | none => simp [attemptEffects, ho] at hpanic
  | some o =>
    have hdone := mem_attemptEffects (l := l) (s := s) (e := e) (y := .done) (by simp) (by simp) ho
    have hjournal := attemptEffects_countP (l := l) (s := s) (e := e) (p := Effect.isJournal)
      rfl (fun _ => rfl) ho
    have houtcome := attemptEffects_countP (l := l) (s := s) (e := e) (p := Effect.isOutcome)
      rfl (fun _ => rfl) ho
    rw [mem_attemptEffects (by simp) (by simp) ho] at hpanic
    cases hresult : o.result with
    | ok u =>
      rw [hresult, resultEffects] at hdone hjournal houtcome
      obtain ⟨hd, hj, hc⟩ := successEffects_counts (l := l) (s := s)
      exact accounted_of_done hs (hdone.mpr hd) (hjournal.trans hj) (houtcome.trans hc)
    | error f =>
      rw [hresult, resultEffects] at hdone hjournal houtcome hpanic
      by_cases hbarrier : s = .barrier
      · subst hbarrier
        refine accounted_of_failed hs (fun h => ?_) (fun h => absurd rfl h)
        exact absurd (hdone.mp h) List.not_mem_nil
      · obtain ⟨hd, hj, hc⟩ := failureEffects_counts f hpanic hbarrier hs
        rw [← hjournal] at hj
        rw [← houtcome, hmax] at hc
        exact accounted_of_failed hs (fun h => hd (hdone.mp h)) fun _ => ⟨hj, hc⟩

/-- What is put down in the log is accounted for. -/
theorem effects_accounted (hmax : l.retryQueue.maxRetries = 10)
    (hpanic : .panic ∉ l.effects s e x) : (Entry.mk s e (l.effects s e x)).Accounted := by
  cases s with
  | paused tin => exact pausedEffects_accounted tin hpanic
  | _ => exact attemptEffects_accounted hmax (by simp) hpanic

end Effects

/-! ## Every step keeps the balance -/

section Steps
variable {l' : WorkerLoop}

theorem Balanced.took (h : l.Balanced) (ht : Took l l' none) : l'.Balanced where
  accounted := by
    rw [ht.log]
    exact h.accounted
  retries hend := by
    have hsame : l.toRetry = l'.toRetry := ht.toRetry hend
    rw [ht.log, ← hsame]
    exact h.retries fun hl => hend (ht.ended hl)
  dropped := by rw [ht.log, ht.dropped, h.dropped]
  sourceGone := by rw [ht.log, ht.sourceGone, h.sourceGone]
  maxRetries := by rw [ht.maxRetries, h.maxRetries]

/-- What is still to be tried again once an event has been handled. -/
theorem toRetry_handle {s : TakeSite} {e : Event} {x : AttemptResult} {w : TargetBoard × WorkerLoop}
    (hend : ¬ (handle s e x w).2.Ended) :
    (handle s e x w).2.toRetry = w.2.toRetry ++ if .retry ∈ w.2.effects s e x then [e] else [] := by
  have hphase : (handle s e x w).2.phase = w.2.phase := by
    rw [handle_phase]
    split_ifs with hpanic
    · exact absurd (by simp [Ended, Phase.ended, hpanic]) hend
    · rfl
  have hqueue : (handle s e x w).2.retryQueue.queue.map RetryItem.event =
      w.2.retryQueue.queue.map RetryItem.event ++
        if .retry ∈ w.2.effects s e x then [e] else [] := by
    rw [handle_retryQueue]
    rcases effects_retry (l := w.2) (s := s) (e := e) (x := x) with hcount | ⟨hcount, hmax, hcap⟩
    · rw [hcount, if_neg (List.count_eq_zero.mp hcount)]
      simp
    · rw [hcount, if_pos (List.count_pos_iff.mp (by omega)), Function.iterate_one,
        RetryQueue.push_room _ _ hmax hcap]
      simp
  simp only [toRetry, hphase, hqueue]
  cases w.2.phase <;> simp

theorem ended_handle {s : TakeSite} {e : Event} {x : AttemptResult} {w : TargetBoard × WorkerLoop}
    (h : w.2.Ended) : (handle s e x w).2.Ended := by
  unfold Ended
  rw [handle_phase]
  split_ifs
  · rfl
  · exact h

theorem Balanced.handle {s : TakeSite} {e : Event} (h : l.Balanced) (ht : Took l l' (some (s, e)))
    (x : AttemptResult) (b : TargetBoard) : (handle s e x (b, l')).2.Balanced where
  accounted := by
    intro z hz hpanic
    rw [handle_log, ht.log, List.mem_append, List.mem_singleton] at hz
    rcases hz with hz | rfl
    · exact h.accounted z hz hpanic
    · exact effects_accounted (ht.maxRetries.trans h.maxRetries) hpanic
  retries hend := by
    have hend' : ¬ l'.Ended := fun hl => hend (ended_handle (w := (b, l')) hl)
    have hold := h.retries fun hl => hend' (ht.ended hl)
    rw [ht.toRetry hend'] at hold
    rw [toRetry_handle hend, handle_log, ht.log]
    simp only [List.filter_append, List.map_append, hold]
    have hresumed : ([⟨s, e, l'.effects s e x⟩].filter Entry.resumed).map Entry.event =
        retriedEvent (some (s, e)) := by
      cases s <;> rfl
    rw [hresumed, List.append_assoc, List.append_assoc, List.append_assoc]
    by_cases hretry : .retry ∈ l'.effects s e x <;> simp [Entry.scheduled, hretry]
  dropped := by
    rw [handle_eventsDropped, handle_log, ht.log, ht.dropped, h.dropped]
    simp
  sourceGone := by
    rw [handle_eventsSourceGone, handle_log, ht.log, ht.sourceGone, h.sourceGone]
    simp
  maxRetries := by
    rw [handle_retryQueue]
    rcases effects_retry (l := l') (s := s) (e := e) (x := x) with hcount | ⟨hcount, hmax, hcap⟩
    · rw [hcount, Function.iterate_zero]
      exact ht.maxRetries.trans h.maxRetries
    · rw [hcount, Function.iterate_one, RetryQueue.push_room _ _ hmax hcap]
      exact ht.maxRetries.trans h.maxRetries

theorem Balanced.step {w : TargetBoard × WorkerLoop} (h : w.2.Balanced) (a : Action)
    (tries : Event → AttemptResult) : (step w a tries).2.Balanced := by
  have ht := take_took (l := w.2) w.1.paused a
  unfold WorkerLoop.step
  cases htake : w.2.take w.1.paused a with
  | mk r l' =>
    rw [htake] at ht
    cases r with
    | none => exact h.took ht
    | some r => exact h.handle ht (tries r.2) w.1

theorem balanced_start (scanDepth : U64) (now : ℕ) : (start scanDepth now).Balanced :=
  ⟨by simp [start], fun _ => rfl, rfl, rfl, rfl⟩

end Steps

/-! ## What an effect leaves behind -/

section Board
variable {b : TargetBoard} {f : Effect}

theorem mem_insertPath {p q : Path} {journal : List Path} (h : p = q ∨ p ∈ journal) :
    p ∈ Daemon.insertPath q journal := by
  unfold Daemon.insertPath
  split_ifs with hq
  · rcases h with rfl | h
    · exact hq
    · exact h
  · rcases h with rfl | h <;> simp [*]

theorem holdsIn_onBoard (b : TargetBoard) (f : Effect) : f.HoldsIn (onBoard b f) := by
  cases f with
  | journal p => exact .inl (mem_insertPath (.inl rfl))
  | repair job | redirect job => simp [Effect.HoldsIn, onBoard]
  | requestRescan => rfl
  | _ => trivial

theorem HoldsIn.onBoard (h : f.HoldsIn b) (g : Effect) : f.HoldsIn (onBoard b g) := by
  cases f with
  | journal p =>
    rcases h with h | h
    · cases g with
      | journal q => exact .inl (mem_insertPath (.inr h))
      | _ => exact .inl h
    · cases g <;> exact .inr h
  | repair job | redirect job => cases g <;> first | exact h | exact List.mem_append_left _ h
  | requestRescan => cases g <;> first | exact h | rfl
  | _ => trivial

theorem holdsIn_foldl (fx : List Effect) (b : TargetBoard) :
    ∀ f, f ∈ fx ∨ f.HoldsIn b → f.HoldsIn (fx.foldl onBoard b) := by
  induction fx generalizing b with
  | nil => simp
  | cons g fx ih =>
    intro f hf
    refine ih (onBoard b g) f ?_
    rcases hf with hf | hf
    · rcases List.mem_cons.mp hf with rfl | hf
      · exact .inr (holdsIn_onBoard b f)
      · exact .inl hf
    · exact .inr (HoldsIn.onBoard hf g)

theorem HoldsIn.limitJournal (h : f.HoldsIn b) : f.HoldsIn (limitJournal b) := by
  unfold WorkerLoop.limitJournal
  split_ifs
  · cases f with
    | journal p => exact .inr rfl
    | _ => exact h
  · exact h

theorem holdsIn_handle (s : TakeSite) (e : Event) (x : AttemptResult) (w : TargetBoard × WorkerLoop) :
    ∀ f ∈ w.2.effects s e x, f.HoldsIn (handle s e x w).1 := by
  intro f hf
  have hfold := holdsIn_foldl (w.2.effects s e x) w.1 f (.inl hf)
  cases s with
  | paused tin => exact HoldsIn.limitJournal hfold
  | _ => exact hfold

/-- What a step puts down in the log. -/
def entry (l : WorkerLoop) (tries : Event → AttemptResult) (r : TakeSite × Event) : Entry :=
  ⟨r.1, r.2, l.effects r.1 r.2 (tries r.2)⟩

theorem step_log (w : TargetBoard × WorkerLoop) (a : Action) (tries : Event → AttemptResult) :
    (step w a tries).2.log =
      w.2.log ++ (w.2.take w.1.paused a).1.toList.map ((w.2.take w.1.paused a).2.entry tries) := by
  have ht := take_took (l := w.2) w.1.paused a
  unfold WorkerLoop.step
  cases htake : w.2.take w.1.paused a with
  | mk r l' =>
    rw [htake] at ht
    have hlog : l'.log = w.2.log := ht.log
    cases r <;> simp [hlog, entry]

/-- The effects of the event that a step takes have been carried out when the step is over. -/
def Recorded (w w' : TargetBoard × WorkerLoop) : Prop :=
  ∀ x ∈ w'.2.log.drop w.2.log.length, ∀ f ∈ x.effects, f.HoldsIn w'.1

theorem recorded_step (w : TargetBoard × WorkerLoop) (a : Action) (tries : Event → AttemptResult) :
    Recorded w (step w a tries) := by
  unfold Recorded
  rw [step_log, List.drop_left]
  unfold WorkerLoop.step
  cases htake : w.2.take w.1.paused a with
  | mk r l' =>
    cases r with
    | none => simp
    | some r =>
      intro x hx f hf
      simp only [Option.toList_some, List.map_cons, List.map_nil, List.mem_singleton] at hx
      subst hx
      exact holdsIn_handle r.1 r.2 (tries r.2) (w.1, l') f hf

end Board

end WorkerLoop

namespace EventAccounting
open WorkerLoop

theorem step_balanced (w : TargetBoard × WorkerLoop) (a : Action) (h : w.2.Balanced) :
    (step w a).2.Balanced := by
  cases a with
  | own a tries => exact h.step a tries
  | outside board => exact h

theorem step_recorded (w : TargetBoard × WorkerLoop) (a : Action) : Recorded w (step w a) := by
  cases a with
  | own a tries => exact recorded_step w a tries
  | outside board => simp [Recorded, step]

theorem step_origins (w : TargetBoard × WorkerLoop) (a : Action) :
    (step w a).2.log.map Entry.origin = w.2.log.map Entry.origin ++ taken w a := by
  cases a with
  | own a tries =>
    simp only [step, taken, WorkerLoop.step_log, List.map_append, List.map_map]
    cases (w.2.take w.1.paused a).1 <;> rfl
  | outside board => simp [step, taken]

/-- In every run, all the events that the worker takes are in its log, and the log is balanced.
What it says about an event has been carried out when the step that takes the event is over. -/
theorem run_accounted (board : TargetBoard) (scanDepth : U64) (now : ℕ) (acts : List Action) :
    let init := (board, WorkerLoop.start scanDepth now)
    let w := Run.exec step init acts
    w.2.log.map Entry.origin = Run.outputs step taken init acts ∧ w.2.Balanced ∧
      ∀ a, Recorded w (step w a) := by
  refine ⟨?_, ?_, fun a => step_recorded _ a⟩
  · induction acts using List.reverseRecOn with
    | nil => rfl
    | append_singleton acts a ih =>
      rw [Run.exec_concat, step_origins, ih, Run.outputs_append]
      simp [Run.outputs]
  · exact Run.invariant_all step (I := fun w => w.2.Balanced) step_balanced acts
      (balanced_start scanDepth now)

/-! ## More than one account, or none -/

def board (paused : Bool) : TargetBoard := ⟨paused, [], false, false, false, []⟩

def fails (f : Failure) (_ : Event) : AttemptResult := ⟨some (.failed f), some ["a"], some ["a"], 0⟩

def redirects (_ : Event) : AttemptResult := ⟨some (.repair ⟨.mount, ["a"], 7⟩), none, none, 0⟩

def writeEvent : Event := { Event.zero with eventType := .write, inode := 7, name := "a", length := 1 }

def barrierEvent : Event := { Event.zero with eventType := .barrier }

/-- A write waits in the coalescer until the next tick. -/
def flushRun (tries : Event → AttemptResult) : List Action :=
  [.own .turn tries, .own (.recv .bulk writeEvent 100 100 0) tries, .own .turn tries,
    .own .flushTick tries, .own (.next 0) tries]

/-- A paused worker receives a barrier. -/
def pausedRun : List Action := [.own (.recv .control barrierEvent 0 0 0) (fails .other)]

/-- An event that fails at a tick is journaled and tried again; one that has to wait for its
file is finished and sent to be repaired; and a barrier that a paused worker receives has no
account at all. -/
theorem accounts_not_unique :
    (∃ x ∈ (Run.exec step (board false, .start 8 0) (flushRun (fails .other))).2.log,
      x.accounts = 2) ∧
    (∃ x ∈ (Run.exec step (board false, .start 8 0) (flushRun redirects)).2.log,
      x.accounts = 2) ∧
    ∃ x ∈ (Run.exec step (board true, .start 8 0) pausedRun).2.log, x.accounts = 0 := by
  refine ⟨⟨⟨.flushed, writeEvent, [.journal ["a"], .retry]⟩, ?_, rfl⟩,
    ⟨⟨.flushed, writeEvent, [.redirect ⟨.mount, ["a"], 7⟩, .done]⟩, ?_, rfl⟩,
    ⟨⟨.paused .control, barrierEvent, []⟩, ?_, rfl⟩⟩
  · decide
  · decide
  · decide

end EventAccounting

end Foxing
