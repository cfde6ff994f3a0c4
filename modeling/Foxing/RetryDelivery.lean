import Foxing.RetryQueue

/-!
# What the retry queue delivers

Every event that is put into the queue comes out of it at most once, in the order of the
pushes. Only the first event of the queue is looked at, so one that is not due yet keeps back
those behind it; and the delay is computed in 64 bits, of which a large number of attempts
leaves none.
-/
namespace Foxing.RetryDelivery
open RetryQueue

/-- The delay before the next attempt as it is computed. -/
def backoffMs (base attempts : ℕ) : ℕ := min (base * (2 ^ attempts % 2 ^ 64) % 2 ^ 64) 5000

def push (now : ℕ) (e : Event) (attempts : ℕ) (q : RetryQueue) : RetryQueue :=
  if attempts ≥ q.maxRetries then q
  else if q.queue.length ≥ q.capacity then q
  else { q with
    queue := q.queue ++ [⟨e, now + backoffMs q.baseBackoffMs attempts, attempts + 1⟩] }

def Accepts (q : RetryQueue) (attempts : ℕ) : Prop :=
  attempts < q.maxRetries ∧ q.queue.length < q.capacity

instance (q : RetryQueue) (attempts : ℕ) : Decidable (Accepts q attempts) :=
  inferInstanceAs (Decidable (_ ∧ _))

/-! ## Runs -/

/-- A push that has been accepted. -/
structure Pushed where
  event : Event
  time : ℕ
  attempts : ℕ

/-- What is queued for a push: the event with the time at which its delay is over, and with one
more attempt. -/
def Pushed.item (base : ℕ) (p : Pushed) : RetryItem :=
  ⟨p.event, p.time + min (base * 2 ^ p.attempts) 5000, p.attempts + 1⟩

inductive Op where
  | push (now : ℕ) (e : Event) (attempts : ℕ)
  | popReadyBatch (now max : ℕ)

/-- A queue with what went in and what came out. -/
structure Delivery where
  queue : RetryQueue
  pushed : List Pushed
  returned : List RetryItem

namespace Delivery

def start (q : RetryQueue) : Delivery := ⟨q, [], []⟩

def step (s : Delivery) : Op → Delivery
  | .push now e attempts =>
    { s with
      queue := push now e attempts s.queue
      pushed :=
        if Accepts s.queue attempts then s.pushed ++ [⟨e, now, attempts⟩] else s.pushed }
  | .popReadyBatch now max =>
    let r := s.queue.popReadyBatch now max
    { s with queue := r.2, returned := s.returned ++ r.1 }

/-- How often an event has been returned. -/
def retries (e : Event) (s : Delivery) : ℕ := s.returned.countP fun item => item.event = e

def queued (e : Event) (s : Delivery) : ℕ := s.queue.queue.countP fun item => item.event = e

end Delivery

/-! ## What is expected of a run -/

/-- Nothing is returned twice or without having been pushed, and nothing too often. -/
structure Sound (s : Delivery) : Prop where
  once : s.returned ++ s.queue.queue = s.pushed.map (Pushed.item s.queue.baseBackoffMs)
  bounded : ∀ item ∈ s.returned ++ s.queue.queue, item.attempts ≤ s.queue.maxRetries

/-- Neither the power nor the product of a delay wraps. -/
def NoOverflow (base attempts : ℕ) : Prop :=
  2 ^ attempts % 2 ^ 64 = 2 ^ attempts ∧ base * 2 ^ attempts % 2 ^ 64 = base * 2 ^ attempts

/-- No delay overflows. What is returned is due, and a batch that is not full leaves nothing that
is. -/
def Timely (s : Delivery) : Op → Prop
  | .push _ _ attempts =>
    Accepts s.queue attempts → NoOverflow s.queue.baseBackoffMs attempts
  | .popReadyBatch now max =>
    (∀ item ∈ (s.queue.popReadyBatch now max).1, item.nextAttempt ≤ now) ∧
      ((s.queue.popReadyBatch now max).1.length < max →
        ∀ item ∈ (s.queue.popReadyBatch now max).2.queue, now < item.nextAttempt)

/-- An event is pushed with the number of its retries, while it is not in the queue. -/
def Counted (e : Event) (s : Delivery) : Op → Prop
  | .push _ e' attempts => e' = e → s.queued e = 0 ∧ attempts = s.retries e
  | .popReadyBatch _ _ => True

structure Delivers (s : Delivery) (ops : List Op) : Prop where
  sound : ∀ p, p <+: ops → Sound (Run.exec Delivery.step s p)
  timely : Run.Along Delivery.step Timely s ops
  limited : ∀ e, Run.Along Delivery.step (Counted e) s ops → ∀ p, p <+: ops →
    (Run.exec Delivery.step s p).retries e ≤ s.queue.maxRetries

/-! ## When a run meets it -/

/-- Behind an event that is not due there is none that is, unless there are enough in front. -/
def Unblocked (now max : ℕ) (items : List RetryItem) : Prop :=
  ∀ front item behind, items = front ++ item :: behind → now < item.nextAttempt →
    (∀ later ∈ behind, now < later.nextAttempt) ∨ max ≤ front.length

/-- The attempts are few enough, and an event that is due is not kept back. -/
def Fits (s : Delivery) : Op → Prop
  | .push _ _ attempts => Accepts s.queue attempts →
    attempts < 64 ∧ s.queue.baseBackoffMs * 2 ^ attempts < 2 ^ 64
  | .popReadyBatch now max => Unblocked now max s.queue.queue

/-! ## The batch -/

section PopReady
variable (now max : ℕ) (items : List RetryItem)

theorem due_popReady : ∀ item ∈ (popReady now max items).1, item.nextAttempt ≤ now := by
  induction max generalizing items with
  | zero => simp [popReady]
  | succ max ih =>
    cases items with
    | nil => simp [popReady]
    | cons item items =>
      rw [popReady]
      split_ifs with hdue
      · exact List.forall_mem_cons.mpr ⟨hdue, ih items⟩
      · simp

/-- A batch that is not full ends before the first event that is not due. -/
theorem popReady_short (h : (popReady now max items).1.length < max) :
    ∀ item ∈ (popReady now max items).2.head?, now < item.nextAttempt := by
  induction max generalizing items with
  | zero => exact absurd h (Nat.not_lt_zero _)
  | succ max ih =>
    cases items with
    | nil => simp [popReady]
    | cons item items =>
      rw [popReady] at h ⊢
      split_ifs at h ⊢ with hdue
      · exact ih items (Nat.lt_of_succ_lt_succ h)
      · intro item' hitem'
        cases hitem'
        exact Nat.lt_of_not_le hdue

theorem unblocked_iff : Unblocked now max items ↔
    ((popReady now max items).1.length < max →
      ∀ item ∈ (popReady now max items).2, now < item.nextAttempt) := by
  have happ := popReady_append now max items
  have hdue := due_popReady now max items
  have hhead := popReady_short now max items
  generalize (popReady now max items).1 = batch at *
  generalize (popReady now max items).2 = rest at *
  subst happ
  constructor
  · intro h hshort
    cases rest with
    | nil => simp
    | cons item behind =>
      have hitem := hhead hshort item rfl
      refine List.forall_mem_cons.mpr ⟨hitem, ?_⟩
      exact (h batch item behind rfl hitem).resolve_right (by omega)
  · intro h front item behind hsplit hitem
    rcases Nat.lt_or_ge front.length max with hfew | hmany
    · left
      intro later hlater
      rcases List.append_eq_append_iff.mp hsplit with ⟨middle, rfl, rfl⟩ | ⟨middle, rfl, hrest⟩
      · rw [List.length_append] at hfew
        exact h (by omega) later (by simp [hlater])
      · cases middle with
        | nil =>
          rw [List.append_nil] at h
          rw [List.nil_append] at hrest
          subst hrest
          exact h hfew later (List.mem_cons_of_mem item hlater)
        | cons first middle =>
          -- The event that is not due would be among those that are returned.
          obtain ⟨rfl, -⟩ := List.cons.inj hrest
          exact absurd (hdue item (by simp)) (Nat.not_le.mpr hitem)
    · exact .inr hmany

end PopReady

/-! ## Steps -/

section Steps
variable {s : Delivery}

theorem noOverflow_iff {base attempts : ℕ} :
    NoOverflow base attempts ↔ attempts < 64 ∧ base * 2 ^ attempts < 2 ^ 64 := by
  have hpos : 0 < 2 ^ 64 := Nat.two_pow_pos 64
  rw [NoOverflow, Nat.mod_eq_iff_lt hpos.ne', Nat.mod_eq_iff_lt hpos.ne',
    Nat.pow_lt_pow_iff_right (Nat.lt_succ_self 1)]

theorem timely_iff (s : Delivery) (op : Op) : Timely s op ↔ Fits s op := by
  cases op with
  | push now e attempts => exact imp_congr Iff.rfl noOverflow_iff
  | popReadyBatch now max =>
    exact (and_iff_right (due_popReady now max _)).trans (unblocked_iff now max _).symm

theorem push_accepted {attempts : ℕ} (h : Accepts s.queue attempts) (now : ℕ) (e : Event) :
    push now e attempts s.queue = { s.queue with
      queue := s.queue.queue ++
        [⟨e, now + backoffMs s.queue.baseBackoffMs attempts, attempts + 1⟩] } := by
  unfold push
  rw [if_neg (Nat.not_le.mpr h.1), if_neg (Nat.not_le.mpr h.2)]

theorem push_refused {attempts : ℕ} (h : ¬ Accepts s.queue attempts) (now : ℕ) (e : Event) :
    push now e attempts s.queue = s.queue := by
  unfold push
  split_ifs with hmax hcap
  · rfl
  · rfl
  · exact absurd ⟨Nat.lt_of_not_le hmax, Nat.lt_of_not_le hcap⟩ h

theorem backoffMs_eq {base attempts : ℕ} (h : NoOverflow base attempts) :
    backoffMs base attempts = min (base * 2 ^ attempts) 5000 := by
  rw [backoffMs, h.1, h.2]

/-- With the settings of a worker no delay overflows, and it is computed as it is meant. -/
theorem push_eq {q : RetryQueue} (hmax : q.maxRetries = 10) (hbase : q.baseBackoffMs = 50)
    (now : ℕ) (e : Event) (attempts : ℕ) : push now e attempts q = q.push now e attempts := by
  unfold push RetryQueue.push
  split_ifs with hmany hfull
  · rfl
  · rfl
  · have hpow : 2 ^ attempts < 2 ^ 10 := Nat.pow_lt_pow_right (Nat.lt_succ_self 1) (by omega)
    have hfits : NoOverflow q.baseBackoffMs attempts := by
      rw [hbase]
      exact noOverflow_iff.mpr (by omega)
    rw [backoffMs_eq hfits]

/-- What the calls leave as it is. -/
theorem step_limits (s : Delivery) (op : Op) :
    (s.step op).queue.maxRetries = s.queue.maxRetries ∧
      (s.step op).queue.baseBackoffMs = s.queue.baseBackoffMs := by
  cases op with
  | push now e attempts =>
    by_cases h : Accepts s.queue attempts
    · simp [Delivery.step, push_accepted h]
    · simp [Delivery.step, push_refused h]
  | popReadyBatch now max => exact ⟨rfl, rfl⟩

/-- The queue and what has come out of it are what went in. -/
theorem Sound.step (h : Sound s) {op : Op} (hop : Fits s op) : Sound (s.step op) := by
  obtain ⟨honce, hbounded⟩ := h
  cases op with
  | push now e attempts =>
    by_cases haccepts : Accepts s.queue attempts
    · have hfits := noOverflow_iff.mpr (hop haccepts)
      have hstep : s.step (.push now e attempts) =
          { s with
            queue := { s.queue with queue := s.queue.queue ++
              [(⟨e, now, attempts⟩ : Pushed).item s.queue.baseBackoffMs] }
            pushed := s.pushed ++ [⟨e, now, attempts⟩] } := by
        rw [Delivery.step, push_accepted haccepts, if_pos haccepts, backoffMs_eq hfits]
        rfl
      rw [hstep]
      constructor
      · show s.returned ++ (s.queue.queue ++ [_]) = (s.pushed ++ [_]).map _
        rw [← List.append_assoc, honce, List.map_append, List.map_singleton]
      · show ∀ item ∈ s.returned ++ (s.queue.queue ++ [_]), item.attempts ≤ s.queue.maxRetries
        rw [← List.append_assoc]
        exact List.forall_mem_append.mpr ⟨hbounded, List.forall_mem_singleton.mpr haccepts.1⟩
    · have hstep : s.step (.push now e attempts) = s := by
        rw [Delivery.step, push_refused haccepts, if_neg haccepts]
      rw [hstep]
      exact ⟨honce, hbounded⟩
  | popReadyBatch now max =>
    have happ : (s.step (.popReadyBatch now max)).returned ++
        (s.step (.popReadyBatch now max)).queue.queue = s.returned ++ s.queue.queue := by
      show (s.returned ++ (popReady now max s.queue.queue).1) ++
        (popReady now max s.queue.queue).2 = _
      rw [List.append_assoc, popReady_append]
    exact ⟨happ.trans honce, happ ▸ hbounded⟩

/-- An event that is counted is neither queued nor returned too often. -/
theorem retries_step {e : Event} {op : Op} (hop : Counted e s op)
    (h : s.retries e + s.queued e ≤ s.queue.maxRetries) :
    (s.step op).retries e + (s.step op).queued e ≤ (s.step op).queue.maxRetries := by
  rw [(step_limits s op).1]
  cases op with
  | push now e' attempts =>
    by_cases haccepts : Accepts s.queue attempts
    · have hqueued : (s.step (.push now e' attempts)).queued e =
          s.queued e + if e' = e then 1 else 0 := by
        simp [Delivery.step, push_accepted haccepts, Delivery.queued, List.countP_append,
          List.countP_cons]
      rw [hqueued]
      show s.retries e + _ ≤ _
      split_ifs with he
      · obtain ⟨hnone, hattempts⟩ := hop he
        have hlt := haccepts.1
        omega
      · exact h
    · rw [Delivery.step, push_refused haccepts]
      exact h
  | popReadyBatch now max =>
    have hsplit : (s.step (.popReadyBatch now max)).retries e +
        (s.step (.popReadyBatch now max)).queued e = s.retries e + s.queued e := by
      show (s.returned ++ (popReady now max s.queue.queue).1).countP _ +
        (popReady now max s.queue.queue).2.countP _ = _
      rw [List.countP_append, Nat.add_assoc, ← List.countP_append, popReady_append]
      rfl
    exact hsplit.trans_le h

end Steps

/-! ## Runs that deliver what is due -/

theorem sound_start (q : RetryQueue) (hq : q.queue = []) : Sound (.start q) := by
  constructor
  · simp [Delivery.start, hq]
  · simp [Delivery.start, hq]

/-- A run delivers what is due if and only if delays fit and nothing that is due is kept back. With
the settings of a worker delays fit (`push_eq`). -/
theorem delivers_iff (maxRetries baseBackoffMs capacity : ℕ) (ops : List Op) :
    Delivers (.start (.new maxRetries baseBackoffMs capacity)) ops ↔
      Run.Along Delivery.step Fits (.start (.new maxRetries baseBackoffMs capacity)) ops := by
  have htimely : Run.Along Delivery.step Timely
      (.start (.new maxRetries baseBackoffMs capacity)) ops ↔
        Run.Along Delivery.step Fits (.start (.new maxRetries baseBackoffMs capacity)) ops :=
    Run.along_congr Delivery.step (I := fun _ => True) (fun _ _ _ => trivial)
      (fun s op _ => timely_iff s op) ops trivial
  rw [← htimely]
  refine ⟨Delivers.timely, fun h => ⟨?_, h, ?_⟩⟩
  · exact Run.invariant_prefix Delivery.step (fun s op hop hs => Sound.step hs hop)
      (htimely.mp h) (sound_start _ rfl)
  · rintro e hcounted p ⟨rest, rfl⟩
    have hp := ((Run.along_append Delivery.step (Counted e) _ p rest).mp hcounted).1
    have hend := Run.invariant Delivery.step
      (I := fun s =>
        s.retries e + s.queued e ≤ s.queue.maxRetries ∧ s.queue.maxRetries = maxRetries)
      (fun s op hop hs => ⟨retries_step hop hs.1, (step_limits s op).1.trans hs.2⟩) hp
      ⟨Nat.zero_le _, rfl⟩
    exact (Nat.le_add_right _ _).trans (hend.1.trans_eq hend.2)

/-! ## An event that is kept back -/

/-- An event of which three attempts have failed is pushed before a fresh one. The fresh one is
due after 50 ms, and is not returned after 100 ms. -/
def keptBack : List Op := [.push 0 .zero 3, .push 0 .zero 0, .popReadyBatch 100 16]

theorem keptBack_not_delivered : ¬ Delivers (.start .initial) keptBack := by
  intro h
  have hpop := h.timely.2.2.1.2 (by decide)
  exact absurd hpop (by decide)

end Foxing.RetryDelivery
