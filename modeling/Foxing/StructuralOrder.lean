import Foxing.Fanout
import Foxing.Lib.Lanes
import Foxing.Lib.Run

/-!
# The order of structural events

Structural events go to the first worker. When its channel is full an event goes to another
worker that has room, and if there is none the push waits for the first. Each worker applies
what it has received in that order, and as fast as it can. Events are numbered as they are
pushed.
-/
namespace Foxing

/-- A channel that is not closed takes what it is sent, or is full. -/
theorem Channel.result_ne_closed (capacity : Option ℕ) (events : List Event) :
    (Channel.mk capacity events false).result ≠ .closed := by
  unfold result
  rw [if_neg Bool.false_ne_true]
  split_ifs <;> decide

namespace Fanout

/-- The worker that gets a structural event, if one has room. -/
def structuralIdx (q : Fanout) : Option (Fin q.workers) :=
  if (q.channel .structural q.first).result = .sent then some q.first
  else (q.others q.first).find? fun j => (q.channel .structural j).result = .sent

/-- The worker that is found has room. -/
theorem sent_of_structuralIdx {q : Fanout} {i : Fin q.workers} (h : q.structuralIdx = some i) :
    (q.channel .structural i).result = .sent := by
  unfold structuralIdx at h
  split_ifs at h with hfirst
  · exact Option.some.inj h ▸ hfirst
  · simpa using List.find?_some h

theorem targetIdx_structural {e : Event} (h : e.eventType.tin = .structural) (hash : U64 → ℕ)
    (q : Fanout) : q.targetIdx hash e = q.first := by
  have hcontrol : e.eventType.isControlPlane = true := by
    revert h
    cases e.eventType <;> decide
  exact dif_pos (.inr hcontrol)

/-- A push of a structural event goes that way as long as the workers are there. -/
theorem push_structural {e : Event} {q : Fanout} (h : e.eventType.tin = .structural)
    (hint : e.isInternalTraffic = false)
    (hopen : ∀ i, (q.channel .structural i).result ≠ .closed) (hash : U64 → ℕ) :
    q.push hash e = q.structuralIdx.map fun j => (true, (q.trySend e .structural j).2) := by
  have hpush : q.push hash e = q.pushStructural e q.first := by
    rw [push, hint, if_neg Bool.false_ne_true, targetIdx_structural h]
    simp only [h]
  rw [hpush, pushStructural, structuralIdx]
  simp only [trySend]
  cases hresult : (q.channel .structural q.first).result with
  | sent => rfl
  | closed => exact absurd hresult (hopen _)
  | full =>
    rw [if_neg (by decide)]
    cases (q.others q.first).find? fun j => (q.channel .structural j).result = .sent with
    | some j => rfl
    | none => rfl

end Fanout

/-- An event that takes a place in the structural channels. -/
abbrev StructuralEvent := {e : Event // e.eventType.tin = .structural}

namespace StructuralOrder

/-- There is a first worker. -/
scoped instance (priority := 2000) neZeroWorkers (n : ℕ) : NeZero (n + 1) := ⟨n.succ_ne_zero⟩

scoped instance (priority := 2000) neZeroTwo : NeZero (1 + 1) := ⟨Nat.succ_ne_zero 1⟩

structure Item where
  number : ℕ
  event : Event

/-- What the workers `0` to `n` have, and the push that waits for room. -/
structure Delivery (n : ℕ) where
  queued : Fin (n + 1) → List Item
  working : Fin (n + 1) → Option Item
  waiting : Option Item
  applied : List Item
  pushed : ℕ

inductive Action (n : ℕ)
  | push (e : StructuralEvent)
  | enter
  | recv (i : Fin (n + 1))
  | apply (i : Fin (n + 1))

/-- No new event is pushed. -/
def Action.internal {n : ℕ} : Action n → Bool
  | .push _ => false
  | _ => true

namespace Delivery
variable {n : ℕ}

def init (n : ℕ) : Delivery n := ⟨fun _ => [], fun _ => none, none, [], 0⟩

/-- The channels of the workers. -/
def channels (queued : Fin (n + 1) → List Item) (tin : EventTin) (i : Fin (n + 1)) : Channel :=
  ⟨tin.channelCapacity, if tin = .structural then (queued i).map Item.event else [], false⟩

def fanout (s : Delivery n) : Fanout := ⟨n + 1, Nat.succ_pos n, channels s.queued⟩

/-- The worker that gets the next event, if one has room. -/
def destination (s : Delivery n) : Option (Fin (n + 1)) := s.fanout.structuralIdx

def enqueue (s : Delivery n) (i : Fin (n + 1)) (x : Item) : Delivery n :=
  { s with queued := Function.update s.queued i (s.queued i ++ [x]) }

/-- The caller of a push that waits does nothing else. -/
def push (s : Delivery n) (e : Event) : Delivery n :=
  if s.waiting.isSome then s
  else if e.isInternalTraffic then { s with pushed := s.pushed + 1 }
  else
    match s.destination with
    | some i => { s.enqueue i ⟨s.pushed, e⟩ with pushed := s.pushed + 1 }
    | none => { s with waiting := some ⟨s.pushed, e⟩, pushed := s.pushed + 1 }

/-- The push that waits is let into the channel of the first worker. -/
def enter (s : Delivery n) : Delivery n :=
  match s.waiting with
  | some x =>
    if (s.fanout.channel .structural s.fanout.first).result = .sent then
      { s.enqueue 0 x with waiting := none }
    else s
  | none => s

def recv (s : Delivery n) (i : Fin (n + 1)) : Delivery n :=
  match s.working i, s.queued i with
  | none, x :: rest =>
    { s with queued := Function.update s.queued i rest,
             working := Function.update s.working i (some x) }
  | _, _ => s

def apply (s : Delivery n) (i : Fin (n + 1)) : Delivery n :=
  match s.working i with
  | some x => { s with working := Function.update s.working i none, applied := s.applied ++ [x] }
  | none => s

def step (s : Delivery n) : Action n → Delivery n
  | .push e => s.push e.1
  | .enter => s.enter
  | .recv i => s.recv i
  | .apply i => s.apply i

theorem channels_enqueue {queued : Fin (n + 1) → List Item} {i : Fin (n + 1)} {x : Item}
    (hsent : (channels queued .structural i).result = .sent) :
    Function.update (channels queued) .structural (Function.update (channels queued .structural) i
        ((channels queued .structural i).trySend x.event).2) =
      channels (Function.update queued i (queued i ++ [x])) := by
  funext tin j
  by_cases htin : tin = .structural
  · subst htin
    rw [Function.update_self]
    by_cases hj : j = i
    · subst hj
      rw [Function.update_self, Channel.trySend, if_pos hsent]
      simp [channels]
    · rw [Function.update_of_ne hj]
      simp [channels, Function.update_of_ne hj]
  · rw [Function.update_of_ne htin]
    simp [channels, htin]

/-- The channels after a push are those of the fan-out. -/
theorem fanout_push {s : Delivery n} (hwaiting : s.waiting = none) {e : StructuralEvent}
    (hint : e.1.isInternalTraffic = false) (hash : U64 → ℕ) :
    s.fanout.push hash e.1 = s.destination.map fun _ => (true, (s.push e.1).fanout) := by
  rw [Fanout.push_structural e.2 hint (fun _ => Channel.result_ne_closed _ _) hash]
  show s.destination.map _ = _
  cases hdest : s.destination with
  | none => rfl
  | some i =>
    have hpush : s.push e.1 = { s.enqueue i ⟨s.pushed, e.1⟩ with pushed := s.pushed + 1 } := by
      rw [Delivery.push, if_neg (by simp [hwaiting]), hint, if_neg Bool.false_ne_true, hdest]
    rw [hpush]
    show some (true, s.fanout.setChannel .structural i
      ((s.fanout.channel .structural i).trySend e.1).2) = _
    exact congrArg (fun channel => some (true, (⟨n + 1, Nat.succ_pos n, channel⟩ : Fanout)))
      (channels_enqueue (x := ⟨s.pushed, e.1⟩) (Fanout.sent_of_structuralIdx hdest))

end Delivery

/-- An event has to wait for an earlier one of the same inode, and for one of a directory above
its own entry. -/
def Related (ancestors : Event → List U64) (x y : Event) : Prop :=
  x.inode = y.inode ∨ x.inode ∈ ancestors y

def Before (ancestors : Event → List U64) (x y : Item) : Prop :=
  x.number < y.number ∧ Related ancestors x.event y.event

namespace Delivery
variable {n : ℕ} (ancestors : Event → List U64)

/-- No event has been applied before an earlier one that it has to wait for. -/
def InOrder (s : Delivery n) : Prop := s.applied.Pairwise fun x y => ¬ Before ancestors y x

/-- What a worker still has to apply, in that order. -/
def lanes (s : Delivery n) (i : Fin (n + 1)) : List Item :=
  (s.working i).toList ++ (s.queued i ++ if i = 0 then s.waiting.toList else [])

/-- The earlier events that a pushed one has to wait for are with the worker that gets it. -/
def Follows (s : Delivery n) : Action n → Prop
  | .push e => s.waiting = none → e.1.isInternalTraffic = false →
      ∀ i, i ≠ s.destination.getD 0 → ∀ x ∈ s.lanes i, ¬ Related ancestors x.event e.1
  | _ => True

/-- All is in order so far, and what is pushed next has a number of its own. -/
structure Sorted (s : Delivery n) : Prop where
  ordered : Lanes.Ordered (Before ancestors) s.lanes s.applied
  fresh : ∀ i, ∀ x ∈ s.lanes i, x.number < s.pushed
  freshApplied : ∀ x ∈ s.applied, x.number < s.pushed

variable {ancestors} {s : Delivery n}

theorem sorted_init : (init n).Sorted ancestors := by
  have hlanes : (init n).lanes = fun _ => [] := by
    funext i
    simp [lanes, init]
  refine ⟨?_, ?_, ?_⟩
  · rw [hlanes]
    exact Lanes.ordered_nil
  · intro i x hx
    rw [hlanes] at hx
    cases hx
  · intro x hx
    cases hx

theorem lanes_enqueue (hwaiting : s.waiting = none) (i : Fin (n + 1)) (x : Item) :
    (s.enqueue i x).lanes = Function.update s.lanes i (s.lanes i ++ [x]) := by
  funext j
  by_cases hj : j = i
  · subst hj
    simp [lanes, enqueue, hwaiting]
  · simp [lanes, enqueue, hwaiting, hj]

/-- An item with the next number at the end of a lane. -/
theorem Sorted.append (h : s.Sorted ancestors) {e : Event} {i : Fin (n + 1)}
    (hfollows : ∀ j, j ≠ i → ∀ x ∈ s.lanes j, ¬ Related ancestors x.event e) {s' : Delivery n}
    (hlanes : s'.lanes = Function.update s.lanes i (s.lanes i ++ [⟨s.pushed, e⟩]))
    (happlied : s'.applied = s.applied) (hpushed : s'.pushed = s.pushed + 1) :
    s'.Sorted ancestors := by
  refine ⟨?_, ?_, ?_⟩
  · rw [hlanes, happlied]
    refine h.ordered.push (fun j y hy hbefore => ?_) (fun y hy hbefore => ?_)
      (fun j hj y hy hbefore => hfollows j hj y hy hbefore.2)
    · have hlt := h.fresh j y hy
      have hgt : s.pushed < y.number := hbefore.1
      omega
    · have hlt := h.freshApplied y hy
      have hgt : s.pushed < y.number := hbefore.1
      omega
  · intro j x hx
    rw [hlanes] at hx
    by_cases hj : j = i
    · subst hj
      rw [Function.update_self] at hx
      rcases List.mem_append.mp hx with hx | hx
      · have := h.fresh j x hx
        omega
      · rw [List.mem_singleton.mp hx, hpushed]
        exact Nat.lt_succ_self _
    · rw [Function.update_of_ne hj] at hx
      have := h.fresh j x hx
      omega
  · intro x hx
    rw [happlied] at hx
    have := h.freshApplied x hx
    omega

theorem Sorted.push (h : s.Sorted ancestors) {e : StructuralEvent}
    (hfollows : s.Follows ancestors (.push e)) : (s.push e.1).Sorted ancestors := by
  unfold Delivery.push
  split_ifs with hwaiting hint
  · exact h
  · exact ⟨h.ordered, fun i x hx => Nat.lt_succ_of_lt (h.fresh i x hx),
      fun x hx => Nat.lt_succ_of_lt (h.freshApplied x hx)⟩
  · have hnone : s.waiting = none := by simpa using hwaiting
    have hrelated := hfollows hnone (by simpa using hint)
    cases hdest : s.destination with
    | some i =>
      rw [hdest] at hrelated
      exact h.append hrelated (lanes_enqueue hnone i _) rfl rfl
    | none =>
      rw [hdest] at hrelated
      refine h.append hrelated ?_ rfl rfl
      funext j
      by_cases hj : j = 0
      · subst hj
        simp [lanes, hnone]
      · simp [lanes, hnone, hj]

/-- An item changes its place in its lane. -/
theorem Sorted.of_lanes (h : s.Sorted ancestors) {s' : Delivery n} (hlanes : s'.lanes = s.lanes)
    (happlied : s'.applied = s.applied) (hpushed : s'.pushed = s.pushed) :
    s'.Sorted ancestors := by
  refine ⟨?_, ?_, ?_⟩
  · rw [hlanes, happlied]
    exact h.ordered
  · rw [hlanes, hpushed]
    exact h.fresh
  · rw [happlied, hpushed]
    exact h.freshApplied

theorem lanes_enter (s : Delivery n) : s.enter.lanes = s.lanes := by
  unfold enter
  cases hwaiting : s.waiting with
  | none => rfl
  | some x =>
    dsimp only
    split_ifs
    · funext j
      by_cases hj : j = 0
      · subst hj
        simp [lanes, enqueue, hwaiting]
      · simp [lanes, enqueue, hj]
    · rfl

theorem lanes_recv (s : Delivery n) (i : Fin (n + 1)) : (s.recv i).lanes = s.lanes := by
  unfold recv
  cases hworking : s.working i with
  | some x => rfl
  | none =>
    cases hqueued : s.queued i with
    | nil => rfl
    | cons x rest =>
      funext j
      by_cases hj : j = i
      · subst hj
        simp [lanes, hworking, hqueued]
      · simp [lanes, hj]

theorem lanes_apply {i : Fin (n + 1)} {x : Item} (hworking : s.working i = some x) :
    ∃ rest, s.lanes i = x :: rest ∧ (s.apply i).lanes = Function.update s.lanes i rest ∧
      (s.apply i).applied = s.applied ++ [x] ∧ (s.apply i).pushed = s.pushed := by
  refine ⟨s.queued i ++ if i = 0 then s.waiting.toList else [], ?_, ?_, ?_, ?_⟩
  · simp [lanes, hworking]
  · funext j
    by_cases hj : j = i
    · subst hj
      simp [lanes, Delivery.apply, hworking]
    · simp [lanes, Delivery.apply, hworking, hj]
  · simp [Delivery.apply, hworking]
  · simp [Delivery.apply, hworking]

theorem Sorted.apply (h : s.Sorted ancestors) (i : Fin (n + 1)) :
    (s.apply i).Sorted ancestors := by
  cases hworking : s.working i with
  | none =>
    have hsame : s.apply i = s := by simp [Delivery.apply, hworking]
    rw [hsame]
    exact h
  | some x =>
    obtain ⟨rest, hlane, hlanes, happlied, hpushed⟩ := lanes_apply hworking
    have hsub : ∀ j, (s.apply i).lanes j ⊆ s.lanes j := by
      intro j y hy
      rw [hlanes] at hy
      by_cases hj : j = i
      · subst hj
        rw [Function.update_self] at hy
        exact hlane ▸ List.mem_cons_of_mem x hy
      · rwa [Function.update_of_ne hj] at hy
    refine ⟨?_, ?_, ?_⟩
    · rw [hlanes, happlied]
      exact h.ordered.pop hlane
    · intro j y hy
      rw [hpushed]
      exact h.fresh j y (hsub j hy)
    · intro y hy
      rw [happlied] at hy
      rw [hpushed]
      rcases List.mem_append.mp hy with hy | hy
      · exact h.freshApplied y hy
      · rw [List.mem_singleton.mp hy]
        exact h.fresh i x (hlane ▸ List.mem_cons_self ..)

theorem enter_frame (s : Delivery n) :
    s.enter.applied = s.applied ∧ s.enter.pushed = s.pushed := by
  unfold enter
  cases s.waiting with
  | none => exact ⟨rfl, rfl⟩
  | some x =>
    dsimp only
    split_ifs
    · exact ⟨rfl, rfl⟩
    · exact ⟨rfl, rfl⟩

theorem recv_frame (s : Delivery n) (i : Fin (n + 1)) :
    (s.recv i).applied = s.applied ∧ (s.recv i).pushed = s.pushed := by
  unfold recv
  cases s.working i with
  | some x => exact ⟨rfl, rfl⟩
  | none =>
    cases s.queued i with
    | nil => exact ⟨rfl, rfl⟩
    | cons x rest => exact ⟨rfl, rfl⟩

theorem Sorted.step (h : s.Sorted ancestors) {a : Action n} (hfollows : s.Follows ancestors a) :
    (s.step a).Sorted ancestors := by
  cases a with
  | push e => exact h.push hfollows
  | enter => exact h.of_lanes (lanes_enter s) (enter_frame s).1 (enter_frame s).2
  | recv i => exact h.of_lanes (lanes_recv s i) (recv_frame s i).1 (recv_frame s i).2
  | apply i => exact h.apply i

/-! ## Schedules that overtake -/

/-- A worker that has something to apply can go on until it is about to. -/
theorem ready (s : Delivery n) {i : Fin (n + 1)} (hlane : s.lanes i ≠ []) :
    ∃ bs : List (Action n), (∀ b ∈ bs, b.internal = true) ∧
      (Run.exec step s bs).lanes = s.lanes ∧ (Run.exec step s bs).applied = s.applied ∧
      ∃ x, (Run.exec step s bs).working i = some x := by
  cases hworking : s.working i with
  | some x => exact ⟨[], by simp, rfl, rfl, x, hworking⟩
  | none =>
    cases hqueued : s.queued i with
    | cons x rest =>
      refine ⟨[.recv i], by simp [Action.internal], lanes_recv s i, (recv_frame s i).1, x, ?_⟩
      simp [Delivery.step, recv, hworking, hqueued]
    | nil =>
      -- what is left is the push that waits for the first worker
      have hwaiting : i = 0 ∧ ∃ x, s.waiting = some x := by
        by_cases hi : i = 0
        · cases hwaiting : s.waiting with
          | none => simp [lanes, hworking, hqueued, hwaiting] at hlane
          | some x => exact ⟨hi, x, rfl⟩
        · simp [lanes, hworking, hqueued, hi] at hlane
      obtain ⟨rfl, x, hwaiting⟩ := hwaiting
      have hroom : (s.fanout.channel .structural s.fanout.first).result = .sent := by
        have hevents : (s.fanout.channel .structural s.fanout.first).events = [] := by
          show (s.queued 0).map Item.event = []
          rw [hqueued, List.map_nil]
        rw [Channel.result, hevents]
        rfl
      have henter : s.enter.queued 0 = [x] ∧ s.enter.working 0 = none := by
        unfold enter
        rw [hwaiting]
        dsimp only
        rw [if_pos hroom]
        simp [enqueue, hqueued, hworking]
      refine ⟨[.enter, .recv 0], by simp [Action.internal], ?_, ?_, x, ?_⟩
      · exact (lanes_recv s.enter 0).trans (lanes_enter s)
      · exact (recv_frame s.enter 0).1.trans (enter_frame s).1
      · simp [Delivery.step, recv, henter.1, henter.2]

/-- A worker can apply all that it has while the others do nothing. -/
theorem flush (s : Delivery n) (i : Fin (n + 1)) :
    ∃ bs : List (Action n), (∀ b ∈ bs, b.internal = true) ∧
      (Run.exec step s bs).applied = s.applied ++ s.lanes i ∧
      ∀ j, j ≠ i → (Run.exec step s bs).lanes j = s.lanes j := by
  induction hlength : (s.lanes i).length generalizing s with
  | zero =>
    have hnil : s.lanes i = [] := List.length_eq_zero_iff.mp hlength
    exact ⟨[], by simp, by simp [hnil], fun _ _ => rfl⟩
  | succ k ih =>
    have hne : s.lanes i ≠ [] := List.ne_nil_of_length_eq_add_one hlength
    obtain ⟨bs, hbs, hlanes, happlied, x, hworking⟩ := ready s hne
    obtain ⟨rest, hlane, hlanes', happlied', -⟩ := lanes_apply hworking
    rw [hlanes] at hlane hlanes'
    obtain ⟨bs', hbs', happlied'', hother⟩ := ih ((Run.exec step s bs).apply i) (by
      rw [hlanes', Function.update_self]
      simpa [hlane] using hlength)
    have hexec : Run.exec step s (bs ++ .apply i :: bs') =
        Run.exec step ((Run.exec step s bs).apply i) bs' := Run.exec_append step s bs _
    refine ⟨bs ++ .apply i :: bs', ?_, ?_, ?_⟩
    · intro b hb
      rcases List.mem_append.mp hb with hb | hb
      · exact hbs b hb
      · rcases List.mem_cons.mp hb with rfl | hb
        · rfl
        · exact hbs' b hb
    · rw [hexec, happlied'', happlied', happlied, hlanes', Function.update_self, hlane]
      simp
    · intro j hj
      rw [hexec, hother j hj, hlanes', Function.update_of_ne hj]

/-- Where an event goes to another worker than an earlier one that it has to wait for, it can be
applied before that. -/
theorem overtakes (h : s.Sorted ancestors) {e : StructuralEvent}
    (hnot : ¬ s.Follows ancestors (.push e)) :
    ∃ bs : List (Action n), (∀ b ∈ bs, b.internal = true) ∧
      ¬ (Run.exec step (s.push e.1) bs).InOrder ancestors := by
  simp only [Follows, not_forall, not_not] at hnot
  obtain ⟨hwaiting, hint, i, hi, x, hx, hrelated⟩ := hnot
  -- the lanes after the push
  have hlanes : (s.push e.1).lanes =
      Function.update s.lanes (s.destination.getD 0)
        (s.lanes (s.destination.getD 0) ++ [⟨s.pushed, e.1⟩]) := by
    unfold Delivery.push
    rw [hwaiting, if_neg (by simp), hint, if_neg Bool.false_ne_true]
    cases s.destination with
    | some j => exact lanes_enqueue hwaiting j _
    | none =>
      funext j
      by_cases hj : j = 0
      · subst hj
        simp [lanes, hwaiting]
      · simp [lanes, hwaiting, hj]
  obtain ⟨bs, hbs, happlied, hother⟩ := flush (s.push e.1) (s.destination.getD 0)
  obtain ⟨bs', hbs', happlied', -⟩ := flush (Run.exec step (s.push e.1) bs) i
  refine ⟨bs ++ bs', ?_, fun hinOrder => ?_⟩
  · intro b hb
    exact (List.mem_append.mp hb).elim (hbs b) (hbs' b)
  · rw [InOrder, Run.exec_append, happlied', happlied, hother i hi, hlanes, Function.update_self,
      Function.update_of_ne hi, List.pairwise_append] at hinOrder
    refine hinOrder.2.2 ⟨s.pushed, e.1⟩ (by simp) x hx ⟨?_, hrelated⟩
    exact h.fresh i x hx

/-- Whatever the workers do next, events are applied in their order exactly if each is pushed to
the worker that has the earlier ones it has to wait for. A push is that of the fan-out
(`fanout_push`). -/
theorem inOrder_iff (ancestors : Event → List U64) (n : ℕ) (as : List (Action n)) :
    (∀ p, p <+: as → ∀ bs : List (Action n), (∀ b ∈ bs, b.internal = true) →
        (Run.exec step (init n) (p ++ bs)).InOrder ancestors) ↔
      Run.Along step (Follows ancestors) (init n) as := by
  refine Run.forall_schedule_iff_along step (G := Sorted ancestors) (fun s a hok hs => hs.step hok)
    (fun s a hfree => ?_) (fun s hs => hs.ordered.done) (fun s a hs hnot => ?_) as sorted_init
  · cases a with
    | push e => cases hfree
    | enter => trivial
    | recv i => trivial
    | apply i => trivial
  · cases a with
    | push e => exact overtakes hs hnot
    | enter => exact absurd trivial hnot
    | recv i => exact absurd trivial hnot
    | apply i => exact absurd trivial hnot

/-! ## A channel that overflows -/

/-- A file with many links is unlinked. -/
def unlinked : StructuralEvent :=
  ⟨{ Event.zero with eventType := .unlink, inode := 5, parentInode := 2, name := "a" }, rfl⟩

/-- The first worker of two has received nothing, and `k` events are in its channel. -/
def backlog (k : ℕ) : Delivery 1 where
  queued := fun i => if i = 0 then (List.range k).map fun m => ⟨m, unlinked.1⟩ else []
  working := fun _ => none
  waiting := none
  applied := []
  pushed := k

theorem backlog_result {k : ℕ} :
    ((backlog k).fanout.channel .structural (backlog k).fanout.first).result =
      if 4096 ≤ k then .full else .sent := by
  have hlength : ((backlog k).fanout.channel .structural (backlog k).fanout.first).events.length =
      k := by
    show (((List.range k).map fun m => (⟨m, unlinked.1⟩ : Item)).map Item.event).length = k
    simp
  rw [Channel.result, hlength]
  show (if (false : Bool) then _ else if (some 4096).any (fun n => decide (n ≤ k)) then _ else _) = _
  simp

theorem exec_backlog {k : ℕ} (hk : k ≤ 4096) :
    Run.exec step (init 1) (List.replicate k (.push unlinked)) = backlog k := by
  induction k with
  | zero =>
    simp [backlog, init]
  | succ k ih =>
    have hdest : (backlog k).destination = some 0 := by
      have hsent : ((backlog k).fanout.channel .structural (backlog k).fanout.first).result =
          .sent := by
        rw [backlog_result, if_neg (by omega)]
      exact if_pos hsent
    rw [List.replicate_succ', Run.exec_concat, ih (by omega)]
    show (backlog k).push unlinked.1 = backlog (k + 1)
    rw [Delivery.push, if_neg (by simp [backlog]), if_neg (by decide), hdest]
    simp only [backlog, enqueue, Delivery.mk.injEq, and_true]
    funext i
    by_cases hi : i = 0
    · subst hi
      simp [List.range_succ]
    · simp [hi]

/-- The second worker gets what the first has no room for. -/
theorem destination_full {k : ℕ} (hk : 4096 ≤ k) : (backlog k).destination = some 1 := by
  have hfull : ((backlog k).fanout.channel .structural (backlog k).fanout.first).result ≠
      .sent := by
    rw [backlog_result, if_pos hk]
    decide
  have hroom (j : Fin 2) (hj : j ≠ 0) :
      ((backlog k).fanout.channel .structural j).result = .sent := by
    simp [Channel.result, fanout, channels, backlog, EventTin.channelCapacity, hj]
  rw [destination, Fanout.structuralIdx, if_neg hfull]
  show ([1] : List (Fin 2)).find? (fun j =>
    decide (((backlog k).fanout.channel .structural j).result = .sent)) = some (1 : Fin 2)
  exact List.find?_cons_of_pos (decide_eq_true (hroom 1 (by decide)))

theorem backlog_first (k : ℕ) : (backlog (k + 1)).queued 0 =
    ⟨0, unlinked.1⟩ :: (List.range k).map fun m => ⟨m + 1, unlinked.1⟩ := by
  show (List.range (k + 1)).map _ = _
  rw [List.range_succ_eq_map, List.map_cons, List.map_map]
  rfl

/-- One event more than the channel has room for, and then the second worker is first. -/
def overflow : List (Action 1) :=
  List.replicate 4096 (.push unlinked) ++ [.push unlinked, .recv 1, .apply 1, .recv 0, .apply 0]

/-- The last event is applied before the first, which is one of the same inode. -/
theorem overflow_overtakes :
    ((Run.exec step (init 1) overflow).applied.map Item.number = [4096, 0]) ∧
      ¬ (Run.exec step (init 1) overflow).InOrder fun e => [e.parentInode] := by
  have hdest := destination_full (Nat.le_refl 4096)
  have hpush : (backlog 4096).push unlinked.1 =
      { (backlog 4096).enqueue 1 ⟨4096, unlinked.1⟩ with pushed := 4097 } := by
    rw [Delivery.push, if_neg (by simp [backlog]), if_neg (by decide), hdest]
    rfl
  have hfirst := backlog_first 4095
  have happlied : (Run.exec step (init 1) overflow).applied =
      [⟨4096, unlinked.1⟩, ⟨0, unlinked.1⟩] := by
    rw [overflow, Run.exec_append, exec_backlog le_rfl, Run.exec_cons]
    show (Run.exec step ((backlog 4096).push unlinked.1) _).applied = _
    rw [hpush]
    have hempty : (backlog 4096).queued 1 = [] := rfl
    have hidle : (backlog 4096).working = fun _ => none := rfl
    have hnone : (backlog 4096).applied = [] := rfl
    simp [step, recv, Delivery.apply, enqueue, hempty, hidle, hnone, hfirst]
  refine ⟨by rw [happlied]; rfl, fun hinOrder => ?_⟩
  rw [InOrder, happlied, List.pairwise_pair] at hinOrder
  exact hinOrder ⟨by decide, .inl rfl⟩

end Delivery
end StructuralOrder
end Foxing
