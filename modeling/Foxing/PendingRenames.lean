import Mathlib.Algebra.Order.BigOperators.Group.Finset
import Foxing.EventAccounting
import Foxing.RenameClears

/-!
# The renames that are pending

A rename is pending at a target from the time it is pushed until a worker is done with it: it
waits for room, or in a channel, or in the retry queue of a worker. It is never in a coalescer,
as only bulk events go through there. Here every step of a target is looked at for the renames
of an inode that it adds and takes away.
-/
namespace Foxing

/-! ## What comes out of the coalescer -/

section Kinds
variable {P : EventType → Prop}

namespace EventBatch

theorem scan_mem {head : Event} {limit : U64} (mergedLen endOffset : U64) (rows : List Event) :
    ∀ r ∈ (scan head limit mergedLen endOffset rows).2, r.1 ∈ rows := by
  induction rows generalizing mergedLen endOffset with
  | nil => simp [scan]
  | cons row rows ih =>
    intro r hr
    unfold scan at hr
    split_ifs at hr
    all_goals
      rcases List.mem_cons.mp hr with rfl | hr
      · exact List.mem_cons_self ..
      · exact List.mem_cons_of_mem _ (ih _ _ r hr)

/-- Merging gives the head the length of what is merged, and nothing new. -/
theorem tryCoalesceHead_kinds (scanDepth : ℕ) (limit : U64) {batch : EventBatch}
    (h : ∀ r ∈ batch, P r.eventType) :
    (∀ e ∈ (tryCoalesceHead scanDepth limit batch).1, P e.eventType) ∧
      ∀ r ∈ (tryCoalesceHead scanDepth limit batch).2, P r.eventType := by
  cases batch with
  | nil => exact ⟨by simp [tryCoalesceHead], h⟩
  | cons head rest =>
    have hrest : ∀ r ∈ rest, P r.eventType := fun r hr => h r (List.mem_cons_of_mem _ hr)
    simp only [tryCoalesceHead]
    split_ifs
    · refine ⟨by simpa [Event.withLength] using h head (List.mem_cons_self ..), fun r hr => ?_⟩
      rcases List.mem_append.mp hr with hr | hr
      · obtain ⟨m, hm, rfl⟩ := List.mem_map.mp hr
        have hscan := scan_mem _ _ _ m (List.mem_of_mem_filter hm)
        exact hrest _ (List.mem_of_mem_take hscan)
      · exact hrest r (List.mem_of_mem_drop hr)
    · exact ⟨by simpa using h head (List.mem_cons_self ..), hrest⟩

end EventBatch

namespace Coalescer

theorem forceCoalesce_kinds (fuel : ℕ) {batch : EventBatch} (h : ∀ r ∈ batch, P r.eventType) :
    ∀ r ∈ forceCoalesce fuel batch, P r.eventType := by
  induction fuel generalizing batch with
  | zero => exact h
  | succ fuel ih =>
    have hrest := (EventBatch.tryCoalesceHead_kinds batch.length U64.max h).2
    unfold forceCoalesce
    cases htry : EventBatch.tryCoalesceHead batch.length U64.max batch with
    | mk e rest =>
      rw [htry] at hrest
      cases e with
      | none => exact hrest
      | some e =>
        simp only
        split_ifs
        · exact hrest
        · exact ih hrest

theorem push_kinds (c : Coalescer) {e : Event} (h : ∀ r ∈ c.batch, P r.eventType)
    (he : P e.eventType) : ∀ r ∈ (c.push e).batch, P r.eventType := by
  have happend : ∀ r ∈ (c.append e).batch, P r.eventType := by
    intro r hr
    rcases List.mem_append.mp hr with hr | hr
    · exact h r hr
    · rw [List.mem_singleton.mp hr]
      exact he
  have hprune : ∀ r ∈ ((c.append e).pruneTransientLifecycles (c.append e).batch.length).2.batch,
      P r.eventType := by
    intro r hr
    rcases List.mem_append.mp hr with hr | hr
    · exact happend r (List.mem_of_mem_take (List.mem_of_mem_filter hr))
    · exact happend r (List.mem_of_mem_drop hr)
  unfold push
  simp only
  split_ifs
  · exact forceCoalesce_kinds _ hprune
  · exact hprune
  · exact happend

theorem popBatch_kinds (c : Coalescer) (limitBytes : U64) (maxLatency : ℕ) (isBusy : Bool)
    (now : ℕ) (h : ∀ r ∈ c.batch, P r.eventType) :
    (∀ e ∈ (c.popBatch limitBytes maxLatency isBusy now).1, P e.eventType) ∧
      ∀ r ∈ (c.popBatch limitBytes maxLatency isBusy now).2.batch, P r.eventType := by
  rcases c.popBatch_cases limitBytes maxLatency isBusy now with ⟨hnone, hbatch⟩ | ⟨he, hbatch, -⟩
  · rw [hnone, hbatch]
    exact ⟨by simp, h⟩
  · rw [he, hbatch]
    exact EventBatch.tryCoalesceHead_kinds _ _ h

end Coalescer

end Kinds

/-! ## What is pending -/

/-- A rename of the inode. -/
def Event.renames (n : U64) (e : Event) : Bool := e.isRename && e.inode = n

/-- The events that wait in the channels of a worker. -/
def Fanout.waitingFor (q : Fanout) (i : ℕ) : List Event :=
  q.eventsOf .control i ++ q.eventsOf .structural i ++ q.eventsOf .metadata i ++ q.eventsOf .bulk i

/-- The events that a worker has taken and still has to handle. A worker that is gone handles
nothing. -/
def WorkerLoop.holding (l : WorkerLoop) : List Event :=
  if l.Ended then [] else l.toRetry ++ l.coalescer.batch

namespace TargetLine

/-- The renames of an inode that a worker is still to handle. -/
def load (s : TargetLine) (n : U64) (i : ℕ) : ℕ :=
  (s.queue.waitingFor i ++ (s.worker i).holding).countP (Event.renames n)

/-- The renames of an inode that have been pushed to the target and not been handled. -/
def pending (s : TargetLine) (n : U64) : ℕ :=
  s.waiting.toList.countP (Event.renames n) + ∑ i ∈ Finset.range s.queue.workers, s.load n i

/-- What a worker does about the event that it takes. -/
def effectsOf (s : TargetLine) (i : ℕ) (a : WorkerLoop.Action) (x : Attempt) (w : World) :
    List WorkerLoop.Effect :=
  match s.taken i a with
  | some r =>
    ((s.worker i).take s.board.paused a).2.effects r.1 r.2 (x.resultAt w r.2)
  | none => []

end TargetLine

/-! ## Pushes -/

namespace Fanout
variable {q : Fanout} {e : Event} {p : Event → Bool} (hash : U64 → ℕ)

theorem countP_waitingFor (i : ℕ) : (q.waitingFor i).countP p =
    (q.eventsOf .control i).countP p + (q.eventsOf .structural i).countP p +
      (q.eventsOf .metadata i).countP p + (q.eventsOf .bulk i).countP p := by
  simp [waitingFor, Nat.add_assoc]

/-- An event that is sent is one more that waits for its worker. -/
theorem countP_trySend {tin : EventTin} {j : Fin q.workers}
    (hsent : (q.channel tin j).result = .sent) (i : ℕ) :
    ((q.trySend e tin j).2.waitingFor i).countP p =
      (q.waitingFor i).countP p + if i = j.val then [e].countP p else 0 := by
  simp only [countP_waitingFor, eventsOf_trySend hsent, List.countP_append]
  by_cases hi : i = j.val
  · cases tin <;> simp [hi] <;> omega
  · simp [hi]

/-- The event has been put into a channel of its class. -/
def Placed (q : Fanout) (e : Event) (r : Option (Bool × Fanout)) : Prop :=
  ∃ j, (q.channel e.eventType.tin j).result = .sent ∧
    r = some (true, (q.trySend e e.eventType.tin j).2)

/-- A structural event is lost only if the worker that it is for is gone. -/
theorem pushStructural_cases (htin : e.eventType.tin = .structural) :
    if (q.channel .structural q.first).closed then q.pushStructural e q.first = some (false, q)
    else q.pushStructural e q.first = none ∨ q.Placed e (q.pushStructural e q.first) := by
  have hresult : (q.trySend e .structural q.first).1 = (q.channel .structural q.first).result := rfl
  unfold pushStructural Placed
  rw [htin]
  cases htry : q.trySend e .structural q.first with
  | mk r q' =>
    rw [htry] at hresult
    have hq' : q' = (q.trySend e .structural q.first).2 := by rw [htry]
    simp only at hresult
    split_ifs with hclosed
    · have hr : r = .closed := by rw [hresult, Channel.result, if_pos hclosed]
      rw [hr]
    · cases hr : r with
      | closed =>
        rw [hr, Channel.result, if_neg hclosed] at hresult
        split_ifs at hresult
      | sent => exact .inr ⟨q.first, hresult.symm.trans hr, by rw [hq']⟩
      | full =>
        simp only
        cases hfind : (q.others q.first).find? fun j =>
            (q.channel .structural j).result = .sent with
        | some j =>
          have hsent := List.find?_some hfind
          exact .inr ⟨j, by simpa using hsent, rfl⟩
        | none => exact .inl rfl

theorem push_rename (he : e.isRename = true) (hint : e.isInternalTraffic = false) :
    if (q.channel .structural q.first).closed then q.push hash e = some (false, q)
    else q.push hash e = none ∨ q.Placed e (q.push hash e) := by
  have htin : e.eventType.tin = .structural := by
    unfold Event.isRename at he
    cases ht : e.eventType <;> simp [ht, EventType.isRename, EventType.tin] at he ⊢
  have hfirst : q.targetIdx hash e = q.first := by
    have hcontrol : e.eventType.isControlPlane = true := by
      unfold Event.isRename at he
      cases ht : e.eventType <;> simp [ht, EventType.isRename, EventType.isControlPlane] at he ⊢
    rw [targetIdx, dif_pos (.inr hcontrol)]
  have hpush : q.push hash e = q.pushStructural e q.first := by
    simp [push, hint, htin, hfirst]
  rw [hpush]
  exact pushStructural_cases htin

/-- A push puts its event into one channel of its class, or nowhere. -/
theorem push_cases {pushed : Bool} {q' : Fanout} (h : q.push hash e = some (pushed, q')) :
    q' = q ∨ ∃ j, (q.channel e.eventType.tin j).result = .sent ∧
      q' = (q.trySend e e.eventType.tin j).2 := by
  have hsend (tin : EventTin) (j : Fin q.workers) :
      (q.trySend e tin j).2 = q ∨ ∃ i, (q.channel tin i).result = .sent ∧
        (q.trySend e tin j).2 = (q.trySend e tin i).2 := by
    by_cases hsent : (q.channel tin j).result = .sent
    · exact .inr ⟨j, hsent, rfl⟩
    · exact .inl (trySend_full hsent)
  unfold push at h
  split_ifs at h
  · cases h
    exact .inl rfl
  · cases htin : e.eventType.tin with
    | structural =>
      simp only [htin, pushStructural, trySend] at h
      cases hresult : (q.channel .structural (q.targetIdx hash e)).result with
      | sent =>
        simp only [hresult] at h
        cases h
        exact hsend .structural _
      | closed =>
        simp only [hresult] at h
        cases h
        exact .inl rfl
      | full =>
        simp only [hresult] at h
        cases hfind : (q.others (q.targetIdx hash e)).find? fun j =>
            (q.channel .structural j).result = .sent with
        | some j =>
          simp only [hfind] at h
          cases h
          exact hsend .structural _
        | none =>
          simp only [hfind] at h
          cases hfirst : (q.channel .structural q.first).result with
          | full => simp [hfirst] at h
          | _ =>
            simp only [hfirst] at h
            cases h
            exact hsend .structural _
    | _ =>
      simp only [htin, Option.some.injEq, Prod.mk.injEq] at h
      obtain ⟨-, rfl⟩ := h
      exact hsend _ _

end Fanout

/-- Two sums that differ in one place. -/
theorem sum_change {ι : Type*} [DecidableEq ι] {s : Finset ι} {f g : ι → ℕ} {i : ι} (hi : i ∈ s)
    (h : ∀ j ∈ s, j ≠ i → f j = g j) : ∑ j ∈ s, f j + g i = ∑ j ∈ s, g j + f i := by
  have hrest : ∑ j ∈ s.erase i, f j = ∑ j ∈ s.erase i, g j :=
    Finset.sum_congr rfl fun j hj => h j (Finset.mem_of_mem_erase hj) (Finset.ne_of_mem_erase hj)
  rw [← Finset.add_sum_erase s f hi, ← Finset.add_sum_erase s g hi, hrest]
  omega

namespace TargetLine
variable {s : TargetLine} {e : Event} (n : U64)

theorem pending_trySend {j : Fin s.queue.workers} {tin : EventTin}
    (hsent : (s.queue.channel tin j).result = .sent) :
    { s with queue := (s.queue.trySend e tin j).2 }.pending n =
      s.pending n + [e].countP (Event.renames n) := by
  have hload (i : ℕ) : { s with queue := (s.queue.trySend e tin j).2 }.load n i =
      s.load n i + if i = j.val then [e].countP (Event.renames n) else 0 := by
    simp only [load, List.countP_append, Fanout.countP_trySend hsent]
    omega
  have hsum := sum_change (s := Finset.range s.queue.workers) (i := j.val)
    (f := { s with queue := (s.queue.trySend e tin j).2 }.load n) (g := s.load n)
    (Finset.mem_range.mpr j.isLt) (fun i _ hi => by rw [hload, if_neg hi, Nat.add_zero])
  rw [hload, if_pos rfl] at hsum
  have hpending : { s with queue := (s.queue.trySend e tin j).2 }.pending n =
      s.waiting.toList.countP (Event.renames n) + ∑ i ∈ Finset.range s.queue.workers,
        { s with queue := (s.queue.trySend e tin j).2 }.load n i := rfl
  rw [hpending, pending]
  omega

theorem countP_renames_singleton (e : Event) : [e].countP (Event.renames n) =
    if e.isRename = true ∧ n = e.inode then 1 else 0 := by
  by_cases hn : e.inode = n
  · simp [Event.renames, hn]
  · have hn' : ¬ n = e.inode := fun h => hn h.symm
    simp [Event.renames, hn, hn']

theorem renames_singleton (he : e.isRename = false) : [e].countP (Event.renames n) = 0 := by
  rw [countP_renames_singleton, if_neg (by simp [he])]

theorem push_some {hash : U64 → ℕ} {pushed : Bool} {q : Fanout} (hwaiting : s.waiting = none)
    (h : s.queue.push hash e = some (pushed, q)) : s.push hash e = { s with queue := q } := by
  have hnone : ¬ s.waiting.isSome = true := by simp [hwaiting]
  rw [TargetLine.push, if_neg hnone, h]

theorem push_none {hash : U64 → ℕ} (hwaiting : s.waiting = none)
    (h : s.queue.push hash e = none) : s.push hash e = { s with waiting := some e } := by
  have hnone : ¬ s.waiting.isSome = true := by simp [hwaiting]
  rw [TargetLine.push, if_neg hnone, h]

theorem pending_waiting (hwaiting : s.waiting = none) :
    { s with waiting := some e }.pending n = s.pending n + [e].countP (Event.renames n) := by
  have hload : { s with waiting := some e }.load n = s.load n := rfl
  simp only [pending, hload, hwaiting, Option.toList_some, Option.toList_none, List.countP_nil]
  omega

/-- The worker that structural events are pushed to first is gone. -/
def FirstGone (s : TargetLine) : Prop :=
  (s.queue.channel .structural s.queue.first).closed = true

instance (s : TargetLine) : Decidable s.FirstGone := inferInstanceAs (Decidable (_ = _))

/-- An event that is no rename changes nothing. -/
theorem pending_push_other (hash : U64 → ℕ) (hwaiting : s.waiting = none)
    (he : e.isRename = false) : (s.push hash e).pending n = s.pending n := by
  have hzero := renames_singleton n he
  cases hpush : s.queue.push hash e with
  | none => rw [push_none hwaiting hpush, pending_waiting n hwaiting, hzero, Nat.add_zero]
  | some r =>
    rw [push_some hwaiting hpush]
    rcases Fanout.push_cases hash hpush with hq | ⟨j, hsent, hq⟩
    · rw [hq]
    · rw [hq, pending_trySend n hsent, hzero, Nat.add_zero]

/-- A rename that is pushed is pending, unless it is none of the mirror's business or the first
worker is gone. -/
theorem pending_push (hash : U64 → ℕ) (hwaiting : s.waiting = none) :
    (s.push hash e).pending n =
      s.pending n + if e.isInternalTraffic = false ∧ ¬ s.FirstGone then
        [e].countP (Event.renames n) else 0 := by
  by_cases he : e.isRename = false
  · rw [pending_push_other n hash hwaiting he, renames_singleton n he]
    split_ifs <;> rfl
  by_cases hint : e.isInternalTraffic = true
  · have hpush : s.queue.push hash e = some (true, s.queue) := by simp [Fanout.push, hint]
    rw [push_some hwaiting hpush, if_neg (by simp [hint]), Nat.add_zero]
  have hint : e.isInternalTraffic = false := by simpa using hint
  have hcases := Fanout.push_rename (q := s.queue) hash (by simpa using he) hint
  by_cases hgone : s.FirstGone
  · rw [if_pos (show _ = true from hgone)] at hcases
    rw [push_some hwaiting hcases, if_neg fun h => h.2 hgone, Nat.add_zero]
  · rw [if_neg (show ¬ _ = true from hgone)] at hcases
    rw [if_pos ⟨hint, hgone⟩]
    rcases hcases with hnone | ⟨j, hsent, hsome⟩
    · rw [push_none hwaiting hnone, pending_waiting n hwaiting]
    · rw [push_some hwaiting hsome, pending_trySend n hsent]

/-- The push that waits stays pending, unless the first worker is gone. -/
theorem pending_enter :
    s.enter.pending n + (if s.FirstGone then s.waiting.toList.countP (Event.renames n) else 0) =
      s.pending n := by
  cases hwaiting : s.waiting with
  | none => simp [enter, hwaiting]
  | some e =>
    have hempty : { s with waiting := none }.pending n + [e].countP (Event.renames n) =
        s.pending n := by
      have hload : { s with waiting := none }.load n = s.load n := rfl
      simp only [pending, hload, hwaiting, Option.toList_some, Option.toList_none, List.countP_nil]
      omega
    have henter : s.enter = if (s.queue.channel .structural s.queue.first).result = .full then s
        else { s with
          queue := (s.queue.trySend e .structural s.queue.first).2, waiting := none } := by
      rw [enter, hwaiting]
    rw [henter]
    by_cases hgone : s.FirstGone
    · have hresult : (s.queue.channel .structural s.queue.first).result = .closed := by
        rw [Channel.result, if_pos (show _ = true from hgone)]
      rw [hresult, if_neg (by simp), Fanout.trySend_full (by simp [hresult]), if_pos hgone]
      exact hempty
    · rw [if_neg hgone, Nat.add_zero]
      split_ifs with hfull
      · rfl
      · have hsent : (s.queue.channel .structural s.queue.first).result = .sent := by
          have hopen : ¬ (s.queue.channel .structural s.queue.first).closed = true := hgone
          rw [Channel.result, if_neg hopen] at hfull ⊢
          split_ifs at hfull ⊢ <;> first | rfl | exact absurd rfl hfull
        rw [← hempty]
        exact pending_trySend (s := { s with waiting := none }) n hsent

end TargetLine

/-! ## What a worker takes -/

namespace WorkerLoop
variable {l : WorkerLoop} {n : U64}

/-- No rename is in the coalescer. -/
def Plain (c : Coalescer) : Prop := ∀ e ∈ c.batch, e.eventType.isRename = false

def received : Action → List Event
  | .recv _ e _ _ _ => [e]
  | _ => []

/-- The renames that are taken are received or come out of the retry queue. -/
structure TakesFrom (n : U64) (r : Option (TakeSite × Event)) (l' : WorkerLoop) (es : List Event) :
    Prop where
  plain : Plain l'.coalescer
  count : (r.toList.map Prod.snd).countP (Event.renames n) =
    (es ++ retriedEvent r).countP (Event.renames n)

theorem countP_option {o : Option Event} (h : ∀ e ∈ o, e.eventType.isRename = false) :
    o.toList.countP (Event.renames n) = 0 := by
  cases o with
  | none => rfl
  | some e => simp [Event.renames, Event.isRename, h e rfl]

theorem takesFrom_flush {s : TakeSite} {again drained : Phase} (now : ℕ) (hs : ∀ k, s ≠ .retried k)
    (hl : Plain l.coalescer) :
    TakesFrom n (l.flush s again drained now).1 (l.flush s again drained now).2 [] := by
  have hkinds := l.coalescer.popBatch_kinds (P := fun t => t.isRename = false) 0 0 false now hl
  unfold flush
  cases hpop : l.coalescer.popBatch 0 0 false now with
  | mk evt c =>
    rw [hpop] at hkinds
    cases evt with
    | none => exact ⟨hkinds.2, rfl⟩
    | some evt =>
      refine ⟨hkinds.2, ?_⟩
      have hcount := countP_option (n := n) hkinds.1
      cases s with
      | retried k => exact absurd rfl (hs k)
      | _ => simpa [retriedEvent] using hcount

theorem takesFrom_next (now : ℕ) (hl : Plain l.coalescer) :
    TakesFrom n (l.next now).1 (l.next now).2 [] := by
  unfold next
  cases hphase : l.phase with
  | pressing left =>
    cases left with
    | zero => exact ⟨hl, rfl⟩
    | succ left => exact takesFrom_flush now (by simp) hl
  | flushing count | draining => exact takesFrom_flush now (by simp) hl
  | retrying batch => cases batch <;> exact ⟨hl, rfl⟩
  | _ => exact ⟨hl, rfl⟩

theorem plain_stop : Plain l.stop.coalescer := by
  simp [Plain, stop]

theorem takesFrom_selected (a : Action) (hl : Plain l.coalescer)
    (hbulk : ∀ e limitBytes maxLatency now, a = .recv .bulk e limitBytes maxLatency now →
      e.isRename = false) :
    TakesFrom n (l.takeSelected a).1 (l.takeSelected a).2 (received a) := by
  cases a with
  | shutdown => exact ⟨plain_stop, rfl⟩
  | recv tin e limitBytes maxLatency now =>
    cases tin with
    | bulk =>
      have he := hbulk e limitBytes maxLatency now rfl
      have hpush := l.coalescer.push_kinds (P := fun t => t.isRename = false) hl he
      have hkinds := (l.coalescer.push e).popBatch_kinds (P := fun t => t.isRename = false)
        limitBytes maxLatency true now hpush
      refine ⟨hkinds.2, ?_⟩
      have hcount := countP_option (n := n) hkinds.1
      simp only [takeSelected, recvBulk, received]
      cases hpop : (l.coalescer.push e).popBatch limitBytes maxLatency true now with
      | mk evt c =>
        have hpop' : ((l.goTo .top).coalescer.push e).popBatch limitBytes maxLatency true now =
            (evt, c) := hpop
        rw [hpop] at hcount
        rw [hpop']
        cases evt with
        | none => simp [retriedEvent, Event.renames, he]
        | some evt => simpa [retriedEvent, Event.renames, he] using hcount
    | _ => exact ⟨hl, rfl⟩
  | retryTick now =>
    refine ⟨?_, rfl⟩
    simp only [takeSelected, retryTick]
    split_ifs <;> exact hl
  | flushTick =>
    refine ⟨?_, rfl⟩
    simp only [takeSelected]
    split_ifs <;> exact hl
  | _ => exact ⟨hl, rfl⟩

theorem take_takesFrom (paused : Bool) (a : Action) (hl : Plain l.coalescer)
    (hrecv : ∀ tin e limitBytes maxLatency now, a = .recv tin e limitBytes maxLatency now →
      l.Receives paused)
    (hbulk : ∀ e limitBytes maxLatency now, a = .recv .bulk e limitBytes maxLatency now →
      e.isRename = false) :
    TakesFrom n (l.take paused a).1 (l.take paused a).2 (received a) := by
  by_cases hrecvs : ∃ tin e limitBytes maxLatency now, a = .recv tin e limitBytes maxLatency now
  · obtain ⟨tin, e, limitBytes, maxLatency, now, rfl⟩ := hrecvs
    have hwaits := hrecv _ _ _ _ _ rfl
    unfold Receives at hwaits
    cases hphase : l.phase with
    | top =>
      rw [hphase] at hwaits
      have hpaused : paused = true := hwaits
      simp only [take, hphase, hpaused, if_true]
      exact ⟨hl, rfl⟩
    | selecting =>
      simp only [take, hphase]
      exact takesFrom_selected _ hl hbulk
    | _ => simp [hphase, Phase.receives] at hwaits
  have hnone : received a = [] := by
    cases a with
    | recv tin e limitBytes maxLatency now => exact absurd ⟨_, _, _, _, _, rfl⟩ hrecvs
    | _ => rfl
  unfold take
  cases hphase : l.phase with
  | top =>
    simp only
    split_ifs
    · cases a with
      | recv tin e limitBytes maxLatency now => exact absurd ⟨_, _, _, _, _, rfl⟩ hrecvs
      | shutdown => exact ⟨plain_stop, rfl⟩
      | _ => exact ⟨hl, rfl⟩
    · cases a with
      | turn =>
        refine ⟨?_, rfl⟩
        simp only [turn]
        split_ifs <;> exact hl
      | _ =>
        rw [hnone]
        exact ⟨hl, rfl⟩
  | selecting => exact takesFrom_selected a hl hbulk
  | parked =>
    cases a with
    | resume => exact ⟨hl, rfl⟩
    | _ =>
      rw [hnone]
      exact ⟨hl, rfl⟩
  | _ =>
    cases a with
    | next now => exact takesFrom_next now hl
    | _ =>
      rw [hnone]
      exact ⟨hl, rfl⟩

/-- What a step does about the event that it takes. -/
def stepEffects (l : WorkerLoop) (paused : Bool) (a : Action) (tries : Event → AttemptResult) :
    List Effect :=
  match (l.take paused a).1 with
  | some r => (l.take paused a).2.effects r.1 r.2 (tries r.2)
  | none => []

theorem countP_holding (h : Plain l.coalescer) (hl : ¬ l.Ended) :
    l.holding.countP (Event.renames n) = l.toRetry.countP (Event.renames n) := by
  have hzero : l.coalescer.batch.countP (Event.renames n) = 0 := by
    rw [List.countP_eq_zero]
    intro e he
    simp [Event.renames, Event.isRename, h e he]
  rw [holding, if_neg hl, List.countP_append, hzero, Nat.add_zero]

theorem flush_goes_on {r : TakeSite × Event} {s : TakeSite} {again drained : Phase} (now : ℕ)
    (hagain : again.ended = false) (h : (l.flush s again drained now).1 = some r) :
    ¬ (l.flush s again drained now).2.Ended := by
  unfold flush at h ⊢
  cases hpop : l.coalescer.popBatch 0 0 false now with
  | mk evt c =>
    rw [hpop] at h
    cases evt with
    | none => simp at h
    | some evt => simp [Ended, hagain]

theorem next_goes_on {r : TakeSite × Event} (now : ℕ)
    (h : (l.next now).1 = some r) : ¬ (l.next now).2.Ended := by
  unfold next at h ⊢
  cases hphase : l.phase with
  | pressing left =>
    rw [hphase] at h
    cases left with
    | zero => simp at h
    | succ left => exact flush_goes_on now rfl h
  | flushing count =>
    rw [hphase] at h
    refine flush_goes_on now ?_ h
    split_ifs <;> rfl
  | draining =>
    rw [hphase] at h
    exact flush_goes_on now rfl h
  | retrying batch =>
    rw [hphase] at h
    cases batch with
    | nil => simp at h
    | cons item rest => simp [Ended, WorkerLoop.goTo, Phase.ended]
  | _ =>
    rw [hphase] at h
    simp at h

/-- A worker that takes an event goes on. -/
theorem take_goes_on {r : TakeSite × Event} (paused : Bool) (a : Action) (hl : ¬ l.Ended)
    (h : (l.take paused a).1 = some r) : ¬ (l.take paused a).2.Ended := by
  unfold take at h ⊢
  cases hphase : l.phase with
  | top =>
    simp only [hphase] at h ⊢
    split_ifs at h ⊢
    · cases a with
      | recv tin e limitBytes maxLatency now => exact hl
      | _ => simp [takePaused] at h
    · cases a <;> simp at h
  | selecting =>
    simp only [hphase] at h ⊢
    cases a with
    | recv tin e limitBytes maxLatency now =>
      cases tin <;> simp [takeSelected, recvBulk, WorkerLoop.goTo, Ended, Phase.ended]
    | _ => simp [takeSelected] at h
  | parked =>
    simp only [hphase] at h
    cases a <;> simp at h
  | _ =>
    simp only [hphase] at h ⊢
    cases a with
    | next now => exact next_goes_on now h
    | _ => simp at h

/-- What comes out of the retry queue has been in it. -/
theorem retried_le (paused : Bool) (a : Action) (hl : ¬ l.Ended) :
    (retriedEvent (l.take paused a).1).countP (Event.renames n) ≤
      l.holding.countP (Event.renames n) := by
  cases htake : (l.take paused a).1 with
  | none => exact Nat.zero_le _
  | some r =>
    have hretry := (take_took (l := l) paused a).toRetry (take_goes_on paused a hl htake)
    rw [htake] at hretry
    rw [holding, if_neg hl, hretry]
    simp only [List.countP_append]
    omega

theorem handle_coalescer (s : TakeSite) (e : Event) (x : AttemptResult) (w : TargetBoard × WorkerLoop) :
    (handle s e x w).2.coalescer = w.2.coalescer := by
  simp [handle]

/-- A rename that a worker takes is one less to handle, unless it is put into the retry
queue. -/
theorem step_holding {w : TargetBoard × WorkerLoop} {a : Action} (tries : Event → AttemptResult)
    (ht : TakesFrom n (w.2.take w.1.paused a).1 (w.2.take w.1.paused a).2 (received a))
    (hplain : Plain w.2.coalescer) (hend : ¬ (step w a tries).2.Ended) :
    (step w a tries).2.holding.countP (Event.renames n) +
        ((w.2.take w.1.paused a).1.toList.map Prod.snd).countP (Event.renames n) =
      w.2.holding.countP (Event.renames n) + (received a).countP (Event.renames n) +
        if .retry ∈ w.2.stepEffects w.1.paused a tries then
          ((w.2.take w.1.paused a).1.toList.map Prod.snd).countP (Event.renames n) else 0 := by
  have hcount := ht.count
  have htook := take_took (l := w.2) w.1.paused a
  have hplain' := ht.plain
  unfold stepEffects
  unfold step at hend ⊢
  cases htake : w.2.take w.1.paused a with
  | mk r l' =>
    rw [htake] at hcount htook hplain' hend
    cases r with
    | none =>
      have hl : ¬ w.2.Ended := fun h => hend (htook.ended h)
      have hretry : w.2.toRetry = l'.toRetry := htook.toRetry hend
      rw [countP_holding hplain hl, countP_holding hplain' hend, hretry]
      simp only [List.countP_append, retriedEvent, List.countP_nil, Nat.add_zero] at hcount
      simp only [List.not_mem_nil, if_false]
      omega
    | some r =>
      have hl' : ¬ l'.Ended := fun h => hend (ended_handle (w := (w.1, l')) h)
      have hl : ¬ w.2.Ended := fun h => hl' (htook.ended h)
      have hretry : w.2.toRetry = retriedEvent (some r) ++ l'.toRetry := htook.toRetry hl'
      have hplain'' : Plain (handle r.1 r.2 (tries r.2) (w.1, l')).2.coalescer := by
        rw [handle_coalescer]
        exact hplain'
      have hafter := toRetry_handle hend
      rw [countP_holding hplain hl, countP_holding hplain'' hend, hafter, hretry]
      simp only [List.countP_append, Option.toList_some, List.map_cons, List.map_nil] at hcount ⊢
      split_ifs
      · omega
      · rw [List.countP_nil]
        omega

theorem holding_ended (h : l.Ended) : l.holding = [] := if_pos h

/-! ### What is done about a rename -/

/-- An event that is taken here and fails can be tried again. -/
def MayRetry (l : WorkerLoop) (s : TakeSite) : Prop :=
  s ≠ .barrier ∧ s.attempts < l.retryQueue.maxRetries ∧
    l.retryQueue.queue.length < l.retryQueue.capacity

instance (l : WorkerLoop) (s : TakeSite) : Decidable (l.MayRetry s) :=
  inferInstanceAs (Decidable (_ ∧ _ ∧ _))

section Effects
variable {s : TakeSite} {e : Event} {x : AttemptResult}

theorem effects_paused {tin : EventTin} {f : Effect} (hf : f ∈ l.effects (.paused tin) e x) :
    f = .panic ∨ ∃ p, f = .journal p := by
  simp only [effects, pausedEffects] at hf
  split_ifs at hf
  · exact absurd hf List.not_mem_nil
  · cases hpath : x.journalPath with
    | none => exact .inl (by simpa [hpath] using hf)
    | some p => exact .inr ⟨p, by simpa [hpath] using hf⟩

theorem effects_attempt (hs : ∀ tin, s ≠ .paused tin) :
    l.effects s e x = l.attemptEffects s e x := by
  cases s with
  | paused tin => exact absurd rfl (hs tin)
  | _ => rfl

theorem clearRename_resultEffects (r : CallResult) : .clearRename ∉ l.resultEffects s e x r := by
  have hclass (f : Failure) : .clearRename ∉ l.classEffects s e x f := by
    rcases classEffects_cases (l := l) (s := s) (e := e) (x := x) f with
      ⟨y, hy, ⟨rfl, -⟩ | ⟨job, rfl⟩ | rfl | rfl | rfl⟩ | ⟨hy, -⟩ <;> simp [hy]
  cases r with
  | ok u =>
    simp only [resultEffects, successEffects]
    split_ifs <;> simp
  | error f =>
    simp only [resultEffects, failureEffects]
    cases s with
    | received => exact hclass f
    | barrier => exact List.not_mem_nil
    | paused tin => exact List.not_mem_nil
    | _ => cases x.journalPath <;> simp [hclass f]

/-- What the attempt has cleared is cleared, unless the worker only journals. -/
theorem clearRename_mem : .clearRename ∈ l.effects s e x ↔
    (∀ tin, s ≠ .paused tin) ∧ ∃ o ∈ x.outcome, o.clearsRename = true := by
  by_cases hs : ∃ tin, s = .paused tin
  · obtain ⟨tin, rfl⟩ := hs
    refine iff_of_false (fun h => ?_) fun h => h.1 tin rfl
    rcases effects_paused h with h | ⟨p, h⟩ <;> cases h
  · have hs : ∀ tin, s ≠ .paused tin := fun tin h => hs ⟨tin, h⟩
    rw [effects_attempt hs, attemptEffects]
    cases x.outcome with
    | none => simp
    | some o =>
      have hresult := clearRename_resultEffects (l := l) (s := s) (e := e) (x := x) o.result
      simp [ownEffects, hresult, hs]

theorem retry_classEffects (f : Failure) : .retry ∈ l.classEffects s e x f ↔
    (s.attempts < l.retryQueue.maxRetries ∧ l.retryQueue.queue.length < l.retryQueue.capacity) ∧
      tryAgain e.eventType (.error f) = true := by
  unfold classEffects tryAgain
  cases hclass : classifyError f e.eventType with
  | targetNotFound =>
    simp only
    split_ifs
    · simp [hclass]
    · cases x.repairPath <;> simp [hclass]
  | sourceNotFound => simp [hclass]
  | permanent => simp [hclass]
  | transient =>
    simp only [retryEffects, hclass, decide_true, and_true]
    split_ifs with hmax hcap
    · simp only [List.not_mem_nil, false_iff]
      omega
    · simp only [List.mem_singleton, reduceCtorEq, false_iff]
      omega
    · simp only [List.mem_singleton, true_iff]
      omega

/-- An event is tried again where it may be, after a failure that calls for it. -/
theorem retry_mem (hpanic : .panic ∉ l.effects s e x) : .retry ∈ l.effects s e x ↔
    (∀ tin, s ≠ .paused tin) ∧ l.MayRetry s ∧
      ∃ o ∈ x.outcome, tryAgain e.eventType o.result = true := by
  by_cases hs : ∃ tin, s = .paused tin
  · obtain ⟨tin, rfl⟩ := hs
    refine iff_of_false (fun h => ?_) fun h => h.1 tin rfl
    rcases effects_paused h with h | ⟨p, h⟩ <;> cases h
  have hs : ∀ tin, s ≠ .paused tin := fun tin h => hs ⟨tin, h⟩
  rw [effects_attempt hs, attemptEffects] at hpanic ⊢
  cases houtcome : x.outcome with
  | none => simp [houtcome] at hpanic
  | some o =>
    have hown : .retry ∉ ownEffects o := by
      intro h
      rcases mem_ownEffects h with h | ⟨job, h⟩ <;> cases h
    simp only [houtcome, List.mem_append, hown, false_or, not_or] at hpanic ⊢
    simp only [Option.mem_def, Option.some.injEq, exists_eq_left', hs, ne_eq, not_false_eq_true,
      implies_true, true_and]
    cases hresult : o.result with
    | ok u =>
      refine iff_of_false ?_ (by simp [tryAgain])
      simp only [resultEffects, successEffects]
      split_ifs <;> simp
    | error f =>
      simp only [hresult, resultEffects, failureEffects] at hpanic ⊢
      have hclass := retry_classEffects (l := l) (s := s) (e := e) (x := x) f
      cases s with
      | barrier => simp [MayRetry]
      | paused tin => exact absurd rfl (hs tin)
      | received => simpa [MayRetry] using hclass
      | _ =>
        cases hpath : x.journalPath with
        | none => simp [hpath] at hpanic
        | some p => simpa [MayRetry] using hclass

end Effects

end WorkerLoop

namespace TargetLine
open WorkerLoop
variable {s : TargetLine} {n : U64} {i : ℕ} {a : WorkerLoop.Action} {x : Attempt} {w : World}

/-- Renames are not in the way of the coalescer. -/
structure Separate (s : TargetLine) : Prop where
  bulk : ∀ i, ∀ e ∈ s.queue.eventsOf .bulk i, e.eventType.isRename = false
  plain : ∀ i, Plain (s.worker i).coalescer

theorem Separate.takesFrom (hs : s.Separate) (hoffers : s.Offers i a) :
    TakesFrom n ((s.worker i).take s.board.paused a).1 ((s.worker i).take s.board.paused a).2
      (received a) := by
  refine take_takesFrom s.board.paused a (hs.plain i) ?_ ?_
  · rintro tin e limitBytes maxLatency now rfl
    exact hoffers.2.2.1
  · rintro e limitBytes maxLatency now rfl
    exact hs.bulk i e (List.mem_of_mem_head? hoffers.2.2.2)

/-- An event that is received waits no longer. -/
theorem countP_queueAfter (hoffers : s.Offers i a) (p : Event → Bool) :
    ((s.queueAfter i a).waitingFor i).countP p + (received a).countP p =
      (s.queue.waitingFor i).countP p := by
  cases a with
  | recv tin e limitBytes maxLatency now =>
    have hhead : (s.queue.eventsOf tin i).head? = some e := hoffers.2.2.2
    obtain ⟨rest, hrest⟩ := List.head?_eq_some_iff.mp hhead
    simp only [queueAfter, received, Fanout.countP_waitingFor, Fanout.eventsOf_dropHead]
    cases tin <;> simp [hrest, List.countP_cons] <;> omega
  | _ => rfl

theorem waitingFor_queueAfter {j : ℕ} (hj : j ≠ i) :
    (s.queueAfter i a).waitingFor j = s.queue.waitingFor j := by
  cases a with
  | recv tin e limitBytes maxLatency now =>
    simp [queueAfter, Fanout.waitingFor, Fanout.eventsOf_dropHead, hj]
  | _ => rfl

/-- The renames of an inode that a worker takes. -/
def takenRenames (s : TargetLine) (n : U64) (i : ℕ) (a : WorkerLoop.Action) : ℕ :=
  ((s.taken i a).toList.map Prod.snd).countP (Event.renames n)

theorem taken_offers (hoffers : s.Offers i a) :
    s.taken i a = ((s.worker i).take s.board.paused a).1 := if_pos hoffers

theorem effectsOf_offers (hoffers : s.Offers i a) : s.effectsOf i a x w =
    (s.worker i).stepEffects s.board.paused a (x.resultAt w) := by
  rw [effectsOf, taken_offers hoffers]
  rfl

theorem work_worker (hoffers : s.Offers i a) : (s.work i a x w).worker i =
    (WorkerLoop.step (s.board, s.worker i) a (x.resultAt w)).2 := by
  simp [work, hoffers]

theorem work_worker_other {j : ℕ} (hj : j ≠ i) :
    (s.work i a x w).worker j = s.worker j := by
  unfold work
  split_ifs
  · exact Function.update_of_ne hj _ _
  · rfl

theorem work_queue (hoffers : s.Offers i a) : (s.work i a x w).queue =
    if ((s.work i a x w).worker i).Ended then (s.queueAfter i a).dropReceivers i
    else s.queueAfter i a := by
  rw [work_worker hoffers]
  simp [work, hoffers]

theorem work_waiting : (s.work i a x w).waiting = s.waiting := by
  unfold work
  split_ifs <;> rfl

theorem queueAfter_workers : (s.queueAfter i a).workers = s.queue.workers := by
  cases a with
  | recv tin e limitBytes maxLatency now =>
    simp only [queueAfter, Fanout.dropHead]
    split_ifs <;> rfl
  | _ => rfl

theorem work_workers : (s.work i a x w).queue.workers = s.queue.workers := by
  by_cases hoffers : s.Offers i a
  · rw [work_queue hoffers]
    split_ifs
    · exact queueAfter_workers
    · exact queueAfter_workers
  · rw [work, if_neg hoffers]

theorem waitingFor_dropReceivers (q : Fanout) (j : ℕ) :
    (q.dropReceivers i).waitingFor j = if j = i then [] else q.waitingFor j := by
  unfold Fanout.waitingFor
  simp only [Fanout.eventsOf_dropReceivers]
  split_ifs <;> rfl

theorem load_work_other {j : ℕ} (hj : j ≠ i) : (s.work i a x w).load n j = s.load n j := by
  have hwaiting : (s.work i a x w).queue.waitingFor j = s.queue.waitingFor j := by
    by_cases hoffers : s.Offers i a
    · rw [work_queue hoffers]
      split_ifs
      · rw [waitingFor_dropReceivers, if_neg hj, waitingFor_queueAfter hj]
      · exact waitingFor_queueAfter hj
    · rw [work, if_neg hoffers]
  rw [load, load, hwaiting, work_worker_other hj]

/-- What waits for a worker that ends is gone with it. -/
theorem load_work_ended (hoffers : s.Offers i a) (hend : ((s.work i a x w).worker i).Ended) :
    (s.work i a x w).load n i = 0 := by
  rw [load, work_queue hoffers, if_pos hend, waitingFor_dropReceivers, if_pos rfl,
    holding_ended hend]
  rfl

theorem load_work (hs : s.Separate) (hoffers : s.Offers i a)
    (hend : ¬ ((s.work i a x w).worker i).Ended) :
    (s.work i a x w).load n i + s.takenRenames n i a =
      s.load n i + if .retry ∈ s.effectsOf i a x w then s.takenRenames n i a else 0 := by
  have hqueue := countP_queueAfter hoffers (Event.renames n)
  have hwork := hend
  rw [work_worker hoffers] at hwork
  have hholding := step_holding (w := (s.board, s.worker i)) (x.resultAt w)
    (hs.takesFrom (n := n) hoffers) (hs.plain i) hwork
  dsimp only at hholding
  rw [load, load, work_queue hoffers, if_neg hend, work_worker hoffers, effectsOf_offers hoffers,
    takenRenames, taken_offers hoffers, List.countP_append, List.countP_append]
  omega

theorem load_le (hi : i < s.queue.workers) : s.load n i ≤ s.pending n := by
  have hsum : s.load n i ≤ ∑ j ∈ Finset.range s.queue.workers, s.load n j :=
    Finset.single_le_sum (fun _ _ => Nat.zero_le _) (Finset.mem_range.mpr hi)
  rw [pending]
  omega

/-- What a worker takes has waited for it. -/
theorem takenRenames_le (hs : s.Separate) (hoffers : s.Offers i a) :
    s.takenRenames n i a ≤ s.load n i := by
  have hcount := (hs.takesFrom (n := n) hoffers).count
  have hqueue := countP_queueAfter hoffers (Event.renames n)
  have hretried := retried_le (n := n) (l := s.worker i) s.board.paused a hoffers.2.1
  rw [takenRenames, taken_offers hoffers, load, List.countP_append, hcount, List.countP_append]
  omega

/-- A worker that goes on has one rename less to handle for each that it takes, unless it is
to be tried again. -/
theorem pending_work (hs : s.Separate) (hoffers : s.Offers i a)
    (hend : ¬ ((s.work i a x w).worker i).Ended) :
    (s.work i a x w).pending n + s.takenRenames n i a =
      s.pending n + if .retry ∈ s.effectsOf i a x w then s.takenRenames n i a else 0 := by
  have hload := load_work (n := n) hs hoffers hend
  have hsum := sum_change (f := (s.work i a x w).load n) (g := s.load n)
    (Finset.mem_range.mpr hoffers.1) fun j _ hj => load_work_other hj
  rw [pending, pending, work_waiting, work_workers]
  omega

/-- Nothing is left with a worker that ends. -/
theorem pending_work_ended (hoffers : s.Offers i a)
    (hend : ((s.work i a x w).worker i).Ended) :
    (s.work i a x w).pending n + s.load n i = s.pending n := by
  have hload := load_work_ended (n := n) hoffers hend
  have hsum := sum_change (f := (s.work i a x w).load n) (g := s.load n)
    (Finset.mem_range.mpr hoffers.1) fun j _ hj => load_work_other hj
  rw [pending, pending, work_waiting, work_workers]
  omega

theorem pending_start (workers : ℕ) (board : TargetBoard) (scanDepth : U64) (now : ℕ) :
    (start workers board scanDepth now).pending n = 0 := by
  have hqueue (tin : EventTin) (i : ℕ) : (Fanout.createFanout workers).eventsOf tin i = [] := by
    unfold Fanout.eventsOf
    split_ifs <;> rfl
  have hholding : (WorkerLoop.start scanDepth now).holding = [] := by
    unfold holding
    split_ifs <;> rfl
  simp [start, pending, load, Fanout.waitingFor, hqueue, hholding]

/-! ### Renames stay out of the coalescers -/

theorem separate_start (workers : ℕ) (board : TargetBoard) (scanDepth : U64) (now : ℕ) :
    (start workers board scanDepth now).Separate := by
  refine ⟨fun i e he => ?_, fun i e he => ?_⟩
  · have hnone : (start workers board scanDepth now).queue.eventsOf .bulk i = [] := by
      unfold Fanout.eventsOf
      split_ifs <;> rfl
    rw [hnone] at he
    exact absurd he List.not_mem_nil
  · simp [start, WorkerLoop.start, Coalescer.new] at he

theorem Separate.trySend (hs : s.Separate) {e : Event} (tin : EventTin) (j : Fin s.queue.workers)
    (he : tin = .bulk → e.eventType.isRename = false) :
    ∀ i, ∀ r ∈ (s.queue.trySend e tin j).2.eventsOf .bulk i, r.eventType.isRename = false := by
  intro i r hr
  by_cases hsent : (s.queue.channel tin j).result = .sent
  · rw [Fanout.eventsOf_trySend hsent] at hr
    rcases List.mem_append.mp hr with hr | hr
    · exact hs.bulk i r hr
    · split_ifs at hr with h
      · rw [List.mem_singleton.mp hr]
        exact he h.1.symm
      · exact absurd hr List.not_mem_nil
  · rw [Fanout.trySend_full hsent] at hr
    exact hs.bulk i r hr

theorem Separate.push (hs : s.Separate) (hash : U64 → ℕ) (e : Event) :
    (s.push hash e).Separate := by
  cases hwaiting : s.waiting with
  | some r =>
    have hblocked : s.push hash e = s := by simp [TargetLine.push, hwaiting]
    rw [hblocked]
    exact hs
  | none =>
    cases hpush : s.queue.push hash e with
    | none =>
      rw [push_none hwaiting hpush]
      exact ⟨hs.bulk, hs.plain⟩
    | some r =>
      rw [push_some hwaiting hpush]
      rcases Fanout.push_cases hash hpush with hq | ⟨j, -, hq⟩
      · rw [hq]
        exact hs
      · rw [hq]
        refine ⟨hs.trySend _ j fun htin => ?_, hs.plain⟩
        cases ht : e.eventType <;> simp [ht, EventType.tin, EventType.isRename] at htin ⊢

theorem Separate.enter (hs : s.Separate) : s.enter.Separate := by
  unfold TargetLine.enter
  cases s.waiting with
  | none => exact hs
  | some e =>
    simp only
    split_ifs
    · exact hs
    · exact ⟨hs.trySend _ _ (by simp), hs.plain⟩

theorem Separate.work (hs : s.Separate) : (s.work i a x w).Separate := by
  by_cases hoffers : s.Offers i a
  · constructor
    · have hafter (j : ℕ) : ∀ r ∈ (s.queueAfter i a).eventsOf .bulk j,
          r.eventType.isRename = false := by
        intro r hr
        cases a with
        | recv tin e limitBytes maxLatency now =>
          rw [queueAfter, Fanout.eventsOf_dropHead] at hr
          split_ifs at hr with h
          · rw [← h.1] at hr
            exact hs.bulk i r (List.mem_of_mem_tail hr)
          · exact hs.bulk j r hr
        | _ => exact hs.bulk j r hr
      intro j r hr
      rw [work_queue hoffers] at hr
      split_ifs at hr
      · rw [Fanout.eventsOf_dropReceivers] at hr
        split_ifs at hr
        · exact absurd hr List.not_mem_nil
        · exact hafter j r hr
      · exact hafter j r hr
    · intro j
      by_cases hj : j = i
      · rw [hj, work_worker hoffers]
        have hplain := (hs.takesFrom (n := 0) hoffers).plain
        unfold WorkerLoop.step
        cases htake : (s.worker i).take s.board.paused a with
        | mk r l' =>
          rw [htake] at hplain
          cases r with
          | none => exact hplain
          | some r =>
            rw [handle_coalescer]
            exact hplain
      · rw [work_worker_other hj]
        exact hs.plain j
  · rw [TargetLine.work, if_neg hoffers]
    exact hs

end TargetLine

end Foxing
