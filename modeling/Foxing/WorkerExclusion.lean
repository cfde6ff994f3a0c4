import Foxing.StructuralOrder
import Foxing.Wal

/-!
# Workers on the same inode

A write of an inode and an event that changes the file as a whole are not to be applied at
the same time. A worker takes a guard for each event from its write-ahead log, and each worker
has a log of its own. Within a worker events follow one another anyway; that two workers do
not meet on an inode is up to the fan-out.

What a worker has received it may merge, put off or give up before it takes up an event.
-/
namespace Foxing

namespace Fanout
variable (q : Fanout) (hash : U64 → ℕ) (e : Event)

/-- Where a push puts its event: with a worker, or nowhere. Nothing is returned while it
waits for room. -/
def placement : Option (Option (Fin q.workers)) :=
  if e.isInternalTraffic then some none
  else
    match e.eventType.tin with
    | .control => some (some (q.targetIdx hash e))
    | .structural => q.structuralIdx.map some
    | tin =>
      if (q.channel tin (q.targetIdx hash e)).result = .sent then some (some (q.targetIdx hash e))
      else some none

variable {q hash e}

/-- What a push returns, and where it puts its event. -/
theorem push_placed (hopen : ∀ tin i, (q.channel tin i).result ≠ .closed) :
    ∃ pushed : Option (Fin q.workers) → Bool, q.push hash e = (q.placement hash e).map fun w =>
      (pushed w, w.elim q fun i => (q.trySend e e.eventType.tin i).2) := by
  unfold placement
  by_cases hint : e.isInternalTraffic = true
  · exact ⟨fun _ => true, by simp [push, hint]⟩
  · rw [if_neg hint]
    cases htin : e.eventType.tin with
    | control => exact ⟨fun _ => true, by simp [push, hint, htin]⟩
    | structural =>
      refine ⟨fun _ => true, ?_⟩
      rw [push_structural htin (by simpa using hint) (hopen .structural) hash]
      cases hidx : q.structuralIdx <;> simp
    | metadata | bulk =>
      refine ⟨Option.isSome, ?_⟩
      simp only [push, hint, htin, if_false, Bool.false_eq_true]
      split_ifs with hsent
      · simp [trySend, hsent]
      · simpa [trySend, hsent] using trySend_full hsent

/-- As long as the workers are there, a push puts its event there. -/
theorem push_placement (hopen : ∀ tin i, (q.channel tin i).result ≠ .closed) :
    (q.push hash e).map Prod.snd = (q.placement hash e).map fun w =>
      w.elim q fun i => (q.trySend e e.eventType.tin i).2 := by
  obtain ⟨pushed, hpush⟩ := @push_placed q hash e hopen
  rw [hpush, Option.map_map]
  rfl

/-- The worker that is found has room. -/
theorem sent_of_placement {i : Fin q.workers} (hcontrol : (q.channel .control i).result = .sent)
    (hplace : q.placement hash e = some (some i)) :
    (q.channel e.eventType.tin i).result = .sent := by
  unfold placement at hplace
  by_cases hint : e.isInternalTraffic = true
  · simp [hint] at hplace
  · rw [if_neg hint] at hplace
    cases htin : e.eventType.tin with
    | control => exact hcontrol
    | structural =>
      simp only [htin, Option.map_eq_some_iff, Option.some.injEq, exists_eq_right] at hplace
      exact sent_of_structuralIdx hplace
    | metadata | bulk =>
      simp only [htin] at hplace
      split_ifs at hplace with hsent
      · exact Option.some.inj (Option.some.inj hplace) ▸ hsent
      · cases hplace

/-- A file is created, and there are two workers. -/
theorem push_placement_created :
    ((StructuralOrder.Delivery.init 1).fanout.push (fun _ => 0)
        { Event.zero with eventType := .create }).map Prod.snd =
      ((StructuralOrder.Delivery.init 1).fanout.placement (fun _ => 0)
        { Event.zero with eventType := .create }).map fun w =>
          w.elim (StructuralOrder.Delivery.init 1).fanout fun i =>
            ((StructuralOrder.Delivery.init 1).fanout.trySend { Event.zero with eventType := .create }
              .structural i).2 := by
  refine push_placement fun tin i => ?_
  cases tin <;> decide +revert

end Fanout

namespace WorkerExclusion
open Wal
open scoped StructuralOrder

/-- The kind of guard that an event takes. -/
def opKind (t : EventType) : WalOpKind :=
  match t with
  | .rename | .renameIncomplete => .rename
  | .truncate => .truncate
  | .write | .writeRange => .write
  | .barrier => .barrier
  | _ => .barrier

/-- Two events of an inode of which one is a write and the other wants the file alone. -/
def Conflict (x y : Event) : Prop :=
  x.inode = y.inode ∧
    (opKind x.eventType = .write ∧ (opKind y.eventType).exclusive ∨
      opKind y.eventType = .write ∧ (opKind x.eventType).exclusive)

instance (x y : Event) : Decidable (Conflict x y) := inferInstanceAs (Decidable (_ ∧ _))

theorem Conflict.symm {x y : Event} (h : Conflict x y) : Conflict y x := ⟨h.1.symm, h.2.symm⟩

structure Worker where
  holding : List Event
  current : Option Event
  wal : U64 → InodeState Unit

def Worker.new : Worker := ⟨[], none, fun _ => .new⟩

/-- The event that has its guard. -/
def Worker.Applies (w : Worker) (e : Event) : Prop :=
  w.current = some e ∧ (w.wal e.inode).phase () = .held (opKind e.eventType)

/-- The workers `0` to `n` of a target. -/
structure Pool (n : ℕ) where
  queued : EventTin → Fin (n + 1) → List Event
  waiting : Option Event
  worker : Fin (n + 1) → Worker

inductive Action (n : ℕ)
  | push (e : Event)
  | enter
  | recv (tin : EventTin) (i : Fin (n + 1))
  | regroup (i : Fin (n + 1)) (events : List Event)
  | start (i : Fin (n + 1)) (k : ℕ)
  | go (i : Fin (n + 1))
  | finish (i : Fin (n + 1)) (again : Bool)

namespace Pool
variable {n : ℕ} (hash : U64 → ℕ) (s : Pool n)

def init (n : ℕ) : Pool n := ⟨fun _ _ => [], none, fun _ => .new⟩

def fanout : Fanout :=
  ⟨n + 1, Nat.succ_pos n, fun tin i => ⟨tin.channelCapacity, s.queued tin i, false⟩⟩

def placement (e : Event) : Option (Option (Fin (n + 1))) := s.fanout.placement hash e

def setQueue (tin : EventTin) (i : Fin (n + 1)) (events : List Event) : Pool n :=
  { s with queued := Function.update s.queued tin (Function.update (s.queued tin) i events) }

def setWorker (i : Fin (n + 1)) (w : Worker) : Pool n :=
  { s with worker := Function.update s.worker i w }

def enqueue (i : Fin (n + 1)) (e : Event) : Pool n :=
  s.setQueue e.eventType.tin i (s.queued e.eventType.tin i ++ [e])

def push (e : Event) : Pool n :=
  if s.waiting.isSome then s
  else
    match s.placement hash e with
    | some (some i) => s.enqueue i e
    | some none => s
    | none => { s with waiting := some e }

/-- The push that waits is let into the structural channel of the first worker. -/
def enter : Pool n :=
  match s.waiting with
  | some e =>
    if (s.fanout.channel .structural s.fanout.first).result = .sent then
      { s.setQueue .structural 0 (s.queued .structural 0 ++ [e]) with waiting := none }
    else s
  | none => s

def recv (tin : EventTin) (i : Fin (n + 1)) : Pool n :=
  match s.queued tin i with
  | e :: rest =>
    (s.setQueue tin i rest).setWorker i
      { s.worker i with holding := (s.worker i).holding ++ [e] }
  | [] => s

/-- What has been received is merged, or given up; the inodes and the kinds stay. -/
def regroup (i : Fin (n + 1)) (events : List Event) : Pool n :=
  if ∀ x ∈ events, ∃ y ∈ (s.worker i).holding, x.inode = y.inode ∧
      opKind x.eventType = opKind y.eventType then
    s.setWorker i { s.worker i with holding := events }
  else s

/-- An event is taken up, and its guard is asked for. -/
def start (i : Fin (n + 1)) (k : ℕ) : Pool n :=
  match (s.worker i).current, (s.worker i).holding[k]? with
  | none, some e =>
    s.setWorker i
      { holding := (s.worker i).holding.eraseIdx k
        current := some e
        wal := Function.update (s.worker i).wal e.inode
          (((s.worker i).wal e.inode).step (.call () (opKind e.eventType))) }
  | _, _ => s

/-- The next step towards the guard. -/
def go (i : Fin (n + 1)) : Pool n :=
  match (s.worker i).current with
  | some e =>
    s.setWorker i { s.worker i with
      wal := Function.update (s.worker i).wal e.inode (((s.worker i).wal e.inode).step (.go ())) }
  | none => s

/-- The event has been applied, or is to be attempted again. -/
def finish (i : Fin (n + 1)) (again : Bool) : Pool n :=
  match (s.worker i).current with
  | some e =>
    if ((s.worker i).wal e.inode).phase () = .held (opKind e.eventType) then
      s.setWorker i
        { holding := (s.worker i).holding ++ if again then [e] else []
          current := none
          wal := Function.update (s.worker i).wal e.inode
            (((s.worker i).wal e.inode).step (.drop ())) }
    else s
  | none => s

def step : Action n → Pool n
  | .push e => s.push hash e
  | .enter => s.enter
  | .recv tin i => s.recv tin i
  | .regroup i events => s.regroup i events
  | .start i k => s.start i k
  | .go i => s.go i
  | .finish i again => s.finish i again

theorem channels_enqueue {queued : EventTin → Fin (n + 1) → List Event} {tin : EventTin}
    {i : Fin (n + 1)} {e : Event}
    (hsent : (Channel.mk tin.channelCapacity (queued tin i) false).result = .sent) :
    (Function.update (fun t j => Channel.mk t.channelCapacity (queued t j) false) tin
        (Function.update (fun j => Channel.mk tin.channelCapacity (queued tin j) false) i
          ((Channel.mk tin.channelCapacity (queued tin i) false).trySend e).2) :
      EventTin → Fin (n + 1) → Channel) = fun t j => Channel.mk t.channelCapacity
        (Function.update queued tin (Function.update (queued tin) i (queued tin i ++ [e])) t j)
        false := by
  funext t j
  rw [Channel.trySend, if_pos hsent]
  by_cases ht : t = tin
  · subst ht
    rw [Function.update_self, Function.update_self]
    by_cases hj : j = i
    · subst hj
      rw [Function.update_self, Function.update_self]
    · rw [Function.update_of_ne hj, Function.update_of_ne hj]
  · rw [Function.update_of_ne ht, Function.update_of_ne ht]

/-- The push is that of the fan-out. -/
theorem fanout_push (hwaiting : s.waiting = none) (e : Event) :
    (s.fanout.push hash e).map Prod.snd =
      (s.placement hash e).map fun _ => (s.push hash e).fanout := by
  obtain ⟨pushed, hpush⟩ :=
    @Fanout.push_placed s.fanout hash e fun _ _ => Channel.result_ne_closed _ _
  rw [hpush, Option.map_map, push, hwaiting, if_neg (by simp)]
  show (s.placement hash e).map _ = _
  cases hplace : s.placement hash e with
  | none => rfl
  | some w =>
    cases w with
    | none => rfl
    | some i =>
      exact congrArg (fun channel => some (⟨n + 1, Nat.succ_pos n, channel⟩ : Fanout))
        (channels_enqueue (Fanout.sent_of_placement rfl hplace))

/-- No two workers apply events at the same time that exclude each other. -/
def Exclusive : Prop :=
  ∀ i j, i ≠ j → ∀ x y, (s.worker i).Applies x → (s.worker j).Applies y → ¬ Conflict x y

/-- All that a worker still has to apply, in no particular order. -/
def lane (i : Fin (n + 1)) : List Event :=
  (s.worker i).current.toList ++ ((s.worker i).holding ++
    (s.queued .control i ++ (s.queued .structural i ++ (s.queued .metadata i ++
      (s.queued .bulk i ++ if i = 0 then s.waiting.toList else [])))))

/-- An event is pushed to the worker that has what excludes it. -/
def Apart (s : Pool n) : Action n → Prop
  | .push e => s.waiting = none → s.placement hash e ≠ some none →
      ∀ j, j ≠ ((s.placement hash e).bind id).getD 0 → ∀ x ∈ s.lane j, ¬ Conflict x e
  | _ => True

instance (s : Pool n) (a : Action n) : Decidable (s.Apart hash a) :=
  match a with
  | .push e => inferInstanceAs (Decidable (s.waiting = none → s.placement hash e ≠ some none →
      ∀ j, j ≠ ((s.placement hash e).bind id).getD 0 → ∀ x ∈ s.lane j, ¬ Conflict x e))
  | .enter | .recv _ _ | .regroup _ _ | .start _ _ | .go _ | .finish _ _ =>
    inferInstanceAs (Decidable True)

variable {hash} {s : Pool n}

theorem mem_lane {i : Fin (n + 1)} {x : Event} :
    x ∈ s.lane i ↔ (s.worker i).current = some x ∨ x ∈ (s.worker i).holding ∨
      (∃ tin, x ∈ s.queued tin i) ∨ i = 0 ∧ s.waiting = some x := by
  have htin : (∃ tin, x ∈ s.queued tin i) ↔ x ∈ s.queued .control i ∨ x ∈ s.queued .structural i ∨
      x ∈ s.queued .metadata i ∨ x ∈ s.queued .bulk i := by
    constructor
    · rintro ⟨tin, hx⟩
      cases tin <;> simp [hx]
    · rintro (hx | hx | hx | hx)
      · exact ⟨_, hx⟩
      · exact ⟨_, hx⟩
      · exact ⟨_, hx⟩
      · exact ⟨_, hx⟩
  have hwaiting : x ∈ (if i = 0 then s.waiting.toList else []) ↔ i = 0 ∧ s.waiting = some x := by
    split_ifs with hi <;> simp [hi]
  simp only [lane, List.mem_append, Option.mem_toList, hwaiting, htin, or_assoc]

theorem mem_setQueue {tin t : EventTin} {i j : Fin (n + 1)} {events : List Event} {x : Event}
    (hx : x ∈ (s.setQueue tin i events).queued t j) :
    x ∈ s.queued t j ∨ (t = tin ∧ j = i) ∧ x ∈ events := by
  simp only [setQueue] at hx
  by_cases ht : t = tin
  · subst ht
    rw [Function.update_self] at hx
    by_cases hj : j = i
    · subst hj
      rw [Function.update_self] at hx
      exact .inr ⟨⟨rfl, rfl⟩, hx⟩
    · rw [Function.update_of_ne hj] at hx
      exact .inl hx
  · rw [Function.update_of_ne ht] at hx
    exact .inl hx

/-- What the workers have comes from what they had, by inode and kind. -/
def Covered (s s' : Pool n) : Prop :=
  ∀ i, ∀ x ∈ s'.lane i, ∃ y ∈ s.lane i, x.inode = y.inode ∧ opKind x.eventType = opKind y.eventType

theorem Covered.of_subset {s' : Pool n} (h : ∀ i, s'.lane i ⊆ s.lane i) : Covered s s' :=
  fun i x hx => ⟨x, h i hx, rfl, rfl⟩

theorem Covered.separated {s' : Pool n} (h : Covered s s')
    (hs : Lanes.Separated Conflict s.lane) : Lanes.Separated Conflict s'.lane := by
  intro i j hij x hx y hy hconflict
  obtain ⟨x', hx', hinode, hkind⟩ := h i x hx
  obtain ⟨y', hy', hinode', hkind'⟩ := h j y hy
  refine hs i j hij x' hx' y' hy' ?_
  unfold Conflict at hconflict ⊢
  rw [← hinode, ← hinode', ← hkind, ← hkind']
  exact hconflict

theorem covered_refl (s : Pool n) : Covered s s := Covered.of_subset fun _ _ hx => hx

/-- Only one worker is another than before. -/
theorem Covered.of_worker {i : Fin (n + 1)} {w : Worker}
    (hcurrent : ∀ x, w.current = some x → x ∈ s.lane i)
    (hholding : ∀ x ∈ w.holding, ∃ y ∈ s.lane i, x.inode = y.inode ∧
      opKind x.eventType = opKind y.eventType) : Covered s (s.setWorker i w) := by
  intro j x hx
  by_cases hj : j = i
  · subst hj
    rw [mem_lane] at hx
    simp only [setWorker, Function.update_self] at hx
    rcases hx with hx | hx | hx | hx
    · exact ⟨x, hcurrent x hx, rfl, rfl⟩
    · exact hholding x hx
    · exact ⟨x, mem_lane.mpr (.inr (.inr (.inl hx))), rfl, rfl⟩
    · exact ⟨x, mem_lane.mpr (.inr (.inr (.inr hx))), rfl, rfl⟩
  · refine ⟨x, ?_, rfl, rfl⟩
    rw [mem_lane] at hx ⊢
    simpa only [setWorker, Function.update_of_ne hj] using hx

theorem covered_enter (s : Pool n) : Covered s s.enter := by
  unfold enter
  cases hwaiting : s.waiting with
  | none => exact covered_refl s
  | some e =>
    dsimp only
    split_ifs
    · refine Covered.of_subset fun i x hx => ?_
      rw [mem_lane] at hx ⊢
      rcases hx with hx | hx | ⟨tin, hx⟩ | ⟨_, hx⟩
      · exact .inl hx
      · exact .inr (.inl hx)
      · rcases mem_setQueue hx with hold | ⟨⟨-, rfl⟩, hnew⟩
        · exact .inr (.inr (.inl ⟨tin, hold⟩))
        · rcases List.mem_append.mp hnew with hold | hnew
          · exact .inr (.inr (.inl ⟨_, hold⟩))
          · rw [List.mem_singleton.mp hnew]
            exact .inr (.inr (.inr ⟨rfl, hwaiting⟩))
      · cases hx
    · exact covered_refl s

theorem covered_recv (s : Pool n) (tin : EventTin) (i : Fin (n + 1)) : Covered s (s.recv tin i) := by
  unfold recv
  cases hqueued : s.queued tin i with
  | nil => exact covered_refl s
  | cons e rest =>
    have hmem : ∀ x ∈ e :: rest, x ∈ s.lane i := fun x hx =>
      mem_lane.mpr (.inr (.inr (.inl ⟨tin, hqueued ▸ hx⟩)))
    refine Covered.of_subset fun j x hx => ?_
    rw [mem_lane] at hx
    simp only [setWorker] at hx
    rcases hx with hx | hx | ⟨t, hx⟩ | hx
    · refine mem_lane.mpr (.inl ?_)
      by_cases hj : j = i
      · subst hj
        simpa [setQueue] using hx
      · simpa [setQueue, hj] using hx
    · by_cases hj : j = i
      · subst hj
        rw [Function.update_self] at hx
        rcases List.mem_append.mp hx with hx | hx
        · exact mem_lane.mpr (.inr (.inl hx))
        · rw [List.mem_singleton.mp hx]
          exact hmem e (List.mem_cons_self ..)
      · rw [Function.update_of_ne hj] at hx
        exact mem_lane.mpr (.inr (.inl hx))
    · rcases mem_setQueue hx with hold | ⟨⟨-, rfl⟩, hnew⟩
      · exact mem_lane.mpr (.inr (.inr (.inl ⟨t, hold⟩)))
      · exact hmem x (List.mem_cons_of_mem e hnew)
    · exact mem_lane.mpr (.inr (.inr (.inr hx)))

theorem covered_start (s : Pool n) (i : Fin (n + 1)) (k : ℕ) : Covered s (s.start i k) := by
  unfold start
  cases hcurrent : (s.worker i).current with
  | some e => exact covered_refl s
  | none =>
    cases hheld : (s.worker i).holding[k]? with
    | none => exact covered_refl s
    | some e =>
      refine Covered.of_worker (fun x hx => ?_) fun x hx => ⟨x, ?_, rfl, rfl⟩
      · cases hx
        exact mem_lane.mpr (.inr (.inl (List.mem_of_getElem? hheld)))
      · exact mem_lane.mpr (.inr (.inl (List.mem_of_mem_eraseIdx hx)))

theorem covered_go (s : Pool n) (i : Fin (n + 1)) : Covered s (s.go i) := by
  unfold go
  cases hcurrent : (s.worker i).current with
  | none => exact covered_refl s
  | some e =>
    refine Covered.of_worker (fun x hx => mem_lane.mpr (.inl hx)) fun x hx => ⟨x, ?_, rfl, rfl⟩
    exact mem_lane.mpr (.inr (.inl hx))

theorem covered_finish (s : Pool n) (i : Fin (n + 1)) (again : Bool) :
    Covered s (s.finish i again) := by
  unfold finish
  cases hcurrent : (s.worker i).current with
  | none => exact covered_refl s
  | some e =>
    by_cases hphase : ((s.worker i).wal e.inode).phase () = .held (opKind e.eventType)
    · simp only [if_pos hphase]
      refine Covered.of_worker (fun x hx => by cases hx) fun x hx => ⟨x, ?_, rfl, rfl⟩
      rcases List.mem_append.mp hx with hx | hx
      · exact mem_lane.mpr (.inr (.inl hx))
      · have hxe : x = e := by
          cases again with
          | false => cases hx
          | true => exact List.mem_singleton.mp hx
        rw [hxe]
        exact mem_lane.mpr (.inl hcurrent)
    · simp only [if_neg hphase]
      exact covered_refl s

theorem covered_regroup (s : Pool n) (i : Fin (n + 1)) (events : List Event) :
    Covered s (s.regroup i events) := by
  unfold regroup
  split_ifs with hevents
  · refine Covered.of_worker (fun x hx => mem_lane.mpr (.inl hx)) fun x hx => ?_
    obtain ⟨y, hy, hsame⟩ := hevents x hx
    exact ⟨y, mem_lane.mpr (.inr (.inl hy)), hsame⟩
  · exact covered_refl s

theorem separated_enqueue (h : Lanes.Separated Conflict s.lane) {i : Fin (n + 1)} {e : Event}
    (hapart : ∀ j, j ≠ i → ∀ x ∈ s.lane j, ¬ Conflict x e) {s' : Pool n}
    (hsub : ∀ j, ∀ x ∈ s'.lane j, x ∈ s.lane j ∨ j = i ∧ x = e) :
    Lanes.Separated Conflict s'.lane :=
  h.insert hsub fun j hj x hx => ⟨fun hc => hapart j hj x hx hc.symm, hapart j hj x hx⟩

theorem separated_push (h : Lanes.Separated Conflict s.lane) {e : Event}
    (hapart : s.Apart hash (.push e)) : Lanes.Separated Conflict (s.push hash e).lane := by
  unfold push
  split_ifs with hwaiting
  · exact h
  · have hnone : s.waiting = none := by simpa using hwaiting
    cases hplace : s.placement hash e with
    | none =>
      have hfree := hapart hnone (by simp [hplace])
      rw [hplace] at hfree
      refine separated_enqueue h hfree fun j x hx => ?_
      rw [mem_lane] at hx ⊢
      rcases hx with hx | hx | hx | ⟨rfl, hx⟩
      · exact .inl (.inl hx)
      · exact .inl (.inr (.inl hx))
      · exact .inl (.inr (.inr (.inl hx)))
      · exact .inr ⟨rfl, (Option.some.inj hx).symm⟩
    | some w =>
      cases w with
      | none => exact h
      | some i =>
        have hfree := hapart hnone (by simp [hplace])
        rw [hplace] at hfree
        refine separated_enqueue h hfree fun j x hx => ?_
        rw [mem_lane] at hx ⊢
        rcases hx with hx | hx | ⟨tin, hx⟩ | hx
        · exact .inl (.inl hx)
        · exact .inl (.inr (.inl hx))
        · rcases mem_setQueue hx with hold | ⟨⟨-, rfl⟩, hnew⟩
          · exact .inl (.inr (.inr (.inl ⟨tin, hold⟩)))
          · rcases List.mem_append.mp hnew with hold | hnew
            · exact .inl (.inr (.inr (.inl ⟨_, hold⟩)))
            · exact .inr ⟨rfl, List.mem_singleton.mp hnew⟩
        · exact .inl (.inr (.inr (.inr hx)))

theorem separated_step (h : Lanes.Separated Conflict s.lane) {a : Action n}
    (hapart : s.Apart hash a) : Lanes.Separated Conflict (s.step hash a).lane := by
  cases a with
  | push e => exact separated_push h hapart
  | enter => exact (covered_enter s).separated h
  | recv tin i => exact (covered_recv s tin i).separated h
  | regroup i events => exact (covered_regroup s i events).separated h
  | start i k => exact (covered_start s i k).separated h
  | go i => exact (covered_go s i).separated h
  | finish i again => exact (covered_finish s i again).separated h

theorem separated_init : Lanes.Separated Conflict (init n).lane := by
  intro i j _ x hx
  have hlane : (init n).lane i = [] := by simp [lane, init, Worker.new]
  rw [hlane] at hx
  cases hx

/-- An event that a worker applies is one of those that it has. -/
theorem exclusive_of_separated (h : Lanes.Separated Conflict s.lane) : s.Exclusive :=
  fun i j hij x y hx hy =>
    h i j hij x (mem_lane.mpr (.inl hx.1)) y (mem_lane.mpr (.inl hy.1))

/-- As long as events are pushed to the worker that has what excludes them, two workers never
apply events at the same time that exclude each other. A push is that of the fan-out
(`fanout_push`). -/
theorem exclusive_of_along (hash : U64 → ℕ) (n : ℕ) (as : List (Action n))
    (hapart : Run.Along (step hash) (Apart hash) (init n) as) :
    ∀ p, p <+: as → (Run.exec (step hash) (init n) p).Exclusive :=
  fun p hprefix => exclusive_of_separated (Run.invariant_prefix (step hash)
    (I := fun s => Lanes.Separated Conflict s.lane) (fun _ _ hok hs => separated_step hs hok)
    hapart separated_init p hprefix)

/-! ## Two workers on one inode -/

def renamed : Event := { Event.zero with eventType := .rename, inode := 5, parentInode := 2 }

def written : Event := { Event.zero with eventType := .write, inode := 5, parentInode := 2 }

def written' : Event := { written with inode := 6 }

/-- A rename goes to the first worker, a write to the second. -/
def together (w : Event) : List (Action 1) :=
  [.push renamed, .push w, .recv .structural 0, .recv .bulk 1, .start 0 0, .start 1 0] ++
    List.replicate 5 (.go 0) ++ List.replicate 4 (.go 1)

theorem exclusive_together :
    (Run.exec (step fun _ => 0) (init 1) (together written')).Exclusive :=
  exclusive_of_along (fun _ => 0) 1 (together written') (by decide) _ List.prefix_rfl

theorem together_conflict :
    ((Run.exec (step fun _ => 0) (init 1) (together written)).worker 0).Applies renamed ∧
      ((Run.exec (step fun _ => 0) (init 1) (together written)).worker 1).Applies written ∧
      ¬ (Run.exec (step fun _ => 0) (init 1) (together written)).Exclusive := by
  have hrename : ((Run.exec (step fun _ => 0) (init 1) (together written)).worker 0).Applies
      renamed := ⟨rfl, rfl⟩
  have hwrite : ((Run.exec (step fun _ => 0) (init 1) (together written)).worker 1).Applies
      written := ⟨rfl, rfl⟩
  exact ⟨hrename, hwrite, fun h => h 0 1 (by decide) _ _ hrename hwrite (by decide)⟩

end Pool
end WorkerExclusion
end Foxing
