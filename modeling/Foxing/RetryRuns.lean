import Foxing.RepeatedAttempts
import Foxing.RetryQueue

/-!
# Runs with retries

A worker that retries failed events is compared with one whose attempts succeed
at once. The two agree whenever no event waits, provided that no event is handled
whose footprint meets that of a waiting one, and that the events which fail may
be attempted again. Without that, a retried event undoes what came after it.
-/
namespace Foxing

open World (cells)

/-- Neither event writes what the other one reads. -/
def Apart (e e' : Event) (w : World) : Prop :=
  Disjoint (writes e w) (reads e' w) ∧ Disjoint (writes e' w) (reads e w)

section Reference
variable (envOf : Event → Env)

/-- An attempt without a failure. -/
def attemptOnce (w : World) (e : Event) : World := (processSingleEvent (envOf e) none e w).2

/-- The attempt finds what every attempt at its event finds. An event that is handled
is apart from those that wait. What fails may be attempted again and finds room in
the queue, and an event that is flushed for a barrier does not fail. -/
def Undisturbed (s : RetryWorker) : RetryAction → Prop
  | .handle o a e => a.env = envOf e ∧
      (∀ item ∈ s.retryQueue.queue, Apart e item.event s.world) ∧
      (a.fault ≠ none → Retriable e s.world ∧ o ≠ .paused ∧ 0 < s.retryQueue.maxRetries ∧
        s.retryQueue.queue.length < s.retryQueue.capacity)
  | .tick now tries => ∀ x ∈ (s.retryQueue.popReadyBatch now 16).1.zipIdx,
      (tries x.2).env = envOf x.1.event ∧
      ((tries x.2).fault ≠ none → x.1.attempts < s.retryQueue.maxRetries)

end Reference

/-! ## A single attempt -/

section Attempt
variable {s : RetryWorker} {e : Event} {o : Intake} {a : Attempt} {k : ℕ}

/-- The attempt is over, and the queue is as it was. -/
structure Finished (s s' : RetryWorker) (w : World) : Prop where
  world : s'.world = w
  retryQueue : s'.retryQueue = s.retryQueue
  alive : s'.crashed = false

/-- The event has been put at the end of the queue. -/
structure Postponed (s s' : RetryWorker) (e : Event) (w : World) : Prop where
  world : s'.world = w
  events : s'.retryQueue.queue.map RetryItem.event = s.retryQueue.queue.map RetryItem.event ++ [e]
  length : s'.retryQueue.queue.length = s.retryQueue.queue.length + 1
  room : s.retryQueue.queue.length < s.retryQueue.capacity
  capacity : s'.retryQueue.capacity = s.retryQueue.capacity
  maxRetries : s'.retryQueue.maxRetries = s.retryQueue.maxRetries
  alive : s'.crashed = false

theorem attempt_run {x : Outcome} (halive : s.crashed = false)
    (hx : (processSingleEvent a.env a.fault e s.world).1 = some x) :
    s.attempt e o a k =
      let s' := { s with
        world := (processSingleEvent a.env a.fault e s.world).2
        repairs := s.repairs ++ x.repairs }
      match x.result with
      | .ok () => s'
      | .error f => s'.onError e o k a.now f := by
  have hpair : processSingleEvent a.env a.fault e s.world =
      (some x, (processSingleEvent a.env a.fault e s.world).2) := Prod.ext hx rfl
  unfold RetryWorker.attempt
  rewrite [if_neg (by simp [halive]), hpair]
  rfl

theorem attempt_of_succeeds (halive : s.crashed = false)
    (h : Succeeds (processSingleEvent a.env a.fault e s.world).1) :
    Finished s (s.attempt e o a k) (processSingleEvent a.env a.fault e s.world).2 := by
  obtain ⟨x, hx, hok⟩ := h
  rw [attempt_run halive hx, hok]
  exact ⟨rfl, rfl, halive⟩

/-- The failure is put on record, and the event into the queue. -/
theorem attempt_of_fails {n : ℕ} (halive : s.crashed = false) (hfault : a.fault = some n)
    (h : Fails (processSingleEvent a.env (some n) e s.world).1) (hr : Retriable e s.world)
    (ho : o ≠ .paused) (hmax : k < s.retryQueue.maxRetries)
    (hcap : s.retryQueue.queue.length < s.retryQueue.capacity) :
    Postponed s (s.attempt e o a k) e (processSingleEvent a.env (some n) e s.world).2 := by
  obtain ⟨x, hx, hfail⟩ := h
  have hs := (left_attempt a.env n hr).settled hr
  have hlook := resolveEventPath_settled e.name (hs _ (.inl rfl))
  rw [← hfault] at hx hlook ⊢
  rw [attempt_run halive hx, hfail]
  have hpush := RetryQueue.push_room a.now e hmax hcap
  cases o with
  | paused => exact absurd rfl ho
  | received =>
    simp only [RetryWorker.onError, RetryWorker.onErrorClass, classifyError, hpush]
    exact ⟨rfl, by simp, by simp, hcap, rfl, rfl, halive⟩
  | pressed | flushed =>
    simp only [RetryWorker.onError, RetryWorker.journal, hlook, halive, RetryWorker.onErrorClass,
      classifyError, hpush]
    exact ⟨rfl, by simp, by simp, hcap, rfl, rfl, rfl⟩

/-- An attempt that would succeed without a failure does succeed, or its event is
put into the queue. -/
theorem attempt_cases (halive : s.crashed = false)
    (h : Succeeds (processSingleEvent a.env none e s.world).1)
    (hfault : a.fault ≠ none → Retriable e s.world ∧ o ≠ .paused ∧ k < s.retryQueue.maxRetries ∧
      s.retryQueue.queue.length < s.retryQueue.capacity) :
    Finished s (s.attempt e o a k) (processSingleEvent a.env none e s.world).2 ∨
      ∃ n, Retriable e s.world ∧
        Postponed s (s.attempt e o a k) e (processSingleEvent a.env (some n) e s.world).2 := by
  cases hf : a.fault with
  | none =>
    refine .inl ?_
    rw [← hf] at h ⊢
    exact attempt_of_succeeds halive h
  | some n =>
    obtain ⟨hr, ho, hmax, hcap⟩ := hfault (by simp [hf])
    rcases noticed_attempt a.env n e s.world with hsame | hfails | hno
    · refine .inl ?_
      rw [← hsame, ← hf] at h ⊢
      exact attempt_of_succeeds halive h
    · exact .inr ⟨n, hr, attempt_of_fails halive hf hfails hr ho hmax hcap⟩
    · exact absurd h hno

end Attempt

/-! ## Whole runs -/

section Runs
variable {envOf : Event → Env} {r : World} {s : RetryWorker}

/-- Carrying out the waiting events leads to the state `r`; `rest` waits in front of
the queue. -/
structure Catching (envOf : Event → Env) (r : World) (rest : List RetryItem) (s : RetryWorker) :
    Prop where
  pending : (eventTasks envOf).Pending r s.world
    (rest.map RetryItem.event ++ s.retryQueue.queue.map RetryItem.event)
  room : rest.length + s.retryQueue.queue.length ≤ s.retryQueue.capacity
  alive : s.crashed = false

/-- Looking up a path after a failed attempt makes no difference. -/
theorem failed_world (n : ℕ) {e : Event} {w : World} (hr : Retriable e w) :
    ((eventTasks envOf).fail e (n, false) w).2 = (processSingleEvent (envOf e) (some n) e w).2 :=
  congrArg Prod.snd (failedAttempt_run (envOf e) (n, false) hr)

/-- An event is handled. -/
theorem Catching.handle {o : Intake} {a : Attempt} {e : Event} (h : Catching envOf r [] s)
    (hok : Undisturbed envOf s (.handle o a e))
    (hsucc : Succeeds (processSingleEvent (envOf e) none e r).1) :
    Catching envOf (attemptOnce envOf r e) [] (s.step (.handle o a e)) := by
  obtain ⟨henv, hapart, hfault⟩ := hok
  have hpending : (eventTasks envOf).Pending r s.world
      (s.retryQueue.queue.map RetryItem.event) := h.pending
  have hind : ∀ u ∈ s.retryQueue.queue.map RetryItem.event,
      (eventTasks envOf).Independent s.world e u := by
    intro u hu
    obtain ⟨item, hitem, rfl⟩ := List.mem_map.mp hu
    exact hapart item hitem
  have hnow : Succeeds (processSingleEvent (envOf e) none e s.world).1 := by
    have hres := hpending.result hind
    rw [show processSingleEvent (envOf e) none e s.world = (eventTasks envOf).act e s.world from rfl,
      ← hres]
    exact hsucc
  show Catching envOf _ [] (s.attempt e o a 0)
  rcases attempt_cases (a := a) (k := 0) h.alive (by rw [henv]; exact hnow) hfault with
    hdone | ⟨n, hr, hpost⟩
  · refine ⟨?_, ?_, hdone.alive⟩
    · rw [hdone.world, hdone.retryQueue, henv]
      exact hpending.succeed hind
    · rw [hdone.retryQueue]
      exact h.room
  · refine ⟨?_, ?_, hpost.alive⟩
    · rw [hpost.world, hpost.events, henv, ← failed_world n hr]
      exact hpending.postpone hind ⟨hr, hnow⟩
    · have hroom := hpost.room
      rw [hpost.length, hpost.capacity, List.length_nil]
      omega

/-- A waiting event is attempted again. -/
theorem Catching.retry {a : Attempt} {item : RetryItem} {rest : List RetryItem}
    (h : Catching envOf r (item :: rest) s) (henv : a.env = envOf item.event)
    (hfault : a.fault ≠ none → item.attempts < s.retryQueue.maxRetries) :
    Catching envOf r rest (s.attempt item.event .pressed a item.attempts) ∧
      (s.attempt item.event .pressed a item.attempts).retryQueue.maxRetries =
        s.retryQueue.maxRetries := by
  have hpending : (eventTasks envOf).Pending r s.world (item.event ::
      (rest.map RetryItem.event ++ s.retryQueue.queue.map RetryItem.event)) := h.pending
  obtain ⟨hr, hnow⟩ := hpending.calm.retriable item.event (by simp)
  have hlen : rest.length + 1 + s.retryQueue.queue.length ≤ s.retryQueue.capacity := h.room
  rcases attempt_cases (a := a) (o := .pressed) h.alive (by rw [henv]; exact hnow)
      (fun hf => ⟨hr, by simp, hfault hf, by omega⟩) with hdone | ⟨n, -, hpost⟩
  · refine ⟨⟨?_, ?_, hdone.alive⟩, by rw [hdone.retryQueue]⟩
    · rw [hdone.world, hdone.retryQueue, henv]
      exact hpending.resume
    · rw [hdone.retryQueue]
      omega
  · refine ⟨⟨?_, ?_, hpost.alive⟩, hpost.maxRetries⟩
    · rw [hpost.world, hpost.events, henv, ← failed_world n hr, ← List.append_assoc]
      exact hpending.refail
    · rw [hpost.length, hpost.capacity]
      omega

/-- The events that were ready are attempted one after the other. -/
theorem Catching.retryBatch {tries : ℕ → Attempt} {rest : List RetryItem} {k : ℕ}
    (h : Catching envOf r rest s)
    (hok : ∀ x ∈ rest.zipIdx k, (tries x.2).env = envOf x.1.event ∧
      ((tries x.2).fault ≠ none → x.1.attempts < s.retryQueue.maxRetries)) :
    Catching envOf r [] ((rest.zipIdx k).foldl (fun s x =>
      s.attempt x.1.event .pressed (tries x.2) x.1.attempts) s) := by
  induction rest generalizing s k with
  | nil => exact h
  | cons item rest ih =>
    rw [List.zipIdx_cons] at hok ⊢
    obtain ⟨henv, hfault⟩ := hok (item, k) (by simp)
    obtain ⟨hnext, hmax⟩ := h.retry henv hfault
    rw [List.foldl_cons]
    refine ih hnext fun x hx => ?_
    rw [hmax]
    exact hok x (List.mem_cons_of_mem _ hx)

/-- The retry timer ticks. -/
theorem Catching.tick {now : ℕ} {tries : ℕ → Attempt} (h : Catching envOf r [] s)
    (hok : Undisturbed envOf s (.tick now tries)) :
    Catching envOf r [] (s.step (.tick now tries)) := by
  have hsplit := RetryQueue.popReady_append now 16 s.retryQueue.queue
  refine Catching.retryBatch ⟨?_, ?_, h.alive⟩ hok
  · have hmap := congrArg (List.map RetryItem.event) hsplit
    rw [List.map_append] at hmap
    show (eventTasks envOf).Pending r s.world (List.map RetryItem.event
      (RetryQueue.popReady now 16 s.retryQueue.queue).1 ++ List.map RetryItem.event
      (RetryQueue.popReady now 16 s.retryQueue.queue).2)
    rw [hmap]
    exact h.pending
  · have hlen := congrArg List.length hsplit
    rw [List.length_append] at hlen
    have hroom := h.room
    show (RetryQueue.popReady now 16 s.retryQueue.queue).1.length +
      (RetryQueue.popReady now 16 s.retryQueue.queue).2.length ≤ s.retryQueue.capacity
    rw [List.length_nil] at hroom
    omega

end Runs

/-! ## Events that are apart -/

section Unrelated
variable {e e' : Event} {w : World} {p p' : Path}

end Unrelated

/-! ## Sample runs -/

namespace RetryWorker

/-- A source whose file "a" has three bytes. -/
def sampleSource : Fs :=
  ((Fs.root ⟨493, 0, 0⟩).setNode ["a"] (some (.file (.initial 0)))).setData (.initial 0)
    ⟨⟨420, 0, 0⟩, .regular ⟨3, fun _ => 1⟩⟩

/-- The target holds an empty file "a" and a directory "d"; the directory of inode 2
is the root. -/
def sample : RetryWorker where
  world :=
    { target := ((Fs.root ⟨493, 0, 0⟩).setNode ["a"] (some (.file (.initial 0)))).setNode ["d"]
        (some (.dir ⟨493, 0, 0⟩))
      inodeMap := fun _ => none
      dirMap := fun i => if i = 2 then some [] else none }
  retryQueue := .initial
  outageJournal := []
  repairs := []
  crashed := false

def sampleEvent (t : EventType) (inode : U64) (name : String) : Event :=
  { Event.zero with
    eventType := t
    inode := inode
    parentInode := 2
    name := name }

/-- The first attempt fails. -/
def failing (e : Event) : RetryAction := .handle .received ⟨.plain sampleSource, some 0, 0⟩ e

def succeeding (e : Event) : RetryAction := .handle .received ⟨.plain sampleSource, none, 0⟩ e

/-- What waits is attempted again, with success. -/
def later : RetryAction := .tick 100 fun _ => ⟨.plain sampleSource, none, 100⟩

/-- "a" is removed, and made again under another inode. -/
def unlinkRun : List RetryAction :=
  [failing (sampleEvent .unlink 7 "a"), succeeding (sampleEvent .create 8 "a"), later]

end RetryWorker

end Foxing
