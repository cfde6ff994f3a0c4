import Foxing.Mirror

/-!
# The fan-out to the workers of a target

A target has several workers, and each worker has a channel of its own for every
class of events. Where an event goes depends on the hash of its directory. The
channels of metadata and bulk events refuse an event when they are full; the push
of a structural event tries the other workers and then waits. A fan-out has at
least one worker, so the case of none does not arise.
-/
namespace Foxing

/-- A channel is closed once its receiver is gone. -/
structure Channel where
  capacity : Option ℕ
  events : List Event
  closed : Bool

inductive SendResult where
  | sent | full | closed
  deriving DecidableEq, Repr

namespace Channel

/-- What an attempt to send would meet with. -/
def result (c : Channel) : SendResult :=
  if c.closed then .closed
  else if c.capacity.any fun n => n ≤ c.events.length then .full
  else .sent

def trySend (e : Event) (c : Channel) : SendResult × Channel :=
  (c.result, if c.result = .sent then { c with events := c.events ++ [e] } else c)

def recv (c : Channel) : Option Event × Channel :=
  (c.events.head?, { c with events := c.events.tail })

def close (c : Channel) : Channel := { c with closed := true }

end Channel

def EventTin.channelCapacity : EventTin → Option ℕ
  | .control => none
  | .structural => some 4096
  | .metadata => some 1024
  | .bulk => some 64

structure Fanout where
  workers : ℕ
  pos : 0 < workers
  channel : EventTin → Fin workers → Channel

namespace Fanout

def createFanout (workers : ℕ) : Fanout where
  workers := max workers 1
  pos := by omega
  channel := fun tin _ => ⟨tin.channelCapacity, [], false⟩

variable (hash : U64 → ℕ) (e : Event) (q : Fanout)

def first : Fin q.workers := ⟨0, q.pos⟩

/-- The first worker has the events of the control plane, the others share the rest. -/
def targetIdx : Fin q.workers :=
  if h : q.workers ≤ 1 ∨ e.eventType.isControlPlane then q.first
  else
    let key := if e.parentInode ≠ 0 then e.parentInode else e.inode
    ⟨1 + hash key % (q.workers - 1), by
      have := Nat.mod_lt (hash key) (show q.workers - 1 > 0 by omega)
      omega⟩

def setChannel (tin : EventTin) (i : Fin q.workers) (c : Channel) : Fanout :=
  { q with channel := Function.update q.channel tin (Function.update (q.channel tin) i c) }

def trySend (tin : EventTin) (i : Fin q.workers) : SendResult × Fanout :=
  ((q.channel tin i).result, q.setChannel tin i ((q.channel tin i).trySend e).2)

/-- The other workers in the order in which they are tried. -/
def others (i : Fin q.workers) : List (Fin q.workers) :=
  (List.range (q.workers - 1)).map fun k => ⟨(i + (k + 1)) % q.workers, Nat.mod_lt _ q.pos⟩

/-- Nothing is returned while the call waits for room. -/
def pushStructural (i : Fin q.workers) : Option (Bool × Fanout) :=
  match q.trySend e .structural i with
  | (.sent, q') => some (true, q')
  | (.closed, _) => some (false, q)
  | (.full, _) =>
    match (q.others i).find? fun j => (q.channel .structural j).result = .sent with
    | some j => some (true, (q.trySend e .structural j).2)
    | none =>
      match q.trySend e .structural q.first with
      | (.full, _) => none
      | (_, q') => some (true, q')

def push : Option (Bool × Fanout) :=
  if e.isInternalTraffic then some (true, q)
  else
    let i := q.targetIdx hash e
    match e.eventType.tin with
    | .control => some (true, (q.trySend e .control i).2)
    | .structural => q.pushStructural e i
    | tin =>
      let (result, q') := q.trySend e tin i
      some (result = .sent, q')

/-- The tins whose events are dropped under pressure. -/
def Droppable (e : Event) : Prop := e.eventType.tin = .metadata ∨ e.eventType.tin = .bulk

instance (e : Event) : Decidable (Droppable e) := inferInstanceAs (Decidable (_ ∨ _))

/-- The channel for the event is full or closed. -/
def Refuses : Prop :=
  e.isInternalTraffic = false ∧ (q.channel e.eventType.tin (q.targetIdx hash e)).result ≠ .sent

instance : Decidable (q.Refuses hash e) := inferInstanceAs (Decidable (_ ∧ _))

variable {hash e q}

theorem trySend_full {tin : EventTin} {i : Fin q.workers}
    (h : (q.channel tin i).result ≠ .sent) : (q.trySend e tin i).2 = q := by
  show q.setChannel tin i ((q.channel tin i).trySend e).2 = q
  rw [Channel.trySend, if_neg h, setChannel, Function.update_eq_self, Function.update_eq_self]

/-- A metadata or bulk event is dropped exactly if its channel is full or closed. -/
theorem push_droppable (h : Droppable e) :
    ∃ pushed q', q.push hash e = some (pushed, q') ∧ (pushed = false ↔ q.Refuses hash e) := by
  unfold push Refuses
  by_cases hint : e.isInternalTraffic = true
  · refine ⟨true, q, ?_, ?_⟩
    · rw [if_pos hint]
    · simp [hint]
  · refine ⟨decide ((q.trySend e e.eventType.tin (q.targetIdx hash e)).1 = .sent),
      (q.trySend e e.eventType.tin (q.targetIdx hash e)).2, ?_, ?_⟩
    · rw [if_neg hint]
      obtain htin | htin := h <;> simp only [htin]
    · rw [decide_eq_false_iff_not]
      simp [hint, trySend]

/-- A channel with room gets the event. -/
theorem push_sent (h : Droppable e) (hint : e.isInternalTraffic = false)
    (hsent : (q.channel e.eventType.tin (q.targetIdx hash e)).result = .sent) :
    ∃ q', q.push hash e = some (true, q') ∧
      q'.channel e.eventType.tin (q'.targetIdx hash e) =
        { q.channel e.eventType.tin (q.targetIdx hash e) with
          events := (q.channel e.eventType.tin (q.targetIdx hash e)).events ++ [e] } := by
  refine ⟨(q.trySend e e.eventType.tin (q.targetIdx hash e)).2, ?_, ?_⟩
  · have hresult : (q.trySend e e.eventType.tin (q.targetIdx hash e)).1 = .sent := hsent
    have htrue : decide ((q.trySend e e.eventType.tin (q.targetIdx hash e)).1 = .sent) = true :=
      decide_eq_true hresult
    rw [push, hint, if_neg Bool.false_ne_true, ← htrue]
    obtain htin | htin := h <;> simp only [htin]
  · show Function.update q.channel e.eventType.tin _ e.eventType.tin (q.targetIdx hash e) = _
    rw [Function.update_self, Function.update_self, Channel.trySend, if_pos hsent]

end Fanout

end Foxing
