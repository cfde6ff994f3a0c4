import Foxing.ReorderHistory
import Foxing.ReorderSorting

/-!
# From the probes to the reorder buffers

Probes number the events of all watched devices from one counter in the kernel
and then reserve a record in the ring buffer, which may fail. The ring callback
follows the numbers of each device with a tracker of its own and feeds the
device's reorder buffer. A probe may be interrupted between the two halves, so
records of a device need not arrive in the order of their numbers. The callback
treats the devices independently; the model therefore keeps the records of each
device in a ring of their own. The callback and the poll loop pop a buffer until
nothing is returned; here every pop is a step.
-/
namespace Foxing
open ReorderBuffer

/-- The path of one device's events. The fields from `panicGaps` on record what
happened: the gaps that the callback made, the events that were lost on the way
or refused by the buffer, those that it accepted, and the first number and the
count of all numbers that the device drew. -/
structure Lane where
  inFlight : List Event
  ring : List Event
  tracker : U64
  history : History
  panicGaps : List Event
  lost : List Event
  accepted : List Event
  first : ℕ
  count : ℕ

namespace Lane

def reorderBufferBytes : U64 := 67108864

def start : Lane where
  inFlight := []
  ring := []
  tracker := 0
  history := .start (ReorderBuffer.new 50 reorderBufferBytes)
  panicGaps := []
  lost := []
  accepted := []
  first := 0
  count := 0

/-- The probe has drawn its number. Zero stands for a failed map lookup, so an
event with that number is dropped. -/
def draw (l : Lane) (e : Event) : Lane :=
  { l with
    inFlight := if e.seqNum = 0 then l.inFlight else l.inFlight ++ [e]
    lost := if e.seqNum = 0 then l.lost ++ [e] else l.lost
    first := if l.count = 0 then e.seqNum.val else l.first
    count := l.count + 1 }

/-- The `i`th probe under way asks for a record in the ring. -/
def reserve (l : Lane) (i : ℕ) (granted : Bool) : Lane :=
  match l.inFlight[i]? with
  | none => l
  | some e =>
    { l with
      inFlight := l.inFlight.eraseIdx i
      ring := if granted then l.ring ++ [e] else l.ring
      lost := if granted then l.lost else l.lost ++ [e] }

/-- The gap that the callback makes when the numbers jump by more than 1000. -/
def panicGap (currentSeq : U64) (e : Event) : Option Event :=
  if currentSeq + 1 < e.seqNum ∧ 1000 < e.seqNum - currentSeq then
    some { Event.zero with
      eventType := .sequenceGap
      devId := e.devId
      inode := e.parentInode
      parentInode := e.parentInode
      seqNum := currentSeq + 1
      name := "PANIC_GAP"
      processName := "GAP_DETECTOR" }
  else none

/-- The buffer after the gap, if there is one, has been pushed. -/
def afterGap (l : Lane) (e : Event) : History :=
  match panicGap l.tracker e with
  | some g => l.history.apply (.push g)
  | none => l.history

/-- The callback on a record, up to its pops. -/
def receive (l : Lane) (e : Event) : Lane :=
  let accept := ((l.afterGap e).buffer.push e).1
  { l with
    tracker := if l.tracker < e.seqNum then e.seqNum else l.tracker
    history := (l.afterGap e).apply (.push e)
    panicGaps := l.panicGaps ++ (panicGap l.tracker e).toList
    accepted := if accept then l.accepted ++ [e] else l.accepted
    lost := if accept then l.lost else l.lost ++ [e] }

/-- The ring hands its oldest record to the callback. -/
def consume (l : Lane) : Lane :=
  match l.ring with
  | [] => l
  | e :: rest => { l with ring := rest }.receive e

def pop (l : Lane) (now : ℕ) : Lane := { l with history := l.history.apply (.pop now) }

/-- Numbered events that have not reached the callback. -/
def transit (l : Lane) : List Event := l.inFlight ++ l.ring

/-- Every event that drew a number. -/
def everywhere (l : Lane) : List Event := l.transit ++ l.lost ++ l.accepted

/-- A returned gap announces the number as missing. -/
def Announced (returned : List Event) (n : U64) : Prop :=
  ∃ g ∈ returned, g.eventType = .sequenceGap ∧
    (g.seqNum = n ∨ ∃ a c : ℕ, g.name = s!"GAP-{a}-{c}" ∧ a ≤ n.val ∧ n.val < c)

/-- The gaps tell the truth: without a loss there is none, and a lost number is
announced once a later one has been returned. -/
def Exact (l : Lane) : Prop :=
  (l.lost = [] → l.panicGaps = [] ∧ l.history.buffer.sequenceGaps = 0) ∧
  ∀ e ∈ l.lost, (∃ r ∈ l.history.returned, e.seqNum < r.seqNum) →
    Announced l.history.returned e.seqNum

end Lane

structure Ingress where
  counter : U64
  lanes : U32 → Lane

namespace Ingress

/-- A positive number from an earlier run is restored into the counter. -/
def start (initialSeq : U64) : Ingress where
  counter := if 0 < initialSeq then initialSeq + 1 else 0
  lanes := fun _ => .start

inductive Op where
  | draw (e : Event)
  | reserve (dev : U32) (i : ℕ) (granted : Bool)
  | consume (dev : U32)
  | pop (dev : U32) (now : ℕ)

def onLane (s : Ingress) (dev : U32) (f : Lane → Lane) : Ingress :=
  { s with lanes := Function.update s.lanes dev (f (s.lanes dev)) }

variable (watched : U32 → Bool)

def apply (s : Ingress) : Op → Ingress
  | .draw e =>
    if watched e.devId then
      { s with counter := s.counter + 1 }.onLane e.devId
        (fun l => l.draw { e with seqNum := s.counter })
    else s
  | .reserve dev i granted => s.onLane dev (fun l => l.reserve i granted)
  | .consume dev => s.onLane dev Lane.consume
  | .pop dev now => s.onLane dev (fun l => l.pop now)

end Ingress

namespace ReorderBuffer

/-- A pop at this instant stops waiting for the missing numbers. -/
def givesUp (b : ReorderBuffer) (now : ℕ) : Prop :=
  match b.stalledSince with
  | some time => b.effectiveTimeout < now - time
  | none => b.effectiveTimeout = 0

end ReorderBuffer

namespace Lane

/-- The numbers of a device are consecutive, they start between 1 and 1000, and
they stay clear of the end of the 64-bit range. -/
def SafeDraw (l : Lane) (n : U64) : Prop :=
  (l.count = 0 → 0 < n.val ∧ n.val ≤ 1000) ∧
  (0 < l.count → n.val = l.first + l.count) ∧ n.val + 100001 < 2 ^ 64

/-- The first record of a device is that of its first number. -/
def SafeReserve (l : Lane) (i : ℕ) (granted : Bool) : Prop :=
  l.ring = [] → l.history.buffer.nextSeq = 0 → ∀ e ∈ l.inFlight[i]?,
    granted = true ∧ ∀ x ∈ l.inFlight, e.seqNum ≤ x.seqNum

/-- A record that is more than 1000 numbers ahead has overtaken nothing, and a
structural record has overtaken no structural one. -/
def SafeConsume (l : Lane) : Prop :=
  ∀ e ∈ l.ring.head?, ∀ x ∈ l.inFlight ++ l.ring.tail,
    (l.tracker.val + 1000 < e.seqNum.val → e.seqNum < x.seqNum) ∧
    (isStructural e = true → isStructural x = true → e.seqNum < x.seqNum)

/-- A buffer that gives up waits for no number that is still on its way. -/
def SafePop (l : Lane) (now : ℕ) : Prop :=
  l.history.buffer.givesUp now → ∀ c ∈ l.history.buffer.candidate,
    ∀ x ∈ l.transit, c.1.seqNum < x.seqNum

end Lane

namespace Ingress
variable (watched : U32 → Bool)

def Safe (s : Ingress) : Op → Prop
  | .draw e => watched e.devId = true → (s.lanes e.devId).SafeDraw s.counter
  | .reserve dev i granted => (s.lanes dev).SafeReserve i granted
  | .consume dev => (s.lanes dev).SafeConsume
  | .pop dev now => (s.lanes dev).SafePop now

end Ingress

/-! ## What a push and a pop do to the held events -/

namespace ReorderBuffer

lemma prepare_eq_of_not_wrapped {b : ReorderBuffer} {e : Event}
    (hinit : ¬(b.nextSeq = 0 ∧ b.held = [])) (hw : ¬b.isWrapped e) : b.prepare e = b := by
  have hs := b.prepare_spec e
  generalize b.prepare e = p at hs ⊢
  cases hs with
  | first hseq hempty => exact absurd ⟨hseq, hempty⟩ hinit
  | wrap hwrap => exact absurd hwrap hw
  | keep _ _ => rfl

lemma hold_held (p : ReorderBuffer) {e : Event} (hnew : p.buffer.get e.seqNum = none) :
    (p.hold e).held.Perm (e :: p.held) :=
  (p.buffer.values_insert_perm_of_get_none hnew).append_right p.structuralQueue

/-- After a push the buffer holds what it held, the accepted event and at most an
overflow gap at the next number. -/
lemma PushStep.mem_held {p b : ReorderBuffer} {e y : Event} {r : Bool} (hs : PushStep p e r b)
    (hy : y ∈ b.held) :
    y ∈ p.held ∨ (r = true ∧ y = e) ∨
      (y.eventType = .sequenceGap ∧ y.seqNum = p.nextSeq ∧ p.nextSeq < e.seqNum) := by
  cases hs with
  | inject hrej hseq hlt =>
    rcases List.mem_append.mp hy with hmap | hqueue
    · rcases (p.buffer.mem_insert _ y).mp hmap with rfl | ⟨hold, -⟩
      · exact .inr (.inr ⟨rfl, rfl, hlt⟩)
      · exact .inl (List.mem_append_left _ hold)
    · exact .inl (List.mem_append_right _ hqueue)
  | reject hrej hno => exact .inl hy
  | structural hrej hord =>
    simp only [held, enqueue, ← List.append_assoc] at hy
    rcases List.mem_append.mp hy with hold | hnew
    · exact .inl hold
    · exact .inr (.inl ⟨rfl, List.mem_singleton.mp hnew⟩)
  | duplicate hrej hord hdup => exact .inl hy
  | ingress hrej hord hnew =>
    rcases List.mem_cons.mp ((p.hold_held hnew).mem_iff.mp hy) with rfl | hold
    · exact .inr (.inl ⟨rfl, rfl⟩)
    · exact .inl hold

/-- An accepted event whose number is not mapped joins what is held, and no gap
is made. -/
lemma PushStep.accepts {p b : ReorderBuffer} {e : Event} (hs : PushStep p e true b)
    (hnew : ∀ w ∈ p.held, w.seqNum ≠ e.seqNum) :
    b.held.Perm (e :: p.held) ∧ b.sequenceGaps = p.sequenceGaps ∧
      b.structuralQueue = p.structuralQueue ++ [e].filter isStructural := by
  cases hs with
  | structural hrej hord =>
    have hs : isStructural e = true := hord
    refine ⟨?_, rfl, by simp [enqueue, hs]⟩
    simp only [held, enqueue, ← List.append_assoc]
    exact List.perm_append_singleton e _
  | duplicate hrej hord hdup =>
    obtain ⟨w, hw⟩ := Option.isSome_iff_exists.mp hdup
    obtain ⟨hmem, hkey⟩ := (p.buffer.get_eq_some_iff _ _).mp hw
    exact absurd hkey (hnew w (List.mem_append_left _ hmem))
  | ingress hrej hord hget =>
    have hs : isStructural e = false := hord
    exact ⟨p.hold_held hget, rfl, by simp [hold, hs]⟩

/-- What a pop returns was held or is a gap that starts at the next number. What
it does not return stays. -/
lemma PopStep.mem_held {b b' : ReorderBuffer} {r : Option Event} (hs : PopStep b r b') :
    (∀ y ∈ b'.held, y ∈ b.held) ∧ (∀ y ∈ b.held, y ∈ b'.held ∨ r = some y) ∧
      (∀ y ∈ r, y ∈ b.held ∨ y.eventType = .sequenceGap) ∧
      b'.structuralQueue.Sublist b.structuralQueue := by
  cases hs with
  | idle hempty | wait e c t hc hlt =>
    exact ⟨fun y h => h, fun y h => .inl h, by simp, List.Sublist.refl _⟩
  | gap e c t hc hlt =>
    refine ⟨fun y h => h, fun y h => .inl h, ?_, List.Sublist.refl _⟩
    intro y hy
    obtain rfl := Option.some.inj hy
    exact .inr rfl
  | structural e hc hle =>
    have hperm := dropStructural_held hc
    refine ⟨fun y h => ?_, fun y h => ?_, fun y hy => ?_, ?_⟩
    · rw [advance_held] at h
      exact hperm.mem_iff.mpr (List.mem_cons_of_mem _ h)
    · rw [advance_held]
      exact (List.mem_cons.mp (hperm.mem_iff.mp h)).symm.imp_right (fun h => by rw [h])
    · obtain rfl := Option.some.inj hy
      exact .inl (candidate_mem_held hc)
    · rw [advance_structuralQueue]
      exact List.tail_sublist _
  | ingress e hc hle =>
    have hperm := dropIngress_held hc
    refine ⟨fun y h => ?_, fun y h => ?_, fun y hy => ?_, ?_⟩
    · rw [advance_held] at h
      exact hperm.mem_iff.mpr (List.mem_cons_of_mem _ h)
    · rw [advance_held]
      exact (List.mem_cons.mp (hperm.mem_iff.mp h)).symm.imp_right (fun h => by rw [h])
    · obtain rfl := Option.some.inj hy
      exact .inl (candidate_mem_held hc)
    · rw [advance_structuralQueue]
      exact List.Sublist.refl _

lemma advance_bounds (b : ReorderBuffer) {e : Event} (hle : e.seqNum ≤ b.nextSeq)
    (hmax : b.nextSeq ≠ U64.max) :
    e.seqNum < (b.advance e).nextSeq ∧
      ((b.advance e).nextSeq = b.nextSeq ∨ (b.advance e).nextSeq.val = e.seqNum.val + 1) := by
  have hval := History.val_succ_of_ne_max hmax
  rw [advance_nextSeq]
  split_ifs with heq
  · rw [heq]
    exact ⟨Fin.lt_def.mpr (by omega), .inr hval⟩
  · exact ⟨lt_of_le_of_ne hle heq, .inl rfl⟩

/-- The next number passes what is returned, and goes no further than one past a
held event. -/
lemma PopStep.next_bounds {b b' : ReorderBuffer} {r : Option Event} (hs : PopStep b r b')
    (hmax : b.nextSeq ≠ U64.max) :
    (∀ y ∈ r, y.seqNum < b'.nextSeq) ∧
      (b'.nextSeq = b.nextSeq ∨ ∃ c ∈ b.held, b'.nextSeq.val ≤ c.seqNum.val + 1) := by
  cases hs with
  | idle hempty => exact ⟨by simp, .inl rfl⟩
  | wait e c t hc hlt => exact ⟨by simp, .inl rfl⟩
  | gap e c t hc hlt =>
    refine ⟨fun y hy => ?_, .inr ⟨e, candidate_mem_held hc, Nat.le_succ _⟩⟩
    obtain rfl := Option.some.inj hy
    exact hlt
  | structural e hc hle =>
    obtain ⟨hpass, hnext⟩ := b.dropStructural.advance_bounds hle hmax
    refine ⟨fun y hy => ?_, hnext.imp_right fun h => ⟨e, candidate_mem_held hc, h.le⟩⟩
    obtain rfl := Option.some.inj hy
    exact hpass
  | ingress e hc hle =>
    obtain ⟨hpass, hnext⟩ := (b.dropIngress e).advance_bounds hle hmax
    refine ⟨fun y hy => ?_, hnext.imp_right fun h => ⟨e, candidate_mem_held hc, h.le⟩⟩
    obtain rfl := Option.some.inj hy
    exact hpass

lemma advance_sequenceGaps (b : ReorderBuffer) (e : Event) :
    (b.advance e).sequenceGaps = b.sequenceGaps := by
  unfold ReorderBuffer.advance deliver
  split_ifs <;> rfl

/-- Only a buffer that gives up makes a gap when it is popped. -/
lemma pop_sequenceGaps {b : ReorderBuffer} {now : ℕ}
    (h : ∀ c ∈ b.candidate, b.nextSeq < c.1.seqNum → ¬b.givesUp now) :
    (b.pop now).2.sequenceGaps = b.sequenceGaps := by
  unfold pop
  cases hc : b.candidate with
  | none => rfl
  | some p =>
    obtain ⟨e, c⟩ := p
    simp only
    split_ifs with hlt hs
    · have hwait := h (e, c) hc hlt
      unfold givesUp at hwait
      unfold handleGap
      cases hst : b.stalledSince with
      | some time | none =>
        simp only [hst] at hwait
        simp only [if_neg hwait]
    · exact advance_sequenceGaps _ e
    · exact advance_sequenceGaps _ e

end ReorderBuffer
end Foxing
