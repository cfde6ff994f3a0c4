import Foxing.Event
import Foxing.Lib.KeyedMap

/-!
# The per-device reorder buffer

Structural events wait in a queue in arrival order, all others in a map ordered
by sequence number. A pop takes the smaller of the two heads once it is due,
and otherwise waits for the missing numbers until a stall timeout announces
them as a gap. Instants and durations are nanoseconds; the current instant is
an argument. The two counters at the end stand for the process-wide metrics
that this buffer increments. Rename acknowledgements are left out: nothing ever
records a rename for them.
-/
namespace Foxing

/-- The map from sequence numbers to events. Both sites that insert use the
event's own number as its key. -/
abbrev SeqMap := KeyedMap Event.seqNum

structure ReorderBuffer where
  buffer : SeqMap
  structuralQueue : List Event
  nextSeq : U64
  maxPendingBytes : U64
  maxPendingCount : ℕ
  currentPendingBytes : U64
  stalledSince : Option ℕ
  baseStallTimeout : ℕ
  lateEvents : ℕ
  sequenceGaps : ℕ

namespace ReorderBuffer

def millis (n : ℕ) : ℕ := n * 1000000

def new (targetLatencyMs maxPendingBytes : U64) : ReorderBuffer where
  buffer := .empty
  structuralQueue := []
  nextSeq := 0
  maxPendingBytes := maxPendingBytes
  maxPendingCount := 100000
  currentPendingBytes := 0
  stalledSince := none
  baseStallTimeout := millis (min (max (targetLatencyMs * 2).val 50) 500)
  lateEvents := 0
  sequenceGaps := 0

def len (b : ReorderBuffer) : ℕ := b.buffer.length + b.structuralQueue.length

def isEmpty (b : ReorderBuffer) : Bool := b.buffer.isEmpty && b.structuralQueue.isEmpty

/-- Everything the buffer holds. -/
def held (b : ReorderBuffer) : List Event := b.buffer.values ++ b.structuralQueue

/-- The bytes charged for an event: its record, its name and map overhead. -/
def eventSize (e : Event) : ℕ := 256 + e.name.utf8ByteSize + 64

/-- A synthetic event that announces the numbers `[start, stop)` as missing. -/
def gapEvent (devId : U32) (start stop : U64) (processName : String) : Event :=
  { Event.zero with
    eventType := .sequenceGap
    devId := devId
    seqNum := start
    name := s!"GAP-{start.val}-{stop.val}"
    processName := processName }

/-! ## Push -/

/-- The first event of an idle buffer fixes the next expected number. -/
def initSeq (b : ReorderBuffer) (e : Event) : ReorderBuffer :=
  if b.nextSeq = 0 ∧ b.isEmpty then { b with nextSeq := e.seqNum } else b

def isWrapped (b : ReorderBuffer) (e : Event) : Prop :=
  U64.max.val - 100000 < b.nextSeq.val ∧ e.seqNum.val < 100000

instance (b : ReorderBuffer) (e : Event) : Decidable (b.isWrapped e) :=
  inferInstanceAs (Decidable (_ ∧ _))

def reset (b : ReorderBuffer) (e : Event) : ReorderBuffer :=
  { b with buffer := .empty, structuralQueue := [], nextSeq := e.seqNum, currentPendingBytes := 0 }

/-- What a push does before it looks at the limits. -/
def prepare (b : ReorderBuffer) (e : Event) : ReorderBuffer :=
  let b := b.initSeq e
  if b.isWrapped e then b.reset e else b

def rejects (b : ReorderBuffer) (e : Event) : Prop :=
  b.maxPendingBytes < b.currentPendingBytes + Fin.ofNat _ (eventSize e) ∨
    (b.maxPendingCount ≤ b.len ∧ b.nextSeq < e.seqNum)

instance (b : ReorderBuffer) (e : Event) : Decidable (b.rejects e) :=
  inferInstanceAs (Decidable (_ ∨ _))

/-- The gap replaces whatever the map holds under the next number, and its size
is not charged. -/
def injectGap (b : ReorderBuffer) (devId : U32) (nextValidSeq : U64) : ReorderBuffer :=
  { b with
    buffer := b.buffer.insert (gapEvent devId b.nextSeq nextValidSeq "OVERFLOW_GAP")
    sequenceGaps := b.sequenceGaps + 1 }

def enqueue (b : ReorderBuffer) (e : Event) : ReorderBuffer :=
  { b with structuralQueue := b.structuralQueue ++ [e] }

def hold (b : ReorderBuffer) (e : Event) : ReorderBuffer :=
  { b with
    buffer := b.buffer.insert e
    currentPendingBytes := b.currentPendingBytes + Fin.ofNat _ (eventSize e) }

def push (b : ReorderBuffer) (e : Event) : Bool × ReorderBuffer :=
  let b := b.prepare e
  if b.rejects e then
    (false, if b.nextSeq ≠ 0 ∧ b.nextSeq < e.seqNum then b.injectGap e.devId e.seqNum else b)
  else if e.eventType.requiresGlobalOrdering then (true, b.enqueue e)
  else if b.buffer.contains e.seqNum then (true, b)
  else (true, b.hold e)

/-! ## Pop -/

/-- The smaller head with its class; a structural event wins a tie. -/
def candidate (b : ReorderBuffer) : Option (Event × Bool) :=
  match b.structuralQueue.head?, b.buffer.first with
  | some s, some e => if s.seqNum ≤ e.seqNum then some (s, true) else some (e, false)
  | some s, none => some (s, true)
  | none, some e => some (e, false)
  | none, none => none

/-- The patience of a stalled buffer. The utilisation is compared as the exact
fraction that the floating-point quotient rounds; for limits below `2 ^ 50` the
comparisons with `0.8` and `0.5` have the same outcome. -/
def effectiveTimeout (b : ReorderBuffer) : ℕ :=
  if 1000 < b.len ∨ 4 * b.maxPendingBytes.val < 5 * b.currentPendingBytes.val then 0
  else if 100 < b.len ∨ b.maxPendingBytes.val < 2 * b.currentPendingBytes.val then millis 10
  else b.baseStallTimeout

/-- Announce the numbers up to `seq` as missing and go on from there. -/
def jump (b : ReorderBuffer) (seq : U64) (devId : U32) : Option Event × ReorderBuffer :=
  (some (gapEvent devId b.nextSeq seq "GAP"),
    { b with nextSeq := seq, sequenceGaps := b.sequenceGaps + 1 })

def handleGap (b : ReorderBuffer) (seq : U64) (devId : U32) (now : ℕ) :
    Option Event × ReorderBuffer :=
  match b.stalledSince with
  | some time =>
    if b.effectiveTimeout < now - time then
      match b.buffer.range b.nextSeq seq with
      | first :: _ =>
        (some first, { b with
          nextSeq := first.seqNum + 1
          buffer := b.buffer.erase first.seqNum })
      | [] => { b with stalledSince := none }.jump seq devId
    else (none, b)
  | none =>
    if b.effectiveTimeout = 0 then b.jump seq devId
    else (none, { b with stalledSince := some now })

/-- Bookkeeping for an event that has left its container. -/
def deliver (b : ReorderBuffer) (e : Event) : Option Event × ReorderBuffer :=
  (some e,
    if e.seqNum = b.nextSeq then { b with stalledSince := none, nextSeq := b.nextSeq + 1 }
    else { b with stalledSince := none, lateEvents := b.lateEvents + 1 })

def pop (b : ReorderBuffer) (now : ℕ) : Option Event × ReorderBuffer :=
  match b.candidate with
  | none => (none, b)
  | some (e, isStructural) =>
    if b.nextSeq < e.seqNum then b.handleGap e.seqNum e.devId now
    else if isStructural then
      { b with structuralQueue := b.structuralQueue.tail }.deliver e
    else
      { b with
        buffer := b.buffer.erase e.seqNum
        currentPendingBytes :=
          b.currentPendingBytes - Fin.ofNat _ (eventSize e) }.deliver e

/-! ## What one operation can do -/

theorem isEmpty_iff (b : ReorderBuffer) : b.isEmpty = true ↔ b.held = [] := by
  simp [isEmpty, held, b.buffer.isEmpty_iff]

/-- The three ways in which a push prepares the buffer. -/
inductive PrepareStep (b : ReorderBuffer) (e : Event) : ReorderBuffer → Prop
  | first (hseq : b.nextSeq = 0) (hempty : b.held = []) :
      PrepareStep b e { b with nextSeq := e.seqNum }
  | wrap (hwrap : b.isWrapped e) : PrepareStep b e (b.reset e)
  | keep (hinit : ¬(b.nextSeq = 0 ∧ b.held = [])) (hwrap : ¬b.isWrapped e) : PrepareStep b e b

theorem prepare_spec (b : ReorderBuffer) (e : Event) : PrepareStep b e (b.prepare e) := by
  by_cases hinit : b.nextSeq = 0 ∧ b.isEmpty = true
  · -- a buffer that has just taken the event's own number is never wrapped
    have hnot : ¬({ b with nextSeq := e.seqNum } : ReorderBuffer).isWrapped e := by
      simp only [isWrapped, U64.max, Fin.val_last]
      omega
    simp only [prepare, initSeq, if_pos hinit, if_neg hnot]
    exact .first hinit.1 (b.isEmpty_iff.mp hinit.2)
  · simp only [prepare, initSeq, if_neg hinit]
    split_ifs with hwrap
    · exact .wrap hwrap
    · exact .keep (by rwa [← isEmpty_iff]) hwrap

/-- The five outcomes of a push, from the prepared buffer. -/
inductive PushStep (b : ReorderBuffer) (e : Event) : Bool → ReorderBuffer → Prop
  | inject (hrej : b.rejects e) (hseq : b.nextSeq ≠ 0) (hlt : b.nextSeq < e.seqNum) :
      PushStep b e false (b.injectGap e.devId e.seqNum)
  | reject (hrej : b.rejects e) (hno : ¬(b.nextSeq ≠ 0 ∧ b.nextSeq < e.seqNum)) :
      PushStep b e false b
  | structural (hrej : ¬b.rejects e) (hord : e.eventType.requiresGlobalOrdering = true) :
      PushStep b e true (b.enqueue e)
  | duplicate (hrej : ¬b.rejects e) (hord : e.eventType.requiresGlobalOrdering = false)
      (hdup : b.buffer.contains e.seqNum = true) : PushStep b e true b
  | ingress (hrej : ¬b.rejects e) (hord : e.eventType.requiresGlobalOrdering = false)
      (hnew : b.buffer.get e.seqNum = none) : PushStep b e true (b.hold e)

theorem push_spec (b : ReorderBuffer) (e : Event) :
    PushStep (b.prepare e) e (b.push e).1 (b.push e).2 := by
  simp only [push]
  split_ifs with hrej hgap hord hdup <;> dsimp only
  · exact .inject hrej hgap.1 hgap.2
  · exact .reject hrej hgap
  · exact .structural hrej hord
  · exact .duplicate hrej (by simpa using hord) hdup
  · exact .ingress hrej (by simpa using hord) (by simpa [KeyedMap.contains] using hdup)

theorem candidate_eq_none_iff (b : ReorderBuffer) : b.candidate = none ↔ b.held = [] := by
  unfold candidate held
  cases hs : b.structuralQueue with
  | nil =>
    cases hf : b.buffer.first with
    | none => simpa using b.buffer.first_eq_none_iff.mp hf
    | some e => simpa using List.ne_nil_of_mem (b.buffer.first_mem hf)
  | cons s q =>
    cases hf : b.buffer.first with
    | none => simp
    | some e => by_cases h : s.seqNum ≤ e.seqNum <;> simp [h]

/-- A structural candidate heads its queue and is at most every mapped number. -/
theorem candidate_structural {b : ReorderBuffer} {e : Event}
    (h : b.candidate = some (e, true)) :
    ∃ q, b.structuralQueue = e :: q ∧ ∀ w ∈ b.buffer.values, e.seqNum ≤ w.seqNum := by
  unfold candidate at h
  cases hs : b.structuralQueue with
  | nil => cases hf : b.buffer.first <;> simp [hs, hf] at h
  | cons s q =>
    cases hf : b.buffer.first with
    | none =>
      obtain rfl : s = e := by simpa [hs, hf] using h
      exact ⟨q, rfl, by simp [b.buffer.first_eq_none_iff.mp hf]⟩
    | some w =>
      simp only [hs, hf, List.head?_cons] at h
      split_ifs at h with hle
      · obtain rfl : s = e := by simpa using h
        exact ⟨q, rfl, fun v hv => hle.trans (b.buffer.first_le hf hv)⟩
      · simp at h

/-- A mapped candidate has the least mapped number, below the structural head. -/
theorem candidate_ingress {b : ReorderBuffer} {e : Event}
    (h : b.candidate = some (e, false)) :
    b.buffer.first = some e ∧ ∀ s ∈ b.structuralQueue.head?, e.seqNum < s.seqNum := by
  unfold candidate at h
  cases hs : b.structuralQueue with
  | nil =>
    cases hf : b.buffer.first with
    | none => simp [hs, hf] at h
    | some w =>
      obtain rfl : w = e := by simpa [hs, hf] using h
      simp
  | cons s q =>
    cases hf : b.buffer.first with
    | none => simp [hs, hf] at h
    | some w =>
      simp only [hs, hf, List.head?_cons] at h
      split_ifs at h with hle
      · simp at h
      · obtain rfl : w = e := by simpa using h
        simpa using hle

theorem candidate_le_buffer {b : ReorderBuffer} {e : Event} {c : Bool}
    (h : b.candidate = some (e, c)) : ∀ w ∈ b.buffer.values, e.seqNum ≤ w.seqNum := by
  cases c with
  | true => exact (candidate_structural h).choose_spec.2
  | false => exact fun w hw => b.buffer.first_le (candidate_ingress h).1 hw

theorem candidate_mem_held {b : ReorderBuffer} {e : Event} {c : Bool}
    (h : b.candidate = some (e, c)) : e ∈ b.held := by
  cases c with
  | true =>
    obtain ⟨q, hq, -⟩ := candidate_structural h
    simp [held, hq]
  | false => simp [held, b.buffer.first_mem (candidate_ingress h).1]

/-- The bookkeeping half of `deliver`. -/
def advance (b : ReorderBuffer) (e : Event) : ReorderBuffer := (b.deliver e).2

@[simp] theorem advance_buffer (b : ReorderBuffer) (e : Event) :
    (b.advance e).buffer = b.buffer := by
  unfold advance deliver
  split_ifs <;> rfl

@[simp] theorem advance_structuralQueue (b : ReorderBuffer) (e : Event) :
    (b.advance e).structuralQueue = b.structuralQueue := by
  unfold advance deliver
  split_ifs <;> rfl

@[simp] theorem advance_currentPendingBytes (b : ReorderBuffer) (e : Event) :
    (b.advance e).currentPendingBytes = b.currentPendingBytes := by
  unfold advance deliver
  split_ifs <;> rfl

@[simp] theorem advance_maxPendingBytes (b : ReorderBuffer) (e : Event) :
    (b.advance e).maxPendingBytes = b.maxPendingBytes := by
  unfold advance deliver
  split_ifs <;> rfl

theorem advance_nextSeq (b : ReorderBuffer) (e : Event) :
    (b.advance e).nextSeq = if e.seqNum = b.nextSeq then b.nextSeq + 1 else b.nextSeq := by
  unfold advance deliver
  split_ifs <;> rfl

def dropStructural (b : ReorderBuffer) : ReorderBuffer :=
  { b with structuralQueue := b.structuralQueue.tail }

def dropIngress (b : ReorderBuffer) (e : Event) : ReorderBuffer :=
  { b with
    buffer := b.buffer.erase e.seqNum
    currentPendingBytes := b.currentPendingBytes - Fin.ofNat _ (eventSize e) }

lemma dropStructural_held {b : ReorderBuffer} {e : Event}
    (hc : b.candidate = some (e, true)) : b.held.Perm (e :: b.dropStructural.held) := by
  obtain ⟨q, hq, -⟩ := candidate_structural hc
  simp only [held, dropStructural, hq, List.tail_cons]
  exact List.perm_middle

lemma dropIngress_held {b : ReorderBuffer} {e : Event}
    (hc : b.candidate = some (e, false)) : b.held.Perm (e :: (b.dropIngress e).held) := by
  have hmem := b.buffer.first_mem (candidate_ingress hc).1
  have hget := (b.buffer.get_eq_some_iff e.seqNum e).mpr ⟨hmem, rfl⟩
  exact (b.buffer.values_erase_perm hget).append_right b.structuralQueue

@[simp] lemma advance_held (b : ReorderBuffer) (e : Event) : (b.advance e).held = b.held := by
  simp [held]

/-- The five outcomes of a pop. The salvage branch of `handleGap` is not among
them: the candidate is at most every mapped number, so nothing lies between the
next number and the candidate. -/
inductive PopStep (b : ReorderBuffer) : Option Event → ReorderBuffer → Prop
  | idle (hempty : b.held = []) : PopStep b none b
  | wait (e : Event) (c : Bool) (t : Option ℕ) (hc : b.candidate = some (e, c))
      (hlt : b.nextSeq < e.seqNum) : PopStep b none { b with stalledSince := t }
  | gap (e : Event) (c : Bool) (t : Option ℕ) (hc : b.candidate = some (e, c))
      (hlt : b.nextSeq < e.seqNum) :
      PopStep b (some (gapEvent e.devId b.nextSeq e.seqNum "GAP"))
        { b with nextSeq := e.seqNum, sequenceGaps := b.sequenceGaps + 1, stalledSince := t }
  | structural (e : Event) (hc : b.candidate = some (e, true)) (hle : e.seqNum ≤ b.nextSeq) :
      PopStep b (some e) (b.dropStructural.advance e)
  | ingress (e : Event) (hc : b.candidate = some (e, false)) (hle : e.seqNum ≤ b.nextSeq) :
      PopStep b (some e) ((b.dropIngress e).advance e)

theorem handleGap_spec {b : ReorderBuffer} {e : Event} {c : Bool} (now : ℕ)
    (hc : b.candidate = some (e, c)) (hlt : b.nextSeq < e.seqNum) :
    PopStep b (b.handleGap e.seqNum e.devId now).1 (b.handleGap e.seqNum e.devId now).2 := by
  have hrange : b.buffer.range b.nextSeq e.seqNum = [] :=
    b.buffer.range_eq_nil (candidate_le_buffer hc)
  unfold handleGap
  cases hst : b.stalledSince with
  | some time =>
    simp only [hrange]
    split_ifs
    · exact .gap e c none hc hlt
    · simpa only [← hst] using PopStep.wait e c b.stalledSince hc hlt
  | none =>
    simp only
    split_ifs
    · simpa only [jump, ← hst] using PopStep.gap e c b.stalledSince hc hlt
    · exact .wait e c (some now) hc hlt

theorem pop_spec (b : ReorderBuffer) (now : ℕ) : PopStep b (b.pop now).1 (b.pop now).2 := by
  unfold pop
  cases hc : b.candidate with
  | none => exact .idle (b.candidate_eq_none_iff.mp hc)
  | some p =>
    obtain ⟨e, c⟩ := p
    simp only
    split_ifs with hlt hs
    · exact handleGap_spec now hc hlt
    · subst hs
      exact .structural e hc (not_lt.mp hlt)
    · obtain rfl : c = false := by simpa using hs
      exact .ingress e hc (not_lt.mp hlt)

/-! ## Runs -/

/-- A call on the buffer. The instant of a pop is the clock reading it sees. -/
inductive Op where
  | push (e : Event)
  | pop (now : ℕ)

def apply (b : ReorderBuffer) : Op → ReorderBuffer
  | .push e => (b.push e).2
  | .pop now => (b.pop now).2

/-- The events offered to the buffer by a sequence of calls. -/
def pushes (ops : List Op) : List Event :=
  ops.filterMap (fun op => match op with
    | .push e => some e
    | .pop _ => none)

/-- The push of `e` is refused and records an overflow gap. -/
def injects (b : ReorderBuffer) (e : Event) : Prop :=
  (b.prepare e).rejects e ∧ (b.prepare e).nextSeq ≠ 0 ∧ (b.prepare e).nextSeq < e.seqNum

instance (b : ReorderBuffer) (e : Event) : Decidable (b.injects e) :=
  inferInstanceAs (Decidable (_ ∧ _ ∧ _))

/-- The gap that `injects` records. -/
def overflowGap (b : ReorderBuffer) (e : Event) : Event :=
  gapEvent e.devId (b.prepare e).nextSeq e.seqNum "OVERFLOW_GAP"

end ReorderBuffer
end Foxing
