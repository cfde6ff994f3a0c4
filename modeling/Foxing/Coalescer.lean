import Foxing.EventBatch
import Foxing.Lib.Run

/-!
# The coalescer

The worker's queue for data events. Popping merges writes into the head of the
batch; a push beyond the frontier width and the elastic variant of the pop also
drop the rows of unlinked inodes. Replaying what was popped and what still
waits is compared with replaying what was pushed, over whole runs. Instants and
durations are nanoseconds; the current instant is an argument.
-/
namespace Foxing

structure Coalescer where
  batch : EventBatch
  scanDepth : U64
  lastFlushTime : ℕ
  accumulatedBytes : U64

namespace Coalescer
open EventBatch

def new (scanDepth : U64) (now : ℕ) : Coalescer := ⟨[], scanDepth, now, 0⟩

def frontierWidthLimit : ℕ := 10000

def unlinkedInodes (window : List Event) : List U64 :=
  (window.filter (fun e => e.eventType = .unlink)).map Event.inode

/-- Remove every row of an unlinked inode from the first rows of a batch. -/
def prune (mDepth : ℕ) (batch : EventBatch) : EventBatch :=
  (batch.take mDepth).filter (fun e => e.inode ∉ unlinkedInodes (batch.take mDepth)) ++
    batch.drop mDepth

/-- Whether rows were removed, and the coalescer afterwards. -/
def pruneTransientLifecycles (c : Coalescer) (mDepth : ℕ) : Bool × Coalescer :=
  (decide (c.batch.length ≠ (prune mDepth c.batch).length),
    { c with batch := prune mDepth c.batch })

/-- The loop of a push beyond the frontier: merge into the head, drop the result
and repeat until the batch is narrow again. Every round shortens the batch, so
its length is enough fuel. -/
def forceCoalesce : ℕ → EventBatch → EventBatch
  | 0, batch => batch
  | fuel + 1, batch =>
    match tryCoalesceHead batch.length U64.max batch with
    | (none, rest) => rest
    | (some _, rest) => if rest.length ≤ frontierWidthLimit then rest else forceCoalesce fuel rest

theorem forceCoalesce_succ (fuel : ℕ) (batch : EventBatch) :
    forceCoalesce (fuel + 1) batch =
      let rest := (tryCoalesceHead batch.length U64.max batch).2
      if rest.length ≤ frontierWidthLimit then rest else forceCoalesce fuel rest := by
  rw [forceCoalesce]
  rcases h : tryCoalesceHead batch.length U64.max batch with ⟨evt, rest⟩
  cases evt with
  | none =>
    -- Nothing is returned for an empty batch only.
    cases batch with
    | nil =>
      obtain rfl := (Prod.mk.inj h).2
      rfl
    | cons head tail =>
      rw [tryCoalesceHead] at h
      split_ifs at h <;> cases (Prod.mk.inj h).1
  | some evt => rfl

/-- The batches on which that loop merges. -/
def forcedBatches : ℕ → EventBatch → List EventBatch
  | 0, _ => []
  | fuel + 1, batch =>
    batch :: match tryCoalesceHead batch.length U64.max batch with
      | (none, _) => []
      | (some _, rest) => if rest.length ≤ frontierWidthLimit then [] else forcedBatches fuel rest

def append (c : Coalescer) (e : Event) : Coalescer :=
  { c with
    accumulatedBytes :=
      if e.eventType.isWrite then c.accumulatedBytes + e.length else c.accumulatedBytes
    batch := c.batch ++ [e] }

def push (c : Coalescer) (e : Event) : Coalescer :=
  let c := c.append e
  if frontierWidthLimit < c.batch.length then
    let c := (c.pruneTransientLifecycles c.batch.length).2
    if frontierWidthLimit < c.batch.length then
      { c with batch := forceCoalesce c.batch.length c.batch }
    else c
  else c

/-- A busy worker leaves a write in the batch until enough bytes have gathered
or the last flush is too long ago. -/
def defers (c : Coalescer) (limitBytes : U64) (maxLatency : ℕ) (isBusy : Bool) (now : ℕ) : Prop :=
  isBusy = true ∧ c.accumulatedBytes < limitBytes ∧ now - c.lastFlushTime ≤ maxLatency

instance (c : Coalescer) (limitBytes : U64) (maxLatency : ℕ) (isBusy : Bool) (now : ℕ) :
    Decidable (c.defers limitBytes maxLatency isBusy now) :=
  inferInstanceAs (Decidable (_ ∧ _ ∧ _))

def popBatch (c : Coalescer) (limitBytes : U64) (maxLatency : ℕ) (isBusy : Bool) (now : ℕ) :
    Option Event × Coalescer :=
  match c.batch with
  | [] => (none, c)
  | head :: rest =>
    if head.eventType.isWrite = false then
      (some head, { c with batch := rest, lastFlushTime := now })
    else if c.defers limitBytes maxLatency isBusy now then (none, c)
    else
      match tryCoalesceHead c.scanDepth.val limitBytes c.batch with
      | (some evt, rest) =>
        (some evt, { c with
          batch := rest
          lastFlushTime := now
          accumulatedBytes :=
            if evt.length ≤ c.accumulatedBytes then c.accumulatedBytes - evt.length else 0 })
      | (none, rest) => (none, { c with batch := rest })

/-- The look-ahead under load. The utilisation is compared as an exact fraction. -/
def elasticDepth (c : Coalescer) (maxCapacity : ℕ) : U64 :=
  if 4 * max maxCapacity 1 < 5 * c.batch.length then c.scanDepth * 10
  else if max maxCapacity 1 < 2 * c.batch.length then c.scanDepth * 2
  else c.scanDepth

def tryElasticCoalesce (c : Coalescer) (baseLimit : U64) (maxCapacity now : ℕ) :
    Option Event × Coalescer :=
  if c.batch.isEmpty then (none, c)
  else
    let m := (c.elasticDepth maxCapacity).val
    let p := c.pruneTransientLifecycles m
    if p.1 then p.2.popBatch baseLimit 0 false now
    else
      let r := tryCoalesceHead m baseLimit p.2.batch
      (r.1, { p.2 with batch := r.2 })

/-! ## Runs -/

/-- A call on the coalescer. The instants are the clock readings of the call. -/
inductive Op where
  | push (e : Event)
  | popBatch (limitBytes : U64) (maxLatency : ℕ) (isBusy : Bool) (now : ℕ)
  | tryElasticCoalesce (baseLimit : U64) (maxCapacity now : ℕ)

/-- A coalescer with what went in and what came out. -/
structure Pipe where
  coalescer : Coalescer
  pushed : List Event
  popped : List Event

namespace Pipe

def start (c : Coalescer) : Pipe := ⟨c, [], []⟩

def take (p : Pipe) (r : Option Event × Coalescer) : Pipe :=
  { p with coalescer := r.2, popped := p.popped ++ r.1.toList }

def apply (p : Pipe) : Op → Pipe
  | .push e => { p with coalescer := p.coalescer.push e, pushed := p.pushed ++ [e] }
  | .popBatch limitBytes maxLatency isBusy now =>
    p.take (p.coalescer.popBatch limitBytes maxLatency isBusy now)
  | .tryElasticCoalesce baseLimit maxCapacity now =>
    p.take (p.coalescer.tryElasticCoalesce baseLimit maxCapacity now)

end Pipe

/-- The arguments of a merge. -/
structure Merge where
  scanDepth : ℕ
  limit : U64
  batch : EventBatch

/-- The merges that a call makes. One on a batch whose head is not a write only
removes the head. -/
def merges (c : Coalescer) : Op → List Merge
  | .push e =>
    let b := (c.append e).batch
    if frontierWidthLimit < b.length ∧ frontierWidthLimit < (prune b.length b).length then
      (forcedBatches (prune b.length b).length (prune b.length b)).map
        (fun b => ⟨b.length, U64.max, b⟩)
    else []
  | .popBatch limitBytes maxLatency isBusy now =>
    if c.defers limitBytes maxLatency isBusy now then []
    else [⟨c.scanDepth.val, limitBytes, c.batch⟩]
  | .tryElasticCoalesce baseLimit maxCapacity _ =>
    let m := (c.elasticDepth maxCapacity).val
    if (c.pruneTransientLifecycles m).1 then [⟨c.scanDepth.val, baseLimit, prune m c.batch⟩]
    else [⟨m, baseLimit, prune m c.batch⟩]

/-- The rows among which a call looks for transient files. -/
def pruneWindow (c : Coalescer) : Op → List Event
  | .push e =>
    if frontierWidthLimit < (c.append e).batch.length then (c.append e).batch else []
  | .popBatch _ _ _ _ => []
  | .tryElasticCoalesce _ maxCapacity _ => c.batch.take (c.elasticDepth maxCapacity).val

section Files
variable (content : U64 → ℕ → Byte) (allocate : Event → File → File)

/-- Every inode with an unlink among the rows is transient: it has no file before
them and none after them. -/
def TransientOnly (files : U64 → Option File) (window : List Event) : Prop :=
  ∀ ino ∈ unlinkedInodes window,
    files ino = none ∧ replayFiles content allocate files window ino = none

/-- The call is harmless in the state before it: it prunes only transient files,
its merges are clear, and a push does not leave the batch too wide. -/
def Safe (files : U64 → Option File) (p : Pipe) (op : Op) : Prop :=
  TransientOnly content allocate (replayFiles content allocate files p.popped)
    (p.coalescer.pruneWindow op) ∧
  (∀ m ∈ p.coalescer.merges op, Clear m.scanDepth m.limit m.batch) ∧
  ∀ e, op = .push e → p.coalescer.merges op = []

lemma transientOnly_of_no_unlink {files : U64 → Option File} {window : List Event}
    (h : unlinkedInodes window = []) : TransientOnly content allocate files window := by
  intro ino hino
  simp [h] at hino

/-- What was popped and what still waits does what was pushed. -/
def Equivalent (files : U64 → Option File) (p : Pipe) : Prop :=
  replayFiles content allocate files (p.popped ++ p.coalescer.batch) =
    replayFiles content allocate files p.pushed

lemma prune_replay_eq (mDepth : ℕ) (batch : EventBatch) (files : U64 → Option File)
    (h : TransientOnly content allocate files (batch.take mDepth)) :
    replayFiles content allocate files (prune mDepth batch) =
      replayFiles content allocate files batch := by
  refine KeyedReplay.replay_congr Event.inode _ (fun ino => ?_)
  conv_rhs => rw [← List.take_append_drop mDepth batch]
  simp only [prune, List.filter_append, KeyedReplay.cell_append]
  congr 1
  by_cases hino : ino ∈ unlinkedInodes (batch.take mDepth)
  · obtain ⟨hnone, hgone⟩ := h ino hino
    have hempty : ((batch.take mDepth).filter (fun e =>
        e.inode ∉ unlinkedInodes (batch.take mDepth))).filter (fun e => e.inode = ino) = [] := by
      rw [List.filter_filter, List.filter_eq_nil_iff]
      intro e _ he
      simp only [Bool.and_eq_true, decide_eq_true_eq] at he
      exact he.2 (he.1 ▸ hino)
    rw [replayFiles, KeyedReplay.replay_apply] at hgone
    rw [hempty, hgone, hnone]
    rfl
  · congr 1
    rw [List.filter_filter]
    refine List.filter_congr (fun e _ => ?_)
    by_cases he : e.inode = ino
    · simp [he, hino]
    · simp [he]

/-- A pop either leaves the batch alone or merges into its head. -/
lemma popBatch_cases (c : Coalescer) (limitBytes : U64) (maxLatency : ℕ) (isBusy : Bool)
    (now : ℕ) :
    ((c.popBatch limitBytes maxLatency isBusy now).1 = none ∧
      (c.popBatch limitBytes maxLatency isBusy now).2.batch = c.batch) ∨
    ((c.popBatch limitBytes maxLatency isBusy now).1 =
        (tryCoalesceHead c.scanDepth.val limitBytes c.batch).1 ∧
      (c.popBatch limitBytes maxLatency isBusy now).2.batch =
        (tryCoalesceHead c.scanDepth.val limitBytes c.batch).2 ∧
      (¬c.defers limitBytes maxLatency isBusy now ∨
        ∃ e rest, c.batch = e :: rest ∧ e.eventType.isWrite = false)) := by
  unfold popBatch
  cases hb : c.batch with
  | nil => exact .inl ⟨rfl, hb⟩
  | cons head rest =>
    by_cases hw : head.eventType.isWrite = false
    · refine .inr ⟨?_, ?_, .inr ⟨head, rest, rfl, hw⟩⟩ <;> simp [hw, tryCoalesceHead]
    by_cases hd : c.defers limitBytes maxLatency isBusy now
    · simp only [if_neg hw, if_pos hd]
      exact .inl ⟨trivial, hb⟩
    · simp only [if_neg hw, if_neg hd]
      refine .inr ?_
      cases htry : tryCoalesceHead c.scanDepth.val limitBytes (head :: rest) with
      | mk r rest' => cases r <;> exact ⟨rfl, rfl, .inl hd⟩

lemma clear_of_not_write (scanDepth : ℕ) (limit : U64) {e : Event} (rest : List Event)
    (h : e.eventType.isWrite = false) : Clear scanDepth limit (e :: rest) :=
  fun hw => absurd hw (by simp [h])

/-- A pop whose merge is clear preserves what the batch does. -/
lemma popBatch_replay_eq (c : Coalescer) (limitBytes : U64) (maxLatency : ℕ) (isBusy : Bool)
    (now : ℕ) (files : U64 → Option File)
    (h : ¬c.defers limitBytes maxLatency isBusy now → Clear c.scanDepth.val limitBytes c.batch) :
    replayFiles content allocate files ((c.popBatch limitBytes maxLatency isBusy now).1.toList ++
        (c.popBatch limitBytes maxLatency isBusy now).2.batch) =
      replayFiles content allocate files c.batch := by
  rcases c.popBatch_cases limitBytes maxLatency isBusy now with ⟨h₁, h₂⟩ | ⟨h₁, h₂, hcase⟩
  · rw [h₁, h₂]
    rfl
  · rw [h₁, h₂]
    refine Clear.replay_eq content allocate ?_ files
    rcases hcase with hd | ⟨e, rest, hb, hw⟩
    · exact h hd
    · rw [hb]
      exact clear_of_not_write _ _ rest hw

lemma tryElasticCoalesce_replay_eq (c : Coalescer) (baseLimit : U64) (maxCapacity now : ℕ)
    (files : U64 → Option File)
    (hprune : TransientOnly content allocate files
      (c.pruneWindow (.tryElasticCoalesce baseLimit maxCapacity now)))
    (hclear : ∀ m ∈ c.merges (.tryElasticCoalesce baseLimit maxCapacity now),
      Clear m.scanDepth m.limit m.batch) :
    replayFiles content allocate files
        ((c.tryElasticCoalesce baseLimit maxCapacity now).1.toList ++
          (c.tryElasticCoalesce baseLimit maxCapacity now).2.batch) =
      replayFiles content allocate files c.batch := by
  unfold tryElasticCoalesce
  by_cases hempty : c.batch.isEmpty = true
  · rw [if_pos hempty]
    rfl
  have hpruned := prune_replay_eq content allocate (c.elasticDepth maxCapacity).val c.batch files
    hprune
  simp only [merges] at hclear
  simp only [if_neg hempty]
  by_cases hp : (c.pruneTransientLifecycles (c.elasticDepth maxCapacity).val).1 = true
  · simp only [if_pos hp] at hclear ⊢
    rw [popBatch_replay_eq content allocate _ _ _ _ _ files
      (fun _ => hclear _ (List.mem_singleton_self _))]
    exact hpruned
  · simp only [if_neg hp] at hclear ⊢
    have h := hclear _ (List.mem_singleton_self _)
    exact (Clear.replay_eq content allocate h files).trans hpruned

lemma push_batch (c : Coalescer) (e : Event) (h : c.merges (.push e) = []) :
    (c.push e).batch = c.batch ++ [e] ∧ (c.append e).batch.length ≤ frontierWidthLimit ∨
      (c.push e).batch = prune (c.append e).batch.length (c.append e).batch ∧
        frontierWidthLimit < (c.append e).batch.length := by
  by_cases hwide : frontierWidthLimit < (c.append e).batch.length
  · refine .inr ⟨?_, hwide⟩
    by_cases hstill : frontierWidthLimit <
        (prune (c.append e).batch.length (c.append e).batch).length
    · -- the forced merges would include one on the pruned batch itself
      simp only [merges, if_pos (And.intro hwide hstill), List.map_eq_nil_iff] at h
      cases hlen : (prune (c.append e).batch.length (c.append e).batch).length with
      | zero => omega
      | succ n => simp [hlen, forcedBatches] at h
    · have hnarrow : ¬frontierWidthLimit <
          ((c.append e).pruneTransientLifecycles (c.append e).batch.length).2.batch.length := hstill
      simp only [push, if_pos hwide, if_neg hnarrow]
      rfl
  · refine .inl ⟨?_, not_lt.mp hwide⟩
    simp only [push, if_neg hwide]
    rfl

/-- A harmless call preserves the equivalence. -/
theorem apply_equivalent (files : U64 → Option File) (p : Pipe) (op : Op)
    (hsafe : Safe content allocate files p op) (h : Equivalent content allocate files p) :
    Equivalent content allocate files (p.apply op) := by
  obtain ⟨hprune, hclear, hpush⟩ := hsafe
  unfold Equivalent at h ⊢
  cases op with
  | push e =>
    have hrows : replayFiles content allocate files (p.popped ++ (p.coalescer.append e).batch) =
        replayFiles content allocate files (p.pushed ++ [e]) := by
      simp only [append, replayFiles, ← List.append_assoc, KeyedReplay.replay_append] at h ⊢
      rw [h]
    simp only [Pipe.apply]
    rcases p.coalescer.push_batch e (hpush e rfl) with ⟨hb, -⟩ | ⟨hb, hwide⟩
    · rw [hb]
      exact hrows
    · rw [hb, ← hrows]
      simp only [pruneWindow, if_pos hwide] at hprune
      have hpruned := prune_replay_eq content allocate (p.coalescer.append e).batch.length
        (p.coalescer.append e).batch _ (by rwa [List.take_length])
      simpa only [replayFiles, KeyedReplay.replay_append] using hpruned
  | popBatch limitBytes maxLatency isBusy now =>
    have hpop := popBatch_replay_eq content allocate p.coalescer limitBytes maxLatency isBusy now
      (replayFiles content allocate files p.popped) (fun hd => hclear
        ⟨p.coalescer.scanDepth.val, limitBytes, p.coalescer.batch⟩ (by simp [merges, hd]))
    simp only [Pipe.apply, Pipe.take, ← h, List.append_assoc]
    simpa only [replayFiles, KeyedReplay.replay_append] using hpop
  | tryElasticCoalesce baseLimit maxCapacity now =>
    have hpop := tryElasticCoalesce_replay_eq content allocate p.coalescer baseLimit maxCapacity now
      (replayFiles content allocate files p.popped) hprune hclear
    simp only [Pipe.apply, Pipe.take, ← h, List.append_assoc]
    simpa only [replayFiles, KeyedReplay.replay_append] using hpop

/-- In a run of harmless calls the popped events, followed by the waiting ones,
do at every point what the pushed ones do, and every merge is in order. -/
theorem run_equivalent (files : U64 → Option File) (scanDepth : U64) (now : ℕ) (ops : List Op)
    (h : Run.Along Pipe.apply (Safe content allocate files) (.start (new scanDepth now)) ops) :
    (∀ q, q <+: ops → Equivalent content allocate files
      (Run.exec Pipe.apply (.start (new scanDepth now)) q)) ∧
    Run.Along Pipe.apply (fun p op => ∀ m ∈ p.coalescer.merges op,
      MergesInOrder m.scanDepth m.limit m.batch) (.start (new scanDepth now)) ops := by
  refine ⟨Run.invariant_prefix Pipe.apply (apply_equivalent content allocate files) h rfl, ?_⟩
  exact Run.along_mono Pipe.apply (fun p op hs m hm => (hs.2.1 m hm).mergesInOrder) h

end Files

def writeAt (offset length : U64) : Event :=
  { Event.zero with eventType := .write, inode := 7, offset := offset, length := length }

def truncateTo (length : U64) : Event :=
  { Event.zero with eventType := .truncate, inode := 7, length := length }

/-- A write, a truncation and a write that continues the first one. -/
def overtakingRun : List Op :=
  [.push (writeAt 0 10), .push (truncateTo 5), .push (writeAt 10 10), .popBatch 100 0 false 0,
    .popBatch 100 0 false 0, .popBatch 100 0 false 0]

/-- The last write overtakes the truncation: the file ends with 5 bytes instead
of 20. -/
theorem overtakingRun_truncates :
    ¬Equivalent (fun _ _ => 1) (fun _ f => f) (fun _ => none)
      (Run.exec Pipe.apply (.start (new 64 0)) overtakingRun) := by
  intro h
  have hlen := congrArg (fun files => (files 7).map File.length) h
  revert hlen
  decide

/-- Two writes one after the other are merged. -/
def adjacentRun : List Op :=
  [.push (writeAt 0 10), .push (writeAt 10 10), .popBatch 100 0 false 0]

theorem adjacentRun_equivalent :
    Equivalent (fun _ _ => 1) (fun _ f => f) (fun _ => none)
      (Run.exec Pipe.apply (.start (new 64 0)) adjacentRun) := by
  refine (run_equivalent (fun _ _ => 1) (fun _ f => f) (fun _ => none) 64 0 adjacentRun ?_).1 _
    (List.prefix_refl _)
  have hpush : ∀ (p : Pipe) (e : Event), unlinkedInodes (p.coalescer.pruneWindow (.push e)) = [] →
      p.coalescer.merges (.push e) = [] →
      Safe (fun _ _ => 1) (fun _ f => f) (fun _ => none) p (.push e) := by
    intro p e hw hm
    exact ⟨transientOnly_of_no_unlink _ _ hw, by simp [hm], fun _ _ => hm⟩
  refine ⟨hpush _ _ rfl rfl, hpush _ _ rfl rfl, ⟨transientOnly_of_no_unlink _ _ rfl, ?_, by simp⟩,
    trivial⟩
  intro m hm
  obtain rfl : m = ⟨64, 100, [writeAt 0 10, writeAt 10 10]⟩ := List.mem_singleton.mp hm
  intro _
  decide

end Coalescer
end Foxing
