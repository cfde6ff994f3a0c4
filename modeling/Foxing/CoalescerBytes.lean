import Foxing.Coalescer

/-!
# The bytes that the coalescer counts

The coalescer counts the bytes of the writes in its batch, so that a busy worker flushes
when there are enough of them. A push adds the length of a write and a pop subtracts what it
returns. What a pruning removes, what a push beyond the frontier drops, and what the elastic
variant of the pop returns without having pruned is not subtracted.
-/
namespace Foxing.CoalescerBytes
open EventBatch Coalescer

/-! ## Bytes of rows -/

def rowBytes (e : Event) : ℕ := if e.eventType.isWrite then e.length.val else 0

/-- The bytes of the writes among some rows. -/
def bytes (rows : List Event) : ℕ := (rows.map rowBytes).sum

/-- The bytes of the rows that are merged. -/
def mergedBytes (marked : List (Event × Bool)) : ℕ :=
  bytes ((marked.filter Prod.snd).map Prod.fst)

/-- The bytes that a merge takes out of its batch. -/
def takenBytes (m : Merge) : ℕ :=
  match m.batch with
  | [] => 0
  | head :: rest =>
    if head.eventType.isWrite then
      head.length.val +
        mergedBytes (scanHead head m.limit (rest.take (reach m.scanDepth (head :: rest)))).2
    else 0

/-- The bytes of the rows of unlinked inodes. -/
def prunedBytes (window : List Event) : ℕ :=
  bytes (window.filter fun e => e.inode ∈ unlinkedInodes window)

/-! ## Runs -/

def after (c : Coalescer) : Op → Coalescer
  | .push e => c.push e
  | .popBatch limitBytes maxLatency isBusy now => (c.popBatch limitBytes maxLatency isBusy now).2
  | .tryElasticCoalesce baseLimit maxCapacity now =>
    (c.tryElasticCoalesce baseLimit maxCapacity now).2

/-- The counter has the bytes of the batch. -/
def Accounted (c : Coalescer) : Prop := c.accumulatedBytes.val = bytes c.batch

instance (c : Coalescer) : Decidable (Accounted c) :=
  inferInstanceAs (Decidable (_ = _))

/-- A busy worker is kept waiting by the bytes that are in the batch. -/
def ThresholdExact (c : Coalescer) : Prop :=
  ∀ limitBytes maxLatency isBusy now, c.defers limitBytes maxLatency isBusy now ↔
    isBusy = true ∧ bytes c.batch < limitBytes.val ∧ now - c.lastFlushTime ≤ maxLatency

/-- The bytes that a call removes from the batch and not from the counter. -/
def unsubtracted (c : Coalescer) (op : Op) : ℕ :=
  prunedBytes (c.pruneWindow op) +
    match op with
    | .push _ => ((c.merges op).map takenBytes).sum
    | .popBatch _ _ _ _ => 0
    | .tryElasticCoalesce _ maxCapacity _ =>
      if (c.pruneTransientLifecycles (c.elasticDepth maxCapacity).val).1 then 0
      else ((c.merges op).map takenBytes).sum

/-- What the counter loses where the bytes of the batch leave 64 bits. -/
def wrapped (c : Coalescer) : Op → ℕ
  | .push e => (bytes c.batch + rowBytes e) / 2 ^ 64 * 2 ^ 64
  | .popBatch _ _ _ _ | .tryElasticCoalesce _ _ _ => 0

/-- No bytes are removed without being subtracted, unless as many are lost to an overflow. -/
def Conserves (c : Coalescer) (op : Op) : Prop := unsubtracted c op = wrapped c op

/-! ## Rows that are removed -/

@[simp] theorem bytes_nil : bytes [] = 0 := rfl

@[simp] theorem bytes_cons (e : Event) (rows : List Event) :
    bytes (e :: rows) = rowBytes e + bytes rows := List.sum_cons

@[simp] theorem bytes_append (a b : List Event) : bytes (a ++ b) = bytes a + bytes b := by
  simp [bytes]

theorem rowBytes_write {e : Event} (h : e.eventType.isWrite = true) : rowBytes e = e.length.val :=
  if_pos h

/-- The rows with a property and those without it. -/
theorem bytes_filter_add (p : Event → Bool) (rows : List Event) :
    bytes (rows.filter p) + bytes (rows.filter fun e => !p e) = bytes rows := by
  induction rows with
  | nil => rfl
  | cons e rows ih =>
    cases hp : p e <;> simp [hp] <;> omega

theorem bytes_prune (m : ℕ) (batch : EventBatch) :
    bytes (prune m batch) + prunedBytes (batch.take m) = bytes batch := by
  have hfilter := bytes_filter_add
    (fun e => decide (e.inode ∈ unlinkedInodes (batch.take m))) (batch.take m)
  have hsplit : bytes batch = bytes (batch.take m) + bytes (batch.drop m) := by
    rw [← bytes_append, List.take_append_drop]
  have hprune : bytes (prune m batch) = bytes ((batch.take m).filter fun e =>
      !(decide (e.inode ∈ unlinkedInodes (batch.take m)))) + bytes (batch.drop m) := by
    rw [prune, bytes_append]
    simp only [decide_not]
  rw [hprune, prunedBytes]
  omega

theorem mergedBytes_cons (r : Event) (mark : Bool) (marked : List (Event × Bool)) :
    mergedBytes ((r, mark) :: marked) = (if mark then rowBytes r else 0) + mergedBytes marked := by
  cases mark <;> simp [mergedBytes]

theorem bytes_unmerged_cons (r : Event) (mark : Bool) (marked : List (Event × Bool)) :
    bytes (unmerged ((r, mark) :: marked)) =
      (if mark then 0 else rowBytes r) + bytes (unmerged marked) := by
  cases mark <;> simp [unmerged]

/-- A scan adds up what it merges, and leaves the other rows. -/
theorem scan_bytes (head : Event) (limit mergedLen endOffset : U64) (rows : List Event) :
    (scan head limit mergedLen endOffset rows).1.val =
        (mergedLen.val + mergedBytes (scan head limit mergedLen endOffset rows).2) % 2 ^ 64 ∧
      mergedBytes (scan head limit mergedLen endOffset rows).2 +
        bytes (unmerged (scan head limit mergedLen endOffset rows).2) = bytes rows := by
  induction rows generalizing mergedLen endOffset with
  | nil => exact ⟨(Nat.mod_eq_of_lt mergedLen.isLt).symm, rfl⟩
  | cons r rows ih =>
    rw [scan]
    split_ifs with hcontinues
    · obtain ⟨hlen, hrows⟩ := ih (mergedLen + r.length) (endOffset + r.length)
      have hwrite := rowBytes_write hcontinues.2.2.1
      simp only [mergedBytes_cons, bytes_unmerged_cons, bytes_cons, if_true]
      refine ⟨?_, by omega⟩
      rw [hlen, Fin.val_add, Nat.mod_add_mod, Nat.add_assoc, hwrite]
    · obtain ⟨hlen, hrows⟩ := ih mergedLen endOffset
      simp only [mergedBytes_cons, bytes_unmerged_cons, bytes_cons, Bool.false_eq_true, if_false]
      refine ⟨?_, by omega⟩
      rw [hlen, Nat.zero_add]

/-- What a merge takes and what it leaves are the bytes of the batch. -/
theorem bytes_merge (scanDepth : ℕ) (limit : U64) (batch : EventBatch) :
    takenBytes ⟨scanDepth, limit, batch⟩ + bytes (tryCoalesceHead scanDepth limit batch).2 =
      bytes batch := by
  cases batch with
  | nil => rfl
  | cons head rest =>
    rw [tryCoalesceHead, takenBytes]
    dsimp only
    split_ifs with hwrite
    · set n := reach scanDepth (head :: rest)
      have hscan := (scan_bytes head limit head.length (head.offset + head.length)
        (rest.take n)).2
      have hrest : bytes rest = bytes (rest.take n) + bytes (rest.drop n) := by
        rw [← bytes_append, List.take_append_drop]
      rw [bytes_append, bytes_cons, rowBytes_write hwrite]
      unfold scanHead
      omega
    · rw [bytes_cons, rowBytes, if_neg hwrite]

/-- The event of a merge has the length of what was merged, as far as it fits in 64 bits. -/
theorem length_merged {scanDepth : ℕ} {limit : U64} {head e : Event} {rest : List Event}
    (hwrite : head.eventType.isWrite = true)
    (h : (tryCoalesceHead scanDepth limit (head :: rest)).1 = some e) :
    e.length.val = takenBytes ⟨scanDepth, limit, head :: rest⟩ % 2 ^ 64 := by
  rw [tryCoalesceHead, if_pos hwrite] at h
  obtain rfl := Option.some.inj h
  rw [takenBytes]
  dsimp only
  rw [if_pos hwrite]
  exact (scan_bytes head limit head.length _ _).1

theorem bytes_forceCoalesce (fuel : ℕ) (batch : EventBatch) :
    (((forcedBatches fuel batch).map fun b => takenBytes ⟨b.length, U64.max, b⟩).sum) +
      bytes (forceCoalesce fuel batch) = bytes batch := by
  induction fuel generalizing batch with
  | zero => exact Nat.zero_add _
  | succ fuel ih =>
    have hmerge := bytes_merge batch.length U64.max batch
    rw [forceCoalesce, forcedBatches]
    rcases htry : tryCoalesceHead batch.length U64.max batch with ⟨evt, rest⟩
    rw [htry] at hmerge
    dsimp only at hmerge
    cases evt with
    | none => simpa using hmerge
    | some evt =>
      dsimp only
      split_ifs
      · simpa using hmerge
      · have hrest := ih rest
        rw [List.map_cons, List.sum_cons]
        omega

/-! ## What a call does to the counter -/

theorem push_counter (c : Coalescer) (e : Event) :
    (c.push e).accumulatedBytes.val = (c.accumulatedBytes.val + rowBytes e) % 2 ^ 64 := by
  have happend : (c.append e).accumulatedBytes.val =
      (c.accumulatedBytes.val + rowBytes e) % 2 ^ 64 := by
    rw [append, rowBytes]
    dsimp only
    split_ifs
    · exact Fin.val_add _ _
    · exact (Nat.mod_eq_of_lt c.accumulatedBytes.isLt).symm
  rw [← happend, push]
  dsimp only
  split_ifs <;> rfl

theorem push_bytes (c : Coalescer) (e : Event) :
    bytes (c.push e).batch + unsubtracted c (.push e) = bytes c.batch + rowBytes e := by
  have happend : bytes (c.append e).batch = bytes c.batch + rowBytes e := by
    rw [append, bytes_append, bytes_cons, bytes_nil, Nat.add_zero]
  have hprune := bytes_prune (c.append e).batch.length (c.append e).batch
  rw [List.take_length, happend] at hprune
  rw [unsubtracted, push, pruneTransientLifecycles, pruneWindow, merges]
  dsimp only
  by_cases hwide : frontierWidthLimit < (c.append e).batch.length
  · by_cases hstill : frontierWidthLimit <
        (prune (c.append e).batch.length (c.append e).batch).length
    · have hforce := bytes_forceCoalesce
        (prune (c.append e).batch.length (c.append e).batch).length
        (prune (c.append e).batch.length (c.append e).batch)
      rw [if_pos hwide, if_pos hstill, if_pos hwide, if_pos ⟨hwide, hstill⟩, List.map_map]
      dsimp only [Function.comp_def]
      omega
    · rw [if_pos hwide, if_neg hstill, if_pos hwide, if_neg fun h => hstill h.2]
      exact hprune
  · rw [if_neg hwide, if_neg hwide, if_neg fun h => hwide h.1]
    exact happend

/-- A pop subtracts what it takes out of the batch. -/
theorem pop_bytes {c : Coalescer} (hbytes : bytes c.batch ≤ c.accumulatedBytes.val)
    (limitBytes : U64) (maxLatency : ℕ) (isBusy : Bool) (now : ℕ) :
    (c.popBatch limitBytes maxLatency isBusy now).2.accumulatedBytes.val + bytes c.batch =
      c.accumulatedBytes.val + bytes (c.popBatch limitBytes maxLatency isBusy now).2.batch := by
  rw [popBatch]
  cases hbatch : c.batch with
  | nil =>
    dsimp only
    rw [hbatch]
  | cons head rest =>
    dsimp only
    split_ifs with hother hdefers
    · dsimp only
      rw [bytes_cons, rowBytes, if_neg (by simp [hother]), Nat.zero_add]
    · rw [hbatch]
    · have hwrite : head.eventType.isWrite = true := by simpa using hother
      have hmerge := bytes_merge c.scanDepth.val limitBytes (head :: rest)
      have hlength := @length_merged c.scanDepth.val limitBytes head
      rcases htry : tryCoalesceHead c.scanDepth.val limitBytes (head :: rest) with ⟨evt, left⟩
      rw [htry] at hmerge
      dsimp only at hmerge
      cases evt with
      | none =>
        rw [tryCoalesceHead, if_pos hwrite] at htry
        cases htry
      | some evt =>
        have hevt := hlength hwrite (congrArg Prod.fst htry)
        rw [hbatch] at hbytes
        have hcounter := c.accumulatedBytes.isLt
        -- The merged length is part of the counter, so nothing is saturated.
        rw [Nat.mod_eq_of_lt (by omega)] at hevt
        have hle : evt.length ≤ c.accumulatedBytes := by
          rw [Fin.le_def]
          omega
        dsimp only
        rw [if_pos hle, Fin.sub_val_of_le hle]
        have hval := Fin.le_def.mp hle
        omega

theorem elastic_bytes {c : Coalescer} (haccounted : Accounted c) (baseLimit : U64)
    (maxCapacity now : ℕ) :
    (c.tryElasticCoalesce baseLimit maxCapacity now).2.accumulatedBytes.val =
      bytes (c.tryElasticCoalesce baseLimit maxCapacity now).2.batch +
        unsubtracted c (.tryElasticCoalesce baseLimit maxCapacity now) := by
  set m := (c.elasticDepth maxCapacity).val with hm
  have hprune := bytes_prune m c.batch
  have hmerge := bytes_merge m baseLimit (prune m c.batch)
  rw [Accounted] at haccounted
  rw [tryElasticCoalesce, unsubtracted, pruneWindow, merges, ← hm]
  dsimp only
  by_cases hempty : c.batch.isEmpty = true
  · have hnone : bytes c.batch = 0 := by
      rw [List.isEmpty_iff.mp hempty]
      rfl
    rw [if_pos hempty]
    dsimp only
    split_ifs with hpruned
    · omega
    · rw [List.map_singleton, List.sum_singleton]
      omega
  · rw [if_neg hempty]
    split_ifs with hpruned
    · have hpop := pop_bytes (c := (c.pruneTransientLifecycles m).2)
        (by rw [pruneTransientLifecycles]; dsimp only; omega) baseLimit 0 false now
      have hbatch : (c.pruneTransientLifecycles m).2.batch = prune m c.batch := rfl
      have hcounter : (c.pruneTransientLifecycles m).2.accumulatedBytes = c.accumulatedBytes := rfl
      rw [hbatch, hcounter] at hpop
      omega
    · rw [List.map_singleton, List.sum_singleton, pruneTransientLifecycles]
      dsimp only
      omega

/-- One call keeps the counter exact if and only if it subtracts all that it removes. -/
theorem stays_accounted_iff {c : Coalescer} (haccounted : Accounted c) (op : Op) :
    Accounted (after c op) ↔ Conserves c op := by
  cases op with
  | push e =>
    have hbytes := push_bytes c e
    have hcounter := push_counter c e
    rw [Accounted] at haccounted ⊢
    rw [haccounted] at hcounter
    rw [after, hcounter, Conserves, wrapped]
    have hsplit := Nat.div_add_mod (bytes c.batch + rowBytes e) (2 ^ 64)
    omega
  | popBatch limitBytes maxLatency isBusy now =>
    have hpop := pop_bytes haccounted.ge limitBytes maxLatency isBusy now
    have hnone : Conserves c (.popBatch limitBytes maxLatency isBusy now) := rfl
    rw [Accounted] at haccounted ⊢
    rw [after]
    exact iff_of_true (by omega) hnone
  | tryElasticCoalesce baseLimit maxCapacity now =>
    have helastic := elastic_bytes haccounted baseLimit maxCapacity now
    rw [Accounted, after, helastic, Conserves, wrapped]
    omega

theorem thresholdExact_of_accounted {c : Coalescer} (h : Accounted c) : ThresholdExact c := by
  intro limitBytes maxLatency isBusy now
  rw [defers, Fin.lt_def, h]

/-- In every run from an empty coalescer the counter has the bytes of the batch after every call,
and the size threshold is exact, if and only if every call subtracts what it removes. -/
theorem counter_exact_iff (scanDepth : U64) (now : ℕ) (ops : List Op) :
    (∀ p, p <+: ops → Accounted (Run.exec after (.new scanDepth now) p) ∧
      ThresholdExact (Run.exec after (.new scanDepth now) p)) ↔
      Run.Along after Conserves (.new scanDepth now) ops := by
  have hthreshold : ∀ c, Accounted c ∧ ThresholdExact c ↔ Accounted c := by
    intro c
    exact and_iff_left_of_imp thresholdExact_of_accounted
  simp only [hthreshold]
  exact Run.forall_prefix_iff_along after (I := Accounted) (A := fun _ => True)
    (P := fun _ => True) (fun _ _ _ _ _ => trivial) (fun _ op _ _ h => stays_accounted_iff h op) ops
    (fun _ _ => trivial) trivial rfl

/-- The elastic pop of a single write leaves its bytes in the counter. -/
theorem elasticPop_unaccounted :
    ¬∀ (scanDepth : U64) (now : ℕ) (ops : List Op),
      Accounted (Run.exec after (.new scanDepth now) ops) := by
  intro hall
  have hrun := hall 64 0 [.push (writeAt 0 8), .tryElasticCoalesce 4096 16 1]
  revert hrun
  decide +kernel

end Foxing.CoalescerBytes
