import Foxing.Event
import Foxing.Lib.Run
import Mathlib.Algebra.BigOperators.Group.List.Basic
import Mathlib.Order.Fin.Basic

/-!
# Buffers and their accounting

Aligned buffers are paid for out of a counter of bytes that all threads share: a
capacity is reserved first, given back if the buffer cannot be made, and given
back again when the buffer is dropped. The steps below are the atomic operations
on that counter, among them the one that the ring-buffer callback makes for every
event it queues; threads may interleave them in any way. A pool is created by one
thread with the same operations. The gauge that mirrors the counter and the queue
of free buffers are left out.
-/
namespace Foxing

/-- The counter, the capacities reserved for buffers that are being made, and the
capacities of the buffers there are. -/
structure BufferMemory where
  count : U64
  reserved : List U64
  live : List U64
  deriving DecidableEq, Repr

def minimumAlignmentBytes : U64 := 4096

def bufferAlign (alignment : U64) : U64 := max alignment minimumAlignmentBytes

def actualCapacity (capacity alignment : U64) : U64 := max capacity (bufferAlign alignment)

/-- An operation on the counter; buffers are named by their position. -/
inductive BufferStep where
  | reserve (capacity alignment : U64)
  | allocated (i : ℕ)
  | rolledBack (i : ℕ)
  | dropped (i : ℕ)
  | queued
  deriving DecidableEq, Repr

namespace BufferMemory

def empty : BufferMemory := ⟨0, [], []⟩

/-- Nothing is reserved beyond the limit. -/
def reserve (limit capacity alignment : U64) (m : BufferMemory) : BufferMemory :=
  let n := actualCapacity capacity alignment
  if m.count + n > limit then m
  else { m with count := m.count + n, reserved := m.reserved ++ [n] }

def allocated (i : ℕ) (m : BufferMemory) : BufferMemory :=
  match m.reserved[i]? with
  | some n => { m with reserved := m.reserved.eraseIdx i, live := m.live ++ [n] }
  | none => m

def rolledBack (i : ℕ) (m : BufferMemory) : BufferMemory :=
  match m.reserved[i]? with
  | some n => { m with count := m.count - n, reserved := m.reserved.eraseIdx i }
  | none => m

def dropped (i : ℕ) (m : BufferMemory) : BufferMemory :=
  match m.live[i]? with
  | some n => { m with count := m.count - n, live := m.live.eraseIdx i }
  | none => m

/-- An event has been accepted by a queue. -/
def queued (m : BufferMemory) : BufferMemory := { m with count := m.count + 1 }

def step (limit : U64) (m : BufferMemory) : BufferStep → BufferMemory
  | .reserve capacity alignment => m.reserve limit capacity alignment
  | .allocated i => m.allocated i
  | .rolledBack i => m.rolledBack i
  | .dropped i => m.dropped i
  | .queued => m.queued

end BufferMemory

/-! ## Creating a pool -/

/-- The alignment is a power of two, and the size rounded up to it is below `2 ^ 63`. -/
def layoutValid (size align : U64) : Bool :=
  decide (2 ^ align.val.log2 = align.val) && decide (size.val + (align.val - 1) < 2 ^ 63)

structure BufferPool where
  buffers : List U64
  chunkSize : U64
  alignment : U64
  localMode : Bool
  deriving DecidableEq, Repr

namespace BufferPool
variable (limit : U64)

/-- A single buffer; `ok` tells whether the allocator has the memory. -/
def tryNew (ok : Bool) (capacity alignment : U64) (m : BufferMemory) : Option U64 × BufferMemory :=
  let n := actualCapacity capacity alignment
  let m' := m.reserve limit capacity alignment
  if m.count + n > limit then (none, m)
  else if layoutValid n (bufferAlign alignment) && ok then
    (some n, m'.allocated m.reserved.length)
  else (none, m'.rolledBack m.reserved.length)

/-- The buffers of a pool, one after the other, until one cannot be made. The
allocator's answers are numbered from `k` on. -/
def allocateBuffers (ok : ℕ → Bool) (size align : U64) :
    ℕ → ℕ → List U64 → BufferMemory → Bool × List U64 × ℕ × BufferMemory
  | 0, k, buffers, m => (true, buffers, k, m)
  | count + 1, k, buffers, m =>
    match tryNew limit (ok k) size align m with
    | (some n, m) => allocateBuffers ok size align count (k + 1) (buffers ++ [n]) m
    | (none, m) => (false, buffers, k + 1, m)

/-- The buffers that were made before one could not be made are dropped in order. -/
def abandon : List U64 → BufferMemory → BufferMemory
  | [], m => m
  | n :: buffers, m => abandon buffers (m.dropped (m.live.length - (n :: buffers).length))

/-- The strategies are tried in turn. -/
def tryStrategies (ok : ℕ → Bool) (align : U64) (localMode : Bool) :
    List (ℕ × U64) → ℕ → BufferMemory → Option BufferPool × BufferMemory
  | [], _, m => (none, m)
  | (count, size) :: strategies, k, m =>
    if count < 2 ∨ size < 4096 then tryStrategies ok align localMode strategies k m
    else
      match allocateBuffers limit ok size align count k [] m with
      | (true, buffers, _, m) => (some ⟨buffers, size, align, localMode⟩, m)
      | (false, buffers, k, m) =>
        tryStrategies ok align localMode strategies k (abandon buffers m)

def createPool (ok : ℕ → Bool) (requestedBuffers : ℕ) (requestedChunkSize alignment : U64)
    (localMode : Bool) (m : BufferMemory) : Option BufferPool × BufferMemory :=
  if requestedBuffers > 65535 then (none, m)
  else
    tryStrategies limit ok (bufferAlign alignment) localMode
      [(requestedBuffers, requestedChunkSize),
        (requestedBuffers / 2, requestedChunkSize),
        (requestedBuffers / 4, requestedChunkSize),
        (requestedBuffers, requestedChunkSize / 2),
        (requestedBuffers / 2, requestedChunkSize / 2),
        (8, 4096)] 0 m

end BufferPool

end Foxing
