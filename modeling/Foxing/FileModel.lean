import Foxing.Event
import Foxing.Lib.KeyedReplay
import Foxing.Lib.Bytes
import Mathlib.Tactic.SplitIfs
import Mathlib.Order.Lattice

/-!
# File contents

What the data events mean: an abstract store that assigns to every inode its
file, if it exists. A write copies a range of the source file, which is fixed
while the events are replayed; a truncation sets the length; the last unlink
removes the file. What an allocation does to a file is a parameter.
-/
namespace Foxing

abbrev Byte := Fin 256

@[ext] structure File where
  length : ℕ
  bytes : ℕ → Byte

namespace File

def empty : File := ⟨0, fun _ => 0⟩

/-- The bytes `[lo, hi)` become those of the source. -/
def copyRange (content : ℕ → Byte) (lo hi : ℕ) (f : File) : File where
  length := if lo < hi then max f.length hi else f.length
  bytes i := if lo ≤ i ∧ i < hi then content i else f.bytes i

def setLength (n : ℕ) (f : File) : File := ⟨n, fun i => if i < n then f.bytes i else 0⟩

/-- Adjacent ranges copied one after the other are copied together. -/
theorem copyRange_copyRange (content : ℕ → Byte) {lo mid hi : ℕ} (h₁ : lo ≤ mid) (h₂ : mid ≤ hi)
    (f : File) :
    (f.copyRange content lo mid).copyRange content mid hi = f.copyRange content lo hi := by
  ext i
  · simp only [copyRange]
    split_ifs <;> omega
  · simp only [copyRange]
    split_ifs <;> first | rfl | omega

/-- A copy covers one from the same place that got less far. -/
theorem copyRange_absorb (content : ℕ → Byte) (lo : ℕ) {hi hi' : ℕ} (h : hi ≤ hi') (f : File) :
    (f.copyRange content lo hi).copyRange content lo hi' = f.copyRange content lo hi' := by
  ext i
  · simp only [copyRange]
    split_ifs <;> omega
  · simp only [copyRange]
    split_ifs <;> first | rfl | omega

/-- Copies from the same source commute. -/
theorem copyRange_comm (content : ℕ → Byte) (lo hi lo' hi' : ℕ) (f : File) :
    (f.copyRange content lo hi).copyRange content lo' hi' =
      (f.copyRange content lo' hi').copyRange content lo hi := by
  ext i
  · simp only [copyRange]
    split_ifs <;> omega
  · simp only [copyRange]
    split_ifs <;> rfl

end File

section Effects
variable (content : U64 → ℕ → Byte) (allocate : Event → File → File)

/-- The effect of an event on the file of its inode. The link count of an unlink
is the one that remains. -/
def effect (e : Event) (f : Option File) : Option File :=
  match e.eventType with
  | .write | .writeRange | .clone =>
    some ((f.getD .empty).copyRange (content e.inode) e.offset.val (e.offset.val + e.length.val))
  | .truncate => some ((f.getD .empty).setLength e.length.val)
  | .fallocate => some (allocate e (f.getD .empty))
  | .create | .mknod => some (f.getD .empty)
  | .unlink => if e.nlink = 0 then none else f
  | _ => f

/-- The files after a list of events. -/
def replayFiles (files : U64 → Option File) (es : List Event) : U64 → Option File :=
  KeyedReplay.replay Event.inode (effect content allocate) files es

theorem effect_write {e : Event} (h : e.eventType.isWrite = true) (f : Option File) :
    effect content allocate e f = some ((f.getD .empty).copyRange (content e.inode) e.offset.val
      (e.offset.val + e.length.val)) := by
  unfold effect
  cases ht : e.eventType <;> simp_all [EventType.isWrite]

theorem effect_write_comm {x y : Event} (hx : x.eventType.isWrite = true)
    (hy : y.eventType.isWrite = true) (hino : x.inode = y.inode) (f : Option File) :
    effect content allocate y (effect content allocate x f) =
      effect content allocate x (effect content allocate y f) := by
  simp only [effect_write content allocate hx, effect_write content allocate hy,
    Option.getD_some, hino]
  rw [File.copyRange_comm]

/-- A write followed by one that starts where it ends is the longer write. -/
theorem effect_write_extend {x y : Event} {n : U64} (hx : x.eventType.isWrite = true)
    (hy : y.eventType.isWrite = true) (hino : y.inode = x.inode)
    (hoff : y.offset.val = x.offset.val + x.length.val)
    (hlen : n.val = x.length.val + y.length.val) (f : Option File) :
    effect content allocate y (effect content allocate x f) =
      effect content allocate (x.withLength n) f := by
  have hlong : (x.withLength n).eventType.isWrite = true := hx
  simp only [effect_write content allocate hx, effect_write content allocate hy,
    effect_write content allocate hlong, Option.getD_some, hino, hoff,
    Event.withLength_inode, Event.withLength_offset, Event.withLength_length, hlen]
  rw [File.copyRange_copyRange _ (by omega) (by omega)]
  simp only [Nat.add_assoc]

end Effects

end Foxing
