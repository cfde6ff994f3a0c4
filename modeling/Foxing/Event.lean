import Mathlib.Data.Fin.Basic
import Mathlib.Data.ZMod.Defs

/-!
# Filesystem events

The record that the ring-buffer callback builds for every kernel event, with
its classification into priority tins. Machine integers are the finite types of
their width, so that addition wraps as it does in a release build. The creation
instant of an event only feeds latency metrics and is left out.
-/
namespace Foxing

/-- Unsigned 64-bit integers. -/
abbrev U64 := Fin (2 ^ 64)

/-- Unsigned 32-bit integers. -/
abbrev U32 := Fin (2 ^ 32)

instance U64.lawfulBEq : LawfulBEq U64 := inferInstance

instance (priority := 3000) U64.neZero : NeZero (2 ^ 64) := ⟨by decide⟩

instance (priority := 3000) U32.neZero : NeZero (2 ^ 32) := ⟨by decide⟩

def U64.max : U64 := Fin.last _

def U32.max : U32 := Fin.last _

inductive EventType where
  | write | writeRange | setXattr | removeXattr | rmdir | fsync | rename
  | create | unlink | mkdir | truncate | link | chmod | chown
  | barrier | mknod | symlink | fallocate | utimes
  | setFlags | lock | flock | renameIncomplete | clone
  | sequenceGap | unknown
  deriving DecidableEq, Repr

/-- Priority classes with independent queues; lower ones are drained first. -/
inductive EventTin where
  | control | structural | metadata | bulk
  deriving DecidableEq, Repr

namespace EventType

/-- Decoding of the type byte written by the kernel probes. -/
def ofU8 : ℕ → EventType
  | 1 => write | 2 => writeRange | 3 => setXattr | 4 => removeXattr
  | 5 => rmdir | 6 => fsync | 7 => rename | 8 => create
  | 9 => unlink | 10 => mkdir | 11 => truncate | 12 => link
  | 13 => chmod | 14 => chown | 15 => barrier | 16 => mknod
  | 17 => symlink | 18 => fallocate | 19 => utimes
  | 20 => setFlags
  | 21 => lock
  | 22 => flock
  | 23 => renameIncomplete
  | 24 => clone
  | 255 => sequenceGap
  | _ => unknown

def tin : EventType → EventTin
  | barrier | sequenceGap | fsync => .control
  | create | mkdir | rename | unlink | rmdir | link | symlink | mknod
  | renameIncomplete => .structural
  | chmod | chown | utimes | setXattr | removeXattr | setFlags | lock | flock => .metadata
  | _ => .bulk

def requiresGlobalOrdering : EventType → Bool
  | rename | rmdir | mkdir | unlink | link | renameIncomplete => true
  | _ => false

def isControlPlane : EventType → Bool
  | rename | create | mkdir | rmdir | link | symlink | unlink | mknod
  | renameIncomplete => true
  | _ => false

/-- The two types that the coalescer merges. -/
def isWrite : EventType → Bool
  | write | writeRange => true
  | _ => false

end EventType

structure Event where
  eventType : EventType
  devId : U32
  inode : U64
  parentInode : U64
  newParentInode : U64
  seqNum : U64
  timestampNs : U64
  offset : U64
  length : U64
  name : String
  newName : Option String
  generation : U32
  projid : U32
  uid : U32
  gid : U32
  mode : U32
  flags : U32
  nlink : U32
  processName : String
  interactive : Bool
  deriving DecidableEq, Repr

def Event.withLength (e : Event) (length : U64) : Event := { e with length := length }

@[simp] theorem Event.withLength_inode (e : Event) (n : U64) : (e.withLength n).inode = e.inode := rfl

@[simp] theorem Event.withLength_offset (e : Event) (n : U64) :
    (e.withLength n).offset = e.offset := rfl

@[simp] theorem Event.withLength_length (e : Event) (n : U64) : (e.withLength n).length = n := rfl

/-- The fields that synthetic events leave at zero. -/
def Event.zero : Event where
  eventType := .unknown
  devId := 0
  inode := 0
  parentInode := 0
  newParentInode := 0
  seqNum := 0
  timestampNs := 0
  offset := 0
  length := 0
  name := ""
  newName := none
  generation := 0
  projid := 0
  uid := 0
  gid := 0
  mode := 0
  flags := 0
  nlink := 0
  processName := ""
  interactive := false

end Foxing
