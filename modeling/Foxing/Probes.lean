import Foxing.Event
import Foxing.Lib.PercpuHash
import Foxing.Lib.Run

/-!
# Kernel probes on the write path

The write, fsync and writeback probes with the maps they share: the sequence
counter, the dirty pages, the write aggregator and the ring buffer of events.
Consecutive writes of an inode number are collected in the aggregator slot of
the processor that runs the probe, and leave it as one event.

A probe runs to its end on one processor. What it is told by the kernel (the
clock, the room in the ring buffer, the pages that the dirty page map evicts) is
part of its call. Probes that find no inode return at once and are left out, as
are the statistics counters and the two record fields no consumer reads.

The state also keeps a history that no probe reads: the submitted ranges, those
whose emission failed after it had used up a sequence number, and, beside every
event and in every pending write, the submissions it stands for.
-/
namespace Foxing.Kernel

/-- What the probes read of an inode. -/
structure Inode where
  dev : U32
  ino : U64
  generation : U32
  mode : U32
  nlink : U32
  uid : U32
  gid : U32
  projid : U32
  deriving DecidableEq, Repr

/-- A directory entry: the inode number of its parent, if there is one, and its name. -/
structure Dentry where
  parent : Option U64
  name : String
  deriving DecidableEq, Repr

structure DirtyKey where
  inodeId : U64
  pageIdx : U64
  deriving DecidableEq, Repr

/-- A range handed to the aggregator, with its place in the order of submission. -/
structure Submission where
  index : ℕ
  dev : U32
  ino : U64
  offset : U64
  length : U64
  flags : U32
  deriving DecidableEq, Repr

structure PendingWrite where
  startOffset : U64
  length : U64
  lastTs : U64
  flags : U32
  writes : List Submission
  deriving DecidableEq, Repr

instance : Zero PendingWrite := ⟨⟨0, 0, 0, 0, []⟩⟩

/-- The circumstances of one probe: where and for whom it runs, the first and the
second reading of the clock, and whether the ring buffer has room for a flushed
write and for the event of the probe itself. -/
structure Call (C : Type) where
  cpu : C
  tgid : U32
  interactive : Bool
  comm : String
  ts : U64
  later : U64
  flushRoom : Bool
  room : Bool

structure Maps (C : Type) where
  watchedDevs : List U32
  ignoredPids : List U32
  localSeq : U64
  dirtyPages : List DirtyKey
  writeAggregator : PercpuHash U64 C PendingWrite
  events : List (Event × List Submission)
  submitted : List Submission
  failed : List Submission

def maxAggregateBytes : U64 := 1048576

def maxAggregated : ℕ := 8192

variable {C : Type}

/-- The maps as user space sets them up before it attaches the probes. -/
def Maps.load (watchedDevs ignoredPids : List U32) (seq : U64) : Maps C where
  watchedDevs := watchedDevs
  ignoredPids := ignoredPids
  localSeq := seq
  dirtyPages := []
  writeAggregator := .empty
  events := []
  submitted := []
  failed := []

/-- The record of an event; what a missing directory entry leaves unset is zero. -/
def Call.fillEvent (call : Call C) (inode : Inode) (dentry : Option Dentry) (type : EventType)
    (seqNum timestampNs offset length : U64) (flags : U32) : Event where
  eventType := type
  devId := inode.dev
  inode := inode.ino
  parentInode := (dentry.bind Dentry.parent).getD 0
  newParentInode := 0
  seqNum := seqNum
  timestampNs := timestampNs
  offset := offset
  length := length
  name := (dentry.map Dentry.name).getD ""
  newName := none
  generation := inode.generation
  projid := inode.projid
  uid := inode.uid
  gid := inode.gid
  mode := inode.mode
  flags := flags
  nlink := inode.nlink
  processName := call.comm
  interactive := call.interactive

namespace Maps

def isIgnoredPid (s : Maps C) (call : Call C) : Bool := s.ignoredPids.contains call.tgid

/-- The next sequence number, or nothing if it is zero or the ring buffer has no
room. The number is used up in either case. -/
def reserve (s : Maps C) (room : Bool) : Option U64 :=
  if s.localSeq = 0 then none else if room then some s.localSeq else none

def countSeq (s : Maps C) : Maps C := { s with localSeq := s.localSeq + 1 }

/-- The map of dirty pages keeps the most recent ones: an update may evict others. -/
def markDirty (s : Maps C) (call : Call C) (inode : Inode) (offset : U64)
    (evicted : List DirtyKey) : Maps C :=
  if s.isIgnoredPid call then s
  else
    let key : DirtyKey := ⟨inode.ino, ⟨offset.val / 4096, by omega⟩⟩
    { s with dirtyPages := key :: s.dirtyPages.filter (fun k => k ≠ key ∧ k ∉ evicted) }

def flushPendingWrite (s : Maps C) (call : Call C) (inode : Inode) (dentry : Option Dentry) :
    Maps C :=
  if inode.dev ∉ s.watchedDevs then s
  else
    match s.writeAggregator.lookup call.cpu inode.ino with
    | none => s
    | some pw =>
      match s.reserve call.flushRoom with
      | none => s.countSeq
      | some seqNum =>
        let e := call.fillEvent inode dentry .writeRange seqNum pw.lastTs pw.startOffset pw.length
          pw.flags
        { s.countSeq with
          events := s.events ++ [(e, pw.writes)]
          writeAggregator := s.writeAggregator.delete inode.ino }

/-- The end of `submit_event_raw`: the event is written, or what it stands for is lost. -/
def emit (s : Maps C) (call : Call C) (inode : Inode) (dentry : Option Dentry) (type : EventType)
    (offset length ts : U64) (flags : U32) (writes : List Submission) : Maps C :=
  match s.reserve call.room with
  | none => { s.countSeq with failed := s.failed ++ writes }
  | some seqNum =>
    { s.countSeq with
      events := s.events ++ [(call.fillEvent inode dentry type seqNum ts offset length flags,
        writes)] }

end Maps

/-- A pending write takes up a further one if it is younger than 50 ms, the two are
contiguous and small enough, and their flags are equal. -/
def PendingWrite.absorbs (pw : PendingWrite) (ts offset length : U64) (flags : U32) : Bool :=
  ts - pw.lastTs < 50000000 && pw.startOffset + pw.length = offset &&
    pw.length + length ≤ maxAggregateBytes && pw.flags = flags

namespace Maps

/-- The submission that a range of an inode makes in this state. -/
def submission (s : Maps C) (inode : Inode) (offset length : U64) (flags : U32) : Submission :=
  ⟨s.submitted.length, inode.dev, inode.ino, offset, length, flags⟩

variable [DecidableEq C]

/-- The aggregating part of `submit_event_raw`. A write that the pending one does not
absorb takes its slot, and the pending one is emitted. Its flags are read back into
the variable that the slot is then filled from, so the slot keeps the old flags. -/
def aggregate (s : Maps C) (call : Call C) (inode : Inode) (dentry : Option Dentry)
    (offset length : U64) (flags : U32) : Maps C :=
  let w := s.submission inode offset length flags
  let s := { s with submitted := s.submitted ++ [w] }
  match s.writeAggregator.lookup call.cpu inode.ino with
  | some pw =>
    if pw.absorbs call.ts offset length flags then
      { s with
        writeAggregator := s.writeAggregator.store call.cpu inode.ino
          ⟨pw.startOffset, pw.length + length, call.ts, pw.flags, pw.writes ++ [w]⟩ }
    else
      { s with
        writeAggregator := s.writeAggregator.store call.cpu inode.ino
          ⟨offset, length, call.later, pw.flags, [w]⟩ }.emit
        call inode dentry .writeRange pw.startOffset pw.length pw.lastTs pw.flags pw.writes
  | none =>
    { s with
      writeAggregator := s.writeAggregator.update maxAggregated call.cpu inode.ino
        ⟨offset, length, call.ts, flags, [w]⟩ }

def submitEventRaw (s : Maps C) (call : Call C) (inode : Inode) (dentry : Option Dentry)
    (type : EventType) (offset length : U64) (flags : U32) (checkPid : Bool) : Maps C :=
  if checkPid && s.isIgnoredPid call then s
  else if dentry.isNone && (type = .rename || type = .create || type = .mkdir) then s
  else if inode.dev ∉ s.watchedDevs then s
  else if type = .writeRange then s.aggregate call inode dentry offset length flags
  else s.emit call inode dentry type offset length call.ts flags []

def submitEvent (s : Maps C) (call : Call C) (inode : Inode) (dentry : Option Dentry)
    (type : EventType) (offset length : U64) (flags : U32) : Maps C :=
  s.submitEventRaw call inode dentry type offset length flags true

/-- The body of the write probes of the file systems (`vfs`, `xfs`, `btrfs`, `ext4`,
`f2fs` and `nfs`), which is the same for all of them. -/
def traceWriteIter (s : Maps C) (call : Call C) (inode : Inode) (dentry : Option Dentry)
    (pos count : U64) (kiFlags : U32) (evicted : List DirtyKey) : Maps C :=
  (s.markDirty call inode pos evicted).submitEvent call inode dentry .writeRange pos count kiFlags

def traceVfsFsync (s : Maps C) (call : Call C) (inode : Inode) (dentry : Option Dentry) : Maps C :=
  (s.flushPendingWrite call inode dentry).submitEvent call inode dentry .fsync 0 0 0

end Maps

/-- A file position as the signed number that its bits stand for. -/
def loff (x : U64) : ℤ := if x.val < 2 ^ 63 then x.val else x.val - 2 ^ 64

/-- The page of a signed file position, by an arithmetic shift. -/
def pageOf (start : U64) : U64 :=
  ⟨(loff start / 4096 % 2 ^ 64).toNat, by omega⟩

/-- The length of the inclusive range from `start` to `stop`. -/
def writebackLength (start stop : U64) : U64 :=
  if loff start ≤ loff stop then stop - start + 1 else 0

namespace Maps
variable [DecidableEq C]

/-- Is the writeback taken to be known from a write probe? Only the first page is asked for. -/
def knowsWriteback (s : Maps C) (inode : Inode) (start : U64) : Bool :=
  s.dirtyPages.contains ⟨inode.ino, pageOf start⟩

def traceFilemapFdatawriteRange (s : Maps C) (call : Call C) (inode : Inode)
    (start stop : U64) : Maps C :=
  let s := s.flushPendingWrite call inode none
  if s.knowsWriteback inode start then
    { s with dirtyPages := s.dirtyPages.filter (fun k => k ≠ ⟨inode.ino, pageOf start⟩) }
  else
    s.submitEventRaw call inode none .writeRange start (writebackLength start stop) 0 false

omit [DecidableEq C] in
def traceIomapWriteback (s : Maps C) (call : Call C) (inode : Inode) : Maps C :=
  s.flushPendingWrite call inode none

def traceCopyFileRange (s : Maps C) (call : Call C) (inode : Inode) (dentry : Option Dentry)
    (posOut len : U64) : Maps C :=
  s.submitEvent call inode dentry .writeRange posOut len 0

end Maps

/-- The probes of the write path, each on the processor that its call names. -/
inductive Probe (C : Type) where
  | writeIter (call : Call C) (inode : Inode) (dentry : Option Dentry) (pos count : U64)
      (kiFlags : U32) (evicted : List DirtyKey)
  | copyFileRange (call : Call C) (inode : Inode) (dentry : Option Dentry) (posOut len : U64)
  | vfsFsync (call : Call C) (inode : Inode) (dentry : Option Dentry)
  | filemapFdatawriteRange (call : Call C) (inode : Inode) (start stop : U64)
  | iomapWriteback (call : Call C) (inode : Inode)

def Maps.step [DecidableEq C] (s : Maps C) : Probe C → Maps C
  | .writeIter call inode dentry pos count kiFlags evicted =>
    s.traceWriteIter call inode dentry pos count kiFlags evicted
  | .copyFileRange call inode dentry posOut len => s.traceCopyFileRange call inode dentry posOut len
  | .vfsFsync call inode dentry => s.traceVfsFsync call inode dentry
  | .filemapFdatawriteRange call inode start stop =>
    s.traceFilemapFdatawriteRange call inode start stop
  | .iomapWriteback call inode => s.traceIomapWriteback call inode

/-- The maps after a sequence of probes. -/
def Maps.run [DecidableEq C] (s : Maps C) (probes : List (Probe C)) : Maps C :=
  Run.exec Maps.step s probes

end Foxing.Kernel
