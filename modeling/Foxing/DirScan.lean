import Foxing.HashedTarget
import Foxing.Lib.Run

/-!
# Directory hashes in the scans of the daemon

A full scan passes over the directories whose hash is the one stored on every
target, submits jobs for the files elsewhere that differ, and stores the hashes of
the other directories without waiting for the jobs. A recovery scan drops the journal
entries of directories whose hash agrees, and submits jobs and stores hashes for the
rest; a full scan follows it, which is a step of its own here. Jobs for files of the
source are carried out in any order and between any steps.

What a comparison of files says, which jobs the channels accept, what becomes of a
job, and which directories can be seen and written is given with the step. The source
may change while a scan runs: what it is when the hashes are stored is given too.
-/
namespace Foxing.DirScan
open DirHash

/-- One call of `full_scan`. -/
structure FullScan (τ : Type*) where
  /-- The directory is on the target. -/
  onTarget : τ → Path → Bool
  childDirty : τ → Path → Bool
  /-- What `sync_file_needed` says. -/
  needed : τ → Path → Bool
  /-- A job gets into the queue. -/
  accepted : τ → Path → Bool
  /-- The source when the hashes are stored. -/
  later : SourceTree
  hashStored : τ → Path → Bool
  /-- The target is not paused, and what is at the path is not exempt and can be removed. -/
  removable : τ → Path → Bool

/-- One call of `targeted_recovery_scan`, up to the full scan. -/
structure RecoveryScan (τ : Type*) where
  journalOverflow : Bool
  onTarget : τ → Path → Bool
  accepted : τ → Path → Bool
  later : SourceTree
  hashStored : τ → Path → Bool
  hashCleared : τ → Path → Bool

structure ScanState (τ : Type*) where
  source : SourceTree
  target : τ → HashedTarget
  /-- The paths of an outage. -/
  outageJournal : τ → List Path
  /-- The jobs that have been accepted and not been carried out. -/
  jobs : List (Path × τ)

namespace ScanState
variable {τ : Type*} (blake3 : Bytes → Bytes) (targets : List τ) (s : ScanState τ)

/-! ## Full scans -/

section Full
variable (scan : FullScan τ)

/-- On this target the directory can be skipped. -/
def agrees (hash : Bytes) (dir : Path) (t : τ) : Bool :=
  scan.onTarget t dir && !scan.childDirty t dir && (s.target t).dirHash dir = some hash

/-- A directory is skipped if it agrees on all targets; otherwise its ancestors are not. -/
def pruneStep (pruned : List Path) (dir : Path) : List Path :=
  if dir = [] then pruned
  else
    match computeDirHashFromPath blake3 s.source dir with
    | none => pruned
    | some hash =>
      if targets.all (s.agrees scan hash dir) then pruned ++ [dir]
      else pruned.filter fun p => !(p.isPrefixOf dir && p ≠ dir)

/-- The directories that are skipped; parents are looked at before their children. -/
def prunedDirs : List Path :=
  (s.source.dirs.insertionSort (fun a b => a.length ≤ b.length)).foldl
    (s.pruneStep blake3 targets scan) []

/-- The jobs of the scan. -/
def submitted (pruned : List Path) : List (Path × τ) :=
  (s.source.entries.filter fun e =>
    e.kind = .file && !pruned.any fun d => d.isPrefixOf e.path).flatMap fun e =>
      (targets.filter fun t => scan.needed t e.path && scan.accepted t e.path).map fun t =>
        (e.path, t)

/-- The hash that is stored: for the root that of the walk, for other directories that of the
source as it is by then. -/
def hashOf (pruned : List Path) (t : τ) (dir : Path) : Option (Bytes × SourceTree) :=
  if pruned.contains dir || !scan.hashStored t dir then none
  else
    match (if dir = [] then computeDirHashFromPath blake3 s.source dir else none) with
    | some hash => some (hash, s.source)
    | none => (computeDirHashFromPath blake3 scan.later dir).map fun hash => (hash, scan.later)

/-- What the source has no more is removed. -/
def stale (t : τ) (path : Path) : Bool :=
  scan.removable t path && !scan.later.entries.any fun e => e.path = path && e.kind ≠ .other

variable [DecidableEq τ]

def fullScan : ScanState τ :=
  let pruned := s.prunedDirs blake3 targets scan
  { s with
    source := scan.later
    target := fun t =>
      if t ∈ targets then
        ((s.target t).setHashes (s.hashOf blake3 scan pruned t) s.source.dirs).remove (stale scan t)
      else s.target t
    jobs := s.jobs ++ s.submitted targets scan pruned }

end Full

/-! ## Recovery scans -/

section Recovery
variable (scan : RecoveryScan τ)

/-- There is no journal to go by. -/
def fallsBack : Bool := scan.journalOverflow || targets.all fun t => (s.outageJournal t).isEmpty

/-- The directories of the journaled paths. -/
def parents (t : τ) : List Path := (s.outageJournal t).map List.dropLast

/-- The journal entries for the directory are dropped. -/
def discards (t : τ) (dir : Path) : Bool :=
  s.source.dirs.contains dir && scan.onTarget t dir &&
    match computeDirHashFromPath blake3 s.source dir with
    | none => false
    | some hash => (s.target t).dirHash dir = some hash

/-- A file is compared by size and second. -/
def differs (t : τ) (e : SourceEntry) : Bool :=
  match (s.target t).held e.path with
  | none => true
  | some v => v.size ≠ e.stat.size || v.mtime ≠ e.stat.mtime

/-- The jobs for a target: journaled files that differ, and files that the target does not
have in the directories of journaled ones. -/
def recovered (t : τ) : List (Path × τ) :=
  let journaled := s.source.entries.filter fun e =>
    e.kind = .file && (s.outageJournal t).contains e.path &&
      !s.discards blake3 scan t e.path.dropLast && s.differs t e
  let missing := scan.later.entries.filter fun e =>
    e.kind = .file && e.path ≠ [] && (s.parents t).contains e.path.dropLast &&
      ((s.target t).held e.path).isNone
  ((journaled ++ missing).filter fun e => scan.accepted t e.path).map fun e => (e.path, t)

/-- The hash that is stored for a directory with journaled paths. -/
def healed (t : τ) (dir : Path) : Option (Bytes × SourceTree) :=
  if s.discards blake3 scan t dir || !scan.later.dirs.contains dir || !scan.hashStored t dir then
    none
  else (computeDirHashFromPath blake3 scan.later dir).map fun hash => (hash, scan.later)

/-- A directory in which there is nothing any more loses its hash. -/
def emptied (t : τ) (dir : Path) : Bool :=
  (s.parents t).contains dir && !s.discards blake3 scan t dir && scan.later.dirs.contains dir &&
    (computeDirHashFromPath blake3 scan.later dir).isNone && scan.hashCleared t dir

variable [DecidableEq τ]

def targetedRecoveryScan : ScanState τ :=
  if s.fallsBack targets scan then
    { s with target := fun t =>
        if t ∈ targets then (s.target t).clearHashes (scan.hashCleared t) else s.target t }
  else
    { source := scan.later
      target := fun t =>
        if t ∈ targets then
          ((s.target t).setHashes (s.healed blake3 scan t) (s.parents t)).clearHashes
            (s.emptied blake3 scan t)
        else s.target t
      outageJournal := fun t => if t ∈ targets then [] else s.outageJournal t
      jobs := s.jobs ++ targets.flatMap (s.recovered blake3 scan) }

end Recovery

variable [DecidableEq τ]

/-- A worker carries out a job for a file of the source. Where the file is gone, what is on
the target stays or is what a failure leaves. -/
def work (t : τ) (path : Path) (outcome : CopyOutcome) : ScanState τ :=
  if (path, t) ∈ s.jobs then
    let held := (s.target t).held path
    let left :=
      match s.source.entries.find? fun e => e.path = path && e.kind = .file, outcome with
      | some e, outcome => outcome.leaves true e.stat held
      | none, .failed left => left
      | none, _ => held
    { s with
      target := Function.update s.target t
        { s.target t with held := Function.update (s.target t).held path left }
      jobs := s.jobs.erase (path, t) }
  else s

end ScanState

inductive Action (τ : Type*) where
  | edit (source : SourceTree)
  | journal (t : τ) (path : Path)
  | fullScan (scan : FullScan τ)
  | recoveryScan (scan : RecoveryScan τ)
  | work (t : τ) (path : Path) (outcome : CopyOutcome)

def ScanState.step {τ : Type*} [DecidableEq τ] (blake3 : Bytes → Bytes) (targets : List τ)
    (s : ScanState τ) : Action τ → ScanState τ
  | .edit source => { s with source := source }
  | .journal t path =>
    { s with outageJournal := Function.update s.outageJournal t (path :: s.outageJournal t) }
  | .fullScan scan => s.fullScan blake3 targets scan
  | .recoveryScan scan => s.targetedRecoveryScan blake3 targets scan
  | .work t path outcome => s.work t path outcome

/-- Targets on which no hash has been stored yet. -/
def ScanState.start {τ : Type*} (source : SourceTree) (held : τ → Path → Option Stat) :
    ScanState τ :=
  ⟨source, fun t => HashedTarget.start (held t), fun _ => [], []⟩

end Foxing.DirScan
