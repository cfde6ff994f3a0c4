import Foxing.DeletePass
import Foxing.HashedTarget
import Foxing.Lib.Run

/-!
# Directory hashes in one-shot syncs

`run_sync` walks the source and copies what differs in size or time, except below
directories whose hash is the one stored on the target; in the end it stores the
hash of every other directory. The state is that of a source and its target
between runs; a run is one step, in which the source does not change. What
becomes of a copy, what the delete pass removes and which hashes can be written
is given with the run.
-/
namespace Foxing.Sync
open Deletion (FilterRules)

/-- One call of `run_sync`. -/
structure SyncRun where
  rules : FilterRules
  archive : Bool
  dryRun : Bool
  outcome : Path → CopyOutcome
  /-- The files and directories that the delete pass removes. -/
  removed : List Path
  /-- The directory is on the target, and its hash can be written. -/
  hashStored : Path → Bool

structure SyncState where
  source : SourceTree
  target : HashedTarget

namespace SyncState
variable (blake3 : Bytes → Bytes) (s : SyncState) (run : SyncRun)

/-- The directories whose subtree is skipped. -/
def prunedDirs : List Path :=
  (s.source.entries.filter fun e =>
    e.kind = .dir && !run.rules.shouldSkip e.path && e.path ≠ [] &&
      match DirHash.computeDirHashFromPath blake3 s.source e.path with
      | none => false
      | some hash => s.target.dirHash e.path = some hash).map SourceEntry.path

/-- The visit of one entry by the walk. -/
def visit (pruned : List Path) (held : Path → Option Stat) (e : SourceEntry) :
    Path → Option Stat :=
  if run.rules.shouldSkip e.path then held
  else if e.kind ≠ .file then held
  else if pruned.any (fun d => d.isPrefixOf e.path) then held
  else if held e.path = some e.stat then held
  else if run.dryRun then held
  else Function.update held e.path
    ((run.outcome e.path).leaves run.archive e.stat (held e.path))

/-- The hash of a directory of the source, unless its subtree was skipped or the hash cannot
be stored. -/
def hashOf (pruned : List Path) (dir : Path) : Option (Bytes × SourceTree) :=
  if !pruned.contains dir && run.hashStored dir then
    (DirHash.computeDirHashFromPath blake3 s.source dir).map fun hash => (hash, s.source)
  else none

/-- One run. -/
def sync : SyncState :=
  let pruned := s.prunedDirs blake3 run
  let t := { s.target with held := s.source.entries.foldl (visit run pruned) s.target.held }
  let t :=
    if run.dryRun then t
    else (t.remove run.removed.contains).setHashes (s.hashOf blake3 run pruned) s.source.dirs
  { s with target := t }

end SyncState

inductive Action where
  | edit (source : SourceTree)
  | sync (run : SyncRun)

def SyncState.step (blake3 : Bytes → Bytes) (s : SyncState) : Action → SyncState
  | .edit source => { s with source := source }
  | .sync run => s.sync blake3 run

/-- A source and a target on which no hash has been stored yet. -/
def SyncState.start (source : SourceTree) (held : Path → Option Stat) : SyncState :=
  ⟨source, HashedTarget.start held⟩

end Foxing.Sync
