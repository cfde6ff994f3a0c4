import Foxing.Exclusion
import Foxing.Mirror
import Foxing.Lib.Run

/-!
# Scans and hydration jobs

The producers of writes to a target other than the live events: the scans of a
source, the notifications of the watcher, repairs, and the jobs that all of these
submit. The disk is a list of what there is, with the source and the targets on it.
What a scan finds out by comparing files, hashes and signatures is given with the
step, as is whether a job is accepted. Whether a directory is missing is decided by the
disk as the step finds it.
-/
namespace Foxing

inductive NodeKind where
  | dir | file | other
  deriving DecidableEq, Repr

/-- The device is the normalized one. -/
structure DiskEntry where
  path : Path
  kind : NodeKind
  dev : U32
  deriving DecidableEq, Repr

abbrev Storage := List DiskEntry

namespace Storage

def lookup (d : Storage) (p : Path) : Option DiskEntry := d.find? fun e => e.path = p

def Exists (d : Storage) (p : Path) : Prop := d.lookup p ≠ none

instance (d : Storage) (p : Path) : Decidable (d.Exists p) := inferInstanceAs (Decidable (_ ≠ _))

/-- Everything that is missing on the way to a directory is made. -/
def createDirAll (dev : U32) (p : Path) (d : Storage) : Storage :=
  if d.Exists p then d
  else d ++ (p.inits.filter fun q => ¬ d.Exists q).map fun q => ⟨q, .dir, dev⟩

def remove (p : Path) (d : Storage) : Storage := d.filter fun e => e.path ≠ p

end Storage

/-- A source with its targets. -/
structure Site (τ : Type*) where
  /-- The pieces between the slashes of the absolute path of the source, as it is written. -/
  source : List String
  mount : Path
  dev : U32
  crossSubvolumes : Bool
  targets : List τ
  spec : τ → TargetSpec

namespace Site
variable {τ : Type*} (site : Site τ)

def sourcePath : Path := placeOf site.source

def config (t : τ) : TargetConfig := (site.spec t).load (site.source.filter isComponent)

def targetPath (t : τ) (rel : Path) : Path := (site.spec t).dir ++ rel

def Excluded (t : τ) (rel : Path) : Prop := (site.config t).isPathExcluded rel = true

instance (t : τ) (rel : Path) : Decidable (site.Excluded t rel) :=
  inferInstanceAs (Decidable (_ = true))

/-- The path is at or below the place of the target itself, which is inside the source. -/
def InTarget (t : τ) (rel : Path) : Prop :=
  ∃ r ∈ stripBase site.sourcePath (site.spec t).dir, r ≠ [] ∧ r <+: rel

/-- What a target should leave out. -/
def OffLimits (t : τ) (rel : Path) : Prop := site.Excluded t rel ∨ site.InTarget t rel

/-- The device filter of the walk, which does not descend where it does not apply. -/
def OnDevice (d : Storage) (p : Path) : Prop :=
  site.crossSubvolumes = true ∨
    ∀ q ∈ p.inits, site.sourcePath <+: q → ∀ e ∈ d.lookup q, e.dev = site.dev

instance (d : Storage) (p : Path) : Decidable (site.OnDevice d p) :=
  inferInstanceAs (Decidable (_ ∨ _))

/-- What a walk of the source meets with. -/
def walk (d : Storage) : List DiskEntry :=
  d.filter fun e => site.sourcePath <+: e.path ∧ site.OnDevice d e.path

/-- The path of an entry below the source. -/
def rel (e : DiskEntry) : Path := e.path.drop site.sourcePath.length

/-- A path below the source, or below its mount. -/
def relOf (path : Path) : Option Path :=
  (stripBase site.sourcePath path).or (stripBase site.mount path)

/-- The directories that are made for a target. -/
def created (d : Storage) (t : τ) (rel : Path) : List Path :=
  if d.Exists (site.targetPath t rel) then []
  else rel.inits.filter fun q => ¬ d.Exists (site.targetPath t q)

/-- The paths of a target that are created, or updated if there is something to update. -/
def dirWrites (d : Storage) (t : τ) (rel : Path) (touched : Bool) : List Path :=
  site.created d t rel ++ if touched then [rel] else []

end Site

/-- The disk, the jobs, and what scans and jobs and what live events have created or
updated. -/
structure Hydration (τ : Type*) where
  disk : Storage
  jobs : List (τ × Path)
  hydrated : List (τ × Path)
  live : List (τ × Path)

/-- What a scan finds out: the directories whose hash is the stored one on all targets and
those that have a hash, the directories whose metadata are synced, the files that differ
(nothing if the comparison fails), those that are found equal by their contents and get a
new signature, the directories of the targets that have a hash to be cleared, the jobs that
are accepted, and the paused targets. -/
structure ScanEnv (τ : Type*) where
  pruned : Path → Bool
  hashed : Path → Bool
  synced : τ → Path → Bool
  needed : τ → Path → Option Bool
  signed : τ → Path → Bool
  stored : τ → Path → Bool
  accepted : τ → Path → Bool
  paused : τ → Bool

/-- How a job is run: the path that its inode resolves to, if another, and whether it is
passed over. -/
structure JobRun where
  resolved : Option Path
  skipped : Bool

/-- A directory of a target that has to be there, and whether it is brought up to date. -/
structure DirTask (τ : Type*) where
  target : τ
  path : Path
  touched : Bool

namespace Hydration
variable {τ : Type*} (site : Site τ) (s : Hydration τ)

def ensureDirs (dirs : List (DirTask τ)) : Hydration τ :=
  { s with
    disk := dirs.foldl (fun d x => d.createDirAll site.dev (site.targetPath x.target x.path)) s.disk
    hydrated := s.hydrated ++ dirs.flatMap fun x =>
      (site.dirWrites s.disk x.target x.path x.touched).map fun q => (x.target, q) }

def submit (jobs : List (τ × Path)) (accepted : τ → Path → Bool) : Hydration τ :=
  { s with jobs := s.jobs ++ jobs.filter fun j => accepted j.1 j.2 }

/-- Attributes of files or directories of the targets are written. -/
def update (paths : List (τ × Path)) : Hydration τ := { s with hydrated := s.hydrated ++ paths }

/-- The comparison of a file ends with a new signature on the target. -/
def signs (x : ScanEnv τ) (t : τ) (rel : Path) : Bool :=
  decide (x.needed t rel = some false) && x.signed t rel

/-! ## The full scan -/

section FullScan
variable (x : ScanEnv τ)

/-- The root is never pruned. -/
def Pruned (rel : Path) : Prop := rel ≠ [] ∧ x.pruned rel = true

instance (rel : Path) : Decidable (Pruned x rel) := inferInstanceAs (Decidable (_ ∧ _))

/-- The metadata of the directory are applied, or its hash is stored. -/
def dirTouched (t : τ) (rel : Path) : Bool :=
  !x.synced t rel || (decide ¬ Pruned x rel) && x.hashed rel

def walkedDirs : List Path :=
  ((site.walk s.disk).filter fun e => e.kind = .dir).map site.rel

/-- Files below a pruned directory are not looked at. -/
def walkedFiles : List Path :=
  (((site.walk s.disk).filter fun e => e.kind = .file).map site.rel).filter fun rel =>
    ∀ q ∈ rel.dropLast.inits, ¬ Pruned x q

def scanDirs : List (DirTask τ) :=
  (s.walkedDirs site).flatMap fun rel => site.targets.map fun t => ⟨t, rel, dirTouched x t rel⟩

def scanJobs : List (τ × Path) :=
  (s.walkedFiles site x).flatMap fun rel =>
    (site.targets.filter fun t => x.needed t rel ≠ some false).map fun t => (t, rel)

def scanSigns : List (τ × Path) :=
  (s.walkedFiles site x).flatMap fun rel =>
    (site.targets.filter fun t => signs x t rel).map fun t => (t, rel)

/-- The names in the target that are never taken for stale. -/
def reservedText (rel : Path) : Bool :=
  decide (".foxing".toList <:+: (pathText rel).toList) ||
    decide (".tmp.".toList <:+: (pathText rel).toList) ||
    ".swap_tmp".toList.isSuffixOf (pathText rel).toList

/-- What is on the target and not on the source. -/
def Stale (t : τ) (d : Storage) (e : DiskEntry) : Prop :=
  ∃ rel ∈ stripBase (site.spec t).dir e.path,
    rel ≠ [] ∧ reservedText rel = false ∧ ¬ d.Exists (site.sourcePath ++ rel)

instance (t : τ) (d : Storage) (e : DiskEntry) : Decidable (Stale site t d e) :=
  inferInstanceAs (Decidable (∃ _ ∈ _, _))

/-- A directory stays if something in it does. -/
def removeStale (t : τ) (d : Storage) : Storage :=
  d.filter fun e => ¬ Stale site t d e ∨
    e.kind = .dir ∧ ∃ e' ∈ d, e.path <+: e'.path ∧ ¬ Stale site t d e'

def removeAllStale (d : Storage) : Storage :=
  (site.targets.filter fun t => x.paused t = false).foldl (fun d t => removeStale site t d) d

def fullScan : Hydration τ :=
  let s' := ((s.ensureDirs site (s.scanDirs site x)).update (s.scanSigns site x)).submit
    (s.scanJobs site x) x.accepted
  { s' with disk := removeAllStale site x s'.disk }

/-- The directories of the targets of which the hash is cleared. -/
def clearedDirs : List (τ × Path) :=
  site.targets.flatMap fun t => s.disk.filterMap fun e =>
    if e.kind = .dir then
      ((stripBase (site.spec t).dir e.path).filter (x.stored t)).map fun rel => (t, rel)
    else none

/-- A recovery when a journal has overflowed, or when all are empty. -/
def fallbackScan : Hydration τ := (s.update (s.clearedDirs site x)).fullScan site x

end FullScan

/-! ## The other scans -/

section Scans
variable (t : τ) (journal : List Path) (x : ScanEnv τ)

/-- The directories of the paths in the journal are made, and jobs submitted for the paths
that differ. -/
def targetedRescan : Hydration τ :=
  let parents := (journal.map List.dropLast).filter fun p => p ≠ []
  let changed := journal.filter fun p => s.disk.Exists (site.sourcePath ++ p) ∧
    x.needed t p ≠ some false
  (s.ensureDirs site (parents.map fun p => ⟨t, p, false⟩)).submit (changed.map fun p => (t, p))
    x.accepted

/-- Both directories are there and have the same hash. -/
def Consistent (p : Path) : Prop :=
  s.disk.Exists (site.sourcePath ++ p) ∧ s.disk.Exists (site.targetPath t p) ∧ x.pruned p = true

instance (p : Path) : Decidable (s.Consistent site t x p) := inferInstanceAs (Decidable (_ ∧ _))

/-- The files of a directory that are not on the target. -/
def missingFiles (p : Path) : List (τ × Path) :=
  (s.disk.filter fun e => e.kind = .file ∧ e.path.dropLast = site.sourcePath ++ p ∧
    ¬ s.disk.Exists (site.targetPath t (site.rel e))).map fun e => (t, site.rel e)

/-- The recovery of the paths in a journal, directory by directory; a full scan follows. The
hash of a directory that is still on the source is stored or cleared. -/
def recoveryScan : Hydration τ :=
  let parents := (journal.map List.dropLast).dedup
  let changed := journal.filter fun p => ¬ s.Consistent site t x p.dropLast ∧
    s.disk.Exists (site.sourcePath ++ p) ∧ x.needed t p ≠ some false
  let dirs := (parents.filter fun p => ¬ s.Consistent site t x p).map fun p =>
    (⟨t, p, s.disk.Exists (site.sourcePath ++ p)⟩ : DirTask τ)
  (s.ensureDirs site dirs).submit
    (changed.map (fun p => (t, p)) ++ parents.flatMap fun p => s.missingFiles site t p) x.accepted

/-- One directory of the frontier; its files are submitted for every target. -/
def frontierVisit (dir : Path) (accepted : τ → Path → Bool) : Hydration τ :=
  s.submit ((s.disk.filter fun e => e.kind = .file ∧ e.path.dropLast = dir ∧
    (site.crossSubvolumes ∨ e.dev = site.dev)).flatMap fun e =>
      (stripBase site.sourcePath e.path).elim [] fun rel =>
        site.targets.map fun t => (t, rel)) accepted

end Scans

/-! ## Paths, repairs and jobs -/

section Jobs
variable (x : ScanEnv τ)

/-- The targets for which a path is processed, before a comparison fails. -/
def compared (forced : Bool) (rel : Path) : List τ :=
  if forced then site.targets else site.targets.takeWhile fun t => x.needed t rel ≠ none

/-- The targets whose file gets a new signature, which an urgent path is not compared for. -/
def signedTargets (forced : Bool) (rel : Path) : List τ :=
  if forced then [] else (compared site x forced rel).filter fun t => signs x t rel

def processEntry (forced : Bool) (rel : Path) (kind : NodeKind) : Hydration τ :=
  match kind with
  | .file =>
    (s.update ((signedTargets site x forced rel).map fun t => (t, rel))).submit
      (((compared site x forced rel).filter fun t =>
        forced ∨ x.needed t rel = some true).map fun t => (t, rel)) x.accepted
  | .dir => s.ensureDirs site (site.targets.map fun t => ⟨t, rel, !x.synced t rel⟩)
  | .other => s

/-- A path that is noticed. Names of the daemon's own files are passed over. -/
def processNamed (forced : Bool) (path : Path) : Hydration τ :=
  if internalName (path.getLast?.getD "") then s
  else
    match site.relOf path, s.disk.lookup path with
    | some rel, some e => s.processEntry site x forced rel e.kind
    | _, _ => s

def processPathStatic (path : Path) : Hydration τ := s.processNamed site x true path

def processPath (urgent : Bool) (path : Path) : Hydration τ := s.processNamed site x urgent path

/-- A repair is submitted for every target. -/
def repair (rel : Path) (accepted : τ → Path → Bool) : Hydration τ :=
  s.submit (site.targets.map fun t => (t, rel)) accepted

/-- The target gets what is at the path of the source. -/
def copyPath (t : τ) (rel : Path) : Hydration τ :=
  match s.disk.lookup (site.mount ++ rel) with
  | some e =>
    match e.kind with
    | .dir => s.ensureDirs site [⟨t, rel, false⟩]
    | .file =>
      let s := s.ensureDirs site [⟨t, rel.dropLast, false⟩]
      { s with
        disk := s.disk.remove (site.targetPath t rel) ++ [⟨site.targetPath t rel, .file, site.dev⟩]
        hydrated := s.hydrated ++ [(t, rel)] }
    | .other => s
  | none => s

/-- A hydration worker runs a job. If the file is gone, it is removed from the target. -/
def runJob (i : ℕ) (run : JobRun) : Hydration τ :=
  match s.jobs[i]? with
  | none => s
  | some (t, path) =>
    let s := { s with jobs := s.jobs.eraseIdx i }
    if run.skipped then s
    else if s.disk.Exists (site.mount ++ path) then s.copyPath site t (run.resolved.getD path)
    else { s with disk := s.disk.remove (site.targetPath t path) }

/-- A live event is dropped if its path is excluded. -/
def liveEvent (t : τ) (rel : Path) : Hydration τ :=
  if site.Excluded t rel then s else { s with live := s.live ++ [(t, rel)] }

end Jobs

/-! ## Runs -/

inductive Action (τ : Type*) where
  | fullScan (x : ScanEnv τ)
  | targetedRescan (t : τ) (journal : List Path) (x : ScanEnv τ)
  | recoveryScan (t : τ) (journal : List Path) (x : ScanEnv τ)
  | fallbackScan (x : ScanEnv τ)
  | frontierVisit (dir : Path) (accepted : τ → Path → Bool)
  | processPathStatic (path : Path) (x : ScanEnv τ)
  | processPath (urgent : Bool) (path : Path) (x : ScanEnv τ)
  | repair (rel : Path) (accepted : τ → Path → Bool)
  | runJob (i : ℕ) (run : JobRun)
  | liveEvent (t : τ) (rel : Path)
  | change (disk : Storage)

def step (s : Hydration τ) : Action τ → Hydration τ
  | .fullScan x => s.fullScan site x
  | .targetedRescan t journal x => s.targetedRescan site t journal x
  | .recoveryScan t journal x => s.recoveryScan site t journal x
  | .fallbackScan x => s.fallbackScan site x
  | .frontierVisit dir accepted => s.frontierVisit site dir accepted
  | .processPathStatic path x => s.processPathStatic site x path
  | .processPath urgent path x => s.processPath site x urgent path
  | .repair rel accepted => s.repair site rel accepted
  | .runJob i run => s.runJob site i run
  | .liveEvent t rel => s.liveEvent site t rel
  | .change disk => { s with disk := disk }

def start (disk : Storage) : Hydration τ := ⟨disk, [], [], []⟩

end Hydration

end Foxing
