import Mathlib.Data.List.Induction
import Mathlib.Data.List.Sort
import Foxing.Lib.Run
import Foxing.VersionArchive

/-!
# Snapshots of a target

A snapshot is a directory of the version store: its name is the second of its creation,
and it holds a copy of the target with a summary. The snapshots are listed from an
index, which is appended to when a snapshot is created and built again from the
directories when one is deleted. The formats of time are parameters.
-/
namespace Foxing.SnapshotStore

/-- Times in seconds as texts: the names of directories, and the timestamps in JSON. -/
structure Chrono where
  format : ℕ → String
  formatIso : ℕ → String
  parse : String → Option ℕ

/-- Seconds of a clock that counts nanoseconds; there is nothing before the epoch. -/
def seconds (now : ℤ) : ℕ := (now / 1000000000).toNat

def dropDash : List Char → List Char
  | '-' :: 'T' :: cs => 'T' :: dropDash cs
  | c :: cs => c :: dropDash cs
  | [] => []

/-- From the ISO format to that of the directories, but for the end. -/
def fsSafe (timestamp : String) : String :=
  String.ofList (dropDash (timestamp.toList.filter (· ≠ ':')))

def trimEndZ (timestamp : String) : String :=
  String.ofList (timestamp.toList.reverse.dropWhile (· = 'Z')).reverse

/-- The name that pruning makes of a timestamp. -/
def tsFs (timestamp : String) : String := trimEndZ (fsSafe timestamp)

def indexName : String := "index.json"
def filesName : String := "files"

/-- A name of something directly below a directory. -/
def isFileName (name : String) : Bool :=
  name ≠ "" && name ≠ "." && name ≠ ".." && !name.toList.contains '/'

/-! ## Files -/

/-- What is in a directory: files with their data, and directories without. -/
abbrev Entries := List (RelPath × Option Bytes)

def filesOf (entries : Entries) : List (RelPath × Bytes) :=
  entries.filterMap fun e => e.2.map fun data => (e.1, data)

def sizeOf (files : List (RelPath × Bytes)) : ℕ := (files.map fun f => f.2.length).sum

/-- A target without its version store: every path occurs once, and nothing is below a
file. -/
structure Target where
  entries : Entries
  nodup : (entries.map Prod.fst).Nodup
  leaves : ∀ e ∈ entries, e.2.isSome = true → ∀ f ∈ entries, e.1 <+: f.1 → f.1 = e.1

/-- Paths that are left out as belonging to the store. -/
def isOwn (path : RelPath) : Bool :=
  (asciiBytes ".foxing").isPrefixOf (Text.lossy (path.headD []))

/-- The walk over a target. -/
def walked (entries : Entries) : Entries := entries.filter fun e => !isOwn e.1

/-- A file is on the way. -/
def blocked (tree : Entries) (path : RelPath) : Bool :=
  tree.any fun e => e.2.isSome && e.1.isPrefixOf path && e.1 ≠ path

def isFileAt (tree : Entries) (path : RelPath) : Bool :=
  tree.any fun e => e.2.isSome && e.1 = path

def isDirAt (tree : Entries) (path : RelPath) : Bool :=
  tree.any fun e => if e.1 = path then e.2.isNone else path.isPrefixOf e.1

structure Copy where
  tree : Entries
  files : ℕ
  sizeBytes : ℕ

/-- Copies a file or makes a directory; what cannot be written is left out. -/
def Copy.add (copy : Copy) (e : RelPath × Option Bytes) : Copy :=
  match e.2 with
  | none =>
    if blocked copy.tree e.1 || isFileAt copy.tree e.1 || isDirAt copy.tree e.1 then copy
    else { copy with tree := copy.tree ++ [e] }
  | some data =>
    if blocked copy.tree e.1 || isDirAt copy.tree e.1 then copy
    else
      { tree := copy.tree.filter (fun f => f.1 ≠ e.1) ++ [e]
        files := copy.files + 1
        sizeBytes := copy.sizeBytes + data.length }

/-! ## The store -/

structure SnapshotEntry where
  timestamp : String
  snapType : String
  tag : Option String
  files : ℕ
  sizeBytes : ℕ
  source : String
  trigger : String
  deriving DecidableEq, Repr

/-- A directory of the store. The summary has the fields of an entry. -/
structure Snapshot where
  name : String
  summary : Option SnapshotEntry
  tree : Option Entries
  deriving DecidableEq, Repr

structure Disk where
  snapshots : List Snapshot
  index : Option (List SnapshotEntry)
  filesDir : Bool
  deriving DecidableEq, Repr

namespace Disk

def names (disk : Disk) : List String := disk.snapshots.map Snapshot.name

/-- The entry of a directory, or a minimal one if there is no summary. -/
def scanEntry (d : Snapshot) : SnapshotEntry :=
  match d.summary with
  | some summary => summary
  | none =>
    let files := filesOf (d.tree.getD [])
    { timestamp := d.name, snapType := "unknown", tag := none, files := files.length,
      sizeBytes := sizeOf files, source := "", trigger := "unknown" }

def scanSnapshots (chrono : Chrono) (disk : Disk) : List SnapshotEntry :=
  ((disk.snapshots.filter fun d => (chrono.parse d.name).isSome).map scanEntry).insertionSort
    fun a b => a.timestamp ≤ b.timestamp

def listSnapshots (chrono : Chrono) (disk : Disk) : List SnapshotEntry :=
  match disk.index with
  | some snapshots => snapshots
  | none => disk.scanSnapshots chrono

def appendToIndex (entry : SnapshotEntry) (disk : Disk) : Disk :=
  { disk with index := some (disk.index.getD [] ++ [entry]), filesDir := true }

def rebuildIndex (chrono : Chrono) (disk : Disk) : Disk :=
  { disk with index := some (disk.scanSnapshots chrono), filesDir := true }

/-! ### Creation -/

/-- The directory is made, unless there is one of this name, and the target is copied
into its tree. -/
def copyInto (name : String) (target : Entries) (disk : Disk) : Copy :=
  let tree := ((disk.snapshots.find? fun d => d.name = name).bind Snapshot.tree).getD []
  (walked target).foldl Copy.add ⟨tree, 0, 0⟩

def put (d : Snapshot) (disk : Disk) : Disk :=
  if d.name ∈ disk.names then
    { disk with snapshots := disk.snapshots.map fun e => if e.name = d.name then d else e }
  else { disk with snapshots := disk.snapshots ++ [d] }

def createSnapshot (chrono : Chrono) (now : ℤ) (source : String) (target : Entries)
    (tag : Option String) (trigger : String) (disk : Disk) : Disk :=
  let tsDir := chrono.format (seconds now)
  let copy := disk.copyInto tsDir target
  let entry : SnapshotEntry :=
    { timestamp := chrono.formatIso (seconds now), snapType := "full", tag := tag,
      files := copy.files, sizeBytes := copy.sizeBytes, source := source, trigger := trigger }
  (disk.put ⟨tsDir, some entry, some copy.tree⟩).appendToIndex entry

/-! ### Deletion -/

/-- What removing something at another place than directly below the root makes of the
store; there may be nothing at that place. -/
abbrev Elsewhere := String → Disk → Option Disk

def existsAt (elsewhere : Elsewhere) (path : String) (disk : Disk) : Bool :=
  if isFileName path then
    path ∈ disk.names || (path = indexName && disk.index.isSome) || (path = filesName && disk.filesDir)
  else (elsewhere path disk).isSome

def remove (elsewhere : Elsewhere) (path : String) (disk : Disk) : Disk :=
  if isFileName path then
    { snapshots := disk.snapshots.filter fun d => d.name ≠ path
      index := if path = indexName then none else disk.index
      filesDir := disk.filesDir && path ≠ filesName }
  else (elsewhere path disk).getD disk

def removeSnapshotDir (chrono : Chrono) (elsewhere : Elsewhere) (path : String) (disk : Disk) :
    Disk := (disk.remove elsewhere path).rebuildIndex chrono

/-- An error if there is no such directory, also in the other format. -/
def deleteSnapshot (chrono : Chrono) (elsewhere : Elsewhere) (timestamp : String) (disk : Disk) :
    Option Disk :=
  if disk.existsAt elsewhere timestamp then
    some (disk.removeSnapshotDir chrono elsewhere timestamp)
  else if disk.existsAt elsewhere (fsSafe timestamp) then
    some (disk.removeSnapshotDir chrono elsewhere (fsSafe timestamp))
  else none

/-- Pruning goes on after an error. -/
def pruneSnapshot (chrono : Chrono) (elsewhere : Elsewhere) (disk : Disk) (snap : SnapshotEntry) :
    Disk := (disk.deleteSnapshot chrono elsewhere (tsFs snap.timestamp)).getD disk

def pruneByAge (chrono : Chrono) (elsewhere : Elsewhere) (now : ℤ) (maxAge : ℕ) (disk : Disk) :
    Disk :=
  let isOld (snap : SnapshotEntry) : Bool :=
    match chrono.parse (tsFs snap.timestamp) with
    | some t => (t * 1000000000 : ℤ) < now - maxAge && snap.tag.isNone
    | none => false
  let old := (disk.scanSnapshots chrono).filter isOld
  (old.foldl (pruneSnapshot chrono elsewhere) disk).rebuildIndex chrono

def pruneByCount (chrono : Chrono) (elsewhere : Elsewhere) (maxCount : ℕ) (disk : Disk) : Disk :=
  let snapshots := disk.scanSnapshots chrono
  if snapshots.length ≤ maxCount then disk
  else
    let first := snapshots.take (snapshots.length - maxCount)
    ((first.filter fun snap => snap.tag.isNone).foldl (pruneSnapshot chrono elsewhere)
      disk).rebuildIndex chrono

/-- Only a snapshot that has been deleted makes the rest smaller. -/
def pruneSizes (chrono : Chrono) (elsewhere : Elsewhere) (maxBytes : ℕ) :
    List SnapshotEntry → ℕ → Disk → Disk
  | [], _, disk => disk
  | snap :: snaps, remaining, disk =>
    if remaining ≤ maxBytes then disk
    else if snap.tag.isSome then pruneSizes chrono elsewhere maxBytes snaps remaining disk
    else
      match disk.deleteSnapshot chrono elsewhere (tsFs snap.timestamp) with
      | some disk =>
        pruneSizes chrono elsewhere maxBytes snaps (remaining - snap.sizeBytes) disk
      | none => pruneSizes chrono elsewhere maxBytes snaps remaining disk

theorem pruneSizes_cons (chrono : Chrono) (elsewhere : Elsewhere) (maxBytes remaining : ℕ)
    (snap : SnapshotEntry) (snaps : List SnapshotEntry) (disk : Disk) :
    pruneSizes chrono elsewhere maxBytes (snap :: snaps) remaining disk =
      if remaining ≤ maxBytes then disk
      else if snap.tag.isSome then pruneSizes chrono elsewhere maxBytes snaps remaining disk
      else
        match disk.deleteSnapshot chrono elsewhere (tsFs snap.timestamp) with
        | some disk =>
          pruneSizes chrono elsewhere maxBytes snaps (remaining - snap.sizeBytes) disk
        | none => pruneSizes chrono elsewhere maxBytes snaps remaining disk := by
  rfl

/-- Sums of sizes have 64 bits. -/
def u64Size : ℕ := 18446744073709551616

def pruneBySize (chrono : Chrono) (elsewhere : Elsewhere) (maxBytes : ℕ) (disk : Disk) : Disk :=
  let snapshots := disk.scanSnapshots chrono
  let total := (snapshots.map SnapshotEntry.sizeBytes).sum % u64Size
  if total ≤ maxBytes then disk
  else (pruneSizes chrono elsewhere maxBytes snapshots total disk).rebuildIndex chrono

end Disk

/-! ## Histories -/

/-- A snapshot as it was asked for, with what the target held then. -/
structure Record where
  secs : ℕ
  tag : Option String
  source : String
  trigger : String
  content : Entries

namespace Record

def name (chrono : Chrono) (r : Record) : String := chrono.format r.secs

/-- The files of the target when the snapshot was created. -/
def files (r : Record) : List (RelPath × Bytes) := filesOf r.content

/-- The entry of the snapshot in a list. -/
def entry (chrono : Chrono) (r : Record) : SnapshotEntry :=
  { timestamp := chrono.formatIso r.secs, snapType := "full", tag := r.tag,
    files := r.files.length, sizeBytes := sizeOf r.files, source := r.source,
    trigger := r.trigger }

end Record

/-- The store beside its target; `live` is kept only to state what the store is for. -/
structure State where
  disk : Disk
  target : Target
  live : List Record

inductive Action
  | create (now : ℤ) (source : String) (tag : Option String) (trigger : String)
  | delete (timestamp : String) (elsewhere : Disk.Elsewhere)
  | pruneByAge (now : ℤ) (maxAge : ℕ) (elsewhere : Disk.Elsewhere)
  | pruneByCount (maxCount : ℕ) (elsewhere : Disk.Elsewhere)
  | pruneBySize (maxBytes : ℕ) (elsewhere : Disk.Elsewhere)
  | rebuild
  | edit (target : Target)

namespace State
variable (chrono : Chrono)

/-- The snapshots whose directories have gone are no longer there. -/
def pruned (s : State) (disk : Disk) : State :=
  { s with disk := disk, live := s.live.filter fun r => r.name chrono ∈ disk.names }

def step (s : State) : Action → State
  | .create now source tag trigger =>
    { s with
      disk := s.disk.createSnapshot chrono now source s.target.entries tag trigger
      live := s.live ++ [⟨seconds now, tag, source, trigger, s.target.entries⟩] }
  | .delete timestamp elsewhere =>
    s.pruned chrono ((s.disk.deleteSnapshot chrono elsewhere timestamp).getD s.disk)
  | .pruneByAge now maxAge elsewhere =>
    s.pruned chrono (s.disk.pruneByAge chrono elsewhere now maxAge)
  | .pruneByCount maxCount elsewhere =>
    s.pruned chrono (s.disk.pruneByCount chrono elsewhere maxCount)
  | .pruneBySize maxBytes elsewhere =>
    s.pruned chrono (s.disk.pruneBySize chrono elsewhere maxBytes)
  | .rebuild => { s with disk := s.disk.rebuildIndex chrono }
  | .edit target => { s with target := target }

def init (target : Target) : State := ⟨⟨[], none, false⟩, target, []⟩

/-- A directory holds what a snapshot was made of, with its tag. -/
def Holds (d : Snapshot) (r : Record) : Prop :=
  d.summary.map SnapshotEntry.tag = some r.tag ∧
    ∃ tree, d.tree = some tree ∧ (filesOf tree).Perm r.files

/-- There is one directory for every snapshot that has not been deleted, it holds the snapshot,
and the entries that are listed are those of the snapshots. -/
structure Consistent (s : State) : Prop where
  nodup : s.disk.names.Nodup
  names : s.disk.names.Perm (s.live.map (Record.name chrono))
  holds : ∀ d ∈ s.disk.snapshots, ∀ r ∈ s.live, d.name = r.name chrono → Holds d r
  listed : (s.disk.listSnapshots chrono).Perm (s.live.map (Record.entry chrono))

/-- A snapshot is not created in a second that has one, nor of a target with files under the
names of the store; only names of directories are given for deletion. -/
def Undisturbed (s : State) : Action → Prop
  | .create now _ _ _ =>
    chrono.format (seconds now) ∉ s.disk.names ∧
      ∀ e ∈ s.target.entries, e.2.isSome = true → isOwn e.1 = false
  | .delete timestamp _ => isFileName timestamp = true ∧ isFileName (fsSafe timestamp) = true
  | _ => True

end State

/-- What is relied on: a name can be read again, it is a name of its own and is made of the
timestamp. -/
structure Chrono.Lawful (chrono : Chrono) : Prop where
  parse_format : ∀ secs, (chrono.parse (chrono.format secs)).isSome = true
  tsFs_formatIso : ∀ secs, tsFs (chrono.formatIso secs) = chrono.format secs
  fsSafe_format : ∀ secs, fsSafe (chrono.format secs) = chrono.format secs
  fileName : ∀ secs, isFileName (chrono.format secs) = true

/-! ## Copies of a target -/

theorem blocked_eq_false {tree : Entries} {path : RelPath}
    (h : ∀ e ∈ tree, e.2.isSome = true → e.1 <+: path → e.1 = path) : blocked tree path = false := by
  rw [blocked, List.any_eq_false]
  intro e he
  simp only [Bool.and_eq_true, List.isPrefixOf_iff_prefix, decide_eq_true_eq, not_and]
  rintro ⟨hfile, hpre⟩
  exact not_not.mpr (h e he hfile hpre)

theorem filesOf_append (es fs : Entries) : filesOf (es ++ fs) = filesOf es ++ filesOf fs :=
  List.filterMap_append ..

theorem sizeOf_append (fs gs : List (RelPath × Bytes)) : sizeOf (fs ++ gs) = sizeOf fs + sizeOf gs := by
  rw [sizeOf, List.map_append, List.sum_append]
  rfl

/-- A new file is copied unless a file or a directory stands in its place. -/
theorem add_file {copy : Copy} {path : RelPath} {data : Bytes}
    (hfiles : ∀ e ∈ copy.tree, e.2.isSome = true → e.1 <+: path → e.1 = path)
    (hdirs : ∀ e ∈ copy.tree, ¬ path <+: e.1) :
    copy.add (path, some data) =
      ⟨copy.tree ++ [(path, some data)], copy.files + 1, copy.sizeBytes + data.length⟩ := by
  have hdir : isDirAt copy.tree path = false := by
    rw [isDirAt, List.any_eq_false]
    intro e he
    have hne : e.1 ≠ path := fun heq => hdirs e he (heq ▸ List.prefix_rfl)
    rw [if_neg hne, List.isPrefixOf_iff_prefix]
    exact hdirs e he
  have hfilter : copy.tree.filter (fun f => f.1 ≠ path) = copy.tree := by
    refine List.filter_eq_self.mpr fun e he => ?_
    simpa using fun heq : e.1 = path => hdirs e he (heq ▸ List.prefix_rfl)
  simp only [Copy.add, blocked_eq_false hfiles, hdir, Bool.or_self, Bool.false_eq_true, if_false,
    hfilter]

/-- A directory changes neither the files nor the counts. -/
theorem add_directory (copy : Copy) (path : RelPath) :
    (copy.add (path, none)).files = copy.files ∧
      (copy.add (path, none)).sizeBytes = copy.sizeBytes ∧
      filesOf (copy.add (path, none)).tree = filesOf copy.tree ∧
      ∀ e ∈ (copy.add (path, none)).tree, e ∈ copy.tree ∨ e = (path, none) := by
  unfold Copy.add
  dsimp only
  split_ifs
  · exact ⟨rfl, rfl, rfl, fun e he => .inl he⟩
  · refine ⟨rfl, rfl, ?_, fun e he => ?_⟩
    · rw [filesOf_append]
      exact List.append_nil _
    · rcases List.mem_append.mp he with he | he
      · exact .inl he
      · exact .inr (List.mem_singleton.mp he)

/-- All files of a target are copied into an empty tree. -/
theorem foldl_add_nil {entries : Entries} (hnodup : (entries.map Prod.fst).Nodup)
    (hleaves : ∀ e ∈ entries, e.2.isSome = true → ∀ f ∈ entries, e.1 <+: f.1 → f.1 = e.1) :
    (entries.foldl Copy.add ⟨[], 0, 0⟩).files = (filesOf entries).length ∧
      (entries.foldl Copy.add ⟨[], 0, 0⟩).sizeBytes = sizeOf (filesOf entries) ∧
      filesOf (entries.foldl Copy.add ⟨[], 0, 0⟩).tree = filesOf entries ∧
      ∀ e ∈ (entries.foldl Copy.add ⟨[], 0, 0⟩).tree, e ∈ entries := by
  induction entries using List.reverseRecOn with
  | nil => exact ⟨rfl, rfl, rfl, fun e he => he⟩
  | append_singleton entries e ih =>
    rw [List.map_append, List.nodup_append] at hnodup
    obtain ⟨hfiles, hsize, htree, hsub⟩ := ih hnodup.1 fun f hf hfile g hg =>
      hleaves f (List.mem_append_left _ hf) hfile g (List.mem_append_left _ hg)
    have hne : ∀ f ∈ entries, f.1 ≠ e.1 := fun f hf =>
      hnodup.2.2 f.1 (List.mem_map_of_mem hf) e.1 (List.mem_singleton_self _)
    have hlast : e ∈ entries ++ [e] := List.mem_append_right _ (List.mem_singleton_self _)
    rw [List.foldl_append, List.foldl_cons, List.foldl_nil]
    obtain ⟨path, node⟩ := e
    cases node with
    | none =>
      obtain ⟨hfiles', hsize', htree', hsub'⟩ :=
        add_directory (entries.foldl Copy.add ⟨[], 0, 0⟩) path
      have hdir : filesOf (entries ++ [(path, none)]) = filesOf entries := by
        rw [filesOf_append]
        exact List.append_nil _
      rw [hdir]
      refine ⟨hfiles'.trans hfiles, hsize'.trans hsize, htree'.trans htree, fun f hf => ?_⟩
      rcases hsub' f hf with hf | rfl
      · exact List.mem_append_left _ (hsub f hf)
      · exact hlast
    | some data =>
      rw [add_file]
      · rw [filesOf_append, filesOf_append, htree, sizeOf_append, List.length_append, hfiles, hsize]
        refine ⟨rfl, rfl, rfl, fun f hf => ?_⟩
        rcases List.mem_append.mp hf with hf | hf
        · exact List.mem_append_left _ (hsub f hf)
        · exact List.mem_append_right _ hf
      · intro f hf hfile hpre
        exact (hleaves f (List.mem_append_left _ (hsub f hf)) hfile _ hlast hpre).symm
      · intro f hf hpre
        exact hne f (hsub f hf) (hleaves _ hlast rfl f (List.mem_append_left _ (hsub f hf)) hpre)

/-- What is walked over has all files if none is under a name of the store. -/
theorem filesOf_walked {entries : Entries}
    (h : ∀ e ∈ entries, e.2.isSome = true → isOwn e.1 = false) :
    filesOf (walked entries) = filesOf entries := by
  induction entries with
  | nil => rfl
  | cons e entries ih =>
    have ih := ih fun f hf => h f (List.mem_cons_of_mem _ hf)
    rw [walked] at ih ⊢
    by_cases hown : isOwn e.1 = true
    · have hdir : e.2 = none := by
        refine Option.not_isSome_iff_eq_none.mp fun hfile => ?_
        rw [h e (List.mem_cons_self ..) hfile] at hown
        cases hown
      rw [List.filter_cons_of_neg (by simpa using hown), ih, filesOf, filesOf,
        List.filterMap_cons, hdir]
      rfl
    · rw [List.filter_cons_of_pos (by simpa using hown)]
      simp only [filesOf, List.filterMap_cons] at ih ⊢
      rw [ih]

namespace Record
variable (chrono : Chrono)

/-- The copy of the target into an empty tree. -/
def copy (r : Record) : Copy := (walked r.content).foldl Copy.add ⟨[], 0, 0⟩

/-- The directory of a snapshot of its own. -/
def snapshot (r : Record) : Snapshot :=
  ⟨r.name chrono, some (r.entry chrono), some r.copy.tree⟩

theorem copy_of_target {r : Record} {target : Target} (hcontent : r.content = target.entries)
    (hown : ∀ e ∈ target.entries, e.2.isSome = true → isOwn e.1 = false) :
    r.copy.files = r.files.length ∧ r.copy.sizeBytes = sizeOf r.files ∧
      filesOf r.copy.tree = r.files := by
  have hsub : (walked target.entries).Sublist target.entries := List.filter_sublist
  obtain ⟨hfiles, hsize, htree, -⟩ := foldl_add_nil
    ((hsub.map Prod.fst).nodup target.nodup) fun e he hfile f hf =>
      target.leaves e (hsub.subset he) hfile f (hsub.subset hf)
  rw [filesOf_walked hown] at hfiles hsize htree
  rw [copy, files, hcontent]
  exact ⟨hfiles, hsize, htree⟩

end Record

/-! ## The store of undeleted snapshots -/

section Stored
variable {chrono : Chrono} {disk : Disk} {live : List Record}

/-- The directories are those of the snapshots, each of its own name. -/
structure Stored (chrono : Chrono) (disk : Disk) (live : List Record) : Prop where
  snapshots : disk.snapshots = live.map (Record.snapshot chrono)
  nodup : (live.map (Record.name chrono)).Nodup
  whole : ∀ r ∈ live, filesOf r.copy.tree = r.files

/-- The index has the entries of the snapshots; there may be none as long as there are no
snapshots. -/
def Indexed (chrono : Chrono) (disk : Disk) (live : List Record) : Prop :=
  match disk.index with
  | none => live = []
  | some entries => entries.Perm (live.map (Record.entry chrono))

/-- The snapshots whose directories are there. -/
def remaining (chrono : Chrono) (live : List Record) (disk : Disk) : List Record :=
  live.filter fun r => r.name chrono ∈ disk.names

theorem Stored.names (h : Stored chrono disk live) :
    disk.names = live.map (Record.name chrono) := by
  rw [Disk.names, h.snapshots, List.map_map]
  rfl

theorem Stored.remaining_eq (h : Stored chrono disk live) : remaining chrono live disk = live := by
  refine List.filter_eq_self.mpr fun r hr => ?_
  rw [h.names, decide_eq_true_eq]
  exact List.mem_map_of_mem hr

theorem Stored.scan_perm (h : Stored chrono disk live) (hchrono : chrono.Lawful) :
    (disk.scanSnapshots chrono).Perm (live.map (Record.entry chrono)) := by
  have hfilter : (live.map (Record.snapshot chrono)).filter
      (fun d => (chrono.parse d.name).isSome) = live.map (Record.snapshot chrono) := by
    refine List.filter_eq_self.mpr fun d hd => ?_
    obtain ⟨r, -, rfl⟩ := List.mem_map.mp hd
    exact hchrono.parse_format r.secs
  rw [Disk.scanSnapshots, h.snapshots, hfilter, List.map_map]
  exact List.perm_insertionSort _ _

theorem Stored.rebuildIndex (h : Stored chrono disk live) :
    Stored chrono (disk.rebuildIndex chrono) live :=
  ⟨h.snapshots, h.nodup, h.whole⟩

theorem Stored.indexed_rebuildIndex (h : Stored chrono disk live) (hchrono : chrono.Lawful) :
    Indexed chrono (disk.rebuildIndex chrono) live :=
  h.scan_perm hchrono

/-- Removing by name takes away the directory of that name only. -/
theorem Stored.remove (h : Stored chrono disk (remaining chrono live disk))
    (elsewhere : Disk.Elsewhere) {path : String} (hpath : isFileName path = true) :
    Stored chrono (disk.remove elsewhere path)
      (remaining chrono live (disk.remove elsewhere path)) := by
  have hsnapshots : (disk.remove elsewhere path).snapshots =
      disk.snapshots.filter fun d => d.name ≠ path := by
    rw [Disk.remove, if_pos hpath]
  have hremaining : remaining chrono live (disk.remove elsewhere path) =
      (remaining chrono live disk).filter fun r => r.name chrono ≠ path := by
    rw [remaining, remaining, List.filter_filter]
    refine List.filter_congr fun r _ => ?_
    have hmem : r.name chrono ∈ (disk.remove elsewhere path).names ↔
        r.name chrono ≠ path ∧ r.name chrono ∈ disk.names := by
      simp only [Disk.names, hsnapshots, List.mem_map, List.mem_filter, decide_eq_true_eq]
      constructor
      · rintro ⟨d, ⟨hd, hne⟩, hname⟩
        exact ⟨hname ▸ hne, d, hd, hname⟩
      · rintro ⟨hne, d, hd, hname⟩
        exact ⟨d, ⟨hd, hname ▸ hne⟩, hname⟩
    simp only [hmem, Bool.decide_and]
  rw [hremaining]
  refine ⟨?_, ?_, fun r hr => h.whole r (List.mem_filter.mp hr).1⟩
  · rw [hsnapshots, h.snapshots, List.filter_map]
    rfl
  · exact (List.filter_sublist.map _).nodup h.nodup

/-- A state of the store that is what is left of the given snapshots. -/
structure Left (chrono : Chrono) (live : List Record) (disk : Disk) : Prop where
  stored : Stored chrono disk (remaining chrono live disk)
  indexed : Indexed chrono disk (remaining chrono live disk)

theorem Left.of_stored (hchrono : chrono.Lawful)
    (h : Stored chrono disk (remaining chrono live disk)) :
    Left chrono live (disk.rebuildIndex chrono) :=
  ⟨h.rebuildIndex, h.indexed_rebuildIndex hchrono⟩

theorem Left.deleteSnapshot (hchrono : chrono.Lawful) (h : Left chrono live disk)
    (elsewhere : Disk.Elsewhere) {timestamp : String} (hname : isFileName timestamp = true)
    (halt : isFileName (fsSafe timestamp) = true) :
    Left chrono live ((disk.deleteSnapshot chrono elsewhere timestamp).getD disk) := by
  unfold Disk.deleteSnapshot
  split_ifs
  · exact Left.of_stored hchrono (h.stored.remove elsewhere hname)
  · exact Left.of_stored hchrono (h.stored.remove elsewhere halt)
  · exact h

theorem Left.pruneSnapshot (hchrono : chrono.Lawful) (h : Left chrono live disk)
    (elsewhere : Disk.Elsewhere) {snap : SnapshotEntry} {secs : ℕ}
    (hsnap : snap.timestamp = chrono.formatIso secs) :
    Left chrono live (disk.pruneSnapshot chrono elsewhere snap) := by
  have hts : tsFs snap.timestamp = chrono.format secs := by
    rw [hsnap, hchrono.tsFs_formatIso]
  rw [Disk.pruneSnapshot, hts]
  refine h.deleteSnapshot hchrono elsewhere (hchrono.fileName secs) ?_
  rw [hchrono.fsSafe_format]
  exact hchrono.fileName secs

/-- Entries of snapshots have their timestamps. -/
def Stamped (chrono : Chrono) (snaps : List SnapshotEntry) : Prop :=
  ∀ snap ∈ snaps, ∃ secs, snap.timestamp = chrono.formatIso secs

theorem Stored.stamped_scan (h : Stored chrono disk live) (hchrono : chrono.Lawful) :
    Stamped chrono (disk.scanSnapshots chrono) := by
  intro snap hsnap
  obtain ⟨r, -, rfl⟩ := List.mem_map.mp ((h.scan_perm hchrono).subset hsnap)
  exact ⟨r.secs, rfl⟩

theorem Left.foldl_pruneSnapshot (hchrono : chrono.Lawful) (elsewhere : Disk.Elsewhere)
    {snaps : List SnapshotEntry} (hsnaps : Stamped chrono snaps) (h : Left chrono live disk) :
    Left chrono live (snaps.foldl (Disk.pruneSnapshot chrono elsewhere) disk) := by
  induction snaps generalizing disk with
  | nil => exact h
  | cons snap snaps ih =>
    obtain ⟨secs, hsecs⟩ := hsnaps snap (List.mem_cons_self ..)
    rw [List.foldl_cons]
    exact ih (fun s hs => hsnaps s (List.mem_cons_of_mem _ hs))
      (h.pruneSnapshot hchrono elsewhere hsecs)

theorem Left.pruneSizes (hchrono : chrono.Lawful) (elsewhere : Disk.Elsewhere) (maxBytes : ℕ)
    {snaps : List SnapshotEntry} (hsnaps : Stamped chrono snaps) (total : ℕ)
    (h : Left chrono live disk) :
    Left chrono live (Disk.pruneSizes chrono elsewhere maxBytes snaps total disk) := by
  induction snaps generalizing disk total with
  | nil => exact h
  | cons snap snaps ih =>
    have hrest : Stamped chrono snaps := fun s hs => hsnaps s (List.mem_cons_of_mem _ hs)
    obtain ⟨secs, hsecs⟩ := hsnaps snap (List.mem_cons_self ..)
    have hprune := h.pruneSnapshot hchrono elsewhere hsecs
    rw [Disk.pruneSnapshot] at hprune
    rw [Disk.pruneSizes_cons]
    split_ifs
    · exact h
    · exact ih hrest _ h
    · cases hdelete : disk.deleteSnapshot chrono elsewhere (tsFs snap.timestamp) with
      | none => exact ih hrest _ h
      | some disk' =>
        rw [hdelete] at hprune
        exact ih hrest _ hprune

end Stored

/-! ## Every state of a run -/

namespace State
variable {chrono : Chrono} {s : State}

/-- The store has the snapshots that are not deleted, on the disk and in the index. -/
structure Sound (chrono : Chrono) (s : State) : Prop where
  stored : Stored chrono s.disk s.live
  indexed : Indexed chrono s.disk s.live

theorem Sound.left (h : Sound chrono s) : Left chrono s.live s.disk := by
  refine ⟨?_, ?_⟩
  · rw [h.stored.remaining_eq]
    exact h.stored
  · rw [h.stored.remaining_eq]
    exact h.indexed

theorem Sound.of_left {disk : Disk} (h : Left chrono s.live disk) :
    Sound chrono (s.pruned chrono disk) :=
  ⟨h.stored, h.indexed⟩

theorem Sound.createSnapshot (h : Sound chrono s) {now : ℤ} (source : String)
    (tag : Option String) (trigger : String)
    (hnew : chrono.format (seconds now) ∉ s.disk.names)
    (hown : ∀ e ∈ s.target.entries, e.2.isSome = true → isOwn e.1 = false) :
    Sound chrono (s.step chrono (.create now source tag trigger)) := by
  let r : Record := ⟨seconds now, tag, source, trigger, s.target.entries⟩
  obtain ⟨hfiles, hsize, htree⟩ := Record.copy_of_target (r := r) rfl hown
  have hfind : s.disk.snapshots.find? (fun d => d.name = chrono.format (seconds now)) = none := by
    refine List.find?_eq_none.mpr fun d hd => ?_
    rw [decide_eq_true_eq]
    exact fun heq => hnew (heq ▸ List.mem_map_of_mem hd)
  have hcopy : s.disk.copyInto (chrono.format (seconds now)) s.target.entries = r.copy := by
    rw [Disk.copyInto, hfind]
    rfl
  have hdisk : s.disk.createSnapshot chrono now source s.target.entries tag trigger =
      (s.disk.put (r.snapshot chrono)).appendToIndex (r.entry chrono) := by
    rw [Disk.createSnapshot, hcopy, hfiles, hsize]
    rfl
  have hput : s.disk.put (r.snapshot chrono) =
      { s.disk with snapshots := s.disk.snapshots ++ [r.snapshot chrono] } := if_neg hnew
  have hstep : s.step chrono (.create now source tag trigger) =
      { s with
        disk := ⟨s.disk.snapshots ++ [r.snapshot chrono],
          some (s.disk.index.getD [] ++ [r.entry chrono]), true⟩
        live := s.live ++ [r] } := by
    rw [step, hdisk, hput]
    rfl
  rw [hstep]
  refine ⟨⟨?_, ?_, ?_⟩, ?_⟩
  · rw [h.stored.snapshots, List.map_append, List.map_singleton]
  · rw [List.map_append, List.map_singleton, List.nodup_append]
    refine ⟨h.stored.nodup, List.nodup_singleton _, ?_⟩
    rintro name hname _ hr rfl
    rw [List.mem_singleton.mp hr, ← h.stored.names] at hname
    exact hnew hname
  · intro r' hr'
    rcases List.mem_append.mp hr' with hr' | hr'
    · exact h.stored.whole r' hr'
    · rw [List.mem_singleton.mp hr']
      exact htree
  · have hindexed := h.indexed
    rw [Indexed] at hindexed ⊢
    rw [List.map_append, List.map_singleton]
    refine List.Perm.append_right _ ?_
    cases hindex : s.disk.index with
    | none =>
      rw [hindex] at hindexed
      rw [hindexed]
      exact List.Perm.nil
    | some entries =>
      rw [hindex] at hindexed
      exact hindexed

theorem sound_step (hchrono : chrono.Lawful) (h : Sound chrono s) {a : Action}
    (ha : s.Undisturbed chrono a) : Sound chrono (s.step chrono a) := by
  have hstamped := h.stored.stamped_scan hchrono
  cases a with
  | create now source tag trigger => exact h.createSnapshot source tag trigger ha.1 ha.2
  | delete timestamp elsewhere =>
    exact Sound.of_left (h.left.deleteSnapshot hchrono elsewhere ha.1 ha.2)
  | pruneByAge now maxAge elsewhere =>
    refine Sound.of_left (Left.of_stored hchrono (Left.foldl_pruneSnapshot hchrono elsewhere ?_
      h.left).stored)
    exact fun snap hsnap => hstamped snap (List.mem_filter.mp hsnap).1
  | pruneByCount maxCount elsewhere =>
    refine Sound.of_left ?_
    unfold Disk.pruneByCount
    dsimp only
    split_ifs
    · exact h.left
    · refine Left.of_stored hchrono (Left.foldl_pruneSnapshot hchrono elsewhere ?_ h.left).stored
      exact fun snap hsnap => hstamped snap (List.mem_of_mem_take (List.mem_filter.mp hsnap).1)
  | pruneBySize maxBytes elsewhere =>
    refine Sound.of_left ?_
    unfold Disk.pruneBySize
    dsimp only
    split_ifs
    · exact h.left
    · exact Left.of_stored hchrono (Left.pruneSizes hchrono elsewhere maxBytes hstamped _
        h.left).stored
  | rebuild => exact ⟨h.stored.rebuildIndex, h.stored.indexed_rebuildIndex hchrono⟩
  | edit target => exact ⟨h.stored, h.indexed⟩

theorem consistent_of_sound (hchrono : chrono.Lawful) (h : Sound chrono s) :
    s.Consistent chrono := by
  refine ⟨?_, ?_, ?_, ?_⟩
  · rw [h.stored.names]
    exact h.stored.nodup
  · rw [h.stored.names]
  · intro d hd r hr hname
    rw [h.stored.snapshots] at hd
    obtain ⟨r', hr', rfl⟩ := List.mem_map.mp hd
    cases List.inj_on_of_nodup_map h.stored.nodup hr' hr hname
    refine ⟨rfl, _, rfl, ?_⟩
    rw [h.stored.whole r hr]
  · have hindexed := h.indexed
    rw [Indexed] at hindexed
    rw [Disk.listSnapshots]
    cases hindex : s.disk.index with
    | none => exact h.stored.scan_perm hchrono
    | some entries =>
      rw [hindex] at hindexed
      exact hindexed

theorem sound_init (target : Target) : Sound chrono (init target) :=
  ⟨⟨rfl, List.nodup_nil, fun _ hr => by cases hr⟩, rfl⟩

/-- As long as no snapshot is created in the second of another one, the listed snapshots, the
directories and what has been created agree in every state of a run. -/
theorem consistent_of_undisturbed (hchrono : chrono.Lawful) (target : Target) (as : List Action)
    (has : Run.Along (step chrono) (Undisturbed chrono) (init target) as) :
    ∀ p, p <+: as → (Run.exec (step chrono) (init target) p).Consistent chrono := by
  intro p hp
  refine consistent_of_sound hchrono ?_
  exact Run.invariant_prefix (step chrono) (fun s a ha hs => sound_step hchrono hs ha) has
    (sound_init target) p hp

/-! ### Two snapshots in one second -/

/-- Times of the first two seconds; all others are taken for the first one. -/
def sampleChrono : Chrono where
  format := fun secs => if secs = 1 then "1970-01-01T000001" else "1970-01-01T000000"
  formatIso := fun secs => if secs = 1 then "1970-01-01T00:00:01Z" else "1970-01-01T00:00:00Z"
  parse := fun name =>
    if name = "1970-01-01T000001" then some 1
    else if name = "1970-01-01T000000" then some 0 else none

theorem sampleChrono_cases (secs : ℕ) :
    (sampleChrono.format secs = sampleChrono.format 1 ∧
        sampleChrono.formatIso secs = sampleChrono.formatIso 1) ∨
      (sampleChrono.format secs = sampleChrono.format 0 ∧
        sampleChrono.formatIso secs = sampleChrono.formatIso 0) := by
  by_cases hsecs : secs = 1
  · exact .inl ⟨by rw [hsecs], by rw [hsecs]⟩
  · exact .inr ⟨by simp [sampleChrono, hsecs], by simp [sampleChrono, hsecs]⟩

theorem sampleChrono_lawful : sampleChrono.Lawful where
  parse_format := by
    intro secs
    obtain ⟨h, -⟩ | ⟨h, -⟩ := sampleChrono_cases secs <;> rw [h] <;> decide +kernel
  tsFs_formatIso := by
    intro secs
    obtain ⟨h, h'⟩ | ⟨h, h'⟩ := sampleChrono_cases secs <;> rw [h, h'] <;> decide +kernel
  fsSafe_format := by
    intro secs
    obtain ⟨h, -⟩ | ⟨h, -⟩ := sampleChrono_cases secs <;> rw [h] <;> decide +kernel
  fileName := by
    intro secs
    obtain ⟨h, -⟩ | ⟨h, -⟩ := sampleChrono_cases secs <;> rw [h] <;> decide +kernel

/-- A target with one file. -/
def sampleTarget (name : String) (data : Bytes) : Target where
  entries := [([asciiBytes name], some data)]
  nodup := List.nodup_singleton _
  leaves := by
    intro e he _ f hf _
    rw [List.mem_singleton.mp he, List.mem_singleton.mp hf]

/-- A snapshot with a tag, and another one after a change. -/
def twoSnapshots (now : ℤ) : List Action :=
  [.create 0 "/src" (some "v1") "cli", .edit (sampleTarget "a" [2]), .create now "/src" none "cli"]

theorem apart_consistent :
    (Run.exec (step sampleChrono) (init (sampleTarget "a" [1]))
      (twoSnapshots 1000000000)).Consistent sampleChrono := by
  refine consistent_of_undisturbed sampleChrono_lawful (sampleTarget "a" [1])
    (twoSnapshots 1000000000) ?_ _ List.prefix_rfl
  exact ⟨⟨by decide +kernel, by decide +kernel⟩, trivial, ⟨by decide +kernel, by decide +kernel⟩,
    trivial⟩

/-- Half a second later there is still one directory, with two entries, and the first snapshot
has lost its file and its tag. -/
theorem sameSecond_inconsistent :
    (Run.exec (step sampleChrono) (init (sampleTarget "a" [1]))
        (twoSnapshots 500000000)).disk.names = ["1970-01-01T000000"] ∧
      (Run.exec (step sampleChrono) (init (sampleTarget "a" [1]))
        (twoSnapshots 500000000)).disk.snapshots.map Snapshot.tree =
          [some [([asciiBytes "a"], some [2])]] ∧
      ((Run.exec (step sampleChrono) (init (sampleTarget "a" [1]))
        (twoSnapshots 500000000)).disk.listSnapshots sampleChrono).map SnapshotEntry.tag =
          [some "v1", none] ∧
      ¬ (Run.exec (step sampleChrono) (init (sampleTarget "a" [1]))
        (twoSnapshots 500000000)).Consistent sampleChrono := by
  refine ⟨by decide +kernel, by decide +kernel, by decide +kernel, fun h => ?_⟩
  have hlen := h.names.length_eq
  revert hlen
  decide +kernel

end State

end Foxing.SnapshotStore
