import Mathlib.Data.List.Flatten
import Mathlib.Data.List.Nodup
import Mathlib.Data.List.Perm.Basic
import Mathlib.Logic.Equiv.List
import Mathlib.Tactic.DeriveEncodable
import Foxing.FxarFormat
import Foxing.Lib.Text

/-!
# Snapshots in tar archives

The snapshots of a version store are exported to a tar archive: the index, and for
each snapshot its summary and the files of its tree. A file whose hash has occurred
before is replaced by a reference. An import puts the entries of an archive to their
places. Paths are lists of the names between the slashes; the hash, the packing of
entries and the test of timestamps are parameters.
-/
namespace Foxing

abbrev RelPath := List Bytes

/-- The path as a text, with replacement characters for what is not valid. -/
def lossyPath (path : RelPath) : RelPath := path.map Text.lossy

structure StoredFile where
  data : Bytes
  mode : ℕ
  mtime : ℕ
  deriving DecidableEq, Repr

/-- A snapshot; there is a tree only if its directory exists. -/
structure SnapshotDir where
  name : Bytes
  summary : Option StoredFile
  tree : Option (List (RelPath × StoredFile))
  deriving DecidableEq, Repr

/-- The regular files in the tree. -/
def SnapshotDir.files (d : SnapshotDir) : List (RelPath × StoredFile) := d.tree.getD []

/-- Neither path is the other or leads through it. -/
def Separate (p q : RelPath) : Prop := ¬ p <+: q ∧ ¬ q <+: p

instance : DecidableRel Separate := fun _ _ => inferInstanceAs (Decidable (_ ∧ _))

structure TarEntry where
  path : RelPath
  file : StoredFile
  deriving DecidableEq, Repr

/-- What is used of the settings and of other libraries: the entries of an archive are packed
and compressed, and found again. -/
structure ArchiveLibs where
  hashingEnabled : Bool
  blake3 : Bytes → Bytes
  isTimestamp : Bytes → Bool
  pack : List TarEntry → Bytes
  archived : Bytes → List TarEntry

/-- A version store: snapshots whose names are different timestamps, and whose files do not
stand in each other's way. -/
structure VersionStore (libs : ArchiveLibs) where
  index : Option StoredFile
  snapshots : List SnapshotDir
  timestamps : ∀ d ∈ snapshots, libs.isTimestamp d.name = true
  names : (snapshots.map SnapshotDir.name).Nodup
  trees : ∀ d ∈ snapshots, (d.files.map Prod.fst).Pairwise Separate

def indexFile : Bytes := asciiBytes "index.json"
def summaryFile : Bytes := asciiBytes "summary.json"
def treeDir : Bytes := asciiBytes "tree"
def metaDir : Bytes := asciiBytes "meta"
def dedupDir : Bytes := asciiBytes "dedup"

/-! ## Export -/

structure ExportStats where
  snapshotsExported : ℕ
  totalFiles : ℕ
  uniqueChunks : ℕ
  dedupChunks : ℕ
  totalApparentBytes : ℕ
  uniqueBytes : ℕ
  dedupBytes : ℕ
  deriving DecidableEq, Repr

structure Export where
  seenChunks : List String
  entries : List TarEntry
  stats : ExportStats

namespace Export
variable (libs : ArchiveLibs)

/-- The hash of a file, which is empty if hashing is switched off. -/
def fileHash (f : StoredFile) : String :=
  if libs.hashingEnabled then hexEncode (libs.blake3 f.data) else ""

/-- The text of a reference: path, hash and size. -/
def manifestEntry (rel : RelPath) (hash : String) (size : ℕ) : Bytes :=
  List.intercalate (asciiBytes "/") (lossyPath rel) ++ asciiBytes "|" ++ asciiBytes hash ++
    asciiBytes "|" ++ asciiBytes (toString size) ++ asciiBytes "\n"

/-- Adds a file, or a reference if its hash has been seen. -/
def addFile (rel : RelPath) (f : StoredFile) (x : Export) : Export :=
  let size := f.data.length
  let stats := { x.stats with
    totalFiles := x.stats.totalFiles + 1
    totalApparentBytes := x.stats.totalApparentBytes + size }
  let hash := fileHash libs f
  if hash ≠ "" ∧ hash ∈ x.seenChunks then
    { x with
      entries := x.entries ++ [⟨dedupDir :: lossyPath rel, ⟨manifestEntry rel hash size, 0o644, 0⟩⟩]
      stats := { stats with
        dedupChunks := stats.dedupChunks + 1
        dedupBytes := stats.dedupBytes + size } }
  else
    { seenChunks := if hash ≠ "" then x.seenChunks ++ [hash] else x.seenChunks
      entries := x.entries ++ [⟨lossyPath rel, f⟩]
      stats := { stats with
        uniqueChunks := stats.uniqueChunks + 1
        uniqueBytes := stats.uniqueBytes + size } }

def addSummary (d : SnapshotDir) (x : Export) : Export :=
  { x with
    entries := x.entries ++ (d.summary.map fun f => ⟨[metaDir, d.name, summaryFile], f⟩).toList }

def addSnapshot (x : Export) (d : SnapshotDir) : Export :=
  let x := x.addSummary d
  match d.tree with
  | none => x
  | some files =>
    let x := files.foldl (fun x f => x.addFile libs (d.name :: treeDir :: f.1) f.2) x
    { x with stats := { x.stats with snapshotsExported := x.stats.snapshotsExported + 1 } }

end Export

namespace VersionStore
variable {libs : ArchiveLibs}

/-- All snapshots, or the one with the given timestamp. -/
def exported (store : VersionStore libs) (timestampFilter : Option Bytes) :
    Option (List SnapshotDir) :=
  match timestampFilter with
  | none => some store.snapshots
  | some ts =>
    match store.snapshots.find? fun d => d.name = ts with
    | some d => some [d]
    | none => none

/-- The index is the first entry. -/
def exportIndex (store : VersionStore libs) : Export :=
  ⟨[], (store.index.map fun f => (⟨[indexFile], f⟩ : TarEntry)).toList, ⟨0, 0, 0, 0, 0, 0, 0⟩⟩

def exportSnapshots (store : VersionStore libs) (snapshots : List SnapshotDir) : Export :=
  snapshots.foldl (Export.addSnapshot libs) store.exportIndex

/-- The archive with the statistics; an error if the snapshot is not found. -/
def exportTar (store : VersionStore libs) (timestampFilter : Option Bytes) :
    Option (Bytes × ExportStats) :=
  (store.exported timestampFilter).map fun snapshots =>
    let x := store.exportSnapshots snapshots
    (libs.pack x.entries, x.stats)

end VersionStore

/-! ## Import -/

structure ImportStats where
  filesRestored : ℕ
  bytesRestored : ℕ
  dedupRefs : ℕ
  metadataFiles : ℕ
  deriving DecidableEq, Repr

/-- The files below the root of the store into which is imported. -/
structure Import where
  files : List (RelPath × StoredFile)
  stats : ImportStats

namespace Import

/-- Writes a file over another one, but neither over a directory nor below a file. -/
def unpack (x : Import) (dest : RelPath) (f : StoredFile) : Option Import :=
  if dest = [] ∨ ∃ g ∈ x.files, g.1 ≠ dest ∧ ¬ Separate g.1 dest then none
  else some { x with files := x.files.filter (fun g => g.1 ≠ dest) ++ [(dest, f)] }

/-- The path without the directories of the summaries in front. -/
def trimMeta : RelPath → RelPath
  | c :: d :: cs => if c = metaDir then trimMeta (d :: cs) else c :: d :: cs
  | p => p

def addMetadata (x : Import) : Import :=
  { x with stats := { x.stats with metadataFiles := x.stats.metadataFiles + 1 } }

def addRestored (size : ℕ) (x : Import) : Import :=
  { x with stats := { x.stats with
      filesRestored := x.stats.filesRestored + 1
      bytesRestored := x.stats.bytesRestored + size } }

/-- References are counted and left out. -/
def addEntry (x : Import) (e : TarEntry) : Option Import :=
  let path := lossyPath e.path
  if path = [indexFile] then (x.unpack [indexFile] e.file).map addMetadata
  else if path.head? = some metaDir ∧ 1 < path.length then
    (x.unpack [(trimMeta path).headD [], summaryFile] e.file).map addMetadata
  else if path.head? = some dedupDir ∧ 1 < path.length then
    some { x with stats := { x.stats with dedupRefs := x.stats.dedupRefs + 1 } }
  else (x.unpack path e.file).map (addRestored e.file.data.length)

/-- The entries one by one; the import ends at the first that cannot be written. -/
def addEntries : List TarEntry → Import → Import × Bool
  | [], x => (x, true)
  | e :: es, x =>
    match x.addEntry e with
    | none => (x, false)
    | some x => addEntries es x

/-- The tree of a snapshot: paths and contents. -/
def tree (x : Import) (name : Bytes) : List (RelPath × Bytes) :=
  x.files.filterMap fun f =>
    match f.1 with
    | c :: d :: path => if c = name ∧ d = treeDir then some (path, f.2.data) else none
    | _ => none

end Import

/-- The import into an empty store. -/
def importTar (libs : ArchiveLibs) (archive : Bytes) : Import × Bool :=
  Import.addEntries (libs.archived archive) ⟨[], ⟨0, 0, 0, 0⟩⟩

/-! ## Paths -/

theorem separate_cons {a b : Bytes} {p q : RelPath} :
    Separate (a :: p) (b :: q) ↔ a ≠ b ∨ Separate p q := by
  unfold Separate
  by_cases hab : a = b
  · simp [hab, List.cons_prefix_cons]
  · simp [hab, Ne.symm hab, List.cons_prefix_cons]

theorem Separate.ne {p q : RelPath} (h : Separate p q) : p ≠ q := by
  rintro rfl
  exact h.1 List.prefix_rfl

theorem lossyPath_lossyPath (p : RelPath) : lossyPath (lossyPath p) = lossyPath p := by
  rw [lossyPath, lossyPath, List.map_map]
  refine List.map_congr_left fun c _ => ?_
  exact Text.lossy_eq_self (Text.isUtf8_lossy c)

theorem lossyPath_eq_self {p : RelPath} (h : ∀ c ∈ p, Text.isUtf8 c = true) : lossyPath p = p := by
  calc p.map Text.lossy = p.map id := List.map_congr_left fun c hc => Text.lossy_eq_self (h c hc)
    _ = p := List.map_id p

theorem isUtf8_of_mem_lossyPath {p : RelPath} {c : Bytes} (h : c ∈ lossyPath p) :
    Text.isUtf8 c = true := by
  obtain ⟨b, -, rfl⟩ := List.mem_map.mp h
  exact Text.isUtf8_lossy b

/-- The names that a store and its archives add to the paths of files are texts. -/
theorem isUtf8_names :
    ∀ c ∈ [indexFile, summaryFile, treeDir, metaDir, dedupDir], Text.isUtf8 c = true := by
  decide +kernel

theorem summaryFile_ne_treeDir : summaryFile ≠ treeDir := by decide +kernel

/-! ## What an import restores -/

namespace Import

/-- Where an entry is unpacked to. -/
def target (e : TarEntry) : Option (RelPath × StoredFile) :=
  let path := lossyPath e.path
  if path = [indexFile] then some ([indexFile], e.file)
  else if path.head? = some metaDir ∧ 1 < path.length then
    some ([(trimMeta path).headD [], summaryFile], e.file)
  else if path.head? = some dedupDir ∧ 1 < path.length then none
  else some (path, e.file)

/-- An entry changes the files by its target only. -/
theorem addEntry_eq (x : Import) (e : TarEntry) :
    (x.addEntry e).map Import.files =
      match target e with
      | none => some x.files
      | some t => (x.unpack t.1 t.2).map Import.files := by
  unfold addEntry target
  dsimp only
  split_ifs
  · simp only [Option.map_map]
    rfl
  · simp only [Option.map_map]
    rfl
  · rfl
  · simp only [Option.map_map]
    rfl

theorem mem_files_unpack {x x' : Import} {dest : RelPath} {f : StoredFile}
    (h : x.unpack dest f = some x') {g : RelPath × StoredFile} (hg : g ∈ x'.files) :
    g ∈ x.files ∨ g = (dest, f) := by
  unfold unpack at h
  split_ifs at h
  cases h
  rcases List.mem_append.mp hg with hg | hg
  · exact .inl (List.mem_filter.mp hg).1
  · exact .inr (List.mem_singleton.mp hg)

/-- Only targets are restored. -/
theorem mem_files_addEntries {es : List TarEntry} {x : Import} {g : RelPath × StoredFile}
    (hg : g ∈ (addEntries es x).1.files) : g ∈ x.files ∨ g ∈ es.filterMap target := by
  induction es generalizing x with
  | nil => exact .inl hg
  | cons e es ih =>
    have heq := addEntry_eq x e
    cases hx : x.addEntry e with
    | none =>
      rw [addEntries, hx] at hg
      exact .inl hg
    | some x' =>
      rw [addEntries, hx] at hg
      rw [hx, Option.map_some] at heq
      have hrest : g ∈ es.filterMap target → g ∈ (e :: es).filterMap target := by
        intro hmem
        rw [List.filterMap_cons]
        cases target e with
        | none => exact hmem
        | some t => exact List.mem_cons_of_mem _ hmem
      rcases ih hg with hold | hnew
      · cases ht : target e with
        | none =>
          rw [ht] at heq
          exact .inl (Option.some.inj heq ▸ hold)
        | some t =>
          rw [ht] at heq
          obtain ⟨x'', hunpack, hfiles⟩ := Option.map_eq_some_iff.mp heq.symm
          rcases mem_files_unpack hunpack (hfiles.symm ▸ hold) with hg' | rfl
          · exact .inl hg'
          · refine .inr ?_
            rw [List.filterMap_cons, ht]
            exact List.mem_cons_self ..
      · exact .inr (hrest hnew)

/-- Targets that do not stand in each other's way are all restored. -/
theorem addEntries_of_separate (es : List TarEntry) (x : Import)
    (hne : ∀ t ∈ es.filterMap target, t.1 ≠ [])
    (hsep : ((x.files ++ es.filterMap target).map Prod.fst).Pairwise Separate) :
    (addEntries es x).2 = true ∧ (addEntries es x).1.files = x.files ++ es.filterMap target := by
  induction es generalizing x with
  | nil => exact ⟨rfl, (List.append_nil _).symm⟩
  | cons e es ih =>
    have heq := addEntry_eq x e
    cases ht : target e with
    | none =>
      rw [ht] at heq
      obtain ⟨x', hx, hfiles⟩ := Option.map_eq_some_iff.mp heq
      rw [List.filterMap_cons, ht] at hne hsep ⊢
      rw [addEntries, hx]
      rw [← hfiles] at hsep ⊢
      exact ih x' hne hsep
    | some t =>
      rw [ht] at heq
      rw [List.filterMap_cons, ht] at hne hsep ⊢
      dsimp only at hne hsep ⊢
      have hfree : ∀ g ∈ x.files, Separate g.1 t.1 := by
        intro g hg
        rw [List.map_append, List.pairwise_append] at hsep
        exact hsep.2.2 g.1 (List.mem_map_of_mem hg) t.1 (by simp)
      have hunpack : (x.unpack t.1 t.2).map Import.files = some (x.files ++ [t]) := by
        have hkeep : x.files.filter (fun g => g.1 ≠ t.1) = x.files := by
          refine List.filter_eq_self.mpr fun g hg => ?_
          simpa using (hfree g hg).ne
        rw [unpack, if_neg]
        · rw [Option.map_some, hkeep]
        · rintro (hnil | ⟨g, hg, -, hnot⟩)
          · exact hne t (List.mem_cons_self ..) hnil
          · exact hnot (hfree g hg)
      obtain ⟨x', hx, hfiles⟩ := Option.map_eq_some_iff.mp (heq.trans hunpack)
      rw [addEntries, hx]
      have hih := ih x' (fun t' ht' => hne t' (List.mem_cons_of_mem _ ht')) (by
        rw [hfiles, List.append_assoc]
        exact hsep)
      rw [hfiles, List.append_assoc] at hih
      exact hih

theorem mem_tree {x : Import} {name : Bytes} {p : RelPath} {data : Bytes} :
    (p, data) ∈ x.tree name ↔ ∃ f, (name :: treeDir :: p, f) ∈ x.files ∧ f.data = data := by
  unfold tree
  rw [List.mem_filterMap]
  constructor
  · rintro ⟨⟨path, f⟩, hmem, heq⟩
    dsimp only at heq
    split at heq
    · split_ifs at heq with hpath
      cases heq
      obtain ⟨rfl, rfl⟩ := hpath
      exact ⟨f, hmem, rfl⟩
    · cases heq
  · rintro ⟨f, hmem, rfl⟩
    exact ⟨_, hmem, by simp⟩

end Import

/-! ## What an export offers -/

/-- What is relied on: hashes have 32 bytes, and timestamps are texts and not the names of other
things in a store or an archive. -/
structure ArchiveLibs.Lawful (libs : ArchiveLibs) : Prop where
  hash_length : ∀ data, (libs.blake3 data).length = 32
  timestamp : ∀ name, libs.isTimestamp name = true →
    Text.isUtf8 name = true ∧ name ≠ indexFile ∧ name ≠ metaDir ∧ name ≠ dedupDir

namespace Export
variable (libs : ArchiveLibs)

/-- The hashes that have been seen after a file. -/
def see (seen : List String) (f : StoredFile) : List String :=
  if fileHash libs f ≠ "" ∧ fileHash libs f ∈ seen then seen
  else if fileHash libs f ≠ "" then seen ++ [fileHash libs f] else seen

/-- The files that are stored with their data. -/
def dataFiles : List String → List (RelPath × StoredFile) → List (RelPath × StoredFile)
  | _, [] => []
  | seen, f :: fs =>
    if fileHash libs f.2 ≠ "" ∧ fileHash libs f.2 ∈ seen then dataFiles seen fs
    else f :: dataFiles (see libs seen f.2) fs

/-- The files of a snapshot with their paths below the root of the store. -/
def keyed (d : SnapshotDir) : List (RelPath × StoredFile) :=
  d.files.map fun f => (d.name :: treeDir :: f.1, f.2)

def summaryTarget (d : SnapshotDir) : List (RelPath × StoredFile) :=
  (d.summary.map fun f => ([d.name, summaryFile], f)).toList

/-- The targets of snapshots, after those with the given hashes. -/
def targets : List String → List SnapshotDir → List (RelPath × StoredFile)
  | _, [] => []
  | seen, d :: ds =>
    summaryTarget d ++ (dataFiles libs seen (keyed d)).map (Prod.map lossyPath id) ++
      targets ((keyed d).foldl (fun seen f => see libs seen f.2) seen) ds

section Targets
variable {libs} {x : Export} {d : SnapshotDir}

theorem target_summary (hd : libs.isTimestamp d.name = true) (hlibs : libs.Lawful)
    (f : StoredFile) :
    Import.target ⟨[metaDir, d.name, summaryFile], f⟩ = some ([d.name, summaryFile], f) := by
  obtain ⟨hutf8, -, hmeta, -⟩ := hlibs.timestamp d.name hd
  have hpath : lossyPath [metaDir, d.name, summaryFile] = [metaDir, d.name, summaryFile] := by
    refine lossyPath_eq_self ?_
    simp only [List.mem_cons, List.not_mem_nil, or_false]
    rintro c (rfl | rfl | rfl)
    · exact isUtf8_names _ (by simp)
    · exact hutf8
    · exact isUtf8_names _ (by simp)
  have htrim : Import.trimMeta [metaDir, d.name, summaryFile] = [d.name, summaryFile] := by
    rw [Import.trimMeta, if_pos rfl, Import.trimMeta, if_neg hmeta]
  simp only [Import.target, hpath, htrim]
  rw [if_neg (by simp), if_pos (by simp)]
  rfl

theorem target_reference (rel : RelPath) (hrel : rel ≠ []) (f : StoredFile) :
    Import.target ⟨dedupDir :: lossyPath rel, f⟩ = none := by
  have hpath : lossyPath (dedupDir :: lossyPath rel) = dedupDir :: lossyPath rel := by
    rw [lossyPath, List.map_cons, ← lossyPath, lossyPath_lossyPath,
      Text.lossy_eq_self (isUtf8_names dedupDir (by simp))]
  have hpos := List.length_pos_iff.mpr hrel
  have hmeta : dedupDir ≠ metaDir := by decide +kernel
  simp only [Import.target, hpath]
  rw [if_neg, if_neg (by simp [hmeta]), if_pos]
  · simp [lossyPath, hpos]
  · simp [lossyPath, hrel]

theorem target_data (hd : libs.isTimestamp d.name = true) (hlibs : libs.Lawful) (p : RelPath)
    (f : StoredFile) :
    Import.target ⟨lossyPath (d.name :: treeDir :: p), f⟩ =
      some (lossyPath (d.name :: treeDir :: p), f) := by
  obtain ⟨hutf8, -, hmeta, hdedup⟩ := hlibs.timestamp d.name hd
  have hname : Text.lossy d.name = d.name := Text.lossy_eq_self hutf8
  simp only [Import.target, lossyPath_lossyPath]
  rw [if_neg, if_neg, if_neg]
  · simp [lossyPath, hname, hdedup]
  · simp [lossyPath, hname, hmeta]
  · simp [lossyPath]

theorem addFile_targets (hd : libs.isTimestamp d.name = true) (hlibs : libs.Lawful) (x : Export)
    (p : RelPath) (f : StoredFile) :
    (x.addFile libs (d.name :: treeDir :: p) f).entries.filterMap Import.target =
        x.entries.filterMap Import.target ++
          (dataFiles libs x.seenChunks [(d.name :: treeDir :: p, f)]).map (Prod.map lossyPath id) ∧
      (x.addFile libs (d.name :: treeDir :: p) f).seenChunks = see libs x.seenChunks f := by
  by_cases hseen : fileHash libs f ≠ "" ∧ fileHash libs f ∈ x.seenChunks
  · simp only [addFile, dataFiles, see, if_pos hseen, List.filterMap_append, List.filterMap_cons,
      target_reference _ (List.cons_ne_nil _ _)]
    exact ⟨rfl, trivial⟩
  · simp only [addFile, dataFiles, see, if_neg hseen, List.filterMap_append, List.filterMap_cons,
      target_data hd hlibs]
    exact ⟨rfl, trivial⟩

theorem foldl_addFile_targets (hd : libs.isTimestamp d.name = true) (hlibs : libs.Lawful)
    (files : List (RelPath × StoredFile)) (x : Export) :
    (files.foldl (fun x f => x.addFile libs (d.name :: treeDir :: f.1) f.2) x).entries.filterMap
        Import.target =
      x.entries.filterMap Import.target ++ (dataFiles libs x.seenChunks
        (files.map fun f => (d.name :: treeDir :: f.1, f.2))).map (Prod.map lossyPath id) ∧
      (files.foldl (fun x f => x.addFile libs (d.name :: treeDir :: f.1) f.2) x).seenChunks =
        files.foldl (fun seen f => see libs seen f.2) x.seenChunks := by
  induction files generalizing x with
  | nil => exact ⟨(List.append_nil _).symm, rfl⟩
  | cons f files ih =>
    obtain ⟨hentries, hseen⟩ := addFile_targets hd hlibs x f.1 f.2
    obtain ⟨hentries', hseen'⟩ := ih (x.addFile libs (d.name :: treeDir :: f.1) f.2)
    rw [List.foldl_cons, List.foldl_cons]
    refine ⟨?_, by rw [hseen', hseen]⟩
    rw [hentries', hentries, hseen, List.append_assoc, ← List.map_append, List.map_cons]
    congr 2
    by_cases hdup : fileHash libs f.2 ≠ "" ∧ fileHash libs f.2 ∈ x.seenChunks
    · simp only [dataFiles, see, if_pos hdup, List.nil_append]
    · simp only [dataFiles, if_neg hdup, List.cons_append, List.nil_append]

theorem addSnapshot_targets (hd : libs.isTimestamp d.name = true) (hlibs : libs.Lawful)
    (x : Export) :
    (x.addSnapshot libs d).entries.filterMap Import.target =
        x.entries.filterMap Import.target ++ (summaryTarget d ++
          (dataFiles libs x.seenChunks (keyed d)).map (Prod.map lossyPath id)) ∧
      (x.addSnapshot libs d).seenChunks =
        (keyed d).foldl (fun seen f => see libs seen f.2) x.seenChunks := by
  have hsummary : (x.addSummary d).entries.filterMap Import.target =
      x.entries.filterMap Import.target ++ summaryTarget d := by
    rw [addSummary, List.filterMap_append, summaryTarget]
    congr 1
    cases d.summary with
    | none => rfl
    | some f => simp [target_summary hd hlibs]
  unfold addSnapshot
  cases htree : d.tree with
  | none =>
    simp only [keyed, SnapshotDir.files, htree, Option.getD_none, List.map_nil, dataFiles,
      List.append_nil, List.foldl_nil]
    exact ⟨hsummary, rfl⟩
  | some files =>
    obtain ⟨hentries, hseen⟩ := foldl_addFile_targets hd hlibs files (x.addSummary d)
    simp only [keyed, SnapshotDir.files, htree, Option.getD_some, List.foldl_map]
    refine ⟨?_, hseen⟩
    rw [hentries, hsummary, List.append_assoc]
    rfl

theorem foldl_addSnapshot_targets (hlibs : libs.Lawful) {ds : List SnapshotDir}
    (hds : ∀ d ∈ ds, libs.isTimestamp d.name = true) (x : Export) :
    (ds.foldl (addSnapshot libs) x).entries.filterMap Import.target =
      x.entries.filterMap Import.target ++ targets libs x.seenChunks ds := by
  induction ds generalizing x with
  | nil => exact (List.append_nil _).symm
  | cons d ds ih =>
    obtain ⟨hentries, hseen⟩ := addSnapshot_targets (hds d (List.mem_cons_self ..)) hlibs x
    rw [List.foldl_cons, ih (fun d' hd' => hds d' (List.mem_cons_of_mem _ hd')), hentries, hseen,
      targets, List.append_assoc, List.append_assoc]

theorem dataFiles_append (seen : List String) (fs gs : List (RelPath × StoredFile)) :
    dataFiles libs seen (fs ++ gs) = dataFiles libs seen fs ++
      dataFiles libs (fs.foldl (fun seen f => see libs seen f.2) seen) gs := by
  induction fs generalizing seen with
  | nil => rfl
  | cons f fs ih =>
    by_cases hdup : fileHash libs f.2 ≠ "" ∧ fileHash libs f.2 ∈ seen
    · simp only [List.cons_append, dataFiles, if_pos hdup, ih, List.foldl_cons, see]
    · simp only [List.cons_append, dataFiles, if_neg hdup, ih, List.foldl_cons]

/-- A target is that of a summary or of a file that is stored with its data. -/
theorem mem_targets {seen : List String} {ds : List SnapshotDir} {t : RelPath × StoredFile}
    (h : t ∈ targets libs seen ds) :
    (∃ d ∈ ds, t ∈ summaryTarget d) ∨
      ∃ k ∈ dataFiles libs seen (ds.flatMap keyed), t = (lossyPath k.1, k.2) := by
  induction ds generalizing seen with
  | nil => cases h
  | cons d ds ih =>
    rw [List.flatMap_cons, dataFiles_append]
    simp only [targets, List.mem_append] at h
    rcases h with (h | h) | h
    · exact .inl ⟨d, List.mem_cons_self .., h⟩
    · obtain ⟨k, hk, rfl⟩ := List.mem_map.mp h
      exact .inr ⟨k, List.mem_append_left _ hk, rfl⟩
    · rcases ih h with ⟨d', hd', ht⟩ | ⟨k, hk, rfl⟩
      · exact .inl ⟨d', List.mem_cons_of_mem _ hd', ht⟩
      · exact .inr ⟨k, List.mem_append_right _ hk, rfl⟩

theorem dataFiles_sublist (seen : List String) (fs : List (RelPath × StoredFile)) :
    (dataFiles libs seen fs).Sublist fs := by
  induction fs generalizing seen with
  | nil => exact List.Sublist.slnil
  | cons f fs ih =>
    unfold dataFiles
    split_ifs
    · exact (ih seen).cons f
    · exact (ih _).cons_cons f

theorem mem_see {seen : List String} {f : StoredFile}
    (hnew : ¬ (fileHash libs f ≠ "" ∧ fileHash libs f ∈ seen)) {hash : String} (hhash : hash ≠ "") :
    hash ∈ see libs seen f ↔ hash ∈ seen ∨ hash = fileHash libs f := by
  rw [see, if_neg hnew]
  split_ifs with hempty
  · rw [List.mem_append, List.mem_singleton]
  · rw [not_not.mp hempty]
    simp [hhash]

/-- All files are stored with their data if and only if no hash occurs again. -/
theorem dataFiles_eq_self_iff {seen : List String} {fs : List (RelPath × StoredFile)} :
    dataFiles libs seen fs = fs ↔
      (∀ f ∈ fs, fileHash libs f.2 ≠ "" → fileHash libs f.2 ∉ seen) ∧
        fs.Pairwise fun f g => fileHash libs g.2 ≠ "" → fileHash libs g.2 ≠ fileHash libs f.2 := by
  induction fs generalizing seen with
  | nil => simp [dataFiles]
  | cons f fs ih =>
    by_cases hdup : fileHash libs f.2 ≠ "" ∧ fileHash libs f.2 ∈ seen
    · rw [dataFiles, if_pos hdup]
      constructor
      · intro heq
        have hlen := (@dataFiles_sublist libs seen fs).length_le
        rw [heq, List.length_cons] at hlen
        omega
      · rintro ⟨hfresh, -⟩
        exact absurd hdup.2 (hfresh f (List.mem_cons_self ..) hdup.1)
    · rw [dataFiles, if_neg hdup, List.cons.injEq, ih, List.pairwise_cons, List.forall_mem_cons]
      have hsee : (∀ g ∈ fs, fileHash libs g.2 ≠ "" → fileHash libs g.2 ∉ see libs seen f.2) ↔
          (∀ g ∈ fs, fileHash libs g.2 ≠ "" → fileHash libs g.2 ∉ seen) ∧
            ∀ g ∈ fs, fileHash libs g.2 ≠ "" → fileHash libs g.2 ≠ fileHash libs f.2 := by
        rw [← forall₂_and]
        refine forall₂_congr fun g _ => ?_
        rw [← imp_and]
        refine imp_congr_right fun hg => ?_
        rw [mem_see hdup hg, not_or]
      rw [hsee]
      have hf : fileHash libs f.2 ≠ "" → fileHash libs f.2 ∉ seen := fun hne hmem =>
        hdup ⟨hne, hmem⟩
      constructor
      · rintro ⟨-, ⟨hfresh, hne⟩, hpairwise⟩
        exact ⟨⟨hf, hfresh⟩, hne, hpairwise⟩
      · rintro ⟨⟨-, hfresh⟩, hne, hpairwise⟩
        exact ⟨rfl, ⟨hfresh, hne⟩, hpairwise⟩

theorem targets_eq {seen : List String} {ds : List SnapshotDir}
    (hdata : dataFiles libs seen (ds.flatMap keyed) = ds.flatMap keyed)
    (hpath : ∀ k ∈ ds.flatMap keyed, lossyPath k.1 = k.1) :
    targets libs seen ds = ds.flatMap fun d => summaryTarget d ++ keyed d := by
  induction ds generalizing seen with
  | nil => rfl
  | cons d ds ih =>
    rw [List.flatMap_cons, dataFiles_append] at hdata
    rw [List.flatMap_cons] at hpath
    obtain ⟨hhead, htail⟩ := List.append_inj hdata (by
      have hhead := (@dataFiles_sublist libs seen (keyed d)).length_le
      have htail := (@dataFiles_sublist libs
        ((keyed d).foldl (fun seen f => see libs seen f.2) seen) (ds.flatMap keyed)).length_le
      have hlen := congrArg List.length hdata
      rw [List.length_append, List.length_append] at hlen
      omega)
    have hlossy : (keyed d).map (Prod.map lossyPath id) = keyed d := by
      refine (List.map_congr_left fun k hk => ?_).trans (List.map_id _)
      exact Prod.ext (hpath k (List.mem_append_left _ hk)) rfl
    rw [targets, hhead, hlossy, ih htail (fun k hk => hpath k (List.mem_append_right _ hk)),
      List.flatMap_cons]

theorem fileHash_ne_empty (hlibs : libs.Lawful) (henabled : libs.hashingEnabled = true)
    (f : StoredFile) : fileHash libs f ≠ "" := by
  intro hempty
  rw [fileHash, if_pos henabled] at hempty
  have hdecode := hexDecodeChars_hexEncode (libs.blake3 f.data)
  have hlen := hlibs.hash_length f.data
  rw [hempty] at hdecode
  rw [← Option.some.inj hdecode] at hlen
  cases hlen

theorem fileHash_eq_iff (henabled : libs.hashingEnabled = true) {f g : StoredFile} :
    fileHash libs f = fileHash libs g ↔ libs.blake3 f.data = libs.blake3 g.data := by
  rw [fileHash, fileHash, if_pos henabled, if_pos henabled]
  constructor
  · intro heq
    have hdecode := hexDecodeChars_hexEncode (libs.blake3 f.data)
    rw [heq, hexDecodeChars_hexEncode] at hdecode
    exact (Option.some.inj hdecode).symm
  · intro heq
    rw [heq]

/-- From the start, all files are stored with their data if and only if no two of them have
the same hash, or hashing is switched off. -/
theorem dataFiles_nil_eq_self_iff (hlibs : libs.Lawful) {fs : List (RelPath × StoredFile)} :
    dataFiles libs [] fs = fs ↔
      (libs.hashingEnabled = true → (fs.map fun f => libs.blake3 f.2.data).Nodup) := by
  rw [dataFiles_eq_self_iff]
  by_cases henabled : libs.hashingEnabled = true
  · simp only [List.not_mem_nil, not_false_eq_true, implies_true, true_and, henabled,
      forall_const, ne_eq, fileHash_ne_empty hlibs henabled, fileHash_eq_iff henabled,
      List.Nodup, List.pairwise_map]
    exact ⟨fun h => h.imp Ne.symm, fun h => h.imp Ne.symm⟩
  · simp only [List.not_mem_nil, not_false_eq_true, implies_true, true_and, henabled,
      false_imp_iff, iff_true, fileHash, Bool.false_eq_true, if_false, ne_eq, not_true]
    exact List.pairwise_of_forall fun _ _ => trivial

/-! ### Places in the store -/

theorem name_of_mem_targets {t : RelPath × StoredFile} (ht : t ∈ summaryTarget d ++ keyed d) :
    ∃ p, t.1 = d.name :: p := by
  rcases List.mem_append.mp ht with ht | ht
  · obtain ⟨f, -, rfl⟩ := Option.map_eq_some_iff.mp (Option.mem_toList.mp ht)
    exact ⟨_, rfl⟩
  · obtain ⟨f, -, rfl⟩ := List.mem_map.mp ht
    exact ⟨_, rfl⟩

theorem separate_keyed (htree : (d.files.map Prod.fst).Pairwise Separate) :
    (keyed d).Pairwise fun k l => Separate k.1 l.1 := by
  rw [keyed, List.pairwise_map]
  refine (List.pairwise_map.mp htree).imp fun hsep => ?_
  exact separate_cons.mpr (.inr (separate_cons.mpr (.inr hsep)))

/-- Nothing of a snapshot stands in the way of anything else in it. -/
theorem separate_snapshot (htree : (d.files.map Prod.fst).Pairwise Separate) :
    (summaryTarget d ++ keyed d).Pairwise fun k l => Separate k.1 l.1 := by
  refine List.pairwise_append.mpr ⟨?_, separate_keyed htree, ?_⟩
  · rw [summaryTarget]
    cases d.summary with
    | none => exact List.Pairwise.nil
    | some f => exact List.pairwise_singleton _ _
  · intro s hs k hk
    obtain ⟨f, -, rfl⟩ := Option.map_eq_some_iff.mp (Option.mem_toList.mp hs)
    obtain ⟨g, -, rfl⟩ := List.mem_map.mp hk
    exact separate_cons.mpr (.inr (separate_cons.mpr (.inl summaryFile_ne_treeDir)))

/-- Nothing of one snapshot stands in the way of anything of another. -/
theorem separate_snapshots {ds : List SnapshotDir}
    (hnames : (ds.map SnapshotDir.name).Nodup)
    (htrees : ∀ d ∈ ds, (d.files.map Prod.fst).Pairwise Separate) :
    (ds.flatMap fun d => summaryTarget d ++ keyed d).Pairwise fun k l => Separate k.1 l.1 := by
  refine List.pairwise_flatMap.mpr ⟨fun d hd => separate_snapshot (htrees d hd), ?_⟩
  refine (List.pairwise_map.mp hnames).imp fun hne t ht u hu => ?_
  obtain ⟨p, hp⟩ := name_of_mem_targets ht
  obtain ⟨q, hq⟩ := name_of_mem_targets hu
  rw [hp, hq]
  exact separate_cons.mpr (.inl hne)

end Targets

end Export

namespace VersionStore
variable {libs : ArchiveLibs} {store : VersionStore libs} {timestampFilter : Option Bytes}
  {ds : List SnapshotDir}

theorem exported_sublist (hds : store.exported timestampFilter = some ds) :
    ds.Sublist store.snapshots := by
  unfold exported at hds
  cases timestampFilter with
  | none =>
    cases hds
    exact List.Sublist.refl _
  | some ts =>
    dsimp only at hds
    cases hfind : store.snapshots.find? fun d => d.name = ts with
    | none =>
      rw [hfind] at hds
      cases hds
    | some d =>
      rw [hfind] at hds
      cases hds
      exact List.singleton_sublist.mpr (List.mem_of_find?_eq_some hfind)

def indexTarget (store : VersionStore libs) : List (RelPath × StoredFile) :=
  (store.index.map fun f => ([indexFile], f)).toList

/-- What is in an archive of snapshots is to be put to these places. -/
def targets (store : VersionStore libs) (ds : List SnapshotDir) : List (RelPath × StoredFile) :=
  store.indexTarget ++ Export.targets libs [] ds

theorem path_indexTarget {t : RelPath × StoredFile} (ht : t ∈ store.indexTarget) :
    t.1 = [indexFile] := by
  obtain ⟨f, -, rfl⟩ := Option.map_eq_some_iff.mp (Option.mem_toList.mp ht)
  rfl

/-- Packing and compression are undone for the entries of an export. -/
def RoundTrips (store : VersionStore libs) (ds : List SnapshotDir) : Prop :=
  libs.archived (libs.pack (store.exportSnapshots ds).entries) = (store.exportSnapshots ds).entries

theorem archived_exportTar (hlibs : libs.Lawful) (hds : store.exported timestampFilter = some ds)
    (hround : store.RoundTrips ds) {archive : Bytes} {stats : ExportStats}
    (h : store.exportTar timestampFilter = some (archive, stats)) :
    (libs.archived archive).filterMap Import.target = store.targets ds := by
  rw [exportTar, hds, Option.map_some] at h
  cases h
  rw [hround, exportSnapshots, Export.foldl_addSnapshot_targets hlibs fun d hd =>
    store.timestamps d ((exported_sublist hds).subset hd)]
  rw [targets]
  congr 1
  unfold exportIndex indexTarget
  have hindex : lossyPath [indexFile] = [indexFile] :=
    lossyPath_eq_self fun c hc => isUtf8_names c (List.mem_singleton.mp hc ▸ by simp)
  cases store.index with
  | none => rfl
  | some f => simp [Import.target, hindex]

/-- The files of the exported snapshots. -/
def exportedFiles (ds : List SnapshotDir) : List (RelPath × StoredFile) :=
  ds.flatMap SnapshotDir.files

/-- All names of the exported files are texts, and their hashes are different if hashing is
switched on. -/
def Unambiguous (libs : ArchiveLibs) (files : List (RelPath × StoredFile)) : Prop :=
  (∀ f ∈ files, ∀ c ∈ f.1, Text.isUtf8 c = true) ∧
    (libs.hashingEnabled = true → (files.map fun f => libs.blake3 f.2.data).Nodup)

/-- The import succeeds and every snapshot has the same paths with the same contents. -/
def Restored (x : Import × Bool) (ds : List SnapshotDir) : Prop :=
  x.2 = true ∧ ∀ d ∈ ds, ∀ p data,
    (p, data) ∈ x.1.tree d.name ↔ ∃ f, (p, f) ∈ d.files ∧ f.data = data

theorem mem_flatMap_keyed {k : RelPath × StoredFile} :
    k ∈ ds.flatMap Export.keyed ↔
      ∃ d ∈ ds, ∃ f ∈ d.files, k = (d.name :: treeDir :: f.1, f.2) := by
  simp only [List.mem_flatMap, Export.keyed, List.mem_map, eq_comm]

theorem map_blake3_keyed (libs : ArchiveLibs) (ds : List SnapshotDir) :
    (ds.flatMap Export.keyed).map (fun k => libs.blake3 k.2.data) =
      (exportedFiles ds).map fun f => libs.blake3 f.2.data := by
  simp only [exportedFiles, List.map_flatMap, Export.keyed, List.map_map]
  rfl

/-- What is below the tree of a snapshot is the target of a file of a snapshot. -/
theorem data_of_mem_targets {name : Bytes} {p : RelPath} {f : StoredFile}
    (h : (name :: treeDir :: p, f) ∈ store.targets ds) :
    ∃ k ∈ Export.dataFiles libs [] (ds.flatMap Export.keyed),
      name :: treeDir :: p = lossyPath k.1 ∧ f = k.2 := by
  rcases List.mem_append.mp h with h | h
  · cases path_indexTarget h
  · rcases Export.mem_targets h with ⟨d, -, hsummary⟩ | ⟨k, hk, heq⟩
    · obtain ⟨g, -, heq⟩ := Option.map_eq_some_iff.mp (Option.mem_toList.mp hsummary)
      simp only [Prod.mk.injEq, List.cons.injEq] at heq
      exact absurd heq.1.2.1 summaryFile_ne_treeDir
    · exact ⟨k, hk, Prod.mk.inj heq⟩

theorem lossyPath_keyed (hlibs : libs.Lawful) (hds : ∀ d ∈ ds, libs.isTimestamp d.name = true)
    (hutf8 : ∀ f ∈ exportedFiles ds, ∀ c ∈ f.1, Text.isUtf8 c = true)
    {k : RelPath × StoredFile} (hk : k ∈ ds.flatMap Export.keyed) : lossyPath k.1 = k.1 := by
  obtain ⟨d, hd, f, hf, rfl⟩ := mem_flatMap_keyed.mp hk
  refine lossyPath_eq_self fun c hc => ?_
  simp only [List.mem_cons] at hc
  rcases hc with rfl | rfl | hc
  · exact (hlibs.timestamp d.name (hds d hd)).1
  · exact isUtf8_names _ (by simp)
  · exact hutf8 f (List.mem_flatMap.mpr ⟨d, hd, hf⟩) c hc

theorem nodup_keyed (hnames : (ds.map SnapshotDir.name).Nodup)
    (htrees : ∀ d ∈ ds, (d.files.map Prod.fst).Pairwise Separate) :
    ((ds.flatMap Export.keyed).map Prod.fst).Nodup := by
  have hsub : (ds.flatMap Export.keyed).Sublist
      (ds.flatMap fun d => Export.summaryTarget d ++ Export.keyed d) :=
    List.Sublist.flatMap_right ds fun d _ => List.sublist_append_right _ _
  rw [List.Nodup, List.pairwise_map]
  exact ((Export.separate_snapshots hnames htrees).sublist hsub).imp Separate.ne

/-- The index and the snapshots do not stand in each other's way. -/
theorem separate_targets (hlibs : libs.Lawful) (hsub : ds.Sublist store.snapshots) :
    (store.indexTarget ++ ds.flatMap fun d => Export.summaryTarget d ++ Export.keyed d).Pairwise
      fun k l => Separate k.1 l.1 := by
  have hnames := (hsub.map SnapshotDir.name).nodup store.names
  refine List.pairwise_append.mpr ⟨?_, Export.separate_snapshots hnames
    fun d hd => store.trees d (hsub.subset hd), ?_⟩
  · rw [indexTarget]
    cases store.index with
    | none => exact List.Pairwise.nil
    | some f => exact List.pairwise_singleton _ _
  · intro t ht u hu
    obtain ⟨d, hd, hu⟩ := List.mem_flatMap.mp hu
    obtain ⟨p, hp⟩ := Export.name_of_mem_targets hu
    obtain ⟨-, hindex, -⟩ := hlibs.timestamp _ (store.timestamps d (hsub.subset hd))
    rw [path_indexTarget ht, hp]
    exact separate_cons.mpr (.inl hindex.symm)

theorem targets_ne_nil {t : RelPath × StoredFile}
    (ht : t ∈ store.indexTarget ++ ds.flatMap fun d => Export.summaryTarget d ++ Export.keyed d) :
    t.1 ≠ [] := by
  rcases List.mem_append.mp ht with ht | ht
  · rw [path_indexTarget ht]
    exact List.cons_ne_nil _ _
  · obtain ⟨d, -, ht⟩ := List.mem_flatMap.mp ht
    obtain ⟨p, hp⟩ := Export.name_of_mem_targets ht
    rw [hp]
    exact List.cons_ne_nil _ _

section Exported
variable {archive : Bytes} {stats : ExportStats}

/-- A file that is found again has been stored with its data, under its own path. -/
theorem data_of_restored (hlibs : libs.Lawful) (hds : store.exported timestampFilter = some ds)
    (hround : store.RoundTrips ds)
    (h : store.exportTar timestampFilter = some (archive, stats))
    (hrestored : Restored (importTar libs archive) ds) {d : SnapshotDir} (hd : d ∈ ds)
    {f : RelPath × StoredFile} (hf : f ∈ d.files) :
    ∃ k ∈ Export.dataFiles libs [] (ds.flatMap Export.keyed),
      d.name :: treeDir :: f.1 = lossyPath k.1 := by
  obtain ⟨g, hg, -⟩ := Import.mem_tree.mp ((hrestored.2 d hd f.1 f.2.data).mpr ⟨f.2, hf, rfl⟩)
  rcases Import.mem_files_addEntries hg with hg | hg
  · cases hg
  · rw [archived_exportTar hlibs hds hround h] at hg
    obtain ⟨k, hk, hpath, -⟩ := data_of_mem_targets hg
    exact ⟨k, hk, hpath⟩

/-- Nothing is found again of names that are no texts, nor of repeated contents. -/
theorem unambiguous_of_restored (hlibs : libs.Lawful)
    (hds : store.exported timestampFilter = some ds)
    (hround : store.RoundTrips ds)
    (h : store.exportTar timestampFilter = some (archive, stats))
    (hrestored : Restored (importTar libs archive) ds) : Unambiguous libs (exportedFiles ds) := by
  have hsub := exported_sublist hds
  have hutf8 : ∀ f ∈ exportedFiles ds, ∀ c ∈ f.1, Text.isUtf8 c = true := by
    intro f hf c hc
    obtain ⟨d, hd, hf⟩ := List.mem_flatMap.mp hf
    obtain ⟨k, -, hpath⟩ := data_of_restored hlibs hds hround h hrestored hd hf
    refine isUtf8_of_mem_lossyPath (p := k.1) ?_
    rw [← hpath]
    exact List.mem_cons_of_mem _ (List.mem_cons_of_mem _ hc)
  have hlossy := fun {k} hk => lossyPath_keyed (k := k) hlibs
    (fun d hd => store.timestamps d (hsub.subset hd)) hutf8 hk
  have hnodup := nodup_keyed ((hsub.map SnapshotDir.name).nodup store.names)
    fun d hd => store.trees d (hsub.subset hd)
  have hdata : ∀ k ∈ ds.flatMap Export.keyed,
      k ∈ Export.dataFiles libs [] (ds.flatMap Export.keyed) := by
    intro k hk
    obtain ⟨d, hd, f, hf, rfl⟩ := mem_flatMap_keyed.mp hk
    obtain ⟨l, hl, hpath⟩ := data_of_restored hlibs hds hround h hrestored hd hf
    have hl' := (Export.dataFiles_sublist _ _).subset hl
    rw [hlossy hl'] at hpath
    exact List.inj_on_of_nodup_map hnodup hk hl' hpath ▸ hl
  have hall : Export.dataFiles libs [] (ds.flatMap Export.keyed) = ds.flatMap Export.keyed :=
    (Export.dataFiles_sublist _ _).eq_of_length_le
      (List.subperm_of_subset (List.Nodup.of_map _ hnodup) hdata).length_le
  refine ⟨hutf8, ?_⟩
  rw [← map_blake3_keyed]
  exact (Export.dataFiles_nil_eq_self_iff hlibs).mp hall

/-- Files with texts as names and with different contents are all found again. -/
theorem restored_of_unambiguous (hlibs : libs.Lawful)
    (hds : store.exported timestampFilter = some ds)
    (hround : store.RoundTrips ds)
    (h : store.exportTar timestampFilter = some (archive, stats))
    (hfiles : Unambiguous libs (exportedFiles ds)) : Restored (importTar libs archive) ds := by
  have hsub := exported_sublist hds
  have hnames := (hsub.map SnapshotDir.name).nodup store.names
  have htimestamps := fun d hd => store.timestamps d (hsub.subset hd)
  have hdata : Export.dataFiles libs [] (ds.flatMap Export.keyed) = ds.flatMap Export.keyed := by
    rw [Export.dataFiles_nil_eq_self_iff hlibs, map_blake3_keyed]
    exact hfiles.2
  have htargets : store.targets ds =
      store.indexTarget ++ ds.flatMap fun d => Export.summaryTarget d ++ Export.keyed d := by
    rw [targets, Export.targets_eq hdata fun k hk =>
      lossyPath_keyed hlibs htimestamps hfiles.1 hk]
  have harchived := (archived_exportTar hlibs hds hround h).trans htargets
  obtain ⟨hok, himported⟩ := Import.addEntries_of_separate (libs.archived archive)
    ⟨[], ⟨0, 0, 0, 0⟩⟩ (harchived ▸ fun t ht => targets_ne_nil ht) (by
      rw [harchived, List.pairwise_map]
      exact separate_targets hlibs hsub)
  rw [harchived, List.nil_append, ← htargets] at himported
  refine ⟨hok, fun d hd p data => ?_⟩
  rw [Import.mem_tree, importTar, himported]
  refine exists_congr fun f => and_congr_left fun _ => ?_
  constructor
  · intro hmem
    obtain ⟨k, hk, hpath, rfl⟩ := data_of_mem_targets hmem
    rw [hdata] at hk
    rw [lossyPath_keyed hlibs htimestamps hfiles.1 hk] at hpath
    obtain ⟨d', hd', f, hf, rfl⟩ := mem_flatMap_keyed.mp hk
    simp only [List.cons.injEq, true_and] at hpath
    obtain ⟨hname, rfl⟩ := hpath
    rw [List.inj_on_of_nodup_map hnames hd hd' hname]
    exact hf
  · intro hmem
    rw [htargets]
    refine List.mem_append_right _ (List.mem_flatMap.mpr ⟨d, hd, List.mem_append_right _ ?_⟩)
    exact List.mem_map_of_mem (f := fun f => (d.name :: treeDir :: f.1, f.2)) hmem

/-- Exported snapshots are found again with all their files if and only if the names of the
files are texts and no two of them have the same hash. -/
theorem importTar_exportTar_iff (hlibs : libs.Lawful)
    (hds : store.exported timestampFilter = some ds)
    (hround : store.RoundTrips ds)
    (h : store.exportTar timestampFilter = some (archive, stats)) :
    Restored (importTar libs archive) ds ↔ Unambiguous libs (exportedFiles ds) :=
  ⟨unambiguous_of_restored hlibs hds hround h, restored_of_unambiguous hlibs hds hround h⟩

end Exported

/-! ## A store -/

deriving instance Encodable for StoredFile
deriving instance Encodable for TarEntry

def firstName : Bytes := asciiBytes "2026-01-02T030405"
def secondName : Bytes := asciiBytes "2026-01-03T030405"

/-- An archive with the number of the entries as its length, and a hash of the first bytes. -/
def sampleLibs : ArchiveLibs where
  hashingEnabled := true
  blake3 := fun data => (data ++ List.replicate 32 0).take 32
  isTimestamp := fun name => name = firstName ∨ name = secondName
  pack := fun es => List.replicate (Encodable.encode es) 0
  archived := fun archive => (Encodable.decode archive.length).getD []

theorem sampleLibs_lawful : sampleLibs.Lawful where
  hash_length := by
    intro data
    simp [sampleLibs]
  timestamp := by
    intro name hname
    simp only [sampleLibs, decide_eq_true_eq] at hname
    rcases hname with rfl | rfl <;> decide +kernel

theorem sampleLibs_roundTrips (store : VersionStore sampleLibs) (ds : List SnapshotDir) :
    store.RoundTrips ds := by
  simp [RoundTrips, sampleLibs]

/-- Two snapshots with one file each. -/
def sampleStore (first second : Bytes) : VersionStore sampleLibs where
  index := none
  snapshots :=
    [⟨firstName, none, some [([asciiBytes "a.txt"], ⟨first, 0o644, 7⟩)]⟩,
      ⟨secondName, none, some [([asciiBytes "a.txt"], ⟨second, 0o644, 8⟩)]⟩]
  timestamps := by
    intro d hd
    simp only [List.mem_cons, List.not_mem_nil, or_false] at hd
    rcases hd with rfl | rfl <;> simp [sampleLibs]
  names := (by decide +kernel : [firstName, secondName].Nodup)
  trees := by
    intro d hd
    simp only [List.mem_cons, List.not_mem_nil, or_false] at hd
    rcases hd with rfl | rfl <;> exact List.pairwise_singleton _ _

theorem changedFile_restored : ∃ archive stats,
    (sampleStore [1] [2]).exportTar none = some (archive, stats) ∧
      Restored (importTar sampleLibs archive) (sampleStore [1] [2]).snapshots := by
  have hexport : (sampleStore [1] [2]).exportTar none = some (_, _) := rfl
  refine ⟨_, _, hexport, ?_⟩
  refine (importTar_exportTar_iff sampleLibs_lawful rfl
    (sampleLibs_roundTrips _ _) hexport).mpr ⟨?_, fun _ => ?_⟩
  · decide +kernel
  · decide +kernel

/-- A file that has not changed since the first snapshot is missing from the second one. -/
theorem unchangedFile_lost : ∃ archive stats,
    (sampleStore [1] [1]).exportTar none = some (archive, stats) ∧
      (importTar sampleLibs archive).2 = true ∧
      (importTar sampleLibs archive).1.tree firstName = [([asciiBytes "a.txt"], [1])] ∧
      (importTar sampleLibs archive).1.tree secondName = [] ∧
      ¬ Restored (importTar sampleLibs archive) (sampleStore [1] [1]).snapshots := by
  have himport : importTar sampleLibs
      (sampleLibs.pack ((sampleStore [1] [1]).exportSnapshots (sampleStore [1] [1]).snapshots).entries) =
      Import.addEntries ((sampleStore [1] [1]).exportSnapshots
        (sampleStore [1] [1]).snapshots).entries ⟨[], ⟨0, 0, 0, 0⟩⟩ := by
    rw [importTar, sampleLibs_roundTrips]
  refine ⟨_, _, rfl, ?_⟩
  rw [himport]
  have hlost : (Import.addEntries ((sampleStore [1] [1]).exportSnapshots
      (sampleStore [1] [1]).snapshots).entries ⟨[], ⟨0, 0, 0, 0⟩⟩).1.tree secondName = [] := by
    decide +kernel
  refine ⟨by decide +kernel, by decide +kernel, hlost, ?_⟩
  rintro ⟨-, hrestored⟩
  have hfile := (hrestored _ (List.mem_cons_of_mem _ (List.mem_cons_self ..))
    [asciiBytes "a.txt"] [1]).mpr ⟨_, List.mem_cons_self .., rfl⟩
  rw [show SnapshotDir.name _ = secondName from rfl, hlost] at hfile
  cases hfile

end VersionStore

end Foxing
