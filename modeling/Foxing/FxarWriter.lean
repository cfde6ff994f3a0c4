import Foxing.FxarFormat

/-!
# Writing an archive

The files of the snapshots are cut into chunks, which are hashed and compressed
one by one; chunks that occur more than once are stored once. The archive is then
emitted in one pass, in which the header does not know the offsets yet. A writer
that can seek puts them into the header afterwards, one that cannot appends them
in a footer. Files that cannot be read are left out, so that a snapshot is given
by the files that can.
-/
namespace Foxing

/-- A file of a snapshot, with its path below the tree of the snapshot. -/
structure SnapshotFile where
  relPath : String
  data : Bytes
  mode : ℕ
  mtime : ℤ
  uid : ℕ
  gid : ℕ
  xattr : List (String × Bytes)
  deriving DecidableEq, Repr

structure Snapshot where
  name : String
  files : List SnapshotFile
  deriving DecidableEq, Repr

/-- A chunk with its hash, its size and its compressed data. -/
structure ProcessedChunk where
  blake3Hash : Bytes
  size : ℕ
  compressed : Bytes
  deriving DecidableEq, Repr

structure ProcessedFile where
  archivePath : String
  size : ℕ
  mode : ℕ
  mtime : ℤ
  uid : ℕ
  gid : ℕ
  blake3 : Bytes
  chunks : List ProcessedChunk
  xattr : List (String × String)
  deriving DecidableEq, Repr

structure FxarExportStats where
  snapshotsExported : ℕ
  totalFiles : ℕ
  totalApparentBytes : ℕ
  chunkCount : ℕ
  uniqueChunks : ℕ
  dedupChunks : ℕ
  archiveBytes : ℕ
  deriving DecidableEq, Repr

def archivePath (snapName : String) (f : SnapshotFile) : String :=
  snapName ++ "/tree/" ++ f.relPath

namespace FxarLibs
variable (libs : FxarLibs) (compress : String)

def processChunk (slice : Bytes) : ProcessedChunk where
  blake3Hash := libs.blake3 slice
  size := slice.length % 2 ^ 32
  compressed := libs.compressChunk slice compress

def processFile (snapName : String) (f : SnapshotFile) : ProcessedFile where
  archivePath := archivePath snapName f
  size := f.data.length
  mode := f.mode
  mtime := f.mtime
  uid := f.uid
  gid := f.gid
  blake3 := libs.blake3 f.data
  chunks := (GearChunker.default.chunks f.data).map (libs.processChunk compress)
  xattr := (f.xattr.filter fun x => startsWith x.1 "user.foxing").map fun x =>
    (x.1, libs.hexEncode x.2)

def collectAndProcessFiles (snaps : List Snapshot) : List ProcessedFile :=
  snaps.flatMap fun s => s.files.map (libs.processFile compress s.name)

end FxarLibs

/-! ## Deduplication -/

/-- The tables while the files are merged. -/
structure DedupTables where
  seenChunks : Bytes → Option ℕ
  chunkEntries : List ChunkIndexEntry
  chunkDataBlobs : List Bytes
  manifestEntries : List FxarManifestEntry
  stats : FxarExportStats

namespace DedupTables

def empty : DedupTables := ⟨fun _ => none, [], [], [], ⟨0, 0, 0, 0, 0, 0, 0⟩⟩

/-- The index of a chunk; a chunk that has not been seen is added. -/
def addChunk (c : ProcessedChunk) (t : DedupTables) : ℕ × DedupTables :=
  match t.seenChunks c.blake3Hash with
  | some i => (i, { t with stats := { t.stats with
      dedupChunks := t.stats.dedupChunks + 1
      chunkCount := t.stats.chunkCount + 1 } })
  | none =>
    let i := t.chunkEntries.length
    (i, { t with
      seenChunks := Function.update t.seenChunks c.blake3Hash (some i)
      chunkEntries := t.chunkEntries ++
        [⟨c.blake3Hash, c.size, 0, c.compressed.length % 2 ^ 32⟩]
      chunkDataBlobs := t.chunkDataBlobs ++ [c.compressed]
      stats := { t.stats with
        uniqueChunks := t.stats.uniqueChunks + 1
        chunkCount := t.stats.chunkCount + 1 } })

def addChunks : List ProcessedChunk → DedupTables → List ℕ × DedupTables
  | [], t => ([], t)
  | c :: cs, t =>
    let (i, t) := t.addChunk c
    let (is, t) := addChunks cs t
    (i :: is, t)

def addFile (libs : FxarLibs) (t : DedupTables) (f : ProcessedFile) : DedupTables :=
  let t := { t with stats := { t.stats with
    totalFiles := t.stats.totalFiles + 1
    totalApparentBytes := t.stats.totalApparentBytes + f.size } }
  let (chunks, t) := addChunks f.chunks t
  { t with manifestEntries := t.manifestEntries ++
    [⟨f.archivePath, f.size, f.mode, f.mtime, f.uid, f.gid, libs.hexEncode f.blake3, chunks,
      f.xattr⟩] }

end DedupTables

namespace FxarLibs
variable (libs : FxarLibs) (compress created : String)

def buildDedupTables (processed : List ProcessedFile) : DedupTables :=
  processed.foldl (DedupTables.addFile libs) .empty

/-! ## Emission -/

/-- The chunks follow each other from the given offset on. -/
def assignOffsets : ℕ → List ChunkIndexEntry → List Bytes → List ChunkIndexEntry
  | dataOffset, entry :: entries, blob :: blobs =>
    { entry with offset := dataOffset } :: assignOffsets (dataOffset + blob.length) entries blobs
  | _, _, _ => []

/-- The header with all its offsets, and the bytes that are written, with the header
as it is known at first. -/
def emitArchive (snapNames : List String) (t : DedupTables) (appendFooter : Bool) :
    Option (FxarHeader × Bytes) := do
  let placeholder := { FxarHeader.new (compressFlag compress) .default with
    chunkCount := t.chunkEntries.length }
  let manifestJson ← libs.toJson ⟨fxarVersion, created, t.manifestEntries, snapNames⟩
  let manifestCompressed := libs.compressChunk manifestJson compress
  let indexOffset := headerSize + (16 + manifestCompressed.length)
  let indexSize := t.chunkEntries.length * chunkIndexEntrySize
  let entries := assignOffsets (indexOffset + indexSize) t.chunkEntries t.chunkDataBlobs
  let header := { placeholder with
    manifestOffset := headerSize
    manifestSize := manifestCompressed.length
    indexOffset := indexOffset
    indexSize := indexSize }
  let footer : FxarFooter := ⟨headerSize, indexOffset, header.chunkCount,
    FxarFooter.computeChecksum headerSize indexOffset header.chunkCount⟩
  let body := Bytes.ofNat 8 manifestCompressed.length ++ (Bytes.ofNat 8 manifestJson.length ++
    (manifestCompressed ++ (entries.flatMap ChunkIndexEntry.writeTo ++
    (t.chunkDataBlobs.flatten ++ if appendFooter then footer.writeTo else []))))
  return (header, placeholder.writeTo ++ body)

/-- The archive as a stream, and what is reported of it. -/
def writeArchive (snaps : List Snapshot) : Option (Bytes × FxarExportStats) := do
  let t := libs.buildDedupTables (libs.collectAndProcessFiles compress snaps)
  let (_, bytes) ← libs.emitArchive compress created (snaps.map Snapshot.name) t true
  return (bytes, { t.stats with
    snapshotsExported := snaps.length
    archiveBytes := bytes.length })

/-- The header is written again over the first one. -/
def writeArchiveSeekable (snaps : List Snapshot) : Option (Bytes × FxarExportStats) := do
  let t := libs.buildDedupTables (libs.collectAndProcessFiles compress snaps)
  let (header, bytes) ← libs.emitArchive compress created (snaps.map Snapshot.name) t false
  return (header.writeTo ++ bytes.drop headerSize, { t.stats with
    snapshotsExported := snaps.length
    archiveBytes := bytes.length })

end FxarLibs

end Foxing
