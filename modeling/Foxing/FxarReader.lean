import Foxing.FxarFormat
import Foxing.Identity

/-!
# Reading an archive

One reader goes by the offsets of the header, in a file it can seek in; the other
takes the parts as they come in a stream. Both restore files only after the hash
of the whole file has been compared. Restoring all files loads the chunks in a
thread of its own while files are put together; how far it has come when a file
is looked at is a parameter. Files are restored in parallel, so that the order of
the results is of no account. The bypass for network file systems, time stamps
and the summary's ratio are left out, and an allocation that is too large for the
machine is a read that finds too little.
-/
namespace Foxing

/-- The directory that a path is in; the root and the empty path have none. -/
def Path.parentDir? (p : Path) : Option Path :=
  if p = [] ∨ p = ["/"] then none else some p.dropLast

/-- What the file system below the target answers. -/
structure Disk where
  available : Option ℕ
  mkdirOk : Path → Bool
  writeOk : Path → Bool

/-- A disk on which everything can be done. -/
def permissiveDisk : Disk := ⟨none, fun _ => true, fun _ => true⟩

structure FxarImportStats where
  filesRestored : ℕ
  bytesRestored : ℕ
  chunksVerified : ℕ
  chunksFailed : ℕ
  deriving DecidableEq, Repr

/-- What an import has done: the directories it has asked for, the entries it has
written with their data, and its result. -/
structure Extraction where
  madeDirs : List Path
  writes : List (FxarManifestEntry × Bytes)
  result : Except ReadStop FxarImportStats

def Extraction.stopped (stop : ReadStop) : Extraction := ⟨[], [], .error stop⟩

/-- Where an entry is restored to. -/
def FxarManifestEntry.dest (target : Path) (entry : FxarManifestEntry) : Path :=
  Path.join target entry.path

/-- The parent directories of the entries, up to the first one that cannot be made,
and whether all of them could. -/
def makeParents (disk : Disk) (target : Path) : List FxarManifestEntry → List Path × Bool
  | [] => ([], true)
  | entry :: entries =>
    match (entry.dest target).parentDir? with
    | none => makeParents disk target entries
    | some parent =>
      if disk.mkdirOk parent then
        let (dirs, ok) := makeParents disk target entries
        (parent :: dirs, ok)
      else ([parent], false)

/-! ## Putting files together -/

/-- The result of putting chunks together: data, a chunk that is not there yet, or
an index that is out of range. -/
inductive Assembled where
  | data (bytes : Bytes)
  | missing
  | outOfRange
  deriving DecidableEq, Repr

/-- The number of chunks that were found, and what has come of them. -/
def assemble (slot : ℕ → Option (Option Bytes)) : List ℕ → ℕ × Assembled
  | [] => (0, .data [])
  | i :: is =>
    match slot i with
    | none => (0, .outOfRange)
    | some none => (0, .missing)
    | some (some chunk) =>
      match assemble slot is with
      | (n, .data bytes) => (n + 1, .data (chunk ++ bytes))
      | (n, r) => (n + 1, r)

/-- What has come of an entry: the data that was written, the chunks that were found,
whether it counts as failed, and whether the import has come to an end there. -/
structure EntryResult where
  written : Option Bytes
  verified : ℕ
  failed : ℕ
  stop : Option ReadStop
  deriving DecidableEq, Repr

/-- The results of all entries; one that stops the import leaves no result. -/
def collectResults (results : List (FxarManifestEntry × EntryResult)) :
    Except ReadStop FxarImportStats :=
  match results.findSome? fun x => x.2.stop with
  | some stop => .error stop
  | none =>
    let restored := results.filter fun x => x.2.written.isSome
    .ok {
      filesRestored := restored.length
      bytesRestored := (restored.map fun x => x.1.size).sum % 2 ^ 64
      chunksVerified := (results.map fun x => x.2.verified).sum
      chunksFailed := (results.map fun x => x.2.failed).sum }

def writesOf (results : List (FxarManifestEntry × EntryResult)) :
    List (FxarManifestEntry × Bytes) :=
  results.filterMap fun x => x.2.written.map fun data => (x.1, data)

/-- Ten megabytes more than the sizes in the manifest have to be free. -/
def hasSpace (disk : Disk) (files : List FxarManifestEntry) : Bool :=
  let totalBytes := (files.map FxarManifestEntry.size).sum % 2 ^ 64
  match disk.available with
  | some avail => !decide (avail < (totalBytes + 10 * 1024 * 1024) % 2 ^ 64)
  | none => true

namespace FxarLibs
variable (libs : FxarLibs)

/-- The hash that the manifest has for an entry; one that cannot be decoded is empty. -/
def expectedHash (entry : FxarManifestEntry) : Bytes := (libs.hexDecode entry.blake3).getD []

/-- The capacity of the buffer is taken from the manifest. -/
def restoreEntry (disk : Disk) (target : Path) (slot : ℕ → Option (Option Bytes))
    (entry : FxarManifestEntry) : EntryResult :=
  if entry.size ≥ 2 ^ 63 then ⟨none, 0, 0, some .panic⟩
  else
    match assemble slot entry.chunks with
    | (n, .outOfRange) => ⟨none, n, 0, some .panic⟩
    | (n, .missing) => ⟨none, n, 1, none⟩
    | (n, .data data) =>
      if libs.blake3 data ≠ libs.expectedHash entry then ⟨none, n, 1, none⟩
      else if disk.writeOk (entry.dest target) then ⟨some data, n, 0, none⟩
      else ⟨none, n, 1, none⟩

/-! ## Parts of an archive -/

/-- The manifest with the lengths in front of it. -/
def readManifestBlock (flags : ℕ) : ByteReader ReadStop FxarManifest := do
  let compressedLen ← ByteReader.readExact .unexpectedEof 8
  let _ ← ByteReader.readExact .unexpectedEof 8
  let compressed ← ByteReader.readExact .unexpectedEof compressedLen.toNat
  let json ← libs.decompressChunk compressed flags
  match libs.ofJson json with
  | some manifest => return manifest
  | none => throw .invalidData

/-- A chunk at the front of the stream, checked against its index entry. -/
def readChunk (flags : ℕ) (entry : ChunkIndexEntry) : ByteReader ReadStop Bytes := do
  let compressed ← ByteReader.readExact .unexpectedEof entry.compressedSize
  let data ← libs.decompressChunk compressed flags
  if libs.blake3 data ≠ entry.blake3Hash then throw .invalidData
  return data

def readChunks (flags : ℕ) : List ChunkIndexEntry → ByteReader ReadStop (List Bytes)
  | [] => pure []
  | entry :: entries => do
    let data ← libs.readChunk flags entry
    let rest ← readChunks flags entries
    return data :: rest

def readHeader : ByteReader ReadStop FxarHeader := do
  let header ← FxarHeader.readFrom
  if header.version ≠ fxarVersion then throw .invalidData
  return header

/-- A header of this version is read back as it was written. -/
theorem readHeader_writeTo {h : FxarHeader} (hf : h.Fits) (hv : h.version = fxarVersion)
    (rest : Bytes) : readHeader (h.writeTo ++ rest) = .ok (h, rest) := by
  unfold readHeader
  rw [ByteReader.run_bind_ok (FxarHeader.readFrom_writeTo hf rest), if_neg (not_not.mpr hv)]
  rfl

end FxarLibs

/-! ## Random access -/

structure FxarReader where
  bytes : Bytes
  header : FxarHeader

namespace FxarReader

def «open» (bytes : Bytes) : Except ReadStop FxarReader := do
  let (header, _) ← FxarLibs.readHeader bytes
  return ⟨bytes, header⟩

theorem open_writeTo {h : FxarHeader} (hf : h.Fits) (hv : h.version = fxarVersion)
    (rest : Bytes) : FxarReader.open (h.writeTo ++ rest) = .ok ⟨h.writeTo ++ rest, h⟩ := by
  unfold FxarReader.open
  rw [FxarLibs.readHeader_writeTo hf hv]
  rfl

variable (libs : FxarLibs) (r : FxarReader)

def readManifest : Except ReadStop FxarManifest := do
  let (manifest, _) ← libs.readManifestBlock r.header.flags (r.bytes.drop r.header.manifestOffset)
  return manifest

def readChunkIndex : Except ReadStop (List ChunkIndexEntry) := do
  let (index, _) ← ByteReader.replicate ChunkIndexEntry.readFrom r.header.chunkCount
    (r.bytes.drop r.header.indexOffset)
  return index

def readChunkData (entry : ChunkIndexEntry) : Except ReadStop Bytes := do
  let (data, _) ← libs.readChunk r.header.flags entry (r.bytes.drop entry.offset)
  return data

/-- An index that is out of range is a panic. -/
def readFileChunks (index : List ChunkIndexEntry) : List ℕ → Except ReadStop Bytes
  | [] => .ok []
  | i :: is =>
    match index[i]? with
    | none => .error .panic
    | some entry => do
      let data ← r.readChunkData libs entry
      let rest ← readFileChunks index is
      return data ++ rest

def restoreFile (filePath : String) : Except ReadStop Bytes := do
  let manifest ← r.readManifest libs
  let index ← r.readChunkIndex
  match manifest.files.find? fun f => f.path = filePath with
  | none => .error .notFound
  | some entry =>
    if entry.size ≥ 2 ^ 63 then .error .panic
    else
      let data ← r.readFileChunks libs index entry.chunks
      if libs.blake3 data ≠ libs.expectedHash entry then .error .invalidData
      else .ok data

/-- The compressed chunks, read one after the other at their offsets. -/
def readRawChunks : List ChunkIndexEntry → Except ReadStop (List Bytes)
  | [] => .ok []
  | entry :: entries => do
    let (compressed, _) ← ByteReader.readExact ReadStop.unexpectedEof entry.compressedSize
      (r.bytes.drop entry.offset)
    let rest ← readRawChunks entries
    return compressed :: rest

/-- What the thread that loads the chunks makes of one: nothing, if it cannot be
decompressed. A wrong hash is only logged. -/
def loadedChunk (compressed : Bytes) : Bytes :=
  match libs.decompressChunk compressed r.header.flags with
  | .ok data => data
  | .error _ => []

/-- The number of chunks that a file waits for. -/
def neededChunks (entry : FxarManifestEntry) : ℕ := (entry.chunks.foldl max 0 + 1) % 2 ^ 64

/-- A file is put together after the wait for its chunks; `loaded` is how far the
other thread has come by then. -/
def restoreWaiting (disk : Disk) (target : Path) (raw : List Bytes) (loaded : ℕ)
    (entry : FxarManifestEntry) : EntryResult :=
  if neededChunks entry > raw.length then ⟨none, 0, 0, some .hang⟩
  else
    let available := max (neededChunks entry) (min loaded raw.length)
    libs.restoreEntry disk target (fun i => (raw[i]?).map fun compressed =>
      if i < available then some (r.loadedChunk libs compressed) else none) entry

def restoreAll (disk : Disk) (target : Path) (loaded : ℕ → ℕ) : Extraction :=
  match r.readManifest libs with
  | .error stop => .stopped stop
  | .ok manifest =>
    if !hasSpace disk manifest.files then .stopped .other
    else
      match r.readChunkIndex with
      | .error stop => .stopped stop
      | .ok index =>
        let (dirs, made) := makeParents disk target manifest.files
        if !made then ⟨dirs, [], .error .other⟩
        else
          match r.readRawChunks index with
          | .error stop => ⟨dirs, [], .error stop⟩
          | .ok raw =>
            let results := manifest.files.zipIdx.map fun x =>
              (x.1, r.restoreWaiting libs disk target raw (loaded x.2) x.1)
            ⟨dirs, writesOf results, collectResults results⟩

end FxarReader

/-! ## Streams -/

namespace FxarLibs
variable (libs : FxarLibs)

/-- The manifest and the chunks of a stream. -/
def readStream : ByteReader ReadStop (FxarManifest × List Bytes) := do
  let header ← readHeader
  let manifest ← libs.readManifestBlock header.flags
  let index ← ByteReader.replicate ChunkIndexEntry.readFrom header.chunkCount
  let chunks ← libs.readChunks header.flags index
  return (manifest, chunks)

def readArchiveStream (bytes : Bytes) (disk : Disk) (target : Path) : Extraction :=
  match libs.readStream bytes with
  | .error stop => .stopped stop
  | .ok ((manifest, chunks), _) =>
    if !hasSpace disk manifest.files then .stopped .other
    else
      let (dirs, made) := makeParents disk target manifest.files
      if !made then ⟨dirs, [], .error .other⟩
      else
        let results := manifest.files.map fun entry =>
          (entry, libs.restoreEntry disk target (fun i => (chunks[i]?).map some) entry)
        ⟨dirs, writesOf results, collectResults results⟩

/-! ## Inspection -/

structure InspectResult where
  version : ℕ
  snapshots : List String
  totalFiles : ℕ
  uniqueFiles : ℕ
  totalApparentBytes : ℕ
  chunkCount : ℕ
  totalChunkBytes : ℕ
  totalCompressedBytes : ℕ
  files : List FxarManifestEntry

def inspectArchive (bytes : Bytes) : Except ReadStop InspectResult := do
  let r ← FxarReader.open bytes
  let manifest ← r.readManifest libs
  let index ← r.readChunkIndex
  return {
    version := r.header.version
    snapshots := manifest.snapshots
    totalFiles := manifest.files.length
    uniqueFiles := (manifest.files.map FxarManifestEntry.blake3).dedup.length
    totalApparentBytes := (manifest.files.map FxarManifestEntry.size).sum % 2 ^ 64
    chunkCount := index.length
    totalChunkBytes := (index.map ChunkIndexEntry.size).sum % 2 ^ 64
    totalCompressedBytes := (index.map ChunkIndexEntry.compressedSize).sum % 2 ^ 64
    files := manifest.files }

end FxarLibs

end Foxing
