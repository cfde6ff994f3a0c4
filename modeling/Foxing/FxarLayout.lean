import Foxing.FxarDedup
import Foxing.FxarReader

/-!
# The layout of an archive

What the writers emit, taken apart: the header, the manifest with its lengths, the
index and the chunks, whose offsets in the index are where they are. The index and
the manifest are read back at the offsets that the header of a seekable archive
has, and in a stream one after the other.
-/
namespace Foxing

/-- The header of an archive of `n` chunks before the offsets are known. -/
def placeholderHeader (compress : String) (n : ℕ) : FxarHeader :=
  { FxarHeader.new (compressFlag compress) .default with chunkCount := n }

/-- The header with the offsets, for a compressed manifest of the given length. -/
def sealedHeader (compress : String) (n manifestLen : ℕ) : FxarHeader :=
  { placeholderHeader compress n with
    manifestOffset := headerSize
    manifestSize := manifestLen
    indexOffset := headerSize + (16 + manifestLen)
    indexSize := n * chunkIndexEntrySize }

/-- Where the chunks begin. -/
def dataStart (n manifestLen : ℕ) : ℕ := headerSize + (16 + manifestLen) + n * chunkIndexEntrySize

def streamFooter (n manifestLen : ℕ) : FxarFooter :=
  ⟨headerSize, headerSize + (16 + manifestLen), n,
    FxarFooter.computeChecksum headerSize (headerSize + (16 + manifestLen)) n⟩

/-- What follows the header. -/
def archiveBody (compressed json : Bytes) (entries : List ChunkIndexEntry) (blobs : List Bytes)
    (tail : Bytes) : Bytes :=
  Bytes.ofNat 8 compressed.length ++ (Bytes.ofNat 8 json.length ++
    (compressed ++ (entries.flatMap ChunkIndexEntry.writeTo ++ (blobs.flatten ++ tail))))

namespace DedupTables

/-- The index of the tables, with its offsets. -/
def index (t : DedupTables) (manifestLen : ℕ) : List ChunkIndexEntry :=
  FxarLibs.assignOffsets (dataStart t.chunkEntries.length manifestLen) t.chunkEntries
    t.chunkDataBlobs

end DedupTables

namespace FxarLibs
variable {libs : FxarLibs} {created : String} {names : List String} {t : DedupTables}
  {json : Bytes}

theorem emitArchive_eq (compress : String)
    (hjson : libs.toJson ⟨fxarVersion, created, t.manifestEntries, names⟩ = some json)
    (appendFooter : Bool) :
    libs.emitArchive compress created names t appendFooter =
      let compressed := libs.compressChunk json compress
      let n := t.chunkEntries.length
      some (sealedHeader compress n compressed.length,
        (placeholderHeader compress n).writeTo ++ archiveBody compressed json
          (t.index compressed.length) t.chunkDataBlobs
          (if appendFooter then (streamFooter n compressed.length).writeTo else [])) := by
  unfold emitArchive
  rw [hjson]
  rfl

/-! ## Offsets -/

theorem length_assignOffsets {entries : List ChunkIndexEntry} {blobs : List Bytes}
    (h : entries.length = blobs.length) (off : ℕ) :
    (assignOffsets off entries blobs).length = entries.length := by
  induction entries generalizing blobs off with
  | nil => rfl
  | cons entry entries ih =>
    cases blobs with
    | nil => simp at h
    | cons blob blobs => simp [assignOffsets, ih (Nat.succ.inj h)]

/-- An entry gets an offset among the chunks and is otherwise left as it is. -/
theorem mem_assignOffsets {entries : List ChunkIndexEntry} {blobs : List Bytes} {off : ℕ}
    {e : ChunkIndexEntry} (h : e ∈ assignOffsets off entries blobs) :
    off ≤ e.offset ∧ e.offset ≤ off + blobs.flatten.length ∧
      ∃ entry ∈ entries, e = { entry with offset := e.offset } := by
  induction entries generalizing blobs off with
  | nil => simp [assignOffsets] at h
  | cons entry entries ih =>
    cases blobs with
    | nil => simp [assignOffsets] at h
    | cons blob blobs =>
      rcases List.mem_cons.mp h with rfl | h
      · exact ⟨Nat.le_refl _, Nat.le_add_right _ _, entry, by simp, rfl⟩
      · obtain ⟨hlow, hhigh, old, hold, heq⟩ := ih h
        rw [List.flatten_cons, List.length_append]
        exact ⟨by omega, by omega, old, by simp [hold], heq⟩

end FxarLibs

/-! ## Well-formed tables -/

/-- The entries have the width of their fields, there is a blob for each of them, and
what has been seen is among them. -/
structure DedupTables.WellFormed (t : DedupTables) : Prop where
  blobs : t.chunkEntries.length = t.chunkDataBlobs.length
  hash : ∀ e ∈ t.chunkEntries, e.blake3Hash.length = 32
  size : ∀ e ∈ t.chunkEntries, e.size < 2 ^ 32
  compressedSize : ∀ e ∈ t.chunkEntries, e.compressedSize < 2 ^ 32
  seen : ∀ h i, t.seenChunks h = some i → i < t.chunkEntries.length

namespace DedupTables
variable {libs : FxarLibs} {compress : String} {t : DedupTables}

theorem wellFormed_empty : empty.WellFormed := by
  constructor <;> simp [empty]

theorem WellFormed.addChunk (h : t.WellFormed) (c : Bytes) :
    (t.addChunk (libs.processChunk compress c)).2.WellFormed := by
  unfold DedupTables.addChunk
  cases hs : t.seenChunks (libs.processChunk compress c).blake3Hash with
  | some i => exact ⟨h.blobs, h.hash, h.size, h.compressedSize, h.seen⟩
  | none =>
    refine ⟨?_, ?_, ?_, ?_, ?_⟩
    · simp [h.blobs]
    · intro e he
      rcases List.mem_append.mp he with he | he
      · exact h.hash e he
      · rw [List.mem_singleton.mp he]
        exact libs.blake3_length c
    · intro e he
      rcases List.mem_append.mp he with he | he
      · exact h.size e he
      · rw [List.mem_singleton.mp he]
        exact Nat.mod_lt _ (by decide)
    · intro e he
      rcases List.mem_append.mp he with he | he
      · exact h.compressedSize e he
      · rw [List.mem_singleton.mp he]
        exact Nat.mod_lt _ (by decide)
    · intro d i hd
      simp only [Function.update_apply] at hd
      rw [List.length_append, List.length_singleton]
      split_ifs at hd with heq
      · cases hd
        omega
      · have := h.seen d i hd
        omega

theorem WellFormed.addChunks (h : t.WellFormed) (cs : List Bytes) :
    (DedupTables.addChunks (cs.map (libs.processChunk compress)) t).2.WellFormed := by
  induction cs generalizing t with
  | nil => exact h
  | cons c cs ih => exact ih (h.addChunk c)

theorem WellFormed.addFile (h : t.WellFormed) (snapName : String) (f : SnapshotFile) :
    (t.addFile libs (libs.processFile compress snapName f)).WellFormed := by
  have hcount : DedupTables.WellFormed { t with stats := { t.stats with
      totalFiles := t.stats.totalFiles + 1
      totalApparentBytes := t.stats.totalApparentBytes + f.data.length } } :=
    ⟨h.blobs, h.hash, h.size, h.compressedSize, h.seen⟩
  have hrun : (DedupTables.addChunks (f.chunks.map (libs.processChunk compress)) _).2.WellFormed :=
    hcount.addChunks f.chunks
  exact ⟨hrun.blobs, hrun.hash, hrun.size, hrun.compressedSize, hrun.seen⟩

/-- The tables of an archive are well formed. -/
theorem wellFormed_buildDedupTables (libs : FxarLibs) (compress : String) (snaps : List Snapshot) :
    (libs.buildDedupTables (libs.collectAndProcessFiles compress snaps)).WellFormed := by
  unfold FxarLibs.buildDedupTables
  rw [FxarLibs.collectAndProcessFiles_eq]
  have hrun : ∀ (jobs : List (String × SnapshotFile)) (t : DedupTables), t.WellFormed →
      ((jobs.map fun job => libs.processFile compress job.1 job.2).foldl
        (DedupTables.addFile libs) t).WellFormed := by
    intro jobs
    induction jobs with
    | nil => exact fun _ h => h
    | cons job jobs ih => exact fun t h => ih _ (h.addFile job.1 job.2)
  exact hrun _ _ wellFormed_empty

theorem length_index (h : t.WellFormed) (manifestLen : ℕ) :
    (t.index manifestLen).length = t.chunkEntries.length :=
  FxarLibs.length_assignOffsets h.blobs _

/-- The index entries fit if the archive does. -/
theorem index_fits (h : t.WellFormed) {manifestLen : ℕ}
    (hsize : dataStart t.chunkEntries.length manifestLen + t.chunkDataBlobs.flatten.length < 2 ^ 64)
    {e : ChunkIndexEntry} (he : e ∈ t.index manifestLen) : e.Fits := by
  obtain ⟨-, hoff, old, hold, heq⟩ := FxarLibs.mem_assignOffsets he
  have hoffset : e.offset < 2 ^ 64 := by omega
  rw [heq]
  exact ⟨h.hash old hold, h.size old hold, hoffset, h.compressedSize old hold⟩

theorem length_index_bytes (h : t.WellFormed) (manifestLen : ℕ) :
    ((t.index manifestLen).flatMap ChunkIndexEntry.writeTo).length =
      t.chunkEntries.length * chunkIndexEntrySize := by
  have hlen : ∀ e ∈ t.index manifestLen, e.writeTo.length = chunkIndexEntrySize := by
    intro e he
    obtain ⟨-, -, old, hold, heq⟩ := FxarLibs.mem_assignOffsets he
    rw [heq]
    exact ChunkIndexEntry.length_writeTo (h.hash old hold)
  rw [List.length_flatMap, List.map_congr_left hlen]
  simp [length_index h]

end DedupTables

/-! ## Reading what was laid out -/

theorem compressFlag_lt (compress : String) : compressFlag compress < 2 ^ 32 := by
  unfold compressFlag
  split_ifs <;> decide

theorem placeholderHeader_fits (compress : String) {n : ℕ} (h : n < 2 ^ 64) :
    (placeholderHeader compress n).Fits where
  version := (by decide : fxarVersion < 2 ^ 32)
  flags := compressFlag_lt compress
  chunkMin := (by decide : GearChunker.default.min < 2 ^ 32)
  chunkMax := (by decide : GearChunker.default.max < 2 ^ 32)
  chunkAvg := (by decide : GearChunker.default.avg < 2 ^ 32)
  indexOffset := (by decide : 0 < 2 ^ 64)
  indexSize := (by decide : 0 < 2 ^ 64)
  manifestOffset := (by decide : 0 < 2 ^ 64)
  manifestSize := (by decide : 0 < 2 ^ 64)
  chunkCount := h

theorem chunkCount_lt {n manifestLen : ℕ} (h : dataStart n manifestLen < 2 ^ 64) : n < 2 ^ 64 := by
  have hn : n ≤ n * chunkIndexEntrySize := Nat.le_mul_of_pos_right n (by decide)
  unfold dataStart at h
  omega

theorem sealedHeader_fits (compress : String) {n manifestLen : ℕ}
    (h : dataStart n manifestLen < 2 ^ 64) : (sealedHeader compress n manifestLen).Fits := by
  have hp := placeholderHeader_fits compress (chunkCount_lt h)
  unfold dataStart at h
  exact {
    version := hp.version
    flags := hp.flags
    chunkMin := hp.chunkMin
    chunkMax := hp.chunkMax
    chunkAvg := hp.chunkAvg
    indexOffset := (by omega : headerSize + (16 + manifestLen) < 2 ^ 64)
    indexSize := (by omega : n * chunkIndexEntrySize < 2 ^ 64)
    manifestOffset := (by decide : headerSize < 2 ^ 64)
    manifestSize := (by omega : manifestLen < 2 ^ 64)
    chunkCount := hp.chunkCount }

namespace FxarLibs
variable (libs : FxarLibs)

/-- The manifest in its compressed form. -/
def decodeManifest (flags : ℕ) (compressed : Bytes) : Except ReadStop FxarManifest :=
  match libs.decompressChunk compressed flags with
  | .error stop => .error stop
  | .ok json => (libs.ofJson json).elim (.error .invalidData) .ok

theorem readManifestBlock_body (flags : ℕ) {compressed : Bytes} (h : compressed.length < 2 ^ 64)
    (json : Bytes) (entries : List ChunkIndexEntry) (blobs : List Bytes) (tail : Bytes) :
    libs.readManifestBlock flags (archiveBody compressed json entries blobs tail) =
      (libs.decodeManifest flags compressed).map fun manifest =>
        (manifest, entries.flatMap ChunkIndexEntry.writeTo ++ (blobs.flatten ++ tail)) := by
  unfold readManifestBlock archiveBody decodeManifest
  have hlen : compressed.length = (Bytes.ofNat 8 compressed.length).toNat := by
    rw [Bytes.toNat_ofNat]
    exact (Nat.mod_eq_of_lt h).symm
  rw [ByteReader.run_bind_ok (ByteReader.readExact_append (Bytes.length_ofNat 8 _) _),
    ByteReader.run_bind_ok (ByteReader.readExact_append (Bytes.length_ofNat 8 _) _),
    ByteReader.run_bind_ok (ByteReader.readExact_append hlen _)]
  cases hd : libs.decompressChunk compressed flags with
  | error stop => rfl
  | ok text =>
    rw [ByteReader.run_bind_liftM_ok]
    dsimp only
    cases libs.ofJson text with
    | none => rfl
    | some manifest => rfl

end FxarLibs

section Layout
variable {libs : FxarLibs} {compress : String} {t : DedupTables} {compressed json : Bytes}

variable (compressed json) in
theorem length_archiveBody (h : t.WellFormed) (tail : Bytes) :
    headerSize + (archiveBody compressed json (t.index compressed.length) t.chunkDataBlobs
      tail).length = dataStart t.chunkEntries.length compressed.length +
        t.chunkDataBlobs.flatten.length + tail.length := by
  unfold archiveBody dataStart
  rw [List.length_append, List.length_append, List.length_append, List.length_append,
    List.length_append, Bytes.length_ofNat, Bytes.length_ofNat, DedupTables.length_index_bytes h]
  omega

/-- The archive with a sealed header. -/
def seekableArchive (compress : String) (t : DedupTables) (compressed json : Bytes) : Bytes :=
  (sealedHeader compress t.chunkEntries.length compressed.length).writeTo ++
    archiveBody compressed json (t.index compressed.length) t.chunkDataBlobs []

/-- The reader of a seekable archive. -/
def seekableReader (compress : String) (t : DedupTables) (compressed json : Bytes) : FxarReader :=
  ⟨seekableArchive compress t compressed json,
    sealedHeader compress t.chunkEntries.length compressed.length⟩

variable (compress json) in
theorem open_seekable (hsize : dataStart t.chunkEntries.length compressed.length < 2 ^ 64) :
    FxarReader.open (seekableArchive compress t compressed json) =
      .ok (seekableReader compress t compressed json) :=
  FxarReader.open_writeTo (sealedHeader_fits compress hsize) rfl _

theorem drop_headerSize (h : FxarHeader) (rest : Bytes) :
    (h.writeTo ++ rest).drop headerSize = rest := by
  rw [← h.length_writeTo, List.drop_left]

variable (compress json) in
theorem readManifest_seekable
    (hsize : dataStart t.chunkEntries.length compressed.length < 2 ^ 64) :
    (seekableReader compress t compressed json).readManifest libs =
      libs.decodeManifest (compressFlag compress) compressed := by
  have hlen : compressed.length < 2 ^ 64 := by
    unfold dataStart at hsize
    omega
  have hbytes : (seekableReader compress t compressed json).bytes.drop
      (seekableReader compress t compressed json).header.manifestOffset =
        (seekableArchive compress t compressed json).drop headerSize := rfl
  have hflags : (seekableReader compress t compressed json).header.flags =
      compressFlag compress := rfl
  rw [FxarReader.readManifest, hbytes, hflags, seekableArchive, drop_headerSize,
    FxarLibs.readManifestBlock_body _ _ hlen]
  cases libs.decodeManifest (compressFlag compress) compressed with
  | error stop => rfl
  | ok manifest => rfl

variable (compress json) in
theorem readChunkIndex_seekable (h : t.WellFormed)
    (hsize : dataStart t.chunkEntries.length compressed.length +
      t.chunkDataBlobs.flatten.length < 2 ^ 64) :
    (seekableReader compress t compressed json).readChunkIndex =
      .ok (t.index compressed.length) := by
  unfold FxarReader.readChunkIndex
  have hdrop : (seekableArchive compress t compressed json).drop
      (headerSize + (16 + compressed.length)) =
        (t.index compressed.length).flatMap ChunkIndexEntry.writeTo ++
          (t.chunkDataBlobs.flatten ++ []) := by
    unfold seekableArchive archiveBody
    rw [← List.drop_drop, drop_headerSize, ← List.append_assoc, ← List.append_assoc]
    refine List.drop_left' ?_
    rw [List.length_append, List.length_append, Bytes.length_ofNat, Bytes.length_ofNat]
  have hread : ByteReader.replicate ChunkIndexEntry.readFrom (t.index compressed.length).length
      ((t.index compressed.length).flatMap ChunkIndexEntry.writeTo ++
        (t.chunkDataBlobs.flatten ++ [])) = .ok (t.index compressed.length, _) :=
    ByteReader.replicate_append (fun e he rest =>
      ChunkIndexEntry.readFrom_writeTo (DedupTables.index_fits h hsize he) rest) _
  rw [DedupTables.length_index h] at hread
  have hbytes : (seekableReader compress t compressed json).bytes.drop
      (seekableReader compress t compressed json).header.indexOffset =
        (seekableArchive compress t compressed json).drop
          (headerSize + (16 + compressed.length)) := rfl
  have hcount : (seekableReader compress t compressed json).header.chunkCount =
      t.chunkEntries.length := rfl
  rw [hbytes, hcount, hdrop, hread]
  rfl

/-- The archive with a footer. -/
def streamingArchive (compress : String) (t : DedupTables) (compressed json : Bytes) : Bytes :=
  (placeholderHeader compress t.chunkEntries.length).writeTo ++
    archiveBody compressed json (t.index compressed.length) t.chunkDataBlobs
      (streamFooter t.chunkEntries.length compressed.length).writeTo

def streamingReader (compress : String) (t : DedupTables) (compressed json : Bytes) : FxarReader :=
  ⟨streamingArchive compress t compressed json, placeholderHeader compress t.chunkEntries.length⟩

variable (compress compressed json) in
theorem open_streaming (h : t.chunkEntries.length < 2 ^ 64) :
    FxarReader.open (streamingArchive compress t compressed json) =
      .ok (streamingReader compress t compressed json) :=
  FxarReader.open_writeTo (placeholderHeader_fits compress h) rfl _

end Layout

/-! ## What both writers emit -/

section Writers
variable {libs : FxarLibs} {compress created : String} {snaps : List Snapshot}

/-- The tables of an archive. -/
def archiveTables (libs : FxarLibs) (compress : String) (snaps : List Snapshot) : DedupTables :=
  libs.buildDedupTables (libs.collectAndProcessFiles compress snaps)

theorem writeArchive_eq {json : Bytes} (hjson : libs.toJson ⟨fxarVersion, created,
      (archiveTables libs compress snaps).manifestEntries, snaps.map Snapshot.name⟩ = some json) :
    ∃ stats, libs.writeArchive compress created snaps = some (streamingArchive compress
      (archiveTables libs compress snaps) (libs.compressChunk json compress) json, stats) := by
  unfold FxarLibs.writeArchive
  have hemit := FxarLibs.emitArchive_eq compress hjson true
  unfold archiveTables at hemit
  simp only [hemit]
  exact ⟨_, rfl⟩

theorem writeArchiveSeekable_eq {json : Bytes} (hjson : libs.toJson ⟨fxarVersion, created,
      (archiveTables libs compress snaps).manifestEntries, snaps.map Snapshot.name⟩ = some json) :
    ∃ stats, libs.writeArchiveSeekable compress created snaps = some (seekableArchive compress
      (archiveTables libs compress snaps) (libs.compressChunk json compress) json, stats) := by
  unfold FxarLibs.writeArchiveSeekable
  have hemit := FxarLibs.emitArchive_eq compress hjson false
  unfold archiveTables at hemit
  simp only [hemit, Option.bind_eq_bind, Option.bind_some, drop_headerSize]
  exact ⟨_, rfl⟩

/-- An archive that is not too long has offsets of 64 bits. -/
theorem offsets_lt_of_size {json : Bytes} (hjson : libs.toJson ⟨fxarVersion, created,
      (archiveTables libs compress snaps).manifestEntries, snaps.map Snapshot.name⟩ = some json)
    (hsize : ∀ a ∈ libs.writeArchive compress created snaps, a.1.length < 2 ^ 64) :
    dataStart (archiveTables libs compress snaps).chunkEntries.length
        (libs.compressChunk json compress).length +
      (archiveTables libs compress snaps).chunkDataBlobs.flatten.length < 2 ^ 64 := by
  obtain ⟨stats, hstream⟩ := writeArchive_eq hjson
  have hbytes := hsize _ (Option.mem_def.mpr hstream)
  have hlen := length_archiveBody (libs.compressChunk json compress) json
    (DedupTables.wellFormed_buildDedupTables libs compress snaps)
    (streamFooter (archiveTables libs compress snaps).chunkEntries.length
      (libs.compressChunk json compress).length).writeTo
  unfold streamingArchive at hbytes
  unfold archiveTables at hbytes ⊢
  rw [List.length_append, FxarHeader.length_writeTo] at hbytes
  unfold archiveTables at hlen
  omega

end Writers

end Foxing
