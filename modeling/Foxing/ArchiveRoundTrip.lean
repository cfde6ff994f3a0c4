import Foxing.ArchiveWriters
import Foxing.FxarIntegrity
import Mathlib.Algebra.Group.Action.Defs
import Mathlib.Algebra.Order.BigOperators.Group.List
import Mathlib.Algebra.Order.Group.Nat

/-!
# Archives are read back

Under the laws of the codecs, the files of an archive are read back as they were,
from a stream and one by one, as long as the manifest is no longer than what a
codec takes for a single chunk.
-/
namespace Foxing

/-! ## Codecs -/

/-- What the libraries promise: zstd gives data back that fits into the capacity, LZ4
data with a length of 32 bits, gzip any; compressed chunks are not inflated beyond
32 bits; and hexadecimal texts are decoded. -/
structure FxarLibs.Lawful (libs : FxarLibs) : Prop where
  zstd : ∀ level data, ∃ c, libs.zstdCompress level data = some c ∧
    (∀ capacity, libs.zstdDecompress c capacity =
      if data.length ≤ capacity then some data else none) ∧
    (data.length ≤ GearChunker.default.max → c.length < 2 ^ 32)
  lz4 : ∀ data, libs.lz4Decompress (libs.lz4Compress data) =
      if data.length < 2 ^ 32 then some data else none
  lz4_length : ∀ data, data.length ≤ GearChunker.default.max →
    (libs.lz4Compress data).length < 2 ^ 32
  gzip : ∀ data, ∃ c, libs.gzipCompress data = some c ∧ libs.gzipDecompress c = some data ∧
    (data.length ≤ GearChunker.default.max → c.length < 2 ^ 32)
  hex : ∀ bytes, libs.hexDecode (libs.hexEncode bytes) = some bytes

/-- The compression arguments "none", "zstd" with or without a level, "lz4" and "gzip". -/
def CompressArgument (compress : String) : Prop :=
  compress = "none" ∨ startsWith compress "zstd" = true ∨ compress = "lz4" ∨ compress = "gzip"

/-- Data of this length is decompressed: zstd stops at 16 megabytes, LZ4 at lengths of
32 bits. -/
def Admitted (compress : String) (len : ℕ) : Prop :=
  (startsWith compress "zstd" = true → len ≤ 16 * 1024 * 1024) ∧ (compress = "lz4" → len < 2 ^ 32)

instance (compress : String) (len : ℕ) : Decidable (Admitted compress len) :=
  inferInstanceAs (Decidable (_ ∧ _))

section Codecs
variable {libs : FxarLibs} {compress : String}

theorem startsWith_zstd_ne (h : startsWith compress "zstd" = true) :
    compress ≠ "none" ∧ compress ≠ "lz4" ∧ compress ≠ "gzip" := by
  refine ⟨?_, ?_, ?_⟩
  all_goals
    rintro rfl
    exact absurd h (by decide)

theorem not_startsWith_zstd :
    startsWith "none" "zstd" = false ∧ startsWith "lz4" "zstd" = false ∧
      startsWith "gzip" "zstd" = false := by
  decide

/-- Data comes back exactly if its length is admitted. -/
theorem decompressChunk_compressChunk (hlaws : libs.Lawful) (harg : CompressArgument compress)
    (data : Bytes) :
    libs.decompressChunk (libs.compressChunk data compress) (compressFlag compress) =
      if Admitted compress data.length then .ok data else .error .invalidData := by
  unfold FxarLibs.compressChunk compressFlag Admitted
  obtain ⟨hnone, hlz4, hgzip⟩ := not_startsWith_zstd
  rcases harg with rfl | hzstd | rfl | rfl
  · simp [hnone, FxarLibs.decompressChunk]
  · obtain ⟨h₁, h₂, h₃⟩ := startsWith_zstd_ne hzstd
    obtain ⟨c, hc, hd, -⟩ := hlaws.zstd (zstdLevel compress) data
    simp only [h₁, hzstd, h₂, hc, if_true, if_false, Option.getD_some, FxarLibs.decompressChunk, hd,
      forall_const, false_implies, and_true]
    split_ifs <;> rfl
  · simp only [hlz4, FxarLibs.decompressChunk, hlaws.lz4, forall_const, false_implies, true_and,
      if_true, if_false, Bool.false_eq_true, String.reduceEq]
    split_ifs <;> rfl
  · obtain ⟨c, hc, hd, -⟩ := hlaws.gzip data
    simp [hgzip, FxarLibs.decompressChunk, hc, hd]

theorem admitted_chunk {chunk : Bytes} (h : chunk.length ≤ GearChunker.default.max) :
    Admitted compress chunk.length := by
  have hmax : GearChunker.default.max = 2097152 := by decide
  exact ⟨fun _ => by omega, fun _ => by omega⟩

theorem length_compressChunk (hlaws : libs.Lawful) (harg : CompressArgument compress)
    {chunk : Bytes} (h : chunk.length ≤ GearChunker.default.max) :
    (libs.compressChunk chunk compress).length < 2 ^ 32 := by
  have hmax : GearChunker.default.max = 2097152 := by decide
  unfold FxarLibs.compressChunk
  obtain ⟨hnone, hlz4, hgzip⟩ := not_startsWith_zstd
  rcases harg with rfl | hzstd | rfl | rfl
  · simp only [if_true]
    omega
  · obtain ⟨h₁, -, -⟩ := startsWith_zstd_ne hzstd
    obtain ⟨c, hc, -, hlen⟩ := hlaws.zstd (zstdLevel compress) chunk
    simp only [h₁, hzstd, hc, if_true, if_false, Option.getD_some]
    exact hlen h
  · simp only [hlz4, if_true, if_false, Bool.false_eq_true, String.reduceEq]
    exact hlaws.lz4_length chunk h
  · obtain ⟨c, hc, -, hlen⟩ := hlaws.gzip chunk
    simp only [hgzip, hc, if_true, if_false, Bool.false_eq_true, String.reduceEq, Option.getD_some]
    exact hlen h

end Codecs

/-! ## Chunks -/

section Chunks
variable {libs : FxarLibs} {compress : String}

/-- A chunk is decompressed to what it was, and its compressed length has 32 bits. -/
structure Recovers (libs : FxarLibs) (compress : String) (chunk : Bytes) : Prop where
  back : libs.decompressChunk (libs.compressChunk chunk compress) (compressFlag compress) = .ok chunk
  length : (libs.compressChunk chunk compress).length < 2 ^ 32

theorem recovers_of_mem_storedChunks (hlaws : libs.Lawful) (harg : CompressArgument compress)
    {snaps : List Snapshot} {chunk : Bytes} (h : chunk ∈ storedChunks snaps) :
    Recovers libs compress chunk := by
  obtain ⟨job, -, hmem⟩ := List.mem_flatMap.mp (List.mem_eraseDups.mp h)
  have hlen : chunk.length ≤ GearChunker.default.max :=
    GearChunker.default.length_le_of_mem_chunks (by decide) (by decide) hmem
  constructor
  · rw [decompressChunk_compressChunk hlaws harg, if_pos (admitted_chunk hlen)]
  · exact length_compressChunk hlaws harg hlen

/-- A chunk at the front of what is left is read. -/
theorem readChunk_append {chunk : Bytes} (h : Recovers libs compress chunk) (off : ℕ)
    (rest : Bytes) :
    libs.readChunk (compressFlag compress) { libs.indexEntry compress chunk with offset := off }
      (libs.compressChunk chunk compress ++ rest) = .ok (chunk, rest) := by
  unfold FxarLibs.readChunk
  have hlen : (libs.compressChunk chunk compress).length =
      (libs.indexEntry compress chunk).compressedSize := (Nat.mod_eq_of_lt h.length).symm
  rw [ByteReader.run_bind_ok (ByteReader.readExact_append hlen rest), h.back]
  show (if libs.blake3 chunk ≠ libs.blake3 chunk then _ else _ : ByteReader ReadStop Bytes) rest = _
  rw [if_neg (not_not.mpr rfl)]
  rfl

/-- The chunks of a stream are read one after the other. -/
theorem readChunks_append {store : List Bytes} (h : ∀ c ∈ store, Recovers libs compress c)
    (off : ℕ) (tail : Bytes) :
    libs.readChunks (compressFlag compress)
      (FxarLibs.assignOffsets off (store.map (libs.indexEntry compress))
        (store.map fun c => libs.compressChunk c compress))
      ((store.map fun c => libs.compressChunk c compress).flatten ++ tail) = .ok (store, tail) := by
  induction store generalizing off with
  | nil => rfl
  | cons c store ih =>
    have hrest := ih (fun d hd => h d (by simp [hd])) (off + (libs.compressChunk c compress).length)
    simp only [List.map_cons, FxarLibs.assignOffsets, List.flatten_cons, List.append_assoc,
      FxarLibs.readChunks]
    rw [ByteReader.run_bind_ok (readChunk_append (h c (by simp)) off _),
      ByteReader.run_bind_ok hrest]
    rfl

variable (libs compress) in
/-- The offset of a chunk is where it is. -/
theorem chunk_at_offset {store : List Bytes} {pre : Bytes} (tail : Bytes) {i : ℕ} {c : Bytes}
    (h : store[i]? = some c) {off : ℕ} (hoff : pre.length = off) :
    ∃ o rest, (FxarLibs.assignOffsets off (store.map (libs.indexEntry compress))
        (store.map fun c => libs.compressChunk c compress))[i]? =
          some { libs.indexEntry compress c with offset := o } ∧
      (pre ++ ((store.map fun c => libs.compressChunk c compress).flatten ++ tail)).drop o =
        libs.compressChunk c compress ++ rest := by
  induction store generalizing pre off i with
  | nil => simp at h
  | cons d store ih =>
    cases i with
    | zero =>
      obtain rfl : d = c := by simpa using h
      refine ⟨off, (store.map fun c => libs.compressChunk c compress).flatten ++ tail, rfl, ?_⟩
      rw [← hoff, List.drop_left, List.map_cons, List.flatten_cons, List.append_assoc]
    | succ i =>
      have hnext : (pre ++ libs.compressChunk d compress).length =
          off + (libs.compressChunk d compress).length := by rw [List.length_append, hoff]
      obtain ⟨o, rest, hget, hdrop⟩ := ih (by simpa using h) hnext
      refine ⟨o, rest, hget, ?_⟩
      rw [List.map_cons, List.flatten_cons, List.append_assoc, ← List.append_assoc pre]
      exact hdrop

end Chunks

/-! ## Files -/

section Files
variable {libs : FxarLibs} {snaps : List Snapshot}

theorem mem_storedChunks {job : String × SnapshotFile} (hjob : job ∈ fileJobs snaps) {c : Bytes}
    (hc : c ∈ job.2.chunks) : c ∈ storedChunks snaps :=
  List.mem_eraseDups.mpr (List.mem_flatMap.mpr ⟨job, hjob, hc⟩)

/-- The stored chunks of a file make up the file. -/
theorem assembledData_manifestEntry {job : String × SnapshotFile} (hjob : job ∈ fileJobs snaps) :
    assembledData (storedChunks snaps) (libs.manifestEntry (storedChunks snaps) job.1 job.2) =
      some job.2.data := by
  have hlookup : ∀ cs : List Bytes, (∀ c ∈ cs, c ∈ storedChunks snaps) →
      (cs.map (storedChunks snaps).idxOf).mapM (fun i => (storedChunks snaps)[i]?) = some cs := by
    intro cs hcs
    induction cs with
    | nil => rfl
    | cons c cs ih =>
      have hrest := ih fun d hd => hcs d (by simp [hd])
      simp [List.getElem?_idxOf (hcs c (by simp)), hrest]
  unfold assembledData
  rw [show (libs.manifestEntry (storedChunks snaps) job.1 job.2).chunks =
    job.2.chunks.map (storedChunks snaps).idxOf from rfl, hlookup _ fun c => mem_storedChunks hjob,
    Option.map_some]
  exact congrArg some (GearChunker.default.flatten_chunks (by decide) (by decide) job.2.data)

theorem matches_manifestEntry (hlaws : libs.Lawful) (stored : List Bytes)
    (job : String × SnapshotFile) :
    Matches libs (libs.manifestEntry stored job.1 job.2) job.2.data :=
  hlaws.hex _

end Files

/-! ## The properties -/

/-- The disk takes all files of the snapshots. -/
structure Disk.Accepts (disk : Disk) (snaps : List Snapshot) : Prop where
  mkdir : ∀ p, disk.mkdirOk p = true
  write : ∀ p, disk.writeOk p = true
  space : ∀ avail ∈ disk.available,
    (((fileJobs snaps).map fun job => job.2.data.length).sum % 2 ^ 64 + 10 * 1024 * 1024) % 2 ^ 64 ≤
      avail

/-- The import of a stream writes the files of the snapshots with their contents, and
nothing fails. -/
def ReadsBack (libs : FxarLibs) (disk : Disk) (target : Path) (snaps : List Snapshot)
    (bytes : Bytes) : Prop :=
  (∃ stats, (libs.readArchiveStream bytes disk target).result = .ok stats ∧
    stats.chunksFailed = 0) ∧
  (libs.readArchiveStream bytes disk target).writes.map (fun w => (w.1.path, w.2)) =
    (fileJobs snaps).map fun job => (archivePath job.1 job.2, job.2.data)

structure RoundTrips (libs : FxarLibs) (compress created : String) (snaps : List Snapshot)
    (disk : Disk) (target : Path) : Prop where
  stream : ∃ a ∈ libs.writeArchive compress created snaps, ReadsBack libs disk target snaps a.1
  seekable : ∃ b ∈ libs.writeArchiveSeekable compress created snaps,
    ReadsBack libs disk target snaps b.1 ∧ ∃ r, FxarReader.open b.1 = .ok r ∧
      ∀ job ∈ fileJobs snaps, r.restoreFile libs (archivePath job.1 job.2) = .ok job.2.data

/-! ## Streams -/

section Streams
variable {libs : FxarLibs} {compress created : String} {snaps : List Snapshot} {disk : Disk}
  {target : Path}

theorem makeParents_ok (h : ∀ p, disk.mkdirOk p = true) (files : List FxarManifestEntry) :
    (makeParents disk target files).2 = true := by
  induction files with
  | nil => rfl
  | cons e files ih =>
    unfold makeParents
    cases (e.dest target).parentDir? with
    | none => exact ih
    | some parent => simp [h parent, ih]

/-- Entries that are all written make an import in which nothing fails. -/
theorem results_of_jobs {jobs : List (String × SnapshotFile)}
    (entry : String × SnapshotFile → FxarManifestEntry)
    {result : String × SnapshotFile → EntryResult}
    (hresult : ∀ job ∈ jobs, ∃ n, result job = ⟨some job.2.data, n, 0, none⟩) :
    (∃ stats, collectResults (jobs.map fun job => (entry job, result job)) = .ok stats ∧
      stats.chunksFailed = 0) ∧
    writesOf (jobs.map fun job => (entry job, result job)) =
      jobs.map fun job => (entry job, job.2.data) := by
  constructor
  · unfold collectResults
    have hstop : ((jobs.map fun job => (entry job, result job)).findSome? fun x => x.2.stop) =
        none := by
      refine List.findSome?_eq_none_iff.mpr fun x hx => ?_
      obtain ⟨job, hjob, rfl⟩ := List.mem_map.mp hx
      obtain ⟨n, hn⟩ := hresult job hjob
      rw [hn]
    rw [hstop]
    refine ⟨_, rfl, ?_⟩
    refine List.sum_eq_zero_iff_forall_eq_nat.mpr fun k hk => ?_
    obtain ⟨x, hx, rfl⟩ := List.mem_map.mp hk
    obtain ⟨job, hjob, rfl⟩ := List.mem_map.mp hx
    obtain ⟨n, hn⟩ := hresult job hjob
    rw [hn]
  · induction jobs with
    | nil => rfl
    | cons job jobs ih =>
      obtain ⟨n, hn⟩ := hresult job (by simp)
      have hrest := ih fun j hj => hresult j (by simp [hj])
      unfold writesOf at hrest ⊢
      simp only [List.map_cons, List.filterMap_cons, hn, Option.map_some, hrest]

/-- An archive is read in a stream as far as its manifest can be decoded. -/
theorem readStream_archive {h : FxarHeader} {t : DedupTables} {store : List Bytes}
    {compressed json tail : Bytes} (hf : h.Fits) (hv : h.version = fxarVersion)
    (hflags : h.flags = compressFlag compress) (hcount : h.chunkCount = t.chunkEntries.length)
    (hwf : t.WellFormed) (hentries : t.chunkEntries = store.map (libs.indexEntry compress))
    (hblobs : t.chunkDataBlobs = store.map fun c => libs.compressChunk c compress)
    (hstore : ∀ c ∈ store, Recovers libs compress c)
    (hsize : dataStart t.chunkEntries.length compressed.length +
      t.chunkDataBlobs.flatten.length < 2 ^ 64) :
    libs.readStream (h.writeTo ++ archiveBody compressed json (t.index compressed.length)
        t.chunkDataBlobs tail) =
      (libs.decodeManifest (compressFlag compress) compressed).map fun manifest =>
        ((manifest, store), tail) := by
  have hlen : compressed.length < 2 ^ 64 := by
    unfold dataStart at hsize
    omega
  have hblock := libs.readManifestBlock_body (compressFlag compress) hlen json
    (t.index compressed.length) t.chunkDataBlobs tail
  unfold FxarLibs.readStream
  rw [ByteReader.run_bind_ok (FxarLibs.readHeader_writeTo hf hv _), hflags, hcount]
  cases hdec : libs.decodeManifest (compressFlag compress) compressed with
  | error stop =>
    rw [hdec] at hblock
    rw [ByteReader.run_bind_error hblock]
    rfl
  | ok manifest =>
    rw [hdec] at hblock
    have hindex : ByteReader.replicate ChunkIndexEntry.readFrom t.chunkEntries.length
        ((t.index compressed.length).flatMap ChunkIndexEntry.writeTo ++
          (t.chunkDataBlobs.flatten ++ tail)) =
            .ok (t.index compressed.length, t.chunkDataBlobs.flatten ++ tail) := by
      rw [← DedupTables.length_index hwf compressed.length]
      exact ByteReader.replicate_append (fun e he rest =>
        ChunkIndexEntry.readFrom_writeTo (DedupTables.index_fits hwf hsize he) rest) _
    have hchunks : libs.readChunks (compressFlag compress) (t.index compressed.length)
        (t.chunkDataBlobs.flatten ++ tail) = .ok (store, tail) := by
      unfold DedupTables.index
      rw [hentries, hblobs]
      exact readChunks_append hstore _ tail
    rw [ByteReader.run_bind_ok hblock, ByteReader.run_bind_ok hindex,
      ByteReader.run_bind_ok hchunks]
    rfl

/-- The manifest and the chunks of an archive are imported completely. -/
theorem readsBack_of_readStream (hlaws : libs.Lawful) (hdisk : disk.Accepts snaps)
    (hdata : ∀ job ∈ fileJobs snaps, job.2.data.length < 2 ^ 63) {bytes tail : Bytes}
    (h : libs.readStream bytes =
      .ok ((libs.archiveManifest created snaps, storedChunks snaps), tail)) :
    ReadsBack libs disk target snaps bytes := by
  have hspace : hasSpace disk (libs.manifestEntries snaps) = true := by
    have hsizes : (libs.manifestEntries snaps).map FxarManifestEntry.size =
        (fileJobs snaps).map fun job => job.2.data.length := by
      unfold FxarLibs.manifestEntries
      rw [List.map_map]
      rfl
    unfold hasSpace
    rw [hsizes]
    cases hav : disk.available with
    | none => rfl
    | some avail =>
      have hle := hdisk.space avail hav
      simpa using hle
  have hresult : ∀ job ∈ fileJobs snaps, ∃ n, libs.restoreEntry disk target
      (fun i => ((storedChunks snaps)[i]?).map some)
      (libs.manifestEntry (storedChunks snaps) job.1 job.2) = ⟨some job.2.data, n, 0, none⟩ :=
    fun job hjob => restoreEntry_delivered disk target (fun i chunk hi => by rw [hi, Option.map_some])
      (hdata job hjob) (assembledData_manifestEntry hjob) (matches_manifestEntry hlaws _ job)
      (hdisk.write _)
  obtain ⟨hstats, hwrites⟩ := results_of_jobs
    (fun job => libs.manifestEntry (storedChunks snaps) job.1 job.2) hresult
  have hfiles : (libs.archiveManifest created snaps).files = (fileJobs snaps).map fun job =>
      libs.manifestEntry (storedChunks snaps) job.1 job.2 := rfl
  unfold ReadsBack FxarLibs.readArchiveStream
  rw [h]
  simp only
  rw [if_neg (by rw [hfiles]; simpa [FxarLibs.manifestEntries] using hspace),
    if_neg (by simp [makeParents_ok hdisk.mkdir]), hfiles, List.map_map]
  refine ⟨hstats, ?_⟩
  exact (congrArg (List.map _) hwrites).trans (by rw [List.map_map]; rfl)

end Streams

/-! ## Single files -/

section SingleFiles
variable {libs : FxarLibs} {compress created : String} {snaps : List Snapshot}

/-- The chunks of a file are read at their offsets. -/
theorem readFileChunks_stored {r : FxarReader} {store : List Bytes} {pre tail : Bytes} {off : ℕ}
    (hbytes : r.bytes = pre ++ ((store.map fun c => libs.compressChunk c compress).flatten ++ tail))
    (hoff : pre.length = off) (hflags : r.header.flags = compressFlag compress)
    (hstore : ∀ c ∈ store, Recovers libs compress c) {cs : List Bytes}
    (hcs : ∀ c ∈ cs, c ∈ store) :
    r.readFileChunks libs (FxarLibs.assignOffsets off (store.map (libs.indexEntry compress))
      (store.map fun c => libs.compressChunk c compress)) (cs.map store.idxOf) =
        .ok cs.flatten := by
  induction cs with
  | nil => rfl
  | cons c cs ih =>
    have hrest := ih fun d hd => hcs d (by simp [hd])
    have hc := hcs c (by simp)
    obtain ⟨o, rest, hget, hdrop⟩ := chunk_at_offset libs compress tail
      (List.getElem?_idxOf hc) hoff
    have hdata : r.readChunkData libs { libs.indexEntry compress c with offset := o } = .ok c := by
      unfold FxarReader.readChunkData
      show ((libs.readChunk r.header.flags { libs.indexEntry compress c with offset := o }
        (r.bytes.drop o)).bind fun p => Except.ok p.1) = _
      rw [hbytes, hdrop, hflags, readChunk_append (hstore c hc)]
      rfl
    simp only [List.map_cons, FxarReader.readFileChunks, hget, hdata, hrest]
    rfl

/-- With distinct paths, the entry of a file is found by its path. -/
theorem find_manifestEntry
    (hpaths : ((fileJobs snaps).map fun job => archivePath job.1 job.2).Nodup)
    {job : String × SnapshotFile} (hjob : job ∈ fileJobs snaps) :
    (libs.manifestEntries snaps).find? (fun f => f.path = archivePath job.1 job.2) =
      some (libs.manifestEntry (storedChunks snaps) job.1 job.2) := by
  unfold FxarLibs.manifestEntries
  cases hfind : ((fileJobs snaps).map fun job => libs.manifestEntry (storedChunks snaps) job.1
      job.2).find? (fun f => f.path = archivePath job.1 job.2) with
  | none =>
    have hnone := List.find?_eq_none.mp hfind _ (List.mem_map_of_mem hjob)
    exact absurd (decide_eq_true rfl) hnone
  | some e =>
    obtain ⟨other, hother, rfl⟩ := List.mem_map.mp (List.mem_of_find?_eq_some hfind)
    have hfound := List.find?_some hfind
    have hpath : archivePath other.1 other.2 = archivePath job.1 job.2 :=
      of_decide_eq_true hfound
    rw [List.inj_on_of_nodup_map hpaths hother hjob hpath]

/-- Single files are restored from a seekable archive. -/
theorem restoreFile_seekable (hlaws : libs.Lawful) {t : DedupTables} {compressed json : Bytes}
    (hwf : t.WellFormed)
    (hentries : t.chunkEntries = (storedChunks snaps).map (libs.indexEntry compress))
    (hblobs : t.chunkDataBlobs = (storedChunks snaps).map fun c => libs.compressChunk c compress)
    (hstore : ∀ c ∈ storedChunks snaps, Recovers libs compress c)
    (hsize : dataStart t.chunkEntries.length compressed.length +
      t.chunkDataBlobs.flatten.length < 2 ^ 64)
    (hdec : libs.decodeManifest (compressFlag compress) compressed =
      .ok (libs.archiveManifest created snaps))
    (hpaths : ((fileJobs snaps).map fun job => archivePath job.1 job.2).Nodup)
    {job : String × SnapshotFile} (hjob : job ∈ fileJobs snaps) (hdata : job.2.data.length < 2 ^ 63) :
    (seekableReader compress t compressed json).restoreFile libs (archivePath job.1 job.2) =
      .ok job.2.data := by
  have hman : (seekableReader compress t compressed json).readManifest libs = _ :=
    (readManifest_seekable compress json (by omega)).trans hdec
  have hindex := readChunkIndex_seekable compress json hwf hsize
  have hfind : (libs.archiveManifest created snaps).files.find?
      (fun f => f.path = archivePath job.1 job.2) = _ := find_manifestEntry hpaths hjob
  -- what stands before the chunks is as long as the header says
  have hbytes : (seekableReader compress t compressed json).bytes =
      ((sealedHeader compress t.chunkEntries.length compressed.length).writeTo ++
        (Bytes.ofNat 8 compressed.length ++ (Bytes.ofNat 8 json.length ++ (compressed ++
          (t.index compressed.length).flatMap ChunkIndexEntry.writeTo)))) ++
      (((storedChunks snaps).map fun c => libs.compressChunk c compress).flatten ++ []) := by
    show seekableArchive compress t compressed json = _
    unfold seekableArchive archiveBody
    rw [← hblobs]
    simp only [List.append_assoc]
  have hpre : ((sealedHeader compress t.chunkEntries.length compressed.length).writeTo ++
        (Bytes.ofNat 8 compressed.length ++ (Bytes.ofNat 8 json.length ++ (compressed ++
          (t.index compressed.length).flatMap ChunkIndexEntry.writeTo)))).length =
      dataStart t.chunkEntries.length compressed.length := by
    rw [List.length_append, List.length_append, List.length_append, List.length_append,
      FxarHeader.length_writeTo, Bytes.length_ofNat, Bytes.length_ofNat,
      DedupTables.length_index_bytes hwf]
    unfold dataStart
    omega
  have hidx : t.index compressed.length = FxarLibs.assignOffsets
      (dataStart t.chunkEntries.length compressed.length)
      ((storedChunks snaps).map (libs.indexEntry compress))
      ((storedChunks snaps).map fun c => libs.compressChunk c compress) := by
    unfold DedupTables.index
    rw [← hentries, ← hblobs]
  have hchunks : (seekableReader compress t compressed json).readFileChunks libs
      (t.index compressed.length) (libs.manifestEntry (storedChunks snaps) job.1 job.2).chunks =
        .ok job.2.data := by
    rw [hidx, ← GearChunker.default.flatten_chunks (by decide) (by decide) job.2.data]
    exact readFileChunks_stored hbytes hpre rfl hstore fun c hc => mem_storedChunks hjob hc
  have hhash := expectedHash_of_matches (matches_manifestEntry hlaws (storedChunks snaps) job)
  have hfits : ¬ (libs.manifestEntry (storedChunks snaps) job.1 job.2).size ≥ 2 ^ 63 :=
    Nat.not_le.mpr hdata
  unfold FxarReader.restoreFile
  rw [hman, hindex]
  simp only [bind, Except.bind, hfind]
  rw [if_neg hfits, hchunks]
  simp only [hhash, ne_eq, not_true_eq_false, if_false]

end SingleFiles

/-! ## Both writers -/

/-- The archive of files with distinct paths is read back, in a stream and file by file,
exactly if the length of its manifest is admitted by the codec. -/
theorem roundTrips_iff (libs : FxarLibs) (compress created : String) (snaps : List Snapshot)
    (disk : Disk) (target : Path) (json : Bytes) (hlaws : libs.Lawful)
    (harg : CompressArgument compress)
    (hjson : libs.toJson (libs.archiveManifest created snaps) = some json)
    (hback : libs.ofJson json = some (libs.archiveManifest created snaps))
    (hinj : Set.InjOn libs.blake3 {c | c ∈ snapshotChunks snaps})
    (hpaths : ((fileJobs snaps).map fun job => archivePath job.1 job.2).Nodup)
    (hdata : ∀ job ∈ fileJobs snaps, job.2.data.length < 2 ^ 63)
    (hsize : ∀ a ∈ libs.writeArchive compress created snaps, a.1.length < 2 ^ 64)
    (hdisk : disk.Accepts snaps) :
    RoundTrips libs compress created snaps disk target ↔ Admitted compress json.length := by
  obtain ⟨hentries, hblobs, hman⟩ := FxarLibs.buildDedupTables_eq compress hinj
  have htext : libs.toJson ⟨fxarVersion, created, (archiveTables libs compress snaps).manifestEntries,
      snaps.map Snapshot.name⟩ = some json := by
    rw [← hjson]
    unfold archiveTables FxarLibs.archiveManifest
    rw [hman]
  have hwf : (archiveTables libs compress snaps).WellFormed :=
    DedupTables.wellFormed_buildDedupTables libs compress snaps
  have hstore : ∀ c ∈ storedChunks snaps, Recovers libs compress c :=
    fun c hc => recovers_of_mem_storedChunks hlaws harg hc
  obtain ⟨stats, hstream⟩ := writeArchive_eq htext
  obtain ⟨stats', hseek⟩ := writeArchiveSeekable_eq htext
  have hlen := offsets_lt_of_size htext hsize
  have hstart : dataStart (archiveTables libs compress snaps).chunkEntries.length
      (libs.compressChunk json compress).length < 2 ^ 64 := by omega
  have hn := chunkCount_lt hstart
  have hdec : libs.decodeManifest (compressFlag compress) (libs.compressChunk json compress) =
      if Admitted compress json.length then .ok (libs.archiveManifest created snaps)
      else .error .invalidData := by
    unfold FxarLibs.decodeManifest
    rw [decompressChunk_compressChunk hlaws harg]
    split_ifs
    · simp only [hback]
      rfl
    · rfl
  have hplain : libs.readStream (streamingArchive compress (archiveTables libs compress snaps)
      (libs.compressChunk json compress) json) = _ :=
    readStream_archive (placeholderHeader_fits compress hn) rfl rfl rfl hwf hentries hblobs hstore
      hlen
  have hsealed : libs.readStream (seekableArchive compress (archiveTables libs compress snaps)
      (libs.compressChunk json compress) json) = _ :=
    readStream_archive (sealedHeader_fits compress hstart) rfl rfl rfl hwf hentries hblobs hstore
      hlen
  constructor
  · rintro ⟨⟨a, ha, ⟨imported, hresult, -⟩, -⟩, -⟩
    obtain rfl := Option.some.inj (hstream.symm.trans ha)
    by_contra hnot
    rw [if_neg hnot] at hdec
    rw [hdec] at hplain
    simp only [FxarLibs.readArchiveStream, hplain, Except.map] at hresult
    cases hresult
  · intro hadm
    rw [if_pos hadm] at hdec
    rw [hdec] at hplain hsealed
    refine ⟨⟨_, hstream, readsBack_of_readStream hlaws hdisk hdata hplain⟩, _, hseek,
      readsBack_of_readStream hlaws hdisk hdata hsealed, _, open_seekable compress json hstart, ?_⟩
    intro job hjob
    exact restoreFile_seekable hlaws hwf hentries hblobs hstore hlen hdec hpaths hjob
      (hdata job hjob)

/-! ## Samples -/

theorem sampleLibs_lawful (manifest : FxarManifest) : (sampleLibs manifest).Lawful where
  zstd := fun _ data => ⟨data, rfl, fun _ => rfl, fun h => Nat.lt_of_le_of_lt h (by decide)⟩
  lz4 := fun _ => rfl
  lz4_length := fun _ h => Nat.lt_of_le_of_lt h (by decide)
  gzip := fun data => ⟨data, rfl, rfl, fun h => Nat.lt_of_le_of_lt h (by decide)⟩
  hex := hexDecodeChars_hexEncode

theorem sampleLibs_ofJson (manifest : FxarManifest) :
    (sampleLibs manifest).ofJson manifest.json = some manifest := by
  show (if manifest.json = manifest.json then some manifest else none) = some manifest
  rw [if_pos rfl]

theorem permissiveDisk_accepts (snaps : List Snapshot) : permissiveDisk.Accepts snaps :=
  ⟨fun _ => rfl, fun _ => rfl, by simp [permissiveDisk]⟩

/-- The sample is read back. -/
theorem sample_roundTrips :
    RoundTrips (sampleLibs sampleManifest) "none" "2024-01-02T00:00:00+00:00" sampleSnapshots
      permissiveDisk ["out"] := by
  have hmanifest : (sampleLibs sampleManifest).archiveManifest "2024-01-02T00:00:00+00:00"
      sampleSnapshots = sampleManifest := by decide +kernel
  have hchunks : snapshotChunks sampleSnapshots = [[97, 98, 99]] := by decide +kernel
  refine (roundTrips_iff _ _ _ _ _ _ sampleManifest.json (sampleLibs_lawful _) (.inl rfl)
    (by rw [hmanifest]; rfl) ?_ ?_ (by decide +kernel) (by decide +kernel) (by decide +kernel)
    (permissiveDisk_accepts _)).mpr (by decide)
  · rw [hmanifest]
    exact sampleLibs_ofJson sampleManifest
  · rw [hchunks]
    intro c hc d hd _
    rw [List.mem_singleton.mp hc, List.mem_singleton.mp hd]

/-! ### A manifest that is too long -/

theorem sum_length_le_intercalate (sep : Bytes) (items : List Bytes) :
    (items.map List.length).sum ≤ (sep.intercalate items).length := by
  induction items with
  | nil => simp
  | cons x xs ih =>
    by_cases hxs : xs = []
    · simp [hxs]
    · rw [List.intercalate_cons_of_ne_nil hxs]
      simp only [List.map_cons, List.sum_cons, List.length_append]
      omega

/-- A value is not longer than an object that has it in a field. -/
theorem length_le_jsonObject (fields : List (String × Bytes)) (field : String × Bytes)
    (h : field ∈ fields) : field.2.length ≤ (jsonObject fields).length := by
  have hsum := sum_length_le_intercalate [44] (fields.map fun x => jsonText x.1 ++ 58 :: x.2)
  have hmem : (jsonText field.1 ++ 58 :: field.2).length ∈
      (fields.map fun x => jsonText x.1 ++ 58 :: x.2).map List.length :=
    List.mem_map_of_mem (List.mem_map_of_mem h)
  have hle := List.le_sum_of_mem hmem
  unfold jsonObject
  simp only [List.length_cons, List.length_append] at hle ⊢
  omega

/-- Entries with a hash make a manifest of at least 66 bytes for each of them. -/
theorem length_le_manifestJson {m : FxarManifest}
    (h : ∀ e ∈ m.files, 66 ≤ (jsonText e.blake3).length) : m.files.length * 66 ≤ m.json.length := by
  have hentry : ∀ k ∈ (m.files.map FxarManifestEntry.json).map List.length, 66 ≤ k := by
    intro k hk
    obtain ⟨text, htext, rfl⟩ := List.mem_map.mp hk
    obtain ⟨e, he, rfl⟩ := List.mem_map.mp htext
    refine (h e he).trans ?_
    unfold FxarManifestEntry.json
    exact length_le_jsonObject _ ("blake3", jsonText e.blake3) (by simp)
  have hsum := List.card_nsmul_le_sum _ _ hentry
  have hlist := sum_length_le_intercalate [44] (m.files.map FxarManifestEntry.json)
  have hfield : (jsonList (m.files.map FxarManifestEntry.json)).length ≤ m.json.length := by
    unfold FxarManifest.json
    exact length_le_jsonObject _ ("files", jsonList (m.files.map FxarManifestEntry.json)) (by simp)
  unfold jsonList at hfield
  simp only [List.length_map, smul_eq_mul, List.length_cons, List.length_append] at hsum hfield
  omega

/-- A manifest beyond the capacity is not read from anything. -/
theorem readManifestBlock_too_long {m : FxarManifest} (h : 16 * 1024 * 1024 < m.json.length)
    (bytes : Bytes) (p : FxarManifest × Bytes) :
    (sampleLibs m).readManifestBlock 1 bytes ≠ .ok p := by
  intro hread
  unfold FxarLibs.readManifestBlock at hread
  obtain ⟨len, s₁, -, hread⟩ := ByteReader.run_bind_eq_ok hread
  obtain ⟨-, s₂, -, hread⟩ := ByteReader.run_bind_eq_ok hread
  obtain ⟨compressed, s₃, -, hread⟩ := ByteReader.run_bind_eq_ok hread
  obtain ⟨text, s₄, hdec, hread⟩ := ByteReader.run_bind_eq_ok hread
  have hshort : text.length ≤ 16 * 1024 * 1024 := by
    by_cases hle : compressed.length ≤ 16 * 1024 * 1024
    · have htext : (sampleLibs m).decompressChunk compressed 1 = .ok compressed := by
        show (if compressed.length ≤ 16 * 1024 * 1024 then some compressed else none).elim _ _ = _
        rw [if_pos hle]
        rfl
      rw [htext] at hdec
      cases hdec
      exact hle
    · have htext : (sampleLibs m).decompressChunk compressed 1 = .error .invalidData := by
        show (if compressed.length ≤ 16 * 1024 * 1024 then some compressed else none).elim _ _ = _
        rw [if_neg hle]
        rfl
      rw [htext] at hdec
      cases hdec
  have hjson : (sampleLibs m).ofJson text = none := by
    show (if text = m.json then some m else none) = none
    rw [if_neg]
    rintro rfl
    omega
  rw [hjson] at hread
  cases hread

/-- Empty files with numbers for names. -/
def numberedFiles (n : ℕ) : List Snapshot :=
  [⟨"2024-01-01", (List.range n).map fun i => ⟨toString i, [], 33188, 0, 0, 0, []⟩⟩]

def numberedManifest (n : ℕ) : FxarManifest :=
  (sampleLibs sampleManifest).archiveManifest "2024-01-02T00:00:00+00:00" (numberedFiles n)

theorem fileJobs_numberedFiles (n : ℕ) : fileJobs (numberedFiles n) =
    (List.range n).map fun i => ("2024-01-01", ⟨toString i, [], 33188, 0, 0, 0, []⟩) := by
  simp [fileJobs, numberedFiles, Function.comp_def]

theorem length_le_numberedManifest (n : ℕ) : n * 66 ≤ (numberedManifest n).json.length := by
  have hhash : ∀ e ∈ (numberedManifest n).files, 66 ≤ (jsonText e.blake3).length := by
    intro e he
    obtain ⟨job, hjob, rfl⟩ := List.mem_map.mp he
    rw [fileJobs_numberedFiles] at hjob
    obtain ⟨i, -, rfl⟩ := List.mem_map.mp hjob
    exact (by decide +kernel : 66 ≤ (jsonText (hexEncode emptyHash)).length)
  have hfiles : (numberedManifest n).files.length = n := by
    show ((fileJobs (numberedFiles n)).map _).length = n
    rw [fileJobs_numberedFiles, List.length_map, List.length_map, List.length_range]
  have hlen := length_le_manifestJson hhash
  rwa [hfiles] at hlen

theorem numberedFiles_empty (n : ℕ) : ∀ s ∈ numberedFiles n, ∀ f ∈ s.files, f.data = [] := by
  simp [numberedFiles]

theorem numberedFiles_paths_nodup (n : ℕ) :
    ((fileJobs (numberedFiles n)).map fun job => archivePath job.1 job.2).Nodup := by
  rw [fileJobs_numberedFiles, List.map_map]
  refine List.Nodup.map_on (fun i _ j _ hij => ?_) List.nodup_range
  have hchars : Nat.toDigits 10 i = Nat.toDigits 10 j := by
    have hlist := congrArg String.toList hij
    simpa [archivePath, String.toList_append, ← Nat.toList_repr] using hlist
  rw [← Nat.ofDigitChars_ten_toDigits (n := i), hchars, Nat.ofDigitChars_ten_toDigits]

/-- Files without chunks are not read back if the libraries know a manifest that is too
long only. -/
theorem not_roundTrips_of_too_long {m : FxarManifest} (h : 16 * 1024 * 1024 < m.json.length)
    {created : String} {snaps : List Snapshot} (hempty : ∀ s ∈ snaps, ∀ f ∈ s.files, f.data = [])
    {disk : Disk} {target : Path} :
    ¬ RoundTrips (sampleLibs m) "zstd" created snaps disk target := by
  rintro ⟨⟨a, ha, ⟨imported, hresult, -⟩, -⟩, -⟩
  have hout : ∃ stats, (sampleLibs m).writeArchive "zstd" created snaps = some (_, stats) :=
    writeArchive_eq rfl
  obtain ⟨stats, hstream⟩ := hout
  obtain rfl := Option.some.inj (hstream.symm.trans ha)
  have hnil : (archiveTables (sampleLibs m) "zstd" snaps).chunkEntries = [] :=
    (chunkEntries_eq_nil_iff _ _ _).mpr hempty
  have hfits : (placeholderHeader "zstd"
      (archiveTables (sampleLibs m) "zstd" snaps).chunkEntries.length).Fits :=
    placeholderHeader_fits "zstd" (by rw [hnil]; decide)
  unfold FxarLibs.readArchiveStream at hresult
  split at hresult
  · cases hresult
  · rename_i manifest chunks rest hread
    unfold FxarLibs.readStream streamingArchive at hread
    rw [ByteReader.run_bind_ok (FxarLibs.readHeader_writeTo hfits rfl _)] at hread
    obtain ⟨found, s, hblock, -⟩ := ByteReader.run_bind_eq_ok hread
    exact readManifestBlock_too_long h _ _ hblock

/-- The manifest of many files is longer than the capacity, so that the archive is not
read back, with all assumptions met. -/
theorem manyFiles_not_roundTrips :
    (sampleLibs (numberedManifest (2 ^ 18))).Lawful ∧
    (sampleLibs (numberedManifest (2 ^ 18))).ofJson (numberedManifest (2 ^ 18)).json =
      some (numberedManifest (2 ^ 18)) ∧
    Set.InjOn (sampleLibs (numberedManifest (2 ^ 18))).blake3
      {c | c ∈ snapshotChunks (numberedFiles (2 ^ 18))} ∧
    ((fileJobs (numberedFiles (2 ^ 18))).map fun job => archivePath job.1 job.2).Nodup ∧
    ¬ RoundTrips (sampleLibs (numberedManifest (2 ^ 18))) "zstd" "2024-01-02T00:00:00+00:00"
      (numberedFiles (2 ^ 18)) permissiveDisk ["out"] := by
  have hempty := numberedFiles_empty (2 ^ 18)
  have hlen := length_le_numberedManifest (2 ^ 18)
  refine ⟨sampleLibs_lawful _, sampleLibs_ofJson _, ?_, numberedFiles_paths_nodup _,
    not_roundTrips_of_too_long (by omega) hempty⟩
  rw [snapshotChunks_of_empty hempty]
  simp

end Foxing
