import Foxing.ArchiveRoundTrip
import Foxing.DedupLayout
import Foxing.Lib.Await

/-!
# Waiting for the chunks of a file

One thread loads the chunks and counts them; the files are restored by a pool of others, each of
which waits until the count has come to the highest chunk of its file. A file without chunks
waits for the first one all the same. If there is no chunk at all, or a chunk is named that is
not there, the count never gets so far.
-/
namespace Foxing

/-- The highest chunk of a file. -/
def FxarManifestEntry.maxChunk (entry : FxarManifestEntry) : ℕ := entry.chunks.foldl max 0

/-- The files in the order in which they are taken up. -/
def fileOrder (files : List FxarManifestEntry) : List FxarManifestEntry :=
  files.mergeSort fun a b => a.maxChunk ≤ b.maxChunk

theorem mem_fileOrder {files : List FxarManifestEntry} {f : FxarManifestEntry} :
    f ∈ fileOrder files ↔ f ∈ files := List.mem_mergeSort

/-- A file is covered by a number of chunks: its highest chunk is the last number there is, after
which the count that is waited for is zero again, or all its chunks are among them and there is
one at least. -/
def FxarManifestEntry.Covered (n : ℕ) (entry : FxarManifestEntry) : Prop :=
  2 ^ 64 - 1 ∈ entry.chunks ∨ (0 < n ∧ ∀ i ∈ entry.chunks, i < n)

theorem foldl_max_lt {is : List ℕ} {m n : ℕ} :
    is.foldl max m < n ↔ m < n ∧ ∀ i ∈ is, i < n := by
  induction is generalizing m with
  | nil => simp
  | cons i is ih =>
    rw [List.foldl_cons, ih, max_lt_iff, List.forall_mem_cons, and_assoc]

theorem neededChunks_le_iff {entry : FxarManifestEntry} (hwidth : ∀ i ∈ entry.chunks, i < 2 ^ 64)
    (n : ℕ) : FxarReader.neededChunks entry ≤ n ↔ entry.Covered n := by
  have hmax : entry.chunks.foldl max 0 < 2 ^ 64 := foldl_max_lt.mpr ⟨by omega, hwidth⟩
  unfold FxarReader.neededChunks FxarManifestEntry.Covered
  rw [← foldl_max_lt]
  by_cases hlast : 2 ^ 64 - 1 ∈ entry.chunks
  · have hge : ¬entry.chunks.foldl max 0 < 2 ^ 64 - 1 := by
      intro hlt
      exact absurd ((foldl_max_lt.mp hlt).2 _ hlast) (lt_irrefl _)
    refine iff_of_true ?_ (.inl hlast)
    have hzero : entry.chunks.foldl max 0 + 1 = 2 ^ 64 := by omega
    rw [hzero, Nat.mod_self]
    exact Nat.zero_le n
  · have hlt : entry.chunks.foldl max 0 < 2 ^ 64 - 1 := by
      refine foldl_max_lt.mpr ⟨by omega, fun i hi => ?_⟩
      have hne : i ≠ 2 ^ 64 - 1 := fun h => hlast (h ▸ hi)
      have := hwidth i hi
      omega
    rw [Nat.mod_eq_of_lt (by omega), or_iff_right hlast]
    exact Iff.rfl

namespace FxarReader
variable (libs : FxarLibs) (r : FxarReader)

/-- The files that are restored and the number of chunks that are loaded for them, if it comes
to that. -/
def consumers (disk : Disk) (target : Path) : Option (List FxarManifestEntry × ℕ) :=
  match r.readManifest libs with
  | .error _ => none
  | .ok manifest =>
    if !hasSpace disk manifest.files then none
    else
      match r.readChunkIndex with
      | .error _ => none
      | .ok index =>
        if !(makeParents disk target manifest.files).2 then none
        else
          match r.readRawChunks index with
          | .error _ => none
          | .ok raw => some (manifest.files, raw.length)

/-- Whatever the disk, the pool and the order of turns, every wait for a count is over at some
time, and none is for more chunks than there are. -/
def WaitsEnd : Prop :=
  ∀ disk target files n, r.consumers libs disk target = some (files, n) →
    ∀ w, 0 < w → ∀ σ : ℕ → Await.Turn FxarManifestEntry w, Await.Fair σ →
      Await.Served neededChunks n (Await.start (fileOrder files)) σ

variable {libs r}

theorem length_readRawChunks {index : List ChunkIndexEntry} {raw : List Bytes}
    (h : r.readRawChunks index = .ok raw) : raw.length = index.length := by
  induction index generalizing raw with
  | nil =>
    cases h
    rfl
  | cons entry index ih =>
    unfold readRawChunks at h
    cases hread : ByteReader.readExact ReadStop.unexpectedEof entry.compressedSize
        (r.bytes.drop entry.offset) with
    | error e =>
      rw [hread] at h
      cases h
    | ok p =>
      rw [hread] at h
      cases hrest : r.readRawChunks index with
      | error e =>
        rw [hrest] at h
        cases h
      | ok rest =>
        rw [hrest] at h
        cases h
        rw [List.length_cons, List.length_cons, ih hrest]

theorem length_readChunkIndex {index : List ChunkIndexEntry} (h : r.readChunkIndex = .ok index) :
    index.length = r.header.chunkCount := by
  unfold readChunkIndex at h
  cases hread : ByteReader.replicate ChunkIndexEntry.readFrom r.header.chunkCount
      (r.bytes.drop r.header.indexOffset) with
  | error e =>
    rw [hread] at h
    cases h
  | ok p =>
    rw [hread] at h
    cases h
    exact ByteReader.length_of_replicate hread

/-- What comes to the consumers has been read. -/
theorem read_of_consumers {disk : Disk} {target : Path} {files : List FxarManifestEntry} {n : ℕ}
    (h : r.consumers libs disk target = some (files, n)) :
    ∃ manifest index raw, r.readManifest libs = .ok manifest ∧ r.readChunkIndex = .ok index ∧
      r.readRawChunks index = .ok raw ∧ hasSpace disk manifest.files = true ∧
      (makeParents disk target manifest.files).2 = true ∧ manifest.files = files ∧
      raw.length = n := by
  unfold consumers at h
  cases hm : r.readManifest libs with
  | error e =>
    rw [hm] at h
    cases h
  | ok manifest =>
    cases hi : r.readChunkIndex with
    | error e =>
      rw [hm, hi] at h
      simp at h
    | ok index =>
      cases hraw : r.readRawChunks index with
      | error e =>
        rw [hm, hi] at h
        simp [hraw] at h
      | ok raw =>
        rw [hm, hi] at h
        simp only [hraw] at h
        split_ifs at h with hspace hmade
        cases h
        exact ⟨manifest, index, raw, rfl, rfl, hraw, by simpa using hspace, by simpa using hmade,
          rfl, rfl⟩

theorem consumers_permissive {manifest : FxarManifest} {index : List ChunkIndexEntry}
    {raw : List Bytes} (hm : r.readManifest libs = .ok manifest)
    (hi : r.readChunkIndex = .ok index) (hraw : r.readRawChunks index = .ok raw) (target : Path) :
    r.consumers libs permissiveDisk target = some (manifest.files, raw.length) := by
  have hmade : (makeParents permissiveDisk target manifest.files).2 = true :=
    makeParents_ok (fun _ => rfl) manifest.files
  unfold consumers
  rw [hm, hi]
  dsimp only
  rw [hraw, hmade]
  rfl

/-- The consumers are those of the restoration: each file is restored after its wait. -/
theorem restoreAll_of_consumers {disk : Disk} {target : Path} {files : List FxarManifestEntry}
    {n : ℕ} (h : r.consumers libs disk target = some (files, n)) (loaded : ℕ → ℕ) :
    ∃ raw : List Bytes, raw.length = n ∧
      (r.restoreAll libs disk target loaded).result =
        collectResults (files.zipIdx.map fun x =>
          (x.1, r.restoreWaiting libs disk target raw (loaded x.2) x.1)) := by
  obtain ⟨manifest, index, raw, hm, hi, hraw, hspace, hmade, rfl, hn⟩ := read_of_consumers h
  refine ⟨raw, hn, ?_⟩
  unfold restoreAll
  rw [hm, hi]
  dsimp only
  rw [hspace, hmade, hraw]
  rfl

/-! ## When every wait is over -/

theorem waitsEnd_iff_needed : r.WaitsEnd libs ↔
    ∀ disk target files n, r.consumers libs disk target = some (files, n) →
      ∀ f ∈ files, neededChunks f ≤ n := by
  refine forall₄_congr fun disk target files n => forall_congr' fun _ => ?_
  constructor
  · intro h f hf
    exact (Await.served_iff Nat.one_pos (fileOrder files)).mp (h 1 Nat.one_pos) f
      (mem_fileOrder.mpr hf)
  · intro h w hw
    exact (Await.served_iff hw (fileOrder files)).mpr fun f hf => h f (mem_fileOrder.mp hf)

/-- Every wait is over if the chunks of the files are there. -/
theorem waitsEnd_of_covered (h : ∀ manifest, r.readManifest libs = .ok manifest →
    ∀ f ∈ manifest.files, neededChunks f ≤ r.header.chunkCount) : r.WaitsEnd libs := by
  rw [waitsEnd_iff_needed]
  intro disk target files n hread f hf
  obtain ⟨manifest, index, raw, hm, hi, hraw, -, -, rfl, rfl⟩ := read_of_consumers hread
  rw [length_readRawChunks hraw, length_readChunkIndex hi]
  exact h manifest hm f hf

/-- In an archive that can be read, every wait is over exactly if every file is covered. -/
theorem waitsEnd_iff_covered {manifest : FxarManifest} {index : List ChunkIndexEntry}
    {raw : List Bytes} (hm : r.readManifest libs = .ok manifest)
    (hi : r.readChunkIndex = .ok index) (hraw : r.readRawChunks index = .ok raw)
    (hwidth : ∀ f ∈ manifest.files, ∀ i ∈ f.chunks, i < 2 ^ 64) :
    r.WaitsEnd libs ↔ ∀ f ∈ manifest.files, f.Covered r.header.chunkCount := by
  constructor
  · intro h f hf
    have hneed := waitsEnd_iff_needed.mp h _ [] _ _ (consumers_permissive hm hi hraw []) f hf
    rw [length_readRawChunks hraw, length_readChunkIndex hi] at hneed
    exact (neededChunks_le_iff (hwidth f hf) _).mp hneed
  · intro h
    refine waitsEnd_of_covered fun manifest' hm' f hf => ?_
    obtain rfl : manifest = manifest' := Except.ok.inj (hm.symm.trans hm')
    exact (neededChunks_le_iff (hwidth f hf) _).mpr (h f hf)

end FxarReader

/-! ## Archives that have been written -/

section Written
variable {libs : FxarLibs} {compress created : String} {snaps : List Snapshot}

/-- Whatever is decoded from what the writers make of the manifest is the manifest. -/
def FxarLibs.ManifestSound (libs : FxarLibs) (compress : String) (manifest : FxarManifest) :
    Prop :=
  ∀ json, libs.toJson manifest = some json → ∀ m,
    libs.decodeManifest (compressFlag compress) (libs.compressChunk json compress) = .ok m →
      m = manifest

/-- The manifest that is written for the snapshots. -/
def writtenManifest (libs : FxarLibs) (compress created : String) (snaps : List Snapshot) :
    FxarManifest :=
  ⟨fxarVersion, created, (archiveTables libs compress snaps).manifestEntries,
    snaps.map Snapshot.name⟩

/-- The files of the manifest name chunks of the index. -/
theorem chunks_lt_of_written {f : FxarManifestEntry}
    (hf : f ∈ (archiveTables libs compress snaps).manifestEntries) :
    ∀ i ∈ f.chunks, i < (archiveTables libs compress snaps).chunkEntries.length := by
  obtain ⟨stored, hstores, hmanifest⟩ :=
    stores_buildDedupTables libs (libs.collectAndProcessFiles compress snaps)
  have hlookup : lookUp stored f.chunks ∈
      DedupTables.manifestLookUp stored (archiveTables libs compress snaps).manifestEntries :=
    List.mem_map_of_mem hf
  unfold archiveTables at hlookup ⊢
  rw [hmanifest] at hlookup
  obtain ⟨p, -, hp⟩ := List.mem_map.mp hlookup
  intro i hi
  have hmem : (stored.map ProcessedChunk.blake3Hash)[i]? ∈ lookUp stored f.chunks :=
    List.mem_map_of_mem hi
  rw [← hp] at hmem
  obtain ⟨c, -, hc⟩ := List.mem_map.mp hmem
  obtain ⟨hlt, -⟩ := List.getElem?_eq_some_iff.mp hc.symm
  rwa [hstores.entries, List.length_map, ← List.length_map (f := ProcessedChunk.blake3Hash)]

/-- There is an entry for each file. -/
theorem length_manifestEntries (libs : FxarLibs) (compress : String) (snaps : List Snapshot) :
    (archiveTables libs compress snaps).manifestEntries.length = (fileJobs snaps).length := by
  obtain ⟨stored, -, hmanifest⟩ :=
    stores_buildDedupTables libs (libs.collectAndProcessFiles compress snaps)
  have hlength := congrArg List.length hmanifest
  rw [DedupTables.manifestLookUp, List.length_map, List.length_map,
    FxarLibs.collectAndProcessFiles_eq, List.length_map] at hlength
  rwa [archiveTables, FxarLibs.collectAndProcessFiles_eq]

theorem manifestEntries_eq_nil_iff : (archiveTables libs compress snaps).manifestEntries = [] ↔
    ∀ s ∈ snaps, s.files = [] := by
  rw [← List.length_eq_zero_iff, length_manifestEntries, List.length_eq_zero_iff, fileJobs,
    List.flatMap_eq_nil_iff]
  simp

variable (compress) in
theorem waitsEnd_of_written {json : Bytes}
    (htext : libs.toJson (writtenManifest libs compress created snaps) = some json)
    (hsound : libs.ManifestSound compress (writtenManifest libs compress created snaps))
    (hsize : dataStart (archiveTables libs compress snaps).chunkEntries.length
        (libs.compressChunk json compress).length +
      (archiveTables libs compress snaps).chunkDataBlobs.flatten.length < 2 ^ 64) :
    (seekableReader compress (archiveTables libs compress snaps)
        (libs.compressChunk json compress) json).WaitsEnd libs ↔
      libs.ManifestLost compress (writtenManifest libs compress created snaps) ∨
        (∀ s ∈ snaps, s.files = []) ∨ ∃ s ∈ snaps, ∃ f ∈ s.files, f.data ≠ [] := by
  have hwf : (archiveTables libs compress snaps).WellFormed :=
    DedupTables.wellFormed_buildDedupTables libs compress snaps
  have hstart : dataStart (archiveTables libs compress snaps).chunkEntries.length
      (libs.compressChunk json compress).length < 2 ^ 64 := by omega
  have hcount := chunkCount_lt hstart
  have hread : (seekableReader compress (archiveTables libs compress snaps)
      (libs.compressChunk json compress) json).readManifest libs =
        libs.decodeManifest (compressFlag compress) (libs.compressChunk json compress) :=
    readManifest_seekable compress json hstart
  have hwidth : ∀ f ∈ (writtenManifest libs compress created snaps).files,
      ∀ i ∈ f.chunks, i < 2 ^ 64 :=
    fun f hf i hi => (chunks_lt_of_written hf i hi).trans hcount
  constructor
  · intro hwaits
    by_contra hnot
    rw [not_or, not_or] at hnot
    obtain ⟨hlost, hfiles, hempty⟩ := hnot
    have hnil : (archiveTables libs compress snaps).chunkEntries = [] := by
      refine (chunkEntries_eq_nil_iff libs compress snaps).mpr fun s hs f hf => ?_
      by_contra hdata
      exact hempty ⟨s, hs, f, hf, hdata⟩
    unfold FxarLibs.ManifestLost at hlost
    push Not at hlost
    obtain ⟨json', hjson', m, hm⟩ := hlost
    obtain rfl : json = json' := Option.some.inj (htext.symm.trans hjson')
    obtain rfl := hsound json htext m hm
    have hindex := readChunkIndex_seekable compress json hwf hsize
    have hraw : FxarReader.readRawChunks
        (seekableReader compress (archiveTables libs compress snaps)
          (libs.compressChunk json compress) json)
        ((archiveTables libs compress snaps).index (libs.compressChunk json compress).length) =
          .ok [] := by
      rw [DedupTables.index, hnil]
      rfl
    have hcovered := (FxarReader.waitsEnd_iff_covered (hread.trans hm) hindex hraw hwidth).mp hwaits
    have hne : (archiveTables libs compress snaps).manifestEntries ≠ [] :=
      fun h => hfiles (manifestEntries_eq_nil_iff.mp h)
    obtain ⟨f, hf⟩ := List.exists_mem_of_ne_nil _ hne
    have hzero : (archiveTables libs compress snaps).chunkEntries.length = 0 := by rw [hnil]; rfl
    obtain hlast | ⟨hpos, -⟩ := hcovered f hf
    · have := chunks_lt_of_written hf _ hlast
      omega
    · exact absurd hpos (by
        show ¬0 < (archiveTables libs compress snaps).chunkEntries.length
        omega)
  · intro h
    refine FxarReader.waitsEnd_of_covered fun m hm f hf => ?_
    rw [hread] at hm
    obtain rfl := hsound json htext m hm
    obtain hlost | hnone | ⟨s, hs, g, hg, hdata⟩ := h
    · exact absurd hm (hlost json htext _)
    · rw [writtenManifest, manifestEntries_eq_nil_iff.mpr hnone] at hf
      cases hf
    · refine (neededChunks_le_iff (hwidth f hf) _).mpr (.inr ⟨?_, chunks_lt_of_written hf⟩)
      refine List.length_pos_of_ne_nil fun hnil => ?_
      exact hdata ((chunkEntries_eq_nil_iff libs compress snaps).mp hnil s hs g hg)

/-- An archive that is not too long has offsets of 64 bits. -/
theorem offsets_lt_of_seekable {json : Bytes}
    (hlength : (seekableArchive compress (archiveTables libs compress snaps)
      (libs.compressChunk json compress) json).length < 2 ^ 64) :
    dataStart (archiveTables libs compress snaps).chunkEntries.length
        (libs.compressChunk json compress).length +
      (archiveTables libs compress snaps).chunkDataBlobs.flatten.length < 2 ^ 64 := by
  have hbody := length_archiveBody (libs.compressChunk json compress) json
    (DedupTables.wellFormed_buildDedupTables libs compress snaps) []
  unfold seekableArchive archiveTables at hlength
  unfold archiveTables
  rw [List.length_append, FxarHeader.length_writeTo] at hlength
  rw [List.length_nil] at hbody
  omega

/-- The waits of an archive that can be read are over exactly if every file is covered; those of
an archive that has been written exactly if its manifest is lost, there is no file at all, or one
that is not empty. The waits are those of a restoration by `restoreAll_of_consumers`. -/
theorem restoreAll_waits_end_iff (libs : FxarLibs) :
    (∀ (r : FxarReader) manifest index raw, r.readManifest libs = .ok manifest →
      r.readChunkIndex = .ok index → r.readRawChunks index = .ok raw →
      (∀ f ∈ manifest.files, ∀ i ∈ f.chunks, i < 2 ^ 64) →
      (r.WaitsEnd libs ↔ ∀ f ∈ manifest.files, f.Covered r.header.chunkCount)) ∧
    ∀ compress created snaps json,
      libs.toJson (writtenManifest libs compress created snaps) = some json →
      libs.ManifestSound compress (writtenManifest libs compress created snaps) →
      (∀ a ∈ libs.writeArchiveSeekable compress created snaps, a.1.length < 2 ^ 64) →
      ∃ a r, libs.writeArchiveSeekable compress created snaps = some a ∧
        FxarReader.open a.1 = .ok r ∧
        (r.WaitsEnd libs ↔
          libs.ManifestLost compress (writtenManifest libs compress created snaps) ∨
            (∀ s ∈ snaps, s.files = []) ∨ ∃ s ∈ snaps, ∃ f ∈ s.files, f.data ≠ []) := by
  constructor
  · intro r manifest index raw hm hi hraw hwidth
    exact FxarReader.waitsEnd_iff_covered hm hi hraw hwidth
  · intro compress created snaps json htext hsound hlength
    obtain ⟨stats, hwritten⟩ := writeArchiveSeekable_eq htext
    have hsize := offsets_lt_of_seekable (hlength _ (Option.mem_def.mpr hwritten))
    exact ⟨_, _, hwritten, open_seekable compress json (by omega),
      waitsEnd_of_written compress htext hsound hsize⟩

end Written

/-! ## Samples -/

theorem sampleLibs_manifestSound {manifest m : FxarManifest} (hm : m = manifest)
    (compress : String) : (sampleLibs manifest).ManifestSound compress m := by
  subst hm
  intro json _ m' hdecode
  unfold FxarLibs.decodeManifest at hdecode
  cases hdata : (sampleLibs m).decompressChunk ((sampleLibs m).compressChunk json compress)
      (compressFlag compress) with
  | error e =>
    rw [hdata] at hdecode
    cases hdecode
  | ok data =>
    have hof : (sampleLibs m).ofJson data = if data = m.json then some m else none := rfl
    rw [hdata] at hdecode
    by_cases hjson : data = m.json
    · rw [if_pos hjson] at hof
      simp only [hof] at hdecode
      exact (Except.ok.inj hdecode).symm
    · rw [if_neg hjson] at hof
      simp only [hof] at hdecode
      cases hdecode

/-- The reader of the sample. -/
def sampleReader : FxarReader :=
  seekableReader "none" (archiveTables (sampleLibs sampleManifest) "none" sampleSnapshots)
    sampleManifest.json sampleManifest.json

theorem sample_waits_end :
    sampleReader.WaitsEnd (sampleLibs sampleManifest) ∧
      ∃ a r, (sampleLibs sampleManifest).writeArchiveSeekable "none" "2024-01-02T00:00:00+00:00"
          sampleSnapshots = some a ∧ FxarReader.open a.1 = .ok r ∧
        r.WaitsEnd (sampleLibs sampleManifest) := by
  have hmanifest : writtenManifest (sampleLibs sampleManifest) "none" "2024-01-02T00:00:00+00:00"
      sampleSnapshots = sampleManifest := by decide +kernel
  constructor
  · have hcount : sampleReader.header.chunkCount = 1 := by decide +kernel
    have hread : sampleReader.readManifest (sampleLibs sampleManifest) = .ok sampleManifest := by
      decide +kernel
    have hindex : sampleReader.readChunkIndex =
        .ok ((archiveTables (sampleLibs sampleManifest) "none" sampleSnapshots).index
          sampleManifest.json.length) := by decide +kernel
    have hraw : sampleReader.readRawChunks
        ((archiveTables (sampleLibs sampleManifest) "none" sampleSnapshots).index
          sampleManifest.json.length) = .ok [[97, 98, 99]] := by decide +kernel
    have hwidth : ∀ f ∈ sampleManifest.files, ∀ i ∈ f.chunks, i < 2 ^ 64 := by decide
    refine ((restoreAll_waits_end_iff (sampleLibs sampleManifest)).1 sampleReader sampleManifest _ _
      hread hindex hraw hwidth).mpr ?_
    rw [hcount]
    intro f hf
    rw [List.mem_singleton.mp hf]
    exact .inr ⟨by decide, by decide⟩
  · obtain ⟨a, r, hwritten, hopen, hiff⟩ := (restoreAll_waits_end_iff (sampleLibs sampleManifest)).2
      "none" "2024-01-02T00:00:00+00:00" sampleSnapshots sampleManifest.json
      (by rw [hmanifest]; rfl) (sampleLibs_manifestSound hmanifest _) (by decide +kernel)
    refine ⟨a, r, hwritten, hopen, hiff.mpr (.inr (.inr ?_))⟩
    exact ⟨_, List.mem_singleton_self _, _, List.mem_singleton_self _, by decide⟩

/-- A snapshot of one empty file. -/
def emptySnapshots : List Snapshot := [⟨"2024-01-01", [⟨"a", [], 33188, 0, 0, 0, []⟩]⟩]

def emptyManifest : FxarManifest where
  version := 2
  created := "2024-01-02T00:00:00+00:00"
  files := [⟨"2024-01-01/tree/a", 0, 33188, 0, 0, 0,
    "af1349b9f5f9a1a6a0404dea36dcc9499bcb25c9adc112b7cc9a93cae41f3262", [], []⟩]
  snapshots := ["2024-01-01"]

def emptyReader : FxarReader :=
  seekableReader "none" (archiveTables (sampleLibs emptyManifest) "none" emptySnapshots)
    emptyManifest.json emptyManifest.json

/-- The archive of an empty file can be read, and the file waits for a chunk that never comes. -/
theorem emptyFile_waits_forever :
    ((sampleLibs emptyManifest).writeArchiveSeekable "none" "2024-01-02T00:00:00+00:00"
        emptySnapshots).map Prod.fst = some emptyReader.bytes ∧
      (FxarReader.open emptyReader.bytes).toOption.map FxarReader.header = some emptyReader.header ∧
      ¬emptyReader.WaitsEnd (sampleLibs emptyManifest) := by
  refine ⟨by decide +kernel, by decide +kernel, fun hwaits => ?_⟩
  have hread : emptyReader.consumers (sampleLibs emptyManifest) permissiveDisk [] =
      some (emptyManifest.files, 0) := by decide +kernel
  have hneed := FxarReader.waitsEnd_iff_needed.mp hwaits _ _ _ _ hread _ List.mem_cons_self
  exact absurd hneed (by decide)

end Foxing
