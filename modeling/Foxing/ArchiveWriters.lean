import Foxing.FxarLayout

/-!
# Streaming and seekable archives under random access

The header of a streaming archive has no offsets, and nothing reads its footer.
The random-access reader takes the header itself for the manifest and for the
index, so that it gives the same for both archives only if there is nothing to
be read in either.
-/
namespace Foxing

/-- Random access to both byte strings gives the same manifest, index and contents, or
fails for both. -/
structure SameReads (libs : FxarLibs) (a b : Bytes) : Prop where
  manifest : ((FxarReader.open a).bind fun r => r.readManifest libs).toOption =
    ((FxarReader.open b).bind fun r => r.readManifest libs).toOption
  index : ((FxarReader.open a).bind fun r => r.readChunkIndex).toOption =
    ((FxarReader.open b).bind fun r => r.readChunkIndex).toOption
  file : ∀ path, ((FxarReader.open a).bind fun r => r.restoreFile libs path).toOption =
    ((FxarReader.open b).bind fun r => r.restoreFile libs path).toOption
  all : ∀ disk target loaded,
    ((FxarReader.open a).map fun r => (r.restoreAll libs disk target loaded).writes).toOption =
      ((FxarReader.open b).map fun r => (r.restoreAll libs disk target loaded).writes).toOption
  stats : ∀ disk target loaded,
    ((FxarReader.open a).bind fun r => (r.restoreAll libs disk target loaded).result).toOption =
      ((FxarReader.open b).bind fun r => (r.restoreAll libs disk target loaded).result).toOption
  inspect : (libs.inspectArchive a).toOption = (libs.inspectArchive b).toOption

/-- The bytes of every header from its offset 16 on. -/
def headerTail : Bytes := [0, 0, 32, 0, 0, 0, 1, 0]

/-- No codec and no JSON text begins like the end of a header. -/
def FxarLibs.RejectsHeader (libs : FxarLibs) : Prop :=
  ∀ flags rest text, libs.decompressChunk (headerTail ++ rest) flags = .ok text →
    libs.ofJson text = none

/-! ## Random access to a streaming archive -/

section Streaming
variable {libs : FxarLibs} {compress : String} {t : DedupTables} {compressed json : Bytes}

/-- The magic and the version, which stand where the length of the manifest is looked for. -/
def headerFront : Bytes := [70, 88, 65, 82, 2, 0, 0, 0]

/-- The flags and the least length of a chunk. -/
def headerMiddle (compress : String) : Bytes :=
  Bytes.ofNat 4 (compressFlag compress) ++ [0, 8, 0, 0]

/-- The header as the readers find it, with zeros for all offsets. -/
theorem placeholderHeader_writeTo (n : ℕ) :
    (placeholderHeader compress n).writeTo = headerFront ++ (headerMiddle compress ++
      (headerTail ++ (List.replicate 32 0 ++ Bytes.ofNat 8 n))) := by
  have hversion : Bytes.ofNat 4 fxarVersion = [2, 0, 0, 0] := by decide
  have hmin : Bytes.ofNat 4 (2 * 1024) = [0, 8, 0, 0] := by decide
  have hmax : Bytes.ofNat 4 (2 * 1024 * 1024) = [0, 0, 32, 0] := by decide
  have havg : Bytes.ofNat 4 (64 * 1024) = [0, 0, 1, 0] := by decide
  have hzero : Bytes.ofNat 8 0 = List.replicate 8 0 := by decide
  simp only [FxarHeader.writeTo, placeholderHeader, FxarHeader.new, GearChunker.default, hversion,
    hmin, hmax, havg, hzero, headerMiddle, List.append_assoc]
  rfl

theorem length_headerMiddle : (headerMiddle compress).length = 8 := by
  simp [headerMiddle]

variable (compress t compressed json) in
/-- The manifest of a streaming archive is not found. -/
theorem readManifest_streaming (hrej : libs.RejectsHeader) :
    ∃ stop, (streamingReader compress t compressed json).readManifest libs = .error stop := by
  have hread : ∀ rest, ∃ stop, libs.readManifestBlock (compressFlag compress)
      ((placeholderHeader compress t.chunkEntries.length).writeTo ++ rest) = .error stop := by
    intro rest
    unfold FxarLibs.readManifestBlock
    rw [placeholderHeader_writeTo, List.append_assoc, List.append_assoc, List.append_assoc,
      ByteReader.run_bind_ok (ByteReader.readExact_append (by rfl : headerFront.length = 8) _),
      ByteReader.run_bind_ok (ByteReader.readExact_append length_headerMiddle _)]
    generalize (List.replicate 32 0 ++ Bytes.ofNat 8 t.chunkEntries.length) ++ rest = more
    generalize hlen : Bytes.toNat headerFront = len
    by_cases heof : (headerTail ++ more).length < len
    · exact ⟨_, ByteReader.run_bind_error (ByteReader.readExact_eof heof)⟩
    · have hlong : 8 ≤ len := by
        rw [← hlen]
        decide
      have htake : ByteReader.readExact ReadStop.unexpectedEof len (headerTail ++ more) =
          .ok (headerTail ++ more.take (len - 8), more.drop (len - 8)) := by
        unfold ByteReader.readExact
        rw [if_pos (by omega), List.take_append, List.drop_append,
          List.take_of_length_le (by exact hlong), List.drop_of_length_le (by exact hlong)]
        rfl
      rw [ByteReader.run_bind_ok htake]
      cases hd : libs.decompressChunk (headerTail ++ more.take (len - 8))
          (compressFlag compress) with
      | error stop => exact ⟨stop, rfl⟩
      | ok text =>
        refine ⟨.invalidData, ?_⟩
        rw [ByteReader.run_bind_liftM_ok, hrej _ _ _ hd]
        rfl
  obtain ⟨stop, hstop⟩ := hread (archiveBody compressed json (t.index compressed.length)
    t.chunkDataBlobs (streamFooter t.chunkEntries.length compressed.length).writeTo)
  refine ⟨stop, ?_⟩
  have hbytes : (streamingReader compress t compressed json).bytes.drop
      (streamingReader compress t compressed json).header.manifestOffset =
        streamingArchive compress t compressed json := rfl
  have hflags : (streamingReader compress t compressed json).header.flags =
      compressFlag compress := rfl
  rw [FxarReader.readManifest, hbytes, hflags, streamingArchive, hstop]
  rfl

/-- What is taken for the first index entry of a streaming archive has no offset. -/
theorem readFrom_placeholderHeader {n : ℕ} {rest s : Bytes} {e : ChunkIndexEntry}
    (h : ChunkIndexEntry.readFrom ((placeholderHeader compress n).writeTo ++ rest) = .ok (e, s)) :
    e.offset = 0 := by
  unfold ChunkIndexEntry.readFrom ByteReader.readExact at h
  have hlen : chunkIndexEntrySize ≤ ((placeholderHeader compress n).writeTo ++ rest).length := by
    rw [List.length_append, FxarHeader.length_writeTo]
    exact (by decide : chunkIndexEntrySize ≤ headerSize).trans (Nat.le_add_right _ _)
  rw [ByteReader.run_bind_ok (if_pos hlen)] at h
  cases h
  show Bytes.field (List.take 48 _) 36 8 = 0
  rw [Bytes.field_take (by decide), placeholderHeader_writeTo, List.append_assoc,
    List.append_assoc, List.append_assoc,
    Bytes.field_append_right (by decide : headerFront.length ≤ 36),
    Bytes.field_append_right (by rw [length_headerMiddle]; decide), length_headerMiddle,
    Bytes.field_append_right (by decide), List.append_assoc, Bytes.field_zeros (by decide)]

theorem readChunkIndex_streaming (h : t.chunkEntries ≠ []) {index : List ChunkIndexEntry}
    (hread : (streamingReader compress t compressed json).readChunkIndex = .ok index) :
    ∃ e, index.head? = some e ∧ e.offset = 0 := by
  obtain ⟨n, hn⟩ := Nat.exists_eq_add_one_of_ne_zero (List.length_pos_iff.mpr h).ne'
  change ((ByteReader.replicate ChunkIndexEntry.readFrom t.chunkEntries.length
    (streamingArchive compress t compressed json)).bind fun p => .ok p.1) = .ok index at hread
  rw [hn] at hread
  cases hrun : ByteReader.replicate ChunkIndexEntry.readFrom (n + 1)
      (streamingArchive compress t compressed json) with
  | error stop =>
    rw [hrun] at hread
    cases hread
  | ok p =>
    rw [hrun] at hread
    cases hread
    obtain ⟨e, s, hfirst, hhead⟩ := ByteReader.replicate_succ_ok hrun
    exact ⟨e, hhead, readFrom_placeholderHeader hfirst⟩

end Streaming

/-! ## Archives without chunks -/

section NoChunks
variable {libs : FxarLibs} {compress : String} {t : DedupTables}

theorem addChunk_ne_nil (h : t.WellFormed) (c : ProcessedChunk) :
    (t.addChunk c).2.chunkEntries ≠ [] := by
  unfold DedupTables.addChunk
  cases hs : t.seenChunks c.blake3Hash with
  | some i =>
    have hlt := h.seen _ i hs
    show t.chunkEntries ≠ []
    exact List.ne_nil_of_length_pos (by omega)
  | none => simp

theorem addChunks_eq_nil_iff (h : t.WellFormed) (cs : List Bytes) :
    (DedupTables.addChunks (cs.map (libs.processChunk compress)) t).2.chunkEntries = [] ↔
      t.chunkEntries = [] ∧ cs = [] := by
  induction cs generalizing t with
  | nil => simp [DedupTables.addChunks]
  | cons c cs ih =>
    simp only [List.map_cons, DedupTables.addChunks]
    rw [ih (h.addChunk c)]
    simp [addChunk_ne_nil h]

theorem chunks_eq_nil_iff (f : SnapshotFile) : f.chunks = [] ↔ f.data = [] := by
  unfold SnapshotFile.chunks
  constructor
  · intro h
    rw [← GearChunker.default.flatten_chunks (by decide) (by decide) f.data, h, List.flatten_nil]
  · intro h
    simp [h, GearChunker.chunks, GearChunker.findBoundaries, GearChunker.boundariesFrom, slicesFrom]

theorem addFile_eq_nil_iff (h : t.WellFormed) (job : String × SnapshotFile) :
    (t.addFile libs (libs.processFile compress job.1 job.2)).chunkEntries = [] ↔
      t.chunkEntries = [] ∧ job.2.data = [] := by
  have hcount : DedupTables.WellFormed { t with stats := { t.stats with
      totalFiles := t.stats.totalFiles + 1
      totalApparentBytes := t.stats.totalApparentBytes + job.2.data.length } } :=
    ⟨h.blobs, h.hash, h.size, h.compressedSize, h.seen⟩
  rw [← chunks_eq_nil_iff]
  exact addChunks_eq_nil_iff hcount job.2.chunks

theorem addFiles_eq_nil_iff (h : t.WellFormed) (jobs : List (String × SnapshotFile)) :
    ((jobs.map fun job => libs.processFile compress job.1 job.2).foldl
        (DedupTables.addFile libs) t).chunkEntries = [] ↔
      t.chunkEntries = [] ∧ ∀ job ∈ jobs, job.2.data = [] := by
  induction jobs generalizing t with
  | nil => simp
  | cons job jobs ih =>
    simp only [List.map_cons, List.foldl_cons, List.forall_mem_cons]
    rw [ih (h.addFile job.1 job.2), addFile_eq_nil_iff h, and_assoc]

/-- An archive has no chunks exactly if all its files are empty. -/
theorem chunkEntries_eq_nil_iff (libs : FxarLibs) (compress : String) (snaps : List Snapshot) :
    (libs.buildDedupTables (libs.collectAndProcessFiles compress snaps)).chunkEntries = [] ↔
      ∀ s ∈ snaps, ∀ f ∈ s.files, f.data = [] := by
  unfold FxarLibs.buildDedupTables
  rw [FxarLibs.collectAndProcessFiles_eq, addFiles_eq_nil_iff DedupTables.wellFormed_empty]
  simp only [fileJobs, List.mem_flatMap, List.mem_map]
  constructor
  · rintro ⟨-, h⟩ s hs f hf
    exact h (s.name, f) ⟨s, hs, f, hf, rfl⟩
  · intro h
    refine ⟨rfl, ?_⟩
    rintro job ⟨s, hs, f, hf, rfl⟩
    exact h s hs f hf

end NoChunks

/-! ## When both archives read the same -/

section SameReads
variable {libs : FxarLibs} {compress created : String} {t : DedupTables} {compressed json : Bytes}

theorem inspectArchive_of_error {a : Bytes} {r : FxarReader} {stop : ReadStop}
    (ha : FxarReader.open a = .ok r) (hr : r.readManifest libs = .error stop) :
    libs.inspectArchive a = .error stop := by
  unfold FxarLibs.inspectArchive
  rw [ha]
  show (r.readManifest libs).bind _ = _
  rw [hr]
  rfl

/-- Without a manifest nothing is read. -/
theorem sameReads_of_errors {a b : Bytes} {r r' : FxarReader} {stop stop' : ReadStop}
    (ha : FxarReader.open a = .ok r) (hb : FxarReader.open b = .ok r')
    (hr : r.readManifest libs = .error stop) (hr' : r'.readManifest libs = .error stop')
    (hindex : r.readChunkIndex.toOption = r'.readChunkIndex.toOption) : SameReads libs a b := by
  have hbind : ∀ {α : Type} (x : FxarReader → Except ReadStop α), (x r).toOption = (x r').toOption →
      ((FxarReader.open a).bind x).toOption = ((FxarReader.open b).bind x).toOption := by
    intro α x hx
    rw [ha, hb]
    exact hx
  refine ⟨hbind _ ?_, hbind _ hindex, fun path => hbind _ ?_, fun disk target loaded => ?_,
    fun disk target loaded => hbind _ ?_, ?_⟩
  · rw [hr, hr']
    rfl
  · unfold FxarReader.restoreFile
    rw [hr, hr']
    rfl
  · unfold FxarReader.restoreAll
    rw [ha, hb]
    show some (Extraction.writes _) = some (Extraction.writes _)
    rw [hr, hr']
    rfl
  · unfold FxarReader.restoreAll
    rw [hr, hr']
    rfl
  · rw [inspectArchive_of_error ha hr, inspectArchive_of_error hb hr']
    rfl

variable (compress compressed json) in
/-- The two archives read the same exactly if there are no chunks and the manifest
cannot be decoded either. -/
theorem sameReads_iff (h : t.WellFormed) (hrej : libs.RejectsHeader)
    (hsize : dataStart t.chunkEntries.length compressed.length +
      t.chunkDataBlobs.flatten.length < 2 ^ 64) :
    SameReads libs (streamingArchive compress t compressed json)
        (seekableArchive compress t compressed json) ↔
      t.chunkEntries = [] ∧
        ∀ manifest, libs.decodeManifest (compressFlag compress) compressed ≠ .ok manifest := by
  have hstart : dataStart t.chunkEntries.length compressed.length < 2 ^ 64 := by omega
  have hopen := open_streaming compress compressed json (chunkCount_lt hstart)
  have hopen' := open_seekable compress json hstart
  obtain ⟨stop, hman⟩ := readManifest_streaming compress t compressed json hrej
  have hman' : (seekableReader compress t compressed json).readManifest libs = _ :=
    readManifest_seekable compress json hstart
  have hindex' := readChunkIndex_seekable compress json h hsize
  constructor
  · intro hsame
    constructor
    · by_contra hne
      have hindex := hsame.index
      rw [hopen, hopen'] at hindex
      simp only [Except.bind, hindex'] at hindex
      cases hread : (streamingReader compress t compressed json).readChunkIndex with
      | error stop =>
        rw [hread] at hindex
        cases hindex
      | ok index =>
        rw [hread] at hindex
        obtain rfl : index = t.index compressed.length := Option.some.inj hindex
        obtain ⟨e, hhead, hzero⟩ := readChunkIndex_streaming hne hread
        obtain ⟨hoff, -, -⟩ := FxarLibs.mem_assignOffsets (List.mem_of_head? hhead)
        unfold dataStart headerSize at hoff
        omega
    · intro manifest hdec
      have hmanifest := hsame.manifest
      rw [hopen, hopen'] at hmanifest
      simp only [Except.bind, hman, hman', hdec] at hmanifest
      cases hmanifest
  · rintro ⟨hnil, hlost⟩
    cases hdec : libs.decodeManifest (compressFlag compress) compressed with
    | ok manifest => exact absurd hdec (hlost manifest)
    | error stop' =>
      refine sameReads_of_errors hopen hopen' hman (hman'.trans hdec) ?_
      have hzero : t.chunkEntries.length = 0 := by rw [hnil, List.length_nil]
      rw [hindex', List.length_eq_zero_iff.mp ((DedupTables.length_index h _).trans hzero)]
      unfold FxarReader.readChunkIndex
      show ((ByteReader.replicate ChunkIndexEntry.readFrom t.chunkEntries.length _).bind
        fun p => Except.ok p.1).toOption = _
      rw [hzero]
      rfl

end SameReads

/-- The manifest cannot be decoded from what the writers make of it. -/
def FxarLibs.ManifestLost (libs : FxarLibs) (compress : String) (manifest : FxarManifest) : Prop :=
  ∀ json, libs.toJson manifest = some json → ∀ m,
    libs.decodeManifest (compressFlag compress) (libs.compressChunk json compress) ≠ .ok m

theorem snapshotChunks_of_empty {snaps : List Snapshot}
    (h : ∀ s ∈ snaps, ∀ f ∈ s.files, f.data = []) : snapshotChunks snaps = [] := by
  refine List.flatMap_eq_nil_iff.mpr fun job hjob => ?_
  obtain ⟨s, hs, hmem⟩ := List.mem_flatMap.mp hjob
  obtain ⟨f, hf, rfl⟩ := List.mem_map.mp hmem
  exact (chunks_eq_nil_iff f).mpr (h s hs f hf)

/-- The manifest of an archive without chunks. -/
theorem manifest_of_empty (libs : FxarLibs) (compress created : String) {snaps : List Snapshot}
    (h : ∀ s ∈ snaps, ∀ f ∈ s.files, f.data = []) :
    ⟨fxarVersion, created, (archiveTables libs compress snaps).manifestEntries,
      snaps.map Snapshot.name⟩ = libs.archiveManifest created snaps := by
  have hinj : Set.InjOn libs.blake3 {c | c ∈ snapshotChunks snaps} := by
    simp [snapshotChunks_of_empty h]
  obtain ⟨-, -, hman⟩ := FxarLibs.buildDedupTables_eq compress hinj
  unfold FxarLibs.archiveManifest
  rw [← hman]
  rfl

/-- The outputs of both writers read the same under random access exactly if all files
are empty and the manifest is lost in its compressed form. -/
theorem writers_interchangeable_iff (libs : FxarLibs) (compress created : String)
    (snaps : List Snapshot) (hjson : ∀ m, (libs.toJson m).isSome = true)
    (hrej : libs.RejectsHeader)
    (hsize : ∀ out ∈ libs.writeArchive compress created snaps, out.1.length < 2 ^ 64) :
    (∃ a ∈ libs.writeArchive compress created snaps,
      ∃ b ∈ libs.writeArchiveSeekable compress created snaps, SameReads libs a.1 b.1) ↔
      (∀ s ∈ snaps, ∀ f ∈ s.files, f.data = []) ∧
        libs.ManifestLost compress (libs.archiveManifest created snaps) := by
  have hwf : (archiveTables libs compress snaps).WellFormed :=
    DedupTables.wellFormed_buildDedupTables libs compress snaps
  obtain ⟨json, htext⟩ := Option.isSome_iff_exists.mp (hjson ⟨fxarVersion, created,
    (archiveTables libs compress snaps).manifestEntries, snaps.map Snapshot.name⟩)
  obtain ⟨stats, hstream⟩ := writeArchive_eq htext
  obtain ⟨stats', hseek⟩ := writeArchiveSeekable_eq htext
  have hsame := sameReads_iff compress (libs.compressChunk json compress) json hwf hrej
    (offsets_lt_of_size htext hsize)
  have hnil : (archiveTables libs compress snaps).chunkEntries = [] ↔ _ :=
    chunkEntries_eq_nil_iff libs compress snaps
  constructor
  · rintro ⟨a, ha, b, hb, hread⟩
    obtain rfl := Option.some.inj (hstream.symm.trans ha)
    obtain rfl := Option.some.inj (hseek.symm.trans hb)
    obtain ⟨hempty, hlost⟩ := hsame.mp hread
    refine ⟨hnil.mp hempty, fun json' hjson' => ?_⟩
    rw [← manifest_of_empty libs compress created (hnil.mp hempty), htext] at hjson'
    obtain rfl := Option.some.inj hjson'
    exact hlost
  · rintro ⟨hempty, hlost⟩
    refine ⟨_, hstream, _, hseek, hsame.mpr ⟨hnil.mpr hempty, hlost json ?_⟩⟩
    rw [← manifest_of_empty libs compress created hempty, htext]

/-- A snapshot of one file, "abc". -/
def sampleSnapshots : List Snapshot :=
  [⟨"2024-01-01", [⟨"a", [97, 98, 99], 33188, 0, 0, 0, []⟩]⟩]

def sampleManifest : FxarManifest where
  version := 2
  created := "2024-01-02T00:00:00+00:00"
  files := [⟨"2024-01-01/tree/a", 3, 33188, 0, 0, 0,
    "6437b3ac38465133ffb63b75273a8db548c558465d79db03fd359c6cd5bd9d85", [0], []⟩]
  snapshots := ["2024-01-01"]

/-- What the sample codecs make of data is the data. -/
theorem sampleLibs_decompressChunk {manifest : FxarManifest} {flags : ℕ} {data text : Bytes}
    (h : (sampleLibs manifest).decompressChunk data flags = .ok text) : text = data := by
  have hif : ∀ {p : Prop} [Decidable p], (if p then some data else none).elim
      (Except.error ReadStop.invalidData) .ok = .ok text → text = data := by
    intro p _ h
    split_ifs at h
    · exact (Except.ok.inj h).symm
    · cases h
  unfold FxarLibs.decompressChunk at h
  split at h
  · exact (Except.ok.inj h).symm
  · exact hif h
  · exact hif h
  · exact (Except.ok.inj h).symm
  · cases h
  · cases h

theorem sampleLibs_rejectsHeader (manifest : FxarManifest) :
    (sampleLibs manifest).RejectsHeader := by
  intro flags rest text h
  have hne : headerTail ++ rest ≠ manifest.json := by
    intro heq
    cases heq
  rw [sampleLibs_decompressChunk h]
  show (if headerTail ++ rest = manifest.json then some manifest else none) = none
  rw [if_neg hne]

theorem sample_interchangeable :
    (∃ a ∈ (sampleLibs sampleManifest).writeArchive "none" "2024-01-02T00:00:00+00:00"
        sampleSnapshots, ∃ b ∈ (sampleLibs sampleManifest).writeArchiveSeekable "none"
        "2024-01-02T00:00:00+00:00" sampleSnapshots,
      SameReads (sampleLibs sampleManifest) a.1 b.1) ↔
      (∀ s ∈ sampleSnapshots, ∀ f ∈ s.files, f.data = []) ∧
        (sampleLibs sampleManifest).ManifestLost "none" ((sampleLibs sampleManifest).archiveManifest
          "2024-01-02T00:00:00+00:00" sampleSnapshots) :=
  writers_interchangeable_iff _ _ _ _ (fun _ => rfl) (sampleLibs_rejectsHeader _)
    (by decide +kernel)

/-- The manifest of the seekable archive is read, that of the streaming one is not. -/
theorem sample_not_interchangeable :
    ¬ ∃ a ∈ (sampleLibs sampleManifest).writeArchive "none" "2024-01-02T00:00:00+00:00"
        sampleSnapshots, ∃ b ∈ (sampleLibs sampleManifest).writeArchiveSeekable "none"
        "2024-01-02T00:00:00+00:00" sampleSnapshots,
      SameReads (sampleLibs sampleManifest) a.1 b.1 := by
  rintro ⟨a, ha, b, hb, hsame⟩
  have hstream : ∀ a ∈ (sampleLibs sampleManifest).writeArchive "none" "2024-01-02T00:00:00+00:00"
      sampleSnapshots, ((FxarReader.open a.1).bind fun r =>
        r.readManifest (sampleLibs sampleManifest)).toOption = none := by
    decide +kernel
  have hseek : ∀ b ∈ (sampleLibs sampleManifest).writeArchiveSeekable "none"
      "2024-01-02T00:00:00+00:00" sampleSnapshots, ((FxarReader.open b.1).bind fun r =>
        r.readManifest (sampleLibs sampleManifest)).toOption = some sampleManifest := by
    decide +kernel
  have hmanifest := hsame.manifest
  rw [hstream a ha, hseek b hb] at hmanifest
  cases hmanifest

end Foxing
