import Foxing.FxarReader

/-!
# Integrity of restored files

Whatever bytes are offered as an archive, a file is handed out or written only
with data whose hash is the one that the manifest has for it. Every entry that is
not written counts as failed.
-/
namespace Foxing

/-- The chunks of an entry put together. -/
def assembledData (chunks : List Bytes) (entry : FxarManifestEntry) : Option Bytes :=
  (entry.chunks.mapM fun i => chunks[i]?).map List.flatten

/-- The data has the hash that the manifest has for the entry. -/
def Matches (libs : FxarLibs) (entry : FxarManifestEntry) (data : Bytes) : Prop :=
  libs.hexDecode entry.blake3 = some (libs.blake3 data)

/-- Of the entries, those written are among the given ones, with the data their chunks
make, which has their hash; data that does not match is not written, and in the end
every entry is written or counts as failed. -/
structure Verified (libs : FxarLibs) (files : List FxarManifestEntry) (chunks : List Bytes)
    (x : Extraction) : Prop where
  mem : ∀ w ∈ x.writes, w.1 ∈ files
  assembled : ∀ w ∈ x.writes, assembledData chunks w.1 = some w.2
  hashed : ∀ w ∈ x.writes, Matches libs w.1 w.2
  refused : ∀ entry ∈ files, ∀ data, assembledData chunks entry = some data →
    ¬ Matches libs entry data → ∀ w ∈ x.writes, w.1 ≠ entry
  counted : ∀ stats, x.result = .ok stats → x.writes.length + stats.chunksFailed = files.length

/-- The import has come to an end before anything was written. -/
def NothingWritten (x : Extraction) : Prop := x.writes = [] ∧ ∃ stop, x.result = .error stop

section Entries
variable {libs : FxarLibs} {disk : Disk} {target : Path} {chunks : List Bytes}
  {slot : ℕ → Option (Option Bytes)} {entry : FxarManifestEntry}

theorem matches_of_eq_expected {data : Bytes} (h : libs.blake3 data = libs.expectedHash entry) :
    Matches libs entry data := by
  unfold FxarLibs.expectedHash at h
  unfold Matches
  cases hd : libs.hexDecode entry.blake3 with
  | none =>
    have hlen := libs.blake3_length data
    rw [h, hd] at hlen
    simp at hlen
  | some bytes =>
    rw [hd, Option.getD_some] at h
    rw [h]

/-- What is put together from slots is what the chunks behind them make. -/
theorem assembledData_of_assemble (hslot : ∀ i chunk, slot i = some (some chunk) →
      chunks[i]? = some chunk) {n : ℕ} {data : Bytes}
    (h : assemble slot entry.chunks = (n, .data data)) : assembledData chunks entry = some data := by
  unfold assembledData
  generalize entry.chunks = is at h
  induction is generalizing n data with
  | nil =>
    obtain ⟨-, rfl⟩ : 0 = n ∧ [] = data := by simpa [assemble] using h
    rfl
  | cons i is ih =>
    unfold assemble at h
    cases hi : slot i with
    | none => simp [hi] at h
    | some s =>
      cases s with
      | none => simp [hi] at h
      | some chunk =>
        simp only [hi] at h
        rcases hrest : assemble slot is with ⟨k, _ | _ | _⟩
        · rename_i rest
          obtain ⟨-, rfl⟩ : k + 1 = n ∧ chunk ++ rest = data := by simpa [hrest] using h
          obtain ⟨parts, hparts, rfl⟩ := Option.map_eq_some_iff.mp (ih hrest)
          simp [hslot i chunk hi, hparts]
        · simp [hrest] at h
        · simp [hrest] at h

theorem expectedHash_of_matches {data : Bytes} (h : Matches libs entry data) :
    libs.expectedHash entry = libs.blake3 data := by
  unfold FxarLibs.expectedHash
  rw [h, Option.getD_some]

/-- Chunks that are all there are put together. -/
theorem assemble_of_assembledData (hslot : ∀ i chunk, chunks[i]? = some chunk →
      slot i = some (some chunk)) {data : Bytes} (h : assembledData chunks entry = some data) :
    ∃ n, assemble slot entry.chunks = (n, .data data) := by
  unfold assembledData at h
  generalize entry.chunks = is at h
  induction is generalizing data with
  | nil =>
    obtain rfl : [] = data := by simpa using h
    exact ⟨0, rfl⟩
  | cons i is ih =>
    cases hi : chunks[i]? with
    | none => simp [hi] at h
    | some chunk =>
      cases hrest : is.mapM fun i => chunks[i]? with
      | none => simp [hi, hrest] at h
      | some parts =>
        obtain rfl : chunk ++ parts.flatten = data := by simpa [hi, hrest] using h
        obtain ⟨n, hn⟩ := ih (by rw [hrest]; rfl)
        exact ⟨n + 1, by simp [assemble, hslot i chunk hi, hn]⟩

variable (disk target) in
/-- An entry whose chunks are there and that has its hash is written, if the disk lets it. -/
theorem restoreEntry_delivered (hslot : ∀ i chunk, chunks[i]? = some chunk →
      slot i = some (some chunk)) (hsize : entry.size < 2 ^ 63) {data : Bytes}
    (hdata : assembledData chunks entry = some data) (hmatch : Matches libs entry data)
    (hwrite : disk.writeOk (entry.dest target) = true) :
    ∃ n, libs.restoreEntry disk target slot entry = ⟨some data, n, 0, none⟩ := by
  obtain ⟨n, hn⟩ := assemble_of_assembledData hslot hdata
  refine ⟨n, ?_⟩
  unfold FxarLibs.restoreEntry
  rw [if_neg (by omega), hn]
  simp [expectedHash_of_matches hmatch, hwrite]

/-- An entry is written with matching data, or it is not written and counts as failed
or stops the import. -/
def EntryVerified (libs : FxarLibs) (chunks : List Bytes) (x : FxarManifestEntry × EntryResult) :
    Prop :=
  (∃ data, x.2.written = some data ∧ assembledData chunks x.1 = some data ∧
    Matches libs x.1 data ∧ x.2.failed = 0) ∨
  (x.2.written = none ∧ (x.2.failed = 1 ∨ x.2.stop ≠ none))

theorem entryVerified_restoreEntry (hslot : ∀ i chunk, slot i = some (some chunk) →
      chunks[i]? = some chunk) :
    EntryVerified libs chunks (entry, libs.restoreEntry disk target slot entry) := by
  unfold EntryVerified FxarLibs.restoreEntry
  by_cases hsize : entry.size ≥ 2 ^ 63
  · simp only [if_pos hsize]
    exact .inr ⟨trivial, .inr (by simp)⟩
  · simp only [if_neg hsize]
    rcases hrun : assemble slot entry.chunks with ⟨n, data | _ | _⟩
    · simp only
      split_ifs with hhash hwrite
      · exact .inr ⟨rfl, .inl rfl⟩
      · exact .inl ⟨data, rfl, assembledData_of_assemble hslot hrun,
          matches_of_eq_expected (not_not.mp hhash), rfl⟩
      · exact .inr ⟨rfl, .inl rfl⟩
    · exact .inr ⟨rfl, .inl rfl⟩
    · exact .inr ⟨rfl, .inr (by simp)⟩

/-- The entries that are written and those that have failed are all there are. -/
theorem writes_add_failed {results : List (FxarManifestEntry × EntryResult)}
    (h : ∀ x ∈ results, EntryVerified libs chunks x) (hgo : ∀ x ∈ results, x.2.stop = none) :
    (writesOf results).length + (results.map fun x => x.2.failed).sum = results.length := by
  induction results with
  | nil => rfl
  | cons x results ih =>
    have hrest := ih (fun y hy => h y (by simp [hy])) fun y hy => hgo y (by simp [hy])
    have hstop := hgo x (by simp)
    unfold writesOf at hrest ⊢
    rcases h x (by simp) with ⟨data, hw, -, -, hfail⟩ | ⟨hw, hfail⟩
    · simp only [List.filterMap_cons, hw, Option.map_some, List.length_cons, List.map_cons,
        List.sum_cons, hfail]
      omega
    · have hone : x.2.failed = 1 := hfail.resolve_right (not_not.mpr hstop)
      simp only [List.filterMap_cons, hw, Option.map_none, List.length_cons, List.map_cons,
        List.sum_cons, hone]
      omega

theorem collectResults_ok {results : List (FxarManifestEntry × EntryResult)}
    {stats : FxarImportStats} (h : collectResults results = .ok stats) :
    (∀ x ∈ results, x.2.stop = none) ∧
      stats.chunksFailed = (results.map fun x => x.2.failed).sum := by
  unfold collectResults at h
  cases hstop : results.findSome? fun x => x.2.stop with
  | some stop => simp [hstop] at h
  | none =>
    simp only [hstop, Except.ok.injEq] at h
    refine ⟨fun x hx => ?_, by rw [← h]⟩
    exact List.findSome?_eq_none_iff.mp hstop x hx

/-- The results of single entries make a verified import. -/
theorem verified_of_results {results : List (FxarManifestEntry × EntryResult)} {dirs : List Path}
    {files : List FxarManifestEntry} (hfiles : results.map Prod.fst = files)
    (h : ∀ x ∈ results, EntryVerified libs chunks x) :
    Verified libs files chunks ⟨dirs, writesOf results, collectResults results⟩ := by
  have hwrite : ∀ w ∈ writesOf results, w.1 ∈ files ∧ assembledData chunks w.1 = some w.2 ∧
      Matches libs w.1 w.2 := by
    intro w hw
    obtain ⟨x, hx, hxw⟩ := List.mem_filterMap.mp hw
    obtain ⟨data, hdata, rfl⟩ := Option.map_eq_some_iff.mp hxw
    rcases h x hx with ⟨data', hw', hasm, hmatch, -⟩ | ⟨hnone, -⟩
    · obtain rfl : data = data' := Option.some.inj (hdata.symm.trans hw')
      exact ⟨hfiles ▸ List.mem_map_of_mem hx, hasm, hmatch⟩
    · rw [hnone] at hdata
      cases hdata
  refine ⟨fun w hw => (hwrite w hw).1, fun w hw => (hwrite w hw).2.1,
    fun w hw => (hwrite w hw).2.2, ?_, ?_⟩
  · rintro entry - data hdata hno w hw rfl
    obtain ⟨-, hasm, hmatch⟩ := hwrite w hw
    obtain rfl : data = w.2 := Option.some.inj (hdata.symm.trans hasm)
    exact hno hmatch
  · intro stats hstats
    obtain ⟨hgo, hfailed⟩ := collectResults_ok hstats
    have hcount := writes_add_failed h hgo
    have hlen : results.length = files.length := by rw [← hfiles, List.length_map]
    show (writesOf results).length + stats.chunksFailed = files.length
    omega

end Entries

/-! ## The two readers -/

section Readers
variable {libs : FxarLibs} {disk : Disk} {target : Path} {r : FxarReader}

theorem nothingWritten_stopped (stop : ReadStop) : NothingWritten (.stopped stop) :=
  ⟨rfl, stop, rfl⟩

/-- The data that a single file is restored to has its hash. -/
theorem matches_restoreFile {filePath : String} {data : Bytes}
    (h : r.restoreFile libs filePath = .ok data) :
    ∃ manifest entry, r.readManifest libs = .ok manifest ∧
      manifest.files.find? (fun f => f.path = filePath) = some entry ∧ Matches libs entry data := by
  unfold FxarReader.restoreFile at h
  cases hm : r.readManifest libs with
  | error stop => simp [hm, bind, Except.bind] at h
  | ok manifest =>
    cases hi : r.readChunkIndex with
    | error stop => simp [hm, hi, bind, Except.bind] at h
    | ok index =>
      simp only [hm, hi, bind, Except.bind] at h
      cases hf : manifest.files.find? fun f => f.path = filePath with
      | none => simp [hf] at h
      | some entry =>
        refine ⟨manifest, entry, rfl, hf, ?_⟩
        simp only [hf] at h
        split_ifs at h with hsize
        cases hd : r.readFileChunks libs index entry.chunks with
        | error stop => simp [hd] at h
        | ok bytes =>
          simp only [hd] at h
          split_ifs at h with hhash
          cases h
          exact matches_of_eq_expected (not_not.mp hhash)

/-- The thread that loads the chunks hands out nothing but them. -/
theorem entryVerified_restoreWaiting {raw : List Bytes} {loaded : ℕ} {entry : FxarManifestEntry} :
    EntryVerified libs (raw.map (r.loadedChunk libs))
      (entry, r.restoreWaiting libs disk target raw loaded entry) := by
  unfold FxarReader.restoreWaiting
  split_ifs with hwait
  · exact .inr ⟨rfl, .inr (by simp)⟩
  · refine entryVerified_restoreEntry fun i chunk hi => ?_
    obtain ⟨compressed, hraw, hslot⟩ := Option.map_eq_some_iff.mp hi
    rw [List.getElem?_map, hraw, Option.map_some]
    split_ifs at hslot
    exact hslot

/-- Everything that restoring an archive writes is verified. -/
theorem verified_restoreAll (loaded : ℕ → ℕ) :
    NothingWritten (r.restoreAll libs disk target loaded) ∨
      ∃ manifest index raw, r.readManifest libs = .ok manifest ∧ r.readChunkIndex = .ok index ∧
        r.readRawChunks index = .ok raw ∧
        Verified libs manifest.files (raw.map (r.loadedChunk libs))
          (r.restoreAll libs disk target loaded) := by
  unfold FxarReader.restoreAll
  cases hm : r.readManifest libs with
  | error stop => exact .inl (nothingWritten_stopped stop)
  | ok manifest =>
    simp only
    by_cases hspace : (!hasSpace disk manifest.files) = true
    · rw [if_pos hspace]
      exact .inl (nothingWritten_stopped _)
    rw [if_neg hspace]
    cases hindex : r.readChunkIndex with
    | error stop => exact .inl (nothingWritten_stopped stop)
    | ok index =>
      simp only
      by_cases hmade : (!(makeParents disk target manifest.files).2) = true
      · rw [if_pos hmade]
        exact .inl ⟨rfl, _, rfl⟩
      rw [if_neg hmade]
      cases hraw : r.readRawChunks index with
      | error stop => exact .inl ⟨rfl, stop, rfl⟩
      | ok raw =>
        refine .inr ⟨manifest, index, raw, rfl, rfl, hraw, verified_of_results ?_ ?_⟩
        · rw [List.map_map]
          exact List.zipIdx_map_fst 0 manifest.files
        · intro x hx
          obtain ⟨y, -, rfl⟩ := List.mem_map.mp hx
          exact entryVerified_restoreWaiting

/-- Everything that reading a stream writes is verified. -/
theorem verified_readArchiveStream (bytes : Bytes) :
    NothingWritten (libs.readArchiveStream bytes disk target) ∨
      ∃ manifest chunks rest, libs.readStream bytes = .ok ((manifest, chunks), rest) ∧
        Verified libs manifest.files chunks (libs.readArchiveStream bytes disk target) := by
  unfold FxarLibs.readArchiveStream
  cases hs : libs.readStream bytes with
  | error stop => exact .inl (nothingWritten_stopped stop)
  | ok s =>
    obtain ⟨⟨manifest, chunks⟩, rest⟩ := s
    simp only
    split_ifs with hspace hmade
    · exact .inl (nothingWritten_stopped _)
    · exact .inl ⟨rfl, _, rfl⟩
    · refine .inr ⟨manifest, chunks, rest, rfl, verified_of_results ?_ ?_⟩
      · rw [List.map_map]
        exact List.map_id manifest.files
      · intro x hx
        obtain ⟨entry, -, rfl⟩ := List.mem_map.mp hx
        refine entryVerified_restoreEntry fun i chunk hi => ?_
        simpa using hi

end Readers

/-- For every byte string offered as an archive: a single file is restored, an archive
imported, and a stream imported only with data that has the hash of its entry, and
entries whose data does not match are not written and count as failed. -/
theorem archive_integrity (libs : FxarLibs) (bytes : Bytes) :
    (∀ r, FxarReader.open bytes = .ok r → ∀ filePath data,
      r.restoreFile libs filePath = .ok data → ∃ manifest entry,
        r.readManifest libs = .ok manifest ∧
        manifest.files.find? (fun f => f.path = filePath) = some entry ∧
        Matches libs entry data) ∧
    (∀ r, FxarReader.open bytes = .ok r → ∀ disk target loaded,
      NothingWritten (r.restoreAll libs disk target loaded) ∨ ∃ manifest index raw,
        r.readManifest libs = .ok manifest ∧ r.readChunkIndex = .ok index ∧
        r.readRawChunks index = .ok raw ∧
        Verified libs manifest.files (raw.map (r.loadedChunk libs))
          (r.restoreAll libs disk target loaded)) ∧
    (∀ disk target,
      NothingWritten (libs.readArchiveStream bytes disk target) ∨ ∃ manifest chunks rest,
        libs.readStream bytes = .ok ((manifest, chunks), rest) ∧
        Verified libs manifest.files chunks (libs.readArchiveStream bytes disk target)) :=
  ⟨fun _ _ _ _ h => matches_restoreFile h, fun _ _ _ _ loaded => verified_restoreAll loaded,
    fun _ _ => verified_readArchiveStream bytes⟩

end Foxing
