import Foxing.FxarLayout

/-!
# Deduplication and layout for any files

The chunks that are stored are chunks of the files, at most one with each hash, and the files
refer to them by their hashes, whether or not two chunks have the same hash. The stored chunks
lie one behind the other behind the index, each where its entry says.
-/
namespace Foxing

/-- What the index says of a chunk that is stored, before it has an offset. -/
def ProcessedChunk.entry (c : ProcessedChunk) : ChunkIndexEntry where
  blake3Hash := c.blake3Hash
  size := c.size
  offset := 0
  compressedSize := c.compressed.length % 2 ^ 32

theorem getElem?_concat {α : Type} (l : List α) (a b : α) (i : ℕ) :
    (l ++ [a])[i]? = some b ↔ l[i]? = some b ∨ i = l.length ∧ a = b := by
  rcases Nat.lt_trichotomy i l.length with h | rfl | h
  · rw [List.getElem?_append_left h]
    simp [h.ne]
  · simp
  · rw [List.getElem?_append_right h.le, List.getElem?_eq_none h.le,
      List.getElem?_eq_none (by rw [List.length_singleton]; omega)]
    simp [h.ne']

/-! ## The stored chunks -/

/-- The tables store some of the chunks that have been met, with pairwise different hashes. -/
structure DedupTables.Stores (met stored : List ProcessedChunk) (t : DedupTables) : Prop where
  sublist : stored.Sublist met
  entries : t.chunkEntries = stored.map ProcessedChunk.entry
  blobs : t.chunkDataBlobs = stored.map ProcessedChunk.compressed
  nodup : (stored.map ProcessedChunk.blake3Hash).Nodup
  seen : ∀ h i, t.seenChunks h = some i ↔ (stored.map ProcessedChunk.blake3Hash)[i]? = some h
  unique : t.stats.uniqueChunks = stored.length
  count : t.stats.chunkCount = met.length
  dedup : t.stats.uniqueChunks + t.stats.dedupChunks = met.length

/-- The hashes that indices stand for. -/
def lookUp (stored : List ProcessedChunk) (is : List ℕ) : List (Option Bytes) :=
  is.map fun i => (stored.map ProcessedChunk.blake3Hash)[i]?

def hashesOf (cs : List ProcessedChunk) : List (Option Bytes) :=
  cs.map fun c => some c.blake3Hash

/-- What an index stands for does not change when more is stored. -/
theorem lookUp_append {stored : List ProcessedChunk} {is : List ℕ} {cs : List ProcessedChunk}
    (h : lookUp stored is = hashesOf cs) (more : List ProcessedChunk) :
    lookUp (stored ++ more) is = hashesOf cs := by
  rw [← h]
  unfold lookUp at h ⊢
  unfold hashesOf at h
  apply List.map_congr_left
  intro i hi
  obtain ⟨c, -, hc⟩ : ∃ c ∈ cs, some c.blake3Hash = (stored.map ProcessedChunk.blake3Hash)[i]? := by
    have hmem := List.mem_map_of_mem (f := fun i => (stored.map ProcessedChunk.blake3Hash)[i]?) hi
    rw [h] at hmem
    exact List.mem_map.mp hmem
  have hlt : i < (stored.map ProcessedChunk.blake3Hash).length := by
    by_contra hge
    rw [List.getElem?_eq_none (Nat.le_of_not_lt hge)] at hc
    cases hc
  rw [List.map_append, List.getElem?_append_left hlt]

namespace DedupTables
variable {met stored : List ProcessedChunk} {t : DedupTables}

theorem stores_empty : Stores [] [] empty where
  sublist := List.Sublist.refl []
  entries := rfl
  blobs := rfl
  nodup := List.nodup_nil
  seen h i := by simp [empty]
  unique := rfl
  count := rfl
  dedup := rfl

/-- A chunk whose hash is new is stored, and the index of any chunk stands for its hash. -/
theorem Stores.addChunk (h : t.Stores met stored) (c : ProcessedChunk) :
    ∃ more, (t.addChunk c).2.Stores (met ++ [c]) (stored ++ more) ∧
      ((stored ++ more).map ProcessedChunk.blake3Hash)[(t.addChunk c).1]? = some c.blake3Hash ∧
      (t.addChunk c).2.manifestEntries = t.manifestEntries := by
  unfold DedupTables.addChunk
  cases hseen : t.seenChunks c.blake3Hash with
  | some i =>
    refine ⟨[], ?_, ?_, rfl⟩
    · rw [List.append_nil]
      refine ⟨h.sublist.trans (List.sublist_append_left met [c]), h.entries, h.blobs, h.nodup,
        h.seen, h.unique, ?_, ?_⟩
      · rw [List.length_append, ← h.count]
        rfl
      · rw [List.length_append, ← h.dedup]
        rfl
    · rw [List.append_nil]
      exact (h.seen _ _).mp hseen
  | none =>
    have hlength : t.chunkEntries.length = (stored.map ProcessedChunk.blake3Hash).length := by
      rw [h.entries, List.length_map, List.length_map]
    have hnew : c.blake3Hash ∉ stored.map ProcessedChunk.blake3Hash := by
      intro hmem
      obtain ⟨i, hi⟩ := List.mem_iff_getElem?.mp hmem
      rw [(h.seen _ i).mpr hi] at hseen
      cases hseen
    refine ⟨[c], ⟨?_, ?_, ?_, ?_, ?_, ?_, ?_, ?_⟩, ?_, rfl⟩
    · exact h.sublist.append (List.Sublist.refl [c])
    · rw [List.map_append, ← h.entries]
      rfl
    · rw [List.map_append, ← h.blobs]
      rfl
    · rw [List.map_append, List.map_singleton, List.nodup_append]
      refine ⟨h.nodup, List.nodup_singleton _, ?_⟩
      intro a ha b hb heq
      rw [List.mem_singleton] at hb
      exact hnew (hb ▸ heq ▸ ha)
    · intro d i
      dsimp only
      rw [List.map_append, List.map_singleton, hlength]
      rw [getElem?_concat]
      by_cases hd : d = c.blake3Hash
      · subst hd
        rw [Function.update_self, Option.some_inj]
        constructor
        · exact fun hi => .inr ⟨hi.symm, rfl⟩
        · rintro (hi | ⟨hi, -⟩)
          · exact absurd (List.mem_of_getElem? hi) hnew
          · exact hi.symm
      · rw [Function.update_of_ne hd, h.seen]
        constructor
        · exact Or.inl
        · rintro (hi | ⟨-, hi⟩)
          · exact hi
          · exact absurd hi.symm hd
    · rw [List.length_append, ← h.unique]
      rfl
    · rw [List.length_append, ← h.count]
      rfl
    · rw [List.length_append, ← h.dedup]
      show t.stats.uniqueChunks + 1 + t.stats.dedupChunks = _
      rw [List.length_singleton]
      omega
    · dsimp only
      rw [List.map_append, hlength, List.getElem?_append_right (le_refl _), Nat.sub_self]
      rfl

/-- The indices of the chunks of a file stand for their hashes. -/
theorem Stores.addChunks (h : t.Stores met stored) (cs : List ProcessedChunk) :
    ∃ more, (addChunks cs t).2.Stores (met ++ cs) (stored ++ more) ∧
      lookUp (stored ++ more) (DedupTables.addChunks cs t).1 = hashesOf cs ∧
      (DedupTables.addChunks cs t).2.manifestEntries = t.manifestEntries := by
  induction cs generalizing t met stored with
  | nil => exact ⟨[], by rwa [List.append_nil, List.append_nil], rfl, rfl⟩
  | cons c cs ih =>
    obtain ⟨new, hstep, hindex, hmanifest⟩ := h.addChunk c
    obtain ⟨more, hrest, hindices, hmanifests⟩ := ih hstep
    rw [List.append_assoc, List.append_assoc, List.singleton_append] at hrest
    refine ⟨new ++ more, hrest, ?_, hmanifests.trans hmanifest⟩
    have hfirst : lookUp (stored ++ new) [(t.addChunk c).1] = hashesOf [c] :=
      congrArg (fun h => [h]) hindex
    have hkept := lookUp_append hfirst more
    rw [List.append_assoc] at hkept hindices
    exact congrArg₂ (· ++ ·) hkept hindices

/-- What the manifest says of the chunks of each file. -/
def manifestLookUp (stored : List ProcessedChunk) (files : List FxarManifestEntry) :
    List (List (Option Bytes)) :=
  files.map fun f => lookUp stored f.chunks

theorem manifestLookUp_append {files : List FxarManifestEntry} {processed : List ProcessedFile}
    (h : manifestLookUp stored files = processed.map fun f => hashesOf f.chunks)
    (more : List ProcessedChunk) :
    manifestLookUp (stored ++ more) files = processed.map fun f => hashesOf f.chunks := by
  induction files generalizing processed with
  | nil => exact h
  | cons f files ih =>
    cases processed with
    | nil => cases h
    | cons p processed =>
      obtain ⟨hfirst, hrest⟩ := List.cons_eq_cons.mp h
      exact List.cons_eq_cons.mpr ⟨lookUp_append hfirst more, ih hrest⟩

theorem Stores.addFile (libs : FxarLibs) {processed : List ProcessedFile}
    (h : t.Stores met stored)
    (hmanifest : manifestLookUp stored t.manifestEntries = processed.map fun f => hashesOf f.chunks)
    (f : ProcessedFile) :
    ∃ more, (t.addFile libs f).Stores (met ++ f.chunks) (stored ++ more) ∧
      manifestLookUp (stored ++ more) (t.addFile libs f).manifestEntries =
        (processed ++ [f]).map fun f => hashesOf f.chunks := by
  have hcount : Stores met stored { t with stats := { t.stats with
      totalFiles := t.stats.totalFiles + 1
      totalApparentBytes := t.stats.totalApparentBytes + f.size } } :=
    ⟨h.sublist, h.entries, h.blobs, h.nodup, h.seen, h.unique, h.count, h.dedup⟩
  obtain ⟨more, hstep, hindices, hsame⟩ := hcount.addChunks f.chunks
  refine ⟨more, ⟨hstep.sublist, hstep.entries, hstep.blobs, hstep.nodup, hstep.seen, hstep.unique,
    hstep.count, hstep.dedup⟩, ?_⟩
  have hkept := manifestLookUp_append hmanifest more
  unfold DedupTables.addFile
  dsimp only
  rw [hsame, List.map_append, ← hkept]
  unfold manifestLookUp
  rw [List.map_append]
  exact congrArg₂ (· ++ ·) rfl (congrArg (fun h => [h]) hindices)

theorem Stores.addFiles (libs : FxarLibs) {processed : List ProcessedFile}
    (h : t.Stores met stored)
    (hmanifest : manifestLookUp stored t.manifestEntries = processed.map fun f => hashesOf f.chunks)
    (files : List ProcessedFile) :
    ∃ more, (files.foldl (DedupTables.addFile libs) t).Stores
        (met ++ files.flatMap ProcessedFile.chunks) (stored ++ more) ∧
      manifestLookUp (stored ++ more) (files.foldl (DedupTables.addFile libs) t).manifestEntries =
        (processed ++ files).map fun f => hashesOf f.chunks := by
  induction files generalizing t met stored processed with
  | nil =>
    refine ⟨[], ?_, ?_⟩
    · rwa [List.flatMap_nil, List.append_nil, List.append_nil]
    · rwa [List.append_nil, List.append_nil]
  | cons f files ih =>
    obtain ⟨new, hstep, hfile⟩ := h.addFile libs hmanifest f
    obtain ⟨more, hrest, hfiles⟩ := ih hstep hfile
    rw [List.append_assoc, List.append_assoc] at hrest
    rw [List.append_assoc, List.append_assoc, List.singleton_append] at hfiles
    exact ⟨new ++ more, hrest, hfiles⟩

end DedupTables

/-! ## The layout -/

/-- The offset that is returned: what has been written is counted on the way. -/
def emitOffset (manifestLen : ℕ) (t : DedupTables) (appendFooter : Bool) : ℕ :=
  let offset := headerSize
  let offset := offset + (16 + manifestLen)
  let offset := offset + t.chunkEntries.length * chunkIndexEntrySize
  let offset := t.chunkDataBlobs.foldl (fun offset blob => offset + blob.length) offset
  if appendFooter then offset + footerSize else offset

/-- The entries lie one behind the other, from the first position to the last. -/
def EntriesAdjacent : ℕ → ℕ → List ChunkIndexEntry → Prop
  | start, stop, [] => start = stop
  | start, stop, e :: es => e.offset = start ∧ EntriesAdjacent (start + e.compressedSize) stop es

section Layout
variable {entries : List ChunkIndexEntry} {blobs : List Bytes} {off : ℕ}

/-- Each entry has the length of its blob. -/
def Parallel (entries : List ChunkIndexEntry) (blobs : List Bytes) : Prop :=
  entries.map ChunkIndexEntry.compressedSize = blobs.map List.length

theorem entriesAdjacent_assignOffsets (h : Parallel entries blobs) (off : ℕ) :
    EntriesAdjacent off (off + blobs.flatten.length) (FxarLibs.assignOffsets off entries blobs) := by
  induction entries generalizing blobs off with
  | nil =>
    cases blobs with
    | nil => rfl
    | cons blob blobs => cases h
  | cons e entries ih =>
    cases blobs with
    | nil => cases h
    | cons blob blobs =>
      obtain ⟨hsize, hrest⟩ := List.cons_eq_cons.mp h
      refine ⟨rfl, ?_⟩
      dsimp only
      rw [hsize, List.flatten_cons, List.length_append, ← Nat.add_assoc]
      exact ih hrest _

/-- Only the offsets are changed. -/
theorem map_assignOffsets (h : Parallel entries blobs) (off : ℕ) :
    (FxarLibs.assignOffsets off entries blobs).map (fun e => { e with offset := 0 }) =
      entries.map fun e => { e with offset := 0 } := by
  induction entries generalizing blobs off with
  | nil => rfl
  | cons e entries ih =>
    cases blobs with
    | nil => cases h
    | cons blob blobs =>
      obtain ⟨-, hrest⟩ := List.cons_eq_cons.mp h
      exact List.cons_eq_cons.mpr ⟨rfl, ih hrest _⟩

/-- A blob is where its entry says. -/
theorem slice_assignOffsets (h : Parallel entries blobs) (pre tail : Bytes) :
    (FxarLibs.assignOffsets pre.length entries blobs).map (fun e =>
      ((pre ++ (blobs.flatten ++ tail)).drop e.offset).take e.compressedSize) = blobs := by
  induction entries generalizing blobs pre with
  | nil =>
    cases blobs with
    | nil => rfl
    | cons blob blobs => cases h
  | cons e entries ih =>
    cases blobs with
    | nil => cases h
    | cons blob blobs =>
      obtain ⟨hsize, hrest⟩ := List.cons_eq_cons.mp h
      have hnext := ih hrest (pre ++ blob)
      rw [List.length_append, List.append_assoc, ← List.append_assoc blob] at hnext
      rw [FxarLibs.assignOffsets, List.map_cons, List.flatten_cons, hnext]
      dsimp only
      rw [List.drop_left, List.append_assoc, hsize, List.take_left]

theorem foldl_offset (blobs : List Bytes) (off : ℕ) :
    blobs.foldl (fun offset blob => offset + blob.length) off = off + blobs.flatten.length := by
  induction blobs generalizing off with
  | nil => rfl
  | cons blob blobs ih =>
    rw [List.foldl_cons, ih, List.flatten_cons, List.length_append]
    omega

end Layout

/-! ## Any files -/

/-- The fields of a chunk have their widths, and the compressed chunk has a length of 32 bits. -/
structure ProcessedChunk.Fits (c : ProcessedChunk) : Prop where
  blake3Hash : c.blake3Hash.length = 32
  size : c.size < 2 ^ 32
  compressed : c.compressed.length < 2 ^ 32

/-- The tables are exactly those of the files. -/
structure DedupTables.Exact (processed : List ProcessedFile) (t : DedupTables) : Prop where
  distinct : (t.chunkEntries.map ChunkIndexEntry.blake3Hash).Nodup
  /-- An entry and the blob with the same number are those of one chunk of the files. -/
  blobs : ∃ stored : List ProcessedChunk, stored.Sublist (processed.flatMap ProcessedFile.chunks) ∧
    t.chunkEntries = stored.map ProcessedChunk.entry ∧
    t.chunkDataBlobs = stored.map ProcessedChunk.compressed
  indices : (t.manifestEntries.map fun e =>
      e.chunks.map fun i => (t.chunkEntries[i]?).map ChunkIndexEntry.blake3Hash) =
    processed.map fun f => f.chunks.map fun c => some c.blake3Hash
  unique : t.stats.uniqueChunks = t.chunkEntries.length
  all : t.stats.chunkCount = (processed.flatMap ProcessedFile.chunks).length
  count : t.stats.chunkCount = t.stats.uniqueChunks + t.stats.dedupChunks

/-- The index is written where the header says, and the blobs follow it without gap or overlap,
each where its entry says. -/
structure LaidOut (t : DedupTables) (header : FxarHeader) (bytes : Bytes) (footerLen : ℕ)
    (index : List ChunkIndexEntry) : Prop where
  entries : index.map (fun e => { e with offset := 0 }) = t.chunkEntries
  written : (bytes.drop header.indexOffset).take header.indexSize =
    index.flatMap ChunkIndexEntry.writeTo
  slices : index.map (fun e => (bytes.drop e.offset).take e.compressedSize) = t.chunkDataBlobs
  adjacent : EntriesAdjacent (header.indexOffset + header.indexSize) (bytes.length - footerLen) index

section AnyFiles
variable {libs : FxarLibs} {processed : List ProcessedFile} {met stored : List ProcessedChunk}
  {t : DedupTables}

theorem map_hash_entries (stored : List ProcessedChunk) :
    (stored.map ProcessedChunk.entry).map ChunkIndexEntry.blake3Hash =
      stored.map ProcessedChunk.blake3Hash := by
  rw [List.map_map]
  rfl

theorem DedupTables.Stores.exact (h : t.Stores (processed.flatMap ProcessedFile.chunks) stored)
    (hmanifest : DedupTables.manifestLookUp stored t.manifestEntries =
      processed.map fun f => hashesOf f.chunks) : t.Exact processed where
  distinct := by
    rw [h.entries, map_hash_entries]
    exact h.nodup
  blobs := ⟨stored, h.sublist, h.entries, h.blobs⟩
  indices := by
    simp only [← List.getElem?_map, h.entries, map_hash_entries]
    exact hmanifest
  unique := by rw [h.unique, h.entries, List.length_map]
  all := h.count
  count := by rw [h.count, h.dedup]

theorem DedupTables.Stores.wellFormed (h : t.Stores met stored) (hfits : ∀ c ∈ met, c.Fits) :
    t.WellFormed where
  blobs := by rw [h.entries, h.blobs, List.length_map, List.length_map]
  hash e he := by
    rw [h.entries] at he
    obtain ⟨c, hc, rfl⟩ := List.mem_map.mp he
    exact (hfits c (h.sublist.subset hc)).blake3Hash
  size e he := by
    rw [h.entries] at he
    obtain ⟨c, hc, rfl⟩ := List.mem_map.mp he
    exact (hfits c (h.sublist.subset hc)).size
  compressedSize e he := by
    rw [h.entries] at he
    obtain ⟨c, -, rfl⟩ := List.mem_map.mp he
    exact Nat.mod_lt _ (by decide)
  seen d i hi := by
    obtain ⟨hlt, -⟩ := List.getElem?_eq_some_iff.mp ((h.seen d i).mp hi)
    rwa [List.length_map, ← List.length_map (f := ProcessedChunk.entry), ← h.entries] at hlt

theorem DedupTables.Stores.parallel (h : t.Stores met stored) (hfits : ∀ c ∈ met, c.Fits) :
    Parallel t.chunkEntries t.chunkDataBlobs := by
  unfold Parallel
  rw [h.entries, h.blobs, List.map_map, List.map_map]
  apply List.map_congr_left
  intro c hc
  exact Nat.mod_eq_of_lt (hfits c (h.sublist.subset hc)).compressed

theorem stores_buildDedupTables (libs : FxarLibs) (processed : List ProcessedFile) :
    ∃ stored, (libs.buildDedupTables processed).Stores
        (processed.flatMap ProcessedFile.chunks) stored ∧
      DedupTables.manifestLookUp stored (libs.buildDedupTables processed).manifestEntries =
        processed.map fun f => hashesOf f.chunks := by
  have hnone : DedupTables.manifestLookUp [] DedupTables.empty.manifestEntries =
      ([] : List ProcessedFile).map fun f => hashesOf f.chunks := rfl
  obtain ⟨stored, hstores, hmanifest⟩ := DedupTables.stores_empty.addFiles libs hnone processed
  exact ⟨stored, hstores, hmanifest⟩

/-- What comes before the index. -/
def archiveFront (compress : String) (n : ℕ) (compressed json : Bytes) : Bytes :=
  (placeholderHeader compress n).writeTo ++ (Bytes.ofNat 8 compressed.length ++
    (Bytes.ofNat 8 json.length ++ compressed))

theorem length_archiveFront (compress : String) (n : ℕ) (compressed json : Bytes) :
    (archiveFront compress n compressed json).length = headerSize + (16 + compressed.length) := by
  unfold archiveFront
  rw [List.length_append, FxarHeader.length_writeTo, List.length_append, List.length_append,
    Bytes.length_ofNat, Bytes.length_ofNat]
  omega

theorem archive_eq_front (compress : String) (n : ℕ) (compressed json : Bytes)
    (index : List ChunkIndexEntry) (blobs : List Bytes) (tail : Bytes) :
    (placeholderHeader compress n).writeTo ++ archiveBody compressed json index blobs tail =
      archiveFront compress n compressed json ++
        (index.flatMap ChunkIndexEntry.writeTo ++ (blobs.flatten ++ tail)) := by
  unfold archiveBody archiveFront
  simp only [List.append_assoc]

theorem length_footer (f : FxarFooter) : f.writeTo.length = footerSize := by
  unfold FxarFooter.writeTo
  rw [List.length_append, List.length_append, List.length_append, List.length_append,
    Bytes.length_ofNat, Bytes.length_ofNat, Bytes.length_ofNat, Bytes.length_ofNat]
  rfl

/-- What is emitted behind the index are the blobs. -/
theorem laidOut_emitArchive {compress created : String} {names : List String} {appendFooter : Bool}
    {header : FxarHeader} {bytes : Bytes} (hwf : t.WellFormed)
    (hparallel : Parallel t.chunkEntries t.chunkDataBlobs)
    (hentries : t.chunkEntries.map (fun e => { e with offset := 0 }) = t.chunkEntries)
    (hemit : libs.emitArchive compress created names t appendFooter = some (header, bytes)) :
    (∃ index, LaidOut t header bytes (if appendFooter then footerSize else 0) index) ∧
      emitOffset header.manifestSize t appendFooter = bytes.length := by
  cases hjson : libs.toJson ⟨fxarVersion, created, t.manifestEntries, names⟩ with
  | none =>
    unfold FxarLibs.emitArchive at hemit
    rw [hjson] at hemit
    cases hemit
  | some json =>
    rw [FxarLibs.emitArchive_eq compress hjson] at hemit
    obtain ⟨rfl, rfl⟩ := Prod.mk.inj (Option.some.inj hemit)
    generalize libs.compressChunk json compress = compressed
    generalize htail : (if appendFooter then
      (streamFooter t.chunkEntries.length compressed.length).writeTo else []) = tail
    have hfooter : tail.length = if appendFooter then footerSize else 0 := by
      rw [← htail]
      split_ifs
      · exact length_footer _
      · rfl
    rw [← hfooter, archive_eq_front]
    generalize hfront : archiveFront compress t.chunkEntries.length compressed json = front
    have hlength : front.length = headerSize + (16 + compressed.length) := by
      rw [← hfront, length_archiveFront]
    have hindex := DedupTables.length_index_bytes hwf compressed.length
    generalize hwritten : (t.index compressed.length).flatMap ChunkIndexEntry.writeTo = written
    rw [hwritten] at hindex
    have hstart : (front ++ written).length = dataStart t.chunkEntries.length compressed.length := by
      rw [List.length_append, hlength, hindex]
      rfl
    have htotal : (front ++ (written ++ (t.chunkDataBlobs.flatten ++ tail))).length =
        dataStart t.chunkEntries.length compressed.length + t.chunkDataBlobs.flatten.length +
          tail.length := by
      rw [← List.append_assoc, List.length_append, hstart, List.length_append]
      omega
    refine ⟨⟨t.index compressed.length, ?_, ?_, ?_, ?_⟩, ?_⟩
    · rw [DedupTables.index, map_assignOffsets hparallel, hentries]
    · show ((front ++ _).drop (headerSize + (16 + compressed.length))).take
        (t.chunkEntries.length * chunkIndexEntrySize) = _
      rw [← hlength, List.drop_left, ← hindex, List.take_left, hwritten]
    · have hslices := slice_assignOffsets hparallel (front ++ written) tail
      rw [hstart, List.append_assoc] at hslices
      exact hslices
    · have hadjacent := entriesAdjacent_assignOffsets hparallel
        (dataStart t.chunkEntries.length compressed.length)
      rw [htotal, Nat.add_sub_cancel]
      exact hadjacent
    · rw [htotal, hfooter]
      unfold emitOffset
      dsimp only
      rw [foldl_offset]
      show (if appendFooter then dataStart _ compressed.length + _ + footerSize
        else dataStart _ compressed.length + _) = _
      split_ifs <;> rfl

/-- The chunks of any files are stored once each, and emitted where the index says. -/
theorem dedupLayout_exact (libs : FxarLibs) (compress created : String) (names : List String)
    {processed : List ProcessedFile} (hfits : ∀ f ∈ processed, ∀ c ∈ f.chunks, c.Fits) :
    (libs.buildDedupTables processed).Exact processed ∧
      ∀ appendFooter header bytes, libs.emitArchive compress created names
          (libs.buildDedupTables processed) appendFooter = some (header, bytes) →
        (∃ index, LaidOut (libs.buildDedupTables processed) header bytes
          (if appendFooter then footerSize else 0) index) ∧
        emitOffset header.manifestSize (libs.buildDedupTables processed) appendFooter =
          bytes.length := by
  obtain ⟨stored, hstores, hmanifest⟩ := stores_buildDedupTables libs processed
  have hall : ∀ c ∈ processed.flatMap ProcessedFile.chunks, c.Fits := by
    intro c hc
    obtain ⟨f, hf, hc⟩ := List.mem_flatMap.mp hc
    exact hfits f hf c hc
  refine ⟨hstores.exact hmanifest, ?_⟩
  intro appendFooter header bytes hemit
  refine laidOut_emitArchive (hstores.wellFormed hall) (hstores.parallel hall) ?_ hemit
  rw [hstores.entries, List.map_map]
  rfl

end AnyFiles

def firstSharedChunk : ProcessedChunk := ⟨List.replicate 32 1, 3, [1, 2, 3]⟩

def secondSharedChunk : ProcessedChunk := ⟨List.replicate 32 2, 2, [4, 5]⟩

def sharingFile (path : String) (chunks : List ProcessedChunk) : ProcessedFile :=
  ⟨path, 0, 0, 0, 0, 0, List.replicate 32 0, chunks, []⟩

/-- Two files that share their chunks. -/
def sharingFiles : List ProcessedFile :=
  [sharingFile "a" [firstSharedChunk, secondSharedChunk],
    sharingFile "b" [secondSharedChunk, firstSharedChunk, firstSharedChunk]]

def sharingManifest : FxarManifest := ⟨fxarVersion, "", [], []⟩

theorem sharingFiles_fit : ∀ f ∈ sharingFiles, ∀ c ∈ f.chunks, c.Fits := by
  have hfirst : firstSharedChunk.Fits := ⟨by decide, by decide, by decide⟩
  have hsecond : secondSharedChunk.Fits := ⟨by decide, by decide, by decide⟩
  simp [sharingFiles, sharingFile, hfirst, hsecond]

theorem sharingFiles_exact :
    ((sampleLibs sharingManifest).buildDedupTables sharingFiles).Exact sharingFiles ∧
      ((sampleLibs sharingManifest).buildDedupTables sharingFiles).manifestEntries.map
        FxarManifestEntry.chunks = [[0, 1], [1, 0, 0]] :=
  ⟨(dedupLayout_exact _ "none" "" [] sharingFiles_fit).1, by decide +kernel⟩

end Foxing
