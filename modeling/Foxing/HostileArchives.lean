import Foxing.ArchiveRoundTrip

/-!
# Archives that nobody has written

The readers take counts, lengths, sizes and indices from the bytes they are given. A buffer is
allocated for what is announced before any of it is read, indices lead into the table of chunks,
and sizes are added up. Here these operations are checked: what would not come back as a value or
an error is a mishap of its own. Where there is none, the readers do what they do without the
checks.
-/
namespace Foxing

/-- What a reader can run into that is no error. -/
inductive Mishap where
  | allocation | outOfBounds | sizeSum | spaceSum
  deriving DecidableEq, Repr

inductive Fault where
  | stop (s : ReadStop)
  | mishap (m : Mishap)
  deriving DecidableEq, Repr

abbrev Checked (α : Type) := Except Fault α

/-- The largest buffer that is granted: one of 32 bits always is, and none is larger than what a
signed number can count. -/
structure Allocator where
  limit : ℕ
  small : 2 ^ 32 ≤ limit
  counted : limit < 2 ^ 63

section Checks
variable {α β : Type}

/-- An operation that may stop, but has no mishap. -/
def stops : Except ReadStop α → Checked α
  | .ok a => .ok a
  | .error s => .error (.stop s)

def allocate (m : Allocator) (n : ℕ) : Checked Unit :=
  if n ≤ m.limit then .ok () else .error (.mishap .allocation)

def checkedSum (ns : List ℕ) : Checked ℕ :=
  if ns.sum < 2 ^ 64 then .ok ns.sum else .error (.mishap .sizeSum)

/-- There is no mishap. -/
def Fine (x : Checked α) : Prop := ∀ m, x ≠ .error (.mishap m)

@[simp] theorem fine_ok (a : α) : Fine (.ok a : Checked α) := fun m h => by cases h

@[simp] theorem fine_pure (a : α) : Fine (pure a : Checked α) := fine_ok a

@[simp] theorem fine_stop (s : ReadStop) : Fine (.error (.stop s) : Checked α) :=
  fun m h => by cases h

@[simp] theorem not_fine_mishap (m : Mishap) : ¬Fine (.error (.mishap m) : Checked α) :=
  fun h => h m rfl

@[simp] theorem fine_stops (x : Except ReadStop α) : Fine (stops x) := by
  cases x <;> simp [stops]

@[simp] theorem stops_eq_ok {x : Except ReadStop α} {a : α} : stops x = .ok a ↔ x = .ok a := by
  cases x <;> simp [stops]

theorem ok_bind {ε : Type} (a : α) (f : α → Except ε β) : (Except.ok a >>= f) = f a := rfl

theorem stops_bind (x : Except ReadStop α) (f : α → Except ReadStop β) :
    stops (x >>= f) = stops x >>= fun a => stops (f a) := by
  cases x <;> rfl

theorem stops_bind_ok {x : Except ReadStop α} {a : α} {f : α → Checked β} (h : x = .ok a) :
    (stops x >>= f) = f a := by
  rw [h]
  rfl

theorem stops_bind_error {x : Except ReadStop α} {s : ReadStop} {f : α → Checked β}
    (h : x = .error s) : (stops x >>= f) = .error (.stop s) := by
  rw [h]
  rfl

theorem fine_bind {x : Checked α} {f : α → Checked β} :
    Fine (x >>= f) ↔ Fine x ∧ ∀ a, x = .ok a → Fine (f a) := by
  cases x with
  | ok a =>
    show Fine (f a) ↔ _
    simp
  | error e =>
    show Fine (.error e : Checked β) ↔ _
    simp [Fine]

@[simp] theorem fine_allocate {m : Allocator} {n : ℕ} : Fine (allocate m n) ↔ n ≤ m.limit := by
  unfold allocate
  split_ifs with h <;> simp [h]

@[simp] theorem allocate_eq_ok {m : Allocator} {n : ℕ} :
    allocate m n = .ok () ↔ n ≤ m.limit := by
  unfold allocate
  split_ifs with h <;> simp [h]

theorem fine_checkedSum {ns : List ℕ} : Fine (checkedSum ns) ↔ ns.sum < 2 ^ 64 := by
  unfold checkedSum
  split_ifs with h
  · exact iff_of_true (fine_ok _) h
  · exact iff_of_false (not_fine_mishap _) h

theorem checkedSum_eq_ok {ns : List ℕ} {n : ℕ} :
    checkedSum ns = .ok n ↔ ns.sum < 2 ^ 64 ∧ ns.sum = n := by
  unfold checkedSum
  split_ifs with h
  · rw [Except.ok.injEq, and_iff_right h]
  · exact iff_of_false (fun heq => by cases heq) fun heq => h heq.1

end Checks

/-! ## The readers -/

/-- The free space is compared with ten megabytes more than the sizes of the files. -/
def hasSpaceChecked (disk : Disk) (files : List FxarManifestEntry) : Checked Bool := do
  let totalBytes ← checkedSum (files.map FxarManifestEntry.size)
  match disk.available with
  | none => pure true
  | some avail =>
    if totalBytes + 10 * 1024 * 1024 < 2 ^ 64 then
      pure (!decide (avail < totalBytes + 10 * 1024 * 1024))
    else .error (.mishap .spaceSum)

namespace FxarLibs
variable (m : Allocator) (libs : FxarLibs)

/-- The manifest behind its lengths. -/
def readCompressedManifest (flags compressedLen : ℕ) : ByteReader ReadStop FxarManifest := do
  let compressed ← ByteReader.readExact .unexpectedEof compressedLen
  let json ← libs.decompressChunk compressed flags
  match libs.ofJson json with
  | some manifest => return manifest
  | none => throw .invalidData

def readManifestBlockChecked (flags : ℕ) (s : Bytes) : Checked (FxarManifest × Bytes) := do
  let compressedLen ← stops (ByteReader.readExact ReadStop.unexpectedEof 8 s)
  let uncompressedLen ← stops (ByteReader.readExact ReadStop.unexpectedEof 8 compressedLen.2)
  allocate m compressedLen.1.toNat
  stops (libs.readCompressedManifest flags compressedLen.1.toNat uncompressedLen.2)

/-- The index has 48 bytes for an entry in memory too. -/
def readIndexChecked (count : ℕ) (s : Bytes) : Checked (List ChunkIndexEntry × Bytes) := do
  allocate m (chunkIndexEntrySize * count)
  stops (ByteReader.replicate ChunkIndexEntry.readFrom count s)

end FxarLibs

namespace FxarReader
variable (m : Allocator) (libs : FxarLibs) (r : FxarReader)

def readManifestChecked : Checked FxarManifest := do
  let p ← libs.readManifestBlockChecked m r.header.flags (r.bytes.drop r.header.manifestOffset)
  pure p.1

def readChunkIndexChecked : Checked (List ChunkIndexEntry) := do
  let p ← FxarLibs.readIndexChecked m r.header.chunkCount (r.bytes.drop r.header.indexOffset)
  pure p.1

def readFileChunksChecked (index : List ChunkIndexEntry) : List ℕ → Checked Bytes
  | [] => .ok []
  | i :: is =>
    match index[i]? with
    | none => .error (.mishap .outOfBounds)
    | some entry => do
      let data ← stops (r.readChunkData libs entry)
      let rest ← readFileChunksChecked index is
      pure (data ++ rest)

def restoreFileChecked (filePath : String) : Checked Bytes := do
  let manifest ← r.readManifestChecked m libs
  let index ← r.readChunkIndexChecked m
  match manifest.files.find? fun f => f.path = filePath with
  | none => .error (.stop .notFound)
  | some entry => do
    allocate m entry.size
    let data ← r.readFileChunksChecked libs index entry.chunks
    if libs.blake3 data ≠ libs.expectedHash entry then .error (.stop .invalidData)
    else pure data

/-- What is done before files are restored. -/
def preflightChecked (disk : Disk) : Checked Bool := do
  let manifest ← r.readManifestChecked m libs
  hasSpaceChecked disk manifest.files

end FxarReader

namespace FxarLibs
variable (m : Allocator) (libs : FxarLibs)

def inspectArchiveChecked (bytes : Bytes) : Checked InspectResult := do
  let r ← stops (FxarReader.open bytes)
  let manifest ← r.readManifestChecked m libs
  let index ← r.readChunkIndexChecked m
  let totalApparentBytes ← checkedSum (manifest.files.map FxarManifestEntry.size)
  let totalChunkBytes ← checkedSum (index.map ChunkIndexEntry.size)
  let totalCompressedBytes ← checkedSum (index.map ChunkIndexEntry.compressedSize)
  pure {
    version := r.header.version
    snapshots := manifest.snapshots
    totalFiles := manifest.files.length
    uniqueFiles := (manifest.files.map FxarManifestEntry.blake3).dedup.length
    totalApparentBytes
    chunkCount := index.length
    totalChunkBytes
    totalCompressedBytes
    files := manifest.files }

/-- A file that is put together from the chunks of a stream. -/
def entryChecked (chunks : List Bytes) (entry : FxarManifestEntry) : Checked Unit := do
  allocate m entry.size
  if ∀ i ∈ entry.chunks, i < chunks.length then pure () else .error (.mishap .outOfBounds)

def entriesChecked (chunks : List Bytes) : List FxarManifestEntry → Checked Unit
  | [] => .ok ()
  | entry :: entries => do
    entryChecked m chunks entry
    entriesChecked chunks entries

/-- The chunks have a table of their own, which is no larger than the index. -/
def readArchiveStreamChecked (bytes : Bytes) (disk : Disk) (target : Path) :
    Checked FxarImportStats := do
  let header ← stops (readHeader bytes)
  let manifest ← libs.readManifestBlockChecked m header.1.flags header.2
  let index ← readIndexChecked m header.1.chunkCount manifest.2
  let chunks ← stops (libs.readChunks header.1.flags index.1 index.2)
  let space ← hasSpaceChecked disk manifest.1.files
  if !space then .error (.stop .other)
  else if !(makeParents disk target manifest.1.files).2 then .error (.stop .other)
  else do
    entriesChecked m chunks.1 manifest.1.files
    stops (collectResults (manifest.1.files.map fun entry =>
      (entry, libs.restoreEntry disk target (fun i => (chunks.1[i]?).map some) entry)))

end FxarLibs

/-! ## Parts of an archive -/

/-- The length in front of a manifest is one that is granted, if it is there. -/
def LengthGranted (m : Allocator) (s : Bytes) : Prop :=
  16 ≤ s.length → Bytes.toNat (s.take 8) ≤ m.limit

/-- The sizes of the files and ten megabytes more have 64 bits. -/
def SizesFit (files : List FxarManifestEntry) : Prop :=
  (files.map FxarManifestEntry.size).sum + 10 * 1024 * 1024 < 2 ^ 64

section Parts
variable {α β : Type} {m : Allocator} {libs : FxarLibs} {r : FxarReader}

/-- The two lengths are read, or the end is met. -/
theorem readLengths (s : Bytes) :
    (16 ≤ s.length ∧
      ByteReader.readExact ReadStop.unexpectedEof 8 s = .ok (s.take 8, s.drop 8) ∧
      ByteReader.readExact ReadStop.unexpectedEof 8 (s.drop 8) =
        .ok ((s.drop 8).take 8, (s.drop 8).drop 8)) ∨
    (¬16 ≤ s.length ∧
      (ByteReader.readExact ReadStop.unexpectedEof 8 s = .error .unexpectedEof ∨
        ByteReader.readExact ReadStop.unexpectedEof 8 s = .ok (s.take 8, s.drop 8) ∧
        ByteReader.readExact ReadStop.unexpectedEof 8 (s.drop 8) = .error .unexpectedEof)) := by
  have hlength : (s.drop 8).length = s.length - 8 := List.length_drop
  by_cases h16 : 16 ≤ s.length
  · exact .inl ⟨h16, if_pos (by omega), if_pos (by omega)⟩
  · refine .inr ⟨h16, ?_⟩
    by_cases h8 : 8 ≤ s.length
    · exact .inr ⟨if_pos h8, if_neg (by omega)⟩
    · exact .inl (if_neg h8)

variable (m libs) in
/-- A manifest is read as without the check of its length, or there is a mishap. -/
theorem readManifestBlockChecked_eq (flags : ℕ) (s : Bytes) :
    (LengthGranted m s ∧
        libs.readManifestBlockChecked m flags s = stops (libs.readManifestBlock flags s)) ∨
      (¬LengthGranted m s ∧
        libs.readManifestBlockChecked m flags s = .error (.mishap .allocation)) := by
  have hblock : libs.readManifestBlock flags = (do
      let compressedLen ← ByteReader.readExact .unexpectedEof 8
      let _ ← ByteReader.readExact .unexpectedEof 8
      libs.readCompressedManifest flags compressedLen.toNat) := rfl
  unfold FxarLibs.readManifestBlockChecked
  obtain ⟨h16, hfirst, hsecond⟩ | ⟨h16, hfirst | ⟨hfirst, hsecond⟩⟩ := readLengths s
  · rw [hblock, ByteReader.run_bind_ok hfirst, ByteReader.run_bind_ok hsecond,
      stops_bind_ok hfirst, stops_bind_ok hsecond, allocate]
    by_cases hlimit : Bytes.toNat (s.take 8) ≤ m.limit
    · rw [if_pos hlimit]
      exact .inl ⟨fun _ => hlimit, rfl⟩
    · rw [if_neg hlimit]
      exact .inr ⟨fun h => hlimit (h h16), rfl⟩
  · rw [hblock, ByteReader.run_bind_error hfirst, stops_bind_error hfirst]
    exact .inl ⟨fun h => absurd h h16, rfl⟩
  · rw [hblock, ByteReader.run_bind_ok hfirst, ByteReader.run_bind_error hsecond,
      stops_bind_ok hfirst, stops_bind_error hsecond]
    exact .inl ⟨fun h => absurd h h16, rfl⟩

theorem fine_readManifestBlock {flags : ℕ} {s : Bytes} :
    Fine (libs.readManifestBlockChecked m flags s) ↔ LengthGranted m s := by
  obtain ⟨hgranted, heq⟩ | ⟨hgranted, heq⟩ := readManifestBlockChecked_eq m libs flags s
  · rw [heq]
    exact iff_of_true (fine_stops _) hgranted
  · rw [heq]
    exact iff_of_false (not_fine_mishap _) hgranted

theorem readManifestBlock_granted {s : Bytes} (h : LengthGranted m s) (flags : ℕ) :
    libs.readManifestBlockChecked m flags s = stops (libs.readManifestBlock flags s) := by
  obtain ⟨-, heq⟩ | ⟨hnot, -⟩ := readManifestBlockChecked_eq m libs flags s
  · exact heq
  · exact absurd h hnot

/-- The index is granted as a whole. -/
def IndexGranted (m : Allocator) (count : ℕ) : Prop := chunkIndexEntrySize * count ≤ m.limit

theorem fine_readIndex {count : ℕ} {s : Bytes} :
    Fine (FxarLibs.readIndexChecked m count s) ↔ IndexGranted m count := by
  unfold FxarLibs.readIndexChecked
  rw [fine_bind, fine_allocate]
  exact and_iff_left fun _ _ => fine_stops _

theorem readIndex_granted {count : ℕ} (h : IndexGranted m count) (s : Bytes) :
    FxarLibs.readIndexChecked m count s =
      stops (ByteReader.replicate ChunkIndexEntry.readFrom count s) := by
  unfold FxarLibs.readIndexChecked
  rw [allocate_eq_ok.mpr h]
  rfl

theorem stops_map (x : Except ReadStop (α × β)) :
    (stops x >>= fun p => pure p.1) = stops (x >>= fun p => pure p.1) := by
  cases x <;> rfl

theorem fine_readManifest : Fine (r.readManifestChecked m libs) ↔
    LengthGranted m (r.bytes.drop r.header.manifestOffset) := by
  unfold FxarReader.readManifestChecked
  rw [fine_bind, fine_readManifestBlock]
  exact and_iff_left fun _ _ => fine_pure _

theorem readManifest_granted (h : LengthGranted m (r.bytes.drop r.header.manifestOffset)) :
    r.readManifestChecked m libs = stops (r.readManifest libs) := by
  unfold FxarReader.readManifestChecked
  rw [readManifestBlock_granted h]
  exact stops_map _

theorem fine_readChunkIndex : Fine (r.readChunkIndexChecked m) ↔
    IndexGranted m r.header.chunkCount := by
  unfold FxarReader.readChunkIndexChecked
  rw [fine_bind, fine_readIndex]
  exact and_iff_left fun _ _ => fine_pure _

theorem readChunkIndex_granted (h : IndexGranted m r.header.chunkCount) :
    r.readChunkIndexChecked m = stops r.readChunkIndex := by
  unfold FxarReader.readChunkIndexChecked
  rw [readIndex_granted h]
  exact stops_map _

/-! ### Single files -/

/-- An index leads to a chunk that can be read. -/
def FxarReader.ChunkReadable (r : FxarReader) (libs : FxarLibs) (index : List ChunkIndexEntry)
    (i : ℕ) : Prop :=
  ∃ entry ∈ index[i]?, ∃ data, r.readChunkData libs entry = .ok data

/-- As long as the chunks before it can be read, an index is one of the table. -/
def FxarReader.InRange (r : FxarReader) (libs : FxarLibs) (index : List ChunkIndexEntry)
    (is : List ℕ) : Prop :=
  ∀ pre i post, is = pre ++ i :: post → (∀ j ∈ pre, r.ChunkReadable libs index j) →
    i < index.length

theorem inRange_cons {index : List ChunkIndexEntry} {i : ℕ} {is : List ℕ} :
    r.InRange libs index (i :: is) ↔
      i < index.length ∧ (r.ChunkReadable libs index i → r.InRange libs index is) := by
  constructor
  · intro h
    refine ⟨h [] i is rfl (by simp), fun hi pre j post his hpre => ?_⟩
    exact h (i :: pre) j post (by rw [his, List.cons_append])
      (List.forall_mem_cons.mpr ⟨hi, hpre⟩)
  · rintro ⟨hi, his⟩ pre j post heq hpre
    cases pre with
    | nil =>
      obtain ⟨rfl, -⟩ := List.cons_eq_cons.mp heq
      exact hi
    | cons k pre =>
      obtain ⟨rfl, hrest⟩ := List.cons_eq_cons.mp heq
      obtain ⟨hk, hpre⟩ := List.forall_mem_cons.mp hpre
      exact his hk pre j post hrest hpre

theorem fine_readFileChunks {index : List ChunkIndexEntry} (is : List ℕ) :
    Fine (r.readFileChunksChecked libs index is) ↔ r.InRange libs index is := by
  induction is with
  | nil => exact iff_of_true (fine_ok _) fun pre i post h => by simp at h
  | cons i is ih =>
    rw [FxarReader.readFileChunksChecked, inRange_cons, ← ih]
    cases hi : index[i]? with
    | none =>
      refine iff_of_false (not_fine_mishap _) fun h => ?_
      rw [List.getElem?_eq_none_iff] at hi
      omega
    | some entry =>
      obtain ⟨hlt, -⟩ := List.getElem?_eq_some_iff.mp hi
      have hreadable : r.ChunkReadable libs index i ↔
          ∃ data, r.readChunkData libs entry = .ok data := by
        unfold FxarReader.ChunkReadable
        simp [hi]
      rw [and_iff_right hlt, hreadable]
      dsimp only
      rw [fine_bind, and_iff_right (fine_stops _)]
      simp only [stops_eq_ok, fine_bind, fine_pure, implies_true, and_true, forall_exists_index]

/-- The first file with a path has a size that is granted, and names chunks of the table. -/
def FxarReader.FileFits (m : Allocator) (r : FxarReader) (libs : FxarLibs) (filePath : String) :
    Prop :=
  ∀ manifest index entry, r.readManifest libs = .ok manifest → r.readChunkIndex = .ok index →
    (manifest.files.find? fun f => f.path = filePath) = some entry →
      entry.size ≤ m.limit ∧ r.InRange libs index entry.chunks

theorem fine_restoreFile (hm : LengthGranted m (r.bytes.drop r.header.manifestOffset))
    (hi : IndexGranted m r.header.chunkCount) (filePath : String) :
    Fine (r.restoreFileChecked m libs filePath) ↔ r.FileFits m libs filePath := by
  have hfile : ∀ (index : List ChunkIndexEntry) (entry : FxarManifestEntry),
      Fine (do
        allocate m entry.size
        let data ← r.readFileChunksChecked libs index entry.chunks
        if libs.blake3 data ≠ libs.expectedHash entry then .error (.stop .invalidData)
        else pure data) ↔ entry.size ≤ m.limit ∧ r.InRange libs index entry.chunks := by
    intro index entry
    rw [fine_bind, fine_allocate, ← fine_readFileChunks]
    refine and_congr_right fun hsize => ?_
    have hhash : ∀ data, Fine (if libs.blake3 data ≠ libs.expectedHash entry then
        .error (.stop .invalidData) else pure data : Checked Bytes) := by
      intro data
      split_ifs
      · exact fine_stop _
      · exact fine_pure _
    simp only [allocate_eq_ok.mpr hsize, forall_const, fine_bind, hhash, implies_true, and_true]
  unfold FxarReader.restoreFileChecked FxarReader.FileFits
  rw [readManifest_granted hm, readChunkIndex_granted hi, fine_bind]
  simp only [fine_bind, fine_stops, true_and, stops_eq_ok]
  constructor
  · intro h manifest index entry hmanifest hindex hfind
    have hfine := h manifest hmanifest index hindex
    rw [hfind] at hfine
    exact (hfile index entry).mp hfine
  · intro h manifest hmanifest index hindex
    cases hfind : manifest.files.find? fun f => f.path = filePath with
    | none => exact fine_stop _
    | some entry => exact (hfile index entry).mpr (h manifest index entry hmanifest hindex hfind)

/-! ### Sums -/

theorem fine_hasSpace {disk : Disk} {files : List FxarManifestEntry} (h : SizesFit files) :
    Fine (hasSpaceChecked disk files) := by
  unfold SizesFit at h
  unfold hasSpaceChecked
  rw [fine_bind, fine_checkedSum]
  refine ⟨by omega, fun total htotal => ?_⟩
  obtain ⟨-, rfl⟩ := checkedSum_eq_ok.mp htotal
  cases disk.available with
  | none => exact fine_pure _
  | some avail =>
    dsimp only
    rw [if_pos h]
    exact fine_pure _

/-- A disk that has as much room as can be said, where everything can be done. -/
def roomyDisk : Disk := ⟨some (2 ^ 64 - 1), fun _ => true, fun _ => true⟩

theorem sizesFit_of_fine {files : List FxarManifestEntry}
    (h : Fine (hasSpaceChecked roomyDisk files)) : SizesFit files := by
  unfold hasSpaceChecked at h
  rw [fine_bind, fine_checkedSum] at h
  obtain ⟨hsum, h⟩ := h
  have hfine := h _ (checkedSum_eq_ok.mpr ⟨hsum, rfl⟩)
  simp only [roomyDisk] at hfine
  unfold SizesFit
  by_contra hfit
  rw [if_neg hfit] at hfine
  exact not_fine_mishap _ hfine

theorem hasSpace_roomy {files : List FxarManifestEntry} (h : SizesFit files) :
    hasSpaceChecked roomyDisk files = .ok true := by
  unfold SizesFit at h
  unfold hasSpaceChecked
  have hsum : (files.map FxarManifestEntry.size).sum < 2 ^ 64 := by omega
  have henough : ¬2 ^ 64 - 1 < (files.map FxarManifestEntry.size).sum + 10 * 1024 * 1024 := by
    omega
  rw [checkedSum_eq_ok.mpr ⟨hsum, rfl⟩, ok_bind]
  simp only [roomyDisk]
  rw [if_pos h, decide_eq_false henough]
  rfl

theorem fine_preflight (hm : LengthGranted m (r.bytes.drop r.header.manifestOffset)) :
    (∀ disk, Fine (r.preflightChecked m libs disk)) ↔
      ∀ manifest, r.readManifest libs = .ok manifest → SizesFit manifest.files := by
  unfold FxarReader.preflightChecked
  rw [readManifest_granted hm]
  simp only [fine_bind, fine_stops, true_and, stops_eq_ok]
  constructor
  · exact fun h manifest hmanifest => sizesFit_of_fine (h roomyDisk manifest hmanifest)
  · exact fun h disk manifest hmanifest => fine_hasSpace (h manifest hmanifest)

/-- The sums of the index have 64 bits. -/
def IndexSumsFit (index : List ChunkIndexEntry) : Prop :=
  (index.map ChunkIndexEntry.size).sum < 2 ^ 64 ∧
    (index.map ChunkIndexEntry.compressedSize).sum < 2 ^ 64

theorem fine_inspect {bytes : Bytes} (hopen : FxarReader.open bytes = .ok r)
    (hm : LengthGranted m (r.bytes.drop r.header.manifestOffset))
    (hi : IndexGranted m r.header.chunkCount) :
    Fine (libs.inspectArchiveChecked m bytes) ↔
      ∀ manifest index, r.readManifest libs = .ok manifest → r.readChunkIndex = .ok index →
        (manifest.files.map FxarManifestEntry.size).sum < 2 ^ 64 ∧ IndexSumsFit index := by
  unfold FxarLibs.inspectArchiveChecked IndexSumsFit
  rw [stops_bind_ok hopen, readManifest_granted hm, readChunkIndex_granted hi]
  simp only [fine_bind, fine_stops, true_and, stops_eq_ok, fine_checkedSum, checkedSum_eq_ok,
    fine_pure, implies_true, and_true]
  constructor
  · intro h manifest index hmanifest hindex
    obtain ⟨hsizes, h⟩ := h manifest hmanifest index hindex
    obtain ⟨hchunks, h⟩ := h _ ⟨hsizes, rfl⟩
    exact ⟨hsizes, hchunks, h _ ⟨hchunks, rfl⟩⟩
  · intro h manifest hmanifest index hindex
    obtain ⟨hsizes, hchunks, hcompressed⟩ := h manifest index hmanifest hindex
    exact ⟨hsizes, fun _ _ => ⟨hchunks, fun _ _ => hcompressed⟩⟩

/-! ### Streams -/

/-- A file of a stream has a size that is granted, and names chunks of the table. -/
def EntryFits (m : Allocator) (chunks : List Bytes) (entry : FxarManifestEntry) : Prop :=
  entry.size ≤ m.limit ∧ ∀ i ∈ entry.chunks, i < chunks.length

theorem fine_entry {chunks : List Bytes} {entry : FxarManifestEntry} :
    Fine (FxarLibs.entryChecked m chunks entry) ↔ EntryFits m chunks entry := by
  unfold FxarLibs.entryChecked EntryFits
  rw [fine_bind, fine_allocate]
  refine and_congr_right fun hsize => ?_
  rw [allocate_eq_ok.mpr hsize]
  simp only [forall_const]
  split_ifs with h
  · exact iff_of_true (fine_pure _) h
  · exact iff_of_false (not_fine_mishap _) h

theorem entry_fits {chunks : List Bytes} {entry : FxarManifestEntry}
    (h : EntryFits m chunks entry) : FxarLibs.entryChecked m chunks entry = .ok () := by
  unfold FxarLibs.entryChecked
  rw [allocate_eq_ok.mpr h.1]
  exact if_pos h.2

theorem fine_entries {chunks : List Bytes} (entries : List FxarManifestEntry) :
    Fine (FxarLibs.entriesChecked m chunks entries) ↔
      ∀ entry ∈ entries, EntryFits m chunks entry := by
  induction entries with
  | nil => exact iff_of_true (fine_ok _) (by simp)
  | cons entry entries ih =>
    rw [FxarLibs.entriesChecked, fine_bind, fine_entry, List.forall_mem_cons, ← ih]
    refine and_congr_right fun hfits => ?_
    rw [entry_fits hfits]
    simp

/-- What a stream is read in. -/
theorem readStream_eq_ok {bytes rest : Bytes} {manifest : FxarManifest} {chunks : List Bytes} :
    libs.readStream bytes = .ok ((manifest, chunks), rest) ↔
      ∃ header s block index, FxarLibs.readHeader bytes = .ok (header, s) ∧
        libs.readManifestBlock header.flags s = .ok (manifest, block) ∧
        ∃ t, ByteReader.replicate ChunkIndexEntry.readFrom header.chunkCount block =
          .ok (index, t) ∧ libs.readChunks header.flags index t = .ok (chunks, rest) := by
  unfold FxarLibs.readStream
  constructor
  · intro h
    obtain ⟨header, s, hheader, h⟩ := ByteReader.run_bind_eq_ok h
    obtain ⟨manifest', block, hblock, h⟩ := ByteReader.run_bind_eq_ok h
    obtain ⟨index, t, hindex, h⟩ := ByteReader.run_bind_eq_ok h
    obtain ⟨chunks', rest', hchunks, h⟩ := ByteReader.run_bind_eq_ok h
    cases h
    exact ⟨header, s, block, index, hheader, hblock, t, hindex, hchunks⟩
  · rintro ⟨header, s, block, index, hheader, hblock, t, hindex, hchunks⟩
    rw [ByteReader.run_bind_ok hheader, ByteReader.run_bind_ok hblock,
      ByteReader.run_bind_ok hindex, ByteReader.run_bind_ok hchunks]
    rfl

/-- The files of a stream fit. -/
def StreamFits (m : Allocator) (libs : FxarLibs) (bytes : Bytes) : Prop :=
  ∀ manifest chunks rest, libs.readStream bytes = .ok ((manifest, chunks), rest) →
    SizesFit manifest.files ∧ ∀ entry ∈ manifest.files, EntryFits m chunks entry

/-- What is done with the manifest and the chunks of a stream. -/
def restoreStream (m : Allocator) (libs : FxarLibs) (disk : Disk) (target : Path)
    (manifest : FxarManifest) (chunks : List Bytes) : Checked FxarImportStats := do
  let space ← hasSpaceChecked disk manifest.files
  if !space then .error (.stop .other)
  else if !(makeParents disk target manifest.files).2 then .error (.stop .other)
  else do
    FxarLibs.entriesChecked m chunks manifest.files
    stops (collectResults (manifest.files.map fun entry =>
      (entry, libs.restoreEntry disk target (fun i => (chunks[i]?).map some) entry)))

theorem fine_restoreStream {manifest : FxarManifest} {chunks : List Bytes} :
    (∀ disk target, Fine (restoreStream m libs disk target manifest chunks)) ↔
      SizesFit manifest.files ∧ ∀ entry ∈ manifest.files, EntryFits m chunks entry := by
  unfold restoreStream
  constructor
  · intro h
    obtain ⟨hspace, hrest⟩ := fine_bind.mp (h roomyDisk [])
    have hsizes := sizesFit_of_fine hspace
    have hfine := hrest true (hasSpace_roomy hsizes)
    rw [makeParents_ok (fun _ => rfl)] at hfine
    exact ⟨hsizes, (fine_entries _).mp (fine_bind.mp hfine).1⟩
  · rintro ⟨hsizes, hentries⟩ disk target
    rw [fine_bind]
    refine ⟨fine_hasSpace hsizes, fun space _ => ?_⟩
    split_ifs
    · exact fine_stop _
    · exact fine_stop _
    · exact fine_bind.mpr ⟨(fine_entries _).mpr hentries, fun _ _ => fine_stops _⟩

theorem fine_readArchiveStream {bytes s : Bytes} {header : FxarHeader}
    (hheader : FxarLibs.readHeader bytes = .ok (header, s))
    (hi : IndexGranted m header.chunkCount) :
    (∀ disk target, Fine (libs.readArchiveStreamChecked m bytes disk target)) ↔
      LengthGranted m s ∧ StreamFits m libs bytes := by
  have hrun : ∀ disk target, Fine (libs.readArchiveStreamChecked m bytes disk target) ↔
      LengthGranted m s ∧ ∀ manifest block index t chunks rest,
        libs.readManifestBlock header.flags s = .ok (manifest, block) →
        ByteReader.replicate ChunkIndexEntry.readFrom header.chunkCount block = .ok (index, t) →
        libs.readChunks header.flags index t = .ok (chunks, rest) →
          Fine (restoreStream m libs disk target manifest chunks) := by
    intro disk target
    unfold FxarLibs.readArchiveStreamChecked
    rw [stops_bind_ok hheader, fine_bind, fine_readManifestBlock]
    refine and_congr_right fun hlength => ?_
    rw [readManifestBlock_granted hlength]
    simp only [readIndex_granted hi, fine_bind (x := stops _), fine_stops, true_and, stops_eq_ok,
      Prod.forall]
    constructor
    · intro h manifest block index t chunks rest hblock hindex hchunks
      exact h manifest block hblock index t hindex chunks rest hchunks
    · intro h manifest block hblock index t hindex chunks rest hchunks
      exact h manifest block index t chunks rest hblock hindex hchunks
  simp only [hrun]
  unfold StreamFits
  constructor
  · intro h
    refine ⟨(h roomyDisk []).1, fun manifest chunks rest hread => ?_⟩
    obtain ⟨header', s', block, index, hheader', hblock, t, hindex, hchunks⟩ :=
      readStream_eq_ok.mp hread
    rw [hheader] at hheader'
    cases hheader'
    exact fine_restoreStream.mp fun disk target =>
      (h disk target).2 manifest block index t chunks rest hblock hindex hchunks
  · rintro ⟨hlength, h⟩ disk target
    refine ⟨hlength, fun manifest block index t chunks rest hblock hindex hchunks => ?_⟩
    exact fine_restoreStream.mpr (h manifest chunks rest (readStream_eq_ok.mpr
      ⟨header, s, block, index, hheader, hblock, t, hindex, hchunks⟩)) disk target

/-! ### Errors -/

/-- A stop that is an error, and neither a panic nor a wait. -/
def ReadStop.IsError (s : ReadStop) : Prop := s ≠ .panic ∧ s ≠ .hang

/-- An operation that stops does so with an error. -/
def Reports (x : Checked α) : Prop := ∀ s, x = .error (.stop s) → s.IsError

/-- An operation comes back with a result or an error. -/
def Answers (x : Checked α) : Prop := ∀ e, x = .error e → ∃ s : ReadStop, s.IsError ∧ e = .stop s

theorem answers_iff_fine {x : Checked α} (h : Reports x) : Answers x ↔ Fine x := by
  constructor
  · intro hx mishap heq
    obtain ⟨s, -, hs⟩ := hx _ heq
    cases hs
  · intro hx e heq
    cases e with
    | stop s => exact ⟨s, h s heq, rfl⟩
    | mishap mishap => exact absurd heq (hx mishap)

theorem unexpectedEof_isError : ReadStop.unexpectedEof.IsError := by
  constructor <;> decide

theorem invalidData_isError : ReadStop.invalidData.IsError := by
  constructor <;> decide

theorem other_isError : ReadStop.other.IsError := by
  constructor <;> decide

theorem reports_ok (a : α) : Reports (.ok a : Checked α) := by
  intro s h
  cases h

theorem reports_mishap (mishap : Mishap) : Reports (.error (.mishap mishap) : Checked α) := by
  intro s h
  cases h

theorem reports_stop {s : ReadStop} (hs : s.IsError) : Reports (.error (.stop s) : Checked α) := by
  intro s' h
  cases h
  exact hs

theorem reports_bind {x : Checked α} {f : α → Checked β} (hx : Reports x)
    (hf : ∀ a, x = .ok a → Reports (f a)) : Reports (x >>= f) := by
  cases x with
  | ok a => exact hf a rfl
  | error e =>
    intro s h
    exact hx s (congrArg Except.error (Except.error.inj h))

theorem reports_allocate (n : ℕ) : Reports (allocate m n) := by
  unfold allocate
  split_ifs
  · exact reports_ok _
  · exact reports_mishap _

theorem reports_checkedSum (ns : List ℕ) : Reports (checkedSum ns) := by
  unfold checkedSum
  split_ifs
  · exact reports_ok _
  · exact reports_mishap _

theorem reports_hasSpace (disk : Disk) (files : List FxarManifestEntry) :
    Reports (hasSpaceChecked disk files) := by
  unfold hasSpaceChecked
  refine reports_bind (reports_checkedSum _) fun total _ => ?_
  cases disk.available with
  | none => exact reports_ok _
  | some avail =>
    dsimp only
    split_ifs
    · exact reports_ok _
    · exact reports_mishap _

/-- The errors of a reader are those of what it stops with. -/
theorem reports_stops {reader : ByteReader ReadStop α} (h : reader.Raises ReadStop.IsError)
    (s : Bytes) : Reports (stops (reader s)) := by
  intro stop heq
  cases hrun : reader s with
  | ok p =>
    rw [hrun] at heq
    cases heq
  | error e =>
    rw [hrun] at heq
    cases heq
    exact h s _ hrun

theorem raises_readExact (n : ℕ) :
    (ByteReader.readExact ReadStop.unexpectedEof n).Raises ReadStop.IsError :=
  ByteReader.raises_readExact unexpectedEof_isError n

theorem decompressChunk_isError {data : Bytes} {flags : ℕ} {e : ReadStop}
    (h : libs.decompressChunk data flags = .error e) : e.IsError := by
  have helim : ∀ (x : Option Bytes) (stop : ReadStop), stop.IsError →
      x.elim (Except.error stop) .ok = .error e → e.IsError := by
    intro x stop hstop hx
    cases x with
    | none =>
      cases hx
      exact hstop
    | some data => cases hx
  unfold FxarLibs.decompressChunk at h
  split at h
  · cases h
  · exact helim _ _ invalidData_isError h
  · exact helim _ _ invalidData_isError h
  · exact helim _ _ other_isError h
  · exact helim _ _ other_isError h
  · cases h
    exact invalidData_isError

theorem raises_decompressChunk (data : Bytes) (flags : ℕ) :
    ByteReader.Raises ReadStop.IsError
      (liftM (libs.decompressChunk data flags) : ByteReader ReadStop Bytes) :=
  ByteReader.raises_liftM fun _ => decompressChunk_isError

theorem raises_readHeader : FxarLibs.readHeader.Raises ReadStop.IsError := by
  unfold FxarLibs.readHeader
  refine ByteReader.raises_bind ?_ fun header => ?_
  · refine ByteReader.raises_bind (raises_readExact _) fun buf => ?_
    split_ifs
    · exact ByteReader.raises_throw invalidData_isError
    · exact ByteReader.raises_pure _
  · split_ifs
    · exact ByteReader.raises_throw invalidData_isError
    · exact ByteReader.raises_pure _

theorem raises_readCompressedManifest (flags n : ℕ) :
    (libs.readCompressedManifest flags n).Raises ReadStop.IsError := by
  unfold FxarLibs.readCompressedManifest
  refine ByteReader.raises_bind (raises_readExact _) fun compressed => ?_
  refine ByteReader.raises_bind (raises_decompressChunk _ _) fun json => ?_
  cases libs.ofJson json with
  | none => exact ByteReader.raises_throw invalidData_isError
  | some manifest => exact ByteReader.raises_pure _

theorem raises_readIndex (count : ℕ) :
    (ByteReader.replicate ChunkIndexEntry.readFrom count).Raises ReadStop.IsError :=
  ByteReader.raises_replicate
    (ByteReader.raises_bind (raises_readExact _) fun _ => ByteReader.raises_pure _) count

theorem raises_readChunk (flags : ℕ) (entry : ChunkIndexEntry) :
    (libs.readChunk flags entry).Raises ReadStop.IsError := by
  unfold FxarLibs.readChunk
  refine ByteReader.raises_bind (raises_readExact _) fun compressed => ?_
  refine ByteReader.raises_bind (raises_decompressChunk _ _) fun data => ?_
  split_ifs
  · exact ByteReader.raises_throw invalidData_isError
  · exact ByteReader.raises_pure _

theorem raises_readChunks (flags : ℕ) (entries : List ChunkIndexEntry) :
    (libs.readChunks flags entries).Raises ReadStop.IsError := by
  induction entries with
  | nil => exact ByteReader.raises_pure _
  | cons entry entries ih =>
    exact ByteReader.raises_bind (raises_readChunk _ _) fun _ =>
      ByteReader.raises_bind ih fun _ => ByteReader.raises_pure _

theorem reports_readManifestBlock (flags : ℕ) (s : Bytes) :
    Reports (libs.readManifestBlockChecked m flags s) := by
  unfold FxarLibs.readManifestBlockChecked
  refine reports_bind (reports_stops (raises_readExact 8) s) fun compressedLen _ => ?_
  refine reports_bind (reports_stops (raises_readExact 8) _) fun uncompressedLen _ => ?_
  refine reports_bind (reports_allocate _) fun _ _ => ?_
  exact reports_stops (raises_readCompressedManifest _ _) _

theorem reports_readIndex (count : ℕ) (s : Bytes) :
    Reports (FxarLibs.readIndexChecked m count s) :=
  reports_bind (reports_allocate _) fun _ _ => reports_stops (raises_readIndex count) s

theorem reports_readManifest : Reports (r.readManifestChecked m libs) :=
  reports_bind (reports_readManifestBlock _ _) fun _ _ => reports_ok _

theorem reports_readChunkIndex : Reports (r.readChunkIndexChecked m) :=
  reports_bind (reports_readIndex _ _) fun _ _ => reports_ok _

theorem reports_readChunkData (entry : ChunkIndexEntry) :
    Reports (stops (r.readChunkData libs entry)) := by
  unfold FxarReader.readChunkData
  rw [← stops_map]
  exact reports_bind (reports_stops (raises_readChunk _ _) _) fun _ _ => reports_ok _

theorem reports_readFileChunks (index : List ChunkIndexEntry) (is : List ℕ) :
    Reports (r.readFileChunksChecked libs index is) := by
  induction is with
  | nil => exact reports_ok _
  | cons i is ih =>
    unfold FxarReader.readFileChunksChecked
    cases index[i]? with
    | none => exact reports_mishap _
    | some entry =>
      exact reports_bind (reports_readChunkData _) fun _ _ =>
        reports_bind ih fun _ _ => reports_ok _

theorem reports_restoreFile (filePath : String) :
    Reports (r.restoreFileChecked m libs filePath) := by
  unfold FxarReader.restoreFileChecked
  refine reports_bind reports_readManifest fun manifest _ => ?_
  refine reports_bind reports_readChunkIndex fun index _ => ?_
  cases manifest.files.find? fun f => f.path = filePath with
  | none => exact reports_stop (by constructor <;> decide)
  | some entry =>
    refine reports_bind (reports_allocate _) fun _ _ => ?_
    refine reports_bind (reports_readFileChunks _ _) fun data _ => ?_
    split_ifs
    · exact reports_stop invalidData_isError
    · exact reports_ok _

theorem reports_preflight (disk : Disk) : Reports (r.preflightChecked m libs disk) :=
  reports_bind reports_readManifest fun _ _ => reports_hasSpace _ _

theorem reports_open (bytes : Bytes) : Reports (stops (FxarReader.open bytes)) := by
  unfold FxarReader.open
  rw [stops_bind]
  exact reports_bind (reports_stops raises_readHeader bytes) fun _ _ => reports_ok _

theorem reports_inspect (bytes : Bytes) : Reports (libs.inspectArchiveChecked m bytes) := by
  unfold FxarLibs.inspectArchiveChecked
  refine reports_bind (reports_open bytes) fun r _ => ?_
  refine reports_bind reports_readManifest fun manifest _ => ?_
  refine reports_bind reports_readChunkIndex fun index _ => ?_
  refine reports_bind (reports_checkedSum _) fun _ _ => ?_
  refine reports_bind (reports_checkedSum _) fun _ _ => ?_
  exact reports_bind (reports_checkedSum _) fun _ _ => reports_ok _

theorem assemble_inRange {chunks : List Bytes} {is : List ℕ} (h : ∀ i ∈ is, i < chunks.length) :
    ∃ n data, assemble (fun i => (chunks[i]?).map some) is = (n, .data data) := by
  induction is with
  | nil => exact ⟨0, [], rfl⟩
  | cons i is ih =>
    obtain ⟨hi, his⟩ := List.forall_mem_cons.mp h
    obtain ⟨n, data, hdata⟩ := ih his
    refine ⟨n + 1, chunks[i] ++ data, ?_⟩
    unfold assemble
    rw [List.getElem?_eq_getElem hi, hdata]
    rfl

/-- A file that fits does not stop the import. -/
theorem restoreEntry_stop {chunks : List Bytes} {entry : FxarManifestEntry}
    (h : EntryFits m chunks entry) (disk : Disk) (target : Path) :
    (libs.restoreEntry disk target (fun i => (chunks[i]?).map some) entry).stop = none := by
  have hcounted := m.counted
  have hsize := h.1
  obtain ⟨n, data, hdata⟩ := assemble_inRange h.2
  unfold FxarLibs.restoreEntry
  rw [if_neg (by omega), hdata]
  dsimp only
  split_ifs <;> rfl

variable (libs) in
theorem collectResults_fits {chunks : List Bytes} {entries : List FxarManifestEntry}
    (h : ∀ entry ∈ entries, EntryFits m chunks entry) (disk : Disk) (target : Path) :
    ∃ stats, collectResults (entries.map fun entry =>
      (entry, libs.restoreEntry disk target (fun i => (chunks[i]?).map some) entry)) =
        .ok stats := by
  unfold collectResults
  have hnone : (entries.map fun entry =>
      (entry, libs.restoreEntry disk target (fun i => (chunks[i]?).map some) entry)).findSome?
        (fun x => x.2.stop) = none := by
    rw [List.findSome?_eq_none_iff]
    intro x hx
    obtain ⟨entry, hentry, rfl⟩ := List.mem_map.mp hx
    exact restoreEntry_stop (h entry hentry) disk target
  rw [hnone]
  exact ⟨_, rfl⟩

theorem reports_entries (chunks : List Bytes) (entries : List FxarManifestEntry) :
    Reports (FxarLibs.entriesChecked m chunks entries) := by
  induction entries with
  | nil => exact reports_ok _
  | cons entry entries ih =>
    unfold FxarLibs.entriesChecked FxarLibs.entryChecked
    refine reports_bind (reports_bind (reports_allocate _) fun _ _ => ?_) fun _ _ => ih
    split_ifs
    · exact reports_ok _
    · exact reports_mishap _

theorem reports_restoreStream (disk : Disk) (target : Path) (manifest : FxarManifest)
    (chunks : List Bytes) : Reports (restoreStream m libs disk target manifest chunks) := by
  unfold restoreStream
  refine reports_bind (reports_hasSpace _ _) fun space _ => ?_
  split_ifs
  · exact reports_stop other_isError
  · exact reports_stop other_isError
  · refine reports_bind (reports_entries _ _) fun _ hentries => ?_
    have hfine : Fine (FxarLibs.entriesChecked m chunks manifest.files) := by
      rw [hentries]
      exact fine_ok _
    obtain ⟨stats, hstats⟩ := collectResults_fits libs ((fine_entries _).mp hfine) disk target
    rw [hstats]
    exact reports_ok _

theorem reports_readArchiveStream (bytes : Bytes) (disk : Disk) (target : Path) :
    Reports (libs.readArchiveStreamChecked m bytes disk target) := by
  unfold FxarLibs.readArchiveStreamChecked
  refine reports_bind (reports_stops raises_readHeader bytes) fun header _ => ?_
  refine reports_bind (reports_readManifestBlock _ _) fun manifest _ => ?_
  refine reports_bind (reports_readIndex _ _) fun index _ => ?_
  refine reports_bind (reports_stops (raises_readChunks _ _) _) fun chunks _ => ?_
  exact reports_restoreStream disk target manifest.1 chunks.1

end Parts

/-! ## All of the readers -/

section Readers
variable {m : Allocator} {libs : FxarLibs} {bytes : Bytes} {r : FxarReader}

theorem readHeader_rest {header : FxarHeader} {s : Bytes}
    (h : FxarLibs.readHeader bytes = .ok (header, s)) : s = bytes.drop headerSize := by
  obtain ⟨header', s', hread, h⟩ := ByteReader.run_bind_eq_ok h
  obtain ⟨buf, rest, hexact, hread⟩ := ByteReader.run_bind_eq_ok hread
  have hrest : rest = bytes.drop headerSize := by
    unfold ByteReader.readExact at hexact
    split_ifs at hexact
    cases hexact
    rfl
  have hs' : s' = rest := by
    split_ifs at hread <;> cases hread
    rfl
  have hs : s = s' := by
    split_ifs at h <;> cases h
    rfl
  rw [hs, hs', hrest]

/-- An archive is opened if its header is one. -/
theorem open_cases (bytes : Bytes) :
    (∃ e, FxarLibs.readHeader bytes = .error e ∧ FxarReader.open bytes = .error e) ∨
      ∃ header, FxarLibs.readHeader bytes = .ok (header, bytes.drop headerSize) ∧
        FxarReader.open bytes = .ok ⟨bytes, header⟩ := by
  unfold FxarReader.open
  cases hheader : FxarLibs.readHeader bytes with
  | error e => exact .inl ⟨e, rfl, rfl⟩
  | ok p =>
    obtain ⟨header, s⟩ := p
    have hrest : s = bytes.drop headerSize := readHeader_rest hheader
    subst hrest
    exact .inr ⟨header, rfl, rfl⟩

/-- Every reader comes back with a result or an error, from any disk and for any path. -/
structure ReadersAnswer (m : Allocator) (libs : FxarLibs) (bytes : Bytes) : Prop where
  opened : Answers (stops (FxarReader.open bytes))
  manifest : ∀ r, FxarReader.open bytes = .ok r → Answers (r.readManifestChecked m libs)
  index : ∀ r, FxarReader.open bytes = .ok r → Answers (r.readChunkIndexChecked m)
  file : ∀ r, FxarReader.open bytes = .ok r → ∀ filePath,
    Answers (r.restoreFileChecked m libs filePath)
  space : ∀ r, FxarReader.open bytes = .ok r → ∀ disk, Answers (r.preflightChecked m libs disk)
  inspect : Answers (libs.inspectArchiveChecked m bytes)
  stream : ∀ disk target, Answers (libs.readArchiveStreamChecked m bytes disk target)

/-- What an archive announces is granted, leads into its table and has sums of 64 bits. -/
structure Tame (m : Allocator) (libs : FxarLibs) (bytes : Bytes) : Prop where
  lengths : ∀ r, FxarReader.open bytes = .ok r →
    LengthGranted m (bytes.drop r.header.manifestOffset) ∧
      LengthGranted m (bytes.drop headerSize)
  count : ∀ r, FxarReader.open bytes = .ok r → IndexGranted m r.header.chunkCount
  sizes : ∀ r manifest, FxarReader.open bytes = .ok r → r.readManifest libs = .ok manifest →
    SizesFit manifest.files
  sums : ∀ r manifest index, FxarReader.open bytes = .ok r → r.readManifest libs = .ok manifest →
    r.readChunkIndex = .ok index → IndexSumsFit index
  files : ∀ r filePath, FxarReader.open bytes = .ok r → r.FileFits m libs filePath
  stream : StreamFits m libs bytes

theorem readersAnswer_of_error {e : ReadStop} (hheader : FxarLibs.readHeader bytes = .error e)
    (hopen : FxarReader.open bytes = .error e) : ReadersAnswer m libs bytes where
  opened := (answers_iff_fine (reports_open bytes)).mpr (fine_stops _)
  manifest r hr := by
    rw [hopen] at hr
    cases hr
  index r hr := by
    rw [hopen] at hr
    cases hr
  file r hr := by
    rw [hopen] at hr
    cases hr
  space r hr := by
    rw [hopen] at hr
    cases hr
  inspect := by
    rw [answers_iff_fine (reports_inspect bytes)]
    unfold FxarLibs.inspectArchiveChecked
    rw [stops_bind_error hopen]
    exact fine_stop e
  stream disk target := by
    rw [answers_iff_fine (reports_readArchiveStream bytes disk target)]
    unfold FxarLibs.readArchiveStreamChecked
    rw [stops_bind_error hheader]
    exact fine_stop e

theorem tame_of_error {e : ReadStop} (hheader : FxarLibs.readHeader bytes = .error e)
    (hopen : FxarReader.open bytes = .error e) : Tame m libs bytes := by
  have hnone : ∀ r, FxarReader.open bytes ≠ .ok r := by
    intro r hr
    rw [hopen] at hr
    cases hr
  have hstream : libs.readStream bytes = .error e := ByteReader.run_bind_error hheader
  exact {
    lengths := fun r hr => absurd hr (hnone r)
    count := fun r hr => absurd hr (hnone r)
    sizes := fun r _ hr => absurd hr (hnone r)
    sums := fun r _ _ hr => absurd hr (hnone r)
    files := fun r _ hr => absurd hr (hnone r)
    stream := by
      intro manifest chunks rest hread
      rw [hstream] at hread
      cases hread }

theorem tame_of_answers {header : FxarHeader}
    (hheader : FxarLibs.readHeader bytes = .ok (header, bytes.drop headerSize))
    (hopen : FxarReader.open bytes = .ok ⟨bytes, header⟩) (h : ReadersAnswer m libs bytes) :
    Tame m libs bytes := by
  have hreader : ∀ r, FxarReader.open bytes = .ok r → r = ⟨bytes, header⟩ :=
    fun r hr => Except.ok.inj (hr.symm.trans hopen)
  have hlength := fine_readManifest.mp
    ((answers_iff_fine reports_readManifest).mp (h.manifest _ hopen))
  have hcount := fine_readChunkIndex.mp
    ((answers_iff_fine reports_readChunkIndex).mp (h.index _ hopen))
  have hsizes := (fine_preflight hlength).mp fun disk =>
    (answers_iff_fine (reports_preflight disk)).mp (h.space _ hopen disk)
  have hinspect := (fine_inspect hopen hlength hcount).mp
    ((answers_iff_fine (reports_inspect bytes)).mp h.inspect)
  obtain ⟨hfirst, hstream⟩ := (fine_readArchiveStream hheader hcount).mp fun disk target =>
    (answers_iff_fine (reports_readArchiveStream bytes disk target)).mp (h.stream disk target)
  constructor
  · intro r hr
    rw [hreader r hr]
    exact ⟨hlength, hfirst⟩
  · intro r hr
    rw [hreader r hr]
    exact hcount
  · intro r manifest hr
    rw [hreader r hr]
    exact hsizes manifest
  · intro r manifest index hr
    rw [hreader r hr]
    exact fun hmanifest hindex => (hinspect manifest index hmanifest hindex).2
  · intro r filePath hr
    rw [hreader r hr]
    exact (fine_restoreFile hlength hcount filePath).mp
      ((answers_iff_fine (reports_restoreFile filePath)).mp (h.file _ hopen filePath))
  · exact hstream

theorem answers_of_tame {header : FxarHeader}
    (hheader : FxarLibs.readHeader bytes = .ok (header, bytes.drop headerSize))
    (hopen : FxarReader.open bytes = .ok ⟨bytes, header⟩) (h : Tame m libs bytes) :
    ReadersAnswer m libs bytes := by
  have hreader : ∀ r, FxarReader.open bytes = .ok r → r = ⟨bytes, header⟩ :=
    fun r hr => Except.ok.inj (hr.symm.trans hopen)
  obtain ⟨hlength, hfirst⟩ := h.lengths _ hopen
  have hcount := h.count _ hopen
  constructor
  · exact (answers_iff_fine (reports_open bytes)).mpr (fine_stops _)
  · intro r hr
    rw [hreader r hr, answers_iff_fine reports_readManifest]
    exact fine_readManifest.mpr hlength
  · intro r hr
    rw [hreader r hr, answers_iff_fine reports_readChunkIndex]
    exact fine_readChunkIndex.mpr hcount
  · intro r hr filePath
    rw [hreader r hr, answers_iff_fine (reports_restoreFile filePath)]
    exact (fine_restoreFile hlength hcount filePath).mpr (h.files _ filePath hopen)
  · intro r hr disk
    rw [hreader r hr, answers_iff_fine (reports_preflight disk)]
    exact (fine_preflight hlength).mpr (fun manifest => h.sizes _ manifest hopen) disk
  · rw [answers_iff_fine (reports_inspect bytes), fine_inspect hopen hlength hcount]
    intro manifest index hmanifest hindex
    have hsizes := h.sizes _ manifest hopen hmanifest
    unfold SizesFit at hsizes
    exact ⟨by omega, h.sums _ manifest index hopen hmanifest hindex⟩
  · intro disk target
    rw [answers_iff_fine (reports_readArchiveStream bytes disk target)]
    exact (fine_readArchiveStream hheader hcount).mpr ⟨hfirst, h.stream⟩ disk target

/-- The readers are safe for the archives that announce nothing out of reach, and no others. -/
theorem readersAnswer_iff (m : Allocator) (libs : FxarLibs) (bytes : Bytes) :
    ReadersAnswer m libs bytes ↔ Tame m libs bytes := by
  obtain ⟨e, hheader, hopen⟩ | ⟨header, hheader, hopen⟩ := open_cases bytes
  · exact iff_of_true (readersAnswer_of_error hheader hopen) (tame_of_error hheader hopen)
  · exact ⟨tame_of_answers hheader hopen, answers_of_tame hheader hopen⟩

end Readers

/-- Every buffer is granted that can be counted. -/
def largestAllocator : Allocator := ⟨2 ^ 63 - 1, by decide, by decide⟩

/-- A manifest whose file names the second chunk of one. -/
def forgedManifest : FxarManifest :=
  { sampleManifest with
    files := sampleManifest.files.map fun entry => { entry with chunks := [1] } }

def forgedTables : DedupTables := archiveTables (sampleLibs forgedManifest) "none" sampleSnapshots

def forgedArchive : Bytes :=
  seekableArchive "none" forgedTables forgedManifest.json forgedManifest.json

def forgedReader : FxarReader :=
  seekableReader "none" forgedTables forgedManifest.json forgedManifest.json

/-- Header, index, chunk and JSON are all in order, and the table is still left. -/
theorem forgedIndex_outOfBounds :
    FxarReader.open forgedArchive = .ok forgedReader ∧
      forgedReader.restoreFileChecked largestAllocator (sampleLibs forgedManifest)
        "2024-01-01/tree/a" = .error (.mishap .outOfBounds) ∧
      ¬ReadersAnswer largestAllocator (sampleLibs forgedManifest) forgedArchive := by
  have hopen : FxarReader.open forgedArchive = .ok forgedReader :=
    open_seekable "none" forgedManifest.json (by decide +kernel)
  have hrestore : forgedReader.restoreFileChecked largestAllocator (sampleLibs forgedManifest)
      "2024-01-01/tree/a" = .error (.mishap .outOfBounds) := by decide +kernel
  refine ⟨hopen, hrestore, fun h => ?_⟩
  obtain ⟨s, -, hs⟩ := h.file _ hopen "2024-01-01/tree/a" _ hrestore
  cases hs

end Foxing
