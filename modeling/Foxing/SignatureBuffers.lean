import Foxing.SyncSignatures
import Foxing.FxarFormat
import Foxing.Lib.Reads

/-!
# Signatures of files and of buffers

What has been written from memory is signed in memory. The head and the tail are cut out of
the buffer there, and read from their places in the file otherwise; the whole is hashed at
once, or as it comes from the file. Both give the signature with all of its fields.
-/
namespace Foxing.SignatureBuffers
open Signatures

def chunkSize : ℕ := minChunkSize

/-- A signature with all of its fields, the hashes as texts. -/
structure SyncSignature where
  size : ℕ
  mtimeSec : ℤ
  mtimeNsec : ℤ
  hash : Option String
  merkleRoot : Option String
  chunkSize : Option ℕ
  leafCount : Option ℕ
  version : ℕ
  deriving DecidableEq, Repr

def SyncSignature.currentVersion : ℕ := 4

/-- What the calls for a file give: its metadata, the two times it is opened, a read at an
offset, and the reads from its beginning on. -/
structure FileCalls (ε : Type) where
  metadata : Except ε Stamp
  openLite : Except ε Unit
  openFull : Except ε Unit
  readAt : ℕ → ℕ → Except ε Bytes
  reads : List (Except ε Bytes)

section Hashes
variable {ε : Type} (blake3 : Bytes → Bytes) (cfg : HashConfig)

/-- A read that fails counts as one that has read nothing. -/
def FileCalls.readAtOrNothing (calls : FileCalls ε) (n offset : ℕ) : Bytes :=
  (calls.readAt n offset).toOption.getD []

def hashFileLite (calls : FileCalls ε) (size : ℕ) : Except ε (Option Bytes) := do
  if cfg.enabled = false then return none
  if size < cfg.liteThresholdBytes then return none
  calls.openLite
  let head := calls.readAtOrNothing minChunkSize 0
  let tail :=
    if size > minChunkSize * 2 then calls.readAtOrNothing minChunkSize (size - minChunkSize) else []
  return some (blake3 (Bytes.ofNat 8 size ++ head ++ tail))

def hashFileFull (calls : FileCalls ε) : Except ε (Option Bytes) := do
  if cfg.enabled = false then return none
  calls.openFull
  let fed ← Reads.run (· ++ ·) [] calls.reads
  return some (blake3 fed)

def hashBufferLite (data : Bytes) (size : ℕ) : Option Bytes :=
  if cfg.enabled = false then none
  else if size < cfg.liteThresholdBytes then none
  else
    let head := data.take (min chunkSize data.length)
    let tail := if size > chunkSize * 2 then data.drop (data.length - chunkSize) else []
    some (blake3 (Bytes.ofNat 8 size ++ head ++ tail))

def hashBufferFull (data : Bytes) : Option Bytes :=
  if cfg.enabled = false then none else some (blake3 data)

/-- Both hashes, where the file is large enough. -/
def fileHashes (calls : FileCalls ε) (size : ℕ) : Except ε (Option String × Option String) :=
  if cfg.enabled ∧ size ≥ cfg.liteThresholdBytes then do
    let lite ← hashFileLite blake3 cfg calls size
    let merkle ← hashFileFull blake3 cfg calls
    return (lite.map hexEncode, merkle.map hexEncode)
  else return (none, none)

def bufferHashes (data : Bytes) (size : ℕ) : Option String × Option String :=
  if cfg.enabled ∧ size ≥ cfg.liteThresholdBytes then
    ((hashBufferLite blake3 cfg data size).map hexEncode,
      (hashBufferFull blake3 cfg data).map hexEncode)
  else (none, none)

def SyncSignature.compute (calls : FileCalls ε) : Except ε SyncSignature := do
  let stamp ← calls.metadata
  let (hash, merkleRoot) ← fileHashes blake3 cfg calls stamp.size
  return {
    size := stamp.size
    mtimeSec := stamp.mtimeSec
    mtimeNsec := stamp.mtimeNsec
    hash
    merkleRoot
    chunkSize := some (calculateAdaptiveChunkSize stamp.size)
    leafCount := none
    version := currentVersion }

def SyncSignature.computeFromBuffer (data : Bytes) (mtimeSec mtimeNsec : ℤ) : SyncSignature :=
  let size := data.length
  let hashes := bufferHashes blake3 cfg data size
  { size
    mtimeSec
    mtimeNsec
    hash := hashes.1
    merkleRoot := hashes.2
    chunkSize := some (calculateAdaptiveChunkSize size)
    leafCount := none
    version := currentVersion }

/-- The fields that are looked at when signatures are compared, in a signature with all of them. -/
def SyncSignature.ofCompared (sig : Signatures.SyncSignature) : SyncSignature where
  size := sig.size
  mtimeSec := sig.mtimeSec
  mtimeNsec := sig.mtimeNsec
  hash := sig.hash.map hexEncode
  merkleRoot := sig.merkleRoot.map hexEncode
  chunkSize := some sig.chunkSize
  leafCount := none
  version := currentVersion

end Hashes

/-! ## A file with the data -/

/-- The calls are those for a regular file: a read at an offset gives what there is, and the
reads from the beginning on give all of it, in pieces that fit into the buffer. -/
structure FileCalls.Holds {ε : Type} (calls : FileCalls ε) (f : Signatures.FileData) : Prop where
  metadata : calls.metadata = .ok f.stamp
  openLite : calls.openLite = .ok ()
  openFull : calls.openFull = .ok ()
  readAt : ∀ n offset, calls.readAt n offset = .ok ((f.content.drop offset).take n)
  reads : ∃ pieces, Reads.Delivers pieces f.content ∧ (∀ piece ∈ pieces, piece.length ≤ chunkSize) ∧
    calls.reads = pieces.map Except.ok

section Agreement
variable {ε : Type} {blake3 : Bytes → Bytes} {cfg : HashConfig} {calls : FileCalls ε}
  {f : Signatures.FileData}

theorem FileCalls.Holds.readAtOrNothing (h : calls.Holds f) (n offset : ℕ) :
    calls.readAtOrNothing n offset = (f.content.drop offset).take n := by
  rw [FileCalls.readAtOrNothing, h.readAt]
  rfl

/-- The tail is the same from its place in the file and from the end of the buffer. -/
theorem take_drop_tail (data : Bytes) (n : ℕ) :
    (data.drop (data.length - n)).take n = data.drop (data.length - n) := by
  apply List.take_of_length_le
  rw [List.length_drop]
  omega

theorem hashFileLite_eq (h : calls.Holds f) :
    hashFileLite blake3 cfg calls f.content.length =
      .ok (hashBufferLite blake3 cfg f.content f.content.length) := by
  have hhead : calls.readAtOrNothing minChunkSize 0 =
      f.content.take (min chunkSize f.content.length) := by
    rw [h.readAtOrNothing, List.drop_zero, ← List.take_eq_take_min]
    rfl
  have htail : calls.readAtOrNothing minChunkSize (f.content.length - minChunkSize) =
      f.content.drop (f.content.length - chunkSize) := by
    rw [h.readAtOrNothing, take_drop_tail]
    rfl
  rw [hashFileLite, hashBufferLite, h.openLite, hhead, htail]
  by_cases henabled : cfg.enabled = false
  · rw [if_pos henabled, if_pos henabled]
    rfl
  rw [if_neg henabled, if_neg henabled]
  by_cases hsize : f.content.length < cfg.liteThresholdBytes
  · rw [if_pos hsize, if_pos hsize]
    rfl
  · rw [if_neg hsize, if_neg hsize]
    rfl

theorem hashFileFull_eq (h : calls.Holds f) :
    hashFileFull blake3 cfg calls = .ok (hashBufferFull blake3 cfg f.content) := by
  obtain ⟨pieces, hpieces, -, hreads⟩ := h.reads
  rw [hashFileFull, hashBufferFull, h.openFull, hreads, Reads.run_append hpieces]
  by_cases henabled : cfg.enabled = false
  · rw [if_pos henabled, if_pos henabled]
    rfl
  · rw [if_neg henabled, if_neg henabled]
    rfl

theorem fileHashes_eq (h : calls.Holds f) :
    fileHashes blake3 cfg calls f.content.length =
      .ok (bufferHashes blake3 cfg f.content f.content.length) := by
  rw [fileHashes, bufferHashes, hashFileLite_eq h, hashFileFull_eq h]
  split_ifs <;> rfl

theorem hashBufferLite_eq (data : Bytes) :
    hashBufferLite blake3 cfg data data.length =
      Signatures.hashFileLite blake3 cfg data data.length := by
  have hhead : data.take (min chunkSize data.length) = data.take minChunkSize :=
    List.take_eq_take_min.symm
  unfold hashBufferLite Signatures.hashFileLite
  rw [hhead, take_drop_tail]
  rfl

theorem bufferHashes_eq :
    bufferHashes blake3 cfg f.content f.content.length =
      ((Signatures.SyncSignature.compute blake3 cfg f).hash.map hexEncode,
        (Signatures.SyncSignature.compute blake3 cfg f).merkleRoot.map hexEncode) := by
  rw [bufferHashes, hashBufferLite_eq]
  unfold Signatures.SyncSignature.compute
  dsimp only
  by_cases h : cfg.enabled = true ∧ f.content.length ≥ cfg.liteThresholdBytes
  · obtain ⟨henabled, hsize⟩ := h
    simp [hashBufferFull, henabled, hsize]
  · have hnone : (cfg.enabled && decide (f.content.length ≥ cfg.liteThresholdBytes)) = false := by
      rw [← Bool.not_eq_true, Bool.and_eq_true, decide_eq_true_iff]
      exact h
    simp only [h, hnone, if_false, Bool.false_eq_true, Option.map_none]

/-- The signature that is compared with a stored one, of which only the hashes are kept, is the one
that is written for a buffer with the content of the file. -/
theorem computeFromBuffer_eq_ofCompared :
    SyncSignature.computeFromBuffer blake3 cfg f.content f.mtimeSec f.mtimeNsec =
      .ofCompared (Signatures.SyncSignature.compute blake3 cfg f) := by
  unfold SyncSignature.computeFromBuffer
  dsimp only
  rw [bufferHashes_eq]
  rfl

/-- A file is signed as the buffer with its content. -/
theorem compute_eq_computeFromBuffer (h : calls.Holds f) :
    SyncSignature.compute blake3 cfg calls =
      .ok (SyncSignature.computeFromBuffer blake3 cfg f.content f.mtimeSec f.mtimeNsec) := by
  have hhashes : fileHashes blake3 cfg calls f.stamp.size = _ := fileHashes_eq h
  rw [SyncSignature.compute, h.metadata]
  show (fileHashes blake3 cfg calls f.stamp.size >>= _) = _
  rw [hhashes]
  rfl

/-- The calls for a file of three bytes that come one by one. -/
def threeBytes : FileCalls Unit where
  metadata := .ok ⟨3, 5, 7⟩
  openLite := .ok ()
  openFull := .ok ()
  readAt n offset := .ok ((([1, 2, 3] : Bytes).drop offset).take n)
  reads := [[1], [2], [3]].map Except.ok

theorem threeBytes_signed :
    SyncSignature.compute id ⟨true, 0⟩ threeBytes =
      .ok (SyncSignature.computeFromBuffer id ⟨true, 0⟩ [1, 2, 3] 5 7) :=
  compute_eq_computeFromBuffer (f := ⟨[1, 2, 3], 5, 7⟩)
    { metadata := rfl
      openLite := rfl
      openFull := rfl
      readAt := fun _ _ => rfl
      reads := ⟨[[1], [2], [3]], ⟨by decide, rfl⟩, by decide, rfl⟩ }

end Agreement

end Foxing.SignatureBuffers
