import Foxing.SignatureSoundness

/-!
# Signatures from scans and from jobs

A scan signs the source with the hash of its whole content. A hydration job signs
its copy with the root of a Merkle tree, which for a file of several chunks is the
hash of their hashes, and signs only files above another size. What a job has
stored is compared here with what the next scan computes of the same source.
-/
namespace Foxing.Signatures
open MerkleTree Chunks

/-- Files of this size are signed with hashes by a scan. -/
def HashConfig.covers (cfg : HashConfig) (size : ℕ) : Bool :=
  cfg.enabled && size ≥ cfg.liteThresholdBytes

section Producers
variable (blake3 : Bytes → Bytes) (cfg : HashConfig) (src : FileData)

/-- The job copies a source that stays as it is, and stores a signature. -/
structure CopiesUnchanged (t : TargetFile) (j : Attempt) : Prop where
  copiesWhole : merkleBranch blake3 src.content ((t.file.map FileData.content).getD [])
    (getMerkleSignature t) j.deltaCopies = none
  copied : j.copied = some src.content
  unchanged : j.after = some src
  applies : hydrationSmallFileThreshold < src.content.length → j.applies = true
  stores : j.stores = true

/-- The stored signature matches the source, and a scan that can read the source skips it. -/
def Recognised (t : TargetFile) : Prop :=
  ∃ sig, t.sig = some sig ∧ (SyncSignature.compute blake3 cfg src).matches sig = true ∧
    ∀ env : CheckEnv, env.readsSource = true → (syncFileNeeded blake3 cfg src t env).1 = false

/-- A signature of this version of the source: a root that is compared is the hash of the
content; without one the times are compared, and a lite hash if there are two. -/
def IsOf (sig : SyncSignature) : Prop :=
  src.content.length = sig.size ∧
    if cfg.covers src.content.length = true ∧ sig.merkleRoot.isSome = true then
      sig.merkleRoot = some (blake3 src.content)
    else
      src.mtimeSec = sig.mtimeSec ∧ src.mtimeNsec = sig.mtimeNsec ∧
        (cfg.covers src.content.length = true → ∀ h, sig.hash = some h →
          hashFileLite blake3 cfg src.content src.content.length = some h)

/-- A job that computes the signature makes no tree of a file that scans hash; a job that
takes the signature of an earlier one takes one of this version. -/
def SignsAlike (cached : Option CachedSignatures) (j : Attempt) : Prop :=
  match cached with
  | none => cfg.covers src.content.length = true → merkleDeltaThreshold < src.content.length →
      j.hashesTarget = false
  | some e => IsOf blake3 cfg src e.syncSig

end Producers

section Matching
variable {blake3 : Bytes → Bytes} {cfg : HashConfig} {src : FileData}

theorem isSome_hashFileLite {content : Bytes} {size : ℕ} :
    (hashFileLite blake3 cfg content size).isSome = cfg.covers size := by
  unfold hashFileLite HashConfig.covers
  by_cases hen : cfg.enabled = false
  · simp [hen]
  by_cases hsize : size < cfg.liteThresholdBytes
  · simp [hen, hsize]
  · simp [hen, hsize, not_lt.mp hsize]

theorem SyncSignature.matches_iff {a b : SyncSignature} :
    a.matches b = true ↔ a.size = b.size ∧
      if a.merkleRoot.isSome = true ∧ b.merkleRoot.isSome = true then a.merkleRoot = b.merkleRoot
      else a.mtimeSec = b.mtimeSec ∧ a.mtimeNsec = b.mtimeNsec ∧
        ∀ x, a.hash = some x → ∀ y, b.hash = some y → x = y := by
  unfold SyncSignature.matches
  by_cases hsize : a.size = b.size
  swap
  · simp [hsize]
  by_cases htime : a.mtimeSec = b.mtimeSec ∧ a.mtimeNsec = b.mtimeNsec
  · cases a.merkleRoot <;> cases b.merkleRoot <;> cases a.hash <;> cases b.hash <;>
      simp [hsize, htime]
  · have hfalse : ¬ (a.mtimeSec = b.mtimeSec ∧ a.mtimeNsec = b.mtimeNsec ∧
        ∀ x, a.hash = some x → ∀ y, b.hash = some y → x = y) := fun h => htime ⟨h.1, h.2.1⟩
    rw [not_and_or] at htime
    cases a.merkleRoot <;> cases b.merkleRoot <;> simp [hsize, htime, hfalse]

theorem compute_merkleRoot : (SyncSignature.compute blake3 cfg src).merkleRoot =
    if cfg.covers src.content.length = true then some (blake3 src.content) else none := rfl

theorem compute_hash : (SyncSignature.compute blake3 cfg src).hash =
    if cfg.covers src.content.length = true then
      hashFileLite blake3 cfg src.content src.content.length else none := rfl

/-- The signature of the source matches the signatures of this version. -/
theorem matches_compute_iff {sig : SyncSignature} :
    (SyncSignature.compute blake3 cfg src).matches sig = true ↔ IsOf blake3 cfg src sig := by
  rw [SyncSignature.matches_iff, compute_merkleRoot, compute_hash]
  unfold IsOf
  refine and_congr_right fun _ => ?_
  rw [eq_comm (a := sig.merkleRoot)]
  cases hcov : cfg.covers src.content.length with
  | false => simp [SyncSignature.compute]
  | true =>
    obtain ⟨lite, hlite⟩ : ∃ lite, hashFileLite blake3 cfg src.content src.content.length =
        some lite := Option.isSome_iff_exists.mp (isSome_hashFileLite.trans hcov)
    simp [SyncSignature.compute, hlite]

end Matching

section Jobs
variable {blake3 : Bytes → Bytes} {cfg : HashConfig} {src : FileData}

/-- A file of several chunks is longer than what is hashed for the root of its tree. -/
theorem root_ne (h32 : ∀ b, (blake3 b).length = 32) {content : Bytes}
    (hinj : Set.InjOn blake3
      {content, leafHashes blake3 (calculateAdaptiveChunkSize content.length) content})
    (hsize : merkleDeltaThreshold < content.length) :
    (fromFile blake3 content (calculateAdaptiveChunkSize content.length)).root ≠
      blake3 content := by
  have hchunk := pos_chunkSize content.length
  have hmany : 2 ≤ count (calculateAdaptiveChunkSize content.length) content.length := by
    have := mul_calculateAdaptiveChunkSize_le hsize
    exact (lt_count (i := 1) hchunk).mpr (by omega)
  rw [root_of_two_le hchunk hmany]
  intro heq
  have hsame := hinj (by simp) (by simp) heq
  have hshort := length_leafHashes_le h32 content
  rw [hsame] at hshort
  exact absurd hsize (not_lt.mpr (hshort.trans (by decide)))

/-- What a job computes of an unchanged source is a signature of this version, unless both a
root and the hash of the whole content are made. -/
theorem isOf_computeSignatures_iff (h32 : ∀ b, (blake3 b).length = 32)
    (hinj : Set.InjOn blake3
      {src.content, leafHashes blake3 (calculateAdaptiveChunkSize src.content.length) src.content})
    (hashesTarget : Bool) :
    IsOf blake3 cfg src (computeSignatures blake3 cfg src.content.length src src.content
        hashesTarget).syncSig ↔
      (cfg.covers src.content.length = true → merkleDeltaThreshold < src.content.length →
        hashesTarget = false) := by
  by_cases htree : src.content.length > merkleDeltaThreshold ∧ hashesTarget = true
  · have hne := root_ne h32 hinj htree.1
    simp [IsOf, computeSignatures, htree, hne]
  · have hflag : merkleDeltaThreshold < src.content.length → hashesTarget = false := by
      simpa using htree
    simpa [IsOf, computeSignatures, htree] using fun _ => hflag

/-- A job that copies an unchanged source stores what it has computed or found in the cache. -/
theorem CopiesUnchanged.attempt_eq {t : TargetFile} {j : Attempt}
    (hcopy : CopiesUnchanged blake3 src t j) (cfg : HashConfig)
    (cached : Option CachedSignatures) :
    ∃ merkle, (attempt blake3 cfg (some src) t cached j).1 =
      { file := some ⟨src.content, j.mtimeSec, j.mtimeNsec⟩
        sig := some (cached.getD (computeSignatures blake3 cfg src.content.length src src.content
          j.hashesTarget)).syncSig
        merkle := merkle
        dirty := false } := by
  have happlies : ¬ (src.content.length > hydrationSmallFileThreshold ∧ j.applies = false) := by
    rintro ⟨hlarge, hfails⟩
    rw [hcopy.applies hlarge] at hfails
    cases hfails
  have hsigs : signaturesFor blake3 cfg cached src.content.length j.after src.content
      j.hashesTarget = some (cached.getD (computeSignatures blake3 cfg src.content.length src
        src.content j.hashesTarget)) := by
    rw [hcopy.unchanged]
    cases cached <;> rfl
  simp only [attempt, hcopy.copiesWhole, hcopy.copied, postCopy]
  rw [if_neg happlies, hsigs]
  simp only [hcopy.unchanged, hcopy.stores]
  exact ⟨_, rfl⟩

/-- A scan skips a file that is there, is not dirty and has a signature that matches. -/
theorem syncFileNeeded_of_matches {t : TargetFile} {sig : SyncSignature}
    (hfile : t.file.isNone = false) (hclean : t.dirty = false) (hsig : t.sig = some sig)
    (hmatch : (SyncSignature.compute blake3 cfg src).matches sig = true) {env : CheckEnv}
    (hreads : env.readsSource = true) : (syncFileNeeded blake3 cfg src t env).1 = false := by
  unfold syncFileNeeded
  by_cases hscan : env.prescan = some src.stamp
  · rw [if_pos hscan]
  · rw [if_neg hscan]
    simp [hclean, hreads, hsig, hmatch, hfile]

/-- A copy of an unchanged source is recognised exactly if the signature the job stores is made
as the scan makes it: no root of a tree where the scan hashes the file, and no signature of
another version. -/
theorem recognised_iff (h32 : ∀ b, (blake3 b).length = 32)
    (hinj : Set.InjOn blake3
      {src.content, leafHashes blake3 (calculateAdaptiveChunkSize src.content.length) src.content})
    {t : TargetFile} {j : Attempt} (hcopy : CopiesUnchanged blake3 src t j)
    (cached : Option CachedSignatures) :
    Recognised blake3 cfg src (attempt blake3 cfg (some src) t cached j).1 ↔
      SignsAlike blake3 cfg src cached j := by
  obtain ⟨merkle, heq⟩ := hcopy.attempt_eq cfg cached
  have hstored : Recognised blake3 cfg src (attempt blake3 cfg (some src) t cached j).1 ↔
      IsOf blake3 cfg src (cached.getD (computeSignatures blake3 cfg src.content.length src
        src.content j.hashesTarget)).syncSig := by
    rw [heq, ← matches_compute_iff]
    constructor
    · rintro ⟨sig, hsig, hmatch, -⟩
      cases hsig
      exact hmatch
    · intro hmatch
      exact ⟨_, rfl, hmatch, fun env hreads =>
        syncFileNeeded_of_matches rfl rfl rfl hmatch hreads⟩
  rw [hstored]
  cases cached with
  | none => exact isOf_computeSignatures_iff h32 hinj j.hashesTarget
  | some e => exact Iff.rfl

end Jobs

/-! ## A file of one byte, and one more than a megabyte -/

theorem injOn_lengthHash_zeros {n : ℕ} (hlt : n < 256 ^ 32)
    (hne : n ≠ (leafHashes lengthHash (calculateAdaptiveChunkSize n) (zeros n)).length) :
    Set.InjOn lengthHash
      {zeros n, leafHashes lengthHash (calculateAdaptiveChunkSize (zeros n).length) (zeros n)} := by
  have hshort := length_leafHashes_le length_lengthHash (zeros n)
  rw [length_zeros] at hshort ⊢
  refine lengthHash_injOn
    [zeros n, leafHashes lengthHash (calculateAdaptiveChunkSize n) (zeros n)] ?_ ?_ ?_
  · simp
  · simpa [length_zeros] using hne
  · intro x hx
    rcases List.mem_pair.mp hx with rfl | rfl
    · rwa [length_zeros]
    · exact hshort.trans_lt (by decide)

theorem copiesUnchanged_fullCopy {src : FileData} {t : TargetFile} (ht : t.merkle = none) :
    CopiesUnchanged lengthHash src t (fullCopy src) where
  copiesWhole := by
    rw [show getMerkleSignature t = none by rw [getMerkleSignature, ht]]
    unfold merkleBranch
    split_ifs <;> rfl
  copied := rfl
  unchanged := rfl
  applies _ := rfl
  stores := rfl

theorem recognised_oneByte :
    Recognised lengthHash hashAll oneByte
        (attempt lengthHash hashAll (some oneByte) ⟨none, none, none, false⟩ none
          (fullCopy oneByte)).1 ↔
      SignsAlike lengthHash hashAll oneByte none (fullCopy oneByte) :=
  recognised_iff length_lengthHash
    (injOn_lengthHash_zeros (by decide) (by rw [length_leafHashes length_lengthHash]; omega))
    (copiesUnchanged_fullCopy rfl) none

def largeFile : FileData := ⟨zeros (2 ^ 20 + 1), 1, 0⟩

/-- The root that a job stores for a file of 17 chunks is not the hash of the file. -/
theorem largeFile_not_recognised :
    ¬ ∀ (blake3 : Bytes → Bytes) (cfg : HashConfig) (src : FileData) (t : TargetFile)
      (cached : Option CachedSignatures) (j : Attempt), (∀ b, (blake3 b).length = 32) →
      Set.InjOn blake3 {src.content,
        leafHashes blake3 (calculateAdaptiveChunkSize src.content.length) src.content} →
      CopiesUnchanged blake3 src t j →
      Recognised blake3 cfg src (attempt blake3 cfg (some src) t cached j).1 := by
  intro h
  have hinj : Set.InjOn lengthHash {largeFile.content, leafHashes lengthHash
      (calculateAdaptiveChunkSize largeFile.content.length) largeFile.content} := by
    refine injOn_lengthHash_zeros (by decide) ?_
    have hshort := length_leafHashes_le length_lengthHash (zeros (2 ^ 20 + 1))
    rw [length_zeros] at hshort
    omega
  have hcopy : CopiesUnchanged lengthHash largeFile ⟨none, none, none, false⟩
      (fullCopy largeFile) := copiesUnchanged_fullCopy rfl
  have hlarge : merkleDeltaThreshold < largeFile.content.length := by
    rw [show largeFile.content.length = 2 ^ 20 + 1 from length_zeros _]
    decide
  obtain ⟨sig, hsig, hmatch, -⟩ := h lengthHash hashAll largeFile _ none _ length_lengthHash hinj
    hcopy
  obtain ⟨merkle, heq⟩ := hcopy.attempt_eq hashAll none
  rw [heq] at hsig
  cases hsig
  have hnone := (isOf_computeSignatures_iff length_lengthHash hinj true).mp
    (matches_compute_iff.mp hmatch) (by simp [HashConfig.covers, hashAll]) hlarge
  cases hnone

end Foxing.Signatures
