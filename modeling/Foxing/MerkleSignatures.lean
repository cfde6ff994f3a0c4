import Foxing.DeltaCopy

/-!
# What a Merkle signature keeps

A tree is stored as the hashes of its leaves in an extended attribute of limited
size; the chunk size grows with the file so that the hashes fit. Where the leaves
begin and how long they are comes back from the size of the file. The length of a
leaf has 32 bits, which chunks of four gigabytes and more overrun.
-/
namespace Foxing

open MerkleTree Chunks

def maxMerkleXattrBytes : ℕ := 64 * 1024

namespace MerkleSignature

/-- The root, both sizes, the number of hashes and the hashes. -/
def serializedSize (sig : MerkleSignature) : ℕ := 56 + sig.leafHashes.length * 32

def fitsInXattr (sig : MerkleSignature) : Bool := sig.serializedSize ≤ maxMerkleXattrBytes

end MerkleSignature

/-- The largest file in chunks whose length has 32 bits. -/
def maxSignedSize : ℕ := maxLeavesPerXattr * 2 ^ 31

/-! ## Chunk sizes of large files -/

theorem desired_le_iff {n : ℕ} :
    (n + maxLeavesPerXattr - 1) / maxLeavesPerXattr ≤ 2 ^ 31 ↔ n ≤ maxSignedSize := by
  have hdesired : (n + maxLeavesPerXattr - 1) / maxLeavesPerXattr = (n + 1799) / 1800 := rfl
  have hmax : maxSignedSize = 1800 * 2 ^ 31 := rfl
  rw [hdesired, hmax]
  omega

theorem calculateAdaptiveChunkSize_lt_iff (n : ℕ) :
    calculateAdaptiveChunkSize n < 2 ^ 32 ↔ n ≤ maxSignedSize := by
  unfold calculateAdaptiveChunkSize
  split_ifs with hn
  · exact iff_of_true (by decide) (by omega)
  · dsimp only
    rw [Nat.pow_lt_pow_iff_right (le_refl 2), Nat.lt_succ_iff, Nat.clog_le_iff_le_pow (le_refl 2),
      max_le_iff, desired_le_iff]
    exact and_iff_right (by decide)

/-- The chunk size of a file whose size has 64 bits has no more than 64 itself. -/
theorem calculateAdaptiveChunkSize_lt {n : ℕ} (hn : n < 2 ^ 64) :
    calculateAdaptiveChunkSize n < 2 ^ 64 := by
  unfold calculateAdaptiveChunkSize
  split_ifs with hzero
  · show 65536 < 2 ^ 64
    omega
  · have hdesired : (n + maxLeavesPerXattr - 1) / maxLeavesPerXattr ≤ 2 ^ 63 := by
      show (n + 1799) / 1800 ≤ 2 ^ 63
      omega
    have hmin : minChunkSize ≤ 2 ^ 63 := by
      show 65536 ≤ 2 ^ 63
      omega
    dsimp only
    rw [Nat.pow_lt_pow_iff_right (le_refl 2), Nat.lt_succ_iff, Nat.clog_le_iff_le_pow (le_refl 2)]
    exact max_le hmin hdesired

theorem dvd_calculateAdaptiveChunkSize {n : ℕ} (hn : maxSignedSize < n) :
    2 ^ 32 ∣ calculateAdaptiveChunkSize n := by
  have hle : 2 ^ 32 ≤ calculateAdaptiveChunkSize n := by
    rw [← Nat.not_lt, calculateAdaptiveChunkSize_lt_iff]
    omega
  obtain ⟨k, -, heq⟩ := calculateAdaptiveChunkSize_eq n
  rw [heq] at hle ⊢
  exact Nat.pow_dvd_pow 2 ((Nat.pow_le_pow_iff_right (le_refl 2)).mp hle)

/-! ## Trees of files -/

section Signed
variable (blake3 : Bytes → Bytes) (content : Bytes)

/-- The tree that is stored for a file. -/
def signedTree : MerkleTree := fromFile blake3 content (calculateAdaptiveChunkSize content.length)

/-- The signature of the file loses nothing. -/
structure Lossless : Prop where
  representable : calculateAdaptiveChunkSize content.length < 2 ^ 64
  leaves : (signedTree blake3 content).leaves.length ≤ maxLeavesPerXattr
  fits : (signedTree blake3 content).toSignature.fitsInXattr = true
  lengths : ∀ i leaf, (signedTree blake3 content).leaves[i]? = some leaf →
    leaf.length.val = (chunk (calculateAdaptiveChunkSize content.length) content i).length
  recovered : fromSignature (signedTree blake3 content).toSignature =
    some (signedTree blake3 content)

variable {content}

theorem length_leaves_signedTree (content : Bytes) :
    (signedTree blake3 content).leaves.length =
      count (calculateAdaptiveChunkSize content.length) content.length :=
  length_leaves_fromFile ((Nat.succ_pos _).trans_le (le_calculateAdaptiveChunkSize _)) content

theorem length_leafHashes_signedTree (content : Bytes) :
    (signedTree blake3 content).toSignature.leafHashes.length =
      count (calculateAdaptiveChunkSize content.length) content.length :=
  (List.length_map _).trans (length_leaves_signedTree blake3 content)

theorem fits_signedTree (content : Bytes) :
    (signedTree blake3 content).toSignature.fitsInXattr = true := by
  have hleaves := count_calculateAdaptiveChunkSize_le content.length
  have hmax : maxMerkleXattrBytes = 65536 := rfl
  have hlen := length_leafHashes_signedTree blake3 content
  simp only [MerkleSignature.fitsInXattr, MerkleSignature.serializedSize, decide_eq_true_eq, hlen,
    hmax]
  omega

/-- With lengths of 32 bits the signature gives the tree back. -/
theorem fromSignature_signedTree (h : content.length ≤ maxSignedSize) :
    fromSignature (signedTree blake3 content).toSignature = some (signedTree blake3 content) := by
  have hc := (Nat.succ_pos _).trans_le (le_calculateAdaptiveChunkSize content.length)
  have hfits := (calculateAdaptiveChunkSize_lt_iff content.length).mpr h
  have hleaves := @signatureLeaves_eq _ hc hfits (signedTree blake3 content).toSignature rfl 0 _
    ((Nat.zero_add _).trans (length_leafHashes_signedTree blake3 content))
  rw [Nat.zero_mul] at hleaves
  have hsame : signatureLeaves (signedTree blake3 content).toSignature 0 0
      (signedTree blake3 content).toSignature.leafHashes = (signedTree blake3 content).leaves := by
    rw [hleaves]
    apply List.ext_getElem?
    intro i
    rw [List.getElem?_mapIdx]
    show Option.map _ ((signedTree blake3 content).leaves.map ChunkHash.hash)[i]? = _
    rw [List.getElem?_map, signedTree, getElem?_leaves_fromFile hc]
    split_ifs with hi
    · simp only [Option.map_some, Nat.zero_add, length_chunk]
      rfl
    · rfl
  rw [signedTree, fromSignature_toSignature hc, storedTree, ← signedTree]
  exact congrArg (fun leaves => some { signedTree blake3 content with leaves := leaves }) hsame

theorem length_of_signedTree (h : content.length ≤ maxSignedSize) {i : ℕ} {leaf : ChunkHash}
    (hleaf : (signedTree blake3 content).leaves[i]? = some leaf) :
    leaf.length.val = (chunk (calculateAdaptiveChunkSize content.length) content i).length := by
  have hc := (Nat.succ_pos _).trans_le (le_calculateAdaptiveChunkSize content.length)
  have hfits := (calculateAdaptiveChunkSize_lt_iff content.length).mpr h
  rw [signedTree, getElem?_leaves_fromFile hc] at hleaf
  split_ifs at hleaf with hi
  obtain rfl := Option.some.inj hleaf
  refine Nat.mod_eq_of_lt ?_
  rw [length_chunk]
  omega

/-- In a larger file the first chunk is full, and the bits of its length are zero. -/
theorem length_head_signedTree (h : maxSignedSize < content.length) :
    ∃ leaf, (signedTree blake3 content).leaves[0]? = some leaf ∧ leaf.length.val = 0 ∧
      (chunk (calculateAdaptiveChunkSize content.length) content 0).length ≠ 0 := by
  have hc := (Nat.succ_pos _).trans_le (le_calculateAdaptiveChunkSize content.length)
  have hlarge : 2 ^ 20 < content.length := by
    refine lt_trans ?_ h
    show 2 ^ 20 < 1800 * 2 ^ 31
    omega
  have hfull : (chunk (calculateAdaptiveChunkSize content.length) content 0).length =
      calculateAdaptiveChunkSize content.length := by
    have := mul_calculateAdaptiveChunkSize_le hlarge
    rw [length_chunk]
    omega
  refine ⟨_, by rw [signedTree, getElem?_leaves_fromFile hc, if_pos (by omega)], ?_, by omega⟩
  rw [hfull]
  exact Nat.mod_eq_zero_of_dvd (dvd_calculateAdaptiveChunkSize h)

/-- Up to 1800 chunks of two gigabytes. -/
theorem lossless_iff : Lossless blake3 content ↔ content.length ≤ 1800 * 2 ^ 31 := by
  constructor
  · intro hlossless
    by_contra hlarge
    obtain ⟨leaf, hleaf, hzero, hchunk⟩ :=
      length_head_signedTree blake3 (Nat.lt_of_not_le hlarge : maxSignedSize < content.length)
    exact hchunk ((hlossless.lengths 0 leaf hleaf).symm.trans hzero)
  · intro h
    exact {
      representable := calculateAdaptiveChunkSize_lt (by omega)
      leaves := by
        rw [length_leaves_signedTree]
        exact count_calculateAdaptiveChunkSize_le content.length
      fits := fits_signedTree blake3 content
      lengths := fun _ _ => length_of_signedTree blake3 h
      recovered := fromSignature_signedTree blake3 h }

/-- One byte more is lost. -/
theorem zeros_not_lossless :
    (zeros (1800 * 2 ^ 31 + 1)).length < 2 ^ 64 ∧
      ¬ Lossless lengthHash (zeros (1800 * 2 ^ 31 + 1)) := by
  have hlen := length_zeros (1800 * 2 ^ 31 + 1)
  have hmax : maxSignedSize = 1800 * 2 ^ 31 := rfl
  refine ⟨by omega, fun h => ?_⟩
  have hlarge : maxSignedSize < (zeros (1800 * 2 ^ 31 + 1)).length := by omega
  obtain ⟨leaf, hleaf, hzero, hchunk⟩ := length_head_signedTree lengthHash hlarge
  exact hchunk ((h.lengths 0 leaf hleaf).symm.trans hzero)

end Signed

end Foxing
