import Foxing.DeltaCopy

/-!
# Comparing trees and comparing roots

What a comparison of two trees leaf by leaf tells about the files: the ranges that
differ lie apart from each other, and copying them and setting the length gives the
source. A comparison of the roots alone tells less, since the root of one file may be
the hash of another.
-/
namespace Foxing

open MerkleTree Chunks

/-! ## The ranges of a comparison -/

/-- The range ends before the other begins, with something between them. -/
def DirtyRange.Before (r r' : DirtyRange) : Prop := r.offset + r.length < r'.offset

instance : DecidableRel DirtyRange.Before := fun _ _ => inferInstanceAs (Decidable (_ < _))

namespace MerkleTree

/-- A range of a file of `n` bytes. -/
def Inside (n : ℕ) (r : DirtyRange) : Prop := 0 < r.length ∧ r.offset + r.length ≤ n

/-- After `i` leaves: the closed ranges end before the last of them, and the open one
where it does. -/
structure Spaced (c n i : ℕ) (st : List DirtyRange × Option DirtyRange) : Prop where
  closed : st.1.Pairwise DirtyRange.Before
  inside : ∀ r ∈ st.1, Inside n r ∧ r.offset + r.length < i * c
  opened : ∀ r, st.2 = some r →
    Inside n r ∧ r.offset + r.length ≤ i * c ∧ ∀ r' ∈ st.1, r'.Before r

theorem Spaced.ranges {c n i : ℕ} {st : List DirtyRange × Option DirtyRange}
    (h : Spaced c n i st) :
    (ranges st).Pairwise DirtyRange.Before ∧ ∀ r ∈ MerkleTree.ranges st, Inside n r := by
  obtain ⟨closed, current⟩ := st
  cases current with
  | none =>
    simp only [MerkleTree.ranges, Option.toList_none, List.append_nil]
    exact ⟨h.closed, fun r hr => (h.inside r hr).1⟩
  | some r =>
    obtain ⟨hin, -, hbefore⟩ := h.opened r rfl
    simp only [MerkleTree.ranges, Option.toList_some]
    refine ⟨?_, fun r' hr' => ?_⟩
    · rw [List.pairwise_append]
      refine ⟨h.closed, List.pairwise_singleton _ _, fun r' hr' x hx => ?_⟩
      rw [List.mem_singleton.mp hx]
      exact hbefore r' hr'
    · rcases List.mem_append.mp hr' with hr' | hr'
      · exact (h.inside r' hr').1
      · rw [List.mem_singleton.mp hr']
        exact hin

theorem spaced_step {source target : MerkleTree} {c n i : ℕ} (hc : 0 < c)
    {st : List DirtyRange × Option DirtyRange}
    (hleaf : ∀ s, dirtyLeaf source target i = some s →
      i * c < n ∧ s.offset = i * c ∧ s.length.val = min c (n - i * c))
    (h : Spaced c n i st) : Spaced c n (i + 1) (diffStep source target st i) := by
  have hnext : (i + 1) * c = i * c + c := Nat.succ_mul i c
  have hkept : ∀ r ∈ st.1, Inside n r ∧ r.offset + r.length < (i + 1) * c := by
    intro r hr
    obtain ⟨hin, hlt⟩ := h.inside r hr
    exact ⟨hin, by omega⟩
  obtain ⟨closed, current⟩ := st
  cases hdirty : dirtyLeaf source target i with
  | none =>
    cases current with
    | none =>
      simp only [diffStep, hdirty]
      exact ⟨h.closed, hkept, by simp⟩
    | some r =>
      -- The range that is closed ends a chunk before the next one can begin.
      obtain ⟨hpairwise, hall⟩ := h.ranges
      obtain ⟨hin, hend, -⟩ := h.opened r rfl
      simp only [diffStep, hdirty]
      refine ⟨hpairwise, fun r' hr' => ?_, by simp⟩
      rcases List.mem_append.mp hr' with hr' | hr'
      · exact hkept r' hr'
      · rw [List.mem_singleton.mp hr']
        exact ⟨hin, by omega⟩
  | some s =>
    obtain ⟨hi, hoffset, hlength⟩ := hleaf s hdirty
    cases current with
    | none =>
      simp only [diffStep, hdirty]
      refine ⟨h.closed, hkept, ?_⟩
      rintro r ⟨⟩
      refine ⟨⟨?_, ?_⟩, ?_, fun r' hr' => ?_⟩
      · dsimp only
        omega
      · dsimp only
        omega
      · dsimp only
        omega
      · show r'.offset + r'.length < s.offset
        have := (h.inside r' hr').2
        omega
    | some r =>
      obtain ⟨hin, hend, hbefore⟩ := h.opened r rfl
      simp only [diffStep, hdirty]
      refine ⟨h.closed, hkept, ?_⟩
      rintro r' ⟨⟩
      have hpos := hin.1
      refine ⟨⟨?_, ?_⟩, ?_, hbefore⟩
      · dsimp only
        omega
      · dsimp only
        omega
      · dsimp only
        omega

theorem spaced_diff {source target : MerkleTree} {c n : ℕ} (hc : 0 < c)
    (hleaf : ∀ i s, dirtyLeaf source target i = some s →
      i * c < n ∧ s.offset = i * c ∧ s.length.val = min c (n - i * c)) :
    (diff source target).Pairwise DirtyRange.Before ∧ ∀ r ∈ diff source target, Inside n r := by
  have hspaced : ∀ i, Spaced c n i
      ((List.range i).foldl (diffStep source target) ([], none)) := by
    intro i
    induction i with
    | zero => exact ⟨List.Pairwise.nil, nofun, nofun⟩
    | succ i ih =>
      rw [List.range_succ, List.foldl_append, List.foldl_cons, List.foldl_nil]
      exact spaced_step hc (hleaf i) ih
  exact (hspaced _).ranges

end MerkleTree

/-! ## Reconstruction -/

section Reconstruction
variable {blake3 : Bytes → Bytes} {c : ℕ} {source target : Bytes}

/-- The content cut to a length, or filled with zeros up to it. -/
def setLen (n : ℕ) (b : Bytes) : Bytes := b.take n ++ List.replicate (n - b.length) 0

theorem setLen_eq {b : Bytes} (hlen : source.length ≤ b.length)
    (h : ∀ p, p < source.length → b[p]? = source[p]?) : setLen source.length b = source := by
  rw [setLen, Nat.sub_eq_zero_of_le hlen, List.replicate_zero, List.append_nil]
  apply List.ext_getElem?
  intro p
  by_cases hp : p < source.length
  · rw [List.getElem?_take_of_lt hp, h p hp]
  · rw [List.getElem?_eq_none (by simp; omega), List.getElem?_eq_none (by omega)]

/-- What is hashed for the leaves of two files. -/
def hashedChunks (c : ℕ) (source target : Bytes) : Set Bytes :=
  {x | x ∈ chunks c source ∨ x ∈ chunks c target}

/-- A leaf of the source that is not dirty is the chunk of the target. -/
theorem chunk_eq_of_clean (hc : 0 < c)
    (hinj : Set.InjOn blake3 (hashedChunks c source target)) {i : ℕ} (hi : i * c < source.length)
    (h : ¬ Dirty (fromFile blake3 source c) (fromFile blake3 target c) i) :
    chunk c source i = chunk c target i := by
  have hmem : ∀ {b : Bytes}, i * c < b.length → chunk c b i ∈ chunks c b := by
    intro b hb
    exact List.mem_of_getElem? (i := i) (by rw [getElem?_chunks hc, if_pos hb])
  simp only [Dirty, dirtyLeaf, getElem?_leaves_fromFile hc, if_pos hi] at h
  by_cases ht : i * c < target.length
  · rw [if_pos ht] at h
    by_cases hhash : blake3 (chunk c source i) = blake3 (chunk c target i)
    · exact hinj (.inl (hmem hi)) (.inr (hmem ht)) hhash
    · simp [hhash] at h
  · simp [ht] at h

theorem diff_self (tree : MerkleTree) : diff tree tree = [] := by
  have hclean : ∀ i ∈ List.range (max tree.leaves.length tree.leaves.length),
      dirtyLeaf tree tree i = none := by
    intro i _
    cases hleaf : tree.leaves[i]? with
    | none => simp [dirtyLeaf, hleaf]
    | some s => simp [dirtyLeaf, hleaf]
  exact ranges_foldl_clean hclean ([], none)

/-- The ranges that differ lie within the source, one after the other and apart; copying
them and setting the length gives the source; and there are none for files of one length
exactly if the files are equal. -/
theorem diff_reconstructs (hc : 0 < c) (hfits : c < 2 ^ 32) (source target : Bytes)
    (hinj : Set.InjOn blake3 (hashedChunks c source target)) :
    let rs := diff (fromFile blake3 source c) (fromFile blake3 target c)
    setLen source.length (copyDelta source rs target) = source ∧
      (∀ r ∈ rs, 0 < r.length ∧ r.offset + r.length ≤ source.length) ∧
      rs.Pairwise (fun r r' => r.offset + r.length < r'.offset) ∧
      (rs = [] ∧ source.length = target.length ↔ source = target) := by
  intro rs
  have hcopied : ∀ p, p < source.length → (copyDelta source rs target)[p]? = source[p]? :=
    fun p hp => getElem?_copyDelta_diff hc hfits (fun i => chunk_eq_of_clean hc hinj) hp
  have hlen : source.length ≤ (copyDelta source rs target).length := by
    by_contra hlt
    have hnone := hcopied (copyDelta source rs target).length (by omega)
    rw [List.getElem?_eq_none le_rfl, eq_comm, List.getElem?_eq_none_iff] at hnone
    omega
  have hsource : setLen source.length (copyDelta source rs target) = source :=
    setLen_eq hlen hcopied
  obtain ⟨hbefore, hinside⟩ : rs.Pairwise DirtyRange.Before ∧
      ∀ r ∈ rs, MerkleTree.Inside source.length r :=
    spaced_diff hc fun i s => dirtyLeaf_bounds hc hfits
  refine ⟨hsource, hinside, hbefore, ?_, ?_⟩
  · rintro ⟨hempty, heq⟩
    have htarget : setLen source.length target = source := by
      rw [hempty] at hsource
      exact hsource
    rw [setLen, heq, Nat.sub_self, List.take_length, List.replicate_zero,
      List.append_nil] at htarget
    exact htarget.symm
  · rintro rfl
    exact ⟨diff_self _, rfl⟩

/-- A hash that tells short byte strings apart: the string itself and its length. -/
def paddedHash (b : Bytes) : Bytes :=
  b.take 31 ++ List.replicate (31 - b.length) 0 ++ [Fin.ofNat 256 b.length]

theorem paddedHash_injOn {A : Set Bytes} (hA : ∀ x ∈ A, x.length ≤ 31) :
    Set.InjOn paddedHash A := by
  intro x hx y hy h
  have hx' := hA x hx
  have hy' := hA y hy
  rw [paddedHash, paddedHash, List.take_of_length_le hx', List.take_of_length_le hy'] at h
  obtain ⟨hpad, hlast⟩ := List.append_inj h (by simp; omega)
  have hlen : x.length = y.length := by
    have hval := congrArg Fin.val (List.cons.inj hlast).1
    simp only [Fin.val_ofNat] at hval
    omega
  exact (List.append_inj hpad hlen).1

/-- The first chunk and the short last one differ, and the target is longer. -/
theorem shrunkTail_reconstructed :
    diff (fromFile paddedHash [1, 2, 3, 4, 5] 2) (fromFile paddedHash [1, 9, 3, 4, 4, 6, 7] 2) =
        [⟨0, 2⟩, ⟨4, 1⟩] ∧
      setLen 5 (copyDelta [1, 2, 3, 4, 5]
        (diff (fromFile paddedHash [1, 2, 3, 4, 5] 2)
          (fromFile paddedHash [1, 9, 3, 4, 4, 6, 7] 2)) [1, 9, 3, 4, 4, 6, 7]) =
        [1, 2, 3, 4, 5] := by
  refine ⟨by decide +kernel, (diff_reconstructs (c := 2) (by decide) (by decide)
    [1, 2, 3, 4, 5] [1, 9, 3, 4, 4, 6, 7] (paddedHash_injOn fun x hx => ?_)).1⟩
  have hshort : ∀ x ∈ chunks 2 ([1, 2, 3, 4, 5] : Bytes) ++ chunks 2 [1, 9, 3, 4, 4, 6, 7],
      x.length ≤ 31 := by decide +kernel
  exact hshort x (List.mem_append.mpr hx)

end Reconstruction

/-! ## Comparing roots -/

section Roots
variable {blake3 : Bytes → Bytes} {c : ℕ} {a b : Bytes}

/-- Whether the file has the root of the signature, in chunks of its size. -/
def verifyWithMerkle (blake3 : Bytes → Bytes) (content : Bytes) (storedSig : MerkleSignature) :
    Bool :=
  (fromFile blake3 content storedSig.chunkSize).root = storedSig.root

/-- The second file is a single chunk that consists of the hashes of the chunks of the
first one. -/
def IsLeafHashes (blake3 : Bytes → Bytes) (c : ℕ) (a b : Bytes) : Prop :=
  c < a.length ∧ b.length ≤ c ∧ b = leafHashes blake3 c a

instance : Decidable (IsLeafHashes blake3 c a b) := inferInstanceAs (Decidable (_ ∧ _ ∧ _))

theorem verifyWithMerkle_toSignature :
    verifyWithMerkle blake3 b (fromFile blake3 a c).toSignature = true ↔
      (fromFile blake3 b c).root = (fromFile blake3 a c).root :=
  decide_eq_true_iff

/-- Without bytes in a chunk there are no leaves. -/
theorem root_of_zero (b : Bytes) : (fromFile blake3 b 0).root = blake3 [] := by
  simp [fromFile, readLeaves, computeRoot]

/-- The root of a file of one chunk at most is its hash. -/
theorem root_of_length_le (hc : 0 < c) (h : a.length ≤ c) :
    (fromFile blake3 a c).root = blake3 a := by
  by_cases hempty : a = []
  · subst hempty
    rw [root_fromFile hc, chunks_nil hc]
    rfl
  · exact root_of_le hc hempty h

theorem two_le_count (hc : 0 < c) : 2 ≤ count c a.length ↔ c < a.length := by
  have := lt_count (n := a.length) (i := 1) hc
  omega

theorem mem_hashed_of_length_le (hc : 0 < c) (h : a.length ≤ c) : a ∈ hashed blake3 c a := by
  by_cases hempty : a = []
  · exact .inr (.inr hempty)
  · refine .inl ?_
    rw [chunks_cons hc hempty, List.take_of_length_le h]
    exact List.mem_cons_self ..

theorem root_eq_of_isLeafHashes (hc : 0 < c) (h : IsLeafHashes blake3 c a b) :
    (fromFile blake3 b c).root = (fromFile blake3 a c).root := by
  obtain ⟨hmany, hfew, heq⟩ := h
  rw [root_of_length_le hc hfew, root_of_two_le hc ((two_le_count hc).mpr hmany), heq]

/-- Files with one root, of which one has several chunks. -/
theorem eq_or_isLeafHashes (h32 : ∀ b, (blake3 b).length = 32) (hc : 0 < c)
    (hinj : Set.InjOn blake3 (hashed blake3 c a ∪ hashed blake3 c b)) (hmany : c < a.length)
    (hroot : (fromFile blake3 b c).root = (fromFile blake3 a c).root) :
    b = a ∨ IsLeafHashes blake3 c a b := by
  have hmany' : 2 ≤ count c a.length := (two_le_count hc).mpr hmany
  by_cases hb : b.length ≤ c
  · refine (eq_or_of_root_eq h32 hc hc hinj hmany' hroot.symm).imp_right ?_
    exact fun heq => ⟨hmany, hb, heq⟩
  · left
    exact eq_of_root_eq h32 hc hc hinj hmany' ((two_le_count hc).mpr (by omega)) hroot.symm

/-- A file with the root of another is that file, except where one of the two consists of
the hashes of the chunks of the other, or chunks are empty. -/
theorem verifyWithMerkle_sound_iff (h32 : ∀ b, (blake3 b).length = 32)
    (hinj : Set.InjOn blake3 (hashed blake3 c a ∪ hashed blake3 c b)) :
    (verifyWithMerkle blake3 b (fromFile blake3 a c).toSignature = true → b = a) ↔
      b = a ∨ (0 < c ∧ ¬ IsLeafHashes blake3 c a b ∧ ¬ IsLeafHashes blake3 c b a) := by
  rw [verifyWithMerkle_toSignature]
  constructor
  · intro h
    rw [or_iff_not_imp_left]
    intro hne
    have hc : 0 < c := by
      rw [Nat.pos_iff_ne_zero]
      rintro rfl
      exact hne (h ((root_of_zero b).trans (root_of_zero a).symm))
    refine ⟨hc, fun hleaf => ?_, fun hleaf => ?_⟩
    · exact hne (h (root_eq_of_isLeafHashes hc hleaf))
    · exact hne (h (root_eq_of_isLeafHashes hc hleaf).symm)
  · rintro (heq | ⟨hc, hab, hba⟩) hroot
    · exact heq
    by_cases ha : c < a.length
    · exact (eq_or_isLeafHashes h32 hc hinj ha hroot).resolve_right hab
    by_cases hb : c < b.length
    · rw [Set.union_comm] at hinj
      exact ((eq_or_isLeafHashes h32 hc hinj hb hroot.symm).resolve_right hba).symm
    · -- Both files are hashed as they are.
      have ha' := Nat.le_of_not_lt ha
      have hb' := Nat.le_of_not_lt hb
      rw [root_of_length_le hc ha', root_of_length_le hc hb'] at hroot
      exact hinj (.inr (mem_hashed_of_length_le hc hb'))
        (.inl (mem_hashed_of_length_le hc ha')) hroot

end Roots

/-- Two files of zeros. -/
theorem zeros_not_verified :
    ¬ IsLeafHashes lengthHash 65 (zeros 66) (zeros 3) ∧
      ¬ IsLeafHashes lengthHash 65 (zeros 3) (zeros 66) ∧
      ¬ verifyWithMerkle lengthHash (zeros 3) (fromFile lengthHash (zeros 66) 65).toSignature =
        true := by
  have hinj : Set.InjOn lengthHash
      (hashed lengthHash 65 (zeros 66) ∪ hashed lengthHash 65 (zeros 3)) := by
    refine lengthHash_injOn [zeros 65, zeros 1, leafHashes lengthHash 65 (zeros 66), zeros 3,
      leafHashes lengthHash 65 (zeros 3), []] ?_ (by decide +kernel) (by decide +kernel)
    rintro x (hx | hx)
    · have := hashed_zeros (by decide) hx
      simp only [List.mem_cons] at this ⊢
      tauto
    · have := hashed_zeros (by decide) hx
      simp only [List.mem_cons] at this ⊢
      tauto
  have hab : ¬ IsLeafHashes lengthHash 65 (zeros 66) (zeros 3) := by decide +kernel
  have hba : ¬ IsLeafHashes lengthHash 65 (zeros 3) (zeros 66) := by decide +kernel
  refine ⟨hab, hba, fun h => ?_⟩
  have heq := (verifyWithMerkle_sound_iff length_lengthHash hinj).mpr
    (.inr ⟨by decide, hab, hba⟩) h
  exact absurd (congrArg List.length heq) (by decide)

/-! ## The hashes of the chunks as a file -/

/-- What is hashed for 66 bytes in two chunks, and for the hashes of these chunks. -/
theorem injOn_leafHashes : Set.InjOn lengthHash
    (hashed lengthHash 65 (zeros 66) ∪ hashed lengthHash 65 (leafHashes lengthHash 65 (zeros 66))) := by
  refine lengthHash_injOn [zeros 65, zeros 1, leafHashes lengthHash 65 (zeros 66),
    leafHashes lengthHash 65 (leafHashes lengthHash 65 (zeros 66)), []] ?_ (by decide +kernel)
    (by decide +kernel)
  rintro x (hx | hx | rfl | rfl)
  · have := hashed_zeros (by decide) hx
    simp only [List.mem_cons] at this ⊢
    tauto
  · have hchunks : ∀ x ∈ chunks 65 (leafHashes lengthHash 65 (zeros 66)),
        x = leafHashes lengthHash 65 (zeros 66) := by decide +kernel
    simp [hchunks x hx]
  · simp
  · simp

/-- A file that is not the other has its root. -/
theorem leafHashes_verified :
    ¬ ∀ (blake3 : Bytes → Bytes) (c : ℕ) (a b : Bytes), (∀ b, (blake3 b).length = 32) →
      Set.InjOn blake3 (hashed blake3 c a ∪ hashed blake3 c b) →
      verifyWithMerkle blake3 b (fromFile blake3 a c).toSignature = true → b = a := by
  intro h
  have heq := h lengthHash 65 (zeros 66) (leafHashes lengthHash 65 (zeros 66)) length_lengthHash
    injOn_leafHashes (by decide +kernel)
  have hlen := congrArg List.length heq
  rw [length_leafHashes length_lengthHash, length_zeros] at hlen
  revert hlen
  decide

end Foxing
