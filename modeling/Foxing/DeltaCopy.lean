import Foxing.Merkle

/-!
# Delta copies

A hydration job for a large file whose target has a Merkle signature compares the
trees and copies the ranges that differ, if they are less than half of the file.
The hashes of the comparison are taken to be those of different byte strings only.
-/
namespace Foxing

open MerkleTree Chunks

def merkleDeltaThreshold : ℕ := 1024 * 1024

/-- Copies each range to its place in the target. -/
def copyDelta (source : Bytes) (dirtyRanges : List DirtyRange) (target : Bytes) : Bytes :=
  dirtyRanges.foldl
    (fun t r => write r.offset ((source.drop r.offset).take r.length) t) target

/-- The Merkle branch of a hydration job: the content of the target afterwards with the
signature that is stored, if any; or nothing, and the job goes on to copy the whole file.
The last argument tells whether the copy of the ranges succeeds. -/
def merkleBranch (blake3 : Bytes → Bytes) (source target : Bytes) (stored : Option MerkleSignature)
    (copies : Bool) : Option (Bytes × Option MerkleSignature) :=
  if source.length > merkleDeltaThreshold then
    match stored with
    | none => none
    | some sig =>
      let srcTree := fromFile blake3 source (calculateAdaptiveChunkSize source.length)
      match fromSignature sig with
      | none => none
      | some tgtTree =>
        if srcTree.root = tgtTree.root then some (target, none)
        else
          let dirtyRanges := diff srcTree tgtTree
          if dirtyRanges ≠ [] ∧ total dirtyRanges < source.length / 2 then
            if copies then some (copyDelta source dirtyRanges target, some srcTree.toSignature)
            else none
          else none
  else none

/-! ## Copying ranges -/

section Ranges
variable {source target : Bytes}

theorem le_length_copyDelta (rs : List DirtyRange) (target : Bytes) :
    target.length ≤ (copyDelta source rs target).length := by
  induction rs generalizing target with
  | nil => exact le_rfl
  | cons r rs ih => exact (le_length_write _ _ _).trans (ih _)

/-- What is not copied stays. -/
theorem getElem?_copyDelta_of_not {rs : List DirtyRange} {p : ℕ} (hp : ¬ Covers rs p)
    (hin : p < target.length ∨ source.length ≤ p) :
    (copyDelta source rs target)[p]? = target[p]? := by
  induction rs generalizing target with
  | nil => rfl
  | cons r rs ih =>
    have hr : ¬ (r.offset ≤ p ∧ p < r.offset + r.length) := fun h =>
      hp ⟨r, List.mem_cons_self .., h⟩
    have hrest : ¬ Covers rs p := fun ⟨x, hx, h⟩ => hp ⟨x, List.mem_cons_of_mem _ hx, h⟩
    have hkept : (write r.offset ((source.drop r.offset).take r.length) target)[p]? =
        target[p]? := by
      by_cases hempty : (source.drop r.offset).take r.length = []
      · rw [write, if_pos hempty]
      · have hlen := List.length_pos_iff.mpr hempty
        rw [List.length_take, List.length_drop] at hlen
        refine getElem?_write_of_not ?_ ?_
        · rw [List.length_take, List.length_drop]
          omega
        · rw [List.length_take, List.length_drop]
          omega
    rw [copyDelta, List.foldl_cons, ← copyDelta, ih hrest, hkept]
    exact hin.imp (fun h => h.trans_le (le_length_write _ _ _)) id

/-- What is copied is that of the source. -/
theorem getElem?_copyDelta {rs : List DirtyRange} {p : ℕ} (hp : Covers rs p)
    (hsource : p < source.length) : (copyDelta source rs target)[p]? = source[p]? := by
  induction rs generalizing target with
  | nil =>
    obtain ⟨r, hr, -⟩ := hp
    cases hr
  | cons r rs ih =>
    rw [copyDelta, List.foldl_cons, ← copyDelta]
    by_cases hrest : Covers rs p
    · exact ih hrest
    obtain ⟨hlo, hhi⟩ : r.offset ≤ p ∧ p < r.offset + r.length := by
      obtain ⟨x, hx, h⟩ := hp
      rcases List.mem_cons.mp hx with rfl | hx
      · exact h
      · exact absurd ⟨x, hx, h⟩ hrest
    have hlen : p < r.offset + ((source.drop r.offset).take r.length).length := by
      rw [List.length_take, List.length_drop]
      omega
    have hwritten := getElem?_write target hlo hlen
    have hin : p < (write r.offset ((source.drop r.offset).take r.length) target).length := by
      refine lt_of_lt_of_le hlen ?_
      rw [length_write]
      · exact le_max_right _ _
      · intro hempty
        rw [hempty] at hlen
        simp at hlen
        omega
    rw [getElem?_copyDelta_of_not hrest (.inl hin), hwritten,
      List.getElem?_take_of_lt (by omega), List.getElem?_drop]
    congr 1
    omega

end Ranges

/-! ## Equal roots -/

section Roots
variable {blake3 : Bytes → Bytes} {c c' : ℕ} {source target : Bytes}

/-- The hashes of the chunks of a file, put together. -/
def leafHashes (blake3 : Bytes → Bytes) (c : ℕ) (b : Bytes) : Bytes :=
  ((chunks c b).map blake3).flatten

/-- What is hashed for the tree of a file. -/
def hashed (blake3 : Bytes → Bytes) (c : ℕ) (b : Bytes) : Set Bytes :=
  {x | x ∈ chunks c b ∨ x = leafHashes blake3 c b ∨ x = []}

theorem length_leafHashes (h32 : ∀ b, (blake3 b).length = 32) (c : ℕ) (b : Bytes) :
    (leafHashes blake3 c b).length = 32 * count c b.length := by
  have hsum : ∀ L : List Bytes, (L.map blake3).flatten.length = 32 * L.length := by
    intro L
    induction L with
    | nil => rfl
    | cons x L ih =>
      rw [List.map_cons, List.flatten_cons, List.length_append, h32, ih, List.length_cons]
      omega
  rw [leafHashes, hsum, length_chunks]

theorem computeRoot_of_two_le {hashes : List Bytes} (h : 2 ≤ hashes.length) :
    computeRoot blake3 hashes = blake3 hashes.flatten := by
  match hashes, h with
  | _ :: _ :: _, _ => rfl

theorem root_of_two_le (hc : 0 < c) (h : 2 ≤ count c source.length) :
    (fromFile blake3 source c).root = blake3 (leafHashes blake3 c source) := by
  rw [root_fromFile hc, computeRoot_of_two_le (by simpa [length_chunks] using h), leafHashes]

/-- A file that is a single chunk has its own hash as the root. -/
theorem root_of_le (hc : 0 < c) (hne : target ≠ []) (hle : target.length ≤ c) :
    (fromFile blake3 target c).root = blake3 target := by
  rw [root_fromFile hc, chunks_cons hc hne, List.drop_eq_nil_of_le hle, chunks_nil hc,
    List.take_of_length_le hle]
  rfl

/-- Equal roots of files with several chunks mean equal files. -/
theorem eq_of_root_eq (h32 : ∀ b, (blake3 b).length = 32) (hc : 0 < c) (hc' : 0 < c')
    (hinj : Set.InjOn blake3 (hashed blake3 c source ∪ hashed blake3 c' target))
    (hmany : 2 ≤ count c source.length) (hmany' : 2 ≤ count c' target.length)
    (hroot : (fromFile blake3 source c).root = (fromFile blake3 target c').root) :
    target = source := by
  rw [root_of_two_le hc hmany, root_of_two_le hc' hmany'] at hroot
  have hflat := hinj (.inl (.inr (.inl rfl))) (.inr (.inr (.inl rfl))) hroot
  have hlen : ∀ L : List Bytes, ∀ x ∈ L.map blake3, x.length = 32 := by
    intro L x hx
    obtain ⟨y, -, rfl⟩ := List.mem_map.mp hx
    exact h32 y
  have hchunks : chunks c source = chunks c' target :=
    eq_of_map_eq hinj (fun x hx => .inl (.inl hx)) (fun x hx => .inr (.inl hx))
      (eq_of_flatten_eq (by decide) (hlen _) (hlen _) hflat)
  rw [← flatten_chunks hc source, hchunks, flatten_chunks hc' target]

/-- Equal roots mean equal files, unless one file consists of the hashes of the other. -/
theorem eq_or_of_root_eq (h32 : ∀ b, (blake3 b).length = 32) (hc : 0 < c) (hc' : 0 < c')
    (hinj : Set.InjOn blake3 (hashed blake3 c source ∪ hashed blake3 c' target))
    (hmany : 2 ≤ count c source.length)
    (hroot : (fromFile blake3 source c).root = (fromFile blake3 target c').root) :
    target = source ∨ target = leafHashes blake3 c source := by
  rcases Nat.lt_or_ge (count c' target.length) 2 with hfew | hmany'
  · rw [root_of_two_le hc hmany] at hroot
    have hsource : leafHashes blake3 c source ∈ hashed blake3 c source ∪ hashed blake3 c' target :=
      .inl (.inr (.inl rfl))
    by_cases hempty : target = []
    · subst hempty
      right
      refine (hinj hsource (.inr (.inr (.inr rfl))) (hroot.trans ?_)).symm
      rw [root_fromFile hc', chunks_nil hc']
      rfl
    · have hle : target.length ≤ c' := by
        by_contra hlt
        have := (lt_count (n := target.length) (i := 1) hc').mpr (by omega)
        omega
      right
      rw [root_of_le hc' hempty hle] at hroot
      refine (hinj hsource (.inr (.inl ?_)) hroot).symm
      rw [chunks_cons hc' hempty, List.take_of_length_le hle]
      exact List.mem_cons_self ..
  · exact .inl (eq_of_root_eq h32 hc hc' hinj hmany hmany' hroot)

end Roots

/-! ## Leaves that are the same -/

/-- Where two of the first numbers are missing, there are two that are missing. -/
theorem exists_two_not {q : ℕ → Prop} [DecidablePred q] {k : ℕ} (h : Nat.count q k + 2 ≤ k) :
    ∃ i j, i < j ∧ j < k ∧ ¬ q i ∧ ¬ q j := by
  have hone : ∀ k, Nat.count q k + 1 ≤ k → ∃ i < k, ¬ q i := by
    intro k hk
    by_contra hno
    push Not at hno
    have := Nat.count_iff_forall.mpr hno
    omega
  induction k with
  | zero => omega
  | succ k ih =>
    rw [Nat.count_succ] at h
    by_cases hq : q k
    · rw [if_pos hq] at h
      obtain ⟨i, j, hij, hj, hi, hj'⟩ := ih (by omega)
      exact ⟨i, j, hij, by omega, hi, hj'⟩
    · rw [if_neg hq] at h
      obtain ⟨i, hik, hi⟩ := hone k (by omega)
      exact ⟨i, k, hik, Nat.lt_succ_self k, hi, hq⟩

section Clean
variable {blake3 : Bytes → Bytes} {c c' : ℕ} {source target : Bytes}

/-- The tree that the signature of a file gives back. -/
def storedTree (blake3 : Bytes → Bytes) (target : Bytes) (c' : ℕ) : MerkleTree :=
  let sig := (fromFile blake3 target c').toSignature
  ⟨sig.chunkSize, sig.fileSize, sig.root, signatureLeaves sig 0 0 sig.leafHashes⟩

/-- A file has no more leaves than a signature may have. -/
theorem fromSignature_toSignature (hc' : 0 < c') :
    fromSignature (fromFile blake3 target c').toSignature = some (storedTree blake3 target c') := by
  have hlen : (fromFile blake3 target c').toSignature.leafHashes.length =
      count c' target.length := by
    rw [toSignature, List.length_map, length_leaves_fromFile hc']
  have hcount : count c' target.length ≤ target.length / c' + 1 := by
    unfold count
    calc (target.length + c' - 1) / c' ≤ (target.length + c') / c' :=
          Nat.div_le_div_right (by omega)
      _ = target.length / c' + 1 := Nat.add_div_right _ hc'
  rw [fromSignature, if_neg]
  · rfl
  · rw [hlen]
    show ¬ count c' target.length > target.length / c' + 2
    omega

theorem dirtyLeaf_fromFile (hc : 0 < c) {tree : MerkleTree} {i : ℕ} {s : ChunkHash}
    (h : dirtyLeaf (fromFile blake3 source c) tree i = some s) :
    i * c < source.length ∧
      s = ⟨i * c, Fin.ofNat _ (chunk c source i).length, blake3 (chunk c source i)⟩ := by
  unfold dirtyLeaf at h
  rw [getElem?_leaves_fromFile hc] at h
  split_ifs at h with hi
  refine ⟨hi, ?_⟩
  cases htree : tree.leaves[i]? with
  | none =>
    rw [htree] at h
    exact (Option.some.inj h).symm
  | some l =>
    rw [htree] at h
    dsimp only at h
    split_ifs at h
    exact (Option.some.inj h).symm

/-- A leaf of the source that is not dirty is a chunk of the target. -/
theorem chunk_eq_of_not_dirty (hc : 0 < c) (hc' : 0 < c')
    (hinj : Set.InjOn blake3 (hashed blake3 c source ∪ hashed blake3 c' target)) {i : ℕ}
    (hi : i * c < source.length)
    (h : ¬ Dirty (fromFile blake3 source c) (storedTree blake3 target c') i) :
    i < (storedTree blake3 target c').leaves.length ∧ i * c' < target.length ∧
      chunk c source i = chunk c' target i := by
  have hsource : (fromFile blake3 source c).leaves[i]? =
      some ⟨i * c, Fin.ofNat _ (chunk c source i).length, blake3 (chunk c source i)⟩ := by
    rw [getElem?_leaves_fromFile hc, if_pos hi]
  cases htree : (storedTree blake3 target c').leaves[i]? with
  | none =>
    refine absurd ?_ h
    simp [Dirty, dirtyLeaf, hsource, htree]
  | some l =>
    have hlen := (List.getElem?_eq_some_iff.mp htree).1
    have hhash : blake3 (chunk c source i) = l.hash := by
      by_contra hne
      refine h ?_
      simp [Dirty, dirtyLeaf, hsource, htree, hne]
    -- The hash is that of the chunk of the target at this place.
    have hstored : ((chunks c' target).map blake3)[i]? = some l.hash := by
      obtain ⟨rest, hrest⟩ := hashes_signatureLeaves_prefix
        (fromFile blake3 target c').toSignature 0 0 ((fromFile blake3 target c').leaves.map
          ChunkHash.hash)
      rw [← hashes_fromFile hc', ← hrest, List.getElem?_append_left (by rw [List.length_map]; exact hlen),
        List.getElem?_map]
      exact congrArg (Option.map ChunkHash.hash) htree
    rw [List.getElem?_map, getElem?_chunks hc'] at hstored
    split_ifs at hstored with hi'
    · refine ⟨hlen, hi', hinj (.inl (.inl ?_)) (.inr (.inl ?_)) ?_⟩
      · exact List.mem_of_getElem? (i := i) (by rw [getElem?_chunks hc, if_pos hi])
      · exact List.mem_of_getElem? (i := i) (by rw [getElem?_chunks hc', if_pos hi'])
      · rw [hhash]
        exact (Option.some.inj hstored).symm
    · cases hstored

/-- Ranges of less than half of a large file leave two chunks alone. -/
theorem exists_two_clean {tree : MerkleTree} (hc : 0 < c) (hmany : 16 * c ≤ source.length)
    (h : total (diff (fromFile blake3 source c) tree) < source.length / 2) :
    ∃ i j, i < j ∧ j * c < source.length ∧ ¬ Dirty (fromFile blake3 source c) tree i ∧
      ¬ Dirty (fromFile blake3 source c) tree j := by
  have htotal : c * Nat.count (Dirty (fromFile blake3 source c) tree) (count c source.length) ≤
      total (diff (fromFile blake3 source c) tree) + c * (count c source.length -
        Nat.count (Dirty (fromFile blake3 source c) tree) (count c source.length) + 1) :=
    total_diff (fun i s hs => by rw [(dirtyLeaf_fromFile hc hs).2])
      (length_leaves_fromFile hc source)
  have hle : source.length ≤ count c source.length * c := by
    by_contra hlt
    exact absurd ((lt_count hc).mpr (Nat.lt_of_not_le hlt)) (lt_irrefl _)
  have hcount : Nat.count (Dirty (fromFile blake3 source c) tree) (count c source.length) + 2 ≤
      count c source.length := by
    by_contra hfew
    have hmul : (count c source.length - 1) * c ≤
        c * Nat.count (Dirty (fromFile blake3 source c) tree) (count c source.length) := by
      rw [Nat.mul_comm c]
      exact Nat.mul_le_mul_right c (by omega)
    have hmul' : c * (count c source.length -
        Nat.count (Dirty (fromFile blake3 source c) tree) (count c source.length) + 1) ≤ c * 2 :=
      Nat.mul_le_mul_left c (by omega)
    rw [Nat.sub_mul] at hmul
    omega
  obtain ⟨i, j, hij, hj, hi, hj'⟩ := exists_two_not hcount
  exact ⟨i, j, hij, (lt_count hc).mp hj, hi, hj'⟩

/-- Files that share two chunks at the same places are in chunks of one size. -/
theorem size_eq_of_chunk_eq {i j : ℕ} (hij : i < j) (hj : j * c < source.length)
    (hj' : j * c' < target.length) (h : chunk c source i = chunk c' target i) : c = c' := by
  have hfull : ∀ {c : ℕ} {b : Bytes}, j * c < b.length → (chunk c b i).length = c := by
    intro c b hb
    have hle : (i + 1) * c ≤ j * c := Nat.mul_le_mul_right c hij
    rw [Nat.succ_mul] at hle
    rw [length_chunk]
    omega
  rw [← hfull hj, h, hfull hj']

/-- The length of a chunk below this size fits into its leaf. -/
theorem dirtyLeaf_bounds (hc : 0 < c) (hfits : c < 2 ^ 32) {tree : MerkleTree} {i : ℕ}
    {s : ChunkHash} (h : dirtyLeaf (fromFile blake3 source c) tree i = some s) :
    i * c < source.length ∧ s.offset = i * c ∧
      s.length.val = min c (source.length - i * c) := by
  obtain ⟨hi, rfl⟩ := dirtyLeaf_fromFile hc h
  refine ⟨hi, rfl, ?_⟩
  show (chunk c source i).length % 2 ^ 32 = _
  rw [length_chunk]
  exact Nat.mod_eq_of_lt (by omega)

/-- The ranges cover exactly the dirty chunks. -/
theorem covers_diff_fromFile (hc : 0 < c) (hfits : c < 2 ^ 32) (tree : MerkleTree) (p : ℕ) :
    Covers (diff (fromFile blake3 source c) tree) p ↔
      p < source.length ∧ Dirty (fromFile blake3 source c) tree (p / c) :=
  covers_diff hc (fun _ _ hs => dirtyLeaf_bounds hc hfits hs) (length_leaves_fromFile hc source) p

/-- If leaves that are not dirty are chunks of the target, a delta copy gives every byte of
the source. -/
theorem getElem?_copyDelta_diff (hc : 0 < c) (hfits : c < 2 ^ 32) {tree : MerkleTree}
    (hclean : ∀ i, i * c < source.length → ¬ Dirty (fromFile blake3 source c) tree i →
      chunk c source i = chunk c target i) {p : ℕ} (hp : p < source.length) :
    (copyDelta source (diff (fromFile blake3 source c) tree) target)[p]? = source[p]? := by
  have hcovers : Covers (diff (fromFile blake3 source c) tree) p ↔ _ :=
    covers_diff_fromFile hc hfits tree p
  by_cases hdirty : Dirty (fromFile blake3 source c) tree (p / c)
  · exact getElem?_copyDelta (hcovers.mpr ⟨hp, hdirty⟩) hp
  · have hi : p / c * c < source.length := (Nat.div_mul_le_self p c).trans_lt hp
    have hsame : target[p]? = source[p]? := by
      rw [← getElem?_chunk hc target, ← getElem?_chunk hc source, hclean _ hi hdirty]
    have hin : p < target.length := by
      have hsome := hsame
      rw [List.getElem?_eq_getElem hp] at hsome
      exact (List.getElem?_eq_some_iff.mp hsome).1
    rw [getElem?_copyDelta_of_not (fun hcov => hdirty (hcovers.mp hcov).2) (.inl hin), hsame]

/-- A delta copy between files in chunks of one size gives the source, unless the target
is longer. -/
theorem copyDelta_diff (hc : 0 < c) (hfits : c < 2 ^ 32)
    (hinj : Set.InjOn blake3 (hashed blake3 c source ∪ hashed blake3 c target))
    (hle : target.length ≤ source.length) :
    copyDelta source (diff (fromFile blake3 source c) (storedTree blake3 target c)) target =
      source := by
  apply List.ext_getElem?
  intro p
  by_cases hp : p < source.length
  · exact getElem?_copyDelta_diff hc hfits
      (fun i hi hdirty => (chunk_eq_of_not_dirty hc hc hinj hi hdirty).2.2) hp
  · have hout := Nat.le_of_not_lt hp
    have hnot : ¬ Covers (diff (fromFile blake3 source c) (storedTree blake3 target c)) p :=
      fun hcov => hp ((covers_diff_fromFile hc hfits _ p).mp hcov).1
    rw [getElem?_copyDelta_of_not hnot (.inr hout), List.getElem?_eq_none hout,
      List.getElem?_eq_none (hle.trans hout)]

end Clean

/-! ## The branch as a whole -/

section Branch
variable {blake3 : Bytes → Bytes} {source target : Bytes}

/-- The ways to return from the branch: the roots are equal, or ranges are copied. -/
theorem merkleBranch_cases {n : ℕ} {content : Bytes} {sig : Option MerkleSignature} {copies : Bool}
    (h : merkleBranch blake3 source target
      (some (fromFile blake3 target (calculateAdaptiveChunkSize n)).toSignature) copies =
        some (content, sig)) :
    2 ^ 20 < source.length ∧
    (((fromFile blake3 source (calculateAdaptiveChunkSize source.length)).root =
        (fromFile blake3 target (calculateAdaptiveChunkSize n)).root ∧ content = target ∧
        sig = none) ∨
      ((fromFile blake3 source (calculateAdaptiveChunkSize source.length)).root ≠
        (fromFile blake3 target (calculateAdaptiveChunkSize n)).root ∧
      total (diff (fromFile blake3 source (calculateAdaptiveChunkSize source.length))
        (storedTree blake3 target (calculateAdaptiveChunkSize n))) < source.length / 2 ∧
      content = copyDelta source
        (diff (fromFile blake3 source (calculateAdaptiveChunkSize source.length))
          (storedTree blake3 target (calculateAdaptiveChunkSize n))) target ∧
      sig = some (fromFile blake3 source
        (calculateAdaptiveChunkSize source.length)).toSignature)) := by
  have hc' : 0 < calculateAdaptiveChunkSize n :=
    lt_of_lt_of_le (by decide) (le_calculateAdaptiveChunkSize n)
  unfold merkleBranch at h
  by_cases hsize : source.length > merkleDeltaThreshold
  swap
  · rw [if_neg hsize] at h
    cases h
  rw [if_pos hsize] at h
  dsimp only at h
  rw [fromSignature_toSignature hc'] at h
  dsimp only at h
  refine ⟨hsize, ?_⟩
  split_ifs at h with hroot hdirty
  · obtain ⟨rfl, rfl⟩ := Prod.mk.inj (Option.some.inj h)
    exact .inl ⟨hroot, rfl, rfl⟩
  · obtain ⟨rfl, rfl⟩ := Prod.mk.inj (Option.some.inj h)
    exact .inr ⟨hroot, hdirty.2, rfl, rfl⟩

theorem count_calculateAdaptiveChunkSize_le (n : ℕ) :
    count (calculateAdaptiveChunkSize n) n ≤ 1800 := by
  have hc := le_calculateAdaptiveChunkSize n
  by_contra hlt
  have hmul := (lt_count (n := n) (by omega)).mp (Nat.lt_of_not_le hlt)
  have := le_mul_calculateAdaptiveChunkSize n
  omega

/-- The hashes of the chunks of a file are fewer bytes than any chunk has. -/
theorem length_leafHashes_le (h32 : ∀ b, (blake3 b).length = 32) (b : Bytes) :
    (leafHashes blake3 (calculateAdaptiveChunkSize b.length) b).length ≤ 57600 := by
  have := count_calculateAdaptiveChunkSize_le b.length
  rw [length_leafHashes h32]
  omega

/-- Ranges are copied only between files in chunks of one size, whose length fits. -/
theorem size_eq_of_total_lt {n : ℕ} (hsize : 2 ^ 20 < source.length)
    (hinj : Set.InjOn blake3
      (hashed blake3 (calculateAdaptiveChunkSize source.length) source ∪
        hashed blake3 (calculateAdaptiveChunkSize n) target))
    (htotal : total (diff (fromFile blake3 source (calculateAdaptiveChunkSize source.length))
      (storedTree blake3 target (calculateAdaptiveChunkSize n))) < source.length / 2) :
    calculateAdaptiveChunkSize source.length = calculateAdaptiveChunkSize n ∧
      calculateAdaptiveChunkSize n < 2 ^ 32 := by
  have hc := le_calculateAdaptiveChunkSize source.length
  have hc' := le_calculateAdaptiveChunkSize n
  obtain ⟨i, j, hij, hj, hclean, hclean'⟩ :=
    exists_two_clean (by omega) (mul_calculateAdaptiveChunkSize_le hsize) htotal
  have hi : i * calculateAdaptiveChunkSize source.length < source.length :=
    (Nat.mul_le_mul_right _ hij.le).trans_lt hj
  obtain ⟨-, -, hchunk⟩ := chunk_eq_of_not_dirty (by omega) (by omega) hinj hi hclean
  obtain ⟨hleaf, hj', -⟩ := chunk_eq_of_not_dirty (by omega) (by omega) hinj hj hclean'
  refine ⟨size_eq_of_chunk_eq hij hj hj' hchunk, ?_⟩
  obtain ⟨k, -, hk⟩ := calculateAdaptiveChunkSize_eq n
  by_contra hlarge
  rw [hk, Nat.pow_lt_pow_iff_right (le_refl 2), not_lt] at hlarge
  -- With chunks that large, the stored tree has no second leaf.
  have hone : (storedTree blake3 target (calculateAdaptiveChunkSize n)).leaves.length ≤ 1 := by
    refine length_signatureLeaves_of_dvd (c := calculateAdaptiveChunkSize n) ?_ rfl ?_ (by omega)
    · rw [hk]
      exact pow_dvd_pow 2 hlarge
    · rw [toSignature, List.length_map, length_leaves_fromFile (by omega)]
      rfl
  omega

/-- Ranges that are copied to a target that is not longer make it equal to the source, and
the stored signature is that of the source. -/
theorem merkleBranch_copied {n : ℕ} {content : Bytes} {sig : MerkleSignature} {copies : Bool}
    (hinj : Set.InjOn blake3
      (hashed blake3 (calculateAdaptiveChunkSize source.length) source ∪
        hashed blake3 (calculateAdaptiveChunkSize n) target))
    (h : merkleBranch blake3 source target
      (some (fromFile blake3 target (calculateAdaptiveChunkSize n)).toSignature) copies =
        some (content, some sig)) (hle : target.length ≤ source.length) :
    content = source ∧
      sig = (fromFile blake3 source (calculateAdaptiveChunkSize source.length)).toSignature := by
  obtain ⟨hsize, hreturn⟩ := merkleBranch_cases h
  rcases hreturn with ⟨-, -, hsig⟩ | ⟨hroot, htotal, hcontent, hsig⟩
  · cases hsig
  · refine ⟨?_, Option.some.inj hsig⟩
    have hc := le_calculateAdaptiveChunkSize source.length
    obtain ⟨hsame, hfits⟩ := size_eq_of_total_lt hsize hinj htotal
    rw [hcontent, ← hsame]
    rw [← hsame] at hinj hfits
    exact copyDelta_diff (by omega) hfits hinj hle

/-- When the Merkle branch returns, the target is the source exactly if the target was not
longer and did not consist of the hashes of the chunks of the source. -/
theorem merkleBranch_exact_iff (h32 : ∀ b, (blake3 b).length = 32) {n : ℕ} {content : Bytes}
    {sig : Option MerkleSignature} {copies : Bool}
    (hinj : Set.InjOn blake3
      (hashed blake3 (calculateAdaptiveChunkSize source.length) source ∪
        hashed blake3 (calculateAdaptiveChunkSize n) target))
    (h : merkleBranch blake3 source target
      (some (fromFile blake3 target (calculateAdaptiveChunkSize n)).toSignature) copies =
        some (content, sig)) :
    content = source ↔ target.length ≤ source.length ∧
      target ≠ leafHashes blake3 (calculateAdaptiveChunkSize source.length) source := by
  have hc := le_calculateAdaptiveChunkSize source.length
  have hc' := le_calculateAdaptiveChunkSize n
  have hshort := length_leafHashes_le h32 source
  obtain ⟨hsize, hreturn⟩ := merkleBranch_cases h
  have hmany : 2 ≤ count (calculateAdaptiveChunkSize source.length) source.length := by
    have := mul_calculateAdaptiveChunkSize_le hsize
    exact (lt_count (i := 1) (by omega)).mpr (by omega)
  have hne : source ≠ leafHashes blake3 (calculateAdaptiveChunkSize source.length) source := by
    intro heq
    rw [← heq] at hshort
    omega
  rcases hreturn with ⟨hroot, rfl, -⟩ | ⟨hroot, htotal, hcontent, hsig⟩
  · rcases eq_or_of_root_eq h32 (by omega) (by omega) hinj hmany hroot with rfl | hhashes
    · exact ⟨fun _ => ⟨le_rfl, hne⟩, fun _ => rfl⟩
    · refine ⟨fun heq => absurd (heq ▸ hhashes) hne, fun hcond => absurd hhashes hcond.2⟩
  · constructor
    · intro heq
      refine ⟨?_, fun hhashes => hroot ?_⟩
      · rw [← heq, hcontent]
        exact le_length_copyDelta _ target
      · -- Then the target is a single chunk, whose hash is the root of the source.
        have hpos : 0 < target.length := by
          rw [hhashes, length_leafHashes h32]
          omega
        rw [root_of_two_le (by omega) hmany, ← hhashes,
          root_of_le (by omega) (List.length_pos_iff.mp hpos) (by rw [hhashes]; omega)]
    · intro hcond
      rw [hsig] at h
      exact (merkleBranch_copied hinj h hcond.1).1

end Branch

/-! ## Files of zeros -/

def zeros (n : ℕ) : Bytes := List.replicate n 0

/-- A hash that tells byte strings of different lengths apart. -/
def lengthHash (b : Bytes) : Bytes := Bytes.ofNat 32 b.length

theorem length_lengthHash (b : Bytes) : (lengthHash b).length = 32 :=
  Bytes.length_ofNat 32 b.length

/-- The tree of a file of zeros under this hash. -/
def zeroTree (c n : ℕ) : MerkleTree :=
  let leaves : List ChunkHash := (List.range (count c n)).map fun i =>
    ⟨i * c, Fin.ofNat _ (min c (n - i * c)), Bytes.ofNat 32 (min c (n - i * c))⟩
  ⟨c, n, computeRoot lengthHash (leaves.map ChunkHash.hash), leaves⟩

theorem length_zeros (n : ℕ) : (zeros n).length = n := List.length_replicate

theorem fromFile_zeros {c : ℕ} (hc : 0 < c) (n : ℕ) :
    fromFile lengthHash (zeros n) c = zeroTree c n := by
  have hleaves : (fromFile lengthHash (zeros n) c).leaves = (zeroTree c n).leaves := by
    apply List.ext_getElem?
    intro i
    rw [getElem?_leaves_fromFile hc]
    simp only [zeroTree, List.getElem?_map]
    split_ifs with hi
    · rw [length_zeros] at hi
      rw [List.getElem?_range ((lt_count hc).mpr hi), Option.map_some]
      simp only [zeros, lengthHash, chunk_replicate, List.length_replicate]
    · rw [length_zeros] at hi
      rw [List.getElem?_eq_none (by simpa using fun h => hi ((lt_count hc).mp h)),
        Option.map_none]
  have hroot : (fromFile lengthHash (zeros n) c).root = (zeroTree c n).root := by
    show computeRoot lengthHash ((fromFile lengthHash (zeros n) c).leaves.map ChunkHash.hash) = _
    rw [hleaves]
    rfl
  calc fromFile lengthHash (zeros n) c
      = ⟨c, (zeros n).length, (fromFile lengthHash (zeros n) c).root,
          (fromFile lengthHash (zeros n) c).leaves⟩ := rfl
    _ = zeroTree c n := by
      rw [hleaves, hroot, length_zeros]
      rfl

/-- What is hashed for a file of zeros. -/
theorem hashed_zeros {c n : ℕ} (hc : 0 < c) {x : Bytes} (hx : x ∈ hashed lengthHash c (zeros n)) :
    x ∈ [zeros c, zeros (n % c), leafHashes lengthHash c (zeros n), []] := by
  rcases hx with hx | rfl | rfl
  · obtain ⟨i, hi, rfl⟩ := List.mem_map.mp hx
    have hi' : i * c < n := by
      rw [← length_zeros n]
      exact (lt_count hc).mp (List.mem_range.mp hi)
    have hchunk : chunk c (zeros n) i = zeros (min c (n - i * c)) := chunk_replicate ..
    rw [hchunk]
    rcases Nat.lt_or_ge (n - i * c) c with hlast | hfull
    · have hmod : n % c = n - i * c := by
        rw [show n = n - i * c + i * c by omega, Nat.add_mul_mod_self_right,
          Nat.mod_eq_of_lt hlast]
        omega
      rw [min_eq_right hlast.le, hmod]
      simp
    · rw [min_eq_left hfull]
      simp
  · simp
  · simp

/-- Byte strings from a list of such of different lengths have different hashes. -/
theorem lengthHash_injOn {A : Set Bytes} (L : List Bytes) (hA : ∀ x ∈ A, x ∈ L)
    (hnodup : (L.map List.length).Nodup) (hlt : ∀ x ∈ L, x.length < 256 ^ 32) :
    Set.InjOn lengthHash A := by
  intro x hx y hy h
  have hlen : x.length = y.length := by
    have := congrArg Bytes.toNat h
    simp only [lengthHash, Bytes.toNat_ofNat] at this
    rwa [Nat.mod_eq_of_lt (hlt x (hA x hx)), Nat.mod_eq_of_lt (hlt y (hA y hy))] at this
  exact List.inj_on_of_nodup_map hnodup (hA x hx) (hA y hy) hlen

/-- Two files of zeros of which the first has a chunk of one byte at its end. -/
theorem merkleBranch_zeros {m : ℕ}
    (hroot : (zeroTree 65536 (2 ^ 20 + 1)).root ≠ (zeroTree 65536 m).root)
    (hdiff : diff (zeroTree 65536 (2 ^ 20 + 1)) ⟨65536, m, (zeroTree 65536 m).root,
      signatureLeaves (zeroTree 65536 m).toSignature 0 0
        (zeroTree 65536 m).toSignature.leafHashes⟩ = [⟨2 ^ 20, 1⟩])
    (hsize : calculateAdaptiveChunkSize m = 65536) :
    merkleBranch lengthHash (zeros (2 ^ 20 + 1)) (zeros m)
      (some (fromFile lengthHash (zeros m) (calculateAdaptiveChunkSize m)).toSignature) true =
    some (copyDelta (zeros (2 ^ 20 + 1)) [⟨2 ^ 20, 1⟩] (zeros m),
      some (zeroTree 65536 (2 ^ 20 + 1)).toSignature) := by
  have hchunk : calculateAdaptiveChunkSize (2 ^ 20 + 1) = 65536 := by decide +kernel
  have hpos : 0 < 65536 := by decide
  have hstored : storedTree lengthHash (zeros m) 65536 = ⟨65536, m, (zeroTree 65536 m).root,
      signatureLeaves (zeroTree 65536 m).toSignature 0 0
        (zeroTree 65536 m).toSignature.leafHashes⟩ := by
    unfold storedTree
    rw [fromFile_zeros hpos]
    rfl
  unfold merkleBranch
  rw [if_pos (by rw [length_zeros]; decide), hsize]
  dsimp only
  rw [fromSignature_toSignature hpos, length_zeros, hchunk, fromFile_zeros hpos, hstored]
  dsimp only
  rw [if_neg hroot, hdiff, if_pos (by decide), if_pos rfl]

theorem injOn_zeros {m k : ℕ} (hm : m % 65536 = 0) (hk : count 65536 m = k) (hne : k ≠ 17)
    (hlt : 0 < k ∧ k < 100) (hsize : calculateAdaptiveChunkSize m = 65536) :
    Set.InjOn lengthHash
      (hashed lengthHash (calculateAdaptiveChunkSize (zeros (2 ^ 20 + 1)).length)
        (zeros (2 ^ 20 + 1)) ∪
      hashed lengthHash (calculateAdaptiveChunkSize m) (zeros m)) := by
  have hsource : calculateAdaptiveChunkSize (zeros (2 ^ 20 + 1)).length = 65536 := by
    rw [length_zeros]
    decide +kernel
  rw [hsource, hsize]
  have hpos : 0 < 65536 := by decide
  have hcount : count 65536 (2 ^ 20 + 1) = 17 := by decide
  refine lengthHash_injOn [zeros 65536, zeros 1, [], leafHashes lengthHash 65536 (zeros (2 ^ 20 + 1)),
    leafHashes lengthHash 65536 (zeros m)] ?_ ?_ ?_
  · rintro x (hx | hx)
    · have hcases := hashed_zeros hpos hx
      rw [show (2 ^ 20 + 1) % 65536 = 1 from rfl] at hcases
      simp only [List.mem_cons, List.not_mem_nil, or_false] at hcases ⊢
      rcases hcases with h | h | h | h
      · exact .inl h
      · exact .inr (.inl h)
      · exact .inr (.inr (.inr (.inl h)))
      · exact .inr (.inr (.inl h))
    · have hcases := hashed_zeros hpos hx
      rw [hm, show zeros 0 = [] from rfl] at hcases
      simp only [List.mem_cons, List.not_mem_nil, or_false] at hcases ⊢
      rcases hcases with h | h | h | h
      · exact .inl h
      · exact .inr (.inr (.inl h))
      · exact .inr (.inr (.inr (.inr h)))
      · exact .inr (.inr (.inl h))
  · simp only [List.map_cons, List.map_nil, length_zeros, List.length_nil, length_leafHashes
      length_lengthHash, hcount, hk]
    simp
    omega
  · intro x hx
    simp only [List.mem_cons, List.not_mem_nil, or_false] at hx
    have hbig : 65536 < 256 ^ 32 := by decide
    rcases hx with h | h | h | h | h
    · rw [h, length_zeros]
      exact hbig
    · rw [h, length_zeros]
      omega
    · rw [h, List.length_nil]
      omega
    · rw [h, length_leafHashes length_lengthHash, length_zeros, hcount]
      omega
    · rw [h, length_leafHashes length_lengthHash, length_zeros, hk]
      omega

/-- A file that has grown by a byte. -/
theorem grown_exact :
    ∃ content sig, merkleBranch lengthHash (zeros (2 ^ 20 + 1)) (zeros (2 ^ 20))
      (some (fromFile lengthHash (zeros (2 ^ 20))
        (calculateAdaptiveChunkSize (2 ^ 20))).toSignature) true = some (content, sig) ∧
      content = zeros (2 ^ 20 + 1) := by
  have hbranch := merkleBranch_zeros (m := 2 ^ 20) (by decide +kernel) (by decide +kernel)
    (by decide +kernel)
  have hinj := injOn_zeros (m := 2 ^ 20) (k := 16) (by decide) (by decide) (by decide) (by decide)
    (by decide +kernel)
  refine ⟨_, _, hbranch, (merkleBranch_exact_iff length_lengthHash hinj hbranch).mpr ⟨?_, ?_⟩⟩
  · rw [length_zeros, length_zeros]
    omega
  · intro heq
    have hshort := length_leafHashes_le length_lengthHash (zeros (2 ^ 20 + 1))
    rw [← heq, length_zeros] at hshort
    omega

/-- A file that is now half as long, and a byte: the target keeps its length. -/
theorem shrunk_longer :
    ¬ ∀ (blake3 : Bytes → Bytes) (source target : Bytes) (n : ℕ) (content : Bytes)
      (sig : Option MerkleSignature), (∀ b, (blake3 b).length = 32) →
      Set.InjOn blake3
        (hashed blake3 (calculateAdaptiveChunkSize source.length) source ∪
          hashed blake3 (calculateAdaptiveChunkSize n) target) →
      merkleBranch blake3 source target
        (some (fromFile blake3 target (calculateAdaptiveChunkSize n)).toSignature) true =
          some (content, sig) →
      content = source := by
  intro h
  have hbranch := merkleBranch_zeros (m := 2 ^ 21) (by decide +kernel) (by decide +kernel)
    (by decide +kernel)
  have hinj := injOn_zeros (m := 2 ^ 21) (k := 32) (by decide) (by decide) (by decide) (by decide)
    (by decide +kernel)
  have hsource := h _ _ _ _ _ _ length_lengthHash hinj hbranch
  have hle : (zeros (2 ^ 21)).length ≤
      (copyDelta (zeros (2 ^ 20 + 1)) [⟨2 ^ 20, 1⟩] (zeros (2 ^ 21))).length :=
    le_length_copyDelta _ _
  rw [hsource, length_zeros, length_zeros] at hle
  omega

end Foxing
