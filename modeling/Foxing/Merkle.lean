import Foxing.Event
import Foxing.Lib.Bytes
import Foxing.Lib.Chunks
import Mathlib.Data.Nat.Count
import Mathlib.Data.Nat.Log

/-!
# Merkle trees of files

A file is hashed in chunks of a fixed size, and the root is the hash of the hashes
of the chunks, or that of the only chunk. The size of the chunks depends on that
of the file. Two trees are compared leaf by leaf; a signature keeps the hashes,
from which a tree can be made again. Hashes are those of a parameter.
-/
namespace Foxing

def minChunkSize : ℕ := 65536

def maxLeavesPerXattr : ℕ := 1800

/-- The chunk size for a file of the given size: a power of two. -/
def calculateAdaptiveChunkSize (fileSize : ℕ) : ℕ :=
  if fileSize = 0 then minChunkSize
  else
    let desired := (fileSize + maxLeavesPerXattr - 1) / maxLeavesPerXattr
    2 ^ Nat.clog 2 (max minChunkSize desired)

structure ChunkHash where
  offset : ℕ
  length : U32
  hash : Bytes
  deriving DecidableEq, Repr

structure MerkleTree where
  chunkSize : ℕ
  fileSize : ℕ
  root : Bytes
  leaves : List ChunkHash
  deriving DecidableEq, Repr

structure DirtyRange where
  offset : ℕ
  length : ℕ
  deriving DecidableEq, Repr

structure MerkleSignature where
  root : Bytes
  chunkSize : ℕ
  fileSize : ℕ
  leafHashes : List Bytes
  deriving DecidableEq, Repr

namespace MerkleTree
variable (blake3 : Bytes → Bytes)

/-- Reads chunk after chunk until there is nothing more to read. -/
def readLeaves (chunkSize : ℕ) : ℕ → ℕ → Bytes → List ChunkHash
  | 0, _, _ => []
  | fuel + 1, offset, rest =>
    let buf := rest.take chunkSize
    if buf = [] then []
    else
      ⟨offset, Fin.ofNat _ buf.length, blake3 buf⟩ ::
        readLeaves chunkSize fuel (offset + buf.length) (rest.drop chunkSize)

/-- The root over the hashes of the leaves; a single one is the root itself. -/
def computeRoot : List Bytes → Bytes
  | [] => blake3 []
  | [hash] => hash
  | hashes => blake3 hashes.flatten

def fromFile (content : Bytes) (chunkSize : ℕ) : MerkleTree :=
  let leaves := readLeaves blake3 chunkSize (content.length + 1) 0 content
  ⟨chunkSize, content.length, computeRoot blake3 (leaves.map ChunkHash.hash), leaves⟩

/-- The leaf of the source at a position at which the target has another or none. -/
def dirtyLeaf (source target : MerkleTree) (i : ℕ) : Option ChunkHash :=
  match source.leaves[i]?, target.leaves[i]? with
  | some s, some t => if s.hash ≠ t.hash then some s else none
  | some s, none => some s
  | none, _ => none

/-- A dirty leaf extends the range that is open, or opens one; any other closes it. -/
def diffStep (source target : MerkleTree) (st : List DirtyRange × Option DirtyRange) (i : ℕ) :
    List DirtyRange × Option DirtyRange :=
  match dirtyLeaf source target i, st.2 with
  | some s, some range => (st.1, some { range with length := s.offset + s.length.val - range.offset })
  | some s, none => (st.1, some ⟨s.offset, s.length.val⟩)
  | none, some range => (st.1 ++ [range], none)
  | none, none => st

def diff (source target : MerkleTree) : List DirtyRange :=
  let maxLeaves := max source.leaves.length target.leaves.length
  let st := (List.range maxLeaves).foldl (diffStep source target) ([], none)
  st.1 ++ st.2.toList

def toSignature (tree : MerkleTree) : MerkleSignature :=
  ⟨tree.root, tree.chunkSize, tree.fileSize, tree.leaves.map ChunkHash.hash⟩

/-- The leaves of a signature from the `i`th one on. -/
def signatureLeaves (sig : MerkleSignature) : ℕ → ℕ → List Bytes → List ChunkHash
  | _, _, [] => []
  | i, offset, hash :: hashes =>
    let length : U32 := Fin.ofNat _ (min (sig.fileSize - offset) sig.chunkSize)
    if length = 0 ∧ i > 0 then []
    else ⟨offset, length, hash⟩ :: signatureLeaves sig (i + 1) (offset + length.val) hashes

def fromSignature (sig : MerkleSignature) : Option MerkleTree :=
  if sig.leafHashes.length > sig.fileSize / sig.chunkSize + 2 then none
  else some ⟨sig.chunkSize, sig.fileSize, sig.root, signatureLeaves sig 0 0 sig.leafHashes⟩

/-! ## Chunk sizes -/

theorem calculateAdaptiveChunkSize_eq (n : ℕ) : ∃ k, 16 ≤ k ∧ calculateAdaptiveChunkSize n = 2 ^ k := by
  unfold calculateAdaptiveChunkSize
  split_ifs
  · exact ⟨16, le_rfl, rfl⟩
  · refine ⟨_, ?_, rfl⟩
    rw [← Nat.pow_le_pow_iff_right (le_refl 2)]
    calc 2 ^ 16 = minChunkSize := rfl
      _ ≤ _ := le_max_left _ _
      _ ≤ _ := Nat.le_pow_clog (le_refl 2) _

theorem le_calculateAdaptiveChunkSize (n : ℕ) : 65536 ≤ calculateAdaptiveChunkSize n := by
  obtain ⟨k, hk, heq⟩ := calculateAdaptiveChunkSize_eq n
  rw [heq]
  show 2 ^ 16 ≤ 2 ^ k
  exact Nat.pow_le_pow_right (Nat.succ_pos 1) hk

/-- At most 1800 chunks. -/
theorem le_mul_calculateAdaptiveChunkSize (n : ℕ) : n ≤ 1800 * calculateAdaptiveChunkSize n := by
  unfold calculateAdaptiveChunkSize
  split_ifs with hn
  · omega
  · have hle := Nat.le_pow_clog (le_refl 2)
      (max minChunkSize ((n + maxLeavesPerXattr - 1) / maxLeavesPerXattr))
    have hdesired : (n + 1799) / 1800 ≤
        2 ^ Nat.clog 2 (max minChunkSize ((n + maxLeavesPerXattr - 1) / maxLeavesPerXattr)) :=
      (le_max_right _ _).trans hle
    dsimp only
    omega

/-- A file of more than a megabyte has at least sixteen chunks. -/
theorem mul_calculateAdaptiveChunkSize_le {n : ℕ} (hn : 2 ^ 20 < n) :
    16 * calculateAdaptiveChunkSize n ≤ n := by
  unfold calculateAdaptiveChunkSize
  rw [if_neg (by omega)]
  dsimp only
  by_cases hsmall : (n + maxLeavesPerXattr - 1) / maxLeavesPerXattr ≤ minChunkSize
  · rw [max_eq_left hsmall]
    have : 2 ^ Nat.clog 2 minChunkSize = 65536 := by decide
    omega
  · rw [max_eq_right (by omega)]
    have hlarge : 65536 < (n + 1799) / 1800 := Nat.lt_of_not_le hsmall
    have hlt := Nat.pow_pred_clog_lt_self (le_refl 2)
      (show 1 < (n + maxLeavesPerXattr - 1) / maxLeavesPerXattr from by
        show 1 < (n + 1799) / 1800
        omega)
    have hpos : 0 < Nat.clog 2 ((n + maxLeavesPerXattr - 1) / maxLeavesPerXattr) :=
      Nat.clog_pos (le_refl 2) (by show 1 < (n + 1799) / 1800; omega)
    obtain ⟨k, hk⟩ := Nat.exists_eq_succ_of_ne_zero hpos.ne'
    rw [hk] at hlt ⊢
    have hlt' : 2 ^ k < (n + 1799) / 1800 := hlt
    rw [Nat.succ_eq_add_one, pow_succ]
    omega

/-! ## The leaves of a file -/

section Leaves
variable {blake3} {c : ℕ}

theorem readLeaves_eq (hc : 0 < c) {fuel : ℕ} (offset : ℕ) {rest : Bytes}
    (hfuel : rest.length < fuel) :
    readLeaves blake3 c fuel offset rest =
      (Chunks.chunks c rest).mapIdx fun i buf =>
        ⟨offset + i * c, Fin.ofNat _ buf.length, blake3 buf⟩ := by
  induction fuel generalizing offset rest with
  | zero => omega
  | succ fuel ih =>
    by_cases hrest : rest = []
    · subst hrest
      rw [Chunks.chunks_nil hc]
      simp [readLeaves]
    have hbuf : rest.take c ≠ [] := by simp [hrest, hc.ne']
    have hpos := List.length_pos_iff.mpr hrest
    rw [readLeaves, Chunks.chunks_cons hc hrest, List.mapIdx_cons]
    rw [if_neg hbuf, ih _ (by simp; omega), Nat.zero_mul, Nat.add_zero]
    congr 1
    -- A chunk that is not full is the last one.
    rcases Nat.lt_or_ge rest.length c with hlast | hfull
    · rw [List.drop_eq_nil_of_le hlast.le, Chunks.chunks_nil hc, List.mapIdx_nil, List.mapIdx_nil]
    · rw [List.length_take, min_eq_left hfull]
      congr 1
      funext i buf
      rw [Nat.succ_mul, Nat.add_comm (i * c) c, Nat.add_assoc]

theorem leaves_fromFile (hc : 0 < c) (b : Bytes) :
    (fromFile blake3 b c).leaves =
      (Chunks.chunks c b).mapIdx fun i buf => ⟨i * c, Fin.ofNat _ buf.length, blake3 buf⟩ := by
  simp only [fromFile]
  rw [readLeaves_eq hc 0 (Nat.lt_succ_self _)]
  simp

theorem length_leaves_fromFile (hc : 0 < c) (b : Bytes) :
    (fromFile blake3 b c).leaves.length = Chunks.count c b.length := by
  rw [leaves_fromFile hc, List.length_mapIdx, Chunks.length_chunks]

theorem getElem?_leaves_fromFile (hc : 0 < c) (b : Bytes) (i : ℕ) :
    (fromFile blake3 b c).leaves[i]? =
      if i * c < b.length then
        some ⟨i * c, Fin.ofNat _ (Chunks.chunk c b i).length, blake3 (Chunks.chunk c b i)⟩
      else none := by
  rw [leaves_fromFile hc, List.getElem?_mapIdx, Chunks.getElem?_chunks hc]
  split_ifs <;> rfl

/-- The hashes of the leaves. -/
theorem hashes_fromFile (hc : 0 < c) (b : Bytes) :
    (fromFile blake3 b c).leaves.map ChunkHash.hash = (Chunks.chunks c b).map blake3 := by
  rw [leaves_fromFile hc]
  apply List.ext_getElem?
  intro i
  rw [List.getElem?_map, List.getElem?_mapIdx, List.getElem?_map, Option.map_map]
  rfl

theorem root_fromFile (hc : 0 < c) (b : Bytes) :
    (fromFile blake3 b c).root = computeRoot blake3 ((Chunks.chunks c b).map blake3) := by
  rw [← hashes_fromFile hc]
  rfl

end Leaves

/-! ## Signatures -/

section Signatures
variable {blake3} {c : ℕ}

theorem length_signatureLeaves_le (sig : MerkleSignature) (i offset : ℕ) (hashes : List Bytes) :
    (signatureLeaves sig i offset hashes).length ≤ hashes.length := by
  induction hashes generalizing i offset with
  | nil => simp [signatureLeaves]
  | cons hash hashes ih =>
    rw [signatureLeaves]
    split_ifs
    · simp
    · simpa using ih _ _

theorem hashes_signatureLeaves_prefix (sig : MerkleSignature) (i offset : ℕ) (hashes : List Bytes) :
    (signatureLeaves sig i offset hashes).map ChunkHash.hash <+: hashes := by
  induction hashes generalizing i offset with
  | nil => simp [signatureLeaves]
  | cons hash hashes ih =>
    rw [signatureLeaves]
    split_ifs
    · exact List.nil_prefix
    · rw [List.map_cons]
      exact List.cons_prefix_cons.mpr ⟨rfl, ih _ _⟩

/-- With chunks whose length fits, a signature gives back all leaves. -/
theorem signatureLeaves_eq (hc : 0 < c) (hfits : c < 2 ^ 32) {sig : MerkleSignature}
    (hsize : sig.chunkSize = c) (i : ℕ) {hashes : List Bytes}
    (hcount : i + hashes.length = Chunks.count c sig.fileSize) :
    signatureLeaves sig i (i * c) hashes = hashes.mapIdx fun j hash =>
      ⟨(i + j) * c, Fin.ofNat _ (min c (sig.fileSize - (i + j) * c)), hash⟩ := by
  induction hashes generalizing i with
  | nil => rfl
  | cons hash hashes ih =>
    have hi : i * c < sig.fileSize := (Chunks.lt_count hc).mp (by simp at hcount; omega)
    have hval : (Fin.ofNat (2 ^ 32) (min c (sig.fileSize - i * c))).val =
        min c (sig.fileSize - i * c) := Nat.mod_eq_of_lt (by omega)
    have hpos : (Fin.ofNat (2 ^ 32) (min c (sig.fileSize - i * c))) ≠ 0 := by
      intro h
      rw [h] at hval
      simp at hval
      omega
    rw [signatureLeaves, hsize, Nat.min_comm (sig.fileSize - i * c) c]
    rw [if_neg fun h => hpos h.1, List.mapIdx_cons, hval, Nat.add_zero]
    congr 1
    -- Unless this leaf is the last one, its chunk is full.
    cases hashes with
    | nil => rfl
    | cons hash' hashes =>
      have hnext : (i + 1) * c < sig.fileSize :=
        (Chunks.lt_count hc).mp (by simp at hcount; omega)
      rw [Nat.succ_mul] at hnext
      rw [min_eq_left (by omega), ← Nat.succ_mul, ih (i + 1) (by simp at hcount ⊢; omega)]
      congr 1
      funext j hash
      rw [Nat.succ_add_eq_add_succ]

/-- With larger chunks no more than one leaf comes back. -/
theorem length_signatureLeaves_of_dvd (hdvd : 2 ^ 32 ∣ c) {sig : MerkleSignature}
    (hsize : sig.chunkSize = c) {hashes : List Bytes}
    (hcount : hashes.length = Chunks.count c sig.fileSize) (hc : 0 < c) :
    (signatureLeaves sig 0 0 hashes).length ≤ 1 := by
  rcases Nat.lt_or_ge sig.fileSize c with hsmall | hlarge
  · refine (length_signatureLeaves_le sig 0 0 hashes).trans ?_
    rw [hcount]
    by_contra h
    have := (Chunks.lt_count (n := sig.fileSize) (i := 1) hc).mp (by omega)
    omega
  · have hzero : Fin.ofNat (2 ^ 32) (min (sig.fileSize - 0) c) = 0 := by
      rw [Nat.sub_zero, min_eq_right hlarge]
      exact Fin.ext (Nat.mod_eq_zero_of_dvd hdvd)
    cases hashes with
    | nil => simp [signatureLeaves]
    | cons hash hashes =>
      rw [signatureLeaves, hsize, hzero]
      cases hashes with
      | nil => simp [signatureLeaves]
      | cons hash' hashes =>
        rw [signatureLeaves, hsize]
        simp only [Fin.val_zero, Nat.add_zero, hzero]
        simp

end Signatures

/-! ## Dirty ranges -/

section Diff
variable {source target : MerkleTree}

/-- The ranges so far, with the open one. -/
def ranges (st : List DirtyRange × Option DirtyRange) : List DirtyRange := st.1 ++ st.2.toList

/-- A leaf that is not dirty changes no range. -/
theorem ranges_diffStep_clean {i : ℕ} (h : dirtyLeaf source target i = none)
    (st : List DirtyRange × Option DirtyRange) :
    ranges (diffStep source target st i) = ranges st := by
  obtain ⟨closed, current⟩ := st
  cases current <;> simp [diffStep, h, ranges]

theorem ranges_foldl_clean {is : List ℕ} (h : ∀ i ∈ is, dirtyLeaf source target i = none)
    (st : List DirtyRange × Option DirtyRange) :
    ranges (is.foldl (diffStep source target) st) = ranges st := by
  induction is generalizing st with
  | nil => rfl
  | cons i is ih =>
    rw [List.foldl_cons, ih (fun j hj => h j (List.mem_cons_of_mem _ hj)),
      ranges_diffStep_clean (h i (List.mem_cons_self ..))]

/-- The comparison ends with the leaves of the source. -/
theorem diff_eq_ranges {k : ℕ} (hk : source.leaves.length = k) :
    diff source target = ranges ((List.range k).foldl (diffStep source target) ([], none)) := by
  have hclean : ∀ i ∈ List.range' k (max source.leaves.length target.leaves.length - k),
      dirtyLeaf source target i = none := by
    intro i hi
    have hle : source.leaves.length ≤ i := by
      rw [hk]
      exact (List.mem_range'_1.mp hi).1
    simp [dirtyLeaf, List.getElem?_eq_none hle]
  have hsplit : List.range (max source.leaves.length target.leaves.length) =
      List.range k ++ List.range' k (max source.leaves.length target.leaves.length - k) := by
    have happend := @List.range'_append_1 0 k (max source.leaves.length target.leaves.length - k)
    rw [Nat.zero_add] at happend
    rw [List.range_eq_range', List.range_eq_range', happend]
    congr 1
    omega
  show ranges (List.foldl _ _ _) = _
  rw [hsplit, List.foldl_append, ranges_foldl_clean hclean]

/-- The bytes in the ranges. -/
def total (rs : List DirtyRange) : ℕ := (rs.map DirtyRange.length).sum

/-- A position in one of the ranges. -/
def Covers (rs : List DirtyRange) (p : ℕ) : Prop :=
  ∃ r ∈ rs, r.offset ≤ p ∧ p < r.offset + r.length

theorem covers_append {rs rs' : List DirtyRange} {p : ℕ} :
    Covers (rs ++ rs') p ↔ Covers rs p ∨ Covers rs' p := by
  simp only [Covers, List.mem_append, or_and_right, exists_or]

theorem covers_singleton {r : DirtyRange} {p : ℕ} :
    Covers [r] p ↔ r.offset ≤ p ∧ p < r.offset + r.length := by
  simp [Covers]

/-- A leaf that differs. -/
def Dirty (source target : MerkleTree) (i : ℕ) : Prop := (dirtyLeaf source target i).isSome = true

instance : DecidablePred (Dirty source target) :=
  fun _ => inferInstanceAs (Decidable (_ = true))

/-- After `i` leaves: a range that covers so many leaves is shorter by one chunk at most, and
no more ranges are closed than leaves are the same. -/
structure Bulky (source target : MerkleTree) (c i : ℕ) (st : List DirtyRange × Option DirtyRange) :
    Prop where
  closed : st.1.length + Nat.count (Dirty source target) i ≤ i
  bound : c * Nat.count (Dirty source target) i ≤
    total st.1 + c * st.1.length + (st.2.map fun r => i * c - r.offset).getD 0
  opened : ∀ r, st.2 = some r → r.offset + c ≤ i * c ∧ i * c ≤ r.offset + r.length + c

theorem count_dirty_none {i : ℕ} (h : dirtyLeaf source target i = none) :
    Nat.count (Dirty source target) (i + 1) = Nat.count (Dirty source target) i := by
  rw [Nat.count_succ, if_neg (by simp [Dirty, h]), Nat.add_zero]

theorem count_dirty_some {i : ℕ} {s : ChunkHash} (h : dirtyLeaf source target i = some s) :
    Nat.count (Dirty source target) (i + 1) = Nat.count (Dirty source target) i + 1 := by
  rw [Nat.count_succ, if_pos (by simp [Dirty, h])]

theorem bulky_step {c i : ℕ} {st : List DirtyRange × Option DirtyRange}
    (hoffset : ∀ s, dirtyLeaf source target i = some s → s.offset = i * c)
    (h : Bulky source target c i st) :
    Bulky source target c (i + 1) (diffStep source target st i) := by
  obtain ⟨closed, current⟩ := st
  obtain ⟨hclosed, hbound, hopened⟩ := h
  dsimp only at hclosed hbound hopened
  cases hleaf : dirtyLeaf source target i with
  | none =>
    have hcount := count_dirty_none hleaf
    cases current with
    | none =>
      simp only [diffStep, hleaf]
      exact ⟨by rw [hcount]; dsimp only; omega, by rw [hcount]; exact hbound, nofun⟩
    | some r =>
      simp only [diffStep, hleaf]
      obtain ⟨-, hlen⟩ := hopened r rfl
      refine ⟨?_, ?_, nofun⟩
      · rw [hcount, List.length_append, List.length_singleton]
        omega
      · simp only [Option.map_some, Option.getD_some] at hbound
        rw [hcount]
        simp only [total, List.map_append, List.sum_append, List.map_cons, List.map_nil,
          List.sum_cons, List.sum_nil, List.length_append, List.length_singleton, Nat.mul_add,
          Option.map_none, Option.getD_none] at hbound ⊢
        omega
  | some s =>
    have hcount := count_dirty_some hleaf
    have hs := hoffset s hleaf
    cases current with
    | none =>
      simp only [diffStep, hleaf]
      refine ⟨by rw [hcount]; dsimp only; omega, ?_, ?_⟩
      · simp only [Option.map_none, Option.getD_none] at hbound
        simp only [hcount, Option.map_some, Option.getD_some, hs, Nat.mul_add, Nat.succ_mul]
        omega
      · rintro r ⟨⟩
        simp only [hs, Nat.succ_mul]
        omega
    | some r =>
      simp only [diffStep, hleaf]
      obtain ⟨hoff, hlen⟩ := hopened r rfl
      refine ⟨by rw [hcount]; dsimp only; omega, ?_, ?_⟩
      · simp only [Option.map_some, Option.getD_some] at hbound
        simp only [hcount, Option.map_some, Option.getD_some, Nat.mul_add, Nat.succ_mul]
        omega
      · rintro r' ⟨⟩
        simp only [hs, Nat.succ_mul]
        omega

theorem bulky_foldl {c : ℕ}
    (hoffset : ∀ i s, dirtyLeaf source target i = some s → s.offset = i * c) (i : ℕ) :
    Bulky source target c i ((List.range i).foldl (diffStep source target) ([], none)) := by
  induction i with
  | zero => exact ⟨by simp, by simp, nofun⟩
  | succ i ih =>
    rw [List.range_succ, List.foldl_append, List.foldl_cons, List.foldl_nil]
    exact bulky_step (hoffset i) ih

/-- The ranges cover all dirty leaves, but for one chunk in each run of them. -/
theorem total_diff {c k : ℕ}
    (hoffset : ∀ i s, dirtyLeaf source target i = some s → s.offset = i * c)
    (hk : source.leaves.length = k) :
    c * Nat.count (Dirty source target) k ≤ total (diff source target) +
      c * (k - Nat.count (Dirty source target) k + 1) := by
  obtain ⟨hclosed, hbound, hopened⟩ := bulky_foldl hoffset k
  rw [diff_eq_ranges hk]
  generalize (List.range k).foldl (diffStep source target) ([], none) = st at *
  obtain ⟨closed, current⟩ := st
  dsimp only at hclosed hbound hopened
  have hmul : c * closed.length ≤ c * (k - Nat.count (Dirty source target) k) :=
    Nat.mul_le_mul_left c (by omega)
  cases current with
  | none =>
    simp only [ranges, Option.map_none, Option.getD_none, Option.toList_none, List.append_nil,
      Nat.mul_add] at hbound ⊢
    omega
  | some r =>
    obtain ⟨hoff, hlen⟩ := hopened r rfl
    simp only [ranges, total, List.map_append, List.sum_append, List.map_cons, List.map_nil,
      List.sum_cons, List.sum_nil, Option.map_some, Option.getD_some, Option.toList_some,
      Nat.mul_add] at hbound ⊢
    omega

/-- After `i` leaves the ranges cover the dirty ones among them, and the open range ends
where the last of them does. -/
structure Exact (source target : MerkleTree) (c n i : ℕ)
    (st : List DirtyRange × Option DirtyRange) : Prop where
  covers : ∀ p, Covers (ranges st) p ↔ p < n ∧ p / c < i ∧ Dirty source target (p / c)
  opened : ∀ r, st.2 = some r → r.offset ≤ i * c ∧ r.offset + r.length = min (i * c) n

/-- The positions of a dirty leaf come to those of the dirty leaves before it. -/
theorem dirty_positions_succ {c n i : ℕ} (hc : 0 < c) (hi : Dirty source target i) (p : ℕ) :
    (p < n ∧ p / c < i + 1 ∧ Dirty source target (p / c)) ↔
      (p < n ∧ p / c < i ∧ Dirty source target (p / c)) ∨
        (i * c ≤ p ∧ p < min ((i + 1) * c) n) := by
  have hdiv : p / c = i ↔ i * c ≤ p ∧ p < (i + 1) * c := by
    rw [Nat.div_eq_iff hc, Nat.succ_mul]
    omega
  constructor
  · rintro ⟨hp, hlt, hd⟩
    rcases Nat.lt_succ_iff_lt_or_eq.mp hlt with hlt | heq
    · exact .inl ⟨hp, hlt, hd⟩
    · exact .inr ⟨(hdiv.mp heq).1, lt_min (hdiv.mp heq).2 hp⟩
  · rintro (⟨hp, hlt, hd⟩ | ⟨hlo, hhi⟩)
    · exact ⟨hp, by omega, hd⟩
    · have heq : p / c = i := hdiv.mpr ⟨hlo, (lt_min_iff.mp hhi).1⟩
      refine ⟨(lt_min_iff.mp hhi).2, by omega, ?_⟩
      rw [heq]
      exact hi

theorem exact_step {c n i : ℕ} (hc : 0 < c) {st : List DirtyRange × Option DirtyRange}
    (hleaf : ∀ s, dirtyLeaf source target i = some s →
      i * c < n ∧ s.offset = i * c ∧ s.length.val = min c (n - i * c))
    (h : Exact source target c n i st) :
    Exact source target c n (i + 1) (diffStep source target st i) := by
  cases hdirty : dirtyLeaf source target i with
  | none =>
    refine ⟨fun p => ?_, ?_⟩
    · rw [ranges_diffStep_clean hdirty, h.covers p]
      refine and_congr_right fun _ => and_congr_left fun hp => ?_
      have hne : p / c ≠ i := by
        intro heq
        rw [heq, Dirty, hdirty] at hp
        cases hp
      omega
    · intro r hr
      cases hcurrent : st.2 <;> simp [diffStep, hdirty, hcurrent] at hr
  | some s =>
    obtain ⟨hi, hoffset, hlength⟩ := hleaf s hdirty
    have hpos := @dirty_positions_succ source target c n i hc (by rw [Dirty, hdirty]; rfl)
    obtain ⟨closed, current⟩ := st
    cases current with
    | none =>
      simp only [diffStep, hdirty]
      refine ⟨fun p => ?_, ?_⟩
      · have hold := h.covers p
        simp only [ranges, Option.toList_none, List.append_nil] at hold
        rw [hpos p, ← hold]
        simp only [ranges, Option.toList_some, covers_append, covers_singleton]
        refine or_congr_right ?_
        rw [hoffset, hlength, Nat.succ_mul]
        omega
      · rintro r ⟨⟩
        dsimp only
        rw [hoffset, hlength, Nat.succ_mul]
        omega
    | some r =>
      simp only [diffStep, hdirty]
      obtain ⟨hoff, hend⟩ := h.opened r rfl
      refine ⟨fun p => ?_, ?_⟩
      · have hold := h.covers p
        simp only [ranges, Option.toList_some, covers_append, covers_singleton] at hold
        rw [hpos p, ← hold]
        simp only [ranges, Option.toList_some, covers_append, covers_singleton]
        rw [or_assoc]
        refine or_congr_right ?_
        rw [hoffset, hlength, Nat.succ_mul]
        omega
      · rintro r' ⟨⟩
        dsimp only
        rw [hoffset, hlength, Nat.succ_mul]
        omega

/-- If the lengths of the leaves fit, the ranges cover exactly the dirty ones. -/
theorem covers_diff {c n : ℕ} (hc : 0 < c)
    (hleaf : ∀ i s, dirtyLeaf source target i = some s →
      i * c < n ∧ s.offset = i * c ∧ s.length.val = min c (n - i * c))
    (hk : source.leaves.length = Chunks.count c n) (p : ℕ) :
    Covers (diff source target) p ↔ p < n ∧ Dirty source target (p / c) := by
  have hexact : ∀ i, Exact source target c n i
      ((List.range i).foldl (diffStep source target) ([], none)) := by
    intro i
    induction i with
    | zero => exact ⟨fun p => by simp [ranges, Covers], nofun⟩
    | succ i ih =>
      rw [List.range_succ, List.foldl_append, List.foldl_cons, List.foldl_nil]
      exact exact_step hc (hleaf i) ih
  rw [diff_eq_ranges hk, (hexact _).covers p]
  refine and_congr_right fun hp => and_iff_right ?_
  rw [Chunks.lt_count hc]
  exact (Nat.div_mul_le_self p c).trans_lt hp

end Diff

end MerkleTree

end Foxing
