import Foxing.Event
import Foxing.Lib.Simd
import Foxing.StdinToFile

/-!
# Searches with vector instructions

The inode column of a batch is searched four inodes at a time, and buffers are tested for zeros in
blocks of 32 to 256 bytes, with the instructions that the processor has. What does not fill a
register is gone through one by one.
-/
namespace Foxing.VectorScans
open Simd

/-! ## Inodes -/

/-- The loop over single inodes. -/
def findInodeMatchScalar (inodes : List U64) (target : U64) (start stop : ℕ) : Option ℕ :=
  (List.range' start (stop - start)).find? fun i => inodes[i]? = some target

/-- Four inodes are loaded from a place of the column. -/
def loadInodes (inodes : List U64) (i : ℕ) : Register := ((inodes.drop i).take 4).map Fin.val

def findInodeMatchAvx2 (inodes : List U64) (target : U64) (i stop : ℕ) : Option ℕ :=
  if i + 4 ≤ stop then
    let cmp := cmpeqEpi64 (loadInodes inodes i) (set1 4 target.val)
    let mask := movemaskEpi8 cmp
    if mask ≠ 0 then some (i + trailingZeros 32 mask / 8)
    else findInodeMatchAvx2 inodes target (i + 4) stop
  else findInodeMatchScalar inodes target i stop
termination_by stop - i

def findInodeMatch (avx2 : Bool) (inodes : List U64) (target : U64) (start stop : ℕ) : Option ℕ :=
  if avx2 then findInodeMatchAvx2 inodes target start stop
  else findInodeMatchScalar inodes target start stop

/-- The result is the first place of the target between two places, if there is one. -/
def FirstMatch (inodes : List U64) (target : U64) (start stop : ℕ) : Option ℕ → Prop
  | some i => (start ≤ i ∧ i < stop ∧ inodes[i]? = some target) ∧
    ∀ j, start ≤ j → j < i → inodes[j]? ≠ some target
  | none => ∀ i, start ≤ i → i < stop → inodes[i]? ≠ some target

theorem firstMatch_findInodeMatchScalar (inodes : List U64) (target : U64) (start stop : ℕ) :
    FirstMatch inodes target start stop (findInodeMatchScalar inodes target start stop) := by
  cases hfind : findInodeMatchScalar inodes target start stop with
  | none =>
    intro i hstart hstop heq
    have hnone := List.find?_eq_none.mp hfind i (List.mem_range'_1.mpr ⟨hstart, by omega⟩)
    exact hnone (decide_eq_true heq)
  | some i =>
    obtain ⟨hmatch, hmem, hbefore⟩ := List.find?_range'_eq_some.mp hfind
    obtain ⟨hstart, hstop⟩ := List.mem_range'_1.mp hmem
    refine ⟨⟨hstart, by omega, of_decide_eq_true hmatch⟩, fun j hj hji heq => ?_⟩
    have hnot := hbefore j hj hji
    rw [decide_eq_true heq] at hnot
    cases hnot

/-- The search of a stretch of the column with the given inodes. -/
theorem find?_stretch {inodes : List U64} (target : U64) {block : List U64} {i : ℕ}
    (hblock : ∀ k < block.length, inodes[i + k]? = block[k]?) :
    ((List.range' i block.length).find? fun j => inodes[j]? = some target) =
      if target ∈ block then some (i + block.findIdx fun x => x = target) else none := by
  induction block generalizing i with
  | nil => rfl
  | cons x block ih =>
    have hhead : inodes[i]? = some x := hblock 0 (Nat.succ_pos _)
    have hrest := ih (i := i + 1) fun k hk => by
      have hnext := hblock (k + 1) (Nat.succ_lt_succ hk)
      rwa [← Nat.add_assoc, Nat.add_right_comm] at hnext
    rw [List.length_cons, List.range'_succ, List.find?_cons, hhead, hrest, List.findIdx_cons]
    by_cases hx : x = target
    · simp [hx]
    · have hx' : ¬target = x := fun h => hx h.symm
      simp [hx, hx', Nat.add_assoc, Nat.add_comm]

/-- Four inodes of the column at once. -/
theorem find?_four {inodes : List U64} (target : U64) {i : ℕ} (hi : i + 4 ≤ inodes.length) :
    let mask := movemaskEpi8 (cmpeqEpi64 (loadInodes inodes i) (set1 4 target.val))
    ((List.range' i 4).find? fun j => inodes[j]? = some target) =
      if mask ≠ 0 then some (i + trailingZeros 32 mask / 8) else none := by
  have hlength : ((inodes.drop i).take 4).length = 4 := by
    rw [List.length_take, List.length_drop]
    omega
  have hregister : (loadInodes inodes i).length = 4 := (List.length_map _).trans hlength
  have hmask := movemaskEpi8_cmpeqEpi64_eq_zero target.val (loadInodes inodes i)
  have hlane := trailingZeros_cmpeqEpi64 target.val (loadInodes inodes i)
  have hread : ∀ k < ((inodes.drop i).take 4).length,
      inodes[i + k]? = ((inodes.drop i).take 4)[k]? := by
    intro k hk
    rw [hlength] at hk
    rw [List.getElem?_take_of_lt hk, List.getElem?_drop]
  have hstretch := find?_stretch target hread
  rw [hlength] at hstretch
  rw [hregister] at hmask hlane
  have hmem : target.val ∈ loadInodes inodes i ↔ target ∈ (inodes.drop i).take 4 :=
    List.mem_map_of_injective Fin.val_injective
  have hindex : (loadInodes inodes i).findIdx (fun x => x = target.val) =
      ((inodes.drop i).take 4).findIdx fun x => x = target := by
    rw [loadInodes, List.findIdx_map]
    simp only [Function.comp_def, Fin.ext_iff]
  dsimp only
  rw [hstretch, ← hindex, ← hlane]
  by_cases htarget : target ∈ (inodes.drop i).take 4
  · rw [if_pos htarget, if_pos fun hzero => hmask.mp hzero (hmem.mpr htarget)]
  · rw [if_neg htarget, if_neg (not_not.mpr (hmask.mpr fun h => htarget (hmem.mp h)))]

/-- The search one by one, with the first four places apart. -/
theorem findInodeMatchScalar_split (inodes : List U64) (target : U64) {i stop : ℕ}
    (hi : i + 4 ≤ stop) : findInodeMatchScalar inodes target i stop =
      ((List.range' i 4).find? fun j => inodes[j]? = some target).or
        (findInodeMatchScalar inodes target (i + 4) stop) := by
  have hcount : stop - i = 4 + (stop - (i + 4)) := by omega
  rw [findInodeMatchScalar, hcount, ← List.range'_append_1, List.find?_append]
  rfl

/-- Four at a time the search finds what it finds one by one. -/
theorem findInodeMatchAvx2_eq (inodes : List U64) (target : U64) (i : ℕ) {stop : ℕ}
    (hstop : stop ≤ inodes.length) :
    findInodeMatchAvx2 inodes target i stop = findInodeMatchScalar inodes target i stop := by
  induction i using findInodeMatchAvx2.induct inodes target stop with
  | case1 i hblock cmp mask hmask =>
    rw [findInodeMatchAvx2, if_pos hblock, findInodeMatchScalar_split inodes target hblock,
      find?_four target (hblock.trans hstop)]
    dsimp only
    rw [if_pos hmask, if_pos hmask, Option.some_or]
  | case2 i hblock cmp mask hmask ih =>
    rw [findInodeMatchAvx2, if_pos hblock, findInodeMatchScalar_split inodes target hblock,
      find?_four target (hblock.trans hstop), ← ih]
    dsimp only
    rw [if_neg hmask, if_neg hmask, Option.none_or]
  | case3 i hlast => rw [findInodeMatchAvx2, if_neg hlast]

theorem findInodeMatch_eq (avx2 : Bool) (inodes : List U64) (target : U64) (start : ℕ) {stop : ℕ}
    (hstop : stop ≤ inodes.length) :
    findInodeMatch avx2 inodes target start stop =
      findInodeMatchScalar inodes target start stop := by
  cases avx2 with
  | false => rfl
  | true => exact findInodeMatchAvx2_eq inodes target start hstop

theorem le_of_findInodeMatchScalar {inodes : List U64} {target : U64} {start stop i : ℕ}
    (h : findInodeMatchScalar inodes target start stop = some i) : start ≤ i :=
  (List.mem_range'_1.mp (List.mem_of_find?_eq_some h)).1

/-- What is found is not before the place where the search begins. -/
theorem le_of_findInodeMatch {avx2 : Bool} {inodes : List U64} {target : U64} {start stop i : ℕ}
    (h : findInodeMatch avx2 inodes target start stop = some i) : start ≤ i := by
  cases avx2 with
  | false => exact le_of_findInodeMatchScalar h
  | true =>
    rw [findInodeMatch, if_pos rfl] at h
    induction start using findInodeMatchAvx2.induct inodes target stop with
    | case1 start hblock cmp mask hmask =>
      rw [findInodeMatchAvx2, if_pos hblock] at h
      dsimp only at h
      rw [if_pos hmask] at h
      obtain rfl := Option.some.inj h
      exact Nat.le_add_right _ _
    | case2 start hblock cmp mask hmask ih =>
      rw [findInodeMatchAvx2, if_pos hblock] at h
      dsimp only at h
      rw [if_neg hmask] at h
      exact (Nat.le_add_right _ _).trans (ih h)
    | case3 start hlast =>
      rw [findInodeMatchAvx2, if_neg hlast] at h
      exact le_of_findInodeMatchScalar h

/-! ## Zeros -/

/-- The four registers of a block, combined. -/
def combined (lanes width : ℕ) (buf : Bytes) (i : ℕ) : Register :=
  let register := fun k => load lanes width buf (i + k * (lanes * width))
  orLanes (orLanes (register 0) (register 1)) (orLanes (register 2) (register 3))

def isZeroNeon (buf : Bytes) : Bool :=
  (blocks 64 (fun i => maxv (combined 16 1 buf i) = 0) buf.length 0).elim false fun i =>
    (buf.drop i).all (· = 0)

def isZeroAvx512 (buf : Bytes) : Bool :=
  let wide := blocks 256 (fun i => testMask (combined 8 8 buf i) (combined 8 8 buf i) = 0)
    buf.length 0
  let narrow := wide.bind fun i =>
    blocks 64 (fun i => testMask (load 8 8 buf i) (load 8 8 buf i) = 0) buf.length i
  narrow.elim false fun i => (buf.drop i).all (· = 0)

def isZeroAvx2 (buf : Bytes) : Bool :=
  (blocks 32 (fun i => testz (load 4 8 buf i) (load 4 8 buf i) ≠ 0) buf.length 0).elim false
    fun i => (buf.drop i).all (· = 0)

/-- The buffer as aligned words of 128 bits, with what is before and behind them. How much that
is depends on where the buffer begins. -/
def isZeroAligned (skip count : ℕ) (buf : Bytes) : Bool :=
  (load count 16 buf skip).all (· = 0) && (buf.take skip).all (· = 0) &&
    (buf.drop (skip + count * 16)).all (· = 0)

/-- What the processor can do. -/
inductive Cpu where
  | avx512
  | avx2
  | neon
  | other (skip count : ℕ)

def isZeroBlock : Cpu → Bytes → Bool
  | .avx512 => isZeroAvx512
  | .avx2 => isZeroAvx2
  | .neon => isZeroNeon
  | .other skip count => isZeroAligned skip count

/-- The four registers are combined to the bytes of a block. -/
theorem isZero_combined (lanes width : ℕ) (buf : Bytes) (i : ℕ) :
    IsZero (combined lanes width buf i) ↔
      ∀ b ∈ (buf.drop i).take (4 * (lanes * width)), b = 0 := by
  have hload : ∀ k, (load lanes width buf k).length = lanes := fun k => by simp [load]
  have hor : ∀ a b : Register, a.length = lanes → b.length = lanes →
      (orLanes a b).length = lanes := by
    intro a b ha hb
    simp [orLanes, ha, hb]
  unfold combined
  dsimp only
  rw [isZero_orLanes (by rw [hor _ _ (hload _) (hload _), hor _ _ (hload _) (hload _)]),
    isZero_orLanes (by rw [hload, hload]), isZero_orLanes (by rw [hload, hload])]
  simp only [isZero_load]
  generalize lanes * width = w
  have hfour : 4 * w = w + (w + (w + w)) := by omega
  have htwo : i + 2 * w = i + w + w := by omega
  have hthree : i + 3 * w = i + w + w + w := by omega
  rw [hfour, htwo, hthree, List.take_add, List.take_add, List.take_add]
  simp only [List.drop_drop, List.forall_mem_append, Nat.zero_mul, Nat.add_zero, Nat.one_mul,
    and_assoc]

/-- Whatever the processor can do, a buffer is taken for zero if and only if it is. -/
theorem isZeroBlock_eq_true (cpu : Cpu) (buf : Bytes) :
    isZeroBlock cpu buf = true ↔ ∀ b ∈ buf, b = 0 := by
  have hall : ∀ bs : Bytes, bs.all (· = 0) = true ↔ ∀ b ∈ bs, b = 0 := by
    intro bs
    simp [List.all_eq_true]
  have hload : ∀ i, decide (testMask (load 8 8 buf i) (load 8 8 buf i) = 0) = true ↔
      ∀ b ∈ (buf.drop i).take 64, b = 0 := by
    intro i
    rw [decide_eq_true_eq, testMask_self, isZero_load]
  cases cpu with
  | avx512 =>
    have hwide : ∀ i, decide (testMask (combined 8 8 buf i) (combined 8 8 buf i) = 0) = true ↔
        ∀ b ∈ (buf.drop i).take 256, b = 0 := by
      intro i
      rw [decide_eq_true_eq, testMask_self, isZero_combined]
    have hnarrow : ∀ wide : Option ℕ, ((wide.bind fun i =>
        blocks 64 (fun i => decide (testMask (load 8 8 buf i) (load 8 8 buf i) = 0)) buf.length
          i).elim false fun i => (buf.drop i).all (· = 0)) =
        wide.elim false fun i => (buf.drop i).all (· = 0) := by
      intro wide
      cases wide with
      | none => rfl
      | some i => exact elim_blocks hload i
    rw [isZeroBlock, isZeroAvx512, hnarrow, elim_blocks hwide, List.drop_zero, hall]
  | avx2 =>
    have htest : ∀ i, decide (testz (load 4 8 buf i) (load 4 8 buf i) ≠ 0) = true ↔
        ∀ b ∈ (buf.drop i).take 32, b = 0 := by
      intro i
      rw [decide_eq_true_eq, testz_self, isZero_load]
    rw [isZeroBlock, isZeroAvx2, elim_blocks htest, List.drop_zero, hall]
  | neon =>
    have htest : ∀ i, decide (maxv (combined 16 1 buf i) = 0) = true ↔
        ∀ b ∈ (buf.drop i).take 64, b = 0 := by
      intro i
      rw [decide_eq_true_eq, maxv_eq_zero, isZero_combined]
    rw [isZeroBlock, isZeroNeon, elim_blocks htest, List.drop_zero, hall]
  | other skip count =>
    have hwords : (load count 16 buf skip).all (· = 0) = true ↔
        ∀ b ∈ (buf.drop skip).take (count * 16), b = 0 := by
      rw [← isZero_load, List.all_eq_true]
      simp only [decide_eq_true_eq, IsZero]
    rw [isZeroBlock, isZeroAligned, Bool.and_eq_true, Bool.and_eq_true, hall, hall, hwords]
    have hsplit : buf = buf.take skip ++ ((buf.drop skip).take (count * 16) ++
        buf.drop (skip + count * 16)) := by
      rw [← List.drop_drop, List.take_append_drop, List.take_append_drop]
    have hparts : (∀ b ∈ buf, b = 0) ↔ (∀ b ∈ buf.take skip, b = 0) ∧
        (∀ b ∈ (buf.drop skip).take (count * 16), b = 0) ∧
          ∀ b ∈ buf.drop (skip + count * 16), b = 0 := by
      conv_lhs => rw [hsplit]
      rw [List.forall_mem_append, List.forall_mem_append]
    rw [hparts, and_assoc, and_left_comm]

/-- It is what a copy from the standard input passes over, in blocks of any lengths. -/
theorem isZeroBlock_eq (cpu : Cpu) (lanes : List ℕ) (buf : Bytes) :
    isZeroBlock cpu buf = StdinToFile.isZeroBlock lanes buf := by
  rw [StdinToFile.isZeroBlock_eq, Bool.eq_iff_iff, isZeroBlock_eq_true]
  simp

/-- For every column of inodes and all places in it, and for every buffer, wherever it begins, the
vector instructions find what is found without them (for the standard input: `isZeroBlock_eq`). -/
theorem scans_agree :
    (∀ (inodes : List U64) (target : U64) (start stop : ℕ),
      start ≤ stop → stop ≤ inodes.length →
        findInodeMatchAvx2 inodes target start stop =
            findInodeMatchScalar inodes target start stop ∧
          FirstMatch inodes target start stop (findInodeMatchAvx2 inodes target start stop)) ∧
      ∀ (cpu : Cpu) (buf : Bytes), isZeroBlock cpu buf = true ↔ ∀ b ∈ buf, b = 0 := by
  refine ⟨fun inodes target start stop _ hstop => ?_, isZeroBlock_eq_true⟩
  rw [findInodeMatchAvx2_eq inodes target start hstop]
  exact ⟨rfl, firstMatch_findInodeMatchScalar inodes target start stop⟩

/-- The second of five inodes is found with the first register. -/
theorem scans_agree_five :
    findInodeMatchAvx2 [7, 3, 5, 3, 9] 3 0 5 = some 1 ∧
      findInodeMatchAvx2 [7, 3, 5, 3, 9] 3 0 5 = findInodeMatchScalar [7, 3, 5, 3, 9] 3 0 5 := by
  have hagree := (scans_agree.1 [7, 3, 5, 3, 9] 3 0 5 (by decide) (by decide)).1
  refine ⟨hagree.trans ?_, hagree⟩
  rfl

end Foxing.VectorScans
