import Foxing.Lib.Bytes
import Mathlib.Data.List.Basic
import Mathlib.Tactic.Common

/-!
# Vector instructions

A register is the list of its lanes, the lowest first. A comparison fills the lanes that are
equal with ones; what is then tested is a mask with a bit for each lane or for each byte. A loop
goes through a buffer in blocks of the width of a register until a test fails or less than a
block is left.
-/
namespace Simd

/-- The lanes of a register, as numbers. -/
abbrev Register := List ℕ

/-! ## Masks -/

/-- The number with these bits, the lowest first. -/
def mask : List Bool → ℕ
  | [] => 0
  | b :: bs => b.toNat + 2 * mask bs

/-- The number of zeros below the lowest one of so many bits. -/
def trailingZeros : ℕ → ℕ → ℕ
  | 0, _ => 0
  | w + 1, n => if n % 2 = 1 then 0 else trailingZeros w (n / 2) + 1

theorem mask_eq_zero_iff (bs : List Bool) : mask bs = 0 ↔ ∀ b ∈ bs, b = false := by
  induction bs with
  | nil => simp [mask]
  | cons b bs ih => cases b <;> simp [mask, ih]

theorem trailingZeros_mask (bs : List Bool) :
    trailingZeros bs.length (mask bs) = bs.findIdx id := by
  induction bs with
  | nil => rfl
  | cons b bs ih =>
    rw [List.length_cons, trailingZeros, mask, List.findIdx_cons]
    cases b with
    | true =>
      have hodd : (1 + 2 * mask bs) % 2 = 1 := by omega
      exact if_pos hodd
    | false =>
      have hhalf : (false.toNat + 2 * mask bs) / 2 = mask bs := by
        rw [Bool.toNat_false]
        omega
      have heven : ¬(false.toNat + 2 * mask bs) % 2 = 1 := by
        rw [Bool.toNat_false]
        omega
      rw [if_neg heven, hhalf, ih]
      rfl

theorem length_repeated (w : ℕ) (bs : List Bool) :
    (bs.flatMap (List.replicate w)).length = w * bs.length := by
  induction bs with
  | nil => rfl
  | cons b bs ih =>
    rw [List.flatMap_cons, List.length_append, ih, List.length_replicate, List.length_cons,
      Nat.mul_succ, Nat.add_comm]

/-- Where the first bit is if every bit is repeated. -/
theorem findIdx_repeated {w : ℕ} (hw : 0 < w) (bs : List Bool) :
    (bs.flatMap (List.replicate w)).findIdx id = w * bs.findIdx id := by
  induction bs with
  | nil => rfl
  | cons b bs ih =>
    rw [List.flatMap_cons, List.findIdx_append, List.findIdx_cons, List.length_replicate]
    cases b with
    | true =>
      have hfirst : (List.replicate w true).findIdx id = 0 := by
        obtain ⟨n, rfl⟩ := Nat.exists_eq_succ_of_ne_zero hw.ne'
        rfl
      rw [hfirst, if_pos hw]
      rfl
    | false =>
      have hnone : (List.replicate w false).findIdx id = w := by
        rw [List.findIdx_eq_length.mpr (by simp), List.length_replicate]
      rw [hnone, if_neg (Nat.lt_irrefl w), ih]
      exact (Nat.mul_succ w _).symm

/-! ## Comparisons -/

/-- The same value in so many lanes. -/
def set1 (lanes n : ℕ) : Register := List.replicate lanes n

/-- Lanes of 64 bits that are equal have ones only, the others zeros. -/
def cmpeqEpi64 (a b : Register) : Register :=
  List.zipWith (fun x y => if x = y then 2 ^ 64 - 1 else 0) a b

/-- The bytes of lanes of 64 bits. -/
def bytes (a : Register) : Bytes := a.flatMap (Bytes.ofNat 8)

/-- The highest bits of the bytes. -/
def movemaskEpi8 (a : Register) : ℕ := mask ((bytes a).map fun b => 128 ≤ b.val)

/-- A comparison has eight bits for each lane. -/
theorem topBits_cmpeqEpi64 (n : ℕ) (a : Register) :
    ((bytes (cmpeqEpi64 a (set1 a.length n))).map fun b => decide (128 ≤ b.val)) =
      (a.map fun x => decide (x = n)).flatMap (List.replicate 8) := by
  induction a with
  | nil => rfl
  | cons x a ih =>
    have hcons : bytes (cmpeqEpi64 (x :: a) (set1 (x :: a).length n)) =
        Bytes.ofNat 8 (if x = n then 2 ^ 64 - 1 else 0) ++
          bytes (cmpeqEpi64 a (set1 a.length n)) := rfl
    rw [hcons, List.map_append, ih, List.map_cons, List.flatMap_cons]
    congr 1
    split_ifs with hx
    · rw [decide_eq_true hx]
      rfl
    · rw [decide_eq_false hx]
      rfl

/-- The mask of a comparison is zero if no lane is equal. -/
theorem movemaskEpi8_cmpeqEpi64_eq_zero (n : ℕ) (a : Register) :
    movemaskEpi8 (cmpeqEpi64 a (set1 a.length n)) = 0 ↔ n ∉ a := by
  rw [movemaskEpi8, topBits_cmpeqEpi64, mask_eq_zero_iff]
  simp only [List.mem_flatMap, List.mem_map, List.mem_replicate]
  constructor
  · intro hall hn
    exact Bool.noConfusion (hall true ⟨true, ⟨n, hn, decide_eq_true rfl⟩, by decide, rfl⟩)
  · rintro hn b ⟨_, ⟨x, hx, rfl⟩, -, rfl⟩
    exact decide_eq_false fun heq => hn (heq ▸ hx)

/-- The lowest bit of the mask tells the first lane that is equal. -/
theorem trailingZeros_cmpeqEpi64 (n : ℕ) (a : Register) :
    trailingZeros (8 * a.length) (movemaskEpi8 (cmpeqEpi64 a (set1 a.length n))) / 8 =
      a.findIdx fun x => x = n := by
  have hlength : 8 * a.length =
      ((a.map fun x => decide (x = n)).flatMap (List.replicate 8)).length := by
    rw [length_repeated, List.length_map]
  rw [movemaskEpi8, topBits_cmpeqEpi64, hlength, trailingZeros_mask,
    findIdx_repeated (by decide), Nat.mul_div_cancel_left _ (by decide), List.findIdx_map]
  rfl

/-! ## Tests -/

/-- The lanes of a register that is loaded from a buffer, with so many bytes each. -/
def load (lanes width : ℕ) (buf : Bytes) (i : ℕ) : Register :=
  (List.range lanes).map fun k => Bytes.field buf (i + k * width) width

def orLanes (a b : Register) : Register := List.zipWith (· ||| ·) a b

/-- One if the two have no bit in common. -/
def testz (a b : Register) : ℕ := if List.zipWith (· &&& ·) a b |>.all (· = 0) then 1 else 0

/-- A bit for each lane in which the two have a bit in common. -/
def testMask (a b : Register) : ℕ :=
  mask (List.zipWith (fun x y => x &&& y ≠ 0) a b)

/-- The largest lane. -/
def maxv (a : Register) : ℕ := a.foldl max 0

/-- All lanes are zero. -/
def IsZero (a : Register) : Prop := ∀ x ∈ a, x = 0

theorem isZero_orLanes {a b : Register} (h : a.length = b.length) :
    IsZero (orLanes a b) ↔ IsZero a ∧ IsZero b := by
  induction a generalizing b with
  | nil =>
    obtain rfl := List.length_eq_zero_iff.mp h.symm
    simp [IsZero, orLanes]
  | cons x a ih =>
    cases b with
    | nil => cases h
    | cons y b =>
      have hrest := ih (Nat.succ.inj h)
      simp only [IsZero, orLanes, List.zipWith_cons_cons, List.forall_mem_cons, Nat.or_eq_zero_iff]
        at hrest ⊢
      rw [hrest]
      exact and_and_and_comm

theorem testz_self (a : Register) : testz a a ≠ 0 ↔ IsZero a := by
  unfold testz
  rw [List.zipWith_self, List.all_map]
  simp [IsZero]

theorem testMask_self (a : Register) : testMask a a = 0 ↔ IsZero a := by
  unfold testMask
  rw [mask_eq_zero_iff, List.zipWith_self]
  simp [IsZero]

theorem maxv_eq_zero (a : Register) : maxv a = 0 ↔ IsZero a := by
  have hfold : ∀ m, a.foldl max m = 0 ↔ m = 0 ∧ IsZero a := by
    induction a with
    | nil => simp [IsZero]
    | cons x a ih =>
      intro m
      rw [List.foldl_cons, ih]
      simp only [IsZero, List.forall_mem_cons, Nat.max_eq_zero_iff, and_assoc]
  simpa [maxv] using hfold 0

theorem toNat_eq_zero (bs : Bytes) : Bytes.toNat bs = 0 ↔ ∀ b ∈ bs, b = 0 := by
  induction bs with
  | nil => simp [Bytes.toNat]
  | cons b bs ih =>
    rw [Bytes.toNat, List.forall_mem_cons, ← ih, Fin.ext_iff]
    show b.val + 256 * Bytes.toNat bs = 0 ↔ b.val = 0 ∧ Bytes.toNat bs = 0
    omega

/-- A register that is loaded is zero if and only if its bytes are. -/
theorem isZero_load (lanes width : ℕ) (buf : Bytes) (i : ℕ) :
    IsZero (load lanes width buf i) ↔ ∀ b ∈ (buf.drop i).take (lanes * width), b = 0 := by
  induction lanes with
  | zero => simp [IsZero, load]
  | succ n ih =>
    have hload : load (n + 1) width buf i =
        load n width buf i ++ [Bytes.field buf (i + n * width) width] := by
      rw [load, List.range_succ, List.map_append]
      rfl
    have htake : (buf.drop i).take ((n + 1) * width) = (buf.drop i).take (n * width) ++
        (buf.drop (i + n * width)).take width := by
      rw [Nat.succ_mul, List.take_add, List.drop_drop]
    rw [hload, htake, IsZero, List.forall_mem_append, List.forall_mem_append,
      List.forall_mem_singleton, Bytes.field, toNat_eq_zero]
    exact and_congr_left' ih

/-! ## Loops -/

/-- Blocks are gone through until a test fails, which gives nothing, or less than a block is
left. -/
def blocks (width : ℕ) (test : ℕ → Bool) (len i : ℕ) : Option ℕ :=
  if 0 < width ∧ i + width ≤ len then
    if test i then blocks width test len (i + width) else none
  else some i
termination_by len - i

/-- If the test tells whether the bytes of a block are zero, the buffer is zero from a place on if
and only if the loop gets through from there and the rest is zero. -/
theorem elim_blocks {width : ℕ} {test : ℕ → Bool} {buf : Bytes}
    (htest : ∀ i, test i = true ↔ ∀ b ∈ (buf.drop i).take width, b = 0) (i : ℕ) :
    ((blocks width test buf.length i).elim false fun j => (buf.drop j).all (· = 0)) =
      (buf.drop i).all (· = 0) := by
  induction i using blocks.induct width test buf.length with
  | case1 i hblock hclear ih =>
    have hzero := (htest i).mp hclear
    rw [blocks, if_pos hblock, if_pos hclear, ih, Bool.eq_iff_iff, List.all_eq_true,
      List.all_eq_true]
    simp only [decide_eq_true_eq]
    rw [← List.take_append_drop width (buf.drop i), List.drop_drop]
    simp only [List.forall_mem_append]
    exact (and_iff_right hzero).symm
  | case2 i hblock hfails =>
    rw [blocks, if_pos hblock, if_neg hfails, Option.elim_none, eq_comm, ← Bool.not_eq_true,
      List.all_eq_true]
    simp only [decide_eq_true_eq]
    exact fun hall => hfails ((htest i).mpr fun b hb => hall b (List.mem_of_mem_take hb))
  | case3 i hlast =>
    rw [blocks, if_neg hlast, Option.elim_some]

end Simd
