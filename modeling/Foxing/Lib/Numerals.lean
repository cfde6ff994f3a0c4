import Mathlib.Data.List.Lex
import Mathlib.Data.Char
import Mathlib.Tactic.IntervalCases

/-!
# Numerals of a fixed width

Numerals of one width are in the order of the numbers. Lists that begin with parts of
one length are in the order of these parts, and where those agree in that of the rest:
so are texts that are made of several numerals.
-/
namespace Foxing.Numerals

theorem append_lt_append_iff {α : Type*} [LinearOrder α] {a a' b b' : List α}
    (h : a.length = a'.length) : a ++ b < a' ++ b' ↔ a < a' ∨ a = a' ∧ b < b' := by
  induction a generalizing a' with
  | nil =>
    obtain rfl := List.length_eq_zero_iff.mp h.symm
    simp
  | cons x a ih =>
    cases a' with
    | nil => cases h
    | cons x' a' =>
      rw [List.cons_append, List.cons_append, List.cons_lt_cons_iff, List.cons_lt_cons_iff,
        ih (Nat.succ.inj h), List.cons.injEq]
      tauto

def digit (n : ℕ) : Char := Char.ofNat (48 + n % 10)

theorem val_digit (n : ℕ) : (digit n).toNat = 48 + n % 10 := by
  have hlt := Nat.mod_lt n (Nat.succ_pos 9)
  rw [digit]
  interval_cases n % 10 <;> rfl

theorem digit_lt_iff {n m : ℕ} : digit n < digit m ↔ n % 10 < m % 10 := by
  have h : digit n < digit m ↔ (digit n).toNat < (digit m).toNat := Iff.rfl
  rw [h, val_digit, val_digit]
  omega

theorem digit_lt_of {c : Char} (h : 57 < c.toNat) (n : ℕ) : digit n < c := by
  have hlt : digit n < c ↔ (digit n).toNat < c.toNat := Iff.rfl
  rw [hlt, val_digit]
  omega

theorem isDigit_digit (n : ℕ) : (digit n).isDigit = true := by
  have hlt := Nat.mod_lt n (Nat.succ_pos 9)
  rw [digit]
  interval_cases n % 10 <;> rfl

/-- The last digits of a number. -/
def padded : ℕ → ℕ → List Char
  | 0, _ => []
  | w + 1, n => padded w (n / 10) ++ [digit n]

@[simp] theorem length_padded (w n : ℕ) : (padded w n).length = w := by
  induction w generalizing n with
  | zero => rfl
  | succ w ih => rw [padded, List.length_append, ih, List.length_singleton]

theorem padded_lt_iff {w n m : ℕ} (hn : n < 10 ^ w) (hm : m < 10 ^ w) :
    padded w n < padded w m ↔ n < m := by
  induction w generalizing n m with
  | zero =>
    rw [Nat.pow_zero, Nat.lt_one_iff] at hn hm
    simp [padded, hn, hm]
  | succ w ih =>
    rw [Nat.pow_succ] at hn hm
    have hlt := @ih (n / 10) (m / 10) (by omega) (by omega)
    have hgt := @ih (m / 10) (n / 10) (by omega) (by omega)
    have heq : padded w (n / 10) = padded w (m / 10) ↔ n / 10 = m / 10 := by
      refine ⟨fun h => ?_, fun h => by rw [h]⟩
      rw [h] at hlt hgt
      have hirrefl := lt_irrefl (padded w (m / 10))
      exact le_antisymm (not_lt.mp (hgt.not.mp hirrefl)) (not_lt.mp (hlt.not.mp hirrefl))
    rw [padded, padded, append_lt_append_iff (by simp), hlt, heq, List.cons_lt_cons_iff,
      digit_lt_iff]
    simp only [List.not_lt_nil, and_false, or_false]
    omega

theorem padded_inj {w n m : ℕ} (hn : n < 10 ^ w) (hm : m < 10 ^ w) :
    padded w n = padded w m ↔ n = m := by
  refine ⟨fun h => ?_, fun h => by rw [h]⟩
  have hlt := padded_lt_iff hn hm
  have hgt := padded_lt_iff hm hn
  rw [h] at hlt hgt
  have hirrefl := lt_irrefl (padded w m)
  exact le_antisymm (not_lt.mp (hgt.not.mp hirrefl)) (not_lt.mp (hlt.not.mp hirrefl))

theorem isDigit_of_mem_padded {w n : ℕ} {c : Char} (h : c ∈ padded w n) : c.isDigit = true := by
  induction w generalizing n with
  | zero => cases h
  | succ w ih =>
    rw [padded, List.mem_append, List.mem_singleton] at h
    rcases h with h | rfl
    · exact ih h
    · exact isDigit_digit n

/-! ## Texts made of numerals -/

/-- Two texts of one length are in the order of two numbers. -/
structure Tracks (n n' : ℕ) (l l' : List Char) : Prop where
  length : l.length = l'.length
  lt : l < l' ↔ n < n'
  eq : l = l' ↔ n = n'

section Tracks
variable {n n' k k' : ℕ} {l l' m m' : List Char}

theorem tracks_padded {w : ℕ} (hn : n < 10 ^ w) (hn' : n' < 10 ^ w) :
    Tracks n n' (padded w n) (padded w n') :=
  ⟨by simp, padded_lt_iff hn hn', padded_inj hn hn'⟩

theorem Tracks.cons (h : Tracks n n' l l') (c : Char) : Tracks n n' (c :: l) (c :: l') := by
  refine ⟨by simp [h.length], ?_, by simp [h.eq]⟩
  rw [List.cons_lt_cons_iff, h.lt]
  simp

theorem Tracks.append (h : Tracks n n' l l') (hm : Tracks k k' m m') {b : ℕ} (hk : k < b)
    (hk' : k' < b) : Tracks (n * b + k) (n' * b + k') (l ++ m) (l' ++ m') := by
  have hlt : n * b + k < n' * b + k' ↔ n < n' ∨ n = n' ∧ k < k' := by
    rcases lt_trichotomy n n' with hn | rfl | hn
    · have := Nat.mul_le_mul_right b (Nat.succ_le_of_lt hn)
      rw [Nat.succ_mul] at this
      omega
    · omega
    · have := Nat.mul_le_mul_right b (Nat.succ_le_of_lt hn)
      rw [Nat.succ_mul] at this
      omega
  have heq : n * b + k = n' * b + k' ↔ n = n' ∧ k = k' := by
    constructor
    · intro hsum
      rcases lt_trichotomy n n' with hn | rfl | hn
      · exact absurd hsum (hlt.mpr (.inl hn)).ne
      · exact ⟨rfl, by omega⟩
      · have := Nat.mul_le_mul_right b (Nat.succ_le_of_lt hn)
        rw [Nat.succ_mul] at this
        omega
    · rintro ⟨rfl, rfl⟩
      rfl
  refine ⟨by simp [h.length, hm.length], ?_, ?_⟩
  · rw [append_lt_append_iff h.length, h.lt, h.eq, hm.lt, hlt]
  · rw [heq, ← h.eq, ← hm.eq]
    refine ⟨fun happ => List.append_inj happ h.length, ?_⟩
    rintro ⟨rfl, rfl⟩
    rfl

theorem Tracks.append_right (h : Tracks n n' l l') (m : List Char) :
    Tracks n n' (l ++ m) (l' ++ m) := by
  refine ⟨by simp [h.length], ?_, by simp [h.eq]⟩
  rw [append_lt_append_iff h.length, h.lt]
  simp

end Tracks

end Foxing.Numerals
