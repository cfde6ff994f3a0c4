import Mathlib.Data.List.Basic
import Mathlib.Data.Set.Function
import Mathlib.Algebra.Order.Group.Nat
import Mathlib.Tactic.Common

/-!
# Chunks of a list, and writing into a list

A list in chunks of a fixed length, the last of which may be shorter; the chunks
determine the list. Writing at an offset replaces what is there, and fills the gap
if the list ends before it.
-/
namespace Chunks
variable {α : Type*}

/-- The number of chunks of a list of the given length. -/
def count (c n : ℕ) : ℕ := (n + c - 1) / c

/-- The `i`th chunk. -/
def chunk (c : ℕ) (l : List α) (i : ℕ) : List α := (l.drop (i * c)).take c

def chunks (c : ℕ) (l : List α) : List (List α) := (List.range (count c l.length)).map (chunk c l)

section
variable {c : ℕ}

theorem lt_count (hc : 0 < c) {n i : ℕ} : i < count c n ↔ i * c < n := by
  unfold count
  rw [Nat.lt_iff_add_one_le, Nat.le_div_iff_mul_le hc, Nat.succ_mul]
  omega

theorem length_chunk (c : ℕ) (l : List α) (i : ℕ) :
    (chunk c l i).length = min c (l.length - i * c) := by
  simp [chunk]

theorem length_chunks (c : ℕ) (l : List α) : (chunks c l).length = count c l.length := by
  simp [chunks]

theorem getElem?_chunks (hc : 0 < c) (l : List α) (i : ℕ) :
    (chunks c l)[i]? = if i * c < l.length then some (chunk c l i) else none := by
  unfold chunks
  rw [List.getElem?_map]
  split_ifs with h
  · rw [List.getElem?_range ((lt_count hc).mpr h), Option.map_some]
  · rw [List.getElem?_eq_none (by simpa using fun hi => h ((lt_count hc).mp hi)), Option.map_none]

/-- An element by its chunk. -/
theorem getElem?_chunk (hc : 0 < c) (l : List α) (p : ℕ) :
    (chunk c l (p / c))[p % c]? = l[p]? := by
  unfold chunk
  rw [List.getElem?_take_of_lt (Nat.mod_lt p hc), List.getElem?_drop, Nat.div_add_mod']

theorem chunks_nil (hc : 0 < c) : chunks c ([] : List α) = [] := by
  have : count c 0 = 0 := Nat.div_eq_of_lt (by omega)
  simp [chunks, this]

theorem chunks_cons (hc : 0 < c) {l : List α} (hl : l ≠ []) :
    chunks c l = l.take c :: chunks c (l.drop c) := by
  have hpos : 0 < l.length := List.length_pos_iff.mpr hl
  have hcount : count c l.length = count c (l.length - c) + 1 := by
    unfold count
    rcases Nat.lt_or_ge l.length c with h | h
    · have hone : (l.length + c - 1) / c = 1 := Nat.div_eq_of_lt_le (by omega) (by omega)
      rw [Nat.sub_eq_zero_of_le h.le, Nat.div_eq_of_lt (by omega : 0 + c - 1 < c), hone]
    · rw [← Nat.add_div_right _ hc]
      congr 1
      omega
  have hchunk : ∀ i, chunk c l (i + 1) = chunk c (l.drop c) i := by
    intro i
    unfold chunk
    rw [List.drop_drop, Nat.succ_mul, Nat.add_comm]
  unfold chunks
  rw [hcount, List.range_succ_eq_map, List.map_cons, List.map_map, List.length_drop]
  congr 1
  · simp [chunk]
  · exact List.map_congr_left fun i _ => hchunk i

/-- The chunks put together are the list. -/
theorem flatten_chunks (hc : 0 < c) (l : List α) : (chunks c l).flatten = l := by
  induction hn : l.length using Nat.strong_induction_on generalizing l with
  | h n ih =>
    by_cases hl : l = []
    · subst hl
      rw [chunks_nil hc, List.flatten_nil]
    · have hpos : 0 < l.length := List.length_pos_iff.mpr hl
      rw [chunks_cons hc hl, List.flatten_cons, ih _ (by rw [← hn]; simp; omega) _ rfl,
        List.take_append_drop]

/-- Blocks of one length can be told apart when they are put together. -/
theorem eq_of_flatten_eq {w : ℕ} (hw : 0 < w) {A B : List (List α)}
    (hA : ∀ x ∈ A, x.length = w) (hB : ∀ x ∈ B, x.length = w) (h : A.flatten = B.flatten) :
    A = B := by
  have hmap : ∀ L : List (List α), (∀ x ∈ L, x.length = w) →
      L.map List.length = List.replicate L.length w := by
    intro L hL
    refine List.eq_replicate_iff.mpr ⟨by simp, fun n hn => ?_⟩
    obtain ⟨x, hx, rfl⟩ := List.mem_map.mp hn
    exact hL x hx
  have hlen : A.length * w = B.length * w := by
    have := congrArg List.length h
    simpa [List.length_flatten, hmap A hA, hmap B hB] using this
  have hsame : A.length = B.length := Nat.eq_of_mul_eq_mul_right hw hlen
  exact List.eq_iff_flatten_eq.mpr ⟨h, by rw [hmap A hA, hmap B hB, hsame]⟩

theorem eq_of_map_eq {β : Type*} {f : α → β} {s : Set α} (hf : Set.InjOn f s) {A B : List α}
    (hA : ∀ x ∈ A, x ∈ s) (hB : ∀ x ∈ B, x ∈ s) (h : A.map f = B.map f) : A = B := by
  induction A generalizing B with
  | nil => exact (List.map_eq_nil_iff.mp h.symm).symm
  | cons a A ih =>
    cases B with
    | nil => simp at h
    | cons b B =>
      obtain ⟨hab, hrest⟩ := List.cons.inj h
      rw [hf (hA a (by simp)) (hB b (by simp)) hab,
        ih (fun x hx => hA x (by simp [hx])) (fun x hx => hB x (by simp [hx])) hrest]

theorem chunk_replicate (c n i : ℕ) (a : α) :
    chunk c (List.replicate n a) i = List.replicate (min c (n - i * c)) a := by
  simp [chunk]

end

/-! ## Writing -/

variable [Zero α]

/-- Writes `data` at an offset; nothing is written if there is nothing to write. -/
def write (off : ℕ) (data l : List α) : List α :=
  if data = [] then l
  else l.take off ++ List.replicate (off - l.length) 0 ++ data ++ l.drop (off + data.length)

theorem length_write (off : ℕ) (data l : List α) (hdata : data ≠ []) :
    (write off data l).length = max l.length (off + data.length) := by
  have := List.length_pos_iff.mpr hdata
  simp [write, hdata]
  omega

theorem le_length_write (off : ℕ) (data l : List α) : l.length ≤ (write off data l).length := by
  by_cases hdata : data = []
  · simp [write, hdata]
  · rw [length_write _ _ _ hdata]
    exact le_max_left _ _

/-- What is written can be read. -/
theorem getElem?_write {off p : ℕ} {data : List α} (l : List α) (h₁ : off ≤ p)
    (h₂ : p < off + data.length) : (write off data l)[p]? = data[p - off]? := by
  have hdata : data ≠ [] := by
    rintro rfl
    simp at h₂
    omega
  have hpre : (l.take off ++ List.replicate (off - l.length) 0).length = off := by
    simp
    omega
  rw [write, if_neg hdata, List.getElem?_append_left (by simp; omega),
    List.getElem?_append_right (by omega), hpre]

/-- What is not written stays. -/
theorem getElem?_write_of_not {off p : ℕ} {data l : List α} (h : p < off ∨ off + data.length ≤ p)
    (hp : p < l.length ∨ off + data.length ≤ p) : (write off data l)[p]? = l[p]? := by
  by_cases hdata : data = []
  · rw [write, if_pos hdata]
  rw [write, if_neg hdata]
  rcases h with h | h
  · have hlt : p < l.length := by omega
    rw [List.getElem?_append_left (by simp; omega), List.getElem?_append_left (by simp; omega),
      List.getElem?_append_left (by simp; omega), List.getElem?_take_of_lt h]
  · rw [List.getElem?_append_right (by simp; omega)]
    simp only [List.length_append, List.length_take, List.length_replicate]
    rw [List.getElem?_drop]
    congr 1
    omega

/-- A gap that has been filled reads as zeros, as what is behind the end does. -/
theorem getD_write (off p : ℕ) (data l : List α) :
    (write off data l)[p]?.getD 0 =
      if off ≤ p ∧ p < off + data.length then data[p - off]?.getD 0 else l[p]?.getD 0 := by
  by_cases hdata : data = []
  · rw [write, if_pos hdata, if_neg (by simp only [hdata, List.length_nil]; omega)]
  split_ifs with h
  · rw [getElem?_write l h.1 h.2]
  · by_cases hgap : p < l.length ∨ off + data.length ≤ p
    · rw [getElem?_write_of_not (by omega) hgap]
    · rw [write, if_neg hdata, List.getElem?_append_left (by simp; omega),
        List.getElem?_append_left (by simp; omega), List.getElem?_append_right (by simp; omega),
        List.getElem?_eq_none (by omega : l.length ≤ p), List.getElem?_replicate]
      split_ifs <;> rfl

/-- Two lists of one length that read alike are the same. -/
theorem eq_of_getD {l l' : List α} (hlength : l.length = l'.length)
    (h : ∀ p : ℕ, l[p]?.getD 0 = l'[p]?.getD 0) : l = l' := by
  refine List.ext_getElem hlength fun p hp hp' => ?_
  have hread := h p
  rwa [List.getElem?_eq_getElem hp, List.getElem?_eq_getElem hp'] at hread

theorem write_nil (off : ℕ) (l : List α) : write off [] l = l := if_pos rfl

/-- Writing in two parts. -/
theorem write_write (off : ℕ) (a b l : List α) :
    write (off + a.length) b (write off a l) = write off (a ++ b) l := by
  by_cases ha : a = []
  · simp [ha, write_nil]
  by_cases hb : b = []
  · simp [hb, write_nil]
  have hab : a ++ b ≠ [] := by simp [ha]
  refine eq_of_getD ?_ fun p => ?_
  · rw [length_write _ _ _ hb, length_write _ _ _ ha, length_write _ _ _ hab, List.length_append]
    omega
  · rw [getD_write, getD_write, getD_write, List.length_append]
    by_cases hsecond : off + a.length ≤ p ∧ p < off + a.length + b.length
    · rw [if_pos hsecond, if_pos (by omega), List.getElem?_append_right (by omega)]
      congr 2
      omega
    · rw [if_neg hsecond]
      by_cases hfirst : off ≤ p ∧ p < off + a.length
      · rw [if_pos hfirst, if_pos (by omega), List.getElem?_append_left (by omega)]
      · rw [if_neg hfirst, if_neg (by omega)]

end Chunks
