import Foxing.Chunker
import Foxing.Lib.Cuts
import Foxing.Lib.Reads

/-!
# The boundaries of chunks

The boundaries cut the data into chunks of bounded lengths. Behind a boundary the scan goes
on as it begins, so that what lies behind is cut no matter what came before.
-/
namespace Foxing
open Cuts

/-- A chunk with its hash. -/
structure Chunk (Hash : Type) where
  data : Bytes
  hash : Hash
  deriving DecidableEq, Repr

section Chunking
variable {Hash ε : Type} (blake3 : Bytes → Hash) (c : GearChunker)

def Chunk.of (slice : Bytes) : Chunk Hash := ⟨slice, blake3 slice⟩

def GearChunker.chunkSlice (data : Bytes) : List (Chunk Hash) :=
  if data = [] then []
  else (slicesFrom data 0 (c.findBoundaries data)).map (Chunk.of blake3)

/-- All is read before it is cut. -/
def GearChunker.chunkReader (reads : List (Except ε Bytes)) : Except ε (List (Chunk Hash)) := do
  let buf ← Reads.run (· ++ ·) [] reads
  if buf = [] then return []
  return (slicesFrom buf 0 (c.findBoundaries buf)).map (Chunk.of blake3)

end Chunking

theorem slicesFrom_eq_pieces (data : Bytes) (start : ℕ) (ps : List ℕ) :
    slicesFrom data start ps = pieces data start ps := by
  induction ps generalizing start with
  | nil => rfl
  | cons p ps ih => rw [slicesFrom, pieces, ih]

namespace GearChunker
variable (c : GearChunker)

/-! ## The lengths of the chunks -/

theorem tiles_boundariesFrom (i start hash : ℕ) (bs : Bytes) (hle : start ≤ i) :
    Tiles start (i + bs.length) (c.boundariesFrom i start hash bs) := by
  induction bs generalizing i start hash with
  | nil =>
    rw [boundariesFrom]
    split_ifs with h
    · exact ⟨h, rfl⟩
    · exact Nat.le_antisymm hle (Nat.le_of_not_lt h)
  | cons b bs ih =>
    have hlength : i + (b :: bs).length = i + 1 + bs.length := by
      rw [List.length_cons]
      omega
    rw [boundariesFrom, hlength]
    split_ifs with h
    · exact ⟨by omega, ih (i + 1) (i + 1) 0 le_rfl⟩
    · exact ih (i + 1) start _ (by omega)

theorem tiles_findBoundaries (data : Bytes) : Tiles 0 data.length (c.findBoundaries data) := by
  have htiles := c.tiles_boundariesFrom 0 0 0 data le_rfl
  rwa [Nat.zero_add] at htiles

/-- A chunk is cut where it is long enough, and at the latest at the maximum. -/
theorem gaps_boundariesFrom (hmax : c.min ≤ c.max) (i start hash : ℕ) (bs : Bytes) (hle : start ≤ i)
    (hlen : i - start < c.max) :
    (∀ gap ∈ gaps start (c.boundariesFrom i start hash bs), gap ≤ c.max) ∧
      ∀ gap ∈ (gaps start (c.boundariesFrom i start hash bs)).dropLast, c.min ≤ gap := by
  induction bs generalizing i start hash with
  | nil =>
    rw [boundariesFrom]
    split_ifs with h
    · exact ⟨by simpa [gaps] using hlen.le, by simp [gaps]⟩
    · simp [gaps]
  | cons b bs ih =>
    rw [boundariesFrom]
    split_ifs with h
    · obtain ⟨hupper, hlower⟩ := ih (i + 1) (i + 1) 0 le_rfl (by omega)
      rw [gaps]
      refine ⟨List.forall_mem_cons.mpr ⟨by omega, hupper⟩, ?_⟩
      intro gap hgap
      cases hrest : gaps (i + 1) (c.boundariesFrom (i + 1) (i + 1) 0 bs) with
      | nil =>
        rw [hrest] at hgap
        cases hgap
      | cons g gs =>
        rw [hrest, List.dropLast_cons_cons] at hgap
        rw [hrest] at hlower
        rcases List.mem_cons.mp hgap with rfl | hgap
        · omega
        · exact hlower gap hgap
    · exact ih (i + 1) start _ (by omega) (by omega)

/-! ## Behind a cut -/

/-- The scan does not depend on where in the data it is. -/
theorem boundariesFrom_shift (k i start hash : ℕ) (bs : Bytes) :
    c.boundariesFrom (k + i) (k + start) hash bs =
      (c.boundariesFrom i start hash bs).map (k + ·) := by
  induction bs generalizing i start hash with
  | nil =>
    rw [boundariesFrom, boundariesFrom]
    by_cases h : start < i
    · rw [if_pos h, if_pos (by omega)]
      rfl
    · rw [if_neg h, if_neg (by omega)]
      rfl
  | cons b bs ih =>
    rw [boundariesFrom, boundariesFrom]
    simp only [Nat.add_sub_add_left, Nat.add_assoc k i 1]
    split_ifs with h
    · rw [List.map_cons, ih]
    · rw [ih]

theorem le_of_mem_boundariesFrom {i start hash p : ℕ} {bs : Bytes}
    (hp : p ∈ c.boundariesFrom i start hash bs) : i ≤ p := by
  induction bs generalizing i start hash with
  | nil =>
    rw [boundariesFrom] at hp
    split_ifs at hp
    · exact (List.mem_singleton.mp hp).ge
    · cases hp
  | cons b bs ih =>
    rw [boundariesFrom] at hp
    split_ifs at hp
    · rcases List.mem_cons.mp hp with rfl | hp
      · exact Nat.le_succ i
      · exact (Nat.le_succ i).trans (ih hp)
    · exact (Nat.le_succ i).trans (ih hp)

theorem lt_of_mem_boundariesFrom {i start hash p : ℕ} {b : Fin 256} {bs : Bytes}
    (hp : p ∈ c.boundariesFrom i start hash (b :: bs)) : i < p := by
  rw [boundariesFrom] at hp
  split_ifs at hp
  · rcases List.mem_cons.mp hp with rfl | hp
    · exact Nat.lt_succ_self i
    · exact c.le_of_mem_boundariesFrom hp
  · exact c.le_of_mem_boundariesFrom hp

/-- The scan that has just cut at `p` is the scan of what lies behind `p`. -/
theorem boundariesFrom_append (i start hash : ℕ) (u w : Bytes) (hle : start ≤ i)
    (hreset : start = i → hash = 0)
    (hp : i + u.length ∈ start :: c.boundariesFrom i start hash (u ++ w)) :
    ∃ before, c.boundariesFrom i start hash (u ++ w) =
        before ++ c.boundariesFrom (i + u.length) (i + u.length) 0 w ∧
      Tiles start (i + u.length) before := by
  induction u generalizing i start hash with
  | nil =>
    rw [List.nil_append, List.length_nil, Nat.add_zero] at hp ⊢
    rcases List.mem_cons.mp hp with heq | hp
    · refine ⟨[], ?_, heq.symm⟩
      rw [List.nil_append, hreset heq.symm, ← heq]
    · cases w with
      | nil =>
        refine ⟨[i], ?_, ?_, rfl⟩
        · rw [boundariesFrom] at hp ⊢
          split_ifs at hp ⊢ with h
          · simp [boundariesFrom]
          · cases hp
        · rw [boundariesFrom] at hp
          split_ifs at hp with h
          · exact h
          · cases hp
      | cons b w => exact absurd (c.lt_of_mem_boundariesFrom hp) (lt_irrefl i)
  | cons b u ih =>
    have hlength : i + (b :: u).length = i + 1 + u.length := by
      rw [List.length_cons]
      omega
    rw [hlength] at hp ⊢
    rw [List.cons_append, boundariesFrom] at hp ⊢
    have hne : i + 1 + u.length ≠ start := by omega
    replace hp := (List.mem_cons.mp hp).resolve_left hne
    split_ifs at hp ⊢ with h
    · obtain ⟨before, heq, htiles⟩ := ih (i + 1) (i + 1) 0 le_rfl (fun _ => rfl) hp
      refine ⟨(i + 1) :: before, ?_, by omega, htiles⟩
      rw [heq, List.cons_append]
    · exact ih (i + 1) start _ (by omega) (fun hstart => absurd hstart (by omega))
        (List.mem_cons_of_mem _ hp)

/-- Behind a boundary the boundaries are those of the data behind it. -/
theorem findBoundaries_append {u w : Bytes} (hu : u.length ∈ c.findBoundaries (u ++ w)) :
    ∃ before, c.findBoundaries (u ++ w) = before ++ (c.findBoundaries w).map (u.length + ·) ∧
      Tiles 0 u.length before := by
  have hp : 0 + u.length ∈ 0 :: c.boundariesFrom 0 0 0 (u ++ w) := by
    rw [Nat.zero_add]
    exact List.mem_cons_of_mem _ hu
  obtain ⟨before, heq, htiles⟩ := c.boundariesFrom_append 0 0 0 u w le_rfl (fun _ => rfl) hp
  rw [Nat.zero_add] at heq htiles
  refine ⟨before, ?_, htiles⟩
  rw [findBoundaries, heq, findBoundaries, ← c.boundariesFrom_shift u.length 0 0 0 w, Nat.add_zero]

section Chunks
variable {Hash ε : Type} (blake3 : Bytes → Hash)

theorem chunkSlice_eq (data : Bytes) :
    c.chunkSlice blake3 data = (pieces data 0 (c.findBoundaries data)).map (Chunk.of blake3) := by
  rw [chunkSlice, slicesFrom_eq_pieces]
  split_ifs with h
  · subst h
    rfl
  · rfl

theorem map_data_of (slices : List Bytes) : (slices.map (Chunk.of blake3)).map Chunk.data = slices := by
  rw [List.map_map]
  exact List.map_id slices

theorem map_data_chunkSlice (data : Bytes) :
    (c.chunkSlice blake3 data).map Chunk.data = pieces data 0 (c.findBoundaries data) := by
  rw [chunkSlice_eq, map_data_of]

/-- The chunks behind a boundary are those of the data behind it. -/
theorem chunkSlice_append {u w : Bytes} (hu : u.length ∈ c.findBoundaries (u ++ w)) :
    ∃ before, c.chunkSlice blake3 (u ++ w) = before ++ c.chunkSlice blake3 w ∧
      (before.map Chunk.data).flatten = u := by
  obtain ⟨before, heq, htiles⟩ := c.findBoundaries_append hu
  refine ⟨(pieces (u ++ w) 0 before).map (Chunk.of blake3), ?_, ?_⟩
  · have hrest := pieces_drop (l := w) u 0 (c.findBoundaries w)
    rw [Nat.add_zero] at hrest
    rw [chunkSlice_eq, chunkSlice_eq, heq, pieces_append htiles, hrest, List.map_append]
  · rw [map_data_of, pieces_take htiles le_rfl, flatten_pieces htiles, List.drop_zero]

theorem chunkReader_eq {reads : List Bytes} {data : Bytes} (h : Reads.Delivers reads data) :
    c.chunkReader blake3 (reads.map (Except.ok (ε := ε))) = .ok (c.chunkSlice blake3 data) := by
  rw [chunkReader, Reads.run_append h, chunkSlice]
  by_cases h : data = []
  · subst h
    rfl
  · rw [if_neg h]
    exact if_neg h

/-- All chunks are at most as long as the maximum, and all but the last one at least as long as
the minimum. -/
theorem length_chunkSlice (hmax : c.min ≤ c.max) (hpos : 0 < c.max) (data : Bytes) :
    (∀ chunk ∈ c.chunkSlice blake3 data, chunk.data.length ≤ c.max) ∧
      ∀ chunk ∈ (c.chunkSlice blake3 data).dropLast, c.min ≤ chunk.data.length := by
  obtain ⟨hupper, hlower⟩ := c.gaps_boundariesFrom hmax 0 0 0 data le_rfl (by omega)
  have hlengths : gaps 0 (c.findBoundaries data) =
      (c.chunkSlice blake3 data).map fun chunk => chunk.data.length := by
    rw [← length_pieces le_rfl (c.tiles_findBoundaries data), ← map_data_chunkSlice c blake3,
      List.map_map]
    rfl
  rw [← findBoundaries, hlengths] at hupper hlower
  rw [← List.map_dropLast] at hlower
  constructor
  · intro chunk hchunk
    exact hupper _ (List.mem_map_of_mem hchunk)
  · intro chunk hchunk
    exact hlower _ (List.mem_map_of_mem hchunk)

/-- The chunks partition the data within the bounds, and it does not matter in which pieces the
data has been read. -/
theorem chunking_partitions (hmin : 0 < c.min) (havg : c.min ≤ c.avg) (hmax : c.avg ≤ c.max)
    {data : Bytes} {reads : List Bytes} (hreads : Reads.Delivers reads data) :
    (c.findBoundaries data).Pairwise (· < ·) ∧
      (c.findBoundaries data).getLast? = (if data = [] then none else some data.length) ∧
      (∀ chunk ∈ (c.chunkSlice blake3 data).dropLast,
        c.min ≤ chunk.data.length ∧ chunk.data.length ≤ c.max) ∧
      (∀ chunk ∈ c.chunkSlice blake3 data, chunk.data.length ≤ c.max) ∧
      ((c.chunkSlice blake3 data).map Chunk.data).flatten = data ∧
      (∀ chunk ∈ c.chunkSlice blake3 data, chunk.hash = blake3 chunk.data) ∧
      c.chunkReader blake3 (reads.map (Except.ok (ε := ε))) = .ok (c.chunkSlice blake3 data) := by
  have htiles := c.tiles_findBoundaries data
  have hle : c.min ≤ c.max := havg.trans hmax
  obtain ⟨hupper, hlower⟩ := c.length_chunkSlice blake3 hle (by omega) data
  refine ⟨htiles.pairwise, ?_, ?_, hupper, ?_, ?_, c.chunkReader_eq blake3 hreads⟩
  · rw [htiles.getLast?]
    simp only [eq_comm (a := 0), List.length_eq_zero_iff]
  · intro chunk hchunk
    exact ⟨hlower chunk hchunk, hupper chunk (List.dropLast_subset _ hchunk)⟩
  · rw [map_data_chunkSlice, flatten_pieces htiles, List.drop_zero]
  · intro chunk hchunk
    rw [chunkSlice_eq] at hchunk
    obtain ⟨slice, -, rfl⟩ := List.mem_map.mp hchunk
    rfl

example : (⟨2, 2, 3⟩ : GearChunker).findBoundaries [7, 1, 2, 3, 4, 5, 9, 1] = [3, 5, 7, 8] := by
  decide +kernel

theorem eightBytes_partitioned :
    (⟨2, 2, 3⟩ : GearChunker).chunkReader id ([[7, 1, 2], [3, 4, 5, 9, 1]].map
        (Except.ok (ε := Unit))) =
      .ok [⟨[7, 1, 2], [7, 1, 2]⟩, ⟨[3, 4], [3, 4]⟩, ⟨[5, 9], [5, 9]⟩, ⟨[1], [1]⟩] := by
  have hreads : Reads.Delivers [[7, 1, 2], [3, 4, 5, 9, 1]] ([7, 1, 2, 3, 4, 5, 9, 1] : Bytes) :=
    ⟨by decide, rfl⟩
  obtain ⟨-, -, -, -, -, -, hread⟩ := chunking_partitions (ε := Unit) ⟨2, 2, 3⟩ id (by decide)
    (by decide) (by decide) hreads
  rw [hread]
  decide +kernel

/-- What lies behind a boundary is cut the same, whatever lies before it. -/
theorem chunking_resynchronizes {u v w : Bytes} (hu : u.length ∈ c.findBoundaries (u ++ w))
    (hv : v.length ∈ c.findBoundaries (v ++ w)) :
    (c.findBoundaries (u ++ w)).filter (u.length < ·) =
        (c.findBoundaries w).map (u.length + ·) ∧
      ∃ before before' after, c.chunkSlice blake3 (u ++ w) = before ++ after ∧
        c.chunkSlice blake3 (v ++ w) = before' ++ after ∧
        (before.map Chunk.data).flatten = u ∧ (before'.map Chunk.data).flatten = v := by
  constructor
  · obtain ⟨before, heq, htiles⟩ := c.findBoundaries_append hu
    rw [heq]
    exact htiles.filter_append ((c.tiles_findBoundaries w).shift u.length)
  · obtain ⟨before, heq, hflat⟩ := c.chunkSlice_append blake3 hu
    obtain ⟨before', heq', hflat'⟩ := c.chunkSlice_append blake3 hv
    exact ⟨before, before', c.chunkSlice blake3 w, heq, heq', hflat, hflat'⟩

theorem twoPrefixes_resynchronize :
    ∃ before before' after,
      (⟨2, 2, 3⟩ : GearChunker).chunkSlice id [7, 1, 2, 3, 4, 5, 9, 1] = before ++ after ∧
        (⟨2, 2, 3⟩ : GearChunker).chunkSlice id [1, 7, 3, 4, 5, 9, 1] = before' ++ after ∧
        (before.map Chunk.data).flatten = [7, 1, 2] ∧ (before'.map Chunk.data).flatten = [1, 7] :=
  (chunking_resynchronizes ⟨2, 2, 3⟩ id (u := [7, 1, 2]) (v := [1, 7]) (w := [3, 4, 5, 9, 1])
    (by decide +kernel) (by decide +kernel)).2

end Chunks

end GearChunker

end Foxing
