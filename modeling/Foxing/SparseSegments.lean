import Foxing.Lib.Bytes
import Mathlib.Tactic.SplitIfs
import Mathlib.Tactic.Common

/-!
# The segments of a sparse file

A file is stored in extents; what is between them are holes, which read as zeros. The segments of
a range are found by seeking for data and for holes in turn: they lie one behind the other, and a
hole among them is as long as the layout and the range allow.
-/
namespace Foxing

/-! ## Files with holes -/

/-- A file with its layout: the bytes that are in an extent. All others read as zero. -/
structure SparseFile where
  content : Bytes
  data : ℕ → Bool
  inside : ∀ i, data i = true → i < content.length
  zero : ∀ i, data i = false → content[i]?.getD 0 = 0

inductive SeekError where
  | enxio
  | other (errno : ℕ)
  deriving DecidableEq, Repr

/-- The two ways to seek in a file. -/
structure Seeks where
  seekData : ℕ → Except SeekError ℕ
  seekHole : ℕ → Except SeekError ℕ

namespace SparseFile
variable (f : SparseFile)

/-- Seeking in a file that does not change. Behind the last extent there is no data; the end of
the file is a hole. A position that is no file offset is behind the end of every file. -/
def seeks : Seeks where
  seekData off :=
    match (List.range' off (f.content.length - off)).find? f.data with
    | some i => .ok i
    | none => .error .enxio
  seekHole off :=
    if f.content.length ≤ off then .error .enxio
    else .ok (((List.range' off (f.content.length - off)).find? fun i => !f.data i).getD
      f.content.length)

variable {f} {off i : ℕ}

theorem seekData_ok (h : f.seeks.seekData off = .ok i) :
    off ≤ i ∧ f.data i = true ∧ ∀ j, off ≤ j → j < i → f.data j = false := by
  unfold seeks at h
  dsimp only at h
  split at h
  next k hk =>
    obtain rfl : k = i := Except.ok.inj h
    obtain ⟨hdata, hmem, hfirst⟩ := List.find?_range'_eq_some.mp hk
    refine ⟨(List.mem_range'_1.mp hmem).1, hdata, fun j hj hlt => ?_⟩
    simpa using hfirst j hj hlt
  next hk => cases h

theorem seekData_error {e : SeekError} (h : f.seeks.seekData off = .error e) :
    e = .enxio ∧ ∀ j, off ≤ j → f.data j = false := by
  unfold seeks at h
  dsimp only at h
  split at h
  next k hk => cases h
  next hk =>
    cases h
    refine ⟨rfl, fun j hj => ?_⟩
    by_contra hdata
    have hdata : f.data j = true := by simpa using hdata
    have hmem : j ∈ List.range' off (f.content.length - off) := by
      have := f.inside j hdata
      rw [List.mem_range'_1]
      omega
    exact List.find?_eq_none.mp hk j hmem hdata

/-- From data on, the next hole is found. -/
theorem seekHole_data (h : f.data off = true) :
    ∃ i, f.seeks.seekHole off = .ok i ∧ off < i ∧ ∀ j, off ≤ j → j < i → f.data j = true := by
  have hinside := f.inside off h
  unfold seeks
  dsimp only
  rw [if_neg (by omega)]
  cases hfind : (List.range' off (f.content.length - off)).find? fun i => !f.data i with
  | none =>
    refine ⟨f.content.length, rfl, hinside, fun j hj hlt => ?_⟩
    have hmem : j ∈ List.range' off (f.content.length - off) := by
      rw [List.mem_range'_1]
      omega
    simpa using List.find?_eq_none.mp hfind j hmem
  | some i =>
    obtain ⟨hhole, hmem, hfirst⟩ := List.find?_range'_eq_some.mp hfind
    refine ⟨i, rfl, ?_, fun j hj hlt => by simpa using hfirst j hj hlt⟩
    refine lt_of_le_of_ne (List.mem_range'_1.mp hmem).1 ?_
    rintro rfl
    simp [h] at hhole

end SparseFile

/-! ## The segments of a range -/

inductive FileSegment where
  | data (offset len : ℕ)
  | hole (offset len : ℕ)
  deriving DecidableEq, Repr

/-- The loop of `mapSparseSegments`, from an offset on. -/
def mapSparseFrom (s : Seeks) (endOffset : ℕ) : ℕ → ℕ → Except SeekError (List FileSegment)
  | 0, _ => .ok []
  | fuel + 1, currentOffset =>
    if endOffset ≤ currentOffset then .ok []
    else
      match s.seekData currentOffset with
      | .error .enxio => .ok [.hole currentOffset (endOffset - currentOffset)]
      | .error (.other errno) => .error (.other errno)
      | .ok dataOffset =>
        if endOffset ≤ dataOffset then .ok [.hole currentOffset (endOffset - currentOffset)]
        else
          let before := if currentOffset < dataOffset then
            [FileSegment.hole currentOffset (dataOffset - currentOffset)] else []
          let currentOffset := if currentOffset < dataOffset then dataOffset else currentOffset
          let holeOffset := match s.seekHole currentOffset with
            | .ok offset => offset
            | .error _ => endOffset
          let segmentLen := min holeOffset endOffset - currentOffset
          if 0 < segmentLen then
            (mapSparseFrom s endOffset fuel (currentOffset + segmentLen)).map fun rest =>
              before ++ .data currentOffset segmentLen :: rest
          -- the guard against a loop that does not get on
          else .ok before

def mapSparseSegments (s : Seeks) (offset length : ℕ) : Except SeekError (List FileSegment) :=
  mapSparseFrom s (offset + length) (length + 1) offset

/-- A hole of the file within a range, which is bounded by data or by the range. -/
structure HoleWithin (f : SparseFile) (start finish lo hi : ℕ) : Prop where
  lower : start ≤ lo
  nonempty : lo < hi
  upper : hi ≤ finish
  hole : ∀ i, lo ≤ i → i < hi → f.data i = false
  before : lo = start ∨ f.data (lo - 1) = true
  after : hi = finish ∨ f.data hi = true

/-- Segments that lie one behind the other up to the end of the range. -/
def Segmented (f : SparseFile) (start finish : ℕ) : ℕ → List FileSegment → Prop
  | current, [] => current = finish
  | current, .hole offset len :: rest =>
    offset = current ∧ HoleWithin f start finish offset (offset + len) ∧
      Segmented f start finish (offset + len) rest
  | current, .data offset len :: rest =>
    offset = current ∧ 0 < len ∧ offset + len ≤ finish ∧
      (∀ i, offset ≤ i → i < offset + len → f.data i = true) ∧
      Segmented f start finish (offset + len) rest

section Mapping
variable {f : SparseFile} {start finish current : ℕ}

/-- The rest of the range is one hole. -/
theorem segmented_rest (hstart : start ≤ current) (hlt : current < finish)
    (hbefore : current = start ∨ f.data (current - 1) = true)
    (hhole : ∀ i, current ≤ i → i < finish → f.data i = false) :
    Segmented f start finish current [.hole current (finish - current)] := by
  have hend : current + (finish - current) = finish := by omega
  refine ⟨rfl, ?_, hend⟩
  rw [hend]
  exact ⟨hstart, hlt, le_rfl, hhole, hbefore, .inl rfl⟩

/-- In a file that does not change the loop comes to the end of the range. -/
theorem mapSparseFrom_segmented {fuel : ℕ} (hfuel : finish - current < fuel)
    (hstart : start ≤ current) (hfinish : current ≤ finish)
    (hbefore : current = start ∨ f.data (current - 1) = true) :
    ∃ segments, mapSparseFrom f.seeks finish fuel current = .ok segments ∧
      Segmented f start finish current segments := by
  induction fuel generalizing current with
  | zero => omega
  | succ fuel ih =>
    unfold mapSparseFrom
    by_cases hend : finish ≤ current
    · rw [if_pos hend]
      exact ⟨[], rfl, by unfold Segmented; omega⟩
    rw [if_neg hend]
    cases hseek : f.seeks.seekData current with
    | error e =>
      obtain ⟨rfl, hnone⟩ := SparseFile.seekData_error hseek
      exact ⟨_, rfl, segmented_rest hstart (by omega) hbefore fun i hi _ => hnone i hi⟩
    | ok dataOffset =>
      obtain ⟨hle, hdata, hhole⟩ := SparseFile.seekData_ok hseek
      dsimp only
      by_cases hbehind : finish ≤ dataOffset
      · rw [if_pos hbehind]
        exact ⟨_, rfl, segmented_rest hstart (by omega) hbefore
          fun i hi hlt => hhole i hi (by omega)⟩
      rw [if_neg hbehind]
      have hnext : (if current < dataOffset then dataOffset else current) = dataOffset := by
        split_ifs <;> omega
      obtain ⟨holeOffset, hseekHole, hgt, hextent⟩ := SparseFile.seekHole_data hdata
      simp only [hnext, hseekHole]
      rw [if_pos (by omega)]
      have hmid : dataOffset + (min holeOffset finish - dataOffset) = min holeOffset finish := by
        omega
      have hless : finish - min holeOffset finish < fuel := by omega
      obtain ⟨rest, hrest, hsegmented⟩ := ih hless (by omega) (by omega)
        (.inr (hextent _ (by omega) (by omega)))
      have hsegment : Segmented f start finish dataOffset
          (.data dataOffset (min holeOffset finish - dataOffset) :: rest) := by
        refine ⟨rfl, by omega, by omega, fun i hi hlt => hextent i hi (by omega), ?_⟩
        rw [hmid]
        exact hsegmented
      rw [hmid, hrest]
      refine ⟨_, rfl, ?_⟩
      by_cases hlt : current < dataOffset
      · rw [if_pos hlt]
        have hgap : current + (dataOffset - current) = dataOffset := by omega
        refine ⟨rfl, ?_, ?_⟩
        · rw [hgap]
          exact ⟨hstart, hlt, by omega, hhole, hbefore, .inr hdata⟩
        · rw [hgap]
          exact hsegment
      · rw [if_neg hlt]
        obtain rfl : dataOffset = current := by omega
        exact hsegment

/-- The segments of a range are found, and they are those of the layout. -/
theorem mapSparseSegments_segmented (f : SparseFile) (offset length : ℕ) :
    ∃ segments, mapSparseSegments f.seeks offset length = .ok segments ∧
      Segmented f offset (offset + length) offset segments :=
  mapSparseFrom_segmented (by omega) le_rfl (by omega) (.inl rfl)

/-! ### The tiling -/

/-- Every turn of the loop gets on, so that it makes no difference how many turns more it has. -/
theorem mapSparseFrom_succ (s : Seeks) {fuel : ℕ} (hfuel : finish - current < fuel) :
    mapSparseFrom s finish (fuel + 1) current = mapSparseFrom s finish fuel current := by
  induction fuel generalizing current with
  | zero => omega
  | succ fuel ih =>
    rw [mapSparseFrom, mapSparseFrom]
    by_cases hend : finish ≤ current
    · rw [if_pos hend, if_pos hend]
    rw [if_neg hend, if_neg hend]
    cases s.seekData current with
    | error e => cases e <;> rfl
    | ok dataOffset =>
      dsimp only
      by_cases hbehind : finish ≤ dataOffset
      · rw [if_pos hbehind, if_pos hbehind]
      rw [if_neg hbehind, if_neg hbehind]
      generalize hnext : (if current < dataOffset then dataOffset else current) = next
      have hle : current ≤ next := by
        rw [← hnext]
        split_ifs <;> omega
      generalize min _ finish - next = segmentLen
      by_cases hpos : 0 < segmentLen
      · rw [if_pos hpos, if_pos hpos, ih (by omega)]
      · rw [if_neg hpos, if_neg hpos]

theorem mapSparseFrom_of_lt (s : Seeks) {fuel fuel' : ℕ} (hfuel : finish - current < fuel)
    (hle : fuel ≤ fuel') :
    mapSparseFrom s finish fuel' current = mapSparseFrom s finish fuel current := by
  induction hle with
  | refl => rfl
  | step hle ih => rw [mapSparseFrom_succ s (lt_of_lt_of_le hfuel hle), ih]

namespace FileSegment

def offset : FileSegment → ℕ
  | .data offset _ => offset
  | .hole offset _ => offset

def len : FileSegment → ℕ
  | .data _ len => len
  | .hole _ len => len

/-- The bytes of a data segment. -/
def HasData (i : ℕ) : FileSegment → Prop
  | .data offset len => offset ≤ i ∧ i < offset + len
  | .hole _ _ => False

end FileSegment

/-- Segments that are not empty, one behind the other, from one offset to another. -/
def Adjacent (finish : ℕ) : ℕ → List FileSegment → Prop
  | current, [] => current = finish
  | current, segment :: rest =>
    segment.offset = current ∧ 0 < segment.len ∧ Adjacent finish (current + segment.len) rest

/-- The segments tile a range, and what is in no data segment reads as zero. -/
structure Tiles (f : SparseFile) (start finish : ℕ) (segments : List FileSegment) : Prop where
  adjacent : Adjacent finish start segments
  zero : ∀ i, start ≤ i → i < finish → (∀ segment ∈ segments, ¬ segment.HasData i) →
    f.content[i]?.getD 0 = 0

theorem Segmented.adjacent {segments : List FileSegment}
    (h : Segmented f start finish current segments) : Adjacent finish current segments := by
  induction segments generalizing current with
  | nil => exact h
  | cons segment rest ih =>
    cases segment with
    | hole offset len =>
      obtain ⟨rfl, hhole, hrest⟩ := h
      have := hhole.nonempty
      exact ⟨rfl, show 0 < len by omega, ih hrest⟩
    | data offset len =>
      obtain ⟨rfl, hpos, -, -, hrest⟩ := h
      exact ⟨rfl, hpos, ih hrest⟩

/-- What is in an extent is in a data segment. -/
theorem Segmented.hole_of_not_data {segments : List FileSegment}
    (h : Segmented f start finish current segments) {i : ℕ} (hi : current ≤ i) (hlt : i < finish)
    (hnone : ∀ segment ∈ segments, ¬ segment.HasData i) : f.data i = false := by
  induction segments generalizing current with
  | nil =>
    obtain rfl : current = finish := h
    omega
  | cons segment rest ih =>
    have hrest := fun segment hmem => hnone segment (List.mem_cons_of_mem _ hmem)
    cases segment with
    | hole offset len =>
      obtain ⟨rfl, hhole, hsegmented⟩ := h
      by_cases hin : i < offset + len
      · exact hhole.hole i hi hin
      · exact ih hsegmented (by omega) hrest
    | data offset len =>
      obtain ⟨rfl, -, -, -, hsegmented⟩ := h
      by_cases hin : i < offset + len
      · exact absurd ⟨hi, hin⟩ (hnone _ List.mem_cons_self)
      · exact ih hsegmented (by omega) hrest

/-- The loop comes to an end, with segments that tile the range. -/
theorem mapSparseSegments_tiles (f : SparseFile) (offset length : ℕ) :
    ∃ segments, mapSparseSegments f.seeks offset length = .ok segments ∧
      (∀ fuel, length < fuel →
        mapSparseFrom f.seeks (offset + length) fuel offset = .ok segments) ∧
      Tiles f offset (offset + length) segments := by
  obtain ⟨segments, hmap, hsegmented⟩ := mapSparseSegments_segmented f offset length
  refine ⟨segments, hmap, fun fuel hfuel => ?_, hsegmented.adjacent, fun i hi hlt hnone => ?_⟩
  · have hleft : offset + length - offset < length + 1 := by omega
    rw [mapSparseFrom_of_lt f.seeks hleft hfuel]
    exact hmap
  · exact f.zero i (hsegmented.hole_of_not_data hi hlt hnone)

/-- A byte is in one hole of the range at most. -/
theorem HoleWithin.unique {lo hi lo' hi' i : ℕ} (h : HoleWithin f start finish lo hi)
    (h' : HoleWithin f start finish lo' hi') (hi₁ : lo ≤ i ∧ i < hi) (hi₂ : lo' ≤ i ∧ i < hi') :
    lo = lo' ∧ hi = hi' := by
  -- a hole that began further on would begin behind data that is in the other one
  have hlower : ∀ {a b c d : ℕ}, HoleWithin f start finish a b → HoleWithin f start finish c d →
      c ≤ i → i < b → c ≤ a := by
    intro a b c d hab hcd hc hb
    by_contra hlt
    have := hab.lower
    rcases hcd.before with hstart | hdata
    · omega
    · rw [hab.hole (c - 1) (by omega) (by omega)] at hdata
      cases hdata
  have hupper : ∀ {a b c d : ℕ}, HoleWithin f start finish a b → HoleWithin f start finish c d →
      a ≤ i → i < d → b ≤ d := by
    intro a b c d hab hcd ha hd
    by_contra hlt
    have := hab.upper
    rcases hcd.after with hfinish | hdata
    · omega
    · rw [hab.hole d (by omega) (by omega)] at hdata
      cases hdata
  exact ⟨le_antisymm (hlower h' h hi₁.1 hi₂.2) (hlower h h' hi₂.1 hi₁.2),
    le_antisymm (hupper h h' hi₁.1 hi₂.2) (hupper h' h hi₂.1 hi₁.2)⟩

end Mapping

end Foxing
