import Foxing.Lib.Chunks
import Foxing.SparseSegments

/-!
# Copies of a range

A range of a file is copied into a file that is there: the data of the source is written to its
place, and holes are punched. Small holes are passed over, and whether a hole could be punched is
not asked: neither the result of the operation is looked at nor is it waited for.

That a segment of data is copied with all its bytes, where its copy succeeds, is taken for
granted here: after a short read, for one, it succeeds as well. What an error leaves in the
destination is not told.
-/
namespace Foxing

/-- Reads as zero from now on, as far as the file goes. -/
def punchHole (offset len : ℕ) (b : Bytes) : Bytes :=
  b.mapIdx fun i x => if offset ≤ i ∧ i < offset + len then 0 else x

/-- What happens to the operations of a copy; segments are named by their offsets. -/
structure RangeOutcome where
  /-- Both files could be opened. -/
  opened : Bool
  /-- What a reflink of the range leaves, if there is one and it succeeds. -/
  reflinked : Option Bytes
  /-- The source can be asked for its holes. -/
  seekHole : Bool
  /-- The ring takes the operation that punches a hole. -/
  pushed : ℕ → Bool
  /-- The hole has been punched when the copy returns. -/
  punched : ℕ → Bool
  /-- A segment of data is copied, with all its bytes. -/
  copied : ℕ → Bool
  /-- The operations are submitted in the end, and synchronised if that is asked for. -/
  finished : Bool

/-- Smaller holes are not punched. -/
def minPunch : ℕ := 16 * 1024

section Copy
variable (src : SparseFile) (o : RangeOutcome)

/-- The destination when a segment of data has been copied. -/
def processDataSegment (offset len : ℕ) (dst : Bytes) : Option Bytes :=
  if o.copied offset then
    some (Chunks.write offset ((src.content.drop offset).take len) dst)
  else none

def copySegments : List FileSegment → Bytes → Option Bytes
  | [], dst => some dst
  | .hole offset len :: rest, dst =>
    if minPunch ≤ len then
      if o.pushed offset then
        copySegments rest (if o.punched offset then punchHole offset len dst else dst)
      else none
    else copySegments rest dst
  | .data offset len :: rest, dst =>
    (processDataSegment src o offset len dst).bind (copySegments rest)

def performDeltaUringPipelined (offset length : ℕ) (dst : Bytes) : Option Bytes :=
  let copied :=
    if o.seekHole then
      match mapSparseSegments src.seeks offset length with
      | .ok segments => copySegments src o segments dst
      | .error _ => none
    else processDataSegment src o offset length dst
  copied.bind fun dst => if o.finished then some dst else none

/-- The destination after a copy of the range that succeeds. -/
def executeCopyRange (offset length : ℕ) (dst : Bytes) : Option Bytes :=
  if o.opened then
    match o.reflinked with
    | some dst => some dst
    | none => performDeltaUringPipelined src o offset length dst
  else none

end Copy

/-! ## What a copy leaves -/

/-- The bytes in the range are those of the source, of which holes read as zeros, and no other
byte has changed. -/
structure ExactRange (src : SparseFile) (offset length : ℕ) (dst dst' : Bytes) : Prop where
  reaches : ∀ i, offset ≤ i → i < offset + length → i < src.content.length → i < dst'.length
  equal : ∀ i, offset ≤ i → i < offset + length →
    dst'[i]?.getD 0 = src.content[i]?.getD 0
  below : ∀ i, i < offset → i < dst.length → dst'[i]? = dst[i]?
  above : ∀ i, offset + length ≤ i → dst'[i]? = dst[i]?

/-- A byte is in a hole of the range that is large enough and has been punched. -/
def Punched (src : SparseFile) (o : RangeOutcome) (start finish i : ℕ) : Prop :=
  ∃ lo hi, HoleWithin src start finish lo hi ∧ (lo ≤ i ∧ i < hi) ∧ minPunch ≤ hi - lo ∧
    o.punched lo = true

@[simp] theorem length_punchHole (offset len : ℕ) (b : Bytes) :
    (punchHole offset len b).length = b.length := by
  simp [punchHole]

theorem getD_punchHole (offset len i : ℕ) (b : Bytes) :
    (punchHole offset len b)[i]?.getD 0 =
      if offset ≤ i ∧ i < offset + len then 0 else b[i]?.getD 0 := by
  unfold punchHole
  rw [List.getElem?_mapIdx]
  cases hb : b[i]? with
  | none => simp
  | some x => simp

section Segments
variable {src : SparseFile} {o : RangeOutcome} {start finish current : ℕ} {dst dst' : Bytes}

/-- What the segments from an offset on leave. -/
structure SegmentsCopied (src : SparseFile) (o : RangeOutcome) (start finish current : ℕ)
    (dst dst' : Bytes) : Prop where
  other : ∀ i, i < current ∨ finish ≤ i → dst'[i]?.getD 0 = dst[i]?.getD 0
  data : ∀ i, current ≤ i → i < finish → src.data i = true →
    dst'[i]?.getD 0 = src.content[i]?.getD 0
  punched : ∀ i, current ≤ i → i < finish → Punched src o start finish i → dst'[i]?.getD 0 = 0
  kept : ∀ i, current ≤ i → i < finish → src.data i = false → ¬ Punched src o start finish i →
    dst'[i]?.getD 0 = dst[i]?.getD 0
  length : ∀ i, i < dst'.length ↔
    i < dst.length ∨ ∃ j, current ≤ j ∧ j < finish ∧ src.data j = true ∧ i ≤ j

theorem Punched.not_data {i : ℕ} (h : Punched src o start finish i) : src.data i = false := by
  obtain ⟨lo, hi, hhole, ⟨hlo, hhi⟩, -⟩ := h
  exact hhole.hole i hlo hhi

/-- A byte of a segment has been punched if the segment has. -/
theorem punched_iff {offset len i : ℕ} (h : HoleWithin src start finish offset (offset + len))
    (hi : offset ≤ i ∧ i < offset + len) :
    Punched src o start finish i ↔ minPunch ≤ len ∧ o.punched offset = true := by
  constructor
  · rintro ⟨lo, hi', hhole, hmem, hmin, hpunched⟩
    obtain ⟨rfl, rfl⟩ := h.unique hhole hi hmem
    exact ⟨by omega, hpunched⟩
  · rintro ⟨hmin, hpunched⟩
    exact ⟨offset, offset + len, h, hi, by omega, hpunched⟩

/-- A hole, and the segments behind it. -/
theorem SegmentsCopied.hole {len : ℕ} {mid : Bytes}
    (hhole : HoleWithin src start finish current (current + len))
    (hlength : mid.length = dst.length)
    (hother : ∀ i, i < current ∨ current + len ≤ i → mid[i]?.getD 0 = dst[i]?.getD 0)
    (hpunched : minPunch ≤ len → o.punched current = true →
      ∀ i, current ≤ i → i < current + len → mid[i]?.getD 0 = 0)
    (hkept : ¬ (minPunch ≤ len ∧ o.punched current = true) → mid = dst)
    (h : SegmentsCopied src o start finish (current + len) mid dst') :
    SegmentsCopied src o start finish current dst dst' := by
  have hupper := hhole.upper
  refine ⟨fun i hi => ?_, fun i hi hlt hdata => ?_, fun i hi hlt hp => ?_,
    fun i hi hlt hdata hp => ?_, fun i => ?_⟩
  · rw [h.other i (by omega), hother i (by omega)]
  · by_cases hmem : i < current + len
    · rw [hhole.hole i hi hmem] at hdata
      cases hdata
    · exact h.data i (by omega) hlt hdata
  · by_cases hmem : i < current + len
    · obtain ⟨hmin, hyes⟩ := (punched_iff hhole ⟨hi, hmem⟩).mp hp
      rw [h.other i (.inl hmem), hpunched hmin hyes i hi hmem]
    · exact h.punched i (by omega) hlt hp
  · by_cases hmem : i < current + len
    · rw [punched_iff hhole ⟨hi, hmem⟩] at hp
      rw [h.other i (.inl hmem), hkept hp]
    · rw [h.kept i (by omega) hlt hdata hp, hother i (by omega)]
  · rw [h.length i, hlength]
    refine or_congr_right ?_
    constructor
    · rintro ⟨j, hj, hrest⟩
      exact ⟨j, by omega, hrest⟩
    · rintro ⟨j, hj, hlt, hdata, hle⟩
      refine ⟨j, ?_, hlt, hdata, hle⟩
      by_contra hmem
      rw [hhole.hole j hj (by omega)] at hdata
      cases hdata

/-- A segment of data, and the segments behind it. -/
theorem SegmentsCopied.copied {len : ℕ} (hpos : 0 < len) (hend : current + len ≤ finish)
    (hdata : ∀ i, current ≤ i → i < current + len → src.data i = true)
    (h : SegmentsCopied src o start finish (current + len)
      (Chunks.write current ((src.content.drop current).take len) dst) dst') :
    SegmentsCopied src o start finish current dst dst' := by
  have hinside := src.inside (current + len - 1) (hdata _ (by omega) (by omega))
  have hlen : ((src.content.drop current).take len).length = len := by
    rw [List.length_take, List.length_drop]
    omega
  have hne : (src.content.drop current).take len ≠ [] := by
    rw [← List.length_pos_iff, hlen]
    exact hpos
  have hwrite := fun p => Chunks.getD_write current p ((src.content.drop current).take len) dst
  rw [hlen] at hwrite
  have hread : ∀ i, current ≤ i → i < current + len →
      dst'[i]?.getD 0 = src.content[i]?.getD 0 := by
    intro i hi hmem
    rw [h.other i (.inl hmem), hwrite, if_pos ⟨hi, hmem⟩, List.getElem?_take_of_lt (by omega),
      List.getElem?_drop, Nat.add_sub_of_le hi]
  refine ⟨fun i hi => ?_, fun i hi hlt hd => ?_, fun i hi hlt hp => ?_,
    fun i hi hlt hd hp => ?_, fun i => ?_⟩
  · rw [h.other i (by omega), hwrite, if_neg (by omega)]
  · by_cases hmem : i < current + len
    · exact hread i hi hmem
    · exact h.data i (by omega) hlt hd
  · refine h.punched i ?_ hlt hp
    by_contra hmem
    have := hp.not_data
    rw [hdata i hi (by omega)] at this
    cases this
  · by_cases hmem : i < current + len
    · rw [hdata i hi hmem] at hd
      cases hd
    · rw [h.kept i (by omega) hlt hd hp, hwrite, if_neg (by omega)]
  · rw [h.length i, Chunks.length_write _ _ _ hne, hlen, lt_max_iff, or_assoc]
    refine or_congr_right ?_
    constructor
    · rintro (hi | ⟨j, hj, hrest⟩)
      · exact ⟨current + len - 1, by omega, by omega, hdata _ (by omega) (by omega), by omega⟩
      · exact ⟨j, by omega, hrest⟩
    · rintro ⟨j, hj, hlt, hd, hle⟩
      by_cases hmem : j < current + len
      · exact .inl (by omega)
      · exact .inr ⟨j, by omega, hlt, hd, hle⟩

/-- The segments of a range leave the data of the source, and zeros where a hole was punched. -/
theorem copySegments_copied {segments : List FileSegment}
    (hsegments : Segmented src start finish current segments)
    (h : copySegments src o segments dst = some dst') :
    SegmentsCopied src o start finish current dst dst' := by
  induction segments generalizing current dst with
  | nil =>
    obtain rfl : dst = dst' := Option.some.inj h
    obtain rfl : current = finish := hsegments
    refine ⟨fun _ _ => rfl, ?_, ?_, fun _ _ _ _ _ => rfl, ?_⟩
    · omega
    · omega
    · intro i
      refine ⟨.inl, fun hi => hi.resolve_right ?_⟩
      rintro ⟨j, hj, hlt, -⟩
      omega
  | cons segment rest ih =>
    cases segment with
    | hole offset len =>
      obtain ⟨rfl, hhole, hrest⟩ := hsegments
      rw [copySegments] at h
      by_cases hmin : minPunch ≤ len
      · rw [if_pos hmin] at h
        by_cases hpushed : o.pushed offset = true
        · rw [if_pos hpushed] at h
          refine (ih hrest h).hole hhole ?_ (fun i hi => ?_) (fun _ hp i hi hlt => ?_) fun hp => ?_
          · split_ifs
            · exact length_punchHole _ _ _
            · rfl
          · split_ifs
            · rw [getD_punchHole, if_neg (by omega)]
            · rfl
          · rw [if_pos hp, getD_punchHole, if_pos ⟨hi, hlt⟩]
          · rw [if_neg fun hyes => hp ⟨hmin, hyes⟩]
        · rw [if_neg hpushed] at h
          cases h
      · rw [if_neg hmin] at h
        exact (ih hrest h).hole hhole rfl (fun _ _ => rfl) (fun hle => absurd hle hmin)
          fun _ => rfl
    | data offset len =>
      obtain ⟨rfl, hpos, hend, hdata, hrest⟩ := hsegments
      rw [copySegments, processDataSegment] at h
      split_ifs at h with hcopied
      · exact (ih hrest h).copied hpos hend hdata
      · cases h

end Segments

/-- When a copy of a range is exact: what the holes of the source have in the destination is zero
already, or behind its end, or it has been punched out; and the destination is long enough, or is
made so by data of the source. -/
def HolesCleared (src : SparseFile) (o : RangeOutcome) (offset length : ℕ) (dst : Bytes) : Prop :=
  ∀ i, offset ≤ i → i < offset + length → src.data i = false →
    (dst[i]?.getD 0 = 0 ∨ Punched src o offset (offset + length) i) ∧
      (i < src.content.length → i < dst.length ∨
        ∃ j, i < j ∧ j < offset + length ∧ src.data j = true)

theorem getElem?_eq_of_getD {a b : Bytes} {i : ℕ} (hlength : i < a.length ↔ i < b.length)
    (h : a[i]?.getD 0 = b[i]?.getD 0) : a[i]? = b[i]? := by
  by_cases hi : i < b.length
  · rw [List.getElem?_eq_getElem hi, List.getElem?_eq_getElem (hlength.mpr hi)] at h ⊢
    exact congrArg some h
  · rw [List.getElem?_eq_none (by omega), List.getElem?_eq_none (by omega)]

theorem SegmentsCopied.exact_iff {src : SparseFile} {o : RangeOutcome} {offset length : ℕ}
    {dst dst' : Bytes} (h : SegmentsCopied src o offset (offset + length) offset dst dst') :
    ExactRange src offset length dst dst' ↔ HolesCleared src o offset length dst := by
  constructor
  · intro hexact i hi hlt hdata
    refine ⟨?_, fun hin => ?_⟩
    · by_cases hp : Punched src o offset (offset + length) i
      · exact .inr hp
      · left
        rw [← h.kept i hi hlt hdata hp, hexact.equal i hi hlt, src.zero i hdata]
    · rcases (h.length i).mp (hexact.reaches i hi hlt hin) with hlen | ⟨j, hj, hjlt, hjdata, hle⟩
      · exact .inl hlen
      · refine .inr ⟨j, lt_of_le_of_ne hle ?_, hjlt, hjdata⟩
        rintro rfl
        rw [hdata] at hjdata
        cases hjdata
  · intro hcleared
    refine ⟨fun i hi hlt hin => ?_, fun i hi hlt => ?_, fun i hi hlen => ?_, fun i hi => ?_⟩
    · rw [h.length i]
      cases hdata : src.data i with
      | true => exact .inr ⟨i, hi, hlt, hdata, le_rfl⟩
      | false =>
        rcases (hcleared i hi hlt hdata).2 hin with hlen | ⟨j, hj, hjlt, hjdata⟩
        · exact .inl hlen
        · exact .inr ⟨j, by omega, hjlt, hjdata, by omega⟩
    · cases hdata : src.data i with
      | true => exact h.data i hi hlt hdata
      | false =>
        rw [src.zero i hdata]
        by_cases hp : Punched src o offset (offset + length) i
        · exact h.punched i hi hlt hp
        · rw [h.kept i hi hlt hdata hp]
          exact (hcleared i hi hlt hdata).1.resolve_right hp
    · refine getElem?_eq_of_getD ⟨fun _ => hlen, fun _ => ?_⟩ (h.other i (.inl hi))
      exact (h.length i).mpr (.inl hlen)
    · refine getElem?_eq_of_getD ?_ (h.other i (.inr hi))
      rw [h.length i]
      refine ⟨fun hor => hor.resolve_right ?_, .inl⟩
      rintro ⟨j, hj, hjlt, -, hle⟩
      omega

/-- A copy that succeeds by way of the segments is exact if and only if the holes are cleared. -/
theorem executeCopyRange_exact_iff {src : SparseFile} {o : RangeOutcome} {offset length : ℕ}
    {dst dst' : Bytes} (hpath : o.reflinked = none) (hsparse : o.seekHole = true)
    (h : executeCopyRange src o offset length dst = some dst') :
    ExactRange src offset length dst dst' ↔ HolesCleared src o offset length dst := by
  obtain ⟨segments, hmap, hsegmented⟩ := mapSparseSegments_segmented src offset length
  have hcopied : copySegments src o segments dst = some dst' := by
    unfold executeCopyRange at h
    by_cases hopened : o.opened = true
    · rw [if_pos hopened, hpath] at h
      dsimp only [performDeltaUringPipelined] at h
      rw [if_pos hsparse, hmap] at h
      obtain ⟨mid, hmid, hfinished⟩ := Option.bind_eq_some_iff.mp h
      split_ifs at hfinished with hok
      obtain rfl := Option.some.inj hfinished
      exact hmid
    · rw [if_neg hopened] at h
      cases h
  exact (copySegments_copied hsegmented hcopied).exact_iff

/-! ### A small hole -/

theorem zero_of_ne_last {n i : ℕ} (hne : i ≠ n) :
    ((List.replicate n 0 ++ [2] : Bytes)[i]?).getD 0 = 0 := by
  rcases Nat.lt_or_gt_of_ne hne with hlt | hgt
  · rw [List.getElem?_append_left (by simpa using hlt), List.getElem?_replicate, if_pos hlt]
    rfl
  · rw [List.getElem?_eq_none (by simp; omega)]
    rfl

/-- A hole of some length, and a byte behind it. -/
def holeThenByte (n : ℕ) : SparseFile where
  content := List.replicate n 0 ++ [2]
  data i := i = n
  inside i h := by
    rw [of_decide_eq_true h]
    simp
  zero i h := zero_of_ne_last (of_decide_eq_false h)

/-- A hole of one block of 512 bytes. -/
def blockHole : SparseFile := holeThenByte 512

/-- All operations succeed. -/
def allDone : RangeOutcome := ⟨true, none, true, fun _ => true, fun _ => true, fun _ => true, true⟩

/-- Into an empty file the copy is exact. -/
theorem blockHole_empty_exact :
    ∃ dst', executeCopyRange blockHole allDone 0 513 [] = some dst' ∧
      ExactRange blockHole 0 513 [] dst' := by
  have hsome : (executeCopyRange blockHole allDone 0 513 []).isSome = true := by decide +kernel
  obtain ⟨dst', h⟩ := Option.isSome_iff_exists.mp hsome
  refine ⟨dst', h, (executeCopyRange_exact_iff rfl rfl h).mpr fun i _ hlt hdata => ⟨.inl rfl, ?_⟩⟩
  have hne : i ≠ 512 := of_decide_eq_false hdata
  exact fun _ => .inr ⟨512, by omega, by omega, by decide⟩

/-- Over other bytes it is not, though nothing has failed. -/
theorem blockHole_keeps_old :
    ¬ ∀ (src : SparseFile) (o : RangeOutcome) (offset length : ℕ) (dst dst' : Bytes),
      o.reflinked = none → o.seekHole = true →
      executeCopyRange src o offset length dst = some dst' →
        ExactRange src offset length dst dst' := by
  intro h
  have hsome : (executeCopyRange blockHole allDone 0 513 (List.replicate 513 9)).isSome = true := by
    decide +kernel
  obtain ⟨dst', hdst⟩ := Option.isSome_iff_exists.mp hsome
  have hfirst : (executeCopyRange blockHole allDone 0 513 (List.replicate 513 9)).map
      (fun b => b[0]?.getD 0) = some 9 := by decide +kernel
  rw [hdst, Option.map_some, Option.some.injEq] at hfirst
  have hequal := (h _ _ _ _ _ _ rfl rfl hdst).equal 0 le_rfl (by omega)
  rw [hfirst] at hequal
  exact absurd hequal (by decide)

end Foxing
