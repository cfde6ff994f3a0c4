import Foxing.AtomicRename
import Foxing.Lib.Run
import Foxing.RangeCopy

/-!
# Replacing a file by a copy

A copy is made under a temporary name beside the destination, and takes its place when it is
complete: the two are exchanged where the target can do that, else the copy is renamed. Every
call may fail. If the process is killed, all calls fail from then on. The source does not change,
and it is none of the files here.
-/
namespace Foxing.FileReplacement
open AtomicRename Slots

/-! ## The copy -/

structure Inode (α : Type) where
  content : Bytes
  metadata : α
  deriving DecidableEq, Repr

inductive CopyStrategy where
  | standardCopy | reflink
  deriving DecidableEq, Repr

/-- What decides on the strategy, besides the length of the source: what the target can do,
whether both files are on the same device as far as that is known, and whether the source is
marked not to be copied on write. -/
structure StrategyFacts where
  reflink : Bool
  sameDevice : Bool
  nocow : Bool

def determineCopyStrategy (facts : StrategyFacts) (len : ℕ) : CopyStrategy :=
  if !facts.reflink then .standardCopy
  else if !facts.sameDevice then .standardCopy
  else if facts.nocow then .standardCopy
  else if len < 4096 then .standardCopy
  else .reflink

/-- How the calls end, in the order of the source. -/
structure Calls (α : Type) where
  /-- The source is there and can be opened. -/
  opened : Bool
  /-- There is a directory for the temporary file, which can be opened. -/
  prepared : Bool
  fallocated : Bool
  /-- The source can be asked for its length and its device. -/
  measured : Bool
  facts : StrategyFacts
  f2fsAtomic : Bool
  cloned : Bool
  /-- What `copy_file_range` returns at an offset, unless it fails. -/
  ranges : ℕ → Option ℕ
  pipeline : RangeOutcome
  /-- What is in the temporary file when the transfer has failed. -/
  unfinished : Bytes
  /-- The transaction of F2FS is committed. -/
  committed : Bool
  /-- The temporary file can be removed. -/
  removes : Bool
  skipFsync : Bool
  synced : Bool
  /-- The metadata of a new file, and what is left of it when that of the source has been
  applied, as far as this works. -/
  fresh : α
  applied : α
  exchangeRange : Bool
  btrfs : Bool
  /-- The contents are exchanged. -/
  exchanged : Bool
  /-- The failures of the rename that exchanges, and of the one that replaces. -/
  exchange : Faults (Inode α)
  replace : Faults (Inode α)

section Copy
variable {α : Type} (c : Calls α) (src : SparseFile) (size : ℕ)

/-- The content of the new file. -/
def prepareDestinationFile : Bytes :=
  if 0 < size ∧ c.fallocated = true then List.replicate size 0 else []

/-- The loop of `copy_file_range`, when `total` bytes have been copied. -/
def copyFileRange : ℕ → ℕ → Bytes → Bool × Bytes
  | 0, total, dst => (decide (total = size), dst)
  | fuel + 1, total, dst =>
    if size ≤ total then (decide (total = size), dst)
    else
      let chunk := min (size - total) (1024 * 1024 * 1024)
      match c.ranges total with
      | none => (false, dst)
      | some n =>
        let ret := min n (min chunk (src.content.length - total))
        if ret = 0 then (decide (total = size), dst)
        else copyFileRange fuel (total + ret)
          (Chunks.write total ((src.content.drop total).take ret) dst)

def tryReflink (dst : Bytes) : Bool × Bytes :=
  if c.cloned then (true, Chunks.write 0 src.content dst)
  else copyFileRange c src size (size + 1) 0 dst

/-- A reflink is tried. -/
def UsesReflink : Prop :=
  c.f2fsAtomic = false ∧ determineCopyStrategy c.facts src.content.length = .reflink

instance : Decidable (UsesReflink c src) := inferInstanceAs (Decidable (_ ∧ _))

/-- The content of the temporary file when a reflink has been tried, and whether it is
complete. -/
def afterReflink : Bool × Bytes :=
  if UsesReflink c src then tryReflink c src size (prepareDestinationFile c size)
  else (false, prepareDestinationFile c size)

/-- The content of the temporary file when the transfer has succeeded. -/
def transfer : Option Bytes :=
  match afterReflink c src size with
  | (true, dst) => some dst
  | (false, dst) => performDeltaUringPipelined src c.pipeline 0 size dst

inductive CopyResult where
  /-- There was an error before the transfer. -/
  | error
  | finished (ok : Bool)

def executeFullCopyLogic (tmp : Path) (t : Files (Inode α)) : CopyResult × Files (Inode α) :=
  if !c.opened then (.error, t)
  else if !c.prepared then (.error, t)
  else if !c.measured then (.error, put t tmp (some ⟨prepareDestinationFile c size, c.fresh⟩))
  else
    match transfer c src size with
    | some dst =>
      (.finished (!c.f2fsAtomic || c.committed), put t tmp (some ⟨dst, c.fresh⟩))
    | none => (.finished false, put t tmp (some ⟨c.unfinished, c.fresh⟩))

/-! ## Taking the place -/

/-- The contents change places, and nothing else. -/
def atomicExchange (a b : Path) (t : Files (Inode α)) : Files (Inode α) :=
  match t a, t b with
  | some x, some y =>
    put (put t a (some { x with content := y.content })) b (some { y with content := x.content })
  | _, _ => t

def takePlace (tmp dst : Path) (t : Files (Inode α)) : Outcome (Inode α) :=
  if c.exchangeRange = true ∧ t dst ≠ none then
    if c.btrfs then
      match renameFiles .renameExchange c.exchange tmp dst t with
      | (.ok (), t) => (.ok (), t)
      | (.error _, t) => renameFiles .none c.replace tmp dst t
    else if c.exchanged then (.ok (), atomicExchange tmp dst t)
    else renameFiles .none c.replace tmp dst t
  else renameFiles .none c.replace tmp dst t

def applyMetadata (tmp : Path) (t : Files (Inode α)) : Files (Inode α) :=
  put t tmp ((t tmp).map fun f => { f with metadata := c.applied })

def tempPath (dst : Path) (uuid : String) : Path := withExtension dst ("tmp." ++ uuid)

/-- Whether the copy succeeds, and the files it leaves. -/
def executeCopyFile (uuid : String) (dst : Path) (t : Files (Inode α)) :
    Bool × Files (Inode α) :=
  let tmp := tempPath dst uuid
  match executeFullCopyLogic c src size tmp t with
  | (.error, t) => (false, t)
  | (.finished false, t) => (false, removeFile c.removes tmp t)
  | (.finished true, t) =>
    if c.skipFsync || c.synced then
      let r := takePlace c tmp dst (applyMetadata c tmp t)
      (r.1.isOk, r.2)
    else (false, t)

end Copy

/-! ## What is transferred -/

section Transfer
variable {α : Type} {c : Calls α} {src : SparseFile} {dst : Bytes}

/-- Writing a whole file over one that is not longer. -/
theorem write_whole {b d : Bytes} (h : d.length ≤ b.length) : Chunks.write 0 b d = b := by
  unfold Chunks.write
  split_ifs with hb
  · subst hb
    exact List.length_eq_zero_iff.mp (Nat.le_zero.mp h)
  · simp [List.drop_eq_nil_of_le h]

theorem prepared_length (c : Calls α) (size : ℕ) :
    (prepareDestinationFile c size).length = if c.fallocated then size else 0 := by
  unfold prepareDestinationFile
  by_cases hf : c.fallocated = true
  · by_cases hsize : 0 < size
    · simp [hf, hsize]
    · obtain rfl : size = 0 := by omega
      simp
  · simp [hf]

theorem prepared_zero (c : Calls α) (size i : ℕ) :
    (prepareDestinationFile c size)[i]?.getD 0 = 0 := by
  unfold prepareDestinationFile
  split_ifs
  · rw [List.getElem?_replicate]
    split_ifs <;> rfl
  · rfl

/-- The next bytes of the source behind those that are there already. -/
theorem write_next {total : ℕ} (htotal : total ≤ src.content.length) (n : ℕ) (d : Bytes) :
    Chunks.write total ((src.content.drop total).take n)
        (Chunks.write 0 (src.content.take total) d) =
      Chunks.write 0 (src.content.take (total + n)) d := by
  have hlen : (src.content.take total).length = total := by
    rw [List.length_take, min_eq_left htotal]
  have happend := Chunks.write_write 0 (src.content.take total)
    ((src.content.drop total).take n) d
  rwa [hlen, Nat.zero_add, ← List.take_add] at happend

/-- The loop leaves a beginning of the source, and says whether it has the size. -/
theorem copyFileRange_beginning {size total fuel : ℕ} {d : Bytes}
    (htotal : total ≤ src.content.length) (hsize : total ≤ size) :
    ∃ n, n ≤ src.content.length ∧ n ≤ size ∧
      copyFileRange c src size fuel total (Chunks.write 0 (src.content.take total) d) =
        (decide (n = size), Chunks.write 0 (src.content.take n) d) := by
  induction fuel generalizing total with
  | zero => exact ⟨total, htotal, hsize, rfl⟩
  | succ fuel ih =>
    rw [copyFileRange]
    by_cases hdone : size ≤ total
    · rw [if_pos hdone]
      exact ⟨total, htotal, hsize, rfl⟩
    rw [if_neg hdone]
    dsimp only
    cases hret : c.ranges total with
    | none =>
      refine ⟨total, htotal, hsize, ?_⟩
      rw [decide_eq_false (by omega)]
    | some n =>
      dsimp only
      generalize hn : min n (min (min (size - total) (1024 * 1024 * 1024))
        (src.content.length - total)) = ret
      by_cases hzero : ret = 0
      · rw [if_pos hzero]
        exact ⟨total, htotal, hsize, rfl⟩
      rw [if_neg hzero, write_next htotal]
      exact ih (by omega) (by omega)

theorem tryReflink_beginning {d : Bytes} (c : Calls α) (src : SparseFile) :
    ∃ n, n ≤ src.content.length ∧ tryReflink c src src.content.length d =
      (decide (n = src.content.length), Chunks.write 0 (src.content.take n) d) := by
  unfold tryReflink
  split_ifs
  · exact ⟨src.content.length, le_rfl, by simp⟩
  · have hbegins : ∃ n, n ≤ src.content.length ∧ n ≤ src.content.length ∧
        copyFileRange c src src.content.length (src.content.length + 1) 0
            (Chunks.write 0 (src.content.take 0) d) =
          (decide (n = src.content.length), Chunks.write 0 (src.content.take n) d) :=
      copyFileRange_beginning (Nat.zero_le _) (Nat.zero_le _)
    obtain ⟨n, hn, -, hrun⟩ := hbegins
    rw [List.take_zero, Chunks.write_nil] at hrun
    exact ⟨n, hn, hrun⟩

/-- A beginning of the source is in the temporary file, and zeros if it has been made longer. -/
structure Begun (c : Calls α) (src : SparseFile) (n : ℕ) (dst : Bytes) : Prop where
  le : n ≤ src.content.length
  bytes : ∀ i, dst[i]?.getD 0 = if i < n then src.content[i]?.getD 0 else 0
  length : dst.length = if c.fallocated then src.content.length else n

theorem begun_write (c : Calls α) {n : ℕ} (hn : n ≤ src.content.length) :
    Begun c src n (Chunks.write 0 (src.content.take n)
      (prepareDestinationFile c src.content.length)) := by
  have hlen : (src.content.take n).length = n := by rw [List.length_take, min_eq_left hn]
  refine ⟨hn, fun i => ?_, ?_⟩
  · rw [Chunks.getD_write, hlen, prepared_zero, Nat.zero_add, Nat.sub_zero]
    by_cases hi : i < n
    · rw [if_pos ⟨Nat.zero_le i, hi⟩, if_pos hi, List.getElem?_take_of_lt hi]
    · rw [if_neg fun h => hi h.2, if_neg hi]
  · by_cases hzero : src.content.take n = []
    · rw [hzero, Chunks.write_nil, prepared_length]
      rw [hzero, List.length_nil] at hlen
      rw [hlen]
    · rw [Chunks.length_write _ _ _ hzero, hlen, prepared_length]
      split_ifs <;> omega

/-- Behind an attempt at a reflink, which may have been none. -/
theorem afterReflink_begun (c : Calls α) (src : SparseFile) :
    (afterReflink c src src.content.length = (true, src.content)) ∨
      ∃ n, (n < src.content.length ∨ src.content = []) ∧
        (afterReflink c src src.content.length).1 = false ∧
        Begun c src n (afterReflink c src src.content.length).2 := by
  have hprepared : (prepareDestinationFile c src.content.length).length ≤ src.content.length := by
    rw [prepared_length]
    split_ifs <;> omega
  unfold afterReflink
  by_cases huses : UsesReflink c src
  · rw [if_pos huses]
    obtain ⟨n, hn, hrun⟩ := tryReflink_beginning
      (d := prepareDestinationFile c src.content.length) c src
    rw [hrun]
    by_cases hall : n = src.content.length
    · left
      rw [hall, List.take_length, write_whole hprepared, decide_eq_true rfl]
    · exact .inr ⟨n, .inl (by omega), decide_eq_false hall, begun_write c hn⟩
  · rw [if_neg huses]
    have hbegun := begun_write c (n := 0) (Nat.zero_le src.content.length)
    rw [List.take_zero, Chunks.write_nil] at hbegun
    refine .inr ⟨0, ?_, rfl, hbegun⟩
    by_cases hempty : src.content = []
    · exact .inr hempty
    · exact .inl (List.length_pos_iff.mpr hempty)

/-- The copy goes through the segments of the source. -/
def BySegments (c : Calls α) (src : SparseFile) : Prop :=
  (afterReflink c src src.content.length).1 = false ∧ c.pipeline.seekHole = true

/-- The end of the source is data, or the temporary file has its length beforehand. -/
def TailKept (c : Calls α) (src : SparseFile) : Prop :=
  c.fallocated = true ∨ src.content = [] ∨ src.data (src.content.length - 1) = true

/-- Over a beginning of the source its holes are cleared if the end is kept. -/
theorem Begun.holesCleared_iff {n : ℕ} (h : Begun c src n dst)
    (hn : n < src.content.length ∨ src.content = []) :
    HolesCleared src c.pipeline 0 src.content.length dst ↔ TailKept c src := by
  have hlength := h.length
  constructor
  · intro hcleared
    by_contra hkept
    unfold TailKept at hkept
    rw [not_or, not_or] at hkept
    obtain ⟨hfalloc, hne, hhole⟩ := hkept
    have hpos := List.length_pos_iff.mpr hne
    rw [if_neg hfalloc] at hlength
    obtain ⟨-, hend⟩ := hcleared (src.content.length - 1) (Nat.zero_le _) (by omega)
      (by simpa using hhole)
    have hn' := hn.resolve_right hne
    rcases hend (by omega) with hlt | ⟨j, hj, hjlt, -⟩
    · omega
    · omega
  · intro hkept i _ hi hdata
    refine ⟨.inl ?_, fun hin => ?_⟩
    · rw [h.bytes i]
      split_ifs
      · exact src.zero i hdata
      · rfl
    · rcases hkept with hfalloc | hempty | hlast
      · rw [if_pos hfalloc] at hlength
        exact .inl (hlength ▸ hin)
      · rw [hempty] at hin
        cases hin
      · refine .inr ⟨src.content.length - 1, ?_, by omega, hlast⟩
        have hne : i ≠ src.content.length - 1 := by
          rintro rfl
          rw [hdata] at hlast
          cases hlast
        omega

/-- The pipeline, when the source can be asked for its holes. -/
theorem segments_copied {o : RangeOutcome} {offset length : ℕ} {d : Bytes}
    (hsparse : o.seekHole = true)
    (h : performDeltaUringPipelined src o offset length d = some dst) :
    SegmentsCopied src o offset (offset + length) offset d dst := by
  obtain ⟨segments, hmap, hsegmented⟩ := mapSparseSegments_segmented src offset length
  dsimp only [performDeltaUringPipelined] at h
  rw [if_pos hsparse, hmap] at h
  obtain ⟨mid, hmid, hfinished⟩ := Option.bind_eq_some_iff.mp h
  split_ifs at hfinished
  obtain rfl := Option.some.inj hfinished
  exact copySegments_copied hsegmented hmid

/-- The whole source, and nothing else. -/
theorem exactRange_iff_eq {d : Bytes} (hd : d.length ≤ src.content.length)
    (hdst : dst.length ≤ src.content.length) :
    ExactRange src 0 src.content.length d dst ↔ dst = src.content := by
  constructor
  · intro h
    have hlength : dst.length = src.content.length := by
      by_contra hne
      have hreaches := h.reaches dst.length (Nat.zero_le _) (by omega) (by omega)
      omega
    refine List.ext_getElem? fun i => getElem?_eq_of_getD (by rw [hlength]) ?_
    by_cases hi : i < src.content.length
    · exact h.equal i (Nat.zero_le _) (by omega)
    · rw [List.getElem?_eq_none (by omega), List.getElem?_eq_none (by omega)]
  · rintro rfl
    refine ⟨fun i _ _ hi => hi, fun i _ _ => rfl, fun i hi => absurd hi (Nat.not_lt_zero i), ?_⟩
    intro i hi
    rw [List.getElem?_eq_none (by omega), List.getElem?_eq_none (by omega)]

theorem length_le_of_copied {o : RangeOutcome} {d : Bytes} {start finish current : ℕ}
    (h : SegmentsCopied src o start finish current d dst) (hd : d.length ≤ src.content.length) :
    dst.length ≤ src.content.length := by
  by_contra hlt
  rcases (h.length src.content.length).mp (by omega) with hi | ⟨j, -, -, hdata, hle⟩
  · omega
  · have := src.inside j hdata
    omega

/-- A transfer that succeeds leaves the content of the source, unless it has gone through the
segments and the source ends in a hole for which no room was made. -/
theorem transfer_exact_iff (h : transfer c src src.content.length = some dst) :
    dst = src.content ↔ (BySegments c src → TailKept c src) := by
  unfold transfer at h
  rcases afterReflink_begun c src with hall | ⟨n, hn, hfalse, hbegun⟩
  · rw [hall] at h
    refine iff_of_true (Option.some.inj h).symm fun hsegments => ?_
    rw [BySegments, hall] at hsegments
    cases hsegments.1
  · have hbefore : (afterReflink c src src.content.length).2.length ≤ src.content.length := by
      have hlength := hbegun.length
      have hle := hbegun.le
      split_ifs at hlength <;> omega
    have hrun : performDeltaUringPipelined src c.pipeline 0 src.content.length
        (afterReflink c src src.content.length).2 = some dst := by
      generalize hr : afterReflink c src src.content.length = r at h hfalse
      obtain ⟨done, d⟩ := r
      obtain rfl : done = false := hfalse
      exact h
    by_cases hseek : c.pipeline.seekHole = true
    · have hcopied := segments_copied hseek hrun
      have hzero : 0 + src.content.length = src.content.length := Nat.zero_add _
      rw [← exactRange_iff_eq hbefore (length_le_of_copied hcopied hbefore), hcopied.exact_iff,
        hbegun.holesCleared_iff hn]
      exact ⟨fun h _ => h, fun h => h ⟨hfalse, hseek⟩⟩
    · refine iff_of_true ?_ fun hsegments => absurd hsegments.2 hseek
      dsimp only [performDeltaUringPipelined] at hrun
      rw [if_neg hseek, processDataSegment] at hrun
      obtain ⟨mid, hmid, hfinished⟩ := Option.bind_eq_some_iff.mp hrun
      split_ifs at hmid hfinished
      obtain rfl := Option.some.inj hfinished
      obtain rfl := Option.some.inj hmid
      rw [List.drop_zero, List.take_length, write_whole hbefore]

/-- A byte, and a hole behind it up to the end. -/
def byteThenHole : SparseFile where
  content := [2, 0, 0]
  data i := i = 0
  inside i h := by
    rw [of_decide_eq_true h]
    decide
  zero i h := by
    have hne : i ≠ 0 := of_decide_eq_false h
    match i with
    | 0 => exact absurd rfl hne
    | 1 => rfl
    | 2 => rfl
    | _ + 3 => rfl

/-- The target has no reflinks and no `fallocate`, and everything else works. -/
def plainTarget : Calls ℕ where
  opened := true
  prepared := true
  fallocated := false
  measured := true
  facts := ⟨false, true, false⟩
  f2fsAtomic := false
  cloned := false
  ranges _ := none
  pipeline := allDone
  unfinished := []
  committed := true
  removes := true
  skipFsync := false
  synced := true
  fresh := 0
  applied := 1
  exchangeRange := true
  btrfs := true
  exchanged := false
  exchange := ⟨0, none, none, fun _ => none, true⟩
  replace := ⟨0, none, none, fun _ => none, true⟩

/-- The copy of the byte succeeds, and is too short. -/
theorem byteThenHole_short : ∃ copy, transfer plainTarget byteThenHole 3 = some copy ∧
    copy ≠ byteThenHole.content := by
  have hrun : transfer plainTarget byteThenHole 3 = some [2] := by decide +kernel
  refine ⟨[2], hrun, fun heq => ?_⟩
  have hkept := (transfer_exact_iff hrun).mp heq ⟨by decide +kernel, rfl⟩
  unfold TailKept at hkept
  exact absurd hkept (by decide)

end Transfer

/-! ## What takes the place -/

section Place
variable {α : Type} {c : Calls α} {src : SparseFile} {t : Files (Inode α)} {tmp dst : Path}

/-- The two renames at the end of a dance, which leave the old file at the backup if one of them
fails. -/
structure Replaced (faults : Faults (Inode α)) (tmp dst backup : Path) (t : Files (Inode α))
    (r : Outcome (Inode α)) : Prop where
  frame : ∀ p, p ≠ tmp → p ≠ dst → p ≠ backup → r.2 p = t p
  ok : r.1 = .ok () → r.2 dst = t tmp ∧ (r.2 tmp = t dst ∨ r.2 tmp = none)
  error : r.1 ≠ .ok () →
    (r.2 tmp = t tmp ∧ (r.2 dst = t dst ∨ r.2 dst = none ∧ r.2 backup = t dst ∧
      faults.rename .moveIn ≠ none ∧ faults.rename .rollback ≠ none)) ∨
    (r.2 tmp = none ∧ r.2 dst = t tmp ∧ r.2 backup = t dst)

variable {faults : Faults (Inode α)} {backup : Path}

/-- Three paths, the first two of which are taken. -/
structure Beside (t : Files (Inode α)) (tmp dst backup : Path) : Prop where
  new : t tmp ≠ none
  old : t dst ≠ none
  ne : tmp ≠ dst
  backup_tmp : backup ≠ tmp
  backup_dst : backup ≠ dst

theorem Beside.copySwap (h : Beside t tmp dst backup) : Replaced faults tmp dst backup t
    (copySwap faults tmp dst backup (Slots.put t backup (t dst))) := by
  obtain ⟨htmp, hdst, hne, hbt, hbd⟩ := h
  unfold AtomicRename.copySwap
  cases hin : faults.rename .swapIn with
  | some e =>
    refine ⟨fun p _ _ hp => ?_, fun hok => ?_, fun _ => .inl ⟨?_, .inl ?_⟩⟩
    · cases hremoves : faults.removes <;> simp [rename, removeFile, put_apply, hp]
    · cases hok
    · cases hremoves : faults.removes <;> simp [rename, removeFile, put_apply, hbt.symm]
    · cases hremoves : faults.removes <;> simp [rename, removeFile, put_apply, hbd.symm]
  | none =>
    cases hback : faults.rename .swapBack with
    | some e =>
      refine ⟨fun p ht hd hb => ?_, fun hok => ?_, fun _ => .inr ?_⟩
      · simp [rename, move_apply, put_apply, hbt.symm, htmp, ht, hd, hb]
      · simp [rename, put_apply, hbt.symm, htmp] at hok
      · simp [rename, move_apply, put_apply, hbt.symm, htmp, hne, hbd, hbt]
    | none =>
      refine ⟨fun p ht hd hb => ?_, fun _ => ?_, fun herr => absurd ?_ herr⟩
      · simp [rename, move_apply, put_apply, hbt.symm, htmp, hbd, hbt, hdst, ht, hd, hb]
      · simp [rename, move_apply, put_apply, hbt.symm, htmp, hne.symm, hbd, hbd.symm, hbt, hdst]
      · simp [rename, move_apply, put_apply, hbt.symm, htmp, hbd, hbt, hdst]

theorem Beside.moveOn (h : Beside t tmp dst backup) (left : Option (Inode α)) :
    Replaced faults tmp dst backup t
      (moveOn faults tmp dst backup (move (Slots.put t backup left) dst backup)) := by
  obtain ⟨htmp, hdst, hne, hbt, hbd⟩ := h
  rw [move_put hbd.symm]
  unfold AtomicRename.moveOn
  cases hin : faults.rename .moveIn with
  | some e =>
    cases hroll : faults.rename .rollback with
    | some e' =>
      refine ⟨fun p ht hd hb => ?_, fun hok => ?_, fun _ => .inl ⟨?_, .inr ⟨?_, ?_, ?_, ?_⟩⟩⟩
      · simp [rename, move_apply, hd, hb]
      · cases hok
      · simp [rename, move_apply, hbt.symm, hne]
      · simp [rename, move_apply, hbd.symm]
      · simp [rename, move_apply]
      · simp [hin]
      · simp [hroll]
    | none =>
      refine ⟨fun p ht hd hb => ?_, fun hok => ?_, fun _ => .inl ⟨?_, .inl ?_⟩⟩
      · simp [rename, move_apply, hdst, hd, hb]
      · cases hok
      · simp [rename, move_apply, hdst, hbt.symm, hne]
      · simp [rename, move_apply, hdst]
  | none =>
    cases hback : faults.rename .moveBack with
    | some e =>
      refine ⟨fun p ht hd hb => ?_, fun hok => ?_, fun _ => .inr ?_⟩
      · simp [rename, move_apply, htmp, hbt.symm, hne, ht, hd, hb]
      · simp [rename, move_apply, htmp, hbt.symm, hne] at hok
      · simp [rename, move_apply, htmp, hne, hbd, hbt, hbt.symm]
    | none =>
      refine ⟨fun p ht hd hb => ?_, fun _ => ?_, fun herr => absurd ?_ herr⟩
      · simp [rename, move_apply, htmp, hdst, hbt, hbt.symm, hbd, hne, ht, hd, hb]
      · simp [rename, move_apply, htmp, hdst, hne, hne.symm, hbd, hbd.symm, hbt, hbt.symm]
      · simp [rename, move_apply, htmp, hdst, hbt, hbt.symm, hbd, hne]

theorem Beside.renameDance (h : Beside t tmp dst backup) (left : Option (Inode α)) :
    Replaced faults tmp dst backup t
      (renameDance faults tmp dst backup (Slots.put t backup left)) := by
  have hmoveOn : Replaced faults tmp dst backup t (AtomicRename.moveOn faults tmp dst backup
      (move (Slots.put t backup left) dst backup)) := h.moveOn left
  obtain ⟨htmp, hdst, hne, hbt, hbd⟩ := h
  unfold AtomicRename.renameDance
  cases haway : faults.rename .moveAway with
  | some e =>
    have hkept : ∀ e' : Errno, Replaced faults tmp dst backup t
        (.error e', Slots.put t backup left) := by
      intro e'
      refine ⟨fun p _ _ hp => ?_, fun hok => ?_, fun _ => .inl ⟨?_, .inl ?_⟩⟩
      · simp [put_apply, hp]
      · cases hok
      · simp [put_apply, hbt.symm]
      · simp [put_apply, hbd.symm]
    by_cases he : e = .enoent
    · simp only [rename, he, if_true]
      cases hplain : faults.rename .plain with
      | some e' => exact hkept e'
      | none =>
        refine ⟨fun p ht hd hb => ?_, fun _ => ?_, fun herr => absurd ?_ herr⟩
        · simp [put_apply, move_apply, hbt.symm, htmp, ht, hd, hb]
        · simp [put_apply, move_apply, hbt.symm, htmp, hne]
        · simp [put_apply, hbt.symm, htmp]
    · simp only [rename, if_neg he]
      exact hkept e
  | none =>
    have hthere : ¬ Slots.put t backup left dst = none := by
      rwa [put_apply, if_neg hbd.symm]
    simp only [rename, if_neg hthere]
    exact hmoveOn

/-- The rename that exchanges, when both files are there. -/
theorem Beside.exchange (h : Beside t tmp dst (swapPath dst)) :
    Replaced faults tmp dst (swapPath dst) t
      (renameFiles .renameExchange faults tmp dst t) := by
  by_cases hworks : faults.renameat2 = none
  · have hrun : renameFiles .renameExchange faults tmp dst t = (.ok (), swap t tmp dst) := by
      simp [renameFiles, renameat2, hworks, h.new, h.old, Flags.renameExchange]
    rw [hrun]
    refine ⟨fun p ht hd _ => ?_, fun _ => ⟨swap_right h.ne, .inl swap_left⟩,
      fun herr => absurd rfl herr⟩
    exact (if_neg ht).trans (if_neg hd)
  · have hrun : renameFiles .renameExchange faults tmp dst t =
        exchangeFallback faults tmp dst t := by
      obtain ⟨e, he⟩ := Option.ne_none_iff_exists'.mp hworks
      simp [renameFiles, renameat2, he, Flags.renameExchange]
    rw [hrun]
    unfold exchangeFallback cp
    dsimp only
    rw [if_neg (not_or.mpr ⟨h.old, h.backup_dst.symm⟩)]
    cases faults.cp with
    | none => exact h.copySwap
    | some left => exact h.renameDance left

/-- What a copy may do to the files, once it is complete. -/
structure Taken (c : Calls α) (tmp dst : Path) (t : Files (Inode α)) (new : Inode α)
    (r : Outcome (Inode α)) : Prop where
  frame : ∀ p, p ≠ tmp → p ≠ dst → p ≠ swapPath dst → r.2 p = t p
  ok : r.1 = .ok () → ∃ f, r.2 dst = some f ∧ f.content = new.content
  error : r.1 ≠ .ok () → r.2 dst = t dst ∨ r.2 (swapPath dst) = t dst
  missing : t dst ≠ none → r.2 dst = none → c.exchange.rename .moveIn ≠ none ∧
    c.exchange.rename .rollback ≠ none ∧ c.replace.rename .plain ≠ none
  whole : ∀ f, r.2 dst = some f → r.2 dst = t dst ∨ f.content = new.content

/-- The rename that replaces. -/
theorem replace_eq (c : Calls α) (t : Files (Inode α)) (tmp dst : Path) :
    renameFiles .none c.replace tmp dst t = rename (c.replace.rename .plain) tmp dst t := by
  simp [renameFiles, Flags.none]

theorem taken_replace {new : Inode α} (hnew : t tmp = some new) :
    Taken c tmp dst t new (renameFiles .none c.replace tmp dst t) := by
  rw [replace_eq]
  by_cases hfails : c.replace.rename .plain ≠ none ∨ t tmp = none
  · obtain ⟨e, hrun⟩ := rename_fails (b := dst) hfails
    rw [hrun]
    refine ⟨fun _ _ _ _ => rfl, fun h => ?_, fun _ => .inl rfl,
      fun hdst hgone => absurd hgone hdst, fun _ _ => .inl rfl⟩
    cases h
  · rw [rename_works hfails]
    have hdst : move t tmp dst dst = some new := by rw [move_apply, if_pos rfl, hnew]
    refine ⟨fun p ht hd _ => (if_neg hd).trans (if_neg ht), fun _ => ⟨new, hdst, rfl⟩,
      fun h => absurd rfl h, fun _ h => ?_, fun f hf => .inr ?_⟩
    · cases hdst.symm.trans h
    · rw [Option.some.inj (hdst.symm.trans hf)]

/-- The rename that replaces, after an exchange that has failed. -/
theorem Replaced.replace {new : Inode α} {r : Outcome (Inode α)}
    (h : Replaced c.exchange tmp dst (swapPath dst) t r) (hnew : t tmp = some new)
    (herror : r.1 ≠ .ok ()) : Taken c tmp dst t new (renameFiles .none c.replace tmp dst r.2) := by
  rw [replace_eq]
  rcases h.error herror with ⟨htmp, hdst⟩ | ⟨htmp, hdst, hback⟩
  · rw [hnew] at htmp
    by_cases hfails : c.replace.rename .plain ≠ none ∨ r.2 tmp = none
    · obtain ⟨e, hrun⟩ := rename_fails (b := dst) hfails
      rw [hrun]
      refine ⟨h.frame, fun hok => ?_, fun _ => hdst.imp_right fun h => h.2.1,
        fun hold hgone => ?_, fun f hf => ?_⟩
      · cases hok
      · obtain ⟨-, -, hin, hroll⟩ := hdst.resolve_left fun hsame => hold (hsame ▸ hgone)
        exact ⟨hin, hroll, hfails.resolve_right (by simp [htmp])⟩
      · refine .inl (hdst.resolve_right fun hgone => ?_)
        cases hgone.1.symm.trans hf
    · rw [rename_works hfails]
      have hnow : move r.2 tmp dst dst = some new := by rw [move_apply, if_pos rfl, htmp]
      refine ⟨fun p ht hd hb => ((if_neg hd).trans (if_neg ht)).trans (h.frame p ht hd hb),
        fun _ => ⟨new, hnow, rfl⟩, fun herr => absurd rfl herr, fun _ hgone => ?_,
        fun f hf => .inr ?_⟩
      · cases hnow.symm.trans hgone
      · rw [Option.some.inj (hnow.symm.trans hf)]
  · rw [hnew] at hdst
    have hfails : c.replace.rename .plain ≠ none ∨ r.2 tmp = none := .inr htmp
    obtain ⟨e, hrun⟩ := rename_fails (b := dst) hfails
    rw [hrun]
    refine ⟨h.frame, fun hok => ?_, fun _ => .inr hback, fun _ hgone => ?_, fun f hf => .inr ?_⟩
    · cases hok
    · cases hdst.symm.trans hgone
    · rw [Option.some.inj (hdst.symm.trans hf)]

theorem Beside.takePlace {new : Inode α} (h : Beside t tmp dst (swapPath dst))
    (hnew : t tmp = some new) : Taken c tmp dst t new (takePlace c tmp dst t) := by
  unfold FileReplacement.takePlace
  by_cases hexchange : c.exchangeRange = true ∧ t dst ≠ none
  swap
  · rw [if_neg hexchange]
    exact taken_replace hnew
  rw [if_pos hexchange]
  by_cases hbtrfs : c.btrfs = true
  · rw [if_pos hbtrfs]
    have hrun : Replaced c.exchange tmp dst (swapPath dst) t
        (renameFiles .renameExchange c.exchange tmp dst t) := h.exchange
    generalize renameFiles .renameExchange c.exchange tmp dst t = r at hrun
    obtain ⟨res, u⟩ := r
    cases res with
    | ok x =>
      obtain ⟨hdst, -⟩ := hrun.ok rfl
      rw [hnew] at hdst
      refine ⟨hrun.frame, fun _ => ⟨new, hdst, rfl⟩, fun herr => absurd rfl herr,
        fun _ hgone => ?_, fun f hf => .inr ?_⟩
      · cases hdst.symm.trans hgone
      · rw [Option.some.inj (hdst.symm.trans hf)]
    | error e => exact hrun.replace hnew (by simp)
  · rw [if_neg hbtrfs]
    by_cases hcontents : c.exchanged = true
    · rw [if_pos hcontents]
      obtain ⟨old, hold⟩ := Option.ne_none_iff_exists'.mp h.old
      have hrun : atomicExchange tmp dst t =
          put (put t tmp (some { new with content := old.content })) dst
            (some { old with content := new.content }) := by
        simp [atomicExchange, hnew, hold]
      rw [hrun]
      have hdst : put (put t tmp (some { new with content := old.content })) dst
          (some { old with content := new.content }) dst =
            some { old with content := new.content } := if_pos rfl
      refine ⟨fun p ht hd _ => (if_neg hd).trans (if_neg ht), fun _ => ⟨_, hdst, rfl⟩,
        fun herr => absurd rfl herr, fun _ hgone => ?_, fun f hf => .inr ?_⟩
      · cases hdst.symm.trans hgone
      · rw [← Option.some.inj (hdst.symm.trans hf)]
    · rw [if_neg hcontents]
      exact taken_replace hnew

end Place

/-! ## Copies -/

section Copies
variable {α : Type} {c : Calls α} {src : SparseFile} {size : ℕ} {uuid : String} {dst : Path}
  {t : Files (Inode α)}

/-- The temporary file is not the backup of a rename. -/
theorem tempPath_ne_swapPath (h : tempPath dst uuid ≠ dst) : swapPath dst ≠ tempPath dst uuid := by
  unfold tempPath swapPath withExtension at *
  cases hlast : dst.getLast? with
  | none => simp [hlast] at h
  | some name =>
    simp only [hlast] at h ⊢
    by_cases hroot : name = "/" ∨ name = ".."
    · exact absurd (if_pos hroot) h
    · rw [if_neg hroot, if_neg hroot]
      intro heq
      have hname := List.singleton_inj.mp (List.append_cancel_left heq)
      have hchars := congrArg String.toList hname
      simp [String.toList_append] at hchars

/-- What a copy may leave. -/
structure Safe (c : Calls α) (src : SparseFile) (size : ℕ) (uuid : String) (dst : Path)
    (t : Files (Inode α)) (r : Bool × Files (Inode α)) : Prop where
  frame : ∀ p, p ≠ tempPath dst uuid → p ≠ dst → p ≠ swapPath dst → r.2 p = t p
  /-- A copy that succeeds has put at the destination what has been transferred. -/
  ok : r.1 = true → ∃ f, r.2 dst = some f ∧ transfer c src size = some f.content
  /-- After an error the old file is still there, or beside the destination. -/
  error : r.1 = false → r.2 dst = t dst ∨ r.2 (swapPath dst) = t dst
  /-- The destination goes missing only if three renames fail in a row. -/
  missing : t dst ≠ none → r.2 dst = none → c.exchange.rename .moveIn ≠ none ∧
    c.exchange.rename .rollback ≠ none ∧ c.replace.rename .plain ≠ none
  /-- Nothing else is ever at the destination than the old file or all that is transferred. -/
  whole : ∀ f, r.2 dst = some f → r.2 dst = t dst ∨ transfer c src size = some f.content

/-- Before the copy takes its place, only the temporary file is touched. -/
theorem executeFullCopyLogic_spec (tmp : Path) :
    (∀ p, p ≠ tmp → (executeFullCopyLogic c src size tmp t).2 p = t p) ∧
      ((executeFullCopyLogic c src size tmp t).1 = .finished true →
        ∃ f, (executeFullCopyLogic c src size tmp t).2 tmp = some f ∧
          transfer c src size = some f.content) := by
  unfold executeFullCopyLogic
  by_cases hopened : (!c.opened) = true
  · rw [if_pos hopened]
    exact ⟨fun _ _ => rfl, fun h => by cases h⟩
  by_cases hprepared : (!c.prepared) = true
  · rw [if_neg hopened, if_pos hprepared]
    exact ⟨fun _ _ => rfl, fun h => by cases h⟩
  by_cases hmeasured : (!c.measured) = true
  · rw [if_neg hopened, if_neg hprepared, if_pos hmeasured]
    exact ⟨fun p hp => if_neg hp, fun h => by cases h⟩
  rw [if_neg hopened, if_neg hprepared, if_neg hmeasured]
  cases htransfer : transfer c src size with
  | none => exact ⟨fun p hp => if_neg hp, fun h => by cases h⟩
  | some content => exact ⟨fun p hp => if_neg hp, fun _ => ⟨_, if_pos rfl, rfl⟩⟩

theorem removeFile_of_ne {removes : Bool} {a p : Path} {u : Files (Inode α)} (hp : p ≠ a) :
    removeFile removes a u p = u p := by
  unfold removeFile
  split_ifs
  · exact if_neg hp
  · rfl

/-- A copy has come to the place of the destination, or it has failed and left nothing but a
temporary file. -/
theorem executeCopyFile_cases :
    ((executeCopyFile c src size uuid dst t).1 = false ∧
      ∀ p, p ≠ tempPath dst uuid → (executeCopyFile c src size uuid dst t).2 p = t p) ∨
    ∃ u f, u (tempPath dst uuid) = some f ∧ transfer c src size = some f.content ∧
      (∀ p, p ≠ tempPath dst uuid → u p = t p) ∧
      executeCopyFile c src size uuid dst t =
        ((takePlace c (tempPath dst uuid) dst u).1.isOk,
          (takePlace c (tempPath dst uuid) dst u).2) := by
  obtain ⟨hframe, htransfer⟩ :=
    @executeFullCopyLogic_spec α c src size t (tempPath dst uuid)
  unfold executeCopyFile
  dsimp only
  generalize executeFullCopyLogic c src size (tempPath dst uuid) t = r at hframe htransfer
  obtain ⟨result, u⟩ := r
  cases result with
  | error => exact .inl ⟨rfl, hframe⟩
  | finished ok =>
    cases ok with
    | false =>
      exact .inl ⟨rfl, fun p hp => (removeFile_of_ne hp).trans (hframe p hp)⟩
    | true =>
      obtain ⟨f, hf, hcontent⟩ := htransfer rfl
      dsimp only at hf hframe ⊢
      by_cases hsynced : (c.skipFsync || c.synced) = true
      swap
      · rw [if_neg hsynced]
        exact .inl ⟨rfl, hframe⟩
      · rw [if_pos hsynced]
        refine .inr ⟨applyMetadata c (tempPath dst uuid) u, { f with metadata := c.applied }, ?_,
          hcontent, fun p hp => (if_neg hp).trans (hframe p hp), rfl⟩
        simp [applyMetadata, put_apply, hf]

/-- The same, with what a copy does that comes to the place of the destination. -/
theorem executeCopyFile_taken (hname : tempPath dst uuid ≠ dst) (hbackup : swapPath dst ≠ dst) :
    ((executeCopyFile c src size uuid dst t).1 = false ∧
      ∀ p, p ≠ tempPath dst uuid → (executeCopyFile c src size uuid dst t).2 p = t p) ∨
    ∃ u f, transfer c src size = some f.content ∧ (∀ p, p ≠ tempPath dst uuid → u p = t p) ∧
      Taken c (tempPath dst uuid) dst u f (takePlace c (tempPath dst uuid) dst u) ∧
      executeCopyFile c src size uuid dst t =
        ((takePlace c (tempPath dst uuid) dst u).1.isOk,
          (takePlace c (tempPath dst uuid) dst u).2) := by
  refine executeCopyFile_cases.imp_right ?_
  rintro ⟨u, f, hf, hcontent, hframe, hrun⟩
  refine ⟨u, f, hcontent, hframe, ?_, hrun⟩
  have hdst : u dst = t dst := hframe dst hname.symm
  by_cases hold : t dst = none
  · have hplain : takePlace c (tempPath dst uuid) dst u =
        renameFiles .none c.replace (tempPath dst uuid) dst u :=
      if_neg fun h => h.2 (hdst.trans hold)
    rw [hplain]
    exact taken_replace hf
  · exact Beside.takePlace ⟨by simp [hf], hdst.trans_ne hold, hname,
      tempPath_ne_swapPath hname, hbackup⟩ hf

/-- Whatever fails, and whenever the process is killed, a destination that is not itself named
like the backup of a rename has its old file or a complete new one, or is missing in the middle of
an exchange by three renames, when the old file is beside it. -/
theorem executeCopyFile_safe (hname : tempPath dst uuid ≠ dst) (hbackup : swapPath dst ≠ dst) :
    Safe c src size uuid dst t (executeCopyFile c src size uuid dst t) := by
  rcases @executeCopyFile_taken α c src size uuid dst t hname hbackup with
    ⟨hfailed, hframe⟩ | ⟨u, f, hcontent, hframe, htaken, hrun⟩
  · have hdst := hframe dst hname.symm
    refine ⟨fun p hp _ _ => hframe p hp, fun hok => ?_, fun _ => .inl hdst,
      fun hold hgone => absurd (hdst.symm.trans hgone) hold, fun _ _ => .inl hdst⟩
    rw [hfailed] at hok
    cases hok
  · have hdst : u dst = t dst := hframe dst hname.symm
    rw [hrun]
    generalize takePlace c (tempPath dst uuid) dst u = r at htaken
    obtain ⟨result, v⟩ := r
    refine ⟨fun p hp hd hb => (htaken.frame p hp hd hb).trans (hframe p hp), fun hok => ?_,
      fun herr => ?_, fun hold hgone => htaken.missing (hdst.trans_ne hold) hgone, fun g hg => ?_⟩
    · cases result with
      | error e => cases hok
      | ok x =>
        obtain ⟨g, hg, hsame⟩ := htaken.ok rfl
        exact ⟨g, hg, by rw [hsame, hcontent]⟩
    · cases result with
      | ok x => cases herr
      | error e =>
        have hleft := htaken.error (by simp)
        rwa [hdst] at hleft
    · refine (htaken.whole g hg).imp (fun h => h.trans hdst) fun h => ?_
      rw [h, hcontent]

/-- A file "a.txt", and nothing else. -/
def oneFile : Files (Inode ℕ) := fun p => if p = ["a.txt"] then some ⟨[1], 7⟩ else none

/-- The flags of the rename are not known, there is no reflink to the backup, and the process is
killed when the destination has been moved there. -/
def killed : Calls ℕ :=
  { plainTarget with
    exchange := ⟨0, some .einval, some none,
      fun call => if call = .moveAway then none else some .other, false⟩
    replace := ⟨0, none, none, fun _ => some .other, false⟩ }

/-- Then the old file is at the backup only. -/
theorem killed_safe : Safe killed byteThenHole 3 "0" ["a.txt"] oneFile
      (executeCopyFile killed byteThenHole 3 "0" ["a.txt"] oneFile) ∧
    (executeCopyFile killed byteThenHole 3 "0" ["a.txt"] oneFile).2 ["a.txt"] = none ∧
    (executeCopyFile killed byteThenHole 3 "0" ["a.txt"] oneFile).2 ["a.exchange_bak"] =
      some ⟨[1], 7⟩ :=
  ⟨executeCopyFile_safe (by decide +kernel) (by decide +kernel), by decide +kernel,
    by decide +kernel⟩

end Copies

/-! ## What is left beside the destination -/

/-- The names that the cleanup takes for those of temporary files. -/
def orphaned (name : String) : Bool := ".tmp.".toList.isPrefixOf name.toList

/-- Temporary files are removed if they are old. -/
def runCleanup {α : Type} (old : Path → Bool) (t : Files α) : Files α :=
  fun p => if (p.getLast?.map orphaned).getD false && old p then none else t p

/-- A file is copied to the destination, or the cleanup is run. -/
inductive Action (α : Type) where
  | copy (c : Calls α) (src : SparseFile) (uuid : String)
  | cleanup (old : Path → Bool)

section Leftovers
variable {α : Type} (dst : Path)

def step (t : Files (Inode α)) : Action α → Files (Inode α)
  | .copy c src uuid => (executeCopyFile c src src.content.length uuid dst t).2
  | .cleanup old => runCleanup old t

/-- The copies succeed, the target exchanges the two files, and the temporary names are new. -/
def Exchanges (t : Files (Inode α)) : Action α → Prop
  | .copy c src uuid =>
    (executeCopyFile c src src.content.length uuid dst t).1 = true ∧ c.exchangeRange = true ∧
      (if c.btrfs then c.exchange.renameat2 = none else c.exchanged = true) ∧
      t (tempPath dst uuid) = none
  | .cleanup _ => True

variable {dst} {c : Calls α} {src : SparseFile} {uuid : String} {t : Files (Inode α)} {p : Path}

theorem fileStem_prefix (name : List Char) : fileStem name <+: name := by
  unfold fileStem
  dsimp only
  split_ifs
  · exact List.prefix_rfl
  · have hsuffix : (name.reverse.dropWhile (· ≠ '.')).drop 1 <:+ name.reverse :=
      (List.drop_suffix _ _).trans (List.dropWhile_suffix _)
    simpa using List.reverse_prefix.mpr hsuffix

theorem fileStem_ne_nil {name : List Char} (h : name ≠ []) : fileStem name ≠ [] := by
  unfold fileStem
  dsimp only
  split_ifs with hbefore
  · exact h
  · simpa using hbefore

/-- The extension stands behind the name of the destination, where the cleanup does not look. -/
theorem not_orphaned {name : String} (hlast : dst.getLast? = some name) (hne : name ≠ "")
    (htmp : ¬ ".tmp".toList <+: name.toList) (hname : tempPath dst uuid ≠ dst) :
    ((tempPath dst uuid).getLast?.map orphaned).getD false = false := by
  have hplain : ¬ (name = "/" ∨ name = "..") := by
    intro hroot
    refine hname ?_
    unfold tempPath withExtension
    simp only [hlast, if_pos hroot]
  have hpath : tempPath dst uuid =
      dst.dropLast ++ [String.ofList (fileStem name.toList) ++ "." ++ ("tmp." ++ uuid)] := by
    unfold tempPath withExtension
    simp only [hlast, if_neg hplain]
  have hchars : name.toList ≠ [] := by simpa using hne
  rw [hpath, List.getLast?_concat, Option.map_some, Option.getD_some, orphaned]
  by_contra horphaned
  rw [Bool.not_eq_false, List.isPrefixOf_iff_prefix] at horphaned
  simp only [String.toList_append, String.toList_ofList] at horphaned
  have hstem := fileStem_ne_nil hchars
  refine htmp (List.IsPrefix.trans ?_ ( fileStem_prefix name.toList))
  generalize fileStem name.toList = stem at hstem horphaned
  match stem with
  | [] => exact absurd rfl hstem
  | [a] => simp at horphaned
  | [a, b] => simp at horphaned
  | [a, b, d] => simp at horphaned
  | a :: b :: d :: e :: rest =>
    simp at horphaned ⊢
    obtain ⟨ha, hb, hd, he, -⟩ := horphaned
    exact ⟨ha, hb, hd, he⟩

/-- After an exchange the content of the old file is under the temporary name. -/
theorem Exchanges.copy {old : Inode α} (h : Exchanges dst t (.copy c src uuid))
    (hold : t dst = some old) :
    (∃ g, step dst t (.copy c src uuid) (tempPath dst uuid) = some g ∧ g.content = old.content) ∧
      step dst t (.copy c src uuid) dst ≠ none ∧
      ∀ p, p ≠ dst → t p ≠ none → step dst t (.copy c src uuid) p = t p := by
  obtain ⟨hok, hrange, hworks, hfree⟩ := h
  have hne : tempPath dst uuid ≠ dst := by
    intro heq
    rw [heq, hold] at hfree
    cases hfree
  obtain ⟨u, f, hf, -, hframe, hrun⟩ := executeCopyFile_cases.resolve_left fun h => by
    rw [h.1] at hok
    cases hok
  have hdst : u dst = some old := (hframe dst hne.symm).trans hold
  rw [step, hrun, takePlace, if_pos ⟨hrange, by simp [hdst]⟩]
  have htemp : ∀ p, t p ≠ none → p ≠ tempPath dst uuid := by
    rintro p hp rfl
    exact hp hfree
  by_cases hbtrfs : c.btrfs = true
  · rw [if_pos hbtrfs] at hworks ⊢
    have hrun : renameFiles .renameExchange c.exchange (tempPath dst uuid) dst u =
        (.ok (), swap u (tempPath dst uuid) dst) := by
      simp [renameFiles, renameat2, hworks, hf, hdst, Flags.renameExchange]
    rw [hrun]
    refine ⟨⟨old, (if_pos rfl).trans hdst, rfl⟩, ?_, fun p hp hthere => ?_⟩
    · dsimp only
      rw [swap_right hne, hf]
      simp
    · exact ((if_neg (htemp p hthere)).trans (if_neg hp)).trans (hframe p (htemp p hthere))
  · rw [if_neg hbtrfs] at hworks ⊢
    rw [if_pos hworks]
    have hrun : atomicExchange (tempPath dst uuid) dst u =
        put (put u (tempPath dst uuid) (some { f with content := old.content })) dst
          (some { old with content := f.content }) := by
      simp [atomicExchange, hf, hdst]
    rw [hrun]
    refine ⟨⟨{ f with content := old.content }, (if_neg hne).trans (if_pos rfl), rfl⟩, ?_,
      fun p hp hthere => ?_⟩
    · simp [put_apply]
    · exact ((if_neg hp).trans (if_neg (htemp p hthere))).trans (hframe p (htemp p hthere))

/-- Files whose names the cleanup does not look for. -/
theorem runCleanup_of_not {old : Path → Bool} (h : (p.getLast?.map orphaned).getD false = false) :
    runCleanup old t p = t p := by
  simp [runCleanup, h]

theorem Exchanges.step {a : Action α} (h : Exchanges dst t a)
    (hlast : (dst.getLast?.map orphaned).getD false = false) (hdst : t dst ≠ none) :
    step dst t a dst ≠ none ∧ ∀ p, p ≠ dst → (p.getLast?.map orphaned).getD false = false →
      t p ≠ none → FileReplacement.step dst t a p = t p := by
  cases a with
  | cleanup old =>
    refine ⟨?_, fun p _ hp _ => runCleanup_of_not hp⟩
    rwa [FileReplacement.step, runCleanup_of_not hlast]
  | copy c src uuid =>
    obtain ⟨old, hold⟩ := Option.ne_none_iff_exists'.mp hdst
    obtain ⟨-, hthere, hkeeps⟩ := h.copy hold
    exact ⟨hthere, fun p hp _ => hkeeps p hp⟩

/-- What is under another name stays there in a run. -/
theorem kept_along {as : List (Action α)} (has : Run.Along (step dst) (Exchanges dst) t as)
    (hlast : (dst.getLast?.map orphaned).getD false = false) (hdst : t dst ≠ none) (hp : p ≠ dst)
    (hname : (p.getLast?.map orphaned).getD false = false) (hthere : t p ≠ none) :
    Run.exec (step dst) t as p = t p := by
  induction as generalizing t with
  | nil => rfl
  | cons a as ih =>
    obtain ⟨ha, hrest⟩ := has
    obtain ⟨hdst', hkeeps⟩ := ha.step hlast hdst
    have hsame := hkeeps p hp hname hthere
    exact (ih hrest hdst' (by rwa [hsame])).trans hsame

/-- Every version of a file that has been replaced by an exchange stays under the temporary name
of the copy that has replaced it, however often the cleanup is run. -/
theorem versions_left {name : String} {as before after : List (Action α)}
    (has : Run.Along (step dst) (Exchanges dst) t as) (hdst : t dst ≠ none)
    (hlast : dst.getLast? = some name) (hne : name ≠ "") (htmp : ¬ ".tmp".toList <+: name.toList)
    (hsplit : as = before ++ .copy c src uuid :: after) :
    ∃ f g, Run.exec (step dst) t before dst = some f ∧
      Run.exec (step dst) t as (tempPath dst uuid) = some g ∧ g.content = f.content := by
  subst hsplit
  have hvisible : (dst.getLast?.map orphaned).getD false = false := by
    rw [hlast, Option.map_some, Option.getD_some, orphaned]
    by_contra horphaned
    rw [Bool.not_eq_false, List.isPrefixOf_iff_prefix] at horphaned
    exact htmp (List.IsPrefix.trans (by decide) horphaned)
  rw [Run.along_append] at has
  obtain ⟨hbefore, hcopy, hafter⟩ := has
  have hthere : Run.exec (step dst) t before dst ≠ none :=
    Run.invariant (step dst) (I := fun t => t dst ≠ none)
      (fun t a ha ht => (Exchanges.step ha hvisible ht).1) hbefore hdst
  rw [Run.exec_append, Run.exec_cons]
  generalize Run.exec (step dst) t before = u at hthere hcopy hafter
  obtain ⟨f, hf⟩ := Option.ne_none_iff_exists'.mp hthere
  obtain ⟨⟨g, hg, hsame⟩, hdst', -⟩ := hcopy.copy hf
  have hname : tempPath dst uuid ≠ dst := by
    intro heq
    have hfree := hcopy.2.2.2
    rw [heq, hf] at hfree
    cases hfree
  refine ⟨f, g, hf, ?_, hsame⟩
  rw [kept_along hafter hvisible hdst' hname (not_orphaned hlast hne htmp hname) (by simp [hg]), hg]

/-- Two copies to "a.txt", and the cleanup. -/
def twoCopies : List (Action ℕ) :=
  [.copy plainTarget byteThenHole "0", .cleanup fun _ => true,
    .copy plainTarget byteThenHole "1", .cleanup fun _ => true]

/-- What the first copy has replaced is still there. -/
theorem twoCopies_left : ∃ g, Run.exec (step ["a.txt"]) oneFile twoCopies
      (tempPath ["a.txt"] "0") = some g ∧ g.content = [1] := by
  have has : Run.Along (step ["a.txt"]) (Exchanges ["a.txt"]) oneFile twoCopies :=
    ⟨⟨by decide +kernel, rfl, rfl, by decide +kernel⟩, trivial,
      ⟨by decide +kernel, rfl, rfl, by decide +kernel⟩, trivial, trivial⟩
  have hlast : (["a.txt"] : Path).getLast? = some "a.txt" := rfl
  have hsplit : twoCopies = [] ++ .copy plainTarget byteThenHole "0" :: twoCopies.tail := rfl
  obtain ⟨f, g, hf, hg, hsame⟩ :=
    versions_left has (by decide) hlast (by decide) (by decide) hsplit
  obtain rfl : ⟨[1], 7⟩ = f := Option.some.inj hf
  exact ⟨g, hg, hsame⟩

end Leftovers

end Foxing.FileReplacement
