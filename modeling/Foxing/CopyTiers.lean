import Foxing.FileReplacement
import Mathlib.Data.List.Forall2

/-!
# The ways in which fxcp copies a file

A run of fxcp tries the fastest way to copy a file first: a reflink, then `copy_file_range`, then
the plain copy of a small file, and last the copy under a temporary name. The first three write
into the destination itself, and what a way that fails has left there is what the next one finds.
Every call may fail. The files come to the ways in the order of the run, and each is counted once.
-/
namespace Foxing.CopyTiers
open FileReplacement AtomicRename Slots

/-- How the calls for a file end, in the order of the source. -/
structure Calls (α : Type) where
  sameDevice : Bool
  dstIsNfs : Bool
  sparse : Bool
  /-- The source can be opened for a reflink, and the destination created. -/
  reflinkOpened : Bool
  cloned : Bool
  /-- The same for `copy_file_range`, and what it returns at an offset unless it fails. -/
  rangeOpened : Bool
  ranges : ℕ → Option ℕ
  /-- A destination without content can be removed, and one that is too short. -/
  removesEmpty : Bool
  removesShort : Bool
  /-- The plain copy works, or fails when some bytes have been written, if it has created the
  destination at all. -/
  small : Bool
  smallLeft : Option ℕ
  /-- The metadata of a new file, and of one that has been copied. -/
  fresh : α
  preserved : α
  archive : Bool
  copy : FileReplacement.Calls α
  /-- The last copy has found that the source or the target is gone. -/
  vanished : Bool

inductive Counted where
  | reflinked | cfr | small | copied | skipped | error
  deriving DecidableEq, Repr

section Tiers
variable {α : Type} (c : Calls α) (src : SparseFile) (size : ℕ) (dst : Path)

/-- The destination is created, or loses its content. -/
def create (t : Files (Inode α)) : Files (Inode α) :=
  put t dst (some ⟨[], ((t dst).map Inode.metadata).getD c.fresh⟩)

def setContent (content : Bytes) (t : Files (Inode α)) : Files (Inode α) :=
  put t dst ((t dst).map fun f => { f with content := content })

/-- The metadata follows, if it is asked for. -/
def preserveMetadata (t : Files (Inode α)) : Files (Inode α) :=
  if c.archive then put t dst ((t dst).map fun f => { f with metadata := c.preserved }) else t

def tryReflinkCopy (t : Files (Inode α)) : Bool × Files (Inode α) :=
  if !c.reflinkOpened then (false, t)
  else if c.cloned then (true, setContent dst src.content (create c dst t))
  else (false, create c dst t)

/-- The loop of `copy_file_range`, when `total` bytes have been copied: whether a call has failed,
how many bytes there are, and what the destination has. The size is enough fuel
(`copyRanges_fuel`). -/
def copyRanges : ℕ → ℕ → Bytes → Bool × ℕ × Bytes
  | 0, total, d => (false, total, d)
  | fuel + 1, total, d =>
    if size ≤ total then (false, total, d)
    else
      let chunk := min (size - total) (1024 * 1024 * 1024)
      match c.ranges total with
      | none => (true, total, d)
      | some n =>
        let ret := min n (min chunk (src.content.length - total))
        if ret = 0 then (false, total, d)
        else copyRanges fuel (total + ret)
          (Chunks.write total ((src.content.drop total).take ret) d)

/-- The number of bytes that have been copied, unless there is an error. -/
def tryCopyFileRange (t : Files (Inode α)) : Option ℕ × Files (Inode α) :=
  if !c.rangeOpened then (none, t)
  else
    match copyRanges c src size (size + 1) 0 [] with
    | (true, total, d) =>
      if total = 0 then (none, removeFile c.removesEmpty dst (create c dst t))
      else (none, setContent dst d (create c dst t))
    | (false, total, d) => (some total, setContent dst d (create c dst t))

def copySmallFile (t : Files (Inode α)) : Bool × Files (Inode α) :=
  if c.small then (true, setContent dst src.content (create c dst t))
  else
    match c.smallLeft with
    | none => (false, t)
    | some n => (false, setContent dst (src.content.take n) (create c dst t))

def smallFileThreshold : ℕ := 64 * 1024

/-- Tier 3: the copy under a temporary name. -/
def optimizedCopy (uuid : String) (t : Files (Inode α)) : Counted × Files (Inode α) :=
  match executeCopyFile c.copy src size uuid dst t with
  | (true, t) => (.copied, preserveMetadata c dst t)
  | (false, t) => (if c.vanished then .skipped else .error, t)

/-- From tier 2 on. -/
def fromSmall (uuid : String) (t : Files (Inode α)) : Counted × Files (Inode α) :=
  if size ≤ smallFileThreshold ∧ c.sparse = false then
    match copySmallFile c src dst t with
    | (true, t) => (.small, preserveMetadata c dst t)
    | (false, t) => optimizedCopy c src size dst uuid t
  else optimizedCopy c src size dst uuid t

/-- From tier 1.5 on. -/
def fromRange (uuid : String) (t : Files (Inode α)) : Counted × Files (Inode α) :=
  if 0 < size ∧ c.sparse = false then
    match tryCopyFileRange c src size dst t with
    | (some bytes, t) =>
      if bytes = size then (.cfr, preserveMetadata c dst t)
      else fromSmall c src size dst uuid (removeFile c.removesShort dst t)
    | (none, t) => fromSmall c src size dst uuid t
  else fromSmall c src size dst uuid t

/-- The ways from tier 1 on. -/
def copyFile (uuid : String) (t : Files (Inode α)) : Counted × Files (Inode α) :=
  if (c.sameDevice || c.dstIsNfs) = true ∧ 0 < size then
    match tryReflinkCopy c src dst t with
    | (true, t) => (.reflinked, preserveMetadata c dst t)
    | (false, t) => fromRange c src size dst uuid t
  else fromRange c src size dst uuid t

end Tiers

/-! ## What a way leaves -/

section Ways
variable {α : Type} {c : Calls α} {src : SparseFile} {size : ℕ} {dst : Path}
  {t u : Files (Inode α)}

/-- What can be left of a file when the ways that write into it have failed: the old file, none,
or a beginning of the source. -/
def Beginning (src : SparseFile) (old new : Option (Inode α)) : Prop :=
  new = old ∨ new = none ∨ ∃ f n, new = some f ∧ f.content = src.content.take n

theorem Beginning.trans {old mid new : Option (Inode α)} (h : Beginning src old mid)
    (h' : Beginning src mid new) : Beginning src old new := by
  rcases h' with rfl | hleft
  · exact h
  · exact .inr hleft

/-- A way has failed. -/
structure Failed (src : SparseFile) (dst : Path) (t u : Files (Inode α)) : Prop where
  frame : ∀ p, p ≠ dst → u p = t p
  left : Beginning src (t dst) (u dst)

/-- A way has put something at the destination. -/
structure Holds (content : Bytes) (dst : Path) (t u : Files (Inode α)) : Prop where
  frame : ∀ p, p ≠ dst → u p = t p
  there : ∃ f, u dst = some f ∧ f.content = content

theorem Failed.refl (src : SparseFile) (dst : Path) (t : Files (Inode α)) : Failed src dst t t :=
  ⟨fun _ _ => rfl, .inl rfl⟩

theorem Holds.failed {n : ℕ} (h : Holds (src.content.take n) dst t u) : Failed src dst t u := by
  obtain ⟨f, hf, hcontent⟩ := h.there
  exact ⟨h.frame, .inr (.inr ⟨f, n, hf, hcontent⟩)⟩

theorem holds_created (c : Calls α) (dst : Path) (t : Files (Inode α)) :
    Holds [] dst t (create c dst t) :=
  ⟨fun _ hp => if_neg hp, ⟨_, if_pos rfl, rfl⟩⟩

/-- What is written into a destination that has been created. -/
theorem holds_written (c : Calls α) (content : Bytes) (dst : Path) (t : Files (Inode α)) :
    Holds content dst t (setContent dst content (create c dst t)) := by
  refine ⟨fun p hp => (if_neg hp).trans (if_neg hp), ?_⟩
  simp [setContent, create, put_apply]

theorem Holds.removed {removes : Bool} {n : ℕ} (h : Holds (src.content.take n) dst t u) :
    Failed src dst t (removeFile removes dst u) := by
  unfold removeFile
  split_ifs
  · exact ⟨fun p hp => (if_neg hp).trans (h.frame p hp), .inr (.inl (if_pos rfl))⟩
  · exact h.failed

theorem Holds.preserve {content : Bytes} (h : Holds content dst t u) (c : Calls α) :
    Holds content dst t (preserveMetadata c dst u) := by
  obtain ⟨f, hf, hcontent⟩ := h.there
  unfold preserveMetadata
  split_ifs
  · refine ⟨fun p hp => (if_neg hp).trans (h.frame p hp), ?_⟩
    simp [put_apply, hf, hcontent]
  · exact h

/-- After any number of turns the destination has as much of the source as has been counted. -/
theorem copyRanges_beginning {fuel total : ℕ} (htotal : total ≤ src.content.length) :
    ∃ failed n, copyRanges c src size fuel total (Chunks.write 0 (src.content.take total) []) =
      (failed, n, Chunks.write 0 (src.content.take n) []) := by
  induction fuel generalizing total with
  | zero => exact ⟨false, total, rfl⟩
  | succ fuel ih =>
    rw [copyRanges]
    by_cases hdone : size ≤ total
    · rw [if_pos hdone]
      exact ⟨false, total, rfl⟩
    rw [if_neg hdone]
    dsimp only
    cases c.ranges total with
    | none => exact ⟨true, total, rfl⟩
    | some n =>
      dsimp only
      generalize hret : min n (min (min (size - total) (1024 * 1024 * 1024))
        (src.content.length - total)) = ret
      by_cases hzero : ret = 0
      · rw [if_pos hzero]
        exact ⟨false, total, rfl⟩
      rw [if_neg hzero, write_next htotal]
      exact ih (by omega)

/-- The fuel is enough: every turn but the last copies a byte. -/
theorem copyRanges_fuel {fuel total : ℕ} {d : Bytes} (h : size < fuel + total) :
    copyRanges c src size (fuel + 1) total d = copyRanges c src size fuel total d := by
  induction fuel generalizing total d with
  | zero =>
    have hdone : size ≤ total := by omega
    simp only [copyRanges, if_pos hdone]
  | succ fuel ih =>
    conv_lhs => rw [copyRanges]
    conv_rhs => rw [copyRanges]
    by_cases hdone : size ≤ total
    · rw [if_pos hdone, if_pos hdone]
    rw [if_neg hdone, if_neg hdone]
    dsimp only
    cases c.ranges total with
    | none => rfl
    | some n =>
      dsimp only
      split_ifs with hzero
      · rfl
      · exact ih (by omega)

theorem tryReflinkCopy_spec (c : Calls α) (src : SparseFile) (dst : Path) (t : Files (Inode α)) :
    ((tryReflinkCopy c src dst t).1 = true ∧
        Holds src.content dst t (tryReflinkCopy c src dst t).2) ∨
      ((tryReflinkCopy c src dst t).1 = false ∧
        Failed src dst t (tryReflinkCopy c src dst t).2) := by
  have hcreated : Holds (src.content.take 0) dst t (create c dst t) := holds_created c dst t
  unfold tryReflinkCopy
  split_ifs
  · exact .inr ⟨rfl, .refl src dst t⟩
  · exact .inl ⟨rfl, holds_written c src.content dst t⟩
  · exact .inr ⟨rfl, hcreated.failed⟩

theorem tryCopyFileRange_spec (c : Calls α) (src : SparseFile) (size : ℕ) (dst : Path)
    (t : Files (Inode α)) :
    (∃ n, (tryCopyFileRange c src size dst t).1 = some n ∧
        Holds (src.content.take n) dst t (tryCopyFileRange c src size dst t).2) ∨
      ((tryCopyFileRange c src size dst t).1 = none ∧
        Failed src dst t (tryCopyFileRange c src size dst t).2) := by
  have hcreated : Holds (src.content.take 0) dst t (create c dst t) := holds_created c dst t
  have hloop : ∃ failed n, copyRanges c src size (size + 1) 0
      (Chunks.write 0 (src.content.take 0) []) =
        (failed, n, Chunks.write 0 (src.content.take n) []) :=
    copyRanges_beginning (Nat.zero_le _)
  obtain ⟨failed, n, hrun⟩ := hloop
  have hwhole : Chunks.write 0 (src.content.take n) [] = src.content.take n :=
    write_whole (Nat.zero_le _)
  rw [List.take_zero, Chunks.write_nil, hwhole] at hrun
  have hwritten := holds_written c (src.content.take n) dst t
  unfold tryCopyFileRange
  rw [hrun]
  by_cases hopened : (!c.rangeOpened) = true
  · rw [if_pos hopened]
    exact .inr ⟨rfl, .refl src dst t⟩
  rw [if_neg hopened]
  cases failed with
  | false => exact .inl ⟨n, rfl, hwritten⟩
  | true =>
    dsimp only
    split_ifs
    · exact .inr ⟨rfl, hcreated.removed⟩
    · exact .inr ⟨rfl, hwritten.failed⟩

theorem copySmallFile_spec (c : Calls α) (src : SparseFile) (dst : Path) (t : Files (Inode α)) :
    ((copySmallFile c src dst t).1 = true ∧
        Holds src.content dst t (copySmallFile c src dst t).2) ∨
      ((copySmallFile c src dst t).1 = false ∧ Failed src dst t (copySmallFile c src dst t).2) := by
  unfold copySmallFile
  split_ifs
  · exact .inl ⟨rfl, holds_written c src.content dst t⟩
  · cases c.smallLeft with
    | none => exact .inr ⟨rfl, .refl src dst t⟩
    | some n => exact .inr ⟨rfl, (holds_written c (src.content.take n) dst t).failed⟩

end Ways

/-! ## What is left of a file -/

section File
variable {α : Type} {c : Calls α} {src : SparseFile} {dst : Path} {uuid : String}
  {t u : Files (Inode α)}

/-- What the destination has, by how the file has been counted. An error leaves the old file, or
what the ways that write into it have made of it, or else a copy that is complete. -/
def Delivered (c : Calls α) (src : SparseFile) (old new : Option (Inode α)) : Counted → Prop
  | .reflinked | .cfr | .small => ∃ f, new = some f ∧ f.content = src.content
  | .copied => ∃ f, new = some f ∧ transfer c.copy src src.content.length = some f.content
  | .skipped | .error => Beginning src old new ∨
      ∃ f, new = some f ∧ transfer c.copy src src.content.length = some f.content

/-- The names beside the destination are other names. -/
structure Named (dst : Path) (uuid : String) : Prop where
  temp : tempPath dst uuid ≠ dst
  backup : swapPath dst ≠ dst

structure Done (c : Calls α) (src : SparseFile) (dst : Path) (uuid : String)
    (t : Files (Inode α)) (r : Counted × Files (Inode α)) : Prop where
  frame : ∀ p, p ≠ tempPath dst uuid → p ≠ dst → p ≠ swapPath dst → r.2 p = t p
  delivered : Delivered c src (t dst) (r.2 dst) r.1

theorem Done.after {r : Counted × Files (Inode α)} (h : Failed src dst t u)
    (hdone : Done c src dst uuid u r) : Done c src dst uuid t r := by
  refine ⟨fun p ht hd hs => (hdone.frame p ht hd hs).trans (h.frame p hd), ?_⟩
  have hdelivered := hdone.delivered
  generalize r.1 = counted at hdelivered ⊢
  cases counted with
  | skipped | error => exact hdelivered.imp_left h.left.trans
  | reflinked | cfr | small | copied => exact hdelivered

theorem Holds.done {counted : Counted}
    (hcounted : counted = .reflinked ∨ counted = .cfr ∨ counted = .small)
    (h : Holds src.content dst t u) : Done c src dst uuid t (counted, u) := by
  refine ⟨fun p _ hd _ => h.frame p hd, ?_⟩
  rcases hcounted with rfl | rfl | rfl <;> exact h.there

/-- The copy under a temporary name. -/
theorem done_optimizedCopy (hnamed : Named dst uuid) :
    Done c src dst uuid t (optimizedCopy c src src.content.length dst uuid t) := by
  have hends : ∀ {v : Files (Inode α)}, Delivered c src (t dst) (v dst) .error →
      (∀ p, p ≠ tempPath dst uuid → p ≠ dst → p ≠ swapPath dst → v p = t p) →
      Done c src dst uuid t (if c.vanished then .skipped else .error, v) := by
    intro v hdelivered hframe
    refine ⟨hframe, ?_⟩
    cases c.vanished <;> exact hdelivered
  unfold optimizedCopy
  rcases executeCopyFile_taken hnamed.temp hnamed.backup with
    ⟨hfailed, hframe⟩ | ⟨u, f, hcontent, hframe, htaken, hrun⟩
  · generalize executeCopyFile c.copy src src.content.length uuid dst t = r at hfailed hframe
    obtain ⟨ok, v⟩ := r
    obtain rfl : ok = false := hfailed
    exact hends (.inl (.inl (hframe dst hnamed.temp.symm))) fun p ht _ _ => hframe p ht
  · have hdst : u dst = t dst := hframe dst hnamed.temp.symm
    rw [hrun]
    generalize takePlace c.copy (tempPath dst uuid) dst u = r at htaken
    obtain ⟨result, v⟩ := r
    have hkept : ∀ p, p ≠ tempPath dst uuid → p ≠ dst → p ≠ swapPath dst → v p = t p :=
      fun p ht hd hs => (htaken.frame p ht hd hs).trans (hframe p ht)
    cases result with
    | ok x =>
      obtain ⟨g, hg, hsame⟩ := htaken.ok rfl
      have hholds : Holds f.content dst v v := ⟨fun _ _ => rfl, g, hg, hsame⟩
      have hpreserved := hholds.preserve c
      obtain ⟨g', hg', hsame'⟩ := hpreserved.there
      exact ⟨fun p ht hd hs => (hpreserved.frame p hd).trans (hkept p ht hd hs),
        ⟨g', hg', by rw [hsame', hcontent]⟩⟩
    | error e =>
      have hleft : Delivered c src (t dst) (v dst) .error := by
        cases hv : v dst with
        | none => exact .inl (.inr (.inl rfl))
        | some g =>
          rcases htaken.whole g hv with hsame | hsame
          · exact .inl (.inl (hv.symm.trans (hsame.trans hdst)))
          · exact .inr ⟨g, rfl, by rw [hsame, hcontent]⟩
      exact hends hleft hkept

theorem done_fromSmall (hnamed : Named dst uuid) :
    Done c src dst uuid t (fromSmall c src src.content.length dst uuid t) := by
  unfold fromSmall
  split_ifs
  · have hspec := copySmallFile_spec c src dst t
    generalize copySmallFile c src dst t = r at hspec
    obtain ⟨done, u⟩ := r
    rcases hspec with ⟨rfl, hholds⟩ | ⟨rfl, hfailed⟩
    · exact (hholds.preserve c).done (.inr (.inr rfl))
    · exact (done_optimizedCopy hnamed).after hfailed
  · exact done_optimizedCopy hnamed

theorem done_fromRange (hnamed : Named dst uuid) :
    Done c src dst uuid t (fromRange c src src.content.length dst uuid t) := by
  unfold fromRange
  split_ifs
  · have hspec := tryCopyFileRange_spec c src src.content.length dst t
    generalize tryCopyFileRange c src src.content.length dst t = r at hspec
    obtain ⟨bytes, u⟩ := r
    rcases hspec with ⟨n, rfl, hholds⟩ | ⟨rfl, hfailed⟩
    · dsimp only at hholds ⊢
      split_ifs with hall
      · rw [hall, List.take_length] at hholds
        exact (hholds.preserve c).done (.inr (.inl rfl))
      · exact (done_fromSmall hnamed).after hholds.removed
    · exact (done_fromSmall hnamed).after hfailed
  · exact done_fromSmall hnamed

/-- Whatever fails, a file is what it is counted as. -/
theorem done_copyFile (hnamed : Named dst uuid) :
    Done c src dst uuid t (copyFile c src src.content.length dst uuid t) := by
  unfold copyFile
  split_ifs
  · have hspec := tryReflinkCopy_spec c src dst t
    generalize tryReflinkCopy c src dst t = r at hspec
    obtain ⟨done, u⟩ := r
    rcases hspec with ⟨rfl, hholds⟩ | ⟨rfl, hfailed⟩
    · exact (hholds.preserve c).done (.inl rfl)
    · exact (done_fromRange hnamed).after hfailed
  · exact done_fromRange hnamed

end File

/-! ## A run over files -/

/-- A file that comes to the ways. -/
structure Task (α : Type) where
  calls : Calls α
  src : SparseFile
  dst : Path
  uuid : String

section Files
variable {α : Type} {ks : List (Task α)} {k l : Task α} {t : Files (Inode α)} {p : Path}

def Task.places (k : Task α) : List Path := [tempPath k.dst k.uuid, k.dst, swapPath k.dst]

/-- The files are copied one after another; what each is counted as, and the files they leave. -/
def copyFiles : List (Task α) → Files (Inode α) → List Counted × Files (Inode α)
  | [], t => ([], t)
  | k :: ks, t =>
    let r := copyFile k.calls k.src k.src.content.length k.dst k.uuid t
    let rest := copyFiles ks r.2
    (r.1 :: rest.1, rest.2)

/-- Neither copy touches the destination of the other. -/
def Apart (k l : Task α) : Prop := k.dst ∉ l.places ∧ l.dst ∉ k.places

instance (k l : Task α) : Decidable (Apart k l) := inferInstanceAs (Decidable (_ ∧ _))

theorem Done.kept {r : Counted × Files (Inode α)}
    (h : Done k.calls k.src k.dst k.uuid t r) (hp : p ∉ k.places) : r.2 p = t p := by
  simp only [Task.places, List.mem_cons, List.not_mem_nil, or_false, not_or] at hp
  exact h.frame p hp.1 hp.2.1 hp.2.2

theorem copyFiles_kept (hnamed : ∀ k ∈ ks, Named k.dst k.uuid) (hp : ∀ k ∈ ks, p ∉ k.places) :
    (copyFiles ks t).2 p = t p := by
  induction ks generalizing t with
  | nil => rfl
  | cons k ks ih =>
    have hdone := @done_copyFile α k.calls k.src k.dst k.uuid t
      (hnamed k (List.mem_cons_self ..))
    exact (ih (fun l hl => hnamed l (List.mem_cons_of_mem _ hl))
      fun l hl => hp l (List.mem_cons_of_mem _ hl)).trans
        (hdone.kept (hp k (List.mem_cons_self ..)))

/-- In every run over files whose copies do not touch each other's destinations, whatever fails,
every file is counted once, and at the end its destination has what it is counted as. -/
theorem copyFiles_delivered (hapart : ks.Pairwise Apart)
    (hnamed : ∀ k ∈ ks, Named k.dst k.uuid) :
    List.Forall₂ (fun k counted =>
        Delivered k.calls k.src (t k.dst) ((copyFiles ks t).2 k.dst) counted)
      ks (copyFiles ks t).1 := by
  induction ks generalizing t with
  | nil => exact .nil
  | cons k ks ih =>
    obtain ⟨hfirst, hrest⟩ := List.pairwise_cons.mp hapart
    have hlater : ∀ l ∈ ks, Named l.dst l.uuid := fun l hl =>
      hnamed l (List.mem_cons_of_mem _ hl)
    have hdone := @done_copyFile α k.calls k.src k.dst k.uuid t
      (hnamed k (List.mem_cons_self ..))
    refine .cons ?_ ?_
    · have hkept : (copyFiles (k :: ks) t).2 k.dst =
          (copyFile k.calls k.src k.src.content.length k.dst k.uuid t).2 k.dst :=
        copyFiles_kept hlater fun l hl => (hfirst l hl).1
      rw [hkept]
      exact hdone.delivered
    · refine List.Forall₂.imp (fun l counted h => ?_)
        ((List.forall₂_and_left _ _).mpr ⟨hfirst, ih hrest hlater⟩)
      obtain ⟨hl, hdelivered⟩ := h
      rwa [hdone.kept hl.2] at hdelivered

/-- The plain copy works. -/
def smallWorks : Calls ℕ where
  sameDevice := false
  dstIsNfs := false
  sparse := false
  reflinkOpened := true
  cloned := false
  rangeOpened := false
  ranges _ := none
  removesEmpty := true
  removesShort := true
  small := true
  smallLeft := none
  fresh := 0
  preserved := 1
  archive := true
  copy := plainTarget
  vanished := false

/-- A reflink is tried, and after that the target can no longer be opened. -/
def targetGone : Calls ℕ :=
  { smallWorks with
    sameDevice := true
    small := false
    copy := { plainTarget with opened := false } }

def twoTasks : List (Task ℕ) :=
  [⟨smallWorks, byteThenHole, ["b.txt"], "0"⟩, ⟨targetGone, byteThenHole, ["a.txt"], "1"⟩]

/-- The second file is counted as an error, and its old content is lost. -/
theorem twoTasks_delivered :
    List.Forall₂ (fun k counted => Delivered k.calls k.src (oneFile k.dst)
        ((copyFiles twoTasks oneFile).2 k.dst) counted)
      twoTasks (copyFiles twoTasks oneFile).1 ∧
    (copyFiles twoTasks oneFile).1 = [.small, .error] ∧
    (copyFiles twoTasks oneFile).2 ["a.txt"] = some ⟨[], 7⟩ := by
  have hnamed : ∀ k ∈ twoTasks, Named k.dst k.uuid := by
    intro k hk
    simp only [twoTasks, List.mem_cons, List.not_mem_nil, or_false] at hk
    rcases hk with rfl | rfl <;> exact ⟨by decide +kernel, by decide +kernel⟩
  exact ⟨copyFiles_delivered (by decide +kernel) hnamed, by decide +kernel, by decide +kernel⟩

end Files

end Foxing.CopyTiers
