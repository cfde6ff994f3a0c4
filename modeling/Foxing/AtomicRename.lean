import Foxing.FileSystem
import Foxing.Lib.Slots

/-!
# Renames that are to be atomic

Two files are exchanged by the kernel, or by a fallback: the destination is copied or moved to a
path beside it, the source is moved over it, and what was beside it is moved to the source. Every
call on the way may fail. Files are what a path holds, or nothing; directories are only counted
where they are missing above the destination.

The path beside the destination may be that of another file, and not every step that has been
made is taken back when a later one fails.
-/
namespace Foxing.AtomicRename
open Slots

inductive Errno where
  | eexist | einval | eopnotsupp | enosys | enoent | other
  deriving DecidableEq, Repr

/-- What is reported where the flags are not supported. -/
def Errno.unsupported (e : Errno) : Bool := e = .einval || e = .eopnotsupp || e = .enosys

structure Flags where
  exchange : Bool
  noreplace : Bool
  deriving DecidableEq, Repr

def Flags.none : Flags := ⟨false, false⟩
def Flags.renameExchange : Flags := ⟨true, false⟩
def Flags.renameNoreplace : Flags := ⟨false, true⟩

/-- The renames that are made, in the order of the source. -/
inductive RenameCall where
  | swapIn | swapBack | moveAway | moveIn | rollback | moveBack | plain
  deriving DecidableEq, Repr

/-- How the calls fail: how many of the missing directories are made, whether the system call and
the helper fail, and what the helper leaves at the backup then, which renames fail, and whether
the backup can be removed. A call that does not fail works if it can. -/
structure Faults (α : Type) where
  mkdirs : ℕ
  renameat2 : Option Errno
  cp : Option (Option α)
  rename : RenameCall → Option Errno
  removes : Bool

abbrev Files (α : Type) := Path → Option α

abbrev Outcome (α : Type) := Except Errno Unit × Files α

/-- The files, and how many directories are missing above the destination. -/
structure Tree (α : Type) where
  files : Files α
  missing : ℕ

/-! ## The backup -/

/-- A file name up to its last dot, unless that is the first of its characters. -/
def fileStem (name : List Char) : List Char :=
  let before := (name.reverse.dropWhile (· ≠ '.')).drop 1
  if before = [] then name else before.reverse

/-- The path with another extension. The root and a path that ends in `..` have no file name. -/
def withExtension (p : Path) (extension : String) : Path :=
  match p.getLast? with
  | none => p
  | some name =>
    if name = "/" ∨ name = ".." then p
    else p.dropLast ++ [String.ofList (fileStem name.toList) ++ "." ++ extension]

def swapPath (dst : Path) : Path := withExtension dst "exchange_bak"

/-! ## The calls -/

section Calls
variable {α : Type}

def rename (fault : Option Errno) (a b : Path) (t : Files α) : Outcome α :=
  match fault with
  | some e => (.error e, t)
  | none => if t a = none then (.error .enoent, t) else (.ok (), move t a b)

def renameat2 (flags : Flags) (fault : Option Errno) (a b : Path) (t : Files α) : Outcome α :=
  match fault with
  | some e => (.error e, t)
  | none =>
    if flags.exchange ∧ flags.noreplace then (.error .einval, t)
    else if t a = none then (.error .enoent, t)
    else if flags.noreplace ∧ t b ≠ none then (.error .eexist, t)
    else if flags.exchange then
      if t b = none then (.error .enoent, t) else (.ok (), swap t a b)
    else (.ok (), move t a b)

/-- The helper copies a file that is there, to another path, or fails. -/
def cp (fault : Option (Option α)) (a b : Path) (t : Files α) : Bool × Files α :=
  if t a = none ∨ a = b then (false, t)
  else
    match fault with
    | none => (true, put t b (t a))
    | some left => (false, put t b left)

def removeFile (removes : Bool) (a : Path) (t : Files α) : Files α :=
  if removes then put t a none else t

/-- The backup is a copy. -/
def copySwap (faults : Faults α) (src dst backup : Path) (t : Files α) : Outcome α :=
  match rename (faults.rename .swapIn) src dst t with
  | (.error e, t) => (.error e, removeFile faults.removes backup t)
  | (.ok (), t) => rename (faults.rename .swapBack) backup src t

/-- The two renames after the destination has been moved away. -/
def moveOn (faults : Faults α) (src dst backup : Path) (t : Files α) : Outcome α :=
  match rename (faults.rename .moveIn) src dst t with
  | (.error e, t) => (.error e, (rename (faults.rename .rollback) backup dst t).2)
  | (.ok (), t) => rename (faults.rename .moveBack) backup src t

/-- The destination is moved to the backup. If there is none, the source is renamed at last. -/
def renameDance (faults : Faults α) (src dst backup : Path) (t : Files α) : Outcome α :=
  match rename (faults.rename .moveAway) dst backup t with
  | (.error e, t) =>
    if e = .enoent then rename (faults.rename .plain) src dst t else (.error e, t)
  | (.ok (), t) => moveOn faults src dst backup t

def exchangeFallback (faults : Faults α) (src dst : Path) (t : Files α) : Outcome α :=
  let backup := swapPath dst
  let copied := cp faults.cp dst backup t
  if copied.1 then copySwap faults src dst backup copied.2
  else renameDance faults src dst backup copied.2

def renameFiles (flags : Flags) (faults : Faults α) (src dst : Path) (t : Files α) : Outcome α :=
  if flags.exchange ∨ flags.noreplace then
    match renameat2 flags faults.renameat2 src dst t with
    | (.ok (), t) => (.ok (), t)
    | (.error e, t) =>
      if flags.exchange then exchangeFallback faults src dst t
      else if flags.noreplace ∧ e = .eexist then (.error e, t)
      else if e.unsupported then rename (faults.rename .plain) src dst t
      else (.error e, t)
  else rename (faults.rename .plain) src dst t

def atomicRename (flags : Flags) (faults : Faults α) (src dst : Path) (t : Tree α) :
    Except Errno Unit × Tree α :=
  let r := renameFiles flags faults src dst t.files
  (r.1, ⟨r.2, t.missing - faults.mkdirs⟩)

end Calls

/-! ## All or nothing -/

section Safety
variable {α : Type}

/-- The files are swapped, or nothing has happened. -/
def Swapped (src dst : Path) (t : Files α) (r : Outcome α) : Prop :=
  match r.1 with
  | .ok () => r.2 = swap t src dst
  | .error _ => r.2 = t

/-- When the backup is a copy: if the source is not moved over the destination, removing the
backup leaves what there was before. If it is, the backup is moved to the source, and nothing
was at the backup. -/
def CopySafe (faults : Faults α) (src dst backup : Path) (t : Files α) : Prop :=
  if faults.rename .swapIn ≠ none ∨ (backup ≠ src ∧ t src = none) then
    t backup = if faults.removes then none else t dst
  else if backup = src then t src = none
  else if faults.rename .swapBack ≠ none then src = dst ∧ t backup = t dst
  else t backup = none

/-- When the destination has been moved to the backup, where nothing was: it is moved on, or
back. -/
def MoveSafe (faults : Faults α) (src dst backup : Path) (t : Files α) : Prop :=
  t backup = none ∧
    if faults.rename .moveIn ≠ none ∨ (backup ≠ src ∧ t src = none) ∨ src = dst then
      faults.rename .rollback = none
    else backup = src ∨ faults.rename .moveBack = none

def awayError (faults : Faults α) (dst : Path) (t : Files α) : Option Errno :=
  match faults.rename .moveAway with
  | some e => some e
  | none => if t dst = none then some .enoent else none

/-- When there is no copy, but something is left of it. -/
def DanceSafe (faults : Faults α) (src dst backup : Path) (left : Option α) (t : Files α) :
    Prop :=
  match awayError faults dst t with
  | some e =>
    left = t backup ∧
      (e = .enoent → t dst = none ∨ src = dst ∨ faults.rename .plain ≠ none ∨ t src = none)
  | none =>
    if backup = dst then src = dst ∨ faults.rename .moveIn ≠ none ∨ t src = none
    else MoveSafe faults src dst backup t

def FallbackSafe (faults : Faults α) (src dst backup : Path) (t : Files α) : Prop :=
  if t dst = none ∨ dst = backup then DanceSafe faults src dst backup (t backup) t
  else
    match faults.cp with
    | none => CopySafe faults src dst backup t
    | some left => DanceSafe faults src dst backup left t

variable {faults : Faults α} {src dst backup : Path} {t : Files α}

@[simp] theorem swapped_error {e : Errno} {u : Files α} :
    Swapped src dst t (.error e, u) ↔ u = t := Iff.rfl

@[simp] theorem swapped_ok {u : Files α} :
    Swapped src dst t (.ok (), u) ↔ u = swap t src dst := Iff.rfl

/-- A rename at the end. -/
theorem swapped_rename {fault : Option Errno} {a b : Path} {u : Files α} :
    Swapped src dst t (rename fault a b u) ↔
      if fault ≠ none ∨ u a = none then u = t else move u a b = swap t src dst := by
  unfold rename
  cases fault with
  | some e => simp
  | none =>
    by_cases hu : u a = none
    · simp [hu]
    · simp [hu]

theorem rename_fails {fault : Option Errno} {a b : Path} (h : fault ≠ none ∨ t a = none) :
    ∃ e, rename fault a b t = (.error e, t) := by
  unfold rename
  cases fault with
  | some e => exact ⟨e, rfl⟩
  | none => exact ⟨.enoent, if_pos (h.resolve_left fun hne => hne rfl)⟩

theorem rename_works {fault : Option Errno} {a b : Path} (h : ¬(fault ≠ none ∨ t a = none)) :
    rename fault a b t = (.ok (), move t a b) := by
  rw [not_or, not_not] at h
  rw [h.1]
  exact if_neg h.2

/-- The copy is at the source only if that is the backup. -/
theorem copied_src_eq_none (hdst : t dst ≠ none) :
    put t backup (t dst) src = none ↔ backup ≠ src ∧ t src = none := by
  rw [put_apply]
  by_cases h : src = backup
  · rw [if_pos h]
    exact iff_of_false hdst fun hs => hs.1 h.symm
  · rw [if_neg h]
    exact (and_iff_right (Ne.symm h)).symm

theorem copySwap_swapped (hbackup : backup ≠ dst) (hdst : t dst ≠ none) :
    Swapped src dst t (copySwap faults src dst backup (put t backup (t dst))) ↔
      CopySafe faults src dst backup t := by
  unfold copySwap CopySafe
  by_cases hin : faults.rename .swapIn ≠ none ∨ (backup ≠ src ∧ t src = none)
  · obtain ⟨e, hrename⟩ := rename_fails (b := dst) (hin.imp_right (copied_src_eq_none hdst).mpr)
    rw [hrename, if_pos hin]
    cases hremoves : faults.removes <;> simp [removeFile, put_eq_self]
  · rw [rename_works fun h => hin (h.imp_right (copied_src_eq_none hdst).mp), if_neg hin]
    dsimp only
    rw [swapped_rename]
    rw [not_or] at hin
    by_cases hbs : backup = src
    · subst hbs
      rw [if_pos (.inr (by rw [move_apply, if_neg hbackup, if_pos rfl])), if_pos rfl]
      exact move_copy_eq_self hbackup
    · have hsrc : t src ≠ none := fun h => hin.2 ⟨hbs, h⟩
      have hcopy : move (put t backup (t dst)) src dst backup ≠ none := by
        rw [move_apply, if_neg hbackup, if_neg hbs, put_apply, if_pos rfl]
        exact hdst
      rw [if_neg hbs]
      simp only [hcopy, or_false]
      by_cases hsd : src = dst
      · subst hsd
        rw [move_self, put_eq_self, swap_self, move_put_eq_self (Ne.symm hbs)]
        simp
      · by_cases hback : faults.rename .swapBack ≠ none
        · rw [if_pos hback, if_pos hback]
          exact iff_of_false (move_ne_of_ne hsd hsrc) fun h => hsd h.1
        · rw [if_neg hback, if_neg hback]
          exact move_move_put_eq_swap hsd (Ne.symm hbs) (Ne.symm hbackup)

theorem rename_snd (fault : Option Errno) (a b : Path) : (rename fault a b t).2 =
    if fault ≠ none ∨ t a = none then t else move t a b := by
  by_cases h : fault ≠ none ∨ t a = none
  · obtain ⟨e, hrename⟩ := rename_fails (b := b) h
    rw [hrename, if_pos h]
  · rw [rename_works h, if_neg h]

/-- The source is what it was, unless it is the destination or the backup. -/
theorem moved_src_eq_none (hbackup : backup ≠ dst) (hdst : t dst ≠ none) :
    move t dst backup src = none ↔ (backup ≠ src ∧ t src = none) ∨ src = dst := by
  rw [move_apply]
  by_cases hb : src = backup
  · subst hb
    simp [hdst, hbackup]
  · by_cases hd : src = dst
    · simp [hd, hbackup.symm]
    · simp [hb, hd, Ne.symm hb]

theorem moveOn_swapped (hbackup : backup ≠ dst) (hdst : t dst ≠ none) :
    Swapped src dst t (moveOn faults src dst backup (move t dst backup)) ↔
      MoveSafe faults src dst backup t := by
  have hmoved : move t dst backup backup ≠ none := by
    rw [move_apply, if_pos rfl]
    exact hdst
  unfold moveOn MoveSafe
  by_cases hin : faults.rename .moveIn ≠ none ∨ (backup ≠ src ∧ t src = none) ∨ src = dst
  · obtain ⟨e, hrename⟩ := rename_fails (b := dst)
      (hin.imp_right (moved_src_eq_none hbackup hdst).mpr)
    rw [hrename, if_pos hin]
    dsimp only
    rw [swapped_error, rename_snd]
    simp only [hmoved, or_false]
    by_cases hroll : faults.rename .rollback ≠ none
    · rw [if_pos hroll]
      exact iff_of_false (move_ne_of_ne hbackup.symm hdst) fun h => hroll h.2
    · rw [if_neg hroll, move_move_eq_self hbackup.symm]
      exact (and_iff_left (not_not.mp hroll)).symm
  · rw [rename_works fun h => hin (h.imp_right (moved_src_eq_none hbackup hdst).mp), if_neg hin]
    dsimp only
    rw [swapped_rename]
    rw [not_or, not_or] at hin
    obtain ⟨-, hsrc, hsd⟩ := hin
    by_cases hbs : backup = src
    · subst hbs
      rw [if_pos (.inr (by rw [move_apply, if_neg hsd, if_pos rfl])),
        move_move_eq_self (Ne.symm hsd)]
      simp
    · have hback : move (move t dst backup) src dst backup ≠ none := by
        rw [move_apply, if_neg hbackup, if_neg hbs]
        exact hmoved
      simp only [hback, or_false, hbs, false_or]
      by_cases hfault : faults.rename .moveBack ≠ none
      · rw [if_pos hfault]
        exact iff_of_false (move_ne_of_ne hsd fun h => hsrc ⟨hbs, h⟩) fun h => hfault h.2
      · rw [if_neg hfault, move_move_move_eq_swap hsd (Ne.symm hbs) (Ne.symm hbackup)]
        exact (and_iff_left (not_not.mp hfault)).symm

/-- A backup that is the destination itself. -/
theorem moveOn_self : Swapped src dst t (moveOn faults src dst dst t) ↔
    src = dst ∨ faults.rename .moveIn ≠ none ∨ t src = none := by
  unfold moveOn
  by_cases hin : faults.rename .moveIn ≠ none ∨ t src = none
  · obtain ⟨e, hrename⟩ := rename_fails (b := dst) hin
    rw [hrename]
    dsimp only
    rw [swapped_error, rename_snd, move_self, ite_self]
    exact iff_of_true rfl (.inr hin)
  · rw [rename_works hin]
    dsimp only
    rw [swapped_rename]
    by_cases hsd : src = dst
    · subst hsd
      rw [move_self, move_self, swap_self, ite_self]
      exact iff_of_true rfl (.inl rfl)
    · refine iff_of_false ?_ fun h => h.elim hsd hin
      rw [not_or] at hin
      split_ifs
      · exact move_ne_of_ne hsd hin.2
      · refine move_ne_of_ne (Ne.symm hsd) ?_
        rw [swap_right hsd]
        exact hin.2

/-- Nothing has been swapped if something is left at the backup and the destination was there. -/
theorem plain_swapped {left : Option α}
    (hleft : left = t backup ∨ (t dst ≠ none ∧ backup ≠ dst)) :
    Swapped src dst t (rename (faults.rename .plain) src dst (put t backup left)) ↔
      left = t backup ∧
        (t dst = none ∨ src = dst ∨ faults.rename .plain ≠ none ∨ t src = none) := by
  rw [swapped_rename]
  by_cases hl : left = t backup
  · rw [put_eq_self.mpr hl.symm]
    by_cases hplain : faults.rename .plain ≠ none ∨ t src = none
    · rw [if_pos hplain]
      exact iff_of_true rfl ⟨hl, .inr (.inr hplain)⟩
    · rw [if_neg hplain]
      by_cases hsd : src = dst
      · subst hsd
        rw [move_self, swap_self]
        exact iff_of_true rfl ⟨hl, .inr (.inl rfl)⟩
      · rw [move_eq_swap hsd]
        refine ⟨fun h => ⟨hl, .inl h⟩, fun h => ?_⟩
        exact h.2.resolve_right fun h => h.elim hsd hplain
  · obtain ⟨hdst, hbackup⟩ := hleft.resolve_left hl
    have hput : put t backup left ≠ t := fun h => hl (put_eq_self.mp h).symm
    refine iff_of_false ?_ fun h => hl h.1
    split_ifs
    · exact hput
    · by_cases hsd : src = dst
      · subst hsd
        rwa [move_self, swap_self]
      · refine move_ne_of_ne hsd ?_
        rwa [swap_left]

theorem renameDance_swapped {left : Option α}
    (hleft : left = t backup ∨ (t dst ≠ none ∧ backup ≠ dst)) :
    Swapped src dst t (renameDance faults src dst backup (put t backup left)) ↔
      DanceSafe faults src dst backup left t := by
  have hdst : put t backup left dst = t dst := by
    rw [put_apply]
    split_ifs with h
    · subst h
      exact hleft.resolve_right fun h => h.2 rfl
    · rfl
  have hfailed : ∀ e, Swapped src dst t (if e = .enoent then
        rename (faults.rename .plain) src dst (put t backup left)
      else (.error e, put t backup left)) ↔
      left = t backup ∧ (e = Errno.enoent →
        t dst = none ∨ src = dst ∨ faults.rename .plain ≠ none ∨ t src = none) := by
    intro e
    by_cases he : e = .enoent
    · rw [if_pos he, plain_swapped hleft]
      simp [he]
    · rw [if_neg he, swapped_error, put_eq_self]
      simp [he, eq_comm]
  unfold renameDance DanceSafe awayError
  cases haway : faults.rename .moveAway with
  | some e => exact hfailed e
  | none =>
    by_cases hnone : t dst = none
    · have hrename : rename none dst backup (put t backup left) =
          (.error .enoent, put t backup left) := if_pos (hdst.trans hnone)
      rw [hrename, if_pos hnone]
      exact hfailed .enoent
    · rw [rename_works (by rw [hdst]; simp [hnone]), if_neg hnone]
      dsimp only
      by_cases hbackup : backup = dst
      · subst hbackup
        rw [move_self, put_eq_self.mpr (hleft.resolve_right fun h => h.2 rfl).symm, if_pos rfl]
        exact moveOn_self
      · rw [move_put (Ne.symm hbackup), if_neg hbackup]
        exact moveOn_swapped hbackup hnone

theorem exchangeFallback_swapped :
    Swapped src dst t (exchangeFallback faults src dst t) ↔
      FallbackSafe faults src dst (swapPath dst) t := by
  unfold exchangeFallback FallbackSafe cp
  dsimp only
  by_cases hcp : t dst = none ∨ dst = swapPath dst
  · rw [if_pos hcp, if_pos hcp]
    rw [← renameDance_swapped (.inl rfl), put_eq_self.mpr rfl]
    rfl
  · rw [if_neg hcp, if_neg hcp]
    rw [not_or] at hcp
    cases faults.cp with
    | none => exact copySwap_swapped (Ne.symm hcp.2) hcp.1
    | some left => exact renameDance_swapped (.inr ⟨hcp.1, Ne.symm hcp.2⟩)

/-- Either the files are swapped and nothing else has changed, or nothing has. -/
def AllOrNothing (faults : Faults α) (src dst : Path) (t : Tree α) : Prop :=
  match (atomicRename .renameExchange faults src dst t).1 with
  | .ok () =>
    (atomicRename .renameExchange faults src dst t).2 = ⟨swap t.files src dst, t.missing⟩
  | .error _ => (atomicRename .renameExchange faults src dst t).2 = t

/-- A destination that is there is left alone. -/
def KeepsExisting (faults : Faults α) (src dst : Path) (t : Tree α) : Prop :=
  t.files dst ≠ none →
    (atomicRename .renameNoreplace faults src dst t).2.files dst = t.files dst

/-- No directory is made, and the kernel exchanges the files or the fallback is safe. -/
def ExchangeSafe (faults : Faults α) (src dst : Path) (t : Tree α) : Prop :=
  (t.missing = 0 ∨ faults.mkdirs = 0) ∧
    ((faults.renameat2 = none ∧ t.files src ≠ none ∧ t.files dst ≠ none) ∨
      FallbackSafe faults src dst (swapPath dst) t.files)

/-- There is nothing to be replaced, or the kernel looks after it, or nothing else is moved
there. -/
def NoreplaceSafe (faults : Faults α) (src dst : Path) (t : Tree α) : Prop :=
  t.files dst = none ∨ (∀ e ∈ faults.renameat2, e.unsupported = false) ∨
    faults.rename .plain ≠ none ∨ t.files src = none ∨ t.files src = t.files dst

theorem renameExchange_swapped {t : Files α} :
    Swapped src dst t (renameFiles .renameExchange faults src dst t) ↔
      (faults.renameat2 = none ∧ t src ≠ none ∧ t dst ≠ none) ∨
        FallbackSafe faults src dst (swapPath dst) t := by
  by_cases hworks : faults.renameat2 = none ∧ t src ≠ none ∧ t dst ≠ none
  · obtain ⟨hfault, hsrc, hdst⟩ := hworks
    have hrun : renameFiles .renameExchange faults src dst t = (.ok (), swap t src dst) := by
      simp [renameFiles, renameat2, hfault, hsrc, hdst, Flags.renameExchange]
    rw [hrun]
    exact iff_of_true rfl (.inl ⟨hfault, hsrc, hdst⟩)
  · have hrun : renameFiles .renameExchange faults src dst t =
        exchangeFallback faults src dst t := by
      cases hfault : faults.renameat2 with
      | some e => simp [renameFiles, renameat2, hfault, Flags.renameExchange]
      | none =>
        by_cases hsrc : t src = none
        · simp [renameFiles, renameat2, hfault, hsrc, Flags.renameExchange]
        · have hdst : t dst = none := by
            by_contra hdst
            exact hworks ⟨hfault, hsrc, hdst⟩
          simp [renameFiles, renameat2, hfault, hsrc, hdst, Flags.renameExchange]
    rw [hrun, exchangeFallback_swapped]
    exact (or_iff_right hworks).symm

theorem allOrNothing_iff_swapped {t : Tree α} : AllOrNothing faults src dst t ↔
    (t.missing = 0 ∨ faults.mkdirs = 0) ∧
      Swapped src dst t.files (renameFiles .renameExchange faults src dst t.files) := by
  have hmissing : t.missing - faults.mkdirs = t.missing ↔ t.missing = 0 ∨ faults.mkdirs = 0 := by
    omega
  unfold AllOrNothing Swapped atomicRename
  rw [← hmissing]
  dsimp only
  obtain ⟨files, missing⟩ := t
  split <;> simp [and_comm]

/-- A destination that is there is only replaced by the rename at the end. -/
theorem renameNoreplace_snd {t : Files α} (hdst : t dst ≠ none) :
    (renameFiles .renameNoreplace faults src dst t).2 =
      if faults.renameat2.any Errno.unsupported then
        (rename (faults.rename .plain) src dst t).2
      else t := by
  cases hfault : faults.renameat2 with
  | some e => cases e <;>
      simp [renameFiles, renameat2, hfault, Flags.renameNoreplace, Errno.unsupported]
  | none =>
    by_cases hsrc : t src = none <;>
      simp [renameFiles, renameat2, hfault, hsrc, hdst, Flags.renameNoreplace, Errno.unsupported]

theorem keepsExisting_iff {t : Tree α} :
    KeepsExisting faults src dst t ↔ NoreplaceSafe faults src dst t := by
  unfold KeepsExisting NoreplaceSafe atomicRename
  dsimp only
  by_cases hdst : t.files dst = none
  · exact iff_of_true (fun h => absurd hdst h) (.inl hdst)
  · have hany : faults.renameat2.any Errno.unsupported = true ↔
        ¬∀ e ∈ faults.renameat2, e.unsupported = false := by
      cases faults.renameat2 <;> simp
    rw [renameNoreplace_snd hdst, or_iff_right hdst, imp_iff_right hdst]
    by_cases hall : ∀ e ∈ faults.renameat2, e.unsupported = false
    · rw [if_neg fun h => hany.mp h hall]
      exact iff_of_true rfl (.inl hall)
    · rw [if_pos (hany.mpr hall), or_iff_right hall, rename_snd, ← or_assoc]
      by_cases hplain : faults.rename .plain ≠ none ∨ t.files src = none
      · rw [if_pos hplain]
        exact iff_of_true rfl (.inl hplain)
      · rw [if_neg hplain, or_iff_right hplain, move_apply, if_pos rfl]

/-- A rename that exchanges is all or nothing, and one that must not replace leaves what is there
alone, exactly on these conditions. -/
theorem atomicRename_safe_iff (faults : Faults α) (src dst : Path) (t : Tree α) :
    (AllOrNothing faults src dst t ↔ ExchangeSafe faults src dst t) ∧
      (KeepsExisting faults src dst t ↔ NoreplaceSafe faults src dst t) := by
  refine ⟨?_, keepsExisting_iff⟩
  rw [allOrNothing_iff_swapped, renameExchange_swapped]
  rfl

end Safety

/-! ## What goes wrong -/

/-- A commit beside which a file has the name of the backup. -/
def commitTree : Tree ℕ where
  files p :=
    if p = ["data", "a.tmp"] then some 1
    else if p = ["data", "a.txt"] then some 2
    else if p = ["data", "a.exchange_bak"] then some 3
    else none
  missing := 0

/-- The flags are not known, and everything else works. -/
def oldKernel : Faults ℕ where
  mkdirs := 0
  renameat2 := some .einval
  cp := none
  rename _ := none
  removes := true

/-- The exchange returns without an error and the file beside it is gone; the rename that must
not replace replaces. -/
theorem oldKernel_not_safe :
    ¬AllOrNothing oldKernel ["data", "a.tmp"] ["data", "a.txt"] commitTree ∧
      ¬KeepsExisting oldKernel ["data", "a.tmp"] ["data", "a.txt"] commitTree := by
  have hbackup : swapPath ["data", "a.txt"] = ["data", "a.exchange_bak"] := by decide +kernel
  constructor
  · intro h
    rw [allOrNothing_iff_swapped, renameExchange_swapped, hbackup] at h
    simp [oldKernel, commitTree, FallbackSafe, CopySafe] at h
  · intro h
    rw [keepsExisting_iff] at h
    simp [oldKernel, commitTree, NoreplaceSafe, Errno.unsupported] at h

end Foxing.AtomicRename
