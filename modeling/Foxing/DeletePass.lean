import Foxing.Hydrator
import Foxing.Lib.Sweep

/-!
# Deletion of what the source no longer has

`delete_extra_files` either replays the journal of deletions that the daemon keeps
on the target or walks the whole target; the full scan of the daemon walks it in
the same way with other exemptions. Both walks ask whether a path exists on the
source, which follows links and takes every error for an absence.

A target is the list of its entries in the order of the walk, contents before
their directory. The patterns of a filter are given by what they match, and the
paths of the journal are plain relative paths, as the worker writes them.
Removals succeed wherever the tree permits them. Paths are not followed through links
on the target: a path of the journal below such a link names nothing here, where the
code would remove what the link leads to.
-/
namespace Foxing.Deletion

/-! ## Sources, targets and rules -/

inductive EntryKind where
  | dir
  | file
  /-- Following the link finds something, or nothing. -/
  | symlink (found : Bool)
  deriving DecidableEq, Repr

/-- A source as a pass sees it: what there is, which paths cannot be examined, and
what is found below links that lead to a directory. -/
structure SourceView where
  entry : Path → Option EntryKind
  failing : Path → Bool
  behindLink : Path → Bool

/-- `Path::exists`. -/
def SourceView.exists (v : SourceView) (rel : Path) : Bool :=
  if v.failing rel then false
  else
    match v.entry rel with
    | some (.symlink found) => found
    | some _ => true
    | none => v.behindLink rel

structure TargetEntry where
  path : Path
  isDir : Bool
  deriving DecidableEq, Repr

namespace TargetEntry

/-- Something inside a directory, at any depth. -/
def isBelow (x e : TargetEntry) : Bool := e.isDir && decide (e.path <+: x.path ∧ x.path ≠ e.path)

theorem isBelow_iff (x e : TargetEntry) :
    x.isBelow e = true ↔ e.isDir = true ∧ e.path <+: x.path ∧ x.path ≠ e.path := by
  simp [isBelow]

theorem isBelow_self (x : TargetEntry) : x.isBelow x = false := by
  simp [isBelow]

theorem isBelow_trans (x y z : TargetEntry) (hxy : x.isBelow y = true) (hyz : y.isBelow z = true) :
    x.isBelow z = true := by
  rw [isBelow_iff] at hxy hyz ⊢
  refine ⟨hyz.1, hyz.2.1.trans hxy.2.1, ?_⟩
  intro heq
  have hle := hxy.2.1.length_le
  have hle' := hyz.2.1.length_le
  rw [heq] at hle
  exact hyz.2.2 (hyz.2.1.eq_of_length (by omega)).symm

end TargetEntry

/-- A target in the order of a walk that gives contents before their directory. -/
structure TargetTree where
  entries : List TargetEntry
  nodup : (entries.map TargetEntry.path).Nodup
  contentsFirst : entries.Pairwise fun a b => b.isBelow a = false
  rooted : ∀ x ∈ entries, x.path = [] ∨
    ∃ d ∈ entries, d.isDir = true ∧ d.path = x.path.dropLast

/-- What one pattern matches. -/
abbrev Pattern := Path → Bool

structure FilterRules where
  excludes : List Pattern
  includes : List Pattern

namespace FilterRules

def excluded (rules : FilterRules) (rel : Path) : Bool := rules.excludes.any (fun p => p rel)

def included (rules : FilterRules) (rel : Path) : Bool := rules.includes.any (fun p => p rel)

def shouldSkip (rules : FilterRules) (rel : Path) : Bool :=
  if rules.excluded rel then !rules.included rel else false

theorem shouldSkip_eq_false {rules : FilterRules} {rel : Path} (h : rules.excluded rel = false) :
    rules.shouldSkip rel = false := by
  simp [shouldSkip, h]

end FilterRules

/-- The one name that the walk of `delete_extra_files` leaves alone. -/
def namesTombstones (rel : Path) : Bool :=
  decide (".foxing_tombstones".toList <:+: (pathText rel).toList)

/-! ## The walks -/

/-- A walk removes every entry that is neither exempt nor found on the source. -/
def drops (exempt : Path → Bool) (source : SourceView) (e : TargetEntry) : Bool :=
  decide (e.path ≠ []) && !exempt e.path && !source.exists e.path

/-- What a walk leaves of a target. -/
def walk (exempt : Path → Bool) (source : SourceView) (target : TargetTree) : List TargetEntry :=
  Sweep.sweep (drops exempt source) TargetEntry.isBelow target.entries

def walkExempt (rules : FilterRules) (rel : Path) : Bool :=
  rules.shouldSkip rel || namesTombstones rel

/-- The slow path of `delete_extra_files`, with the number of files it counts. -/
def walkExtraFiles (source : SourceView) (rules : FilterRules) (target : TargetTree) :
    List TargetEntry × ℕ :=
  (walk (walkExempt rules) source target,
    (target.entries.filter fun e => drops (walkExempt rules) source e && !e.isDir).length)

/-- The deletion of stale files at the end of a full scan, unless the target is paused. -/
def removeStaleFiles (source : SourceView) (paused : Bool) (target : TargetTree) :
    List TargetEntry :=
  if paused then target.entries else walk Hydration.reservedText source target

/-! ## The journal -/

structure TombstoneEntry where
  relPath : Path
  isDir : Bool
  timestamp : ℤ
  seq : U64
  deriving DecidableEq, Repr

/-- Does a removal find what it is for? A file that is none, a directory that is empty. -/
def removable (left : List TargetEntry) (t : TombstoneEntry) : Bool :=
  left.contains ⟨t.relPath, t.isDir⟩ &&
    left.all (fun x => !x.isBelow ⟨t.relPath, t.isDir⟩)

/-- The replay of one entry. -/
def replayTombstone (rules : FilterRules) (left : List TargetEntry) (t : TombstoneEntry) :
    List TargetEntry :=
  if rules.excluded t.relPath then left
  else if removable left t then left.filter (fun x => x ≠ ⟨t.relPath, t.isDir⟩)
  else left

def replayTombstones (rules : FilterRules) (left : List TargetEntry)
    (journal : List TombstoneEntry) : List TargetEntry :=
  journal.foldl (replayTombstone rules) left

/-- A journal with an entry that can be read takes the place of the walk. -/
def deleteExtraFiles (source : SourceView) (rules : FilterRules) (target : TargetTree)
    (journal : List TombstoneEntry) : List TargetEntry :=
  if journal.isEmpty then (walkExtraFiles source rules target).1
  else replayTombstones rules target.entries journal

end Foxing.Deletion
