import Foxing.FileModel
import Mathlib.Data.Finset.Lattice.Basic
import Mathlib.Data.Finset.Image
import Mathlib.Data.List.Infix

/-!
# Directory trees

The part of a file system below a root, and the calls that the worker makes on
it. A path is the list of its components below the root. Directories and
symbolic links are stored under their path; the data of any other file is stored
under an identity of its own, so that hard links share it. A symbolic link is a
leaf that leads out of the tree: calls that would follow it find nothing, and no
path goes through it. What such calls change elsewhere is not told here.
-/
namespace Foxing

abbrev Path := List String

instance Path.lawfulBEq : LawfulBEq Path := inferInstance

/-- Two paths of which one is an ancestor of the other, or the same. -/
def Near (p q : Path) : Prop := p <+: q ∨ q <+: p

instance (p q : Path) : Decidable (Near p q) := inferInstanceAs (Decidable (_ ∨ _))

/-- The directory of a path; the root has none. -/
def Path.parent? (p : Path) : Option Path := if p = [] then none else some p.dropLast

/-- Permission bits and owner. -/
structure Meta where
  mode : U32
  uid : U32
  gid : U32
  deriving DecidableEq, Repr

namespace Meta

/-- Only the permission bits of a mode are set. -/
def setPermissions (mode : U32) (m : Meta) : Meta :=
  { m with mode := ⟨mode.val % 4096, by omega⟩ }

/-- An id of all ones leaves the owner as it is. The set-id bits of the mode stay. -/
def setOwnership (uid gid : U32) (m : Meta) : Meta :=
  { m with
    uid := if uid = U32.max then m.uid else uid
    gid := if gid = U32.max then m.gid else gid }

end Meta

inductive FileKind where
  | regular (content : File)
  | special (mode dev : U32)

structure FileData where
  metadata : Meta
  kind : FileKind

/-- The identity of a file: one the tree had at first, or one made by the event
with the given number at the given path. -/
inductive FileId where
  | initial (n : ℕ)
  | made (seqNum : U64) (path : Path)
  deriving DecidableEq, Repr

inductive Node where
  | file (id : FileId)
  | dir (metadata : Meta)
  | symlink (dest : String) (metadata : Meta)
  deriving DecidableEq, Repr

/-- What a failed call reports, as far as the worker tells failures apart. -/
inductive Failure where
  | notFound | permissionDenied | alreadyExists | other
  deriving DecidableEq, Repr

abbrev CallResult := Except Failure Unit

/-- A finite tree: the paths in use are listed, so that a directory can be seen
to be empty. -/
structure Fs where
  node : Path → Option Node
  data : FileId → FileData
  occupied : Finset Path
  mem_occupied : ∀ p, p ∈ occupied ↔ node p ≠ none

namespace Fs

theorem ext' {s t : Fs} (hnode : ∀ p, s.node p = t.node p) (hdata : ∀ i, s.data i = t.data i) :
    s = t := by
  obtain ⟨n, d, o, ho⟩ := s
  obtain ⟨n', d', o', ho'⟩ := t
  obtain rfl : n = n' := funext hnode
  obtain rfl : d = d' := funext hdata
  obtain rfl : o = o' := by
    ext p
    rw [ho, ho']
  rfl

def setNode (p : Path) (n : Option Node) (t : Fs) : Fs where
  node := Function.update t.node p n
  data := t.data
  occupied := if n = none then t.occupied.erase p else insert p t.occupied
  mem_occupied q := by
    by_cases hq : q = p
    · subst hq
      split_ifs with hn <;> simp [hn]
    · split_ifs with hn <;> simp [hq, t.mem_occupied]

def setData (i : FileId) (d : FileData) (t : Fs) : Fs :=
  { t with data := Function.update t.data i d }

@[simp] theorem setNode_node (p : Path) (n : Option Node) (t : Fs) (q : Path) :
    (t.setNode p n).node q = if q = p then n else t.node q := by
  simp [setNode, Function.update_apply]

@[simp] theorem setNode_data (p : Path) (n : Option Node) (t : Fs) :
    (t.setNode p n).data = t.data := rfl

@[simp] theorem setData_node (i : FileId) (d : FileData) (t : Fs) :
    (t.setData i d).node = t.node := rfl

@[simp] theorem setData_data (i : FileId) (d : FileData) (t : Fs) (j : FileId) :
    (t.setData i d).data j = if j = i then d else t.data j := by
  simp [setData, Function.update_apply]

/-- A tree with nothing but its root. -/
def root (m : Meta) : Fs where
  node p := if p = [] then some (.dir m) else none
  data _ := ⟨m, .regular .empty⟩
  occupied := {[]}
  mem_occupied p := by
    by_cases hp : p = [] <;> simp [hp]

/-- The path exists, symbolic links being followed. -/
def pathExists (t : Fs) (p : Path) : Bool :=
  match t.node p with
  | some (.file _) | some (.dir _) => true
  | _ => false

def isDir (t : Fs) (p : Path) : Bool :=
  match t.node p with
  | some (.dir _) => true
  | _ => false

def isFile (t : Fs) (p : Path) : Bool :=
  match t.node p with
  | some (.file _) => true
  | _ => false

/-- Why a path that is not there is not there: an ancestor that is a file is
reported differently from one that is missing. -/
def missing (t : Fs) (p : Path) : Failure :=
  if p.inits.dropLast.any t.isFile then .other else .notFound

/-- Something lies below the path. -/
def HasChildren (t : Fs) (p : Path) : Prop := ∃ q ∈ t.occupied, p <+: q ∧ q ≠ p

instance (t : Fs) (p : Path) : Decidable (t.HasChildren p) :=
  inferInstanceAs (Decidable (∃ q ∈ t.occupied, p <+: q ∧ q ≠ p))

theorem hasChildren_iff (t : Fs) (p : Path) :
    t.HasChildren p ↔ ∃ q, p <+: q ∧ q ≠ p ∧ t.node q ≠ none := by
  simp only [HasChildren, t.mem_occupied]
  constructor
  · rintro ⟨q, hq, hp, hne⟩
    exact ⟨q, hp, hne, hq⟩
  · rintro ⟨q, hp, hne, hq⟩
    exact ⟨q, hq, hp, hne⟩

/-- The directory of the path is there, so that an entry can be made in it. -/
def hasParent (t : Fs) (p : Path) : Bool :=
  match Path.parent? p with
  | some a => t.isDir a
  | none => false

/-- The contents of a regular file. -/
def regularAt (t : Fs) (p : Path) : Option File :=
  match t.node p with
  | some (.file i) =>
    match (t.data i).kind with
    | .regular f => some f
    | .special .. => none
  | _ => none

/-- Permissions and owner of what a path leads to. -/
def metadataAt (t : Fs) (p : Path) : Option Meta :=
  match t.node p with
  | some (.file i) => some (t.data i).metadata
  | some (.dir m) => some m
  | _ => none

/-! ## Calls -/

/-- Directories are made from the first missing one on; nothing is made when
something else is in the way. -/
def createDirAll (m : Meta) (p : Path) (t : Fs) : CallResult × Fs :=
  if p.inits.all (fun a => (t.node a).isNone || t.isDir a) then
    (.ok (), {
      node := fun q => if q <+: p ∧ t.node q = none then some (.dir m) else t.node q
      data := t.data
      occupied := t.occupied ∪ p.inits.toFinset
      mem_occupied := by
        intro q
        by_cases hq : q <+: p
        · by_cases hn : t.node q = none <;> simp [hq, hn]
        · simp [hq, t.mem_occupied] })
  else (.error .other, t)

def removeFile (p : Path) (t : Fs) : CallResult × Fs :=
  match t.node p with
  | some (.file _) | some (.symlink ..) => (.ok (), t.setNode p none)
  | some (.dir _) => (.error .other, t)
  | none => (.error (t.missing p), t)

def removeDir (p : Path) (t : Fs) : CallResult × Fs :=
  match t.node p with
  | some (.dir _) => if t.HasChildren p then (.error .other, t) else (.ok (), t.setNode p none)
  | some _ => (.error .other, t)
  | none => (.error (t.missing p), t)

/-- Permissions and owners are changed by calls that follow symbolic links. -/
def alterMeta (f : Meta → Meta) (p : Path) (t : Fs) : CallResult × Fs :=
  match t.node p with
  | some (.file i) => (.ok (), t.setData i { t.data i with metadata := f (t.data i).metadata })
  | some (.dir m) => (.ok (), t.setNode p (some (.dir (f m))))
  | some (.symlink ..) => (.error .notFound, t)
  | none => (.error (t.missing p), t)

def setPermissions (mode : U32) : Path → Fs → CallResult × Fs :=
  alterMeta (Meta.setPermissions mode)

def setOwnership (uid gid : U32) : Path → Fs → CallResult × Fs :=
  alterMeta (Meta.setOwnership uid gid)

/-- The file is opened for writing without being created, and its contents change. -/
def alterContent (f : File → File) (p : Path) (t : Fs) : CallResult × Fs :=
  match t.node p with
  | some (.file i) =>
    match (t.data i).kind with
    | .regular c => (.ok (), t.setData i { t.data i with kind := .regular (f c) })
    | .special .. => (.error .other, t)
  | some (.dir _) => (.error .other, t)
  | some (.symlink ..) => (.error .notFound, t)
  | none => (.error (t.missing p), t)

def truncate (size : U64) : Path → Fs → CallResult × Fs := alterContent (File.setLength size.val)

/-- A copy of a range stops at the end of the source file. -/
def copyRange (src : File) (offset length : ℕ) : Path → Fs → CallResult × Fs :=
  alterContent (File.copyRange src.bytes offset (min (offset + length) src.length))

/-- A new entry for a file in an existing directory. -/
def link (i : FileId) (d : FileData) (p : Path) (t : Fs) : CallResult × Fs :=
  if t.hasParent p then (.ok (), (t.setNode p (some (.file i))).setData i d)
  else (.error (t.missing p), t)

/-- Opening for writing with creation and truncation, then filling with `content`;
`permissions` is set on the file in the end. A file that is there keeps its
owner, a new one gets `fresh`. -/
def overwrite (i : FileId) (fresh : Meta) (permissions : Meta → Meta) (content : File) (p : Path)
    (t : Fs) : CallResult × Fs :=
  match t.node p with
  | some (.file j) =>
    match (t.data j).kind with
    | .regular _ =>
      (.ok (), t.setData j ⟨permissions (t.data j).metadata, .regular content⟩)
    | .special .. => (.error .other, t)
  | some (.dir _) => (.error .other, t)
  | some (.symlink ..) => (.ok (), t)
  | none => t.link i ⟨permissions fresh, .regular content⟩ p

/-- The type bits of a mode say whether a regular file is meant. -/
def isRegularMode (mode : U32) : Bool := mode.val / 4096 % 16 = 8 || mode.val / 4096 % 16 = 0

/-- The mode is not restricted by a mask of the process. -/
def mknod (i : FileId) (owner : Meta) (mode dev : U32) (p : Path) (t : Fs) : CallResult × Fs :=
  match t.node p with
  | some _ => (.error .alreadyExists, t)
  | none =>
    t.link i ⟨owner.setPermissions mode,
      if isRegularMode mode then .regular .empty else .special mode dev⟩ p

def symlink (dest : String) (m : Meta) (p : Path) (t : Fs) : CallResult × Fs :=
  match t.node p with
  | some _ => (.error .alreadyExists, t)
  | none =>
    if t.hasParent p then (.ok (), t.setNode p (some (.symlink dest m)))
    else (.error (t.missing p), t)

/-- A hard link; directories cannot have one. -/
def hardLink (original p : Path) (t : Fs) : CallResult × Fs :=
  match t.node original with
  | none => (.error (t.missing original), t)
  | some (.dir _) => (.error .permissionDenied, t)
  | some n =>
    match t.node p with
    | some _ => (.error .alreadyExists, t)
    | none =>
      if t.hasParent p then (.ok (), t.setNode p (some n)) else (.error (t.missing p), t)

/-- The path with the part `old` replaced by `new`. -/
def rebase (old new q : Path) : Path := old ++ q.drop new.length

/-- Everything at and below `old` is moved to `new`. -/
def relocate (old new : Path) (t : Fs) : Fs where
  node q := if new <+: q then t.node (rebase old new q)
    else if old <+: q then none else t.node q
  data := t.data
  occupied := t.occupied.filter (fun q => ¬ new <+: q ∧ ¬ old <+: q) ∪
    (t.occupied.filter (fun q => old <+: q)).image (rebase new old)
  mem_occupied := by
    intro q
    simp only [Finset.mem_union, Finset.mem_filter, Finset.mem_image, t.mem_occupied]
    by_cases hnew : new <+: q
    · obtain ⟨r, rfl⟩ := hnew
      simp only [List.prefix_append, if_true, not_true_eq_false, false_and, and_false, false_or,
        rebase, List.drop_left]
      constructor
      · rintro ⟨_, ⟨hn, r', rfl⟩, heq⟩
        obtain rfl : r' = r := by simpa using heq
        exact hn
      · intro hn
        exact ⟨old ++ r, ⟨hn, List.prefix_append ..⟩, by simp⟩
    · by_cases hold : old <+: q
      · simp only [hnew, hold, if_false, if_true, not_true_eq_false, and_false, false_or, ne_eq,
          iff_false]
        rintro ⟨_, ⟨-, r', rfl⟩, heq⟩
        exact hnew ⟨r', by simpa [rebase] using heq⟩
      · simp only [hnew, hold, if_false, not_false_eq_true, and_true]
        refine ⟨?_, Or.inl⟩
        rintro (hn | ⟨_, ⟨-, r', rfl⟩, heq⟩)
        · exact hn
        · exact absurd ⟨r', by simpa [rebase] using heq⟩ hnew

/-- What is at and below the two paths changes places. -/
def swap (old new : Path) (t : Fs) : Fs where
  node q := if new <+: q then t.node (rebase old new q)
    else if old <+: q then t.node (rebase new old q) else t.node q
  data := t.data
  occupied := t.occupied.filter (fun q => ¬ new <+: q ∧ ¬ old <+: q) ∪
    (t.occupied.filter (fun q => old <+: q)).image (rebase new old) ∪
    ((t.occupied.filter (fun q => new <+: q)).image (rebase old new)).filter (fun q => ¬ new <+: q)
  mem_occupied := by
    intro q
    simp only [Finset.mem_union, Finset.mem_filter, Finset.mem_image, t.mem_occupied]
    by_cases hnew : new <+: q
    · obtain ⟨r, rfl⟩ := hnew
      simp only [List.prefix_append, if_true, not_true_eq_false, false_and, and_false, false_or,
        or_false, rebase, List.drop_left]
      constructor
      · rintro ⟨_, ⟨hn, r', rfl⟩, heq⟩
        obtain rfl : r' = r := by simpa using heq
        exact hn
      · intro hn
        exact ⟨old ++ r, ⟨hn, List.prefix_append ..⟩, by simp⟩
    · have himage : ¬ ∃ a, (t.node a ≠ none ∧ old <+: a) ∧ rebase new old a = q := by
        rintro ⟨_, ⟨-, r', rfl⟩, heq⟩
        exact hnew ⟨r', by simpa [rebase] using heq⟩
      simp only [hnew, himage, if_false, or_false, not_false_eq_true, true_and, and_true]
      by_cases hold : old <+: q
      · obtain ⟨r, rfl⟩ := hold
        simp only [List.prefix_append, not_true_eq_false, and_false, false_or, if_true, rebase,
          List.drop_left]
        constructor
        · rintro ⟨_, ⟨hn, r', rfl⟩, heq⟩
          obtain rfl : r' = r := by simpa using heq
          exact hn
        · intro hn
          exact ⟨new ++ r, ⟨hn, List.prefix_append ..⟩, by simp⟩
      · simp only [hold, if_false, not_false_eq_true, and_true]
        refine ⟨?_, Or.inl⟩
        rintro (hn | ⟨_, ⟨-, r', rfl⟩, heq⟩)
        · exact hn
        · exact absurd ⟨r', by simpa [rebase] using heq⟩ hold

/-- The rules of the plain call, for an entry `n` at `old`: two names of one file
are left as they are, a directory is not moved below itself, and only an empty
directory gives way to a directory. -/
def renameNode (n : Node) (old new : Path) (t : Fs) : CallResult × Fs :=
  match n, t.node new with
  | .dir _, none => if old <+: new then (.error .other, t) else (.ok (), t.relocate old new)
  | .dir _, some (.dir _) =>
    if old <+: new ∨ t.HasChildren new then (.error .other, t) else (.ok (), t.relocate old new)
  | .dir _, some _ => (.error .other, t)
  | _, some (.dir _) => (.error .other, t)
  | .file i, some (.file j) => if i = j then (.ok (), t) else (.ok (), t.relocate old new)
  | _, _ => (.ok (), t.relocate old new)

def rename (old new : Path) (t : Fs) : CallResult × Fs :=
  match t.node old with
  | none => (.error (t.missing old), t)
  | some n =>
    if old = new then (.ok (), t)
    else if t.hasParent new then t.renameNode n old new
    else (.error (t.missing new), t)

/-- The exchanging call, with the fallback to the plain one when there is nothing
at the destination. Nested paths fail, and the fallback puts back what it moved. -/
def exchange (old new : Path) (t : Fs) : CallResult × Fs :=
  match t.node old, t.node new with
  | some _, some _ =>
    if old = new then (.ok (), t)
    else if new <+: old then (.error .notFound, t)
    else if old <+: new then (.error .other, t)
    else (.ok (), t.swap old new)
  | _, _ => t.rename old new

end Fs

end Foxing
