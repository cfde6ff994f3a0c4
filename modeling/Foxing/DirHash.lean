import Foxing.Event
import Foxing.FileSystem
import Foxing.Lib.Bytes
import Mathlib.Data.List.Sort

/-!
# Directory hashes

The fingerprint of a directory: for each child its size, its modification time
and whether it is a directory, hashed; these hashes with the names, in the order
of the names, hashed once more. Children of children take no part in it, nor do
names that foxing keeps for itself. The hash function is a parameter.
-/
namespace Foxing

/-- Size and modification time of a file. -/
structure Stat where
  size : U64
  mtime : U64
  mtimeNsec : U64
  deriving DecidableEq, Repr

/-- A child of a directory as its hash sees it. -/
structure Child where
  name : String
  stat : Stat
  isDir : Bool
  deriving DecidableEq, Repr

inductive SourceKind where
  | dir | file | other
  deriving DecidableEq, Repr

/-- An entry of a source; a link has the size and time of the link. -/
structure SourceEntry where
  path : Path
  kind : SourceKind
  stat : Stat
  deriving DecidableEq, Repr

/-- A source: what there is at its root and below. -/
@[ext]
structure SourceTree where
  entries : List SourceEntry
  nodup : (entries.map SourceEntry.path).Nodup

/-- The directories of a source. -/
def SourceTree.dirs (source : SourceTree) : List Path :=
  (source.entries.filter fun e => e.kind = .dir).map SourceEntry.path

/-- There is one entry for a path. -/
theorem SourceTree.find?_file {source : SourceTree} {e : SourceEntry} (he : e ∈ source.entries)
    (hkind : e.kind = .file) :
    source.entries.find? (fun x => x.path = e.path && x.kind = .file) = some e := by
  cases hfind : source.entries.find? (fun x => x.path = e.path && x.kind = .file) with
  | none =>
    have hnone := List.find?_eq_none.mp hfind e he
    simp [hkind] at hnone
  | some x =>
    have hpath := List.find?_some hfind
    simp only [Bool.and_eq_true, decide_eq_true_eq] at hpath
    rw [List.inj_on_of_nodup_map source.nodup (List.mem_of_find?_eq_some hfind) he hpath.1]

namespace DirHash

/-- The names that a directory hash passes over. -/
def reservedName (name : String) : Bool :=
  (".".toList.isPrefixOf name.toList && ".foxing_meta".toList.isSuffixOf name.toList) ||
    ".foxing".toList.isPrefixOf name.toList

/-- An entry as a child of a directory that the hash covers. -/
def childOf (dir : Path) (e : SourceEntry) : Option Child :=
  match e.path.getLast? with
  | none => none
  | some name =>
    if e.path.dropLast = dir ∧ reservedName name = false then some ⟨name, e.stat, e.kind = .dir⟩
    else none

/-- The children that the hash of a directory covers, in the order of their names. -/
def children (source : SourceTree) (dir : Path) : List Child :=
  (source.entries.filterMap (childOf dir)).insertionSort (fun a b => a.name ≤ b.name)

variable (blake3 : Bytes → Bytes)

/-- The hash of a single child. -/
def childHash (c : Child) : Bytes :=
  blake3 (Bytes.ofNat 8 c.stat.size.val ++ Bytes.ofNat 8 c.stat.mtime.val ++
    Bytes.ofNat 8 c.stat.mtimeNsec.val ++ [if c.isDir then 100 else 102])

def nameBytes (name : String) : Bytes := name.toUTF8.data.toList.map UInt8.toFin

/-- The hash of a list of children, each by its name, a colon and its hash. -/
def computeDirHash (cs : List Child) : Bytes :=
  blake3 (cs.flatMap fun c => nameBytes c.name ++ [58] ++ childHash blake3 c)

/-- The hash of a directory, if there is something in it. -/
def computeDirHashFromPath (source : SourceTree) (dir : Path) : Option Bytes :=
  if (children source dir).isEmpty then none
  else some (computeDirHash blake3 (children source dir))

theorem mem_children {source : SourceTree} {dir : Path} {c : Child} :
    c ∈ children source dir ↔ ∃ e ∈ source.entries, childOf dir e = some c := by
  rw [children, (List.perm_insertionSort _ _).mem_iff, List.mem_filterMap]

/-- A regular file is a child of its directory. -/
theorem childOf_file {e : SourceEntry} {dir : Path} {name : String} (hpath : e.path = dir ++ [name])
    (hname : reservedName name = false) (hkind : e.kind ≠ .dir) :
    childOf dir e = some ⟨name, e.stat, false⟩ := by
  simp [childOf, hpath, hname, hkind]

/-- A listing tells the version of a file. -/
def Lists (cs : List Child) (name : String) (stat : Stat) : Prop := ⟨name, stat, false⟩ ∈ cs

instance (cs : List Child) (name : String) (stat : Stat) : Decidable (Lists cs name stat) :=
  inferInstanceAs (Decidable (_ ∈ cs))

theorem childOf_path {e : SourceEntry} {dir : Path} {c : Child} (h : childOf dir e = some c) :
    e.path = dir ++ [c.name] ∧ e.stat = c.stat ∧ (e.kind = .dir ↔ c.isDir = true) := by
  unfold childOf at h
  split at h
  · cases h
  · next name hname =>
    split at h
    · next hdir =>
      obtain rfl := Option.some.inj h
      refine ⟨?_, rfl, decide_eq_true_iff.symm⟩
      rw [← hdir.1]
      exact (List.dropLast_append_getLast? name hname).symm
    · cases h

/-- A regular file is listed in its directory, unless its name is reserved. -/
theorem lists_file {source : SourceTree} {e : SourceEntry} {dir : Path} {name : String}
    (he : e ∈ source.entries) (hpath : e.path = dir ++ [name])
    (hname : reservedName name = false) (hkind : e.kind = .file) :
    Lists (children source dir) name e.stat :=
  mem_children.mpr ⟨e, he, childOf_file hpath hname (by simp [hkind])⟩

theorem computeDirHashFromPath_eq_some {blake3 : Bytes → Bytes} {source : SourceTree} {dir : Path}
    {hash : Bytes} (h : computeDirHashFromPath blake3 source dir = some hash) :
    hash = computeDirHash blake3 (children source dir) := by
  unfold computeDirHashFromPath at h
  split at h
  · cases h
  · exact (Option.some.inj h).symm

theorem computeDirHashFromPath_of_lists {blake3 : Bytes → Bytes} {source : SourceTree} {dir : Path}
    {name : String} {v : Stat} (h : Lists (children source dir) name v) :
    computeDirHashFromPath blake3 source dir =
      some (computeDirHash blake3 (children source dir)) := by
  unfold computeDirHashFromPath
  cases hcs : children source dir with
  | nil =>
    rw [Lists, hcs] at h
    cases h
  | cons c cs => rfl

end DirHash

end Foxing
