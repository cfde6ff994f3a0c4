import Foxing.DirHash

/-!
# Targets with directory hashes

A target as the scans see it: the version that it has of each file, and the hash
that is stored on each directory. Beside a hash the model records the source that it
was taken of, which no scan reads. A hash is worth something if every file that it
covers is on the target in the version it had then, or is waiting to be copied. If
the hash of the source is the same later, the file is on the target as it is.
-/
namespace Foxing

/-- What comes of a copy: it is not made, it fails and leaves something, or it succeeds
with a time of its own, which is set to that of the source if that is asked for and
works. -/
inductive CopyOutcome where
  | unseen
  | failed (left : Option Stat)
  | copied (mtime mtimeNsec : U64) (preserved : Bool)
  deriving DecidableEq, Repr

/-- The version on the target after a copy of the given version. -/
def CopyOutcome.leaves (outcome : CopyOutcome) (archive : Bool) (stat : Stat)
    (held : Option Stat) : Option Stat :=
  match outcome with
  | .unseen => held
  | .failed left => left
  | .copied mtime mtimeNsec preserved =>
    some (if archive && preserved then stat else ⟨stat.size, mtime, mtimeNsec⟩)

structure HashedTarget where
  /-- The size and time that the target has for a path. -/
  held : Path → Option Stat
  /-- The hash stored on a directory of the target. -/
  dirHash : Path → Option Bytes
  /-- The source when the hash was stored. -/
  snapshot : Path → Option SourceTree

namespace HashedTarget
open DirHash

/-- A hash is stored on a directory. -/
def setHash (t : HashedTarget) (dir : Path) (hash : Bytes) (source : SourceTree) : HashedTarget :=
  { t with
    dirHash := Function.update t.dirHash dir (some hash)
    snapshot := Function.update t.snapshot dir (some source) }

/-- Hashes are stored on the directories of a list for which there is one. -/
def setHashes (hashOf : Path → Option (Bytes × SourceTree)) (dirs : List Path)
    (t : HashedTarget) : HashedTarget :=
  dirs.foldl (fun t dir =>
    match hashOf dir with
    | none => t
    | some (hash, source) => t.setHash dir hash source) t

/-- The hashes of some directories are removed. -/
def clearHashes (cleared : Path → Bool) (t : HashedTarget) : HashedTarget :=
  { t with dirHash := fun dir => if cleared dir then none else t.dirHash dir }

/-- Files and directories are removed, with their hashes. -/
def remove (removed : Path → Bool) (t : HashedTarget) : HashedTarget :=
  { t.clearHashes removed with held := fun path => if removed path then none else t.held path }

/-- A target on which no hash has been stored. -/
def start (held : Path → Option Stat) : HashedTarget := ⟨held, fun _ => none, fun _ => none⟩

section Hashes
variable {hashOf : Path → Option (Bytes × SourceTree)} {dirs : List Path} {dir : Path}

theorem setHashes_append (dirs dirs' : List Path) (t : HashedTarget) :
    t.setHashes hashOf (dirs ++ dirs') = (t.setHashes hashOf dirs).setHashes hashOf dirs' :=
  List.foldl_append

theorem held_setHashes (dirs : List Path) (t : HashedTarget) :
    (t.setHashes hashOf dirs).held = t.held := by
  induction dirs using List.reverseRecOn with
  | nil => rfl
  | append_singleton dirs dir ih =>
    rw [setHashes_append]
    simp only [setHashes, List.foldl_cons, List.foldl_nil]
    split
    · exact ih
    · exact ih

/-- Directories that are not in the list, or for which there is no hash, stay as they are. -/
theorem setHashes_of_not (h : dir ∉ dirs ∨ hashOf dir = none) (t : HashedTarget) :
    (t.setHashes hashOf dirs).dirHash dir = t.dirHash dir ∧
      (t.setHashes hashOf dirs).snapshot dir = t.snapshot dir := by
  induction dirs using List.reverseRecOn with
  | nil => exact ⟨rfl, rfl⟩
  | append_singleton dirs d ih =>
    rw [setHashes_append]
    have ih' := ih (h.imp_left fun hmem hd => hmem (List.mem_append_left _ hd))
    simp only [setHashes, List.foldl_cons, List.foldl_nil] at ih' ⊢
    split
    · exact ih'
    next hash source hsome =>
      have hne : dir ≠ d := by
        rintro rfl
        rcases h with hmem | hnone
        · exact hmem (List.mem_append_right _ (List.mem_singleton_self _))
        · rw [hnone] at hsome
          cases hsome
      exact ⟨(Function.update_of_ne hne _ _).trans ih'.1, (Function.update_of_ne hne _ _).trans ih'.2⟩

/-- The others have the hash in the end. -/
theorem setHashes_of_mem (hmem : dir ∈ dirs) {hash : Bytes} {source : SourceTree}
    (h : hashOf dir = some (hash, source)) (t : HashedTarget) :
    (t.setHashes hashOf dirs).dirHash dir = some hash ∧
      (t.setHashes hashOf dirs).snapshot dir = some source := by
  induction dirs using List.reverseRecOn with
  | nil => cases hmem
  | append_singleton dirs d ih =>
    rw [setHashes_append]
    by_cases hd : dir = d
    · subst hd
      simp only [setHashes, List.foldl_cons, List.foldl_nil, h]
      exact ⟨Function.update_self .., Function.update_self ..⟩
    · have hnotin : dir ∉ [d] ∨ hashOf dir = none := .inl (by simpa using hd)
      have hlast := setHashes_of_not hnotin (t.setHashes hashOf dirs)
      rw [hlast.1, hlast.2]
      exact ih ((List.mem_append.mp hmem).resolve_right (by simpa using hd))

end Hashes

/-- A regular file directly in a directory of a source, and covered by its hash. -/
structure Covered (source : SourceTree) (dir : Path) (e : SourceEntry) : Prop where
  mem : e ∈ source.entries
  kind : e.kind = .file
  child : ∃ name, e.path = dir ++ [name] ∧ reservedName name = false

variable (blake3 : Bytes → Bytes)

/-- What a stored hash stands for: the files that it covers are there in the version they
had, those that are still to be copied apart. -/
def Backed (pending : Path → Prop) (t : HashedTarget) (dir : Path) : Prop :=
  ∀ hash, t.dirHash dir = some hash → ∃ source, t.snapshot dir = some source ∧
    computeDirHashFromPath blake3 source dir = some hash ∧
    ∀ e, Covered source dir e → t.held e.path = some e.stat ∨ pending e.path

/-- The recorded source differs from the given one in what the hash can tell: different
children do not have the same hash, and no file was a link of its size and time. -/
structure Telling (t : HashedTarget) (source : SourceTree) (dir : Path) : Prop where
  injective : ∀ source', t.snapshot dir = some source' →
    computeDirHash blake3 (children source' dir) = computeDirHash blake3 (children source dir) →
    children source' dir = children source dir
  kinds : ∀ source', t.snapshot dir = some source' → ∀ e ∈ source.entries, e.kind = .file →
    ∀ e' ∈ source'.entries, e'.path = e.path → e'.kind ≠ .other

variable {blake3} {pending : Path → Prop} {t : HashedTarget} {dir : Path}

/-- A hash that agrees tells that the files in the directory are in step. -/
theorem Backed.held_of_agrees (h : t.Backed blake3 pending dir) {source : SourceTree}
    (hagrees : t.dirHash dir = computeDirHashFromPath blake3 source dir)
    (htelling : t.Telling blake3 source dir) {e : SourceEntry} (he : Covered source dir e)
    (hpending : ¬ pending e.path) : t.held e.path = some e.stat := by
  obtain ⟨name, hpath, hname⟩ := he.child
  have hlists := lists_file he.mem hpath hname he.kind
  rw [computeDirHashFromPath_of_lists hlists] at hagrees
  obtain ⟨source', hsnapshot, hhash, hheld⟩ := h _ hagrees
  have hsame := htelling.injective source' hsnapshot
    (computeDirHashFromPath_eq_some hhash).symm
  -- The file was there when the hash was stored, in the same version.
  rw [← hsame] at hlists
  obtain ⟨e', he', hchild⟩ := mem_children.mp hlists
  obtain ⟨hpath', hstat, hdir⟩ := childOf_path hchild
  have hkind : e'.kind = .file := by
    have hlink := htelling.kinds source' hsnapshot e he.mem he.kind e' he'
      (hpath'.trans hpath.symm)
    cases hk : e'.kind with
    | dir => simp [hk] at hdir
    | file => rfl
    | other => exact absurd hk hlink
  have hcovered : Covered source' dir e' := ⟨he', hkind, name, hpath', hname⟩
  have hsettled := hheld e' hcovered
  rw [hpath'.trans hpath.symm, hstat] at hsettled
  exact hsettled.resolve_right hpending

theorem Backed.mono {pending' : Path → Prop} (h : t.Backed blake3 pending dir)
    (hpending : ∀ path, pending path → pending' path) : t.Backed blake3 pending' dir := by
  intro hash hhash
  obtain ⟨source, hsnapshot, hcomputed, hheld⟩ := h hash hhash
  exact ⟨source, hsnapshot, hcomputed, fun e he => (hheld e he).imp id (hpending e.path)⟩

/-- Hashes that are removed need no backing. -/
theorem Backed.clearHashes (h : t.Backed blake3 pending dir) (cleared : Path → Bool) :
    (t.clearHashes cleared).Backed blake3 pending dir := by
  intro hash hhash
  simp only [HashedTarget.clearHashes] at hhash
  split at hhash
  · cases hhash
  · exact h hash hhash

theorem backed_start (held : Path → Option Stat) (dir : Path) :
    (start held).Backed blake3 pending dir := by
  intro hash h
  cases h

end HashedTarget

end Foxing
