import Foxing.FileSystem
import Foxing.Lib.Locality

/-!
# Identity of inodes

The caches that lead from an inode to its path below the source directory, and
the two ways in which the worker resolves the path of an event with them. The
state they live in is what the worker changes: the target tree, the inode map
and the directory map.
-/
namespace Foxing

/-- The components of a path text. The root of an absolute path is kept as a
component of its own, empty and current-directory components are dropped. -/
def components (s : String) : Path :=
  (if s.toList.head? = some '/' then ["/"] else []) ++
    ((s.toList.splitOn '/').map String.ofList).filter (fun c => c ≠ "" ∧ c ≠ ".")

/-- Joining an absolute path replaces the base. -/
def Path.join (base : Path) (s : String) : Path :=
  if s.toList.head? = some '/' then components s else base ++ components s

/-- The names that a file can have in a directory. -/
def ValidName (s : String) : Prop := s ≠ "" ∧ s ≠ "." ∧ s ≠ ".." ∧ '/' ∉ s.toList

instance (s : String) : Decidable (ValidName s) := inferInstanceAs (Decidable (_ ∧ _))

theorem ValidName.components_eq {s : String} (h : ValidName s) : components s = [s] := by
  obtain ⟨hne, hdot, -, hslash⟩ := h
  have hhead : s.toList.head? ≠ some '/' := fun hh => hslash (List.mem_of_head? hh)
  simp [components, hhead, List.splitOn_eq_singleton hslash, hne, hdot]

theorem ValidName.join_eq {s : String} (h : ValidName s) (base : Path) :
    Path.join base s = base ++ [s] := by
  have hhead : s.toList.head? ≠ some '/' := fun hh => h.2.2.2 (List.mem_of_head? hh)
  rw [Path.join, if_neg hhead, h.components_eq]

@[simp] theorem components_empty : components "" = [] := by decide

structure IdentityEntry where
  paths : List Path
  generation : U32
  timestampNs : U64
  seqNum : U64
  lastAccessedSeq : U64
  unlinked : Bool
  deriving DecidableEq, Repr

namespace IdentityEntry

def new (path : Path) (generation : U32) (timestampNs seqNum : U64) : IdentityEntry :=
  ⟨[path], generation, timestampNs, seqNum, seqNum, false⟩

/-- Indexing the first path panics when there is none. -/
def primaryPath (entry : IdentityEntry) : Option Path := entry.paths.head?

def addPath (path : Path) (entry : IdentityEntry) : IdentityEntry :=
  { entry with
    paths := if path ∈ entry.paths then entry.paths else entry.paths ++ [path]
    unlinked := false }

def recordAccess (seq : U64) (entry : IdentityEntry) : IdentityEntry :=
  { entry with lastAccessedSeq := if entry.lastAccessedSeq < seq then seq else entry.lastAccessedSeq }

def recordUnlinked (entry : IdentityEntry) : IdentityEntry := { entry with unlinked := true }

def clearPaths (entry : IdentityEntry) : IdentityEntry := { entry with paths := [] }

/-- Lazy repair: a path that is not known yet replaces the others unless the file
has several links. -/
def learnPath (path : Path) (nlink : U32) (entry : IdentityEntry) : IdentityEntry :=
  if path ∈ entry.paths then entry
  else (if nlink ≤ 1 then entry.clearPaths else entry).addPath path

end IdentityEntry

/-- What a worker changes. -/
structure World where
  target : Fs
  inodeMap : U64 → Option IdentityEntry
  dirMap : U64 → Option Path

namespace World

def insertEntry (i : U64) (entry : IdentityEntry) (w : World) : World :=
  { w with inodeMap := Function.update w.inodeMap i (some entry) }

def insertDir (i : U64) (path : Path) (w : World) : World :=
  { w with dirMap := Function.update w.dirMap i (some path) }

def removeDir (i : U64) (w : World) : World :=
  { w with dirMap := Function.update w.dirMap i none }

def updateMap (inode : U64) (relPath : Path) (generation : U32) (isDir : Bool)
    (timestampNs seqNum : U64) (w : World) : World :=
  if inode = 0 then w
  else
    let w := if isDir then w.insertDir inode relPath else w
    match w.inodeMap inode with
    | some entry => w.insertEntry inode ((entry.addPath relPath).recordAccess seqNum)
    | none => w.insertEntry inode (.new relPath generation timestampNs seqNum)

def updateMapAfterRename (inode : U64) (newRelPath : Path) (generation : U32) (isDir : Bool)
    (timestampNs seqNum : U64) (w : World) : World :=
  if inode = 0 then w
  else
    let w := match w.inodeMap inode with
      | some entry =>
        w.insertEntry inode (({ entry.addPath newRelPath with
          generation := generation, timestampNs := timestampNs, seqNum := seqNum }).recordAccess
            seqNum)
      | none => w.insertEntry inode (.new newRelPath generation timestampNs seqNum)
    if isDir then w.insertDir inode newRelPath else w

def removeEntry (inode : U64) (w : World) : World :=
  if inode = 0 then w
  else
    let w := match w.inodeMap inode with
      | some entry => w.insertEntry inode entry.recordUnlinked
      | none => w
    w.removeDir inode

end World

inductive ResolveResult where
  | success (path : Path) (isFallback needsRepair : Bool)
  | needsRepair (path : Path)
  | securityBlock
  deriving DecidableEq, Repr

/-- The path that is acted on; one that needs repair is acted on like any other. -/
def ResolveResult.path? : ResolveResult → Option Path
  | .success p _ _ => some p
  | .needsRepair p => some p
  | .securityBlock => none

/-- No component leads out of the target root. -/
def validateTargetRootContainment (relPath : Path) : Bool :=
  relPath.all fun c => c ≠ ".." ∧ c ≠ "/"

def ResolveResult.validated (relPath : Path) (r : ResolveResult) : ResolveResult :=
  if validateTargetRootContainment relPath then r else .securityBlock

/-- The path that the event's own parent and name lead to. -/
def specificRelPath (e : Event) (w : World) : Option Path :=
  if e.parentInode ≠ 0 ∧ e.name ≠ "" then
    (w.dirMap e.parentInode).map (Path.join · e.name)
  else none

/-- The path of a known inode. Without a result the worker has panicked. -/
def resolveKnown (e : Event) (entry : IdentityEntry) : StateM World (Option ResolveResult) := do
  let entry := entry.recordAccess e.seqNum
  modify (·.insertEntry e.inode entry)
  let specific ← peek (specificRelPath e)
  if entry.generation ≠ U32.max ∧ entry.generation ≠ e.generation then
    return some (.needsRepair (specific.getD (components e.name)))
  match specific with
  | some relPath =>
    modify (·.insertEntry e.inode (entry.learnPath relPath e.nlink))
    return some ((ResolveResult.success relPath false false).validated relPath)
  | none =>
    match entry.primaryPath with
    | some relPath => return some ((ResolveResult.success relPath false false).validated relPath)
    | none => return none

/-- The directory of an inode; one that only the inode map knows is added. -/
def resolveParent (parent : U64) : StateM World (Option (Option Path)) := do
  match ← peek (·.dirMap parent) with
  | some path => return some (some path)
  | none =>
    match ← peek (·.inodeMap parent) with
    | some entry =>
      match entry.primaryPath with
      | some path =>
        modify (·.insertDir parent path)
        return some (some path)
      | none => return none
    | none => return some none

/-- The directory that the event's own parent leads to. -/
def resolveOwnParent (e : Event) : StateM World (Option (Option Path)) :=
  if e.parentInode ≠ 0 ∧ e.name ≠ "" then resolveParent e.parentInode else pure (some none)

/-- The path of an inode that is not known. -/
def resolveUnknown (e : Event) : StateM World (Option ResolveResult) := do
  match ← resolveOwnParent e with
  | none => return none
  | some parentPath =>
    let relPath := match parentPath with
      | some path => Path.join path e.name
      | none => components e.name
    let r := if e.name ≠ "" then ResolveResult.success relPath true true
      else .needsRepair relPath
    return some (r.validated relPath)

def resolveTarget (e : Event) : StateM World (Option ResolveResult) := do
  match ← peek (·.inodeMap e.inode) with
  | some entry => resolveKnown e entry
  | none => resolveUnknown e

/-- The path of a name in a directory; the bare name when the directory is not known. -/
def resolveEventPath (parent : U64) (name : String) : StateM World (Option Path) := do
  if parent = 0 then return some (components name)
  match ← resolveParent parent with
  | some (some path) => return some (Path.join path name)
  | some none => return some (components name)
  | none => return none

/-! ## Runs of the resolvers -/

section Runs
variable {w : World} {i : U64} {q : Path} {entry : IdentityEntry} {e : Event}

theorem resolveParent_of_dir (hd : w.dirMap i = some q) :
    resolveParent i w = (some (some q), w) := by
  show (match w.dirMap i with | some path => _ | none => _ : StateM World _) w = _
  rw [hd]
  rfl

theorem resolveParent_of_inode (hd : w.dirMap i = none) :
    resolveParent i w = match w.inodeMap i with
      | some entry =>
        match entry.primaryPath with
        | some path => (some (some path), w.insertDir i path)
        | none => (none, w)
      | none => (some none, w) := by
  show (match w.dirMap i with | some path => _ | none => _ : StateM World _) w = _
  rw [hd]
  show (match w.inodeMap i with | some entry => _ | none => _ : StateM World _) w = _
  cases w.inodeMap i with
  | none => rfl
  | some entry =>
    cases hp : entry.primaryPath with
    | none =>
      simp only [hp]
      rfl
    | some path =>
      simp only [hp]
      rfl

theorem resolveEventPath_zero (name : String) (w : World) :
    resolveEventPath 0 name w = (some (components name), w) := rfl

theorem resolveEventPath_run (hi : i ≠ 0) (name : String) (w : World) :
    resolveEventPath i name w = match resolveParent i w with
      | (some (some path), v) => (some (Path.join path name), v)
      | (some none, v) => (some (components name), v)
      | (none, v) => (none, v) := by
  unfold resolveEventPath
  rw [if_neg hi]
  show (match (resolveParent i w).1 with
    | some (some path) => _ | some none => _ | none => _ : StateM World _) (resolveParent i w).2 = _
  obtain ⟨r, v⟩ := resolveParent i w
  rcases r with _ | _ | path <;> rfl

theorem resolveTarget_known (h : w.inodeMap e.inode = some entry) :
    resolveTarget e w = resolveKnown e entry w := by
  show (match w.inodeMap e.inode with | some entry => _ | none => _ : StateM World _) w = _
  rw [h]

theorem resolveTarget_unknown (h : w.inodeMap e.inode = none) :
    resolveTarget e w = resolveUnknown e w := by
  show (match w.inodeMap e.inode with | some entry => _ | none => _ : StateM World _) w = _
  rw [h]

/-- A known inode of the right generation is resolved by the event's own parent
and name if the parent is known, and else by the first path on record. -/
theorem resolveKnown_run (hgen : entry.generation = U32.max ∨ entry.generation = e.generation)
    (w : World) :
    resolveKnown e entry w = match specificRelPath e w with
      | some p => (some ((ResolveResult.success p false false).validated p),
          (w.insertEntry e.inode (entry.recordAccess e.seqNum)).insertEntry e.inode
            ((entry.recordAccess e.seqNum).learnPath p e.nlink))
      | none => (entry.primaryPath.map fun p => (ResolveResult.success p false false).validated p,
          w.insertEntry e.inode (entry.recordAccess e.seqNum)) := by
  have hsame : ¬ ((entry.recordAccess e.seqNum).generation ≠ U32.max ∧
      (entry.recordAccess e.seqNum).generation ≠ e.generation) := by
    rintro ⟨h₁, h₂⟩
    exact hgen.elim h₁ h₂
  show (if (entry.recordAccess e.seqNum).generation ≠ U32.max ∧
      (entry.recordAccess e.seqNum).generation ≠ e.generation then _ else
      match specificRelPath e (w.insertEntry e.inode (entry.recordAccess e.seqNum)) with
      | some relPath => _
      | none => _ : StateM World _) (w.insertEntry e.inode (entry.recordAccess e.seqNum)) = _
  rw [if_neg hsame]
  show (match specificRelPath e w with | some relPath => _ | none => _ : StateM World _)
    (w.insertEntry e.inode (entry.recordAccess e.seqNum)) = _
  cases specificRelPath e w with
  | some p => rfl
  | none =>
    show (match entry.primaryPath with | some relPath => _ | none => _ : StateM World _)
      (w.insertEntry e.inode (entry.recordAccess e.seqNum)) = _
    cases entry.primaryPath with
    | some p => rfl
    | none => rfl

/-- A known inode of another generation is to be repaired, at a path that is not checked. -/
theorem resolveKnown_stale (hgen : entry.generation ≠ U32.max ∧ entry.generation ≠ e.generation)
    (w : World) :
    resolveKnown e entry w =
      (some (.needsRepair ((specificRelPath e w).getD (components e.name))),
        w.insertEntry e.inode (entry.recordAccess e.seqNum)) := by
  have hstale : (entry.recordAccess e.seqNum).generation ≠ U32.max ∧
      (entry.recordAccess e.seqNum).generation ≠ e.generation := hgen
  show (if (entry.recordAccess e.seqNum).generation ≠ U32.max ∧
      (entry.recordAccess e.seqNum).generation ≠ e.generation then _ else _ : StateM World _)
    (w.insertEntry e.inode (entry.recordAccess e.seqNum)) = _
  rw [if_pos hstale]
  rfl

theorem resolveOwnParent_run (e : Event) (w : World) :
    resolveOwnParent e w =
      if e.parentInode ≠ 0 ∧ e.name ≠ "" then resolveParent e.parentInode w
      else (some none, w) := by
  unfold resolveOwnParent
  split_ifs <;> rfl

/-- The path of an inode that is not known, given its directory. -/
def unknownPath (e : Event) (base : Option Path) : Path :=
  match base with
  | some path => Path.join path e.name
  | none => components e.name

theorem resolveUnknown_none {v : World} (h : resolveOwnParent e w = (none, v)) :
    resolveUnknown e w = (none, v) := by
  show (match (resolveOwnParent e w).1 with | none => _ | some parentPath => _ : StateM World _)
    (resolveOwnParent e w).2 = _
  rw [h]
  rfl

theorem resolveUnknown_run {base : Option Path} {v : World}
    (h : resolveOwnParent e w = (some base, v)) :
    resolveUnknown e w = (some ((if e.name ≠ "" then
      ResolveResult.success (unknownPath e base) true true
      else .needsRepair (unknownPath e base)).validated (unknownPath e base)), v) := by
  show (match (resolveOwnParent e w).1 with | none => _ | some parentPath => _ : StateM World _)
    (resolveOwnParent e w).2 = _
  rw [h]
  cases base with
  | none => rfl
  | some path => rfl

end Runs

end Foxing
