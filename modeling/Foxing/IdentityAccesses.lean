import Foxing.Projector
import Foxing.Worker
import Foxing.RepeatedResolution
import Foxing.Lib.Run

/-!
# The identity maps under interleaved calls

The projector and the workers change the identity maps at the same time. A call is the
sequence of its accesses, each of which is done under one lock; what it does next depends
on what the access found. The locks that a call holds from one access to the next only
exclude some of the interleavings, and all of them are looked at here. A call that waits for
itself, or whose thread panics, takes no further step.

An entry is to have a path at any time, since its first path is read without a check. Two
accesses can take the last one away: one that clears the list, and one that removes a path.
-/
namespace Foxing

namespace IdentityEntry

def removePath (path : Path) (entry : IdentityEntry) : IdentityEntry :=
  { entry with paths := entry.paths.filter (· ≠ path) }

def swapPaths (oldPath newPath : Path) (entry : IdentityEntry) : IdentityEntry :=
  { entry with paths := entry.paths.filter (fun p => p ≠ oldPath ∧ p ≠ newPath) ++ [newPath] }

def cacheTtlEvents : ℕ := 100000

def shouldEvict (currentGlobalSeq : U64) (entry : IdentityEntry) : Bool :=
  entry.unlinked ||
    decide (entry.lastAccessedSeq < currentGlobalSeq ∧
      cacheTtlEvents < currentGlobalSeq.val - entry.lastAccessedSeq.val)

/-- The entry has a path, and none of them twice. -/
structure WellPathed (entry : IdentityEntry) : Prop where
  nonempty : entry.paths ≠ []
  nodup : entry.paths.Nodup

end IdentityEntry

namespace IdentityProjector

/-- A present entry is changed in its place. -/
def editEntry (inode : U64) (f : IdentityEntry → IdentityEntry) (s : IdentityProjector) :
    IdentityProjector :=
  match s.inodeMap inode with
  | some entry => s.setEntry inode (some (f entry))
  | none => s

/-- The entry that a creation, a scan or a write leaves. -/
def mapEntry (inode : U64) (relPath : Path) (generation : U32) (timestampNs seqNum : U64)
    (s : IdentityProjector) : IdentityProjector :=
  match s.inodeMap inode with
  | some entry => s.setEntry inode (some ((entry.addPath relPath).recordAccess seqNum))
  | none => s.setEntry inode (some (.new relPath generation timestampNs seqNum))

/-- The entry that a rename leaves. -/
def mapRenamedEntry (inode : U64) (newRelPath : Path) (generation : U32)
    (timestampNs seqNum : U64) (s : IdentityProjector) : IdentityProjector :=
  match s.inodeMap inode with
  | some entry => s.setEntry inode (some (({ entry.addPath newRelPath with
      generation := generation, timestampNs := timestampNs, seqNum := seqNum }).recordAccess
        seqNum))
  | none => s.setEntry inode (some (.new newRelPath generation timestampNs seqNum))

def setPending (inode : U64) (renames : List Event) (s : IdentityProjector) : IdentityProjector :=
  { s with pendingRenames := Function.update s.pendingRenames inode renames }

def WellPathed (s : IdentityProjector) : Prop :=
  ∀ i entry, s.inodeMap i = some entry → entry.WellPathed

end IdentityProjector

/-! ## What keeps the paths of an entry -/

namespace IdentityEntry
variable {entry : IdentityEntry}

/-- The list of paths is all that counts. -/
theorem WellPathed.of_paths (h : entry.WellPathed) {entry' : IdentityEntry}
    (hpaths : entry'.paths = entry.paths) : entry'.WellPathed := by
  constructor
  · rw [hpaths]
    exact h.nonempty
  · rw [hpaths]
    exact h.nodup

theorem wellPathed_new (path : Path) (generation : U32) (timestampNs seqNum : U64) :
    (new path generation timestampNs seqNum).WellPathed :=
  ⟨List.cons_ne_nil _ _, List.nodup_singleton _⟩

theorem not_wellPathed_clearPaths : ¬ entry.clearPaths.WellPathed :=
  fun h => h.nonempty rfl

theorem WellPathed.addPath (h : entry.WellPathed) (path : Path) :
    (entry.addPath path).WellPathed := by
  by_cases hmem : path ∈ entry.paths
  · have hpaths : (entry.addPath path).paths = entry.paths := if_pos hmem
    exact h.of_paths hpaths
  · have hpaths : (entry.addPath path).paths = entry.paths ++ [path] := if_neg hmem
    constructor
    · simp [hpaths]
    · rw [hpaths]
      exact List.nodup_append.mpr ⟨h.nodup, List.nodup_singleton _, by
        intro a ha b hb heq
        rw [List.mem_singleton] at hb
        exact hmem (hb ▸ heq ▸ ha)⟩

/-- A path that is put at the end of what is left without it. -/
theorem nodup_append_of_filter {paths : List Path} (h : paths.Nodup) (path : Path)
    {keep : Path → Bool} (hkeep : keep path = false) : (paths.filter keep ++ [path]).Nodup := by
  refine List.nodup_append.mpr ⟨h.filter _, List.nodup_singleton _, ?_⟩
  intro a ha b hb heq
  rw [List.mem_singleton] at hb
  have hkept := (List.mem_filter.mp ha).2
  rw [heq, hb, hkeep] at hkept
  cases hkept

theorem WellPathed.swapPaths (h : entry.WellPathed) (oldPath newPath : Path) :
    (entry.swapPaths oldPath newPath).WellPathed := by
  constructor
  · simp [IdentityEntry.swapPaths]
  · exact nodup_append_of_filter h.nodup newPath (by simp)

/-- After a removal the list has a path only if there was another one. -/
theorem wellPathed_removePath (h : entry.WellPathed) (path : Path) :
    (entry.removePath path).WellPathed ↔ ∃ p ∈ entry.paths, p ≠ path := by
  constructor
  · intro hremoved
    obtain ⟨p, hp⟩ := List.exists_mem_of_ne_nil _ hremoved.nonempty
    obtain ⟨hp, hne⟩ := List.mem_filter.mp hp
    exact ⟨p, hp, of_decide_eq_true hne⟩
  · rintro ⟨p, hp, hne⟩
    refine ⟨List.ne_nil_of_mem (List.mem_filter.mpr ⟨hp, decide_eq_true hne⟩), ?_⟩
    exact h.nodup.filter _

end IdentityEntry

namespace IdentityProjector
variable {s : IdentityProjector} {inode : U64}

theorem wellPathed_setEntry (h : s.WellPathed) (v : Option IdentityEntry) :
    (s.setEntry inode v).WellPathed ↔ ∀ entry, v = some entry → entry.WellPathed := by
  constructor
  · intro hset entry hentry
    refine hset inode entry ?_
    simpa [setEntry] using hentry
  · intro hv i entry hentry
    by_cases hi : i = inode
    · subst hi
      exact hv entry (by simpa [setEntry] using hentry)
    · exact h i entry (by simpa [setEntry, hi] using hentry)

theorem WellPathed.setEntry (h : s.WellPathed) {entry : IdentityEntry}
    (hentry : entry.WellPathed) : (s.setEntry inode (some entry)).WellPathed := by
  refine (wellPathed_setEntry h _).mpr fun entry' heq => ?_
  cases heq
  exact hentry

theorem WellPathed.eraseEntry (h : s.WellPathed) : (s.setEntry inode none).WellPathed := by
  refine (wellPathed_setEntry h _).mpr fun entry heq => ?_
  cases heq

theorem wellPathed_editEntry (h : s.WellPathed) (f : IdentityEntry → IdentityEntry) :
    (s.editEntry inode f).WellPathed ↔
      ∀ entry, s.inodeMap inode = some entry → (f entry).WellPathed := by
  unfold editEntry
  cases hentry : s.inodeMap inode with
  | none => simp [h]
  | some entry => simp [wellPathed_setEntry h]

/-- A change of an entry that leaves a path where there was one. -/
theorem WellPathed.editEntry (h : s.WellPathed) {f : IdentityEntry → IdentityEntry}
    (hf : ∀ entry : IdentityEntry, entry.WellPathed → (f entry).WellPathed) :
    (s.editEntry inode f).WellPathed :=
  (wellPathed_editEntry h f).mpr fun entry hentry => hf entry (h inode entry hentry)

theorem pushPath_eq (path : Path) (paths : List Path) :
    pushPath path paths = paths.filter (· ≠ path) ++ [path] := by
  refine if_pos fun hlast => ?_
  have hmem := List.mem_of_getLast? hlast
  exact of_decide_eq_true (List.mem_filter.mp hmem).2 rfl

theorem wellPathed_pushPath {entry : IdentityEntry} (h : entry.WellPathed) (path : Path)
    {entry' : IdentityEntry} (hpaths : entry'.paths = pushPath path entry.paths) :
    entry'.WellPathed := by
  rw [pushPath_eq] at hpaths
  constructor
  · simp [hpaths]
  · rw [hpaths]
    exact IdentityEntry.nodup_append_of_filter h.nodup path (by simp)

theorem WellPathed.updateIdentity (h : s.WellPathed) (e : Event) (path : Path) :
    (s.updateIdentity e path).WellPathed := by
  unfold IdentityProjector.updateIdentity
  cases hentry : s.inodeMap e.inode with
  | none => exact h.setEntry (IdentityEntry.wellPathed_new _ _ _ _)
  | some entry => exact h.setEntry (wellPathed_pushPath (h _ _ hentry) path rfl)

theorem WellPathed.addIdentityPath (h : s.WellPathed) (e : Event) (path : Path) :
    (s.addIdentityPath e path).WellPathed := by
  unfold IdentityProjector.addIdentityPath
  cases hentry : s.inodeMap e.inode with
  | none => exact h.setEntry (IdentityEntry.wellPathed_new _ _ _ _)
  | some entry => exact h.setEntry (wellPathed_pushPath (h _ _ hentry) path rfl)

theorem WellPathed.mapEntry (h : s.WellPathed) (relPath : Path) (generation : U32)
    (timestampNs seqNum : U64) :
    (s.mapEntry inode relPath generation timestampNs seqNum).WellPathed := by
  unfold IdentityProjector.mapEntry
  cases hentry : s.inodeMap inode with
  | none => exact h.setEntry (IdentityEntry.wellPathed_new _ _ _ _)
  | some entry => exact h.setEntry (((h _ _ hentry).addPath relPath).of_paths rfl)

theorem WellPathed.mapRenamedEntry (h : s.WellPathed) (newRelPath : Path) (generation : U32)
    (timestampNs seqNum : U64) :
    (s.mapRenamedEntry inode newRelPath generation timestampNs seqNum).WellPathed := by
  unfold IdentityProjector.mapRenamedEntry
  cases hentry : s.inodeMap inode with
  | none => exact h.setEntry (IdentityEntry.wellPathed_new _ _ _ _)
  | some entry => exact h.setEntry (((h _ _ hentry).addPath newRelPath).of_paths rfl)

end IdentityProjector

/-- What is done to the maps under one lock. -/
inductive Access
  | read
  | recordAccess (inode seq : U64)
  | recordUse (inode : U64)
  | recordUnlinked (inode : U64)
  | setGeneration (inode : U64) (generation : U32)
  | clearPaths (inode : U64)
  | addPath (inode : U64) (path : Path)
  | removePath (inode : U64) (path : Path)
  | swapPaths (inode : U64) (oldPath newPath : Path)
  | updateIdentity (e : Event) (path : Path)
  | addIdentityPath (e : Event) (path : Path)
  | mapEntry (inode : U64) (relPath : Path) (generation : U32) (timestampNs seqNum : U64)
  | mapRenamedEntry (inode : U64) (newRelPath : Path) (generation : U32)
      (timestampNs seqNum : U64)
  | removeEntry (inode : U64)
  | evict (inode currentGlobalSeq : U64)
  | setDir (inode : U64) (path : Option Path)
  | deferRename (e : Event)
  | takeDeferred (inode : U64)

namespace Access

def apply : Access → IdentityProjector → IdentityProjector
  | read, s => s
  | recordAccess inode seq, s => s.editEntry inode (·.recordAccess seq)
  | recordUse inode, s => s.editEntry inode (·.recordUse)
  | recordUnlinked inode, s => s.editEntry inode (·.recordUnlinked)
  | setGeneration inode generation, s =>
    s.editEntry inode fun entry => { entry with generation := generation }
  | clearPaths inode, s => s.editEntry inode (·.clearPaths)
  | addPath inode path, s => s.editEntry inode (·.addPath path)
  | removePath inode path, s => s.editEntry inode (·.removePath path)
  | swapPaths inode oldPath newPath, s => s.editEntry inode (·.swapPaths oldPath newPath)
  | updateIdentity e path, s => s.updateIdentity e path
  | addIdentityPath e path, s => s.addIdentityPath e path
  | mapEntry inode relPath generation timestampNs seqNum, s =>
    s.mapEntry inode relPath generation timestampNs seqNum
  | mapRenamedEntry inode newRelPath generation timestampNs seqNum, s =>
    s.mapRenamedEntry inode newRelPath generation timestampNs seqNum
  | removeEntry inode, s => s.setEntry inode none
  | evict inode currentGlobalSeq, s =>
    if (s.inodeMap inode).any (·.shouldEvict currentGlobalSeq) then s.setEntry inode none else s
  | setDir inode path, s => s.setDir inode path
  | deferRename e, s => s.setPending e.inode (s.pendingRenames e.inode ++ [e])
  | takeDeferred inode, s => s.setPending inode []

/-- The access is not one that takes all paths of an entry away: no list of a present entry is
cleared, and no path removed that is the only one. -/
def Keeps : Access → IdentityProjector → Prop
  | clearPaths inode, s => s.inodeMap inode = none
  | removePath inode path, s =>
    ∀ entry, s.inodeMap inode = some entry → ∃ p ∈ entry.paths, p ≠ path
  | _, _ => True

end Access

/-- Where all entries have paths, an access leaves it so exactly if it keeps one. -/
theorem Access.wellPathed_apply {s : IdentityProjector} (h : s.WellPathed) (a : Access) :
    (a.apply s).WellPathed ↔ a.Keeps s := by
  cases a with
  | read => exact iff_true_intro h
  | recordAccess inode seq | recordUse inode | recordUnlinked inode
  | setGeneration inode generation =>
    exact iff_true_intro (h.editEntry fun entry hentry => hentry.of_paths rfl)
  | clearPaths inode =>
    refine (IdentityProjector.wellPathed_editEntry h _).trans ?_
    simp only [Keeps, IdentityEntry.not_wellPathed_clearPaths, imp_false]
    exact Option.eq_none_iff_forall_ne_some.symm
  | addPath inode path =>
    exact iff_true_intro (h.editEntry fun entry hentry => hentry.addPath path)
  | removePath inode path =>
    refine (IdentityProjector.wellPathed_editEntry h _).trans (forall₂_congr fun entry hentry => ?_)
    exact IdentityEntry.wellPathed_removePath (h inode entry hentry) path
  | swapPaths inode oldPath newPath =>
    exact iff_true_intro (h.editEntry fun entry hentry => hentry.swapPaths oldPath newPath)
  | updateIdentity e path => exact iff_true_intro (h.updateIdentity e path)
  | addIdentityPath e path => exact iff_true_intro (h.addIdentityPath e path)
  | mapEntry inode relPath generation timestampNs seqNum =>
    exact iff_true_intro (h.mapEntry relPath generation timestampNs seqNum)
  | mapRenamedEntry inode newRelPath generation timestampNs seqNum =>
    exact iff_true_intro (h.mapRenamedEntry newRelPath generation timestampNs seqNum)
  | removeEntry inode => exact iff_true_intro h.eraseEntry
  | evict inode currentGlobalSeq =>
    refine iff_true_intro ?_
    simp only [apply]
    split_ifs
    · exact h.eraseEntry
    · exact h
  | setDir inode path => exact iff_true_intro h
  | deferRename e => exact iff_true_intro h
  | takeDeferred inode => exact iff_true_intro h

/-- A call as its accesses. Each is followed by what depends on the state that it found. -/
inductive Program
  | done
  | step (access : Access) (next : IdentityProjector → Program)

namespace Program

/-- The call by itself. -/
def run : Program → IdentityProjector → IdentityProjector
  | done, s => s
  | step access next, s => (next s).run (access.apply s)

/-- An access whose result is not used. -/
def andThen (access : Access) (next : Program) : Program := step access fun _ => next

/-! ## The projector -/

def findInodeByRelPath (relPath : Path) (next : Option U64 → Program) : List U64 → Program
  | [] => next none
  | i :: order => step .read fun s =>
    if (s.inodeMap i).any fun entry => relPath ∈ entry.paths then next (some i)
    else findInodeByRelPath relPath next order

def swapIdentityPath (inode : U64) (oldPath newPath : Path) (next : Program) : Program :=
  step .read fun s =>
    match s.inodeMap inode with
    | some _ => andThen (.swapPaths inode oldPath newPath) (andThen (.recordUse inode) next)
    | none => next

/-- The entry is removed whatever has come to its list since it was found empty. -/
def removeIdentityPath (inode : U64) (path : Path) (next : Program) : Program :=
  step .read fun s =>
    match s.inodeMap inode with
    | none => next
    | some _ => step (.removePath inode path) fun s =>
      if (s.inodeMap inode).any fun entry => (entry.removePath path).paths = [] then
        step (.removePath inode path) fun s =>
          if (s.inodeMap inode).any fun entry => (entry.removePath path).paths = [] then
            andThen (.recordUnlinked inode) (andThen (.removeEntry inode) next)
          else andThen (.removeEntry inode) next
      else next

def exchangeRename (order : List U64) (e : Event) (pathA pathB : Path) (next : Program) :
    Program :=
  findInodeByRelPath pathB (fun
    | some inodeB => step .read fun s =>
      let next := if (s.dirMap inodeB).isSome then andThen (.setDir inodeB (some pathA)) next
        else next
      let next := if e.isDirMode then andThen (.setDir e.inode (some pathB)) next else next
      swapIdentityPath inodeB pathB pathA (swapIdentityPath e.inode pathA pathB next)
    | none =>
      andThen (.updateIdentity e pathB)
        (if e.isDirMode then andThen (.setDir e.inode (some pathB)) next else next)) order

/-- At the end the path is looked up. If it is gone by then, the second update waits for the
reference that the call itself holds. -/
def standardRename (e : Event) (pathA pathB : Path) (next : Program) : Program :=
  let check := step .read fun s =>
    match s.inodeMap e.inode with
    | some _ => step .read fun s =>
      if (s.inodeMap e.inode).any fun entry => pathB ∈ entry.paths then next else done
    | none => next
  removeIdentityPath e.inode pathA (andThen (.updateIdentity e pathB)
    (if e.isDirMode then andThen (.setDir e.inode (some pathB)) check else check))

def projectRename (order : List U64) (e : Event) (next : Program) : Program :=
  step .read fun s =>
    match s.inodeMap e.inode with
    | none => andThen (.deferRename e) next
    | some _ =>
      match e.newName with
      | none => next
      | some newName => step .read fun s =>
        let pathA := s.relPath e.parentInode e.name
        step .read fun s =>
          let pathB := s.newRelPath e newName
          if e.isRenameExchange then exchangeRename order e pathA pathB next
          else standardRename e pathA pathB next

def createIdentity (shard : U64 → ℕ) (e : Event) (next : Program) : Program :=
  if e.parentInode = 0 then next
  else step .read fun s =>
    match s.dirMap e.parentInode with
    | none => next
    | some parentPath =>
      let fullPath := Path.join parentPath e.name
      andThen (.updateIdentity e fullPath)
        (if e.eventType = .mkdir then
          if shard e.inode = shard e.parentInode then done
          else andThen (.setDir e.inode (some fullPath)) next
        else next)

def replayDeferred (order : List U64) (inode : U64) (next : Program) : Program :=
  step (.takeDeferred inode) fun s => (s.pendingRenames inode).foldr (projectRename order) next

/-- The path of the event below a parent that is known. -/
def withParent (e : Event) (f : Path → Program → Program) (next : Program) : Program :=
  if e.parentInode = 0 then next
  else step .read fun s =>
    match s.dirMap e.parentInode with
    | some parentPath => f (Path.join parentPath e.name) next
    | none => next

def project (shard : U64 → ℕ) (order : List U64) (e : Event) : Program :=
  match e.eventType with
  | .rename => projectRename order e done
  | .mkdir | .create | .mknod | .symlink =>
    createIdentity shard e (replayDeferred order e.inode done)
  | .link => withParent e (fun path => andThen (.addIdentityPath e path)) done
  | .unlink => withParent e (removeIdentityPath e.inode) done
  | .rmdir => andThen (.setDir e.inode none) (andThen (.removeEntry e.inode) done)
  | _ => done

/-! ## The workers -/

def updateMap (inode : U64) (relPath : Path) (generation : U32) (isDir : Bool)
    (timestampNs seqNum : U64) : Program :=
  if inode = 0 then done
  else
    let entry := andThen (.mapEntry inode relPath generation timestampNs seqNum) done
    if isDir then andThen (.setDir inode (some relPath)) entry else entry

def updateMapAfterRename (inode : U64) (newRelPath : Path) (generation : U32) (isDir : Bool)
    (timestampNs seqNum : U64) : Program :=
  if inode = 0 then done
  else andThen (.mapRenamedEntry inode newRelPath generation timestampNs seqNum)
    (if isDir then andThen (.setDir inode (some newRelPath)) done else done)

def removeEntry (inode : U64) : Program :=
  if inode = 0 then done
  else step .read fun s =>
    match s.inodeMap inode with
    | some _ => andThen (.recordUnlinked inode) (andThen (.setDir inode none) done)
    | none => andThen (.setDir inode none) done

/-- The path that the event's own parent and name lead to. -/
def specificRelPath (e : Event) (next : Option Path → Program) : Program :=
  if e.parentInode ≠ 0 ∧ e.name ≠ "" then step .read fun s =>
    next ((s.dirMap e.parentInode).map (Path.join · e.name))
  else next none

/-- A path that is not known replaces the others in two accesses. -/
def learnPath (e : Event) (relPath : Path) : Program :=
  step .read fun s =>
    if (s.inodeMap e.inode).any fun entry => relPath ∈ entry.paths then done
    else
      let add := andThen (.addPath e.inode relPath) done
      if e.nlink ≤ 1 then andThen (.clearPaths e.inode) add else add

def resolveParent (e : Event) : Program :=
  if e.parentInode ≠ 0 ∧ e.name ≠ "" then step .read fun s =>
    match s.dirMap e.parentInode with
    | some _ => done
    | none => step .read fun s =>
      match s.inodeMap e.parentInode with
      | none => done
      | some _ => step .read fun s =>
        match (s.inodeMap e.parentInode).bind IdentityEntry.primaryPath with
        | some path => andThen (.setDir e.parentInode (some path)) done
        | none => done
  else done

def resolveTarget (e : Event) : Program :=
  step .read fun s =>
    match s.inodeMap e.inode with
    | none => resolveParent e
    | some _ => andThen (.recordAccess e.inode e.seqNum) (specificRelPath e fun specific =>
      step .read fun s =>
        if (s.inodeMap e.inode).any fun entry =>
          entry.generation ≠ U32.max ∧ entry.generation ≠ e.generation then done
        else
          match specific with
          | some relPath => learnPath e relPath
          | none => andThen .read (andThen .read done))

/-- The entries that are looked at one by one. -/
def collect (next : List (U64 × Bool × U64) → Program) (found : List (U64 × Bool × U64)) :
    List U64 → Program
  | [] => next found
  | i :: order => step .read fun s =>
    match s.inodeMap i with
    | some entry => collect next (found ++ [(i, entry.unlinked, entry.lastAccessedSeq)]) order
    | none => collect next found order

/-- Unlinked entries go first, and then those that have not been used for longest. -/
def evictedBefore (a b : U64 × Bool × U64) : Bool :=
  if a.2.1 && !b.2.1 then true
  else if !a.2.1 && b.2.1 then false
  else decide (a.2.2 ≤ b.2.2)

def mapLen (order : List U64) (s : IdentityProjector) : ℕ :=
  order.countP fun i => (s.inodeMap i).isSome

def pruneExpiredEntries (order : List U64) (limit : ℕ) (currentGlobalSeq : U64) : Program :=
  step .read fun s =>
    if limit < mapLen order s then step .read fun s =>
      let excessCount := mapLen order s - limit * 9 / 10
      if excessCount = 0 then done
      else collect (fun candidates =>
        ((candidates.mergeSort evictedBefore).take excessCount).foldr
          (fun c => andThen (.removeEntry c.1)) done) [] order
    else order.foldr (fun i => andThen (.evict i currentGlobalSeq)) done

/-- A recycled inode: the entry gets the generation of the event, and a path only if the parent
of the event is known. -/
def changeGeneration (e : Event) : Program :=
  if e.generation = U32.max then done
  else step .read fun s =>
    match s.inodeMap e.inode with
    | none => done
    | some _ => step .read fun s =>
      if (s.inodeMap e.inode).any fun entry =>
          entry.generation ≠ U32.max ∧ entry.generation ≠ e.generation then
        andThen (.setGeneration e.inode e.generation) (andThen (.clearPaths e.inode)
          (specificRelPath e fun
            | some relPath => andThen (.addPath e.inode relPath) done
            | none => done))
      else done

end Program

/-! ## Calls that are not interrupted -/

namespace IdentityProjector
variable {s : IdentityProjector} {inode : U64} {entry : IdentityEntry}

theorem editEntry_of_some (h : s.inodeMap inode = some entry) (f : IdentityEntry → IdentityEntry) :
    s.editEntry inode f = s.setEntry inode (some (f entry)) := by
  rw [editEntry, h]

@[simp] theorem inodeMap_setEntry (v : Option IdentityEntry) :
    (s.setEntry inode v).inodeMap inode = v := Function.update_self ..

@[simp] theorem setEntry_setEntry (v v' : Option IdentityEntry) :
    (s.setEntry inode v).setEntry inode v' = s.setEntry inode v' := by
  simp [setEntry]

end IdentityProjector

namespace Program
open IdentityProjector
variable (next : Program) (s : IdentityProjector)

@[simp] theorem run_done : done.run s = s := rfl

@[simp] theorem run_step (access : Access) (next : IdentityProjector → Program) :
    (step access next).run s = (next s).run (access.apply s) := rfl

@[simp] theorem run_andThen (access : Access) :
    (andThen access next).run s = next.run (access.apply s) := rfl

theorem run_setDir (inode : U64) (path : Path) (b : Bool) :
    (if b then andThen (.setDir inode (some path)) next else next).run s =
      next.run (if b then s.setDir inode (some path) else s) := by
  cases b <;> rfl

theorem run_findInodeByRelPath (relPath : Path) (next : Option U64 → Program)
    (order : List U64) :
    (findInodeByRelPath relPath next order).run s =
      (next (s.findInodeByRelPath order relPath)).run s := by
  induction order with
  | nil => rfl
  | cons i order ih =>
    rw [findInodeByRelPath, IdentityProjector.findInodeByRelPath, List.find?_cons, run_step]
    cases hfound : (s.inodeMap i).any fun entry => relPath ∈ entry.paths with
    | true => rw [if_pos rfl, Access.apply]
    | false =>
      rw [if_neg Bool.false_ne_true, Access.apply, ih]
      rfl

theorem run_swapIdentityPath (inode : U64) (oldPath newPath : Path) :
    (swapIdentityPath inode oldPath newPath next).run s =
      next.run (s.swapIdentityPath inode oldPath newPath) := by
  simp only [swapIdentityPath, IdentityProjector.swapIdentityPath, run_step, Access.apply]
  cases hentry : s.inodeMap inode with
  | none => rfl
  | some entry =>
    simp only [run_andThen, Access.apply, editEntry_of_some hentry,
      editEntry_of_some (inodeMap_setEntry _), setEntry_setEntry]
    rfl

theorem run_removeIdentityPath (inode : U64) (path : Path) :
    (removeIdentityPath inode path next).run s =
      next.run (s.removeIdentityPath inode path) := by
  simp only [removeIdentityPath, IdentityProjector.removeIdentityPath, run_step, Access.apply]
  cases hentry : s.inodeMap inode with
  | none => rfl
  | some entry =>
    have hpaths : (entry.removePath path).paths = entry.paths.filter (· ≠ path) := rfl
    simp only [run_step, Access.apply, hentry, Option.any_some, editEntry_of_some hentry]
    by_cases hempty : entry.paths.filter (· ≠ path) = []
    · -- the second removal finds nothing, and the entry goes in any case
      have hagain : ((entry.removePath path).removePath path).paths = [] := by
        simp only [IdentityEntry.removePath, hempty, List.filter_nil]
      simp only [hpaths, hempty, hagain, decide_true, if_true, run_step, run_andThen, Access.apply,
        inodeMap_setEntry, Option.any_some, editEntry_of_some (inodeMap_setEntry _),
        setEntry_setEntry]
    · simp only [hpaths, hempty, decide_false, if_false, Bool.false_eq_true]
      rfl

theorem run_exchangeRename (order : List U64) (e : Event) (pathA pathB : Path) :
    (exchangeRename order e pathA pathB next).run s =
      next.run (s.exchangeRename order e pathA pathB) := by
  simp only [exchangeRename, IdentityProjector.exchangeRename, run_findInodeByRelPath]
  cases s.findInodeByRelPath order pathB with
  | none =>
    rw [run_andThen, run_setDir]
    rfl
  | some inodeB =>
    simp only [run_step, Access.apply, run_swapIdentityPath, run_setDir]

/-- The path that a rename has put into the list is found there. -/
theorem updateIdentity_visible (e : Event) (path : Path) :
    ∃ entry, (s.updateIdentity e path).inodeMap e.inode = some entry ∧ path ∈ entry.paths := by
  unfold IdentityProjector.updateIdentity
  cases s.inodeMap e.inode with
  | none => exact ⟨_, inodeMap_setEntry _, List.mem_singleton.mpr rfl⟩
  | some entry =>
    refine ⟨_, inodeMap_setEntry _, ?_⟩
    show path ∈ pushPath path entry.paths
    rw [pushPath_eq]
    exact List.mem_append_right _ (List.mem_singleton.mpr rfl)

theorem run_standardRename (e : Event) (pathA pathB : Path) :
    (standardRename e pathA pathB next).run s = next.run (s.standardRename e pathA pathB) := by
  simp only [standardRename, IdentityProjector.standardRename, run_removeIdentityPath, run_andThen,
    run_setDir, Access.apply]
  obtain ⟨entry, hentry, hmem⟩ :=
    updateIdentity_visible (s.removeIdentityPath e.inode pathA) e pathB
  cases e.isDirMode with
  | false => simp [run_step, Access.apply, hentry, hmem]
  | true => simp [run_step, Access.apply, IdentityProjector.setDir, hentry, hmem]

theorem run_projectRename (order : List U64) (e : Event) :
    (projectRename order e next).run s = next.run (s.projectRename order e) := by
  simp only [projectRename, IdentityProjector.projectRename, run_step, Access.apply]
  cases s.inodeMap e.inode with
  | none => rfl
  | some entry =>
    cases e.newName with
    | none => rfl
    | some newName =>
      simp only [run_step, Access.apply]
      split_ifs
      · rw [run_exchangeRename]
      · rw [run_standardRename]

theorem run_foldr_projectRename (order : List U64) (events : List Event) :
    (events.foldr (projectRename order) next).run s =
      next.run (events.foldl (fun s e => s.projectRename order e) s) := by
  induction events generalizing s with
  | nil => rfl
  | cons e events ih => rw [List.foldr_cons, run_projectRename, ih, List.foldl_cons]

theorem run_replayDeferred (order : List U64) (inode : U64) :
    (replayDeferred order inode next).run s = next.run (s.replayDeferred order inode) := by
  rw [replayDeferred, run_step, run_foldr_projectRename]
  rfl

theorem run_createIdentity {shard : U64 → ℕ} {e : Event} {s s' : IdentityProjector}
    (h : s.createIdentity shard e = some s') :
    (createIdentity shard e next).run s = next.run s' := by
  unfold IdentityProjector.createIdentity at h
  unfold createIdentity
  by_cases hzero : e.parentInode = 0
  · rw [if_pos hzero] at h ⊢
    cases h
    rfl
  · rw [if_neg hzero] at h ⊢
    simp only [run_step, Access.apply]
    cases hdir : s.dirMap e.parentInode with
    | none =>
      simp only [hdir] at h
      cases h
      rfl
    | some parentPath =>
      simp only [hdir] at h
      simp only [run_andThen, Access.apply]
      by_cases hmkdir : e.eventType = .mkdir
      · rw [if_pos hmkdir] at h ⊢
        by_cases hshard : shard e.inode = shard e.parentInode
        · rw [if_pos hshard] at h
          cases h
        · rw [if_neg hshard] at h ⊢
          cases h
          rfl
      · rw [if_neg hmkdir] at h ⊢
        cases h
        rfl

theorem run_withParent {e : Event} {f : Path → Program → Program}
    {g : Path → IdentityProjector → IdentityProjector}
    (hf : ∀ path s, (f path next).run s = next.run (g path s)) {s s' : IdentityProjector}
    (h : (if e.parentInode = 0 then some s
      else match s.dirMap e.parentInode with
        | some parentPath => some (g (Path.join parentPath e.name) s)
        | none => some s) = some s') :
    (withParent e f next).run s = next.run s' := by
  unfold withParent
  by_cases hzero : e.parentInode = 0
  · rw [if_pos hzero] at h ⊢
    cases h
    rfl
  · rw [if_neg hzero] at h ⊢
    simp only [run_step, Access.apply]
    cases hdir : s.dirMap e.parentInode with
    | none =>
      simp only [hdir] at h
      cases h
      rfl
    | some parentPath =>
      simp only [hdir] at h
      cases h
      exact hf _ _

/-- A projection that nothing interrupts leaves the maps of the projector. -/
theorem run_project {shard : U64 → ℕ} {order : List U64} {e : Event} {s s' : IdentityProjector}
    (h : s.project shard order e = some s') : (project shard order e).run s = s' := by
  have hcreate (h : (s.createIdentity shard e).map (fun s => s.replayDeferred order e.inode) =
      some s') :
      (createIdentity shard e (replayDeferred order e.inode done)).run s = s' := by
    obtain ⟨s₁, h₁, rfl⟩ := Option.map_eq_some_iff.mp h
    rw [run_createIdentity _ h₁, run_replayDeferred, run_done]
  unfold IdentityProjector.project at h
  unfold project
  cases htype : e.eventType <;> simp only [htype] at h ⊢
  case rename =>
    cases h
    rw [run_projectRename, run_done]
  case mkdir => exact hcreate h
  case create => exact hcreate h
  case mknod => exact hcreate h
  case symlink => exact hcreate h
  case link =>
    exact run_withParent done (g := fun path s => s.addIdentityPath e path) (fun _ _ => rfl) h
  case unlink =>
    exact run_withParent done (g := fun path s => s.removeIdentityPath e.inode path)
      (fun path s => run_removeIdentityPath done s e.inode path) h
  case rmdir =>
    cases h
    rfl
  all_goals
    cases h
    rfl

end Program

namespace World
variable (w : World) (pending : U64 → List Event)

/-- The maps that a worker shares with the projector. -/
def maps : IdentityProjector := ⟨w.inodeMap, w.dirMap, pending⟩

@[simp] theorem maps_insertEntry (i : U64) (entry : IdentityEntry) :
    (w.insertEntry i entry).maps pending = (w.maps pending).setEntry i (some entry) := rfl

theorem run_updateMap (inode : U64) (relPath : Path) (generation : U32) (isDir : Bool)
    (timestampNs seqNum : U64) :
    (Program.updateMap inode relPath generation isDir timestampNs seqNum).run (w.maps pending) =
      (w.updateMap inode relPath generation isDir timestampNs seqNum).maps pending := by
  have hentry (w : World) : (w.maps pending).mapEntry inode relPath generation timestampNs seqNum =
      (match w.inodeMap inode with
        | some entry => w.insertEntry inode ((entry.addPath relPath).recordAccess seqNum)
        | none => w.insertEntry inode (.new relPath generation timestampNs seqNum)).maps
          pending := by
    show (match w.inodeMap inode with | some entry => _ | none => _ : IdentityProjector) = _
    cases w.inodeMap inode with
    | none => rfl
    | some entry => rfl
  unfold Program.updateMap World.updateMap
  split_ifs
  · rfl
  · exact hentry (w.insertDir inode relPath)
  · exact hentry w

theorem run_updateMapAfterRename (inode : U64) (newRelPath : Path) (generation : U32)
    (isDir : Bool) (timestampNs seqNum : U64) :
    (Program.updateMapAfterRename inode newRelPath generation isDir timestampNs seqNum).run
        (w.maps pending) =
      (w.updateMapAfterRename inode newRelPath generation isDir timestampNs seqNum).maps
        pending := by
  have hentry :
      (w.maps pending).mapRenamedEntry inode newRelPath generation timestampNs seqNum =
        (match w.inodeMap inode with
          | some entry =>
            w.insertEntry inode (({ entry.addPath newRelPath with
              generation := generation, timestampNs := timestampNs, seqNum := seqNum }).recordAccess
                seqNum)
          | none => w.insertEntry inode (.new newRelPath generation timestampNs seqNum)).maps
            pending := by
    show (match w.inodeMap inode with | some entry => _ | none => _ : IdentityProjector) = _
    cases w.inodeMap inode with
    | none => rfl
    | some entry => rfl
  unfold Program.updateMapAfterRename World.updateMapAfterRename
  split_ifs
  · rfl
  · simp only [Program.run_andThen, Program.run_done, Access.apply, hentry]
    rfl
  · exact hentry

theorem run_removeEntry (inode : U64) :
    (Program.removeEntry inode).run (w.maps pending) = (w.removeEntry inode).maps pending := by
  unfold Program.removeEntry World.removeEntry
  split_ifs
  · rfl
  · show (match w.inodeMap inode with | some _ => _ | none => _ : Program).run _ = _
    cases hentry : w.inodeMap inode with
    | none => rfl
    | some entry =>
      have hmaps : (w.maps pending).inodeMap inode = some entry := hentry
      simp only [Program.run_andThen, Program.run_done, Access.apply,
        IdentityProjector.editEntry_of_some hmaps]
      rfl

theorem run_specificRelPath (e : Event) (next : Option Path → Program) :
    (Program.specificRelPath e next).run (w.maps pending) =
      (next (specificRelPath e w)).run (w.maps pending) := by
  unfold Program.specificRelPath specificRelPath
  split_ifs <;> rfl

/-- The entry of a recycled inode. -/
def renewedEntry (e : Event) (entry : IdentityEntry) : IdentityEntry :=
  let cleared := { entry.clearPaths with generation := e.generation }
  match specificRelPath e w with
  | some relPath => cleared.addPath relPath
  | none => cleared

theorem refreshGeneration_stale {e : Event} {entry : IdentityEntry}
    (hentry : w.inodeMap e.inode = some entry)
    (hgen : e.generation ≠ U32.max ∧ entry.generation ≠ U32.max ∧
      entry.generation ≠ e.generation) :
    refreshGeneration e w = ((), w.insertEntry e.inode (w.renewedEntry e entry)) := by
  rw [refreshGeneration, StateM.run_bind, StateM.run_peek]
  simp only [hentry]
  rw [if_pos hgen]
  rfl

theorem run_changeGeneration (e : Event) :
    (Program.changeGeneration e).run (w.maps pending) =
      (refreshGeneration e w).2.maps pending := by
  by_cases hcurrent : Current e w
  · rw [refreshGeneration_current hcurrent]
    unfold Program.changeGeneration
    split_ifs with hmax
    · rfl
    · simp only [Program.run_step, Access.apply]
      cases hentry : (w.maps pending).inodeMap e.inode with
      | none => rfl
      | some entry =>
        have hsame : ¬ (entry.generation ≠ U32.max ∧ entry.generation ≠ e.generation) :=
          fun h => hcurrent entry hentry ⟨hmax, h⟩
        simp [Access.apply, hentry, hsame]
  · obtain ⟨entry, hentry, hgen⟩ : ∃ entry, w.inodeMap e.inode = some entry ∧
        (e.generation ≠ U32.max ∧ entry.generation ≠ U32.max ∧
          entry.generation ≠ e.generation) := by
      by_contra hnone
      exact hcurrent fun entry hentry hgen => hnone ⟨entry, hentry, hgen⟩
    rw [refreshGeneration_stale w hentry hgen]
    have hmaps : (w.maps pending).inodeMap e.inode = some entry := hentry
    unfold Program.changeGeneration
    rw [if_neg hgen.1]
    simp only [Program.run_step, Access.apply, hmaps, Option.any_some]
    rw [if_pos (decide_eq_true hgen.2)]
    simp only [Program.run_andThen, Access.apply, IdentityProjector.editEntry_of_some hmaps,
      IdentityProjector.editEntry_of_some (IdentityProjector.inodeMap_setEntry _),
      IdentityProjector.setEntry_setEntry]
    rw [← maps_insertEntry, run_specificRelPath, renewedEntry]
    show (match specificRelPath e w with | some relPath => _ | none => _ : Program).run _ = _
    cases specificRelPath e w with
    | none => rfl
    | some relPath =>
      simp only [Program.run_andThen, Program.run_done, Access.apply, maps_insertEntry,
        IdentityProjector.editEntry_of_some (IdentityProjector.inodeMap_setEntry _),
        IdentityProjector.setEntry_setEntry]
      rfl

theorem run_learnPath {e : Event} {entry : IdentityEntry} (relPath : Path)
    (hentry : w.inodeMap e.inode = some entry) :
    (Program.learnPath e relPath).run (w.maps pending) =
      (w.insertEntry e.inode (entry.learnPath relPath e.nlink)).maps pending := by
  have hmaps : (w.maps pending).inodeMap e.inode = some entry := hentry
  have hsame : (w.maps pending).setEntry e.inode (some entry) = w.maps pending := by
    rw [IdentityProjector.setEntry, ← hmaps, Function.update_eq_self]
  unfold Program.learnPath IdentityEntry.learnPath
  simp only [Program.run_step, Access.apply, hmaps, Option.any_some, decide_eq_true_eq]
  by_cases hknown : relPath ∈ entry.paths
  · rw [if_pos hknown, if_pos hknown, maps_insertEntry, hsame, Program.run_done]
  · rw [if_neg hknown, if_neg hknown]
    split_ifs
    · simp only [Program.run_andThen, Program.run_done, Access.apply, maps_insertEntry,
        IdentityProjector.editEntry_of_some hmaps,
        IdentityProjector.editEntry_of_some (IdentityProjector.inodeMap_setEntry _),
        IdentityProjector.setEntry_setEntry]
    · simp only [Program.run_andThen, Program.run_done, Access.apply, maps_insertEntry,
        IdentityProjector.editEntry_of_some hmaps]

theorem run_resolveParent (e : Event) :
    (Program.resolveParent e).run (w.maps pending) = (resolveUnknown e w).2.maps pending := by
  have hown : (resolveUnknown e w).2 = (resolveOwnParent e w).2 := by
    cases hbase : (resolveOwnParent e w).1 with
    | none => rw [resolveUnknown_none (Prod.ext hbase rfl : resolveOwnParent e w = (none, _))]
    | some base =>
      rw [resolveUnknown_run (Prod.ext hbase rfl : resolveOwnParent e w = (some base, _))]
  rw [hown, resolveOwnParent_run]
  unfold Program.resolveParent
  split_ifs
  · simp only [Program.run_step, Access.apply]
    cases hdir : w.dirMap e.parentInode with
    | some q =>
      have hmaps : (w.maps pending).dirMap e.parentInode = some q := hdir
      rw [resolveParent_of_dir hdir, hmaps]
      rfl
    | none =>
      have hmaps : (w.maps pending).dirMap e.parentInode = none := hdir
      rw [resolveParent_of_inode hdir, hmaps]
      cases hparent : w.inodeMap e.parentInode with
      | none => simp [Access.apply, maps, hparent]
      | some entry =>
        cases hprimary : entry.primaryPath with
        | none => simp [Access.apply, maps, hparent, hprimary]
        | some path => simp [Access.apply, maps, hparent, hprimary, World.insertDir,
            IdentityProjector.setDir]
  · rfl

theorem run_resolveTarget (e : Event) :
    (Program.resolveTarget e).run (w.maps pending) = (resolveTarget e w).2.maps pending := by
  unfold Program.resolveTarget
  simp only [Program.run_step, Access.apply]
  cases hentry : w.inodeMap e.inode with
  | none =>
    have hmaps : (w.maps pending).inodeMap e.inode = none := hentry
    rw [resolveTarget_unknown hentry, hmaps]
    exact run_resolveParent w pending e
  | some entry =>
    have hmaps : (w.maps pending).inodeMap e.inode = some entry := hentry
    -- the access is recorded in any case
    have hrecorded : ((w.maps pending).editEntry e.inode (·.recordAccess e.seqNum)) =
        (w.insertEntry e.inode (entry.recordAccess e.seqNum)).maps pending := by
      rw [IdentityProjector.editEntry_of_some hmaps, maps_insertEntry]
    have hentry' : (w.insertEntry e.inode (entry.recordAccess e.seqNum)).inodeMap e.inode =
        some (entry.recordAccess e.seqNum) := Function.update_self ..
    have hmaps' : ((w.insertEntry e.inode (entry.recordAccess e.seqNum)).maps pending).inodeMap
        e.inode = some (entry.recordAccess e.seqNum) := hentry'
    rw [resolveTarget_known hentry, hmaps]
    simp only [Program.run_andThen, Access.apply, hrecorded, run_specificRelPath,
      Program.run_step, hmaps', Option.any_some, decide_eq_true_eq]
    by_cases hgen : entry.generation ≠ U32.max ∧ entry.generation ≠ e.generation
    · rw [if_pos (show (entry.recordAccess e.seqNum).generation ≠ U32.max ∧
        (entry.recordAccess e.seqNum).generation ≠ e.generation from hgen), resolveKnown_stale hgen]
      rfl
    · rw [if_neg (show ¬ ((entry.recordAccess e.seqNum).generation ≠ U32.max ∧
        (entry.recordAccess e.seqNum).generation ≠ e.generation) from hgen),
        resolveKnown_run (by tauto)]
      show (match specificRelPath e w with | some relPath => _ | none => _ : Program).run _ = _
      cases specificRelPath e w with
      | none => rfl
      | some relPath => exact run_learnPath _ pending relPath hentry'

end World

/-! ## Interleaved calls -/

/-- A call with what it is given. The orders in which a map is iterated are not specified. -/
inductive Operation
  | project (order : List U64) (e : Event)
  | updateMap (inode : U64) (relPath : Path) (generation : U32) (isDir : Bool)
      (timestampNs seqNum : U64)
  | updateMapAfterRename (inode : U64) (newRelPath : Path) (generation : U32) (isDir : Bool)
      (timestampNs seqNum : U64)
  | removeEntry (inode : U64)
  | resolveTarget (e : Event)
  | pruneExpiredEntries (order : List U64) (limit : ℕ) (currentGlobalSeq : U64)
  | changeGeneration (e : Event)

def Operation.program (shard : U64 → ℕ) : Operation → Program
  | project order e => .project shard order e
  | updateMap inode relPath generation isDir timestampNs seqNum =>
    .updateMap inode relPath generation isDir timestampNs seqNum
  | updateMapAfterRename inode newRelPath generation isDir timestampNs seqNum =>
    .updateMapAfterRename inode newRelPath generation isDir timestampNs seqNum
  | removeEntry inode => .removeEntry inode
  | resolveTarget e => .resolveTarget e
  | pruneExpiredEntries order limit currentGlobalSeq =>
    .pruneExpiredEntries order limit currentGlobalSeq
  | changeGeneration e => .changeGeneration e

/-- The maps and what is left of the calls. -/
structure IdentityRun where
  maps : IdentityProjector
  calls : List Program

namespace IdentityRun

inductive Action
  | call (op : Operation)
  | advance (i : ℕ)

def step (shard : U64 → ℕ) (s : IdentityRun) : Action → IdentityRun
  | .call op => { s with calls := s.calls ++ [op.program shard] }
  | .advance i =>
    match s.calls[i]? with
    | some (.step access next) => ⟨access.apply s.maps, s.calls.set i (next s.maps)⟩
    | _ => s

/-- The access that a call does next keeps a path in every list. -/
def Allowed (s : IdentityRun) : Action → Prop
  | .call _ => True
  | .advance i =>
    match s.calls[i]? with
    | some (.step access _) => access.Keeps s.maps
    | _ => True

/-- An access whose result leaves the maps well-pathed is the next one of its call. -/
theorem wellPathed_step (shard : U64 → ℕ) {s : IdentityRun} (h : s.maps.WellPathed)
    (a : Action) : (s.step shard a).maps.WellPathed ↔ s.Allowed a := by
  cases a with
  | call op => exact iff_true_intro h
  | advance i =>
    simp only [step, Allowed]
    rcases s.calls[i]? with _ | ⟨_ | ⟨access, next⟩⟩
    · exact iff_true_intro h
    · exact iff_true_intro h
    · exact access.wellPathed_apply h

/-- Every entry has a path at any time exactly in the runs in which no call clears the list of
an entry or removes the only path of one. A call that nothing interrupts does what it does as a
whole (`run_updateMap`, `run_updateMapAfterRename`, `run_removeEntry`). -/
theorem wellPathed_iff (shard : U64 → ℕ) (s : IdentityRun) (h : s.maps.WellPathed)
    (as : List Action) :
    (∀ p, p <+: as → (Run.exec (step shard) s p).maps.WellPathed) ↔
      Run.Along (step shard) Allowed s as :=
  Run.forall_prefix_iff_along (step shard) (A := fun _ => True) (P := fun _ => True)
    (I := fun s => s.maps.WellPathed)
    (fun _ _ _ _ _ => trivial) (fun _ a _ _ hs => wellPathed_step shard hs a) as
    (fun _ _ => trivial) trivial h

/-- The maps before the first event. -/
def empty : IdentityRun := ⟨⟨fun _ => none, fun _ => none, fun _ => []⟩, []⟩

/-- A file is created in a known directory. -/
theorem run_project_created : ∃ s : IdentityProjector,
    (Program.project (fun _ => 0) []
      { Event.zero with eventType := .create, inode := 7, parentInode := 1, name := "a" }).run
        ⟨fun _ => none, fun i => if i = 1 then some [] else none, fun _ => []⟩ = s ∧
      (s.inodeMap 7).isSome = true :=
  ⟨_, Program.run_project rfl, rfl⟩

def created : List Action := [.call (.updateMap 5 ["a"] 1 false 0 0), .advance 0]

theorem wellPathed_created : (∀ p, p <+: created →
      (Run.exec (step fun _ => 0) empty p).maps.WellPathed) ↔
    Run.Along (step fun _ => 0) Allowed empty created :=
  wellPathed_iff _ empty (by rintro i entry ⟨⟩) created

/-- The inode is used again, and the event has no parent. -/
def recycled : List Action :=
  created ++ .call (.changeGeneration { Event.zero with inode := 5, generation := 2 }) ::
    List.replicate 4 (.advance 1)

/-- When both calls have returned, the inode has an entry without a path. -/
theorem recycled_pathless :
    (Run.exec (step fun _ => 0) empty recycled).calls = [.done, .done] ∧
      (Run.exec (step fun _ => 0) empty recycled).maps.inodeMap 5 =
        some ⟨[], 2, 0, 0, 0, false⟩ ∧
      ¬ (Run.exec (step fun _ => 0) empty recycled).maps.WellPathed := by
  have hentry : (Run.exec (step fun _ => 0) empty recycled).maps.inodeMap 5 =
      some ⟨[], 2, 0, 0, 0, false⟩ := by rfl
  exact ⟨rfl, hentry, fun h => (h _ _ hentry).nonempty rfl⟩

end IdentityRun
end Foxing
