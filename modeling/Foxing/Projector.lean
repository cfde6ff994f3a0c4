import Foxing.Identity

/-!
# The identity projector

Events are projected onto the two identity maps as they come out of the reorder
buffer. A rename of an inode that is not known is put off until the inode is
created. The maps are sharded: an insertion waits for as long as a reference into
the same shard is held, so that it never returns if the caller holds one. The
order in which a map is iterated is not specified and is given with the event.
The check that a renamed path is visible at once never fails and is left out.
-/
namespace Foxing

/-- The flag of a rename that exchanges its two names. -/
def Event.isRenameExchange (e : Event) : Bool := e.flags.val / 2 % 2 = 1

/-- The type bits of the mode are those of a directory. -/
def Event.isDirMode (e : Event) : Bool := e.mode.val / 4096 % 16 = 4

def IdentityEntry.recordUse (entry : IdentityEntry) : IdentityEntry :=
  { entry with unlinked := false }

structure IdentityProjector where
  inodeMap : U64 → Option IdentityEntry
  dirMap : U64 → Option Path
  pendingRenames : U64 → List Event

namespace IdentityProjector
variable (s : IdentityProjector)

def findInodeByRelPath (order : List U64) (relPath : Path) : Option U64 :=
  order.find? fun i => (s.inodeMap i).any fun entry => relPath ∈ entry.paths

def setEntry (inode : U64) (entry : Option IdentityEntry) : IdentityProjector :=
  { s with inodeMap := Function.update s.inodeMap inode entry }

def setDir (inode : U64) (path : Option Path) : IdentityProjector :=
  { s with dirMap := Function.update s.dirMap inode path }

/-- The path is put at the end of the list. -/
def pushPath (path : Path) (paths : List Path) : List Path :=
  let paths := paths.filter (· ≠ path)
  if paths.getLast? ≠ some path then paths ++ [path] else paths

def updateIdentity (e : Event) (path : Path) : IdentityProjector :=
  match s.inodeMap e.inode with
  | some entry => s.setEntry e.inode (some ({ entry with
      paths := pushPath path entry.paths
      generation := e.generation
      timestampNs := e.timestampNs
      seqNum := e.seqNum }.recordUse))
  | none => s.setEntry e.inode (some (.new path e.generation e.timestampNs e.seqNum))

def swapIdentityPath (inode : U64) (oldPath newPath : Path) : IdentityProjector :=
  match s.inodeMap inode with
  | some entry => s.setEntry inode (some ({ entry with
      paths := entry.paths.filter (fun p => p ≠ oldPath ∧ p ≠ newPath) ++ [newPath] }.recordUse))
  | none => s

def addIdentityPath (e : Event) (path : Path) : IdentityProjector :=
  match s.inodeMap e.inode with
  | some entry => s.setEntry e.inode (some { entry with paths := pushPath path entry.paths })
  | none => s.setEntry e.inode (some (.new path e.generation e.timestampNs e.seqNum))

def removeIdentityPath (inode : U64) (path : Path) : IdentityProjector :=
  match s.inodeMap inode with
  | some entry =>
    let paths := entry.paths.filter (· ≠ path)
    if paths = [] then s.setEntry inode none
    else s.setEntry inode (some { entry with paths := paths })
  | none => s

/-- A name in a directory, or by itself if the directory is not known. -/
def relPath (parent : U64) (name : String) : Path :=
  match s.dirMap parent with
  | some path => Path.join path name
  | none => components name

def newRelPath (e : Event) (newName : String) : Path :=
  if e.newParentInode ≠ 0 then s.relPath e.newParentInode newName else components newName

def exchangeRename (order : List U64) (e : Event) (pathA pathB : Path) : IdentityProjector :=
  match s.findInodeByRelPath order pathB with
  | some inodeB =>
    let isDirB := (s.dirMap inodeB).isSome
    let s := s.swapIdentityPath inodeB pathB pathA
    let s := s.swapIdentityPath e.inode pathA pathB
    let s := if e.isDirMode then s.setDir e.inode (some pathB) else s
    if isDirB then s.setDir inodeB (some pathA) else s
  | none =>
    let s := s.updateIdentity e pathB
    if e.isDirMode then s.setDir e.inode (some pathB) else s

def standardRename (e : Event) (pathA pathB : Path) : IdentityProjector :=
  let s := s.removeIdentityPath e.inode pathA
  let s := s.updateIdentity e pathB
  if e.isDirMode then s.setDir e.inode (some pathB) else s

def projectRename (order : List U64) (e : Event) : IdentityProjector :=
  match s.inodeMap e.inode with
  | none => { s with pendingRenames :=
      Function.update s.pendingRenames e.inode (s.pendingRenames e.inode ++ [e]) }
  | some _ =>
    match e.newName with
    | none => s
    | some newName =>
      let pathA := s.relPath e.parentInode e.name
      let pathB := s.newRelPath e newName
      if e.isRenameExchange then s.exchangeRename order e pathA pathB
      else s.standardRename e pathA pathB

/-- The maps after a creation; nothing is returned if the new directory belongs to the
shard of its parent, to which a reference is held. -/
def createIdentity (shard : U64 → ℕ) (e : Event) : Option IdentityProjector :=
  if e.parentInode = 0 then some s
  else
    match s.dirMap e.parentInode with
    | none => some s
    | some parentPath =>
      let fullPath := Path.join parentPath e.name
      let s := s.updateIdentity e fullPath
      if e.eventType = .mkdir then
        if shard e.inode = shard e.parentInode then none else some (s.setDir e.inode (some fullPath))
      else some s

/-- The renames that were put off for an inode are projected in their order. -/
def replayDeferred (order : List U64) (inode : U64) : IdentityProjector :=
  (s.pendingRenames inode).foldl (fun s e => s.projectRename order e)
    { s with pendingRenames := Function.update s.pendingRenames inode [] }

/-- Nothing is returned if the call waits for itself. -/
def project (shard : U64 → ℕ) (order : List U64) (e : Event) : Option IdentityProjector :=
  match e.eventType with
  | .rename => some (s.projectRename order e)
  | .mkdir | .create | .mknod | .symlink =>
    (s.createIdentity shard e).map fun s => s.replayDeferred order e.inode
  | .link =>
    if e.parentInode = 0 then some s
    else
      match s.dirMap e.parentInode with
      | some parentPath => some (s.addIdentityPath e (Path.join parentPath e.name))
      | none => some s
  | .unlink =>
    if e.parentInode = 0 then some s
    else
      match s.dirMap e.parentInode with
      | some parentPath => some (s.removeIdentityPath e.inode (Path.join parentPath e.name))
      | none => some s
  | .rmdir => some ((s.setDir e.inode none).setEntry e.inode none)
  | _ => some s

end IdentityProjector

end Foxing
