import Foxing.Identity

/-!
# Processing a single event

What the worker does with an event on its target: the path is resolved, the
event is dropped when the path is excluded, sent to the hydrator while its file
is being hydrated, and otherwise carried out by the arm for its type. An attempt
can be made to fail at the call that the arm reports; a copy then has got as far
as a number of bytes. Versioning snapshots, extended attributes and metrics are
left out, as are the write-ahead barriers, which do not delay a single worker.
-/
namespace Foxing

/-- Regular expressions are seen through what they match. -/
structure TargetConfig where
  excludeRegexes : List (String → Bool)
  includeRegexes : List (String → Bool)

def TargetConfig.isPathExcluded (cfg : TargetConfig) (relPath : Path) : Bool :=
  let pathStr := "/".intercalate relPath
  if cfg.excludeRegexes.any (fun re => re pathStr) then true
  else if cfg.includeRegexes.isEmpty then false
  else !cfg.includeRegexes.any (fun re => re pathStr)

/-- What an attempt finds outside of the worker: the source tree, the settings of
the target, the inodes that are still to be hydrated, the renames registered for
an inode, the paths that the proactive index and the file system know for an
inode, what an allocation does to a file, and the owner and mode that the daemon
gives to what it makes. -/
structure Env where
  source : Fs
  config : TargetConfig
  hydrating : U64 → Bool
  pendingRenames : U64 → ℕ
  indexPath : U64 → Option Path
  btrfsPath : U64 → Option Path
  allocate : Event → File → File
  freshDir : Meta
  freshFile : Meta

/-- Nothing is excluded, hydrated or registered, and the daemon runs as root. -/
def Env.plain (source : Fs) : Env where
  source := source
  config := ⟨[], []⟩
  hydrating _ := false
  pendingRenames _ := 0
  indexPath _ := none
  btrfsPath _ := none
  allocate _ f := f
  freshDir := ⟨493, 0, 0⟩
  freshFile := ⟨420, 0, 0⟩

/-- Repair jobs name their file below the mount point or below the configured path. -/
inductive SourceRoot where
  | mount | path
  deriving DecidableEq, Repr

structure RepairJob where
  root : SourceRoot
  relPath : Path
  inode : U64
  deriving DecidableEq, Repr

/-- How an attempt ends: the reported result, the repairs asked for, and whether
the rename was taken off the storm registry. -/
structure Outcome where
  result : CallResult
  repairs : List RepairJob
  clearsRename : Bool

namespace Outcome

def ofResult (r : CallResult) : Outcome := ⟨r, [], false⟩

def done : Outcome := ofResult (.ok ())

def failed (f : Failure) : Outcome := ofResult (.error f)

def repair (job : RepairJob) : Outcome := ⟨.ok (), [job], false⟩

end Outcome

/-- A call on the target tree. -/
def onTarget (call : Fs → CallResult × Fs) : StateM World CallResult := fun w =>
  ((call w.target).1, { w with target := (call w.target).2 })

/-- A call that the attempt may be made to fail at, without an effect. -/
def reported (fault : Option ℕ) (call : Fs → CallResult × Fs) : StateM World CallResult :=
  match fault with
  | none => onTarget call
  | some _ => pure (.error .other)

/-- The directory of a path is made if need be; a failure is ignored. -/
def createParent (env : Env) (p : Path) : StateM World Unit :=
  match Path.parent? p with
  | none => pure ()
  | some a => do
    let _ ← onTarget (Fs.createDirAll env.freshDir a)

/-- The stored generation follows the event when the inode has been recycled. -/
def refreshGeneration (e : Event) : StateM World Unit := do
  match ← peek (·.inodeMap e.inode) with
  | none => pure ()
  | some entry =>
    if e.generation ≠ U32.max ∧ entry.generation ≠ U32.max ∧ entry.generation ≠ e.generation then
      let specific ← peek (specificRelPath e)
      let cleared := { entry.clearPaths with generation := e.generation }
      modify (·.insertEntry e.inode
        (match specific with | some relPath => cleared.addPath relPath | none => cleared))
    else pure ()

namespace Arm
variable (env : Env) (fault : Option ℕ) (e : Event) (p : Path)

/-- Data is copied from the file at the same path of the source, its holes as zeros,
the small ones too. What cannot be read fails once the target has been opened. -/
def copyRange : StateM World Outcome := do
  if env.source.pathExists p then
    let src := env.source.regularAt p
    let length := match fault with
      | none => e.length.val
      | some n => min n e.length.val
    match ← onTarget (Fs.copyRange (src.getD .empty) e.offset.val length p) with
    | .ok () => if fault = none ∧ src.isSome then return .done else return .failed .other
    | .error f => return .failed f
  else return .done

/-- What the worker remembers of the path that an event has led to. -/
def remember (isDir : Bool) : StateM World Unit :=
  modify (·.updateMap e.inode p e.generation isDir e.timestampNs e.seqNum)

/-- The content of a regular file of the source replaces that of the target. -/
def copyFile : Fs → CallResult × Fs := fun t =>
  match env.source.regularAt p, env.source.metadataAt p with
  | some src, some m =>
    t.overwrite (.made e.seqNum p) env.freshFile (Meta.setPermissions m.mode) src p
  | _, _ => (.error .other, t)

/-- Owner and permissions are taken from the source; what is missing there changes nothing. -/
def applyMetadata : Fs → CallResult × Fs := fun t =>
  match env.source.metadataAt p with
  | some m => t.alterMeta (Meta.setPermissions m.mode ∘ Meta.setOwnership m.uid m.gid) p
  | none => (.error .notFound, t)

/-! ### Renames -/

/-- The destination of a rename. -/
def renameDest : StateM World (Option Path) :=
  match e.newName with
  | some newName => resolveEventPath e.newParentInode newName
  | none => pure (some p)

def rememberNew : StateM World Unit :=
  if e.newName.isSome then remember e p false else pure ()

/-- The entry is not on the target: the file is copied to its destination `p` if
the source has it there. -/
def renameAbsent : StateM World Outcome := do
  if env.source.pathExists p then
    createParent env p
    let _ ← onTarget (copyFile env e p)
    rememberNew e p
    return .done
  else
    rememberNew e p
    return .done

/-- A destination that is reported to exist is removed, and the rename repeated. -/
def renameCall (old dest : Path) : StateM World CallResult := do
  createParent env dest
  let call := if e.flags.val / 2 % 2 = 1 then Fs.exchange old dest else Fs.rename old dest
  match ← reported fault call with
  | .error .alreadyExists =>
    let _ ← onTarget (Fs.removeFile dest)
    onTarget (Fs.rename old dest)
  | r => return r

/-- What the hydrator may have put at the old path is removed again. -/
def removeGhost (old : Path) (r : CallResult) : StateM World Unit :=
  if r = .ok () ∧ env.source.pathExists old = false then do
    let _ ← onTarget (Fs.removeFile old)
  else pure ()

/-- The identity follows every rename, a failed one too. -/
def rememberRename (dest : Path) : StateM World Unit :=
  if e.newName.isSome then
    modify (·.updateMapAfterRename e.inode dest e.generation (e.mode.val / 16384 % 2 = 1)
      e.timestampNs e.seqNum)
  else pure ()

def renamePresent (old dest : Path) : StateM World Outcome := do
  let r ← renameCall env fault e old dest
  removeGhost env old r
  rememberRename e dest
  return ⟨r, [], true⟩

def rename : StateM World (Option Outcome) := do
  match ← resolveEventPath e.parentInode e.name with
  | none => return none
  | some old =>
    match ← renameDest e p with
    | none => return none
    | some dest =>
      createParent env dest
      if ← peek (·.target.pathExists old) then
        return some (← renamePresent env fault e old dest)
      else
        return some (← renameAbsent env e dest)

/-- The path of an inode that the proactive index, the inode map or the file
system knows. -/
def resolveLivePath (entry : Option IdentityEntry) : Option (Option Path) :=
  match env.indexPath e.inode, entry with
  | some path, _ => some (some path)
  | none, some known =>
    if known.generation = U32.max ∨ known.generation = e.generation then
      known.primaryPath.map some
    else some (env.btrfsPath e.inode)
  | none, none => some (env.btrfsPath e.inode)

/-- A rename without its second half. The recovered path is relative, so that it
never starts with the mount point and the event is always reported as failed. -/
def renameIncomplete : StateM World (Option Outcome) := do
  let entry ← peek (·.inodeMap e.inode)
  if entry.map (·.paths) = some [] then return none
  match resolveLivePath env e entry with
  | none => return none
  | some livePath =>
    (match livePath with
      | some path =>
        modify (·.updateMap e.inode path e.generation (env.source.isDir path) 0 0)
      | none => pure () : StateM World Unit)
    return some ⟨.error .other, [], true⟩

/-! ### Names -/

def remove : StateM World Outcome := do
  match ← reported fault (if e.eventType = .rmdir then Fs.removeDir p else Fs.removeFile p) with
  | .ok () =>
    modify (·.removeEntry e.inode)
    return .done
  | .error f => return .failed f

/-- The entry is made, its owner set, and the other metadata taken from the source. -/
def makeEntry (made : CallResult) (result : CallResult) : StateM World Outcome := do
  match made with
  | .error f => return .failed f
  | .ok () =>
    match ← onTarget (Fs.setOwnership e.uid e.gid p) with
    | .error _ => return .failed .other
    | .ok () =>
      let _ ← onTarget (applyMetadata env p)
      remember e p (e.eventType = .mkdir)
      return .ofResult result

/-- An attempt to make a directory can only fail when its owner is set. -/
def mkdir : StateM World Outcome := do
  createParent env p
  let _ ← onTarget (Fs.createDirAll env.freshDir p)
  match fault with
  | none => makeEntry env e p (.ok ()) (.ok ())
  | some _ => return .failed .other

def mknod : StateM World Outcome := do
  createParent env p
  let made ← reported fault (Fs.mknod (.made e.seqNum p) env.freshFile e.mode e.devId p)
  makeEntry env e p made (.ok ())

/-- A file whose copy has failed is made empty, with its owner; the failure of the
copy is still reported. -/
def createEmpty (f : Failure) : StateM World Outcome := do
  createParent env p
  let _ ← onTarget (Fs.overwrite (.made e.seqNum p) env.freshFile id .empty p)
  makeEntry env e p (.ok ()) (.error f)

/-- A failed copy has got as far as `n` bytes. -/
def copyFailing (n : ℕ) : Fs → CallResult × Fs := fun t =>
  match env.source.regularAt p with
  | some src =>
    let t' := t.overwrite (.made e.seqNum p) env.freshFile id
      (File.empty.copyRange src.bytes 0 (min n src.length)) p
    (.error .other, t'.2)
  | none => (.error .other, t)

def create : StateM World Outcome := do
  if env.pendingRenames e.inode > 0 then
    remember e p false
    return .done
  else if env.source.pathExists p then
    createParent env p
    match ← onTarget (match fault with
      | none => copyFile env e p
      | some n => copyFailing env e p n) with
    | .ok () =>
      remember e p false
      return .done
    | .error f => createEmpty env e p f
  else
    remember e p false
    return .done

/-- The link count check that follows a successful link only asks for repairs. The entry
is still locked when the path is remembered; that the worker waits for itself there is
left out. -/
def link : StateM World (Option Outcome) := do
  match ← peek (·.inodeMap e.inode) with
  | none => return some (.repair ⟨.path, p, e.inode⟩)
  | some entry =>
    match entry.primaryPath with
    | none => return none
    | some existing =>
      match ← reported fault (Fs.hardLink existing p) with
      | .ok () =>
        remember e p false
        return some .done
      | .error f => return some (.failed f)

def symlink : StateM World Outcome := do
  match env.source.node p with
  | some (.symlink dest _) =>
    createParent env p
    let _ ← onTarget (Fs.removeFile p)
    match ← reported fault (Fs.symlink dest (env.freshFile.setOwnership e.uid e.gid) p) with
    | .ok () =>
      remember e p false
      return .done
    | .error f => return .failed f
  | some _ => return .failed .other
  | none => return .failed (env.source.missing p)

/-! ### Contents and attributes -/

def truncate : StateM World Outcome :=
  return .ofResult (← reported fault (Fs.truncate e.length p))

def fallocate : StateM World Outcome :=
  return .ofResult (← reported fault (Fs.alterContent (env.allocate e) p))

def chmod : StateM World Outcome :=
  return .ofResult (← reported fault (Fs.setPermissions e.mode p))

/-- Failures lose their kind. -/
def anyFailure (r : CallResult) : CallResult :=
  match r with
  | .ok () => .ok ()
  | .error _ => .error .other

def chown : StateM World Outcome :=
  return .ofResult (anyFailure (← reported fault (Fs.setOwnership e.uid e.gid p)))

def utimes : StateM World Outcome :=
  return .ofResult (anyFailure (← reported fault (applyMetadata env p)))

/-- Flags and locks need the file to be there, and change nothing that is modelled. -/
def openFile : StateM World Outcome :=
  return .ofResult (← reported fault (fun t =>
    (if t.pathExists p then .ok () else .error (t.missing p), t)))

end Arm

/-- The arm for the type of the event, with the resolved target path. -/
def perform (env : Env) (fault : Option ℕ) (e : Event) (p : Path) :
    StateM World (Option Outcome) :=
  match e.eventType with
  | .clone | .write | .writeRange => some <$> Arm.copyRange env fault e p
  | .rename => Arm.rename env fault e p
  | .renameIncomplete => Arm.renameIncomplete env e
  | .truncate => some <$> Arm.truncate fault e p
  | .unlink | .rmdir => some <$> Arm.remove fault e p
  | .mkdir => some <$> Arm.mkdir env fault e p
  | .create => some <$> Arm.create env fault e p
  | .mknod => some <$> Arm.mknod env fault e p
  | .link => Arm.link fault e p
  | .setFlags | .lock | .flock => some <$> Arm.openFile fault p
  | .fallocate => some <$> Arm.fallocate env fault e p
  | .symlink => some <$> Arm.symlink env fault e p
  | .chmod => some <$> Arm.chmod fault e p
  | .chown => some <$> Arm.chown fault e p
  | .utimes => some <$> Arm.utimes env fault p
  | _ => pure (some .done)

/-- The events that a file under hydration has to wait for. -/
def EventType.isGated : EventType → Bool
  | .write | .writeRange | .clone | .truncate | .fallocate => true
  | _ => false

/-- What is done with a resolved path. -/
def processAt (env : Env) (fault : Option ℕ) (e : Event) (p : Path) :
    StateM World (Option Outcome) := do
  if env.config.isPathExcluded p then return some .done
  if env.hydrating e.inode && e.eventType.isGated then
    if ← peek (·.target.pathExists p) then perform env fault e p
    else
      match ← resolveEventPath e.parentInode e.name with
      | none => return none
      | some relPath => return some (.repair ⟨.mount, relPath, e.inode⟩)
  else perform env fault e p

/-- The path of an event, once its generation has been looked at. -/
def resolution (e : Event) : StateM World (Option ResolveResult) := do
  refreshGeneration e
  resolveTarget e

/-- A single attempt at an event. A path that needs repair is acted on like any
other. Without an outcome the worker has panicked. -/
def processSingleEvent (env : Env) (fault : Option ℕ) (e : Event) :
    StateM World (Option Outcome) := do
  match ← resolution e with
  | none => return none
  | some .securityBlock => return some (.failed .other)
  | some (.success p _ _) => processAt env fault e p
  | some (.needsRepair p) => processAt env fault e p

end Foxing
