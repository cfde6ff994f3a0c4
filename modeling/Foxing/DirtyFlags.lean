import Foxing.Event
import Foxing.FileSystem
import Foxing.Lib.Run

/-!
# Dirty flags

A worker marks a target file as dirty before it changes its data, and clears the
mark after a success. Both are messages to the sidecar thread of the worker,
which nobody waits for; a set of inodes keeps the worker from sending the first
one twice. Hydration jobs clear the mark on their own. The mark is what a scan
after a crash goes by.

The state is that of one target with any number of workers. A history of the
data operations that have started and not completed, or have failed and not been
repaired, stands beside it. Every attempt to change a mark on disk may fail: a
path that is missing or a symbolic link is passed over, other errors are logged.
-/
namespace Foxing.Dirty

inductive SidecarOp where
  | setDirty (path : Path)
  | clearDirty (path : Path)
  deriving DecidableEq, Repr

/-- A data operation on a target file that has not completed. -/
structure DataOp where
  event : Event
  path : Path
  failed : Bool
  deriving DecidableEq, Repr

/-- The event that a worker has in hand, and its target path. -/
structure InHand where
  event : Event
  path : Path
  /-- Has its operation started? -/
  started : Bool
  deriving DecidableEq, Repr

structure Worker where
  channel : List SidecarOp
  dirtyTracker : List U64
  current : Option InHand
  deriving DecidableEq, Repr

def Worker.idle : Worker := ⟨[], [], none⟩

/-- A hydration job: a full copy of a path, with the events that had failed there
when it began. -/
structure Job where
  path : Path
  mends : List Event
  copied : Bool
  deriving DecidableEq, Repr

structure State (W : Type) where
  /-- Does the target keep the marks in extended attributes? They follow the file
  then; otherwise they are in a sidecar file, which stays where it is. -/
  xattrs : Bool
  flags : List Path
  workers : W → Worker
  jobs : List Job
  ops : List DataOp
  /-- The files that a recovery scan took to be good, with the operations open then. -/
  trusted : List (Path × List DataOp)

/-- The operations whose start sets the mark. -/
def setsDirty : EventType → Bool
  | .write | .writeRange | .clone | .truncate | .fallocate => true
  | _ => false

/-- The operations whose success clears it. -/
def clearsDirty : EventType → Bool
  | .write | .writeRange | .clone | .truncate | .fallocate | .create | .mkdir => true
  | _ => false

def removes : EventType → Bool
  | .unlink | .rmdir => true
  | _ => false

variable {W : Type}

namespace State

def opsOn (s : State W) (path : Path) : List DataOp := s.ops.filter (fun o => o.path = path)

def isDirty (s : State W) (path : Path) : Bool := s.flags.contains path

/-- `set_dirty_flag`, if it works. -/
def setDirtyFlag (s : State W) (path : Path) (active : Bool) : State W :=
  { s with
    flags := if active then path :: s.flags else s.flags.filter (fun q => q ≠ path) }

variable [DecidableEq W]

def setWorker (s : State W) (w : W) (x : Worker) : State W :=
  { s with workers := Function.update s.workers w x }

/-- An event is taken in hand. The mark for a data operation is asked for. -/
def announce (s : State W) (w : W) (e : Event) (path : Path) : State W :=
  let x := s.workers w
  if x.current.isSome then s
  else if setsDirty e.eventType then
    let x := if x.dirtyTracker.contains e.inode then x
      else { x with
        channel := x.channel ++ [.setDirty path]
        dirtyTracker := e.inode :: x.dirtyTracker }
    s.setWorker w { x with current := some ⟨e, path, false⟩ }
  else if removes e.eventType then
    s.setWorker w { x with
      dirtyTracker := x.dirtyTracker.filter (fun i => i ≠ e.inode)
      current := some ⟨e, path, false⟩ }
  else s.setWorker w { x with current := some ⟨e, path, false⟩ }

/-- The data operation of the event in hand starts; the sidecar thread may have run since. -/
def start (s : State W) (w : W) : State W :=
  let x := s.workers w
  match x.current with
  | some ⟨e, path, false⟩ =>
    if setsDirty e.eventType then
      { s.setWorker w { x with current := some ⟨e, path, true⟩ } with
        ops := ⟨e, path, false⟩ :: s.ops }
    else s
  | _ => s

/-- What is left of the open operations after a successful one: those of the same event
are done, and a copy of the whole file repairs what had failed on it. -/
def settle (s : State W) (e : Event) (path : Path) (full : Bool) : List DataOp :=
  if setsDirty e.eventType then
    s.ops.filter (fun o => ¬ (o.event = e ∨ full = true ∧ o.failed = true ∧ o.path = path))
  else s.ops

/-- The end of the event in hand, which a data operation comes to when it has started. -/
def finish (s : State W) (w : W) (ok full : Bool) : State W :=
  let x := s.workers w
  match x.current with
  | none => s
  | some ⟨e, path, started⟩ =>
    if setsDirty e.eventType && !started then s
    else if ok && clearsDirty e.eventType then
      { s.setWorker w
          ⟨x.channel ++ [.clearDirty path], x.dirtyTracker.filter (fun i => i ≠ e.inode), none⟩ with
        ops := s.settle e path full }
    else
      { s.setWorker w { x with current := none } with
        ops := s.ops.map (fun o => if o.event = e then { o with failed := true } else o) }

/-- The sidecar thread of a worker takes the next message. -/
def sidecar (s : State W) (w : W) (works : Bool) : State W :=
  let x := s.workers w
  match x.channel with
  | [] => s
  | op :: rest =>
    let s := s.setWorker w { x with channel := rest }
    if works then
      match op with
      | .setDirty path => s.setDirtyFlag path true
      | .clearDirty path => s.setDirtyFlag path false
    else s

omit [DecidableEq W] in
/-- A file is removed from the target. -/
def removed (s : State W) (path : Path) : State W :=
  { s with
    flags := if s.xattrs then s.flags.filter (fun q => q ≠ path) else s.flags
    ops := s.ops.filter (fun o => o.path ≠ path) }

omit [DecidableEq W] in
/-- A file is renamed on the target, over another one if there is one. -/
def moved (s : State W) (old new : Path) : State W :=
  if old = new then s
  else
    { s with
      flags :=
        if s.xattrs then
          (if s.isDirty old then [new] else []) ++ s.flags.filter (fun q => q ≠ old ∧ q ≠ new)
        else s.flags
      ops := (s.ops.filter (fun o => o.path ≠ new)).map
        (fun o => if o.path = old then { o with path := new } else o) }

omit [DecidableEq W] in
def hydrationStart (s : State W) (path : Path) : State W :=
  { s with jobs := ⟨path, ((s.opsOn path).filter DataOp.failed).map DataOp.event, false⟩ :: s.jobs }

omit [DecidableEq W] in
/-- The copy of a job is complete; it repairs what had failed before it began. -/
def hydrationCopied (s : State W) (j : Job) : State W :=
  if j ∈ s.jobs then
    { s with
      jobs := { j with copied := true } :: s.jobs.erase j
      ops := s.ops.filter
        (fun o => ¬ (o.path = j.path ∧ o.failed = true ∧ o.event ∈ j.mends)) }
  else s

omit [DecidableEq W] in
/-- The last action of a job that has copied its file. -/
def hydrationClear (s : State W) (j : Job) (works : Bool) : State W :=
  if j ∈ s.jobs ∧ j.copied = true then
    let s := { s with jobs := s.jobs.erase j }
    if works then s.setDirtyFlag j.path false else s
  else s

omit [DecidableEq W] in
/-- Does a scan in recovery mode leave the file alone? A hit in the prescan of a network
target decides before the mark is looked at, the comparison of signatures after. -/
def trusts (s : State W) (path : Path) (prescanHit unchanged : Bool) : Bool :=
  prescanHit || !s.isDirty path && unchanged

omit [DecidableEq W] in
def recoveryScan (s : State W) (path : Path) (prescanHit unchanged : Bool) : State W :=
  if s.trusts path prescanHit unchanged then
    { s with trusted := s.trusted ++ [(path, s.opsOn path)] }
  else s

omit [DecidableEq W] in
/-- The daemon dies: messages, sets and jobs are gone, what was running has failed. -/
def crash (s : State W) : State W :=
  { s with
    workers := fun _ => .idle
    jobs := []
    ops := s.ops.map (fun o => { o with failed := true }) }

end State

inductive Action (W : Type) where
  | announce (w : W) (e : Event) (path : Path)
  | start (w : W)
  | finish (w : W) (ok full : Bool)
  | sidecar (w : W) (works : Bool)
  | removed (path : Path)
  | moved (old new : Path)
  | hydrationStart (path : Path)
  | hydrationCopied (j : Job)
  | hydrationClear (j : Job) (works : Bool)
  | recoveryScan (path : Path) (prescanHit unchanged : Bool)
  | crash

def State.step [DecidableEq W] (s : State W) : Action W → State W
  | .announce w e path => s.announce w e path
  | .start w => s.start w
  | .finish w ok full => s.finish w ok full
  | .sidecar w works => s.sidecar w works
  | .removed path => s.removed path
  | .moved old new => s.moved old new
  | .hydrationStart path => s.hydrationStart path
  | .hydrationCopied j => s.hydrationCopied j
  | .hydrationClear j works => s.hydrationClear j works
  | .recoveryScan path prescanHit unchanged => s.recoveryScan path prescanHit unchanged
  | .crash => s.crash

def State.run [DecidableEq W] (s : State W) (acts : List (Action W)) : State W :=
  Run.exec State.step s acts

/-! ## What the marks promise -/

namespace State

/-- Every file with an open operation is marked, and no scan has trusted such a file. -/
structure Flagged (s : State W) : Prop where
  marked : ∀ o ∈ s.ops, s.isDirty o.path = true
  scanned : ∀ t ∈ s.trusted, t.2 = []

/-- No data operation is open on the path. -/
def Settled (s : State W) (path : Path) : Prop := ∀ o ∈ s.ops, o.path ≠ path

/-- Nothing is on its way that would clear a mark of the path: neither a message nor a hydration
job. -/
def Unthreatened (s : State W) (path : Path) : Prop :=
  (∀ w, .clearDirty path ∉ (s.workers w).channel) ∧ ∀ j ∈ s.jobs, j.path ≠ path

/-- The condition on a step. A data operation starts when its mark is on disk and nothing is on its
way that would clear it; a success asks for its mark to be cleared when it leaves no operation open
on the path; a file with open operations is renamed to where they are as well marked; a hydration
job begins when none is running on its path; the prescan hits only files without a mark. -/
def Safe (s : State W) : Action W → Prop
  | .start w => ∀ x ∈ (s.workers w).current, x.started = false →
    setsDirty x.event.eventType = true → s.isDirty x.path = true ∧ s.Unthreatened x.path
  | .finish w ok full => ok = true → ∀ x ∈ (s.workers w).current,
    clearsDirty x.event.eventType = true → ∀ o ∈ s.ops, o.path = x.path →
      setsDirty x.event.eventType = true ∧ (o.event = x.event ∨ full = true ∧ o.failed = true)
  | .moved old new => old = new ∨ s.Settled old ∨
    (s.xattrs = true ∨ s.isDirty new = true) ∧ s.Unthreatened new
  | .hydrationStart path => ∀ o ∈ s.ops, o.path = path → o.failed = true
  | .recoveryScan path prescanHit _ => prescanHit = true → s.isDirty path = false
  | _ => True

instance [Fintype W] (s : State W) (path : Path) : Decidable (s.Unthreatened path) :=
  inferInstanceAs (Decidable ((∀ _, _) ∧ ∀ _ ∈ _, _))

instance (s : State W) (path : Path) : Decidable (s.Settled path) :=
  inferInstanceAs (Decidable (∀ _ ∈ _, _))

instance decidableSafe [Fintype W] (s : State W) : ∀ a, Decidable (s.Safe a)
  | .start _ => inferInstanceAs (Decidable (∀ _ ∈ _, _ → _ → _ ∧ _))
  | .finish .. => inferInstanceAs (Decidable (_ → ∀ _ ∈ _, _ → ∀ _ ∈ _, _ → _ ∧ (_ ∨ _ ∧ _)))
  | .moved .. => inferInstanceAs (Decidable (_ ∨ _ ∨ (_ ∨ _) ∧ _))
  | .hydrationStart _ => inferInstanceAs (Decidable (∀ _ ∈ _, _ → _))
  | .recoveryScan .. => inferInstanceAs (Decidable (_ → _))
  | .announce .. | .sidecar .. | .removed _ | .hydrationCopied _ | .hydrationClear .. | .crash =>
    inferInstanceAs (Decidable True)

/-- What safe steps keep: every open operation is marked, no message clears its mark, and a job on
its path began after it had failed and mends it. -/
structure Guarded (s : State W) : Prop extends Flagged s where
  messages : ∀ o ∈ s.ops, ∀ w, .clearDirty o.path ∉ (s.workers w).channel
  jobs : ∀ o ∈ s.ops, ∀ j ∈ s.jobs, j.path = o.path →
    j.copied = false ∧ o.failed = true ∧ o.event ∈ j.mends

/-! ## One step -/

variable {s : State W}

@[simp] theorem isDirty_setDirtyFlag_true (path q : Path) :
    (s.setDirtyFlag path true).isDirty q = true ↔ q = path ∨ s.isDirty q = true := by
  simp [isDirty, setDirtyFlag]

@[simp] theorem isDirty_setDirtyFlag_false (path q : Path) :
    (s.setDirtyFlag path false).isDirty q = true ↔ s.isDirty q = true ∧ q ≠ path := by
  simp [isDirty, setDirtyFlag]

/-- Operations that close, or fail, need nothing new. -/
theorem Guarded.of_ops {s' : State W} (h : s.Guarded) (hflags : s'.flags = s.flags)
    (htrusted : s'.trusted = s.trusted) (hops : ∀ o ∈ s'.ops, ∃ o₀ ∈ s.ops,
      o.event = o₀.event ∧ o.path = o₀.path ∧ (o₀.failed = true → o.failed = true))
    (hmessages : ∀ w path, .clearDirty path ∈ (s'.workers w).channel →
      (∃ w, .clearDirty path ∈ (s.workers w).channel) ∨ s'.Settled path)
    (hjobs : ∀ j ∈ s'.jobs, j ∈ s.jobs ∨ s'.Settled j.path) : s'.Guarded := by
  refine ⟨⟨fun o ho => ?_, htrusted ▸ h.scanned⟩, fun o ho w hclear => ?_,
    fun o ho j hj hpath => ?_⟩
  · obtain ⟨o₀, ho₀, -, hpath, -⟩ := hops o ho
    have hmarked := h.marked o₀ ho₀
    rwa [isDirty, ← hpath, ← hflags] at hmarked
  · obtain ⟨o₀, ho₀, -, hpath, -⟩ := hops o ho
    rcases hmessages w o.path hclear with ⟨w', hclear'⟩ | hsettled
    · exact h.messages o₀ ho₀ w' (hpath ▸ hclear')
    · exact hsettled o ho rfl
  · obtain ⟨o₀, ho₀, hevent, hpath₀, hfailed⟩ := hops o ho
    rcases hjobs j hj with hj | hsettled
    · obtain ⟨hcopied, hfailed₀, hmends⟩ := h.jobs o₀ ho₀ j hj (hpath.trans hpath₀)
      exact ⟨hcopied, hfailed hfailed₀, hevent ▸ hmends⟩
    · exact absurd hpath.symm (hsettled o ho)

theorem Guarded.set (h : s.Guarded) (path : Path) : (s.setDirtyFlag path true).Guarded := by
  refine ⟨⟨fun o ho => ?_, h.scanned⟩, h.messages, h.jobs⟩
  rw [isDirty_setDirtyFlag_true]
  exact .inr (h.marked o ho)

/-- A mark may go when nothing is open on its file. -/
theorem Guarded.clear (h : s.Guarded) {path : Path} (hsettled : s.Settled path) :
    (s.setDirtyFlag path false).Guarded := by
  refine ⟨⟨fun o ho => ?_, h.scanned⟩, h.messages, h.jobs⟩
  exact (isDirty_setDirtyFlag_false path o.path).mpr ⟨h.marked o ho, hsettled o ho⟩

/-- An operation starts. -/
theorem Guarded.opened (h : s.Guarded) {o : DataOp} (hmarked : s.isDirty o.path = true)
    (hunthreatened : s.Unthreatened o.path) : ({ s with ops := o :: s.ops } : State W).Guarded := by
  obtain ⟨hmessages, hjobs⟩ := hunthreatened
  refine ⟨⟨?_, h.scanned⟩, ?_, ?_⟩
  · exact List.forall_mem_cons.mpr ⟨hmarked, h.marked⟩
  · exact List.forall_mem_cons.mpr ⟨hmessages, h.messages⟩
  · exact List.forall_mem_cons.mpr ⟨fun j hj hpath => absurd hpath (hjobs j hj), h.jobs⟩

theorem Guarded.removed (h : s.Guarded) (path : Path) : (s.removed path).Guarded := by
  have hops : ∀ o ∈ (s.removed path).ops, o ∈ s.ops ∧ o.path ≠ path := by
    intro o ho
    simpa [State.removed] using ho
  refine ⟨⟨fun o ho => ?_, h.scanned⟩, fun o ho => h.messages o (hops o ho).1,
    fun o ho => h.jobs o (hops o ho).1⟩
  obtain ⟨hmem, hne⟩ := hops o ho
  have hmarked := h.marked o hmem
  cases hx : s.xattrs with
  | false => simpa [State.removed, isDirty, hx] using hmarked
  | true => simpa [State.removed, isDirty, hx, hne] using hmarked

/-- A rename onto a path that is as well marked. -/
theorem Guarded.moved (h : s.Guarded) {old new : Path}
    (hsafe : s.Safe (W := W) (.moved old new)) : (s.moved old new).Guarded := by
  by_cases hsame : old = new
  · simpa [State.moved, hsame] using h
  have hops : ∀ o ∈ (s.moved old new).ops, ∃ o₀ ∈ s.ops, o₀.path ≠ new ∧
      (o₀.path ≠ old ∧ o = o₀ ∨ o₀.path = old ∧ o = { o₀ with path := new }) := by
    intro o ho
    simp only [State.moved, hsame, if_false, List.mem_map, List.mem_filter,
      decide_eq_true_eq] at ho
    obtain ⟨o₀, ⟨ho₀, hnew⟩, rfl⟩ := ho
    by_cases hold : o₀.path = old
    · exact ⟨o₀, ho₀, hnew, .inr ⟨hold, if_pos hold⟩⟩
    · exact ⟨o₀, ho₀, hnew, .inl ⟨hold, if_neg hold⟩⟩
  have hkept : (s.moved old new).workers = s.workers ∧ (s.moved old new).jobs = s.jobs ∧
      (s.moved old new).trusted = s.trusted := by
    simp [State.moved, hsame]
  obtain ⟨hworkers, hjobs, htrusted⟩ := hkept
  -- an operation that moves finds the new path marked and not threatened
  have hmoves : ∀ o₀ ∈ s.ops, o₀.path = old →
      (s.xattrs = true ∨ s.isDirty new = true) ∧ s.Unthreatened new := by
    intro o₀ ho₀ hold
    rcases hsafe with heq | hsettled | hnew
    · exact absurd heq hsame
    · exact absurd hold (hsettled o₀ ho₀)
    · exact hnew
  have hflags : ∀ q, q ≠ old → q ≠ new → s.isDirty q = true →
      (s.moved old new).isDirty q = true := by
    intro q hold hnew hdirty
    have hflag : q ∈ s.flags := by simpa [isDirty] using hdirty
    cases hx : s.xattrs with
    | false => simpa [State.moved, hsame, hx, isDirty] using hflag
    | true => simp [State.moved, hsame, hx, hold, hnew, isDirty, hflag]
  have hnewflag : s.xattrs = true ∨ s.isDirty new = true → s.isDirty old = true →
      (s.moved old new).isDirty new = true := by
    intro hnew hold
    have hflag : old ∈ s.flags := by simpa [isDirty] using hold
    cases hx : s.xattrs with
    | false =>
      have hdirty : s.isDirty new = true := by simpa [hx] using hnew
      simpa [State.moved, hsame, hx, isDirty] using hdirty
    | true => simp [State.moved, hsame, hx, isDirty, hflag]
  refine ⟨⟨fun o ho => ?_, htrusted ▸ h.scanned⟩, fun o ho => ?_, fun o ho => ?_⟩
  · obtain ⟨o₀, ho₀, hnew, ⟨hold, rfl⟩ | ⟨hold, rfl⟩⟩ := hops o ho
    · exact hflags o.path hold hnew (h.marked o ho₀)
    · exact hnewflag (hmoves o₀ ho₀ hold).1 (hold ▸ h.marked o₀ ho₀)
  · obtain ⟨o₀, ho₀, hnew, ⟨hold, rfl⟩ | ⟨hold, rfl⟩⟩ := hops o ho
    · rw [hworkers]
      exact h.messages o ho₀
    · rw [hworkers]
      exact (hmoves o₀ ho₀ hold).2.1
  · obtain ⟨o₀, ho₀, hnew, ⟨hold, rfl⟩ | ⟨hold, rfl⟩⟩ := hops o ho
    · rw [hjobs]
      exact h.jobs o ho₀
    · rw [hjobs]
      exact fun j hj hpath => absurd hpath ((hmoves o₀ ho₀ hold).2.2 j hj)

/-- A job that begins when no operation is running on its path mends them all. -/
theorem Guarded.hydrationStart (h : s.Guarded) {path : Path}
    (hfailed : ∀ o ∈ s.ops, o.path = path → o.failed = true) :
    (s.hydrationStart path).Guarded := by
  refine ⟨⟨h.marked, h.scanned⟩, h.messages, fun o ho j hj hpath => ?_⟩
  rcases List.mem_cons.mp hj with rfl | hj
  · have hfail := hfailed o ho hpath.symm
    refine ⟨rfl, hfail, List.mem_map.mpr ⟨o, List.mem_filter.mpr ⟨?_, hfail⟩, rfl⟩⟩
    exact List.mem_filter.mpr ⟨ho, decide_eq_true hpath.symm⟩
  · exact h.jobs o ho j hj hpath

/-- So nothing is open on the path of a job that has copied it. -/
theorem Guarded.hydrationCopied (h : s.Guarded) (j : Job) : (s.hydrationCopied j).Guarded := by
  unfold State.hydrationCopied
  split_ifs with hjob
  swap
  · exact h
  refine h.of_ops rfl rfl (fun o ho => ⟨o, (List.mem_filter.mp ho).1, rfl, rfl, id⟩)
    (fun w path hclear => .inl ⟨w, hclear⟩) fun k hk => ?_
  rcases List.mem_cons.mp hk with rfl | hk
  · refine .inr fun o ho hpath => ?_
    obtain ⟨hmem, hopen⟩ := List.mem_filter.mp ho
    obtain ⟨-, hfailed, hmends⟩ := h.jobs o hmem j hjob hpath.symm
    simp only [decide_eq_true_eq] at hopen
    exact hopen ⟨hpath, hfailed, hmends⟩
  · exact .inl (List.mem_of_mem_erase hk)

theorem Guarded.hydrationClear (h : s.Guarded) (j : Job) (works : Bool) :
    (s.hydrationClear j works).Guarded := by
  unfold State.hydrationClear
  split_ifs with hjob hworks
  · have hrest : ({ s with jobs := s.jobs.erase j } : State W).Guarded :=
      ⟨⟨h.marked, h.scanned⟩, h.messages, fun o ho k hk => h.jobs o ho k (List.mem_of_mem_erase hk)⟩
    refine hrest.clear fun o ho hpath => ?_
    have hcopied := (h.jobs o ho j hjob.1 hpath.symm).1
    rw [hjob.2] at hcopied
    cases hcopied
  · exact ⟨⟨h.marked, h.scanned⟩, h.messages,
      fun o ho k hk => h.jobs o ho k (List.mem_of_mem_erase hk)⟩
  · exact h

/-- A scan that goes by the marks finds every open operation. -/
theorem Guarded.recoveryScan (h : s.Guarded) {path : Path} {prescanHit : Bool}
    (hsafe : prescanHit = true → s.isDirty path = false) (unchanged : Bool) :
    (s.recoveryScan path prescanHit unchanged).Guarded := by
  unfold State.recoveryScan
  split_ifs with htrusts
  swap
  · exact h
  have hclean : s.isDirty path = false := by
    cases hhit : prescanHit with
    | true => exact hsafe hhit
    | false =>
      rw [trusts, hhit, Bool.false_or, Bool.and_eq_true, Bool.not_eq_true'] at htrusts
      exact htrusts.1
  have hnone : s.opsOn path = [] := by
    refine List.filter_eq_nil_iff.mpr fun o ho hpath => ?_
    have hmarked := h.marked o ho
    rw [of_decide_eq_true hpath, hclean] at hmarked
    cases hmarked
  refine ⟨⟨h.marked, fun t ht => ?_⟩, h.messages, h.jobs⟩
  rcases List.mem_append.mp ht with ht | ht
  · exact h.scanned t ht
  · rw [List.mem_singleton.mp ht]
    exact hnone

theorem Guarded.crash (h : s.Guarded) : s.crash.Guarded := by
  refine h.of_ops rfl rfl (fun o ho => ?_) (fun w path hclear => ?_) fun j hj => ?_
  · obtain ⟨o₀, ho₀, rfl⟩ := List.mem_map.mp ho
    exact ⟨o₀, ho₀, rfl, rfl, fun _ => rfl⟩
  · cases hclear
  · cases hj

variable [DecidableEq W]

theorem workers_setWorker (w w' : W) (x : Worker) :
    (s.setWorker w x).workers w' = if w' = w then x else s.workers w' :=
  Function.update_apply ..

/-- A worker sends no message that clears a mark. -/
theorem Guarded.setWorker (h : s.Guarded) (w : W) {x : Worker}
    (hx : ∀ path, .clearDirty path ∈ x.channel → .clearDirty path ∈ (s.workers w).channel) :
    (s.setWorker w x).Guarded := by
  refine ⟨⟨h.marked, h.scanned⟩, fun o ho w' hclear => ?_, h.jobs⟩
  rw [workers_setWorker] at hclear
  split_ifs at hclear
  · exact h.messages o ho w (hx o.path hclear)
  · exact h.messages o ho w' hclear

theorem Guarded.announce (h : s.Guarded) (w : W) (e : Event) (path : Path) :
    (s.announce w e path).Guarded := by
  unfold State.announce
  dsimp only
  split_ifs
  · exact h
  · exact h.setWorker w fun _ => id
  · exact h.setWorker w fun q hq => by simpa using hq
  · exact h.setWorker w fun _ => id
  · exact h.setWorker w fun _ => id

theorem Guarded.start (h : s.Guarded) {w : W} (hsafe : s.Safe (.start w)) :
    (s.start w).Guarded := by
  unfold State.start
  dsimp only
  split
  next e path hcurrent =>
    split_ifs with hdata
    · obtain ⟨hmarked, hmessages, hjobs⟩ := hsafe _ hcurrent rfl hdata
      have hrest : (s.setWorker w { s.workers w with current := some ⟨e, path, true⟩ }).Guarded :=
        h.setWorker w fun _ => id
      refine hrest.opened (o := ⟨e, path, false⟩) hmarked ⟨fun w' => ?_, hjobs⟩
      rw [workers_setWorker]
      split_ifs
      · exact hmessages w
      · exact hmessages w'
    · exact h
  · exact h

theorem Guarded.finish (h : s.Guarded) {w : W} {ok full : Bool}
    (hsafe : s.Safe (.finish w ok full)) : (s.finish w ok full).Guarded := by
  unfold State.finish
  dsimp only
  split
  · exact h
  next e path started hcurrent =>
    split_ifs with hunstarted hclears
    · exact h
    · rw [Bool.and_eq_true] at hclears
      have hothers := hsafe hclears.1 _ hcurrent hclears.2
      refine h.of_ops rfl rfl (fun o ho => ?_) (fun w' q hclear => ?_) fun j hj => .inl hj
      · refine ⟨o, ?_, rfl, rfl, id⟩
        simp only [settle] at ho
        split_ifs at ho
        · exact (List.mem_filter.mp ho).1
        · exact ho
      · dsimp only at hclear
        rw [workers_setWorker] at hclear
        split_ifs at hclear
        · rcases List.mem_append.mp hclear with hclear | hclear
          · exact .inl ⟨w, hclear⟩
          · -- the success settles the path
            obtain rfl : q = path := by simpa using hclear
            refine .inr fun o ho hpath => ?_
            simp only [settle] at ho
            split_ifs at ho with hdata
            · obtain ⟨hmem, hopen⟩ := List.mem_filter.mp ho
              simp only [decide_eq_true_eq] at hopen
              refine hopen ?_
              rcases (hothers o hmem hpath).2 with hevent | ⟨hfull, hfailed⟩
              · exact .inl hevent
              · exact .inr ⟨hfull, hfailed, hpath⟩
            · exact hdata (hothers o ho hpath).1
        · exact .inl ⟨w', hclear⟩
    · refine h.of_ops rfl rfl (fun o ho => ?_) (fun w' q hclear => ?_) fun j hj => .inl hj
      · obtain ⟨o₀, ho₀, rfl⟩ := List.mem_map.mp ho
        refine ⟨o₀, ho₀, ?_⟩
        split_ifs
        · exact ⟨rfl, rfl, fun _ => rfl⟩
        · exact ⟨rfl, rfl, id⟩
      · dsimp only at hclear
        rw [workers_setWorker] at hclear
        split_ifs at hclear
        · exact .inl ⟨w, hclear⟩
        · exact .inl ⟨w', hclear⟩

/-- No message clears the mark of an open operation. -/
theorem Guarded.sidecar (h : s.Guarded) (w : W) (works : Bool) : (s.sidecar w works).Guarded := by
  unfold State.sidecar
  dsimp only
  split
  · exact h
  next op rest hchannel =>
    have hrest : (s.setWorker w { s.workers w with channel := rest }).Guarded :=
      h.setWorker w fun q hq => hchannel ▸ List.mem_cons_of_mem op hq
    split_ifs
    · cases op with
      | setDirty path => exact hrest.set path
      | clearDirty path =>
        refine hrest.clear fun o ho hpath => h.messages o ho w ?_
        rw [hchannel, hpath]
        exact List.mem_cons_self ..
    · exact hrest

/-! ## Runs -/

theorem Guarded.step (h : s.Guarded) {a : Action W} (hsafe : s.Safe a) : (s.step a).Guarded := by
  cases a with
  | announce w e path => exact h.announce w e path
  | start w => exact h.start hsafe
  | finish w ok full => exact h.finish hsafe
  | sidecar w works => exact h.sidecar w works
  | removed path => exact h.removed path
  | moved old new => exact h.moved hsafe
  | hydrationStart path => exact h.hydrationStart hsafe
  | hydrationCopied j => exact h.hydrationCopied j
  | hydrationClear j works => exact h.hydrationClear j works
  | recoveryScan path prescanHit unchanged => exact h.recoveryScan hsafe unchanged
  | crash => exact h.crash

end State

end Foxing.Dirty
