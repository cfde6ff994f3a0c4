import Foxing.TargetNames

/-!
# From a change of the source to the target

Every change of the source sends an event to the dispatcher, which drops the
daemon's own traffic, registers renames and puts the event into the tin of its
class; the worker takes events from the tins and acts on them, with the source
as it is at that time. The dispatcher is that of a single worker, the coalescing
of writes in front of the worker is left out, and the directories of the source
stay where they are.
-/
namespace Foxing

/-- The names that the daemon gives to its own files. -/
def internalName (name : String) : Bool :=
  ".foxing".toList.isPrefixOf name.toList ||
    decide (".tmp.".toList <:+: name.toList) ||
    ".swap_tmp".toList.isSuffixOf name.toList

def Event.isInternalTraffic (e : Event) : Bool :=
  internalName e.name || (e.newName.map internalName).getD false

/-- The number of events that a tin holds before it refuses more; the sender of a
structural event waits instead. -/
def EventTin.capacity : EventTin → Option ℕ
  | .control | .structural => none
  | .metadata => some 1024
  | .bulk => some 64

/-- The tins of a worker, and the storm registry of renames under way. -/
structure EventQueue where
  tins : EventTin → List Event
  pendingRenames : U64 → ℕ

namespace EventQueue

def empty : EventQueue := ⟨fun _ => [], fun _ => 0⟩

def markPendingRename (inode : U64) (q : EventQueue) : EventQueue :=
  { q with pendingRenames := Function.update q.pendingRenames inode (q.pendingRenames inode + 1) }

def clearPendingRename (inode : U64) (q : EventQueue) : EventQueue :=
  { q with pendingRenames := Function.update q.pendingRenames inode (q.pendingRenames inode - 1) }

/-- Renames are registered before they are queued. -/
def register (e : Event) (q : EventQueue) : EventQueue :=
  if e.eventType = .rename ∨ e.eventType = .renameIncomplete then q.markPendingRename e.inode else q

def append (e : Event) (q : EventQueue) : EventQueue :=
  { q with
    tins := Function.update q.tins e.eventType.tin (q.tins e.eventType.tin ++ [e]) }

def isFull (tin : EventTin) (q : EventQueue) : Bool :=
  tin.capacity.any fun n => n ≤ (q.tins tin).length

def push (e : Event) (q : EventQueue) : Bool × EventQueue :=
  if e.isInternalTraffic then (true, q)
  else if (q.register e).isFull e.eventType.tin then (false, q.register e)
  else (true, (q.register e).append e)

end EventQueue

/-- The source, the worker with its target, and the events between them. -/
structure Mirror where
  source : Fs
  worker : World
  queue : EventQueue

/-- A change of the source, with what a write leaves in the file, or the worker's
turn at one of its tins. -/
inductive Mirror.Action where
  | change (e : Event) (content : File)
  | work (tin : EventTin)

namespace Mirror

section Places
variable (dirs : U64 → Option Path)

/-- The path of a name in a directory of the source. -/
def placeIn (parent : U64) (name : String) : Path := (dirs parent).getD [] ++ [name]

/-- The path that an event is about; for a rename, the old one. -/
def place (e : Event) : Path := placeIn dirs e.parentInode e.name

/-- The new path of a rename. -/
def newPlace (e : Event) : Path := placeIn dirs e.newParentInode (e.newName.getD "")

/-- The call that a rename event reports. -/
def renameCall (e : Event) : Fs → CallResult × Fs :=
  if e.flags.val / 2 % 2 = 1 then Fs.exchange (place dirs e) (newPlace dirs e)
  else Fs.rename (place dirs e) (newPlace dirs e)

/-- What has happened on the source when an event is sent. -/
def occur (e : Event) (content : File) (s : Fs) : Fs :=
  match e.eventType with
  | .create =>
    (s.link (.initial e.inode.val) ⟨⟨e.mode, e.uid, e.gid⟩, .regular .empty⟩ (place dirs e)).2
  | .write | .writeRange => (s.alterContent (fun _ => content) (place dirs e)).2
  | .rename => (renameCall dirs e s).2
  | _ => s

end Places

/-- What an attempt finds at this moment. -/
def envAt (env : Env) (m : Mirror) : Env :=
  { env with source := m.source, pendingRenames := m.queue.pendingRenames }

/-- The worker acts on an event, which takes a rename that it has carried out off
the registry. -/
def process (env : Env) (e : Event) (m : Mirror) : Mirror :=
  let r := processSingleEvent (m.envAt env) none e m.worker
  { m with
    worker := r.2
    queue := if r.1.any (·.clearsRename) then m.queue.clearPendingRename e.inode else m.queue }

def work (env : Env) (tin : EventTin) (m : Mirror) : Mirror :=
  match m.queue.tins tin with
  | [] => m
  | e :: rest =>
    ({ m with queue := { m.queue with tins := Function.update m.queue.tins tin rest } }).process
      env e

def step (env : Env) (dirs : U64 → Option Path) (m : Mirror) : Action → Mirror
  | .change e content =>
    { m with source := occur dirs e content m.source, queue := (m.queue.push e).2 }
  | .work tin => m.work env tin

end Mirror

end Foxing
