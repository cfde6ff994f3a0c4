import Mathlib.Data.Finset.Filter
import Mathlib.Data.Finset.Insert
import Foxing.HydrationRequests
import Foxing.PathResolution

/-!
# The journal of a paused target

While a target is paused its workers take events out of their channels and put the path of
each into the journal that they share. A journal that has grown too long is cleared, and a
flag asks for a full scan instead; the journal is counted and cleared one shard after the
other, while other workers insert into it. What is counted is given with the step.

An event comes with what it does on the source, where a rename changes two paths, and with
the maps that its parent is looked up in.
-/
namespace Foxing.PausedJournal

/-- The paths at which an event makes, removes or changes something. -/
def changedPaths (n : Naming) (e : Event) : List Path :=
  match e.eventType with
  | .barrier | .sequenceGap | .fsync | .unknown => []
  | .rename | .renameIncomplete => n.path.toList ++ n.newPath.toList
  | _ => n.path.toList

/-- Where a worker is in the loop. -/
inductive Phase
  | waiting
  | inserting (path : Path)
  | counting
  | clearing (shard : ℕ)
  | flagging
  | panicked
  deriving DecidableEq

/-- The worker is about to set the flag. -/
def Phase.overflows : Phase → Bool
  | .clearing _ | .flagging => true
  | _ => false

/-- The worker is at the head of its loop, or gone. -/
def Phase.rests : Phase → Bool
  | .waiting | .panicked => true
  | _ => false

/-- The last two fields record what the events received have changed, and what has been put
into the journal. -/
structure State where
  journal : Finset Path
  overflowed : Bool
  phase : ℕ → Phase
  changed : List Path
  inserted : List Path

inductive Action
  | recv (worker : ℕ) (e : Event) (n : Naming) (w : World)
  | timeout (worker : ℕ)
  | go (worker count : ℕ)

namespace State
variable (shards : ℕ) (shardOf : Path → ℕ) (s : State)

def init : State := ⟨∅, false, fun _ => .waiting, [], []⟩

def goTo (worker : ℕ) (p : Phase) : State := { s with phase := Function.update s.phase worker p }

/-- A worker takes an event. Barriers and gaps are passed over, and with an entry that has no
path the worker panics. -/
def recv (worker : ℕ) (e : Event) (n : Naming) (w : World) : State :=
  if s.phase worker = .waiting then
    let s := { s with changed := s.changed ++ changedPaths n e }
    if e.eventType = .barrier ∨ e.eventType = .sequenceGap then s.goTo worker .counting
    else
      match (resolveEventPath e.parentInode e.name w).1 with
      | some rel => s.goTo worker (.inserting rel)
      | none => s.goTo worker .panicked
  else s

/-- The next access of a worker to the journal or the flag. -/
def go (worker count : ℕ) : State :=
  match s.phase worker with
  | .inserting path =>
    { s.goTo worker .counting with
      journal := insert path s.journal
      inserted := s.inserted ++ [path] }
  | .counting =>
    s.goTo worker (if Daemon.outageJournalMaxEntries < count then .clearing 0 else .waiting)
  | .clearing shard =>
    if shard < shards then
      { s.goTo worker (.clearing (shard + 1)) with
        journal := s.journal.filter fun p => shardOf p ≠ shard }
    else s.goTo worker .flagging
  | .flagging => { s.goTo worker .waiting with overflowed := true }
  | _ => s

def step : Action → State
  | .recv worker e n w => s.recv worker e n w
  | .timeout worker => if s.phase worker = .waiting then s.goTo worker .counting else s
  | .go worker count => s.go shards shardOf worker count

/-- Between events, every path that an event has changed and every path that was put into the
journal is in it, unless the flag is set. -/
def Complete : Prop :=
  (∀ i, (s.phase i).rests = true) →
    ∀ p ∈ s.changed ++ s.inserted, p ∈ s.journal ∨ s.overflowed = true

/-- The path is in the journal or about to be put there, or the flag is set or about to be. -/
def Secured (p : Path) : Prop :=
  s.overflowed = true ∨ p ∈ s.journal ∨
    ∃ i, s.phase i = .inserting p ∨ (s.phase i).overflows = true

/-- An event that is received changes no other path than the one that its parent and name are
resolved to, as far as the path is not taken care of already. -/
def Resolves (s : State) : Action → Prop
  | .recv worker e n w => s.phase worker = .waiting → ∀ p ∈ changedPaths n e,
      (resolveEventPath e.parentInode e.name w).1 = some p ∨ s.Secured p
  | _ => True

variable {s} {shards shardOf}

/-- A worker moves on that is not about to take care of the path. -/
theorem Secured.move {p : Path} (h : s.Secured p) {worker : ℕ}
    (hworker : s.phase worker ≠ .inserting p) (hoverflows : (s.phase worker).overflows = false)
    {s' : State} (hphase : ∀ i, i ≠ worker → s'.phase i = s.phase i)
    (hjournal : s.journal ⊆ s'.journal) (hoverflowed : s'.overflowed = s.overflowed) :
    s'.Secured p := by
  rcases h with h | h | ⟨i, h⟩
  · exact .inl (hoverflowed.trans h)
  · exact .inr (.inl (hjournal h))
  · have hi : i ≠ worker := by
      rintro rfl
      rcases h with h | h
      · exact hworker h
      · rw [hoverflows] at h
        cases h
    refine .inr (.inr ⟨i, ?_⟩)
    rw [hphase i hi]
    exact h

/-- The same for a worker at the head of its loop. -/
theorem Secured.moved {p : Path} {worker : ℕ} (hworker : s.phase worker = .waiting)
    (h : s.Secured p) {s' : State} (hjournal : s'.journal = s.journal)
    (hoverflowed : s'.overflowed = s.overflowed)
    (hphase : ∀ i, i ≠ worker → s'.phase i = s.phase i) : s'.Secured p :=
  h.move (by simp [hworker]) (by simp [hworker, Phase.overflows]) hphase hjournal.ge hoverflowed

/-- Whatever a worker does next, a path stays taken care of. -/
theorem Secured.go {p : Path} (h : s.Secured p) (worker count : ℕ) :
    (s.go shards shardOf worker count).Secured p := by
  unfold State.go
  have hphase (q : Phase) (i : ℕ) (hi : i ≠ worker) : (s.goTo worker q).phase i = s.phase i :=
    Function.update_of_ne hi ..
  cases hworker : s.phase worker with
  | waiting => exact h
  | panicked => exact h
  | inserting path =>
    by_cases hp : path = p
    · rw [hp]
      exact .inr (.inl (Finset.mem_insert_self ..))
    · refine h.move (by simp [hworker, hp]) (by simp [hworker, Phase.overflows]) (hphase _) ?_ rfl
      exact Finset.subset_insert ..
  | counting =>
    exact h.move (by simp [hworker]) (by simp [hworker, Phase.overflows]) (hphase _)
      (Finset.Subset.refl _) rfl
  | clearing shard =>
    dsimp only
    split_ifs
    · exact .inr (.inr ⟨worker, .inr (by simp [goTo, Phase.overflows])⟩)
    · exact .inr (.inr ⟨worker, .inr (by simp [goTo, Phase.overflows])⟩)
  | flagging => exact .inl rfl

/-- All that the events have changed, and all that was put into the journal, is taken care of. -/
def AllSecured (s : State) : Prop := ∀ p ∈ s.changed ++ s.inserted, s.Secured p

/-- A path that was not there before has just been put into the journal. -/
theorem mem_go {p : Path} {worker count : ℕ}
    (hp : p ∈ (s.go shards shardOf worker count).changed ++
      (s.go shards shardOf worker count).inserted) :
    p ∈ s.changed ++ s.inserted ∨ s.phase worker = .inserting p := by
  unfold State.go at hp
  cases hworker : s.phase worker with
  | inserting path =>
    simp only [hworker, goTo, ← List.append_assoc] at hp
    rcases List.mem_append.mp hp with hp | hp
    · exact .inl hp
    · rw [List.mem_singleton.mp hp]
      exact .inr rfl
  | clearing shard =>
    simp only [hworker] at hp
    split_ifs at hp
    · exact .inl hp
    · exact .inl hp
  | _ =>
    simp only [hworker] at hp
    exact .inl hp

theorem AllSecured.go (h : s.AllSecured) (worker count : ℕ) :
    (s.go shards shardOf worker count).AllSecured := by
  intro p hp
  rcases mem_go hp with hold | hinserting
  · exact (h p hold).go worker count
  · exact Secured.go (.inr (.inr ⟨worker, .inl hinserting⟩)) worker count

/-- What an event that is received changes is put into the journal or taken care of. -/
theorem AllSecured.received (h : s.AllSecured) {worker : ℕ} {e : Event} {n : Naming} {w : World}
    (hresolves : s.Resolves (.recv worker e n w)) (hwaiting : s.phase worker = .waiting) {p : Path}
    (hp : p ∈ s.changed ++ changedPaths n e ++ s.inserted) :
    (resolveEventPath e.parentInode e.name w).1 = some p ∨ s.Secured p := by
  rcases List.mem_append.mp hp with hp | hp
  · rcases List.mem_append.mp hp with hp | hp
    · exact .inr (h p (List.mem_append_left _ hp))
    · exact hresolves hwaiting p hp
  · exact .inr (h p (List.mem_append_right _ hp))

theorem AllSecured.recv (h : s.AllSecured) {worker : ℕ} {e : Event} {n : Naming} {w : World}
    (hresolves : s.Resolves (.recv worker e n w)) : (s.recv worker e n w).AllSecured := by
  unfold State.recv
  split_ifs with hwaiting hskip
  · have hnone : changedPaths n e = [] := by
      rcases hskip with htype | htype <;> simp [changedPaths, htype]
    intro p hp
    simp only [hnone, List.append_nil] at hp
    exact Secured.moved hwaiting (h p hp) rfl rfl fun i hi => Function.update_of_ne hi ..
  · have hmoved {p : Path} {q : Phase} (hp : s.Secured p) :
        ({ s with changed := s.changed ++ changedPaths n e }.goTo worker q).Secured p :=
      Secured.moved hwaiting hp rfl rfl fun i hi => Function.update_of_ne hi ..
    cases hpath : (resolveEventPath e.parentInode e.name w).1 with
    | some rel =>
      intro p hp
      rcases h.received hresolves hwaiting hp with hrel | hsecured
      · obtain rfl : rel = p := Option.some.inj (hpath.symm.trans hrel)
        exact .inr (.inr ⟨worker, .inl (by simp [goTo])⟩)
      · exact hmoved hsecured
    | none =>
      intro p hp
      rcases h.received hresolves hwaiting hp with hrel | hsecured
      · cases hpath.symm.trans hrel
      · exact hmoved hsecured
  · exact h

theorem AllSecured.step (h : s.AllSecured) {a : Action} (hresolves : s.Resolves a) :
    (s.step shards shardOf a).AllSecured := by
  cases a with
  | recv worker e n w => exact h.recv hresolves
  | timeout worker =>
    show (if s.phase worker = .waiting then s.goTo worker .counting else s).AllSecured
    split_ifs with hwaiting
    · exact fun p hp => Secured.moved hwaiting (h p hp) rfl rfl fun i hi =>
        Function.update_of_ne hi ..
    · exact h
  | go worker count => exact h.go worker count

/-- When no worker is about to do something, what is taken care of is in the journal. -/
theorem AllSecured.complete (h : s.AllSecured) : s.Complete := by
  intro hrests p hp
  rcases h p hp with h | h | ⟨i, h⟩
  · exact .inr h
  · exact .inl h
  · have hrest := hrests i
    rcases h with h | h
    · rw [h] at hrest
      cases hrest
    · cases hphase : s.phase i <;> simp_all [Phase.rests, Phase.overflows]

def naming : Naming := ⟨fun i => if i = 5 then {["a"]} else ∅, some ["a"], some ["b"]⟩

def entered (t : EventType) : Event :=
  { Event.zero with
    eventType := t, inode := 5, parentInode := 2, newParentInode := 2, name := "a",
    newName := some "b" }

end State
end Foxing.PausedJournal
