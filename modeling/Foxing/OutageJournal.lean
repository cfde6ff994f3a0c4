import Foxing.HydrationRequests
import Foxing.Hydrator
import Foxing.Lib.Run

/-!
# Draining the outage journal

What the workers could not copy to a target during an outage is in its journal. A rescan or
a recovery scan takes the paths out of it, compares each with the target and submits a job
where they differ. The journal is a concurrent set, read and cleared one shard after the
other, while workers insert into it; every shard is a step here, and so is every path that
is looked at. A recovery scan ends with a full scan, of which only the result is given.

One target is looked at, with one scan at a time. The source may change at any time. Other
than the scans and their jobs nothing writes to the target.
-/
namespace Foxing.OutageJournal

/-- What `metadata` tells of a path; links are followed. -/
structure Stat where
  kind : NodeKind
  len : ℕ
  mtime : ℤ
  mtimeNsec : ℕ
  deriving DecidableEq, Repr

/-- A source: what exists is in a directory that exists. -/
structure Source where
  stat : Path → Option Stat
  closed : ∀ p q, q <+: p → stat p ≠ none → stat q ≠ none

abbrev Target := Path → Option Stat

/-- How the journal is divided into shards, and what a new directory looks like. -/
structure Setting where
  shards : ℕ
  shardOf : Path → ℕ
  shardOf_lt : ∀ p, shardOf p < shards
  newDir : Stat
  newDir_kind : newDir.kind = .dir

/-- `create_dir_all`: nothing is made if something else is in the way. -/
def Setting.createDirAll (setting : Setting) (dir : Path) (target : Target) : Target :=
  if ∃ q ∈ dir.inits, ∃ n ∈ target q, n.kind ≠ .dir then target
  else fun q => if q <+: dir ∧ target q = none then some setting.newDir else target q

/-- The comparison of a path that exists on the source. -/
def needsSync (source target : Option Stat) : Bool :=
  match source, target with
  | some s, some t => s.len ≠ t.len || s.mtime ≠ t.mtime
  | some _, none => true
  | none, _ => false

inductive Scan where
  | rescan | recovery
  deriving DecidableEq, Repr

/-- Where the scan is, with the paths that it has taken from the journal and has still to
look at. -/
inductive Phase where
  | idle
  | collecting (scan : Scan) (shard : ℕ) (paths : List Path)
  | clearing (scan : Scan) (shard : ℕ) (paths : List Path)
  | rescanning (todo : List Path)
  | grouping (paths todo : List Path)
  | children (paths todo group : List Path)
  | following
  | done
  deriving DecidableEq, Repr

namespace Phase

def pending : Phase → List Path
  | .collecting _ _ paths | .clearing _ _ paths => paths
  | .rescanning todo | .grouping _ todo => todo
  | .children _ todo group => group ++ todo
  | .idle | .following | .done => []

/-- No scan is under way. -/
def resting : Phase → Bool
  | .idle | .done => true
  | _ => false

/-- A rescan is under way. -/
def rescans : Phase → Bool
  | .collecting scan _ _ | .clearing scan _ _ => scan = .rescan
  | .rescanning _ => true
  | _ => false

/-- A full scan is still to come. -/
def followed : Phase → Bool
  | .collecting scan _ _ | .clearing scan _ _ => scan = .recovery
  | .grouping _ _ | .children _ _ _ | .following => true
  | _ => false

theorem not_followed {phase : Phase} (h : phase.rescans = true ∨ phase = .done) :
    phase.followed = false := by
  rcases h with h | rfl
  · cases phase with
    | collecting scan | clearing scan => cases scan <;> simp_all [rescans, followed]
    | rescanning => rfl
    | idle | grouping | children | following | done => cases h
  · rfl

/-- After an overflow there is something to be done again. -/
def reopened : Phase → Phase
  | .done => .idle
  | phase => phase

@[simp] theorem reopened_pending (phase : Phase) : phase.reopened.pending = phase.pending := by
  cases phase <;> rfl

@[simp] theorem reopened_followed (phase : Phase) : phase.reopened.followed = phase.followed := by
  cases phase <;> rfl

@[simp] theorem reopened_rescans (phase : Phase) : phase.reopened.rescans = phase.rescans := by
  cases phase <;> rfl

theorem reopened_ne_done (phase : Phase) : phase.reopened ≠ .done := by
  cases phase <;> simp [reopened]

/-- The path can be in the journal without being lost to the scan: its shard has yet to be
read or has been cleared, unless the path has been collected. -/
def Admits (setting : Setting) (path : Path) : Phase → Prop
  | .collecting _ shard paths => setting.shardOf path < shard → path ∈ paths
  | .clearing _ shard paths => shard ≤ setting.shardOf path → path ∈ paths
  | _ => True

instance (setting : Setting) (path : Path) : ∀ phase : Phase, Decidable (phase.Admits setting path)
  | .collecting _ _ _ => inferInstanceAs (Decidable (_ → _))
  | .clearing _ _ _ => inferInstanceAs (Decidable (_ → _))
  | .idle | .rescanning _ | .grouping _ _ | .children _ _ _ | .following | .done =>
    inferInstanceAs (Decidable True)

end Phase

/-- What a full scan does: which files it gets to, which of them it finds to differ, which jobs
are accepted, what becomes of the directories of the source, and what can be removed. -/
structure FullScan where
  reaches : Path → Bool
  needed : Path → Bool
  accepts : Path → Bool
  dirs : Path → Option Stat
  removable : Path → Bool

/-- The state of a target. The last five fields are not read: the paths that have been inserted,
those of them that the source has not changed since, and what became of them when they were
last looked at. A path that was found to be the same is settled; one that was passed over, or
cleared away, awaits a full scan. -/
structure State where
  source : Source
  target : Target
  journal : List Path
  phase : Phase
  inserted : List Path
  reported : List Path
  settled : List Path
  accepted : List Path
  awaiting : List Path

inductive Action where
  | insert (path : Path)
  | overflow
  | change (source : Source)
  | job (path : Path) (copied : Stat)
  | rescan
  | recover (journalOverflow : Bool)
  | advance
  | examine (accepts : Bool)
  | stop
  | group (parent : Path) (hashAgrees : Bool)
  | walk (accepts : Path → Bool)
  | fullScan (scan : FullScan)

def without (path : Path) (paths : List Path) : List Path := paths.filter (· ≠ path)

@[simp] theorem mem_without {p path : Path} {paths : List Path} :
    p ∈ without path paths ↔ p ∈ paths ∧ p ≠ path := by
  simp [without]

namespace FullScan
variable (scan : FullScan) (source : Source)

/-- The target after the scan. -/
def result (target : Target) : Target := fun p =>
  match source.stat p with
  | none => if scan.removable p then none else target p
  | some n => if n.kind = .dir then scan.dirs p else target p

/-- The path is looked at and nothing has to be done. -/
def settles (p : Path) : Bool :=
  match source.stat p with
  | none => true
  | some n => n.kind = .dir || (n.kind = .file && scan.reaches p && !scan.needed p)

/-- A job for the path is accepted. -/
def submits (p : Path) : Bool :=
  match source.stat p with
  | none => false
  | some n => n.kind = .file && scan.reaches p && scan.needed p && scan.accepts p

end FullScan

namespace State

def init (source : Source) (target : Target) : State :=
  ⟨source, target, [], .idle, [], [], [], [], []⟩

section Steps
variable (setting : Setting) (s : State)

/-- An event for the path arrives while the target is paused, or its copy has failed. -/
def insert (path : Path) : State :=
  { s with
    journal := Daemon.insertPath path s.journal
    inserted := Daemon.insertPath path s.inserted
    reported := Daemon.insertPath path s.reported
    settled := without path s.settled
    accepted := without path s.accepted
    awaiting := without path s.awaiting }

/-- A worker finds that the journal has grown too long and clears it. -/
def overflow : State :=
  if Daemon.outageJournalMaxEntries < s.journal.length then
    { s with
      journal := []
      phase := s.phase.reopened
      awaiting := s.awaiting ++ s.journal }
  else s

def change (source : Source) : State :=
  { s with
    source := source
    reported := s.reported.filter fun p => source.stat p = s.source.stat p }

/-- A job copies what it finds on the source. -/
def job (path : Path) (copied : Stat) : State :=
  if path ∈ s.accepted ∧ s.source.stat path ≠ none then
    { s with
      target := Function.update (setting.createDirAll path.dropLast s.target) path (some copied) }
  else s

def settle (path : Path) : State :=
  { s with settled := path :: s.settled, awaiting := without path s.awaiting }

def accept (path : Path) : State :=
  { s with accepted := path :: s.accepted, awaiting := without path s.awaiting }

def passOver (paths : List Path) : State := { s with awaiting := s.awaiting ++ paths }

/-- A path that has been taken from the journal is looked at. -/
def look (path : Path) (accepts : Bool) : State :=
  if needsSync (s.source.stat path) (s.target path) then
    if accepts then s.accept path else s.passOver [path]
  else if s.source.stat path = s.target path then s.settle path
  else s.passOver [path]

/-- The directories of all paths are made before a rescan looks at the first one. -/
def makeParents (paths : List Path) : State :=
  { s with
    target := paths.foldl (fun target p =>
      if p.dropLast = [] then target else setting.createDirAll p.dropLast target) s.target }

def advance : State :=
  match s.phase with
  | .collecting scan shard paths =>
    if shard < setting.shards then
      { s with
        phase := .collecting scan (shard + 1)
          (paths ++ s.journal.filter fun p => setting.shardOf p = shard) }
    else { s with phase := .clearing scan 0 paths }
  | .clearing scan shard paths =>
    if shard < setting.shards then
      { s with
        journal := s.journal.filter fun p => setting.shardOf p ≠ shard
        phase := .clearing scan (shard + 1) paths }
    else
      match scan with
      | .rescan => { s.makeParents setting paths with phase := .rescanning paths }
      | .recovery => { s with phase := .grouping paths paths }
  | .rescanning [] => { s with phase := .done }
  | .children paths todo [] => { s with phase := .grouping paths todo }
  | _ => s

def examine (accepts : Bool) : State :=
  match s.phase with
  | .rescanning (p :: todo) => { s.look p accepts with phase := .rescanning todo }
  | .children paths todo (p :: group) =>
    { s.look p accepts with phase := .children paths todo group }
  | _ => s

/-- A shutdown is noticed, or there is no queue. -/
def stop : State :=
  match s.phase with
  | .rescanning todo => { s.passOver todo with phase := .done }
  | .children paths todo group => { s.passOver group with phase := .grouping paths todo }
  | _ => s

/-- The children of one directory are taken up. They are passed over if the stored hash of the
directory is that of the source. -/
def group (parent : Path) (hashAgrees : Bool) : State :=
  match s.phase with
  | .grouping paths todo =>
    let children := todo.filter fun p => p.dropLast = parent
    let rest := todo.filter fun p => p.dropLast ≠ parent
    if children = [] then s
    else if s.source.stat parent ≠ none ∧ s.target parent ≠ none ∧ hashAgrees then
      { s.passOver children with phase := .grouping paths rest }
    else
      { s with
        target :=
          if s.target parent = none then setting.createDirAll parent s.target else s.target
        phase := .children paths rest children }
  | _ => s

/-- The walk finds the files of a directory that the target does not have. -/
def walks (paths : List Path) (p : Path) : Bool :=
  p.dropLast ∈ paths.map List.dropLast && p ≠ [] && s.target p = none &&
    match s.source.stat p with
    | some n => n.kind = .file
    | none => false

def walk (accepts : Path → Bool) : State :=
  match s.phase with
  | .grouping paths [] =>
    let jobs := s.inserted.filter fun p => s.walks paths p && accepts p
    { s with
      accepted := s.accepted ++ jobs
      awaiting := s.awaiting.filter fun p => p ∉ jobs
      phase := .following }
  | _ => s

def fullScan (scan : FullScan) : State :=
  match s.phase with
  | .following =>
    let target := scan.result s.source s.target
    { s with
      target := target
      settled := s.settled ++
        s.inserted.filter fun p => scan.settles s.source p && target p = s.source.stat p
      accepted := s.accepted ++ s.inserted.filter (scan.submits s.source)
      awaiting := []
      phase := .done }
  | _ => s

/-- The start of a rescan, or of a recovery scan. Without paths there is only the full scan. -/
def start (scan : Scan) (journalOverflow : Bool) : State :=
  if s.phase.resting then
    if s.journal = [] ∨ journalOverflow then { s with phase := .following }
    else { s with phase := .collecting scan 0 [] }
  else s

def step : Action → State
  | .insert path => s.insert path
  | .overflow => s.overflow
  | .change source => s.change source
  | .job path copied => s.job setting path copied
  | .rescan => s.start .rescan false
  | .recover journalOverflow => s.start .recovery journalOverflow
  | .advance => s.advance setting
  | .examine accepts => s.examine accepts
  | .stop => s.stop
  | .group parent hashAgrees => s.group setting parent hashAgrees
  | .walk accepts => s.walk accepts
  | .fullScan scan => s.fullScan scan

end Steps

/-! ## What is expected of a scan, and what it needs -/

/-- Every path that was inserted is in the journal, was found to be the same, or has a job; and
what the source no longer has is gone from the target, unless it is in the journal again. -/
structure Accounted (s : State) : Prop where
  covered : ∀ p ∈ s.inserted, p ∈ s.journal ∨ p ∈ s.settled ∨ p ∈ s.accepted
  gone : ∀ p ∈ s.reported, p ∉ s.journal → s.source.stat p = none → s.target p = none

/-- The comparison tells whether something has to be done, and the job that it takes is accepted. -/
structure Examinable (s : State) (path : Path) (accepts : Bool) : Prop where
  gone : s.source.stat path = none → s.target path = none
  accepted : needsSync (s.source.stat path) (s.target path) = true → accepts = true
  told : ∀ n ∈ s.source.stat path, ∀ m ∈ s.target path, n.len = m.len → n.mtime = m.mtime →
    n.kind = m.kind ∧ n.mtimeNsec = m.mtimeNsec

instance (s : State) (path : Path) (accepts : Bool) : Decidable (s.Examinable path accepts) :=
  decidable_of_iff
    ((s.source.stat path = none → s.target path = none) ∧
      (needsSync (s.source.stat path) (s.target path) = true → accepts = true) ∧
      ∀ n ∈ s.source.stat path, ∀ m ∈ s.target path, n.len = m.len → n.mtime = m.mtime →
        n.kind = m.kind ∧ n.mtimeNsec = m.mtimeNsec)
    ⟨fun h => ⟨h.1, h.2.1, h.2.2⟩, fun h => ⟨h.gone, h.accepted, h.told⟩⟩

/-- The full scan gets to the path, which is a file or a directory, and is not wrong about it. -/
structure Caught (s : State) (scan : FullScan) (path : Path) (n : Stat) : Prop where
  kind : n.kind ≠ .other
  dir : n.kind = .dir → scan.dirs path = some n
  reached : n.kind = .file → scan.reaches path = true
  accepted : n.kind = .file → scan.needed path = true → scan.accepts path = true
  told : n.kind = .file → scan.needed path = false → s.target path = some n

instance (s : State) (scan : FullScan) (path : Path) (n : Stat) :
    Decidable (s.Caught scan path n) :=
  decidable_of_iff
    (n.kind ≠ .other ∧ (n.kind = .dir → scan.dirs path = some n) ∧
      (n.kind = .file → scan.reaches path = true) ∧
      (n.kind = .file → scan.needed path = true → scan.accepts path = true) ∧
      (n.kind = .file → scan.needed path = false → s.target path = some n))
    ⟨fun h => ⟨h.1, h.2.1, h.2.2.1, h.2.2.2.1, h.2.2.2.2⟩,
      fun h => ⟨h.kind, h.dir, h.reached, h.accepted, h.told⟩⟩

/-- What the full scan after a recovery scan has to make good. -/
structure Complete (s : State) (scan : FullScan) : Prop where
  caught : ∀ p ∈ s.awaiting, ∀ n ∈ s.source.stat p, s.Caught scan p n
  removed : ∀ p ∈ s.inserted, p ∉ s.journal → s.source.stat p = none →
    scan.removable p = true ∨ s.target p = none

instance (s : State) (scan : FullScan) : Decidable (s.Complete scan) :=
  decidable_of_iff
    ((∀ p ∈ s.awaiting, ∀ n ∈ s.source.stat p, s.Caught scan p n) ∧
      ∀ p ∈ s.inserted, p ∉ s.journal → s.source.stat p = none →
        scan.removable p = true ∨ s.target p = none)
    ⟨fun h => ⟨h.1, h.2⟩, fun h => ⟨h.caught, h.removed⟩⟩

/-- The directories that a rescan makes are on the source. -/
def ParentsExist (s : State) (paths : List Path) : Prop :=
  ∀ p ∈ paths, p.dropLast = [] ∨ s.source.stat p.dropLast ≠ none

instance (s : State) (paths : List Path) : Decidable (s.ParentsExist paths) :=
  inferInstanceAs (Decidable (∀ _ ∈ _, _))

/-- A step that does not lose a path. A rescan has to get everything right by itself. -/
def Safe (setting : Setting) (s : State) : Action → Prop
  | .insert path => s.phase.Admits setting path
  | .overflow => s.phase.rescans = false ∨ s.journal.length ≤ Daemon.outageJournalMaxEntries
  | .rescan => s.phase.resting = true → s.journal = [] ∨ s.awaiting = []
  | .advance =>
    match s.phase with
    | .clearing .rescan shard paths => setting.shards ≤ shard → s.ParentsExist paths
    | _ => True
  | .examine accepts =>
    match s.phase with
    | .rescanning (p :: _) => s.Examinable p accepts
    | _ => True
  | .stop =>
    match s.phase with
    | .rescanning todo => todo = []
    | _ => True
  | .fullScan scan => s.phase = .following → s.Complete scan
  | .change _ | .job _ _ | .recover _ | .group _ _ | .walk _ => True

/-! ## The invariant -/

structure Inv (setting : Setting) (s : State) : Prop where
  covered : ∀ p ∈ s.inserted, p ∈ s.journal ∨ p ∈ s.phase.pending ∨ p ∈ s.settled ∨
    p ∈ s.accepted ∨ p ∈ s.awaiting
  gone : s.phase.followed = false → ∀ p ∈ s.reported, s.source.stat p = none →
    p ∈ s.journal ∨ p ∈ s.phase.pending ∨ p ∈ s.awaiting ∨ s.target p = none
  admitted : ∀ p ∈ s.journal, s.phase.Admits setting p
  caughtUp : s.phase.rescans = true ∨ s.phase = .done → s.awaiting = []
  reported : ∀ p ∈ s.reported, p ∈ s.inserted

section Invariant
variable {setting : Setting} {s : State}

theorem inv_init (setting : Setting) (source : Source) (target : Target) :
    Inv setting (init source target) :=
  ⟨by simp [init], by simp [init], by simp [init], fun _ => rfl, by simp [init]⟩

theorem Inv.accounted (h : Inv setting s) (hdone : s.phase = .done) : Accounted s := by
  have hawaiting : s.awaiting = [] := h.caughtUp (.inr hdone)
  constructor
  · intro p hp
    have := h.covered p hp
    simpa [hdone, hawaiting, Phase.pending] using this
  · intro p hp hjournal hsource
    have := h.gone (by rw [hdone]; rfl) p hp hsource
    simpa [hdone, hawaiting, Phase.pending, hjournal] using this

theorem mem_insertPath {p path : Path} {journal : List Path} :
    p ∈ Daemon.insertPath path journal ↔ p = path ∨ p ∈ journal := by
  unfold Daemon.insertPath
  split_ifs with h
  · constructor
    · exact .inr
    · rintro (rfl | hp)
      · exact h
      · exact hp
  · rw [List.mem_append, List.mem_singleton, or_comm]

theorem Inv.insert (h : Inv setting s) (path : Path) (hadmits : s.phase.Admits setting path) :
    Inv setting (s.insert path) := by
  refine ⟨fun p hp => ?_, fun hphase p hp hsource => ?_, fun p hp => ?_, fun hphase => ?_,
    fun p hp => ?_⟩
  · by_cases heq : p = path
    · exact .inl (mem_insertPath.mpr (.inl heq))
    · have hp := (mem_insertPath.mp hp).resolve_left heq
      simpa [State.insert, mem_insertPath, heq] using h.covered p hp
  · by_cases heq : p = path
    · exact .inl (mem_insertPath.mpr (.inl heq))
    · have hp := (mem_insertPath.mp hp).resolve_left heq
      simpa [State.insert, mem_insertPath, heq] using h.gone hphase p hp hsource
  · rcases mem_insertPath.mp hp with rfl | hp
    · exact hadmits
    · exact h.admitted p hp
  · have hawaiting := h.caughtUp hphase
    simp only [State.insert, hawaiting]
    rfl
  · exact mem_insertPath.mpr ((mem_insertPath.mp hp).imp_right (h.reported p))

theorem Inv.overflow (h : Inv setting s)
    (hsafe : s.phase.rescans = false ∨ s.journal.length ≤ Daemon.outageJournalMaxEntries) :
    Inv setting s.overflow := by
  unfold State.overflow
  split_ifs with hlong
  · have hrescans : s.phase.rescans = false := by
      rcases hsafe with hrescans | hshort
      · exact hrescans
      · omega
    refine ⟨fun p hp => ?_, fun hphase p hp hsource => ?_, by simp, fun hphase => ?_, h.reported⟩
    · rcases h.covered p hp with hp | hp | hp | hp | hp <;> simp [hp]
    · rw [Phase.reopened_followed] at hphase
      rcases h.gone hphase p hp hsource with hp | hp | hp | hp <;> simp [hp]
    · rcases hphase with hphase | hphase
      · rw [Phase.reopened_rescans, hrescans] at hphase
        cases hphase
      · exact absurd hphase (Phase.reopened_ne_done _)
  · exact h

theorem Inv.change (h : Inv setting s) (source : Source) : Inv setting (s.change source) := by
  refine ⟨h.covered, fun hphase p hp hsource => ?_, h.admitted, h.caughtUp, fun p hp => ?_⟩
  · obtain ⟨hp, hsame⟩ := List.mem_filter.mp hp
    rw [decide_eq_true_eq] at hsame
    exact h.gone hphase p hp (hsame ▸ hsource)
  · exact h.reported p (List.mem_filter.mp hp).1

theorem createDirAll_of_not_prefix {dir q : Path} (target : Target) (hq : ¬ q <+: dir) :
    setting.createDirAll dir target q = target q := by
  unfold Setting.createDirAll
  split_ifs with hblocked
  · rfl
  · exact if_neg fun h => hq h.1

/-- Nothing is made in the place of what the source does not have. -/
theorem createDirAll_of_gone {dir q : Path} (source : Source) (target : Target)
    (hdir : source.stat dir ≠ none) (hq : source.stat q = none) :
    setting.createDirAll dir target q = target q :=
  createDirAll_of_not_prefix target fun hprefix => source.closed dir q hprefix hdir hq

theorem Inv.job (h : Inv setting s) (path : Path) (copied : Stat) :
    Inv setting (s.job setting path copied) := by
  unfold State.job
  split_ifs with hjob
  · refine ⟨h.covered, fun hphase p hp hsource => ?_, h.admitted, h.caughtUp, h.reported⟩
    have hne : p ≠ path := fun heq => hjob.2 (heq ▸ hsource)
    have hdir : s.source.stat path.dropLast ≠ none :=
      s.source.closed path _ (List.dropLast_prefix path) hjob.2
    have htarget : Function.update (setting.createDirAll path.dropLast s.target) path
        (some copied) p = s.target p := by
      rw [Function.update_of_ne hne, createDirAll_of_gone s.source s.target hdir hsource]
    have := h.gone hphase p hp hsource
    rwa [← htarget] at this
  · exact h

/-- The scan gets to another phase, without losing sight of a path. -/
theorem Inv.toPhase (h : Inv setting s) (phase : Phase)
    (hpending : ∀ p ∈ s.phase.pending, p ∈ phase.pending)
    (hfollowed : phase.followed = false → s.phase.followed = false)
    (hadmits : ∀ p ∈ s.journal, phase.Admits setting p)
    (hcaughtUp : phase.rescans = true ∨ phase = .done → s.awaiting = []) :
    Inv setting { s with phase := phase } := by
  refine ⟨fun p hp => ?_, fun hphase p hp hsource => ?_, hadmits, hcaughtUp, h.reported⟩
  · exact (h.covered p hp).imp_right (Or.imp_left (hpending p))
  · exact (h.gone (hfollowed hphase) p hp hsource).imp_right (Or.imp_left (hpending p))

/-- The same, where a full scan follows if it did before. -/
theorem Inv.proceed (h : Inv setting s) (phase : Phase)
    (hpending : ∀ p ∈ s.phase.pending, p ∈ phase.pending)
    (hfollowed : phase.followed = s.phase.followed) (hrescans : phase.rescans = s.phase.rescans)
    (hdone : phase ≠ .done) (hadmits : ∀ p ∈ s.journal, phase.Admits setting p) :
    Inv setting { s with phase := phase } := by
  refine h.toPhase phase hpending (fun hphase => hfollowed ▸ hphase) hadmits fun hphase => ?_
  have hphase := hphase.resolve_right hdone
  exact h.caughtUp (.inl (hrescans ▸ hphase))

theorem Inv.start (h : Inv setting s) (scan : Scan) (journalOverflow : Bool)
    (hscan : s.phase.resting = true → scan = .rescan → s.journal = [] ∨ s.awaiting = []) :
    Inv setting (s.start scan journalOverflow) := by
  unfold State.start
  split_ifs with hresting hempty
  · refine h.toPhase _ ?_ (by simp [Phase.followed]) (fun _ _ => trivial) (by simp [Phase.rescans])
    cases hphase : s.phase <;> simp_all [Phase.resting, Phase.pending]
  · refine h.toPhase _ ?_ ?_ (fun p _ hp => ?_) fun hphase => ?_
    · cases hphase : s.phase <;> simp_all [Phase.resting, Phase.pending]
    · intro _
      cases hphase : s.phase <;> simp_all [Phase.resting, Phase.followed]
    · omega
    · cases scan with
      | rescan => exact (hscan hresting rfl).resolve_left fun hnil => hempty (.inl hnil)
      | recovery => simp [Phase.rescans] at hphase
  · exact h

/-! ### Reading and clearing -/

/-- A shard is read. -/
theorem Inv.collect (h : Inv setting s) {scan : Scan} {shard : ℕ} {paths : List Path}
    (hphase : s.phase = .collecting scan shard paths) :
    Inv setting { s with
      phase := .collecting scan (shard + 1)
        (paths ++ s.journal.filter fun p => setting.shardOf p = shard) } := by
  refine h.proceed _ ?_ (by rw [hphase]; rfl) (by rw [hphase]; rfl) nofun ?_
  · intro p hp
    rw [hphase] at hp
    exact List.mem_append_left _ hp
  · intro p hp hshard
    have hadmitted := h.admitted p hp
    rw [hphase] at hadmitted
    by_cases heq : setting.shardOf p = shard
    · exact List.mem_append_right _ (List.mem_filter.mpr ⟨hp, by simpa using heq⟩)
    · exact List.mem_append_left _ (hadmitted (by omega))

/-- All shards have been read. -/
theorem Inv.collected (h : Inv setting s) {scan : Scan} {shard : ℕ} {paths : List Path}
    (hphase : s.phase = .collecting scan shard paths) (hshard : setting.shards ≤ shard) :
    Inv setting { s with phase := .clearing scan 0 paths } := by
  refine h.proceed _ ?_ (by rw [hphase]; rfl) (by rw [hphase]; rfl) nofun ?_
  · rw [hphase]
    exact fun p hp => hp
  · intro p hp _
    have hadmitted := h.admitted p hp
    rw [hphase] at hadmitted
    exact hadmitted (lt_of_lt_of_le (setting.shardOf_lt p) hshard)

/-- A shard is cleared. What was in it has been collected. -/
theorem Inv.clear (h : Inv setting s) {scan : Scan} {shard : ℕ} {paths : List Path}
    (hphase : s.phase = .clearing scan shard paths) :
    Inv setting { s with
      journal := s.journal.filter fun p => setting.shardOf p ≠ shard
      phase := .clearing scan (shard + 1) paths } := by
  have hkept : ∀ p ∈ s.journal,
      p ∈ s.journal.filter (fun p => setting.shardOf p ≠ shard) ∨ p ∈ s.phase.pending := by
    intro p hp
    have hadmitted := h.admitted p hp
    rw [hphase] at hadmitted ⊢
    by_cases heq : setting.shardOf p = shard
    · exact .inr (hadmitted (by omega))
    · exact .inl (List.mem_filter.mpr ⟨hp, by simpa using heq⟩)
  have hfilter : Inv setting { s with
      journal := s.journal.filter fun p => setting.shardOf p ≠ shard } := by
    refine ⟨fun p hp => ?_, fun hfollowed p hp hsource => ?_,
      fun p hp => h.admitted p (List.mem_filter.mp hp).1, h.caughtUp, h.reported⟩
    · rcases h.covered p hp with hjournal | hrest
      · exact (hkept p hjournal).imp_right .inl
      · exact .inr hrest
    · rcases h.gone hfollowed p hp hsource with hjournal | hrest
      · exact (hkept p hjournal).imp_right .inl
      · exact .inr hrest
  have hphase' : { s with
      journal := s.journal.filter fun p => setting.shardOf p ≠ shard }.phase =
        .clearing scan shard paths := hphase
  refine hfilter.proceed _ ?_ (by rw [hphase']; rfl) (by rw [hphase']; rfl) nofun ?_
  · rw [hphase']
    exact fun p hp => hp
  · intro p hp hshard
    have hadmitted := h.admitted p (List.mem_filter.mp hp).1
    rw [hphase] at hadmitted
    exact hadmitted (by omega)

/-- The directories of the paths are made. -/
theorem Inv.makeParents (h : Inv setting s) {paths : List Path} (hparents : s.ParentsExist paths) :
    Inv setting (s.makeParents setting paths) := by
  have hfold : ∀ (ps : List Path), s.ParentsExist ps → ∀ (target : Target) (q : Path),
      s.source.stat q = none →
      ps.foldl (fun target p =>
        if p.dropLast = [] then target else setting.createDirAll p.dropLast target) target q =
          target q := by
    intro ps
    induction ps with
    | nil => exact fun _ _ _ _ => rfl
    | cons p ps ih =>
      intro hps target q hq
      rw [List.foldl_cons, ih (fun p' hp' => hps p' (List.mem_cons_of_mem _ hp')) _ q hq]
      split_ifs with hroot
      · rfl
      · exact createDirAll_of_gone s.source target
          ((hps p (List.mem_cons_self ..)).resolve_left hroot) hq
  refine ⟨h.covered, fun hphase p hp hsource => ?_, h.admitted, h.caughtUp, h.reported⟩
  have := h.gone hphase p hp hsource
  rwa [← hfold paths hparents s.target p hsource] at this

/-- A rescan has looked at all its paths. -/
theorem Inv.rescanned (h : Inv setting s) (hphase : s.phase = .rescanning []) :
    Inv setting { s with phase := .done } := by
  refine h.toPhase _ ?_ ?_ (fun _ _ => trivial) fun _ => h.caughtUp (.inl ?_)
  · simp [hphase, Phase.pending]
  · simp [hphase, Phase.followed]
  · rw [hphase]
    rfl

theorem Inv.advance (h : Inv setting s) (hsafe : Safe setting s .advance) :
    Inv setting (s.advance setting) := by
  unfold State.advance
  unfold Safe at hsafe
  split
  · rename_i scan shard paths hphase
    split_ifs with hshard
    · exact h.collect hphase
    · exact h.collected hphase (by omega)
  · rename_i scan shard paths hphase
    rw [hphase] at hsafe
    split_ifs with hshard
    · exact h.clear hphase
    · cases scan with
      | rescan =>
        have hparents := h.makeParents (hsafe (by omega))
        have hphase' : (s.makeParents setting paths).phase = .clearing .rescan shard paths := hphase
        refine hparents.proceed _ ?_ (by rw [hphase']; rfl) (by rw [hphase']; rfl) nofun
          fun _ _ => trivial
        rw [hphase']
        exact fun p hp => hp
      | recovery =>
        refine h.proceed _ ?_ (by rw [hphase]; rfl) (by rw [hphase]; rfl) nofun fun _ _ => trivial
        rw [hphase]
        exact fun p hp => hp
  · rename_i hphase
    exact h.rescanned hphase
  · rename_i paths todo hphase
    refine h.proceed _ ?_ (by rw [hphase]; rfl) (by rw [hphase]; rfl) nofun fun _ _ => trivial
    rw [hphase]
    exact fun p hp => hp
  · exact h

/-! ### Looking at the paths -/

theorem look_cases (s : State) (path : Path) (accepts : Bool) :
    s.look path accepts = s.accept path ∨ s.look path accepts = s.settle path ∨
      s.look path accepts = s.passOver [path] := by
  unfold look
  split_ifs
  · exact .inl rfl
  · exact .inr (.inr rfl)
  · exact .inr (.inl rfl)
  · exact .inr (.inr rfl)

/-- Where the comparison tells enough, no path is passed over. -/
theorem look_of_examinable {path : Path} {accepts : Bool} (h : s.Examinable path accepts) :
    s.look path accepts = s.accept path ∨ s.look path accepts = s.settle path := by
  unfold look
  split_ifs with hneeds haccepts hsame
  · exact .inl rfl
  · exact absurd (h.accepted hneeds) haccepts
  · exact .inr rfl
  · exfalso
    have hgone := h.gone
    have htold := h.told
    cases hsource : s.source.stat path with
    | none => exact hsame (by rw [hsource, hgone hsource])
    | some n =>
      cases htarget : s.target path with
      | none => simp [needsSync, hsource, htarget] at hneeds
      | some m =>
        simp only [needsSync, hsource, htarget, Bool.or_eq_true, decide_eq_true_eq, not_or,
          not_not] at hneeds
        obtain ⟨hkind, hnsec⟩ := htold n hsource m htarget hneeds.1 hneeds.2
        obtain ⟨kind, len, mtime, nsec⟩ := n
        obtain ⟨kind', len', mtime', nsec'⟩ := m
        dsimp only at hkind hnsec hneeds
        rw [hsource, htarget, hkind, hnsec, hneeds.1, hneeds.2] at hsame
        exact hsame rfl

/-- What has been looked at is recorded, and nothing is forgotten. -/
theorem mem_look {p path : Path} (accepts : Bool)
    (hp : p = path ∨ p ∈ s.settled ∨ p ∈ s.accepted ∨ p ∈ s.awaiting) :
    p ∈ (s.look path accepts).settled ∨ p ∈ (s.look path accepts).accepted ∨
      p ∈ (s.look path accepts).awaiting := by
  have hcases := look_cases s path accepts
  by_cases heq : p = path
  · subst heq
    rcases hcases with hlook | hlook | hlook <;> rw [hlook] <;>
      simp [accept, settle, passOver]
  · have hp := hp.resolve_left heq
    rcases hcases with hlook | hlook | hlook <;> rw [hlook] <;>
      rcases hp with hp | hp | hp <;> simp [accept, settle, passOver, hp, heq]

theorem look_frame (s : State) (path : Path) (accepts : Bool) :
    (s.look path accepts).source = s.source ∧ (s.look path accepts).target = s.target ∧
      (s.look path accepts).journal = s.journal ∧ (s.look path accepts).inserted = s.inserted ∧
      (s.look path accepts).reported = s.reported := by
  rcases look_cases s path accepts with hlook | hlook | hlook <;> rw [hlook] <;>
    exact ⟨rfl, rfl, rfl, rfl, rfl⟩

/-- A path is looked at, and taken from those that have still to be. No path may be passed over
if no full scan follows. -/
theorem Inv.look (h : Inv setting s) (path : Path) (accepts : Bool) (phase : Phase)
    (hpending : ∀ p ∈ s.phase.pending, p = path ∨ p ∈ phase.pending)
    (hadmits : ∀ p, phase.Admits setting p)
    (hlast : phase.followed = false →
      s.phase.followed = false ∧ s.awaiting = [] ∧ s.Examinable path accepts) :
    Inv setting { s.look path accepts with phase := phase } := by
  obtain ⟨hsource, htarget, hjournal, hinserted, hreported⟩ := look_frame s path accepts
  have hmem := fun p => @mem_look s p path accepts
  have hawaiting : phase.followed = false → (s.look path accepts).awaiting = [] := by
    intro hphase
    obtain ⟨-, hempty, hexaminable⟩ := hlast hphase
    rcases look_of_examinable hexaminable with hlook | hlook
    · simp [hlook, accept, without, hempty]
    · simp [hlook, settle, without, hempty]
  generalize s.look path accepts = s' at *
  refine ⟨fun p hp => ?_, fun hphase p hp hnone => ?_, fun p _ => hadmits p,
    fun hphase => hawaiting (Phase.not_followed hphase), fun p hp => ?_⟩
  · dsimp only at hp ⊢
    rw [hinserted] at hp
    rw [hjournal]
    rcases h.covered p hp with hp | hp | hp
    · exact .inl hp
    · rcases hpending p hp with heq | hp
      · exact .inr (.inr (hmem p (.inl heq)))
      · exact .inr (.inl hp)
    · exact .inr (.inr (hmem p (.inr hp)))
  · dsimp only at hphase hp hnone ⊢
    rw [hsource] at hnone
    rw [hreported] at hp
    rw [hjournal, htarget]
    obtain ⟨hfollowed, hempty, hexaminable⟩ := hlast hphase
    rcases h.gone hfollowed p hp hnone with hp | hp | hp | hp
    · exact .inl hp
    · rcases hpending p hp with rfl | hp
      · exact .inr (.inr (.inr (hexaminable.gone hnone)))
      · exact .inr (.inl hp)
    · rw [hempty] at hp
      cases hp
    · exact .inr (.inr (.inr hp))
  · dsimp only at hp ⊢
    rw [hreported] at hp
    rw [hinserted]
    exact h.reported p hp

theorem Inv.examine (h : Inv setting s) (accepts : Bool)
    (hsafe : Safe setting s (.examine accepts)) : Inv setting (s.examine accepts) := by
  unfold State.examine
  unfold Safe at hsafe
  split
  · rename_i p todo hphase
    rw [hphase] at hsafe
    refine h.look p accepts _ ?_ (fun _ => trivial) fun _ => ⟨?_, h.caughtUp (.inl ?_), hsafe⟩
    · simp [hphase, Phase.pending]
    · rw [hphase]
      rfl
    · rw [hphase]
      rfl
  · rename_i paths todo p group hphase
    refine h.look p accepts _ ?_ (fun _ => trivial) (by simp [Phase.followed])
    intro q hq
    simpa [hphase, Phase.pending, or_assoc] using hq
  · exact h

/-- Before a full scan it is enough that no path is lost sight of. -/
theorem inv_of_followed (hfollowed : s.phase.followed = true)
    (hcovered : ∀ p ∈ s.inserted, p ∈ s.journal ∨ p ∈ s.phase.pending ∨ p ∈ s.settled ∨
      p ∈ s.accepted ∨ p ∈ s.awaiting)
    (hadmits : ∀ p, s.phase.Admits setting p) (hreported : ∀ p ∈ s.reported, p ∈ s.inserted) :
    Inv setting s := by
  refine ⟨hcovered, fun hphase => ?_, fun p _ => hadmits p, fun hphase => ?_, hreported⟩
  · rw [hfollowed] at hphase
    cases hphase
  · rw [Phase.not_followed hphase] at hfollowed
    cases hfollowed

/-- Paths are passed over by a scan that a full scan follows. -/
theorem Inv.passOver (h : Inv setting s) (paths : List Path) (phase : Phase)
    (hpending : ∀ p ∈ s.phase.pending, p ∈ paths ∨ p ∈ phase.pending)
    (hadmits : ∀ p, phase.Admits setting p) (hfollowed : phase.followed = true) :
    Inv setting { s.passOver paths with phase := phase } := by
  refine inv_of_followed hfollowed (fun p hp => ?_) hadmits h.reported
  simp only [State.passOver, List.mem_append]
  rcases h.covered p hp with hp | hp | hp | hp | hp
  · exact .inl hp
  · rcases hpending p hp with hp | hp
    · exact .inr (.inr (.inr (.inr (.inr hp))))
    · exact .inr (.inl hp)
  · exact .inr (.inr (.inl hp))
  · exact .inr (.inr (.inr (.inl hp)))
  · exact .inr (.inr (.inr (.inr (.inl hp))))

theorem Inv.stop (h : Inv setting s) (hsafe : Safe setting s .stop) : Inv setting s.stop := by
  unfold State.stop
  unfold Safe at hsafe
  split
  · rename_i todo hphase
    rw [hphase] at hsafe
    have htodo : todo = [] := hsafe
    subst htodo
    have hsame : s.passOver [] = s := by
      simp [State.passOver]
    rw [hsame]
    exact h.rescanned hphase
  · rename_i paths todo group hphase
    refine h.passOver group _ ?_ (fun _ => trivial) rfl
    intro p hp
    simpa [hphase, Phase.pending] using hp
  · exact h

theorem Inv.group (h : Inv setting s) (parent : Path) (hashAgrees : Bool) :
    Inv setting (s.group setting parent hashAgrees) := by
  unfold State.group
  split
  · rename_i paths todo hphase
    dsimp only
    have hsplit : ∀ p ∈ s.phase.pending, p ∈ todo.filter (fun p => p.dropLast = parent) ∨
        p ∈ todo.filter (fun p => p.dropLast ≠ parent) := by
      intro p hp
      rw [hphase] at hp
      have hp : p ∈ todo := hp
      by_cases hparent : p.dropLast = parent <;> simp [hp, hparent]
    split_ifs
    · exact h
    · exact h.passOver _ _ hsplit (fun _ => trivial) rfl
    all_goals
      refine inv_of_followed rfl (fun p hp => ?_) (fun _ => trivial) h.reported
      have hpending : p ∈ s.phase.pending → p ∈ todo.filter (fun p => p.dropLast = parent) ++
          todo.filter (fun p => p.dropLast ≠ parent) :=
        fun hp => List.mem_append.mpr (hsplit p hp)
      exact (h.covered p hp).imp_right (Or.imp_left hpending)
  · exact h

theorem Inv.walk (h : Inv setting s) (accepts : Path → Bool) : Inv setting (s.walk accepts) := by
  unfold State.walk
  split
  · rename_i paths hphase
    refine inv_of_followed rfl (fun p hp => ?_) (fun _ => trivial) h.reported
    have hold := h.covered p hp
    rw [hphase] at hold
    by_cases hjob : p ∈ s.inserted.filter fun p => s.walks paths p && accepts p
    · exact .inr (.inr (.inr (.inl (List.mem_append_right _ hjob))))
    · rcases hold with hold | hold | hold | hold | hold
      · exact .inl hold
      · cases hold
      · exact .inr (.inr (.inl hold))
      · exact .inr (.inr (.inr (.inl (List.mem_append_left _ hold))))
      · exact .inr (.inr (.inr (.inr (List.mem_filter.mpr ⟨hold, decide_eq_true hjob⟩))))
  · exact h

/-! ### The full scan -/

/-- What the source no longer has is gone after the scan. -/
theorem Complete.result_eq_none {scan : FullScan} (h : s.Complete scan) {p : Path}
    (hp : p ∈ s.inserted) (hjournal : p ∉ s.journal) (hnone : s.source.stat p = none) :
    scan.result s.source s.target p = none := by
  simp only [FullScan.result, hnone]
  rcases h.removed p hp hjournal hnone with hremovable | htarget
  · rw [if_pos hremovable]
  · rw [htarget, ite_self]

/-- A path that awaits the scan is found to be the same by it, or gets a job. -/
theorem Complete.settles_or_submits {scan : FullScan} (h : s.Complete scan) {p : Path}
    (hp : p ∈ s.awaiting) {n : Stat} (hsome : s.source.stat p = some n) :
    (scan.settles s.source p = true ∧ scan.result s.source s.target p = s.source.stat p) ∨
      scan.submits s.source p = true := by
  have hcaught := h.caught p hp n hsome
  simp only [FullScan.settles, FullScan.submits, FullScan.result, hsome]
  cases hkind : n.kind with
  | dir =>
    refine .inl ⟨rfl, ?_⟩
    rw [if_pos rfl, hcaught.dir hkind]
  | file =>
    have hreached := hcaught.reached hkind
    cases hneeded : scan.needed p with
    | true =>
      have haccepts := hcaught.accepted hkind hneeded
      exact .inr (by simp [hreached, haccepts])
    | false =>
      have htold := hcaught.told hkind hneeded
      exact .inl ⟨by simp [hreached], by simp [htold]⟩
  | other => exact absurd hkind hcaught.kind

theorem Inv.fullScan (h : Inv setting s) (scan : FullScan)
    (hsafe : Safe setting s (.fullScan scan)) : Inv setting (s.fullScan scan) := by
  unfold State.fullScan
  split
  · rename_i hphase
    have hcomplete : s.Complete scan := hsafe hphase
    refine ⟨fun p hp => ?_, fun _ p hp hnone => ?_, fun _ _ => trivial, fun _ => rfl, h.reported⟩
    · by_cases hjournal : p ∈ s.journal
      · exact .inl hjournal
      have hold := h.covered p hp
      simp only [hphase, Phase.pending, List.not_mem_nil, false_or] at hold
      dsimp only [Phase.pending]
      rcases hold with hold | hold | hold | hold
      · exact absurd hold hjournal
      · exact .inr (.inr (.inl (List.mem_append_left _ hold)))
      · exact .inr (.inr (.inr (.inl (List.mem_append_left _ hold))))
      · cases hsource : s.source.stat p with
        | none =>
          have hresult := hcomplete.result_eq_none hp hjournal hsource
          refine .inr (.inr (.inl (List.mem_append_right _ (List.mem_filter.mpr ⟨hp, ?_⟩))))
          simp [FullScan.settles, hsource, hresult]
        | some n =>
          rcases hcomplete.settles_or_submits hold hsource with hsettles | hsubmits
          · refine .inr (.inr (.inl (List.mem_append_right _ (List.mem_filter.mpr ⟨hp, ?_⟩))))
            simpa using hsettles
          · exact .inr (.inr (.inr (.inl
              (List.mem_append_right _ (List.mem_filter.mpr ⟨hp, hsubmits⟩)))))
    · by_cases hjournal : p ∈ s.journal
      · exact .inl hjournal
      · exact .inr (.inr (.inr (hcomplete.result_eq_none (h.reported p hp) hjournal hnone)))
  · exact h

/-! ## Every run -/

theorem Inv.step (h : Inv setting s) (a : Action) (hsafe : Safe setting s a) :
    Inv setting (s.step setting a) := by
  cases a with
  | insert path => exact h.insert path hsafe
  | overflow => exact h.overflow hsafe
  | change source => exact h.change source
  | job path copied => exact h.job path copied
  | rescan => exact h.start .rescan false fun hresting _ => hsafe hresting
  | recover journalOverflow => exact h.start .recovery journalOverflow (by simp)
  | advance => exact h.advance hsafe
  | examine accepts => exact h.examine accepts hsafe
  | stop => exact h.stop hsafe
  | group parent hashAgrees => exact h.group parent hashAgrees
  | walk accepts => exact h.walk accepts
  | fullScan scan => exact h.fullScan scan hsafe

/-- Whenever a scan is done, every path is accounted for, if no step of the run loses one. -/
theorem accounted_when_done (setting : Setting) (source : Source) (target : Target)
    (as : List Action) (hsafe : Run.Along (step setting) (Safe setting) (init source target) as) :
    ∀ p, p <+: as → (Run.exec (step setting) (init source target) p).phase = .done →
      Accounted (Run.exec (step setting) (init source target) p) := by
  intro p hp hdone
  have hinv : Inv setting (Run.exec (step setting) (init source target) p) :=
    Run.invariant_prefix (step setting) (I := Inv setting) (fun _ a hsafe h => h.step a hsafe) hsafe
      (inv_init setting source target) p hp
  exact hinv.accounted hdone

instance (setting : Setting) (s : State) : ∀ a, Decidable (Safe setting s a)
  | .insert path => inferInstanceAs (Decidable (s.phase.Admits setting path))
  | .overflow => inferInstanceAs (Decidable (_ ∨ _))
  | .rescan => inferInstanceAs (Decidable (_ → _))
  | .advance =>
    match hphase : s.phase with
    | .clearing .rescan shard paths =>
      decidable_of_iff (setting.shards ≤ shard → s.ParentsExist paths) (by simp only [Safe, hphase])
    | .clearing .recovery _ _ | .idle | .collecting _ _ _ | .rescanning _ | .grouping _ _
    | .children _ _ _ | .following | .done => .isTrue (by simp only [Safe, hphase])
  | .examine accepts =>
    match hphase : s.phase with
    | .rescanning (p :: _) => decidable_of_iff (s.Examinable p accepts) (by simp only [Safe, hphase])
    | .rescanning [] | .clearing _ _ _ | .idle | .collecting _ _ _ | .grouping _ _
    | .children _ _ _ | .following | .done => .isTrue (by simp only [Safe, hphase])
  | .stop =>
    match hphase : s.phase with
    | .rescanning todo => decidable_of_iff (todo = []) (by simp only [Safe, hphase])
    | .clearing _ _ _ | .idle | .collecting _ _ _ | .grouping _ _
    | .children _ _ _ | .following | .done => .isTrue (by simp only [Safe, hphase])
  | .fullScan _ => inferInstanceAs (Decidable (_ → _))
  | .change _ | .job _ _ | .recover _ | .group _ _ | .walk _ => inferInstanceAs (Decidable True)

end Invariant

/-! ### Small scans -/

def directory : Stat := ⟨.dir, 0, 0, 0⟩

/-- The files of a source without directories. -/
def flat (file : String → Option Stat) : Path → Option Stat
  | [] => some directory
  | [name] => file name
  | _ => none

/-- A source of files. -/
def files (file : String → Option Stat) : Source where
  stat := flat file
  closed := by
    rintro p q ⟨r, rfl⟩ hp
    match q, r with
    | [], _ => simp [flat]
    | [_], [] => simpa using hp
    | [_], _ :: _ => simp [flat] at hp
    | _ :: _ :: _, _ => simp [flat] at hp

/-- Two shards, one of them for a single path. -/
def twoShards : Setting where
  shards := 2
  shardOf p := if p = ["a"] then 0 else 1
  shardOf_lt p := by split_ifs <;> omega
  newDir := directory
  newDir_kind := rfl

def newFile : Stat := ⟨.file, 5, 9, 0⟩
def oldFile : Stat := ⟨.file, 3, 1, 7⟩

/-- During the outage a file was made, one was left as it was, and one was deleted. -/
def sourceAfter : Source :=
  files fun name => if name = "a" then some newFile else if name = "b" then some oldFile else none

def targetBefore : Target :=
  flat fun name => if name = "b" then some oldFile else if name = "c" then some oldFile else none

/-- A path comes into the journal before its shard is read. What is gone from the source is
left to a recovery scan. -/
def drained : List Action :=
  [.insert ["a"], .rescan, .advance, .insert ["b"], .advance, .advance, .advance, .advance,
    .advance, .insert ["c"], .examine true, .examine true, .advance, .job ["a"] newFile,
    .recover false, .advance, .advance, .advance, .advance, .advance, .advance, .group [] false,
    .examine false, .advance, .walk fun _ => false,
    .fullScan ⟨fun _ => true, fun _ => false, fun _ => false, fun _ => some directory, fun _ => true⟩]

theorem drained_accounted :
    Run.Along (step twoShards) (Safe twoShards) (init sourceAfter targetBefore) drained ∧
      (Run.exec (step twoShards) (init sourceAfter targetBefore) drained).phase = .done ∧
      (Run.exec (step twoShards) (init sourceAfter targetBefore) drained).inserted =
        [["a"], ["b"], ["c"]] ∧
      Accounted (Run.exec (step twoShards) (init sourceAfter targetBefore) drained) := by
  have hsafe : Run.Along (step twoShards) (Safe twoShards) (init sourceAfter targetBefore)
      drained := by
    decide +kernel
  have hdone : (Run.exec (step twoShards) (init sourceAfter targetBefore) drained).phase =
      .done := by
    decide +kernel
  exact ⟨hsafe, hdone, by decide +kernel,
    accounted_when_done twoShards sourceAfter targetBefore drained hsafe drained List.prefix_rfl hdone⟩

/-- After a rescan of the one path that is in the journal when it begins. -/
def rescanned (target : Target) (path : Path) (between : List Action) : State :=
  Run.exec (step twoShards) (init sourceAfter target)
    ([.insert path, .rescan, .advance, .advance, .advance] ++ between ++
      [.advance, .advance, .advance, .examine true, .advance])

def editedInTheSecond : Target := flat fun _ => some { oldFile with mtimeNsec := 6 }

/-- A file has been deleted on the source; a file has been replaced by another one of the same
length within the second; and a new file is reported between the reading and the clearing of
the journal. None of this is noticed. -/
theorem rescan_loses_paths :
    ((rescanned targetBefore ["c"] []).phase = .done ∧
      (rescanned targetBefore ["c"] []).journal = [] ∧
      (rescanned targetBefore ["c"] []).source.stat ["c"] = none ∧
      (rescanned targetBefore ["c"] []).target ["c"] = some oldFile ∧
      ¬ Accounted (rescanned targetBefore ["c"] [])) ∧
    ((rescanned editedInTheSecond ["b"] []).phase = .done ∧
      ¬ Accounted (rescanned editedInTheSecond ["b"] [])) ∧
    (rescanned targetBefore ["b"] [.insert ["a"]]).phase = .done ∧
      ¬ Accounted (rescanned targetBefore ["b"] [.insert ["a"]]) := by
  refine ⟨⟨by decide +kernel, by decide +kernel, by decide +kernel, by decide +kernel, fun h => ?_⟩,
    ⟨by decide +kernel, fun h => ?_⟩, by decide +kernel, fun h => ?_⟩
  · have hkept : (rescanned targetBefore ["c"] []).target ["c"] ≠ none := by decide +kernel
    exact hkept (h.gone ["c"] (by decide +kernel) (by decide +kernel) (by decide +kernel))
  · have hlost : ¬ (["b"] ∈ (rescanned editedInTheSecond ["b"] []).journal ∨
        ["b"] ∈ (rescanned editedInTheSecond ["b"] []).settled ∨
        ["b"] ∈ (rescanned editedInTheSecond ["b"] []).accepted) := by
      decide +kernel
    exact hlost (h.covered ["b"] (by decide +kernel))
  · have hlost : ¬ (["a"] ∈ (rescanned targetBefore ["b"] [.insert ["a"]]).journal ∨
        ["a"] ∈ (rescanned targetBefore ["b"] [.insert ["a"]]).settled ∨
        ["a"] ∈ (rescanned targetBefore ["b"] [.insert ["a"]]).accepted) := by
      decide +kernel
    exact hlost (h.covered ["a"] (by decide +kernel))

end State

end Foxing.OutageJournal
