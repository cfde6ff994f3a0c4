import Foxing.RetryQueue
import Foxing.TargetContainment

/-!
# Which file a worker asks to have repaired

An event that fails because its file is not on the target, or that comes before the file has
been hydrated, has the file repaired. The repair names it by its path on the source, which is
put together where the failure is met: at the four places where the loop attempts an event,
and at the hydration gate.
-/
namespace Foxing.RepairPaths

inductive Site
  | pressureFlush | retry (attempts : ℕ) | intervalFlush | dispatch | gate
  deriving DecidableEq, Repr

/-- A repair is asked for by the path below the mount point or below the configured path. -/
def absolute (mount path : Path) (job : RepairJob) : Path :=
  match job.root with
  | .mount => Path.under mount job.relPath
  | .path => Path.under path job.relPath

/-- What a site finds: the maps and the queue of the worker, the event with the path that it has
been resolved to, and how the attempt has failed. -/
structure Situation where
  world : World
  queue : RetryQueue
  event : Event
  env : Env
  targetPath : Path
  failure : Failure
  now : ℕ

namespace Situation
variable (x : Situation)

/-- The hydration gate holds the event back. -/
def Gated : Prop :=
  x.env.config.isPathExcluded x.targetPath = false ∧ x.env.hydrating x.event.inode = true ∧
    x.event.eventType.isGated = true ∧ x.world.target.pathExists x.targetPath = false

instance : Decidable x.Gated := inferInstanceAs (Decidable (_ ∧ _ ∧ _ ∧ _))

/-- The jobs that are sent because an attempt has failed. -/
def failureJobs (o : Intake) (attempts : ℕ) : List RepairJob :=
  ((⟨x.world, x.queue, [], [], false⟩ : RetryWorker).onError x.event o attempts x.now
    x.failure).repairs

/-- The jobs that the gate sends in place of an attempt. -/
def gateJobs : List RepairJob :=
  if x.Gated then
    ((processAt x.env none x.event x.targetPath x.world).1.map Outcome.repairs).getD []
  else []

/-- The retry of an event is handled as if the event had been taken under pressure. -/
def jobs : Site → List RepairJob
  | .pressureFlush => x.failureJobs .pressed 0
  | .retry attempts => x.failureJobs .pressed attempts
  | .intervalFlush => x.failureJobs .flushed 0
  | .dispatch => x.failureJobs .received 0
  | .gate => x.gateJobs

/-- Each job names the file of the event: its name in the directory of its parent, below the mount
point of the source. -/
def NamesSource (mount path : Path) (site : Site) : Prop :=
  ∀ job ∈ x.jobs site, ∃ dir, recordedDir x.event.parentInode x.world = some dir ∧
    absolute mount path job = Path.under mount (Path.join dir x.event.name)

/-- A flush at an interval joins the name to the configured path. -/
def SamePath (mount path : Path) : Prop :=
  ∀ dir, recordedDir x.event.parentInode x.world = some dir →
    Path.under path (components x.event.name) = Path.under mount (Path.join dir x.event.name)

end Situation

/-! ## Resolving a path once more -/

theorem recordedDir_insertDir {parent : U64} (hzero : parent ≠ 0) (dir : Path) (w : World) :
    recordedDir parent (w.insertDir parent dir) = some dir := by
  rw [recordedDir, if_neg hzero]
  simp [World.insertDir]

/-- The directory that has been found is the one that is found again. -/
theorem recordedDir_resolveEventPath (parent : U64) (name : String) (w : World) :
    recordedDir parent (resolveEventPath parent name w).2 = recordedDir parent w := by
  by_cases hzero : parent = 0
  · subst hzero
    rw [resolveEventPath_zero]
  rw [resolveEventPath_run hzero]
  cases hdir : w.dirMap parent with
  | some dir => rw [resolveParent_of_dir hdir]
  | none =>
    rw [resolveParent_of_inode hdir]
    cases hentry : w.inodeMap parent with
    | none => rfl
    | some entry =>
      cases hprimary : entry.primaryPath with
      | none => simp [hprimary]
      | some dir =>
        have hdir' : recordedDir parent w = some dir := by
          rw [recordedDir, if_neg hzero, hdir, hentry]
          exact hprimary
        simp only [hprimary]
        exact (recordedDir_insertDir hzero dir w).trans hdir'.symm

/-! ## The jobs of a failure -/

section Failures
variable (e : Event) (s : RetryWorker)

/-- The job that names the file of an event in a directory. -/
def jobIn (dir : Path) : RepairJob := ⟨.mount, Path.join dir e.name, e.inode⟩

theorem repairs_askRepair : (s.askRepair e).repairs =
    s.repairs ++ ((recordedDir e.parentInode s.world).map (jobIn e)).toList := by
  have hpath := resolveEventPath_eq e.parentInode e.name s.world
  unfold RetryWorker.askRepair
  generalize resolveEventPath e.parentInode e.name s.world = r at hpath ⊢
  obtain ⟨path, w⟩ := r
  cases hdir : recordedDir e.parentInode s.world with
  | none =>
    rw [hdir] at hpath
    cases hpath
    exact (List.append_nil _).symm
  | some dir =>
    rw [hdir] at hpath
    cases hpath
    rfl

/-- The path is journaled first, unless the worker panics. -/
theorem journal_fields : (s.journal e).repairs = s.repairs ∧
    recordedDir e.parentInode (s.journal e).world = recordedDir e.parentInode s.world ∧
    (s.journal e).crashed = (s.crashed || (recordedDir e.parentInode s.world).isNone) := by
  have hpath := resolveEventPath_eq e.parentInode e.name s.world
  have hagain := recordedDir_resolveEventPath e.parentInode e.name s.world
  unfold RetryWorker.journal
  generalize resolveEventPath e.parentInode e.name s.world = r at hpath hagain ⊢
  obtain ⟨path, w⟩ := r
  cases hdir : recordedDir e.parentInode s.world with
  | none =>
    rw [hdir] at hpath hagain
    cases hpath
    exact ⟨rfl, hagain, (Bool.or_true _).symm⟩
  | some dir =>
    rw [hdir] at hpath hagain
    cases hpath
    exact ⟨rfl, hagain, (Bool.or_false _).symm⟩

theorem repairs_onErrorClass (e : Event) (s : RetryWorker) (o : Intake) (attempts now : ℕ)
    (f : Failure) : (s.onErrorClass e o attempts now f).repairs = s.repairs ++
      if classifyError f e.eventType = .targetNotFound then
        if o = .flushed then [⟨.path, components e.name, e.inode⟩]
        else ((recordedDir e.parentInode s.world).map (jobIn e)).toList
      else [] := by
  unfold RetryWorker.onErrorClass
  cases hclass : classifyError f e.eventType with
  | targetNotFound =>
    dsimp only
    rw [if_pos rfl]
    split_ifs
    · rfl
    · exact repairs_askRepair e s
  | sourceNotFound | transient | permanent =>
    dsimp only
    rw [if_neg (by simp), List.append_nil]

/-- A failure that is journaled first has its jobs sent if the worker has not panicked. -/
theorem repairs_after_journal (e : Event) (s : RetryWorker) (o : Intake) (attempts now : ℕ)
    (f : Failure) (halive : s.crashed = false) :
    (if (s.journal e).crashed then s.journal e
      else (s.journal e).onErrorClass e o attempts now f).repairs = s.repairs ++
      ((recordedDir e.parentInode s.world).toList.flatMap fun dir =>
        if classifyError f e.eventType = .targetNotFound then
          if o = .flushed then [⟨.path, components e.name, e.inode⟩] else [jobIn e dir]
        else []) := by
  obtain ⟨hrepairs, hagain, hcrashed⟩ := journal_fields e s
  rw [halive, Bool.false_or] at hcrashed
  cases hdir : recordedDir e.parentInode s.world with
  | none =>
    have hpanics : (s.journal e).crashed = true := hcrashed.trans (by rw [hdir]; rfl)
    rw [if_pos hpanics, hrepairs]
    exact (List.append_nil _).symm
  | some dir =>
    have hgoesOn : ¬ (s.journal e).crashed = true := by
      rw [hcrashed, hdir]
      exact Bool.false_ne_true
    rw [if_neg hgoesOn, repairs_onErrorClass, hrepairs, hagain, hdir]
    simp

end Failures

/-! ## The jobs of a site -/

section Sites
variable (x : Situation)

theorem failureJobs_eq (o : Intake) (attempts : ℕ) (ho : o ≠ .paused) :
    x.failureJobs o attempts =
      ((recordedDir x.event.parentInode x.world).toList.flatMap fun dir =>
        if classifyError x.failure x.event.eventType = .targetNotFound then
          if o = .flushed then [⟨.path, components x.event.name, x.event.inode⟩]
          else [jobIn x.event dir]
        else []) := by
  unfold Situation.failureJobs
  cases o with
  | paused => exact absurd rfl ho
  | received =>
    refine (repairs_onErrorClass _ _ _ _ _ _).trans ?_
    rw [List.nil_append]
    cases recordedDir x.event.parentInode x.world <;> simp
  | pressed => exact repairs_after_journal x.event _ .pressed attempts x.now x.failure rfl
  | flushed => exact repairs_after_journal x.event _ .flushed attempts x.now x.failure rfl

theorem gateJobs_eq : x.gateJobs = if x.Gated then
    ((recordedDir x.event.parentInode x.world).map (jobIn x.event)).toList else [] := by
  unfold Situation.gateJobs
  split_ifs with hgated
  · obtain ⟨hexcluded, hhydrating, hgated, habsent⟩ := hgated
    have hpath := resolveEventPath_eq x.event.parentInode x.event.name x.world
    unfold processAt
    simp only [hexcluded, hhydrating, hgated, Bool.false_eq_true, if_false, Bool.and_self, if_true]
    rw [StateM.run_ite_peek, habsent, if_neg Bool.false_ne_true, StateM.run_bind]
    generalize resolveEventPath x.event.parentInode x.event.name x.world = r at hpath ⊢
    obtain ⟨path, w⟩ := r
    cases hdir : recordedDir x.event.parentInode x.world with
    | none | some dir =>
      rw [hdir] at hpath
      cases hpath
      rfl
  · rfl

theorem namesSource_of_jobIn {mount path : Path} {site : Site}
    (h : ∀ job ∈ x.jobs site, ∃ dir, recordedDir x.event.parentInode x.world = some dir ∧
      job = jobIn x.event dir) : x.NamesSource mount path site := by
  intro job hjob
  obtain ⟨dir, hdir, rfl⟩ := h job hjob
  exact ⟨dir, hdir, rfl⟩

/-- Away from the flushes the jobs are those below the mount point. -/
theorem jobIn_of_mem {site : Site} (hsite : site ≠ .intervalFlush) :
    ∀ job ∈ x.jobs site, ∃ dir, recordedDir x.event.parentInode x.world = some dir ∧
      job = jobIn x.event dir := by
  have hfailure : ∀ o attempts, o ≠ .paused → o ≠ .flushed → ∀ job ∈ x.failureJobs o attempts,
      ∃ dir, recordedDir x.event.parentInode x.world = some dir ∧ job = jobIn x.event dir := by
    intro o attempts hpaused hflushed job hjob
    rw [failureJobs_eq x o attempts hpaused, List.mem_flatMap] at hjob
    obtain ⟨dir, hdir, hjob⟩ := hjob
    refine ⟨dir, Option.mem_toList.mp hdir, ?_⟩
    simp only [if_neg hflushed] at hjob
    split_ifs at hjob
    · exact List.mem_singleton.mp hjob
    · cases hjob
  cases site with
  | pressureFlush => exact hfailure .pressed 0 (by simp) (by simp)
  | retry attempts => exact hfailure .pressed attempts (by simp) (by simp)
  | intervalFlush => exact absurd rfl hsite
  | dispatch => exact hfailure .received 0 (by simp) (by simp)
  | gate =>
    intro job hjob
    rw [Situation.jobs, gateJobs_eq] at hjob
    split_ifs at hjob
    · rw [Option.mem_toList, Option.map_eq_some_iff] at hjob
      obtain ⟨dir, hdir, rfl⟩ := hjob
      exact ⟨dir, hdir, rfl⟩
    · cases hjob

/-- A flush at an interval joins the name to the configured path. -/
theorem namesSource_flush_iff (mount path : Path) : x.NamesSource mount path .intervalFlush ↔
    (classifyError x.failure x.event.eventType = .targetNotFound → x.SamePath mount path) := by
  have hjobs := failureJobs_eq x .flushed 0 (by simp)
  simp only [if_true] at hjobs
  constructor
  · intro h hclass dir hdir
    have hmem : ⟨.path, components x.event.name, x.event.inode⟩ ∈ x.jobs .intervalFlush := by
      rw [Situation.jobs, hjobs, if_pos hclass, hdir]
      exact List.mem_singleton_self _
    obtain ⟨dir', hdir', hpath⟩ := h _ hmem
    cases hdir.symm.trans hdir'
    exact hpath
  · intro h job hjob
    rw [Situation.jobs, hjobs, List.mem_flatMap] at hjob
    obtain ⟨dir, hdir, hjob⟩ := hjob
    split_ifs at hjob with hclass
    · obtain rfl := List.mem_singleton.mp hjob
      exact ⟨dir, Option.mem_toList.mp hdir, h hclass dir (Option.mem_toList.mp hdir)⟩
    · cases hjob

end Sites

/-- Every site but the flush at an interval names the file of the event, and this one does so where
the name in the configured path is the same path. -/
theorem repairs_named_iff (x : Situation) (mount path : Path) (site : Site) :
    x.NamesSource mount path site ↔
      (site = .intervalFlush → classifyError x.failure x.event.eventType = .targetNotFound →
        x.SamePath mount path) := by
  by_cases hsite : site = .intervalFlush
  · subst hsite
    rw [namesSource_flush_iff, imp_iff_right rfl]
  · exact iff_of_true (namesSource_of_jobIn x (jobIn_of_mem x hsite)) fun h => absurd h hsite

/-- A write to a file in a directory, which the target does not have. -/
def flushedWrite : Situation where
  world := ⟨.root ⟨493, 0, 0⟩, fun _ => none, fun i => if i = 5 then some ["dir"] else none⟩
  queue := .initial
  event := { Event.zero with eventType := .write, inode := 7, parentInode := 5, name := "file" }
  env := .plain (.root ⟨493, 0, 0⟩)
  targetPath := ["dir", "file"]
  failure := .notFound
  now := 0

/-- The file is looked for at the root of the source. -/
theorem flushedWrite_misnamed :
    ¬ flushedWrite.NamesSource ["/", "srv"] ["/", "srv"] .intervalFlush := by
  intro h
  have hsame := (namesSource_flush_iff flushedWrite _ _).mp h rfl ["dir"] rfl
  exact absurd hsame (by decide)

end Foxing.RepairPaths
