import Foxing.HydrationRequests
import Foxing.Lib.Obligation

/-!
# Requests for scans that get lost

The marks of a run: that a scan has been asked for, by one of the flags, by a
journal that overflowed or by a repair job for the root of a source, and that a
scan begins. A request is lost if it is pending nowhere and no scan that would
serve it has begun since.
-/
namespace Foxing.Daemon
open Obligation

/-- The ways in which a scan of a source is asked for. -/
inductive Request (σ τ : Type*) where
  | rescan (s : σ)
  | recovery (s : σ)
  | overflow (s : σ) (t : τ)
  | root (s : σ)

inductive Mark (σ τ : Type*) where
  | requested (r : Request σ τ)
  /-- A scan of a source begins. -/
  | scan (s : σ) (recovery full : Bool)
  /-- A full scan of every source that has targets begins. -/
  | scanAll (targets : σ → List τ)

variable {σ τ : Type*}

def Mark.Asks (m : Mark σ τ) (r : Request σ τ) : Prop := m = .requested r

/-- A recovery needs a recovery scan, an overflow a full one. -/
def Mark.Serves : Mark σ τ → Request σ τ → Prop
  | .requested _, _ => False
  | .scan s recovery _, .recovery s' => s = s' ∧ recovery = true
  | .scan s _ full, .overflow s' _ => s = s' ∧ full = true
  | .scan s _ _, .rescan s' => s = s'
  | .scan s _ _, .root s' => s = s'
  | .scanAll _, .recovery _ => False
  | .scanAll targets, .overflow s _ => targets s ≠ []
  | .scanAll targets, .rescan s => targets s ≠ []
  | .scanAll targets, .root s => targets s ≠ []

def scanTerms : Terms (Mark σ τ) (Request σ τ) := ⟨Mark.Asks, Mark.Serves⟩

/-- The request is still where the consumer finds it. -/
def Pending (d : Daemon σ τ) : Request σ τ → Prop
  | .rescan s => (d.hydration s).requestRescan = true
  | .recovery s => (d.hydration s).requestRecoveryScan = true
  | .overflow s t => (d.target s t).outageJournalOverflowed = true
  | .root s => (s, []) ∈ d.repairs

/-- The repair jobs for roots among those that are sent. -/
def rootMarks (sent : List (σ × Path)) : List (Mark σ τ) :=
  (sent.filter fun x => x.2 = []).map fun x => .requested (.root x.1)

variable [DecidableEq σ] [DecidableEq τ]

/-- The marks of a step. -/
def marks (d : Daemon σ τ) : Action σ τ → List (Mark σ τ)
  | .limitJournal s t =>
    if (d.target s t).outageJournal.length > outageJournalMaxEntries then
      [.requested (.overflow s t)] else []
  | .handled s t o retried worker e x =>
    (if x.error = none ∧ retried = false ∧ o ≠ .paused ∧ (d.target s t).errorStreak worker > 5 then
      [.requested (.rescan s)] else []) ++
    rootMarks ((d.handled s t o retried worker e x).repairs.drop d.repairs.length)
  | .mountCheck s t present =>
    if (d.target s t).paused = false ∧ present = false then [.requested (.recovery s)] else []
  | .health s _ _ probe =>
    match probe with
    | .lost => []
    | .recovered => [.requested (.recovery s)]
    | .remounted => [.requested (.recovery s)]
  | .takeJob i _ recovered =>
    match d.jobs[i]? with
    | none => []
    | some job => if recovered then [.requested (.rescan job.source)] else []
  | .checkRequests s now =>
    if d.Requested s ∧ d.ScanDue now then
      if (d.hydration s).requestRecoveryScan then
        [.scan s true ((d.targets s).any fun t => (d.target s t).outageJournalOverflowed)]
      else [.scan s false (d.JournalsEmpty s)]
    else []
  | .takeRepair now _ =>
    match d.repairs with
    | [] => []
    | (s, path) :: _ =>
      if s = d.rootSource ∧ path = [] ∧ d.ScanDue now then [.scanAll d.targets] else []
  | .targetedRescan s t =>
    if (d.target s t).outageJournal = [] then [.scan s false true] else []
  | _ => []

/-- The daemon with the log of its marks. -/
def loggedStep (hash : U64 → ℕ) : Daemon σ τ × List (Mark σ τ) → Action σ τ →
    Daemon σ τ × List (Mark σ τ) :=
  logged (step hash) marks

/-- Nothing that has been asked for is lost. -/
def NoRequestLost (x : Daemon σ τ × List (Mark σ τ)) : Prop := NoneLost scanTerms Pending x

/-- The condition on a step. When the requests of a source are taken, the last scan of any
source is more than five seconds old, or a scan of this source has begun since they were
made. The same holds when the last repair job for a root is taken, which moreover is that
of the source whose root is compared, with a target to scan for. -/
def RequestSafe (x : Daemon σ τ × List (Mark σ τ)) : Action σ τ → Prop
  | .checkRequests s now =>
    x.1.ScanDue now ∨
      ¬ Outstanding scanTerms x.2 (.rescan s) ∧ ¬ Outstanding scanTerms x.2 (.recovery s)
  | .takeRepair now _ =>
    ∀ s rest, x.1.repairs = (s, []) :: rest → Outstanding scanTerms x.2 (.root s) →
      (s, []) ∈ rest ∨ s = x.1.rootSource ∧ x.1.ScanDue now ∧ x.1.targets s ≠ []
  | _ => True

/-! ## Steps that take no request back -/

section Retains
variable {d d' d'' : Daemon σ τ} {s : σ} {t : τ}

/-- What was pending is pending still. -/
def Retains (d d' : Daemon σ τ) : Prop := ∀ r, d.Pending r → d'.Pending r

omit [DecidableEq σ] [DecidableEq τ] in
theorem Retains.trans (h : Retains d d') (h' : Retains d' d'') : Retains d d'' :=
  fun r hr => h' r (h r hr)

omit [DecidableEq σ] [DecidableEq τ] in
theorem retains_refl (d : Daemon σ τ) : Retains d d := fun _ => id

theorem retains_onTarget {f : TargetState → TargetState}
    (hf : (d.target s t).outageJournalOverflowed = true →
      (f (d.target s t)).outageJournalOverflowed = true) :
    Retains d (d.onTarget s t f) := by
  intro r hr
  cases r with
  | overflow s' t' =>
    simp only [Pending, onTarget_target] at hr ⊢
    split_ifs with h
    · rw [h.1, h.2] at hr
      exact hf hr
    · exact hr
  | rescan s' => exact hr
  | recovery s' => exact hr
  | root s' => exact hr

omit [DecidableEq τ] in
theorem retains_onHydration {f : HydrationState → HydrationState}
    (hrescan : (d.hydration s).requestRescan = true → (f (d.hydration s)).requestRescan = true)
    (hrecovery : (d.hydration s).requestRecoveryScan = true →
      (f (d.hydration s)).requestRecoveryScan = true) :
    Retains d (d.onHydration s f) := by
  intro r hr
  cases r with
  | rescan s' =>
    simp only [Pending, onHydration_hydration] at hr ⊢
    split_ifs with h
    · exact hrescan (h ▸ hr)
    · exact hr
  | recovery s' =>
    simp only [Pending, onHydration_hydration] at hr ⊢
    split_ifs with h
    · exact hrecovery (h ▸ hr)
    · exact hr
  | overflow s' t' => exact hr
  | root s' => exact hr

omit [DecidableEq σ] [DecidableEq τ] in
theorem retains_repairs (d : Daemon σ τ) (new : List (σ × Path)) :
    Retains d { d with repairs := d.repairs ++ new } := by
  intro r hr
  cases r with
  | root s => exact List.mem_append_left _ hr
  | rescan s => exact hr
  | recovery s => exact hr
  | overflow s t => exact hr

omit [DecidableEq τ] in
theorem retains_requestRescan (d : Daemon σ τ) (s : σ) : Retains d (d.requestRescan s) :=
  retains_onHydration (fun _ => rfl) id

omit [DecidableEq τ] in
theorem retains_requestRecoveryScan (d : Daemon σ τ) (s : σ) :
    Retains d (d.requestRecoveryScan s) :=
  retains_onHydration id fun _ => rfl

theorem journalPath_overflowed (path : Option Path) (T : TargetState) :
    (journalPath path T).outageJournalOverflowed = T.outageJournalOverflowed := by
  cases path <;> rfl

theorem countError_overflowed (o : Intake) (worker : ℕ) (error : Option ErrorClass)
    (T : TargetState) :
    (countError o worker error T).outageJournalOverflowed = T.outageJournalOverflowed := by
  unfold countError
  split_ifs <;> rfl

theorem retains_pushEvent (hash : U64 → ℕ) (e : Event) (path : Path) :
    Retains d (d.pushEvent s t hash e path) := by
  unfold pushEvent
  split
  · exact retains_refl d
  · next pushed q _ =>
    have hqueue : Retains d (d.onTarget s t fun T => { T with queue := q }) := retains_onTarget id
    dsimp only
    split_ifs
    · exact hqueue.trans fun r hr => by cases r <;> exact hr
    · exact hqueue

theorem retains_receive (tin : EventTin) (worker : ℕ) (path : Option Path) :
    Retains d (d.receive s t tin worker path) := by
  refine retains_onTarget fun h => ?_
  split_ifs with hworker
  · dsimp only
    split
    · exact h
    · split_ifs
      · exact h
      · rw [journalPath_overflowed]
        exact h
  · exact h

theorem retains_limitJournal : Retains d (d.limitJournal s t) := by
  refine retains_onTarget fun h => ?_
  split_ifs
  · rfl
  · exact h

theorem retains_onFailure (o : Intake) (e : Event) (c : ErrorClass) (x : AttemptEnd) :
    Retains d (d.onFailure s t o e c x) := by
  unfold onFailure
  by_cases ho : o = .paused
  · rw [if_pos ho]
    exact retains_refl d
  rw [if_neg ho]
  have hjournal : Retains d
      (if o = .received then d else d.onTarget s t (journalPath x.journalPath)) := by
    split_ifs
    · exact retains_refl d
    · exact retains_onTarget fun h => (journalPath_overflowed _ _).trans h
  cases c with
  | targetNotFound =>
    dsimp only
    split
    · exact hjournal.trans (retains_repairs _ _)
    · exact hjournal.trans (retains_repairs _ _)
  | sourceNotFound => exact hjournal
  | transient => exact hjournal
  | permanent => exact hjournal

omit [DecidableEq τ] in
theorem retains_onSuccess (o : Intake) (retried : Bool) (streak : ℕ) :
    Retains d (d.onSuccess s o retried streak) := by
  unfold onSuccess
  split_ifs
  · exact retains_requestRescan d s
  · exact retains_refl d

/-- The count of the failures and the repair jobs of an attempt. -/
theorem retains_counted (o : Intake) (retried : Bool) (worker : ℕ) (x : AttemptEnd) :
    Retains d (if retried then { d with repairs := d.repairs ++ x.sent.map fun p => (s, p) } else
      { d with repairs := d.repairs ++ x.sent.map fun p => (s, p) }.onTarget s t
        (countError o worker x.error)) := by
  have hsent := retains_repairs d (x.sent.map fun p => (s, p))
  split_ifs
  · exact hsent
  · exact hsent.trans (retains_onTarget fun h => (countError_overflowed _ _ _ _).trans h)

theorem retains_handled (o : Intake) (retried : Bool) (worker : ℕ) (e : Event) (x : AttemptEnd) :
    Retains d (d.handled s t o retried worker e x) := by
  have hcounted : Retains d _ := retains_counted (s := s) (t := t) o retried worker x
  unfold handled
  cases herror : x.error with
  | none =>
    rw [herror] at hcounted
    exact hcounted.trans (retains_onSuccess o retried _)
  | some c =>
    rw [herror] at hcounted
    exact hcounted.trans (retains_onFailure o e c x)

theorem retains_mountCheck (present : Bool) : Retains d (d.mountCheck s t present) := by
  unfold mountCheck
  split_ifs
  · have hpaused : Retains d (d.onTarget s t fun T => { T with paused := true }) :=
      retains_onTarget id
    exact hpaused.trans (retains_requestRecoveryScan _ s)
  · exact retains_refl d

theorem retains_health (now : ℤ) (probe : Probe) : Retains d (d.health s t now probe) := by
  cases probe with
  | lost =>
    show Retains d (d.onTarget s t fun T => { T with paused := true })
    exact retains_onTarget id
  | recovered =>
    have hpaused : Retains d (d.onTarget s t fun T => { T with paused := false }) :=
      retains_onTarget id
    exact (hpaused.trans (retains_requestRecoveryScan _ s)).trans
      fun r hr => by cases r <;> exact hr
  | remounted => exact (retains_requestRecoveryScan d s).trans fun r hr => by cases r <;> exact hr

theorem retains_targetedRescan : Retains d (d.targetedRescan s t) := by
  unfold targetedRescan
  split_ifs
  · exact fun r hr => by cases r <;> exact hr
  · exact retains_onTarget id

omit [DecidableEq τ] in
theorem retains_takeJob (i : ℕ) (skipped recovered : Bool) :
    Retains d (d.takeJob i skipped recovered) := by
  unfold takeJob
  split
  · exact retains_refl d
  next job _ =>
  have hjobs : Retains d ({ d with jobs := d.jobs.eraseIdx i }.finishJob job skipped) := by
    unfold finishJob
    split_ifs
    · exact fun r hr => by cases r <;> exact hr
    · have herased : Retains d { d with jobs := d.jobs.eraseIdx i } :=
        fun r hr => by cases r <;> exact hr
      exact herased.trans (retains_onHydration id id)
  dsimp only
  split_ifs
  · exact hjobs.trans (retains_requestRescan _ _)
  · exact hjobs

end Retains

/-! ## New requests -/

omit [DecidableEq σ] [DecidableEq τ] in
theorem mem_rootMarks {sent : List (σ × Path)} {r : Request σ τ}
    (h : Mark.requested r ∈ rootMarks sent) : ∃ s, r = .root s ∧ (s, []) ∈ sent := by
  obtain ⟨⟨s, path⟩, hx, hr⟩ := List.mem_map.mp h
  obtain ⟨hmem, hpath⟩ := List.mem_filter.mp hx
  obtain rfl : path = [] := by simpa using hpath
  cases hr
  exact ⟨s, rfl, hmem⟩

/-- What a step asks for is pending after it. -/
theorem pending_of_marks (hash : U64 → ℕ) {d : Daemon σ τ} {a : Action σ τ} {r : Request σ τ}
    (h : Mark.requested r ∈ d.marks a) : (d.step hash a).Pending r := by
  cases a with
  | limitJournal s t =>
    simp only [marks] at h
    split_ifs at h with hlong
    · obtain rfl : r = .overflow s t := by simpa using h
      simp [step, limitJournal, Pending, onTarget_target, hlong]
    · cases h
  | handled s t o retried worker e x =>
    simp only [marks, List.mem_append] at h
    rcases h with h | h
    · split_ifs at h with hcond
      · obtain rfl : r = .rescan s := by simpa using h
        obtain ⟨herror, hrequest⟩ := hcond
        simp only [step, handled, herror, onSuccess, if_pos hrequest]
        simp [Pending, requestRescan, onHydration_hydration]
      · cases h
    · obtain ⟨s', rfl, hmem⟩ := mem_rootMarks h
      exact List.mem_of_mem_drop hmem
  | mountCheck s t present =>
    simp only [marks] at h
    split_ifs at h with hgone
    · obtain rfl : r = .recovery s := by simpa using h
      simp [step, mountCheck, hgone, Pending, requestRecoveryScan, onHydration_hydration]
    · cases h
  | health s t now probe =>
    have hr : probe ≠ .lost ∧ r = .recovery s := by
      cases probe <;> simp [marks] at h <;> simp [h]
    obtain ⟨hprobe, rfl⟩ := hr
    cases probe with
    | lost => exact absurd rfl hprobe
    | recovered | remounted =>
      simp [step, health, Pending, requestRecoveryScan, onHydration_hydration]
  | takeJob i skipped recovered =>
    simp only [marks] at h
    cases hjob : d.jobs[i]? with
    | none => simp [hjob] at h
    | some job =>
      simp only [hjob] at h
      split_ifs at h with hrecovered
      · obtain rfl : r = .rescan job.source := by simpa using h
        simp [step, takeJob, hjob, hrecovered, Pending, requestRescan, onHydration_hydration]
      · cases h
  | checkRequests s now =>
    simp only [marks] at h
    split_ifs at h <;> simp at h
  | takeRepair now accepted =>
    simp only [marks] at h
    split at h
    · cases h
    · split_ifs at h <;> simp at h
  | targetedRescan s t =>
    simp only [marks] at h
    split_ifs at h <;> simp at h
  | push s t e path => cases h
  | receive s t tin worker path => cases h
  | workerExit s t worker => cases h
  | submitJob s t path accepted => cases h
  | collectJournal s t => cases h

/-! ## Steps that take requests -/

section Taken
variable {d : Daemon σ τ} {s : σ}

omit [DecidableEq τ] in
theorem clearRequests_rescan (s' : σ) :
    ((d.clearRequests s).hydration s').requestRescan =
      (if s' = s then false else (d.hydration s').requestRescan) := by
  rw [clearRequests, onHydration_hydration]
  split_ifs <;> rfl

omit [DecidableEq τ] in
theorem clearRequests_recovery (s' : σ) :
    ((d.clearRequests s).hydration s').requestRecoveryScan =
      (if s' = s then false else (d.hydration s').requestRecoveryScan) := by
  rw [clearRequests, onHydration_hydration]
  split_ifs <;> rfl

theorem takeOverflow_hydration : (d.takeOverflow s).hydration = d.hydration := by
  unfold takeOverflow
  split <;> rfl

theorem takeOverflow_repairs : (d.takeOverflow s).repairs = d.repairs := by
  unfold takeOverflow
  split <;> rfl

/-- An overflow is taken only where one is found. -/
theorem takeOverflow_overflowed {s' : σ} {t' : τ}
    (h : (d.target s' t').outageJournalOverflowed = true) :
    ((d.takeOverflow s).target s' t').outageJournalOverflowed = true ∨
      s' = s ∧ ((d.targets s).any fun t => (d.target s t).outageJournalOverflowed) = true := by
  unfold takeOverflow
  split
  · next t ht =>
    rw [onTarget_target]
    split_ifs with heq
    · have hfound : (d.target s t).outageJournalOverflowed = true :=
        List.find?_some (p := fun t => (d.target s t).outageJournalOverflowed) ht
      exact .inr ⟨heq.1, List.any_eq_true.mpr ⟨t, List.mem_of_find?_eq_some ht, hfound⟩⟩
    · exact .inl h
  · exact .inl h

theorem checkRequests_hydration (now : ℤ) :
    (d.checkRequests s now).hydration = (d.clearRequests s).hydration := by
  unfold checkRequests
  dsimp only
  split_ifs
  · exact takeOverflow_hydration
  · rfl
  · rfl
  · rfl

theorem checkRequests_repairs (now : ℤ) : (d.checkRequests s now).repairs = d.repairs := by
  unfold checkRequests
  dsimp only
  split_ifs
  · exact takeOverflow_repairs
  · rfl
  · rfl
  · rfl

/-- An overflow is taken by a recovery scan only. -/
theorem checkRequests_overflowed {now : ℤ} {s' : σ} {t' : τ}
    (h : (d.target s' t').outageJournalOverflowed = true) :
    ((d.checkRequests s now).target s' t').outageJournalOverflowed = true ∨
      s' = s ∧ d.marks (.checkRequests s now) = [.scan s true true] := by
  unfold checkRequests
  dsimp only
  split_ifs with hscan hrecovery hempty
  · have htaken := takeOverflow_overflowed (d := { d.clearRequests s with lastFullScan := now })
      (s := s) h
    refine htaken.imp id ?_
    rintro ⟨heq, hany⟩
    refine ⟨heq, ?_⟩
    have hoverflow : ((d.targets s).any fun t => (d.target s t).outageJournalOverflowed) = true :=
      hany
    simp only [marks]
    rw [if_pos ⟨by simpa using hscan.1, hscan.2⟩, if_pos hrecovery, hoverflow]
  · exact .inl h
  · exact .inl h
  · exact .inl h

/-- When the requests of a source are taken and a scan is due, it serves them. -/
theorem serves_checkRequests {now : ℤ} {r : Request σ τ} (hr : r = .rescan s ∨ r = .recovery s)
    (hdue : d.ScanDue now) (hpending : d.Pending r) :
    ∃ m ∈ d.marks (.checkRequests s now), m.Serves r := by
  have hrequested : d.Requested s := by
    rcases hr with rfl | rfl
    · exact .inl hpending
    · exact .inr hpending
  simp only [marks]
  rw [if_pos ⟨hrequested, hdue⟩]
  cases hrecovery : (d.hydration s).requestRecoveryScan with
  | true =>
    refine ⟨_, List.mem_singleton.mpr rfl, ?_⟩
    rcases hr with rfl | rfl
    · exact rfl
    · exact ⟨rfl, rfl⟩
  | false =>
    refine ⟨_, List.mem_singleton.mpr rfl, ?_⟩
    rcases hr with rfl | rfl
    · exact rfl
    · rw [Pending, hrecovery] at hpending
      cases hpending

omit [DecidableEq τ] in
theorem takeRepair_hydration (now : ℤ) (accepted : τ → Bool) (s' : σ) :
    ((d.takeRepair now accepted).hydration s').requestRescan = (d.hydration s').requestRescan ∧
    ((d.takeRepair now accepted).hydration s').requestRecoveryScan =
      (d.hydration s').requestRecoveryScan := by
  unfold takeRepair
  split
  · exact ⟨rfl, rfl⟩
  · dsimp only
    split_ifs
    · exact ⟨rfl, rfl⟩
    · exact ⟨rfl, rfl⟩
    · exact ⟨rfl, rfl⟩
    · simp only [submitJobs, onHydration_hydration]
      split_ifs with heq
      · rw [heq]
        exact ⟨rfl, rfl⟩
      · exact ⟨rfl, rfl⟩

omit [DecidableEq τ] in
theorem takeRepair_target (now : ℤ) (accepted : τ → Bool) :
    (d.takeRepair now accepted).target = d.target := by
  unfold takeRepair
  split
  · rfl
  · dsimp only
    split_ifs <;> rfl

omit [DecidableEq τ] in
theorem takeRepair_repairs (now : ℤ) (accepted : τ → Bool) :
    (d.takeRepair now accepted).repairs = d.repairs.tail := by
  unfold takeRepair
  split
  · next h => rw [h, List.tail_nil]
  · next h =>
    rw [h, List.tail_cons]
    dsimp only
    split_ifs <;> rfl

end Taken

/-! ## Runs -/

section Runs
variable {hash : U64 → ℕ} {x : Daemon σ τ × List (Mark σ τ)}

/-- Where a step takes nothing back, nothing is lost. -/
theorem noRequestLost_of_retains (h : NoRequestLost x) {a : Action σ τ}
    (hretains : Retains x.1 (x.1.step hash a)) : NoRequestLost (loggedStep hash x a) := by
  refine NoneLost.step h (fun r hr => ?_) (fun r _ hpending _ => hretains r hpending)
  obtain ⟨m, hm, rfl⟩ := hr.exists_asks
  exact pending_of_marks hash hm

theorem noRequestLost_checkRequests (h : NoRequestLost x) (s : σ) (now : ℤ) :
    NoRequestLost (loggedStep hash x (.checkRequests s now)) ↔
      RequestSafe x (.checkRequests s now) := by
  constructor
  · intro hafter
    by_contra hunsafe
    simp only [RequestSafe, not_or, not_and_or, not_not] at hunsafe
    obtain ⟨hdue, hout⟩ := hunsafe
    have hmarks : x.1.marks (.checkRequests s now) = [] := by
      simp only [marks]
      rw [if_neg fun hscan => hdue hscan.2]
    -- No scan begins, and the flags are gone.
    have hpending : ∀ r, Outstanding scanTerms x.2 r → (x.1.checkRequests s now).Pending r := by
      intro r hr
      refine hafter r ?_
      simpa [loggedStep, logged, hmarks] using hr
    rcases hout with hout | hout
    · have hflag := hpending _ hout
      simp [Pending, checkRequests_hydration, clearRequests_rescan] at hflag
    · have hflag := hpending _ hout
      simp [Pending, checkRequests_hydration, clearRequests_recovery] at hflag
  · intro hsafe
    refine NoneLost.step h (fun r hr => ?_) (fun r hr hpending hserves => ?_)
    · obtain ⟨m, hm, rfl⟩ := hr.exists_asks
      exact pending_of_marks hash hm
    -- A request of this source that is taken is served, since a scan is due.
    have htaken : r ≠ .rescan s ∧ r ≠ .recovery s := by
      by_contra hno
      have hr' : r = .rescan s ∨ r = .recovery s := by tauto
      have hdue : x.1.ScanDue now := by
        rcases hsafe with hdue | ⟨hrescan, hrecovery⟩
        · exact hdue
        · rcases hr' with rfl | rfl
          · exact absurd hr hrescan
          · exact absurd hr hrecovery
      obtain ⟨m, hm, hserve⟩ := serves_checkRequests hr' hdue hpending
      exact hserves m hm hserve
    cases r with
    | rescan s' =>
      have hne : s' ≠ s := fun heq => htaken.1 (by rw [heq])
      simpa [step, Pending, checkRequests_hydration, clearRequests_rescan, hne] using hpending
    | recovery s' =>
      have hne : s' ≠ s := fun heq => htaken.2 (by rw [heq])
      simpa [step, Pending, checkRequests_hydration, clearRequests_recovery, hne] using hpending
    | overflow s' t' =>
      rcases checkRequests_overflowed (s := s) hpending with hkept | ⟨rfl, hmarks⟩
      · exact hkept
      · refine absurd ?_ (hserves (.scan s' true true) (by rw [hmarks]; simp))
        exact ⟨rfl, rfl⟩
    | root s' =>
      simpa [step, Pending, checkRequests_repairs] using hpending

theorem noRequestLost_takeRepair (h : NoRequestLost x) (now : ℤ) (accepted : τ → Bool) :
    NoRequestLost (loggedStep hash x (.takeRepair now accepted)) ↔
      RequestSafe x (.takeRepair now accepted) := by
  constructor
  · intro hafter s rest hrepairs hout
    by_cases hscan : s = x.1.rootSource ∧ x.1.ScanDue now ∧ x.1.targets s ≠ []
    · exact .inr hscan
    -- No scan of the source begins, so that another job for the root must be there.
    have hserves : ∀ m ∈ x.1.marks (.takeRepair now accepted), ¬ m.Serves (.root s) := by
      intro m hm hserve
      simp only [marks, hrepairs] at hm
      split_ifs at hm with hall
      · obtain rfl : m = .scanAll x.1.targets := by simpa using hm
        exact hscan ⟨hall.1, hall.2.2, hserve⟩
      · cases hm
    have hpending : (x.1.takeRepair now accepted).Pending (.root s) :=
      hafter _ (outstanding_append.mpr (.inr ⟨hout, hserves⟩))
    rw [Pending, takeRepair_repairs, hrepairs, List.tail_cons] at hpending
    exact .inl hpending
  · intro hsafe
    refine NoneLost.step h (fun r hr => ?_) (fun r hr hpending hserves => ?_)
    · obtain ⟨m, hm, rfl⟩ := hr.exists_asks
      exact pending_of_marks hash hm
    cases r with
    | rescan s' => exact (takeRepair_hydration now accepted s').1.trans hpending
    | recovery s' => exact (takeRepair_hydration now accepted s').2.trans hpending
    | overflow s' t' =>
      show ((x.1.takeRepair now accepted).target s' t').outageJournalOverflowed = true
      rw [takeRepair_target]
      exact hpending
    | root s' =>
      show (s', []) ∈ (x.1.takeRepair now accepted).repairs
      rw [takeRepair_repairs]
      cases hrepairs : x.1.repairs with
      | nil =>
        rw [Pending, hrepairs] at hpending
        cases hpending
      | cons job rest =>
        rw [Pending, hrepairs, List.mem_cons] at hpending
        rcases hpending with rfl | hrest
        · rcases hsafe s' rest hrepairs hr with hrest | ⟨hroot, hdue, htargets⟩
          · exact hrest
          · have hall : x.1.marks (.takeRepair now accepted) = [.scanAll x.1.targets] := by
              simp only [marks, hrepairs]
              rw [if_pos ⟨hroot, trivial, hdue⟩]
            exact absurd htargets (hserves (.scanAll x.1.targets) (by rw [hall]; simp))
        · exact hrest

/-- A step loses no request exactly when it is safe. -/
theorem noRequestLost_step (h : NoRequestLost x) (a : Action σ τ) :
    NoRequestLost (loggedStep hash x a) ↔ RequestSafe x a := by
  have hkeep : Retains x.1 (x.1.step hash a) → RequestSafe x a →
      (NoRequestLost (loggedStep hash x a) ↔ RequestSafe x a) := fun hretains hsafe =>
    ⟨fun _ => hsafe, fun _ => noRequestLost_of_retains h hretains⟩
  cases a with
  | checkRequests s now => exact noRequestLost_checkRequests h s now
  | takeRepair now accepted => exact noRequestLost_takeRepair h now accepted
  | push s t e path => exact hkeep (retains_pushEvent hash e path) trivial
  | receive s t tin worker path => exact hkeep (retains_receive tin worker path) trivial
  | limitJournal s t => exact hkeep retains_limitJournal trivial
  | handled s t o retried worker e y => exact hkeep (retains_handled o retried worker e y) trivial
  | mountCheck s t present => exact hkeep (retains_mountCheck present) trivial
  | workerExit s t worker =>
    refine hkeep ?_ trivial
    show Retains x.1 (x.1.workerExit s t worker)
    refine retains_onTarget fun hflag => ?_
    split_ifs
    · exact hflag
    · exact hflag
  | health s t now probe => exact hkeep (retains_health now probe) trivial
  | submitJob s t path accepted =>
    refine hkeep ?_ trivial
    show Retains x.1 (x.1.submitJob s t path accepted)
    unfold submitJob
    split_ifs
    · exact fun r hr => by cases r <;> exact hr
    · exact retains_refl _
  | targetedRescan s t => exact hkeep retains_targetedRescan trivial
  | collectJournal s t =>
    refine hkeep ?_ trivial
    show Retains x.1 (x.1.onTarget s t fun T => { T with outageJournal := [] })
    exact retains_onTarget id
  | takeJob i skipped recovered => exact hkeep (retains_takeJob i skipped recovered) trivial

end Runs

/-- In a run of the daemon no request for a scan gets lost exactly when every step of it is
safe. -/
theorem noRequestLost_iff_safe (targets : σ → List τ) (rootSource : σ) (workers : σ → τ → ℕ)
    (paused : σ → τ → Bool) (now : ℤ) (hash : U64 → ℕ) (acts : List (Action σ τ)) :
    (∀ past, past <+: acts →
      NoRequestLost (Run.exec (loggedStep hash)
        (start targets rootSource workers paused now, []) past)) ↔
    Run.Along (loggedStep hash) RequestSafe
      (start targets rootSource workers paused now, []) acts :=
  Run.forall_prefix_iff_along (loggedStep hash) (I := NoRequestLost) (A := fun _ => True)
    (P := fun _ => True) (fun _ _ _ _ _ => trivial) (fun _ a _ _ h => noRequestLost_step h a) acts
    (fun _ _ => trivial) trivial (fun r hr => absurd hr (not_outstanding_nil r))

/-- Two sources with a target each. -/
def twoSources : Daemon Bool Unit :=
  start (fun _ => [()]) false (fun _ _ => 2) (fun _ _ => false) 0

/-- The mounts of both targets vanish, and the loop looks at one source after the other. -/
def bothUnmounted : List (Action Bool Unit) :=
  [.mountCheck false () false, .mountCheck true () false, .checkRequests false 0,
    .checkRequests true 0]

/-- The request for the second source is taken, and no scan begins. -/
theorem bothUnmounted_lost :
    ¬ ∀ past, past <+: bothUnmounted →
      NoRequestLost (Run.exec (loggedStep fun _ => 0) (twoSources, []) past) := by
  intro h
  have hlost := h bothUnmounted (List.prefix_refl _) (.recovery true)
    ⟨[.requested (.recovery false)], .requested (.recovery true), [.scan false true false], rfl, rfl,
      by simp [scanTerms, Mark.Serves]⟩
  revert hlost
  show ¬ (_ = true)
  decide

end Foxing.Daemon
