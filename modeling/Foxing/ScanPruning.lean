import Foxing.DirScan

/-!
# Skipped directories of the daemon

A directory may be skipped, or its journal entries dropped, if the files directly in
it have been copied as they are. The hash is stored when the jobs are submitted, so a
stored hash stands for files that are on the target or have a job. A run is safe if no
such job is lost, and no directory is skipped before the jobs for its files are done.
-/
namespace Foxing.DirScan
open DirHash HashedTarget

namespace ScanState
variable {τ : Type*} [DecidableEq τ] (blake3 : Bytes → Bytes) (targets : List τ) (s : ScanState τ)

/-- A regular file directly in a directory of the source. -/
def DirectlyIn (dir : Path) (e : SourceEntry) : Prop :=
  e ∈ s.source.entries ∧ e.kind = .file ∧ ∃ name, e.path = dir ++ [name]

/-- The regular files directly in the directory are on the target in the size and time of
the source. -/
def InStep (t : τ) (dir : Path) : Prop :=
  ∀ e, s.DirectlyIn dir e → (s.target t).held e.path = some e.stat

/-- A directory is skipped, or its journal entries are dropped, only if it is in step. -/
def StepSound : Action τ → Prop
  | .fullScan scan => ∀ dir ∈ s.prunedDirs blake3 targets scan, ∀ t ∈ targets, s.InStep t dir
  | .recoveryScan scan => s.fallsBack targets scan = false →
    ∀ t ∈ targets, ∀ dir ∈ s.parents t, s.discards blake3 scan t dir = true → s.InStep t dir
  | _ => True

/-! ## Safe steps -/

/-- A hash that agrees says something about the files in the directory: it covers all of them
and differs from that of other files, and none of them is still to be copied. -/
structure Conclusive (t : τ) (dir : Path) : Prop where
  covers : ∀ e name, s.DirectlyIn dir e → e.path = dir ++ [name] → reservedName name = false
  telling : (s.target t).Telling blake3 s.source dir
  done : ∀ e, s.DirectlyIn dir e → (e.path, t) ∉ s.jobs

/-- A stored hash was taken of this file. -/
def Recorded (t : τ) (dir : Path) (e : SourceEntry) : Prop :=
  (s.target t).dirHash dir ≠ none ∧ ∃ source, (s.target t).snapshot dir = some source ∧
    Covered source dir e

/-- The target has the file in this version, or there is a job for it. -/
def Due (jobs : List (Path × τ)) (t : τ) (e : SourceEntry) : Prop :=
  (s.target t).held e.path = some e.stat ∨ (e.path, t) ∈ s.jobs ∨ (e.path, t) ∈ jobs

structure FullScanSafe (scan : FullScan τ) : Prop where
  skipped : ∀ dir ∈ s.prunedDirs blake3 targets scan, ∀ t ∈ targets, s.Conclusive blake3 t dir
  /-- The files that a hash is taken of are there or have a job, and are not removed. -/
  stored : ∀ t ∈ targets, ∀ dir ∈ s.source.dirs, ∀ hash source,
    s.hashOf blake3 scan (s.prunedDirs blake3 targets scan) t dir = some (hash, source) →
    ∀ e, Covered source dir e → stale scan t e.path = false ∧
      s.Due (s.submitted targets scan (s.prunedDirs blake3 targets scan)) t e
  /-- What is covered by a hash that stays is not removed. -/
  kept : ∀ t ∈ targets, ∀ dir, stale scan t dir = false →
    (dir ∉ s.source.dirs ∨
      s.hashOf blake3 scan (s.prunedDirs blake3 targets scan) t dir = none) →
    ∀ e, s.Recorded t dir e → stale scan t e.path = false

structure RecoveryScanSafe (scan : RecoveryScan τ) : Prop where
  discarded : ∀ t ∈ targets, ∀ dir ∈ s.parents t, s.discards blake3 scan t dir = true →
    s.Conclusive blake3 t dir
  stored : ∀ t ∈ targets, ∀ dir ∈ s.parents t, ∀ hash source,
    s.healed blake3 scan t dir = some (hash, source) →
    ∀ e, Covered source dir e → s.Due (s.recovered blake3 scan t) t e

/-- A job for a file that a hash was taken of copies this version, unless the target has it
or there is another job. -/
def WorkSafe (t : τ) (path : Path) (outcome : CopyOutcome) : Prop :=
  ∀ dir e, s.Recorded t dir e → e.path = path → (path, t) ∈ s.jobs →
    (path, t) ∈ s.jobs.erase (path, t) ∨
    ((s.target t).held path = some e.stat ∧ outcome = .unseen) ∨
    (e ∈ s.source.entries ∧ ∃ mtime mtimeNsec, outcome = .copied mtime mtimeNsec true)

def Safe : Action τ → Prop
  | .edit _ => True
  | .journal _ _ => True
  | .fullScan scan => s.FullScanSafe blake3 targets scan
  | .recoveryScan scan => s.fallsBack targets scan = false →
    s.RecoveryScanSafe blake3 targets scan
  | .work t path outcome => s.WorkSafe t path outcome

/-- Every stored hash stands for files that are on the target, or have a job. -/
def Backed : Prop := ∀ t dir, (s.target t).Backed blake3 (fun path => (path, t) ∈ s.jobs) dir

variable {blake3} {targets} {s}

/-! ## Skipped directories -/

omit [DecidableEq τ] in
theorem mem_pruneStep {scan : FullScan τ} {pruned : List Path} {dir dir' : Path}
    (h : dir ∈ s.pruneStep blake3 targets scan pruned dir') :
    dir ∈ pruned ∨ ∀ t ∈ targets,
      (s.target t).dirHash dir = computeDirHashFromPath blake3 s.source dir := by
  unfold pruneStep at h
  split at h
  · exact .inl h
  split at h
  · exact .inl h
  next hash hhash =>
    split at h
    next hagrees =>
      rcases List.mem_append.mp h with hdir | hdir
      · exact .inl hdir
      · obtain rfl := List.mem_singleton.mp hdir
        right
        intro t ht
        have hstored := List.all_eq_true.mp hagrees t ht
        simp only [agrees, Bool.and_eq_true, decide_eq_true_eq] at hstored
        rw [hstored.2, hhash]
    · exact .inl (List.mem_of_mem_filter h)

omit [DecidableEq τ] in
/-- The hash of a directory that is skipped agrees on all targets. -/
theorem dirHash_of_pruned {scan : FullScan τ} {dir : Path}
    (h : dir ∈ s.prunedDirs blake3 targets scan) :
    ∀ t ∈ targets, (s.target t).dirHash dir = computeDirHashFromPath blake3 s.source dir := by
  unfold prunedDirs at h
  generalize s.source.dirs.insertionSort (fun a b => a.length ≤ b.length) = dirs at h
  induction dirs using List.reverseRecOn with
  | nil => cases h
  | append_singleton dirs dir' ih =>
    rw [List.foldl_append, List.foldl_cons, List.foldl_nil] at h
    rcases mem_pruneStep h with hdir | hagrees
    · exact ih hdir
    · exact hagrees

omit [DecidableEq τ] in
/-- Where hashes are backed, one that agrees and is conclusive tells that the directory is in
step. -/
theorem Backed.inStep (h : s.Backed blake3) {t : τ} {dir : Path}
    (hagrees : (s.target t).dirHash dir = computeDirHashFromPath blake3 s.source dir)
    (hconclusive : s.Conclusive blake3 t dir) : s.InStep t dir := by
  intro e he
  obtain ⟨hmem, hkind, name, hpath⟩ := he
  have hin : s.DirectlyIn dir e := ⟨hmem, hkind, name, hpath⟩
  exact (h t dir).held_of_agrees hagrees hconclusive.telling
    ⟨hmem, hkind, name, hpath, hconclusive.covers e name hin hpath⟩ (hconclusive.done e hin)

theorem Backed.stepSound (h : s.Backed blake3) {a : Action τ} (hsafe : s.Safe blake3 targets a) :
    s.StepSound blake3 targets a := by
  cases a with
  | edit source => trivial
  | journal t path => trivial
  | fullScan scan =>
    intro dir hdir t ht
    exact h.inStep (dirHash_of_pruned hdir t ht) (hsafe.skipped dir hdir t ht)
  | recoveryScan scan =>
    intro hjournal t ht dir hdir hdiscards
    refine h.inStep ?_ ((hsafe hjournal).discarded t ht dir hdir hdiscards)
    simp only [discards, Bool.and_eq_true] at hdiscards
    cases hhash : computeDirHashFromPath blake3 s.source dir with
    | none => simp [hhash] at hdiscards
    | some hash =>
      rw [hhash] at hdiscards
      exact of_decide_eq_true hdiscards.2
  | work t path outcome => trivial

/-! ## Safe steps keep the hashes backed -/

omit [DecidableEq τ] in
theorem Backed.due (h : s.Backed blake3) {t : τ} {dir : Path} {hash : Bytes}
    (hhash : (s.target t).dirHash dir = some hash) :
    ∃ source, (s.target t).snapshot dir = some source ∧
      computeDirHashFromPath blake3 source dir = some hash ∧
      ∀ e, Covered source dir e → s.Recorded t dir e ∧ s.Due [] t e := by
  obtain ⟨source, hsnapshot, hcomputed, hheld⟩ := h t dir hash hhash
  refine ⟨source, hsnapshot, hcomputed, fun e he => ⟨⟨by simp [hhash], source, hsnapshot, he⟩, ?_⟩⟩
  exact (hheld e he).imp id .inl

omit [DecidableEq τ] in
theorem hashOf_eq_some {scan : FullScan τ} {pruned : List Path} {t : τ} {dir : Path} {hash : Bytes}
    {source : SourceTree} (h : s.hashOf blake3 scan pruned t dir = some (hash, source)) :
    computeDirHashFromPath blake3 source dir = some hash ∧
      (source = s.source ∨ source = scan.later) := by
  unfold hashOf at h
  split at h
  · cases h
  split at h
  next hash' hwalk =>
    obtain ⟨rfl, rfl⟩ := Prod.mk.inj (Option.some.inj h)
    split at hwalk
    · exact ⟨hwalk, .inl rfl⟩
    · cases hwalk
  · obtain ⟨hash', hlater, heq⟩ := Option.map_eq_some_iff.mp h
    obtain ⟨rfl, rfl⟩ := Prod.mk.inj heq
    exact ⟨hlater, .inr rfl⟩

omit [DecidableEq τ] in
theorem healed_eq_some {scan : RecoveryScan τ} {t : τ} {dir : Path} {hash : Bytes}
    {source : SourceTree} (h : s.healed blake3 scan t dir = some (hash, source)) :
    computeDirHashFromPath blake3 source dir = some hash := by
  unfold healed at h
  split at h
  · cases h
  · obtain ⟨hash', hlater, heq⟩ := Option.map_eq_some_iff.mp h
    obtain ⟨rfl, rfl⟩ := Prod.mk.inj heq
    exact hlater

/-- A full scan that loses no job leaves every stored hash backed. -/
theorem FullScanSafe.backed {scan : FullScan τ} (hsafe : s.FullScanSafe blake3 targets scan)
    (h : s.Backed blake3) : (s.fullScan blake3 targets scan).Backed blake3 := by
  intro t dir hash hhash
  have hjobs : ∀ {path : Path}, (path, t) ∈ s.jobs →
      (path, t) ∈ (s.fullScan blake3 targets scan).jobs := fun hmem => List.mem_append_left _ hmem
  by_cases ht : t ∈ targets
  swap
  · simp only [fullScan, if_neg ht] at hhash ⊢
    exact (h t dir).mono (fun _ => hjobs) hash hhash
  have htarget : (s.fullScan blake3 targets scan).target t =
      ((s.target t).setHashes (s.hashOf blake3 scan (s.prunedDirs blake3 targets scan) t)
        s.source.dirs).remove (stale scan t) := if_pos ht
  rw [htarget] at hhash ⊢
  simp only [HashedTarget.remove, clearHashes, held_setHashes] at hhash ⊢
  split at hhash
  · cases hhash
  next hdir =>
  by_cases hnot : dir ∉ s.source.dirs ∨
      s.hashOf blake3 scan (s.prunedDirs blake3 targets scan) t dir = none
  · -- The hash stays as it was.
    rw [(setHashes_of_not hnot _).1] at hhash
    obtain ⟨source, hsnapshot, hcomputed, hdue⟩ := h.due hhash
    refine ⟨source, (setHashes_of_not hnot _).2.trans hsnapshot, hcomputed, fun e he => ?_⟩
    obtain ⟨hrecorded, hheld | hjob | hnone⟩ := hdue e he
    · have hkept := hsafe.kept t ht dir (by simpa using hdir) hnot e hrecorded
      rw [hkept]
      exact .inl hheld
    · exact .inr (hjobs hjob)
    · cases hnone
  · push Not at hnot
    obtain ⟨⟨hash', source⟩, hstored⟩ := Option.ne_none_iff_exists'.mp hnot.2
    rw [(setHashes_of_mem hnot.1 hstored _).1] at hhash
    obtain rfl := Option.some.inj hhash
    refine ⟨source, (setHashes_of_mem hnot.1 hstored _).2, (hashOf_eq_some hstored).1,
      fun e he => ?_⟩
    obtain ⟨hstale, hheld | hjob | hsubmitted⟩ :=
      hsafe.stored t ht dir hnot.1 hash' source hstored e he
    · rw [hstale]
      exact .inl hheld
    · exact .inr (hjobs hjob)
    · exact .inr (List.mem_append_right _ hsubmitted)

/-- So does a recovery scan. -/
theorem RecoveryScanSafe.backed {scan : RecoveryScan τ}
    (hsafe : s.fallsBack targets scan = false → s.RecoveryScanSafe blake3 targets scan)
    (h : s.Backed blake3) : (s.targetedRecoveryScan blake3 targets scan).Backed blake3 := by
  intro t dir
  cases hfalls : s.fallsBack targets scan with
  | true =>
    simp only [targetedRecoveryScan, hfalls, if_true]
    split
    · exact (h t dir).clearHashes _
    · exact h t dir
  | false =>
    have hjobs : ∀ {path : Path}, (path, t) ∈ s.jobs →
        (path, t) ∈ s.jobs ++ targets.flatMap (s.recovered blake3 scan) :=
      fun hmem => List.mem_append_left _ hmem
    simp only [targetedRecoveryScan, hfalls, Bool.false_eq_true, if_false]
    split
    next ht =>
      refine Backed.clearHashes (fun hash hhash => ?_) _
      by_cases hnot : dir ∉ s.parents t ∨ s.healed blake3 scan t dir = none
      · rw [(setHashes_of_not hnot _).1] at hhash
        rw [(setHashes_of_not hnot _).2, held_setHashes]
        exact (h t dir).mono (fun _ => hjobs) hash hhash
      · push Not at hnot
        obtain ⟨⟨hash', source⟩, hstored⟩ := Option.ne_none_iff_exists'.mp hnot.2
        rw [(setHashes_of_mem hnot.1 hstored _).1] at hhash
        obtain rfl := Option.some.inj hhash
        rw [(setHashes_of_mem hnot.1 hstored _).2, held_setHashes]
        refine ⟨source, rfl, healed_eq_some hstored, fun e he => ?_⟩
        obtain hheld | hjob | hsubmitted :=
          (hsafe hfalls).stored t ht dir hnot.1 hash' source hstored e he
        · exact .inl hheld
        · exact .inr (hjobs hjob)
        · exact .inr (List.mem_append_right _ (List.mem_flatMap.mpr ⟨t, ht, hsubmitted⟩))
    next => exact (h t dir).mono fun _ => hjobs

/-- A job that copies what a hash was taken of leaves the hash backed. -/
theorem WorkSafe.backed {t : τ} {path : Path} {outcome : CopyOutcome}
    (hsafe : s.WorkSafe t path outcome) (h : s.Backed blake3) :
    (s.work t path outcome).Backed blake3 := by
  unfold work
  split
  swap
  · exact h
  next hjob =>
  intro t' dir
  by_cases ht : t' = t
  swap
  · simp only [Function.update_of_ne ht]
    refine (h t' dir).mono fun p hp => (List.mem_erase_of_ne ?_).mpr hp
    simp [ht]
  subst ht
  simp only [Function.update_self]
  intro hash hhash
  obtain ⟨source, hsnapshot, hcomputed, hdue⟩ := h.due hhash
  refine ⟨source, hsnapshot, hcomputed, fun e he => ?_⟩
  obtain ⟨hrecorded, hold⟩ := hdue e he
  by_cases hpath : e.path = path
  · subst hpath
    simp only [Function.update_self]
    rcases hsafe dir e hrecorded rfl hjob with hmore | ⟨hheld, rfl⟩ | ⟨hmem, mtime, mtimeNsec, rfl⟩
    · exact .inr hmore
    · left
      split
      · exact hheld
      · rename_i hunseen
        cases hunseen
      · exact hheld
    · left
      rw [SourceTree.find?_file hmem he.kind]
      rfl
  · simp only [Function.update_of_ne hpath]
    obtain hheld | hpending | hnone := hold
    · exact .inl hheld
    · refine .inr ((List.mem_erase_of_ne ?_).mpr hpending)
      simp [hpath]
    · cases hnone

theorem Backed.step {a : Action τ} (hsafe : s.Safe blake3 targets a) (h : s.Backed blake3) :
    (s.step blake3 targets a).Backed blake3 := by
  cases a with
  | edit source => exact h
  | journal t path => exact h
  | fullScan scan => exact FullScanSafe.backed hsafe h
  | recoveryScan scan => exact RecoveryScanSafe.backed hsafe h
  | work t path outcome => exact WorkSafe.backed hsafe h

/-- Over any safe sequence of scans, jobs and edits, a directory is skipped, or its journal
entries are dropped, only if its files are on the target as they are in the source. -/
theorem skips_of_safe (source : SourceTree) (held : τ → Path → Option Stat)
    (acts : List (Action τ))
    (h : Run.Along (ScanState.step blake3 targets) (ScanState.Safe blake3 targets)
      (ScanState.start source held) acts) :
    Run.Along (ScanState.step blake3 targets) (ScanState.StepSound blake3 targets)
      (ScanState.start source held) acts :=
  Run.along_of_invariant (ScanState.step blake3 targets) (I := fun s => s.Backed blake3)
    (fun _ _ hsafe hs => hs.step hsafe) (fun _ _ hsafe hs => hs.stepSound hsafe) h
    (fun t dir => backed_start (held t) dir)

/-! ## A file in a directory -/

def shallowSource : SourceTree where
  entries := [⟨[], .dir, ⟨4096, 1, 0⟩⟩, ⟨["d"], .dir, ⟨4096, 2, 0⟩⟩,
    ⟨["d", "f"], .file, ⟨10, 5, 0⟩⟩]
  nodup := by simp

/-- A scan of this source in which nothing fails, the queue apart. -/
def plainScan (accepted : Bool) : FullScan Unit where
  onTarget _ _ := true
  childDirty _ _ := false
  needed _ _ := true
  accepted _ _ := accepted
  later := shallowSource
  hashStored _ _ := true
  removable _ _ := false

def plainRecovery : RecoveryScan Unit where
  journalOverflow := false
  onTarget _ _ := true
  accepted _ _ := true
  later := shallowSource
  hashStored _ _ := true
  hashCleared _ _ := true

def noTarget : ScanState Unit := ScanState.start shallowSource (fun _ _ => none)

/-- The only file. -/
theorem eq_of_mem_shallowSource {e : SourceEntry} (he : e ∈ shallowSource.entries)
    (hkind : e.kind = .file) : e = ⟨["d", "f"], .file, ⟨10, 5, 0⟩⟩ := by
  have hall : ∀ e ∈ shallowSource.entries, e.kind = .file →
      e = ⟨["d", "f"], .file, ⟨10, 5, 0⟩⟩ := by decide
  exact hall e he hkind

/-- The hash of the directory is conclusive when the job is done. -/
theorem conclusive_shallowSource {s : ScanState Unit} (hsource : s.source = shallowSource)
    (hsnapshot : ((s.target ()).snapshot ["d"]).map SourceTree.entries =
      some shallowSource.entries) (hjobs : s.jobs = []) :
    s.Conclusive (fun b => b) () ["d"] := by
  have hsame : ∀ source, (s.target ()).snapshot ["d"] = some source → source = shallowSource := by
    intro source hsome
    rw [hsome] at hsnapshot
    exact SourceTree.ext (Option.some.inj hsnapshot)
  refine ⟨?_, ⟨?_, ?_⟩, ?_⟩
  · rintro e name ⟨hmem, hkind, -⟩ hpath
    rw [hsource] at hmem
    obtain rfl := eq_of_mem_shallowSource hmem hkind
    obtain rfl : name = "f" := by simpa using hpath.symm
    decide
  · intro source hsome _
    rw [hsame source hsome, hsource]
  · intro source hsome e _ _ e' he' _
    obtain rfl := hsame source hsome
    have hnone : ∀ e ∈ shallowSource.entries, e.kind ≠ .other := by decide
    exact hnone e' he'
  · intro e _
    rw [hjobs]
    exact List.not_mem_nil

/-- The scan is safe if the file is on the target or gets a job. -/
theorem fullScanSafe_plainScan {s : ScanState Unit} (hsource : s.source = shallowSource)
    (pruned : List Path) (hpruned : s.prunedDirs (fun b => b) [()] (plainScan true) = pruned)
    (hskipped : ∀ dir ∈ pruned, s.Conclusive (fun b => b) () dir)
    (hdue : s.Due (s.submitted [()] (plainScan true) pruned) ()
      ⟨["d", "f"], .file, ⟨10, 5, 0⟩⟩) :
    s.FullScanSafe (fun b => b) [()] (plainScan true) := by
  refine ⟨fun dir hdir _ _ => hskipped dir (hpruned ▸ hdir), ?_, fun _ _ _ _ _ _ _ => rfl⟩
  intro _ _ dir _ hash source hhash e he
  rw [hpruned] at hhash ⊢
  have hlater : source = shallowSource := by
    rcases (hashOf_eq_some hhash).2 with rfl | rfl
    · exact hsource
    · rfl
  subst hlater
  obtain rfl := eq_of_mem_shallowSource he.mem he.kind
  exact ⟨rfl, hdue⟩

/-- A scan, its job, an outage that changes nothing, the recovery and the scan after it. -/
def quietOutage : List (Action Unit) :=
  [.fullScan (plainScan true), .work () ["d", "f"] (.copied 9 0 true), .journal () ["d", "f"],
    .recoveryScan plainRecovery, .fullScan (plainScan true)]

/-- The recovery drops the entry of the journal, and the scan skips the directory. -/
theorem quietOutage_sound :
    Run.Along (ScanState.step (fun b => b) [()]) (ScanState.StepSound (fun b => b) [()])
      noTarget quietOutage := by
  apply skips_of_safe
  refine ⟨?_, ?_, trivial, ?_, ?_, trivial⟩
  · refine fullScanSafe_plainScan rfl [] (by decide +kernel) ?_ (.inr (.inr ?_))
    · intro dir hdir
      cases hdir
    · decide +kernel
  · rintro dir e ⟨-, source, hsnapshot, he⟩ hpath -
    refine .inr (.inr ⟨?_, 9, 0, rfl⟩)
    obtain ⟨name, hchild, -⟩ := he.child
    obtain rfl : dir = ["d"] := by
      have hdrop := congrArg List.dropLast (hpath.symm.trans hchild)
      rw [List.dropLast_concat] at hdrop
      exact hdrop.symm
    have hentries : ((((noTarget.step (fun b => b) [()] (.fullScan (plainScan true))).target
        ()).snapshot ["d"]).map SourceTree.entries) = some shallowSource.entries := by
      decide +kernel
    rw [show ((noTarget.step (fun b => b) [()] (.fullScan (plainScan true))).target ()).snapshot
      ["d"] = some source from hsnapshot] at hentries
    exact Option.some.inj hentries ▸ he.mem
  · intro _
    refine ⟨?_, ?_⟩
    · intro _ _ dir hdir _
      obtain rfl : dir = ["d"] := List.mem_singleton.mp hdir
      exact conclusive_shallowSource rfl (by decide +kernel) (by decide +kernel)
    · intro _ _ dir hdir hash source hhealed
      obtain rfl : dir = ["d"] := List.mem_singleton.mp hdir
      have hnone : (((noTarget.step (fun b => b) [()] (.fullScan (plainScan true))).step
          (fun b => b) [()] (.work () ["d", "f"] (.copied 9 0 true))).step (fun b => b) [()]
          (.journal () ["d", "f"])).healed (fun b => b) plainRecovery () ["d"] = none := by
        rw [← Option.isNone_iff_eq_none]
        decide +kernel
      cases hnone.symm.trans hhealed
  · refine fullScanSafe_plainScan rfl [["d"]] (by decide +kernel) ?_ (.inl ?_)
    · intro dir hdir
      obtain rfl := List.mem_singleton.mp hdir
      exact conclusive_shallowSource rfl (by decide +kernel) (by decide +kernel)
    · decide +kernel

/-- The first scan finds the queue full. -/
def fullQueue : List (Action Unit) := [.fullScan (plainScan false), .fullScan (plainScan true)]

/-- The second scan skips the directory, whose file has never been copied. -/
theorem fullQueue_skipped :
    ¬ Run.Along (ScanState.step (fun b => b) [()]) (ScanState.StepSound (fun b => b) [()])
      noTarget fullQueue := by
  intro h
  have hstep := h.2.1 ["d"] (by decide +kernel) () (List.mem_singleton_self _)
    ⟨["d", "f"], .file, ⟨10, 5, 0⟩⟩ ⟨by decide, rfl, "f", rfl⟩
  revert hstep
  decide +kernel

end ScanState

end Foxing.DirScan
