import Foxing.SyncRun

/-!
# Skipped subtrees

A subtree may be skipped if every file in it is in step. The hash of a directory
tells of its own children only, and it is stored whatever became of their copies.
So a run is safe if each hash that it stores is that of a directory whose files are
in step when it ends, if what a hash covers that it leaves in place does not change,
and if the files in skipped subtrees are covered by hashes of their own directories
that agree.
-/
namespace Foxing.Sync
open HashedTarget (Covered)

namespace SyncState
variable (blake3 : Bytes → Bytes)

/-- The regular files below a directory that the rules do not exclude are on the target
in the size and time of the source. -/
def InStep (s : SyncState) (run : SyncRun) (held : Path → Option Stat) (dir : Path) : Prop :=
  ∀ e ∈ s.source.entries, e.kind = .file → run.rules.shouldSkip e.path = false →
    dir <+: e.path → held e.path = some e.stat

/-- Every subtree that a run skips is in step, and is so still when the run ends. -/
def StepSound (s : SyncState) : Action → Prop
  | .edit _ => True
  | .sync run => ∀ dir ∈ s.prunedDirs blake3 run,
    s.InStep run s.target.held dir ∧ s.InStep run (s.sync blake3 run).target.held dir

/-! ## Safe runs -/

/-- The run stores the hash of the directory. -/
def stores (s : SyncState) (run : SyncRun) (dir : Path) : Bool :=
  !run.dryRun && s.source.dirs.contains dir &&
    (s.hashOf blake3 run (s.prunedDirs blake3 run) dir).isSome

/-- The walk gets to the file, and what is on the target differs. -/
def due (s : SyncState) (run : SyncRun) (e : SourceEntry) : Bool :=
  !run.rules.shouldSkip e.path && e.kind = .file &&
    !(s.prunedDirs blake3 run).any (fun d => d.isPrefixOf e.path) &&
    s.target.held e.path ≠ some e.stat && !run.dryRun

def removes (run : SyncRun) (path : Path) : Prop := run.dryRun = false ∧ path ∈ run.removed

/-- The file is in step already, or is copied with its time. -/
def Settles (s : SyncState) (run : SyncRun) (e : SourceEntry) : Prop :=
  ¬ removes run e.path ∧ (s.target.held e.path = some e.stat ∨
    (s.due blake3 run e = true ∧ run.archive = true ∧
      ∃ mtime mtimeNsec, run.outcome e.path = .copied mtime mtimeNsec true))

/-- The run does not touch what the target has for the path. -/
def Stays (s : SyncState) (run : SyncRun) (path : Path) : Prop :=
  ¬ removes run path ∧
    ∀ e ∈ s.source.entries, e.path = path → s.due blake3 run e = true → run.outcome path = .unseen

structure RunSafe (s : SyncState) (run : SyncRun) : Prop where
  /-- Hashes are stored of directories whose files are in step in the end. -/
  stored : ∀ dir, s.stores blake3 run dir = true → ∀ e, Covered s.source dir e →
    s.Settles blake3 run e
  /-- What is covered by a hash that stays does not change. -/
  kept : ∀ dir, s.stores blake3 run dir = false → s.target.dirHash dir ≠ none →
    ¬ removes run dir → ∀ source, s.target.snapshot dir = some source →
    ∀ e, Covered source dir e → s.Stays blake3 run e.path
  /-- Files in skipped subtrees are covered by hashes that agree. -/
  skipped : ∀ dir ∈ s.prunedDirs blake3 run, ∀ e ∈ s.source.entries, e.kind = .file →
    run.rules.shouldSkip e.path = false → dir <+: e.path →
    ¬ removes run e.path ∧ ∃ own, Covered s.source own e ∧
      s.target.dirHash own = DirHash.computeDirHashFromPath blake3 s.source own ∧
      s.target.Telling blake3 s.source own

def Safe (s : SyncState) : Action → Prop
  | .edit _ => True
  | .sync run => s.RunSafe blake3 run

/-- Every stored hash stands for files that are in step with what it was taken of. -/
def Backed (s : SyncState) : Prop := ∀ dir, s.target.Backed blake3 (fun _ => False) dir

/-! ## What a run does -/

variable {blake3} {s : SyncState} {run : SyncRun}

/-- What a visit makes of the path of its entry. -/
theorem visit_self (held : Path → Option Stat) (pruned : List Path) (e : SourceEntry) :
    visit run pruned held e e.path =
      if (!run.rules.shouldSkip e.path && e.kind = .file &&
        !pruned.any (fun d => d.isPrefixOf e.path) && held e.path ≠ some e.stat &&
        !run.dryRun) = true then
        (run.outcome e.path).leaves run.archive e.stat (held e.path)
      else held e.path := by
  unfold visit
  by_cases hskip : run.rules.shouldSkip e.path = true
  · simp [hskip]
  by_cases hkind : e.kind = .file
  swap
  · simp [hskip, hkind]
  cases hpruned : pruned.any (fun d => d.isPrefixOf e.path) with
  | true => simp [hskip, hkind]
  | false =>
    by_cases hheld : held e.path = some e.stat
    · simp [hskip, hkind, hheld]
    by_cases hdry : run.dryRun = true
    · simp [hskip, hkind, hheld, hdry]
    · simp [hskip, hkind, hheld, hdry]

/-- A visit changes nothing but the path of its entry. -/
theorem visit_of_ne (held : Path → Option Stat) (pruned : List Path) {e : SourceEntry} {path : Path}
    (hne : path ≠ e.path) : visit run pruned held e path = held path := by
  unfold visit
  split_ifs
  · rfl
  · rfl
  · rfl
  · rfl
  · rfl
  · exact Function.update_of_ne hne _ _

theorem visits_of_notMem (pruned : List Path) {entries : List SourceEntry} {path : Path}
    (h : ∀ e ∈ entries, e.path ≠ path) (held : Path → Option Stat) :
    entries.foldl (visit run pruned) held path = held path := by
  induction entries generalizing held with
  | nil => rfl
  | cons e entries ih =>
    rw [List.foldl_cons, ih (fun x hx => h x (List.mem_cons_of_mem _ hx))]
    exact visit_of_ne held pruned (h e (List.mem_cons_self ..)).symm

/-- The walk visits each entry once. -/
theorem visits_of_mem (pruned : List Path) {entries : List SourceEntry}
    (hnodup : (entries.map SourceEntry.path).Nodup) {e : SourceEntry} (he : e ∈ entries)
    (held : Path → Option Stat) :
    entries.foldl (visit run pruned) held e.path = visit run pruned held e e.path := by
  induction entries generalizing held with
  | nil => cases he
  | cons x entries ih =>
    rw [List.map_cons, List.nodup_cons] at hnodup
    rw [List.foldl_cons]
    rcases List.mem_cons.mp he with rfl | he
    · refine visits_of_notMem pruned (fun y hy hpath => hnodup.1 ?_) _
      rw [← hpath]
      exact List.mem_map_of_mem hy
    · have hne : e.path ≠ x.path := by
        intro hpath
        apply hnodup.1
        rw [← hpath]
        exact List.mem_map_of_mem he
      rw [ih hnodup.2 he, visit_self, visit_self, visit_of_ne held pruned hne]

/-- What the walk makes of a file of the source. -/
theorem held_walk {e : SourceEntry} (he : e ∈ s.source.entries) :
    s.source.entries.foldl (visit run (s.prunedDirs blake3 run)) s.target.held e.path =
      if s.due blake3 run e then
        (run.outcome e.path).leaves run.archive e.stat (s.target.held e.path)
      else s.target.held e.path := by
  rw [visits_of_mem _ s.source.nodup he, visit_self]
  rfl

/-- What the target has for a path after a run: what the walk has made of it, unless that is
removed. -/
theorem held_sync (path : Path) (hremoved : ¬ removes run path) :
    (s.sync blake3 run).target.held path =
      s.source.entries.foldl (visit run (s.prunedDirs blake3 run)) s.target.held path := by
  simp only [sync]
  split
  · rfl
  next hdry =>
    rw [HashedTarget.held_setHashes]
    refine if_neg fun h => hremoved ⟨by simpa using hdry, ?_⟩
    simpa using h

/-- The hash of a directory after a run that stores it. -/
theorem dirHash_sync_of_stores {dir : Path} (h : s.stores blake3 run dir = true) :
    (s.sync blake3 run).target.dirHash dir = DirHash.computeDirHashFromPath blake3 s.source dir ∧
      (s.sync blake3 run).target.snapshot dir = some s.source := by
  simp only [stores, Bool.and_eq_true] at h
  obtain ⟨⟨hdry, hdir⟩, hsome⟩ := h
  obtain ⟨⟨hash, source⟩, hhash⟩ := Option.isSome_iff_exists.mp hsome
  simp only [sync]
  rw [if_neg (by simpa using hdry)]
  have hset := HashedTarget.setHashes_of_mem (List.contains_iff_mem.mp hdir) hhash
  rw [(hset _).1, (hset _).2]
  unfold hashOf at hhash
  split_ifs at hhash
  obtain ⟨hash', hcomputed, heq⟩ := Option.map_eq_some_iff.mp hhash
  obtain ⟨rfl, rfl⟩ := Prod.mk.inj heq
  exact ⟨hcomputed.symm, rfl⟩

/-- The hash of a directory after any other run. -/
theorem dirHash_sync_of_not {dir : Path} (h : s.stores blake3 run dir = false) :
    ((s.sync blake3 run).target.dirHash dir = none ∨
      (s.sync blake3 run).target.dirHash dir = s.target.dirHash dir ∧ ¬ removes run dir) ∧
    (s.sync blake3 run).target.snapshot dir = s.target.snapshot dir := by
  simp only [sync]
  split
  next hdry => exact ⟨.inr ⟨rfl, fun hr => by simp [removes, hdry] at hr⟩, rfl⟩
  next hdry =>
    have hnot : dir ∉ s.source.dirs ∨
        s.hashOf blake3 run (s.prunedDirs blake3 run) dir = none := by
      by_contra hno
      push Not at hno
      have hsome := Option.isSome_iff_ne_none.mpr hno.2
      simp [stores, hdry, hno.1, hsome] at h
    rw [(HashedTarget.setHashes_of_not hnot _).1, (HashedTarget.setHashes_of_not hnot _).2]
    refine ⟨?_, rfl⟩
    simp only [HashedTarget.remove, HashedTarget.clearHashes]
    split_ifs with hremoved
    · exact .inl rfl
    · exact .inr ⟨rfl, fun hr => hremoved (by simpa using hr.2)⟩

/-! ## Safe runs keep the hashes backed -/

/-- A file that settles is in step when the run ends. -/
theorem Settles.held_sync {e : SourceEntry} (h : s.Settles blake3 run e)
    (he : e ∈ s.source.entries) : (s.sync blake3 run).target.held e.path = some e.stat := by
  obtain ⟨hremoved, hsettles⟩ := h
  rw [SyncState.held_sync e.path hremoved, held_walk he]
  rcases hsettles with hheld | ⟨hdue, harchive, mtime, mtimeNsec, houtcome⟩
  · have hnot : s.due blake3 run e = false := by simp [due, hheld]
    rw [hnot]
    exact hheld
  · rw [if_pos hdue, houtcome, harchive]
    rfl

theorem Stays.held_sync {path : Path} (h : s.Stays blake3 run path) :
    (s.sync blake3 run).target.held path = s.target.held path := by
  obtain ⟨hremoved, hstays⟩ := h
  rw [SyncState.held_sync path hremoved]
  by_cases hpath : ∃ e ∈ s.source.entries, e.path = path
  · obtain ⟨e, he, rfl⟩ := hpath
    rw [held_walk he]
    split_ifs with hdue
    · rw [hstays e he rfl hdue]
      rfl
    · rfl
  · push Not at hpath
    exact visits_of_notMem _ hpath _

/-- A safe run leaves every stored hash backed. -/
theorem RunSafe.backed (hsafe : s.RunSafe blake3 run) (h : s.Backed blake3) :
    (s.sync blake3 run).Backed blake3 := by
  intro dir hash hhash
  cases hstores : s.stores blake3 run dir with
  | true =>
    obtain ⟨hnew, hsnapshot⟩ := dirHash_sync_of_stores hstores
    refine ⟨s.source, hsnapshot, hnew.symm.trans hhash, fun e he => .inl ?_⟩
    exact (hsafe.stored dir hstores e he).held_sync he.mem
  | false =>
    obtain ⟨hnone | ⟨hkept, hremoved⟩, hsnapshot⟩ := dirHash_sync_of_not hstores
    · rw [hnone] at hhash
      cases hhash
    · rw [hkept] at hhash
      obtain ⟨source, hsource, hcomputed, hheld⟩ := h dir hash hhash
      refine ⟨source, hsnapshot.trans hsource, hcomputed, fun e he => .inl ?_⟩
      have hstays := hsafe.kept dir hstores (by simp [hhash]) hremoved source hsource e he
      rw [hstays.held_sync]
      exact (hheld e he).resolve_right id

theorem Backed.step {a : Action} (hsafe : s.Safe blake3 a) (h : s.Backed blake3) :
    (s.step blake3 a).Backed blake3 := by
  cases a with
  | edit source => exact h
  | sync run => exact RunSafe.backed hsafe h

/-- What a safe run skips is in step, before it and after. -/
theorem Backed.stepSound {a : Action} (hsafe : s.Safe blake3 a) (h : s.Backed blake3) :
    s.StepSound blake3 a := by
  cases a with
  | edit source => trivial
  | sync run =>
    intro dir hdir
    have hheld : s.InStep run s.target.held dir := by
      intro e he hkind hskip hbelow
      obtain ⟨-, own, hcovered, hagrees, htelling⟩ := hsafe.skipped dir hdir e he hkind hskip hbelow
      exact (h own).held_of_agrees hagrees htelling hcovered id
    refine ⟨hheld, fun e he hkind hskip hbelow => ?_⟩
    have hremoved := (hsafe.skipped dir hdir e he hkind hskip hbelow).1
    have hnot : s.due blake3 run e = false := by
      have hpruned : (s.prunedDirs blake3 run).any (fun d => d.isPrefixOf e.path) = true := by
        rw [List.any_eq_true]
        exact ⟨dir, hdir, List.isPrefixOf_iff_prefix.mpr hbelow⟩
      simp [due, hpruned]
    rw [held_sync e.path hremoved, held_walk he, hnot]
    exact hheld e he hkind hskip hbelow

/-- Over any sequence of edits and safe runs, whatever a run skips is in step. -/
theorem skipped_inStep_of_safe (source : SourceTree) (held : Path → Option Stat)
    (acts : List Action)
    (h : Run.Along (SyncState.step blake3) (SyncState.Safe blake3)
      (SyncState.start source held) acts) :
    Run.Along (SyncState.step blake3) (SyncState.StepSound blake3)
      (SyncState.start source held) acts :=
  Run.along_of_invariant (SyncState.step blake3) (I := fun s => s.Backed blake3)
    (fun _ _ hsafe hs => hs.step hsafe) (fun _ _ hsafe hs => hs.stepSound hsafe) h
    (fun dir => HashedTarget.backed_start held dir)

/-- A file two directories below the root, in the given version. -/
def deepSource (version : Stat) : SourceTree where
  entries := [⟨[], .dir, ⟨4096, 1, 0⟩⟩, ⟨["d"], .dir, ⟨4096, 2, 0⟩⟩,
    ⟨["d", "e"], .dir, ⟨4096, 3, 0⟩⟩, ⟨["d", "e", "f"], .file, version⟩]
  nodup := by simp

/-- A run in archive mode in which every copy and every hash succeeds. -/
def plainRun : SyncRun where
  rules := ⟨[], []⟩
  archive := true
  dryRun := false
  outcome _ := .copied 9 0 true
  removed := []
  hashStored _ := true

def oldVersion : Stat := ⟨10, 5, 0⟩

def newVersion : Stat := ⟨20, 6, 0⟩

/-- Two runs over a source that stays as it is. -/
def twoRuns : List Action := [.sync plainRun, .sync plainRun]

/-- The only file, in the directory above it. -/
theorem covered_deepSource {version : Stat} {dir : Path} {e : SourceEntry}
    (h : Covered (deepSource version) dir e) :
    e = ⟨["d", "e", "f"], .file, version⟩ ∧ dir = ["d", "e"] := by
  have hmem := h.mem
  have hkind := h.kind
  obtain ⟨name, hpath, -⟩ := h.child
  simp only [deepSource, List.mem_cons, List.not_mem_nil, or_false] at hmem
  rcases hmem with rfl | rfl | rfl | rfl
  · cases hkind
  · cases hkind
  · cases hkind
  · refine ⟨rfl, ?_⟩
    have hdrop := congrArg List.dropLast hpath
    rw [List.dropLast_concat] at hdrop
    exact hdrop.symm

theorem not_removes_plainRun (path : Path) : ¬ removes plainRun path := by
  simp [removes, plainRun]

/-- The first run copies the file and stores the hashes; the second one skips all of it. -/
theorem twoRuns_sound :
    Run.Along (SyncState.step (fun b => b)) (SyncState.StepSound (fun b => b))
      (SyncState.start (deepSource oldVersion) (fun _ => none)) twoRuns := by
  have hfile : Covered (deepSource oldVersion) ["d", "e"] ⟨["d", "e", "f"], .file, oldVersion⟩ :=
    ⟨by decide, rfl, "f", rfl, by decide⟩
  apply skipped_inStep_of_safe
  refine ⟨⟨?_, ?_, ?_⟩, ⟨?_, ?_, ?_⟩, trivial⟩
  · intro dir _ e he
    obtain ⟨rfl, -⟩ := covered_deepSource he
    exact ⟨not_removes_plainRun _, .inr ⟨by decide +kernel, rfl, 9, 0, rfl⟩⟩
  · intro dir _ hhash
    exact absurd rfl hhash
  · intro dir hdir
    have hnone : (SyncState.start (deepSource oldVersion) (fun _ => none)).prunedDirs
        (fun b => b) plainRun = [] := by decide +kernel
    rw [hnone] at hdir
    cases hdir
  · intro dir _ e he
    obtain ⟨rfl, -⟩ := covered_deepSource he
    exact ⟨not_removes_plainRun _, .inl (by decide +kernel)⟩
  · intro dir _ _ _ source _ e _
    refine ⟨not_removes_plainRun _, fun e' he' _ hdue => ?_⟩
    have hnone : ∀ e ∈ (deepSource oldVersion).entries,
        ((SyncState.start (deepSource oldVersion) (fun _ => none)).step (fun b => b)
          (.sync plainRun)).due (fun b => b) plainRun e = false := by decide +kernel
    rw [hnone e' he'] at hdue
    cases hdue
  · intro dir _ e he hkind _ _
    have honly : ∀ e ∈ (deepSource oldVersion).entries, e.kind = .file →
        e = ⟨["d", "e", "f"], .file, oldVersion⟩ := by decide
    obtain rfl := honly e he hkind
    have hstores : (SyncState.start (deepSource oldVersion) (fun _ => none)).stores (fun b => b)
        plainRun ["d", "e"] = true := by decide +kernel
    have hsnapshot := (dirHash_sync_of_stores hstores).2
    refine ⟨not_removes_plainRun _, ["d", "e"], hfile, by decide +kernel, ?_, ?_⟩
    · intro source hsource _
      obtain rfl := Option.some.inj (hsource.symm.trans hsnapshot)
      rfl
    · intro source hsource e _ _ e' he' _
      obtain rfl := Option.some.inj (hsource.symm.trans hsnapshot)
      have hnone : ∀ e ∈ (deepSource oldVersion).entries, e.kind ≠ .other := by decide
      exact hnone e' he'

/-- The file is written in place between the runs, which changes none of the directories
above its own. -/
def editBelow : List Action := [.sync plainRun, .edit (deepSource newVersion), .sync plainRun]

/-- The second run skips the subtree of `d`, in which the file is stale. -/
theorem editBelow_stale :
    ¬ Run.Along (SyncState.step (fun b => b)) (SyncState.StepSound (fun b => b))
      (SyncState.start (deepSource oldVersion) (fun _ => none)) editBelow := by
  intro h
  have hstep := h.2.2.1 ["d"] (by decide +kernel)
  have hheld := hstep.1 ⟨["d", "e", "f"], .file, newVersion⟩ (by decide +kernel) rfl rfl
    (by decide)
  revert hheld
  decide +kernel

end SyncState

end Foxing.Sync
