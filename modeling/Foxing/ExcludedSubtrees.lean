import Foxing.SyncPruning

/-!
# What is below an excluded directory

The walk of a one-shot sync asks for each entry by itself whether it is to be skipped, and goes
on below a directory that is. So what is below an excluded directory is left out if a pattern
matches it as well, or if there is nothing to do about it; else it is copied into a directory
that is made for it. Errors in making a directory end the run.
-/
namespace Foxing.ExcludedSubtrees
open Sync Sync.SyncState

/-- One call of `run_sync`, with what its options ask for after the walk. -/
structure Invocation extends SyncRun where
  verify : Bool
  /-- The number of entries after which an error ends the run. -/
  endsAfter : Option ℕ

variable (blake3 : Bytes → Bytes) (s : SyncState) (run : Invocation)

/-- The entries that the walk gets to. -/
def visited : List SourceEntry :=
  match run.endsAfter with
  | none => s.source.entries
  | some n => s.source.entries.take n

/-- A copy is begun. -/
def copies (pruned : List Path) (held : Path → Option Stat) (e : SourceEntry) : Bool :=
  !run.rules.shouldSkip e.path && e.kind = .file &&
    !pruned.any (fun d => d.isPrefixOf e.path) && held e.path ≠ some e.stat && !run.dryRun

/-- The visit of one entry, with the files that were copied so far. -/
def visitEntry (pruned : List Path) (walk : (Path → Option Stat) × List Path) (e : SourceEntry) :
    (Path → Option Stat) × List Path :=
  (visit run.toSyncRun pruned walk.1 e,
    if copies run pruned walk.1 e then walk.2 ++ [e.path] else walk.2)

/-- The target after the walk, and the files that were copied. -/
def walk : (Path → Option Stat) × List Path :=
  (visited s run).foldl (visitEntry run (s.prunedDirs blake3 run.toSyncRun)) (s.target.held, [])

/-- The files that are compared with their copies after the walk. -/
def verified : List Path :=
  if run.verify && !run.dryRun && run.endsAfter.isNone then
    (s.source.entries.filter fun e => e.kind = .file && !run.rules.shouldSkip e.path &&
      ((walk blake3 s run).1 e.path).isSome).map SourceEntry.path
  else []

/-- The file is neither copied nor verified, and not created on the target. -/
def LeftOut (e : SourceEntry) : Prop :=
  e.path ∉ (walk blake3 s run).2 ∧ e.path ∉ verified blake3 s run ∧
    ¬(s.target.held e.path = none ∧ (walk blake3 s run).1 e.path ≠ none)

/-- The files below excluded directories are left out, except for included ones. -/
def Hereditary : Prop :=
  ∀ d ∈ s.source.dirs, run.rules.shouldSkip d = true →
    ∀ e ∈ s.source.entries, e.kind = .file → d <+: e.path →
      run.rules.included e.path = false → LeftOut blake3 s run e

/-- The file is excluded itself, or there is nothing to be done about it: it is not reached, or in
a pruned directory, or as it is on the target, and is not compared with a copy. -/
def Passed (e : SourceEntry) : Prop :=
  run.rules.excluded e.path = true ∨ run.dryRun = true ∨
    (e ∉ visited s run ∨ (∃ d ∈ s.prunedDirs blake3 run.toSyncRun, d <+: e.path) ∨
      s.target.held e.path = some e.stat) ∧
    (run.verify = false ∨ run.endsAfter ≠ none ∨ s.target.held e.path = none)

/-! ## The walk -/

variable {blake3 s run} {pruned : List Path}

theorem fst_foldl_visitEntry (entries : List SourceEntry)
    (walk : (Path → Option Stat) × List Path) :
    (entries.foldl (visitEntry run pruned) walk).1 =
      entries.foldl (visit run.toSyncRun pruned) walk.1 := by
  induction entries generalizing walk with
  | nil => rfl
  | cons e entries ih => exact ih _

/-- The visits of other entries do not change whether an entry is copied. -/
theorem mem_foldl_visitEntry {entries : List SourceEntry}
    (hnodup : (entries.map SourceEntry.path).Nodup) (walk : (Path → Option Stat) × List Path)
    (path : Path) :
    path ∈ (entries.foldl (visitEntry run pruned) walk).2 ↔
      path ∈ walk.2 ∨ ∃ e ∈ entries, e.path = path ∧ copies run pruned walk.1 e = true := by
  induction entries generalizing walk with
  | nil => simp
  | cons x entries ih =>
    rw [List.map_cons, List.nodup_cons] at hnodup
    have hcopies : ∀ e ∈ entries, copies run pruned (visitEntry run pruned walk x).1 e =
        copies run pruned walk.1 e := by
      intro e he
      have hne : e.path ≠ x.path := fun h => hnodup.1 (h ▸ List.mem_map_of_mem he)
      have hheld : (visitEntry run pruned walk x).1 e.path = walk.1 e.path :=
        visit_of_ne walk.1 pruned hne
      rw [copies, copies, hheld]
    have hrest : (∃ e ∈ entries, e.path = path ∧
        copies run pruned (visitEntry run pruned walk x).1 e = true) ↔
        ∃ e ∈ entries, e.path = path ∧ copies run pruned walk.1 e = true := by
      refine exists_congr fun e => and_congr_right fun he => ?_
      rw [hcopies e he]
    have hfirst : path ∈ (visitEntry run pruned walk x).2 ↔
        path ∈ walk.2 ∨ x.path = path ∧ copies run pruned walk.1 x = true := by
      rw [visitEntry]
      dsimp only
      split_ifs with hx
      · simp [hx, eq_comm]
      · simp [hx]
    rw [List.foldl_cons, ih hnodup.2, hrest, hfirst, List.exists_mem_cons_iff, or_assoc]

/-! ## Files that are left out -/

theorem visited_sublist : (visited s run).Sublist s.source.entries := by
  rw [visited]
  cases run.endsAfter with
  | none => exact List.Sublist.refl _
  | some n => exact List.take_sublist n _

theorem visited_nodup : ((visited s run).map SourceEntry.path).Nodup :=
  (visited_sublist.map _).nodup s.source.nodup

theorem mem_copied {e : SourceEntry} (he : e ∈ s.source.entries) :
    e.path ∈ (walk blake3 s run).2 ↔ e ∈ visited s run ∧
      copies run (s.prunedDirs blake3 run.toSyncRun) s.target.held e = true := by
  rw [walk, mem_foldl_visitEntry visited_nodup]
  constructor
  · rintro (hnil | ⟨x, hx, hpath, hcopies⟩)
    · cases hnil
    · obtain rfl := List.inj_on_of_nodup_map s.source.nodup (visited_sublist.subset hx) he hpath
      exact ⟨hx, hcopies⟩
  · rintro ⟨hvisited, hcopies⟩
    exact .inr ⟨e, hvisited, rfl, hcopies⟩

theorem held_of_not_copied {e : SourceEntry} (he : e ∈ s.source.entries)
    (h : e.path ∉ (walk blake3 s run).2) :
    (walk blake3 s run).1 e.path = s.target.held e.path := by
  rw [mem_copied he] at h
  rw [walk, fst_foldl_visitEntry]
  by_cases hvisited : e ∈ visited s run
  · rw [visits_of_mem _ visited_nodup hvisited, visit_self]
    exact if_neg fun hcopies => h ⟨hvisited, hcopies⟩
  · refine visits_of_notMem _ (fun x hx hpath => hvisited ?_) _
    exact List.inj_on_of_nodup_map s.source.nodup (visited_sublist.subset hx) he hpath ▸ hx

theorem mem_verified {e : SourceEntry} (he : e ∈ s.source.entries) :
    e.path ∈ verified blake3 s run ↔ run.verify = true ∧ run.dryRun = false ∧
      run.endsAfter = none ∧ e.kind = .file ∧ run.rules.shouldSkip e.path = false ∧
        (walk blake3 s run).1 e.path ≠ none := by
  rw [verified]
  split_ifs with hpass
  · simp only [Bool.and_eq_true, Bool.not_eq_true', Option.isNone_iff_eq_none] at hpass
    constructor
    · intro hmem
      obtain ⟨x, hx, hpath⟩ := List.mem_map.mp hmem
      obtain ⟨hxe, hkept⟩ := List.mem_filter.mp hx
      obtain rfl := List.inj_on_of_nodup_map s.source.nodup hxe he hpath
      simp only [Bool.and_eq_true, decide_eq_true_eq, Bool.not_eq_true'] at hkept
      exact ⟨hpass.1.1, hpass.1.2, hpass.2, hkept.1.1, hkept.1.2,
        Option.isSome_iff_ne_none.mp hkept.2⟩
    · rintro ⟨-, -, -, hfile, hskip, hheld⟩
      refine List.mem_map.mpr ⟨e, List.mem_filter.mpr ⟨he, ?_⟩, rfl⟩
      simp [hfile, hskip, Option.isSome_iff_ne_none.mpr hheld]
  · refine iff_of_false List.not_mem_nil ?_
    rintro ⟨hverify, hdry, hends, -⟩
    exact hpass (by simp [hverify, hdry, hends])

theorem copies_iff {e : SourceEntry} {held : Path → Option Stat} (hfile : e.kind = .file) :
    copies run pruned held e = true ↔ run.rules.shouldSkip e.path = false ∧
      (¬∃ d ∈ pruned, d <+: e.path) ∧ held e.path ≠ some e.stat ∧ run.dryRun = false := by
  simp [copies, hfile, and_assoc]

/-- A file that no include pattern matches is left out if it is passed by. -/
theorem leftOut_iff {e : SourceEntry} (he : e ∈ s.source.entries) (hfile : e.kind = .file)
    (hincluded : run.rules.included e.path = false) :
    LeftOut blake3 s run e ↔ Passed blake3 s run e := by
  have hskip : run.rules.shouldSkip e.path = run.rules.excluded e.path := by
    simp [Deletion.FilterRules.shouldSkip, hincluded]
  have hcopied := @mem_copied blake3 s run e he
  have hverified := @mem_verified blake3 s run e he
  rw [copies_iff hfile, hskip] at hcopied
  rw [hskip] at hverified
  constructor
  · rintro ⟨hnotCopied, hnotVerified, -⟩
    have hheld := held_of_not_copied he hnotCopied
    rw [hcopied] at hnotCopied
    rw [hverified, hheld] at hnotVerified
    cases hexcluded : run.rules.excluded e.path with
    | true => exact .inl hexcluded
    | false =>
      cases hdry : run.dryRun with
      | true => exact .inr (.inl hdry)
      | false =>
        refine .inr (.inr ⟨?_, ?_⟩)
        · by_contra hdue
          push Not at hdue
          exact hnotCopied ⟨hdue.1, hexcluded, by simpa using hdue.2.1, hdue.2.2, hdry⟩
        · by_contra hdue
          push Not at hdue
          exact hnotVerified ⟨by simpa using hdue.1, hdry, hdue.2.1, hfile, hexcluded, hdue.2.2⟩
  · intro hpassed
    have hnotCopied : e.path ∉ (walk blake3 s run).2 := by
      rw [hcopied]
      rintro ⟨hvisited, hexcluded, hpruned, hdiffers, hdry⟩
      obtain h | h | ⟨h | h | h, -⟩ := hpassed
      · rw [hexcluded] at h
        cases h
      · rw [hdry] at h
        cases h
      · exact h hvisited
      · exact hpruned h
      · exact hdiffers h
    have hheld := held_of_not_copied he hnotCopied
    refine ⟨hnotCopied, ?_, fun hcreated => hcreated.2 (hheld.trans hcreated.1)⟩
    rw [hverified, hheld]
    rintro ⟨hverify, hdry, hends, -, hexcluded, hpresent⟩
    obtain h | h | ⟨-, h | h | h⟩ := hpassed
    · rw [hexcluded] at h
      cases h
    · rw [hdry] at h
      cases h
    · rw [hverify] at h
      cases h
    · exact h hends
    · exact hpresent h

/-- The files below excluded directories are left out if and only if each of them that no include
pattern matches is passed by on its own. -/
theorem hereditary_iff (blake3 : Bytes → Bytes) (s : SyncState) (run : Invocation) :
    Hereditary blake3 s run ↔ ∀ d ∈ s.source.dirs, run.rules.shouldSkip d = true →
      ∀ e ∈ s.source.entries, e.kind = .file → d <+: e.path →
        run.rules.included e.path = false → Passed blake3 s run e := by
  refine forall₂_congr fun d _ => forall_congr' fun _ => forall₂_congr fun e he =>
    forall_congr' fun hfile => forall_congr' fun _ => forall_congr' fun hincluded => ?_
  exact leftOut_iff he hfile hincluded

/-! ## An excluded directory with a file -/

/-- A directory with a file, and nothing on the target. -/
def gitState : SyncState :=
  .start ⟨[⟨[".git"], .dir, ⟨0, 0, 0⟩⟩, ⟨[".git", "config"], .file, ⟨1, 0, 0⟩⟩], by decide⟩
    fun _ => none

/-- A run that excludes the name of the directory. -/
def gitRun : Invocation where
  rules := ⟨[fun path => pathText path = ".git"], []⟩
  archive := true
  dryRun := false
  outcome := fun _ => .copied 0 0 true
  removed := []
  hashStored := fun _ => true
  verify := false
  endsAfter := none

/-- The directory is excluded, and the file is copied. -/
theorem gitConfig_copied :
    ¬∀ (blake3 : Bytes → Bytes) (s : SyncState) (run : Invocation), Hereditary blake3 s run := by
  intro hall
  have hout := hall (fun _ => []) gitState gitRun [".git"] (by decide +kernel) (by decide +kernel)
    ⟨[".git", "config"], .file, ⟨1, 0, 0⟩⟩ (by decide +kernel) rfl (by decide) rfl
  exact hout.1 (by decide +kernel)

end Foxing.ExcludedSubtrees
