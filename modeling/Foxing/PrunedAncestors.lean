import Foxing.DirScan
import Foxing.Lib.Sweep

/-!
# What a full scan passes over

A directory is verified if its hash is the stored one on every target and no child there is
dirty. A verified directory is put among the pruned ones, and one that differs takes all its
ancestors out again. A directory without recorded children has no hash: it does neither, and
what is in it is passed over together with a verified ancestor.
-/
namespace Foxing.PrunedAncestors
open DirHash DirScan

/-- A source as a walk finds it: what is above an entry is a directory of the walk. -/
structure WalkedTree extends SourceTree where
  parents : ∀ e ∈ entries, ∀ d, d <+: e.path → d ≠ e.path → d ∈ toSourceTree.dirs

/-- The state with the source of a walk. -/
def walking {τ : Type*} (s : ScanState τ) (source : WalkedTree) : ScanState τ :=
  { s with source := source.toSourceTree }

variable {τ : Type*} (blake3 : Bytes → Bytes) (targets : List τ) (s : ScanState τ)
  (scan : FullScan τ)

/-- The files that a scan does not pass over. -/
def filesToCheck (source : SourceTree) (pruned : List Path) : List SourceEntry :=
  source.entries.filter fun e => e.kind = .file && !pruned.any fun d => d.isPrefixOf e.path

/-- The directory has a hash, and it agrees on every target. -/
def Verified (dir : Path) : Prop :=
  ∃ hash, computeDirHashFromPath blake3 s.source dir = some hash ∧
    targets.all (s.agrees scan hash dir) = true

/-- The directory has a hash, and it differs on some target. -/
def Mismatched (dir : Path) : Prop :=
  ∃ hash, computeDirHashFromPath blake3 s.source dir = some hash ∧
    targets.all (s.agrees scan hash dir) = false

/-- A file is passed over only if every directory from a pruned one down to its own is verified. -/
def FilesVerified : Prop :=
  ∀ e ∈ s.source.entries, e.kind = .file →
    e ∉ filesToCheck s.source (s.prunedDirs blake3 targets scan) →
    ∃ top ∈ s.prunedDirs blake3 targets scan, top <+: e.path ∧
      (∀ d ∈ s.prunedDirs blake3 targets scan, d <+: e.path → top <+: d) ∧
      ∀ d, top <+: d → d <+: e.path → d ≠ e.path → Verified blake3 targets s scan d

/-- A directory that is not verified has no pruned ancestor. -/
def AncestorsKept : Prop :=
  ∀ dir ∈ s.source.dirs, ¬Verified blake3 targets s scan dir →
    ∀ d ∈ s.prunedDirs blake3 targets scan, ¬(d <+: dir ∧ d ≠ dir)

/-- All directories with a hash agree, in this one and below. -/
def Agreeing (dir : Path) : Prop :=
  Verified blake3 targets s scan dir ∧
    ∀ d ∈ s.source.dirs, dir <+: d → ¬Mismatched blake3 targets s scan d

/-- No directory on the way to a file is without recorded children and below one that agrees with
all that is in it. -/
def FilesCovered : Prop :=
  ∀ e ∈ s.source.entries, e.kind = .file → ∀ dir, dir <+: e.path → dir ≠ e.path →
    computeDirHashFromPath blake3 s.source dir = none →
    ∀ d ∈ s.source.dirs, d ≠ [] → d <+: dir → ¬Agreeing blake3 targets s scan d

/-- No directory at all is. -/
def DirsCovered : Prop :=
  ∀ dir ∈ s.source.dirs, computeDirHashFromPath blake3 s.source dir = none →
    ∀ d ∈ s.source.dirs, d ≠ [] → d <+: dir → ¬Agreeing blake3 targets s scan d

/-! ## The pruned directories -/

section
variable {blake3 targets s scan}

theorem not_mismatched {dir : Path} (h : Verified blake3 targets s scan dir) :
    ¬Mismatched blake3 targets s scan dir := by
  obtain ⟨hash, hhash, hall⟩ := h
  rintro ⟨hash', hhash', hdiffers⟩
  obtain rfl := Option.some.inj (hhash.symm.trans hhash')
  rw [hall] at hdiffers
  cases hdiffers

/-- A directory with a hash is verified or differs. -/
theorem hash_eq_none_of_not {dir : Path} (hverified : ¬Verified blake3 targets s scan dir)
    (hmismatched : ¬Mismatched blake3 targets s scan dir) :
    computeDirHashFromPath blake3 s.source dir = none := by
  cases hhash : computeDirHashFromPath blake3 s.source dir with
  | none => rfl
  | some hash =>
    cases hall : targets.all (s.agrees scan hash dir) with
    | true => exact absurd ⟨hash, hhash, hall⟩ hverified
    | false => exact absurd ⟨hash, hhash, hall⟩ hmismatched

/-- What a directory's own comparison says; the root is not compared. -/
def verdict (blake3 : Bytes → Bytes) (targets : List τ) (s : ScanState τ) (scan : FullScan τ)
    (dir : Path) : Option Bool :=
  if dir = [] then none
  else (computeDirHashFromPath blake3 s.source dir).map fun hash =>
    targets.all (s.agrees scan hash dir)

theorem verdict_eq_true {dir : Path} : verdict blake3 targets s scan dir = some true ↔
    dir ≠ [] ∧ Verified blake3 targets s scan dir := by
  rw [verdict, Verified]
  split_ifs with hroot
  · simp [hroot]
  · simp [hroot, Option.map_eq_some_iff]

theorem verdict_eq_false {dir : Path} : verdict blake3 targets s scan dir = some false ↔
    dir ≠ [] ∧ Mismatched blake3 targets s scan dir := by
  rw [verdict, Mismatched]
  split_ifs with hroot
  · simp [hroot]
  · simp [hroot, Option.map_eq_some_iff]

/-- A visit of the scan marks the directory or takes the marks of its ancestors away. -/
theorem pruneStep_eq_mark : s.pruneStep blake3 targets scan =
    Sweep.mark (verdict blake3 targets s scan) fun d dir => d.isPrefixOf dir && d ≠ dir := by
  funext pruned dir
  rw [ScanState.pruneStep, Sweep.mark, verdict]
  split_ifs with hroot
  · rfl
  · cases computeDirHashFromPath blake3 s.source dir with
    | none => rfl
    | some hash =>
      dsimp only [Option.map_some]
      cases targets.all (s.agrees scan hash dir) <;> rfl

theorem pairwise_byLength (dirs : List Path) :
    (dirs.insertionSort fun a b => a.length ≤ b.length).Pairwise fun a b => a.length ≤ b.length :=
  have : Std.Total fun a b : Path => a.length ≤ b.length := ⟨fun _ _ => Nat.le_total _ _⟩
  have : IsTrans Path fun a b => a.length ≤ b.length := ⟨fun _ _ _ => Nat.le_trans⟩
  List.pairwise_insertionSort _ dirs

/-- A directory is pruned in the end if it is not the root and agrees with all that is in it. -/
theorem mem_prunedDirs {dir : Path} : dir ∈ s.prunedDirs blake3 targets scan ↔
    dir ∈ s.source.dirs ∧ dir ≠ [] ∧ Agreeing blake3 targets s scan dir := by
  have horder : (s.source.dirs.insertionSort fun a b => a.length ≤ b.length).Pairwise
      fun a b => (b.isPrefixOf a && decide (b ≠ a)) = false := by
    refine List.Pairwise.imp (fun {a b} hle => ?_) (pairwise_byLength s.source.dirs)
    rw [← Bool.not_eq_true]
    intro habove
    simp only [Bool.and_eq_true, List.isPrefixOf_iff_prefix, decide_eq_true_eq] at habove
    exact habove.2 (habove.1.eq_of_length_le hle)
  rw [ScanState.prunedDirs, pruneStep_eq_mark, Sweep.mem_foldl_mark _ horder, verdict_eq_true,
    and_assoc, List.mem_insertionSort]
  refine and_congr_right fun _ => and_congr_right fun hroot =>
    and_congr_right fun hverified => ?_
  constructor
  · intro hbelow d hd hlies hmismatched
    by_cases heq : dir = d
    · exact not_mismatched (heq ▸ hverified) hmismatched
    · refine hbelow d ((List.mem_insertionSort _).mpr hd) ?_
        (verdict_eq_false.mpr ⟨?_, hmismatched⟩)
      · simpa [heq] using hlies
      · rintro rfl
        exact hroot (List.prefix_nil.mp hlies)
  · intro hbelow d hd habove hfalse
    simp only [Bool.and_eq_true, List.isPrefixOf_iff_prefix, decide_eq_true_eq] at habove
    exact hbelow d ((List.mem_insertionSort _).mp hd) habove.1 (verdict_eq_false.mp hfalse).2

/-! ## What is passed over -/

theorem not_mem_filesToCheck {source : SourceTree} {pruned : List Path} {e : SourceEntry}
    (he : e ∈ source.entries) (hfile : e.kind = .file) :
    e ∉ filesToCheck source pruned ↔ ∃ d ∈ pruned, d <+: e.path := by
  simp [filesToCheck, he, hfile]

/-- Of the directories above a path that are in a list, one is above all others. -/
theorem exists_topmost {dirs : List Path} {path : Path} (h : ∃ d ∈ dirs, d <+: path) :
    ∃ top ∈ dirs, top <+: path ∧ ∀ d ∈ dirs, d <+: path → top <+: d := by
  obtain ⟨d, hd, hlies⟩ := h
  have hlength : ∃ n, ∃ d ∈ dirs, d <+: path ∧ d.length = n := ⟨d.length, d, hd, hlies, rfl⟩
  obtain ⟨top, htop, habove, hleast⟩ := Nat.find_spec hlength
  refine ⟨top, htop, habove, fun other hother hotherAbove => ?_⟩
  refine List.prefix_of_prefix_length_le habove hotherAbove ?_
  rw [hleast]
  exact Nat.find_min' hlength ⟨other, hother, hotherAbove, rfl⟩

theorem ancestorsKept_iff :
    AncestorsKept blake3 targets s scan ↔ DirsCovered blake3 targets s scan := by
  constructor
  · intro hkept dir hdir hnone d hd hroot hlies hagreeing
    have hnot : ¬Verified blake3 targets s scan dir := by
      rintro ⟨hash, hhash, -⟩
      rw [hnone] at hhash
      cases hhash
    refine hkept dir hdir hnot d (mem_prunedDirs.mpr ⟨hd, hroot, hagreeing⟩) ⟨hlies, ?_⟩
    rintro rfl
    exact hnot hagreeing.1
  · intro hcovered dir hdir hnot d hpruned habove
    obtain ⟨hd, hroot, hagreeing⟩ := mem_prunedDirs.mp hpruned
    have hnone := hash_eq_none_of_not hnot (hagreeing.2 dir hdir habove.1)
    exact hcovered dir hdir hnone d hd hroot habove.1 hagreeing

theorem filesVerified_iff (source : WalkedTree) :
    FilesVerified blake3 targets (walking s source) scan ↔
      FilesCovered blake3 targets (walking s source) scan := by
  constructor
  · intro hverified e he hfile dir hdir hne hnone d hd hroot hlies hagreeing
    have hpruned := mem_prunedDirs.mpr ⟨hd, hroot, hagreeing⟩
    have hdropped := (not_mem_filesToCheck he hfile).mpr ⟨d, hpruned, hlies.trans hdir⟩
    obtain ⟨top, -, -, htopmost, hall⟩ := hverified e he hfile hdropped
    have htop := htopmost d hpruned (hlies.trans hdir)
    obtain ⟨hash, hhash, -⟩ := hall dir (htop.trans hlies) hdir hne
    rw [hnone] at hhash
    cases hhash
  · intro hcovered e he hfile hdropped
    obtain ⟨top, hpruned, habove, htopmost⟩ :=
      exists_topmost ((not_mem_filesToCheck he hfile).mp hdropped)
    refine ⟨top, hpruned, habove, htopmost, fun d htop hd hne => ?_⟩
    obtain ⟨htopDir, hroot, hagreeing⟩ := mem_prunedDirs.mp hpruned
    by_contra hnot
    have hnone := hash_eq_none_of_not hnot (hagreeing.2 d (source.parents e he d hd hne) htop)
    exact hcovered e he hfile d hd hne hnone top htopDir hroot htop hagreeing

end

/-- A scan passes over files in verified directories only if and only if no file has a directory
without recorded children on its way that is below an agreeing one; and what is not verified has
no pruned ancestor if and only if no such directory is anywhere. -/
theorem passes_over_verified_iff (source : WalkedTree) :
    (FilesVerified blake3 targets (walking s source) scan ↔
      FilesCovered blake3 targets (walking s source) scan) ∧
    (AncestorsKept blake3 targets (walking s source) scan ↔
      DirsCovered blake3 targets (walking s source) scan) :=
  ⟨filesVerified_iff source, ancestorsKept_iff⟩

/-! ## A directory without recorded children -/

def notesTree : WalkedTree where
  entries :=
    [⟨[], .dir, ⟨0, 0, 0⟩⟩, ⟨["a"], .dir, ⟨0, 0, 0⟩⟩, ⟨["a", "b"], .dir, ⟨0, 0, 0⟩⟩,
      ⟨["a", "b", ".foxing_notes"], .file, ⟨1, 0, 0⟩⟩]
  nodup := by decide
  parents := by
    intro e he d hd hne
    rw [← List.mem_inits] at hd
    revert d
    revert e
    decide +kernel

/-- A target on which only the outer directory has a hash. -/
def notesState : ScanState Unit :=
  { ScanState.start ⟨[], List.nodup_nil⟩ (fun _ _ => none) with
    target := fun _ => (HashedTarget.start fun _ => none).setHash ["a"] [] ⟨[], List.nodup_nil⟩ }

def notesScan : FullScan Unit where
  onTarget := fun _ _ => true
  childDirty := fun _ _ => false
  needed := fun _ _ => true
  accepted := fun _ _ => true
  later := notesTree.toSourceTree
  hashStored := fun _ _ => true
  removable := fun _ _ => false

/-- The file is passed over with the outer directory, and its own directory has no hash. -/
theorem notes_passed_over :
    ¬∀ (blake3 : Bytes → Bytes) (targets : List Unit) (s : ScanState Unit) (scan : FullScan Unit)
      (source : WalkedTree), FilesVerified blake3 targets (walking s source) scan := by
  intro hall
  have houter : computeDirHashFromPath (fun _ => []) notesTree.toSourceTree ["a"] = some [] := by
    decide +kernel
  have hinner : computeDirHashFromPath (fun _ => []) notesTree.toSourceTree ["a", "b"] = none := by
    decide +kernel
  have hverified : Verified (fun _ => []) [()] (walking notesState notesTree) notesScan ["a"] :=
    ⟨[], houter, by decide +kernel⟩
  have hpruned :
      ["a"] ∈ (walking notesState notesTree).prunedDirs (fun _ => []) [()] notesScan := by
    refine mem_prunedDirs.mpr ⟨by decide +kernel, by decide, hverified, fun d hd hlies => ?_⟩
    have hdirs : d = [] ∨ d = ["a"] ∨ d = ["a", "b"] := by
      simpa [walking, SourceTree.dirs, notesTree] using hd
    obtain rfl | rfl | rfl := hdirs
    · simp at hlies
    · exact not_mismatched hverified
    · rintro ⟨hash, hhash, -⟩
      cases hinner.symm.trans hhash
  have hfile := hall (fun _ => []) [()] notesState notesScan notesTree
    ⟨["a", "b", ".foxing_notes"], .file, ⟨1, 0, 0⟩⟩ (by decide +kernel) rfl
  rw [not_mem_filesToCheck (by decide +kernel) rfl] at hfile
  obtain ⟨top, -, -, htopmost, hdown⟩ := hfile ⟨["a"], hpruned, by decide⟩
  have htop : top <+: ["a"] := htopmost ["a"] hpruned (by decide)
  obtain ⟨hash, hhash, -⟩ := hdown ["a", "b"] (htop.trans (by decide)) (by decide) (by decide)
  cases hinner.symm.trans hhash

end Foxing.PrunedAncestors
