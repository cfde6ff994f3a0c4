import Foxing.DeletePass

/-!
# What the delete passes remove

A walk removes an entry exactly when neither it nor anything in it is exempt or
found on the source. From this follow the conditions under which a walk spares
whatever the source has, and the files that foxing itself keeps on the target;
and when a replay of the journal removes no more than the walk would.
-/
namespace Foxing.Deletion

/-- Something inside the entry has to stay. -/
def HoldsKept (exempt : Path → Bool) (source : SourceView) (target : TargetTree)
    (e : TargetEntry) : Prop :=
  ∃ x ∈ target.entries, x.isBelow e = true ∧ drops exempt source x = false

instance (exempt : Path → Bool) (source : SourceView) (target : TargetTree) (e : TargetEntry) :
    Decidable (HoldsKept exempt source target e) :=
  inferInstanceAs (Decidable (∃ x ∈ target.entries, _))

section
variable {exempt : Path → Bool} {source : SourceView} {target : TargetTree}

theorem drops_eq_false_iff (e : TargetEntry) : drops exempt source e = false ↔
    e.path = [] ∨ exempt e.path = true ∨ source.exists e.path = true := by
  by_cases hroot : e.path = []
  · simp [drops, hroot]
  · cases hexempt : exempt e.path <;> simp [drops, hroot, hexempt]

/-- What a walk leaves. -/
theorem mem_walk (e : TargetEntry) : e ∈ walk exempt source target ↔
    e ∈ target.entries ∧ (drops exempt source e = false ∨ HoldsKept exempt source target e) := by
  rw [walk, Sweep.mem_sweep TargetEntry.isBelow_trans TargetEntry.isBelow_self
    target.nodup.of_map target.contentsFirst e, and_congr_right_iff]
  intro _
  unfold Sweep.Gone HoldsKept
  constructor
  · intro hnot
    by_cases hdrops : drops exempt source e = false
    · exact .inl hdrops
    · right
      by_contra hnone
      push Not at hnone
      refine hnot ⟨by simpa using hdrops, fun x hx hbelow => ?_⟩
      simpa using hnone x hx hbelow
  · rintro (hkeep | ⟨x, hx, hbelow, hkeep⟩) ⟨hdrops, hall⟩
    · rw [hkeep] at hdrops
      cases hdrops
    · rw [hall x hx hbelow] at hkeep
      cases hkeep

end

/-! ## Entries that the source has -/

/-- Nothing is removed that has an entry on the source. -/
def RemovesOnlyMissing (source : SourceView) (target : TargetTree) (left : List TargetEntry) :
    Prop :=
  ∀ e ∈ target.entries, e ∉ left → e.path ≠ [] → source.entry e.path = none

/-- An examination of the path succeeds and does not end at a link that leads nowhere. -/
def SourceView.Reaches (v : SourceView) (rel : Path) : Prop :=
  v.failing rel = false ∧ v.entry rel ≠ some (.symlink false)

instance (v : SourceView) (rel : Path) : Decidable (v.Reaches rel) :=
  inferInstanceAs (Decidable (_ ∧ _))

theorem SourceView.exists_iff_reaches {v : SourceView} {rel : Path} (h : v.entry rel ≠ none) :
    v.exists rel = true ↔ v.Reaches rel := by
  unfold SourceView.exists SourceView.Reaches
  cases hfail : v.failing rel with
  | true => simp
  | false =>
    cases hentry : v.entry rel with
    | none => exact absurd hentry h
    | some kind =>
      cases kind with
      | symlink found => cases found <;> simp
      | _ => simp

/-- The walk sees what it needs to see: an entry that the source has is exempt, or reached,
or holds something that is. -/
def SeesSource (exempt : Path → Bool) (source : SourceView) (target : TargetTree) : Prop :=
  ∀ e ∈ target.entries, e.path ≠ [] → source.entry e.path ≠ none →
    exempt e.path = true ∨ source.Reaches e.path ∨ HoldsKept exempt source target e

theorem removesOnlyMissing_walk (exempt : Path → Bool) (source : SourceView)
    (target : TargetTree) :
    RemovesOnlyMissing source target (walk exempt source target) ↔
      SeesSource exempt source target := by
  have hkept : ∀ e ∈ target.entries, e.path ≠ [] → source.entry e.path ≠ none →
      (e ∈ walk exempt source target ↔
        exempt e.path = true ∨ source.Reaches e.path ∨ HoldsKept exempt source target e) := by
    intro e he hroot hentry
    rw [mem_walk, drops_eq_false_iff, SourceView.exists_iff_reaches hentry]
    simp [he, hroot, or_assoc]
  constructor
  · intro h e he hroot hentry
    rw [← hkept e he hroot hentry]
    by_contra hgone
    exact hentry (h e he hgone hroot)
  · intro h e he hgone hroot
    by_contra hentry
    exact hgone ((hkept e he hroot hentry).mpr (h e he hroot hentry))

/-- Both passes remove nothing that the source has exactly when, to each of them, every
such entry is exempt, or reached, or holds something that is. -/
theorem removesOnlyMissing_iff (source : SourceView) (rules : FilterRules) (paused : Bool)
    (target : TargetTree) :
    RemovesOnlyMissing source target (removeStaleFiles source paused target) ∧
      RemovesOnlyMissing source target (walkExtraFiles source rules target).1 ↔
    (paused = true ∨ SeesSource Hydration.reservedText source target) ∧
      SeesSource (walkExempt rules) source target := by
  have hstale : RemovesOnlyMissing source target (removeStaleFiles source paused target) ↔
      paused = true ∨ SeesSource Hydration.reservedText source target := by
    cases paused with
    | true =>
      simp only [true_or, iff_true]
      intro e he hgone
      exact absurd he hgone
    | false => simpa [removeStaleFiles] using removesOnlyMissing_walk _ source target
  rw [hstale]
  exact and_congr_right fun _ => removesOnlyMissing_walk _ source target

/-- A source with a link that leads nowhere. -/
def danglingSource : SourceView where
  entry rel := if rel = [] then some .dir else if rel = ["link"] then some (.symlink false) else none
  failing _ := false
  behindLink _ := false

def linkTarget : TargetTree where
  entries := [⟨["link"], false⟩, ⟨[], true⟩]
  nodup := by decide
  contentsFirst := by decide
  rooted := by decide

/-- The mirror of the link is removed. -/
theorem danglingSource_removed :
    ¬ (RemovesOnlyMissing danglingSource linkTarget
        (removeStaleFiles danglingSource false linkTarget) ∧
      RemovesOnlyMissing danglingSource linkTarget
        (walkExtraFiles danglingSource ⟨[], []⟩ linkTarget).1) := by
  rintro ⟨-, h⟩
  have hmissing := h ⟨["link"], false⟩ (by decide) (by decide +kernel) (by decide)
  revert hmissing
  decide

/-! ## The state of foxing on the target -/

/-- The version store, the sidecar files of files that the source has, and the journal. -/
def OwnState (source : SourceView) (rel : Path) : Prop :=
  [".foxing_versions"] <+: rel ∨
  (∃ name, rel.getLast? = some ("." ++ name ++ ".foxing_meta") ∧
    source.entry (rel.dropLast ++ [name]) ≠ none) ∨
  ∃ name ∈ rel.getLast?, ".foxing_tombstones".toList <:+: name.toList

/-- The walk keeps the state of foxing exactly when every part of it is skipped by the
rules, or named like the journal, or found on the source, or holds something that is. -/
theorem keepsOwnState_iff (source : SourceView) (rules : FilterRules) (target : TargetTree) :
    (∀ e ∈ target.entries, OwnState source e.path →
      e ∈ (walkExtraFiles source rules target).1) ↔
    ∀ e ∈ target.entries, OwnState source e.path → e.path = [] ∨
      rules.shouldSkip e.path = true ∨ namesTombstones e.path = true ∨
        source.exists e.path = true ∨ HoldsKept (walkExempt rules) source target e := by
  refine forall₂_congr fun e he => imp_congr_right fun _ => ?_
  rw [walkExtraFiles, mem_walk, drops_eq_false_iff]
  simp [he, walkExempt, or_assoc]

def emptySource : SourceView where
  entry rel := if rel = [] then some .dir else none
  failing _ := false
  behindLink _ := false

/-- A version store with one snapshot. -/
def snapshotTarget : TargetTree where
  entries := [⟨[".foxing_versions", "s1"], false⟩, ⟨[".foxing_versions"], true⟩, ⟨[], true⟩]
  nodup := by decide
  contentsFirst := by decide
  rooted := by decide

/-- The walk removes it. -/
theorem snapshotTarget_removed :
    ¬ ∀ e ∈ snapshotTarget.entries, OwnState emptySource e.path →
      e ∈ (walkExtraFiles emptySource ⟨[], []⟩ snapshotTarget).1 := by
  intro h
  have hkept := h ⟨[".foxing_versions", "s1"], false⟩ (by decide) (.inl (by decide))
  revert hkept
  decide +kernel

/-! ## The journal against the walk -/

/-- The replay of a journal removes nothing that the walk would keep, so nothing that is
found on the source, and goes by the rules as the walk does. -/
structure ReplayAgrees (source : SourceView) (rules : FilterRules) (target : TargetTree)
    (journal : List TombstoneEntry) : Prop where
  subset : ∀ e ∈ target.entries, e ∉ replayTombstones rules target.entries journal →
    e ∉ (walkExtraFiles source rules target).1
  missing : ∀ e ∈ target.entries, e ∉ replayTombstones rules target.entries journal →
    source.exists e.path = false
  rules : ∀ t ∈ journal, rules.excluded t.relPath = rules.shouldSkip t.relPath

/-- The condition on an entry of the journal, in the state in which the replay comes to
it: if it is going to remove something, this is not on the source and not the journal. -/
def ReplaySafe (source : SourceView) (rules : FilterRules) (left : List TargetEntry)
    (t : TombstoneEntry) : Prop :=
  rules.excluded t.relPath = false → removable left t = true →
    t.relPath ≠ [] ∧ namesTombstones t.relPath = false ∧ source.exists t.relPath = false

section
variable {source : SourceView} {rules : FilterRules} {target : TargetTree}

theorem replayTombstone_subset (left : List TargetEntry) (t : TombstoneEntry) :
    replayTombstone rules left t ⊆ left := by
  unfold replayTombstone
  split
  · exact List.Subset.refl _
  · split
    · exact List.filter_subset_self _
    · exact List.Subset.refl _

theorem replayTombstones_subset (left : List TargetEntry) (journal : List TombstoneEntry) :
    replayTombstones rules left journal ⊆ left := by
  induction journal generalizing left with
  | nil => exact List.Subset.refl _
  | cons t journal ih => exact List.Subset.trans (ih _) (replayTombstone_subset left t)

/-- What the replay removes, it removes for an entry that is not excluded. -/
theorem not_mem_replayTombstone {left : List TargetEntry} {t : TombstoneEntry} {e : TargetEntry}
    (he : e ∈ left) (hgone : e ∉ replayTombstone rules left t) :
    e = ⟨t.relPath, t.isDir⟩ ∧ rules.excluded t.relPath = false ∧ removable left t = true := by
  unfold replayTombstone at hgone
  split at hgone
  · exact absurd he hgone
  next hexcluded =>
  split at hgone
  · next hremovable =>
    refine ⟨?_, by simpa using hexcluded, hremovable⟩
    by_contra hne
    exact hgone (List.mem_filter.mpr ⟨he, by simpa using hne⟩)
  · exact absurd he hgone

theorem drops_walkExempt {e : TargetEntry} (hroot : e.path ≠ [])
    (hexcluded : rules.excluded e.path = false) (hname : namesTombstones e.path = false)
    (hmissing : source.exists e.path = false) : drops (walkExempt rules) source e = true := by
  simp [drops, walkExempt, hroot, hname, hmissing, FilterRules.shouldSkip_eq_false hexcluded]

/-- In a safe replay everything removed so far would be removed by the walk, too. -/
theorem gone_of_replaySafe {journal : List TombstoneEntry}
    (h : Run.Along (replayTombstone rules) (ReplaySafe source rules) target.entries journal) :
    ∀ e ∈ target.entries, e ∉ replayTombstones rules target.entries journal →
      Sweep.Gone (drops (walkExempt rules) source) TargetEntry.isBelow target.entries e := by
  refine Run.invariant (replayTombstone rules) (I := fun left => ∀ e ∈ target.entries, e ∉ left →
    Sweep.Gone (drops (walkExempt rules) source) TargetEntry.isBelow target.entries e) ?_ h
    (fun e he hgone => absurd he hgone)
  intro left t hsafe ih e he hgone
  by_cases hleft : e ∈ left
  swap
  · exact ih e he hleft
  obtain ⟨rfl, hexcluded, hremovable⟩ := not_mem_replayTombstone hleft hgone
  obtain ⟨hroot, hname, hmissing⟩ := hsafe hexcluded hremovable
  refine ⟨drops_walkExempt hroot hexcluded hname hmissing, fun x hx hbelow => ?_⟩
  -- the directory was empty, so what is below it has been removed before
  have hempty : x ∉ left := by
    intro hin
    simp only [removable, Bool.and_eq_true, List.all_eq_true] at hremovable
    have hnot := hremovable.2 x hin
    rw [hbelow] at hnot
    cases hnot
  exact (ih x hx hempty).1

/-- A replay that removes only what may go is safe. -/
theorem replaySafe_of_drops (journal : List TombstoneEntry) (left : List TargetEntry)
    (h : ∀ e ∈ left, e ∉ replayTombstones rules left journal →
      drops (walkExempt rules) source e = true) :
    Run.Along (replayTombstone rules) (ReplaySafe source rules) left journal := by
  induction journal generalizing left with
  | nil => trivial
  | cons t journal ih =>
    refine ⟨?_, ih _ ?_⟩
    · intro hexcluded hremovable
      have hin : ⟨t.relPath, t.isDir⟩ ∈ left := by
        simp only [removable, Bool.and_eq_true, List.contains_iff_mem] at hremovable
        exact hremovable.1
      have hout : (⟨t.relPath, t.isDir⟩ : TargetEntry) ∉
          replayTombstones rules left (t :: journal) := by
        intro hmem
        have hstep := replayTombstones_subset _ journal hmem
        simp [replayTombstone, hexcluded, hremovable] at hstep
      have hdrops := h _ hin hout
      simp only [drops, walkExempt, Bool.and_eq_true, Bool.not_eq_true', Bool.or_eq_false_iff,
        decide_eq_true_eq] at hdrops
      exact ⟨hdrops.1.1, hdrops.1.2.2, hdrops.2⟩
    · intro e he hgone
      exact h e (replayTombstone_subset left t he) hgone

end

/-- The replay agrees with the walk exactly when no entry of the journal that removes
something finds it on the source or names the journal, and none is matched by an exclude
and an include pattern. -/
theorem replayAgrees_iff (source : SourceView) (rules : FilterRules) (target : TargetTree)
    (journal : List TombstoneEntry) :
    ReplayAgrees source rules target journal ↔
      Run.Along (replayTombstone rules) (ReplaySafe source rules) target.entries journal ∧
      ∀ t ∈ journal, ¬ (rules.excluded t.relPath = true ∧ rules.included t.relPath = true) := by
  have hwalk : ∀ e, e ∈ (walkExtraFiles source rules target).1 ↔ e ∈ target.entries ∧
      ¬ Sweep.Gone (drops (walkExempt rules) source) TargetEntry.isBelow target.entries e :=
    Sweep.mem_sweep TargetEntry.isBelow_trans TargetEntry.isBelow_self target.nodup.of_map
      target.contentsFirst
  have hrules : ∀ rel, rules.excluded rel = rules.shouldSkip rel ↔
      ¬ (rules.excluded rel = true ∧ rules.included rel = true) := by
    intro rel
    cases hex : rules.excluded rel <;> simp [FilterRules.shouldSkip, hex]
  constructor
  · intro h
    refine ⟨replaySafe_of_drops journal target.entries fun e he hgone => ?_,
      fun t ht => (hrules t.relPath).mp (h.rules t ht)⟩
    have hnot := h.subset e he hgone
    rw [hwalk] at hnot
    push Not at hnot
    exact (hnot he).1
  · rintro ⟨halong, hboth⟩
    have hgone := gone_of_replaySafe halong
    refine ⟨fun e he hout hin => ((hwalk e).mp hin).2 (hgone e he hout), fun e he hout => ?_,
      fun t ht => (hrules t.relPath).mpr (hboth t ht)⟩
    have hdrops := (hgone e he hout).1
    simp only [drops, Bool.and_eq_true, Bool.not_eq_true'] at hdrops
    exact hdrops.2

/-- A file that was deleted, and is back on the source and the target. -/
def recreatedSource : SourceView where
  entry rel := if rel = [] then some .dir else if rel = ["a"] then some .file else none
  failing _ := false
  behindLink _ := false

def recreatedTarget : TargetTree where
  entries := [⟨[".foxing_tombstones.jsonl"], false⟩, ⟨["a"], false⟩, ⟨[], true⟩]
  nodup := by decide
  contentsFirst := by decide
  rooted := by decide

/-- The replay of the old deletion removes the new file. -/
theorem recreatedSource_removed :
    ¬ ReplayAgrees recreatedSource ⟨[], []⟩ recreatedTarget [⟨["a"], false, 1741400000, 42⟩] := by
  intro h
  have hmissing := h.missing ⟨["a"], false⟩ (by decide) (by decide)
  revert hmissing
  decide

end Foxing.Deletion
