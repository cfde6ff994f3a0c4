import Foxing.Worker

/-!
# Containment in the target root

The worker acts below the root of its target. A resolved path is checked to be relative and
without a component that leads up, but a path for a known inode of another generation is
returned before the check, and the two ends of a rename are never checked. What is acted on
then stays below the root as long as the directory on record and the name do.

The maps may have changed between the resolution of an event and each of its names.
-/
namespace Foxing

/-- A path joined to the target root; an absolute one replaces it. -/
def Path.under (root p : Path) : Path := if p.head? = some "/" then p else root ++ p

/-- The root joined with a relative path that does not lead up. -/
def Path.Within (root full : Path) : Prop :=
  ∃ q, validateTargetRootContainment q = true ∧ full = root ++ q

/-- A name in a directory leads to a relative path that does not lead up, or to an absolute one
that goes on from the root like that. -/
def Path.staysBelow (root dir : Path) (name : String) : Bool :=
  let p := Path.join dir name
  if p.head? = some "/" then root.isPrefixOf p && validateTargetRootContainment (p.drop root.length)
  else validateTargetRootContainment p

/-- The directory that a name is looked up in, where an unknown one leaves the name by itself;
nothing if the thread panics. -/
def recordedDir (parent : U64) (w : World) : Option Path :=
  if parent = 0 then some []
  else
    match w.dirMap parent, w.inodeMap parent with
    | some path, _ => some path
    | none, some entry => entry.primaryPath
    | none, none => some []

/-- The directory that an event of a known inode is resolved in. -/
def specificDir (e : Event) (w : World) : Path :=
  if e.parentInode ≠ 0 ∧ e.name ≠ "" then (w.dirMap e.parentInode).getD [] else []

/-- The event is not blocked or excluded and gets to the arm for its type. -/
def reachesArm (config : TargetConfig) (e : Event) (w : World) : Bool :=
  ((resolveTarget e w).1.bind ResolveResult.path?).any fun p => !config.isPathExcluded p

/-- The ends that a rename is given by its names, with the maps as they are at each. -/
def renameEnds (config : TargetConfig) (e : Event) (w v v' : World) : List Path :=
  if e.eventType = .rename ∧ reachesArm config e w then
    match (resolveEventPath e.parentInode e.name v).1 with
    | none => []
    | some old => old :: (e.newName.bind fun newName =>
        (resolveEventPath e.newParentInode newName v').1).toList
  else []

/-- All that the event is resolved to is below the root of the target. -/
structure Contained (root : Path) (config : TargetConfig) (e : Event) (w v v' : World) : Prop where
  resolved : ∀ r p, (resolveTarget e w).1 = some r → r.path? = some p →
    Path.Within root (Path.under root p)
  ends : ∀ p ∈ renameEnds config e w v v', Path.Within root (Path.under root p)

/-- Where the check is passed by, the names stay below the root. -/
structure NamesStay (root : Path) (config : TargetConfig) (e : Event) (w v v' : World) : Prop where
  stale : ∀ entry, w.inodeMap e.inode = some entry → entry.generation ≠ U32.max →
    entry.generation ≠ e.generation → Path.staysBelow root (specificDir e w) e.name
  source : e.eventType = .rename → reachesArm config e w →
    ∀ dir, recordedDir e.parentInode v = some dir → Path.staysBelow root dir e.name
  destination : e.eventType = .rename → reachesArm config e w →
    recordedDir e.parentInode v ≠ none → ∀ newName, e.newName = some newName →
    ∀ dir, recordedDir e.newParentInode v' = some dir → Path.staysBelow root dir newName

namespace Path
variable {root p : Path}

theorem validate_relative (h : validateTargetRootContainment p = true) : p.head? ≠ some "/" := by
  intro hhead
  have := List.all_eq_true.mp h "/" (List.mem_of_head? hhead)
  simp at this

theorem within_under_of_validate (h : validateTargetRootContainment p = true) :
    Within root (under root p) :=
  ⟨p, h, if_neg (validate_relative h)⟩

/-- A name that is looked up leads below the root exactly if it stays there. -/
theorem within_under_join (dir : Path) (name : String) :
    Within root (under root (join dir name)) ↔ staysBelow root dir name := by
  unfold Within under staysBelow
  dsimp only
  generalize join dir name = p
  split_ifs
  · rw [Bool.and_eq_true, List.isPrefixOf_iff_prefix]
    constructor
    · rintro ⟨q, hq, rfl⟩
      refine ⟨List.prefix_append _ _, ?_⟩
      rwa [List.drop_left]
    · rintro ⟨⟨q, rfl⟩, hq⟩
      rw [List.drop_left] at hq
      exact ⟨q, hq, rfl⟩
  · constructor
    · rintro ⟨q, hq, heq⟩
      rwa [List.append_cancel_left heq]
    · exact fun h => ⟨p, h, rfl⟩

end Path

section Derivations
variable {root : Path} {e : Event} {w : World}

theorem components_eq_join (name : String) : components name = Path.join [] name := by
  unfold Path.join
  split_ifs <;> rfl

/-- A name is looked up in the directory on record. -/
theorem resolveEventPath_eq (parent : U64) (name : String) (w : World) :
    (resolveEventPath parent name w).1 =
      (recordedDir parent w).map fun dir => Path.join dir name := by
  by_cases hzero : parent = 0
  · subst hzero
    rw [resolveEventPath_zero, components_eq_join]
    rfl
  · rw [resolveEventPath_run hzero, recordedDir, if_neg hzero]
    cases hdir : w.dirMap parent with
    | some path => rw [resolveParent_of_dir hdir]; rfl
    | none =>
      rw [resolveParent_of_inode hdir]
      cases hentry : w.inodeMap parent with
      | none => simp [components_eq_join]
      | some entry => cases hprimary : entry.primaryPath <;> simp [hprimary]

theorem specificRelPath_getD (e : Event) (w : World) :
    (specificRelPath e w).getD (components e.name) = Path.join (specificDir e w) e.name := by
  unfold specificRelPath specificDir
  split_ifs
  · cases w.dirMap e.parentInode with
    | none => exact components_eq_join e.name
    | some path => rfl
  · exact components_eq_join e.name

/-- What passes the check is below the root. -/
theorem within_validated {relPath p : Path} {r : ResolveResult} (hr : r.path? = some relPath)
    (hp : (r.validated relPath).path? = some p) : Path.Within root (Path.under root p) := by
  unfold ResolveResult.validated at hp
  split_ifs at hp with hvalid
  · rw [hr] at hp
    cases hp
    exact Path.within_under_of_validate hvalid
  · cases hp

theorem within_resolveUnknown {r : ResolveResult} {p : Path}
    (hr : (resolveUnknown e w).1 = some r) (hp : r.path? = some p) :
    Path.Within root (Path.under root p) := by
  cases hbase : (resolveOwnParent e w).1 with
  | none =>
    rw [resolveUnknown_none (Prod.ext hbase rfl : resolveOwnParent e w = (none, _))] at hr
    cases hr
  | some base =>
    rw [resolveUnknown_run (Prod.ext hbase rfl : resolveOwnParent e w = (some base, _))] at hr
    simp only [Option.some.injEq] at hr
    subst hr
    refine within_validated ?_ hp
    split_ifs <;> rfl

theorem within_resolveKnown {entry : IdentityEntry} {r : ResolveResult} {p : Path}
    (hgen : entry.generation = U32.max ∨ entry.generation = e.generation)
    (hr : (resolveKnown e entry w).1 = some r) (hp : r.path? = some p) :
    Path.Within root (Path.under root p) := by
  rw [resolveKnown_run hgen] at hr
  cases hspecific : specificRelPath e w with
  | some relPath =>
    simp only [hspecific, Option.some.injEq] at hr
    subst hr
    exact within_validated rfl hp
  | none =>
    simp only [hspecific, Option.map_eq_some_iff] at hr
    obtain ⟨relPath, -, rfl⟩ := hr
    exact within_validated rfl hp

/-- Only a known inode of another generation is resolved without the check. -/
theorem resolved_within_iff (root : Path) (e : Event) (w : World) :
    (∀ r p, (resolveTarget e w).1 = some r → r.path? = some p →
        Path.Within root (Path.under root p)) ↔
      ∀ entry, w.inodeMap e.inode = some entry → entry.generation ≠ U32.max →
        entry.generation ≠ e.generation → Path.staysBelow root (specificDir e w) e.name := by
  cases hentry : w.inodeMap e.inode with
  | none =>
    rw [resolveTarget_unknown hentry]
    refine iff_of_true (fun r p hr hp => within_resolveUnknown hr hp) ?_
    rintro entry ⟨⟩
  | some entry =>
    rw [resolveTarget_known hentry]
    by_cases hgen : entry.generation ≠ U32.max ∧ entry.generation ≠ e.generation
    · rw [resolveKnown_stale hgen, specificRelPath_getD]
      constructor
      · intro h entry' _ _ _
        exact (Path.within_under_join _ _).mp (h _ _ rfl rfl)
      · intro h r p hr hp
        cases hr
        cases hp
        exact (Path.within_under_join _ _).mpr (h entry rfl hgen.1 hgen.2)
    · refine iff_of_true (fun r p hr hp => within_resolveKnown (by tauto) hr hp) ?_
      rintro entry' ⟨⟩ hmax hne
      exact absurd ⟨hmax, hne⟩ hgen

/-- The ends of a rename are where its names lead. -/
theorem ends_within_iff (root : Path) (config : TargetConfig) (e : Event) (w v v' : World) :
    (∀ p ∈ renameEnds config e w v v', Path.Within root (Path.under root p)) ↔
      (e.eventType = .rename → reachesArm config e w → ∀ dir,
        recordedDir e.parentInode v = some dir → Path.staysBelow root dir e.name) ∧
      (e.eventType = .rename → reachesArm config e w → recordedDir e.parentInode v ≠ none →
        ∀ newName, e.newName = some newName → ∀ dir,
        recordedDir e.newParentInode v' = some dir → Path.staysBelow root dir newName) := by
  unfold renameEnds
  split_ifs with harm
  · simp only [resolveEventPath_eq, harm.1, harm.2, forall_const]
    cases hold : recordedDir e.parentInode v with
    | none => simp
    | some dir =>
      cases hnew : e.newName with
      | none => simp [Path.within_under_join]
      | some newName =>
        cases recordedDir e.newParentInode v' with
        | none => simp [Path.within_under_join]
        | some dir' => simp [Path.within_under_join]
  · simp only [List.not_mem_nil, false_imp_iff, implies_true, true_iff]
    exact ⟨fun ht hr => absurd ⟨ht, hr⟩ harm, fun ht hr => absurd ⟨ht, hr⟩ harm⟩

end Derivations

/-- What an event is resolved to is below the root of the target exactly if the names that are
not checked stay there. -/
theorem contained_iff (root : Path) (config : TargetConfig) (e : Event) (w v v' : World) :
    Contained root config e w v v' ↔ NamesStay root config e w v v' := by
  constructor
  · intro h
    obtain ⟨hsource, hdestination⟩ := (ends_within_iff root config e w v v').mp h.ends
    exact ⟨(resolved_within_iff root e w).mp h.resolved, hsource, hdestination⟩
  · intro h
    exact ⟨(resolved_within_iff root e w).mpr h.stale,
      (ends_within_iff root config e w v v').mpr ⟨h.source, h.destination⟩⟩

/-- Nothing is known yet. -/
def World.blank : World := ⟨.root ⟨493, 0, 0⟩, fun _ => none, fun _ => none⟩

def escapingRename : Event :=
  { Event.zero with eventType := .rename, inode := 5, name := "a", newName := some "../b" }

/-- A file is renamed to a name that leads out of the root. -/
theorem escapingRename_leaves :
    renameEnds ⟨[], []⟩ escapingRename .blank .blank .blank = [["a"], ["..", "b"]] ∧
      ¬ Contained ["/", "t"] ⟨[], []⟩ escapingRename .blank .blank .blank := by
  have hends : renameEnds ⟨[], []⟩ escapingRename .blank .blank .blank = [["a"], ["..", "b"]] := by
    decide
  refine ⟨hends, fun h => ?_⟩
  have hstays := ((ends_within_iff _ _ _ _ _ _).mp h.ends).2 rfl (by decide) (by decide) "../b"
    rfl [] rfl
  revert hstays
  decide

end Foxing
