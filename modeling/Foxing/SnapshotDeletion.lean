import Foxing.SnapshotStore

/-!
# What a deletion removes

A timestamp for deletion is taken for a path below the root of the store, as it is or
without its colons. The timestamps that are listed are those of the summaries, in the
format of JSON, which ends with a letter that no directory has in its name.
-/
namespace Foxing.SnapshotStore.Disk

/-- The directory is that of a snapshot which a scan lists with this timestamp. -/
structure Owns (chrono : Chrono) (disk : Disk) (timestamp : String) (d : Snapshot) : Prop where
  mem : d ∈ disk.snapshots
  named : (chrono.parse d.name).isSome = true
  stamped : (scanEntry d).timestamp = timestamp

def Listed (chrono : Chrono) (disk : Disk) (timestamp : String) : Prop :=
  timestamp ∈ (disk.listSnapshots chrono).map SnapshotEntry.timestamp

/-- The store without a directory. -/
def without (name : String) (disk : Disk) : Disk :=
  { disk with snapshots := disk.snapshots.filter fun d => d.name ≠ name }

/-- A listed timestamp deletes the directory of its snapshot, and nothing else does anything. -/
structure DeletesExactly (chrono : Chrono) (elsewhere : Elsewhere) (timestamp : String)
    (disk : Disk) : Prop where
  listed : disk.Listed chrono timestamp → ∃ d, disk.Owns chrono timestamp d ∧
    disk.deleteSnapshot chrono elsewhere timestamp =
      some ((disk.without d.name).rebuildIndex chrono)
  other : ¬ disk.Listed chrono timestamp → disk.deleteSnapshot chrono elsewhere timestamp = none

/-- A path of this directory and of nothing else. -/
def LeadsTo (elsewhere : Elsewhere) (path : String) (d : Snapshot) (disk : Disk) : Prop :=
  if isFileName path then path = d.name
  else ∃ left, elsewhere path disk = some left ∧ left.snapshots = (disk.without d.name).snapshots

/-- A listed timestamp is a path of the directory of its snapshot, or there is nothing at this
path and it is one without its colons. There is nothing at the path of any other text. -/
structure Addressed (chrono : Chrono) (elsewhere : Elsewhere) (timestamp : String)
    (disk : Disk) : Prop where
  listed : disk.Listed chrono timestamp → ∃ d, disk.Owns chrono timestamp d ∧
    (disk.LeadsTo elsewhere timestamp d ∨
      disk.existsAt elsewhere timestamp = false ∧ disk.LeadsTo elsewhere (fsSafe timestamp) d)
  other : ¬ disk.Listed chrono timestamp → disk.existsAt elsewhere timestamp = false ∧
    disk.existsAt elsewhere (fsSafe timestamp) = false

section Deletion
variable {chrono : Chrono} {elsewhere : Elsewhere} {disk : Disk} {d : Snapshot}
  {path timestamp : String}

/-- The index that is built again depends on the directories only. -/
theorem rebuildIndex_eq_iff {left left' : Disk} :
    left.rebuildIndex chrono = left'.rebuildIndex chrono ↔ left.snapshots = left'.snapshots := by
  constructor
  · intro h
    have hsnapshots := congrArg Disk.snapshots h
    exact hsnapshots
  · intro h
    simp only [rebuildIndex, scanSnapshots, h]

theorem without_eq_iff (hd : d ∈ disk.snapshots) :
    (disk.without path).snapshots = (disk.without d.name).snapshots ↔ path = d.name := by
  constructor
  · intro h
    by_contra hne
    have hmem : d ∈ (disk.without path).snapshots :=
      List.mem_filter.mpr ⟨hd, decide_eq_true fun heq => hne heq.symm⟩
    rw [h] at hmem
    exact of_decide_eq_true (List.mem_filter.mp hmem).2 rfl
  · rintro rfl
    rfl

/-- What removing at a path leaves. -/
theorem removeSnapshotDir_eq_iff (hd : d ∈ disk.snapshots)
    (hexists : disk.existsAt elsewhere path = true) :
    disk.removeSnapshotDir chrono elsewhere path = (disk.without d.name).rebuildIndex chrono ↔
      disk.LeadsTo elsewhere path d := by
  rw [existsAt] at hexists
  rw [removeSnapshotDir, rebuildIndex_eq_iff, LeadsTo, remove]
  by_cases hname : isFileName path = true
  · rw [if_pos hname, if_pos hname]
    exact without_eq_iff hd
  · rw [if_neg hname] at hexists
    obtain ⟨left, hleft⟩ := Option.isSome_iff_exists.mp hexists
    rw [if_neg hname, if_neg hname, hleft]
    simp only [Option.getD_some, Option.some.injEq, exists_eq_left']

/-- There is something at a path of a directory. -/
theorem LeadsTo.existsAt (h : disk.LeadsTo elsewhere path d) (hd : d ∈ disk.snapshots) :
    disk.existsAt elsewhere path = true := by
  rw [LeadsTo] at h
  rw [Disk.existsAt]
  split_ifs at h ⊢ with hname
  · have hmem : path ∈ disk.names := h ▸ List.mem_map_of_mem hd
    simp [hmem]
  · obtain ⟨left, hleft, -⟩ := h
    rw [hleft]
    rfl

theorem deleteSnapshot_eq_none_iff :
    disk.deleteSnapshot chrono elsewhere timestamp = none ↔
      disk.existsAt elsewhere timestamp = false ∧
        disk.existsAt elsewhere (fsSafe timestamp) = false := by
  unfold deleteSnapshot
  split_ifs with hexists halt <;> simp_all

theorem deleteSnapshot_eq_without_iff (hd : d ∈ disk.snapshots) :
    disk.deleteSnapshot chrono elsewhere timestamp =
        some ((disk.without d.name).rebuildIndex chrono) ↔
      disk.LeadsTo elsewhere timestamp d ∨
        disk.existsAt elsewhere timestamp = false ∧
          disk.LeadsTo elsewhere (fsSafe timestamp) d := by
  unfold deleteSnapshot
  split_ifs with hexists halt
  · rw [Option.some.injEq, removeSnapshotDir_eq_iff hd hexists]
    simp [hexists]
  · rw [Option.some.injEq, removeSnapshotDir_eq_iff hd halt]
    have hnot : ¬ disk.LeadsTo elsewhere timestamp d := fun h => hexists (h.existsAt hd)
    simp [hexists, hnot]
  · have hnot : ¬ disk.LeadsTo elsewhere timestamp d := fun h => hexists (h.existsAt hd)
    have hnot' : ¬ disk.LeadsTo elsewhere (fsSafe timestamp) d := fun h => halt (h.existsAt hd)
    simp [hnot, hnot']

/-- The name of a directory always works. -/
theorem deleteSnapshot_name (hd : d ∈ disk.snapshots) (hname : isFileName d.name = true) :
    disk.deleteSnapshot chrono elsewhere d.name =
      some ((disk.without d.name).rebuildIndex chrono) := by
  refine (deleteSnapshot_eq_without_iff hd).mpr (.inl ?_)
  rw [LeadsTo, if_pos hname]

theorem deletesExactly_iff_addressed (disk : Disk) (timestamp : String) :
    disk.DeletesExactly chrono elsewhere timestamp ↔
      disk.Addressed chrono elsewhere timestamp := by
  constructor
  · rintro ⟨hlisted, hother⟩
    refine ⟨fun h => ?_, fun h => deleteSnapshot_eq_none_iff.mp (hother h)⟩
    obtain ⟨d, howns, hdelete⟩ := hlisted h
    exact ⟨d, howns, (deleteSnapshot_eq_without_iff howns.mem).mp hdelete⟩
  · rintro ⟨hlisted, hother⟩
    refine ⟨fun h => ?_, fun h => deleteSnapshot_eq_none_iff.mpr (hother h)⟩
    obtain ⟨d, howns, hleads⟩ := hlisted h
    exact ⟨d, howns, (deleteSnapshot_eq_without_iff howns.mem).mpr hleads⟩

end Deletion

/-! ## A snapshot that is complete -/

/-- The root itself is there, with all that is below it. -/
def atRoot : Elsewhere := fun path _ => if path = "" then some ⟨[], none, false⟩ else none

/-- The store with one snapshot of the first second. -/
def oneSnapshot : Disk :=
  (Disk.mk [] none false).createSnapshot State.sampleChrono 0 "/src" [] none "cli"

/-- The only timestamp that is listed deletes nothing, and texts that are not listed delete the
links of all files and the whole store. -/
theorem oneSnapshot_not_exact :
    (oneSnapshot.listSnapshots State.sampleChrono).map SnapshotEntry.timestamp =
        ["1970-01-01T00:00:00Z"] ∧
      oneSnapshot.deleteSnapshot State.sampleChrono atRoot "1970-01-01T00:00:00Z" = none ∧
      ¬ oneSnapshot.DeletesExactly State.sampleChrono atRoot "1970-01-01T00:00:00Z" ∧
      ¬ oneSnapshot.DeletesExactly State.sampleChrono atRoot "files" ∧
      ¬ oneSnapshot.DeletesExactly State.sampleChrono atRoot "" := by
  have hlist : (oneSnapshot.listSnapshots State.sampleChrono).map SnapshotEntry.timestamp =
      ["1970-01-01T00:00:00Z"] := by decide +kernel
  have hnone : oneSnapshot.deleteSnapshot State.sampleChrono atRoot "1970-01-01T00:00:00Z" =
      none := by decide +kernel
  have hlisted : ∀ timestamp, oneSnapshot.Listed State.sampleChrono timestamp →
      timestamp = "1970-01-01T00:00:00Z" := by
    intro timestamp h
    rw [Listed, hlist] at h
    exact List.mem_singleton.mp h
  refine ⟨hlist, hnone, fun h => ?_, fun h => ?_, fun h => ?_⟩
  · obtain ⟨d, -, hdelete⟩ := h.listed (by rw [Listed, hlist]; exact List.mem_singleton.mpr rfl)
    rw [hnone] at hdelete
    cases hdelete
  · exact absurd (h.other fun hin => absurd (hlisted _ hin) (by decide)) (by decide +kernel)
  · exact absurd (h.other fun hin => absurd (hlisted _ hin) (by decide)) (by decide +kernel)

end Foxing.SnapshotStore.Disk
