import Mathlib.Algebra.Order.BigOperators.Group.List
import Foxing.Lib.Ranks
import Foxing.SnapshotDeletion
import Foxing.Timestamps

/-!
# Which snapshots pruning removes

Pruning takes the snapshots in the order of the texts of their timestamps. These are
in two formats: a directory with a summary is listed with the time in the ISO format,
and one whose creation was interrupted with its name.
-/
namespace Foxing.SnapshotStore.Disk

open Ranks

def stamp (d : Snapshot) : String := (scanEntry d).timestamp

def untagged (d : Snapshot) : Bool := (scanEntry d).tag.isNone

def size (d : Snapshot) : ℕ := (scanEntry d).sizeBytes

def totalSize (disk : Disk) : ℕ := (disk.snapshots.map size).sum

/-- Directories as snapshots leave them, with or without a summary. -/
structure Dated (chrono : Chrono) (time : Snapshot → DateTime) (disk : Disk) : Prop where
  nodup : disk.names.Nodup
  named : ∀ d ∈ disk.snapshots, d.name = (time d).formatTimestamp
  parsed : ∀ d ∈ disk.snapshots, (chrono.parse d.name).isSome = true
  stamped : ∀ d ∈ disk.snapshots, ∀ summary, d.summary = some summary →
    summary.timestamp = (time d).formatIso

section Pruning
variable (chrono : Chrono) (elsewhere : Elsewhere) (time : Snapshot → DateTime)

def older (disk : Disk) (d : Snapshot) : List Snapshot :=
  before (fun e => (time e).number) disk.snapshots d

/-- The size of the older snapshots that may be removed. -/
def olderSize (disk : Disk) (d : Snapshot) : ℕ :=
  (((disk.older time d).filter untagged).map size).sum

/-- Nothing tagged is removed, and nothing that is newer than what stays without a tag. -/
def RemovesOldest (disk left : Disk) : Prop :=
  ∀ d ∈ disk.snapshots, d ∉ left.snapshots → untagged d = true ∧
    ∀ e ∈ left.snapshots, untagged e = true → ¬ (time e).number < (time d).number

/-- Of the oldest snapshots beyond the count those without a tag are removed. By size those are
removed which more than the limit is left for when all older ones have gone. -/
structure PrunesOldest (disk : Disk) : Prop where
  count : ∀ maxCount, (disk.pruneByCount chrono elsewhere maxCount).snapshots =
    disk.snapshots.filter fun d =>
      !(untagged d && decide ((disk.older time d).length < disk.snapshots.length - maxCount))
  size : ∀ maxBytes < u64Size, (disk.pruneBySize chrono elsewhere maxBytes).snapshots =
    disk.snapshots.filter fun d =>
      !(untagged d && decide (maxBytes < disk.totalSize - disk.olderSize time d))
  countRemoves : ∀ maxCount, disk.RemovesOldest time (disk.pruneByCount chrono elsewhere maxCount)
  sizeRemoves : ∀ maxBytes < u64Size,
    disk.RemovesOldest time (disk.pruneBySize chrono elsewhere maxBytes)

/-- As many timestamps are before that of a snapshot without a tag as there are older snapshots,
and the sum of the sizes fits. -/
structure InOrder (disk : Disk) : Prop where
  ranks : ∀ d ∈ disk.snapshots, untagged d = true →
    (before stamp disk.snapshots d).length = (disk.older time d).length
  total : (∃ d ∈ disk.snapshots, untagged d = true) → disk.totalSize < u64Size

end Pruning

/-! ## Removing a list of snapshots -/

section Removing
variable {chrono : Chrono} {elsewhere : Elsewhere} {disk : Disk}

/-- The directories whose names pruning makes of their timestamps. -/
def Found (disk : Disk) (ds : List Snapshot) : Prop :=
  (ds.map Snapshot.name).Nodup ∧
    ∀ d ∈ ds, d ∈ disk.snapshots ∧ tsFs (stamp d) = d.name ∧ isFileName d.name = true

theorem untagged_eq (d : Snapshot) : untagged d = !(scanEntry d).tag.isSome := by
  rw [untagged]
  cases (scanEntry d).tag <;> rfl

theorem Found.delete (chrono : Chrono) (elsewhere : Elsewhere) {d : Snapshot} {ds : List Snapshot} (h : disk.Found (d :: ds)) :
    disk.deleteSnapshot chrono elsewhere (tsFs (stamp d)) =
        some ((disk.without d.name).rebuildIndex chrono) ∧
      ((disk.without d.name).rebuildIndex chrono).Found ds := by
  obtain ⟨hnodup, hfound⟩ := h
  obtain ⟨hd, hts, hname⟩ := hfound d (List.mem_cons_self ..)
  rw [List.map_cons, List.nodup_cons] at hnodup
  refine ⟨by rw [hts, deleteSnapshot_name hd hname], hnodup.2, fun e he => ?_⟩
  obtain ⟨he', hts', hname'⟩ := hfound e (List.mem_cons_of_mem _ he)
  refine ⟨List.mem_filter.mpr ⟨he', decide_eq_true ?_⟩, hts', hname'⟩
  exact fun heq => hnodup.1 (heq ▸ List.mem_map_of_mem he)

theorem Found.mono {ds ds' : List Snapshot} (h : disk.Found ds) (hsub : ds'.Sublist ds) :
    disk.Found ds' :=
  ⟨(hsub.map _).nodup h.1, fun d hd => h.2 d (hsub.subset hd)⟩

theorem filter_without (d : Snapshot) (names : List String) :
    (disk.without d.name).snapshots.filter (fun e => e.name ∉ names) =
      disk.snapshots.filter fun e => e.name ∉ d.name :: names := by
  rw [without, List.filter_filter]
  refine List.filter_congr fun e _ => ?_
  simp only [List.mem_cons, not_or, Bool.decide_and, Bool.and_comm]

/-- Pruning a list of snapshots removes their directories. -/
theorem snapshots_foldl_pruneSnapshot {ds : List Snapshot} (h : disk.Found ds) :
    ((ds.map scanEntry).foldl (pruneSnapshot chrono elsewhere) disk).snapshots =
      disk.snapshots.filter fun e => e.name ∉ ds.map Snapshot.name := by
  induction ds generalizing disk with
  | nil => simp
  | cons d ds ih =>
    obtain ⟨hdelete, hrest⟩ := h.delete chrono elsewhere
    have hprune : disk.pruneSnapshot chrono elsewhere (scanEntry d) =
        (disk.without d.name).rebuildIndex chrono := by
      rw [pruneSnapshot, ← stamp, hdelete]
      rfl
    rw [List.map_cons, List.foldl_cons, hprune, ih hrest, List.map_cons]
    exact filter_without d _

/-- By size those are removed that are spent, and what is tagged is passed over. -/
theorem snapshots_pruneSizes {ds : List Snapshot} (h : disk.Found ds) (maxBytes left : ℕ) :
    (pruneSizes chrono elsewhere maxBytes (ds.map scanEntry) left disk).snapshots =
      disk.snapshots.filter fun e =>
        e.name ∉ (spend size maxBytes (ds.filter untagged) left).map Snapshot.name := by
  induction ds generalizing disk left with
  | nil =>
    show disk.snapshots = _
    simp [spend]
  | cons d ds ih =>
    obtain ⟨hdelete, hrest⟩ := h.delete chrono elsewhere
    rw [List.map_cons, pruneSizes_cons]
    by_cases hleft : left ≤ maxBytes
    · rw [if_pos hleft, spend_of_le hleft]
      simp
    · rw [if_neg hleft]
      by_cases htag : (scanEntry d).tag.isSome = true
      · rw [if_pos htag, List.filter_cons_of_neg (by simp [untagged_eq, htag])]
        exact ih (h.mono (List.sublist_cons_self ..)) left
      · rw [if_neg htag, List.filter_cons_of_pos (by simp [untagged_eq, htag]), spend,
          if_neg hleft, List.map_cons, ← stamp, hdelete]
        refine (ih hrest (left - size d)).trans ?_
        exact filter_without d _

end Removing

/-! ## The order of the list -/

section Sorted
variable {chrono : Chrono} {elsewhere : Elsewhere} {time : Snapshot → DateTime} {disk : Disk}

/-- The directories in the order of their timestamps. -/
def sorted (disk : Disk) : List Snapshot := disk.snapshots.insertionSort fun d e => stamp d ≤ stamp e

theorem perm_sorted (disk : Disk) : disk.sorted.Perm disk.snapshots := List.perm_insertionSort _ _

theorem stamp_cases (h : Dated chrono time disk) {d : Snapshot} (hd : d ∈ disk.snapshots) :
    (d.summary = none ∧ untagged d = true ∧ stamp d = (time d).formatTimestamp) ∨
      (d.summary.isSome = true ∧ stamp d = (time d).formatIso) := by
  cases hsummary : d.summary with
  | none =>
    refine .inl ⟨rfl, ?_, ?_⟩
    · simp [untagged, scanEntry, hsummary]
    · simp [stamp, scanEntry, hsummary, h.named d hd]
  | some summary =>
    refine .inr ⟨rfl, ?_⟩
    rw [stamp, scanEntry, hsummary]
    exact h.stamped d hd summary hsummary

theorem tsFs_stamp (h : Dated chrono time disk) {d : Snapshot} (hd : d ∈ disk.snapshots) :
    tsFs (stamp d) = d.name := by
  rw [h.named d hd]
  rcases stamp_cases h hd with ⟨-, -, hstamp⟩ | ⟨-, hstamp⟩
  · rw [hstamp, DateTime.tsFs_formatTimestamp]
  · rw [hstamp, DateTime.tsFs_formatIso]

theorem found_sorted (h : Dated chrono time disk) : disk.Found disk.sorted := by
  refine ⟨((perm_sorted disk).map _).nodup_iff.mpr h.nodup, fun d hd => ?_⟩
  have hd := (perm_sorted disk).subset hd
  refine ⟨hd, tsFs_stamp h hd, ?_⟩
  rw [h.named d hd]
  exact DateTime.isFileName_formatTimestamp _

theorem pairwise_sorted (h : Dated chrono time disk) :
    disk.sorted.Pairwise fun d e => stamp d < stamp e := by
  have hnodup : (disk.sorted.map stamp).Nodup := by
    refine List.Nodup.of_map tsFs ?_
    have hnames : (disk.sorted.map stamp).map tsFs = disk.sorted.map Snapshot.name := by
      rw [List.map_map]
      exact List.map_congr_left fun d hd => tsFs_stamp h ((perm_sorted disk).subset hd)
    rw [hnames]
    exact (found_sorted h).1
  have hle : disk.sorted.Pairwise fun d e => stamp d ≤ stamp e :=
    List.pairwise_insertionSort _ _
  exact (hle.and (List.pairwise_map.mp hnodup)).imp fun hde => lt_of_le_of_ne hde.1 hde.2

theorem scanSnapshots_eq (h : Dated chrono time disk) :
    disk.scanSnapshots chrono = disk.sorted.map scanEntry := by
  have hall : disk.snapshots.filter (fun d => (chrono.parse d.name).isSome) = disk.snapshots :=
    List.filter_eq_self.mpr h.parsed
  rw [scanSnapshots, hall, sorted]
  exact (List.map_insertionSort (fun d e => stamp d ≤ stamp e)
    (fun a b : SnapshotEntry => a.timestamp ≤ b.timestamp) scanEntry disk.snapshots
    fun _ _ _ _ => Iff.rfl).symm

theorem length_before_sorted (d : Snapshot) :
    (before stamp disk.sorted d).length = (before stamp disk.snapshots d).length :=
  (before_perm (perm_sorted disk) d).length_eq

/-- What is left when some of the directories in order have gone. -/
theorem filter_name_eq (h : Dated chrono time disk) {ds : List Snapshot}
    (hsub : ds.Sublist disk.sorted) {p : Snapshot → Bool}
    (hp : ∀ d ∈ disk.snapshots, d ∈ ds ↔ p d = true) :
    disk.snapshots.filter (fun d => d.name ∉ ds.map Snapshot.name) =
      disk.snapshots.filter fun d => !p d := by
  refine List.filter_congr fun d hd => ?_
  have hmem : d.name ∈ ds.map Snapshot.name ↔ p d = true := by
    rw [← hp d hd]
    refine ⟨fun hname => ?_, fun hin => List.mem_map_of_mem hin⟩
    obtain ⟨e, he, heq⟩ := List.mem_map.mp hname
    have he' := (perm_sorted disk).subset (hsub.subset he)
    rwa [← List.inj_on_of_nodup_map h.nodup he' hd heq]
  simp only [hmem, Bool.decide_eq_true, decide_not]

theorem snapshots_pruneByCount (h : Dated chrono time disk) (maxCount : ℕ) :
    (disk.pruneByCount chrono elsewhere maxCount).snapshots =
      disk.snapshots.filter fun d => !(untagged d &&
        decide ((before stamp disk.snapshots d).length < disk.snapshots.length - maxCount)) := by
  have hlen : (disk.scanSnapshots chrono).length = disk.snapshots.length := by
    rw [scanSnapshots_eq h, List.length_map, (perm_sorted disk).length_eq]
  unfold pruneByCount
  simp only [hlen]
  split_ifs with hfew
  · rw [Nat.sub_eq_zero_of_le hfew]
    simp
  · have hfirst : ((disk.scanSnapshots chrono).take (disk.snapshots.length - maxCount)).filter
        (fun snap => snap.tag.isNone) =
          ((disk.sorted.take (disk.snapshots.length - maxCount)).filter untagged).map scanEntry := by
      rw [scanSnapshots_eq h, ← List.map_take, List.filter_map]
      rfl
    have hsub : ((disk.sorted.take (disk.snapshots.length - maxCount)).filter untagged).Sublist
        disk.sorted := List.filter_sublist.trans (List.take_sublist _ _)
    rw [hfirst]
    refine (snapshots_foldl_pruneSnapshot ((found_sorted h).mono hsub)).trans ?_
    refine filter_name_eq h hsub fun d hd => ?_
    rw [List.mem_filter, mem_take_iff (pairwise_sorted h) ((perm_sorted disk).mem_iff.mpr hd),
      length_before_sorted, Bool.and_eq_true, decide_eq_true_eq, and_comm]

theorem snapshots_pruneBySize (h : Dated chrono time disk) (maxBytes : ℕ) :
    (disk.pruneBySize chrono elsewhere maxBytes).snapshots =
      disk.snapshots.filter fun d => !(untagged d && decide (maxBytes < disk.totalSize % u64Size -
        (((before stamp disk.snapshots d).filter untagged).map size).sum)) := by
  have htotal : ((disk.scanSnapshots chrono).map SnapshotEntry.sizeBytes).sum =
      disk.totalSize := by
    rw [scanSnapshots_eq h, List.map_map]
    exact ((perm_sorted disk).map size).sum_eq
  unfold pruneBySize
  simp only [htotal]
  split_ifs with hfew
  · refine (List.filter_eq_self.mpr fun d _ => ?_).symm
    simp only [Bool.not_eq_eq_eq_not, Bool.not_true, Bool.and_eq_false_iff, decide_eq_false_iff_not]
    exact .inr (by omega)
  · have hsub : (spend size maxBytes (disk.sorted.filter untagged)
        (disk.totalSize % u64Size)).Sublist disk.sorted :=
      (spend_sublist _).trans List.filter_sublist
    rw [scanSnapshots_eq h]
    refine (snapshots_pruneSizes (found_sorted h) _ _).trans ?_
    refine filter_name_eq h hsub fun d hd => ?_
    have hd' := (perm_sorted disk).mem_iff.mpr hd
    have hsum : ((before stamp (disk.sorted.filter untagged) d).map size).sum =
        (((before stamp disk.snapshots d).filter untagged).map size).sum := by
      rw [before_filter]
      exact (((before_perm (perm_sorted disk) d).filter _).map size).sum_eq
    rw [Bool.and_eq_true, decide_eq_true_eq, ← hsum]
    constructor
    · intro hspent
      have huntagged := List.mem_filter.mp ((spend_sublist _).subset hspent)
      refine ⟨huntagged.2, ?_⟩
      exact (mem_spend_iff ((pairwise_sorted h).filter _) (List.mem_filter.mpr huntagged) _).mp hspent
    · rintro ⟨huntagged, hleft⟩
      exact (mem_spend_iff ((pairwise_sorted h).filter _)
        (List.mem_filter.mpr ⟨hd', huntagged⟩) _).mpr hleft

end Sorted

/-! ## When the oldest are removed -/

section Oldest
variable {chrono : Chrono} {elsewhere : Elsewhere} {time : Snapshot → DateTime} {disk : Disk}

theorem length_older_le {d e : Snapshot} (h : (time e).number ≤ (time d).number) :
    (disk.older time e).length ≤ (disk.older time d).length := length_before_le h

theorem olderSize_le {d e : Snapshot} (h : (time e).number ≤ (time d).number) :
    disk.olderSize time e ≤ disk.olderSize time d := by
  have hsub : (disk.older time e).Sublist (disk.older time d) :=
    List.monotone_filter_right _ fun c hc => decide_eq_true ((of_decide_eq_true hc).trans_le h)
  exact List.Sublist.sum_le_sum ((hsub.filter untagged).map size) fun _ _ => Nat.zero_le _

/-- What goes below a bound on something that grows with time is the oldest. -/
theorem removesOldest_of_filter {left : Disk} {p : Snapshot → Bool}
    (hleft : left.snapshots = disk.snapshots.filter fun d => !(untagged d && p d))
    (hp : ∀ d e, (time e).number ≤ (time d).number → p d = true → p e = true) :
    disk.RemovesOldest time left := by
  intro d hd hgone
  rw [hleft, List.mem_filter, not_and, Bool.not_eq_true, Bool.not_eq_false',
    Bool.and_eq_true] at hgone
  refine ⟨(hgone hd).1, fun e he huntagged hlt => ?_⟩
  rw [hleft, List.mem_filter, huntagged, hp d e hlt.le (hgone hd).2] at he
  cases he.2

theorem removesOldest_count {left : Disk} {maxCount : ℕ}
    (hleft : left.snapshots = disk.snapshots.filter fun d =>
      !(untagged d && decide ((disk.older time d).length < disk.snapshots.length - maxCount))) :
    disk.RemovesOldest time left :=
  removesOldest_of_filter hleft fun _ _ hle hd =>
    decide_eq_true ((length_older_le hle).trans_lt (of_decide_eq_true hd))

theorem removesOldest_size {left : Disk} {maxBytes : ℕ}
    (hleft : left.snapshots = disk.snapshots.filter fun d =>
      !(untagged d && decide (maxBytes < disk.totalSize - disk.olderSize time d))) :
    disk.RemovesOldest time left :=
  removesOldest_of_filter hleft fun _ _ hle hd =>
    decide_eq_true ((of_decide_eq_true hd).trans_le (Nat.sub_le_sub_left (olderSize_le hle) _))

/-- The same snapshots without a tag are before one of them in both orders. -/
theorem InOrder.olderSize_eq (h : disk.InOrder time) {d : Snapshot} (hd : d ∈ disk.snapshots)
    (huntagged : untagged d = true) :
    (((before stamp disk.snapshots d).filter untagged).map size).sum = disk.olderSize time d := by
  rw [filter_before_congr stamp (fun e => (time e).number) h.ranks hd huntagged]
  rfl

theorem InOrder.prunesOldest (hdated : Dated chrono time disk) (h : disk.InOrder time) :
    disk.PrunesOldest chrono elsewhere time := by
  have hcount : ∀ maxCount, (disk.pruneByCount chrono elsewhere maxCount).snapshots =
      disk.snapshots.filter fun d => !(untagged d &&
        decide ((disk.older time d).length < disk.snapshots.length - maxCount)) := by
    intro maxCount
    rw [snapshots_pruneByCount hdated]
    refine List.filter_congr fun d hd => ?_
    cases huntagged : untagged d with
    | false => rfl
    | true => rw [h.ranks d hd huntagged]
  have hsize : ∀ maxBytes, (disk.pruneBySize chrono elsewhere maxBytes).snapshots =
      disk.snapshots.filter fun d => !(untagged d &&
        decide (maxBytes < disk.totalSize - disk.olderSize time d)) := by
    intro maxBytes
    rw [snapshots_pruneBySize hdated]
    refine List.filter_congr fun d hd => ?_
    cases huntagged : untagged d with
    | false => rfl
    | true =>
      rw [h.olderSize_eq hd huntagged, Nat.mod_eq_of_lt (h.total ⟨d, hd, huntagged⟩)]
  exact ⟨hcount, fun maxBytes _ => hsize maxBytes, fun maxCount => removesOldest_count (hcount maxCount),
    fun maxBytes _ => removesOldest_size (hsize maxBytes)⟩

/-- Equal filters agree on the members. -/
theorem eq_of_filter_eq {α : Type*} {l : List α} {p q : α → Bool} (h : l.filter p = l.filter q)
    {a : α} (ha : a ∈ l) : p a = q a := by
  have hmem : a ∈ l.filter p ↔ a ∈ l.filter q := by rw [h]
  rw [List.mem_filter, List.mem_filter] at hmem
  exact Bool.eq_iff_iff.mpr (by simpa [ha] using hmem)

/-- A number of elements that differs shows for some count. -/
theorem PrunesOldest.ranks (hdated : Dated chrono time disk)
    (h : disk.PrunesOldest chrono elsewhere time) {d : Snapshot} (hd : d ∈ disk.snapshots)
    (huntagged : untagged d = true) :
    (before stamp disk.snapshots d).length = (disk.older time d).length := by
  have hcut : ∀ cut ≤ disk.snapshots.length,
      (before stamp disk.snapshots d).length < cut ↔ (disk.older time d).length < cut := by
    intro cut hcut
    have hcount := h.count (disk.snapshots.length - cut)
    rw [snapshots_pruneByCount hdated, Nat.sub_sub_self hcut] at hcount
    simpa [huntagged] using eq_of_filter_eq hcount hd
  have hstamp : (before stamp disk.snapshots d).length ≤ disk.snapshots.length :=
    List.length_filter_le _ _
  have htime : (disk.older time d).length ≤ disk.snapshots.length := List.length_filter_le _ _
  have := hcut _ hstamp
  have := hcut _ htime
  omega

/-- A sum that does not fit shows at the first snapshot without a tag. -/
theorem PrunesOldest.total (hdated : Dated chrono time disk)
    (h : disk.PrunesOldest chrono elsewhere time) (hex : ∃ d ∈ disk.snapshots, untagged d = true) :
    disk.totalSize < u64Size := by
  have hranks : ∀ d ∈ disk.snapshots, untagged d = true →
      (before stamp disk.snapshots d).length = (disk.older time d).length :=
    fun d hd huntagged => h.ranks hdated hd huntagged
  obtain ⟨e, he, huntagged⟩ := hex
  cases hfirst : disk.sorted.filter untagged with
  | nil =>
    have := List.mem_filter.mpr ⟨(perm_sorted disk).mem_iff.mpr he, huntagged⟩
    rw [hfirst] at this
    cases this
  | cons d ds =>
    obtain ⟨hd', huntagged⟩ := List.mem_filter.mp (hfirst ▸ List.mem_cons_self .. : d ∈ _)
    have hd := (perm_sorted disk).subset hd'
    have hnone : (before stamp disk.snapshots d).filter untagged = [] := by
      have hhead := before_head (hfirst ▸ (pairwise_sorted hdated).filter untagged)
      rw [← hfirst, before_filter] at hhead
      exact (((before_perm (perm_sorted disk) d).filter untagged).symm.trans (hhead ▸ .rfl)).eq_nil
    have holder : disk.olderSize time d = 0 := by
      rw [olderSize, older, ← filter_before_congr stamp _ hranks hd huntagged, hnone]
      rfl
    by_contra hlarge
    have hlt : disk.totalSize % u64Size < u64Size := Nat.mod_lt _ (Nat.succ_pos _)
    have hsize := h.size (disk.totalSize % u64Size) hlt
    rw [snapshots_pruneBySize hdated] at hsize
    have hsame := eq_of_filter_eq hsize hd
    rw [huntagged, hnone, holder] at hsame
    simp only [List.map_nil, List.sum_nil, Nat.sub_zero, lt_self_iff_false, decide_false] at hsame
    have : disk.totalSize % u64Size < disk.totalSize := by omega
    simp [this] at hsame

theorem prunesOldest_iff (hdated : Dated chrono time disk) :
    disk.PrunesOldest chrono elsewhere time ↔ disk.InOrder time :=
  ⟨fun h => ⟨fun _ => h.ranks hdated, h.total hdated⟩, fun h => h.prunesOldest hdated⟩

end Oldest

/-! ## Years of four digits -/

section FourDigits
variable {chrono : Chrono} {time : Snapshot → DateTime} {disk : Disk} {d e : Snapshot}

/-- A snapshot without a summary is not later than one with a summary of the same hour. -/
def Unmixed (time : Snapshot → DateTime) (disk : Disk) : Prop :=
  ∀ d ∈ disk.snapshots, ∀ e ∈ disk.snapshots, d.summary = none → e.summary.isSome = true →
    (time e).hourNumber = (time d).hourNumber → (time d).number ≤ (time e).number

variable (hdated : Dated chrono time disk) (hyears : ∀ d ∈ disk.snapshots, (time d).year ≤ 9999)
include hdated hyears

theorem stamp_lt_of_none (hd : d ∈ disk.snapshots) (he : e ∈ disk.snapshots)
    (hnone : d.summary = none) (hlt : stamp e < stamp d) : (time e).number < (time d).number := by
  rcases stamp_cases hdated hd with ⟨-, -, hstamp⟩ | ⟨hsome, -⟩
  · rw [hstamp] at hlt
    rcases stamp_cases hdated he with ⟨-, -, hstamp'⟩ | ⟨-, hstamp'⟩
    · rw [hstamp'] at hlt
      exact (DateTime.formatTimestamp_lt_iff (hyears e he) (hyears d hd)).mp hlt
    · rw [hstamp'] at hlt
      exact DateTime.number_lt_of_hourNumber_lt
        ((DateTime.formatIso_lt_formatTimestamp_iff (hyears e he) (hyears d hd)).mp hlt)
  · rw [hnone] at hsome
    cases hsome

theorem stamp_lt_iff (h : disk.Unmixed time) (hd : d ∈ disk.snapshots) (he : e ∈ disk.snapshots) :
    stamp e < stamp d ↔ (time e).number < (time d).number := by
  have hye := hyears e he
  have hyd := hyears d hd
  rcases stamp_cases hdated hd with ⟨hnone, -, hstamp⟩ | ⟨hsome, hstamp⟩
  · refine ⟨stamp_lt_of_none hdated hyears hd he hnone, fun hlt => ?_⟩
    rw [hstamp]
    rcases stamp_cases hdated he with ⟨-, -, hstamp'⟩ | ⟨hsome, hstamp'⟩
    · rw [hstamp']
      exact (DateTime.formatTimestamp_lt_iff hye hyd).mpr hlt
    · rw [hstamp', DateTime.formatIso_lt_formatTimestamp_iff hye hyd]
      by_contra hge
      rcases Nat.lt_or_eq_of_le (not_lt.mp hge) with hgt | heq
      · exact absurd (DateTime.number_lt_of_hourNumber_lt hgt) hlt.not_gt
      · exact absurd (h d hd e he hnone hsome heq.symm) hlt.not_ge
  · rw [hstamp]
    rcases stamp_cases hdated he with ⟨hnone, -, hstamp'⟩ | ⟨-, hstamp'⟩
    · rw [hstamp', DateTime.formatTimestamp_lt_formatIso_iff hye hyd]
      constructor
      · intro hle
        rcases Nat.lt_or_eq_of_le hle with hlt | heq
        · exact DateTime.number_lt_of_hourNumber_lt hlt
        · refine lt_of_le_of_ne (h e he d hd hnone hsome heq.symm) fun hsame => ?_
          -- Two directories of one time are the same one.
          have hname : e.name = d.name := by
            rw [hdated.named e he, hdated.named d hd]
            exact DateTime.formatTimestamp_eq hye hyd hsame
          rw [List.inj_on_of_nodup_map hdated.nodup he hd hname] at hnone
          rw [hnone] at hsome
          cases hsome
      · intro hlt
        by_contra hgt
        exact absurd (DateTime.number_lt_of_hourNumber_lt (not_le.mp hgt)) hlt.not_gt
    · rw [hstamp', DateTime.formatIso_lt_iff hye hyd]

/-- For years of four digits the order of the texts is wrong in one case only. -/
theorem ranks_iff_unmixed :
    (∀ d ∈ disk.snapshots, untagged d = true →
      (before stamp disk.snapshots d).length = (disk.older time d).length) ↔
        disk.Unmixed time := by
  constructor
  · intro h d hd e he hnone hsome hhour
    by_contra hlt
    have huntagged : untagged d = true := by simp [untagged, scanEntry, hnone]
    have hsame : before stamp disk.snapshots d =
        (disk.older time d).filter fun x => stamp x < stamp d := by
      rw [older, before, before, List.filter_filter]
      refine List.filter_congr fun x hx => ?_
      have himp := stamp_lt_of_none hdated hyears hd hx hnone
      by_cases hstamp : stamp x < stamp d
      · simp only [hstamp, himp hstamp, decide_true, Bool.and_self]
      · simp only [hstamp, decide_false, Bool.false_and]
    have holder : e ∈ disk.older time d := mem_before.mpr ⟨he, not_le.mp hlt⟩
    have hall := List.filter_sublist.eq_of_length (hsame ▸ h d hd huntagged)
    rw [← hall] at holder
    have hstamp := of_decide_eq_true (List.mem_filter.mp holder).2
    rcases stamp_cases hdated hd with ⟨-, -, hd'⟩ | ⟨hsome', -⟩
    · rcases stamp_cases hdated he with ⟨hnone', -, -⟩ | ⟨-, he'⟩
      · rw [hnone'] at hsome
        cases hsome
      · rw [hd', he', DateTime.formatIso_lt_formatTimestamp_iff (hyears e he) (hyears d hd),
          hhour] at hstamp
        exact lt_irrefl _ hstamp
    · rw [hnone] at hsome'
      cases hsome'
  · intro h d hd _
    rw [older, before, before]
    refine congrArg List.length (List.filter_congr fun x hx => ?_)
    simp only [stamp_lt_iff hdated hyears h hd hx]

end FourDigits

/-! ## An interrupted snapshot -/

theorem ten_valid : 2025 ≤ 262142 ∧ 1 ≤ 12 ∧ 1 ≤ 31 ∧ 10 < 24 ∧ 0 < 60 ∧ 0 < 60 := by decide

theorem halfPastTen_valid : 2025 ≤ 262142 ∧ 1 ≤ 12 ∧ 1 ≤ 31 ∧ 10 < 24 ∧ 30 < 60 ∧ 0 < 60 := by
  decide

def ten : DateTime := ⟨2025, 1, 1, 10, 0, 0, ten_valid⟩

def halfPastTen : DateTime := ⟨2025, 1, 1, 10, 30, 0, halfPastTen_valid⟩

/-- The two times in seconds. -/
def morningChrono : Chrono where
  format := fun secs => if secs = 1735727400 then "2025-01-01T103000" else "2025-01-01T100000"
  formatIso := fun secs =>
    if secs = 1735727400 then "2025-01-01T10:30:00Z" else "2025-01-01T10:00:00Z"
  parse := fun name =>
    if name = "2025-01-01T103000" then some 1735727400
    else if name = "2025-01-01T100000" then some 1735725600 else none

def morningTime (d : Snapshot) : DateTime := if d.name = "2025-01-01T103000" then halfPastTen else ten

/-- A complete snapshot, and one of half an hour later that has no summary. -/
def morning : Disk where
  snapshots :=
    [⟨"2025-01-01T100000", some ⟨"2025-01-01T10:00:00Z", "full", none, 1, 3, "/src", "cli"⟩,
        some [([asciiBytes "a"], some [1, 2, 3])]⟩,
      ⟨"2025-01-01T103000", none, some []⟩]
  index := none
  filesDir := true

theorem dated_morning : Dated morningChrono morningTime morning where
  nodup := by decide +kernel
  named := by
    intro d hd
    rcases List.mem_pair.mp hd with rfl | rfl <;> decide +kernel
  parsed := by
    intro d hd
    rcases List.mem_pair.mp hd with rfl | rfl <;> decide +kernel
  stamped := by
    intro d hd summary hsummary
    rcases List.mem_pair.mp hd with rfl | rfl
    · obtain rfl := Option.some.inj hsummary
      decide +kernel
    · cases hsummary

theorem morning_ranks_iff_unmixed :
    (∀ d ∈ morning.snapshots, untagged d = true →
      (before stamp morning.snapshots d).length = (morning.older morningTime d).length) ↔
        morning.Unmixed morningTime := by
  refine ranks_iff_unmixed dated_morning fun d hd => ?_
  rcases List.mem_pair.mp hd with rfl | rfl <;> decide +kernel

theorem morning_prunesOldest_iff :
    morning.PrunesOldest morningChrono atRoot morningTime ↔ morning.InOrder morningTime :=
  prunesOldest_iff dated_morning

/-- Of the two the newer one is removed. -/
theorem morning_not_oldest :
    Dated morningChrono morningTime morning ∧
      (morning.pruneByCount morningChrono atRoot 1).names = ["2025-01-01T100000"] ∧
      ¬ morning.PrunesOldest morningChrono atRoot morningTime := by
  refine ⟨dated_morning, by decide +kernel, fun h => ?_⟩
  have hcount := congrArg (List.map Snapshot.name) (h.count 1)
  revert hcount
  decide +kernel

end Foxing.SnapshotStore.Disk
