import Foxing.LiveVersions
import Foxing.Lib.Suffixes

/-!
# Cleaning up the versions of a file

Of the versions of a file the newest are kept, as many as may be and as long as they are not
too large together; the others are deleted, but not those that have just been made. Sizes are
added and times subtracted in 64 bits.
-/
namespace Foxing.LiveVersions
open Suffixes

/-! ## The selection -/

def notLater (a b : FileVersion) : Bool := a.timestamp ≤ b.timestamp

def totalSize (vs : List FileVersion) : ℕ := (vs.map FileVersion.size).sum

/-- The versions that are given up for their size, by their indices. -/
def indicesToMove (maxSizeBytes : ℕ) : ℕ → ℕ → List FileVersion → List ℕ
  | _, _, [] => []
  | i, currentSize, v :: vs =>
    if currentSize > maxSizeBytes then
      i :: indicesToMove maxSizeBytes (i + 1) (currentSize - v.size) vs
    else []

/-- The versions to keep and those to delete, after the indices have been gone through. -/
def moveOut : List ℕ → List FileVersion × List FileVersion → List FileVersion × List FileVersion
  | [], lists => lists
  | i :: is, lists => moveOut is (lists.1.eraseIdx i, lists.2 ++ lists.1[i]?.toList)

def versionsToDelete (versions : List FileVersion) (maxCount maxSizeMb : ℕ) : List FileVersion :=
  let maxSizeBytes := maxSizeMb * 1024 * 1024 % 2 ^ 64
  let sortedVersions := versions.mergeSort notLater
  let keepStart := sortedVersions.length - maxCount
  let keepVersions := sortedVersions.drop keepStart
  let currentSize := totalSize keepVersions % 2 ^ 64
  let indices := indicesToMove maxSizeBytes 0 currentSize keepVersions
  (moveOut indices.reverse (keepVersions, sortedVersions.take keepStart)).2

/-- A difference as a signed number of 64 bits. -/
def asSigned64 (n : ℤ) : ℤ := (n + 2 ^ 63) % 2 ^ 64 - 2 ^ 63

/-- The least number has no absolute value. -/
def abs64 (n : ℤ) : ℤ := if 0 ≤ n ∨ n = -2 ^ 63 then n else -n

def deletionGuardSecs : ℤ := 5

def guarded (now timestamp : ℤ) : Bool := abs64 (asSigned64 (now - timestamp)) < deletionGuardSecs

def removeVersion (now : ℤ) (fs : TargetVolume) (v : FileVersion) : TargetVolume :=
  if guarded now v.timestamp then fs
  else if pathExists fs v.path then (fs.removeFile v.path).getD fs
  else fs

/-- Nothing is done if the versions cannot be listed. -/
def cleanupVersions (fs : TargetVolume) (livePath : Path) (maxCount maxSizeMb : ℕ) (now : ℤ) :
    Option TargetVolume :=
  (listVersions fs livePath).map fun versions =>
    if versions = [] then fs
    else (versionsToDelete versions maxCount maxSizeMb).foldl (removeVersion now) fs

/-! ## What is selected -/

section Selection
variable {older newer : List FileVersion} {v : FileVersion}

/-- How many versions are given up. -/
def moveCount (maxSizeBytes : ℕ) : ℕ → List FileVersion → ℕ
  | _, [] => 0
  | currentSize, v :: vs =>
    if currentSize > maxSizeBytes then moveCount maxSizeBytes (currentSize - v.size) vs + 1 else 0

theorem indicesToMove_eq (maxSizeBytes i currentSize : ℕ) (vs : List FileVersion) :
    indicesToMove maxSizeBytes i currentSize vs =
      List.range' i (moveCount maxSizeBytes currentSize vs) := by
  induction vs generalizing i currentSize with
  | nil => rfl
  | cons v vs ih =>
    rw [indicesToMove, moveCount]
    split_ifs
    · rw [ih, List.range'_succ]
    · rfl

theorem moveCount_le (maxSizeBytes currentSize : ℕ) (vs : List FileVersion) :
    moveCount maxSizeBytes currentSize vs ≤ vs.length := by
  induction vs generalizing currentSize with
  | nil => exact le_refl 0
  | cons v vs ih =>
    rw [moveCount, List.length_cons]
    split_ifs
    · exact Nat.succ_le_succ (ih _)
    · exact Nat.zero_le _

/-- Taken out from the last one on, the first versions are those that are deleted. -/
theorem moveOut_range {n : ℕ} (keep delete : List FileVersion) (h : n ≤ keep.length) :
    (moveOut (List.range n).reverse (keep, delete)).2 = delete ++ (keep.take n).reverse := by
  induction n generalizing keep delete with
  | zero => simp [moveOut]
  | succ n ih =>
    have hlt : n < keep.length := h
    have hlength : n ≤ (keep.eraseIdx n).length := by
      rw [List.length_eraseIdx_of_lt hlt]
      omega
    have htake : (keep.eraseIdx n).take n = keep.take n := by
      rw [List.take_eraseIdx_eq_take_of_le _ _ _ (le_refl n)]
    rw [List.range_succ, List.reverse_concat, moveOut, ih _ _ hlength, htake,
      List.take_succ_eq_append_getElem hlt, List.reverse_concat, List.getElem?_eq_getElem hlt]
    simp

/-- An element of a list without repetitions is among the first ones by its position. -/
theorem mem_take_iff {n : ℕ} (hnodup : (older ++ v :: newer).Nodup) :
    v ∈ (older ++ v :: newer).take n ↔ older.length < n := by
  obtain ⟨-, hrest, hdisjoint⟩ := List.nodup_append.mp hnodup
  have hold : v ∉ older := fun hv => hdisjoint v hv v (List.mem_cons_self ..) rfl
  rw [List.take_append, List.mem_append]
  constructor
  · rintro (hv | hv)
    · exact absurd (List.mem_of_mem_take hv) hold
    · by_contra hle
      rw [Nat.sub_eq_zero_of_le (Nat.le_of_not_lt hle), List.take_zero] at hv
      cases hv
  · intro hlt
    obtain ⟨k, hk⟩ : ∃ k, n - older.length = k + 1 := ⟨n - older.length - 1, by omega⟩
    rw [hk, List.take_succ_cons]
    exact .inr (List.mem_cons_self ..)

/-- A version is given up as long as what is left is too large. -/
theorem mem_take_moveCount (maxSizeBytes currentSize : ℕ)
    (hnodup : (older ++ v :: newer).Nodup) :
    v ∈ (older ++ v :: newer).take (moveCount maxSizeBytes currentSize (older ++ v :: newer)) ↔
      maxSizeBytes + totalSize older < currentSize := by
  induction older generalizing currentSize with
  | nil =>
    rw [List.nil_append, moveCount]
    split_ifs with h
    · rw [List.take_succ_cons]
      exact iff_of_true (List.mem_cons_self ..) h
    · rw [List.take_zero]
      exact iff_of_false List.not_mem_nil h
  | cons a older ih =>
    have hne : v ≠ a := by
      rintro rfl
      exact (List.nodup_cons.mp hnodup).1 (by simp)
    have hsum : totalSize (a :: older) = a.size + totalSize older := by
      rw [totalSize, List.map_cons, List.sum_cons, totalSize]
    rw [List.cons_append, moveCount, hsum]
    split_ifs with h
    · rw [List.take_succ_cons, List.mem_cons, or_iff_right hne, ih _ (List.nodup_cons.mp hnodup).2]
      omega
    · rw [List.take_zero]
      exact iff_of_false List.not_mem_nil (by omega)

end Selection

/-- The versions from the oldest to the newest. -/
def byTime (versions : List FileVersion) : List FileVersion := versions.mergeSort notLater

/-- The newest ones, as many as may be kept. -/
def recent (versions : List FileVersion) (maxCount : ℕ) : List FileVersion :=
  (byTime versions).drop ((byTime versions).length - maxCount)

section Sorted
variable {versions older newer : List FileVersion} {v : FileVersion} {maxCount maxSizeMb : ℕ}

theorem nodup_byTime (h : versions.Nodup) : (byTime versions).Nodup :=
  (List.mergeSort_perm versions notLater).nodup_iff.mpr h

theorem mem_byTime : v ∈ byTime versions ↔ v ∈ versions := List.mem_mergeSort

/-- A version that comes after another one is not older. -/
theorem pairwise_byTime (versions : List FileVersion) :
    (byTime versions).Pairwise fun a b => a.timestamp ≤ b.timestamp := by
  have htrans : ∀ a b c, notLater a b = true → notLater b c = true → notLater a c = true := by
    intro a b c hab hbc
    simp only [notLater, decide_eq_true_eq] at hab hbc ⊢
    exact hab.trans hbc
  have htotal : ∀ a b, (notLater a b || notLater b a) = true := by
    intro a b
    simp only [notLater, Bool.or_eq_true, decide_eq_true_eq]
    exact le_total a.timestamp b.timestamp
  have hsorted := List.pairwise_mergeSort htrans htotal versions
  exact hsorted.imp fun h => by simpa only [notLater, decide_eq_true_eq] using h

theorem mem_versionsToDelete : v ∈ versionsToDelete versions maxCount maxSizeMb ↔
    v ∈ (byTime versions).take ((byTime versions).length - maxCount) ∨
      v ∈ (recent versions maxCount).take (moveCount (maxSizeMb * 1024 * 1024 % 2 ^ 64)
        (totalSize (recent versions maxCount) % 2 ^ 64) (recent versions maxCount)) := by
  have hrun : versionsToDelete versions maxCount maxSizeMb = (moveOut (indicesToMove
      (maxSizeMb * 1024 * 1024 % 2 ^ 64) 0 (totalSize (recent versions maxCount) % 2 ^ 64)
      (recent versions maxCount)).reverse (recent versions maxCount,
        (byTime versions).take ((byTime versions).length - maxCount))).2 := rfl
  rw [hrun, indicesToMove_eq, ← List.range_eq_range', moveOut_range _ _ (moveCount_le _ _ _),
    List.mem_append, List.mem_reverse]

/-- The versions from one of the newest on. -/
theorem recent_eq (hsplit : byTime versions = older ++ v :: newer) (hcount : newer.length < maxCount) :
    recent versions maxCount =
      older.drop ((byTime versions).length - maxCount) ++ v :: newer := by
  rw [recent, hsplit, List.drop_append_of_le_length]
  rw [List.length_append, List.length_cons]
  omega

/-- A version is deleted if there are too many newer ones, or if they are too large, as far as
64 bits tell. -/
theorem mem_versionsToDelete_iff (hnodup : versions.Nodup)
    (hsplit : byTime versions = older ++ v :: newer) (hlimit : maxSizeMb * 1024 * 1024 < 2 ^ 64) :
    v ∈ versionsToDelete versions maxCount maxSizeMb ↔
      maxCount ≤ newer.length ∨ ∃ before, recent versions maxCount = before ++ v :: newer ∧
        maxSizeMb * 1024 * 1024 + totalSize before < totalSize (recent versions maxCount) % 2 ^ 64 := by
  have hsorted := nodup_byTime hnodup
  rw [mem_versionsToDelete, Nat.mod_eq_of_lt hlimit]
  have hfirst : v ∈ (byTime versions).take ((byTime versions).length - maxCount) ↔
      maxCount ≤ newer.length := by
    rw [hsplit] at hsorted ⊢
    rw [mem_take_iff hsorted, List.length_append, List.length_cons]
    omega
  rw [hfirst]
  by_cases hcount : maxCount ≤ newer.length
  · exact iff_of_true (.inl hcount) (.inl hcount)
  · rw [or_iff_right hcount, or_iff_right hcount]
    have hrecent := recent_eq hsplit (Nat.lt_of_not_le hcount)
    have hkept : (older.drop ((byTime versions).length - maxCount) ++ v :: newer).Nodup := by
      rw [← hrecent]
      exact hsorted.sublist (List.drop_sublist _ _)
    have hmove := mem_take_moveCount (maxSizeMb * 1024 * 1024)
      (totalSize (recent versions maxCount) % 2 ^ 64) hkept
    rw [← hrecent] at hmove
    rw [hmove]
    constructor
    · exact fun h => ⟨_, hrecent, h⟩
    · rintro ⟨before, heq, h⟩
      rw [hrecent] at heq
      rwa [List.append_cancel_right heq]

end Sorted

/-! ## The guard -/

/-- How far a version is from the present. -/
def age (now : ℤ) (v : FileVersion) : ℕ := (now - v.timestamp).natAbs

/-- A number fits into 64 bits with a sign. -/
def IsI64 (n : ℤ) : Prop := -2 ^ 63 ≤ n ∧ n < 2 ^ 63

/-- Times that are far apart are taken for close ones when their difference has no absolute value,
or when it is almost as large as can be. -/
theorem guarded_iff {now : ℤ} {v : FileVersion} (hnow : IsI64 now) (hv : IsI64 v.timestamp) :
    guarded now v.timestamp = true ↔ age now v < 5 ∨ age now v = 2 ^ 63 ∨ 2 ^ 64 - 5 < age now v := by
  unfold guarded abs64 asSigned64 deletionGuardSecs age
  unfold IsI64 at hnow hv
  rw [decide_eq_true_iff]
  split_ifs <;> omega

/-! ## What is deleted -/

/-- The versions are files of one directory, under different names. -/
structure Located (fs : TargetVolume) (dir : Path) (d : ℕ) (versions : List FileVersion) : Prop where
  find : fs.find dir = some d
  entry : ∀ v ∈ versions, ∃ n i, v.path = dir ++ [n] ∧ fs.entry d n = some i ∧ fs.isDir i = false
  nodup : (versions.map FileVersion.path).Nodup

section Removal
variable {fs : TargetVolume} {dir : Path} {d : ℕ} {now : ℤ} {v : FileVersion}

theorem removeVersion_entry (now : ℤ) (hdir : fs.find dir = some d) {n : String} (hpath : v.path = dir ++ [n])
    (hfile : ∀ i, fs.entry d n = some i → fs.isDir i = false) :
    Volume.Thinned d fs (removeVersion now fs v) ∧
      (removeVersion now fs v).entry d n = if guarded now v.timestamp then fs.entry d n else none := by
  unfold removeVersion
  split_ifs with hguard hexists
  · exact ⟨.refl d, rfl⟩
  · rw [hpath, pathExists, Volume.find_concat_of_find hdir] at hexists
    obtain ⟨i, hi⟩ := Option.isSome_iff_exists.mp hexists
    have hremove : fs.removeFile v.path = some (fs.erase d n) := by
      rw [hpath, Volume.removeFile_concat hdir, hi, Option.bind_some, hfile i hi]
      rfl
    rw [hremove, Option.getD_some]
    refine ⟨Volume.thinned_erase hfile, ?_⟩
    rw [Volume.erase_entry, if_pos ⟨rfl, rfl⟩]
  · rw [hpath, pathExists, Volume.find_concat_of_find hdir, Bool.not_eq_true,
      Option.isSome_eq_false_iff, Option.isNone_iff_eq_none] at hexists
    exact ⟨.refl d, hexists⟩

/-- Only the file of the version may go. -/
theorem removeVersion_other (now : ℤ) (hdir : fs.find dir = some d) {n m : String} (hpath : v.path = dir ++ [n])
    (hne : m ≠ n) : (removeVersion now fs v).entry d m = fs.entry d m := by
  unfold removeVersion
  split_ifs
  · rfl
  · rw [hpath, Volume.removeFile_concat hdir]
    cases fs.entry d n with
    | none => rfl
    | some i =>
      rw [Option.bind_some]
      split_ifs
      · rfl
      · rw [Option.getD_some, Volume.erase_entry, if_neg (fun h => hne h.2)]
  · rfl

/-- After the deletions the directory is still there, and a file is if it was and is not that of
a version that has been deleted. -/
theorem foldl_removeVersion (now : ℤ) (vs : List FileVersion) (hdir : fs.find dir = some d)
    (hd : fs.isDir d = true)
    (hvs : ∀ v ∈ vs, ∃ n, v.path = dir ++ [n] ∧ ∀ i, fs.entry d n = some i → fs.isDir i = false) :
    (vs.foldl (removeVersion now) fs).find dir = some d ∧
      ∀ m, (vs.foldl (removeVersion now) fs).entry d m =
        if ∃ v ∈ vs, v.path = dir ++ [m] ∧ guarded now v.timestamp = false then none
        else fs.entry d m := by
  induction vs generalizing fs with
  | nil => exact ⟨hdir, fun m => by simp⟩
  | cons v vs ih =>
    obtain ⟨⟨n, hpath, hfile⟩, hvs⟩ := List.forall_mem_cons.mp hvs
    obtain ⟨hthin, hentry⟩ := removeVersion_entry now hdir hpath hfile
    have hrest := ih (hthin.find hdir hd) (by rw [hthin.isDir]; exact hd) (by
      intro w hw
      obtain ⟨m, hpath', hfile'⟩ := hvs w hw
      refine ⟨m, hpath', ?_⟩
      intro i hi
      rw [hthin.isDir]
      rcases hthin.entry d m with heq | ⟨-, heq⟩
      · exact hfile' i (heq.symm.trans hi)
      · rw [heq] at hi
        cases hi)
    refine ⟨hrest.1, ?_⟩
    intro m
    rw [List.foldl_cons, hrest.2 m]
    simp only [List.mem_cons, or_and_right, exists_or, exists_eq_left]
    by_cases hm : m = n
    · subst hm
      rw [hentry]
      cases hguard : guarded now v.timestamp with
      | true => simp
      | false => simp [hpath]
    · rw [removeVersion_other now hdir hpath hm]
      have hother : v.path ≠ dir ++ [m] := by
        rw [hpath]
        intro heq
        exact hm (List.singleton_inj.mp (List.append_cancel_left heq)).symm
      simp [hother]

/-- Of the versions those remain that are not among the deleted ones or are guarded. -/
theorem exists_foldl_removeVersion {versions vs : List FileVersion}
    (h : Located fs dir d versions) (hvs : ∀ w ∈ vs, w ∈ versions) (hv : v ∈ versions) :
    pathExists (vs.foldl (removeVersion now) fs) v.path = true ↔
      v ∉ vs ∨ guarded now v.timestamp = true := by
  obtain ⟨n, i, hpath, hentry, -⟩ := h.entry v hv
  have hfiles : ∀ w ∈ vs, ∃ n, w.path = dir ++ [n] ∧
      ∀ i, fs.entry d n = some i → fs.isDir i = false := by
    intro w hw
    obtain ⟨m, j, hpath', hentry', hfile⟩ := h.entry w (hvs w hw)
    refine ⟨m, hpath', ?_⟩
    intro k hk
    rw [hentry'] at hk
    cases hk
    exact hfile
  obtain ⟨hdir, hrest⟩ := foldl_removeVersion now vs h.find
    (fs.entry_used _ _ _ hentry).1 hfiles
  have hsame : (∃ w ∈ vs, w.path = dir ++ [n] ∧ guarded now w.timestamp = false) ↔
      v ∈ vs ∧ guarded now v.timestamp = false := by
    constructor
    · rintro ⟨w, hw, hwpath, hguard⟩
      obtain rfl := List.inj_on_of_nodup_map h.nodup (hvs w hw) hv (hwpath.trans hpath.symm)
      exact ⟨hw, hguard⟩
    · rintro ⟨hmem, hguard⟩
      exact ⟨v, hmem, hpath, hguard⟩
  rw [hpath, pathExists, Volume.find_concat_of_find hdir, hrest n]
  simp only [hsame]
  by_cases hgone : v ∈ vs ∧ guarded now v.timestamp = false
  · rw [if_pos hgone]
    refine iff_of_false (by simp) ?_
    rintro (hmem | hguard)
    · exact hmem hgone.1
    · rw [hgone.2] at hguard
      cases hguard
  · rw [if_neg hgone, hentry]
    refine iff_of_true rfl ?_
    rw [not_and, Bool.not_eq_false] at hgone
    by_cases hmem : v ∈ vs
    · exact .inr (hgone hmem)
    · exact .inl hmem

end Removal

/-! ## The versions that are listed -/

/-- What is taken of some elements is taken of the elements in their order. -/
theorem map_filterMap_sublist {α β γ : Type} {f : α → Option β} {g : β → γ} {h : α → γ}
    (l : List α) (hf : ∀ a, ∀ b ∈ f a, g b = h a) :
    ((l.filterMap f).map g).Sublist (l.map h) := by
  induction l with
  | nil => exact List.Sublist.slnil
  | cons a l ih =>
    cases ha : f a with
    | none =>
      rw [List.filterMap_cons_none ha]
      exact ih.cons _
    | some b =>
      rw [List.filterMap_cons_some ha, List.map_cons, List.map_cons, hf a b ha]
      exact ih.cons_cons _

theorem nodup_names_files (fs : TargetVolume) (d : ℕ) : ((fs.files d).map Prod.fst).Nodup := by
  have hsub : ((fs.files d).map Prod.fst).Sublist ((fs.names d).map id) := by
    refine map_filterMap_sublist _ ?_
    intro n x hx
    obtain ⟨i, -, hi⟩ := Option.bind_eq_some_iff.mp hx
    split_ifs at hi
    exact (congrArg Prod.fst (Option.some.inj hi)).symm
  rw [List.map_id] at hsub
  exact (fs.nodup_names d).sublist hsub

theorem nodup_paths_indexed (fs : TargetVolume) (root : Path) (inode : U64) :
    ((indexed fs root inode).map FileVersion.path).Nodup := by
  have hperm := List.mergeSort_perm ((indexDirectory fs root).filter (·.inode = inode)) earlier
  rw [indexed, (hperm.map FileVersion.path).nodup_iff]
  refine List.Nodup.sublist (List.filter_sublist.map FileVersion.path) ?_
  unfold indexDirectory
  cases versionsDir fs root with
  | none => exact List.nodup_nil
  | some dir =>
    dsimp only
    cases fs.find dir with
    | none => exact List.nodup_nil
    | some d =>
      have hsub := map_filterMap_sublist (g := FileVersion.path) (h := fun x => dir ++ [x.1])
        (fs.files d) (f := versionOf fs dir) (by
          intro x v hv
          obtain ⟨n, -, rfl⟩ := Option.map_eq_some_iff.mp hv
          rfl)
      refine List.Nodup.sublist hsub ?_
      have hnames := (nodup_names_files fs d).map
        (f := fun n => dir ++ [n]) (fun a b h => List.singleton_inj.mp (List.append_cancel_left h))
      rwa [List.map_map] at hnames

theorem parseI64_isI64 {cs : List Char} {t : ℤ} (h : parseI64 cs = some t) : IsI64 t := by
  unfold parseI64 at h
  unfold IsI64
  split at h
  all_goals
    obtain ⟨n, -, hn⟩ := Option.bind_eq_some_iff.mp h
    split_ifs at hn
    obtain rfl := Option.some.inj hn
    omega

theorem parseName_isI64 {name : String} {n : U64 × U64 × ℤ} (h : parseName name = some n) :
    IsI64 n.2.2 := by
  unfold parseName at h
  split at h
  · obtain ⟨inode, -, h⟩ := Option.bind_eq_some_iff.mp h
    obtain ⟨epochSeq, -, h⟩ := Option.bind_eq_some_iff.mp h
    obtain ⟨timestamp, htime, h⟩ := Option.bind_eq_some_iff.mp h
    obtain rfl := Option.some.inj h
    exact parseI64_isI64 htime
  · cases h

/-- The versions of a file that are listed are files of one directory, and their times have 64
bits. -/
theorem located_of_listVersions {fs : TargetVolume} {live : Path} {versions : List FileVersion}
    (h : listVersions fs live = some versions) (hne : versions ≠ []) :
    (∃ dir d, Located fs dir d versions) ∧ ∀ v ∈ versions, IsI64 v.timestamp := by
  obtain ⟨root, -, rfl⟩ := Option.map_eq_some_iff.mp h
  cases hlive : fs.find live with
  | none =>
    rw [hlive] at hne
    exact absurd rfl hne
  | some i =>
    rw [hlive] at hne
    dsimp only [Option.elim_some] at hne ⊢
    obtain ⟨v, hv⟩ := List.exists_mem_of_ne_nil _ hne
    obtain ⟨dir, d, -, hdir, hd, -⟩ := mem_indexDirectory.mp (mem_indexed.mp hv).1
    have hall : ∀ w ∈ indexed fs root (fs.record i).ino, ∃ x ∈ fs.files d,
        versionOf fs dir x = some w := by
      intro w hw
      obtain ⟨dir', d', x, hdir', hd', hx, hversion⟩ := mem_indexDirectory.mp (mem_indexed.mp hw).1
      obtain rfl := Option.some.inj (hdir.symm.trans hdir')
      obtain rfl := Option.some.inj (hd.symm.trans hd')
      exact ⟨x, hx, hversion⟩
    refine ⟨⟨dir, d, hd, ?_, nodup_paths_indexed fs root _⟩, ?_⟩
    · intro w hw
      obtain ⟨x, hx, hversion⟩ := hall w hw
      obtain ⟨n, -, rfl⟩ := Option.map_eq_some_iff.mp hversion
      obtain ⟨hentry, hfile⟩ := Volume.mem_files.mp hx
      exact ⟨x.1, x.2, rfl, hentry, hfile⟩
    · intro w hw
      obtain ⟨x, -, hversion⟩ := hall w hw
      obtain ⟨n, hn, rfl⟩ := Option.map_eq_some_iff.mp hversion
      exact parseName_isI64 hn

/-! ## What is kept -/

/-- Versions that may be kept together. -/
def Fit (maxCount maxSizeBytes : ℕ) (vs : List FileVersion) : Prop :=
  vs.length ≤ maxCount ∧ totalSize vs ≤ maxSizeBytes

theorem fit_closed (maxCount maxSizeBytes : ℕ) : Closed (Fit maxCount maxSizeBytes) := by
  intro v vs h
  obtain ⟨hlength, hsize⟩ := h
  rw [totalSize, List.map_cons, List.sum_cons] at hsize
  rw [List.length_cons] at hlength
  exact ⟨by omega, by unfold totalSize; omega⟩

/-- The longest suffix in order of time that fits is kept, with the versions outside it that are
less than five seconds away from now; and no version is deleted while an older one that is not
so close is kept. -/
def KeepsSuffix (fs' : TargetVolume) (versions : List FileVersion) (maxCount maxSizeBytes : ℕ)
    (now : ℤ) : Prop :=
  (∃ kept, IsLongest (Fit maxCount maxSizeBytes) (byTime versions) kept ∧
    ∀ v ∈ versions, pathExists fs' v.path = true ↔ v ∈ kept ∨ age now v < 5) ∧
  ∀ v ∈ versions, ∀ w ∈ versions, pathExists fs' v.path = false → w.timestamp < v.timestamp →
    5 ≤ age now w → pathExists fs' w.path = false

/-- The sizes and the times that matter are told right in 64 bits: what has to go because of
the sizes goes when they are added modulo 2⁶⁴, and what has to go is not so far from now that it
is taken for close. -/
structure CountsRight (versions : List FileVersion) (maxCount maxSizeBytes : ℕ) (now : ℤ) :
    Prop where
  size : ∀ older v newer, recent versions maxCount = older ++ v :: newer →
    maxSizeBytes < totalSize (v :: newer) → 5 ≤ age now v →
      maxSizeBytes + totalSize older < totalSize (recent versions maxCount) % 2 ^ 64
  time : ∀ older v newer, byTime versions = older ++ v :: newer →
    ¬ Fit maxCount maxSizeBytes (v :: newer) → 5 ≤ age now v →
      age now v ≠ 2 ^ 63 ∧ age now v ≤ 2 ^ 64 - 5

section Kept
variable {versions older newer : List FileVersion} {v : FileVersion}
  {maxCount maxSizeMb maxSizeBytes : ℕ} {now : ℤ}

theorem totalSize_append (vs ws : List FileVersion) :
    totalSize (vs ++ ws) = totalSize vs + totalSize ws := by
  rw [totalSize, List.map_append, List.sum_append, totalSize, totalSize]

/-- Sizes and times that have 64 bits are told right. -/
theorem countsRight_of_lt (hsize : totalSize (recent versions maxCount) < 2 ^ 64)
    (htime : ∀ v ∈ versions, age now v < 2 ^ 63) : CountsRight versions maxCount maxSizeBytes now where
  size older v newer hsplit hlarge _ := by
    rw [Nat.mod_eq_of_lt hsize, hsplit, totalSize_append]
    omega
  time older v newer hsplit _ _ := by
    have hv : v ∈ versions := by
      rw [← mem_byTime, hsplit]
      exact List.mem_append_right _ (List.mem_cons_self ..)
    have := htime v hv
    omega

/-- What fits is given up by a version that is deleted, whatever the arithmetic. -/
theorem not_fit_of_mem_versionsToDelete (hnodup : versions.Nodup)
    (hsplit : byTime versions = older ++ v :: newer) (hlimit : maxSizeMb * 1024 * 1024 < 2 ^ 64)
    (h : v ∈ versionsToDelete versions maxCount maxSizeMb) :
    ¬ Fit maxCount (maxSizeMb * 1024 * 1024) (v :: newer) := by
  rintro ⟨hlength, hsize⟩
  rw [List.length_cons] at hlength
  rcases (mem_versionsToDelete_iff hnodup hsplit hlimit).mp h with hcount | ⟨before, heq, hlarge⟩
  · omega
  · have hle := Nat.mod_le (totalSize (recent versions maxCount)) (2 ^ 64)
    rw [heq, totalSize_append] at hle hlarge
    omega

theorem length_recent_le (versions : List FileVersion) (maxCount : ℕ) :
    (recent versions maxCount).length ≤ maxCount := by
  rw [recent, List.length_drop]
  omega

theorem byTime_eq_recent (h : recent versions maxCount = older ++ v :: newer) :
    byTime versions = ((byTime versions).take ((byTime versions).length - maxCount) ++ older) ++
      v :: newer := by
  rw [List.append_assoc, ← h, recent, List.take_append_drop]

/-- What does not fit is deleted where the sizes are told right. -/
theorem mem_versionsToDelete_of_not_fit (hnodup : versions.Nodup)
    (hright : CountsRight versions maxCount (maxSizeMb * 1024 * 1024) now)
    (hsplit : byTime versions = older ++ v :: newer) (hlimit : maxSizeMb * 1024 * 1024 < 2 ^ 64)
    (hnot : ¬ Fit maxCount (maxSizeMb * 1024 * 1024) (v :: newer)) (hage : 5 ≤ age now v) :
    v ∈ versionsToDelete versions maxCount maxSizeMb := by
  rw [mem_versionsToDelete_iff hnodup hsplit hlimit]
  by_cases hcount : maxCount ≤ newer.length
  · exact .inl hcount
  · have hlarge : maxSizeMb * 1024 * 1024 < totalSize (v :: newer) := by
      by_contra hle
      exact hnot ⟨by rw [List.length_cons]; omega, Nat.le_of_not_lt hle⟩
    have hrecent := recent_eq hsplit (Nat.lt_of_not_le hcount)
    exact .inr ⟨_, hrecent, hright.size _ v newer hrecent hlarge hage⟩

/-- No version is kept before one that is deleted. -/
theorem not_mem_kept_of_earlier {kept : List FileVersion} {w : FileVersion}
    (hsuffix : kept <:+ byTime versions) (hv : v ∈ versions) (hnot : v ∉ kept)
    (hearlier : w.timestamp < v.timestamp) : w ∉ kept := by
  intro hw
  obtain ⟨pre, hpre⟩ := hsuffix
  have hmem : v ∈ pre := by
    rw [← mem_byTime, ← hpre] at hv
    exact (List.mem_append.mp hv).resolve_right hnot
  have hpairs := pairwise_byTime versions
  rw [← hpre, List.pairwise_append] at hpairs
  have := hpairs.2.2 v hmem w hw
  omega

/-- Those versions are left that are not deleted or are guarded. -/
def Leaves (fs' : TargetVolume) (versions : List FileVersion) (maxCount maxSizeMb : ℕ) (now : ℤ) :
    Prop :=
  ∀ v ∈ versions, pathExists fs' v.path = true ↔
    v ∉ versionsToDelete versions maxCount maxSizeMb ∨ guarded now v.timestamp = true

theorem mem_of_byTime_eq (hsplit : byTime versions = older ++ v :: newer) : v ∈ versions := by
  rw [← mem_byTime, hsplit]
  exact List.mem_append_right _ (List.mem_cons_self ..)

variable {fs' : TargetVolume}

/-- What does not fit and is not close has been deleted. -/
theorem deleted_of_keepsSuffix (hnodup : versions.Nodup)
    (hleaves : Leaves fs' versions maxCount maxSizeMb now)
    (hkeeps : KeepsSuffix fs' versions maxCount (maxSizeMb * 1024 * 1024) now)
    (hsplit : byTime versions = older ++ v :: newer)
    (hnot : ¬ Fit maxCount (maxSizeMb * 1024 * 1024) (v :: newer)) (hage : 5 ≤ age now v) :
    v ∈ versionsToDelete versions maxCount maxSizeMb ∧ ¬ guarded now v.timestamp = true := by
  obtain ⟨⟨kept, hlongest, hkept⟩, -⟩ := hkeeps
  have hv := mem_of_byTime_eq hsplit
  have hout : ¬ (v ∈ kept ∨ age now v < 5) := by
    rw [hlongest.mem_iff (fit_closed _ _) (nodup_byTime hnodup) hsplit]
    rintro (h | h)
    · exact hnot h
    · omega
  rwa [← hkept v hv, hleaves v hv, not_or, not_not] at hout

theorem countsRight_of_keepsSuffix (hnodup : versions.Nodup)
    (hleaves : Leaves fs' versions maxCount maxSizeMb now)
    (hlimit : maxSizeMb * 1024 * 1024 < 2 ^ 64) (hnow : IsI64 now)
    (htimes : ∀ v ∈ versions, IsI64 v.timestamp)
    (hkeeps : KeepsSuffix fs' versions maxCount (maxSizeMb * 1024 * 1024) now) :
    CountsRight versions maxCount (maxSizeMb * 1024 * 1024) now := by
  constructor
  · intro older v newer hsplit hlarge hage
    have hfull := byTime_eq_recent hsplit
    obtain ⟨hmem, -⟩ := deleted_of_keepsSuffix hnodup hleaves hkeeps hfull
      (fun h => Nat.not_le_of_lt hlarge h.2) hage
    have hshort := length_recent_le versions maxCount
    rw [hsplit, List.length_append, List.length_cons] at hshort
    rcases (mem_versionsToDelete_iff hnodup hfull hlimit).mp hmem with hcount | ⟨before, heq, h⟩
    · have hover := (Nat.le_add_left _ _).trans (hshort.trans hcount)
      exact absurd hover (Nat.not_succ_le_self _)
    · have hbefore : older = before := List.append_cancel_right (hsplit.symm.trans heq)
      rwa [hbefore]
  · intro older v newer hsplit hnot hage
    have hguard := (deleted_of_keepsSuffix hnodup hleaves hkeeps hsplit hnot hage).2
    rw [guarded_iff hnow (htimes v (mem_of_byTime_eq hsplit)), not_or, not_or] at hguard
    exact ⟨hguard.2.1, Nat.le_of_not_lt hguard.2.2⟩

theorem keepsSuffix_of_countsRight (hnodup : versions.Nodup)
    (hleaves : Leaves fs' versions maxCount maxSizeMb now)
    (hlimit : maxSizeMb * 1024 * 1024 < 2 ^ 64) (hnow : IsI64 now)
    (htimes : ∀ v ∈ versions, IsI64 v.timestamp)
    (hright : CountsRight versions maxCount (maxSizeMb * 1024 * 1024) now) :
    KeepsSuffix fs' versions maxCount (maxSizeMb * 1024 * 1024) now := by
  obtain ⟨kept, hlongest⟩ := exists_isLongest (Fit maxCount (maxSizeMb * 1024 * 1024))
    ⟨Nat.zero_le _, Nat.zero_le _⟩ (byTime versions)
  have hkept : ∀ v ∈ versions, pathExists fs' v.path = true ↔ v ∈ kept ∨ age now v < 5 := by
    intro v hv
    obtain ⟨older, newer, hsplit⟩ := List.append_of_mem (mem_byTime.mpr hv)
    rw [hleaves v hv, hlongest.mem_iff (fit_closed _ _) (nodup_byTime hnodup) hsplit,
      guarded_iff hnow (htimes v hv)]
    by_cases hfit : Fit maxCount (maxSizeMb * 1024 * 1024) (v :: newer)
    · exact iff_of_true (.inl fun hmem =>
        not_fit_of_mem_versionsToDelete hnodup hsplit hlimit hmem hfit) (.inl hfit)
    · by_cases hage : 5 ≤ age now v
      · have hmem := mem_versionsToDelete_of_not_fit hnodup hright hsplit hlimit hfit hage
        obtain ⟨hleast, hmost⟩ := hright.time older v newer hsplit hfit hage
        have hnear := Nat.not_lt_of_le hage
        refine iff_of_false ?_ ?_
        · rintro (h | h | h | h)
          · exact h hmem
          · exact hnear h
          · exact hleast h
          · exact Nat.not_lt_of_le hmost h
        · rintro (h | h)
          · exact hfit h
          · exact hnear h
      · have hnear := Nat.lt_of_not_le hage
        exact iff_of_true (.inr (.inl hnear)) (.inr hnear)
  refine ⟨⟨kept, hlongest, hkept⟩, ?_⟩
  intro v hv w hw hgone hearlier hage
  have hnot : v ∉ kept := by
    intro hmem
    rw [(hkept v hv).mpr (.inl hmem)] at hgone
    cases hgone
  have hnot' := not_mem_kept_of_earlier hlongest.suffix hv hnot hearlier
  rw [← Bool.not_eq_true, hkept w hw]
  rintro (h | h)
  · exact hnot' h
  · exact Nat.not_lt_of_le hage h

/-- After a cleanup those versions are left. -/
theorem leaves_cleanup {fs : TargetVolume} {live : Path} (maxCount maxSizeMb : ℕ) (now : ℤ)
    (hlist : listVersions fs live = some versions) :
    ∃ fs', cleanupVersions fs live maxCount maxSizeMb now = some fs' ∧
      Leaves fs' versions maxCount maxSizeMb now := by
  unfold cleanupVersions
  rw [hlist, Option.map_some]
  refine ⟨_, rfl, ?_⟩
  intro v hv
  have hne : versions ≠ [] := List.ne_nil_of_mem hv
  obtain ⟨⟨dir, d, hlocated⟩, -⟩ := located_of_listVersions hlist hne
  rw [if_neg hne]
  refine exists_foldl_removeVersion hlocated ?_ hv
  intro w hw
  rw [← mem_byTime]
  rcases mem_versionsToDelete.mp hw with hw | hw
  · exact List.mem_of_mem_take hw
  · exact List.mem_of_mem_drop (List.mem_of_mem_take hw)

theorem nodup_of_listVersions {fs : TargetVolume} {live : Path}
    (hlist : listVersions fs live = some versions) : versions.Nodup := by
  by_cases hne : versions = []
  · rw [hne]
    exact List.nodup_nil
  · obtain ⟨⟨dir, d, hlocated⟩, -⟩ := located_of_listVersions hlist hne
    exact List.Nodup.of_map _ hlocated.nodup

theorem isI64_of_listVersions {fs : TargetVolume} {live : Path}
    (hlist : listVersions fs live = some versions) : ∀ v ∈ versions, IsI64 v.timestamp := by
  intro v hv
  exact (located_of_listVersions hlist (List.ne_nil_of_mem hv)).2 v hv

end Kept

/-- The versions are cleaned up to the longest suffix exactly if sizes and times are told right. -/
theorem keepsSuffix_iff {fs : TargetVolume} {live : Path} {versions : List FileVersion}
    (maxCount : ℕ) {maxSizeMb : ℕ} {now : ℤ} (hlist : listVersions fs live = some versions)
    (hlimit : maxSizeMb * 1024 * 1024 < 2 ^ 64) (hnow : IsI64 now) :
    (∃ fs', cleanupVersions fs live maxCount maxSizeMb now = some fs' ∧
        KeepsSuffix fs' versions maxCount (maxSizeMb * 1024 * 1024) now) ↔
      CountsRight versions maxCount (maxSizeMb * 1024 * 1024) now := by
  obtain ⟨fs', hclean, hleaves⟩ := leaves_cleanup maxCount maxSizeMb now hlist
  have hnodup := nodup_of_listVersions hlist
  have htimes := isI64_of_listVersions hlist
  rw [hclean]
  constructor
  · rintro ⟨_, ⟨⟩, hkeeps⟩
    exact countsRight_of_keepsSuffix hnodup hleaves hlimit hnow htimes hkeeps
  · intro hright
    exact ⟨fs', rfl, keepsSuffix_of_countsRight hnodup hleaves hlimit hnow htimes hright⟩

/-! ## Three versions -/

/-- A target with a legacy directory that holds three versions with the same content. -/
def threeVersions (content : Bytes) : TargetVolume :=
  ((marked.insert 3 "7_3_300" false ⟨9, content, 0⟩).insert 3 "7_2_200" false
    ⟨9, content, 0⟩).insert 3 "7_1_100" false ⟨9, content, 0⟩

def versionNamed (content : Bytes) (name : String) (epochSeq : U64) (timestamp : ℤ) : FileVersion :=
  ⟨7, epochSeq, timestamp, legacyDir [] ++ [name], content.length, 0⟩

def listedVersions (content : Bytes) : List FileVersion :=
  [versionNamed content "7_1_100" 1 100, versionNamed content "7_2_200" 2 200,
    versionNamed content "7_3_300" 3 300]

theorem listVersions_threeVersions (content : Bytes) :
    listVersions (threeVersions content) ["f"] = some (listedVersions content) := by
  have hroot : findTargetRoot (threeVersions content) ["f"] = some [] := rfl
  have hlive : (threeVersions content).find ["f"] = some 1 := rfl
  have hdir : versionsDir (threeVersions content) [] = some (legacyDir []) := rfl
  have hfind : (threeVersions content).find (legacyDir []) = some 3 := rfl
  have hfiles : (threeVersions content).files 3 =
      [("7_1_100", 6), ("7_2_200", 5), ("7_3_300", 4)] := rfl
  have hnames : parseName "7_1_100" = some (7, 1, 100) ∧ parseName "7_2_200" = some (7, 2, 200) ∧
      parseName "7_3_300" = some (7, 3, 300) := by decide +kernel
  have hindex : indexDirectory (threeVersions content) [] = listedVersions content := by
    unfold indexDirectory
    rw [hdir]
    dsimp only
    rw [hfind, Option.elim_some, hfiles]
    simp only [List.filterMap_cons, List.filterMap_nil, versionOf, hnames, Option.map_some]
    rfl
  have hsorted : (listedVersions content).mergeSort earlier = listedVersions content := by
    apply List.mergeSort_of_pairwise
    simp [listedVersions, versionNamed, earlier]
  rw [listVersions, hroot, Option.map_some, hlive, Option.elim_some, indexed, hindex]
  exact congrArg some hsorted

theorem byTime_listedVersions (content : Bytes) :
    byTime (listedVersions content) = listedVersions content := by
  apply List.mergeSort_of_pairwise
  simp [listedVersions, versionNamed, notLater]

/-- Of three small versions the two newest are kept. -/
theorem smallVersions_kept :
    ∃ fs', cleanupVersions (threeVersions [1, 2, 3]) ["f"] 2 500 1000 = some fs' ∧
      KeepsSuffix fs' (listedVersions [1, 2, 3]) 2 (500 * 1024 * 1024) 1000 := by
  refine (keepsSuffix_iff 2 (listVersions_threeVersions [1, 2, 3]) (by decide)
    ⟨by decide, by decide⟩).mpr (countsRight_of_lt ?_ ?_)
  · rw [recent, byTime_listedVersions]
    decide
  · decide

/-- The content of the largest file that there can be. -/
def largestContent : Bytes := List.replicate (2 ^ 63 - 1) 0

/-- Three versions of this size have a size modulo 2⁶⁴ of which the oldest is all: only this one
is deleted, though each of them is too large. -/
theorem largestVersions_not_kept :
    ¬ ∃ fs', cleanupVersions (threeVersions largestContent) ["f"] 5 500 1000 = some fs' ∧
      KeepsSuffix fs' (listedVersions largestContent) 5 (500 * 1024 * 1024) 1000 := by
  rintro ⟨fs', hclean, hkeeps⟩
  have hlist := listVersions_threeVersions largestContent
  obtain ⟨fs'', hclean', hleaves⟩ := leaves_cleanup 5 500 1000 hlist
  obtain rfl := Option.some.inj (hclean.symm.trans hclean')
  have hright := countsRight_of_keepsSuffix (nodup_of_listVersions hlist) hleaves (by decide)
    ⟨by decide, by decide⟩ (isI64_of_listVersions hlist) hkeeps
  have hsize : largestContent.length = 2 ^ 63 - 1 := List.length_replicate
  have hrecent : recent (listedVersions largestContent) 5 =
      [versionNamed largestContent "7_1_100" 1 100] ++
        versionNamed largestContent "7_2_200" 2 200 ::
          [versionNamed largestContent "7_3_300" 3 300] := by
    rw [recent, byTime_listedVersions]
    rfl
  have htotal := hright.size _ _ _ hrecent
  rw [hrecent] at htotal
  simp only [totalSize, versionNamed, hsize, List.map_cons, List.map_nil, List.sum_cons,
    List.sum_nil, List.cons_append, List.nil_append, age] at htotal
  have := htotal (by omega) (by omega)
  omega

end Foxing.LiveVersions
