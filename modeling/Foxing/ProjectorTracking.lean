import Foxing.Projector
import Foxing.Lib.EntryTree
import Foxing.Lib.Run

/-!
# What the projector knows of the tree

The maps are to say of every inode which paths lead to it, and of every directory
which path. A history that only creates, links and removes keeps them so. A rename
does if what it moves has nothing below it and what it moves it to is free, an
exchange if neither side has anything below it.
-/
namespace Foxing

/-- The source tree by inode numbers and names. -/
abbrev DirTree := EntryTree U64 String

namespace DirTree
variable (T : DirTree) (e : Event)

/-! ## Legal histories -/

/-- What the event has done to the tree. -/
def apply : DirTree :=
  match e.eventType with
  | .mkdir => (T.setKind e.inode true).setEntry e.parentInode e.name (some e.inode)
  | .create | .mknod | .symlink =>
    (T.setKind e.inode false).setEntry e.parentInode e.name (some e.inode)
  | .link => T.setEntry e.parentInode e.name (some e.inode)
  | .unlink | .rmdir => T.setEntry e.parentInode e.name none
  | .rename =>
    match e.newName with
    | none => T
    | some newName =>
      if e.isRenameExchange then
        (T.setEntry e.parentInode e.name (T.entry e.newParentInode newName)).setEntry
          e.newParentInode newName (T.entry e.parentInode e.name)
      else if T.entry e.newParentInode newName = some e.inode then T
      else (T.setEntry e.parentInode e.name none).setEntry e.newParentInode newName (some e.inode)
  | _ => T

/-- A directory that can be reached; no inode has the number zero. -/
def LiveDir (d : U64) : Prop := d ≠ 0 ∧ T.isDir d = true ∧ ∃ p, T.find p = some d

/-- A number that is not in use. -/
def Fresh (i : U64) : Prop := i ≠ T.root ∧ (∀ d n, T.entry d n ≠ some i) ∧ T.Leaf i

/-- The node `j` is `i` or lies below it. -/
def Below (i j : U64) : Prop := ∃ p, T.walk i p = some j

/-- A rename that the file system carries out: a directory is not moved below itself and
takes the place of an empty directory only, any other file that of such a file. -/
structure LegalRename (newName : String) : Prop where
  newParent : T.LiveDir e.newParentInode
  validName : ValidName newName
  entry : T.entry e.parentInode e.name = some e.inode
  mode : e.isDirMode = T.isDir e.inode
  apart : ¬ T.Below e.inode e.newParentInode
  replaced : e.isRenameExchange = false → ∀ j, T.entry e.newParentInode newName = some j →
    j = e.inode ∨ T.isDir j = T.isDir e.inode ∧ T.Leaf j
  exchanged : e.isRenameExchange = true → ∃ j, T.entry e.newParentInode newName = some j ∧
    ¬ T.Below j e.parentInode

/-- The event describes something that can happen to the tree. -/
def Legal : Prop :=
  match e.eventType with
  | .mkdir | .create | .mknod | .symlink =>
    T.LiveDir e.parentInode ∧ ValidName e.name ∧ T.entry e.parentInode e.name = none ∧
      T.Fresh e.inode
  | .link =>
    T.LiveDir e.parentInode ∧ ValidName e.name ∧ T.entry e.parentInode e.name = none ∧
      T.isDir e.inode = false ∧ ∃ p, T.find p = some e.inode
  | .unlink =>
    T.LiveDir e.parentInode ∧ ValidName e.name ∧ T.entry e.parentInode e.name = some e.inode ∧
      T.isDir e.inode = false
  | .rmdir =>
    T.LiveDir e.parentInode ∧ ValidName e.name ∧ T.entry e.parentInode e.name = some e.inode ∧
      T.isDir e.inode = true ∧ T.Leaf e.inode
  | .rename =>
    T.LiveDir e.parentInode ∧ ValidName e.name ∧ ∃ newName ∈ e.newName, T.LegalRename e newName
  | _ => True

/-- The old and the new name of a rename are the same. -/
def SameName (newName : String) : Prop := e.newParentInode = e.parentInode ∧ newName = e.name

/-- Nothing below the inode moves with it, and the new name is free or, in an exchange,
that of another inode with nothing below it. -/
def MovesLeaf (newName : String) : Prop :=
  T.Leaf e.inode ∧
    if e.isRenameExchange then ∃ j, T.entry e.newParentInode newName = some j ∧ j ≠ e.inode ∧ T.Leaf j
    else T.entry e.newParentInode newName = none

/-- The events that the projector follows. -/
def Followed (shard : U64 → ℕ) : Prop :=
  match e.eventType with
  | .mkdir => shard e.inode ≠ shard e.parentInode
  | .rename => ∀ newName ∈ e.newName, SameName e newName ∨ T.MovesLeaf e newName
  | _ => True

end DirTree

/-! ## Agreement -/

/-- The path is listed for the inode. -/
def IdentityProjector.Holds (s : IdentityProjector) (i : U64) (p : Path) : Prop :=
  ∃ entry, s.inodeMap i = some entry ∧ p ∈ entry.paths

/-- No entry is without paths. -/
def IdentityProjector.NoEmptyEntry (s : IdentityProjector) : Prop :=
  ∀ i entry, s.inodeMap i = some entry → entry.paths ≠ []

/-- The inode map has for each inode exactly its paths, and no entry for an inode without
paths; the directory map has exactly the directories with theirs. -/
structure Agrees (T : DirTree) (s : IdentityProjector) : Prop where
  paths : ∀ i p, s.Holds i p ↔ T.find p = some i
  nonempty : s.NoEmptyEntry
  dirs : ∀ d p, s.dirMap d = some p ↔ T.isDir d = true ∧ T.find p = some d

namespace IdentityProjector
variable {s : IdentityProjector} {e : Event} {i inode : U64} {p path : Path}

theorem mem_pushPath {q : Path} {paths : List Path} :
    q ∈ pushPath path paths ↔ q ∈ paths ∨ q = path := by
  have hlast : (paths.filter (· ≠ path)).getLast? ≠ some path := by
    intro h
    have hmem := List.mem_of_getLast? h
    simp at hmem
  unfold pushPath
  rw [if_pos hlast]
  by_cases hq : q = path <;> simp [hq]

theorem holds_setEntry_some {entry : IdentityEntry} :
    (s.setEntry inode (some entry)).Holds i p ↔
      if i = inode then p ∈ entry.paths else s.Holds i p := by
  unfold Holds setEntry
  by_cases h : i = inode
  · subst h
    simp
  · simp [h]

theorem holds_setEntry_none :
    (s.setEntry inode none).Holds i p ↔ i ≠ inode ∧ s.Holds i p := by
  unfold Holds setEntry
  by_cases h : i = inode
  · subst h
    simp
  · simp [h]

theorem NoEmptyEntry.setEntry (h : s.NoEmptyEntry) {v : Option IdentityEntry}
    (hv : ∀ entry, v = some entry → entry.paths ≠ []) : (s.setEntry inode v).NoEmptyEntry := by
  intro i entry hentry
  by_cases hi : i = inode
  · subst hi
    exact hv entry (by simpa [IdentityProjector.setEntry] using hentry)
  · exact h i entry (by simpa [IdentityProjector.setEntry, hi] using hentry)

/-! What each operation does to the paths that are listed. -/

/-- An operation on the inode map of one inode. -/
structure Lists (s s' : IdentityProjector) (inode : U64) (listed : Path → Prop) : Prop where
  holds : ∀ i p, s'.Holds i p ↔ if i = inode then listed p else s.Holds i p
  nonempty : s.NoEmptyEntry → s'.NoEmptyEntry
  dirMap : s'.dirMap = s.dirMap
  pending : s'.pendingRenames = s.pendingRenames

theorem lists_setEntry {entry : IdentityEntry} {listed : Path → Prop}
    (hlisted : ∀ p, p ∈ entry.paths ↔ listed p) (hne : entry.paths ≠ []) :
    Lists s (s.setEntry inode (some entry)) inode listed where
  holds i p := by
    rw [holds_setEntry_some]
    split_ifs
    · exact hlisted p
    · rfl
  nonempty h := h.setEntry (by
    rintro _ ⟨⟩
    exact hne)
  dirMap := rfl
  pending := rfl

theorem pushPath_ne_nil (path : Path) (paths : List Path) : pushPath path paths ≠ [] :=
  List.ne_nil_of_mem (mem_pushPath.mpr (.inr rfl))

theorem lists_updateIdentity (s : IdentityProjector) (e : Event) (path : Path) :
    Lists s (s.updateIdentity e path) e.inode fun p => s.Holds e.inode p ∨ p = path := by
  unfold updateIdentity
  cases hentry : s.inodeMap e.inode with
  | some entry =>
    refine lists_setEntry (fun p => ?_) (pushPath_ne_nil path entry.paths)
    simp [Holds, hentry, IdentityEntry.recordUse, mem_pushPath]
  | none => exact lists_setEntry (fun p => by simp [Holds, hentry, IdentityEntry.new]) (by simp [IdentityEntry.new])

theorem lists_addIdentityPath (s : IdentityProjector) (e : Event) (path : Path) :
    Lists s (s.addIdentityPath e path) e.inode fun p => s.Holds e.inode p ∨ p = path := by
  unfold addIdentityPath
  cases hentry : s.inodeMap e.inode with
  | some entry =>
    refine lists_setEntry (fun p => ?_) (pushPath_ne_nil path entry.paths)
    simp [Holds, hentry, mem_pushPath]
  | none => exact lists_setEntry (fun p => by simp [Holds, hentry, IdentityEntry.new]) (by simp [IdentityEntry.new])

theorem lists_removeIdentityPath (s : IdentityProjector) (inode : U64) (path : Path) :
    Lists s (s.removeIdentityPath inode path) inode fun p => s.Holds inode p ∧ p ≠ path := by
  unfold removeIdentityPath
  cases hentry : s.inodeMap inode with
  | some entry =>
    simp only
    split_ifs with hnil
    · have hnone : ∀ p, ¬ (s.Holds inode p ∧ p ≠ path) := by
        rintro p ⟨⟨entry', hentry', hp⟩, hne⟩
        obtain rfl : entry = entry' := Option.some.inj (hentry.symm.trans hentry')
        have hmem : p ∈ entry.paths.filter (· ≠ path) := List.mem_filter.mpr ⟨hp, by simpa using hne⟩
        rw [hnil] at hmem
        cases hmem
      refine ⟨fun i p => ?_, fun h => h.setEntry (by simp), rfl, rfl⟩
      rw [holds_setEntry_none]
      by_cases hi : i = inode
      · simp [hi, hnone]
      · simp [hi]
    · refine lists_setEntry (fun p => ?_) hnil
      simp [Holds, hentry]
  | none =>
    refine ⟨fun i p => ?_, id, rfl, rfl⟩
    by_cases hi : i = inode
    · subst hi
      simp [Holds, hentry]
    · simp [hi]

theorem lists_swapIdentityPath {entry : IdentityEntry} (hentry : s.inodeMap inode = some entry)
    (oldPath newPath : Path) :
    Lists s (s.swapIdentityPath inode oldPath newPath) inode fun p =>
      s.Holds inode p ∧ p ≠ oldPath ∨ p = newPath := by
  unfold swapIdentityPath
  rw [hentry]
  refine lists_setEntry (fun p => ?_) (by simp [IdentityEntry.recordUse])
  by_cases hp : p = newPath
  · simp [hp, IdentityEntry.recordUse]
  · simp [hp, Holds, hentry, IdentityEntry.recordUse]

/-- A rename that is no exchange changes the list of no other inode. -/
theorem holds_projectRename (hexchange : e.isRenameExchange = false) (order : List U64)
    (hi : i ≠ e.inode) (p : Path) : (s.projectRename order e).Holds i p ↔ s.Holds i p := by
  have hsetDir : ∀ (s : IdentityProjector) (b : Bool) (d : U64) (path : Option Path),
      (if b then s.setDir d path else s).Holds i p ↔ s.Holds i p := by
    intro s b d path
    cases b <;> rfl
  unfold projectRename standardRename
  rw [hexchange]
  split
  · rfl
  · split
    · rfl
    · rw [if_neg Bool.false_ne_true, hsetDir, (lists_updateIdentity ..).holds, if_neg hi,
        (lists_removeIdentityPath ..).holds, if_neg hi]

end IdentityProjector

/-! ## Lists of paths and the tree -/

section Relations
variable {H H' : U64 → Path → Prop} {F F' : Path → Option U64} {i j : U64} {A B : Path}

/-- A path that led nowhere is listed for the inode that it leads to now. -/
theorem listed_add (h : ∀ k p, H k p ↔ F p = some k) (hfree : F B = none)
    (hH : ∀ k p, H' k p ↔ if k = i then H i p ∨ p = B else H k p)
    (hF : ∀ p, F' p = if p = B then some i else F p) (k : U64) (p : Path) :
    H' k p ↔ F' p = some k := by
  rw [hH, hF]
  by_cases hp : p = B
  · subst hp
    by_cases hk : k = i
    · simp [hk]
    · simp [hk, h, hfree, Ne.symm hk]
  · by_cases hk : k = i
    · simp [hk, hp, h]
    · simp [hk, hp, h]

theorem add_other (hfree : F B = none) (hF : ∀ p, F' p = if p = B then some i else F p) {k : U64}
    (hk : k ≠ i) (p : Path) : F' p = some k ↔ F p = some k := by
  rw [hF]
  by_cases hp : p = B
  · simp [hp, hfree, Ne.symm hk]
  · simp [hp]

theorem remove_other (hfound : F A = some i) (hF : ∀ p, F' p = if p = A then none else F p)
    {k : U64} (hk : k ≠ i) (p : Path) : F' p = some k ↔ F p = some k := by
  rw [hF]
  by_cases hp : p = A
  · simp [hp, hfound, Ne.symm hk]
  · simp [hp]

/-- A path is no longer listed for the inode that it led to. -/
theorem listed_remove (h : ∀ k p, H k p ↔ F p = some k) (hfound : F A = some i)
    (hH : ∀ k p, H' k p ↔ if k = i then H i p ∧ p ≠ A else H k p)
    (hF : ∀ p, F' p = if p = A then none else F p) (k : U64) (p : Path) :
    H' k p ↔ F' p = some k := by
  rw [hH, hF]
  by_cases hp : p = A
  · subst hp
    by_cases hk : k = i
    · simp [hk]
    · simp [hk, h, hfound, Ne.symm hk]
  · by_cases hk : k = i
    · simp [hk, hp, h]
    · simp [hk, hp, h]

/-- Two paths change places. -/
theorem listed_exchange (h : ∀ k p, H k p ↔ F p = some k) (hA : F A = some i) (hB : F B = some j)
    (hij : j ≠ i) (hH : ∀ k p, H' k p ↔ if k = i then H i p ∧ p ≠ A ∨ p = B
      else if k = j then H j p ∧ p ≠ B ∨ p = A else H k p)
    (hF : ∀ p, F' p = if p = B then some i else if p = A then some j else F p) (k : U64)
    (p : Path) : H' k p ↔ F' p = some k := by
  have hAB : A ≠ B := by
    rintro rfl
    exact hij (Option.some.inj (hB.symm.trans hA))
  rw [hH, hF]
  by_cases hpB : p = B
  · subst hpB
    by_cases hk : k = i
    · simp [hk]
    · by_cases hkj : k = j
      · simp [hkj, hij, Ne.symm hAB, Ne.symm hij]
      · simp [hk, hkj, h, hB, Ne.symm hk, Ne.symm hkj]
  · by_cases hpA : p = A
    · subst hpA
      by_cases hk : k = i
      · simp [hk, hAB, hij]
      · by_cases hkj : k = j
        · simp [hkj, hij, hAB]
        · simp [hk, hkj, hAB, h, hA, Ne.symm hk, Ne.symm hkj]
    · by_cases hk : k = i
      · simp [hk, hpA, hpB, h]
      · by_cases hkj : k = j
        · simp [hkj, hij, hpA, hpB, h]
        · simp [hk, hkj, hpA, hpB, h]

/-- The directory map when two paths change places. -/
theorem dirs_exchange {D : U64 → Option Path} {dir : U64 → Bool}
    (h : ∀ k p, D k = some p ↔ dir k = true ∧ F p = some k)
    (hunique : ∀ {k p q}, dir k = true → F p = some k → F q = some k → p = q)
    (hA : F A = some i) (hB : F B = some j) (hij : j ≠ i) (k : U64) (p : Path) :
    (if k = j ∧ dir j = true then some A else if k = i ∧ dir i = true then some B else D k) =
      some p ↔ dir k = true ∧ (if p = B then some i else if p = A then some j else F p) = some k := by
  have hAB : A ≠ B := by
    rintro rfl
    exact hij (Option.some.inj (hB.symm.trans hA))
  by_cases hdir : dir k = true
  · by_cases hkj : k = j
    · subst hkj
      have hother : p ≠ B → F p ≠ some k := fun hne hp => hne (hunique hdir hp hB)
      by_cases hpB : p = B
      · simp [hpB, hdir, hAB, Ne.symm hij]
      · by_cases hpA : p = A
        · simp [hpA, hdir, hAB]
        · simp [hpA, hpB, hdir, Ne.symm hpA, hother hpB]
    · by_cases hki : k = i
      · subst hki
        have hother : p ≠ A → F p ≠ some k := fun hne hp => hne (hunique hdir hp hA)
        by_cases hpB : p = B
        · simp [hpB, hdir, hkj]
        · by_cases hpA : p = A
          · simp [hpA, hdir, hkj, hAB, Ne.symm hAB, hij]
          · simp [hpA, hpB, hdir, hkj, Ne.symm hpB, hother hpA]
      · rw [if_neg fun hk => hkj hk.1, if_neg fun hk => hki hk.1, h]
        by_cases hpB : p = B
        · simp [hpB, hB, Ne.symm hki, Ne.symm hkj]
        · by_cases hpA : p = A
          · simp [hpA, hA, hAB, Ne.symm hki, Ne.symm hkj]
          · simp [hpA, hpB]
  · have hj : ¬ (k = j ∧ dir j = true) := fun hk => hdir (hk.1 ▸ hk.2)
    have hi : ¬ (k = i ∧ dir i = true) := fun hk => hdir (hk.1 ▸ hk.2)
    rw [if_neg hj, if_neg hi, h]
    simp [hdir]

end Relations

/-! ## One event -/

/-- The tree is well formed, the maps agree with it, and nothing is put off. -/
structure Tracks (T : DirTree) (s : IdentityProjector) : Prop where
  tree : T.WellFormed
  agrees : Agrees T s
  pending : ∀ i, s.pendingRenames i = []

namespace Tracks
variable {T : DirTree} {s s' : IdentityProjector} {e : Event}

/-- The path of a name in a live directory. -/
theorem place (h : Tracks T s) {d : U64} (hd : T.LiveDir d) {n : String} (hn : ValidName n) :
    ∃ P, T.find P = some d ∧ (∀ q, T.find q = some d → q = P) ∧ s.dirMap d = some P ∧
      Path.join P n = P ++ [n] ∧ T.find (P ++ [n]) = T.entry d n := by
  obtain ⟨-, hdir, P, hP⟩ := hd
  exact ⟨P, hP, fun q hq => h.tree.path_unique hdir hq hP, (h.agrees.dirs d P).mpr ⟨hdir, hP⟩,
    hn.join_eq P, EntryTree.find_concat_of_find hP n⟩

theorem find_ne_of_fresh {i : U64} (hi : T.Fresh i) (p : Path) : T.find p ≠ some i := by
  intro hp
  obtain ⟨q, d, n, -, -, hentry⟩ := EntryTree.exists_entry_of_find hp hi.1
  exact hi.2.1 d n hentry

theorem leaf_of_file (h : T.WellFormed) {i : U64} (hi : T.isDir i = false) : T.Leaf i := by
  intro n
  cases hentry : T.entry i n with
  | none => rfl
  | some j =>
    rw [h.dir_of_entry hentry] at hi
    cases hi

theorem ne_of_fresh {d i : U64} {P : Path} (hi : T.Fresh i) (hP : T.find P = some d) : i ≠ d := by
  rintro rfl
  exact find_ne_of_fresh hi P hP

theorem find_create {d i : U64} {n : String} {P : Path} (dir : Bool)
    (hP : T.find P = some d) (hunique : ∀ q, T.find q = some d → q = P)
    (hfree : T.entry d n = none) (hi : T.Fresh i) (p : Path) :
    ((T.setKind i dir).setEntry d n (some i)).find p = if p = P ++ [n] then some i else T.find p := by
  rw [EntryTree.find_setEntry (P := P) (by rw [EntryTree.find_setKind, hP])
    (fun q hq => hunique q (by rwa [EntryTree.find_setKind] at hq)) ?_ ?_,
    EntryTree.find_setKind]
  · intro j hj
    rw [EntryTree.setKind_entry, hfree] at hj
    cases hj
  · rintro j ⟨⟩
    exact ⟨hi.2.2, ne_of_fresh hi hP⟩

/-- A creation, of a directory or of another file. -/
theorem create (h : Tracks T s) {d i : U64} {n : String} {P : Path} (dir : Bool)
    (hP : T.find P = some d) (hunique : ∀ q, T.find q = some d → q = P)
    (hdir : T.isDir d = true) (hfree : T.entry d n = none) (hi : T.Fresh i)
    (hlists : IdentityProjector.Lists s s' i fun p => s.Holds i p ∨ p = P ++ [n]) :
    Tracks ((T.setKind i dir).setEntry d n (some i))
      (if dir then s'.setDir i (some (P ++ [n])) else s') := by
  have hfind := find_create dir hP hunique hfree hi
  have hpaths : ∀ k p, s'.Holds k p ↔ ((T.setKind i dir).setEntry d n (some i)).find p = some k :=
    listed_add h.agrees.paths ((EntryTree.find_concat_of_find hP n).trans hfree) hlists.holds hfind
  have hwf : ((T.setKind i dir).setEntry d n (some i)).WellFormed := by
    refine (h.tree.setKind hi.1 hi.2.1 hi.2.2 dir).setEntry ?_ ?_
    · rw [EntryTree.setKind_isDir, if_neg (ne_of_fresh hi hP).symm]
      exact hdir
    · rintro j ⟨⟩
      exact ⟨hi.1, fun _ e m hentry => absurd hentry (hi.2.1 e m)⟩
  have hother : ∀ k, k ≠ i → ∀ p, s.dirMap k = some p ↔
      ((T.setKind i dir).setEntry d n (some i)).isDir k = true ∧
        ((T.setKind i dir).setEntry d n (some i)).find p = some k := by
    intro k hk p
    rw [add_other ((EntryTree.find_concat_of_find hP n).trans hfree) hfind hk,
      EntryTree.setEntry_isDir, EntryTree.setKind_isDir, if_neg hk]
    exact h.agrees.dirs k p
  cases dir with
  | false =>
    refine ⟨hwf, ⟨hpaths, hlists.nonempty h.agrees.nonempty, fun k p => ?_⟩, fun k => ?_⟩
    · show s'.dirMap k = some p ↔ _
      rw [hlists.dirMap]
      by_cases hk : k = i
      · subst hk
        rw [h.agrees.dirs, EntryTree.setEntry_isDir, EntryTree.setKind_isDir, if_pos rfl]
        simp [find_ne_of_fresh hi p]
      · exact hother k hk p
    · show s'.pendingRenames k = []
      rw [hlists.pending]
      exact h.pending k
  | true =>
    refine ⟨hwf, ⟨hpaths, hlists.nonempty h.agrees.nonempty, fun k p => ?_⟩, fun k => ?_⟩
    · show Function.update s'.dirMap i (some (P ++ [n])) k = some p ↔ _
      rw [hlists.dirMap, Function.update_apply]
      by_cases hk : k = i
      · subst hk
        rw [if_pos rfl, EntryTree.setEntry_isDir, EntryTree.setKind_isDir, if_pos rfl, hfind]
        by_cases hp : p = P ++ [n]
        · simp [hp]
        · simp [hp, Ne.symm hp, find_ne_of_fresh hi p]
      · rw [if_neg hk]
        exact hother k hk p
    · show s'.pendingRenames k = []
      rw [hlists.pending]
      exact h.pending k

/-- A further name of a file. -/
theorem link (h : Tracks T s) {d i : U64} {n : String} {P : Path}
    (hP : T.find P = some d) (hunique : ∀ q, T.find q = some d → q = P)
    (hdir : T.isDir d = true) (hfree : T.entry d n = none) (hfile : T.isDir i = false)
    (hlists : IdentityProjector.Lists s s' i fun p => s.Holds i p ∨ p = P ++ [n]) :
    Tracks (T.setEntry d n (some i)) s' := by
  have hleaf : T.Leaf i := leaf_of_file h.tree hfile
  have hne : i ≠ d := by
    rintro rfl
    rw [hdir] at hfile
    cases hfile
  have hfind : ∀ p, (T.setEntry d n (some i)).find p =
      if p = P ++ [n] then some i else T.find p := by
    refine EntryTree.find_setEntry hP hunique ?_ ?_
    · intro j hj
      rw [hfree] at hj
      cases hj
    · rintro j ⟨⟩
      exact ⟨hleaf, hne⟩
  have hB := (EntryTree.find_concat_of_find hP n).trans hfree
  refine ⟨h.tree.setEntry hdir ?_, ⟨listed_add h.agrees.paths hB hlists.holds hfind,
    hlists.nonempty h.agrees.nonempty, fun k p => ?_⟩, fun k => ?_⟩
  · rintro j ⟨⟩
    refine ⟨?_, fun hdir' => ?_⟩
    · rintro rfl
      rw [h.tree.root_isDir] at hfile
      cases hfile
    · rw [hfile] at hdir'
      cases hdir'
  · rw [hlists.dirMap, h.agrees.dirs, EntryTree.setEntry_isDir]
    by_cases hk : k = i
    · simp [hk, hfile]
    · rw [add_other hB hfind hk]
  · rw [hlists.pending]
    exact h.pending k

/-- The removal of a name that leads to a leaf. -/
theorem find_remove {d i : U64} {n : String} {P : Path}
    (hP : T.find P = some d) (hunique : ∀ q, T.find q = some d → q = P)
    (hentry : T.entry d n = some i) (hleaf : T.Leaf i) (p : Path) :
    (T.setEntry d n none).find p = if p = P ++ [n] then none else T.find p := by
  refine EntryTree.find_setEntry hP hunique ?_ ?_ p
  · intro j hj
    rw [hentry] at hj
    cases hj
    exact hleaf
  · rintro j ⟨⟩

theorem unlink (h : Tracks T s) {d i : U64} {n : String} {P : Path}
    (hP : T.find P = some d) (hunique : ∀ q, T.find q = some d → q = P)
    (hdir : T.isDir d = true) (hentry : T.entry d n = some i) (hfile : T.isDir i = false)
    (hlists : IdentityProjector.Lists s s' i fun p => s.Holds i p ∧ p ≠ P ++ [n]) :
    Tracks (T.setEntry d n none) s' := by
  have hfind := find_remove hP hunique hentry (leaf_of_file h.tree hfile)
  have hA := (EntryTree.find_concat_of_find hP n).trans hentry
  refine ⟨h.tree.setEntry hdir (by rintro j ⟨⟩), ⟨listed_remove h.agrees.paths hA hlists.holds hfind,
    hlists.nonempty h.agrees.nonempty, fun k p => ?_⟩, fun k => ?_⟩
  · rw [hlists.dirMap, h.agrees.dirs, EntryTree.setEntry_isDir]
    by_cases hk : k = i
    · simp [hk, hfile]
    · rw [remove_other hA hfind hk]
  · rw [hlists.pending]
    exact h.pending k

theorem rmdir (h : Tracks T s) {d i : U64} {n : String} {P : Path}
    (hP : T.find P = some d) (hunique : ∀ q, T.find q = some d → q = P)
    (hdir : T.isDir d = true) (hentry : T.entry d n = some i) (hi : T.isDir i = true)
    (hleaf : T.Leaf i) :
    Tracks (T.setEntry d n none) ((s.setDir i none).setEntry i none) := by
  have hfind := find_remove hP hunique hentry hleaf
  have hA := (EntryTree.find_concat_of_find hP n).trans hentry
  have honly : ∀ p, T.find p = some i → p = P ++ [n] := fun p hp => h.tree.path_unique hi hp hA
  have hholds : ∀ k p, ((s.setDir i none).setEntry i none).Holds k p ↔
      if k = i then s.Holds i p ∧ p ≠ P ++ [n] else s.Holds k p := by
    intro k p
    rw [IdentityProjector.holds_setEntry_none]
    by_cases hk : k = i
    · simp only [hk, ne_eq, not_true_eq_false, false_and, if_true, false_iff, not_and, not_not]
      intro hp
      exact honly p ((h.agrees.paths i p).mp hp)
    · simp [hk, IdentityProjector.Holds, IdentityProjector.setDir]
  refine ⟨h.tree.setEntry hdir (by rintro j ⟨⟩), ⟨listed_remove h.agrees.paths hA hholds hfind,
    IdentityProjector.NoEmptyEntry.setEntry h.agrees.nonempty (by rintro entry ⟨⟩), fun k p => ?_⟩,
    h.pending⟩
  show Function.update s.dirMap i none k = some p ↔ _
  rw [Function.update_apply, EntryTree.setEntry_isDir]
  by_cases hk : k = i
  · subst hk
    rw [if_pos rfl, hfind]
    by_cases hp : p = P ++ [n]
    · simp [hp]
    · simp only [reduceCtorEq, hp, if_false, false_iff, not_and]
      exact fun _ hfound => hp (honly p hfound)
  · rw [if_neg hk, remove_other hA hfind hk]
    exact h.agrees.dirs k p

/-! ### Renames -/

/-- The paths after something without anything below it has moved to a free name. -/
theorem find_move {d d' i : U64} {n n' : String} {P P' : Path} (hP : T.find P = some d)
    (hunique : ∀ q, T.find q = some d → q = P) (hP' : T.find P' = some d')
    (hunique' : ∀ q, T.find q = some d' → q = P') (hentry : T.entry d n = some i)
    (hfree : T.entry d' n' = none) (hleaf : T.Leaf i) (hne : i ≠ d') (p : Path) :
    ((T.setEntry d n none).setEntry d' n' (some i)).find p =
      if p = P' ++ [n'] then some i else (T.setEntry d n none).find p := by
  have hA := (EntryTree.find_concat_of_find hP n).trans hentry
  have hfind := find_remove hP hunique hentry hleaf
  refine EntryTree.find_setEntry ?_ ?_ ?_ ?_ p
  · rw [hfind, if_neg]
    · exact hP'
    · rintro rfl
      exact hne (Option.some.inj (hA.symm.trans hP'))
  · intro q hq
    rw [hfind] at hq
    split_ifs at hq
    exact hunique' q hq
  · intro j hj
    rw [EntryTree.setEntry_entry] at hj
    split_ifs at hj
    rw [hfree] at hj
    cases hj
  · rintro j ⟨⟩
    refine ⟨fun m => ?_, hne⟩
    rw [EntryTree.setEntry_entry]
    split_ifs
    · rfl
    · exact hleaf m

theorem wellFormed_move (h : T.WellFormed) {d d' i : U64} {n : String} (n' : String)
    (hdir : T.isDir d = true) (hdir' : T.isDir d' = true) (hentry : T.entry d n = some i) :
    ((T.setEntry d n none).setEntry d' n' (some i)).WellFormed := by
  refine (h.setEntry hdir (by rintro j ⟨⟩)).setEntry hdir' ?_
  rintro j ⟨⟩
  refine ⟨fun hroot => h.root_no_entry (hroot ▸ hentry), fun hi e m hj => ?_⟩
  rw [EntryTree.setEntry_entry] at hj
  split_ifs at hj with heq
  obtain ⟨rfl, rfl⟩ := h.parent_unique hi hentry hj
  exact absurd ⟨rfl, rfl⟩ heq

/-- A rename of something without anything below it to a free name. -/
theorem move (h : Tracks T s) {d d' i : U64} {n n' : String} {P P' : Path}
    (hP : T.find P = some d) (hunique : ∀ q, T.find q = some d → q = P)
    (hP' : T.find P' = some d') (hunique' : ∀ q, T.find q = some d' → q = P')
    (hdir : T.isDir d = true) (hdir' : T.isDir d' = true) (hentry : T.entry d n = some i)
    (hfree : T.entry d' n' = none) (hleaf : T.Leaf i) (hne : i ≠ d')
    {s₁ s₂ : IdentityProjector}
    (hremove : IdentityProjector.Lists s s₁ i fun p => s.Holds i p ∧ p ≠ P ++ [n])
    (hupdate : IdentityProjector.Lists s₁ s₂ i fun p => s₁.Holds i p ∨ p = P' ++ [n']) :
    Tracks ((T.setEntry d n none).setEntry d' n' (some i))
      (if T.isDir i then s₂.setDir i (some (P' ++ [n'])) else s₂) := by
  have hA := (EntryTree.find_concat_of_find hP n).trans hentry
  have hB := (EntryTree.find_concat_of_find hP' n').trans hfree
  have hfind := find_remove hP hunique hentry hleaf
  have hB₁ : (T.setEntry d n none).find (P' ++ [n']) = none := by
    rw [hfind]
    split_ifs
    · rfl
    · exact hB
  have hfind' := find_move hP hunique hP' hunique' hentry hfree hleaf hne
  have hwf := wellFormed_move h.tree n' hdir hdir' hentry
  have hpaths : ∀ k p, s₂.Holds k p ↔
      ((T.setEntry d n none).setEntry d' n' (some i)).find p = some k :=
    listed_add (listed_remove h.agrees.paths hA hremove.holds hfind) hB₁ hupdate.holds hfind'
  have hother : ∀ k, k ≠ i → ∀ p, s.dirMap k = some p ↔ T.isDir k = true ∧
      ((T.setEntry d n none).setEntry d' n' (some i)).find p = some k := by
    intro k hk p
    rw [add_other hB₁ hfind' hk, remove_other hA hfind hk]
    exact h.agrees.dirs k p
  have hnonempty := hupdate.nonempty (hremove.nonempty h.agrees.nonempty)
  have hpending : ∀ k, s₂.pendingRenames k = [] := by
    rw [hupdate.pending, hremove.pending]
    exact h.pending
  cases hi : T.isDir i with
  | false =>
    refine ⟨hwf, ⟨hpaths, hnonempty, fun k p => ?_⟩, hpending⟩
    show s₂.dirMap k = some p ↔ _
    rw [hupdate.dirMap, hremove.dirMap, EntryTree.setEntry_isDir, EntryTree.setEntry_isDir]
    by_cases hk : k = i
    · rw [h.agrees.dirs, hk]
      simp [hi]
    · exact hother k hk p
  | true =>
    refine ⟨hwf, ⟨hpaths, hnonempty, fun k p => ?_⟩, hpending⟩
    show Function.update s₂.dirMap i (some (P' ++ [n'])) k = some p ↔ _
    rw [hupdate.dirMap, hremove.dirMap, EntryTree.setEntry_isDir, EntryTree.setEntry_isDir,
      Function.update_apply]
    by_cases hk : k = i
    · subst hk
      rw [if_pos rfl, hfind', hfind]
      by_cases hp : p = P' ++ [n']
      · simp [hp, hi]
      · simp only [Option.some.injEq, Ne.symm hp, hp, if_false, false_iff, not_and]
        intro _ hfound
        split_ifs at hfound with hpA
        exact hpA (h.tree.path_unique hi hfound hA)
    · rw [if_neg hk]
      exact hother k hk p

/-- Two names that lead to different leaves change places. -/
theorem find_exchange {d d' i j : U64} {n n' : String} {P P' : Path}
    (hP : T.find P = some d) (hunique : ∀ q, T.find q = some d → q = P)
    (hP' : T.find P' = some d') (hunique' : ∀ q, T.find q = some d' → q = P')
    (hi : T.entry d n = some i) (hj : T.entry d' n' = some j) (hleaf : T.Leaf i) (hleaf' : T.Leaf j)
    (hid : i ≠ d') (hjd : j ≠ d) (p : Path) :
    ((T.setEntry d n (some j)).setEntry d' n' (some i)).find p =
      if p = P' ++ [n'] then some i else if p = P ++ [n] then some j else T.find p := by
  have hid₀ : i ≠ d := by
    rintro rfl
    rw [hleaf n] at hi
    cases hi
  have hjd' : j ≠ d' := by
    rintro rfl
    rw [hleaf' n'] at hj
    cases hj
  have hA := (EntryTree.find_concat_of_find hP n).trans hi
  have hfirst : ∀ p, (T.setEntry d n (some j)).find p = if p = P ++ [n] then some j else T.find p := by
    refine EntryTree.find_setEntry hP hunique ?_ ?_
    · intro k hk
      rw [hi] at hk
      cases hk
      exact hleaf
    · rintro k ⟨⟩
      exact ⟨hleaf', hjd⟩
  rw [← hfirst]
  refine EntryTree.find_setEntry ?_ ?_ ?_ ?_ p
  · rw [hfirst, if_neg]
    · exact hP'
    · rintro rfl
      exact hid (Option.some.inj (hA.symm.trans hP'))
  · intro q hq
    rw [hfirst] at hq
    split_ifs at hq
    · exact absurd (Option.some.inj hq) hjd'
    · exact hunique' q hq
  · intro k hk m
    rw [EntryTree.setEntry_entry] at hk
    have hkj : k = j := by
      split_ifs at hk
      · exact (Option.some.inj hk).symm
      · exact Option.some.inj (hk.symm.trans hj)
    rw [hkj, EntryTree.setEntry_entry, if_neg fun heq => hjd heq.1]
    exact hleaf' m
  · rintro k ⟨⟩
    refine ⟨fun m => ?_, hid⟩
    rw [EntryTree.setEntry_entry, if_neg fun heq => hid₀ heq.1]
    exact hleaf m

theorem wellFormed_exchange (h : T.WellFormed) {d d' i j : U64} {n n' : String}
    (hdir : T.isDir d = true) (hdir' : T.isDir d' = true) (hi : T.entry d n = some i)
    (hj : T.entry d' n' = some j) (hij : j ≠ i) :
    ((T.setEntry d n (some j)).setEntry d' n' (some i)).WellFormed := by
  have hnames : ¬ (d' = d ∧ n' = n) := by
    rintro ⟨rfl, rfl⟩
    exact hij (Option.some.inj (hj.symm.trans hi))
  -- both names are removed before they are made again
  have heq : (T.setEntry d n (some j)).setEntry d' n' (some i) =
      (((T.setEntry d n none).setEntry d' n' none).setEntry d n (some j)).setEntry d' n' (some i) := by
    refine EntryTree.ext rfl ?_ rfl
    funext e m
    simp only [EntryTree.setEntry_entry]
    split_ifs <;> rfl
  rw [heq]
  refine (((h.setEntry hdir ?_).setEntry hdir' ?_).setEntry hdir ?_).setEntry hdir' ?_
  · rintro k ⟨⟩
  · rintro k ⟨⟩
  · rintro k ⟨⟩
    refine ⟨fun hroot => h.root_no_entry (hroot ▸ hj), fun hk e m hentry => ?_⟩
    simp only [EntryTree.setEntry_entry] at hentry
    split_ifs at hentry with h₁ h₂
    obtain ⟨rfl, rfl⟩ := h.parent_unique hk hj hentry
    exact absurd ⟨rfl, rfl⟩ h₁
  · rintro k ⟨⟩
    refine ⟨fun hroot => h.root_no_entry (hroot ▸ hi), fun hk e m hentry => ?_⟩
    simp only [EntryTree.setEntry_entry] at hentry
    split_ifs at hentry with h₁ h₂
    · exact absurd (Option.some.inj hentry) hij
    · obtain ⟨rfl, rfl⟩ := h.parent_unique hk hi hentry
      exact absurd ⟨rfl, rfl⟩ h₁

theorem exchange (h : Tracks T s) {d d' i j : U64} {n n' : String} {P P' : Path}
    (hP : T.find P = some d) (hunique : ∀ q, T.find q = some d → q = P)
    (hP' : T.find P' = some d') (hunique' : ∀ q, T.find q = some d' → q = P')
    (hdir : T.isDir d = true) (hdir' : T.isDir d' = true) (hi : T.entry d n = some i)
    (hj : T.entry d' n' = some j) (hleaf : T.Leaf i) (hleaf' : T.Leaf j) (hid : i ≠ d')
    (hjd : j ≠ d) (hij : j ≠ i) {s₁ s₂ s₃ : IdentityProjector}
    (hother : IdentityProjector.Lists s s₁ j fun p => s.Holds j p ∧ p ≠ P' ++ [n'] ∨ p = P ++ [n])
    (hown : IdentityProjector.Lists s₁ s₂ i fun p => s₁.Holds i p ∧ p ≠ P ++ [n] ∨ p = P' ++ [n'])
    (hdirMap : ∀ k, s₃.dirMap k = if k = j ∧ T.isDir j = true then some (P ++ [n])
      else if k = i ∧ T.isDir i = true then some (P' ++ [n']) else s₂.dirMap k)
    (hinodeMap : s₃.inodeMap = s₂.inodeMap) (hpending : s₃.pendingRenames = s₂.pendingRenames) :
    Tracks ((T.setEntry d n (some j)).setEntry d' n' (some i)) s₃ := by
  have hA := (EntryTree.find_concat_of_find hP n).trans hi
  have hB := (EntryTree.find_concat_of_find hP' n').trans hj
  have hfind := find_exchange hP hunique hP' hunique' hi hj hleaf hleaf' hid hjd
  have hholds : ∀ k p, s₃.Holds k p ↔ if k = i then s.Holds i p ∧ p ≠ P ++ [n] ∨ p = P' ++ [n']
      else if k = j then s.Holds j p ∧ p ≠ P' ++ [n'] ∨ p = P ++ [n] else s.Holds k p := by
    intro k p
    have hsame : s₃.Holds k p ↔ s₂.Holds k p := by
      unfold IdentityProjector.Holds
      rw [hinodeMap]
    rw [hsame, hown.holds, hother.holds, hother.holds, if_neg (Ne.symm hij)]
  have hnonempty : s₃.NoEmptyEntry := by
    unfold IdentityProjector.NoEmptyEntry
    rw [hinodeMap]
    exact hown.nonempty (hother.nonempty h.agrees.nonempty)
  have hAB : P ++ [n] ≠ P' ++ [n'] := by
    intro heq
    rw [heq, hB] at hA
    exact hij (Option.some.inj hA)
  refine ⟨wellFormed_exchange h.tree hdir hdir' hi hj hij,
    ⟨listed_exchange h.agrees.paths hA hB hij hholds hfind, hnonempty, fun k p => ?_⟩, ?_⟩
  · rw [hdirMap, hown.dirMap, hother.dirMap, EntryTree.setEntry_isDir, EntryTree.setEntry_isDir,
      hfind]
    exact dirs_exchange h.agrees.dirs h.tree.path_unique hA hB hij k p
  · rw [hpending, hown.pending, hother.pending]
    exact h.pending

/-- The rename of a name to itself. -/
theorem unchanged (h : Tracks T s) (hholds : ∀ k p, s'.Holds k p ↔ s.Holds k p)
    (hnonempty : s'.NoEmptyEntry) (hdirMap : s'.dirMap = s.dirMap)
    (hpending : s'.pendingRenames = s.pendingRenames) : Tracks T s' := by
  refine ⟨h.tree, ⟨fun k p => ?_, hnonempty, fun k p => ?_⟩, fun k => ?_⟩
  · rw [hholds]
    exact h.agrees.paths k p
  · rw [hdirMap]
    exact h.agrees.dirs k p
  · rw [hpending]
    exact h.pending k

theorem setDir_self {i : U64} {A : Path} (hA : s.dirMap i = some A) : s.setDir i (some A) = s := by
  unfold IdentityProjector.setDir
  rw [← hA, Function.update_eq_self]

/-- Every inode that has an entry is met when the map is iterated. -/
theorem findInodeByRelPath_eq (h : Tracks T s) {order : List U64} {B : Path} {j : U64}
    (horder : ∀ i, s.inodeMap i ≠ none → i ∈ order) (hB : T.find B = some j) :
    s.findInodeByRelPath order B = some j := by
  obtain ⟨entry, hentry, hmem⟩ := (h.agrees.paths j B).mpr hB
  unfold IdentityProjector.findInodeByRelPath
  cases hfound : order.find? fun i => (s.inodeMap i).any fun entry => B ∈ entry.paths with
  | none =>
    have hj : j ∈ order := horder j (by simp [hentry])
    have hnot := List.find?_eq_none.mp hfound j hj
    simp [hentry, hmem] at hnot
  | some k =>
    have hk := List.find?_some hfound
    cases hentry' : s.inodeMap k with
    | none => simp [hentry'] at hk
    | some entry' =>
      have hholds : s.Holds k B := ⟨entry', hentry', by simpa [hentry'] using hk⟩
      exact (((h.agrees.paths k B).mp hholds).symm.trans hB)

theorem standardRename_same (h : Tracks T s) {A : Path} (hA : T.find A = some e.inode)
    (hmode : e.isDirMode = T.isDir e.inode) : Tracks T (s.standardRename e A A) := by
  have hremove := s.lists_removeIdentityPath e.inode A
  have hupdate := (s.removeIdentityPath e.inode A).lists_updateIdentity e A
  have htracks : Tracks T ((s.removeIdentityPath e.inode A).updateIdentity e A) := by
    refine h.unchanged (fun k p => ?_) (hupdate.nonempty (hremove.nonempty h.agrees.nonempty))
      (hupdate.dirMap.trans hremove.dirMap) (hupdate.pending.trans hremove.pending)
    rw [hupdate.holds, hremove.holds, hremove.holds]
    by_cases hk : k = e.inode
    · subst hk
      by_cases hp : p = A
      · simp [hp, (h.agrees.paths e.inode A).mpr hA]
      · simp [hp]
    · simp [hk]
  unfold IdentityProjector.standardRename
  split_ifs with hdir
  · rw [setDir_self ((htracks.agrees.dirs e.inode A).mpr ⟨hmode ▸ hdir, hA⟩)]
    exact htracks
  · exact htracks

theorem exchangeRename_same (h : Tracks T s) {order : List U64} {A : Path}
    (horder : ∀ i, s.inodeMap i ≠ none → i ∈ order) (hA : T.find A = some e.inode)
    (hmode : e.isDirMode = T.isDir e.inode) : Tracks T (s.exchangeRename order e A A) := by
  have hswap : ∀ {s : IdentityProjector}, Tracks T s →
      Tracks T (s.swapIdentityPath e.inode A A) := by
    intro s hs
    obtain ⟨entry, hentry, -⟩ := (hs.agrees.paths e.inode A).mpr hA
    have hlists := IdentityProjector.lists_swapIdentityPath hentry A A
    refine hs.unchanged (fun k p => ?_) (hlists.nonempty hs.agrees.nonempty) hlists.dirMap
      hlists.pending
    rw [hlists.holds]
    by_cases hk : k = e.inode
    · subst hk
      by_cases hp : p = A
      · simp [hp, (hs.agrees.paths e.inode A).mpr hA]
      · simp [hp]
    · simp [hk]
  have htracks := hswap (hswap h)
  have hdirs : T.isDir e.inode = true → ((s.swapIdentityPath e.inode A A).swapIdentityPath
      e.inode A A).dirMap e.inode = some A := fun hdir =>
    (htracks.agrees.dirs e.inode A).mpr ⟨hdir, hA⟩
  have hisDir : (s.dirMap e.inode).isSome = true → T.isDir e.inode = true := by
    intro hsome
    obtain ⟨p, hp⟩ := Option.isSome_iff_exists.mp hsome
    exact ((h.agrees.dirs e.inode p).mp hp).1
  unfold IdentityProjector.exchangeRename
  rw [h.findInodeByRelPath_eq horder hA]
  simp only
  cases hdir : T.isDir e.inode with
  | false =>
    rw [hdir] at hmode hisDir
    rw [hmode, if_neg Bool.false_ne_true, if_neg fun hsome => by cases hisDir hsome]
    exact htracks
  | true =>
    rw [hmode, hdir, if_pos rfl]
    split_ifs
    · rw [setDir_self (hdirs hdir), setDir_self (hdirs hdir)]
      exact htracks
    · rw [setDir_self (hdirs hdir)]
      exact htracks

theorem exchangeRename (h : Tracks T s) {order : List U64} {d d' j : U64} {n n' : String}
    {P P' : Path} (horder : ∀ i, s.inodeMap i ≠ none → i ∈ order)
    (hP : T.find P = some d) (hunique : ∀ q, T.find q = some d → q = P)
    (hP' : T.find P' = some d') (hunique' : ∀ q, T.find q = some d' → q = P')
    (hdir : T.isDir d = true) (hdir' : T.isDir d' = true) (hi : T.entry d n = some e.inode)
    (hj : T.entry d' n' = some j) (hleaf : T.Leaf e.inode) (hleaf' : T.Leaf j) (hid : e.inode ≠ d')
    (hjd : j ≠ d) (hij : j ≠ e.inode) (hmode : e.isDirMode = T.isDir e.inode) :
    Tracks ((T.setEntry d n (some j)).setEntry d' n' (some e.inode))
      (s.exchangeRename order e (P ++ [n]) (P' ++ [n'])) := by
  have hA := (EntryTree.find_concat_of_find hP n).trans hi
  have hB := (EntryTree.find_concat_of_find hP' n').trans hj
  obtain ⟨entryB, hentryB, -⟩ := (h.agrees.paths j _).mpr hB
  obtain ⟨entryA, hentryA, -⟩ := (h.agrees.paths e.inode _).mpr hA
  have hother := IdentityProjector.lists_swapIdentityPath hentryB (P' ++ [n']) (P ++ [n])
  have hentry : (s.swapIdentityPath j (P' ++ [n']) (P ++ [n])).inodeMap e.inode = some entryA := by
    unfold IdentityProjector.swapIdentityPath
    rw [hentryB]
    exact (Function.update_of_ne (Ne.symm hij) ..).trans hentryA
  have hown := IdentityProjector.lists_swapIdentityPath hentry (P ++ [n]) (P' ++ [n'])
  have hisDir : (s.dirMap j).isSome = true ↔ T.isDir j = true := by
    constructor
    · intro hsome
      obtain ⟨p, hp⟩ := Option.isSome_iff_exists.mp hsome
      exact ((h.agrees.dirs j p).mp hp).1
    · intro hj
      rw [(h.agrees.dirs j _).mpr ⟨hj, hB⟩]
      rfl
  unfold IdentityProjector.exchangeRename
  rw [h.findInodeByRelPath_eq horder hB]
  simp only [hmode, hisDir]
  refine h.exchange hP hunique hP' hunique' hdir hdir' hi hj hleaf hleaf' hid hjd hij hother hown
    (fun k => ?_) ?_ ?_
  · by_cases hdj : T.isDir j = true <;> by_cases hdi : T.isDir e.inode = true <;>
      simp [hdj, hdi, IdentityProjector.setDir, Function.update_apply]
  · split_ifs <;> rfl
  · split_ifs <;> rfl

/-- A rename that is followed. -/
theorem projectRename (h : Tracks T s) {order : List U64}
    (horder : ∀ i, s.inodeMap i ≠ none → i ∈ order) {newName : String} (hnew : e.newName = some newName)
    (htype : e.eventType = .rename) (hparent : T.LiveDir e.parentInode) (hname : ValidName e.name)
    (hlegal : T.LegalRename e newName)
    (hfollowed : DirTree.SameName e newName ∨ T.MovesLeaf e newName) :
    Tracks (T.apply e) (s.projectRename order e) := by
  obtain ⟨P, hP, hunique, hmap, hjoin, hfind⟩ := h.place hparent hname
  obtain ⟨P', hP', hunique', hmap', hjoin', hfind'⟩ := h.place hlegal.newParent hlegal.validName
  have hA : T.find (P ++ [e.name]) = some e.inode := hfind.trans hlegal.entry
  obtain ⟨entry, hentry, -⟩ := (h.agrees.paths e.inode _).mpr hA
  have hpathA : s.relPath e.parentInode e.name = P ++ [e.name] := by
    rw [IdentityProjector.relPath, hmap, ← hjoin]
  have hpathB : s.newRelPath e newName = P' ++ [newName] := by
    rw [IdentityProjector.newRelPath, if_pos hlegal.newParent.1, IdentityProjector.relPath, hmap',
      ← hjoin']
  have hid : e.inode ≠ e.newParentInode := by
    intro heq
    exact hlegal.apart ⟨[], by rw [heq]; rfl⟩
  have hproject : s.projectRename order e = if e.isRenameExchange
      then s.exchangeRename order e (P ++ [e.name]) (P' ++ [newName])
      else s.standardRename e (P ++ [e.name]) (P' ++ [newName]) := by
    unfold IdentityProjector.projectRename
    rw [hentry, hnew]
    simp only [hpathA, hpathB]
  have happly : T.apply e = if e.isRenameExchange then
        (T.setEntry e.parentInode e.name (T.entry e.newParentInode newName)).setEntry
          e.newParentInode newName (T.entry e.parentInode e.name)
      else if T.entry e.newParentInode newName = some e.inode then T
      else (T.setEntry e.parentInode e.name none).setEntry e.newParentInode newName
        (some e.inode) := by
    unfold DirTree.apply
    rw [htype, hnew]
  rw [hproject, happly]
  obtain ⟨hsame, rfl⟩ | ⟨hleaf, hmoves⟩ := hfollowed
  · have hPP : P' = P := hunique P' (hsame ▸ hP')
    rw [hsame, hPP, EntryTree.setEntry_self, EntryTree.setEntry_self, if_pos hlegal.entry, ite_self]
    split_ifs
    · exact h.exchangeRename_same horder hA hlegal.mode
    · exact h.standardRename_same hA hlegal.mode
  · split_ifs at hmoves ⊢ with hexchange hback
    · obtain ⟨j, hj, hij, hleaf'⟩ := hmoves
      obtain ⟨j', hj', hapart⟩ := hlegal.exchanged hexchange
      obtain rfl : j = j' := Option.some.inj (hj.symm.trans hj')
      have hjd : j ≠ e.parentInode := by
        intro heq
        exact hapart ⟨[], by rw [heq]; rfl⟩
      rw [hj, hlegal.entry]
      exact h.exchangeRename horder hP hunique hP' hunique' hparent.2.1 hlegal.newParent.2.1
        hlegal.entry hj hleaf hleaf' hid hjd hij hlegal.mode
    · rw [hmoves] at hback
      cases hback
    · have hmove := h.move hP hunique hP' hunique' hparent.2.1 hlegal.newParent.2.1 hlegal.entry
        hmoves hleaf hid (s.lists_removeIdentityPath e.inode (P ++ [e.name]))
        ((s.removeIdentityPath e.inode (P ++ [e.name])).lists_updateIdentity e (P' ++ [newName]))
      unfold IdentityProjector.standardRename
      rw [hlegal.mode]
      exact hmove

/-- Nothing was put off for an inode. -/
theorem replayDeferred (h : Tracks T s) (order : List U64) (i : U64) :
    Tracks T (s.replayDeferred order i) := by
  unfold IdentityProjector.replayDeferred
  rw [h.pending i]
  refine ⟨h.tree, ⟨h.agrees.paths, h.agrees.nonempty, h.agrees.dirs⟩, fun k => ?_⟩
  show Function.update s.pendingRenames i [] k = []
  rw [Function.update_apply]
  split_ifs
  · rfl
  · exact h.pending k

/-- A creation, and what was put off until then. -/
theorem createIdentity (h : Tracks T s) (shard : U64 → ℕ) (order : List U64)
    (hcreated : T.LiveDir e.parentInode ∧ ValidName e.name ∧
      T.entry e.parentInode e.name = none ∧ T.Fresh e.inode)
    (hshard : e.eventType = .mkdir → shard e.inode ≠ shard e.parentInode) :
    ∃ s', (s.createIdentity shard e).map (fun s => s.replayDeferred order e.inode) = some s' ∧
      Tracks ((T.setKind e.inode (e.eventType = .mkdir)).setEntry e.parentInode e.name
        (some e.inode)) s' := by
  obtain ⟨hlive, hname, hfree, hfresh⟩ := hcreated
  obtain ⟨P, hP, hunique, hmap, hjoin, -⟩ := h.place hlive hname
  have hcreate := h.create (e.eventType = .mkdir) hP hunique hlive.2.1 hfree hfresh
    (s.lists_updateIdentity e (P ++ [e.name]))
  refine ⟨_, ?_, hcreate.replayDeferred order e.inode⟩
  rw [Option.map_eq_some_iff]
  refine ⟨_, ?_, rfl⟩
  unfold IdentityProjector.createIdentity
  rw [if_neg hlive.1, hmap]
  simp only [hjoin, decide_eq_true_eq]
  split_ifs with hmkdir heq
  · exact absurd heq (hshard hmkdir)
  · rfl
  · rfl

/-- What one event does. -/
theorem project (h : Tracks T s) (shard : U64 → ℕ) {order : List U64} (hlegal : T.Legal e)
    (horder : ∀ i, s.inodeMap i ≠ none → i ∈ order) (hfollowed : T.Followed e shard) :
    ∃ s', s.project shard order e = some s' ∧ Tracks (T.apply e) s' := by
  unfold DirTree.Legal at hlegal
  unfold DirTree.Followed at hfollowed
  unfold IdentityProjector.project DirTree.apply
  cases htype : e.eventType <;> rw [htype] at hlegal hfollowed
  case rename =>
    obtain ⟨hparent, hname, newName, hnew, hrename⟩ := hlegal
    have htracks := h.projectRename horder hnew htype hparent hname hrename
      (hfollowed newName hnew)
    rw [DirTree.apply, htype] at htracks
    exact ⟨_, rfl, htracks⟩
  case mkdir =>
    obtain ⟨s', hs', htracks⟩ := h.createIdentity shard order hlegal fun _ => hfollowed
    exact ⟨s', hs', by simpa [htype] using htracks⟩
  case create | mknod | symlink =>
    obtain ⟨s', hs', htracks⟩ := h.createIdentity shard order hlegal (by simp [htype])
    exact ⟨s', hs', by simpa [htype] using htracks⟩
  case link =>
    obtain ⟨hparent, hname, hfree, hfile, -⟩ := hlegal
    obtain ⟨P, hP, hunique, hmap, hjoin, -⟩ := h.place hparent hname
    simp only [if_neg hparent.1, hmap, hjoin]
    exact ⟨_, rfl, h.link hP hunique hparent.2.1 hfree hfile
      (s.lists_addIdentityPath e (P ++ [e.name]))⟩
  case unlink =>
    obtain ⟨hparent, hname, hentry, hfile⟩ := hlegal
    obtain ⟨P, hP, hunique, hmap, hjoin, -⟩ := h.place hparent hname
    simp only [if_neg hparent.1, hmap, hjoin]
    exact ⟨_, rfl, h.unlink hP hunique hparent.2.1 hentry hfile
      (s.lists_removeIdentityPath e.inode (P ++ [e.name]))⟩
  case rmdir =>
    obtain ⟨hparent, hname, hentry, hdir, hleaf⟩ := hlegal
    obtain ⟨P, hP, hunique, -⟩ := h.place hparent hname
    exact ⟨_, rfl, h.rmdir hP hunique hparent.2.1 hentry hdir hleaf⟩
  all_goals exact ⟨s, rfl, h⟩

end Tracks

/-! ## Histories -/

/-- The order in which the inode map is iterated has each of its inodes. -/
def IdentityProjector.IteratedIn (s : IdentityProjector) (order : List U64) : Prop :=
  ∀ i, i ∈ order ↔ s.inodeMap i ≠ none

/-- The tree and the projector, of which there is nothing once a call does not return. -/
structure Projection where
  tree : DirTree
  projector : Option IdentityProjector

namespace Projection

/-- An event happens to the tree and is projected; the order is that of the inode map. -/
def step (shard : U64 → ℕ) (w : Projection) (a : Event × List U64) : Projection where
  tree := w.tree.apply a.1
  projector := w.projector.bind fun s => s.project shard a.2 a.1

def LegalStep (w : Projection) (a : Event × List U64) : Prop :=
  w.tree.Legal a.1 ∧ ∀ s, w.projector = some s → s.IteratedIn a.2

/-- The maps exist and agree with the tree. -/
def Agreeing (w : Projection) : Prop := ∃ s, w.projector = some s ∧ Agrees w.tree s

/-- In every legal history of events that are followed, the maps agree with the tree after
every event. -/
theorem agreeing_of_followed (shard : U64 → ℕ) {T : DirTree} {s : IdentityProjector}
    (hT : T.WellFormed) (hs : Agrees T s) (hpending : ∀ i, s.pendingRenames i = [])
    {history : List (Event × List U64)}
    (hlegal : Run.Along (step shard) LegalStep ⟨T, some s⟩ history)
    (hfollowed : Run.Along (step shard) (fun w a => w.tree.Followed a.1 shard) ⟨T, some s⟩ history) :
    ∀ past, past <+: history → (Run.exec (step shard) ⟨T, some s⟩ past).Agreeing := by
  have hstep : ∀ (w : Projection) a, LegalStep w a ∧ w.tree.Followed a.1 shard →
      (∃ s, w.projector = some s ∧ Tracks w.tree s) →
      ∃ s, (step shard w a).projector = some s ∧ Tracks (step shard w a).tree s := by
    rintro w a ⟨⟨hevent, hiterated⟩, hfollow⟩ ⟨s, hsome, htracks⟩
    obtain ⟨s', hs', htracks'⟩ := htracks.project shard hevent
      (fun i hi => (hiterated s hsome i).mpr hi) hfollow
    refine ⟨s', ?_, htracks'⟩
    rw [step, hsome]
    exact hs'
  intro past hpast
  obtain ⟨s', hs', htracks⟩ := Run.invariant_prefix (step shard) hstep
    (Run.along_and (step shard) hlegal hfollowed) ⟨s, rfl, hT, hs, hpending⟩ past hpast
  exact ⟨s', hs', htracks.agrees⟩

/-! A small tree. -/

/-- Nothing but the root. -/
def bareTree : DirTree where
  root := 1
  entry := fun _ _ => none
  isDir := fun i => i = 1

def bareProjector : IdentityProjector where
  inodeMap := fun i => if i = 1 then some (.new [] 0 0 0) else none
  dirMap := fun i => if i = 1 then some [] else none
  pendingRenames := fun _ => []

def treeEvent (t : EventType) (inode parent : U64) (name : String) : Event :=
  { Event.zero with
    eventType := t
    inode := inode
    parentInode := parent
    name := name }

/-- Both parents of the rename are the root. -/
def renameEvent (inode parent : U64) (name newName : String) (mode : U32) : Event :=
  { treeEvent .rename inode parent name with
    newParentInode := 1
    newName := some newName
    mode := mode }

theorem bareTree_wellFormed : bareTree.WellFormed where
  root_isDir := by decide
  dir_of_entry := by
    rintro d n i ⟨⟩
  parent_unique := by
    rintro d n d' n' i - ⟨⟩
  root_no_entry := by
    rintro d n ⟨⟩

theorem bareTree_find (p : Path) (i : U64) : bareTree.find p = some i ↔ i = 1 ∧ p = [] := by
  cases p with
  | nil => simp [bareTree, eq_comm]
  | cons n p => simp [EntryTree.find, EntryTree.walk, bareTree]

theorem agrees_bare : Agrees bareTree bareProjector where
  paths i p := by
    rw [bareTree_find]
    by_cases hi : i = 1 <;> simp [IdentityProjector.Holds, bareProjector, IdentityEntry.new, hi]
  nonempty i entry hentry := by
    by_cases hi : i = 1
    · obtain rfl : IdentityEntry.new [] 0 0 0 = entry := by simpa [bareProjector, hi] using hentry
      simp [IdentityEntry.new]
    · simp [bareProjector, hi] at hentry
  dirs d p := by
    rw [bareTree_find]
    by_cases hd : d = 1 <;> simp [bareProjector, bareTree, hd, eq_comm]

theorem tracks_bare : Tracks bareTree bareProjector :=
  ⟨bareTree_wellFormed, agrees_bare, fun _ => rfl⟩

def sampleShard (i : U64) : ℕ := i.val % 4

/-- A directory is made, and a file in it. -/
def makeDir : Event × List U64 := (treeEvent .mkdir 2 1 "d", [1])

def makeFile : Event × List U64 := (treeEvent .create 3 2 "f", [1, 2])

def dirTree : DirTree := bareTree.apply makeDir.1

def nestedTree : DirTree := dirTree.apply makeFile.1

theorem bareTree_liveDir : bareTree.LiveDir 1 := ⟨by decide, by decide, [], rfl⟩

theorem bareTree_fresh : bareTree.Fresh 2 := ⟨by decide, fun _ _ => by simp [bareTree], fun _ => rfl⟩

theorem makeDir_legal : bareTree.Legal makeDir.1 :=
  ⟨bareTree_liveDir, by decide, rfl, bareTree_fresh⟩

theorem dirTree_find (p : Path) :
    dirTree.find p = if p = ["d"] then some 2 else bareTree.find p :=
  Tracks.find_create true rfl (fun q hq => ((bareTree_find q 1).mp hq).2) rfl bareTree_fresh p

theorem dirTree_liveDir : dirTree.LiveDir 2 := ⟨by decide, by decide, ["d"], by decide⟩

theorem dirTree_entry (d : U64) (n : String) :
    dirTree.entry d n = if d = 1 ∧ n = "d" then some 2 else none := rfl

theorem dirTree_fresh : dirTree.Fresh 3 := by
  refine ⟨by decide, fun d n => ?_, fun n => ?_⟩
  · rw [dirTree_entry]
    split_ifs <;> simp
  · rw [dirTree_entry, if_neg (by simp)]

theorem makeFile_legal : dirTree.Legal makeFile.1 :=
  ⟨dirTree_liveDir, by decide, by decide, dirTree_fresh⟩

theorem dirTree_unique (q : Path) (hq : dirTree.find q = some 2) : q = ["d"] := by
  rw [dirTree_find] at hq
  split_ifs at hq with h
  · exact h
  · exact absurd ((bareTree_find q 2).mp hq).1 (by decide)

theorem nestedTree_find (p : Path) :
    nestedTree.find p = if p = ["d", "f"] then some 3 else dirTree.find p :=
  Tracks.find_create false (by decide) dirTree_unique (by decide) dirTree_fresh p

theorem nestedTree_entry (d : U64) (n : String) :
    nestedTree.entry d n = if d = 2 ∧ n = "f" then some 3 else dirTree.entry d n := rfl

/-- One more path makes one more inode that can be reached. -/
theorem reachable_add {F F' : Path → Option U64} {B : Path} {j : U64} {order : List U64}
    (hfree : F B = none) (hF : ∀ p, F' p = if p = B then some j else F p)
    (h : ∀ i, i ∈ order ↔ ∃ p, F p = some i) (i : U64) :
    i ∈ order ++ [j] ↔ ∃ p, F' p = some i := by
  rw [List.mem_append, List.mem_singleton, h]
  constructor
  · rintro (⟨p, hp⟩ | rfl)
    · refine ⟨p, ?_⟩
      rw [hF, if_neg, hp]
      rintro rfl
      rw [hfree] at hp
      cases hp
    · exact ⟨B, by rw [hF, if_pos rfl]⟩
  · rintro ⟨p, hp⟩
    rw [hF] at hp
    split_ifs at hp
    · exact .inr (Option.some.inj hp).symm
    · exact .inl ⟨p, hp⟩

theorem bareTree_reachable (i : U64) : i ∈ [1] ↔ ∃ p, bareTree.find p = some i := by
  simp [bareTree_find]

theorem dirTree_reachable (i : U64) : i ∈ [1, 2] ↔ ∃ p, dirTree.find p = some i :=
  reachable_add rfl dirTree_find bareTree_reachable i

theorem nestedTree_reachable (i : U64) : i ∈ [1, 2, 3] ↔ ∃ p, nestedTree.find p = some i :=
  reachable_add (by decide) nestedTree_find dirTree_reachable i

theorem iteratedIn_of_tracks {T : DirTree} {s : IdentityProjector} {order : List U64}
    (h : Tracks T s) (horder : ∀ i, i ∈ order ↔ ∃ p, T.find p = some i) : s.IteratedIn order := by
  intro i
  rw [horder]
  constructor
  · rintro ⟨p, hp⟩
    obtain ⟨entry, hentry, -⟩ := (h.agrees.paths i p).mpr hp
    simp [hentry]
  · intro hi
    obtain ⟨entry, hentry⟩ := Option.ne_none_iff_exists'.mp hi
    obtain ⟨p, hp⟩ := List.exists_mem_of_ne_nil _ (h.agrees.nonempty i entry hentry)
    exact ⟨p, (h.agrees.paths i p).mp ⟨entry, hentry, hp⟩⟩

/-- The maps after the directory and the file are made. -/
theorem exists_nested : ∃ s₁ s₂, Tracks dirTree s₁ ∧ Tracks nestedTree s₂ ∧
    bareProjector.project sampleShard [1] makeDir.1 = some s₁ ∧
    s₁.project sampleShard [1, 2] makeFile.1 = some s₂ := by
  obtain ⟨s₁, hs₁, h₁⟩ := tracks_bare.project sampleShard makeDir_legal
    (fun i hi => (iteratedIn_of_tracks tracks_bare bareTree_reachable i).mpr hi)
    (by decide : sampleShard 2 ≠ sampleShard 1)
  obtain ⟨s₂, hs₂, h₂⟩ := h₁.project sampleShard makeFile_legal
    (fun i hi => (iteratedIn_of_tracks h₁ dirTree_reachable i).mpr hi) trivial
  exact ⟨s₁, s₂, h₁, h₂, hs₁, hs₂⟩

/-- Any event of the nested tree makes a legal history. -/
theorem legal_nested {e : Event} (he : nestedTree.Legal e) :
    Run.Along (step sampleShard) LegalStep ⟨bareTree, some bareProjector⟩
      [makeDir, makeFile, (e, [1, 2, 3])] := by
  obtain ⟨s₁, s₂, h₁, h₂, hs₁, hs₂⟩ := exists_nested
  refine ⟨⟨makeDir_legal, ?_⟩, ⟨makeFile_legal, ?_⟩, ⟨he, ?_⟩, trivial⟩
  · rintro s ⟨⟩
    exact iteratedIn_of_tracks tracks_bare bareTree_reachable
  · intro s hs
    obtain rfl : s₁ = s := Option.some.inj (hs₁.symm.trans hs)
    exact iteratedIn_of_tracks h₁ dirTree_reachable
  · intro s hs
    have hsome : (some bareProjector).bind (fun s => s.project sampleShard [1] makeDir.1) = some s₁ :=
      hs₁
    obtain rfl : s₂ = s := by
      refine Option.some.inj (hs₂.symm.trans ?_)
      rw [← hs]
      show _ = (((some bareProjector).bind fun s => s.project sampleShard [1] makeDir.1).bind
        fun s => s.project sampleShard [1, 2] makeFile.1)
      rw [hsome]
      rfl
    exact iteratedIn_of_tracks h₂ nestedTree_reachable

theorem nestedTree_liveDir : nestedTree.LiveDir 1 ∧ nestedTree.LiveDir 2 :=
  ⟨⟨by decide, by decide, [], rfl⟩, by decide, by decide, ["d"], by decide⟩

theorem nestedTree_leaf : nestedTree.Leaf 3 := fun n => by
  rw [nestedTree_entry, dirTree_entry, if_neg (by simp), if_neg (by simp)]

theorem below_of_leaf {T : DirTree} {i j : U64} (hleaf : T.Leaf i) (h : T.Below i j) : j = i := by
  obtain ⟨p, hp⟩ := h
  cases p with
  | nil => exact (Option.some.inj hp).symm
  | cons n p => simp [EntryTree.walk, hleaf n] at hp

/-- The file is moved out of the directory. -/
def moveFile : Event := renameEvent 3 2 "f" "g" 32768

theorem moveFile_legal : nestedTree.Legal moveFile := by
  refine ⟨nestedTree_liveDir.2, by decide, "g", rfl, nestedTree_liveDir.1, by decide, by decide,
    by decide, fun hbelow => ?_, fun _ j hj => ?_, fun hexchange => ?_⟩
  · exact absurd (below_of_leaf nestedTree_leaf hbelow) (by decide)
  · exact absurd (hj.symm.trans (by decide : nestedTree.entry 1 "g" = none)) (by simp)
  · exact absurd hexchange (by decide)

theorem agreeing_after_moveFile :
    (Run.exec (step sampleShard) ⟨bareTree, some bareProjector⟩
      [makeDir, makeFile, (moveFile, [1, 2, 3])]).Agreeing := by
  refine agreeing_of_followed sampleShard bareTree_wellFormed agrees_bare (fun _ => rfl)
    (legal_nested moveFile_legal) ⟨?_, trivial, ?_, trivial⟩ _ (List.prefix_refl _)
  · exact (by decide : sampleShard 2 ≠ sampleShard 1)
  · rintro newName ⟨⟩
    exact .inr ⟨nestedTree_leaf, (by decide : nestedTree.entry 1 "g" = none)⟩

/-- The directory is renamed with the file in it. -/
def moveDir : Event := renameEvent 2 1 "d" "e" 16384

theorem moveDir_legal : nestedTree.Legal moveDir := by
  refine ⟨nestedTree_liveDir.1, by decide, "e", rfl, nestedTree_liveDir.1, by decide, by decide,
    by decide, ?_, fun _ j hj => ?_, fun hexchange => ?_⟩
  · rintro ⟨p, hp⟩
    have hfind : nestedTree.find ("d" :: p) = some 1 := hp
    obtain ⟨_, _, _, hnested, _⟩ := exists_nested
    have hnil := hnested.tree.path_unique nestedTree_liveDir.1.2.1 hfind nestedTree.find_nil
    exact absurd hnil (by simp)
  · exact absurd (hj.symm.trans (by decide : nestedTree.entry 1 "e" = none)) (by simp)
  · exact absurd hexchange (by decide)

/-- The file keeps its old path, which leads nowhere. -/
theorem not_agreeing_after_moveDir :
    bareTree.WellFormed ∧ Agrees bareTree bareProjector ∧
    (∀ i, bareProjector.pendingRenames i = []) ∧
    Run.Along (step sampleShard) LegalStep ⟨bareTree, some bareProjector⟩
      [makeDir, makeFile, (moveDir, [1, 2, 3])] ∧
    ¬ (Run.exec (step sampleShard) ⟨bareTree, some bareProjector⟩
      [makeDir, makeFile, (moveDir, [1, 2, 3])]).Agreeing := by
  refine ⟨bareTree_wellFormed, agrees_bare, fun _ => rfl, legal_nested moveDir_legal, ?_⟩
  rintro ⟨s, hs, hagrees⟩
  obtain ⟨s₁, s₂, h₁, h₂, hs₁, hs₂⟩ := exists_nested
  have hrun : (((some bareProjector).bind fun s => s.project sampleShard [1] makeDir.1).bind
      fun s => s.project sampleShard [1, 2] makeFile.1).bind
      (fun s => s.project sampleShard [1, 2, 3] moveDir) = some s := hs
  rw [Option.bind_some, hs₁, Option.bind_some, hs₂, Option.bind_some] at hrun
  obtain rfl : s₂.projectRename [1, 2, 3] moveDir = s := Option.some.inj hrun
  have hlisted : s₂.Holds 3 ["d", "f"] := (h₂.agrees.paths 3 ["d", "f"]).mpr (by decide)
  have hinode : (3 : U64) ≠ moveDir.inode := by decide
  have hkept := (IdentityProjector.holds_projectRename rfl [1, 2, 3] hinode _).mpr hlisted
  have hfound := (hagrees.paths 3 ["d", "f"]).mp hkept
  exact absurd hfound (by decide)

end Projection

end Foxing
