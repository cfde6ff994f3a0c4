import Foxing.EventFootprint

/-!
# Resolving the path of an event again

An event that is attempted more than once is resolved each time. Unless a
directory is to be learned, resolving changes nothing but the entry of the
event's own inode, and a second time it leads to the same path and changes
nothing at all.
-/
namespace Foxing

open World (cells)

namespace IdentityEntry
variable {entry : IdentityEntry} {seq : U64} {path : Path} {nlink : U32}

theorem recordAccess_idem : (entry.recordAccess seq).recordAccess seq = entry.recordAccess seq := by
  unfold recordAccess
  by_cases h : entry.lastAccessedSeq < seq
  · simp [h]
  · simp [h]

theorem recordAccess_of_le (h : seq ≤ entry.lastAccessedSeq) : entry.recordAccess seq = entry := by
  unfold recordAccess
  rw [if_neg (Fin.not_lt.mpr h)]

theorem le_recordAccess : seq ≤ (entry.recordAccess seq).lastAccessedSeq := by
  unfold recordAccess
  dsimp only
  split_ifs with h
  · exact Fin.le_refl seq
  · exact Fin.not_lt.mp h

theorem mem_learnPath : path ∈ (entry.learnPath path nlink).paths := by
  unfold learnPath
  split_ifs with h hn
  · exact h
  · simp [addPath, clearPaths]
  · simp [addPath, h]

theorem mem_addPath_of_mem {q : Path} (h : q ∈ entry.paths) : q ∈ (entry.addPath path).paths := by
  unfold addPath
  dsimp only
  split_ifs
  · exact h
  · exact List.mem_append_left _ h

/-- A path that is added does not come before the others. -/
theorem primaryPath_addPath (h : entry.primaryPath ≠ none) :
    (entry.addPath path).primaryPath = entry.primaryPath := by
  unfold primaryPath addPath at *
  dsimp only
  cases hcase : entry.paths with
  | nil =>
    rw [hcase] at h
    exact absurd rfl h
  | cons q qs => split_ifs <;> rfl

theorem learnPath_of_mem (h : path ∈ entry.paths) : entry.learnPath path nlink = entry := by
  rw [learnPath, if_pos h]

@[simp] theorem learnPath_generation :
    (entry.learnPath path nlink).generation = entry.generation := by
  unfold learnPath
  split_ifs <;> rfl

@[simp] theorem learnPath_lastAccessedSeq :
    (entry.learnPath path nlink).lastAccessedSeq = entry.lastAccessedSeq := by
  unfold learnPath
  split_ifs <;> rfl

@[simp] theorem recordAccess_generation :
    (entry.recordAccess seq).generation = entry.generation := rfl

@[simp] theorem recordAccess_paths : (entry.recordAccess seq).paths = entry.paths := rfl

end IdentityEntry

namespace World
variable {w : World} {i : U64} {x y : IdentityEntry}

theorem insertEntry_self (h : w.inodeMap i = some x) : w.insertEntry i x = w := by
  unfold insertEntry
  rw [← h, Function.update_eq_self]

@[simp] theorem insertEntry_twice : (w.insertEntry i x).insertEntry i y = w.insertEntry i y := by
  unfold insertEntry
  simp

@[simp] theorem insertEntry_inodeMap_self : (w.insertEntry i x).inodeMap i = some x := by
  simp [insertEntry]

end World

/-! ## Resolving again -/

section Resolution
variable {e : Event} {w v : World}

/-- There is no directory to learn from the inode map. -/
def Settled (e : Event) (w : World) : Prop :=
  ∀ i, i = e.parentInode ∨ i = e.newParentInode → w.dirMap i = none → w.inodeMap i = none

/-- The stored generation does not call for a refresh. -/
def Current (e : Event) (w : World) : Prop :=
  ∀ entry, w.inodeMap e.inode = some entry →
    ¬ (e.generation ≠ U32.max ∧ entry.generation ≠ U32.max ∧ entry.generation ≠ e.generation)

theorem refreshGeneration_current (h : Current e w) : refreshGeneration e w = ((), w) := by
  unfold refreshGeneration
  rw [StateM.run_bind, StateM.run_peek]
  cases hentry : w.inodeMap e.inode with
  | none => rfl
  | some entry =>
    simp only
    rw [if_neg (h entry hentry)]
    rfl

theorem current_refreshGeneration (e : Event) (w : World) :
    Current e (refreshGeneration e w).2 := by
  unfold refreshGeneration
  rw [StateM.run_bind, StateM.run_peek]
  cases hentry : w.inodeMap e.inode with
  | none =>
    intro entry h
    rw [show w.inodeMap e.inode = some entry from h] at hentry
    cases hentry
  | some entry =>
    simp only
    by_cases hold : e.generation ≠ U32.max ∧ entry.generation ≠ U32.max ∧
        entry.generation ≠ e.generation
    · rw [if_pos hold]
      simp only [StateM.run_bind, StateM.run_peek, StateM.run_modify]
      intro entry' h
      rw [World.insertEntry_inodeMap_self] at h
      cases h
      cases specificRelPath e w with
      | none => exact fun hn => hn.2.2 rfl
      | some relPath => exact fun hn => hn.2.2 rfl
    · rw [if_neg hold]
      intro entry' h
      rw [show w.inodeMap e.inode = some entry' from h] at hentry
      cases hentry
      exact hold

/-- An unknown directory is not learned. -/
theorem resolveParent_settled {i : U64} (h : w.dirMap i = none → w.inodeMap i = none) :
    resolveParent i w = (some (w.dirMap i), w) := by
  cases hd : w.dirMap i with
  | some path => exact resolveParent_of_dir hd
  | none => rw [resolveParent_of_inode hd, h hd]

/-- The path of a name in a directory that is not learned. -/
def settledPath (i : U64) (name : String) (w : World) : Path :=
  match if i = 0 then none else w.dirMap i with
  | some path => Path.join path name
  | none => components name

theorem resolveEventPath_settled {i : U64} (name : String)
    (h : w.dirMap i = none → w.inodeMap i = none) :
    resolveEventPath i name w = (some (settledPath i name w), w) := by
  unfold settledPath
  by_cases hi : i = 0
  · rw [hi, resolveEventPath_zero]
    rfl
  · rw [resolveEventPath_run hi, resolveParent_settled h, if_neg hi]
    cases w.dirMap i with
    | none => rfl
    | some path => rfl

/-- The destination of a rename whose directory is not learned. -/
def settledDest (e : Event) (p : Path) (w : World) : Path :=
  match e.newName with
  | some newName => settledPath e.newParentInode newName w
  | none => p

theorem renameDest_settled (p : Path) (h : Settled e w) :
    Arm.renameDest e p w = (some (settledDest e p w), w) := by
  unfold Arm.renameDest settledDest
  cases e.newName with
  | none => rfl
  | some newName => exact resolveEventPath_settled newName (h _ (.inr rfl))

/-- The entry of a known inode after it has been resolved. -/
def resolvedEntry (e : Event) (entry : IdentityEntry) (w : World) : IdentityEntry :=
  if entry.generation ≠ U32.max ∧ entry.generation ≠ e.generation then entry.recordAccess e.seqNum
  else match specificRelPath e w with
    | some p => (entry.recordAccess e.seqNum).learnPath p e.nlink
    | none => entry.recordAccess e.seqNum

theorem resolveKnown_state (e : Event) (entry : IdentityEntry) (w : World) :
    (resolveKnown e entry w).2 = w.insertEntry e.inode (resolvedEntry e entry w) := by
  unfold resolvedEntry
  by_cases hgen : entry.generation ≠ U32.max ∧ entry.generation ≠ e.generation
  · rw [if_pos hgen]
    have hgen' : (entry.recordAccess e.seqNum).generation ≠ U32.max ∧
        (entry.recordAccess e.seqNum).generation ≠ e.generation := hgen
    simp only [resolveKnown, StateM.run_bind, StateM.run_modify, if_pos hgen']
    rfl
  · rw [if_neg hgen, resolveKnown_run (by tauto)]
    cases specificRelPath e w with
    | some p => exact World.insertEntry_twice
    | none => rfl

theorem resolvedEntry_idem (e : Event) (entry : IdentityEntry) (w : World) :
    resolvedEntry e (resolvedEntry e entry w) w = resolvedEntry e entry w := by
  unfold resolvedEntry
  by_cases hgen : entry.generation ≠ U32.max ∧ entry.generation ≠ e.generation
  · simp only [if_pos hgen, IdentityEntry.recordAccess_generation,
      IdentityEntry.recordAccess_idem]
  · simp only [if_neg hgen]
    cases hspec : specificRelPath e w with
    | none =>
      simp only [IdentityEntry.recordAccess_generation, if_neg hgen,
        IdentityEntry.recordAccess_idem]
    | some p =>
      simp only [IdentityEntry.learnPath_generation, IdentityEntry.recordAccess_generation,
        if_neg hgen]
      have hseen : e.seqNum ≤
          ((entry.recordAccess e.seqNum).learnPath p e.nlink).lastAccessedSeq := by
        rw [IdentityEntry.learnPath_lastAccessedSeq]
        exact IdentityEntry.le_recordAccess
      rw [IdentityEntry.recordAccess_of_le hseen,
        IdentityEntry.learnPath_of_mem IdentityEntry.mem_learnPath]

theorem resolvedEntry_generation (e : Event) (entry : IdentityEntry) (w : World) :
    (resolvedEntry e entry w).generation = entry.generation := by
  unfold resolvedEntry
  split_ifs
  · rfl
  · cases specificRelPath e w with
    | none => rfl
    | some p => exact IdentityEntry.learnPath_generation

theorem resolveKnown_result (e : Event) (entry : IdentityEntry) (w : World) :
    (resolveKnown e entry w).1 =
      if entry.generation ≠ U32.max ∧ entry.generation ≠ e.generation then
        some (.needsRepair ((specificRelPath e w).getD (components e.name)))
      else match specificRelPath e w with
        | some p => some ((ResolveResult.success p false false).validated p)
        | none => entry.primaryPath.map fun p => (ResolveResult.success p false false).validated p := by
  by_cases hgen : entry.generation ≠ U32.max ∧ entry.generation ≠ e.generation
  · have hgen' : (entry.recordAccess e.seqNum).generation ≠ U32.max ∧
        (entry.recordAccess e.seqNum).generation ≠ e.generation := hgen
    simp only [resolveKnown, StateM.run_bind, StateM.run_modify, if_pos hgen', if_pos hgen]
    rfl
  · rw [if_neg hgen, resolveKnown_run (by tauto)]
    cases specificRelPath e w with
    | some p => rfl
    | none => rfl

/-- A known inode that has been resolved is resolved in the same way again. -/
theorem resolveKnown_again (e : Event) (entry : IdentityEntry) (w : World) :
    resolveKnown e (resolvedEntry e entry w)
        (w.insertEntry e.inode (resolvedEntry e entry w)) =
      ((resolveKnown e entry w).1, w.insertEntry e.inode (resolvedEntry e entry w)) := by
  have hspec : specificRelPath e (w.insertEntry e.inode (resolvedEntry e entry w)) =
      specificRelPath e w := rfl
  refine Prod.ext ?_ ?_
  · rw [resolveKnown_result, resolveKnown_result, resolvedEntry_generation, hspec]
    by_cases hgen : entry.generation ≠ U32.max ∧ entry.generation ≠ e.generation
    · simp only [if_pos hgen]
    · simp only [if_neg hgen]
      cases hp : specificRelPath e w with
      | some p => rfl
      | none => simp only [resolvedEntry, if_neg hgen, hp]; rfl
  · have hentry : resolvedEntry e (resolvedEntry e entry w)
        (w.insertEntry e.inode (resolvedEntry e entry w)) = resolvedEntry e entry w := by
      rw [show resolvedEntry e (resolvedEntry e entry w)
        (w.insertEntry e.inode (resolvedEntry e entry w)) =
          resolvedEntry e (resolvedEntry e entry w) w from rfl, resolvedEntry_idem]
    rw [resolveKnown_state, hentry, World.insertEntry_twice]

theorem resolveUnknown_settled (h : w.dirMap e.parentInode = none → w.inodeMap e.parentInode = none) :
    (resolveUnknown e w).2 = w := by
  by_cases hown : e.parentInode ≠ 0 ∧ e.name ≠ ""
  · have hrun : resolveOwnParent e w = (some (w.dirMap e.parentInode), w) := by
      rw [resolveOwnParent_run, if_pos hown, resolveParent_settled h]
    rw [resolveUnknown_run hrun]
  · have hrun : resolveOwnParent e w = (some none, w) := by
      rw [resolveOwnParent_run, if_neg hown]
    rw [resolveUnknown_run hrun]

theorem refreshGeneration_dirMap (e : Event) (w : World) :
    (refreshGeneration e w).2.dirMap = w.dirMap := by
  unfold refreshGeneration
  rw [StateM.run_bind, StateM.run_peek]
  cases w.inodeMap e.inode with
  | none => rfl
  | some entry =>
    simp only
    split_ifs
    · rfl
    · rfl

theorem refreshGeneration_inodeMap {i : U64} (hi : i ≠ e.inode) (w : World) :
    (refreshGeneration e w).2.inodeMap i = w.inodeMap i := by
  unfold refreshGeneration
  rw [StateM.run_bind, StateM.run_peek]
  cases w.inodeMap e.inode with
  | none => rfl
  | some entry =>
    simp only
    split_ifs
    · exact Function.update_of_ne hi _ _
    · rfl

/-- Resolving the path of an event a second time leads to the same path and
changes nothing. -/
theorem resolution_again (h : Settled e w) (hown : e.inode ≠ e.parentInode) :
    resolution e (resolution e w).2 = resolution e w := by
  have hrun : ∀ u, resolution e u = resolveTarget e (refreshGeneration e u).2 := fun _ => rfl
  have hcur := current_refreshGeneration e w
  rw [hrun w]
  set w₁ := (refreshGeneration e w).2 with hw₁
  have hparent : w₁.dirMap e.parentInode = none → w₁.inodeMap e.parentInode = none := by
    rw [hw₁, refreshGeneration_dirMap, refreshGeneration_inodeMap (Ne.symm hown)]
    exact h e.parentInode (.inl rfl)
  cases hentry : w₁.inodeMap e.inode with
  | none =>
    have hstate : (resolveTarget e w₁).2 = w₁ := by
      rw [resolveTarget_unknown hentry]
      exact resolveUnknown_settled hparent
    rw [hstate, hrun, refreshGeneration_current hcur]
  | some entry =>
    rw [resolveTarget_known hentry, resolveKnown_state]
    have hcur' : Current e (w₁.insertEntry e.inode (resolvedEntry e entry w₁)) := by
      intro entry' hentry'
      rw [World.insertEntry_inodeMap_self] at hentry'
      cases hentry'
      rw [resolvedEntry_generation]
      exact hcur entry hentry
    rw [hrun, refreshGeneration_current hcur',
      resolveTarget_known World.insertEntry_inodeMap_self, resolveKnown_again]
    exact Prod.ext rfl (resolveKnown_state ..).symm

end Resolution

/-! ## Resolving after the target has changed -/

section Again
variable {e : Event} {p : Path} {w u v : World}

/-- Resolving looks at the maps only. -/
theorem resolution_of_maps (hi : u.inodeMap = v.inodeMap) (hd : u.dirMap = v.dirMap) :
    resolution e u = ((resolution e v).1, { (resolution e v).2 with target := u.target }) := by
  have hroom : MapRoom e mapCells mapCells v :=
    ⟨subset_rfl, .inl ⟨_, rfl⟩, .inr ⟨_, rfl⟩,
      ⟨.inr ⟨_, rfl⟩, .inl ⟨_, rfl⟩, fun _ => .inr ⟨_, rfl⟩, fun _ _ => .inr ⟨_, rfl⟩⟩,
      ⟨.inr ⟨_, rfl⟩, .inl ⟨_, rfl⟩, fun _ => .inr ⟨_, rfl⟩, fun _ _ => .inr ⟨_, rfl⟩⟩⟩
  have hagree : cells.Agree mapCells v u := by
    rintro c (⟨i, rfl⟩ | ⟨i, rfl⟩)
    · exact congrFun hi.symm i
    · exact congrFun hd.symm i
  obtain ⟨hres, hin, -⟩ := local_resolution hroom u hagree
  refine Prod.ext hres (cells.ext fun c => ?_)
  cases c with
  | node q => exact congrArg (fun t => t.node q) (resolution_target e u)
  | data i => exact congrArg (fun t => t.data i) (resolution_target e u)
  | inode i => exact (hin (.inode i) (.inl ⟨i, rfl⟩)).symm
  | dir i => exact (hin (.dir i) (.inr ⟨i, rfl⟩)).symm

/-- The path of an event is resolved after something was done to the target only. -/
theorem resolution_again_of_maps (h : Settled e w) (hown : e.inode ≠ e.parentInode)
    (hi : u.inodeMap = (resolution e w).2.inodeMap) (hd : u.dirMap = (resolution e w).2.dirMap) :
    resolution e u = ((resolution e w).1, u) := by
  rw [resolution_of_maps hi hd, resolution_again h hown]
  obtain ⟨t, im, dm⟩ := u
  dsimp only at hi hd
  rw [hi, hd]

theorem resolveTarget_maps {w₁ : World}
    (h : w₁.dirMap e.parentInode = none → w₁.inodeMap e.parentInode = none) :
    (resolveTarget e w₁).2.dirMap = w₁.dirMap ∧
      ∀ i, i ≠ e.inode → (resolveTarget e w₁).2.inodeMap i = w₁.inodeMap i := by
  cases hentry : w₁.inodeMap e.inode with
  | none =>
    rw [resolveTarget_unknown hentry, resolveUnknown_settled h]
    exact ⟨rfl, fun _ _ => rfl⟩
  | some entry =>
    rw [resolveTarget_known hentry, resolveKnown_state]
    exact ⟨rfl, fun i hi => Function.update_of_ne hi _ _⟩

/-- Resolving changes the entry of the event's own inode only. -/
theorem resolution_maps (h : Settled e w) (hown : e.inode ≠ e.parentInode) :
    (resolution e w).2.dirMap = w.dirMap ∧
      ∀ i, i ≠ e.inode → (resolution e w).2.inodeMap i = w.inodeMap i := by
  have hparent : (refreshGeneration e w).2.dirMap e.parentInode = none →
      (refreshGeneration e w).2.inodeMap e.parentInode = none := by
    rw [refreshGeneration_dirMap, refreshGeneration_inodeMap (Ne.symm hown)]
    exact h _ (.inl rfl)
  obtain ⟨hdir, hinode⟩ := resolveTarget_maps hparent
  have hrun : resolution e w = resolveTarget e (refreshGeneration e w).2 := rfl
  rw [hrun]
  exact ⟨hdir.trans (refreshGeneration_dirMap e w),
    fun i hi => (hinode i hi).trans (refreshGeneration_inodeMap hi w)⟩

theorem Settled.of_maps (h : Settled e w) (hown : e.inode ≠ e.parentInode)
    (hown' : e.inode ≠ e.newParentInode) (hd : ∀ i, i ≠ e.inode → u.dirMap i = w.dirMap i)
    (hi : ∀ i, i ≠ e.inode → u.inodeMap i = w.inodeMap i) : Settled e u := by
  intro i hi' hnone
  have hne : i ≠ e.inode := by
    rcases hi' with rfl | rfl
    · exact Ne.symm hown
    · exact Ne.symm hown'
  rw [hi i hne]
  exact h i hi' ((hd i hne).symm.trans hnone)

/-- The inode has an entry that a rename does not contradict. -/
def KnownEntry (e : Event) (w : World) : Prop :=
  ∃ entry, w.inodeMap e.inode = some entry ∧
    (e.generation ≠ U32.max ∨ entry.generation = U32.max)

/-- After the generation has been looked at, such an entry is taken at its word. -/
theorem KnownEntry.refreshed (h : KnownEntry e w) :
    ∃ entry, (refreshGeneration e w).2.inodeMap e.inode = some entry ∧
      ¬ (entry.generation ≠ U32.max ∧ entry.generation ≠ e.generation) := by
  obtain ⟨entry, hentry, hgen⟩ := h
  by_cases hold : e.generation ≠ U32.max ∧ entry.generation ≠ U32.max ∧
      entry.generation ≠ e.generation
  · have hrun : (refreshGeneration e w).2 = w.insertEntry e.inode
        (match specificRelPath e w with
          | some relPath => ({ entry.clearPaths with generation := e.generation }).addPath relPath
          | none => { entry.clearPaths with generation := e.generation }) := by
      unfold refreshGeneration
      rw [StateM.run_bind, StateM.run_peek]
      simp only [hentry]
      rw [if_pos hold]
      rfl
    rw [hrun, World.insertEntry_inodeMap_self]
    refine ⟨_, rfl, ?_⟩
    cases specificRelPath e w with
    | none => exact fun hn => hn.2 rfl
    | some relPath => exact fun hn => hn.2 rfl
  · have hcur : Current e w := by
      intro entry' hentry'
      rw [hentry] at hentry'
      cases hentry'
      exact hold
    rw [refreshGeneration_current hcur]
    refine ⟨entry, hentry, ?_⟩
    tauto

end Again

end Foxing
