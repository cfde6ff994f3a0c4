import Foxing.RepeatedResolution

/-!
# Failed attempts

What a failed attempt leaves behind, and that an attempt which comes after it
does the same as if it had not been made: directories that were made stay, a copy
covers one that got less far, and a rename is remembered in the same way.
-/
namespace Foxing

open World (cells)

/-! ## Calls that are repeated -/

namespace Fs
variable {t t' : Fs} {p : Path} {m : Meta}

/-- Either all directories are there afterwards, or something was in the way. -/
theorem createDirAll_cases (m : Meta) (p : Path) (t : Fs) :
    (∀ q, q <+: p → (createDirAll m p t).2.isDir q = true) ∨
      createDirAll m p t = (.error .other, t) := by
  by_cases hall : p.inits.all (fun a => (t.node a).isNone || t.isDir a) = true
  · left
    intro q hq
    have hmem : q ∈ p.inits := (List.mem_inits q p).mpr hq
    have hq' := List.all_eq_true.mp hall q hmem
    rw [createDirAll, if_pos hall, isDir]
    by_cases hnone : t.node q = none
    · simp [hq, hnone]
    · have hdir : t.isDir q = true := by
        simpa [Option.isNone_iff_eq_none, hnone] using hq'
      simpa [hnone, isDir] using hdir
  · right
    rw [createDirAll, if_neg hall]

theorem createDirAll_again (m : Meta) (p : Path) (t : Fs) :
    createDirAll m p (createDirAll m p t).2 = createDirAll m p t := by
  rcases createDirAll_cases m p t with hdirs | herr
  · rw [createDirAll_of_dirs m hdirs]
    by_cases hall : p.inits.all (fun a => (t.node a).isNone || t.isDir a) = true
    · rw [createDirAll, if_pos hall]
    · rw [createDirAll, if_neg hall] at hdirs ⊢
      exact absurd (List.all_eq_true.mpr fun a ha => by
        simp [hdirs a ((List.mem_inits a p).mp ha)]) hall
  · rw [herr, herr]

/-- Only the nodes on the way to a directory count. -/
theorem createDirAll_keep (hkeep : (createDirAll m p t).2 = t)
    (hnode : ∀ q, q <+: p → t'.node q = t.node q) :
    createDirAll m p t' = ((createDirAll m p t).1, t') := by
  have hall : p.inits.all (fun a => (t'.node a).isNone || t'.isDir a) =
      p.inits.all (fun a => (t.node a).isNone || t.isDir a) := by
    rw [Bool.eq_iff_iff, List.all_eq_true, List.all_eq_true]
    refine forall_congr' fun a => imp_congr_right fun ha => ?_
    rw [isDir, isDir, hnode a ((List.mem_inits a p).mp ha)]
  by_cases hok : p.inits.all (fun a => (t.node a).isNone || t.isDir a) = true
  · have hthere : ∀ q, q <+: p → t.node q ≠ none := by
      intro q hq hnone
      rw [createDirAll, if_pos hok] at hkeep
      have hq' := congrArg (fun f : Fs => f.node q) hkeep
      simp [hq, hnone] at hq'
    rw [createDirAll, createDirAll, hall, if_pos hok, if_pos hok]
    refine Prod.ext rfl (ext' (fun q => ?_) fun _ => rfl)
    have hno : ¬ (q <+: p ∧ t'.node q = none) := by
      rintro ⟨hq, hnone⟩
      exact hthere q hq (hnode q hq ▸ hnone)
    simp only [hno, if_false]
  · rw [createDirAll, createDirAll, hall, if_neg hok, if_neg hok]

/-- A change of contents that a second one covers. -/
theorem alterContent_absorb {f g : File → File} (h : ∀ c, g (f c) = g c) (p : Path) (t : Fs) :
    alterContent g p (alterContent f p t).2 = alterContent g p t := by
  unfold alterContent
  cases hn : t.node p with
  | none => simp only [hn]
  | some n =>
    cases n with
    | dir _ => simp only [hn]
    | symlink _ _ => simp only [hn]
    | file i =>
      simp only
      cases hk : (t.data i).kind with
      | special _ _ => simp only [hn, hk]
      | regular c =>
        simp only [setData_node, hn, setData_data, if_true, h]
        refine Prod.ext rfl (ext' (fun _ => rfl) fun j => ?_)
        simp only [setData_data]
        split_ifs <;> rfl

theorem removeFile_again (p : Path) (t : Fs) :
    (removeFile p (removeFile p t).2).2 = (removeFile p t).2 := by
  unfold removeFile
  cases hn : t.node p with
  | none => simp only [hn]
  | some n =>
    cases n with
    | dir _ => simp only [hn]
    | file i => simp
    | symlink _ _ => simp

theorem removeFile_node_of_ne {q : Path} (hq : q ≠ p) : (removeFile p t).2.node q = t.node q := by
  unfold removeFile
  cases t.node p with
  | none => rfl
  | some n =>
    cases n with
    | dir _ => rfl
    | file i => simp [hq]
    | symlink _ _ => simp [hq]

theorem removeFile_file {q : Path} {i : FileId} (h : (removeFile p t).2.node q = some (.file i)) :
    t.node q = some (.file i) := by
  by_cases hq : q = p
  · subst hq
    unfold removeFile at h
    cases hn : t.node q with
    | none => simp [hn] at h
    | some n =>
      cases n with
      | dir _ => simp [hn] at h
      | file j => simp [hn] at h
      | symlink _ _ => simp [hn] at h
  · rwa [removeFile_node_of_ne hq] at h

end Fs

/-! ## Arms that are repeated -/

/-- After the failed action `m'` the action `m` does what it would have done
without it; the maps are left alone, and no file comes from it. -/
structure Redone {α : Type} (m' m : StateM World α) (v : World) : Prop where
  absorbed : m (m' v).2 = m v
  inodeMap : (m' v).2.inodeMap = v.inodeMap
  dirMap : (m' v).2.dirMap = v.dirMap
  files : ∀ q i, (m' v).2.target.node q = some (.file i) → v.target.node q = some (.file i)

section Arms
variable {e : Event} {p : Path} {v : World} (env : Env) (n : ℕ)

theorem Redone.of_same {α : Type} {m' m : StateM World α} (h : (m' v).2 = v) : Redone m' m v := by
  refine ⟨?_, ?_, ?_, fun q i hq => ?_⟩
  · rw [h]
  · rw [h]
  · rw [h]
  · rwa [h] at hq

theorem Redone.map {α β : Type} {m' m : StateM World α} (f : α → β) (h : Redone m' m v) :
    Redone (f <$> m') (f <$> m) v where
  absorbed := by
    rw [StateM.run_map, StateM.run_map, StateM.run_map, h.absorbed]
  inodeMap := h.inodeMap
  dirMap := h.dirMap
  files := h.files

theorem createParent_again (q : Path) (v : World) :
    createParent env q (createParent env q v).2 = createParent env q v := by
  unfold createParent
  cases Path.parent? q with
  | none => rfl
  | some a =>
    simp only [StateM.run_bind, onTarget, StateM.run_pure]
    rw [Fs.createDirAll_again]

theorem createParent_maps (q : Path) (v : World) :
    (createParent env q v).2.inodeMap = v.inodeMap ∧ (createParent env q v).2.dirMap = v.dirMap := by
  unfold createParent
  cases Path.parent? q with
  | none => exact ⟨rfl, rfl⟩
  | some a => exact ⟨rfl, rfl⟩

/-- The directories on the way to `q` are left alone by a change at `q` itself. -/
theorem createParent_keep {q : Path} {t' : Fs} (hkeep : (createParent env q v).2 = v)
    (hnode : ∀ a, a ≠ q → t'.node a = v.target.node a) :
    createParent env q { v with target := t' } = ((), { v with target := t' }) := by
  unfold createParent Path.parent? at hkeep ⊢
  by_cases hq : q = []
  · rw [if_pos hq]
    rfl
  · rw [if_neg hq] at hkeep ⊢
    simp only [StateM.run_bind, onTarget, StateM.run_pure] at hkeep ⊢
    have htarget : (Fs.createDirAll env.freshDir q.dropLast v.target).2 = v.target :=
      congrArg World.target hkeep
    rw [Fs.createDirAll_keep htarget]
    intro a ha
    refine hnode a fun heq => ?_
    have hlen := ha.length_le
    have hpos : 0 < q.length := List.length_pos_iff.mpr hq
    rw [heq, List.length_dropLast] at hlen
    omega

/-- The copy itself, and what is reported of it. -/
theorem copyRange_run (fault : Option ℕ) (hsrc : env.source.pathExists p = true) (u : World) :
    Arm.copyRange env fault e p u =
      let r := onTarget (Fs.copyRange ((env.source.regularAt p).getD .empty) e.offset.val
        (match fault with | none => e.length.val | some n => min n e.length.val) p) u
      (match r.1 with
        | .ok () => if fault = none ∧ (env.source.regularAt p).isSome then .done else .failed .other
        | .error f => .failed f, r.2) := by
  unfold Arm.copyRange
  rw [if_pos hsrc]
  simp only [StateM.run_bind]
  rcases (onTarget (Fs.copyRange _ _ _ p) u).1 with f | ⟨⟩
  · rfl
  · simp only
    by_cases hok : fault = none ∧ (env.source.regularAt p).isSome = true
    · simp only [hok, and_self, if_true]
      rfl
    · simp only [if_neg hok]
      rfl

theorem redone_copyRange :
    Redone (Arm.copyRange env (some n) e p) (Arm.copyRange env none e p) v := by
  by_cases hsrc : env.source.pathExists p = true
  · have hcover : ∀ (src : File) (t : Fs), Fs.copyRange src e.offset.val e.length.val p
        (Fs.copyRange src e.offset.val (min n e.length.val) p t).2 =
        Fs.copyRange src e.offset.val e.length.val p t := by
      intro src t
      refine Fs.alterContent_absorb (fun c => File.copyRange_absorb _ _ ?_ c) p t
      omega
    refine ⟨?_, ?_, ?_, fun q i hq => ?_⟩
    · simp only [copyRange_run env _ hsrc, onTarget, hcover]
    · simp only [copyRange_run env _ hsrc, onTarget]
    · simp only [copyRange_run env _ hsrc, onTarget]
    · simp only [copyRange_run env _ hsrc, onTarget] at hq
      rwa [Fs.copyRange, Fs.alterContent_node] at hq
  · refine .of_same ?_
    unfold Arm.copyRange
    rw [if_neg hsrc]
    rfl

theorem createParent_of_dirs {q : Path} (h : ∀ a, a <+: q → v.target.isDir a = true) :
    createParent env q v = ((), v) := by
  unfold createParent Path.parent?
  by_cases hq : q = []
  · rw [if_pos hq]
    rfl
  · rw [if_neg hq]
    simp only [StateM.run_bind, onTarget, StateM.run_pure]
    rw [Fs.createDirAll_of_dirs _ fun a ha => h a (ha.trans (List.dropLast_prefix q))]

/-- Making a directory with its ancestors again. -/
theorem makeDirs_again (v : World) :
    (onTarget (Fs.createDirAll env.freshDir p) (createParent env p
      (onTarget (Fs.createDirAll env.freshDir p) (createParent env p v).2).2).2).2 =
      (onTarget (Fs.createDirAll env.freshDir p) (createParent env p v).2).2 := by
  set v₁ := (createParent env p v).2 with hv₁
  rcases Fs.createDirAll_cases env.freshDir p v₁.target with hdirs | herr
  · rw [createParent_of_dirs env hdirs]
    simp only [onTarget, Fs.createDirAll_again]
  · have hsame : (onTarget (Fs.createDirAll env.freshDir p) v₁).2 = v₁ := by
      simp only [onTarget, herr]
    have hparent : (createParent env p v₁).2 = v₁ := by
      rw [hv₁, createParent_again]
    rw [hsame, hparent, hsame]

theorem redone_mkdir : Redone (Arm.mkdir env (some n) e p) (Arm.mkdir env none e p) v := by
  have hfail : (Arm.mkdir env (some n) e p v).2 =
      (onTarget (Fs.createDirAll env.freshDir p) (createParent env p v).2).2 := rfl
  have hrun : ∀ u, Arm.mkdir env none e p u = Arm.makeEntry env e p (.ok ()) (.ok ())
      (onTarget (Fs.createDirAll env.freshDir p) (createParent env p u).2).2 := fun _ => rfl
  refine ⟨?_, ?_, ?_, fun q i hq => ?_⟩
  · rw [hfail, hrun, hrun, makeDirs_again]
  · rw [hfail]
    exact (createParent_maps env p v).1
  · rw [hfail]
    exact (createParent_maps env p v).2
  · rw [hfail] at hq
    exact createParent_file env (Fs.createDirAll_file env.freshDir hq)

theorem redone_mknod : Redone (Arm.mknod env (some n) e p) (Arm.mknod env none e p) v := by
  have hfail : (Arm.mknod env (some n) e p v).2 = (createParent env p v).2 := rfl
  refine ⟨?_, ?_, ?_, fun q i hq => ?_⟩
  · rw [hfail]
    simp only [Arm.mknod, StateM.run_bind, createParent_again]
  · rw [hfail]
    exact (createParent_maps env p v).1
  · rw [hfail]
    exact (createParent_maps env p v).2
  · rw [hfail] at hq
    exact createParent_file env hq

/-- A link that was to be replaced is gone already. -/
theorem redone_symlink : Redone (Arm.symlink env (some n) e p) (Arm.symlink env none e p) v := by
  cases hsrc : env.source.node p with
  | none =>
    refine .of_same ?_
    simp only [Arm.symlink, hsrc]
    rfl
  | some node =>
    cases node with
    | file i | dir m =>
      refine .of_same ?_
      simp only [Arm.symlink, hsrc]
      rfl
    | symlink dest m =>
      set v₁ := (createParent env p v).2 with hv₁
      have hfail : (Arm.symlink env (some n) e p v).2 = (onTarget (Fs.removeFile p) v₁).2 := by
        simp only [Arm.symlink, hsrc]
        rfl
      have hparent : (createParent env p v₁).2 = v₁ := by
        rw [hv₁, createParent_again]
      have hkeep : (createParent env p (onTarget (Fs.removeFile p) v₁).2).2 =
          (onTarget (Fs.removeFile p) v₁).2 :=
        congrArg Prod.snd (createParent_keep env hparent fun a ha => Fs.removeFile_node_of_ne ha)
      have hagain : (onTarget (Fs.removeFile p) (onTarget (Fs.removeFile p) v₁).2).2 =
          (onTarget (Fs.removeFile p) v₁).2 := by
        simp only [onTarget, Fs.removeFile_again]
      refine ⟨?_, ?_, ?_, fun q i hq => ?_⟩
      · rw [hfail]
        simp only [Arm.symlink, hsrc, StateM.run_bind, hkeep, hagain]
        rfl
      · rw [hfail]
        exact (createParent_maps env p v).1
      · rw [hfail]
        exact (createParent_maps env p v).2
      · rw [hfail] at hq
        exact createParent_file env (Fs.removeFile_file hq)

theorem redone_link : Redone (Arm.link (some n) e p) (Arm.link none e p) v := by
  refine .of_same ?_
  unfold Arm.link
  rw [StateM.run_bind, StateM.run_peek]
  cases hentry : v.inodeMap e.inode with
  | none => rfl
  | some entry =>
    simp only
    cases entry.primaryPath with
    | none => rfl
    | some existing => rfl

/-- The arms of all events but creations and renames. -/
theorem redone_perform (hc : e.eventType ≠ .create) (hr : e.eventType ≠ .rename)
    (hi : e.eventType ≠ .renameIncomplete) :
    Redone (perform env (some n) e p) (perform env none e p) v := by
  unfold perform
  cases ht : e.eventType with
  | create => exact absurd ht hc
  | rename => exact absurd ht hr
  | renameIncomplete => exact absurd ht hi
  | write | writeRange | clone => exact (redone_copyRange env n).map _
  | mkdir => exact (redone_mkdir env n).map _
  | mknod => exact (redone_mknod env n).map _
  | symlink => exact (redone_symlink env n).map _
  | link => exact redone_link n
  | unlink => exact .of_same rfl
  | rmdir => exact .of_same rfl
  | truncate => exact .of_same rfl
  | fallocate => exact .of_same rfl
  | chmod => exact .of_same rfl
  | chown => exact .of_same rfl
  | utimes => exact .of_same rfl
  | setFlags => exact .of_same rfl
  | lock => exact .of_same rfl
  | flock => exact .of_same rfl
  | setXattr => exact .of_same rfl
  | removeXattr => exact .of_same rfl
  | fsync => exact .of_same rfl
  | barrier => exact .of_same rfl
  | sequenceGap => exact .of_same rfl
  | unknown => exact .of_same rfl

/-! ### Renames -/

/-- The cells of the target tree. -/
def targetCells : Set Cell := {c | (∃ q, c = .node q) ∨ ∃ i, c = .data i}

/-- An action on the target alone does the same whatever the maps are. -/
theorem target_only {α : Type} {m : StateM World α} (h : Local targetCells targetCells m v)
    {u : World} (hu : u.target = v.target) :
    m u = ((m v).1, { u with target := (m v).2.target }) := by
  have hagree : cells.Agree targetCells v u := by
    rintro c (⟨q, rfl⟩ | ⟨i, rfl⟩)
    · exact congrArg (fun t => t.node q) hu.symm
    · exact congrArg (fun t => t.data i) hu.symm
  obtain ⟨hres, hin, hout⟩ := h u hagree
  refine Prod.ext hres (cells.ext fun c => ?_)
  cases c with
  | node q => exact (hin (.node q) (.inl ⟨q, rfl⟩)).symm
  | data i => exact (hin (.data i) (.inr ⟨i, rfl⟩)).symm
  | inode i => exact (hout (.inode i) (by rintro (⟨_, hc⟩ | ⟨_, hc⟩) <;> cases hc)).symm
  | dir i => exact (hout (.dir i) (by rintro (⟨_, hc⟩ | ⟨_, hc⟩) <;> cases hc)).symm

theorem renameRoom_targetCells (e : Event) (old dest : Path) (t : Fs) :
    RenameRoom e old dest targetCells targetCells t where
  near q _ := .inl ⟨q, rfl⟩
  below q _ := .inl ⟨q, rfl⟩
  destBelow q _ := .inl ⟨q, rfl⟩
  path := ⟨subset_rfl, fun q _ => .inl ⟨q, rfl⟩, .inl ⟨_, rfl⟩, .inr ⟨_, rfl⟩,
    fun i _ => .inr ⟨i, rfl⟩⟩
  ancestors q _ _ := .inl ⟨q, rfl⟩

/-- What a rename remembers of an entry. -/
def renamedEntry (e : Event) (dest : Path) (entry : Option IdentityEntry) : IdentityEntry :=
  match entry with
  | some entry => ({ entry.addPath dest with
      generation := e.generation, timestampNs := e.timestampNs, seqNum := e.seqNum }).recordAccess
        e.seqNum
  | none => .new dest e.generation e.timestampNs e.seqNum

theorem mem_renamedEntry (e : Event) (dest : Path) (entry : Option IdentityEntry) :
    dest ∈ (renamedEntry e dest entry).paths := by
  cases entry with
  | none => simp [renamedEntry, IdentityEntry.new]
  | some entry =>
    show dest ∈ (entry.addPath dest).paths
    unfold IdentityEntry.addPath
    dsimp only
    split_ifs with h
    · exact h
    · simp

theorem renamedEntry_again (e : Event) (dest : Path) (entry : Option IdentityEntry) :
    renamedEntry e dest (some (renamedEntry e dest entry)) = renamedEntry e dest entry := by
  have hmem := mem_renamedEntry e dest entry
  have hadd : (renamedEntry e dest entry).addPath dest = renamedEntry e dest entry := by
    unfold IdentityEntry.addPath
    rw [if_pos hmem]
    cases entry with
    | none => rfl
    | some entry => rfl
  show IdentityEntry.recordAccess e.seqNum { (renamedEntry e dest entry).addPath dest with
    generation := e.generation, timestampNs := e.timestampNs, seqNum := e.seqNum } = _
  rw [hadd]
  cases entry with
  | none => exact IdentityEntry.recordAccess_of_le (Fin.le_refl _)
  | some entry =>
    refine IdentityEntry.recordAccess_of_le ?_
    exact IdentityEntry.le_recordAccess

/-- The maps after a rename; the target is left alone. -/
theorem rememberRename_run (hn : e.newName.isSome = true) (h0 : e.inode ≠ 0) (dest : Path)
    (w : World) :
    Arm.rememberRename e dest w = ((), { w with
      inodeMap := Function.update w.inodeMap e.inode
        (some (renamedEntry e dest (w.inodeMap e.inode)))
      dirMap := if e.mode.val / 16384 % 2 = 1 then
        Function.update w.dirMap e.inode (some dest) else w.dirMap }) := by
  unfold Arm.rememberRename
  rw [if_pos hn, StateM.run_modify]
  unfold World.updateMapAfterRename
  rw [if_neg h0]
  by_cases hd : e.mode.val / 16384 % 2 = 1
  · cases w.inodeMap e.inode with
    | none | some entry => simp [hd, renamedEntry, World.insertEntry, World.insertDir]
  · cases w.inodeMap e.inode with
    | none | some entry => simp [hd, renamedEntry, World.insertEntry]

/-- Remembering a rename a second time changes nothing. -/
theorem rememberRename_again {dest : Path} {u : World}
    (hi : u.inodeMap = (Arm.rememberRename e dest v).2.inodeMap)
    (hd : u.dirMap = (Arm.rememberRename e dest v).2.dirMap) :
    Arm.rememberRename e dest u = ((), u) := by
  by_cases hn : e.newName.isSome = true
  · by_cases h0 : e.inode = 0
    · simp [Arm.rememberRename, hn, World.updateMapAfterRename, h0, StateM.run_modify]
    · rw [rememberRename_run hn h0] at hi hd ⊢
      dsimp only at hi hd
      refine Prod.ext rfl ?_
      have hentry : u.inodeMap e.inode = some (renamedEntry e dest (v.inodeMap e.inode)) := by
        rw [hi, Function.update_self]
      obtain ⟨t, im, dm⟩ := u
      dsimp only at hi hd hentry ⊢
      congr 1
      · rw [hentry, renamedEntry_again, ← hentry, Function.update_eq_self]
      · split_ifs with hdir
        · rw [hd, if_pos hdir, Function.update_idem]
        · rfl
  · simp [Arm.rememberRename, hn, StateM.run_pure]

/-- The paths of a rename are settled before anything is done. -/
theorem rename_settled (fault : Option ℕ) (h : Settled e v) :
    Arm.rename env fault e p v =
      let old := settledPath e.parentInode e.name v
      let dest := settledDest e p v
      let v₁ := (createParent env dest v).2
      if v₁.target.pathExists old = true then
        (some (Arm.renamePresent env fault e old dest v₁).1,
          (Arm.renamePresent env fault e old dest v₁).2)
      else (some (Arm.renameAbsent env e dest v₁).1, (Arm.renameAbsent env e dest v₁).2) := by
  unfold Arm.rename
  rw [StateM.run_bind, resolveEventPath_settled e.name (h _ (.inl rfl))]
  simp only
  rw [StateM.run_bind, renameDest_settled p h]
  simp only
  rw [StateM.run_bind, StateM.run_ite_peek]
  split_ifs <;> rfl

theorem createParent_exists {q a : Path} (h : v.target.pathExists a = true) :
    (createParent env q v).2.target.pathExists a = true := by
  unfold createParent
  cases Path.parent? q with
  | none => exact h
  | some b =>
    simp only [StateM.run_bind, onTarget, StateM.run_pure]
    have hnode : v.target.node a ≠ none := by
      intro hnone
      simp [Fs.pathExists, hnone] at h
    have hsame : (Fs.createDirAll env.freshDir b v.target).2.node a = v.target.node a := by
      unfold Fs.createDirAll
      split_ifs
      · simp only [hnode, and_false, if_false]
      · rfl
    rwa [Fs.pathExists, hsame]

/-- The call of a rename fails: only the directories on the way to the
destination are made, and the rename is remembered. -/
theorem renamePresent_fail {old dest : Path} {v₁ : World}
    (hparent : createParent env dest v₁ = ((), v₁)) :
    Arm.renamePresent env (some n) e old dest v₁ =
      (⟨.error .other, [], true⟩, (Arm.rememberRename e dest v₁).2) := by
  have hcall : Arm.renameCall env (some n) e old dest v₁ = (.error .other, v₁) := by
    unfold Arm.renameCall
    rw [StateM.run_bind, hparent]
    rfl
  unfold Arm.renamePresent
  rw [StateM.run_bind, hcall, StateM.run_bind]
  have hghost : Arm.removeGhost env old (.error .other) v₁ = ((), v₁) := by
    unfold Arm.removeGhost
    rw [if_neg (by rintro ⟨hr, -⟩; cases hr)]
    rfl
  rw [hghost]
  rfl

/-- The rename goes through in the state that a failed attempt has left. -/
theorem renamePresent_redo {old dest : Path} {v₁ u : World} (hu : u.target = v₁.target)
    (hi : u.inodeMap = (Arm.rememberRename e dest v₁).2.inodeMap)
    (hd : u.dirMap = (Arm.rememberRename e dest v₁).2.dirMap) :
    Arm.renamePresent env none e old dest u = Arm.renamePresent env none e old dest v₁ := by
  have hcall := target_only (local_renameCall env none (renameRoom_targetCells e old dest _)) hu
  set x := (Arm.renameCall env none e old dest v₁).2 with hx
  set r := (Arm.renameCall env none e old dest v₁).1 with hr
  have hghost := target_only (u := { u with target := x.target })
    (local_removeGhost env (w := x) r (renameRoom_targetCells e old dest v₁.target).near
      (renameRoom_targetCells e old dest v₁.target).below) rfl
  set y := (Arm.removeGhost env old r x).2 with hy
  have hmaps : y.inodeMap = v₁.inodeMap ∧ y.dirMap = v₁.dirMap := by
    have h₁ := target_only (local_renameCall env none (renameRoom_targetCells e old dest _))
      (rfl : v₁.target = v₁.target)
    have h₂ := target_only (u := x) (local_removeGhost env (w := x) r
      (renameRoom_targetCells e old dest v₁.target).near
      (renameRoom_targetCells e old dest v₁.target).below) rfl
    have hxm : x = { v₁ with target := x.target } := congrArg Prod.snd h₁
    have hym : y = { x with target := y.target } := congrArg Prod.snd h₂
    rw [hym, hxm]
    exact ⟨rfl, rfl⟩
  have hleft : Arm.renamePresent env none e old dest u =
      (⟨r, [], true⟩, (Arm.rememberRename e dest { u with target := y.target }).2) := by
    unfold Arm.renamePresent
    rw [StateM.run_bind, hcall, StateM.run_bind]
    simp only
    rw [hghost, StateM.run_bind]
    rfl
  have hright : Arm.renamePresent env none e old dest v₁ =
      (⟨r, [], true⟩, (Arm.rememberRename e dest y).2) := rfl
  rw [hleft, hright, rememberRename_again (v := v₁) (u := { u with target := y.target }) hi hd]
  refine Prod.ext rfl ?_
  by_cases hn : e.newName.isSome = true
  · by_cases h0 : e.inode = 0
    · simp [Arm.rememberRename, hn, World.updateMapAfterRename, h0, StateM.run_modify] at hi hd ⊢
      obtain ⟨t, im, dm⟩ := y
      simp_all
    · rw [rememberRename_run hn h0] at hi hd ⊢
      simp only [hmaps.1, hmaps.2]
      dsimp only at hi hd
      rw [hi, hd]
  · simp [Arm.rememberRename, hn, StateM.run_pure] at hi hd ⊢
    obtain ⟨t, im, dm⟩ := y
    simp_all

end Arms

/-! ## Resolving after a failed rename -/

section Again
variable {e : Event} {p : Path} {w u v : World}

/-- Without a path of its own an event leaves the first path of the entry as it is. -/
theorem resolvedEntry_primaryPath {entry : IdentityEntry}
    (hgen : ¬ (entry.generation ≠ U32.max ∧ entry.generation ≠ e.generation))
    (hs : specificRelPath e w = none) :
    (resolvedEntry e entry w).primaryPath = entry.primaryPath := by
  simp only [IdentityEntry.primaryPath, resolvedEntry, if_neg hgen, hs,
    IdentityEntry.recordAccess_paths]

/-- The entry that a rename leaves behind is not changed by resolving the event again. -/
theorem resolvedEntry_renamedEntry {entry : IdentityEntry} (dest : Path)
    (hgen : ¬ (entry.generation ≠ U32.max ∧ entry.generation ≠ e.generation))
    (hspec : specificRelPath e u = specificRelPath e w) :
    resolvedEntry e (renamedEntry e dest (some (resolvedEntry e entry w))) u =
      renamedEntry e dest (some (resolvedEntry e entry w)) := by
  set y := renamedEntry e dest (some (resolvedEntry e entry w)) with hy
  have hmis : ¬ (y.generation ≠ U32.max ∧ y.generation ≠ e.generation) := fun hne => hne.2 rfl
  have hylast : e.seqNum ≤ y.lastAccessedSeq := IdentityEntry.le_recordAccess
  rw [resolvedEntry, if_neg hmis, hspec, IdentityEntry.recordAccess_of_le hylast]
  cases hs : specificRelPath e w with
  | none => rfl
  | some q =>
    refine IdentityEntry.learnPath_of_mem (IdentityEntry.mem_addPath_of_mem ?_)
    simp only [resolvedEntry, if_neg hgen, hs]
    exact IdentityEntry.mem_learnPath

/-- A rename that has been remembered does not lead its event to another path. -/
theorem resolution_after_rename {dest : Path} (h : Settled e w)
    (hown : e.inode ≠ e.parentInode) (hk : KnownEntry e w)
    (hp : (resolution e w).1.bind ResolveResult.path? = some p)
    (hi : u.inodeMap = (Arm.rememberRename e dest (resolution e w).2).2.inodeMap)
    (hd : u.dirMap = (Arm.rememberRename e dest (resolution e w).2).2.dirMap) :
    resolution e u = ((resolution e w).1, u) := by
  have hkeep : (Arm.rememberRename e dest (resolution e w).2).2 = (resolution e w).2 →
      resolution e u = ((resolution e w).1, u) := by
    intro hsame
    rw [hsame] at hi hd
    exact resolution_again_of_maps h hown hi hd
  by_cases hn : e.newName.isSome = true
  · by_cases h0 : e.inode = 0
    · refine hkeep ?_
      simp [Arm.rememberRename, hn, World.updateMapAfterRename, h0, StateM.run_modify]
    · obtain ⟨entry, hentry, hgen⟩ := hk.refreshed
      have hrun : ∀ x, resolution e x = resolveTarget e (refreshGeneration e x).2 := fun _ => rfl
      set w₁ := (refreshGeneration e w).2 with hw₁
      rw [rememberRename_run hn h0] at hi hd
      rw [hrun w, ← hw₁, resolveTarget_known hentry] at hp hi hd ⊢
      rw [resolveKnown_state] at hi hd
      dsimp only at hi hd
      rw [World.insertEntry_inodeMap_self] at hi
      set known := resolvedEntry e entry w₁ with hknown
      set y := renamedEntry e dest (some known) with hy
      have hyentry : u.inodeMap e.inode = some y := by
        rw [hi, Function.update_self]
      have hygen : y.generation = e.generation := rfl
      have hspec : specificRelPath e u = specificRelPath e w₁ := by
        have hdir : u.dirMap e.parentInode = w₁.dirMap e.parentInode := by
          rw [hd]
          split_ifs
          · exact Function.update_of_ne (Ne.symm hown) _ _
          · rfl
        rw [specificRelPath, specificRelPath, hdir]
      have hcur : Current e u := by
        intro x hx
        rw [hyentry] at hx
        cases hx
        exact fun hne => hne.2.2 hygen
      have hmis : ¬ (y.generation ≠ U32.max ∧ y.generation ≠ e.generation) := fun hne =>
        hne.2 hygen
      rw [hrun u, refreshGeneration_current hcur, resolveTarget_known hyentry]
      refine Prod.ext ?_ ?_
      · rw [resolveKnown_result, resolveKnown_result, if_neg hmis, if_neg hgen, hspec]
        cases hs : specificRelPath e w₁ with
        | some q => rfl
        | none =>
          rw [resolveKnown_result, if_neg hgen, hs] at hp
          have hpaths : known.primaryPath = entry.primaryPath :=
            resolvedEntry_primaryPath hgen hs
          have hhead : y.primaryPath = entry.primaryPath := by
            rw [← hpaths]
            refine IdentityEntry.primaryPath_addPath fun hnone => ?_
            rw [← hpaths, hnone] at hp
            cases hp
          simp only [hhead]
      · rw [resolveKnown_state]
        rw [resolvedEntry_renamedEntry dest hgen hspec, World.insertEntry_self hyentry]
  · refine hkeep ?_
    simp [Arm.rememberRename, hn, StateM.run_pure]

end Again

end Foxing
