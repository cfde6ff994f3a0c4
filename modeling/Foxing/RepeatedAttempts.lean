import Foxing.Absorption
import Foxing.Lib.Retry

/-!
# Attempts that are repeated

An attempt that is made to fail either takes no notice, or reports the failure;
what it leaves behind is then absorbed by the next attempt at the same event.
With their footprints the events become tasks that may be repeated later.
-/
namespace Foxing

open World (cells)

/-- The attempt has an outcome, and it is reported as a success. -/
def Succeeds (o : Option Outcome) : Prop := ∃ x, o = some x ∧ x.result = .ok ()

/-- The attempt has an outcome, and it is reported as a failure of no special kind. -/
def Fails (o : Option Outcome) : Prop := ∃ x, o = some x ∧ x.result = .error .other

instance (o : Option Outcome) : Decidable (Succeeds o) :=
  match o with
  | none => isFalse (by rintro ⟨x, hx, -⟩; cases hx)
  | some x => decidable_of_iff (x.result = .ok ())
      ⟨fun h => ⟨x, rfl, h⟩, by rintro ⟨y, hy, h⟩; cases hy; exact h⟩

theorem not_succeeds_failed (f : Failure) : ¬ Succeeds (some (.failed f)) := by
  rintro ⟨x, hx, hok⟩
  cases hx
  cases hok

/-! ## What a failure is reported as -/

/-- An action that was to fail takes no notice, reports the failure, or would not
have succeeded anyway. -/
def Noticed (m' m : StateM World (Option Outcome)) (v : World) : Prop :=
  m' v = m v ∨ Fails (m' v).1 ∨ ¬ Succeeds (m v).1

section Reports
variable {e : Event} {p : Path} {v : World} (env : Env) (n : ℕ)

theorem noticed_copyRange :
    Noticed (some <$> Arm.copyRange env (some n) e p) (some <$> Arm.copyRange env none e p) v := by
  by_cases hsrc : env.source.pathExists p = true
  · simp only [Noticed, StateM.run_map, copyRange_run env _ hsrc, onTarget, Fs.copyRange]
    unfold Fs.alterContent
    cases v.target.node p with
    | none => exact .inr (.inr (not_succeeds_failed _))
    | some node =>
      cases node with
      | dir _ | symlink _ _ => exact .inr (.inr (not_succeeds_failed _))
      | file i =>
        simp only
        cases (v.target.data i).kind with
        | special _ _ => exact .inr (.inr (not_succeeds_failed _))
        | regular c => exact .inr (.inl ⟨_, rfl, rfl⟩)
  · refine .inl ?_
    simp only [StateM.run_map, Arm.copyRange, if_neg hsrc]

theorem Noticed.of_fails {m' m : StateM World (Option Outcome)} (h : Fails (m' v).1) :
    Noticed m' m v := .inr (.inl h)

/-- The destination is made in the end only when the copy has not failed. -/
theorem fails_makeEntry (v : World) :
    Fails (some (Arm.makeEntry env e p (.ok ()) (.error .other) v).1) := by
  unfold Arm.makeEntry
  simp only [StateM.run_bind]
  rcases (onTarget (Fs.setOwnership e.uid e.gid p) v).1 with f | ⟨⟩
  · exact ⟨_, rfl, rfl⟩
  · exact ⟨_, rfl, rfl⟩

theorem noticed_create :
    Noticed (some <$> Arm.create env (some n) e p) (some <$> Arm.create env none e p) v := by
  by_cases hpend : env.pendingRenames e.inode > 0
  · refine .inl ?_
    simp only [StateM.run_map, Arm.create, if_pos hpend]
  · by_cases hsrc : env.source.pathExists p = true
    · refine .of_fails ?_
      simp only [StateM.run_map, Arm.create, if_neg hpend, if_pos hsrc, StateM.run_bind]
      have hcopy : ∀ u, (onTarget (Arm.copyFailing env e p n) u).1 = .error .other := by
        intro u
        unfold onTarget Arm.copyFailing
        cases env.source.regularAt p with
        | none => rfl
        | some src => rfl
      rw [hcopy]
      exact fails_makeEntry env _
    · refine .inl ?_
      simp only [StateM.run_map, Arm.create, if_neg hpend, if_neg hsrc]

theorem noticed_link : Noticed (Arm.link (some n) e p) (Arm.link none e p) v := by
  unfold Noticed Arm.link
  simp only [StateM.run_bind, StateM.run_peek]
  cases v.inodeMap e.inode with
  | none => exact .inl rfl
  | some entry =>
    simp only
    cases entry.primaryPath with
    | none => exact .inl rfl
    | some existing => exact .inr (.inl ⟨_, rfl, rfl⟩)

theorem noticed_symlink :
    Noticed (some <$> Arm.symlink env (some n) e p) (some <$> Arm.symlink env none e p) v := by
  cases hsrc : env.source.node p with
  | none =>
    refine .inl ?_
    simp only [StateM.run_map, Arm.symlink, hsrc]
  | some node =>
    cases node with
    | file i | dir m =>
      refine .inl ?_
      simp only [StateM.run_map, Arm.symlink, hsrc]
    | symlink dest m =>
      refine .of_fails ?_
      simp only [StateM.run_map, Arm.symlink, hsrc]
      exact ⟨_, rfl, rfl⟩

theorem noticed_rename : Noticed (Arm.rename env (some n) e p) (Arm.rename env none e p) v := by
  unfold Noticed Arm.rename
  simp only [StateM.run_bind]
  cases (resolveEventPath e.parentInode e.name v).1 with
  | none => exact .inl rfl
  | some old =>
    simp only [StateM.run_bind]
    cases (Arm.renameDest e p (resolveEventPath e.parentInode e.name v).2).1 with
    | none => exact .inl rfl
    | some dest =>
      simp only [StateM.run_bind]
      cases hex : (peek (fun w : World => w.target.pathExists old) (createParent env dest
          (Arm.renameDest e p (resolveEventPath e.parentInode e.name v).2).2).2).1 with
      | true => exact .inr (.inl ⟨_, rfl, rfl⟩)
      | false => exact .inl rfl

/-- Every arm takes no notice of a failure, reports it, or would not have succeeded. -/
theorem noticed_perform : Noticed (perform env (some n) e p) (perform env none e p) v := by
  unfold perform
  cases e.eventType with
  | create => exact noticed_create env n
  | rename => exact noticed_rename env n
  | write => exact noticed_copyRange env n
  | writeRange => exact noticed_copyRange env n
  | clone => exact noticed_copyRange env n
  | link => exact noticed_link n
  | symlink => exact noticed_symlink env n
  | mkdir => exact .of_fails ⟨_, rfl, rfl⟩
  | mknod => exact .of_fails ⟨_, rfl, rfl⟩
  | unlink => exact .of_fails ⟨_, rfl, rfl⟩
  | rmdir => exact .of_fails ⟨_, rfl, rfl⟩
  | truncate => exact .of_fails ⟨_, rfl, rfl⟩
  | fallocate => exact .of_fails ⟨_, rfl, rfl⟩
  | chmod => exact .of_fails ⟨_, rfl, rfl⟩
  | chown => exact .of_fails ⟨_, rfl, rfl⟩
  | utimes => exact .of_fails ⟨_, rfl, rfl⟩
  | setFlags => exact .of_fails ⟨_, rfl, rfl⟩
  | lock => exact .of_fails ⟨_, rfl, rfl⟩
  | flock => exact .of_fails ⟨_, rfl, rfl⟩
  | renameIncomplete => exact .inl rfl
  | setXattr => exact .inl rfl
  | removeXattr => exact .inl rfl
  | fsync => exact .inl rfl
  | barrier => exact .inl rfl
  | sequenceGap => exact .inl rfl
  | unknown => exact .inl rfl

theorem noticed_processAt : Noticed (processAt env (some n) e p) (processAt env none e p) v := by
  unfold processAt
  split_ifs with hex hgate
  · exact .inl rfl
  · by_cases hthere : v.target.pathExists p = true
    · simp only [Noticed, StateM.run_ite_peek, if_pos hthere]
      exact noticed_perform env n
    · refine .inl ?_
      simp only [StateM.run_ite_peek, if_neg hthere]
  · exact noticed_perform env n

/-- An attempt takes no notice of a failure, reports it, or would not have succeeded. -/
theorem noticed_attempt (env : Env) (n : ℕ) (e : Event) (w : World) :
    Noticed (processSingleEvent env (some n) e) (processSingleEvent env none e) w := by
  unfold Noticed processSingleEvent
  simp only [StateM.run_bind]
  cases (resolution e w).1 with
  | none => exact .inl rfl
  | some r =>
    cases r with
    | securityBlock => exact .inl rfl
    | success p _ _ => exact noticed_processAt env n
    | needsRepair p => exact noticed_processAt env n

end Reports

/-! ## What a failed attempt leaves behind -/

/-- The event may be attempted again. Creations are excluded, since a file that is
made empty after a failed copy keeps its owner; so are renames of an inode or of
an entry that is not known, which are not remembered as they would have been. -/
structure Retriable (e : Event) (w : World) : Prop where
  type_ne_create : e.eventType ≠ .create
  type_ne_incomplete : e.eventType ≠ .renameIncomplete
  own : e.inode ≠ e.parentInode
  own_new : e.inode ≠ e.newParentInode
  settled : Settled e w
  known : e.eventType = .rename → KnownEntry e w
  present : e.eventType = .rename → ∀ p, (resolution e w).1.bind ResolveResult.path? = some p →
    w.target.pathExists (settledPath e.parentInode e.name w) = true

/-- The state `u` is what a failed attempt at the event has left of `w`. -/
structure Left (env : Env) (e : Event) (w u : World) : Prop where
  resolved : resolution e u = ((resolution e w).1, u)
  dirMap : ∀ i, i ≠ e.inode → u.dirMap i = w.dirMap i
  inodeMap : ∀ i, i ≠ e.inode → u.inodeMap i = w.inodeMap i
  linked : e.eventType = .link → u.inodeMap = (resolution e w).2.inodeMap
  files : ∀ q i, u.target.node q = some (.file i) → w.target.node q = some (.file i)
  known : e.eventType = .rename → KnownEntry e u
  present : e.eventType = .rename → ∀ p, (resolution e w).1.bind ResolveResult.path? = some p →
    u.target.pathExists (settledPath e.parentInode e.name w) = true
  idle : (resolution e w).1.bind ResolveResult.path? = none → u = (resolution e w).2
  again : ∀ p, (resolution e w).1.bind ResolveResult.path? = some p →
    processAt env none e p u = processAt env none e p (resolution e w).2

section Leaving
variable {env : Env} {n : ℕ} {e : Event} {p : Path} {w u v : World}

theorem KnownEntry.resolution (h : KnownEntry e w) : KnownEntry e (resolution e w).2 := by
  obtain ⟨entry, hentry, hgen⟩ := h.refreshed
  have hrun : Foxing.resolution e w = resolveTarget e (refreshGeneration e w).2 := rfl
  rw [hrun, resolveTarget_known hentry, resolveKnown_state]
  refine ⟨_, World.insertEntry_inodeMap_self, ?_⟩
  rw [resolvedEntry_generation]
  by_cases hmax : e.generation = U32.max
  · refine .inr ?_
    by_contra hne
    exact hgen ⟨hne, fun heq => hne (heq.trans hmax)⟩
  · exact .inl hmax

/-- The directory of a path depends on the map alone. -/
theorem settledPath_congr {i : U64} (name : String) (h : u.dirMap i = w.dirMap i) :
    settledPath i name u = settledPath i name w := by
  unfold settledPath
  rw [h]

theorem settledDest_congr (h : u.dirMap e.newParentInode = w.dirMap e.newParentInode) :
    settledDest e p u = settledDest e p w := by
  unfold settledDest
  cases e.newName with
  | none => rfl
  | some newName => exact settledPath_congr newName h

/-- Nothing but the maps has changed, and these only by resolving. -/
theorem left_resolution (h : Retriable e w) : Left env e w (resolution e w).2 where
  resolved := resolution_again h.settled h.own
  dirMap i _ := congrFun (resolution_maps h.settled h.own).1 i
  inodeMap := (resolution_maps h.settled h.own).2
  linked _ := rfl
  files q i hq := by rwa [resolution_target] at hq
  known ht := (h.known ht).resolution
  present ht p hp := by
    rw [resolution_target]
    exact h.present ht p hp
  idle _ := rfl
  again _ _ := rfl

theorem settled_resolution (h : Retriable e w) : Settled e (resolution e w).2 := by
  obtain ⟨hdir, hinode⟩ := resolution_maps h.settled h.own
  exact h.settled.of_maps h.own h.own_new (fun i _ => congrFun hdir i) hinode

/-- An arm that a file under hydration is tested for leaves the nodes alone. -/
theorem perform_gated_node (ht : e.eventType.isGated = true) :
    (perform env (some n) e p v).2.target.node = v.target.node := by
  have hcopy : (Arm.copyRange env (some n) e p v).2.target.node = v.target.node := by
    by_cases hsrc : env.source.pathExists p = true
    · rw [copyRange_run env _ hsrc]
      exact Fs.alterContent_node _
    · simp only [Arm.copyRange, if_neg hsrc]
      rfl
  unfold perform
  cases htype : e.eventType with
  | write => exact hcopy
  | writeRange => exact hcopy
  | clone => exact hcopy
  | truncate => rfl
  | fallocate => rfl
  | _ =>
    rw [htype] at ht
    cases ht

/-- What is done with the path again is what was done before, if the arm does it again. -/
theorem processAt_again (hex : ¬ env.config.isPathExcluded p = true)
    (hthere : (env.hydrating e.inode && e.eventType.isGated) = true →
      u.target.pathExists p = true ∧ v.target.pathExists p = true)
    (h : perform env none e p u = perform env none e p v) :
    processAt env none e p u = processAt env none e p v := by
  unfold processAt
  simp only [if_neg hex]
  by_cases hgate : (env.hydrating e.inode && e.eventType.isGated) = true
  · obtain ⟨hu, hv⟩ := hthere hgate
    simp only [if_pos hgate, StateM.run_ite_peek, if_pos hu, if_pos hv]
    exact h
  · simp only [if_neg hgate]
    exact h

/-- The arms of all events but renames. -/
theorem left_perform (h : Retriable e w) (ht : e.eventType ≠ .rename)
    (hp : (resolution e w).1.bind ResolveResult.path? = some p)
    (hex : ¬ env.config.isPathExcluded p = true)
    (hthere : (env.hydrating e.inode && e.eventType.isGated) = true →
      (resolution e w).2.target.pathExists p = true) :
    Left env e w (perform env (some n) e p (resolution e w).2).2 := by
  have hredo : Redone (perform env (some n) e p) (perform env none e p) (resolution e w).2 :=
    redone_perform env n h.type_ne_create ht h.type_ne_incomplete
  have hbase := (left_resolution h : Left env e w _)
  refine ⟨resolution_again_of_maps h.settled h.own hredo.inodeMap hredo.dirMap,
    fun i hi => ?_, fun i hi => ?_, fun _ => hredo.inodeMap, fun q i hq => ?_,
    fun hr => absurd hr ht, fun hr => absurd hr ht, fun hn => ?_, fun q hq => ?_⟩
  · rw [hredo.dirMap]
    exact hbase.dirMap i hi
  · rw [hredo.inodeMap]
    exact hbase.inodeMap i hi
  · exact hbase.files q i (hredo.files q i hq)
  · rw [hp] at hn
    cases hn
  · obtain rfl : p = q := Option.some.inj (hp.symm.trans hq)
    refine processAt_again hex (fun hgate => ⟨?_, hthere hgate⟩) hredo.absorbed
    have hgated : e.eventType.isGated = true := (Bool.and_eq_true_iff.mp hgate).2
    rw [Fs.pathExists, perform_gated_node hgated]
    exact hthere hgate

/-! ### Renames -/

section Remembering
variable {dest : Path}

/-- A rename without a new name, or of no inode, is not remembered. -/
theorem rememberRename_skip (h : ¬ (e.newName.isSome = true ∧ e.inode ≠ 0)) (v : World) :
    Arm.rememberRename e dest v = ((), v) := by
  by_cases hn : e.newName.isSome = true
  · have h0 : e.inode = 0 := by
      by_contra hne
      exact h ⟨hn, hne⟩
    simp [Arm.rememberRename, hn, World.updateMapAfterRename, h0, StateM.run_modify]
  · simp [Arm.rememberRename, hn, StateM.run_pure]

theorem rememberRename_target (e : Event) (dest : Path) (v : World) :
    (Arm.rememberRename e dest v).2.target = v.target := by
  by_cases h : e.newName.isSome = true ∧ e.inode ≠ 0
  · rw [rememberRename_run h.1 h.2]
  · rw [rememberRename_skip h]

theorem rememberRename_inodeMap {i : U64} (hi : i ≠ e.inode) (v : World) :
    (Arm.rememberRename e dest v).2.inodeMap i = v.inodeMap i := by
  by_cases h : e.newName.isSome = true ∧ e.inode ≠ 0
  · rw [rememberRename_run h.1 h.2]
    exact Function.update_of_ne hi _ _
  · rw [rememberRename_skip h]

theorem rememberRename_dirMap {i : U64} (hi : i ≠ e.inode) (v : World) :
    (Arm.rememberRename e dest v).2.dirMap i = v.dirMap i := by
  by_cases h : e.newName.isSome = true ∧ e.inode ≠ 0
  · rw [rememberRename_run h.1 h.2]
    dsimp only
    split_ifs
    · exact Function.update_of_ne hi _ _
    · rfl
  · rw [rememberRename_skip h]

/-- What is remembered depends on the maps alone. -/
theorem rememberRename_maps (hi : u.inodeMap = v.inodeMap) (hd : u.dirMap = v.dirMap) :
    (Arm.rememberRename e dest u).2.inodeMap = (Arm.rememberRename e dest v).2.inodeMap ∧
      (Arm.rememberRename e dest u).2.dirMap = (Arm.rememberRename e dest v).2.dirMap := by
  by_cases h : e.newName.isSome = true ∧ e.inode ≠ 0
  · rw [rememberRename_run h.1 h.2, rememberRename_run h.1 h.2]
    simp only [hi, hd, and_self]
  · rw [rememberRename_skip h, rememberRename_skip h]
    exact ⟨hi, hd⟩

theorem KnownEntry.rememberRename (h : KnownEntry e v) :
    KnownEntry e (Arm.rememberRename e dest v).2 := by
  by_cases hn : e.newName.isSome = true ∧ e.inode ≠ 0
  · rw [rememberRename_run hn.1 hn.2]
    obtain ⟨entry, hentry, -⟩ := h
    refine ⟨renamedEntry e dest (some entry), ?_, ?_⟩
    · rw [hentry]
      exact Function.update_self ..
    · by_cases hmax : e.generation = U32.max
      · exact .inr hmax
      · exact .inl hmax
  · rwa [rememberRename_skip hn]

end Remembering

theorem KnownEntry.of_inodeMap (hi : u.inodeMap = v.inodeMap) (h : KnownEntry e v) :
    KnownEntry e u := by
  unfold KnownEntry
  rw [hi]
  exact h

/-- Making directories looks at the target alone. -/
theorem createParent_of_target {q : Path} (hu : u.target = v.target)
    (hkeep : (createParent env q v).2 = v) : (createParent env q u).2 = u := by
  unfold createParent at hkeep ⊢
  cases hq : Path.parent? q with
  | none => rfl
  | some a =>
    simp only [hq, StateM.run_bind, onTarget, StateM.run_pure] at hkeep ⊢
    have htarget : (Fs.createDirAll env.freshDir a v.target).2 = v.target :=
      congrArg World.target hkeep
    rw [hu, htarget, ← hu]

/-- The call of a rename fails after the directories on the way have been made. -/
theorem left_rename (h : Retriable e w) (ht : e.eventType = .rename)
    (hp : (resolution e w).1.bind ResolveResult.path? = some p)
    (hex : ¬ env.config.isPathExcluded p = true) :
    Left env e w (Arm.rename env (some n) e p (resolution e w).2).2 := by
  have hbase : Left env e w _ := left_resolution h
  set v := (resolution e w).2 with hv
  have hs : Settled e v := settled_resolution h
  set old := settledPath e.parentInode e.name v with hold
  set dest := settledDest e p v with hdest
  set v₁ := (createParent env dest v).2 with hv₁
  have holdw : old = settledPath e.parentInode e.name w :=
    settledPath_congr _ (hbase.dirMap _ (Ne.symm h.own))
  have hthere : v₁.target.pathExists old = true := by
    refine createParent_exists env ?_
    rw [holdw]
    exact hbase.present ht p hp
  have hparent : createParent env dest v₁ = ((), v₁) :=
    Prod.ext rfl (congrArg Prod.snd (createParent_again env dest v))
  obtain ⟨hmapi, hmapd⟩ := createParent_maps env dest v
  -- the state that the attempt leaves
  set u := (Arm.rememberRename e dest v₁).2 with hu
  have hstate : (Arm.rename env (some n) e p v).2 = u := by
    rw [rename_settled env (some n) hs]
    simp only [← hold, ← hdest, ← hv₁, if_pos hthere]
    rw [renamePresent_fail env n hparent]
  have htarget : u.target = v₁.target := rememberRename_target e dest v₁
  obtain ⟨hmaps, hmaps'⟩ : u.inodeMap = (Arm.rememberRename e dest v).2.inodeMap ∧
      u.dirMap = (Arm.rememberRename e dest v).2.dirMap := rememberRename_maps hmapi hmapd
  have hdir : ∀ i, i ≠ e.inode → u.dirMap i = v.dirMap i := fun i hi =>
    (rememberRename_dirMap hi v₁).trans (congrFun hmapd i)
  have hinode : ∀ i, i ≠ e.inode → u.inodeMap i = v.inodeMap i := fun i hi =>
    (rememberRename_inodeMap hi v₁).trans (congrFun hmapi i)
  have hredo : Arm.rename env none e p u = Arm.rename env none e p v := by
    have hsu : Settled e u := hs.of_maps h.own h.own_new hdir hinode
    have holdu : settledPath e.parentInode e.name u = old :=
      settledPath_congr _ (hdir _ (Ne.symm h.own))
    have hdestu : settledDest e p u = dest := settledDest_congr (hdir _ (Ne.symm h.own_new))
    have hparentu : (createParent env dest u).2 = u :=
      createParent_of_target htarget (congrArg Prod.snd hparent)
    rw [rename_settled env none hsu, rename_settled env none hs]
    simp only [holdu, hdestu, hparentu, ← hold, ← hdest, ← hv₁, htarget, if_pos hthere]
    rw [renamePresent_redo env htarget rfl rfl]
  rw [hstate]
  refine ⟨resolution_after_rename h.settled h.own (h.known ht) hp hmaps hmaps',
    fun i hi => (hdir i hi).trans (hbase.dirMap i hi),
    fun i hi => (hinode i hi).trans (hbase.inodeMap i hi), fun hl => ?_, fun q i hq => ?_,
    fun _ => (KnownEntry.of_inodeMap hmapi (hbase.known ht)).rememberRename, fun _ _ _ => ?_,
    fun hn => ?_, fun q hq => ?_⟩
  · rw [ht] at hl
    cases hl
  · rw [htarget] at hq
    exact hbase.files q i (createParent_file env hq)
  · rw [htarget, ← holdw]
    exact hthere
  · rw [hp] at hn
    cases hn
  · obtain rfl : p = q := Option.some.inj (hp.symm.trans hq)
    refine processAt_again hex (fun hgate => ?_) ?_
    · simp [ht, EventType.isGated] at hgate
    · simp only [perform, ht]
      exact hredo

/-- What a failed attempt leaves behind. -/
theorem left_attempt (env : Env) (n : ℕ) (h : Retriable e w) :
    Left env e w (processSingleEvent env (some n) e w).2 := by
  have hbase : Left env e w _ := left_resolution h
  have hat : ∀ p, (resolution e w).1.bind ResolveResult.path? = some p →
      Left env e w (processAt env (some n) e p (resolution e w).2).2 := by
    intro p hp
    unfold processAt
    by_cases hex : env.config.isPathExcluded p = true
    · simp only [if_pos hex]
      exact hbase
    simp only [if_neg hex]
    by_cases hgate : (env.hydrating e.inode && e.eventType.isGated) = true
    · have hne : e.eventType ≠ .rename := by
        intro heq
        simp [heq, EventType.isGated] at hgate
      simp only [if_pos hgate, StateM.run_ite_peek]
      by_cases hthere : (resolution e w).2.target.pathExists p = true
      · rw [if_pos hthere]
        exact left_perform h hne hp hex fun _ => hthere
      · rw [if_neg hthere, StateM.run_bind,
          resolveEventPath_settled e.name (settled_resolution h _ (.inl rfl))]
        exact hbase
    · simp only [if_neg hgate]
      by_cases ht : e.eventType = .rename
      · simp only [perform, ht]
        exact left_rename h ht hp hex
      · exact left_perform h ht hp hex fun hg => absurd hg hgate
  unfold processSingleEvent
  simp only [StateM.run_bind]
  cases hr : (resolution e w).1 with
  | none => exact hbase
  | some r =>
    rw [hr] at hat
    cases r with
    | securityBlock => exact hbase
    | success p _ _ => exact hat p rfl
    | needsRepair p => exact hat p rfl

/-! ### The next attempt -/

namespace Left
variable (hl : Left env e w u) (h : Retriable e w)
include hl

/-- The next attempt absorbs what has been left. -/
theorem absorbed : processSingleEvent env none e u = processSingleEvent env none e w := by
  unfold processSingleEvent
  simp only [StateM.run_bind, hl.resolved]
  cases hr : (resolution e w).1 with
  | none => rw [hl.idle (by rw [hr]; rfl)]
  | some r =>
    cases r with
    | securityBlock => rw [hl.idle (by rw [hr]; rfl)]
    | success p _ _ | needsRepair p => exact hl.again p (by rw [hr]; rfl)

include h

theorem settled : Settled e u := h.settled.of_maps h.own h.own_new hl.dirMap hl.inodeMap

theorem retriable : Retriable e u where
  type_ne_create := h.type_ne_create
  type_ne_incomplete := h.type_ne_incomplete
  own := h.own
  own_new := h.own_new
  settled := hl.settled h
  known := hl.known
  present ht p hp := by
    rw [hl.resolved] at hp
    rw [settledPath_congr _ (hl.dirMap _ (Ne.symm h.own))]
    exact hl.present ht p hp

/-- The event acts on the same paths as before. -/
theorem acts : Acts e u p ↔ Acts e w p := by
  have hs : Settled e (resolution e w).2 := settled_resolution h
  have hbase : Left env e w _ := left_resolution h
  have hdir : ∀ i, i ≠ e.inode → u.dirMap i = (resolution e w).2.dirMap i := fun i hi =>
    (hl.dirMap i hi).trans (hbase.dirMap i hi).symm
  unfold Acts
  rw [hl.resolved, resolveEventPath_settled e.name (hl.settled h _ (.inl rfl)),
    resolveEventPath_settled e.name (hs _ (.inl rfl))]
  simp only [renameDest_settled _ (hl.settled h), renameDest_settled _ hs,
    settledPath_congr e.name (hdir _ (Ne.symm h.own)),
    settledDest_congr (hdir _ (Ne.symm h.own_new))]

omit h in
theorem linkedPath : linkedPath e u = linkedPath e w := by
  unfold Foxing.linkedPath
  rw [hl.resolved]
  split_ifs with ht
  · rw [hl.linked ht]
  · rfl

omit h in
theorem hasFile {i : FileId} (hf : HasFile e u p i) : HasFile e w p i :=
  hf.imp (hl.files p i) id

theorem reads_subset : reads e u ⊆ reads e w := by
  intro c hc
  cases c with
  | inode i => exact hc
  | dir i => exact hc
  | data i =>
    obtain ⟨p, hp, hf⟩ := hc
    exact ⟨p, (hl.acts h).mp hp, hl.hasFile hf⟩
  | node q =>
    rcases hc with ⟨p, hp, hq⟩ | ⟨p, hp, hq⟩
    · exact .inl ⟨p, (hl.acts h).mp hp, hq⟩
    · exact .inr ⟨p, hl.linkedPath ▸ hp, hq⟩

/-- Nodes that have changed were written to. -/
theorem writes_subset (hframe : cells.Agree (writes e w)ᶜ w u) : writes e u ⊆ writes e w := by
  intro c hc
  cases c with
  | inode i => exact hc
  | data i =>
    obtain ⟨p, hp, hf⟩ := hc
    exact ⟨p, (hl.acts h).mp hp, hl.hasFile hf⟩
  | dir i =>
    rcases hc with hi | ⟨hi, hnone, hsome⟩
    · exact .inl hi
    · rcases hi with hi | hi
      · exact .inl hi
      · exact absurd (hl.settled h i hi hnone) hsome
  | node q =>
    obtain ⟨p, hp, hq⟩ := hc
    rcases hq with hq | hq | ⟨hq, hnone⟩
    · exact ⟨p, (hl.acts h).mp hp, .inl hq⟩
    · exact ⟨p, (hl.acts h).mp hp, .inr (.inl hq)⟩
    · by_cases hsame : w.target.node q = none
      · exact ⟨p, (hl.acts h).mp hp, .inr (.inr ⟨hq, hsame⟩)⟩
      · by_contra hout
        have hkeep : w.target.node q = u.target.node q := hframe (.node q) hout
        exact hsame (hkeep.trans hnone)

end Left

end Leaving

/-! ## Events as tasks -/

section Tasks
variable {e : Event} {w w' : World}

theorem Settled.of_agree (h : Settled e w) (hagree : cells.Agree (reads e w) w w') :
    Settled e w' := by
  intro i hi hnone
  have hname : Names e i := .inr hi
  have hdir : w.dirMap i = w'.dirMap i := hagree (.dir i) hname
  have hinode : w.inodeMap i = w'.inodeMap i := hagree (.inode i) hname
  rw [← hinode]
  exact h i hi (hdir.trans hnone)

/-- Whether an event may be attempted again depends on what it reads. -/
theorem Retriable.of_agree (h : Retriable e w) (hagree : cells.Agree (reads e w) w w') :
    Retriable e w' where
  type_ne_create := h.type_ne_create
  type_ne_incomplete := h.type_ne_incomplete
  own := h.own
  own_new := h.own_new
  settled := h.settled.of_agree hagree
  known ht := by
    have hinode : w.inodeMap e.inode = w'.inodeMap e.inode := hagree (.inode e.inode) (.inl rfl)
    have hk := h.known ht
    unfold KnownEntry at hk ⊢
    rwa [hinode] at hk
  present ht p hp := by
    have hdir : w.dirMap e.parentInode = w'.dirMap e.parentInode :=
      hagree (.dir e.parentInode) (.inr (.inl rfl))
    rw [(local_resolution (mapRoom_foot e w) w' hagree).1] at hp
    have hacts : Acts e w (settledPath e.parentInode e.name w) := by
      refine ⟨p, hp, ?_⟩
      rw [if_pos ht, resolveEventPath_settled e.name (settled_resolution h _ (.inl rfl))]
      exact .inl (congrArg some (settledPath_congr _
        (congrFun (resolution_maps h.settled h.own).1 e.parentInode)))
    rw [settledPath_congr e.name hdir.symm, Fs.pathExists,
      node_of_agree hagree hacts (.inl List.prefix_rfl)]
    exact h.present ht p hp

/-- A failed attempt, after which the path may be looked up for the outage journal. -/
def failedAttempt (env : Env) (e : Event) (f : ℕ × Bool) : StateM World (Option Outcome) := do
  let r ← processSingleEvent env (some f.1) e
  if f.2 then
    let _ ← resolveEventPath e.parentInode e.name
  return r

theorem failedAttempt_run (env : Env) (f : ℕ × Bool) (h : Retriable e w) :
    failedAttempt env e f w = processSingleEvent env (some f.1) e w := by
  have hs := (left_attempt env f.1 h).settled h
  unfold failedAttempt
  rw [StateM.run_bind]
  split_ifs
  · rw [StateM.run_bind, resolveEventPath_settled e.name (hs _ (.inl rfl))]
    rfl
  · rfl

theorem local_failedAttempt (env : Env) (e : Event) (f : ℕ × Bool) (w : World) :
    Local (reads e w) (writes e w) (failedAttempt env e f) w := by
  refine .bind (local_attempt env (some f.1) e w) ?_
  have hroom := (mapRoom_foot e w).after (local_attempt env (some f.1) e w)
  split_ifs
  · exact .bind (local_resolveEventPath e.name hroom.parent) (.pure _)
  · exact .pure _

/-- Events with the surroundings in which they are attempted. A failed attempt has
got as far as a number of bytes, and may have been followed by a look-up. An event
is repeated only if it succeeds in the end. -/
def eventTasks (envOf : Event → Env) : Tasks cells Event (ℕ × Bool) (Option Outcome) where
  act e := processSingleEvent (envOf e) none e
  fail e f := failedAttempt (envOf e) e f
  reads := reads
  writes := writes
  Retriable e w := Retriable e w ∧ Succeeds (processSingleEvent (envOf e) none e w).1
  sub := writes_sub_reads
  local_act e w := local_attempt (envOf e) none e w
  local_fail e f w := local_failedAttempt (envOf e) e f w
  foot_of_agree e w w' h := ⟨reads_of_agree h, writes_of_agree h⟩
  retriable_of_agree e w w' h hr := by
    refine ⟨hr.1.of_agree h, ?_⟩
    rw [(local_attempt (envOf e) none e w w' h).1]
    exact hr.2
  retriable_fail e f w hr := by
    rw [failedAttempt_run _ _ hr.1]
    have hl := left_attempt (envOf e) f.1 hr.1
    exact ⟨hl.retriable hr.1, by rw [hl.absorbed]; exact hr.2⟩
  foot_fail e f w hr := by
    rw [failedAttempt_run _ _ hr.1]
    have hl := left_attempt (envOf e) f.1 hr.1
    exact ⟨hl.reads_subset hr.1,
      hl.writes_subset hr.1 (local_attempt (envOf e) (some f.1) e w).frame⟩
  absorb e f w hr := by
    rw [failedAttempt_run _ _ hr.1]
    exact (left_attempt (envOf e) f.1 hr.1).absorbed

end Tasks

end Foxing
