import Foxing.WorkerLocality

/-!
# The names on the target

In a tree whose entries lie in directories, what the arms for creation, writing
and renaming of files do to the names of the target. The source tree decides
what is copied, so a name arrives when the source has it at that moment.
-/
namespace Foxing
namespace Fs
variable {t t' : Fs} {p q old new : Path}

/-- Entries lie in directories. -/
def Rooted (t : Fs) : Prop := ∀ q c, t.node (q ++ [c]) ≠ none → t.isDir q = true

/-- Entries lie in directories, and there are no symbolic links. -/
structure Closed (t : Fs) : Prop where
  parent : ∀ q c, t.node (q ++ [c]) ≠ none → t.isDir q = true
  plain : ∀ q d m, t.node q ≠ some (.symlink d m)

/-- The path does not lead to a directory. -/
abbrev NotDir (t : Fs) (p : Path) : Prop := t.isDir p = false

theorem node_ne_none_of_isDir (h : t.isDir p = true) : t.node p ≠ none := by
  intro hn
  simp [isDir, hn] at h

theorem Rooted.isDir_append (h : t.Rooted) (r : Path) (hr : r ≠ [])
    (hp : t.node (q ++ r) ≠ none) : t.isDir q = true := by
  induction r using List.reverseRecOn with
  | nil => exact absurd rfl hr
  | append_singleton r c ih =>
    rw [← List.append_assoc] at hp
    have hdir := h _ c hp
    by_cases hempty : r = []
    · simpa [hempty] using hdir
    · exact ih hempty (node_ne_none_of_isDir hdir)

/-- Nothing lies below a path that is not a directory. -/
theorem Rooted.below (h : t.Rooted) (hp : t.NotDir p) {r : Path} (hr : r ≠ []) :
    t.node (p ++ r) = none := by
  by_contra hne
  have hdir : t.isDir p = true := h.isDir_append r hr hne
  exact Bool.noConfusion (hdir.symm.trans hp)

theorem Closed.rooted (h : t.Closed) : t.Rooted := h.parent

theorem Closed.isDir_append (h : t.Closed) (r : Path) (hr : r ≠ [])
    (hp : t.node (q ++ r) ≠ none) : t.isDir q = true := h.rooted.isDir_append r hr hp

theorem Closed.below (h : t.Closed) (hp : t.NotDir p) {r : Path} (hr : r ≠ []) :
    t.node (p ++ r) = none := h.rooted.below hp hr

theorem Closed.node_cases (h : t.Closed) (hp : t.NotDir p) :
    t.node p = none ∨ ∃ i, t.node p = some (.file i) := by
  cases hn : t.node p with
  | none => exact .inl rfl
  | some n =>
    cases n with
    | file i => exact .inr ⟨i, rfl⟩
    | dir m => simp [NotDir, isDir, hn] at hp
    | symlink d m => exact absurd hn (h.plain p d m)

/-- Directories that are there are not made again. -/
theorem Closed.createDirAll (h : t.Closed) (m : Meta) (hp : t.isDir p = true) :
    t.createDirAll m p = (.ok (), t) := by
  have hdir : ∀ a, a <+: p → t.isDir a = true := by
    rintro a ⟨r, rfl⟩
    by_cases hr : r = []
    · simpa [hr] using hp
    · exact h.isDir_append r hr (node_ne_none_of_isDir hp)
  exact createDirAll_of_dirs m hdir

/-- Moving a file. -/
theorem Closed.relocate_node (h : t.Closed) (hold : t.NotDir old) (hnew : t.NotDir new)
    (q : Path) :
    (t.relocate old new).node q =
      if q = new then t.node old else if q = old then none else t.node q := by
  show (if new <+: q then t.node (rebase old new q) else if old <+: q then none else t.node q) = _
  by_cases hnq : new <+: q
  · obtain ⟨r, rfl⟩ := hnq
    have hreb : rebase old new (new ++ r) = old ++ r := by simp [rebase]
    rw [if_pos (List.prefix_append ..), hreb]
    by_cases hr : r = []
    · simp [hr]
    · rw [if_neg (by simpa using hr), h.below hold hr, h.below hnew hr]
      simp
  · have hqn : q ≠ new := fun heq => hnq (heq ▸ List.prefix_rfl)
    rw [if_neg hnq, if_neg hqn]
    by_cases hoq : old <+: q
    · obtain ⟨r, rfl⟩ := hoq
      rw [if_pos (List.prefix_append ..)]
      by_cases hr : r = []
      · simp [hr]
      · rw [h.below hold hr]
        simp
    · have hqo : q ≠ old := fun heq => hoq (heq ▸ List.prefix_rfl)
      rw [if_neg hoq, if_neg hqo]

/-- Changing files at paths that are no directories keeps the tree closed. -/
theorem Closed.of_files (h : t.Closed) {X : Set Path} (hX : ∀ q ∈ X, t.NotDir q)
    (hpar : ∀ a c, a ++ [c] ∈ X → t.isDir a = true)
    (hframe : ∀ q ∉ X, t'.node q = t.node q)
    (hfile : ∀ q ∈ X, t'.node q = none ∨ ∃ i, t'.node q = some (.file i)) :
    t'.Closed ∧ ∀ q, t'.isDir q = t.isDir q := by
  have hdirs : ∀ q, t'.isDir q = t.isDir q := by
    intro q
    by_cases hq : q ∈ X
    · rw [hX q hq, isDir]
      rcases hfile q hq with hn | ⟨i, hn⟩ <;> rw [hn]
    · rw [isDir, isDir, hframe q hq]
  refine ⟨⟨fun q c hne => ?_, fun q d m hsym => ?_⟩, hdirs⟩
  · rw [hdirs]
    by_cases hq : q ++ [c] ∈ X
    · exact hpar q c hq
    · exact h.parent q c (hframe _ hq ▸ hne)
  · by_cases hq : q ∈ X
    · rcases hfile q hq with hn | ⟨i, hn⟩ <;> rw [hn] at hsym <;> cases hsym
    · exact h.plain q d m (hframe q hq ▸ hsym)

/-- A file that gives its name up for another one. A hard link of the destination keeps it. -/
theorem Closed.rename_file (h : t.Closed) {i : FileId} (hold : t.node old = some (.file i))
    (hnew : t.NotDir new) (hpar : t.hasParent new = true) :
    (t.rename old new).1 = .ok () ∧ (t.rename old new).2.data = t.data ∧
      (∀ q, q ≠ old → q ≠ new → (t.rename old new).2.node q = t.node q) ∧
      (t.rename old new).2.node new = some (.file i) ∧
      ((t.rename old new).2.node old = none ∨
        (t.rename old new).2.node old = some (.file i) ∧ t.node new = some (.file i)) := by
  by_cases heq : old = new
  · subst heq
    simp only [rename, hold, if_true]
    exact ⟨trivial, trivial, fun _ _ _ => trivial, trivial, .inr ⟨trivial, trivial⟩⟩
  · have hdir : t.NotDir old := by simp [NotDir, isDir, hold]
    have hrun : t.rename old new = t.renameNode (.file i) old new := by
      simp only [rename, hold, heq, if_false, hpar, if_true]
    have hmoved : (t.relocate old new).node new = some (.file i) := by
      rw [h.relocate_node hdir hnew, if_pos rfl, hold]
    have hleft : (t.relocate old new).node old = none := by
      rw [h.relocate_node hdir hnew, if_neg heq, if_pos rfl]
    have hframe : ∀ q, q ≠ old → q ≠ new → (t.relocate old new).node q = t.node q := by
      intro q hqo hqn
      rw [h.relocate_node hdir hnew, if_neg hqn, if_neg hqo]
    rw [hrun]
    rcases h.node_cases hnew with hn | ⟨j, hn⟩
    · simp only [renameNode, hn]
      exact ⟨trivial, rfl, hframe, hmoved, .inl hleft⟩
    · by_cases hij : i = j
      · subst hij
        simp only [renameNode, hn, if_true]
        exact ⟨trivial, trivial, fun _ _ _ => trivial, trivial, .inr ⟨hold, trivial⟩⟩
      · simp only [renameNode, hn, hij, if_false]
        exact ⟨trivial, rfl, hframe, hmoved, .inl hleft⟩

/-- Two files changing places. -/
theorem Closed.exchange_file (h : t.Closed) {i j : FileId} (hold : t.node old = some (.file i))
    (hnew : t.node new = some (.file j)) :
    (t.exchange old new).1 = .ok () ∧ (t.exchange old new).2.data = t.data ∧
      (∀ q, q ≠ old → q ≠ new → (t.exchange old new).2.node q = t.node q) ∧
      (t.exchange old new).2.node new = some (.file i) ∧
      (t.exchange old new).2.node old = some (.file j) := by
  have hdir : t.NotDir old := by simp [NotDir, isDir, hold]
  have hdir' : t.NotDir new := by simp [NotDir, isDir, hnew]
  have happart : ∀ {a b : Path}, t.NotDir a → t.node b ≠ none → a <+: b → a = b := by
    rintro a b ha hb ⟨r, rfl⟩
    by_contra hne
    exact hb (h.below ha fun hr => hne (by simp [hr]))
  by_cases heq : old = new
  · subst heq
    simp only [exchange, hold, if_true]
    exact ⟨trivial, trivial, fun _ _ _ => trivial, trivial, hold.symm.trans hnew⟩
  · have hno : ¬ new <+: old := fun hpre => heq (happart hdir' (by simp [hold]) hpre).symm
    have hon : ¬ old <+: new := fun hpre => heq (happart hdir (by simp [hnew]) hpre)
    have hrun : t.exchange old new = (.ok (), t.swap old new) := by
      simp only [exchange, hold, hnew, heq, hno, hon, if_false]
    have hnode : ∀ q, (t.swap old new).node q = if new <+: q then t.node (rebase old new q)
        else if old <+: q then t.node (rebase new old q) else t.node q := fun _ => rfl
    rw [hrun]
    refine ⟨rfl, rfl, fun q hqo hqn => ?_, ?_, ?_⟩
    · rw [hnode]
      split_ifs with hnq hoq
      · obtain ⟨r, rfl⟩ := hnq
        have hr : r ≠ [] := fun hr => hqn (by simp [hr])
        simp only [rebase, List.drop_left]
        rw [h.below hdir hr, h.below hdir' hr]
      · obtain ⟨r, rfl⟩ := hoq
        have hr : r ≠ [] := fun hr => hqo (by simp [hr])
        simp only [rebase, List.drop_left]
        rw [h.below hdir hr, h.below hdir' hr]
      · rfl
    · rw [hnode, if_pos List.prefix_rfl, rebase, List.drop_length, List.append_nil, hold]
    · rw [hnode, if_neg hno, if_pos List.prefix_rfl, rebase, List.drop_length, List.append_nil,
        hnew]

theorem removeFile_node (hp : t.node p = none ∨ ∃ i, t.node p = some (.file i)) (q : Path) :
    (t.removeFile p).2.node q = if q = p then none else t.node q := by
  rcases hp with hn | ⟨i, hn⟩
  · simp only [removeFile, hn]
    split_ifs with hq
    · rw [hq, hn]
    · rfl
  · simp only [removeFile, hn, setNode_node]

/-- A path that can be overwritten names a file afterwards. -/
theorem overwrite_node {i : FileId} (fresh : Meta) (f : Meta → Meta) (c : File)
    (hp : t.node p = none ∨ ∃ j, t.node p = some (.file j)) (hpar : t.hasParent p = true) :
    (∃ j, (t.overwrite i fresh f c p).2.node p = some (.file j)) ∧
      ∀ q, q ≠ p → (t.overwrite i fresh f c p).2.node q = t.node q := by
  rcases hp with hn | ⟨j, hn⟩
  · simp only [overwrite, hn, link, hpar, if_true, setData_node, setNode_node]
    exact ⟨⟨i, rfl⟩, fun q hq => by simp [hq]⟩
  · simp only [overwrite, hn]
    cases hk : (t.data j).kind with
    | regular c' =>
      simp only [setData_node, hn]
      exact ⟨⟨j, rfl⟩, fun _ _ => trivial⟩
    | special m d =>
      simp only [hn]
      exact ⟨⟨j, rfl⟩, fun _ _ => trivial⟩

theorem alterMeta_node (f : Meta → Meta) {j : FileId} (hp : t.node p = some (.file j)) :
    (t.alterMeta f p).2.node = t.node := by
  simp only [alterMeta, hp, setData_node]

end Fs

/-! ## Attempts whose directories are known -/

variable {env : Env} {e : Event} {w : World} {d p : Path}

theorem resolveEventPath_of_dir {i : U64} {name : String} (hi : i ≠ 0)
    (hd : w.dirMap i = some d) (hname : ValidName name) :
    resolveEventPath i name w = (some (d ++ [name]), w) := by
  rw [resolveEventPath_run hi, resolveParent_of_dir hd, ← hname.join_eq]

/-- The directory of the event is in the directory map, and the name can be used. -/
structure Placed (e : Event) (d : Path) (w : World) : Prop where
  nonzero : e.parentInode ≠ 0
  dir : w.dirMap e.parentInode = some d
  name : ValidName e.name
  safe : validateTargetRootContainment (d ++ [e.name]) = true

/-- With its directory in the directory map, an event is resolved to its name
there, whatever the inode map says, and the directory map stays as it is. -/
theorem resolution_of_dir (hat : Placed e d w) :
    ∃ r v, resolution e w = (some r, v) ∧ r.path? = some (d ++ [e.name]) ∧
      v.dirMap = w.dirMap ∧ v.target = w.target := by
  obtain ⟨h0, hd, hname, hsafe⟩ := hat
  have hspec : ∀ v : World, v.dirMap = w.dirMap → specificRelPath e v = some (d ++ [e.name]) := by
    intro v hv
    rw [specificRelPath, if_pos ⟨h0, hname.1⟩, hv, hd, Option.map_some, hname.join_eq]
  have hknown : ∀ (entry : IdentityEntry) (v : World), v.dirMap = w.dirMap →
      ∃ r u, resolveKnown e entry v = (some r, u) ∧ r.path? = some (d ++ [e.name]) ∧
        u.dirMap = w.dirMap ∧ u.target = v.target := by
    intro entry v hv
    by_cases hgen : entry.generation = U32.max ∨ entry.generation = e.generation
    · rw [resolveKnown_run hgen, hspec v hv]
      refine ⟨_, _, rfl, ?_, hv, rfl⟩
      rw [ResolveResult.validated, if_pos hsafe]
      rfl
    · have hmis : (entry.recordAccess e.seqNum).generation ≠ U32.max ∧
          (entry.recordAccess e.seqNum).generation ≠ e.generation := by
        simpa [IdentityEntry.recordAccess, not_or] using hgen
      have hs : specificRelPath e (v.insertEntry e.inode (entry.recordAccess e.seqNum)) =
          some (d ++ [e.name]) := hspec _ hv
      refine ⟨.needsRepair (d ++ [e.name]), v.insertEntry e.inode (entry.recordAccess e.seqNum),
        ?_, rfl, hv, rfl⟩
      simp only [resolveKnown, StateM.run_bind, StateM.run_modify, StateM.run_peek, if_pos hmis,
        StateM.run_pure, hs, Option.getD_some]
  have hrefresh : ∃ u, refreshGeneration e w = ((), u) ∧ u.dirMap = w.dirMap ∧
      u.target = w.target := by
    refine ⟨(refreshGeneration e w).2, rfl, ?_, ?_⟩
    · simp only [refreshGeneration, StateM.run_bind, StateM.run_peek]
      cases w.inodeMap e.inode with
      | none => rfl
      | some entry =>
        simp only
        split_ifs
        · rfl
        · rfl
    · exact target_of_local (local_refreshGeneration (mapRoom_mapCells e w))
  obtain ⟨u, hu, hudir, hutarget⟩ := hrefresh
  have hrun : resolution e w = resolveTarget e u := by
    simp only [resolution, StateM.run_bind, hu]
  rw [hrun, ← hutarget]
  cases hentry : u.inodeMap e.inode with
  | some entry =>
    rw [resolveTarget_known hentry]
    exact hknown entry u hudir
  | none =>
    have hown : resolveOwnParent e u = (some (some d), u) := by
      rw [resolveOwnParent_run, if_pos ⟨h0, hname.1⟩, resolveParent_of_dir (hudir ▸ hd)]
    rw [resolveTarget_unknown hentry, resolveUnknown_run hown, if_pos hname.1]
    refine ⟨_, u, rfl, ?_, hudir, rfl⟩
    rw [unknownPath, hname.join_eq, ResolveResult.validated, if_pos hsafe]
    rfl

/-- The path is acted on in a state that has the same tree and the same directories. -/
theorem process_of_placed (env : Env) (fault : Option ℕ) (hat : Placed e d w) :
    ∃ v, processSingleEvent env fault e w = processAt env fault e (d ++ [e.name]) v ∧
      v.dirMap = w.dirMap ∧ v.target = w.target := by
  obtain ⟨r, v, hrun, hp, hdir, htarget⟩ := resolution_of_dir hat
  refine ⟨v, ?_, hdir, htarget⟩
  simp only [processSingleEvent, StateM.run_bind, hrun]
  cases r with
  | securityBlock => cases hp
  | success q _ _ | needsRepair q =>
    obtain rfl : q = d ++ [e.name] := by simpa [ResolveResult.path?] using hp
    rfl

/-- Events at excluded paths are dropped. -/
theorem process_excluded (fault : Option ℕ) (hat : Placed e d w)
    (hex : env.config.isPathExcluded (d ++ [e.name]) = true) :
    ∃ v, processSingleEvent env fault e w = (some .done, v) ∧ v.dirMap = w.dirMap ∧
      v.target = w.target := by
  obtain ⟨v, hrun, hdir, htarget⟩ := process_of_placed env fault hat
  refine ⟨v, ?_, hdir, htarget⟩
  rw [hrun, processAt, if_pos hex]
  rfl

theorem processAt_ungated {fault : Option ℕ} {v : World} (hg : e.eventType.isGated = false)
    (hex : env.config.isPathExcluded p = false) :
    processAt env fault e p v = perform env fault e p v := by
  simp [processAt, hex, hg]

/-- The directory of a name is not made again. -/
theorem createParent_of_closed {name : String} (hc : w.target.Closed)
    (hd : w.target.isDir d = true) : createParent env (d ++ [name]) w = ((), w) := by
  have hparent : Path.parent? (d ++ [name]) = some d := by simp [Path.parent?]
  simp only [createParent, hparent, StateM.run_bind, onTarget, hc.createDirAll _ hd,
    StateM.run_pure]

/-- The directory map is kept and the nodes change at the given paths only, where
files stay or go. -/
structure Touches (X : Set Path) (w v : World) : Prop where
  dirMap : v.dirMap = w.dirMap
  frame : ∀ q ∉ X, v.target.node q = w.target.node q
  files : ∀ q ∈ X, v.target.node q = none ∨ ∃ i, v.target.node q = some (.file i)

namespace Touches
variable {X : Set Path} {u v : World}

theorem trans (h : Touches X w v) (h' : Touches X v u) : Touches X w u where
  dirMap := h'.dirMap.trans h.dirMap
  frame q hq := (h'.frame q hq).trans (h.frame q hq)
  files := h'.files

/-- A change of contents, metadata and inode entries alone. -/
theorem keep (h : Touches X w v) (hdir : u.dirMap = v.dirMap)
    (hnode : u.target.node = v.target.node) : Touches X w u where
  dirMap := hdir.trans h.dirMap
  frame q hq := (congrFun hnode q).trans (h.frame q hq)
  files q hq := by
    rw [hnode]
    exact h.files q hq

theorem closed (h : Touches X w v) (hc : w.target.Closed) (hX : ∀ q ∈ X, w.target.NotDir q)
    (hpar : ∀ a c, a ++ [c] ∈ X → w.target.isDir a = true) :
    v.target.Closed ∧ ∀ q, v.target.isDir q = w.target.isDir q :=
  hc.of_files hX hpar h.frame h.files

end Touches

theorem touches_self {X : Set Path} (hc : w.target.Closed) (hX : ∀ q ∈ X, w.target.NotDir q) :
    Touches X w w :=
  ⟨rfl, fun _ _ => rfl, fun q hq => hc.node_cases (hX q hq)⟩

theorem updateMap_false (i : U64) (path : Path) (gen : U32) (ts seq : U64) (w : World) :
    (w.updateMap i path gen false ts seq).dirMap = w.dirMap ∧
      (w.updateMap i path gen false ts seq).target = w.target := by
  refine ⟨?_, (updateMap_entryUpdate i path gen false ts seq).target w⟩
  unfold World.updateMap
  by_cases hi : i = 0
  · rw [if_pos hi]
  · rw [if_neg hi]
    simp only [Bool.false_eq_true, if_false]
    cases w.inodeMap i with
    | none => rfl
    | some entry => rfl

theorem remember_target (v : World) : (Arm.remember e p false v).2.target = v.target :=
  (updateMap_false e.inode p e.generation e.timestampNs e.seqNum v).2

theorem Touches.remember {X : Set Path} {v : World} (h : Touches X w v) :
    Touches X w (Arm.remember e p false v).2 := by
  obtain ⟨hdir, htarget⟩ := updateMap_false e.inode p e.generation e.timestampNs e.seqNum v
  exact h.keep hdir (congrArg Fs.node htarget)

/-! ## Creation -/

theorem applyMetadata_node {t : Fs} {j : FileId} (hp : t.node p = some (.file j)) :
    (Arm.applyMetadata env p t).2.node = t.node := by
  unfold Arm.applyMetadata
  cases env.source.metadataAt p with
  | none => rfl
  | some m => exact Fs.alterMeta_node _ hp

/-- The owner and the metadata of a new entry do not change its name. -/
theorem makeEntry_keeps (env : Env) {v : World} {j : FileId} (r : CallResult) (ht : e.eventType ≠ .mkdir)
    (hp : v.target.node p = some (.file j)) :
    (Arm.makeEntry env e p (.ok ()) r v).2.dirMap = v.dirMap ∧
      (Arm.makeEntry env e p (.ok ()) r v).2.target.node = v.target.node := by
  have howner : (v.target.setOwnership e.uid e.gid p).1 = .ok () := by
    simp only [Fs.setOwnership, Fs.alterMeta, hp]
  have hnode : (v.target.setOwnership e.uid e.gid p).2.node = v.target.node :=
    Fs.alterMeta_node _ hp
  have hp' : (v.target.setOwnership e.uid e.gid p).2.node p = some (.file j) := by
    rw [hnode, hp]
  simp only [Arm.makeEntry, StateM.run_bind, onTarget, howner, StateM.run_pure, Arm.remember, ht,
    decide_false, StateM.run_modify]
  obtain ⟨hdir, htarget⟩ := updateMap_false e.inode p e.generation e.timestampNs e.seqNum
    { v with target := (Arm.applyMetadata env p (v.target.setOwnership e.uid e.gid p).2).2 }
  rw [hdir, htarget]
  exact ⟨rfl, (applyMetadata_node hp').trans hnode⟩

/-- What overwriting the file at `p` does. -/
theorem touches_overwrite {i : FileId} (fresh : Meta) (f : Meta → Meta) (c : File) {name : String}
    (hc : w.target.Closed) (hd : w.target.isDir d = true) (hp : w.target.NotDir (d ++ [name])) :
    Touches {d ++ [name]} w (onTarget (Fs.overwrite i fresh f c (d ++ [name])) w).2 ∧
      ∃ j, (onTarget (Fs.overwrite i fresh f c (d ++ [name])) w).2.target.node (d ++ [name]) =
        some (.file j) := by
  have hpar : w.target.hasParent (d ++ [name]) = true := by
    simpa [Fs.hasParent, Path.parent?] using hd
  obtain ⟨hfile, hframe⟩ := Fs.overwrite_node (i := i) fresh f c (hc.node_cases hp) hpar
  refine ⟨⟨rfl, fun q hq => hframe q hq, ?_⟩, hfile⟩
  rintro q rfl
  exact .inr hfile

/-- A regular file of the source is copied to its name. -/
theorem touches_copyFile (env : Env) (e : Event) {name : String} (hc : w.target.Closed) (hd : w.target.isDir d = true)
    (hp : w.target.NotDir (d ++ [name])) :
    Touches {d ++ [name]} w (onTarget (Arm.copyFile env e (d ++ [name])) w).2 ∧
      ((onTarget (Arm.copyFile env e (d ++ [name])) w).1 = .ok () →
        env.source.regularAt (d ++ [name]) ≠ none) ∧
      (env.source.regularAt (d ++ [name]) ≠ none →
        ∃ j, (onTarget (Arm.copyFile env e (d ++ [name])) w).2.target.node (d ++ [name]) =
          some (.file j)) := by
  have hself : Touches {d ++ [name]} w w := by
    refine touches_self hc ?_
    rintro q rfl
    exact hp
  unfold Arm.copyFile
  cases hreg : env.source.regularAt (d ++ [name]) with
  | none => exact ⟨hself, fun h => (by cases h), fun h => absurd rfl h⟩
  | some src =>
    have hmeta : ∃ m, env.source.metadataAt (d ++ [name]) = some m := by
      unfold Fs.regularAt at hreg
      split at hreg
      next i hn => exact ⟨(env.source.data i).metadata, by rw [Fs.metadataAt, hn]⟩
      next => cases hreg
    obtain ⟨m, hm⟩ := hmeta
    rw [hm]
    obtain ⟨htouch, hfile⟩ := touches_overwrite (i := .made e.seqNum (d ++ [name]))
      env.freshFile (Meta.setPermissions m.mode) src hc hd hp
    exact ⟨htouch, fun _ => Option.some_ne_none _, fun _ => hfile⟩

/-- A new file arrives if the source has it and no rename of it is registered. -/
theorem touches_create (env : Env) {name : String} (ht : e.eventType = .create) (hc : w.target.Closed)
    (hd : w.target.isDir d = true) (hp : w.target.NotDir (d ++ [name])) :
    Touches {d ++ [name]} w (Arm.create env none e (d ++ [name]) w).2 ∧
      (env.pendingRenames e.inode = 0 → env.source.pathExists (d ++ [name]) = true →
        (Arm.create env none e (d ++ [name]) w).2.target.node (d ++ [name]) ≠ none) := by
  have hself : Touches {d ++ [name]} w w := by
    refine touches_self hc ?_
    rintro q rfl
    exact hp
  unfold Arm.create
  by_cases hpend : env.pendingRenames e.inode > 0
  · rw [if_pos hpend]
    exact ⟨hself.remember, fun hzero => absurd hzero (by omega)⟩
  · rw [if_neg hpend]
    by_cases hsrc : env.source.pathExists (d ++ [name]) = true
    · rw [if_pos hsrc]
      obtain ⟨htouch, hreg, hfile⟩ := touches_copyFile env e hc hd hp
      simp only [StateM.run_bind, createParent_of_closed hc hd]
      cases hres : (onTarget (Arm.copyFile env e (d ++ [name])) w).1 with
      | ok _ =>
        simp only [StateM.run_bind, StateM.run_pure]
        refine ⟨htouch.remember, fun _ _ => ?_⟩
        obtain ⟨j, hj⟩ := hfile (hreg hres)
        rw [remember_target, hj]
        exact Option.some_ne_none _
      | error f =>
        -- an empty file takes the place of one that could not be copied
        obtain ⟨hc', hdirs⟩ := htouch.closed hc (by rintro q rfl; exact hp) (by
          intro a c hac
          obtain ⟨rfl, -⟩ := by simpa using hac
          exact hd)
        have hd' := (hdirs d).trans hd
        have hp' : Fs.NotDir _ (d ++ [name]) := (hdirs (d ++ [name])).trans hp
        obtain ⟨hempty, j, hj⟩ := touches_overwrite (i := .made e.seqNum (d ++ [name]))
          env.freshFile id .empty hc' hd' hp'
        simp only [Arm.createEmpty, StateM.run_bind, createParent_of_closed hc' hd']
        obtain ⟨hmdir, hmnode⟩ := makeEntry_keeps env (e := e) (.error f)
          (by rw [ht]; decide) hj
        refine ⟨(htouch.trans hempty).keep hmdir hmnode, fun _ _ => ?_⟩
        rw [hmnode, hj]
        exact Option.some_ne_none _
    · rw [if_neg hsrc]
      exact ⟨hself.remember, fun _ h => absurd h hsrc⟩

/-! ## Renaming -/

theorem updateMapAfterRename_false (i : U64) (path : Path) (gen : U32) (ts seq : U64) (w : World) :
    (w.updateMapAfterRename i path gen false ts seq).dirMap = w.dirMap ∧
      (w.updateMapAfterRename i path gen false ts seq).target = w.target := by
  refine ⟨?_, (updateMapAfterRename_entryUpdate i path gen false ts seq).target w⟩
  unfold World.updateMapAfterRename
  by_cases hi : i = 0
  · rw [if_pos hi]
  · rw [if_neg hi]
    cases w.inodeMap i with
    | none => rfl
    | some entry => rfl

theorem rememberRename_keeps (hmode : e.mode.val / 16384 % 2 ≠ 1) (v : World) :
    (Arm.rememberRename e p v).2.dirMap = v.dirMap ∧
      (Arm.rememberRename e p v).2.target = v.target := by
  unfold Arm.rememberRename
  split_ifs
  · simp only [StateM.run_modify, hmode, decide_false]
    exact updateMapAfterRename_false ..
  · exact ⟨rfl, rfl⟩

/-- The call of a rename, with an exchange only between two files, succeeds. -/
theorem renameCall_file (env : Env) {old dest : Path} {i : FileId} (hc : w.target.Closed)
    (hd : w.target.isDir d = true) {name : String} (hdest : dest = d ++ [name])
    (hold : w.target.node old = some (.file i)) (hnew : w.target.NotDir dest)
    (hx : e.flags.val / 2 % 2 = 1 → ∃ j, w.target.node dest = some (.file j)) :
    (Arm.renameCall env none e old dest w).1 = .ok () ∧
      Touches {old, dest} w (Arm.renameCall env none e old dest w).2 ∧
      (∃ j, (Arm.renameCall env none e old dest w).2.target.node dest = some (.file j)) ∧
      (e.flags.val / 2 % 2 = 1 →
        ∃ j, (Arm.renameCall env none e old dest w).2.target.node old = some (.file j)) := by
  subst hdest
  have hpar : w.target.hasParent (d ++ [name]) = true := by
    simpa [Fs.hasParent, Path.parent?] using hd
  have hrun : ∀ call : Fs → CallResult × Fs, (call w.target).1 = .ok () →
      (if e.flags.val / 2 % 2 = 1 then Fs.exchange old (d ++ [name])
        else Fs.rename old (d ++ [name])) = call →
      Arm.renameCall env none e old (d ++ [name]) w =
        (.ok (), { w with target := (call w.target).2 }) := by
    intro call hok hcall
    simp only [Arm.renameCall, StateM.run_bind, createParent_of_closed hc hd, reported, hcall,
      onTarget, hok, StateM.run_pure]
  have htouch : ∀ t' : Fs, (∀ q, q ≠ old → q ≠ d ++ [name] → t'.node q = w.target.node q) →
      (t'.node old = none ∨ ∃ j, t'.node old = some (.file j)) →
      (∃ j, t'.node (d ++ [name]) = some (.file j)) →
      Touches {old, d ++ [name]} w { w with target := t' } := by
    intro t' hframe hat hat'
    refine ⟨rfl, fun q hq => ?_, ?_⟩
    · simp only [Set.mem_insert_iff, Set.mem_singleton_iff, not_or] at hq
      exact hframe q hq.1 hq.2
    · rintro q (rfl | rfl)
      · exact hat
      · exact .inr hat'
  by_cases hflag : e.flags.val / 2 % 2 = 1
  · obtain ⟨j, hj⟩ := hx hflag
    obtain ⟨hok, -, hframe, hat', hat⟩ := hc.exchange_file hold hj
    rw [hrun _ hok (if_pos hflag)]
    exact ⟨rfl, htouch _ hframe (.inr ⟨j, hat⟩) ⟨i, hat'⟩, ⟨i, hat'⟩, fun _ => ⟨j, hat⟩⟩
  · obtain ⟨hok, -, hframe, hat', hat⟩ := hc.rename_file hold hnew hpar
    rw [hrun _ hok (if_neg hflag)]
    exact ⟨rfl, htouch _ hframe (hat.imp id fun h => ⟨i, h.1⟩) ⟨i, hat'⟩, ⟨i, hat'⟩,
      fun h => absurd h hflag⟩

/-- What a rename from `old` to `dest` does to the names of the target, given the source. -/
structure Renames (env : Env) (exchanged : Prop) (old dest : Path) (w v : World) : Prop where
  touches : Touches {old, dest} w v
  arrives : env.source.pathExists dest = true → v.target.node dest ≠ none
  leaves : env.source.pathExists old = false → v.target.node old = none
  stays : exchanged → env.source.pathExists old = true → v.target.node old ≠ none

section Rename
variable {old dest : Path} {name : String}

theorem renames_present {i : FileId} (hc : w.target.Closed) (hd : w.target.isDir d = true)
    (hdest : dest = d ++ [name]) (hold : w.target.node old = some (.file i))
    (hnew : w.target.NotDir dest) (hmode : e.mode.val / 16384 % 2 ≠ 1)
    (hx : e.flags.val / 2 % 2 = 1 → ∃ j, w.target.node dest = some (.file j)) :
    Renames env (e.flags.val / 2 % 2 = 1) old dest w
      (Arm.renamePresent env none e old dest w).2 := by
  obtain ⟨hok, htouch, ⟨j, hj⟩, hback⟩ := renameCall_file env hc hd hdest hold hnew hx
  simp only [Arm.renamePresent, StateM.run_bind, StateM.run_pure]
  set v := (Arm.renameCall env none e old dest w).2 with hv
  have hghost : (Arm.removeGhost env old (Arm.renameCall env none e old dest w).1 v).2.dirMap =
      v.dirMap ∧ ∀ q, (Arm.removeGhost env old
        (Arm.renameCall env none e old dest w).1 v).2.target.node q =
          if env.source.pathExists old = false ∧ q = old then none else v.target.node q := by
    unfold Arm.removeGhost
    by_cases hsrc : env.source.pathExists old = false
    · rw [if_pos ⟨hok, hsrc⟩]
      refine ⟨rfl, fun q => ?_⟩
      have hfile := htouch.files old (by simp)
      simp only [StateM.run_bind, StateM.run_pure, onTarget, Fs.removeFile_node hfile, hsrc,
        true_and]
    · rw [if_neg fun h => hsrc h.2]
      exact ⟨rfl, fun q => by rw [if_neg fun h => hsrc h.1]; rfl⟩
  obtain ⟨hgdir, hgnode⟩ := hghost
  obtain ⟨hrdir, hrtarget⟩ := rememberRename_keeps (e := e) (p := dest) hmode
    (Arm.removeGhost env old (Arm.renameCall env none e old dest w).1 v).2
  have hnode : ∀ q, (Arm.rememberRename e dest (Arm.removeGhost env old
      (Arm.renameCall env none e old dest w).1 v).2).2.target.node q =
        if env.source.pathExists old = false ∧ q = old then none else v.target.node q := by
    intro q
    rw [hrtarget, hgnode]
  refine ⟨⟨hrdir.trans (hgdir.trans htouch.dirMap), fun q hq => ?_, fun q hq => ?_⟩,
    fun hsrc => ?_, fun hsrc => ?_, fun hex hsrc => ?_⟩
  · rw [hnode, if_neg fun h => hq (by simp [h.2]), htouch.frame q hq]
  · rw [hnode]
    split_ifs
    · exact .inl rfl
    · exact htouch.files q hq
  · rw [hnode]
    split_ifs with h
    · rw [h.2, h.1] at hsrc
      cases hsrc
    · simp [hj]
  · rw [hnode, if_pos ⟨hsrc, rfl⟩]
  · obtain ⟨k, hk⟩ := hback hex
    have hkeep : ¬ (env.source.pathExists old = false ∧ old = old) := by
      simp [hsrc]
    rw [hnode, if_neg hkeep, hk]
    exact Option.some_ne_none _

theorem renames_absent (hc : w.target.Closed) (hd : w.target.isDir d = true)
    (hdest : dest = d ++ [name]) (hold : w.target.node old = none) (hnew : w.target.NotDir dest)
    (hreg : env.source.pathExists dest = true → env.source.regularAt dest ≠ none)
    {exchanged : Prop} (hx : ¬ exchanged) :
    Renames env exchanged old dest w (Arm.renameAbsent env e dest w).2 := by
  subst hdest
  have hnew' : Touches {old, d ++ [name]} w w := by
    refine touches_self hc ?_
    rintro q (rfl | rfl)
    · simp [Fs.NotDir, Fs.isDir, hold]
    · exact hnew
  have hremember : ∀ v, (Arm.rememberNew e (d ++ [name]) v).2.dirMap = v.dirMap ∧
      (Arm.rememberNew e (d ++ [name]) v).2.target = v.target := by
    intro v
    unfold Arm.rememberNew
    split_ifs
    · exact updateMap_false ..
    · exact ⟨rfl, rfl⟩
  unfold Arm.renameAbsent
  by_cases hsrc : env.source.pathExists (d ++ [name]) = true
  · rw [if_pos hsrc]
    simp only [StateM.run_bind, StateM.run_pure, createParent_of_closed hc hd]
    obtain ⟨htouch, -, hfile⟩ := touches_copyFile env e hc hd hnew
    obtain ⟨hrdir, hrtarget⟩ := hremember (onTarget (Arm.copyFile env e (d ++ [name])) w).2
    obtain ⟨j, hj⟩ := hfile (hreg hsrc)
    have hwide : Touches {old, d ++ [name]} w
        (onTarget (Arm.copyFile env e (d ++ [name])) w).2 := by
      refine ⟨htouch.dirMap, fun q hq => htouch.frame q fun h => hq (.inr h), fun q hq => ?_⟩
      by_cases hqn : q = d ++ [name]
      · exact htouch.files q hqn
      · rw [htouch.frame q hqn]
        exact hnew'.files q hq
    refine ⟨hwide.keep hrdir (congrArg Fs.node hrtarget), fun _ => ?_, fun hgone => ?_,
      fun h => absurd h hx⟩
    · rw [hrtarget, hj]
      exact Option.some_ne_none _
    · have hne : old ≠ d ++ [name] := by
        rintro rfl
        rw [hsrc] at hgone
        cases hgone
      rw [hrtarget, htouch.frame old hne, hold]
  · rw [if_neg hsrc]
    simp only [StateM.run_bind, StateM.run_pure]
    obtain ⟨hrdir, hrtarget⟩ := hremember w
    refine ⟨hnew'.keep hrdir (congrArg Fs.node hrtarget), fun h => absurd h hsrc, fun _ => ?_,
      fun h => absurd h hx⟩
    rw [hrtarget, hold]

end Rename

/-! ## Attempts -/

theorem process_create (ht : e.eventType = .create) (hat : Placed e d w)
    (hex : env.config.isPathExcluded (d ++ [e.name]) = false) (hc : w.target.Closed)
    (hd : w.target.isDir d = true) (hp : w.target.NotDir (d ++ [e.name])) :
    Touches {d ++ [e.name]} w (processSingleEvent env none e w).2 ∧
      (env.pendingRenames e.inode = 0 → env.source.pathExists (d ++ [e.name]) = true →
        (processSingleEvent env none e w).2.target.node (d ++ [e.name]) ≠ none) := by
  obtain ⟨v, hrun, hdir, htarget⟩ := process_of_placed env none hat
  have harm : processSingleEvent env none e w =
      (some <$> Arm.create env none e (d ++ [e.name]) : StateM World _) v := by
    rw [hrun, processAt_ungated (by rw [ht]; rfl) hex, perform, ht]
  rw [harm]
  rw [← htarget] at hc hd hp
  obtain ⟨htouch, hfile⟩ := touches_create env ht hc hd hp
  exact ⟨⟨htouch.dirMap.trans hdir, fun q hq => (htouch.frame q hq).trans (by rw [htarget]),
    htouch.files⟩, hfile⟩

theorem copyRange_keeps (v : World) :
    (Arm.copyRange env none e p v).2.dirMap = v.dirMap ∧
      (Arm.copyRange env none e p v).2.target.node = v.target.node := by
  have hnode : ∀ (src : File) (offset length : ℕ),
      (onTarget (Fs.copyRange src offset length p) v).2.target.node = v.target.node :=
    fun _ _ _ => Fs.alterContent_node _
  unfold Arm.copyRange
  by_cases hsrc : env.source.pathExists p = true
  · rw [if_pos hsrc]
    simp only [StateM.run_bind]
    rcases (onTarget (Fs.copyRange _ _ _ p) v).1 with f | ⟨⟩
    · exact ⟨rfl, hnode ..⟩
    · simp only [true_and]
      cases (env.source.regularAt p).isSome with
      | true => exact ⟨rfl, hnode ..⟩
      | false => exact ⟨rfl, hnode ..⟩
  · rw [if_neg hsrc]
    exact ⟨rfl, rfl⟩

/-- Writing changes no names. -/
theorem process_write (env : Env) (ht : e.eventType = .write ∨ e.eventType = .writeRange) (hat : Placed e d w) :
    (processSingleEvent env none e w).2.dirMap = w.dirMap ∧
      (processSingleEvent env none e w).2.target.node = w.target.node := by
  obtain ⟨v, hrun, hdir, htarget⟩ := process_of_placed env none hat
  have hperform : (perform env none e (d ++ [e.name]) v).2.dirMap = v.dirMap ∧
      (perform env none e (d ++ [e.name]) v).2.target.node = v.target.node := by
    have harm : perform env none e (d ++ [e.name]) v =
        (some <$> Arm.copyRange env none e (d ++ [e.name]) : StateM World _) v := by
      rcases ht with ht | ht <;> rw [perform, ht]
    rw [harm]
    exact copyRange_keeps v
  rw [hrun, ← hdir, ← htarget]
  unfold processAt
  by_cases hex : env.config.isPathExcluded (d ++ [e.name]) = true
  · rw [if_pos hex]
    exact ⟨rfl, rfl⟩
  · rw [if_neg hex]
    by_cases hgate : (env.hydrating e.inode && e.eventType.isGated) = true
    · rw [if_pos hgate]
      simp only [StateM.run_ite_peek]
      by_cases hthere : v.target.pathExists (d ++ [e.name]) = true
      · simp only [hthere, if_true]
        exact hperform
      · simp only [hthere, Bool.false_eq_true, if_false, StateM.run_bind,
          resolveEventPath_of_dir hat.nonzero (hdir ▸ hat.dir) hat.name]
        exact ⟨rfl, rfl⟩
    · rw [if_neg hgate]
      exact hperform

/-- A rename whose directories are known; an exchange finds two files on the target. -/
theorem process_rename {d' : Path} {newName : String} (ht : e.eventType = .rename)
    (hat : Placed e d w) (hex : env.config.isPathExcluded (d ++ [e.name]) = false)
    (hnewName : e.newName = some newName) (hat' : e.newParentInode ≠ 0)
    (hdir' : w.dirMap e.newParentInode = some d') (hvalid : ValidName newName)
    (hc : w.target.Closed) (hd' : w.target.isDir d' = true)
    (hp : w.target.NotDir (d ++ [e.name])) (hq : w.target.NotDir (d' ++ [newName]))
    (hmode : e.mode.val / 16384 % 2 ≠ 1)
    (hreg : env.source.pathExists (d' ++ [newName]) = true →
      env.source.regularAt (d' ++ [newName]) ≠ none)
    (hx : e.flags.val / 2 % 2 = 1 → w.target.node (d ++ [e.name]) ≠ none ∧
      w.target.node (d' ++ [newName]) ≠ none) :
    Renames env (e.flags.val / 2 % 2 = 1) (d ++ [e.name]) (d' ++ [newName]) w
      (processSingleEvent env none e w).2 := by
  obtain ⟨v, hrun, hdir, htarget⟩ := process_of_placed env none hat
  rw [← htarget] at hc hd' hp hq hx
  have hrename : Renames env (e.flags.val / 2 % 2 = 1) (d ++ [e.name]) (d' ++ [newName]) v
      (Arm.rename env none e (d ++ [e.name]) v).2 := by
    simp only [Arm.rename, StateM.run_bind,
      resolveEventPath_of_dir hat.nonzero (hdir ▸ hat.dir) hat.name, Arm.renameDest, hnewName,
      resolveEventPath_of_dir hat' (hdir ▸ hdir') hvalid, createParent_of_closed hc hd']
    rcases hc.node_cases hp with hnone | ⟨i, hi⟩
    · have hgone : (peek (fun w : World => w.target.pathExists (d ++ [e.name])) v).1 = false := by
        simp [StateM.run_peek, Fs.pathExists, hnone]
      simp only [hgone, Bool.false_eq_true, if_false]
      exact renames_absent hc hd' rfl hnone hq hreg fun h => (hx h).1 hnone
    · have hthere : (peek (fun w : World => w.target.pathExists (d ++ [e.name])) v).1 = true := by
        simp [StateM.run_peek, Fs.pathExists, hi]
      simp only [hthere, if_true]
      refine renames_present hc hd' rfl hi hq hmode fun h => ?_
      rcases hc.node_cases hq with hnone | hfile
      · exact absurd hnone (hx h).2
      · exact hfile
  have harm : processSingleEvent env none e w = Arm.rename env none e (d ++ [e.name]) v := by
    rw [hrun, processAt_ungated (by rw [ht]; rfl) hex, perform, ht]
  rw [harm]
  obtain ⟨htouch, harr, hleave, hstay⟩ := hrename
  exact ⟨⟨htouch.dirMap.trans hdir, fun q hq => (htouch.frame q hq).trans (by rw [htarget]),
    htouch.files⟩, harr, hleave, hstay⟩

end Foxing
