import Foxing.CallLocality

/-!
# The footprint of an attempt

An attempt at an event touches the map entries of the event's inode and of the
directories it names, and the nodes and data at the paths it resolves to. Each
arm is shown to be local to these cells by composing the footprints of its calls.
-/
namespace Foxing

open World (cells)

variable {Z W : Set Cell} {w : World} {e : Event} {p old dest : Path}

/-- Locality of an action of the worker. -/
abbrev Local {α : Type} (Z W : Set Cell) (m : StateM World α) (w : World) : Prop :=
  cells.LocalAt Z W m w

theorem fsAgree_of_agree {v : World} (h : cells.Agree Z w v) : w.target.Agree Z v.target :=
  ⟨fun q hq => h (.node q) hq, fun i hi => h (.data i) hi⟩

theorem local_onTarget {call : Fs → CallResult × Fs} (h : Fs.CallLocal Z W call w.target) :
    Local Z W (onTarget call) w := by
  intro v hv
  obtain ⟨hres, hin, hout⟩ := h v.target (fsAgree_of_agree hv)
  refine ⟨hres, fun k hk => ?_, fun k hk => ?_⟩
  · cases k with
    | node q => exact hin.node q hk
    | data i => exact hin.data i hk
    | inode i => exact hv (.inode i) hk
    | dir i => exact hv (.dir i) hk
  · cases k with
    | node q => exact hout.node q hk
    | data i => exact hout.data i hk
    | inode i => rfl
    | dir i => rfl

theorem local_reported (fault : Option ℕ) {call : Fs → CallResult × Fs}
    (h : Fs.CallLocal Z W call w.target) : Local Z W (reported fault call) w := by
  cases fault with
  | none => exact local_onTarget h
  | some n => exact .pure _

theorem local_insertEntry (i : U64) (entry : IdentityEntry) (hi : Cell.inode i ∈ W) :
    Local Z W (modify (World.insertEntry i entry)) w := by
  refine .write (fun v hv k hk => ?_) (fun v _ k hk => ?_)
  · cases k with
    | inode j =>
      have hj : w.inodeMap j = v.inodeMap j := hv (.inode j) hk
      show Function.update w.inodeMap i _ j = Function.update v.inodeMap i _ j
      simp only [Function.update_apply, hj]
    | _ => exact hv _ hk
  · cases k with
    | inode j =>
      have hj : j ≠ i := fun heq => hk (heq ▸ hi)
      exact (Function.update_of_ne hj _ _).symm
    | _ => rfl

theorem local_insertDir (i : U64) (path : Path) (hi : Cell.dir i ∈ W) :
    Local Z W (modify (World.insertDir i path)) w := by
  refine .write (fun v hv k hk => ?_) (fun v _ k hk => ?_)
  · cases k with
    | dir j =>
      have hj : w.dirMap j = v.dirMap j := hv (.dir j) hk
      show Function.update w.dirMap i _ j = Function.update v.dirMap i _ j
      simp only [Function.update_apply, hj]
    | _ => exact hv _ hk
  · cases k with
    | dir j =>
      have hj : j ≠ i := fun heq => hk (heq ▸ hi)
      exact (Function.update_of_ne hj _ _).symm
    | _ => rfl

/-- An update of the maps that depends on, and changes, the entries of one inode. -/
structure EntryUpdate (i : U64) (g : World → World) : Prop where
  target : ∀ w, (g w).target = w.target
  inode : ∀ w j, j ≠ i → (g w).inodeMap j = w.inodeMap j
  dir : ∀ w j, j ≠ i → (g w).dirMap j = w.dirMap j
  self : ∀ w v, w.inodeMap i = v.inodeMap i → w.dirMap i = v.dirMap i →
    (g w).inodeMap i = (g v).inodeMap i ∧ (g w).dirMap i = (g v).dirMap i

theorem EntryUpdate.local {i : U64} {g : World → World} (h : EntryUpdate i g) (hWZ : W ⊆ Z)
    (hi : Cell.inode i ∈ W) (hd : Cell.dir i ∈ W) : Local Z W (modify g) w := by
  refine .write (fun v hv k hk => ?_) (fun v _ k hk => ?_)
  · have hself := h.self w v (hv (.inode i) (hWZ hi)) (hv (.dir i) (hWZ hd))
    cases k with
    | node q =>
      show (g w).target.node q = (g v).target.node q
      rw [h.target, h.target]
      exact hv (.node q) hk
    | data j =>
      show (g w).target.data j = (g v).target.data j
      rw [h.target, h.target]
      exact hv (.data j) hk
    | inode j =>
      show (g w).inodeMap j = (g v).inodeMap j
      by_cases hj : j = i
      · subst hj
        exact hself.1
      · rw [h.inode w j hj, h.inode v j hj]
        exact hv (.inode j) hk
    | dir j =>
      show (g w).dirMap j = (g v).dirMap j
      by_cases hj : j = i
      · subst hj
        exact hself.2
      · rw [h.dir w j hj, h.dir v j hj]
        exact hv (.dir j) hk
  · cases k with
    | node q => exact (congrArg (fun t => t.node q) (h.target v)).symm
    | data j => exact (congrArg (fun t => t.data j) (h.target v)).symm
    | inode j => exact (h.inode v j fun heq => hk (heq ▸ hi)).symm
    | dir j => exact (h.dir v j fun heq => hk (heq ▸ hd)).symm

theorem updateMap_entryUpdate (i : U64) (path : Path) (gen : U32) (isDir : Bool) (ts seq : U64) :
    EntryUpdate i (World.updateMap i path gen isDir ts seq) := by
  constructor
  · intro w
    unfold World.updateMap
    cases isDir <;> cases hw : w.inodeMap i <;> split_ifs <;>
      simp [World.insertDir, World.insertEntry, hw]
  · intro w j hj
    unfold World.updateMap
    cases isDir <;> cases hw : w.inodeMap i <;> split_ifs <;>
      simp [World.insertDir, World.insertEntry, hw, hj]
  · intro w j hj
    unfold World.updateMap
    cases isDir <;> cases hw : w.inodeMap i <;> split_ifs <;>
      simp [World.insertDir, World.insertEntry, hw, hj]
  · intro w v hi hd
    unfold World.updateMap
    cases isDir <;> cases hw : v.inodeMap i <;> split_ifs <;>
      simp [World.insertDir, World.insertEntry, hi, hd, hw]

theorem updateMapAfterRename_entryUpdate (i : U64) (path : Path) (gen : U32) (isDir : Bool)
    (ts seq : U64) : EntryUpdate i (World.updateMapAfterRename i path gen isDir ts seq) := by
  constructor
  · intro w
    unfold World.updateMapAfterRename
    cases isDir <;> cases hw : w.inodeMap i <;> split_ifs <;>
      simp [World.insertDir, World.insertEntry]
  · intro w j hj
    unfold World.updateMapAfterRename
    cases isDir <;> cases hw : w.inodeMap i <;> split_ifs <;>
      simp [World.insertDir, World.insertEntry, hj]
  · intro w j hj
    unfold World.updateMapAfterRename
    cases isDir <;> cases hw : w.inodeMap i <;> split_ifs <;>
      simp [World.insertDir, World.insertEntry, hj]
  · intro w v hi hd
    unfold World.updateMapAfterRename
    cases isDir <;> cases hw : v.inodeMap i <;> split_ifs <;>
      simp [World.insertDir, World.insertEntry, hi, hd, hw]

theorem removeEntry_entryUpdate (i : U64) : EntryUpdate i (World.removeEntry i) := by
  constructor
  · intro w
    unfold World.removeEntry
    cases hw : w.inodeMap i <;> split_ifs <;> simp [World.removeDir, World.insertEntry]
  · intro w j hj
    unfold World.removeEntry
    cases hw : w.inodeMap i <;> split_ifs <;> simp [World.removeDir, World.insertEntry, hj]
  · intro w j hj
    unfold World.removeEntry
    cases hw : w.inodeMap i <;> split_ifs <;> simp [World.removeDir, World.insertEntry, hj]
  · intro w v hi hd
    unfold World.removeEntry
    cases hw : v.inodeMap i <;> split_ifs <;>
      simp [World.removeDir, World.insertEntry, hi, hd, hw]

/-! ## Resolving paths -/

/-- The cells that looking up a directory may use: its entry is added to the
directory map only when it is not there and the inode map knows it. -/
structure DirRoom (i : U64) (Z W : Set Cell) (w : World) : Prop where
  dir : Cell.dir i ∈ Z
  inode : Cell.inode i ∈ Z
  own : Cell.inode i ∈ W → Cell.dir i ∈ W
  learned : w.dirMap i = none → w.inodeMap i ≠ none → Cell.dir i ∈ W

theorem DirRoom.of_agree {i : U64} {v : World} (h : DirRoom i Z W w) (hv : cells.Agree Wᶜ w v) :
    DirRoom i Z W v := by
  refine ⟨h.dir, h.inode, h.own, fun hnone hknown => ?_⟩
  by_contra hW
  have hdir : w.dirMap i = v.dirMap i := hv (.dir i) hW
  have hinode : w.inodeMap i = v.inodeMap i := hv (.inode i) fun h' => hW (h.own h')
  exact hW (h.learned (hdir.trans hnone) (hinode ▸ hknown))

theorem DirRoom.after {α : Type} {m : StateM World α} {i : U64} (h : DirRoom i Z W w)
    (hm : Local Z W m w) : DirRoom i Z W (m w).2 := h.of_agree hm.frame

theorem local_resolveParent {i : U64} (h : DirRoom i Z W w) : Local Z W (resolveParent i) w := by
  refine .bind_peek (fun v hv => (hv (.dir i) h.dir).symm) ?_
  cases hd : w.dirMap i with
  | some path => exact .pure _
  | none =>
    refine .bind_peek (fun v hv => (hv (.inode i) h.inode).symm) ?_
    cases hi : w.inodeMap i with
    | none => exact .pure _
    | some entry =>
      cases hp : entry.primaryPath with
      | none =>
        simp only [hp]
        exact .pure _
      | some path =>
        simp only [hp]
        exact .bind_modify (local_insertDir i path (h.learned hd (by simp [hi]))) (.pure _)

theorem local_resolveEventPath {i : U64} (name : String) (h : DirRoom i Z W w) :
    Local Z W (resolveEventPath i name) w := by
  unfold resolveEventPath
  split_ifs
  · exact .pure _
  · refine .bind (local_resolveParent h) ?_
    cases (resolveParent i w).1 with
    | none => exact .pure _
    | some base =>
      cases base with
      | none => exact .pure _
      | some path => exact .pure _

/-- The map cells that an attempt at an event may use. -/
structure MapRoom (e : Event) (Z W : Set Cell) (w : World) : Prop where
  sub : W ⊆ Z
  inode : Cell.inode e.inode ∈ W
  dir : Cell.dir e.inode ∈ W
  parent : DirRoom e.parentInode Z W w
  newParent : DirRoom e.newParentInode Z W w

theorem MapRoom.after {α : Type} {m : StateM World α} (h : MapRoom e Z W w)
    (hm : Local Z W m w) : MapRoom e Z W (m w).2 :=
  ⟨h.sub, h.inode, h.dir, h.parent.after hm, h.newParent.after hm⟩

theorem specificRelPath_eq {v : World} (h : MapRoom e Z W w) (hv : cells.Agree Z w v) :
    specificRelPath e v = specificRelPath e w := by
  have hd : w.dirMap e.parentInode = v.dirMap e.parentInode := hv (.dir _) h.parent.dir
  rw [specificRelPath, specificRelPath, hd]

theorem local_refreshGeneration (h : MapRoom e Z W w) : Local Z W (refreshGeneration e) w := by
  refine .bind_peek (fun v hv => (hv (.inode _) (h.sub h.inode)).symm) ?_
  cases w.inodeMap e.inode with
  | none => exact .pure _
  | some entry =>
    simp only
    split_ifs
    · refine .bind_peek (fun v hv => specificRelPath_eq h hv) ?_
      exact local_insertEntry _ _ h.inode
    · exact .pure _

theorem local_resolveKnown (entry : IdentityEntry) (h : MapRoom e Z W w) :
    Local Z W (resolveKnown e entry) w := by
  refine .bind_modify (local_insertEntry _ _ h.inode) ?_
  have h' : MapRoom e Z W (w.insertEntry e.inode (entry.recordAccess e.seqNum)) :=
    h.after (local_insertEntry _ _ h.inode)
  refine .bind_peek (fun v hv => specificRelPath_eq h' hv) ?_
  split_ifs
  · exact .pure _
  · cases specificRelPath e (w.insertEntry e.inode (entry.recordAccess e.seqNum)) with
    | some relPath => exact .bind_modify (local_insertEntry _ _ h.inode) (.pure _)
    | none =>
      cases (entry.recordAccess e.seqNum).primaryPath with
      | none => exact .pure _
      | some relPath => exact .pure _

theorem local_resolveUnknown (h : MapRoom e Z W w) : Local Z W (resolveUnknown e) w := by
  have hbase : Local Z W (resolveOwnParent e) w := by
    unfold resolveOwnParent
    split_ifs
    · exact local_resolveParent h.parent
    · exact .pure _
  refine .bind hbase ?_
  cases (resolveOwnParent e w).1 with
  | none => exact .pure _
  | some base => exact .pure _

theorem local_resolveTarget (h : MapRoom e Z W w) : Local Z W (resolveTarget e) w := by
  refine .bind_peek (fun v hv => (hv (.inode _) (h.sub h.inode)).symm) ?_
  cases w.inodeMap e.inode with
  | some entry => exact local_resolveKnown entry h
  | none => exact local_resolveUnknown h

/-! ## Arms -/

/-- The cells of the target that an arm with path `p` may use. -/
structure PathRoom (e : Event) (p : Path) (Z W : Set Cell) (t : Fs) : Prop where
  sub : W ⊆ Z
  near : NodesNear p Z
  node : Cell.node p ∈ W
  made : Cell.data (.made e.seqNum p) ∈ W
  data : t.DataAt p W

/-- Missing directories on the way to a path may be made. -/
def AncestorRoom (p : Path) (W : Set Cell) (t : Fs) : Prop :=
  ∀ q, q <+: p → t.node q = none → Cell.node q ∈ W

theorem AncestorRoom.after {α : Type} {m : StateM World α} (h : AncestorRoom p W w.target)
    (hm : Local Z W m w) : AncestorRoom p W (m w).2.target := by
  intro q hq hnone
  by_contra hW
  have hsame : (m w).2.target.node q = w.target.node q := hm.frame_get hW
  exact hW (h q hq (hsame.symm.trans hnone))

theorem PathRoom.of_files {t t' : Fs} (h : PathRoom e p Z W t)
    (hfile : ∀ i, t'.node p = some (.file i) →
      t.node p = some (.file i) ∨ i = .made e.seqNum p) : PathRoom e p Z W t' := by
  refine ⟨h.sub, h.near, h.node, h.made, fun i hi => ?_⟩
  obtain hold | rfl := hfile i hi
  · exact h.data i hold
  · exact h.made

theorem local_createParent (env : Env) (hnear : NodesNear p Z)
    (ha : AncestorRoom p W w.target) : Local Z W (createParent env p) w := by
  unfold createParent Path.parent?
  split_ifs with hp
  · exact .pure _
  · have hpre : p.dropLast <+: p := List.dropLast_prefix p
    refine .bind (local_onTarget (Fs.createDirAll_local _ (fun q hq => ?_) fun q hq hn => ?_))
      (.pure _)
    · exact hnear q (.inr (hq.trans hpre))
    · exact ha q (hq.trans hpre) hn

theorem createParent_file (env : Env) {q : Path} {i : FileId}
    (h : (createParent env p w).2.target.node q = some (.file i)) :
    w.target.node q = some (.file i) := by
  unfold createParent Path.parent? at h
  split_ifs at h with hp
  · exact h
  · exact Fs.createDirAll_file env.freshDir h

theorem PathRoom.createParent (env : Env) {q : Path} (h : PathRoom e p Z W w.target) :
    PathRoom e p Z W (createParent env q w).2.target :=
  h.of_files fun _ hi => .inl (createParent_file env hi)

theorem local_remember (isDir : Bool) (hm : MapRoom e Z W w) :
    Local Z W (Arm.remember e p isDir) w :=
  (updateMap_entryUpdate ..).local hm.sub hm.inode hm.dir

section Arms
variable (env : Env) (fault : Option ℕ)

theorem local_copyRange (hp : PathRoom e p Z W w.target) :
    Local Z W (Arm.copyRange env fault e p) w := by
  unfold Arm.copyRange
  split_ifs
  · refine .bind (local_onTarget (Fs.alterContent_local _ hp.near hp.sub hp.data)) ?_
    split
    · split_ifs
      · exact .pure _
      · exact .pure _
    · exact .pure _
  · exact .pure _

theorem local_copyFile (hp : PathRoom e p Z W w.target) :
    Fs.CallLocal Z W (Arm.copyFile env e p) w.target := by
  intro t' h
  unfold Arm.copyFile
  split
  · exact Fs.overwrite_local _ _ _ hp.near hp.sub hp.node hp.made hp.data t' h
  · exact .keep h _

theorem local_copyFailing (n : ℕ) (hp : PathRoom e p Z W w.target) :
    Fs.CallLocal Z W (Arm.copyFailing env e p n) w.target := by
  intro t' h
  unfold Arm.copyFailing
  split
  · rename_i src _
    have hcopy := Fs.overwrite_local env.freshFile id
      (File.empty.copyRange src.bytes 0 (min n src.length)) hp.near hp.sub hp.node hp.made
      hp.data t' h
    exact ⟨rfl, hcopy.agree, hcopy.frame⟩
  · exact .keep h _

theorem local_applyMetadata (hp : PathRoom e p Z W w.target) :
    Fs.CallLocal Z W (Arm.applyMetadata env p) w.target := by
  intro t' h
  unfold Arm.applyMetadata
  split
  · exact Fs.alterMeta_local _ hp.near hp.sub hp.node hp.data t' h
  · exact .keep h _

theorem local_remove (hm : MapRoom e Z W w) (hp : PathRoom e p Z W w.target) :
    Local Z W (Arm.remove fault e p) w := by
  have hcall : Fs.CallLocal Z W (if e.eventType = .rmdir then Fs.removeDir p else Fs.removeFile p)
      w.target := by
    split_ifs
    · exact Fs.removeDir_local hp.near hp.node
    · exact Fs.removeFile_local hp.near hp.node
  refine .bind (local_reported fault hcall) ?_
  split
  · exact .bind_modify ((removeEntry_entryUpdate _).local hm.sub hm.inode hm.dir) (.pure _)
  · exact .pure _

theorem local_makeEntry (made result : CallResult) (hm : MapRoom e Z W w)
    (hp : PathRoom e p Z W w.target) : Local Z W (Arm.makeEntry env e p made result) w := by
  unfold Arm.makeEntry
  split
  · exact .pure _
  · have howner : Local Z W (onTarget (Fs.setOwnership e.uid e.gid p)) w :=
      local_onTarget (Fs.alterMeta_local _ hp.near hp.sub hp.node hp.data)
    refine .bind howner ?_
    split
    · exact .pure _
    · have hp' : PathRoom e p Z W (onTarget (Fs.setOwnership e.uid e.gid p) w).2.target :=
        hp.of_files fun _ hi => .inl (Fs.alterMeta_file _ hi)
      have hmeta := local_onTarget (local_applyMetadata env hp')
      exact .bind hmeta (.bind (local_remember _ ((hm.after howner).after hmeta)) (.pure _))

theorem local_mkdir (hm : MapRoom e Z W w) (hp : PathRoom e p Z W w.target)
    (ha : AncestorRoom p W w.target) : Local Z W (Arm.mkdir env fault e p) w := by
  have hparent := local_createParent env hp.near ha
  have hdir : Local Z W (onTarget (Fs.createDirAll env.freshDir p)) (createParent env p w).2 :=
    local_onTarget (Fs.createDirAll_local _ (fun q hq => hp.near q (.inr hq)) (ha.after hparent))
  refine .bind hparent (.bind hdir ?_)
  have hp' : PathRoom e p Z W
      (onTarget (Fs.createDirAll env.freshDir p) (createParent env p w).2).2.target :=
    (hp.createParent env).of_files fun _ hi => .inl (Fs.createDirAll_file env.freshDir hi)
  split
  · exact local_makeEntry env _ _ ((hm.after hparent).after hdir) hp'
  · exact .pure _

theorem local_mknod (hm : MapRoom e Z W w) (hp : PathRoom e p Z W w.target)
    (ha : AncestorRoom p W w.target) : Local Z W (Arm.mknod env fault e p) w := by
  have hparent := local_createParent env hp.near ha
  have hp' := hp.createParent env (q := p)
  have hcall : Local Z W (reported fault (Fs.mknod (.made e.seqNum p) env.freshFile e.mode e.devId p))
      (createParent env p w).2 :=
    local_reported fault (Fs.mknod_local _ _ _ hp'.near hp'.node hp'.made)
  refine .bind hparent (.bind hcall (local_makeEntry env _ _ ((hm.after hparent).after hcall) ?_))
  refine hp'.of_files fun i hi => ?_
  cases fault with
  | some n => exact .inl hi
  | none => exact Fs.mknod_file _ _ _ hi

theorem local_createEmpty (f : Failure) (hm : MapRoom e Z W w) (hp : PathRoom e p Z W w.target)
    (ha : AncestorRoom p W w.target) : Local Z W (Arm.createEmpty env e p f) w := by
  have hparent := local_createParent env hp.near ha
  have hp' := hp.createParent env (q := p)
  have hcall : Local Z W (onTarget (Fs.overwrite (.made e.seqNum p) env.freshFile id .empty p))
      (createParent env p w).2 :=
    local_onTarget (Fs.overwrite_local _ _ _ hp'.near hp'.sub hp'.node hp'.made hp'.data)
  refine .bind hparent (.bind hcall (local_makeEntry env _ _ ((hm.after hparent).after hcall) ?_))
  exact hp'.of_files fun i hi => Fs.overwrite_file _ _ _ hi

/-- A copy that succeeds or fails on the way. -/
theorem local_copy (hp : PathRoom e p Z W w.target) :
    Local Z W (onTarget (match fault with
      | none => Arm.copyFile env e p
      | some n => Arm.copyFailing env e p n)) w := by
  cases fault with
  | none => exact local_onTarget (local_copyFile env hp)
  | some n => exact local_onTarget (local_copyFailing env n hp)

theorem local_create (hm : MapRoom e Z W w) (hp : PathRoom e p Z W w.target)
    (ha : AncestorRoom p W w.target) : Local Z W (Arm.create env fault e p) w := by
  unfold Arm.create
  split_ifs
  · exact .bind (local_remember _ hm) (.pure _)
  · have hparent := local_createParent env hp.near ha
    have hp' := hp.createParent env (q := p)
    have hcall := local_copy env fault hp'
    refine .bind hparent (.bind hcall ?_)
    have hm' := (hm.after hparent).after hcall
    split
    · exact .bind (local_remember _ hm') (.pure _)
    · refine local_createEmpty env _ hm' ?_ ((ha.after hparent).after hcall)
      refine hp'.of_files fun i hi => ?_
      cases fault with
      | none =>
        simp only [onTarget, Arm.copyFile] at hi
        split at hi
        · exact Fs.overwrite_file _ _ _ hi
        · exact .inl hi
      | some n =>
        simp only [onTarget, Arm.copyFailing] at hi
        split at hi
        · exact Fs.overwrite_file _ _ _ hi
        · exact .inl hi
  · exact .bind (local_remember _ hm) (.pure _)

theorem local_link (hm : MapRoom e Z W w) (hp : PathRoom e p Z W w.target)
    (hlink : ∀ entry existing, w.inodeMap e.inode = some entry →
      entry.primaryPath = some existing → NodesNear existing Z) :
    Local Z W (Arm.link fault e p) w := by
  refine .bind_peek (fun v hv => (hv (.inode _) (hm.sub hm.inode)).symm) ?_
  cases hentry : w.inodeMap e.inode with
  | none => exact .pure _
  | some entry =>
    cases hex : entry.primaryPath with
    | none =>
      simp only [hex]
      exact .pure _
    | some existing =>
      simp only [hex]
      have hcall := local_reported fault
        (Fs.hardLink_local (t := w.target) (hlink entry existing hentry hex) hp.near hp.node)
      refine .bind hcall ?_
      split
      · exact .bind (local_remember _ (hm.after hcall)) (.pure _)
      · exact .pure _

theorem local_symlink (hm : MapRoom e Z W w) (hp : PathRoom e p Z W w.target)
    (ha : AncestorRoom p W w.target) : Local Z W (Arm.symlink env fault e p) w := by
  unfold Arm.symlink
  split
  · have hparent := local_createParent env hp.near ha
    have hremove : Local Z W (onTarget (Fs.removeFile p)) (createParent env p w).2 :=
      local_onTarget (Fs.removeFile_local hp.near hp.node)
    refine .bind hparent (.bind hremove ?_)
    rename_i dest _ _
    have hcall : Local Z W
        (reported fault (Fs.symlink dest (env.freshFile.setOwnership e.uid e.gid) p))
        (onTarget (Fs.removeFile p) (createParent env p w).2).2 :=
      local_reported fault (Fs.symlink_local _ _ hp.near hp.node)
    refine .bind hcall ?_
    split
    · exact .bind (local_remember _ (((hm.after hparent).after hremove).after hcall)) (.pure _)
    · exact .pure _
  · exact .pure _
  · exact .pure _

theorem local_openFile (hp : PathRoom e p Z W w.target) :
    Local Z W (Arm.openFile fault p) w := by
  refine .bind (local_reported fault fun t' h => ?_) (.pure _)
  have hex := h.pathExists (hp.sub hp.node)
  have hmiss := h.missing hp.near
  simp only [hex, hmiss]
  exact .keep h _

/-! ### Renames -/

/-- The cells of the target that a rename from `old` to `dest` may use. -/
structure RenameRoom (e : Event) (old dest : Path) (Z W : Set Cell) (t : Fs) : Prop where
  near : NodesNear old Z
  below : NodesBelow old W
  destBelow : NodesBelow dest W
  path : PathRoom e dest Z W t
  ancestors : AncestorRoom dest W t

theorem local_renameAbsent (hm : MapRoom e Z W w) (hp : PathRoom e p Z W w.target)
    (ha : AncestorRoom p W w.target) : Local Z W (Arm.renameAbsent env e p) w := by
  have hremember : ∀ v, MapRoom e Z W v → Local Z W (Arm.rememberNew e p) v := by
    intro v hv
    unfold Arm.rememberNew
    split_ifs
    · exact local_remember _ hv
    · exact .pure _
  unfold Arm.renameAbsent
  split_ifs with hex
  · have hparent := local_createParent env hp.near ha
    have hcopy := local_onTarget (local_copyFile env (hp.createParent env (q := p)))
    exact .bind hparent (.bind hcopy
      (.bind (hremember _ ((hm.after hparent).after hcopy)) (.pure _)))
  · exact .bind (hremember _ hm) (.pure _)

theorem local_renameCall (hr : RenameRoom e old dest Z W w.target) :
    Local Z W (Arm.renameCall env fault e old dest) w := by
  have hnear := hr.path.near
  have hparent := local_createParent env hnear hr.ancestors
  refine .bind hparent ?_
  have hcall : Local Z W (reported fault
      (if e.flags.val / 2 % 2 = 1 then Fs.exchange old dest else Fs.rename old dest))
      (createParent env dest w).2 := by
    refine local_reported fault ?_
    split_ifs
    · exact Fs.exchange_local hr.near hnear hr.below hr.destBelow
    · exact Fs.rename_local hr.near hnear hr.below hr.destBelow
  refine .bind hcall ?_
  split
  · exact .bind (local_onTarget (Fs.removeFile_local hnear hr.path.node))
      (local_onTarget (Fs.rename_local hr.near hnear hr.below hr.destBelow))
  · exact .pure _

theorem local_removeGhost (r : CallResult) (hnear : NodesNear old Z) (hW : NodesBelow old W) :
    Local Z W (Arm.removeGhost env old r) w := by
  unfold Arm.removeGhost
  split_ifs
  · exact .bind (local_onTarget (Fs.removeFile_local hnear (hW old List.prefix_rfl))) (.pure _)
  · exact .pure _

theorem local_rememberRename (hm : MapRoom e Z W w) :
    Local Z W (Arm.rememberRename e dest) w := by
  unfold Arm.rememberRename
  split_ifs
  · exact (updateMapAfterRename_entryUpdate ..).local hm.sub hm.inode hm.dir
  · exact .pure _

theorem local_renamePresent (hm : MapRoom e Z W w) (hr : RenameRoom e old dest Z W w.target) :
    Local Z W (Arm.renamePresent env fault e old dest) w := by
  have hcall := local_renameCall env fault hr
  have hghost := local_removeGhost env (w := (Arm.renameCall env fault e old dest w).2)
    (Arm.renameCall env fault e old dest w).1 hr.near hr.below
  exact .bind hcall (.bind hghost
    (.bind (local_rememberRename ((hm.after hcall).after hghost)) (.pure _)))

theorem local_renameDest (hm : MapRoom e Z W w) : Local Z W (Arm.renameDest e p) w := by
  unfold Arm.renameDest
  split
  · exact local_resolveEventPath _ hm.newParent
  · exact .pure _

/-- The paths of a rename are resolved one after the other. -/
theorem local_rename (hm : MapRoom e Z W w)
    (hr : ∀ old dest, (resolveEventPath e.parentInode e.name w).1 = some old →
      (Arm.renameDest e p (resolveEventPath e.parentInode e.name w).2).1 = some dest →
      RenameRoom e old dest Z W
        (Arm.renameDest e p (resolveEventPath e.parentInode e.name w).2).2.target) :
    Local Z W (Arm.rename env fault e p) w := by
  have hfirst : Local Z W (resolveEventPath e.parentInode e.name) w :=
    local_resolveEventPath _ hm.parent
  have hm₁ := hm.after hfirst
  refine .bind hfirst ?_
  cases hold : (resolveEventPath e.parentInode e.name w).1 with
  | none => exact .pure _
  | some old =>
    have hsecond := local_renameDest (p := p) hm₁
    have hm₂ := hm₁.after hsecond
    refine .bind hsecond ?_
    cases hdest : (Arm.renameDest e p (resolveEventPath e.parentInode e.name w).2).1 with
    | none => exact .pure _
    | some dest =>
      have hroom := hr old dest hold hdest
      have hparent := local_createParent env hroom.path.near hroom.ancestors
      have hm₃ := hm₂.after hparent
      have hroom' : RenameRoom e old dest Z W (createParent env dest
          (Arm.renameDest e p (resolveEventPath e.parentInode e.name w).2).2).2.target :=
        ⟨hroom.near, hroom.below, hroom.destBelow, hroom.path.createParent env,
          hroom.ancestors.after hparent⟩
      refine .bind hparent (.bind_peek (fun v hv => ?_) ?_)
      · exact (fsAgree_of_agree hv).pathExists (hroom.near old (.inl List.prefix_rfl))
      · split_ifs
        · exact .bind (local_renamePresent env fault hm₃ hroom') (.pure _)
        · exact .bind (local_renameAbsent env hm₃ hroom'.path hroom'.ancestors) (.pure _)

theorem local_renameIncomplete (hm : MapRoom e Z W w) :
    Local Z W (Arm.renameIncomplete env e) w := by
  refine .bind_peek (fun v hv => (hv (.inode _) (hm.sub hm.inode)).symm) ?_
  split_ifs
  · exact .pure _
  · split
    · exact .pure _
    · split
      · exact .bind_modify ((updateMap_entryUpdate ..).local hm.sub hm.inode hm.dir) (.pure _)
      · exact .pure _

end Arms

/-! ## The whole attempt -/

/-- The events that make the missing directories of their path. -/
def EventType.makesParents : EventType → Bool
  | .mkdir | .create | .mknod | .symlink => true
  | _ => false

/-- The cells of the target that the arm of an event may use, in the state in
which its path has been resolved to `p`. -/
structure ArmRoom (e : Event) (p : Path) (Z W : Set Cell) (w : World) : Prop where
  path : e.eventType ≠ .rename → PathRoom e p Z W w.target
  ancestors : e.eventType.makesParents = true → AncestorRoom p W w.target
  link : e.eventType = .link → ∀ entry existing, w.inodeMap e.inode = some entry →
    entry.primaryPath = some existing → NodesNear existing Z
  rename : e.eventType = .rename → ∀ old dest,
    (resolveEventPath e.parentInode e.name w).1 = some old →
    (Arm.renameDest e p (resolveEventPath e.parentInode e.name w).2).1 = some dest →
    RenameRoom e old dest Z W w.target

section Attempt
variable (env : Env) (fault : Option ℕ)

/-- The cells of the two maps. -/
def mapCells : Set Cell := {c | (∃ i, c = .inode i) ∨ ∃ i, c = .dir i}

theorem mapRoom_mapCells (e : Event) (w : World) : MapRoom e Set.univ mapCells w where
  sub := Set.subset_univ _
  inode := .inl ⟨_, rfl⟩
  dir := .inr ⟨_, rfl⟩
  parent := ⟨trivial, trivial, fun _ => .inr ⟨_, rfl⟩, fun _ _ => .inr ⟨_, rfl⟩⟩
  newParent := ⟨trivial, trivial, fun _ => .inr ⟨_, rfl⟩, fun _ _ => .inr ⟨_, rfl⟩⟩

/-- An action that writes to the maps only leaves the target alone. -/
theorem target_of_local {α : Type} {m : StateM World α} (h : Local Z mapCells m w) :
    (m w).2.target = w.target := by
  refine Fs.ext' (fun q => h.frame_get (k := .node q) ?_) (fun i => h.frame_get (k := .data i) ?_)
  · rintro (⟨j, hj⟩ | ⟨j, hj⟩) <;> cases hj
  · rintro (⟨j, hj⟩ | ⟨j, hj⟩) <;> cases hj

theorem resolveEventPath_target (i : U64) (name : String) (w : World) :
    (resolveEventPath i name w).2.target = w.target :=
  target_of_local (local_resolveEventPath name
    ⟨Set.mem_univ _, Set.mem_univ _, fun _ => .inr ⟨_, rfl⟩, fun _ _ => .inr ⟨_, rfl⟩⟩)

theorem renameDest_target (e : Event) (p : Path) (w : World) :
    (Arm.renameDest e p w).2.target = w.target :=
  target_of_local (local_renameDest (mapRoom_mapCells e w))

theorem local_perform (hm : MapRoom e Z W w) (hr : ArmRoom e p Z W w) :
    Local Z W (perform env fault e p) w := by
  unfold perform
  cases ht : e.eventType with
  | rename =>
    refine local_rename env fault hm fun old dest hold hdest => ?_
    rw [renameDest_target, resolveEventPath_target]
    exact hr.rename ht old dest hold hdest
  | renameIncomplete => exact local_renameIncomplete env hm
  | link => exact local_link fault hm (hr.path (by simp [ht])) (hr.link ht)
  | write | writeRange | clone => exact .map _ (local_copyRange env fault (hr.path (by simp [ht])))
  | unlink | rmdir => exact .map _ (local_remove fault hm (hr.path (by simp [ht])))
  | mkdir =>
    exact .map _ (local_mkdir env fault hm (hr.path (by simp [ht])) (hr.ancestors (by simp [ht]; rfl)))
  | create =>
    exact .map _ (local_create env fault hm (hr.path (by simp [ht])) (hr.ancestors (by simp [ht]; rfl)))
  | mknod =>
    exact .map _ (local_mknod env fault hm (hr.path (by simp [ht])) (hr.ancestors (by simp [ht]; rfl)))
  | symlink =>
    exact .map _ (local_symlink env fault hm (hr.path (by simp [ht])) (hr.ancestors (by simp [ht]; rfl)))
  | truncate | fallocate =>
    have hp := hr.path (by simp [ht])
    exact .map _ (.bind (local_reported fault
      (Fs.alterContent_local _ hp.near hp.sub hp.data)) (.pure _))
  | chmod | chown =>
    have hp := hr.path (by simp [ht])
    exact .map _ (.bind (local_reported fault
      (Fs.alterMeta_local _ hp.near hp.sub hp.node hp.data)) (.pure _))
  | utimes =>
    have hp := hr.path (by simp [ht])
    exact .map _ (.bind (local_reported fault (local_applyMetadata env hp)) (.pure _))
  | setFlags | lock | flock => exact .map _ (local_openFile fault (hr.path (by simp [ht])))
  | setXattr => exact .pure _
  | removeXattr => exact .pure _
  | fsync => exact .pure _
  | barrier => exact .pure _
  | sequenceGap => exact .pure _
  | unknown => exact .pure _

theorem local_processAt (hm : MapRoom e Z W w) (hr : ArmRoom e p Z W w) :
    Local Z W (processAt env fault e p) w := by
  unfold processAt
  split_ifs with hex hgate
  · exact .pure _
  · have hne : e.eventType ≠ .rename := by
      intro heq
      simp [heq, EventType.isGated] at hgate
    refine .bind_peek (fun v hv => ?_) ?_
    · exact (fsAgree_of_agree hv).pathExists ((hr.path hne).near p (.inl List.prefix_rfl))
    · split_ifs
      · exact local_perform env fault hm hr
      · refine .bind (local_resolveEventPath _ hm.parent) ?_
        split
        · exact .pure _
        · exact .pure _
  · exact local_perform env fault hm hr

theorem local_resolution (hm : MapRoom e Z W w) : Local Z W (resolution e) w :=
  .bind (local_refreshGeneration hm) (local_resolveTarget (hm.after (local_refreshGeneration hm)))

theorem resolution_target (e : Event) (w : World) : (resolution e w).2.target = w.target :=
  target_of_local (local_resolution (mapRoom_mapCells e w))

/-- An attempt stays within the map cells of its event and the cells of the
target around the path it is resolved to. -/
theorem local_processSingleEvent (hm : MapRoom e Z W w)
    (hr : ∀ p, (resolution e w).1.bind ResolveResult.path? = some p →
      ArmRoom e p Z W (resolution e w).2) :
    Local Z W (processSingleEvent env fault e) w := by
  have hres := local_resolution hm
  have hm' := hm.after hres
  refine .bind hres ?_
  cases hr₁ : (resolution e w).1 with
  | none => exact .pure _
  | some r =>
    rw [hr₁] at hr
    cases r with
    | securityBlock => exact .pure _
    | success p _ _ | needsRepair p => exact local_processAt env fault hm' (hr p rfl)

end Attempt

end Foxing
