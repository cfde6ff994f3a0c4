import Foxing.TargetNames

/-!
# The calls of a rename

The arm for renames with an outcome for each of its calls. A check whether a path exists
counts a failure as no and follows a symbolic link, of which is given whether it leads to
something. Directories may be made only part of the way, and a copy may stop before or
after it has opened its destination. Where nothing fails the arm is the one of a single
attempt. A rename or an exchange works or fails as a whole.
-/
namespace Foxing

inductive Lookup where
  | fails
  | follows (leads : Bool)
  deriving DecidableEq, Repr

/-- Whether a check finds something at a path with the given node. -/
def Lookup.sees : Lookup → Option Node → Bool
  | .fails, _ => false
  | .follows leads, some (.symlink ..) => leads
  | .follows _, n => n.isSome

/-- What a copy does with the file it has opened, if it gets that far. -/
inductive FileCopy where
  | fails
  | leaves (content : File)
  | whole

/-- The outcomes, in the order of the arm. Of directories that are made the depth is given
down to which they are, of a link in the source the mode and content of what it leads to. -/
structure RenameCalls where
  parent : Option ℕ
  oldOnTarget : Lookup
  newOnSource : Lookup
  parentAgain : Option ℕ
  linked : Option (U32 × File)
  copy : FileCopy
  renameParent : Option ℕ
  rename : Option Failure
  removesDest : Bool
  retry : Option Failure
  oldOnSource : Lookup
  removesGhost : Bool
  ghostOnTarget : Lookup
  removesGhostAgain : Bool

/-- Nothing fails, and no link leads to anything. -/
def RenameCalls.fine : RenameCalls where
  parent := none
  oldOnTarget := .follows false
  newOnSource := .follows false
  parentAgain := none
  linked := none
  copy := .whole
  renameParent := none
  rename := none
  removesDest := true
  retry := none
  oldOnSource := .follows false
  removesGhost := true
  ghostOnTarget := .follows false
  removesGhostAgain := true

/-- The directory of a path is made, perhaps only some of its ancestors. -/
def makeParent (env : Env) (depth : Option ℕ) (p : Path) (t : Fs) : Fs :=
  match Path.parent? p with
  | none => t
  | some a => (t.createDirAll env.freshDir (depth.elim a a.take)).2

/-- A call that fails has no effect. -/
def attempted (fault : Option Failure) (call : Fs → CallResult × Fs) (t : Fs) :
    CallResult × Fs :=
  match fault with
  | none => call t
  | some f => (.error f, t)

namespace RenameCalls
variable (calls : RenameCalls) (env : Env) (e : Event) (old dest : Path)

/-- The mode and content that a copy reads: those of a regular file, or of what a link
leads to. -/
def readable : Option (U32 × File) :=
  match env.source.node dest with
  | some (.symlink ..) => calls.linked
  | _ => match env.source.regularAt dest, env.source.metadataAt dest with
    | some content, some m => some (m.mode, content)
    | _, _ => none

/-- The copy of the source to the destination, whose result is not looked at. -/
def copyTo (t : Fs) : Fs :=
  match calls.readable env dest with
  | none => t
  | some (mode, content) =>
    match calls.copy with
    | .fails => t
    | .leaves part => (t.overwrite (.made e.seqNum dest) env.freshFile id part dest).2
    | .whole =>
      (t.overwrite (.made e.seqNum dest) env.freshFile (Meta.setPermissions mode) content dest).2

/-- The flag for an exchange is set. -/
def exchanges : Bool := e.flags.val / 2 % 2 = 1

/-- A destination that is reported to exist is removed, and the rename repeated. -/
def renameTo (t : Fs) : CallResult × Fs :=
  let t := makeParent env calls.renameParent dest t
  let call := if exchanges e then Fs.exchange old dest else Fs.rename old dest
  match attempted calls.rename call t with
  | (.error .alreadyExists, t) =>
    attempted calls.retry (Fs.rename old dest)
      (if calls.removesDest then (t.removeFile dest).2 else t)
  | r => r

/-- What is at the old path is removed if the source has nothing there, in two passes. -/
def removeGhost (t : Fs) : Fs :=
  if calls.oldOnSource.sees (env.source.node old) then t
  else
    let t := if calls.removesGhost then (t.removeFile old).2 else t
    if calls.ghostOnTarget.sees (t.node old) && calls.removesGhostAgain then (t.removeFile old).2
    else t

/-- What becomes of the target: whether the entry was there, the result and the tree. -/
def run (t : Fs) : Bool × CallResult × Fs :=
  let t := makeParent env calls.parent dest t
  if calls.oldOnTarget.sees (t.node old) then
    let r := calls.renameTo env e old dest t
    (true, r.1, if r.1 = .ok () then calls.removeGhost env old r.2 else r.2)
  else if calls.newOnSource.sees (env.source.node dest) then
    (false, .ok (), calls.copyTo env e dest (makeParent env calls.parentAgain dest t))
  else (false, .ok (), t)

variable {calls env e old dest} {t : Fs}

theorem run_present
    (hold : calls.oldOnTarget.sees ((makeParent env calls.parent dest t).node old) = true) :
    calls.run env e old dest t =
      (true, (calls.renameTo env e old dest (makeParent env calls.parent dest t)).1,
        if (calls.renameTo env e old dest (makeParent env calls.parent dest t)).1 = .ok () then
          calls.removeGhost env old
            (calls.renameTo env e old dest (makeParent env calls.parent dest t)).2
        else (calls.renameTo env e old dest (makeParent env calls.parent dest t)).2) :=
  if_pos hold

theorem run_copied
    (hold : ¬ calls.oldOnTarget.sees ((makeParent env calls.parent dest t).node old) = true)
    (hnew : calls.newOnSource.sees (env.source.node dest) = true) :
    calls.run env e old dest t = (false, .ok (), calls.copyTo env e dest
      (makeParent env calls.parentAgain dest (makeParent env calls.parent dest t))) :=
  (if_neg hold).trans (if_pos hnew)

theorem run_between
    (hold : ¬ calls.oldOnTarget.sees ((makeParent env calls.parent dest t).node old) = true)
    (hnew : ¬ calls.newOnSource.sees (env.source.node dest) = true) :
    calls.run env e old dest t = (false, .ok (), makeParent env calls.parent dest t) :=
  (if_neg hold).trans (if_neg hnew)

end RenameCalls

namespace Arm
variable (env : Env) (e : Event) (p : Path)

/-- The old and the new name of the entry. -/
def renameNames : StateM World (Option (Path × Path)) := do
  match ← resolveEventPath e.parentInode e.name with
  | none => return none
  | some old =>
    match ← renameDest e p with
    | none => return none
    | some dest => return some (old, dest)

/-- The arm for renames with the outcomes of its calls. -/
def renameWith (calls : RenameCalls) : StateM World (Option Outcome) := do
  match ← renameNames e p with
  | none => return none
  | some (old, dest) =>
    let x ← peek (fun w => calls.run env e old dest w.target)
    modify fun w => { w with target := x.2.2 }
    if x.1 then rememberRename e dest else rememberNew e dest
    return some ⟨x.2.1, [], x.1⟩

end Arm

/-- An attempt at an event that renames, with the outcomes of its calls. -/
def processRename (env : Env) (calls : RenameCalls) (e : Event) :
    StateM World (Option Outcome) := do
  match ← resolution e with
  | none => return none
  | some .securityBlock => return some (.failed .other)
  | some (.success p _ _) | some (.needsRepair p) =>
    if env.config.isPathExcluded p then return some .done
    else
      match e.eventType with
      | .renameIncomplete => Arm.renameIncomplete env e
      | _ => Arm.renameWith env e p calls

/-! ## An attempt in which nothing fails -/

section Fine
variable {env : Env} {e : Event} {p old dest : Path}

theorem Lookup.sees_pathExists (t : Fs) (p : Path) :
    (Lookup.follows false).sees (t.node p) = t.pathExists p := by
  unfold Fs.pathExists
  cases t.node p with
  | none => rfl
  | some n => cases n <;> rfl

theorem createParent_eq (q : Path) (v : World) :
    createParent env q v = ((), { v with target := makeParent env none q v.target }) := by
  unfold createParent makeParent
  cases Path.parent? q with
  | none => rfl
  | some a => rfl

theorem copyTo_fine (t : Fs) :
    RenameCalls.fine.copyTo env e dest t = (Arm.copyFile env e dest t).2 := by
  unfold RenameCalls.copyTo Arm.copyFile RenameCalls.readable
  cases hnode : env.source.node dest with
  | none => simp [Fs.regularAt, hnode]
  | some n =>
    cases n with
    | symlink d m => simp [Fs.regularAt, hnode, RenameCalls.fine]
    | dir m => simp [Fs.regularAt, hnode]
    | file i => cases env.source.regularAt dest <;> cases env.source.metadataAt dest <;> rfl

/-- The second pass finds nothing that it could remove. -/
theorem removeGhost_fine (t : Fs) :
    RenameCalls.fine.removeGhost env old t =
      if env.source.pathExists old = false then (t.removeFile old).2 else t := by
  have htwice : (Lookup.follows false).sees ((t.removeFile old).2.node old) = true →
      ((t.removeFile old).2.removeFile old).2 = (t.removeFile old).2 := by
    intro hsees
    cases hnode : t.node old with
    | none => simp [Fs.removeFile, hnode]
    | some n =>
      cases n with
      | dir m => simp [Fs.removeFile, hnode]
      | file i | symlink d m => simp [Fs.removeFile, hnode, Lookup.sees] at hsees
  unfold RenameCalls.removeGhost
  simp only [RenameCalls.fine, Lookup.sees_pathExists, if_true, Bool.and_true] at htwice ⊢
  cases env.source.pathExists old with
  | true => rfl
  | false =>
    simp only [Bool.false_eq_true, if_false]
    split_ifs with hghost
    · exact htwice hghost
    · rfl

theorem renameCall_fine (u : World) :
    Arm.renameCall env none e old dest u =
      ((RenameCalls.fine.renameTo env e old dest u.target).1,
        { u with target := (RenameCalls.fine.renameTo env e old dest u.target).2 }) := by
  have hcall : (if RenameCalls.exchanges e then Fs.exchange old dest else Fs.rename old dest) =
      if e.flags.val / 2 % 2 = 1 then Fs.exchange old dest else Fs.rename old dest := by
    simp only [RenameCalls.exchanges, decide_eq_true_eq]
  unfold Arm.renameCall RenameCalls.renameTo
  simp only [StateM.run_bind, createParent_eq, reported, onTarget, attempted, RenameCalls.fine]
  rw [hcall]
  rcases (if e.flags.val / 2 % 2 = 1 then Fs.exchange old dest else Fs.rename old dest)
    (makeParent env none dest u.target) with ⟨r, t⟩
  cases r with
  | ok x => rfl
  | error f => cases f <;> rfl

theorem renamePresent_fine (u : World) :
    Arm.renamePresent env none e old dest u =
      (⟨(RenameCalls.fine.renameTo env e old dest u.target).1, [], true⟩,
        (Arm.rememberRename e dest { u with
          target := if (RenameCalls.fine.renameTo env e old dest u.target).1 = .ok () then
              RenameCalls.fine.removeGhost env old
                (RenameCalls.fine.renameTo env e old dest u.target).2
            else (RenameCalls.fine.renameTo env e old dest u.target).2 }).2) := by
  unfold Arm.renamePresent Arm.removeGhost
  simp only [StateM.run_bind, renameCall_fine, StateM.run_pure, removeGhost_fine]
  by_cases hok : (RenameCalls.fine.renameTo env e old dest u.target).1 = .ok ()
  · by_cases hsource : env.source.pathExists old = false
    · rw [if_pos ⟨hok, hsource⟩, if_pos hok, if_pos hsource]
      rfl
    · rw [if_neg fun h => hsource h.2, if_pos hok, if_neg hsource]
      rfl
  · rw [if_neg fun h => hok h.1, if_neg hok]
    rfl

theorem renameAbsent_fine (u : World) :
    Arm.renameAbsent env e dest u =
      (.done, (Arm.rememberNew e dest { u with
        target := if env.source.pathExists dest = true then
            RenameCalls.fine.copyTo env e dest (makeParent env none dest u.target)
          else u.target }).2) := by
  unfold Arm.renameAbsent
  by_cases hsource : env.source.pathExists dest = true
  · simp only [if_pos hsource, StateM.run_bind, createParent_eq, onTarget, StateM.run_pure,
      copyTo_fine]
  · simp only [if_neg hsource, StateM.run_bind, StateM.run_pure]

/-- What a rename does once its names are known. -/
theorem renameWith_run {calls : RenameCalls} {v v₂ : World}
    (hnames : Arm.renameNames e p v = (some (old, dest), v₂)) :
    Arm.renameWith env e p calls v =
      (some ⟨(calls.run env e old dest v₂.target).2.1, [], (calls.run env e old dest v₂.target).1⟩,
        ((if (calls.run env e old dest v₂.target).1 = true then Arm.rememberRename e dest
          else Arm.rememberNew e dest)
          { v₂ with target := (calls.run env e old dest v₂.target).2.2 }).2) := by
  unfold Arm.renameWith
  simp only [StateM.run_bind, hnames]
  by_cases hthere : (calls.run env e old dest v₂.target).1 = true
  · rw [if_pos hthere]
    simp only [StateM.run_peek, StateM.run_modify, hthere]
    rfl
  · rw [if_neg hthere]
    simp only [StateM.run_peek, StateM.run_modify, hthere]
    rfl

theorem renameNames_run (v : World) :
    Arm.renameNames e p v =
      match resolveEventPath e.parentInode e.name v with
      | (none, v₁) => (none, v₁)
      | (some old, v₁) => ((Arm.renameDest e p v₁).1.map fun dest => (old, dest),
          (Arm.renameDest e p v₁).2) := by
  unfold Arm.renameNames
  simp only [StateM.run_bind]
  rcases resolveEventPath e.parentInode e.name v with ⟨_ | old, v₁⟩
  · rfl
  · simp only [StateM.run_bind]
    rcases Arm.renameDest e p v₁ with ⟨_ | dest, v₂⟩ <;> rfl

/-- The names are read off the maps. -/
theorem renameNames_target (v : World) : (Arm.renameNames e p v).2.target = v.target := by
  rw [renameNames_run]
  have hold := resolveEventPath_target e.parentInode e.name v
  rcases hrun : resolveEventPath e.parentInode e.name v with ⟨_ | old, v₁⟩
  · rwa [hrun] at hold
  · rw [hrun] at hold
    exact (renameDest_target e p v₁).trans hold

/-- Where nothing fails, a rename is carried out as in an attempt without a fault. -/
theorem renameWith_fine : Arm.renameWith env e p .fine = Arm.rename env none e p := by
  funext v
  have hnames := renameNames_run (e := e) (p := p) v
  rcases hold : resolveEventPath e.parentInode e.name v with ⟨_ | old, v₁⟩
  · rw [hold] at hnames
    unfold Arm.renameWith Arm.rename
    rw [StateM.run_bind, StateM.run_bind, hnames, hold]
  rcases hdest : Arm.renameDest e p v₁ with ⟨_ | dest, v₂⟩
  · simp only [hold, hdest, Option.map_none] at hnames
    unfold Arm.renameWith Arm.rename
    rw [StateM.run_bind, StateM.run_bind, hnames, hold]
    simp only
    rw [StateM.run_bind, hdest]
  simp only [hold, hdest, Option.map_some] at hnames
  have hrun : Arm.rename env none e p v =
      if (makeParent env none dest v₂.target).pathExists old = true then
        (some (Arm.renamePresent env none e old dest
            { v₂ with target := makeParent env none dest v₂.target }).1,
          (Arm.renamePresent env none e old dest
            { v₂ with target := makeParent env none dest v₂.target }).2)
      else
        (some (Arm.renameAbsent env e dest
            { v₂ with target := makeParent env none dest v₂.target }).1,
          (Arm.renameAbsent env e dest
            { v₂ with target := makeParent env none dest v₂.target }).2) := by
    unfold Arm.rename
    rw [StateM.run_bind, hold]
    simp only
    rw [StateM.run_bind, hdest]
    simp only
    rw [StateM.run_bind, createParent_eq, StateM.run_ite_peek]
    split_ifs <;> rfl
  rw [renameWith_run hnames, hrun]
  have hthere := Lookup.sees_pathExists (makeParent env none dest v₂.target) old
  have hsource := Lookup.sees_pathExists env.source dest
  by_cases hpath : (makeParent env none dest v₂.target).pathExists old = true
  · rw [RenameCalls.run_present (hthere.trans hpath), if_pos hpath, renamePresent_fine]
    rfl
  · rw [if_neg hpath, renameAbsent_fine]
    by_cases hnew : env.source.pathExists dest = true
    · rw [RenameCalls.run_copied (fun h => hpath (hthere.symm.trans h)) (hsource.trans hnew),
        if_pos hnew]
      rfl
    · rw [RenameCalls.run_between (fun h => hpath (hthere.symm.trans h))
        (fun h => hnew (hsource.symm.trans h)), if_neg hnew]
      rfl

theorem processRename_run {calls : RenameCalls} {w : World}
    (hp : (resolution e w).1.bind ResolveResult.path? = some p) :
    processRename env calls e w =
      if env.config.isPathExcluded p = true then (some .done, (resolution e w).2)
      else if e.eventType = .renameIncomplete then Arm.renameIncomplete env e (resolution e w).2
      else Arm.renameWith env e p calls (resolution e w).2 := by
  unfold processRename
  rw [StateM.run_bind]
  rcases hres : resolution e w with ⟨_ | r, v⟩
  · rw [hres] at hp
    cases hp
  · rw [hres] at hp
    have harm : ∀ q, (match e.eventType with
        | .renameIncomplete => Arm.renameIncomplete env e
        | _ => Arm.renameWith env e q calls) =
        if e.eventType = .renameIncomplete then Arm.renameIncomplete env e
        else Arm.renameWith env e q calls := by
      intro q
      cases e.eventType <;> rfl
    have hrun : ∀ q, q = p → (if env.config.isPathExcluded q = true then pure (some .done)
        else match e.eventType with
          | .renameIncomplete => Arm.renameIncomplete env e
          | _ => Arm.renameWith env e q calls : StateM World (Option Outcome)) v =
        if env.config.isPathExcluded p = true then (some .done, v)
        else if e.eventType = .renameIncomplete then Arm.renameIncomplete env e v
        else Arm.renameWith env e p calls v := by
      rintro q rfl
      rw [harm]
      split_ifs <;> rfl
    cases r with
    | success q b c | needsRepair q => exact hrun q (Option.some.inj hp)
    | securityBlock => cases hp

/-- Where nothing fails, an attempt at a rename is that of the worker. -/
theorem processRename_fine (he : e.eventType = .rename ∨ e.eventType = .renameIncomplete) :
    processRename env .fine e = processSingleEvent env none e := by
  funext w
  have hgated : e.eventType.isGated = false := by
    rcases he with ht | ht <;> rw [ht] <;> rfl
  have hat : ∀ q v, processAt env none e q v =
      if env.config.isPathExcluded q = true then (some .done, v)
      else if e.eventType = .renameIncomplete then Arm.renameIncomplete env e v
      else Arm.renameWith env e q .fine v := by
    intro q v
    split_ifs with hex ht
    · unfold processAt
      rw [if_pos hex]
      rfl
    · rw [processAt_ungated hgated (by simpa using hex), perform, ht]
    · rw [processAt_ungated hgated (by simpa using hex), perform, he.resolve_right ht,
        renameWith_fine]
  rcases hres : resolution e w with ⟨_ | r, v⟩
  · unfold processRename processSingleEvent
    rw [StateM.run_bind, StateM.run_bind, hres]
  · have hattempt : ∀ q, (resolution e w).1.bind ResolveResult.path? = some q →
        processRename env .fine e w = processAt env none e q v := by
      intro q hq
      rw [processRename_run hq, hat, hres]
    unfold processSingleEvent
    rw [StateM.run_bind, hres]
    cases r with
    | success q b c | needsRepair q => exact hattempt q (by rw [hres]; rfl)
    | securityBlock =>
      unfold processRename
      rw [StateM.run_bind, hres]

/-- A file of the root directory, inode 2, is renamed. -/
def movedFile : Event :=
  { Event.zero with
    eventType := .rename, inode := 7, parentInode := 2, newParentInode := 2, name := "a",
    newName := some "b" }

/-- The source has the new name, and the target the old one. -/
theorem processRename_movedFile :
    let env := Env.plain ((Fs.root ⟨493, 0, 0⟩).setNode ["b"] (some (.file (.initial 0))))
    let w : World := ⟨(Fs.root ⟨493, 0, 0⟩).setNode ["a"] (some (.file (.initial 0))),
      fun _ => none, fun i => if i = 2 then some [] else none⟩
    processRename env .fine movedFile w = processSingleEvent env none movedFile w ∧
      (processRename env .fine movedFile w).2.target.node ["a"] = none ∧
      (processRename env .fine movedFile w).2.target.node ["b"] = some (.file (.initial 0)) := by
  intro env w
  exact ⟨congrFun (processRename_fine (.inl rfl)) w, by decide +kernel, by decide +kernel⟩

end Fine

end Foxing
