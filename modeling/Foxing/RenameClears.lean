import Foxing.TargetLine

/-!
# When a rename is cleared

A rename is taken off the storm registry at the end of its arm, and nowhere else. Whether an
attempt gets there can be told from what it starts with: the path of the event must neither be
blocked nor excluded, and the file must be on the target under its old path. An attempt at a
rename fails only there, or because the path is blocked.
-/
namespace Foxing

def EventType.isRename : EventType → Bool
  | .rename | .renameIncomplete => true
  | _ => false

def Event.isRename (e : Event) : Bool := e.eventType.isRename

/-- Every run of the computation returns something with the property. -/
def Yields {S α : Type} (P : α → Prop) (m : StateM S α) : Prop := ∀ s, P (m s).1

section Yields
variable {S α β : Type} {P : α → Prop} {Q : β → Prop}

theorem Yields.pure {a : α} (h : P a) : Yields P (Pure.pure a : StateM S α) := fun _ => h

theorem Yields.bind {m : StateM S β} {k : β → StateM S α} (h : ∀ b, Yields P (k b)) :
    Yields P (m >>= k) := fun s => h (m s).1 (m s).2

theorem Yields.map {m : StateM S β} {f : β → α} (h : Yields (fun b => P (f b)) m) :
    Yields P (f <$> m) := h

theorem Yields.ite {c : Prop} [Decidable c] {m m' : StateM S α} (h : Yields P m)
    (h' : Yields P m') : Yields P (if c then m else m') := by
  split_ifs
  · exact h
  · exact h'

end Yields

/-! ## The arms that clear nothing -/

def Outcome.Keeps (o : Outcome) : Prop := o.clearsRename = false

namespace Arm
variable {env : Env} {fault : Option ℕ} {e : Event} {p : Path}

theorem copyRange_keeps : Yields Outcome.Keeps (copyRange env fault e p) := by
  refine .ite (.bind fun r => ?_) (.pure rfl)
  cases r with
  | ok u => exact .ite (.pure rfl) (.pure rfl)
  | error f => exact .pure rfl

theorem remove_keeps : Yields Outcome.Keeps (remove fault e p) := by
  refine .bind fun r => ?_
  cases r with
  | ok u => exact .bind fun _ => .pure rfl
  | error f => exact .pure rfl

theorem makeEntry_keeps {made result : CallResult} :
    Yields Outcome.Keeps (makeEntry env e p made result) := by
  unfold makeEntry
  cases made with
  | error f => exact .pure rfl
  | ok u =>
    refine .bind fun r => ?_
    cases r with
    | ok u => exact .bind fun _ => .bind fun _ => .pure rfl
    | error f => exact .pure rfl

theorem mkdir_keeps : Yields Outcome.Keeps (mkdir env fault e p) := by
  refine .bind fun _ => .bind fun _ => ?_
  cases fault with
  | none => exact makeEntry_keeps
  | some n => exact .pure rfl

theorem mknod_keeps : Yields Outcome.Keeps (mknod env fault e p) :=
  .bind fun _ => .bind fun _ => makeEntry_keeps

theorem create_keeps : Yields Outcome.Keeps (create env fault e p) := by
  refine .ite (.bind fun _ => .pure rfl) (.ite (.bind fun _ => .bind fun r => ?_)
    (.bind fun _ => .pure rfl))
  cases r with
  | ok u => exact .bind fun _ => .pure rfl
  | error f => exact .bind fun _ => .bind fun _ => makeEntry_keeps

theorem symlink_keeps : Yields Outcome.Keeps (symlink env fault e p) := by
  unfold symlink
  cases env.source.node p with
  | none => exact .pure rfl
  | some n =>
    cases n with
    | symlink dest _ =>
      refine .bind fun _ => .bind fun _ => .bind fun r => ?_
      cases r with
      | ok u => exact .bind fun _ => .pure rfl
      | error f => exact .pure rfl
    | _ => exact .pure rfl

theorem link_keeps : Yields (fun r => ∀ o ∈ r, Outcome.Keeps o) (link fault e p) := by
  refine .bind fun entry => ?_
  cases entry with
  | none => exact .pure (by simp [Outcome.Keeps, Outcome.repair])
  | some entry =>
    simp only
    cases entry.primaryPath with
    | none => exact .pure (by simp)
    | some existing =>
      refine .bind fun r => ?_
      cases r with
      | ok u => exact .bind fun _ => .pure (by simp [Outcome.Keeps, Outcome.done, Outcome.ofResult])
      | error f => exact .pure (by simp [Outcome.Keeps, Outcome.failed, Outcome.ofResult])

end Arm

section Attempts
variable {env : Env} {fault : Option ℕ} {e : Event} {p : Path}

theorem Yields.some {m : StateM World Outcome} (h : Yields Outcome.Keeps m) :
    Yields (fun r => ∀ o ∈ r, Outcome.Keeps o) (Option.some <$> m) := by
  refine Yields.map fun s => ?_
  rintro o ⟨⟩
  exact h s

theorem perform_keeps (he : e.isRename = false) :
    Yields (fun r => ∀ o ∈ r, Outcome.Keeps o) (perform env fault e p) := by
  unfold perform
  cases ht : e.eventType with
  | rename | renameIncomplete => simp [Event.isRename, EventType.isRename, ht] at he
  | link => exact Arm.link_keeps
  | clone | write | writeRange => exact .some Arm.copyRange_keeps
  | unlink => exact .some Arm.remove_keeps
  | rmdir => exact .some Arm.remove_keeps
  | mkdir => exact .some Arm.mkdir_keeps
  | mknod => exact .some Arm.mknod_keeps
  | create => exact .some Arm.create_keeps
  | symlink => exact .some Arm.symlink_keeps
  | barrier | sequenceGap | fsync | unknown | setXattr | removeXattr =>
    exact .pure (by simp [Outcome.Keeps, Outcome.done, Outcome.ofResult])
  | _ => exact .some (.bind fun _ => .pure rfl)

theorem processAt_keeps (he : e.isRename = false) :
    Yields (fun r => ∀ o ∈ r, Outcome.Keeps o) (processAt env fault e p) := by
  have hdone : ∀ o ∈ Option.some Outcome.done, Outcome.Keeps o := by
    simp [Outcome.Keeps, Outcome.done, Outcome.ofResult]
  refine .ite (.pure hdone) (.ite (.bind fun there => .ite (perform_keeps he) (.bind fun r => ?_))
    (perform_keeps he))
  cases r with
  | none => exact .pure (by simp)
  | some relPath => exact .pure (by simp [Outcome.Keeps, Outcome.repair])

/-- Nothing but a rename is cleared. -/
theorem processSingleEvent_keeps (he : e.isRename = false) :
    Yields (fun r => ∀ o ∈ r, Outcome.Keeps o) (processSingleEvent env fault e) := by
  refine .bind fun r => ?_
  cases r with
  | none => exact .pure (by simp)
  | some r =>
    cases r with
    | securityBlock => exact .pure (by simp [Outcome.Keeps, Outcome.failed, Outcome.ofResult])
    | success p _ _ => exact processAt_keeps he
    | needsRepair p => exact processAt_keeps he

end Attempts

/-! ## The arms that clear a rename -/

namespace Arm
variable (env : Env) (fault : Option ℕ) (e : Event) (p : Path) (v : World)

/-- The entry is on the target under its old path, once the directory of its destination has
been made. -/
def oldOnTarget : Bool :=
  match resolveEventPath e.parentInode e.name v with
  | (none, _) => false
  | (some old, v) =>
    match renameDest e p v with
    | (none, _) => false
    | (some dest, v) => (createParent env dest v).2.target.pathExists old

/-- Looking for the path that the inode has by now does not make the worker panic. -/
def liveLookup : Bool :=
  (v.inodeMap e.inode).map (·.paths) ≠ some [] ∧
    (resolveLivePath env e (v.inodeMap e.inode)).isSome = true

/-- What the call to rename the entry returns, if the worker gets so far. -/
def renameResult : Option CallResult :=
  match resolveEventPath e.parentInode e.name v with
  | (none, _) => none
  | (some old, v) =>
    match renameDest e p v with
    | (none, _) => none
    | (some dest, v) =>
      let v := (createParent env dest v).2
      if v.target.pathExists old then some (renameCall env fault e old dest v).1 else none

theorem oldOnTarget_of_result {r : CallResult} (h : r ∈ renameResult env fault e p v) :
    oldOnTarget env e p v = true := by
  unfold renameResult at h
  unfold oldOnTarget
  cases hold : resolveEventPath e.parentInode e.name v with
  | mk old v' =>
    cases old with
    | none => simp [hold] at h
    | some old =>
      cases hdest : renameDest e p v' with
      | mk dest v'' =>
        cases dest with
        | none => simp [hold, hdest] at h
        | some dest =>
          simp only [hold, hdest] at h ⊢
          split_ifs at h with hthere
          · exact hthere
          · simp at h

theorem renameAbsent_keeps : Yields Outcome.Keeps (renameAbsent env e p) :=
  .ite (.bind fun _ => .bind fun _ => .bind fun _ => .pure rfl) (.bind fun _ => .pure rfl)

theorem rename_clears :
    (∃ o ∈ (rename env fault e p v).1, o.clearsRename = true) ↔ oldOnTarget env e p v = true := by
  unfold rename oldOnTarget
  rw [StateM.run_bind]
  cases resolveEventPath e.parentInode e.name v with
  | mk old v =>
    cases old with
    | none => simp [StateM.run_pure]
    | some old =>
      simp only [StateM.run_bind]
      cases renameDest e p v with
      | mk dest v =>
        cases dest with
        | none => simp [StateM.run_pure]
        | some dest =>
          simp only [StateM.run_bind, StateM.run_peek]
          by_cases hold : (createParent env dest v).2.target.pathExists old = true
          · simp [hold, StateM.run_bind, StateM.run_map, StateM.run_pure, renamePresent]
          · have hkeeps : ((renameAbsent env e dest) (createParent env dest v).2).1.clearsRename =
                false := renameAbsent_keeps env e dest _
            simp [hold, StateM.run_map, hkeeps]

theorem renameIncomplete_clears :
    (∃ o ∈ (renameIncomplete env e v).1, o.clearsRename = true) ↔ liveLookup env e v = true := by
  unfold renameIncomplete liveLookup
  rw [StateM.run_bind]
  have hentry : (peek (fun w : World => w.inodeMap e.inode) v).1 = v.inodeMap e.inode := rfl
  generalize (peek (fun w : World => w.inodeMap e.inode) v).1 = entry at hentry ⊢
  rw [← hentry]
  by_cases hpaths : entry.map (·.paths) = some []
  · simp [hpaths, StateM.run_pure]
  · rw [if_neg hpaths]
    cases resolveLivePath env e entry with
    | none => simp [StateM.run_pure]
    | some live => simp [hpaths, StateM.run_bind, StateM.run_pure]

theorem renameAbsent_done : ((renameAbsent env e p v).1).result = .ok () := by
  have hyields : Yields (fun o : Outcome => o.result = .ok ()) (renameAbsent env e p) :=
    .ite (.bind fun _ => .bind fun _ => .bind fun _ => .pure rfl) (.bind fun _ => .pure rfl)
  exact hyields v

theorem rename_fails {q : CallResult → Prop} (hq : ¬ q (.ok ())) :
    (∃ o ∈ (rename env fault e p v).1, q o.result) ↔ ∃ r ∈ renameResult env fault e p v, q r := by
  unfold rename renameResult
  rw [StateM.run_bind]
  cases resolveEventPath e.parentInode e.name v with
  | mk old v =>
    cases old with
    | none => simp [StateM.run_pure]
    | some old =>
      simp only [StateM.run_bind]
      cases renameDest e p v with
      | mk dest v =>
        cases dest with
        | none => simp [StateM.run_pure]
        | some dest =>
          simp only [StateM.run_bind, StateM.run_peek]
          by_cases hold : (createParent env dest v).2.target.pathExists old = true
          · simp [hold, StateM.run_bind, StateM.run_map, StateM.run_pure, renamePresent]
          · have hdone := renameAbsent_done env e dest (createParent env dest v).2
            simp [hold, StateM.run_map, hdone, hq]

theorem renameIncomplete_fails {q : CallResult → Prop} (hq : q (.error .other)) :
    (∃ o ∈ (renameIncomplete env e v).1, q o.result) ↔ liveLookup env e v = true := by
  have hclears := renameIncomplete_clears env e v
  rw [← hclears]
  unfold renameIncomplete
  simp only [StateM.run_bind]
  generalize (peek (fun w : World => w.inodeMap e.inode) v).1 = entry
  by_cases hpaths : entry.map (·.paths) = some []
  · simp [hpaths, StateM.run_pure]
  · rw [if_neg hpaths]
    cases resolveLivePath env e entry with
    | none => simp [StateM.run_pure]
    | some live => simp [StateM.run_bind, StateM.run_pure, hq]

end Arm

/-- An attempt at a rename gets to the end of its arm. -/
def Attempt.ReachesEnd (x : Attempt) (w : World) (e : Event) : Prop :=
  ∃ p, (resolution e w).1.bind ResolveResult.path? = some p ∧
    x.env.config.isPathExcluded p = false ∧
    (e.eventType = .rename ∧ Arm.oldOnTarget x.env e p (resolution e w).2 = true ∨
      e.eventType = .renameIncomplete ∧ Arm.liveLookup x.env e (resolution e w).2 = true)

theorem processAt_rename {env : Env} {fault : Option ℕ} {e : Event} {p : Path} {v : World}
    (hex : env.config.isPathExcluded p = false) (he : e.isRename = true) :
    processAt env fault e p v = perform env fault e p v := by
  have hgated : e.eventType.isGated = false := by
    unfold Event.isRename at he
    cases ht : e.eventType <;> simp [ht, EventType.isRename, EventType.isGated] at he ⊢
  simp [processAt, hex, hgated]

theorem processAt_clears {env : Env} {fault : Option ℕ} {e : Event} {p : Path} {v : World}
    (he : e.isRename = true) :
    (∃ o ∈ (processAt env fault e p v).1, o.clearsRename = true) ↔
      env.config.isPathExcluded p = false ∧
        (e.eventType = .rename ∧ Arm.oldOnTarget env e p v = true ∨
          e.eventType = .renameIncomplete ∧ Arm.liveLookup env e v = true) := by
  cases hex : env.config.isPathExcluded p with
  | true => simp [processAt, hex, StateM.run_pure, Outcome.done, Outcome.ofResult]
  | false =>
    rw [processAt_rename hex he]
    unfold perform
    cases ht : e.eventType with
    | rename => simpa using Arm.rename_clears env fault e p v
    | renameIncomplete => simpa using Arm.renameIncomplete_clears env e v
    | _ => simp [Event.isRename, EventType.isRename, ht] at he

/-- A rename is cleared exactly by the attempts that get to the end of its arm. -/
theorem processSingleEvent_clears (x : Attempt) (w : World) (e : Event) :
    (∃ o ∈ (processSingleEvent x.env x.fault e w).1, o.clearsRename = true) ↔
      x.ReachesEnd w e := by
  by_cases he : e.isRename = true
  · unfold processSingleEvent Attempt.ReachesEnd
    rw [StateM.run_bind]
    cases (resolution e w).1 with
    | none => simp [StateM.run_pure]
    | some r =>
      cases r with
      | securityBlock =>
        simp [StateM.run_pure, ResolveResult.path?, Outcome.failed, Outcome.ofResult]
      | success p _ _ | needsRepair p => simpa [ResolveResult.path?] using processAt_clears he
  · have he : e.isRename = false := by simpa using he
    refine iff_of_false ?_ ?_
    · rintro ⟨o, ho, hclears⟩
      have hkeeps : o.clearsRename = false := processSingleEvent_keeps he w o ho
      simp [hkeeps] at hclears
    · rintro ⟨p, -, -, ⟨ht, -⟩ | ⟨ht, -⟩⟩ <;> simp [Event.isRename, EventType.isRename, ht] at he

/-! ## The attempts that are repeated -/

/-- A call that has failed like this is tried again. -/
def tryAgain (t : EventType) : CallResult → Bool
  | .ok () => false
  | .error f => classifyError f t = .transient

/-- The path of the event is blocked. -/
def World.blocks (w : World) (e : Event) : Bool := (resolution e w).1 = some .securityBlock

/-- An attempt at a rename gets to the end of its arm with a failure that is tried again. -/
def Attempt.Refused (x : Attempt) (w : World) (e : Event) : Prop :=
  ∃ p, (resolution e w).1.bind ResolveResult.path? = some p ∧
    x.env.config.isPathExcluded p = false ∧
    (e.eventType = .rename ∧
        (∃ r ∈ Arm.renameResult x.env x.fault e p (resolution e w).2, tryAgain .rename r = true) ∨
      e.eventType = .renameIncomplete ∧ Arm.liveLookup x.env e (resolution e w).2 = true)

theorem processAt_fails {env : Env} {fault : Option ℕ} {e : Event} {p : Path} {v : World}
    (he : e.isRename = true) :
    (∃ o ∈ (processAt env fault e p v).1, tryAgain e.eventType o.result = true) ↔
      env.config.isPathExcluded p = false ∧
        (e.eventType = .rename ∧
            (∃ r ∈ Arm.renameResult env fault e p v, tryAgain .rename r = true) ∨
          e.eventType = .renameIncomplete ∧ Arm.liveLookup env e v = true) := by
  cases hex : env.config.isPathExcluded p with
  | true => simp [processAt, hex, StateM.run_pure, Outcome.done, Outcome.ofResult, tryAgain]
  | false =>
    rw [processAt_rename hex he]
    unfold perform
    cases ht : e.eventType with
    | rename =>
      simpa using Arm.rename_fails env fault e p v (q := fun r => tryAgain _ r = true)
        (by simp [tryAgain])
    | renameIncomplete =>
      simpa using Arm.renameIncomplete_fails env e v (q := fun r => tryAgain _ r = true) rfl
    | _ => simp [Event.isRename, EventType.isRename, ht] at he

/-- An attempt at a rename fails in a way that is tried again because its path is blocked, or
at the end of its arm. -/
theorem processSingleEvent_fails {e : Event} (he : e.isRename = true) (x : Attempt) (w : World) :
    (∃ o ∈ (processSingleEvent x.env x.fault e w).1, tryAgain e.eventType o.result = true) ↔
      w.blocks e = true ∨ x.Refused w e := by
  unfold processSingleEvent World.blocks Attempt.Refused
  rw [StateM.run_bind]
  cases (resolution e w).1 with
  | none => simp [StateM.run_pure]
  | some r =>
    cases r with
    | securityBlock =>
      simp [StateM.run_pure, Outcome.failed, Outcome.ofResult, tryAgain, classifyError]
    | success p _ _ | needsRepair p => simpa [ResolveResult.path?] using processAt_fails he

theorem Attempt.Refused.reachesEnd {x : Attempt} {w : World} {e : Event} (h : x.Refused w e) :
    x.ReachesEnd w e := by
  obtain ⟨p, hp, hex, ⟨ht, r, hr, -⟩ | hlive⟩ := h
  · exact ⟨p, hp, hex, .inl ⟨ht, Arm.oldOnTarget_of_result _ _ _ _ _ hr⟩⟩
  · exact ⟨p, hp, hex, .inr hlive⟩

theorem Attempt.ReachesEnd.not_blocked {x : Attempt} {w : World} {e : Event}
    (h : x.ReachesEnd w e) : w.blocks e = false := by
  obtain ⟨p, hp, -⟩ := h
  by_contra hblocked
  have hblocked : (resolution e w).1 = some .securityBlock := by
    simpa [World.blocks] using hblocked
  simp [hblocked, ResolveResult.path?] at hp

theorem Attempt.ReachesEnd.isRename {x : Attempt} {w : World} {e : Event}
    (h : x.ReachesEnd w e) : e.isRename = true := by
  obtain ⟨p, -, -, ⟨ht, -⟩ | ⟨ht, -⟩⟩ := h <;> simp [Event.isRename, EventType.isRename, ht]

end Foxing
