import Foxing.Event
import Foxing.Lib.Run
import Mathlib.Data.Finset.Card
import Mathlib.Data.List.Induction

/-!
# The transient filter

Between the reorder buffer and the worker queues, a filter remembers the inodes
whose creation it has passed on and suppresses the first removal of each. The
creation itself is always passed on. The mirror therefore follows the source
exactly as long as no removal meets a remembered inode.
-/
namespace Foxing

structure TransientFilter where
  recentCreates : Finset U64
  prunedCount : U64

namespace TransientFilter

def new : TransientFilter := ⟨∅, 0⟩

/-- Whether the event is suppressed, and the filter afterwards. -/
def shouldPrune (f : TransientFilter) (evt : Event) : Bool × TransientFilter :=
  match evt.eventType with
  | .create | .mkdir | .mknod =>
    (false, { f with recentCreates := insert evt.inode f.recentCreates })
  | .unlink | .rmdir =>
    if evt.inode ∈ f.recentCreates then
      (true, ⟨f.recentCreates.erase evt.inode, f.prunedCount + 1⟩)
    else (false, f)
  | _ => (false, f)

def gc (f : TransientFilter) : TransientFilter :=
  if 100000 < f.recentCreates.card then { f with recentCreates := ∅ } else f

/-- A call on the filter: an event from the reorder buffer, or the periodic
cleanup of the poll loop. -/
inductive Call where
  | event (e : Event)
  | gc

def apply (f : TransientFilter) : Call → TransientFilter
  | .event e => (f.shouldPrune e).2
  | .gc => f.gc

/-- What a call sends downstream. -/
def passes (f : TransientFilter) : Call → List Event
  | .event e => if (f.shouldPrune e).1 then [] else [e]
  | .gc => []

/-- The events that a fresh filter lets through. -/
def passed (cs : List Call) : List Event := Run.outputs apply passes new cs

/-- The events that reach the filter. -/
def offered (cs : List Call) : List Event :=
  cs.flatMap (fun c => match c with
    | .event e => [e]
    | .gc => [])

/-! ## The namespace that events describe -/

/-- A directory entry: a name in a directory of a device. -/
structure Entry where
  devId : U32
  parent : U64
  name : String
  deriving DecidableEq

def isCreation : EventType → Bool
  | .create | .mkdir | .mknod => true
  | _ => false

def isRemoval : EventType → Bool
  | .unlink | .rmdir => true
  | _ => false

def entry (e : Event) : Entry := ⟨e.devId, e.parentInode, e.name⟩

def newEntry (e : Event) : Entry := ⟨e.devId, e.newParentInode, e.newName.getD ""⟩

/-- The effect of an event on the set of live entries. -/
def applyEntries (live : Set Entry) (e : Event) : Set Entry :=
  match e.eventType with
  | .create | .mkdir | .mknod | .link | .symlink => insert (entry e) live
  | .unlink | .rmdir => live \ {entry e}
  | .rename => insert (newEntry e) (live \ {entry e})
  | _ => live

def liveEntries (live : Set Entry) (es : List Event) : Set Entry := es.foldl applyEntries live

/-- The filter does not show downstream: from any set of entries, what it lets
through leaves the same entries alive as what it is offered, and it suppresses
no removal of an inode whose creation it has passed on. -/
def Faithful (cs : List Call) : Prop :=
  (∀ live, liveEntries live (passed cs) = liveEntries live (offered cs)) ∧
  ∀ pre e post, cs = pre ++ .event e :: post → isRemoval e.eventType = true →
    ((Run.exec apply new pre).shouldPrune e).1 = true →
    ∀ c ∈ passed pre, isCreation c.eventType = true → c.inode ≠ e.inode

/-! ## What the filter remembers -/

/-- The call makes the filter remember the inode. -/
def Records (c : Call) (ino : U64) : Prop :=
  ∃ e, c = .event e ∧ isCreation e.eventType = true ∧ e.inode = ino

/-- The call makes the filter forget the inode: a removal of it, or a cleanup
that finds more than 100000 inodes. -/
def Forgets (f : TransientFilter) (c : Call) (ino : U64) : Prop :=
  match c with
  | .event e => isRemoval e.eventType = true ∧ e.inode = ino
  | .gc => 100000 < f.recentCreates.card

/-- The calls contain a creation of the inode after which nothing forgot it. -/
def Tracked (cs : List Call) (ino : U64) : Prop :=
  ∃ pre c post, cs = pre ++ c :: post ∧ Records c ino ∧
    Run.Along apply (fun f c => ¬f.Forgets c ino) (Run.exec apply new (pre ++ [c])) post

/-- The three ways in which the filter treats an event. -/
inductive PruneStep (f : TransientFilter) (e : Event) : Bool → TransientFilter → Prop
  | record (hc : isCreation e.eventType = true) :
      PruneStep f e false { f with recentCreates := insert e.inode f.recentCreates }
  | prune (hr : isRemoval e.eventType = true) (hmem : e.inode ∈ f.recentCreates) :
      PruneStep f e true ⟨f.recentCreates.erase e.inode, f.prunedCount + 1⟩
  | pass (hc : isCreation e.eventType = false)
      (hr : isRemoval e.eventType = true → e.inode ∉ f.recentCreates) : PruneStep f e false f

theorem shouldPrune_spec (f : TransientFilter) (e : Event) :
    PruneStep f e (f.shouldPrune e).1 (f.shouldPrune e).2 := by
  unfold shouldPrune
  split
  case h_1 h => exact .record (by rw [h]; rfl)
  case h_2 h => exact .record (by rw [h]; rfl)
  case h_3 h => exact .record (by rw [h]; rfl)
  case h_4 h =>
    split_ifs with hmem
    · exact .prune (by rw [h]; rfl) hmem
    · exact .pass (by rw [h]; rfl) (fun _ => hmem)
  case h_5 h =>
    split_ifs with hmem
    · exact .prune (by rw [h]; rfl) hmem
    · exact .pass (by rw [h]; rfl) (fun _ => hmem)
  case h_6 h₁ h₂ h₃ h₄ h₅ =>
    refine .pass ?_ ?_
    · unfold isCreation
      split <;> simp_all
    · unfold isRemoval
      split <;> simp_all

lemma not_isRemoval_of_isCreation {t : EventType} (h : isCreation t = true) :
    isRemoval t = false := by
  cases t <;> simp_all [isCreation, isRemoval]

/-- An event is suppressed exactly when it removes a remembered inode. -/
lemma shouldPrune_iff (f : TransientFilter) (e : Event) :
    (f.shouldPrune e).1 = true ↔ isRemoval e.eventType = true ∧ e.inode ∈ f.recentCreates := by
  have hs := f.shouldPrune_spec e
  generalize f.shouldPrune e = r at hs ⊢
  obtain ⟨r, f'⟩ := r
  dsimp only at hs ⊢
  cases hs with
  | record hc => simp [not_isRemoval_of_isCreation hc]
  | prune hr hmem => simp [hr, hmem]
  | pass hc hr =>
    simp only [Bool.false_eq_true, false_iff, not_and]
    exact hr

/-- One call changes the memory at the inode it records or forgets. -/
lemma mem_apply_iff (f : TransientFilter) (c : Call) (ino : U64) :
    ino ∈ (f.apply c).recentCreates ↔
      Records c ino ∨ (ino ∈ f.recentCreates ∧ ¬f.Forgets c ino) := by
  cases c with
  | gc =>
    simp only [apply, gc, Records, Forgets]
    split_ifs with h <;> simp [h]
  | event e =>
    have hs := f.shouldPrune_spec e
    simp only [apply]
    generalize f.shouldPrune e = r at hs ⊢
    obtain ⟨r, f'⟩ := r
    dsimp only at hs ⊢
    cases hs with
    | record hc =>
      simp only [Records, Forgets, Call.event.injEq, exists_eq_left', hc, true_and,
        not_isRemoval_of_isCreation hc, Bool.false_eq_true, false_and, not_false_eq_true, and_true,
        Finset.mem_insert, eq_comm (a := ino)]
    | prune hr hmem =>
      have hc : isCreation e.eventType = false := by
        by_contra h
        simp [not_isRemoval_of_isCreation (by simpa using h)] at hr
      simp only [Records, Forgets, Call.event.injEq, exists_eq_left', hc, hr, true_and,
        Bool.false_eq_true, false_and, false_or, Finset.mem_erase, ne_eq, eq_comm (a := ino),
        and_comm]
    | pass hc hr =>
      simp only [Records, Forgets, Call.event.injEq, exists_eq_left', hc, Bool.false_eq_true,
        false_and, false_or]
      constructor
      · intro hmem
        exact ⟨hmem, fun hf => hr hf.1 (hf.2 ▸ hmem)⟩
      · exact And.left

lemma tracked_nil (ino : U64) : ¬Tracked [] ino := by
  rintro ⟨pre, c, post, h, -⟩
  simp at h

lemma tracked_concat_iff (cs : List Call) (c : Call) (ino : U64) :
    Tracked (cs ++ [c]) ino ↔
      Records c ino ∨ (Tracked cs ino ∧ ¬(Run.exec apply new cs).Forgets c ino) := by
  constructor
  · rintro ⟨pre, d, post, heq, hrec, halong⟩
    rcases List.eq_nil_or_concat post with rfl | ⟨post, last, rfl⟩
    · obtain ⟨-, hcd⟩ := List.append_inj' heq rfl
      exact .inl ((List.singleton_inj.mp hcd) ▸ hrec)
    · rw [List.concat_eq_append] at heq halong
      rw [← List.cons_append, ← List.append_assoc] at heq
      obtain ⟨rfl, hlast⟩ := List.append_inj' heq rfl
      obtain rfl := List.singleton_inj.mp hlast
      rw [Run.along_concat, ← Run.exec_append, List.append_assoc] at halong
      exact .inr ⟨⟨pre, d, post, rfl, hrec, halong.1⟩, halong.2⟩
  · rintro (hrec | ⟨⟨pre, d, post, rfl, hrec, halong⟩, hkeep⟩)
    · exact ⟨cs, c, [], rfl, hrec, trivial⟩
    · refine ⟨pre, d, post ++ [c], by simp, hrec, ?_⟩
      rw [Run.along_concat, ← Run.exec_append, List.append_assoc]
      exact ⟨halong, hkeep⟩

/-- The memory of the filter, read off the calls. -/
theorem mem_recentCreates_iff (cs : List Call) (ino : U64) :
    ino ∈ (Run.exec apply new cs).recentCreates ↔ Tracked cs ino := by
  induction cs using List.reverseRecOn with
  | nil => simp [new, tracked_nil]
  | append_singleton cs c ih => rw [Run.exec_concat, mem_apply_iff, ih, tracked_concat_iff]

/-! ## When the filter does not show -/

lemma creation_passed {pre post : List Call} {e : Event} (hc : isCreation e.eventType = true) :
    e ∈ passed (pre ++ .event e :: post) := by
  have hkeep : ((Run.exec apply new pre).shouldPrune e).1 = false := by
    rw [← Bool.not_eq_true, shouldPrune_iff]
    simp [not_isRemoval_of_isCreation hc]
  simp [passed, Run.outputs_append, Run.outputs, passes, hkeep]

lemma passed_eq_offered {cs : List Call}
    (h : ∀ pre e post, cs = pre ++ .event e :: post → isRemoval e.eventType = true →
      ¬Tracked pre e.inode) : passed cs = offered cs := by
  induction cs using List.reverseRecOn with
  | nil => rfl
  | append_singleton cs c ih =>
    have hinit := ih (fun pre e post heq => h pre e (post ++ [c]) (by simp [heq]))
    have hlast : (Run.exec apply new cs).passes c = offered [c] := by
      cases c with
      | gc => rfl
      | event e =>
        have hkeep : ((Run.exec apply new cs).shouldPrune e).1 = false := by
          rw [← Bool.not_eq_true, shouldPrune_iff, mem_recentCreates_iff]
          exact fun hp => h cs e [] rfl hp.1 hp.2
        simp [passes, offered, hkeep]
    rw [passed] at hinit ⊢
    rw [Run.outputs_append, hinit]
    simp only [Run.outputs, hlast, List.append_nil]
    simp [offered]

/-- The filter is faithful on exactly those streams in which no removal meets an
inode whose creation is still remembered. -/
theorem faithful_iff_no_tracked_removal (cs : List Call) :
    Faithful cs ↔ ∀ pre e post, cs = pre ++ .event e :: post →
      isRemoval e.eventType = true → ¬Tracked pre e.inode := by
  constructor
  · rintro ⟨-, hkeep⟩ pre e post heq hr htracked
    have hprune : ((Run.exec apply new pre).shouldPrune e).1 = true :=
      (shouldPrune_iff _ e).mpr ⟨hr, (mem_recentCreates_iff pre e.inode).mpr htracked⟩
    obtain ⟨before, c, after, rfl, ⟨d, rfl, hc, hino⟩, -⟩ := htracked
    exact hkeep _ e post heq hr hprune d (creation_passed hc) hc hino
  · intro h
    refine ⟨fun live => by rw [passed_eq_offered h], ?_⟩
    intro pre e post heq hr hprune
    have hmem := ((shouldPrune_iff _ e).mp hprune).2
    exact absurd ((mem_recentCreates_iff pre e.inode).mp hmem) (h pre e post heq hr)

/-- A file that is created and deleted. -/
def shortLived : List Call :=
  [.event { Event.zero with eventType := .create, inode := 7, parentInode := 2, name := "a" },
    .event { Event.zero with eventType := .unlink, inode := 7, parentInode := 2, name := "a" }]

/-- Downstream the file stays, although the source has deleted it. -/
theorem shortLived_leaks :
    (⟨0, 2, "a"⟩ : Entry) ∈ liveEntries ∅ (passed shortLived) ∧
      liveEntries ∅ (offered shortLived) = ∅ ∧ ¬Faithful shortLived := by
  have hpassed : passed shortLived =
      [{ Event.zero with eventType := .create, inode := 7, parentInode := 2, name := "a" }] := by
    decide
  have hlive : (⟨0, 2, "a"⟩ : Entry) ∈ liveEntries ∅ (passed shortLived) := by
    rw [hpassed]
    simp [liveEntries, applyEntries, entry, Event.zero]
  have hgone : liveEntries ∅ (offered shortLived) = ∅ := by
    simp [liveEntries, offered, shortLived, applyEntries, entry, Event.zero]
  refine ⟨hlive, hgone, fun h => ?_⟩
  rw [h.1 ∅, hgone] at hlive
  exact hlive

end TransientFilter
end Foxing
