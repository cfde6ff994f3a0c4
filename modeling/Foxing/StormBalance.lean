import Foxing.PendingRenames

/-!
# The balance of the storm registry

A rename is marked in the registry when it is pushed to a target, before it is known whether
and where it gets into a channel, and cleared at the end of its arm. The number of marks of an
inode is to be the number of its renames that are pending at any of the targets.

Marks and clears are single steps here; how they meet in the map is another matter.
-/
namespace Foxing

namespace StormBalance
open WorkerLoop

/-- The entries of the registry, by inode. -/
abbrev Registry := U64 → Option ℕ

def markPendingRename (n : U64) (r : Registry) : Registry :=
  Function.update r n (some ((r n).getD 0 + 1))

def getPendingRenames (n : U64) (r : Registry) : ℕ := (r n).getD 0

def clearPendingRename (n : U64) (r : Registry) : Registry :=
  match r n with
  | none => r
  | some prev => Function.update r n (if prev ≤ 1 then none else some (prev - 1))

/-- The targets of all sources, which share the registry. -/
structure Storm (τ : Type*) where
  registry : Registry
  line : τ → TargetLine

inductive Action (τ : Type*)
  | push (t : τ) (e : Event)
  | enter (t : τ)
  | work (t : τ) (i : ℕ) (a : WorkerLoop.Action) (x : Attempt) (w : World)
  | outside (t : τ) (board : TargetBoard)

section Steps
variable {τ : Type*} [DecidableEq τ] (hash : U64 → ℕ) (s : Storm τ)

def onLine (t : τ) (line : TargetLine) : Storm τ :=
  { s with line := Function.update s.line t line }

/-- Renames are marked before they are put into a channel. -/
def push (t : τ) (e : Event) : Storm τ :=
  if (s.line t).waiting.isSome then s
  else
    { onLine s t ((s.line t).push hash e) with
      registry := if e.isInternalTraffic = false ∧ e.isRename = true then
        markPendingRename e.inode s.registry else s.registry }

/-- What the arm of a rename clears, the registry forgets. -/
def work (t : τ) (i : ℕ) (a : WorkerLoop.Action) (x : Attempt) (w : World) : Storm τ :=
  { onLine s t ((s.line t).work i a x w) with
    registry :=
      match (s.line t).taken i a with
      | some r => if .clearRename ∈ (s.line t).effectsOf i a x w then
          clearPendingRename r.2.inode s.registry else s.registry
      | none => s.registry }

def step : Action τ → Storm τ
  | .push t e => push hash s t e
  | .enter t => onLine s t (s.line t).enter
  | .work t i a x w => work s t i a x w
  | .outside t board => onLine s t ((s.line t).step hash (.outside board))

end Steps

/-- As many renames of an inode are pending as are marked. -/
def Balanced {τ : Type*} [Fintype τ] (s : Storm τ) : Prop :=
  ∀ n, getPendingRenames n s.registry = ∑ t, (s.line t).pending n

section Conditions

/-- The worker is done with a rename and has cleared it, or has to try it again and has not. A
rename that is blocked is tried again if it may be; one that gets to the end of its arm must
not be. -/
def Settles (l : WorkerLoop) (r : TakeSite × Event) (x : Attempt) (w : World) : Prop :=
  (∀ tin, r.1 ≠ .paused tin) ∧
    (w.blocks r.2 = true ∧ l.MayRetry r.1 ∨
      x.ReachesEnd w r.2 ∧ ¬ (x.Refused w r.2 ∧ l.MayRetry r.1))

/-- The rename that the worker takes is cleared. -/
def Clears (s : TargetLine) (i : ℕ) (a : WorkerLoop.Action) (x : Attempt) (w : World) : Prop :=
  ∃ r ∈ s.taken i a, (∀ tin, r.1 ≠ .paused tin) ∧ x.ReachesEnd w r.2

/-- A worker that ends leaves no rename behind but one that it has just cleared. -/
def LeavesNone (s : TargetLine) (i : ℕ) (a : WorkerLoop.Action) (x : Attempt) (w : World) : Prop :=
  (∀ n, s.load n i = 0) ∨ Clears s i a x w ∧ ∀ n, s.load n i = s.takenRenames n i a

/-- Nothing comes between a rename and its clearing: the worker that renames are pushed to is
there, and a worker that takes a rename settles it. -/
def Kept {τ : Type*} (s : Storm τ) : Action τ → Prop
  | .push t e => (s.line t).waiting = none → e.isInternalTraffic = false → e.isRename = true →
      ¬ (s.line t).FirstGone
  | .enter t => (s.line t).FirstGone → ∀ e ∈ (s.line t).waiting, e.isRename = false
  | .work t i a x w => (s.line t).Offers i a →
      if (((s.line t).work i a x w).worker i).Ended then LeavesNone (s.line t) i a x w
      else ∀ r ∈ (s.line t).taken i a, r.2.isRename = true →
        Settles (((s.line t).worker i).take (s.line t).board.paused a).2 r x w
  | .outside _ _ => True

end Conditions

/-! ## The registry -/

section Registry
variable (r : Registry) (m n : U64)

theorem get_mark : getPendingRenames n (markPendingRename m r) =
    getPendingRenames n r + if n = m then 1 else 0 := by
  unfold getPendingRenames markPendingRename
  by_cases h : n = m
  · simp [h]
  · simp [h]

theorem get_clear : getPendingRenames n (clearPendingRename m r) =
    getPendingRenames n r - if n = m then 1 else 0 := by
  unfold getPendingRenames clearPendingRename
  by_cases h : n = m
  · subst h
    cases hr : r n with
    | none => simp [hr]
    | some prev =>
      simp only [Function.update_self, if_true, Option.getD_some]
      split_ifs with hprev
      · simp only [Option.getD_none]
        omega
      · rfl
  · cases hr : r m with
    | none => simp [h]
    | some prev => simp [h]

end Registry

/-! ## What a worker does about a rename -/

section Work
variable {s : TargetLine} {i : ℕ} {a : WorkerLoop.Action} {x : Attempt} {w : World}

theorem clears_iff : .clearRename ∈ s.effectsOf i a x w ↔ Clears s i a x w := by
  unfold TargetLine.effectsOf Clears
  cases s.taken i a with
  | none => simp
  | some r =>
    have houtcome : (∃ o ∈ (x.resultAt w r.2).outcome, o.clearsRename = true) ↔
        x.ReachesEnd w r.2 := processSingleEvent_clears x w r.2
    simp only [clearRename_mem, houtcome, Option.mem_some_iff, exists_eq_left']

/-- A worker that goes on settles a rename exactly if it either clears it or tries it again. -/
theorem settles_iff {l : WorkerLoop} {r : TakeSite × Event} (he : r.2.isRename = true)
    (hpanic : .panic ∉ l.effects r.1 r.2 (x.resultAt w r.2)) :
    Settles l r x w ↔ (.clearRename ∈ l.effects r.1 r.2 (x.resultAt w r.2) ↔
      .retry ∉ l.effects r.1 r.2 (x.resultAt w r.2)) := by
  have hclears : (∃ o ∈ (x.resultAt w r.2).outcome, o.clearsRename = true) ↔
      x.ReachesEnd w r.2 := processSingleEvent_clears x w r.2
  have hfails : (∃ o ∈ (x.resultAt w r.2).outcome, tryAgain r.2.eventType o.result = true) ↔
      w.blocks r.2 = true ∨ x.Refused w r.2 := processSingleEvent_fails he x w
  rw [clearRename_mem, retry_mem hpanic, hclears, hfails]
  by_cases hs : ∀ tin, r.1 ≠ .paused tin
  · have htrue : (∀ tin, r.1 ≠ .paused tin) = True := eq_true hs
    simp only [Settles, htrue, true_and]
    by_cases hend : x.ReachesEnd w r.2
    · have hblocked := hend.not_blocked
      simp [hend, hblocked, and_comm]
    · have hrefused : ¬ x.Refused w r.2 := fun h => hend h.reachesEnd
      simp [hend, hrefused, and_comm]
  · simp [Settles, hs]

/-- A worker that goes on has not panicked. -/
theorem panic_not_mem (hoffers : s.Offers i a) (hend : ¬ ((s.work i a x w).worker i).Ended)
    {r : TakeSite × Event} (htake : ((s.worker i).take s.board.paused a).1 = some r) :
    .panic ∉ (((s.worker i).take s.board.paused a).2.effects r.1 r.2 (x.resultAt w r.2)) := by
  intro hpanic
  rw [TargetLine.work_worker hoffers] at hend
  refine hend ?_
  unfold WorkerLoop.step
  cases hresult : (s.worker i).take s.board.paused a with
  | mk r' l' =>
    rw [hresult] at htake hpanic
    subst htake
    simp [Ended, handle_phase, hpanic, Phase.ended]

end Work

theorem pending_le {τ : Type*} [Fintype τ] (s : Storm τ) (t : τ) (n : U64) :
    (s.line t).pending n ≤ ∑ t', (s.line t').pending n :=
  Finset.single_le_sum (f := fun t' => (s.line t').pending n) (fun _ _ => Nat.zero_le _)
    (Finset.mem_univ t)

/-- The sources have just been started, with a line for each target. -/
def start {τ : Type*} (workers : τ → ℕ) (board : τ → TargetBoard) (scanDepth : τ → U64)
    (now : ℕ) : Storm τ :=
  ⟨fun _ => none, fun t => .start (workers t) (board t) (scanDepth t) now⟩

theorem balanced_start {τ : Type*} [Fintype τ] (workers : τ → ℕ) (board : τ → TargetBoard)
    (scanDepth : τ → U64) (now : ℕ) : Balanced (start workers board scanDepth now) := by
  intro n
  simp [start, getPendingRenames, TargetLine.pending_start]

section Balance
variable {τ : Type*} [DecidableEq τ]

/-- The renames that a step clears. -/
theorem get_work (s : Storm τ) (t : τ) (i : ℕ) (a : WorkerLoop.Action) (x : Attempt) (w : World)
    (n : U64) : getPendingRenames n (work s t i a x w).registry =
      getPendingRenames n s.registry - if .clearRename ∈ (s.line t).effectsOf i a x w then
        (s.line t).takenRenames n i a else 0 := by
  unfold work TargetLine.takenRenames
  simp only
  cases htaken : (s.line t).taken i a with
  | none => simp
  | some r =>
    simp only
    split_ifs with hclear
    · have hclears := clears_iff.mp hclear
      obtain ⟨r', hr', -, hend⟩ := hclears
      rw [htaken, Option.mem_some_iff] at hr'
      subst hr'
      rw [get_clear]
      simp only [Option.toList_some, List.map_cons, List.map_nil,
        TargetLine.countP_renames_singleton, hend.isRename, true_and]
    · rfl

/-- The renames that a push marks. -/
theorem get_push (hash : U64 → ℕ) (s : Storm τ) (t : τ) (e : Event) (n : U64)
    (hnone : ¬ (s.line t).waiting.isSome = true) :
    getPendingRenames n (push hash s t e).registry = getPendingRenames n s.registry +
      if e.isInternalTraffic = false then [e].countP (Event.renames n) else 0 := by
  simp only [push, if_neg hnone, TargetLine.countP_renames_singleton]
  by_cases hint : e.isInternalTraffic = false
  · by_cases he : e.isRename = true
    · rw [if_pos ⟨hint, he⟩, if_pos hint, get_mark]
      simp [he]
    · rw [if_neg fun h => he h.2]
      simp [he]
  · rw [if_neg fun h => hint h.1, if_neg hint, Nat.add_zero]

theorem forall_countP_renames (es : List Event) :
    (∀ n, es.countP (Event.renames n) = 0) ↔ ∀ e ∈ es, e.isRename = false := by
  constructor
  · intro h e he
    have hzero := List.countP_eq_zero.mp (h e.inode) e he
    simpa [Event.renames] using hzero
  · intro h n
    rw [List.countP_eq_zero]
    intro e he
    simp [Event.renames, h e he]

theorem separate_step (hash : U64 → ℕ) {s : Storm τ} (hsep : ∀ t, (s.line t).Separate)
    (a : Action τ) : ∀ t, ((step hash s a).line t).Separate := by
  have hupdate {t : τ} {line : TargetLine} (h : line.Separate) :
      ∀ t', ((onLine s t line).line t').Separate := by
    intro t'
    by_cases ht : t' = t
    · simpa [onLine, ht] using h
    · simpa [onLine, ht] using hsep t'
  cases a with
  | push t e =>
    by_cases hwaiting : (s.line t).waiting.isSome = true
    · simpa [step, push, hwaiting] using hsep
    · simpa only [step, push, if_neg hwaiting] using hupdate ((hsep t).push hash e)
  | enter t => exact hupdate (hsep t).enter
  | work t i a x w => exact hupdate (hsep t).work
  | outside t board => exact hupdate ⟨(hsep t).bulk, (hsep t).plain⟩

variable [Fintype τ]

theorem sum_onLine (s : Storm τ) (t : τ) (line : TargetLine) (n : U64) :
    ∑ t', ((onLine s t line).line t').pending n + (s.line t).pending n =
      ∑ t', (s.line t').pending n + line.pending n := by
  have hsum := sum_change (f := fun t' => ((onLine s t line).line t').pending n)
    (g := fun t' => (s.line t').pending n) (Finset.mem_univ t) fun j _ hj => by
      simp [onLine, hj]
  simpa [onLine] using hsum

section Steps
variable (hash : U64 → ℕ) (s : Storm τ)

/-- A rename that is pushed is marked and pending, unless the first worker is gone. -/
theorem balanced_push (hs : Balanced s) (t : τ) (e : Event) :
    Balanced (step hash s (.push t e)) ↔ Kept s (.push t e) := by
  cases hwaiting : (s.line t).waiting with
  | some r =>
    have hblocked : step hash s (.push t e) = s := by simp [step, push, hwaiting]
    rw [hblocked]
    simp [Kept, hwaiting, hs]
  | none =>
    have hnone : ¬ (s.line t).waiting.isSome = true := by simp [hwaiting]
    have hget (n : U64) : getPendingRenames n (step hash s (.push t e)).registry = _ :=
      get_push hash s t e n hnone
    have hline : (step hash s (.push t e)).line = (onLine s t ((s.line t).push hash e)).line := by
      simp only [step, push, if_neg hnone]
    have hcount : Balanced (step hash s (.push t e)) ↔ ∀ n, e.isInternalTraffic = false →
        (s.line t).FirstGone → [e].countP (Event.renames n) = 0 := by
      refine forall_congr' fun n => ?_
      have hsum := sum_onLine s t ((s.line t).push hash e) n
      have hpush := TargetLine.pending_push n hash (e := e) hwaiting
      have hn := hs n
      rw [hget, hline]
      by_cases hint : e.isInternalTraffic = false
      · by_cases hgone : (s.line t).FirstGone
        · simp only [hint, hgone, not_true_eq_false, and_false, if_false, if_true,
            forall_const] at hpush ⊢
          omega
        · simp only [hint, hgone, not_false_eq_true, and_true, if_true, forall_const,
            false_implies, iff_true] at hpush ⊢
          omega
      · rw [if_neg fun h => hint h.1] at hpush
        simp only [hint, reduceCtorEq, if_false, false_implies, iff_true]
        omega
    rw [hcount]
    have hzero := forall_countP_renames [e]
    simp only [List.mem_singleton, forall_eq] at hzero
    constructor
    · intro h _ hint he hgone
      have hfalse := hzero.mp fun n => h n hint hgone
      simp [hfalse] at he
    · intro h n hint hgone
      refine hzero.mpr ?_ n
      by_contra he
      exact h hwaiting hint (by simpa using he) hgone

theorem balanced_enter (hs : Balanced s) (t : τ) :
    Balanced (step hash s (.enter t)) ↔ Kept s (.enter t) := by
  have hcount : Balanced (step hash s (.enter t)) ↔ ∀ n, (s.line t).FirstGone →
      (s.line t).waiting.toList.countP (Event.renames n) = 0 := by
    refine forall_congr' fun n => ?_
    have hsum := sum_onLine s t (s.line t).enter n
    have henter := TargetLine.pending_enter (s := s.line t) n
    have hn := hs n
    have hregistry : (step hash s (.enter t)).registry = s.registry := rfl
    have hline : (step hash s (.enter t)).line = (onLine s t (s.line t).enter).line := rfl
    rw [hregistry, hline]
    by_cases hgone : (s.line t).FirstGone
    · simp only [hgone, if_true, forall_const] at henter ⊢
      omega
    · simp only [hgone, if_false, false_implies, iff_true] at henter ⊢
      omega
  have hzero := forall_countP_renames (s.line t).waiting.toList
  rw [hcount, forall_comm, Kept, hzero]
  simp

/-- A worker that goes on keeps the balance exactly if it settles the rename that it takes. -/
theorem balanced_goes_on (hs : Balanced s) (hsep : ∀ t, (s.line t).Separate) {t : τ} {i : ℕ}
    {a : WorkerLoop.Action} {x : Attempt} {w : World} (hoffers : (s.line t).Offers i a)
    (hend : ¬ (((s.line t).work i a x w).worker i).Ended) :
    Balanced (step hash s (.work t i a x w)) ↔
      ∀ r ∈ (s.line t).taken i a, r.2.isRename = true →
        (.clearRename ∈ (s.line t).effectsOf i a x w ↔
          .retry ∉ (s.line t).effectsOf i a x w) := by
  have hcount : Balanced (step hash s (.work t i a x w)) ↔
      ∀ n, (s.line t).takenRenames n i a ≠ 0 →
        (.clearRename ∈ (s.line t).effectsOf i a x w ↔
          .retry ∉ (s.line t).effectsOf i a x w) := by
    refine forall_congr' fun n => ?_
    have hsum := sum_onLine s t ((s.line t).work i a x w) n
    have hwork := TargetLine.pending_work (n := n) (x := x) (w := w) (hsep t) hoffers hend
    have htaken := TargetLine.takenRenames_le (n := n) (hsep t) hoffers
    have hload := TargetLine.load_le (n := n) hoffers.1
    have htotal := pending_le s t n
    have hn := hs n
    have hget : getPendingRenames n (step hash s (.work t i a x w)).registry = _ :=
      get_work s t i a x w n
    have hline : (step hash s (.work t i a x w)).line =
        (onLine s t ((s.line t).work i a x w)).line := rfl
    rw [hget, hline]
    by_cases hretry : .retry ∈ (s.line t).effectsOf i a x w
    · by_cases hclear : .clearRename ∈ (s.line t).effectsOf i a x w
      · rw [if_pos hretry] at hwork
        rw [if_pos hclear]
        simp only [hretry, hclear, not_true_eq_false, iff_false, ne_eq, imp_false, not_not]
        omega
      · rw [if_pos hretry] at hwork
        rw [if_neg hclear]
        simp only [hretry, hclear, not_true_eq_false, iff_true, implies_true]
        omega
    · by_cases hclear : .clearRename ∈ (s.line t).effectsOf i a x w
      · rw [if_neg hretry] at hwork
        rw [if_pos hclear]
        simp only [hretry, hclear, not_false_eq_true, iff_true, implies_true]
        omega
      · rw [if_neg hretry] at hwork
        rw [if_neg hclear]
        simp only [hretry, hclear, not_false_eq_true, iff_true, ne_eq, imp_false, not_not]
        omega
  rw [hcount]
  unfold TargetLine.takenRenames
  cases (s.line t).taken i a with
  | none => simp
  | some r =>
    simp only [Option.mem_some_iff, forall_eq']
    constructor
    · intro h he
      exact h r.2.inode (by simp [Event.renames, he])
    · intro h n hn
      refine h ?_
      by_contra he
      exact hn (by simp [Event.renames, he])

theorem balanced_ended (hs : Balanced s) (hsep : ∀ t, (s.line t).Separate) {t : τ} {i : ℕ}
    {a : WorkerLoop.Action} {x : Attempt} {w : World} (hoffers : (s.line t).Offers i a)
    (hend : (((s.line t).work i a x w).worker i).Ended) :
    Balanced (step hash s (.work t i a x w)) ↔ LeavesNone (s.line t) i a x w := by
  have htaken (n : U64) : (s.line t).takenRenames n i a ≤ (s.line t).load n i :=
    TargetLine.takenRenames_le (hsep t) hoffers
  have hcount : Balanced (step hash s (.work t i a x w)) ↔
      ∀ n, (s.line t).load n i = if .clearRename ∈ (s.line t).effectsOf i a x w then
        (s.line t).takenRenames n i a else 0 := by
    refine forall_congr' fun n => ?_
    have hsum := sum_onLine s t ((s.line t).work i a x w) n
    have hwork := TargetLine.pending_work_ended (n := n) (x := x) (w := w) hoffers hend
    have hle := htaken n
    have htotal := pending_le s t n
    have hn := hs n
    have hget : getPendingRenames n (step hash s (.work t i a x w)).registry = _ :=
      get_work s t i a x w n
    have hline : (step hash s (.work t i a x w)).line =
        (onLine s t ((s.line t).work i a x w)).line := rfl
    rw [hget, hline]
    split_ifs <;> omega
  rw [hcount, LeavesNone, ← clears_iff]
  by_cases hclear : .clearRename ∈ (s.line t).effectsOf i a x w
  · simp only [hclear, if_true, true_and]
    constructor
    · exact .inr
    · rintro (h | h) n
      · have hle := htaken n
        have hzero := h n
        omega
      · exact h n
  · simp [hclear]

theorem balanced_work (hs : Balanced s) (hsep : ∀ t, (s.line t).Separate) (t : τ) (i : ℕ)
    (a : WorkerLoop.Action) (x : Attempt) (w : World) :
    Balanced (step hash s (.work t i a x w)) ↔ Kept s (.work t i a x w) := by
  by_cases hoffers : (s.line t).Offers i a
  · by_cases hend : (((s.line t).work i a x w).worker i).Ended
    · rw [balanced_ended hash s hs hsep hoffers hend]
      simp [Kept, hoffers, hend]
    · rw [balanced_goes_on hash s hs hsep hoffers hend]
      simp only [Kept, hoffers, hend, if_false, forall_const]
      refine forall₃_congr fun r hr he => ?_
      have htake := TargetLine.taken_offers hoffers
      rw [Option.mem_def] at hr
      rw [hr] at htake
      have hpanic := panic_not_mem hoffers hend htake.symm
      rw [settles_iff he hpanic, TargetLine.effectsOf, hr]
  · have hsame : step hash s (.work t i a x w) = s := by
      simp [step, work, onLine, TargetLine.work, TargetLine.taken, hoffers]
    rw [hsame]
    simp [Kept, hoffers, hs]

theorem balanced_step (hs : Balanced s) (hsep : ∀ t, (s.line t).Separate) (a : Action τ) :
    Balanced (step hash s a) ↔ Kept s a := by
  cases a with
  | push t e => exact balanced_push hash s hs t e
  | enter t => exact balanced_enter hash s hs t
  | work t i a x w => exact balanced_work hash s hs hsep t i a x w
  | outside t board =>
    refine iff_of_true (fun n => ?_) trivial
    have hsum := sum_onLine s t ((s.line t).step hash (.outside board)) n
    have hn := hs n
    have hsame : ((s.line t).step hash (.outside board)).pending n = (s.line t).pending n := rfl
    have hregistry : (step hash s (.outside t board)).registry = s.registry := rfl
    have hline : (step hash s (.outside t board)).line =
        (onLine s t ((s.line t).step hash (.outside board))).line := rfl
    rw [hregistry, hline]
    omega

end Steps

/-- In every run, the registry counts the renames that are pending in every state, if and only
if nothing ever comes between a rename and its clearing. -/
theorem balanced_iff (hash : U64 → ℕ) (workers : τ → ℕ) (board : τ → TargetBoard)
    (scanDepth : τ → U64) (now : ℕ) (acts : List (Action τ)) :
    (∀ p, p <+: acts → Balanced (Run.exec (step hash) (start workers board scanDepth now) p)) ↔
      Run.Along (step hash) Kept (start workers board scanDepth now) acts := by
  refine Run.forall_prefix_iff_along (step hash) (A := fun s => ∀ t, (s.line t).Separate)
    (P := fun _ => True) ?_ ?_ acts (fun _ _ => trivial) ?_ ?_
  · intro s a _ hsep _
    exact separate_step hash hsep a
  · intro s a _ hsep hs
    exact balanced_step hash s hs hsep a
  · intro t
    exact TargetLine.separate_start _ _ _ _
  · exact balanced_start workers board scanDepth now

end Balance

/-! ## Renames that are never cleared, and ones that are cleared too early -/

def board : TargetBoard := ⟨false, [], false, false, false, []⟩

def renameOf (type : EventType) : Event :=
  { Event.zero with eventType := type, inode := 5, name := "a" }

def steady : Attempt := ⟨.plain (.root ⟨493, 0, 0⟩), none, 0⟩

def blankWorld : World := ⟨.root ⟨493, 0, 0⟩, fun _ => none, fun _ => none⟩

/-- A single target with one worker. -/
def single : Storm Unit := start (fun _ => 1) (fun _ => board) (fun _ => 8) 0

def worker (a : WorkerLoop.Action) : Action Unit := .work () 0 a steady blankWorld

/-- The worker receives a rename that has just been pushed. -/
def handleRename (type : EventType) : List (Action Unit) :=
  [.push () (renameOf type), worker .turn, worker (.recv .structural (renameOf type) 0 0 0)]

/-- A rename whose old path is not on the target is done and stays marked; one whose second
half is missing is cleared although it will be tried again. -/
theorem rename_unbalanced :
    ¬ Balanced (Run.exec (step fun _ => 0) single (handleRename .rename)) ∧
      ¬ Balanced (Run.exec (step fun _ => 0) single (handleRename .renameIncomplete)) := by
  constructor
  · intro h
    have hmarked : getPendingRenames 5
        (Run.exec (step fun _ => 0) single (handleRename .rename)).registry = 1 := by decide
    have hpending : ((Run.exec (step fun _ => 0) single (handleRename .rename)).line ()).pending 5 =
        0 := by decide
    have hbalance := h 5
    simp [hmarked, hpending] at hbalance
  · intro h
    have hmarked : getPendingRenames 5
        (Run.exec (step fun _ => 0) single (handleRename .renameIncomplete)).registry = 0 := by decide
    have hpending : ((Run.exec (step fun _ => 0) single (handleRename .renameIncomplete)).line
        ()).pending 5 = 1 := by decide
    have hbalance := h 5
    simp [hmarked, hpending] at hbalance

end StormBalance

end Foxing
