import Foxing.Lib.Run
import Foxing.Lib.Tally

/-!
# The in-memory write-ahead log

Guards on one inode: writers share it, a rename, a truncation or a barrier wants
it alone. A task takes one atomic step at a time. A writer counts itself, then
looks once more at the exclusive lock; a barrier waits for a writer count of
zero, then takes the exclusive lock. The steps are those of `acquire_barrier` on
the three atomics of the inode and of the release of a guard; the log entries
that a guard leaves take no part. Counters are integers, so that an underflow
would show.
-/
namespace Foxing.Wal

inductive WalOpKind where
  | write | rename | truncate | metadata | barrier
  deriving DecidableEq, Repr

/-- The kinds that exclude all others. -/
def WalOpKind.exclusive : WalOpKind → Bool
  | .rename | .truncate | .barrier => true
  | _ => false

/-- Where a task stands, named after the atomic step it takes next. -/
inductive Phase where
  | idle
  /-- The load of `exclusive_locked` at the head of the loop. -/
  | enter (kind : WalOpKind)
  | loadPending
  | loadActive
  | addWriter
  | recheck
  | subWriter
  | addPending (kind : WalOpKind)
  | loadWriters (kind : WalOpKind)
  | compareExchange (kind : WalOpKind)
  | subPending (kind : WalOpKind)
  | held (kind : WalOpKind)
  deriving DecidableEq, Repr

structure InodeState (T : Type) where
  activeWriters : ℤ
  pendingBarriers : ℤ
  exclusiveLocked : Bool
  phase : T → Phase

def maxWritersBeforeBarrier : ℤ := 10

variable {T : Type}

def InodeState.new : InodeState T := ⟨0, 0, false, fun _ => .idle⟩

inductive Action (T : Type) where
  /-- A task calls `acquire_barrier`. -/
  | call (t : T) (kind : WalOpKind)
  /-- A task takes its next atomic step. -/
  | go (t : T)
  /-- A task drops its guard. -/
  | drop (t : T)

namespace InodeState
variable [DecidableEq T]

def goTo (s : InodeState T) (t : T) (p : Phase) : InodeState T :=
  { s with phase := Function.update s.phase t p }

@[simp] theorem goTo_activeWriters (s : InodeState T) (t : T) (p : Phase) :
    (s.goTo t p).activeWriters = s.activeWriters := rfl

@[simp] theorem goTo_pendingBarriers (s : InodeState T) (t : T) (p : Phase) :
    (s.goTo t p).pendingBarriers = s.pendingBarriers := rfl

@[simp] theorem goTo_exclusiveLocked (s : InodeState T) (t : T) (p : Phase) :
    (s.goTo t p).exclusiveLocked = s.exclusiveLocked := rfl

/-- One atomic step of `acquire_barrier`. A task that has to wait is back at a load. -/
def advance (s : InodeState T) (t : T) : InodeState T :=
  match s.phase t with
  | .idle | .held _ => s
  | .enter kind =>
    if s.exclusiveLocked then s
    else
      match kind with
      | .write => s.goTo t .loadPending
      | .metadata => s.goTo t (.held .metadata)
      | kind => s.goTo t (.addPending kind)
  | .loadPending =>
    if 0 < s.pendingBarriers then s.goTo t .loadActive else s.goTo t .addWriter
  | .loadActive =>
    if maxWritersBeforeBarrier ≤ s.activeWriters then s.goTo t (.enter .write)
    else s.goTo t .addWriter
  | .addWriter => { s.goTo t .recheck with activeWriters := s.activeWriters + 1 }
  | .recheck => if s.exclusiveLocked then s.goTo t .subWriter else s.goTo t (.held .write)
  | .subWriter => { s.goTo t (.enter .write) with activeWriters := s.activeWriters - 1 }
  | .addPending kind =>
    { s.goTo t (.loadWriters kind) with pendingBarriers := s.pendingBarriers + 1 }
  | .loadWriters kind => if s.activeWriters = 0 then s.goTo t (.compareExchange kind) else s
  | .compareExchange kind =>
    if s.exclusiveLocked then s.goTo t (.loadWriters kind)
    else { s.goTo t (.subPending kind) with exclusiveLocked := true }
  | .subPending kind =>
    { s.goTo t (.held kind) with pendingBarriers := s.pendingBarriers - 1 }

/-- The release of a guard by its kind. -/
def release (s : InodeState T) (t : T) : InodeState T :=
  match s.phase t with
  | .held .write => { s.goTo t .idle with activeWriters := s.activeWriters - 1 }
  | .held .metadata => s.goTo t .idle
  | .held _ => { s.goTo t .idle with exclusiveLocked := false }
  | _ => s

def step (s : InodeState T) : Action T → InodeState T
  | .call t kind => if s.phase t = .idle then s.goTo t (.enter kind) else s
  | .go t => s.advance t
  | .drop t => s.release t

def run (s : InodeState T) (acts : List (Action T)) : InodeState T :=
  Run.exec step s acts

end InodeState

/-! ## What the counters count -/

namespace Phase

/-- A writer that the count of writers includes: from its increment until it has taken it
back or, with a guard, until the guard is dropped. -/
@[simp] def counted : Phase → Bool
  | .recheck | .subWriter | .held .write => true
  | _ => false

@[simp] def announced : Phase → Bool
  | .loadWriters _ | .compareExchange _ | .subPending _ => true
  | _ => false

/-- A task that has the exclusive lock. -/
@[simp] def locking : Phase → Bool
  | .subPending _ => true
  | .held kind => kind.exclusive
  | _ => false

/-- The compare and exchange of a barrier comes next. -/
def swaps : Phase → Bool
  | .compareExchange _ => true
  | _ => false

/-- Only kinds that exclude others go the way of a barrier. -/
@[simp] def WellKinded : Phase → Prop
  | .addPending kind | .loadWriters kind | .compareExchange kind | .subPending kind =>
    kind.exclusive = true
  | _ => True

end Phase

namespace InodeState
variable [Fintype T]

/-- The atomics agree with the phases of the tasks. -/
structure Counts (s : InodeState T) : Prop where
  writers : s.activeWriters = tally s.phase Phase.counted
  barriers : s.pendingBarriers = tally s.phase Phase.announced
  lock : (s.exclusiveLocked.toNat : ℤ) = tally s.phase Phase.locking
  kinds : ∀ t, (s.phase t).WellKinded

theorem counts_new : (InodeState.new : InodeState T).Counts where
  writers := (Tally.tally_const Phase.counted rfl).symm
  barriers := (Tally.tally_const Phase.announced rfl).symm
  lock := (Tally.tally_const Phase.locking rfl).symm
  kinds _ := trivial

variable [DecidableEq T] {s : InodeState T}

/-- One task moves, and the atomics change by as much as it counts for. -/
theorem Counts.move (h : s.Counts) (t : T) (p : Phase) {writers barriers : ℤ} {lock : Bool}
    (hkind : p.WellKinded)
    (hwriters : writers = s.activeWriters + ((if p.counted = true then 1 else 0) -
      if (s.phase t).counted = true then 1 else 0))
    (hbarriers : barriers = s.pendingBarriers + ((if p.announced = true then 1 else 0) -
      if (s.phase t).announced = true then 1 else 0))
    (hlock : (lock.toNat : ℤ) = s.exclusiveLocked.toNat +
      ((if p.locking = true then 1 else 0) - if (s.phase t).locking = true then 1 else 0)) :
    (⟨writers, barriers, lock, Function.update s.phase t p⟩ : InodeState T).Counts := by
  constructor
  · rw [Tally.tally_update, ← h.writers]
    exact hwriters
  · rw [Tally.tally_update, ← h.barriers]
    exact hbarriers
  · rw [Tally.tally_update, ← h.lock]
    exact hlock
  · intro u
    by_cases hu : u = t
    · subst hu
      simpa using hkind
    · simpa [hu] using h.kinds u

theorem Counts.advance (h : s.Counts) (t : T) : (s.advance t).Counts := by
  have hkind := h.kinds t
  unfold InodeState.advance
  cases hp : s.phase t with
  | idle => exact h
  | held kind => exact h
  | enter kind =>
    dsimp only
    split
    · exact h
    cases kind with
    | write => apply h.move t .loadPending <;> simp [hp]
    | metadata => apply h.move t (.held .metadata) <;> simp [hp, WalOpKind.exclusive]
    | rename => apply h.move t (.addPending .rename) <;> simp [hp, WalOpKind.exclusive]
    | truncate => apply h.move t (.addPending .truncate) <;> simp [hp, WalOpKind.exclusive]
    | barrier => apply h.move t (.addPending .barrier) <;> simp [hp, WalOpKind.exclusive]
  | loadPending =>
    dsimp only
    split
    · apply h.move t .loadActive <;> simp [hp]
    · apply h.move t .addWriter <;> simp [hp]
  | loadActive =>
    dsimp only
    split
    · apply h.move t (.enter .write) <;> simp [hp]
    · apply h.move t .addWriter <;> simp [hp]
  | addWriter => apply h.move t .recheck <;> simp [hp]
  | recheck =>
    dsimp only
    split
    · apply h.move t .subWriter <;> simp [hp]
    · apply h.move t (.held .write) <;> simp [hp, WalOpKind.exclusive]
  | subWriter => apply h.move t (.enter .write) <;> simp [hp, Int.sub_eq_add_neg]
  | addPending kind =>
    rw [hp] at hkind
    apply h.move t (.loadWriters kind) hkind <;> simp [hp]
  | loadWriters kind =>
    rw [hp] at hkind
    dsimp only
    split
    · apply h.move t (.compareExchange kind) hkind <;> simp [hp]
    · exact h
  | compareExchange kind =>
    rw [hp] at hkind
    dsimp only
    split
    · apply h.move t (.loadWriters kind) hkind <;> simp [hp]
    · next hfree => apply h.move t (.subPending kind) hkind <;> simp [hp, hfree]
  | subPending kind =>
    rw [hp] at hkind
    -- a barrier's guard is not one of a writer
    have hwrite : (Phase.held kind).counted = false := by
      cases kind with
      | write => cases hkind
      | _ => rfl
    apply h.move t (.held kind) trivial
    · rw [hwrite, hp]
      simp
    · simp [hp, Int.sub_eq_add_neg]
    · have hlocking : (Phase.held kind).locking = true := hkind
      rw [hlocking, hp]
      simp

omit [DecidableEq T] in
/-- The lock of a task that has it is taken. -/
theorem Counts.exclusiveLocked_of_locking (h : s.Counts) {t : T}
    (ht : (s.phase t).locking = true) : s.exclusiveLocked = true := by
  have hpos := Tally.tally_pos s.phase Phase.locking ht
  cases hlock : s.exclusiveLocked with
  | true => rfl
  | false =>
    rw [← h.lock, hlock] at hpos
    cases hpos

theorem Counts.release (h : s.Counts) (t : T) : (s.release t).Counts := by
  have hlocked : (s.phase t).locking = true → s.exclusiveLocked = true :=
    h.exclusiveLocked_of_locking
  unfold InodeState.release
  cases hp : s.phase t with
  | held kind =>
    rw [hp] at hlocked
    cases kind with
    | write => apply h.move t .idle <;> simp [hp, WalOpKind.exclusive, Int.sub_eq_add_neg]
    | metadata => apply h.move t .idle <;> simp [hp, WalOpKind.exclusive]
    | rename | truncate | barrier =>
      apply h.move t .idle <;> simp [hp, WalOpKind.exclusive, hlocked rfl]
  | _ => exact h

theorem Counts.step (h : s.Counts) (a : Action T) : (s.step a).Counts := by
  cases a with
  | call t kind =>
    simp only [InodeState.step]
    split
    · next hp => apply h.move t (.enter kind) <;> simp [hp]
    · exact h
  | go t => exact h.advance t
  | drop t => exact h.release t

omit [DecidableEq T] in
/-- At most one task has the exclusive lock. -/
theorem Counts.locking_unique (h : s.Counts) {t u : T} (ht : (s.phase t).locking = true)
    (hu : (s.phase u).locking = true) : t = u := by
  refine Tally.eq_of_tally_le_one s.phase Phase.locking ?_ ht hu
  rw [← h.lock]
  exact_mod_cast Bool.toNat_le s.exclusiveLocked

/-! ## Mutual exclusion -/

omit [Fintype T] [DecidableEq T] in
/-- No guard that wants the inode alone is held beside that of a writer or another such. -/
def Exclusive (s : InodeState T) : Prop :=
  ∀ t u kind kind', t ≠ u → s.phase t = .held kind → kind.exclusive = true →
    s.phase u = .held kind' → kind' = .metadata

omit [DecidableEq T] in
/-- The count of writers: those with a guard and those between their increment and the
outcome of their second look. None of them can take it below zero. -/
structure WritersCounted (s : InodeState T) : Prop where
  count : s.activeWriters = tally s.phase (fun p => decide (p = .held .write)) +
    tally s.phase (fun p => decide (p = .recheck ∨ p = .subWriter))
  positive : ∀ t, s.phase t = .held .write ∨ s.phase t = .subWriter → 0 < s.activeWriters

/-- The condition on a step: a barrier takes the exclusive lock when no writer has a guard. -/
def Safe (s : InodeState T) : Action T → Prop
  | .go t => (s.phase t).swaps = true → s.exclusiveLocked = false → ∀ u, s.phase u ≠ .held .write
  | _ => True

instance decidableSafe (s : InodeState T) : ∀ a, Decidable (s.Safe a)
  | .go t => inferInstanceAs (Decidable ((s.phase t).swaps = true → s.exclusiveLocked = false →
      ∀ u, s.phase u ≠ .held .write))
  | .call _ _ => inferInstanceAs (Decidable True)
  | .drop _ => inferInstanceAs (Decidable True)

omit [DecidableEq T] in
theorem Counts.writersCounted (h : s.Counts) : s.WritersCounted := by
  constructor
  · rw [h.writers]
    apply Tally.tally_add
    intro p
    cases p with
    | held kind =>
      cases kind with
      | write => simp
      | _ => simp
    | _ => simp
  · intro t ht
    rw [h.writers]
    apply Tally.tally_pos s.phase Phase.counted (t := t)
    rcases ht with ht | ht
    · rw [ht]
      rfl
    · rw [ht]
      rfl

omit [Fintype T] [DecidableEq T] in
/-- While the lock is taken no writer has a guard. -/
def Apart (s : InodeState T) : Prop := s.exclusiveLocked = true → ∀ u, s.phase u ≠ .held .write

omit [Fintype T] in
/-- A task that does not come by a writer's guard leaves the two apart. -/
theorem Apart.move {s' : InodeState T} (h : s.Apart) (t : T) {p : Phase} (hp : p ≠ .held .write)
    (hphase : s'.phase = Function.update s.phase t p)
    (hlock : s'.exclusiveLocked = true → s.exclusiveLocked = true ∨ ∀ u, s.phase u ≠ .held .write) :
    s'.Apart := by
  intro hl u
  have hall : ∀ u, s.phase u ≠ .held .write := (hlock hl).elim h id
  rw [hphase]
  by_cases hu : u = t
  · subst hu
    simpa using hp
  · simpa [hu] using hall u

omit [Fintype T] in
theorem Apart.advance (h : s.Apart) (t : T) (hsafe : s.Safe (.go t)) (hkind : (s.phase t).WellKinded) :
    (s.advance t).Apart := by
  unfold InodeState.advance
  cases hp : s.phase t with
  | idle => exact h
  | held kind => exact h
  | enter kind =>
    dsimp only
    split
    · exact h
    cases kind with
    | write => exact h.move t (by simp) rfl .inl
    | _ => exact h.move t (by simp) rfl .inl
  | loadPending | loadActive =>
    dsimp only
    split
    · exact h.move t (by simp) rfl .inl
    · exact h.move t (by simp) rfl .inl
  | addWriter => exact h.move t (by simp) rfl .inl
  | recheck =>
    dsimp only
    split
    · exact h.move t (by simp) rfl .inl
    · next hfree =>
      -- the second look found the lock free
      intro hl
      exact absurd hl hfree
  | subWriter | addPending kind => exact h.move t (by simp) rfl .inl
  | loadWriters kind =>
    dsimp only
    split
    · exact h.move t (by simp) rfl .inl
    · exact h
  | compareExchange kind =>
    dsimp only
    split
    · exact h.move t (by simp) rfl .inl
    · next hfree =>
      exact h.move t (by simp) rfl (fun _ => .inr (hsafe (by rw [hp]; rfl) (by simpa using hfree)))
  | subPending kind =>
    rw [hp] at hkind
    refine h.move t ?_ rfl .inl
    rintro ⟨⟩
    cases hkind

omit [Fintype T] in
theorem Apart.release (h : s.Apart) (t : T) : (s.release t).Apart := by
  unfold InodeState.release
  split
  · exact h.move t (by simp) rfl .inl
  · exact h.move t (by simp) rfl .inl
  · exact h.move t (by simp) rfl (by simp)
  · exact h

omit [Fintype T] in
theorem Apart.step (h : s.Apart) (hkinds : ∀ t, (s.phase t).WellKinded) {a : Action T}
    (hsafe : s.Safe a) : (s.step a).Apart := by
  cases a with
  | call t kind =>
    simp only [InodeState.step]
    split
    · exact h.move t (by simp) rfl .inl
    · exact h
  | go t => exact h.advance t hsafe (hkinds t)
  | drop t => exact h.release t

omit [DecidableEq T] in
theorem Counts.exclusive (h : s.Counts) (hapart : s.Apart) : s.Exclusive := by
  intro t u kind kind' hne ht hkind hu
  have hlocking : (s.phase t).locking = true := by
    rw [ht]
    exact hkind
  cases kind' with
  | metadata => rfl
  | write => exact absurd hu (hapart (h.exclusiveLocked_of_locking hlocking) u)
  | _ => exact absurd (h.locking_unique hlocking (by rw [hu]; rfl)) hne

/-- The count of writers is right in every state of every run. -/
theorem writersCounted_run (acts : List (Action T)) :
    (InodeState.new.run acts : InodeState T).WritersCounted :=
  (Run.invariant_all step (I := Counts) (fun _ a h => h.step a) acts counts_new).writersCounted

/-- In a run whose barriers take the lock only when no writer has a guard, guards exclude
each other in every state, and the writers are counted. -/
theorem exclusive_of_safe (acts : List (Action T))
    (h : Run.Along step Safe (InodeState.new : InodeState T) acts) :
    ∀ before, before <+: acts → (InodeState.new.run before : InodeState T).Exclusive ∧
      (InodeState.new.run before : InodeState T).WritersCounted := by
  intro before hbefore
  have hstep : ∀ (s : InodeState T) (a : Action T), s.Safe a → s.Counts ∧ s.Apart →
      (s.step a).Counts ∧ (s.step a).Apart :=
    fun s a hsafe hs => ⟨hs.1.step a, hs.2.step hs.1.kinds hsafe⟩
  have hnew : (InodeState.new : InodeState T).Counts ∧ (InodeState.new : InodeState T).Apart :=
    ⟨counts_new, fun hl => by cases hl⟩
  have hrun := Run.invariant_prefix step hstep h hnew before hbefore
  exact ⟨hrun.1.exclusive hrun.2, hrun.1.writersCounted⟩

/-- A writer takes and drops its guard before a rename asks for the inode. -/
def writeThenRename : List (Action (Fin 2)) :=
  [.call 0 .write, .go 0, .go 0, .go 0, .go 0, .drop 0,
    .call 1 .rename, .go 1, .go 1, .go 1, .go 1, .go 1]

/-- The guard of the rename is alone, and no writer is counted. -/
theorem exclusive_writeThenRename :
    (InodeState.new.run writeThenRename : InodeState (Fin 2)).Exclusive ∧
      (InodeState.new.run writeThenRename : InodeState (Fin 2)).WritersCounted :=
  exclusive_of_safe writeThenRename (by decide) writeThenRename (List.prefix_refl _)

/-- The rename has seen no writer when one comes in; the writer's second look finds the
lock still free, and the rename then takes it. -/
def renameOverWriter : List (Action (Fin 2)) :=
  [.call 1 .rename, .go 1, .go 1, .go 1,
    .call 0 .write, .go 0, .go 0, .go 0, .go 0, .go 0,
    .go 1, .go 1]

/-- Both hold their guards. -/
theorem renameOverWriter_held :
    ¬ ∀ before, before <+: renameOverWriter →
      (InodeState.new.run before : InodeState (Fin 2)).Exclusive ∧
        (InodeState.new.run before : InodeState (Fin 2)).WritersCounted := by
  intro h
  have hend := (h renameOverWriter (List.prefix_refl _)).1 1 0 .rename .write (by decide)
    (by decide) rfl (by decide)
  cases hend

end InodeState

end Foxing.Wal
