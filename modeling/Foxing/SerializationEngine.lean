import Foxing.TicketBarrier

/-!
# The serialization engine

The engine has the tickets of the inodes and the locks of the paths. A path is locked by an entry
with a handle, and who finds an entry clones its handle and waits on it. The release of the path
takes the entry out and wakes those that wait on the handle by then. Who has cloned it and does
not wait yet is not woken, and nobody will wake them later.
-/
namespace Foxing.Serialization

/-! ## The engine -/

/-- Where a call of `acquire_path_barrier` is: before it looks at the locks, with a handle that
it has cloned from them, or waiting on the handle. -/
inductive PathCall where
  | looking
  | cloned (notify : ℕ)
  | waiting (notify : ℕ)
  deriving DecidableEq, Repr

/-- The handle has been cloned and is not waited on yet. -/
def PathCall.isCloned : PathCall → Bool
  | .cloned _ => true
  | _ => false

structure PathTask (π : Type*) where
  path : π
  call : PathCall
  deriving DecidableEq, Repr

/-- The tickets of the inodes and the locks of the paths, with the calls that are on their way to
a lock and the live guards. A handle is known by its number. -/
structure SerializationEngine (ι π : Type*) where
  state : ι → Option InodeState
  pathLocks : π → Option ℕ
  nextNotify : ℕ
  pathTasks : List (PathTask π)
  pathGuards : List π

inductive EngineAction (ι π : Type*) where
  | inode (inode : ι) (a : TicketAction)
  | acquirePathBarrier (path : π)
  | lookUp (i : ℕ)
  | notified (i : ℕ)
  | dropPathGuard (i : ℕ)
  deriving DecidableEq, Repr

namespace SerializationEngine
variable {ι π : Type*} [DecidableEq ι] [DecidableEq π] (s : SerializationEngine ι π)

def new : SerializationEngine ι π := ⟨fun _ => none, fun _ => none, 0, [], []⟩

/-- The state that a call finds or inserts. -/
def inodeState (inode : ι) : InodeState := (s.state inode).getD .new

/-- Only a call that takes a ticket makes an entry for the inode. -/
def ticketStep (inode : ι) : TicketAction → SerializationEngine ι π
  | .acquire => { s with state := Function.update s.state inode (s.inodeState inode).acquire }
  | a => { s with state := Function.update s.state inode ((s.state inode).map (·.step a)) }

/-- The part of the loop under the lock: the handle is cloned, or the path gets a new one. -/
def lookUp (i : ℕ) : SerializationEngine ι π :=
  match s.pathTasks[i]? with
  | some ⟨path, .looking⟩ =>
    match s.pathLocks path with
    | some notify => { s with pathTasks := s.pathTasks.set i ⟨path, .cloned notify⟩ }
    | none =>
      { s with
        pathLocks := Function.update s.pathLocks path (some s.nextNotify)
        nextNotify := s.nextNotify + 1
        pathTasks := s.pathTasks.eraseIdx i
        pathGuards := s.pathGuards ++ [path] }
  | _ => s

/-- The call begins to wait. It is from here on that `notify_waiters` wakes it. -/
def notified (i : ℕ) : SerializationEngine ι π :=
  match s.pathTasks[i]? with
  | some ⟨path, .cloned notify⟩ =>
    { s with pathTasks := s.pathTasks.set i ⟨path, .waiting notify⟩ }
  | _ => s

/-- A call that waits on the handle goes round the loop again. -/
def wake (notify : ℕ) (task : PathTask π) : PathTask π :=
  if task.call = .waiting notify then { task with call := .looking } else task

def releasePath (path : π) : SerializationEngine ι π :=
  match s.pathLocks path with
  | none => s
  | some notify =>
    { s with
      pathLocks := Function.update s.pathLocks path none
      pathTasks := s.pathTasks.map (wake notify) }

def dropPathGuard (i : ℕ) : SerializationEngine ι π :=
  match s.pathGuards[i]? with
  | none => s
  | some path => { s.releasePath path with pathGuards := s.pathGuards.eraseIdx i }

def step : EngineAction ι π → SerializationEngine ι π
  | .inode inode a => s.ticketStep inode a
  | .acquirePathBarrier path => { s with pathTasks := s.pathTasks ++ [⟨path, .looking⟩] }
  | .lookUp i => s.lookUp i
  | .notified i => s.notified i
  | .dropPathGuard i => s.dropPathGuard i

omit [DecidableEq π] in
/-- An inode without an entry is as one that has not been used. -/
theorem inodeState_ticketStep (inode : ι) (a : TicketAction) :
    (s.ticketStep inode a).inodeState inode = (s.inodeState inode).step a := by
  cases hstate : s.state inode with
  | some st => cases a <;> simp [ticketStep, inodeState, InodeState.step, hstate]
  | none =>
    cases a <;> simp [ticketStep, inodeState, InodeState.step, hstate, InodeState.poll,
      InodeState.cancel, InodeState.dropGuard, InodeState.completeAgain, InodeState.new]

omit [DecidableEq π] in
theorem inodeState_ticketStep_of_ne {inode other : ι} (hne : other ≠ inode) (a : TicketAction) :
    (s.ticketStep inode a).inodeState other = s.inodeState other := by
  cases a <;> simp [ticketStep, inodeState, Function.update_of_ne hne]

omit [DecidableEq ι] in
theorem state_lookUp (i : ℕ) : (s.lookUp i).state = s.state := by
  unfold lookUp
  split
  · split <;> rfl
  · rfl

omit [DecidableEq ι] [DecidableEq π] in
theorem state_notified (i : ℕ) : (s.notified i).state = s.state := by
  unfold notified
  split <;> rfl

omit [DecidableEq ι] in
theorem state_dropPathGuard (i : ℕ) : (s.dropPathGuard i).state = s.state := by
  unfold dropPathGuard releasePath
  split
  · rfl
  · dsimp only
    split <;> rfl

/-- An inode makes its own steps, and no others. -/
theorem inodeState_step (a : EngineAction ι π) (inode : ι) :
    (s.step a).inodeState inode = s.inodeState inode ∨
      ∃ t, a = .inode inode t ∧ (s.step a).inodeState inode = (s.inodeState inode).step t := by
  cases a with
  | inode other t =>
    by_cases heq : inode = other
    · subst heq
      exact .inr ⟨t, rfl, s.inodeState_ticketStep inode t⟩
    · exact .inl (s.inodeState_ticketStep_of_ne heq t)
  | acquirePathBarrier path => exact .inl rfl
  | lookUp i => exact .inl (by rw [inodeState, step, state_lookUp]; rfl)
  | notified i => exact .inl (by rw [inodeState, step, state_notified]; rfl)
  | dropPathGuard i => exact .inl (by rw [inodeState, step, state_dropPathGuard]; rfl)

theorem inv_step (a : EngineAction ι π) (h : ∀ inode, (s.inodeState inode).Inv) :
    ∀ inode, ((s.step a).inodeState inode).Inv := by
  intro inode
  rcases s.inodeState_step a inode with heq | ⟨t, -, heq⟩
  · rw [heq]
    exact h inode
  · rw [heq]
    exact (h inode).step t

theorem inv_exec (as : List (EngineAction ι π)) (inode : ι) :
    ((Run.exec step new as).inodeState inode).Inv := by
  have hnew : ∀ inode, ((new : SerializationEngine ι π).inodeState inode).Inv :=
    fun _ => InodeState.inv_new
  exact Run.invariant_all step (fun s a h => s.inv_step a h) as hnew inode

theorem finished_le_exec (as : List (EngineAction ι π)) (inode : ι) :
    (s.inodeState inode).barrier.finished ≤
      ((Run.exec step s as).inodeState inode).barrier.finished := by
  induction as generalizing s with
  | nil => exact le_rfl
  | cons a as ih =>
    refine le_trans ?_ (ih (s.step a))
    rcases s.inodeState_step a inode with heq | ⟨t, -, heq⟩
    · rw [heq]
    · rw [heq]
      exact InodeState.finished_le_step _ t

/-- Whatever calls are made, completed and dropped, and in which order: an inode has one live
guard at most, its guards have been granted for the tickets from the first on, and the watermark
is the last ticket up to which all are completed. The watermark does not go back. A barrier that
gets any completions whatever has the right watermark, too. -/
theorem tickets_serialized (as bs : List (EngineAction ι π)) (inode : ι) (seqs more : List ℕ) :
    ((Run.exec step new as).inodeState inode).guards.length ≤ 1 ∧
      ((Run.exec step new as).inodeState inode).granted =
        List.range' 1 ((Run.exec step new as).inodeState inode).granted.length ∧
      IsGreatest
        {n | ∀ k, 1 ≤ k → k ≤ n → k ∈ ((Run.exec step new as).inodeState inode).completed}
        ((Run.exec step new as).inodeState inode).barrier.finished ∧
      ((Run.exec step new as).inodeState inode).barrier.finished ≤
        ((Run.exec step new (as ++ bs)).inodeState inode).barrier.finished ∧
      IsGreatest {n | ∀ k, 1 ≤ k → k ≤ n → k ∈ seqs}
        (seqs.foldl SequenceBarrier.complete (.new 0)).finished ∧
      (seqs.foldl SequenceBarrier.complete (.new 0)).finished ≤
        ((seqs ++ more).foldl SequenceBarrier.complete (.new 0)).finished := by
  have hinv := inv_exec as inode
  refine ⟨?_, hinv.granted, hinv.tracks.isGreatest, ?_, ?_, ?_⟩
  · rcases hinv.held with ⟨hguards, -⟩ | ⟨hguards, -⟩ <;> simp [hguards]
  · rw [Run.exec_append]
    exact finished_le_exec _ bs inode
  · simpa using (SequenceBarrier.tracks_foldl seqs).isGreatest
  · rw [List.foldl_append]
    exact SequenceBarrier.finished_le_foldl _ more

/-! ## Waiters -/

/-- Who waits for a path waits on the handle that the release of the path will wake. -/
def Registered : Prop :=
  ∀ task ∈ s.pathTasks, ∀ notify, task.call = .waiting notify →
    s.pathLocks task.path = some notify

/-- The cloned handles are registered, too. -/
def HandlesRegistered : Prop :=
  ∀ task ∈ s.pathTasks, ∀ notify, task.call = .cloned notify ∨ task.call = .waiting notify →
    s.pathLocks task.path = some notify

/-- No guard of a path is dropped while a call has a handle of the path and does not wait on it
yet, and no call that waits for its ticket is dropped. -/
def Timely : EngineAction ι π → Prop
  | .inode inode a => (s.inodeState inode).Keeps a
  | .dropPathGuard i => ∀ path ∈ s.pathGuards[i]?, ∀ task ∈ s.pathTasks,
      task.path = path → task.call.isCloned = false
  | _ => True

instance decidableTimely : ∀ a, Decidable (s.Timely a)
  | .inode inode a => inferInstanceAs (Decidable ((s.inodeState inode).Keeps a))
  | .dropPathGuard i => inferInstanceAs (Decidable (∀ path ∈ s.pathGuards[i]?,
      ∀ task ∈ s.pathTasks, task.path = path → task.call.isCloned = false))
  | .acquirePathBarrier _ | .lookUp _ | .notified _ => inferInstanceAs (Decidable True)

section Handles
variable {s}

omit [DecidableEq ι] [DecidableEq π] in
theorem HandlesRegistered.registered (h : s.HandlesRegistered) : s.Registered :=
  fun task htask notify hcall => h task htask notify (.inr hcall)

omit [DecidableEq ι] in
theorem HandlesRegistered.lookUp (h : s.HandlesRegistered) (i : ℕ) :
    (s.lookUp i).HandlesRegistered := by
  unfold SerializationEngine.lookUp
  split
  next path hi =>
    cases hlock : s.pathLocks path with
    | some notify =>
      intro task htask n hcall
      rcases List.mem_or_eq_of_mem_set htask with htask | rfl
      · exact h task htask n hcall
      · simpa [hlock] using hcall
    | none =>
      -- The path was not locked, so no call has a handle of it.
      intro task htask n hcall
      have hold := h task (List.mem_of_mem_eraseIdx htask) n hcall
      have hne : task.path ≠ path := by
        intro heq
        rw [heq, hlock] at hold
        cases hold
      dsimp only
      rw [Function.update_of_ne hne]
      exact hold
  next => exact h

omit [DecidableEq ι] [DecidableEq π] in
theorem HandlesRegistered.notified (h : s.HandlesRegistered) (i : ℕ) :
    (s.notified i).HandlesRegistered := by
  unfold SerializationEngine.notified
  split
  next path notify hi =>
    intro task htask n hcall
    rcases List.mem_or_eq_of_mem_set htask with htask | rfl
    · exact h task htask n hcall
    · have heq : notify = n := by simpa using hcall
      subst heq
      exact h _ (List.mem_of_getElem? hi) notify (.inl rfl)
  next => exact h

omit [DecidableEq ι] in
theorem HandlesRegistered.dropPathGuard (h : s.HandlesRegistered) {i : ℕ}
    (htimely : s.Timely (.dropPathGuard i)) : (s.dropPathGuard i).HandlesRegistered := by
  unfold SerializationEngine.dropPathGuard
  cases hi : s.pathGuards[i]? with
  | none => exact h
  | some path =>
    cases hlock : s.pathLocks path with
    | none =>
      simp only [releasePath, hlock]
      exact h
    | some notify =>
      simp only [releasePath, hlock]
      intro task htask n hcall
      obtain ⟨old, hold, rfl⟩ := List.mem_map.mp htask
      dsimp only at hcall ⊢
      unfold wake at hcall ⊢
      split_ifs at hcall ⊢ with hwaiting
      · simp at hcall
      · have hregistered := h old hold n hcall
        -- A call that keeps its handle is for another path: on this one nobody has only
        -- cloned it, and those that waited on it are awake.
        have hne : old.path ≠ path := by
          intro heq
          rw [heq, hlock] at hregistered
          obtain rfl : notify = n := by simpa using hregistered
          rcases hcall with hcloned | hcall
          · have := htimely path hi old hold heq
            simp [PathCall.isCloned, hcloned] at this
          · exact hwaiting hcall
        rw [Function.update_of_ne hne]
        exact hregistered

theorem HandlesRegistered.step (h : s.HandlesRegistered) {a : EngineAction ι π}
    (htimely : s.Timely a) : (s.step a).HandlesRegistered := by
  cases a with
  | inode inode t => cases t <;> exact h
  | acquirePathBarrier path =>
    intro task htask n hcall
    rcases List.mem_append.mp htask with htask | htask
    · exact h task htask n hcall
    · obtain rfl := List.mem_singleton.mp htask
      simp at hcall
  | lookUp i => exact h.lookUp i
  | notified i => exact h.notified i
  | dropPathGuard i => exact h.dropPathGuard htimely

theorem accounted_step {a : EngineAction ι π} (htimely : s.Timely a)
    (h : ∀ inode, (s.inodeState inode).Accounted) :
    ∀ inode, ((s.step a).inodeState inode).Accounted := by
  intro inode
  rcases s.inodeState_step a inode with heq | ⟨t, rfl, heq⟩
  · rw [heq]
    exact h inode
  · rw [heq]
    exact (h inode).step htimely

end Handles

/-- As long as handles are waited on before their path is released, and no call that waits for a
ticket is dropped, nobody waits for a path in vain, and no ticket is lost. -/
theorem no_waiter_stranded (as : List (EngineAction ι π)) (htimely : Run.Along step Timely new as)
    (p : List (EngineAction ι π)) (hp : p <+: as) :
    (Run.exec step new p).Registered ∧
      ∀ inode, ((Run.exec step new p).inodeState inode).Accounted := by
  have hnew : (new : SerializationEngine ι π).HandlesRegistered ∧
      ∀ inode, ((new : SerializationEngine ι π).inodeState inode).Accounted :=
    ⟨by simp [HandlesRegistered, new], fun _ => InodeState.accounted_new⟩
  have hend := Run.invariant_prefix step
    (fun s a hok (h : s.HandlesRegistered ∧ ∀ inode, (s.inodeState inode).Accounted) =>
      ⟨h.1.step hok, accounted_step hok h.2⟩) htimely hnew p hp
  exact ⟨hend.1.registered, hend.2⟩

/-- Two calls for a path of which the second waits and is woken, and three for an inode. -/
def orderlyRun : List (EngineAction ℕ String) :=
  [.acquirePathBarrier "a", .acquirePathBarrier "a", .lookUp 0, .lookUp 0, .notified 0,
    .inode 7 .acquire, .inode 7 .acquire, .inode 7 (.poll 0), .inode 7 (.poll 0),
    .dropPathGuard 0, .inode 7 (.drop 0), .lookUp 0, .inode 7 .acquire, .inode 7 (.poll 0)]

theorem orderlyRun_strands_none :
    (Run.exec step new orderlyRun).Registered ∧
      ∀ inode, ((Run.exec step new orderlyRun).inodeState inode).Accounted :=
  no_waiter_stranded orderlyRun (by decide) orderlyRun (List.prefix_refl _)

/-- The second call has cloned the handle when the path is released, and waits on it for ever.
The second call for an inode is dropped while it waits, and its ticket is left behind. -/
theorem early_release_strands :
    ¬ (Run.exec step new [.acquirePathBarrier "a", .acquirePathBarrier "a", .lookUp 0, .lookUp 0,
        .dropPathGuard 0, .notified 0] : SerializationEngine ℕ String).Registered ∧
      ¬ ((Run.exec step new [.inode 7 .acquire, .inode 7 .acquire, .inode 7 (.poll 0),
        .inode 7 (.poll 0), .inode 7 (.cancel 0)] :
          SerializationEngine ℕ String).inodeState 7).Accounted := by
  constructor
  · intro h
    have := h ⟨"a", .waiting 0⟩ (by decide) 0 rfl
    revert this
    decide
  · intro h
    have := h 2 (by decide) (by decide)
    revert this
    decide

end SerializationEngine

end Foxing.Serialization
