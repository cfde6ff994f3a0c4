import Mathlib.Data.List.Count
import Mathlib.Data.List.Perm.Basic
import Foxing.JobQueue

/-!
# The active repairs

A path that is among the active repairs is not repaired again. It gets there with a
request and leaves with a job that is completed or has failed; jobs that end otherwise
leave it there, and of several jobs for one path the first one takes it away.
-/
namespace Foxing.JobQueue

/-- The jobs that end in a step, by path. -/
def endedKeys {π τ : Type*} (es : List (Event π τ)) : List (π × Bool) :=
  es.filterMap fun e =>
    match e with
    | .ended relPath repair _ => some (relPath, repair)
    | _ => none

namespace Worker
variable {π τ : Type*}

def keys (w : Worker π τ) : List (π × Bool) := w.jobs.map Job.key

theorem endedKeys_closed (jobs : List (Job π τ)) :
    endedKeys (jobs.map fun job => job.ended .closed) = jobs.map Job.key := by
  rw [endedKeys, List.filterMap_map]
  exact congrFun (List.filterMap_eq_map (f := Job.key)) jobs

/-- What a worker had is what it has and what has ended. -/
theorem keys_step (generation : ℕ) (w : Worker π τ) (a : WorkerAction) :
    w.keys.Perm (endedKeys (w.step generation a).2 ++ (w.step generation a).1.keys) := by
  have hmoves := moves_step generation w a
  generalize w.step generation a = x at hmoves
  obtain ⟨w', es⟩ := x
  dsimp only at hmoves ⊢
  cases hmoves with
  | silent hjobs => exact hjobs.map _
  | began _ hjobs => exact hjobs.map _
  | vanished _ hjobs => exact hjobs.map _
  | stale _ hjobs => exact hjobs.map _
  | ended hjobs => exact hjobs.map _
  | exited hphase hjobs =>
    rw [endedKeys_closed, keys, keys, hjobs, jobs, hphase]
    simp [Phase.jobs, Phase.waiting]

/-- All jobs that end in one step of a worker end alike. -/
theorem exit_eq {generation : ℕ} {w : Worker π τ} {a : WorkerAction} {p q : π} {r t : Bool}
    {x y : Exit} (hx : .ended p r x ∈ (w.step generation a).2)
    (hy : .ended q t y ∈ (w.step generation a).2) : x = y := by
  have hmoves := moves_step generation w a
  generalize w.step generation a = z at hmoves hx hy
  obtain ⟨w', es⟩ := z
  dsimp only at hmoves hx hy
  cases hmoves with
  | silent => cases hx
  | began => simp at hx
  | vanished => simp_all [Job.ended]
  | stale => simp_all [Job.ended]
  | ended => simp_all [Job.ended]
  | exited =>
    simp only [Job.ended, List.mem_map, Event.ended.injEq] at hx hy
    obtain ⟨_, _, _, _, rfl⟩ := hx
    obtain ⟨_, _, _, _, rfl⟩ := hy
    rfl

end Worker

/-- The jobs of a request that are still to be submitted, and the one that is being submitted. -/
def Request.keys {π τ : Type*} (r : Request π τ) : List (π × Bool) :=
  r.targets.map (fun _ => (r.relPath, true)) ++ r.call.toList.map Call.key

namespace State
variable {π τ : Type*}

def workerKeys (s : State π τ) : List (π × Bool) := s.workers.flatMap Worker.keys

/-- The jobs that are being submitted, wait in a channel or are with a worker, by path. -/
def live (s : State π τ) : List (π × Bool) :=
  s.request.toList.flatMap Request.keys ++ (s.calls.map Call.key ++ s.workerKeys)

/-- A path is active while there is a job for it, and as long as there is a job of the repair. -/
structure Tracked (s : State π τ) : Prop where
  held : ∀ p ∈ s.activeRepairs, ∃ repair, (p, repair) ∈ s.live
  kept : ∀ p, (p, true) ∈ s.live → p ∈ s.activeRepairs

section Effects
variable {setting : Setting τ} {s : State π τ}

/-- The jobs of one worker and of the others. -/
theorem workerKeys_perm {i : ℕ} {w : Worker π τ} (hw : s.workers[i]? = some w) :
    s.workerKeys.Perm (w.keys ++ (s.workers.eraseIdx i).flatMap Worker.keys) := by
  obtain ⟨hi, rfl⟩ := List.getElem?_eq_some_iff.mp hw
  exact (List.getElem_cons_eraseIdx_perm hi).symm.flatMap_right Worker.keys

theorem workerKeys_set {i : ℕ} {w : Worker π τ} (hw : s.workers[i]? = some w) (w' : Worker π τ) :
    ((s.workers.set i w').flatMap Worker.keys).Perm
      (w'.keys ++ (s.workers.eraseIdx i).flatMap Worker.keys) := by
  obtain ⟨hi, -⟩ := List.getElem?_eq_some_iff.mp hw
  exact (List.set_perm_cons_eraseIdx hi w').flatMap_right Worker.keys

theorem workerKeys_push {job : Job π τ} {worker : ℕ} {w : Worker π τ}
    (hworker : s.workers[worker]? = some w) :
    (job.key :: s.workerKeys).Perm (s.push job worker w).workerKeys := by
  have hkeys : (job.key :: w.keys).Perm
      (Worker.keys ⟨w.channel ++ [{ job with sentAt := s.generation }], w.phase⟩) := by
    simp only [Worker.keys, Worker.jobs, List.map_append, List.append_assoc]
    exact List.perm_middle.symm
  refine ((workerKeys_perm hworker).cons _).trans ?_
  exact (hkeys.append_right _).trans (workerKeys_set hworker _).symm

/-- What was being submitted still is, or has ended, or is with a worker. -/
theorem advance_keys (setting : Setting τ) (s : State π τ) (call : Call π τ) :
    (call.key :: s.workerKeys).Perm (endedKeys (s.advance setting call).2.2 ++
      ((s.advance setting call).2.1.toList.map Call.key ++
        (s.advance setting call).1.workerKeys)) := by
  have hadvances := advances setting s call
  generalize s.advance setting call = x at hadvances
  cases hadvances with
  | goesOn hkey =>
    rw [← hkey]
    exact List.Perm.refl _
  | drops => exact List.Perm.refl _
  | sends hworker hkey =>
    rw [← hkey]
    exact workerKeys_push hworker

/-- A call leaves the rest as it is, and the path in its place. -/
theorem advance_frame (setting : Setting τ) (s : State π τ) (call : Call π τ) :
    (s.advance setting call).1.request = s.request ∧ (s.advance setting call).1.calls = s.calls ∧
      (s.advance setting call).1.activeRepairs = s.activeRepairs ∧
      ∀ p r x, .ended p r x ∈ (s.advance setting call).2.2 → x = .dropped := by
  have hadvances := advances setting s call
  generalize s.advance setting call = x at hadvances
  cases hadvances with
  | goesOn | drops | sends => exact ⟨rfl, rfl, rfl, by simp⟩

theorem mem_cleared {es : List (Event π τ)} {p : π} :
    p ∈ cleared es ↔ ∃ r x, .ended p r x ∈ es ∧ x.clears = true := by
  rw [cleared, List.mem_filterMap]
  constructor
  · rintro ⟨e, he, heq⟩
    cases e with
    | began job => cases heq
    | stale job => cases heq
    | ended q r x =>
      dsimp only at heq
      split_ifs at heq with hx
      cases heq
      exact ⟨r, x, he, hx⟩
  · rintro ⟨r, x, he, hx⟩
    exact ⟨_, he, if_pos hx⟩

theorem mem_endedKeys {es : List (Event π τ)} {p : π} {r : Bool} :
    (p, r) ∈ endedKeys es ↔ ∃ x, .ended p r x ∈ es := by
  rw [endedKeys, List.mem_filterMap]
  constructor
  · rintro ⟨e, he, heq⟩
    cases e with
    | began job => cases heq
    | stale job => cases heq
    | ended q r x =>
      cases heq
      exact ⟨x, he⟩
  · rintro ⟨x, he⟩
    exact ⟨_, he, rfl⟩

variable [DecidableEq π]

/-- In a step other than a new request or submission, jobs end or are moved, and the paths of
those that are completed or have failed are no longer active. -/
structure Effect (setting : Setting τ) (s : State π τ) (a : Action π τ) : Prop where
  live : s.live.Perm (endedKeys (s.next setting a).2 ++ (s.step setting a).live)
  active : (s.step setting a).activeRepairs =
    s.activeRepairs.filter fun p => p ∉ cleared (s.next setting a).2
  alike : ∀ p r x q t y, .ended p r x ∈ (s.next setting a).2 →
    .ended q t y ∈ (s.next setting a).2 → x = y

theorem filter_cleared {active : List π} {es : List (Event π τ)}
    (h : ∀ p r x, .ended p r x ∈ es → x = .dropped) :
    active.filter (fun p => p ∉ cleared es) = active := by
  refine List.filter_eq_self.mpr fun p _ => ?_
  rw [decide_eq_true_eq, mem_cleared]
  rintro ⟨r, x, hx, hclears⟩
  rw [h p r x hx] at hclears
  cases hclears

/-- Where jobs are dropped at most, the active repairs are left as they are. -/
theorem effect_of_dropped {a : Action π τ} {s' : State π τ} {es : List (Event π τ)}
    (hnext : s.next setting a = (s', es)) (hlive : s.live.Perm (endedKeys es ++ s'.live))
    (hactive : s'.activeRepairs = s.activeRepairs)
    (hdropped : ∀ p r x, .ended p r x ∈ es → x = .dropped) : Effect setting s a := by
  refine ⟨?_, ?_, ?_⟩
  · rw [step, hnext]
    exact hlive
  · rw [step, hnext, filter_cleared hdropped]
    exact hactive
  · rw [hnext]
    intro p r x q t y hx hy
    rw [hdropped p r x hx, hdropped q t y hy]

theorem effect_stay {a : Action π τ} (h : s.next setting a = (s, [])) : Effect setting s a :=
  effect_of_dropped h (List.Perm.refl _) rfl (by simp)

theorem effect_worker (i : ℕ) (a : WorkerAction) : Effect setting s (.worker i a) := by
  cases hw : s.workers[i]? with
  | none => exact effect_stay (by simp only [next, hw])
  | some w =>
    have hnext : s.next setting (.worker i a) =
        ({ s with
          workers := s.workers.set i (w.step s.workerGeneration a).1
          activeRepairs := s.activeRepairs.filter fun p =>
            p ∉ cleared (w.step s.workerGeneration a).2 }, (w.step s.workerGeneration a).2) := by
      simp only [next, hw]
    refine ⟨?_, ?_, ?_⟩
    · rw [step, hnext]
      have hkeys := Worker.keys_step s.workerGeneration w a
      have hold := workerKeys_perm hw
      have hnew := workerKeys_set hw (w.step s.workerGeneration a).1
      refine List.perm_iff_count.mpr fun k => ?_
      have hkeys := hkeys.count_eq k
      have hold := hold.count_eq k
      have hnew := hnew.count_eq k
      simp only [live, workerKeys, List.count_append] at hkeys hold hnew ⊢
      omega
    · rw [step, hnext]
    · rw [hnext]
      exact fun p r x q t y => Worker.exit_eq

theorem effect_nextTarget : Effect setting s .nextTarget := by
  cases hrequest : s.request with
  | none => exact effect_stay (by simp only [next, hrequest])
  | some r =>
    obtain ⟨relPath, inode, targets, call⟩ := r
    cases call with
    | some call => exact effect_stay (by simp only [next, hrequest])
    | none =>
      have hnext : s.next setting .nextTarget = s.nextTarget ⟨relPath, inode, targets, none⟩ := by
        simp only [next, hrequest]
      rw [nextTarget] at hnext
      cases targets with
      | nil =>
        refine effect_of_dropped hnext ?_ rfl (by simp)
        rw [live, hrequest]
        exact List.Perm.refl _
      | cons target targets =>
        dsimp only at hnext
        split_ifs at hnext
        · refine effect_of_dropped hnext ?_ rfl (by simp)
          rw [live, hrequest]
          exact List.Perm.refl _
        · refine effect_of_dropped hnext ?_ rfl (by simp)
          rw [live, hrequest]
          refine List.Perm.append_right _ ?_
          simp only [Option.toList_some, List.flatMap_cons, List.flatMap_nil, List.append_nil,
            Request.keys, List.map_cons, List.map_nil, Option.toList_none]
          exact (List.perm_append_singleton _ _).symm

theorem effect_advanceRequest : Effect setting s .advanceRequest := by
  cases hrequest : s.request with
  | none => exact effect_stay (by simp only [next, hrequest])
  | some r =>
    obtain ⟨relPath, inode, targets, call⟩ := r
    cases call with
    | none => exact effect_stay (by simp only [next, hrequest])
    | some call =>
      have hnext : s.next setting .advanceRequest =
          ({ (s.advance setting call).1 with
            request := some ⟨relPath, inode, targets, (s.advance setting call).2.1⟩ },
            (s.advance setting call).2.2) := by
        simp only [next, hrequest]
      obtain ⟨-, hcalls, hactive, hdropped⟩ := advance_frame setting s call
      refine effect_of_dropped hnext ?_ hactive hdropped
      refine List.perm_iff_count.mpr fun k => ?_
      have hkeys := (advance_keys setting s call).count_eq k
      simp only [live, workerKeys, hrequest, hcalls, Option.toList_some, List.flatMap_cons,
        List.flatMap_nil, Request.keys, List.map_cons, List.map_nil, List.append_nil,
        List.count_append, List.count_cons, List.count_nil] at hkeys ⊢
      omega

omit [DecidableEq π] in
theorem calls_perm {i : ℕ} {call : Call π τ} (hcall : s.calls[i]? = some call)
    (after : Option (Call π τ)) :
    s.calls.Perm (call :: s.calls.eraseIdx i) ∧
      (settle s.calls i after).Perm (after.toList ++ s.calls.eraseIdx i) := by
  obtain ⟨hi, rfl⟩ := List.getElem?_eq_some_iff.mp hcall
  refine ⟨(List.getElem_cons_eraseIdx_perm hi).symm, ?_⟩
  cases after with
  | none => exact List.Perm.refl _
  | some call => exact List.set_perm_cons_eraseIdx hi call

theorem effect_advanceCall (i : ℕ) : Effect setting s (.advanceCall i) := by
  cases hcall : s.calls[i]? with
  | none => exact effect_stay (by simp only [next, hcall])
  | some call =>
    obtain ⟨hold, hnew⟩ := calls_perm hcall (s.advance setting call).2.1
    obtain ⟨hrequest, -, hactive, hdropped⟩ := advance_frame setting s call
    have hnext : s.next setting (.advanceCall i) =
        ({ (s.advance setting call).1 with
          calls := settle s.calls i (s.advance setting call).2.1 },
          (s.advance setting call).2.2) := by
      simp only [next, hcall]
    refine effect_of_dropped hnext ?_ hactive hdropped
    refine List.perm_iff_count.mpr fun k => ?_
    have hkeys := (advance_keys setting s call).count_eq k
    have hold := (hold.map Call.key).count_eq k
    have hnew := (hnew.map Call.key).count_eq k
    simp only [live, workerKeys, hrequest, List.map_cons, List.map_append, List.count_append,
      List.count_cons] at hkeys hold hnew ⊢
    omega

/-! ## Every state of a run -/

/-- The jobs that are left when those of the step have ended. -/
def left (setting : Setting τ) (s : State π τ) (a : Action π τ) : List (π × Bool) :=
  s.live.diff (endedKeys (s.next setting a).2)

/-- A job that is completed or has failed is the last one of the repair, and a job that ends
otherwise while its path is active is not the last one for that path. -/
def EndsInTurn (setting : Setting τ) (s : State π τ) (a : Action π τ) : Prop :=
  ∀ p r x, .ended p r x ∈ (s.next setting a).2 →
    if x.clears then (p, true) ∉ s.left setting a
    else p ∈ s.activeRepairs → ∃ r', (p, r') ∈ s.left setting a

/-- There is a target for a new repair, or else another job for its path, and jobs end in
turn. -/
def Orderly (setting : Setting τ) (s : State π τ) : Action π τ → Prop
  | .request relPath _ =>
    s.request = none → relPath ∉ s.activeRepairs →
      setting.targets ≠ [] ∨ ∃ r, (relPath, r) ∈ s.live
  | a => EndsInTurn setting s a

theorem Effect.left_perm {a : Action π τ} (h : Effect setting s a) :
    (s.left setting a).Perm (s.step setting a).live := by
  refine List.perm_iff_count.mpr fun k => ?_
  have hlive := h.live.count_eq k
  rw [List.count_append] at hlive
  rw [left, List.count_diff]
  omega

/-- Paths and jobs stay together if and only if jobs end in turn. -/
theorem Effect.tracked_iff {a : Action π τ} (h : Effect setting s a) (hs : Tracked s) :
    Tracked (s.step setting a) ↔ EndsInTurn setting s a := by
  have hactive : ∀ p, p ∈ (s.step setting a).activeRepairs ↔
      p ∈ s.activeRepairs ∧ ¬ ∃ r x, .ended p r x ∈ (s.next setting a).2 ∧ x.clears = true := by
    intro p
    rw [h.active, List.mem_filter, decide_eq_true_eq, mem_cleared]
  constructor
  · intro htracked p r x hended
    by_cases hclears : x.clears = true
    · rw [if_pos hclears, h.left_perm.mem_iff]
      intro hlive
      exact ((hactive p).mp (htracked.kept p hlive)).2 ⟨r, x, hended, hclears⟩
    · rw [if_neg hclears]
      intro hp
      have hstill : p ∈ (s.step setting a).activeRepairs := by
        refine (hactive p).mpr ⟨hp, ?_⟩
        rintro ⟨t, y, hy, hyclears⟩
        rw [h.alike p t y p r x hy hended] at hyclears
        exact hclears hyclears
      obtain ⟨r', hr'⟩ := htracked.held p hstill
      exact ⟨r', h.left_perm.mem_iff.mpr hr'⟩
  · intro hturn
    refine ⟨fun p hp => ?_, fun p hlive => ?_⟩
    · obtain ⟨hp, hnone⟩ := (hactive p).mp hp
      obtain ⟨r, hr⟩ := hs.held p hp
      rcases List.mem_append.mp (h.live.mem_iff.mp hr) with hended | hlive
      · obtain ⟨x, hx⟩ := mem_endedKeys.mp hended
        have hclears : ¬ x.clears = true := fun hclears => hnone ⟨r, x, hx, hclears⟩
        have hleft := hturn p r x hx
        rw [if_neg hclears] at hleft
        obtain ⟨r', hr'⟩ := hleft hp
        exact ⟨r', h.left_perm.mem_iff.mp hr'⟩
      · exact ⟨r, hlive⟩
    · refine (hactive p).mpr ⟨hs.kept p ?_, ?_⟩
      · exact h.live.mem_iff.mpr (List.mem_append_right _ hlive)
      · rintro ⟨r, x, hx, hclears⟩
        have hleft := hturn p r x hx
        rw [if_pos hclears] at hleft
        exact hleft (h.left_perm.mem_iff.mpr hlive)

theorem tracked_submit (hs : Tracked s) (relPath : π) (target : τ) (inode : Option ℕ) :
    Tracked (s.step setting (.submit relPath target inode)) := by
  unfold step next
  dsimp only
  split_ifs
  · exact hs
  · have hlive : ∀ k, k ∈ ({ s with calls := s.calls ++
        [.entered relPath target inode s.generation false false] } : State π τ).live ↔
          k ∈ s.live ∨ k = (relPath, false) := by
      intro k
      simp only [live, workerKeys, List.map_append, List.map_cons, List.map_nil, List.mem_append,
        List.mem_singleton, Call.key]
      tauto
    refine ⟨fun p hp => ?_, fun p hp => ?_⟩
    · obtain ⟨r, hr⟩ := hs.held p hp
      exact ⟨r, (hlive _).mpr (.inl hr)⟩
    · rcases (hlive _).mp hp with hp | hp
      · exact hs.kept p hp
      · cases hp

omit [DecidableEq π] in
/-- A new repair has a job for every target. -/
theorem mem_live_request {relPath : π} {inode : Option ℕ} (hrequest : s.request = none)
    (activeRepairs : List π) (k : π × Bool) :
    k ∈ ({ s with
          activeRepairs := activeRepairs
          request := some ⟨relPath, inode, setting.targets, none⟩ } : State π τ).live ↔
      k ∈ s.live ∨ (setting.targets ≠ [] ∧ k = (relPath, true)) := by
  have htargets : k ∈ setting.targets.map (fun _ => (relPath, true)) ↔
      setting.targets ≠ [] ∧ k = (relPath, true) := by
    rw [List.map_const', List.mem_replicate, Ne, List.length_eq_zero_iff]
  rw [or_comm, ← htargets]
  simp only [live, workerKeys, hrequest, Option.toList_none, Option.toList_some, List.flatMap_nil,
    List.flatMap_cons, List.append_nil, Request.keys, List.map_nil, List.nil_append,
    List.mem_append]

theorem tracked_request_iff (hs : Tracked s) (relPath : π) (inode : Option ℕ) :
    Tracked (s.step setting (.request relPath inode)) ↔
      Orderly setting s (.request relPath inode) := by
  unfold step next Orderly
  dsimp only
  split_ifs with hskip
  · refine iff_of_true hs fun hrequest hnew => ?_
    simp [hrequest, hnew] at hskip
  · simp only [Bool.or_eq_true, Option.isSome_iff_ne_none, decide_eq_true_eq, not_or, not_not] at hskip
    obtain ⟨hrequest, hnew⟩ := hskip
    have hlive := @mem_live_request π τ setting s relPath inode hrequest (relPath :: s.activeRepairs)
    constructor
    · rintro htracked - -
      obtain ⟨r, hr⟩ := htracked.held relPath (List.mem_cons_self ..)
      rcases (hlive _).mp hr with hr | ⟨hne, -⟩
      · exact .inr ⟨r, hr⟩
      · exact .inl hne
    · intro hjob
      refine ⟨fun p hp => ?_, fun p hp => ?_⟩
      · rcases List.mem_cons.mp hp with rfl | hp
        · rcases hjob hrequest hnew with hne | ⟨r, hr⟩
          · exact ⟨true, (hlive _).mpr (.inr ⟨hne, rfl⟩)⟩
          · exact ⟨r, (hlive _).mpr (.inl hr)⟩
        · obtain ⟨r, hr⟩ := hs.held p hp
          exact ⟨r, (hlive _).mpr (.inl hr)⟩
      · rcases (hlive _).mp hp with hp | ⟨-, hp⟩
        · exact List.mem_cons_of_mem _ (hs.kept p hp)
        · cases hp
          exact List.mem_cons_self ..

theorem tracked_step_iff (hs : Tracked s) (a : Action π τ) :
    Tracked (s.step setting a) ↔ Orderly setting s a := by
  cases a with
  | request relPath inode => exact tracked_request_iff hs relPath inode
  | submit relPath target inode =>
    refine iff_of_true (tracked_submit hs relPath target inode) fun p r x hx => ?_
    unfold next at hx
    dsimp only at hx
    split_ifs at hx <;> cases hx
  | nextTarget => exact effect_nextTarget.tracked_iff hs
  | advanceRequest => exact effect_advanceRequest.tracked_iff hs
  | advanceCall i => exact (effect_advanceCall i).tracked_iff hs
  | bumpGeneration | signalShutdown =>
    exact (effect_of_dropped rfl (List.Perm.refl _) rfl (by simp)).tracked_iff hs
  | worker i a => exact (effect_worker i a).tracked_iff hs

omit [DecidableEq π] in
theorem tracked_init (workerCount : ℕ) : Tracked (init π τ workerCount) := by
  refine ⟨fun p hp => ?_, fun p hp => ?_⟩
  · cases hp
  · simp [live, init, workerKeys, Worker.keys, Worker.jobs, Phase.jobs, Phase.waiting] at hp

/-- In every state of a run the active repairs are those with jobs, if and only if a path is
taken from them by the last job for it and not before. -/
theorem tracked_iff_orderly (setting : Setting τ) (workerCount : ℕ) (as : List (Action π τ)) :
    (∀ p, p <+: as → Tracked (Run.exec (step setting) (init π τ workerCount) p)) ↔
      Run.Along (step setting) (Orderly setting) (init π τ workerCount) as :=
  Run.forall_prefix_iff_along (step setting) (I := Tracked) (A := fun _ => True)
    (P := fun _ => True)
    (fun _ _ _ _ _ => trivial) (fun _ a _ _ hs => tracked_step_iff hs a) as
    (fun _ _ => trivial) trivial (tracked_init workerCount)

end Effects

/-! ### A source that vanishes, and two targets -/

/-- A repair is asked for, and its first job gets to the worker. -/
def repairing : List (Action String ℕ) :=
  [.request "a" none, .nextTarget, .advanceRequest, .advanceRequest, .worker 0 .recv,
    .worker 0 (.check 0), .worker 0 .drained]

/-- The source has vanished: the job ends and the path stays active. With two targets, the first
job takes the path away while the second one is being submitted. -/
theorem repair_untracked :
    (Run.exec (step ⟨[7], 64⟩) (init String ℕ 1)
        (repairing ++ [.worker 0 (.pick false)])).activeRepairs = ["a"] ∧
      (Run.exec (step ⟨[7], 64⟩) (init String ℕ 1)
        (repairing ++ [.worker 0 (.pick false)])).live = [] ∧
      (Run.exec (step ⟨[7, 8], 64⟩) (init String ℕ 1)
        (repairing ++ [.worker 0 (.pick true), .worker 0 (.processed .stats)])).activeRepairs = [] ∧
      (Run.exec (step ⟨[7, 8], 64⟩) (init String ℕ 1)
        (repairing ++ [.worker 0 (.pick true), .worker 0 (.processed .stats)])).live =
          [("a", true)] ∧
      ¬ Tracked (Run.exec (step ⟨[7], 64⟩) (init String ℕ 1)
        (repairing ++ [.worker 0 (.pick false)])) := by
  have hlive : (Run.exec (step ⟨[7], 64⟩) (init String ℕ 1)
      (repairing ++ [.worker 0 (.pick false)])).live = [] := by decide +kernel
  refine ⟨by decide +kernel, hlive, by decide +kernel, by decide +kernel, fun h => ?_⟩
  obtain ⟨r, hr⟩ := h.held "a" (by decide +kernel)
  rw [hlive] at hr
  cases hr

end State

end Foxing.JobQueue
