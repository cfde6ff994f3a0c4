import Foxing.SegmentAccounting

/-!
# Operations that fail

When an operation has failed, nothing more is submitted, and the copy goes on until nothing is in
flight and nothing is left to submit. So it comes to its end with the error if all has been
submitted by then; otherwise it goes round until its time is over.
-/
namespace Foxing.SegmentCopy
open Uring

/-! ## Failures -/

/-- An atomic write that is not supported. -/
def Unsupported (op : RingOp) (errno : ℕ) (s : State) : Prop :=
  op.kind = .write ∧ s.atomicIntent op.index = true ∧ (errno = eopnotsupp ∨ errno = einval)

instance decidableUnsupported (op : RingOp) (errno : ℕ) (s : State) :
    Decidable (Unsupported op errno s) :=
  inferInstanceAs (Decidable (_ ∧ _))

/-- The write of a chain has been cancelled. -/
def Cancelled (cfg : Config) (op : RingOp) (errno : ℕ) : Prop :=
  errno = ecanceled ∧ cfg.useLinkedSqe = true ∧ op.kind = .write

instance decidableCancelled (cfg : Config) (op : RingOp) (errno : ℕ) :
    Decidable (Cancelled cfg op errno) :=
  inferInstanceAs (Decidable (_ ∧ _))

/-- An operation is done with an error that is no interruption. A cancelled write does not count,
nor does an atomic one that is pushed again. -/
def Fails (cfg : Config) (op : RingOp) (result : ℤ) (s : State) : Prop :=
  op.kind ≠ .hole ∧ result < 0 ∧ (-result).toNat ≠ eintr ∧ ¬ Cancelled cfg op (-result).toNat ∧
    (Unsupported op (-result).toNat s → sqFull cfg s)

instance decidableFails (cfg : Config) (op : RingOp) (result : ℤ) (s : State) :
    Decidable (Fails cfg op result s) :=
  inferInstanceAs (Decidable (_ ∧ _ ∧ _ ∧ _ ∧ (_ → _)))

/-- The completion at the front tells of a failure. -/
def failureOf (cfg : Config) (s : State) : List (RingOp × ℤ) → List ℕ
  | [] => []
  | (op, result) :: _ => if Fails cfg op result s then [(-result).toNat] else []

/-- The failures that are found in a step. -/
def failures (cfg : Config) (s : State) : Event → List ℕ
  | .reap _ => if s.phase = .reaping then failureOf cfg s s.ring.cq else []
  | _ => []

/-! ## The end of a copy -/

def State.Running (s : State) : Prop := ∀ result, s.phase ≠ .returned result

/-- An event of the loop where the copy is. -/
def isTurn (s : State) : Event → Bool
  | .clock _ _ => s.phase = .head
  | .iterate _ _ => s.phase = .submitting
  | .flush _ => s.phase = .flushing
  | .reap _ => s.phase = .reaping
  | .execute _ _ => false

/-- In a bounded number of turns the error is returned, whatever the turns find. -/
def ReturnsSoon (cfg : Config) (errno : ℕ) (s : State) : Prop :=
  ∃ n, ∀ es, (Run.exec (step cfg) s es).phase = .returned (.error (.os errno)) ∨
    (Run.exec (step cfg) s es).Running ∧ Run.tally (step cfg) isTurn s es < n

/-- After a run: when there was a failure, the copy has not run out of time, and as soon as all
operations are done it returns the first error soon. -/
def FailsPromptly (cfg : Config) (s : State) (es : List Event) : Prop :=
  ∀ errno, (Run.outputs (step cfg) (failures cfg) s es).head? = some errno →
    (Run.exec (step cfg) s es).phase ≠ .returned (.error .timedOut) ∧
      ((Run.exec (step cfg) s es).Running → active (Run.exec (step cfg) s es).ring = [] →
        ReturnsSoon cfg errno (Run.exec (step cfg) s es))

/-! ## The condition -/

/-- What the counter comes to when the operations in the ring are taken one after the other. -/
def State.remaining (s : State) : ℕ := decr^[(active s.ring).length] s.inflightOps

/-- A failure comes at the right time if it is not the first one, or if everything has been
submitted, nothing else has gone wrong and the counter counts what is in the ring. -/
def InTime (s : State) : Option SegmentError → Prop
  | some (.os _) => True
  | some _ => False
  | none => s.length = 0 ∧ s.remaining = 0

instance decidableInTime (s : State) : ∀ error, Decidable (InTime s error)
  | some (.os _) => inferInstanceAs (Decidable True)
  | some .timedOut => inferInstanceAs (Decidable False)
  | some .stalled => inferInstanceAs (Decidable False)
  | some .hung => inferInstanceAs (Decidable False)
  | some (.readable _) => inferInstanceAs (Decidable False)
  | some .submit => inferInstanceAs (Decidable False)
  | some .sqFull => inferInstanceAs (Decidable False)
  | some .atomic => inferInstanceAs (Decidable False)
  | some .memory => inferInstanceAs (Decidable False)
  | none => inferInstanceAs (Decidable (_ ∧ _))

/-- A failure is no atomic write that there is no room for, and comes at the right time. -/
def TimelyOf (cfg : Config) (s : State) : List (RingOp × ℤ) → Prop
  | [] => True
  | (op, result) :: _ => Fails cfg op result s →
    ¬ Unsupported op (-result).toNat s ∧ InTime s s.encounteredError

instance decidableTimelyOf (cfg : Config) (s : State) : ∀ cq, Decidable (TimelyOf cfg s cq)
  | [] => inferInstanceAs (Decidable True)
  | (_, _) :: _ => inferInstanceAs (Decidable (_ → _ ∧ _))

def Timely (cfg : Config) (s : State) : Event → Prop
  | .reap _ => s.phase = .reaping → TimelyOf cfg s s.ring.cq
  | _ => True

instance decidableTimely (cfg : Config) (s : State) : DecidablePred (Timely cfg s)
  | .reap _ => inferInstanceAs (Decidable (_ → _))
  | .clock _ _ => inferInstanceAs (Decidable True)
  | .iterate _ _ => inferInstanceAs (Decidable True)
  | .flush _ => inferInstanceAs (Decidable True)
  | .execute _ _ => inferInstanceAs (Decidable True)

/-! ## Steps after an error -/

section Steps
variable {cfg : Config} {s : State} {op : RingOp}

theorem active_push (r : Ring RingOp ℤ) (hkind : op.kind ≠ .hole) (link : Bool) :
    active (r.push op link) = active r ++ [op] := by
  have hkey : op.key.isSome = true := by
    rw [RingOp.key_eq_some.mpr ⟨hkind, rfl⟩]
    rfl
  unfold active
  rw [Ring.line_push, List.filter_append, List.filter_cons, if_pos hkey]
  rfl

variable (cfg s) in
/-- The operations that are executed are still in the ring. -/
theorem execute_active (i : ℕ) (outcome : Outcome) :
    (active (execute cfg i outcome s).ring).length = (active s.ring).length ∧
      (execute cfg i outcome s).ring.line.length = s.ring.line.length := by
  have hcomplete : ∀ {c : Chain RingOp} {op : RingOp} {ops : List RingOp},
      s.ring.kernel[i]? = some c → c.ops = op :: ops → ∀ result ok,
      (active (s.ring.complete i result ok)).length = (active s.ring).length ∧
        (s.ring.complete i result ok).line.length = s.ring.line.length := by
    intro c op ops hc hops result ok
    have hperm := Ring.line_complete_perm hc hops result ok
    exact ⟨(hperm.filter _).length_eq, hperm.length_eq⟩
  obtain heq | ⟨c, op, ops, hc, hops, ⟨-, heq⟩ | ⟨-, heq⟩⟩ := execute_cases cfg i outcome s
  · rw [heq]
    exact ⟨rfl, rfl⟩
  · rw [heq]
    exact hcomplete hc hops _ _
  · rw [heq]
    exact hcomplete hc hops _ _

/-- An operation that is in hand has been counted down, or is in the ring again. -/
theorem remaining_of_reap {result : ℤ} {cq : List (RingOp × ℤ)}
    (hcq : s.ring.cq = (op, result) :: cq) (hkind : op.kind ≠ .hole) :
    s.remaining = State.remaining (State.decrInflight { s with ring := s.ring.reap }) := by
  unfold State.remaining
  rw [active_reap hcq, if_neg hkind, List.length_cons, Function.iterate_succ_apply]
  rfl

theorem generalError_remaining (errno : ℕ) :
    (generalError cfg op errno s).remaining = s.decrInflight.remaining := by
  unfold State.remaining generalError giveBack
  split_ifs <;> simp [State.decrInflight]

theorem generalError_length (errno : ℕ) : (generalError cfg op errno s).length = s.length := by
  unfold generalError giveBack
  split_ifs <;> simp [State.decrInflight]

theorem generalError_error (errno : ℕ) : (generalError cfg op errno s).encounteredError =
    if s.encounteredError = none ∧ errno ≠ eintr then some (.os errno)
    else s.encounteredError := by
  have hback : (giveBack cfg op s).encounteredError = s.encounteredError := by
    unfold giveBack
    split_ifs <;> simp
  unfold generalError
  dsimp only [State.decrInflight]
  rw [hback]

/-- What comes of a failed operation. -/
theorem failedOp_cases (cfg : Config) (op : RingOp) (errno : ℕ) (s : State) :
    (Cancelled cfg op errno ∧ failedOp cfg op errno s = release cfg op.index s.decrInflight) ∨
      (¬ Cancelled cfg op errno ∧ Unsupported op errno s ∧ sqFull cfg s ∧
        failedOp cfg op errno s = generalError cfg op errno { s with
          atomicIntent := update s.atomicIntent op.index false
          encounteredError := some .sqFull }) ∨
      (¬ Cancelled cfg op errno ∧ Unsupported op errno s ∧ ¬ sqFull cfg s ∧
        failedOp cfg op errno s = State.push ⟨.write, op.index, s.contextMap op.index,
          s.lens op.index⟩ false { s with
            atomicIntent := update s.atomicIntent op.index false }) ∨
      (¬ Cancelled cfg op errno ∧ ¬ Unsupported op errno s ∧
        failedOp cfg op errno s = generalError cfg op errno s) := by
  by_cases hcancelled : Cancelled cfg op errno
  · exact .inl ⟨hcancelled, if_pos hcancelled⟩
  by_cases hunsupported : Unsupported op errno s
  · have heq : failedOp cfg op errno s = atomicFallback cfg op errno s :=
      (if_neg hcancelled).trans (if_pos hunsupported)
    by_cases hfull : sqFull cfg s
    · exact .inr (.inl ⟨hcancelled, hunsupported, hfull, heq.trans (if_pos hfull)⟩)
    · exact .inr (.inr (.inl ⟨hcancelled, hunsupported, hfull, heq.trans (if_neg hfull)⟩))
  · exact .inr (.inr (.inr ⟨hcancelled, hunsupported,
      (if_neg hcancelled).trans (if_neg hunsupported)⟩))

theorem failedOp_remaining (errno : ℕ) :
    (failedOp cfg op errno s).remaining = s.decrInflight.remaining ∧
      (failedOp cfg op errno s).length = s.length := by
  obtain ⟨-, heq⟩ | ⟨-, -, -, heq⟩ | ⟨-, -, -, heq⟩ | ⟨-, -, heq⟩ := failedOp_cases cfg op errno s
  · rw [heq]
    exact ⟨by simp [State.remaining], by simp [State.decrInflight]⟩
  · rw [heq]
    exact ⟨generalError_remaining errno, generalError_length errno⟩
  · rw [heq]
    refine ⟨?_, rfl⟩
    unfold State.remaining State.push
    dsimp only
    rw [active_push _ (by simp), List.length_append, List.length_singleton,
      Function.iterate_succ_apply]
    rfl
  · rw [heq]
    exact ⟨generalError_remaining errno, generalError_length errno⟩

section Completions
variable {result : ℤ} {cq : List (RingOp × ℤ)}

variable (cfg) in
/-- Failed operations, and all operations after an error, are taken and nothing more. -/
theorem processCqe_remaining (hcq : s.ring.cq = (op, result) :: cq)
    (h : result < 0 ∨ s.encounteredError ≠ none) :
    (processCqe cfg op result { s with ring := s.ring.reap }).remaining = s.remaining ∧
      (processCqe cfg op result { s with ring := s.ring.reap }).length = s.length := by
  unfold processCqe
  by_cases hkind : op.kind = .hole
  · rw [if_pos hkind]
    refine ⟨?_, rfl⟩
    unfold State.remaining
    rw [active_reap hcq, if_pos hkind]
  rw [if_neg hkind, remaining_of_reap hcq hkind]
  by_cases hresult : result < 0
  · rw [if_pos hresult]
    exact failedOp_remaining _
  · rw [if_neg hresult, if_pos (h.resolve_left hresult)]
    unfold giveBack
    split_ifs
    · exact ⟨by simp [State.remaining, State.decrInflight], by simp [State.decrInflight]⟩
    · exact ⟨rfl, rfl⟩

/-- What is recorded when a failure is found. -/
theorem processCqe_fails (h : Fails cfg op result s) :
    (processCqe cfg op result { s with ring := s.ring.reap }).encounteredError =
      if Unsupported op (-result).toNat s then some .sqFull
      else if s.encounteredError = none then some (.os (-result).toNat)
      else s.encounteredError := by
  obtain ⟨hkind, hresult, hintr, hcancelled, hfull⟩ := h
  unfold processCqe
  rw [if_neg hkind, if_pos hresult]
  obtain ⟨hyes, -⟩ | ⟨-, hunsupported, -, heq⟩ | ⟨-, hunsupported, hroom, -⟩ |
    ⟨-, hsupported, heq⟩ :=
      failedOp_cases cfg op (-result).toNat { s with ring := s.ring.reap }
  · exact absurd hyes hcancelled
  · have hyes : Unsupported op (-result).toNat s := hunsupported
    rw [if_pos hyes, heq, generalError_error]
    exact if_neg fun h => Option.some_ne_none _ h.1
  · exact absurd (hfull hunsupported) hroom
  · have hno : ¬ Unsupported op (-result).toNat s := hsupported
    rw [if_neg hno, heq, generalError_error]
    by_cases hnone : s.encounteredError = none
    · rw [if_pos hnone]
      exact if_pos ⟨hnone, hintr⟩
    · rw [if_neg hnone]
      exact if_neg fun h => hnone h.1

/-- Nothing is recorded for a failed operation that does not count. -/
theorem failedOp_ignored (hkind : op.kind ≠ .hole) (hresult : result < 0)
    (h : ¬ Fails cfg op result s) :
    (failedOp cfg op (-result).toNat { s with ring := s.ring.reap }).encounteredError =
      s.encounteredError := by
  obtain ⟨-, heq⟩ | ⟨hcancelled, hunsupported, hfull, -⟩ | ⟨-, -, -, heq⟩ |
    ⟨hcancelled, hsupported, heq⟩ :=
      failedOp_cases cfg op (-result).toNat { s with ring := s.ring.reap }
  · rw [heq, release_encounteredError]
    rfl
  · have hintr : (-result).toNat ≠ eintr := by
      rcases hunsupported.2.2 with herrno | herrno <;> rw [herrno] <;> decide
    exact absurd ⟨hkind, hresult, hintr, hcancelled, fun _ => hfull⟩ h
  · rw [heq]
    rfl
  · have hintr : (-result).toNat = eintr := by
      by_contra hintr
      exact h ⟨hkind, hresult, hintr, hcancelled, fun hyes => absurd hyes hsupported⟩
    rw [heq, generalError_error, if_neg fun h => h.2 hintr]

theorem readDone_error (cfg : Config) (op : RingOp) (bytes : ℕ) (s : State) :
    (readDone cfg op bytes s).encounteredError = s.encounteredError ∨
      (readDone cfg op bytes s).encounteredError = some .sqFull := by
  have hnext : ∀ (op' : RingOp) (zeros : ℕ) (s' : State),
      (pushNext cfg op' zeros s').encounteredError = s'.encounteredError ∨
        (pushNext cfg op' zeros s').encounteredError = some .sqFull := by
    intro op' zeros s'
    unfold pushNext
    split_ifs
    · exact .inr (by simp)
    · exact .inl rfl
  unfold readDone
  dsimp only
  split_ifs
  · exact .inl rfl
  · exact hnext _ _ _
  · exact hnext _ _ _

/-- A completion that tells of no failure records none. -/
theorem processCqe_error (h : ¬ Fails cfg op result s) :
    (processCqe cfg op result { s with ring := s.ring.reap }).encounteredError =
        s.encounteredError ∨
      s.encounteredError = none ∧
        (processCqe cfg op result { s with ring := s.ring.reap }).encounteredError =
          some .sqFull := by
  unfold processCqe
  by_cases hkind : op.kind = .hole
  · rw [if_pos hkind]
    exact .inl rfl
  rw [if_neg hkind]
  by_cases hresult : result < 0
  · rw [if_pos hresult]
    exact .inl (failedOp_ignored hkind hresult h)
  rw [if_neg hresult]
  by_cases hnone : s.encounteredError = none
  · rw [if_neg (not_not.mpr hnone)]
    cases op.kind with
    | read =>
      exact (readDone_error cfg op result.toNat { s with ring := s.ring.reap }).imp id
        fun heq => ⟨hnone, heq⟩
    | write | falloc => exact .inl (by simp [State.decrInflight])
    | hole => exact .inl rfl
  · rw [if_pos hnone]
    unfold giveBack
    split_ifs
    · exact .inl (by simp [State.decrInflight])
    · exact .inl rfl

end Completions

/-! ### Every step -/

theorem reap_of_cq {result : ℤ} {cq : List (RingOp × ℤ)} (hcq : s.ring.cq = (op, result) :: cq)
    (w : Wait) : reap cfg w s = processCqe cfg op result { s with ring := s.ring.reap } := by
  unfold reap
  rw [hcq]

variable (cfg) in
/-- A wait changes at most the phase and what is submitted. -/
theorem reap_of_nil (hcq : s.ring.cq = []) (w : Wait) :
    (reap cfg w s).length = s.length ∧ (reap cfg w s).inflightOps = s.inflightOps ∧
      (reap cfg w s).encounteredError = s.encounteredError ∧
      active (reap cfg w s).ring = active s.ring := by
  have hsubmit : active s.ring.submit = active s.ring := by
    unfold active
    rw [Ring.line_submit]
  unfold reap
  rw [hcq]
  dsimp only
  split_ifs
  · exact ⟨rfl, rfl, rfl, rfl⟩
  · cases w with
    | readable => exact ⟨rfl, rfl, rfl, rfl⟩
    | failed errno => exact ⟨rfl, rfl, rfl, rfl⟩
    | timeout hung submits =>
      cases hung <;> cases submits
      · exact ⟨rfl, rfl, rfl, rfl⟩
      · exact ⟨rfl, rfl, rfl, hsubmit⟩
      · exact ⟨rfl, rfl, rfl, rfl⟩
      · exact ⟨rfl, rfl, rfl, rfl⟩
  · exact ⟨rfl, rfl, rfl, rfl⟩

theorem failures_reap {w : Wait} {result : ℤ} {cq : List (RingOp × ℤ)}
    (hphase : s.phase = .reaping) (hcq : s.ring.cq = (op, result) :: cq) :
    failures cfg s (.reap w) = if Fails cfg op result s then [(-result).toNat] else [] := by
  unfold failures
  rw [if_pos hphase, hcq]
  rfl

/-- A failure is found where a completion is taken. -/
theorem of_failures {e : Event} {errno : ℕ} (h : (failures cfg s e).head? = some errno) :
    ∃ w op result cq, e = .reap w ∧ s.phase = .reaping ∧ s.ring.cq = (op, result) :: cq ∧
      Fails cfg op result s ∧ errno = (-result).toNat := by
  cases e with
  | reap w =>
    unfold failures at h
    split_ifs at h with hphase
    · cases hcq : s.ring.cq with
      | nil =>
        rw [hcq] at h
        cases h
      | cons cqe cq =>
        obtain ⟨op, result⟩ := cqe
        rw [hcq, failureOf] at h
        split_ifs at h with hfails
        · exact ⟨w, op, result, cq, rfl, hphase, rfl, hfails, (Option.some.inj h).symm⟩
        · cases h
    · cases h
  | clock timedOut stalled => cases h
  | iterate submits partialSubmits => cases h
  | flush submits => cases h
  | execute i outcome => cases h

variable (cfg) in
/-- After an error nothing is submitted any more, and operations are only taken. The error is
replaced when an atomic write cannot be pushed again. -/
theorem step_after_error (herror : s.encounteredError ≠ none) (e : Event) :
    (step cfg s e).length = s.length ∧ (step cfg s e).remaining = s.remaining ∧
      ((step cfg s e).encounteredError = s.encounteredError ∨
        ¬ Timely cfg s e ∧ (step cfg s e).encounteredError = some .sqFull) := by
  refine step_rule cfg e (P := fun s' => s'.length = s.length ∧ s'.remaining = s.remaining ∧
    (s'.encounteredError = s.encounteredError ∨
      ¬ Timely cfg s e ∧ s'.encounteredError = some .sqFull)) ⟨rfl, rfl, .inl rfl⟩ ?_ ?_ ?_ ?_ ?_
  · intro timedOut stalled _ _
    unfold clock
    split_ifs <;> exact ⟨rfl, rfl, .inl rfl⟩
  · intro submits partialSubmits _ _
    unfold iterate
    rw [if_neg fun h => herror h.2.2]
    exact ⟨rfl, rfl, .inl rfl⟩
  · intro submits _ _
    obtain ⟨error, hsome⟩ := Option.ne_none_iff_exists'.mp herror
    unfold flush
    split_ifs
    · refine ⟨rfl, ?_, .inl rfl⟩
      unfold State.remaining active
      dsimp only [State.submit]
      rw [Ring.line_submit]
    · exact ⟨rfl, rfl, .inl (by rw [hsome]; rfl)⟩
    · exact ⟨rfl, rfl, .inl rfl⟩
  · rintro w rfl hphase
    cases hcq : s.ring.cq with
    | nil =>
      obtain ⟨hlength, hinflight, hsame, hactive⟩ := reap_of_nil cfg hcq w
      refine ⟨hlength, ?_, .inl hsame⟩
      unfold State.remaining
      rw [hactive, hinflight]
    | cons cqe cq =>
      obtain ⟨op, result⟩ := cqe
      obtain ⟨hremaining, hlength⟩ := processCqe_remaining cfg hcq (.inr herror)
      rw [reap_of_cq hcq]
      refine ⟨hlength, hremaining, ?_⟩
      by_cases hfails : Fails cfg op result s
      · rw [processCqe_fails hfails, if_neg herror]
        split_ifs with hunsupported
        · refine .inr ⟨fun htimely => ?_, rfl⟩
          have hof := htimely hphase
          rw [hcq] at hof
          exact (hof hfails).1 hunsupported
        · exact .inl rfl
      · exact .inl ((processCqe_error hfails).resolve_right fun h => herror h.1)
  · intro i outcome _
    obtain ⟨memory, dst, ring, hsame⟩ := execute_eq cfg i outcome s
    obtain ⟨hactive, -⟩ := execute_active cfg s i outcome
    rw [hsame] at hactive ⊢
    refine ⟨rfl, ?_, .inl rfl⟩
    unfold State.remaining
    rw [hactive]

/-! ### The first failure -/

/-- No failure has been recorded. -/
def State.Unfailed (s : State) : Prop := ∀ errno, s.encounteredError ≠ some (.os errno)

/-- The error will not be returned any more. -/
def State.Hopeless (s : State) : Prop :=
  s.encounteredError ≠ none ∧ (0 < s.length ∨ s.Unfailed ∨ s.remaining ≠ 0)

theorem startChunk_error (partialSubmits : Bool) (x : ℕ) :
    (startChunk cfg partialSubmits x s).encounteredError = s.encounteredError := by
  unfold startChunk pushChunk
  dsimp only
  split_ifs <;> simp [State.push, State.submit, chunkPushed]

theorem iterate_error (submits partialSubmits : Bool) :
    (iterate cfg submits partialSubmits s).encounteredError = s.encounteredError ∨
      (iterate cfg submits partialSubmits s).encounteredError = some .submit := by
  have hroom : (makeRoom cfg submits s).encounteredError = s.encounteredError ∨
      (makeRoom cfg submits s).encounteredError = some .submit := by
    unfold makeRoom
    split_ifs
    · exact .inl rfl
    · exact .inr rfl
    · exact .inl rfl
  unfold iterate
  split_ifs
  · dsimp only
    split_ifs
    · exact hroom
    · cases acquire cfg (makeRoom cfg submits s).free with
      | none => exact hroom
      | some p =>
        obtain ⟨x, rest⟩ := p
        dsimp only
        rw [startChunk_error]
        exact hroom
  · exact .inl rfl

theorem unfailed_of_eq {s' : State} (h : s.Unfailed)
    (heq : s'.encounteredError = s.encounteredError ∨ s'.encounteredError = some .submit ∨
      s'.encounteredError = some .sqFull) : s'.Unfailed := by
  intro errno
  rcases heq with heq | heq | heq
  · rw [heq]
    exact h errno
  · simp [heq]
  · simp [heq]

/-- Where no failure is found, none is recorded. -/
theorem State.Unfailed.step (h : s.Unfailed) {e : Event} (hnone : failures cfg s e = []) :
    (step cfg s e).Unfailed := by
  refine step_rule cfg e h ?_ ?_ ?_ ?_ ?_
  · intro timedOut stalled _ _
    refine unfailed_of_eq h (.inl ?_)
    unfold clock
    split_ifs <;> rfl
  · intro submits partialSubmits _ _
    exact unfailed_of_eq h ((iterate_error submits partialSubmits).imp id .inl)
  · intro submits _ _
    refine unfailed_of_eq h ?_
    unfold flush
    split_ifs
    · exact .inl rfl
    · cases herror : s.encounteredError with
      | none => exact .inr (.inl rfl)
      | some error => exact .inl rfl
    · exact .inl rfl
  · rintro w rfl hphase
    cases hcq : s.ring.cq with
    | nil => exact unfailed_of_eq h (.inl (reap_of_nil cfg hcq w).2.2.1)
    | cons cqe cq =>
      obtain ⟨op, result⟩ := cqe
      rw [failures_reap hphase hcq] at hnone
      rw [reap_of_cq hcq]
      split_ifs at hnone with hfails
      exact unfailed_of_eq h ((processCqe_error hfails).imp id fun heq => .inr heq.2)
  · intro i outcome _
    obtain ⟨memory, dst, ring, hsame⟩ := execute_eq cfg i outcome s
    rw [hsame]
    exact h

/-- A failure at the wrong time is not returned. -/
theorem hopeless_of_not_timely {e : Event} (h : ¬ Timely cfg s e) :
    (step cfg s e).Hopeless := by
  cases e with
  | reap w =>
    rw [Timely, Classical.not_imp] at h
    obtain ⟨hphase, h⟩ := h
    have hstep : step cfg s (.reap w) = reap cfg w s := by simp [step, hphase]
    cases hcq : s.ring.cq with
    | nil =>
      rw [hcq] at h
      exact absurd trivial h
    | cons cqe cq =>
      obtain ⟨op, result⟩ := cqe
      rw [hcq, TimelyOf, Classical.not_imp] at h
      obtain ⟨hfails, h⟩ := h
      obtain ⟨hremaining, hlength⟩ := processCqe_remaining cfg hcq (.inl hfails.2.1)
      have herror := processCqe_fails hfails
      rw [hstep, reap_of_cq hcq]
      unfold State.Hopeless State.Unfailed
      rw [hremaining, hlength, herror]
      by_cases hunsupported : Unsupported op (-result).toNat s
      · rw [if_pos hunsupported]
        exact ⟨by simp, .inr (.inl (by simp))⟩
      · rw [if_neg hunsupported]
        have hlate : ¬ InTime s s.encounteredError := fun hin => h ⟨hunsupported, hin⟩
        cases hsome : s.encounteredError with
        | none =>
          rw [hsome, InTime] at hlate
          refine ⟨by simp, ?_⟩
          by_cases hzero : s.length = 0
          · exact .inr (.inr fun hnone => hlate ⟨hzero, hnone⟩)
          · exact .inl (by omega)
        | some error =>
          rw [if_neg (Option.some_ne_none _)]
          refine ⟨Option.some_ne_none _, .inr (.inl ?_)⟩
          rintro errno ⟨⟩
          rw [hsome] at hlate
          exact hlate trivial
  | clock timedOut stalled => exact absurd trivial h
  | iterate submits partialSubmits => exact absurd trivial h
  | flush submits => exact absurd trivial h
  | execute i outcome => exact absurd trivial h

theorem State.Hopeless.step (h : s.Hopeless) (e : Event) : (step cfg s e).Hopeless := by
  obtain ⟨herror, h⟩ := h
  obtain ⟨hlength, hremaining, hsame | ⟨-, hfull⟩⟩ := step_after_error cfg herror e
  · unfold State.Hopeless State.Unfailed
    rw [hlength, hremaining, hsame]
    exact ⟨herror, h⟩
  · unfold State.Hopeless State.Unfailed
    rw [hfull]
    exact ⟨by simp, .inr (.inl (by simp))⟩

/-! ### Taking what is left -/

/-- After the failure only completions are taken, until the copy returns. -/
structure Draining (errno : ℕ) (s : State) : Prop where
  error : s.encounteredError = some (.os errno)
  length : s.length = 0
  remaining : s.remaining = 0
  phase : s.phase = .reaping ∨ (s.phase = .head ∧ s.inflightOps = 0) ∨
    ∃ result, s.phase = .returned result ∧ result ≠ .error .timedOut

theorem clock_at_end {error : SegmentError} (hlength : s.length = 0) (hinflight : s.inflightOps = 0)
    (herror : s.encounteredError = some error) (timedOut stalled : Bool) :
    clock timedOut stalled s = { s with phase := .returned (.error error) } := by
  unfold clock
  rw [if_neg (by omega), herror]

theorem reap_phase_of_nil (hcq : s.ring.cq = []) (hlength : s.length = 0)
    (hphase : s.phase = .reaping) (w : Wait) :
    (reap cfg w s).phase = .reaping ∨ ((reap cfg w s).phase = .head ∧ s.inflightOps = 0) ∨
      ∃ result, (reap cfg w s).phase = .returned result ∧ result ≠ .error .timedOut := by
  unfold reap
  rw [hcq]
  dsimp only
  rw [if_neg (by omega)]
  split_ifs with hpos
  · cases w with
    | readable => exact .inl hphase
    | failed errno => exact .inr (.inr ⟨_, rfl, by simp⟩)
    | timeout hung submits =>
      cases hung <;> cases submits
      · exact .inr (.inr ⟨_, rfl, by simp⟩)
      · exact .inl hphase
      · exact .inr (.inr ⟨_, rfl, by simp⟩)
      · exact .inr (.inr ⟨_, rfl, by simp⟩)
  · exact .inr (.inl ⟨rfl, by omega⟩)

theorem Draining.step {errno : ℕ} (h : Draining errno s) {e : Event} (htimely : Timely cfg s e) :
    Draining errno (step cfg s e) := by
  have herror : s.encounteredError ≠ none := by simp [h.error]
  obtain ⟨hlength, hremaining, hsame⟩ := step_after_error cfg herror e
  have hsame := hsame.resolve_right fun hnot => hnot.1 htimely
  refine ⟨hsame.trans h.error, hlength.trans h.length, hremaining.trans h.remaining, ?_⟩
  refine step_rule cfg e (P := fun s' => s'.phase = .reaping ∨
    (s'.phase = .head ∧ s'.inflightOps = 0) ∨
      ∃ result, s'.phase = .returned result ∧ result ≠ .error .timedOut) h.phase ?_ ?_ ?_ ?_ ?_
  · intro timedOut stalled _ hhead
    obtain hphase | ⟨-, hinflight⟩ | ⟨result, hphase, -⟩ := h.phase
    · cases hhead.symm.trans hphase
    · rw [clock_at_end h.length hinflight h.error]
      exact .inr (.inr ⟨_, rfl, by simp⟩)
    · cases hhead.symm.trans hphase
  · intro submits partialSubmits _ hsubmitting
    obtain hphase | ⟨hphase, -⟩ | ⟨result, hphase, -⟩ := h.phase <;>
      cases hsubmitting.symm.trans hphase
  · intro submits _ hflushing
    obtain hphase | ⟨hphase, -⟩ | ⟨result, hphase, -⟩ := h.phase <;>
      cases hflushing.symm.trans hphase
  · intro w _ hreaping
    cases hcq : s.ring.cq with
    | nil =>
      rw [(reap_of_nil cfg hcq w).2.1]
      exact reap_phase_of_nil hcq h.length hreaping w
    | cons cqe cq =>
      obtain ⟨op, result⟩ := cqe
      rw [reap_of_cq hcq, processCqe_phase]
      exact .inl hreaping
  · intro i outcome _
    obtain ⟨memory, dst, ring, heq⟩ := execute_eq cfg i outcome s
    rw [heq]
    exact h.phase

/-! ### Nothing in flight -/

variable (cfg) in
theorem step_settled (herror : s.encounteredError ≠ none) (hsettled : active s.ring = [])
    (e : Event) :
    active (step cfg s e).ring = [] ∧ (step cfg s e).inflightOps = s.inflightOps ∧
      (step cfg s e).encounteredError = s.encounteredError := by
  refine step_rule cfg e (P := fun s' => active s'.ring = [] ∧ s'.inflightOps = s.inflightOps ∧
    s'.encounteredError = s.encounteredError) ⟨hsettled, rfl, rfl⟩ ?_ ?_ ?_ ?_ ?_
  · intro timedOut stalled _ _
    unfold clock
    split_ifs <;> exact ⟨hsettled, rfl, rfl⟩
  · intro submits partialSubmits _ _
    unfold iterate
    rw [if_neg fun h => herror h.2.2]
    exact ⟨hsettled, rfl, rfl⟩
  · intro submits _ _
    obtain ⟨error, hsome⟩ := Option.ne_none_iff_exists'.mp herror
    unfold flush
    split_ifs
    · refine ⟨?_, rfl, rfl⟩
      unfold active
      dsimp only [State.submit]
      rw [Ring.line_submit]
      exact hsettled
    · exact ⟨hsettled, rfl, by rw [hsome]; rfl⟩
    · exact ⟨hsettled, rfl, rfl⟩
  · intro w _ _
    cases hcq : s.ring.cq with
    | nil =>
      obtain ⟨-, hinflight, hsame, hactive⟩ := reap_of_nil cfg hcq w
      exact ⟨hactive.trans hsettled, hinflight, hsame⟩
    | cons cqe cq =>
      obtain ⟨op, result⟩ := cqe
      have hactive := active_reap hcq
      rw [hsettled] at hactive
      have hkind : op.kind = .hole := by
        by_contra hkind
        rw [if_neg hkind] at hactive
        cases hactive
      rw [if_pos hkind] at hactive
      rw [reap_of_cq hcq, processCqe, if_pos hkind]
      exact ⟨hactive.symm, rfl, rfl⟩
  · intro i outcome _
    obtain ⟨memory, dst, ring, hsame⟩ := execute_eq cfg i outcome s
    obtain ⟨hactive, -⟩ := execute_active cfg s i outcome
    rw [hsettled, List.length_nil, List.length_eq_zero_iff] at hactive
    refine ⟨hactive, ?_⟩
    rw [hsame]
    exact ⟨rfl, rfl⟩

/-- The turns of the loops until the copy returns, when nothing is left to do. -/
def turnsLeft (s : State) : ℕ :=
  match s.phase with
  | .returned _ => 0
  | .head => 1
  | .reaping => s.ring.line.length + 2
  | .flushing => s.ring.line.length + 3
  | .submitting => s.ring.line.length + 4

variable (cfg) in
theorem step_of_not_turn {e : Event} (h : isTurn s e = false) :
    step cfg s e = s ∨ ∃ i outcome, step cfg s e = execute cfg i outcome s := by
  cases e with
  | execute i outcome => exact .inr ⟨i, outcome, rfl⟩
  | clock timedOut stalled | iterate submits partialSubmits | flush submits | reap w =>
    simp only [isTurn, decide_eq_false_iff_not] at h
    refine .inl ?_
    simp only [step]

theorem turnsLeft_execute (i : ℕ) (outcome : Outcome) :
    turnsLeft (execute cfg i outcome s) = turnsLeft s := by
  have hphase : (execute cfg i outcome s).phase = s.phase := by
    obtain ⟨memory, dst, ring, hsame⟩ := execute_eq cfg i outcome s
    rw [hsame]
  unfold turnsLeft
  rw [hphase, (execute_active cfg s i outcome).2]

/-- Where nothing is in flight and everything has been submitted, the copy returns the error. -/
structure Finishing (errno : ℕ) (s : State) : Prop where
  error : s.encounteredError = some (.os errno)
  length : s.length = 0
  inflight : s.inflightOps = 0
  settled : active s.ring = []
  returned : ∀ result, s.phase = .returned result → result = .error (.os errno)

theorem Finishing.reap_of_cq {errno : ℕ} (h : Finishing errno s) {result : ℤ}
    {cq : List (RingOp × ℤ)} (hcq : s.ring.cq = (op, result) :: cq) (w : Wait) :
    reap cfg w s = { s with ring := s.ring.reap } := by
  have hactive := active_reap hcq
  have hkind : op.kind = .hole := by
    by_contra hkind
    rw [h.settled, if_neg hkind] at hactive
    cases hactive
  rw [SegmentCopy.reap_of_cq hcq, processCqe, if_pos hkind]

variable (cfg) in
/-- A turn brings the copy nearer to its return. -/
theorem Finishing.turn {errno : ℕ} (h : Finishing errno s) {e : Event} (hturn : isTurn s e = true) :
    turnsLeft (step cfg s e) < turnsLeft s ∧
      ∀ result, (step cfg s e).phase = .returned result → result = .error (.os errno) := by
  cases e with
  | execute i outcome => cases hturn
  | clock timedOut stalled =>
    have hphase : s.phase = .head := of_decide_eq_true hturn
    simp only [step, hphase, turnsLeft, clock_at_end h.length h.inflight h.error]
    refine ⟨by omega, ?_⟩
    rintro result ⟨⟩
    rfl
  | iterate submits partialSubmits =>
    have hphase : s.phase = .submitting := of_decide_eq_true hturn
    have hiterate : iterate cfg submits partialSubmits s = { s with phase := .flushing } := by
      unfold iterate
      rw [if_neg fun hwants => Option.some_ne_none _ (h.error.symm.trans hwants.2.2)]
    simp only [step, hphase, turnsLeft, hiterate]
    exact ⟨by omega, fun result hresult => by cases hresult⟩
  | flush submits =>
    have hphase : s.phase = .flushing := of_decide_eq_true hturn
    have hflush : (flush submits s).phase = .reaping ∧
        (flush submits s).ring.line = s.ring.line := by
      unfold flush
      split_ifs
      · exact ⟨rfl, Ring.line_submit s.ring⟩
      · exact ⟨rfl, rfl⟩
      · exact ⟨rfl, rfl⟩
    simp only [step, hphase, turnsLeft, hflush]
    exact ⟨by omega, fun result hresult => by cases hresult⟩
  | reap w =>
    have hphase : s.phase = .reaping := of_decide_eq_true hturn
    have hstep : step cfg s (.reap w) = reap cfg w s := by simp only [step, hphase]
    rw [hstep]
    cases hcq : s.ring.cq with
    | nil =>
      have hhead : reap cfg w s = { s with phase := .head } := by
        have hlength := h.length
        have hinflight := h.inflight
        unfold reap
        rw [hcq]
        dsimp only
        rw [if_neg (by omega), if_neg (by omega)]
      simp only [hhead, turnsLeft, hphase]
      exact ⟨by omega, fun result hresult => by cases hresult⟩
    | cons cqe cq =>
      obtain ⟨op, result⟩ := cqe
      simp only [h.reap_of_cq hcq, turnsLeft, hphase, Ring.line_of_cq hcq, List.length_cons]
      exact ⟨by omega, fun result hresult => by cases hresult⟩

theorem Finishing.step {errno : ℕ} (h : Finishing errno s) (e : Event) :
    Finishing errno (step cfg s e) ∧ turnsLeft (step cfg s e) ≤ turnsLeft s := by
  have herror : s.encounteredError ≠ none := by simp [h.error]
  obtain ⟨hsettled, hinflight, hsame⟩ := step_settled cfg herror h.settled e
  have hlength := (step_after_error cfg herror e).1
  have hrest : (∀ result, (SegmentCopy.step cfg s e).phase = .returned result →
      result = .error (.os errno)) ∧ turnsLeft (SegmentCopy.step cfg s e) ≤ turnsLeft s := by
    cases hturn : isTurn s e with
    | true =>
      obtain ⟨hlt, hreturned⟩ := h.turn cfg hturn
      exact ⟨hreturned, hlt.le⟩
    | false =>
      obtain heq | ⟨i, outcome, heq⟩ := step_of_not_turn cfg hturn
      · rw [heq]
        exact ⟨h.returned, le_refl _⟩
      · obtain ⟨memory, dst, ring, hphase⟩ := execute_eq cfg i outcome s
        rw [heq, turnsLeft_execute, hphase]
        exact ⟨h.returned, le_refl _⟩
  exact ⟨⟨hsame.trans h.error, hlength.trans h.length, hinflight.trans h.inflight, hsettled,
    hrest.1⟩, hrest.2⟩

theorem returned_step {result : Except SegmentError Unit} (h : s.phase = .returned result)
    (e : Event) : (step cfg s e).phase = .returned result := by
  refine step_rule cfg e (P := fun s' => s'.phase = .returned result) h ?_ ?_ ?_ ?_ ?_
  · exact fun _ _ _ hphase => by cases h.symm.trans hphase
  · exact fun _ _ _ hphase => by cases h.symm.trans hphase
  · exact fun _ _ hphase => by cases h.symm.trans hphase
  · exact fun _ _ hphase => by cases h.symm.trans hphase
  · intro i outcome _
    obtain ⟨memory, dst, ring, hsame⟩ := execute_eq cfg i outcome s
    rw [hsame]
    exact h

theorem Finishing.returnsSoon {errno : ℕ} (h : Finishing errno s) : ReturnsSoon cfg errno s := by
  refine ⟨turnsLeft s + 1, fun es => ?_⟩
  have hreached := Run.reached_or_tally_le (SegmentCopy.step cfg) isTurn (I := Finishing errno)
    (G := fun s => s.phase = .returned (.error (.os errno))) (μ := turnsLeft)
    (fun s e h => (h.step e).1) (fun s e _ hdone => returned_step hdone e)
    (fun s e h => (h.step e).2) (fun s e h _ hturn => (h.turn cfg hturn).1) h es
  have hend : Finishing errno (Run.exec (SegmentCopy.step cfg) s es) :=
    Run.invariant_all _ (fun s e h => (h.step e).1) es h
  by_cases hdone : (Run.exec (SegmentCopy.step cfg) s es).phase = .returned (.error (.os errno))
  · exact .inl hdone
  · refine .inr ⟨fun result hresult => hdone ?_, ?_⟩
    · rw [hresult, hend.returned result hresult]
    · have := hreached.resolve_left hdone
      omega

/-- Nothing is in flight, and the copy goes round without returning the error. -/
structure Stuck (errno : ℕ) (s : State) : Prop where
  error : s.encounteredError ≠ none
  settled : active s.ring = []
  hindered : 0 < s.length ∨ s.inflightOps ≠ 0 ∨ s.encounteredError ≠ some (.os errno)
  unreturned : s.phase ≠ .returned (.error (.os errno))

theorem Stuck.step {errno : ℕ} (h : Stuck errno s) (e : Event) : Stuck errno (step cfg s e) := by
  obtain ⟨hsettled, hinflight, hsame⟩ := step_settled cfg h.error h.settled e
  have hlength := (step_after_error cfg h.error e).1
  refine ⟨hsame ▸ h.error, hsettled, ?_, ?_⟩
  · rw [hlength, hinflight, hsame]
    exact h.hindered
  refine step_rule cfg e (P := fun s' => s'.phase ≠ .returned (.error (.os errno))) h.unreturned
    ?_ ?_ ?_ ?_ ?_
  · intro timedOut stalled _ _
    obtain ⟨error, hsome⟩ := Option.ne_none_iff_exists'.mp h.error
    have hhindered := h.hindered
    rw [hsome] at hhindered
    unfold clock
    split_ifs with hmore
    · simp [State.fail]
    · simp
    · simp [State.fail]
    · simp
    · have hother : error ≠ .os errno := by
        rintro rfl
        obtain hpos | hpos | hne := hhindered
        · omega
        · omega
        · exact hne rfl
      simpa [hsome] using hother
  · intro submits partialSubmits _ _
    unfold iterate
    rw [if_neg fun hwants => h.error hwants.2.2]
    simp
  · intro submits _ _
    unfold flush
    split_ifs <;> simp
  · intro w _ hphase
    cases hcq : s.ring.cq with
    | nil =>
      unfold reap
      rw [hcq]
      dsimp only
      split_ifs
      · simp
      · cases w with
        | readable => simp [hphase]
        | failed errno => simp [State.fail]
        | timeout hung submits =>
          cases hung <;> cases submits <;> simp [State.fail, State.submit, hphase]
      · simp
    | cons cqe cq =>
      obtain ⟨op, result⟩ := cqe
      rw [reap_of_cq hcq, processCqe_phase]
      simp [hphase]
  · intro i outcome _
    obtain ⟨memory, dst, ring, heq⟩ := execute_eq cfg i outcome s
    rw [heq]
    exact h.unreturned

/-- The event of the loop where the copy is. -/
def turnAt (s : State) : Event :=
  match s.phase with
  | .head => .clock false false
  | .submitting => .iterate true true
  | .flushing => .flush true
  | .reaping => .reap .readable
  | .returned _ => .clock false false

theorem isTurn_turnAt (h : s.Running) : isTurn s (turnAt s) = true := by
  unfold turnAt
  cases hphase : s.phase with
  | head => exact decide_eq_true hphase
  | submitting => exact decide_eq_true hphase
  | flushing => exact decide_eq_true hphase
  | reaping => exact decide_eq_true hphase
  | returned result => exact absurd hphase (h result)

theorem Stuck.not_returnsSoon {errno : ℕ} (h : Stuck errno s) : ¬ ReturnsSoon cfg errno s := by
  rintro ⟨n, hn⟩
  obtain ⟨es, hes⟩ := Run.exists_tally (SegmentCopy.step cfg) isTurn (R := State.Running)
    (f := turnAt) (fun s hs => isTurn_turnAt hs) n s
  have hend : Stuck errno (Run.exec (SegmentCopy.step cfg) s es) :=
    Run.invariant_all _ (fun s e h => h.step e) es h
  obtain hdone | ⟨hrunning, hlt⟩ := hn es
  · exact hend.unreturned hdone
  · have := hes hrunning
    omega

end Steps

/-! ## Runs -/

section Runs
variable {cfg : Config} {s : State}

theorem unfailed_of_outputs (hs : s.Unfailed) {es : List Event}
    (hnone : Run.outputs (step cfg) (failures cfg) s es = []) :
    (Run.exec (step cfg) s es).Unfailed := by
  induction es generalizing s with
  | nil => exact hs
  | cons e es ih =>
    rw [Run.outputs, List.append_eq_nil_iff] at hnone
    exact ih (hs.step hnone.1) hnone.2

theorem timely_of_no_failures {e : Event} (h : failures cfg s e = []) : Timely cfg s e := by
  cases e with
  | reap w =>
    intro hphase
    unfold failures at h
    rw [if_pos hphase] at h
    cases hcq : s.ring.cq with
    | nil => trivial
    | cons cqe cq =>
      obtain ⟨op, result⟩ := cqe
      intro hfails
      rw [hcq, failureOf, if_pos hfails] at h
      cases h
  | clock timedOut stalled => trivial
  | iterate submits partialSubmits => trivial
  | flush submits => trivial
  | execute i outcome => trivial

/-- After a first failure at the right time there is nothing left but completions. -/
theorem draining_of_timely (hs : s.Unfailed) {e : Event} {errno : ℕ}
    (hfound : (failures cfg s e).head? = some errno) (htimely : Timely cfg s e) :
    Draining errno (step cfg s e) := by
  obtain ⟨w, op, result, cq, rfl, hphase, hcq, hfails, rfl⟩ := of_failures hfound
  have hstep : step cfg s (.reap w) = reap cfg w s := by simp only [step, hphase]
  have hof := htimely hphase
  rw [hcq] at hof
  obtain ⟨hsupported, hin⟩ := hof hfails
  obtain ⟨hremaining, hlength⟩ := processCqe_remaining cfg hcq (.inl hfails.2.1)
  have herror := processCqe_fails hfails
  cases hsome : s.encounteredError with
  | none =>
    rw [hsome] at hin
    rw [if_neg hsupported, if_pos hsome] at herror
    rw [hstep, reap_of_cq hcq]
    exact ⟨herror, hlength.trans hin.1, hremaining.trans hin.2,
      .inl ((processCqe_phase _ _ _ _).trans hphase)⟩
  | some error =>
    rw [hsome] at hin
    cases error with
    | os errno => exact absurd hsome (hs errno)
    | timedOut => exact hin.elim
    | stalled => exact hin.elim
    | hung => exact hin.elim
    | readable errno => exact hin.elim
    | submit => exact hin.elim
    | sqFull => exact hin.elim
    | atomic => exact hin.elim
    | memory => exact hin.elim

theorem Draining.finishing {errno : ℕ} (h : Draining errno s) (hrunning : s.Running)
    (hsettled : active s.ring = []) : Finishing errno s where
  error := h.error
  length := h.length
  inflight := by
    have hremaining := h.remaining
    rwa [State.remaining, hsettled] at hremaining
  settled := hsettled
  returned result hresult := absurd hresult (hrunning result)

theorem State.Hopeless.stuck (h : s.Hopeless) (hrunning : s.Running)
    (hsettled : active s.ring = []) (errno : ℕ) : Stuck errno s where
  error := h.1
  settled := hsettled
  hindered := by
    obtain hlength | hunfailed | hremaining := h.2
    · exact .inl hlength
    · exact .inr (.inr (hunfailed errno))
    · rw [State.remaining, hsettled] at hremaining
      exact .inr (.inl hremaining)
  unreturned := hrunning _

/-- In a run in which failures come at the right time the first one is returned. -/
theorem failsPromptly_of_timely (hs : s.Unfailed) {es : List Event}
    (htimely : Run.Along (step cfg) (Timely cfg) s es) : FailsPromptly cfg s es := by
  intro errno hfound
  obtain ⟨p, e, q, rfl, hnone, hfirst⟩ := Run.head_outputs (step cfg) hfound
  obtain ⟨-, he, hq⟩ := (Run.along_append (step cfg) _ s p (e :: q)).mp htimely
  have hdraining : Draining errno (Run.exec (step cfg) s (p ++ e :: q)) := by
    rw [Run.exec_append, Run.exec_cons]
    exact Run.invariant (step cfg) (I := Draining errno)
      (fun s e htimely h => h.step htimely) hq
      (draining_of_timely (unfailed_of_outputs hs hnone) hfirst he)
  refine ⟨fun hout => ?_, fun hrunning hsettled =>
    (hdraining.finishing hrunning hsettled).returnsSoon⟩
  obtain hphase | ⟨hphase, -⟩ | ⟨result, hphase, hresult⟩ := hdraining.phase
  · cases hout.symm.trans hphase
  · cases hout.symm.trans hphase
  · rw [hout, Phase.returned.injEq] at hphase
    exact hresult hphase.symm

/-- In a run with a failure at the wrong time no error is returned when nothing is in flight. -/
theorem not_failsPromptly_of_not_timely {es : List Event}
    (hlate : ¬ Run.Along (step cfg) (Timely cfg) s es)
    (hrunning : (Run.exec (step cfg) s es).Running)
    (hsettled : active (Run.exec (step cfg) s es).ring = []) : ¬ FailsPromptly cfg s es := by
  obtain ⟨p, e, q, rfl, -, hnot⟩ := Run.exists_of_not_along (step cfg) hlate
  have hhopeless : (Run.exec (step cfg) s (p ++ e :: q)).Hopeless := by
    rw [Run.exec_append, Run.exec_cons]
    exact Run.invariant_all (step cfg) (I := State.Hopeless) (fun s e h => h.step e) q
      (hopeless_of_not_timely hnot)
  have hfailure : failures cfg (Run.exec (step cfg) s p) e ≠ [] :=
    fun hnil => hnot (timely_of_no_failures hnil)
  have hfound : Run.outputs (step cfg) (failures cfg) s (p ++ e :: q) ≠ [] := by
    rw [Run.outputs_append, Run.outputs]
    simp [hfailure]
  intro h
  obtain ⟨errno, hhead⟩ := Option.ne_none_iff_exists'.mp (mt List.head?_eq_none_iff.mp hfound)
  exact (hhopeless.stuck hrunning hsettled errno).not_returnsSoon
    ((h errno hhead).2 hrunning hsettled)

theorem unfailed_start (cfg : Config) (free : List ℕ) (memory : ℕ → Bytes) (holes : ℕ)
    (dst : Bytes) : (start cfg free memory holes dst).Unfailed := by
  intro errno herror
  cases herror

/-- If all failures of a run come at the right time, the first one is returned; if one does not,
none is. -/
theorem failsPromptly_iff_timely (cfg : Config) (free : List ℕ) (memory : ℕ → Bytes) (holes : ℕ)
    (dst : Bytes) (es : List Event) :
    let s := start cfg free memory holes dst
    let t := Run.exec (step cfg) s es
    (Run.Along (step cfg) (Timely cfg) s es → FailsPromptly cfg s es) ∧
      (t.Running → active t.ring = [] →
        (FailsPromptly cfg s es ↔ Run.Along (step cfg) (Timely cfg) s es)) := by
  intro s t
  have htimely : Run.Along (step cfg) (Timely cfg) s es → FailsPromptly cfg s es :=
    failsPromptly_of_timely (unfailed_start cfg free memory holes dst)
  refine ⟨htimely, fun hrunning hsettled => ⟨fun h => ?_, htimely⟩⟩
  by_contra hlate
  exact not_failsPromptly_of_not_timely hlate hrunning hsettled h

/-- The first read fails while the second chunk has not been submitted. -/
def lateFailure : List Event :=
  [.clock false false, .iterate true true, .iterate true true, .flush true,
    .execute 0 (.failed 5), .execute 0 (.moved 4096), .reap .readable, .reap .readable,
    .reap .readable]

theorem lateFailure_timesOut :
    let s := start linkedPair [0, 1] (fun _ => []) 0 []
    let t := Run.exec (step linkedPair) s lateFailure
    Run.outputs (step linkedPair) (failures linkedPair) s lateFailure = [5] ∧
      active t.ring = [] ∧ t.inflightOps = 0 ∧ ¬ ReturnsSoon linkedPair 5 t ∧
      (step linkedPair t (.clock true false)).phase = .returned (.error .timedOut) ∧
      ¬ FailsPromptly linkedPair s lateFailure := by
  intro s t
  have hfound : Run.outputs (step linkedPair) (failures linkedPair) s lateFailure = [5] := by
    decide +kernel
  have hphase : t.phase = .head := by decide +kernel
  have hrunning : t.Running := by
    intro result hresult
    cases hphase.symm.trans hresult
  have hsettled : active t.ring = [] := by decide +kernel
  have hlate : 0 < t.length := by decide +kernel
  have hstuck : Stuck 5 t := ⟨by decide +kernel, hsettled, .inl hlate, hrunning _⟩
  refine ⟨hfound, hsettled, by decide +kernel, hstuck.not_returnsSoon, by decide +kernel,
    fun h => ?_⟩
  have hprompt := h 5 (by rw [hfound]; rfl)
  exact hstuck.not_returnsSoon (hprompt.2 hrunning hsettled)

end Runs

end Foxing.SegmentCopy
