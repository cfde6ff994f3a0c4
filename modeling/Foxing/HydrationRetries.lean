import Foxing.Event

/-!
# The retry loop of a hydration job

A job is attempted again until it ends or a number of rounds has failed. An error that counts as
a disconnect makes the worker wait for the mount of the source, and then the rounds are counted
anew, whether or not anything was disconnected. What a round finds is given, so that a run is
about every sequence of outcomes.
-/
namespace Foxing.HydrationRetries

/-- An error of the system with its number, or another one. -/
inductive IoError where
  | os (code : ℕ)
  | notFound
  | timedOut
  | other
  deriving DecidableEq, Repr

inductive FoxingError where
  | io (e : IoError)
  | other
  deriving DecidableEq, Repr

def enoent : ℕ := 2
def eio : ℕ := 5
def enodev : ℕ := 19
def erofs : ℕ := 30

def IoError.isNotFound : IoError → Bool
  | .os code => code = enoent
  | .notFound => true
  | _ => false

def isDisconnectError : FoxingError → Bool
  | .io (.os code) => code = enodev || code = eio || code = erofs || code = enoent
  | .io e => e.isNotFound
  | .other => false

def isVanished : FoxingError → Bool
  | .io e => e.isNotFound
  | .other => false

def hydrationCopyMaxAttempts : ℕ := 10

def hydrationSmallFileThreshold : ℕ := 256 * 1024

def merkleDeltaThreshold : ℕ := 1024 * 1024

/-- What is known of a copy that was made. -/
structure CopyStats where
  bytesProcessed : ℕ
  bytesZeros : ℕ
  opsCount : ℕ
  deriving DecidableEq, Repr

inductive SourceKind where
  | directory
  | file (size : ℕ)
  | special
  deriving DecidableEq, Repr

/-- What a round of the loop finds: whether a shutdown is requested, the metadata of the source,
what the copy of the differences gives where it settles the job, what the copy and the work after
it give, how often the mount of the source is missing while the worker waits for it, where that
ends, and whether the source is there afterwards. -/
structure Round where
  shutdownRequested : Bool
  metadata : Except IoError SourceKind
  delta : Option CopyStats
  copy : Except FoxingError (Option CopyStats)
  postCopy : Except FoxingError Unit
  mountMissing : Option ℕ
  sourceExists : Bool

/-- The job at the head of its loop, after its end, or in a wait that does not end. -/
inductive State where
  | running (attempts : ℕ)
  | returned (result : Except FoxingError (Option CopyStats))
  | waiting
  deriving Repr

/-- The condition of the loop. -/
def loopHead (attempts : ℕ) : State :=
  if attempts < hydrationCopyMaxAttempts then .running attempts
  else .returned (.error (.io .timedOut))

/-- After an error that does not start the count anew. -/
def retryOrFail (attempts : ℕ) (e : FoxingError) : State :=
  if attempts < hydrationCopyMaxAttempts then loopHead attempts else .returned (.error e)

/-- The end of a round in which the copy failed. -/
def copyFailed (r : Round) (attempts : ℕ) (e : FoxingError) : State :=
  if isVanished e then .returned (.ok none)
  else if isDisconnectError e then
    match r.mountMissing with
    | none => .waiting
    | some _ => if r.sourceExists then loopHead 0 else retryOrFail attempts e
  else retryOrFail attempts e

/-- The end of a round in which the copy succeeded. -/
def copySucceeded (r : Round) (size attempts : ℕ) (stats : CopyStats) : State :=
  match r.postCopy with
  | .error _ =>
    -- for a small file the work after the copy may fail
    if hydrationSmallFileThreshold < size then loopHead attempts else .returned (.ok (some stats))
  | .ok () => .returned (.ok (some stats))

def copyFile (r : Round) (size attempts : ℕ) : State :=
  match r.copy with
  | .ok (some stats) => copySucceeded r size attempts stats
  | .ok none => .returned (.ok none)
  | .error e => copyFailed r attempts e

/-- A round from the head of the loop. -/
def round (r : Round) (attempts : ℕ) : State :=
  if r.shutdownRequested then .returned (.ok none)
  else
    let attempts := attempts + 1
    match r.metadata with
    | .error e =>
      if hydrationCopyMaxAttempts ≤ attempts then .returned (.error (.io e)) else loopHead attempts
    | .ok .directory | .ok .special => .returned (.ok none)
    | .ok (.file size) =>
      match if merkleDeltaThreshold < size then r.delta else none with
      | some stats => .returned (.ok (some stats))
      | none => copyFile r size attempts

/-- The job after a number of rounds of a sequence. -/
def run (rounds : ℕ → Round) : ℕ → State
  | 0 => loopHead 0
  | n + 1 =>
    match run rounds n with
    | .running attempts => round (rounds n) attempts
    | s => s

/-! ## Kinds of rounds -/

/-- The round comes to the copy of a file of that size. -/
def Tries (r : Round) (size : ℕ) : Prop :=
  r.shutdownRequested = false ∧ r.metadata = .ok (.file size) ∧
    (merkleDeltaThreshold < size → r.delta = none)

/-- The copy fails with an error that counts as a disconnect. -/
def Disconnects (r : Round) : Prop :=
  ∃ e, r.copy = .error e ∧ isVanished e = false ∧ isDisconnectError e = true

/-- The count starts anew. -/
def Reconnects (r : Round) : Prop :=
  (∃ size, Tries r size) ∧ Disconnects r ∧ r.mountMissing ≠ none ∧ r.sourceExists = true

/-- The worker waits without end. -/
def Waits (r : Round) : Prop :=
  (∃ size, Tries r size) ∧ Disconnects r ∧ r.mountMissing = none

/-- The copy, or the work after the copy of a large file, fails otherwise. -/
def CopyFails (r : Round) (size : ℕ) : Prop :=
  (∃ e, r.copy = .error e ∧ isVanished e = false ∧
    (isDisconnectError e = false ∨ r.mountMissing ≠ none ∧ r.sourceExists = false)) ∨
  ∃ stats e, r.copy = .ok (some stats) ∧ r.postCopy = .error e ∧
    hydrationSmallFileThreshold < size

/-- The round counts as failed. -/
def Fails (r : Round) : Prop :=
  r.shutdownRequested = false ∧ (∃ e, r.metadata = .error e) ∨
    ∃ size, Tries r size ∧ CopyFails r size

/-- The source is not found, or its mount, or it is not there after the wait. -/
def Absent (r : Round) : Prop :=
  (∃ e, r.metadata = .error e) ∨
    Disconnects r ∧ (r.mountMissing ≠ some 0 ∨ r.sourceExists = false)

/-- The round is taken for a disconnect, while the mount and the source are there. -/
def FalseDisconnect (r : Round) : Prop :=
  (∃ size, Tries r size) ∧ Disconnects r ∧ r.mountMissing = some 0 ∧ r.sourceExists = true

theorem round_of_tries {r : Round} {size : ℕ} (h : Tries r size) (attempts : ℕ) :
    round r attempts = copyFile r size (attempts + 1) := by
  obtain ⟨hshutdown, hmeta, hdelta⟩ := h
  rw [round, if_neg (by rw [hshutdown]; exact Bool.false_ne_true), hmeta]
  dsimp only
  by_cases hsize : merkleDeltaThreshold < size
  · rw [if_pos hsize, hdelta hsize]
  · rw [if_neg hsize]

theorem round_of_reconnects {r : Round} (h : Reconnects r) (attempts : ℕ) :
    round r attempts = .running 0 := by
  obtain ⟨⟨size, htries⟩, ⟨e, hcopy, hvanished, hdisconnect⟩, hmount, hexists⟩ := h
  rw [round_of_tries htries, copyFile, hcopy]
  dsimp only
  rw [copyFailed, if_neg (by rw [hvanished]; exact Bool.false_ne_true), if_pos hdisconnect]
  obtain ⟨k, hk⟩ := Option.ne_none_iff_exists'.mp hmount
  rw [hk]
  dsimp only
  rw [if_pos hexists]
  rfl

theorem round_of_waits {r : Round} (h : Waits r) (attempts : ℕ) : round r attempts = .waiting := by
  obtain ⟨⟨size, htries⟩, ⟨e, hcopy, hvanished, hdisconnect⟩, hmount⟩ := h
  rw [round_of_tries htries, copyFile, hcopy]
  dsimp only
  rw [copyFailed, if_neg (by rw [hvanished]; exact Bool.false_ne_true), if_pos hdisconnect, hmount]

theorem loopHead_spec (attempts : ℕ) :
    (attempts < hydrationCopyMaxAttempts → loopHead attempts = .running attempts) ∧
      (hydrationCopyMaxAttempts ≤ attempts → ∃ res, loopHead attempts = .returned res) :=
  ⟨fun h => if_pos h, fun h => ⟨_, if_neg (Nat.not_lt.mpr h)⟩⟩

theorem retryOrFail_spec (attempts : ℕ) (e : FoxingError) :
    (attempts < hydrationCopyMaxAttempts → retryOrFail attempts e = .running attempts) ∧
      (hydrationCopyMaxAttempts ≤ attempts → ∃ res, retryOrFail attempts e = .returned res) := by
  refine ⟨fun h => ?_, fun h => ⟨_, if_neg (Nat.not_lt.mpr h)⟩⟩
  rw [retryOrFail, if_pos h]
  exact if_pos h

/-- A round that counts as failed is followed by another one, up to the number of attempts. -/
theorem round_of_fails {r : Round} (h : Fails r) (attempts : ℕ) :
    (attempts + 1 < hydrationCopyMaxAttempts → round r attempts = .running (attempts + 1)) ∧
      (hydrationCopyMaxAttempts ≤ attempts + 1 → ∃ res, round r attempts = .returned res) := by
  rcases h with ⟨hshutdown, e, hmeta⟩ | ⟨size, htries, hfails⟩
  · rw [round, if_neg (by rw [hshutdown]; exact Bool.false_ne_true), hmeta]
    refine ⟨fun h => ?_, fun h => ⟨_, if_pos h⟩⟩
    exact (if_neg (Nat.not_le.mpr h)).trans ((loopHead_spec _).1 h)
  · rw [round_of_tries htries, copyFile]
    rcases hfails with ⟨e, hcopy, hvanished, hother⟩ | ⟨stats, e, hcopy, hpost, hsize⟩
    · have hfailed : copyFailed r (attempts + 1) e = retryOrFail (attempts + 1) e := by
        rw [copyFailed, if_neg (by rw [hvanished]; exact Bool.false_ne_true)]
        rcases hother with hother | ⟨hmount, hexists⟩
        · rw [if_neg (by rw [hother]; exact Bool.false_ne_true)]
        · obtain ⟨k, hk⟩ := Option.ne_none_iff_exists'.mp hmount
          rw [hk, hexists]
          dsimp only
          rw [if_neg Bool.false_ne_true, ite_self]
      rw [hcopy]
      dsimp only
      rw [hfailed]
      exact retryOrFail_spec _ e
    · rw [hcopy]
      dsimp only
      rw [copySucceeded, hpost]
      dsimp only
      rw [if_pos hsize]
      exact loopHead_spec _

/-- A copy that neither fails nor is taken for a disconnect ends the job. -/
theorem copyFile_ends {r : Round} {size : ℕ} (htries : Tries r size) (hfails : ¬CopyFails r size)
    (hreconnects : ¬Reconnects r) (hwaits : ¬Waits r) (attempts : ℕ) :
    ∃ res, copyFile r size attempts = .returned res := by
  rw [copyFile]
  cases hcopy : r.copy with
  | ok stats =>
    cases stats with
    | none => exact ⟨_, rfl⟩
    | some stats =>
      dsimp only
      rw [copySucceeded]
      cases hpost : r.postCopy with
      | ok done => exact ⟨_, rfl⟩
      | error e =>
        have hsmall : ¬hydrationSmallFileThreshold < size := fun h =>
          hfails (.inr ⟨stats, e, hcopy, hpost, h⟩)
        exact ⟨_, if_neg hsmall⟩
  | error e =>
    dsimp only
    rw [copyFailed]
    cases hvanished : isVanished e with
    | true => exact ⟨_, if_pos rfl⟩
    | false =>
      rw [if_neg Bool.false_ne_true]
      cases hdisconnect : isDisconnectError e with
      | false => exact absurd (.inl ⟨e, hcopy, hvanished, .inl hdisconnect⟩) hfails
      | true =>
        have hdis : Disconnects r := ⟨e, hcopy, hvanished, hdisconnect⟩
        by_cases hmount : r.mountMissing = none
        · exact absurd ⟨⟨size, htries⟩, hdis, hmount⟩ hwaits
        · cases hexists : r.sourceExists with
          | true => exact absurd ⟨⟨size, htries⟩, hdis, hmount, hexists⟩ hreconnects
          | false => exact absurd (.inl ⟨e, hcopy, hvanished, .inr ⟨hmount, hexists⟩⟩) hfails

/-- Any other round ends the job. -/
theorem round_ends {r : Round} (hfails : ¬Fails r) (hreconnects : ¬Reconnects r)
    (hwaits : ¬Waits r) (attempts : ℕ) : ∃ res, round r attempts = .returned res := by
  rw [round]
  cases hshutdown : r.shutdownRequested with
  | true => exact ⟨_, if_pos rfl⟩
  | false =>
    rw [if_neg Bool.false_ne_true]
    cases hmeta : r.metadata with
    | error e => exact absurd (.inl ⟨hshutdown, e, hmeta⟩) hfails
    | ok kind =>
      cases kind with
      | directory => exact ⟨_, rfl⟩
      | special => exact ⟨_, rfl⟩
      | file size =>
        dsimp only
        cases hdelta : (if merkleDeltaThreshold < size then r.delta else none) with
        | some stats => exact ⟨_, rfl⟩
        | none =>
          have htries : Tries r size :=
            ⟨hshutdown, hmeta, fun hsize => (if_pos hsize).symm.trans hdelta⟩
          dsimp only
          exact copyFile_ends htries (fun h => hfails (.inr ⟨size, htries, h⟩)) hreconnects hwaits _

/-! ## Runs -/

/-- The job is at the head of its loop after a number of rounds. -/
def Reaches (rounds : ℕ → Round) (n : ℕ) : Prop := ∃ attempts, run rounds n = .running attempts

/-- The job returns after at most the number of attempts that follow the last absence. -/
def Bounded (rounds : ℕ → Round) : Prop :=
  ∀ m, Reaches rounds m → (∀ j, m ≤ j → j < m + hydrationCopyMaxAttempts → ¬Absent (rounds j)) →
    ∃ res, run rounds (m + hydrationCopyMaxAttempts) = .returned res

variable {rounds : ℕ → Round}

theorem run_succ {n attempts : ℕ} (h : run rounds n = .running attempts) :
    run rounds (n + 1) = round (rounds n) attempts := by
  rw [run, h]

/-- A job that does not run any more stays as it is. -/
theorem run_stays {n m : ℕ} (hle : n ≤ m) (h : ¬Reaches rounds n) :
    run rounds m = run rounds n := by
  induction m, hle using Nat.le_induction with
  | base => rfl
  | succ m _ ih =>
    rw [run, ih]
    cases hrun : run rounds n with
    | running attempts => exact absurd ⟨attempts, hrun⟩ h
    | returned res => rfl
    | waiting => rfl

theorem reaches_of_le {n m : ℕ} (hle : n ≤ m) (h : Reaches rounds m) : Reaches rounds n := by
  by_contra hn
  obtain ⟨attempts, hrun⟩ := h
  exact hn ⟨attempts, (run_stays hle hn).symm.trans hrun⟩

/-- A round after which the job runs on has failed or starts the count anew. -/
theorem goesOn_of_reaches {n : ℕ} (h : Reaches rounds (n + 1)) :
    Fails (rounds n) ∨ Reconnects (rounds n) := by
  obtain ⟨attempts, hrun⟩ := reaches_of_le (Nat.le_succ n) h
  obtain ⟨next, hnext⟩ := h
  rw [run_succ hrun] at hnext
  by_contra hends
  rw [not_or] at hends
  by_cases hwaits : Waits (rounds n)
  · rw [round_of_waits hwaits] at hnext
    cases hnext
  · obtain ⟨res, hres⟩ := round_ends hends.1 hends.2 hwaits attempts
    rw [hres] at hnext
    cases hnext

/-- A running job has attempts left. -/
theorem attempts_lt {n attempts : ℕ} (h : run rounds n = .running attempts) :
    attempts < hydrationCopyMaxAttempts := by
  cases n with
  | zero =>
    cases h
    decide
  | succ n =>
    obtain ⟨before, hrun⟩ := reaches_of_le (Nat.le_succ n) ⟨attempts, h⟩
    have hround := (run_succ hrun).symm.trans h
    rcases goesOn_of_reaches ⟨attempts, h⟩ with hfails | hreconnects
    · by_cases hlt : before + 1 < hydrationCopyMaxAttempts
      · rw [(round_of_fails hfails before).1 hlt] at hround
        cases hround
        exact hlt
      · obtain ⟨res, hres⟩ := (round_of_fails hfails before).2 (Nat.not_lt.mp hlt)
        rw [hres] at hround
        cases hround
    · rw [round_of_reconnects hreconnects] at hround
      cases hround
      decide

theorem waits_of_round {r : Round} {attempts : ℕ} (h : round r attempts = .waiting) : Waits r := by
  by_contra hwaits
  by_cases hreconnects : Reconnects r
  · rw [round_of_reconnects hreconnects] at h
    cases h
  · by_cases hfails : Fails r
    · rcases Nat.lt_or_ge (attempts + 1) hydrationCopyMaxAttempts with hlt | hge
      · rw [(round_of_fails hfails attempts).1 hlt] at h
        cases h
      · obtain ⟨res, hres⟩ := (round_of_fails hfails attempts).2 hge
        rw [hres] at h
        cases h
    · obtain ⟨res, hres⟩ := round_ends hfails hreconnects hwaits attempts
      rw [hres] at h
      cases h

/-- Where the job waits without end, the mount of the source is missing. -/
theorem absent_of_waiting {m n : ℕ} (hm : Reaches rounds m) (hle : m ≤ n)
    (h : run rounds n = .waiting) : ∃ j, m ≤ j ∧ j < n ∧ Absent (rounds j) := by
  induction n, hle using Nat.le_induction with
  | base =>
    obtain ⟨attempts, hrun⟩ := hm
    rw [hrun] at h
    cases h
  | succ n hle ih =>
    rw [run] at h
    cases hrun : run rounds n with
    | running attempts =>
      rw [hrun] at h
      obtain ⟨-, hdisconnects, hmount⟩ := waits_of_round h
      refine ⟨n, hle, Nat.lt_succ_self n, .inr ⟨hdisconnects, .inl ?_⟩⟩
      rw [hmount]
      exact (Option.some_ne_none 0).symm
    | returned res =>
      rw [hrun] at h
      cases h
    | waiting =>
      obtain ⟨j, hmj, hjn, habsent⟩ := ih hrun
      exact ⟨j, hmj, Nat.lt_succ_of_lt hjn, habsent⟩

/-- A failed round counts, and only one that is taken for a disconnect starts the count anew. -/
theorem attempts_add {m attempts : ℕ} (hm : run rounds m = .running attempts) {i : ℕ}
    (hi : Reaches rounds (m + i)) (hfails : ∀ j, m ≤ j → j < m + i → ¬Reconnects (rounds j)) :
    run rounds (m + i) = .running (attempts + i) := by
  induction i with
  | zero => exact hm
  | succ i ih =>
    have hrun := ih (reaches_of_le (Nat.le_succ _) hi) fun j hmj hj => hfails j hmj (by omega)
    have hround := run_succ hrun
    rw [← Nat.add_assoc] at hi ⊢
    have hfail : Fails (rounds (m + i)) :=
      (goesOn_of_reaches hi).resolve_right (hfails _ (by omega) (by omega))
    rcases Nat.lt_or_ge (attempts + i + 1) hydrationCopyMaxAttempts with hlt | hge
    · rw [hround, (round_of_fails hfail _).1 hlt]
      rfl
    · obtain ⟨res, hres⟩ := (round_of_fails hfail _).2 hge
      obtain ⟨next, hnext⟩ := hi
      rw [hround, hres] at hnext
      cases hnext

/-- After the count has started anew the job runs on as long as the rounds go on. -/
theorem reaches_add {k : ℕ} (hk : run rounds (k + 1) = .running 0) {i : ℕ}
    (hi : i < hydrationCopyMaxAttempts)
    (hgoes : ∀ j, k < j → j < k + 1 + i → Fails (rounds j) ∨ Reconnects (rounds j)) :
    ∃ attempts ≤ i, run rounds (k + 1 + i) = .running attempts := by
  induction i with
  | zero => exact ⟨0, le_rfl, hk⟩
  | succ i ih =>
    obtain ⟨attempts, hle, hrun⟩ := ih (by omega) fun j hkj hj => hgoes j hkj (by omega)
    have hround := run_succ hrun
    rw [← Nat.add_assoc]
    rcases hgoes (k + 1 + i) (by omega) (by omega) with hfails | hreconnects
    · have hnext := (round_of_fails hfails attempts).1 (by omega)
      exact ⟨attempts + 1, by omega, hround.trans hnext⟩
    · exact ⟨0, Nat.zero_le _, hround.trans (round_of_reconnects hreconnects attempts)⟩

theorem FalseDisconnect.reconnects {r : Round} (h : FalseDisconnect r) : Reconnects r := by
  obtain ⟨htries, hdisconnects, hmount, hexists⟩ := h
  exact ⟨htries, hdisconnects, hmount ▸ Option.some_ne_none 0, hexists⟩

theorem Reconnects.falseDisconnect {r : Round} (h : Reconnects r) (habsent : ¬Absent r) :
    FalseDisconnect r := by
  obtain ⟨htries, hdisconnects, -, hexists⟩ := h
  refine ⟨htries, hdisconnects, ?_, hexists⟩
  by_contra hmount
  exact habsent (.inr ⟨hdisconnects, .inl hmount⟩)

/-- A job returns after at most its number of attempts since the last absence, exactly when
every reached round that is taken for a disconnect, while the mount and the source are there,
is near an absence or to a round that ends the job. -/
theorem bounded_iff (rounds : ℕ → Round) :
    Bounded rounds ↔
      ∀ m k, m ≤ k → k < m + hydrationCopyMaxAttempts → Reaches rounds k →
        FalseDisconnect (rounds k) →
          (∃ j, m ≤ j ∧ j < m + hydrationCopyMaxAttempts ∧ Absent (rounds j)) ∨
          ∃ j, k < j ∧ j < m + hydrationCopyMaxAttempts ∧
            ¬Fails (rounds j) ∧ ¬Reconnects (rounds j) := by
  constructor
  · intro hbounded m k hmk hkm hreach hfalse
    by_contra hneither
    rw [not_or] at hneither
    obtain ⟨res, hres⟩ := hbounded m (reaches_of_le hmk hreach) fun j hmj hj habsent =>
      hneither.1 ⟨j, hmj, hj, habsent⟩
    obtain ⟨attempts, hrun⟩ := hreach
    have hanew : run rounds (k + 1) = .running 0 :=
      (run_succ hrun).trans (round_of_reconnects hfalse.reconnects attempts)
    obtain ⟨next, -, hnext⟩ := reaches_add hanew (i := m + hydrationCopyMaxAttempts - (k + 1))
      (by omega) fun j hkj hj => by
        by_contra hends
        rw [not_or] at hends
        exact hneither.2 ⟨j, hkj, by omega, hends⟩
    have hlast : k + 1 + (m + hydrationCopyMaxAttempts - (k + 1)) =
        m + hydrationCopyMaxAttempts := by omega
    rw [hlast, hres] at hnext
    cases hnext
  · intro hcondition m hm habsent
    cases hrun : run rounds (m + hydrationCopyMaxAttempts) with
    | returned res => exact ⟨res, rfl⟩
    | waiting =>
      obtain ⟨j, hmj, hj, hgone⟩ := absent_of_waiting hm (Nat.le_add_right _ _) hrun
      exact absurd hgone (habsent j hmj hj)
    | running last =>
      have hlast : Reaches rounds (m + hydrationCopyMaxAttempts) := ⟨last, hrun⟩
      have hnoreconnect : ∀ j, m ≤ j → j < m + hydrationCopyMaxAttempts →
          ¬Reconnects (rounds j) := by
        intro j hmj hj hreconnects
        have hfalse := hreconnects.falseDisconnect (habsent j hmj hj)
        rcases hcondition m j hmj hj (reaches_of_le hj.le hlast) hfalse with
          ⟨x, hmx, hx, hgone⟩ | ⟨x, hjx, hx, hends⟩
        · exact habsent x hmx hx hgone
        · rcases goesOn_of_reaches (reaches_of_le hx hlast) with hfails | hagain
          · exact hends.1 hfails
          · exact hends.2 hagain
      obtain ⟨attempts, hattempts⟩ := hm
      have hlt := attempts_lt (attempts_add hattempts hlast hnoreconnect)
      omega

/-- The target is read-only, and the source stays where it is. -/
def readOnlyTarget : Round where
  shutdownRequested := false
  metadata := .ok (.file 1)
  delta := none
  copy := .error (.io (.os erofs))
  postCopy := .ok ()
  mountMissing := some 0
  sourceExists := true

/-- A job whose target has become read-only is attempted without end. -/
theorem readOnlyTarget_not_bounded : ¬∀ rounds : ℕ → Round, Bounded rounds := by
  intro h
  have hrounds : ∀ n, run (fun _ => readOnlyTarget) n = .running 0 := by
    intro n
    induction n with
    | zero => rfl
    | succ n ih => exact (run_succ ih).trans rfl
  obtain ⟨res, hres⟩ := h (fun _ => readOnlyTarget) 0 ⟨0, rfl⟩ fun j _ _ habsent => by
    rcases habsent with ⟨e, hmeta⟩ | ⟨-, hmount | hexists⟩
    · cases hmeta
    · exact hmount rfl
    · cases hexists
  rw [hrounds] at hres
  cases hres

end Foxing.HydrationRetries
