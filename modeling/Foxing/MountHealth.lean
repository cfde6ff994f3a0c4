import Foxing.HydrationRequests

/-!
# Mount health of a target

Every ten seconds the hydration loop looks at each target: whether the mount
table has it, which device its path answers with, and whether a probe file can be
written and synced. From this and what it remembers of the mount it pauses the
workers of the target or lets them go on, and asks for a recovery scan. A worker
looks at the mount table more often and can pause the target as well.
-/
namespace Foxing.Mount

/-- What the loop remembers of the mount of a target. -/
structure MountState where
  baselineDev : U64
  mountId : U64
  available : Bool
  deriving DecidableEq, Repr

/-- What there is to see of a target at a health tick. -/
structure Observation where
  globallyMounted : Bool
  /-- The device of the path, if its metadata can be read. -/
  dev : Option U64
  /-- The probe file can be opened and synced. -/
  probe : Bool
  mountId : Option U64
  deriving DecidableEq, Repr

/-- The path answers with the device it is known by, or none is known yet, and it is live. -/
def MountState.reachable (m : MountState) (o : Observation) : Bool :=
  let devMatch := o.dev.isSome && o.dev.getD 0 = m.baselineDev && m.baselineDev ≠ 0
  let live := o.dev.isSome && o.probe
  (devMatch || (o.dev.isSome && m.baselineDev = 0)) && live

/-- The outcome of a health tick for one target. -/
structure Tick where
  mount : MountState
  paused : Bool
  /-- A recovery scan is requested. -/
  recovery : Bool
  deriving DecidableEq, Repr

/-- The health tick of one target. -/
def healthTick (m : MountState) (paused : Bool) (o : Observation) : Tick :=
  if !o.globallyMounted && m.available then
    -- A lazy unmount, which the checks of the path itself would not see.
    ⟨{ m with mountId := 0, available := false }, true, false⟩
  else if o.globallyMounted && !m.available && m.mountId = 0 then
    ⟨⟨o.dev.getD 0, o.mountId.getD 1, true⟩, false, true⟩
  else
    let currentDev := o.dev.getD 0
    let devMatch := o.dev.isSome && currentDev = m.baselineDev && m.baselineDev ≠ 0
    let recovered := m.reachable o && !m.available
    let lost := !m.reachable o && m.available
    let remounted := o.dev.isSome && !devMatch && m.available && m.baselineDev ≠ 0
    let mountId := o.mountId.getD 0
    { mount :=
        { baselineDev := if recovered || remounted then currentDev else m.baselineDev
          mountId := if mountId ≠ 0 then mountId else m.mountId
          available := m.reachable o }
      paused := if recovered then false else if lost then true else paused
      recovery := recovered || remounted }

/-- A target: its mount, its pause flag, and the request for a recovery scan of its source. -/
structure Target where
  mount : MountState
  paused : Bool
  requestRecoveryScan : Bool
  deriving DecidableEq, Repr

/-- The target when the loop starts, given what there is to see of it then; a worker may
have paused it by then. -/
def Target.start (dev mountId : Option U64) (paused : Bool) : Target :=
  let available : Bool := dev.getD 0 ≠ 0
  ⟨⟨dev.getD 0, mountId.getD 0, available⟩, paused || !available, false⟩

inductive Action where
  | tick (o : Observation)
  /-- A worker looks the target up in the mount table. -/
  | mountCheck (mounted : Bool)
  /-- The loop takes the request for a recovery scan. -/
  | takeRequest
  deriving DecidableEq, Repr

def Target.step (t : Target) : Action → Target
  | .tick o =>
    let r := healthTick t.mount t.paused o
    ⟨r.mount, r.paused, t.requestRecoveryScan || r.recovery⟩
  | .mountCheck mounted =>
    if !t.paused && !mounted then { t with paused := true, requestRecoveryScan := true } else t
  | .takeRequest => { t with requestRecoveryScan := false }

/-! ## What a tick owes -/

/-- The target is in the mount table, its path answers, and the probe works. -/
def Observation.healthy (o : Observation) : Bool :=
  o.globallyMounted && o.dev.isSome && o.probe

/-- A tick leaves a healthy target running and any other paused, and no step lets a
paused target go on without a request for a recovery scan. -/
structure StepSound (t : Target) (a : Action) : Prop where
  running : ∀ o, a = .tick o → o.healthy = true → (t.step a).paused = false
  paused : ∀ o, a = .tick o → o.healthy = false → (t.step a).paused = true
  recovery : t.paused = true → (t.step a).paused = false → (t.step a).requestRecoveryScan = true

/-- The condition on a tick. A target that is not in the mount table is available so far,
or its path does not answer. A healthy one is waited for after a lazy unmount, or answers
with the known device and has not been paused by a worker while it was available. Any
other is not waited for after a lazy unmount. -/
def StepSafe (t : Target) : Action → Prop
  | .tick o =>
    if o.globallyMounted = false then
      t.mount.available = true ∨ t.mount.reachable o = false
    else if o.healthy then
      t.mount.available = false ∧ t.mount.mountId = 0 ∨
        t.mount.reachable o = true ∧ (t.mount.available = true → t.paused = false)
    else t.mount.available = true ∨ t.mount.mountId ≠ 0
  | _ => True

/-- A target that is not available is paused. -/
def Target.Held (t : Target) : Prop := t.mount.available = false → t.paused = true

section
variable {m : MountState} (paused : Bool) {o : Observation}

theorem healthTick_unmounted (hgone : o.globallyMounted = false) (hm : m.available = true) :
    healthTick m paused o = ⟨{ m with mountId := 0, available := false }, true, false⟩ := by
  simp [healthTick, hgone, hm]

theorem healthTick_mounted (hback : o.globallyMounted = true) (hm : m.available = false)
    (hid : m.mountId = 0) :
    healthTick m paused o = ⟨⟨o.dev.getD 0, o.mountId.getD 1, true⟩, false, true⟩ := by
  simp [healthTick, hback, hm, hid]

/-- Where no lazy unmount is concerned, availability follows the probe. -/
theorem healthTick_probed (hgone : o.globallyMounted = true ∨ m.available = false)
    (hback : o.globallyMounted = false ∨ m.available = true ∨ m.mountId ≠ 0) :
    (healthTick m paused o).mount.available = m.reachable o ∧
    (healthTick m paused o).paused =
      (if m.reachable o = m.available then paused else m.available) ∧
    (m.reachable o = true → m.available = false → (healthTick m paused o).recovery = true) := by
  have h₁ : (!o.globallyMounted && m.available) = false := by
    rcases hgone with h | h <;> simp [h]
  have h₂ : (o.globallyMounted && !m.available && decide (m.mountId = 0)) = false := by
    rcases hback with h | h | h <;> simp [h]
  unfold healthTick
  rw [if_neg (by simp [h₁]), if_neg (by simp [h₂])]
  refine ⟨rfl, ?_, ?_⟩
  · cases hr : m.reachable o <;> cases ha : m.available <;> simp
  · intro hr ha
    simp [hr, ha]

/-- The three ways of a tick: a lazy unmount, its end, or a look at the path. -/
theorem tick_cases (m : MountState) (o : Observation) :
    (o.globallyMounted = false ∧ m.available = true) ∨
    (o.globallyMounted = true ∧ m.available = false ∧ m.mountId = 0) ∨
    ((o.globallyMounted = true ∨ m.available = false) ∧
      (o.globallyMounted = false ∨ m.available = true ∨ m.mountId ≠ 0)) := by
  by_cases hid : m.mountId = 0 <;> cases o.globallyMounted <;> cases m.available <;> simp [hid]

theorem reachable_healthy (h : m.reachable o = true) (hmounted : o.globallyMounted = true) :
    o.healthy = true := by
  simp only [MountState.reachable, Bool.and_eq_true] at h
  simp [Observation.healthy, hmounted, h.2.1, h.2.2]

end

theorem held_start (dev mountId : Option U64) (paused : Bool) :
    (Target.start dev mountId paused).Held := by
  intro h
  simp only [Target.start] at h ⊢
  simp [h]

theorem Target.Held.step {t : Target} (h : t.Held) (a : Action) : (t.step a).Held := by
  cases a with
  | tick o =>
    intro havailable
    simp only [Target.step] at havailable ⊢
    rcases tick_cases t.mount o with ⟨hgone, hm⟩ | ⟨hback, hm, hid⟩ | ⟨hgone, hback⟩
    · rw [healthTick_unmounted t.paused hgone hm]
    · rw [healthTick_mounted t.paused hback hm hid] at havailable
      cases havailable
    · obtain ⟨hnew, hpaused, -⟩ := healthTick_probed t.paused hgone hback
      rw [hnew] at havailable
      rw [hpaused, havailable]
      cases hm : t.mount.available with
      | false => exact h hm
      | true => rfl
  | mountCheck mounted =>
    simp only [Target.step]
    split
    · exact fun _ => rfl
    · exact h
  | takeRequest => exact h

/-- A tick that lets a paused target go on requests a recovery scan. -/
theorem healthTick_recovery {m : MountState} {paused : Bool} {o : Observation}
    (hpaused : paused = true) (h : (healthTick m paused o).paused = false) :
    (healthTick m paused o).recovery = true := by
  rcases tick_cases m o with ⟨hgone, hm⟩ | ⟨hback, hm, hid⟩ | ⟨hgone, hback⟩
  · rw [healthTick_unmounted paused hgone hm] at h
    cases h
  · rw [healthTick_mounted paused hback hm hid]
  · obtain ⟨-, hnew, hrecovery⟩ := healthTick_probed paused hgone hback
    rw [hnew] at h
    split at h
    · rw [hpaused] at h
      cases h
    · next hne =>
      have hr : m.reachable o = true := by
        rw [h, Bool.not_eq_false] at hne
        exact hne
      exact hrecovery hr h

theorem recovery_of_unpaused {t : Target} {a : Action} (hpaused : t.paused = true)
    (h : (t.step a).paused = false) : (t.step a).requestRecoveryScan = true := by
  cases a with
  | tick o =>
    simp only [Target.step] at h ⊢
    rw [healthTick_recovery hpaused h, Bool.or_true]
  | mountCheck mounted =>
    simp [Target.step, hpaused] at h
  | takeRequest =>
    rw [Target.step, hpaused] at h
    cases h

theorem stepSound_tick_iff {t : Target} {o : Observation} :
    StepSound t (.tick o) ↔ (t.step (.tick o)).paused = !o.healthy := by
  constructor
  · intro h
    cases hhealthy : o.healthy with
    | false => exact h.paused o rfl hhealthy
    | true => exact h.running o rfl hhealthy
  · intro h
    refine ⟨?_, ?_, recovery_of_unpaused⟩
    · rintro o' ⟨⟩ hhealthy
      rw [h, hhealthy, Bool.not_true]
    · rintro o' ⟨⟩ hhealthy
      rw [h, hhealthy, Bool.not_false]

theorem healthy_of_gone {o : Observation} (h : o.globallyMounted = false) : o.healthy = false := by
  simp [Observation.healthy, h]

/-- A step from a state in which unavailable targets are paused does what it owes exactly
when it is safe. -/
theorem stepSound_iff_stepSafe {t : Target} (ht : t.Held) (a : Action) :
    StepSound t a ↔ StepSafe t a := by
  cases a with
  | mountCheck mounted | takeRequest =>
    exact ⟨fun _ => trivial, fun _ => ⟨nofun, nofun, recovery_of_unpaused⟩⟩
  | tick o =>
    rw [stepSound_tick_iff]
    simp only [Target.step, StepSafe]
    rcases tick_cases t.mount o with ⟨hgone, hm⟩ | ⟨hback, hm, hid⟩ | ⟨hgone, hback⟩
    · rw [healthTick_unmounted t.paused hgone hm, healthy_of_gone hgone]
      simp [hgone, hm]
    · rw [healthTick_mounted t.paused hback hm hid]
      cases hhealthy : o.healthy <;> simp [hback, hm, hid]
    · obtain ⟨-, hnew, -⟩ := healthTick_probed t.paused hgone hback
      rw [hnew]
      cases hmounted : o.globallyMounted with
      | false =>
        -- The target was unavailable already, so that it is paused.
        have hm : t.mount.available = false := by simpa [hmounted] using hgone
        have hpaused := ht hm
        rw [healthy_of_gone hmounted]
        cases hr : t.mount.reachable o <;> simp [hm, hpaused]
      | true =>
        cases hr : t.mount.reachable o with
        | true =>
          have hhealthy := reachable_healthy hr hmounted
          cases hm : t.mount.available <;> simp [hhealthy]
        | false =>
          cases hm : t.mount.available with
          | true =>
            cases hhealthy : o.healthy <;> simp
          | false =>
            have hid : t.mount.mountId ≠ 0 := by simpa [hmounted, hm] using hback
            cases hhealthy : o.healthy <;> simp [hid, ht hm]

/-- In every run the ticks do what they owe exactly when all of them are safe. As steps of the
daemon they are those of `health_probes`. -/
theorem stepSound_iff_safe (dev mountId : Option U64) (paused : Bool) (acts : List Action) :
    Run.Along Target.step StepSound (Target.start dev mountId paused) acts ↔
      Run.Along Target.step StepSafe (Target.start dev mountId paused) acts :=
  Run.along_congr Target.step (fun _ a h => Target.Held.step h a)
    (fun _ a h => stepSound_iff_stepSafe h a) acts (held_start dev mountId paused)

/-! ## Ticks as steps of the daemon -/

/-- What a tick comes to for the daemon. -/
def Tick.probes (r : Tick) : List Probe :=
  if r.recovery then if r.paused then [.lost, .remounted] else [.recovered]
  else if r.paused then [.lost] else []

/-- The probes of a tick set the pause flag and the request as the tick does. -/
theorem health_probes {σ τ : Type*} [DecidableEq σ] [DecidableEq τ] (d : Daemon σ τ) (s : σ) (t : τ)
    (now : ℤ) (m : MountState) (o : Observation) :
    let r := healthTick m (d.target s t).paused o
    let d' := r.probes.foldl (fun d probe => d.health s t now probe) d
    (d'.target s t).paused = r.paused ∧
      (d'.hydration s).requestRecoveryScan =
        ((d.hydration s).requestRecoveryScan || r.recovery) := by
  intro r d'
  have hunpaused : r.recovery = false → r.paused = false → (d.target s t).paused = false := by
    intro hrecovery hpaused
    by_contra hne
    have := healthTick_recovery (Bool.eq_true_of_not_eq_false hne) hpaused
    rw [hrecovery] at this
    cases this
  cases hrecovery : r.recovery with
  | true =>
    cases hpaused : r.paused <;>
      simp [d', Tick.probes, hrecovery, hpaused, Daemon.health, Daemon.requestRecoveryScan,
        Daemon.onHydration, Daemon.onTarget]
  | false =>
    cases hpaused : r.paused with
    | true => simp [d', Tick.probes, hrecovery, hpaused, Daemon.health, Daemon.onTarget]
    | false => simp [d', Tick.probes, hrecovery, hpaused, hunpaused hrecovery hpaused]

/-- A healthy target on device 5. -/
def mounted : Observation := ⟨true, some 5, true, some 7⟩

/-- The target is unmounted and mounted again between two ticks, and a worker sees it. -/
def quickRemount : List Action := [.tick mounted, .mountCheck false, .tick mounted]

/-- The last tick finds the target healthy and leaves it paused. -/
theorem quickRemount_paused :
    ¬ Run.Along Target.step StepSound (Target.start (some 5) (some 7) false) quickRemount := by
  intro h
  have hpaused := h.2.2.1.running mounted rfl (by decide)
  revert hpaused
  decide

end Foxing.Mount
