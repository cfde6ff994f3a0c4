import Foxing.Event
import Foxing.Lib.Run
import Mathlib.Algebra.Order.Group.Nat
import Mathlib.Algebra.Order.Ring.Nat

/-!
# How long a sync may take

A smoothed average of the times that syncs have taken, and of how far they were from it, gives
the timeout of the next sync. A sync that has not come to its end in time doubles both. Only the
doubling stops at the largest integer; the other sums and products of 64 bits can overflow, which
gives no result here.
-/
namespace Foxing.FsyncLatency

/-- A duration of the standard library: seconds, and nanoseconds below a second. -/
structure Duration where
  secs : U64
  nanos : Fin 1000000000
  deriving DecidableEq, Repr

/-- Microseconds, for which 64 bits may be too few. -/
def Duration.asMicros (d : Duration) : ℕ := d.secs.val * 1000000 + d.nanos.val / 1000

structure FsyncLatencyTracker where
  avgUs : U64
  deviationUs : U64
  deriving DecidableEq, Repr

/-- A sum or a product, unless it overflows. -/
def checked (n : ℕ) : Option U64 := if h : n < 2 ^ 64 then some ⟨n, h⟩ else none

def saturatingMul (a : U64) (b : ℕ) : U64 := ⟨min (a.val * b) (2 ^ 64 - 1), by omega⟩

namespace FsyncLatencyTracker

def default : FsyncLatencyTracker := ⟨⟨1000000, by omega⟩, ⟨500000, by omega⟩⟩

/-- The duration is cut to its lowest 64 bits. -/
def sample (d : Duration) : ℕ := d.asMicros % 2 ^ 64

/-- How far a sample is from the average. -/
def diff (t : FsyncLatencyTracker) (sample : ℕ) : ℕ :=
  if sample > t.avgUs.val then sample - t.avgUs.val else t.avgUs.val - sample

def recordSuccess (t : FsyncLatencyTracker) (d : Duration) : Option FsyncLatencyTracker := do
  let threefold ← checked (t.deviationUs.val * 3)
  let deviations ← checked (threefold.val + t.diff (sample d))
  let sevenfold ← checked (t.avgUs.val * 7)
  let samples ← checked (sevenfold.val + sample d)
  return ⟨⟨samples.val / 8, by omega⟩, ⟨deviations.val / 4, by omega⟩⟩

def recordTimeout (t : FsyncLatencyTracker) : FsyncLatencyTracker :=
  ⟨min (saturatingMul t.avgUs 2) ⟨30000000, by omega⟩, saturatingMul t.deviationUs 2⟩

/-- The timeout in microseconds. -/
def getTimeout (t : FsyncLatencyTracker) : Option ℕ := do
  let fourfold ← checked (4 * t.deviationUs.val)
  let timeout ← checked (t.avgUs.val + fourfold.val)
  return max 5000000 (min timeout.val 60000000)

end FsyncLatencyTracker

/-- A sync has succeeded after some time, or has not come to its end. -/
inductive Call where
  | success (d : Duration)
  | timeout
  deriving DecidableEq, Repr

namespace FsyncLatencyTracker

def record (t : FsyncLatencyTracker) : Call → Option FsyncLatencyTracker
  | .success d => t.recordSuccess d
  | .timeout => some t.recordTimeout

/-- The tracker after some calls, if nothing has overflowed. -/
def recordAll (t : FsyncLatencyTracker) (calls : List Call) : Option FsyncLatencyTracker :=
  calls.foldlM record t

/-- Nothing overflows in the calls, nor when the timeout is asked for before, between or after
them, and it is always between 5 and 60 seconds. -/
def Safe (t : FsyncLatencyTracker) (calls : List Call) : Prop :=
  ∀ before, before <+: calls → ∃ t' timeout, t.recordAll before = some t' ∧
    t'.getTimeout = some timeout ∧ 5000000 ≤ timeout ∧ timeout ≤ 60000000

/-- What timeouts have cost that successes have not made up for: it takes three successes to make
up for a timeout. -/
def owedAfter (owed : ℕ) : Call → ℕ
  | .success _ => owed - 1
  | .timeout => owed + 3

/-- No sample is above the bound, and at no time do timeouts that are not made up for, each of
which doubles the bound, leave too little room. -/
structure MadeUp (bound : ℕ) (calls : List Call) : Prop where
  samples : ∀ d, .success d ∈ calls → sample d ≤ bound
  room : ∀ before, before <+: calls → bound * 2 ^ (before.foldl owedAfter 0 / 3 + 6) < 2 ^ 64

/-! ## One call -/

theorem checked_eq_some {n : ℕ} {a : U64} : checked n = some a ↔ n = a.val := by
  unfold checked
  split_ifs with h
  · rw [Option.some_inj, Fin.ext_iff]
  · refine iff_of_false (by simp) fun heq => ?_
    omega

/-- There is a timeout, and it is within its bounds, unless four times the deviation and the
average have more than 64 bits. -/
theorem getTimeout_iff (t : FsyncLatencyTracker) :
    (∃ timeout, t.getTimeout = some timeout ∧ 5000000 ≤ timeout ∧ timeout ≤ 60000000) ↔
      t.avgUs.val + 4 * t.deviationUs.val < 2 ^ 64 := by
  simp only [getTimeout, Option.bind_eq_bind, Option.bind_eq_some_iff, checked_eq_some,
    Option.pure_def, Option.some_inj]
  constructor
  · rintro ⟨_, ⟨fourfold, hfour, timeout, htimeout, -⟩, -⟩
    omega
  · intro h
    exact ⟨_, ⟨⟨4 * t.deviationUs.val, by omega⟩, rfl, ⟨_, h⟩, rfl, rfl⟩, by omega, by omega⟩

theorem recordSuccess_eq_some {t t' : FsyncLatencyTracker} {d : Duration} :
    t.recordSuccess d = some t' ↔
      t.deviationUs.val * 3 + t.diff (sample d) < 2 ^ 64 ∧ t.avgUs.val * 7 + sample d < 2 ^ 64 ∧
        t'.avgUs.val = (t.avgUs.val * 7 + sample d) / 8 ∧
        t'.deviationUs.val = (t.deviationUs.val * 3 + t.diff (sample d)) / 4 := by
  simp only [recordSuccess, Option.bind_eq_bind, Option.bind_eq_some_iff, checked_eq_some,
    Option.pure_def, Option.some_inj]
  constructor
  · rintro ⟨threefold, hthree, deviations, hdeviations, sevenfold, hseven, samples, hsamples, rfl⟩
    rw [hthree, hdeviations, hseven, hsamples]
    exact ⟨deviations.isLt, samples.isLt, rfl, rfl⟩
  · rintro ⟨hdeviations, hsamples, havg, hdeviation⟩
    refine ⟨⟨t.deviationUs.val * 3, by omega⟩, rfl, ⟨_, hdeviations⟩, rfl,
      ⟨t.avgUs.val * 7, by omega⟩, rfl, ⟨_, hsamples⟩, rfl, ?_⟩
    obtain ⟨avg, deviation⟩ := t'
    rw [FsyncLatencyTracker.mk.injEq]
    exact ⟨Fin.ext havg.symm, Fin.ext hdeviation.symm⟩

theorem avgUs_recordTimeout (t : FsyncLatencyTracker) :
    t.recordTimeout.avgUs.val = min (t.avgUs.val * 2) 30000000 := by
  have hmin : t.recordTimeout.avgUs.val = min (min (t.avgUs.val * 2) (2 ^ 64 - 1)) 30000000 :=
    Fin.coe_min _ _
  omega

theorem deviationUs_recordTimeout (t : FsyncLatencyTracker) :
    t.recordTimeout.deviationUs.val = min (t.deviationUs.val * 2) (2 ^ 64 - 1) := rfl

/-- A success with a sample within the bound overflows nothing if there is room for three times
the deviation and for the bound. The average stays within the bound. -/
theorem recordSuccess_bounded {bound limit : ℕ} {t : FsyncLatencyTracker} {d : Duration}
    (hsample : sample d ≤ bound) (havg : t.avgUs.val ≤ bound)
    (hdeviation : t.deviationUs.val ≤ limit) (hbound : bound * 8 < 2 ^ 64) (hlimit : limit * 3 + bound < 2 ^ 64) :
    ∃ t', t.recordSuccess d = some t' ∧ t'.avgUs.val ≤ bound ∧
      t'.deviationUs.val ≤ (limit * 3 + bound) / 4 := by
  have hdiff : t.diff (sample d) ≤ bound := by
    unfold diff
    split_ifs <;> omega
  refine ⟨⟨⟨(t.avgUs.val * 7 + sample d) / 8, by omega⟩,
    ⟨(t.deviationUs.val * 3 + t.diff (sample d)) / 4, by omega⟩⟩,
    recordSuccess_eq_some.mpr ⟨by omega, by omega, rfl, rfl⟩, ?_, ?_⟩ <;> dsimp only <;> omega

/-- A timeout doubles the deviation, and leaves the average within every bound of at least
30 seconds. -/
theorem recordTimeout_bounded {bound limit : ℕ} (hbound : 30000000 ≤ bound)
    {t : FsyncLatencyTracker} (hdeviation : t.deviationUs.val ≤ limit) :
    t.recordTimeout.avgUs.val ≤ bound ∧ t.recordTimeout.deviationUs.val ≤ limit * 2 := by
  have havg' := t.avgUs_recordTimeout
  have hdeviation' := t.deviationUs_recordTimeout
  omega

/-! ## Calls in a row -/

theorem safe_nil (t : FsyncLatencyTracker) :
    t.Safe [] ↔ t.avgUs.val + 4 * t.deviationUs.val < 2 ^ 64 := by
  rw [← getTimeout_iff]
  constructor
  · intro h
    obtain ⟨t', timeout, hall, htimeout⟩ := h [] (List.nil_prefix)
    obtain rfl := Option.some.inj hall
    exact ⟨timeout, htimeout⟩
  · rintro ⟨timeout, htimeout⟩ before hbefore
    rw [List.prefix_nil.mp hbefore]
    exact ⟨t, timeout, rfl, htimeout⟩

theorem recordAll_cons (t : FsyncLatencyTracker) (c : Call) (calls : List Call) :
    t.recordAll (c :: calls) = (t.record c).bind fun t' => t'.recordAll calls :=
  List.foldlM_cons ..

theorem safe_cons (t : FsyncLatencyTracker) (c : Call) (calls : List Call) :
    t.Safe (c :: calls) ↔ t.Safe [] ∧ ∃ t', t.record c = some t' ∧ t'.Safe calls := by
  constructor
  · intro h
    refine ⟨fun before hbefore => h before (hbefore.trans List.nil_prefix), ?_⟩
    obtain ⟨t', -, hone, -⟩ := h [c] (List.prefix_append [c] calls)
    rw [recordAll_cons] at hone
    obtain ⟨t', hrecord, -⟩ := Option.bind_eq_some_iff.mp hone
    refine ⟨t', hrecord, fun before hbefore => ?_⟩
    obtain ⟨last, timeout, hall, htimeout⟩ :=
      h (c :: before) (List.cons_prefix_cons.mpr ⟨rfl, hbefore⟩)
    rw [recordAll_cons, hrecord, Option.bind_some] at hall
    exact ⟨last, timeout, hall, htimeout⟩
  · rintro ⟨hnil, t', hrecord, hsafe⟩ before hbefore
    cases before with
    | nil => exact hnil [] List.nil_prefix
    | cons c' before =>
      obtain ⟨rfl, hrest⟩ := List.cons_prefix_cons.mp hbefore
      rw [recordAll_cons, hrecord, Option.bind_some]
      exact hsafe before hrest

/-- How far a deviation can be above the bound by what is owed. -/
def deviationLimit (bound : ℕ) : ℕ → ℕ
  | 0 => bound * 8
  | 1 => bound * 10
  | 2 => bound * 13
  | owed + 3 => deviationLimit bound owed * 2

theorem deviationLimit_le (bound owed : ℕ) :
    deviationLimit bound owed ≤ bound * 2 ^ (owed / 3) * 13 := by
  induction owed using deviationLimit.induct with
  | case1 => simp only [deviationLimit]; omega
  | case2 => simp only [deviationLimit]; omega
  | case3 => simp only [deviationLimit]; omega
  | case4 owed ih =>
    have hthird : (owed + 3) / 3 = owed / 3 + 1 := Nat.add_div_right owed (by decide)
    show deviationLimit bound owed * 2 ≤ bound * 2 ^ ((owed + 3) / 3) * 13
    rw [hthird, Nat.pow_succ, ← Nat.mul_assoc]
    omega

theorem le_deviationLimit (bound owed : ℕ) : bound * 8 ≤ deviationLimit bound owed := by
  induction owed using deviationLimit.induct with
  | case1 => exact le_refl _
  | case2 => simp only [deviationLimit]; omega
  | case3 => simp only [deviationLimit]; omega
  | case4 owed ih => rw [deviationLimit]; omega

/-- A success makes up for a third of a doubling. -/
theorem deviationLimit_success (bound owed : ℕ) :
    deviationLimit bound owed * 3 + bound ≤ deviationLimit bound (owed - 1) * 4 := by
  cases owed with
  | zero => simp only [Nat.zero_sub, deviationLimit]; omega
  | succ owed =>
    rw [Nat.add_sub_cancel]
    induction owed using deviationLimit.induct with
    | case1 => simp only [deviationLimit]; omega
    | case2 => simp only [deviationLimit]; omega
    | case3 => simp only [deviationLimit]; omega
    | case4 owed ih =>
      show deviationLimit bound (owed + 1) * 2 * 3 + bound ≤ deviationLimit bound owed * 2 * 4
      omega

theorem deviationLimit_fits {bound owed : ℕ} (hroom : bound * 2 ^ (owed / 3 + 6) < 2 ^ 64) :
    bound + deviationLimit bound owed * 4 < 2 ^ 64 := by
  have hle := deviationLimit_le bound owed
  have hleast := le_deviationLimit bound owed
  rw [Nat.pow_add, ← Nat.mul_assoc] at hroom
  omega

/-- What is owed bounds the deviation, from call to call. -/
theorem safe_of_owed {bound : ℕ} (hbound : 30000000 ≤ bound) {calls : List Call}
    (hsamples : ∀ d, .success d ∈ calls → sample d ≤ bound) {t : FsyncLatencyTracker} {owed : ℕ}
    (hroom : ∀ before, before <+: calls →
      bound * 2 ^ (before.foldl owedAfter owed / 3 + 6) < 2 ^ 64)
    (havg : t.avgUs.val ≤ bound) (hdeviation : t.deviationUs.val ≤ deviationLimit bound owed) :
    t.Safe calls := by
  induction calls generalizing t owed with
  | nil =>
    have hfits : bound + deviationLimit bound owed * 4 < 2 ^ 64 :=
      deviationLimit_fits (hroom [] List.nil_prefix)
    exact t.safe_nil.mpr (by omega)
  | cons c calls ih =>
    have hfits : bound + deviationLimit bound owed * 4 < 2 ^ 64 :=
      deviationLimit_fits (hroom [] List.nil_prefix)
    have hleast := le_deviationLimit bound owed
    have hrest : ∀ d, .success d ∈ calls → sample d ≤ bound :=
      fun d hd => hsamples d (List.mem_cons_of_mem c hd)
    have hroom' : ∀ before, before <+: calls →
        bound * 2 ^ (before.foldl owedAfter (owedAfter owed c) / 3 + 6) < 2 ^ 64 :=
      fun before hbefore => hroom (c :: before) (List.cons_prefix_cons.mpr ⟨rfl, hbefore⟩)
    rw [safe_cons]
    refine ⟨t.safe_nil.mpr (by omega), ?_⟩
    cases c with
    | success d =>
      have hsample := hsamples d (List.mem_cons_self ..)
      obtain ⟨t', hrecord, havg', hdeviation'⟩ :=
        recordSuccess_bounded hsample havg hdeviation (by omega) (by omega)
      have hlower := deviationLimit_success bound owed
      refine ⟨t', hrecord, ih hrest hroom' havg' ?_⟩
      show t'.deviationUs.val ≤ deviationLimit bound (owed - 1)
      omega
    | timeout =>
      obtain ⟨havg', hdeviation'⟩ := recordTimeout_bounded hbound hdeviation
      exact ⟨_, rfl, ih hrest hroom' havg' hdeviation'⟩

/-- From the start nothing overflows, however long it goes on, as long as timeouts are made up
for. -/
theorem default_safe_of_madeUp {bound : ℕ} (hbound : 30000000 ≤ bound) {calls : List Call}
    (h : MadeUp bound calls) : default.Safe calls := by
  refine safe_of_owed hbound h.samples h.room ?_ ?_
  · show 1000000 ≤ bound
    omega
  · show 500000 ≤ bound * 8
    omega

/-- Syncs of up to a minute, with timeouts in between. -/
theorem minutes_safe : default.Safe
    [.success ⟨5, 0⟩, .timeout, .timeout, .success ⟨60, 0⟩, .success ⟨40, 0⟩, .timeout] := by
  refine default_safe_of_madeUp (show 30000000 ≤ 60000000 by omega) ⟨fun d hd => ?_, ?_⟩
  · simp only [List.mem_cons, Call.success.injEq, List.not_mem_nil, or_false, reduceCtorEq,
      false_or] at hd
    obtain rfl | rfl | rfl := hd <;> decide
  · intro before hbefore
    rw [← List.mem_inits] at hbefore
    revert before
    decide

/-- As long as no sample is above a bound, the deviation leaves it by timeouts only, which there
may be as many of as the bound can be doubled. -/
theorem safe_of_bounded {bound : ℕ} (hbound : 30000000 ≤ bound) {calls : List Call}
    (hsamples : ∀ d, .success d ∈ calls → sample d ≤ bound) {t : FsyncLatencyTracker} {limit : ℕ}
    (havg : t.avgUs.val ≤ bound) (hdeviation : t.deviationUs.val ≤ limit) (hlimit : bound ≤ limit)
    (hroom : limit * 2 ^ calls.count .timeout * 16 ≤ 2 ^ 64) : t.Safe calls := by
  have hdoubled (n : ℕ) : limit ≤ limit * 2 ^ n := Nat.le_mul_of_pos_right _ (Nat.two_pow_pos n)
  induction calls generalizing t limit with
  | nil =>
    have hnow := hdoubled (List.count Call.timeout [])
    exact t.safe_nil.mpr (by omega)
  | cons c calls ih =>
    have hnow := hdoubled (List.count Call.timeout (c :: calls))
    have hrest : ∀ d, .success d ∈ calls → sample d ≤ bound :=
      fun d hd => hsamples d (List.mem_cons_of_mem c hd)
    rw [safe_cons]
    refine ⟨t.safe_nil.mpr (by omega), ?_⟩
    cases c with
    | success d =>
      obtain ⟨t', hrecord, havg', hdeviation'⟩ :=
        recordSuccess_bounded (hsamples d (List.mem_cons_self ..)) havg hdeviation (by omega)
          (by omega)
      rw [List.count_cons_of_ne (by simp)] at hroom
      exact ⟨t', hrecord, ih hrest havg' (le_trans hdeviation' (by omega)) hlimit hroom hdoubled⟩
    | timeout =>
      rw [List.count_cons_self, Nat.pow_succ 2, Nat.mul_comm _ 2, ← Nat.mul_assoc] at hroom
      obtain ⟨havg', hdeviation'⟩ := recordTimeout_bounded hbound hdeviation
      exact ⟨_, rfl, ih hrest havg' hdeviation' (by omega) hroom
        fun n => Nat.le_mul_of_pos_right _ (Nat.two_pow_pos n)⟩

/-- A call of five seconds, and one that times out. -/
theorem fiveSeconds_safe : default.Safe [.success ⟨5, 0⟩, .timeout] := by
  refine safe_of_bounded (le_refl 30000000) (fun d hd => ?_) (by decide) (by decide)
    (le_refl 30000000) (by decide)
  simp at hd
  subst hd
  decide

/-! ## Timeouts in a row -/

/-- A product that is cut off, and then doubled further, is the whole product cut off. -/
theorem min_mul_min (a b limit : ℕ) {k : ℕ} (hk : 0 < k) :
    min (min (a * b) limit * k) limit = min (a * (k * b)) limit := by
  have hle : limit ≤ limit * k := Nat.le_mul_of_pos_right _ hk
  rw [← Nat.mul_min_mul_right, Nat.mul_assoc, Nat.mul_comm b, min_assoc, min_eq_right hle]

theorem deviationUs_timeouts (n : ℕ) {t t' : FsyncLatencyTracker}
    (h : t.recordAll (List.replicate n .timeout) = some t') :
    t'.deviationUs.val = min (t.deviationUs.val * 2 ^ n) (2 ^ 64 - 1) := by
  induction n generalizing t with
  | zero =>
    obtain rfl := Option.some.inj h
    omega
  | succ n ih =>
    rw [List.replicate_succ, recordAll_cons, record, Option.bind_some] at h
    rw [ih h, Nat.pow_succ 2 n]
    exact min_mul_min _ _ _ (Nat.two_pow_pos n)

/-- After 44 timeouts four times the deviation have more than 64 bits. -/
theorem timeouts_overflow : ¬∀ calls, default.Safe calls := by
  intro hall
  obtain ⟨t', timeout, hrecord, htimeout, hbounds⟩ :=
    hall (List.replicate 44 .timeout) _ (List.prefix_refl _)
  have hdeviation := deviationUs_timeouts 44 hrecord
  have hroom := t'.getTimeout_iff.mp ⟨timeout, htimeout, hbounds⟩
  have hstart : default.deviationUs.val = 500000 := rfl
  omega

end FsyncLatencyTracker
end Foxing.FsyncLatency
