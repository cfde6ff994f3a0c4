import Mathlib.Order.Lattice
import Foxing.Lib.Recent
import Foxing.Lib.Run

/-!
# Filters over a window of time

What the tuner of a worker goes by: the greatest bandwidth and the most operations of the last
seconds, and the shortest round trip. A filter keeps its samples with their times in a queue. What
is too old leaves at the front when a sample comes or the queue is pruned, and the queue holds at
most a thousand samples. Times are instants of a clock that does not go back, in nanoseconds.
-/
namespace Foxing

inductive FilterMode
  | min
  | max
  deriving DecidableEq

/-- Samples with their times, the oldest first. -/
structure WindowedFilter (τ : Type*) where
  windowDuration : ℕ
  samples : List (ℕ × τ)
  mode : FilterMode

namespace WindowedFilter
variable {τ : Type*}

def maxSamples : ℕ := 1000

def new (windowSecs : ℕ) (mode : FilterMode) : WindowedFilter τ :=
  ⟨windowSecs * 1000000000, [], mode⟩

def better [LinearOrder τ] (mode : FilterMode) (v best : τ) : Bool :=
  match mode with
  | .min => decide (v < best)
  | .max => decide (best < v)

/-- The age of a sample is at most the window; a later one has age zero. -/
def fresh (windowDuration now : ℕ) (s : ℕ × τ) : Bool := !decide (windowDuration < now - s.1)

/-- The samples at the front that are older than the window go. -/
def prune (f : WindowedFilter τ) (now : ℕ) : WindowedFilter τ :=
  { f with samples := f.samples.dropWhile fun s => decide (f.windowDuration < now - s.1) }

/-- A sample takes the place of the best one so far only if it is better. -/
def getBest [LinearOrder τ] (f : WindowedFilter τ) : Option τ :=
  match f.samples with
  | [] => none
  | s :: _ => some ((f.samples.map Prod.snd).foldl (Recent.choose (better f.mode)) s.2)

def reset (f : WindowedFilter τ) : WindowedFilter τ := { f with samples := [] }

/-- The new sample comes last, and at most a thousand stay. -/
def update [LinearOrder τ] (f : WindowedFilter τ) (v : τ) (now : ℕ) : τ × WindowedFilter τ :=
  let pruned := f.prune now
  let f' := { pruned with
    samples := Recent.makeRoom maxSamples pruned.samples ++ [(now, v)] }
  (f'.getBest.getD v, f')

/-- What the tuner does with a filter. -/
inductive Action (τ : Type*)
  | update (v : τ) (now : ℕ)
  | prune (now : ℕ)
  | reset

def Action.time? : Action τ → Option ℕ
  | .update _ now => some now
  | .prune now => some now
  | .reset => none

def step [LinearOrder τ] (f : WindowedFilter τ) : Action τ → WindowedFilter τ
  | .update v now => (f.update v now).2
  | .prune now => f.prune now
  | .reset => f.reset

/-! ## What a filter has been given -/

/-- The samples since the last reset. -/
def offer (history : List (ℕ × τ)) : Action τ → List (ℕ × τ)
  | .update v now => history ++ [(now, v)]
  | .prune _ => history
  | .reset => []

def offered (as : List (Action τ)) : List (ℕ × τ) := Run.exec offer [] as

/-- The clock does not go back. -/
def Timely (as : List (Action τ)) : Prop := (as.filterMap Action.time?).Pairwise (· ≤ ·)

instance (as : List (Action τ)) : Decidable (Timely as) :=
  inferInstanceAs (Decidable (List.Pairwise _ _))

/-- The value is one of them, and none of them is better. -/
def Best [LinearOrder τ] (mode : FilterMode) (v : τ) (l : List τ) : Prop :=
  v ∈ l ∧ ∀ w ∈ l, match mode with
    | .min => v ≤ w
    | .max => w ≤ v

/-- The value is the best, or there is none. -/
def IsBest [LinearOrder τ] (mode : FilterMode) : Option τ → List τ → Prop
  | none, l => l = []
  | some v, l => Best mode v l

/-- The samples that count: of the last thousand since the last reset those in the window. -/
def counted (windowSecs now : ℕ) (as : List (Action τ)) : List (ℕ × τ) :=
  Recent.recent (fresh (windowSecs * 1000000000) now) maxSamples (offered as)

variable {f : WindowedFilter τ} {as : List (Action τ)} {windowSecs : ℕ} {mode : FilterMode}
  {v : τ} {now : ℕ}

theorem offered_concat (a : Action τ) : offered (as ++ [a]) = offer (offered as) a :=
  Run.exec_concat offer [] as a

theorem Timely.of_concat {a : Action τ} (h : Timely (as ++ [a])) : Timely as := by
  rw [Timely, List.filterMap_append] at h
  exact (List.pairwise_append.mp h).1

/-- An action comes after those before it. -/
theorem Timely.before {a : Action τ} (h : Timely (as ++ [a])) (ha : a.time? = some now) :
    ∀ t ∈ as.filterMap Action.time?, t ≤ now := by
  rw [Timely, List.filterMap_append] at h
  exact fun t ht => (List.pairwise_append.mp h).2.2 t ht now (by simp [ha])

/-- What has been offered is in the order of time, and before the time of the next action. -/
theorem Timely.offered (h : Timely as) : (offered as).Pairwise (fun s t => s.1 ≤ t.1) ∧
    ∀ s ∈ offered as, ∃ t ∈ as.filterMap Action.time?, s.1 = t := by
  induction as using List.reverseRecOn with
  | nil => exact ⟨List.Pairwise.nil, fun s hs => absurd hs List.not_mem_nil⟩
  | append_singleton as a ih =>
    obtain ⟨hsorted, htimes⟩ := ih h.of_concat
    have hkept : ∀ s ∈ WindowedFilter.offered as,
        ∃ t ∈ (as ++ [a]).filterMap Action.time?, s.1 = t := by
      intro s hs
      obtain ⟨t, ht, heq⟩ := htimes s hs
      exact ⟨t, by rw [List.filterMap_append]; exact List.mem_append_left _ ht, heq⟩
    rw [offered_concat]
    cases a with
    | reset => exact ⟨List.Pairwise.nil, fun s hs => absurd hs List.not_mem_nil⟩
    | prune now => exact ⟨hsorted, hkept⟩
    | update v now =>
      refine ⟨List.pairwise_append.mpr ⟨hsorted, List.pairwise_singleton .., fun s hs t ht => ?_⟩,
        fun s hs => ?_⟩
      · obtain ⟨t', ht', heq⟩ := htimes s hs
        rw [List.mem_singleton.mp ht, heq]
        exact h.before rfl t' ht'
      · rcases List.mem_append.mp hs with hs | hs
        · exact hkept s hs
        · rw [List.mem_singleton.mp hs]
          exact ⟨now, by simp [Action.time?], rfl⟩

theorem upward_fresh {d : ℕ} {l : List (ℕ × τ)} (h : l.Pairwise fun s t => s.1 ≤ t.1) :
    Recent.Upward (fresh d now) l := by
  refine h.imp fun {s t} hle hs => ?_
  simp only [fresh, Bool.not_eq_true', decide_eq_false_iff_not] at hs ⊢
  omega

/-- What is in the window now was in it before. -/
theorem fresh_mono {d before : ℕ} (hle : before ≤ now) (s : ℕ × τ)
    (hs : fresh d now s = true) : fresh d before s = true := by
  simp only [fresh, Bool.not_eq_true', decide_eq_false_iff_not] at hs ⊢
  omega

theorem samples_prune (h : f.samples.Pairwise fun s t => s.1 ≤ t.1) :
    (f.prune now).samples = f.samples.filter (fresh f.windowDuration now) := by
  rw [← Recent.dropWhile_eq_filter (upward_fresh h)]
  simp [prune, fresh]

/-- What the run leaves of the settings of the filter, and in its queue. -/
structure Holds (windowSecs : ℕ) (mode : FilterMode) (as : List (Action τ))
    (f : WindowedFilter τ) : Prop where
  window : f.windowDuration = windowSecs * 1000000000
  mode : f.mode = mode
  /-- At the time of the last action, and so at every later one. -/
  samples : ∀ now, (∀ t ∈ as.filterMap Action.time?, t ≤ now) →
    f.samples.filter (fresh (windowSecs * 1000000000) now) = counted windowSecs now as
  sublist : f.samples.Sublist (offered as)

/-- A filter that is pruned holds the samples that count. -/
theorem Holds.prune (h : Holds windowSecs mode as f) (has : Timely as)
    (hnow : ∀ t ∈ as.filterMap Action.time?, t ≤ now) :
    (f.prune now).samples = counted windowSecs now as := by
  rw [samples_prune (has.offered.1.sublist h.sublist), h.window]
  exact h.samples now hnow

section
variable [LinearOrder τ]

theorem Holds.update (h : Holds windowSecs mode as f) (has : Timely (as ++ [.update v now])) :
    (f.update v now).2.samples = counted windowSecs now (as ++ [.update v now]) := by
  have hfresh : fresh (windowSecs * 1000000000) now (now, v) = true := by simp [fresh]
  rw [counted, offered_concat, offer, Recent.recent_concat (upward_fresh has.of_concat.offered.1)
    (by decide) hfresh]
  show Recent.makeRoom maxSamples (f.prune now).samples ++ [(now, v)] = _
  rw [h.prune has.of_concat (has.before rfl), counted]

/-- Every run keeps in the queue, of what has been offered, all that can still count. -/
theorem holds_run (has : Timely as) :
    Holds windowSecs mode as (Run.exec step (new windowSecs mode) as) := by
  induction as using List.reverseRecOn with
  | nil => exact ⟨rfl, rfl, fun _ _ => by simp [counted, offered, new, Recent.recent],
      List.Sublist.refl _⟩
  | append_singleton as a ih =>
    have h := ih has.of_concat
    rw [Run.exec_concat]
    generalize Run.exec step (new windowSecs mode) as = f at h
    cases a with
    | reset => exact ⟨h.window, h.mode, fun _ _ => by simp [step, reset, counted, offered_concat,
        offer, Recent.recent], by simp [step, reset]⟩
    | prune now =>
      refine ⟨h.window, h.mode, fun later hlater => ?_, ?_⟩
      · have hle : now ≤ later := hlater now (by simp [Action.time?])
        rw [step, h.prune has.of_concat (has.before rfl), counted, counted,
          Recent.recent_recent (fresh_mono hle), offered_concat, offer]
      · rw [offered_concat]
        exact (List.dropWhile_sublist _).trans h.sublist
    | update v now =>
      have hsamples := h.update has
      refine ⟨h.window, h.mode, fun later hlater => ?_, ?_⟩
      · have hle : now ≤ later := hlater now (by simp [Action.time?])
        rw [step, hsamples, counted, counted, Recent.recent_recent (fresh_mono hle)]
      · rw [step, hsamples]
        exact List.filter_sublist.trans (List.drop_sublist _ _)

theorem isBest_getBest (f : WindowedFilter τ) :
    IsBest f.mode f.getBest (f.samples.map Prod.snd) := by
  have hasymm : ∀ a b : τ, better f.mode a b = true → better f.mode b a = false := by
    intro a b hab
    cases hm : f.mode <;> simp only [hm, better, decide_eq_true_eq, decide_eq_false_iff_not,
      not_lt] at hab ⊢ <;> exact hab.le
  have htrans : ∀ a b c : τ, better f.mode a b = false → better f.mode b c = false →
      better f.mode a c = false := by
    intro a b c hab hbc
    cases hm : f.mode <;> simp only [hm, better, decide_eq_false_iff_not, not_lt] at hab hbc ⊢
    · exact hbc.trans hab
    · exact hab.trans hbc
  unfold getBest
  cases hs : f.samples with
  | nil => rfl
  | cons s l =>
    obtain ⟨hmem, hbest⟩ := Recent.foldl_choose hasymm htrans s.2 ((s :: l).map Prod.snd)
    refine ⟨?_, fun w hw => ?_⟩
    · rcases List.mem_cons.mp hmem with heq | hmem
      · rw [heq]
        exact List.mem_cons_self
      · exact hmem
    · have hnot := hbest w (List.mem_cons_of_mem _ hw)
      cases hm : f.mode <;> simp only [hm, better, decide_eq_false_iff_not, not_lt] at hnot ⊢ <;>
        exact hnot

/-- In every run of a filter, whatever it is given and however it is pruned and reset, what it
gives after an update or a pruning is the best of the samples that count, if there are any. -/
theorem isBest_run {a : Action τ} (has : Timely (as ++ [a])) (ha : a.time? = some now) :
    IsBest mode (Run.exec step (new windowSecs mode) (as ++ [a])).getBest
      ((counted windowSecs now (as ++ [a])).map Prod.snd) := by
  have h : Holds windowSecs mode as (Run.exec step (new windowSecs mode) as) :=
    holds_run has.of_concat
  rw [Run.exec_concat]
  generalize Run.exec step (new windowSecs mode) as = f at h
  have hsamples : (step f a).samples = counted windowSecs now (as ++ [a]) ∧
      (step f a).mode = mode := by
    cases a with
    | reset => cases ha
    | prune now' =>
      obtain rfl : now' = now := Option.some.inj ha
      refine ⟨?_, h.mode⟩
      rw [step, h.prune has.of_concat (has.before ha), counted, counted, offered_concat, offer]
    | update v now' =>
      obtain rfl : now' = now := Option.some.inj ha
      exact ⟨h.update has, h.mode⟩
  rw [← hsamples.1, ← hsamples.2]
  exact isBest_getBest (step f a)

/-- A greater value that has left the window, and two that have not. -/
theorem isBest_forgets : IsBest .max
    (Run.exec step (new 1 .max) [.update 9 0, .update 3 600000000, .update 2 1500000000]).getBest
    [3, 2] := by
  have htimely : Timely ([.update 9 0, .update 3 600000000] ++
      [(.update 2 1500000000 : Action ℕ)]) := by decide
  exact isBest_run htimely rfl

end

end WindowedFilter

end Foxing
