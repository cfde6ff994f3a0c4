import Foxing.ReorderBuffer
import Foxing.Lib.Run
import Mathlib.Data.List.Induction

/-!
# Histories of the reorder buffer

A history is a buffer together with what its callers have seen of it: the
events whose push returned true, the events that pop returned, and the number
from which the buffer last started. The first half shows that the next expected
number only grows and that a consumer is told about every number it passes. The
second half determines when an accepted event is delivered exactly once.
-/
namespace Foxing.ReorderBuffer

structure History where
  buffer : ReorderBuffer
  accepted : List Event
  returned : List Event
  origin : U64

namespace History

def start (b : ReorderBuffer) : History := ⟨b, [], [], b.nextSeq⟩

def apply (h : History) : Op → History
  | .push e =>
    { buffer := (h.buffer.push e).2
      accepted := if (h.buffer.push e).1 then h.accepted ++ [e] else h.accepted
      returned := h.returned
      origin := if h.buffer.nextSeq = 0 ∧ h.buffer.isEmpty then e.seqNum else h.origin }
  | .pop now =>
    { h with
      buffer := (h.buffer.pop now).2
      returned := h.returned ++ (h.buffer.pop now).1.toList }

/-! ## Coverage of the passed numbers -/

/-- The number is that of a returned event or lies in a returned gap. -/
def Covered (returned : List Event) (n : U64) : Prop :=
  (∃ e ∈ returned, e.seqNum = n) ∨
    ∃ e ∈ returned, e.eventType = .sequenceGap ∧
      ∃ a c : ℕ, e.name = s!"GAP-{a}-{c}" ∧ a ≤ n.val ∧ n.val < c

/-- The largest number is the expected one and is about to be returned. -/
def AtLastNumber (b : ReorderBuffer) : Prop :=
  b.nextSeq = U64.max ∧ ∃ e c, b.candidate = some (e, c) ∧ e.seqNum = U64.max

/-- No push takes the wraparound branch. -/
def NoWrapPush (h : History) : Op → Prop
  | .push e => ¬h.buffer.isWrapped e
  | .pop _ => True

/-- Nor does a pop move the next expected number past the largest one. -/
def NoWraparound (h : History) : Op → Prop
  | .push e => ¬h.buffer.isWrapped e
  | .pop _ => ¬AtLastNumber h.buffer

theorem Covered.append {returned : List Event} {n : U64} (more : List Event)
    (h : Covered returned n) : Covered (returned ++ more) n := by
  rcases h with ⟨e, he, hn⟩ | ⟨e, he, hg⟩
  · exact .inl ⟨e, List.mem_append_left _ he, hn⟩
  · exact .inr ⟨e, List.mem_append_left _ he, hg⟩

/-- Every number between the origin and the next expected one is covered. -/
def AllCovered (h : History) : Prop :=
  ∀ n, h.origin ≤ n → n < h.buffer.nextSeq → Covered h.returned n

lemma val_succ_of_ne_max {n : U64} (h : n ≠ U64.max) : (n + 1).val = n.val + 1 := by
  have hlt : n.val < 2 ^ 64 - 1 := by
    have hne : n.val ≠ 2 ^ 64 - 1 := fun he => h (Fin.ext he)
    have := n.isLt
    omega
  rw [Fin.val_add]
  exact Nat.mod_eq_of_lt (by simp; omega)

lemma PushStep.nextSeq {p c : ReorderBuffer} {e : Event} {r : Bool} (hs : PushStep p e r c) :
    c.nextSeq = p.nextSeq := by
  cases hs <;> rfl

/-- A push either keeps the next number or starts an unused buffer. -/
lemma push_nextSeq {b : ReorderBuffer} {e : Event} (hw : ¬b.isWrapped e) :
    (b.nextSeq = 0 ∧ b.held = [] ∧ (b.push e).2.nextSeq = e.seqNum) ∨
      (¬(b.nextSeq = 0 ∧ b.held = []) ∧ (b.push e).2.nextSeq = b.nextSeq) := by
  rw [PushStep.nextSeq (b.push_spec e)]
  have hs := b.prepare_spec e
  generalize b.prepare e = p at hs ⊢
  cases hs with
  | first hseq hempty => exact .inl ⟨hseq, hempty, rfl⟩
  | wrap hwrap => exact absurd hwrap hw
  | keep hinit hwrap => exact .inr ⟨hinit, rfl⟩

/-- An event returned in sequence covers the number that the buffer passes. -/
lemma advance_covers {b : ReorderBuffer} {e : Event} (hw : ¬(b.nextSeq = U64.max ∧ e.seqNum = U64.max)) :
    b.nextSeq ≤ (b.advance e).nextSeq ∧
      ∀ n, b.nextSeq ≤ n → n < (b.advance e).nextSeq → Covered [e] n := by
  rw [advance_nextSeq]
  split_ifs with heq
  · have hne : b.nextSeq ≠ U64.max := fun h => hw ⟨h, heq.trans h⟩
    have hval := val_succ_of_ne_max hne
    refine ⟨by rw [Fin.le_def]; omega, fun n hle hlt => .inl ⟨e, by simp, ?_⟩⟩
    rw [Fin.le_def] at hle
    rw [Fin.lt_def] at hlt
    rw [heq]
    exact Fin.ext (by omega)
  · exact ⟨le_rfl, fun n hle hlt => absurd hlt (not_lt.mpr hle)⟩

/-- A pop returns what covers the numbers that it passes. -/
lemma PopStep.covers {b c : ReorderBuffer} {r : Option Event} (hs : PopStep b r c)
    (hw : ¬AtLastNumber b) :
    b.nextSeq ≤ c.nextSeq ∧ ∀ n, b.nextSeq ≤ n → n < c.nextSeq → Covered r.toList n := by
  cases hs with
  | idle hempty | wait e c t hc hlt => exact ⟨le_rfl, fun n hle hlt => absurd hlt (not_lt.mpr hle)⟩
  | gap e c t hc hlt =>
    refine ⟨le_of_lt hlt, fun n hle hn => .inr ⟨_, List.mem_singleton_self _, rfl, ?_⟩⟩
    exact ⟨b.nextSeq.val, e.seqNum.val, rfl, hle, hn⟩
  | structural e hc hle =>
    have hlast : ¬(b.dropStructural.nextSeq = U64.max ∧ e.seqNum = U64.max) :=
      fun h => hw ⟨h.1, e, true, hc, h.2⟩
    exact advance_covers hlast
  | ingress e hc hle =>
    have hlast : ¬((b.dropIngress e).nextSeq = U64.max ∧ e.seqNum = U64.max) :=
      fun h => hw ⟨h.1, e, false, hc, h.2⟩
    exact advance_covers hlast

theorem apply_nextSeq_le {h : History} {op : Op} (hw : h.NoWraparound op) :
    h.buffer.nextSeq ≤ (h.apply op).buffer.nextSeq := by
  cases op with
  | push e =>
    rcases push_nextSeq hw with ⟨hzero, -, -⟩ | ⟨-, hkeep⟩
    · rw [hzero]
      exact Fin.zero_le _
    · exact le_of_eq hkeep.symm
  | pop now => exact (PopStep.covers (h.buffer.pop_spec now) hw).1

theorem apply_allCovered {h : History} {op : Op} (hw : h.NoWraparound op) (hc : h.AllCovered) :
    (h.apply op).AllCovered := by
  intro n hle hlt
  cases op with
  | push e =>
    simp only [apply, isEmpty_iff] at hle hlt ⊢
    rcases push_nextSeq hw with ⟨hzero, hempty, hnext⟩ | ⟨hno, hkeep⟩
    · -- a buffer that starts has passed nothing yet
      rw [if_pos ⟨hzero, hempty⟩] at hle
      rw [hnext] at hlt
      exact absurd hlt (not_lt.mpr hle)
    · rw [if_neg hno] at hle
      rw [hkeep] at hlt
      exact hc n hle hlt
  | pop now =>
    obtain ⟨-, hpop⟩ := PopStep.covers (h.buffer.pop_spec now) hw
    by_cases hold : n < h.buffer.nextSeq
    · exact (hc n hle hold).append _
    · rcases hpop n (not_lt.mp hold) hlt with ⟨e, he, hn⟩ | ⟨e, he, hg⟩
      · exact .inl ⟨e, List.mem_append_right _ he, hn⟩
      · exact .inr ⟨e, List.mem_append_right _ he, hg⟩

/-- Along a run without wraparound the next expected number never decreases, and
every number that it has passed was returned or announced as missing. -/
theorem passed_numbers_covered (latency maxBytes : U64) (ops : List Op)
    (hw : Run.Along apply NoWraparound (start (new latency maxBytes)) ops) :
    (∀ p q, p <+: q → q <+: ops →
      (Run.exec apply (start (new latency maxBytes)) p).buffer.nextSeq ≤
        (Run.exec apply (start (new latency maxBytes)) q).buffer.nextSeq) ∧
      ∀ p, p <+: ops → (Run.exec apply (start (new latency maxBytes)) p).AllCovered := by
  constructor
  · rintro p q ⟨q', rfl⟩ ⟨r, rfl⟩
    rw [List.append_assoc, Run.along_append] at hw
    rw [Run.exec_append]
    exact Run.invariant apply (I := fun h => _ ≤ h.buffer.nextSeq)
      (fun h op hop hle => hle.trans (apply_nextSeq_le hop))
      ((Run.along_append ..).mp hw.2).1 le_rfl
  · rintro p ⟨r, rfl⟩
    refine Run.invariant apply (fun h op => apply_allCovered) ((Run.along_append ..).mp hw).1 ?_
    intro n hle hlt
    exact absurd hlt (not_lt.mpr hle)

/-- The last number of the 64-bit range, popped in sequence. -/
def lastNumberRun : List Op :=
  [.push { Event.zero with eventType := .write, seqNum := U64.max }, .pop 0]

/-- No push of this run takes the wraparound branch, yet the pop of the largest
number brings the next expected one back to zero. -/
theorem lastNumberRun_decreases :
    Run.Along apply NoWrapPush (start (new 50 1000)) lastNumberRun ∧
      ¬(Run.exec apply (start (new 50 1000)) (lastNumberRun.take 1)).buffer.nextSeq ≤
        (Run.exec apply (start (new 50 1000)) lastNumberRun).buffer.nextSeq := by
  refine ⟨⟨?_, trivial, trivial⟩, by decide⟩
  change ¬isWrapped _ _
  decide

/-- A run in which a lost number is announced. -/
def gapRun : List Op :=
  [.push { Event.zero with eventType := .write, seqNum := 5 }, .pop 0,
    .push { Event.zero with eventType := .write, seqNum := 7 }, .pop 0, .pop 600000000, .pop 0]

/-- Its four pops deliver 5, announce the numbers `[6, 7)` and deliver 7. -/
theorem gapRun_covered :
    (Run.exec apply (start (new 50 1000)) gapRun).buffer.nextSeq = 8 ∧
      (Run.exec apply (start (new 50 1000)) gapRun).AllCovered := by
  refine ⟨by decide, (passed_numbers_covered 50 1000 gapRun ?_).2 _ (List.prefix_refl _)⟩
  refine ⟨?_, fun h => absurd h.1 (by decide), ?_, fun h => absurd h.1 (by decide),
    fun h => absurd h.1 (by decide), fun h => absurd h.1 (by decide), trivial⟩
  all_goals
    change ¬isWrapped _ _
    decide

end History

/-! ## Delivery of the accepted events -/

/-- A gap event made by the buffer itself. -/
def isOwnGap (e : Event) : Bool :=
  e.eventType = .sequenceGap && (e.processName = "OVERFLOW_GAP" || e.processName = "GAP")

/-- The events that come from outside the buffer. -/
def genuine (es : List Event) : List Event := es.filter (fun e => !isOwnGap e)

@[simp] lemma genuine_nil : genuine [] = [] := rfl

@[simp] lemma genuine_append (es fs : List Event) :
    genuine (es ++ fs) = genuine es ++ genuine fs := List.filter_append ..

lemma genuine_perm {es fs : List Event} (h : es.Perm fs) : (genuine es).Perm (genuine fs) :=
  h.filter _

lemma genuine_cons_own {e : Event} (h : isOwnGap e = true) (es : List Event) :
    genuine (e :: es) = genuine es := by
  simp [genuine, h]

lemma genuine_cons {e : Event} (h : isOwnGap e = false) (es : List Event) :
    genuine (e :: es) = e :: genuine es := by
  simp [genuine, h]

lemma genuine_eq_nil_iff (es : List Event) :
    genuine es = [] ↔ ∀ e ∈ es, isOwnGap e = true := by
  simp [genuine]

/-- The call discards no accepted event: a wraparound finds only gaps, an
overflow gap replaces only a gap, and an accepted event finds its slot free. -/
def KeepsAccepted (b : ReorderBuffer) : Op → Prop
  | .push e =>
    (b.isWrapped e → ∀ w ∈ b.held, isOwnGap w = true) ∧
    (b.injects e → ∀ w, (b.prepare e).buffer.get (b.prepare e).nextSeq = some w →
      isOwnGap w = true) ∧
    (¬(b.prepare e).rejects e → e.eventType.requiresGlobalOrdering = false →
      (b.prepare e).buffer.contains e.seqNum = false)
  | .pop _ => True

/-- What preparing the buffer discards. -/
lemma prepare_discards (b : ReorderBuffer) (e : Event) :
    ∃ lost, (genuine (b.prepare e).held ++ lost).Perm (genuine b.held) ∧
      (lost = [] ↔ (b.isWrapped e → ∀ w ∈ b.held, isOwnGap w = true)) := by
  have hs := b.prepare_spec e
  generalize b.prepare e = p at hs ⊢
  cases hs with
  | first hseq hempty =>
    refine ⟨[], by simp [held], ?_⟩
    simp [hempty]
  | wrap hwrap =>
    refine ⟨genuine b.held, by simp [held, reset], ?_⟩
    simp [hwrap, genuine_eq_nil_iff]
  | keep hinit hwrap =>
    refine ⟨[], by simp, ?_⟩
    simp [hwrap]

lemma genuine_held_count (b : ReorderBuffer) (a : Event) :
    (genuine b.held).count a =
      (genuine b.buffer.values).count a + (genuine b.structuralQueue).count a := by
  simp [held]

/-- A gap enters the map in the place of what was there. -/
lemma inject_discards (p : ReorderBuffer) (d : U32) (n : U64) :
    (genuine (p.injectGap d n).held ++ genuine (p.buffer.get p.nextSeq).toList).Perm
      (genuine p.held) := by
  let g := gapEvent d p.nextSeq n "OVERFLOW_GAP"
  have hgap : isOwnGap g = true := by simp [g, isOwnGap, gapEvent]
  have hins : (genuine (p.buffer.insert g).values).Perm
      (genuine (p.buffer.erase p.nextSeq).values) := by
    have h := genuine_perm (p.buffer.values_insert_perm g)
    rwa [genuine_cons_own hgap] at h
  have hold : (genuine p.buffer.values).Perm
      (genuine (p.buffer.get p.nextSeq).toList ++ genuine (p.buffer.erase p.nextSeq).values) := by
    cases hget : p.buffer.get p.nextSeq with
    | none => simp [p.buffer.erase_of_get_none hget]
    | some w =>
      have h := genuine_perm (p.buffer.values_erase_perm hget)
      rwa [← List.singleton_append, genuine_append] at h
  rw [List.perm_iff_count]
  intro a
  have hi := hins.count_eq a
  have ho := hold.count_eq a
  have hbuf : (p.injectGap d n).buffer.values = (p.buffer.insert g).values := rfl
  have hq : (p.injectGap d n).structuralQueue = p.structuralQueue := rfl
  rw [List.count_append] at ho ⊢
  rw [genuine_held_count, genuine_held_count, hbuf, hq]
  omega

/-- What the second half of a push discards, the pushed event included. -/
lemma PushStep.discards {p c : ReorderBuffer} {e : Event} {r : Bool} (hs : PushStep p e r c)
    (he : isOwnGap e = false) :
    ∃ lost, (genuine c.held ++ lost).Perm (genuine p.held ++ if r then [e] else []) ∧
      (lost = [] ↔
        (p.rejects e ∧ p.nextSeq ≠ 0 ∧ p.nextSeq < e.seqNum →
          ∀ w, p.buffer.get p.nextSeq = some w → isOwnGap w = true) ∧
        (¬p.rejects e → e.eventType.requiresGlobalOrdering = false →
          p.buffer.contains e.seqNum = false)) := by
  cases hs with
  | inject hrej hseq hlt =>
    refine ⟨_, by simpa using inject_discards p e.devId e.seqNum, ?_⟩
    simp [hrej, hseq, hlt, genuine_eq_nil_iff]
  | reject hrej hno =>
    refine ⟨[], by simp, ?_⟩
    simp only [true_iff]
    exact ⟨fun h => absurd h.2 hno, fun h => absurd hrej h⟩
  | structural hrej hord =>
    refine ⟨[], ?_, by simp [hrej, hord]⟩
    simp [held, enqueue, genuine_cons he]
  | duplicate hrej hord hdup =>
    refine ⟨[e], by simp, ?_⟩
    simp [hrej, hord, hdup]
  | ingress hrej hord hnew =>
    refine ⟨[], ?_, by simp [hrej, hord, KeyedMap.contains, hnew]⟩
    have hins := genuine_perm (p.buffer.values_insert_perm_of_get_none hnew)
    rw [List.perm_iff_count]
    intro a
    have hi := hins.count_eq a
    have hbuf : (p.hold e).buffer.values = (p.buffer.insert e).values := rfl
    have hq : (p.hold e).structuralQueue = p.structuralQueue := rfl
    rw [genuine_cons he, ← List.singleton_append, List.count_append] at hi
    rw [List.append_nil, List.count_append, genuine_held_count, genuine_held_count, hbuf, hq]
    simp only [if_true]
    omega

/-- A pop hands over what leaves the buffer. -/
lemma PopStep.hands_over {b c : ReorderBuffer} {r : Option Event} (hs : PopStep b r c) :
    (genuine r.toList ++ genuine c.held).Perm (genuine b.held) := by
  cases hs with
  | idle hempty => simp
  | wait e c t hc hlt => simp [held]
  | gap e c t hc hlt =>
    have hgap : isOwnGap (gapEvent e.devId b.nextSeq e.seqNum "GAP") = true := by
      simp [isOwnGap, gapEvent]
    simp [genuine_cons_own hgap, held]
  | structural e hc hle =>
    rw [advance_held, ← genuine_append]
    exact genuine_perm (dropStructural_held hc).symm
  | ingress e hc hle =>
    rw [advance_held, ← genuine_append]
    exact genuine_perm (dropIngress_held hc).symm

namespace History

/-- Accepted events have been returned, are held, or are lost. -/
def Balanced (h : History) (lost : List Event) : Prop :=
  (genuine h.returned ++ genuine h.buffer.held ++ lost).Perm h.accepted

theorem apply_balanced {h : History} {lost : List Event} (op : Op) (hb : h.Balanced lost)
    (hop : ∀ e, op = .push e → isOwnGap e = false) :
    ∃ more, (h.apply op).Balanced (lost ++ more) ∧ (more = [] ↔ h.buffer.KeepsAccepted op) := by
  cases op with
  | push e =>
    obtain ⟨l₁, hp₁, hk₁⟩ := h.buffer.prepare_discards e
    obtain ⟨l₂, hp₂, hk₂⟩ := (h.buffer.push_spec e).discards (hop e rfl)
    refine ⟨l₁ ++ l₂, ?_, ?_⟩
    · simp only [Balanced, List.perm_iff_count, List.count_append] at hb hp₁ hp₂ ⊢
      intro a
      have h₀ := hb a
      have h₁ := hp₁ a
      have h₂ := hp₂ a
      simp only [apply]
      split_ifs at h₂ ⊢ with hr
      · simp only [List.count_append]
        omega
      · simp only [List.count_nil] at h₂
        omega
    · rw [List.append_eq_nil_iff, hk₁, hk₂]
      rfl
  | pop now =>
    refine ⟨[], ?_, by simp [KeepsAccepted]⟩
    have hp := (h.buffer.pop_spec now).hands_over
    simp only [Balanced, List.perm_iff_count, List.count_append] at hb hp ⊢
    intro a
    have h₀ := hb a
    have h₁ := hp a
    simp only [apply, genuine_append, List.count_append, List.count_nil]
    omega

/-- Along a run, nothing is lost exactly as long as every call keeps what was
accepted. -/
theorem exec_balanced (latency maxBytes : U64) (ops : List Op)
    (hown : ∀ e ∈ pushes ops, isOwnGap e = false) :
    ∃ lost, (Run.exec apply (start (new latency maxBytes)) ops).Balanced lost ∧
      (lost = [] ↔ Run.Along apply (fun h => h.buffer.KeepsAccepted)
        (start (new latency maxBytes)) ops) := by
  induction ops using List.reverseRecOn with
  | nil => exact ⟨[], List.Perm.refl _, by simp [Run.Along]⟩
  | append_singleton ops op ih =>
    simp only [pushes, List.filterMap_append, List.mem_append] at hown
    obtain ⟨lost, hb, hk⟩ := ih (fun e he => hown e (.inl he))
    obtain ⟨more, hb', hk'⟩ := apply_balanced op hb (by
      rintro e rfl
      exact hown e (.inr (by simp)))
    refine ⟨lost ++ more, by rwa [Run.exec_concat], ?_⟩
    rw [Run.along_concat, List.append_eq_nil_iff, hk, hk']

lemma exec_accepted_sublist (h : History) (ops : List Op) :
    ∃ es, (Run.exec apply h ops).accepted = h.accepted ++ es ∧ es.Sublist (pushes ops) := by
  induction ops generalizing h with
  | nil => exact ⟨[], by simp, List.nil_sublist _⟩
  | cons op ops ih =>
    obtain ⟨es, hes, hsub⟩ := ih (h.apply op)
    cases op with
    | push e =>
      rw [Run.exec_cons, hes]
      by_cases hr : (h.buffer.push e).1 = true
      · exact ⟨e :: es, by simp [apply, hr], hsub.cons_cons e⟩
      · exact ⟨es, by simp [apply, hr], hsub.cons e⟩
    | pop now => exact ⟨es, hes, hsub⟩

/-- No accepted event is returned twice. Once the buffer is drained, all of them
have been returned exactly when every call kept what was accepted. -/
theorem delivered_once_iff (latency maxBytes : U64) (ops : List Op)
    (hseq : ((pushes ops).map Event.seqNum).Nodup)
    (hown : ∀ e ∈ pushes ops, isOwnGap e = false) :
    (∀ e ∈ (Run.exec apply (start (new latency maxBytes)) ops).accepted,
      (Run.exec apply (start (new latency maxBytes)) ops).returned.count e ≤ 1) ∧
    ((Run.exec apply (start (new latency maxBytes)) ops).buffer.held = [] →
      ((∀ e ∈ (Run.exec apply (start (new latency maxBytes)) ops).accepted,
        (Run.exec apply (start (new latency maxBytes)) ops).returned.count e = 1) ↔
      Run.Along apply (fun h => h.buffer.KeepsAccepted) (start (new latency maxBytes)) ops)) := by
  obtain ⟨lost, hb, hk⟩ := exec_balanced latency maxBytes ops hown
  obtain ⟨es, hes, hsub⟩ := exec_accepted_sublist (start (new latency maxBytes)) ops
  rw [← hk]
  generalize Run.exec apply (start (new latency maxBytes)) ops = h at hb hes ⊢
  have hacc : h.accepted.Sublist (pushes ops) := by
    rw [hes]
    exact hsub
  have hnodup : h.accepted.Nodup := (List.Nodup.of_map _ hseq).sublist hacc
  have hcount : ∀ e ∈ h.accepted, h.returned.count e + (genuine h.buffer.held).count e +
      lost.count e = 1 := by
    intro e he
    have hgen : (genuine h.returned).count e = h.returned.count e :=
      List.count_filter (by simp [hown e (hacc.subset he)])
    rw [← hgen, ← List.count_append, ← List.count_append, hb.count_eq]
    exact List.count_eq_one_of_mem hnodup he
  refine ⟨fun e he => by have := hcount e he; omega, fun hdrained => ?_⟩
  rw [hdrained] at hcount
  constructor
  · intro hall
    refine List.eq_nil_iff_forall_not_mem.mpr (fun e hlost => ?_)
    have he : e ∈ h.accepted := hb.subset (List.mem_append_right _ hlost)
    have hpos := List.count_pos_iff.mpr hlost
    have h₁ := hcount e he
    have h₂ := hall e he
    omega
  · rintro rfl e he
    simpa using hcount e he

/-- Two writes of which the second does not fit beside the first. -/
def overwriteRun : List Op :=
  [.push { Event.zero with eventType := .write, seqNum := 5, name := "a" },
    .push { Event.zero with eventType := .write, seqNum := 7, name := "b" }, .pop 0, .pop 0]

/-- The overflow gap of the second push takes the slot of the first event, which
was accepted and is never returned although the buffer is drained. -/
theorem overwriteRun_loses :
    (Run.exec apply (start (new 50 400)) overwriteRun).buffer.held = [] ∧
      ¬∀ e ∈ (Run.exec apply (start (new 50 400)) overwriteRun).accepted,
        (Run.exec apply (start (new 50 400)) overwriteRun).returned.count e = 1 := by
  refine ⟨by decide, ?_⟩
  decide

/-- With room for both, the same events are delivered. -/
theorem roomyRun_delivers :
    (Run.exec apply (start (new 50 1000)) gapRun).buffer.held = [] ∧
      ∀ e ∈ (Run.exec apply (start (new 50 1000)) gapRun).accepted,
        (Run.exec apply (start (new 50 1000)) gapRun).returned.count e = 1 := by
  refine ⟨by decide, ?_⟩
  refine ((delivered_once_iff 50 1000 gapRun (by decide) (by decide)).2 (by decide)).mpr ?_
  refine ⟨⟨fun h => absurd h (by decide), fun h => absurd h (by decide), fun _ _ => by decide⟩,
    trivial, ⟨fun h => absurd h (by decide), fun h => absurd h (by decide), fun _ _ => by decide⟩,
    trivial, trivial, trivial, trivial⟩

end History

end Foxing.ReorderBuffer
