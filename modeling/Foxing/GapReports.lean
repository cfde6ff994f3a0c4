import Foxing.Ingress

/-!
# Exactness of the gap reports

The invariant of a device's lane has three parts. Every number that the device
drew belongs to exactly one event, which is on its way, lost or accepted. The
tracker bounds what the buffer knows. And as long as nothing is lost, the buffer
still has every accepted event that it did not return, and made no gap.
-/
namespace Foxing
open ReorderBuffer

namespace Lane

/-- The drawn numbers and the events that carry them. -/
structure Numbered (l : Lane) : Prop where
  nodup : (l.everywhere.map Event.seqNum).Nodup
  mem_iff : ∀ n, (∃ e ∈ l.everywhere, e.seqNum.val = n) ↔ l.first ≤ n ∧ n < l.first + l.count
  first_le : 0 < l.count → 1 ≤ l.first ∧ l.first ≤ 1000
  bound : l.first + l.count + 100000 < 2 ^ 64

/-- A buffer that has started at `first` and knows no number above `t`. -/
structure Ready (h : History) (t first : ℕ) : Prop where
  next_ne : h.buffer.nextSeq ≠ 0
  origin : h.origin.val = first
  first_le : first ≤ h.buffer.nextSeq.val
  first_known : first ≤ t
  next_le : h.buffer.nextSeq.val ≤ t + 1
  held_le : ∀ e ∈ h.buffer.held, e.seqNum.val ≤ t
  returned_lt : ∀ e ∈ h.returned, e.seqNum < h.buffer.nextSeq
  covered : h.AllCovered
  bound : t + 100001 < 2 ^ 64

/-- Everything in or from the buffer is a gap or was accepted. -/
def Sourced (h : History) (accepted : List Event) : Prop :=
  ∀ e, e ∈ h.buffer.held ∨ e ∈ h.returned → e.eventType = .sequenceGap ∨ e ∈ accepted

/-- A buffer that has seen nothing: the oldest record, if there is one, carries
the first number. -/
structure Unused (l : Lane) : Prop where
  held : l.history.buffer.held = []
  returned : l.history.returned = []
  tracker : l.tracker = 0
  accepted : l.accepted = []
  lost : l.ring = [] → l.lost = []
  head : ∀ e ∈ l.ring.head?, e.seqNum.val = l.first

structure Followed (l : Lane) : Prop where
  unused : l.history.buffer.nextSeq = 0 → l.Unused
  ready : l.history.buffer.nextSeq ≠ 0 →
    Ready l.history l.tracker.val l.first ∧ l.tracker.val < l.first + l.count
  source : Sourced l.history l.accepted

/-- What holds as long as nothing is lost. -/
structure Clean (l : Lane) : Prop where
  panic : l.panicGaps = []
  gaps : l.history.buffer.sequenceGaps = 0
  kept : ∀ e ∈ l.accepted, e ∈ l.history.buffer.held ∨ e ∈ l.history.returned
  genuine : ∀ e ∈ l.history.buffer.held, e ∈ l.accepted
  queue : l.history.buffer.structuralQueue.Pairwise (fun x y => x.seqNum < y.seqNum)
  ahead : ∀ x ∈ l.history.buffer.structuralQueue, ∀ y ∈ l.transit, isStructural y = true →
    x.seqNum < y.seqNum

structure Inv (l : Lane) : Prop where
  numbered : l.Numbered
  followed : l.Followed
  clean : l.lost = [] → l.Clean

/-! ## The buffer's part -/

lemma Ready.mono {h : History} {t t' first : ℕ} (hr : Ready h t first) (hle : t ≤ t')
    (hb : t' + 100001 < 2 ^ 64) : Ready h t' first :=
  ⟨hr.next_ne, hr.origin, hr.first_le, hr.first_known.trans hle, hr.next_le.trans (by omega),
    fun e he => (hr.held_le e he).trans hle, hr.returned_lt, hr.covered, hb⟩

lemma Ready.not_wrapped {h : History} {t first : ℕ} (hr : Ready h t first) (x : Event) :
    ¬h.buffer.isWrapped x := by
  intro hw
  have hnext := hr.next_le
  have hbound := hr.bound
  simp only [isWrapped, U64.max, Fin.val_last] at hw
  omega

lemma Ready.next_ne_max {h : History} {t first : ℕ} (hr : Ready h t first) :
    h.buffer.nextSeq ≠ U64.max := by
  intro hmax
  have hnext := hr.next_le
  have hbound := hr.bound
  rw [hmax] at hnext
  simp only [U64.max, Fin.val_last] at hnext
  omega

lemma Ready.prepare {h : History} {t first : ℕ} (hr : Ready h t first) (x : Event) :
    h.buffer.prepare x = h.buffer :=
  prepare_eq_of_not_wrapped (fun hz => hr.next_ne hz.1) (hr.not_wrapped x)

lemma Ready.push {h : History} {t first : ℕ} (hr : Ready h t first) {x : Event}
    (hx : x.seqNum.val ≤ t) : Ready (h.apply (.push x)) t first := by
  have hstep := h.buffer.push_spec x
  rw [hr.prepare x] at hstep
  have hnext : (h.buffer.push x).2.nextSeq = h.buffer.nextSeq := History.PushStep.nextSeq hstep
  refine ⟨by simpa [History.apply, hnext] using hr.next_ne, ?_, ?_, hr.first_known, ?_, ?_, ?_, ?_,
    hr.bound⟩
  · simp only [History.apply]
    rw [if_neg (fun hz => hr.next_ne hz.1)]
    exact hr.origin
  · simpa [History.apply, hnext] using hr.first_le
  · simpa [History.apply, hnext] using hr.next_le
  · intro e he
    rcases hstep.mem_held he with hold | ⟨-, rfl⟩ | ⟨-, hseq, hlt⟩
    · exact hr.held_le e hold
    · exact hx
    · rw [hseq]
      exact (Fin.lt_def.mp hlt).le.trans hx
  · simpa [History.apply, hnext] using hr.returned_lt
  · have hw : h.NoWraparound (.push x) := hr.not_wrapped x
    exact History.apply_allCovered hw hr.covered

lemma Ready.pop {h : History} {t first : ℕ} (hr : Ready h t first) (now : ℕ) :
    Ready (h.apply (.pop now)) t first := by
  have hstep := h.buffer.pop_spec now
  have hlast : h.NoWraparound (.pop now) := fun hl => hr.next_ne_max hl.1
  have hmono : h.buffer.nextSeq ≤ (h.buffer.pop now).2.nextSeq :=
    History.apply_nextSeq_le hlast
  obtain ⟨hpass, hnext⟩ := hstep.next_bounds hr.next_ne_max
  obtain ⟨hsub, -, -, -⟩ := hstep.mem_held
  have hpos : 0 < h.buffer.nextSeq.val := Nat.pos_of_ne_zero (fun hz => hr.next_ne (Fin.ext hz))
  refine ⟨?_, hr.origin, hr.first_le.trans hmono, hr.first_known, ?_, ?_, ?_, ?_, hr.bound⟩
  · intro hz
    have hval : (h.buffer.pop now).2.nextSeq.val = 0 := by
      rw [show (h.buffer.pop now).2.nextSeq = 0 from hz]
      rfl
    have := Fin.le_def.mp hmono
    omega
  · rcases hnext with hsame | ⟨c, hc, hle⟩
    · exact (congrArg Fin.val hsame).le.trans hr.next_le
    · have := hr.held_le c hc
      exact hle.trans (by omega)
  · exact fun e he => hr.held_le e (hsub e he)
  · intro e he
    rcases List.mem_append.mp he with hold | hnew
    · exact (hr.returned_lt e hold).trans_le hmono
    · exact hpass e (by simpa using hnew)
  · exact History.apply_allCovered hlast hr.covered

/-- The first push starts an unused buffer. -/
lemma Ready.first_push {h : History} {x : Event} (hzero : h.buffer.nextSeq = 0)
    (hheld : h.buffer.held = []) (hret : h.returned = []) (hx : x.seqNum ≠ 0)
    (hb : x.seqNum.val + 100001 < 2 ^ 64) :
    Ready (h.apply (.push x)) x.seqNum.val x.seqNum.val := by
  have hw : ¬h.buffer.isWrapped x := by
    intro hw
    simp only [isWrapped, hzero, U64.max, Fin.val_last, Fin.val_zero] at hw
    omega
  have hnext : (h.buffer.push x).2.nextSeq = x.seqNum := by
    rcases History.push_nextSeq hw with ⟨-, -, hn⟩ | ⟨hno, -⟩
    · exact hn
    · exact absurd ⟨hzero, hheld⟩ hno
  have hprep : h.buffer.prepare x = { h.buffer with nextSeq := x.seqNum } := by
    have hs := h.buffer.prepare_spec x
    generalize h.buffer.prepare x = p at hs ⊢
    cases hs with
    | first _ _ => rfl
    | wrap hwrap => exact absurd hwrap hw
    | keep hinit _ => exact absurd ⟨hzero, hheld⟩ hinit
  have hstep := h.buffer.push_spec x
  rw [hprep] at hstep
  refine ⟨by simpa [History.apply, hnext] using hx, ?_, ?_, le_rfl, ?_, ?_, ?_, ?_, hb⟩
  · simp only [History.apply, ReorderBuffer.isEmpty_iff]
    rw [if_pos ⟨hzero, hheld⟩]
  · simp [History.apply, hnext]
  · simp [History.apply, hnext]
  · intro e he
    rcases hstep.mem_held he with hold | ⟨-, rfl⟩ | ⟨-, hseq, -⟩
    · have hnil : e ∈ h.buffer.held := hold
      simp [hheld] at hnil
    · exact le_rfl
    · rw [hseq]
  · simp [History.apply, hret]
  · intro n hle hlt
    simp only [History.apply, ReorderBuffer.isEmpty_iff] at hle hlt
    rw [if_pos ⟨hzero, hheld⟩] at hle
    rw [hnext] at hlt
    exact absurd hlt (not_lt.mpr hle)

lemma prepare_mem_held {b : ReorderBuffer} {x y : Event} (hy : y ∈ (b.prepare x).held) :
    y ∈ b.held := by
  have hs := b.prepare_spec x
  generalize b.prepare x = p at hs hy
  cases hs with
  | first _ _ => exact hy
  | wrap _ => simp [held, reset] at hy
  | keep _ _ => exact hy

lemma Sourced.push {h : History} {acc acc' : List Event} {x : Event} (hs : Sourced h acc)
    (hsub : ∀ e ∈ acc, e ∈ acc')
    (hx : (h.buffer.push x).1 = true → x.eventType = .sequenceGap ∨ x ∈ acc') :
    Sourced (h.apply (.push x)) acc' := by
  rintro e (he | he)
  · rcases (h.buffer.push_spec x).mem_held he with hold | ⟨hr, rfl⟩ | ⟨hgap, -⟩
    · exact (hs e (.inl (prepare_mem_held hold))).imp_right (hsub e)
    · exact hx hr
    · exact .inl hgap
  · exact (hs e (.inr he)).imp_right (hsub e)

lemma Sourced.pop {h : History} {acc : List Event} (hs : Sourced h acc) (now : ℕ) :
    Sourced (h.apply (.pop now)) acc := by
  obtain ⟨hsub, -, hret, -⟩ := (h.buffer.pop_spec now).mem_held
  rintro e (he | he)
  · exact hs e (.inl (hsub e he))
  · rcases List.mem_append.mp he with hold | hnew
    · exact hs e (.inr hold)
    · rcases hret e (by simpa using hnew) with hheld | hgap
      · exact hs e (.inl hheld)
      · exact .inl hgap

/-! ## The steps of a lane -/

lemma Numbered.mem {l : Lane} (hn : l.Numbered) {e : Event} (he : e ∈ l.everywhere) :
    l.first ≤ e.seqNum.val ∧ e.seqNum.val < l.first + l.count :=
  (hn.mem_iff _).mp ⟨e, he, rfl⟩

lemma Numbered.count_pos {l : Lane} (hn : l.Numbered) {e : Event} (he : e ∈ l.everywhere) :
    0 < l.count := by
  have := hn.mem he
  omega

/-- Events that only change their place keep their numbers. -/
lemma Numbered.of_perm {l l' : Lane} (hn : l.Numbered) (hp : l'.everywhere.Perm l.everywhere)
    (hf : l'.first = l.first) (hc : l'.count = l.count) : l'.Numbered := by
  refine ⟨?_, fun n => ?_, by rw [hf, hc]; exact hn.first_le, by rw [hf, hc]; exact hn.bound⟩
  · rw [(hp.map Event.seqNum).nodup_iff]
    exact hn.nodup
  · rw [hf, hc, ← hn.mem_iff n]
    simp only [hp.mem_iff]

/-- A number drawn safely is positive and larger than all earlier ones. -/
lemma SafeDraw.fresh {l : Lane} {n : U64} (hs : l.SafeDraw n) (hn : l.Numbered) :
    n ≠ 0 ∧ ∀ x ∈ l.everywhere, x.seqNum.val < n.val := by
  obtain ⟨hfirst, hnext, -⟩ := hs
  constructor
  · intro hz
    have hval : n.val = 0 := by rw [hz]; rfl
    by_cases hc : l.count = 0
    · have := (hfirst hc).1
      omega
    · have h₁ := hnext (by omega)
      have h₂ := (hn.first_le (by omega)).1
      omega
  · intro x hx
    rw [hnext (hn.count_pos hx)]
    exact (hn.mem hx).2

lemma draw_numbered {l : Lane} {e : Event} (hn : l.Numbered) (hs : l.SafeDraw e.seqNum) :
    (l.draw e).Numbered := by
  obtain ⟨hpos, hlt⟩ := hs.fresh hn
  obtain ⟨hfirst, hnext, hbound⟩ := hs
  have hperm : (l.draw e).everywhere.Perm (e :: l.everywhere) := by
    simp only [everywhere, transit, draw, if_neg hpos, List.append_assoc]
    exact List.perm_middle
  have hfirst' : (l.draw e).first = if l.count = 0 then e.seqNum.val else l.first := rfl
  have hcount' : (l.draw e).count = l.count + 1 := rfl
  refine ⟨?_, fun n => ?_, ?_, ?_⟩
  · rw [(hperm.map Event.seqNum).nodup_iff, List.map_cons, List.nodup_cons]
    refine ⟨fun hmem => ?_, hn.nodup⟩
    obtain ⟨x, hx, heq⟩ := List.mem_map.mp hmem
    have := hlt x hx
    rw [heq] at this
    omega
  · simp only [hperm.mem_iff, List.mem_cons, exists_eq_or_imp, hn.mem_iff n, hfirst', hcount']
    split_ifs with hc
    · omega
    · have := hnext (by omega)
      omega
  · intro _
    rw [hfirst']
    split_ifs with hc
    · have := hfirst hc
      omega
    · exact hn.first_le (by omega)
  · rw [hfirst', hcount']
    split_ifs with hc
    · omega
    · have := hnext (by omega)
      omega

lemma draw_inv {l : Lane} {e : Event} (hi : l.Inv) (hs : l.SafeDraw e.seqNum) :
    (l.draw e).Inv := by
  obtain ⟨hpos, hlt⟩ := hs.fresh hi.numbered
  have hlost : (l.draw e).lost = l.lost := by simp [draw, hpos]
  have hfl : (l.draw e).inFlight = l.inFlight ++ [e] := by simp [draw, hpos]
  refine ⟨draw_numbered hi.numbered hs, ⟨fun hz => ?_, fun hne => ?_, hi.followed.source⟩,
    fun hl => ?_⟩
  · have hu := hi.followed.unused hz
    refine ⟨hu.held, hu.returned, hu.tracker, hu.accepted, by rw [hlost]; exact hu.lost, ?_⟩
    intro x hx
    have hring : x ∈ l.ring := List.mem_of_mem_head? hx
    have hcount := hi.numbered.count_pos (e := x) (by simp [everywhere, transit, hring])
    simp only [draw, if_neg hcount.ne']
    exact hu.head x hx
  · obtain ⟨hr, ht⟩ := hi.followed.ready hne
    have hcount : l.count ≠ 0 := by
      have := hr.first_known
      omega
    simp only [draw, if_neg hcount]
    exact ⟨hr, by omega⟩
  · rw [hlost] at hl
    have hc := hi.clean hl
    refine ⟨hc.panic, hc.gaps, hc.kept, hc.genuine, hc.queue, ?_⟩
    intro x hx y hy hys
    have hring : (l.draw e).ring = l.ring := rfl
    have hmem : y ∈ l.transit ∨ y = e := by
      simp only [transit, hfl, hring, List.mem_append, List.mem_singleton] at hy ⊢
      tauto
    rcases hmem with hold | rfl
    · exact hc.ahead x hx y hold hys
    · have hacc := hc.genuine x (List.mem_append_right _ hx)
      exact Fin.lt_def.mpr (hlt x (List.mem_append_right _ hacc))

lemma reserve_inv {l : Lane} {i : ℕ} {granted : Bool} (hi : l.Inv) (hs : l.SafeReserve i granted) :
    (l.reserve i granted).Inv := by
  unfold reserve
  cases he : l.inFlight[i]? with
  | none => exact hi
  | some e =>
    obtain ⟨hlt, hget⟩ := List.getElem?_eq_some_iff.mp he
    have hfl : l.inFlight.Perm (e :: l.inFlight.eraseIdx i) := by
      rw [← hget]
      exact (List.getElem_cons_eraseIdx_perm hlt).symm
    have hemem : e ∈ l.inFlight := hfl.mem_iff.mpr (by simp)
    cases granted with
    | false =>
      simp only [Bool.false_eq_true, if_false]
      have hperm : (l.inFlight.eraseIdx i ++ l.ring ++ (l.lost ++ [e]) ++ l.accepted).Perm
          l.everywhere := by
        rw [List.perm_iff_count]
        intro a
        have := hfl.count_eq a
        simp only [everywhere, transit, List.count_append, List.count_cons, List.count_nil] at this ⊢
        omega
      refine ⟨hi.numbered.of_perm hperm rfl rfl, ⟨fun hz => ?_, hi.followed.ready,
        hi.followed.source⟩, by simp⟩
      have hu := hi.followed.unused hz
      have hring : l.ring ≠ [] := fun hr => absurd (hs hr hz e he).1 (by simp)
      exact ⟨hu.held, hu.returned, hu.tracker, hu.accepted, fun hr => absurd hr hring, hu.head⟩
    | true =>
      simp only [if_true]
      have htransit : (l.inFlight.eraseIdx i ++ (l.ring ++ [e])).Perm l.transit := by
        rw [List.perm_iff_count]
        intro a
        have := hfl.count_eq a
        simp only [transit, List.count_append, List.count_cons, List.count_nil] at this ⊢
        omega
      have hperm : (l.inFlight.eraseIdx i ++ (l.ring ++ [e]) ++ l.lost ++ l.accepted).Perm
          l.everywhere := (htransit.append_right _).append_right _
      refine ⟨hi.numbered.of_perm hperm rfl rfl, ⟨fun hz => ?_, hi.followed.ready,
        hi.followed.source⟩, fun hl => ?_⟩
      · have hu := hi.followed.unused hz
        refine ⟨hu.held, hu.returned, hu.tracker, hu.accepted, by simp, fun x hx => ?_⟩
        cases hr : l.ring with
        | cons r rest => exact hu.head x (by simpa [hr] using hx)
        | nil =>
          obtain rfl : e = x := by simpa [hr] using hx
          have heverywhere : l.everywhere = l.inFlight := by
            simp [everywhere, transit, hr, hu.lost hr, hu.accepted]
          have hin := hi.numbered.mem (e := e) (heverywhere ▸ hemem)
          obtain ⟨x, hx, hfirst⟩ := (hi.numbered.mem_iff l.first).mpr ⟨le_rfl, by omega⟩
          have hle := Fin.le_def.mp ((hs hr hz e he).2 x (heverywhere ▸ hx))
          show e.seqNum.val = l.first
          omega
      · have hc := hi.clean hl
        refine ⟨hc.panic, hc.gaps, hc.kept, hc.genuine, hc.queue, fun x hx y hy hys => ?_⟩
        exact hc.ahead x hx y (htransit.mem_iff.mp hy) hys

/-- The gap of a jump starts right behind the tracker. -/
lemma panicGap_spec {t : U64} {e g : Event} (h : panicGap t e = some g)
    (hb : t.val + 100001 < 2 ^ 64) :
    g.eventType = .sequenceGap ∧ g.seqNum.val = t.val + 1 ∧ t.val + 1000 < e.seqNum.val := by
  unfold panicGap at h
  split_ifs at h with hjump
  obtain rfl := Option.some.inj h
  have hsucc : (t + 1).val = t.val + 1 := by
    rw [Fin.val_add]
    exact Nat.mod_eq_of_lt (by simp; omega)
  obtain ⟨hlt, hdiff⟩ := hjump
  refine ⟨rfl, hsucc, ?_⟩
  rw [Fin.lt_def, hsucc] at hlt
  rw [Fin.lt_def, Fin.sub_val_of_le (Fin.le_def.mpr (by omega))] at hdiff
  have h1000 : ((1000 : U64)).val = 1000 := rfl
  omega

/-- Pushing the panic gap, if there is one, keeps a started buffer ready. -/
lemma Ready.afterGap {l : Lane} {e : Event} {t first : ℕ} (hr : Ready l.history t first)
    (hg : ∀ g ∈ panicGap l.tracker e, g.seqNum.val ≤ t) : Ready (l.afterGap e) t first := by
  unfold Lane.afterGap
  cases hp : panicGap l.tracker e with
  | none => exact hr
  | some g => exact hr.push (hg g hp)

lemma Sourced.afterGap {l : Lane} {e : Event} {acc : List Event} (hs : Sourced l.history acc)
    (hg : ∀ g ∈ panicGap l.tracker e, g.eventType = .sequenceGap) :
    Sourced (l.afterGap e) acc := by
  unfold Lane.afterGap
  cases hp : panicGap l.tracker e with
  | none => exact hs
  | some g => exact hs.push (fun _ h => h) (fun _ => .inl (hg g hp))

lemma afterGap_of_none {l : Lane} {e : Event} (h : panicGap l.tracker e = none) :
    l.afterGap e = l.history := by
  simp only [afterGap, h]

lemma mem_everywhere_of_ring {l : Lane} {e : Event} {rest : List Event}
    (hring : l.ring = e :: rest) : e ∈ l.everywhere := by
  simp [everywhere, transit, hring]

lemma Inv.tracker_bound {l : Lane} (hi : l.Inv) : l.tracker.val + 100001 < 2 ^ 64 := by
  by_cases hz : l.history.buffer.nextSeq = 0
  · rw [(hi.followed.unused hz).tracker]
    simp
  · exact (hi.followed.ready hz).1.bound

/-- The oldest record of an unused lane makes no gap. -/
lemma Inv.no_panic_unused {l : Lane} {e : Event} {rest : List Event} (hi : l.Inv)
    (hring : l.ring = e :: rest) (hz : l.history.buffer.nextSeq = 0) :
    panicGap l.tracker e = none := by
  rw [Option.eq_none_iff_forall_not_mem]
  intro g hg
  have hu := hi.followed.unused hz
  obtain ⟨-, -, hjump⟩ := panicGap_spec hg hi.tracker_bound
  have hfirst := hu.head e (by simp [hring])
  have hsmall := hi.numbered.first_le (hi.numbered.count_pos (mem_everywhere_of_ring hring))
  omega

/-- Without a loss the callback never makes a gap of its own. -/
lemma Inv.no_panic {l : Lane} {e : Event} {rest : List Event} (hi : l.Inv) (hs : l.SafeConsume)
    (hring : l.ring = e :: rest) (hl : l.lost = []) : panicGap l.tracker e = none := by
  by_cases hz : l.history.buffer.nextSeq = 0
  · exact hi.no_panic_unused hring hz
  rw [Option.eq_none_iff_forall_not_mem]
  intro g hg
  obtain ⟨hr, ht⟩ := hi.followed.ready hz
  obtain ⟨-, -, hjump⟩ := panicGap_spec hg hr.bound
  have hlast := (hi.numbered.mem (mem_everywhere_of_ring hring)).2
  have hknown := hr.first_known
  -- the number behind the tracker was drawn, so its event is somewhere
  obtain ⟨x, hx, hval⟩ := (hi.numbered.mem_iff (l.tracker.val + 1)).mpr ⟨by omega, by omega⟩
  rcases List.mem_append.mp hx with hx | hacc
  · rcases List.mem_append.mp hx with htransit | hlost
    · have hne : x ≠ e := by
        rintro rfl
        omega
      have hother : x ∈ l.inFlight ++ l.ring.tail := by
        simp only [transit, hring, List.mem_append, List.mem_cons] at htransit
        simp only [hring, List.tail_cons, List.mem_append]
        tauto
      have := Fin.lt_def.mp ((hs e (by simp [hring]) x hother).1 hjump)
      omega
    · simp [hl] at hlost
  · rcases (hi.clean hl).kept x hacc with hheld | hret
    · have := hr.held_le x hheld
      omega
    · have h₁ := Fin.lt_def.mp (hr.returned_lt x hret)
      have h₂ := hr.next_le
      omega

lemma consume_eq {l : Lane} {e : Event} {rest : List Event} (hring : l.ring = e :: rest) :
    l.consume = { l.receive e with ring := rest } := by
  simp only [consume, hring]
  rfl

lemma consume_numbered {l : Lane} {e : Event} {rest : List Event} (hn : l.Numbered)
    (hring : l.ring = e :: rest) : l.consume.Numbered := by
  rw [consume_eq hring]
  refine hn.of_perm ?_ rfl rfl
  rw [List.perm_iff_count]
  intro a
  simp only [everywhere, transit, receive, hring, List.count_append]
  split_ifs <;> simp only [List.count_append, List.count_cons, List.count_nil] <;> omega

lemma consume_followed {l : Lane} {e : Event} {rest : List Event} (hi : l.Inv)
    (hring : l.ring = e :: rest) : l.consume.Followed := by
  have he := hi.numbered.mem (mem_everywhere_of_ring hring)
  have hfirst := hi.numbered.first_le (hi.numbered.count_pos (mem_everywhere_of_ring hring))
  have hbound := hi.numbered.bound
  have hsource : Sourced (l.consume.history) l.consume.accepted := by
    rw [consume_eq hring]
    refine (hi.followed.source.afterGap fun g hg => (panicGap_spec hg hi.tracker_bound).1).push
      (fun x hx => ?_) (fun hr => ?_)
    · simp only [receive]
      split_ifs
      · exact List.mem_append_left _ hx
      · exact hx
    · simp only [receive]
      rw [if_pos hr]
      exact .inr (by simp)
  have htrack : l.consume.tracker.val = max l.tracker.val e.seqNum.val := by
    rw [consume_eq hring]
    simp only [receive]
    split_ifs with hlt
    · exact (max_eq_right (Fin.lt_def.mp hlt).le).symm
    · exact (max_eq_left (Fin.le_def.mp (not_lt.mp hlt))).symm
  have hready : Ready ((l.afterGap e).apply (.push e)) (max l.tracker.val e.seqNum.val) l.first ∧
      max l.tracker.val e.seqNum.val < l.first + l.count := by
    by_cases hz : l.history.buffer.nextSeq = 0
    · have hu := hi.followed.unused hz
      have hhead := hu.head e (by simp [hring])
      have hne : e.seqNum ≠ 0 := by
        intro h0
        rw [h0] at hhead
        simp only [Fin.val_zero] at hhead
        omega
      have hpush := Ready.first_push hz hu.held hu.returned hne (by omega)
      rw [hhead] at hpush
      rw [afterGap_of_none (hi.no_panic_unused hring hz), hu.tracker]
      simpa [hhead] using And.intro hpush he.2
    · obtain ⟨hr, ht⟩ := hi.followed.ready hz
      refine ⟨((hr.mono (le_max_left _ _) (by omega)).afterGap fun g hg => ?_).push
        (le_max_right _ _), by omega⟩
      have := panicGap_spec hg hr.bound
      omega
  have hhistory : l.consume.history = (l.afterGap e).apply (.push e) := by
    rw [consume_eq hring]
    rfl
  have hsame : l.consume.first = l.first ∧ l.consume.count = l.count := by
    rw [consume_eq hring]
    exact ⟨rfl, rfl⟩
  refine ⟨fun hz => absurd hz (hhistory ▸ hready.1.next_ne), fun _ => ?_, hsource⟩
  rw [hhistory, htrack, hsame.1, hsame.2]
  exact hready

lemma Inv.not_wrapped {l : Lane} (hi : l.Inv) (e : Event) : ¬l.history.buffer.isWrapped e := by
  by_cases hz : l.history.buffer.nextSeq = 0
  · intro hw
    simp only [isWrapped, hz, U64.max, Fin.val_last, Fin.val_zero] at hw
    omega
  · exact (hi.followed.ready hz).1.not_wrapped e

lemma prepare_of_not_wrapped {b : ReorderBuffer} {e : Event} (hw : ¬b.isWrapped e) :
    (b.prepare e).held = b.held ∧ (b.prepare e).sequenceGaps = b.sequenceGaps ∧
      (b.prepare e).structuralQueue = b.structuralQueue := by
  have hs := b.prepare_spec e
  generalize b.prepare e = p at hs ⊢
  cases hs with
  | first _ _ => exact ⟨rfl, rfl, rfl⟩
  | wrap hwrap => exact absurd hwrap hw
  | keep _ _ => exact ⟨rfl, rfl, rfl⟩

lemma consume_clean {l : Lane} {e : Event} {rest : List Event} (hi : l.Inv) (hs : l.SafeConsume)
    (hring : l.ring = e :: rest) (hl : l.consume.lost = []) : l.consume.Clean := by
  have hlost : l.lost = [] ∧ ((l.afterGap e).buffer.push e).1 = true := by
    rw [consume_eq hring] at hl
    simp only [receive] at hl
    split_ifs at hl with hr
    · exact ⟨hl, hr⟩
    · simp at hl
  have hc := hi.clean hlost.1
  have hnone := hi.no_panic hs hring hlost.1
  rw [afterGap_of_none hnone] at hlost
  have hstep := l.history.buffer.push_spec e
  rw [hlost.2] at hstep
  obtain ⟨hheld, hgaps, hqueue⟩ := prepare_of_not_wrapped (hi.not_wrapped e)
  have hnodup := hi.numbered.nodup
  have hnew : ∀ w ∈ (l.history.buffer.prepare e).held, w.seqNum ≠ e.seqNum := by
    rw [hheld]
    intro w hw hseq
    have hacc := hc.genuine w hw
    simp only [everywhere, List.map_append, List.append_assoc] at hnodup
    rw [List.nodup_append] at hnodup
    refine hnodup.2.2 e.seqNum ?_ w.seqNum ?_ hseq.symm
    · simp [transit, hring]
    · simp only [List.mem_append, List.mem_map]
      exact .inr ⟨w, hacc, rfl⟩
  obtain ⟨hperm, hgaps', hqueue'⟩ := hstep.accepts hnew
  rw [hheld] at hperm
  rw [hqueue] at hqueue'
  have hlane : l.consume = { l with
      ring := rest
      tracker := if l.tracker < e.seqNum then e.seqNum else l.tracker
      history := l.history.apply (.push e)
      accepted := l.accepted ++ [e] } := by
    rw [consume_eq hring]
    simp only [receive, afterGap_of_none hnone, hlost.2, hnone, if_true, Option.toList_none,
      List.append_nil]
  have hother : ∀ y ∈ l.inFlight ++ rest, y ∈ l.transit ∧ y ∈ l.inFlight ++ l.ring.tail := by
    intro y hy
    simp only [transit, hring, List.tail_cons, List.mem_append, List.mem_cons] at hy ⊢
    exact ⟨hy.imp_right .inr, hy⟩
  rw [hlane]
  refine ⟨hc.panic, (hgaps'.trans hgaps).trans hc.gaps, fun x hx => ?_, fun x hx => ?_, ?_, ?_⟩
  · rcases List.mem_append.mp hx with hold | hnew
    · exact (hc.kept x hold).imp_left fun h => hperm.mem_iff.mpr (List.mem_cons_of_mem _ h)
    · exact .inl (hperm.mem_iff.mpr (by simp [List.mem_singleton.mp hnew]))
  · rcases List.mem_cons.mp (hperm.mem_iff.mp hx) with rfl | hold
    · simp
    · exact List.mem_append_left _ (hc.genuine x hold)
  · simp only [History.apply, hqueue']
    refine List.pairwise_append.mpr ⟨hc.queue, ?_, fun x hx y hy => ?_⟩
    · exact (List.pairwise_singleton _ e).filter _
    · obtain ⟨hy, hys⟩ := List.mem_filter.mp hy
      obtain rfl := List.mem_singleton.mp hy
      exact hc.ahead x hx y (by simp [transit, hring]) hys
  · intro x hx y hy hys
    simp only [History.apply, hqueue'] at hx
    obtain ⟨htransit, htail⟩ := hother y hy
    rcases List.mem_append.mp hx with hold | hnew
    · exact hc.ahead x hold y htransit hys
    · obtain ⟨hxe, hxs⟩ := List.mem_filter.mp hnew
      obtain rfl := List.mem_singleton.mp hxe
      exact (hs x (by simp [hring]) y htail).2 hxs hys

lemma consume_inv {l : Lane} (hi : l.Inv) (hs : l.SafeConsume) : l.consume.Inv := by
  cases hring : l.ring with
  | nil => simpa only [consume, hring] using hi
  | cons e rest =>
    exact ⟨consume_numbered hi.numbered hring, consume_followed hi hring,
      consume_clean hi hs hring⟩

/-- Without a loss a buffer never gives up on a number. -/
lemma Inv.no_giving_up {l : Lane} {now : ℕ} (hi : l.Inv) (hs : l.SafePop now) (hl : l.lost = [])
    (hne : l.history.buffer.nextSeq ≠ 0) :
    ∀ c ∈ l.history.buffer.candidate, l.history.buffer.nextSeq < c.1.seqNum →
      ¬l.history.buffer.givesUp now := by
  intro c hc hlt hgive
  have hclean := hi.clean hl
  obtain ⟨hr, -⟩ := hi.followed.ready hne
  have hheld := candidate_mem_held (c := c.2) hc
  have hcand := hi.numbered.mem (e := c.1) (List.mem_append_right _ (hclean.genuine _ hheld))
  have hbelow := Fin.lt_def.mp hlt
  -- the expected number was drawn, so its event is somewhere
  obtain ⟨x, hx, hval⟩ := (hi.numbered.mem_iff l.history.buffer.nextSeq.val).mpr
    ⟨hr.first_le, by omega⟩
  rcases List.mem_append.mp hx with hx | hacc
  · rcases List.mem_append.mp hx with htransit | hlost
    · have := Fin.lt_def.mp (hs hgive c hc x htransit)
      omega
    · simp [hl] at hlost
  · rcases hclean.kept x hacc with hin | hret
    · have := Fin.le_def.mp (candidate_le_held (c := c.2) hc hclean.queue x hin)
      omega
    · have := Fin.lt_def.mp (hr.returned_lt x hret)
      omega

lemma pop_inv {l : Lane} {now : ℕ} (hi : l.Inv) (hs : l.SafePop now) : (l.pop now).Inv := by
  by_cases hz : l.history.buffer.nextSeq = 0
  · -- an unused buffer is empty, so nothing happens
    have hu := hi.followed.unused hz
    have hpop : l.history.buffer.pop now = (none, l.history.buffer) := by
      simp [ReorderBuffer.pop, l.history.buffer.candidate_eq_none_iff.mpr hu.held]
    have hsame : l.pop now = l := by
      simp [Lane.pop, History.apply, hpop]
    rw [hsame]
    exact hi
  · obtain ⟨hr, ht⟩ := hi.followed.ready hz
    have hr' := hr.pop now
    refine ⟨hi.numbered.of_perm (List.Perm.refl _) rfl rfl,
      ⟨fun hz' => absurd hz' hr'.next_ne, fun _ => ⟨hr', ht⟩, hi.followed.source.pop now⟩,
      fun hl => ?_⟩
    have hc := hi.clean hl
    obtain ⟨hsub, hkeep, -, hqueue⟩ := (l.history.buffer.pop_spec now).mem_held
    refine ⟨hc.panic, ?_, fun x hx => ?_, fun x hx => hc.genuine x (hsub x hx),
      hc.queue.sublist hqueue, fun x hx => hc.ahead x (hqueue.subset hx)⟩
    · exact (pop_sequenceGaps (hi.no_giving_up hs hl hz)).trans hc.gaps
    · rcases hc.kept x hx with hheld | hret
      · rcases hkeep x hheld with hstay | hnow
        · exact .inl hstay
        · exact .inr (List.mem_append_right _ (by simp [hnow]))
      · exact .inr (List.mem_append_left _ hret)

/-! ## Exactness -/

lemma start_inv : start.Inv := by
  refine ⟨⟨by simp [everywhere, transit, start], fun n => ?_, by simp [start], by simp [start]⟩,
    ⟨fun _ => ⟨rfl, rfl, rfl, rfl, fun _ => rfl, by simp [start]⟩, fun h => absurd rfl h, ?_⟩,
    fun _ => ⟨rfl, rfl, by simp [start], ?_, List.Pairwise.nil, ?_⟩⟩
  · simp [everywhere, transit, start]
  · rintro e (he | he)
    · simp [start, History.start, new, held] at he
    · simp [start, History.start] at he
  · intro e he
    simp [start, History.start, new, held] at he
  · intro x hx
    simp [start, History.start, new] at hx

theorem Inv.exact {l : Lane} (hi : l.Inv) : l.Exact := by
  refine ⟨fun hl => ⟨(hi.clean hl).panic, (hi.clean hl).gaps⟩, ?_⟩
  rintro e he ⟨r, hr, hlt⟩
  have hne : l.history.buffer.nextSeq ≠ 0 := by
    intro hz
    simp [(hi.followed.unused hz).returned] at hr
  obtain ⟨hready, -⟩ := hi.followed.ready hne
  have hfirst := (hi.numbered.mem (e := e) (by simp [everywhere, he])).1
  have horigin : l.history.origin ≤ e.seqNum := by
    rw [Fin.le_def, hready.origin]
    exact hfirst
  rcases hready.covered e.seqNum horigin (hlt.trans (hready.returned_lt r hr)) with
    ⟨x, hx, hseq⟩ | ⟨g, hg, hgap, hrange⟩
  · rcases hi.followed.source x (.inr hx) with hgap | hacc
    · exact ⟨x, hx, hgap, .inl hseq⟩
    · -- an accepted event has another number than a lost one
      have hnodup := hi.numbered.nodup
      simp only [everywhere, List.map_append] at hnodup
      rw [List.nodup_append] at hnodup
      exact absurd hseq.symm (hnodup.2.2 e.seqNum (by simp; exact .inr ⟨e, he, rfl⟩) x.seqNum
        (List.mem_map.mpr ⟨x, hacc, rfl⟩))
  · exact ⟨g, hg, hgap, .inr hrange⟩

lemma safeConsume_of_alone {l : Lane} (h : l.inFlight ++ l.ring.tail = []) :
    l.SafeConsume := by
  intro e _ x hx
  simp [h] at hx

lemma safePop_of_quiet {l : Lane} (now : ℕ) (h : l.transit = []) : l.SafePop now := by
  intro _ c _ x hx
  simp [h] at hx

end Lane

namespace Ingress
variable (watched : U32 → Bool)

lemma onLane_inv {s : Ingress} {dev : U32} (f : Lane → Lane) (hi : ∀ d, (s.lanes d).Inv)
    (hf : (f (s.lanes dev)).Inv) : ∀ d, ((s.onLane dev f).lanes d).Inv := by
  intro d
  by_cases hd : d = dev
  · subst hd
    simpa [onLane] using hf
  · simpa [onLane, hd] using hi d

lemma apply_inv {s : Ingress} {op : Op} (hi : ∀ d, (s.lanes d).Inv) (hs : s.Safe watched op) :
    ∀ d, ((s.apply watched op).lanes d).Inv := by
  cases op with
  | draw e =>
    simp only [apply]
    split_ifs with hw
    · exact onLane_inv _ hi (Lane.draw_inv (hi e.devId) (hs hw))
    · exact hi
  | reserve dev i granted =>
    exact onLane_inv (fun l => l.reserve i granted) hi (Lane.reserve_inv (hi dev) hs)
  | consume dev => exact onLane_inv Lane.consume hi (Lane.consume_inv (hi dev) hs)
  | pop dev now =>
    exact onLane_inv (fun l => l.pop now) hi (Lane.pop_inv (hi dev) hs)

/-- Along a safe run the gap reports of every device are exact in every state. -/
theorem gap_reports_exact (initialSeq : U64) (ops : List Op)
    (h : Run.Along (apply watched) (Safe watched) (start initialSeq) ops) :
    ∀ p, p <+: ops → ∀ dev, ((Run.exec (apply watched) (start initialSeq) p).lanes dev).Exact := by
  intro p hp dev
  have hinv := Run.invariant_prefix (apply watched) (I := fun s => ∀ d, (s.lanes d).Inv)
    (fun s op hs hi => apply_inv watched hi hs) h (fun _ => Lane.start_inv) p hp
  exact (hinv dev).exact

def Op.device : Op → U32
  | .draw e => e.devId
  | .reserve dev _ _ => dev
  | .consume dev => dev
  | .pop dev _ => dev

lemma exec_lanes_other {s : Ingress} {ops : List Op} {dev : U32} (h : ∀ op ∈ ops, op.device ≠ dev) :
    (Run.exec (apply watched) s ops).lanes dev = s.lanes dev := by
  induction ops generalizing s with
  | nil => rfl
  | cons op ops ih =>
    have hop : dev ≠ op.device := (h op (by simp)).symm
    rw [Run.exec_cons, ih (fun o ho => h o (List.mem_cons_of_mem _ ho))]
    cases op with
    | draw e =>
      simp only [apply]
      split_ifs
      · exact Function.update_of_ne hop _ _
      · rfl
    | reserve dev i granted | consume dev | pop dev now => exact Function.update_of_ne hop _ _

def writeOn (dev : U32) : Event := { Event.zero with eventType := .write, devId := dev }

/-- Three writes on two devices, the middle one on the second device. -/
def twoDeviceRun : List Op :=
  [.draw (writeOn 1), .reserve 1 0 true, .draw (writeOn 2), .reserve 2 0 true,
    .draw (writeOn 1), .reserve 1 0 true, .consume 1, .pop 1 0, .pop 1 0, .consume 2, .pop 2 0,
    .pop 2 0, .consume 1, .pop 1 0, .pop 1 600000000, .pop 1 600000000]

/-- Two writes of a fresh system, the first of which draws the number zero. -/
def freshRun : List Op :=
  [.draw (writeOn 1), .draw (writeOn 1), .reserve 1 0 true, .consume 1, .pop 1 0, .pop 1 0]

/-- No event of the first run is lost, yet the number drawn by the second device
is reported as missing on the first one. In the second run the first event is
lost and never reported. -/
theorem gap_reports_not_exact :
    (∀ dev, ((Run.exec (apply fun _ => true) (start 1) twoDeviceRun).lanes dev).lost = []) ∧
    ¬((Run.exec (apply fun _ => true) (start 1) twoDeviceRun).lanes 1).Exact ∧
    ¬((Run.exec (apply fun _ => true) (start 0) freshRun).lanes 1).Exact := by
  refine ⟨fun dev => ?_, fun h => ?_, fun h => ?_⟩
  · by_cases h₁ : dev = 1
    · subst h₁
      decide
    by_cases h₂ : dev = 2
    · subst h₂
      decide
    · rw [exec_lanes_other]
      · rfl
      · intro op hop
        simp only [twoDeviceRun, List.mem_cons, List.not_mem_nil, or_false] at hop
        rcases hop with rfl | rfl | rfl | rfl | rfl | rfl | rfl | rfl | rfl | rfl | rfl | rfl |
          rfl | rfl | rfl | rfl <;> first | exact Ne.symm h₁ | exact Ne.symm h₂
  · exact absurd (h.1 (by decide)).2 (by decide)
  · obtain ⟨g, hg, hgap, -⟩ := h.2 (writeOn 1) (by decide)
      ⟨{ writeOn 1 with seqNum := 1 }, by decide, by decide⟩
    have hwrites : ∀ g ∈ ((Run.exec (apply fun _ => true) (start 0) freshRun).lanes 1).history.returned,
        g.eventType ≠ .sequenceGap := by decide
    exact hwrites g hg hgap

/-- A loss on the only device. -/
def lossRun : List Op :=
  [.draw (writeOn 1), .reserve 1 0 true, .consume 1, .pop 1 0, .draw (writeOn 1),
    .reserve 1 0 false, .draw (writeOn 1), .reserve 1 0 true, .consume 1, .pop 1 0,
    .pop 1 600000000, .pop 1 600000000]

/-- Its lost number 3 is announced. -/
theorem lossRun_announced :
    Lane.Announced ((Run.exec (apply fun _ => true) (start 1) lossRun).lanes 1).history.returned
      3 := by
  have h : Run.Along (apply fun _ => true) (Safe fun _ => true) (start 1) lossRun := by
    refine ⟨fun _ => ⟨by decide, by decide, by decide⟩, fun _ _ e he => ?_,
      Lane.safeConsume_of_alone (by decide), Lane.safePop_of_quiet _ (by decide),
      fun _ => ⟨by decide, by decide, by decide⟩, fun _ hz => absurd hz (by decide),
      fun _ => ⟨by decide, by decide, by decide⟩, fun _ hz => absurd hz (by decide),
      Lane.safeConsume_of_alone (by decide), Lane.safePop_of_quiet _ (by decide),
      Lane.safePop_of_quiet _ (by decide), Lane.safePop_of_quiet _ (by decide), trivial⟩
    obtain rfl : { writeOn 1 with seqNum := 2 } = e := Option.some.inj he
    decide
  exact (gap_reports_exact _ 1 lossRun h _ (List.prefix_refl _) 1).2
    { writeOn 1 with seqNum := 3 } (by decide) ⟨{ writeOn 1 with seqNum := 4 }, by decide, by decide⟩

end Ingress
end Foxing
