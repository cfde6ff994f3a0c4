import Foxing.ReorderBuffer
import Mathlib.Algebra.Order.BigOperators.Group.List
import Mathlib.Algebra.Order.Group.Nat

/-!
# Restoring the sequence order

Events with consecutive numbers are loaded into a fresh buffer, the least one
first, and the buffer is then drained. The map sorts its events, but the
structural queue keeps the order of arrival, so the numbers come out in order
exactly when the structural events already arrived in order.
-/
namespace Foxing.ReorderBuffer

/-- The callers' loop: pop until nothing is returned. Each pop takes the next
reading of the clock; the result is `none` if the readings run out first. -/
def drain : List ℕ → ReorderBuffer → Option (List Event × ReorderBuffer)
  | [], _ => none
  | now :: nows, b =>
    match b.pop now with
    | (none, b') => some ([], b')
    | (some e, b') => (drain nows b').map (fun r => (e :: r.1, r.2))

/-- The buffer after a sequence of pushes. -/
def load (b : ReorderBuffer) (es : List Event) : ReorderBuffer :=
  es.foldl (fun b e => (b.push e).2) b

def isStructural (e : Event) : Bool := e.eventType.requiresGlobalOrdering

/-- Draining returns exactly the events `es` in ascending order, announces no
gap and counts none of them as late. -/
def RestoresOrder (nows : List ℕ) (b : ReorderBuffer) (es : List Event) : Prop :=
  ∃ out b', b.drain nows = some (out, b') ∧ out.Perm es ∧
    out.Pairwise (fun x y => x.seqNum < y.seqNum) ∧
    b'.sequenceGaps = b.sequenceGaps ∧ b'.lateEvents = b.lateEvents

/-! ## Loading -/

/-- The buffer holds exactly `es` and has seen nothing else since number `s`. -/
structure Loaded (maxBytes s : U64) (es : List Event) (b : ReorderBuffer) : Prop where
  next : b.nextSeq = s
  queue : b.structuralQueue = es.filter isStructural
  map : b.buffer.values.Perm (es.filter (fun e => !isStructural e))
  bytes : b.currentPendingBytes.val = ((es.filter (fun e => !isStructural e)).map eventSize).sum
  limit : b.maxPendingBytes = maxBytes
  count : b.maxPendingCount = 100000

lemma Loaded.held_perm {maxBytes s : U64} {es : List Event} {b : ReorderBuffer}
    (h : Loaded maxBytes s es b) : b.held.Perm es := by
  have hsplit := List.filter_append_perm isStructural es
  rw [held, h.queue]
  exact (List.perm_append_comm.trans (h.map.append_left _)).trans hsplit

lemma prepare_eq_of_le {b : ReorderBuffer} {e : Event}
    (hinit : ¬(b.nextSeq = 0 ∧ b.held = [])) (hle : b.nextSeq ≤ e.seqNum) : b.prepare e = b := by
  have hs := b.prepare_spec e
  generalize b.prepare e = p at hs ⊢
  cases hs with
  | first hseq hempty => exact absurd ⟨hseq, hempty⟩ hinit
  | wrap hwrap =>
    have hval : b.nextSeq.val ≤ e.seqNum.val := hle
    simp only [isWrapped, U64.max, Fin.val_last] at hwrap
    omega
  | keep _ _ => rfl

/-- A buffer within its limits takes one more event. -/
lemma PushStep.loaded {maxBytes s : U64} {es : List Event} {p b : ReorderBuffer} {e : Event}
    {r : Bool} (hstep : PushStep p e r b) (h : Loaded maxBytes s es p)
    (hnew : e.seqNum ∉ es.map Event.seqNum) (hcount : es.length < 100000)
    (hbytes : ((es ++ [e]).map eventSize).sum ≤ maxBytes.val) :
    Loaded maxBytes s (es ++ [e]) b := by
  have hle : ((es.filter (fun e => !isStructural e)).map eventSize).sum ≤
      (es.map eventSize).sum :=
    ((List.filter_sublist (l := es)).map eventSize).sum_le_sum (fun _ _ => Nat.zero_le _)
  simp only [List.map_append, List.map_cons, List.map_nil, List.sum_append, List.sum_cons,
    List.sum_nil, Nat.add_zero] at hbytes
  have hbyte := h.bytes
  have hlim := maxBytes.isLt
  have hsum : (p.currentPendingBytes + Fin.ofNat (2 ^ 64) (eventSize e)).val =
      p.currentPendingBytes.val + eventSize e := by
    rw [Fin.val_add, Fin.val_ofNat, Nat.mod_eq_of_lt (a := eventSize e) (by omega)]
    exact Nat.mod_eq_of_lt (by omega)
  have hacc : ¬p.rejects e := by
    rintro (hover | ⟨hfull, -⟩)
    · rw [h.limit, Fin.lt_def, hsum] at hover
      omega
    · have hlen : p.len = es.length := by
        rw [← h.held_perm.length_eq]
        simp [len, held, KeyedMap.length]
      rw [h.count, hlen] at hfull
      omega
  cases hstep with
  | inject hrej _ _ => exact absurd hrej hacc
  | reject hrej _ => exact absurd hrej hacc
  | structural _ hord =>
    have hs : isStructural e = true := hord
    exact ⟨h.next, by simp [enqueue, h.queue, hs], by simpa [enqueue, hs] using h.map,
      by simpa [enqueue, hs] using h.bytes, h.limit, h.count⟩
  | duplicate _ hord hdup =>
    obtain ⟨w, hw⟩ := Option.isSome_iff_exists.mp hdup
    obtain ⟨hmem, hkey⟩ := (p.buffer.get_eq_some_iff _ _).mp hw
    have hes : w ∈ es := (List.mem_filter.mp (h.map.mem_iff.mp hmem)).1
    exact absurd (List.mem_map.mpr ⟨w, hes, hkey⟩) hnew
  | ingress _ hord hget =>
    have hs : isStructural e = false := hord
    refine ⟨h.next, by simp [hold, h.queue, hs], ?_, ?_, h.limit, h.count⟩
    · have hins := p.buffer.values_insert_perm_of_get_none hget
      simp only [hold, List.filter_append, List.filter_cons, hs, Bool.not_false, List.filter_nil,
        if_true]
      exact hins.trans ((h.map.cons e).trans (List.perm_append_singleton e _).symm)
    · simp only [hold, hsum, h.bytes, List.filter_append, List.filter_cons, hs, Bool.not_false,
        if_true, List.filter_nil, List.map_append, List.map_cons, List.map_nil, List.sum_append,
        List.sum_cons, List.sum_nil, Nat.add_zero]

lemma load_loaded {maxBytes s : U64} (pre es : List Event) {b : ReorderBuffer}
    (h : Loaded maxBytes s pre b) (hne : pre ≠ [])
    (hseq : ∀ e ∈ es, s ≤ e.seqNum) (hnodup : ((pre ++ es).map Event.seqNum).Nodup)
    (hcount : (pre ++ es).length ≤ 100000)
    (hbytes : ((pre ++ es).map eventSize).sum ≤ maxBytes.val) :
    Loaded maxBytes s (pre ++ es) (b.load es) := by
  induction es generalizing pre b with
  | nil => simpa [load] using h
  | cons e es ih =>
    rw [List.append_cons] at hnodup hcount hbytes ⊢
    have hheld : b.held ≠ [] := fun hnil => hne (List.Perm.nil_eq (hnil ▸ h.held_perm)).symm
    have hprep : b.prepare e = b :=
      prepare_eq_of_le (fun hb => hheld hb.2) (h.next ▸ hseq e (by simp))
    have hstep := b.push_spec e
    rw [hprep] at hstep
    have hfresh : e.seqNum ∉ pre.map Event.seqNum := by
      simp only [List.map_append, List.nodup_append, List.map_cons, List.map_nil] at hnodup
      intro hmem
      exact hnodup.1.2.2 _ hmem _ (by simp) rfl
    have hlen : pre.length < 100000 := by
      simp only [List.length_append, List.length_cons, List.length_nil] at hcount
      omega
    have hfit : ((pre ++ [e]).map eventSize).sum ≤ maxBytes.val := by
      rw [List.map_append, List.sum_append] at hbytes
      omega
    exact ih (pre ++ [e]) (hstep.loaded h hfresh hlen hfit) (by simp)
      (fun x hx => hseq x (List.mem_cons_of_mem _ hx)) hnodup hcount hbytes

/-! ## Draining -/

/-- The structural queue is ascending and the held numbers are the `n` next ones. -/
structure Due (n : ℕ) (b : ReorderBuffer) : Prop where
  numbers : (b.held.map (fun e => e.seqNum.val)).Perm (List.range' b.nextSeq.val n)
  queue : b.structuralQueue.Pairwise (fun x y => x.seqNum < y.seqNum)

lemma Due.held_ge {n : ℕ} {b : ReorderBuffer} (h : b.Due n) {e : Event} (he : e ∈ b.held) :
    b.nextSeq.val ≤ e.seqNum.val := by
  have hmem := h.numbers.mem_iff.mp (List.mem_map.mpr ⟨e, he, rfl⟩)
  simp only [List.mem_range'_1] at hmem
  omega

/-- With an ascending queue the candidate is a least held event. -/
lemma candidate_le_held {b : ReorderBuffer} {e : Event} {c : Bool}
    (hc : b.candidate = some (e, c))
    (hq : b.structuralQueue.Pairwise (fun x y => x.seqNum < y.seqNum)) :
    ∀ w ∈ b.held, e.seqNum ≤ w.seqNum := by
  intro w hw
  rcases List.mem_append.mp hw with hmap | hqueue
  · exact candidate_le_buffer hc w hmap
  cases c with
  | true =>
    obtain ⟨q, hb, -⟩ := candidate_structural hc
    rw [hb] at hqueue hq
    rcases List.mem_cons.mp hqueue with rfl | hin
    · exact le_refl _
    · exact le_of_lt ((List.pairwise_cons.mp hq).1 w hin)
  | false =>
    have hlt := (candidate_ingress hc).2
    cases hb : b.structuralQueue with
    | nil => simp [hb] at hqueue
    | cons s q =>
      rw [hb] at hqueue hq hlt
      have hes : e.seqNum < s.seqNum := hlt s (by simp)
      rcases List.mem_cons.mp hqueue with rfl | hin
      · exact le_of_lt hes
      · exact le_of_lt (hes.trans ((List.pairwise_cons.mp hq).1 w hin))

lemma Due.candidate_eq {n : ℕ} {b : ReorderBuffer} (h : b.Due (n + 1)) {e : Event} {c : Bool}
    (hc : b.candidate = some (e, c)) : e.seqNum = b.nextSeq := by
  have hfirst : b.nextSeq.val ∈ b.held.map (fun e => e.seqNum.val) := by
    rw [h.numbers.mem_iff, List.mem_range'_1]
    omega
  obtain ⟨w, hw, hval⟩ := List.mem_map.mp hfirst
  have hle : e.seqNum.val ≤ w.seqNum.val := candidate_le_held hc h.queue w hw
  have hge := h.held_ge (candidate_mem_held hc)
  exact Fin.ext (by omega)

/-- Removing the due event leaves the remaining numbers due. -/
lemma Due.advance {n : ℕ} {b b' : ReorderBuffer} {e : Event} (h : b.Due (n + 1))
    (heq : e.seqNum = b.nextSeq) (hheld : b.held.Perm (e :: b'.held))
    (hq : b'.structuralQueue.Sublist b.structuralQueue) (hnext : b'.nextSeq = b.nextSeq + 1) :
    b'.Due n := by
  refine ⟨?_, h.queue.sublist hq⟩
  have hperm : (e.seqNum.val :: b'.held.map (fun e => e.seqNum.val)).Perm
      (b.nextSeq.val :: List.range' (b.nextSeq.val + 1) n) := by
    rw [← List.range'_succ]
    exact ((hheld.map (fun e => e.seqNum.val)).symm).trans h.numbers
  rw [heq] at hperm
  have hrest := hperm.cons_inv
  cases n with
  | zero => simpa using hrest
  | succ n =>
    -- some held event carries the next number, so the increment does not wrap
    have hmem : b.nextSeq.val + 1 ∈ b'.held.map (fun e => e.seqNum.val) := by
      rw [hrest.mem_iff, List.mem_range'_1]
      omega
    obtain ⟨w, -, hw⟩ := List.mem_map.mp hmem
    have hval : b'.nextSeq.val = b.nextSeq.val + 1 := by
      rw [hnext, Fin.val_add, Fin.val_one]
      exact Nat.mod_eq_of_lt (hw ▸ w.seqNum.isLt)
    rwa [hval]

lemma advance_due (b : ReorderBuffer) {e : Event} (h : e.seqNum = b.nextSeq) :
    b.advance e = { b with stalledSince := none, nextSeq := b.nextSeq + 1 } := by
  simp [ReorderBuffer.advance, deliver, h]

/-- A pop of a due buffer returns the next number and counts nothing. -/
lemma PopStep.due {n : ℕ} {b b' : ReorderBuffer} {r : Option Event} (hs : PopStep b r b')
    (h : b.Due (n + 1)) :
    ∃ e, r = some e ∧ b'.Due n ∧ b.held.Perm (e :: b'.held) ∧ e.seqNum = b.nextSeq ∧
      (∀ w ∈ b'.held, e.seqNum < w.seqNum) ∧
      b'.sequenceGaps = b.sequenceGaps ∧ b'.lateEvents = b.lateEvents := by
  have habove : ∀ {e : Event} {p : ReorderBuffer}, e.seqNum = b.nextSeq →
      b.held.Perm (e :: p.held) → ∀ w ∈ p.held, e.seqNum < w.seqNum := by
    intro e p heq hheld w hw
    have hnodup : (b.held.map (fun e => e.seqNum.val)).Nodup :=
      h.numbers.nodup_iff.mpr List.nodup_range'
    rw [(hheld.map _).nodup_iff, List.map_cons, List.nodup_cons] at hnodup
    have hne : w.seqNum.val ≠ e.seqNum.val := fun hval =>
      hnodup.1 (List.mem_map.mpr ⟨w, hw, hval⟩)
    have hge := h.held_ge (hheld.symm.subset (List.mem_cons_of_mem _ hw))
    rw [← heq] at hge
    exact Fin.lt_def.mpr (by omega)
  cases hs with
  | idle hempty =>
    have hlen := h.numbers.length_eq
    simp [hempty] at hlen
  | wait e c t hc hlt | gap e c t hc hlt => exact absurd (h.candidate_eq hc) (ne_of_gt hlt)
  | structural e hc hle =>
    have heq := h.candidate_eq hc
    have hheld := dropStructural_held hc
    have hadv := advance_due b.dropStructural heq
    refine ⟨e, rfl, h.advance heq (by simpa using hheld) ?_ ?_, by simpa using hheld, heq,
      by simpa using habove heq hheld, by rw [hadv]; rfl, by rw [hadv]; rfl⟩
    · simpa [dropStructural] using List.tail_sublist b.structuralQueue
    · rw [hadv]
      rfl
  | ingress e hc hle =>
    have heq := h.candidate_eq hc
    have hheld := dropIngress_held hc
    have hadv := advance_due (b.dropIngress e) heq
    refine ⟨e, rfl, h.advance heq (by simpa using hheld) ?_ ?_, by simpa using hheld, heq,
      by simpa using habove heq hheld, by rw [hadv]; rfl, by rw [hadv]; rfl⟩
    · simp [dropIngress]
    · rw [hadv]
      rfl

lemma drain_due {n : ℕ} {b : ReorderBuffer} (nows : List ℕ) (h : b.Due n)
    (hfuel : n < nows.length) : RestoresOrder nows b b.held := by
  induction n generalizing b nows with
  | zero =>
    have hempty : b.held = [] := by simpa using h.numbers.length_eq
    cases nows with
    | nil => simp at hfuel
    | cons now nows =>
      have hcand := b.candidate_eq_none_iff.mpr hempty
      exact ⟨[], b, by simp [drain, pop, hcand], by simp [hempty], .nil, rfl, rfl⟩
  | succ n ih =>
    cases nows with
    | nil => simp at hfuel
    | cons now nows =>
      obtain ⟨e, hpop, hdue, hheld, -, habove, hgaps, hlate⟩ := (b.pop_spec now).due h
      obtain ⟨out, b', hdrain, hperm, hsorted, hgaps', hlate'⟩ :=
        ih nows hdue (by simpa using hfuel)
      refine ⟨e :: out, b', ?_, (hperm.cons e).trans hheld.symm, ?_, hgaps'.trans hgaps,
        hlate'.trans hlate⟩
      · rw [drain, ← Prod.mk.eta (p := b.pop now), hpop]
        simp [hdrain]
      · exact List.pairwise_cons.mpr ⟨fun w hw => habove w (hperm.subset hw), hsorted⟩

/-! ## The order of the queue shows in what is drained -/

lemma PopStep.queue {b b' : ReorderBuffer} {e : Event} (hs : PopStep b (some e) b')
    (hgaps : b'.sequenceGaps = b.sequenceGaps) :
    b.held.length = b'.held.length + 1 ∧
      (b.structuralQueue = b'.structuralQueue ∨ b.structuralQueue = e :: b'.structuralQueue) := by
  cases hs with
  | gap _ c t hc hlt => simp at hgaps
  | structural _ hc hle =>
    obtain ⟨q, hq, -⟩ := candidate_structural hc
    refine ⟨by simpa using (dropStructural_held hc).length_eq, .inr ?_⟩
    simp [dropStructural, hq]
  | ingress _ hc hle =>
    exact ⟨by simpa using (dropIngress_held hc).length_eq, .inl (by simp [dropIngress])⟩

lemma PopStep.gaps_le {b b' : ReorderBuffer} {r : Option Event} (hs : PopStep b r b') :
    b.sequenceGaps ≤ b'.sequenceGaps := by
  have hadv : ∀ (p : ReorderBuffer) (e : Event), (p.advance e).sequenceGaps = p.sequenceGaps := by
    intro p e
    unfold ReorderBuffer.advance deliver
    split_ifs <;> rfl
  cases hs with
  | idle _ => exact le_refl _
  | wait _ _ _ _ _ => exact le_refl _
  | gap _ _ _ _ _ => exact Nat.le_succ _
  | structural e _ _ => exact (hadv b.dropStructural e).ge
  | ingress e _ _ => exact (hadv (b.dropIngress e) e).ge

lemma drain_gaps_le {nows : List ℕ} {b b' : ReorderBuffer} {out : List Event}
    (h : b.drain nows = some (out, b')) : b.sequenceGaps ≤ b'.sequenceGaps := by
  induction nows generalizing b out with
  | nil => simp [drain] at h
  | cons now nows ih =>
    have hs := b.pop_spec now
    rw [drain] at h
    cases hpop : b.pop now with
    | mk r p =>
      rw [hpop] at h hs
      cases r with
      | none =>
        obtain ⟨-, rfl⟩ : [] = out ∧ p = b' := by simpa using h
        exact hs.gaps_le
      | some e =>
        obtain ⟨r, hr, hout⟩ := Option.map_eq_some_iff.mp h
        obtain ⟨-, rfl⟩ := Prod.mk.inj hout
        exact hs.gaps_le.trans (ih hr)

/-- Without gaps, the structural events come out in the order of their queue. -/
lemma drain_queue {nows : List ℕ} {b b' : ReorderBuffer} {out : List Event}
    (h : b.drain nows = some (out, b')) (hgaps : b'.sequenceGaps = b.sequenceGaps)
    (hlen : b.held.length ≤ out.length) : b.structuralQueue.Sublist out := by
  induction nows generalizing b out with
  | nil => simp [drain] at h
  | cons now nows ih =>
    have hs := b.pop_spec now
    rw [drain] at h
    cases hpop : b.pop now with
    | mk r p =>
      rw [hpop] at h hs
      cases r with
      | none =>
        obtain ⟨rfl, -⟩ : [] = out ∧ p = b' := by simpa using h
        simp only [held, List.length_append, List.length_nil] at hlen
        rw [List.eq_nil_of_length_eq_zero (by omega : b.structuralQueue.length = 0)]
      | some e =>
        obtain ⟨⟨rest, last⟩, hr, hout⟩ := Option.map_eq_some_iff.mp h
        obtain ⟨rfl, rfl⟩ := Prod.mk.inj hout
        have hgap : p.sequenceGaps = b.sequenceGaps :=
          le_antisymm (hgaps ▸ drain_gaps_le hr) hs.gaps_le
        obtain ⟨hone, hq⟩ := PopStep.queue hs hgap
        dsimp only at hone hq
        have hsub := ih hr (hgaps.trans hgap.symm) (by
          simp only [List.length_cons] at hlen
          omega)
        rcases hq with hq | hq
        · exact hq ▸ hsub.cons e
        · exact hq ▸ hsub.cons_cons e

/-- Events numbered consecutively from the first arrival are drained in order
exactly when the structural ones among them arrived in order. -/
theorem restoresOrder_iff (latency maxBytes s : U64) (first : Event) (es : List Event)
    (nows : List ℕ) (hfirst : first.seqNum = s)
    (hseq : ((first :: es).map (fun e => e.seqNum.val)).Perm
      (List.range' s.val (first :: es).length))
    (hcount : (first :: es).length ≤ 100000)
    (hbytes : ((first :: es).map eventSize).sum ≤ maxBytes.val)
    (hfuel : (first :: es).length < nows.length) :
    RestoresOrder nows ((new latency maxBytes).load (first :: es)) (first :: es) ↔
      ((first :: es).filter isStructural).Pairwise (fun x y => x.seqNum < y.seqNum) := by
  have hnodup : ((first :: es).map Event.seqNum).Nodup := by
    have h := hseq.nodup_iff.mpr List.nodup_range'
    have hcomp : (first :: es).map (fun e => e.seqNum.val) =
        ((first :: es).map Event.seqNum).map Fin.val := by simp
    rw [hcomp] at h
    exact h.of_map _
  have hge : ∀ e ∈ es, s ≤ e.seqNum := by
    intro e he
    have h := hseq.mem_iff.mp (List.mem_map.mpr ⟨e, List.mem_cons_of_mem _ he, rfl⟩)
    exact Fin.le_def.mpr (List.mem_range'_1.mp h).1
  have hone : Loaded maxBytes s [first] ((new latency maxBytes).push first).2 := by
    have hstep := (new latency maxBytes).push_spec first
    have hprep : (new latency maxBytes).prepare first =
        { new latency maxBytes with nextSeq := s } := by
      have hp := (new latency maxBytes).prepare_spec first
      generalize (new latency maxBytes).prepare first = p at hp ⊢
      cases hp with
      | first _ _ => rw [hfirst]
      | wrap hw => simp [isWrapped, new, U64.max] at hw
      | keep hinit _ => exact absurd ⟨rfl, rfl⟩ hinit
    rw [hprep] at hstep
    have hempty : Loaded maxBytes s [] { new latency maxBytes with nextSeq := s } :=
      ⟨rfl, rfl, .nil, rfl, rfl, rfl⟩
    refine hstep.loaded hempty (by simp) (by simp) ?_
    simp only [List.map_cons, List.sum_cons] at hbytes
    simp
    omega
  have hloaded : Loaded maxBytes s (first :: es) ((new latency maxBytes).load (first :: es)) :=
    load_loaded [first] es hone (by simp) hge hnodup hcount hbytes
  generalize (new latency maxBytes).load (first :: es) = b at hloaded ⊢
  constructor
  · rintro ⟨out, b', hdrain, hperm, hsorted, hgaps, -⟩
    have hlen : b.held.length ≤ out.length := by
      rw [hperm.length_eq, hloaded.held_perm.length_eq]
    have hsub := drain_queue hdrain hgaps hlen
    rw [hloaded.queue] at hsub
    exact hsorted.sublist hsub
  · intro hasc
    have hdue : b.Due (first :: es).length := by
      refine ⟨?_, by rwa [hloaded.queue]⟩
      rw [hloaded.next]
      exact (hloaded.held_perm.map _).trans hseq
    obtain ⟨out, b', hdrain, hperm, hrest⟩ := drain_due nows hdue hfuel
    exact ⟨out, b', hdrain, hperm.trans hloaded.held_perm, hrest⟩

def mkdirAt (n : U64) : Event := { Event.zero with eventType := .mkdir, seqNum := n }

/-- Two directories whose events arrive in the wrong order: the buffer waits for
number 6 although it holds it, and the drain ends after number 5. -/
theorem swappedMkdirs_not_restored :
    ¬RestoresOrder [0, 0, 0, 0] ((new 50 1000).load [mkdirAt 5, mkdirAt 7, mkdirAt 6])
      [mkdirAt 5, mkdirAt 7, mkdirAt 6] := by
  rintro ⟨out, b', hdrain, hperm, -⟩
  have hout : (((new 50 1000).load [mkdirAt 5, mkdirAt 7, mkdirAt 6]).drain
      [0, 0, 0, 0]).map Prod.fst = some [mkdirAt 5] := by decide
  rw [hdrain] at hout
  have hlen := hperm.length_eq
  simp_all

/-- A directory between two writes that arrive in the wrong order. -/
theorem swappedWrites_restored :
    RestoresOrder [0, 0, 0, 0]
      ((new 50 1000).load [{ Event.zero with eventType := .write, seqNum := 5 },
        { Event.zero with eventType := .write, seqNum := 7 }, mkdirAt 6])
      [{ Event.zero with eventType := .write, seqNum := 5 },
        { Event.zero with eventType := .write, seqNum := 7 }, mkdirAt 6] :=
  (restoresOrder_iff 50 1000 5 _ _ [0, 0, 0, 0] rfl (by decide) (by decide) (by decide)
    (by decide)).mpr (by decide)

end Foxing.ReorderBuffer
