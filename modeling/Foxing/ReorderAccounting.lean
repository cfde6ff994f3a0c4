import Foxing.ReorderBuffer
import Foxing.Lib.Run
import Mathlib.Algebra.Order.BigOperators.Group.List
import Mathlib.Algebra.Order.Group.Nat

/-!
# Byte accounting of the reorder buffer

A push charges the size of what it stores and a pop refunds the size of what it
takes, but an overflow gap enters the map without a charge. The counter is
therefore exact along a run precisely when every overflow gap takes the place of
an event of its own size.
-/
namespace Foxing.ReorderBuffer

/-- The bytes that the mapped events would be charged. -/
def mappedBytes (b : ReorderBuffer) : ℕ := (b.buffer.values.map eventSize).sum

/-- The counter is exact, so a refund never underflows and the limit is tested
against the bytes really held. -/
structure ExactBytes (b : ReorderBuffer) : Prop where
  exact : b.currentPendingBytes.val = b.mappedBytes
  refund : ∀ e ∈ b.buffer.values, eventSize e ≤ b.currentPendingBytes.val
  limit : ∀ e, b.maxPendingBytes.val + eventSize e < 2 ^ 64 →
    (b.maxPendingBytes < b.currentPendingBytes + Fin.ofNat _ (eventSize e) ↔
      b.maxPendingBytes.val < b.mappedBytes + eventSize e)

/-- A push of an overflow gap keeps the counter exact only in the place of an
event of the same size. -/
def ChargesGap (b : ReorderBuffer) : Op → Prop
  | .push e => b.injects e → ∃ w, (b.prepare e).buffer.get (b.prepare e).nextSeq = some w ∧
      eventSize w = eventSize (b.overflowGap e)
  | .pop _ => True

lemma val_add_size {a : U64} {n : ℕ} (h : a.val + n < 2 ^ 64) :
    (a + Fin.ofNat _ n : U64).val = a.val + n := by
  rw [Fin.val_add, Fin.val_ofNat, Nat.add_mod_mod, Nat.mod_eq_of_lt h]

lemma val_sub_size {a : U64} {n : ℕ} (h : n ≤ a.val) :
    (a - Fin.ofNat _ n : U64).val = a.val - n := by
  have hn : n < 2 ^ 64 := h.trans_lt a.isLt
  have hle : (Fin.ofNat (2 ^ 64) n) ≤ a := by
    rw [Fin.le_def, Fin.val_ofNat, Nat.mod_eq_of_lt hn]
    exact h
  rw [Fin.sub_val_of_le hle, Fin.val_ofNat, Nat.mod_eq_of_lt hn]

/-- Exactness of the counter is the only field that has to be established. -/
lemma exactBytes_iff {b : ReorderBuffer} (hle : b.currentPendingBytes ≤ b.maxPendingBytes) :
    ExactBytes b ↔ b.currentPendingBytes.val = b.mappedBytes := by
  refine ⟨fun h => h.exact, fun h => ⟨h, fun e he => ?_, fun e he => ?_⟩⟩
  · rw [h]
    exact List.single_le_sum (by simp) _ (List.mem_map_of_mem he)
  · have hsum : b.currentPendingBytes.val + eventSize e < 2 ^ 64 := by
      rw [Fin.le_def] at hle
      omega
    rw [Fin.lt_def, val_add_size hsum, h]

lemma mappedBytes_of_perm {b c : ReorderBuffer} {e : Event}
    (h : c.buffer.values.Perm (e :: b.buffer.values)) :
    c.mappedBytes = eventSize e + b.mappedBytes := by
  simp only [mappedBytes, (h.map eventSize).sum_eq, List.map_cons, List.sum_cons]

/-- The auxiliary bound that keeps the byte sums below `2 ^ 64`. -/
def WithinLimit (b : ReorderBuffer) : Prop := b.currentPendingBytes ≤ b.maxPendingBytes


lemma prepare_accounting (b : ReorderBuffer) (e : Event) (hA : b.WithinLimit)
    (hI : b.currentPendingBytes.val = b.mappedBytes) :
    (b.prepare e).WithinLimit ∧
      (b.prepare e).currentPendingBytes.val = (b.prepare e).mappedBytes := by
  have hs := b.prepare_spec e
  generalize b.prepare e = c at hs ⊢
  cases hs with
  | first => exact ⟨hA, hI⟩
  | wrap => exact ⟨Fin.zero_le _, rfl⟩
  | keep => exact ⟨hA, hI⟩

/-- An accepted event is charged in full. -/
lemma hold_accounting {b : ReorderBuffer} {e : Event} (hA : b.WithinLimit)
    (hI : b.currentPendingBytes.val = b.mappedBytes)
    (hfit : b.maxPendingBytes.val + eventSize e < 2 ^ 64)
    (hrej : ¬b.rejects e) (hnew : b.buffer.get e.seqNum = none) :
    (b.hold e).WithinLimit ∧ (b.hold e).currentPendingBytes.val = (b.hold e).mappedBytes := by
  have hle : b.currentPendingBytes.val ≤ b.maxPendingBytes.val := hA
  have hval : (b.hold e).currentPendingBytes.val = b.currentPendingBytes.val + eventSize e :=
    val_add_size (by omega)
  refine ⟨?_, ?_⟩
  · simp only [rejects, not_or, not_lt] at hrej
    exact hrej.1
  · rw [hval, mappedBytes_of_perm (b.buffer.values_insert_perm_of_get_none hnew), hI]
    omega

/-- A gap takes the bytes of the event it replaces, or none, and is charged
nothing: the counter stays exact only if the sizes agree. -/
lemma inject_accounting {b : ReorderBuffer} (d : U32) (n : U64)
    (hI : b.currentPendingBytes.val = b.mappedBytes) :
    (b.injectGap d n).currentPendingBytes.val = (b.injectGap d n).mappedBytes ↔
      ∃ w, b.buffer.get b.nextSeq = some w ∧
        eventSize w = eventSize (gapEvent d b.nextSeq n "OVERFLOW_GAP") := by
  let g := gapEvent d b.nextSeq n "OVERFLOW_GAP"
  have hpos : 0 < eventSize g := by simp [eventSize]
  cases hget : b.buffer.get b.nextSeq with
  | none =>
    have hsum : (b.injectGap d n).mappedBytes = eventSize g + b.mappedBytes :=
      mappedBytes_of_perm (b.buffer.values_insert_perm_of_get_none (v := g) hget)
    have hcur : (b.injectGap d n).currentPendingBytes = b.currentPendingBytes := rfl
    rw [hcur, hsum, hI]
    simp only [reduceCtorEq, false_and, exists_false, iff_false]
    omega
  | some w =>
    let c : ReorderBuffer := { b with buffer := b.buffer.erase b.nextSeq }
    have hold : b.mappedBytes = eventSize w + c.mappedBytes :=
      mappedBytes_of_perm (b := c) (b.buffer.values_erase_perm hget)
    have hnew : (b.injectGap d n).mappedBytes = eventSize g + c.mappedBytes :=
      mappedBytes_of_perm (b := c) (b.buffer.values_insert_perm g)
    have hcur : (b.injectGap d n).currentPendingBytes = b.currentPendingBytes := rfl
    rw [hcur, hnew, hI, hold]
    simp only [Option.some.injEq, exists_eq_left']
    change _ ↔ _ = eventSize g
    omega

lemma PushStep.accounting {p c : ReorderBuffer} {e : Event} {r : Bool} (hs : PushStep p e r c)
    (hA : p.WithinLimit) (hI : p.currentPendingBytes.val = p.mappedBytes)
    (hfit : p.maxPendingBytes.val + eventSize e < 2 ^ 64) :
    c.WithinLimit ∧ (c.currentPendingBytes.val = c.mappedBytes ↔
      (p.rejects e ∧ p.nextSeq ≠ 0 ∧ p.nextSeq < e.seqNum →
        ∃ w, p.buffer.get p.nextSeq = some w ∧
          eventSize w = eventSize (gapEvent e.devId p.nextSeq e.seqNum "OVERFLOW_GAP"))) := by
  cases hs with
  | inject hrej hseq hlt =>
    refine ⟨hA, (inject_accounting e.devId e.seqNum hI).trans ?_⟩
    exact ⟨fun h _ => h, fun h => h ⟨hrej, hseq, hlt⟩⟩
  | reject hrej hno => exact ⟨hA, iff_of_true hI fun h => absurd h.2 hno⟩
  | structural hrej hord | duplicate hrej hord hdup =>
    exact ⟨hA, iff_of_true hI fun h => absurd h.1 hrej⟩
  | ingress hrej hord hnew =>
    obtain ⟨hA', hI'⟩ := hold_accounting hA hI hfit hrej hnew
    exact ⟨hA', iff_of_true hI' fun h => absurd h.1 hrej⟩

/-- A pop refunds exactly the size of the event that it takes from the map. -/
lemma dropIngress_accounting {b : ReorderBuffer} {e : Event} (hA : b.WithinLimit)
    (hI : b.currentPendingBytes.val = b.mappedBytes) (he : e ∈ b.buffer.values) :
    (b.dropIngress e).WithinLimit ∧
      (b.dropIngress e).currentPendingBytes.val = (b.dropIngress e).mappedBytes := by
  have hget : b.buffer.get e.seqNum = some e := (b.buffer.get_eq_some_iff _ _).mpr ⟨he, rfl⟩
  have hsum : b.mappedBytes = eventSize e + (b.dropIngress e).mappedBytes :=
    mappedBytes_of_perm (b.buffer.values_erase_perm hget)
  have hval : (b.dropIngress e).currentPendingBytes.val =
      b.currentPendingBytes.val - eventSize e := val_sub_size (by omega)
  have hle : b.currentPendingBytes.val ≤ b.maxPendingBytes.val := hA
  refine ⟨?_, by omega⟩
  change (b.dropIngress e).currentPendingBytes.val ≤ b.maxPendingBytes.val
  omega

lemma PopStep.accounting {b c : ReorderBuffer} {r : Option Event} (hs : PopStep b r c)
    (hA : b.WithinLimit) (hI : b.currentPendingBytes.val = b.mappedBytes) :
    c.WithinLimit ∧ c.currentPendingBytes.val = c.mappedBytes := by
  cases hs with
  | idle hempty => exact ⟨hA, hI⟩
  | wait e c t hc hlt => exact ⟨hA, hI⟩
  | gap e c t hc hlt => exact ⟨hA, hI⟩
  | structural e hc hle => simpa [WithinLimit, mappedBytes, dropStructural] using And.intro hA hI
  | ingress e hc hle =>
    have hdrop := dropIngress_accounting hA hI (b.buffer.first_mem (candidate_ingress hc).1)
    simpa [WithinLimit, mappedBytes] using hdrop

lemma PrepareStep.maxPendingBytes {b p : ReorderBuffer} {e : Event} (hs : PrepareStep b e p) :
    p.maxPendingBytes = b.maxPendingBytes := by
  cases hs <;> rfl

lemma PushStep.maxPendingBytes {p c : ReorderBuffer} {e : Event} {r : Bool}
    (hs : PushStep p e r c) : c.maxPendingBytes = p.maxPendingBytes := by
  cases hs <;> rfl

lemma PopStep.maxPendingBytes {b c : ReorderBuffer} {r : Option Event} (hs : PopStep b r c) :
    c.maxPendingBytes = b.maxPendingBytes := by
  cases hs <;> simp [dropStructural, dropIngress]

theorem push_accounting {b : ReorderBuffer} {e : Event} (hA : b.WithinLimit)
    (hI : b.currentPendingBytes.val = b.mappedBytes)
    (hfit : b.maxPendingBytes.val + eventSize e < 2 ^ 64) :
    (b.push e).2.WithinLimit ∧
      ((b.push e).2.currentPendingBytes.val = (b.push e).2.mappedBytes ↔
        b.ChargesGap (.push e)) := by
  obtain ⟨hA', hI'⟩ := b.prepare_accounting e hA hI
  exact (b.push_spec e).accounting hA' hI' (by rwa [(b.prepare_spec e).maxPendingBytes])

/-- The byte counter is exact in every state of a run exactly when no overflow
gap enters the map uncharged. A name longer than `2 ^ 64` bytes less the limit
does not fit in memory. -/
theorem exactBytes_iff_chargesGap (latency maxBytes : U64) (ops : List Op)
    (hfit : ∀ e, Op.push e ∈ ops → maxBytes.val + eventSize e < 2 ^ 64) :
    (∀ p, p <+: ops → ExactBytes (Run.exec apply (new latency maxBytes) p)) ↔
      Run.Along apply ChargesGap (new latency maxBytes) ops := by
  let A := fun b : ReorderBuffer => b.WithinLimit ∧ b.maxPendingBytes = maxBytes
  let P := fun op : Op => ∀ e, op = .push e → maxBytes.val + eventSize e < 2 ^ 64
  have hstep : ∀ b op, P op → A b → ExactBytes b →
      A (b.apply op) ∧ (ExactBytes (b.apply op) ↔ b.ChargesGap op) := by
    rintro b op hP ⟨hA, hmax⟩ hI
    cases op with
    | push e =>
      obtain ⟨hA', hiff⟩ := push_accounting hA hI.exact (by rw [hmax]; exact hP e rfl)
      exact ⟨⟨hA', ((b.push_spec e).maxPendingBytes.trans
        (b.prepare_spec e).maxPendingBytes).trans hmax⟩, (exactBytes_iff hA').trans hiff⟩
    | pop now =>
      obtain ⟨hA', hI'⟩ := (b.pop_spec now).accounting hA hI.exact
      exact ⟨⟨hA', (b.pop_spec now).maxPendingBytes.trans hmax⟩,
        iff_of_true ((exactBytes_iff hA').mpr hI') trivial⟩
  have hnew : (new latency maxBytes).WithinLimit := Fin.zero_le _
  exact Run.forall_prefix_iff_along apply (fun b op hP hA hI => (hstep b op hP hA hI).1)
    (fun b op hP hA hI => (hstep b op hP hA hI).2) ops
    (fun op hop e he => hfit e (he ▸ hop)) ⟨hnew, rfl⟩ ((exactBytes_iff hnew).mpr rfl)

/-- A first event, and a later one too large for a limit of 325 bytes. -/
def oversizeRun : List Op :=
  [.push { Event.zero with eventType := .write, seqNum := 5, name := "a" }, .pop 0,
    .push { Event.zero with eventType := .write, seqNum := 8, name := "abcdefgh" }, .pop 0]

/-- The refused event leaves an uncharged gap; its pop refunds 327 bytes that
were never charged and the counter wraps. -/
theorem oversizeRun_wraps :
    ¬(∀ p, p <+: oversizeRun → ExactBytes (Run.exec apply (new 50 325) p)) ∧
      (Run.exec apply (new 50 325) oversizeRun).currentPendingBytes.val = 2 ^ 64 - 327 ∧
      (Run.exec apply (new 50 325) oversizeRun).held = [] := by
  refine ⟨fun h => ?_, by decide, by decide⟩
  have hexact := (h oversizeRun (List.prefix_refl _)).exact
  revert hexact
  decide

/-- Without the oversized event the counter stays exact. -/
theorem small_run_exactBytes :
    ExactBytes (Run.exec apply (new 50 325) (oversizeRun.take 2)) := by
  refine (exactBytes_iff_chargesGap 50 325 (oversizeRun.take 2) ?_).mpr
    ⟨fun h => absurd h (by decide), trivial, trivial⟩ _ (List.prefix_refl _)
  intro e he
  simp only [oversizeRun, List.take_succ_cons, List.mem_cons, Op.push.injEq] at he
  rcases he with rfl | h | h
  · decide
  · cases h
  · simp at h

end Foxing.ReorderBuffer
