import Mathlib.Data.List.Sigma
import Foxing.Coalescer

/-!
# Where pushed events go

Beside the coalescer a ledger keeps every pushed event with its number: as long as it is a
row of the batch, with the event that a pop has returned for it, among the rows that a
pruning has removed together, or as lost. The batch does not have the numbers; that its
rows are those of the ledger is shown.
-/
namespace Foxing.CoalescerLedger

open EventBatch Coalescer

/-- A pushed event with its number. -/
abbrev Row := Event × ℕ

def events (rows : List Row) : EventBatch := rows.map Prod.fst

/-! ## Rows -/

/-- The rows that a pruning removes. -/
def pruned (mDepth : ℕ) (rows : List Row) : List Row :=
  (rows.take mDepth).filter fun r => r.1.inode ∈ unlinkedInodes (events (rows.take mDepth))

def kept (mDepth : ℕ) (rows : List Row) : List Row :=
  (rows.take mDepth).filter (fun r => r.1.inode ∉ unlinkedInodes (events (rows.take mDepth))) ++
    rows.drop mDepth

/-- Whether the rows behind the head are merged. -/
def marks (head : Event) (limit : U64) (window : EventBatch) : List Bool :=
  (scanHead head limit window).2.map Prod.snd

/-- The rows with this mark. -/
def pick (mark : Bool) (rows : List Row) (marks : List Bool) : List Row :=
  ((rows.zip marks).filter fun x => x.2 = mark).map Prod.fst

/-- The rows that are returned as one event, and those that stay. -/
def split (scanDepth : ℕ) (limit : U64) : List Row → List Row × List Row
  | [] => ([], [])
  | head :: rest =>
    if head.1.eventType.isWrite then
      let n := reach scanDepth (events (head :: rest))
      let ms := marks head.1 limit (events (rest.take n))
      (head :: pick true (rest.take n) ms, pick false (rest.take n) ms ++ rest.drop n)
    else ([head], rest)

/-- The rows that the forced merges of a push drop, and those that stay. -/
def force : ℕ → List Row → List Row × List Row
  | 0, rows => ([], rows)
  | fuel + 1, rows =>
    let t := split rows.length U64.max rows
    if t.2.length ≤ frontierWidthLimit then t
    else
      let f := force fuel t.2
      (t.1 ++ f.1, f.2)

/-! ## The ledger -/

structure Ledger where
  coalescer : Coalescer
  pushed : List Event
  rows : List Row
  returned : List (Event × List Row)
  prunings : List (List Row)
  lost : List Row

namespace Ledger

def start (c : Coalescer) : Ledger := ⟨c, [], [], [], [], []⟩

def append (l : Ledger) (e : Event) : Ledger :=
  { l with pushed := l.pushed ++ [e], rows := l.rows ++ [(e, l.pushed.length)] }

def prune (l : Ledger) (mDepth : ℕ) : Ledger :=
  { l with rows := kept mDepth l.rows, prunings := l.prunings ++ [pruned mDepth l.rows] }

def narrow (l : Ledger) : Ledger :=
  { l with
    rows := (force l.rows.length l.rows).2
    lost := l.lost ++ (force l.rows.length l.rows).1 }

/-- Push beyond the frontier. -/
def bound (l : Ledger) : Ledger :=
  if frontierWidthLimit < l.rows.length then
    let l := l.prune l.rows.length
    if frontierWidthLimit < l.rows.length then l.narrow else l
  else l

/-- A merge with the head, if an event is returned. -/
def give (l : Ledger) (scanDepth : ℕ) (limit : U64) : Option Event → Ledger
  | none => l
  | some evt =>
    { l with
      rows := (split scanDepth limit l.rows).2
      returned := l.returned ++ [(evt, (split scanDepth limit l.rows).1)] }

def apply (l : Ledger) : Op → Ledger
  | .push e => { (l.append e).bound with coalescer := l.coalescer.push e }
  | .popBatch limitBytes maxLatency isBusy now =>
    let r := l.coalescer.popBatch limitBytes maxLatency isBusy now
    { l.give l.coalescer.scanDepth.val limitBytes r.1 with coalescer := r.2 }
  | .tryElasticCoalesce baseLimit maxCapacity now =>
    if l.coalescer.batch.isEmpty then l
    else
      let m := (l.coalescer.elasticDepth maxCapacity).val
      let depth :=
        if (l.coalescer.pruneTransientLifecycles m).1 then l.coalescer.scanDepth.val else m
      let r := l.coalescer.tryElasticCoalesce baseLimit maxCapacity now
      { (l.prune m).give depth baseLimit r.1 with coalescer := r.2 }

end Ledger

/-! ## What becomes of an event -/

/-- The returned event is this one, or a write that covers all of its bytes. -/
def Carries (evt e : Event) : Prop :=
  evt = e ∨ evt.eventType.isWrite = true ∧ evt.inode = e.inode ∧
    ∀ p, EventBatch.start e ≤ p → p < stop e → EventBatch.start evt ≤ p ∧ p < stop evt

/-- The inode is created and unlinked later. -/
def CreatedThenUnlinked (inode : U64) (es : List Event) : Prop :=
  ∃ c u, [c, u].Sublist es ∧ c.eventType = .create ∧ c.inode = inode ∧
    u.eventType = .unlink ∧ u.inode = inode

/-- Every pushed event is in the batch, has been returned, alone or in a write that covers it, or was
removed together with the creation and a later unlink of its inode. -/
def Accounted (l : Ledger) : Prop :=
  ∀ i e, l.pushed[i]? = some e → (e, i) ∈ l.rows ∨
    (∃ entry ∈ l.returned, (e, i) ∈ entry.2 ∧ Carries entry.1 e) ∨
    ∃ rows ∈ l.prunings, (e, i) ∈ rows ∧ CreatedThenUnlinked e.inode (events rows)

/-- The range that is merged and the length fit in 64 bits wherever a row is merged that has
bytes. -/
def FitsFrom (head : Event) (limit : U64) : U64 → U64 → List Event → Prop
  | _, _, [] => True
  | mergedLen, endOffset, r :: rs =>
    if continues head limit mergedLen endOffset r then
      (0 < r.length.val →
        head.offset.val + mergedLen.val < 2 ^ 64 ∧ mergedLen.val + r.length.val < 2 ^ 64) ∧
      FitsFrom head limit (mergedLen + r.length) (endOffset + r.length) rs
    else FitsFrom head limit mergedLen endOffset rs

def Fits (scanDepth : ℕ) (limit : U64) : EventBatch → Prop
  | [] => True
  | head :: rest =>
    head.eventType.isWrite = true → FitsFrom head limit head.length (head.offset + head.length)
      (rest.take (reach scanDepth (head :: rest)))

/-- The call prunes only inodes that are created among the rows that it looks at and unlinked later,
its merges fit, and a push does not leave the batch too wide. -/
def Careful (c : Coalescer) (op : Op) : Prop :=
  (∀ inode ∈ unlinkedInodes (c.pruneWindow op), CreatedThenUnlinked inode (c.pruneWindow op)) ∧
    (∀ m ∈ c.merges op, Fits m.scanDepth m.limit m.batch) ∧ ∀ e, op = .push e → c.merges op = []

/-! ## The rows are those of the batch -/

section Rows
variable {rows : List Row}

theorem events_kept (mDepth : ℕ) (rows : List Row) :
    events (kept mDepth rows) = Coalescer.prune mDepth (events rows) := by
  simp only [kept, Coalescer.prune, events, List.map_append, List.map_drop, ← List.map_take,
    List.filter_map]
  rfl

theorem perm_kept (mDepth : ℕ) (rows : List Row) :
    (kept mDepth rows ++ pruned mDepth rows).Perm rows := by
  have hsplit := List.filter_append_perm
    (fun r : Row => decide (r.1.inode ∈ unlinkedInodes (events (rows.take mDepth))))
    (rows.take mDepth)
  have hnot : ∀ r : Row, (decide (r.1.inode ∉ unlinkedInodes (events (rows.take mDepth)))) =
      !(decide (r.1.inode ∈ unlinkedInodes (events (rows.take mDepth)))) := fun r => decide_not
  rw [kept, pruned]
  simp only [hnot]
  conv_rhs => rw [← List.take_append_drop mDepth rows]
  refine List.perm_append_comm.trans ?_
  rw [← List.append_assoc]
  exact hsplit.append_right _

theorem events_pick {marked : List (Event × Bool)} (h : marked.map Prod.fst = events rows)
    (mark : Bool) : events (pick mark rows (marked.map Prod.snd)) =
      (marked.filter fun x => x.2 = mark).map Prod.fst := by
  induction rows generalizing marked with
  | nil =>
    rw [List.map_eq_nil_iff.mp h]
    rfl
  | cons r rows ih =>
    cases marked with
    | nil => cases h
    | cons x marked =>
      obtain ⟨hx, hrest⟩ := List.cons.inj h
      have ih := ih hrest
      simp only [pick, List.map_cons, List.zip_cons_cons, List.filter_cons] at ih ⊢
      by_cases hmark : x.2 = mark
      · simp only [hmark, decide_true, if_true, List.map_cons, events] at ih ⊢
        rw [ih]
        exact congrArg (· :: _) hx.symm
      · simp only [hmark, decide_false, Bool.false_eq_true, if_false]
        exact ih

theorem perm_pick {marks : List Bool} (h : marks.length = rows.length) :
    (pick true rows marks ++ pick false rows marks).Perm rows := by
  have hsplit := List.filter_append_perm (fun x : Row × Bool => decide (x.2 = true))
    (rows.zip marks)
  have hnot : ∀ x : Row × Bool, decide (x.2 = false) = !(decide (x.2 = true)) := by
    intro x
    cases x.2 <;> rfl
  have hmap := hsplit.map Prod.fst
  rw [List.map_append, List.map_fst_zip h.ge] at hmap
  simp only [pick, hnot]
  exact hmap

theorem length_marks (head : Event) (limit : U64) (window : List Event) :
    (marks head limit window).length = window.length := by
  have hmap := congrArg List.length
    (map_fst_scan head limit head.length (head.offset + head.length) window)
  rw [List.length_map] at hmap
  rw [marks, List.length_map]
  exact hmap

theorem events_pick_false {head : Event} {limit : U64} (rows : List Row) :
    events (pick false rows (marks head limit (events rows))) =
      unmerged (scanHead head limit (events rows)).2 := by
  have hnot : ∀ x : Event × Bool, decide (x.2 = false) = !x.2 := by
    intro x
    cases x.2 <;> rfl
  rw [marks, scanHead, events_pick (map_fst_scan head limit _ _ _), unmerged]
  simp only [hnot]

theorem events_split (scanDepth : ℕ) (limit : U64) (rows : List Row) :
    events (split scanDepth limit rows).2 = (tryCoalesceHead scanDepth limit (events rows)).2 := by
  cases rows with
  | nil => rfl
  | cons head rest =>
    have hcons : events (head :: rest) = head.1 :: events rest := rfl
    rw [split, hcons, tryCoalesceHead]
    split_ifs with hw
    · have htake : (events rest).take (reach scanDepth (head.1 :: events rest)) =
          events (rest.take (reach scanDepth (head.1 :: events rest))) := List.map_take.symm
      dsimp only
      rw [htake, ← events_pick_false, events, List.map_append, List.map_drop]
      rfl
    · rfl

theorem perm_split (scanDepth : ℕ) (limit : U64) (rows : List Row) :
    ((split scanDepth limit rows).1 ++ (split scanDepth limit rows).2).Perm rows := by
  cases rows with
  | nil => exact List.Perm.nil
  | cons head rest =>
    rw [split]
    split_ifs with hw
    · dsimp only
      generalize reach scanDepth (events (head :: rest)) = n
      rw [List.cons_append, ← List.append_assoc]
      refine List.Perm.cons _ ?_
      conv_rhs => rw [← List.take_append_drop n rest]
      refine (perm_pick ?_).append_right _
      rw [length_marks, events, List.length_map]
    · exact List.Perm.refl _

theorem length_events (rows : List Row) : (events rows).length = rows.length := List.length_map _

theorem events_force (fuel : ℕ) (rows : List Row) :
    events (force fuel rows).2 = forceCoalesce fuel (events rows) := by
  induction fuel generalizing rows with
  | zero => rfl
  | succ fuel ih =>
    have hsplit := events_split rows.length U64.max rows
    rw [← length_events rows] at hsplit
    rw [force, forceCoalesce_succ, ← hsplit]
    dsimp only
    rw [length_events, length_events]
    split_ifs with hnarrow
    · rfl
    · exact ih _

theorem perm_force (fuel : ℕ) (rows : List Row) :
    ((force fuel rows).1 ++ (force fuel rows).2).Perm rows := by
  induction fuel generalizing rows with
  | zero => exact List.Perm.refl _
  | succ fuel ih =>
    rw [force]
    dsimp only
    split_ifs with hnarrow
    · exact perm_split _ _ _
    · rw [List.append_assoc]
      exact ((ih _).append_left _).trans (perm_split _ _ _)

end Rows

/-! ## One place for every event -/

namespace Ledger

/-- The rows at all places. -/
def places (l : Ledger) : List Row :=
  l.rows ++ (l.returned.flatMap Prod.snd ++ (l.prunings.flatten ++ l.lost))

/-- Every pushed event is at one place, and the rows are those of the batch. -/
structure Kept (l : Ledger) : Prop where
  conserved : l.places.Perm l.pushed.zipIdx
  rows : events l.rows = l.coalescer.batch

variable {l : Ledger}

/-- Rows that leave a place for another one. -/
theorem perm_moved {a b rows : List Row} (h : (a ++ b).Perm rows) (x y : List Row) :
    (a ++ (x ++ (b ++ y))).Perm (rows ++ (x ++ y)) := by
  refine ((List.perm_append_comm_assoc x b y).append_left a).trans ?_
  rw [← List.append_assoc]
  exact h.append_right _

theorem places_append (l : Ledger) (e : Event) :
    (l.append e).places.Perm (l.places ++ [(e, l.pushed.length)]) := by
  simp only [places, append, List.append_assoc]
  exact List.perm_append_comm.append_left _ |>.trans (by simp only [List.append_assoc]; rfl)

theorem places_prune (l : Ledger) (mDepth : ℕ) : (l.prune mDepth).places.Perm l.places := by
  have hmoved := perm_moved (perm_kept mDepth l.rows)
    (l.returned.flatMap Prod.snd ++ l.prunings.flatten) l.lost
  simp only [places, prune, List.flatten_append, List.flatten_singleton]
  simpa only [List.append_assoc] using hmoved

theorem places_narrow (l : Ledger) : l.narrow.places.Perm l.places := by
  have hmoved := perm_moved (List.perm_append_comm.trans (perm_force l.rows.length l.rows))
    (l.returned.flatMap Prod.snd ++ (l.prunings.flatten ++ l.lost)) []
  simpa only [places, narrow, List.append_assoc, List.append_nil] using hmoved

theorem places_give (l : Ledger) (scanDepth : ℕ) (limit : U64) (evt : Option Event) :
    (l.give scanDepth limit evt).places.Perm l.places := by
  cases evt with
  | none => exact List.Perm.refl _
  | some evt =>
    have hmoved := perm_moved (List.perm_append_comm.trans (perm_split scanDepth limit l.rows))
      (l.returned.flatMap Prod.snd) (l.prunings.flatten ++ l.lost)
    simp only [places, give, List.flatMap_append, List.flatMap_singleton]
    simpa only [List.append_assoc] using hmoved

theorem places_bound (l : Ledger) : l.bound.places.Perm l.places := by
  unfold bound
  dsimp only
  split_ifs
  · exact (places_narrow _).trans (places_prune _ _)
  · exact places_prune _ _
  · exact List.Perm.refl _

theorem pushed_bound (l : Ledger) : l.bound.pushed = l.pushed := by
  unfold bound
  dsimp only
  split_ifs <;> rfl

theorem pushed_give (l : Ledger) (scanDepth : ℕ) (limit : U64) (evt : Option Event) :
    (l.give scanDepth limit evt).pushed = l.pushed := by
  cases evt <;> rfl

theorem returned_give (l : Ledger) (scanDepth : ℕ) (limit : U64) (evt : Option Event) :
    (l.give scanDepth limit evt).returned.map Prod.fst =
      l.returned.map Prod.fst ++ evt.toList := by
  cases evt with
  | none => exact (List.append_nil _).symm
  | some evt => exact List.map_append

/-- No call takes an event from its place without another one. -/
theorem conserved_apply (h : l.places.Perm l.pushed.zipIdx) (op : Op) :
    (l.apply op).places.Perm (l.apply op).pushed.zipIdx := by
  cases op with
  | push e =>
    have hplaces := (places_bound (l.append e)).trans (places_append l e)
    have hpushed : (l.append e).bound.pushed.zipIdx =
        l.pushed.zipIdx ++ [(e, l.pushed.length)] := by
      rw [pushed_bound]
      simp [append, List.zipIdx_append]
    show (l.append e).bound.places.Perm (l.append e).bound.pushed.zipIdx
    rw [hpushed]
    exact hplaces.trans (h.append_right _)
  | popBatch limitBytes maxLatency isBusy now =>
    rw [apply]
    show (l.give _ _ _).places.Perm (l.give _ _ _).pushed.zipIdx
    rw [pushed_give]
    exact (places_give _ _ _ _).trans h
  | tryElasticCoalesce baseLimit maxCapacity now =>
    rw [apply]
    split_ifs
    · exact h
    · show ((l.prune _).give _ _ _).places.Perm ((l.prune _).give _ _ _).pushed.zipIdx
      rw [pushed_give]
      exact (places_give _ _ _ _).trans ((places_prune _ _).trans h)

/-! ### The rows of the batch -/

theorem rows_bound (h : events l.rows = l.coalescer.batch) (e : Event) :
    events (l.append e).bound.rows = (l.coalescer.push e).batch := by
  have happend : events (l.append e).rows = (l.coalescer.append e).batch := by
    rw [Coalescer.append, ← h]
    exact List.map_append
  have hlen : (l.append e).rows.length = (l.coalescer.append e).batch.length := by
    rw [← happend, length_events]
  have hkept : events ((l.append e).prune (l.coalescer.append e).batch.length).rows =
      Coalescer.prune (l.coalescer.append e).batch.length (l.coalescer.append e).batch := by
    rw [← happend]
    exact events_kept _ _
  have hlen' : ((l.append e).prune (l.coalescer.append e).batch.length).rows.length =
      (Coalescer.prune (l.coalescer.append e).batch.length
        (l.coalescer.append e).batch).length := by
    rw [← hkept, length_events]
  unfold bound Coalescer.push
  dsimp only [pruneTransientLifecycles]
  rw [hlen, hlen']
  split_ifs with hwide hstill
  · show events (force _ _).2 = _
    rw [events_force, hlen', hkept]
  · exact hkept
  · exact happend

/-- What is returned takes the rows that it is made of. -/
theorem rows_give {scanDepth : ℕ} {limit : U64} {batch : EventBatch}
    (h : events l.rows = batch) :
    events (l.give scanDepth limit (tryCoalesceHead scanDepth limit batch).1).rows =
      (tryCoalesceHead scanDepth limit batch).2 := by
  rw [← h, ← events_split]
  cases hrows : l.rows with
  | nil => simp [events, tryCoalesceHead, give, hrows, split]
  | cons head rest =>
    have hsome : ∃ evt, (tryCoalesceHead scanDepth limit (events (head :: rest))).1 = some evt := by
      have hcons : events (head :: rest) = head.1 :: events rest := rfl
      rw [hcons, tryCoalesceHead]
      split_ifs
      · exact ⟨_, rfl⟩
      · exact ⟨_, rfl⟩
    obtain ⟨evt, hevt⟩ := hsome
    rw [hevt, give, hrows]

theorem rows_apply (h : events l.rows = l.coalescer.batch) (op : Op) :
    events (l.apply op).rows = (l.apply op).coalescer.batch := by
  cases op with
  | push e => exact rows_bound h e
  | popBatch limitBytes maxLatency isBusy now =>
    show events (l.give _ _ _).rows = _
    rcases l.coalescer.popBatch_cases limitBytes maxLatency isBusy now with
      ⟨hnone, hbatch⟩ | ⟨hevt, hbatch, -⟩
    · show _ = (l.coalescer.popBatch limitBytes maxLatency isBusy now).2.batch
      rw [hnone, hbatch]
      exact h
    · show _ = (l.coalescer.popBatch limitBytes maxLatency isBusy now).2.batch
      rw [hevt, hbatch]
      exact rows_give h
  | tryElasticCoalesce baseLimit maxCapacity now =>
    rw [apply]
    split_ifs with hempty
    · exact h
    · have hkept : events (l.prune (l.coalescer.elasticDepth maxCapacity).val).rows =
          Coalescer.prune (l.coalescer.elasticDepth maxCapacity).val l.coalescer.batch := by
        rw [← h]
        exact events_kept _ _
      show events ((l.prune _).give _ _ _).rows =
        (l.coalescer.tryElasticCoalesce baseLimit maxCapacity now).2.batch
      rw [tryElasticCoalesce, if_neg hempty]
      dsimp only
      split_ifs with hpruned
      · rcases (l.coalescer.pruneTransientLifecycles
          (l.coalescer.elasticDepth maxCapacity).val).2.popBatch_cases baseLimit 0 false now with
          ⟨hnone, hbatch⟩ | ⟨hevt, hbatch, -⟩
        · rw [hnone, hbatch]
          exact hkept
        · rw [hevt, hbatch]
          exact rows_give hkept
      · exact rows_give hkept

theorem kept_apply (h : l.Kept) (op : Op) : (l.apply op).Kept :=
  ⟨conserved_apply h.conserved op, rows_apply h.rows op⟩

theorem kept_start (scanDepth : U64) (now : ℕ) : (start (Coalescer.new scanDepth now)).Kept :=
  ⟨List.Perm.nil, rfl⟩

/-! ## What is returned carries its rows -/

/-- Nothing is lost, and what left the batch did so for a reason. -/
structure Sound (l : Ledger) : Prop where
  lost : l.lost = []
  returned : ∀ entry ∈ l.returned, ∀ r ∈ entry.2, Carries entry.1 r.1
  prunings : ∀ rows ∈ l.prunings, ∀ r ∈ rows, CreatedThenUnlinked r.1.inode (events rows)

/-- Two members of a list without repetitions have nothing in common. -/
theorem eq_of_mem_flatMap {α β : Type*} {f : α → List β} {as : List α} (h : (as.flatMap f).Nodup)
    {a a' : α} {b : β} (ha : a ∈ as) (ha' : a' ∈ as) (hb : b ∈ f a) (hb' : b ∈ f a') : a = a' := by
  by_contra hne
  have hsymm : Std.Symm (Function.onFun List.Disjoint f) :=
    ⟨fun _ _ hdisjoint => List.Disjoint.symm hdisjoint⟩
  have hdisjoint := (List.nodup_flatMap.mp h).2.forall ha ha' hne
  exact hdisjoint hb hb'

theorem accounted_iff_sound (h : l.Kept) : Accounted l ↔ l.Sound := by
  have hmem : ∀ r : Row, r ∈ l.places ↔ l.pushed[r.2]? = some r.1 := by
    intro r
    rw [h.conserved.mem_iff, List.mem_zipIdx_iff_getElem?]
  have hnodup : l.places.Nodup :=
    h.conserved.nodup_iff.mpr (List.Nodup.of_map _ (List.nodup_zipIdx_map_snd l.pushed))
  have hreturned : ∀ entry ∈ l.returned, ∀ r ∈ entry.2, r ∈ l.returned.flatMap Prod.snd :=
    fun entry hentry r hr => List.mem_flatMap.mpr ⟨entry, hentry, hr⟩
  have hprunings : ∀ rows ∈ l.prunings, ∀ r ∈ rows, r ∈ l.prunings.flatten :=
    fun rows hrows r hr => List.mem_flatten.mpr ⟨rows, hrows, hr⟩
  rw [places, List.nodup_append, List.nodup_append, List.nodup_append] at hnodup
  obtain ⟨-, ⟨hnodup₁, ⟨hnodup₂, -, hlost⟩, hother⟩, hrows⟩ := hnodup
  simp only [places, List.mem_append] at hmem
  constructor
  · intro haccounted
    refine ⟨List.eq_nil_iff_forall_not_mem.mpr fun r hr => ?_, fun entry hentry r hr => ?_,
      fun rows hin r hr => ?_⟩
    · rcases haccounted r.2 r.1 ((hmem r).mp (.inr (.inr (.inr hr)))) with
        hin | ⟨entry, hentry, hin, -⟩ | ⟨rows, hpruned, hin, -⟩
      · exact hrows _ hin _ (by simp [hr]) rfl
      · exact hother _ (hreturned _ hentry _ hin) _ (by simp [hr]) rfl
      · exact hlost _ (hprunings _ hpruned _ hin) _ hr rfl
    · have hr' := hreturned _ hentry _ hr
      rcases haccounted r.2 r.1 ((hmem r).mp (.inr (.inl hr'))) with
        hin | ⟨entry', hentry', hin, hcarries⟩ | ⟨rows, hpruned, hin, -⟩
      · exact absurd rfl (hrows _ hin _ (by simp [hr']))
      · rwa [eq_of_mem_flatMap hnodup₁ hentry hentry' hr hin]
      · exact absurd rfl (hother _ hr' _ (by simp [hprunings _ hpruned _ hin]))
    · have hr' := hprunings _ hin _ hr
      rcases haccounted r.2 r.1 ((hmem r).mp (.inr (.inr (.inl hr')))) with
        hin' | ⟨entry, hentry, hin', -⟩ | ⟨rows', hpruned, hin', htransient⟩
      · exact absurd rfl (hrows _ hin' _ (by simp [hr']))
      · exact absurd rfl (hother _ (hreturned _ hentry _ hin') _ (by simp [hr']))
      · rw [← List.flatMap_id] at hnodup₂
        rwa [eq_of_mem_flatMap hnodup₂ hin hpruned hr hin']
  · intro hsound i e hpushed
    rcases (hmem (e, i)).mpr hpushed with hin | hin | hin | hin
    · exact .inl hin
    · obtain ⟨entry, hentry, hin⟩ := List.mem_flatMap.mp hin
      exact .inr (.inl ⟨entry, hentry, hin, hsound.returned entry hentry _ hin⟩)
    · obtain ⟨rows, hpruned, hin⟩ := List.mem_flatten.mp hin
      exact .inr (.inr ⟨rows, hpruned, hin, hsound.prunings rows hpruned _ hin⟩)
    · rw [hsound.lost] at hin
      cases hin

end Ledger

/-! ## Merges -/

section Merges
variable {head : Event} {limit : U64}

/-- The bytes of a row are among those of a range. -/
def Within (e : Event) (lo hi : ℕ) : Prop :=
  ∀ p, EventBatch.start e ≤ p → p < stop e → lo ≤ p ∧ p < hi

/-- Where everything fits, the merged rows are in the range that is returned. -/
theorem within_of_fits {mergedLen : U64} {rows : List Event}
    (h : FitsFrom head limit mergedLen (head.offset + mergedLen) rows) :
    mergedLen.val ≤ (scan head limit mergedLen (head.offset + mergedLen) rows).1.val ∧
      ∀ x ∈ (scan head limit mergedLen (head.offset + mergedLen) rows).2, x.2 = true →
        Within x.1 head.offset.val
          (head.offset.val + (scan head limit mergedLen (head.offset + mergedLen) rows).1.val) := by
  induction rows generalizing mergedLen with
  | nil => exact ⟨le_rfl, fun x hx => by cases hx⟩
  | cons r rs ih =>
    rw [FitsFrom] at h
    rw [scan]
    split_ifs at h ⊢ with hc
    · obtain ⟨hfits, hrest⟩ := h
      rw [add_assoc] at hrest ⊢
      obtain ⟨hle, hall⟩ := ih hrest
      have hoffset : r.offset = head.offset + mergedLen := hc.2.2.2.1
      rcases Nat.eq_zero_or_pos r.length.val with hzero | hpos
      · have hr : r.length = 0 := Fin.ext hzero
        have hsame : mergedLen + r.length = mergedLen := by rw [hr, add_zero]
        dsimp only
        refine ⟨by rwa [hsame] at hle ⊢, fun x hx hmark => ?_⟩
        rcases List.mem_cons.mp hx with rfl | hx
        · intro p hlo hhi
          rw [EventBatch.start] at hlo
          rw [stop] at hhi
          dsimp only at hlo hhi
          omega
        · exact hall x hx hmark
      · obtain ⟨hend, hlen⟩ := hfits hpos
        have hsum : (mergedLen + r.length).val = mergedLen.val + r.length.val := by
          rw [Fin.val_add]
          exact Nat.mod_eq_of_lt hlen
        have hstart : r.offset.val = head.offset.val + mergedLen.val := by
          rw [hoffset, Fin.val_add]
          exact Nat.mod_eq_of_lt hend
        rw [hsum] at hle
        dsimp only
        refine ⟨by omega, fun x hx hmark => ?_⟩
        rcases List.mem_cons.mp hx with rfl | hx
        · intro p hlo hhi
          rw [EventBatch.start] at hlo
          rw [stop] at hhi
          dsimp only at hlo hhi
          omega
        · exact hall x hx hmark
    · obtain ⟨hle, hall⟩ := ih h
      refine ⟨hle, fun x hx hmark => ?_⟩
      rcases List.mem_cons.mp hx with rfl | hx
      · cases hmark
      · exact hall x hx hmark

/-- Where something does not fit, some merged row is in no range of 64 bits from there. -/
theorem exists_not_within {mergedLen : U64} {rows : List Event}
    (h : ¬ FitsFrom head limit mergedLen (head.offset + mergedLen) rows) :
    ∃ x ∈ (scan head limit mergedLen (head.offset + mergedLen) rows).2, x.2 = true ∧
      ∀ n < 2 ^ 64, ¬ Within x.1 head.offset.val (head.offset.val + n) := by
  induction rows generalizing mergedLen with
  | nil => exact absurd trivial h
  | cons r rs ih =>
    rw [FitsFrom] at h
    rw [scan]
    split_ifs at h ⊢ with hc
    · rw [not_and_or] at h
      have hoffset : r.offset = head.offset + mergedLen := hc.2.2.2.1
      rcases h with hfits | hrest
      · refine ⟨(r, true), List.mem_cons_self .., rfl, fun n hn hwithin => hfits fun hpos => ?_⟩
        have hval : r.offset.val = (head.offset.val + mergedLen.val) % 2 ^ 64 := by
          rw [hoffset, Fin.val_add]
        have hstart := hwithin r.offset.val le_rfl (by rw [stop]; dsimp only; omega)
        have hstop := hwithin (r.offset.val + r.length.val - 1)
          (by rw [EventBatch.start]; dsimp only; omega) (by rw [stop]; dsimp only; omega)
        have := mergedLen.isLt
        omega
      · rw [add_assoc] at hrest ⊢
        obtain ⟨x, hx, hmark, hnot⟩ := ih hrest
        exact ⟨x, List.mem_cons_of_mem _ hx, hmark, hnot⟩
    · obtain ⟨x, hx, hmark, hnot⟩ := ih h
      exact ⟨x, List.mem_cons_of_mem _ hx, hmark, hnot⟩

/-- A row with this mark is one of the scan. -/
theorem mem_pick_iff {rows : List Row} {e : Event} :
    e ∈ events (pick true rows (marks head limit (events rows))) ↔
      (e, true) ∈ (scanHead head limit (events rows)).2 := by
  rw [marks, scanHead, events_pick (map_fst_scan head limit _ _ _), List.mem_map]
  constructor
  · rintro ⟨⟨x, mark⟩, hx, rfl⟩
    obtain ⟨hx, hmark⟩ := List.mem_filter.mp hx
    obtain rfl : mark = true := of_decide_eq_true hmark
    exact hx
  · intro h
    exact ⟨(e, true), List.mem_filter.mpr ⟨h, rfl⟩, rfl⟩

theorem inode_of_mem_scan {mergedLen endOffset : U64} {rows : List Event} {x : Event × Bool}
    (h : x ∈ (scan head limit mergedLen endOffset rows).2) (hmark : x.2 = true) :
    x.1.inode = head.inode := by
  induction rows generalizing mergedLen endOffset with
  | nil => cases h
  | cons r rs ih =>
    rw [scan] at h
    split_ifs at h with hc
    · rcases List.mem_cons.mp h with rfl | h
      · exact hc.2.1
      · exact ih h
    · rcases List.mem_cons.mp h with rfl | h
      · cases hmark
      · exact ih h

/-- What a merge returns carries the rows that it is made of exactly if the merge fits. -/
theorem carries_iff_fits {scanDepth : ℕ} {rows : List Row} {evt : Event}
    (hevt : (tryCoalesceHead scanDepth limit (events rows)).1 = some evt) :
    (∀ r ∈ (split scanDepth limit rows).1, Carries evt r.1) ↔
      Fits scanDepth limit (events rows) := by
  cases rows with
  | nil => cases hevt
  | cons head rest =>
    have hcons : events (head :: rest) = head.1 :: events rest := rfl
    rw [hcons, tryCoalesceHead] at hevt
    rw [split, hcons, Fits]
    split_ifs at hevt ⊢ with hw
    · dsimp only at hevt ⊢
      have htake : (events rest).take (reach scanDepth (head.1 :: events rest)) =
          events (rest.take (reach scanDepth (head.1 :: events rest))) := List.map_take.symm
      rw [htake] at hevt ⊢
      generalize rest.take (reach scanDepth (head.1 :: events rest)) = window at hevt ⊢
      obtain rfl := Option.some.inj hevt
      rw [List.forall_mem_cons, forall_prop_of_true hw]
      have hpick : (∀ r ∈ pick true window (marks head.1 limit (events window)),
          Carries (head.1.withLength (scanHead head.1 limit (events window)).1) r.1) ↔
          ∀ x ∈ (scanHead head.1 limit (events window)).2, x.2 = true →
            Carries (head.1.withLength (scanHead head.1 limit (events window)).1) x.1 := by
        constructor
        · rintro h ⟨e, mark⟩ hx rfl
          obtain ⟨r, hr, rfl⟩ := List.mem_map.mp (mem_pick_iff.mpr hx)
          exact h r hr
        · intro h r hr
          exact h (r.1, true) (mem_pick_iff.mp (List.mem_map_of_mem hr)) rfl
      rw [hpick]
      constructor
      · rintro ⟨-, h⟩
        by_contra hfits
        obtain ⟨x, hx, hmark, hnot⟩ := exists_not_within hfits
        refine hnot (scanHead head.1 limit (events window)).1.val (Fin.isLt _) ?_
        rcases h x hx hmark with heq | ⟨-, -, hwithin⟩
        · intro p hlo hhi
          rw [← heq] at hlo hhi
          exact ⟨hlo, hhi⟩
        · exact hwithin
      · intro hfits
        obtain ⟨hle, hall⟩ := within_of_fits hfits
        refine ⟨.inr ⟨hw, rfl, fun p hlo hhi => ⟨hlo, ?_⟩⟩, fun x hx hmark =>
          .inr ⟨hw, (inode_of_mem_scan hx hmark).symm, hall x hx hmark⟩⟩
        rw [stop] at hhi ⊢
        exact hhi.trans_le (Nat.add_le_add_left hle _)
    · obtain rfl := Option.some.inj hevt
      refine iff_of_true (fun r hr => ?_) fun hwrite => absurd hwrite hw
      rw [List.mem_singleton.mp hr]
      exact .inl rfl

end Merges

/-! ## Prunings -/

theorem mem_unlinkedInodes {inode : U64} {window : List Event} :
    inode ∈ unlinkedInodes window ↔
      ∃ e ∈ window, e.eventType = .unlink ∧ e.inode = inode := by
  simp [unlinkedInodes, and_assoc]

theorem CreatedThenUnlinked.mono {inode : U64} {es es' : List Event}
    (h : CreatedThenUnlinked inode es) (hsub : es.Sublist es') : CreatedThenUnlinked inode es' := by
  obtain ⟨c, u, hcu, hrest⟩ := h
  exact ⟨c, u, hcu.trans hsub, hrest⟩

theorem events_pruned (mDepth : ℕ) (rows : List Row) :
    events (pruned mDepth rows) = ((events rows).take mDepth).filter fun e =>
      e.inode ∈ unlinkedInodes ((events rows).take mDepth) := by
  simp only [pruned, events, ← List.map_take, List.filter_map]
  rfl

/-- What is removed is created and unlinked if that is so for every inode that is unlinked. -/
theorem pruned_iff (mDepth : ℕ) (rows : List Row) :
    (∀ r ∈ pruned mDepth rows, CreatedThenUnlinked r.1.inode (events (pruned mDepth rows))) ↔
      ∀ inode ∈ unlinkedInodes ((events rows).take mDepth),
        CreatedThenUnlinked inode ((events rows).take mDepth) := by
  rw [events_pruned]
  constructor
  · intro h inode hinode
    obtain ⟨e, he, -, rfl⟩ := mem_unlinkedInodes.mp hinode
    have hin : e ∈ events (pruned mDepth rows) := by
      rw [events_pruned]
      exact List.mem_filter.mpr ⟨he, decide_eq_true hinode⟩
    obtain ⟨r, hr, rfl⟩ := List.mem_map.mp hin
    exact (h r hr).mono List.filter_sublist
  · intro h r hr
    have hin : r.1 ∈ events (pruned mDepth rows) := List.mem_map_of_mem hr
    rw [events_pruned] at hin
    have hinode := of_decide_eq_true (List.mem_filter.mp hin).2
    obtain ⟨c, u, hcu, hc, hc', hu, hu'⟩ := h _ hinode
    refine ⟨c, u, ?_, hc, hc', hu, hu'⟩
    have hfilter := hcu.filter
      (fun e => decide (e.inode ∈ unlinkedInodes ((events rows).take mDepth)))
    simp only [List.filter_cons, List.filter_nil, hc', hu', hinode, decide_true, if_true] at hfilter
    exact hfilter

/-! ## Calls -/

namespace Ledger
variable {l : Ledger}

theorem sound_start (scanDepth : U64) (now : ℕ) :
    (start (Coalescer.new scanDepth now)).Sound := by
  refine ⟨rfl, fun entry hentry => ?_, fun rows hrows => ?_⟩
  · cases hentry
  · cases hrows

theorem sound_append (l : Ledger) (e : Event) : (l.append e).Sound ↔ l.Sound :=
  ⟨fun h => ⟨h.lost, h.returned, h.prunings⟩, fun h => ⟨h.lost, h.returned, h.prunings⟩⟩

theorem sound_prune (l : Ledger) (mDepth : ℕ) :
    (l.prune mDepth).Sound ↔ l.Sound ∧ ∀ inode ∈ unlinkedInodes ((events l.rows).take mDepth),
      CreatedThenUnlinked inode ((events l.rows).take mDepth) := by
  rw [← pruned_iff]
  constructor
  · intro h
    refine ⟨⟨h.lost, h.returned, fun rows hrows => ?_⟩, ?_⟩
    · exact h.prunings rows (List.mem_append_left _ hrows)
    · exact h.prunings _ (List.mem_append_right _ (List.mem_singleton_self _))
  · rintro ⟨h, hpruned⟩
    refine ⟨h.lost, h.returned, fun rows hrows => ?_⟩
    rcases List.mem_append.mp hrows with hrows | hrows
    · exact h.prunings rows hrows
    · rw [List.mem_singleton.mp hrows]
      exact hpruned

theorem sound_give (l : Ledger) {scanDepth : ℕ} {limit : U64} {batch : EventBatch}
    (h : events l.rows = batch) :
    (l.give scanDepth limit (tryCoalesceHead scanDepth limit batch).1).Sound ↔
      l.Sound ∧ Fits scanDepth limit batch := by
  cases hevt : (tryCoalesceHead scanDepth limit batch).1 with
  | none =>
    have hnil : batch = [] := by
      cases batch with
      | nil => rfl
      | cons head rest =>
        rw [tryCoalesceHead] at hevt
        split_ifs at hevt
    rw [hnil]
    exact (and_iff_left trivial).symm
  | some evt =>
    rw [← h] at hevt ⊢
    rw [← carries_iff_fits hevt]
    constructor
    · intro hs
      refine ⟨⟨hs.lost, fun entry hentry => ?_, hs.prunings⟩, ?_⟩
      · exact hs.returned entry (List.mem_append_left _ hentry)
      · exact hs.returned _ (List.mem_append_right _ (List.mem_singleton_self _))
    · rintro ⟨hs, hcarries⟩
      refine ⟨hs.lost, fun entry hentry => ?_, hs.prunings⟩
      rcases List.mem_append.mp hentry with hentry | hentry
      · exact hs.returned entry hentry
      · rw [List.mem_singleton.mp hentry]
        exact hcarries

theorem sound_coalescer (l : Ledger) (c : Coalescer) : { l with coalescer := c }.Sound ↔ l.Sound :=
  ⟨fun h => ⟨h.lost, h.returned, h.prunings⟩, fun h => ⟨h.lost, h.returned, h.prunings⟩⟩

/-- The forced merges lose the head at least. -/
theorem not_sound_narrow (hwide : frontierWidthLimit < l.rows.length) : ¬ l.narrow.Sound := by
  intro h
  have hlost := h.lost
  cases hrows : l.rows with
  | nil =>
    rw [hrows] at hwide
    exact absurd hwide (Nat.not_lt_zero _)
  | cons head rest =>
    rw [narrow, hrows, List.length_cons, force] at hlost
    have hsplit : (split (head :: rest).length U64.max (head :: rest)).1 ≠ [] := by
      rw [split]
      split_ifs
      · exact List.cons_ne_nil _ _
      · exact List.cons_ne_nil _ _
    dsimp only at hlost
    split_ifs at hlost
    · exact hsplit (List.append_eq_nil_iff.mp hlost).2
    · exact hsplit (List.append_eq_nil_iff.mp (List.append_eq_nil_iff.mp hlost).2).1

theorem fits_of_not_write (scanDepth : ℕ) (limit : U64) {e : Event} (rest : List Event)
    (h : e.eventType.isWrite = false) : Fits scanDepth limit (e :: rest) :=
  fun hw => absurd hw (by simp [h])

/-- A pop returns what carries its rows, if the merge fits that it makes. -/
theorem sound_pop (l : Ledger) {c : Coalescer} (h : events l.rows = c.batch) (limitBytes : U64)
    (maxLatency : ℕ) (isBusy : Bool) (now : ℕ) :
    (l.give c.scanDepth.val limitBytes (c.popBatch limitBytes maxLatency isBusy now).1).Sound ↔
      l.Sound ∧ (¬ c.defers limitBytes maxLatency isBusy now →
        Fits c.scanDepth.val limitBytes c.batch) := by
  rcases c.popBatch_cases limitBytes maxLatency isBusy now with ⟨hnone, -⟩ | ⟨hevt, -, hcase⟩
  · rw [hnone]
    refine (and_iff_left fun hdefers => ?_).symm
    -- Nothing is returned, though nothing is deferred: there is nothing in the batch.
    cases hb : c.batch with
    | nil => trivial
    | cons head rest =>
      rw [popBatch, hb] at hnone
      dsimp only at hnone
      split_ifs at hnone with hw
      rw [tryCoalesceHead, if_pos (by simpa using hw)] at hnone
      cases hnone
  · rw [hevt, sound_give l h]
    refine and_congr_right fun _ => ?_
    rcases hcase with hdefers | ⟨e, rest, hb, hw⟩
    · exact ⟨fun hfits _ => hfits, fun hfits => hfits hdefers⟩
    · rw [hb]
      exact iff_of_true (fits_of_not_write _ _ rest hw) fun _ => fits_of_not_write _ _ rest hw

theorem merges_push_eq_nil_iff (c : Coalescer) (e : Event) :
    c.merges (.push e) = [] ↔ ¬ (frontierWidthLimit < (c.append e).batch.length ∧
      frontierWidthLimit <
        (Coalescer.prune (c.append e).batch.length (c.append e).batch).length) := by
  simp only [merges]
  split_ifs with hwide
  · refine iff_of_false (fun hnil => ?_) (not_not.mpr hwide)
    obtain ⟨n, hn⟩ := Nat.exists_eq_succ_of_ne_zero (Nat.ne_zero_of_lt hwide.2)
    rw [hn, forcedBatches] at hnil
    cases hnil
  · exact iff_of_true rfl hwide

theorem sound_push (h : l.Kept) (hs : l.Sound) (e : Event) :
    (l.append e).bound.Sound ↔ Careful l.coalescer (.push e) := by
  have happend : events (l.append e).rows = (l.coalescer.append e).batch := by
    rw [Coalescer.append, ← h.rows]
    exact List.map_append
  have hlen : (l.append e).rows.length = (l.coalescer.append e).batch.length := by
    rw [← happend, length_events]
  have hlen' : ((l.append e).prune (l.coalescer.append e).batch.length).rows.length =
      (Coalescer.prune (l.coalescer.append e).batch.length
        (l.coalescer.append e).batch).length := by
    rw [← hlen, ← happend, ← events_kept, length_events]
    rfl
  have hmerges := merges_push_eq_nil_iff l.coalescer e
  have hcareful : Careful l.coalescer (.push e) ↔
      (∀ inode ∈ unlinkedInodes (l.coalescer.pruneWindow (.push e)),
        CreatedThenUnlinked inode (l.coalescer.pruneWindow (.push e))) ∧
      l.coalescer.merges (.push e) = [] := by
    refine and_congr_right fun _ => ⟨fun hc => hc.2 e rfl, fun hnil => ⟨fun m hm => ?_, ?_⟩⟩
    · rw [hnil] at hm
      cases hm
    · rintro e' ⟨rfl⟩
      exact hnil
  rw [hcareful, hmerges, pruneWindow]
  unfold bound
  dsimp only
  rw [hlen, hlen']
  split_ifs with hwide hstill
  · exact iff_of_false (not_sound_narrow (hlen' ▸ hstill)) fun hc => hc.2 ⟨hwide, hstill⟩
  · rw [sound_prune, happend, List.take_length, sound_append]
    rw [and_iff_right hs, and_iff_left fun hboth => hstill hboth.2]
  · refine iff_of_true ((sound_append l e).mpr hs) ⟨fun inode hinode => ?_, fun hboth => hwide hboth.1⟩
    cases hinode

/-- A call leaves everything accounted for exactly if it is careful. -/
theorem sound_apply (h : l.Kept) (hs : l.Sound) (op : Op) :
    (l.apply op).Sound ↔ Careful l.coalescer op := by
  cases op with
  | push e =>
    rw [apply, sound_coalescer]
    exact sound_push h hs e
  | popBatch limitBytes maxLatency isBusy now =>
    rw [apply, sound_coalescer, sound_pop l h.rows, and_iff_right hs]
    simp only [Careful, pruneWindow, merges]
    split_ifs with hdefers
    · simp [hdefers, unlinkedInodes]
    · simp [hdefers, unlinkedInodes]
  | tryElasticCoalesce baseLimit maxCapacity now =>
    have hkept : events (l.prune (l.coalescer.elasticDepth maxCapacity).val).rows =
        Coalescer.prune (l.coalescer.elasticDepth maxCapacity).val l.coalescer.batch := by
      rw [← h.rows]
      exact events_kept _ _
    have hprune := sound_prune l (l.coalescer.elasticDepth maxCapacity).val
    rw [h.rows, and_iff_right hs] at hprune
    rw [apply]
    split_ifs with hempty
    · refine iff_of_true hs ?_
      rw [List.isEmpty_iff] at hempty
      simp [Careful, pruneWindow, merges, hempty, Coalescer.prune, unlinkedInodes,
        pruneTransientLifecycles, Fits]
    · rw [sound_coalescer, tryElasticCoalesce, if_neg hempty]
      simp only [Careful, pruneWindow, merges]
      split_ifs with hpruned
      · refine (sound_pop _ (c := (l.coalescer.pruneTransientLifecycles _).2) hkept baseLimit 0 false
          now).trans ?_
        rw [hprune]
        simp only [List.mem_singleton, forall_eq]
        refine and_congr_right fun _ => ⟨fun hfits => ⟨hfits ?_, fun _ => id⟩, fun hfits _ => hfits.1⟩
        rintro ⟨hbusy, -⟩
        cases hbusy
      · refine (sound_give _ hkept).trans ?_
        rw [hprune]
        simp only [List.mem_singleton, forall_eq]
        exact and_congr_right fun _ => ⟨fun hfits => ⟨hfits, fun _ => id⟩, fun hfits => hfits.1⟩

/-- The ledger goes along with the coalescer. -/
theorem pipe_apply (l : Ledger) (op : Op) :
    (⟨(l.apply op).coalescer, (l.apply op).pushed, (l.apply op).returned.map Prod.fst⟩ : Pipe) =
      (⟨l.coalescer, l.pushed, l.returned.map Prod.fst⟩ : Pipe).apply op := by
  cases op with
  | push e =>
    have hreturned : (l.append e).bound.returned = l.returned := by
      unfold bound
      dsimp only
      split_ifs <;> rfl
    simp only [apply, Pipe.apply, pushed_bound, hreturned]
    rfl
  | popBatch limitBytes maxLatency isBusy now =>
    simp only [apply, Pipe.apply, Pipe.take, pushed_give, returned_give]
  | tryElasticCoalesce baseLimit maxCapacity now =>
    rw [apply]
    split_ifs with hempty
    · simp [Pipe.apply, Pipe.take, tryElasticCoalesce, hempty]
    · simp only [Pipe.apply, Pipe.take, pushed_give, returned_give]
      rfl

end Ledger

/-- In every run, every pushed event is accounted for in every state if and only if every call is
careful. The calls of the ledger are those of the coalescer (`pipe_apply`). -/
theorem accounted_iff_careful (scanDepth : U64) (now : ℕ) (ops : List Op) :
    (∀ p, p <+: ops →
        Accounted (Run.exec Ledger.apply (.start (Coalescer.new scanDepth now)) p)) ↔
      Run.Along Ledger.apply (fun l op => Careful l.coalescer op)
        (.start (Coalescer.new scanDepth now)) ops := by
  have hkept : ∀ p : List Op,
      (Run.exec Ledger.apply (.start (Coalescer.new scanDepth now)) p).Kept := fun p =>
    Run.invariant_all (I := Ledger.Kept) Ledger.apply (fun _ op h => Ledger.kept_apply h op) p
      (Ledger.kept_start scanDepth now)
  simp only [fun p => Ledger.accounted_iff_sound (hkept p)]
  refine Run.forall_prefix_iff_along Ledger.apply (A := Ledger.Kept) (P := fun _ => True) ?_ ?_ ops
    (fun _ _ => trivial) (Ledger.kept_start scanDepth now) (Ledger.sound_start scanDepth now)
  · intro l op _ hl _
    exact Ledger.kept_apply hl op
  · intro l op _ hl hs
    exact Ledger.sound_apply hl hs op

/-! ## An unlink that is lost -/

def unlinkOf (inode : U64) : Event := { Event.zero with eventType := .unlink, inode := inode }

/-- A file that has been there for long is removed. -/
def unlinkRun : List Op := [.push (unlinkOf 7), .tryElasticCoalesce 100 100 0]

/-- Nothing is returned, and nothing waits. -/
theorem unlinkRun_lost :
    (Run.exec Pipe.apply (.start (Coalescer.new 64 0)) unlinkRun).popped = [] ∧
      (Run.exec Pipe.apply (.start (Coalescer.new 64 0)) unlinkRun).coalescer.batch = [] ∧
      ¬ ∀ p, p <+: unlinkRun →
        Accounted (Run.exec Ledger.apply (.start (Coalescer.new 64 0)) p) := by
  refine ⟨by decide, by decide, fun h => ?_⟩
  rcases h unlinkRun (List.prefix_refl _) 0 (unlinkOf 7) (by decide) with
    hin | ⟨entry, hentry, -⟩ | ⟨rows, hrows, -, c, u, hcu, hc, -⟩
  · revert hin
    decide
  · have hnone : (Run.exec Ledger.apply (.start (Coalescer.new 64 0)) unlinkRun).returned = [] := by
      decide
    rw [hnone] at hentry
    cases hentry
  · have hall : (Run.exec Ledger.apply (.start (Coalescer.new 64 0)) unlinkRun).prunings =
        [[(unlinkOf 7, 0)]] := by decide
    rw [hall, List.mem_singleton] at hrows
    rw [hrows] at hcu
    exact absurd hcu.length_le (by simp [events])

end Foxing.CoalescerLedger
