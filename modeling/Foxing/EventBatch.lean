import Foxing.FileModel
import Mathlib.Algebra.Group.Fin.Basic

/-!
# Event batches and write merging

A batch is the list of its rows. The source stores the fields that it scans as
parallel columns, which every operation changes in step with the rows, and it
searches the inode column with vector instructions; both only affect speed.

`tryCoalesceHead` merges later writes into the head of a batch. It passes over
the rows that it does not merge, so a merged write overtakes them. The second
half determines when that does not show in the files.
-/
namespace Foxing

abbrev EventBatch := List Event

namespace EventBatch

/-- The row is a write that continues the range merged so far. -/
def continues (head : Event) (limit mergedLen endOffset : U64) (r : Event) : Prop :=
  mergedLen < limit ∧ r.inode = head.inode ∧ r.eventType.isWrite = true ∧
    r.offset = endOffset ∧ r.name = head.name

instance (head : Event) (limit mergedLen endOffset : U64) (r : Event) :
    Decidable (continues head limit mergedLen endOffset r) :=
  inferInstanceAs (Decidable (_ ∧ _ ∧ _ ∧ _ ∧ _))

/-- The scan behind the head: the merged length, and the rows marked with
whether they are merged. Once the limit is reached nothing continues. -/
def scan (head : Event) (limit : U64) : U64 → U64 → List Event → U64 × List (Event × Bool)
  | mergedLen, _, [] => (mergedLen, [])
  | mergedLen, endOffset, r :: rs =>
    if continues head limit mergedLen endOffset r then
      let t := scan head limit (mergedLen + r.length) (endOffset + r.length) rs
      (t.1, (r, true) :: t.2)
    else
      let t := scan head limit mergedLen endOffset rs
      (t.1, (r, false) :: t.2)

/-- The scan of a batch with the given head, from the head's own range on. -/
def scanHead (head : Event) (limit : U64) (window : List Event) : U64 × List (Event × Bool) :=
  scan head limit head.length (head.offset + head.length) window

/-- The rows that are not merged. -/
def unmerged (marked : List (Event × Bool)) : List Event :=
  (marked.filter (fun r => !r.2)).map Prod.fst

/-- The number of rows behind the head that are scanned. -/
def reach (scanDepth : ℕ) (batch : EventBatch) : ℕ := min batch.length scanDepth - 1

def tryCoalesceHead (scanDepth : ℕ) (limit : U64) (batch : EventBatch) :
    Option Event × EventBatch :=
  match batch with
  | [] => (none, [])
  | head :: rest =>
    if head.eventType.isWrite then
      let n := reach scanDepth (head :: rest)
      let t := scanHead head limit (rest.take n)
      (some (head.withLength t.1), unmerged t.2 ++ rest.drop n)
    else (some head, rest)

/-! ## Merging in order -/

def start (e : Event) : ℕ := e.offset.val

def stop (e : Event) : ℕ := e.offset.val + e.length.val

/-- The ranges of the two events have a byte in common. -/
def Overlaps (x y : Event) : Prop := max (start x) (start y) < min (stop x) (stop y)

instance (x y : Event) : Decidable (Overlaps x y) := inferInstanceAs (Decidable (_ < _))

/-- No merged write overtakes a row of the same inode that is not a write or
that overlaps it. -/
def MergesInOrder (scanDepth : ℕ) (limit : U64) : EventBatch → Prop
  | [] => True
  | head :: rest =>
    head.eventType.isWrite = true →
      (scanHead head limit (rest.take (reach scanDepth (head :: rest)))).2.Pairwise
        (fun x y => y.2 = true → x.1.inode = head.inode →
          x.1.eventType.isWrite = true ∧ ¬Overlaps x.1 y.1)

/-- Every row that continues the merged range finds, among the rows `before` it,
only disjoint writes of the same inode, and neither the end of the merged range
nor its length leaves 64 bits. -/
def Unobstructed (head : Event) (limit : U64) : U64 → U64 → List Event → List Event → Prop
  | _, _, _, [] => True
  | mergedLen, endOffset, before, r :: rs =>
    if continues head limit mergedLen endOffset r then
      (∀ x ∈ before, x.inode = head.inode → x.eventType.isWrite = true ∧ ¬Overlaps x r) ∧
      head.offset.val + mergedLen.val < 2 ^ 64 ∧ mergedLen.val + r.length.val < 2 ^ 64 ∧
      Unobstructed head limit (mergedLen + r.length) (endOffset + r.length) (before ++ [r]) rs
    else Unobstructed head limit mergedLen endOffset (before ++ [r]) rs

instance decidableUnobstructed (head : Event) (limit : U64) :
    ∀ mergedLen endOffset before rows,
      Decidable (Unobstructed head limit mergedLen endOffset before rows)
  | _, _, _, [] => .isTrue trivial
  | mergedLen, endOffset, before, r :: rs =>
    if hc : continues head limit mergedLen endOffset r then
      have := decidableUnobstructed head limit (mergedLen + r.length) (endOffset + r.length)
        (before ++ [r]) rs
      decidable_of_iff (_ ∧ _ ∧ _ ∧ _) (by simp only [Unobstructed, if_pos hc]; exact Iff.rfl)
    else
      have := decidableUnobstructed head limit mergedLen endOffset (before ++ [r]) rs
      decidable_of_iff _ (by simp only [Unobstructed, if_neg hc]; exact Iff.rfl)

/-- Nothing that a write may not overtake stands in the scanned window before a
write that continues the head. -/
def Clear (scanDepth : ℕ) (limit : U64) : EventBatch → Prop
  | [] => True
  | head :: rest =>
    head.eventType.isWrite = true → Unobstructed head limit head.length
      (head.offset + head.length) [] (rest.take (reach scanDepth (head :: rest)))

/-- The scan keeps the rows in order. -/
lemma map_fst_scan (head : Event) (limit mergedLen endOffset : U64) (window : List Event) :
    (scan head limit mergedLen endOffset window).2.map Prod.fst = window := by
  induction window generalizing mergedLen endOffset with
  | nil => rfl
  | cons r rs ih =>
    rw [scan]
    split_ifs
    · exact congrArg (r :: ·) (ih _ _)
    · exact congrArg (r :: ·) (ih _ _)

lemma scan_pairwise {head : Event} {limit mergedLen endOffset : U64} {before rows : List Event}
    (h : Unobstructed head limit mergedLen endOffset before rows) :
    (∀ x ∈ before, ∀ y ∈ (scan head limit mergedLen endOffset rows).2, y.2 = true →
      x.inode = head.inode → x.eventType.isWrite = true ∧ ¬Overlaps x y.1) ∧
    (scan head limit mergedLen endOffset rows).2.Pairwise (fun x y => y.2 = true →
      x.1.inode = head.inode → x.1.eventType.isWrite = true ∧ ¬Overlaps x.1 y.1) := by
  induction rows generalizing mergedLen endOffset before with
  | nil => simp [scan]
  | cons r rs ih =>
    by_cases hc : continues head limit mergedLen endOffset r
    · simp only [Unobstructed, if_pos hc] at h
      obtain ⟨hbefore, -, -, hrest⟩ := h
      obtain ⟨hout, hin⟩ := ih hrest
      simp only [scan, if_pos hc]
      refine ⟨fun x hx y hy hm hino => ?_, List.pairwise_cons.mpr ⟨fun y hy hm hino => ?_, hin⟩⟩
      · rcases List.mem_cons.mp hy with rfl | hy
        · exact hbefore x hx hino
        · exact hout x (List.mem_append_left _ hx) y hy hm hino
      · exact hout r (by simp) y hy hm hino
    · simp only [Unobstructed, if_neg hc] at h
      obtain ⟨hout, hin⟩ := ih h
      simp only [scan, if_neg hc]
      refine ⟨fun x hx y hy hm hino => ?_, List.pairwise_cons.mpr ⟨fun y hy hm hino => ?_, hin⟩⟩
      · rcases List.mem_cons.mp hy with rfl | hy
        · simp at hm
        · exact hout x (List.mem_append_left _ hx) y hy hm hino
      · exact hout r (by simp) y hy hm hino

theorem Clear.mergesInOrder {scanDepth : ℕ} {limit : U64} {batch : EventBatch}
    (h : Clear scanDepth limit batch) : MergesInOrder scanDepth limit batch := by
  cases batch with
  | nil => trivial
  | cons head rest => exact fun hw => (scan_pairwise (h hw)).2

/-! ## Merging preserves the files -/

@[simp] lemma unmerged_cons_true (r : Event) (rs : List (Event × Bool)) :
    unmerged ((r, true) :: rs) = unmerged rs := rfl

@[simp] lemma unmerged_cons_false (r : Event) (rs : List (Event × Bool)) :
    unmerged ((r, false) :: rs) = r :: unmerged rs := rfl

/-- Only rows of the head's inode are merged. -/
lemma scan_filter_other {head : Event} (limit mergedLen endOffset : U64) (rows : List Event)
    {ino : U64} (hino : head.inode ≠ ino) :
    (unmerged (scan head limit mergedLen endOffset rows).2).filter (fun e => e.inode = ino) =
      rows.filter (fun e => e.inode = ino) := by
  induction rows generalizing mergedLen endOffset with
  | nil => rfl
  | cons r rs ih =>
    by_cases hc : continues head limit mergedLen endOffset r
    · have hr : r.inode ≠ ino := by
        rw [hc.2.1]
        exact hino
      simp only [scan, if_pos hc, unmerged_cons_true, ih]
      rw [List.filter_cons_of_neg (by simpa using hr)]
    · simp only [scan, if_neg hc, unmerged_cons_false, List.filter_cons, ih]

section Files
open KeyedReplay (cell cell_append cell_move_front)
variable (content : U64 → ℕ → Byte) (allocate : Event → File → File)

/-- On the head's own file: the head, the rows `kept` of its inode that were
passed over, and the rest have the effect of the merged head, the same kept
rows and the unmerged rest. -/
lemma scan_cell {head : Event} (limit mergedLen : U64) {before : List Event}
    (kept rows : List Event) (hw : head.eventType.isWrite = true)
    (h : Unobstructed head limit mergedLen (head.offset + mergedLen) before rows)
    (hkept : ∀ x ∈ kept, x ∈ before ∧ x.inode = head.inode) (s : Option File) :
    cell (effect content allocate) s (head.withLength mergedLen :: (kept ++
        rows.filter (fun e => e.inode = head.inode))) =
      cell (effect content allocate) s
        (head.withLength (scan head limit mergedLen (head.offset + mergedLen) rows).1 ::
          (kept ++ (unmerged (scan head limit mergedLen (head.offset + mergedLen) rows).2).filter
            (fun e => e.inode = head.inode))) := by
  induction rows generalizing mergedLen before kept with
  | nil => rfl
  | cons r rs ih =>
    by_cases hc : continues head limit mergedLen (head.offset + mergedLen) r
    · obtain ⟨-, hino, hrw, hoff, -⟩ := id hc
      simp only [Unobstructed, if_pos hc] at h
      obtain ⟨hbefore, hend, hlen, hrest⟩ := h
      have hoffset : r.offset.val = head.offset.val + mergedLen.val := by
        rw [hoff, Fin.val_add]
        exact Nat.mod_eq_of_lt hend
      have hlength : (mergedLen + r.length).val = mergedLen.val + r.length.val := by
        rw [Fin.val_add]
        exact Nat.mod_eq_of_lt hlen
      rw [add_assoc] at hrest
      have hnext := ih (mergedLen + r.length) kept hrest
        (fun x hx => ⟨List.mem_append_left _ (hkept x hx).1, (hkept x hx).2⟩)
      have hcomm : ∀ x ∈ kept, ∀ s, effect content allocate r (effect content allocate x s) =
          effect content allocate x (effect content allocate r s) := fun x hx s =>
        effect_write_comm content allocate (hbefore x (hkept x hx).1 (hkept x hx).2).1 hrw
          ((hkept x hx).2.trans hino.symm) s
      have hmove := cell_move_front (effect content allocate) hcomm
        (effect content allocate (head.withLength mergedLen) s)
      have hext := effect_write_extend content allocate (x := head.withLength mergedLen)
        (n := mergedLen + r.length) hw hrw hino hoffset hlength s
      simp only [scan, if_pos hc, unmerged_cons_true, add_assoc]
      rw [← hnext, List.filter_cons_of_pos (by simpa using hino)]
      let act := effect content allocate
      let rest := rs.filter (fun e => e.inode = head.inode)
      calc cell act s (head.withLength mergedLen :: (kept ++ r :: rest))
          = cell act (act (head.withLength mergedLen) s) ((kept ++ [r]) ++ rest) := by
            rw [List.append_assoc]
            rfl
        _ = cell act (cell act (act (head.withLength mergedLen) s) (r :: kept)) rest := by
            rw [cell_append, hmove]
        _ = cell act (cell act (act (head.withLength (mergedLen + r.length)) s) kept) rest := by
            have hhead : act (head.withLength (mergedLen + r.length)) s =
              act r (act (head.withLength mergedLen) s) := hext.symm
            rw [hhead]
            rfl
        _ = cell act s (head.withLength (mergedLen + r.length) :: (kept ++ rest)) :=
            (cell_append ..).symm
    · simp only [Unobstructed, if_neg hc] at h
      simp only [scan, if_neg hc, unmerged_cons_false]
      by_cases hino : r.inode = head.inode
      · have hnext := ih mergedLen (kept ++ [r]) h (fun x hx => by
          rcases List.mem_append.mp hx with hx | hx
          · exact ⟨List.mem_append_left _ (hkept x hx).1, (hkept x hx).2⟩
          · obtain rfl := List.mem_singleton.mp hx
            exact ⟨by simp, hino⟩)
        simpa [hino] using hnext
      · have hnext := ih mergedLen kept h
          (fun x hx => ⟨List.mem_append_left _ (hkept x hx).1, (hkept x hx).2⟩)
        simpa [hino] using hnext

/-- Merging into the head of a clear batch preserves what the rows do. -/
theorem Clear.replay_eq {scanDepth : ℕ} {limit : U64} {batch : EventBatch}
    (h : Clear scanDepth limit batch) (files : U64 → Option File) :
    replayFiles content allocate files ((tryCoalesceHead scanDepth limit batch).1.toList ++
        (tryCoalesceHead scanDepth limit batch).2) =
      replayFiles content allocate files batch := by
  cases batch with
  | nil => rfl
  | cons head rest =>
    by_cases hw : head.eventType.isWrite = true
    · simp only [tryCoalesceHead, if_pos hw, Option.toList_some, List.singleton_append]
      have hclear := h hw
      generalize reach scanDepth (head :: rest) = n at hclear ⊢
      refine KeyedReplay.replay_congr Event.inode _ (fun ino => ?_)
      nth_rewrite 4 [← List.take_append_drop n rest]
      simp only [List.filter_cons, List.filter_append, Event.withLength_inode]
      by_cases hino : head.inode = ino
      · subst hino
        have hcell := scan_cell content allocate limit head.length [] (rest.take n) hw
          hclear (by simp) (files head.inode)
        simp only [decide_true, if_true, ← List.cons_append, cell_append]
        simp only [List.nil_append] at hcell
        rw [scanHead, ← hcell]
        rfl
      · simp only [hino, decide_false, if_false, Bool.false_eq_true]
        rw [scanHead, scan_filter_other _ _ _ _ hino]
    · simp [tryCoalesceHead, hw]

end Files
end EventBatch
end Foxing
