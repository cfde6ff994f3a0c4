import Foxing.Coalescer
import Foxing.VectorScans

/-!
# Batches as columns

A batch keeps the fields that it scans in columns of their own, beside the events, and counts its
rows. Every operation edits all columns. A merge looks for the rows with the inode of the head by
a search in their column, notes their indices in a workspace, and then takes out the rows from the
last one on. In step with each other the columns are the list of rows of the batch model.
-/
namespace Foxing
open VectorScans

structure EventColumns where
  inodes : List U64
  types : List EventType
  offsets : List U64
  lengths : List U64
  events : List Event
  nextIndex : ℕ
  workspace : List ℕ

namespace EventColumns

def new : EventColumns := ⟨[], [], [], [], [], 0, []⟩

def push (e : Event) (c : EventColumns) : EventColumns where
  inodes := c.inodes ++ [e.inode]
  types := c.types ++ [e.eventType]
  offsets := c.offsets ++ [e.offset]
  lengths := c.lengths ++ [e.length]
  events := c.events ++ [e]
  nextIndex := c.nextIndex + 1
  workspace := c.workspace

def clear (_ : EventColumns) : EventColumns := new

/-- A row is taken out of every column. -/
def remove (i : ℕ) (c : EventColumns) : EventColumns where
  inodes := c.inodes.eraseIdx i
  types := c.types.eraseIdx i
  offsets := c.offsets.eraseIdx i
  lengths := c.lengths.eraseIdx i
  events := c.events.eraseIdx i
  nextIndex := c.nextIndex - 1
  workspace := c.workspace

def popFront (c : EventColumns) : Option Event × EventColumns :=
  if c.nextIndex = 0 then (none, c) else (c.events.head?, c.remove 0)

/-! ### Keeping some rows -/

/-- An element of a column is put at an earlier place. -/
def moveTo {α : Type*} (write read : ℕ) (column : List α) : List α :=
  match column[read]? with
  | some x => column.set write x
  | none => column

def moveRow (write read : ℕ) (c : EventColumns) : EventColumns where
  inodes := moveTo write read c.inodes
  types := moveTo write read c.types
  offsets := moveTo write read c.offsets
  lengths := moveTo write read c.lengths
  events := moveTo write read c.events
  nextIndex := c.nextIndex
  workspace := c.workspace

/-- A row that is kept goes to the place behind those kept before. -/
def retainRow (keep : ℕ → Bool) (x : EventColumns × ℕ) (read : ℕ) : EventColumns × ℕ :=
  if keep read then (if x.2 ≠ read then x.1.moveRow x.2 read else x.1, x.2 + 1) else x

def truncate (n : ℕ) (c : EventColumns) : EventColumns where
  inodes := c.inodes.take n
  types := c.types.take n
  offsets := c.offsets.take n
  lengths := c.lengths.take n
  events := c.events.take n
  nextIndex := n
  workspace := c.workspace

def retain (keep : ℕ → Bool) (c : EventColumns) : EventColumns :=
  let x := (List.range c.nextIndex).foldl (retainRow keep) (c, 0)
  x.1.truncate x.2

/-! ### Merging -/

/-- What a scan has found so far. -/
structure Scan where
  mergedLen : U64
  endOffset : U64
  toRemove : List ℕ

/-- The row is a write that continues the range merged so far. -/
def continuesAt (c : EventColumns) (headName : String) (s : Scan) (i : ℕ) : Bool :=
  (c.types.getD i .unknown).isWrite && c.offsets.getD i 0 = s.endOffset &&
    c.events[i]?.map Event.name = some headName

/-- The row is merged. -/
def Scan.merge (s : Scan) (c : EventColumns) (i : ℕ) : Scan :=
  ⟨s.mergedLen + c.lengths.getD i 0, s.endOffset + c.lengths.getD i 0, s.toRemove ++ [i]⟩

/-- The scan behind the head, up to a number of rows. -/
def scanFrom (avx2 : Bool) (c : EventColumns) (headInode : U64) (headName : String) (limit : U64)
    (maxScan : ℕ) (s : Scan) (searchStart : ℕ) : Scan :=
  if searchStart < maxScan ∧ s.mergedLen < limit then
    match hfound : findInodeMatch avx2 c.inodes headInode searchStart maxScan with
    | none => s
    | some i =>
      have := le_of_findInodeMatch hfound
      if c.continuesAt headName s i then
        scanFrom avx2 c headInode headName limit maxScan (s.merge c i) (i + 1)
      else scanFrom avx2 c headInode headName limit maxScan s (i + 1)
  else s
termination_by maxScan - searchStart

/-- The rows that were found are taken out, and the head is returned with their length. -/
def mergeFound (c : EventColumns) (s : Scan) : Option Event × EventColumns :=
  let c := { c with workspace := s.toRemove }
  if s.toRemove ≠ [] then
    -- from the last row on, so that the indices before stay as they are
    let c := s.toRemove.reverse.foldl (fun c i => c.remove i) c
    (c.events[0]?.map fun e => e.withLength s.mergedLen, c.popFront.2)
  else c.popFront

def tryCoalesceHead (avx2 : Bool) (scanDepth : ℕ) (limit : U64) (c : EventColumns) :
    Option Event × EventColumns :=
  if c.nextIndex = 0 then (none, c)
  else if !(c.types.getD 0 .unknown).isWrite then c.popFront
  else
    let mergedLen := c.lengths.getD 0 0
    c.mergeFound <| scanFrom avx2 c (c.inodes.getD 0 0) ((c.events[0]?.map Event.name).getD "")
      limit (min c.nextIndex scanDepth) ⟨mergedLen, c.offsets.getD 0 0 + mergedLen, []⟩ 1

/-! ### Runs -/

inductive Action where
  | push (e : Event)
  | popFront
  | retain (keep : ℕ → Bool)
  | clear
  | tryCoalesceHead (scanDepth : ℕ) (limit : U64)

def step (avx2 : Bool) (c : EventColumns) : Action → EventColumns
  | .push e => c.push e
  | .popFront => c.popFront.2
  | .retain keep => c.retain keep
  | .clear => c.clear
  | .tryCoalesceHead scanDepth limit => (c.tryCoalesceHead avx2 scanDepth limit).2

/-- All columns have as many rows as are counted, and every row is that of its event. -/
structure Aligned (c : EventColumns) : Prop where
  inodes : c.inodes = c.events.map Event.inode
  types : c.types = c.events.map Event.eventType
  offsets : c.offsets = c.events.map Event.offset
  lengths : c.lengths = c.events.map Event.length
  nextIndex : c.events.length = c.nextIndex

/-! ## The columns of a list of rows -/

/-- The columns of some rows. -/
def ofRows (rows : EventBatch) (workspace : List ℕ) : EventColumns where
  inodes := rows.map Event.inode
  types := rows.map Event.eventType
  offsets := rows.map Event.offset
  lengths := rows.map Event.length
  events := rows
  nextIndex := rows.length
  workspace := workspace

theorem aligned_ofRows (rows : EventBatch) (workspace : List ℕ) :
    (ofRows rows workspace).Aligned := ⟨rfl, rfl, rfl, rfl, rfl⟩

theorem push_ofRows (e : Event) (rows : EventBatch) (workspace : List ℕ) :
    (ofRows rows workspace).push e = ofRows (rows ++ [e]) workspace := by
  simp [push, ofRows]

theorem remove_ofRows {i : ℕ} {rows : EventBatch} (hi : i < rows.length) (workspace : List ℕ) :
    (ofRows rows workspace).remove i = ofRows (rows.eraseIdx i) workspace := by
  simp [remove, ofRows, List.eraseIdx_map, List.length_eraseIdx_of_lt hi]

theorem popFront_ofRows (rows : EventBatch) (workspace : List ℕ) :
    (ofRows rows workspace).popFront = (rows.head?, ofRows rows.tail workspace) := by
  cases rows with
  | nil => rfl
  | cons head rest =>
    have hcount : (ofRows (head :: rest) workspace).nextIndex ≠ 0 := Nat.succ_ne_zero _
    rw [popFront, if_neg hcount, remove_ofRows (Nat.succ_pos _)]
    rfl

/-! ### Rows that are kept -/

/-- The rows whose index is kept. -/
def kept (keep : ℕ → Bool) (rows : EventBatch) : EventBatch :=
  (rows.zipIdx.filter fun x => keep x.2).map Prod.fst

theorem moveTo_map {α β : Type*} (f : α → β) (write read : ℕ) (column : List α) :
    moveTo write read (column.map f) = (moveTo write read column).map f := by
  unfold moveTo
  rw [List.getElem?_map]
  cases column[read]? with
  | none => rfl
  | some x => exact (List.map_set ..).symm

theorem length_moveTo {α : Type*} (write read : ℕ) (column : List α) :
    (moveTo write read column).length = column.length := by
  unfold moveTo
  split <;> simp

theorem moveRow_ofRows (write read : ℕ) (rows : EventBatch) (workspace : List ℕ) :
    (ofRows rows workspace).moveRow write read = ofRows (moveTo write read rows) workspace := by
  simp [moveRow, ofRows, moveTo_map, length_moveTo]

theorem truncate_ofRows {n : ℕ} {rows : EventBatch} (hn : n ≤ rows.length) (workspace : List ℕ) :
    (ofRows rows workspace).truncate n = ofRows (rows.take n) workspace := by
  simp [truncate, ofRows, List.map_take, List.length_take, Nat.min_eq_left hn]

theorem moveTo_self {α : Type*} (i : ℕ) (column : List α) : moveTo i i column = column := by
  unfold moveTo
  cases hx : column[i]? with
  | none => rfl
  | some x =>
    obtain ⟨hi, rfl⟩ := List.getElem?_eq_some_iff.mp hx
    exact List.set_getElem_self hi

/-- What is moved follows what was kept before, and the rows that come later stay. -/
theorem take_moveTo {α : Type*} {write read : ℕ} (hle : write ≤ read) {column : List α} {x : α}
    (hx : column[read]? = some x) :
    (moveTo write read column).take (write + 1) = column.take write ++ [x] ∧
      (moveTo write read column).drop (read + 1) = column.drop (read + 1) := by
  obtain ⟨hread, -⟩ := List.getElem?_eq_some_iff.mp hx
  have hmove : moveTo write read column = column.set write x := by
    unfold moveTo
    rw [hx]
  rw [hmove, List.take_add_one, List.take_set_of_le le_rfl, List.getElem?_set_self (by omega)]
  exact ⟨rfl, List.drop_set_of_lt (by omega)⟩

theorem kept_take_succ (keep : ℕ → Bool) {rows : EventBatch} {n : ℕ} {x : Event}
    (hx : rows[n]? = some x) :
    kept keep (rows.take (n + 1)) = kept keep (rows.take n) ++ if keep n then [x] else [] := by
  obtain ⟨hn, -⟩ := List.getElem?_eq_some_iff.mp hx
  have hlength : 0 + (rows.take n).length = n := by
    rw [Nat.zero_add, List.length_take]
    omega
  rw [List.take_add_one, hx, kept, List.zipIdx_append, hlength, List.filter_append, List.map_append]
  refine congrArg _ ?_
  show List.map Prod.fst (List.filter _ [(x, n)]) = _
  by_cases hkeep : keep n = true <;> simp [hkeep]

/-- After some rows those that are kept stand at the front, and the others are as they were. -/
theorem foldl_retainRow (keep : ℕ → Bool) (rows : EventBatch) (workspace : List ℕ) {n : ℕ}
    (hn : n ≤ rows.length) :
    ∃ rows' write, (List.range n).foldl (retainRow keep) (ofRows rows workspace, 0) =
        (ofRows rows' workspace, write) ∧
      rows'.length = rows.length ∧ write ≤ n ∧ rows'.take write = kept keep (rows.take n) ∧
        rows'.drop n = rows.drop n := by
  induction n with
  | zero => exact ⟨rows, 0, rfl, rfl, le_rfl, rfl, rfl⟩
  | succ n ih =>
    obtain ⟨rows', write, hfold, hlength, hwrite, htake, hdrop⟩ := ih (by omega)
    have hx : rows[n]? = some rows[n] := List.getElem?_eq_getElem _
    have hx' : rows'[n]? = some rows[n] := by
      have hhead : (rows'.drop n)[0]? = (rows.drop n)[0]? := by rw [hdrop]
      rw [List.getElem?_drop, List.getElem?_drop] at hhead
      exact hhead.trans hx
    rw [List.range_succ, List.foldl_append, hfold, List.foldl_cons, List.foldl_nil]
    by_cases hkeep : keep n = true
    · have hrow : retainRow keep (ofRows rows' workspace, write) n =
          (ofRows (moveTo write n rows') workspace, write + 1) := by
        rw [retainRow, if_pos hkeep, moveRow_ofRows]
        by_cases hsame : write = n
        · rw [if_neg (not_not.mpr hsame), hsame, moveTo_self]
        · rw [if_pos hsame]
      obtain ⟨hfront, hback⟩ := take_moveTo hwrite hx'
      refine ⟨_, _, hrow, (length_moveTo ..).trans hlength, by omega, ?_, ?_⟩
      · rw [hfront, htake, kept_take_succ keep hx, if_pos hkeep]
      · rw [hback, ← List.drop_drop, hdrop, List.drop_drop]
    · have hrow : retainRow keep (ofRows rows' workspace, write) n =
          (ofRows rows' workspace, write) := if_neg hkeep
      refine ⟨_, _, hrow, hlength, by omega, ?_, ?_⟩
      · rw [htake, kept_take_succ keep hx, if_neg hkeep, List.append_nil]
      · rw [← List.drop_drop, hdrop, List.drop_drop]

theorem retain_ofRows (keep : ℕ → Bool) (rows : EventBatch) (workspace : List ℕ) :
    (ofRows rows workspace).retain keep = ofRows (kept keep rows) workspace := by
  obtain ⟨rows', write, hfold, hlength, hwrite, htake, -⟩ :=
    foldl_retainRow keep rows workspace le_rfl
  have hcount : (ofRows rows workspace).nextIndex = rows.length := rfl
  rw [retain, hcount, hfold]
  dsimp only
  rw [truncate_ofRows (by omega), htake, List.take_length]

/-! ### Rows that are merged -/

section Merge
open EventBatch (continues scan scanHead reach unmerged unmerged_cons_true unmerged_cons_false
  map_fst_scan)

variable (avx2 : Bool) (rows : EventBatch) (workspace : List ℕ) (head : Event) (limit : U64)

/-- The search and what is done with the row that is found. -/
theorem scanFrom_eq {maxScan : ℕ} (hmax : maxScan ≤ rows.length) {s : Scan}
    (hlimit : s.mergedLen < limit) (k : ℕ) :
    scanFrom avx2 (ofRows rows workspace) head.inode head.name limit maxScan s k =
      (findInodeMatchScalar (rows.map Event.inode) head.inode k maxScan).elim s fun i =>
        if (ofRows rows workspace).continuesAt head.name s i then
          scanFrom avx2 (ofRows rows workspace) head.inode head.name limit maxScan
            (s.merge (ofRows rows workspace) i) (i + 1)
        else
          scanFrom avx2 (ofRows rows workspace) head.inode head.name limit maxScan s (i + 1) := by
  have hscalar : findInodeMatch avx2 (ofRows rows workspace).inodes head.inode k maxScan =
      findInodeMatchScalar (rows.map Event.inode) head.inode k maxScan :=
    findInodeMatch_eq avx2 _ _ k (hmax.trans (List.length_map _).ge)
  rw [scanFrom]
  by_cases hk : k < maxScan
  · rw [if_pos ⟨hk, hlimit⟩]
    split
    next hfound => rw [hscalar.symm.trans hfound, Option.elim_none]
    next i hfound => rw [hscalar.symm.trans hfound, Option.elim_some]
  · have hempty : maxScan - k = 0 := by omega
    rw [if_neg fun h => hk h.1, findInodeMatchScalar, hempty]
    rfl

/-- The row behind those that have been scanned. -/
theorem scanFrom_step {maxScan : ℕ} (hmax : maxScan ≤ rows.length) (s : Scan) {k : ℕ}
    (hk : k < maxScan) {r : Event} (hr : rows[k]? = some r) :
    scanFrom avx2 (ofRows rows workspace) head.inode head.name limit maxScan s k =
      if continues head limit s.mergedLen s.endOffset r then
        scanFrom avx2 (ofRows rows workspace) head.inode head.name limit maxScan
          ⟨s.mergedLen + r.length, s.endOffset + r.length, s.toRemove ++ [k]⟩ (k + 1)
      else scanFrom avx2 (ofRows rows workspace) head.inode head.name limit maxScan s (k + 1) := by
  by_cases hlimit : s.mergedLen < limit
  · have hcount : maxScan - k = maxScan - (k + 1) + 1 := by omega
    have hfirst : findInodeMatchScalar (rows.map Event.inode) head.inode k maxScan =
        if r.inode = head.inode then some k
        else findInodeMatchScalar (rows.map Event.inode) head.inode (k + 1) maxScan := by
      rw [findInodeMatchScalar, hcount, List.range'_succ, List.find?_cons]
      by_cases hinode : r.inode = head.inode <;> simp [hr, hinode, findInodeMatchScalar]
    have hcontinues : (ofRows rows workspace).continuesAt head.name s k = true ↔
        r.eventType.isWrite = true ∧ r.offset = s.endOffset ∧ r.name = head.name := by
      simp [continuesAt, ofRows, hr, and_assoc]
    have hmerge : s.merge (ofRows rows workspace) k =
        ⟨s.mergedLen + r.length, s.endOffset + r.length, s.toRemove ++ [k]⟩ := by
      simp [Scan.merge, ofRows, hr]
    rw [scanFrom_eq avx2 rows workspace head limit hmax hlimit, hfirst]
    by_cases hinode : r.inode = head.inode
    · rw [if_pos hinode, Option.elim_some, hmerge]
      simp only [hcontinues, continues, hlimit, hinode, true_and]
    · rw [if_neg hinode, if_neg fun h => hinode h.2.1,
        ← scanFrom_eq avx2 rows workspace head limit hmax hlimit]
  · have hstop : ∀ k, scanFrom avx2 (ofRows rows workspace) head.inode head.name limit maxScan s k =
        s := by
      intro k
      rw [scanFrom, if_neg fun h => hlimit h.2]
    rw [hstop, if_neg fun h => hlimit h.1, hstop]

/-- The indices of the rows that are marked, from a place on. -/
def markedIndices : ℕ → List (Event × Bool) → List ℕ
  | _, [] => []
  | k, (_, true) :: marked => k :: markedIndices (k + 1) marked
  | k, (_, false) :: marked => markedIndices (k + 1) marked

/-- The scan finds the length and the rows that the scan of the batch model finds. -/
theorem scanFrom_ofRows (before window after : List Event) (s : Scan) :
    let t := scan head limit s.mergedLen s.endOffset window
    let found := scanFrom avx2 (ofRows (before ++ window ++ after) workspace) head.inode head.name
      limit (before.length + window.length) s before.length
    found.mergedLen = t.1 ∧ found.toRemove = s.toRemove ++ markedIndices before.length t.2 := by
  induction window generalizing before s with
  | nil =>
    dsimp only
    rw [scanFrom, if_neg fun h => Nat.lt_irrefl _ h.1]
    exact ⟨rfl, (List.append_nil _).symm⟩
  | cons r window ih =>
    have hrows : before ++ r :: window ++ after = (before ++ [r]) ++ window ++ after := by simp
    have hlast : (before ++ [r]).length = before.length + 1 := by simp
    have hmax : before.length + (r :: window).length = (before ++ [r]).length + window.length := by
      rw [hlast, List.length_cons]
      omega
    have hr : ((before ++ [r]) ++ window ++ after)[before.length]? = some r := by simp
    dsimp only
    have hfits : (before ++ [r]).length + window.length ≤
        ((before ++ [r]) ++ window ++ after).length := by
      simp only [List.length_append]
      omega
    rw [hrows, hmax, scanFrom_step avx2 _ workspace head limit hfits s (by omega) hr, ← hlast]
    by_cases hc : continues head limit s.mergedLen s.endOffset r
    · obtain ⟨hlen, hindices⟩ := ih (before ++ [r])
        ⟨s.mergedLen + r.length, s.endOffset + r.length, s.toRemove ++ [before.length]⟩
      rw [if_pos hc, scan, if_pos hc]
      refine ⟨hlen, hindices.trans ?_⟩
      rw [List.append_assoc, hlast]
      rfl
    · obtain ⟨hlen, hindices⟩ := ih (before ++ [r]) s
      rw [if_neg hc, scan, if_neg hc]
      refine ⟨hlen, hindices.trans ?_⟩
      rw [hlast]
      rfl

/-- The marked rows are taken out from the last one on. -/
theorem foldl_remove (before after : List Event) (marked : List (Event × Bool)) :
    (markedIndices before.length marked).reverse.foldl (fun c i => remove i c)
        (ofRows (before ++ marked.map Prod.fst ++ after) workspace) =
      ofRows (before ++ unmerged marked ++ after) workspace := by
  induction marked generalizing before with
  | nil => rfl
  | cons x marked ih =>
    obtain ⟨r, m⟩ := x
    have hlast : (before ++ [r]).length = before.length + 1 := by simp
    have hrows : before ++ r :: marked.map Prod.fst ++ after =
        (before ++ [r]) ++ marked.map Prod.fst ++ after := by simp
    have hrest := ih (before ++ [r])
    rw [hlast] at hrest
    rw [List.map_cons, hrows]
    cases m with
    | false =>
      rw [markedIndices, hrest, unmerged_cons_false]
      simp
    | true =>
      have hlt : before.length < ((before ++ [r]) ++ unmerged marked ++ after).length := by
        rw [List.length_append, List.length_append, hlast]
        omega
      rw [markedIndices, List.reverse_cons, List.foldl_append, hrest, List.foldl_cons,
        List.foldl_nil, remove_ofRows hlt, unmerged_cons_true, List.append_assoc,
        List.append_assoc, List.eraseIdx_append_of_length_le le_rfl]
      simp

theorem markedIndices_eq_nil {k : ℕ} {marked : List (Event × Bool)}
    (h : markedIndices k marked = []) : unmerged marked = marked.map Prod.fst := by
  induction marked generalizing k with
  | nil => rfl
  | cons x marked ih =>
    obtain ⟨r, m⟩ := x
    cases m with
    | false => rw [unmerged_cons_false, ih h, List.map_cons]
    | true => cases h

/-- What is taken out, and the head that is returned. -/
theorem mergeFound_ofRows {mergedLen : U64} (endOffset : U64) (marked : List (Event × Bool))
    (after : List Event) (hlen : markedIndices 1 marked = [] → mergedLen = head.length) :
    mergeFound (ofRows (head :: (marked.map Prod.fst ++ after)) workspace)
        ⟨mergedLen, endOffset, markedIndices 1 marked⟩ =
      (some (head.withLength mergedLen),
        ofRows (unmerged marked ++ after) (markedIndices 1 marked)) := by
  by_cases hnone : markedIndices 1 marked = []
  · rw [mergeFound, if_neg (not_not.mpr hnone), markedIndices_eq_nil hnone, hlen hnone]
    exact popFront_ofRows ..
  · have hremoved : (markedIndices 1 marked).reverse.foldl (fun c i => remove i c)
        { ofRows (head :: (marked.map Prod.fst ++ after)) workspace with
          workspace := markedIndices 1 marked } =
        ofRows (head :: (unmerged marked ++ after)) (markedIndices 1 marked) :=
      foldl_remove (markedIndices 1 marked) [head] after marked
    rw [mergeFound, if_pos hnone]
    dsimp only at hremoved ⊢
    rw [hremoved, popFront_ofRows]
    rfl

/-- Nothing that is marked has added nothing to the length. -/
theorem scan_fst_of_none {mergedLen endOffset : U64} {window : List Event} {k : ℕ}
    (h : markedIndices k (scan head limit mergedLen endOffset window).2 = []) :
    (scan head limit mergedLen endOffset window).1 = mergedLen := by
  induction window generalizing k with
  | nil => rfl
  | cons r window ih =>
    by_cases hc : continues head limit mergedLen endOffset r
    · rw [scan, if_pos hc] at h
      cases h
    · rw [scan, if_neg hc] at h ⊢
      exact ih h

/-- The scan that a merge makes behind the head. -/
theorem scan_head_ofRows (rest : EventBatch) (scanDepth : ℕ) :
    let t := scanHead head limit (rest.take (reach scanDepth (head :: rest)))
    let found := scanFrom avx2 (ofRows (head :: rest) workspace) head.inode head.name limit
      (min (rest.length + 1) scanDepth) ⟨head.length, head.offset + head.length, []⟩ 1
    found.mergedLen = t.1 ∧ found.toRemove = markedIndices 1 t.2 := by
  cases scanDepth with
  | zero =>
    -- no row is scanned, not even the head
    dsimp only
    rw [scanFrom, if_neg fun h => absurd h.1 (by omega), reach, Nat.min_zero]
    exact ⟨rfl, rfl⟩
  | succ depth =>
    have hreach : reach (depth + 1) (head :: rest) = min rest.length depth := by
      rw [reach, List.length_cons]
      omega
    have hmax : min (rest.length + 1) (depth + 1) =
        [head].length + (rest.take (min rest.length depth)).length := by
      rw [List.length_singleton, List.length_take]
      omega
    have hrows : head :: rest = [head] ++ rest.take (min rest.length depth) ++
        rest.drop (min rest.length depth) := by
      rw [List.append_assoc, List.take_append_drop]
      rfl
    have hfound := scanFrom_ofRows avx2 workspace head limit [head]
      (rest.take (min rest.length depth)) (rest.drop (min rest.length depth))
      ⟨head.length, head.offset + head.length, []⟩
    rw [← hrows, ← hmax] at hfound
    rw [hreach]
    exact hfound

/-- On columns in step the merge is that of the batch model. -/
theorem tryCoalesceHead_ofRows (scanDepth : ℕ) :
    ∃ workspace', (ofRows rows workspace).tryCoalesceHead avx2 scanDepth limit =
      ((EventBatch.tryCoalesceHead scanDepth limit rows).1,
        ofRows (EventBatch.tryCoalesceHead scanDepth limit rows).2 workspace') := by
  cases rows with
  | nil => exact ⟨workspace, rfl⟩
  | cons head rest =>
    have hcount : (ofRows (head :: rest) workspace).nextIndex ≠ 0 := Nat.succ_ne_zero _
    have htype : (ofRows (head :: rest) workspace).types.getD 0 .unknown = head.eventType := rfl
    rw [tryCoalesceHead, if_neg hcount, htype, EventBatch.tryCoalesceHead]
    cases hwrite : head.eventType.isWrite with
    | false =>
      rw [Bool.not_false, if_pos rfl, if_neg Bool.false_ne_true]
      exact ⟨workspace, popFront_ofRows ..⟩
    | true =>
      obtain ⟨hlen, hindices⟩ := scan_head_ofRows avx2 workspace head limit rest scanDepth
      rw [Bool.not_true, if_neg Bool.false_ne_true, if_pos rfl]
      show ∃ workspace', (ofRows (head :: rest) workspace).mergeFound
        (scanFrom avx2 (ofRows (head :: rest) workspace) head.inode head.name limit
          (min (rest.length + 1) scanDepth) ⟨head.length, head.offset + head.length, []⟩ 1) = _
      generalize scanFrom .. = found at hlen hindices ⊢
      obtain ⟨mergedLen, endOffset, toRemove⟩ := found
      dsimp only at hlen hindices
      subst hlen hindices
      have hmerge := mergeFound_ofRows workspace head endOffset
        (scanHead head limit (rest.take (reach scanDepth (head :: rest)))).2
        (rest.drop (reach scanDepth (head :: rest))) (scan_fst_of_none head limit)
      rw [scanHead, map_fst_scan, List.take_append_drop, ← scanHead] at hmerge
      exact ⟨_, hmerge⟩

end Merge

/-! ## Exact merges -/

/-- The rows that are merged. -/
def merged (marked : List (Event × Bool)) : List Event :=
  (marked.filter Prod.snd).map Prod.fst

/-- The ranges of the rows follow each other without a gap, from one offset to another. -/
def Tiles : ℕ → List Event → ℕ → Prop
  | start, [], stop => start = stop
  | start, r :: rows, stop => r.offset.val = start ∧ Tiles (start + r.length.val) rows stop

/-- What is returned for the head of a batch and what is left of the rows behind it: the rows
within the depth that are marked are merged into the head, and the others stay in order. -/
structure MergesExactly (scanDepth : ℕ) (head : Event) (rest : EventBatch) (result : Event)
    (left : EventBatch) (marked : List (Event × Bool)) (after : List Event) : Prop where
  rows : rest = marked.map Prod.fst ++ after
  others : left = EventBatch.unmerged marked ++ after
  depth : marked.length ≤ scanDepth - 1
  same : ∀ r ∈ merged marked, r.inode = head.inode ∧ r.name = head.name
  writes : ∀ r ∈ merged marked, head.eventType.isWrite = true ∧ r.eventType.isWrite = true
  isHead : result = head.withLength result.length
  total : result.length.val = ((head :: merged marked).map fun r => r.length.val).sum
  tiles : Tiles head.offset.val (head :: merged marked) (head.offset.val + result.length.val)

/-- The end of a write is a 64-bit offset. -/
def Fits (e : Event) : Prop := e.offset.val + e.length.val < 2 ^ 64

/-- A merge of a batch is exact, and one of an empty batch returns nothing. -/
def MergeIsExact (scanDepth : ℕ) : EventBatch → Option Event × EventBatch → Prop
  | [], r => r = (none, [])
  | head :: rest, r => ∃ result marked after,
      r.1 = some result ∧ MergesExactly scanDepth head rest result r.2 marked after

section Exact
open EventBatch (continues scan scanHead reach unmerged map_fst_scan)

theorem Tiles.sum_eq {start stop : ℕ} {rows : List Event} (h : Tiles start rows stop) :
    start + (rows.map fun r => r.length.val).sum = stop := by
  induction rows generalizing start with
  | nil => exact h
  | cons r rows ih =>
    rw [List.map_cons, List.sum_cons, ← Nat.add_assoc]
    exact ih h.2

/-- The rows that a scan merges, and the range that they cover. -/
theorem scan_exact {head : Event} (limit : U64) {mergedLen endOffset : U64} {window : List Event}
    (hfits : ∀ r ∈ window, Fits r) (hend : endOffset.val = head.offset.val + mergedLen.val) :
    let t := scan head limit mergedLen endOffset window
    Tiles endOffset.val (merged t.2) (head.offset.val + t.1.val) ∧
      ∀ r ∈ merged t.2, r.inode = head.inode ∧ r.name = head.name ∧ r.eventType.isWrite = true := by
  induction window generalizing mergedLen endOffset with
  | nil => exact ⟨hend, fun r hr => absurd hr List.not_mem_nil⟩
  | cons r window ih =>
    have hrest : ∀ x ∈ window, Fits x := fun x hx => hfits x (List.mem_cons_of_mem _ hx)
    by_cases hc : continues head limit mergedLen endOffset r
    · obtain ⟨-, hinode, hwrite, hoffset, hname⟩ := id hc
      have hfit : endOffset.val + r.length.val < 2 ^ 64 := hoffset ▸ hfits r List.mem_cons_self
      have hstop : (endOffset + r.length).val = endOffset.val + r.length.val :=
        Fin.val_add_eq_of_add_lt hfit
      have hlen : (mergedLen + r.length).val = mergedLen.val + r.length.val :=
        Fin.val_add_eq_of_add_lt (by omega)
      have hend' : (endOffset + r.length).val = head.offset.val + (mergedLen + r.length).val := by
        omega
      obtain ⟨htiles, hsame⟩ := ih hrest hend'
      dsimp only
      rw [scan, if_pos hc]
      refine ⟨⟨congrArg Fin.val hoffset, hstop ▸ htiles⟩, ?_⟩
      intro x hx
      rcases List.mem_cons.mp hx with rfl | hx
      · exact ⟨hinode, hname, hwrite⟩
      · exact hsame x hx
    · dsimp only
      rw [scan, if_neg hc]
      exact ih hrest hend

/-- A merge of rows whose ends do not overflow is exact. -/
theorem tryCoalesceHead_exact (scanDepth : ℕ) (limit : U64) {rows : EventBatch}
    (hfits : ∀ r ∈ rows, Fits r) :
    MergeIsExact scanDepth rows (EventBatch.tryCoalesceHead scanDepth limit rows) := by
  cases rows with
  | nil => rfl
  | cons head rest =>
    have hhead : Fits head := hfits head List.mem_cons_self
    rw [EventBatch.tryCoalesceHead]
    cases hwrite : head.eventType.isWrite with
    | false =>
      rw [if_neg Bool.false_ne_true]
      refine ⟨head, [], rest, rfl, rfl, rfl, Nat.zero_le _, ?_, ?_, rfl, rfl, rfl, rfl⟩
      · intro r hr
        exact absurd hr List.not_mem_nil
      · intro r hr
        exact absurd hr List.not_mem_nil
    | true =>
      have hstop : (head.offset + head.length).val = head.offset.val + head.length.val :=
        Fin.val_add_eq_of_add_lt hhead
      have hwindow : ∀ r ∈ rest.take (reach scanDepth (head :: rest)), Fits r := fun r hr =>
        hfits r (List.mem_cons_of_mem _ (List.mem_of_mem_take hr))
      obtain ⟨htiles, hsame⟩ := scan_exact limit hwindow hstop
      have hall : Tiles head.offset.val (head :: merged (scanHead head limit
          (rest.take (reach scanDepth (head :: rest)))).2) (head.offset.val +
            (scanHead head limit (rest.take (reach scanDepth (head :: rest)))).1.val) :=
        ⟨rfl, hstop ▸ htiles⟩
      rw [if_pos rfl]
      refine ⟨_, (scanHead head limit (rest.take (reach scanDepth (head :: rest)))).2,
        rest.drop (reach scanDepth (head :: rest)), rfl, ?_, rfl, ?_, ?_, ?_, rfl, ?_, hall⟩
      · rw [scanHead, map_fst_scan, List.take_append_drop]
      · rw [← List.length_map Prod.fst, scanHead, map_fst_scan, List.length_take, reach,
          List.length_cons]
        omega
      · intro r hr
        exact ⟨(hsame r hr).1, (hsame r hr).2.1⟩
      · intro r hr
        exact ⟨hwrite, (hsame r hr).2.2⟩
      · have hsum := hall.sum_eq
        rw [Event.withLength_length]
        omega

/-! ### Runs -/

theorem mem_of_mem_kept {keep : ℕ → Bool} {rows : EventBatch} {r : Event} (h : r ∈ kept keep rows) :
    r ∈ rows := by
  obtain ⟨⟨x, i⟩, hx, rfl⟩ := List.mem_map.mp h
  exact List.fst_mem_of_mem_zipIdx (List.mem_of_mem_filter hx)

theorem mem_of_mem_unmerged {marked : List (Event × Bool)} {r : Event} (h : r ∈ unmerged marked) :
    r ∈ marked.map Prod.fst := by
  obtain ⟨x, hx, rfl⟩ := List.mem_map.mp h
  exact List.mem_map_of_mem (List.mem_of_mem_filter hx)

theorem mem_of_mem_tryCoalesceHead {scanDepth : ℕ} {limit : U64} {rows : EventBatch} {r : Event}
    (h : r ∈ (EventBatch.tryCoalesceHead scanDepth limit rows).2) : r ∈ rows := by
  cases rows with
  | nil => exact h
  | cons head rest =>
    refine List.mem_cons_of_mem _ ?_
    rw [EventBatch.tryCoalesceHead] at h
    by_cases hwrite : head.eventType.isWrite = true
    · rw [if_pos hwrite] at h
      rcases List.mem_append.mp h with h | h
      · have hrow := mem_of_mem_unmerged h
        rw [scanHead, map_fst_scan] at hrow
        exact List.mem_of_mem_take hrow
      · exact List.mem_of_mem_drop h
    · rw [if_neg hwrite] at h
      exact h

/-- What is pushed fits. -/
def Action.Fits : Action → Prop
  | .push e => EventColumns.Fits e
  | _ => True

/-- A step takes columns in step to columns in step, and no row is new but the one pushed. -/
theorem step_ofRows (avx2 : Bool) (rows : EventBatch) (workspace : List ℕ) (a : Action) :
    ∃ rows' workspace', step avx2 (ofRows rows workspace) a = ofRows rows' workspace' ∧
      ∀ r ∈ rows', r ∈ rows ∨ a = .push r := by
  cases a with
  | push e =>
    refine ⟨_, _, push_ofRows e rows workspace, fun r hr => ?_⟩
    rcases List.mem_append.mp hr with hr | hr
    · exact .inl hr
    · exact .inr (congrArg Action.push (List.mem_singleton.mp hr).symm)
  | popFront =>
    refine ⟨_, _, congrArg Prod.snd (popFront_ofRows rows workspace), fun r hr => ?_⟩
    exact .inl (List.mem_of_mem_tail hr)
  | retain keep =>
    exact ⟨_, _, retain_ofRows keep rows workspace, fun r hr => .inl (mem_of_mem_kept hr)⟩
  | clear => exact ⟨[], [], rfl, fun r hr => absurd hr List.not_mem_nil⟩
  | tryCoalesceHead scanDepth limit =>
    obtain ⟨workspace', hmerge⟩ := tryCoalesceHead_ofRows avx2 rows workspace limit scanDepth
    exact ⟨_, workspace', congrArg Prod.snd hmerge,
      fun r hr => .inl (mem_of_mem_tryCoalesceHead hr)⟩

/-- After any run the columns are those of rows that were pushed. -/
theorem exec_ofRows (avx2 : Bool) (actions : List Action) :
    ∃ rows workspace, Run.exec (step avx2) new actions = ofRows rows workspace ∧
      ∀ r ∈ rows, Action.push r ∈ actions := by
  induction actions using List.reverseRecOn with
  | nil => exact ⟨[], [], rfl, fun r hr => absurd hr List.not_mem_nil⟩
  | append_singleton actions a ih =>
    obtain ⟨rows, workspace, hexec, hpushed⟩ := ih
    obtain ⟨rows', workspace', hstep, hfrom⟩ := step_ofRows avx2 rows workspace a
    refine ⟨rows', workspace', ?_, fun r hr => ?_⟩
    · rw [Run.exec_concat, hexec, hstep]
    · rcases hfrom r hr with hr | rfl
      · exact List.mem_append_left _ (hpushed r hr)
      · exact List.mem_append_right _ List.mem_cons_self

/-- In every state of a run the columns are in step, and where the ends of what was pushed do not
overflow, a merge is exact. -/
theorem columns_exact (avx2 : Bool) (actions : List Action) (hfits : ∀ a ∈ actions, a.Fits) :
    let c := Run.exec (step avx2) new actions
    c.Aligned ∧ ∀ scanDepth limit,
      (c.tryCoalesceHead avx2 scanDepth limit).2.Aligned ∧
        MergeIsExact scanDepth c.events ((c.tryCoalesceHead avx2 scanDepth limit).1,
          (c.tryCoalesceHead avx2 scanDepth limit).2.events) := by
  obtain ⟨rows, workspace, hexec, hpushed⟩ := exec_ofRows avx2 actions
  dsimp only
  rw [hexec]
  refine ⟨aligned_ofRows rows workspace, fun scanDepth limit => ?_⟩
  obtain ⟨workspace', hmerge⟩ := tryCoalesceHead_ofRows avx2 rows workspace limit scanDepth
  rw [hmerge]
  have hrows : ∀ r ∈ rows, Fits r := fun r hr => hfits _ (hpushed r hr)
  exact ⟨aligned_ofRows _ workspace', tryCoalesceHead_exact scanDepth limit hrows⟩

/-- A write of bytes of a file. -/
def writeOf (inode offset length : U64) : Event :=
  { Event.zero with eventType := .write, inode := inode, offset := offset, length := length }

/-- Two writes of a file are merged over a write of another file. -/
theorem columns_exact_two :
    let c := Run.exec (step true) new
      [.push (writeOf 7 0 4), .push (writeOf 9 0 1), .push (writeOf 7 4 2)]
    c.Aligned ∧ (c.tryCoalesceHead true 8 100).2.Aligned ∧
      (c.tryCoalesceHead true 8 100).1 = some (writeOf 7 0 6) := by
  have hfits : ∀ a ∈ [Action.push (writeOf 7 0 4), .push (writeOf 9 0 1), .push (writeOf 7 4 2)],
      a.Fits := by
    intro a ha
    simp only [List.mem_cons, List.not_mem_nil, or_false] at ha
    rcases ha with rfl | rfl | rfl <;> exact Nat.lt_of_lt_of_le (by decide : _ < 10) (by decide)
  have hrun : Run.exec (step true) new
      [.push (writeOf 7 0 4), .push (writeOf 9 0 1), .push (writeOf 7 4 2)] =
        ofRows [writeOf 7 0 4, writeOf 9 0 1, writeOf 7 4 2] [] := rfl
  obtain ⟨workspace, hmerged⟩ := tryCoalesceHead_ofRows true
    [writeOf 7 0 4, writeOf 9 0 1, writeOf 7 4 2] [] 100 8
  obtain ⟨haligned, hmerge⟩ := columns_exact true _ hfits
  refine ⟨haligned, (hmerge 8 100).1, ?_⟩
  rw [hrun, hmerged]
  show (EventBatch.tryCoalesceHead 8 100 _).1 = _
  decide

end Exact

end EventColumns
end Foxing
