import Mathlib.Data.List.Basic
import Mathlib.Data.List.Pairwise
import Mathlib.Tactic.Common

/-!
# Rings of operations

Operations are pushed to a submission queue, submitted together, executed in any order and found
in a completion queue in the order in which they were executed. Operations may be linked into a
chain: then one is executed after the other, and when one has failed the rest of its chain is
cancelled. A chain ends with its submission.

All operations that are not yet done with form a line: those in the completion queue first, then
those that are submitted and then those in the submission queue. What is submitted or executed
stays in line.
-/
namespace Uring
variable {α ρ : Type*}

/-- Operations that are executed one after the other. -/
structure Chain (α : Type*) where
  ops : List α
  cancelled : Bool
  deriving DecidableEq, Repr

structure Ring (α ρ : Type*) where
  sq : List (Chain α)
  /-- The next operation is linked to the last one in the submission queue. -/
  linking : Bool
  kernel : List (Chain α)
  cq : List (α × ρ)

namespace Ring

def empty : Ring α ρ := ⟨[], false, [], []⟩

/-- The number of operations in the submission queue. -/
def queued (r : Ring α ρ) : ℕ := (r.sq.flatMap Chain.ops).length

/-- Add an operation to the submission queue; `link` is about the next one. -/
def push (op : α) (link : Bool) (r : Ring α ρ) : Ring α ρ :=
  if r.linking then
    match r.sq.getLast? with
    | some c => { r with sq := r.sq.dropLast ++ [{ c with ops := c.ops ++ [op] }], linking := link }
    | none => { r with sq := [⟨[op], false⟩], linking := link }
  else { r with sq := r.sq ++ [⟨[op], false⟩], linking := link }

def submit (r : Ring α ρ) : Ring α ρ :=
  { r with sq := [], linking := false, kernel := r.kernel ++ r.sq }

/-- What is left of a chain after its first operation. -/
def rest (c : Chain α) (ok : Bool) : List (Chain α) :=
  if c.ops.tail = [] then [] else [⟨c.ops.tail, c.cancelled || !ok⟩]

/-- The first operation of a chain has been executed, with a result; unless it is `ok`, the rest of
the chain is cancelled. -/
def complete (i : ℕ) (result : ρ) (ok : Bool) (r : Ring α ρ) : Ring α ρ :=
  match r.kernel[i]? with
  | none => r
  | some c =>
    match c.ops with
    | [] => r
    | op :: _ =>
      { r with
        kernel := r.kernel.take i ++ rest c ok ++ r.kernel.drop (i + 1)
        cq := r.cq ++ [(op, result)] }

/-- The next completion is taken. -/
def reap (r : Ring α ρ) : Ring α ρ := { r with cq := r.cq.tail }

/-- The chains that have not been executed. -/
def waiting (r : Ring α ρ) : List (Chain α) := r.kernel ++ r.sq

def line (r : Ring α ρ) : List α := r.cq.map Prod.fst ++ r.waiting.flatMap Chain.ops

variable {r : Ring α ρ} {op : α}

theorem push_of_not_linking (h : r.linking = false) (link : Bool) :
    r.push op link = { r with sq := r.sq ++ [⟨[op], false⟩], linking := link } := by
  rw [push, if_neg (by simp [h])]

theorem queued_push (h : r.linking = false) (link : Bool) :
    (r.push op link).queued = r.queued + 1 := by
  rw [push_of_not_linking h]
  simp [queued]

/-- An operation that is pushed is the last one in line. -/
theorem line_push (op : α) (link : Bool) (r : Ring α ρ) :
    (r.push op link).line = r.line ++ [op] := by
  unfold push
  split_ifs
  · cases hlast : r.sq.getLast? with
    | none =>
      have hnil : r.sq = [] := List.getLast?_eq_none_iff.mp hlast
      simp [line, waiting, hnil]
    | some c =>
      have hsplit : r.sq.dropLast ++ [c] = r.sq := List.dropLast_append_getLast? c hlast
      have hops : r.sq.flatMap Chain.ops = r.sq.dropLast.flatMap Chain.ops ++ c.ops := by
        rw [← hsplit]
        simp
      simp [line, waiting, hops]
  · simp [line, waiting]

/-- Two linked operations form a chain. -/
theorem push_pair (h : r.linking = false) (op op' : α) :
    (r.push op true).push op' false =
      { r with sq := r.sq ++ [⟨[op, op'], false⟩], linking := false } := by
  rw [push_of_not_linking h, push, if_pos rfl]
  simp

@[simp] theorem cq_push (op : α) (link : Bool) (r : Ring α ρ) : (r.push op link).cq = r.cq := by
  unfold push
  split_ifs
  · cases r.sq.getLast? <;> rfl
  · rfl

@[simp] theorem line_submit (r : Ring α ρ) : r.submit.line = r.line := by
  simp [line, submit, waiting]

@[simp] theorem waiting_submit (r : Ring α ρ) : r.submit.waiting = r.waiting := by
  simp [submit, waiting]

@[simp] theorem cq_submit (r : Ring α ρ) : r.submit.cq = r.cq := rfl

theorem line_of_cq {result : ρ} {cq : List (α × ρ)} (h : r.cq = (op, result) :: cq) :
    r.line = op :: r.reap.line := by
  simp [line, reap, waiting, h]

/-- The chain that is executed, with those before and behind it. -/
theorem complete_eq {i : ℕ} {c : Chain α} {ops : List α} (hc : r.kernel[i]? = some c)
    (hops : c.ops = op :: ops) (result : ρ) (ok : Bool) :
    r.complete i result ok =
      { r with
        kernel := r.kernel.take i ++ rest c ok ++ r.kernel.drop (i + 1)
        cq := r.cq ++ [(op, result)] } := by
  unfold complete
  rw [hc]
  dsimp only
  rw [hops]

theorem waiting_split {i : ℕ} {c : Chain α} (hc : r.kernel[i]? = some c) :
    r.waiting = r.kernel.take i ++ c :: (r.kernel.drop (i + 1) ++ r.sq) := by
  obtain ⟨hlt, rfl⟩ := List.getElem?_eq_some_iff.mp hc
  have hsplit : r.kernel = r.kernel.take i ++ r.kernel[i] :: r.kernel.drop (i + 1) := by
    rw [← List.drop_eq_getElem_cons hlt, List.take_append_drop]
  calc r.kernel ++ r.sq
      = (r.kernel.take i ++ r.kernel[i] :: r.kernel.drop (i + 1)) ++ r.sq := by rw [← hsplit]
    _ = _ := by rw [List.append_assoc, List.cons_append]

theorem ops_rest (c : Chain α) (ok : Bool) : (rest c ok).flatMap Chain.ops = c.ops.tail := by
  unfold rest
  split_ifs with h
  · simp [h]
  · simp

theorem waiting_complete {i : ℕ} {c : Chain α} {ops : List α} (hc : r.kernel[i]? = some c)
    (hops : c.ops = op :: ops) (result : ρ) (ok : Bool) :
    (r.complete i result ok).waiting =
      r.kernel.take i ++ rest c ok ++ (r.kernel.drop (i + 1) ++ r.sq) := by
  rw [complete_eq hc hops]
  simp [waiting]

end Ring

/-! ## Operations by key -/

section Keys
variable {κ : Type*} {key : α → Option κ}

/-- No key is in two chains. -/
def Apart (key : α → Option κ) (cs : List (Chain α)) : Prop :=
  cs.Pairwise fun c c' => ∀ a ∈ c.ops, ∀ b ∈ c'.ops, key a = none ∨ key a ≠ key b

namespace Ring
variable {r : Ring α ρ} {op : α} {i : ℕ} {c : Chain α} {ops : List α}

theorem line_complete (hc : r.kernel[i]? = some c) (hops : c.ops = op :: ops) (result : ρ)
    (ok : Bool) :
    (r.complete i result ok).line = r.cq.map Prod.fst ++ op :: ((r.kernel.take i).flatMap Chain.ops ++
      (ops ++ (r.kernel.drop (i + 1) ++ r.sq).flatMap Chain.ops)) := by
  rw [line, waiting_complete hc hops, complete_eq hc hops]
  simp [ops_rest, hops]

theorem line_split (hc : r.kernel[i]? = some c) (hops : c.ops = op :: ops) :
    r.line = r.cq.map Prod.fst ++ ((r.kernel.take i).flatMap Chain.ops ++
      op :: (ops ++ (r.kernel.drop (i + 1) ++ r.sq).flatMap Chain.ops)) := by
  rw [line, waiting_split hc]
  simp [hops]

/-- An operation that is executed stays in line. -/
theorem line_complete_perm (hc : r.kernel[i]? = some c) (hops : c.ops = op :: ops) (result : ρ)
    (ok : Bool) : (r.complete i result ok).line.Perm r.line := by
  rw [line_complete hc hops, line_split hc hops]
  exact List.perm_middle.symm.append_left _

theorem apart_of_mem_take (h : Apart key r.waiting) (hc : r.kernel[i]? = some c) {a b : α}
    (ha : a ∈ (r.kernel.take i).flatMap Chain.ops) (hb : b ∈ c.ops) :
    key a = none ∨ key a ≠ key b := by
  rw [waiting_split hc] at h
  obtain ⟨c', hc', ha⟩ := List.mem_flatMap.mp ha
  exact (List.pairwise_append.mp h).2.2 c' hc' c List.mem_cons_self a ha b hb

/-- It does not pass another one with its key. -/
theorem filter_complete [DecidableEq κ] (h : Apart key r.waiting) (hc : r.kernel[i]? = some c)
    (hops : c.ops = op :: ops) (result : ρ) (ok : Bool) (x : κ) :
    (r.complete i result ok).line.filter (key · = some x) = r.line.filter (key · = some x) := by
  rw [line_complete hc hops, line_split hc hops]
  simp only [List.filter_append, List.filter_cons]
  by_cases hkey : key op = some x
  · have hnone : ((r.kernel.take i).flatMap Chain.ops).filter (key · = some x) = [] := by
      rw [List.filter_eq_nil_iff]
      intro a ha
      have hop : op ∈ c.ops := hops ▸ List.mem_cons_self
      rcases apart_of_mem_take h hc ha hop with hno | hne
      · simp [hno]
      · simpa [hkey] using hne
    rw [hnone]
    simp [hkey]
  · simp [hkey]

theorem apart_complete (h : Apart key r.waiting) (hc : r.kernel[i]? = some c)
    (hops : c.ops = op :: ops) (result : ρ) (ok : Bool) :
    Apart key (r.complete i result ok).waiting := by
  rw [waiting_complete hc hops]
  rw [waiting_split hc, Apart, List.pairwise_append, List.pairwise_cons] at h
  obtain ⟨hbefore, ⟨hchain, hbehind⟩, hacross⟩ := h
  have hrest : ∀ c' ∈ rest c ok, ∀ a ∈ c'.ops, a ∈ c.ops := by
    intro c' hc' a ha
    unfold rest at hc'
    split_ifs at hc'
    · cases hc'
    · obtain rfl := List.mem_singleton.mp hc'
      exact List.mem_of_mem_tail ha
  have hone : (rest c ok).Pairwise fun c c' => ∀ a ∈ c.ops, ∀ b ∈ c'.ops,
      key a = none ∨ key a ≠ key b := by
    unfold rest
    split_ifs
    · exact List.Pairwise.nil
    · exact List.pairwise_singleton _ _
  rw [Apart, List.append_assoc, List.pairwise_append, List.pairwise_append]
  refine ⟨hbefore, ⟨hone, hbehind, ?_⟩, ?_⟩
  · exact fun c' hc' d hd a ha b hb => hchain d hd a (hrest c' hc' a ha) b hb
  · intro c' hc' d hd a ha b hb
    rcases List.mem_append.mp hd with hd | hd
    · exact hacross c' hc' c List.mem_cons_self a ha b (hrest d hd b hb)
    · exact hacross c' hc' d (List.mem_cons_of_mem _ hd) a ha b hb

/-- A chain with a new key is apart from the others. -/
theorem apart_append {cs : List (Chain α)} {c : Chain α} (h : Apart key cs)
    (hnew : ∀ a ∈ cs.flatMap Chain.ops, ∀ b ∈ c.ops, key a = none ∨ key a ≠ key b) :
    Apart key (cs ++ [c]) := by
  rw [Apart, List.pairwise_append]
  refine ⟨h, List.pairwise_singleton _ _, fun c' hc' d hd a ha b hb => ?_⟩
  obtain rfl := List.mem_singleton.mp hd
  exact hnew a (List.mem_flatMap.mpr ⟨c', hc', ha⟩) b hb

end Ring

end Keys

end Uring
