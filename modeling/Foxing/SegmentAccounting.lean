import Foxing.SegmentCopy
import Mathlib.Data.List.Perm.Basic
import Mathlib.Data.List.Nodup

/-!
# Buffers and operations in flight

As long as a linked pair is never pushed by halves, the counter of operations tells how many there
are in the ring, and no buffer is free while an operation uses it. No buffer is lost as long as no
zero block fails to be punched or is left over after an error, and the copy does not return while
operations are in flight.
-/
namespace Foxing.SegmentCopy
open Uring

/-- The buffer that an operation uses. -/
def RingOp.key (op : RingOp) : Option ℕ := if op.kind = .hole then none else some op.index

theorem RingOp.key_eq_some {op : RingOp} {x : ℕ} :
    op.key = some x ↔ op.kind ≠ .hole ∧ op.index = x := by
  unfold RingOp.key
  split_ifs with h
  · simp [h]
  · simp [h]

/-- The operations in line that use a buffer. -/
def active (r : Ring RingOp ℤ) : List RingOp := r.line.filter fun op => op.key.isSome

def opsOf (x : ℕ) (r : Ring RingOp ℤ) : List RingOp := r.line.filter (·.key = some x)

theorem active_reap {r : Ring RingOp ℤ} {op : RingOp} {result : ℤ} {cq : List (RingOp × ℤ)}
    (hcq : r.cq = (op, result) :: cq) :
    active r = if op.kind = .hole then active r.reap else op :: active r.reap := by
  unfold active
  rw [Ring.line_of_cq hcq, List.filter_cons]
  split_ifs with hkey hkind hkind
  · simp [RingOp.key, hkind] at hkey
  · rfl
  · rfl
  · simp [RingOp.key, hkind] at hkey

/-- What uses one buffer: a write with its read before it in linked mode, else one operation. -/
def Shape (linked : Bool) : List RingOp → Prop
  | [] => True
  | [op] => linked = true → op.kind = .write
  | [op, op'] => linked = true ∧ op.kind = .read ∧ op'.kind = .write
  | _ => False

theorem Shape.tail {linked : Bool} {op : RingOp} {ops : List RingOp}
    (h : Shape linked (op :: ops)) : Shape linked ops := by
  rcases ops with _ | ⟨op', _ | ⟨op'', ops⟩⟩
  · trivial
  · exact fun _ => h.2.2
  · exact h.elim

/-- The free buffers, the ring and the number of operations in it agree. -/
structure RingSafe (cfg : Config) (free : List ℕ) (r : Ring RingOp ℤ) (n : ℕ) : Prop where
  count : n = (active r).length
  nodup : free.Nodup
  bound : ∀ x ∈ free, x < cfg.capacity
  apart : ∀ x ∈ free, opsOf x r = []
  used : ∀ op ∈ active r, op.index < cfg.capacity
  shape : ∀ x, Shape cfg.useLinkedSqe (opsOf x r)
  chains : Apart RingOp.key r.waiting
  closed : r.linking = false

namespace RingSafe
variable {cfg : Config} {free : List ℕ} {r : Ring RingOp ℤ} {n : ℕ}

theorem submit (h : RingSafe cfg free r n) : RingSafe cfg free r.submit n where
  count := by simpa [active] using h.count
  nodup := h.nodup
  bound := h.bound
  apart := by simpa [opsOf] using h.apart
  used := by simpa [active] using h.used
  shape := by simpa [opsOf] using h.shape
  chains := by simpa using h.chains
  closed := rfl

theorem complete (h : RingSafe cfg free r n) {i : ℕ} {c : Chain RingOp} {op : RingOp}
    {ops : List RingOp} (hc : r.kernel[i]? = some c) (hops : c.ops = op :: ops) (result : ℤ)
    (ok : Bool) : RingSafe cfg free (r.complete i result ok) n := by
  have hperm := (Ring.line_complete_perm hc hops result ok).filter fun op => op.key.isSome
  have hof : ∀ x, opsOf x (r.complete i result ok) = opsOf x r :=
    fun x => Ring.filter_complete h.chains hc hops result ok x
  refine ⟨h.count.trans hperm.length_eq.symm, h.nodup, h.bound, ?_, ?_, ?_,
    Ring.apart_complete h.chains hc hops result ok, ?_⟩
  · intro x hx
    rw [hof]
    exact h.apart x hx
  · exact fun op hop => h.used op (hperm.mem_iff.mp hop)
  · intro x
    rw [hof]
    exact h.shape x
  · rw [Ring.complete_eq hc hops]
    exact h.closed

/-- A buffer is taken from the pool. -/
theorem acquire (h : RingSafe cfg free r n) {x : ℕ} {rest : List ℕ}
    (hx : acquire cfg free = some (x, rest)) :
    RingSafe cfg rest r n ∧ x ∉ rest ∧ opsOf x r = [] ∧ x < cfg.capacity ∧
      ∀ y, y ∈ free ↔ y = x ∨ y ∈ rest := by
  have hperm : free.Perm (x :: rest) := by
    unfold SegmentCopy.acquire at hx
    split_ifs at hx with hshared
    · cases free with
      | nil => cases hx
      | cons y ys =>
        cases hx
        exact List.Perm.refl _
    · cases hlast : free.getLast? with
      | none =>
        rw [hlast] at hx
        cases hx
      | some y =>
        rw [hlast] at hx
        cases hx
        have hne : free ≠ [] := by
          rintro rfl
          cases hlast
        rw [List.getLast?_eq_some_getLast hne] at hlast
        obtain rfl := Option.some.inj hlast
        have hsnoc : (free.dropLast ++ [free.getLast hne]).Perm (free.getLast hne :: free.dropLast) :=
          List.perm_append_comm
        rwa [List.dropLast_append_getLast hne] at hsnoc
  have hnodup : (x :: rest).Nodup := hperm.nodup_iff.mp h.nodup
  have hmem : ∀ y, y ∈ free ↔ y = x ∨ y ∈ rest := fun y => by rw [hperm.mem_iff, List.mem_cons]
  refine ⟨⟨h.count, (List.nodup_cons.mp hnodup).2, ?_, ?_, h.used, h.shape, h.chains,
    h.closed⟩, (List.nodup_cons.mp hnodup).1, h.apart x ?_, h.bound x ?_, hmem⟩
  · exact fun y hy => h.bound y ((hmem y).mpr (.inr hy))
  · exact fun y hy => h.apart y ((hmem y).mpr (.inr hy))
  · exact (hmem x).mpr (.inl rfl)
  · exact (hmem x).mpr (.inl rfl)

/-- A pool that lacks a buffer is not full. -/
theorem length_lt (h : RingSafe cfg free r n) {x : ℕ} (hx : x ∉ free) (hlt : x < cfg.capacity) :
    free.length < cfg.capacity := by
  have hnodup : (x :: free).Nodup := List.nodup_cons.mpr ⟨hx, h.nodup⟩
  have hsub : x :: free ⊆ List.range cfg.capacity := by
    intro y hy
    rw [List.mem_range]
    rcases List.mem_cons.mp hy with rfl | hy
    · exact hlt
    · exact h.bound y hy
  have hle := (List.subperm_of_subset hnodup hsub).length_le
  rw [List.length_cons, List.length_range] at hle
  omega

/-- A buffer that is not used any more is given back. -/
theorem release (h : RingSafe cfg free r n) {x : ℕ} (hx : x ∉ free) (hlt : x < cfg.capacity)
    (hof : opsOf x r = []) : RingSafe cfg (free ++ [x]) r n := by
  refine ⟨h.count, ?_, ?_, ?_, h.used, h.shape, h.chains, h.closed⟩
  · exact h.nodup.append (List.nodup_singleton x) (List.disjoint_singleton.mpr hx)
  · intro y hy
    rcases List.mem_append.mp hy with hy | hy
    · exact h.bound y hy
    · rw [List.mem_singleton.mp hy]
      exact hlt
  · intro y hy
    rcases List.mem_append.mp hy with hy | hy
    · exact h.apart y hy
    · rw [List.mem_singleton.mp hy]
      exact hof

theorem line_chain (r : Ring RingOp ℤ) (ops : List RingOp) :
    Ring.line { r with sq := r.sq ++ [⟨ops, false⟩], linking := false } = r.line ++ ops := by
  simp [Ring.line, Ring.waiting]

theorem filter_key {ops : List RingOp} {x : ℕ} (hkey : ∀ op ∈ ops, op.key = some x) (y : ℕ) :
    ops.filter (·.key = some y) = if y = x then ops else [] := by
  split_ifs with hy
  · rw [List.filter_eq_self]
    intro op hop
    simp [hkey op hop, hy]
  · rw [List.filter_eq_nil_iff]
    intro op hop
    simp [hkey op hop, Ne.symm hy]

theorem opsOf_chain {ops : List RingOp} {x : ℕ} (hkey : ∀ op ∈ ops, op.key = some x) (y : ℕ) :
    opsOf y { r with sq := r.sq ++ [⟨ops, false⟩], linking := false } =
      opsOf y r ++ if y = x then ops else [] := by
  unfold opsOf
  rw [line_chain, List.filter_append, filter_key hkey]

/-- A chain is pushed for a buffer that nothing uses. -/
theorem pushChain (h : RingSafe cfg free r n) {x : ℕ} {ops : List RingOp} (hx : x ∉ free)
    (hlt : x < cfg.capacity) (hof : opsOf x r = []) (hkey : ∀ op ∈ ops, op.key = some x)
    (hshape : Shape cfg.useLinkedSqe ops) :
    RingSafe cfg free { r with sq := r.sq ++ [⟨ops, false⟩], linking := false }
      (n + ops.length) := by
  have hactive : active { r with sq := r.sq ++ [⟨ops, false⟩], linking := false } =
      active r ++ ops := by
    have hself : ops.filter (fun op => op.key.isSome) = ops := by
      rw [List.filter_eq_self]
      intro op hop
      simp [hkey op hop]
    unfold active
    rw [line_chain, List.filter_append, hself]
  refine ⟨?_, h.nodup, h.bound, ?_, ?_, ?_, ?_, rfl⟩
  · rw [hactive, List.length_append, ← h.count]
  · intro y hy
    have hne : y ≠ x := fun heq => hx (heq ▸ hy)
    rw [opsOf_chain hkey, h.apart y hy, if_neg hne]
    rfl
  · intro op hop
    rw [hactive] at hop
    rcases List.mem_append.mp hop with hop | hop
    · exact h.used op hop
    · rw [(RingOp.key_eq_some.mp (hkey op hop)).2]
      exact hlt
  · intro y
    rw [opsOf_chain hkey]
    split_ifs with hy
    · rw [hy, hof]
      exact hshape
    · rw [List.append_nil]
      exact h.shape y
  · have hwaiting : Ring.waiting { r with sq := r.sq ++ [⟨ops, false⟩], linking := false } =
        r.waiting ++ [⟨ops, false⟩] := by
      simp [Ring.waiting]
    rw [hwaiting]
    refine Ring.apart_append h.chains fun a ha b hb => .inr ?_
    rw [hkey b hb]
    intro hkey'
    have hmem : a ∈ opsOf x r := by
      refine List.mem_filter.mpr ⟨List.mem_append.mpr (.inr ha), ?_⟩
      simpa using hkey'
    rw [hof] at hmem
    cases hmem

/-- The next completion is taken from the ring. -/
theorem pop (h : RingSafe cfg free r n) {op : RingOp} {result : ℤ} {cq : List (RingOp × ℤ)}
    (hcq : r.cq = (op, result) :: cq) (hkind : op.kind ≠ .hole) :
    0 < n ∧ RingSafe cfg free r.reap (n - 1) ∧ op.index ∉ free ∧ op.index < cfg.capacity ∧
      opsOf op.index r = op :: opsOf op.index r.reap ∧
      ∀ y, y ≠ op.index → opsOf y r.reap = opsOf y r := by
  have hline := Ring.line_of_cq hcq
  have hkey : op.key = some op.index := RingOp.key_eq_some.mpr ⟨hkind, rfl⟩
  have hactive : active r = op :: active r.reap := (active_reap hcq).trans (if_neg hkind)
  have hown : opsOf op.index r = op :: opsOf op.index r.reap := by
    unfold opsOf
    rw [hline, List.filter_cons, if_pos (by simp [hkey])]
  have hother : ∀ y, y ≠ op.index → opsOf y r.reap = opsOf y r := by
    intro y hy
    unfold opsOf
    rw [hline, List.filter_cons, if_neg (by simpa [hkey] using Ne.symm hy)]
  have hcount := h.count
  rw [hactive, List.length_cons] at hcount
  have hfree : op.index ∉ free := by
    intro hmem
    rw [h.apart _ hmem] at hown
    cases hown
  refine ⟨by omega, ⟨by omega, h.nodup, h.bound, ?_, ?_, ?_, h.chains, h.closed⟩, hfree,
    h.used op (hactive ▸ List.mem_cons_self), hown, hother⟩
  · intro y hy
    rw [hother y fun heq => hfree (heq ▸ hy)]
    exact h.apart y hy
  · exact fun a ha => h.used a (hactive ▸ List.mem_cons_of_mem _ ha)
  · intro y
    by_cases hy : y = op.index
    · rw [hy]
      exact Shape.tail (hown ▸ h.shape op.index)
    · rw [hother y hy]
      exact h.shape y

/-- A hole that has been punched is passed over. -/
theorem popHole (h : RingSafe cfg free r n) {op : RingOp} {result : ℤ} {cq : List (RingOp × ℤ)}
    (hcq : r.cq = (op, result) :: cq) (hkind : op.kind = .hole) :
    RingSafe cfg free r.reap n ∧ ∀ y, opsOf y r.reap = opsOf y r := by
  have hline := Ring.line_of_cq hcq
  have hkey : op.key = none := by simp [RingOp.key, hkind]
  have hactive : active r.reap = active r := ((active_reap hcq).trans (if_pos hkind)).symm
  have hof : ∀ y, opsOf y r.reap = opsOf y r := by
    intro y
    unfold opsOf
    rw [hline, List.filter_cons, if_neg (by simp [hkey])]
  refine ⟨⟨hactive ▸ h.count, h.nodup, h.bound, ?_, hactive ▸ h.used, ?_, h.chains,
    h.closed⟩, hof⟩
  · exact fun y hy => (hof y).trans (h.apart y hy)
  · exact fun y => (hof y).symm ▸ h.shape y

end RingSafe

/-! ## No buffer is lost -/

/-- The buffers of the pool are free or used. `lossless` is about those that are neither. -/
structure Ledger (cfg : Config) (free₀ : List ℕ) (lossless : Bool) (free : List ℕ)
    (r : Ring RingOp ℤ) (n : ℕ) : Prop extends RingSafe cfg free r n where
  given : ∀ x, x ∈ free ∨ opsOf x r ≠ [] → x ∈ free₀
  kept : lossless = true → ∀ x ∈ free₀, x ∈ free ∨ opsOf x r ≠ []

/-- A buffer that is neither free nor used is in the hands of the copy. -/
structure InHand (cfg : Config) (free₀ : List ℕ) (lossless : Bool) (x : ℕ) (free : List ℕ)
    (r : Ring RingOp ℤ) (n : ℕ) : Prop extends RingSafe cfg free r n where
  taken : x ∉ free
  lt : x < cfg.capacity
  unused : opsOf x r = []
  given : ∀ y, y ∈ free ∨ opsOf y r ≠ [] ∨ y = x → y ∈ free₀
  kept : lossless = true → ∀ y ∈ free₀, y ∈ free ∨ opsOf y r ≠ [] ∨ y = x

section Hand
variable {cfg : Config} {free₀ free : List ℕ} {lossless : Bool} {r : Ring RingOp ℤ} {n x : ℕ}

theorem Ledger.acquire (h : Ledger cfg free₀ lossless free r n) {rest : List ℕ}
    (hx : acquire cfg free = some (x, rest)) : InHand cfg free₀ lossless x rest r n := by
  obtain ⟨hsafe, htaken, hunused, hlt, hmem⟩ := h.toRingSafe.acquire hx
  refine ⟨hsafe, htaken, hlt, hunused, fun y hy => h.given y ?_, fun hl y hy => ?_⟩
  · rw [hmem]
    tauto
  · have := h.kept hl y hy
    rw [hmem] at this
    tauto

theorem InHand.released (h : InHand cfg free₀ lossless x free r n) :
    Ledger cfg free₀ lossless (free ++ [x]) r n := by
  refine ⟨h.toRingSafe.release h.taken h.lt h.unused, fun y hy => h.given y ?_, fun hl y hy => ?_⟩
  · rw [List.mem_append, List.mem_singleton] at hy
    tauto
  · have := h.kept hl y hy
    rw [List.mem_append, List.mem_singleton]
    tauto

theorem InHand.release_free {s : State} (h : InHand cfg free₀ lossless x s.free r n) :
    (release cfg x s).free = s.free ++ [x] :=
  SegmentCopy.release_free cfg h.lt (h.toRingSafe.length_lt h.taken h.lt)

theorem InHand.pushed (h : InHand cfg free₀ lossless x free r n) {ops : List RingOp}
    (hne : ops ≠ []) (hkey : ∀ op ∈ ops, op.key = some x) (hshape : Shape cfg.useLinkedSqe ops) :
    Ledger cfg free₀ lossless free { r with sq := r.sq ++ [⟨ops, false⟩], linking := false }
      (n + ops.length) := by
  have hof : ∀ y, opsOf y { r with sq := r.sq ++ [⟨ops, false⟩], linking := false } ≠ [] ↔
      opsOf y r ≠ [] ∨ y = x := by
    intro y
    rw [RingSafe.opsOf_chain hkey, Ne, List.append_eq_nil_iff, not_and_or]
    split_ifs with hy
    · simp [hy, hne]
    · simp [hy]
  refine ⟨h.toRingSafe.pushChain h.taken h.lt h.unused hkey hshape, fun y hy => h.given y ?_,
    fun hl y hy => ?_⟩
  · rwa [hof] at hy
  · rw [hof]
    exact h.kept hl y hy

end Hand

/-- A completion has been taken, and the counter `n` is still to be changed. -/
structure Popped (cfg : Config) (free₀ : List ℕ) (lossless : Bool) (op : RingOp) (free : List ℕ)
    (r : Ring RingOp ℤ) (n : ℕ) : Prop where
  positive : 0 < n
  safe : RingSafe cfg free r (n - 1)
  taken : op.index ∉ free
  bound : op.index < cfg.capacity
  shape : Shape cfg.useLinkedSqe (op :: opsOf op.index r)
  given : ∀ x, x ∈ free ∨ opsOf x r ≠ [] ∨ x = op.index → x ∈ free₀
  kept : lossless = true → ∀ x ∈ free₀, x ∈ free ∨ opsOf x r ≠ [] ∨ x = op.index

theorem Ledger.pop {cfg : Config} {free₀ free : List ℕ} {lossless : Bool} {r : Ring RingOp ℤ}
    {n : ℕ} {op : RingOp} {result : ℤ} {cq : List (RingOp × ℤ)}
    (h : Ledger cfg free₀ lossless free r n) (hcq : r.cq = (op, result) :: cq)
    (hkind : op.kind ≠ .hole) : Popped cfg free₀ lossless op free r.reap n := by
  obtain ⟨hpos, hsafe, hfree, hlt, hown, hother⟩ := h.toRingSafe.pop hcq hkind
  have hne : opsOf op.index r ≠ [] := by
    rw [hown]
    exact List.cons_ne_nil _ _
  refine ⟨hpos, hsafe, hfree, hlt, hown ▸ h.shape op.index, fun x hx => ?_, fun hl x hx => ?_⟩
  · by_cases heq : x = op.index
    · exact h.given x (.inr (heq ▸ hne))
    · rw [hother x heq] at hx
      exact h.given x (by tauto)
  · by_cases heq : x = op.index
    · exact .inr (.inr heq)
    · rw [hother x heq]
      rcases h.kept hl x hx with hx | hx
      · exact .inl hx
      · exact .inr (.inl hx)

namespace Popped
variable {cfg : Config} {free₀ free : List ℕ} {lossless : Bool} {r : Ring RingOp ℤ} {n : ℕ}
  {op : RingOp}

theorem decr_eq (h : Popped cfg free₀ lossless op free r n) : decr n = n - 1 := by
  rw [decr, if_neg (Nat.ne_of_gt h.positive)]

/-- Nothing else uses the buffer of a write, and in decoupled mode of any operation. -/
theorem inHand (h : Popped cfg free₀ lossless op free r n)
    (hlast : cfg.useLinkedSqe = true → op.kind = .write) :
    InHand cfg free₀ lossless op.index free r (n - 1) := by
  refine ⟨h.safe, h.taken, h.bound, ?_, h.given, h.kept⟩
  have hshape := h.shape
  generalize opsOf op.index r = ops at hshape
  rcases ops with _ | ⟨op', _ | ⟨op'', ops⟩⟩
  · rfl
  · obtain ⟨hlinked, hread, -⟩ := hshape
    rw [hlast hlinked] at hread
    cases hread
  · exact hshape.elim

/-- The buffer of a linked read is still used by its write. -/
theorem keeps (h : Popped cfg free₀ lossless op free r n) (hlinked : cfg.useLinkedSqe = true)
    (hkind : op.kind ≠ .write) : Ledger cfg free₀ lossless free r (decr n) := by
  have hne : opsOf op.index r ≠ [] := by
    intro hnil
    have hshape := h.shape
    rw [hnil] at hshape
    exact hkind (hshape hlinked)
  rw [h.decr_eq]
  refine ⟨h.safe, fun x hx => h.given x (by tauto), fun hl x hx => ?_⟩
  rcases h.kept hl x hx with hx | hx | rfl
  · exact .inl hx
  · exact .inr hx
  · exact .inr hne

theorem loses (h : Popped cfg free₀ lossless op free r n) (hlossy : lossless = false) :
    Ledger cfg free₀ lossless free r (decr n) := by
  rw [h.decr_eq]
  refine ⟨h.safe, fun x hx => h.given x (by tauto), fun hl => ?_⟩
  rw [hlossy] at hl
  cases hl

/-- The buffer is given back. -/
theorem released (h : Popped cfg free₀ lossless op free r n)
    (hlast : cfg.useLinkedSqe = true → op.kind = .write) :
    Ledger cfg free₀ lossless (free ++ [op.index]) r (decr n) := by
  rw [h.decr_eq]
  exact (h.inHand hlast).released

/-- Another operation is pushed for the buffer, and the counter stays. -/
theorem pushed (h : Popped cfg free₀ lossless op free r n)
    (hlast : cfg.useLinkedSqe = true → op.kind = .write) {op' : RingOp} (hkind : op'.kind ≠ .hole)
    (hindex : op'.index = op.index) (hshape : cfg.useLinkedSqe = true → op'.kind = .write) :
    Ledger cfg free₀ lossless free (r.push op' false) n := by
  have hpos := h.positive
  have hkey : ∀ a ∈ [op'], a.key = some op.index := by
    intro a ha
    rw [List.mem_singleton.mp ha]
    exact RingOp.key_eq_some.mpr ⟨hkind, hindex⟩
  have hcount : n - 1 + [op'].length = n := by
    rw [List.length_singleton]
    omega
  have hpushed := (h.inHand hlast).pushed (List.cons_ne_nil _ _) hkey hshape
  rw [hcount] at hpushed
  rw [Ring.push_of_not_linking h.safe.closed]
  exact hpushed

end Popped

/-! ## Steps -/

/-- The ledger of a copy. -/
def State.Balanced (cfg : Config) (free₀ : List ℕ) (lossless : Bool) (s : State) : Prop :=
  Ledger cfg free₀ lossless s.free s.ring s.inflightOps

/-- The buffer that a turn of the submitting loop takes. -/
def taken (cfg : Config) (submits : Bool) (s : State) : Option ℕ :=
  if wantsChunk cfg s ∧ (makeRoom cfg submits s).encounteredError = none ∧
      ¬ sqFull cfg (makeRoom cfg submits s) then (acquire cfg s.free).map Prod.fst
  else none

/-- A linked pair is pushed by halves: there is room for one operation only. -/
def HalfPair (cfg : Config) (s : State) : Event → Prop
  | .iterate submits _ =>
    s.phase = .submitting ∧ cfg.useLinkedSqe = true ∧ taken cfg submits s ≠ none ∧
      (makeRoom cfg submits s).ring.queued + 1 = cfg.sqCapacity
  | _ => False

instance decidableHalfPair (cfg : Config) (s : State) : DecidablePred (HalfPair cfg s)
  | .clock _ _ => inferInstanceAs (Decidable False)
  | .iterate _ _ => inferInstanceAs (Decidable (_ ∧ _))
  | .flush _ => inferInstanceAs (Decidable False)
  | .reap _ => inferInstanceAs (Decidable False)
  | .execute _ _ => inferInstanceAs (Decidable False)

section Steps
variable {cfg : Config} {free₀ : List ℕ} {lossless : Bool} {s : State} {op : RingOp}

/-- The state after a completion has been taken from the ring. -/
def State.PoppedOp (cfg : Config) (free₀ : List ℕ) (lossless : Bool) (op : RingOp) (s : State) :
    Prop :=
  Popped cfg free₀ lossless op s.free s.ring s.inflightOps

theorem State.Balanced.submit (h : s.Balanced cfg free₀ lossless) :
    s.submit.Balanced cfg free₀ lossless := by
  refine ⟨h.toRingSafe.submit, ?_, ?_⟩
  · simpa [State.submit, opsOf] using h.given
  · simpa [State.submit, opsOf] using h.kept

/-- The buffer is given back after the counter has been decremented. -/
theorem State.PoppedOp.release (h : s.PoppedOp cfg free₀ lossless op)
    (hlast : cfg.useLinkedSqe = true → op.kind = .write) {s' : State} (hfree : s'.free = s.free)
    (hring : s'.ring = s.ring) (hcount : s'.inflightOps = decr s.inflightOps) :
    (release cfg op.index s').Balanced cfg free₀ lossless := by
  have hhand := h.inHand hlast
  have hlen := hhand.toRingSafe.length_lt hhand.taken hhand.lt
  unfold State.Balanced
  rw [release_free cfg hhand.lt (by rw [hfree]; exact hlen), release_ring, release_inflightOps,
    hfree, hring, hcount]
  exact Popped.released h hlast

/-- The general way to be done with an operation. A zero block is not given back. -/
theorem State.PoppedOp.giveBack (h : s.PoppedOp cfg free₀ lossless op)
    (hloss : op.kind = .falloc → lossless = false) :
    (giveBack cfg op s).decrInflight.Balanced cfg free₀ lossless := by
  unfold SegmentCopy.giveBack
  by_cases hgives : givesBack cfg op = true
  · rw [if_pos hgives]
    have hlast : cfg.useLinkedSqe = true → op.kind = .write := by
      intro hlinked
      have hboth : op.kind ≠ .falloc ∧ op.kind = .write := by
        simpa [givesBack, hlinked] using hgives
      exact hboth.2
    unfold State.Balanced
    rw [decrInflight_free, decrInflight_ring, decrInflight_inflightOps,
      (h.inHand hlast).release_free, release_ring, release_inflightOps]
    exact Popped.released h hlast
  · rw [if_neg hgives]
    by_cases hfalloc : op.kind = .falloc
    · exact Popped.loses h (hloss hfalloc)
    · have hother : cfg.useLinkedSqe = true ∧ op.kind ≠ .write := by
        simpa [givesBack, hfalloc] using hgives
      exact Popped.keeps h hother.1 hother.2

theorem State.PoppedOp.generalError (h : s.PoppedOp cfg free₀ lossless op)
    (hloss : op.kind = .falloc → lossless = false) (errno : ℕ) :
    (generalError cfg op errno s).Balanced cfg free₀ lossless :=
  h.giveBack hloss

theorem State.PoppedOp.failedOp (h : s.PoppedOp cfg free₀ lossless op)
    (hloss : op.kind = .falloc → lossless = false) (errno : ℕ) :
    (failedOp cfg op errno s).Balanced cfg free₀ lossless := by
  unfold SegmentCopy.failedOp
  by_cases hcancelled : errno = ecanceled ∧ cfg.useLinkedSqe ∧ op.kind = .write
  · rw [if_pos hcancelled]
    exact h.release (fun _ => hcancelled.2.2) rfl rfl rfl
  rw [if_neg hcancelled]
  by_cases hatomic : op.kind = .write ∧ s.atomicIntent op.index ∧
      (errno = eopnotsupp ∨ errno = einval)
  · rw [if_pos hatomic]
    unfold atomicFallback
    dsimp only
    split_ifs with hfull
    · exact State.PoppedOp.generalError (s := { s with
        atomicIntent := update s.atomicIntent op.index false
        encounteredError := some .sqFull }) h hloss errno
    · exact Popped.pushed h (fun _ => hatomic.1) (by simp) rfl fun _ => rfl
  · rw [if_neg hatomic]
    exact h.generalError hloss errno

/-- What has been read goes on: the counter has been decremented before. -/
theorem State.PoppedOp.pushNext (h : s.PoppedOp cfg free₀ lossless op)
    (hdecoupled : cfg.useLinkedSqe = false) (op' : RingOp) (hkind : op'.kind ≠ .hole)
    (hindex : op'.index = op.index) (zeros : ℕ) {s' : State} (hfree : s'.free = s.free)
    (hring : s'.ring = s.ring) (hcount : s'.inflightOps = decr s.inflightOps) :
    (pushNext cfg op' zeros s').Balanced cfg free₀ lossless := by
  have hlast : cfg.useLinkedSqe = true → op.kind = .write := by simp [hdecoupled]
  unfold SegmentCopy.pushNext
  split_ifs with hfull
  · rw [hindex]
    exact h.release hlast hfree hring hcount
  · have hpos := h.positive
    have hsame : decr s.inflightOps + 1 = s.inflightOps := by
      rw [Popped.decr_eq h]
      omega
    unfold State.Balanced State.push
    dsimp only
    rw [hfree, hring, hcount, hsame]
    exact Popped.pushed h hlast hkind hindex (by simp [hdecoupled])

theorem State.PoppedOp.readDone (h : s.PoppedOp cfg free₀ lossless op) (hkind : op.kind = .read)
    (bytes : ℕ) : (readDone cfg op bytes s).Balanced cfg free₀ lossless := by
  unfold SegmentCopy.readDone
  dsimp only
  by_cases hlinked : cfg.useLinkedSqe = true
  · rw [if_pos hlinked]
    exact Popped.keeps h hlinked (by simp [hkind])
  · rw [if_neg hlinked]
    have hdecoupled : cfg.useLinkedSqe = false := by simpa using hlinked
    split_ifs
    · exact h.pushNext hdecoupled ⟨.falloc, op.index, _, bytes⟩ (by simp) rfl bytes rfl rfl rfl
    · exact h.pushNext hdecoupled ⟨.write, op.index, _, bytes⟩ (by simp) rfl 0 rfl rfl rfl

/-- A completion is processed. No buffer is lost unless a zero block fails or is left over. -/
theorem State.PoppedOp.processCqe (h : s.PoppedOp cfg free₀ lossless op) (hkind : op.kind ≠ .hole)
    (result : ℤ)
    (hloss : op.kind = .falloc → lossless = true → 0 ≤ result ∧ s.encounteredError = none) :
    (processCqe cfg op result s).Balanced cfg free₀ lossless := by
  unfold SegmentCopy.processCqe
  rw [if_neg hkind]
  have hlossy : (result < 0 ∨ s.encounteredError ≠ none) → op.kind = .falloc →
      lossless = false := by
    intro hbad hfalloc
    cases lossless with
    | false => rfl
    | true =>
      obtain ⟨hok, hnone⟩ := hloss hfalloc rfl
      rcases hbad with hbad | hbad
      · omega
      · exact absurd hnone hbad
  by_cases hneg : result < 0
  · rw [if_pos hneg]
    exact h.failedOp (hlossy (.inl hneg)) _
  rw [if_neg hneg]
  by_cases herror : s.encounteredError ≠ none
  · rw [if_pos herror]
    exact h.giveBack (hlossy (.inr herror))
  rw [if_neg herror]
  cases hk : op.kind with
  | read => exact h.readDone hk result.toNat
  | write => exact h.release (fun _ => hk) rfl rfl rfl
  | falloc =>
    refine h.release (fun hlinked => ?_) rfl rfl rfl
    -- there is no such operation in linked mode
    have hshape := Popped.shape h
    generalize opsOf op.index s.ring = ops at hshape
    rcases ops with _ | ⟨op', _ | ⟨op'', ops⟩⟩
    · exact hshape hlinked
    · rw [hshape.2.1] at hk
      cases hk
    · exact hshape.elim
  | hole => exact absurd hk hkind

/-- A zero block that could not be punched out, or is found after an error, is not given back. -/
def LeftOver (op : RingOp) (result : ℤ) (s : State) : Prop :=
  op.kind = .falloc ∧ (result < 0 ∨ s.encounteredError ≠ none)

instance decidableLeftOver (op : RingOp) (result : ℤ) (s : State) :
    Decidable (LeftOver op result s) :=
  inferInstanceAs (Decidable (_ ∧ _))

/-- What a turn of the reaping loop loses, by the completions there are: a zero block, or all that
is in flight when there are none and waiting for them makes the copy return. -/
def ReapLoses (cfg : Config) (w : Wait) (s : State) : List (RingOp × ℤ) → Prop
  | (op, result) :: _ => LeftOver op result s
  | [] => 0 < s.inflightOps ∧ ¬ (0 < s.length ∧ 0 < s.free.length ∧ ¬ sqFull cfg s) ∧
      w ≠ .readable ∧ w ≠ .timeout false true

instance decidableReapLoses (cfg : Config) (w : Wait) (s : State) :
    DecidablePred (ReapLoses cfg w s)
  | (op, result) :: _ => decidableLeftOver op result s
  | [] => inferInstanceAs (Decidable (_ ∧ _))

/-- The loops are left while operations are in flight, or a zero block is left over. -/
def Loses (cfg : Config) (s : State) : Event → Prop
  | .clock timedOut stalled =>
    s.phase = .head ∧ 0 < s.inflightOps ∧
      (timedOut = true ∨ stalled = true ∧ s.bytesProcessed ≤ s.lastBytesProcessed)
  | .iterate submits _ =>
    s.phase = .submitting ∧ 0 < s.inflightOps ∧ cfg.useAtomic = true ∧
      (taken cfg submits s).any fun x => !cfg.checkAtomicInvariants s.offset (chunkLen cfg s) x
  | .flush _ => False
  | .reap w => s.phase = .reaping ∧ ReapLoses cfg w s s.ring.cq
  | .execute _ _ => False

instance decidableLoses (cfg : Config) (s : State) : DecidablePred (Loses cfg s)
  | .clock _ _ => inferInstanceAs (Decidable (_ ∧ _))
  | .iterate _ _ => inferInstanceAs (Decidable (_ ∧ _))
  | .flush _ => inferInstanceAs (Decidable False)
  | .reap _ => inferInstanceAs (Decidable (_ ∧ _))
  | .execute _ _ => inferInstanceAs (Decidable False)

theorem State.Balanced.reap (h : s.Balanced cfg free₀ lossless) (w : Wait)
    (hloss : lossless = true → ∀ op result cq, s.ring.cq = (op, result) :: cq →
      ¬ LeftOver op result s) :
    (reap cfg w s).Balanced cfg free₀ lossless := by
  unfold SegmentCopy.reap
  cases hcq : s.ring.cq with
  | cons cqe cq =>
    obtain ⟨op, result⟩ := cqe
    dsimp only
    by_cases hkind : op.kind = .hole
    · obtain ⟨hsafe, hof⟩ := h.toRingSafe.popHole hcq hkind
      unfold SegmentCopy.processCqe
      rw [if_pos hkind]
      refine ⟨hsafe, fun x hx => h.given x ?_, fun hl x hx => ?_⟩
      · rwa [hof] at hx
      · rw [hof]
        exact h.kept hl x hx
    · have hpop : State.PoppedOp cfg free₀ lossless op { s with ring := s.ring.reap } :=
        h.pop hcq hkind
      refine hpop.processCqe hkind result fun hfalloc hl => ?_
      have hnone := hloss hl op result cq hcq
      simp only [LeftOver, hfalloc, true_and, not_or, not_lt, ne_eq, not_not] at hnone
      exact hnone
  | nil =>
    dsimp only
    split_ifs
    · exact h
    · cases w with
      | readable => exact h
      | failed errno => exact h
      | timeout hung submits => cases hung <;> cases submits <;> first | exact h | exact h.submit
    · exact h

theorem State.Balanced.makeRoom (h : s.Balanced cfg free₀ lossless) (submits : Bool) :
    (makeRoom cfg submits s).Balanced cfg free₀ lossless := by
  unfold SegmentCopy.makeRoom
  split_ifs
  · exact h.submit
  · exact h
  · exact h

theorem State.Balanced.flush (h : s.Balanced cfg free₀ lossless) (submits : Bool) :
    (flush submits s).Balanced cfg free₀ lossless := by
  unfold SegmentCopy.flush
  split_ifs
  · exact h.submit
  · exact h
  · exact h

/-- A buffer in hand is given back. -/
theorem balanced_release {x : ℕ} (h : InHand cfg free₀ lossless x s.free s.ring s.inflightOps) :
    (release cfg x s).Balanced cfg free₀ lossless := by
  unfold State.Balanced
  rw [h.release_free, release_ring, release_inflightOps]
  exact h.released

/-- A chunk is pushed for a buffer in hand, or it is given back. -/
theorem balanced_pushChunk {x : ℕ} (h : InHand cfg free₀ lossless x s.free s.ring s.inflightOps)
    (hpair : cfg.useLinkedSqe = true → s.ring.queued + 1 ≠ cfg.sqCapacity)
    (partialSubmits : Bool) :
    (pushChunk cfg partialSubmits x s).Balanced cfg free₀ lossless := by
  have hrelease : (release cfg x s).Balanced cfg free₀ lossless := balanced_release h
  have hkey : ∀ (kind : OpKind) (offset len : ℕ), kind ≠ .hole →
      RingOp.key ⟨kind, x, offset, len⟩ = some x :=
    fun kind offset len hkind => RingOp.key_eq_some.mpr ⟨hkind, rfl⟩
  unfold pushChunk
  dsimp only
  by_cases hlinked : cfg.useLinkedSqe = true
  · rw [if_pos hlinked]
    by_cases hfull : sqFull cfg s
    · rw [if_pos hfull]
      exact hrelease
    · have hroom : ¬ sqFull cfg (s.push ⟨.read, x, s.offset, chunkLen cfg s⟩ true) := by
        have := hpair hlinked
        unfold sqFull State.push at *
        rw [Ring.queued_push h.closed]
        omega
      rw [if_neg hfull, if_neg hroom]
      unfold State.Balanced chunkPushed State.push
      dsimp only
      rw [Ring.push_pair h.closed]
      refine h.pushed (List.cons_ne_nil _ _) ?_ ⟨hlinked, rfl, rfl⟩
      intro op hop
      simp only [List.mem_cons, List.not_mem_nil, or_false] at hop
      rcases hop with rfl | rfl
      · exact hkey _ _ _ (by simp)
      · exact hkey _ _ _ (by simp)
  · rw [if_neg hlinked]
    by_cases hfull : sqFull cfg s
    · rw [if_pos hfull]
      split_ifs
      · exact hrelease.submit
      · exact hrelease
      · exact hrelease
    · rw [if_neg hfull]
      unfold State.Balanced chunkPushed State.push
      dsimp only
      rw [Ring.push_of_not_linking h.closed]
      refine h.pushed (List.cons_ne_nil _ _) ?_ fun hyes => absurd hyes hlinked
      intro op hop
      rw [List.mem_singleton.mp hop]
      exact hkey _ _ _ (by simp)

theorem taken_eq {submits : Bool} {x : ℕ} {rest : List ℕ} (hwants : wantsChunk cfg s)
    (hroom : ¬ ((makeRoom cfg submits s).encounteredError ≠ none ∨
      sqFull cfg (makeRoom cfg submits s)))
    (hx : acquire cfg s.free = some (x, rest)) : taken cfg submits s = some x := by
  rw [not_or, not_not] at hroom
  rw [taken, if_pos ⟨hwants, hroom⟩, hx]
  rfl

theorem State.Balanced.iterate (h : s.Balanced cfg free₀ lossless) (submits partialSubmits : Bool)
    (hpair : cfg.useLinkedSqe = true → taken cfg submits s ≠ none →
      (SegmentCopy.makeRoom cfg submits s).ring.queued + 1 ≠ cfg.sqCapacity) :
    (iterate cfg submits partialSubmits s).Balanced cfg free₀ lossless := by
  unfold SegmentCopy.iterate
  by_cases hwants : wantsChunk cfg s
  · rw [if_pos hwants]
    dsimp only
    have hroom := h.makeRoom submits
    split_ifs with hbreak
    · exact hroom
    · cases hacquire : acquire cfg (SegmentCopy.makeRoom cfg submits s).free with
      | none => exact hroom
      | some p =>
        obtain ⟨x, rest⟩ := p
        have hhand := Ledger.acquire hroom hacquire
        rw [makeRoom_free] at hacquire
        dsimp only
        unfold startChunk
        rw [if_neg (not_le.mpr hhand.lt)]
        split_ifs
        · exact balanced_release (s := { SegmentCopy.makeRoom cfg submits s with free := rest })
            hhand
        · refine balanced_pushChunk ?_ (fun hlinked => ?_) partialSubmits
          · exact hhand
          · apply hpair hlinked
            rw [taken_eq hwants hbreak hacquire]
            exact Option.some_ne_none x
  · rw [if_neg hwants]
    exact h

theorem State.Balanced.clock (h : s.Balanced cfg free₀ lossless) (timedOut stalled : Bool) :
    (clock timedOut stalled s).Balanced cfg free₀ lossless := by
  unfold SegmentCopy.clock
  split_ifs <;> exact h

theorem State.Balanced.execute (h : s.Balanced cfg free₀ lossless) (i : ℕ) (outcome : Outcome) :
    (execute cfg i outcome s).Balanced cfg free₀ lossless := by
  have hcomplete : ∀ {c : Chain RingOp} {op : RingOp} {ops : List RingOp},
      s.ring.kernel[i]? = some c → c.ops = op :: ops → ∀ result ok,
      Ledger cfg free₀ lossless s.free (s.ring.complete i result ok) s.inflightOps := by
    intro c op ops hc hops result ok
    have hof : ∀ x, opsOf x (s.ring.complete i result ok) = opsOf x s.ring :=
      fun x => Ring.filter_complete h.chains hc hops result ok x
    refine ⟨h.toRingSafe.complete hc hops result ok, fun x hx => h.given x ?_, fun hl x hx => ?_⟩
    · rwa [hof] at hx
    · rw [hof]
      exact h.kept hl x hx
  obtain heq | ⟨c, op, ops, hc, hops, ⟨-, heq⟩ | ⟨-, heq⟩⟩ := execute_cases cfg i outcome s
  · rw [heq]
    exact h
  · rw [heq]
    exact hcomplete hc hops _ _
  · obtain ⟨memory, dst, hsame⟩ := perform_eq cfg op outcome s
    rw [heq, hsame]
    exact hcomplete hc hops _ _

/-- A step keeps the ledger if it does not push half a pair, and loses no buffer if no zero block
is left over. -/
theorem State.Balanced.step (h : s.Balanced cfg free₀ lossless) (e : Event)
    (hpair : ¬ HalfPair cfg s e) (hloss : lossless = true → ¬ Loses cfg s e) :
    (step cfg s e).Balanced cfg free₀ lossless := by
  refine step_rule cfg e h ?_ ?_ ?_ ?_ ?_
  · intro timedOut stalled _ _
    exact h.clock timedOut stalled
  · rintro submits partialSubmits rfl hphase
    exact h.iterate submits partialSubmits fun hlinked htaken hone =>
      hpair ⟨hphase, hlinked, htaken, hone⟩
  · intro submits _ _
    exact h.flush submits
  · rintro w rfl hphase
    refine h.reap w fun hl op result cq hcq hleft => hloss hl ⟨hphase, ?_⟩
    rw [hcq]
    exact hleft
  · intro i outcome _
    exact h.execute i outcome

/-! ## The return -/

/-- A copy has returned only when nothing is in flight. -/
def State.Idle (s : State) : Prop := ∀ result, s.phase = .returned result → s.inflightOps = 0

theorem idle_of_ne (h : ∀ result, s.phase ≠ .returned result) : s.Idle :=
  fun result hphase => absurd hphase (h result)

theorem idle_of_eq (h : s.inflightOps = 0) : s.Idle := fun _ _ => h

theorem generalError_phase (cfg : Config) (op : RingOp) (errno : ℕ) (s : State) :
    (generalError cfg op errno s).phase = s.phase := by
  unfold SegmentCopy.generalError SegmentCopy.giveBack
  split_ifs <;> simp [State.decrInflight]

theorem failedOp_phase (cfg : Config) (op : RingOp) (errno : ℕ) (s : State) :
    (failedOp cfg op errno s).phase = s.phase := by
  unfold SegmentCopy.failedOp atomicFallback
  dsimp only
  split_ifs <;> simp [State.decrInflight, State.push, generalError_phase]

theorem pushNext_phase (cfg : Config) (op : RingOp) (zeros : ℕ) (s : State) :
    (pushNext cfg op zeros s).phase = s.phase := by
  unfold SegmentCopy.pushNext
  split_ifs <;> simp [State.push]

theorem processCqe_phase (cfg : Config) (op : RingOp) (result : ℤ) (s : State) :
    (processCqe cfg op result s).phase = s.phase := by
  unfold SegmentCopy.processCqe
  split_ifs
  · rfl
  · exact failedOp_phase cfg op _ s
  · unfold SegmentCopy.giveBack
    split_ifs <;> simp [State.decrInflight]
  · cases op.kind with
    | read =>
      unfold SegmentCopy.readDone
      dsimp only
      split_ifs <;> simp [pushNext_phase, State.decrInflight]
    | write => simp [State.decrInflight]
    | falloc => simp [State.decrInflight]
    | hole => rfl

theorem idle_clock (timedOut stalled : Bool)
    (h : 0 < s.inflightOps → ¬ (timedOut = true ∨
      stalled = true ∧ s.bytesProcessed ≤ s.lastBytesProcessed)) :
    (clock timedOut stalled s).Idle := by
  unfold SegmentCopy.clock
  split_ifs with hmore htime hprogress hstall
  · refine idle_of_eq ?_
    by_contra hpos
    exact h (by simp [State.fail] at hpos; omega) (.inl htime)
  · exact idle_of_ne (by simp)
  · exact absurd (Or.inr ⟨hstall.2, by omega⟩) (h hstall.1)
  · exact idle_of_ne (by simp)
  · exact idle_of_eq (by dsimp only; omega)

theorem pushChunk_phase (cfg : Config) (partialSubmits : Bool) (x : ℕ) (s : State) :
    (pushChunk cfg partialSubmits x s).phase = s.phase ∨
      (pushChunk cfg partialSubmits x s).phase = .flushing := by
  unfold pushChunk
  dsimp only
  split_ifs <;> simp [State.submit, State.push, chunkPushed]

theorem idle_iterate (hbalanced : s.Balanced cfg free₀ lossless) (hphase : s.phase = .submitting)
    (submits partialSubmits : Bool)
    (h : 0 < s.inflightOps → cfg.useAtomic = true →
      ¬ (taken cfg submits s).any fun x =>
        !cfg.checkAtomicInvariants s.offset (chunkLen cfg s) x) :
    (iterate cfg submits partialSubmits s).Idle := by
  unfold SegmentCopy.iterate
  by_cases hwants : wantsChunk cfg s
  · rw [if_pos hwants]
    dsimp only
    split_ifs with hbreak
    · exact idle_of_ne (by simp)
    · cases hacquire : acquire cfg (makeRoom cfg submits s).free with
      | none => exact idle_of_ne (by simp)
      | some p =>
        obtain ⟨x, rest⟩ := p
        have hlt : x < cfg.capacity := (Ledger.acquire (hbalanced.makeRoom submits) hacquire).lt
        rw [makeRoom_free] at hacquire
        dsimp only
        unfold startChunk
        rw [if_neg (not_le.mpr hlt)]
        split_ifs with hatomic
        · refine idle_of_eq ?_
          by_contra hpos
          have hcheck : cfg.checkAtomicInvariants s.offset (chunkLen cfg s) x = false := by
            have hlen : chunkLen cfg { makeRoom cfg submits s with free := rest } =
                chunkLen cfg s := by simp [chunkLen]
            rw [← hlen, ← makeRoom_offset cfg submits s]
            exact hatomic.2
          refine h (by simp at hpos; omega) hatomic.1 ?_
          simp [taken_eq hwants hbreak hacquire, hcheck]
        · refine idle_of_ne fun result => ?_
          rcases pushChunk_phase cfg partialSubmits x _ with heq | heq
          · rw [heq]
            simp [hphase]
          · rw [heq]
            simp
  · rw [if_neg hwants]
    exact idle_of_ne (by simp)

theorem idle_reap (hphase : s.phase = .reaping) (w : Wait) (h : ¬ Loses cfg s (.reap w)) :
    (reap cfg w s).Idle := by
  unfold SegmentCopy.reap
  unfold Loses at h
  cases hcq : s.ring.cq with
  | cons cqe cq =>
    refine idle_of_ne ?_
    simp [processCqe_phase, hphase]
  | nil =>
    simp only [hcq, hphase, true_and, ReapLoses] at h
    dsimp only
    split_ifs with hmore hpos
    · exact idle_of_ne (by simp)
    · have hwait : w = .readable ∨ w = .timeout false true := by tauto
      rcases hwait with rfl | rfl
      · exact idle_of_ne (by simp [hphase])
      · exact idle_of_ne (by simp [State.submit, hphase])
    · exact idle_of_ne (by simp)

theorem State.Idle.step (h : s.Idle) (hbalanced : s.Balanced cfg free₀ lossless) (e : Event)
    (hloss : ¬ Loses cfg s e) : (step cfg s e).Idle := by
  refine step_rule cfg e h ?_ ?_ ?_ ?_ ?_
  · rintro timedOut stalled rfl hphase
    exact idle_clock timedOut stalled fun hpos hearly => hloss ⟨hphase, hpos, hearly⟩
  · rintro submits partialSubmits rfl hphase
    exact idle_iterate hbalanced hphase submits partialSubmits fun hpos hatomic hcheck =>
      hloss ⟨hphase, hpos, hatomic, hcheck⟩
  · intro submits _ _
    unfold SegmentCopy.flush
    split_ifs <;> exact idle_of_ne (by simp)
  · rintro w rfl hphase
    exact idle_reap hphase w hloss
  · intro i outcome _
    obtain ⟨memory, dst, ring, hsame⟩ := execute_eq cfg i outcome s
    rw [hsame]
    exact h

end Steps

/-! ## Runs -/

/-- The buffers of a pool and the operations in flight are accounted for. -/
structure Accounted (free₀ : List ℕ) (s : State) : Prop where
  count : s.inflightOps = (active s.ring).length
  /-- There is something to count down when a completion is taken. -/
  positive : ∀ op result cq, s.ring.cq = (op, result) :: cq → op.kind ≠ .hole → 0 < s.inflightOps
  nodup : s.free.Nodup
  /-- A buffer is free or used, never both. -/
  apart : ∀ x ∈ s.free, opsOf x s.ring = []
  complete : ∀ x, x ∈ free₀ ↔ x ∈ s.free ∨ opsOf x s.ring ≠ []
  returned : ∀ result, s.phase = .returned result → s.free.Perm free₀

section Runs
variable {cfg : Config} {free₀ : List ℕ}

theorem accounted_of_balanced {s : State} (hfree₀ : free₀.Nodup)
    (h : s.Balanced cfg free₀ true) (hidle : s.Idle) : Accounted free₀ s := by
  have hcomplete : ∀ x, x ∈ free₀ ↔ x ∈ s.free ∨ opsOf x s.ring ≠ [] :=
    fun x => ⟨h.kept rfl x, h.given x⟩
  refine ⟨h.count, fun op result cq hcq hkind => (h.toRingSafe.pop hcq hkind).1, h.nodup, h.apart,
    hcomplete, fun result hreturned => ?_⟩
  have hnone : active s.ring = [] := by
    rw [← List.length_eq_zero_iff, ← h.count]
    exact hidle result hreturned
  have hunused : ∀ x, opsOf x s.ring = [] := by
    intro x
    rw [opsOf, List.filter_eq_nil_iff]
    intro op hop hkey
    have hmem : op ∈ active s.ring := by
      refine List.mem_filter.mpr ⟨hop, ?_⟩
      simp [of_decide_eq_true hkey]
    rw [hnone] at hmem
    cases hmem
  rw [List.perm_ext_iff_of_nodup h.nodup hfree₀]
  intro x
  simp [hcomplete x, hunused x]

/-- Nothing but holes is in the ring when a copy begins. -/
theorem balanced_start (hnodup : free₀.Nodup) (hbound : ∀ x ∈ free₀, x < cfg.capacity)
    (memory : ℕ → Bytes) (holes : ℕ) (dst : Bytes) (lossless : Bool) :
    (start cfg free₀ memory holes dst).Balanced cfg free₀ lossless := by
  have hline : ∀ op ∈ (start cfg free₀ memory holes dst).ring.line, op.key = none := by
    intro op hop
    simp only [start, Ring.line, Ring.waiting, List.map_nil, List.nil_append, List.mem_flatMap] at hop
    obtain ⟨c, hc, hop⟩ := hop
    rw [List.eq_of_mem_replicate hc] at hop
    rw [List.mem_singleton.mp hop]
    rfl
  have hactive : active (start cfg free₀ memory holes dst).ring = [] := by
    rw [active, List.filter_eq_nil_iff]
    intro op hop
    simp [hline op hop]
  have hof : ∀ x, opsOf x (start cfg free₀ memory holes dst).ring = [] := by
    intro x
    rw [opsOf, List.filter_eq_nil_iff]
    intro op hop
    simp [hline op hop]
  refine ⟨⟨?_, hnodup, hbound, fun x _ => hof x, ?_, ?_, ?_, rfl⟩, ?_, ?_⟩
  · rw [hactive]
    rfl
  · intro op hop
    rw [hactive] at hop
    cases hop
  · intro x
    rw [hof]
    trivial
  · refine List.pairwise_of_forall_mem_list ?_
    intro c hc d hd a ha b hb
    refine .inl (hline a ?_)
    exact List.mem_append.mpr (.inr (List.mem_flatMap.mpr ⟨c, hc, ha⟩))
  · intro x hx
    rw [hof] at hx
    tauto
  · exact fun _ x hx => .inl hx

/-- In a run that pushes no pair by halves, leaves over no zero block and does not return while
operations are in flight, everything is accounted for in every state. -/
theorem accounted_of_along (hnodup : free₀.Nodup) (hbound : ∀ x ∈ free₀, x < cfg.capacity)
    (memory : ℕ → Bytes) (holes : ℕ) (dst : Bytes) (es : List Event)
    (hes : Run.Along (step cfg) (fun s e => ¬ HalfPair cfg s e ∧ ¬ Loses cfg s e)
      (start cfg free₀ memory holes dst) es) :
    ∀ p, p <+: es → Accounted free₀ (Run.exec (step cfg) (start cfg free₀ memory holes dst) p) := by
  intro p hp
  have hinv := Run.invariant_prefix (step cfg)
    (I := fun s => s.Balanced cfg free₀ true ∧ s.Idle)
    (fun s e hok hs => ⟨hs.1.step e hok.1 fun _ => hok.2, hs.2.step hs.1 e hok.2⟩) hes
    ⟨balanced_start hnodup hbound memory holes dst true, idle_of_ne (by simp [start])⟩ p hp
  exact accounted_of_balanced hnodup hinv.1 hinv.2

/-- A byte more than a chunk. -/
def linkedPair : Config where
  src := List.replicate 4096 1 ++ [2]
  startOffset := 0
  totalLen := 4097
  vdoOpt := false
  useAtomic := false
  chunkSize := 4096
  capacity := 2
  bufferLimit := none
  sharedPool := false
  atomicMax := 0
  checkAtomicInvariants _ _ _ := true
  sqCapacity := 64

/-- A chunk of `n` bytes is submitted, executed and reaped. -/
def linkedPairTurn (n : ℕ) : List Event :=
  [.clock false false, .iterate true true, .iterate true true, .flush true,
    .execute 0 (.moved n), .execute 0 (.moved n), .reap .readable, .reap .readable,
    .reap .readable]

theorem accounted_linkedPair :
    let s := start linkedPair [0, 1] (fun _ => []) 0 []
    let es := linkedPairTurn 4096 ++ linkedPairTurn 1 ++ [.clock false false]
    (Run.exec (step linkedPair) s es).phase = .returned (.ok ()) ∧
      Accounted [0, 1] (Run.exec (step linkedPair) s es) := by
  intro s es
  refine ⟨by decide +kernel, ?_⟩
  exact accounted_of_along (by decide) (by decide) (fun _ => []) 0 [] es (by decide +kernel) es
    (List.prefix_refl es)

/-- A block of zeros to be punched out. -/
def zeroBlock : Config where
  src := List.replicate 16384 0
  startOffset := 0
  totalLen := 16384
  vdoOpt := true
  useAtomic := false
  chunkSize := 16384
  capacity := 2
  bufferLimit := none
  sharedPool := true
  atomicMax := 0
  checkAtomicInvariants _ _ _ := true
  sqCapacity := 64

/-- Holes cannot be punched in the destination. -/
def zeroBlockRun : List Event :=
  [.clock false false, .iterate true true, .iterate true true, .flush true,
    .execute 0 (.moved 16384), .reap .readable, .reap (.timeout false true),
    .execute 0 (.failed eopnotsupp), .reap .readable, .reap .readable, .clock false false]

/-- A copy that has returned with fewer buffers than it had has lost some. -/
theorem not_accounted_of_returned {free₀ : List ℕ} {s : State} {result : Except SegmentError Unit}
    (hphase : s.phase = .returned result) (hlength : s.free.length ≠ free₀.length) :
    ¬ Accounted free₀ s :=
  fun h => hlength (h.returned result hphase).length_eq

theorem zeroBlock_lost :
    let s := Run.exec (step zeroBlock) (start zeroBlock [0, 1] (fun _ => []) 0 []) zeroBlockRun
    s.phase = .returned (.error (.os eopnotsupp)) ∧ s.free = [1] ∧ ¬ Accounted [0, 1] s := by
  have hend :
      (Run.exec (step zeroBlock) (start zeroBlock [0, 1] (fun _ => []) 0 []) zeroBlockRun).phase =
          .returned (.error (.os eopnotsupp)) ∧
        (Run.exec (step zeroBlock) (start zeroBlock [0, 1] (fun _ => []) 0 []) zeroBlockRun).free =
          [1] := by
    decide +kernel
  have hlost : ¬ Accounted [0, 1]
      (Run.exec (step zeroBlock) (start zeroBlock [0, 1] (fun _ => []) 0 []) zeroBlockRun) := by
    refine not_accounted_of_returned hend.1 ?_
    rw [hend.2]
    decide
  exact ⟨hend.1, hend.2, hlost⟩

end Runs

end Foxing.SegmentCopy
