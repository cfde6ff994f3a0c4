import Foxing.BufferPool
import Mathlib.Algebra.Order.BigOperators.Group.List
import Mathlib.Algebra.Order.Group.Nat
import Mathlib.Tactic.Common

/-!
# The counter of buffer memory

The counter equals the number of bytes of the buffers there are, from the
reservation of a buffer to its drop, as long as nothing but buffers is counted
and no sum overflows. Queuing an event breaks this for good.
-/
namespace Foxing

namespace BufferMemory
variable {limit : U64} {m : BufferMemory}

/-- The bytes of all buffers, those being made included. -/
def total (m : BufferMemory) : ℕ := ((m.reserved ++ m.live).map Fin.val).sum

/-- The counter is exact and within the limit. -/
def Exact (limit : U64) (m : BufferMemory) : Prop := m.count.val = m.total ∧ m.count ≤ limit

/-- A pool that fits: enough buffers of a proper size, at most as many as can be
numbered, a valid layout, and no more bytes than the limit. -/
structure Fits (limit : U64) (count : ℕ) (size alignment : U64) : Prop where
  two_le : 2 ≤ count
  le_max : count ≤ 65535
  size_le : 4096 ≤ size
  layout : layoutValid (actualCapacity size alignment) (bufferAlign alignment) = true
  bytes : count * (actualCapacity size alignment).val ≤ limit.val

/-- The accounting of buffer memory in one state: the counter is the sum of the
capacities, within the limit, no release can make it underflow, and without
buffers it is zero and every pool that fits can be created. -/
structure Accounted (limit : U64) (m : BufferMemory) : Prop where
  exact : m.count.val = m.total
  within : m.count ≤ limit
  releasable : ∀ n ∈ m.reserved ++ m.live, n ≤ m.count
  zero : m.reserved = [] → m.live = [] → m.count = 0
  again : m.reserved = [] → m.live = [] → ∀ count size alignment localMode,
    Fits limit count size alignment →
      (BufferPool.createPool limit (fun _ => true) count size alignment localMode m).1 =
        some ⟨List.replicate count (actualCapacity size alignment), size, bufferAlign alignment,
          localMode⟩

/-- Nothing but buffers is counted, and a sum that overflows is still refused. -/
def Allowed (limit : U64) (m : BufferMemory) : BufferStep → Prop
  | .reserve capacity alignment =>
    m.count.val + (actualCapacity capacity alignment).val < 2 ^ 64 ∨
      limit < m.count + actualCapacity capacity alignment
  | .queued => False
  | _ => True

/-! ## One step -/

theorem sum_eraseIdx {l : List U64} {i : ℕ} {n : U64} (h : l[i]? = some n) :
    n.val + ((l.eraseIdx i).map Fin.val).sum = (l.map Fin.val).sum := by
  obtain ⟨hi, rfl⟩ := List.getElem?_eq_some_iff.mp h
  have hperm := (List.getElem_cons_eraseIdx_perm hi).map Fin.val
  simpa using hperm.sum_eq

theorem total_eq (m : BufferMemory) :
    m.total = (m.reserved.map Fin.val).sum + (m.live.map Fin.val).sum := by
  simp [total]

theorem exact_allocated {i : ℕ} (h : Exact limit m) : Exact limit (m.allocated i) := by
  unfold allocated
  cases hn : m.reserved[i]? with
  | none => exact h
  | some n =>
    have hsum := sum_eraseIdx hn
    refine ⟨?_, h.2⟩
    have hexact := h.1
    rw [total_eq] at hexact ⊢
    simp only [List.map_append, List.map_cons, List.map_nil, List.sum_append, List.sum_cons,
      List.sum_nil]
    omega

/-- A capacity that is part of the sum is given back. -/
theorem Exact.release {m' : BufferMemory} {n : U64} (h : Exact limit m)
    (hcount : m'.count = m.count - n) (htotal : n.val + m'.total = m.total) : Exact limit m' := by
  have hexact := h.1
  have hlim := Fin.le_def.mp h.2
  have hle : n ≤ m.count := by
    rw [Fin.le_def]
    omega
  have hval : (m.count - n).val = m.count.val - n.val := Fin.sub_val_of_le hle
  refine ⟨?_, ?_⟩
  · rw [hcount, hval]
    omega
  · rw [hcount, Fin.le_def, hval]
    omega

theorem exact_rolledBack {i : ℕ} (h : Exact limit m) : Exact limit (m.rolledBack i) := by
  unfold rolledBack
  cases hn : m.reserved[i]? with
  | none => exact h
  | some n =>
    have hsum := sum_eraseIdx hn
    refine h.release (n := n) rfl ?_
    rw [total_eq, total_eq]
    simp only
    omega

theorem exact_dropped {i : ℕ} (h : Exact limit m) : Exact limit (m.dropped i) := by
  unfold dropped
  cases hn : m.live[i]? with
  | none => exact h
  | some n =>
    have hsum := sum_eraseIdx hn
    refine h.release (n := n) rfl ?_
    rw [total_eq, total_eq]
    simp only
    omega

/-- A reservation keeps the counter exact unless it overflows unnoticed. -/
theorem exact_reserve_iff {capacity alignment : U64} (h : Exact limit m) :
    Exact limit (m.reserve limit capacity alignment) ↔
      Allowed limit m (.reserve capacity alignment) := by
  set n := actualCapacity capacity alignment with hn
  have hexact := h.1
  rw [total_eq] at hexact
  have hadd : (m.count + n).val = (m.count.val + n.val) % 2 ^ 64 := Fin.val_add m.count n
  by_cases hlim : m.count + n > limit
  · have hrun : m.reserve limit capacity alignment = m := by
      unfold reserve
      rw [if_pos hlim]
    rw [hrun]
    exact ⟨fun _ => .inr hlim, fun _ => h⟩
  · have hrun : m.reserve limit capacity alignment =
        { m with count := m.count + n, reserved := m.reserved ++ [n] } := by
      unfold reserve
      rw [if_neg hlim]
    have htotal : (m.reserve limit capacity alignment).total = m.count.val + n.val := by
      rw [hrun, total_eq]
      simp only [List.map_append, List.map_cons, List.map_nil, List.sum_append, List.sum_cons,
        List.sum_nil]
      omega
    constructor
    · intro hnext
      have hval := hnext.1
      rw [htotal, hrun, hadd] at hval
      exact .inl (by show m.count.val + n.val < 2 ^ 64; omega)
    · intro hok
      have hfit : m.count.val + n.val < 2 ^ 64 := hok.resolve_right hlim
      refine ⟨?_, ?_⟩
      · rw [htotal, hrun, hadd, Nat.mod_eq_of_lt hfit]
      · rw [hrun]
        exact Fin.not_lt.mp hlim

theorem not_exact_queued (h : Exact limit m) : ¬ Exact limit m.queued := by
  intro hnext
  have hval := hnext.1
  have htotal : m.queued.total = m.count.val := h.1.symm
  rw [htotal] at hval
  have hadd : (m.count + 1).val = (m.count.val + 1) % 2 ^ 64 := Fin.val_add m.count 1
  have hlt := m.count.isLt
  simp only [queued] at hval
  omega

/-- A step keeps the counter exact if and only if it is allowed. -/
theorem exact_step_iff (a : BufferStep) (h : Exact limit m) :
    Exact limit (m.step limit a) ↔ Allowed limit m a := by
  cases a with
  | reserve capacity alignment => exact exact_reserve_iff h
  | allocated i => exact ⟨fun _ => trivial, fun _ => exact_allocated h⟩
  | rolledBack i => exact ⟨fun _ => trivial, fun _ => exact_rolledBack h⟩
  | dropped i => exact ⟨fun _ => trivial, fun _ => exact_dropped h⟩
  | queued => exact ⟨fun hnext => not_exact_queued h hnext, fun hok => hok.elim⟩

end BufferMemory

/-! ## Creating a pool -/

namespace BufferPool
variable {limit size alignment : U64} {m : BufferMemory}

theorem bufferAlign_idem (alignment : U64) :
    bufferAlign (bufferAlign alignment) = bufferAlign alignment := by
  simp [bufferAlign]

theorem actualCapacity_bufferAlign (size alignment : U64) :
    actualCapacity size (bufferAlign alignment) = actualCapacity size alignment := by
  rw [actualCapacity, actualCapacity, bufferAlign_idem]

/-- There is room for the buffer. -/
theorem tryNew_room
    (hlayout : layoutValid (actualCapacity size alignment) (bufferAlign alignment) = true)
    (hroom : m.count.val + (actualCapacity size alignment).val ≤ limit.val) :
    tryNew limit true size (bufferAlign alignment) m =
      (some (actualCapacity size alignment),
        ⟨m.count + actualCapacity size alignment, m.reserved,
          m.live ++ [actualCapacity size alignment]⟩) ∧
      (m.count + actualCapacity size alignment).val =
        m.count.val + (actualCapacity size alignment).val := by
  set n := actualCapacity size alignment with hn
  have hlt := limit.isLt
  have hval : (m.count + n).val = m.count.val + n.val := by
    rw [Fin.val_add]
    exact Nat.mod_eq_of_lt (by omega)
  have hnot : ¬ m.count + n > limit := by
    rw [gt_iff_lt, Fin.lt_def]
    omega
  refine ⟨?_, hval⟩
  unfold tryNew
  simp only [actualCapacity_bufferAlign, bufferAlign_idem, ← hn, if_neg hnot, hlayout,
    Bool.and_true, if_true, BufferMemory.reserve, BufferMemory.allocated]
  simp [List.eraseIdx_append_of_length_le]

/-- All the buffers of a pool are made. -/
theorem allocateBuffers_room {count : ℕ} (k : ℕ) (buffers : List U64)
    (hlayout : layoutValid (actualCapacity size alignment) (bufferAlign alignment) = true)
    (hroom : m.count.val + count * (actualCapacity size alignment).val ≤ limit.val) :
    (allocateBuffers limit (fun _ => true) size (bufferAlign alignment) count k buffers m).1 = true ∧
    (allocateBuffers limit (fun _ => true) size (bufferAlign alignment) count k buffers m).2.1 =
      buffers ++ List.replicate count (actualCapacity size alignment) := by
  induction count generalizing k buffers m with
  | zero => simp [allocateBuffers]
  | succ count ih =>
    rw [Nat.succ_mul] at hroom
    have hfirst : m.count.val + (actualCapacity size alignment).val ≤ limit.val := by omega
    obtain ⟨hrun, hval⟩ := tryNew_room hlayout hfirst
    unfold allocateBuffers
    rw [hrun]
    simp only
    have hnext := ih (k + 1) (buffers ++ [actualCapacity size alignment])
      (m := ⟨m.count + actualCapacity size alignment, m.reserved,
        m.live ++ [actualCapacity size alignment]⟩) (by rw [hval]; omega)
    rw [List.append_assoc] at hnext
    exact hnext

/-- A pool that fits what is left of the limit is created as requested. -/
theorem createPool_room {count : ℕ} (localMode : Bool) (hcount : 2 ≤ count ∧ count ≤ 65535)
    (hsize : 4096 ≤ size)
    (hlayout : layoutValid (actualCapacity size alignment) (bufferAlign alignment) = true)
    (hroom : m.count.val + count * (actualCapacity size alignment).val ≤ limit.val) :
    (createPool limit (fun _ => true) count size alignment localMode m).1 =
      some ⟨List.replicate count (actualCapacity size alignment), size, bufferAlign alignment,
        localMode⟩ := by
  obtain ⟨hdone, hbuffers⟩ := allocateBuffers_room 0 [] hlayout hroom
  have hskip : ¬ (count < 2 ∨ size < 4096) := by
    rintro (h | h)
    · omega
    · exact Fin.not_lt.mpr hsize h
  unfold createPool tryStrategies
  rw [if_neg (by omega), if_neg hskip]
  generalize allocateBuffers limit (fun _ => true) size (bufferAlign alignment) count 0 [] m = r
    at hdone hbuffers
  obtain ⟨done, buffers, k, m'⟩ := r
  simp only at hdone hbuffers
  subst hdone
  simp [hbuffers]

/-! ### A pool is created by the steps of the counter -/

/-- The second state is reached from the first by steps of buffers alone. -/
def Reaches (limit : U64) (m m' : BufferMemory) : Prop :=
  ∃ as, BufferStep.queued ∉ as ∧ m' = Run.exec (BufferMemory.step limit) m as

theorem Reaches.refl (m : BufferMemory) : Reaches limit m m := ⟨[], by simp, rfl⟩

theorem Reaches.trans {m m' m'' : BufferMemory} (h : Reaches limit m m')
    (h' : Reaches limit m' m'') : Reaches limit m m'' := by
  obtain ⟨as, has, rfl⟩ := h
  obtain ⟨bs, hbs, rfl⟩ := h'
  refine ⟨as ++ bs, by simp [has, hbs], ?_⟩
  rw [Run.exec_append]

theorem reaches_step (a : BufferStep) (ha : a ≠ .queued) (m : BufferMemory) :
    Reaches limit m (m.step limit a) := ⟨[a], by simpa using ha.symm, rfl⟩

theorem reaches_tryNew (ok : Bool) (size align : U64) (m : BufferMemory) :
    Reaches limit m (tryNew limit ok size align m).2 := by
  have hreserve : Reaches limit m (m.reserve limit size align) :=
    reaches_step (.reserve size align) (by simp) m
  unfold tryNew
  simp only
  split_ifs with hlim hok
  · exact .refl m
  · exact hreserve.trans (reaches_step (.allocated _) (by simp) _)
  · exact hreserve.trans (reaches_step (.rolledBack _) (by simp) _)

theorem reaches_allocateBuffers (ok : ℕ → Bool) (size align : U64) (count k : ℕ)
    (buffers : List U64) (m : BufferMemory) :
    Reaches limit m (allocateBuffers limit ok size align count k buffers m).2.2.2 := by
  induction count generalizing k buffers m with
  | zero => exact .refl m
  | succ count ih =>
    have hfirst : Reaches limit m _ := reaches_tryNew (ok k) size align m
    unfold allocateBuffers
    generalize tryNew limit (ok k) size align m = r at hfirst
    obtain ⟨_ | n, m'⟩ := r
    · exact hfirst
    · exact hfirst.trans (ih (k + 1) (buffers ++ [n]) m')

theorem reaches_abandon (buffers : List U64) (m : BufferMemory) :
    Reaches limit m (abandon buffers m) := by
  induction buffers generalizing m with
  | nil => exact .refl m
  | cons n buffers ih => exact (reaches_step (.dropped _) (by simp) m).trans (ih _)

theorem reaches_tryStrategies (ok : ℕ → Bool) (align : U64) (localMode : Bool)
    (strategies : List (ℕ × U64)) (k : ℕ) (m : BufferMemory) :
    Reaches limit m (tryStrategies limit ok align localMode strategies k m).2 := by
  induction strategies generalizing k m with
  | nil => exact .refl m
  | cons strategy strategies ih =>
    obtain ⟨count, size⟩ := strategy
    have hall : Reaches limit m _ := reaches_allocateBuffers ok size align count k [] m
    unfold tryStrategies
    split_ifs with hskip
    · exact ih k m
    · generalize allocateBuffers limit ok size align count k [] m = r at hall
      obtain ⟨_ | _, buffers, k', m'⟩ := r
      · exact (hall.trans (reaches_abandon buffers m')).trans (ih k' _)
      · exact hall

/-- Creating a pool, with success or not and whichever allocations fail, is a run of
steps of the counter. -/
theorem reaches_createPool (ok : ℕ → Bool) (count : ℕ) (size alignment : U64) (localMode : Bool)
    (m : BufferMemory) :
    Reaches limit m (createPool limit ok count size alignment localMode m).2 := by
  unfold createPool
  split_ifs
  · exact .refl m
  · exact reaches_tryStrategies ok _ localMode _ 0 m

end BufferPool

namespace BufferMemory
variable {limit : U64} {m : BufferMemory}

/-- The exactness of the counter is what the accounting comes down to. -/
theorem accounted_iff_exact : Accounted limit m ↔ Exact limit m := by
  constructor
  · intro h
    exact ⟨h.exact, h.within⟩
  · intro h
    have hexact := h.1
    have hzero : m.reserved = [] → m.live = [] → m.count = 0 := by
      intro hr hl
      rw [total_eq, hr, hl] at hexact
      exact Fin.ext hexact
    refine ⟨h.1, h.2, fun n hn => ?_, hzero, fun hr hl count size alignment localMode hfit => ?_⟩
    · have hle := List.le_sum_of_mem (List.mem_map_of_mem (f := Fin.val) hn)
      rw [Fin.le_def, hexact]
      exact hle
    · refine BufferPool.createPool_room localMode ⟨hfit.two_le, hfit.le_max⟩ hfit.size_le
        hfit.layout ?_
      rw [hzero hr hl]
      simpa using hfit.bytes

/-- The accounting holds in every state of a run if and only if every step of the
run is allowed. What the creation of a pool does is a run of such steps
(`reaches_createPool`). -/
theorem accounted_iff_allowed (limit : U64) (as : List BufferStep) :
    (∀ p, p <+: as → Accounted limit (Run.exec (step limit) empty p)) ↔
      Run.Along (step limit) (Allowed limit) empty as := by
  simp only [accounted_iff_exact]
  refine Run.forall_prefix_iff_along (A := fun _ => True) (P := fun _ => True) (step limit)
    (fun _ _ _ _ _ => trivial) (fun s a _ _ h => exact_step_iff a h) as (fun _ _ => trivial)
    trivial ⟨rfl, Fin.zero_le _⟩

/-- A buffer is made, an event is queued, and the buffer is dropped. -/
def leakingRun : List BufferStep := [.reserve 4096 4096, .allocated 0, .queued, .dropped 0]

/-- Afterwards there are no buffers, but the counter is not zero, and a pool of the
size of the limit is refused. -/
theorem leakingRun_not_accounted :
    ¬ ∀ p, p <+: leakingRun → Accounted 8192 (Run.exec (step 8192) empty p) := by
  intro h
  have hend := h leakingRun List.prefix_rfl
  have hzero := hend.zero (by decide) (by decide)
  exact absurd hzero (by decide)

example : (BufferPool.createPool 8192 (fun _ => true) 2 4096 4096 false
    (Run.exec (step 8192) empty leakingRun)).1 = none := by decide

end BufferMemory

end Foxing
