import Foxing.SegmentAccounting

/-!
# What a copy writes

A byte of the segment that has been submitted is copied, or an operation in the ring still owes it:
in linked mode a write, else whatever uses the buffer. A copy that returns without an error has
nothing left in the ring, so it owes nothing.

That is so as long as every operation moves all its bytes or fails in a way that is taken for an
error. After a short read or write, an interruption, or a write that is cancelled, bytes are
missing and the copy may still return without an error.
-/
namespace Foxing.SegmentCopy
open Uring

/-! ## Bytes -/

def Copied (src dst : Bytes) (p : ℕ) : Prop := ∃ b, src[p]? = some b ∧ dst[p]? = some b

/-- The bytes of the source for an operation are in its buffer. -/
def Loaded (src : Bytes) (memory : ℕ → Bytes) (op : RingOp) : Prop :=
  ∀ j < op.len, ∃ b, src[op.offset + j]? = some b ∧ (memory op.index)[j]? = some b

def Blank (src : Bytes) (op : RingOp) : Prop := ∀ j < op.len, src[op.offset + j]? = some 0

def RingOp.Covers (op : RingOp) (p : ℕ) : Prop := op.offset ≤ p ∧ p < op.offset + op.len

section Bytes
variable {src dst : Bytes} {memory : ℕ → Bytes} {op : RingOp} {p : ℕ}

theorem Loaded.congr {memory' : ℕ → Bytes} (h : Loaded src memory op)
    (hmem : memory' op.index = memory op.index) : Loaded src memory' op := by
  intro j hj
  rw [hmem]
  exact h j hj

/-- A full read loads the buffer. -/
theorem loaded_read (hlen : op.offset + op.len ≤ src.length) (old : Bytes) :
    Loaded src (update memory op.index
      (Chunks.write 0 ((src.drop op.offset).take op.len) old)) op := by
  intro j hj
  have hlt : op.offset + j < src.length := by omega
  refine ⟨src[op.offset + j], List.getElem?_eq_getElem hlt, ?_⟩
  have hdata : ((src.drop op.offset).take op.len).length = op.len := by
    rw [List.length_take, List.length_drop]
    omega
  rw [update_same, Chunks.getElem?_write _ (Nat.zero_le j) (by omega), Nat.sub_zero,
    List.getElem?_take_of_lt hj, List.getElem?_drop, List.getElem?_eq_getElem hlt]

/-- A full write from a buffer that is loaded copies the bytes and spoils no others. -/
theorem copied_write (hloaded : Loaded src memory op)
    (hp : Copied src dst p ∨ op.Covers p) :
    Copied src (Chunks.write op.offset ((memory op.index).take op.len) dst) p := by
  by_cases hcovers : op.Covers p
  · obtain ⟨hle, hlt⟩ := hcovers
    obtain ⟨b, hsrc, hmem⟩ := hloaded (p - op.offset) (by omega)
    have hin : p - op.offset < (memory op.index).length := (List.getElem?_eq_some_iff.mp hmem).1
    refine ⟨b, ?_, ?_⟩
    · rw [← hsrc]
      congr 1
      omega
    · rw [Chunks.getElem?_write _ hle (by rw [List.length_take]; omega),
        List.getElem?_take_of_lt (by omega), hmem]
  · obtain ⟨b, hsrc, hdst⟩ := hp.resolve_right hcovers
    have hin : p < dst.length := (List.getElem?_eq_some_iff.mp hdst).1
    have hout : p < op.offset ∨ op.offset + ((memory op.index).take op.len).length ≤ p := by
      unfold RingOp.Covers at hcovers
      rw [List.length_take]
      omega
    exact ⟨b, hsrc, by rw [Chunks.getElem?_write_of_not hout (.inl hin), hdst]⟩

/-- Where the source is blank, so is the copy after a hole has been punched. -/
theorem copied_punchHole (hblank : Blank src op) (hlen : op.offset + op.len ≤ dst.length)
    (hp : Copied src dst p ∨ op.Covers p) :
    Copied src (punchHole op.offset op.len dst) p := by
  by_cases hcovers : op.Covers p
  · obtain ⟨hle, hlt⟩ := hcovers
    have hsrc := hblank (p - op.offset) (by omega)
    rw [Nat.add_sub_cancel' hle] at hsrc
    refine ⟨0, hsrc, ?_⟩
    have hin : p < dst.length := by omega
    simp [punchHole, hin, hle, hlt]
  · obtain ⟨b, hsrc, hdst⟩ := hp.resolve_right hcovers
    unfold RingOp.Covers at hcovers
    refine ⟨b, hsrc, ?_⟩
    simp [punchHole, hdst, hcovers]

theorem blank_of_loaded (hloaded : Loaded src memory op)
    (hzero : ((memory op.index).take op.len).all (· = 0)) : Blank src op := by
  intro j hj
  obtain ⟨b, hsrc, hmem⟩ := hloaded j hj
  have hmem' : b ∈ (memory op.index).take op.len := by
    refine List.mem_of_getElem? (i := j) ?_
    rw [List.getElem?_take_of_lt hj, hmem]
  have hb : b = 0 := of_decide_eq_true (List.all_eq_true.mp hzero b hmem')
  rw [hsrc, hb]

end Bytes

/-! ## The ring -/

/-- The operations that owe bytes of the destination. -/
def Carries (cfg : Config) (op : RingOp) : Prop :=
  op.kind ≠ .hole ∧ (cfg.useLinkedSqe = true → op.kind = .write)

/-- An operation has bytes to deliver: it is waiting, or it has not brought them to their place. -/
def Owes (cfg : Config) (r : Ring RingOp ℤ) (op : RingOp) : Prop :=
  Carries cfg op ∧ (op ∈ r.waiting.flatMap Chain.ops ∨
    ∃ result, (op, result) ∈ r.cq ∧ (op.kind = .read ∨ result < 0))

/-- The chains that wait, as long as nothing has failed. -/
inductive ChainOk (cfg : Config) (memory : ℕ → Bytes) : Chain RingOp → Prop
  | hole (op : RingOp) (hkind : op.kind = .hole) : ChainOk cfg memory ⟨[op], false⟩
  | pair (op : RingOp) (hlinked : cfg.useLinkedSqe = true) (hkind : op.kind = .read) :
    ChainOk cfg memory ⟨[op, { op with kind := .write }], false⟩
  | read (op : RingOp) (hdecoupled : cfg.useLinkedSqe = false) (hkind : op.kind = .read) :
    ChainOk cfg memory ⟨[op], false⟩
  | write (op : RingOp) (hkind : op.kind = .write) (hloaded : Loaded cfg.src memory op) :
    ChainOk cfg memory ⟨[op], false⟩
  | falloc (op : RingOp) (hkind : op.kind = .falloc) (hblank : Blank cfg.src op) :
    ChainOk cfg memory ⟨[op], false⟩

theorem ChainOk.congr {cfg : Config} {memory memory' : ℕ → Bytes} {c : Chain RingOp}
    (h : ChainOk cfg memory c)
    (hmem : ∀ op ∈ c.ops, op.kind ≠ .hole → memory' op.index = memory op.index) :
    ChainOk cfg memory' c := by
  cases h with
  | hole op hkind => exact .hole op hkind
  | pair op hlinked hkind => exact .pair op hlinked hkind
  | read op hdecoupled hkind => exact .read op hdecoupled hkind
  | write op hkind hloaded =>
    exact .write op hkind (hloaded.congr (hmem op List.mem_cons_self (by simp [hkind])))
  | falloc op hkind hblank => exact .falloc op hkind hblank

/-- The completions, as long as nothing has failed in a way that is not taken for an error. -/
structure CqeOk (cfg : Config) (memory : ℕ → Bytes) (op : RingOp) (result : ℤ) : Prop where
  errno : result < 0 → result ≠ -eintr ∧
    (cfg.useLinkedSqe = true → op.kind = .write → result ≠ -ecanceled)
  full : op.kind = .read → 0 ≤ result → result = op.len
  loaded : cfg.useLinkedSqe = false → op.kind = .read ∧ 0 ≤ result ∨ op.kind = .write ∧ result < 0 →
    Loaded cfg.src memory op

theorem CqeOk.congr {cfg : Config} {memory memory' : ℕ → Bytes} {op : RingOp} {result : ℤ}
    (h : CqeOk cfg memory op result)
    (hmem : cfg.useLinkedSqe = false → memory' op.index = memory op.index) :
    CqeOk cfg memory' op result :=
  ⟨h.errno, h.full, fun hdecoupled hwhen => (h.loaded hdecoupled hwhen).congr (hmem hdecoupled)⟩

/-- Nothing has failed, and every byte that has been submitted is copied, owed or in the hands of
the copy. -/
structure Sound (cfg : Config) (held : ℕ → Prop) (s : State) : Prop where
  chains : ∀ c ∈ s.ring.waiting, ChainOk cfg s.memory c
  cqes : ∀ op result, (op, result) ∈ s.ring.cq → op.kind ≠ .hole → CqeOk cfg s.memory op result
  placed : cfg.useLinkedSqe = false → ∀ op ∈ s.ring.line, op.kind ≠ .hole →
    s.contextMap op.index = op.offset ∧ (op.kind = .write → s.lens op.index = op.len)
  intent : cfg.useLinkedSqe = true → ∀ x, s.atomicIntent x = false
  bytes : ∀ p, cfg.startOffset ≤ p → p < s.offset → Copied cfg.src s.dst p ∨
    (∃ op, Owes cfg s.ring op ∧ op.Covers p) ∨ held p

section Ring
variable {cfg : Config} {held : ℕ → Prop} {s : State}

theorem index_ne_of_unused {x : ℕ} {r : Ring RingOp ℤ} (h : opsOf x r = []) {op : RingOp}
    (hop : op ∈ r.line) (hkind : op.kind ≠ .hole) : op.index ≠ x := by
  intro hindex
  have hmem : op ∈ opsOf x r :=
    List.mem_filter.mpr ⟨hop, decide_eq_true (RingOp.key_eq_some.mpr ⟨hkind, hindex⟩)⟩
  rw [h] at hmem
  cases hmem

theorem mem_line_of_cq {r : Ring RingOp ℤ} {op : RingOp} {result : ℤ} (h : (op, result) ∈ r.cq) :
    op ∈ r.line :=
  List.mem_append.mpr (.inl (List.mem_map.mpr ⟨(op, result), h, rfl⟩))

theorem mem_line_of_waiting {r : Ring RingOp ℤ} {op : RingOp}
    (h : op ∈ r.waiting.flatMap Chain.ops) : op ∈ r.line :=
  List.mem_append.mpr (.inr h)

theorem Sound.submit (h : Sound cfg held s) : Sound cfg held s.submit where
  chains := by simpa [State.submit] using h.chains
  cqes := h.cqes
  placed := by simpa [State.submit] using h.placed
  intent := h.intent
  bytes := by simpa [State.submit, Owes] using h.bytes

/-- What a completion leaves in the hands of the copy. -/
def Remains (cfg : Config) (op : RingOp) (result : ℤ) (p : ℕ) : Prop :=
  Carries cfg op ∧ (op.kind = .read ∨ result < 0) ∧ op.Covers p

theorem Sound.pop (h : Sound cfg (fun _ => False) s) {op : RingOp} {result : ℤ}
    {cq : List (RingOp × ℤ)} (hcq : s.ring.cq = (op, result) :: cq) :
    Sound cfg (Remains cfg op result) { s with ring := s.ring.reap } := by
  have hline := Ring.line_of_cq hcq
  have htail : s.ring.reap.cq = cq := by
    rw [Ring.reap, hcq]
    rfl
  refine ⟨h.chains, ?_, ?_, h.intent, ?_⟩
  · intro op' result' hmem hkind
    rw [htail] at hmem
    exact h.cqes op' result' (hcq ▸ List.mem_cons_of_mem _ hmem) hkind
  · intro hdecoupled op' hmem hkind
    exact h.placed hdecoupled op' (hline ▸ List.mem_cons_of_mem _ hmem) hkind
  · intro p hstart hlt
    rcases h.bytes p hstart hlt with hcopied | ⟨op', ⟨hcarries, howes⟩, hcovers⟩ | hfalse
    · exact .inl hcopied
    · rcases howes with hwaiting | ⟨result', hmem, hwhen⟩
      · exact .inr (.inl ⟨op', ⟨hcarries, .inl hwaiting⟩, hcovers⟩)
      · rw [hcq] at hmem
        rcases List.mem_cons.mp hmem with heq | hmem
        · obtain ⟨rfl, rfl⟩ := Prod.mk.inj heq
          exact .inr (.inr ⟨hcarries, hwhen, hcovers⟩)
        · refine .inr (.inl ⟨op', ⟨hcarries, .inr ⟨result', ?_, hwhen⟩⟩, hcovers⟩)
          rw [htail]
          exact hmem
    · exact hfalse.elim

/-- A chain is pushed that owes what is in hand. -/
theorem Sound.pushed (h : Sound cfg held s) {ops : List RingOp} {s' : State}
    (hring : s'.ring = { s.ring with sq := s.ring.sq ++ [⟨ops, false⟩], linking := false })
    (hmemory : s'.memory = s.memory) (hdst : s'.dst = s.dst)
    (hintent : cfg.useLinkedSqe = true → ∀ x, s'.atomicIntent x = false)
    (hchain : ChainOk cfg s.memory ⟨ops, false⟩)
    (hplaced : cfg.useLinkedSqe = false → ∀ op, op ∈ s.ring.line ∨ op ∈ ops → op.kind ≠ .hole →
      s'.contextMap op.index = op.offset ∧ (op.kind = .write → s'.lens op.index = op.len))
    (hheld : ∀ p, cfg.startOffset ≤ p → p < s'.offset →
      p < s.offset ∧ ¬ held p ∨ ∃ op ∈ ops, Carries cfg op ∧ op.Covers p) :
    Sound cfg (fun _ => False) s' := by
  have hwaiting : s'.ring.waiting = s.ring.waiting ++ [⟨ops, false⟩] := by
    rw [hring]
    simp [Ring.waiting]
  have hcq : s'.ring.cq = s.ring.cq := by rw [hring]
  have hline : s'.ring.line = s.ring.line ++ ops := by
    rw [hring]
    exact RingSafe.line_chain s.ring ops
  refine ⟨?_, ?_, ?_, hintent, ?_⟩
  · intro c hc
    rw [hwaiting] at hc
    rw [hmemory]
    rcases List.mem_append.mp hc with hc | hc
    · exact h.chains c hc
    · rw [List.mem_singleton.mp hc]
      exact hchain
  · rw [hcq, hmemory]
    exact h.cqes
  · intro hdecoupled op hop hkind
    rw [hline] at hop
    exact hplaced hdecoupled op (List.mem_append.mp hop) hkind
  · intro p hstart hlt
    rw [hdst]
    rcases hheld p hstart hlt with ⟨hbefore, hnot⟩ | ⟨op, hop, hcarries, hcovers⟩
    · rcases h.bytes p hstart hbefore with hcopied | ⟨op, ⟨hcarries, howes⟩, hcovers⟩ | hyes
      · exact .inl hcopied
      · refine .inr (.inl ⟨op, ⟨hcarries, ?_⟩, hcovers⟩)
        rw [hwaiting, hcq, List.flatMap_append]
        rcases howes with howes | howes
        · exact .inl (List.mem_append.mpr (.inl howes))
        · exact .inr howes
      · exact absurd hyes hnot
    · refine .inr (.inl ⟨op, ⟨hcarries, .inl ?_⟩, hcovers⟩)
      rw [hwaiting, List.flatMap_append]
      refine List.mem_append.mpr (.inr ?_)
      simpa using hop

/-- The chains before and behind the one that is executed use other buffers. -/
theorem index_ne_of_apart {r : Ring RingOp ℤ} (h : Apart RingOp.key r.waiting) {i : ℕ}
    {c c' : Chain RingOp} (hc : r.kernel[i]? = some c) {op op' : RingOp} (hop : op ∈ c.ops)
    (hkind : op.kind ≠ .hole) (hc' : c' ∈ r.kernel.take i ++ (r.kernel.drop (i + 1) ++ r.sq))
    (hop' : op' ∈ c'.ops) (hkind' : op'.kind ≠ .hole) : op'.index ≠ op.index := by
  intro hindex
  have hkey : op.key = some op.index := RingOp.key_eq_some.mpr ⟨hkind, rfl⟩
  have hkey' : op'.key = some op.index := RingOp.key_eq_some.mpr ⟨hkind', hindex⟩
  rw [Ring.waiting_split hc, Apart, List.pairwise_append, List.pairwise_cons] at h
  obtain ⟨-, ⟨hbehind, -⟩, hbefore⟩ := h
  have hapart : (op'.key = none ∨ op'.key ≠ op.key) ∨ (op.key = none ∨ op.key ≠ op'.key) := by
    rcases List.mem_append.mp hc' with hc' | hc'
    · exact .inl (hbefore c' hc' c List.mem_cons_self op' hop' op hop)
    · exact .inr (hbehind c' hc' op hop op' hop')
  rw [hkey, hkey'] at hapart
  simp at hapart

/-- In decoupled mode one operation uses a buffer. -/
theorem index_ne_of_shape {r : Ring RingOp ℤ} (h : ∀ x, Shape false (opsOf x r)) {op op' : RingOp}
    {result : ℤ} (hop : op ∈ r.waiting.flatMap Chain.ops) (hkind : op.kind ≠ .hole)
    (hop' : (op', result) ∈ r.cq) (hkind' : op'.kind ≠ .hole) : op'.index ≠ op.index := by
  intro hindex
  have hshape := h op.index
  unfold opsOf Ring.line at hshape
  rw [List.filter_append] at hshape
  have hdone : op' ∈ (r.cq.map Prod.fst).filter (·.key = some op.index) := by
    refine List.mem_filter.mpr ⟨List.mem_map.mpr ⟨(op', result), hop', rfl⟩, ?_⟩
    exact decide_eq_true (RingOp.key_eq_some.mpr ⟨hkind', hindex⟩)
  have hwaits : op ∈ (r.waiting.flatMap Chain.ops).filter (·.key = some op.index) := by
    refine List.mem_filter.mpr ⟨hop, ?_⟩
    exact decide_eq_true (RingOp.key_eq_some.mpr ⟨hkind, rfl⟩)
  have hlen := List.length_pos_of_mem hdone
  have hlen' := List.length_pos_of_mem hwaits
  have hle : ∀ ops : List RingOp, Shape false ops → ops.length ≤ 1 := by
    intro ops hops
    rcases ops with _ | ⟨op₁, _ | ⟨op₂, ops⟩⟩
    · exact Nat.zero_le 1
    · exact le_rfl
    · rcases ops with _ | ⟨op₃, ops⟩
      · exact absurd hops.1 (by decide)
      · exact hops.elim
  have := hle _ hshape
  rw [List.length_append] at this
  omega

section Complete
variable {i : ℕ} {c : Chain RingOp} {op : RingOp} {ops : List RingOp} {memory : ℕ → Bytes}

/-- The chains that still wait when an operation has been executed, which may change its own
buffer. -/
theorem Sound.chains_complete (h : Sound cfg held s)
    (hchains : Apart RingOp.key s.ring.waiting) (hc : s.ring.kernel[i]? = some c)
    (hops : c.ops = op :: ops) (result : ℤ) (ok : Bool)
    (hmemory : ∀ x, op.kind = .hole ∨ x ≠ op.index → memory x = s.memory x)
    (hrest : ∀ c' ∈ Ring.rest c ok, ChainOk cfg memory c') :
    ∀ c' ∈ (s.ring.complete i result ok).waiting, ChainOk cfg memory c' := by
  have hop : op ∈ c.ops := hops ▸ List.mem_cons_self
  have hother : ∀ c' ∈ s.ring.kernel.take i ++ (s.ring.kernel.drop (i + 1) ++ s.ring.sq),
      ChainOk cfg memory c' := by
    intro c' hc'
    have hmem : c' ∈ s.ring.waiting := by
      rw [Ring.waiting_split hc]
      simp only [List.mem_append, List.mem_cons] at hc' ⊢
      tauto
    refine (h.chains c' hmem).congr fun op' hop' hkind' => hmemory _ ?_
    by_cases hkind : op.kind = .hole
    · exact .inl hkind
    · exact .inr (index_ne_of_apart hchains hc hop hkind hc' hop' hkind')
  intro c' hc'
  rw [Ring.waiting_complete hc hops result ok, List.append_assoc, List.mem_append,
    List.mem_append] at hc'
  rcases hc' with hc' | hc' | hc'
  · exact hother c' (List.mem_append.mpr (.inl hc'))
  · exact hrest c' hc'
  · exact hother c' (List.mem_append.mpr (.inr hc'))

/-- The completions when there is one more. -/
theorem Sound.cqes_complete (h : Sound cfg held s)
    (hshape : ∀ x, Shape cfg.useLinkedSqe (opsOf x s.ring)) (hc : s.ring.kernel[i]? = some c)
    (hops : c.ops = op :: ops) (result : ℤ) (ok : Bool)
    (hmemory : ∀ x, op.kind = .hole ∨ x ≠ op.index → memory x = s.memory x)
    (hcqe : op.kind ≠ .hole → CqeOk cfg memory op result) :
    ∀ op' result', (op', result') ∈ (s.ring.complete i result ok).cq → op'.kind ≠ .hole →
      CqeOk cfg memory op' result' := by
  have hop : op ∈ c.ops := hops ▸ List.mem_cons_self
  intro op' result' hmem hkind'
  rw [Ring.complete_eq hc hops] at hmem
  rcases List.mem_append.mp hmem with hmem | hmem
  · refine (h.cqes op' result' hmem hkind').congr fun hdecoupled => hmemory _ ?_
    by_cases hkind : op.kind = .hole
    · exact .inl hkind
    · rw [hdecoupled] at hshape
      refine .inr (index_ne_of_shape hshape ?_ hkind hmem hkind')
      rw [Ring.waiting_split hc]
      simp only [List.flatMap_append, List.flatMap_cons, List.mem_append]
      exact .inr (.inl hop)
  · obtain ⟨rfl, rfl⟩ := Prod.mk.inj (List.mem_singleton.mp hmem)
    exact hcqe hkind'

/-- What owes bytes still does, but for the operation that has been executed. -/
theorem Owes.complete {r : Ring RingOp ℤ} {op' : RingOp} (h : Owes cfg r op')
    (hc : r.kernel[i]? = some c) (hops : c.ops = op :: ops) (result : ℤ) (ok : Bool) :
    op' = op ∨ Owes cfg (r.complete i result ok) op' := by
  obtain ⟨hcarries, hwaits | ⟨result', hmem, hwhen⟩⟩ := h
  · have hstill : op' = op ∨ op' ∈ (r.complete i result ok).waiting.flatMap Chain.ops := by
      rw [Ring.waiting_split hc] at hwaits
      rw [Ring.waiting_complete hc hops result ok]
      simp only [List.flatMap_append, List.flatMap_cons, List.mem_append, hops, List.mem_cons,
        Ring.ops_rest, List.tail_cons] at hwaits ⊢
      tauto
    exact hstill.imp_right fun hstill => ⟨hcarries, .inl hstill⟩
  · refine .inr ⟨hcarries, .inr ⟨result', ?_, hwhen⟩⟩
    rw [Ring.complete_eq hc hops]
    exact List.mem_append.mpr (.inl hmem)

/-- An operation is executed. It may change its own buffer, and it must have copied its bytes
unless it is a read or has failed. -/
theorem Sound.executed (h : Sound cfg held s) (hchains : Apart RingOp.key s.ring.waiting)
    (hshape : ∀ x, Shape cfg.useLinkedSqe (opsOf x s.ring)) (hc : s.ring.kernel[i]? = some c)
    (hops : c.ops = op :: ops) (result : ℤ) (ok : Bool) (memory : ℕ → Bytes) (dst : Bytes)
    (hmemory : ∀ x, op.kind = .hole ∨ x ≠ op.index → memory x = s.memory x)
    (hrest : ∀ c' ∈ Ring.rest c ok, ChainOk cfg memory c')
    (hcqe : op.kind ≠ .hole → CqeOk cfg memory op result)
    (hdst : ∀ p, Copied cfg.src s.dst p → Copied cfg.src dst p)
    (hdone : ∀ p, op.kind ≠ .hole → op.kind ≠ .read → 0 ≤ result → op.Covers p →
      Copied cfg.src dst p) :
    Sound cfg held { s with
      memory := memory, dst := dst, ring := s.ring.complete i result ok } := by
  refine ⟨h.chains_complete hchains hc hops result ok hmemory hrest,
    h.cqes_complete hshape hc hops result ok hmemory hcqe, fun hdecoupled op' hop' hkind' => ?_,
    h.intent, fun p hstart hlt => ?_⟩
  · have hline := (Ring.line_complete_perm hc hops result ok).mem_iff.mp hop'
    exact h.placed hdecoupled op' hline hkind'
  · rcases h.bytes p hstart hlt with hcopied | ⟨op', howes, hcovers⟩ | hheld
    · exact .inl (hdst p hcopied)
    · rcases howes.complete hc hops result ok with rfl | hstill
      · by_cases hleft : op'.kind = .read ∨ result < 0
        · refine .inr (.inl ⟨op', ⟨howes.1, .inr ⟨result, ?_, hleft⟩⟩, hcovers⟩)
          show (op', result) ∈ (s.ring.complete i result ok).cq
          rw [Ring.complete_eq hc hops]
          exact List.mem_append.mpr (.inr (List.mem_singleton.mpr rfl))
        · rw [not_or, not_lt] at hleft
          exact .inl (hdone p howes.1.1 hleft.1 hleft.2 hcovers)
      · exact .inr (.inl ⟨op', hstill, hcovers⟩)
    · exact .inr (.inr hheld)

end Complete

end Ring

/-! ## The kernel -/

/-- The copy will return an error: it has encountered one, or a read has failed. -/
def Doomed (s : State) : Prop :=
  s.encounteredError ≠ none ∨
    ∃ op result, (op, result) ∈ s.ring.cq ∧ op.kind = .read ∧ result < 0 ∧ result ≠ -eintr

/-- An operation moves all its bytes, or it fails in a way that is taken for an error. -/
def Delivers (cfg : Config) (s : State) (op : RingOp) : Outcome → Prop
  | .failed errno => errno ≠ 0 ∧ errno ≠ eintr ∧
      (cfg.useLinkedSqe = true → op.kind = .write → errno ≠ ecanceled)
  | .moved n =>
    (op.kind = .read → op.len ≤ n ∧ op.offset + op.len ≤ cfg.src.length) ∧
    (op.kind = .write → op.len ≤ n) ∧
    (op.kind = .falloc → op.offset + op.len ≤ s.dst.length)

instance decidableDelivers (cfg : Config) (s : State) (op : RingOp) :
    DecidablePred (Delivers cfg s op)
  | .failed _ => inferInstanceAs (Decidable (_ ∧ _))
  | .moved _ => inferInstanceAs (Decidable (_ ∧ _))

/-- The operation that is executed, unless it is cancelled. -/
def State.next? (s : State) (i : ℕ) : Option RingOp :=
  s.ring.kernel[i]?.bind fun c => if c.cancelled then none else c.ops.head?

def Whole (cfg : Config) (s : State) : Event → Prop
  | .execute i outcome => ∀ op ∈ s.next? i, op.kind ≠ .hole → Delivers cfg s op outcome
  | _ => True

instance decidableWhole (cfg : Config) (s : State) : DecidablePred (Whole cfg s)
  | .clock _ _ => inferInstanceAs (Decidable True)
  | .iterate _ _ => inferInstanceAs (Decidable True)
  | .flush _ => inferInstanceAs (Decidable True)
  | .reap _ => inferInstanceAs (Decidable True)
  | .execute i outcome =>
    inferInstanceAs (Decidable (∀ op ∈ s.next? i, op.kind ≠ .hole → Delivers cfg s op outcome))

section Kernel
variable {cfg : Config} {s : State} {op : RingOp}

theorem perform_read (hkind : op.kind = .read) {n : ℕ} (hn : op.len ≤ n)
    (hlen : op.offset + op.len ≤ cfg.src.length) :
    perform cfg op (.moved n) s = ((op.len : ℤ), { s with
      memory := update s.memory op.index
        (Chunks.write 0 ((cfg.src.drop op.offset).take op.len) (s.memory op.index)) }) := by
  have hmin : min n (min op.len (cfg.src.length - op.offset)) = op.len := by omega
  simp only [perform, hkind, hmin]

theorem perform_write (hkind : op.kind = .write) {n : ℕ} (hn : op.len ≤ n) :
    perform cfg op (.moved n) s = ((op.len : ℤ), { s with
      dst := Chunks.write op.offset ((s.memory op.index).take op.len) s.dst }) := by
  simp only [perform, hkind, Nat.min_eq_right hn]

theorem cqeOk_failed {memory : ℕ → Bytes} {errno : ℕ} (h : Delivers cfg s op (.failed errno))
    (hloaded : op.kind = .write → Loaded cfg.src memory op) :
    CqeOk cfg memory op (-errno) := by
  obtain ⟨hzero, hintr, hcancelled⟩ := h
  refine ⟨fun _ => ⟨by omega, fun hlinked hkind => ?_⟩, fun _ hle => by omega, fun _ hwhen => ?_⟩
  · have := hcancelled hlinked hkind
    omega
  · rcases hwhen with ⟨-, hle⟩ | ⟨hkind, -⟩
    · omega
    · exact hloaded hkind

/-- All bytes have been moved. -/
theorem cqeOk_moved {memory : ℕ → Bytes} {result : ℤ} (hle : 0 ≤ result)
    (hread : op.kind = .read → result = op.len ∧ Loaded cfg.src memory op) :
    CqeOk cfg memory op result := by
  refine ⟨fun hlt => by omega, fun hkind _ => (hread hkind).1, fun _ hwhen => ?_⟩
  rcases hwhen with ⟨hkind, -⟩ | ⟨-, hlt⟩
  · exact (hread hkind).2
  · omega

theorem rest_single (op : RingOp) (ok : Bool) : Ring.rest ⟨[op], false⟩ ok = [] := rfl

section Executed
variable {free₀ : List ℕ} {lossless : Bool} {held : ℕ → Prop} {i : ℕ}

/-- An operation fails. What it should have brought to its place is still owed. -/
theorem Sound.executed_failed (h : Sound cfg held s) (hbalanced : s.Balanced cfg free₀ lossless)
    (hc : s.ring.kernel[i]? = some ⟨[op], false⟩) {errno : ℕ}
    (hdelivers : Delivers cfg s op (.failed errno))
    (hloaded : op.kind = .write → Loaded cfg.src s.memory op) (ok : Bool) :
    Sound cfg held { s with ring := s.ring.complete i (-errno) ok } := by
  refine h.executed hbalanced.chains hbalanced.shape hc rfl (-errno) ok s.memory s.dst
    (fun _ _ => rfl) ?_ ?_ (fun _ => id) ?_
  · simp [rest_single]
  · exact fun _ => cqeOk_failed hdelivers hloaded
  · intro p _ _ hle
    have := hdelivers.1
    omega

/-- The read of a pair fails: its write is cancelled, but the failure of the read is found first. -/
theorem doomed_of_failed_read {c : Chain RingOp} {ops : List RingOp}
    (hc : s.ring.kernel[i]? = some c) (hops : c.ops = op :: ops) (hkind : op.kind = .read)
    {errno : ℕ} (hdelivers : Delivers cfg s op (.failed errno)) (ok : Bool) :
    Doomed { s with ring := s.ring.complete i (-errno) ok } := by
  refine .inr ⟨op, -errno, ?_, hkind, ?_, ?_⟩
  · rw [Ring.complete_eq hc hops]
    exact List.mem_append.mpr (.inr (List.mem_singleton.mpr rfl))
  · have := hdelivers.1
    omega
  · have := hdelivers.2.1
    omega

/-- The write of a pair is left once its read has been executed. -/
theorem chainOk_rest_pair {memory : ℕ → Bytes} (hloaded : Loaded cfg.src memory op) :
    ∀ c' ∈ Ring.rest ⟨[op, { op with kind := .write }], false⟩ (decide ((op.len : ℤ) = op.len)),
      ChainOk cfg memory c' := by
  intro c' hc'
  rw [Ring.rest, if_neg (by simp)] at hc'
  rw [List.mem_singleton.mp hc', decide_eq_true rfl]
  exact .write { op with kind := .write } rfl hloaded

/-- A read moves all its bytes. -/
theorem Sound.executed_read (h : Sound cfg held s) (hbalanced : s.Balanced cfg free₀ lossless)
    {c : Chain RingOp} {ops : List RingOp} (hc : s.ring.kernel[i]? = some c)
    (hops : c.ops = op :: ops) (hkind : op.kind = .read)
    (hlen : op.offset + op.len ≤ cfg.src.length) (ok : Bool)
    (hrest : ∀ memory, Loaded cfg.src memory op → ∀ c' ∈ Ring.rest c ok, ChainOk cfg memory c') :
    Sound cfg held { s with
      memory := update s.memory op.index
        (Chunks.write 0 ((cfg.src.drop op.offset).take op.len) (s.memory op.index))
      ring := s.ring.complete i op.len ok } := by
  refine h.executed hbalanced.chains hbalanced.shape hc hops op.len ok _ s.dst ?_
    (hrest _ (loaded_read hlen _)) ?_ (fun _ => id) fun _ _ hne => absurd hkind hne
  · intro x hx
    exact update_of_ne _ _ (hx.resolve_left (by simp [hkind]))
  · exact fun _ => cqeOk_moved (Int.natCast_nonneg _) fun _ => ⟨rfl, loaded_read hlen _⟩

/-- A write or a zero block copies its bytes. -/
theorem Sound.executed_moved (h : Sound cfg held s) (hbalanced : s.Balanced cfg free₀ lossless)
    (hc : s.ring.kernel[i]? = some ⟨[op], false⟩) (hkind : op.kind ≠ .read) {result : ℤ}
    (hle : 0 ≤ result) {dst : Bytes}
    (hdst : ∀ p, Copied cfg.src s.dst p ∨ op.Covers p → Copied cfg.src dst p) (ok : Bool) :
    Sound cfg held { s with dst := dst, ring := s.ring.complete i result ok } := by
  refine h.executed hbalanced.chains hbalanced.shape hc rfl result ok s.memory dst
    (fun _ _ => rfl) ?_ ?_ ?_ ?_
  · simp [rest_single]
  · exact fun _ => cqeOk_moved hle fun hread => absurd hread hkind
  · exact fun p hp => hdst p (.inl hp)
  · exact fun p _ _ _ hp => hdst p (.inr hp)

/-- A step of the kernel. In linked mode the write waits for its read. -/
theorem Sound.execute (h : Sound cfg held s) (hbalanced : s.Balanced cfg free₀ lossless) (i : ℕ)
    (outcome : Outcome) (hwhole : Whole cfg s (.execute i outcome)) :
    Doomed (execute cfg i outcome s) ∨ Sound cfg held (execute cfg i outcome s) := by
  obtain heq | ⟨c, op, ops, hc, hops, hcase⟩ := execute_cases cfg i outcome s
  · rw [heq]
    exact .inr h
  have hmem : c ∈ s.ring.waiting := List.mem_append.mpr (.inl (List.mem_of_getElem? hc))
  have hcancelled : c.cancelled = false := by cases h.chains c hmem <;> rfl
  obtain ⟨hyes, -⟩ | ⟨-, heq⟩ := hcase
  · rw [hcancelled] at hyes
    cases hyes
  have hdelivers : op.kind ≠ .hole → Delivers cfg s op outcome := by
    refine hwhole op ?_
    simp [State.next?, hc, hcancelled, hops]
  rw [heq]
  clear heq hcancelled hwhole
  cases h.chains c hmem with
  | hole op' hkind =>
    obtain ⟨rfl, rfl⟩ := List.cons.inj hops
    have hsame : (perform cfg op' outcome s).2 = s := by cases outcome <;> simp [perform, hkind]
    rw [hsame]
    refine .inr (h.executed hbalanced.chains hbalanced.shape hc rfl _ _ s.memory s.dst
      (fun _ _ => rfl) ?_ (absurd hkind) (fun _ => id) fun _ hne => absurd hkind hne)
    simp [rest_single]
  | pair op' hlinked hkind =>
    obtain ⟨rfl, rfl⟩ := List.cons.inj hops
    have hdelivers := hdelivers (by simp [hkind])
    cases outcome with
    | failed errno => exact .inl (doomed_of_failed_read hc rfl hkind hdelivers _)
    | moved n =>
      obtain ⟨hn, hlen⟩ := hdelivers.1 hkind
      rw [perform_read hkind hn hlen]
      exact .inr (h.executed_read hbalanced hc rfl hkind hlen _ fun _ => chainOk_rest_pair)
  | read op' hdecoupled hkind =>
    obtain ⟨rfl, rfl⟩ := List.cons.inj hops
    have hdelivers := hdelivers (by simp [hkind])
    cases outcome with
    | failed errno => exact .inr (h.executed_failed hbalanced hc hdelivers (by simp [hkind]) _)
    | moved n =>
      obtain ⟨hn, hlen⟩ := hdelivers.1 hkind
      rw [perform_read hkind hn hlen]
      exact .inr (h.executed_read hbalanced hc rfl hkind hlen _ (by simp [rest_single]))
  | write op' hkind hloaded =>
    obtain ⟨rfl, rfl⟩ := List.cons.inj hops
    have hdelivers := hdelivers (by simp [hkind])
    cases outcome with
    | failed errno => exact .inr (h.executed_failed hbalanced hc hdelivers (fun _ => hloaded) _)
    | moved n =>
      rw [perform_write hkind (hdelivers.2.1 hkind)]
      exact .inr (h.executed_moved hbalanced hc (by simp [hkind]) (Int.natCast_nonneg _)
        (fun p => copied_write hloaded) _)
  | falloc op' hkind hblank =>
    obtain ⟨rfl, rfl⟩ := List.cons.inj hops
    have hdelivers := hdelivers (by simp [hkind])
    cases outcome with
    | failed errno => exact .inr (h.executed_failed hbalanced hc hdelivers (by simp [hkind]) _)
    | moved n =>
      have hperform : perform cfg op' (.moved n) s =
          (0, { s with dst := punchHole op'.offset op'.len s.dst }) := by
        simp only [perform, hkind]
      rw [hperform]
      exact .inr (h.executed_moved hbalanced hc (by simp [hkind]) le_rfl
        (fun p => copied_punchHole hblank (hdelivers.2.2 hkind)) _)

end Executed

end Kernel

/-! ## Completions -/

section Completions
variable {cfg : Config} {held : ℕ → Prop} {s : State} {op : RingOp}

/-- Nothing is in hand that is not needed. -/
theorem Sound.mono {held' : ℕ → Prop} (h : Sound cfg held s) (hheld : ∀ p, held p → held' p) :
    Sound cfg held' s := by
  refine ⟨h.chains, h.cqes, h.placed, h.intent, fun p hstart hlt => ?_⟩
  rcases h.bytes p hstart hlt with hp | hp | hp
  · exact .inl hp
  · exact .inr (.inl hp)
  · exact .inr (.inr (hheld p hp))

theorem Sound.release (h : Sound cfg held s) {x : ℕ}
    (hunused : cfg.useLinkedSqe = false → opsOf x s.ring = []) :
    Sound cfg held (release cfg x s) := by
  refine ⟨?_, ?_, ?_, ?_, ?_⟩
  · simpa using h.chains
  · simpa using h.cqes
  · intro hdecoupled op hop hkind
    rw [release_ring] at hop
    rw [release_contextMap, release_lens_of_ne cfg s
      (index_ne_of_unused (hunused hdecoupled) hop hkind)]
    exact h.placed hdecoupled op hop hkind
  · simpa using h.intent
  · simpa using h.bytes

theorem giveBack_encounteredError (cfg : Config) (op : RingOp) (s : State) :
    (giveBack cfg op s).encounteredError = s.encounteredError := by
  unfold giveBack
  split_ifs <;> simp

theorem generalError_encounteredError (cfg : Config) (op : RingOp) {errno : ℕ} {s : State}
    (h : s.encounteredError ≠ none ∨ errno ≠ eintr) :
    (generalError cfg op errno s).encounteredError ≠ none := by
  unfold generalError State.decrInflight
  dsimp only
  rw [giveBack_encounteredError]
  split_ifs with hfirst
  · simp
  · tauto

/-- A failed operation dooms the copy, or an atomic write is made again. -/
theorem Sound.failedOp {free₀ : List ℕ} {lossless : Bool} {result : ℤ}
    (h : Sound cfg (Remains cfg op result) s) (hpopped : s.PoppedOp cfg free₀ lossless op)
    (hcqe : CqeOk cfg s.memory op result) (hresult : result < 0)
    (hplaced : cfg.useLinkedSqe = false →
      s.contextMap op.index = op.offset ∧ (op.kind = .write → s.lens op.index = op.len)) :
    Doomed (failedOp cfg op (-result).toNat s) ∨
      Sound cfg (fun _ => False) (failedOp cfg op (-result).toNat s) := by
  obtain ⟨hintr, hcancelled⟩ := hcqe.errno hresult
  have herrno : (-result).toNat ≠ eintr := by omega
  unfold SegmentCopy.failedOp
  split_ifs with hcancel hatomic
  · have := hcancelled hcancel.2.1 hcancel.2.2
    omega
  · obtain ⟨hkind, hintent, -⟩ := hatomic
    have hdecoupled : cfg.useLinkedSqe = false := by
      by_contra hlinked
      rw [h.intent (by simpa using hlinked)] at hintent
      cases hintent
    unfold atomicFallback
    dsimp only
    split_ifs with hfull
    · exact .inl (.inl (generalError_encounteredError cfg op (.inr herrno)))
    · right
      obtain ⟨hoffset, hlen⟩ := hplaced hdecoupled
      have hsame : (⟨.write, op.index, s.contextMap op.index, s.lens op.index⟩ : RingOp) = op := by
        rw [hoffset, hlen hkind, ← hkind]
      rw [hsame]
      refine h.pushed (Ring.push_of_not_linking hpopped.safe.closed false) rfl rfl
        (by simp [hdecoupled]) (.write op hkind (hcqe.loaded hdecoupled (.inr ⟨hkind, hresult⟩)))
        ?_ ?_
      · intro _ op' hop' hkind'
        rcases hop' with hop' | hop'
        · exact h.placed hdecoupled op' hop' hkind'
        · rw [List.mem_singleton.mp hop']
          exact hplaced hdecoupled
      · intro p _ hlt
        by_cases hp : Remains cfg op result p
        · exact .inr ⟨op, List.mem_singleton.mpr rfl, hp.1, hp.2.2⟩
        · exact .inl ⟨hlt, hp⟩
  · exact .inl (.inl (generalError_encounteredError cfg op (.inr herrno)))

/-- In decoupled mode what has been read is pushed on, as a write or as a zero block. -/
theorem Sound.pushNext {free₀ : List ℕ} {lossless : Bool} {result : ℤ}
    (h : Sound cfg (Remains cfg op result) s) (hpopped : s.PoppedOp cfg free₀ lossless op)
    (hdecoupled : cfg.useLinkedSqe = false) {kind : OpKind} (hkind : kind ≠ .hole)
    (hoffset : s.contextMap op.index = op.offset) (zeros : ℕ) {s' : State}
    (hring : s'.ring = s.ring) (hmemory : s'.memory = s.memory) (hdst : s'.dst = s.dst)
    (hcontext : s'.contextMap = s.contextMap) (hlens : s'.lens = update s.lens op.index op.len)
    (hseen : s'.offset = s.offset)
    (hchain : ChainOk cfg s.memory ⟨[⟨kind, op.index, op.offset, op.len⟩], false⟩) :
    Doomed (pushNext cfg ⟨kind, op.index, op.offset, op.len⟩ zeros s') ∨
      Sound cfg (fun _ => False) (pushNext cfg ⟨kind, op.index, op.offset, op.len⟩ zeros s') := by
  unfold SegmentCopy.pushNext
  split_ifs with hfull
  · exact .inl (.inl (by simp))
  · right
    have hunused : opsOf op.index s.ring = [] := (hpopped.inHand (by simp [hdecoupled])).unused
    refine h.pushed ?_ hmemory hdst (by simp [hdecoupled]) hchain ?_ ?_
    · dsimp only [State.push]
      rw [hring]
      exact Ring.push_of_not_linking hpopped.safe.closed false
    · intro _ op' hop' hkind'
      dsimp only [State.push]
      rw [hcontext, hlens]
      rcases hop' with hop' | hop'
      · rw [update_of_ne _ _ (index_ne_of_unused hunused hop' hkind')]
        exact h.placed hdecoupled op' hop' hkind'
      · rw [List.mem_singleton.mp hop']
        exact ⟨hoffset, fun _ => update_same _ _ _⟩
    · intro p _ hlt
      dsimp only [State.push] at hlt
      rw [hseen] at hlt
      by_cases hp : Remains cfg op result p
      · refine .inr ⟨_, List.mem_singleton.mpr rfl, ⟨hkind, ?_⟩, hp.2.2⟩
        simp [hdecoupled]
      · exact .inl ⟨hlt, hp⟩

theorem Sound.readDone {free₀ : List ℕ} {lossless : Bool} {result : ℤ}
    (h : Sound cfg (Remains cfg op result) s) (hpopped : s.PoppedOp cfg free₀ lossless op)
    (hcqe : CqeOk cfg s.memory op result) (hkind : op.kind = .read) (hresult : 0 ≤ result)
    (hplaced : cfg.useLinkedSqe = false → s.contextMap op.index = op.offset) :
    Doomed (readDone cfg op result.toNat s) ∨
      Sound cfg (fun _ => False) (readDone cfg op result.toNat s) := by
  have hbytes : result.toNat = op.len := by
    have := hcqe.full hkind hresult
    omega
  unfold SegmentCopy.readDone
  dsimp only
  rw [hbytes]
  by_cases hlinked : cfg.useLinkedSqe = true
  · -- the write that is linked to the read owes the bytes
    rw [if_pos hlinked]
    refine .inr ⟨h.chains, h.cqes, fun hdecoupled => ?_, h.intent, fun p hstart hlt => ?_⟩
    · rw [hlinked] at hdecoupled
      cases hdecoupled
    · rcases h.bytes p hstart hlt with hp | hp | hp
      · exact .inl hp
      · exact .inr (.inl hp)
      · have := hp.1.2 hlinked
        rw [hkind] at this
        cases this
  · rw [if_neg hlinked]
    have hdecoupled : cfg.useLinkedSqe = false := by simpa using hlinked
    have hoffset := hplaced hdecoupled
    have hloaded := hcqe.loaded hdecoupled (.inl ⟨hkind, hresult⟩)
    split_ifs with hzero
    · dsimp only [State.decrInflight]
      rw [hoffset]
      refine h.pushNext hpopped hdecoupled (by simp) hoffset op.len rfl rfl rfl rfl rfl rfl
        (.falloc _ rfl ?_)
      simp only [Bool.and_eq_true] at hzero
      exact blank_of_loaded hloaded hzero.1.2
    · dsimp only [State.decrInflight]
      rw [hoffset]
      exact h.pushNext hpopped hdecoupled (by simp) hoffset 0 rfl rfl rfl rfl rfl rfl
        (.write _ rfl hloaded)

/-- A completion is processed. -/
theorem Sound.processCqe {free₀ : List ℕ} {lossless : Bool} {result : ℤ}
    (h : Sound cfg (Remains cfg op result) s) (hpopped : s.PoppedOp cfg free₀ lossless op)
    (hkind : op.kind ≠ .hole) (hcqe : CqeOk cfg s.memory op result)
    (hplaced : cfg.useLinkedSqe = false →
      s.contextMap op.index = op.offset ∧ (op.kind = .write → s.lens op.index = op.len)) :
    Doomed (processCqe cfg op result s) ∨
      Sound cfg (fun _ => False) (processCqe cfg op result s) := by
  unfold SegmentCopy.processCqe
  rw [if_neg hkind]
  by_cases hneg : result < 0
  · rw [if_pos hneg]
    exact h.failedOp hpopped hcqe hneg hplaced
  rw [if_neg hneg]
  by_cases herror : s.encounteredError ≠ none
  · rw [if_pos herror]
    refine .inl (.inl ?_)
    dsimp only [State.decrInflight]
    rw [giveBack_encounteredError]
    exact herror
  rw [if_neg herror]
  have hunused : cfg.useLinkedSqe = false → opsOf op.index s.ring = [] := fun hdecoupled =>
    (hpopped.inHand (by simp [hdecoupled])).unused
  have hdone : op.kind ≠ .read → Sound cfg (fun _ => False) s := by
    intro hread
    refine h.mono fun p hp => ?_
    exact hp.2.1.elim hread hneg
  cases hk : op.kind with
  | read => exact h.readDone hpopped hcqe hk (not_lt.mp hneg) fun hdec => (hplaced hdec).1
  | write | falloc =>
    have hs := hdone (by simp [hk])
    refine .inr (Sound.release ?_ hunused)
    exact ⟨hs.chains, hs.cqes, hs.placed, hs.intent, hs.bytes⟩
  | hole => exact absurd hk hkind

/-- A turn of the reaping loop. -/
theorem Sound.reap {free₀ : List ℕ} {lossless : Bool} (h : Sound cfg (fun _ => False) s)
    (hbalanced : s.Balanced cfg free₀ lossless) (w : Wait) :
    Doomed (reap cfg w s) ∨ Sound cfg (fun _ => False) (reap cfg w s) := by
  unfold SegmentCopy.reap
  cases hcq : s.ring.cq with
  | cons cqe cq =>
    obtain ⟨op, result⟩ := cqe
    have hmem : (op, result) ∈ s.ring.cq := hcq ▸ List.mem_cons_self
    have hpop := h.pop hcq
    dsimp only
    by_cases hkind : op.kind = .hole
    · unfold SegmentCopy.processCqe
      rw [if_pos hkind]
      exact .inr (hpop.mono fun p hp => hp.1.1 hkind)
    · exact hpop.processCqe (Ledger.pop hbalanced hcq hkind) hkind (h.cqes op result hmem hkind)
        fun hdecoupled => h.placed hdecoupled op (mem_line_of_cq hmem) hkind
  | nil =>
    right
    have hsame : ∀ phase, Sound cfg (fun _ => False) { s with phase := phase } :=
      fun phase => ⟨h.chains, h.cqes, h.placed, h.intent, h.bytes⟩
    dsimp only
    split_ifs
    · exact hsame _
    · cases w with
      | readable => exact h
      | failed errno => exact hsame _
      | timeout hung submits =>
        cases hung <;> cases submits <;> first | exact hsame _ | exact h.submit
    · exact hsame _

end Completions

/-! ## Submitting -/

section Submitting
variable {cfg : Config} {s : State}

theorem chunkLen_le (cfg : Config) (s : State) : chunkLen cfg s ≤ s.length := by
  have hmod : min s.length cfg.chunkSize % 2 ^ 32 ≤ s.length :=
    (Nat.mod_le _ _).trans (Nat.min_le_left _ _)
  unfold chunkLen
  dsimp only
  split_ifs
  · exact (Nat.min_le_left _ _).trans hmod
  · exact hmod

theorem Sound.makeRoom (h : Sound cfg (fun _ => False) s) (submits : Bool) :
    (makeRoom cfg submits s).encounteredError ≠ none ∨
      Sound cfg (fun _ => False) (makeRoom cfg submits s) := by
  unfold SegmentCopy.makeRoom
  split_ifs
  · have hs := h.submit
    exact .inr ⟨hs.chains, hs.cqes, hs.placed, hs.intent, hs.bytes⟩
  · exact .inl (by simp)
  · exact .inr h

/-- The operations for a chunk owe its bytes. -/
theorem Sound.pushChunk {x : ℕ} (h : Sound cfg (fun _ => False) s) (hclosed : s.ring.linking = false)
    (hunused : opsOf x s.ring = []) (hcontext : s.contextMap x = s.offset)
    (hpair : cfg.useLinkedSqe = true → s.ring.queued + 1 ≠ cfg.sqCapacity)
    (partialSubmits : Bool) :
    Sound cfg (fun _ => False) (pushChunk cfg partialSubmits x s) := by
  have hgiven : ∀ phase pending, Sound cfg (fun _ => False)
      { SegmentCopy.release cfg x s with phase := phase, pendingSubmissions := pending } := by
    intro phase pending
    have hs := h.release fun _ => hunused
    exact ⟨hs.chains, hs.cqes, hs.placed, hs.intent, hs.bytes⟩
  have hplaced : ∀ op, op ∈ s.ring.line ∨ op ∈ [⟨.read, x, s.offset, chunkLen cfg s⟩] →
      cfg.useLinkedSqe = false → op.kind ≠ .hole →
      s.contextMap op.index = op.offset ∧ (op.kind = .write → s.lens op.index = op.len) := by
    intro op hop hdecoupled hkind
    rcases hop with hop | hop
    · exact h.placed hdecoupled op hop hkind
    · rw [List.mem_singleton.mp hop]
      exact ⟨hcontext, fun hwrite => by cases hwrite⟩
  unfold SegmentCopy.pushChunk
  dsimp only
  by_cases hlinked : cfg.useLinkedSqe = true
  · rw [if_pos hlinked]
    by_cases hfull : sqFull cfg s
    · rw [if_pos hfull]
      exact hgiven _ _
    · have hroom : ¬ sqFull cfg (s.push ⟨.read, x, s.offset, chunkLen cfg s⟩ true) := by
        have := hpair hlinked
        unfold sqFull State.push at *
        rw [Ring.queued_push hclosed]
        omega
      rw [if_neg hfull, if_neg hroom]
      refine h.pushed (Ring.push_pair hclosed _ _) rfl rfl h.intent (.pair _ hlinked rfl) ?_ ?_
      · simp [hlinked]
      · intro p _ hlt
        by_cases hp : p < s.offset
        · exact .inl ⟨hp, id⟩
        · refine .inr ⟨⟨.write, x, s.offset, chunkLen cfg s⟩, by simp, ⟨by simp, fun _ => rfl⟩, ?_⟩
          exact ⟨not_lt.mp hp, hlt⟩
  · rw [if_neg hlinked]
    have hdecoupled : cfg.useLinkedSqe = false := by simpa using hlinked
    by_cases hfull : sqFull cfg s
    · rw [if_pos hfull]
      split_ifs
      · have hs := (hgiven .flushing s.pendingSubmissions).submit
        exact ⟨hs.chains, hs.cqes, hs.placed, hs.intent, hs.bytes⟩
      · exact hgiven _ _
      · exact hgiven _ _
    · rw [if_neg hfull]
      refine h.pushed (Ring.push_of_not_linking hclosed false) rfl rfl h.intent
        (.read _ hdecoupled rfl) (fun hdec op hop => hplaced op hop hdec) ?_
      intro p _ hlt
      by_cases hp : p < s.offset
      · exact .inl ⟨hp, id⟩
      · refine .inr ⟨⟨.read, x, s.offset, chunkLen cfg s⟩, by simp, ⟨by simp, ?_⟩, ?_⟩
        · simp [hdecoupled]
        · exact ⟨not_lt.mp hp, hlt⟩

theorem not_atomic_of_linked (h : cfg.useLinkedSqe = true) : cfg.useAtomic = false := by
  simp [Config.useLinkedSqe] at h
  exact h.2

theorem Sound.startChunk {x : ℕ} (h : Sound cfg (fun _ => False) s)
    (hclosed : s.ring.linking = false) (hunused : opsOf x s.ring = [])
    (hpair : cfg.useLinkedSqe = true → s.ring.queued + 1 ≠ cfg.sqCapacity)
    (partialSubmits : Bool) :
    Sound cfg (fun _ => False) (startChunk cfg partialSubmits x s) := by
  unfold SegmentCopy.startChunk
  split_ifs
  · exact ⟨h.chains, h.cqes, h.placed, h.intent, h.bytes⟩
  · have hs := h.release fun _ => hunused
    exact ⟨hs.chains, hs.cqes, hs.placed, hs.intent, hs.bytes⟩
  · have hs : Sound cfg (fun _ => False) { s with
        atomicIntent := update s.atomicIntent x cfg.useAtomic
        contextMap := update s.contextMap x s.offset } := by
      refine ⟨h.chains, h.cqes, ?_, ?_, h.bytes⟩
      · intro hdecoupled op hop hkind
        dsimp only
        rw [update_of_ne _ _ (index_ne_of_unused hunused hop hkind)]
        exact h.placed hdecoupled op hop hkind
      · intro hlinked y
        dsimp only
        by_cases hy : y = x
        · rw [hy, update_same]
          exact not_atomic_of_linked hlinked
        · rw [update_of_ne _ _ hy]
          exact h.intent hlinked y
    exact hs.pushChunk hclosed hunused (update_same _ _ _) hpair partialSubmits

/-- A turn of the submitting loop. -/
theorem Sound.iterate {free₀ : List ℕ} {lossless : Bool} (h : Sound cfg (fun _ => False) s)
    (hbalanced : s.Balanced cfg free₀ lossless) (submits partialSubmits : Bool)
    (hpair : cfg.useLinkedSqe = true → taken cfg submits s ≠ none →
      (SegmentCopy.makeRoom cfg submits s).ring.queued + 1 ≠ cfg.sqCapacity) :
    Doomed (iterate cfg submits partialSubmits s) ∨
      Sound cfg (fun _ => False) (iterate cfg submits partialSubmits s) := by
  have hphase : ∀ {s : State} (phase : Phase), Sound cfg (fun _ => False) s →
      Sound cfg (fun _ => False) { s with phase := phase } :=
    fun phase h => ⟨h.chains, h.cqes, h.placed, h.intent, h.bytes⟩
  unfold SegmentCopy.iterate
  by_cases hwants : wantsChunk cfg s
  · rw [if_pos hwants]
    dsimp only
    by_cases hbreak : (SegmentCopy.makeRoom cfg submits s).encounteredError ≠ none ∨
        sqFull cfg (SegmentCopy.makeRoom cfg submits s)
    · rw [if_pos hbreak]
      rcases h.makeRoom submits with herror | hroom
      · exact .inl (.inl herror)
      · exact .inr (hphase _ hroom)
    rw [if_neg hbreak]
    have hroom := (h.makeRoom submits).resolve_left fun herror => hbreak (.inl herror)
    cases hacquire : acquire cfg (SegmentCopy.makeRoom cfg submits s).free with
    | none => exact .inr (hphase _ hroom)
    | some p =>
      obtain ⟨x, rest⟩ := p
      have hhand := Ledger.acquire (hbalanced.makeRoom submits) hacquire
      rw [makeRoom_free] at hacquire
      have htaken := taken_eq hwants hbreak hacquire
      have hrest : Sound cfg (fun _ => False)
          { SegmentCopy.makeRoom cfg submits s with free := rest } :=
        ⟨hroom.chains, hroom.cqes, hroom.placed, hroom.intent, hroom.bytes⟩
      refine .inr (hrest.startChunk ?_ ?_ ?_ partialSubmits)
      · exact hhand.closed
      · exact hhand.unused
      · intro hlinked
        refine hpair hlinked ?_
        rw [htaken]
        exact Option.some_ne_none x
  · rw [if_neg hwants]
    exact .inr (hphase _ h)

theorem Sound.flush (h : Sound cfg (fun _ => False) s) (submits : Bool) :
    Doomed (flush submits s) ∨ Sound cfg (fun _ => False) (flush submits s) := by
  unfold SegmentCopy.flush
  split_ifs
  · have hs := h.submit
    exact .inr ⟨hs.chains, hs.cqes, hs.placed, hs.intent, hs.bytes⟩
  · refine .inl (.inl ?_)
    cases s.encounteredError <;> simp
  · exact .inr ⟨h.chains, h.cqes, h.placed, h.intent, h.bytes⟩

theorem Sound.clock (h : Sound cfg (fun _ => False) s) (timedOut stalled : Bool) :
    Sound cfg (fun _ => False) (clock timedOut stalled s) := by
  unfold SegmentCopy.clock
  split_ifs <;> exact ⟨h.chains, h.cqes, h.placed, h.intent, h.bytes⟩

end Submitting

/-! ## Errors stay -/

/-- An error is not forgotten, no completion is lost, and what is still to be submitted ends where
the segment does. -/
structure Persists (s s' : State) : Prop where
  error : s.encounteredError ≠ none → s'.encounteredError ≠ none
  cq : s.ring.cq ⊆ s'.ring.cq
  span : s'.offset + s'.length = s.offset + s.length

section Errors
variable {cfg : Config} {s s' : State}

theorem Doomed.mono (h : Doomed s) (hpersists : Persists s s') : Doomed s' := by
  rcases h with herror | ⟨op, result, hmem, hfailed⟩
  · exact .inl (hpersists.error herror)
  · exact .inr ⟨op, result, hpersists.cq hmem, hfailed⟩

theorem persists_pushChunk (cfg : Config) (partialSubmits : Bool) (x : ℕ) (s : State) :
    Persists s (pushChunk cfg partialSubmits x s) := by
  have hle := chunkLen_le cfg s
  unfold pushChunk
  dsimp only
  split_ifs <;> refine ⟨?_, ?_, ?_⟩ <;> simp [State.push, State.submit, chunkPushed] <;> omega

theorem persists_startChunk (cfg : Config) (partialSubmits : Bool) (x : ℕ) (s : State) :
    Persists s (startChunk cfg partialSubmits x s) := by
  unfold startChunk
  split_ifs
  · exact ⟨id, List.Subset.refl _, rfl⟩
  · exact ⟨by simp, by simp, by simp⟩
  · obtain ⟨herror, hcq, hspan⟩ := persists_pushChunk cfg partialSubmits x { s with
      atomicIntent := update s.atomicIntent x cfg.useAtomic
      contextMap := update s.contextMap x s.offset }
    exact ⟨herror, hcq, hspan⟩

theorem persists_makeRoom (cfg : Config) (submits : Bool) (s : State) :
    Persists s (makeRoom cfg submits s) := by
  unfold makeRoom
  split_ifs <;> exact ⟨by simp [State.submit], by simp [State.submit], rfl⟩

theorem persists_iterate (cfg : Config) (submits partialSubmits : Bool) (s : State) :
    Persists s (iterate cfg submits partialSubmits s) := by
  obtain ⟨herror, hcq, hspan⟩ := persists_makeRoom cfg submits s
  unfold iterate
  dsimp only
  split_ifs
  · exact ⟨herror, hcq, hspan⟩
  · cases acquire cfg (makeRoom cfg submits s).free with
    | none => exact ⟨herror, hcq, hspan⟩
    | some p =>
      obtain ⟨herror', hcq', hspan'⟩ := persists_startChunk cfg partialSubmits p.1
        { makeRoom cfg submits s with free := p.2 }
      exact ⟨fun h => herror' (herror h), List.Subset.trans hcq hcq', hspan'.trans hspan⟩
  · exact ⟨id, List.Subset.refl _, rfl⟩

theorem persists_flush (submits : Bool) (s : State) : Persists s (flush submits s) := by
  unfold flush
  split_ifs
  · exact ⟨id, by simp [State.submit], rfl⟩
  · refine ⟨fun herror => ?_, List.Subset.refl _, rfl⟩
    cases s.encounteredError <;> simp
  · exact ⟨id, List.Subset.refl _, rfl⟩

theorem persists_clock (timedOut stalled : Bool) (s : State) :
    Persists s (clock timedOut stalled s) := by
  unfold clock
  split_ifs <;> exact ⟨id, List.Subset.refl _, rfl⟩

theorem persists_execute (cfg : Config) (i : ℕ) (outcome : Outcome) (s : State) :
    Persists s (execute cfg i outcome s) := by
  have hcq : ∀ {c : Chain RingOp} {op : RingOp} {ops : List RingOp},
      s.ring.kernel[i]? = some c → c.ops = op :: ops → ∀ result ok,
      s.ring.cq ⊆ (s.ring.complete i result ok).cq := by
    intro c op ops hc hops result ok
    rw [Ring.complete_eq hc hops]
    exact List.subset_append_left _ _
  obtain heq | ⟨c, op, ops, hc, hops, ⟨-, heq⟩ | ⟨-, heq⟩⟩ := execute_cases cfg i outcome s
  · rw [heq]
    exact ⟨id, List.Subset.refl _, rfl⟩
  · rw [heq]
    exact ⟨id, hcq hc hops _ _, rfl⟩
  · obtain ⟨memory, dst, hsame⟩ := perform_eq cfg op outcome s
    rw [heq, hsame]
    exact ⟨id, hcq hc hops _ _, rfl⟩

theorem persists_giveBack (cfg : Config) (op : RingOp) (s : State) :
    Persists s (giveBack cfg op s).decrInflight := by
  unfold giveBack State.decrInflight
  split_ifs <;> exact ⟨by simp, by simp, by simp⟩

theorem persists_generalError (cfg : Config) (op : RingOp) (errno : ℕ) (s : State) :
    Persists s (generalError cfg op errno s) := by
  obtain ⟨-, hcq, hspan⟩ := persists_giveBack cfg op s
  exact ⟨fun herror => generalError_encounteredError cfg op (.inl herror), hcq, hspan⟩

theorem persists_pushNext (cfg : Config) (op : RingOp) (zeros : ℕ) (s : State) :
    Persists s (pushNext cfg op zeros s) := by
  unfold pushNext
  split_ifs <;> exact ⟨by simp [State.push], by simp [State.push], by simp [State.push]⟩

theorem persists_failedOp (cfg : Config) (op : RingOp) (errno : ℕ) (s : State) :
    Persists s (failedOp cfg op errno s) := by
  unfold failedOp atomicFallback
  dsimp only
  split_ifs
  · exact ⟨by simp [State.decrInflight], by simp, by simp [State.decrInflight]⟩
  · obtain ⟨herror, hcq, hspan⟩ := persists_generalError cfg op errno { s with
      atomicIntent := update s.atomicIntent op.index false
      encounteredError := some .sqFull }
    exact ⟨fun _ => herror (by simp), hcq, hspan⟩
  · exact ⟨by simp [State.push], by simp [State.push], rfl⟩
  · exact persists_generalError cfg op errno s

theorem persists_processCqe (cfg : Config) (op : RingOp) (result : ℤ) (s : State) :
    Persists s (processCqe cfg op result s) := by
  unfold processCqe
  split_ifs
  · exact ⟨id, List.Subset.refl _, rfl⟩
  · exact persists_failedOp cfg op _ s
  · exact persists_giveBack cfg op s
  · cases op.kind with
    | read =>
      dsimp only [readDone]
      split_ifs
      · exact ⟨id, List.Subset.refl _, rfl⟩
      · obtain ⟨herror, hcq, hspan⟩ := persists_pushNext cfg
          ⟨.falloc, op.index, s.contextMap op.index, result.toNat⟩ result.toNat
          { s.decrInflight with lens := update s.lens op.index result.toNat }
        exact ⟨herror, hcq, hspan⟩
      · obtain ⟨herror, hcq, hspan⟩ := persists_pushNext cfg
          ⟨.write, op.index, s.contextMap op.index, result.toNat⟩ 0
          { s.decrInflight with lens := update s.lens op.index result.toNat }
        exact ⟨herror, hcq, hspan⟩
    | write | falloc => exact ⟨by simp [State.decrInflight], by simp, by simp [State.decrInflight]⟩
    | hole => exact ⟨id, List.Subset.refl _, rfl⟩

/-- A failed read is not forgotten when its completion is taken. -/
theorem Doomed.reap (h : Doomed s) (w : Wait) : Doomed (reap cfg w s) := by
  unfold SegmentCopy.reap
  cases hcq : s.ring.cq with
  | cons cqe cq =>
    obtain ⟨op, result⟩ := cqe
    have hpersists := persists_processCqe cfg op result { s with ring := s.ring.reap }
    rcases h with herror | ⟨op', result', hmem, hread, hneg, hintr⟩
    · exact .inl (hpersists.error herror)
    · rw [hcq] at hmem
      rcases List.mem_cons.mp hmem with heq | hmem
      · obtain ⟨rfl, rfl⟩ := Prod.mk.inj heq
        left
        dsimp only
        rw [processCqe, if_neg (by simp [hread]), if_pos hneg, failedOp, if_neg (by simp [hread]),
          if_neg (by simp [hread])]
        exact generalError_encounteredError cfg op' (.inr (by omega))
      · refine .inr ⟨op', result', hpersists.cq ?_, hread, hneg, hintr⟩
        dsimp only [Ring.reap]
        rw [hcq]
        exact hmem
  | nil =>
    have herror : s.encounteredError ≠ none := by
      rcases h with herror | ⟨op, result, hmem, -⟩
      · exact herror
      · rw [hcq] at hmem
        cases hmem
    left
    dsimp only
    split_ifs
    · exact herror
    · cases w with
      | readable => exact herror
      | failed errno => exact herror
      | timeout hung submits => cases hung <;> cases submits <;> exact herror
    · exact herror

theorem reap_span (w : Wait) : (reap cfg w s).offset + (reap cfg w s).length = s.offset + s.length := by
  unfold SegmentCopy.reap
  cases s.ring.cq with
  | cons cqe cq => exact (persists_processCqe cfg cqe.1 cqe.2 { s with ring := s.ring.reap }).span
  | nil =>
    dsimp only
    split_ifs
    · rfl
    · cases w with
      | readable => rfl
      | failed errno => rfl
      | timeout hung submits => cases hung <;> cases submits <;> rfl
    · rfl

/-- An error stays through every step. -/
theorem Doomed.step (h : Doomed s) (e : Event) : Doomed (step cfg s e) := by
  refine step_rule cfg e h ?_ ?_ ?_ ?_ ?_
  · intro timedOut stalled _ _
    exact h.mono (persists_clock timedOut stalled s)
  · intro submits partialSubmits _ _
    exact h.mono (persists_iterate cfg submits partialSubmits s)
  · intro submits _ _
    exact h.mono (persists_flush submits s)
  · intro w _ _
    exact h.reap w
  · intro i outcome _
    exact h.mono (persists_execute cfg i outcome s)

/-- What has been submitted and what has not make up the segment. -/
def State.Spans (cfg : Config) (s : State) : Prop :=
  s.offset + s.length = cfg.startOffset + cfg.totalLen

theorem State.Spans.step (h : s.Spans cfg) (e : Event) : (step cfg s e).Spans cfg := by
  refine step_rule cfg e h ?_ ?_ ?_ ?_ ?_
  · intro timedOut stalled _ _
    exact (persists_clock timedOut stalled s).span.trans h
  · intro submits partialSubmits _ _
    exact (persists_iterate cfg submits partialSubmits s).span.trans h
  · intro submits _ _
    exact (persists_flush submits s).span.trans h
  · intro w _ _
    exact (reap_span w).trans h
  · intro i outcome _
    exact (persists_execute cfg i outcome s).span.trans h

end Errors

/-! ## Runs -/

section Runs
variable {cfg : Config} {free₀ : List ℕ} {s : State}

theorem Sound.step {lossless : Bool} (h : Sound cfg (fun _ => False) s)
    (hbalanced : s.Balanced cfg free₀ lossless) (e : Event) (hpair : ¬ HalfPair cfg s e)
    (hwhole : Whole cfg s e) :
    Doomed (step cfg s e) ∨ Sound cfg (fun _ => False) (step cfg s e) := by
  refine step_rule cfg (P := fun s' => Doomed s' ∨ Sound cfg (fun _ => False) s') e (.inr h)
    ?_ ?_ ?_ ?_ ?_
  · intro timedOut stalled _ _
    exact .inr (h.clock timedOut stalled)
  · rintro submits partialSubmits rfl hphase
    exact h.iterate hbalanced submits partialSubmits fun hlinked htaken hone =>
      hpair ⟨hphase, hlinked, htaken, hone⟩
  · intro submits _ _
    exact h.flush submits
  · intro w _ _
    exact h.reap hbalanced w
  · rintro i outcome rfl
    exact h.execute hbalanced i outcome hwhole

/-- A copy has returned without an error only when there was none and everything is done. -/
def State.Finished (s : State) : Prop :=
  s.phase = .returned (.ok ()) → s.encounteredError = none ∧ s.length = 0 ∧ s.inflightOps = 0

theorem finished_of_ne (h : s.phase ≠ .returned (.ok ())) : s.Finished :=
  fun hphase => absurd hphase h

theorem finished_clock (timedOut stalled : Bool) (s : State) :
    (clock timedOut stalled s).Finished := by
  unfold clock
  split_ifs with hmore
  · exact finished_of_ne (by simp [State.fail])
  · exact finished_of_ne (by simp)
  · exact finished_of_ne (by simp [State.fail])
  · exact finished_of_ne (by simp)
  · intro hphase
    refine ⟨?_, by dsimp only; omega, by dsimp only; omega⟩
    dsimp only at hphase ⊢
    cases herror : s.encounteredError with
    | none => rfl
    | some error =>
      rw [herror] at hphase
      cases hphase

theorem finished_iterate (hphase : s.phase = .submitting) (submits partialSubmits : Bool) :
    (iterate cfg submits partialSubmits s).Finished := by
  refine finished_of_ne ?_
  unfold iterate
  dsimp only
  split_ifs
  · simp
  · cases acquire cfg (makeRoom cfg submits s).free with
    | none => simp
    | some p =>
      dsimp only [startChunk]
      split_ifs
      · simp
      · simp
      · rcases pushChunk_phase cfg partialSubmits p.1 _ with heq | heq
        · rw [heq]
          simp [hphase]
        · rw [heq]
          simp
  · simp

theorem finished_reap (hphase : s.phase = .reaping) (w : Wait) : (reap cfg w s).Finished := by
  refine finished_of_ne ?_
  unfold reap
  cases s.ring.cq with
  | cons cqe cq => simp [processCqe_phase, hphase]
  | nil =>
    dsimp only
    split_ifs
    · simp
    · cases w with
      | readable => simp [hphase]
      | failed errno => simp [State.fail]
      | timeout hung submits =>
        cases hung <;> cases submits <;> simp [State.fail, State.submit, hphase]
    · simp

theorem State.Finished.step (h : s.Finished) (e : Event) : (step cfg s e).Finished := by
  refine step_rule cfg e h ?_ ?_ ?_ ?_ ?_
  · intro timedOut stalled _ _
    exact finished_clock timedOut stalled s
  · intro submits partialSubmits _ hphase
    exact finished_iterate hphase submits partialSubmits
  · intro submits _ _
    unfold flush
    split_ifs <;> exact finished_of_ne (by simp)
  · intro w _ hphase
    exact finished_reap hphase w
  · intro i outcome _
    obtain ⟨memory, dst, ring, hsame⟩ := execute_eq cfg i outcome s
    rw [hsame]
    exact h

/-- What holds in every state of a copy whose operations deliver. -/
structure CopyInvariant (cfg : Config) (free₀ : List ℕ) (s : State) : Prop where
  balanced : s.Balanced cfg free₀ false
  spans : s.Spans cfg
  finished : s.Finished
  data : Doomed s ∨ Sound cfg (fun _ => False) s

theorem CopyInvariant.step (h : CopyInvariant cfg free₀ s) (e : Event) (hpair : ¬ HalfPair cfg s e)
    (hwhole : Whole cfg s e) : CopyInvariant cfg free₀ (step cfg s e) := by
  refine ⟨h.balanced.step e hpair (by simp), h.spans.step e, h.finished.step e, ?_⟩
  rcases h.data with hdoomed | hsound
  · exact .inl (hdoomed.step e)
  · exact hsound.step h.balanced e hpair hwhole

/-- Nothing is owed when a copy has returned without an error. -/
theorem CopyInvariant.copied (h : CopyInvariant cfg free₀ s) (hok : s.phase = .returned (.ok ()))
    (p : ℕ) (hstart : cfg.startOffset ≤ p) (hend : p < cfg.startOffset + cfg.totalLen) :
    Copied cfg.src s.dst p := by
  obtain ⟨herror, hlength, hinflight⟩ := h.finished hok
  have hnone : active s.ring = [] := by
    rw [← List.length_eq_zero_iff, ← h.balanced.count]
    exact hinflight
  have hline : ∀ op ∈ s.ring.line, op.kind = .hole := by
    intro op hop
    by_contra hkind
    have hmem : op ∈ active s.ring := by
      refine List.mem_filter.mpr ⟨hop, ?_⟩
      rw [RingOp.key_eq_some.mpr ⟨hkind, rfl⟩]
      rfl
    rw [hnone] at hmem
    cases hmem
  have hspans := h.spans
  unfold State.Spans at hspans
  rcases h.data with hdoomed | hsound
  · rcases hdoomed with hyes | ⟨op, result, hmem, hread, -⟩
    · exact absurd herror hyes
    · rw [hline op (mem_line_of_cq hmem)] at hread
      cases hread
  · rcases hsound.bytes p hstart (by omega) with hcopied | ⟨op, ⟨hcarries, howes⟩, -⟩ | hfalse
    · exact hcopied
    · have hop : op ∈ s.ring.line := by
        rcases howes with hwaiting | ⟨result, hmem, -⟩
        · exact mem_line_of_waiting hwaiting
        · exact mem_line_of_cq hmem
      exact absurd (hline op hop) hcarries.1
    · exact hfalse.elim

theorem copyInvariant_start (hnodup : free₀.Nodup) (hbound : ∀ x ∈ free₀, x < cfg.capacity)
    (memory : ℕ → Bytes) (holes : ℕ) (dst : Bytes) :
    CopyInvariant cfg free₀ (start cfg free₀ memory holes dst) := by
  refine ⟨balanced_start hnodup hbound memory holes dst false, rfl,
    finished_of_ne (by simp [start]), .inr ⟨?_, ?_, ?_, ?_, ?_⟩⟩
  · intro c hc
    have hc' : c ∈ List.replicate holes ⟨[⟨.hole, 0, 0, 0⟩], false⟩ := hc
    rw [List.eq_of_mem_replicate hc']
    exact .hole _ rfl
  · intro op result hmem
    cases hmem
  · intro _ op hop hkind
    refine absurd ?_ hkind
    obtain ⟨c, hc, hmem⟩ := List.mem_flatMap.mp (show op ∈
      (List.replicate holes (⟨[⟨.hole, 0, 0, 0⟩], false⟩ : Chain RingOp)).flatMap Chain.ops from hop)
    rw [List.eq_of_mem_replicate hc] at hmem
    rw [List.mem_singleton.mp hmem]
  · exact fun _ _ => rfl
  · intro p hstart hlt
    exact absurd hlt (not_lt.mpr hstart)

/-- In a run in which no pair is pushed by halves and every operation moves all its bytes or fails
with an error, a copy that returns without an error has copied every byte of the segment. -/
theorem copied_of_along (hnodup : free₀.Nodup) (hbound : ∀ x ∈ free₀, x < cfg.capacity)
    (memory : ℕ → Bytes) (holes : ℕ) (dst : Bytes) (es : List Event)
    (hes : Run.Along (step cfg) (fun s e => ¬ HalfPair cfg s e ∧ Whole cfg s e)
      (start cfg free₀ memory holes dst) es)
    (hok : (Run.exec (step cfg) (start cfg free₀ memory holes dst) es).phase = .returned (.ok ())) :
    ∀ p, cfg.startOffset ≤ p → p < cfg.startOffset + cfg.totalLen →
      Copied cfg.src (Run.exec (step cfg) (start cfg free₀ memory holes dst) es).dst p := by
  have hinv := Run.invariant (step cfg) (I := CopyInvariant cfg free₀)
    (fun s e hallowed hs => hs.step e hallowed.1 hallowed.2) hes
    (copyInvariant_start hnodup hbound memory holes dst)
  exact hinv.copied hok

theorem copied_linkedPair :
    let s := start linkedPair [0, 1] (fun _ => []) 0 []
    let es := linkedPairTurn 4096 ++ linkedPairTurn 1 ++ [.clock false false]
    (Run.exec (step linkedPair) s es).dst[4096]? = some 2 ∧
      ∀ p, linkedPair.startOffset ≤ p → p < linkedPair.startOffset + linkedPair.totalLen →
        Copied linkedPair.src (Run.exec (step linkedPair) s es).dst p := by
  intro s es
  have hok : (Run.exec (step linkedPair) s es).phase = .returned (.ok ()) := by decide +kernel
  have hcopied := copied_of_along (by decide) (by decide) (fun _ => []) 0 [] es (by decide +kernel)
    hok
  obtain ⟨b, hsrc, hdst⟩ := hcopied 4096 (by decide) (by decide)
  have hlast : linkedPair.src[4096]? = some 2 := by decide +kernel
  exact ⟨hdst.trans (hsrc.symm.trans hlast), hcopied⟩

/-- The first read of a linked pair is short, so its write is cancelled. -/
def shortRead : List Event :=
  [.clock false false, .iterate true true, .iterate true true, .flush true,
    .execute 0 (.moved 1), .execute 0 (.moved 4096), .reap .readable, .reap .readable,
    .reap .readable] ++ linkedPairTurn 1 ++ [.clock false false]

theorem shortRead_missing :
    let s := Run.exec (step linkedPair) (start linkedPair [0, 1] (fun _ => []) 0 []) shortRead
    s.phase = .returned (.ok ()) ∧ s.dst[0]? = some 0 ∧ s.dst[4096]? = some 2 ∧
      ¬ ∀ p, linkedPair.startOffset ≤ p → p < linkedPair.startOffset + linkedPair.totalLen →
        Copied linkedPair.src s.dst p := by
  intro s
  have hend : s.phase = .returned (.ok ()) ∧ s.dst[0]? = some 0 ∧ s.dst[4096]? = some 2 := by
    decide +kernel
  refine ⟨hend.1, hend.2.1, hend.2.2, fun h => ?_⟩
  obtain ⟨b, hsrc, hdst⟩ := h 0 (by decide) (by decide)
  rw [hend.2.1] at hdst
  rw [← hdst] at hsrc
  exact absurd hsrc (by decide)

end Runs

end Foxing.SegmentCopy
