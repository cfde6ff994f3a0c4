import Foxing.Lib.Uring
import Foxing.Lib.Run
import Foxing.RangeCopy

/-!
# The copy of a segment

A segment of data is copied in chunks: each one is read into a buffer of a pool and written from
it. In linked mode the two operations are pushed together, otherwise the write is pushed when the
read is found to be complete; a block of zeros may be punched out instead. Three loops are nested
in the source: the outer one watches the time, and within it chunks are submitted as long as there
are buffers, and completions are taken as long as there are any.

A step is one turn of one of these loops, and it is told what the turn finds: whether a time is
over, whether the ring can be submitted, what comes of waiting. Beside them the kernel executes
operations in any order with any result.

The flags of the operations, the counters of the metrics and the governor, which only yields, are
left out. The operations that are in the ring when the copy begins punch holes in other places of
the destination.
-/
namespace Foxing.SegmentCopy
open Uring

/-! ## Operations -/

inductive OpKind where
  | read | write | falloc | hole
  deriving DecidableEq, Repr

/-- An operation with the buffer it uses and the place in the files. -/
structure RingOp where
  kind : OpKind
  index : ℕ
  offset : ℕ
  len : ℕ
  deriving DecidableEq, Repr

def einval : ℕ := 22
def eintr : ℕ := 4
def eopnotsupp : ℕ := 95
def ecanceled : ℕ := 125

/-- What the kernel makes of an operation. -/
inductive Outcome where
  | moved (n : ℕ)
  | failed (errno : ℕ)
  deriving DecidableEq, Repr

inductive SegmentError where
  | timedOut
  | stalled
  | hung
  | readable (errno : ℕ)
  | submit
  | os (errno : ℕ)
  | sqFull
  | atomic
  | memory
  deriving DecidableEq, Repr

/-! ## The state of a copy -/

/-- What a copy is given. -/
structure Config where
  src : Bytes
  startOffset : ℕ
  totalLen : ℕ
  vdoOpt : Bool
  useAtomic : Bool
  chunkSize : ℕ
  /-- The number of buffers in the pool, and how many may be used. -/
  capacity : ℕ
  bufferLimit : Option ℕ
  /-- The free buffers are in a queue that threads share, or on a stack. -/
  sharedPool : Bool
  atomicMax : ℕ
  /-- May an atomic write be made at an offset, with a length and from a buffer? -/
  checkAtomicInvariants : ℕ → ℕ → ℕ → Bool
  sqCapacity : ℕ

def Config.useLinkedSqe (cfg : Config) : Bool := !cfg.vdoOpt && !cfg.useAtomic

def Config.buffersCount (cfg : Config) : ℕ := min (cfg.bufferLimit.getD cfg.capacity) cfg.capacity

/-- Where the copy is: at the head of the outer loop, in the one that submits, behind it, in the
one that takes completions, or done. -/
inductive Phase where
  | head
  | submitting
  | flushing
  | reaping
  | returned (result : Except SegmentError Unit)
  deriving DecidableEq

structure State where
  phase : Phase
  inflightOps : ℕ
  offset : ℕ
  length : ℕ
  atomicIntent : ℕ → Bool
  contextMap : ℕ → ℕ
  encounteredError : Option SegmentError
  pendingSubmissions : ℕ
  bytesProcessed : ℕ
  bytesZeros : ℕ
  opsCount : ℕ
  lastBytesProcessed : ℕ
  /-- The free buffers of the pool, what their lengths have been set to and what is in them. -/
  free : List ℕ
  lens : ℕ → ℕ
  memory : ℕ → Bytes
  ring : Ring RingOp ℤ
  dst : Bytes

def update {α : Type} (f : ℕ → α) (x : ℕ) (v : α) : ℕ → α := fun y => if y = x then v else f y

@[simp] theorem update_same {α : Type} (f : ℕ → α) (x : ℕ) (v : α) : update f x v x = v := by
  simp [update]

theorem update_of_ne {α : Type} (f : ℕ → α) {x y : ℕ} (v : α) (h : y ≠ x) :
    update f x v y = f y := by
  simp [update, h]

/-- The counter has 64 bits and wraps around below zero. -/
def decr (n : ℕ) : ℕ := if n = 0 then 2 ^ 64 - 1 else n - 1

section Copy
variable (cfg : Config)

/-! ### The pool -/

def acquire (free : List ℕ) : Option (ℕ × List ℕ) :=
  if cfg.sharedPool then
    match free with
    | [] => none
    | x :: rest => some (x, rest)
  else
    match free.getLast? with
    | none => none
    | some x => some (x, free.dropLast)

/-- Nothing is added to a queue that is full. -/
def release (x : ℕ) (s : State) : State :=
  if x < cfg.capacity then
    { s with
      lens := update s.lens x 0
      free := if cfg.sharedPool ∧ cfg.capacity ≤ s.free.length then s.free else s.free ++ [x] }
  else s

@[simp] theorem release_phase (x : ℕ) (s : State) : (release cfg x s).phase = s.phase := by
  unfold release
  split_ifs <;> rfl

@[simp] theorem release_inflightOps (x : ℕ) (s : State) : (release cfg x s).inflightOps = s.inflightOps := by
  unfold release
  split_ifs <;> rfl

@[simp] theorem release_offset (x : ℕ) (s : State) : (release cfg x s).offset = s.offset := by
  unfold release
  split_ifs <;> rfl

@[simp] theorem release_length (x : ℕ) (s : State) : (release cfg x s).length = s.length := by
  unfold release
  split_ifs <;> rfl

@[simp] theorem release_atomicIntent (x : ℕ) (s : State) : (release cfg x s).atomicIntent = s.atomicIntent := by
  unfold release
  split_ifs <;> rfl

@[simp] theorem release_contextMap (x : ℕ) (s : State) : (release cfg x s).contextMap = s.contextMap := by
  unfold release
  split_ifs <;> rfl

@[simp] theorem release_encounteredError (x : ℕ) (s : State) : (release cfg x s).encounteredError = s.encounteredError := by
  unfold release
  split_ifs <;> rfl

@[simp] theorem release_memory (x : ℕ) (s : State) : (release cfg x s).memory = s.memory := by
  unfold release
  split_ifs <;> rfl

@[simp] theorem release_ring (x : ℕ) (s : State) : (release cfg x s).ring = s.ring := by
  unfold release
  split_ifs <;> rfl

@[simp] theorem release_dst (x : ℕ) (s : State) : (release cfg x s).dst = s.dst := by
  unfold release
  split_ifs <;> rfl

theorem release_lens_of_ne {x y : ℕ} (s : State) (h : y ≠ x) :
    (release cfg x s).lens y = s.lens y := by
  unfold release
  split_ifs
  · exact update_of_ne _ _ h
  · exact update_of_ne _ _ h
  · rfl

/-- What a pool that is not full has after a release. -/
theorem release_free {x : ℕ} {s : State} (hx : x < cfg.capacity)
    (hfree : s.free.length < cfg.capacity) : (release cfg x s).free = s.free ++ [x] := by
  unfold release
  rw [if_pos hx]
  exact if_neg (by omega)

/-! ### Submitting -/

def sqFull (s : State) : Prop := cfg.sqCapacity ≤ s.ring.queued

instance decidableSqFull (s : State) : Decidable (sqFull cfg s) :=
  inferInstanceAs (Decidable (_ ≤ _))

def State.push (op : RingOp) (link : Bool) (s : State) : State :=
  { s with ring := s.ring.push op link }

def State.submit (s : State) : State := { s with ring := s.ring.submit }

/-- Is there another chunk to be submitted now? -/
def wantsChunk (s : State) : Prop :=
  s.inflightOps < cfg.buffersCount ∧ 0 < s.length ∧ s.encounteredError = none

instance decidableWantsChunk (s : State) : Decidable (wantsChunk cfg s) :=
  inferInstanceAs (Decidable (_ ∧ _))

/-- A full queue is submitted if there is something to submit in it. -/
def makeRoom (submits : Bool) (s : State) : State :=
  if sqFull cfg s ∧ 0 < s.pendingSubmissions then
    if submits then { s.submit with pendingSubmissions := 0 }
    else { s with encounteredError := some .submit }
  else s

section Room
variable (submits : Bool) (s : State)

@[simp] theorem makeRoom_free : (makeRoom cfg submits s).free = s.free := by
  unfold makeRoom
  split_ifs <;> rfl

@[simp] theorem makeRoom_inflightOps : (makeRoom cfg submits s).inflightOps = s.inflightOps := by
  unfold makeRoom
  split_ifs <;> rfl

@[simp] theorem makeRoom_offset : (makeRoom cfg submits s).offset = s.offset := by
  unfold makeRoom
  split_ifs <;> rfl

@[simp] theorem makeRoom_length : (makeRoom cfg submits s).length = s.length := by
  unfold makeRoom
  split_ifs <;> rfl

@[simp] theorem makeRoom_phase : (makeRoom cfg submits s).phase = s.phase := by
  unfold makeRoom
  split_ifs <;> rfl

end Room

/-- The length of the next chunk. -/
def chunkLen (s : State) : ℕ :=
  let len := min s.length cfg.chunkSize % 2 ^ 32
  if cfg.useAtomic ∧ 0 < cfg.atomicMax then min len cfg.atomicMax else len

/-- The operations for a chunk have been pushed. -/
def chunkPushed (len ops : ℕ) (s : State) : State :=
  { s with
    inflightOps := s.inflightOps + ops
    pendingSubmissions := s.pendingSubmissions + ops
    offset := s.offset + len
    length := s.length - len
    opsCount := s.opsCount + 1 }

/-- Push the operations for a chunk that has a buffer. When there is room for the read only, it is
submitted without the write and the buffer is given back. -/
def pushChunk (partialSubmits : Bool) (x : ℕ) (s : State) : State :=
  let len := chunkLen cfg s
  let read : RingOp := ⟨.read, x, s.offset, len⟩
  if cfg.useLinkedSqe then
    if sqFull cfg s then { release cfg x s with phase := .flushing }
    else
      let withRead := s.push read true
      if sqFull cfg withRead then
        let given := { release cfg x withRead with phase := .flushing }
        if partialSubmits then given.submit else given
      else chunkPushed len 2 (withRead.push { read with kind := .write } false)
  else
    if sqFull cfg s then
      -- what has been pushed is submitted; it makes no difference here if that fails
      let given := { release cfg x s with phase := .flushing }
      if 0 < s.pendingSubmissions then
        { if partialSubmits then given.submit else given with pendingSubmissions := 0 }
      else given
    else chunkPushed len 1 (s.push read false)

/-- A chunk for a buffer that has been acquired. -/
def startChunk (partialSubmits : Bool) (x : ℕ) (s : State) : State :=
  if cfg.capacity ≤ x then { s with phase := .returned (.error .memory) }
  else if cfg.useAtomic ∧ cfg.checkAtomicInvariants s.offset (chunkLen cfg s) x = false then
    { release cfg x s with phase := .returned (.error .atomic) }
  else
    pushChunk cfg partialSubmits x { s with
      atomicIntent := update s.atomicIntent x cfg.useAtomic
      contextMap := update s.contextMap x s.offset }

/-- One turn of the loop that submits. -/
def iterate (submits partialSubmits : Bool) (s : State) : State :=
  if wantsChunk cfg s then
    let s := makeRoom cfg submits s
    if s.encounteredError ≠ none ∨ sqFull cfg s then { s with phase := .flushing }
    else
      match acquire cfg s.free with
      | none => { s with phase := .flushing }
      | some (x, rest) => startChunk cfg partialSubmits x { s with free := rest }
  else { s with phase := .flushing }

def flush (submits : Bool) (s : State) : State :=
  if 0 < s.pendingSubmissions then
    if submits then { s.submit with pendingSubmissions := 0, phase := .reaping }
    else { s with
      encounteredError := s.encounteredError <|> some .submit
      pendingSubmissions := 0, phase := .reaping }
  else { s with phase := .reaping }

/-! ### Completions -/

/-- Is the buffer given back when the operation has failed or is not looked at any more? -/
def givesBack (op : RingOp) : Bool :=
  op.kind ≠ .falloc && (!cfg.useLinkedSqe || op.kind = .write)

def giveBack (op : RingOp) (s : State) : State :=
  if givesBack cfg op then release cfg op.index s else s

def State.decrInflight (s : State) : State := { s with inflightOps := decr s.inflightOps }

@[simp] theorem decrInflight_free (s : State) : s.decrInflight.free = s.free := rfl

@[simp] theorem decrInflight_ring (s : State) : s.decrInflight.ring = s.ring := rfl

@[simp] theorem decrInflight_inflightOps (s : State) :
    s.decrInflight.inflightOps = decr s.inflightOps := rfl

/-- The general handling of errors: the first one is kept, except for an interruption. -/
def generalError (op : RingOp) (errno : ℕ) (s : State) : State :=
  let s := giveBack cfg op s
  { s with
    encounteredError :=
      if s.encounteredError = none ∧ errno ≠ eintr then some (.os errno) else s.encounteredError
  }.decrInflight

/-- An atomic write that is not supported is made again as a normal one. -/
def atomicFallback (op : RingOp) (errno : ℕ) (s : State) : State :=
  let s := { s with atomicIntent := update s.atomicIntent op.index false }
  if sqFull cfg s then generalError cfg op errno { s with encounteredError := some .sqFull }
  else s.push ⟨.write, op.index, s.contextMap op.index, s.lens op.index⟩ false

def failedOp (op : RingOp) (errno : ℕ) (s : State) : State :=
  if errno = ecanceled ∧ cfg.useLinkedSqe ∧ op.kind = .write then
    release cfg op.index s.decrInflight
  else if op.kind = .write ∧ s.atomicIntent op.index ∧ (errno = eopnotsupp ∨ errno = einval) then
    atomicFallback cfg op errno s
  else generalError cfg op errno s

def minZeroPunch : ℕ := 16 * 1024

/-- Push an operation for what has been read. -/
def pushNext (op : RingOp) (zeros : ℕ) (s : State) : State :=
  if sqFull cfg s then release cfg op.index { s with encounteredError := some .sqFull }
  else { s.push op false with
    pendingSubmissions := s.pendingSubmissions + 1
    inflightOps := s.inflightOps + 1
    bytesZeros := s.bytesZeros + zeros
    bytesProcessed := s.bytesProcessed + zeros }

/-- The bytes that have been read are written, or punched out if they are many zeros. -/
def readDone (op : RingOp) (bytes : ℕ) (s : State) : State :=
  let s := { s.decrInflight with lens := update s.lens op.index bytes }
  if cfg.useLinkedSqe then s
  else
    let zero := cfg.vdoOpt && 0 < bytes && ((s.memory op.index).take bytes).all (· = 0)
    if zero ∧ minZeroPunch ≤ bytes then
      pushNext cfg ⟨.falloc, op.index, s.contextMap op.index, bytes⟩ bytes s
    else pushNext cfg ⟨.write, op.index, s.contextMap op.index, bytes⟩ 0 s

/-- A completion that has been taken. -/
def processCqe (op : RingOp) (result : ℤ) (s : State) : State :=
  if op.kind = .hole then s
  else if result < 0 then failedOp cfg op (-result).toNat s
  else if s.encounteredError ≠ none then (giveBack cfg op s).decrInflight
  else
    match op.kind with
    | .read => readDone cfg op result.toNat s
    | .write =>
      release cfg op.index
        { s.decrInflight with bytesProcessed := s.bytesProcessed + result.toNat }
    | .falloc => release cfg op.index s.decrInflight
    | .hole => s

/-- What comes of waiting for completions. -/
inductive Wait where
  | readable
  | failed (errno : ℕ)
  /-- Nothing in time; that may have happened too often, else the ring is submitted. -/
  | timeout (hung submits : Bool)
  deriving DecidableEq, Repr

def State.fail (error : SegmentError) (s : State) : State :=
  { s with phase := .returned (.error error) }

/-- One turn of the loop that takes completions. -/
def reap (w : Wait) (s : State) : State :=
  match s.ring.cq with
  | (op, result) :: _ => processCqe cfg op result { s with ring := s.ring.reap }
  | [] =>
    if 0 < s.length ∧ 0 < s.free.length ∧ ¬ sqFull cfg s then { s with phase := .head }
    else if 0 < s.inflightOps then
      match w with
      | .readable => s
      | .failed errno => s.fail (.readable errno)
      | .timeout true _ => s.fail .hung
      | .timeout false true => s.submit
      | .timeout false false => s.fail .submit
    else { s with phase := .head }

/-! ### The outer loop -/

def clock (timedOut stalled : Bool) (s : State) : State :=
  if 0 < s.length ∨ 0 < s.inflightOps then
    if timedOut then s.fail .timedOut
    else if s.lastBytesProcessed < s.bytesProcessed then
      { s with lastBytesProcessed := s.bytesProcessed, phase := .submitting }
    else if 0 < s.inflightOps ∧ stalled then s.fail .stalled
    else { s with phase := .submitting }
  else { s with phase := .returned (match s.encounteredError with
    | some error => .error error
    | none => .ok ()) }

/-! ### The kernel -/

/-- The effect of an operation and its result. -/
def perform (op : RingOp) (outcome : Outcome) (s : State) : ℤ × State :=
  match outcome with
  | .failed errno => (-errno, s)
  | .moved n =>
    match op.kind with
    | .read =>
      let n := min n (min op.len (cfg.src.length - op.offset))
      let filled := Chunks.write 0 ((cfg.src.drop op.offset).take n) (s.memory op.index)
      (n, { s with memory := update s.memory op.index filled })
    | .write =>
      let n := min n op.len
      (n, { s with dst := Chunks.write op.offset ((s.memory op.index).take n) s.dst })
    | .falloc => (0, { s with dst := punchHole op.offset op.len s.dst })
    | .hole => (0, s)

/-- The first operation of a chain is executed, or cancelled with its chain. -/
def execute (i : ℕ) (outcome : Outcome) (s : State) : State :=
  match s.ring.kernel[i]? with
  | none => s
  | some c =>
    match c.ops with
    | [] => s
    | op :: _ =>
      if c.cancelled then { s with ring := s.ring.complete i (-ecanceled) false }
      else
        match perform cfg op outcome s with
        | (result, s') => { s' with ring := s.ring.complete i result (decide (result = op.len)) }

/-- What the kernel can do. -/
theorem execute_cases (i : ℕ) (outcome : Outcome) (s : State) :
    execute cfg i outcome s = s ∨
      ∃ c op ops, s.ring.kernel[i]? = some c ∧ c.ops = op :: ops ∧
        (c.cancelled = true ∧
          execute cfg i outcome s = { s with ring := s.ring.complete i (-ecanceled) false } ∨
        c.cancelled = false ∧
          execute cfg i outcome s = { (perform cfg op outcome s).2 with
            ring := s.ring.complete i (perform cfg op outcome s).1
              (decide ((perform cfg op outcome s).1 = op.len)) }) := by
  unfold execute
  cases hc : s.ring.kernel[i]? with
  | none => exact .inl rfl
  | some c =>
    dsimp only
    cases hops : c.ops with
    | nil => exact .inl rfl
    | cons op ops =>
      refine .inr ⟨c, op, ops, rfl, hops, ?_⟩
      cases hcancelled : c.cancelled with
      | true => exact .inl ⟨rfl, rfl⟩
      | false => exact .inr ⟨rfl, rfl⟩

theorem perform_eq (op : RingOp) (outcome : Outcome) (s : State) :
    ∃ memory dst, (perform cfg op outcome s).2 = { s with memory := memory, dst := dst } := by
  unfold perform
  cases outcome with
  | failed errno => exact ⟨_, _, rfl⟩
  | moved n => cases op.kind <;> exact ⟨_, _, rfl⟩

theorem execute_eq (i : ℕ) (outcome : Outcome) (s : State) :
    ∃ memory dst ring, execute cfg i outcome s =
      { s with memory := memory, dst := dst, ring := ring } := by
  obtain heq | ⟨c, op, ops, -, -, ⟨-, heq⟩ | ⟨-, heq⟩⟩ := execute_cases cfg i outcome s
  · exact ⟨_, _, _, heq⟩
  · exact ⟨_, _, _, heq⟩
  · obtain ⟨memory, dst, hsame⟩ := perform_eq cfg op outcome s
    rw [hsame] at heq
    exact ⟨_, _, _, heq⟩

inductive Event where
  | clock (timedOut stalled : Bool)
  | iterate (submits partialSubmits : Bool)
  | flush (submits : Bool)
  | reap (w : Wait)
  | execute (i : ℕ) (outcome : Outcome)
  deriving DecidableEq, Repr

def step (s : State) : Event → State
  | .clock timedOut stalled =>
    match s.phase with
    | .head => clock timedOut stalled s
    | _ => s
  | .iterate submits partialSubmits =>
    match s.phase with
    | .submitting => iterate cfg submits partialSubmits s
    | _ => s
  | .flush submits =>
    match s.phase with
    | .flushing => flush submits s
    | _ => s
  | .reap w =>
    match s.phase with
    | .reaping => reap cfg w s
    | _ => s
  | .execute i outcome => execute cfg i outcome s

/-- What every turn of every loop and every step of the kernel keeps is kept by a step. -/
theorem step_rule {P : State → Prop} {s : State} (e : Event) (hstay : P s)
    (hclock : ∀ timedOut stalled, e = .clock timedOut stalled → s.phase = .head →
      P (clock timedOut stalled s))
    (hiterate : ∀ submits partialSubmits, e = .iterate submits partialSubmits →
      s.phase = .submitting → P (iterate cfg submits partialSubmits s))
    (hflush : ∀ submits, e = .flush submits → s.phase = .flushing → P (flush submits s))
    (hreap : ∀ w, e = .reap w → s.phase = .reaping → P (reap cfg w s))
    (hexecute : ∀ i outcome, e = .execute i outcome → P (execute cfg i outcome s)) :
    P (step cfg s e) := by
  cases e with
  | clock timedOut stalled =>
    simp only [step]
    split
    · exact hclock timedOut stalled rfl ‹_›
    · exact hstay
  | iterate submits partialSubmits =>
    simp only [step]
    split
    · exact hiterate submits partialSubmits rfl ‹_›
    · exact hstay
  | flush submits =>
    simp only [step]
    split
    · exact hflush submits rfl ‹_›
    · exact hstay
  | reap w =>
    simp only [step]
    split
    · exact hreap w rfl ‹_›
    · exact hstay
  | execute i outcome => exact hexecute i outcome rfl

/-- A copy begins with free buffers, whatever is in them, and a number of holes in the submission
queue that are still to be punched. -/
def start (free : List ℕ) (memory : ℕ → Bytes) (holes : ℕ) (dst : Bytes) : State where
  phase := .head
  inflightOps := 0
  offset := cfg.startOffset
  length := cfg.totalLen
  atomicIntent _ := false
  contextMap _ := 0
  encounteredError := none
  pendingSubmissions := 0
  bytesProcessed := 0
  bytesZeros := 0
  opsCount := 0
  lastBytesProcessed := 0
  free := free
  lens _ := 0
  memory := memory
  ring := ⟨List.replicate holes ⟨[⟨.hole, 0, 0, 0⟩], false⟩, false, [], []⟩
  dst := dst

end Copy

end Foxing.SegmentCopy
