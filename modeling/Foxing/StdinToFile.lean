import Foxing.CompressionSniffing
import Foxing.Lib.Chunks
import Mathlib.Data.List.Sort
import Mathlib.Data.String.Basic

/-!
# Copies from the standard input

What comes in at the standard input is written to a file or a block device in chunks. Chunks of
zeros are passed over, unless that is turned off, as a file that has been emptied reads as zeros
there; a device has its old bytes. From time to time a clone of the file is made as a checkpoint,
and old checkpoints are removed, which are told by their names.
-/
namespace Foxing.StdinToFile
open Sniffing

def stdinChunkSize : ℕ := 1024 * 1024

/-! ## Zero blocks -/

/-- The blocks of a buffer that the processor compares at once, longer ones first; the rest is
compared byte by byte. -/
def isZeroBlock : List ℕ → Bytes → Bool
  | [], buf => buf.all (· = 0)
  | lane :: lanes, buf =>
    let n := buf.length / lane
    ((List.range n).all fun i => (Chunks.chunk lane buf i).all (· = 0)) &&
      isZeroBlock lanes (buf.drop (n * lane))

theorem isZeroBlock_eq (lanes : List ℕ) (buf : Bytes) :
    isZeroBlock lanes buf = buf.all (· = 0) := by
  induction lanes generalizing buf with
  | nil => rfl
  | cons lane lanes ih =>
    rw [isZeroBlock, ih, Bool.eq_iff_iff, Bool.and_eq_true]
    simp only [List.all_eq_true, List.mem_range, decide_eq_true_eq]
    constructor
    · rintro ⟨hblocks, hrest⟩ b hb
      obtain ⟨p, hp⟩ := List.mem_iff_getElem?.mp hb
      by_cases hblock : p < buf.length / lane * lane
      · have hlane : 0 < lane := Nat.pos_of_mul_pos_left (Nat.zero_lt_of_lt hblock)
        refine hblocks (p / lane) ((Nat.div_lt_iff_lt_mul hlane).mpr hblock) b ?_
        exact List.mem_of_getElem? ((Chunks.getElem?_chunk hlane buf p).trans hp)
      · refine hrest b (List.mem_of_getElem? (i := p - buf.length / lane * lane) ?_)
        rw [List.getElem?_drop, Nat.add_sub_cancel' (Nat.le_of_not_lt hblock)]
        exact hp
    · intro hall
      refine ⟨fun i _ b hb => ?_, fun b hb => hall b (List.mem_of_mem_drop hb)⟩
      exact hall b (List.mem_of_mem_drop (List.mem_of_mem_take hb))

/-! ## The copy -/

structure StdinOptions where
  zeroCopy : Bool
  size : Option ℕ
  checkpointInterval : Option ℕ
  checkpointKeep : ℕ

/-- The destination before the copy. A file that does not exist has no bytes. -/
structure Destination where
  name : String
  isBlockDevice : Bool
  content : Bytes

/-- How a write goes: it takes at most so many bytes, or fails. -/
inductive Write where
  | takes (k : ℕ)
  | fails
  deriving DecidableEq, Repr

/-- What happens in one turn of the loop. -/
structure Turn where
  /-- The first writes; any others take all that they can. -/
  writes : List Write
  /-- The seconds since the last checkpoint. -/
  elapsed : ℕ
  synced : Bool
  cloned : Bool
  /-- The other names in the directory of the destination, if it can be read. -/
  listing : Option (List String)
  removable : Bool

/-- What the system does in a copy. -/
structure Env where
  lanes : List ℕ
  allocated : Bool
  turns : ℕ → Turn
  truncated : Bool
  synced : Bool

/-- The destination during the copy. -/
structure Stream where
  content : Bytes
  offset : ℕ
  turn : ℕ
  checkpointCount : ℕ
  /-- The destination is still at its path. -/
  present : Bool
  deriving DecidableEq, Repr

/-- The writes of a chunk. A device does not grow, and takes nothing behind its end. -/
def pwriteAll (isBlockDevice : Bool) : List Write → ℕ → Bytes → Bytes → Option Bytes
  | [], pos, data, content =>
    if data ≠ [] ∧ isBlockDevice = true ∧ content.length < pos + data.length then none
    else some (Chunks.write pos data content)
  | w :: writes, pos, data, content =>
    if data = [] then some content
    else
      match w with
      | .fails => none
      | .takes k =>
        if isBlockDevice = true ∧ content.length ≤ pos then none
        else
          let n := min k (if isBlockDevice then content.length - pos else data.length)
          pwriteAll isBlockDevice writes (pos + (data.take n).length) (data.drop n)
            (Chunks.write pos (data.take n) content)

/-- The names that are taken for checkpoints. -/
def isCheckpoint (name t : String) : Bool :=
  name.toList.isPrefixOf t.toList && decide (".snap.".toList <:+: t.toList)

/-- The names that are removed: the first of those that look like checkpoints, so that as many as
are kept are left. -/
def pruneStreamCheckpoints (name : String) (keep : ℕ) (names : List String) : List String :=
  let snaps := (names.filter (isCheckpoint name)).insertionSort fun a b => a ≤ b
  snaps.take (snaps.length - keep)

variable (opts : StdinOptions) (env : Env) (dst : Destination)

/-- A chunk is passed over or written. -/
def writeChunk (filled : Bytes) (s : Stream) : Option Stream :=
  if !opts.zeroCopy && isZeroBlock env.lanes filled then
    some { s with offset := s.offset + filled.length }
  else (pwriteAll dst.isBlockDevice (env.turns s.turn).writes s.offset filled s.content).map
    fun content => { s with content := content, offset := s.offset + filled.length }

/-- A checkpoint, if it is time for one. -/
def checkpoint (s : Stream) : Option Stream :=
  match opts.checkpointInterval with
  | none => some s
  | some interval =>
    let turn := env.turns s.turn
    if turn.elapsed < interval then some s
    else if !turn.synced then none
    else if !turn.cloned then some s
    else if s.checkpointCount + 1 ≤ opts.checkpointKeep then
      some { s with checkpointCount := s.checkpointCount + 1 }
    else
      let names := turn.listing.elim [] fun others =>
        if s.present then others ++ [dst.name] else others
      let removed := pruneStreamCheckpoints dst.name opts.checkpointKeep names
      some { s with
        checkpointCount := s.checkpointCount + 1
        present := s.present && !(turn.removable && removed.contains dst.name) }

/-- The loop over the chunks. -/
def copyLoop (source : Reads.Source (Fin 256)) (s : Stream) : Option Stream :=
  match h : Reads.fill stdinChunkSize source.data source.turns with
  | none => none
  | some (filled, rest) =>
    if hfilled : filled = [] then some s
    else
      have := Reads.length_rest_lt h hfilled
      match (writeChunk opts env dst filled s).bind (checkpoint opts env dst) with
      | none => none
      | some s => copyLoop rest { s with turn := s.turn + 1 }
termination_by source.data.length

/-- The bytes of the destination when it has been opened, and emptied if it is a file. -/
def opened : Bytes :=
  if dst.isBlockDevice then dst.content
  else
    match opts.size, env.allocated with
    | some size, true => List.replicate size 0
    | _, _ => []

/-- A file is cut off, or filled up with zeros. -/
def ftruncate (length : ℕ) (content : Bytes) : Bytes :=
  content.take length ++ List.replicate (length - content.length) 0

/-- The copy of what a reader delivers. Nothing is returned for an error. -/
def copyStream (data : Bytes) (turns : List Reads.Turn) : Option Stream :=
  match copyLoop opts env dst ⟨data, turns⟩ ⟨opened opts env dst, 0, 0, 0, true⟩ with
  | none => none
  | some s =>
    if !env.synced then none
    else if dst.isBlockDevice || !env.truncated then some s
    else some { s with content := ftruncate s.offset s.content }

/-- What a reader delivers: the bytes as they are, or what the decoder makes of them. -/
def delivered (decode : Compression → Bytes → Bytes) (reader : StdinReader) : Bytes :=
  reader.format.elim reader.input fun format => decode format reader.input

def runStdinToFile (decode : Compression → Bytes → Bytes) (stdin : Reads.Source (Fin 256))
    (turns : List Reads.Turn) : Option Stream :=
  (openStdin stdin.data stdin.turns).bind fun reader =>
    copyStream opts env dst (delivered decode reader) turns

/-! ## When a copy is exact -/

/-- The destination has the data, and a file has nothing else. -/
structure Exact (data : Bytes) (s : Stream) : Prop where
  present : s.present = true
  content : s.content.take data.length = data
  length : dst.isBlockDevice = false → s.content.length = data.length

/-- The byte is in a chunk of zeros that is passed over. -/
def Skipped (data : Bytes) (i : ℕ) : Prop :=
  opts.zeroCopy = false ∧ i < data.length ∧
    ∀ b ∈ Chunks.chunk stdinChunkSize data (i / stdinChunkSize), b = 0

instance (data : Bytes) (i : ℕ) : Decidable (Skipped opts data i) :=
  inferInstanceAs (Decidable (_ ∧ _ ∧ ∀ b ∈ _, b = 0))

/-- A checkpoint is made in the turn. -/
def Made (k : ℕ) : Prop :=
  (∃ interval, opts.checkpointInterval = some interval ∧ interval ≤ (env.turns k).elapsed) ∧
    (env.turns k).synced = true ∧ (env.turns k).cloned = true

instance (k : ℕ) : Decidable (Made opts env k) :=
  inferInstanceAs (Decidable ((∃ interval, _ = some interval ∧ _) ∧ _))

/-- The destination is taken for an old checkpoint of its own and removed in the turn. -/
def Removes (k : ℕ) : Prop :=
  Made opts env k ∧ opts.checkpointKeep < (List.range (k + 1)).countP (Made opts env) ∧
    (env.turns k).removable = true ∧ ".snap.".toList <:+: dst.name.toList ∧
    ∃ others, (env.turns k).listing = some others ∧
      opts.checkpointKeep ≤ others.countP (isCheckpoint dst.name)

/-- On a device there are zeros already where chunks are passed over; a file is cut to its length,
or has it by its preallocation and its last chunk; and no checkpointing removes the destination. -/
structure Intact (data : Bytes) : Prop where
  zeros : dst.isBlockDevice = true → ∀ i, Skipped opts data i → dst.content[i]? = some 0
  length : dst.isBlockDevice = false → env.truncated = true ∨
    (opened opts env dst).length ≤ data.length ∧
      ((opened opts env dst).length = data.length ∨ ¬Skipped opts data (data.length - 1))
  kept : ∀ k < Chunks.count stdinChunkSize data.length, ¬Removes opts env dst k

/-! ## What holds between two turns -/

/-- The content after some of the data: the chunks that were written are there, and what was
passed over is as it was. -/
structure Written (data content : Bytes) (offset : ℕ) : Prop where
  bytes : ∀ i : ℕ, content[i]?.getD 0 =
    if i < offset ∧ ¬Skipped opts data i then data[i]?.getD 0
    else (opened opts env dst)[i]?.getD 0
  opened_le : (opened opts env dst).length ≤ content.length
  length_le : content.length ≤ max (opened opts env dst).length offset
  full : 0 < offset → (content.length = max (opened opts env dst).length offset ↔
    offset ≤ (opened opts env dst).length ∨ ¬Skipped opts data (offset - 1))
  device : dst.isBlockDevice = true → content.length = (opened opts env dst).length

/-- The state of the loop between two turns. -/
structure Streamed (data : Bytes) (source : Reads.Source (Fin 256)) (s : Stream) : Prop where
  rest : source.data = data.drop s.offset
  offset : s.offset = min (s.turn * stdinChunkSize) data.length
  turn : s.turn ≤ Chunks.count stdinChunkSize data.length
  written : Written opts env dst data s.content s.offset
  checkpoints : s.checkpointCount = (List.range s.turn).countP (Made opts env)
  present : s.present = true ↔ ∀ k < s.turn, ¬Removes opts env dst k

/-! ## Chunks that are written -/

section
variable {opts env dst}

/-- The writes of a chunk that succeed have written it, and within a device. -/
theorem pwriteAll_eq {isBlockDevice : Bool} {writes : List Write} {pos : ℕ}
    {data content content' : Bytes}
    (h : pwriteAll isBlockDevice writes pos data content = some content') :
    content' = Chunks.write pos data content ∧
      (isBlockDevice = true → content'.length = content.length) := by
  induction writes generalizing pos data content with
  | nil =>
    rw [pwriteAll] at h
    split_ifs at h with hfull
    obtain rfl := Option.some.inj h
    refine ⟨rfl, fun hdevice => ?_⟩
    by_cases hdata : data = []
    · rw [hdata, Chunks.write_nil]
    · rw [Chunks.length_write _ _ _ hdata]
      have hfits : ¬content.length < pos + data.length := fun hlt => hfull ⟨hdata, hdevice, hlt⟩
      omega
  | cons w writes ih =>
    by_cases hdata : data = []
    · have hsame : content' = content := by
        cases w <;> rw [pwriteAll, if_pos hdata] at h <;> exact (Option.some.inj h).symm
      rw [hdata, Chunks.write_nil]
      exact ⟨hsame, fun _ => hsame ▸ rfl⟩
    · cases w with
      | fails =>
        rw [pwriteAll, if_neg hdata] at h
        cases h
      | takes k =>
        rw [pwriteAll, if_neg hdata] at h
        by_cases hfull : isBlockDevice = true ∧ content.length ≤ pos
        · rw [if_pos hfull] at h
          cases h
        · rw [if_neg hfull] at h
          dsimp only at h
          generalize hn : min k (if isBlockDevice then content.length - pos
            else data.length) = n at h
          obtain ⟨hwritten, hlength⟩ := ih h
          rw [Chunks.write_write, List.take_append_drop] at hwritten
          refine ⟨hwritten, fun hdevice => (hlength hdevice).trans ?_⟩
          by_cases htaken : data.take n = []
          · rw [htaken, Chunks.write_nil]
          · have hroom : ¬content.length ≤ pos := fun hle => hfull ⟨hdevice, hle⟩
            rw [if_pos hdevice] at hn
            rw [Chunks.length_write _ _ _ htaken, List.length_take]
            omega

/-- A chunk is passed over if it has zeros only and that is not turned off; else it is written. -/
theorem writeChunk_eq {filled : Bytes} {s written : Stream}
    (h : writeChunk opts env dst filled s = some written) :
    ∃ content, written = { s with content := content, offset := s.offset + filled.length } ∧
      (opts.zeroCopy = false ∧ (∀ b ∈ filled, b = 0) ∧ content = s.content ∨
        ¬(opts.zeroCopy = false ∧ ∀ b ∈ filled, b = 0) ∧
          content = Chunks.write s.offset filled s.content ∧
          (dst.isBlockDevice = true → content.length = s.content.length)) := by
  have hzero : (!opts.zeroCopy && isZeroBlock env.lanes filled) = true ↔
      opts.zeroCopy = false ∧ ∀ b ∈ filled, b = 0 := by
    simp [isZeroBlock_eq]
  rw [writeChunk] at h
  split_ifs at h with hskip
  · obtain rfl := Option.some.inj h
    exact ⟨s.content, rfl, .inl ⟨(hzero.mp hskip).1, (hzero.mp hskip).2, rfl⟩⟩
  · obtain ⟨content, hcontent, rfl⟩ := Option.map_eq_some_iff.mp h
    exact ⟨content, rfl, .inr ⟨fun hs => hskip (hzero.mpr hs), pwriteAll_eq hcontent⟩⟩

/-! ## Checkpoints -/

/-- The destination's own name is the first of those that begin with it. -/
theorem mem_pruneStreamCheckpoints (name : String) (keep : ℕ) (others : List String) :
    name ∈ pruneStreamCheckpoints name keep (others ++ [name]) ↔
      ".snap.".toList <:+: name.toList ∧ keep ≤ others.countP (isCheckpoint name) := by
  set snaps := ((others ++ [name]).filter (isCheckpoint name)).insertionSort
    fun a b => a ≤ b with hsnaps
  have hprune : pruneStreamCheckpoints name keep (others ++ [name]) =
      snaps.take (snaps.length - keep) := rfl
  have hmem : ∀ t, t ∈ snaps ↔ (t ∈ others ∨ t = name) ∧ isCheckpoint name t = true := by
    intro t
    rw [hsnaps, List.mem_insertionSort, List.mem_filter, List.mem_append, List.mem_singleton]
  have hself : isCheckpoint name name = true ↔ ".snap.".toList <:+: name.toList := by
    rw [isCheckpoint, Bool.and_eq_true, decide_eq_true_eq, List.isPrefixOf_iff_prefix]
    exact and_iff_right List.prefix_rfl
  rw [hprune, ← hself]
  by_cases hname : isCheckpoint name name = true
  · have hlength : snaps.length = others.countP (isCheckpoint name) + 1 := by
      rw [hsnaps, List.length_insertionSort, ← List.countP_eq_length_filter, List.countP_append,
        List.countP_singleton, if_pos hname]
    have hsorted : snaps.Pairwise fun a b => a ≤ b :=
      List.pairwise_insertionSort _ _
    cases hcons : snaps with
    | nil => simp [hcons] at hlength
    | cons first rest =>
      -- what begins with the name does not come before it
      have hfirst : first = name := by
        rw [hcons] at hsorted hmem
        obtain ⟨suffix, hsuffix⟩ := List.isPrefixOf_iff_prefix.mp
          (Bool.and_eq_true_iff.mp ((hmem first).mp (List.mem_cons_self ..)).2).1
        have hge : name ≤ first := by
          rw [← not_lt, String.lt_iff_toList_lt, ← hsuffix]
          exact List.le_append_left
        have hle : first ≤ name := by
          obtain rfl | hrest := List.mem_cons.mp ((hmem name).mpr ⟨.inr rfl, hname⟩)
          · exact hge
          · exact (List.pairwise_cons.mp hsorted).1 name hrest
        exact le_antisymm hle hge
      rw [← hcons, hlength]
      by_cases hkeep : keep ≤ others.countP (isCheckpoint name)
      · obtain ⟨m, hm⟩ := Nat.exists_eq_add_of_le hkeep
        have htake : others.countP (isCheckpoint name) + 1 - keep = m + 1 := by omega
        rw [htake, hcons, hfirst, List.take_succ_cons]
        exact iff_of_true (List.mem_cons_self ..) ⟨hname, hkeep⟩
      · have htake : others.countP (isCheckpoint name) + 1 - keep = 0 := by omega
        rw [htake, List.take_zero]
        exact iff_of_false List.not_mem_nil fun h => hkeep h.2
  · refine iff_of_false (fun h => hname ?_) fun h => hname h.1
    exact ((hmem name).mp (List.mem_of_mem_take h)).2

theorem countP_made (k : ℕ) : (List.range (k + 1)).countP (Made opts env) =
    (List.range k).countP (Made opts env) + if Made opts env k then 1 else 0 := by
  rw [List.range_succ, List.countP_append, List.countP_singleton]
  simp

/-- The destination is removed if it is still there and taken for an old checkpoint. -/
theorem removed_iff (keep : ℕ) (turn : Turn) (present : Bool) :
    (present && !(turn.removable && (pruneStreamCheckpoints dst.name keep
        (turn.listing.elim [] fun others => if present then others ++ [dst.name] else
          others)).contains dst.name)) = true ↔
      present = true ∧ ¬(turn.removable = true ∧ ".snap.".toList <:+: dst.name.toList ∧
        ∃ others, turn.listing = some others ∧ keep ≤ others.countP (isCheckpoint dst.name)) := by
  cases present with
  | false => simp
  | true =>
    cases turn.listing with
    | none => simp [pruneStreamCheckpoints]
    | some others =>
      have hmem := mem_pruneStreamCheckpoints dst.name keep others
      cases turn.removable with
      | false => simp
      | true =>
        simp only [Bool.true_and, Option.elim_some, if_true, true_and, Option.some.injEq,
          exists_eq_left']
        rw [← hmem, ← List.contains_iff_mem, Bool.not_eq_true', Bool.not_eq_true]

/-- A turn adds the checkpoint that it makes, and may remove the destination. -/
theorem checkpoint_eq {s checked : Stream} (h : checkpoint opts env dst s = some checked)
    (hcount : s.checkpointCount = (List.range s.turn).countP (Made opts env)) :
    checked.content = s.content ∧ checked.offset = s.offset ∧ checked.turn = s.turn ∧
      checked.checkpointCount = (List.range (s.turn + 1)).countP (Made opts env) ∧
      (checked.present = true ↔ s.present = true ∧ ¬Removes opts env dst s.turn) := by
  have hsame : ¬Made opts env s.turn → some s = some checked →
      checked.content = s.content ∧ checked.offset = s.offset ∧ checked.turn = s.turn ∧
        checked.checkpointCount = (List.range (s.turn + 1)).countP (Made opts env) ∧
        (checked.present = true ↔ s.present = true ∧ ¬Removes opts env dst s.turn) := by
    intro hnot heq
    obtain rfl := Option.some.inj heq
    rw [countP_made, if_neg hnot]
    exact ⟨rfl, rfl, rfl, hcount, (and_iff_left fun hr => hnot hr.1).symm⟩
  rw [checkpoint] at h
  cases hinterval : opts.checkpointInterval with
  | none =>
    rw [hinterval] at h
    refine hsame ?_ h
    rintro ⟨⟨interval, hsome, -⟩, -⟩
    rw [hinterval] at hsome
    cases hsome
  | some interval =>
    rw [hinterval] at h
    dsimp only at h
    by_cases hearly : (env.turns s.turn).elapsed < interval
    · rw [if_pos hearly] at h
      refine hsame ?_ h
      rintro ⟨⟨interval', hsome, hle⟩, -⟩
      obtain rfl := Option.some.inj (hinterval.symm.trans hsome)
      omega
    rw [if_neg hearly] at h
    cases hsync : (env.turns s.turn).synced with
    | false => simp [hsync] at h
    | true =>
      cases hclone : (env.turns s.turn).cloned with
      | false =>
        simp only [hsync, hclone, Bool.not_true, Bool.not_false, Bool.false_eq_true, if_true,
          if_false] at h
        refine hsame (fun hm => ?_) h
        rw [hm.2.2] at hclone
        cases hclone
      | true =>
        have hmade : Made opts env s.turn := ⟨⟨interval, hinterval, by omega⟩, hsync, hclone⟩
        have hnext := @countP_made opts env s.turn
        rw [if_pos hmade, ← hcount] at hnext
        simp only [hsync, hclone, Bool.not_true, Bool.false_eq_true, if_false] at h
        rw [hnext]
        by_cases hkeep : s.checkpointCount + 1 ≤ opts.checkpointKeep
        · rw [if_pos hkeep] at h
          obtain rfl := Option.some.inj h
          refine ⟨rfl, rfl, rfl, rfl, (and_iff_left fun hr => ?_).symm⟩
          have hmany := hr.2.1
          omega
        · rw [if_neg hkeep] at h
          obtain rfl := Option.some.inj h
          refine ⟨rfl, rfl, rfl, rfl, (removed_iff _ _ _).trans ?_⟩
          rw [Removes, hnext]
          simp [hmade, Nat.lt_of_not_le hkeep]

theorem copyLoop_cases {source : Reads.Source (Fin 256)} {s s' : Stream}
    (h : copyLoop opts env dst source s = some s') :
    ∃ filled rest, Reads.fill stdinChunkSize source.data source.turns = some (filled, rest) ∧
      (filled = [] ∧ s' = s ∨ filled ≠ [] ∧ ∃ written checked,
        writeChunk opts env dst filled s = some written ∧
        checkpoint opts env dst written = some checked ∧
        copyLoop opts env dst rest { checked with turn := checked.turn + 1 } = some s') := by
  rw [copyLoop] at h
  split at h
  · cases h
  next filled rest hfill =>
    refine ⟨filled, rest, hfill, ?_⟩
    split_ifs at h with hfilled
    · exact .inl ⟨hfilled, (Option.some.inj h).symm⟩
    · refine .inr ⟨hfilled, ?_⟩
      dsimp only at h
      split at h
      · cases h
      next checked hchecked =>
        obtain ⟨written, hwritten, hcheck⟩ := Option.bind_eq_some_iff.mp hchecked
        exact ⟨written, checked, hwritten, hcheck, h⟩

theorem copyLoop_end {source rest : Reads.Source (Fin 256)} (s : Stream)
    (hfill : Reads.fill stdinChunkSize source.data source.turns = some ([], rest)) :
    copyLoop opts env dst source s = some s := by
  rw [copyLoop]
  split
  next hnone =>
    rw [hfill] at hnone
    cases hnone
  next filled rest' hsome =>
    rw [hfill] at hsome
    cases hsome
    exact dif_pos rfl

theorem copyLoop_turn {source rest : Reads.Source (Fin 256)} {filled : Bytes}
    {s written checked : Stream}
    (hfill : Reads.fill stdinChunkSize source.data source.turns = some (filled, rest))
    (hfilled : filled ≠ []) (hwritten : writeChunk opts env dst filled s = some written)
    (hchecked : checkpoint opts env dst written = some checked) :
    copyLoop opts env dst source s =
      copyLoop opts env dst rest { checked with turn := checked.turn + 1 } := by
  rw [copyLoop]
  split
  next hnone =>
    rw [hfill] at hnone
    cases hnone
  next filled' rest' hsome =>
    rw [hfill] at hsome
    cases hsome
    rw [dif_neg hfilled, hwritten, Option.bind_some, hchecked]

/-! ## The loop -/

theorem stdinChunkSize_pos : 0 < stdinChunkSize := by decide

/-- All bytes of a chunk are passed over, or none. -/
theorem skipped_iff {data : Bytes} {k i : ℕ} (hfrom : k * stdinChunkSize ≤ i)
    (hto : i < (k + 1) * stdinChunkSize) (hi : i < data.length) :
    Skipped opts data i ↔
      opts.zeroCopy = false ∧ ∀ b ∈ Chunks.chunk stdinChunkSize data k, b = 0 := by
  have hdiv : i / stdinChunkSize = k := Nat.div_eq_of_lt_le hfrom hto
  simp [Skipped, hdiv, hi]

theorem Written.skip {data content : Bytes} {offset n : ℕ}
    (h : Written opts env dst data content offset) (hn : 0 < n)
    (hskipped : ∀ i, offset ≤ i → i < offset + n → Skipped opts data i) :
    Written opts env dst data content (offset + n) where
  bytes := by
    intro i
    rw [h.bytes]
    by_cases hi : i < offset
    · simp [hi, Nat.lt_add_right n hi]
    · by_cases hchunk : i < offset + n
      · simp [hi, hskipped i (Nat.le_of_not_lt hi) hchunk]
      · simp [hi, hchunk]
  opened_le := h.opened_le
  length_le := by
    have hle := h.length_le
    omega
  full := by
    intro _
    have hlast := hskipped (offset + n - 1) (by omega) (by omega)
    have hle := h.length_le
    have hopened := h.opened_le
    simp only [hlast, not_true_eq_false, or_false]
    omega
  device := h.device

theorem Written.write {data content filled : Bytes} {offset : ℕ}
    (h : Written opts env dst data content offset)
    (hfilled : filled ≠ []) (hdata : ∀ i < filled.length, filled[i]? = data[offset + i]?)
    (hkept : ∀ i, offset ≤ i → i < offset + filled.length → ¬Skipped opts data i)
    (hdevice : dst.isBlockDevice = true →
      (Chunks.write offset filled content).length = content.length) :
    Written opts env dst data (Chunks.write offset filled content)
      (offset + filled.length) where
  bytes := by
    intro i
    rw [Chunks.getD_write, h.bytes]
    by_cases hchunk : offset ≤ i ∧ i < offset + filled.length
    · rw [if_pos hchunk, if_pos ⟨hchunk.2, hkept i hchunk.1 hchunk.2⟩,
        hdata (i - offset) (by omega), Nat.add_sub_cancel' hchunk.1]
    · rw [if_neg hchunk]
      have hsame : i < offset + filled.length ↔ i < offset := by omega
      simp only [hsame]
  opened_le := h.opened_le.trans (Chunks.le_length_write _ _ _)
  length_le := by
    have hle := h.length_le
    rw [Chunks.length_write _ _ _ hfilled]
    omega
  full := by
    intro _
    have hpos := List.length_pos_iff.mpr hfilled
    have hlast := hkept (offset + filled.length - 1) (by omega) (by omega)
    have hle := h.length_le
    have hopened := h.opened_le
    simp only [hlast, not_false_eq_true, or_true, iff_true]
    rw [Chunks.length_write _ _ _ hfilled]
    omega
  device := fun hd => (hdevice hd).trans (h.device hd)

/-- One turn of the loop. -/
theorem Streamed.turnStep {data filled : Bytes} {source rest : Reads.Source (Fin 256)}
    {s written checked : Stream} (h : Streamed opts env dst data source s)
    (hfill : Reads.fill stdinChunkSize source.data source.turns = some (filled, rest))
    (hfilled : filled ≠ []) (hwritten : writeChunk opts env dst filled s = some written)
    (hchecked : checkpoint opts env dst written = some checked) :
    Streamed opts env dst data rest { checked with turn := checked.turn + 1 } := by
  have hC := stdinChunkSize_pos
  obtain ⟨htake, hdrop⟩ := Reads.fills_fill hfill
  dsimp only at htake hdrop
  rw [h.rest] at htake hdrop
  have hlength : filled.length = min stdinChunkSize (data.length - s.offset) := by
    rw [htake, List.length_take, List.length_drop]
  have hpos := List.length_pos_iff.mpr hfilled
  have hoffset := h.offset
  have haligned : s.offset = s.turn * stdinChunkSize := by omega
  have hchunk : filled = Chunks.chunk stdinChunkSize data s.turn := by
    rw [htake, Chunks.chunk, haligned]
  have hsucc : (s.turn + 1) * stdinChunkSize = s.turn * stdinChunkSize + stdinChunkSize :=
    Nat.succ_mul ..
  have hskipped : ∀ i, s.offset ≤ i → i < s.offset + filled.length →
      (Skipped opts data i ↔ opts.zeroCopy = false ∧ ∀ b ∈ filled, b = 0) := by
    intro i hfrom hto
    rw [hchunk]
    exact skipped_iff (by omega) (by omega) (by omega)
  obtain ⟨content, rfl, hcontent⟩ := writeChunk_eq hwritten
  have hcount : s.checkpointCount = (List.range s.turn).countP (Made opts env) := h.checkpoints
  obtain ⟨hsameContent, hsameOffset, hsameTurn, hmade, hpresent⟩ := checkpoint_eq hchecked hcount
  dsimp only at hsameContent hsameOffset hsameTurn hmade hpresent
  have hnext : Written opts env dst data content (s.offset + filled.length) := by
    obtain ⟨hzero, hall, rfl⟩ | ⟨hnot, rfl, hdevice⟩ := hcontent
    · exact h.written.skip hpos fun i hfrom hto => (hskipped i hfrom hto).mpr ⟨hzero, hall⟩
    · refine h.written.write hfilled (fun i hi => ?_) (fun i hfrom hto hs => ?_) hdevice
      · rw [htake, List.getElem?_take_of_lt (by omega), List.getElem?_drop]
      · exact hnot ((hskipped i hfrom hto).mp hs)
  constructor
  · dsimp only
    rw [hsameOffset, hdrop, List.drop_drop]
    by_cases hwhole : filled.length = stdinChunkSize
    · rw [hwhole]
    · rw [List.drop_eq_nil_of_le (by omega), List.drop_eq_nil_of_le (by omega)]
  · dsimp only
    have hle : s.offset ≤ data.length := by omega
    rw [hsameOffset, hsameTurn, hsucc, ← haligned, hlength, ← Nat.add_min_add_left,
      Nat.add_sub_cancel' hle]
  · dsimp only
    rw [hsameTurn]
    exact (Chunks.lt_count hC).mpr (by omega)
  · dsimp only
    rw [hsameContent, hsameOffset]
    exact hnext
  · dsimp only
    rw [hsameTurn]
    exact hmade
  · dsimp only
    rw [hsameTurn, hpresent, h.present]
    exact Nat.forall_lt_succ_right.symm

/-- When the loop ends, all of the data has been looked at. -/
theorem streamed_copyLoop {data : Bytes} {source : Reads.Source (Fin 256)} {s s' : Stream}
    (h : Streamed opts env dst data source s)
    (hloop : copyLoop opts env dst source s = some s') :
    s'.turn = Chunks.count stdinChunkSize data.length ∧ s'.offset = data.length ∧
      Written opts env dst data s'.content data.length ∧
      (s'.present = true ↔
        ∀ k < Chunks.count stdinChunkSize data.length, ¬Removes opts env dst k) := by
  induction hn : source.data.length using Nat.strong_induction_on generalizing source s with
  | h n ih =>
    obtain ⟨filled, rest, hfill, ⟨rfl, rfl⟩ | ⟨hfilled, written, checked, hwritten, hchecked,
      hrest⟩⟩ := copyLoop_cases hloop
    · have htake := (Reads.fills_fill hfill).1
      have hoffset := h.offset
      have hturn := h.turn
      have hC := stdinChunkSize_pos
      have hnone := congrArg List.length htake
      dsimp only at hnone
      rw [h.rest, List.length_take, List.length_drop, List.length_nil] at hnone
      have hend : s'.offset = data.length := by omega
      have hcount : s'.turn = Chunks.count stdinChunkSize data.length := by
        have hlast : ¬s'.turn < Chunks.count stdinChunkSize data.length := by
          rw [Chunks.lt_count hC]
          omega
        omega
      refine ⟨hcount, hend, hend ▸ h.written, ?_⟩
      rw [h.present, hcount]
    · have hshorter := Reads.length_rest_lt hfill hfilled
      exact ih _ (hn ▸ hshorter) (h.turnStep hfill hfilled hwritten hchecked) hrest rfl

theorem streamed_start (data : Bytes) (turns : List Reads.Turn) :
    Streamed opts env dst data ⟨data, turns⟩ ⟨opened opts env dst, 0, 0, 0, true⟩ where
  rest := rfl
  offset := by simp
  turn := Nat.zero_le _
  written := by
    refine ⟨fun i => ?_, le_rfl, le_max_left _ _, fun h => absurd h (Nat.lt_irrefl 0), fun _ => rfl⟩
    rw [if_neg fun h => Nat.not_lt_zero i h.1]
  checkpoints := rfl
  present := by simp

/-! ## Files and devices -/

/-- A byte that is passed over is zero. -/
theorem Skipped.getElem? {data : Bytes} {i : ℕ} (h : Skipped opts data i) : data[i]? = some 0 := by
  obtain ⟨-, hi, hall⟩ := h
  have hmem : data[i] ∈ Chunks.chunk stdinChunkSize data (i / stdinChunkSize) := by
    refine List.mem_of_getElem? (i := i % stdinChunkSize) ?_
    rw [Chunks.getElem?_chunk stdinChunkSize_pos, List.getElem?_eq_getElem hi]
  rw [List.getElem?_eq_getElem hi, hall _ hmem]

/-- A file that has been opened reads as zeros. -/
theorem opened_file (hfile : dst.isBlockDevice = false) (i : ℕ) :
    (opened opts env dst)[i]?.getD 0 = 0 := by
  rw [opened, hfile]
  cases opts.size with
  | none => rfl
  | some size =>
    cases env.allocated with
    | false => rfl
    | true =>
      dsimp only
      rw [if_neg Bool.false_ne_true, List.getElem?_replicate]
      split_ifs <;> rfl

/-- In a file all of the data can be read, and zeros behind it. -/
theorem Written.file_bytes {data content : Bytes} (hfile : dst.isBlockDevice = false)
    (h : Written opts env dst data content data.length) (i : ℕ) :
    content[i]?.getD 0 = data[i]?.getD 0 := by
  rw [h.bytes, opened_file hfile]
  split_ifs with hkept
  · rfl
  · by_cases hi : i < data.length
    · have hskipped : Skipped opts data i := by
        by_contra hnot
        exact hkept ⟨hi, hnot⟩
      rw [hskipped.getElem?]
      rfl
    · rw [List.getElem?_eq_none (Nat.le_of_not_lt hi)]
      rfl

/-- A file that is cut to the length of the data is the data. -/
theorem Written.ftruncate {data content : Bytes} (hfile : dst.isBlockDevice = false)
    (h : Written opts env dst data content data.length) :
    ftruncate data.length content = data := by
  have hlength : (StdinToFile.ftruncate data.length content).length = data.length := by
    rw [StdinToFile.ftruncate, List.length_append, List.length_take, List.length_replicate]
    omega
  refine Chunks.eq_of_getD hlength fun i => ?_
  by_cases hi : i < data.length
  · rw [← h.file_bytes hfile, StdinToFile.ftruncate]
    by_cases hcontent : i < content.length
    · rw [List.getElem?_append_left (by rw [List.length_take]; omega),
        List.getElem?_take_of_lt hi]
    · rw [List.getElem?_append_right (by rw [List.length_take]; omega),
        List.getElem?_replicate, List.getElem?_eq_none (Nat.le_of_not_lt hcontent)]
      split_ifs <;> rfl
  · rw [List.getElem?_eq_none (by omega), List.getElem?_eq_none (Nat.le_of_not_lt hi)]

/-- The length of a file that is not cut off. -/
theorem Written.file_length {data content : Bytes}
    (h : Written opts env dst data content data.length) :
    content.length = data.length ↔ (opened opts env dst).length ≤ data.length ∧
      ((opened opts env dst).length = data.length ∨ ¬Skipped opts data (data.length - 1)) := by
  have hle := h.length_le
  have hopened := h.opened_le
  by_cases hempty : data.length = 0
  · omega
  · have hfull := h.full (Nat.pos_of_ne_zero hempty)
    by_cases hlast : Skipped opts data (data.length - 1)
    · simp only [hlast, not_true_eq_false, or_false] at hfull ⊢
      omega
    · simp only [hlast, not_false_eq_true, or_true, iff_true, and_true] at hfull ⊢
      omega

theorem Written.file_take {data content : Bytes} (hfile : dst.isBlockDevice = false)
    (h : Written opts env dst data content data.length) (hlength : content.length = data.length) :
    content.take data.length = data := by
  rw [← hlength, List.take_length]
  exact Chunks.eq_of_getD hlength (h.file_bytes hfile)

/-- A device has the data if there are zeros where chunks were passed over. -/
theorem Written.device_take {data content : Bytes} (hdevice : dst.isBlockDevice = true)
    (h : Written opts env dst data content data.length) :
    content.take data.length = data ↔ ∀ i, Skipped opts data i → dst.content[i]? = some 0 := by
  have hopened : opened opts env dst = dst.content := if_pos hdevice
  have hsize := h.device hdevice
  have hbytes := h.bytes
  rw [hopened] at hsize hbytes
  constructor
  · intro htake i hskipped
    have hi := hskipped.2.1
    have hlength := congrArg List.length htake
    rw [List.length_take] at hlength
    have hzero : content[i]?.getD 0 = 0 := by
      rw [← List.getElem?_take_of_lt hi, htake, hskipped.getElem?]
      rfl
    rw [hbytes, if_neg fun hkept => hkept.2 hskipped] at hzero
    rw [List.getElem?_eq_getElem (by omega)] at hzero ⊢
    exact congrArg some hzero
  · intro hzeros
    have hle : data.length ≤ content.length := by
      by_cases hempty : data.length = 0
      · omega
      · have hfull := h.full (Nat.pos_of_ne_zero hempty)
        rw [hopened] at hfull
        by_cases hlast : Skipped opts data (data.length - 1)
        · have hin := (List.getElem?_eq_some_iff.mp (hzeros _ hlast)).1
          omega
        · have hmax := hfull.mpr (.inr hlast)
          omega
    refine Chunks.eq_of_getD (by rw [List.length_take]; omega) fun i => ?_
    by_cases hi : i < data.length
    · rw [List.getElem?_take_of_lt hi, hbytes]
      by_cases hskipped : Skipped opts data i
      · rw [if_neg fun hkept => hkept.2 hskipped, hzeros i hskipped, hskipped.getElem?]
      · rw [if_pos ⟨hi, hskipped⟩]
    · rw [List.getElem?_eq_none (by rw [List.length_take]; omega),
        List.getElem?_eq_none (Nat.le_of_not_lt hi)]

/-- A copy that returns without an error is exact if and only if it is intact. -/
theorem copyStream_exact_iff {data : Bytes} {turns : List Reads.Turn} {s : Stream}
    (h : copyStream opts env dst data turns = some s) :
    Exact dst data s ↔ Intact opts env dst data := by
  rw [copyStream] at h
  split at h
  · cases h
  next streamed hloop =>
    obtain ⟨-, hoffset, hwritten, hpresent⟩ := streamed_copyLoop (streamed_start data turns) hloop
    cases hsynced : env.synced with
    | false => simp [hsynced] at h
    | true =>
      cases hdevice : dst.isBlockDevice with
      | true =>
        simp only [hsynced, hdevice, Bool.not_true, Bool.false_eq_true, if_false, Bool.true_or,
          if_true] at h
        obtain rfl := Option.some.inj h
        have htake := hwritten.device_take hdevice
        constructor
        · intro hexact
          exact ⟨fun _ => htake.mp hexact.content, by simp [hdevice], hpresent.mp hexact.present⟩
        · intro hintact
          exact ⟨hpresent.mpr hintact.kept, htake.mpr (hintact.zeros hdevice), by simp [hdevice]⟩
      | false =>
        cases htruncated : env.truncated with
        | true =>
          simp only [hsynced, hdevice, htruncated, Bool.not_true, Bool.false_eq_true, if_false,
            Bool.or_false] at h
          obtain rfl := Option.some.inj h
          have hdata := hwritten.ftruncate hdevice
          constructor
          · intro hexact
            exact ⟨by simp [hdevice], fun _ => .inl htruncated, hpresent.mp hexact.present⟩
          · intro hintact
            refine ⟨hpresent.mpr hintact.kept, ?_, fun _ => ?_⟩
            · dsimp only
              rw [hoffset, hdata, List.take_length]
            · dsimp only
              rw [hoffset, hdata]
        | false =>
          simp only [hsynced, hdevice, htruncated, Bool.not_true, Bool.not_false,
            Bool.false_eq_true, if_false, Bool.or_true, if_true] at h
          obtain rfl := Option.some.inj h
          have hlength := hwritten.file_length
          constructor
          · intro hexact
            exact ⟨by simp [hdevice], fun _ => .inr (hlength.mp (hexact.length hdevice)),
              hpresent.mp hexact.present⟩
          · intro hintact
            have hsize := hlength.mpr ((hintact.length hdevice).resolve_left (by simp [htruncated]))
            exact ⟨hpresent.mpr hintact.kept, hwritten.file_take hdevice hsize, fun _ => hsize⟩

/-- However the first bytes are read, the reader has all of the input. -/
theorem openStdin_eq {raw : Bytes} {turns : List Reads.Turn} {reader : StdinReader}
    (h : openStdin raw turns = some reader) :
    reader = ⟨detectCompression (raw.take 6), raw⟩ := by
  obtain ⟨⟨header, rest⟩, hfill, rfl⟩ := Option.map_eq_some_iff.mp h
  obtain ⟨hheader, hrest⟩ := Reads.fills_fill hfill
  dsimp only at hheader hrest ⊢
  rw [hheader, hrest, List.take_append_drop]

end

/-- What the input is when it has been decompressed by the decoder that is chosen for it. -/
def decompressed (decode : Compression → Bytes → Bytes) (raw : Bytes) : Bytes :=
  delivered decode ⟨detectCompression (raw.take 6), raw⟩

/-- For every destination, all reads, writes and checkpoints, and each setting: a copy that returns
without an error has left the decompressed input if and only if it is intact. -/
theorem runStdinToFile_exact_iff {decode : Compression → Bytes → Bytes}
    {stdin : Reads.Source (Fin 256)} {turns : List Reads.Turn} {s : Stream}
    (h : runStdinToFile opts env dst decode stdin turns = some s) :
    Exact dst (decompressed decode stdin.data) s ↔
      Intact opts env dst (decompressed decode stdin.data) := by
  obtain ⟨reader, hreader, hcopy⟩ := Option.bind_eq_some_iff.mp h
  rw [openStdin_eq hreader] at hcopy
  exact copyStream_exact_iff hcopy

/-! ## A chunk of zeros on a device -/

/-- A copy in which nothing fails and no checkpoints are made. -/
def plainEnv : Env where
  lanes := []
  allocated := false
  turns := fun _ => ⟨[], 0, true, false, none, false⟩
  truncated := true
  synced := true

def plainOptions : StdinOptions := ⟨false, none, none, 5⟩

/-- A zero is passed over: on a device the old bytes stay, and a file gets it when it is cut off. -/
theorem plain_run (dst : Destination) (decode : Compression → Bytes → Bytes) :
    runStdinToFile plainOptions plainEnv dst decode ⟨[0], []⟩ [] =
      some ⟨if dst.isBlockDevice then dst.content else [0], 1, 1, 0, true⟩ := by
  have hroom : [(0 : Fin 256)].length ≤ stdinChunkSize := stdinChunkSize_pos
  have hfill : Reads.fill stdinChunkSize ([0] : Bytes) [] = some ([0], ⟨[], []⟩) := by
    rw [Reads.fill, List.take_of_length_le hroom, List.drop_eq_nil_of_le hroom]
  have hend : Reads.fill stdinChunkSize ([] : Bytes) [] = some ([], ⟨[], []⟩) := by
    rw [Reads.fill, List.take_nil, List.drop_nil]
  have hloop : ∀ content : Bytes, copyLoop plainOptions plainEnv dst ⟨[0], []⟩
      ⟨content, 0, 0, 0, true⟩ = some ⟨content, 1, 1, 0, true⟩ := by
    intro content
    have hwritten : writeChunk plainOptions plainEnv dst [0] ⟨content, 0, 0, 0, true⟩ =
        some ⟨content, 1, 0, 0, true⟩ := rfl
    have hchecked : checkpoint plainOptions plainEnv dst ⟨content, 1, 0, 0, true⟩ =
        some ⟨content, 1, 0, 0, true⟩ := rfl
    rw [copyLoop_turn hfill (List.cons_ne_nil _ _) hwritten hchecked]
    exact copyLoop_end _ hend
  have hopen : openStdin [0] [] = some ⟨none, [0]⟩ := by decide +kernel
  rw [runStdinToFile, hopen, Option.bind_some]
  show copyStream plainOptions plainEnv dst [0] [] = _
  rw [copyStream, hloop, opened]
  cases dst.isBlockDevice <;> rfl

/-- A file with a byte in it. -/
def usedFile : Destination := ⟨"disk.img", false, [7]⟩

/-- The zero is all that is in the file afterwards. -/
theorem usedFile_exact :
    Exact usedFile (decompressed (fun _ b => b) [0]) ⟨[0], 1, 1, 0, true⟩ := by
  have hrun : runStdinToFile plainOptions plainEnv usedFile (fun _ b => b) ⟨[0], []⟩ [] =
      some ⟨[0], 1, 1, 0, true⟩ := plain_run usedFile _
  have hintact : Intact plainOptions plainEnv usedFile (decompressed (fun _ b => b) [0]) := by
    refine ⟨fun hdevice => Bool.noConfusion hdevice, fun _ => .inl rfl, fun k _ hremoves => ?_⟩
    obtain ⟨⟨⟨interval, hsome, -⟩, -⟩, -⟩ := hremoves
    cases hsome
  exact (runStdinToFile_exact_iff plainOptions plainEnv usedFile hrun).mpr hintact

/-- A device of one sector. -/
def usedDevice : Destination := ⟨"sdb", true, 7 :: List.replicate 511 0⟩

/-- The zero is passed over, and the byte stays on the device. -/
theorem usedDevice_keeps :
    ¬∀ (opts : StdinOptions) (env : Env) (dst : Destination) (decode : Compression → Bytes → Bytes)
      (stdin : Reads.Source (Fin 256)) (turns : List Reads.Turn) (s : Stream),
      runStdinToFile opts env dst decode stdin turns = some s →
        Exact dst (decompressed decode stdin.data) s := by
  intro hall
  have hexact := hall plainOptions plainEnv usedDevice (fun _ b => b) ⟨[0], []⟩ []
    ⟨usedDevice.content, 1, 1, 0, true⟩ (plain_run usedDevice _)
  cases hexact.content

end Foxing.StdinToFile
