import Foxing.Lib.Chunks
import Foxing.NfsResults

/-!
# Files written in one request

A file is opened, written and closed in one request. The server opens a file that is there as it
is, unless a size is among its attributes, and it may write fewer bytes than it was given. It
refuses the attributes of the file: the time among them has the number of one that can only be
read. So the client is told of an error whatever has been written, unless it takes the reply to an
earlier request, which has come too late for that one, for its own.

A server is given by what it decides about each request. In every case it executes the operations
in order up to the first one that fails, which does nothing.
-/
namespace Foxing.Nfs
open Failing Xdr

/-! ## A server -/

def opCode : Nfs4Op → ℕ
  | .sequence .. => opSequence
  | .putFh .. => opPutFh
  | .putRootFh => opPutRootFh
  | .lookup .. => opLookup
  | .open_ .. => opOpen
  | .write .. => opWrite
  | .setAttr .. => opSetAttr
  | .close .. => opClose
  | .getAttr .. => opGetAttr
  | .getFh => opGetFh
  | .reclaimComplete => opReclaimComplete

def nfs4ErrInval : ℕ := 22

/-- The attributes that can only be read. -/
def getOnlyAttributes : List ℕ :=
  [0, 1, 2, 3, 5, 6, 7, 8, 9, 10, 11, 13, 15, 16, 17, 18, 19, 20, 21, 22, 23, 24, 26, 27, 28, 29,
    30, 31, 34, 35, 38, 39, 40, 41, 42, 43, 44, 45, 47, 51, 52, 53, 55]

/-- The two words of the attributes that an operation sets. -/
def attrWords : Nfs4Op → ℕ × ℕ
  | .open_ .. => openBitmap
  | .setAttr _ mode uid gid mtime =>
    (0, bitIf mode.isSome fattr4ModeBit + bitIf uid.isSome fattr4OwnerBit +
      bitIf gid.isSome fattr4OwnerGroupBit + bitIf mtime.isSome fattr4TimeModifySetBit)
  | _ => (0, 0)

/-- Does an operation set an attribute that can only be read? -/
def setsGetOnly (op : Nfs4Op) : Bool :=
  getOnlyAttributes.any fun number =>
    if number < 32 then (attrWords op).1.testBit number
    else (attrWords op).2.testBit (number - 32)

/-- What a server decides about a request that writes a file. -/
structure Decision where
  /-- How many operations succeed, and the status of the one that does not, unless one before it
  sets an attribute that can only be read. -/
  succeeded : ℕ
  status : ℕ
  /-- How many bytes are written at most. -/
  count : ℕ
  /-- The parts of the results. -/
  sequence : Bytes
  opened : StateId
  openInfo : Bytes
  committed : ℕ
  verifier : Bytes
  attrsSet : Bytes
  closed : Bytes
  failure : Bytes
  /-- The parts of the reply around them. -/
  flavor : ℕ
  verf : Bytes
  tag : Bytes
  error : status ≠ nfs4Ok ∧ status < 2 ^ 32
  widths : sequence.length = 36 ∧ opened.other.length = 12
  short : verf.length < 2 ^ 32 ∧ tag.length < 2 ^ 32

namespace Decision
variable (d : Decision)

/-- What follows the status of an operation that has succeeded. -/
def body : Nfs4Op → Bytes
  | .sequence .. => d.sequence
  | .open_ .. => encodeStateId d.opened ++ d.openInfo
  | .write _ _ _ data => encodeU32 (min d.count data.length) ++ encodeU32 d.committed ++ d.verifier
  | .setAttr .. => encodeU32 (d.attrsSet.length / 4) ++ d.attrsSet
  | .close .. => d.closed
  | _ => []

/-- How many operations are executed. -/
def done (ops : List Nfs4Op) : ℕ := min d.succeeded (ops.findIdx setsGetOnly)

/-- The status of the operation that is not. -/
def failedStatus (ops : List Nfs4Op) : ℕ :=
  if d.succeeded ≤ ops.findIdx setsGetOnly then d.status else nfs4ErrInval

def results (ops : List Nfs4Op) : List Bytes :=
  (ops.take (d.done ops)).map (fun op => encodeResult (opCode op) nfs4Ok (d.body op)) ++
    ((ops[d.done ops]?).map fun op =>
      encodeResult (opCode op) (d.failedStatus ops) d.failure).toList

/-- The status of a reply is that of the last operation. -/
def replyStatus (ops : List Nfs4Op) : ℕ :=
  if ops.length ≤ d.done ops then nfs4Ok else d.failedStatus ops

def reply (ops : List Nfs4Op) : Bytes :=
  encodeReply d.flavor d.verf (d.replyStatus ops) d.tag (d.results ops)

end Decision

/-- What an operation does to the file with the name, which may not be there. -/
def serverOp (count : ℕ) (content : Option Bytes) : Nfs4Op → Option Bytes
  | .open_ .. => some (if openBitmap.1.testBit fattr4SizeBit then [] else content.getD [])
  | .write _ offset _ data => content.map (Chunks.write offset (data.take count))
  | _ => content

def Decision.execute (d : Decision) (ops : List Nfs4Op) (content : Option Bytes) : Option Bytes :=
  (ops.take (d.done ops)).foldl (serverOp d.count) content

/-! ## What is executed -/

theorem setsGetOnly_of_none {op : Nfs4Op} (h : attrWords op = (0, 0)) :
    setsGetOnly op = false := by
  unfold setsGetOnly
  rw [h]
  decide

theorem setsGetOnly_open (seqid shareAccess shareDeny clientid : ℕ) (owner filename : Bytes)
    (mode : ℕ) :
    setsGetOnly (.open_ seqid shareAccess shareDeny clientid owner filename mode) = false := by
  show (getOnlyAttributes.any fun number => if number < 32 then openBitmap.1.testBit number
    else openBitmap.2.testBit (number - 32)) = false
  decide

/-- A time is among the attributes under the number of one that can only be read. -/
theorem setsGetOnly_setAttr (stateid : StateId) (mode uid gid : Option ℕ) (mtime : ℤ × ℤ) :
    setsGetOnly (.setAttr stateid mode uid gid (some mtime)) = true := by
  have hbits : ∀ hasMode hasUid hasGid : Bool,
      (getOnlyAttributes.any fun number => if number < 32 then (0 : ℕ).testBit number
        else (bitIf hasMode fattr4ModeBit + bitIf hasUid fattr4OwnerBit +
          bitIf hasGid fattr4OwnerGroupBit + bitIf true fattr4TimeModifySetBit).testBit
            (number - 32)) = true := by decide
  exact hbits mode.isSome uid.isSome gid.isSome

/-- The attributes are refused. -/
theorem findIdx_writeOps (c : Client) (seqId : ℕ) (w : WriteArgs) :
    (writeOps c seqId w).findIdx setsGetOnly = 4 := by
  rw [writeOps, List.findIdx_cons, sequenceOp, setsGetOnly_of_none rfl, List.findIdx_cons,
    setsGetOnly_of_none rfl, List.findIdx_cons, setsGetOnly_open, List.findIdx_cons,
    setsGetOnly_of_none rfl, List.findIdx_cons, setsGetOnly_setAttr]
  rfl

theorem Decision.done_writeOps (d : Decision) (c : Client) (seqId : ℕ) (w : WriteArgs) :
    d.done (writeOps c seqId w) = min d.succeeded 4 := by
  rw [Decision.done, findIdx_writeOps]

theorem Decision.failedStatus_writeOps (d : Decision) (c : Client) (seqId : ℕ) (w : WriteArgs) :
    d.failedStatus (writeOps c seqId w) ≠ nfs4Ok ∧
      d.failedStatus (writeOps c seqId w) < 2 ^ 32 := by
  unfold Decision.failedStatus
  split_ifs
  · exact d.error
  · decide

/-- So no request is answered without an error. -/
theorem Decision.replyStatus_writeOps (d : Decision) (c : Client) (seqId : ℕ) (w : WriteArgs) :
    d.replyStatus (writeOps c seqId w) = d.failedStatus (writeOps c seqId w) := by
  rw [Decision.replyStatus, if_neg]
  rw [d.done_writeOps, not_le]
  exact lt_of_le_of_lt (min_le_right _ _) (by show 4 < 6; decide)

/-! ## What is in the file -/

/-- The number of bytes that a request has written. -/
def Decision.written (d : Decision) (data : Bytes) : ℕ :=
  if 4 ≤ d.succeeded then min d.count data.length else 0

/-- The largest number of bytes that one of the first requests has written. -/
def mostWritten (ds : ℕ → Decision) (data : Bytes) : ℕ → ℕ
  | 0 => 0
  | n + 1 => max (mostWritten ds data n) ((ds n).written data)

theorem write_zero (bs old : Bytes) : Chunks.write 0 bs old = bs ++ old.drop bs.length := by
  unfold Chunks.write
  split_ifs with hbs
  · simp [hbs]
  · simp

theorem mostWritten_le (ds : ℕ → Decision) (data : Bytes) (n : ℕ) :
    mostWritten ds data n ≤ data.length := by
  induction n with
  | zero => exact Nat.zero_le _
  | succ n ih =>
    refine max_le ih ?_
    unfold Decision.written
    split_ifs
    · exact min_le_right _ _
    · exact Nat.zero_le _

/-- What one request leaves in the file: the bytes it has written and the others as they were. -/
theorem execute_writeOps (d : Decision) (c : Client) (seqId : ℕ) (w : WriteArgs)
    (content : Option Bytes) :
    (d.execute (writeOps c seqId w) content).getD [] =
      w.data.take (d.written w.data) ++ (content.getD []).drop (d.written w.data) := by
  have hkeep : openBitmap.1.testBit fattr4SizeBit = false := by decide
  unfold Decision.execute Decision.written
  rw [d.done_writeOps]
  unfold writeOps
  rcases d.succeeded with _ | _ | _ | _ | n
  · simp
  · simp [serverOp, sequenceOp]
  · simp [serverOp, sequenceOp]
  · simp [serverOp, sequenceOp, hkeep]
  · rw [min_eq_right (by omega)]
    simp only [List.take_succ_cons, List.take_zero, List.foldl_cons, List.foldl_nil, serverOp,
      sequenceOp, hkeep]
    rw [if_neg Bool.false_ne_true, if_pos (by omega), Option.map_some, Option.getD_some, write_zero,
      List.length_take]
    congr 1
    rw [List.take_eq_take_iff]
    simp

/-- A file is there after a request if it was there before or has been opened. -/
theorem isSome_execute (d : Decision) (c : Client) (seqId : ℕ) (w : WriteArgs)
    (content : Option Bytes) :
    (d.execute (writeOps c seqId w) content).isSome = true ↔
      content.isSome = true ∨ 3 ≤ d.succeeded := by
  unfold Decision.execute
  rw [d.done_writeOps]
  unfold writeOps
  rcases d.succeeded with _ | _ | _ | _ | n
  · simp
  · simp [serverOp, sequenceOp]
  · simp [serverOp, sequenceOp]
  · simp [serverOp, sequenceOp]
  · rw [min_eq_right (by omega)]
    simp [serverOp, sequenceOp]

/-- The file with the name after the first requests. -/
def serverFile (c : Client) (w : WriteArgs) (ds : ℕ → Decision) (old : Option Bytes) :
    ℕ → Option Bytes
  | 0 => old
  | n + 1 => (ds n).execute (writeOps c ((c.sequenceId + n) % 2 ^ 32) w)
      (serverFile c w ds old n)

/-- A prefix written over a prefix. -/
theorem take_append_drop_max (data old : Bytes) {k m : ℕ} (hm : m ≤ data.length) :
    data.take k ++ (data.take m ++ old.drop m).drop k =
      data.take (max m k) ++ old.drop (max m k) := by
  rcases le_total k m with hle | hle
  · rw [max_eq_left hle, List.drop_append, List.length_take, min_eq_left hm,
      Nat.sub_eq_zero_of_le hle, List.drop_zero, ← List.append_assoc]
    congr 1
    rw [List.drop_take, ← List.take_add, Nat.add_sub_of_le hle]
  · rw [max_eq_right hle, List.drop_append, List.length_take, min_eq_left hm, List.drop_drop,
      Nat.add_sub_of_le hle, List.drop_eq_nil_of_le (by rw [List.length_take]; omega),
      List.nil_append]

theorem serverFile_getD (c : Client) (w : WriteArgs) (ds : ℕ → Decision) (old : Option Bytes)
    (n : ℕ) :
    (serverFile c w ds old n).getD [] =
      w.data.take (mostWritten ds w.data n) ++ (old.getD []).drop (mostWritten ds w.data n) := by
  induction n with
  | zero => rfl
  | succ n ih =>
    rw [serverFile, execute_writeOps, ih, take_append_drop_max _ _ (mostWritten_le ds w.data n)]
    rfl

theorem isSome_serverFile (c : Client) (w : WriteArgs) (ds : ℕ → Decision) (old : Option Bytes)
    (n : ℕ) :
    (serverFile c w ds old n).isSome = true ↔
      old.isSome = true ∨ ∃ i < n, 3 ≤ (ds i).succeeded := by
  induction n with
  | zero => simp [serverFile]
  | succ n ih =>
    rw [serverFile, isSome_execute, ih, or_assoc, Nat.exists_lt_succ_right]

/-- The file has the data after some requests if it is there and what has not been written was in
it before, and no more than that. -/
theorem serverFile_eq_data_iff (c : Client) (w : WriteArgs) (ds : ℕ → Decision)
    (old : Option Bytes) (n : ℕ) :
    serverFile c w ds old n = some w.data ↔
      (old.isSome = true ∨ ∃ i < n, 3 ≤ (ds i).succeeded) ∧
        (old.getD []).drop (mostWritten ds w.data n) =
          w.data.drop (mostWritten ds w.data n) := by
  rw [← isSome_serverFile c w ds old n]
  have hget := serverFile_getD c w ds old n
  cases hfile : serverFile c w ds old n with
  | none => simp
  | some content =>
    rw [hfile, Option.getD_some] at hget
    rw [Option.some_inj, hget]
    constructor
    · intro h
      refine ⟨rfl, (List.append_right_inj (w.data.take (mostWritten ds w.data n))).mp ?_⟩
      rw [h, List.take_append_drop]
    · rintro ⟨-, h⟩
      rw [h, List.take_append_drop]

/-! ## What the client reads of a reply -/

/-- The results of the request are found. -/
theorem parseOpResults_decision (d : Decision) (c : Client) (seqId : ℕ) (w : WriteArgs)
    {dec : Decoder} (h : dec.Ahead (d.results (writeOps c seqId w)).flatten) :
    ∃ rs dec', parseOpResults (d.results (writeOps c seqId w)).length dec = .ok (rs, dec') := by
  obtain ⟨hfailed, hstatus⟩ := d.failedStatus_writeOps c seqId w
  obtain ⟨hsequence, hother⟩ := d.widths
  unfold Decision.results at h ⊢
  rw [d.done_writeOps] at h ⊢
  generalize d.failedStatus (writeOps c seqId w) = status at h hfailed hstatus ⊢
  unfold writeOps at h ⊢
  rcases hs : d.succeeded with _ | _ | _ | n
  · rw [hs] at h
    obtain ⟨dec₁, hop⟩ := parseOpResult_failed opSequence (by decide) hstatus hfailed h
    exact ⟨_, _, parseOpResults_next hop rfl⟩
  · rw [hs] at h
    obtain ⟨dec₁, hop₁, h⟩ := parseOpResult_sequence hsequence h
    obtain ⟨dec₂, hop₂⟩ := parseOpResult_failed opPutFh (by decide) hstatus hfailed h
    exact ⟨_, _, parseOpResults_next hop₁ (parseOpResults_next hop₂ rfl)⟩
  · rw [hs] at h
    obtain ⟨dec₁, hop₁, h⟩ := parseOpResult_sequence hsequence h
    obtain ⟨dec₂, hop₂, h⟩ := parseOpResult_bare bareOp_putFh h
    obtain ⟨dec₃, hop₃⟩ := parseOpResult_failed opOpen (by decide) hstatus hfailed h
    exact ⟨_, _, parseOpResults_next hop₁ (parseOpResults_next hop₂
      (parseOpResults_next hop₃ rfl))⟩
  · -- the client reads no further than the opened file
    obtain ⟨k, hk⟩ : ∃ k, min (n + 3) 4 = k + 3 := ⟨min n 1, by omega⟩
    rw [hs, hk] at h
    rw [hk]
    obtain ⟨dec₁, hop₁, h⟩ := parseOpResult_sequence hsequence h
    obtain ⟨dec₂, hop₂, h⟩ := parseOpResult_bare bareOp_putFh h
    obtain ⟨dec₃, hop₃⟩ := parseOpResult_open hother h
    exact ⟨_, _, parseOpResults_next hop₁ (parseOpResults_next hop₂ (parseOpResults_last hop₃))⟩

/-- The reply of the server is decoded, and tells of an error. -/
theorem parse_decision (d : Decision) (c : Client) (seqId : ℕ) (w : WriteArgs) (xid : ℕ) :
    ∃ reply : CompoundReply, reply.status ≠ nfs4Ok ∧
      ∀ mark : Bytes, mark.length = 4 →
        parseCompoundReply (mark ++ (encodeU32 xid ++ d.reply (writeOps c seqId w))) =
          .ok reply := by
  obtain ⟨hfailed, hstatus⟩ := d.failedStatus_writeOps c seqId w
  rw [← d.replyStatus_writeOps] at hfailed hstatus
  have hcount : (d.results (writeOps c seqId w)).length < 2 ^ 32 := by
    have hlast := Option.length_toList_le
      (o := (writeOps c seqId w)[d.done (writeOps c seqId w)]?.map fun op =>
        encodeResult (opCode op) (d.failedStatus (writeOps c seqId w)) d.failure)
    have hops : (writeOps c seqId w).length = 6 := rfl
    rw [Decision.results, List.length_append, List.length_map, List.length_take]
    omega
  obtain ⟨dec, h, hreply⟩ :=
    parseCompoundReply_encodeReply d.flavor d.short.1 hstatus d.short.2 hcount xid
  obtain ⟨rs, dec', hparse⟩ := parseOpResults_decision d c seqId w h
  exact ⟨⟨xid % 2 ^ 32, _, d.tag, rs⟩, hfailed, hreply rs dec' hparse⟩

/-! ## What the client reports -/

/-- Nothing is under way on the connection. -/
def Quiet (c : Client) : Prop := c.inbox = [] ∧ c.torn = false

/-- The request is sent, and its answer arrives whole, in fragments that are read. -/
def Exchange.Delivered (e : Exchange) : Prop :=
  e.written = true ∧ ∃ a, e.answer = some a ∧ (a.message 0).length ≤ e.arrives ∧
    ∀ b ∈ (encodeU32 0 ++ a.first) :: a.more, b.length ≤ maxFragment

/-- The server answers with its decision. -/
def Exchange.Answers (e : Exchange) (bytes : Bytes) : Prop :=
  ∀ a ∈ e.answer, a.first ++ a.more.flatten = bytes

theorem length_frame_cons {b b' : Bytes} (h : b.length = b'.length) (bs : List Bytes) :
    (frame (b :: bs)).length = (frame (b' :: bs)).length := by
  simp [frame_cons, h]

theorem Answer.length_message (a : Answer) (xid : ℕ) :
    (a.message xid).length = (a.message 0).length :=
  length_frame_cons (by simp) a.more

theorem Answer.fit_iff (a : Answer) (xid : ℕ) :
    (∀ b ∈ (encodeU32 xid ++ a.first) :: a.more, b.length ≤ maxFragment) ↔
      ∀ b ∈ (encodeU32 0 ++ a.first) :: a.more, b.length ≤ maxFragment := by
  simp

/-- An error of the connection or in the form of a message. -/
def NotOfReply (error : NfsError) : Prop := ∀ code message, error ≠ .nfs4Error code message

/-! ### Messages in a row -/

/-- A message on the connection. -/
structure Message where
  xid : ℕ
  answer : Answer

namespace Message

def bytes (m : Message) : Bytes := m.answer.message m.xid

def fragments (m : Message) : List Bytes := (encodeU32 m.xid ++ m.answer.first) :: m.answer.more

/-- A request is written, and the message is there in time, in fragments that are read. -/
def Read (m : Message) (e : Exchange) : Prop :=
  e.written = true ∧ m.bytes.length ≤ e.arrives ∧ ∀ b ∈ m.fragments, b.length ≤ maxFragment

/-- The error of a file for which the message is taken for the reply. -/
def error (m : Message) (filename : String) : Option NfsError :=
  match parseCompoundReply (received m.fragments) with
  | .ok reply => writeError filename reply
  | .error error => some error

end Message

/-- The messages that are under way on the connection, on which no request has been cut off. -/
def Queued (ms : List Message) (c : Client) : Prop :=
  c.torn = false ∧ c.inbox = (ms.map Message.bytes).flatten

/-- The first message is read, whatever it is the answer to. -/
theorem readReply_queued {e : Exchange} (hwritten : e.written = true) (ms : List Message) (n : ℕ) :
    Triple (fun c => Queued ms c ∧ c.outbox.length = n) (readReply e)
      (fun data c => ∃ m ∈ ms.head?, m.Read e ∧ data = received m.fragments ∧
        Queued ms.tail c ∧ c.outbox.length = n)
      (fun error _ => (∀ m ∈ ms.head?, ¬ m.Read e) ∧ NotOfReply error) := by
  intro c h
  obtain ⟨⟨hwhole, hinbox⟩, hcount⟩ := h
  cases hread : readFragments ((c.inbox.take e.arrives).length + 1) [] (c.inbox.take e.arrives) with
  | mk result rest =>
    rw [exec_readReply hread]
    cases ms with
    | nil =>
      rw [hinbox, List.map_nil, List.flatten_nil, List.take_nil, readFragments,
        if_pos (by decide)] at hread
      cases hread
      refine ⟨fun data c' hexec => ?_, fun error c' hexec => ?_⟩
      · cases hexec
      · cases hexec
        exact ⟨fun m hm => absurd hm (by simp), by simp [NotOfReply]⟩
    | cons m ms =>
      rw [List.map_cons, List.flatten_cons] at hinbox
      refine ⟨fun data c' hexec => ?_, fun error c' hexec => ?_⟩
      · cases hexec
        rw [hinbox] at hread
        obtain ⟨hrest, hlength, hfit, hdata⟩ := readFragments_frame_append
          (m.answer.fragments_short m.xid) (List.cons_ne_nil _ _) hread
        have hgone : m.bytes.drop e.arrives = [] := List.drop_eq_nil_of_le hlength
        refine ⟨m, rfl, ⟨hwritten, hlength, hfit⟩, hdata, ⟨hwhole, ?_⟩, hcount⟩
        dsimp only
        rw [hrest, hinbox, List.drop_append, hgone, List.nil_append]
        exact List.take_append_drop ..
      · cases hexec
        refine ⟨fun m' hm' hmessage => ?_, readFragments_error hread⟩
        obtain rfl := Option.some.inj hm'
        obtain ⟨-, hlength, hfit⟩ := hmessage
        have hexec := readReply_received (e := e) hfit (List.cons_ne_nil _ _) hinbox hlength
        rw [exec_readReply hread] at hexec
        cases hexec

section Answered
variable {e : Exchange} {xid : ℕ} {bytes : Bytes}

/-- A message is read if the answer has been delivered, and it is that answer. -/
theorem readReply_delivered (hwritten : e.written = true) (hanswers : e.Answers bytes) (n : ℕ) :
    Triple (fun c => c.inbox = e.answer.elim [] (·.message xid) ∧ c.torn = false ∧
        c.outbox.length = n)
      (readReply e)
      (fun data c => e.Delivered ∧ Quiet c ∧ c.outbox.length = n ∧
        ∃ mark, mark.length = 4 ∧ data = mark ++ (encodeU32 xid ++ bytes))
      (fun error _ => ¬ e.Delivered ∧ NotOfReply error) := by
  cases hanswer : e.answer with
  | none =>
    refine (readReply_queued hwritten [] n).imp (fun c h => ⟨⟨h.2.1, h.1⟩, h.2.2⟩)
      (fun data c h => ?_) fun error c h => ⟨?_, h.2⟩
    · obtain ⟨m, hm, -⟩ := h
      cases hm
    · rintro ⟨-, a, ha, -⟩
      rw [hanswer] at ha
      cases ha
  | some a =>
    have hdelivered : e.Delivered ↔ Message.Read ⟨xid, a⟩ e := by
      unfold Exchange.Delivered Message.Read Message.bytes Message.fragments
      simp only [hanswer, Option.some_inj, exists_eq_left', a.length_message xid, a.fit_iff xid]
    refine (readReply_queued hwritten [⟨xid, a⟩] n).imp
      (fun c h => ⟨⟨h.2.1, h.1.trans (List.append_nil _).symm⟩, h.2.2⟩) (fun data c h => ?_)
      fun error c h => ⟨fun hd => h.1 _ rfl (hdelivered.mp hd), h.2⟩
    obtain ⟨m, hm, hread, hdata, ⟨hwhole, hinbox⟩, hcount⟩ := h
    obtain rfl := Option.some.inj hm
    rw [received, Message.fragments, frame_cons, List.take_left' (length_encodeU32 _),
      List.flatten_cons, List.append_assoc, hanswers a hanswer] at hdata
    exact ⟨hdelivered.mpr hread, ⟨hinbox, hwhole⟩, hcount, _, length_encodeU32 _, hdata⟩

theorem send_answer (seqId : Option ℕ) (msg : Bytes) (n : ℕ) :
    Triple (fun c => Quiet c ∧ c.outbox.length = n) (send xid seqId msg e)
      (fun _ c => e.written = true ∧ c.inbox = e.answer.elim [] (·.message xid) ∧
        c.torn = false ∧ c.outbox.length = n + 1)
      (fun error _ => ¬ e.Delivered ∧ NotOfReply error) := by
  unfold send
  refine Triple.ite (fun hwritten => Triple.modify fun c h => ?_) fun hwritten => ?_
  · obtain ⟨⟨hempty, hwhole⟩, hcount⟩ := h
    dsimp only
    rw [hempty, hwhole, List.nil_append, if_neg Bool.false_ne_true, List.length_append, hcount]
    exact ⟨hwritten, rfl, rfl, rfl⟩
  · refine Triple.bind (Triple.modify (Q := fun _ _ => True) fun _ _ => trivial) fun _ => ?_
    have hthrow : Triple (fun _ => True) (throw .connectionFailed : NfsM Unit)
        (fun _ c => e.written = true ∧ c.inbox = e.answer.elim [] (·.message xid) ∧
          c.torn = false ∧ c.outbox.length = n + 1)
        (fun error _ => ¬ e.Delivered ∧ NotOfReply error) :=
      Triple.throw fun _ _ => ⟨fun hdelivered => hwritten hdelivered.1, by simp [NotOfReply]⟩
    refine Triple.ite (fun _ => ?_) fun _ => hthrow
    exact Triple.bind (keeps_modify fun _ h => h) fun _ => hthrow

/-- A call succeeds if the answer is delivered, and gives what it decodes to. -/
theorem call_answer (hanswers : e.Answers bytes) {reply : CompoundReply}
    (hparse : ∀ mark : Bytes, mark.length = 4 →
      parseCompoundReply (mark ++ (encodeU32 xid ++ bytes)) = .ok reply)
    (seqId : Option ℕ) (msg : Bytes) (n : ℕ) :
    Triple (fun c => Quiet c ∧ c.outbox.length = n) (call xid seqId msg e)
      (fun r c => r.1 = reply ∧ e.Delivered ∧ Quiet c ∧ c.outbox.length = n + 1)
      (fun error _ => ¬ e.Delivered ∧ NotOfReply error) := by
  refine Triple.bind (send_answer seqId msg n) fun _ => ?_
  by_cases hwritten : e.written = true
  · refine Triple.bind ((readReply_delivered hwritten hanswers (n + 1)).imp (fun c h => h.2)
      (fun _ _ h => h) fun _ _ h => h) fun data => ?_
    intro c h
    obtain ⟨hdelivered, hquiet, hcount, mark, hmark, rfl⟩ := h
    rw [hparse mark hmark]
    refine ⟨fun r c' hexec => ?_, fun error c' hexec => ?_⟩
    · cases hexec
      exact ⟨rfl, hdelivered, hquiet, hcount⟩
    · cases hexec
  · intro c h
    exact absurd h.1 hwritten

end Answered

/-! ### One attempt -/

/-- A message on the connection that a call adds: the answer to its request. -/
def ownMessage (xid : ℕ) (e : Exchange) : List Message := (e.answer.map (⟨xid, ·⟩)).toList

theorem send_queued {xid : ℕ} {e : Exchange} (ms : List Message) (seqId : Option ℕ) (msg : Bytes)
    (n : ℕ) :
    Triple (fun c => Queued ms c ∧ c.outbox.length = n) (send xid seqId msg e)
      (fun _ c => e.written = true ∧ Queued (ms ++ ownMessage xid e) c ∧ c.outbox.length = n + 1)
      (fun error _ => e.written ≠ true ∧ NotOfReply error) := by
  unfold send
  refine Triple.ite (fun hwritten => Triple.modify fun c h => ?_) fun hwritten => ?_
  · obtain ⟨⟨hwhole, hinbox⟩, hcount⟩ := h
    refine ⟨hwritten, ⟨hwhole, ?_⟩, ?_⟩
    · dsimp only
      rw [hinbox, hwhole, List.map_append, List.flatten_append]
      cases hanswer : e.answer with
      | none => simp [ownMessage, hanswer]
      | some a => simp [ownMessage, hanswer, Message.bytes]
    · dsimp only
      rw [List.length_append, hcount]
      rfl
  · refine Triple.bind (Triple.modify (Q := fun _ _ => True) fun _ _ => trivial) fun _ => ?_
    have hthrow : Triple (fun _ => True) (throw .connectionFailed : NfsM Unit)
        (fun _ c => e.written = true ∧ Queued (ms ++ ownMessage xid e) c ∧
          c.outbox.length = n + 1) (fun error _ => e.written ≠ true ∧ NotOfReply error) :=
      Triple.throw fun _ _ => ⟨hwritten, by simp [NotOfReply]⟩
    refine Triple.ite (fun _ => ?_) fun _ => hthrow
    exact Triple.bind (keeps_modify fun _ h => h) fun _ => hthrow

/-- What a call comes to: the first message is not read, or it is not understood. -/
def CallFails (ms : List Message) (e : Exchange) (n : ℕ) (error : NfsError) (c : Client) : Prop :=
  ((∀ m ∈ ms.head?, ¬ m.Read e) ∧ NotOfReply error) ∨
    ∃ m ∈ ms.head?, m.Read e ∧ parseCompoundReply (received m.fragments) = .error error ∧
      Queued ms.tail c ∧ c.outbox.length = n

theorem call_queued {xid : ℕ} {e : Exchange} (ms : List Message) (seqId : Option ℕ) (msg : Bytes)
    (n : ℕ) :
    Triple (fun c => Queued ms c ∧ c.outbox.length = n) (call xid seqId msg e)
      (fun r c => ∃ m ∈ (ms ++ ownMessage xid e).head?, m.Read e ∧
        parseCompoundReply (received m.fragments) = .ok r.1 ∧
        Queued (ms ++ ownMessage xid e).tail c ∧ c.outbox.length = n + 1)
      (CallFails (ms ++ ownMessage xid e) e (n + 1)) := by
  refine Triple.bind ((send_queued ms seqId msg n).imp (fun _ h => h) (fun _ _ h => h)
    fun error c h => .inl ⟨fun m _ hread => h.1 hread.1, h.2⟩) fun _ => ?_
  by_cases hwritten : e.written = true
  · refine Triple.bind ((readReply_queued hwritten _ (n + 1)).imp (fun c h => h.2)
      (fun _ _ h => h) fun error c h => .inl h) fun data => ?_
    split
    next reply hparse =>
      refine Triple.bind (keeps_modify fun c h => h) fun _ => Triple.pure fun c h => ?_
      obtain ⟨m, hm, hread, rfl, hqueued⟩ := h
      exact ⟨m, hm, hread, hparse, hqueued⟩
    next error hparse =>
      refine Triple.throw fun c h => ?_
      obtain ⟨m, hm, hread, rfl, hqueued⟩ := h
      exact .inr ⟨m, hm, hread, hparse, hqueued⟩
  · intro c h
    exact absurd h.1 hwritten

theorem writeError_failed (filename : String) {reply : CompoundReply}
    (hstatus : reply.status ≠ nfs4Ok) : writeError filename reply ≠ none := by
  unfold writeError
  rw [if_pos hstatus]
  split_ifs <;> simp

/-- No answer to a request that writes a file tells of a success. -/
theorem ownMessage_error {xid : ℕ} {e : Exchange} {c : Client} {seqId : ℕ} {w : WriteArgs}
    {d : Decision} (hanswers : e.Answers (d.reply (writeOps c seqId w))) :
    ∀ m ∈ ownMessage xid e, m.error w.filename ≠ none := by
  intro m hm
  obtain ⟨a, ha, rfl⟩ := Option.map_eq_some_iff.mp (Option.mem_toList.mp hm)
  obtain ⟨reply, hstatus, hparse⟩ := parse_decision d c seqId w xid
  have hreceived : parseCompoundReply (received (Message.fragments ⟨xid, a⟩)) = .ok reply := by
    rw [received, Message.fragments, frame_cons, List.take_left' (length_encodeU32 _),
      List.flatten_cons, List.append_assoc, hanswers a ha]
    exact hparse _ (length_encodeU32 _)
  rw [Message.error, hreceived]
  exact writeError_failed w.filename hstatus

/-- Late messages, and behind them answers to the requests that have been made since. -/
def Pending (filename : String) (late : List Message) (n : ℕ) (c : Client) : Prop :=
  ∃ own : List Message, (∀ m ∈ own, m.error filename ≠ none) ∧ Queued (late ++ own) c ∧
    c.outbox.length = n

theorem nextSequenceId_keeps {P : Client → Prop} {E : NfsError → Client → Prop}
    (h : ∀ c n, P c → P { c with sequenceId := n }) : Triple P nextSequenceId (fun _ => P) E := by
  refine Triple.bind knows_get fun c' => ?_
  refine Triple.bind (Triple.set fun c hc => ?_) fun _ => Triple.pure fun c hc => hc
  rw [hc.2] at hc
  exact h _ _ hc.1

/-- What an attempt comes to is up to the first message. -/
theorem writeFileInner_queued (w : WriteArgs) (e : Exchange) (ms : List Message) (n : ℕ) :
    Triple (fun c => Queued ms c ∧ c.outbox.length = n) (writeFileInner w e)
      (fun _ c => ∃ xid, ∃ m ∈ (ms ++ ownMessage xid e).head?, m.Read e ∧
        m.error w.filename = none ∧ c.outbox.length = n + 1)
      (fun error c => ∃ xid, ((∀ m ∈ (ms ++ ownMessage xid e).head?, ¬ m.Read e) ∧
          NotOfReply error) ∨
        ∃ m ∈ (ms ++ ownMessage xid e).head?, m.Read e ∧ m.error w.filename = some error ∧
          Queued (ms ++ ownMessage xid e).tail c ∧ c.outbox.length = n + 1) := by
  refine Triple.bind (Tracked.nextXid_keeps fun c _ h => h) fun xid => ?_
  refine Triple.bind (nextSequenceId_keeps fun c _ h => h) fun seqId => ?_
  refine Triple.bind keeps_get fun c => ?_
  refine Triple.bind ((call_queued ms (some seqId) _ n).imp (fun _ h => h) (fun _ _ h => h)
    fun error c h => ⟨xid, ?_⟩) fun r => ?_
  · rcases h with h | ⟨m, hm, hread, hparse, hqueued⟩
    · exact .inl h
    · exact .inr ⟨m, hm, hread, by rw [Message.error, hparse], hqueued⟩
  · intro c' h
    obtain ⟨m, hm, hread, hparse, hqueued, hcount⟩ := h
    have herror : m.error w.filename = writeError w.filename r.1 := by rw [Message.error, hparse]
    dsimp only
    cases hwrite : writeError w.filename r.1 with
    | none =>
      refine ⟨fun _ c'' hexec => ?_, fun _ _ hexec => ?_⟩
      · cases hexec
        exact ⟨xid, m, hm, hread, herror.trans hwrite, hcount⟩
      · cases hexec
    | some error =>
      refine ⟨fun _ _ hexec => ?_, fun _ c'' hexec => ?_⟩
      · cases hexec
      · cases hexec
        exact ⟨xid, .inr ⟨m, hm, hread, herror.trans hwrite, hqueued, hcount⟩⟩

/-- One attempt reports the file as written only if a late message does. It is followed by
another one only if the reply that was read tells of the grace period. -/
theorem writeFileInner_pending {c₀ : Client} {k : ℕ} {w : WriteArgs} {e : Exchange} {d : Decision}
    (hanswers : e.Answers (d.reply (writeOps c₀ k w))) (late : List Message) (n : ℕ) :
    Triple (Pending w.filename late n) (writeFileInner w e)
      (fun _ c => (∃ m ∈ late.head?, m.Read e ∧ m.error w.filename = none) ∧
        c.outbox.length = n + 1)
      (fun error c => (∀ m ∈ late.head?, m.Read e → m.error w.filename = some error) ∧
        ((∃ message, error = .nfs4Error 10013 message) →
          (∀ m ∈ late.head?, m.Read e) ∧ Pending w.filename late.tail (n + 1) c)) := by
  rintro c ⟨own, hown, hqueued, hcount⟩
  obtain ⟨hok, herror⟩ := writeFileInner_queued w e (late ++ own) n c ⟨hqueued, hcount⟩
  have hmine : ∀ xid, ∀ m ∈ own ++ ownMessage xid e, m.error w.filename ≠ none := fun xid m hm =>
    (List.mem_append.mp hm).elim (hown m) (ownMessage_error hanswers m)
  refine ⟨fun u c' hexec => ?_, fun error c' hexec => ?_⟩
  · obtain ⟨xid, m, hm, hread, hnone, hcount'⟩ := hok u c' hexec
    refine ⟨?_, hcount'⟩
    rw [List.append_assoc] at hm
    cases late with
    | nil => exact absurd hnone (hmine xid m (List.mem_of_mem_head? hm))
    | cons m' late =>
      obtain rfl := Option.some.inj hm
      exact ⟨m', rfl, hread, hnone⟩
  · obtain ⟨xid, hfails⟩ := herror error c' hexec
    rw [List.append_assoc] at hfails
    rcases hfails with ⟨hnone, hother⟩ | ⟨m, hm, hread, hsome, hqueued', hcount'⟩
    · refine ⟨fun m hm hread => absurd hread (hnone m ?_), ?_⟩
      · rw [List.head?_append, hm]
        rfl
      · rintro ⟨message, rfl⟩
        exact absurd rfl (hother 10013 message)
    · cases late with
      | nil =>
        refine ⟨fun m hm => absurd hm (by simp), fun _ => ⟨fun m hm => absurd hm (by simp), ?_⟩⟩
        exact ⟨_, fun m hm => hmine xid m (List.mem_of_mem_tail hm), hqueued', hcount'⟩
      | cons m' late =>
        obtain rfl := Option.some.inj hm
        refine ⟨fun m hm _ => ?_, fun _ => ⟨fun m hm => ?_, _, hmine xid, hqueued', hcount'⟩⟩
        · obtain rfl := Option.some.inj hm
          exact hsome
        · obtain rfl := Option.some.inj hm
          exact hread

/-! ### The attempts -/

section Attempts
variable (filename : String) (late : List Message) (es : ℕ → Exchange)

/-- An attempt is followed by another one on a late message. -/
def RetriedAt (i : ℕ) : Prop :=
  ∃ m ∈ late[i]?, m.Read (es i) ∧ ∃ message, m.error filename = some (.nfs4Error 10013 message)

/-- An attempt takes a late message that tells of a success for the reply, and so do the attempts
before it with messages that tell of the grace period. -/
def MistakenAt (j : ℕ) : Prop :=
  (∀ i < j, RetriedAt filename late es i) ∧
    ∃ m ∈ late[j]?, m.Read (es j) ∧ m.error filename = none

variable {filename late es}

/-- There is one such attempt at most. -/
theorem MistakenAt.unique {j j' : ℕ} (h : MistakenAt filename late es j)
    (h' : MistakenAt filename late es j') : j = j' := by
  have hdistinct : ∀ i, RetriedAt filename late es i →
      ¬ ∃ m ∈ late[i]?, m.Read (es i) ∧ m.error filename = none := by
    rintro i ⟨m, hm, -, message, hgrace⟩ ⟨m', hm', -, hnone⟩
    obtain rfl := Option.some.inj (hm.symm.trans hm')
    rw [hgrace] at hnone
    cases hnone
  rcases lt_trichotomy j j' with hlt | heq | hlt
  · exact absurd h.2 (hdistinct j (h'.1 j hlt))
  · exact heq
  · exact absurd h'.2 (hdistinct j' (h.1 j' hlt))

variable {w : WriteArgs} {ds : ℕ → Decision} {c₀ : Client} {ks : ℕ → ℕ}

/-- The late messages before an attempt have all been read, and told of the grace period. -/
def RetriedBefore (filename : String) (late : List Message) (es : ℕ → Exchange) (attempt : ℕ) :
    Prop :=
  ∀ i < attempt, i < late.length → RetriedAt filename late es i

theorem RetriedBefore.mistakenAt {j : ℕ} (h : RetriedBefore filename late es j)
    (hlast : ∃ m ∈ late[j]?, m.Read (es j) ∧ m.error filename = none) :
    MistakenAt filename late es j := by
  obtain ⟨m, hm, hmessage⟩ := hlast
  have hlength : j < late.length := (List.getElem?_eq_some_iff.mp hm).choose
  exact ⟨fun i hi => h i hi (hi.trans hlength), m, hm, hmessage⟩

theorem writeFileFrom_pending
    (hanswers : ∀ i, (es i).Answers ((ds i).reply (writeOps c₀ (ks i) w))) (left attempt n : ℕ)
    (hbefore : RetriedBefore w.filename late es attempt) :
    Triple (Pending w.filename (late.drop attempt) n) (writeFileFrom w es left attempt)
      (fun _ c => ∃ j, attempt ≤ j ∧ j ≤ attempt + left ∧ MistakenAt w.filename late es j ∧
        c.outbox.length = n + (j - attempt) + 1)
      (fun _ _ => ¬ ∃ j, attempt ≤ j ∧ j ≤ attempt + left ∧ MistakenAt w.filename late es j) := by
  induction left generalizing attempt n with
  | zero =>
    refine (writeFileInner_pending (hanswers attempt) (late.drop attempt) n).imp (fun _ h => h)
      (fun _ c h => ?_) fun error c h => ?_
    · rw [List.head?_drop] at h
      exact ⟨attempt, le_rfl, le_rfl, hbefore.mistakenAt h.1, by omega⟩
    · rw [List.head?_drop] at h
      rintro ⟨j, hj, hle, -, m, hm, hread, hnone⟩
      obtain rfl : j = attempt := by omega
      rw [h.1 m hm hread] at hnone
      cases hnone
  | succ left ih =>
    refine Triple.tryCatch ((writeFileInner_pending (hanswers attempt) (late.drop attempt) n).imp
      (fun _ h => h) (fun _ c h => ?_) fun error c h => h) fun error => ?_
    · rw [List.head?_drop] at h
      exact ⟨attempt, le_rfl, by omega, hbefore.mistakenAt h.1, by omega⟩
    · rw [List.head?_drop, List.tail_drop]
      -- this attempt is not mistaken
      have hlater : (∀ m ∈ late[attempt]?, m.Read (es attempt) → m.error w.filename = some error) →
          ∀ j, attempt ≤ j → MistakenAt w.filename late es j → attempt + 1 ≤ j := by
        rintro hsome j hj ⟨-, m, hm, hread, hnone⟩
        refine Nat.lt_of_le_of_ne hj fun heq => ?_
        subst heq
        rw [hsome m hm hread] at hnone
        cases hnone
      split
      next message =>
        intro c h
        obtain ⟨hsome, hagain⟩ := h
        obtain ⟨hread, hpending⟩ := hagain ⟨message, rfl⟩
        have hbefore' : RetriedBefore w.filename late es (attempt + 1) := by
          intro i hi hlength
          rcases Nat.lt_succ_iff_lt_or_eq.mp hi with hi | rfl
          · exact hbefore i hi hlength
          · have hm : late[i]? = some late[i] := List.getElem?_eq_getElem hlength
            exact ⟨_, hm, hread _ hm, message, hsome _ hm (hread _ hm)⟩
        obtain ⟨hok, herror⟩ := ih (attempt + 1) (n + 1) hbefore' c hpending
        refine ⟨fun u c' hexec => ?_, fun error' c' hexec => ?_⟩
        · obtain ⟨j, hj, hle, hmistaken, hcount⟩ := hok u c' hexec
          exact ⟨j, by omega, by omega, hmistaken, by omega⟩
        · rintro ⟨j, hj, hle, hmistaken⟩
          exact herror error' c' hexec ⟨j, hlater hsome j hj hmistaken, by omega, hmistaken⟩
      next hother =>
        refine Triple.throw fun c h => ?_
        rintro ⟨j, hj, -, hmistaken⟩
        -- an attempt behind this one would have been preceded by a grace period
        obtain ⟨m, hm, hread, message, hgrace⟩ :=
          hmistaken.1 attempt (hlater h.1 j hj hmistaken)
        rw [h.1 m hm hread] at hgrace
        exact hother message (Option.some.inj hgrace)

theorem writeFile_pending
    (hanswers : ∀ i, (es i).Answers ((ds i).reply (writeOps c₀ (ks i) w))) (n : ℕ) :
    Triple (fun c => Queued late c ∧ c.outbox.length = n) (writeFile w es)
      (fun _ c => ∃ j ≤ 2, MistakenAt w.filename late es j ∧ c.outbox.length = n + (j + 1))
      (fun _ _ => ¬ ∃ j ≤ 2, MistakenAt w.filename late es j) := by
  have hstart : RetriedBefore w.filename late es 0 := fun i hi => absurd hi (Nat.not_lt_zero i)
  refine Triple.tryCatch ((writeFileFrom_pending hanswers 2 0 n hstart).imp (fun c h => ?_)
    (fun _ c h => ?_) fun _ c h => h) fun error => ?_
  · rw [List.drop_zero]
    exact ⟨[], fun m hm => absurd hm List.not_mem_nil, by rw [List.append_nil]; exact h.1, h.2⟩
  · obtain ⟨j, -, hle, hmistaken, hcount⟩ := h
    exact ⟨j, by omega, hmistaken, by omega⟩
  · have hnone : ∀ c : Client, (¬ ∃ j, 0 ≤ j ∧ j ≤ 0 + 2 ∧ MistakenAt w.filename late es j) →
        ¬ ∃ j ≤ 2, MistakenAt w.filename late es j := by
      rintro - h ⟨j, hle, hmistaken⟩
      exact h ⟨j, Nat.zero_le j, by omega, hmistaken⟩
    split
    · exact Triple.throw hnone
    · exact Triple.throw hnone

end Attempts

/-- If a file is reported as written, it has the data and nothing else. -/
def WriteIsComplete (c : Client) (w : WriteArgs) (es : ℕ → Exchange) (ds : ℕ → Decision)
    (old : Option Bytes) : Prop :=
  (exec (writeFile w es) c).1 = .ok () →
    serverFile c w ds old ((exec (writeFile w es) c).2.outbox.length - c.outbox.length) =
      some w.data

/-- A file that is reported as written, on a late message taken for the reply, has the data if and
only if it is there and what was in it before ends as the data does behind the bytes that have been
written. Without late messages none is (`writeFile_quiet`). -/
theorem writeFile_complete_iff {c : Client} {late : List Message} (hlate : Queued late c)
    (w : WriteArgs) {es : ℕ → Exchange} {ds : ℕ → Decision}
    (hanswers : ∀ i, (es i).Answers
      ((ds i).reply (writeOps c ((c.sequenceId + i) % 2 ^ 32) w))) (old : Option Bytes) :
    WriteIsComplete c w es ds old ↔ ∀ j ≤ 2, MistakenAt w.filename late es j →
      (old.isSome = true ∨ ∃ i < j + 1, 3 ≤ (ds i).succeeded) ∧
        (old.getD []).drop (mostWritten ds w.data (j + 1)) =
          w.data.drop (mostWritten ds w.data (j + 1)) := by
  obtain ⟨hok, herror⟩ := writeFile_pending hanswers c.outbox.length c ⟨hlate, rfl⟩
  unfold WriteIsComplete
  cases hexec : exec (writeFile w es) c with
  | mk result c' =>
    cases result with
    | error e =>
      have hnone := herror e c' hexec
      refine ⟨fun _ j hj hmistaken => absurd ⟨j, hj, hmistaken⟩ hnone, fun _ h => ?_⟩
      cases h
    | ok u =>
      obtain ⟨j, hj, hmistaken, hcount⟩ := hok u c' hexec
      have hmade : c'.outbox.length - c.outbox.length = j + 1 := by omega
      dsimp only
      rw [hmade, serverFile_eq_data_iff]
      constructor
      · intro h j' hj' hmistaken'
        obtain rfl := hmistaken.unique hmistaken'
        exact h rfl
      · exact fun h _ => h j hj hmistaken

/-- On a connection with nothing under way no file is reported as written. -/
theorem writeFile_quiet {c : Client} (hquiet : Quiet c) (w : WriteArgs) {es : ℕ → Exchange}
    {ds : ℕ → Decision}
    (hanswers : ∀ i, (es i).Answers
      ((ds i).reply (writeOps c ((c.sequenceId + i) % 2 ^ 32) w))) :
    (exec (writeFile w es) c).1 ≠ .ok () := by
  intro hresult
  have hqueued : Queued [] c := ⟨hquiet.2, hquiet.1⟩
  obtain ⟨hok, -⟩ := writeFile_pending hanswers c.outbox.length c ⟨hqueued, rfl⟩
  obtain ⟨j, -, ⟨-, m, hm, -⟩, -⟩ := hok () _ (Prod.ext hresult rfl)
  cases hm

/-! ### A late reply -/

/-- A server that does all it is asked for, as far as it can. -/
def obligingServer : Decision where
  succeeded := 6
  status := 1
  count := 1048576
  sequence := List.replicate 36 0
  opened := ⟨1, List.replicate 12 7⟩
  openInfo := List.replicate 40 0
  committed := 2
  verifier := List.replicate 8 0
  attrsSet := []
  closed := List.replicate 16 0
  failure := []
  flavor := 0
  verf := []
  tag := []
  error := ⟨Nat.one_ne_zero, by decide⟩
  widths := ⟨rfl, rfl⟩
  short := ⟨by decide, by decide⟩

/-- A directory is looked up, and the answer comes when the time is over. -/
def lateLookup : ClientCall :=
  .getOrResolveHandle ["mnt", "d"] (.ok [1])
    { answered nfs4Ok [sequenceResult, encodeResult opPutFh nfs4Ok [],
        encodeResult opLookup nfs4Ok [], encodeResult opGetFh nfs4Ok (Xdr.encodeOpaque [2])] with
      arrives := 0 }

def lateClient : Client := Run.exec clientStep sampleClient [lateLookup]

/-- What is on the connection then. -/
def lateMessages : List Message :=
  let results := [sequenceResult, encodeResult opPutFh nfs4Ok [], encodeResult opLookup nfs4Ok [],
    encodeResult opGetFh nfs4Ok (Xdr.encodeOpaque [2])]
  (Answer.single (encodeReply 0 [] nfs4Ok [] results)).toList.map (⟨4, ·⟩)

theorem queued_lateMessages : Queued lateMessages lateClient := by
  unfold Queued
  decide +kernel

def obligingExchange (w : WriteArgs) (i : ℕ) : Exchange :=
  ⟨true, Answer.single (obligingServer.reply
    (writeOps lateClient ((lateClient.sequenceId + i) % 2 ^ 32) w)), 0, 1000⟩

theorem Answer.single_whole {a : Answer} {body : Bytes} (h : a ∈ Answer.single body) :
    a.first ++ a.more.flatten = body := by
  unfold Answer.single at h
  split_ifs at h with hlength
  · obtain rfl := Option.some.inj h
    exact List.append_nil body
  · cases h

theorem obligingExchange_answers (w : WriteArgs) (i : ℕ) :
    (obligingExchange w i).Answers (obligingServer.reply
      (writeOps lateClient ((lateClient.sequenceId + i) % 2 ^ 32) w)) :=
  fun _ ha => Answer.single_whole ha

/-- A new file has its data. -/
theorem writeFile_new_file :
    (exec (writeFile (sampleWrite "a") (obligingExchange (sampleWrite "a"))) lateClient).1 =
        .ok () ∧
      WriteIsComplete lateClient (sampleWrite "a") (obligingExchange (sampleWrite "a"))
        (fun _ => obligingServer) none := by
  refine ⟨by decide +kernel, ?_⟩
  rw [writeFile_complete_iff queued_lateMessages (sampleWrite "a")
    (obligingExchange_answers (sampleWrite "a"))]
  intro j hj _
  refine ⟨.inr ⟨0, Nat.succ_pos j, by decide⟩, ?_⟩
  obtain rfl | rfl | rfl : j = 0 ∨ j = 1 ∨ j = 2 := by omega
  · decide
  · decide
  · decide

/-- A file of which the old content is longer is reported as written, on the late reply to another
request, and keeps the end of it. -/
theorem longer_file_kept :
    ¬ ∀ (config : ClientConfig) (session : SessionExchanges) (c : Client),
      connect config session = some c → ∀ (calls : List ClientCall) (late : List Message),
        Queued late (Run.exec clientStep c calls) →
        ∀ (w : WriteArgs) (es : ℕ → Exchange) (ds : ℕ → Decision) (old : Option Bytes),
          w.data.length ≤ 16 * 1024 * 1024 →
          (∀ i, (es i).Answers ((ds i).reply (writeOps (Run.exec clientStep c calls)
            (((Run.exec clientStep c calls).sequenceId + i) % 2 ^ 32) w))) →
          WriteIsComplete (Run.exec clientStep c calls) w es ds old := by
  intro h
  have hcomplete := h _ _ _ connect_sample [lateLookup] lateMessages queued_lateMessages
    (sampleWrite "a") (obligingExchange (sampleWrite "a")) (fun _ => obligingServer)
    (some [9, 9, 9, 9, 9]) (by decide) (obligingExchange_answers (sampleWrite "a"))
  have hok : (exec (writeFile (sampleWrite "a") (obligingExchange (sampleWrite "a")))
      lateClient).1 = .ok () := by decide +kernel
  have hlength : (exec (writeFile (sampleWrite "a") (obligingExchange (sampleWrite "a")))
      lateClient).2.outbox.length - lateClient.outbox.length = 1 := by decide +kernel
  have hcontent := hcomplete hok
  rw [← lateClient, hlength] at hcontent
  exact absurd hcontent (by decide)

end Foxing.Nfs
