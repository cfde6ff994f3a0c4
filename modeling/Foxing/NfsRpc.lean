import Foxing.Lib.Xdr

/-!
# Compound requests and replies

A request is a list of operations behind a header, in a record with its length. A reply has a
status for the whole and results for the operations up to the first one that failed. Only what
is needed to get from one result to the next is decoded: the results behind that of an `OPEN`
are not looked at, and neither is the number of bytes that a `WRITE` has written.

Numbers of a fixed width are natural numbers, of which the encoding has the low bytes.
-/
namespace Foxing.Nfs

def opSequence : ℕ := 53
def opPutFh : ℕ := 22
def opOpen : ℕ := 18
def opWrite : ℕ := 38
def opSetAttr : ℕ := 34
def opClose : ℕ := 4
def opGetAttr : ℕ := 9
def opExchangeId : ℕ := 42
def opCreateSession : ℕ := 43
def opPutRootFh : ℕ := 24
def opLookup : ℕ := 15
def opGetFh : ℕ := 10
def opReclaimComplete : ℕ := 58

def nfs4Ok : ℕ := 0
def nfs4ErrStale : ℕ := 70
def nfs4ErrGrace : ℕ := 10013
def nfs4ErrBadSession : ℕ := 10052
def nfs4ErrBadSeq : ℕ := 10026
def nfs4ErrSeqMisordered : ℕ := 10063

def nfs4ErrorName (code : ℕ) : String :=
  if code = nfs4Ok then "NFS4_OK"
  else if code = 1 then "NFS4ERR_PERM"
  else if code = 2 then "NFS4ERR_NOENT"
  else if code = nfs4ErrStale then "NFS4ERR_STALE"
  else if code = 17 then "NFS4ERR_EXIST"
  else if code = 13 then "NFS4ERR_ACCESS"
  else if code = 10008 then "NFS4ERR_DELAY"
  else if code = nfs4ErrGrace then "NFS4ERR_GRACE"
  else if code = 10015 then "NFS4ERR_SHARE_DENIED"
  else if code = 10016 then "NFS4ERR_WRONGSEC"
  else if code = 10025 then "NFS4ERR_BAD_STATEID"
  else if code = nfs4ErrBadSession then "NFS4ERR_BADSESSION"
  else if code = nfs4ErrBadSeq then "NFS4ERR_BADSEQ"
  else if code = nfs4ErrSeqMisordered then "NFS4ERR_SEQ_MISORDERED"
  else "NFS4ERR_UNKNOWN"

/-- The errors that the calls report. -/
inductive NfsError where
  | connectionFailed
  | sessionFailed (message : String)
  | staleHandle (path : String)
  | nfs4Error (code : ℕ) (message : String)
  | xdrDecode (message : String)
  | rpcError (message : String)
  deriving DecidableEq, Repr

/-! ## Requests -/

structure StateId where
  seqid : ℕ
  other : Bytes
  deriving DecidableEq, Repr

/-- The state that the `OPEN` of the same request has made. -/
def StateId.current : StateId := ⟨1, List.replicate 12 0⟩

inductive WriteStable where
  | unstable | dataSync | fileSync
  deriving DecidableEq, Repr

def WriteStable.code : WriteStable → ℕ
  | .unstable => 0
  | .dataSync => 1
  | .fileSync => 2

inductive Nfs4Op where
  | sequence (sessionId : Bytes) (sequenceId slotId highestSlotId : ℕ) (cacheThis : Bool)
  | putFh (handle : Bytes)
  | putRootFh
  | lookup (name : Bytes)
  | open_ (seqid shareAccess shareDeny clientid : ℕ) (owner filename : Bytes) (mode : ℕ)
  | write (stateid : StateId) (offset : ℕ) (stable : WriteStable) (data : Bytes)
  | setAttr (stateid : StateId) (mode uid gid : Option ℕ) (mtime : Option (ℤ × ℤ))
  | close (seqid : ℕ) (stateid : StateId)
  | getAttr (attrRequest : ℕ × ℕ)
  | getFh
  | reclaimComplete
  deriving DecidableEq, Repr

/-- The bits of attributes within their words. -/
def fattr4SizeBit : ℕ := 4
def fattr4ModeBit : ℕ := 1
def fattr4OwnerBit : ℕ := 4
def fattr4OwnerGroupBit : ℕ := 5
def fattr4TimeModifySetBit : ℕ := 20
def fattr4TimeModifyBit : ℕ := 21

section Encoding
open Xdr

def encodeStateId (id : StateId) : Bytes := encodeU32 id.seqid ++ encodeOpaqueFixed id.other

/-- The two words of the attributes that a file is created with: only its mode. -/
def openBitmap : ℕ × ℕ := (0, 2 ^ fattr4ModeBit)

/-- The number of a user or group as a text. -/
def decimalText (n : ℕ) : Bytes := (Nat.toDigits 10 n).map fun c => Fin.ofNat 256 c.toNat

def bitIf (present : Bool) (bit : ℕ) : ℕ := if present then 2 ^ bit else 0

/-- A signed number of 64 bits as an unsigned one. -/
def unsigned64 (n : ℤ) : ℕ := (n % 2 ^ 64).toNat

def encodeAttrs (mode uid gid : Option ℕ) (mtime : Option (ℤ × ℤ)) : Bytes :=
  let word := bitIf mode.isSome fattr4ModeBit + bitIf uid.isSome fattr4OwnerBit +
    bitIf gid.isSome fattr4OwnerGroupBit + bitIf mtime.isSome fattr4TimeModifySetBit
  let values := mode.elim [] encodeU32 ++ uid.elim [] (encodeOpaque ∘ decimalText) ++
    gid.elim [] (encodeOpaque ∘ decimalText) ++
    mtime.elim [] fun t => encodeU32 1 ++ encodeU64 (unsigned64 t.1) ++ encodeU32 (unsigned64 t.2)
  encodeU32 2 ++ encodeU32 0 ++ encodeU32 word ++ encodeOpaque values

def encodeOp : Nfs4Op → Bytes
  | .sequence sessionId sequenceId slotId highestSlotId cacheThis =>
    encodeU32 opSequence ++ encodeOpaqueFixed sessionId ++ encodeU32 sequenceId ++
      encodeU32 slotId ++ encodeU32 highestSlotId ++ encodeBool cacheThis
  | .putFh handle => encodeU32 opPutFh ++ encodeOpaque handle
  | .putRootFh => encodeU32 opPutRootFh
  | .lookup name => encodeU32 opLookup ++ encodeOpaque name
  | .open_ seqid shareAccess shareDeny clientid owner filename mode =>
    encodeU32 opOpen ++ encodeU32 seqid ++ encodeU32 shareAccess ++ encodeU32 shareDeny ++
      encodeU64 clientid ++ encodeOpaque owner ++
      -- to be created, unchecked
      encodeU32 1 ++ encodeU32 0 ++
      encodeU32 2 ++ encodeU32 openBitmap.1 ++ encodeU32 openBitmap.2 ++
      encodeOpaque (encodeU32 (mode % 4096)) ++
      -- by its name
      encodeU32 0 ++ encodeOpaque filename
  | .write stateid offset stable data =>
    encodeU32 opWrite ++ encodeStateId stateid ++ encodeU64 offset ++ encodeU32 stable.code ++
      encodeOpaque data
  | .setAttr stateid mode uid gid mtime =>
    encodeU32 opSetAttr ++ encodeStateId stateid ++ encodeAttrs mode uid gid mtime
  | .close seqid stateid => encodeU32 opClose ++ encodeU32 seqid ++ encodeStateId stateid
  | .getAttr attrRequest =>
    encodeU32 opGetAttr ++ encodeU32 2 ++ encodeU32 attrRequest.1 ++ encodeU32 attrRequest.2
  | .getFh => encodeU32 opGetFh
  | .reclaimComplete => encodeU32 opReclaimComplete ++ encodeBool false

/-- Who sends the requests. -/
structure Credentials where
  uid : ℕ
  gid : ℕ
  machine : Bytes
  deriving DecidableEq, Repr

def encodeAuthSysBody (c : Credentials) : Bytes :=
  encodeU32 0 ++ encodeOpaque c.machine ++ encodeU32 c.uid ++ encodeU32 c.gid ++ encodeU32 1 ++
    encodeU32 c.gid

def encodeAuthSys (c : Credentials) : Bytes := encodeU32 1 ++ encodeOpaque (encodeAuthSysBody c)

/-- The header of a compound call, up to the number of its operations. -/
def encodeCallHeader (xid : ℕ) (tag : Bytes) (c : Credentials) (count : ℕ) : Bytes :=
  encodeU32 xid ++ encodeU32 0 ++ encodeU32 2 ++ encodeU32 100003 ++ encodeU32 4 ++ encodeU32 1 ++
    encodeAuthSys c ++ encodeU32 0 ++ encodeU32 0 ++
    encodeOpaque tag ++ encodeU32 2 ++ encodeU32 count

/-- A record that is the last fragment of its message. -/
def recordMark (body : Bytes) : Bytes := encodeU32 (2 ^ 31 ||| body.length % 2 ^ 32)

def buildCompound (xid : ℕ) (tag : Bytes) (c : Credentials) (ops : List Nfs4Op) : Bytes :=
  let body := encodeCallHeader xid tag c ops.length ++ ops.flatMap encodeOp
  recordMark body ++ body

end Encoding

/-! ## Replies -/

structure OpResult where
  op : ℕ
  status : ℕ
  stateid : Option StateId
  filehandle : Option Bytes
  size : Option ℕ
  mtime : Option (ℤ × ℤ)
  deriving DecidableEq, Repr

structure CompoundReply where
  xid : ℕ
  status : ℕ
  tag : Bytes
  opResults : List OpResult
  deriving DecidableEq, Repr

/-- The result of an operation as a server sends it. -/
def encodeResult (op status : ℕ) (body : Bytes) : Bytes :=
  Xdr.encodeU32 op ++ Xdr.encodeU32 status ++ body

/-- A reply as a server sends it, behind the number of the request. -/
def encodeReply (flavor : ℕ) (verifier : Bytes) (status : ℕ) (tag : Bytes)
    (results : List Bytes) : Bytes :=
  Xdr.encodeU32 1 ++ Xdr.encodeU32 0 ++ Xdr.encodeU32 flavor ++ Xdr.encodeOpaque verifier ++
    Xdr.encodeU32 0 ++ Xdr.encodeU32 status ++ Xdr.encodeOpaque tag ++
    Xdr.encodeU32 results.length ++ results.flatten

abbrev Parser (α : Type) := StateT Xdr.Decoder (Except NfsError) α

/-- What cannot be decoded is an error of its own. -/
def xdr {α : Type} (r : Xdr.Reader α) : Parser α := fun d =>
  match r d with
  | .ok p => .ok p
  | .error _ => .error (.xdrDecode "XDR: unexpected end of data")

def require (ok : Prop) [Decidable ok] (error : NfsError) : Parser Unit :=
  if ok then pure () else throw error

/-- What comes of one result: it is followed by others, it is the last one that is looked at, or
it belongs to an operation that is not known. -/
inductive Parsed where
  | next (r : OpResult)
  | last (r : OpResult)
  | unknown
  deriving DecidableEq, Repr

def plainResult (op status : ℕ) : OpResult := ⟨op, status, none, none, none, none⟩

/-- An unsigned number of 64 bits as a signed one. -/
def signed64 (n : ℕ) : ℤ := if n < 2 ^ 63 then n else (n : ℤ) - 2 ^ 64

section Parsing
open Xdr

/-- The size and the time of the last change, where the bitmap has them. -/
def parseAttrs (bitmap : List ℕ) (attrs : Bytes) : Option ℕ × Option (ℤ × ℤ) :=
  let first : Option ℕ × Decoder :=
    if (bitmap[0]?).any (·.testBit fattr4SizeBit) then
      match decodeU64 ⟨attrs, 0⟩ with
      | .ok (size, d) => (some size, d)
      | .error _ => (none, ⟨attrs, 0⟩)
    else (none, ⟨attrs, 0⟩)
  let time : Reader (ℤ × ℤ) := do
    let secs ← decodeU64
    let nsecs ← decodeU32
    return (signed64 secs, nsecs)
  let second :=
    if (bitmap[1]?).any (·.testBit fattr4TimeModifyBit) then (time first.2).toOption.map Prod.fst
    else none
  (first.1, second)

/-- A number of words. -/
def decodeWords : ℕ → Reader (List ℕ)
  | 0 => pure []
  | n + 1 => do
    let word ← decodeU32
    let words ← decodeWords n
    return word :: words

/-- As much of a result as is needed to get behind it. -/
def parseOpBody (op status : ℕ) : Parser Parsed := do
  if status ≠ nfs4Ok then return .next (plainResult op status)
  else if op = opSequence then
    xdr (skipRaw 36)
    return .next (plainResult op status)
  else if op = opPutFh ∨ op = opPutRootFh ∨ op = opLookup ∨ op = opReclaimComplete then
    return .next (plainResult op status)
  else if op = opGetFh then
    let handle ← xdr decodeOpaque
    return .next { plainResult op status with filehandle := some handle }
  else if op = opOpen then
    let seqid ← xdr decodeU32
    let other ← xdr (decodeOpaqueFixed 12)
    return .last { plainResult op status with stateid := some ⟨seqid, other⟩ }
  else if op = opWrite then
    xdr (skipRaw 16)
    return .next (plainResult op status)
  else if op = opSetAttr then
    let count ← xdr decodeU32
    xdr (skipRaw (count * 4))
    return .next (plainResult op status)
  else if op = opClose then
    xdr (skipRaw 16)
    return .next (plainResult op status)
  else if op = opGetAttr then
    let count ← xdr decodeU32
    let bitmap ← xdr (decodeWords count)
    let attrs ← xdr decodeOpaque
    let (size, mtime) := parseAttrs bitmap attrs
    return .next { plainResult op status with size, mtime }
  else return .unknown

def parseOpResult : Parser Parsed := do
  let op ← xdr decodeU32
  let status ← xdr decodeU32
  parseOpBody op status

def parseOpResults : ℕ → Parser (List OpResult)
  | 0 => pure []
  | n + 1 => do
    let parsed ← parseOpResult
    match parsed with
    | .next r => do
      let rest ← parseOpResults n
      return r :: rest
    | .last r => return [r]
    | .unknown => return []

def parseReply : Parser CompoundReply := do
  let xid ← xdr decodeU32
  let msgType ← xdr decodeU32
  require (msgType = 1) (.rpcError s!"expected REPLY (1), got {msgType}")
  let replyStat ← xdr decodeU32
  require (replyStat = 0) (.rpcError s!"RPC rejected: {replyStat}")
  let _ ← xdr decodeU32
  let _ ← xdr decodeOpaque
  let acceptStat ← xdr decodeU32
  require (acceptStat = 0) (.rpcError s!"RPC accept error: {acceptStat}")
  let status ← xdr decodeU32
  let tag ← xdr decodeOpaque
  let count ← xdr decodeU32
  let opResults ← parseOpResults count
  return ⟨xid, status, tag, opResults⟩

section Runs
variable {α β : Type} {m : Parser α} {k : α → Parser β} {d d' : Decoder}

theorem run_bind_ok {a : α} (h : m d = .ok (a, d')) : (m >>= k) d = k a d' := by
  show (m d >>= fun p => k p.1 p.2) = _
  rw [h]
  rfl

/-- What a sequence of parsers has found was found by each of them. -/
theorem run_bind_eq_ok {r : β × Decoder} (h : (m >>= k) d = .ok r) :
    ∃ a d', m d = .ok (a, d') ∧ k a d' = .ok r := by
  cases hm : m d with
  | error e =>
    have herror : (m >>= k) d = .error e := by
      show (m d >>= fun p => k p.1 p.2) = _
      rw [hm]
      rfl
    rw [herror] at h
    cases h
  | ok p => exact ⟨p.1, p.2, rfl, (run_bind_ok hm).symm.trans h⟩

theorem xdr_ok {r : Reader α} {a : α} (h : r d = .ok (a, d')) : xdr r d = .ok (a, d') := by
  unfold xdr
  rw [h]

end Runs

end Parsing

/-- The message begins with its record mark. The room that is made for the results before
they are read is left out. -/
def parseCompoundReply (data : Bytes) : Except NfsError CompoundReply :=
  if data.length < 4 then .error (.xdrDecode "reply too short")
  else (parseReply ⟨data.drop 4, 0⟩).map Prod.fst

/-- The number of a reply is what follows the record mark. -/
theorem xid_of_parseCompoundReply {mark tail : Bytes} {xid : ℕ} {reply : CompoundReply}
    (hmark : mark.length = 4)
    (h : parseCompoundReply (mark ++ (Xdr.encodeU32 xid ++ tail)) = .ok reply) :
    reply.xid = xid % 2 ^ 32 := by
  unfold parseCompoundReply at h
  rw [if_neg (by simp [hmark]), List.drop_left' hmark] at h
  obtain ⟨d₀, hdecode, -⟩ := Xdr.decodeU32_ahead (Xdr.Decoder.ahead_zero (Xdr.encodeU32 xid ++ tail))
  cases hparse : parseReply ⟨Xdr.encodeU32 xid ++ tail, 0⟩ with
  | error e =>
    rw [hparse] at h
    cases h
  | ok r =>
    rw [hparse] at h
    obtain rfl : r.1 = reply := Except.ok.inj h
    unfold parseReply at hparse
    rw [run_bind_ok (xdr_ok hdecode)] at hparse
    obtain ⟨_, _, -, hparse⟩ := run_bind_eq_ok hparse
    obtain ⟨_, _, -, hparse⟩ := run_bind_eq_ok hparse
    obtain ⟨_, _, -, hparse⟩ := run_bind_eq_ok hparse
    obtain ⟨_, _, -, hparse⟩ := run_bind_eq_ok hparse
    obtain ⟨_, _, -, hparse⟩ := run_bind_eq_ok hparse
    obtain ⟨_, _, -, hparse⟩ := run_bind_eq_ok hparse
    obtain ⟨_, _, -, hparse⟩ := run_bind_eq_ok hparse
    obtain ⟨_, _, -, hparse⟩ := run_bind_eq_ok hparse
    obtain ⟨_, _, -, hparse⟩ := run_bind_eq_ok hparse
    obtain ⟨_, _, -, hparse⟩ := run_bind_eq_ok hparse
    obtain ⟨_, _, -, hparse⟩ := run_bind_eq_ok hparse
    obtain ⟨_, _, -, hparse⟩ := run_bind_eq_ok hparse
    cases hparse
    rfl

end Foxing.Nfs
