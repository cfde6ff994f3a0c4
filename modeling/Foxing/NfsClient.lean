import Foxing.FileSystem
import Foxing.Lib.Triple
import Foxing.NfsRpc

/-!
# The NFS client

A client has one connection and one session. A call takes a transaction number and mostly a
sequence number, writes its request to the connection and reads the next message from it. When a
message does not come in time the call fails, and what comes later is left in the connection.

What the network and the server do is given with each request: whether it can be written, what
the server answers, and how many of the bytes under way arrive before the time is over. An answer
carries the transaction number of its request. Beside the client stands a history: the requests
that have been sent, with the sequence numbers of each session, and the numbers of the replies
that have been taken for the answers to them.
-/
namespace Foxing.Nfs
open Xdr

/-! ## Messages -/

/-- The fragments of the answer of a server; the first one continues behind the number. -/
structure Answer where
  first : Bytes
  more : List Bytes
  short : first.length + 4 < 2 ^ 31 ∧ ∀ b ∈ more, b.length < 2 ^ 31

/-- Records, of which the last one is marked. -/
def frame : List Bytes → Bytes
  | [] => []
  | [b] => encodeU32 (2 ^ 31 + b.length) ++ b
  | b :: bs => encodeU32 b.length ++ b ++ frame bs

def Answer.message (a : Answer) (xid : ℕ) : Bytes := frame ((encodeU32 xid ++ a.first) :: a.more)

/-- An answer in one fragment, if it fits. -/
def Answer.single (body : Bytes) : Option Answer :=
  if h : body.length + 4 < 2 ^ 31 then
    some ⟨body, [], h, fun _ hb => absurd hb List.not_mem_nil⟩
  else none

/-- What happens to a request. Behind one that has been cut off on the connection the server may
answer under any number. -/
structure Exchange where
  written : Bool
  answer : Option Answer
  stray : ℕ
  arrives : ℕ

def maxFragment : ℕ := 16 * 1024 * 1024 + 4096

/-- The loop that reads the fragments of a message, with what has been read and what is left. A
read that fails has taken all that there was. -/
def readFragments : ℕ → Bytes → Bytes → Except NfsError Bytes × Bytes
  | 0, _, stream => (.error .connectionFailed, stream)
  | fuel + 1, result, stream =>
    if stream.length < 4 then (.error .connectionFailed, [])
    else
      let mark := ofBigEndian (stream.take 4)
      let length := mark % 2 ^ 31
      let body := stream.drop 4
      if maxFragment < length then
        (.error (.rpcError s!"reply fragment too large: {length} bytes"), body)
      else if body.length < length then (.error .connectionFailed, [])
      else
        let result := (if result = [] then stream.take 4 else result) ++ body.take length
        if 2 ^ 31 ≤ mark then (.ok result, body.drop length)
        else readFragments fuel result (body.drop length)

/-! ## The client -/

/-- The fields that do not change. -/
structure ClientConfig where
  creds : Credentials
  /-- The owner of the files that are opened, and of the session. -/
  openOwner : Bytes
  ownerId : Bytes
  mountPoint : Path

structure Client where
  config : ClientConfig
  sessionId : Bytes
  sequenceId : ℕ
  clientId : ℕ
  xidCounter : ℕ
  dirHandleCache : List (Path × Bytes)
  /-- The bytes that are under way on the connection, in order. -/
  inbox : Bytes
  /-- Has a request been cut off on the connection? -/
  torn : Bool
  /-- The requests that have been written. -/
  outbox : List Bytes
  /-- The number of sessions that have been created, and of those the sequence numbers sent. -/
  sessions : ℕ
  sent : List (ℕ × ℕ)
  /-- Has a sequence number of the session been taken by a request that was not sent? -/
  skipped : Bool
  /-- The numbers of requests and of the replies taken for the answers to them. -/
  matched : List (ℕ × ℕ)

/-- A call on a client; one that fails changes the client, too. -/
abbrev NfsM (α : Type) := Failing NfsError Client α

def nextXid : NfsM ℕ := do
  let c ← get
  set { c with xidCounter := (c.xidCounter + 1) % 2 ^ 32 }
  return c.xidCounter

def nextSequenceId : NfsM ℕ := do
  let c ← get
  set { c with sequenceId := (c.sequenceId + 1) % 2 ^ 32 }
  return c.sequenceId

/-- A sequence number is not going to be sent. -/
def skip : NfsM Unit := modify fun c => { c with skipped := true }

/-- Write a request, with the sequence number in it if it has one. -/
def send (xid : ℕ) (seqId : Option ℕ) (msg : Bytes) (e : Exchange) : NfsM Unit := do
  if e.written then
    modify fun c => { c with
      outbox := c.outbox ++ [msg]
      sent := c.sent ++ seqId.toList.map (c.sessions, ·)
      inbox := c.inbox ++ e.answer.elim [] (Answer.message · (if c.torn then e.stray else xid)) }
  else
    modify fun c => { c with torn := true }
    if seqId.isSome then skip
    throw .connectionFailed

/-- Read a message from what arrives in time. -/
def readReply (e : Exchange) : NfsM Bytes := do
  let c ← get
  let arrived := c.inbox.take e.arrives
  let (result, rest) := readFragments (arrived.length + 1) [] arrived
  set { c with inbox := rest ++ c.inbox.drop e.arrives }
  match result with
  | .ok message => return message
  | .error error => throw error

/-- The next message is taken for the answer to a request. -/
def receive (xid : ℕ) (e : Exchange) : NfsM (CompoundReply × Bytes) := do
  let data ← readReply e
  match parseCompoundReply data with
  | .ok reply =>
    modify fun c => { c with matched := c.matched ++ [(xid % 2 ^ 32, reply.xid)] }
    return (reply, data)
  | .error error => throw error

def call (xid : ℕ) (seqId : Option ℕ) (msg : Bytes) (e : Exchange) :
    NfsM (CompoundReply × Bytes) := do
  send xid seqId msg e
  receive xid e

/-- The first place of some bytes. -/
def position (data needle : Bytes) : Option ℕ :=
  (List.range (data.length + 1 - needle.length)).find? fun i =>
    (data.drop i).take needle.length = needle

/-- The bytes behind the result of an operation that has succeeded, wherever it is found. -/
def extractAfter (data : Bytes) (op n : ℕ) : Option Bytes :=
  (position data ([0, 0, 0, Fin.ofNat 256 op] ++ [0, 0, 0, 0])).bind fun pos =>
    if pos + 8 + n ≤ data.length then some ((data.drop (pos + 8)).take n) else none

def encodeExchangeId (verifier : ℕ) (ownerId : Bytes) : Bytes :=
  encodeU32 opExchangeId ++ encodeU64 verifier ++ encodeOpaque ownerId ++ encodeU32 1 ++
    encodeU32 0 ++ encodeU32 0

def encodeCreateSession (clientId : ℕ) (creds : Credentials) : Bytes :=
  encodeU32 opCreateSession ++ encodeU64 clientId ++ encodeU32 1 ++ encodeU32 0 ++
    -- the channel to the server: 16 operations in a request, one request at a time
    encodeU32 0 ++ encodeU32 (16 * 1024 * 1024 + 4096) ++ encodeU32 (1024 * 1024) ++
    encodeU32 4096 ++ encodeU32 16 ++ encodeU32 1 ++ encodeU32 0 ++
    -- the channel back, which is not used
    encodeU32 0 ++ encodeU32 4096 ++ encodeU32 4096 ++ encodeU32 0 ++ encodeU32 2 ++
    encodeU32 0 ++ encodeU32 0 ++
    encodeU32 0x40000000 ++ encodeU32 1 ++ encodeU32 1 ++ encodeAuthSysBody creds

/-- A message with one operation that is not in a session. -/
def singleCall (xid : ℕ) (tag : Bytes) (creds : Credentials) (op : Bytes) : Bytes :=
  let body := encodeCallHeader xid tag creds 1 ++ op
  recordMark body ++ body

def asciiText (s : String) : Bytes := s.toList.map fun c => Fin.ofNat 256 c.toNat

def sessionError (what : String) (status : ℕ) : NfsError :=
  .sessionFailed (what ++ " failed: " ++ nfs4ErrorName status ++ " (" ++ toString status ++ ")")

def doExchangeId (verifier : ℕ) (e : Exchange) : NfsM ℕ := do
  let xid ← nextXid
  let c ← get
  let msg := singleCall xid (asciiText "exid") c.config.creds
    (encodeExchangeId verifier c.config.ownerId)
  let ⟨reply, data⟩ ← call xid none msg e
  if reply.status ≠ nfs4Ok then throw (sessionError "EXCHANGE_ID" reply.status)
  else
    match extractAfter data opExchangeId 8 with
    | some id => return ofBigEndian id
    | none => throw (.sessionFailed "cannot parse client_id from EXCHANGE_ID reply")

def doCreateSession (clientId : ℕ) (e : Exchange) : NfsM Bytes := do
  let xid ← nextXid
  let c ← get
  let msg := singleCall xid (asciiText "csess") c.config.creds
    (encodeCreateSession clientId c.config.creds)
  let ⟨reply, data⟩ ← call xid none msg e
  if reply.status ≠ nfs4Ok then throw (sessionError "CREATE_SESSION" reply.status)
  else
    match extractAfter data opCreateSession 16 with
    | some id => return id
    | none => throw (.sessionFailed "cannot parse session_id from CREATE_SESSION reply")

def sequenceOp (c : Client) (seqId : ℕ) : Nfs4Op := .sequence c.sessionId seqId 0 0 false

def doReclaimComplete (e : Exchange) : NfsM Unit := do
  let seqId ← nextSequenceId
  let c ← get
  let xid ← nextXid
  let msg := buildCompound xid (asciiText "rclm") c.config.creds
    [sequenceOp c seqId, .reclaimComplete]
  let ⟨reply, _⟩ ← call xid (some seqId) msg e
  if reply.status ≠ nfs4Ok then throw (sessionError "RECLAIM_COMPLETE" reply.status)
  else return ()

/-- What happens to the three requests for a session. -/
structure SessionExchanges where
  verifier : ℕ
  exchangeId : Exchange
  createSession : Exchange
  reclaimComplete : Exchange

def establishSession (es : SessionExchanges) : NfsM Unit := do
  let clientId ← doExchangeId es.verifier es.exchangeId
  modify fun c => { c with clientId }
  let sessionId ← doCreateSession clientId es.createSession
  modify fun c => { c with
    sessionId, sequenceId := 1, sessions := c.sessions + 1, skipped := false }
  doReclaimComplete es.reclaimComplete

/-- A client with a new connection, before it has a session. -/
def Client.fresh (config : ClientConfig) : Client where
  config := config
  sessionId := List.replicate 16 0
  sequenceId := 1
  clientId := 0
  xidCounter := 1
  dirHandleCache := []
  inbox := []
  torn := false
  outbox := []
  sessions := 0
  sent := []
  skipped := false
  matched := []

/-- The connection is made; there is no client if the session cannot be established. -/
def connect (config : ClientConfig) (es : SessionExchanges) : Option Client :=
  match Failing.exec (establishSession es) (Client.fresh config) with
  | (.ok _, c) => some c
  | (.error _, _) => none

/-- A new connection has nothing under way. The old one stays if it cannot be made. -/
def recoverSession (connects : Bool) (es : SessionExchanges) : NfsM Unit := do
  if connects then
    modify fun c => { c with inbox := [], torn := false }
    establishSession es
    modify fun c => { c with dirHandleCache := [] }
  else throw .connectionFailed

/-! ## Calls in a session -/

structure WriteArgs where
  parentHandle : Bytes
  filename : String
  data : Bytes
  mode : ℕ
  uid : ℕ
  gid : ℕ
  mtime : ℤ × ℤ
  deriving DecidableEq, Repr

def utf8 (s : String) : Bytes := s.toUTF8.data.toList.map fun b => Fin.ofNat 256 b.toNat

/-- The request that writes a file: it is opened, written, given its attributes and closed. -/
def writeOps (c : Client) (seqId : ℕ) (w : WriteArgs) : List Nfs4Op :=
  [sequenceOp c seqId, .putFh w.parentHandle,
    .open_ 0 2 0 c.clientId c.config.openOwner (utf8 w.filename) w.mode,
    .write .current 0 .fileSync w.data,
    .setAttr .current none (some w.uid) (some w.gid) (some w.mtime),
    .close 1 .current]

/-- The error of a reply to the request that writes a file. -/
def writeError (filename : String) (reply : CompoundReply) : Option NfsError :=
  if reply.status ≠ nfs4Ok then
    if reply.status = nfs4ErrBadSession ∨ reply.status = nfs4ErrBadSeq then
      some (.nfs4Error reply.status
        ("session error: " ++ nfs4ErrorName reply.status ++ " — needs recovery"))
    else if reply.status = nfs4ErrStale then some (.staleHandle filename)
    else some (.nfs4Error reply.status ("compound failed: " ++ nfs4ErrorName reply.status))
  else
    (reply.opResults.find? (·.status ≠ nfs4Ok)).map fun r =>
      .nfs4Error r.status
        ("op " ++ toString r.op ++ " failed: " ++ nfs4ErrorName r.status)

def writeFileInner (w : WriteArgs) (e : Exchange) : NfsM Unit := do
  let xid ← nextXid
  let seqId ← nextSequenceId
  let c ← get
  let msg := buildCompound xid (asciiText "fxcp") c.config.creds (writeOps c seqId w)
  let ⟨reply, _⟩ ← call xid (some seqId) msg e
  match writeError w.filename reply with
  | some error => throw error
  | none => return ()

/-- While the server is in its grace period the request is made up to three times. -/
def writeFileFrom (w : WriteArgs) (es : ℕ → Exchange) : ℕ → ℕ → NfsM Unit
  | 0, attempt => writeFileInner w (es attempt)
  | left + 1, attempt =>
    tryCatch (writeFileInner w (es attempt)) fun error =>
      match error with
      | .nfs4Error 10013 _ => writeFileFrom w es left (attempt + 1)
      | error => throw error

def writeFile (w : WriteArgs) (es : ℕ → Exchange) : NfsM Unit :=
  tryCatch (writeFileFrom w es 2 0) fun error =>
    match error with
    | .nfs4Error 10013 _ =>
      throw (.nfs4Error 10013 "server grace period persists after retries")
    | error => throw error

def debugPath (p : Path) : String := "\"" ++ "/".intercalate p ++ "\""

/-- The handle of the mount point is asked of the kernel after a sequence number has been taken. -/
def resolveViaLookup (relPath : Path) (mountHandle : Except String Bytes) (e : Exchange) :
    NfsM Bytes := do
  let xid ← nextXid
  let seqId ← nextSequenceId
  match mountHandle with
  | .error error => do
    skip
    throw (.staleHandle ("mount: " ++ error))
  | .ok mountFh => do
    let c ← get
    let ops := [sequenceOp c seqId, .putFh mountFh] ++ relPath.map (.lookup <| utf8 ·) ++ [.getFh]
    let msg := buildCompound xid (asciiText "lkup") c.config.creds ops
    let ⟨reply, _⟩ ← call xid (some seqId) msg e
    if reply.status ≠ nfs4Ok then
      throw (.nfs4Error reply.status
        ("LOOKUP for " ++ debugPath relPath ++ " failed: " ++ nfs4ErrorName reply.status))
    else
      match reply.opResults.findSome? fun r => if r.op = opGetFh then r.filehandle else none with
      | some handle => return handle
      | none => throw (.sessionFailed ("GETFH not found in reply for " ++ debugPath relPath))

/-- The path below the mount point, or none of it. -/
def belowMount (mountPoint dirPath : Path) : Path :=
  if mountPoint.isPrefixOf dirPath then dirPath.drop mountPoint.length else []

def getOrResolveHandle (dirPath : Path) (mountHandle : Except String Bytes) (e : Exchange) :
    NfsM Bytes := do
  let c ← get
  match c.dirHandleCache.lookup dirPath with
  | some cached => return cached
  | none => do
    let handle ← resolveViaLookup (belowMount c.config.mountPoint dirPath) mountHandle e
    modify fun c => { c with dirHandleCache := (dirPath, handle) :: c.dirHandleCache }
    return handle

/-- The entries of a batch from the results for its files. The first pair is missing, or an
operation on the file has failed, or its size and time are there. -/
def statEntries : List String → List OpResult → List (String × ℕ × ℤ × ℤ)
  | [], _ => []
  | _ :: _, [] => []
  | name :: names, lookup :: rest =>
    if lookup.status ≠ nfs4Ok then statEntries names rest.tail
    else
      match rest with
      | [] => []
      | attr :: rest =>
        (if attr.status = nfs4Ok then
          match attr.size, attr.mtime with
          | some size, some (secs, nsecs) => [(name, size, secs, nsecs)]
          | _, _ => []
        else []) ++ statEntries names rest

def batchStat (dirHandle : Bytes) (filenames : List String) (e : Exchange) :
    NfsM (List (String × ℕ × ℤ × ℤ)) := do
  let xid ← nextXid
  let seqId ← nextSequenceId
  let c ← get
  let ops := [sequenceOp c seqId, .putFh dirHandle] ++ filenames.flatMap fun name =>
    [.lookup (utf8 name), .getAttr (2 ^ fattr4SizeBit, 2 ^ fattr4TimeModifyBit)]
  let msg := buildCompound xid (asciiText "bstat") c.config.creds ops
  let ⟨reply, _⟩ ← call xid (some seqId) msg e
  return statEntries filenames (reply.opResults.drop 2)

end Foxing.Nfs
