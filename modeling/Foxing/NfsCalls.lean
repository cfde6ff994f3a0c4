import Foxing.Lib.Run
import Foxing.NfsClient

/-!
# The calls of a client

A property of the client that has to do with its requests is followed through all calls at once:
what a call keeps is told by what a single request keeps, with what is true before it, once it
has a sequence number, and after it has failed.
-/
namespace Foxing.Nfs
open Failing

inductive ClientCall where
  | writeFile (w : WriteArgs) (es : ℕ → Exchange)
  | getOrResolveHandle (dirPath : Path) (mountHandle : Except String Bytes) (e : Exchange)
  | batchStat (dirHandle : Bytes) (filenames : List String) (e : Exchange)
  | recoverSession (connects : Bool) (es : SessionExchanges)

namespace ClientCall

/-- Does the call return without an error? And the client after it. -/
def outcome (c : Client) : ClientCall → Bool × Client
  | .writeFile w es =>
    let r := exec (Nfs.writeFile w es) c
    (r.1.isOk, r.2)
  | .getOrResolveHandle dirPath mountHandle e =>
    let r := exec (Nfs.getOrResolveHandle dirPath mountHandle e) c
    (r.1.isOk, r.2)
  | .batchStat dirHandle filenames e =>
    let r := exec (Nfs.batchStat dirHandle filenames e) c
    (r.1.isOk, r.2)
  | .recoverSession connects es =>
    let r := exec (Nfs.recoverSession connects es) c
    (r.1.isOk, r.2)

/-- Is a request of the session made by the call? The handle of a directory may be known. -/
def inSession (c : Client) : ClientCall → Bool
  | .writeFile _ _ | .batchStat _ _ _ => true
  | .getOrResolveHandle dirPath _ _ => (c.dirHandleCache.lookup dirPath).isNone
  | .recoverSession _ _ => false

end ClientCall

def clientStep (c : Client) (call : ClientCall) : Client := (call.outcome c).2

/-! ## Properties of the requests -/

/-- What is true between two calls, before a request of the session, when such a request has taken
a sequence number and after it has failed, and before a request that is not in a session. -/
structure Tracked where
  between : Client → Prop
  ready : Client → Prop
  taken : ℕ → Client → Prop
  failed : NfsError → Client → Prop
  outside : Client → Prop

namespace Tracked

/-- The requests keep the property. -/
structure Sound (t : Tracked) : Prop where
  ready_xid : ∀ c n, t.ready c → t.ready { c with xidCounter := n }
  taken_xid : ∀ c n k, t.taken k c → t.taken k { c with xidCounter := n }
  outside_xid : ∀ c n, t.outside c → t.outside { c with xidCounter := n }
  take : ∀ c, t.ready c →
    t.taken c.sequenceId { c with sequenceId := (c.sequenceId + 1) % 2 ^ 32 }
  call : ∀ xid k msg e, Triple (t.taken k) (call xid (some k) msg e) (fun _ => t.ready) t.failed
  skip : ∀ c k, t.taken k c → t.between { c with skipped := true }
  ready_failed : ∀ c error, t.ready c → t.failed error c
  retry : ∀ c message, t.failed (.nfs4Error 10013 message) c → t.ready c
  ready_between : ∀ c, t.ready c → t.between c
  failed_between : ∀ c error, t.failed error c → t.between c
  cache : ∀ c handles, t.between c → t.between { c with dirHandleCache := handles }
  call_outside : ∀ xid msg e,
    Triple t.outside (Nfs.call xid none msg e) (fun _ => t.outside) (fun _ => t.between)
  outside_between : ∀ c, t.outside c → t.between c
  outside_client : ∀ c clientId, t.outside c → t.outside { c with clientId }
  new_session : ∀ c sessionId, t.outside c → t.ready { c with
    sessionId, sequenceId := 1, sessions := c.sessions + 1, skipped := false }
  reconnect : ∀ c, t.between c → t.outside { c with inbox := [], torn := false }

variable {t : Tracked} {E : NfsError → Client → Prop}

theorem nextXid_keeps {P : Client → Prop} (h : ∀ c n, P c → P { c with xidCounter := n }) :
    Triple P nextXid (fun _ => P) E := by
  refine Triple.bind knows_get fun c' => ?_
  refine Triple.bind (Triple.set fun c hc => ?_) fun _ => Triple.pure fun c hc => hc
  rw [hc.2] at hc
  exact h _ _ hc.1

theorem Sound.nextSequenceId (h : t.Sound) :
    Triple t.ready nextSequenceId (fun k => t.taken k) E := by
  refine Triple.bind knows_get fun c' => ?_
  refine Triple.bind (Triple.set fun c hc => ?_) fun _ => Triple.pure fun c hc => hc
  rw [hc.2] at hc
  exact h.take _ hc.1

/-! ### Establishing a session -/

theorem Sound.doExchangeId (h : t.Sound) (verifier : ℕ) (e : Exchange) :
    Triple t.outside (doExchangeId verifier e) (fun _ => t.outside) (fun _ => t.between) := by
  refine Triple.bind (nextXid_keeps h.outside_xid) fun xid => ?_
  refine Triple.bind keeps_get fun c => ?_
  refine Triple.bind (h.call_outside xid _ e) fun r => ?_
  obtain ⟨reply, data⟩ := r
  refine Triple.ite (fun _ => Triple.throw h.outside_between) fun _ => ?_
  split
  · exact Triple.pure fun c hc => hc
  · exact Triple.throw h.outside_between

theorem Sound.doCreateSession (h : t.Sound) (clientId : ℕ) (e : Exchange) :
    Triple t.outside (doCreateSession clientId e) (fun _ => t.outside) (fun _ => t.between) := by
  refine Triple.bind (nextXid_keeps h.outside_xid) fun xid => ?_
  refine Triple.bind keeps_get fun c => ?_
  refine Triple.bind (h.call_outside xid _ e) fun r => ?_
  obtain ⟨reply, data⟩ := r
  refine Triple.ite (fun _ => Triple.throw h.outside_between) fun _ => ?_
  split
  · exact Triple.pure fun c hc => hc
  · exact Triple.throw h.outside_between

theorem Sound.doReclaimComplete (h : t.Sound) (e : Exchange) :
    Triple t.ready (doReclaimComplete e) (fun _ => t.ready) t.failed := by
  refine Triple.bind h.nextSequenceId fun k => ?_
  refine Triple.bind keeps_get fun c => ?_
  refine Triple.bind (nextXid_keeps fun c n => h.taken_xid c n k) fun xid => ?_
  refine Triple.bind (h.call xid k _ e) fun r => ?_
  obtain ⟨reply, data⟩ := r
  exact Triple.ite (fun _ => Triple.throw fun c hc => h.ready_failed c _ hc)
    fun _ => Triple.pure fun c hc => hc

theorem Sound.establishSession (h : t.Sound) (es : SessionExchanges) :
    Triple t.outside (establishSession es) (fun _ => t.ready) (fun _ => t.between) := by
  refine Triple.bind (h.doExchangeId _ _) fun clientId => ?_
  refine Triple.bind (keeps_modify fun c => h.outside_client c clientId) fun _ => ?_
  refine Triple.bind (h.doCreateSession _ _) fun sessionId => ?_
  refine Triple.bind (Triple.modify (Q := fun _ => t.ready)
    fun c => h.new_session c sessionId) fun _ => ?_
  exact (h.doReclaimComplete _).imp (fun _ hc => hc) (fun _ _ hc => hc)
    fun error c => h.failed_between c error

theorem Sound.recoverSession (h : t.Sound) (connects : Bool) (es : SessionExchanges) :
    Triple t.between (recoverSession connects es) (fun _ => t.between) (fun _ => t.between) := by
  unfold Nfs.recoverSession
  refine Triple.ite (fun _ => ?_) fun _ => Triple.throw fun c hc => hc
  refine Triple.bind (Triple.modify (Q := fun _ => t.outside) h.reconnect) fun _ => ?_
  refine Triple.bind (h.establishSession es) fun _ => ?_
  exact Triple.modify fun c hc => h.cache c [] (h.ready_between c hc)

/-! ### Requests of the session -/

theorem Sound.writeFileInner (h : t.Sound) (w : WriteArgs) (e : Exchange) :
    Triple t.ready (writeFileInner w e) (fun _ => t.ready) t.failed := by
  refine Triple.bind (nextXid_keeps h.ready_xid) fun xid => ?_
  refine Triple.bind h.nextSequenceId fun k => ?_
  refine Triple.bind keeps_get fun c => ?_
  refine Triple.bind (h.call xid k _ e) fun r => ?_
  obtain ⟨reply, data⟩ := r
  dsimp only
  split
  · exact Triple.throw fun c hc => h.ready_failed c _ hc
  · exact Triple.pure fun c hc => hc

theorem Sound.writeFileFrom (h : t.Sound) (w : WriteArgs) (es : ℕ → Exchange)
    (left attempt : ℕ) :
    Triple t.ready (writeFileFrom w es left attempt) (fun _ => t.ready) t.failed := by
  induction left generalizing attempt with
  | zero => exact h.writeFileInner w (es attempt)
  | succ left ih =>
    refine Triple.tryCatch (h.writeFileInner w (es attempt)) fun error => ?_
    split
    · exact (ih (attempt + 1)).imp (fun c hc => h.retry c _ hc) (fun _ _ hc => hc)
        fun _ _ hc => hc
    · exact Triple.throw fun c hc => hc

theorem Sound.writeFile (h : t.Sound) (w : WriteArgs) (es : ℕ → Exchange) :
    Triple t.ready (writeFile w es) (fun _ => t.between) (fun _ => t.between) := by
  have hloop := (h.writeFileFrom w es 2 0).imp (fun _ hc => hc) (fun _ => h.ready_between)
    fun _ _ hc => hc
  refine Triple.tryCatch hloop fun error => ?_
  split
  · exact Triple.throw fun c => h.failed_between c _
  · exact Triple.throw fun c => h.failed_between c _

theorem Sound.resolveViaLookup (h : t.Sound) (relPath : Path)
    (mountHandle : Except String Bytes) (e : Exchange) :
    Triple t.ready (resolveViaLookup relPath mountHandle e) (fun _ => t.between)
      (fun _ => t.between) := by
  refine Triple.bind (nextXid_keeps h.ready_xid) fun xid => ?_
  refine Triple.bind h.nextSequenceId fun k => ?_
  split
  · refine Triple.bind (Triple.modify (Q := fun _ => t.between) fun c => h.skip c k) fun _ => ?_
    exact Triple.throw fun c hc => hc
  · refine Triple.bind keeps_get fun c => ?_
    refine Triple.bind ((h.call xid k _ e).imp (fun _ hc => hc) (fun _ _ hc => hc)
      fun error c => h.failed_between c error) fun r => ?_
    obtain ⟨reply, data⟩ := r
    refine Triple.ite (fun _ => Triple.throw h.ready_between) fun _ => ?_
    split
    · exact Triple.pure h.ready_between
    · exact Triple.throw h.ready_between

/-- Where the handle is not known yet, a request is made. -/
theorem Sound.getOrResolveHandle (h : t.Sound) (dirPath : Path)
    (mountHandle : Except String Bytes) (e : Exchange) :
    Triple (fun c => t.between c ∧
        ((c.dirHandleCache.lookup dirPath).isNone = true → t.ready c))
      (getOrResolveHandle dirPath mountHandle e) (fun _ => t.between) (fun _ => t.between) := by
  refine Triple.bind knows_get fun c' => ?_
  cases hcached : c'.dirHandleCache.lookup dirPath with
  | some cached => exact Triple.pure fun c hc => hc.1.1
  | none =>
    refine Triple.bind ((h.resolveViaLookup _ mountHandle e).imp (fun c hc => ?_)
      (fun _ _ hc => hc) fun _ _ hc => hc) fun handle => ?_
    · obtain ⟨⟨-, hready⟩, rfl⟩ := hc
      exact hready (by rw [hcached]; rfl)
    · exact Triple.bind (keeps_modify fun c => h.cache c _) fun _ => Triple.pure fun c hc => hc

theorem Sound.batchStat (h : t.Sound) (dirHandle : Bytes) (filenames : List String)
    (e : Exchange) :
    Triple t.ready (batchStat dirHandle filenames e) (fun _ => t.between) (fun _ => t.between) := by
  refine Triple.bind (nextXid_keeps h.ready_xid) fun xid => ?_
  refine Triple.bind h.nextSequenceId fun k => ?_
  refine Triple.bind keeps_get fun c => ?_
  refine Triple.bind ((h.call xid k _ e).imp (fun _ hc => hc) (fun _ _ hc => hc)
    fun error c => h.failed_between c error) fun reply => ?_
  exact Triple.pure h.ready_between

/-! ### Runs -/

theorem between_of_triple {α : Type} {m : NfsM α} {P : Client → Prop} {c : Client}
    (h : Triple P m (fun _ => t.between) (fun _ => t.between)) (hc : P c) :
    t.between (exec m c).2 := by
  obtain ⟨hok, herror⟩ := h c hc
  cases hm : exec m c with
  | mk result c' =>
    cases result with
    | ok a => exact hok a c' hm
    | error e => exact herror e c' hm

/-- A call keeps the property if its requests may be made. -/
theorem Sound.step (h : t.Sound) {c : Client} {call : ClientCall}
    (hready : call.inSession c = true → t.ready c) (hc : t.between c) :
    t.between (clientStep c call) := by
  cases call with
  | writeFile w es => exact between_of_triple (h.writeFile w es) (hready rfl)
  | getOrResolveHandle dirPath mountHandle e =>
    exact between_of_triple (h.getOrResolveHandle dirPath mountHandle e) ⟨hc, hready⟩
  | batchStat dirHandle filenames e =>
    exact between_of_triple (h.batchStat dirHandle filenames e) (hready rfl)
  | recoverSession connects es => exact between_of_triple (h.recoverSession connects es) hc

/-- A client that has been made has the property if a new one has it. -/
theorem Sound.connect (h : t.Sound) {config : ClientConfig} {es : SessionExchanges} {c : Client}
    (hfresh : t.outside (Client.fresh config)) (hconnect : connect config es = some c) :
    t.ready c := by
  have hsession := h.establishSession es (Client.fresh config) hfresh
  unfold Nfs.connect at hconnect
  cases hexec : exec (Nfs.establishSession es) (Client.fresh config) with
  | mk result c' =>
    rw [hexec] at hconnect
    cases result with
    | ok a =>
      obtain rfl := Option.some.inj hconnect
      exact hsession.1 a c' hexec
    | error e => cases hconnect

end Tracked

/-! ## A client with a session -/

/-- A request that is answered in time. -/
def answered (status : ℕ) (results : List Bytes) : Exchange :=
  ⟨true, Answer.single (encodeReply 0 [] status [] results), 0, 1000⟩

/-- The result of the `SEQUENCE` that begins a request. -/
def sequenceResult : Bytes := encodeResult opSequence nfs4Ok (List.replicate 36 0)

def sampleConfig : ClientConfig := ⟨⟨1000, 1000, []⟩, [], [], ["mnt"]⟩

def sampleSession : SessionExchanges where
  verifier := 7
  exchangeId := answered nfs4Ok
    [encodeResult opExchangeId nfs4Ok (Xdr.encodeU64 9 ++ List.replicate 32 0)]
  createSession := answered nfs4Ok
    [encodeResult opCreateSession nfs4Ok (List.replicate 16 5 ++ List.replicate 64 0)]
  reclaimComplete := answered nfs4Ok [sequenceResult, encodeResult opReclaimComplete nfs4Ok []]

def sampleClient : Client := (connect sampleConfig sampleSession).getD (Client.fresh sampleConfig)

theorem connect_sample : connect sampleConfig sampleSession = some sampleClient := by
  have h : (connect sampleConfig sampleSession).isSome = true := by decide +kernel
  obtain ⟨c, hc⟩ := Option.isSome_iff_exists.mp h
  rw [sampleClient, hc]
  rfl

end Foxing.Nfs
