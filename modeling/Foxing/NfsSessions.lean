import Foxing.NfsCalls

/-!
# Sequence numbers and replies

The requests of a session have consecutive numbers as long as no number is taken by a request
that is not sent: the counter has gone on, and the server will not have the next number. A reply
belongs to the request it is taken for as long as nothing is left in the connection when the
request is written: what has come too late is read by the next call.
-/
namespace Foxing.Nfs
open Failing

/-! ## Sequence numbers -/

/-- The part of a client that the numbers of its requests depend on. -/
structure Numbering where
  sequenceId : ℕ
  sessions : ℕ
  sent : List (ℕ × ℕ)
  skipped : Bool
  deriving DecidableEq, Repr

def Client.numbering (c : Client) : Numbering := ⟨c.sequenceId, c.sessions, c.sent, c.skipped⟩

namespace Numbering
variable (n : Numbering)

/-- The numbers that have been sent in a session. -/
def idsOf (session : ℕ) : List ℕ := (n.sent.filter (·.1 = session)).map Prod.snd

/-- The numbers from one on, as far as they have been sent. -/
def Consecutive (session : ℕ) : Prop :=
  n.idsOf session = (List.range (n.idsOf session).length).map fun i => (i + 1) % 2 ^ 32

/-- All numbers are in order so far. -/
structure Ordered : Prop where
  consecutive : ∀ session, n.Consecutive session
  sessions : ∀ x ∈ n.sent, x.1 ≤ n.sessions

/-- The next number is the one that has not been sent. -/
structure Ready : Prop extends Ordered n where
  kept : n.skipped = false
  next : n.sequenceId = ((n.idsOf n.sessions).length + 1) % 2 ^ 32

/-- A number has been taken and is about to be sent. -/
structure Taken (seqId : ℕ) : Prop extends Ordered n where
  kept : n.skipped = false
  taken : seqId = ((n.idsOf n.sessions).length + 1) % 2 ^ 32
  next : n.sequenceId = ((n.idsOf n.sessions).length + 2) % 2 ^ 32

variable {n}

theorem Ready.take (h : n.Ready) :
    Taken { n with sequenceId := (n.sequenceId + 1) % 2 ^ 32 } n.sequenceId := by
  refine ⟨⟨h.consecutive, h.sessions⟩, h.kept, h.next, ?_⟩
  dsimp only [idsOf]
  rw [h.next, Nat.mod_add_mod]
  rfl

theorem Taken.send {seqId : ℕ} (h : n.Taken seqId) :
    Ready { n with sent := n.sent ++ [(n.sessions, seqId)] } := by
  have hids : ∀ session, idsOf { n with sent := n.sent ++ [(n.sessions, seqId)] } session =
      n.idsOf session ++ if n.sessions = session then [seqId] else [] := by
    intro session
    unfold idsOf
    rw [List.filter_append, List.map_append]
    by_cases heq : n.sessions = session <;> simp [heq]
  refine ⟨⟨fun session => ?_, fun x hx => ?_⟩, h.kept, ?_⟩
  · unfold Consecutive
    rw [hids]
    split_ifs with heq
    · subst heq
      rw [List.length_append, List.length_singleton, List.range_succ, List.map_append,
        ← h.consecutive n.sessions, h.taken]
      rfl
    · rw [List.append_nil]
      exact h.consecutive session
  · rcases List.mem_append.mp hx with hx | hx
    · exact h.sessions x hx
    · rw [List.mem_singleton.mp hx]
  · dsimp only
    rw [hids, if_pos rfl, List.length_append, List.length_singleton]
    exact h.next

/-- A session that has just been created has no numbers yet. -/
theorem Ordered.newSession (h : n.Ordered) :
    Ready ⟨1, n.sessions + 1, n.sent, false⟩ := by
  have hnone : idsOf ⟨1, n.sessions + 1, n.sent, false⟩ (n.sessions + 1) = [] := by
    unfold idsOf
    rw [List.map_eq_nil_iff, List.filter_eq_nil_iff]
    intro x hx
    have := h.sessions x hx
    simp only [decide_eq_true_eq]
    omega
  refine ⟨⟨h.consecutive, fun x hx => ?_⟩, rfl, ?_⟩
  · exact Nat.le_succ_of_le (h.sessions x hx)
  · dsimp only
    rw [hnone]
    rfl

/-- Between two calls: the numbers are in order, and the next one fits unless one is missing. -/
def Settled (n : Numbering) : Prop := n.Ordered ∧ (n.skipped = false → n.Ready)

theorem Ready.settled (h : n.Ready) : n.Settled := ⟨h.toOrdered, fun _ => h⟩

/-- After a request that could not be sent. -/
theorem Taken.skip {seqId : ℕ} (h : n.Taken seqId) : Settled { n with skipped := true } :=
  ⟨⟨h.consecutive, h.sessions⟩, fun hkept => Bool.noConfusion hkept⟩

end Numbering

section Numbers
variable {p : Numbering → Prop} {E : NfsError → Client → Prop}

/-- Errors after which the numbers are in order. Only one that has to do with the connection may
mean that a number is missing. -/
def NumberError (error : NfsError) (c : Client) : Prop :=
  c.numbering.Settled ∧ (c.numbering.Ready ∨ error = .connectionFailed)

theorem send_taken_numbers (xid k : ℕ) (msg : Bytes) (e : Exchange) :
    Triple (fun c => c.numbering.Taken k) (send xid (some k) msg e) (fun _ c => c.numbering.Ready)
      NumberError := by
  unfold send
  refine Triple.ite (fun _ => Triple.modify fun c h => h.send) fun _ => ?_
  refine Triple.bind (keeps_modify fun c h => h) fun _ => ?_
  rw [if_pos (by rfl)]
  refine Triple.bind (Triple.modify (Q := fun _ c => c.numbering.Settled) fun c h => h.skip)
    fun _ => Triple.throw fun c h => ⟨h, .inr rfl⟩

theorem send_none_numbers (xid : ℕ) (msg : Bytes) (e : Exchange) :
    Triple (fun c => p c.numbering) (send xid none msg e) (fun _ c => p c.numbering)
      (fun _ c => p c.numbering) := by
  unfold send
  refine Triple.ite (fun _ => Triple.modify fun c h => ?_) fun _ => ?_
  · simpa [Client.numbering] using h
  · refine Triple.bind (keeps_modify fun c h => h) fun _ => ?_
    rw [if_neg (by simp)]
    exact Triple.throw fun c h => h

theorem readReply_numbers (e : Exchange) :
    Triple (fun c => p c.numbering) (readReply e) (fun _ c => p c.numbering)
      (fun _ c => p c.numbering) := by
  unfold readReply
  refine Triple.bind knows_get fun c' => ?_
  refine Triple.bind (Triple.set (Q := fun _ c => p c.numbering) fun c h => ?_) fun _ => ?_
  · rw [h.2] at h
    exact h.1
  · split
    · exact Triple.pure fun c h => h
    · exact Triple.throw fun c h => h

theorem receive_numbers (xid : ℕ) (e : Exchange) :
    Triple (fun c => p c.numbering) (receive xid e) (fun _ c => p c.numbering)
      (fun _ c => p c.numbering) := by
  refine Triple.bind (readReply_numbers e) fun data => ?_
  split
  · exact Triple.bind (keeps_modify fun c h => h) fun _ => Triple.pure fun c h => h
  · exact Triple.throw fun c h => h

theorem call_taken_numbers (xid k : ℕ) (msg : Bytes) (e : Exchange) :
    Triple (fun c => c.numbering.Taken k) (call xid (some k) msg e)
      (fun _ c => c.numbering.Ready) NumberError :=
  Triple.bind (send_taken_numbers xid k msg e) fun _ =>
    (receive_numbers xid e).imp (fun _ h => h) (fun _ _ h => h) fun _ _ h => ⟨h.settled, .inl h⟩

theorem call_none_numbers (xid : ℕ) (msg : Bytes) (e : Exchange) :
    Triple (fun c => p c.numbering) (call xid none msg e) (fun _ c => p c.numbering)
      (fun _ c => p c.numbering) :=
  Triple.bind (send_none_numbers xid msg e) fun _ => receive_numbers xid e

/-- The numbers as a property of the requests. -/
def numbers : Tracked where
  between c := c.numbering.Settled
  ready c := c.numbering.Ready
  taken k c := c.numbering.Taken k
  failed := NumberError
  outside c := c.numbering.Settled

theorem numbers_sound : numbers.Sound where
  ready_xid _ _ h := h
  taken_xid _ _ _ h := h
  outside_xid _ _ h := h
  take _ h := Numbering.Ready.take h
  call := call_taken_numbers
  skip _ _ h := Numbering.Taken.skip h
  ready_failed _ _ h := ⟨Numbering.Ready.settled h, .inl h⟩
  retry _ _ h := h.2.resolve_right (by simp)
  ready_between _ h := Numbering.Ready.settled h
  failed_between _ _ h := h.1
  cache _ _ h := h
  call_outside := call_none_numbers (p := Numbering.Settled)
  outside_between _ h := h
  outside_client _ _ h := h
  new_session _ _ h := h.1.newSession
  reconnect _ h := h

end Numbers

/-- A request of the session is made only if no number is missing. -/
def InSequence (c : Client) (call : ClientCall) : Prop :=
  call.inSession c = true → c.skipped = false

instance decidableInSequence (c : Client) (call : ClientCall) : Decidable (InSequence c call) :=
  inferInstanceAs (Decidable (_ → _))

theorem numbering_fresh (config : ClientConfig) : (Client.fresh config).numbering.Settled :=
  Numbering.Ready.settled ⟨⟨fun _ => rfl, by simp [Client.numbering, Client.fresh]⟩, rfl, rfl⟩

/-- If no request of a session is made after one of its numbers has been taken in vain, the
requests of each session have the numbers from one on. -/
theorem sequence_ids_consecutive {config : ClientConfig} {es : SessionExchanges} {c : Client}
    (hconnect : connect config es = some c) (calls : List ClientCall)
    (hcalls : Run.Along clientStep InSequence c calls) (p : List ClientCall) (hp : p <+: calls)
    (session : ℕ) : (Run.exec clientStep c p).numbering.Consecutive session := by
  have hstep : ∀ c call, InSequence c call → c.numbering.Settled →
      (clientStep c call).numbering.Settled :=
    fun c call hok h => numbers_sound.step (fun hsession => h.2 (hok hsession)) h
  have hstart : c.numbering.Settled :=
    (numbers_sound.connect (numbering_fresh config) hconnect).settled
  have hend := Run.invariant_prefix (I := fun c => c.numbering.Settled) clientStep hstep hcalls
    hstart p hp
  exact hend.1.consecutive session

/-- A directory is looked up and found, and files in it are asked for. -/
def lookupThenStat : List ClientCall :=
  [.getOrResolveHandle ["mnt", "d"] (.ok [1]) (answered nfs4Ok
      [sequenceResult, encodeResult opPutFh nfs4Ok [], encodeResult opLookup nfs4Ok [],
        encodeResult opGetFh nfs4Ok (Xdr.encodeOpaque [2])]),
    .batchStat [2] [] (answered nfs4Ok [sequenceResult, encodeResult opPutFh nfs4Ok []])]

theorem lookupThenStat_consecutive :
    Run.Along clientStep InSequence sampleClient lookupThenStat ∧
      (Run.exec clientStep sampleClient lookupThenStat).numbering.idsOf 1 = [1, 2, 3] ∧
      (Run.exec clientStep sampleClient lookupThenStat).numbering.Consecutive 1 := by
  have hcalls : Run.Along clientStep InSequence sampleClient lookupThenStat := by decide +kernel
  exact ⟨hcalls, by decide +kernel, sequence_ids_consecutive connect_sample lookupThenStat hcalls
    lookupThenStat (List.prefix_refl _) 1⟩

/-- The handle of the mount point is not found, then files of a directory are asked for. -/
def unresolvedThenStat : List ClientCall :=
  [.getOrResolveHandle ["mnt", "d"] (.error "No such file or directory") (answered nfs4Ok []),
    .batchStat [2] [] (answered nfs4Ok [sequenceResult, encodeResult opPutFh nfs4Ok []])]

/-- A number that has been taken by a request that is not sent is missing in the session. -/
theorem unsent_request_skips_id :
    ¬ ∀ (config : ClientConfig) (es : SessionExchanges) (c : Client),
      connect config es = some c → ∀ (calls : List ClientCall) (session : ℕ),
        (Run.exec clientStep c calls).numbering.Consecutive session := by
  intro h
  have hconsecutive := h _ _ _ connect_sample unresolvedThenStat 1
  have hids : (Run.exec clientStep sampleClient unresolvedThenStat).numbering.idsOf 1 = [1, 3] := by
    decide +kernel
  rw [Numbering.Consecutive, hids] at hconsecutive
  exact absurd hconsecutive (by decide)

end Foxing.Nfs
