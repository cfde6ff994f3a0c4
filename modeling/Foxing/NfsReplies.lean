import Foxing.NfsCalls

/-!
# Replies and their requests

The number of a reply is not compared with that of the request. A reply belongs to the request it
is taken for as long as nothing is left on the connection when the request is written: what has
come too late is read by the next call.
-/
namespace Foxing.Nfs
open Failing Xdr

/-! ## Messages in fragments -/

section Fragments
variable {fuel n k : ℕ} {result b tail m rest : Bytes}

/-- What has arrived of a record, if that is its mark at least. -/
theorem take_record (hk : 4 ≤ k) :
    (encodeU32 n ++ (b ++ tail)).take k = encodeU32 n ++ (b ++ tail).take (k - 4) := by
  rw [List.take_append, length_encodeU32, List.take_of_length_le (by simpa using hk)]

theorem take_whole_record (hk : 4 + b.length ≤ k) :
    (encodeU32 n ++ (b ++ tail)).take k =
      encodeU32 n ++ (b ++ tail.take (k - (4 + b.length))) := by
  rw [take_record (by omega), List.take_append, List.take_of_length_le (by omega), Nat.sub_sub]

/-- A record is read if it has arrived. -/
theorem readFragments_record (hn : n < 2 ^ 32) (hlength : n % 2 ^ 31 = b.length)
    (hmax : b.length ≤ maxFragment) :
    readFragments (fuel + 1) result (encodeU32 n ++ (b ++ tail)) =
      let read := (if result = [] then encodeU32 n else result) ++ b
      if 2 ^ 31 ≤ n then (.ok read, tail) else readFragments fuel read tail := by
  have hmark : ofBigEndian (encodeU32 n) = n := by
    rw [encodeU32, ofBigEndian_bigEndian]
    exact Nat.mod_eq_of_lt hn
  rw [readFragments, if_neg (by simp)]
  simp only [List.take_left' (length_encodeU32 n), List.drop_left' (length_encodeU32 n), hmark,
    hlength, List.take_left, List.drop_left, if_neg (not_lt.mpr hmax)]
  rw [if_neg (by simp)]

/-- A record that has been read had arrived. -/
theorem readFragments_arrived (hn : n < 2 ^ 32) (hlength : n % 2 ^ 31 = b.length)
    (h : readFragments (fuel + 1) result ((encodeU32 n ++ (b ++ tail)).take k) = (.ok m, rest)) :
    b.length ≤ maxFragment ∧ 4 + b.length ≤ k := by
  have hmark : ofBigEndian (encodeU32 n) = n := by
    rw [encodeU32, ofBigEndian_bigEndian]
    exact Nat.mod_eq_of_lt hn
  by_cases hk : 4 ≤ k
  · rw [take_record hk, readFragments, if_neg (by simp)] at h
    simp only [List.take_left' (length_encodeU32 n), List.drop_left' (length_encodeU32 n), hmark,
      hlength] at h
    by_cases hmax : maxFragment < b.length
    · rw [if_pos hmax] at h
      cases h
    · rw [if_neg hmax] at h
      by_cases hbody : ((b ++ tail).take (k - 4)).length < b.length
      · rw [if_pos hbody] at h
        cases h
      · simp only [List.length_take, List.length_append] at hbody
        omega
  · rw [readFragments, if_pos (by rw [List.length_take]; omega)] at h
    cases h

theorem frame_cons (b : Bytes) (bs : List Bytes) :
    frame (b :: bs) =
      encodeU32 (if bs = [] then 2 ^ 31 + b.length else b.length) ++ (b ++ frame bs) := by
  cases bs with
  | nil => simp [frame]
  | cons b' bs => simp [frame]

theorem length_le_frame (bs : List Bytes) : bs.length ≤ (frame bs).length := by
  induction bs with
  | nil => exact Nat.zero_le _
  | cons b bs ih =>
    rw [frame_cons, List.length_cons, List.length_append, length_encodeU32, List.length_append]
    omega

/-- The mark of a record tells its length and whether it is the last one. -/
theorem mark_record (bs : List Bytes) (hb : b.length < 2 ^ 31) :
    (if bs = [] then 2 ^ 31 + b.length else b.length) < 2 ^ 32 ∧
      (if bs = [] then 2 ^ 31 + b.length else b.length) % 2 ^ 31 = b.length ∧
      (2 ^ 31 ≤ (if bs = [] then 2 ^ 31 + b.length else b.length) ↔ bs = []) := by
  split_ifs with hbs
  · exact ⟨by omega, by omega, by simp [hbs]⟩
  · exact ⟨by omega, by omega, by simp only [hbs, iff_false]; omega⟩

/-- Once a fragment has been read there is something. -/
theorem started_ne_nil (b : Bytes) :
    (if result = [] then encodeU32 n else result) ++ b ≠ [] := by
  intro hempty
  have hlen := congrArg List.length hempty
  split_ifs at hlen with hresult
  · simp at hlen
  · simp [hresult] at hlen

/-- A message of which some has arrived is read whole or not at all, whatever is behind it. -/
theorem readFragments_frame_append {bs : List Bytes} {later : Bytes}
    (hshort : ∀ b ∈ bs, b.length < 2 ^ 31) (hne : bs ≠ [])
    (h : readFragments fuel result ((frame bs ++ later).take k) = (.ok m, rest)) :
    rest = later.take (k - (frame bs).length) ∧ (frame bs).length ≤ k ∧
      (∀ b ∈ bs, b.length ≤ maxFragment) ∧
      m = (if result = [] then (frame bs).take 4 else result) ++ bs.flatten := by
  induction bs generalizing fuel result k with
  | nil => exact absurd rfl hne
  | cons b bs ih =>
    obtain ⟨hb, hbs⟩ := List.forall_mem_cons.mp hshort
    obtain ⟨hn, hlength, hlast⟩ := mark_record bs hb
    cases fuel with
    | zero =>
      rw [readFragments] at h
      cases h
    | succ fuel =>
      rw [frame_cons] at h ⊢
      rw [List.append_assoc, List.append_assoc] at h
      obtain ⟨hmax, hk⟩ := readFragments_arrived hn hlength h
      rw [take_whole_record hk, readFragments_record hn hlength hmax] at h
      rw [List.take_left' (length_encodeU32 _), List.length_append, length_encodeU32,
        List.length_append, List.flatten_cons, ← List.append_assoc]
      by_cases hnil : bs = []
      · subst hnil
        dsimp only at h
        rw [if_pos (hlast.mpr rfl)] at h
        cases h
        exact ⟨rfl, hk, List.forall_mem_singleton.mpr hmax, by rw [List.flatten_nil,
          List.append_nil]⟩
      · dsimp only at h
        rw [if_neg fun hle => hnil (hlast.mp hle)] at h
        obtain ⟨hrest, hlen, hmore, hm⟩ := ih hbs hnil h
        refine ⟨?_, by omega, List.forall_mem_cons.mpr ⟨hmax, hmore⟩, ?_⟩
        · rw [hrest, Nat.sub_sub, Nat.add_assoc]
        · rw [hm, if_neg (started_ne_nil b)]

theorem readFragments_frame {bs : List Bytes} (hshort : ∀ b ∈ bs, b.length < 2 ^ 31)
    (hne : bs ≠ [])
    (h : readFragments fuel result ((frame bs).take k) = (.ok m, rest)) :
    rest = [] ∧ (frame bs).length ≤ k ∧ (∀ b ∈ bs, b.length ≤ maxFragment) ∧
      m = (if result = [] then (frame bs).take 4 else result) ++ bs.flatten := by
  rw [← List.append_nil (frame bs)] at h
  obtain ⟨hrest, hmessage⟩ := readFragments_frame_append hshort hne h
  exact ⟨by rw [hrest, List.take_nil], hmessage⟩

/-- A message that has arrived is read, and nothing behind it. -/
theorem readFragments_whole {bs : List Bytes} {later : Bytes}
    (hfit : ∀ b ∈ bs, b.length ≤ maxFragment) (hne : bs ≠ []) (hfuel : bs.length ≤ fuel) :
    readFragments fuel result (frame bs ++ later) =
      (.ok ((if result = [] then (frame bs).take 4 else result) ++ bs.flatten), later) := by
  induction bs generalizing fuel result with
  | nil => exact absurd rfl hne
  | cons b bs ih =>
    obtain ⟨hb, hbs⟩ := List.forall_mem_cons.mp hfit
    have hshort : b.length < 2 ^ 31 := by
      unfold maxFragment at hb
      omega
    obtain ⟨hn, hlength, hlast⟩ := mark_record bs hshort
    rw [List.length_cons] at hfuel
    obtain ⟨fuel, rfl⟩ : ∃ more, fuel = more + 1 := ⟨fuel - 1, by omega⟩
    rw [frame_cons, List.append_assoc, List.append_assoc, readFragments_record hn hlength hb,
      List.take_left' (length_encodeU32 _), List.flatten_cons, ← List.append_assoc]
    by_cases hnil : bs = []
    · subst hnil
      dsimp only
      rw [if_pos (hlast.mpr rfl), List.flatten_nil, List.append_nil, frame, List.nil_append]
    · dsimp only
      rw [if_neg fun hle => hnil (hlast.mp hle), ih hbs hnil (by omega),
        if_neg (started_ne_nil b)]

/-- Only the connection or the length of a fragment keeps a message from being read. -/
theorem readFragments_error {stream : Bytes} {error : NfsError}
    (h : readFragments fuel result stream = (.error error, rest)) (code : ℕ) (message : String) :
    error ≠ .nfs4Error code message := by
  induction fuel generalizing result stream with
  | zero =>
    rw [readFragments] at h
    cases h
    simp
  | succ fuel ih =>
    rw [readFragments] at h
    dsimp only at h
    by_cases hmark : stream.length < 4
    · rw [if_pos hmark] at h
      cases h
      simp
    rw [if_neg hmark] at h
    by_cases hmax : maxFragment < ofBigEndian (stream.take 4) % 2 ^ 31
    · rw [if_pos hmax] at h
      cases h
      simp
    rw [if_neg hmax] at h
    by_cases hbody : (stream.drop 4).length < ofBigEndian (stream.take 4) % 2 ^ 31
    · rw [if_pos hbody] at h
      cases h
      simp
    rw [if_neg hbody] at h
    by_cases hlast : 2 ^ 31 ≤ ofBigEndian (stream.take 4)
    · rw [if_pos hlast] at h
      cases h
    · rw [if_neg hlast] at h
      exact ih h

end Fragments

theorem Answer.fragments_short (a : Answer) (xid : ℕ) :
    ∀ b ∈ (encodeU32 xid ++ a.first) :: a.more, b.length < 2 ^ 31 := by
  obtain ⟨hfirst, hmore⟩ := a.short
  rw [List.forall_mem_cons, List.length_append, length_encodeU32]
  exact ⟨by omega, hmore⟩

/-! ## Requests and replies -/

/-- Each reply was taken for the answer to the request with its number. -/
def Paired (c : Client) : Prop := ∀ x ∈ c.matched, x.1 = x.2

/-- Nothing is under way on the connection. -/
structure Calm (c : Client) : Prop where
  paired : Paired c
  empty : c.inbox = []
  whole : c.torn = false

/-- Nothing but the answer to a request is under way, if there is one. -/
structure Awaiting (xid : ℕ) (c : Client) : Prop where
  paired : Paired c
  whole : c.torn = false
  answer : ∃ answer : Option Answer, c.inbox = answer.elim [] (·.message xid)

/-- After an error that a reply tells of, the reply has been read. -/
def ReplyError (error : NfsError) (c : Client) : Prop :=
  Paired c ∧ (Calm c ∨ ∀ code message, error ≠ .nfs4Error code message)

theorem Calm.failed {c : Client} (h : Calm c) (error : NfsError) : ReplyError error c :=
  ⟨h.paired, .inl h⟩

theorem send_replies (xid : ℕ) (seqId : Option ℕ) (msg : Bytes) (e : Exchange) :
    Triple Calm (send xid seqId msg e) (fun _ => Awaiting xid) ReplyError := by
  unfold send
  refine Triple.ite (fun _ => Triple.modify fun c h => ?_) fun _ => ?_
  · refine ⟨h.paired, h.whole, e.answer, ?_⟩
    dsimp only
    rw [h.empty, h.whole, List.nil_append, if_neg Bool.false_ne_true]
  · refine Triple.bind (Triple.modify (Q := fun _ => Paired) fun c h => h.paired) fun _ => ?_
    have hthrow : Triple Paired (throw .connectionFailed : NfsM Unit) (fun _ => Awaiting xid)
        ReplyError := Triple.throw fun c h => ⟨h, .inr (by simp)⟩
    refine Triple.ite (fun _ => ?_) fun _ => hthrow
    exact Triple.bind (keeps_modify fun c h => h) fun _ => hthrow

theorem exec_readReply {e : Exchange} {c : Client} {result : Except NfsError Bytes} {rest : Bytes}
    (h : readFragments ((c.inbox.take e.arrives).length + 1) [] (c.inbox.take e.arrives) =
      (result, rest)) :
    exec (readReply e) c = (result, { c with inbox := rest ++ c.inbox.drop e.arrives }) := by
  unfold readReply
  rw [exec_bind_ok (exec_get c)]
  dsimp only
  rw [h]
  cases result with
  | ok message => rfl
  | error error => rfl

/-- What has been read of a message: its first record mark and its fragments. -/
def received (fragments : List Bytes) : Bytes := (frame fragments).take 4 ++ fragments.flatten

/-- A message that has arrived is what the next read gives. -/
theorem readReply_received {e : Exchange} {c : Client} {fragments : List Bytes} {later : Bytes}
    (hfit : ∀ b ∈ fragments, b.length ≤ maxFragment) (hne : fragments ≠ [])
    (hinbox : c.inbox = frame fragments ++ later) (hlength : (frame fragments).length ≤ e.arrives) :
    exec (readReply e) c = (.ok (received fragments), { c with inbox := later }) := by
  have harrived : c.inbox.take e.arrives =
      frame fragments ++ later.take (e.arrives - (frame fragments).length) := by
    rw [hinbox, List.take_append, List.take_of_length_le hlength]
  have hleft : c.inbox.drop e.arrives = later.drop (e.arrives - (frame fragments).length) := by
    rw [hinbox, List.drop_append, List.drop_eq_nil_of_le hlength, List.nil_append]
  have hfuel : fragments.length ≤ (c.inbox.take e.arrives).length + 1 := by
    rw [harrived, List.length_append]
    have := length_le_frame fragments
    omega
  have hread : readFragments ((c.inbox.take e.arrives).length + 1) []
      (frame fragments ++ later.take (e.arrives - (frame fragments).length)) = _ :=
    readFragments_whole hfit hne hfuel
  rw [← harrived, if_pos rfl] at hread
  rw [exec_readReply hread, hleft, List.take_append_drop]
  rfl

/-- What is read when the answer to a request is under way: the whole of it, or nothing. -/
theorem readReply_answer {e : Exchange} {c : Client} {answer : Option Answer} {xid : ℕ}
    {data rest : Bytes} (hinbox : c.inbox = answer.elim [] (·.message xid))
    (h : readFragments ((c.inbox.take e.arrives).length + 1) [] (c.inbox.take e.arrives) =
      (.ok data, rest)) :
    rest ++ c.inbox.drop e.arrives = [] ∧
      ∃ mark tail, mark.length = 4 ∧ data = mark ++ (encodeU32 xid ++ tail) := by
  cases answer with
  | none =>
    rw [hinbox, Option.elim_none, List.take_nil, readFragments, if_pos (by decide)] at h
    cases h
  | some answer =>
    rw [hinbox, Option.elim_some, Answer.message] at h ⊢
    obtain ⟨hrest, hlength, -, hdata⟩ :=
      readFragments_frame (answer.fragments_short xid) (List.cons_ne_nil _ _) h
    rw [if_pos rfl, frame_cons, List.take_left' (length_encodeU32 _), List.flatten_cons,
      List.append_assoc] at hdata
    rw [hrest, List.nil_append, List.drop_eq_nil_of_le hlength]
    exact ⟨rfl, _, _, length_encodeU32 _, hdata⟩

theorem readReply_replies (xid : ℕ) (e : Exchange) :
    Triple (Awaiting xid) (readReply e)
      (fun data c => Calm c ∧ ∃ mark tail, mark.length = 4 ∧ data = mark ++ (encodeU32 xid ++ tail))
      ReplyError := by
  intro c h
  obtain ⟨hpaired, hwhole, answer, hinbox⟩ := h
  cases hread : readFragments ((c.inbox.take e.arrives).length + 1) [] (c.inbox.take e.arrives) with
  | mk result rest =>
    rw [exec_readReply hread]
    refine ⟨fun data c' hexec => ?_, fun error c' hexec => ?_⟩
    · cases hexec
      obtain ⟨hempty, hdata⟩ := readReply_answer hinbox hread
      exact ⟨⟨hpaired, hempty, hwhole⟩, hdata⟩
    · cases hexec
      exact ⟨hpaired, .inr (readFragments_error hread)⟩

theorem receive_replies (xid : ℕ) (e : Exchange) :
    Triple (Awaiting xid) (receive xid e) (fun _ => Calm) ReplyError := by
  refine Triple.bind (readReply_replies xid e) fun data => ?_
  split
  next reply hparse =>
    refine Triple.bind (Triple.modify (Q := fun _ => Calm) fun c h => ?_) fun _ =>
      Triple.pure fun c h => h
    obtain ⟨hcalm, mark, tail, hmark, rfl⟩ := h
    refine ⟨fun x hx => ?_, hcalm.empty, hcalm.whole⟩
    rcases List.mem_append.mp hx with hx | hx
    · exact hcalm.paired x hx
    · rw [List.mem_singleton.mp hx]
      exact (xid_of_parseCompoundReply hmark hparse).symm
  next error hparse => exact Triple.throw fun c h => h.1.failed error

theorem call_replies (xid : ℕ) (seqId : Option ℕ) (msg : Bytes) (e : Exchange) :
    Triple Calm (call xid seqId msg e) (fun _ => Calm) ReplyError :=
  Triple.bind (send_replies xid seqId msg e) fun _ => receive_replies xid e

/-- Replies as a property of the requests. -/
def replies : Tracked where
  between := Paired
  ready := Calm
  taken _ := Calm
  failed := ReplyError
  outside := Calm

theorem replies_sound : replies.Sound where
  ready_xid _ _ h := ⟨h.paired, h.empty, h.whole⟩
  taken_xid _ _ _ h := ⟨h.paired, h.empty, h.whole⟩
  outside_xid _ _ h := ⟨h.paired, h.empty, h.whole⟩
  take _ h := ⟨h.paired, h.empty, h.whole⟩
  call xid k := call_replies xid (some k)
  skip _ _ h := h.paired
  ready_failed _ error h := h.failed error
  retry _ message h := h.2.resolve_right fun hother => hother 10013 message rfl
  ready_between _ h := h.paired
  failed_between _ _ h := h.1
  cache _ _ h := h
  call_outside xid msg e :=
    (call_replies xid none msg e).imp (fun _ h => h) (fun _ _ h => h) fun _ _ h => h.1
  outside_between _ h := h.paired
  outside_client _ _ h := ⟨h.paired, h.empty, h.whole⟩
  new_session _ _ h := ⟨h.paired, h.empty, h.whole⟩
  reconnect _ h := ⟨h, rfl, rfl⟩

/-! ## Runs -/

/-- A request of the session is made only when nothing is left on the connection. -/
def OnCalmConnection (c : Client) (call : ClientCall) : Prop :=
  call.inSession c = true → c.inbox = [] ∧ c.torn = false

instance decidableOnCalmConnection (c : Client) (call : ClientCall) :
    Decidable (OnCalmConnection c call) :=
  inferInstanceAs (Decidable (_ → _))

/-- A call that succeeds does so on the replies to its own requests. -/
def TakesOwnReplies (c : Client) (call : ClientCall) : Prop :=
  (call.outcome c).1 = true →
    ∀ x ∈ (clientStep c call).matched.drop c.matched.length, x.1 = x.2

/-- If a request is made only when the earlier ones on its connection have been answered and the
answers have been read, each call takes the replies to its own requests. -/
theorem replies_own {config : ClientConfig} {es : SessionExchanges} {c : Client}
    (hconnect : connect config es = some c) (calls : List ClientCall)
    (hcalls : Run.Along clientStep OnCalmConnection c calls) :
    Run.Along clientStep TakesOwnReplies c calls := by
  have hstep : ∀ c call, OnCalmConnection c call → Paired c → Paired (clientStep c call) := by
    intro c call hok h
    refine replies_sound.step (fun hsession => ?_) h
    obtain ⟨hempty, hwhole⟩ := hok hsession
    exact ⟨h, hempty, hwhole⟩
  have hstart : Paired c :=
    (replies_sound.connect ⟨fun x hx => absurd hx List.not_mem_nil, rfl, rfl⟩ hconnect).paired
  refine Run.along_of_invariant clientStep hstep (fun c call hok h _ x hx => ?_) hcalls hstart
  exact hstep c call hok h x (List.mem_of_mem_drop hx)

/-- A small file, under a name. -/
def sampleWrite (filename : String) : WriteArgs := ⟨[2], filename, [1, 2, 3], 420, 0, 0, (0, 0)⟩

/-- The reply to a request that has written a file. -/
def writtenReply : List Bytes :=
  [sequenceResult, encodeResult opPutFh nfs4Ok [],
    encodeResult opOpen nfs4Ok (encodeU32 1 ++ List.replicate 12 7 ++ List.replicate 40 0),
    encodeResult opWrite nfs4Ok (encodeU32 3 ++ encodeU32 2 ++ List.replicate 8 0),
    encodeResult opSetAttr nfs4Ok (encodeU32 0), encodeResult opClose nfs4Ok (List.replicate 16 0)]

/-- A file is written, and the answer comes when the time is over. -/
def lateWrite : ClientCall :=
  .writeFile (sampleWrite "a") fun _ => { answered nfs4Ok writtenReply with arrives := 0 }

/-- A file is written, and there is no space for it. -/
def refusedWrite : ClientCall := .writeFile (sampleWrite "b") fun _ => answered 28 [sequenceResult]

/-- With a new connection before the second write. -/
def recoveredWrites : List ClientCall :=
  [lateWrite, .recoverSession true sampleSession, refusedWrite]

theorem recoveredWrites_own :
    Run.Along clientStep OnCalmConnection sampleClient recoveredWrites ∧
      (Run.exec clientStep sampleClient recoveredWrites).matched =
        [(1, 1), (2, 2), (3, 3), (5, 5), (6, 6), (7, 7), (8, 8)] ∧
      Run.Along clientStep TakesOwnReplies sampleClient recoveredWrites := by
  have hcalls : Run.Along clientStep OnCalmConnection sampleClient recoveredWrites := by
    decide +kernel
  exact ⟨hcalls, by decide +kernel, replies_own connect_sample recoveredWrites hcalls⟩

/-- Without it the second write succeeds on the answer to the first one, and the file is not
written. -/
theorem late_reply_taken :
    ¬ ∀ (config : ClientConfig) (es : SessionExchanges) (c : Client),
      connect config es = some c → ∀ calls : List ClientCall,
        Run.Along clientStep TakesOwnReplies c calls := by
  intro h
  obtain ⟨-, hown, -⟩ := h _ _ _ connect_sample [lateWrite, refusedWrite]
  have hok : (refusedWrite.outcome (clientStep sampleClient lateWrite)).1 = true := by
    decide +kernel
  have hmatched : (clientStep (clientStep sampleClient lateWrite) refusedWrite).matched.drop
      (clientStep sampleClient lateWrite).matched.length = [(5, 4)] := by
    decide +kernel
  have hpair := hown hok (5, 4) (by rw [hmatched]; exact List.mem_singleton_self _)
  exact absurd hpair (by decide)

end Foxing.Nfs
