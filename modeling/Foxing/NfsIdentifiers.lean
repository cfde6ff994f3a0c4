import Foxing.NfsResults

/-!
# The identifiers of a client and its session

The first two requests on a connection are for the number of the client and for the session. Of
their replies only the header is decoded. The identifier is taken from behind the first place that
looks like the operation and its success, and the search begins at the record mark, so that the
number of the reply may be part of what has been found.
-/
namespace Foxing.Nfs
open Failing Xdr

/-- Extract client_id from EXCHANGE_ID reply by scanning for it in the raw data. -/
def extractExchangeIdClientId (data : Bytes) : Except NfsError ℕ :=
  match extractAfter data opExchangeId 8 with
  | some id => .ok (ofBigEndian id)
  | none => .error (.sessionFailed "cannot parse client_id from EXCHANGE_ID reply")

/-- Extract session_id (16 bytes) from CREATE_SESSION reply. -/
def extractSessionId (data : Bytes) : Except NfsError Bytes :=
  match extractAfter data opCreateSession 16 with
  | some id => .ok id
  | none => .error (.sessionFailed "cannot parse session_id from CREATE_SESSION reply")

/-- The client is the one that is extracted from the reply. -/
theorem doExchangeId_eq (verifier : ℕ) (e : Exchange) :
    doExchangeId verifier e = (do
      let xid ← nextXid
      let c ← get
      let r ← call xid none (singleCall xid (asciiText "exid") c.config.creds
        (encodeExchangeId verifier c.config.ownerId)) e
      if r.1.status ≠ nfs4Ok then throw (sessionError "EXCHANGE_ID" r.1.status)
      else MonadExcept.ofExcept (extractExchangeIdClientId r.2)) := by
  unfold doExchangeId
  congr! with xid c r
  unfold extractExchangeIdClientId
  cases extractAfter r.2 opExchangeId 8 <;> rfl

/-- The session is the one that is extracted from the reply. -/
theorem doCreateSession_eq (clientId : ℕ) (e : Exchange) :
    doCreateSession clientId e = (do
      let xid ← nextXid
      let c ← get
      let r ← call xid none (singleCall xid (asciiText "csess") c.config.creds
        (encodeCreateSession clientId c.config.creds)) e
      if r.1.status ≠ nfs4Ok then throw (sessionError "CREATE_SESSION" r.1.status)
      else MonadExcept.ofExcept (extractSessionId r.2)) := by
  unfold doCreateSession
  congr! with xid c r
  unfold extractSessionId
  cases extractAfter r.2 opCreateSession 16 <;> rfl

/-! ## Replies with an identifier -/

/-- An accepted reply to one operation, without a verifier. The identifier is the first thing in
the result. -/
def identifierReply (tag : Bytes) (op : ℕ) (id info : Bytes) : Bytes :=
  encodeReply 0 [] nfs4Ok tag [encodeResult op nfs4Ok (id ++ info)]

def exchangeIdReply (clientId : ℕ) (info : Bytes) : Bytes :=
  identifierReply (asciiText "exid") opExchangeId (encodeU64 clientId) info

def createSessionReply (sessionId info : Bytes) : Bytes :=
  identifierReply (asciiText "csess") opCreateSession sessionId info

/-- The number in the first record mark. -/
def recordNumber : List Bytes → ℕ
  | [] => 0
  | b :: bs => if bs = [] then 2 ^ 31 + b.length else b.length

/-- The identifier in the result, with everything before it decoded. -/
def decodeIdentifier (op n : ℕ) : Parser Bytes := do
  let _ ← xdr decodeU32
  let msgType ← xdr decodeU32
  require (msgType = 1) (.rpcError "no reply")
  let replyStat ← xdr decodeU32
  require (replyStat = 0) (.rpcError "rejected")
  let _ ← xdr decodeU32
  let _ ← xdr decodeOpaque
  let acceptStat ← xdr decodeU32
  require (acceptStat = 0) (.rpcError "not accepted")
  let status ← xdr decodeU32
  require (status = nfs4Ok) (.rpcError "failed")
  let _ ← xdr decodeOpaque
  let count ← xdr decodeU32
  require (count = 1) (.rpcError "not one result")
  let resultOp ← xdr decodeU32
  require (resultOp = op) (.rpcError "another operation")
  let resultStatus ← xdr decodeU32
  require (resultStatus = nfs4Ok) (.rpcError "failed")
  xdr (decodeOpaqueFixed n)

/-- The identifier in a message that has been read. -/
def structuralIdentifier (data : Bytes) (op n : ℕ) : Except NfsError Bytes :=
  (decodeIdentifier op n ⟨data.drop 4, 0⟩).map Prod.fst

/-! ## The first place of some bytes -/

def StandsAt (needle data : Bytes) (i : ℕ) : Prop := (data.drop i).take needle.length = needle

section Search
variable {needle data : Bytes} {i p : ℕ}

theorem StandsAt.length_le (hne : needle ≠ []) (h : StandsAt needle data i) :
    i + needle.length ≤ data.length := by
  have hlength := congrArg List.length h
  have hpos := List.length_pos_iff.mpr hne
  rw [List.length_take, List.length_drop] at hlength
  omega

theorem StandsAt.getElem? (h : StandsAt needle data i) {k : ℕ} (hk : k < needle.length) :
    data[i + k]? = needle[k]? := by
  have htake := congrArg (·[k]?) h
  rwa [List.getElem?_take_of_lt hk, List.getElem?_drop] at htake

theorem position_eq_some (hne : needle ≠ []) (hat : StandsAt needle data p)
    (hbefore : ∀ i < p, ¬ StandsAt needle data i) : position data needle = some p := by
  have hlength := hat.length_le hne
  rw [position, List.find?_range_eq_some]
  refine ⟨decide_eq_true hat, List.mem_range.mpr (by omega), fun i hi => ?_⟩
  have hnot : ¬ (data.drop i).take needle.length = needle := hbefore i hi
  rw [decide_eq_false hnot]
  rfl

end Search

/-! ## Where the operation is found -/

/-- The operation and its success. -/
def needleOf (op : ℕ) : Bytes := [0, 0, 0, Fin.ofNat 256 op] ++ [0, 0, 0, 0]

/-- What follows the number of the reply: its type and nothing but zeros up to the tag. -/
def leading : Bytes := [0, 0, 0, 1] ++ List.replicate 20 0

/-- The tag and the number of results. -/
def tagAndCount (tag : Bytes) : Bytes := encodeOpaque tag ++ encodeU32 1

/-- The place of the operation before the end of the number of the reply. -/
def FoundAt (op mark xid : ℕ) : ℕ → Prop
  | 0 => mark = op ∧ xid = 0
  | 1 => mark % 2 ^ 24 = 0 ∧ xid = op * 2 ^ 24
  | 2 => mark % 2 ^ 16 = 0 ∧ xid = op * 2 ^ 16
  | 3 => mark % 2 ^ 8 = 0 ∧ xid = op * 2 ^ 8
  | _ => False

theorem identifierReply_eq (tag : Bytes) (op : ℕ) (id info : Bytes) :
    identifierReply tag op id info =
      leading ++ (tagAndCount tag ++ (encodeU32 op ++ encodeU32 nfs4Ok ++ (id ++ info))) := by
  have hone : encodeU32 1 = [0, 0, 0, 1] := by decide
  have hzero : encodeU32 0 = List.replicate 4 0 := by decide
  simp only [identifierReply, encodeReply, encodeResult, leading, tagAndCount, encodeOpaque,
    encodeOpaqueFixed, nfs4Ok, List.length_nil, List.flatten_cons, List.flatten_nil,
    List.append_nil, List.nil_append, List.append_assoc, List.length_singleton, hone, hzero]
  rfl

theorem encodeU32_eq (n : ℕ) :
    encodeU32 n = [Fin.ofNat 256 (n / 2 ^ 24), Fin.ofNat 256 (n / 2 ^ 16), Fin.ofNat 256 (n / 2 ^ 8),
      Fin.ofNat 256 n] := by
  simp [encodeU32, bigEndian, Bytes.ofNat, Nat.div_div_eq_div_mul]

section Places
variable {op mark xid p n : ℕ} {tail : Bytes}

/-- At the first four places the number of the reply is part of what is looked at. -/
theorem standsAt_iff_foundAt (hop : op < 256) (hmark : mark < 2 ^ 32) (hxid : xid < 2 ^ 32)
    (hp : p < 4) :
    StandsAt (needleOf op) (encodeU32 mark ++ (encodeU32 xid ++ (leading ++ tail))) p ↔
      FoundAt op mark xid p := by
  rw [encodeU32_eq, encodeU32_eq]
  unfold StandsAt needleOf leading
  obtain rfl | rfl | rfl | rfl : p = 0 ∨ p = 1 ∨ p = 2 ∨ p = 3 := by omega
  all_goals
    simp [FoundAt, Fin.ext_iff]
    omega

theorem FoundAt.lt_four (h : FoundAt op mark xid p) : p < 4 := by
  by_contra hge
  obtain ⟨k, rfl⟩ := Nat.exists_eq_add_of_le' (not_lt.mp hge)
  exact h

/-- There is one such place at most. -/
theorem FoundAt.unique {q : ℕ} (hop : 0 < op) (hp : FoundAt op mark xid p)
    (hq : FoundAt op mark xid q) : p = q := by
  have hp4 := hp.lt_four
  have hq4 := hq.lt_four
  obtain rfl | rfl | rfl | rfl : p = 0 ∨ p = 1 ∨ p = 2 ∨ p = 3 := by omega
  all_goals
    obtain rfl | rfl | rfl | rfl : q = 0 ∨ q = 1 ∨ q = 2 ∨ q = 3 := by omega
    all_goals
      simp only [FoundAt] at hp hq
      omega

theorem encodeU32_byte (hbyte : op < 256) : encodeU32 op = [0, 0, 0] ++ [Fin.ofNat 256 op] := by
  have h24 : op / 2 ^ 24 = 0 := Nat.div_eq_of_lt (by omega)
  have h16 : op / 2 ^ 16 = 0 := Nat.div_eq_of_lt (by omega)
  have h8 : op / 2 ^ 8 = 0 := Nat.div_eq_of_lt hbyte
  rw [encodeU32_eq, h24, h16, h8]
  rfl

theorem drop_numbers (rest : Bytes) :
    (encodeU32 mark ++ (encodeU32 xid ++ rest)).drop 8 = rest := by
  rw [← List.append_assoc, List.drop_left' (by simp)]

theorem small_of_mem_leading {b : Fin 256} (h : b ∈ leading) : b = 0 ∨ b = 1 := by
  simp only [leading, List.mem_append, List.mem_cons, List.mem_replicate, List.not_mem_nil,
    or_false] at h
  tauto

theorem ne_of_small {b : Fin 256} (hop : 1 < op) (hbyte : op < 256) (hb : b = 0 ∨ b = 1) :
    b ≠ Fin.ofNat 256 op := by
  rintro rfl
  rw [Fin.ext_iff, Fin.ext_iff, Fin.val_ofNat, Nat.mod_eq_of_lt hbyte] at hb
  rcases hb with hb | hb
  · exact absurd hb (by simp; omega)
  · exact absurd hb (by simp; omega)

/-- Between the number of the reply and the result nothing looks like the operation. -/
theorem not_standsAt_between {more : Bytes} (hop : 1 < op) (hbyte : op < 256)
    (hmore : ∀ b ∈ more, b ≠ Fin.ofNat 256 op) {i : ℕ} (hi : 4 ≤ i)
    (hlt : i < 8 + (leading ++ more).length) :
    ¬ StandsAt (needleOf op) (encodeU32 mark ++ (encodeU32 xid ++
      (leading ++ (more ++ (encodeU32 op ++ tail))))) i := by
  intro h
  have hread : ∀ k < 8, 8 ≤ i + k →
      (leading ++ (more ++ (encodeU32 op ++ tail)))[i + k - 8]? = (needleOf op)[k]? := by
    intro k hk hle
    have hbyte := h.getElem? hk
    rwa [show i + k = 8 + (i + k - 8) by omega, ← List.getElem?_drop, drop_numbers] at hbyte
  rcases Nat.eq_or_lt_of_le hi with rfl | hi
  · -- the type of the message stands where the status would have to end
    have hlast := hread 7 (by omega) (by omega)
    have hone : leading[3]? = some 1 := by decide
    rw [List.getElem?_append_left (by decide), hone] at hlast
    exact absurd hlast (by simp [needleOf])
  · have hbefore : ∀ b ∈ leading ++ more ++ [0, 0, 0], b ≠ Fin.ofNat 256 op := by
      intro b hb
      rw [List.mem_append, List.mem_append] at hb
      rcases hb with (hb | hb) | hb
      · exact ne_of_small hop hbyte (small_of_mem_leading hb)
      · exact hmore b hb
      · exact ne_of_small hop hbyte (.inl (by simpa using hb))
    have hcode := hread 3 (by omega) (by omega)
    have hsplit : leading ++ (more ++ (encodeU32 op ++ tail)) =
        (leading ++ more ++ [0, 0, 0]) ++ (Fin.ofNat 256 op :: tail) := by
      rw [encodeU32_byte hbyte]
      simp
    rw [hsplit, List.getElem?_append_left (by rw [List.length_append]; simp at hlt ⊢; omega)] at hcode
    exact hbefore _ (List.mem_of_getElem? hcode) rfl

/-- What is taken from behind the place of the operation. -/
theorem extractAfter_eq {data id rest : Bytes} (hposition : position data (needleOf op) = some p)
    (hdrop : data.drop (p + 8) = id ++ rest) (hid : id.length = n) (hn : 0 < n) :
    extractAfter data op n = some id := by
  have hlength := congrArg List.length hdrop
  rw [List.length_drop, List.length_append] at hlength
  rw [extractAfter, ← needleOf, hposition, Option.bind_some, if_pos (by omega), hdrop, ← hid,
    List.take_left]

section Reply
variable {more id info data : Bytes} (hop : 1 < op) (hbyte : op < 256) (hmark : mark < 2 ^ 32)
  (hxid : xid < 2 ^ 32)
  (hdata : data = encodeU32 mark ++ (encodeU32 xid ++ (leading ++ (more ++
    (encodeU32 op ++ encodeU32 nfs4Ok ++ (id ++ info))))))

include hop hbyte hmark hxid hdata

/-- The operation is found in the result if it has not been found before. -/
theorem extractAfter_late (hmore : ∀ b ∈ more, b ≠ Fin.ofNat 256 op) (hid : id.length = n)
    (hn : 0 < n) (hnot : ∀ p, ¬ FoundAt op mark xid p) : extractAfter data op n = some id := by
  have hneedle : encodeU32 op ++ encodeU32 nfs4Ok = needleOf op := by
    rw [encodeU32_byte hbyte]
    rfl
  have hdrop : data.drop (8 + (leading ++ more).length) = needleOf op ++ (id ++ info) := by
    rw [hdata, ← List.drop_drop, drop_numbers, ← List.append_assoc, List.drop_left, hneedle]
  have hposition : position data (needleOf op) = some (8 + (leading ++ more).length) := by
    refine position_eq_some (by simp [needleOf]) ?_ fun i hi => ?_
    · rw [StandsAt, hdrop, List.take_left]
    · rw [hdata, List.append_assoc (encodeU32 op)]
      rcases Nat.lt_or_ge i 4 with hlt | hge
      · rw [standsAt_iff_foundAt hbyte hmark hxid hlt]
        exact hnot i
      · exact not_standsAt_between hop hbyte hmore hge hi
  have hid' : data.drop (8 + (leading ++ more).length + 8) = id ++ info := by
    rw [← List.drop_drop, hdrop]
    rfl
  exact extractAfter_eq hposition hid' hid hn

/-- What is taken from behind an earlier place is part of the header. -/
theorem extractAfter_early (hn : 0 < n) (hwidth : n ≤ 16) (hfound : FoundAt op mark xid p) :
    extractAfter data op n = some ((leading.drop p).take n) := by
  have hp := hfound.lt_four
  have hlength : leading.length = 24 := rfl
  have hposition : position data (needleOf op) = some p := by
    rw [hdata]
    refine position_eq_some (by simp [needleOf])
      ((standsAt_iff_foundAt hbyte hmark hxid hp).mpr hfound) fun i hi hstands => ?_
    have hsame := (standsAt_iff_foundAt hbyte hmark hxid (hi.trans hp)).mp hstands
    have := hsame.unique (by omega) hfound
    omega
  have hdrop : data.drop (p + 8) = (leading.drop p).take n ++ ((leading.drop p).drop n ++ (more ++
      (encodeU32 op ++ encodeU32 nfs4Ok ++ (id ++ info)))) := by
    rw [hdata, Nat.add_comm, ← List.drop_drop, drop_numbers,
      List.drop_append_of_le_length (by omega), ← List.append_assoc (List.take n _),
      List.take_append_drop]
  have hwhole : ((leading.drop p).take n).length = n := by
    rw [List.length_take, List.length_drop]
    omega
  exact extractAfter_eq hposition hdrop hwhole hn

end Reply

end Places

/-! ## What is taken and what is there -/

/-- What the server has put into its result is decoded. -/
theorem structuralIdentifier_eq {mark tag id info : Bytes} {op n : ℕ} (hmark : mark.length = 4)
    (hop : op < 2 ^ 32) (htag : tag.length < 2 ^ 32) (hid : id.length = n) (hn : padding n = 0)
    (xid : ℕ) :
    structuralIdentifier (mark ++ (encodeU32 xid ++ identifierReply tag op id info)) op n =
      .ok id := by
  have hfixed : encodeOpaqueFixed id = id := by
    rw [encodeOpaqueFixed, hid, hn, List.replicate_zero, List.append_nil]
  have h := Decoder.ahead_zero (encodeU32 xid ++ identifierReply tag op id info)
  rw [structuralIdentifier, List.drop_left' hmark]
  simp only [identifierReply, encodeReply, encodeResult, List.flatten_singleton,
    List.length_singleton, List.append_assoc] at h ⊢
  obtain ⟨dec₁, hxid, h⟩ := decodeU32_ahead h
  obtain ⟨dec₂, htype, h⟩ := decodeU32_of_lt (by decide) h
  obtain ⟨dec₃, hstat, h⟩ := decodeU32_of_lt (by decide) h
  obtain ⟨dec₄, hflavor, h⟩ := decodeU32_of_lt (by decide) h
  obtain ⟨dec₅, hverf, h⟩ := decodeOpaque_ahead (by decide) h
  obtain ⟨dec₆, haccept, h⟩ := decodeU32_of_lt (by decide) h
  obtain ⟨dec₇, hstatus, h⟩ := decodeU32_of_lt (by decide) h
  obtain ⟨dec₈, hname, h⟩ := decodeOpaque_ahead htag h
  obtain ⟨dec₉, hcount, h⟩ := decodeU32_of_lt (by decide) h
  obtain ⟨dec₁₀, hcode, h⟩ := decodeU32_of_lt hop h
  obtain ⟨dec₁₁, hok, h⟩ := decodeU32_of_lt (by decide) h
  rw [← hfixed] at h
  obtain ⟨dec₁₂, hread, -⟩ := decodeOpaqueFixed_ahead h
  rw [hid] at hread
  rw [decodeIdentifier, run_bind_ok (xdr_ok hxid), run_bind_ok htype, run_bind_ok (require_ok rfl _),
    run_bind_ok hstat, run_bind_ok (require_ok rfl _), run_bind_ok hflavor,
    run_bind_ok (xdr_ok hverf), run_bind_ok haccept, run_bind_ok (require_ok rfl _),
    run_bind_ok hstatus, run_bind_ok (require_ok rfl _), run_bind_ok (xdr_ok hname),
    run_bind_ok hcount, run_bind_ok (require_ok rfl _), run_bind_ok hcode,
    run_bind_ok (require_ok rfl _), run_bind_ok hok, run_bind_ok (require_ok rfl _),
    xdr_ok hread]
  rfl

/-- The zeros and the one behind an earlier place as a number. -/
theorem ofBigEndian_leading {p : ℕ} (hp : p < 4) :
    ofBigEndian ((leading.drop p).take 8) = 2 ^ (32 + 8 * p) := by
  obtain rfl | rfl | rfl | rfl : p = 0 ∨ p = 1 ∨ p = 2 ∨ p = 3 := by omega
  all_goals decide

theorem take_leading {p : ℕ} (hp : p < 4) :
    (leading.drop p).take 16 = List.replicate (3 - p) 0 ++ 1 :: List.replicate (12 + p) 0 := by
  obtain rfl | rfl | rfl | rfl : p = 0 ∨ p = 1 ∨ p = 2 ∨ p = 3 := by omega
  all_goals rfl

section Received
variable {xid : ℕ} {fragments : List Bytes} {bytes : Bytes}

theorem received_eq (hsplit : fragments.flatten = encodeU32 xid ++ bytes) :
    received fragments = encodeU32 (recordNumber fragments) ++ (encodeU32 xid ++ bytes) := by
  rw [received, hsplit]
  congr 1
  cases fragments with
  | nil =>
    have hlength := congrArg List.length hsplit
    rw [List.flatten_nil, List.length_nil, List.length_append, length_encodeU32] at hlength
    omega
  | cons b bs => rw [frame_cons, List.take_left' (length_encodeU32 _), recordNumber]

theorem recordNumber_lt (hshort : ∀ b ∈ fragments, b.length < 2 ^ 31) :
    recordNumber fragments < 2 ^ 32 := by
  cases fragments with
  | nil => exact Nat.two_pow_pos 32
  | cons b bs => exact (mark_record bs (hshort b List.mem_cons_self)).1

/-- The identifier is taken from the header if that looks like the operation before the end of the
number of the reply, and otherwise from the result. -/
theorem extractAfter_received {α : Type} (f : Bytes → α) {tag id info : Bytes} {op n : ℕ}
    (hop : 1 < op ∧ op < 256) (hmore : ∀ b ∈ tagAndCount tag, b ≠ Fin.ofNat 256 op)
    (hid : id.length = n) (hn : 0 < n ∧ n ≤ 16) (hxid : xid < 2 ^ 32)
    (hshort : ∀ b ∈ fragments, b.length < 2 ^ 31)
    (hsplit : fragments.flatten = encodeU32 xid ++ identifierReply tag op id info) :
    ∃ found, extractAfter (received fragments) op n = some found ∧
      (f found = f id ↔ ∀ p, FoundAt op (recordNumber fragments) xid p →
        f id = f ((leading.drop p).take n)) := by
  have hdata := received_eq hsplit
  have hmark := recordNumber_lt hshort
  rw [identifierReply_eq] at hdata
  by_cases hfound : ∃ p, FoundAt op (recordNumber fragments) xid p
  · obtain ⟨p, hfound⟩ := hfound
    refine ⟨_, extractAfter_early hop.1 hop.2 hmark hxid hdata hn.1 hn.2 hfound, fun h q hq => ?_,
      fun h => (h p hfound).symm⟩
    rw [hq.unique (by omega) hfound, h]
  · have hnot := not_exists.mp hfound
    exact ⟨_, extractAfter_late hop.1 hop.2 hmark hxid hdata hmore hid hn.1 hnot,
      iff_of_true rfl fun p hp => absurd hp (hnot p)⟩

/-- The number that is taken for the client. -/
theorem extractExchangeIdClientId_iff (hxid : xid < 2 ^ 32)
    (hshort : ∀ b ∈ fragments, b.length < 2 ^ 31) {clientId : ℕ} (hclient : clientId < 2 ^ 64)
    {info : Bytes} (hsplit : fragments.flatten = encodeU32 xid ++ exchangeIdReply clientId info) :
    extractExchangeIdClientId (received fragments) =
        (structuralIdentifier (received fragments) opExchangeId 8).map ofBigEndian ↔
      ∀ p, FoundAt opExchangeId (recordNumber fragments) xid p → clientId = 2 ^ (32 + 8 * p) := by
  have hnumber : ofBigEndian (encodeU64 clientId) = clientId := by
    have hwidth : (256 : ℕ) ^ 8 = 2 ^ 64 := rfl
    rw [encodeU64, ofBigEndian_bigEndian, hwidth, Nat.mod_eq_of_lt hclient]
  have hstructural : structuralIdentifier (received fragments) opExchangeId 8 =
      .ok (encodeU64 clientId) := by
    rw [received_eq hsplit]
    exact structuralIdentifier_eq (length_encodeU32 _) (by decide) (by decide +kernel)
      (length_encodeU64 _) rfl xid
  obtain ⟨found, hextract, hiff⟩ := extractAfter_received ofBigEndian (by decide)
    (by decide +kernel) (length_encodeU64 clientId) (by decide) hxid hshort hsplit
  have hall : (∀ p, FoundAt opExchangeId (recordNumber fragments) xid p →
      ofBigEndian (encodeU64 clientId) = ofBigEndian ((leading.drop p).take 8)) ↔
      ∀ p, FoundAt opExchangeId (recordNumber fragments) xid p → clientId = 2 ^ (32 + 8 * p) := by
    refine forall₂_congr fun p hp => ?_
    rw [hnumber, ofBigEndian_leading hp.lt_four]
  rw [extractExchangeIdClientId, hextract, hstructural, ← hall, ← hiff]
  exact ⟨fun h => Except.ok.inj h, fun h => congrArg Except.ok h⟩

/-- The bytes that are taken for the session. -/
theorem extractSessionId_iff (hxid : xid < 2 ^ 32) (hshort : ∀ b ∈ fragments, b.length < 2 ^ 31)
    {sessionId : Bytes} (hsession : sessionId.length = 16) {info : Bytes}
    (hsplit : fragments.flatten = encodeU32 xid ++ createSessionReply sessionId info) :
    extractSessionId (received fragments) =
        structuralIdentifier (received fragments) opCreateSession 16 ↔
      ∀ p, FoundAt opCreateSession (recordNumber fragments) xid p →
        sessionId = List.replicate (3 - p) 0 ++ 1 :: List.replicate (12 + p) 0 := by
  have hstructural : structuralIdentifier (received fragments) opCreateSession 16 =
      .ok sessionId := by
    rw [received_eq hsplit]
    exact structuralIdentifier_eq (length_encodeU32 _) (by decide) (by decide +kernel) hsession rfl
      xid
  obtain ⟨found, hextract, hiff⟩ := extractAfter_received (fun id => id) (by decide)
    (by decide +kernel) hsession (by decide) hxid hshort hsplit
  have hall : (∀ p, FoundAt opCreateSession (recordNumber fragments) xid p →
      sessionId = (leading.drop p).take 16) ↔
      ∀ p, FoundAt opCreateSession (recordNumber fragments) xid p →
        sessionId = List.replicate (3 - p) 0 ++ 1 :: List.replicate (12 + p) 0 :=
    forall₂_congr fun p hp => by rw [take_leading hp.lt_four]
  rw [extractSessionId, hextract, hstructural, ← hall, ← hiff]
  exact ⟨fun h => Except.ok.inj h, fun h => congrArg Except.ok h⟩

end Received

/-- Both identifiers are those of the replies unless the record mark and the number of the reply
look like the operation and its success, and the identifier is not what stands behind them. The
calls take them in this way (`doExchangeId_eq`, `doCreateSession_eq`). -/
theorem identifiers_extracted_iff {xid : ℕ} {fragments : List Bytes} (hxid : xid < 2 ^ 32)
    (hshort : ∀ b ∈ fragments, b.length < 2 ^ 31) (info : Bytes) :
    (∀ clientId < 2 ^ 64, fragments.flatten = encodeU32 xid ++ exchangeIdReply clientId info →
      (extractExchangeIdClientId (received fragments) =
          (structuralIdentifier (received fragments) opExchangeId 8).map ofBigEndian ↔
        ∀ p, FoundAt opExchangeId (recordNumber fragments) xid p →
          clientId = 2 ^ (32 + 8 * p))) ∧
    ∀ sessionId : Bytes, sessionId.length = 16 →
      fragments.flatten = encodeU32 xid ++ createSessionReply sessionId info →
      (extractSessionId (received fragments) =
          structuralIdentifier (received fragments) opCreateSession 16 ↔
        ∀ p, FoundAt opCreateSession (recordNumber fragments) xid p →
          sessionId = List.replicate (3 - p) 0 ++ 1 :: List.replicate (12 + p) 0) :=
  ⟨fun _ hclient hsplit => extractExchangeIdClientId_iff hxid hshort hclient hsplit,
    fun _ hsession hsplit => extractSessionId_iff hxid hshort hsession hsplit⟩

/-- The result of an `EXCHANGE_ID` behind the number of the client: the first sequence number, the
flags, no protection of the state, who the server is, and nothing about its implementation. -/
def exchangeIdInfo (owner scope : Bytes) : Bytes :=
  encodeU32 1 ++ encodeU32 0x20000 ++ encodeU32 0 ++ (encodeU64 0 ++ encodeOpaque owner) ++
    encodeOpaque scope ++ encodeU32 0

/-- With it the reply has 256 bytes. -/
def sampleInfo : Bytes := exchangeIdInfo (List.replicate 64 1) (List.replicate 104 2)

/-- A reply for the client 7 in one fragment. -/
def sampleFragments (xid : ℕ) : List Bytes := [encodeU32 xid ++ exchangeIdReply 7 sampleInfo]

theorem length_sampleFragments (xid : ℕ) : ∀ b ∈ sampleFragments xid, b.length = 256 := by
  have hreply : (exchangeIdReply 7 sampleInfo).length = 252 := by decide +kernel
  rw [sampleFragments, List.forall_mem_singleton, List.length_append, length_encodeU32, hreply]

theorem recordNumber_sampleFragments (xid : ℕ) :
    recordNumber (sampleFragments xid) = 2 ^ 31 + 256 := by
  have hlength := length_sampleFragments xid
  rw [sampleFragments, List.forall_mem_singleton] at hlength
  rw [sampleFragments, recordNumber, if_pos rfl, hlength]

theorem sampleFragments_extracted :
    extractExchangeIdClientId (received (sampleFragments 1)) =
      (structuralIdentifier (received (sampleFragments 1)) opExchangeId 8).map ofBigEndian := by
  have hshort : ∀ b ∈ sampleFragments 1, b.length < 2 ^ 31 := fun b hb => by
    rw [length_sampleFragments 1 b hb]
    decide
  have hxid : 1 < 2 ^ 32 := by omega
  refine ((identifiers_extracted_iff hxid hshort sampleInfo).1 7 (by omega)
    List.flatten_singleton).mpr fun p hp => ?_
  have hlt := hp.lt_four
  rw [recordNumber_sampleFragments] at hp
  obtain rfl | rfl | rfl | rfl : p = 0 ∨ p = 1 ∨ p = 2 ∨ p = 3 := by omega
  all_goals simp [FoundAt, opExchangeId] at hp

/-- With the number 42 · 256 the header is taken for the result. -/
theorem sampleFragments_not_extracted :
    ¬ ∀ (xid : ℕ) (fragments : List Bytes) (clientId : ℕ) (info : Bytes), xid < 2 ^ 32 →
      (∀ b ∈ fragments, b.length < 2 ^ 31) → clientId < 2 ^ 64 →
      fragments.flatten = encodeU32 xid ++ exchangeIdReply clientId info →
      extractExchangeIdClientId (received fragments) =
        (structuralIdentifier (received fragments) opExchangeId 8).map ofBigEndian := by
  intro h
  have hshort : ∀ b ∈ sampleFragments (42 * 256), b.length < 2 ^ 31 := fun b hb => by
    rw [length_sampleFragments _ b hb]
    decide
  have hclient : 7 < 2 ^ 64 := by omega
  have hsplit : (sampleFragments (42 * 256)).flatten =
      encodeU32 (42 * 256) ++ exchangeIdReply 7 sampleInfo := List.flatten_singleton
  have heq := h _ _ 7 sampleInfo (by decide) hshort hclient hsplit
  rw [extractExchangeIdClientId_iff (by decide) hshort hclient hsplit,
    recordNumber_sampleFragments] at heq
  have hfound : FoundAt opExchangeId (2 ^ 31 + 256) (42 * 256) 3 := by
    refine ⟨?_, ?_⟩ <;> decide
  have hseven := heq 3 hfound
  omega

end Foxing.Nfs
