import Foxing.NfsReplies

/-!
# Results and what is read of them

The results of a reply are those of the operations up to the first one that has failed. Each is
as long as its operation makes it, and is read up to its end; that of an `OPEN` is read in part,
and nothing behind it. What has been read is what the server has sent.
-/
namespace Foxing.Nfs
open Failing Xdr

/-! ## One result after the other -/

section Results
variable {dec : Decoder} {op status : ℕ} {body rest : Bytes}

theorem decodeU32_of_lt {n : ℕ} (hn : n < 2 ^ 32) (h : dec.Ahead (encodeU32 n ++ rest)) :
    ∃ dec', xdr decodeU32 dec = .ok (n, dec') ∧ dec'.Ahead rest := by
  obtain ⟨dec', hdecode, hrest⟩ := decodeU32_ahead h
  rw [Nat.mod_eq_of_lt hn] at hdecode
  exact ⟨dec', xdr_ok hdecode, hrest⟩

theorem parseOpResult_head (hop : op < 2 ^ 32) (hstatus : status < 2 ^ 32)
    (h : dec.Ahead (encodeResult op status body ++ rest)) :
    ∃ dec', parseOpResult dec = parseOpBody op status dec' ∧ dec'.Ahead (body ++ rest) := by
  rw [encodeResult, List.append_assoc, List.append_assoc] at h
  obtain ⟨dec₁, hread₁, h⟩ := decodeU32_of_lt hop h
  obtain ⟨dec₂, hread₂, h⟩ := decodeU32_of_lt hstatus h
  refine ⟨dec₂, ?_, h⟩
  rw [parseOpResult, run_bind_ok hread₁, run_bind_ok hread₂]

/-- Nothing is read behind the status of an operation that has failed. -/
theorem parseOpResult_failed (op : ℕ) (hop : op < 2 ^ 32) (hstatus : status < 2 ^ 32)
    (hfailed : status ≠ nfs4Ok) (h : dec.Ahead (encodeResult op status body ++ rest)) :
    ∃ dec', parseOpResult dec = .ok (.next (plainResult op status), dec') := by
  obtain ⟨dec', hparse, -⟩ := parseOpResult_head hop hstatus h
  refine ⟨dec', ?_⟩
  rw [hparse, parseOpBody, if_pos hfailed]
  rfl

theorem parseOpResult_sequence (hbody : body.length = 36)
    (h : dec.Ahead (encodeResult opSequence nfs4Ok body ++ rest)) :
    ∃ dec', parseOpResult dec = .ok (.next (plainResult opSequence nfs4Ok), dec') ∧
      dec'.Ahead rest := by
  obtain ⟨dec₁, hparse, h⟩ := parseOpResult_head (by decide) (by decide) h
  obtain ⟨dec₂, hskip, h⟩ := skipRaw_ahead hbody h
  refine ⟨dec₂, ?_, h⟩
  rw [hparse, parseOpBody, if_neg (by decide), if_pos rfl, run_bind_ok (xdr_ok hskip)]
  rfl

/-- An operation that has nothing behind its status. -/
def BareOp (op : ℕ) : Prop :=
  op = opPutFh ∨ op = opPutRootFh ∨ op = opLookup ∨ op = opReclaimComplete

theorem bareOp_putFh : BareOp opPutFh := .inl rfl

theorem bareOp_lookup : BareOp opLookup := .inr (.inr (.inl rfl))

theorem parseOpResult_bare (hop : BareOp op)
    (h : dec.Ahead (encodeResult op nfs4Ok [] ++ rest)) :
    ∃ dec', parseOpResult dec = .ok (.next (plainResult op nfs4Ok), dec') ∧ dec'.Ahead rest := by
  unfold BareOp at hop
  have hnumber : op < 2 ^ 32 ∧ op ≠ opSequence := by
    obtain rfl | rfl | rfl | rfl := hop <;> decide
  obtain ⟨dec', hparse, h⟩ := parseOpResult_head hnumber.1 (by decide) h
  refine ⟨dec', ?_, h⟩
  rw [hparse, parseOpBody, if_neg (by decide), if_neg hnumber.2, if_pos hop]
  rfl

theorem parseOpResult_getFh {handle : Bytes} (hhandle : handle.length < 2 ^ 32)
    (h : dec.Ahead (encodeResult opGetFh nfs4Ok (encodeOpaque handle) ++ rest)) :
    ∃ dec', parseOpResult dec =
        .ok (.next { plainResult opGetFh nfs4Ok with filehandle := some handle }, dec') ∧
      dec'.Ahead rest := by
  obtain ⟨dec₁, hparse, h⟩ := parseOpResult_head (by decide) (by decide) h
  obtain ⟨dec₂, hread, h⟩ := decodeOpaque_ahead hhandle h
  refine ⟨dec₂, ?_, h⟩
  rw [hparse, parseOpBody, if_neg (by decide), if_neg (by decide), if_neg (by decide), if_pos rfl,
    run_bind_ok (xdr_ok hread)]
  rfl

/-- The result of an `OPEN` is the last one. -/
theorem parseOpResult_open {id : StateId} (hother : id.other.length = 12)
    (h : dec.Ahead (encodeResult opOpen nfs4Ok (encodeStateId id ++ body) ++ rest)) :
    ∃ dec', parseOpResult dec = .ok (.last { plainResult opOpen nfs4Ok with
      stateid := some ⟨id.seqid % 2 ^ 32, id.other⟩ }, dec') := by
  obtain ⟨dec₁, hparse, h⟩ := parseOpResult_head (by decide) (by decide) h
  rw [encodeStateId, List.append_assoc, List.append_assoc] at h
  obtain ⟨dec₂, hseqid, h⟩ := decodeU32_ahead h
  obtain ⟨dec₃, hread, -⟩ := decodeOpaqueFixed_ahead h
  rw [hother] at hread
  refine ⟨dec₃, ?_⟩
  rw [hparse, parseOpBody, if_neg (by decide), if_neg (by decide), if_neg (by decide),
    if_neg (by decide), if_pos rfl, run_bind_ok (xdr_ok hseqid), run_bind_ok (xdr_ok hread)]
  rfl

/-- The results of a `WRITE` and of a `CLOSE` have 16 bytes behind the status. -/
theorem parseOpResult_sixteen (hop : op = opWrite ∨ op = opClose) (hbody : body.length = 16)
    (h : dec.Ahead (encodeResult op nfs4Ok body ++ rest)) :
    ∃ dec', parseOpResult dec = .ok (.next (plainResult op nfs4Ok), dec') ∧ dec'.Ahead rest := by
  obtain rfl | rfl := hop
  · obtain ⟨dec₁, hparse, h⟩ := parseOpResult_head (by decide) (by decide) h
    obtain ⟨dec₂, hskip, h⟩ := skipRaw_ahead hbody h
    refine ⟨dec₂, ?_, h⟩
    rw [hparse, parseOpBody, if_neg (by decide), if_neg (by decide), if_neg (by decide),
      if_neg (by decide), if_neg (by decide), if_pos rfl, run_bind_ok (xdr_ok hskip)]
    rfl
  · obtain ⟨dec₁, hparse, h⟩ := parseOpResult_head (by decide) (by decide) h
    obtain ⟨dec₂, hskip, h⟩ := skipRaw_ahead hbody h
    refine ⟨dec₂, ?_, h⟩
    rw [hparse, parseOpBody, if_neg (by decide), if_neg (by decide), if_neg (by decide),
      if_neg (by decide), if_neg (by decide), if_neg (by decide), if_neg (by decide), if_pos rfl,
      run_bind_ok (xdr_ok hskip)]
    rfl

/-- Attributes in words of 32 bits. -/
def encodeBitmap (words : List ℕ) : Bytes := encodeU32 words.length ++ words.flatMap encodeU32

theorem length_words (words : List ℕ) : (words.flatMap encodeU32).length = words.length * 4 := by
  induction words with
  | nil => rfl
  | cons word words ih =>
    rw [List.flatMap_cons, List.length_append, length_encodeU32, ih, List.length_cons]
    omega

theorem parseOpResult_setAttr {words : List ℕ} (hcount : words.length < 2 ^ 32)
    (h : dec.Ahead (encodeResult opSetAttr nfs4Ok (encodeBitmap words) ++ rest)) :
    ∃ dec', parseOpResult dec = .ok (.next (plainResult opSetAttr nfs4Ok), dec') ∧
      dec'.Ahead rest := by
  obtain ⟨dec₁, hparse, h⟩ := parseOpResult_head (by decide) (by decide) h
  rw [encodeBitmap, List.append_assoc] at h
  obtain ⟨dec₂, hread, h⟩ := decodeU32_of_lt hcount h
  obtain ⟨dec₃, hskip, h⟩ := skipRaw_ahead (length_words words) h
  refine ⟨dec₃, ?_, h⟩
  rw [hparse, parseOpBody, if_neg (by decide), if_neg (by decide), if_neg (by decide),
    if_neg (by decide), if_neg (by decide), if_neg (by decide), if_pos rfl, run_bind_ok hread,
    run_bind_ok (xdr_ok hskip)]
  rfl

theorem decodeWords_ahead {words : List ℕ} (hwords : ∀ word ∈ words, word < 2 ^ 32)
    (h : dec.Ahead (words.flatMap encodeU32 ++ rest)) :
    ∃ dec', decodeWords words.length dec = .ok (words, dec') ∧ dec'.Ahead rest := by
  induction words generalizing dec with
  | nil => exact ⟨dec, rfl, h⟩
  | cons word words ih =>
    obtain ⟨hword, hwords⟩ := List.forall_mem_cons.mp hwords
    rw [List.flatMap_cons, List.append_assoc] at h
    obtain ⟨dec₁, hread, h⟩ := decodeU32_ahead h
    rw [Nat.mod_eq_of_lt hword] at hread
    obtain ⟨dec₂, hmore, h⟩ := ih hwords h
    refine ⟨dec₂, ?_, h⟩
    rw [List.length_cons, decodeWords, Xdr.run_bind_ok hread, Xdr.run_bind_ok hmore]
    rfl

/-! ### Attributes -/

/-- Is an attribute among those of a bitmap? -/
def hasAttribute (bitmap : List ℕ) (number : ℕ) : Prop :=
  ∃ word ∈ bitmap[number / 32]?, word.testBit (number % 32) = true

def fattr4Size : ℕ := 4
def fattr4TimeModify : ℕ := 53

/-- The values of the attributes in the order of their numbers. -/
def encodeFileAttrs (size : Option ℕ) (mtime : Option (ℤ × ℤ)) : Bytes :=
  size.elim [] encodeU64 ++
    mtime.elim [] fun t => encodeU64 (unsigned64 t.1) ++ encodeU32 (unsigned64 t.2)

/-- The attributes of a file as the protocol has them. -/
structure FileAttrs where
  bitmap : List ℕ
  size : Option ℕ
  mtime : Option (ℤ × ℤ)
  count : bitmap.length < 2 ^ 32
  words : ∀ word ∈ bitmap, word < 2 ^ 32
  hasAttribute_iff : ∀ number, hasAttribute bitmap number ↔
    number = fattr4Size ∧ size.isSome = true ∨ number = fattr4TimeModify ∧ mtime.isSome = true
  size_lt : ∀ n ∈ size, n < 2 ^ 64
  mtime_fits : ∀ t ∈ mtime, (-2 ^ 63 ≤ t.1 ∧ t.1 < 2 ^ 63) ∧ 0 ≤ t.2 ∧ t.2 < 2 ^ 32

def FileAttrs.encode (a : FileAttrs) : Bytes :=
  encodeBitmap a.bitmap ++ encodeOpaque (encodeFileAttrs a.size a.mtime)

/-- The size of a file and the time of its last change. -/
structure FileStat where
  size : ℕ
  mtime : ℤ × ℤ
  fits : size < 2 ^ 64 ∧ (-2 ^ 63 ≤ mtime.1 ∧ mtime.1 < 2 ^ 63) ∧ 0 ≤ mtime.2 ∧ mtime.2 < 2 ^ 32

/-- The bitmap with both. -/
def statBitmap : List ℕ := [2 ^ fattr4SizeBit, 2 ^ fattr4TimeModifyBit]

theorem hasAttribute_statBitmap (number : ℕ) :
    hasAttribute statBitmap number ↔ number = fattr4Size ∨ number = fattr4TimeModify := by
  unfold hasAttribute statBitmap fattr4SizeBit fattr4TimeModifyBit fattr4Size fattr4TimeModify
  rcases hword : number / 32 with _ | _ | k
  · rw [List.getElem?_cons_zero]
    simp only [Option.mem_some_iff, exists_eq_left', Nat.testBit_two_pow, decide_eq_true_eq]
    omega
  · rw [List.getElem?_cons_succ, List.getElem?_cons_zero]
    simp only [Option.mem_some_iff, exists_eq_left', Nat.testBit_two_pow, decide_eq_true_eq]
    omega
  · simp only [List.getElem?_cons_succ, List.getElem?_nil, Option.not_mem_none, false_and,
      exists_false, false_iff]
    omega

theorem FileStat.hasAttribute_iff (s : FileStat) (number : ℕ) :
    hasAttribute statBitmap number ↔
      number = fattr4Size ∧ (some s.size).isSome = true ∨
        number = fattr4TimeModify ∧ (some s.mtime).isSome = true := by
  rw [hasAttribute_statBitmap]
  simp

theorem FileStat.size_lt (s : FileStat) : ∀ n ∈ some s.size, n < 2 ^ 64 := by
  rintro _ ⟨⟩
  exact s.fits.1

theorem FileStat.mtime_fits (s : FileStat) :
    ∀ t ∈ some s.mtime, (-2 ^ 63 ≤ t.1 ∧ t.1 < 2 ^ 63) ∧ 0 ≤ t.2 ∧ t.2 < 2 ^ 32 := by
  rintro _ ⟨⟩
  exact s.fits.2

theorem statBitmap_words : statBitmap.length < 2 ^ 32 ∧ ∀ word ∈ statBitmap, word < 2 ^ 32 := by
  decide

def FileStat.attrs (s : FileStat) : FileAttrs where
  bitmap := statBitmap
  size := some s.size
  mtime := some s.mtime
  count := statBitmap_words.1
  words := statBitmap_words.2
  hasAttribute_iff := s.hasAttribute_iff
  size_lt := s.size_lt
  mtime_fits := s.mtime_fits

/-- A signed number comes back. -/
theorem signed64_unsigned64 {n : ℤ} (hn : -2 ^ 63 ≤ n ∧ n < 2 ^ 63) :
    signed64 (unsigned64 n) = n := by
  unfold signed64 unsigned64
  split_ifs <;> omega

theorem length_encodeFileAttrs (size : Option ℕ) (mtime : Option (ℤ × ℤ)) :
    (encodeFileAttrs size mtime).length < 2 ^ 32 := by
  cases size <;> cases mtime <;> simp [encodeFileAttrs]

/-- What is looked for in the first two words is whether the attributes are there. -/
theorem FileAttrs.any_size (a : FileAttrs) :
    (a.bitmap[0]?).any (·.testBit fattr4SizeBit) = a.size.isSome := by
  rw [Bool.eq_iff_iff, Option.any_eq_true]
  have h := a.hasAttribute_iff fattr4Size
  simpa [hasAttribute, fattr4Size, fattr4TimeModify, fattr4SizeBit] using h

theorem FileAttrs.any_mtime (a : FileAttrs) :
    (a.bitmap[1]?).any (·.testBit fattr4TimeModifyBit) = a.mtime.isSome := by
  rw [Bool.eq_iff_iff, Option.any_eq_true]
  have h := a.hasAttribute_iff fattr4TimeModify
  simpa [hasAttribute, fattr4Size, fattr4TimeModify, fattr4TimeModifyBit] using h

theorem readTime_ahead {t : ℤ × ℤ} (ht : (-2 ^ 63 ≤ t.1 ∧ t.1 < 2 ^ 63) ∧ 0 ≤ t.2 ∧ t.2 < 2 ^ 32)
    (h : dec.Ahead (encodeU64 (unsigned64 t.1) ++ encodeU32 (unsigned64 t.2))) :
    ∃ dec', (do
      let secs ← decodeU64
      let nsecs ← decodeU32
      return (signed64 secs, (nsecs : ℤ)) : Reader (ℤ × ℤ)) dec = .ok (t, dec') := by
  obtain ⟨dec₁, hsecs, h⟩ := decodeU64_ahead h
  rw [← List.append_nil (encodeU32 _)] at h
  obtain ⟨dec₂, hnsecs, -⟩ := decodeU32_ahead h
  refine ⟨dec₂, ?_⟩
  have hfirst : unsigned64 t.1 % 2 ^ 64 = unsigned64 t.1 := by
    unfold unsigned64
    omega
  have hsecond : ((unsigned64 t.2 % 2 ^ 32 : ℕ) : ℤ) = t.2 := by
    unfold unsigned64
    omega
  rw [Xdr.run_bind_ok hsecs, Xdr.run_bind_ok hnsecs, hfirst, signed64_unsigned64 ht.1, hsecond]
  rfl

theorem parseAttrs_encodeFileAttrs (a : FileAttrs) :
    parseAttrs a.bitmap (encodeFileAttrs a.size a.mtime) = (a.size, a.mtime) := by
  have h := Decoder.ahead_zero (encodeFileAttrs a.size a.mtime)
  unfold parseAttrs
  rw [a.any_size, a.any_mtime]
  cases hsize : a.size with
  | none =>
    cases hmtime : a.mtime with
    | none => rfl
    | some t =>
      rw [hsize, hmtime] at h
      obtain ⟨dec₁, htime⟩ := readTime_ahead (a.mtime_fits t hmtime) h
      simp only [Option.isSome_none, Option.isSome_some, Bool.false_eq_true, if_false, if_true]
      rw [htime]
      rfl
  | some n =>
    rw [hsize] at h
    obtain ⟨dec₁, hread, h⟩ := decodeU64_ahead (n := n) h
    rw [Nat.mod_eq_of_lt (a.size_lt n hsize)] at hread
    cases hmtime : a.mtime with
    | none =>
      rw [hmtime] at hread
      simp only [Option.isSome_some, if_true]
      rw [hread]
      rfl
    | some t =>
      rw [hmtime] at h hread
      obtain ⟨dec₂, htime⟩ := readTime_ahead (a.mtime_fits t hmtime) h
      simp only [Option.isSome_some, if_true]
      rw [hread]
      dsimp only
      rw [htime]
      rfl

theorem parseOpResult_getAttr (a : FileAttrs)
    (h : dec.Ahead (encodeResult opGetAttr nfs4Ok a.encode ++ rest)) :
    ∃ dec', parseOpResult dec = .ok (.next { plainResult opGetAttr nfs4Ok with
        size := a.size, mtime := a.mtime }, dec') ∧ dec'.Ahead rest := by
  obtain ⟨dec₁, hparse, h⟩ := parseOpResult_head (by decide) (by decide) h
  rw [FileAttrs.encode, encodeBitmap, List.append_assoc, List.append_assoc] at h
  obtain ⟨dec₂, hcount, h⟩ := decodeU32_of_lt a.count h
  obtain ⟨dec₃, hwords, h⟩ := decodeWords_ahead a.words h
  obtain ⟨dec₄, hattrs, h⟩ := decodeOpaque_ahead (length_encodeFileAttrs _ _) h
  refine ⟨dec₄, ?_, h⟩
  rw [hparse, parseOpBody, if_neg (by decide), if_neg (by decide), if_neg (by decide),
    if_neg (by decide), if_neg (by decide), if_neg (by decide), if_neg (by decide),
    if_neg (by decide), if_pos rfl, run_bind_ok hcount, run_bind_ok (xdr_ok hwords),
    run_bind_ok (xdr_ok hattrs), parseAttrs_encodeFileAttrs]
  rfl

/-! ### All results -/

theorem parseOpResults_next {n : ℕ} {r : OpResult} {rs : List OpResult} {dec' dec'' : Decoder}
    (hfirst : parseOpResult dec = .ok (.next r, dec'))
    (hmore : parseOpResults n dec' = .ok (rs, dec'')) :
    parseOpResults (n + 1) dec = .ok (r :: rs, dec'') := by
  rw [parseOpResults, run_bind_ok hfirst]
  dsimp only
  rw [run_bind_ok hmore]
  rfl

theorem parseOpResults_last {n : ℕ} {r : OpResult} {dec' : Decoder}
    (hfirst : parseOpResult dec = .ok (.last r, dec')) :
    parseOpResults (n + 1) dec = .ok ([r], dec') := by
  rw [parseOpResults, run_bind_ok hfirst]
  rfl

end Results

theorem require_ok {ok : Prop} [Decidable ok] {error : NfsError} (h : ok) (dec : Decoder) :
    require ok error dec = .ok ((), dec) := by
  rw [require, if_pos h]
  rfl

/-- Around the results of an accepted reply all is read as it is. -/
theorem parseCompoundReply_encodeReply (flavor : ℕ) {status : ℕ} {verf tag : Bytes} {results : List Bytes}
    (hverf : verf.length < 2 ^ 32) (hstatus : status < 2 ^ 32) (htag : tag.length < 2 ^ 32)
    (hcount : results.length < 2 ^ 32) (xid : ℕ) :
    ∃ dec : Decoder, dec.Ahead results.flatten ∧
      ∀ rs dec', parseOpResults results.length dec = .ok (rs, dec') →
        ∀ mark : Bytes, mark.length = 4 →
          parseCompoundReply (mark ++ (encodeU32 xid ++ encodeReply flavor verf status tag results)) =
            .ok ⟨xid % 2 ^ 32, status, tag, rs⟩ := by
  have h := Decoder.ahead_zero (encodeU32 xid ++ encodeReply flavor verf status tag results)
  simp only [encodeReply, List.append_assoc] at h
  obtain ⟨dec₁, hxid, h⟩ := decodeU32_ahead h
  obtain ⟨dec₂, htype, h⟩ := decodeU32_of_lt (by decide) h
  obtain ⟨dec₃, hstat, h⟩ := decodeU32_of_lt (by decide) h
  obtain ⟨dec₄, hflavor, h⟩ := decodeU32_ahead h
  obtain ⟨dec₅, hbody, h⟩ := decodeOpaque_ahead hverf h
  obtain ⟨dec₆, haccept, h⟩ := decodeU32_of_lt (by decide) h
  obtain ⟨dec₇, hcompound, h⟩ := decodeU32_of_lt hstatus h
  obtain ⟨dec₈, hname, h⟩ := decodeOpaque_ahead htag h
  obtain ⟨dec₉, hresults, h⟩ := decodeU32_of_lt hcount h
  refine ⟨dec₉, h, fun rs dec' hparse mark hmark => ?_⟩
  have hreply : parseReply ⟨encodeU32 xid ++ encodeReply flavor verf status tag results, 0⟩ =
      .ok (⟨xid % 2 ^ 32, status, tag, rs⟩, dec') := by
    simp only [encodeReply, List.append_assoc]
    rw [parseReply, run_bind_ok (xdr_ok hxid), run_bind_ok htype, run_bind_ok (require_ok rfl _),
      run_bind_ok hstat, run_bind_ok (require_ok rfl _), run_bind_ok (xdr_ok hflavor),
      run_bind_ok (xdr_ok hbody), run_bind_ok haccept, run_bind_ok (require_ok rfl _),
      run_bind_ok hcompound, run_bind_ok (xdr_ok hname), run_bind_ok hresults, run_bind_ok hparse]
    rfl
  rw [parseCompoundReply, if_neg (by simp [hmark]), List.drop_left' hmark, hreply]
  rfl

/-! ## Replies of a server -/

/-- The result of an operation, with what the protocol has in it. That of an `OPEN` has more
behind the state, and that of an operation that has failed may have something, too. -/
inductive ServerResult where
  | sequence (sessionId : Bytes) (sequenceId slotId highestSlotId targetSlotId flags : ℕ)
      (width : sessionId.length = 16)
  | bare (op : ℕ) (known : BareOp op)
  | getFh (handle : Bytes) (short : handle.length < 2 ^ 32)
  | open_ (stateid : StateId) (info : Bytes)
      (width : stateid.seqid < 2 ^ 32 ∧ stateid.other.length = 12)
  | write (count committed : ℕ) (verifier : Bytes) (width : verifier.length = 8)
  | setAttr (attrsSet : List ℕ) (short : attrsSet.length < 2 ^ 32)
  | close (stateid : StateId) (width : stateid.other.length = 12)
  | getAttr (attrs : FileAttrs)
  | failed (op status : ℕ) (info : Bytes)
      (error : op < 2 ^ 32 ∧ status ≠ nfs4Ok ∧ status < 2 ^ 32)

namespace ServerResult

def op : ServerResult → ℕ
  | .sequence .. => opSequence
  | .bare op _ => op
  | .getFh .. => opGetFh
  | .open_ .. => opOpen
  | .write .. => opWrite
  | .setAttr .. => opSetAttr
  | .close .. => opClose
  | .getAttr _ => opGetAttr
  | .failed op .. => op

def status : ServerResult → ℕ
  | .failed _ status .. => status
  | _ => nfs4Ok

/-- What follows the status. -/
def body : ServerResult → Bytes
  | .sequence sessionId sequenceId slotId highestSlotId targetSlotId flags _ =>
    encodeOpaqueFixed sessionId ++ encodeU32 sequenceId ++ encodeU32 slotId ++
      encodeU32 highestSlotId ++ encodeU32 targetSlotId ++ encodeU32 flags
  | .bare .. => []
  | .getFh handle _ => encodeOpaque handle
  | .open_ stateid info _ => encodeStateId stateid ++ info
  | .write count committed verifier _ =>
    encodeU32 count ++ encodeU32 committed ++ encodeOpaqueFixed verifier
  | .setAttr attrsSet _ => encodeBitmap attrsSet
  | .close stateid _ => encodeStateId stateid
  | .getAttr attrs => attrs.encode
  | .failed _ _ info _ => info

def encode (r : ServerResult) : Bytes := encodeResult r.op r.status r.body

/-- The same result for the client. -/
def opResult (r : ServerResult) : OpResult where
  op := r.op
  status := r.status
  stateid := match r with
    | .open_ stateid .. => some stateid
    | _ => none
  filehandle := match r with
    | .getFh handle _ => some handle
    | _ => none
  size := match r with
    | .getAttr attrs => attrs.size
    | _ => none
  mtime := match r with
    | .getAttr attrs => attrs.mtime
    | _ => none

/-- Are the results behind this one read? -/
def Continues : ServerResult → Prop
  | .open_ .. | .failed .. => False
  | _ => True

end ServerResult

/-- The results end with the first one that has failed or is that of an `OPEN`, behind which there
may be others. -/
def EndsAtLast : List ServerResult → List Bytes → Prop
  | [], behind => behind = []
  | .open_ .. :: rs, _ => rs = []
  | .failed .. :: rs, behind => rs = [] ∧ behind = []
  | _ :: rs, behind => EndsAtLast rs behind

/-- An accepted reply to a compound request. -/
structure ServerReply where
  flavor : ℕ
  verf : Bytes
  status : ℕ
  tag : Bytes
  results : List ServerResult
  /-- What the server sends behind the result of an `OPEN`. -/
  behind : List Bytes
  ends : EndsAtLast results behind
  short : verf.length < 2 ^ 32 ∧ tag.length < 2 ^ 32
  numbers : status < 2 ^ 32 ∧ results.length + behind.length < 2 ^ 32

namespace ServerReply
variable (r : ServerReply)

/-- Behind the number of the request. -/
def encode : Bytes :=
  encodeReply r.flavor r.verf r.status r.tag (r.results.map (·.encode) ++ r.behind)

/-- The same reply for the client. -/
def compoundReply (xid : ℕ) : CompoundReply :=
  ⟨xid, r.status, r.tag, r.results.map (·.opResult)⟩

end ServerReply

/-! ## What the client reads of a reply -/

section Reading
variable {dec : Decoder} {rest : Bytes}

theorem ServerResult.parseOpResult_encode {r : ServerResult} (hr : r.Continues)
    (h : dec.Ahead (r.encode ++ rest)) :
    ∃ dec', parseOpResult dec = .ok (.next r.opResult, dec') ∧ dec'.Ahead rest := by
  cases r with
  | sequence sessionId sequenceId slotId highestSlotId targetSlotId flags width =>
    exact parseOpResult_sequence (by simp [body, encodeOpaqueFixed, padding, width]) h
  | bare op known => exact parseOpResult_bare known h
  | getFh handle short => exact parseOpResult_getFh short h
  | open_ stateid info width => exact hr.elim
  | write count committed verifier width =>
    exact parseOpResult_sixteen (.inl rfl)
      (by simp [body, encodeOpaqueFixed, padding, width]) h
  | setAttr attrsSet short => exact parseOpResult_setAttr short h
  | close stateid width =>
    exact parseOpResult_sixteen (.inr rfl)
      (by simp [body, encodeStateId, encodeOpaqueFixed, padding, width]) h
  | getAttr attrs => exact parseOpResult_getAttr attrs h
  | failed op status info error => exact hr.elim

theorem EndsAtLast.of_cons {r : ServerResult} {rs : List ServerResult} {behind : List Bytes}
    (hr : r.Continues) (h : EndsAtLast (r :: rs) behind) : EndsAtLast rs behind := by
  cases r with
  | open_ | failed => exact hr.elim
  | _ => exact h

theorem EndsAtLast.cons {r : ServerResult} {rs : List ServerResult} {behind : List Bytes}
    (h : EndsAtLast rs behind) (hr : r.Continues) : EndsAtLast (r :: rs) behind := by
  cases r with
  | open_ | failed => exact hr.elim
  | _ => exact h

/-- The results are read up to the last one. -/
theorem parseOpResults_encode {rs : List ServerResult} {behind : List Bytes}
    (hends : EndsAtLast rs behind) (h : dec.Ahead (rs.map (·.encode) ++ behind).flatten) :
    ∃ dec', parseOpResults (rs.map (·.encode) ++ behind).length dec =
      .ok (rs.map (·.opResult), dec') := by
  induction rs generalizing dec with
  | nil =>
    rw [show behind = [] from hends]
    exact ⟨dec, rfl⟩
  | cons r rs ih =>
    rw [List.map_cons, List.cons_append] at h ⊢
    by_cases hr : r.Continues
    · obtain ⟨dec₁, hfirst, h⟩ := ServerResult.parseOpResult_encode hr h
      obtain ⟨dec₂, hmore⟩ := ih (hends.of_cons hr) h
      exact ⟨dec₂, parseOpResults_next hfirst hmore⟩
    · cases r with
      | open_ stateid info width =>
        obtain rfl : rs = [] := hends
        obtain ⟨dec₁, hlast⟩ := parseOpResult_open width.2 h
        rw [Nat.mod_eq_of_lt width.1] at hlast
        exact ⟨dec₁, parseOpResults_last hlast⟩
      | failed op status info error =>
        obtain ⟨rfl, rfl⟩ : rs = [] ∧ behind = [] := hends
        obtain ⟨dec₁, hfirst⟩ := parseOpResult_failed op error.1 error.2.2 error.2.1 h
        exact ⟨dec₁, parseOpResults_next hfirst rfl⟩
      | _ => exact absurd trivial hr

end Reading

theorem ServerReply.parseCompoundReply_encode (r : ServerReply) (xid : ℕ) {mark : Bytes}
    (hmark : mark.length = 4) :
    parseCompoundReply (mark ++ (encodeU32 xid ++ r.encode)) =
      .ok (r.compoundReply (xid % 2 ^ 32)) := by
  have hcount : (r.results.map (·.encode) ++ r.behind).length < 2 ^ 32 := by
    rw [List.length_append, List.length_map]
    exact r.numbers.2
  obtain ⟨dec, h, hreply⟩ :=
    parseCompoundReply_encodeReply r.flavor r.short.1 r.numbers.1 r.short.2 hcount xid
  obtain ⟨dec', hparse⟩ := parseOpResults_encode r.ends h
  exact hreply _ dec' hparse mark hmark

/-- The next message on the connection is read, and it is what the server has sent. -/
def ReadsBack (r : ServerReply) (xid : ℕ) (fragments : List Bytes) : Prop :=
  ∀ (c : Client) (e : Exchange) (later : Bytes), c.inbox = frame fragments ++ later →
    (frame fragments).length ≤ e.arrives →
    ∃ data, exec (readReply e) c = (.ok data, { c with inbox := later }) ∧
      parseCompoundReply data = .ok (r.compoundReply xid)

section Fragments
variable {r : ServerReply} {xid : ℕ} {fragments : List Bytes}

theorem ne_nil_of_split (hsplit : fragments.flatten = encodeU32 xid ++ r.encode) :
    fragments ≠ [] := by
  rintro rfl
  have hlength := congrArg List.length hsplit
  rw [List.flatten_nil, List.length_nil, List.length_append, length_encodeU32] at hlength
  omega

theorem length_mark (hne : fragments ≠ []) : ((frame fragments).take 4).length = 4 := by
  obtain ⟨b, bs, rfl⟩ := List.exists_cons_of_ne_nil hne
  rw [frame_cons, List.take_left' (length_encodeU32 _), length_encodeU32]

theorem readsBack_of_fit (hxid : xid < 2 ^ 32)
    (hsplit : fragments.flatten = encodeU32 xid ++ r.encode)
    (hfit : ∀ b ∈ fragments, b.length ≤ maxFragment) : ReadsBack r xid fragments := by
  intro c e later hinbox hlength
  have hne := ne_nil_of_split hsplit
  refine ⟨_, readReply_received hfit hne hinbox hlength, ?_⟩
  rw [received, hsplit, r.parseCompoundReply_encode xid (length_mark hne), Nat.mod_eq_of_lt hxid]

/-- A fragment that is too long is refused. -/
theorem fit_of_readsBack (hsplit : fragments.flatten = encodeU32 xid ++ r.encode)
    (hshort : ∀ b ∈ fragments, b.length < 2 ^ 31) (h : ReadsBack r xid fragments) :
    ∀ b ∈ fragments, b.length ≤ maxFragment := by
  let c : Client := { Client.fresh sampleConfig with inbox := frame fragments }
  let e : Exchange := ⟨true, none, 0, (frame fragments).length⟩
  obtain ⟨data, hexec, -⟩ := h c e [] (List.append_nil _).symm le_rfl
  cases hread : readFragments ((c.inbox.take e.arrives).length + 1) []
      (c.inbox.take e.arrives) with
  | mk result rest =>
    rw [exec_readReply hread] at hexec
    obtain rfl : result = .ok data := congrArg Prod.fst hexec
    exact (readFragments_frame hshort (ne_nil_of_split hsplit) hread).2.2.1

/-- A reply is read wherever it has been split, if no fragment is too long. -/
theorem readsBack_iff_fit (hxid : xid < 2 ^ 32)
    (hsplit : fragments.flatten = encodeU32 xid ++ r.encode)
    (hshort : ∀ b ∈ fragments, b.length < 2 ^ 31) :
    ReadsBack r xid fragments ↔ ∀ b ∈ fragments, b.length ≤ maxFragment :=
  ⟨fit_of_readsBack hsplit hshort, readsBack_of_fit hxid hsplit⟩

end Fragments

theorem fits_of_small {size : ℕ} {secs nsecs : ℤ}
    (h : size < 4097 ∧ (0 ≤ secs ∧ secs < 256) ∧ 0 ≤ nsecs ∧ nsecs < 256) :
    size < 2 ^ 64 ∧ (-2 ^ 63 ≤ secs ∧ secs < 2 ^ 63) ∧ 0 ≤ nsecs ∧ nsecs < 2 ^ 32 := by
  omega

/-- The reply to a request for the attributes of one file. -/
def statReply : ServerReply where
  flavor := 0
  verf := []
  status := nfs4Ok
  tag := asciiText "bstat"
  results :=
    [.sequence (List.replicate 16 7) 1 0 0 0 0 List.length_replicate, .bare opPutFh bareOp_putFh,
      .bare opLookup bareOp_lookup, .getAttr (FileStat.attrs ⟨5, (1, 2), fits_of_small (by decide)⟩)]
  behind := []
  ends := rfl
  short := by decide
  numbers := by decide

/-- It comes in three fragments, of which one is empty. -/
def statFragments : List Bytes :=
  [(encodeU32 9 ++ statReply.encode).take 10, [], (encodeU32 9 ++ statReply.encode).drop 10]

theorem statReply_readsBack : ReadsBack statReply 9 statFragments := by
  have hsplit : statFragments.flatten = encodeU32 9 ++ statReply.encode :=
    List.take_append_drop 10 _
  have hfit : ∀ b ∈ statFragments, b.length ≤ maxFragment := by decide +kernel
  have hshort : ∀ b ∈ statFragments, b.length < 2 ^ 31 := by decide +kernel
  exact (readsBack_iff_fit (by decide) hsplit hshort).mpr hfit

def longTag : Bytes := List.replicate maxFragment 0

theorem longTag_short : ([] : Bytes).length < 2 ^ 32 ∧ longTag.length < 2 ^ 32 := by
  rw [longTag, List.length_replicate]
  decide

/-- A reply with a tag of 16 MiB and one page. -/
def longReply : ServerReply where
  flavor := 0
  verf := []
  status := nfs4Ok
  tag := longTag
  results := []
  behind := []
  ends := rfl
  short := longTag_short
  numbers := by decide

theorem length_longReply : (encodeU32 9 ++ longReply.encode).length = maxFragment + 36 := by
  have hpadding : padding maxFragment = 0 ∧ padding 0 = 0 := by decide
  simp only [longReply, longTag, ServerReply.encode, encodeReply, encodeOpaque, encodeOpaqueFixed,
    List.length_append, length_encodeU32, List.length_replicate, hpadding, List.length_nil,
    List.map_nil, List.flatten_nil, List.append_nil]
  omega

/-- It is not read if it comes in one fragment. -/
theorem longReply_refused :
    ¬ ∀ (r : ServerReply) (xid : ℕ) (fragments : List Bytes), xid < 2 ^ 32 →
      fragments.flatten = encodeU32 xid ++ r.encode → (∀ b ∈ fragments, b.length < 2 ^ 31) →
      ReadsBack r xid fragments := by
  intro h
  have hlength := length_longReply
  have hsplit : [encodeU32 9 ++ longReply.encode].flatten = encodeU32 9 ++ longReply.encode := by
    rw [List.flatten_singleton]
  have hshort : ∀ b ∈ [encodeU32 9 ++ longReply.encode], b.length < 2 ^ 31 := by
    rw [List.forall_mem_singleton, hlength]
    decide
  have hfit := fit_of_readsBack hsplit hshort (h longReply 9 _ (by decide) hsplit hshort)
  rw [List.forall_mem_singleton, hlength] at hfit
  omega

end Foxing.Nfs
