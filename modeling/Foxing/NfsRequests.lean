import Foxing.NfsResults

/-!
# Requests as a server reads them

A server reads a request by the grammar of the protocol: a call with the credentials of its
sender, and the arguments of one operation behind those of the other. Attributes that are to be
set are a bitmap and the values in the order of their numbers, in a string that is read to its
end. What has been built is read to its end too, and every operation comes back as it was, save
that only twelve bits are sent of the mode that a file is created with.
-/
namespace Foxing.Nfs
open Failing Xdr

/-! ## The grammar -/

/-- How many bytes are ahead. -/
def remaining (d : Decoder) : ℕ := d.data.length - d.pos

def malformed : NfsError := .xdrDecode "malformed request"

/-- Read a whole string within the message. -/
def decodeWithin {α : Type} (m : Parser α) (bytes : Bytes) : Parser α := fun d =>
  match m ⟨bytes, 0⟩ with
  | .ok p => if remaining p.2 = 0 then .ok (p.1, d) else .error malformed
  | .error e => .error e

def found {α : Type} : Option α → Parser α
  | some a => pure a
  | none => throw malformed

/-- The numbers of the attributes that a request can set. -/
def fattr4Mode : ℕ := 33
def fattr4Owner : ℕ := 36
def fattr4OwnerGroup : ℕ := 37
def fattr4TimeModifySet : ℕ := 54

inductive AttrValue where
  | mode (n : ℕ)
  | owner (id : ℕ)
  | ownerGroup (id : ℕ)
  | timeModifySet (t : ℤ × ℤ)
  deriving DecidableEq, Repr

def AttrValue.mode? : AttrValue → Option ℕ
  | .mode n => some n
  | _ => none

def AttrValue.owner? : AttrValue → Option ℕ
  | .owner id => some id
  | _ => none

def AttrValue.ownerGroup? : AttrValue → Option ℕ
  | .ownerGroup id => some id
  | _ => none

def AttrValue.timeModifySet? : AttrValue → Option (ℤ × ℤ)
  | .timeModifySet t => some t
  | _ => none

def isDigit (b : Fin 256) : Prop := 48 ≤ b.val ∧ b.val ≤ 57

instance (b : Fin 256) : Decidable (isDigit b) := inferInstanceAs (Decidable (_ ∧ _))

/-- A user or a group that is sent as a number. -/
def parseId (text : Bytes) : Option ℕ :=
  if text ≠ [] ∧ ∀ b ∈ text, isDigit b then
    some (text.foldl (fun n b => 10 * n + (b.val - 48)) 0)
  else none

def decodeId : Parser ℕ := do
  let text ← xdr decodeOpaque
  found (parseId text)

/-- A time of the client: there is no other in a request. -/
def decodeSetTime : Parser (ℤ × ℤ) := do
  let how ← xdr decodeU32
  require (how = 1) malformed
  let secs ← xdr decodeU64
  let nsecs ← xdr decodeU32
  return (signed64 secs, nsecs)

def decodeAttr (number : ℕ) : Parser AttrValue :=
  if number = fattr4Mode then .mode <$> xdr decodeU32
  else if number = fattr4Owner then .owner <$> decodeId
  else if number = fattr4OwnerGroup then .ownerGroup <$> decodeId
  else if number = fattr4TimeModifySet then .timeModifySet <$> decodeSetTime
  else throw malformed

def decodeAttrs : List ℕ → Parser (List AttrValue)
  | [] => pure []
  | number :: numbers => do
    let value ← decodeAttr number
    let values ← decodeAttrs numbers
    return value :: values

/-- The attributes of a bitmap, from the lowest one on. -/
def attributesOf (bitmap : List ℕ) : List ℕ :=
  (List.range (32 * bitmap.length)).filter fun number =>
    (bitmap[number / 32]?).any (·.testBit (number % 32))

/-- Numbers behind how many there are. -/
def decodeCounted : Parser (List ℕ) := do
  let count ← xdr decodeU32
  xdr (decodeWords count)

def decodeFattr : Parser (List AttrValue) := do
  let bitmap ← decodeCounted
  let values ← xdr decodeOpaque
  decodeWithin (decodeAttrs (attributesOf bitmap)) values

def decodeBool : Parser Bool := do
  let n ← xdr decodeU32
  require (n < 2) malformed
  return n = 1

def decodeStateId : Parser StateId := do
  let seqid ← xdr decodeU32
  let other ← xdr (decodeOpaqueFixed 12)
  return ⟨seqid, other⟩

def decodeStable : Parser WriteStable := do
  let n ← xdr decodeU32
  found ([.unstable, .dataSync, .fileSync].find? (·.code = n))

def decodeSequence : Parser Nfs4Op := do
  let sessionId ← xdr (decodeOpaqueFixed 16)
  let sequenceId ← xdr decodeU32
  let slotId ← xdr decodeU32
  let highestSlotId ← xdr decodeU32
  let cacheThis ← decodeBool
  return .sequence sessionId sequenceId slotId highestSlotId cacheThis

/-- A file that is opened by its name, and created if it is not there. -/
def decodeOpen : Parser Nfs4Op := do
  let seqid ← xdr decodeU32
  let shareAccess ← xdr decodeU32
  let shareDeny ← xdr decodeU32
  let clientid ← xdr decodeU64
  let owner ← xdr decodeOpaque
  let opentype ← xdr decodeU32
  require (opentype = 1) malformed
  let createmode ← xdr decodeU32
  require (createmode = 0) malformed
  let attrs ← decodeFattr
  let mode ← found (attrs.findSome? AttrValue.mode?)
  let claim ← xdr decodeU32
  require (claim = 0) malformed
  let filename ← xdr decodeOpaque
  return .open_ seqid shareAccess shareDeny clientid owner filename mode

def decodeWrite : Parser Nfs4Op := do
  let stateid ← decodeStateId
  let offset ← xdr decodeU64
  let stable ← decodeStable
  let data ← xdr decodeOpaque
  return .write stateid offset stable data

def setAttrOf (stateid : StateId) (attrs : List AttrValue) : Nfs4Op :=
  .setAttr stateid (attrs.findSome? AttrValue.mode?) (attrs.findSome? AttrValue.owner?)
    (attrs.findSome? AttrValue.ownerGroup?) (attrs.findSome? AttrValue.timeModifySet?)

def decodeSetAttr : Parser Nfs4Op := do
  let stateid ← decodeStateId
  let attrs ← decodeFattr
  return setAttrOf stateid attrs

def decodeClose : Parser Nfs4Op := do
  let seqid ← xdr decodeU32
  let stateid ← decodeStateId
  return .close seqid stateid

/-- There are two words in a request. -/
def wordPair : List ℕ → Option (ℕ × ℕ)
  | [low, high] => some (low, high)
  | _ => none

def decodeGetAttr : Parser Nfs4Op := do
  let bitmap ← decodeCounted
  let attrRequest ← found (wordPair bitmap)
  return .getAttr attrRequest

/-- The state of every file system is complete. -/
def decodeReclaimComplete : Parser Nfs4Op := do
  let oneFs ← decodeBool
  require (oneFs = false) malformed
  return .reclaimComplete

def decodeArgs (op : ℕ) : Parser Nfs4Op :=
  if op = opSequence then decodeSequence
  else if op = opPutFh then .putFh <$> xdr decodeOpaque
  else if op = opPutRootFh then pure .putRootFh
  else if op = opLookup then .lookup <$> xdr decodeOpaque
  else if op = opOpen then decodeOpen
  else if op = opWrite then decodeWrite
  else if op = opSetAttr then decodeSetAttr
  else if op = opClose then decodeClose
  else if op = opGetAttr then decodeGetAttr
  else if op = opGetFh then pure .getFh
  else if op = opReclaimComplete then decodeReclaimComplete
  else throw malformed

def decodeOp : Parser Nfs4Op := do
  let op ← xdr decodeU32
  decodeArgs op

/-- One operation behind the other. -/
def decodeOps : ℕ → Parser (List Nfs4Op)
  | 0 => pure []
  | n + 1 => do
    let op ← decodeOp
    let ops ← decodeOps n
    return op :: ops

/-- Who sends a request, with a stamp and all groups. -/
structure AuthSys where
  stamp : ℕ
  machine : Bytes
  uid : ℕ
  gid : ℕ
  gids : List ℕ
  deriving DecidableEq, Repr

def decodeAuthSys : Parser AuthSys := do
  let stamp ← xdr decodeU32
  let machine ← xdr decodeOpaque
  let uid ← xdr decodeU32
  let gid ← xdr decodeU32
  let gids ← decodeCounted
  return { stamp, machine, uid, gid, gids }

/-- What stands in front of the operations. -/
structure CallHeader where
  xid : ℕ
  msgType : ℕ
  rpcVersion : ℕ
  program : ℕ
  version : ℕ
  procedure : ℕ
  flavor : ℕ
  credentials : AuthSys
  verifierFlavor : ℕ
  verifier : Bytes
  tag : Bytes
  minorVersion : ℕ
  deriving DecidableEq, Repr

structure Request where
  header : CallHeader
  ops : List Nfs4Op
  deriving DecidableEq, Repr

def decodeCall : Parser Request := do
  let xid ← xdr decodeU32
  let msgType ← xdr decodeU32
  let rpcVersion ← xdr decodeU32
  let program ← xdr decodeU32
  let version ← xdr decodeU32
  let procedure ← xdr decodeU32
  let flavor ← xdr decodeU32
  let body ← xdr decodeOpaque
  let credentials ← decodeWithin decodeAuthSys body
  let verifierFlavor ← xdr decodeU32
  let verifier ← xdr decodeOpaque
  let tag ← xdr decodeOpaque
  let minorVersion ← xdr decodeU32
  let count ← xdr decodeU32
  let ops ← decodeOps count
  return ⟨⟨xid, msgType, rpcVersion, program, version, procedure, flavor, credentials,
    verifierFlavor, verifier, tag, minorVersion⟩, ops⟩

/-- A request that is all there is, and what it says. -/
def decodeRequest (body : Bytes) : Except NfsError Request :=
  (decodeWithin decodeCall body ⟨[], 0⟩).map Prod.fst

/-- The mark in front of a fragment: is it the last one, and how long is it? -/
def decodeMark (message : Bytes) : Bool × ℕ :=
  let mark := ofBigEndian (message.take 4)
  (mark.testBit 31, mark % 2 ^ 31)

/-! ## Values that are read where they lie -/

/-- A parser reads the bytes of a value, and goes on behind them. -/
def Decodes {α : Type} (m : Parser α) (bs : Bytes) (a : α) : Prop :=
  ∀ ⦃d : Decoder⦄ ⦃rest : Bytes⦄, d.Ahead (bs ++ rest) →
    ∃ d', m d = .ok (a, d') ∧ d'.Ahead rest

namespace Decodes
variable {α β : Type} {m : Parser α} {k : α → Parser β} {bs bs' : Bytes} {a : α} {b : β}

theorem pure (a : α) : Decodes (Pure.pure a : Parser α) [] a :=
  fun d _ h => ⟨d, rfl, h⟩

theorem bind (hm : Decodes m bs a) (hk : Decodes (k a) bs' b) :
    Decodes (m >>= k) (bs ++ bs') b := by
  intro d rest h
  rw [List.append_assoc] at h
  obtain ⟨d₁, hread, h⟩ := hm h
  obtain ⟨d₂, hmore, h⟩ := hk h
  exact ⟨d₂, by rw [run_bind_ok hread, hmore], h⟩

/-- Nothing is read behind the last value. -/
theorem bind_last (hm : Decodes m bs a) (hk : Decodes (k a) [] b) : Decodes (m >>= k) bs b := by
  have h := hm.bind hk
  rwa [List.append_nil] at h

theorem map (f : α → β) (hm : Decodes m bs a) : Decodes (f <$> m) bs (f a) := by
  intro d rest h
  obtain ⟨d', hread, h⟩ := hm h
  refine ⟨d', ?_, h⟩
  show (m d >>= fun p => Except.ok (f p.1, p.2)) = _
  rw [hread]
  rfl

/-- What is required is there. -/
theorem require {ok : Prop} [Decidable ok] {e : NfsError} {k : Unit → Parser β} (hok : ok)
    (hk : Decodes (k ()) bs b) : Decodes (Nfs.require ok e >>= k) bs b := by
  unfold Nfs.require
  rw [if_pos hok]
  exact (pure ()).bind hk

theorem found {o : Option α} (ho : o = some a) : Decodes (Nfs.found o) [] a := by
  rw [ho]
  exact pure a

theorem within (hm : Decodes m bs a) (hk : Decodes (k a) bs' b) :
    Decodes (decodeWithin m bs >>= k) bs' b := by
  intro d rest h
  have hwhole : Decoder.Ahead ⟨bs, 0⟩ (bs ++ []) := by
    rw [List.append_nil]
    exact Decoder.ahead_zero bs
  obtain ⟨d₁, hread, hend, hnothing⟩ := hm hwhole
  have hremaining : remaining d₁ = 0 := by
    rw [remaining, ← List.length_drop, hnothing]
    rfl
  have hrun : decodeWithin m bs d = .ok (a, d) := by
    unfold decodeWithin
    rw [hread]
    exact if_pos hremaining
  obtain ⟨d₂, hmore, h⟩ := hk h
  exact ⟨d₂, by rw [run_bind_ok hrun, hmore], h⟩

theorem u32 {n : ℕ} (hn : n < 2 ^ 32) : Decodes (xdr decodeU32) (encodeU32 n) n :=
  fun _ _ h => decodeU32_of_lt hn h

theorem u64 {n : ℕ} (hn : n < 2 ^ 64) : Decodes (xdr decodeU64) (encodeU64 n) n := by
  intro d rest h
  obtain ⟨d', hread, h⟩ := decodeU64_ahead h
  rw [Nat.mod_eq_of_lt hn] at hread
  exact ⟨d', xdr_ok hread, h⟩

theorem string (hbs : bs.length < 2 ^ 32) : Decodes (xdr decodeOpaque) (encodeOpaque bs) bs := by
  intro d rest h
  obtain ⟨d', hread, h⟩ := decodeOpaque_ahead hbs h
  exact ⟨d', xdr_ok hread, h⟩

theorem fixed {n : ℕ} (hn : bs.length = n) :
    Decodes (xdr (decodeOpaqueFixed n)) (encodeOpaqueFixed bs) bs := by
  intro d rest h
  obtain ⟨d', hread, h⟩ := decodeOpaqueFixed_ahead h
  rw [hn] at hread
  exact ⟨d', xdr_ok hread, h⟩

theorem bool (value : Bool) : Decodes decodeBool (encodeBool value) value := by
  cases value with
  | false => exact (u32 (n := 0) (by decide)).bind_last (require (by decide) (pure _))
  | true => exact (u32 (n := 1) (by decide)).bind_last (require (by decide) (pure _))

theorem counted {words : List ℕ} (hcount : words.length < 2 ^ 32)
    (hwords : ∀ word ∈ words, word < 2 ^ 32) :
    Decodes decodeCounted (encodeBitmap words) words := by
  refine (u32 hcount).bind ?_
  intro d rest h
  obtain ⟨d', hread, h⟩ := decodeWords_ahead hwords h
  exact ⟨d', xdr_ok hread, h⟩

theorem stateId {id : StateId} (hseqid : id.seqid < 2 ^ 32) (hother : id.other.length = 12) :
    Decodes decodeStateId (encodeStateId id) id :=
  (u32 hseqid).bind ((fixed hother).bind_last (pure _))

theorem stable (s : WriteStable) : Decodes decodeStable (encodeU32 s.code) s := by
  refine (u32 ?_).bind_last (found ?_) <;> cases s <;> decide

end Decodes

/-! ## Attributes -/

theorem digit_toNat {c : Char} (hc : c.isDigit = true) : 48 ≤ c.toNat ∧ c.toNat ≤ 57 := by
  simp only [Char.isDigit, Bool.and_eq_true, decide_eq_true_eq] at hc
  exact hc

theorem foldl_digits {cs : List Char} (hcs : ∀ c ∈ cs, c.isDigit = true) (n : ℕ) :
    (cs.map fun c => Fin.ofNat 256 c.toNat).foldl (fun n b => 10 * n + (b.val - 48)) n =
      Nat.ofDigitChars 10 cs n := by
  induction cs generalizing n with
  | nil => rfl
  | cons c cs ih =>
    obtain ⟨hc, hcs⟩ := List.forall_mem_cons.mp hcs
    have hdigit := digit_toNat hc
    have hvalue : (Fin.ofNat 256 c.toNat).val = c.toNat := Nat.mod_eq_of_lt (by omega)
    rw [List.map_cons, List.foldl_cons, ih hcs, hvalue, Nat.ofDigitChars_cons]
    rfl

/-- A number is read from its digits. -/
theorem parseId_decimalText (n : ℕ) : parseId (decimalText n) = some n := by
  have hdigits : ∀ c ∈ Nat.toDigits 10 n, c.isDigit = true := fun c hc =>
    Nat.isDigit_of_mem_toDigits (by omega) (le_refl 10) hc
  have htext : decimalText n ≠ [] ∧ ∀ b ∈ decimalText n, isDigit b := by
    refine ⟨fun h => Nat.toDigits_ne_nil (List.map_eq_nil_iff.mp h), ?_⟩
    intro b hb
    obtain ⟨c, hc, rfl⟩ := List.mem_map.mp hb
    have hdigit := digit_toNat (hdigits c hc)
    have hvalue : (Fin.ofNat 256 c.toNat).val = c.toNat := Nat.mod_eq_of_lt (by omega)
    unfold isDigit
    omega
  rw [parseId, if_pos htext, decimalText, foldl_digits hdigits, Nat.ofDigitChars_ten_toDigits]

theorem length_decimalText {n : ℕ} (hn : n < 2 ^ 32) : (decimalText n).length ≤ 10 := by
  rw [decimalText, List.length_map, Nat.length_toDigits_le_iff (by omega) (by omega)]
  omega

theorem length_encodeOpaque (bs : Bytes) :
    bs.length + 4 ≤ (encodeOpaque bs).length ∧ (encodeOpaque bs).length ≤ bs.length + 7 := by
  simp only [encodeOpaque, encodeOpaqueFixed, padding, List.length_append, length_encodeU32,
    List.length_replicate]
  omega

/-- The attributes of a bitmap are read in increasing order. -/
theorem pairwise_attributesOf (bitmap : List ℕ) : (attributesOf bitmap).Pairwise (· < ·) :=
  List.pairwise_lt_range.filter _

/-- The bits of the second word are those of the attributes that are there. -/
theorem attributesOf_word (mode uid gid : Bool) :
    attributesOf [0, bitIf mode fattr4ModeBit + bitIf uid fattr4OwnerBit +
        bitIf gid fattr4OwnerGroupBit] =
      (if mode then [fattr4Mode] else []) ++ ((if uid then [fattr4Owner] else []) ++
        ((if gid then [fattr4OwnerGroup] else []) ++ [])) := by
  cases mode <;> cases uid <;> cases gid <;> decide

namespace Decodes
variable {bs : Bytes} {n : ℕ}

theorem modeAttr (hn : n < 2 ^ 32) :
    Decodes (decodeAttr fattr4Mode) (encodeU32 n) (.mode n) := (u32 hn).map _

theorem id (hn : n < 2 ^ 32) : Decodes decodeId (encodeOpaque (decimalText n)) n := by
  have hlength := length_decimalText hn
  exact (string (by omega)).bind_last (found (parseId_decimalText n))

theorem ownerAttr (hn : n < 2 ^ 32) :
    Decodes (decodeAttr fattr4Owner) (encodeOpaque (decimalText n)) (.owner n) := (id hn).map _

theorem ownerGroupAttr (hn : n < 2 ^ 32) :
    Decodes (decodeAttr fattr4OwnerGroup) (encodeOpaque (decimalText n)) (.ownerGroup n) :=
  (id hn).map _

/-- An attribute that may be there, in front of others. -/
theorem attr_option {α : Type} {o : Option α} {number : ℕ} {encode : α → Bytes}
    {value : α → AttrValue} {numbers : List ℕ} {values : List AttrValue}
    (ho : ∀ a ∈ o, Decodes (decodeAttr number) (encode a) (value a))
    (hrest : Decodes (decodeAttrs numbers) bs values) :
    Decodes (decodeAttrs ((if o.isSome then [number] else []) ++ numbers))
      (o.elim [] encode ++ bs) ((o.map value).toList ++ values) := by
  cases o with
  | none => exact hrest
  | some a => exact (ho a rfl).bind (hrest.bind_last (pure _))

end Decodes

/-- The second word of the attributes, and their values. -/
def attrWord (mode uid gid : Option ℕ) : ℕ :=
  bitIf mode.isSome fattr4ModeBit + bitIf uid.isSome fattr4OwnerBit +
    bitIf gid.isSome fattr4OwnerGroupBit

def attrBytes (mode uid gid : Option ℕ) : Bytes :=
  mode.elim [] encodeU32 ++ (uid.elim [] (encodeOpaque ∘ decimalText) ++
    (gid.elim [] (encodeOpaque ∘ decimalText) ++ []))

def attrValues (mode uid gid : Option ℕ) : List AttrValue :=
  (mode.map AttrValue.mode).toList ++ ((uid.map AttrValue.owner).toList ++
    ((gid.map AttrValue.ownerGroup).toList ++ []))

theorem encodeAttrs_eq (mode uid gid : Option ℕ) : encodeAttrs mode uid gid none =
    encodeBitmap [0, attrWord mode uid gid] ++ encodeOpaque (attrBytes mode uid gid) := by
  simp [encodeAttrs, attrWord, attrBytes, encodeBitmap, bitIf]

theorem attrWord_lt (mode uid gid : Option ℕ) : attrWord mode uid gid < 2 ^ 32 := by
  unfold attrWord bitIf
  split_ifs <;> decide

section Attributes
variable {mode uid gid : Option ℕ} (hmode : ∀ n ∈ mode, n < 2 ^ 32)
  (huid : ∀ n ∈ uid, n < 2 ^ 32) (hgid : ∀ n ∈ gid, n < 2 ^ 32)
include hmode huid hgid

theorem length_attrBytes : (attrBytes mode uid gid).length < 2 ^ 32 := by
  have hid : ∀ o : Option ℕ, (∀ n ∈ o, n < 2 ^ 32) →
      (o.elim [] (encodeOpaque ∘ decimalText)).length ≤ 17 := by
    intro o ho
    cases o with
    | none => simp
    | some n =>
      have hdigits := length_decimalText (ho n rfl)
      have hopaque := (length_encodeOpaque (decimalText n)).2
      simp only [Option.elim_some, Function.comp_apply]
      omega
  have hfirst : (mode.elim [] encodeU32).length ≤ 4 := by cases mode <;> simp
  have hsecond := hid uid huid
  have hthird := hid gid hgid
  simp only [attrBytes, List.length_append, List.length_nil]
  omega

theorem decodeAttrs_attrBytes :
    Decodes (decodeAttrs (attributesOf [0, attrWord mode uid gid])) (attrBytes mode uid gid)
      (attrValues mode uid gid) := by
  rw [attrWord, attributesOf_word]
  exact .attr_option (fun n hn => .modeAttr (hmode n hn))
    (.attr_option (fun n hn => .ownerAttr (huid n hn))
      (.attr_option (fun n hn => .ownerGroupAttr (hgid n hn)) (.pure [])))

/-- Attributes without a time are read with all their values. -/
theorem decodeFattr_encodeAttrs :
    Decodes decodeFattr (encodeAttrs mode uid gid none) (attrValues mode uid gid) := by
  have hwords : ∀ word ∈ [0, attrWord mode uid gid], word < 2 ^ 32 :=
    List.forall_mem_cons.mpr ⟨by decide, List.forall_mem_singleton.mpr (attrWord_lt mode uid gid)⟩
  have hvalues := decodeAttrs_attrBytes hmode huid hgid
  rw [encodeAttrs_eq]
  refine (Decodes.counted (by simp) hwords).bind ?_
  refine (Decodes.string (length_attrBytes hmode huid hgid)).bind_last ?_
  exact bind_pure (decodeWithin _ _) ▸ hvalues.within (.pure _)

end Attributes

theorem setAttrOf_attrValues (stateid : StateId) (mode uid gid : Option ℕ) :
    setAttrOf stateid (attrValues mode uid gid) = .setAttr stateid mode uid gid none := by
  cases mode <;> cases uid <;> cases gid <;> rfl

/-! ## Operations -/

/-- Numbers are as wide as their types, and strings as long as can be sent. -/
def StateId.Fits (id : StateId) : Prop := id.seqid < 2 ^ 32 ∧ id.other.length = 12

def Nfs4Op.Fits : Nfs4Op → Prop
  | .sequence sessionId sequenceId slotId highestSlotId _ =>
    sessionId.length = 16 ∧ sequenceId < 2 ^ 32 ∧ slotId < 2 ^ 32 ∧ highestSlotId < 2 ^ 32
  | .putFh handle => handle.length < 2 ^ 32
  | .lookup name => name.length < 2 ^ 32
  | .open_ seqid shareAccess shareDeny clientid owner filename mode =>
    seqid < 2 ^ 32 ∧ shareAccess < 2 ^ 32 ∧ shareDeny < 2 ^ 32 ∧ clientid < 2 ^ 64 ∧
      owner.length < 2 ^ 32 ∧ filename.length < 2 ^ 32 ∧ mode < 2 ^ 32
  | .write stateid offset _ data => stateid.Fits ∧ offset < 2 ^ 64 ∧ data.length < 2 ^ 32
  | .setAttr stateid mode uid gid mtime =>
    stateid.Fits ∧ (∀ n ∈ mode, n < 2 ^ 32) ∧ (∀ n ∈ uid, n < 2 ^ 32) ∧
      (∀ n ∈ gid, n < 2 ^ 32) ∧
      ∀ t ∈ mtime, (-2 ^ 63 ≤ t.1 ∧ t.1 < 2 ^ 63) ∧ -2 ^ 63 ≤ t.2 ∧ t.2 < 2 ^ 63
  | .close seqid stateid => seqid < 2 ^ 32 ∧ stateid.Fits
  | .getAttr attrRequest => attrRequest.1 < 2 ^ 32 ∧ attrRequest.2 < 2 ^ 32
  | .putRootFh | .getFh | .reclaimComplete => True

/-- The time of the last change that an operation sets. -/
def Nfs4Op.mtime? : Nfs4Op → Option (ℤ × ℤ)
  | .setAttr _ _ _ _ mtime => mtime
  | _ => none

/-- Twelve bits of the mode of a new file are sent. -/
def Nfs4Op.sent : Nfs4Op → Nfs4Op
  | .open_ seqid shareAccess shareDeny clientid owner filename mode =>
    .open_ seqid shareAccess shareDeny clientid owner filename (mode % 4096)
  | op => op

section Operations
variable {seqid : ℕ} {stateid : StateId}

attribute [local simp] encodeOp

theorem decodeOp_sequence {sessionId : Bytes} {sequenceId slotId highestSlotId : ℕ}
    {cacheThis : Bool}
    (h : (Nfs4Op.sequence sessionId sequenceId slotId highestSlotId cacheThis).Fits) :
    Decodes decodeOp (encodeOp (.sequence sessionId sequenceId slotId highestSlotId cacheThis))
      (.sequence sessionId sequenceId slotId highestSlotId cacheThis) := by
  obtain ⟨hsession, hsequence, hslot, hhighest⟩ := h
  simp only [encodeOp, List.append_assoc]
  refine (Decodes.u32 (by decide)).bind ((Decodes.fixed hsession).bind ?_)
  exact (Decodes.u32 hsequence).bind ((Decodes.u32 hslot).bind ((Decodes.u32 hhighest).bind
    ((Decodes.bool cacheThis).bind_last (.pure _))))

/-- The attributes of a new file are its mode only. -/
theorem encodeOp_open (seqid shareAccess shareDeny clientid : ℕ) (owner filename : Bytes)
    (mode : ℕ) :
    encodeOp (.open_ seqid shareAccess shareDeny clientid owner filename mode) =
      encodeU32 opOpen ++ (encodeU32 seqid ++ (encodeU32 shareAccess ++ (encodeU32 shareDeny ++
        (encodeU64 clientid ++ (encodeOpaque owner ++ (encodeU32 1 ++ (encodeU32 0 ++
          (encodeAttrs (some (mode % 4096)) none none none ++
            (encodeU32 0 ++ encodeOpaque filename))))))))) := by
  simp [encodeOp, encodeAttrs, bitIf, openBitmap]

theorem decodeOp_open {shareAccess shareDeny clientid mode : ℕ} {owner filename : Bytes}
    (h : (Nfs4Op.open_ seqid shareAccess shareDeny clientid owner filename mode).Fits) :
    Decodes decodeOp (encodeOp (.open_ seqid shareAccess shareDeny clientid owner filename mode))
      (.open_ seqid shareAccess shareDeny clientid owner filename (mode % 4096)) := by
  obtain ⟨hseqid, haccess, hdeny, hclientid, howner, hfilename, -⟩ := h
  have hmode : ∀ n ∈ some (mode % 4096), n < 2 ^ 32 := by
    rintro _ ⟨⟩
    omega
  have hattrs : Decodes decodeFattr (encodeAttrs (some (mode % 4096)) none none none)
      (attrValues (some (mode % 4096)) none none) :=
    decodeFattr_encodeAttrs hmode (by simp) (by simp)
  rw [encodeOp_open]
  refine (Decodes.u32 (by decide)).bind ((Decodes.u32 hseqid).bind ((Decodes.u32 haccess).bind
    ((Decodes.u32 hdeny).bind ((Decodes.u64 hclientid).bind ((Decodes.string howner).bind ?_)))))
  refine (Decodes.u32 (by decide)).bind (.require rfl ?_)
  refine (Decodes.u32 (by decide)).bind (.require rfl (hattrs.bind ?_))
  refine (Decodes.found rfl).bind ((Decodes.u32 (by decide)).bind (.require rfl ?_))
  exact (Decodes.string hfilename).bind_last (.pure _)

theorem decodeOp_write {offset : ℕ} {stable : WriteStable} {data : Bytes}
    (h : (Nfs4Op.write stateid offset stable data).Fits) :
    Decodes decodeOp (encodeOp (.write stateid offset stable data))
      (.write stateid offset stable data) := by
  obtain ⟨hid, hoffset, hdata⟩ := h
  simp only [encodeOp, List.append_assoc]
  refine (Decodes.u32 (by decide)).bind ((Decodes.stateId hid.1 hid.2).bind ?_)
  exact (Decodes.u64 hoffset).bind ((Decodes.stable stable).bind
    ((Decodes.string hdata).bind_last (.pure _)))

theorem decodeOp_setAttr {mode uid gid : Option ℕ}
    (h : (Nfs4Op.setAttr stateid mode uid gid none).Fits) :
    Decodes decodeOp (encodeOp (.setAttr stateid mode uid gid none))
      (.setAttr stateid mode uid gid none) := by
  obtain ⟨hid, hmode, huid, hgid, -⟩ := h
  simp only [encodeOp, List.append_assoc]
  rw [← setAttrOf_attrValues]
  refine (Decodes.u32 (by decide)).bind ((Decodes.stateId hid.1 hid.2).bind ?_)
  exact (decodeFattr_encodeAttrs hmode huid hgid).bind_last (.pure _)

theorem decodeOp_close (h : (Nfs4Op.close seqid stateid).Fits) :
    Decodes decodeOp (encodeOp (.close seqid stateid)) (.close seqid stateid) := by
  obtain ⟨hseqid, hid⟩ := h
  simp only [encodeOp, List.append_assoc]
  refine (Decodes.u32 (by decide)).bind ((Decodes.u32 hseqid).bind ?_)
  exact (Decodes.stateId hid.1 hid.2).bind_last (.pure _)

theorem decodeOp_getAttr {attrRequest : ℕ × ℕ} (h : (Nfs4Op.getAttr attrRequest).Fits) :
    Decodes decodeOp (encodeOp (.getAttr attrRequest)) (.getAttr attrRequest) := by
  have hbytes : encodeOp (.getAttr attrRequest) =
      encodeU32 opGetAttr ++ encodeBitmap [attrRequest.1, attrRequest.2] := by
    simp [encodeOp, encodeBitmap]
  have hwords : ∀ word ∈ [attrRequest.1, attrRequest.2], word < 2 ^ 32 :=
    List.forall_mem_cons.mpr ⟨h.1, List.forall_mem_singleton.mpr h.2⟩
  have hcount : [attrRequest.1, attrRequest.2].length < 2 ^ 32 := by simp
  rw [hbytes]
  refine (Decodes.u32 (by decide)).bind ((Decodes.counted hcount hwords).bind_last ?_)
  exact (Decodes.found rfl).bind_last (.pure _)

/-- An operation is read as it has been sent. -/
theorem decodeOp_encodeOp {op : Nfs4Op} (hfits : op.Fits) (hmtime : op.mtime? = none) :
    Decodes decodeOp (encodeOp op) op.sent := by
  cases op with
  | sequence => exact decodeOp_sequence hfits
  | putFh => exact (Decodes.u32 (by decide)).bind ((Decodes.string hfits).map _)
  | putRootFh => exact (Decodes.u32 (by decide)).bind_last (.pure _)
  | lookup => exact (Decodes.u32 (by decide)).bind ((Decodes.string hfits).map _)
  | open_ => exact decodeOp_open hfits
  | write => exact decodeOp_write hfits
  | setAttr stateid mode uid gid mtime =>
    obtain rfl : mtime = none := hmtime
    exact decodeOp_setAttr hfits
  | close => exact decodeOp_close hfits
  | getAttr => exact decodeOp_getAttr hfits
  | getFh => exact (Decodes.u32 (by decide)).bind_last (.pure _)
  | reclaimComplete =>
    exact (Decodes.u32 (by decide)).bind
      ((Decodes.bool false).bind_last (.require rfl (.pure _)))

end Operations

theorem decodeOps_encodeOps {ops : List Nfs4Op} (hfits : ∀ op ∈ ops, op.Fits)
    (hmtime : ∀ op ∈ ops, op.mtime? = none) :
    Decodes (decodeOps ops.length) (ops.flatMap encodeOp) (ops.map Nfs4Op.sent) := by
  induction ops with
  | nil => exact .pure []
  | cons op ops ih =>
    obtain ⟨hfit, hfits⟩ := List.forall_mem_cons.mp hfits
    obtain ⟨hop, hmtime⟩ := List.forall_mem_cons.mp hmtime
    exact (decodeOp_encodeOp hfit hop).bind ((ih hfits hmtime).bind_last (.pure _))

/-! ## Messages -/

def Credentials.Fits (c : Credentials) : Prop := c.uid < 2 ^ 32 ∧ c.gid < 2 ^ 32

def Credentials.sent (c : Credentials) : AuthSys := ⟨0, c.machine, c.uid, c.gid, [c.gid]⟩

/-- The header of a call. -/
def callHeader (xid : ℕ) (tag : Bytes) (c : Credentials) : CallHeader where
  xid := xid
  msgType := 0
  rpcVersion := 2
  program := 100003
  version := 4
  procedure := 1
  flavor := 1
  credentials := c.sent
  verifierFlavor := 0
  verifier := []
  tag := tag
  minorVersion := 2

/-- What is behind the record mark. -/
def compoundBody (xid : ℕ) (tag : Bytes) (c : Credentials) (ops : List Nfs4Op) : Bytes :=
  encodeCallHeader xid tag c ops.length ++ ops.flatMap encodeOp

theorem length_encodeOps (ops : List Nfs4Op) : ops.length ≤ (ops.flatMap encodeOp).length := by
  induction ops with
  | nil => exact le_refl 0
  | cons op ops ih =>
    have hop : 1 ≤ (encodeOp op).length := by
      cases op <;> simp only [encodeOp, List.length_append, length_encodeU32] <;> omega
    rw [List.flatMap_cons, List.length_append, List.length_cons]
    omega

section Messages
variable {xid : ℕ} {tag : Bytes} {c : Credentials} {ops : List Nfs4Op}

/-- The strings of the header and the number of operations are as short as the message. -/
theorem lengths_lt (hbody : (compoundBody xid tag c ops).length < 2 ^ 31) :
    c.machine.length < 2 ^ 32 ∧ (encodeAuthSysBody c).length < 2 ^ 32 ∧ tag.length < 2 ^ 32 ∧
      ops.length < 2 ^ 32 := by
  have hops := length_encodeOps ops
  have htag := (length_encodeOpaque tag).1
  have hauth := (length_encodeOpaque (encodeAuthSysBody c)).1
  have hmachine : c.machine.length ≤ (encodeAuthSysBody c).length := by
    have hopaque := (length_encodeOpaque c.machine).1
    simp only [encodeAuthSysBody, List.length_append]
    omega
  simp only [compoundBody, encodeCallHeader, encodeAuthSys, List.length_append] at hbody
  omega

theorem decodeAuthSys_encode (hc : c.Fits) (hmachine : c.machine.length < 2 ^ 32) :
    Decodes decodeAuthSys (encodeAuthSysBody c) c.sent := by
  have hbytes : encodeAuthSysBody c = encodeU32 0 ++ (encodeOpaque c.machine ++
      (encodeU32 c.uid ++ (encodeU32 c.gid ++ encodeBitmap [c.gid]))) := by
    simp [encodeAuthSysBody, encodeBitmap]
  rw [hbytes]
  refine (Decodes.u32 (by decide)).bind ((Decodes.string hmachine).bind ?_)
  refine (Decodes.u32 hc.1).bind ((Decodes.u32 hc.2).bind ?_)
  exact (Decodes.counted (by simp) (List.forall_mem_singleton.mpr hc.2)).bind_last (.pure _)

/-- A whole message is read. -/
theorem decodeCall_compoundBody (hxid : xid < 2 ^ 32) (hc : c.Fits)
    (hfits : ∀ op ∈ ops, op.Fits) (hmtime : ∀ op ∈ ops, op.mtime? = none)
    (hbody : (compoundBody xid tag c ops).length < 2 ^ 31) :
    Decodes decodeCall (compoundBody xid tag c ops)
      ⟨callHeader xid tag c, ops.map Nfs4Op.sent⟩ := by
  obtain ⟨hmachine, hauth, htag, hcount⟩ := lengths_lt hbody
  have hbytes : compoundBody xid tag c ops = encodeU32 xid ++ (encodeU32 0 ++ (encodeU32 2 ++
      (encodeU32 100003 ++ (encodeU32 4 ++ (encodeU32 1 ++ (encodeU32 1 ++
        (encodeOpaque (encodeAuthSysBody c) ++ (encodeU32 0 ++ (encodeOpaque [] ++
          (encodeOpaque tag ++ (encodeU32 2 ++ (encodeU32 ops.length ++
            ops.flatMap encodeOp)))))))))))) := by
    simp [compoundBody, encodeCallHeader, encodeAuthSys, encodeOpaque, encodeOpaqueFixed, padding]
  rw [hbytes]
  refine (Decodes.u32 hxid).bind ((Decodes.u32 (by decide)).bind ?_)
  refine (Decodes.u32 (by decide)).bind ?_
  refine (Decodes.u32 (by decide)).bind ((Decodes.u32 (by decide)).bind ?_)
  refine (Decodes.u32 (by decide)).bind ((Decodes.u32 (by decide)).bind ?_)
  refine (Decodes.string hauth).bind (.within (decodeAuthSys_encode hc hmachine) ?_)
  refine (Decodes.u32 (by decide)).bind ((Decodes.string (by decide)).bind ?_)
  refine (Decodes.string htag).bind ((Decodes.u32 (by decide)).bind ((Decodes.u32 hcount).bind ?_))
  exact (decodeOps_encodeOps hfits hmtime).bind_last (.pure _)

/-- The mark says that the fragment is the last one, and how long it is. -/
theorem decodeMark_recordMark {body : Bytes} (hbody : body.length < 2 ^ 31) :
    decodeMark (recordMark body ++ body) = (true, body.length) := by
  have hmod : body.length % 2 ^ 32 = body.length := Nat.mod_eq_of_lt (by omega)
  have hor : 2 ^ 31 ||| body.length = 2 ^ 31 + body.length := by
    have h := Nat.two_pow_add_eq_or_of_lt hbody 1
    rw [Nat.mul_one] at h
    exact h.symm
  have hmark : ofBigEndian ((recordMark body ++ body).take 4) = 2 ^ 31 + body.length := by
    rw [recordMark, hmod, hor, List.take_left' (length_encodeU32 _), encodeU32,
      ofBigEndian_bigEndian]
    exact Nat.mod_eq_of_lt (by omega)
  have hbit : (2 ^ 31 + body.length).testBit 31 = true := by
    rw [Nat.testBit_two_pow_add_eq, Nat.testBit_lt_two_pow hbody]
    rfl
  rw [decodeMark, hmark]
  simp only [hbit, Prod.mk.injEq, true_and]
  omega

/-- A request is a single fragment with its length, and its body is read to the end: the header,
the credentials and the operations come back, save the bits of the mode of a new file that are not
sent. Attributes are read in increasing order. -/
theorem buildCompound_decodable (hxid : xid < 2 ^ 32) (hc : c.Fits)
    (hfits : ∀ op ∈ ops, op.Fits) (hmtime : ∀ op ∈ ops, op.mtime? = none)
    (hbody : (compoundBody xid tag c ops).length < 2 ^ 31) :
    (buildCompound xid tag c ops).drop 4 = compoundBody xid tag c ops ∧
      decodeMark (buildCompound xid tag c ops) = (true, (compoundBody xid tag c ops).length) ∧
      decodeRequest (compoundBody xid tag c ops) =
        .ok ⟨callHeader xid tag c, ops.map Nfs4Op.sent⟩ ∧
      ∀ bitmap, (attributesOf bitmap).Pairwise (· < ·) := by
  have hmark : (recordMark (compoundBody xid tag c ops)).length = 4 := length_encodeU32 _
  refine ⟨List.drop_left' hmark, decodeMark_recordMark hbody, ?_, pairwise_attributesOf⟩
  have hcall := decodeCall_compoundBody hxid hc hfits hmtime hbody
  obtain ⟨d, hread, -⟩ := hcall.within (.pure _) (Decoder.ahead_zero [])
  have hrun : decodeWithin decodeCall (compoundBody xid tag c ops) ⟨[], 0⟩ =
      .ok (⟨callHeader xid tag c, ops.map Nfs4Op.sent⟩, d) := by
    rw [← hread]
    exact congrFun (bind_pure _).symm _
  rw [decodeRequest, hrun]
  rfl

end Messages

/-- A file that is created and given to a user. -/
def createOps : List Nfs4Op :=
  [.putRootFh, .open_ 0 2 0 5 [7] [102] 33188, .write .current 0 .fileSync [1, 2, 3],
    .setAttr .current (some 420) (some 1000) (some 100) none]

def nobody : Credentials := ⟨65534, 65534, [104]⟩

theorem createOps_fit : ∀ op ∈ createOps, op.Fits := by
  unfold createOps
  simp [Nfs4Op.Fits, StateId.Fits, StateId.current]

theorem createOps_decodable :
    (buildCompound 1 [] nobody createOps).drop 4 = compoundBody 1 [] nobody createOps ∧
      decodeMark (buildCompound 1 [] nobody createOps) =
        (true, (compoundBody 1 [] nobody createOps).length) ∧
      decodeRequest (compoundBody 1 [] nobody createOps) =
        .ok ⟨callHeader 1 [] nobody, createOps.map Nfs4Op.sent⟩ ∧
      ∀ bitmap, (attributesOf bitmap).Pairwise (· < ·) :=
  buildCompound_decodable (by decide) ⟨by decide, by decide⟩ createOps_fit (by decide)
    (by decide +kernel)

/-- The type of a file is not sent with its mode: the operations that come back are others. -/
theorem fileType_not_sent :
    (∀ op ∈ createOps, op.Fits) ∧ (compoundBody 1 [] nobody createOps).length < 2 ^ 31 ∧
      decodeRequest (compoundBody 1 [] nobody createOps) ≠
        .ok ⟨callHeader 1 [] nobody, createOps⟩ :=
  ⟨createOps_fit, by decide +kernel, by decide +kernel⟩

end Foxing.Nfs
