import Foxing.Lib.Bytes

/-!
# External data representation

Big-endian numbers, and byte strings that are padded to a multiple of four bytes. A decoder
has a byte string and a position in it, which may be moved behind the end by the padding of a
string that is not all there. A value that has been encoded is decoded where it lies ahead.
-/

namespace Xdr

/-! ## Encoding -/

/-- A number in `w` bytes, the highest one first. -/
def bigEndian (w n : ℕ) : Bytes := (Bytes.ofNat w n).reverse

def encodeU32 (n : ℕ) : Bytes := bigEndian 4 n

def encodeU64 (n : ℕ) : Bytes := bigEndian 8 n

def encodeBool (b : Bool) : Bytes := encodeU32 (if b then 1 else 0)

/-- How many bytes are missing to a multiple of four. -/
def padding (n : ℕ) : ℕ := (4 - n % 4) % 4

def encodeOpaqueFixed (data : Bytes) : Bytes := data ++ List.replicate (padding data.length) 0

def encodeOpaque (data : Bytes) : Bytes := encodeU32 data.length ++ encodeOpaqueFixed data

@[simp] theorem length_bigEndian (w n : ℕ) : (bigEndian w n).length = w := by
  simp [bigEndian]

@[simp] theorem length_encodeU32 (n : ℕ) : (encodeU32 n).length = 4 := length_bigEndian 4 n

@[simp] theorem length_encodeU64 (n : ℕ) : (encodeU64 n).length = 8 := length_bigEndian 8 n

/-! ## Decoding -/

inductive DecodeError where
  | truncated
  deriving DecidableEq, Repr

structure Decoder where
  data : Bytes
  pos : ℕ
  deriving DecidableEq, Repr

/-- A computation that takes a decoder on and may fail. -/
abbrev Reader (α : Type) := StateT Decoder (Except DecodeError) α

/-- Take `n` bytes and go on by `m`. -/
def take (n m : ℕ) : Reader Bytes := fun d =>
  if d.data.length < d.pos + n then .error .truncated
  else .ok ((d.data.drop d.pos).take n, { d with pos := d.pos + m })

def ofBigEndian (bs : Bytes) : ℕ := Bytes.toNat bs.reverse

def decodeU32 : Reader ℕ := ofBigEndian <$> take 4 4

def decodeU64 : Reader ℕ := ofBigEndian <$> take 8 8

def decodeOpaqueFixed (n : ℕ) : Reader Bytes := take n (n + padding n)

def decodeOpaque : Reader Bytes := do
  let n ← decodeU32
  decodeOpaqueFixed n

def skipRaw (n : ℕ) : Reader Unit := do
  let _ ← take n n

/-! ## What lies ahead -/

/-- The rest of the data from the position on. -/
def Decoder.Ahead (d : Decoder) (bs : Bytes) : Prop :=
  d.pos ≤ d.data.length ∧ d.data.drop d.pos = bs

theorem Decoder.ahead_zero (bs : Bytes) : Decoder.Ahead ⟨bs, 0⟩ bs := ⟨Nat.zero_le _, rfl⟩

section Steps
variable {d : Decoder} {bs rest : Bytes}

theorem run_bind_ok {α β : Type} {m : Reader α} {k : α → Reader β} {a : α} {d' : Decoder}
    (h : m d = .ok (a, d')) : (m >>= k) d = k a d' := by
  show (m d >>= fun p => k p.1 p.2) = _
  rw [h]
  rfl

theorem run_map_ok {α β : Type} {m : Reader α} {f : α → β} {a : α} {d' : Decoder}
    (h : m d = .ok (a, d')) : (f <$> m) d = .ok (f a, d') := by
  show (m d >>= fun p => pure (f p.1, p.2)) = _
  rw [h]
  rfl

/-- The bytes ahead are taken, with some more that are passed over. -/
theorem take_ahead {pad : Bytes} (h : d.Ahead (bs ++ (pad ++ rest))) :
    ∃ d', take bs.length (bs.length + pad.length) d = .ok (bs, d') ∧ d'.Ahead rest := by
  obtain ⟨hle, hdrop⟩ := h
  have hlength : d.data.length = d.pos + (bs.length + (pad.length + rest.length)) := by
    have := congrArg List.length hdrop
    simp only [List.length_drop, List.length_append] at this
    omega
  refine ⟨{ d with pos := d.pos + (bs.length + pad.length) }, ?_, ?_, ?_⟩
  · unfold take
    rw [if_neg (by omega), hdrop, List.take_left]
  · dsimp only
    omega
  · dsimp only
    rw [← List.drop_drop, hdrop, ← List.append_assoc, ← List.length_append, List.drop_left]

theorem take_ahead' {n : ℕ} (hn : bs.length = n) (h : d.Ahead (bs ++ rest)) :
    ∃ d', take n n d = .ok (bs, d') ∧ d'.Ahead rest := by
  subst hn
  have h' : d.Ahead (bs ++ ([] ++ rest)) := h
  exact take_ahead h'

theorem ofBigEndian_bigEndian (w n : ℕ) : ofBigEndian (bigEndian w n) = n % 256 ^ w := by
  rw [ofBigEndian, bigEndian, List.reverse_reverse, Bytes.toNat_ofNat]

theorem decodeU32_ahead {n : ℕ} (h : d.Ahead (encodeU32 n ++ rest)) :
    ∃ d', decodeU32 d = .ok (n % 2 ^ 32, d') ∧ d'.Ahead rest := by
  obtain ⟨d', htake, hrest⟩ := take_ahead' (length_encodeU32 n) h
  refine ⟨d', ?_, hrest⟩
  have hwidth : (256 : ℕ) ^ 4 = 2 ^ 32 := rfl
  rw [decodeU32, run_map_ok htake, encodeU32, ofBigEndian_bigEndian, hwidth]

theorem decodeU64_ahead {n : ℕ} (h : d.Ahead (encodeU64 n ++ rest)) :
    ∃ d', decodeU64 d = .ok (n % 2 ^ 64, d') ∧ d'.Ahead rest := by
  obtain ⟨d', htake, hrest⟩ := take_ahead' (length_encodeU64 n) h
  refine ⟨d', ?_, hrest⟩
  have hwidth : (256 : ℕ) ^ 8 = 2 ^ 64 := rfl
  rw [decodeU64, run_map_ok htake, encodeU64, ofBigEndian_bigEndian, hwidth]

theorem decodeOpaqueFixed_ahead (h : d.Ahead (encodeOpaqueFixed bs ++ rest)) :
    ∃ d', decodeOpaqueFixed bs.length d = .ok (bs, d') ∧ d'.Ahead rest := by
  rw [encodeOpaqueFixed, List.append_assoc] at h
  obtain ⟨d', htake, hrest⟩ := take_ahead h
  rw [List.length_replicate] at htake
  exact ⟨d', htake, hrest⟩

theorem decodeOpaque_ahead (hlt : bs.length < 2 ^ 32) (h : d.Ahead (encodeOpaque bs ++ rest)) :
    ∃ d', decodeOpaque d = .ok (bs, d') ∧ d'.Ahead rest := by
  rw [encodeOpaque, List.append_assoc] at h
  obtain ⟨d₁, hlength, h⟩ := decodeU32_ahead h
  obtain ⟨d₂, hdata, h⟩ := decodeOpaqueFixed_ahead h
  rw [Nat.mod_eq_of_lt hlt] at hlength
  refine ⟨d₂, ?_, h⟩
  rw [decodeOpaque, run_bind_ok hlength, hdata]

theorem skipRaw_ahead {n : ℕ} (hn : bs.length = n) (h : d.Ahead (bs ++ rest)) :
    ∃ d', skipRaw n d = .ok ((), d') ∧ d'.Ahead rest := by
  obtain ⟨d', htake, hrest⟩ := take_ahead' hn h
  exact ⟨d', by rw [skipRaw, run_bind_ok htake]; rfl, hrest⟩

end Steps

end Xdr
