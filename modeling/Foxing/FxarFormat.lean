import Foxing.Chunker

/-!
# The FXAR archive format

The records of an archive and their binary layout: a header of 64 bytes, the
compressed manifest with its two lengths, an index of 48 bytes for each chunk,
the chunks, and for streams a footer of 32 bytes. Codecs, the JSON form of the
manifest, the hash and its hexadecimal form come from libraries and are
parameters.
-/
namespace Foxing

/-- Why reading an archive comes to an end without a result: a reported error, a
panic, or a wait that is never over. -/
inductive ReadStop where
  | unexpectedEof | invalidData | notFound | other | panic | hang
  deriving DecidableEq, Repr

/-- "FXAR" -/
def fxarMagic : Bytes := [70, 88, 65, 82]

/-- "FXAF" -/
def fxarFooterMagic : Bytes := [70, 88, 65, 70]

def fxarVersion : ℕ := 2
def headerSize : ℕ := 64
def chunkIndexEntrySize : ℕ := 48
def footerSize : ℕ := 32

/-! ## Binary records -/

structure FxarHeader where
  version : ℕ
  flags : ℕ
  chunkMin : ℕ
  chunkMax : ℕ
  chunkAvg : ℕ
  indexOffset : ℕ
  indexSize : ℕ
  manifestOffset : ℕ
  manifestSize : ℕ
  chunkCount : ℕ
  deriving DecidableEq, Repr

namespace FxarHeader

def new (flags : ℕ) (c : GearChunker) : FxarHeader :=
  ⟨fxarVersion, flags, c.min, c.max, c.avg, 0, 0, 0, 0, 0⟩

def writeTo (h : FxarHeader) : Bytes :=
  fxarMagic ++ (.ofNat 4 h.version ++ (.ofNat 4 h.flags ++ (.ofNat 4 h.chunkMin ++
    (.ofNat 4 h.chunkMax ++ (.ofNat 4 h.chunkAvg ++ (.ofNat 8 h.indexOffset ++
    (.ofNat 8 h.indexSize ++ (.ofNat 8 h.manifestOffset ++ (.ofNat 8 h.manifestSize ++
    .ofNat 8 h.chunkCount)))))))))

def readFrom : ByteReader ReadStop FxarHeader := do
  let buf ← ByteReader.readExact .unexpectedEof headerSize
  if buf.take 4 ≠ fxarMagic then throw .invalidData
  return {
    version := buf.field 4 4
    flags := buf.field 8 4
    chunkMin := buf.field 12 4
    chunkMax := buf.field 16 4
    chunkAvg := buf.field 20 4
    indexOffset := buf.field 24 8
    indexSize := buf.field 32 8
    manifestOffset := buf.field 40 8
    manifestSize := buf.field 48 8
    chunkCount := buf.field 56 8 }

/-- The fields have the width of their types. -/
structure Fits (h : FxarHeader) : Prop where
  version : h.version < 2 ^ 32
  flags : h.flags < 2 ^ 32
  chunkMin : h.chunkMin < 2 ^ 32
  chunkMax : h.chunkMax < 2 ^ 32
  chunkAvg : h.chunkAvg < 2 ^ 32
  indexOffset : h.indexOffset < 2 ^ 64
  indexSize : h.indexSize < 2 ^ 64
  manifestOffset : h.manifestOffset < 2 ^ 64
  manifestSize : h.manifestSize < 2 ^ 64
  chunkCount : h.chunkCount < 2 ^ 64

@[simp] theorem length_writeTo (h : FxarHeader) : h.writeTo.length = headerSize := by
  simp [writeTo, fxarMagic, headerSize]

/-- A header is read back as it was written. -/
theorem readFrom_writeTo {h : FxarHeader} (hf : h.Fits) (rest : Bytes) :
    readFrom (h.writeTo ++ rest) = .ok (h, rest) := by
  unfold readFrom
  rw [ByteReader.run_bind_ok (ByteReader.readExact_append h.length_writeTo rest)]
  have hmagic : h.writeTo.take 4 = fxarMagic := by
    rw [writeTo, List.take_left' (by rfl)]
  rw [if_neg (by simp [hmagic])]
  show Except.ok (_, rest) = _
  congr 2
  obtain ⟨h₁, h₂, h₃, h₄, h₅, h₆, h₇, h₈, h₉, h₁₀⟩ := hf
  obtain ⟨version, flags, chunkMin, chunkMax, chunkAvg, indexOffset, indexSize, manifestOffset,
    manifestSize, chunkCount⟩ := h
  have hlen : fxarMagic.length = 4 := rfl
  simp (disch := simp [hlen]) only [writeTo, Bytes.field_append_right, Bytes.length_ofNat, hlen,
    Nat.reduceSub, Bytes.field_append_left, Bytes.field_ofNat, mk.injEq]
  exact ⟨Nat.mod_eq_of_lt h₁, Nat.mod_eq_of_lt h₂, Nat.mod_eq_of_lt h₃, Nat.mod_eq_of_lt h₄,
    Nat.mod_eq_of_lt h₅, Nat.mod_eq_of_lt h₆, Nat.mod_eq_of_lt h₇, Nat.mod_eq_of_lt h₈,
    Nat.mod_eq_of_lt h₉, Nat.mod_eq_of_lt h₁₀⟩

end FxarHeader

structure ChunkIndexEntry where
  blake3Hash : Bytes
  size : ℕ
  offset : ℕ
  compressedSize : ℕ
  deriving DecidableEq, Repr

namespace ChunkIndexEntry

def writeTo (e : ChunkIndexEntry) : Bytes :=
  e.blake3Hash ++ (.ofNat 4 e.size ++ (.ofNat 8 e.offset ++ .ofNat 4 e.compressedSize))

def readFrom : ByteReader ReadStop ChunkIndexEntry := do
  let buf ← ByteReader.readExact .unexpectedEof chunkIndexEntrySize
  return {
    blake3Hash := buf.take 32
    size := buf.field 32 4
    offset := buf.field 36 8
    compressedSize := buf.field 44 4 }

structure Fits (e : ChunkIndexEntry) : Prop where
  blake3Hash : e.blake3Hash.length = 32
  size : e.size < 2 ^ 32
  offset : e.offset < 2 ^ 64
  compressedSize : e.compressedSize < 2 ^ 32

theorem length_writeTo {e : ChunkIndexEntry} (h : e.blake3Hash.length = 32) :
    e.writeTo.length = chunkIndexEntrySize := by
  simp [writeTo, h, chunkIndexEntrySize]

/-- An index entry is read back as it was written. -/
theorem readFrom_writeTo {e : ChunkIndexEntry} (hf : e.Fits) (rest : Bytes) :
    readFrom (e.writeTo ++ rest) = .ok (e, rest) := by
  unfold readFrom
  rw [ByteReader.run_bind_ok (ByteReader.readExact_append (length_writeTo hf.blake3Hash) rest)]
  show Except.ok (_, rest) = _
  congr 2
  obtain ⟨hlen, h₁, h₂, h₃⟩ := hf
  obtain ⟨blake3Hash, size, offset, compressedSize⟩ := e
  dsimp only at hlen
  simp (disch := simp [hlen]) only [writeTo, Bytes.field_append_right, Bytes.length_ofNat, hlen,
    Nat.reduceSub, Bytes.field_append_left, Bytes.field_ofNat, mk.injEq]
  exact ⟨List.take_left' hlen, Nat.mod_eq_of_lt h₁, Nat.mod_eq_of_lt h₂, Nat.mod_eq_of_lt h₃⟩

end ChunkIndexEntry

structure FxarFooter where
  manifestOffset : ℕ
  indexOffset : ℕ
  chunkCount : ℕ
  checksum : ℕ
  deriving DecidableEq, Repr

namespace FxarFooter

/-- The sum of the bytes of the magic and of all 32-bit words. -/
def computeChecksum (manifestOffset indexOffset chunkCount : ℕ) : ℕ :=
  ((fxarFooterMagic.map Fin.val).sum +
    ([manifestOffset, indexOffset, chunkCount].map fun n => n % 2 ^ 32 + n / 2 ^ 32).sum) % 2 ^ 32

def writeTo (f : FxarFooter) : Bytes :=
  fxarFooterMagic ++ (.ofNat 8 f.manifestOffset ++ (.ofNat 8 f.indexOffset ++
    (.ofNat 8 f.chunkCount ++ .ofNat 4 f.checksum)))

end FxarFooter

/-! ## The manifest -/

structure FxarManifestEntry where
  path : String
  size : ℕ
  mode : ℕ
  mtime : ℤ
  uid : ℕ
  gid : ℕ
  blake3 : String
  chunks : List ℕ
  xattr : List (String × String)
  deriving DecidableEq, Repr

structure FxarManifest where
  version : ℕ
  created : String
  files : List FxarManifestEntry
  snapshots : List String
  deriving DecidableEq, Repr

/-! ## Libraries -/

/-- What the archive code takes from libraries. -/
structure FxarLibs where
  zstdCompress : ℤ → Bytes → Option Bytes
  /-- Fails when the result is longer than the capacity. -/
  zstdDecompress : Bytes → ℕ → Option Bytes
  lz4Compress : Bytes → Bytes
  lz4Decompress : Bytes → Option Bytes
  gzipCompress : Bytes → Option Bytes
  gzipDecompress : Bytes → Option Bytes
  xzDecompress : Bytes → Option Bytes
  toJson : FxarManifest → Option Bytes
  ofJson : Bytes → Option FxarManifest
  blake3 : Bytes → Bytes
  blake3_length : ∀ data, (blake3 data).length = 32
  hexEncode : Bytes → String
  hexDecode : String → Option Bytes

/-- A decimal number of digits only. -/
def parseDigits (cs : List Char) : Option ℕ :=
  if cs ≠ [] ∧ cs.all Char.isDigit then
    some (cs.foldl (fun n c => 10 * n + (c.toNat - '0'.toNat)) 0)
  else none

def parseI32 (cs : List Char) : Option ℤ :=
  match cs with
  | '-' :: ds => (parseDigits ds).bind fun n => if n ≤ 2 ^ 31 then some (-(n : ℤ)) else none
  | '+' :: ds => (parseDigits ds).bind fun n => if n < 2 ^ 31 then some n else none
  | ds => (parseDigits ds).bind fun n => if n < 2 ^ 31 then some n else none

def startsWith (s t : String) : Bool := t.toList.isPrefixOf s.toList

/-- The level after "zstd:", or 3. -/
def zstdLevel (compress : String) : ℤ :=
  ((if startsWith compress "zstd:" then some (compress.toList.drop 5) else none).bind
    parseI32).getD 3

def compressFlag (compress : String) : ℕ :=
  if compress = "none" then 0
  else if startsWith compress "zstd" then 1
  else if compress = "lz4" then 2
  else if compress = "gzip" then 3
  else if startsWith compress "xz" then 4
  else 1

namespace FxarLibs
variable (libs : FxarLibs)

/-- Data that a codec fails on is kept as it is. -/
def compressChunk (data : Bytes) (compress : String) : Bytes :=
  if compress = "none" then data
  else if startsWith compress "zstd" then
    (libs.zstdCompress (zstdLevel compress) data).getD data
  else if compress = "lz4" then libs.lz4Compress data
  else if compress = "gzip" then (libs.gzipCompress data).getD data
  else (libs.zstdCompress 3 data).getD data

/-- At most 16 megabytes come out of zstd. -/
def decompressChunk (data : Bytes) (flags : ℕ) : Except ReadStop Bytes :=
  match flags with
  | 0 => .ok data
  | 1 => (libs.zstdDecompress data (16 * 1024 * 1024)).elim (.error .invalidData) .ok
  | 2 => (libs.lz4Decompress data).elim (.error .invalidData) .ok
  | 3 => (libs.gzipDecompress data).elim (.error .other) .ok
  | 4 => (libs.xzDecompress data).elim (.error .other) .ok
  | _ => .error .invalidData

end FxarLibs

/-! ## Libraries for samples -/

def hexDigits : List Char :=
  ['0', '1', '2', '3', '4', '5', '6', '7', '8', '9', 'a', 'b', 'c', 'd', 'e', 'f']

def hexEncode (bs : Bytes) : String :=
  String.ofList (bs.flatMap fun b =>
    [hexDigits.getD (b.val / 16) '0', hexDigits.getD (b.val % 16) '0'])

def hexDecodeChars : List Char → Option Bytes
  | [] => some []
  | [_] => none
  | c :: d :: cs => do
    let hi ← hexDigits.idxOf? c
    let lo ← hexDigits.idxOf? d
    let rest ← hexDecodeChars cs
    return Fin.ofNat 256 (16 * hi + lo) :: rest

theorem hexDecodeChars_hexEncode (bs : Bytes) :
    hexDecodeChars (hexEncode bs).toList = some bs := by
  have hdigit : ∀ d : Fin 16, hexDigits.idxOf? (hexDigits.getD d.val '0') = some d.val := by decide
  unfold hexEncode
  rw [String.toList_ofList]
  induction bs with
  | nil => rfl
  | cons b bs ih =>
    have hb := b.isLt
    have hhi := hdigit ⟨b.val / 16, by omega⟩
    have hlo := hdigit ⟨b.val % 16, by omega⟩
    have hval : Fin.ofNat 256 (16 * (b.val / 16) + b.val % 16) = b := by
      rw [Nat.div_add_mod]
      exact Fin.ofNat_val_eq_self b
    simp only [List.flatMap_cons, List.cons_append, List.nil_append, hexDecodeChars, hhi, hlo, ih,
      Option.bind_eq_bind, Option.bind_some, hval]
    rfl

def asciiBytes (s : String) : Bytes := s.toList.map fun c => Fin.ofNat 256 c.toNat

/-- A JSON text without characters that have to be escaped. -/
def jsonText (s : String) : Bytes := 34 :: (asciiBytes s ++ [34])

def jsonNat (n : ℕ) : Bytes := asciiBytes (toString n)

def jsonList (items : List Bytes) : Bytes := 91 :: (List.intercalate [44] items ++ [93])

def jsonObject (fields : List (String × Bytes)) : Bytes :=
  123 :: (List.intercalate [44] (fields.map fun x => jsonText x.1 ++ 58 :: x.2) ++ [125])

def FxarManifestEntry.json (e : FxarManifestEntry) : Bytes :=
  jsonObject ([("path", jsonText e.path), ("size", jsonNat e.size), ("mode", jsonNat e.mode),
    ("mtime", asciiBytes (toString e.mtime)), ("uid", jsonNat e.uid), ("gid", jsonNat e.gid),
    ("blake3", jsonText e.blake3), ("chunks", jsonList (e.chunks.map jsonNat))] ++
    if e.xattr = [] then [] else
      [("xattr", jsonObject (e.xattr.map fun x => (x.1, jsonText x.2)))])

def FxarManifest.json (m : FxarManifest) : Bytes :=
  jsonObject [("version", jsonNat m.version), ("created", jsonText m.created),
    ("files", jsonList (m.files.map FxarManifestEntry.json)),
    ("snapshots", jsonList (m.snapshots.map jsonText))]

/-- The hash of the empty file. -/
def emptyHash : Bytes :=
  [175, 19, 73, 185, 245, 249, 161, 166, 160, 64, 77, 234, 54, 220, 201, 73, 155, 203, 37,
   201, 173, 193, 18, 183, 204, 154, 147, 202, 228, 31, 50, 98]

/-- The hash of "abc". -/
def abcHash : Bytes :=
  [100, 55, 179, 172, 56, 70, 81, 51, 255, 182, 59, 117, 39, 58, 141, 181, 72, 197, 88, 70,
   93, 121, 219, 3, 253, 53, 156, 108, 213, 189, 157, 133]

/-- Codecs that store their data, the JSON form of a single manifest, and the hashes of
two files. -/
def sampleLibs (manifest : FxarManifest) : FxarLibs where
  zstdCompress := fun _ data => some data
  zstdDecompress := fun data capacity => if data.length ≤ capacity then some data else none
  lz4Compress := id
  lz4Decompress := fun data => if data.length < 2 ^ 32 then some data else none
  gzipCompress := some
  gzipDecompress := some
  xzDecompress := fun _ => none
  toJson := fun m => some m.json
  ofJson := fun text => if text = manifest.json then some manifest else none
  blake3 := fun data =>
    if data = [] then emptyHash
    else if data = [97, 98, 99] then abcHash
    else List.replicate 32 0
  blake3_length := by
    intro data
    split_ifs <;> rfl
  hexEncode := hexEncode
  hexDecode := fun text => hexDecodeChars text.toList

end Foxing
