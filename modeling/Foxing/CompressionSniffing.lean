import Foxing.FxarFormat
import Foxing.Lib.Reads

/-!
# Which compression a stream has

What comes in at the standard input is decompressed if its first bytes say so, and an
archive is told from a compressed stream in the same way. The two look for the same numbers,
each on its own.
-/
namespace Foxing.Sniffing

inductive Compression where
  | zstd | gzip | lz4 | xz
  deriving DecidableEq, Repr

inductive StreamFormat where
  | fxar2 | tar
  | compressed (f : Compression)
  deriving DecidableEq, Repr

/-! ## The two detectors -/

def detectCompression (header : Bytes) : Option Compression :=
  if header.length < 4 then none
  else if header.take 4 = [0xFD, 0x2F, 0xB5, 0x28] then some .zstd
  else if header.take 2 = [0x1F, 0x8B] then some .gzip
  else if header.take 4 = [0x04, 0x22, 0x4D, 0x18] then some .lz4
  else if 6 ≤ header.length ∧ header.take 6 = [0xFD, 0x37, 0x7A, 0x58, 0x5A, 0x00] then some .xz
  else none

/-- What is no archive and not compressed is taken for a tar. -/
def formatOf (magic : Bytes) : StreamFormat :=
  if magic = fxarMagic then .fxar2
  else if magic = [0x28, 0xB5, 0x2F, 0xFD] then .compressed .zstd
  else if magic.take 2 = [0x1F, 0x8B] then .compressed .gzip
  else if magic = [0xFD, 0x37, 0x7A, 0x58] then .compressed .xz
  else if magic = [0x04, 0x22, 0x4D, 0x18] then .compressed .lz4
  else .tar

def detectFormat : ByteReader ReadStop (StreamFormat × Bytes) := do
  let magic ← ByteReader.readExact .unexpectedEof 4
  return (formatOf magic, magic)

/-! ## The input of a copy from the standard input -/

/-- A reader: the bytes as they come, or a decoder of them. -/
structure StdinReader where
  format : Option Compression
  input : Bytes
  deriving DecidableEq, Repr

/-- The first bytes are read, and are put back before the rest. -/
def openStdin (raw : Bytes) (turns : List Reads.Turn) : Option StdinReader :=
  (Reads.fill 6 raw turns).map fun (header, rest) => ⟨detectCompression header, header ++ rest.data⟩

/-! ## The numbers of the formats -/

/-- What a stream of the format begins with. -/
def magic : Compression → Bytes
  | .zstd => [0x28, 0xB5, 0x2F, 0xFD]
  | .gzip => [0x1F, 0x8B]
  | .lz4 => [0x04, 0x22, 0x4D, 0x18]
  | .xz => [0xFD, 0x37, 0x7A, 0x58, 0x5A, 0x00]

/-- For a stream that is long enough the two detectors agree, and a zstd stream is decompressed,
however the reads go. -/
structure Consistent (b : Bytes) : Prop where
  agree : 6 ≤ b.length → ∀ f, magic f <+: b →
    (detectCompression b = some f ↔
      ∃ bytes rest, detectFormat b = .ok ((.compressed f, bytes), rest))
  decompressed : magic .zstd <+: b → ∀ turns r, openStdin b turns = some r →
    r = ⟨some .zstd, b⟩

/-! ## What is detected -/

theorem openStdin_nil (raw : Bytes) :
    openStdin raw [] = some ⟨detectCompression (raw.take 6), raw⟩ := by
  simp [openStdin, Reads.fill]

theorem detectFormat_eq {b : Bytes} (h : 4 ≤ b.length) :
    detectFormat b = .ok ((formatOf (b.take 4), b.take 4), b.drop 4) := by
  have hlen : (b.take 4).length = 4 := by
    rw [List.length_take]
    omega
  have hread : ByteReader.readExact ReadStop.unexpectedEof 4 b = .ok (b.take 4, b.drop 4) := by
    conv_lhs => rw [← List.take_append_drop 4 b]
    exact ByteReader.readExact_append hlen _
  unfold detectFormat
  rw [ByteReader.run_bind_ok hread]
  rfl

/-- What is taken for zstd has the bytes of its number in the opposite order. -/
theorem take_of_detectCompression {header : Bytes} (h : detectCompression header = some .zstd) :
    header.take 4 = [0xFD, 0x2F, 0xB5, 0x28] := by
  unfold detectCompression at h
  split_ifs at h with hlen hzstd
  · exact hzstd
  all_goals cases h

/-- A stream of another format is seen by both. -/
theorem detected_of_magic {f : Compression} (hf : f ≠ .zstd) {b : Bytes} (hlen : 6 ≤ b.length)
    (h : magic f <+: b) : detectCompression b = some f ∧ formatOf (b.take 4) = .compressed f := by
  obtain ⟨rest, rfl⟩ := h
  have hshort : ¬ (magic f ++ rest).length < 4 := by omega
  cases f with
  | zstd => exact absurd rfl hf
  | gzip =>
    simp [detectCompression, formatOf, magic, fxarMagic] at hshort ⊢
    omega
  | lz4 | xz => simp [detectCompression, formatOf, magic, fxarMagic]

/-- The detection is consistent for every stream but those in zstd. -/
theorem consistent_iff (b : Bytes) : Consistent b ↔ ¬ magic .zstd <+: b := by
  constructor
  · intro h hzstd
    have hopen := h.decompressed hzstd [] _ (openStdin_nil b)
    have htake := take_of_detectCompression (congrArg StdinReader.format hopen)
    obtain ⟨rest, rfl⟩ := hzstd
    rw [List.take_take] at htake
    cases htake
  · intro h
    refine ⟨fun hlen f hf => ?_, fun hzstd => absurd hzstd h⟩
    have hne : f ≠ .zstd := by
      rintro rfl
      exact h hf
    obtain ⟨hcompression, hformat⟩ := detected_of_magic hne hlen hf
    rw [detectFormat_eq (by omega), hformat]
    exact iff_of_true hcompression ⟨_, _, rfl⟩

/-- A zstd stream is written as it is. -/
theorem zstdStream_written_raw :
    ¬ Consistent [0x28, 0xB5, 0x2F, 0xFD, 0x00, 0x00] := by
  intro h
  have hopen := h.decompressed ⟨[0x00, 0x00], rfl⟩ [] _ (openStdin_nil _)
  cases congrArg StdinReader.format hopen

end Foxing.Sniffing
