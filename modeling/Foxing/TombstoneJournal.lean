import Foxing.Event
import Foxing.Lib.Lines
import Foxing.Lib.Text

/-!
# The journal of tombstones

Deletions are recorded in a file of lines, each of which is an entry in JSON. An
entry is appended with the end of its line; lines that are not entries are skipped
when the file is read. The conversion to and from JSON is a parameter.
-/
namespace Foxing

/-- A deletion, with its time in seconds and its sequence number. -/
structure TombstoneEntry where
  relPath : Bytes
  isDir : Bool
  timestamp : ℤ
  seq : U64
  deriving DecidableEq, Repr

/-- A conversion to and from texts. Values that cannot be written give nothing. -/
structure Serde (α : Type*) where
  toString : α → Option Text
  fromStr : Text → Option α

/-- What is relied on: a value is read back from its text, which is an object without control
characters, and no such text can be read while its end is missing. -/
structure Serde.Lawful {α : Type*} (serde : Serde α) : Prop where
  fromStr_toString : ∀ e t, serde.toString e = some t → serde.fromStr t = some e
  printable : ∀ e t, serde.toString e = some t → ∀ b ∈ t.bytes, 32 ≤ b.val
  opens : ∀ e t, serde.toString e = some t → t.bytes.head? = some 123
  unfinished : ∀ e t u, serde.toString e = some t → u.bytes <+: t.bytes → u ≠ t →
    serde.fromStr u = none

def newline : Fin 256 := 10

/-- A line without the carriage return at its end. -/
def stripCr (line : Bytes) : Bytes := if line.getLast? = some 13 then line.dropLast else line

/-- The lines of a file; the last one need not be ended. -/
def fileLines (content : Bytes) : List Bytes :=
  (Lines.ended newline content).map stripCr ++
    if Lines.rest newline content = [] then [] else [Lines.rest newline content]

namespace TombstoneJournal
variable (serde : Serde TombstoneEntry)

/-- The entry in a line. Lines that are not valid UTF-8, blank or malformed are skipped. -/
def parseLine (line : Bytes) : Option TombstoneEntry :=
  match Text.fromUtf8 line with
  | none => none
  | some text => if Text.isBlank text.bytes then none else serde.fromStr text

def readEntries (content : Bytes) : List TombstoneEntry :=
  (fileLines content).filterMap (parseLine serde)

def entryLine (e : TombstoneEntry) : Option Bytes :=
  (serde.toString e).map fun text => text.bytes ++ [newline]

/-- The file, which need not exist, and the counter of the handle. -/
structure Journal where
  file : Option Bytes
  entryCount : ℕ
  deriving DecidableEq

/-- All lines are counted, whatever is in them. -/
def openFile (file : Option Bytes) : Journal :=
  ⟨file, match file with
    | none => 0
    | some content => (fileLines content).length⟩

def readAll (j : Journal) : List TombstoneEntry :=
  match j.file with
  | none => []
  | some content => readEntries serde content

/-- Appends the line of an entry. An entry that cannot be written leaves everything. -/
def append (e : TombstoneEntry) (j : Journal) : Bool × Journal :=
  match entryLine serde e with
  | none => (false, j)
  | some line => (true, ⟨some (j.file.getD [] ++ line), j.entryCount + 1⟩)

/-! ## Lines of entries -/

section Lines
variable {serde} {e : TombstoneEntry} {t : Text}

theorem newline_notMem (h : serde.Lawful) (ht : serde.toString e = some t) :
    newline ∉ t.bytes := by
  intro hmem
  exact absurd (h.printable e t ht newline hmem) (by decide)

theorem stripCr_toString (h : serde.Lawful) (ht : serde.toString e = some t) :
    stripCr t.bytes = t.bytes := by
  refine if_neg fun hlast => ?_
  exact absurd (h.printable e t ht 13 (List.mem_of_getLast? hlast)) (by decide)

theorem not_isBlank (h : serde.Lawful) (ht : serde.toString e = some t) :
    Text.isBlank t.bytes = false := by
  obtain ⟨as, has⟩ := List.head?_eq_some_iff.mp (h.opens e t ht)
  rw [has]
  exact Text.isBlank_cons (by decide) as

theorem parseLine_toString (h : serde.Lawful) (ht : serde.toString e = some t) :
    parseLine serde t.bytes = some e := by
  rw [parseLine, Text.fromUtf8_bytes]
  simp only [not_isBlank h ht, Bool.false_eq_true, if_false]
  exact h.fromStr_toString e t ht

/-- The beginning of a text is skipped, unless only the end of the line is missing. -/
theorem parseLine_take (h : serde.Lawful) (ht : serde.toString e = some t) (k : ℕ) :
    parseLine serde (t.bytes.take k) = none ∨ parseLine serde (t.bytes.take k) = some e := by
  by_cases hall : t.bytes.take k = t.bytes
  · right
    rw [hall]
    exact parseLine_toString h ht
  · left
    unfold parseLine
    cases hutf8 : Text.fromUtf8 (t.bytes.take k) with
    | none => rfl
    | some u =>
      have hbytes := Text.bytes_of_fromUtf8 hutf8
      have hfrom : serde.fromStr u = none := by
        refine h.unfinished e t u ht ?_ ?_
        · rw [hbytes]
          exact List.take_prefix k t.bytes
        · rintro rfl
          exact hall hbytes.symm
      simp only [hfrom, ite_self]

/-- What is read from the lines that are ended. -/
def endedEntries (serde : Serde TombstoneEntry) (content : Bytes) : List TombstoneEntry :=
  ((Lines.ended newline content).map stripCr).filterMap (parseLine serde)

theorem readEntries_eq (content : Bytes) :
    readEntries serde content = endedEntries serde content ++
      if Lines.rest newline content = [] then []
      else (parseLine serde (Lines.rest newline content)).toList := by
  rw [readEntries, fileLines, List.filterMap_append, endedEntries]
  congr 1
  split_ifs
  · rfl
  · rw [List.filterMap_cons]
    cases parseLine serde (Lines.rest newline content) <;> rfl

theorem readEntries_of_rest {content : Bytes} (h : Lines.rest newline content = []) :
    readEntries serde content = endedEntries serde content := by
  rw [readEntries_eq, if_pos h, List.append_nil]

/-- A line after lines that are ended. -/
theorem endedEntries_append_line (h : serde.Lawful) (ht : serde.toString e = some t)
    {content : Bytes} (hrest : Lines.rest newline content = []) :
    endedEntries serde (content ++ (t.bytes ++ [newline])) =
      endedEntries serde content ++ [e] := by
  rw [endedEntries, Lines.ended_append, hrest, List.nil_append,
    Lines.ended_line (newline_notMem h ht), List.map_append, List.filterMap_append, List.map_cons,
    List.map_nil, stripCr_toString h ht, List.filterMap_cons, parseLine_toString h ht]
  rfl

theorem rest_append_line (h : serde.Lawful) (ht : serde.toString e = some t) {content : Bytes}
    (hrest : Lines.rest newline content = []) :
    Lines.rest newline (content ++ (t.bytes ++ [newline])) = [] := by
  rw [Lines.rest_append, hrest, List.nil_append, Lines.rest_line (newline_notMem h ht)]

end Lines

end TombstoneJournal

end Foxing
