import Mathlib.Data.String.Basic
import Foxing.Lib.Numerals
import Foxing.SnapshotStore

/-!
# Timestamps of snapshots

A directory has the time of its snapshot for its name, without colons, and the summary
has it in the ISO format. Pruning makes the name of the directory from the timestamp.
-/
namespace Foxing.SnapshotStore

open Numerals

/-- A time of day of a date after the beginning of our era. -/
structure DateTime where
  year : ℕ
  month : ℕ
  day : ℕ
  hour : ℕ
  minute : ℕ
  second : ℕ
  valid : year ≤ 262142 ∧ month ≤ 12 ∧ day ≤ 31 ∧ hour < 24 ∧ minute < 60 ∧ second < 60

namespace DateTime

/-- Later hours have larger numbers. -/
def hourNumber (t : DateTime) : ℕ := ((t.year * 100 + t.month) * 100 + t.day) * 100 + t.hour

/-- Later times have larger numbers. -/
def number (t : DateTime) : ℕ := (t.hourNumber * 100 + t.minute) * 100 + t.second

/-- Years of five digits and more have a sign. -/
def yearText (year : ℕ) : List Char :=
  if year ≤ 9999 then padded 4 year else '+' :: Nat.toDigits 10 year

/-- The date, and the hour. -/
def hourText (t : DateTime) : List Char :=
  yearText t.year ++ ('-' :: padded 2 t.month) ++ ('-' :: padded 2 t.day) ++ ('T' :: padded 2 t.hour)

/-- The format of the directories. -/
def formatTimestamp (t : DateTime) : String :=
  String.ofList (t.hourText ++ (padded 2 t.minute ++ padded 2 t.second))

def formatIso (t : DateTime) : String :=
  String.ofList (t.hourText ++ (':' :: padded 2 t.minute ++ (':' :: padded 2 t.second) ++ ['Z']))

/-! ## Characters -/

theorem mem_yearText {year : ℕ} {c : Char} (h : c ∈ yearText year) :
    c.isDigit = true ∨ c = '+' := by
  rw [yearText] at h
  split_ifs at h
  · exact .inl (isDigit_of_mem_padded h)
  · rcases List.mem_cons.mp h with rfl | h
    · exact .inr rfl
    · exact .inl (Nat.isDigit_of_mem_toDigits (by omega) (le_refl 10) h)

theorem mem_hourText {t : DateTime} {c : Char} (h : c ∈ t.hourText) :
    c.isDigit = true ∨ c = '+' ∨ c = '-' ∨ c = 'T' := by
  simp only [hourText, List.mem_append, List.mem_cons] at h
  rcases h with ((h | rfl | h) | rfl | h) | rfl | h
  · exact (mem_yearText h).imp id .inl
  · exact .inr (.inr (.inl rfl))
  · exact .inl (isDigit_of_mem_padded h)
  · exact .inr (.inr (.inl rfl))
  · exact .inl (isDigit_of_mem_padded h)
  · exact .inr (.inr (.inr rfl))
  · exact .inl (isDigit_of_mem_padded h)

theorem mem_formatTimestamp {t : DateTime} {c : Char} (h : c ∈ t.formatTimestamp.toList) :
    c.isDigit = true ∨ c = '+' ∨ c = '-' ∨ c = 'T' := by
  simp only [formatTimestamp, String.toList_ofList, List.mem_append] at h
  rcases h with h | h | h
  · exact mem_hourText h
  · exact .inl (isDigit_of_mem_padded h)
  · exact .inl (isDigit_of_mem_padded h)

theorem isFileName_formatTimestamp (t : DateTime) : isFileName t.formatTimestamp = true := by
  have hT : 'T' ∈ t.formatTimestamp.toList := by simp [formatTimestamp, hourText]
  have hslash : '/' ∉ t.formatTimestamp.toList := by
    intro h
    rcases mem_formatTimestamp h with h | h | h | h <;> cases h
  have hne : ∀ name : String, 'T' ∉ name.toList → t.formatTimestamp ≠ name := by
    rintro name hname rfl
    exact hname hT
  have hempty := hne "" (by simp)
  have hdot := hne "." (by decide)
  have hdots := hne ".." (by decide)
  simp [isFileName, hempty, hdot, hdots, hslash]

/-! ## From one format to the other -/

theorem dropDash_cons {c : Char} (h : c ≠ '-') (cs : List Char) :
    dropDash (c :: cs) = c :: dropDash cs := by
  simp [dropDash, h]

theorem dropDash_dash {c : Char} (h : c ≠ 'T') (cs : List Char) :
    dropDash ('-' :: c :: cs) = '-' :: dropDash (c :: cs) := by
  simp [dropDash, h]

theorem dropDash_append {l : List Char} (h : ∀ c ∈ l, c ≠ '-') (cs : List Char) :
    dropDash (l ++ cs) = l ++ dropDash cs := by
  induction l with
  | nil => rfl
  | cons c l ih =>
    rw [List.cons_append, dropDash_cons (h c (List.mem_cons_self ..)),
      ih fun d hd => h d (List.mem_cons_of_mem _ hd)]
    rfl

theorem ne_of_isDigit {c d : Char} (h : c.isDigit = true) (hd : d.isDigit = false) : c ≠ d := by
  rintro rfl
  rw [h] at hd
  cases hd

theorem dropDash_padded (w n : ℕ) (cs : List Char) :
    dropDash (padded w n ++ cs) = padded w n ++ dropDash cs :=
  dropDash_append (fun _ hc => ne_of_isDigit (isDigit_of_mem_padded hc) rfl) cs

theorem dropDash_dash_padded (n : ℕ) (cs : List Char) :
    dropDash ('-' :: (padded 2 n ++ cs)) = '-' :: (padded 2 n ++ dropDash cs) := by
  rw [← dropDash_padded]
  exact dropDash_dash (ne_of_isDigit (isDigit_digit _) rfl) _

theorem dropDash_hourText (t : DateTime) (cs : List Char) :
    dropDash (t.hourText ++ cs) = t.hourText ++ dropDash cs := by
  have hyear : ∀ c ∈ yearText t.year, c ≠ '-' := by
    intro c hc
    rcases mem_yearText hc with h | rfl
    · exact ne_of_isDigit h rfl
    · decide
  simp only [hourText, List.append_assoc, List.cons_append, dropDash_append hyear,
    dropDash_dash_padded, dropDash_cons (show 'T' ≠ '-' by decide), dropDash_padded]

theorem dropDash_time (t : DateTime) (cs : List Char) :
    dropDash (t.hourText ++ (padded 2 t.minute ++ padded 2 t.second ++ cs)) =
      t.hourText ++ (padded 2 t.minute ++ padded 2 t.second ++ dropDash cs) := by
  rw [dropDash_hourText, List.append_assoc, dropDash_padded, dropDash_padded, List.append_assoc]

theorem filter_colon_padded (w n : ℕ) : (padded w n).filter (· ≠ ':') = padded w n :=
  List.filter_eq_self.mpr fun _ hc =>
    decide_eq_true (ne_of_isDigit (isDigit_of_mem_padded hc) rfl)

theorem filter_colon_hourText (t : DateTime) : t.hourText.filter (· ≠ ':') = t.hourText := by
  refine List.filter_eq_self.mpr fun c hc => decide_eq_true ?_
  rcases mem_hourText hc with h | rfl | rfl | rfl
  · exact ne_of_isDigit h rfl
  all_goals decide

theorem fsSafe_formatTimestamp (t : DateTime) : fsSafe t.formatTimestamp = t.formatTimestamp := by
  have htime := dropDash_time t []
  rw [List.append_nil, dropDash, List.append_nil] at htime
  rw [fsSafe, formatTimestamp, String.toList_ofList, List.filter_append, List.filter_append,
    filter_colon_hourText, filter_colon_padded, filter_colon_padded, htime]

/-- The colons go, the letter at the end stays. -/
theorem fsSafe_formatIso (t : DateTime) :
    fsSafe t.formatIso =
      String.ofList (t.hourText ++ (padded 2 t.minute ++ padded 2 t.second ++ ['Z'])) := by
  have htime := dropDash_time t ['Z']
  have hz : dropDash ['Z'] = ['Z'] := rfl
  rw [hz] at htime
  have hfilter : (t.hourText ++ (':' :: padded 2 t.minute ++ (':' :: padded 2 t.second) ++
      ['Z'])).filter (· ≠ ':') =
        t.hourText ++ (padded 2 t.minute ++ padded 2 t.second ++ ['Z']) := by
    simp only [List.filter_append, List.filter_cons, filter_colon_hourText, filter_colon_padded]
    rfl
  rw [fsSafe, formatIso, String.toList_ofList, hfilter, htime]

theorem trimEndZ_concat (l : List Char) {c : Char} (h : c ≠ 'Z') :
    trimEndZ (String.ofList (l ++ [c])) = String.ofList (l ++ [c]) := by
  simp [trimEndZ, h]

theorem trimEndZ_concat_Z (l : List Char) :
    trimEndZ (String.ofList (l ++ ['Z'])) = trimEndZ (String.ofList l) := by
  simp [trimEndZ]

theorem trimEndZ_formatTimestamp (t : DateTime) :
    trimEndZ t.formatTimestamp = t.formatTimestamp := by
  have hsecond : padded 2 t.second = padded 1 (t.second / 10) ++ [digit t.second] := rfl
  rw [formatTimestamp, hsecond, ← List.append_assoc, ← List.append_assoc]
  exact trimEndZ_concat _ (ne_of_isDigit (isDigit_digit _) rfl)

theorem tsFs_formatTimestamp (t : DateTime) : tsFs t.formatTimestamp = t.formatTimestamp := by
  rw [tsFs, fsSafe_formatTimestamp, trimEndZ_formatTimestamp]

theorem tsFs_formatIso (t : DateTime) : tsFs t.formatIso = t.formatTimestamp := by
  rw [tsFs, fsSafe_formatIso, ← List.append_assoc, trimEndZ_concat_Z]
  exact trimEndZ_formatTimestamp t

theorem formatTimestamp_ne_formatIso (t u : DateTime) : t.formatTimestamp ≠ u.formatIso := by
  intro h
  have hcolon : ':' ∈ t.formatTimestamp.toList := by
    rw [h]
    simp [formatIso]
  rcases mem_formatTimestamp hcolon with h | h | h | h <;> cases h

/-! ## Order of the texts -/

theorem number_lt_of_hourNumber_lt {t u : DateTime} (h : t.hourNumber < u.hourNumber) :
    t.number < u.number := by
  have htime := t.valid
  have htime' := u.valid
  rw [number, number]
  omega

section FourDigits
variable {t u : DateTime} (ht : t.year ≤ 9999) (hu : u.year ≤ 9999)
include ht hu

theorem tracks_hourText : Numerals.Tracks t.hourNumber u.hourNumber t.hourText u.hourText := by
  have htime := t.valid
  have htime' := u.valid
  have hyear : Numerals.Tracks t.year u.year (yearText t.year) (yearText u.year) := by
    rw [yearText, yearText, if_pos ht, if_pos hu]
    exact tracks_padded (by omega) (by omega)
  have hmonth := (@tracks_padded t.month u.month 2 (by omega) (by omega)).cons '-'
  have hday := (@tracks_padded t.day u.day 2 (by omega) (by omega)).cons '-'
  have hhour := (@tracks_padded t.hour u.hour 2 (by omega) (by omega)).cons 'T'
  exact ((hyear.append hmonth (by omega) (by omega)).append hday (by omega) (by omega)).append hhour
    (by omega) (by omega)

theorem formatTimestamp_lt_iff : t.formatTimestamp < u.formatTimestamp ↔ t.number < u.number := by
  have htime := t.valid
  have htime' := u.valid
  have hminute := @tracks_padded t.minute u.minute 2 (by omega) (by omega)
  have hsecond := @tracks_padded t.second u.second 2 (by omega) (by omega)
  have htext := ((tracks_hourText ht hu).append hminute (b := 100) (by omega) (by omega)).append
    hsecond (b := 100) (by omega) (by omega)
  rw [List.append_assoc, List.append_assoc] at htext
  rw [String.lt_iff_toList_lt, formatTimestamp, formatTimestamp, String.toList_ofList,
    String.toList_ofList]
  exact htext.lt

theorem formatTimestamp_eq (h : t.number = u.number) : t.formatTimestamp = u.formatTimestamp := by
  have hlt := formatTimestamp_lt_iff ht hu
  have hgt := formatTimestamp_lt_iff hu ht
  rw [h] at hlt hgt
  have hirrefl := lt_irrefl u.number
  exact le_antisymm (not_lt.mp (hgt.not.mpr hirrefl)) (not_lt.mp (hlt.not.mpr hirrefl))

theorem formatIso_lt_iff : t.formatIso < u.formatIso ↔ t.number < u.number := by
  have htime := t.valid
  have htime' := u.valid
  have hminute := (@tracks_padded t.minute u.minute 2 (by omega) (by omega)).cons ':'
  have hsecond := (@tracks_padded t.second u.second 2 (by omega) (by omega)).cons ':'
  have htext := (((tracks_hourText ht hu).append hminute (b := 100) (by omega) (by omega)).append
    hsecond (b := 100) (by omega) (by omega)).append_right ['Z']
  rw [List.append_assoc, List.append_assoc, List.append_assoc, List.append_assoc] at htext
  rw [String.lt_iff_toList_lt, formatIso, formatIso, String.toList_ofList, String.toList_ofList,
    List.append_assoc, List.append_assoc]
  exact htext.lt

/-- In one hour the format of the directories always comes first: a colon is after all digits. -/
theorem formatTimestamp_lt_formatIso_iff :
    t.formatTimestamp < u.formatIso ↔ t.hourNumber ≤ u.hourNumber := by
  have hhour := tracks_hourText ht hu
  have hcolon : padded 2 t.minute ++ padded 2 t.second <
      ':' :: padded 2 u.minute ++ (':' :: padded 2 u.second) ++ ['Z'] :=
    List.cons_lt_cons_iff.mpr (.inl (digit_lt_of (by decide) _))
  rw [String.lt_iff_toList_lt, formatTimestamp, formatIso, String.toList_ofList,
    String.toList_ofList, append_lt_append_iff hhour.length, hhour.lt, hhour.eq,
    and_iff_left hcolon, le_iff_lt_or_eq]

theorem formatIso_lt_formatTimestamp_iff :
    t.formatIso < u.formatTimestamp ↔ t.hourNumber < u.hourNumber := by
  have hne := formatTimestamp_ne_formatIso u t
  calc t.formatIso < u.formatTimestamp ↔ ¬ u.formatTimestamp < t.formatIso :=
        ⟨fun h => not_lt.mpr h.le, fun h => lt_of_le_of_ne (not_lt.mp h) hne.symm⟩
    _ ↔ ¬ u.hourNumber ≤ t.hourNumber := (formatTimestamp_lt_formatIso_iff hu ht).not
    _ ↔ t.hourNumber < u.hourNumber := not_le

end FourDigits

end DateTime

end Foxing.SnapshotStore
