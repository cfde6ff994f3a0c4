import Foxing.TombstoneJournal
import Foxing.FxarFormat
import Foxing.Lib.Run
import Mathlib.Data.List.Induction

/-!
# Crashes while tombstones are appended

A crash in the middle of an append leaves the beginning of its line. If nothing is
appended to such a beginning, the journal gives back every entry whose append was
completed, in order, and nothing but entries that were to be appended.
-/
namespace Foxing

namespace TombstoneJournal

/-- A call of append; one that is cut off by a crash after so many bytes of its line, but
before the end of it; or a restart. After a crash the journal is opened again. -/
inductive CrashAction where
  | append (e : TombstoneEntry)
  | cut (e : TombstoneEntry) (k : ℕ)
  | reopen
  deriving DecidableEq

section Runs
variable (serde : Serde TombstoneEntry)

def crashStep (j : Journal) : CrashAction → Journal
  | .append e => (append serde e j).2
  | .cut e k =>
    match serde.toString e with
    | none => openFile j.file
    | some text => openFile (some (j.file.getD [] ++ text.bytes.take k))
  | .reopen => openFile j.file

/-- The entries whose append returned, in order. -/
def completed (as : List CrashAction) : List TombstoneEntry :=
  as.filterMap fun
    | .append e => if (serde.toString e).isSome then some e else none
    | _ => none

/-- The entries that were to be appended, in order. -/
def attempted (as : List CrashAction) : List TombstoneEntry :=
  as.filterMap fun
    | .append e | .cut e _ => some e
    | .reopen => none

/-- The last line of the file is ended. -/
def Ended (j : Journal) : Prop := Lines.rest newline (j.file.getD []) = []

instance (j : Journal) : Decidable (Ended j) := inferInstanceAs (Decidable (_ = _))

/-- Appends begin on a line of their own. -/
def OnOwnLine (j : Journal) : CrashAction → Prop
  | .append _ | .cut _ _ => Ended j
  | .reopen => True

instance (j : Journal) (a : CrashAction) : Decidable (OnOwnLine j a) := by
  cases a <;> unfold OnOwnLine <;> infer_instance

/-- The file after a run: the lines that are ended are the completed entries, and the rest is
the beginning of the line of an entry whose append came last. -/
structure Recorded (as : List CrashAction) (content : Bytes) : Prop where
  entries : endedEntries serde content = completed serde as
  order : (completed serde as).Sublist (attempted as)
  torn : Lines.rest newline content = [] ∨
    ∃ e t k, serde.toString e = some t ∧ Lines.rest newline content = t.bytes.take k ∧
      (completed serde as ++ [e]).Sublist (attempted as)

end Runs

section Resilience
variable {serde : Serde TombstoneEntry}

theorem readAll_eq (j : Journal) : readAll serde j = readEntries serde (j.file.getD []) := by
  unfold readAll
  cases j.file with
  | none => rfl
  | some content => rfl

theorem completed_concat (as : List CrashAction) (a : CrashAction) :
    completed serde (as ++ [a]) = completed serde as ++ completed serde [a] :=
  List.filterMap_append ..

theorem attempted_concat (as : List CrashAction) (a : CrashAction) :
    attempted (as ++ [a]) = attempted as ++ attempted [a] :=
  List.filterMap_append ..

theorem Recorded.of_same {as : List CrashAction} {content : Bytes} {a : CrashAction}
    (h : Recorded serde as content) (hnone : completed serde [a] = []) :
    Recorded serde (as ++ [a]) content := by
  have hsub : (attempted as).Sublist (attempted (as ++ [a])) := by
    rw [attempted_concat]
    exact List.sublist_append_left ..
  have hsame : completed serde (as ++ [a]) = completed serde as := by
    rw [completed_concat, hnone, List.append_nil]
  refine ⟨hsame ▸ h.entries, hsame ▸ h.order.trans hsub, h.torn.imp_right ?_⟩
  rintro ⟨e, t, k, ht, hrest, horder⟩
  exact ⟨e, t, k, ht, hrest, hsame ▸ horder.trans hsub⟩

theorem recorded_step (h : serde.Lawful) {as : List CrashAction} {j : Journal} {a : CrashAction}
    (ha : OnOwnLine j a) (hj : Recorded serde as (j.file.getD [])) :
    Recorded serde (as ++ [a]) ((crashStep serde j a).file.getD []) := by
  cases a with
  | reopen => exact hj.of_same rfl
  | append e =>
    have hrest : Lines.rest newline (j.file.getD []) = [] := ha
    simp only [crashStep, append, entryLine]
    cases ht : serde.toString e with
    | none =>
      refine hj.of_same ?_
      simp [completed, ht]
    | some t =>
      have hone : completed serde [.append e] = [e] := by simp [completed, ht]
      simp only [Option.map_some, Option.getD_some]
      refine ⟨?_, ?_, .inl (rest_append_line h ht hrest)⟩
      · rw [endedEntries_append_line h ht hrest, hj.entries, completed_concat, hone]
      · rw [completed_concat, hone, attempted_concat]
        exact hj.order.append (List.Sublist.refl [e])
  | cut e k =>
    have hrest : Lines.rest newline (j.file.getD []) = [] := ha
    simp only [crashStep]
    cases ht : serde.toString e with
    | none => exact hj.of_same rfl
    | some t =>
      have hline : newline ∉ t.bytes.take k :=
        fun hmem => newline_notMem h ht (List.mem_of_mem_take hmem)
      have hone : completed serde (as ++ [.cut e k]) = completed serde as := by
        rw [completed_concat]
        exact List.append_nil _
      have horder : (completed serde as ++ [e]).Sublist (attempted (as ++ [.cut e k])) := by
        rw [attempted_concat]
        exact hj.order.append (List.Sublist.refl [e])
      simp only [openFile, Option.getD_some]
      refine ⟨?_, ?_, .inr ⟨e, t, k, ht, ?_, hone.symm ▸ horder⟩⟩
      · rw [hone, ← hj.entries, endedEntries, endedEntries, Lines.ended_append, hrest,
          List.nil_append, Lines.ended_of_notMem hline, List.append_nil]
      · rw [hone]
        exact (List.sublist_append_left ..).trans horder
      · rw [Lines.rest_append, hrest, List.nil_append, Lines.rest_of_notMem hline]

theorem recorded_exec (h : serde.Lawful) {as : List CrashAction}
    (has : Run.Along (crashStep serde) OnOwnLine (openFile none) as) :
    Recorded serde as ((Run.exec (crashStep serde) (openFile none) as).file.getD []) := by
  induction as using List.reverseRecOn with
  | nil => exact ⟨rfl, List.Sublist.refl [], .inl rfl⟩
  | append_singleton as a ih =>
    rw [Run.along_concat] at has
    rw [Run.exec_concat]
    exact recorded_step h has.2 (ih has.1)

/-- As long as no append begins on a line that a crash has left unfinished, the journal gives
back every entry whose append was completed, in order, and only entries that were to be
appended, also in order. -/
theorem readAll_of_onOwnLine (h : serde.Lawful) {as : List CrashAction}
    (has : Run.Along (crashStep serde) OnOwnLine (openFile none) as) :
    ∀ p, p <+: as →
      (completed serde p).Sublist (readAll serde (Run.exec (crashStep serde) (openFile none) p)) ∧
      (readAll serde (Run.exec (crashStep serde) (openFile none) p)).Sublist (attempted p) := by
  rintro p ⟨rest, rfl⟩
  have hp := recorded_exec h ((Run.along_append _ _ _ p rest).mp has).1
  rw [readAll_eq, readEntries_eq, hp.entries]
  rcases hp.torn with hrest | ⟨e, t, k, ht, hrest, horder⟩
  · rw [if_pos hrest, List.append_nil]
    exact ⟨List.Sublist.refl _, hp.order⟩
  · refine ⟨List.sublist_append_left .., ?_⟩
    split_ifs
    · rw [List.append_nil]
      exact hp.order
    · rw [hrest]
      rcases parseLine_take h ht k with hparse | hparse
      · rw [hparse, Option.toList_none, List.append_nil]
        exact hp.order
      · rw [hparse, Option.toList_some]
        exact horder

end Resilience

/-! ## A table of entries -/

/-- The conversion of the entries in a table. -/
def tableSerde (table : List (TombstoneEntry × Text)) : Serde TombstoneEntry where
  toString e := (table.find? (·.1 = e)).map Prod.snd
  fromStr t := (table.find? (·.2 = t)).map Prod.fst

theorem tableSerde_lawful {table : List (TombstoneEntry × Text)}
    (h : ∀ x ∈ table, (tableSerde table).fromStr x.2 = some x.1 ∧
      (∀ b ∈ x.2.bytes, 32 ≤ b.val) ∧ x.2.bytes.head? = some 123 ∧
      ∀ y ∈ table, y.2.bytes <+: x.2.bytes → y.2 = x.2) : (tableSerde table).Lawful := by
  have hmem : ∀ {e t}, (tableSerde table).toString e = some t → (e, t) ∈ table := by
    intro e t ht
    obtain ⟨x, hx, rfl⟩ := Option.map_eq_some_iff.mp ht
    have he : x.1 = e := by simpa using List.find?_some hx
    rw [← he]
    exact List.mem_of_find?_eq_some hx
  refine ⟨fun e t ht => (h _ (hmem ht)).1, fun e t ht => (h _ (hmem ht)).2.1,
    fun e t ht => (h _ (hmem ht)).2.2.1, fun e t u ht hu hne => ?_⟩
  rw [← Option.not_isSome_iff_eq_none]
  intro hsome
  obtain ⟨e', he'⟩ := Option.isSome_iff_exists.mp hsome
  obtain ⟨y, hy, rfl⟩ := Option.map_eq_some_iff.mp he'
  have hyu : y.2 = u := by simpa using List.find?_some hy
  exact hne (hyu.symm.trans
    ((h _ (hmem ht)).2.2.2 y (List.mem_of_find?_eq_some hy) (hyu.symm ▸ hu)))

def deletedA : TombstoneEntry := ⟨asciiBytes "a", false, 1000, 1⟩
def deletedB : TombstoneEntry := ⟨asciiBytes "b", false, 1001, 2⟩

def textA : Text := ⟨asciiBytes "\x7b\"p\":\"a\",\"d\":false,\"t\":1000,\"s\":1\x7d", by decide +kernel⟩
def textB : Text := ⟨asciiBytes "\x7b\"p\":\"b\",\"d\":false,\"t\":1001,\"s\":2\x7d", by decide +kernel⟩

/-- Two deletions and their JSON. -/
def sampleSerde : Serde TombstoneEntry := tableSerde [(deletedA, textA), (deletedB, textB)]

theorem sampleSerde_lawful : sampleSerde.Lawful := tableSerde_lawful (by decide +kernel)

/-- A crash before anything of the second entry has been written, which is then appended. -/
def untornRun : List CrashAction := [.append deletedA, .cut deletedB 0, .append deletedB]

theorem untornRun_readAll :
    Run.Along (crashStep sampleSerde) OnOwnLine (openFile none) untornRun ∧
      [deletedA, deletedB].Sublist
        (readAll sampleSerde (Run.exec (crashStep sampleSerde) (openFile none) untornRun)) := by
  have has : Run.Along (crashStep sampleSerde) OnOwnLine (openFile none) untornRun := by
    decide +kernel
  have hcompleted : completed sampleSerde untornRun = [deletedA, deletedB] := by decide +kernel
  exact ⟨has, hcompleted ▸ (readAll_of_onOwnLine sampleSerde_lawful has _ List.prefix_rfl).1⟩

/-- The first append is cut off after ten bytes; the entry of the second one is lost. -/
theorem tornLine_loses :
    ¬ ∀ (serde : Serde TombstoneEntry), serde.Lawful → ∀ as : List CrashAction,
      (completed serde as).Sublist (readAll serde (Run.exec (crashStep serde) (openFile none) as)) ∧
      (readAll serde (Run.exec (crashStep serde) (openFile none) as)).Sublist (attempted as) := by
  intro h
  have hrun := (h sampleSerde sampleSerde_lawful [.cut deletedA 10, .append deletedB]).1
  revert hrun
  decide +kernel

end TombstoneJournal

end Foxing
