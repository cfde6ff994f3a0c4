import Foxing.TombstoneCrash
import Foxing.Lib.Chunks
import Foxing.Lib.Pool

/-!
# Compaction while tombstones are appended

A compaction reads the journal, writes the entries that are not too old to another
file and moves that file to the place of the journal. Appends open the journal, write
to what they have opened and count. Every access to the files and to the counter is a
step of its own, and steps of different calls follow each other in any order.
-/
namespace Foxing

namespace TombstoneJournal

/-- A call of append: the journal is open, or the line is written. -/
inductive AppendCall where
  | opened (e : TombstoneEntry) (line : Bytes) (inode : ℕ)
  | written (e : TombstoneEntry) (inode : ℕ)
  deriving DecidableEq

namespace AppendCall

def inode : AppendCall → ℕ
  | opened _ _ i | written _ i => i

def writtenEntry : AppendCall → Option TombstoneEntry
  | opened _ _ _ => none
  | written e _ => some e

end AppendCall

/-- A call of compact: the journal is open for reading; it has been read; the entries to be
kept are known; they are being written to a file at an offset; the file has been moved. -/
inductive Compaction where
  | reading (maxAge : ℤ) (inode : ℕ)
  | read (maxAge : ℤ) (entries : List TombstoneEntry)
  | selected (cutoff : ℤ) (retained : List TombstoneEntry)
  | writing (cutoff : ℤ) (retained : List TombstoneEntry) (inode offset : ℕ)
      (todo : List TombstoneEntry)
  | renamed (count : ℕ)
  deriving DecidableEq

/-- The files, the names of the journal and of the other file, the counter, and the calls
that have not returned. The last two fields record the entries whose append has returned
and the cutoffs of the compactions that have replaced the journal. -/
structure Shared where
  inodes : List Bytes
  journal : Option ℕ
  tmp : Option ℕ
  entryCount : ℕ
  appends : List AppendCall
  compactions : List Compaction
  acknowledged : List TombstoneEntry
  cutoffs : List ℤ
  deriving DecidableEq

inductive CompactAction where
  | append (e : TombstoneEntry)
  | advanceAppend (i : ℕ)
  | compact (maxAge : ℤ)
  | advanceCompact (i : ℕ) (now : ℤ)

namespace Shared
variable (serde : Serde TombstoneEntry)

def content (s : Shared) (i : ℕ) : Bytes := s.inodes.getD i []

/-- What is in the journal. -/
def text (s : Shared) : Bytes :=
  match s.journal with
  | none => []
  | some i => s.content i

/-- Opens the journal for appending and creates it if there is none. -/
def openAppend (s : Shared) : Shared × ℕ :=
  match s.journal with
  | some i => (s, i)
  | none => ({ s with inodes := s.inodes ++ [[]], journal := some s.inodes.length },
      s.inodes.length)

/-- Creates the other file, or truncates it. -/
def createTmp (s : Shared) : Shared × ℕ :=
  match s.tmp with
  | some i => ({ s with inodes := s.inodes.set i [] }, i)
  | none => ({ s with inodes := s.inodes ++ [[]], tmp := some s.inodes.length }, s.inodes.length)

def startAppend (s : Shared) (e : TombstoneEntry) : Shared :=
  match entryLine serde e with
  | none => s
  | some line =>
    let (s, i) := s.openAppend
    { s with appends := s.appends ++ [.opened e line i] }

def advanceAppend (s : Shared) (i : ℕ) : Shared :=
  match s.appends[i]? with
  | none => s
  | some (.opened e line inode) =>
    { s with
      inodes := s.inodes.set inode (s.content inode ++ line)
      appends := s.appends.set i (.written e inode) }
  | some (.written e _) =>
    { s with
      entryCount := s.entryCount + 1
      appends := s.appends.eraseIdx i
      acknowledged := s.acknowledged ++ [e] }

def startCompact (s : Shared) (maxAge : ℤ) : Shared :=
  match s.journal with
  | none => { s with compactions := s.compactions ++ [.read maxAge []] }
  | some i => { s with compactions := s.compactions ++ [.reading maxAge i] }

/-- Moves the other file to the place of the journal, which fails if it is not there. -/
def renameTmp (s : Shared) (i : ℕ) (cutoff : ℤ) (count : ℕ) : Shared :=
  match s.tmp with
  | none => { s with compactions := s.compactions.eraseIdx i }
  | some t =>
    { s with
      journal := some t
      tmp := none
      compactions := s.compactions.set i (.renamed count)
      cutoffs := s.cutoffs ++ [cutoff] }

def advanceCompact (s : Shared) (i : ℕ) (now : ℤ) : Shared :=
  match s.compactions[i]? with
  | none => s
  | some (.reading maxAge inode) =>
    { s with
      compactions := s.compactions.set i (.read maxAge (readEntries serde (s.content inode))) }
  | some (.read maxAge entries) =>
    { s with
      compactions := s.compactions.set i
        (.selected (now - maxAge) (entries.filter fun e => now - maxAge ≤ e.timestamp)) }
  | some (.selected cutoff retained) =>
    let (s, inode) := s.createTmp
    { s with compactions := s.compactions.set i (.writing cutoff retained inode 0 retained) }
  | some (.writing cutoff retained inode offset (e :: todo)) =>
    match entryLine serde e with
    | none => { s with compactions := s.compactions.eraseIdx i }
    | some line =>
      { s with
        inodes := s.inodes.set inode (Chunks.write offset line (s.content inode))
        compactions := s.compactions.set i
          (.writing cutoff retained inode (offset + line.length) todo) }
  | some (.writing cutoff retained _ _ []) => s.renameTmp i cutoff retained.length
  | some (.renamed count) =>
    { s with entryCount := count, compactions := s.compactions.eraseIdx i }

def step (s : Shared) : CompactAction → Shared
  | .append e => s.startAppend serde e
  | .advanceAppend i => s.advanceAppend i
  | .compact maxAge => s.startCompact maxAge
  | .advanceCompact i now => s.advanceCompact serde i now

/-- The journal is opened on a file. -/
def start (file : Option Bytes) : Shared where
  inodes := file.toList
  journal := file.map fun _ => 0
  tmp := none
  entryCount := (openFile file).entryCount
  appends := []
  compactions := []
  acknowledged := []
  cutoffs := []

/-- All calls have returned. -/
def Returned (s : Shared) : Prop := s.appends = [] ∧ s.compactions = []

instance (s : Shared) : Decidable s.Returned := inferInstanceAs (Decidable (_ ∧ _))

/-- An entry that no compaction has found too old. -/
def Recent (s : Shared) (e : TombstoneEntry) : Prop := ∀ c ∈ s.cutoffs, c ≤ e.timestamp

instance (s : Shared) (e : TombstoneEntry) : Decidable (s.Recent e) :=
  inferInstanceAs (Decidable (∀ _ ∈ _, _))

/-! ## Steps that do not interfere -/

/-- The compaction has read the journal and will replace it. -/
def Holding : Compaction → Bool
  | .read _ _ | .selected _ _ | .writing .. => true
  | .reading _ _ | .renamed _ => false

/-- The compaction has replaced the journal and will set the counter. -/
def Replaced : Compaction → Bool
  | .renamed _ => true
  | _ => false

/-- An append writes to the journal as it is, and no compaction has read it without having
replaced it yet. One that has written to the new journal counts after the compaction, and
one that has written to the old one before it. Compactions follow each other. -/
def Apart (s : Shared) : CompactAction → Prop
  | .append _ => True
  | .advanceAppend i =>
    match s.appends[i]? with
    | some (.opened _ _ inode) => s.journal = some inode ∧ ∀ k ∈ s.compactions, Holding k = false
    | some (.written _ inode) => s.journal = some inode → ∀ k ∈ s.compactions, Replaced k = false
    | none => True
  | .compact _ => s.compactions = []
  | .advanceCompact i _ =>
    match s.compactions[i]? with
    | some (.renamed _) => ∀ a ∈ s.appends, a.writtenEntry.isSome → s.journal = some a.inode
    | _ => True

instance (s : Shared) (a : CompactAction) : Decidable (s.Apart a) := by
  cases a <;> dsimp only [Apart] <;> (try split) <;> infer_instance

def readAll (s : Shared) : List TombstoneEntry :=
  match s.journal with
  | none => []
  | some i => readEntries serde (s.content i)

/-- The entries whose append has written its line and not returned yet. -/
def inFlight (s : Shared) : List TombstoneEntry := s.appends.filterMap AppendCall.writtenEntry

/-- How many of them have written to the journal as it is. -/
def writtenHere (s : Shared) : ℕ :=
  s.appends.countP fun a => a.writtenEntry.isSome && s.journal = some a.inode

/-! ## Files -/

section Files
variable {serde} {s : Shared}

theorem content_set {inode : ℕ} (h : inode < s.inodes.length) (data : Bytes) (i : ℕ) :
    (s.inodes.set inode data).getD i [] = if i = inode then data else s.content i := by
  by_cases hi : i = inode
  · subst hi
    simp [List.getD_eq_getElem?_getD, h]
  · rw [if_neg hi, content, List.getD_eq_getElem?_getD, List.getD_eq_getElem?_getD,
      List.getElem?_set_ne (Ne.symm hi)]

theorem content_concat {i : ℕ} (h : i < s.inodes.length) (data : Bytes) :
    (s.inodes ++ [data]).getD i [] = s.content i := by
  rw [content, List.getD_eq_getElem?_getD, List.getD_eq_getElem?_getD,
    List.getElem?_append_left h]

theorem text_of_journal {i : ℕ} (h : s.journal = some i) : s.text = s.content i := by
  rw [text, h]

theorem readAll_eq_text : s.readAll serde = readEntries serde s.text := by
  unfold readAll text
  cases s.journal with
  | none => rfl
  | some i => rfl

theorem entryLine_eq_some {e : TombstoneEntry} {line : Bytes} (h : entryLine serde e = some line) :
    ∃ t, serde.toString e = some t ∧ line = t.bytes ++ [newline] := by
  obtain ⟨t, ht, rfl⟩ := Option.map_eq_some_iff.mp h
  exact ⟨t, ht, rfl⟩

theorem write_at_end {data l : Bytes} (h : data ≠ []) :
    Chunks.write l.length data l = l ++ data := by
  rw [Chunks.write, if_neg h, List.take_length, Nat.sub_self, List.replicate_zero, List.append_nil,
    List.drop_eq_nil_of_le (Nat.le_add_right _ _), List.append_nil]

/-- A line that is added is one more line, with one more entry. -/
theorem ended_append_entryLine (h : serde.Lawful) {e : TombstoneEntry} {line content : Bytes}
    (hline : entryLine serde e = some line) (hrest : Lines.rest newline content = []) :
    endedEntries serde (content ++ line) = endedEntries serde content ++ [e] ∧
      Lines.rest newline (content ++ line) = [] ∧
      (Lines.ended newline (content ++ line)).length =
        (Lines.ended newline content).length + 1 := by
  obtain ⟨t, ht, rfl⟩ := entryLine_eq_some hline
  refine ⟨endedEntries_append_line h ht hrest, rest_append_line h ht hrest, ?_⟩
  rw [Lines.ended_append, hrest, List.nil_append, Lines.ended_line (newline_notMem h ht),
    List.length_append, List.length_singleton]

end Files

/-! ## What the steps keep -/

/-- The files that are named and open exist, and no append has opened the other file. -/
structure Bounded (s : Shared) : Prop where
  journal : ∀ i, s.journal = some i → i < s.inodes.length ∧ s.tmp ≠ some i
  tmp : ∀ i, s.tmp = some i → i < s.inodes.length
  appends : ∀ a ∈ s.appends, a.inode < s.inodes.length ∧ s.tmp ≠ some a.inode
  lines : ∀ e line i, .opened e line i ∈ s.appends → entryLine serde e = some line

def lineCount (s : Shared) : ℕ := (Lines.ended newline s.text).length

/-- All that has been written is in the journal, and counted apart from what is in flight. -/
def Quiet (s : Shared) : Prop :=
  (∀ a ∈ s.appends, a.writtenEntry.isSome → s.journal = some a.inode) ∧
    s.entryCount + s.inFlight.length = s.lineCount

/-- What a compaction knows of the journal is still so. -/
def Fits (s : Shared) : Compaction → Prop
  | .reading _ i => s.journal = some i ∧ s.Quiet
  | .read _ entries => entries = endedEntries serde s.text ∧ s.Quiet
  | .selected cutoff retained =>
    retained = (endedEntries serde s.text).filter (fun e => cutoff ≤ e.timestamp) ∧ s.Quiet
  | .writing cutoff retained inode offset todo =>
    retained = (endedEntries serde s.text).filter (fun e => cutoff ≤ e.timestamp) ∧
      s.tmp = some inode ∧ offset = (s.content inode).length ∧
      Lines.rest newline (s.content inode) = [] ∧
      endedEntries serde (s.content inode) ++ todo = retained ∧
      (Lines.ended newline (s.content inode)).length + todo.length = retained.length ∧ s.Quiet
  | .renamed count => s.lineCount = count + s.writtenHere

/-- Every line is ended; of the entries that are not too old, the journal has those from the
beginning, those whose append has returned and those in flight; and there is one compaction
at most. -/
structure Inv (initial : List TombstoneEntry) (s : Shared) : Prop where
  bounded : s.Bounded serde
  ended : Lines.rest newline s.text = []
  counts : ∀ e, s.Recent e → (endedEntries serde s.text).count e =
    initial.count e + s.acknowledged.count e + s.inFlight.count e
  phase : (s.compactions = [] ∧ s.Quiet) ∨ ∃ k, s.compactions = [k] ∧ s.Fits serde k

section Steps
variable {serde} {initial : List TombstoneEntry} {s s' : Shared}

theorem Fits.quiet {k : Compaction} (h : s.Fits serde k) (hk : Replaced k = false) : s.Quiet := by
  cases k with
  | reading m i => exact h.2
  | read m entries => exact h.2
  | selected c r => exact h.2
  | writing c r i o todo => exact h.2.2.2.2.2.2
  | renamed n => cases hk

/-- A step that leaves the journal and the other file alone. -/
theorem Fits.congr {k : Compaction} (h : s.Fits serde k) (htext : s'.text = s.text)
    (hjournal : ∀ i, s.journal = some i → s'.journal = some i) (htmp : s'.tmp = s.tmp)
    (hcontent : ∀ i, s.tmp = some i → s'.content i = s.content i)
    (hquiet : s.Quiet → s'.Quiet)
    (hhere : Replaced k = true → s'.writtenHere = s.writtenHere) : s'.Fits serde k := by
  cases k with
  | reading m i => exact ⟨hjournal i h.1, hquiet h.2⟩
  | read m entries | selected c r => exact ⟨htext ▸ h.1, hquiet h.2⟩
  | writing c r i o todo =>
    obtain ⟨hr, hi, hrest⟩ := h
    refine ⟨htext ▸ hr, htmp ▸ hi, ?_⟩
    rw [hcontent i hi]
    exact ⟨hrest.1, hrest.2.1, hrest.2.2.1, hrest.2.2.2.1, hquiet hrest.2.2.2.2⟩
  | renamed n =>
    show (Lines.ended newline s'.text).length = n + s'.writtenHere
    rw [htext, hhere rfl]
    exact h

/-! ### Appends -/

theorem writtenHere_of_none (h : s.journal = none) : s.writtenHere = 0 := by
  refine List.countP_eq_zero.mpr fun a _ => ?_
  simp [h]

/-- Creating an empty journal changes nothing of what is in it. -/
theorem Inv.openAppend (h : s.Inv serde initial) :
    s.openAppend.1.Inv serde initial ∧ s.openAppend.1.journal = some s.openAppend.2 := by
  obtain ⟨hbounded, hended, hcounts, hphase⟩ := h
  unfold Shared.openAppend
  cases hjournal : s.journal with
  | some i => exact ⟨⟨hbounded, hended, hcounts, hphase⟩, hjournal⟩
  | none =>
    refine ⟨?_, rfl⟩
    have htext : s.text = [] := by rw [text, hjournal]
    have htext' : text { s with
        inodes := s.inodes ++ [[]], journal := some s.inodes.length } = [] := by
      simp [text, content]
    have hkept : ∀ i, i < s.inodes.length → i < (s.inodes ++ [[]]).length := by
      intro i hi
      rw [List.length_append]
      omega
    have hquiet : s.Quiet → Quiet { s with
        inodes := s.inodes ++ [[]], journal := some s.inodes.length } := by
      rintro ⟨hall, hcount⟩
      refine ⟨fun a ha hw => ?_, ?_⟩
      · have hnone := hall a ha hw
        rw [hjournal] at hnone
        cases hnone
      · rw [lineCount, htext', ← htext]
        exact hcount
    refine ⟨⟨fun i hi => ?_, fun i hi => hkept i (hbounded.tmp i hi), fun a ha => ?_,
      hbounded.lines⟩, by rw [htext']; rfl, fun e he => ?_, ?_⟩
    · cases hi
      refine ⟨by simp, fun htmp => ?_⟩
      exact absurd (hbounded.tmp _ htmp) (lt_irrefl _)
    · exact ⟨hkept _ (hbounded.appends a ha).1, (hbounded.appends a ha).2⟩
    · rw [htext', ← htext]
      exact hcounts e he
    · refine hphase.imp (fun ⟨hnone, hq⟩ => ⟨hnone, hquiet hq⟩) ?_
      rintro ⟨k, hk, hfits⟩
      refine ⟨k, hk, hfits.congr (htext'.trans htext.symm) (fun i hi => ?_) rfl (fun i hi => ?_)
        hquiet fun _ => ?_⟩
      · rw [hjournal] at hi
        cases hi
      · exact content_concat (hbounded.tmp i hi) []
      · -- Nothing has been written to the new file yet.
        rw [writtenHere_of_none hjournal]
        refine List.countP_eq_zero.mpr fun a ha => ?_
        have hlt := (hbounded.appends a ha).1
        simp only [Bool.and_eq_true, decide_eq_true_eq, Option.some.injEq, not_and]
        exact fun _ heq => absurd heq (by omega)

theorem Inv.addOpened (h : s.Inv serde initial) {i : ℕ} (hjournal : s.journal = some i)
    {e : TombstoneEntry} {line : Bytes} (hline : entryLine serde e = some line) :
    Inv serde initial { s with appends := s.appends ++ [.opened e line i] } := by
  obtain ⟨hbounded, hended, hcounts, hphase⟩ := h
  have hflight : inFlight { s with appends := s.appends ++ [.opened e line i] } = s.inFlight := by
    rw [inFlight, List.filterMap_append]
    exact List.append_nil _
  have hquiet : s.Quiet → Quiet { s with appends := s.appends ++ [.opened e line i] } := by
    rintro ⟨hall, hcount⟩
    refine ⟨fun a ha hw => ?_, by rw [hflight]; exact hcount⟩
    rcases List.mem_append.mp ha with ha | ha
    · exact hall a ha hw
    · rw [List.mem_singleton.mp ha] at hw
      cases hw
  refine ⟨⟨hbounded.journal, hbounded.tmp, fun a ha => ?_, fun e' line' j hmem => ?_⟩, hended,
    fun e' he' => by rw [hflight]; exact hcounts e' he', ?_⟩
  · rcases List.mem_append.mp ha with ha | ha
    · exact hbounded.appends a ha
    · rw [List.mem_singleton.mp ha]
      exact hbounded.journal i hjournal
  · rcases List.mem_append.mp hmem with hmem | hmem
    · exact hbounded.lines e' line' j hmem
    · cases List.mem_singleton.mp hmem
      exact hline
  · refine hphase.imp (fun ⟨hnone, hq⟩ => ⟨hnone, hquiet hq⟩) ?_
    rintro ⟨k, hk, hfits⟩
    refine ⟨k, hk, hfits.congr rfl (fun _ h => h) rfl (fun _ _ => rfl) hquiet fun _ => ?_⟩
    rw [writtenHere, List.countP_append]
    exact Nat.add_zero _

theorem Inv.startAppend (h : s.Inv serde initial) (e : TombstoneEntry) :
    (s.startAppend serde e).Inv serde initial := by
  unfold Shared.startAppend
  cases hline : entryLine serde e with
  | none => exact h
  | some line => exact h.openAppend.1.addOpened h.openAppend.2 hline

/-- An append has written its line. -/
def afterWrite (s : Shared) (i inode : ℕ) (e : TombstoneEntry) (line : Bytes) : Shared :=
  { s with
    inodes := s.inodes.set inode (s.content inode ++ line)
    appends := s.appends.set i (.written e inode) }

section Write
variable {i inode : ℕ} {e : TombstoneEntry} {line : Bytes}

theorem mem_afterWrite {a : AppendCall} (ha : a ∈ (s.afterWrite i inode e line).appends) :
    a ∈ s.appends ∨ a = .written e inode :=
  List.mem_or_eq_of_mem_set ha

theorem text_afterWrite (hjournal : s.journal = some inode) (hinode : inode < s.inodes.length) :
    (s.afterWrite i inode e line).text = s.content inode ++ line := by
  rw [text_of_journal (s := s.afterWrite i inode e line) hjournal]
  exact (content_set hinode _ _).trans (if_pos rfl)

theorem inFlight_afterWrite (ha : s.appends[i]? = some (.opened e line inode)) :
    (s.afterWrite i inode e line).inFlight.Perm (e :: s.inFlight) := by
  obtain ⟨before, after, hsplit, hset, -⟩ := Pool.split ha
  rw [inFlight, afterWrite, hset, inFlight, hsplit]
  simp only [List.filterMap_append, List.filterMap_cons, AppendCall.writtenEntry]
  exact List.perm_middle

theorem writtenHere_afterWrite (ha : s.appends[i]? = some (.opened e line inode))
    (hjournal : s.journal = some inode) :
    (s.afterWrite i inode e line).writtenHere = s.writtenHere + 1 := by
  obtain ⟨before, after, hsplit, hset, -⟩ := Pool.split ha
  rw [writtenHere, afterWrite, hset, writtenHere, hsplit]
  simp only [List.countP_append, List.countP_cons, AppendCall.writtenEntry, AppendCall.inode,
    hjournal, Option.isSome_none, Option.isSome_some, Bool.false_and, Bool.true_and, decide_true,
    if_true, Bool.false_eq_true, if_false]
  omega

theorem Bounded.afterWrite (h : s.Bounded serde) (hjournal : s.journal = some inode) :
    (s.afterWrite i inode e line).Bounded serde := by
  have hlength : (s.afterWrite i inode e line).inodes.length = s.inodes.length :=
    List.length_set ..
  refine ⟨fun j hj => ?_, fun j hj => ?_, fun a ha => ?_, fun e' line' j ha => ?_⟩
  · rw [hlength]
    exact h.journal j hj
  · rw [hlength]
    exact h.tmp j hj
  · rw [hlength]
    rcases mem_afterWrite ha with ha | rfl
    · exact h.appends a ha
    · exact h.journal inode hjournal
  · rcases mem_afterWrite ha with ha | ha
    · exact h.lines e' line' j ha
    · cases ha

/-- What is written to the journal is in flight. -/
theorem Quiet.afterWrite (h : s.Quiet) (ha : s.appends[i]? = some (.opened e line inode))
    (hjournal : s.journal = some inode)
    (hcount : (s.afterWrite i inode e line).lineCount = s.lineCount + 1) :
    (s.afterWrite i inode e line).Quiet := by
  refine ⟨fun a ha hw => ?_, ?_⟩
  · rcases mem_afterWrite ha with ha | rfl
    · exact h.1 a ha hw
    · exact hjournal
  · have hsum := h.2
    have hflight := (inFlight_afterWrite ha).length_eq
    rw [List.length_cons] at hflight
    rw [hcount, ← hsum, hflight]
    exact (Nat.add_assoc ..).symm

/-- An append writes its line to the journal. -/
theorem Inv.write (hserde : serde.Lawful) (h : s.Inv serde initial)
    (ha : s.appends[i]? = some (.opened e line inode)) (hjournal : s.journal = some inode)
    (hfree : ∀ k ∈ s.compactions, Holding k = false) :
    (s.afterWrite i inode e line).Inv serde initial := by
  obtain ⟨hbounded, hended, hcounts, hphase⟩ := h
  have hline : entryLine serde e = some line :=
    hbounded.lines e line inode (List.mem_of_getElem? ha)
  have htext : (s.afterWrite i inode e line).text = s.content inode ++ line :=
    text_afterWrite hjournal (hbounded.journal inode hjournal).1
  rw [text_of_journal hjournal] at hended
  obtain ⟨hentries, hrest, hlength⟩ := ended_append_entryLine hserde hline hended
  have hcount : (s.afterWrite i inode e line).lineCount = s.lineCount + 1 := by
    rw [lineCount, htext, hlength, lineCount, text_of_journal hjournal]
  have hquiet := fun hquiet : s.Quiet => hquiet.afterWrite ha hjournal hcount
  refine ⟨hbounded.afterWrite hjournal, by rw [htext]; exact hrest, fun e' he' => ?_, ?_⟩
  · have hold := hcounts e' he'
    have hflight := (inFlight_afterWrite ha).count_eq e'
    rw [text_of_journal hjournal] at hold
    rw [List.count_cons] at hflight
    rw [htext, hentries, List.count_append, hold, hflight, List.count_cons, List.count_nil,
      Nat.zero_add]
    exact Nat.add_assoc ..
  · refine hphase.imp (fun ⟨hnone, hq⟩ => ⟨hnone, hquiet hq⟩) ?_
    rintro ⟨k, hk, hfits⟩
    refine ⟨k, hk, ?_⟩
    have hk' : Holding k = false := hfree k (by rw [hk]; exact List.mem_singleton_self k)
    cases k with
    | reading m j => exact ⟨hfits.1, hquiet hfits.2⟩
    | read m entries => cases hk'
    | selected c r => cases hk'
    | writing c r j o todo => cases hk'
    | renamed n =>
      have hfits' : s.lineCount = n + s.writtenHere := hfits
      show lineCount _ = n + writtenHere _
      rw [hcount, hfits', writtenHere_afterWrite ha hjournal]
      exact Nat.add_assoc ..

end Write

/-- An append returns. -/
theorem Inv.acknowledge (h : s.Inv serde initial) {i inode : ℕ} {e : TombstoneEntry}
    (ha : s.appends[i]? = some (.written e inode))
    (hfree : s.journal = some inode → ∀ k ∈ s.compactions, Replaced k = false) :
    Inv serde initial { s with
      entryCount := s.entryCount + 1
      appends := s.appends.eraseIdx i
      acknowledged := s.acknowledged ++ [e] } := by
  obtain ⟨hbounded, hended, hcounts, hphase⟩ := h
  obtain ⟨before, after, hsplit, -, herase⟩ := Pool.split ha
  rw [herase]
  have hmem : ∀ a ∈ before ++ after, a ∈ s.appends := by
    intro a ha
    rw [← herase] at ha
    exact List.mem_of_mem_eraseIdx ha
  have hquiet : s.Quiet → Quiet { s with
      entryCount := s.entryCount + 1
      appends := before ++ after
      acknowledged := s.acknowledged ++ [e] } := by
    rintro ⟨hall, hsum⟩
    refine ⟨fun a ha => hall a (hmem a ha), ?_⟩
    refine Eq.trans ?_ hsum
    simp only [inFlight, hsplit, List.filterMap_append, List.filterMap_cons,
      AppendCall.writtenEntry, List.length_append, List.length_cons]
    omega
  refine ⟨⟨hbounded.journal, hbounded.tmp, fun a ha => hbounded.appends a (hmem a ha),
    fun e' line j ha => hbounded.lines e' line j (hmem _ ha)⟩, hended, fun e' he' => ?_, ?_⟩
  · refine (hcounts e' he').trans ?_
    simp only [inFlight, hsplit, List.filterMap_append, List.filterMap_cons,
      AppendCall.writtenEntry, List.count_append, List.count_cons, List.count_nil]
    omega
  · refine hphase.imp (fun ⟨hnone, hq⟩ => ⟨hnone, hquiet hq⟩) ?_
    rintro ⟨k, hk, hfits⟩
    refine ⟨k, hk, hfits.congr rfl (fun _ h => h) rfl (fun _ _ => rfl) hquiet fun hreplaced => ?_⟩
    have hother : ¬ s.journal = some inode := by
      intro hjournal
      have := hfree hjournal k (by rw [hk]; exact List.mem_singleton_self k)
      rw [hreplaced] at this
      cases this
    simp only [writtenHere, hsplit, List.countP_append, List.countP_cons, AppendCall.writtenEntry,
      AppendCall.inode, hother, Option.isSome_some, Bool.true_and, decide_false,
      Bool.false_eq_true, if_false, Nat.add_zero]

theorem Inv.advanceAppend (hserde : serde.Lawful) (h : s.Inv serde initial) {i : ℕ}
    (hapart : s.Apart (.advanceAppend i)) : (s.advanceAppend i).Inv serde initial := by
  simp only [Shared.Apart] at hapart
  unfold Shared.advanceAppend
  cases ha : s.appends[i]? with
  | none => exact h
  | some a =>
    rw [ha] at hapart
    cases a with
    | opened e line inode => exact h.write hserde ha hapart.1 hapart.2
    | written e inode => exact h.acknowledge ha hapart

/-! ### Compactions -/

/-- Nothing but the compaction itself changes. -/
theorem Inv.of_fits (h : s.Inv serde initial) {k : Compaction} (hk : s.Fits serde k) :
    Inv serde initial { s with compactions := [k] } := by
  refine ⟨⟨h.bounded.journal, h.bounded.tmp, h.bounded.appends, h.bounded.lines⟩, h.ended, h.counts,
    .inr ⟨k, rfl, ?_⟩⟩
  exact hk.congr rfl (fun _ h => h) rfl (fun _ _ => rfl) (fun h => h) fun _ => rfl

theorem Inv.of_quiet (h : s.Inv serde initial) (hquiet : s.Quiet) :
    Inv serde initial { s with compactions := [] } :=
  ⟨⟨h.bounded.journal, h.bounded.tmp, h.bounded.appends, h.bounded.lines⟩, h.ended, h.counts,
    .inl ⟨rfl, hquiet⟩⟩

theorem Inv.startCompact (h : s.Inv serde initial) (hnone : s.compactions = []) (maxAge : ℤ) :
    (s.startCompact maxAge).Inv serde initial := by
  have hquiet : s.Quiet := by
    rcases h.phase with ⟨-, hquiet⟩ | ⟨k, hk, -⟩
    · exact hquiet
    · rw [hnone] at hk
      cases hk
  unfold Shared.startCompact
  rw [hnone]
  cases hjournal : s.journal with
  | none =>
    have hempty : [] = endedEntries serde s.text := by
      rw [text, hjournal]
      rfl
    have hinv := h.of_fits (k := .read maxAge []) ⟨hempty, hquiet⟩
    rw [hjournal] at hinv
    exact hinv
  | some i =>
    have hinv := h.of_fits (k := .reading maxAge i) ⟨hjournal, hquiet⟩
    rw [hjournal] at hinv
    exact hinv

/-- What a file that a compaction writes has of the entries to be kept. -/
def Holds (serde : Serde TombstoneEntry) (content : Bytes) (retained todo : List TombstoneEntry) :
    Prop :=
  Lines.rest newline content = [] ∧ endedEntries serde content ++ todo = retained ∧
    (Lines.ended newline content).length + todo.length = retained.length

/-- A step that changes the other file only. -/
theorem Inv.of_tmp (h : s.Inv serde initial) (hquiet : s.Quiet) (cutoff : ℤ)
    (inodes : List Bytes) (inode : ℕ) (todo : List TombstoneEntry)
    (hlen : s.inodes.length ≤ inodes.length) (hin : inode < inodes.length)
    (hsame : ∀ i, i < s.inodes.length → s.tmp ≠ some i →
      inode ≠ i ∧ inodes.getD i [] = s.content i)
    (hholds : Holds serde (inodes.getD inode [])
      ((endedEntries serde s.text).filter fun e => cutoff ≤ e.timestamp) todo) :
    Inv serde initial { s with
      inodes := inodes
      tmp := some inode
      compactions := [.writing cutoff
        ((endedEntries serde s.text).filter fun e => cutoff ≤ e.timestamp) inode
        (inodes.getD inode []).length todo] } := by
  generalize hretained : (endedEntries serde s.text).filter (fun e => cutoff ≤ e.timestamp) =
    retained at hholds ⊢
  have htext : ∀ compactions,
      text { s with inodes := inodes, tmp := some inode, compactions := compactions } = s.text := by
    intro compactions
    unfold text
    cases hjournal : s.journal with
    | none => rfl
    | some i =>
      obtain ⟨hi, hne⟩ := h.bounded.journal i hjournal
      exact (hsame i hi hne).2
  refine ⟨⟨fun i hi => ?_, fun i hi => ?_, fun a ha => ?_, h.bounded.lines⟩,
    by rw [htext]; exact h.ended, by rw [htext]; exact h.counts, .inr ⟨_, rfl, ?_⟩⟩
  · obtain ⟨hlt, hne⟩ := h.bounded.journal i hi
    exact ⟨hlt.trans_le hlen, fun heq => (hsame i hlt hne).1 (Option.some.inj heq)⟩
  · cases hi
    exact hin
  · obtain ⟨hlt, hne⟩ := h.bounded.appends a ha
    exact ⟨hlt.trans_le hlen, fun heq => (hsame _ hlt hne).1 (Option.some.inj heq)⟩
  · refine ⟨?_, rfl, rfl, hholds.1, hholds.2.1, hholds.2.2, hquiet.1, ?_⟩
    · rw [htext]
      exact hretained.symm
    · rw [lineCount, htext]
      exact hquiet.2

/-- The other file is created. -/
theorem Inv.create (h : s.Inv serde initial) {cutoff : ℤ} {retained : List TombstoneEntry}
    (hk : s.Fits serde (.selected cutoff retained)) :
    Inv serde initial { s.createTmp.1 with
      compactions := [.writing cutoff retained s.createTmp.2 0 retained] } := by
  obtain ⟨rfl, hquiet⟩ := hk
  unfold createTmp
  cases htmp : s.tmp with
  | some t =>
    have ht := h.bounded.tmp t htmp
    have hempty : (s.inodes.set t []).getD t [] = [] := (content_set ht [] t).trans (if_pos rfl)
    have hinv := h.of_tmp hquiet cutoff (s.inodes.set t []) t
      ((endedEntries serde s.text).filter fun e => cutoff ≤ e.timestamp)
      (by rw [List.length_set]) (by rw [List.length_set]; exact ht) (fun i hi hne => ?_) ?_
    · rw [hempty] at hinv
      exact hinv
    · have hti : t ≠ i := fun heq => hne (heq ▸ htmp)
      exact ⟨hti, (content_set ht [] i).trans (if_neg (Ne.symm hti))⟩
    · rw [hempty]
      exact ⟨rfl, List.nil_append _, Nat.zero_add _⟩
  | none =>
    have hempty : (s.inodes ++ [[]]).getD s.inodes.length [] = [] := by
      simp [List.getD_eq_getElem?_getD]
    have hinv := h.of_tmp hquiet cutoff (s.inodes ++ [[]]) s.inodes.length
      ((endedEntries serde s.text).filter fun e => cutoff ≤ e.timestamp)
      (by simp) (by simp) (fun i hi _ => ⟨by omega, content_concat hi []⟩) ?_
    · rw [hempty] at hinv
      exact hinv
    · rw [hempty]
      exact ⟨rfl, List.nil_append _, Nat.zero_add _⟩

/-- A line is written to the other file. -/
theorem Inv.writeLine (hserde : serde.Lawful) (h : s.Inv serde initial) {cutoff : ℤ}
    {retained todo : List TombstoneEntry} {inode offset : ℕ} {e : TombstoneEntry} {line : Bytes}
    (hk : s.Fits serde (.writing cutoff retained inode offset (e :: todo)))
    (hline : entryLine serde e = some line) :
    Inv serde initial { s with
      inodes := s.inodes.set inode (Chunks.write offset line (s.content inode))
      compactions := [.writing cutoff retained inode (offset + line.length) todo] } := by
  obtain ⟨rfl, htmp, rfl, hrest, hentries, hlength, hquiet⟩ := hk
  have hinode := h.bounded.tmp inode htmp
  have hne : line ≠ [] := by
    obtain ⟨t, -, rfl⟩ := entryLine_eq_some hline
    simp
  obtain ⟨hentries', hrest', hlength'⟩ := ended_append_entryLine hserde hline hrest
  have hcontent : (s.inodes.set inode (s.content inode ++ line)).getD inode [] =
      s.content inode ++ line := (content_set hinode _ _).trans (if_pos rfl)
  rw [write_at_end hne]
  have hinv := h.of_tmp hquiet cutoff (s.inodes.set inode (s.content inode ++ line)) inode todo
    (by rw [List.length_set])
    (by rw [List.length_set]; exact hinode) (fun i hi hne => ?_) ?_
  · rw [hcontent, List.length_append, ← htmp] at hinv
    exact hinv
  · have hti : inode ≠ i := fun heq => hne (heq ▸ htmp)
    exact ⟨hti, (content_set hinode _ i).trans (if_neg (Ne.symm hti))⟩
  · rw [hcontent]
    refine ⟨hrest', ?_, ?_⟩
    · rw [hentries', List.append_assoc]
      exact hentries
    · rw [List.length_cons] at hlength
      omega

/-- The other file takes the place of the journal. -/
theorem Inv.rename (h : s.Inv serde initial) {cutoff : ℤ} {retained : List TombstoneEntry}
    {inode offset : ℕ} (hk : s.Fits serde (.writing cutoff retained inode offset [])) :
    Inv serde initial { s with
      journal := some inode
      tmp := none
      compactions := [.renamed retained.length]
      cutoffs := s.cutoffs ++ [cutoff] } := by
  obtain ⟨rfl, htmp, -, hrest, hentries, hlength, hquiet⟩ := hk
  rw [List.append_nil] at hentries
  refine ⟨⟨fun i hi => ?_, nofun, fun a ha => ?_, h.bounded.lines⟩, hrest, fun e he => ?_,
    .inr ⟨_, rfl, ?_⟩⟩
  · cases hi
    exact ⟨h.bounded.tmp inode htmp, nofun⟩
  · exact ⟨(h.bounded.appends a ha).1, nofun⟩
  · have hcutoff : cutoff ≤ e.timestamp :=
      he cutoff (List.mem_append_right _ (List.mem_singleton_self _))
    have hrecent : s.Recent e := fun c hc => he c (List.mem_append_left _ hc)
    refine Eq.trans ?_ (h.counts e hrecent)
    show (endedEntries serde (s.content inode)).count e = _
    rw [hentries, List.count_filter (by simpa using hcutoff)]
  · -- What is in flight has been written to the old journal.
    show (Lines.ended newline (s.content inode)).length = _ + writtenHere _
    have hzero : writtenHere { s with
        journal := some inode
        tmp := none
        compactions := [.renamed
          ((endedEntries serde s.text).filter fun e => cutoff ≤ e.timestamp).length]
        cutoffs := s.cutoffs ++ [cutoff] } = 0 := by
      refine List.countP_eq_zero.mpr fun a ha => ?_
      have hne := (h.bounded.appends a ha).2
      rw [htmp] at hne
      simp only [Bool.and_eq_true, decide_eq_true_eq, not_and]
      exact fun _ => hne
    rw [hzero, Nat.add_zero]
    exact hlength

/-- The counter is set. -/
theorem Inv.store (h : s.Inv serde initial) {count : ℕ} (hk : s.Fits serde (.renamed count))
    (hall : ∀ a ∈ s.appends, a.writtenEntry.isSome → s.journal = some a.inode) :
    Inv serde initial { s with entryCount := count, compactions := [] } := by
  have hk' : s.lineCount = count + s.writtenHere := hk
  refine ⟨⟨h.bounded.journal, h.bounded.tmp, h.bounded.appends, h.bounded.lines⟩, h.ended, h.counts,
    .inl ⟨rfl, hall, ?_⟩⟩
  refine Eq.trans ?_ hk'.symm
  show count + s.inFlight.length = count + s.writtenHere
  rw [inFlight, List.length_filterMap_eq_countP, writtenHere]
  congr 1
  refine List.countP_congr fun a ha => ?_
  simp only [Bool.and_eq_true, decide_eq_true_eq]
  exact ⟨fun hw => ⟨hw, hall a ha hw⟩, fun hw => hw.1⟩

theorem Inv.advanceCompact (hserde : serde.Lawful) (h : s.Inv serde initial) {i : ℕ} {now : ℤ}
    (hapart : s.Apart (.advanceCompact i now)) :
    (s.advanceCompact serde i now).Inv serde initial := by
  simp only [Shared.Apart] at hapart
  unfold Shared.advanceCompact
  cases hget : s.compactions[i]? with
  | none => exact h
  | some k =>
    rw [hget] at hapart
    obtain ⟨rfl, hone, hfits⟩ : i = 0 ∧ s.compactions = [k] ∧ s.Fits serde k := by
      rcases h.phase with ⟨hnone, -⟩ | ⟨k', hk', hfits⟩
      · rw [hnone] at hget
        cases hget
      · rw [hk'] at hget
        cases i with
        | zero =>
          cases hget
          exact ⟨rfl, hk', hfits⟩
        | succ i => cases hget
    have hset : ∀ k', s.compactions.set 0 k' = [k'] := fun k' => by rw [hone]; rfl
    have herase : s.compactions.eraseIdx 0 = [] := by rw [hone]; rfl
    cases k with
    | reading maxAge inode =>
      simp only [hset]
      refine h.of_fits ⟨?_, hfits.2⟩
      rw [← text_of_journal hfits.1, readEntries_of_rest h.ended]
    | read maxAge entries =>
      simp only [hset]
      refine h.of_fits ⟨?_, hfits.2⟩
      rw [hfits.1]
    | selected cutoff retained =>
      have hcompactions : s.createTmp.1.compactions = s.compactions := by
        unfold createTmp
        cases s.tmp <;> rfl
      simp only [hcompactions, hset]
      exact h.create hfits
    | writing cutoff retained inode offset todo =>
      cases todo with
      | nil =>
        simp only [renameTmp, hfits.2.1, hset]
        exact h.rename hfits
      | cons e todo =>
        simp only []
        cases hline : entryLine serde e with
        | none =>
          simp only [herase]
          exact h.of_quiet (hfits.quiet rfl)
        | some line =>
          simp only [hset]
          exact h.writeLine hserde hfits hline
    | renamed count =>
      simp only [herase]
      exact h.store hfits hapart

theorem Inv.step (hserde : serde.Lawful) (h : s.Inv serde initial) {a : CompactAction}
    (hapart : s.Apart a) : (s.step serde a).Inv serde initial := by
  cases a with
  | append e => exact h.startAppend e
  | advanceAppend i => exact h.advanceAppend hserde hapart
  | compact maxAge => exact h.startCompact hapart maxAge
  | advanceCompact i now => exact h.advanceCompact hserde hapart

theorem fileLines_of_rest {content : Bytes} (h : Lines.rest newline content = []) :
    (fileLines content).length = (Lines.ended newline content).length := by
  rw [fileLines, if_pos h, List.append_nil, List.length_map]

theorem Inv.start {file : Option Bytes} (h : Lines.rest newline (file.getD []) = []) :
    (start file).Inv serde (TombstoneJournal.readAll serde (openFile file)) := by
  cases file with
  | none => exact ⟨⟨nofun, nofun, nofun, nofun⟩, rfl, fun e _ => rfl, .inl ⟨rfl, nofun, rfl⟩⟩
  | some content =>
    rw [Option.getD_some] at h
    refine ⟨⟨?_, nofun, nofun, nofun⟩, h, fun e _ => ?_, .inl ⟨rfl, nofun, ?_⟩⟩
    · rintro i ⟨⟩
      exact ⟨Nat.zero_lt_one, nofun⟩
    · show (endedEntries serde content).count e = (readEntries serde content).count e + 0 + 0
      rw [readEntries_of_rest h]
      rfl
    · exact fileLines_of_rest h

end Steps

/-- As long as appends and compactions keep apart, no entry that is recent enough is lost or
doubled, and the counter is right whenever all calls have returned. -/
theorem counted_of_apart {serde : Serde TombstoneEntry} (hserde : serde.Lawful)
    {file : Option Bytes} (hfile : Lines.rest newline (file.getD []) = [])
    {as : List CompactAction} (has : Run.Along (step serde) Apart (start file) as) :
    ∀ p, p <+: as →
      (∀ e, (Run.exec (step serde) (start file) p).Recent e →
        ((Run.exec (step serde) (start file) p).readAll serde).count e =
          (TombstoneJournal.readAll serde (openFile file)).count e +
          (Run.exec (step serde) (start file) p).acknowledged.count e +
          (Run.exec (step serde) (start file) p).inFlight.count e) ∧
      ((Run.exec (step serde) (start file) p).Returned →
        (Run.exec (step serde) (start file) p).entryCount =
          (fileLines (Run.exec (step serde) (start file) p).text).length) := by
  intro p hp
  have hinv := Run.invariant_prefix (step serde)
    (I := Inv serde (TombstoneJournal.readAll serde (openFile file)))
    (fun s a hapart h => Inv.step hserde h hapart) has (Inv.start hfile) p hp
  generalize Run.exec (step serde) (start file) p = s at hinv ⊢
  refine ⟨fun e he => ?_, fun hreturned => ?_⟩
  · rw [readAll_eq_text, readEntries_of_rest hinv.ended]
    exact hinv.counts e he
  · rcases hinv.phase with ⟨-, -, hcount⟩ | ⟨k, hk, -⟩
    · rw [fileLines_of_rest hinv.ended]
      rw [inFlight, hreturned.1] at hcount
      exact hcount
    · rw [hreturned.2] at hk
      cases hk

/-- Two entries are appended, and a compaction keeps the later one. -/
def inTurnRun : List CompactAction :=
  [.append deletedA, .append deletedB, .advanceAppend 1, .advanceAppend 0, .advanceAppend 0,
    .advanceAppend 0, .compact 10, .advanceCompact 0 1011, .advanceCompact 0 1011,
    .advanceCompact 0 1011, .advanceCompact 0 1011, .advanceCompact 0 1011, .advanceCompact 0 1011]

theorem inTurnRun_counted :
    Run.Along (step sampleSerde) Apart (start none) inTurnRun ∧
      ((Run.exec (step sampleSerde) (start none) inTurnRun).readAll sampleSerde).count deletedB = 1 ∧
      (Run.exec (step sampleSerde) (start none) inTurnRun).Returned := by
  have has : Run.Along (step sampleSerde) Apart (start none) inTurnRun := by decide +kernel
  refine ⟨has, ?_, by decide +kernel⟩
  rw [((counted_of_apart sampleSerde_lawful rfl has) _ List.prefix_rfl).1 deletedB (by decide +kernel)]
  decide +kernel

/-- An entry is appended between the reading of the journal and its replacement. -/
def overtakenRun : List CompactAction :=
  [.append deletedA, .advanceAppend 0, .advanceAppend 0, .compact 10, .advanceCompact 0 1000,
    .append deletedB, .advanceAppend 0, .advanceAppend 0, .advanceCompact 0 1000,
    .advanceCompact 0 1000, .advanceCompact 0 1000, .advanceCompact 0 1000, .advanceCompact 0 1000]

theorem overtakenRun_loses :
    ¬ ∀ (serde : Serde TombstoneEntry), serde.Lawful → ∀ as : List CompactAction,
      (Run.exec (step serde) (start none) as).Returned →
      (∀ e, (Run.exec (step serde) (start none) as).Recent e →
        ((Run.exec (step serde) (start none) as).readAll serde).count e =
          (Run.exec (step serde) (start none) as).acknowledged.count e) ∧
      (Run.exec (step serde) (start none) as).entryCount =
        (fileLines (Run.exec (step serde) (start none) as).text).length := by
  intro h
  have hlost := (h sampleSerde sampleSerde_lawful overtakenRun (by decide +kernel)).1 deletedB
    (by decide +kernel)
  revert hlost
  decide +kernel

end Shared

end TombstoneJournal

end Foxing
