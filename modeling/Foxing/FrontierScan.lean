import Foxing.Lib.Run
import Foxing.TombstoneJournal
import Foxing.VersionArchive

/-!
# The frontier scan

A scan of a source keeps a stack of the directories that are to be read. The stack is
written to a checkpoint after every thousand directories and when the daemon shuts
down, and a scan that finds a checkpoint goes on from it. The source may change at
any time: what a directory is found to hold is given with the step that reads it.
Paths are relative to the root of the source.
-/
namespace Foxing.FrontierScan

/-- The directories that are to be read, with the last one first. -/
structure HydrationFrontier where
  pendingDirs : List RelPath
  completedDirs : ℕ
  filesQueued : ℕ
  deriving DecidableEq, Repr

def HydrationFrontier.new : HydrationFrontier := ⟨[[]], 0, 0⟩

inductive FileType
  | dir
  | file
  | other
  deriving DecidableEq, Repr

structure Metadata where
  dev : ℕ
  ino : ℕ
  deriving DecidableEq, Repr

/-- An entry of a directory; its metadata may be unavailable. -/
structure DirEntry where
  name : Bytes
  fileType : FileType
  metadata : Option Metadata
  deriving DecidableEq, Repr

/-- The number of a device as the daemon has it. -/
def normalizeDev (rawDev : ℕ) : ℕ :=
  let maj := (rawDev >>> 8) &&& 0xfff
  let min := (rawDev &&& 0xff) ||| ((rawDev >>> 12) &&& 0xfff00)
  (maj <<< 20) ||| min

structure Source (τ : Type*) where
  rootDev : ℕ
  crossSubvolumes : Bool
  targets : List τ

/-- The filter for other devices lets entries without metadata pass. -/
def Source.admits {τ : Type*} (source : Source τ) (e : DirEntry) : Bool :=
  source.crossSubvolumes ||
    match e.metadata with
    | some m => normalizeDev m.dev = source.rootDev
    | none => true

/-- A job as it is offered to the queue. -/
structure Offer (τ : Type*) where
  relPath : RelPath
  target : τ
  ino : ℕ
  deriving DecidableEq, Repr

/-- A scan that is running; `reading` is the directory that is read, with the entries that are
left of it. -/
structure Scan where
  frontier : HydrationFrontier
  reading : Option (RelPath × List DirEntry)
  deriving DecidableEq, Repr

/-- The file of the checkpoint, the scan that is running, the jobs that have been offered, and
whether a scan has come to its end. -/
structure State (τ : Type*) where
  checkpoint : Option Bytes
  scan : Option Scan
  offered : List (Offer τ)
  completed : Bool
  deriving DecidableEq, Repr

/-- The number of bytes that get into the file; there are none if it cannot be opened. -/
abbrev Write := Option ℕ

inductive Action
  | start
  | pop (shutdown : Bool) (listing : Option (List DirEntry)) (write : Write)
  | entry (queue : Bool)
  | dirDone (write : Write)
  | finish (removed : Bool)
  | crash
  deriving DecidableEq, Repr

section Step
variable {τ : Type*} (serde : Serde HydrationFrontier) (source : Source τ)

/-- The checkpoint, unless it is missing or cannot be read. -/
def load (checkpoint : Option Bytes) : Option HydrationFrontier :=
  checkpoint.bind fun data => (Text.fromUtf8 data).bind serde.fromStr

/-- The file is written in place. -/
def save (frontier : HydrationFrontier) (write : Write) (checkpoint : Option Bytes) :
    Option Bytes :=
  match serde.toString frontier, write with
  | some data, some n => some (data.bytes.take n)
  | _, _ => checkpoint

/-- Directories are pushed, and regular files are offered for all targets if there is a queue. -/
def readEntry (dir : RelPath) (e : DirEntry) (queue : Bool) (frontier : HydrationFrontier) :
    HydrationFrontier × List (Offer τ) :=
  let path := dir ++ [e.name]
  if source.admits e then
    match e.fileType, e.metadata with
    | .dir, _ => ({ frontier with pendingDirs := path :: frontier.pendingDirs }, [])
    | .file, some m =>
      if queue then
        ({ frontier with filesQueued := frontier.filesQueued + 1 },
          source.targets.map fun t => ⟨path, t, m.ino⟩)
      else (frontier, [])
    | _, _ => (frontier, [])
  else (frontier, [])

def popDir (s : State τ) (frontier : HydrationFrontier) (shutdown : Bool)
    (listing : Option (List DirEntry)) (write : Write) : State τ :=
  match frontier.pendingDirs with
  | [] => s
  | dir :: dirs =>
    let frontier := { frontier with pendingDirs := dirs }
    if shutdown then
      { s with checkpoint := save serde frontier write s.checkpoint, scan := none }
    else { s with scan := some ⟨frontier, listing.map fun es => (dir, es)⟩ }

def finishDir (s : State τ) (frontier : HydrationFrontier) (write : Write) : State τ :=
  let frontier := { frontier with completedDirs := frontier.completedDirs + 1 }
  { s with
    checkpoint :=
      if frontier.completedDirs % 1000 = 0 then save serde frontier write s.checkpoint
      else s.checkpoint
    scan := some ⟨frontier, none⟩ }

/-- A step of a scan; what is not possible changes nothing. -/
def step (s : State τ) : Action → State τ
  | .start =>
    match s.scan with
    | none => { s with scan := some ⟨(load serde s.checkpoint).getD .new, none⟩ }
    | some _ => s
  | .pop shutdown listing write =>
    match s.scan with
    | some ⟨frontier, none⟩ => popDir serde s frontier shutdown listing write
    | _ => s
  | .entry queue =>
    match s.scan with
    | some ⟨frontier, some (dir, e :: es)⟩ =>
      let read := readEntry source dir e queue frontier
      { s with scan := some ⟨read.1, some (dir, es)⟩, offered := s.offered ++ read.2 }
    | _ => s
  | .dirDone write =>
    match s.scan with
    | some ⟨frontier, some (_, [])⟩ => finishDir serde s frontier write
    | _ => s
  | .finish removed =>
    match s.scan with
    | some ⟨frontier, none⟩ =>
      if frontier.pendingDirs = [] then
        { s with
          checkpoint := if removed then none else s.checkpoint
          scan := none
          completed := true }
      else s
    | _ => s
  | .crash => { s with scan := none }

end Step

def State.init {τ : Type*} : State τ := ⟨none, none, [], false⟩

/-! ## What is left to do for a file -/

section Covered
variable {τ : Type*} (serde : Serde HydrationFrontier) (source : Source τ) (dir : RelPath)
  (name : Bytes)

/-- The file has been offered for all targets. -/
def Offered (s : State τ) : Prop :=
  ∀ t ∈ source.targets, ∃ o ∈ s.offered, o.relPath = dir ++ [name] ∧ o.target = t

/-- One of the directories is that of the file or above it. -/
def Leads (frontier : HydrationFrontier) : Prop := ∃ d ∈ frontier.pendingDirs, d <+: dir

/-- The entry of a directory on the way to the file. -/
def IsStep (d : RelPath) (e : DirEntry) : Prop :=
  source.admits e = true ∧
    ((d = dir ∧ e.name = name ∧ e.fileType = .file ∧ e.metadata.isSome = true) ∨
      (d ++ [e.name] <+: dir ∧ e.fileType = .dir))

/-- The file and the directories above it are there, on the device, and can be read whenever a
directory is read. -/
def Lasting (s : State τ) : Action → Prop
  | .pop false listing _ =>
    ∀ frontier d ds, s.scan = some ⟨frontier, none⟩ → frontier.pendingDirs = d :: ds → d <+: dir →
      ∃ es, listing = some es ∧ ∃ e ∈ es, IsStep source dir name d e
  | _ => True

/-- There is a queue, and a checkpoint that is written completely at a shutdown does not leave
out a directory above the file. -/
def Kept (s : State τ) : Action → Prop
  | .pop true _ write =>
    ∀ frontier d ds, s.scan = some ⟨frontier, none⟩ → frontier.pendingDirs = d :: ds → d <+: dir →
      ∀ data n, serde.toString { frontier with pendingDirs := ds } = some data → write = some n →
        n < data.bytes.length
  | .entry queue => queue = true
  | _ => True

/-- The file has been offered or is still to be reached, by the scan that is running and by one
that goes on from the checkpoint. -/
structure Covered (s : State τ) : Prop where
  checkpoint : ∀ frontier, load serde s.checkpoint = some frontier →
    Offered source dir name s ∨ Leads dir frontier
  pending : ∀ frontier, s.scan = some ⟨frontier, none⟩ →
    Offered source dir name s ∨ Leads dir frontier
  reading : ∀ frontier d es, s.scan = some ⟨frontier, some (d, es)⟩ →
    Offered source dir name s ∨ Leads dir frontier ∨ ∃ e ∈ es, IsStep source dir name d e
  completed : s.completed = true → Offered source dir name s

end Covered

section Lemmas
variable {τ : Type*} {serde : Serde HydrationFrontier} {source : Source τ} {dir : RelPath}
  {name : Bytes} {s : State τ}

theorem Offered.mono {s' : State τ} (h : Offered source dir name s)
    (hmono : ∀ o ∈ s.offered, o ∈ s'.offered) : Offered source dir name s' := by
  intro t ht
  obtain ⟨o, ho, hpath, htarget⟩ := h t ht
  exact ⟨o, hmono o ho, hpath, htarget⟩

/-- What is loaded after a save is what was saved or what was there before. -/
theorem load_save (hserde : serde.Lawful) {frontier f : HydrationFrontier} {write : Write}
    {checkpoint : Option Bytes} (h : load serde (save serde frontier write checkpoint) = some f) :
    load serde checkpoint = some f ∨
      (f = frontier ∧ ∃ data n, serde.toString frontier = some data ∧ write = some n ∧
        data.bytes.length ≤ n) := by
  unfold save at h
  cases hdata : serde.toString frontier with
  | none =>
    rw [hdata] at h
    exact .inl h
  | some data =>
    cases write with
    | none =>
      rw [hdata] at h
      exact .inl h
    | some n =>
      rw [hdata] at h
      right
      dsimp only at h
      rw [load, Option.bind_some] at h
      obtain ⟨text, htext, hfrom⟩ := Option.bind_eq_some_iff.mp h
      have hbytes := Text.bytes_of_fromUtf8 htext
      by_cases hall : text = data
      · rw [hall, hserde.fromStr_toString frontier data hdata] at hfrom
        refine ⟨(Option.some.inj hfrom).symm, data, n, rfl, rfl, ?_⟩
        have hlen := congrArg List.length hbytes
        rw [hall, List.length_take] at hlen
        omega
      · rw [hserde.unfinished frontier data text hdata (hbytes ▸ List.take_prefix n _) hall] at hfrom
        cases hfrom

theorem leads_new : Leads dir .new := ⟨[], List.mem_singleton_self _, List.nil_prefix⟩

/-- Reading an entry on the way to the file offers the file or pushes the directory. -/
theorem readEntry_isStep {d : RelPath} {e : DirEntry} (he : IsStep source dir name d e)
    (frontier : HydrationFrontier) :
    (∀ t ∈ source.targets, ∃ o ∈ (readEntry source d e true frontier).2,
        o.relPath = dir ++ [name] ∧ o.target = t) ∨
      Leads dir (readEntry source d e true frontier).1 := by
  obtain ⟨hadmits, ⟨rfl, rfl, hfile, hmeta⟩ | ⟨hpre, hdir⟩⟩ := he
  · obtain ⟨m, hm⟩ := Option.isSome_iff_exists.mp hmeta
    left
    intro t ht
    rw [readEntry, if_pos hadmits, hfile, hm]
    exact ⟨_, List.mem_map_of_mem ht, rfl, rfl⟩
  · right
    rw [readEntry, if_pos hadmits, hdir]
    exact ⟨_, List.mem_cons_self .., hpre⟩

/-- Reading an entry takes no directory away. -/
theorem leads_readEntry {frontier : HydrationFrontier} (h : Leads dir frontier) (d : RelPath)
    (e : DirEntry) (queue : Bool) : Leads dir (readEntry source d e queue frontier).1 := by
  obtain ⟨d', hd', hpre⟩ := h
  refine ⟨d', ?_, hpre⟩
  unfold readEntry
  by_cases hadmits : source.admits e = true
  · rw [if_pos hadmits]
    cases e.fileType with
    | dir => exact List.mem_cons_of_mem _ hd'
    | file =>
      cases e.metadata with
      | none => exact hd'
      | some m => cases queue <;> exact hd'
    | other => exact hd'
  · rw [if_neg hadmits]
    exact hd'

/-! ## Steps -/

/-- After a save the file is still to be reached from the checkpoint, if that is so for what has
been saved or if not all of it gets into the file. -/
theorem covered_save (hserde : serde.Lawful) (h : Covered serde source dir name s)
    {frontier : HydrationFrontier} {write : Write}
    (hsaved : Offered source dir name s ∨ Leads dir frontier ∨
      ∀ data n, serde.toString frontier = some data → write = some n → n < data.bytes.length)
    {f : HydrationFrontier} (hf : load serde (save serde frontier write s.checkpoint) = some f) :
    Offered source dir name s ∨ Leads dir f := by
  rcases load_save hserde hf with hf | ⟨rfl, data, n, hdata, hwrite, hlen⟩
  · exact h.checkpoint f hf
  · rcases hsaved with hoffered | hleads | hcut
    · exact .inl hoffered
    · exact .inr hleads
    · have := hcut data n hdata hwrite
      omega

theorem covered_start (h : Covered serde source dir name s) :
    Covered serde source dir name (step serde source s .start) := by
  cases hscan : s.scan with
  | some scan =>
    simp only [step, hscan]
    exact h
  | none =>
    simp only [step, hscan]
    refine ⟨h.checkpoint, fun frontier hf => ?_, fun frontier d es hf => ?_, h.completed⟩
    · cases hf
      cases hload : load serde s.checkpoint with
      | none => exact .inr leads_new
      | some f => exact h.checkpoint f hload
    · cases hf

theorem covered_pop (hserde : serde.Lawful) (h : Covered serde source dir name s)
    {frontier : HydrationFrontier} (hscan : s.scan = some ⟨frontier, none⟩) {shutdown : Bool}
    {listing : Option (List DirEntry)} {write : Write}
    (hlasting : Lasting source dir name s (.pop shutdown listing write))
    (hkept : Kept serde dir s (.pop shutdown listing write)) :
    Covered serde source dir name (popDir serde s frontier shutdown listing write) := by
  have hpending := h.pending frontier hscan
  unfold popDir
  cases hdirs : frontier.pendingDirs with
  | nil => exact h
  | cons d ds =>
    -- The file is reached through the directory that is taken or through another one.
    have hsplit : Offered source dir name s ∨ d <+: dir ∨
        Leads dir { frontier with pendingDirs := ds } := by
      rcases hpending with hoffered | ⟨d', hd', hpre⟩
      · exact .inl hoffered
      · rw [hdirs] at hd'
        rcases List.mem_cons.mp hd' with rfl | hd'
        · exact .inr (.inl hpre)
        · exact .inr (.inr ⟨d', hd', hpre⟩)
    cases shutdown with
    | true =>
      refine ⟨fun f hf => covered_save hserde h ?_ hf, fun f hf => ?_, fun f d es hf => ?_,
        h.completed⟩
      · rcases hsplit with hoffered | hpre | hleads
        · exact .inl hoffered
        · exact .inr (.inr (hkept frontier d ds hscan hdirs hpre))
        · exact .inr (.inl hleads)
      · cases hf
      · cases hf
    | false =>
      cases listing with
      | none =>
        refine ⟨h.checkpoint, fun f hf => ?_, fun f d es hf => ?_, h.completed⟩
        · cases hf
          rcases hsplit with hoffered | hpre | hleads
          · exact .inl hoffered
          · obtain ⟨es, hes, -⟩ := hlasting frontier d ds hscan hdirs hpre
            cases hes
          · exact .inr hleads
        · cases hf
      | some listing =>
        refine ⟨h.checkpoint, fun f hf => ?_, fun f d' es hf => ?_, h.completed⟩
        · cases hf
        · cases hf
          rcases hsplit with hoffered | hpre | hleads
          · exact .inl hoffered
          · obtain ⟨es, hes, he⟩ := hlasting frontier _ ds hscan hdirs hpre
            cases hes
            exact .inr (.inr he)
          · exact .inr (.inl hleads)

theorem covered_entry (h : Covered serde source dir name s) {frontier : HydrationFrontier}
    {d : RelPath} {e : DirEntry} {es : List DirEntry}
    (hscan : s.scan = some ⟨frontier, some (d, e :: es)⟩) :
    Covered serde source dir name (step serde source s (.entry true)) := by
  have hmono : Offered source dir name s →
      Offered source dir name (step serde source s (.entry true)) := by
    intro hoffered
    refine hoffered.mono fun o ho => ?_
    simp only [step, hscan]
    exact List.mem_append_left _ ho
  simp only [step, hscan] at hmono ⊢
  refine ⟨fun f hf => (h.checkpoint f hf).imp_left hmono, fun f hf => ?_, fun f d' es' hf => ?_,
    fun hcompleted => hmono (h.completed hcompleted)⟩
  · cases hf
  · cases hf
    rcases h.reading frontier d (e :: es) hscan with hoffered | hleads | ⟨e', he', hstep⟩
    · exact .inl (hmono hoffered)
    · exact .inr (.inl (leads_readEntry hleads d e true))
    · rcases List.mem_cons.mp he' with rfl | he'
      · rcases readEntry_isStep hstep frontier with hread | hleads
        · left
          intro t ht
          obtain ⟨o, ho, ho'⟩ := hread t ht
          exact ⟨o, List.mem_append_right _ ho, ho'⟩
        · exact .inr (.inl hleads)
      · exact .inr (.inr ⟨e', he', hstep⟩)

theorem covered_dirDone (hserde : serde.Lawful) (h : Covered serde source dir name s)
    {frontier : HydrationFrontier} {d : RelPath}
    (hscan : s.scan = some ⟨frontier, some (d, [])⟩) (write : Write) :
    Covered serde source dir name (finishDir serde s frontier write) := by
  have hleads : Offered source dir name s ∨
      Leads dir { frontier with completedDirs := frontier.completedDirs + 1 } := by
    rcases h.reading frontier d [] hscan with hoffered | hleads | ⟨e, he, -⟩
    · exact .inl hoffered
    · exact .inr hleads
    · cases he
  refine ⟨fun f hf => ?_, fun f hf => ?_, fun f d es hf => ?_, h.completed⟩
  · unfold finishDir at hf
    dsimp only at hf
    split_ifs at hf
    · exact covered_save hserde h (hleads.imp_right .inl) hf
    · exact h.checkpoint f hf
  · cases hf
    exact hleads
  · cases hf

theorem covered_finish (h : Covered serde source dir name s) (removed : Bool) :
    Covered serde source dir name (step serde source s (.finish removed)) := by
  cases hscan : s.scan with
  | none =>
    simp only [step, hscan]
    exact h
  | some scan =>
    obtain ⟨frontier, reading⟩ := scan
    cases reading with
    | some r =>
      simp only [step, hscan]
      exact h
    | none =>
      simp only [step, hscan]
      by_cases hdone : frontier.pendingDirs = []
      · rw [if_pos hdone]
        refine ⟨fun f hf => ?_, fun f hf => ?_, fun f d es hf => ?_, fun _ => ?_⟩
        · cases removed with
          | true => cases hf
          | false => exact h.checkpoint f hf
        · cases hf
        · cases hf
        · rcases h.pending frontier hscan with hoffered | ⟨d, hd, -⟩
          · exact hoffered
          · rw [hdone] at hd
            cases hd
      · rw [if_neg hdone]
        exact h

theorem covered_step (hserde : serde.Lawful) (h : Covered serde source dir name s) {a : Action}
    (hlasting : Lasting source dir name s a) (hkept : Kept serde dir s a) :
    Covered serde source dir name (step serde source s a) := by
  cases a with
  | start => exact covered_start h
  | pop shutdown listing write =>
    simp only [step]
    split
    case h_1 frontier hscan => exact covered_pop hserde h hscan hlasting hkept
    case h_2 => exact h
  | entry queue =>
    have hqueue : queue = true := hkept
    subst hqueue
    by_cases hread : ∃ frontier d e es, s.scan = some ⟨frontier, some (d, e :: es)⟩
    · obtain ⟨frontier, d, e, es, hscan⟩ := hread
      exact covered_entry h hscan
    · simp only [step]
      split
      case h_1 frontier d e es hscan => exact absurd ⟨frontier, d, e, es, hscan⟩ hread
      case h_2 => exact h
  | dirDone write =>
    simp only [step]
    split
    case h_1 frontier d hscan => exact covered_dirDone hserde h hscan write
    case h_2 => exact h
  | finish removed => exact covered_finish h removed
  | crash =>
    refine ⟨h.checkpoint, fun f hf => ?_, fun f d es hf => ?_, h.completed⟩
    · cases hf
    · cases hf

theorem covered_init : Covered serde source dir name .init := by
  refine ⟨fun f hf => ?_, fun f hf => ?_, fun f d es hf => ?_, fun hf => ?_⟩
  all_goals cases hf

/-- When a scan has come to its end, a file that has been there all the time has been offered,
unless a shutdown has left out a directory above it. -/
theorem offered_of_completed (hserde : serde.Lawful) (as : List Action)
    (hlasting : Run.Along (step serde source) (Lasting source dir name) .init as)
    (hkept : Run.Along (step serde source) (Kept serde dir) .init as) :
    ∀ p, p <+: as → (Run.exec (step serde source) .init p).completed = true →
      Offered source dir name (Run.exec (step serde source) .init p) := by
  intro p hp
  refine (Run.invariant_prefix (step serde source) (fun s a ha hs => ?_)
    (Run.along_and _ hlasting hkept) (covered_init : Covered serde source dir name .init) p
    hp).completed
  exact covered_step hserde hs ha.1 ha.2

end Lemmas

/-! ## A shutdown before the first directory -/

def emptyFrontier : HydrationFrontier := ⟨[], 0, 0⟩

def emptyText : Text :=
  ⟨asciiBytes "\x7b\"pending_dirs\":[],\"completed_dirs\":0,\"files_queued\":0\x7d", by decide +kernel⟩

/-- The conversion of the frontier without directories. -/
def sampleSerde : Serde HydrationFrontier where
  toString f := if f = emptyFrontier then some emptyText else none
  fromStr t := if t = emptyText then some emptyFrontier else none

theorem eq_of_toString {f : HydrationFrontier} {t : Text} (ht : sampleSerde.toString f = some t) :
    f = emptyFrontier ∧ t = emptyText := by
  simp only [sampleSerde, Option.ite_none_right_eq_some, Option.some.injEq] at ht
  exact ⟨ht.1, ht.2.symm⟩

theorem sampleSerde_lawful : sampleSerde.Lawful := by
  refine ⟨fun f t ht => ?_, fun f t ht => ?_, fun f t ht => ?_, fun f t u ht hu hne => ?_⟩
  · obtain ⟨rfl, rfl⟩ := eq_of_toString ht
    decide +kernel
  · obtain ⟨rfl, rfl⟩ := eq_of_toString ht
    decide +kernel
  · obtain ⟨rfl, rfl⟩ := eq_of_toString ht
    decide +kernel
  · obtain ⟨rfl, rfl⟩ := eq_of_toString ht
    exact if_neg hne

def sampleSource : Source ℕ := ⟨normalizeDev 2049, false, [7]⟩

def fileEntry : DirEntry := ⟨asciiBytes "a", .file, some ⟨2049, 12⟩⟩

/-- A shutdown before the root has been read, and a scan that goes on and reads it. -/
def readAgain : List Action :=
  [.start, .pop true none (some 10), .start, .pop false (some [fileEntry]) none, .entry true,
    .dirDone none, .finish true]

theorem lasting_fileEntry {s : State ℕ} {write : Write} :
    Lasting sampleSource [] (asciiBytes "a") s (.pop false (some [fileEntry]) write) := by
  intro frontier d ds _ _ hpre
  have hstep : IsStep sampleSource [] (asciiBytes "a") [] fileEntry :=
    ⟨by decide +kernel, .inl ⟨rfl, rfl, rfl, rfl⟩⟩
  rw [List.prefix_nil.mp hpre]
  exact ⟨_, rfl, fileEntry, List.mem_singleton_self _, hstep⟩

theorem tornCheckpoint_offered :
    (Run.exec (step sampleSerde sampleSource) .init readAgain).completed = true ∧
      Offered sampleSource [] (asciiBytes "a")
        (Run.exec (step sampleSerde sampleSource) .init readAgain) := by
  have hcompleted : (Run.exec (step sampleSerde sampleSource) .init readAgain).completed = true := by
    decide +kernel
  refine ⟨hcompleted, offered_of_completed sampleSerde_lawful readAgain ?_ ?_ _
    List.prefix_rfl hcompleted⟩
  · exact ⟨trivial, trivial, trivial, lasting_fileEntry, trivial, trivial, trivial, trivial⟩
  · refine ⟨trivial, ?_, trivial, trivial, rfl, trivial, trivial, trivial⟩
    intro frontier d ds _ _ _ data n hdata hwrite
    obtain ⟨-, rfl⟩ := eq_of_toString hdata
    cases hwrite
    decide +kernel

/-- The root is missing from the checkpoint that is written completely: the next scan ends at
once, and no file has ever been offered. -/
theorem shutdown_loses_root :
    ¬ ∀ (serde : Serde HydrationFrontier), serde.Lawful → ∀ (source : Source ℕ) (dir : RelPath)
      (name : Bytes) (as : List Action),
      Run.Along (step serde source) (Lasting source dir name) .init as →
      (Run.exec (step serde source) .init as).completed = true →
      Offered source dir name (Run.exec (step serde source) .init as) := by
  intro h
  have hoffered := h sampleSerde sampleSerde_lawful sampleSource [] (asciiBytes "a")
    [.start, .pop true none (some 100), .start, .finish true]
    ⟨trivial, trivial, trivial, trivial, trivial⟩ (by decide +kernel) 7 (List.mem_singleton_self _)
  obtain ⟨o, ho, -⟩ := hoffered
  revert ho
  have hnone : (Run.exec (step sampleSerde sampleSource) .init
      [.start, .pop true none (some 100), .start, .finish true]).offered = [] := by decide +kernel
  rw [hnone]
  exact List.not_mem_nil

end Foxing.FrontierScan
