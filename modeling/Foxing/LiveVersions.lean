import Foxing.FileSystem
import Foxing.FxarFormat
import Foxing.Lib.Run
import Foxing.Lib.Volume

/-!
# Versions of live files

Before a file is overwritten a copy of it is put into a directory at the root of its target,
under a name made of the number of its inode, the number of the event and the time. Later the
versions of a file are listed, copied elsewhere or put back, and old ones are deleted. Each of
these looks for the directory on its own.

Hashes of the contents are left out, and so are timestamps of files other than the
modification time.
-/
namespace Foxing

structure InodeRecord where
  ino : U64
  bytes : Bytes
  mtime : ℤ
  deriving DecidableEq

abbrev TargetVolume := Volume String InodeRecord

structure FileVersion where
  inode : U64
  epochSeq : U64
  timestamp : ℤ
  path : Path
  size : ℕ
  mtime : ℤ
  deriving DecidableEq

namespace LiveVersions

def contentAt (fs : TargetVolume) (p : Path) : Option Bytes :=
  (fs.find p).bind fun i => if fs.isDir i then none else some (fs.record i).bytes

def pathExists (fs : TargetVolume) (p : Path) : Bool := (fs.find p).isSome

def liveDir (root : Path) : Path := root ++ [".foxing_versions", "live"]

def legacyDir (root : Path) : Path := root ++ [".mirror", ".versions"]

/-! ## Names -/

def digits (n : ℕ) : List Char := Nat.toDigits 10 n

def signedDigits (t : ℤ) : List Char := if t < 0 then '-' :: digits t.natAbs else digits t.natAbs

def snapshotName (inode epochSeq : U64) (timestamp : ℤ) : String :=
  String.ofList (['_'].intercalate [digits inode.val, digits epochSeq.val, signedDigits timestamp])

def parseU64 (cs : List Char) : Option U64 :=
  (parseDigits (match cs with | '+' :: ds => ds | ds => ds)).bind fun n =>
    if h : n < 2 ^ 64 then some ⟨n, h⟩ else none

def parseI64 (cs : List Char) : Option ℤ :=
  match cs with
  | '-' :: ds => (parseDigits ds).bind fun n => if n ≤ 2 ^ 63 then some (-(n : ℤ)) else none
  | '+' :: ds => (parseDigits ds).bind fun n => if n < 2 ^ 63 then some n else none
  | ds => (parseDigits ds).bind fun n => if n < 2 ^ 63 then some n else none

/-- What comes after the third part of a name is ignored. -/
def parseName (name : String) : Option (U64 × U64 × ℤ) :=
  match name.toList.splitOn '_' with
  | inode :: epochSeq :: timestamp :: _ => do
    let inode ← parseU64 inode
    let epochSeq ← parseU64 epochSeq
    let timestamp ← parseI64 timestamp
    return (inode, epochSeq, timestamp)
  | _ => none

/-- Seconds, as they are stored. -/
def asI64 (secs : U64) : ℤ := if secs.val < 2 ^ 63 then secs.val else secs.val - 2 ^ 64

/-! ## Taking a version -/

/-- What becomes of the clone: one of the two files cannot be opened, the new file stays empty,
or it has the contents of the old one. -/
inductive Clone
  | unopened | empty | done
  deriving DecidableEq

/-- The arguments of a call, and what the system brings in. -/
structure Call where
  path : Path
  epochSeq : U64
  rootPath : Path
  inode : U64
  now : U64
  clone : Clone
  freshDir : ℕ → InodeRecord
  freshIno : U64
  freshMtime : ℤ

def createVersionSnapshot (c : Call) (fs : TargetVolume) : Option FileVersion × TargetVolume :=
  match fs.createDirAll c.freshDir (liveDir c.rootPath) with
  | none => (none, fs)
  | some fs =>
    match fs.find c.path with
    | none => (none, fs)
    | some i =>
      let metadata := fs.record i
      let timestamp := asI64 c.now
      let snapshotPath := liveDir c.rootPath ++ [snapshotName metadata.ino c.epochSeq timestamp]
      if fs.isDir i then (none, fs)
      else if c.inode ≠ 0 ∧ metadata.ino ≠ c.inode then (none, fs)
      else if pathExists fs snapshotPath then (none, fs)
      else
        match c.clone, fs.create snapshotPath ⟨c.freshIno, [], c.freshMtime⟩ id with
        | .done, some (j, fs) =>
          (some ⟨metadata.ino, c.epochSeq, timestamp, snapshotPath, metadata.bytes.length,
              metadata.mtime⟩,
            fs.setRecord j { fs.record j with bytes := metadata.bytes })
        | .empty, some (_, fs) => (none, fs)
        | _, _ => (none, fs)

/-! ## Finding the versions again -/

/-- The directory that is indexed. The legacy one is for targets without the other. -/
def versionsDir (fs : TargetVolume) (root : Path) : Option Path :=
  if pathExists fs (liveDir root) then some (liveDir root)
  else if pathExists fs (legacyDir root) then some (legacyDir root)
  else none

def versionOf (fs : TargetVolume) (dir : Path) (x : String × ℕ) : Option FileVersion :=
  (parseName x.1).map fun n =>
    ⟨n.1, n.2.1, n.2.2, dir ++ [x.1], (fs.record x.2).bytes.length, (fs.record x.2).mtime⟩

/-- The versions in the directory. Different entries have different paths. -/
def indexDirectory (fs : TargetVolume) (root : Path) : List FileVersion :=
  match versionsDir fs root with
  | none => []
  | some dir => ((fs.find dir).elim [] fs.files).filterMap (versionOf fs dir)

def earlier (a b : FileVersion) : Bool :=
  a.epochSeq < b.epochSeq || (a.epochSeq = b.epochSeq && a.timestamp ≤ b.timestamp)

/-- The versions of an inode, in order of their epochs and times. -/
def indexed (fs : TargetVolume) (root : Path) (inode : U64) : List FileVersion :=
  ((indexDirectory fs root).filter (·.inode = inode)).mergeSort earlier

def ancestors (p : Path) : List Path := p.inits.reverse

/-- Only the legacy directory marks a target. -/
def findTargetRoot (fs : TargetVolume) (liveFile : Path) : Option Path :=
  (ancestors liveFile).find? fun p => pathExists fs (legacyDir p)

def listVersions (fs : TargetVolume) (liveFile : Path) : Option (List FileVersion) :=
  (findTargetRoot fs liveFile).map fun root =>
    (fs.find liveFile).elim [] fun i => indexed fs root (fs.record i).ino

def findVersionPath (versions : List FileVersion) (epoch : U64) : Option Path :=
  (versions.find? (·.epochSeq = epoch)).map FileVersion.path

/-! ## Using a version -/

/-- The destination is opened when the version has been, and takes what is read then. -/
def copyVersionToPath (fs : TargetVolume) (liveFile : Path) (epoch : U64) (destination : Path)
    (fresh : InodeRecord) : Option TargetVolume := do
  let versions ← listVersions fs liveFile
  let versionPath ← findVersionPath versions epoch
  let src ← fs.find versionPath
  let (dst, fs) ← fs.create destination { fresh with bytes := [] } ({ · with bytes := [] })
  return fs.setRecord dst { fs.record dst with bytes := (fs.record src).bytes }

/-- Nothing is reverted. -/
def revertSnapshot (_versionPath _livePath : Path) (fs : TargetVolume) : Option TargetVolume :=
  some fs

def revertFile (fs : TargetVolume) (liveFile : Path) (epoch : U64) : Option TargetVolume := do
  let targetRoot ← findTargetRoot fs liveFile
  let i ← fs.find liveFile
  let versionPath ← findVersionPath (indexed fs targetRoot (fs.record i).ino) epoch
  revertSnapshot versionPath liveFile fs

/-- Files are deleted until enough has been freed. -/
def prune (bytesToFree : ℕ) : List (Path × ℕ) → ℕ → TargetVolume → ℕ × TargetVolume
  | [], freed, fs => (freed, fs)
  | (p, size) :: rest, freed, fs =>
    if freed ≥ bytesToFree then (freed, fs)
    else
      match fs.removeFile p with
      | some fs => prune bytesToFree rest (freed + size) fs
      | none => prune bytesToFree rest freed fs

/-- The oldest files of the legacy directory are deleted. -/
def pruneGlobalHistory (fs : TargetVolume) (targetRoot : Path) (bytesToFree : ℕ) :
    Option (ℕ × TargetVolume) :=
  match fs.find (legacyDir targetRoot) with
  | none => some (0, fs)
  | some d =>
    if fs.isDir d then
      let all := (fs.files d).mergeSort fun x y => (fs.record x.2).mtime ≤ (fs.record y.2).mtime
      some (prune bytesToFree
        (all.map fun x => (legacyDir targetRoot ++ [x.1], (fs.record x.2).bytes.length)) 0 fs)
    else none

/-! ## Runs -/

/-- A version that has been returned, with the file that it is of and what that file held. -/
structure Taken where
  live : Path
  root : Path
  version : FileVersion
  bytes : Bytes
  deriving DecidableEq

structure State where
  fs : TargetVolume
  taken : List Taken

/-- A call, or any change that leaves the versions alone. -/
inductive Action
  | snapshot (c : Call)
  | outside (fs : TargetVolume)

def step (s : State) : Action → State
  | .snapshot c =>
    let (version, fs) := createVersionSnapshot c s.fs
    ⟨fs, s.taken ++ (version.map fun version =>
      ⟨c.path, c.rootPath, version, (contentAt s.fs c.path).getD []⟩).toList⟩
  | .outside fs =>
    if ∀ r ∈ s.taken, contentAt fs r.version.path = some r.bytes then { s with fs := fs } else s

/-- The state after some calls and changes, from any volume. -/
def after (fs : TargetVolume) (acts : List Action) : State := Run.exec step ⟨fs, []⟩ acts

/-! ## What a version is good for -/

section Uses
variable (fs : TargetVolume) (r : Taken)

/-- The version is listed for the live file, with its inode, its epoch and its time. -/
def Listed : Prop :=
  ∃ versions, listVersions fs r.live = some versions ∧
    ∃ v ∈ versions, v.path = r.version.path ∧ v.inode = r.version.inode ∧
      v.epochSeq = r.version.epochSeq ∧ v.timestamp = r.version.timestamp

/-- Copied to a place where a file can be written, the version is what the file was. -/
def Copied (destination : Path) : Prop :=
  fs.writable destination = true → ∀ fresh, ∃ fs',
    copyVersionToPath fs r.live r.version.epochSeq destination fresh = some fs' ∧
      contentAt fs' destination = some r.bytes

/-- Where the live file is said to be reverted, it is what it was. -/
def Reverted : Prop :=
  ∀ fs', revertFile fs r.live r.version.epochSeq = some fs' → contentAt fs' r.live = some r.bytes

/-- Some request to free space deletes the version. -/
def Prunable : Prop :=
  ∃ bytesToFree freed fs', pruneGlobalHistory fs r.root bytesToFree = some (freed, fs') ∧
    fs'.find r.version.path = none

def Usable (destination : Path) : Prop :=
  Listed fs r ∧ Copied fs r destination ∧ Reverted fs r ∧ Prunable fs r

/-- The root is the nearest directory at or above the live file with a legacy directory. -/
def Nearest (liveFile root : Path) : Prop :=
  root <+: liveFile ∧ pathExists fs (legacyDir root) = true ∧
    ∀ p, p <+: liveFile → pathExists fs (legacyDir p) = true → p <+: root

/-- The live file has the inode of the version. -/
def SameInode : Prop := (fs.find r.live).map (fun i => (fs.record i).ino) = some r.version.inode

/-- The first version with the epoch has the same contents; a version that is copied to itself
is emptied. -/
def FirstHolds (destination : Path) : Prop :=
  ∃ p, findVersionPath (indexed fs r.root r.version.inode) r.version.epochSeq = some p ∧
    if fs.find destination = fs.find p then r.bytes = [] else contentAt fs p = some r.bytes

/-- The target has a legacy directory that is the directory of its versions, the live file has
kept its inode and its contents, and no other version of the epoch comes first. -/
structure UsableWhen (destination : Path) : Prop where
  nearest : Nearest fs r.live r.root
  inode : SameInode fs r
  first : fs.writable destination = true → FirstHolds fs r destination
  unchanged : contentAt fs r.live = some r.bytes
  sameDir : fs.find (legacyDir r.root) = fs.find (liveDir r.root)

end Uses

/-! ## Names can be read again -/

theorem parseDigits_digits (n : ℕ) : parseDigits (digits n) = some n := by
  have hdigit : (digits n).all Char.isDigit = true := by
    rw [List.all_eq_true]
    intro c hc
    exact Nat.isDigit_of_mem_toDigits (by omega) (by omega) hc
  rw [parseDigits, if_pos ⟨Nat.toDigits_ne_nil, hdigit⟩]
  exact congrArg some Nat.ofDigitChars_ten_toDigits

/-- A number does not begin with a sign. -/
theorem digits_cons (n : ℕ) : ∃ c cs, digits n = c :: cs ∧ c ≠ '+' ∧ c ≠ '-' := by
  cases hn : digits n with
  | nil => exact absurd hn Nat.toDigits_ne_nil
  | cons c cs =>
    have hc : c.isDigit = true :=
      Nat.isDigit_of_mem_toDigits (b := 10) (n := n) (by omega) (by omega)
        (by rw [show Nat.toDigits 10 n = c :: cs from hn]; exact List.mem_cons_self ..)
    refine ⟨c, cs, rfl, ?_, ?_⟩ <;> rintro rfl <;> simp at hc

theorem parseU64_digits (n : U64) : parseU64 (digits n.val) = some n := by
  obtain ⟨c, cs, hn, hplus, -⟩ := digits_cons n.val
  have hparse := parseDigits_digits n.val
  rw [hn] at hparse ⊢
  unfold parseU64
  split
  · rename_i heq
    cases heq
    exact absurd rfl hplus
  · rw [hparse, Option.bind_some, dif_pos n.isLt]

theorem parseI64_signedDigits {t : ℤ} (hlow : -2 ^ 63 ≤ t) (hhigh : t < 2 ^ 63) :
    parseI64 (signedDigits t) = some t := by
  have hparse := parseDigits_digits t.natAbs
  unfold signedDigits
  split_ifs with hneg
  · rw [parseI64, hparse, Option.bind_some, if_pos (by omega)]
    exact congrArg some (by omega)
  · obtain ⟨c, cs, hn, hplus, hminus⟩ := digits_cons t.natAbs
    rw [hn] at hparse ⊢
    unfold parseI64
    split
    · rename_i heq
      cases heq
      exact absurd rfl hminus
    · rename_i heq
      cases heq
      exact absurd rfl hplus
    · rw [hparse, Option.bind_some, if_pos (by omega)]
      exact congrArg some (by omega)

theorem asI64_bounds (secs : U64) : -2 ^ 63 ≤ asI64 secs ∧ asI64 secs < 2 ^ 63 := by
  have hlt := secs.isLt
  unfold asI64
  split_ifs <;> omega

theorem underscore_signedDigits (t : ℤ) : '_' ∉ signedDigits t := by
  unfold signedDigits digits
  split_ifs
  · simp [Nat.underscore_not_in_toDigits]
  · exact Nat.underscore_not_in_toDigits

theorem parseName_snapshotName (inode epochSeq : U64) {t : ℤ} (hlow : -2 ^ 63 ≤ t)
    (hhigh : t < 2 ^ 63) :
    parseName (snapshotName inode epochSeq t) = some (inode, epochSeq, t) := by
  have hparts : ∀ part ∈ [digits inode.val, digits epochSeq.val, signedDigits t],
      '_' ∉ part := by
    simp [digits, Nat.underscore_not_in_toDigits, underscore_signedDigits]
  unfold parseName snapshotName
  rw [String.toList_ofList, List.splitOn_intercalate '_' hparts (by simp)]
  simp [parseU64_digits, parseI64_signedDigits hlow hhigh]

/-! ## The root that is found -/

theorem ancestors_concat (p : Path) (x : String) :
    ancestors (p ++ [x]) = (p ++ [x]) :: ancestors p := by
  simp [ancestors, List.inits_append]

theorem nearest_concat {fs : TargetVolume} {p root : Path} {x : String} :
    Nearest fs (p ++ [x]) root ↔
      if pathExists fs (legacyDir (p ++ [x])) = true then root = p ++ [x]
      else Nearest fs p root := by
  unfold Nearest
  split_ifs with hhere
  · constructor
    · rintro ⟨hroot, -, hnearest⟩
      have hbelow := hnearest (p ++ [x]) List.prefix_rfl hhere
      exact hroot.eq_of_length (Nat.le_antisymm hroot.length_le hbelow.length_le)
    · rintro rfl
      exact ⟨List.prefix_rfl, hhere, fun q hq _ => hq⟩
  · constructor
    · rintro ⟨hroot, hmark, hnearest⟩
      rcases List.prefix_concat_iff.mp hroot with rfl | hroot
      · exact absurd hmark hhere
      · exact ⟨hroot, hmark, fun q hq => hnearest q (hq.trans (List.prefix_append ..))⟩
    · rintro ⟨hroot, hmark, hnearest⟩
      refine ⟨hroot.trans (List.prefix_append ..), hmark, fun q hq hmarked => ?_⟩
      rcases List.prefix_concat_iff.mp hq with rfl | hq
      · exact absurd hmarked hhere
      · exact hnearest q hq hmarked

theorem findTargetRoot_iff {fs : TargetVolume} {liveFile root : Path} :
    findTargetRoot fs liveFile = some root ↔ Nearest fs liveFile root := by
  unfold findTargetRoot
  induction liveFile using List.reverseRecOn with
  | nil =>
    have hnil : ancestors [] = [[]] := rfl
    rw [hnil, List.find?_singleton]
    unfold Nearest
    simp only [List.prefix_nil, forall_eq, List.nil_prefix, implies_true, and_true]
    split_ifs with hmark
    · constructor
      · rintro ⟨⟩
        exact ⟨rfl, hmark⟩
      · rintro ⟨rfl, -⟩
        rfl
    · refine iff_of_false (by simp) ?_
      rintro ⟨rfl, hroot⟩
      exact hmark hroot
  | append_singleton p x ih =>
    rw [ancestors_concat, List.find?_cons, nearest_concat]
    cases hmark : pathExists fs (legacyDir (p ++ [x])) with
    | true => simp [eq_comm]
    | false => simpa using ih

/-! ## What a call leaves behind -/

/-- The version is where it has been put, and holds what the file held. -/
structure Stored (fs : TargetVolume) (r : Taken) : Prop where
  path : r.version.path = liveDir r.root ++
    [snapshotName r.version.inode r.version.epochSeq r.version.timestamp]
  low : -2 ^ 63 ≤ r.version.timestamp
  high : r.version.timestamp < 2 ^ 63
  content : contentAt fs r.version.path = some r.bytes

theorem contentAt_some {fs : TargetVolume} {p : Path} {b : Bytes} :
    contentAt fs p = some b ↔
      ∃ i, fs.find p = some i ∧ fs.isDir i = false ∧ (fs.record i).bytes = b := by
  unfold contentAt
  cases fs.find p with
  | none => simp
  | some i => cases hdir : fs.isDir i <;> simp [hdir]

/-- A volume in which all is kept has the same contents. -/
theorem contentAt_keeps {fs fs' : TargetVolume} (h : fs.Keeps fs') {p : Path} {b : Bytes}
    (hp : contentAt fs p = some b) : contentAt fs' p = some b := by
  obtain ⟨i, hi, hfile, hb⟩ := contentAt_some.mp hp
  have hlt := Volume.lt_of_find hi
  exact contentAt_some.mpr ⟨i, h.find hi, by rw [h.isDir hlt, hfile], by rw [h.record hlt, hb]⟩

theorem keeps_setRecord {fs fs' : TargetVolume} (h : fs.Keeps fs') (x : InodeRecord) :
    fs.Keeps (fs'.setRecord fs.next x) where
  find hp := h.find hp
  isDir hi := h.isDir hi
  record := by
    intro i hi
    have hne : i ≠ fs.next := Nat.ne_of_lt hi
    simp [Volume.setRecord, hne, h.record hi]
  next := h.next

/-- A call changes nothing that is there, and the version that it returns is stored. -/
theorem createVersionSnapshot_spec (c : Call) (fs : TargetVolume) :
    fs.Keeps (createVersionSnapshot c fs).2 ∧
      ∀ version ∈ (createVersionSnapshot c fs).1,
        Stored (createVersionSnapshot c fs).2
          ⟨c.path, c.rootPath, version, (contentAt fs c.path).getD []⟩ := by
  unfold createVersionSnapshot
  cases hdirs : fs.createDirAll c.freshDir (liveDir c.rootPath) with
  | none => exact ⟨.refl, by simp⟩
  | some fs₁ =>
    have hmade := Volume.made_createDirAll hdirs
    obtain ⟨d, hd, hdir⟩ := hmade.find_path
    cases hlive : fs₁.find c.path with
    | none =>
      simp only [hlive]
      exact ⟨hmade.keeps, by simp⟩
    | some i =>
      simp only [hlive]
      split_ifs with hfile hinode hexists
      · exact ⟨hmade.keeps, by simp⟩
      · exact ⟨hmade.keeps, by simp⟩
      · exact ⟨hmade.keeps, by simp⟩
      have hfile : fs₁.isDir i = false := by simpa using hfile
      have hnone : fs₁.find (liveDir c.rootPath ++
          [snapshotName (fs₁.record i).ino c.epochSeq (asI64 c.now)]) = none := by
        simpa [pathExists] using hexists
      have hfree := Volume.free_of_find hd hdir hnone
      have hinsert := hfree.keeps_insert (r := ⟨c.freshIno, [], c.freshMtime⟩) false
      rw [Volume.create_new hd hdir hnone]
      cases c.clone with
      | unopened => exact ⟨hmade.keeps, by simp⟩
      | empty => exact ⟨hmade.keeps.trans hinsert, by simp⟩
      | done =>
        refine ⟨hmade.keeps.trans (keeps_setRecord hinsert _), ?_⟩
        rintro version ⟨⟩
        refine ⟨rfl, (asI64_bounds c.now).1, (asI64_bounds c.now).2, ?_⟩
        have hold : contentAt fs c.path = some (fs₁.record i).bytes := by
          have hi := hmade.file hlive hfile
          have hlt := Volume.lt_of_find hi
          refine contentAt_some.mpr ⟨i, hi, ?_, ?_⟩
          · rw [← hmade.keeps.isDir hlt, hfile]
          · rw [hmade.keeps.record hlt]
        rw [hold]
        refine contentAt_some.mpr ⟨fs₁.next, ?_, ?_, ?_⟩
        · rw [Volume.find_setRecord, Volume.find_concat_of_find (hinsert.find hd),
            hfree.insert_entry, if_pos ⟨rfl, rfl⟩]
        · exact (Volume.insert_isDir false fs₁.next).trans (if_pos rfl)
        · simp [Volume.setRecord]

/-- In every state of a run, all versions that have been returned are stored. -/
theorem stored_after (fs : TargetVolume) (acts : List Action) :
    ∀ r ∈ (after fs acts).taken, Stored (after fs acts).fs r := by
  refine Run.invariant_all step (I := fun s => ∀ r ∈ s.taken, Stored s.fs r) ?_ acts (by simp)
  intro s a hs r hr
  cases a with
  | snapshot c =>
    obtain ⟨hkeeps, hnew⟩ := createVersionSnapshot_spec c s.fs
    rcases List.mem_append.mp hr with hr | hr
    · have hstored := hs r hr
      exact ⟨hstored.path, hstored.low, hstored.high, contentAt_keeps hkeeps hstored.content⟩
    · obtain ⟨version, hversion, rfl⟩ := Option.mem_map.mp (Option.mem_toList.mp hr)
      exact hnew version hversion
  | outside fs' =>
    simp only [step] at hr ⊢
    split_ifs at hr ⊢ with hleft
    · have hstored := hs r hr
      exact ⟨hstored.path, hstored.low, hstored.high, hleft r hr⟩
    · exact hs r hr

/-! ## Listing -/

theorem mem_indexDirectory {fs : TargetVolume} {root : Path} {v : FileVersion} :
    v ∈ indexDirectory fs root ↔ ∃ dir d x, versionsDir fs root = some dir ∧
      fs.find dir = some d ∧ x ∈ fs.files d ∧ versionOf fs dir x = some v := by
  unfold indexDirectory
  cases versionsDir fs root with
  | none => simp
  | some dir => cases hfind : fs.find dir <;> simp [hfind]

theorem mem_indexed {fs : TargetVolume} {root : Path} {inode : U64} {v : FileVersion} :
    v ∈ indexed fs root inode ↔ v ∈ indexDirectory fs root ∧ v.inode = inode := by
  simp [indexed]

/-- A version that is listed is a file. -/
theorem isDir_of_findVersionPath {fs : TargetVolume} {root p : Path} {inode epoch : U64}
    (h : findVersionPath (indexed fs root inode) epoch = some p) :
    ∃ i, fs.find p = some i ∧ fs.isDir i = false := by
  obtain ⟨v, hv, rfl⟩ := Option.map_eq_some_iff.mp h
  obtain ⟨dir, d, x, -, hd, hx, hversion⟩ :=
    mem_indexDirectory.mp (mem_indexed.mp (List.mem_of_find?_eq_some hv)).1
  obtain ⟨n, -, rfl⟩ := Option.map_eq_some_iff.mp hversion
  obtain ⟨hentry, hfile⟩ := Volume.mem_files.mp hx
  exact ⟨x.2, by rw [Volume.find_concat_of_find hd, hentry], hfile⟩

section Stored
variable {fs : TargetVolume} {r : Taken}

/-- The entry of a version. -/
theorem Stored.entry (h : Stored fs r) : ∃ d i, fs.find (liveDir r.root) = some d ∧
    fs.entry d (snapshotName r.version.inode r.version.epochSeq r.version.timestamp) = some i ∧
      fs.isDir i = false := by
  obtain ⟨i, hi, hfile, -⟩ := contentAt_some.mp h.content
  rw [h.path, Volume.find_concat] at hi
  obtain ⟨d, hd, hentry⟩ := Option.bind_eq_some_iff.mp hi
  exact ⟨d, i, hd, hentry, hfile⟩

theorem Stored.mem_indexDirectory (h : Stored fs r) : ∃ v ∈ indexDirectory fs r.root,
    v.path = r.version.path ∧ v.inode = r.version.inode ∧ v.epochSeq = r.version.epochSeq ∧
      v.timestamp = r.version.timestamp := by
  obtain ⟨d, i, hd, hentry, hfile⟩ := h.entry
  have hdir : versionsDir fs r.root = some (liveDir r.root) := by
    simp [versionsDir, pathExists, hd]
  have hversion := congrArg (Option.map fun n : U64 × U64 × ℤ => (⟨n.1, n.2.1, n.2.2,
    liveDir r.root ++ [snapshotName r.version.inode r.version.epochSeq r.version.timestamp],
    (fs.record i).bytes.length, (fs.record i).mtime⟩ : FileVersion))
    (parseName_snapshotName r.version.inode r.version.epochSeq h.low h.high)
  exact ⟨_, LiveVersions.mem_indexDirectory.mpr
    ⟨_, d, (_, i), hdir, hd, Volume.mem_files.mpr ⟨hentry, hfile⟩, hversion⟩,
    h.path.symm, rfl, rfl, rfl⟩

theorem listVersions_eq (hnearest : Nearest fs r.live r.root) (hinode : SameInode fs r) :
    listVersions fs r.live = some (indexed fs r.root r.version.inode) := by
  obtain ⟨i, hi, hino⟩ := Option.map_eq_some_iff.mp hinode
  rw [listVersions, findTargetRoot_iff.mpr hnearest, hi, ← hino]
  rfl

/-- A version is listed exactly if its root is found and the live file has the same inode. -/
theorem listed_iff (h : Stored fs r) :
    Listed fs r ↔ Nearest fs r.live r.root ∧ SameInode fs r := by
  constructor
  · rintro ⟨versions, hlist, v, hv, hpath, hinode, -⟩
    obtain ⟨root, hroot, rfl⟩ := Option.map_eq_some_iff.mp hlist
    cases hlive : fs.find r.live with
    | none => simp [hlive] at hv
    | some i =>
      simp only [hlive, Option.elim_some] at hv
      obtain ⟨hmem, hino⟩ := mem_indexed.mp hv
      obtain ⟨dir, d, x, hdir, -, -, hversion⟩ := LiveVersions.mem_indexDirectory.mp hmem
      obtain ⟨n, -, rfl⟩ := Option.map_eq_some_iff.mp hversion
      have hsame : dir = liveDir r.root := by
        rw [h.path] at hpath
        exact (List.append_inj' hpath rfl).1
      have hroots : root = r.root := by
        unfold versionsDir at hdir
        split_ifs at hdir
        · cases hdir
          exact (List.append_inj' hsame rfl).1
        · cases hdir
          have hnames := (List.append_inj' hsame rfl).2
          simp at hnames
      rw [hroots] at hroot
      refine ⟨findTargetRoot_iff.mp hroot, ?_⟩
      rw [SameInode, hlive, ← hinode, hino]
      rfl
  · rintro ⟨hnearest, hinode⟩
    obtain ⟨v, hv, hpath, hino, hrest⟩ := h.mem_indexDirectory
    exact ⟨_, listVersions_eq hnearest hinode, v, mem_indexed.mpr ⟨hv, hino⟩, hpath, hino, hrest⟩

/-! ## Copying and reverting -/

theorem copied_iff (hnearest : Nearest fs r.live r.root) (hinode : SameInode fs r)
    (destination : Path) : Copied fs r destination ↔
      (fs.writable destination = true → FirstHolds fs r destination) := by
  refine forall_congr' fun hwritable => ?_
  have hlist := listVersions_eq hnearest hinode
  unfold copyVersionToPath FirstHolds
  simp only [hlist, Option.bind_eq_bind, Option.bind_some]
  cases hfirst : findVersionPath (indexed fs r.root r.version.inode) r.version.epochSeq with
  | none =>
    refine iff_of_false (fun hall => ?_) (by simp)
    simpa using hall ⟨0, [], 0⟩
  | some p =>
    obtain ⟨src, hsrc, hfile⟩ := isDir_of_findVersionPath hfirst
    have hlt := Volume.lt_of_find hsrc
    have hcontent : contentAt fs p = some r.bytes ↔ (fs.record src).bytes = r.bytes := by
      simp [contentAt, hsrc, hfile]
    simp only [Option.bind_some, hsrc, hcontent, Option.some.injEq, exists_eq_left']
    have hresult (fresh : InodeRecord) : (∃ fs', (Volume.create destination
          { fresh with bytes := [] } ({ · with bytes := [] }) fs).bind (fun x =>
            some (x.2.setRecord x.1 { x.2.record x.1 with bytes := (x.2.record src).bytes })) =
            some fs' ∧ contentAt fs' destination = some r.bytes) ↔
        if fs.find destination = some src then r.bytes = []
        else (fs.record src).bytes = r.bytes := by
      have hopen : ∃ x, Volume.create destination { fresh with bytes := [] }
          ({ · with bytes := [] }) fs = some x := Volume.writable_iff.mp hwritable
      obtain ⟨x, hcreate⟩ := hopen
      have hcreated := Volume.created_create hcreate
      have hnew : contentAt (x.2.setRecord x.1
          { x.2.record x.1 with bytes := (x.2.record src).bytes }) destination =
            some (x.2.record src).bytes := by
        refine contentAt_some.mpr ⟨x.1, hcreated.find, hcreated.isDir, ?_⟩
        simp [Volume.setRecord]
      rw [hcreate]
      simp only [Option.bind_some, Option.some.injEq, exists_eq_left', hnew]
      rw [hcreated.record src hlt]
      by_cases hself : fs.find destination = some src
      · rw [if_pos ((hcreated.old src hlt).mpr hself), if_pos hself]
        exact eq_comm
      · rw [if_neg fun heq => hself ((hcreated.old src hlt).mp heq), if_neg hself]
    constructor
    · intro hall
      exact (hresult ⟨0, [], 0⟩).mp (hall ⟨0, [], 0⟩)
    · intro hholds fresh
      exact (hresult fresh).mpr hholds

/-- A version that is listed is found by its epoch, or another one is. -/
theorem reverted_iff (h : Stored fs r) (hnearest : Nearest fs r.live r.root)
    (hinode : SameInode fs r) : Reverted fs r ↔ contentAt fs r.live = some r.bytes := by
  obtain ⟨i, hi, hino⟩ := Option.map_eq_some_iff.mp hinode
  obtain ⟨v, hv, -, hvinode, hepoch, -⟩ := h.mem_indexDirectory
  have hfound : ∃ p, findVersionPath (indexed fs r.root r.version.inode) r.version.epochSeq =
      some p := by
    have hsome : ((indexed fs r.root r.version.inode).find?
        (·.epochSeq = r.version.epochSeq)).isSome = true :=
      List.find?_isSome.mpr ⟨v, mem_indexed.mpr ⟨hv, hvinode⟩, by simpa using hepoch⟩
    obtain ⟨w, hw⟩ := Option.isSome_iff_exists.mp hsome
    exact ⟨w.path, by rw [findVersionPath, hw, Option.map_some]⟩
  obtain ⟨p, hp⟩ := hfound
  have hrevert : revertFile fs r.live r.version.epochSeq = some fs := by
    rw [revertFile, findTargetRoot_iff.mpr hnearest]
    simp [hi, hino, hp, revertSnapshot]
  simp [Reverted, hrevert]

/-! ## Pruning -/

theorem thinned_prune {l : ℕ} {dir : Path} (bytesToFree : ℕ) (items : List (String × ℕ))
    {fs : TargetVolume} (freed : ℕ) (hdir : fs.find dir = some l) (hl : fs.isDir l = true) :
    Volume.Thinned l fs
      (prune bytesToFree (items.map fun x => (dir ++ [x.1], x.2)) freed fs).2 := by
  induction items generalizing fs freed with
  | nil => exact .refl l
  | cons x items ih =>
    rw [List.map_cons, prune]
    split_ifs
    · exact .refl l
    · cases hremove : fs.removeFile (dir ++ [x.1]) with
      | none => exact ih freed hdir hl
      | some fs' =>
        obtain ⟨hthin, -⟩ := Volume.thinned_removeFile hdir hremove
        exact hthin.trans (ih _ (hthin.find hdir hl) (by rw [hthin.isDir]; exact hl))

/-- With enough to free, every file that is listed is deleted. -/
theorem prune_removes {l : ℕ} {dir : Path} {bytesToFree : ℕ} {name : String}
    (items : List (String × ℕ)) {fs : TargetVolume} (freed : ℕ) (hdir : fs.find dir = some l)
    (hl : fs.isDir l = true) (hfile : ∀ i, fs.entry l name = some i → fs.isDir i = false)
    (hname : name ∈ items.map Prod.fst)
    (henough : freed + (items.map Prod.snd).sum < bytesToFree) :
    (prune bytesToFree (items.map fun x => (dir ++ [x.1], x.2)) freed fs).2.entry l name =
      none := by
  induction items generalizing fs freed with
  | nil => simp at hname
  | cons x items ih =>
    rw [List.map_cons, List.sum_cons] at henough
    rw [List.map_cons, prune, if_neg (by omega)]
    have hgone {fs' : TargetVolume} (freed : ℕ) (hdir : fs'.find dir = some l)
        (hl : fs'.isDir l = true) (hnone : fs'.entry l name = none) :
        (prune bytesToFree (items.map fun x => (dir ++ [x.1], x.2)) freed fs').2.entry l name =
          none := by
      rcases (thinned_prune bytesToFree items freed hdir hl).entry l name with heq | ⟨-, heq⟩
      · rw [heq, hnone]
      · exact heq
    cases hremove : fs.removeFile (dir ++ [x.1]) with
    | none =>
      by_cases hx : name = x.1
      · refine hgone freed hdir hl ?_
        rw [Volume.removeFile_concat hdir, ← hx] at hremove
        cases hentry : fs.entry l name with
        | none => rfl
        | some i => simp [hentry, hfile i hentry] at hremove
      · exact ih freed hdir hl hfile (by simpa [hx] using hname) (by omega)
    | some fs' =>
      obtain ⟨hthin, hnone⟩ := Volume.thinned_removeFile hdir hremove
      have hdir' := hthin.find hdir hl
      have hl' : fs'.isDir l = true := by
        rw [hthin.isDir]
        exact hl
      by_cases hx : name = x.1
      · exact hgone _ hdir' hl' (by rw [hx, hnone])
      · refine ih _ hdir' hl' (fun i hi => ?_) (by simpa [hx] using hname) (by omega)
        rcases hthin.entry l name with heq | ⟨-, heq⟩
        · rw [hthin.isDir]
          exact hfile i (by rw [← heq, hi])
        · rw [heq] at hi
          cases hi

/-- The files of the legacy directory are gone through in some order. -/
theorem pruneGlobalHistory_items {root : Path} {l : ℕ} (hl : fs.find (legacyDir root) = some l)
    (hdir : fs.isDir l = true) : ∃ items : List (String × ℕ),
      (∀ x ∈ fs.files l, x.1 ∈ items.map Prod.fst) ∧
        ∀ bytesToFree, pruneGlobalHistory fs root bytesToFree = some (prune bytesToFree
          (items.map fun x => (legacyDir root ++ [x.1], x.2)) 0 fs) := by
  refine ⟨((fs.files l).mergeSort fun x y => (fs.record x.2).mtime ≤ (fs.record y.2).mtime).map
    fun x => (x.1, (fs.record x.2).bytes.length), fun x hx => ?_, fun bytesToFree => ?_⟩
  · rw [List.map_map, List.mem_map]
    exact ⟨x, List.mem_mergeSort.mpr hx, rfl⟩
  · rw [pruneGlobalHistory, hl, List.map_map]
    simp only [hdir, if_true]
    rfl

/-- Pruning leaves the other directories alone. -/
theorem find_prune (h : Stored fs r) {bytesToFree freed : ℕ} {fs' : TargetVolume}
    (hprune : pruneGlobalHistory fs r.root bytesToFree = some (freed, fs'))
    (hne : fs.find (legacyDir r.root) ≠ fs.find (liveDir r.root)) :
    fs'.find r.version.path = fs.find r.version.path := by
  obtain ⟨d, i, hd, hentry, -⟩ := h.entry
  have hdir := (fs.entry_used _ _ _ hentry).1
  cases hlegacy : fs.find (legacyDir r.root) with
  | none =>
    rw [pruneGlobalHistory, hlegacy] at hprune
    cases hprune
    rfl
  | some l =>
    by_cases hl : fs.isDir l = true
    · obtain ⟨items, -, hrun⟩ := pruneGlobalHistory_items hlegacy hl
      rw [hrun, Option.some.injEq] at hprune
      have hthin := thinned_prune bytesToFree items 0 hlegacy hl
      rw [hprune] at hthin
      rw [h.path, Volume.find_concat_of_find (hthin.find hd hdir), Volume.find_concat_of_find hd]
      rcases hthin.entry d (snapshotName r.version.inode r.version.epochSeq
        r.version.timestamp) with heq | ⟨rfl, -⟩
      · exact heq
      · exact absurd (hlegacy.trans hd.symm) hne
    · rw [pruneGlobalHistory, hlegacy] at hprune
      simp [hl] at hprune

/-- A version can be pruned exactly if the legacy directory is the one that it is in. -/
theorem prunable_iff (h : Stored fs r) :
    Prunable fs r ↔ fs.find (legacyDir r.root) = fs.find (liveDir r.root) := by
  obtain ⟨d, i, hd, hentry, hfile⟩ := h.entry
  have hdir := (fs.entry_used _ _ _ hentry).1
  have hthere : fs.find r.version.path = some i := by
    rw [h.path, Volume.find_concat_of_find hd, hentry]
  constructor
  · rintro ⟨bytesToFree, freed, fs', hprune, hgone⟩
    by_contra hne
    rw [find_prune h hprune hne, hthere] at hgone
    cases hgone
  · intro hlegacy
    rw [hd] at hlegacy
    obtain ⟨items, hall, hrun⟩ := pruneGlobalHistory_items hlegacy hdir
    refine ⟨(items.map Prod.snd).sum + 1, _, _, hrun _, ?_⟩
    have hthin := thinned_prune ((items.map Prod.snd).sum + 1) items 0 hlegacy hdir
    rw [h.path, Volume.find_concat_of_find (hthin.find hd hdir)]
    refine prune_removes items 0 hlegacy hdir (fun j hj => ?_)
      (hall (_, i) (Volume.mem_files.mpr ⟨hentry, hfile⟩)) (by omega)
    rw [hentry] at hj
    cases hj
    exact hfile

theorem usable_of_stored (h : Stored fs r) (destination : Path) :
    Usable fs r destination ↔ UsableWhen fs r destination := by
  constructor
  · rintro ⟨hlisted, hcopied, hreverted, hprunable⟩
    obtain ⟨hnearest, hinode⟩ := (listed_iff h).mp hlisted
    exact ⟨hnearest, hinode, (copied_iff hnearest hinode destination).mp hcopied,
      (reverted_iff h hnearest hinode).mp hreverted, (prunable_iff h).mp hprunable⟩
  · rintro ⟨hnearest, hinode, hfirst, hunchanged, hsame⟩
    exact ⟨(listed_iff h).mpr ⟨hnearest, hinode⟩,
      (copied_iff hnearest hinode destination).mpr hfirst,
      (reverted_iff h hnearest hinode).mpr hunchanged, (prunable_iff h).mpr hsame⟩

end Stored

/-- In every state of a run from any volume, a version that has been returned can be used
exactly if the legacy directory of its target is the directory that it is in, the target is the
nearest to the live file, and the live file and the first version of the epoch hold what the
version does. -/
theorem usable_iff (fs : TargetVolume) (acts : List Action) (r : Taken)
    (hr : r ∈ (after fs acts).taken) (destination : Path) :
    Usable (after fs acts).fs r destination ↔ UsableWhen (after fs acts).fs r destination :=
  usable_of_stored (stored_after fs acts r hr) destination

/-! ## Three targets -/

def dirRecord : InodeRecord := ⟨1, [], 0⟩

/-- A target with one file. -/
def plain : TargetVolume := (Volume.blank dirRecord).insert 0 "f" false ⟨7, [1], 0⟩

def makeDir (p : Path) (fs : TargetVolume) : TargetVolume :=
  (fs.createDirAll (fun _ => dirRecord) p).getD fs

/-- There is a legacy directory, too. -/
def marked : TargetVolume := makeDir (legacyDir []) plain

/-- The legacy directory is the directory of the versions. -/
def linked : TargetVolume := (makeDir [".mirror"] (makeDir (liveDir []) plain)).link 4 ".versions" 3

def call : Action := .snapshot ⟨["f"], 5, [], 7, 100, .done, fun _ => dirRecord, 9, 0⟩

/-- The file gets other contents. -/
def edit : Action := .outside ((after marked [call]).fs.setRecord 1 ⟨7, [2], 1⟩)

def returned : Taken :=
  ⟨["f"], [], ⟨7, 5, 100, [".foxing_versions", "live", "7_5_100"], 1, 0⟩, [1]⟩

theorem usable_linked : Usable (after linked [call]).fs returned ["copy"] := by
  have htaken : returned ∈ (after linked [call]).taken := by decide
  refine (usable_iff linked [call] returned htaken ["copy"]).mpr ⟨?_, ?_, fun _ => ?_, ?_, ?_⟩
  · exact findTargetRoot_iff.mp (by decide)
  · unfold SameInode
    decide
  · refine ⟨returned.version.path, by decide +kernel, ?_⟩
    rw [if_neg (by decide)]
    decide
  · decide
  · decide

/-- Without a legacy directory a version is not found. With one of its own it is listed, but
after a change to the file the reversion that is reported has not taken place, and pruning does
not reach the version. -/
theorem version_unusable :
    (returned ∈ (after plain [call]).taken ∧ ¬ Listed (after plain [call]).fs returned) ∧
      returned ∈ (after marked [call, edit]).taken ∧
        Listed (after marked [call, edit]).fs returned ∧
          ¬ Reverted (after marked [call, edit]).fs returned ∧
            ¬ Prunable (after marked [call, edit]).fs returned := by
  have hplain : returned ∈ (after plain [call]).taken := by decide
  have hmarked : returned ∈ (after marked [call, edit]).taken := by decide
  have hnearest : Nearest (after marked [call, edit]).fs ["f"] [] :=
    findTargetRoot_iff.mp (by decide)
  have hinode : SameInode (after marked [call, edit]).fs returned := by
    unfold SameInode
    decide
  have hstored := stored_after marked [call, edit] returned hmarked
  refine ⟨⟨hplain, fun hlisted => ?_⟩, hmarked, (listed_iff hstored).mpr ⟨hnearest, hinode⟩, ?_, ?_⟩
  · have hfound := ((listed_iff (stored_after plain [call] returned hplain)).mp hlisted).1.2.1
    revert hfound
    decide
  · rw [reverted_iff hstored hnearest hinode]
    decide
  · rw [prunable_iff hstored]
    decide

end LiveVersions

end Foxing
