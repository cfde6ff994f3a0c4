import Foxing.Lib.Run
import Foxing.MetadataStore

/-!
# The metadata store as a map

Calls on the store are compared with a map from the files and their keys to values. They agree as
long as no error is passed over, a value does not go where another one hides it, and attributes
are not given up while there are values in them.
-/
namespace Foxing.Sidecar

/-! ## Setting values -/

/-- What comes of the attempts to set an attribute: it is set under one of its names, an error
is passed over, or the file system is found to have no attributes. -/
inductive SetOutcome where
  | trusted | user | swallowed | unsupported
  deriving DecidableEq, Repr

def SetFaults.outcome (f : SetFaults) : SetOutcome :=
  match f.trusted, f.user with
  | none, _ => .trusted
  | some error, none =>
    if isXattrUnsupported error || error = eperm then .user else .swallowed
  | some error, some error₂ =>
    if isXattrUnsupported error then
      if isXattrUnsupported error₂ || error₂ = eperm then .unsupported else .swallowed
    else if error = eperm && isXattrUnsupported error₂ then .unsupported
    else .swallowed

namespace MetadataStore
variable {s : MetadataStore} {path : Path}

theorem tryXattrSet_eq (e : SetEntry) :
    s.tryXattrSet path e =
      match e.faults.outcome with
      | .trusted => some (s.setXattr path (names (bareKey e.key)).1 (some e.value))
      | .user => some (s.setXattr path (names (bareKey e.key)).2 (some e.value))
      | .swallowed => some s
      | .unsupported => none := by
  unfold tryXattrSet SetFaults.outcome
  rw [resolveKeyVariants_names]
  cases e.faults.trusted with
  | none => rfl
  | some error =>
    cases e.faults.user with
    | none =>
      dsimp only
      by_cases hunsupported : isXattrUnsupported error = true
      · simp [hunsupported]
      · by_cases hperm : error = eperm <;> simp [hunsupported, hperm]
    | some error₂ =>
      dsimp only
      by_cases hunsupported : isXattrUnsupported error = true
      · by_cases hunsupported₂ : isXattrUnsupported error₂ = true
        · simp [hunsupported, hunsupported₂]
        · by_cases hperm₂ : error₂ = eperm <;> simp [hunsupported, hunsupported₂, hperm₂]
      · by_cases hperm : error = eperm
        · subst hperm
          by_cases hunsupported₂ : isXattrUnsupported error₂ = true <;>
            simp [hunsupported, hunsupported₂]
        · simp [hunsupported, hperm]

/-- The attribute is set, under a name where it is found. -/
def Stores (s : MetadataStore) (path : Path) (e : SetEntry) : Prop :=
  e.faults.outcome = .trusted ∨
    (e.faults.outcome = .user ∧ s.xattrs path (names (bareKey e.key)).1 = none)

def StoresAll (s : MetadataStore) (path : Path) : List SetEntry → Prop
  | [] => True
  | e :: rest => s.Stores path e ∧ StoresAll ((s.tryXattrSet path e).getD s) path rest

/-- The sidecar can be written or not even opened, and has no values under the trusted names of
the keys. -/
def SidecarWritable (s : MetadataStore) (path : Path) (keys : List String) (io : SidecarIo) :
    Prop :=
  (io = .fine ∨ io = .unavailable) ∧
    ∀ key ∈ keys, (s.sidecarMap path).lookup (names (bareKey key)).1 = none

/-- What is found does not change when no attributes are looked for any more. -/
def Migrated (s : MetadataStore) : Prop := s.markUnsupported.find = s.find

theorem Stores.spec {e : SetEntry} (h : s.Stores path e)
    (hfile : s.symlinkMetadata path = some false) (hflag : s.xattrUnsupported = false) :
    ∃ s', s.tryXattrSet path e = some s' ∧
      s'.find = put s.find path (bareKey e.key) (some e.value) ∧
      s'.symlinkMetadata = s.symlinkMetadata ∧ s'.xattrUnsupported = false := by
  rw [tryXattrSet_eq]
  rcases h with houtcome | ⟨houtcome, htrusted⟩
  · rw [houtcome]
    exact ⟨_, rfl, find_setXattr_trusted hfile hflag _ _, rfl, hflag⟩
  · rw [houtcome]
    exact ⟨_, rfl, find_setXattr_user hfile hflag _ htrusted, rfl, hflag⟩

/-- A change of the map of a sidecar that only changes what is found there. -/
theorem changeSidecar_spec (hfile : s.symlinkMetadata path = some false)
    (hflag : s.xattrUnsupported = true) (change : SidecarMap → SidecarMap) {io : SidecarIo}
    (hio : io = .fine ∨ io = .unavailable) :
    ((s.changeSidecar path change io).1 = true →
      (s.changeSidecar path change io).2.find =
        Function.update s.find path (values (change (s.sidecarMap path)))) ∧
      ((s.changeSidecar path change io).1 = false →
        (s.changeSidecar path change io).2.find = s.find) := by
  unfold changeSidecar
  cases hsp : getSidecarPath path with
  | none => simp
  | some sp =>
    rcases hio with rfl | rfl
    · refine ⟨fun _ => ?_, fun h => absurd h (by simp)⟩
      have hmap : (s.sidecars sp).join.getD ∅ = s.sidecarMap path := by
        simp [sidecarMap, hsp]
      dsimp only
      rw [find_setSidecar hfile hflag hsp, hmap]
    · simp

/-- Where only sidecars are read, what is found is what is in them. -/
theorem find_of_unsupported (hfile : s.symlinkMetadata path = some false)
    (hflag : s.xattrUnsupported = true) : s.find path = values (s.sidecarMap path) := by
  funext b
  simp [find, hfile, hflag, sidecarValue, values]

theorem sidecarSetBatch_spec (hfile : s.symlinkMetadata path = some false)
    (hflag : s.xattrUnsupported = true) (entries : List SetEntry) {io : SidecarIo}
    (hio : s.SidecarWritable path (entries.map SetEntry.key) io) :
    ((s.sidecarSetBatch path (entries.map SetEntry.pair) io).1 = true →
      (s.sidecarSetBatch path (entries.map SetEntry.pair) io).2.find =
        putAll s.find path entries) ∧
      ((s.sidecarSetBatch path (entries.map SetEntry.pair) io).1 = false →
        (s.sidecarSetBatch path (entries.map SetEntry.pair) io).2.find = s.find) := by
  obtain ⟨hok, hfail⟩ := changeSidecar_spec (s := s) hfile hflag
    (fun map => (entries.map SetEntry.pair).foldl insertEntry map) hio.1
  refine ⟨fun h => (hok h).trans ?_, hfail⟩
  have htrusted : ∀ x ∈ entries.map SetEntry.pair,
      (s.sidecarMap path).lookup (names (bareKey x.1)).1 = none := by
    intro x hx
    obtain ⟨e, he, rfl⟩ := List.mem_map.mp hx
    exact hio.2 e.key (List.mem_map_of_mem he)
  rw [putAll_eq_update, values_foldl _ _ htrusted, List.foldl_map, find_of_unsupported hfile hflag]
  rfl

/-- Either all attributes are set, or the first attempt shows that there are none. -/
def BatchSound (s : MetadataStore) (path : Path) (entries : List SetEntry) (io : SidecarIo) :
    Prop :=
  s.symlinkMetadata path = some false ∧
    if s.xattrUnsupported then s.SidecarWritable path (entries.map SetEntry.key) io
    else s.StoresAll path entries ∨
      ((∃ e ∈ entries.head?, e.faults.outcome = .unsupported) ∧ s.Migrated ∧
        s.SidecarWritable path (entries.map SetEntry.key) io)

theorem StoresAll.spec {entries : List SetEntry} (h : s.StoresAll path entries)
    (hfile : s.symlinkMetadata path = some false) (hflag : s.xattrUnsupported = false)
    (pairs : List (String × Bytes)) (io : SidecarIo) :
    (setXattrs path pairs io s entries).1 = true ∧
      (setXattrs path pairs io s entries).2.find = putAll s.find path entries := by
  induction entries generalizing s with
  | nil => exact ⟨rfl, rfl⟩
  | cons e rest ih =>
    obtain ⟨hstores, hrest⟩ := h
    obtain ⟨s', hset, hfind, hfiles, hflag'⟩ := hstores.spec hfile hflag
    rw [hset] at hrest
    obtain ⟨hok, heq⟩ := ih hrest (by rw [Option.getD_some, hfiles]; exact hfile) hflag'
    simp only [setXattrs, hset]
    refine ⟨hok, heq.trans ?_⟩
    rw [Option.getD_some, hfind]
    rfl

theorem setMetadataBatch_spec {entries : List SetEntry} {io : SidecarIo}
    (h : s.BatchSound path entries io) :
    ((s.setMetadataBatch path entries io).1 = true →
      (s.setMetadataBatch path entries io).2.find = putAll s.find path entries) ∧
      ((s.setMetadataBatch path entries io).1 = false →
        (s.setMetadataBatch path entries io).2.find = s.find) := by
  obtain ⟨hfile, hsound⟩ := h
  unfold setMetadataBatch
  cases entries with
  | nil => exact ⟨fun _ => rfl, fun _ => rfl⟩
  | cons e rest =>
    rw [if_neg (List.cons_ne_nil e rest), if_pos hfile]
    by_cases hflag : s.xattrUnsupported = true
    · rw [if_pos hflag] at hsound ⊢
      exact sidecarSetBatch_spec hfile hflag _ hsound
    · rw [if_neg hflag] at hsound ⊢
      rcases hsound with hstores | ⟨⟨e', he', houtcome⟩, hmigrated, hio⟩
      · obtain ⟨hok, hfind⟩ := hstores.spec hfile (Bool.eq_false_iff.mpr hflag) _ io
        exact ⟨fun _ => hfind, fun h => absurd (hok.symm.trans h) (by simp)⟩
      · obtain rfl : e = e' := by simpa using he'
        have hnone : s.tryXattrSet path e = none := by rw [tryXattrSet_eq, houtcome]
        simp only [setXattrs, hnone]
        have hspec := sidecarSetBatch_spec (s := s.markUnsupported) hfile rfl (e :: rest) hio
        rwa [hmigrated] at hspec

/-- A single value is a batch of one. -/
theorem setMetadata_eq_batch (s : MetadataStore) (path : Path) (e : SetEntry) (io : SidecarIo) :
    s.setMetadata path e io = s.setMetadataBatch path [e] io := by
  unfold setMetadata setMetadataBatch
  rw [if_neg (List.cons_ne_nil e [])]
  split_ifs
  · rfl
  · simp only [setXattrs]
    cases s.tryXattrSet path e with
    | some s' => rfl
    | none => rfl
  · rfl

/-- Single calls for the entries of a batch. -/
def setEach (path : Path) (s : MetadataStore) (entries : List SetEntry) : MetadataStore :=
  entries.foldl (fun t e => (t.setMetadata path e .fine).2) s

/-- Entries that are written to the sidecar one by one. -/
theorem setEach_of_unsupported (hfile : s.symlinkMetadata path = some false)
    (hflag : s.xattrUnsupported = true) (e : SetEntry) (rest : List SetEntry) :
    setEach path s (e :: rest) =
      (s.sidecarSetBatch path ((e :: rest).map SetEntry.pair) .fine).2 := by
  induction rest generalizing s e with
  | nil =>
    simp only [setEach, List.foldl_cons, List.foldl_nil]
    rw [setMetadata, if_pos hfile, if_pos hflag]
    rfl
  | cons e' rest ih =>
    have hfirst : (s.setMetadata path e .fine).2 = (s.sidecarSet path e.key e.value .fine).2 := by
      rw [setMetadata, if_pos hfile, if_pos hflag]
    have hstep : setEach path s (e :: e' :: rest) =
        setEach path (s.sidecarSet path e.key e.value .fine).2 (e' :: rest) := by
      rw [← hfirst]
      rfl
    rw [hstep]
    unfold sidecarSet sidecarSetBatch changeSidecar
    cases hsp : getSidecarPath path with
    | none =>
      rw [ih hfile hflag, sidecarSetBatch, changeSidecar, hsp]
    | some sp =>
      dsimp only
      rw [ih (s := s.setSidecar sp _) hfile hflag, sidecarSetBatch, changeSidecar, hsp]
      simp [setSidecar, SetEntry.pair]

theorem setEach_of_storesAll {entries : List SetEntry} (h : s.StoresAll path entries)
    (hfile : s.symlinkMetadata path = some false) (hflag : s.xattrUnsupported = false)
    (pairs : List (String × Bytes)) :
    setEach path s entries = (setXattrs path pairs .fine s entries).2 := by
  induction entries generalizing s with
  | nil => rfl
  | cons e rest ih =>
    obtain ⟨hstores, hrest⟩ := h
    obtain ⟨s', hset, -, hfiles, hflag'⟩ := hstores.spec hfile hflag
    rw [hset, Option.getD_some] at hrest
    have hfirst : (s.setMetadata path e .fine).2 = s' := by
      rw [setMetadata, if_pos hfile, if_neg (by simp [hflag]), hset]
    have hnext := ih hrest (by rw [hfiles]; exact hfile) hflag'
    simp only [setXattrs, hset]
    rw [← hnext, ← hfirst]
    rfl

/-- A batch does what single calls do. -/
theorem setMetadataBatch_eq_setEach {entries : List SetEntry}
    (h : s.BatchSound path entries .fine) :
    (s.setMetadataBatch path entries .fine).2 = setEach path s entries := by
  obtain ⟨hfile, hsound⟩ := h
  unfold setMetadataBatch
  cases entries with
  | nil => rfl
  | cons e rest =>
    rw [if_neg (List.cons_ne_nil e rest), if_pos hfile]
    by_cases hflag : s.xattrUnsupported = true
    · rw [if_pos hflag, setEach_of_unsupported hfile hflag]
    · rw [if_neg hflag] at hsound ⊢
      rcases hsound with hstores | ⟨⟨e', he', houtcome⟩, -, -⟩
      · rw [setEach_of_storesAll hstores hfile (Bool.eq_false_iff.mpr hflag)]
      · obtain rfl : e = e' := by simpa using he'
        have hnone : s.tryXattrSet path e = none := by rw [tryXattrSet_eq, houtcome]
        have hfile' : s.markUnsupported.symlinkMetadata path = some false := hfile
        have hflag' : s.markUnsupported.xattrUnsupported = true := rfl
        have hfirst : (s.setMetadata path e .fine).2 =
            (s.markUnsupported.setMetadata path e .fine).2 := by
          rw [setMetadata, setMetadata, if_pos hfile, if_pos hfile', if_neg hflag, if_pos hflag',
            hnone]
        have hmarked := setEach_of_unsupported (s := s.markUnsupported) hfile rfl e rest
        simp only [setXattrs, hnone]
        rw [← hmarked, setEach, setEach, List.foldl_cons, List.foldl_cons, hfirst]

/-! ## Reading and removing values -/

theorem sidecarGet_eq {key : String} {io : SidecarIo}
    (h : io = .fine ∨ s.sidecarValue path (bareKey key) = none) :
    s.sidecarGet path key io = s.sidecarValue path (bareKey key) := by
  rcases h with rfl | hnone
  · exact sidecarGet_fine s path key
  · have hfine := sidecarGet_fine s path key
    rw [hnone] at hfine ⊢
    unfold sidecarGet at hfine ⊢
    cases hsp : getSidecarPath path with
    | none => rfl
    | some sp =>
      rw [hsp] at hfine
      cases hsidecar : s.sidecars sp with
      | none => simp only [hsidecar]
      | some content =>
        simp only [hsidecar] at hfine ⊢
        cases io with
        | fine | unwritable => exact hfine
        | unavailable => rfl
        | unreadable => exact mapValue_empty _

/-- The attribute that has the value can be read, or else the sidecar. -/
def GetSound (s : MetadataStore) (path : Path) (key : String) (trusted user : Option Errno)
    (io : SidecarIo) : Prop :=
  s.symlinkMetadata path = some false ∧
    if s.xattrUnsupported then io = .fine ∨ s.sidecarValue path (bareKey key) = none
    else if (s.xattrs path (names (bareKey key)).1).isSome then trusted = none
    else if (s.xattrs path (names (bareKey key)).2).isSome then user = none
    else io = .fine ∨ s.sidecarValue path (bareKey key) = none

theorem getMetadata_eq {key : String} {trusted user : Option Errno} {io : SidecarIo}
    (h : s.GetSound path key trusted user io) :
    s.getMetadata path key trusted user io = s.find path (bareKey key) := by
  obtain ⟨hfile, hsound⟩ := h
  unfold getMetadata find getXattr
  rw [if_pos hfile, if_pos hfile, resolveKeyVariants_names]
  by_cases hflag : s.xattrUnsupported = true
  · rw [if_pos hflag] at hsound
    rw [if_pos hflag, if_pos hflag]
    exact sidecarGet_eq hsound
  · rw [if_neg hflag] at hsound
    rw [if_neg hflag, if_neg hflag]
    cases htrusted : s.xattrs path (names (bareKey key)).1 with
    | some value =>
      obtain rfl : trusted = none := by simpa [htrusted] using hsound
      simp
    | none =>
      cases huser : s.xattrs path (names (bareKey key)).2 with
      | some value =>
        obtain rfl : user = none := by simpa [htrusted, huser] using hsound
        simp
      | none =>
        have hside : s.sidecarGet path key io = s.sidecarValue path (bareKey key) :=
          sidecarGet_eq (by simpa [htrusted, huser] using hsound)
        simp [hside]

/-- The map of the sidecar loses the key. -/
theorem sidecarMap_sidecarRemove {key : String} {io : SidecarIo}
    (h : io = .fine ∨ hasKey (s.sidecarMap path) key = false) :
    (s.sidecarRemove path key io).sidecarMap =
      Function.update s.sidecarMap path (eraseKey (s.sidecarMap path) key) := by
  have hkeep : hasKey (s.sidecarMap path) key = false →
      s.sidecarMap = Function.update s.sidecarMap path (eraseKey (s.sidecarMap path) key) := by
    intro hmissing
    rw [eraseKey_of_not_hasKey hmissing, Function.update_eq_self]
  have hempty : s.sidecarMap path = ∅ →
      s.sidecarMap = Function.update s.sidecarMap path (eraseKey (s.sidecarMap path) key) := by
    intro hmap
    exact hkeep (by rw [hmap]; exact hasKey_empty key)
  unfold sidecarRemove
  cases hsp : getSidecarPath path with
  | none => exact hempty (by simp [sidecarMap, hsp])
  | some sp =>
    cases hsidecar : s.sidecars sp with
    | none =>
      simp only [hsidecar]
      exact hempty (by simp [sidecarMap, hsp, hsidecar])
    | some content =>
      have hmap : content.getD ∅ = s.sidecarMap path := by simp [sidecarMap, hsp, hsidecar]
      simp only [hsidecar]
      cases io with
      | unavailable | unreadable => exact hkeep (h.resolve_left (by simp))
      | unwritable =>
        have hmissing := h.resolve_left (by simp)
        dsimp only
        rw [hmap, hmissing]
        exact hkeep hmissing
      | fine =>
        dsimp only
        rw [hmap]
        split_ifs with hfound hnothing
        · rw [sidecarMap_setSidecar hsp, hnothing]
          rfl
        · rw [sidecarMap_setSidecar hsp]
          rfl
        · exact hkeep (Bool.eq_false_iff.mpr hfound)

theorem sidecarRemove_frame (s : MetadataStore) (path : Path) (key : String) (io : SidecarIo) :
    (s.sidecarRemove path key io).symlinkMetadata = s.symlinkMetadata ∧
      (s.sidecarRemove path key io).xattrs = s.xattrs ∧
      (s.sidecarRemove path key io).xattrUnsupported = s.xattrUnsupported := by
  unfold sidecarRemove
  split
  · exact ⟨rfl, rfl, rfl⟩
  · split
    · exact ⟨rfl, rfl, rfl⟩
    · exact ⟨rfl, rfl, rfl⟩
    · exact ⟨rfl, rfl, rfl⟩
    · dsimp only
      split_ifs <;> exact ⟨rfl, rfl, rfl⟩
    · split_ifs <;> exact ⟨rfl, rfl, rfl⟩

/-- An attribute is gone if its removal works or there was none. -/
theorem xattrs_removeXattr (s : MetadataStore) (path : Path) (name : String)
    (fault : Option Errno) (q : Path) (name' : String) :
    (s.removeXattr path name fault).xattrs q name' =
      if q = path ∧ name' = name ∧ fault = none then none else s.xattrs q name' := by
  unfold removeXattr removeXattrError
  cases fault with
  | some error => simp
  | none =>
    by_cases hnone : s.xattrs path name = none
    · simp only [hnone, if_true, Option.none_or, Option.isSome_some]
      split_ifs with h
      · rw [h.1, h.2.1, hnone]
      · rfl
    · simp only [hnone, if_false, Option.none_or, Option.isSome_none, Bool.false_eq_true]
      rw [xattrs_setXattr]
      simp

theorem removeXattr_frame (s : MetadataStore) (path : Path) (name : String)
    (fault : Option Errno) :
    (s.removeXattr path name fault).symlinkMetadata = s.symlinkMetadata ∧
      (s.removeXattr path name fault).sidecarMap = s.sidecarMap ∧
      (s.removeXattr path name fault).xattrUnsupported = s.xattrUnsupported := by
  unfold removeXattr
  split_ifs <;> exact ⟨rfl, rfl, rfl⟩

/-- The sidecar can be changed where it has to be. The attributes go, unless none is looked for
or an error is reported. -/
def RemoveSound (s : MetadataStore) (path : Path) (key : String) (trusted user : Option Errno)
    (io : SidecarIo) : Prop :=
  s.symlinkMetadata path = some false ∧
    (io = .fine ∨ hasKey (s.sidecarMap path) key = false) ∧
    (s.xattrUnsupported = true ∨ s.removeReports path key trusted user = true ∨
      ((trusted = none ∨ s.xattrs path (names (bareKey key)).1 = none) ∧
        (user = none ∨ s.xattrs path (names (bareKey key)).2 = none)))

section Removal
variable {key : String} {trusted user : Option Errno} {io : SidecarIo}

theorem removeMetadata_snd :
    (s.removeMetadata path key trusted user io).2 =
      ((s.removeXattr path (names (bareKey key)).1 trusted).removeXattr path
        (names (bareKey key)).2 user).sidecarRemove path key io := by
  rw [removeMetadata, resolveKeyVariants_names]

theorem removeMetadata_frame :
    (s.removeMetadata path key trusted user io).2.symlinkMetadata = s.symlinkMetadata ∧
      (s.removeMetadata path key trusted user io).2.xattrUnsupported = s.xattrUnsupported := by
  rw [removeMetadata_snd]
  obtain ⟨hfiles, -, hflag⟩ := sidecarRemove_frame
    ((s.removeXattr path (names (bareKey key)).1 trusted).removeXattr path
      (names (bareKey key)).2 user) path key io
  obtain ⟨hfiles₂, -, hflag₂⟩ := removeXattr_frame
    (s.removeXattr path (names (bareKey key)).1 trusted) path (names (bareKey key)).2 user
  obtain ⟨hfiles₁, -, hflag₁⟩ := removeXattr_frame s path (names (bareKey key)).1 trusted
  exact ⟨hfiles.trans (hfiles₂.trans hfiles₁), hflag.trans (hflag₂.trans hflag₁)⟩

theorem xattrs_removeMetadata (q : Path) (name : String) :
    (s.removeMetadata path key trusted user io).2.xattrs q name =
      if q = path ∧ name = (names (bareKey key)).2 ∧ user = none then none
      else if q = path ∧ name = (names (bareKey key)).1 ∧ trusted = none then none
      else s.xattrs q name := by
  rw [removeMetadata_snd, (sidecarRemove_frame _ path key io).2.1, xattrs_removeXattr,
    xattrs_removeXattr]

theorem sidecarValue_removeMetadata (hio : io = .fine ∨ hasKey (s.sidecarMap path) key = false)
    (q : Path) (b : String) :
    (s.removeMetadata path key trusted user io).2.sidecarValue q b =
      if q = path ∧ b = bareKey key then none else s.sidecarValue q b := by
  have hmap : ((s.removeXattr path (names (bareKey key)).1 trusted).removeXattr path
      (names (bareKey key)).2 user).sidecarMap = s.sidecarMap :=
    (removeXattr_frame _ _ _ _).2.1.trans (removeXattr_frame _ _ _ _).2.1
  have hremoved := sidecarMap_sidecarRemove (by rw [hmap]; exact hio)
  rw [hmap] at hremoved
  rw [removeMetadata_snd, sidecarValue, hremoved]
  by_cases hq : q = path
  · subst hq
    have hvalues := congrFun (values_eraseKey (s.sidecarMap q) key) b
    rw [Function.update_self]
    by_cases hb : b = bareKey key
    · subst hb
      simpa [values] using hvalues
    · rw [Function.update_of_ne hb] at hvalues
      rw [if_neg (by simp [hb])]
      exact hvalues
  · rw [Function.update_of_ne hq, if_neg (by simp [hq])]
    rfl

/-- Nothing else is found to have changed. -/
theorem find_removeMetadata_of_ne (hio : io = .fine ∨ hasKey (s.sidecarMap path) key = false)
    {q : Path} {b : String} (hne : ¬ (q = path ∧ b = bareKey key)) :
    (s.removeMetadata path key trusted user io).2.find q b = s.find q b := by
  have hfst : ¬ (q = path ∧ (names b).1 = (names (bareKey key)).1) :=
    fun h => hne ⟨h.1, names_fst_inj h.2⟩
  have hsnd : ¬ (q = path ∧ (names b).2 = (names (bareKey key)).2) :=
    fun h => hne ⟨h.1, names_snd_inj h.2⟩
  have hcross := names_fst_ne_snd b (bareKey key)
  have hcross' := (names_fst_ne_snd (bareKey key) b).symm
  have htrusted : (s.removeMetadata path key trusted user io).2.xattrs q (names b).1 =
      s.xattrs q (names b).1 := by
    rw [xattrs_removeMetadata, if_neg fun h => hcross h.2.1, if_neg fun h => hfst ⟨h.1, h.2.1⟩]
  have huser : (s.removeMetadata path key trusted user io).2.xattrs q (names b).2 =
      s.xattrs q (names b).2 := by
    rw [xattrs_removeMetadata, if_neg fun h => hsnd ⟨h.1, h.2.1⟩, if_neg fun h => hcross' h.2.1]
  unfold find
  rw [removeMetadata_frame.1, removeMetadata_frame.2, sidecarValue_removeMetadata hio, if_neg hne,
    htrusted, huser]

/-- What has been removed is not found. -/
theorem find_removeMetadata_self (h : s.RemoveSound path key trusted user io)
    (hok : (s.removeMetadata path key trusted user io).1 = true) :
    (s.removeMetadata path key trusted user io).2.find path (bareKey key) = none := by
  obtain ⟨hfile, hio, hgone⟩ := h
  have hside : (s.removeMetadata path key trusted user io).2.sidecarValue path (bareKey key) =
      none := by
    rw [sidecarValue_removeMetadata hio, if_pos ⟨rfl, rfl⟩]
  unfold find
  rw [removeMetadata_frame.1, removeMetadata_frame.2, if_pos hfile, hside]
  split_ifs with hflag
  · rfl
  · have hreports : s.removeReports path key trusted user = false := by
      simpa [removeMetadata] using hok
    rcases hgone with hflag' | hreports' | ⟨htrusted, huser⟩
    · exact absurd hflag' hflag
    · rw [hreports] at hreports'
      cases hreports'
    · have hcross := names_fst_ne_snd (bareKey key) (bareKey key)
      have hfst : (s.removeMetadata path key trusted user io).2.xattrs path
          (names (bareKey key)).1 = none := by
        rw [xattrs_removeMetadata, if_neg fun h => hcross h.2.1]
        split_ifs with hremoved
        · rfl
        · exact htrusted.resolve_left fun h => hremoved ⟨rfl, rfl, h⟩
      have hsnd : (s.removeMetadata path key trusted user io).2.xattrs path
          (names (bareKey key)).2 = none := by
        rw [xattrs_removeMetadata]
        split_ifs with hremoved
        · rfl
        · rfl
        · exact huser.resolve_left fun h => hremoved ⟨rfl, rfl, h⟩
      rw [hfst, hsnd]
      rfl

end Removal

end MetadataStore

/-! ## Runs -/

inductive MetaCall where
  | set (path : Path) (entry : SetEntry) (io : SidecarIo)
  | setBatch (path : Path) (entries : List SetEntry) (io : SidecarIo)
  | get (path : Path) (key : String) (trusted user : Option Errno) (io : SidecarIo)
  | remove (path : Path) (key : String) (trusted user : Option Errno) (io : SidecarIo)
  deriving DecidableEq, Repr

/-- A store with the values that are expected in it, and the answers it has given, each with the
one that was expected. -/
structure CheckedStore where
  store : MetadataStore
  expected : Path → String → Option Bytes
  answers : List (Option Bytes × Option Bytes)

namespace CheckedStore
open MetadataStore
variable (t : CheckedStore)

/-- A store as it is found. -/
def start (s : MetadataStore) : CheckedStore := ⟨s, s.find, []⟩

/-- The values that have been set are expected, and none where they have been removed. Nothing is
expected of the keys of a call that reports an error: they have what is found there. -/
def step : MetaCall → CheckedStore
  | .set path e io =>
    let r := t.store.setMetadata path e io
    { t with
      store := r.2
      expected := put t.expected path (bareKey e.key)
        (if r.1 then some e.value else r.2.find path (bareKey e.key)) }
  | .setBatch path entries io =>
    let r := t.store.setMetadataBatch path entries io
    { t with
      store := r.2
      expected := if r.1 then putAll t.expected path entries else
        entries.foldl (fun A e => put A path (bareKey e.key) (r.2.find path (bareKey e.key)))
          t.expected }
  | .get path key trusted user io =>
    { t with
      answers := t.answers ++
        [(t.store.getMetadata path key trusted user io, t.expected path (bareKey key))] }
  | .remove path key trusted user io =>
    let r := t.store.removeMetadata path key trusted user io
    { t with
      store := r.2
      expected := put t.expected path (bareKey key)
        (if r.1 then none else r.2.find path (bareKey key)) }

def Sound : MetaCall → Prop
  | .set path e io => t.store.BatchSound path [e] io
  | .setBatch path entries io => t.store.BatchSound path entries io
  | .get path key trusted user io => t.store.GetSound path key trusted user io
  | .remove path key trusted user io => t.store.RemoveSound path key trusted user io

/-- The store has what is expected, and has given the expected answers. -/
structure Agrees : Prop where
  find : t.store.find = t.expected
  answers : ∀ x ∈ t.answers, x.1 = x.2

/-- Where a map has the values already, they can be put there. -/
theorem foldl_put_self (A : Path → String → Option Bytes) (path : Path)
    (entries : List SetEntry) :
    entries.foldl (fun B e => put B path (bareKey e.key) (A path (bareKey e.key))) A = A := by
  induction entries with
  | nil => rfl
  | cons e entries ih =>
    have hself : put A path (bareKey e.key) (A path (bareKey e.key)) = A := by
      rw [put, Function.update_eq_self, Function.update_eq_self]
    rw [List.foldl_cons, hself]
    exact ih

variable {t}

theorem Agrees.setBatch (h : t.Agrees) {path : Path} {entries : List SetEntry} {io : SidecarIo}
    (hsound : t.store.BatchSound path entries io) : (t.step (.setBatch path entries io)).Agrees := by
  obtain ⟨hok, hfail⟩ := setMetadataBatch_spec hsound
  refine ⟨?_, h.answers⟩
  simp only [step]
  rw [h.find] at hok hfail
  cases hresult : (t.store.setMetadataBatch path entries io).1 with
  | true =>
    rw [if_pos rfl]
    exact hok hresult
  | false =>
    rw [if_neg (by simp), hfail hresult, foldl_put_self]

theorem Agrees.set (h : t.Agrees) {path : Path} {e : SetEntry} {io : SidecarIo}
    (hsound : t.store.BatchSound path [e] io) : (t.step (.set path e io)).Agrees := by
  have hbatch := h.setBatch hsound
  have hsame : t.step (.set path e io) = t.step (.setBatch path [e] io) := by
    simp only [step, setMetadata_eq_batch, putAll, List.foldl_cons, List.foldl_nil]
    split_ifs <;> rfl
  rwa [hsame]

theorem Agrees.get (h : t.Agrees) {path : Path} {key : String} {trusted user : Option Errno}
    {io : SidecarIo} (hsound : t.store.GetSound path key trusted user io) :
    (t.step (.get path key trusted user io)).Agrees := by
  refine ⟨h.find, fun x hx => ?_⟩
  rcases List.mem_append.mp hx with hx | hx
  · exact h.answers x hx
  · rw [List.mem_singleton.mp hx]
    dsimp only
    rw [getMetadata_eq hsound, h.find]

theorem Agrees.remove (h : t.Agrees) {path : Path} {key : String} {trusted user : Option Errno}
    {io : SidecarIo} (hsound : t.store.RemoveSound path key trusted user io) :
    (t.step (.remove path key trusted user io)).Agrees := by
  refine ⟨?_, h.answers⟩
  funext q b
  simp only [step]
  rw [put_apply]
  split_ifs with hself hok
  · rw [hself.1, hself.2]
    exact find_removeMetadata_self hsound hok
  · rw [hself.1, hself.2]
  · rw [← h.find]
    exact find_removeMetadata_of_ne hsound.2.1 hself

theorem Agrees.step (h : t.Agrees) {c : MetaCall} (hsound : t.Sound c) : (t.step c).Agrees := by
  cases c with
  | set path e io => exact h.set hsound
  | setBatch path entries io => exact h.setBatch hsound
  | get path key trusted user io => exact h.get hsound
  | remove path key trusted user io => exact h.remove hsound

/-- In a run of such calls the store behaves as a map: a value that has been set is found until
its key is set or removed again, and no other call changes it. A batch does what single calls
would do. -/
theorem store_is_map (s : MetadataStore) (calls : List MetaCall)
    (hsound : Run.Along step Sound (start s) calls) :
    (∀ p, p <+: calls →
      (∀ path key, (Run.exec step (start s) p).store.getMetadata path key none none .fine =
        (Run.exec step (start s) p).expected path (bareKey key)) ∧
      ∀ x ∈ (Run.exec step (start s) p).answers, x.1 = x.2) ∧
      ∀ (s' : MetadataStore) (path : Path) (entries : List SetEntry),
        s'.BatchSound path entries .fine →
        (s'.setMetadataBatch path entries .fine).2 = setEach path s' entries := by
  refine ⟨fun p hp => ?_, fun s' path entries hbatch => setMetadataBatch_eq_setEach hbatch⟩
  have hstart : (start s).Agrees := ⟨rfl, by simp [start]⟩
  have hend := Run.invariant_prefix step (fun t c hok (h : t.Agrees) => h.step hok) hsound hstart
    p hp
  refine ⟨fun path key => ?_, hend.answers⟩
  rw [getMetadata_fine, hend.find]

/-- Files without any values. -/
def emptyStore : MetadataStore := ⟨fun _ => some false, fun _ _ => none, fun _ => none, false⟩

/-- A file system without attributes, where everything goes to the sidecar. -/
def sidecarRun : List MetaCall :=
  [.set ["a"] ⟨"dirty", [1], ⟨some eopnotsupp, some eopnotsupp⟩⟩ .fine,
    .setBatch ["a"] [⟨"sig", [2], ⟨none, none⟩⟩, ⟨"user.foxing.dirty", [3], ⟨none, none⟩⟩] .fine,
    .get ["a"] "dirty" (some eopnotsupp) (some eopnotsupp) .fine,
    .remove ["a"] "dirty" (some eopnotsupp) (some eopnotsupp) .fine]

theorem sidecarRun_is_map :
    (∀ p, p <+: sidecarRun →
      (∀ path key, (Run.exec step (start emptyStore) p).store.getMetadata path key none none .fine =
        (Run.exec step (start emptyStore) p).expected path (bareKey key)) ∧
      ∀ x ∈ (Run.exec step (start emptyStore) p).answers, x.1 = x.2) ∧
      ∀ (s' : MetadataStore) (path : Path) (entries : List SetEntry),
        s'.BatchSound path entries .fine →
        (s'.setMetadataBatch path entries .fine).2 = setEach path s' entries := by
  refine store_is_map emptyStore sidecarRun ⟨⟨rfl, ?_⟩, ⟨rfl, ?_⟩, ⟨rfl, ?_⟩, ⟨rfl, ?_, ?_⟩, trivial⟩
  · refine .inr ⟨⟨_, rfl, rfl⟩, ?_, .inl rfl, ?_⟩
    · funext q b
      simp only [find, markUnsupported, emptyStore, start]
      rfl
    · decide
  · exact ⟨.inl rfl, by decide⟩
  · exact .inl rfl
  · exact .inl rfl
  · exact .inl rfl

/-- A mark, with the errors that are met when it is set. -/
def mark (trusted user : Option Errno) : SetEntry := ⟨"dirty", [1], ⟨trusted, user⟩⟩

/-- A value in an attribute is not found any more once another file turns out to have none. A
value that could not be written for want of space is reported as set. -/
theorem flag_hides_values :
    (emptyStore.setMetadata ["a"] (mark none none) .fine).1 = true ∧
      ((emptyStore.setMetadata ["a"] (mark none none) .fine).2.setMetadata ["b"]
        (mark (some eopnotsupp) (some eopnotsupp)) .fine).1 = true ∧
      ((emptyStore.setMetadata ["a"] (mark none none) .fine).2.setMetadata ["b"]
        (mark (some eopnotsupp) (some eopnotsupp)) .fine).2.getMetadata ["a"] "dirty" none none
          .fine ≠ some [1] ∧
      (emptyStore.setMetadata ["a"] (mark (some 28) none) .fine).1 = true ∧
      (emptyStore.setMetadata ["a"] (mark (some 28) none) .fine).2.getMetadata ["a"] "dirty" none
        none .fine ≠ some [1] := by
  decide

end CheckedStore

end Foxing.Sidecar
