import Foxing.Sidecar

/-!
# The metadata store

Values are kept for the keys of a file: in a trusted attribute, in a user attribute where the
trusted ones are not to be had, and in a sidecar where there are none at all. Once a file system
without attributes has been met, all files are taken to be on such a one.

The calls of the attributes may fail with any error, and so may those on the sidecar. A call
that does not fail works. What the calls make of the store is compared with a map from the files
and their keys to values.
-/
namespace Foxing.Sidecar

/-- The number of an error. -/
abbrev Errno := ℕ

def eperm : Errno := 1
def enoent : Errno := 2
def enosys : Errno := 38
def enodata : Errno := 61
def eopnotsupp : Errno := 95

/-- On Linux `ENOTSUP` is `EOPNOTSUPP`. -/
def isXattrUnsupported (e : Errno) : Bool := e = eopnotsupp || e = enosys

/-- How the work on a sidecar goes: it may fail when the file is opened or locked, when its map
is read, or when the map is written after the file has been cut off. -/
inductive SidecarIo where
  | fine | unavailable | unreadable | unwritable
  deriving DecidableEq, Repr

/-- The attributes of the files and the content of the sidecars, under their own paths. A file is
a symbolic link or not, or cannot be looked at. -/
structure MetadataStore where
  symlinkMetadata : Path → Option Bool
  xattrs : Path → String → Option Bytes
  sidecars : Path → Option (Option SidecarMap)
  xattrUnsupported : Bool

def getSidecarPath (target : Path) : Option Path :=
  target.getLast?.map fun name => target.dropLast ++ ["." ++ name ++ ".foxing_meta"]

/-- The results of the two attempts to set an attribute. -/
structure SetFaults where
  trusted : Option Errno
  user : Option Errno
  deriving DecidableEq, Repr

structure SetEntry where
  key : String
  value : Bytes
  faults : SetFaults
  deriving DecidableEq, Repr

def SetEntry.pair (e : SetEntry) : String × Bytes := (e.key, e.value)

namespace MetadataStore
variable (s : MetadataStore)

def setXattr (path : Path) (name : String) (value : Option Bytes) : MetadataStore :=
  { s with
    xattrs := Function.update s.xattrs path (Function.update (s.xattrs path) name value) }

def setSidecar (path : Path) (content : Option (Option SidecarMap)) : MetadataStore :=
  { s with sidecars := Function.update s.sidecars path content }

/-! ## Sidecars -/

/-- `sidecar_set` and `sidecar_set_batch`, with what they do to the map. -/
def changeSidecar (path : Path) (change : SidecarMap → SidecarMap) (io : SidecarIo) :
    Bool × MetadataStore :=
  match getSidecarPath path with
  | none => (false, s)
  | some sp =>
    match io with
    | .fine => (true, s.setSidecar sp (some (some (change ((s.sidecars sp).join.getD ∅)))))
    | .unavailable => (false, s)
    | .unreadable => (true, s.setSidecar sp (some (some (change ∅))))
    | .unwritable => (false, s.setSidecar sp (some none))

def sidecarSet (path : Path) (key : String) (value : Bytes) (io : SidecarIo) :
    Bool × MetadataStore :=
  s.changeSidecar path (insertEntry · (key, value)) io

def sidecarSetBatch (path : Path) (entries : List (String × Bytes)) (io : SidecarIo) :
    Bool × MetadataStore :=
  s.changeSidecar path (fun map => entries.foldl insertEntry map) io

/-- The value under one of the names of a key, the trusted one first. -/
def mapValue (map : SidecarMap) (names : String × String) : Option Bytes :=
  ((map.lookup names.1).or (map.lookup names.2)).bind hexDecode

def sidecarGet (path : Path) (key : String) (io : SidecarIo) : Option Bytes :=
  match getSidecarPath path with
  | none => none
  | some sp =>
    match s.sidecars sp, io with
    | none, _ => none
    | _, .unavailable => none
    | _, .unreadable => mapValue ∅ (resolveKeyVariants key)
    | some content, _ => mapValue (content.getD ∅) (resolveKeyVariants key)

/-- The result is not looked at by the caller. -/
def sidecarRemove (path : Path) (key : String) (io : SidecarIo) : MetadataStore :=
  match getSidecarPath path with
  | none => s
  | some sp =>
    match s.sidecars sp, io with
    | none, _ => s
    | _, .unavailable => s
    | _, .unreadable => s
    | some content, .fine =>
      let map := content.getD ∅
      if hasKey map key then
        s.setSidecar sp (if eraseKey map key = ∅ then none else some (some (eraseKey map key)))
      else s
    | some content, .unwritable =>
      if hasKey (content.getD ∅) key then s.setSidecar sp (some none) else s

/-! ## Calls -/

/-- Without a result the caller is to use the sidecar. Most errors are only logged. -/
def tryXattrSet (path : Path) (e : SetEntry) : Option MetadataStore :=
  let (trustedKey, userKey) := resolveKeyVariants e.key
  match e.faults.trusted with
  | none => some (s.setXattr path trustedKey (some e.value))
  | some error =>
    if isXattrUnsupported error then
      match e.faults.user with
      | none => some (s.setXattr path userKey (some e.value))
      | some error₂ =>
        if isXattrUnsupported error₂ then none else if error₂ = eperm then none else some s
    else if error = eperm then
      match e.faults.user with
      | none => some (s.setXattr path userKey (some e.value))
      | some error₂ => if isXattrUnsupported error₂ then none else some s
    else some s

def markUnsupported : MetadataStore := { s with xattrUnsupported := true }

def setMetadata (path : Path) (e : SetEntry) (io : SidecarIo) : Bool × MetadataStore :=
  if s.symlinkMetadata path = some false then
    if s.xattrUnsupported then s.sidecarSet path e.key e.value io
    else
      match s.tryXattrSet path e with
      | some s' => (true, s')
      | none => s.markUnsupported.sidecarSet path e.key e.value io
  else (true, s)

/-- The loop over the entries. When one of them fails all go to the sidecar. -/
def setXattrs (path : Path) (entries : List (String × Bytes)) (io : SidecarIo) (s : MetadataStore) :
    List SetEntry → Bool × MetadataStore
  | [] => (true, s)
  | e :: rest =>
    match s.tryXattrSet path e with
    | some s' => setXattrs path entries io s' rest
    | none => s.markUnsupported.sidecarSetBatch path entries io

def setMetadataBatch (path : Path) (entries : List SetEntry) (io : SidecarIo) :
    Bool × MetadataStore :=
  if entries = [] then (true, s)
  else if s.symlinkMetadata path = some false then
    if s.xattrUnsupported then s.sidecarSetBatch path (entries.map SetEntry.pair) io
    else setXattrs path (entries.map SetEntry.pair) io s entries
  else (true, s)

/-- An attribute that cannot be read counts as missing. -/
def getXattr (path : Path) (name : String) (fault : Option Errno) : Option Bytes :=
  if fault.isSome then none else s.xattrs path name

def getMetadata (path : Path) (key : String) (trusted user : Option Errno) (io : SidecarIo) :
    Option Bytes :=
  if s.symlinkMetadata path = some false then
    if s.xattrUnsupported then s.sidecarGet path key io
    else
      ((s.getXattr path (resolveKeyVariants key).1 trusted).or
        (s.getXattr path (resolveKeyVariants key).2 user)).or (s.sidecarGet path key io)
  else none

/-- The error of a removal: one that was met, or that there is no such attribute. -/
def removeXattrError (path : Path) (name : String) (fault : Option Errno) : Option Errno :=
  fault.or (if s.xattrs path name = none then some enodata else none)

def removeXattr (path : Path) (name : String) (fault : Option Errno) : MetadataStore :=
  if (s.removeXattrError path name fault).isSome then s else s.setXattr path name none

/-- The errors of a removal that are not reported. -/
def isRemoveIgnored (e : Errno) : Bool :=
  e = enoent || e = eopnotsupp || e = enosys || e = eperm || e = 61 || e = 93

/-- An error is reported if both removals fail, and the first for no usual reason. -/
def removeReports (path : Path) (key : String) (trusted user : Option Errno) : Bool :=
  match s.removeXattrError path (resolveKeyVariants key).1 trusted,
    s.removeXattrError path (resolveKeyVariants key).2 user with
  | some error, some _ => !isRemoveIgnored error
  | _, _ => false

def removeMetadata (path : Path) (key : String) (trusted user : Option Errno) (io : SidecarIo) :
    Bool × MetadataStore :=
  let (trustedKey, userKey) := resolveKeyVariants key
  (!s.removeReports path key trusted user,
    ((s.removeXattr path trustedKey trusted).removeXattr path userKey user).sidecarRemove path key
      io)

/-! ## What is found -/

/-- The two names of a bare key. -/
def names (b : String) : String × String := (nsTrustedPrefix ++ b, nsUserPrefix ++ b)

/-- The map in the sidecar of a file. -/
def sidecarMap (path : Path) : SidecarMap :=
  (getSidecarPath path).elim ∅ fun sp => (s.sidecars sp).join.getD ∅

def sidecarValue (path : Path) (b : String) : Option Bytes := mapValue (s.sidecarMap path) (names b)

/-- What a call finds for a bare key if nothing fails. -/
def find (path : Path) (b : String) : Option Bytes :=
  if s.symlinkMetadata path = some false then
    if s.xattrUnsupported then s.sidecarValue path b
    else ((s.xattrs path (names b).1).or (s.xattrs path (names b).2)).or (s.sidecarValue path b)
  else none

theorem resolveKeyVariants_names (key : String) : resolveKeyVariants key = names (bareKey key) :=
  resolveKeyVariants_eq key

theorem mapValue_empty (names : String × String) : mapValue ∅ names = none := by
  simp [mapValue]

theorem sidecarGet_fine (path : Path) (key : String) :
    s.sidecarGet path key .fine = s.sidecarValue path (bareKey key) := by
  unfold sidecarGet sidecarValue sidecarMap
  rw [resolveKeyVariants_names]
  cases getSidecarPath path with
  | none => exact (mapValue_empty _).symm
  | some sp =>
    cases hsidecar : s.sidecars sp with
    | none =>
      simp only [Option.elim_some, hsidecar]
      exact (mapValue_empty _).symm
    | some content => simp [hsidecar]

theorem getMetadata_fine (path : Path) (key : String) :
    s.getMetadata path key none none .fine = s.find path (bareKey key) := by
  unfold getMetadata find
  rw [sidecarGet_fine, resolveKeyVariants_names]
  rfl

theorem names_fst_ne_snd (a b : String) : (names a).1 ≠ (names b).2 := trusted_ne_user a b

theorem names_fst_inj {a b : String} (h : (names a).1 = (names b).1) : a = b :=
  append_left_cancel h

theorem names_snd_inj {a b : String} (h : (names a).2 = (names b).2) : a = b :=
  append_left_cancel h

/-- Each file has a sidecar of its own. -/
theorem getSidecarPath_inj {p q sp : Path} (hp : getSidecarPath p = some sp)
    (hq : getSidecarPath q = some sp) : p = q := by
  obtain ⟨name, hname, rfl⟩ := Option.map_eq_some_iff.mp hp
  obtain ⟨name', hname', heq⟩ := Option.map_eq_some_iff.mp hq
  obtain ⟨hdir, hlast⟩ := List.append_inj' heq rfl
  have hchars := congrArg String.toList (List.head_eq_of_cons_eq hlast)
  simp only [String.toList_append, List.append_assoc] at hchars
  have hsame := List.append_cancel_right (List.append_cancel_left hchars)
  obtain rfl := String.toList_inj.mp hsame
  rw [← List.dropLast_append_getLast? name' hname', ← List.dropLast_append_getLast? name' hname,
    hdir]

/-! ## Changes -/

/-- A map from files and bare keys with another value in one place. -/
def put (A : Path → String → Option Bytes) (path : Path) (b : String) (value : Option Bytes) :
    Path → String → Option Bytes :=
  Function.update A path (Function.update (A path) b value)

theorem put_apply (A : Path → String → Option Bytes) (path q : Path) (b b' : String)
    (value : Option Bytes) :
    put A path b value q b' = if q = path ∧ b' = b then value else A q b' := by
  unfold put
  by_cases hq : q = path
  · subst hq
    by_cases hb : b' = b
    · subst hb
      simp
    · simp [hb]
  · simp [hq]

/-- The values of some entries, one after the other. -/
def putAll (A : Path → String → Option Bytes) (path : Path) (entries : List SetEntry) :
    Path → String → Option Bytes :=
  entries.foldl (fun A e => put A path (bareKey e.key) (some e.value)) A

theorem putAll_eq_update (A : Path → String → Option Bytes) (path : Path)
    (entries : List SetEntry) :
    putAll A path entries = Function.update A path
      (entries.foldl (fun V e => Function.update V (bareKey e.key) (some e.value)) (A path)) := by
  unfold putAll
  induction entries generalizing A with
  | nil => exact (Function.update_eq_self path A).symm
  | cons e entries ih =>
    rw [List.foldl_cons, List.foldl_cons, ih, put, Function.update_self, Function.update_idem]

/-- The values of a map by bare key. -/
def values (map : SidecarMap) (b : String) : Option Bytes := mapValue map (names b)

section Maps
variable (map : SidecarMap)

theorem lookup_insertEntry_trusted (e : String × Bytes) (b : String) :
    (insertEntry map e).lookup (names b).1 = map.lookup (names b).1 := by
  unfold insertEntry
  rw [resolveKeyVariants_names]
  exact Finmap.lookup_insert_of_ne _ (names_fst_ne_snd b _)

/-- A new value is found unless there is one under the trusted name. -/
theorem values_insertEntry (e : String × Bytes)
    (htrusted : map.lookup (names (bareKey e.1)).1 = none) :
    values (insertEntry map e) = Function.update (values map) (bareKey e.1) (some e.2) := by
  funext b
  unfold values mapValue
  rw [lookup_insertEntry_trusted]
  by_cases hb : b = bareKey e.1
  · subst hb
    rw [htrusted, Function.update_self]
    simp [insertEntry, resolveKeyVariants_names, hexDecode_hexEncode]
  · rw [Function.update_of_ne hb, insertEntry, resolveKeyVariants_names,
      Finmap.lookup_insert_of_ne _ fun h => hb (names_snd_inj h)]

theorem values_foldl (entries : List (String × Bytes))
    (htrusted : ∀ e ∈ entries, map.lookup (names (bareKey e.1)).1 = none) :
    values (entries.foldl insertEntry map) =
      entries.foldl (fun A e => Function.update A (bareKey e.1) (some e.2)) (values map) := by
  induction entries generalizing map with
  | nil => rfl
  | cons e entries ih =>
    rw [List.foldl_cons, List.foldl_cons, ih, values_insertEntry map e (htrusted e (by simp))]
    intro e' he'
    rw [lookup_insertEntry_trusted]
    exact htrusted e' (List.mem_cons_of_mem e he')

theorem values_eraseKey (key : String) :
    values (eraseKey map key) = Function.update (values map) (bareKey key) none := by
  funext b
  unfold values mapValue eraseKey
  rw [resolveKeyVariants_names]
  by_cases hb : b = bareKey key
  · subst hb
    rw [Function.update_self, Finmap.lookup_erase,
      Finmap.lookup_erase_ne (names_fst_ne_snd _ _), Finmap.lookup_erase]
    rfl
  · have hfst : (names b).1 ≠ (names (bareKey key)).1 := fun h => hb (names_fst_inj h)
    have hsnd : (names b).2 ≠ (names (bareKey key)).2 := fun h => hb (names_snd_inj h)
    rw [Function.update_of_ne hb, Finmap.lookup_erase_ne (names_fst_ne_snd _ _),
      Finmap.lookup_erase_ne hfst, Finmap.lookup_erase_ne hsnd,
      Finmap.lookup_erase_ne (names_fst_ne_snd _ _).symm]

end Maps

section Effects
variable {s} {path : Path}

theorem xattrs_setXattr (name : String) (value : Option Bytes) (q : Path) (name' : String) :
    (s.setXattr path name value).xattrs q name' =
      if q = path ∧ name' = name then value else s.xattrs q name' :=
  put_apply s.xattrs path q name name' value

theorem sidecarMap_setSidecar {sp : Path} (hsp : getSidecarPath path = some sp)
    (content : Option (Option SidecarMap)) :
    (s.setSidecar sp content).sidecarMap =
      Function.update s.sidecarMap path (content.join.getD ∅) := by
  funext q
  by_cases hq : q = path
  · subst hq
    simp [sidecarMap, setSidecar, hsp]
  · rw [Function.update_of_ne hq]
    unfold sidecarMap setSidecar
    cases hsq : getSidecarPath q with
    | none => rfl
    | some sq =>
      have hne : sq ≠ sp := by
        rintro rfl
        exact hq (getSidecarPath_inj hsq hsp)
      simp [Function.update_of_ne hne]

/-- An attribute with the trusted name is what is found. -/
theorem find_setXattr_trusted (hfile : s.symlinkMetadata path = some false)
    (hflag : s.xattrUnsupported = false) (b : String) (value : Bytes) :
    (s.setXattr path (names b).1 (some value)).find = put s.find path b (some value) := by
  funext q b'
  rw [put_apply]
  have hside : (s.setXattr path (names b).1 (some value)).sidecarValue q b' = s.sidecarValue q b' :=
    rfl
  have hsnd := (names_fst_ne_snd b b').symm
  simp only [find, hside, xattrs_setXattr, hsnd, and_false, if_false]
  simp only [setXattr, hflag]
  by_cases hq : q = path
  · subst hq
    by_cases hb : b' = b
    · subst hb
      simp [hfile]
    · have hfst : (names b').1 ≠ (names b).1 := fun h => hb (names_fst_inj h)
      simp [hb, hfst]
  · simp [hq]

/-- One with the user name is found if there is none with the trusted name. -/
theorem find_setXattr_user (hfile : s.symlinkMetadata path = some false)
    (hflag : s.xattrUnsupported = false) {b : String} (value : Bytes)
    (htrusted : s.xattrs path (names b).1 = none) :
    (s.setXattr path (names b).2 (some value)).find = put s.find path b (some value) := by
  funext q b'
  rw [put_apply]
  have hside : (s.setXattr path (names b).2 (some value)).sidecarValue q b' = s.sidecarValue q b' :=
    rfl
  have hfst := names_fst_ne_snd b' b
  simp only [find, hside, xattrs_setXattr, hfst, and_false, if_false]
  simp only [setXattr, hflag]
  by_cases hq : q = path
  · subst hq
    by_cases hb : b' = b
    · subst hb
      simp [hfile, htrusted]
    · have hsnd : (names b').2 ≠ (names b).2 := fun h => hb (names_snd_inj h)
      simp [hb, hsnd]
  · simp [hq]

/-- Where only sidecars are read, a new map in one is what is found there. -/
theorem find_setSidecar (hfile : s.symlinkMetadata path = some false)
    (hflag : s.xattrUnsupported = true) {sp : Path} (hsp : getSidecarPath path = some sp)
    (map : SidecarMap) :
    (s.setSidecar sp (some (some map))).find = Function.update s.find path (values map) := by
  funext q b
  have hmap := congrFun (sidecarMap_setSidecar (s := s) hsp (some (some map))) q
  by_cases hq : q = path
  · subst hq
    rw [Function.update_self] at hmap ⊢
    simp only [find, sidecarValue, hmap]
    simp [setSidecar, hfile, hflag, values]
  · rw [Function.update_of_ne hq] at hmap ⊢
    simp only [find, sidecarValue, hmap]
    simp [setSidecar, hflag]

end Effects

end MetadataStore

end Foxing.Sidecar
