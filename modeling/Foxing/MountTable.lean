import Foxing.UnitArguments
import Foxing.Lib.Borders
import Foxing.Lib.FirstBest
import Foxing.Lib.Words

/-!
# Mount tables

Whether the target is mounted is read from one table of the kernel, and the number of its mount
from another. The first search takes any mount point other than the root that the text of the
path begins with; the second takes the longest one that contains the path. Neither undoes the
escapes with which the kernel writes a mount point.
-/
namespace Foxing.MountTable
open Foxing.Units (isWhitespace)
open LiveVersions (digits parseU64 parseU64_digits)
open Words (words IsWord)

/-! ## The two searches -/

/-- The lines of a text, without a carriage return at the end. -/
def lines (s : List Char) : List (List Char) :=
  (Words.lines '\n' s).map fun l => if l.getLast? = some '\r' then l.dropLast else l

def splitWhitespace : List Char → List (List Char) := words isWhitespace

/-- The path begins with the mount point, and ends with it or goes on with a slash. -/
def coversText (path mountPoint : List Char) : Bool :=
  mountPoint <+: path &&
    (path.length = mountPoint.length || path[mountPoint.length]? = some '/')

/-- The mount point of a line, unless it is the root. -/
def lineMountPoint (line : List Char) : Option (List Char) :=
  match splitWhitespace line with
  | _ :: mountPoint :: _ :: _ => if mountPoint = ['/'] then none else some mountPoint
  | _ => none

/-- The first mount point that is found for the path. -/
def findMountPoint (mounts path : List Char) : Option (List Char) :=
  (lines mounts).findSome? fun line => (lineMountPoint line).filter (coversText path)

/-- A table that cannot be read counts as one with the mount. -/
def isMountPresentGlobal (mounts : Option (List Char)) (path : List Char) : Bool :=
  match mounts with
  | none => true
  | some mounts => (findMountPoint mounts path).isSome

/-- The components of a path that is given as a text. -/
def components (text : List Char) : Path :=
  ((text.splitOn '/').filter fun c => c ≠ [] ∧ c ≠ ['.']).map String.ofList

def startsWith (canonical : Path) (mountPoint : List Char) : Bool :=
  mountPoint.head? = some '/' && components mountPoint <+: canonical

/-- The length of a mount point in bytes and the number of the mount. -/
abbrev Best := Option (ℕ × U64)

def improve (canonical : Path) (best : Best) (mountId : U64) (mountPoint : List Char) : Best :=
  if startsWith canonical mountPoint && best.all fun b => b.1 < Units.len mountPoint then
    some (Units.len mountPoint, mountId)
  else best

/-- A number that cannot be read ends the search without a result. -/
def bestLoop (canonical : Path) : Best → List (List Char) → Option Best
  | best, [] => some best
  | best, line :: rest =>
    match splitWhitespace line with
    | number :: _ :: _ :: _ :: mountPoint :: _ =>
      (parseU64 number).bind fun mountId =>
        bestLoop canonical (improve canonical best mountId mountPoint) rest
    | _ => bestLoop canonical best rest

def getMountIdFrom (mountinfo : Option (List Char)) (canonical : Option Path) : Option U64 :=
  canonical.bind fun canonical => mountinfo.bind fun mountinfo =>
    (bestLoop canonical none (lines mountinfo)).bind fun best => best.map Prod.snd

/-! ## What the kernel writes -/

/-- A field without white space. -/
abbrev Token := {w : List Char // IsWord isWhitespace w}

structure Mount where
  id : U64
  parent : Token
  device : Token
  root : Token
  point : Path
  options : Token
  optional : List Token
  source : Token
  fsType : Token
  superOptions : Token

def escapeChar (c : Char) : List Char :=
  if c = ' ' then ['\\', '0', '4', '0']
  else if c = '\t' then ['\\', '0', '1', '1']
  else if c = '\n' then ['\\', '0', '1', '2']
  else if c = '\\' then ['\\', '1', '3', '4']
  else [c]

def pointText (p : Path) : List Char := '/' :: ['/'].intercalate (p.map String.toList)

def writtenPoint (p : Path) : List Char := (pointText p).flatMap escapeChar

/-- Fields that follow, each behind a blank. -/
def behind (fields : List (List Char)) : List Char := fields.flatMap fun w => ' ' :: w

/-- The fields behind the mount point, in the table of mounts and in the other one. -/
def mountsFields (m : Mount) : List (List Char) := [m.fsType.1, m.options.1, ['0']]

def infoFields (m : Mount) : List (List Char) :=
  m.options.1 :: (m.optional.map Subtype.val ++ [['-'], m.fsType.1, m.source.1])

def mountsLine (m : Mount) : List Char :=
  m.source.1 ++ ' ' :: (writtenPoint m.point ++ behind (mountsFields m ++ [['0']]))

def infoLine (m : Mount) : List Char :=
  digits m.id.val ++ ' ' :: (m.parent.1 ++ ' ' :: (m.device.1 ++ ' ' :: (m.root.1 ++ ' ' ::
    (writtenPoint m.point ++ behind (infoFields m ++ [m.superOptions.1])))))

def mountsText (T : List Mount) : List Char := (T.map mountsLine).flatMap fun l => l ++ ['\n']

def infoText (T : List Mount) : List Char := (T.map infoLine).flatMap fun l => l ++ ['\n']

/-- What both searches take for the mount point: what is written, up to the first white space. -/
def seen (m : Mount) : List Char := (splitWhitespace (writtenPoint m.point)).headD []

/-- The line of the mount is found for the path. -/
def Found (path : List Char) (m : Mount) : Prop :=
  seen m ≠ ['/'] ∧ coversText path (seen m) = true

instance (path : List Char) (m : Mount) : Decidable (Found path m) :=
  inferInstanceAs (Decidable (_ ∧ _))

/-! ## What is read of a line -/

theorem blank_space : isWhitespace ' ' = true := by decide

theorem splitWhitespace_written (m : Mount) :
    ∃ more, splitWhitespace (writtenPoint m.point) = seen m :: more := by
  have hslash : writtenPoint m.point =
      '/' :: (['/'].intercalate (m.point.map String.toList)).flatMap escapeChar := rfl
  obtain ⟨w, ws, hwords⟩ := @Words.words_eq_cons _ isWhitespace '/' (by decide)
    ((['/'].intercalate (m.point.map String.toList)).flatMap escapeChar)
  rw [seen, splitWhitespace, hslash, hwords]
  exact ⟨ws, rfl⟩

theorem isWord_digits (n : ℕ) : IsWord isWhitespace (digits n) := by
  refine ⟨Nat.toDigits_ne_nil, fun c hc => ?_⟩
  have hdigit : c.isDigit = true := Nat.isDigit_of_mem_toDigits (by omega) (by omega) hc
  have hrange : 48 ≤ c.toNat ∧ c.toNat ≤ 57 := Char.isDigit_iff_toNat.mp hdigit
  simp only [isWhitespace, Bool.or_eq_false_iff, Bool.and_eq_false_iff, decide_eq_false_iff_not]
  omega

theorem isWord_singleton {c : Char} (hc : isWhitespace c = false) : IsWord isWhitespace [c] :=
  ⟨List.cons_ne_nil _ _, fun d hd => by rw [List.mem_singleton.mp hd, hc]⟩

theorem isWord_mountsFields {m : Mount} {w : List Char} (hw : w ∈ mountsFields m ++ [['0']]) :
    IsWord isWhitespace w := by
  simp only [mountsFields, List.mem_append, List.mem_cons, List.not_mem_nil, or_false] at hw
  rcases hw with (rfl | rfl | rfl) | rfl
  · exact m.fsType.2
  · exact m.options.2
  · exact isWord_singleton (by decide)
  · exact isWord_singleton (by decide)

theorem isWord_infoFields {m : Mount} {w : List Char}
    (hw : w ∈ infoFields m ++ [m.superOptions.1]) : IsWord isWhitespace w := by
  simp only [infoFields, List.mem_append, List.mem_cons, List.mem_map, List.not_mem_nil,
    or_false] at hw
  rcases hw with (rfl | ⟨t, -, rfl⟩ | rfl | rfl | rfl) | rfl
  · exact m.options.2
  · exact t.2
  · exact isWord_singleton (by decide)
  · exact m.fsType.2
  · exact m.source.2
  · exact m.superOptions.2

/-- The mount point and the fields behind it. -/
theorem splitWhitespace_point (m : Mount) {fields : List (List Char)}
    (hfields : ∀ w ∈ fields, IsWord isWhitespace w) :
    ∃ more, splitWhitespace (writtenPoint m.point ++ behind fields) =
      seen m :: (more ++ fields) := by
  obtain ⟨more, hwritten⟩ := splitWhitespace_written m
  refine ⟨more, ?_⟩
  rw [splitWhitespace, behind, Words.words_flatMap blank_space hfields]
  exact congrArg (· ++ fields) hwritten

theorem lineMountPoint_mountsLine (m : Mount) :
    lineMountPoint (mountsLine m) = if seen m = ['/'] then none else some (seen m) := by
  obtain ⟨more, hpoint⟩ := splitWhitespace_point m fun _ => isWord_mountsFields
  have hline : splitWhitespace (mountsLine m) =
      m.source.1 :: seen m :: (more ++ (mountsFields m ++ [['0']])) := by
    rw [← hpoint]
    exact Words.words_cons blank_space m.source.2 _
  rw [lineMountPoint, hline]
  cases more <;> rfl

theorem bestLoop_infoLine (canonical : Path) (best : Best) (m : Mount) (rest : List (List Char)) :
    bestLoop canonical best (infoLine m :: rest) =
      bestLoop canonical (improve canonical best m.id (seen m)) rest := by
  obtain ⟨more, hpoint⟩ := splitWhitespace_point m fun _ => isWord_infoFields
  have hline : splitWhitespace (infoLine m) = digits m.id.val :: m.parent.1 :: m.device.1 ::
      m.root.1 :: seen m :: (more ++ (infoFields m ++ [m.superOptions.1])) := by
    rw [← hpoint, splitWhitespace, infoLine, Words.words_cons blank_space (isWord_digits _),
      Words.words_cons blank_space m.parent.2, Words.words_cons blank_space m.device.2,
      Words.words_cons blank_space m.root.2]
  rw [bestLoop, hline]
  dsimp only
  rw [parseU64_digits, Option.bind_some]

/-! ## What is read of a table -/

theorem not_mem_of_isWord {w : List Char} (hw : IsWord isWhitespace w) : '\n' ∉ w := fun h =>
  absurd (hw.2 _ h) (by decide)

theorem not_mem_written (p : Path) : '\n' ∉ writtenPoint p := by
  intro h
  obtain ⟨c, -, hc⟩ := List.mem_flatMap.mp h
  unfold escapeChar at hc
  split_ifs at hc with hspace htab hnl hback
  · exact absurd hc (by decide)
  · exact absurd hc (by decide)
  · exact absurd hc (by decide)
  · exact absurd hc (by decide)
  · exact hnl (List.mem_singleton.mp hc).symm

theorem not_mem_behind {fields : List (List Char)} (h : ∀ w ∈ fields, IsWord isWhitespace w) :
    '\n' ∉ behind fields := by
  intro hnl
  obtain ⟨w, hw, hc⟩ := List.mem_flatMap.mp hnl
  rcases List.mem_cons.mp hc with hc | hc
  · cases hc
  · exact not_mem_of_isWord (h w hw) hc

theorem not_mem_cons_blank {w rest : List Char} (hw : IsWord isWhitespace w) (h : '\n' ∉ rest) :
    '\n' ∉ w ++ ' ' :: rest := by
  intro hnl
  rcases List.mem_append.mp hnl with hnl | hnl
  · exact not_mem_of_isWord hw hnl
  · rcases List.mem_cons.mp hnl with hnl | hnl
    · cases hnl
    · exact h hnl

/-- A line that ends with a field has no carriage return to take off. -/
theorem getLast?_behind {front : List Char} {fields : List (List Char)} {w : List Char}
    (hw : IsWord isWhitespace w) :
    (front ++ behind (fields ++ [w])).getLast? ≠ some '\r' := by
  intro h
  rw [behind, List.flatMap_append, List.flatMap_singleton, ← List.append_assoc,
    ← List.singleton_append, ← List.append_assoc, List.getLast?_append_of_ne_nil _ hw.1] at h
  exact absurd (hw.2 _ (List.mem_of_getLast? h)) (by decide)

theorem lines_flatMap {ls : List (List Char)}
    (hls : ∀ l ∈ ls, '\n' ∉ l ∧ l.getLast? ≠ some '\r') :
    lines (ls.flatMap fun l => l ++ ['\n']) = ls := by
  rw [lines, Words.lines_flatMap fun l hl => (hls l hl).1]
  refine (List.map_congr_left fun l hl => if_neg (hls l hl).2).trans (List.map_id ls)

theorem lines_mountsText (T : List Mount) : lines (mountsText T) = T.map mountsLine := by
  refine lines_flatMap fun l hl => ?_
  obtain ⟨m, -, rfl⟩ := List.mem_map.mp hl
  have hpoint : '\n' ∉ writtenPoint m.point ++ behind (mountsFields m ++ [['0']]) := fun h =>
    (List.mem_append.mp h).elim (not_mem_written _) (not_mem_behind fun _ => isWord_mountsFields)
  refine ⟨not_mem_cons_blank m.source.2 hpoint, ?_⟩
  rw [mountsLine, ← List.cons_append, ← List.append_assoc]
  exact getLast?_behind (isWord_singleton (by decide))

theorem lines_infoText (T : List Mount) : lines (infoText T) = T.map infoLine := by
  refine lines_flatMap fun l hl => ?_
  obtain ⟨m, -, rfl⟩ := List.mem_map.mp hl
  have hpoint : '\n' ∉ writtenPoint m.point ++ behind (infoFields m ++ [m.superOptions.1]) :=
    fun h => (List.mem_append.mp h).elim (not_mem_written _)
      (not_mem_behind fun _ => isWord_infoFields)
  refine ⟨not_mem_cons_blank (isWord_digits _) (not_mem_cons_blank m.parent.2
    (not_mem_cons_blank m.device.2 (not_mem_cons_blank m.root.2 hpoint))), ?_⟩
  rw [infoLine]
  simp only [← List.cons_append, ← List.append_assoc]
  exact getLast?_behind m.superOptions.2

/-! ## What the searches find -/

theorem found_eq (path : List Char) (m : Mount) :
    (lineMountPoint (mountsLine m)).filter (coversText path) =
      if Found path m then some (seen m) else none := by
  rw [lineMountPoint_mountsLine]
  by_cases hroot : seen m = ['/']
  · rw [if_pos hroot, if_neg fun h => h.1 hroot]
    rfl
  · rw [if_neg hroot]
    by_cases hcovers : coversText path (seen m) = true
    · rw [if_pos ⟨hroot, hcovers⟩, Option.filter_some_pos hcovers]
    · rw [if_neg fun h => hcovers h.2, Option.filter_some_neg (by simpa using hcovers)]

theorem findMountPoint_mountsText (T : List Mount) (path : List Char) :
    findMountPoint (mountsText T) path =
      T.findSome? fun m => if Found path m then some (seen m) else none := by
  rw [findMountPoint, lines_mountsText, List.findSome?_map]
  exact congrArg (fun f => T.findSome? f) (funext fun m => found_eq path m)

/-- The table counts as one with the mount exactly when some line is found. -/
theorem isMountPresentGlobal_mountsText (T : List Mount) (path : List Char) :
    isMountPresentGlobal (some (mountsText T)) path = true ↔ ∃ m ∈ T, Found path m := by
  rw [isMountPresentGlobal, findMountPoint_mountsText, List.findSome?_isSome_iff]
  constructor
  · rintro ⟨m, hm, hfound⟩
    refine ⟨m, hm, ?_⟩
    by_contra h
    rw [if_neg h] at hfound
    cases hfound
  · rintro ⟨m, hm, hfound⟩
    exact ⟨m, hm, by rw [if_pos hfound]; rfl⟩

/-- The mount counts in the other search. -/
def contains (canonical : Path) (m : Mount) : Bool := startsWith canonical (seen m)

def pointLen (m : Mount) : ℕ := Units.len (seen m)

/-- The other search keeps the first of the longest mount points. -/
theorem bestLoop_infoLines (canonical : Path) (before T : List Mount) :
    bestLoop canonical ((FirstBest.first (contains canonical) pointLen before).map
        fun m => (pointLen m, m.id)) (T.map infoLine) =
      some ((FirstBest.first (contains canonical) pointLen (before ++ T)).map
        fun m => (pointLen m, m.id)) := by
  induction T generalizing before with
  | nil => rw [List.map_nil, bestLoop, List.append_nil]
  | cons m T ih =>
    have himprove : improve canonical ((FirstBest.first (contains canonical) pointLen before).map
        fun m => (pointLen m, m.id)) m.id (seen m) =
          (FirstBest.first (contains canonical) pointLen (before ++ [m])).map
            fun m => (pointLen m, m.id) := by
      rw [FirstBest.first_concat, FirstBest.better, improve, Option.all_map]
      by_cases h : (contains canonical m &&
          (FirstBest.first (contains canonical) pointLen before).all
            fun b => pointLen b < pointLen m) = true
      · rw [if_pos h]
        exact if_pos h
      · rw [if_neg h]
        exact if_neg h
    rw [List.map_cons, bestLoop_infoLine, himprove, ih, List.append_assoc, List.singleton_append]

theorem getMountIdFrom_infoText (T : List Mount) (canonical : Path) :
    getMountIdFrom (some (infoText T)) (some canonical) =
      (FirstBest.first (contains canonical) pointLen T).map Mount.id := by
  have hloop : bestLoop canonical none (T.map infoLine) =
      some ((FirstBest.first (contains canonical) pointLen T).map fun m => (pointLen m, m.id)) :=
    bestLoop_infoLines canonical [] T
  rw [getMountIdFrom, Option.bind_some, Option.bind_some, lines_infoText, hloop, Option.bind_some,
    Option.map_map]
  rfl

/-! ## The covering mount -/

/-- No mount of the table has a longer mount point above the path. -/
def Covers (T : List Mount) (m : Mount) (path : List Char) : Prop :=
  m.point <+: components path ∧
    ∀ m' ∈ T, m'.point <+: components path → m'.point.length ≤ m.point.length

/-- The presence of a mount of a table decides, and both searches pick it out of the table. -/
structure Decides (path : List Char) (canonical : Option Path) (before : List Mount) (m : Mount)
    (after : List Mount) : Prop where
  listed : ∀ T, m ∈ T → isMountPresentGlobal (some (mountsText T)) path = true
  removed : isMountPresentGlobal (some (mountsText (before ++ after))) path = false
  same : ∃ m' ∈ before ++ m :: after,
    findMountPoint (mountsText (before ++ m :: after)) path = some (seen m') ∧
      getMountIdFrom (some (infoText (before ++ m :: after))) canonical = some m'.id

/-- The line of the mount is found and that of no other one, and above the canonical path the
mount is the first one that is seen at the longest mount point. -/
structure FoundAlone (path : List Char) (canonical : Option Path) (before : List Mount) (m : Mount)
    (after : List Mount) : Prop where
  own : Found path m
  alone : ∀ m' ∈ before ++ after, ¬Found path m'
  longest : ∃ p, canonical = some p ∧
    FirstBest.IsFirst (contains p) pointLen before m after

/-- Only the line of the mount is found, so that it is the one that is picked. -/
theorem findMountPoint_alone {path : List Char} {before after : List Mount} {m : Mount}
    (hown : Found path m) (halone : ∀ m' ∈ before ++ after, ¬Found path m') :
    findMountPoint (mountsText (before ++ m :: after)) path = some (seen m) := by
  have hbefore : (before.findSome? fun m => if Found path m then some (seen m) else none) =
      none := by
    rw [List.findSome?_eq_none_iff]
    exact fun m' hm' => if_neg (halone m' (List.mem_append_left _ hm'))
  rw [findMountPoint_mountsText, List.findSome?_append, hbefore, Option.none_or,
    List.findSome?_cons, if_pos hown]

/-- A mount of a table has one place in it, by its number. -/
theorem split_unique {before after before' after' : List Mount} {m x : Mount}
    (hids : ((before ++ m :: after).map Mount.id).Nodup) (hid : x.id = m.id)
    (h : before ++ m :: after = before' ++ x :: after') :
    before = before' ∧ m = x ∧ after = after' := by
  have hxmem : x ∈ before ++ m :: after := h ▸ List.mem_append_right _ List.mem_cons_self
  have hx : x = m := List.inj_on_of_nodup_map hids hxmem
    (List.mem_append_right _ List.mem_cons_self) hid
  subst hx
  have hnodup := hids.of_map _
  have hbefore : x ∉ before := fun hx =>
    (List.nodup_append.mp hnodup).2.2 x hx x List.mem_cons_self rfl
  have hafter : x ∉ after := (List.nodup_cons.mp (List.nodup_append.mp hnodup).2.1).1
  exact (List.append_cons_inj_of_notMem hbefore hafter).mp h

theorem longest_of_getMountIdFrom {canonical : Option Path} {before after : List Mount} {m : Mount}
    (hids : ((before ++ m :: after).map Mount.id).Nodup)
    (hid : getMountIdFrom (some (infoText (before ++ m :: after))) canonical = some m.id) :
    ∃ p, canonical = some p ∧ FirstBest.IsFirst (contains p) pointLen before m after := by
  cases canonical with
  | none => cases hid
  | some p =>
    rw [getMountIdFrom_infoText] at hid
    obtain ⟨x, hx, hxid⟩ := Option.map_eq_some_iff.mp hid
    obtain ⟨before', after', hsplit, hfirst⟩ := (FirstBest.first_spec _).1 x hx
    obtain ⟨rfl, rfl, rfl⟩ := split_unique hids hxid hsplit
    exact ⟨p, rfl, hfirst⟩

theorem decides_iff {path : List Char} {canonical : Option Path} {before after : List Mount}
    {m : Mount} (hids : ((before ++ m :: after).map Mount.id).Nodup) :
    Decides path canonical before m after ↔ FoundAlone path canonical before m after := by
  constructor
  · rintro ⟨hlisted, hremoved, m', hm', hfind, hid⟩
    have hown : Found path m := by
      obtain ⟨x, hx, hfound⟩ :=
        (isMountPresentGlobal_mountsText [m] path).mp (hlisted [m] List.mem_cons_self)
      rwa [List.mem_singleton.mp hx] at hfound
    have halone : ∀ x ∈ before ++ after, ¬Found path x := by
      intro x hx hfound
      have hpresent := (isMountPresentGlobal_mountsText (before ++ after) path).mpr ⟨x, hx, hfound⟩
      rw [hremoved] at hpresent
      cases hpresent
    refine ⟨hown, halone, ?_⟩
    rw [findMountPoint_alone hown halone] at hfind
    have hseen : seen m = seen m' := Option.some.inj hfind
    have heq : m' = m := by
      by_contra hne
      have hother : m' ∈ before ++ after := by
        rcases List.mem_append.mp hm' with hm' | hm'
        · exact List.mem_append_left _ hm'
        · exact List.mem_append_right _ ((List.mem_cons.mp hm').resolve_left hne)
      exact halone m' hother ⟨hseen ▸ hown.1, hseen ▸ hown.2⟩
    subst heq
    exact longest_of_getMountIdFrom hids hid
  · rintro ⟨hown, halone, p, rfl, hfirst⟩
    refine ⟨fun T hm => (isMountPresentGlobal_mountsText T path).mpr ⟨m, hm, hown⟩, ?_, m,
      List.mem_append_right _ List.mem_cons_self, findMountPoint_alone hown halone, ?_⟩
    · rw [Bool.eq_false_iff]
      intro hpresent
      obtain ⟨x, hx, hfound⟩ := (isMountPresentGlobal_mountsText _ path).mp hpresent
      exact halone x hx hfound
    · rw [getMountIdFrom_infoText, FirstBest.first_of_isFirst hfirst]
      rfl

/-- For a table and a path the covering mounts decide exactly when each is found alone. -/
theorem presence_decided_iff (T : List Mount) (hids : (T.map Mount.id).Nodup) (path : List Char)
    (canonical : Option Path) :
    (∀ before m after, T = before ++ m :: after → Covers T m path →
      Decides path canonical before m after) ↔
    ∀ before m after, T = before ++ m :: after → Covers T m path →
      FoundAlone path canonical before m after := by
  constructor
  · rintro h before m after rfl hcovers
    exact (decides_iff hids).mp (h before m after rfl hcovers)
  · rintro h before m after rfl hcovers
    exact (decides_iff hids).mpr (h before m after rfl hcovers)

/-- A mount whose other fields do not matter. -/
def mountAt (id : U64) (point : Path) : Mount :=
  let w : Token := ⟨['x'], isWord_singleton (by decide)⟩
  ⟨id, w, w, w, point, w, [], w, w, w⟩

/-- A mount beside another one, both below the root, is found alone. -/
theorem presence_decided_beside :
    Decides ['/', 'm', '/', 't'] (some ["m", "t"]) [mountAt 1 [], mountAt 2 ["home"]]
      (mountAt 3 ["m"]) [] := by
  refine (presence_decided_iff [mountAt 1 [], mountAt 2 ["home"], mountAt 3 ["m"]] (by decide)
    ['/', 'm', '/', 't'] (some ["m", "t"])).mpr (fun before m after h hcovers => ?_) _ _ [] rfl
      ⟨by decide +kernel, fun m' hm' _ => ?_⟩
  · have hlongest := hcovers.2 (mountAt 3 ["m"]) (by simp) (by decide +kernel)
    rcases before with _ | ⟨x, _ | ⟨y, _ | ⟨z, before⟩⟩⟩
    · obtain ⟨rfl, rfl⟩ := List.cons.inj h
      exact absurd hlongest (by decide)
    · obtain ⟨-, hrest⟩ := List.cons.inj h
      obtain ⟨rfl, rfl⟩ := List.cons.inj hrest
      exact absurd hcovers.1 (by decide +kernel)
    · obtain ⟨rfl, hrest⟩ := List.cons.inj h
      obtain ⟨rfl, hlast⟩ := List.cons.inj hrest
      obtain ⟨rfl, rfl⟩ := List.cons.inj hlast
      exact ⟨by decide +kernel, by decide +kernel, _, rfl, by decide +kernel, by decide +kernel,
        fun x hx => absurd hx List.not_mem_nil⟩
    · have hlength := congrArg List.length h
      simp at hlength
  · simp only [List.mem_cons, List.not_mem_nil, or_false] at hm'
    rcases hm' with rfl | rfl | rfl <;> decide

/-- When a mount below another one is removed, the other one is still found. -/
theorem nested_mount_found :
    ¬∀ (T : List Mount) (path : List Char) (canonical : Option Path), (T.map Mount.id).Nodup →
      ∀ before m after, T = before ++ m :: after → Covers T m path →
        Decides path canonical before m after := by
  intro h
  have hdecides := h [mountAt 1 [], mountAt 2 ["m"], mountAt 3 ["m", "d"]]
    ['/', 'm', '/', 'd', '/', 't'] (some ["m", "d", "t"]) (by decide)
    [mountAt 1 [], mountAt 2 ["m"]] (mountAt 3 ["m", "d"]) [] rfl ⟨by decide +kernel, ?_⟩
  · have hpresent : isMountPresentGlobal
        (some (mountsText [mountAt 1 [], mountAt 2 ["m"]])) ['/', 'm', '/', 'd', '/', 't'] = true :=
      (isMountPresentGlobal_mountsText _ _).mpr ⟨mountAt 2 ["m"], by simp, by decide +kernel⟩
    exact absurd (hpresent.symm.trans hdecides.removed) (by decide)
  · intro m' hm' _
    simp only [List.mem_cons, List.not_mem_nil, or_false] at hm'
    rcases hm' with rfl | rfl | rfl <;> decide

/-! ## Plain names -/

/-- Names without white space and backslashes, so that they are written as they are. -/
def IsPlain (p : Path) : Prop :=
  ∀ c ∈ p, c ≠ "" ∧ ∀ x ∈ c.toList, x ≠ '/' ∧ x ≠ '\\' ∧ isWhitespace x = false

theorem plain_pointText {p : Path} (hp : IsPlain p) {x : Char} (hx : x ∈ pointText p) :
    x ≠ '\\' ∧ isWhitespace x = false := by
  have hslash : '/' ≠ '\\' ∧ isWhitespace '/' = false := by decide
  rcases List.mem_cons.mp hx with rfl | hx
  · exact hslash
  · rcases Borders.mem_join hx with rfl | ⟨c, hc, hx⟩
    · exact hslash
    · obtain ⟨name, hname, rfl⟩ := List.mem_map.mp hc
      exact ((hp name hname).2 x hx).2

theorem escapeChar_of_plain {x : Char} (hx : x ≠ '\\' ∧ isWhitespace x = false) :
    escapeChar x = [x] := by
  have hne : x ≠ ' ' ∧ x ≠ '\t' ∧ x ≠ '\n' := by
    refine ⟨?_, ?_, ?_⟩ <;> rintro rfl <;> exact absurd hx.2 (by decide)
  rw [escapeChar, if_neg hne.1, if_neg hne.2.1, if_neg hne.2.2, if_neg hx.1]

theorem seen_of_plain {m : Mount} (hm : IsPlain m.point) : seen m = pointText m.point := by
  have hwritten : ∀ s : List Char, (∀ x ∈ s, escapeChar x = [x]) → s.flatMap escapeChar = s := by
    intro s hs
    induction s with
    | nil => rfl
    | cons x s ih =>
      rw [List.flatMap_cons, hs x List.mem_cons_self,
        ih fun y hy => hs y (List.mem_cons_of_mem x hy)]
      rfl
  have hword : IsWord isWhitespace (pointText m.point) :=
    ⟨List.cons_ne_nil _ _, fun x hx => (plain_pointText hm hx).2⟩
  rw [seen, splitWhitespace, writtenPoint,
    hwritten _ fun x hx => escapeChar_of_plain (plain_pointText hm hx), Words.words_of_isWord hword]
  rfl

theorem coversText_iff (path mountPoint : List Char) :
    coversText path mountPoint = true ↔
      ∃ after, path = mountPoint ++ after ∧ Borders.Closes '/' after := by
  rw [coversText, Bool.and_eq_true, decide_eq_true_eq, Bool.or_eq_true, decide_eq_true_eq,
    decide_eq_true_eq]
  constructor
  · rintro ⟨⟨after, rfl⟩, hborder⟩
    refine ⟨after, rfl, ?_⟩
    rw [List.length_append, List.getElem?_append_right le_rfl, Nat.sub_self] at hborder
    rcases hborder with hlen | hslash
    · exact .inl (List.length_eq_zero_iff.mp (by omega))
    · cases after with
      | nil => cases hslash
      | cons x rest => exact .inr ⟨rest, congrArg (· :: rest) (Option.some.inj hslash)⟩
  · rintro ⟨after, rfl, hborder⟩
    refine ⟨List.prefix_append _ _, ?_⟩
    rcases hborder with rfl | ⟨rest, rfl⟩
    · exact .inl (by rw [List.append_nil])
    · exact .inr (by rw [List.getElem?_append_right le_rfl, Nat.sub_self]; rfl)

/-- Under plain names a line is found when its mount point is an ancestor of the path other than
the root. -/
theorem found_iff_of_plain {m : Mount} {p : Path} (hm : IsPlain m.point) (hp : IsPlain p) :
    Found (pointText p) m ↔ m.point ≠ [] ∧ m.point <+: p := by
  have hparts : ∀ {q : Path}, IsPlain q → ∀ c ∈ q.map String.toList, c ≠ [] ∧ '/' ∉ c := by
    intro q hq c hc
    obtain ⟨name, hname, rfl⟩ := List.mem_map.mp hc
    exact ⟨fun h => (hq name hname).1 (String.toList_eq_nil_iff.mp h),
      fun h => ((hq name hname).2 '/' h).1 rfl⟩
  have hroot : seen m ≠ ['/'] ↔ m.point ≠ [] := by
    rw [seen_of_plain hm]
    refine not_congr ⟨fun h => ?_, fun h => by rw [h]; rfl⟩
    have hnone : ∀ c ∈ ([] : List (List Char)), c ≠ [] ∧ '/' ∉ c := fun c hc =>
      absurd hc List.not_mem_nil
    exact List.map_eq_nil_iff.mp (Borders.join_inj (hparts hm) hnone (List.cons.inj h).2)
  rw [Found, hroot, coversText_iff, seen_of_plain hm]
  refine and_congr_right fun hne => ?_
  have hborder : (∃ after, pointText p = pointText m.point ++ after ∧ Borders.Closes '/' after) ↔
      ∃ after, ['/'].intercalate (p.map String.toList) =
        ['/'].intercalate (m.point.map String.toList) ++ after ∧ Borders.Closes '/' after := by
    refine exists_congr fun after => and_congr_left fun _ => ?_
    rw [pointText, pointText, List.cons_append, List.cons.injEq, eq_self_iff_true, true_and]
  rw [hborder, Borders.leading_iff fun c hc => (hparts hp c hc).2]
  constructor
  · rintro ⟨front, hfront, -, hjoin⟩
    obtain rfl := Borders.join_inj (fun c hc => hparts hp c (hfront.subset hc)) (hparts hm) hjoin
    exact (List.prefix_map_iff_of_injective fun _ _ => String.toList_injective).mp hfront
  · intro h
    refine ⟨m.point.map String.toList, h.map _, fun hnil => ?_, rfl⟩
    exact absurd (List.map_eq_nil_iff.mp hnil) hne

/-- A file below a mount point. -/
theorem exports_found : Found (pointText ["srv", "exports", "a"])
    (mountAt 5 ["srv", "exports"]) := by
  have hplain : IsPlain ["srv", "exports", "a"] := by simp [IsPlain, isWhitespace]
  have hpoint : IsPlain ["srv", "exports"] := by simp [IsPlain, isWhitespace]
  exact (found_iff_of_plain hpoint hplain).mpr ⟨by decide, by decide⟩

end Foxing.MountTable
