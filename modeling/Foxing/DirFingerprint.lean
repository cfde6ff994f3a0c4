import Mathlib.Data.String.Basic
import Foxing.DirHash
import Foxing.Lib.Frames

/-!
# What a directory hash tells

The hash of a directory is that of its children in the order of their names, each as its
name, a colon and its own hash. Neither the length of a name nor the end of the list is
written, and a name may have colons in it.
-/
namespace Foxing.DirFingerprint

/-- A hash of 32 bytes. -/
abbrev Hash := {h : Bytes // h.length = 32}

abbrev NamedHash := String × Hash

def sortByName (children : List NamedHash) : List NamedHash :=
  children.insertionSort fun a b => a.1 ≤ b.1

/-- What is hashed for one child after the other. -/
def update (children : List NamedHash) : Bytes :=
  children.flatMap fun c => DirHash.nameBytes c.1 ++ [58] ++ c.2.val

def computeDirHash (blake3 : Bytes → Bytes) (children : List NamedHash) : Bytes :=
  blake3 (update (sortByName children))

section Children
variable {blake3 : Bytes → Bytes}

def namedHash (h32 : ∀ b, (blake3 b).length = 32) (c : Child) : NamedHash :=
  (c.name, ⟨DirHash.childHash blake3 c, h32 _⟩)

/-- The hash of a directory is the one of its children with their hashes. -/
theorem computeDirHash_children (h32 : ∀ b, (blake3 b).length = 32) (source : SourceTree)
    (dir : Path) :
    computeDirHash blake3 ((DirHash.children source dir).map (namedHash h32)) =
      DirHash.computeDirHash blake3 (DirHash.children source dir) := by
  have hsorted : (DirHash.children source dir).Pairwise fun a b => a.name ≤ b.name :=
    List.pairwise_insertionSort _ _
  have hnamed : ((DirHash.children source dir).map (namedHash h32)).Pairwise
      fun a b => a.1 ≤ b.1 := List.pairwise_map.mpr hsorted
  rw [computeDirHash, sortByName, hnamed.insertionSort_eq, update, List.flatMap_map]
  rfl

end Children

/-! ## Names and order -/

section Names
variable {A B : List NamedHash}

theorem nameBytes_injective : Function.Injective DirHash.nameBytes := by
  intro a b h
  have hbytes : a.toUTF8.data.toList = b.toUTF8.data.toList :=
    List.map_injective_iff.mpr (fun x y hxy => UInt8.toFin_inj.mp hxy) h
  exact String.toByteArray_inj.mp (ByteArray.ext (Array.toList_inj.mp hbytes))

/-- Children with different names have one order. -/
theorem sortByName_eq_iff (hA : (A.map Prod.fst).Nodup) :
    sortByName A = sortByName B ↔ A.Perm B := by
  have hpermA : (sortByName A).Perm A := List.perm_insertionSort _ _
  have hpermB : (sortByName B).Perm B := List.perm_insertionSort _ _
  constructor
  · intro h
    exact hpermA.symm.trans ((List.Perm.of_eq h).trans hpermB)
  · intro h
    have hperm := hpermA.trans (h.trans hpermB.symm)
    refine List.Perm.eq_of_pairwise (fun a b ha hb hab hba => ?_)
      (List.pairwise_insertionSort _ _) (List.pairwise_insertionSort _ _) hperm
    exact List.inj_on_of_nodup_map hA (hpermA.subset ha) (hpermA.subset (hperm.symm.subset hb))
      (le_antisymm hab hba)

end Names

/-! ## What is hashed -/

section Hashed
variable {A B : List NamedHash}

theorem update_eq_frames (children : List NamedHash) :
    update children =
      Frames.frames (fun c : NamedHash => DirHash.nameBytes c.1) (fun c => c.2.val) 58 children := by
  refine List.flatMap_congr fun c _ => ?_
  rw [List.append_assoc, Frames.frame]
  rfl

/-- Where the children first differ in the order of their names, a name of the second list is one of
the first list with a colon and more, and the same bytes follow. -/
def RunsOn (A B : List NamedHash) : Prop :=
  ∃ pre a rest b rest', sortByName A = pre ++ a :: rest ∧ sortByName B = pre ++ b :: rest' ∧
    ∃ r, DirHash.nameBytes b.1 = DirHash.nameBytes a.1 ++ 58 :: r ∧
      a.2.val ++ update rest = r ++ 58 :: (b.2.val ++ update rest')

theorem runsOn_iff : RunsOn A B ↔
    Frames.RunsOn (fun c : NamedHash => DirHash.nameBytes c.1) (fun c => c.2.val) 58 (sortByName A)
      (sortByName B) := by
  simp only [RunsOn, Frames.RunsOn, update_eq_frames]

theorem RunsOn.update_eq (h : RunsOn A B) : update (sortByName A) = update (sortByName B) := by
  rw [update_eq_frames, update_eq_frames]
  exact (runsOn_iff.mp h).frames_eq

/-- What is hashed tells the children, or a name runs on into the hash of another child. -/
theorem sortByName_eq_or_runsOn (h : update (sortByName A) = update (sortByName B)) :
    sortByName A = sortByName B ∨ RunsOn A B ∨ RunsOn B A := by
  rw [update_eq_frames, update_eq_frames] at h
  rw [runsOn_iff, runsOn_iff]
  refine Frames.eq_or_runsOn (fun c => c.2.property) (fun a b hname hhash => ?_) h
  exact Prod.ext (nameBytes_injective hname) (Subtype.ext hhash)

variable {blake3 : Bytes → Bytes}

/-- Without collisions of the hash function, the hashes are those of the same children only,
unless a name runs on. The hash of a directory of a source tree is one of these
(`computeDirHash_children`). -/
theorem computeDirHash_eq_iff_perm_iff (hA : (A.map Prod.fst).Nodup)
    (hinj : Set.InjOn blake3 {update (sortByName A), update (sortByName B)}) :
    (computeDirHash blake3 A = computeDirHash blake3 B ↔ A.Perm B) ↔
      ¬ RunsOn A B ∧ ¬ RunsOn B A := by
  rw [← sortByName_eq_iff hA]
  constructor
  · intro h
    refine ⟨fun hruns => ?_, fun hruns => ?_⟩
    · exact (runsOn_iff.mp hruns).ne (h.mp (congrArg blake3 hruns.update_eq))
    · exact (runsOn_iff.mp hruns).ne (h.mp (congrArg blake3 hruns.update_eq.symm)).symm
  · rintro ⟨hAB, hBA⟩
    refine ⟨fun h => ?_, fun h => by rw [computeDirHash, computeDirHash, h]⟩
    have hupdate := hinj (.inl rfl) (.inr rfl) h
    exact (sortByName_eq_or_runsOn hupdate).resolve_right (not_or.mpr ⟨hAB, hBA⟩)

end Hashed

/-! ## A name with a colon -/

/-- A hash all of whose bytes are the same. -/
def sampleHash (b : Fin 256) : Hash := ⟨List.replicate 32 b, List.length_replicate⟩

/-- Two children. -/
def twoChildren : List NamedHash := [("a", sampleHash 120), ("b", sampleHash 7)]

/-- One child, with the hash of the first one in its name. -/
def oneChild : List NamedHash := [("a:xxxxxxxxxxxxxxxxxxxxxxxxxxxxxxxxb", sampleHash 7)]

theorem twoChildren_hash :
    (twoChildren.map Prod.fst).Nodup ∧ (oneChild.map Prod.fst).Nodup ∧
      (∀ blake3, computeDirHash blake3 twoChildren = computeDirHash blake3 oneChild) ∧
      ¬ twoChildren.Perm oneChild := by
  refine ⟨by decide, by decide, fun blake3 => ?_, fun h => ?_⟩
  · have hupdate : update (sortByName twoChildren) = update (sortByName oneChild) := by
      decide +kernel
    rw [computeDirHash, hupdate, computeDirHash]
  · have hlen := h.length_eq
    revert hlen
    decide

/-- A function that tells contents of different lengths. -/
def lengthOnly (b : Bytes) : Bytes := Bytes.ofNat 32 b.length

/-- Two children, and the first of them alone. -/
theorem twoChildren_and_one :
    (computeDirHash lengthOnly twoChildren = computeDirHash lengthOnly (twoChildren.take 1) ↔
        twoChildren.Perm (twoChildren.take 1)) ↔
      ¬ RunsOn twoChildren (twoChildren.take 1) ∧ ¬ RunsOn (twoChildren.take 1) twoChildren :=
  computeDirHash_eq_iff_perm_iff (by decide)
    (Set.injOn_pair.mpr fun h => absurd h (by decide +kernel))

end Foxing.DirFingerprint
