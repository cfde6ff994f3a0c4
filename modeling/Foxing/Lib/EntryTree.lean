import Mathlib.Data.List.Induction
import Mathlib.Tactic.Common

/-!
# Trees of named entries

Directories with named entries that lead to nodes; a path is followed from the
root, one entry after the other. Nodes other than directories may have several
entries, directories have one. An entry that leads to a node without entries of
its own can be changed without any other path noticing.
-/

@[ext] structure EntryTree (ν κ : Type*) where
  root : ν
  entry : ν → κ → Option ν
  isDir : ν → Bool

namespace EntryTree
variable {ν κ : Type*}

/-- The node that a path leads to. -/
def walk (T : EntryTree ν κ) : ν → List κ → Option ν
  | i, [] => some i
  | i, n :: ns => (T.entry i n).bind fun j => T.walk j ns

def find (T : EntryTree ν κ) (p : List κ) : Option ν := T.walk T.root p

/-- Nothing lies below the node. -/
def Leaf (T : EntryTree ν κ) (i : ν) : Prop := ∀ n, T.entry i n = none

@[simp] theorem find_nil (T : EntryTree ν κ) : T.find [] = some T.root := rfl

theorem walk_concat (T : EntryTree ν κ) (i : ν) (p : List κ) (n : κ) :
    T.walk i (p ++ [n]) = (T.walk i p).bind fun d => T.entry d n := by
  induction p generalizing i with
  | nil =>
    simp only [List.nil_append, walk, Option.bind_some]
    cases T.entry i n <;> rfl
  | cons m p ih =>
    simp only [List.cons_append, walk, Option.bind_assoc]
    exact congrArg _ (funext fun j => ih j)

theorem find_concat (T : EntryTree ν κ) (p : List κ) (n : κ) :
    T.find (p ++ [n]) = (T.find p).bind fun d => T.entry d n :=
  T.walk_concat T.root p n

theorem find_concat_of_find {T : EntryTree ν κ} {p : List κ} {d : ν} (h : T.find p = some d)
    (n : κ) : T.find (p ++ [n]) = T.entry d n := by
  rw [find_concat, h, Option.bind_some]

/-- What is found below the root is found by an entry. -/
theorem exists_entry_of_find {T : EntryTree ν κ} {p : List κ} {i : ν} (h : T.find p = some i)
    (hroot : i ≠ T.root) : ∃ q d n, p = q ++ [n] ∧ T.find q = some d ∧ T.entry d n = some i := by
  induction p using List.reverseRecOn with
  | nil => exact absurd (Option.some.inj h).symm hroot
  | append_singleton q n _ =>
    rw [find_concat] at h
    obtain ⟨d, hd, hentry⟩ := Option.bind_eq_some_iff.mp h
    exact ⟨q, d, n, rfl, hd, hentry⟩

/-! ## Well-formed trees -/

/-- Only directories have entries, a directory has at most one entry that leads to it,
and none leads to the root. -/
structure WellFormed (T : EntryTree ν κ) : Prop where
  root_isDir : T.isDir T.root = true
  dir_of_entry : ∀ {d n i}, T.entry d n = some i → T.isDir d = true
  parent_unique : ∀ {d n d' n' i}, T.isDir i = true → T.entry d n = some i →
    T.entry d' n' = some i → d = d' ∧ n = n'
  root_no_entry : ∀ {d n}, T.entry d n ≠ some T.root

/-- A directory has one path. -/
theorem WellFormed.path_unique {T : EntryTree ν κ} (h : T.WellFormed) {p q : List κ} {d : ν}
    (hdir : T.isDir d = true) (hp : T.find p = some d) (hq : T.find q = some d) : p = q := by
  induction p using List.reverseRecOn generalizing q d with
  | nil =>
    by_cases hnil : q = []
    · exact hnil.symm
    · obtain rfl : T.root = d := Option.some.inj hp
      rw [← List.dropLast_concat_getLast hnil, find_concat] at hq
      obtain ⟨e, -, hentry⟩ := Option.bind_eq_some_iff.mp hq
      exact absurd hentry h.root_no_entry
  | append_singleton p n ih =>
    rw [find_concat] at hp
    obtain ⟨e, he, hentry⟩ := Option.bind_eq_some_iff.mp hp
    have hroot : d ≠ T.root := by
      rintro rfl
      exact h.root_no_entry hentry
    obtain ⟨q', e', m, rfl, he', hentry'⟩ := exists_entry_of_find hq hroot
    obtain ⟨rfl, rfl⟩ := h.parent_unique hdir hentry hentry'
    rw [ih (h.dir_of_entry hentry) he he']

/-! ## Changing the kind of a node -/

section Kinds
variable [DecidableEq ν] {T : EntryTree ν κ} {i : ν}

def setKind (i : ν) (dir : Bool) (T : EntryTree ν κ) : EntryTree ν κ :=
  { T with isDir := Function.update T.isDir i dir }

@[simp] theorem setKind_root (dir : Bool) : (T.setKind i dir).root = T.root := rfl

@[simp] theorem setKind_entry (dir : Bool) : (T.setKind i dir).entry = T.entry := rfl

theorem setKind_isDir (dir : Bool) (j : ν) :
    (T.setKind i dir).isDir j = if j = i then dir else T.isDir j :=
  Function.update_apply ..

theorem find_setKind (dir : Bool) (p : List κ) : (T.setKind i dir).find p = T.find p := by
  induction p using List.reverseRecOn with
  | nil => rfl
  | append_singleton p m ih => rw [find_concat, find_concat, ih, setKind_entry]

/-- The kind of a node that is in use nowhere can be chosen. -/
theorem WellFormed.setKind (h : T.WellFormed) (hroot : i ≠ T.root)
    (hin : ∀ d n, T.entry d n ≠ some i) (hout : T.Leaf i) (dir : Bool) :
    (T.setKind i dir).WellFormed where
  root_isDir := by
    rw [setKind_isDir, setKind_root, if_neg hroot.symm]
    exact h.root_isDir
  dir_of_entry := by
    intro d n j hentry
    have hne : d ≠ i := by
      rintro rfl
      rw [setKind_entry, hout n] at hentry
      cases hentry
    rw [setKind_isDir, if_neg hne]
    exact h.dir_of_entry hentry
  parent_unique := by
    intro d n d' n' j hdir hentry hentry'
    have hne : j ≠ i := by
      rintro rfl
      exact hin d n hentry
    rw [setKind_isDir, if_neg hne] at hdir
    exact h.parent_unique hdir hentry hentry'
  root_no_entry := h.root_no_entry

end Kinds

/-! ## Changing an entry -/

section Entries
variable [DecidableEq ν] [DecidableEq κ] {T : EntryTree ν κ} {d : ν} {n : κ} {v : Option ν}

def setEntry (d : ν) (n : κ) (v : Option ν) (T : EntryTree ν κ) : EntryTree ν κ :=
  { T with entry := fun e m => if e = d ∧ m = n then v else T.entry e m }

@[simp] theorem setEntry_root : (T.setEntry d n v).root = T.root := rfl

@[simp] theorem setEntry_isDir : (T.setEntry d n v).isDir = T.isDir := rfl

theorem setEntry_entry (e : ν) (m : κ) :
    (T.setEntry d n v).entry e m = if e = d ∧ m = n then v else T.entry e m := rfl

theorem setEntry_self (T : EntryTree ν κ) (d : ν) (n : κ) :
    T.setEntry d n (T.entry d n) = T := by
  refine EntryTree.ext rfl ?_ rfl
  funext e m
  rw [setEntry_entry]
  split_ifs with h
  · rw [h.1, h.2]
  · rfl

/-- An entry that leads to nothing or to a leaf, before and after, is the only path that
changes. -/
theorem find_setEntry {P : List κ} (hd : T.find P = some d)
    (hunique : ∀ q, T.find q = some d → q = P) (hold : ∀ i, T.entry d n = some i → T.Leaf i)
    (hnew : ∀ i, v = some i → T.Leaf i ∧ i ≠ d) (q : List κ) :
    (T.setEntry d n v).find q = if q = P ++ [n] then v else T.find q := by
  have hbelow : ∀ m, T.find (P ++ [n] ++ [m]) = none := by
    intro m
    rw [find_concat, find_concat_of_find hd]
    cases hentry : T.entry d n with
    | none => rfl
    | some i => exact hold i hentry m
  induction q using List.reverseRecOn with
  | nil => simp
  | append_singleton q m ih =>
    rw [find_concat, ih]
    by_cases hq : q = P ++ [n]
    · subst hq
      rw [if_pos rfl, if_neg (by simp), hbelow]
      cases hv : v with
      | none => rfl
      | some i =>
        obtain ⟨hleaf, hne⟩ := hnew i hv
        rw [Option.bind_some, setEntry_entry, if_neg fun h => hne h.1, hleaf m]
    · rw [if_neg hq]
      by_cases hlast : q ++ [m] = P ++ [n]
      · obtain ⟨rfl, hmn⟩ := List.append_inj' hlast rfl
        obtain rfl : m = n := by simpa using hmn
        rw [hd, Option.bind_some, setEntry_entry, if_pos ⟨rfl, rfl⟩, if_pos rfl]
      · rw [if_neg hlast, find_concat]
        refine Option.bind_congr fun e he => ?_
        rw [setEntry_entry, if_neg]
        rintro ⟨rfl, rfl⟩
        exact hlast (by rw [hunique q he])

theorem WellFormed.setEntry (h : T.WellFormed) (hd : T.isDir d = true)
    (hv : ∀ i, v = some i → i ≠ T.root ∧ (T.isDir i = true → ∀ e m, T.entry e m = some i →
      e = d ∧ m = n)) : (T.setEntry d n v).WellFormed where
  root_isDir := h.root_isDir
  dir_of_entry := by
    intro e m i hentry
    rw [setEntry_entry] at hentry
    split_ifs at hentry with heq
    · exact heq.1 ▸ hd
    · exact h.dir_of_entry hentry
  parent_unique := by
    intro e m e' m' i hdir hentry hentry'
    rw [setEntry_entry] at hentry hentry'
    split_ifs at hentry hentry' with heq heq' heq'
    · exact ⟨heq.1.trans heq'.1.symm, heq.2.trans heq'.2.symm⟩
    · exact absurd ((hv i hentry).2 hdir e' m' hentry') heq'
    · exact absurd ((hv i hentry').2 hdir e m hentry) heq
    · exact h.parent_unique hdir hentry hentry'
  root_no_entry := by
    intro e m hentry
    rw [setEntry_entry] at hentry
    split_ifs at hentry
    · exact (hv T.root hentry).1 rfl
    · exact h.root_no_entry hentry

end Entries

end EntryTree
