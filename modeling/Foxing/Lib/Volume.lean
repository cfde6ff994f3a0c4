import Foxing.Lib.EntryTree
import Mathlib.Data.List.Nodup
import Mathlib.Tactic.SplitIfs

/-!
# Volumes

The directories and files of a volume have numbers, and each has a record. The names in a
directory are read in some order. Nothing keeps an entry from leading to a directory that has
another entry already, as mounts and links do, so that a directory may have several paths.
-/

/-- The numbers from `next` on are free. -/
structure Volume (κ ρ : Type*) extends EntryTree ℕ κ where
  names : ℕ → List κ
  record : ℕ → ρ
  next : ℕ
  mem_names : ∀ d n, n ∈ names d ↔ (entry d n).isSome = true
  nodup_names : ∀ d, (names d).Nodup
  root_isDir : isDir root = true
  root_lt : root < next
  entry_used : ∀ d n i, entry d n = some i → isDir d = true ∧ d < next ∧ i < next

namespace Volume
variable {κ ρ : Type*}

def find (v : Volume κ ρ) (p : List κ) : Option ℕ := v.toEntryTree.find p

/-- The files of a directory, with their names. -/
def files (v : Volume κ ρ) (d : ℕ) : List (κ × ℕ) :=
  (v.names d).filterMap fun n => (v.entry d n).bind fun i =>
    if v.isDir i then none else some (n, i)

/-- A volume with an empty root. -/
def blank (r : ρ) : Volume κ ρ where
  root := 0
  entry _ _ := none
  isDir i := i = 0
  names _ := []
  record _ := r
  next := 1
  mem_names := by simp
  nodup_names := by simp
  root_isDir := by simp
  root_lt := by simp
  entry_used := by simp

def setRecord (v : Volume κ ρ) (i : ℕ) (r : ρ) : Volume κ ρ :=
  { v with record := Function.update v.record i r }

/-- The next number is taken into use. -/
def alloc (v : Volume κ ρ) (dir : Bool) (r : ρ) : Volume κ ρ where
  toEntryTree := v.toEntryTree.setKind v.next dir
  names := v.names
  record := Function.update v.record v.next r
  next := v.next + 1
  mem_names := v.mem_names
  nodup_names := v.nodup_names
  root_isDir := by
    have hne : v.root ≠ v.next := Nat.ne_of_lt v.root_lt
    simp [EntryTree.setKind, hne, v.root_isDir]
  root_lt := by
    have hlt := v.root_lt
    simp only [EntryTree.setKind_root]
    omega
  entry_used := by
    intro d n i hentry
    obtain ⟨hdir, hd, hi⟩ := v.entry_used d n i hentry
    have hne : d ≠ v.next := Nat.ne_of_lt hd
    refine ⟨?_, by omega, by omega⟩
    rw [EntryTree.setKind_isDir, if_neg hne]
    exact hdir

section Entries
variable [DecidableEq κ]

/-- A directory gets an entry that leads to something in use. -/
def link (v : Volume κ ρ) (d : ℕ) (n : κ) (i : ℕ) : Volume κ ρ :=
  if h : v.isDir d = true ∧ d < v.next ∧ i < v.next then
    { v with
      toEntryTree := v.toEntryTree.setEntry d n (some i)
      names := Function.update v.names d (n :: (v.names d).filter (· ≠ n))
      mem_names := by
        intro e m
        rw [EntryTree.setEntry_entry]
        by_cases he : e = d
        · subst he
          by_cases hm : m = n
          · simp [hm]
          · simp [hm, v.mem_names]
        · simp [he, v.mem_names]
      nodup_names := by
        intro e
        by_cases he : e = d
        · subst he
          rw [Function.update_self, List.nodup_cons]
          exact ⟨by simp, (v.nodup_names e).filter _⟩
        · rw [Function.update_of_ne he]
          exact v.nodup_names e
      entry_used := by
        intro e m j hentry
        rw [EntryTree.setEntry_entry] at hentry
        split_ifs at hentry with hpos
        · cases hentry
          obtain ⟨rfl, -⟩ := hpos
          exact h
        · exact v.entry_used e m j hentry }
  else v

/-- Something new is put into a directory. -/
def insert (v : Volume κ ρ) (d : ℕ) (n : κ) (dir : Bool) (r : ρ) : Volume κ ρ :=
  (v.alloc dir r).link d n v.next

def erase (v : Volume κ ρ) (d : ℕ) (n : κ) : Volume κ ρ where
  toEntryTree := v.toEntryTree.setEntry d n none
  names := Function.update v.names d ((v.names d).filter (· ≠ n))
  record := v.record
  next := v.next
  mem_names := by
    intro e m
    rw [EntryTree.setEntry_entry]
    by_cases he : e = d
    · subst he
      by_cases hm : m = n <;> simp [hm, v.mem_names]
    · simp [he, v.mem_names]
  nodup_names := by
    intro e
    by_cases he : e = d
    · subst he
      rw [Function.update_self]
      exact (v.nodup_names e).filter _
    · rw [Function.update_of_ne he]
      exact v.nodup_names e
  root_isDir := v.root_isDir
  root_lt := v.root_lt
  entry_used := by
    intro e m j hentry
    rw [EntryTree.setEntry_entry] at hentry
    split_ifs at hentry
    exact v.entry_used e m j hentry

/-! ## Calls -/

/-- The directories of a path are made from the first missing one on. -/
def createDirs (mk : ℕ → ρ) : ℕ → List κ → Volume κ ρ → Option (Volume κ ρ)
  | d, [], v => if v.isDir d then some v else none
  | d, n :: ns, v =>
    match v.entry d n with
    | some i => createDirs mk i ns v
    | none => if v.isDir d then createDirs mk v.next ns (v.insert d n true (mk v.next)) else none

def createDirAll (mk : ℕ → ρ) (p : List κ) (v : Volume κ ρ) : Option (Volume κ ρ) :=
  v.createDirs mk v.root p

/-- A file is opened for writing: it is truncated, or made in its directory. -/
def create (p : List κ) (fresh : ρ) (truncate : ρ → ρ) (v : Volume κ ρ) :
    Option (ℕ × Volume κ ρ) :=
  match v.find p with
  | some i => if v.isDir i then none else some (i, v.setRecord i (truncate (v.record i)))
  | none =>
    match p.getLast?, v.find p.dropLast with
    | some n, some d => if v.isDir d then some (v.next, v.insert d n false fresh) else none
    | _, _ => none

def removeFile (p : List κ) (v : Volume κ ρ) : Option (Volume κ ρ) :=
  match v.find p, p.getLast?, v.find p.dropLast with
  | some i, some n, some d => if v.isDir i then none else some (v.erase d n)
  | _, _, _ => none

end Entries

/-! ## What is found -/

section Find
variable {v v' : Volume κ ρ} {d i j : ℕ} {n m : κ} {p q : List κ} {r : ρ}

theorem find_concat_of_find (h : v.find p = some d) (n : κ) : v.find (p ++ [n]) = v.entry d n :=
  EntryTree.find_concat_of_find h n

theorem find_concat (p : List κ) (n : κ) :
    v.find (p ++ [n]) = (v.find p).bind fun d => v.entry d n :=
  EntryTree.find_concat ..

theorem lt_of_find (h : v.find p = some i) : i < v.next := by
  induction p using List.reverseRecOn with
  | nil =>
    cases h
    exact v.root_lt
  | append_singleton p n _ =>
    rw [find_concat] at h
    obtain ⟨d, -, hentry⟩ := Option.bind_eq_some_iff.mp h
    exact (v.entry_used d n i hentry).2.2

theorem mem_files {x : κ × ℕ} : x ∈ v.files d ↔ v.entry d x.1 = some x.2 ∧ v.isDir x.2 = false := by
  unfold files
  rw [List.mem_filterMap]
  constructor
  · rintro ⟨n, -, hn⟩
    obtain ⟨i, hi, hx⟩ := Option.bind_eq_some_iff.mp hn
    split_ifs at hx with hdir
    cases hx
    exact ⟨hi, by simpa using hdir⟩
  · rintro ⟨hentry, hdir⟩
    refine ⟨x.1, (v.mem_names d x.1).mpr (by simp [hentry]), ?_⟩
    simp [hentry, hdir]

/-- What is found in one volume is found in the other, and is the same. -/
structure Keeps (v v' : Volume κ ρ) : Prop where
  find : ∀ {p i}, v.find p = some i → v'.find p = some i
  isDir : ∀ {i}, i < v.next → v'.isDir i = v.isDir i
  record : ∀ {i}, i < v.next → v'.record i = v.record i
  next : v.next ≤ v'.next

theorem Keeps.refl : Keeps v v := ⟨id, fun _ => rfl, fun _ => rfl, Nat.le_refl _⟩

theorem Keeps.trans {v'' : Volume κ ρ} (h : Keeps v v') (h' : Keeps v' v'') : Keeps v v'' where
  find hp := h'.find (h.find hp)
  isDir hi := (h'.isDir (Nat.lt_of_lt_of_le hi h.next)).trans (h.isDir hi)
  record hi := (h'.record (Nat.lt_of_lt_of_le hi h.next)).trans (h.record hi)
  next := Nat.le_trans h.next h'.next

/-- The directories of the path are there, and all else is as before. -/
structure Made (v v' : Volume κ ρ) (d : ℕ) (p : List κ) : Prop where
  keeps : Keeps v v'
  find : ∀ q, v.find q = some d → ∃ i, v'.find (q ++ p) = some i ∧ v'.isDir i = true
  file : ∀ {q i}, v'.find q = some i → v'.isDir i = false → v.find q = some i

theorem Made.find_path (h : Made v v' v.root p) :
    ∃ i, v'.find p = some i ∧ v'.isDir i = true := by
  simpa using h.find [] rfl

theorem find_setRecord : (v.setRecord i r).find p = v.find p := rfl

/-- The name is free in a directory that is in use. -/
structure Free (v : Volume κ ρ) (d : ℕ) (n : κ) : Prop where
  isDir : v.isDir d = true
  lt : d < v.next
  entry : v.entry d n = none

theorem free_of_find (hq : v.find q = some d) (hdir : v.isDir d = true)
    (hnone : v.find (q ++ [n]) = none) : v.Free d n :=
  ⟨hdir, lt_of_find hq, by rw [← find_concat_of_find hq, hnone]⟩

/-- Files have been removed from a directory, and nothing else has changed. -/
structure Thinned (l : ℕ) (v v' : Volume κ ρ) : Prop where
  find : ∀ {p e}, v.find p = some e → v.isDir e = true → v'.find p = some e
  entry : ∀ e m, v'.entry e m = v.entry e m ∨ e = l ∧ v'.entry e m = none
  isDir : v'.isDir = v.isDir

theorem Thinned.refl (l : ℕ) : Thinned l v v := ⟨fun h _ => h, fun _ _ => .inl rfl, rfl⟩

theorem Thinned.trans {l : ℕ} {v'' : Volume κ ρ} (h : Thinned l v v') (h' : Thinned l v' v'') :
    Thinned l v v'' where
  find hp hdir := h'.find (h.find hp hdir) (by rw [h.isDir]; exact hdir)
  entry := by
    intro e m
    rcases h'.entry e m with heq | hnone
    · rcases h.entry e m with heq' | ⟨he, hnone⟩
      · exact .inl (heq.trans heq')
      · exact .inr ⟨he, heq.trans hnone⟩
    · exact .inr hnone
  isDir := h'.isDir.trans h.isDir

variable [DecidableEq κ]

/-! ### Insertion -/

@[simp] theorem link_root : (v.link d n i).root = v.root := by
  unfold link
  split_ifs <;> rfl

@[simp] theorem link_next : (v.link d n i).next = v.next := by
  unfold link
  split_ifs <;> rfl

@[simp] theorem link_record : (v.link d n i).record = v.record := by
  unfold link
  split_ifs <;> rfl

@[simp] theorem link_isDir : (v.link d n i).isDir = v.isDir := by
  unfold link
  split_ifs <;> rfl

theorem insert_root (dir : Bool) : (v.insert d n dir r).root = v.root := link_root

theorem insert_next (dir : Bool) : (v.insert d n dir r).next = v.next + 1 := link_next

theorem insert_record (dir : Bool) (j : ℕ) :
    (v.insert d n dir r).record j = if j = v.next then r else v.record j := by
  rw [insert, link_record]
  exact Function.update_apply ..

theorem insert_isDir (dir : Bool) (j : ℕ) :
    (v.insert d n dir r).isDir j = if j = v.next then dir else v.isDir j := by
  rw [insert, link_isDir]
  exact Function.update_apply ..

theorem Free.insert_entry (h : v.Free d n) (dir : Bool) (e : ℕ) (m : κ) :
    (v.insert d n dir r).entry e m = if e = d ∧ m = n then some v.next else v.entry e m := by
  have hne : d ≠ v.next := Nat.ne_of_lt h.lt
  have hdir : (v.alloc dir r).isDir d = true := by
    have hupdate : (v.alloc dir r).isDir d = if d = v.next then dir else v.isDir d :=
      Function.update_apply ..
    rw [hupdate, if_neg hne]
    exact h.isDir
  have hnext : (v.alloc dir r).next = v.next + 1 := rfl
  have hlt := h.lt
  rw [insert, link, dif_pos ⟨hdir, by omega, by omega⟩]
  rfl

theorem Free.keeps_insert (h : v.Free d n) (dir : Bool) : Keeps v (v.insert d n dir r) where
  find := by
    intro p i hp
    induction p using List.reverseRecOn generalizing i with
    | nil =>
      cases hp
      exact congrArg some (insert_root dir)
    | append_singleton p m ih =>
      rw [find_concat] at hp
      obtain ⟨e, he, hentry⟩ := Option.bind_eq_some_iff.mp hp
      rw [find_concat_of_find (ih he), h.insert_entry, if_neg]
      · exact hentry
      · rintro ⟨rfl, rfl⟩
        rw [h.entry] at hentry
        cases hentry
  isDir := by
    intro i hi
    rw [insert_isDir, if_neg (Nat.ne_of_lt hi)]
  record := by
    intro i hi
    rw [insert_record, if_neg (Nat.ne_of_lt hi)]
  next := by
    rw [insert_next]
    omega

/-- Nothing else is new. -/
theorem Free.find_insert (h : v.Free d n) {dir : Bool}
    (hp : (v.insert d n dir r).find p = some j) : j = v.next ∨ v.find p = some j := by
  induction p using List.reverseRecOn generalizing j with
  | nil =>
    right
    cases hp
    exact congrArg some (insert_root dir).symm
  | append_singleton p m ih =>
    rw [find_concat] at hp
    obtain ⟨e, he, hentry⟩ := Option.bind_eq_some_iff.mp hp
    rw [h.insert_entry] at hentry
    split_ifs at hentry with hpos
    · exact .inl (Option.some.inj hentry).symm
    · rcases ih he with rfl | hold
      · exact absurd (v.entry_used _ _ _ hentry).2.1 (Nat.lt_irrefl _)
      · right
        rw [find_concat_of_find hold]
        exact hentry

/-! ### Directories -/

theorem made_createDirs {mk : ℕ → ρ} (hd : d < v.next) (h : v.createDirs mk d p = some v') :
    Made v v' d p := by
  induction p generalizing d v with
  | nil =>
    rw [createDirs] at h
    split_ifs at h with hdir
    cases h
    refine ⟨.refl, fun q hq => ⟨d, ?_, hdir⟩, fun hq _ => hq⟩
    rw [List.append_nil]
    exact hq
  | cons n p ih =>
    rw [createDirs] at h
    cases hentry : v.entry d n with
    | some i =>
      rw [hentry] at h
      have hmade := ih (v.entry_used d n i hentry).2.2 h
      refine ⟨hmade.keeps, fun q hq => ?_, hmade.file⟩
      have hnext := hmade.find (q ++ [n]) (by rw [find_concat_of_find hq, hentry])
      simpa using hnext
    | none =>
      rw [hentry] at h
      simp only at h
      split_ifs at h with hdir
      have hfree : v.Free d n := ⟨hdir, hd, hentry⟩
      have hmade := ih (by rw [insert_next]; omega) h
      have hkeeps : Keeps v (v.insert d n true (mk v.next)) := hfree.keeps_insert true
      refine ⟨hkeeps.trans hmade.keeps, fun q hq => ?_, fun {q i} hq hfile => ?_⟩
      · have hnew : (v.insert d n true (mk v.next)).find (q ++ [n]) = some v.next := by
          rw [find_concat_of_find (hkeeps.find hq), hfree.insert_entry, if_pos ⟨rfl, rfl⟩]
        simpa using hmade.find (q ++ [n]) hnew
      · have hin := hmade.file hq hfile
        rcases hfree.find_insert hin with rfl | hold
        · have hdir' : v'.isDir v.next = true := by
            rw [hmade.keeps.isDir (by rw [insert_next]; omega), insert_isDir, if_pos rfl]
          rw [hdir'] at hfile
          cases hfile
        · exact hold

theorem made_createDirAll {mk : ℕ → ρ} (h : v.createDirAll mk p = some v') :
    Made v v' v.root p := made_createDirs v.root_lt h

/-! ### Files -/

theorem create_new (hq : v.find q = some d) (hdir : v.isDir d = true)
    (hnone : v.find (q ++ [n]) = none) (fresh : ρ) (truncate : ρ → ρ) :
    v.create (q ++ [n]) fresh truncate = some (v.next, v.insert d n false fresh) := by
  rw [create, hnone]
  simp [hq, hdir]

/-- A file can be opened for writing at the path. -/
def writable (p : List κ) (v : Volume κ ρ) : Bool :=
  match v.find p with
  | some i => !v.isDir i
  | none =>
    match p.getLast?, v.find p.dropLast with
    | some _, some d => v.isDir d
    | _, _ => false

theorem writable_iff {fresh : ρ} {truncate : ρ → ρ} :
    v.writable p = true ↔ ∃ x, v.create p fresh truncate = some x := by
  unfold writable create
  cases v.find p with
  | some i => cases hdir : v.isDir i <;> simp [hdir]
  | none =>
    cases p.getLast? with
    | none => simp
    | some n =>
      cases v.find p.dropLast with
      | none => simp
      | some d => cases hdir : v.isDir d <;> simp [hdir]

/-- A file that has been opened is the one that was there, or a new one. -/
structure Created (v v' : Volume κ ρ) (p : List κ) (truncate : ρ → ρ) (i : ℕ) : Prop where
  find : v'.find p = some i
  isDir : v'.isDir i = false
  old : ∀ j < v.next, j = i ↔ v.find p = some j
  record : ∀ j < v.next, v'.record j = if j = i then truncate (v.record j) else v.record j

theorem created_create {fresh : ρ} {truncate : ρ → ρ}
    (h : v.create p fresh truncate = some (i, v')) : Created v v' p truncate i := by
  rw [create] at h
  cases hfind : v.find p with
  | some j =>
    rw [hfind] at h
    simp only at h
    split_ifs at h with hdir
    cases h
    refine ⟨hfind, by simpa [setRecord] using hdir, fun k _ => ?_, fun k _ => ?_⟩
    · rw [hfind, Option.some.injEq]
      exact eq_comm
    · by_cases hk : k = i
      · simp [setRecord, hk]
      · simp [setRecord, hk]
  | none =>
    rw [hfind] at h
    cases hlast : p.getLast? with
    | none => simp [hlast] at h
    | some n =>
      obtain ⟨q, rfl⟩ := List.getLast?_eq_some_iff.mp hlast
      cases hparent : v.find q with
      | none => simp [hparent] at h
      | some d =>
        simp only [List.getLast?_concat, List.dropLast_concat, hparent] at h
        split_ifs at h with hdir
        cases h
        have hfree := free_of_find hparent hdir hfind
        refine ⟨?_, (insert_isDir false v.next).trans (if_pos rfl), fun k hk => ?_,
          fun k hk => ?_⟩
        · rw [find_concat_of_find ((hfree.keeps_insert false).find hparent),
            hfree.insert_entry, if_pos ⟨rfl, rfl⟩]
        · simp [hfind, Nat.ne_of_lt hk]
        · rw [insert_record, if_neg (Nat.ne_of_lt hk), if_neg (Nat.ne_of_lt hk)]

/-! ### Removal -/

theorem erase_entry (e : ℕ) (m : κ) :
    (v.erase d n).entry e m = if e = d ∧ m = n then none else v.entry e m := rfl

theorem removeFile_concat (hq : v.find q = some d) : v.removeFile (q ++ [n]) =
    (v.entry d n).bind fun i => if v.isDir i then none else some (v.erase d n) := by
  rw [removeFile, find_concat_of_find hq]
  cases v.entry d n with
  | none => rfl
  | some i => simp [hq]

theorem thinned_erase (hfile : ∀ i, v.entry d n = some i → v.isDir i = false) :
    Thinned d v (v.erase d n) where
  find := by
    intro p e hp hdir
    induction p using List.reverseRecOn generalizing e with
    | nil => exact hp
    | append_singleton p m ih =>
      rw [find_concat] at hp
      obtain ⟨e', he', hentry⟩ := Option.bind_eq_some_iff.mp hp
      rw [find_concat_of_find (ih he' (v.entry_used _ _ _ hentry).1), erase_entry, if_neg]
      · exact hentry
      · rintro ⟨rfl, rfl⟩
        rw [hfile e hentry] at hdir
        cases hdir
  entry := by
    intro e m
    rw [erase_entry]
    split_ifs with h
    · exact .inr ⟨h.1, rfl⟩
    · exact .inl rfl
  isDir := rfl

theorem thinned_removeFile (hq : v.find q = some d) (h : v.removeFile (q ++ [n]) = some v') :
    Thinned d v v' ∧ v'.entry d n = none := by
  rw [removeFile_concat hq] at h
  obtain ⟨i, hentry, hi⟩ := Option.bind_eq_some_iff.mp h
  split_ifs at hi with hdir
  cases hi
  refine ⟨thinned_erase fun j hj => ?_, ?_⟩
  · rw [hentry] at hj
    cases hj
    simpa using hdir
  · rw [erase_entry, if_pos ⟨rfl, rfl⟩]

end Find

end Volume
