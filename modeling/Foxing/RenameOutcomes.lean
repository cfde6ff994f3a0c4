import Foxing.RenameCalls

/-!
# What becomes of a rename

A rename that is reported as done should have the entry on the target under its new name, with
what the source has under that name, and no longer under the old one if the source lacks it. The
arm does not look at the copy that it falls back to, cannot copy directories and links, takes a
failed check for an answer, and rejects every rename whose second half is missing.
-/
namespace Foxing
namespace Fs
variable {s t t' : Fs} {p q old new : Path} {r : Path}

/-! ## Trees that hold the same -/

/-- The entries of two trees are the same, but for owners and permissions. -/
def SameEntry (s t : Fs) : Option Node → Option Node → Prop
  | none, none => True
  | some (.dir _), some (.dir _) => True
  | some (.symlink dest _), some (.symlink dest' _) => dest = dest'
  | some (.file i), some (.file j) => (s.data i).kind = (t.data j).kind
  | _, _ => False

/-- At and below `p` the one tree has what the other has at and below `q`. -/
def Mirrors (s : Fs) (p : Path) (t : Fs) (q : Path) : Prop :=
  ∀ r, SameEntry s t (s.node (p ++ r)) (t.node (q ++ r))

theorem sameEntry_congr (hdata : t'.data = t.data) {m n : Option Node} :
    SameEntry s t' m n ↔ SameEntry s t m n := by
  unfold SameEntry
  rw [hdata]

theorem mirrors_congr {q' : Path} (hdata : t'.data = t.data)
    (hnode : ∀ r, t'.node (q' ++ r) = t.node (q ++ r)) :
    s.Mirrors p t' q' ↔ s.Mirrors p t q := by
  refine forall_congr' fun r => ?_
  rw [hnode r, sameEntry_congr hdata]

/-- Something is mirrored by something. -/
theorem Mirrors.ne_none (h : s.Mirrors p t q) (hp : s.node p ≠ none) : t.node q ≠ none := by
  have hroot := h []
  rw [List.append_nil, List.append_nil] at hroot
  intro hnone
  rw [hnone] at hroot
  cases hn : s.node p with
  | none => exact hp hn
  | some n =>
    rw [hn] at hroot
    cases n <;> exact hroot

/-! ## Directories on the way -/

theorem createDirAll_node (m : Meta) (p q : Path) (t : Fs) (hq : t.node q ≠ none ∨ ¬ q <+: p) :
    (t.createDirAll m p).2.node q = t.node q := by
  unfold createDirAll
  split_ifs
  · exact if_neg fun h => hq.elim (fun hne => hne h.2) fun hnot => hnot h.1
  · rfl

theorem createDirAll_data (m : Meta) (p : Path) (t : Fs) :
    (t.createDirAll m p).2.data = t.data := by
  unfold createDirAll
  split_ifs <;> rfl

theorem Rooted.createDirAll (h : t.Rooted) (m : Meta) (p : Path) :
    (t.createDirAll m p).2.Rooted := by
  unfold Fs.createDirAll
  split_ifs with hall
  swap
  · exact h
  intro q c hne
  have hdir : ∀ a, a <+: p → t.node a ≠ none → t.isDir a = true := by
    intro a ha hsome
    have hmem := List.all_eq_true.mp hall a ((List.mem_inits a p).mpr ha)
    simpa [Option.isNone_iff_eq_none, hsome] using hmem
  by_cases hold : t.node (q ++ [c]) = none
  · have hway : q ++ [c] <+: p := by
      by_contra hnot
      exact hne ((if_neg fun hc => hnot hc.1).trans hold)
    have hq : q <+: p := (List.prefix_append q [c]).trans hway
    by_cases hnone : t.node q = none
    · simp [isDir, hq, hnone]
    · have := hdir q hq hnone
      simpa [isDir, hnone] using this
  · have hq := h q c hold
    have hnone := node_ne_none_of_isDir hq
    simpa [isDir, hnone] using hq

end Fs

section Parents
variable {env : Env} {depth : Option ℕ} {dest q : Path} {t : Fs}

theorem makeParent_data : (makeParent env depth dest t).data = t.data := by
  unfold makeParent
  cases Path.parent? dest with
  | none => rfl
  | some a => exact Fs.createDirAll_data ..

/-- Only what lies on the way to the path is made. -/
theorem makeParent_node (hq : t.node q ≠ none ∨ ¬ (q <+: dest ∧ q ≠ dest)) :
    (makeParent env depth dest t).node q = t.node q := by
  unfold makeParent
  cases hparent : Path.parent? dest with
  | none => rfl
  | some a =>
    have hlast : dest ≠ [] ∧ dest.dropLast = a := by
      unfold Path.parent? at hparent
      split_ifs at hparent with hnil
      exact ⟨hnil, Option.some.inj hparent⟩
    have hupper : depth.elim a a.take <+: a := by
      cases depth with
      | none => exact List.prefix_rfl
      | some k => exact List.take_prefix k a
    refine Fs.createDirAll_node _ _ _ _ (hq.imp_right fun hnot hway => hnot ⟨?_, ?_⟩)
    · exact (hway.trans hupper).trans (hlast.2 ▸ List.dropLast_prefix dest)
    · rintro rfl
      have hlen := (hway.trans hupper).length_le
      have hpos := List.length_pos_of_ne_nil hlast.1
      rw [← hlast.2, List.length_dropLast] at hlen
      omega

theorem Fs.Rooted.makeParent (h : t.Rooted) : (makeParent env depth dest t).Rooted := by
  unfold Foxing.makeParent
  cases Path.parent? dest with
  | none => exact h
  | some a => exact h.createDirAll _ _

/-- At and below the path nothing is made. -/
theorem makeParent_append (r : Path) :
    (makeParent env depth dest t).node (dest ++ r) = t.node (dest ++ r) := by
  refine makeParent_node (.inr fun h => h.2 ?_)
  have hlen := h.1.length_le
  rw [List.length_append] at hlen
  rw [List.length_eq_zero_iff.mp (show r.length = 0 by omega), List.append_nil]

end Parents

namespace Fs
variable {t t' : Fs} {old new : Path}

theorem regularAt_eq_some {p : Path} {f : File} : t.regularAt p = some f ↔
    ∃ i, t.node p = some (.file i) ∧ (t.data i).kind = .regular f := by
  unfold regularAt
  constructor
  · intro h
    split at h
    next i hi =>
      cases hkind : (t.data i).kind with
      | regular c =>
        rw [hkind] at h
        exact ⟨i, hi, hkind.trans (congrArg FileKind.regular (Option.some.inj h))⟩
      | special m d =>
        rw [hkind] at h
        cases h
    next => cases h
  · rintro ⟨i, hi, hkind⟩
    simp [hi, hkind]

/-! ## Renames and exchanges that succeed -/

/-- What a rename that succeeds does: the entry is under the new name, and the names are not
one below the other. -/
structure Moved (t t' : Fs) (old new : Path) : Prop where
  data : t'.data = t.data
  entry : ∀ r, t'.node (new ++ r) = t.node (old ++ r)
  there : t.node old ≠ none
  apart : old <+: new ∨ new <+: old → old = new

theorem relocate_append (r : Path) : (t.relocate old new).node (new ++ r) = t.node (old ++ r) := by
  show (if new <+: new ++ r then t.node (rebase old new (new ++ r)) else _) = _
  rw [if_pos (List.prefix_append ..), rebase, List.drop_left]

theorem relocate_old (h : ¬ new <+: old) : (t.relocate old new).node old = none := by
  show (if new <+: old then _ else if old <+: old then none else _) = _
  rw [if_neg h, if_pos List.prefix_rfl]

theorem Rooted.isDir_of_prefix (ht : t.Rooted) (h : old <+: new) (hne : old ≠ new)
    (hnew : t.node new ≠ none) : t.isDir old = true := by
  obtain ⟨r, rfl⟩ := h
  exact ht.isDir_append r (by rintro rfl; simp at hne) hnew

/-- Nothing is made below a path that is not a directory. -/
theorem Rooted.eq_of_hasParent (ht : t.Rooted) (hdir : t.isDir old = false)
    (hparent : t.hasParent new = true) (h : old <+: new) :
    old = new := by
  by_contra hne
  unfold hasParent Path.parent? at hparent
  split_ifs at hparent with hnil
  dsimp only at hparent
  have hupper : old <+: new.dropLast := by
    obtain ⟨r, rfl⟩ := h
    have hr : r ≠ [] := by
      rintro rfl
      simp at hne
    rw [List.dropLast_append_of_ne_nil hr]
    exact List.prefix_append ..
  by_cases heq : old = new.dropLast
  · rw [← heq, hdir] at hparent
    cases hparent
  · rw [ht.isDir_of_prefix hupper heq (node_ne_none_of_isDir hparent)] at hdir
    cases hdir

/-- A directory is moved over nothing, or over an empty directory. -/
theorem renameNode_dir_ok {m : Meta} (h : t.renameNode (.dir m) old new = (.ok (), t')) :
    t' = t.relocate old new ∧ ¬ old <+: new ∧ ¬ (t.isDir new = true ∧ t.HasChildren new) := by
  cases hnew : t.node new with
  | none =>
    simp only [renameNode, hnew] at h
    split_ifs at h with hbelow
    · cases h
    · exact ⟨(Prod.mk.inj h).2.symm, hbelow, by simp [isDir, hnew]⟩
  | some n' =>
    cases n' with
    | dir m' =>
      simp only [renameNode, hnew] at h
      split_ifs at h with hbelow
      · cases h
      · rw [not_or] at hbelow
        exact ⟨(Prod.mk.inj h).2.symm, hbelow.1, fun hc => hbelow.2 hc.2⟩
    | file j | symlink d m' =>
      simp only [renameNode, hnew] at h
      cases h

/-- Anything else is not moved over a directory. -/
theorem not_isDir_of_renameNode {n : Node} (hn : ∀ m, n ≠ .dir m)
    (h : t.renameNode n old new = (.ok (), t')) : t.isDir new = false := by
  unfold isDir
  split
  · rename_i m' hnew
    cases n with
    | dir m => exact absurd rfl (hn m)
    | file i | symlink d m =>
      simp only [renameNode, hnew] at h
      cases h
  · rfl

/-- A name of another file gives way, and of the same file both names are left. -/
theorem renameNode_file_ok {i : FileId} (h : t.renameNode (.file i) old new = (.ok (), t')) :
    t' = t ∧ t.node new = some (.file i) ∨
      t' = t.relocate old new ∧ t.node new ≠ some (.file i) := by
  cases hnew : t.node new with
  | none =>
    simp only [renameNode, hnew] at h
    exact .inr ⟨(Prod.mk.inj h).2.symm, by simp⟩
  | some n' =>
    cases n' with
    | dir m' =>
      simp only [renameNode, hnew] at h
      cases h
    | file j =>
      simp only [renameNode, hnew] at h
      split_ifs at h with hsame
      · exact .inl ⟨(Prod.mk.inj h).2.symm, by rw [hsame]⟩
      · exact .inr ⟨(Prod.mk.inj h).2.symm, by simp [eq_comm, hsame]⟩
    | symlink d m' =>
      simp only [renameNode, hnew] at h
      exact .inr ⟨(Prod.mk.inj h).2.symm, by simp⟩

theorem renameNode_symlink_ok {d : String} {m : Meta}
    (h : t.renameNode (.symlink d m) old new = (.ok (), t')) : t' = t.relocate old new := by
  cases hnew : t.node new with
  | none =>
    simp only [renameNode, hnew] at h
    exact (Prod.mk.inj h).2.symm
  | some n' =>
    cases n' with
    | dir m' =>
      simp only [renameNode, hnew] at h
      cases h
    | file j | symlink d' m' =>
      simp only [renameNode, hnew] at h
      exact (Prod.mk.inj h).2.symm

/-- The plain call leaves two names of one file, or moves the entry over something without
entries of its own. -/
theorem renameNode_ok {n : Node} (h : t.renameNode n old new = (.ok (), t')) :
    (t' = t ∧ ∃ i, n = .file i ∧ t.node new = some (.file i)) ∨
      (t' = t.relocate old new ∧ (∀ i, n = .file i → t.node new ≠ some (.file i)) ∧
        ((∃ m, n = .dir m) → ¬ old <+: new) ∧ ¬ (t.isDir new = true ∧ t.HasChildren new)) := by
  cases n with
  | dir m =>
    obtain ⟨hmoved, hbelow, hempty⟩ := renameNode_dir_ok h
    exact .inr ⟨hmoved, by simp, fun _ => hbelow, hempty⟩
  | file i =>
    have hdir := not_isDir_of_renameNode (by simp) h
    rcases renameNode_file_ok h with ⟨hsame, hnew⟩ | ⟨hmoved, hother⟩
    · exact .inl ⟨hsame, i, rfl, hnew⟩
    · refine .inr ⟨hmoved, fun j hj => ?_, by simp, by simp [hdir]⟩
      obtain rfl := Node.file.inj hj
      exact hother
  | symlink d m =>
    have hdir := not_isDir_of_renameNode (by simp) h
    exact .inr ⟨renameNode_symlink_ok h, by simp, by simp, by simp [hdir]⟩

/-- A rename that succeeds: two names of one file are left, else the old name is gone. -/
theorem rename_ok (ht : t.Rooted) (h : t.rename old new = (.ok (), t')) :
    Moved t t' old new ∧ t'.node old =
      if old = new ∨ (t.isFile old = true ∧ t.node old = t.node new) then t.node old
      else none := by
  unfold rename at h
  cases hold : t.node old with
  | none =>
    rw [hold] at h
    cases h
  | some n =>
    rw [hold] at h
    dsimp only at h
    by_cases heq : old = new
    · rw [if_pos heq] at h
      obtain ⟨-, rfl⟩ := Prod.mk.inj h
      subst heq
      exact ⟨⟨rfl, fun _ => rfl, by simp [hold], fun _ => rfl⟩, by simp [hold]⟩
    rw [if_neg heq] at h
    have hparent : t.hasParent new = true := by
      by_contra hnot
      rw [if_neg hnot] at h
      cases h
    rw [if_pos hparent] at h
    have hfile : t.isFile old = true ↔ ∃ i, n = .file i := by
      cases n <;> simp [isFile, hold]
    rcases renameNode_ok h with ⟨rfl, i, rfl, hnew⟩ | ⟨rfl, hother, hbelow, hempty⟩
    · -- Two names of one file, below which there is nothing.
      have hapart : old <+: new ∨ new <+: old → old = new := by
        rintro (hp | hp)
        · exact ht.eq_of_hasParent (by simp [isDir, hold]) hparent hp
        · by_contra hne
          have hdir := ht.isDir_of_prefix hp (Ne.symm hne) (by simp [hold])
          simp [isDir, hnew] at hdir
      refine ⟨⟨rfl, fun r => ?_, by simp [hold], hapart⟩, ?_⟩
      · by_cases hr : r = []
        · rw [hr, List.append_nil, List.append_nil, hnew, hold]
        · rw [ht.below (by simp [NotDir, isDir, hnew]) hr,
            ht.below (by simp [NotDir, isDir, hold]) hr]
      · rw [if_pos (.inr ⟨hfile.mpr ⟨i, rfl⟩, hnew.symm⟩), hold]
    · have hbelow : old <+: new → old = new := by
        intro hp
        by_cases hdir : ∃ m, n = .dir m
        · exact absurd hp (hbelow hdir)
        · refine ht.eq_of_hasParent ?_ hparent hp
          cases n with
          | dir m => exact absurd ⟨m, rfl⟩ hdir
          | file i => simp [isDir, hold]
          | symlink d m => simp [isDir, hold]
      have hnew : ¬ new <+: old := by
        intro hp
        refine hempty ⟨ht.isDir_of_prefix hp (Ne.symm heq) (by simp [hold]), ?_⟩
        exact (t.hasChildren_iff new).mpr ⟨old, hp, heq, by simp [hold]⟩
      refine ⟨⟨rfl, relocate_append, by simp [hold],
        fun hp => hp.elim hbelow fun hp => absurd hp hnew⟩, ?_⟩
      rw [relocate_old hnew, if_neg]
      rintro (h' | ⟨hisFile, hsame⟩)
      · exact heq h'
      · obtain ⟨i, rfl⟩ := hfile.mp hisFile
        exact hother i rfl hsame.symm

/-- An exchange that succeeds leaves under the old name what was under the new one. -/
theorem exchange_ok (ht : t.Rooted) (h : t.exchange old new = (.ok (), t')) :
    Moved t t' old new ∧ t'.node old = t.node new := by
  have hplain : t.node new = none → t.rename old new = (.ok (), t') →
      Moved t t' old new ∧ t'.node old = t.node new := by
    intro hnone hren
    obtain ⟨hmoved, hleft⟩ := rename_ok ht hren
    refine ⟨hmoved, hleft.trans ?_⟩
    split_ifs with hsame
    · rcases hsame with heq | ⟨-, hnode⟩
      · rw [heq]
      · exact hnode
    · exact hnone.symm
  cases hold : t.node old with
  | none =>
    simp only [exchange, hold] at h
    exact absurd hold (rename_ok ht h).1.there
  | some n =>
    cases hnew : t.node new with
    | none =>
      simp only [exchange, hold, hnew] at h
      exact hnew ▸ hplain hnew h
    | some n' =>
      simp only [exchange, hold, hnew] at h
      split_ifs at h with heq hup hdown
      · obtain ⟨-, rfl⟩ := Prod.mk.inj h
        subst heq
        exact ⟨⟨rfl, fun _ => rfl, by simp [hold], fun _ => rfl⟩, hnew⟩
      · cases h
      · cases h
      · obtain ⟨-, rfl⟩ := Prod.mk.inj h
        refine ⟨⟨rfl, fun r => ?_, by simp [hold],
          fun hp => absurd hp (not_or.mpr ⟨hdown, hup⟩)⟩, ?_⟩
        · show (if new <+: new ++ r then t.node (rebase old new (new ++ r)) else _) = _
          rw [if_pos (List.prefix_append ..), rebase, List.drop_left]
        · show (if new <+: old then _ else if old <+: old then t.node (rebase new old old)
            else _) = _
          rw [if_neg hup, if_pos List.prefix_rfl, rebase, List.drop_length, List.append_nil, hnew]

theorem missing_ne (p : Path) : t.missing p ≠ .alreadyExists := by
  unfold missing
  split_ifs <;> simp

/-- A destination that exists is replaced, or stops the rename with another failure. -/
theorem rename_ne (old new : Path) : (t.rename old new).1 ≠ .error .alreadyExists := by
  unfold rename
  cases hold : t.node old with
  | none =>
    intro h
    exact missing_ne old (Except.error.inj h)
  | some n =>
    dsimp only
    split_ifs
    · simp
    · unfold renameNode
      split <;> first | (split_ifs <;> simp) | simp
    · intro h
      exact missing_ne new (Except.error.inj h)

theorem exchange_ne (old new : Path) : (t.exchange old new).1 ≠ .error .alreadyExists := by
  unfold exchange
  split
  · split_ifs <;> simp
  · exact rename_ne old new

theorem removeFile_data (p : Path) (t : Fs) : (t.removeFile p).2.data = t.data := by
  unfold removeFile
  split <;> rfl

theorem removeFile_other {p q : Path} (hq : q ≠ p) (t : Fs) :
    (t.removeFile p).2.node q = t.node q := by
  unfold removeFile
  split <;> simp [hq]

theorem removeFile_self (p : Path) (t : Fs) :
    (t.removeFile p).2.node p = if t.isDir p = true then t.node p else none := by
  unfold removeFile isDir
  cases hp : t.node p with
  | none => simp [hp]
  | some n => cases n <;> simp [hp]

theorem Rooted.removeFile (ht : t.Rooted) (p : Path) : (t.removeFile p).2.Rooted := by
  intro q c hne
  have hwas : t.node (q ++ [c]) ≠ none := by
    intro hnone
    by_cases hq : q ++ [c] = p
    · subst hq
      rw [removeFile_self, hnone] at hne
      simp at hne
    · exact hne ((removeFile_other hq t).trans hnone)
  have hdir := ht q c hwas
  by_cases hq : q = p
  · subst hq
    rw [isDir, removeFile_self, if_pos hdir]
    exact hdir
  · rw [isDir, removeFile_other hq]
    exact hdir

end Fs

namespace RenameCalls
variable {calls : RenameCalls} {env : Env} {e : Event} {old dest : Path} {t t' : Fs}

/-- What a rename that succeeds leaves under the old name: an exchange leaves the entry of the
new name, and of two names of one file both stay, unless the other one has been removed. -/
def leftAtOld (calls : RenameCalls) (e : Event) (old dest : Path) (t : Fs) : Option Node :=
  if old = dest then t.node old
  else if calls.rename = none ∧ exchanges e = true then t.node dest
  else if (calls.rename = none ∨ calls.removesDest = false) ∧ t.isFile old = true ∧
      t.node old = t.node dest then t.node old
  else none

/-- The directory of the new name does not concern the entry that is moved. -/
theorem moved_makeParent {depth : Option ℕ} (hold : t.node old ≠ none)
    (h : Fs.Moved (makeParent env depth dest t) t' old dest) : Fs.Moved t t' old dest := by
  refine ⟨h.data.trans makeParent_data, fun r => (h.entry r).trans ?_, hold, h.apart⟩
  refine makeParent_node (.inr fun hway => hway.2 ?_)
  have hsame := h.apart (.inl ((List.prefix_append old r).trans hway.1))
  have hlen := hway.1.length_le
  rw [← hsame, List.length_append] at hlen
  rw [List.length_eq_zero_iff.mp (show r.length = 0 by omega), List.append_nil, hsame]

/-- The destination that has been removed is not the entry that is moved. -/
theorem moved_removeFile (h : Fs.Moved (t.removeFile dest).2 t' old dest) :
    Fs.Moved t t' old dest ∧ (t.removeFile dest).2.node old = t.node old := by
  have hnode : ∀ r, (t.removeFile dest).2.node (old ++ r) = t.node (old ++ r) := by
    intro r
    by_cases hr : old ++ r = dest
    · have hsame := h.apart (.inl ⟨r, hr⟩)
      have hthere := h.there
      rw [hsame, Fs.removeFile_self] at hthere
      split_ifs at hthere with hdir
      · rw [hr, Fs.removeFile_self, if_pos hdir]
      · exact absurd rfl hthere
    · exact Fs.removeFile_other hr t
  have hold : (t.removeFile dest).2.node old = t.node old := by simpa using hnode []
  exact ⟨⟨h.data.trans (Fs.removeFile_data dest t), fun r => (h.entry r).trans (hnode r),
    hold ▸ h.there, h.apart⟩, hold⟩

theorem renameTo_of_works (hrename : calls.rename = none) (t : Fs) :
    calls.renameTo env e old dest t =
      (if exchanges e then Fs.exchange old dest else Fs.rename old dest)
        (makeParent env calls.renameParent dest t) := by
  have hne : ((if exchanges e then Fs.exchange old dest else Fs.rename old dest)
      (makeParent env calls.renameParent dest t)).1 ≠ .error .alreadyExists := by
    split_ifs
    · exact Fs.exchange_ne old dest
    · exact Fs.rename_ne old dest
  unfold renameTo
  rw [hrename]
  simp only [attempted]
  rcases hcall : (if exchanges e then Fs.exchange old dest else Fs.rename old dest)
    (makeParent env calls.renameParent dest t) with ⟨r, u⟩
  rw [hcall] at hne
  cases r with
  | ok x => rfl
  | error f => cases f <;> first | rfl | exact absurd rfl hne

/-- Where the rename itself is reported as failed, it is done by the second attempt. -/
theorem renameTo_retried {f : Failure} (hrename : calls.rename = some f)
    (h : calls.renameTo env e old dest t = (.ok (), t')) :
    Fs.rename old dest (if calls.removesDest then
      ((makeParent env calls.renameParent dest t).removeFile dest).2
      else makeParent env calls.renameParent dest t) = (.ok (), t') := by
  unfold renameTo at h
  rw [hrename] at h
  cases f with
  | alreadyExists =>
    simp only [attempted] at h
    cases hretry : calls.retry with
    | none =>
      rw [hretry] at h
      exact h
    | some f' =>
      rw [hretry] at h
      cases h
  | _ => cases h

/-- What a rename that is reported as done has done. -/
theorem renameTo_ok (ht : t.Rooted) (hold : t.node old ≠ none)
    (h : calls.renameTo env e old dest t = (.ok (), t')) :
    Fs.Moved t t' old dest ∧ t'.node old = calls.leftAtOld e old dest t := by
  have ht₀ : (makeParent env calls.renameParent dest t).Rooted := ht.makeParent
  have hold₀ : (makeParent env calls.renameParent dest t).node old = t.node old :=
    makeParent_node (.inl hold)
  have hdest₀ : (makeParent env calls.renameParent dest t).node dest = t.node dest := by
    have happend : (makeParent env calls.renameParent dest t).node (dest ++ []) =
        t.node (dest ++ []) := makeParent_append []
    simpa using happend
  have hfile₀ : (makeParent env calls.renameParent dest t).isFile old = t.isFile old := by
    rw [Fs.isFile, Fs.isFile, hold₀]
  cases hrename : calls.rename with
  | none =>
    rw [renameTo_of_works hrename] at h
    by_cases hflag : exchanges e = true
    · rw [if_pos hflag] at h
      obtain ⟨hmoved, hleft⟩ := Fs.exchange_ok ht₀ h
      refine ⟨moved_makeParent hold hmoved, hleft.trans ?_⟩
      rw [hdest₀, leftAtOld]
      split_ifs with heq h₁
      · rw [heq]
      · rfl
      · exact absurd ⟨hrename, hflag⟩ h₁
      · exact absurd ⟨hrename, hflag⟩ h₁
    · rw [if_neg hflag] at h
      obtain ⟨hmoved, hleft⟩ := Fs.rename_ok ht₀ h
      refine ⟨moved_makeParent hold hmoved, hleft.trans ?_⟩
      rw [hold₀, hdest₀, hfile₀, leftAtOld]
      by_cases heq : old = dest
      · rw [if_pos (Or.inl heq), if_pos heq]
      · simp [heq, hflag, hrename]
  | some f =>
    have hren := renameTo_retried hrename h
    by_cases hremoves : calls.removesDest = true
    · rw [if_pos hremoves] at hren
      obtain ⟨hmoved, hleft⟩ := Fs.rename_ok (ht₀.removeFile dest) hren
      obtain ⟨hmoved, hnode⟩ := moved_removeFile hmoved
      refine ⟨moved_makeParent hold hmoved, hleft.trans ?_⟩
      rw [hnode, hold₀, leftAtOld]
      by_cases heq : old = dest
      · rw [if_pos (Or.inl heq), if_pos heq]
      · rw [if_neg]
        · simp [heq, hrename, hremoves]
        rintro (hc | ⟨hfile, hsame⟩)
        · exact heq hc
        · rw [Fs.removeFile_self] at hsame
          rw [Fs.isFile, hnode, hold₀] at hfile
          split_ifs at hsame with hdir
          · rw [Fs.isDir, ← hsame] at hdir
            cases hn : t.node old with
            | none => exact hold hn
            | some n => cases n <;> simp [hn] at hfile hdir
          · exact hold hsame
    · rw [if_neg hremoves] at hren
      obtain ⟨hmoved, hleft⟩ := Fs.rename_ok ht₀ hren
      refine ⟨moved_makeParent hold hmoved, hleft.trans ?_⟩
      rw [hold₀, hdest₀, hfile₀, leftAtOld]
      by_cases heq : old = dest
      · rw [if_pos (Or.inl heq), if_pos heq]
      · simp [heq, hrename, hremoves]

/-! ## The clean-up of the old name -/

def holdsDir : Option Node → Bool
  | some (.dir _) => true
  | _ => false

theorem isDir_eq (t : Fs) (p : Path) : t.isDir p = holdsDir (t.node p) := by
  unfold Fs.isDir holdsDir
  rfl

/-- What the clean-up leaves of the node that it finds under the old name. -/
def afterGhost (calls : RenameCalls) (env : Env) (old : Path) (n : Option Node) : Option Node :=
  if calls.oldOnSource.sees (env.source.node old) || holdsDir n then n
  else if calls.removesGhost || (calls.ghostOnTarget.sees n && calls.removesGhostAgain) then none
  else n

theorem afterGhost_cases (n : Option Node) :
    calls.afterGhost env old n = n ∨ calls.afterGhost env old n = none := by
  unfold afterGhost
  split_ifs <;> simp

theorem removeGhost_data : (calls.removeGhost env old t).data = t.data := by
  unfold removeGhost
  dsimp only
  split_ifs <;> simp only [Fs.removeFile_data]

theorem removeGhost_other {q : Path} (hq : q ≠ old) :
    (calls.removeGhost env old t).node q = t.node q := by
  unfold removeGhost
  dsimp only
  split_ifs <;> simp only [Fs.removeFile_other hq]

theorem removeGhost_self :
    (calls.removeGhost env old t).node old = calls.afterGhost env old (t.node old) := by
  have hremoved : (t.removeFile old).2.node old =
      if holdsDir (t.node old) = true then t.node old else none := by
    rw [Fs.removeFile_self, isDir_eq]
  have htwice : ((t.removeFile old).2.removeFile old).2.node old =
      if holdsDir (t.node old) = true then t.node old else none := by
    rw [Fs.removeFile_self, isDir_eq, hremoved]
    split_ifs <;> rfl
  unfold removeGhost afterGhost
  by_cases hsource : calls.oldOnSource.sees (env.source.node old) = true
  · simp [hsource]
  by_cases hfirst : calls.removesGhost = true
  · simp only [hsource, hfirst, if_true, Bool.false_or, Bool.true_or]
    split_ifs <;> simp_all
  · simp only [hsource, hfirst, if_false, Bool.false_or, Bool.false_eq_true]
    split_ifs <;> simp_all

end RenameCalls

/-! ## Renames that are kept -/

/-- The entry is under the new name as the source has it there, and not under an old name that
the source lacks. -/
structure RenameKept (source t : Fs) (old dest : Path) : Prop where
  there : source.Mirrors dest t dest
  gone : source.node old = none → t.node old = none

namespace RenameCalls
variable (calls : RenameCalls) (env : Env) (e : Event) (old dest : Path) (t : Fs)

/-- The target has under the old name what the source has under the new one, an exchange leaves
nothing that the source lacks, and the clean-up does not take an entry that keeps its name. -/
structure MovesRight : Prop where
  entry : env.source.Mirrors dest t old
  gone : env.source.node old = none →
    calls.afterGhost env old (calls.leftAtOld e old dest t) = none
  stays : old = dest → calls.afterGhost env old (t.node old) ≠ none

/-- A copy can open a regular file, or make one in a directory. -/
def opens (t : Fs) (p : Path) : Bool :=
  (t.regularAt p).isSome || ((t.node p).isNone && t.hasParent p)

/-- What a copy leaves at the destination, if it opens one. -/
def written : Option File :=
  match calls.readable env dest, calls.copy with
  | some _, .leaves part => if opens t dest then some part else none
  | some (_, content), .whole => if opens t dest then some content else none
  | _, _ => none

/-- The copy leaves the content that the source has under the new name; where it opens nothing,
the target has already what the source has there. Nothing is under an old name that the source
lacks. -/
structure CopiesRight : Prop where
  content : ∀ f, calls.written env dest (makeParent env calls.parentAgain dest t) = some f →
    env.source.regularAt dest = some f
  untouched : calls.written env dest (makeParent env calls.parentAgain dest t) = none →
    env.source.Mirrors dest t dest
  gone : env.source.node old = none → t.node old = none

/-- The call that moves the entry works, or finds the new name in use and works when it is
repeated. -/
def Moves : Prop :=
  let t := makeParent env calls.renameParent dest t
  match calls.rename with
  | none => ((if exchanges e then Fs.exchange old dest else Fs.rename old dest) t).1 = .ok ()
  | some .alreadyExists => calls.retry = none ∧
      (Fs.rename old dest (if calls.removesDest then (t.removeFile dest).2 else t)).1 = .ok ()
  | some _ => False

/-- The condition on the state that the rename finds once the directory of the new name has
been made, and on its calls. -/
def Keeps : Prop :=
  let t := makeParent env calls.parent dest t
  if calls.oldOnTarget.sees (t.node old) = true then
    calls.Moves env e old dest t → calls.MovesRight env e old dest t
  else if calls.newOnSource.sees (env.source.node dest) = true then
    calls.CopiesRight env old dest t
  else RenameKept env.source t old dest

variable {calls env e old dest t}

/-- The rename is kept exactly if the target was in step with the source before. -/
theorem kept_present_iff (ht : t.Rooted) (hold : t.node old ≠ none)
    (hdest : env.source.node dest ≠ none)
    (hok : (calls.renameTo env e old dest t).1 = .ok ()) :
    RenameKept env.source (calls.removeGhost env old (calls.renameTo env e old dest t).2) old
      dest ↔ calls.MovesRight env e old dest t := by
  have hrun : calls.renameTo env e old dest t =
      (.ok (), (calls.renameTo env e old dest t).2) := Prod.ext hok rfl
  obtain ⟨hmoved, hleft⟩ := renameTo_ok ht hold hrun
  generalize (calls.renameTo env e old dest t).2 = t' at hmoved hleft
  have hdata : (calls.removeGhost env old t').data = t.data := removeGhost_data.trans hmoved.data
  have hgone : (calls.removeGhost env old t').node old =
      calls.afterGhost env old (calls.leftAtOld e old dest t) := by
    rw [removeGhost_self, hleft]
  -- Unless the clean-up takes the entry itself, it is under the new name what it was.
  have hthere : (old = dest → calls.afterGhost env old (t.node old) ≠ none) →
      (env.source.Mirrors dest (calls.removeGhost env old t') dest ↔
        env.source.Mirrors dest t old) := by
    intro hstays
    refine Fs.mirrors_congr hdata fun r => ?_
    by_cases hr : dest ++ r = old
    · have hsame := hmoved.apart (.inr ⟨r, hr⟩)
      have hnode : t'.node old = t.node old := by
        have hentry := hmoved.entry []
        rwa [List.append_nil, List.append_nil, ← hsame] at hentry
      have hnil : r = [] := by
        have hlen := congrArg List.length hr
        rw [hsame, List.length_append] at hlen
        exact List.length_eq_zero_iff.mp (by omega)
      rw [hr, removeGhost_self, hnode,
        ((afterGhost_cases (t.node old)).resolve_right (hstays hsame)), hnil, List.append_nil]
    · rw [removeGhost_other hr]
      exact hmoved.entry r
  constructor
  · intro hkept
    have hstays : old = dest → calls.afterGhost env old (t.node old) ≠ none := by
      intro hsame hnone
      refine hkept.there.ne_none hdest ?_
      have hentry := hmoved.entry []
      rw [List.append_nil, List.append_nil, ← hsame] at hentry
      rw [← hsame, removeGhost_self, hentry, hnone]
    exact ⟨(hthere hstays).mp hkept.there, fun hlacks => hgone ▸ hkept.gone hlacks, hstays⟩
  · intro hmoves
    exact ⟨(hthere hmoves.stays).mpr hmoves.entry, fun hlacks => hgone.trans (hmoves.gone hlacks)⟩

theorem opens_iff (p : Path) : opens t p = true ↔
    (∃ j c, t.node p = some (.file j) ∧ (t.data j).kind = .regular c) ∨
      (t.node p = none ∧ t.hasParent p = true) := by
  unfold opens Fs.regularAt
  cases hp : t.node p with
  | none => simp
  | some n =>
    cases n with
    | file j => cases hk : (t.data j).kind <;> simp [hk]
    | dir m => simp
    | symlink d m => simp

/-- What a copy opens has the content afterwards; what it does not open stays as it is. -/
theorem overwrite_opened {i : FileId} {fresh : Meta} {f : Meta → Meta} {c : File} {p : Path}
    (h : opens t p = true) :
    (∃ j, (t.overwrite i fresh f c p).2.node p = some (.file j) ∧
        ((t.overwrite i fresh f c p).2.data j).kind = .regular c) ∧
      ∀ q, q ≠ p → (t.overwrite i fresh f c p).2.node q = t.node q := by
  rcases (opens_iff p).mp h with ⟨j, c', hp, hk⟩ | ⟨hp, hparent⟩
  · simp only [Fs.overwrite, hp, hk, Fs.setData_node, Fs.setData_data]
    exact ⟨⟨j, rfl, by simp⟩, fun _ _ => trivial⟩
  · simp only [Fs.overwrite, hp, Fs.link, hparent, if_true, Fs.setData_node, Fs.setNode_node,
      Fs.setData_data]
    exact ⟨⟨i, rfl, by simp⟩, fun q hq => by simp [hq]⟩

theorem overwrite_unopened {i : FileId} {fresh : Meta} {f : Meta → Meta} {c : File} {p : Path}
    (h : opens t p = false) : (t.overwrite i fresh f c p).2 = t := by
  have hnot : ¬ ((∃ j c, t.node p = some (.file j) ∧ (t.data j).kind = .regular c) ∨
      (t.node p = none ∧ t.hasParent p = true)) := fun hp => by
    rw [(opens_iff p).mpr hp] at h
    cases h
  rw [not_or] at hnot
  unfold Fs.overwrite
  cases hp : t.node p with
  | none =>
    have hparent : ¬ t.hasParent p = true := fun hparent => hnot.2 ⟨hp, hparent⟩
    simp [Fs.link, hparent]
  | some n =>
    cases n with
    | file j =>
      cases hk : (t.data j).kind with
      | regular c' => exact absurd ⟨j, c', hp, hk⟩ hnot.1
      | special m d => simp [hk]
    | dir m => rfl
    | symlink d m => rfl

theorem copyTo_written {f : File} (h : calls.written env dest t = some f) :
    (∃ j, (calls.copyTo env e dest t).node dest = some (.file j) ∧
        ((calls.copyTo env e dest t).data j).kind = .regular f) ∧
      ∀ q, q ≠ dest → (calls.copyTo env e dest t).node q = t.node q := by
  unfold written at h
  unfold copyTo
  cases hread : calls.readable env dest with
  | none =>
    rw [hread] at h
    cases h
  | some x =>
    obtain ⟨mode, content⟩ := x
    rw [hread] at h
    cases hcopy : calls.copy with
    | fails =>
      rw [hcopy] at h
      cases h
    | leaves part | whole =>
      rw [hcopy] at h
      dsimp only at h ⊢
      split_ifs at h with hopens
      cases h
      exact overwrite_opened hopens

theorem notDir_of_written {f : File} (h : calls.written env dest t = some f) :
    t.NotDir dest := by
  have hopens : opens t dest = true := by
    unfold written at h
    split at h
    · by_contra hnot
      rw [if_neg hnot] at h
      cases h
    · by_contra hnot
      rw [if_neg hnot] at h
      cases h
    · cases h
  rcases (opens_iff dest).mp hopens with ⟨j, c, hnode, -⟩ | ⟨hnode, -⟩ <;>
    simp [Fs.NotDir, Fs.isDir, hnode]

theorem copyTo_unwritten (h : calls.written env dest t = none) :
    calls.copyTo env e dest t = t := by
  unfold written at h
  unfold copyTo
  cases hread : calls.readable env dest with
  | none => rfl
  | some x =>
    obtain ⟨mode, content⟩ := x
    rw [hread] at h
    cases hcopy : calls.copy with
    | fails => rfl
    | leaves part | whole =>
      rw [hcopy] at h
      dsimp only at h ⊢
      split_ifs at h with hopens
      exact overwrite_unopened (by simpa using hopens)

/-- What the source lacks is neither written nor a directory on the way. -/
theorem copyTo_node_of_lacks (hsource : env.source.Rooted) (hdest : env.source.node dest ≠ none)
    (hlacks : env.source.node old = none) :
    (calls.copyTo env e dest (makeParent env calls.parentAgain dest t)).node old = t.node old := by
  have hne : old ≠ dest := fun heq => hdest (heq ▸ hlacks)
  have hway : ¬ (old <+: dest ∧ old ≠ dest) := by
    rintro ⟨hp, hne⟩
    exact Fs.node_ne_none_of_isDir (hsource.isDir_of_prefix hp hne hdest) hlacks
  have hparent : (makeParent env calls.parentAgain dest t).node old = t.node old :=
    makeParent_node (.inr hway)
  cases hw : calls.written env dest (makeParent env calls.parentAgain dest t) with
  | none => rw [copyTo_unwritten hw, hparent]
  | some f => rw [(copyTo_written hw).2 old hne, hparent]

/-- A copy that is written is one of the source exactly if the source has a file with what is
written. -/
theorem mirrors_written_iff (hsource : env.source.Rooted) (ht : t.Rooted)
    (hdest : env.source.node dest ≠ none) {f : File} (hw : calls.written env dest t = some f) :
    env.source.Mirrors dest (calls.copyTo env e dest t) dest ↔
      env.source.regularAt dest = some f := by
  obtain ⟨⟨j, hj, hk⟩, hother⟩ := copyTo_written (e := e) hw
  rw [Fs.regularAt_eq_some]
  constructor
  · intro hmirrors
    have hentry := hmirrors []
    rw [List.append_nil, hj] at hentry
    cases hn : env.source.node dest with
    | none => exact absurd hn hdest
    | some n =>
      rw [hn] at hentry
      cases n with
      | file i => exact ⟨i, rfl, Eq.trans hentry hk⟩
      | dir m | symlink d m => exact hentry.elim
  · rintro ⟨i, hi, hkind⟩ r
    by_cases hr : r = []
    · rw [hr, List.append_nil, hi, hj]
      exact hkind.trans hk.symm
    · rw [hother (dest ++ r) (by simpa using hr), ht.below (notDir_of_written hw) hr,
        hsource.below (by simp [Fs.NotDir, Fs.isDir, hi]) hr]
      trivial

/-- The copy is kept exactly if it leaves what the source has, or need not leave anything. -/
theorem kept_copied_iff (hsource : env.source.Rooted) (ht : t.Rooted)
    (hdest : env.source.node dest ≠ none) :
    RenameKept env.source (calls.copyTo env e dest (makeParent env calls.parentAgain dest t)) old
      dest ↔ calls.CopiesRight env old dest t := by
  set u := makeParent env calls.parentAgain dest t with hu
  have huntouched : calls.written env dest u = none →
      (env.source.Mirrors dest (calls.copyTo env e dest u) dest ↔ env.source.Mirrors dest t dest) :=
    fun hw => by
      rw [copyTo_unwritten hw]
      exact Fs.mirrors_congr makeParent_data makeParent_append
  have hwritten : ∀ f, calls.written env dest u = some f →
      (env.source.Mirrors dest (calls.copyTo env e dest u) dest ↔
        env.source.regularAt dest = some f) :=
    fun f hw => mirrors_written_iff hsource (hu ▸ ht.makeParent) hdest hw
  have hold (hlacks : env.source.node old = none) :
      (calls.copyTo env e dest u).node old = t.node old :=
    copyTo_node_of_lacks hsource hdest hlacks
  constructor
  · intro hkept
    exact ⟨fun f hw => (hwritten f hw).mp hkept.there, fun hw => (huntouched hw).mp hkept.there,
      fun hlacks => (hold hlacks).symm.trans (hkept.gone hlacks)⟩
  · intro hcopies
    refine ⟨?_, fun hlacks => (hold hlacks).trans (hcopies.gone hlacks)⟩
    cases hw : calls.written env dest u with
    | none => exact (huntouched hw).mpr (hcopies.untouched hw)
    | some f => exact (hwritten f hw).mpr (hcopies.content f hw)

theorem renameTo_ok_iff :
    (calls.renameTo env e old dest t).1 = .ok () ↔ calls.Moves env e old dest t := by
  unfold Moves
  cases hrename : calls.rename with
  | none => rw [renameTo_of_works hrename]
  | some f =>
    unfold renameTo
    rw [hrename]
    cases f with
    | alreadyExists =>
      cases hretry : calls.retry with
      | none => simp [attempted]
      | some f' => simp [attempted]
    | _ => simp [attempted]

theorem ne_none_of_sees {l : Lookup} {n : Option Node} (h : l.sees n = true) : n ≠ none := by
  rintro rfl
  cases l <;> cases h

/-- A rename is kept when it is reported as done, exactly under the condition on its calls. -/
theorem kept_run_iff (hsource : env.source.Rooted) (ht : t.Rooted)
    (hdest : env.source.node dest ≠ none) :
    ((calls.run env e old dest t).2.1 = .ok () →
        RenameKept env.source (calls.run env e old dest t).2.2 old dest) ↔
      calls.Keeps env e old dest t := by
  unfold Keeps
  dsimp only
  have ht' : (makeParent env calls.parent dest t).Rooted := ht.makeParent
  by_cases hold : calls.oldOnTarget.sees ((makeParent env calls.parent dest t).node old) = true
  · rw [run_present hold, if_pos hold]
    dsimp only
    by_cases hmoves : calls.Moves env e old dest (makeParent env calls.parent dest t)
    · have hok := renameTo_ok_iff.mpr hmoves
      rw [if_pos hok, forall_prop_of_true hok, forall_prop_of_true hmoves]
      exact kept_present_iff ht' (ne_none_of_sees hold) hdest hok
    · exact iff_of_true (fun hok => absurd (renameTo_ok_iff.mp hok) hmoves)
        fun h => absurd h hmoves
  rw [if_neg hold]
  by_cases hnew : calls.newOnSource.sees (env.source.node dest) = true
  · rw [run_copied hold hnew, if_pos hnew]
    exact (forall_prop_of_true rfl).trans (kept_copied_iff hsource ht' hdest)
  · rw [run_between hold hnew, if_neg hnew]
    exact forall_prop_of_true rfl

end RenameCalls

/-! ## Events -/

section Events
variable (env : Env) (calls : RenameCalls) (e : Event) (w : World)

/-- The names of an entry whose new one is missing: the recorded one, and the one that the inode
is resolved to. -/
def incompleteNames : Option (Path × Path) :=
  match (w.inodeMap e.inode).elim (some (components e.name)) IdentityEntry.primaryPath,
    Arm.resolveLivePath env e (w.inodeMap e.inode) with
  | some old, some (some path) => some (old, path)
  | _, _ => none

/-- The path of the event, and the names of the entry as the maps have them. -/
def renamedNames : Option (Path × Path × Path) :=
  ((resolution e w).1.bind ResolveResult.path?).bind fun p =>
    (if e.eventType = .renameIncomplete then incompleteNames env e (resolution e w).2
      else (Arm.renameNames e p (resolution e w).2).1).map fun names => (p, names)

/-- A rename that is reported as done is kept, or the source has nothing under the new name, or
a repair has been asked for; and an incomplete one whose inode is resolved is applied. -/
def RenameNotLost (o : Outcome) (target : Fs) : Prop :=
  ∀ p old new, renamedNames env e w = some (p, old, new) →
    (o.result = .ok () → RenameKept env.source target old new ∨ env.source.node new = none ∨
      ∃ job ∈ o.repairs, job.relPath = new) ∧
    (e.eventType = .renameIncomplete → o.result = .ok ())

/-- An excluded path is dropped, which is right if the target is in step already. An incomplete
rename is not resolved. A complete one meets the condition on its calls. -/
def RenameSafe : Prop :=
  ∀ p old new, renamedNames env e w = some (p, old, new) →
    if env.config.isPathExcluded p = true then
      env.source.node new ≠ none → RenameKept env.source w.target old new
    else e.eventType ≠ .renameIncomplete ∧
      (env.source.node new ≠ none → calls.Keeps env e old new w.target)

variable {env calls e w} {p old new : Path} {v : World}

theorem remembered_target (there : Bool) (v : World) :
    ((if there = true then Arm.rememberRename e p else Arm.rememberNew e p) v).2.target =
      v.target := by
  cases there with
  | true =>
    by_cases hn : e.newName.isSome = true
    · simp only [if_true, Arm.rememberRename, if_pos hn, StateM.run_modify]
      exact (updateMapAfterRename_entryUpdate ..).target v
    · simp only [if_true, Arm.rememberRename, if_neg hn, StateM.run_pure]
  | false =>
    by_cases hn : e.newName.isSome = true
    · simp only [Bool.false_eq_true, if_false, Arm.rememberNew, if_pos hn]
      exact (updateMap_entryUpdate ..).target v
    · simp only [Bool.false_eq_true, if_false, Arm.rememberNew, if_neg hn, StateM.run_pure]

/-- A rename without its second half is always reported as failed. -/
theorem renameIncomplete_fails {o : Outcome} (h : (Arm.renameIncomplete env e v).1 = some o) :
    o.result = .error .other := by
  unfold Arm.renameIncomplete at h
  simp only [StateM.run_bind] at h
  generalize (peek (fun w : World => w.inodeMap e.inode) v).1 = entry at h
  by_cases hpaths : entry.map (·.paths) = some []
  · rw [if_pos hpaths] at h
    cases h
  · rw [if_neg hpaths] at h
    cases hlive : Arm.resolveLivePath env e entry with
    | none =>
      rw [hlive] at h
      cases h
    | some livePath =>
      rw [hlive] at h
      cases h
      rfl

/-- No rename is lost exactly if every one meets the condition on its calls, what is excluded is
in step already, and no rename lacks its second half. -/
theorem rename_notLost_iff (hsource : env.source.Rooted) (htarget : w.target.Rooted)
    {o : Outcome} {w' : World} (hrun : processRename env calls e w = (some o, w')) :
    RenameNotLost env e w o w'.target ↔ RenameSafe env calls e w := by
  refine forall_congr' fun p => forall_congr' fun old => forall_congr' fun new =>
    imp_congr_right fun hnames => ?_
  obtain ⟨q, hp, hmap⟩ := Option.bind_eq_some_iff.mp hnames
  obtain ⟨names, hfound, heq⟩ := Option.map_eq_some_iff.mp hmap
  obtain ⟨rfl, rfl⟩ := Prod.mk.inj heq
  have htarget' := resolution_target e w
  rw [processRename_run hp] at hrun
  generalize (resolution e w).2 = v at hrun hfound htarget'
  by_cases hex : env.config.isPathExcluded q = true
  · rw [if_pos hex] at hrun ⊢
    obtain ⟨ho, rfl⟩ := Prod.mk.inj hrun
    obtain rfl := Option.some.inj ho
    rw [htarget']
    constructor
    · intro h hnew
      rcases h.1 rfl with hkept | hnone | ⟨job, hjob, -⟩
      · exact hkept
      · exact absurd hnone hnew
      · cases hjob
    · intro h
      refine ⟨fun _ => ?_, fun _ => rfl⟩
      by_cases hnew : env.source.node new = none
      · exact .inr (.inl hnew)
      · exact .inl (h hnew)
  rw [if_neg hex] at hrun ⊢
  by_cases hinc : e.eventType = .renameIncomplete
  · rw [if_pos hinc] at hrun
    have hfails := renameIncomplete_fails (congrArg Prod.fst hrun)
    rw [hfails]
    exact iff_of_false (fun h => by cases h.2 hinc) fun h => h.1 hinc
  rw [if_neg hinc] at hrun hfound
  have hstep : Arm.renameNames e q v = (some (old, new), (Arm.renameNames e q v).2) :=
    Prod.ext hfound rfl
  rw [renameWith_run hstep, renameNames_target, htarget'] at hrun
  obtain ⟨ho, rfl⟩ := Prod.mk.inj hrun
  obtain rfl := Option.some.inj ho
  rw [remembered_target]
  dsimp only
  constructor
  · intro h
    refine ⟨hinc, fun hnew => (RenameCalls.kept_run_iff hsource htarget hnew).mp fun hok => ?_⟩
    rcases h.1 hok with hkept | hnone | ⟨job, hjob, -⟩
    · exact hkept
    · exact absurd hnone hnew
    · cases hjob
  · intro h
    refine ⟨fun hok => ?_, fun hinc' => absurd hinc' hinc⟩
    by_cases hnew : env.source.node new = none
    · exact .inr (.inl hnew)
    · exact .inl ((RenameCalls.kept_run_iff hsource htarget hnew).mpr (h.2 hnew) hok)

end Events

/-! ## A directory that is not on the target yet -/

/-- A source with nothing but the entry `b`. -/
def sourceWith (n : Node) : Fs := (Fs.root ⟨493, 0, 0⟩).setNode ["b"] (some n)

theorem rooted_root (m : Meta) : (Fs.root m).Rooted := by
  intro q c hne
  simp [Fs.root] at hne

theorem rooted_sourceWith (n : Node) : (sourceWith n).Rooted := by
  intro q c hne
  have hq : q = [] := by
    by_contra hq
    have hone : q ++ [c] = [] ++ ["b"] := by simpa [sourceWith, Fs.root] using hne
    exact hq (List.append_inj_left' hone rfl)
  subst hq
  simp [sourceWith, Fs.isDir, Fs.root]

/-- The entry `a` is renamed to `b` in the root. -/
def renameToB : Event :=
  { Event.zero with
    eventType := .rename
    inode := 5
    parentInode := 2
    newParentInode := 2
    name := "a"
    newName := some "b" }

/-- Of the maps there is only the root. -/
def emptyTarget : World :=
  ⟨Fs.root ⟨493, 0, 0⟩, fun _ => none, fun i => if i = 2 then some [] else none⟩

theorem renamedNames_renameToB (source : Fs) :
    renamedNames (.plain source) renameToB emptyTarget = some (["a"], ["a"], ["b"]) := by
  rfl

theorem rename_notLost_iff_directory :
    RenameNotLost (.plain (sourceWith (.dir ⟨493, 0, 0⟩))) renameToB emptyTarget .done
        (processRename (.plain (sourceWith (.dir ⟨493, 0, 0⟩))) .fine renameToB
          emptyTarget).2.target ↔
      RenameSafe (.plain (sourceWith (.dir ⟨493, 0, 0⟩))) .fine renameToB emptyTarget :=
  rename_notLost_iff (rooted_sourceWith _) (rooted_root _) rfl

/-- The copy that is to stand in for the rename cannot copy a directory. -/
theorem directory_lost :
    ¬ ∀ (env : Env) (calls : RenameCalls) (e : Event) (w w' : World) (o : Outcome),
      env.source.Rooted → w.target.Rooted →
      e.eventType = .rename ∨ e.eventType = .renameIncomplete →
      processRename env calls e w = (some o, w') → RenameNotLost env e w o w'.target := by
  intro h
  have hlost := h (.plain (sourceWith (.dir ⟨493, 0, 0⟩))) .fine renameToB emptyTarget _ _
    (rooted_sourceWith _) (rooted_root _) (.inl rfl) rfl ["a"] ["a"] ["b"]
    (renamedNames_renameToB _)
  rcases hlost.1 rfl with hkept | hnone | ⟨job, hjob, -⟩
  · exact hkept.there []
  · cases hnone
  · cases hjob

end Foxing
