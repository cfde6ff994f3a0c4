import Foxing.IdentityAccesses

/-!
# Which entries of the identity map are evicted

A map that has grown beyond its limit is cut down to nine tenths of it: entries of unlinked
inodes go first, and then those that have not been used for the longest time. The sort is not
stable, so any order of equal entries may come out of it. A map within its limit loses the
entries that are unlinked or too old.
-/
namespace Foxing.Eviction
open Program (evictedBefore)

/-- An inode map in the order in which it is iterated. -/
structure InodeMap where
  entries : List (U64 × IdentityEntry)
  nodup : (entries.map Prod.fst).Nodup

namespace InodeMap

def retain (m : InodeMap) (keep : U64 × IdentityEntry → Bool) : InodeMap where
  entries := m.entries.filter keep
  nodup := (List.filter_sublist.map Prod.fst).nodup m.nodup

def remove (m : InodeMap) (inode : U64) : InodeMap := m.retain fun x => x.1 ≠ inode

end InodeMap

/-! ## The eviction -/

/-- An entry as the sort sees it: its inode, whether it is unlinked, and its last access. -/
abbrev Candidate := U64 × Bool × U64

def candidate (x : U64 × IdentityEntry) : Candidate := (x.1, x.2.unlinked, x.2.lastAccessedSeq)

/-- A sort that may bring equal elements into any order. -/
structure UnstableSort where
  sort : List Candidate → List Candidate
  perm : ∀ l, (sort l).Perm l
  sorted : ∀ l, (sort l).Pairwise fun a b => evictedBefore a b = true

theorem evictedBefore_iff {a b : Candidate} : evictedBefore a b = true ↔
    a.2.1 = true ∧ b.2.1 = false ∨ a.2.1 = b.2.1 ∧ a.2.2 ≤ b.2.2 := by
  obtain ⟨i, u, l⟩ := a
  obtain ⟨i', u', l'⟩ := b
  cases u <;> cases u' <;> simp [evictedBefore]

theorem evictedBefore_trans (a b c : Candidate) (hab : evictedBefore a b = true)
    (hbc : evictedBefore b c = true) : evictedBefore a c = true := by
  rw [evictedBefore_iff] at hab hbc ⊢
  rcases hab with ⟨ha, hb⟩ | ⟨hab, hle⟩
  · rcases hbc with ⟨hb', -⟩ | ⟨hbc, -⟩
    · exact absurd (hb.symm.trans hb') Bool.false_ne_true
    · exact .inl ⟨ha, hbc ▸ hb⟩
  · rcases hbc with ⟨hb, hc⟩ | ⟨hbc, hle'⟩
    · exact .inl ⟨hab ▸ hb, hc⟩
    · exact .inr ⟨hab.trans hbc, hle.trans hle'⟩

theorem evictedBefore_total (a b : Candidate) :
    (evictedBefore a b || evictedBefore b a) = true := by
  rw [Bool.or_eq_true, evictedBefore_iff, evictedBefore_iff]
  rcases Bool.eq_false_or_eq_true a.2.1 with ha | ha <;>
    rcases Bool.eq_false_or_eq_true b.2.1 with hb | hb <;> simp [ha, hb, le_total]

/-- Equal elements may also stay in their order. -/
instance : Inhabited UnstableSort where
  default := ⟨(List.mergeSort · evictedBefore), (List.mergeSort_perm · evictedBefore),
    List.pairwise_mergeSort evictedBefore_trans evictedBefore_total⟩

/-- The size of a candidate in bytes. -/
def candidateSize : ℕ := 24

/-- The candidates are collected in a vector, which has to fit in memory. -/
def pruneExpiredEntries (s : UnstableSort) (m : InodeMap) (limit currentGlobalSeq : U64) :
    Option InodeMap :=
  if limit.val < m.entries.length then
    let targetLen := limit * 9 / 10
    let excessCount := m.entries.length - targetLen.val
    if excessCount = 0 then some m
    else if 2 ^ 63 ≤ candidateSize * m.entries.length then none
    else
      let candidates := s.sort (m.entries.map candidate)
      some ((candidates.take excessCount).foldl (fun m c => m.remove c.1) m)
  else some (m.retain fun x => !x.2.shouldEvict currentGlobalSeq)

/-! ## What it is for -/

/-- The entries that are left are entries of the map, and among those that are removed there is
none that should have stayed rather than one that did. -/
structure CutDown (m m' : InodeMap) (limit : ℕ) : Prop where
  entries : ∀ x ∈ m'.entries, x ∈ m.entries
  length : m'.entries.length = limit * 9 / 10
  unlinkedFirst : ∀ x ∈ m.entries, x ∉ m'.entries → x.2.unlinked = false →
    ∀ y ∈ m'.entries, y.2.unlinked = false
  oldestFirst : ∀ x ∈ m.entries, x ∉ m'.entries → ∀ y ∈ m'.entries,
    x.2.unlinked = y.2.unlinked → x.2.lastAccessedSeq ≤ y.2.lastAccessedSeq

/-- What is removed is unlinked, or has not been used for too many events. -/
structure Expired (m m' : InodeMap) (currentGlobalSeq : U64) : Prop where
  entries : ∀ x ∈ m'.entries, x ∈ m.entries
  removed : ∀ x ∈ m.entries, x ∉ m'.entries ↔ x.2.unlinked = true ∨
    x.2.lastAccessedSeq.val + IdentityEntry.cacheTtlEvents < currentGlobalSeq.val

/-- A map is cut down or loses what has expired, unless it has become so large that the
candidates do not fit in memory. -/
def Exact (m : InodeMap) (limit currentGlobalSeq : U64) : Option InodeMap → Prop
  | none => limit.val < m.entries.length ∧ 2 ^ 63 ≤ candidateSize * m.entries.length
  | some m' => (limit.val < m.entries.length → CutDown m m' limit.val) ∧
      (m.entries.length ≤ limit.val → Expired m m' currentGlobalSeq)

/-! ## Removals -/

namespace InodeMap

theorem entries_foldl_remove (cs : List Candidate) (m : InodeMap) :
    (cs.foldl (fun m c => m.remove c.1) m).entries =
      m.entries.filter fun x => x.1 ∉ cs.map Prod.fst := by
  induction cs generalizing m with
  | nil => simp
  | cons c cs ih =>
    rw [List.foldl_cons, ih, remove, retain, List.filter_filter]
    refine List.filter_congr fun x _ => ?_
    rw [← Bool.decide_and, decide_eq_decide, List.map_cons, List.mem_cons, not_or]
    exact and_comm

/-- The removal of as many entries as there are inodes in a part of a sorted list. -/
theorem length_filter_take {m : InodeMap} {cs : List Candidate}
    (h : cs.Perm (m.entries.map candidate)) (n : ℕ) :
    (m.entries.filter fun x => x.1 ∉ (cs.take n).map Prod.fst).length = m.entries.length - n := by
  have hkeys : (cs.map Prod.fst).Perm (m.entries.map Prod.fst) := by
    refine (h.map Prod.fst).trans (List.Perm.of_eq ?_)
    rw [List.map_map]
    rfl
  have hnodup : (cs.map Prod.fst).Nodup := hkeys.nodup_iff.mpr m.nodup
  have hsplit : cs.map Prod.fst = (cs.take n).map Prod.fst ++ (cs.drop n).map Prod.fst := by
    rw [← List.map_append, List.take_append_drop]
  rw [hsplit, List.nodup_append] at hnodup
  -- The inodes that stay are those behind the part.
  have hfilter : (cs.map Prod.fst).filter (· ∉ (cs.take n).map Prod.fst) =
      (cs.drop n).map Prod.fst := by
    conv_lhs => rw [hsplit]
    rw [List.filter_append, List.filter_eq_nil_iff.mpr (by simp), List.nil_append,
      List.filter_eq_self]
    intro i hi
    exact decide_eq_true fun htaken => hnodup.2.2 i htaken i hi rfl
  have hstay := (hkeys.filter (· ∉ (cs.take n).map Prod.fst)).length_eq
  rw [hfilter, List.filter_map, List.length_map, List.length_map, List.length_drop] at hstay
  have hlen : cs.length = m.entries.length := by rw [h.length_eq, List.length_map]
  rw [← hlen]
  exact hstay.symm

end InodeMap

theorem shouldEvict_iff {entry : IdentityEntry} {currentGlobalSeq : U64} :
    entry.shouldEvict currentGlobalSeq = true ↔ entry.unlinked = true ∨
      entry.lastAccessedSeq.val + IdentityEntry.cacheTtlEvents < currentGlobalSeq.val := by
  rw [IdentityEntry.shouldEvict, Bool.or_eq_true, decide_eq_true_eq, Fin.lt_def]
  exact or_congr Iff.rfl (by omega)

/-! ## What is left -/

section CutDown
variable {m : InodeMap} {cs : List Candidate} {n : ℕ}

theorem candidate_mem_take (h : cs.Perm (m.entries.map candidate)) {x : U64 × IdentityEntry}
    (hx : x ∈ m.entries) (htaken : x.1 ∈ (cs.take n).map Prod.fst) :
    candidate x ∈ cs.take n := by
  obtain ⟨c, hc, hinode⟩ := List.mem_map.mp htaken
  obtain ⟨y, hy, rfl⟩ := List.mem_map.mp (h.mem_iff.mp (List.mem_of_mem_take hc))
  have heq : y = x := List.inj_on_of_nodup_map m.nodup hy hx hinode
  rw [← heq]
  exact hc

theorem candidate_mem_drop (h : cs.Perm (m.entries.map candidate)) {x : U64 × IdentityEntry}
    (hx : x ∈ m.entries) (hkept : x.1 ∉ (cs.take n).map Prod.fst) :
    candidate x ∈ cs.drop n := by
  have hmem : candidate x ∈ cs := h.mem_iff.mpr (List.mem_map_of_mem hx)
  rw [← List.take_append_drop n cs, List.mem_append] at hmem
  exact hmem.resolve_left fun htaken => hkept (List.mem_map_of_mem htaken)

/-- The entries at the beginning of a sorted list are removed. -/
theorem cutDown_of_sorted {m' : InodeMap} {limit : ℕ} (hperm : cs.Perm (m.entries.map candidate))
    (hsorted : cs.Pairwise fun a b => evictedBefore a b = true)
    (hm' : m'.entries = m.entries.filter fun x => x.1 ∉ (cs.take n).map Prod.fst)
    (hn : m.entries.length - n = limit * 9 / 10) : CutDown m m' limit := by
  have hmem : ∀ x, x ∈ m'.entries ↔ x ∈ m.entries ∧ x.1 ∉ (cs.take n).map Prod.fst := by
    intro x
    rw [hm', List.mem_filter, decide_eq_true_eq]
  have hbefore : ∀ x ∈ m.entries, x ∉ m'.entries → ∀ y ∈ m'.entries,
      evictedBefore (candidate x) (candidate y) = true := by
    intro x hx hremoved y hy
    rw [hmem] at hremoved hy
    have htaken : x.1 ∈ (cs.take n).map Prod.fst := by
      by_contra hkept
      exact hremoved ⟨hx, hkept⟩
    rw [← List.take_append_drop n cs, List.pairwise_append] at hsorted
    exact hsorted.2.2 _ (candidate_mem_take hperm hx htaken) _
      (candidate_mem_drop hperm hy.1 hy.2)
  refine ⟨fun x hx => ((hmem x).mp hx).1, ?_, ?_, ?_⟩
  · rw [hm', InodeMap.length_filter_take hperm, hn]
  · intro x hx hremoved hlinked y hy
    rcases evictedBefore_iff.mp (hbefore x hx hremoved y hy) with ⟨hunlinked, -⟩ | ⟨hsame, -⟩
    · exact absurd (hlinked.symm.trans hunlinked) Bool.false_ne_true
    · exact hsame.symm.trans hlinked
  · intro x hx hremoved y hy hsame
    rcases evictedBefore_iff.mp (hbefore x hx hremoved y hy) with ⟨hunlinked, hlinked⟩ | ⟨-, hle⟩
    · exact absurd ((hunlinked.symm.trans hsame).trans hlinked) (Bool.false_ne_true ∘ Eq.symm)
    · exact hle

end CutDown

theorem expired_retain (m : InodeMap) (currentGlobalSeq : U64) :
    Expired m (m.retain fun x => !x.2.shouldEvict currentGlobalSeq) currentGlobalSeq := by
  have hmem : ∀ x, x ∈ (m.retain fun x => !x.2.shouldEvict currentGlobalSeq).entries ↔
      x ∈ m.entries ∧ x.2.shouldEvict currentGlobalSeq = false := by
    intro x
    rw [InodeMap.retain, List.mem_filter, Bool.not_eq_true']
  refine ⟨fun x hx => ((hmem x).mp hx).1, fun x hx => ?_⟩
  rw [hmem, ← shouldEvict_iff, not_and, Bool.not_eq_false]
  exact ⟨fun h => h hx, fun h _ => h⟩

theorem lowWater_le (limit : U64) : (limit * 9 / 10).val ≤ limit.val := by
  have hmul : (limit * 9).val ≤ limit.val * 9 := (Fin.val_mul limit 9).trans_le (Nat.mod_le _ _)
  have hten : (10 : U64).val = 10 := rfl
  rw [Fin.div_val, hten]
  omega

/-- A map whose candidates fit in memory is small enough for the low water mark not to leave
64 bits. -/
theorem val_lowWater (limit : U64) (h : limit.val * 9 < 2 ^ 64) :
    (limit * 9 / 10).val = limit.val * 9 / 10 := by
  have hmul : (limit * 9).val = limit.val * 9 := (Fin.val_mul limit 9).trans (Nat.mod_eq_of_lt h)
  rw [Fin.div_val, hmul]
  rfl

/-- The eviction is exact, however the sort orders what is equal. -/
theorem pruneExpiredEntries_exact (s : UnstableSort) (m : InodeMap) (limit currentGlobalSeq : U64) :
    Exact m limit currentGlobalSeq (pruneExpiredEntries s m limit currentGlobalSeq) := by
  unfold pruneExpiredEntries
  by_cases hover : limit.val < m.entries.length
  · rw [if_pos hover]
    dsimp only
    split_ifs with hexcess hmemory
    · have hle := lowWater_le limit
      omega
    · exact ⟨hover, hmemory⟩
    · have hlow := val_lowWater limit (by unfold candidateSize at hmemory; omega)
      refine ⟨fun _ => ?_, fun hwithin => absurd hover (by omega)⟩
      refine cutDown_of_sorted (s.perm _) (s.sorted _) (InodeMap.entries_foldl_remove _ m) ?_
      have hle := lowWater_le limit
      omega
  · rw [if_neg hover]
    exact ⟨fun h => absurd h hover, fun _ => expired_retain m currentGlobalSeq⟩

end Foxing.Eviction
