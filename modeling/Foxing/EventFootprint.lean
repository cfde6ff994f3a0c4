import Foxing.WorkerLocality

/-!
# What an event reads and writes

The footprint of an event in a state of the worker: the map entries of its inode
and of the directories it names, the nodes around the paths it acts on, and the
data of the files there. It depends on the state, since the maps lead to the
paths, but only on the part of the state that the event reads.
-/
namespace Foxing

open World (cells)

variable {e : Event} {w w' : World} {p q : Path}

/-- The event acts on the path: the path it is resolved to, or the old or the new
path of a rename. -/
def Acts (e : Event) (w : World) (p : Path) : Prop :=
  ∃ r, (resolution e w).1.bind ResolveResult.path? = some r ∧
    if e.eventType = .rename then
      (resolveEventPath e.parentInode e.name (resolution e w).2).1 = some p ∨
        (Arm.renameDest e r (resolveEventPath e.parentInode e.name (resolution e w).2).2).1 = some p
    else p = r

/-- The path that a new link shares its file with. -/
def linkedPath (e : Event) (w : World) : Option Path :=
  if e.eventType = .link then
    ((resolution e w).2.inodeMap e.inode).bind IdentityEntry.primaryPath
  else none

/-- The file at a path, or the one that the event would make there. -/
def HasFile (e : Event) (w : World) (p : Path) (i : FileId) : Prop :=
  w.target.node p = some (.file i) ∨ i = .made e.seqNum p

/-- The inodes that an event names. -/
def Names (e : Event) (i : U64) : Prop :=
  i = e.inode ∨ i = e.parentInode ∨ i = e.newParentInode

def reads (e : Event) (w : World) : Set Cell
  | .inode i => Names e i
  | .dir i => Names e i
  | .node q => (∃ p, Acts e w p ∧ Near p q) ∨ ∃ p, linkedPath e w = some p ∧ Near p q
  | .data i => ∃ p, Acts e w p ∧ HasFile e w p i

/-- A directory is written to the map when only the inode map knows it, and missing
directories on the way to a path are made. -/
def writes (e : Event) (w : World) : Set Cell
  | .inode i => i = e.inode
  | .dir i => i = e.inode ∨ (Names e i ∧ w.dirMap i = none ∧ w.inodeMap i ≠ none)
  | .node q => ∃ p, Acts e w p ∧
      (q = p ∨ (e.eventType = .rename ∧ p <+: q) ∨ (q <+: p ∧ w.target.node q = none))
  | .data i => ∃ p, Acts e w p ∧ HasFile e w p i

theorem writes_sub_reads (e : Event) (w : World) : writes e w ⊆ reads e w := by
  intro c hc
  cases c with
  | inode i => exact .inl hc
  | dir i => exact hc.elim .inl fun h => h.1
  | data i => exact hc
  | node q =>
    obtain ⟨p, hp, hq⟩ := hc
    refine .inl ⟨p, hp, ?_⟩
    rcases hq with rfl | ⟨-, hq⟩ | ⟨hq, -⟩
    · exact .inl List.prefix_rfl
    · exact .inl hq
    · exact .inr hq

theorem dirRoom_foot {i : U64} (hi : Names e i) : DirRoom i (reads e w) (writes e w) w where
  dir := hi
  inode := hi
  own h := .inl h
  learned hd hn := .inr ⟨hi, hd, hn⟩

theorem mapRoom_foot (e : Event) (w : World) : MapRoom e (reads e w) (writes e w) w where
  sub := writes_sub_reads e w
  inode := rfl
  dir := .inl rfl
  parent := dirRoom_foot (.inr (.inl rfl))
  newParent := dirRoom_foot (.inr (.inr rfl))

theorem pathRoom_foot (hp : Acts e w p) : PathRoom e p (reads e w) (writes e w) w.target where
  sub := writes_sub_reads e w
  near _ hq := .inl ⟨p, hp, hq⟩
  node := ⟨p, hp, .inl rfl⟩
  made := ⟨p, hp, .inr rfl⟩
  data _ hi := ⟨p, hp, .inl hi⟩

theorem ancestorRoom_foot (hp : Acts e w p) : AncestorRoom p (writes e w) w.target :=
  fun _ hq hnone => ⟨p, hp, .inr (.inr ⟨hq, hnone⟩)⟩

theorem armRoom_foot (hp : (resolution e w).1.bind ResolveResult.path? = some p) :
    ArmRoom e p (reads e w) (writes e w) (resolution e w).2 := by
  have htarget := resolution_target e w
  have hacts : e.eventType ≠ .rename → Acts e w p := by
    intro ht
    refine ⟨p, hp, ?_⟩
    rw [if_neg ht]
  refine ⟨fun ht => ?_, fun ht => ?_, fun ht entry existing hentry hpath q hq => ?_,
    fun ht old dest hold hdest => ?_⟩
  · rw [htarget]
    exact pathRoom_foot (hacts ht)
  · have hne : e.eventType ≠ .rename := by
      intro heq
      simp [heq, EventType.makesParents] at ht
    rw [htarget]
    exact ancestorRoom_foot (hacts hne)
  · refine .inr ⟨existing, ?_, hq⟩
    rw [linkedPath, if_pos ht, hentry, Option.bind_some, hpath]
  · have hactsOld : Acts e w old := ⟨p, hp, by rw [if_pos ht]; exact .inl hold⟩
    have hactsDest : Acts e w dest := ⟨p, hp, by rw [if_pos ht]; exact .inr hdest⟩
    rw [htarget]
    exact ⟨fun q hq => .inl ⟨old, hactsOld, hq⟩,
      fun q hq => ⟨old, hactsOld, .inr (.inl ⟨ht, hq⟩)⟩,
      fun q hq => ⟨dest, hactsDest, .inr (.inl ⟨ht, hq⟩)⟩,
      pathRoom_foot hactsDest, ancestorRoom_foot hactsDest⟩

/-- An attempt stays within the footprint of its event. -/
theorem local_attempt (env : Env) (fault : Option ℕ) (e : Event) (w : World) :
    Local (reads e w) (writes e w) (processSingleEvent env fault e) w :=
  local_processSingleEvent env fault (mapRoom_foot e w) fun _ hp => armRoom_foot hp

/-! ## Footprints in states that agree -/

section Agreement
variable (h : cells.Agree (reads e w) w w')
include h

theorem acts_of_agree : Acts e w' p ↔ Acts e w p := by
  have hm := mapRoom_foot e w
  have hres := local_resolution hm
  obtain ⟨hsame, hagree, -⟩ := hres w' h
  have hm₁ := hm.after hres
  have hfirst := local_resolveEventPath e.name hm₁.parent
  obtain ⟨hold, hagree₁, -⟩ := hfirst _ hagree
  have hdest : ∀ r, (Arm.renameDest e r
      (resolveEventPath e.parentInode e.name (resolution e w').2).2).1 =
      (Arm.renameDest e r (resolveEventPath e.parentInode e.name (resolution e w).2).2).1 :=
    fun r => (local_renameDest (hm₁.after hfirst) _ hagree₁).1
  simp only [Acts, hsame, hold, hdest]

theorem linkedPath_of_agree : linkedPath e w' = linkedPath e w := by
  obtain ⟨-, hagree, -⟩ := local_resolution (mapRoom_foot e w) w' h
  have hentry : (resolution e w).2.inodeMap e.inode = (resolution e w').2.inodeMap e.inode :=
    hagree (.inode e.inode) (.inl rfl)
  rw [linkedPath, linkedPath, hentry]

theorem node_of_agree (hp : Acts e w p) (hq : Near p q) : w'.target.node q = w.target.node q :=
  (h (.node q) (.inl ⟨p, hp, hq⟩)).symm

theorem hasFile_of_agree (hp : Acts e w p) {i : FileId} : HasFile e w' p i ↔ HasFile e w p i := by
  rw [HasFile, HasFile, node_of_agree h hp (.inl List.prefix_rfl)]

theorem data_of_agree (i : FileId) :
    (∃ p, Acts e w' p ∧ HasFile e w' p i) ↔ ∃ p, Acts e w p ∧ HasFile e w p i := by
  refine exists_congr fun p => ?_
  rw [acts_of_agree h]
  exact and_congr_right fun hp => hasFile_of_agree h hp

theorem reads_of_agree : reads e w' = reads e w := by
  ext c
  cases c with
  | inode i => exact Iff.rfl
  | dir i => exact Iff.rfl
  | data i => exact data_of_agree h i
  | node q =>
    show ((∃ p, Acts e w' p ∧ Near p q) ∨ ∃ p, linkedPath e w' = some p ∧ Near p q) ↔
      ((∃ p, Acts e w p ∧ Near p q) ∨ ∃ p, linkedPath e w = some p ∧ Near p q)
    rw [linkedPath_of_agree h]
    simp only [acts_of_agree h]

theorem writes_of_agree : writes e w' = writes e w := by
  ext c
  cases c with
  | inode i => exact Iff.rfl
  | data i => exact data_of_agree h i
  | dir i =>
    show (i = e.inode ∨ (Names e i ∧ w'.dirMap i = none ∧ w'.inodeMap i ≠ none)) ↔
      (i = e.inode ∨ (Names e i ∧ w.dirMap i = none ∧ w.inodeMap i ≠ none))
    refine or_congr_right (and_congr_right fun hi => ?_)
    have hdir : w.dirMap i = w'.dirMap i := h (.dir i) hi
    have hinode : w.inodeMap i = w'.inodeMap i := h (.inode i) hi
    rw [hdir, hinode]
  | node q =>
    refine exists_congr fun p => ?_
    rw [acts_of_agree h]
    refine and_congr_right fun hp => or_congr_right (or_congr_right ?_)
    exact and_congr_right fun hq => by rw [node_of_agree h hp (.inr hq)]

end Agreement

end Foxing
