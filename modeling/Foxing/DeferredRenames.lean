import Foxing.IdentityAccesses

/-!
# Deferred renames

The projector defers the renames of an inode that is not in the map, and projects them when the
inode is created. Links and the workers' updates of the map make inodes known as well, and leave
the deferred renames where they are. Only the projector's thread looks at the deferred renames,
so between two of the renames that it projects the workers may do anything to the maps.
-/
namespace Foxing

namespace IdentityProjector

variable (s : IdentityProjector)

def Known (inode : U64) : Prop := (s.inodeMap inode).isSome = true

instance (inode : U64) : Decidable (s.Known inode) := inferInstanceAs (Decidable (_ = _))

/-- The maps of a directory that is created in the shard of its parent: the call waits for
itself when it has put down the new inode. -/
def halfCreated (e : Event) : IdentityProjector :=
  match s.dirMap e.parentInode with
  | some parentPath => s.updateIdentity e (Path.join parentPath e.name)
  | none => s

/-! ## What the operations make known -/

theorem known_setEntry (i : U64) (entry : Option IdentityEntry) (j : U64) :
    (s.setEntry i entry).Known j ↔ if j = i then entry.isSome = true else s.Known j := by
  unfold Known setEntry
  dsimp only
  rw [Function.update_apply]
  split_ifs <;> rfl

/-- An entry that is changed in its place. -/
theorem known_setEntry_self {i : U64} {entry entry' : IdentityEntry}
    (h : s.inodeMap i = some entry) (j : U64) :
    (s.setEntry i (some entry')).Known j ↔ s.Known j := by
  rw [known_setEntry]
  split_ifs with hj
  · simp [Known, hj, h]
  · rfl

theorem known_setEntry_some (i : U64) (entry : IdentityEntry) (j : U64) :
    (s.setEntry i (some entry)).Known j ↔ j = i ∨ s.Known j := by
  rw [known_setEntry]
  split_ifs with hj
  · simp [hj]
  · simp [hj]

theorem known_updateIdentity (e : Event) (path : Path) (j : U64) :
    (s.updateIdentity e path).Known j ↔ j = e.inode ∨ s.Known j := by
  rw [updateIdentity]
  cases s.inodeMap e.inode <;> exact s.known_setEntry_some e.inode _ j

theorem known_addIdentityPath (e : Event) (path : Path) (j : U64) :
    (s.addIdentityPath e path).Known j ↔ j = e.inode ∨ s.Known j := by
  rw [addIdentityPath]
  cases s.inodeMap e.inode <;> exact s.known_setEntry_some e.inode _ j

theorem known_of_setEntry_none {i j : U64} (h : (s.setEntry i none).Known j) : s.Known j := by
  rw [known_setEntry] at h
  split_ifs at h with hj
  · cases h
  · exact h

theorem known_of_removeIdentityPath {i j : U64} {path : Path}
    (h : (s.removeIdentityPath i path).Known j) : s.Known j := by
  rw [removeIdentityPath] at h
  cases hentry : s.inodeMap i with
  | none => simpa only [hentry] using h
  | some entry =>
    simp only [hentry] at h
    split_ifs at h
    · exact s.known_of_setEntry_none h
    · exact (s.known_setEntry_self hentry j).mp h

theorem known_removeIdentityPath_of_ne {i j : U64} (path : Path) (hj : j ≠ i) :
    (s.removeIdentityPath i path).Known j ↔ s.Known j := by
  rw [removeIdentityPath]
  cases hentry : s.inodeMap i with
  | none => rfl
  | some entry =>
    dsimp only
    split_ifs
    · rw [known_setEntry, if_neg hj]
    · exact s.known_setEntry_self hentry j

theorem known_swapIdentityPath (i j : U64) (oldPath newPath : Path) :
    (s.swapIdentityPath i oldPath newPath).Known j ↔ s.Known j := by
  rw [swapIdentityPath]
  cases hentry : s.inodeMap i with
  | none => rfl
  | some entry => exact s.known_setEntry_self hentry j

@[simp] theorem known_setDir (i j : U64) (path : Option Path) :
    (s.setDir i path).Known j ↔ s.Known j := Iff.rfl

theorem known_standardRename {e : Event} (he : s.Known e.inode) (pathA pathB : Path) (j : U64) :
    (s.standardRename e pathA pathB).Known j ↔ s.Known j := by
  have hupdate : ((s.removeIdentityPath e.inode pathA).updateIdentity e pathB).Known j ↔
      s.Known j := by
    rw [known_updateIdentity]
    by_cases hj : j = e.inode
    · rw [hj]
      exact iff_of_true (.inl rfl) he
    · rw [s.known_removeIdentityPath_of_ne pathA hj]
      simp [hj]
  rw [standardRename]
  split_ifs
  · exact hupdate
  · exact hupdate

theorem known_exchangeRename {e : Event} (he : s.Known e.inode) (order : List U64)
    (pathA pathB : Path) (j : U64) :
    (s.exchangeRename order e pathA pathB).Known j ↔ s.Known j := by
  rw [exchangeRename]
  cases s.findInodeByRelPath order pathB with
  | none =>
    have hupdate : (s.updateIdentity e pathB).Known j ↔ s.Known j := by
      rw [known_updateIdentity]
      exact or_iff_right_of_imp fun hj => hj ▸ he
    dsimp only
    split_ifs
    · exact hupdate
    · exact hupdate
  | some inodeB =>
    have hswap : ((s.swapIdentityPath inodeB pathB pathA).swapIdentityPath e.inode pathA
        pathB).Known j ↔ s.Known j := by
      rw [known_swapIdentityPath, known_swapIdentityPath]
    dsimp only
    split_ifs <;> exact hswap

/-- A rename of a known inode makes none known, and makes none unknown. -/
theorem known_projectRename {e : Event} (he : s.Known e.inode) (order : List U64) (j : U64) :
    (s.projectRename order e).Known j ↔ s.Known j := by
  obtain ⟨entry, hentry⟩ := Option.isSome_iff_exists.mp he
  rw [projectRename, hentry]
  dsimp only
  cases e.newName with
  | none => rfl
  | some newName =>
    dsimp only
    split_ifs
    · exact s.known_exchangeRename he order _ _ j
    · exact s.known_standardRename he _ _ j

/-! ## What the operations leave deferred -/

theorem pendingRenames_updateIdentity (e : Event) (path : Path) :
    (s.updateIdentity e path).pendingRenames = s.pendingRenames := by
  rw [updateIdentity]
  cases s.inodeMap e.inode <;> rfl

theorem pendingRenames_addIdentityPath (e : Event) (path : Path) :
    (s.addIdentityPath e path).pendingRenames = s.pendingRenames := by
  rw [addIdentityPath]
  cases s.inodeMap e.inode <;> rfl

theorem pendingRenames_removeIdentityPath (i : U64) (path : Path) :
    (s.removeIdentityPath i path).pendingRenames = s.pendingRenames := by
  rw [removeIdentityPath]
  cases s.inodeMap i with
  | none => rfl
  | some entry =>
    dsimp only
    split_ifs <;> rfl

theorem pendingRenames_swapIdentityPath (i : U64) (oldPath newPath : Path) :
    (s.swapIdentityPath i oldPath newPath).pendingRenames = s.pendingRenames := by
  rw [swapIdentityPath]
  cases s.inodeMap i <;> rfl

theorem pendingRenames_standardRename (e : Event) (pathA pathB : Path) :
    (s.standardRename e pathA pathB).pendingRenames = s.pendingRenames := by
  have hupdate := (s.removeIdentityPath e.inode pathA).pendingRenames_updateIdentity e pathB
  rw [pendingRenames_removeIdentityPath] at hupdate
  rw [standardRename]
  split_ifs
  · exact hupdate
  · exact hupdate

theorem pendingRenames_exchangeRename (order : List U64) (e : Event) (pathA pathB : Path) :
    (s.exchangeRename order e pathA pathB).pendingRenames = s.pendingRenames := by
  rw [exchangeRename]
  cases s.findInodeByRelPath order pathB with
  | none =>
    have hupdate := s.pendingRenames_updateIdentity e pathB
    dsimp only
    split_ifs
    · exact hupdate
    · exact hupdate
  | some inodeB =>
    have hswap := (s.swapIdentityPath inodeB pathB pathA).pendingRenames_swapIdentityPath e.inode
      pathA pathB
    rw [s.pendingRenames_swapIdentityPath] at hswap
    dsimp only
    split_ifs <;> exact hswap

theorem pendingRenames_projectRename {e : Event} (he : s.Known e.inode) (order : List U64) :
    (s.projectRename order e).pendingRenames = s.pendingRenames := by
  obtain ⟨entry, hentry⟩ := Option.isSome_iff_exists.mp he
  rw [projectRename, hentry]
  dsimp only
  cases e.newName with
  | none => rfl
  | some newName =>
    dsimp only
    split_ifs
    · exact s.pendingRenames_exchangeRename order e _ _
    · exact s.pendingRenames_standardRename e _ _

theorem known_editEntry (i j : U64) (f : IdentityEntry → IdentityEntry) :
    (s.editEntry i f).Known j ↔ s.Known j := by
  rw [editEntry]
  cases hentry : s.inodeMap i with
  | none => rfl
  | some entry => exact s.known_setEntry_self hentry j

theorem pendingRenames_editEntry (i : U64) (f : IdentityEntry → IdentityEntry) :
    (s.editEntry i f).pendingRenames = s.pendingRenames := by
  rw [editEntry]
  cases s.inodeMap i <;> rfl

/-- A rename of an unknown inode is put behind the others of its inode. -/
theorem projectRename_unknown {e : Event} (he : ¬s.Known e.inode) (order : List U64) :
    s.projectRename order e = s.setPending e.inode (s.pendingRenames e.inode ++ [e]) := by
  have hnone : s.inodeMap e.inode = none := by simpa [Known] using he
  rw [projectRename, hnone]
  rfl

/-- A creation waits for itself exactly if the new directory belongs to its parent's shard. -/
theorem createIdentity_eq_none (shard : U64 → ℕ) (e : Event) :
    s.createIdentity shard e = none ↔ e.parentInode ≠ 0 ∧
      (s.dirMap e.parentInode).isSome = true ∧ e.eventType = .mkdir ∧
        shard e.inode = shard e.parentInode := by
  rw [createIdentity]
  by_cases hparent : e.parentInode = 0
  · simp [hparent]
  · rw [if_neg hparent]
    cases s.dirMap e.parentInode with
    | none => simp
    | some parentPath =>
      dsimp only
      split_ifs <;> simp_all

theorem createIdentity_some {shard : U64 → ℕ} {e : Event} {s' : IdentityProjector}
    (h : s.createIdentity shard e = some s') :
    s'.pendingRenames = s.pendingRenames ∧ ∀ j, s'.Known j → s.Known j ∨ j = e.inode := by
  have hupdate : ∀ path, (s.updateIdentity e path).pendingRenames = s.pendingRenames ∧
      ∀ j, (s.updateIdentity e path).Known j → s.Known j ∨ j = e.inode := by
    intro path
    refine ⟨s.pendingRenames_updateIdentity e path, fun j hj => ?_⟩
    exact ((s.known_updateIdentity e path j).mp hj).symm
  rw [createIdentity] at h
  by_cases hparent : e.parentInode = 0
  · rw [if_pos hparent] at h
    obtain rfl := Option.some.inj h
    exact ⟨rfl, fun _ => .inl⟩
  · rw [if_neg hparent] at h
    cases hdir : s.dirMap e.parentInode with
    | none =>
      rw [hdir] at h
      obtain rfl := Option.some.inj h
      exact ⟨rfl, fun _ => .inl⟩
    | some parentPath =>
      rw [hdir] at h
      dsimp only at h
      split_ifs at h <;> obtain rfl := Option.some.inj h <;>
        exact hupdate (Path.join parentPath e.name)

theorem halfCreated_eq {e : Event} {parentPath : Path}
    (h : s.dirMap e.parentInode = some parentPath) :
    s.halfCreated e = s.updateIdentity e (Path.join parentPath e.name) := by
  rw [halfCreated, h]

end IdentityProjector

namespace Access

/-- The accesses of the components other than the projector. -/
def IsWorkers : Access → Prop
  | updateIdentity _ _ | addIdentityPath _ _ | deferRename _ | takeDeferred _ => False
  | _ => True

/-- The inode that gets an entry if it has none. -/
def inserted : Access → Option U64
  | mapEntry inode _ _ _ _ | mapRenamedEntry inode _ _ _ _ => some inode
  | _ => none

variable {a : Access} {s : IdentityProjector} {j : U64}

/-- A worker puts an entry in, changes one in its place, or takes one out. -/
theorem apply_cases (ha : a.IsWorkers) (s : IdentityProjector) :
    (∃ i entry, a.inserted = some i ∧ a.apply s = s.setEntry i (some entry)) ∨
    a.inserted = none ∧ ((∃ i f, a.apply s = s.editEntry i f) ∨
      (∃ i, a.apply s = s.setEntry i none) ∨ (∃ i path, a.apply s = s.setDir i path) ∨
      a.apply s = s) := by
  cases a with
  | updateIdentity e path => exact ha.elim
  | addIdentityPath e path => exact ha.elim
  | deferRename e => exact ha.elim
  | takeDeferred inode => exact ha.elim
  | mapEntry inode relPath generation timestampNs seqNum =>
    rw [apply, IdentityProjector.mapEntry]
    cases s.inodeMap inode <;> exact .inl ⟨inode, _, rfl, rfl⟩
  | mapRenamedEntry inode newRelPath generation timestampNs seqNum =>
    rw [apply, IdentityProjector.mapRenamedEntry]
    cases s.inodeMap inode <;> exact .inl ⟨inode, _, rfl, rfl⟩
  | evict inode currentGlobalSeq =>
    rw [apply]
    split_ifs
    · exact .inr ⟨rfl, .inr (.inl ⟨inode, rfl⟩)⟩
    · exact .inr ⟨rfl, .inr (.inr (.inr rfl))⟩
  | removeEntry inode => exact .inr ⟨rfl, .inr (.inl ⟨inode, rfl⟩)⟩
  | setDir inode path => exact .inr ⟨rfl, .inr (.inr (.inl ⟨inode, path, rfl⟩))⟩
  | read => exact .inr ⟨rfl, .inr (.inr (.inr rfl))⟩
  | removePath inode path | recordAccess inode seq | recordUse inode | recordUnlinked inode
  | setGeneration inode generation | clearPaths inode | addPath inode path
  | swapPaths inode oldPath newPath => exact .inr ⟨rfl, .inl ⟨inode, _, rfl⟩⟩

theorem known_of_apply (ha : a.IsWorkers) (h : (a.apply s).Known j) :
    s.Known j ∨ a.inserted = some j := by
  obtain ⟨i, entry, hinserted, heq⟩ | ⟨-, ⟨i, f, heq⟩ | ⟨i, heq⟩ | ⟨i, path, heq⟩ | heq⟩ :=
    apply_cases ha s <;> rw [heq] at h
  · obtain rfl | hknown := (s.known_setEntry_some i entry j).mp h
    · exact .inr hinserted
    · exact .inl hknown
  · exact .inl ((s.known_editEntry i j f).mp h)
  · exact .inl (s.known_of_setEntry_none h)
  · exact .inl h
  · exact .inl h

theorem known_inserted (ha : a.IsWorkers) (h : a.inserted = some j) : (a.apply s).Known j := by
  obtain ⟨i, entry, hinserted, heq⟩ | ⟨hnone, -⟩ := apply_cases ha s
  · rw [h] at hinserted
    rw [heq, Option.some.inj hinserted]
    exact (s.known_setEntry_some i entry i).mpr (.inl rfl)
  · rw [h] at hnone
    cases hnone

theorem pendingRenames_apply (ha : a.IsWorkers) :
    (a.apply s).pendingRenames = s.pendingRenames := by
  obtain ⟨i, entry, -, heq⟩ | ⟨-, ⟨i, f, heq⟩ | ⟨i, heq⟩ | ⟨i, path, heq⟩ | heq⟩ :=
    apply_cases ha s <;> rw [heq]
  · rfl
  · exact s.pendingRenames_editEntry i f
  · rfl
  · rfl

end Access

namespace DeferredRenames

/-- The projector at work. The queue holds the renames that the current call still has to look
at, and the rest is what has happened: the renames that came in and those that were projected. -/
structure Projection where
  maps : IdentityProjector
  queue : List Event
  stuck : Bool
  arrived : List Event
  projected : List Event

/-- A call begins, it goes on to its next rename, or another thread gets to the maps. -/
inductive Action where
  | project (e : Event)
  | next (order : List U64)
  | access (a : Access) (h : a.IsWorkers)

namespace Projection

def start (inodeMap : U64 → Option IdentityEntry) (dirMap : U64 → Option Path) : Projection :=
  ⟨⟨inodeMap, dirMap, fun _ => []⟩, [], false, [], []⟩

/-- The deferred renames of a new inode are the next ones to be projected. -/
def create (s : Projection) (shard : U64 → ℕ) (e : Event) : Projection :=
  match s.maps.createIdentity shard e with
  | some maps => { s with maps := maps.setPending e.inode [], queue := maps.pendingRenames e.inode }
  | none => { s with maps := s.maps.halfCreated e, stuck := true }

/-- A new event. -/
def take (s : Projection) (shard : U64 → ℕ) (e : Event) : Projection :=
  match e.eventType with
  | .rename => { s with queue := [e], arrived := s.arrived ++ [e] }
  | .mkdir | .create | .mknod | .symlink => s.create shard e
  | _ => { s with maps := (s.maps.project shard [] e).getD s.maps }

/-- The next rename is projected or deferred. -/
def next (s : Projection) (order : List U64) : Projection :=
  match s.queue with
  | [] => s
  | e :: queue =>
    { s with
      maps := s.maps.projectRename order e
      queue := queue
      projected := if s.maps.Known e.inode then s.projected ++ [e] else s.projected }

/-- The call is over, and the next one can begin. -/
def Idle (s : Projection) : Prop := s.queue = [] ∧ s.stuck = false

instance (s : Projection) : Decidable s.Idle := inferInstanceAs (Decidable (_ ∧ _))

def step (shard : U64 → ℕ) (s : Projection) : Action → Projection
  | .project e => if s.Idle then s.take shard e else s
  | .next order => s.next order
  | .access a _ => { s with maps := a.apply s.maps }

end Projection

def ofInode (inode : U64) (es : List Event) : List Event := es.filter (·.inode = inode)

/-- The renames of every inode have been projected once each, in the order in which they came in,
up to those that are deferred and those of the current call; and none are deferred of an inode
that is known. -/
def Exact (s : Projection) : Prop :=
  ∀ i, ofInode i s.projected ++ s.maps.pendingRenames i ++ ofInode i s.queue =
      ofInode i s.arrived ∧
    (s.maps.Known i → s.maps.pendingRenames i = [])

/-- The inode that becomes known without a look at its deferred renames. -/
def introduced (shard : U64 → ℕ) (s : Projection) : Action → Option U64
  | .project e =>
    if s.Idle ∧ e.parentInode ≠ 0 ∧ (s.maps.dirMap e.parentInode).isSome = true ∧
        (e.eventType = .link ∨ e.eventType = .mkdir ∧ shard e.inode = shard e.parentInode) then
      some e.inode
    else none
  | .next _ => none
  | .access a _ => a.inserted

/-- The step makes no inode known that has deferred renames. -/
def Prepared (shard : U64 → ℕ) (s : Projection) (a : Action) : Prop :=
  ∀ i ∈ introduced shard s a, s.maps.pendingRenames i = []

/-- What is deferred is kept under its own inode. -/
def Filed (s : Projection) : Prop := ∀ i, ∀ e ∈ s.maps.pendingRenames i, e.inode = i

/-! ## One step -/

variable {shard : U64 → ℕ} {s : Projection}

theorem ofInode_append (i : U64) (a b : List Event) :
    ofInode i (a ++ b) = ofInode i a ++ ofInode i b := List.filter_append ..

theorem ofInode_self {i : U64} {es : List Event} (h : ∀ e ∈ es, e.inode = i) :
    ofInode i es = es :=
  List.filter_eq_self.mpr fun e he => decide_eq_true (h e he)

theorem ofInode_of_ne {i j : U64} {es : List Event} (h : ∀ e ∈ es, e.inode = j) (hij : i ≠ j) :
    ofInode i es = [] :=
  List.filter_eq_nil_iff.mpr fun e he => by simp [h e he, hij.symm]

/-- A step that leaves the renames as they are is right if what it makes known has none. -/
theorem exact_of_maps (s' : Projection) (hs : Exact s) (hqueue : s'.queue = s.queue)
    (harrived : s'.arrived = s.arrived) (hprojected : s'.projected = s.projected)
    (hpending : s'.maps.pendingRenames = s.maps.pendingRenames) (introduced : Option U64)
    (hof : ∀ j, s'.maps.Known j → s.maps.Known j ∨ introduced = some j)
    (hintroduced : ∀ j, introduced = some j → s'.maps.Known j) :
    Exact s' ↔ ∀ i ∈ introduced, s.maps.pendingRenames i = [] := by
  unfold Exact
  rw [hqueue, harrived, hprojected, hpending]
  constructor
  · intro h i hi
    exact (h i).2 (hintroduced i hi)
  · intro h i
    refine ⟨(hs i).1, fun hknown => ?_⟩
    obtain hold | hnew := hof i hknown
    · exact (hs i).2 hold
    · exact h i hnew

theorem exact_access (hs : Exact s) {a : Access} (ha : a.IsWorkers) :
    Exact (s.step shard (.access a ha)) ↔ Prepared shard s (.access a ha) :=
  exact_of_maps (s.step shard (.access a ha)) hs rfl rfl rfl
    (Access.pendingRenames_apply ha) a.inserted (fun _ => Access.known_of_apply ha)
    fun _ => Access.known_inserted ha

theorem exact_next (hs : Exact s) (order : List U64) : Exact (s.next order) := by
  intro i
  rw [Projection.next]
  cases hqueue : s.queue with
  | nil => exact hs i
  | cons e queue =>
    have hi := hs i
    rw [hqueue] at hi
    dsimp only
    by_cases hknown : s.maps.Known e.inode
    · rw [s.maps.pendingRenames_projectRename hknown, s.maps.known_projectRename hknown,
        if_pos hknown, ofInode_append]
      refine ⟨?_, hi.2⟩
      rw [← hi.1]
      by_cases he : e.inode = i
      · subst he
        simp [ofInode, hi.2 hknown]
      · simp [ofInode, he]
    · rw [s.maps.projectRename_unknown hknown, if_neg hknown]
      by_cases he : e.inode = i
      · subst he
        refine ⟨?_, fun h => absurd h hknown⟩
        rw [← hi.1]
        simp [ofInode, IdentityProjector.setPending]
      · have hpending : (s.maps.setPending e.inode (s.maps.pendingRenames e.inode ++
            [e])).pendingRenames i = s.maps.pendingRenames i :=
          Function.update_of_ne (Ne.symm he) ..
        refine ⟨?_, fun h => hpending.trans (hi.2 h)⟩
        rw [hpending, ← hi.1]
        simp [ofInode, he]

theorem exact_created (hs : Exact s) (hfiled : Filed s) (hidle : s.Idle) {e : Event}
    {maps : IdentityProjector} (hmaps : s.maps.createIdentity shard e = some maps) :
    Exact (s.create shard e) := by
  rw [Projection.create, hmaps]
  obtain ⟨hpending, hknown⟩ := s.maps.createIdentity_some hmaps
  intro i
  have hi := hs i
  rw [hidle.1] at hi
  dsimp only
  rw [hpending, ← hi.1]
  by_cases he : i = e.inode
  · subst he
    have hnone : (maps.setPending e.inode []).pendingRenames e.inode = [] :=
      Function.update_self ..
    refine ⟨?_, fun _ => hnone⟩
    rw [hnone, ofInode_self (hfiled e.inode)]
    simp [ofInode]
  · have hother : (maps.setPending e.inode []).pendingRenames i = s.maps.pendingRenames i :=
      (Function.update_of_ne he ..).trans (congrFun hpending i)
    rw [hother, ofInode_of_ne (hfiled e.inode) he]
    refine ⟨rfl, fun h => ?_⟩
    obtain hold | hnew := hknown i h
    · exact hi.2 hold
    · exact absurd hnew he

theorem exact_halfCreated (hs : Exact s) {e : Event}
    (hmaps : s.maps.createIdentity shard e = none)
    (hdir : (s.maps.dirMap e.parentInode).isSome = true) :
    Exact (s.create shard e) ↔ s.maps.pendingRenames e.inode = [] := by
  obtain ⟨parentPath, hpath⟩ := Option.isSome_iff_exists.mp hdir
  rw [Projection.create, hmaps]
  dsimp only
  rw [s.maps.halfCreated_eq hpath]
  have hupdate := s.maps.known_updateIdentity e (Path.join parentPath e.name)
  rw [exact_of_maps { s with
      maps := s.maps.updateIdentity e (Path.join parentPath e.name), stuck := true }
    hs rfl rfl rfl (s.maps.pendingRenames_updateIdentity e _) (some e.inode)]
  · simp
  · intro j hj
    obtain hnew | hold := (hupdate j).mp hj
    · exact .inr (congrArg some hnew.symm)
    · exact .inl hold
  · intro j hj
    exact (hupdate j).mpr (.inl (Option.some.inj hj).symm)

/-- A creation is right if its call does not wait for itself. -/
theorem exact_create (hs : Exact s) (hfiled : Filed s) (hidle : s.Idle) {e : Event}
    (hlink : e.eventType ≠ .link) :
    Exact (s.create shard e) ↔ Prepared shard s (.project e) := by
  have hwaits := s.maps.createIdentity_eq_none shard e
  cases hmaps : s.maps.createIdentity shard e with
  | none =>
    obtain ⟨hparent, hdir, hmkdir, hshard⟩ := hwaits.mp hmaps
    have hintroduced : introduced shard s (.project e) = some e.inode :=
      if_pos ⟨hidle, hparent, hdir, .inr ⟨hmkdir, hshard⟩⟩
    rw [exact_halfCreated hs hmaps hdir, Prepared, hintroduced]
    simp
  | some maps =>
    have hintroduced : introduced shard s (.project e) = none := by
      refine if_neg fun h => ?_
      obtain ⟨-, hparent, hdir, hl | ⟨hmkdir, hshard⟩⟩ := h
      · exact hlink hl
      · rw [hmaps] at hwaits
        cases hwaits.mpr ⟨hparent, hdir, hmkdir, hshard⟩
    rw [Prepared, hintroduced]
    exact iff_of_true (exact_created hs hfiled hidle hmaps) (by simp)

/-- Only links and creations make an inode known. -/
theorem introduced_eq_none {e : Event} (hlink : e.eventType ≠ .link)
    (hmkdir : e.eventType ≠ .mkdir) : introduced shard s (.project e) = none :=
  if_neg fun h => h.2.2.2.elim hlink fun h => hmkdir h.1

theorem exact_of_less (hs : Exact s) {e : Event} (hlink : e.eventType ≠ .link)
    (hmkdir : e.eventType ≠ .mkdir) {maps : IdentityProjector}
    (hpending : maps.pendingRenames = s.maps.pendingRenames)
    (hknown : ∀ j, maps.Known j → s.maps.Known j) :
    Exact { s with maps := maps } ↔ Prepared shard s (.project e) := by
  rw [exact_of_maps { s with maps := maps } hs rfl rfl rfl hpending none
    (fun j h => .inl (hknown j h)) (by simp), Prepared, introduced_eq_none hlink hmkdir]

theorem exact_link (hs : Exact s) (hidle : s.Idle) {e : Event} (hlink : e.eventType = .link) :
    Exact (s.take shard e) ↔ Prepared shard s (.project e) := by
  rw [Projection.take, hlink]
  dsimp only
  rw [IdentityProjector.project, hlink]
  dsimp only
  by_cases hparent : e.parentInode = 0
  · have hnone : introduced shard s (.project e) = none := if_neg fun h => h.2.1 hparent
    rw [if_pos hparent, Prepared, hnone]
    exact iff_of_true hs (by simp)
  · rw [if_neg hparent]
    cases hdir : s.maps.dirMap e.parentInode with
    | none =>
      have hnone : introduced shard s (.project e) = none :=
        if_neg fun h => by simpa [hdir] using h.2.2.1
      rw [Prepared, hnone]
      exact iff_of_true hs (by simp)
    | some parentPath =>
      have hsome : introduced shard s (.project e) = some e.inode :=
        if_pos ⟨hidle, hparent, by rw [hdir]; rfl, .inl hlink⟩
      have hadd := s.maps.known_addIdentityPath e (Path.join parentPath e.name)
      rw [Prepared, hsome]
      refine exact_of_maps
        { s with maps := s.maps.addIdentityPath e (Path.join parentPath e.name) }
        hs rfl rfl rfl (s.maps.pendingRenames_addIdentityPath e _) (some e.inode) ?_ ?_
      · intro j hj
        obtain hnew | hold := (hadd j).mp hj
        · exact .inr (congrArg some hnew.symm)
        · exact .inl hold
      · intro j hj
        exact (hadd j).mpr (.inl (Option.some.inj hj).symm)

theorem exact_rename (hs : Exact s) (hidle : s.Idle) {e : Event}
    (hrename : e.eventType = .rename) : Exact (s.take shard e) := by
  rw [Projection.take, hrename]
  intro i
  have hi := hs i
  rw [hidle.1] at hi
  refine ⟨?_, hi.2⟩
  dsimp only
  rw [ofInode_append, ← hi.1]
  simp [ofInode]

theorem exact_take (hs : Exact s) (hfiled : Filed s) (hidle : s.Idle) (e : Event) :
    Exact (s.take shard e) ↔ Prepared shard s (.project e) := by
  cases htype : e.eventType with
  | rename =>
    rw [Prepared, introduced_eq_none (by simp [htype]) (by simp [htype])]
    exact iff_of_true (exact_rename hs hidle htype) (by simp)
  | link => exact exact_link hs hidle htype
  | mkdir | create | mknod | symlink =>
    rw [Projection.take, htype]
    exact exact_create hs hfiled hidle (by simp [htype])
  | unlink =>
    rw [Projection.take, htype]
    dsimp only
    rw [IdentityProjector.project, htype]
    dsimp only
    by_cases hparent : e.parentInode = 0
    · rw [if_pos hparent]
      exact exact_of_less hs (by simp [htype]) (by simp [htype]) rfl fun j h => h
    · rw [if_neg hparent]
      cases s.maps.dirMap e.parentInode with
      | none => exact exact_of_less hs (by simp [htype]) (by simp [htype]) rfl fun j h => h
      | some parentPath =>
        exact exact_of_less hs (by simp [htype]) (by simp [htype])
          (s.maps.pendingRenames_removeIdentityPath e.inode _)
          fun j h => s.maps.known_of_removeIdentityPath h
  | rmdir =>
    rw [Projection.take, htype]
    dsimp only
    rw [IdentityProjector.project, htype]
    exact exact_of_less hs (by simp [htype]) (by simp [htype]) rfl
      fun j h => s.maps.known_of_setEntry_none h
  | _ =>
    rw [Projection.take, htype]
    dsimp only
    rw [IdentityProjector.project, htype]
    exact exact_of_less hs (by simp [htype]) (by simp [htype]) rfl fun j h => h

theorem exact_step (hs : Exact s) (hfiled : Filed s) (a : Action) :
    Exact (s.step shard a) ↔ Prepared shard s a := by
  cases a with
  | project e =>
    rw [Projection.step]
    split_ifs with hidle
    · exact exact_take hs hfiled hidle e
    · have hnone : introduced shard s (.project e) = none := if_neg fun h => hidle h.1
      rw [Prepared, hnone]
      exact iff_of_true hs (by simp)
  | next order => exact iff_of_true (exact_next hs order) (by simp [Prepared, introduced])
  | access a ha => exact exact_access hs ha

/-- A creation takes away what is deferred of its inode, and leaves the rest. -/
theorem pending_create (shard : U64 → ℕ) (e : Event) (i : U64) :
    (s.create shard e).maps.pendingRenames i = s.maps.pendingRenames i ∨
      (s.create shard e).maps.pendingRenames i = [] := by
  rw [Projection.create]
  cases hmaps : s.maps.createIdentity shard e with
  | none =>
    refine .inl ?_
    dsimp only
    rw [IdentityProjector.halfCreated]
    cases s.maps.dirMap e.parentInode with
    | none => rfl
    | some parentPath => rw [s.maps.pendingRenames_updateIdentity]
  | some maps =>
    have hpending := (s.maps.createIdentity_some hmaps).1
    dsimp only
    rw [IdentityProjector.setPending, hpending]
    dsimp only
    rw [Function.update_apply]
    split_ifs
    · exact .inr rfl
    · exact .inl rfl

theorem pending_take (shard : U64 → ℕ) (e : Event) (i : U64) :
    (s.take shard e).maps.pendingRenames i = s.maps.pendingRenames i ∨
      (s.take shard e).maps.pendingRenames i = [] := by
  cases htype : e.eventType with
  | mkdir | create | mknod | symlink =>
    rw [Projection.take, htype]
    exact pending_create shard e i
  | link | unlink =>
    rw [Projection.take, htype]
    dsimp only
    rw [IdentityProjector.project, htype]
    dsimp only
    refine .inl ?_
    by_cases hparent : e.parentInode = 0
    · rw [if_pos hparent]
      rfl
    · rw [if_neg hparent]
      cases s.maps.dirMap e.parentInode with
      | none => rfl
      | some parentPath =>
        dsimp only [Option.getD_some]
        simp only [IdentityProjector.pendingRenames_addIdentityPath,
          IdentityProjector.pendingRenames_removeIdentityPath]
  | _ =>
    rw [Projection.take, htype]
    first
      | exact .inl rfl
      | dsimp only
        rw [IdentityProjector.project, htype]
        exact .inl rfl

theorem filed_step (hfiled : Filed s) (a : Action) : Filed (s.step shard a) := by
  intro i
  cases a with
  | project e =>
    rw [Projection.step]
    split_ifs
    · obtain h | h := pending_take shard e i <;> rw [h]
      · exact hfiled i
      · simp
    · exact hfiled i
  | next order =>
    rw [Projection.step, Projection.next]
    cases s.queue with
    | nil => exact hfiled i
    | cons e queue =>
      dsimp only
      by_cases hknown : s.maps.Known e.inode
      · rw [s.maps.pendingRenames_projectRename hknown]
        exact hfiled i
      · rw [s.maps.projectRename_unknown hknown, IdentityProjector.setPending]
        dsimp only
        rw [Function.update_apply]
        split_ifs with hi
        · intro deferred hdeferred
          rw [hi]
          obtain hold | hnew := List.mem_append.mp hdeferred
          · exact hfiled e.inode deferred hold
          · rw [List.mem_singleton.mp hnew]
        · exact hfiled i
  | access a ha =>
    rw [Projection.step]
    dsimp only
    rw [Access.pendingRenames_apply ha]
    exact hfiled i

/-! ## Calls -/

/-! ## Runs -/

/-- In every run of the projector and the workers all renames are projected once, in their order
and before any later event of their inode, and none stay deferred when their inode becomes known,
if and only if no inode that has deferred renames becomes known without a look at them. -/
theorem exactly_once_iff (shard : U64 → ℕ) (inodeMap : U64 → Option IdentityEntry)
    (dirMap : U64 → Option Path) (as : List Action) :
    (∀ p, p <+: as → Exact (Run.exec (Projection.step shard) (.start inodeMap dirMap) p)) ↔
      Run.Along (Projection.step shard) (Prepared shard) (.start inodeMap dirMap) as :=
  Run.forall_prefix_iff_along (Projection.step shard) (I := Exact) (A := Filed)
    (P := fun _ => True) (fun _ a _ hfiled _ => filed_step hfiled a)
    (fun _ a _ hfiled hs => exact_step hs hfiled a) as (fun _ _ => trivial)
    (fun _ _ h => absurd h List.not_mem_nil) fun _ => ⟨rfl, fun _ => rfl⟩

/-- A rename that comes before a link of its inode stays deferred. -/
theorem linked_deferred :
    ¬∀ (shard : U64 → ℕ) (inodeMap : U64 → Option IdentityEntry) (dirMap : U64 → Option Path)
      (as : List Action),
      Exact (Run.exec (Projection.step shard) (.start inodeMap dirMap) as) := by
  intro hall
  have hrun := hall (fun _ => 0) (fun _ => none) (fun i => if i = 1 then some [] else none)
    [.project { Event.zero with
        eventType := .rename, inode := 7, parentInode := 1, name := "a", newName := some "b" },
      .next [],
      .project { Event.zero with
        eventType := .link, inode := 7, parentInode := 1, name := "c" }] 7
  exact absurd (hrun.2 rfl) (List.cons_ne_nil _ _)

end DeferredRenames

end Foxing
