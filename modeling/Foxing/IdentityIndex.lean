import Foxing.FileSystem
import Foxing.Lib.Run

/-!
# The identity index

An index from inodes to paths below a root. A thread fills it by a scan and keeps it up by the
events of a watcher, and a lookup checks the path it finds. The thread works on a clone of the
map of the index, and a clone is a map of its own, so that what it learns is never looked up.
Paths here are full ones, by their components, and those in the index are relative to the root.
-/
namespace Foxing.IdentityIndex

/-- What lies at a path. A symbolic link leads to nothing, or to something that is a directory or
not. -/
inductive Kind where
  | directory
  | link (leadsToDir : Option Bool)
  | other
  deriving DecidableEq, Repr

structure Entry where
  inode : U64
  kind : Kind
  deriving DecidableEq, Repr

/-- A directory tree: what lies at a path, where the last component is not followed, and what a
walk from a path gives, in the order of the walk. -/
structure Tree where
  entry : Path → Option Entry
  walk : Path → List Path
  /-- A walk follows no link but the one it starts from. -/
  mem_walk : ∀ p q, q ∈ walk p ↔ p <+: q ∧ entry q ≠ none ∧ ∀ r, p <+: r → r <+: q → r ≠ q →
    (entry r).map Entry.kind = some .directory ∨
      r = p ∧ (entry r).map Entry.kind = some (.link (some true))

namespace Tree

/-- The inode that the metadata of a path give. -/
def inodeAt (t : Tree) (p : Path) : Option U64 := (t.entry p).map Entry.inode

def pathExists (t : Tree) (p : Path) : Bool :=
  match (t.entry p).map Entry.kind with
  | none | some (.link none) => false
  | _ => true

def isDir (t : Tree) (p : Path) : Bool :=
  match (t.entry p).map Entry.kind with
  | some .directory | some (.link (some true)) => true
  | _ => false

/-- The paths below a directory, relative to it, with their inodes. -/
def files (t : Tree) (root : Path) : List (Path × U64) :=
  (t.walk root).filterMap fun q =>
    if q = root then none else (t.inodeAt q).map fun inode => (q.drop root.length, inode)

end Tree

/-- A map from inodes to paths relative to the root. -/
abbrev Index := U64 → Option Path

inductive EventKind where
  | any
  | access
  | create
  /-- A modification, with whether it is one of a name. -/
  | modify (name : Bool)
  | remove
  | other
  deriving DecidableEq, Repr

structure WatchEvent where
  kind : EventKind
  paths : List Path
  deriving DecidableEq, Repr

/-- The rest of a path behind the root. -/
def stripPrefix (root q : Path) : Option Path :=
  if root <+: q then some (q.drop root.length) else none

/-- An entry is put under its inode. -/
def insertEntry (root : Path) (t : Tree) (index : Index) (q : Path) : Index :=
  match t.inodeAt q, stripPrefix root q with
  | some inode, some rel => Function.update index inode (some rel)
  | _, _ => index

/-- The scan of the thread. The root itself is left out. -/
def scan (root : Path) (t : Tree) (index : Index) : Index :=
  ((t.walk root).filter fun q => q ≠ root).foldl (insertEntry root t) index

/-- A path that was created. A directory is walked, as it may have contents already. -/
def handleCreated (root : Path) (t : Tree) (index : Index) (path : Path) : Index :=
  if t.pathExists path then
    if t.isDir path then (t.walk path).foldl (insertEntry root t) index
    else insertEntry root t index path
  else index

def handleEvent (root : Path) (t : Tree) (index : Index) (event : WatchEvent) : Index :=
  match event.kind with
  | .modify _ | .access => index
  | .create => event.paths.foldl (handleCreated root t) index
  -- for removals the map is evicted lazily
  | .remove => index
  | _ => index

/-- A lookup takes out an entry that has become stale. -/
def lookup (root : Path) (t : Tree) (index : Index) (inode : U64) : Option Path × Index :=
  match index inode with
  | none => (none, index)
  | some rel =>
    if t.inodeAt (root ++ rel) = some inode then (some rel, index)
    else (none, Function.update index inode none)

/-! ## Runs -/

/-- The tree, the map of the instance and the clone that the thread has, and what the index owes:
the files below the root that the scan has met, or a creation or a renaming that was handled has
named, at the paths where they have been since. -/
structure State where
  tree : Tree
  index : Index
  indexClone : Index
  scanComplete : Bool
  owed : List (Path × U64)

/-- The instance that `new` returns, before the thread has done anything. -/
def new (tree : Tree) : State where
  tree := tree
  index := fun _ => none
  indexClone := fun _ => none
  scanComplete := false
  owed := []

inductive Action where
  /-- The tree changes in any way. -/
  | change (tree : Tree)
  | scan
  | handle (event : WatchEvent)
  | resolve (inode : U64)

/-- The files below the root that an event names: its paths and what lies below them. -/
def named (root : Path) (t : Tree) (event : WatchEvent) : List (Path × U64) :=
  if event.kind = .create ∨ event.kind = .modify true then
    (t.files root).filter fun f => event.paths.any fun p => p <+: root ++ f.1
  else []

def step (root : Path) (s : State) : Action → State
  | .change tree => { s with
      tree := tree
      owed := s.owed.filter fun f => f ∈ tree.files root }
  | .scan =>
    if s.scanComplete then s
    else { s with
      indexClone := scan root s.tree s.indexClone
      scanComplete := true
      owed := s.tree.files root }
  | .handle event =>
    if s.scanComplete then { s with
      indexClone := handleEvent root s.tree s.indexClone event
      owed := s.owed ++ named root s.tree event }
    else s
  | .resolve inode => { s with index := (lookup root s.tree s.index inode).2 }

namespace State

/-- What a call of `resolve` returns. -/
def resolve (root : Path) (s : State) (inode : U64) : Option Path :=
  (lookup root s.tree s.index inode).1

/-- A path that is returned has the inode. -/
def Sound (root : Path) (s : State) : Prop :=
  ∀ inode path, s.resolve root inode = some path → s.tree.inodeAt (root ++ path) = some inode

/-- For every file that is owed one of its paths is returned. -/
def Complete (root : Path) (s : State) : Prop :=
  ∀ f ∈ s.owed, ∃ path, s.resolve root f.2 = some path ∧ (path, f.2) ∈ s.tree.files root

end State

/-! ## What a lookup finds -/

/-- Whatever the index holds, a path that a lookup returns has the inode. -/
theorem lookup_sound {root : Path} {t : Tree} {index : Index} {inode : U64} {path : Path}
    (h : (lookup root t index inode).1 = some path) : t.inodeAt (root ++ path) = some inode := by
  unfold lookup at h
  cases hentry : index inode with
  | none =>
    rw [hentry] at h
    cases h
  | some rel =>
    rw [hentry] at h
    dsimp only at h
    by_cases hinode : t.inodeAt (root ++ rel) = some inode
    · rw [if_pos hinode] at h
      obtain rfl : rel = path := Option.some.inj h
      exact hinode
    · rw [if_neg hinode] at h
      cases h

theorem sound (root : Path) (s : State) : s.Sound root := fun _ _ h => lookup_sound h

/-- An empty index stays empty and nothing is found in it. -/
theorem lookup_empty {root : Path} {t : Tree} {index : Index} {inode : U64}
    (h : index inode = none) : lookup root t index inode = (none, index) := by
  unfold lookup
  rw [h]

theorem index_step {root : Path} {s : State} (h : s.index = fun _ => none) (a : Action) :
    (step root s a).index = fun _ => none := by
  cases a with
  | change tree => exact h
  | scan | handle event =>
    rw [step]
    by_cases hs : s.scanComplete = true
    · rw [if_pos hs, h]
    · rw [if_neg hs, h]
  | resolve inode =>
    show (lookup root s.tree s.index inode).2 = _
    rw [lookup_empty (congrFun h inode)]
    exact h

/-- The map of the instance is empty in every state of a run. -/
theorem index_exec (root : Path) (tree : Tree) (actions : List Action) :
    (Run.exec (step root) (new tree) actions).index = fun _ => none := by
  induction actions using List.reverseRecOn with
  | nil => rfl
  | append_singleton actions a ih =>
    rw [Run.exec_concat]
    exact index_step ih a

/-- In a state of a run every path that is returned has the inode, but a path is returned for
every file that is owed one exactly when there is no such file. -/
theorem index_complete_iff (root : Path) (tree : Tree) (actions : List Action) :
    let s := Run.exec (step root) (new tree) actions
    s.Sound root ∧ s.Complete root ↔ s.owed = [] := by
  have hindex := index_exec root tree actions
  dsimp only
  generalize Run.exec (step root) (new tree) actions = s at hindex ⊢
  constructor
  · rintro ⟨-, hcomplete⟩
    refine List.eq_nil_iff_forall_not_mem.mpr fun f hf => ?_
    obtain ⟨path, hresolve, -⟩ := hcomplete f hf
    rw [State.resolve, lookup_empty (congrFun hindex f.2)] at hresolve
    cases hresolve
  · intro hnone
    refine ⟨sound root s, fun f hf => ?_⟩
    rw [hnone] at hf
    exact absurd hf List.not_mem_nil

def oneFileEntry (name : String) (inode : U64) (q : Path) : Option Entry :=
  if q = [] then some ⟨1, .directory⟩ else if q = [name] then some ⟨inode, .other⟩ else none

theorem eq_of_oneFileEntry {name : String} {inode : U64} {q : Path}
    (h : oneFileEntry name inode q ≠ none) : q = [] ∨ q = [name] := by
  unfold oneFileEntry at h
  by_cases hroot : q = []
  · exact .inl hroot
  · rw [if_neg hroot] at h
    by_cases hfile : q = [name]
    · exact .inr hfile
    · rw [if_neg hfile] at h
      exact absurd rfl h

theorem mem_oneFile_walk (name : String) (inode : U64) (p q : Path) :
    q ∈ [[], [name]].filter (fun q => p <+: q) ↔
      p <+: q ∧ oneFileEntry name inode q ≠ none ∧ ∀ r, p <+: r → r <+: q → r ≠ q →
        (oneFileEntry name inode r).map Entry.kind = some .directory ∨
          r = p ∧ (oneFileEntry name inode r).map Entry.kind = some (.link (some true)) := by
  rw [List.mem_filter, List.mem_pair, decide_eq_true_eq]
  constructor
  · rintro ⟨rfl | rfl, hp⟩
    · exact ⟨hp, by simp [oneFileEntry], fun r _ hr hne => absurd (List.prefix_nil.mp hr) hne⟩
    · refine ⟨hp, by simp [oneFileEntry], fun r _ hr hne => .inl ?_⟩
      rcases List.prefix_cons_iff.mp hr with rfl | ⟨t, rfl, ht⟩
      · rfl
      · exact absurd (congrArg _ (List.prefix_nil.mp ht)) hne
  · rintro ⟨hp, hentry, -⟩
    exact ⟨eq_of_oneFileEntry hentry, hp⟩

/-- A root with one file in it. -/
def oneFile (name : String) (inode : U64) : Tree where
  entry := oneFileEntry name inode
  walk p := [[], [name]].filter fun q => p <+: q
  mem_walk := mem_oneFile_walk name inode

/-- The scan meets the file, and a lookup does not find it. -/
theorem oneFile_not_found :
    ¬∀ (root : Path) (tree : Tree) (actions : List Action),
      let s := Run.exec (step root) (new tree) actions
      s.Sound root ∧ s.Complete root := by
  intro h
  obtain ⟨-, hcomplete⟩ := h [] (oneFile "a" 5) [.scan]
  have howed : (["a"], 5) ∈ (Run.exec (step []) (new (oneFile "a" 5)) [.scan]).owed := by decide
  obtain ⟨path, hresolve, -⟩ := hcomplete _ howed
  cases hresolve

end Foxing.IdentityIndex
