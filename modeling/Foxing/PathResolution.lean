import Foxing.WorkerLocality
import Foxing.Lib.Run

/-!
# What an event may change on the target

The naming of the source is the truth that the identity maps cache. An event is
determined when the entries that are present lead to its path, or when the bare
name that the worker falls back on happens to be that path. A determined event
changes the target at its own path only, apart from the missing directories on
the way to it, unless its calls follow a symbolic link of the target; an event of
a file outside of the source directory is not determined by its parent, and the
worker acts on its bare name.
-/
namespace Foxing

/-- Where the links of the inodes of the device are below the source directory, where
the link is that an event is about, if it is there, and where a rename takes it. -/
structure Naming where
  links : U64 → Set Path
  path : Option Path
  newPath : Option Path

/-- The event says about its link what the naming says. The path is the one
before the event. -/
structure Describes (n : Naming) (e : Event) : Prop where
  name : e.name = "" ∨ ValidName e.name
  inside : e.parentInode ≠ 0 → e.name ≠ "" →
    ∀ d ∈ n.links e.parentInode, n.path = some (d ++ [e.name])
  outside : e.parentInode ≠ 0 → e.name ≠ "" → n.links e.parentInode = ∅ →
    n.path = none ∨ n.path = some []
  parent : e.parentInode ≠ e.inode
  newParent : e.newParentInode ≠ e.inode
  rename : e.eventType = .rename → ValidName e.name ∧ ∃ newName, e.newName = some newName ∧
    ValidName newName ∧ (e.newParentInode ≠ 0 →
      (∀ d ∈ n.links e.newParentInode, n.newPath = some (d ++ [newName])) ∧
        (n.links e.newParentInode = ∅ → n.newPath = none))

/-- What is cached for an inode is correct. -/
structure SoundAt (n : Naming) (i : U64) (w : World) : Prop where
  entry : ∀ entry, w.inodeMap i = some entry →
    entry.paths ≠ [] ∧ ∀ q ∈ entry.paths, q ∈ n.links i
  dir : ∀ q, w.dirMap i = some q → q ∈ n.links i

/-- Every entry that is present is correct; the entries of an inode that is being
renamed may lead to its old or to its new path. -/
structure Sound (n : Naming) (e : Event) (w : World) : Prop where
  at_ : ∀ i, i ≠ e.inode ∨ e.eventType ≠ .rename → SoundAt n i w
  renamed : ∀ entry, w.inodeMap e.inode = some entry → entry.paths ≠ []
  generation : ∀ entry, w.inodeMap e.inode = some entry →
    entry.generation = U32.max ∨ entry.generation = e.generation

/-- A directory that one of the maps knows. -/
def Known (w : World) (i : U64) : Prop := w.dirMap i ≠ none ∨ w.inodeMap i ≠ none

instance (w : World) (i : U64) : Decidable (Known w i) := inferInstanceAs (Decidable (_ ∨ _))

variable {n : Naming} {e : Event} {w : World} {i : U64}

/-! ## Resolution under correct entries -/

/-- What looking up a directory comes to. -/
structure ParentSpec (n : Naming) (i : U64) (w : World) (b : Option Path) (v : World) : Prop where
  unknown : b = none → ¬ Known w i
  path : ∀ q, b = some q → q ∈ n.links i
  sound : ∀ j, SoundAt n j w → SoundAt n j v
  known : ∀ j, Known w j → Known v j

theorem SoundAt.insertDir {q : Path} {j : U64} (h : SoundAt n j w) (hq : q ∈ n.links i) :
    SoundAt n j (w.insertDir i q) := by
  refine ⟨h.entry, fun q' hq' => ?_⟩
  simp only [World.insertDir, Function.update_apply] at hq'
  split_ifs at hq' with hj
  · obtain rfl := Option.some.inj hq'
    rwa [hj]
  · exact h.dir q' hq'

theorem SoundAt.resolveParent (h : SoundAt n i w) :
    ∃ b v, resolveParent i w = (some b, v) ∧ ParentSpec n i w b v := by
  have hrefl : ∀ b, (b = none → ¬ Known w i) → (∀ q, b = some q → q ∈ n.links i) →
      ParentSpec n i w b w := fun b h₁ h₂ => ⟨h₁, h₂, fun _ hj => hj, fun _ hj => hj⟩
  cases hd : w.dirMap i with
  | some q =>
    refine ⟨some q, w, ?_, hrefl _ (by simp) (fun q' hq' => ?_)⟩
    · exact resolveParent_of_dir hd
    · obtain rfl : q = q' := by simpa using hq'
      exact h.dir q hd
  | none =>
    cases hi : w.inodeMap i with
    | none =>
      refine ⟨none, w, ?_, hrefl _ (fun _ => ?_) (by simp)⟩
      · rw [resolveParent_of_inode hd, hi]
      · simp [Known, hd, hi]
    | some entry =>
      obtain ⟨hne, hpaths⟩ := h.entry entry hi
      obtain ⟨q, hq⟩ : ∃ q, entry.primaryPath = some q := by
        cases hp : entry.paths with
        | nil => exact absurd hp hne
        | cons q rest => exact ⟨q, by simp [IdentityEntry.primaryPath, hp]⟩
      have hqi : q ∈ n.links i := hpaths q (List.mem_of_head? hq)
      refine ⟨some q, w.insertDir i q, ?_, by simp, ?_, fun j hj => hj.insertDir hqi, ?_⟩
      · simp only [resolveParent_of_inode hd, hi, hq]
      · intro q' hq'
        obtain rfl : q = q' := by simpa using hq'
        exact hqi
      · intro j hj
        by_cases hji : j = i
        · exact .inl (by simp [World.insertDir, hji])
        · simpa [Known, World.insertDir, hji] using hj

/-- A name in a directory that is known is resolved in it. -/
theorem SoundAt.resolveEventPath {name : String} (h : SoundAt n i w) (hname : ValidName name) :
    ∃ q v, Foxing.resolveEventPath i name w = (some q, v) ∧
      (q = [name] ∨ ∃ d ∈ n.links i, i ≠ 0 ∧ q = d ++ [name]) ∧
      (i ≠ 0 ∧ Known w i → ∃ d ∈ n.links i, q = d ++ [name]) ∧
      (∀ j, SoundAt n j w → SoundAt n j v) ∧ ∀ j, Known w j → Known v j := by
  by_cases hi : i = 0
  · subst hi
    refine ⟨[name], w, ?_, .inl rfl, fun h0 => absurd rfl h0.1, fun _ hj => hj, fun _ hj => hj⟩
    rw [resolveEventPath_zero, hname.components_eq]
  · obtain ⟨b, v, hrun, hspec⟩ := h.resolveParent
    cases b with
    | none =>
      refine ⟨[name], v, ?_, .inl rfl, fun hk => absurd hk.2 (hspec.unknown rfl), hspec.sound,
        hspec.known⟩
      rw [resolveEventPath_run hi, hrun, ← hname.components_eq]
    | some d =>
      have hd := hspec.path d rfl
      refine ⟨d ++ [name], v, ?_, .inr ⟨d, hd, hi, rfl⟩, fun _ => ⟨d, hd, rfl⟩, hspec.sound,
        hspec.known⟩
      rw [resolveEventPath_run hi, hrun, ← hname.join_eq]

/-- The event's own parent and name lead to its path. -/
theorem Describes.specific {q : Path} (hd : Describes n e)
    (hs : SoundAt n e.parentInode w) (hq : specificRelPath e w = some q) : n.path = some q := by
  unfold specificRelPath at hq
  split_ifs at hq with hcond
  obtain ⟨d, hdir, rfl⟩ := Option.map_eq_some_iff.mp hq
  have hvalid : ValidName e.name := hd.name.resolve_left hcond.2
  rw [hvalid.join_eq]
  exact hd.inside hcond.1 hcond.2 d (hs.dir d hdir)

/-- Outside of `X` nothing changes except that directories are made where nothing was. -/
def Grows (X : Set Path) (t t' : Fs) : Prop :=
  ∀ q ∉ X, t'.node q = t.node q ∨ (t.node q = none ∧ ∃ m, t'.node q = some (.dir m))

theorem Grows.trans {X : Set Path} {t t' t'' : Fs} (h : Grows X t t') (h' : Grows X t' t'') :
    Grows X t t'' := by
  intro q hq
  rcases h q hq with hsame | ⟨hnone, m, hdir⟩
  · rcases h' q hq with hsame' | ⟨hnone', hdir'⟩
    · exact .inl (hsame'.trans hsame)
    · exact .inr ⟨hsame ▸ hnone', hdir'⟩
  · rcases h' q hq with hsame' | ⟨hnone', -⟩
    · exact .inr ⟨hnone, m, hsame'.trans hdir⟩
    · rw [hdir] at hnone'
      cases hnone'

/-- The tree after an action has grown only outside of `X`. -/
abbrev GrowsBy {α : Type} (X : Set Path) (m : StateM World α) (w : World) : Prop :=
  Grows X w.target (m w).2.target

theorem GrowsBy.bind {α β : Type} {X : Set Path} {m : StateM World α} {k : α → StateM World β}
    (hm : GrowsBy X m w) (hk : GrowsBy X (k (m w).1) (m w).2) : GrowsBy X (m >>= k) w :=
  Grows.trans hm hk

section Growth
variable {X : Set Path} {p : Path} (env : Env) (fault : Option ℕ)

end Growth

/-! ## Confinement -/

section Attempt
variable (env : Env) (fault : Option ℕ)

end Attempt

/-! ## Links on the target -/

def Fs.isSymlink (t : Fs) (p : Path) : Bool :=
  match t.node p with
  | some (.symlink ..) => true
  | _ => false

/-- A call that the event is carried out with follows a link at its path. -/
def EventType.followsLink : EventType → Bool
  | .unlink | .rmdir | .mknod | .link | .symlink => false
  | _ => true

/-- The paths that an event is carried out at. -/
def reachedPaths (e : Event) (w : World) : List Path :=
  match (resolution e w).1.bind ResolveResult.path? with
  | none => []
  | some p =>
    if e.eventType = .rename then
      let old := resolveEventPath e.parentInode e.name (resolution e w).2
      match old.1, (Arm.renameDest e p old.2).1 with
      | some old, some dest => [old, dest]
      | _, _ => []
    else [p]

/-- On the way there is a link, or at the end one that is followed. -/
def meetsLink (e : Event) (w : World) : Bool :=
  (reachedPaths e w).any fun p => p.inits.any fun q =>
    w.target.isSymlink q && (decide (q ≠ p) || e.eventType.followsLink)

/-- An event as a worker gets to it: the naming of the source at that time, what
the attempt finds outside of the worker, the maps, which other threads fill and
empty, and what becomes of the target where a call follows a link on it. -/
structure Delivery where
  event : Event
  naming : Naming
  env : Env
  fault : Option ℕ
  inodeMap : U64 → Option IdentityEntry
  dirMap : U64 → Option Path
  beyond : Fs → Fs

namespace Delivery

/-- The state that the event is processed in. -/
def found (w : World) (d : Delivery) : World := ⟨w.target, d.inodeMap, d.dirMap⟩

def deliver (w : World) (d : Delivery) : World :=
  let w' := (processSingleEvent d.env d.fault d.event (d.found w)).2
  if meetsLink d.event (d.found w) then { w' with target := d.beyond w'.target } else w'

/-- The event describes its file, and every entry of the maps is correct. -/
structure Faithful (w : World) (d : Delivery) : Prop where
  describes : Describes d.naming d.event
  sound : Sound d.naming d.event (d.found w)

end Delivery

end Foxing
