import Foxing.Mirror

/-!
# Changes of the source and the names they announce

The dispatcher drops an event when either of its names looks internal, the
worker when the path of its first name is excluded. Names that neither filter
takes out are to be the same on both sides once the worker has caught up. While
it lags behind, what a name will be is decided by the last event on its way that
touches it: a name that is put there must be on the source by now, a name that
is taken away must be gone from it. A change of the source does to the names
what its event announces.
-/
namespace Foxing
namespace Mirror
variable (env : Env) (dirs : U64 → Option Path)

/-- The path is not excluded, and its name is not internal. -/
def visible (n : Path) : Bool :=
  !(n.getLast?.map internalName).getD false && !env.config.isPathExcluded n

/-- The names that both filters let through are the same on both sides. -/
def Mirrored (m : Mirror) : Prop :=
  ∀ n, visible env n = true → (m.worker.target.node n ≠ none ↔ m.source.node n ≠ none)

/-- A rename that exchanges its two names. -/
def IsExchange (e : Event) : Prop := e.flags.val / 2 % 2 = 1

instance (e : Event) : Decidable (IsExchange e) := inferInstanceAs (Decidable (_ = _))

/-- An event that the source can send: files are created with a free inode, and
renames are those that the source has carried out. -/
structure Happens (s : Fs) (e : Event) : Prop where
  kind : e.eventType ∈ [EventType.create, .write, .writeRange, .rename]
  parent : e.parentInode ≠ 0 ∧ dirs e.parentInode ≠ none
  name : ValidName e.name
  single : e.eventType ≠ .rename → e.newName = none
  created : e.eventType = .create →
    s.node (place dirs e) = none ∧ ∀ q, s.node q ≠ some (.file (.initial e.inode.val))
  renamed : e.eventType = .rename →
    (∃ newName ∈ e.newName, ValidName newName) ∧
      e.newParentInode ≠ 0 ∧ dirs e.newParentInode ≠ none ∧
      (renameCall dirs e s).1 = .ok () ∧ (IsExchange e → s.node (newPlace dirs e) ≠ none) ∧
      (s.isDir (place dirs e) = true ∨
        s.node (place dirs e) = some (.file (.initial e.inode.val)) ∧ e.mode.val / 16384 % 2 ≠ 1)

instance (s : Fs) (e : Event) : Decidable (Happens dirs s e) :=
  decidable_of_iff
    (e.eventType ∈ [EventType.create, .write, .writeRange, .rename] ∧
      (e.parentInode ≠ 0 ∧ dirs e.parentInode ≠ none) ∧ ValidName e.name ∧
      (e.eventType ≠ .rename → e.newName = none) ∧
      (e.eventType = .create → s.node (place dirs e) = none ∧
        ∀ q ∈ s.occupied, s.node q ≠ some (.file (.initial e.inode.val))) ∧
      (e.eventType = .rename → (∃ newName ∈ e.newName, ValidName newName) ∧
        e.newParentInode ≠ 0 ∧ dirs e.newParentInode ≠ none ∧
        (renameCall dirs e s).1 = .ok () ∧ (IsExchange e → s.node (newPlace dirs e) ≠ none) ∧
        (s.isDir (place dirs e) = true ∨
          s.node (place dirs e) = some (.file (.initial e.inode.val)) ∧
            e.mode.val / 16384 % 2 ≠ 1)))
    ⟨fun ⟨hk, hp, hn, hs, hc, hr⟩ => ⟨hk, hp, hn, hs, fun h => ⟨(hc h).1, fun q hq =>
        (hc h).2 q ((s.mem_occupied q).mpr (by simp [hq])) hq⟩, hr⟩,
      fun h => ⟨h.kind, h.parent, h.name, h.single,
        fun hc => ⟨(h.created hc).1, fun q _ => (h.created hc).2 q⟩, h.renamed⟩⟩

/-- Renames of files that stay on one side of the filters, or leave through the
exclusion patterns. -/
structure StaysInside (s : Fs) (e : Event) : Prop where
  files : s.NotDir (place dirs e) ∧ s.NotDir (newPlace dirs e)
  enters : visible env (newPlace dirs e) = true → visible env (place dirs e) = true
  leaves : visible env (place dirs e) = true → (e.newName.map internalName).getD false = false
  exchanged : IsExchange e → visible env (place dirs e) = true → visible env (newPlace dirs e) = true

instance (s : Fs) (e : Event) : Decidable (StaysInside env dirs s e) :=
  decidable_of_iff
    ((s.NotDir (place dirs e) ∧ s.NotDir (newPlace dirs e)) ∧
      (visible env (newPlace dirs e) = true → visible env (place dirs e) = true) ∧
      (visible env (place dirs e) = true → (e.newName.map internalName).getD false = false) ∧
      (IsExchange e → visible env (place dirs e) = true → visible env (newPlace dirs e) = true))
    ⟨fun ⟨hf, he, hl, hx⟩ => ⟨hf, he, hl, hx⟩, fun h => ⟨h.files, h.enters, h.leaves, h.exchanged⟩⟩

/-- A creation is not held back by a rename that is registered but not on its
way, and an exchange finds both of its names. -/
structure InStep (m : Mirror) (e : Event) (rest : List Event) : Prop where
  create : e.eventType = .create → m.source.pathExists (place dirs e) = true →
    0 < m.queue.pendingRenames e.inode →
    ∃ r ∈ rest, r.eventType = .rename ∧ r.inode = e.inode
  exchange : e.eventType = .rename → IsExchange e →
    m.worker.target.node (place dirs e) ≠ none ∧ m.worker.target.node (newPlace dirs e) ≠ none

instance (m : Mirror) (e : Event) (rest : List Event) : Decidable (InStep dirs m e rest) :=
  decidable_of_iff
    ((e.eventType = .create → m.source.pathExists (place dirs e) = true →
        0 < m.queue.pendingRenames e.inode →
        ∃ r ∈ rest, r.eventType = .rename ∧ r.inode = e.inode) ∧
      (e.eventType = .rename → IsExchange e → m.worker.target.node (place dirs e) ≠ none ∧
        m.worker.target.node (newPlace dirs e) ≠ none))
    ⟨fun ⟨hc, hx⟩ => ⟨hc, hx⟩, fun h => ⟨h.create, h.exchange⟩⟩

/-- The histories that are possible. -/
def Possible (m : Mirror) : Action → Prop
  | .change e _ => Happens dirs m.source e
  | .work _ => True

instance (m : Mirror) : (a : Action) → Decidable (Possible dirs m a)
  | .change e _ => inferInstanceAs (Decidable (Happens dirs m.source e))
  | .work _ => inferInstanceAs (Decidable True)

/-- The steps that keep the names in line. -/
def Aligned (m : Mirror) : Action → Prop
  | .change e _ => e.eventType = .rename → StaysInside env dirs m.source e
  | .work tin => ∀ e rest, m.queue.tins tin = e :: rest → visible env (place dirs e) = true →
      InStep dirs m e rest

instance (m : Mirror) : (a : Action) → Decidable (Aligned env dirs m a)
  | .change e _ =>
    inferInstanceAs (Decidable (e.eventType = .rename → StaysInside env dirs m.source e))
  | .work tin =>
    match h : m.queue.tins tin with
    | [] => isTrue fun e rest hes => by rw [h] at hes; cases hes
    | e :: rest =>
      decidable_of_iff (visible env (place dirs e) = true → InStep dirs m e rest)
        ⟨fun hin e' rest' hes => by rw [h] at hes; cases hes; exact hin, fun hin => hin e rest h⟩

/-- A source of regular files with a single name each, in known directories. -/
structure Tidy (m : Mirror) : Prop where
  closed : m.source.Closed
  regular : ∀ p i, m.source.node p = some (.file i) → ∃ c, (m.source.data i).kind = .regular c
  unique : ∀ p q i, m.source.node p = some (.file i) → m.source.node q = some (.file i) → p = q
  dirs : ∀ i d, dirs i = some d →
    m.source.isDir d = true ∧ validateTargetRootContainment d = true

/-- The worker's directories are those of the source. -/
structure Known (m : Mirror) : Prop where
  closed : m.worker.target.Closed
  same : ∀ p, m.worker.target.isDir p = m.source.isDir p
  dirMap : ∀ i d, dirs i = some d → m.worker.dirMap i = some d

/-- Nothing is under way, and the names are the same. -/
structure Synchronized (m : Mirror) : Prop where
  tidy : Tidy dirs m
  known : Known dirs m
  idle : ∀ tin, m.queue.tins tin = []
  mirrored : Mirrored env m

/-! ## The last event that touches a name -/

/-- What an event does to a name when the worker gets to it: `true` puts it there,
`false` takes it away. -/
def touch (e : Event) (n : Path) : Option Bool :=
  if visible env (place dirs e) = true then
    if e.eventType = .create then if n = place dirs e then some true else none
    else if e.eventType = .rename then
      if n = newPlace dirs e then some true
      else if n = place dirs e then some (decide (IsExchange e))
      else none
    else none
  else none

/-- What the last event that touches a name does to it. -/
def lastTouch (n : Path) : List Event → Option Bool
  | [] => none
  | e :: rest => (lastTouch n rest).or (touch env dirs e n)

theorem lastTouch_append (n : Path) (es : List Event) (e : Event) :
    lastTouch env dirs n (es ++ [e]) = (touch env dirs e n).or (lastTouch env dirs n es) := by
  induction es with
  | nil => simp [lastTouch]
  | cons a es ih => simp [lastTouch, ih, Option.or_assoc]

/-- A name agrees with the events on their way to it. -/
def Promised (n : Path) (es : List Event) (m : Mirror) : Prop :=
  match lastTouch env dirs n es with
  | some true => m.source.node n ≠ none
  | some false => m.source.node n = none
  | none => m.worker.target.node n ≠ none ↔ m.source.node n ≠ none

/-- Every creation on its way is followed by an event that touches its name, or
the file is there and has not been renamed. -/
def Settled (es : List Event) (s : Fs) : Prop :=
  ∀ before c after, es = before ++ c :: after → c.eventType = .create →
    visible env (place dirs c) = true →
    lastTouch env dirs (place dirs c) after ≠ none ∨
      (s.node (place dirs c) = some (.file (.initial c.inode.val)) ∧
        ∀ r ∈ after, r.eventType = .rename → r.inode ≠ c.inode)

/-- An event on its way to the worker. -/
structure Queued (e : Event) : Prop where
  parent : e.parentInode ≠ 0 ∧ dirs e.parentInode ≠ none
  name : ValidName e.name
  external : e.isInternalTraffic = false
  renamed : e.eventType = .rename →
    (∃ newName ∈ e.newName, ValidName newName) ∧
      e.newParentInode ≠ 0 ∧ dirs e.newParentInode ≠ none ∧ e.mode.val / 16384 % 2 ≠ 1

/-- What holds at every moment. -/
structure Invariant (m : Mirror) : Prop where
  tidy : Tidy dirs m
  known : Known dirs m
  queued : ∀ tin, ∀ e ∈ m.queue.tins tin, Queued dirs e
  structural : ∀ e ∈ m.queue.tins .structural, e.eventType = .create ∨ e.eventType = .rename
  bulk : ∀ e ∈ m.queue.tins .bulk, e.eventType = .write ∨ e.eventType = .writeRange
  others : m.queue.tins .control = [] ∧ m.queue.tins .metadata = []
  places : ∀ e ∈ m.queue.tins .structural, m.source.NotDir (place dirs e) ∧
    (e.eventType = .rename → m.source.NotDir (newPlace dirs e))
  promised : ∀ n, visible env n = true →
    Promised env dirs n (m.queue.tins .structural) m
  settled : Settled env dirs (m.queue.tins .structural) m.source

/-! ## Changes of the source -/

section Source
variable {env dirs} {m : Mirror} {e : Event} {content : File} {d : Path}

theorem place_eq (h : dirs e.parentInode = some d) : place dirs e = d ++ [e.name] := by
  simp [place, placeIn, h]

theorem newPlace_eq {newName : String} (h : dirs e.newParentInode = some d)
    (hn : e.newName = some newName) : newPlace dirs e = d ++ [newName] := by
  simp [newPlace, placeIn, h, hn]

/-- The directory of a place in the source. -/
theorem Tidy.isDir_parent (ht : Tidy dirs m) {i : U64} {name : String} (hi : dirs i ≠ none)
    {a : Path} {c : String} (hac : a ++ [c] = placeIn dirs i name) :
    m.source.isDir a = true := by
  obtain ⟨d, hd⟩ := Option.ne_none_iff_exists'.mp hi
  rw [placeIn, hd, Option.getD_some] at hac
  obtain ⟨rfl, -⟩ := List.append_inj' hac rfl
  exact (ht.dirs i _ hd).1

theorem Tidy.hasParent (ht : Tidy dirs m) {i : U64} (name : String) (hi : dirs i ≠ none) :
    m.source.hasParent (placeIn dirs i name) = true := by
  have hdir : m.source.isDir ((dirs i).getD []) = true := ht.isDir_parent hi (Eq.refl (placeIn dirs i name))
  simpa [Fs.hasParent, Path.parent?, placeIn] using hdir

/-- The source after a file has been created. -/
structure Created (dirs : U64 → Option Path) (e : Event) (s s' : Fs) : Prop where
  node : s'.node (place dirs e) = some (.file (.initial e.inode.val))
  frame : ∀ q, q ≠ place dirs e → s'.node q = s.node q
  kind : (s'.data (.initial e.inode.val)).kind = .regular .empty
  data : ∀ i, i ≠ .initial e.inode.val → s'.data i = s.data i

theorem Tidy.created (ht : Tidy dirs m) (hh : Happens dirs m.source e)
    (htype : e.eventType = .create) :
    Created dirs e m.source (occur dirs e content m.source) := by
  have hpar : m.source.hasParent (place dirs e) = true := ht.hasParent _ hh.parent.2
  have hrun : occur dirs e content m.source = (m.source.setNode (place dirs e)
      (some (.file (.initial e.inode.val)))).setData (.initial e.inode.val)
        ⟨⟨e.mode, e.uid, e.gid⟩, .regular .empty⟩ := by
    simp only [occur, htype, Fs.link, hpar, if_true]
  rw [hrun]
  refine ⟨by simp, fun q hq => by simp [hq], by simp, fun i hi => by simp [hi]⟩

/-- The source after a file has been renamed. -/
structure Moved (dirs : U64 → Option Path) (e : Event) (s s' : Fs) : Prop where
  origin : s.node (place dirs e) = some (.file (.initial e.inode.val))
  dest : s'.node (newPlace dirs e) = some (.file (.initial e.inode.val))
  frame : ∀ q, q ≠ place dirs e → q ≠ newPlace dirs e → s'.node q = s.node q
  left : ¬ IsExchange e → place dirs e ≠ newPlace dirs e → s'.node (place dirs e) = none
  back : IsExchange e → s'.node (place dirs e) = s.node (newPlace dirs e) ∧
    ∃ j, s.node (newPlace dirs e) = some (.file j)
  data : s'.data = s.data

theorem Tidy.moved (ht : Tidy dirs m) (hh : Happens dirs m.source e)
    (htype : e.eventType = .rename) (hfile : m.source.NotDir (place dirs e))
    (hfile' : m.source.NotDir (newPlace dirs e)) :
    Moved dirs e m.source (occur dirs e content m.source) := by
  obtain ⟨-, -, hpar', -, hthere, hinode⟩ := hh.renamed htype
  have hrun : occur dirs e content m.source = (renameCall dirs e m.source).2 := by
    simp only [occur, htype]
  have horigin : m.source.node (place dirs e) = some (.file (.initial e.inode.val)) := by
    rcases hinode with hdir | ⟨hnode, -⟩
    · rw [hfile] at hdir
      cases hdir
    · exact hnode
  rw [hrun]
  by_cases hx : e.flags.val / 2 % 2 = 1
  · obtain ⟨j, hj⟩ : ∃ j, m.source.node (newPlace dirs e) = some (.file j) := by
      rcases ht.closed.node_cases hfile' with hnone | hj
      · exact absurd hnone (hthere hx)
      · exact hj
    obtain ⟨-, hdata, hframe, hdest, hback⟩ := ht.closed.exchange_file horigin hj
    simp only [renameCall, hx, if_true]
    exact ⟨horigin, hdest, hframe, fun h => absurd hx h, fun _ => ⟨hback.trans hj.symm, j, hj⟩,
      hdata⟩
  · obtain ⟨-, hdata, hframe, hdest, hleft⟩ := ht.closed.rename_file horigin hfile'
      (ht.hasParent _ hpar')
    simp only [renameCall, hx, if_false]
    refine ⟨horigin, hdest, hframe, fun _ hne => ?_, fun h => absurd h hx, hdata⟩
    rcases hleft with hnone | ⟨-, hsame⟩
    · exact hnone
    · exact absurd (ht.unique _ _ _ horigin hsame) hne

/-- Writing changes the contents of regular files alone. -/
theorem written (dirs : U64 → Option Path) (content : File) (s : Fs)
    (htype : e.eventType = .write ∨ e.eventType = .writeRange) :
    (occur dirs e content s).node = s.node ∧
      ∀ i c, (s.data i).kind = .regular c →
        ∃ c', ((occur dirs e content s).data i).kind = .regular c' := by
  have hrun : occur dirs e content s = (s.alterContent (fun _ => content) (place dirs e)).2 := by
    rcases htype with h | h <;> simp only [occur, h]
  rw [hrun]
  refine ⟨Fs.alterContent_node _, fun i c hc => ?_⟩
  unfold Fs.alterContent
  cases hn : s.node (place dirs e) with
  | none => exact ⟨c, hc⟩
  | some n =>
    cases n with
    | dir _ => exact ⟨c, hc⟩
    | symlink _ _ => exact ⟨c, hc⟩
    | file j =>
      simp only
      cases hk : (s.data j).kind with
      | special _ _ => exact ⟨c, hc⟩
      | regular c₀ =>
        by_cases hij : i = j
        · subst hij
          exact ⟨content, by simp⟩
        · exact ⟨c, by simpa [hij] using hc⟩

/-- Files that come from one another have one name each if their origins do. -/
theorem Moved.origin_of {s s' : Fs} (h : Moved dirs e s s') {x : Path} {i : FileId}
    (hx : s'.node x = some (.file i)) :
    s.node (Equiv.swap (place dirs e) (newPlace dirs e) x) = some (.file i) := by
  by_cases hnew : x = newPlace dirs e
  · subst hnew
    rw [Equiv.swap_apply_right, h.origin, ← h.dest, hx]
  · by_cases hold : x = place dirs e
    · subst hold
      rw [Equiv.swap_apply_left]
      by_cases hex : IsExchange e
      · rw [← (h.back hex).1, hx]
      · rw [h.left hex hnew] at hx
        cases hx
    · rw [Equiv.swap_apply_of_ne_of_ne hold hnew, ← h.frame x hold hnew, hx]

/-- The source stays tidy when files come and go at paths in known directories. -/
theorem Tidy.change (ht : Tidy dirs m) {s' : Fs} {queue : EventQueue} {X : Set Path}
    (hX : ∀ q ∈ X, m.source.NotDir q) (hpar : ∀ a c, a ++ [c] ∈ X → m.source.isDir a = true)
    (hframe : ∀ q ∉ X, s'.node q = m.source.node q)
    (hfile : ∀ q ∈ X, s'.node q = none ∨ ∃ i, s'.node q = some (.file i))
    (hreg : ∀ p i, s'.node p = some (.file i) → ∃ c, (s'.data i).kind = .regular c)
    (huniq : ∀ p q i, s'.node p = some (.file i) → s'.node q = some (.file i) → p = q) :
    Tidy dirs { m with source := s', queue := queue } ∧
      ∀ q, s'.isDir q = m.source.isDir q := by
  obtain ⟨hclosed, hdirs⟩ := ht.closed.of_files hX hpar hframe hfile
  refine ⟨⟨hclosed, hreg, huniq, fun i d hd => ?_⟩, hdirs⟩
  exact ⟨(hdirs d).trans (ht.dirs i d hd).1, (ht.dirs i d hd).2⟩

theorem Created.tidy {s' : Fs} {queue : EventQueue} (h : Created dirs e m.source s')
    (ht : Tidy dirs m) (hh : Happens dirs m.source e) (htype : e.eventType = .create) :
    Tidy dirs { m with source := s', queue := queue } ∧
      ∀ q, s'.isDir q = m.source.isDir q := by
  obtain ⟨hfree, hfresh⟩ := hh.created htype
  -- at another path it is another file
  have hother : ∀ x i, x ≠ place dirs e → s'.node x = some (.file i) →
      m.source.node x = some (.file i) ∧ i ≠ .initial e.inode.val := by
    intro x i hx hi
    rw [h.frame x hx] at hi
    exact ⟨hi, fun heq => hfresh x (heq ▸ hi)⟩
  refine ht.change (X := {place dirs e}) ?_ ?_ (fun q hq => h.frame q hq) ?_ ?_ ?_
  · rintro q rfl
    simp [Fs.NotDir, Fs.isDir, hfree]
  · intro a c hac
    exact ht.isDir_parent hh.parent.2 hac
  · rintro q rfl
    exact .inr ⟨_, h.node⟩
  · intro p i hi
    by_cases hp : p = place dirs e
    · rw [hp, h.node] at hi
      cases hi
      exact ⟨_, h.kind⟩
    · obtain ⟨hi', hne⟩ := hother p i hp hi
      rw [h.data i hne]
      exact ht.regular p i hi'
  · intro p q i hi hj
    by_cases hp : p = place dirs e
    · by_cases hq : q = place dirs e
      · rw [hp, hq]
      · rw [hp, h.node] at hi
        cases hi
        exact absurd rfl (hother q _ hq hj).2
    · by_cases hq : q = place dirs e
      · rw [hq, h.node] at hj
        cases hj
        exact absurd rfl (hother p _ hp hi).2
      · exact ht.unique p q i (hother p i hp hi).1 (hother q i hq hj).1

theorem Moved.tidy {s' : Fs} {queue : EventQueue} (h : Moved dirs e m.source s')
    (ht : Tidy dirs m) (hh : Happens dirs m.source e) (htype : e.eventType = .rename)
    (hfile' : m.source.NotDir (newPlace dirs e)) :
    Tidy dirs { m with source := s', queue := queue } ∧
      ∀ q, s'.isDir q = m.source.isDir q := by
  obtain ⟨-, -, hpar', -⟩ := hh.renamed htype
  refine ht.change (X := {place dirs e, newPlace dirs e}) ?_ ?_ ?_ ?_ ?_ ?_
  · rintro q (rfl | rfl)
    · simp [Fs.NotDir, Fs.isDir, h.origin]
    · exact hfile'
  · rintro a c (hac | hac)
    · exact ht.isDir_parent hh.parent.2 hac
    · exact ht.isDir_parent hpar' hac
  · intro q hq
    simp only [Set.mem_insert_iff, Set.mem_singleton_iff, not_or] at hq
    exact h.frame q hq.1 hq.2
  · rintro q (rfl | rfl)
    · by_cases hex : IsExchange e
      · obtain ⟨hback, j, hj⟩ := h.back hex
        exact .inr ⟨j, hback.trans hj⟩
      · by_cases hne : place dirs e = newPlace dirs e
        · exact .inr ⟨_, hne ▸ h.dest⟩
        · exact .inl (h.left hex hne)
    · exact .inr ⟨_, h.dest⟩
  · intro p i hi
    rw [h.data]
    exact ht.regular _ i (h.origin_of hi)
  · intro p q i hi hj
    exact (Equiv.swap _ _).injective (ht.unique _ _ i (h.origin_of hi) (h.origin_of hj))

/-! ### What a change means for the names -/

/-- A change of the source does to the visible names what its event announces. -/
structure Reflected (env : Env) (dirs : U64 → Option Path) (m : Mirror) (e : Event) (s' : Fs) : Prop where
  keeps : ∀ n, visible env n = true → touch env dirs e n = none → s'.node n = m.source.node n
  puts : ∀ n, touch env dirs e n = some true → s'.node n ≠ none
  takes : ∀ n, touch env dirs e n = some false → s'.node n = none
  other : ∀ n (i : U64), visible env n = true → touch env dirs e n = none →
    m.source.node n = some (.file (.initial i.val)) → e.eventType = .rename → e.inode ≠ i
  dropped : e.isInternalTraffic = true → ∀ n, touch env dirs e n = none

theorem touch_hidden (env : Env) (h : visible env (place dirs e) = false) (n : Path) :
    touch env dirs e n = none := by
  simp [touch, h]

theorem touch_create (htype : e.eventType = .create) (h : visible env (place dirs e) = true)
    (n : Path) : touch env dirs e n = if n = place dirs e then some true else none := by
  simp [touch, h, htype]

theorem touch_rename (htype : e.eventType = .rename) (h : visible env (place dirs e) = true)
    (n : Path) : touch env dirs e n = if n = newPlace dirs e then some true
      else if n = place dirs e then some (decide (IsExchange e)) else none := by
  simp [touch, h, htype]

theorem visible_internal (h : internalName e.name = true) : visible env (place dirs e) = false := by
  simp [visible, place, placeIn, h]

theorem Created.reflected {s' : Fs} (h : Created dirs e m.source s')
    (hh : Happens dirs m.source e) (htype : e.eventType = .create) :
    Reflected env dirs m e s' := by
  have hne : e.eventType ≠ .rename := by simp [htype]
  by_cases hvis : visible env (place dirs e) = true
  · have htouch := touch_create htype hvis
    refine ⟨fun n _ hn => ?_, fun n hn => ?_, fun n hn => ?_, fun _ _ _ _ _ h => absurd h hne,
      fun hint => ?_⟩
    · rw [htouch] at hn
      exact h.frame n fun heq => by simp [heq] at hn
    · rw [htouch] at hn
      have heq : n = place dirs e := by
        by_contra hnp
        simp [hnp] at hn
      rw [heq, h.node]
      exact Option.some_ne_none _
    · rw [htouch] at hn
      split_ifs at hn
      cases hn
    · rw [Event.isInternalTraffic, hh.single hne] at hint
      rw [visible_internal (by simpa using hint)] at hvis
      cases hvis
  · have hhid : visible env (place dirs e) = false := by simpa using hvis
    have hnone := touch_hidden env hhid
    refine ⟨fun n hn _ => h.frame n ?_, fun n hn => ?_, fun n hn => ?_,
      fun _ _ _ _ _ h => absurd h hne, fun _ => hnone⟩
    · rintro rfl
      exact hvis hn
    · rw [hnone] at hn
      cases hn
    · rw [hnone] at hn
      cases hn

theorem Moved.reflected {s' : Fs} (h : Moved dirs e m.source s') (ht : Tidy dirs m)
    (htype : e.eventType = .rename) (hin : StaysInside env dirs m.source e) :
    Reflected env dirs m e s' := by
  by_cases hvis : visible env (place dirs e) = true
  · have htouch := touch_rename htype hvis
    have hnone : ∀ n, touch env dirs e n = none → n ≠ place dirs e ∧ n ≠ newPlace dirs e := by
      intro n hn
      rw [htouch] at hn
      split_ifs at hn with hnew hold
      exact ⟨hold, hnew⟩
    refine ⟨fun n _ hn => h.frame n (hnone n hn).1 (hnone n hn).2, fun n hn => ?_, fun n hn => ?_,
      fun n i _ hn hi _ heq => ?_, fun hint => ?_⟩
    · rw [htouch] at hn
      split_ifs at hn with hnew hold
      · rw [hnew, h.dest]
        exact Option.some_ne_none _
      · obtain ⟨hback, j, hj⟩ := h.back (by simpa using hn)
        rw [hold, hback, hj]
        exact Option.some_ne_none _
    · rw [htouch] at hn
      split_ifs at hn with hnew hold
      · cases hn
      · have hex : ¬ IsExchange e := by simpa using hn
        rw [hold]
        exact h.left hex fun heq => hnew (hold.trans heq)
    · rw [← heq] at hi
      exact (hnone n hn).1 (ht.unique _ _ _ hi h.origin)
    · rw [Event.isInternalTraffic, hin.leaves hvis, Bool.or_false] at hint
      rw [visible_internal hint] at hvis
      cases hvis
  · have hhid : visible env (place dirs e) = false := by simpa using hvis
    have hnone := touch_hidden env hhid
    have hne : ∀ n, visible env n = true → n ≠ place dirs e ∧ n ≠ newPlace dirs e := by
      refine fun n hn => ⟨?_, ?_⟩
      · rintro rfl
        exact hvis hn
      · rintro rfl
        exact hvis (hin.enters hn)
    refine ⟨fun n hn _ => h.frame n (hne n hn).1 (hne n hn).2, fun n hn => ?_, fun n hn => ?_,
      fun n i hn _ hi _ heq => ?_, fun _ => hnone⟩
    · rw [hnone] at hn
      cases hn
    · rw [hnone] at hn
      cases hn
    · rw [← heq] at hi
      exact (hne n hn).1 (ht.unique _ _ _ hi h.origin)

end Source

end Mirror

end Foxing
