import Foxing.SourceChanges
import Foxing.Lib.Run

/-!
# Names across the filters

The dispatcher and the worker keep what the events on their way promise for the
names, so that both sides agree on the visible ones whenever the worker has
caught up. The histories in which this holds are those whose renames do not
cross a filter; the runs at the end show what is lost otherwise.
-/
namespace Foxing
namespace Mirror
variable (env : Env) (dirs : U64 → Option Path)

/-! ## The dispatcher -/

section Push
variable {q : EventQueue} {e : Event}

theorem register_tins (q : EventQueue) (e : Event) : (q.register e).tins = q.tins := by
  unfold EventQueue.register
  split_ifs <;> rfl

/-- The tin of an event gets it, unless it is internal or the tin is full. -/
theorem push_tins (q : EventQueue) (e : Event) (tin : EventTin) :
    (q.push e).2.tins tin = q.tins tin ∨ e.isInternalTraffic = false ∧ e.eventType.tin = tin ∧
      (q.push e).2.tins tin = q.tins tin ++ [e] := by
  unfold EventQueue.push
  by_cases hint : e.isInternalTraffic = true
  · rw [if_pos hint]
    exact .inl rfl
  · rw [if_neg hint]
    split_ifs
    · exact .inl (congrFun (register_tins q e) tin)
    · by_cases htin : e.eventType.tin = tin
      · subst htin
        refine .inr ⟨by simpa using hint, rfl, ?_⟩
        simp [EventQueue.append, register_tins]
      · left
        simp [EventQueue.append, register_tins, Ne.symm htin]

/-- Structural events wait for room and are never refused. -/
theorem push_structural (ht : e.eventType.tin = .structural) (hint : e.isInternalTraffic = false) :
    (q.push e).2.tins .structural = q.tins .structural ++ [e] := by
  have hroom : (q.register e).isFull .structural = false := rfl
  simp [EventQueue.push, hint, ht, hroom, EventQueue.append, register_tins]

end Push

section Change
variable {env dirs} {m : Mirror} {e : Event} {content : File}

/-- The tin of structural events after a change. -/
theorem Reflected.structural {s' : Fs} (h : Reflected env dirs m e s')
    (n : Path) :
    lastTouch env dirs n ((m.queue.push e).2.tins .structural) =
      (touch env dirs e n).or (lastTouch env dirs n (m.queue.tins .structural)) := by
  by_cases ht : e.eventType.tin = .structural
  · by_cases hint : e.isInternalTraffic = true
    · rw [h.dropped hint n, Option.none_or, EventQueue.push, if_pos hint]
    · rw [push_structural ht (by simpa using hint), lastTouch_append]
  · have hnone : touch env dirs e n = none := by
      have hne : e.eventType ≠ .create := fun h => ht (by rw [h]; rfl)
      have hne' : e.eventType ≠ .rename := fun h => ht (by rw [h]; rfl)
      simp [touch, hne, hne']
    rcases push_tins m.queue e .structural with hsame | ⟨-, htin, -⟩
    · rw [hsame, hnone, Option.none_or]
    · exact absurd htin ht

theorem Promised.change {s' : Fs} {n : Path} (h : Reflected env dirs m e s')
    (hn : visible env n = true) (hp : Promised env dirs n (m.queue.tins .structural) m) :
    Promised env dirs n ((m.queue.push e).2.tins .structural)
      { m with source := s', queue := (m.queue.push e).2 } := by
  unfold Promised
  rw [h.structural n]
  cases htouch : touch env dirs e n with
  | some b =>
    cases b with
    | true => exact h.puts n htouch
    | false => exact h.takes n htouch
  | none =>
    rw [Option.none_or]
    unfold Promised at hp
    cases hlast : lastTouch env dirs n (m.queue.tins .structural) with
    | some b =>
      rw [hlast] at hp
      cases b with
      | true =>
        show s'.node n ≠ none
        rw [h.keeps n hn htouch]
        exact hp
      | false => exact (h.keeps n hn htouch).trans hp
    | none =>
      rw [hlast] at hp
      show m.worker.target.node n ≠ none ↔ s'.node n ≠ none
      rw [h.keeps n hn htouch]
      exact hp

theorem Settled.change {s' : Fs} (h : Reflected env dirs m e s')
    (hcreate : e.eventType = .create →
      s'.node (place dirs e) = some (.file (.initial e.inode.val)))
    (hs : Settled env dirs (m.queue.tins .structural) m.source) :
    Settled env dirs ((m.queue.push e).2.tins .structural) s' := by
  intro before c after hes hc hvis
  -- an event that was there already is followed by the new one
  have hold : ∀ after', m.queue.tins .structural = before ++ c :: after' →
      (after = after' ∧ (e.isInternalTraffic = true ∨ e.eventType.tin ≠ .structural) ∨
        after = after' ++ [e]) →
      lastTouch env dirs (place dirs c) after ≠ none ∨
        (s'.node (place dirs c) = some (.file (.initial c.inode.val)) ∧
          ∀ r ∈ after, r.eventType = .rename → r.inode ≠ c.inode) := by
    intro after' hes' hafter
    rcases hs before c after' hes' hc hvis with htouched | ⟨hnode, hothers⟩
    · left
      rcases hafter with ⟨rfl, -⟩ | rfl
      · exact htouched
      · rw [lastTouch_append]
        cases htouch : touch env dirs e (place dirs c) with
        | some b => simp
        | none => simpa using htouched
    · cases htouch : touch env dirs e (place dirs c) with
      | some b =>
        rcases hafter with ⟨rfl, hdrop⟩ | rfl
        · rcases hdrop with hint | htin
          · rw [h.dropped hint] at htouch
            cases htouch
          · have hne : e.eventType ≠ .create := fun h => htin (by rw [h]; rfl)
            have hne' : e.eventType ≠ .rename := fun h => htin (by rw [h]; rfl)
            simp [touch, hne, hne'] at htouch
        · left
          rw [lastTouch_append, htouch]
          simp
      | none =>
        right
        refine ⟨(h.keeps _ hvis htouch).trans hnode, fun r hr hren => ?_⟩
        rcases hafter with ⟨rfl, -⟩ | rfl
        · exact hothers r hr hren
        · rcases List.mem_append.mp hr with hr | hr
          · exact hothers r hr hren
          · obtain rfl := List.mem_singleton.mp hr
            exact h.other _ _ hvis htouch hnode hren
  rcases push_tins m.queue e .structural with hsame | ⟨hint, htin, hsnoc⟩
  · refine hold after (hsame ▸ hes) (.inl ⟨rfl, ?_⟩)
    by_contra hno
    push Not at hno
    rw [push_structural hno.2 (by simpa using hno.1)] at hsame
    simpa using congrArg List.length hsame
  · rw [hsnoc] at hes
    rcases List.eq_nil_or_concat after with rfl | ⟨after', x, rfl⟩
    · obtain ⟨-, heq⟩ := List.append_inj' hes rfl
      obtain rfl : e = c := by simpa using heq
      exact .inr ⟨hcreate hc, fun r hr => by cases hr⟩
    · rw [List.concat_eq_append, ← List.cons_append, ← List.append_assoc] at hes
      obtain ⟨hes', heq⟩ := List.append_inj' hes rfl
      obtain rfl : e = x := by simpa using heq
      exact hold after' hes' (.inr (List.concat_eq_append ..))

/-- The events of a history and the tins that they go to. -/
theorem Happens.cases {s : Fs} (hh : Happens dirs s e) :
    (e.eventType.tin = .structural ∧ (e.eventType = .create ∨ e.eventType = .rename)) ∨
      (e.eventType.tin = .bulk ∧ (e.eventType = .write ∨ e.eventType = .writeRange)) := by
  have hkind := hh.kind
  simp only [List.mem_cons, List.not_mem_nil, or_false] at hkind
  rcases hkind with h | h | h | h <;> simp [h, EventType.tin]

theorem Invariant.of_change {s' : Fs} (hinv : Invariant env dirs m)
    (hh : Happens dirs m.source e)
    (htidy : Tidy dirs { m with source := s', queue := (m.queue.push e).2 } ∧
      ∀ q, s'.isDir q = m.source.isDir q)
    (hrefl : Reflected env dirs m e s')
    (hcreate : e.eventType = .create →
      s'.node (place dirs e) = some (.file (.initial e.inode.val)))
    (hplaces : e.eventType.tin = .structural → m.source.NotDir (place dirs e) ∧
      (e.eventType = .rename → m.source.NotDir (newPlace dirs e)))
    (hmode : e.eventType = .rename → e.mode.val / 16384 % 2 ≠ 1) :
    Invariant env dirs { m with source := s', queue := (m.queue.push e).2 } := by
  obtain ⟨htidy, hdirs⟩ := htidy
  have hmem : ∀ tin x, x ∈ (m.queue.push e).2.tins tin →
      x ∈ m.queue.tins tin ∨ x = e ∧ e.isInternalTraffic = false ∧ e.eventType.tin = tin := by
    intro tin x hx
    rcases push_tins m.queue e tin with hsame | ⟨hint, htin, hsnoc⟩
    · exact .inl (hsame ▸ hx)
    · rw [hsnoc, List.mem_append, List.mem_singleton] at hx
      exact hx.imp id fun heq => ⟨heq, hint, htin⟩
  have hother : ∀ tin, e.eventType.tin ≠ tin → m.queue.tins tin = [] →
      (m.queue.push e).2.tins tin = [] := by
    intro tin hne hnil
    rcases push_tins m.queue e tin with hsame | ⟨-, htin, -⟩
    · rw [hsame, hnil]
    · exact absurd htin hne
  refine ⟨htidy, ⟨hinv.known.closed, fun p => (hinv.known.same p).trans (hdirs p).symm,
    hinv.known.dirMap⟩, ?_, ?_, ?_, ⟨?_, ?_⟩, ?_, fun n hn => ?_, ?_⟩
  · intro tin x hx
    rcases hmem tin x hx with hx | ⟨rfl, hint, -⟩
    · exact hinv.queued tin x hx
    · refine ⟨hh.parent, hh.name, hint, fun hren => ?_⟩
      obtain ⟨hname, hne, hpar', -⟩ := hh.renamed hren
      exact ⟨hname, hne, hpar', hmode hren⟩
  · intro x hx
    rcases hmem _ x hx with hx | ⟨rfl, -, htin⟩
    · exact hinv.structural x hx
    · rcases hh.cases with ⟨-, h⟩ | ⟨hbulk, -⟩
      · exact h
      · rw [htin] at hbulk
        cases hbulk
  · intro x hx
    rcases hmem _ x hx with hx | ⟨rfl, -, htin⟩
    · exact hinv.bulk x hx
    · rcases hh.cases with ⟨hstr, -⟩ | ⟨-, h⟩
      · rw [htin] at hstr
        cases hstr
      · exact h
  · refine hother _ ?_ hinv.others.1
    rcases hh.cases with ⟨h, -⟩ | ⟨h, -⟩ <;> simp [h]
  · refine hother _ ?_ hinv.others.2
    rcases hh.cases with ⟨h, -⟩ | ⟨h, -⟩ <;> simp [h]
  · intro x hx
    show Fs.isDir s' _ = false ∧ (_ → Fs.isDir s' _ = false)
    rw [hdirs, hdirs]
    rcases hmem _ x hx with hx | ⟨rfl, -, htin⟩
    · exact hinv.places x hx
    · exact hplaces htin
  · exact (hinv.promised n hn).change hrefl hn
  · exact hinv.settled.change hrefl hcreate

theorem Invariant.change (hinv : Invariant env dirs m) (hh : Happens dirs m.source e)
    (hin : e.eventType = .rename → StaysInside env dirs m.source e) :
    Invariant env dirs
      { m with source := occur dirs e content m.source, queue := (m.queue.push e).2 } := by
  rcases hh.cases with ⟨hstr, htype | htype⟩ | ⟨hbulk, htype⟩
  · have hcreated : Created dirs e m.source (occur dirs e content m.source) :=
      hinv.tidy.created hh htype
    have hfree := (hh.created htype).1
    refine hinv.of_change hh (hcreated.tidy hinv.tidy hh htype) (hcreated.reflected hh htype)
      (fun _ => hcreated.node) (fun _ => ⟨?_, fun h => ?_⟩) (fun h => ?_)
    · simp [Fs.NotDir, Fs.isDir, hfree]
    · simp [htype] at h
    · simp [htype] at h
  · have hin := hin htype
    have hmoved : Moved dirs e m.source (occur dirs e content m.source) :=
      hinv.tidy.moved hh htype hin.files.1 hin.files.2
    obtain ⟨-, -, -, -, -, hinode⟩ := hh.renamed htype
    refine hinv.of_change hh (hmoved.tidy hinv.tidy hh htype hin.files.2)
      (hmoved.reflected hinv.tidy htype hin) (fun h => ?_) (fun _ => ⟨hin.files.1, fun _ => hin.files.2⟩)
      (fun _ => ?_)
    · simp [htype] at h
    · rcases hinode with hdir | ⟨-, hmode⟩
      · rw [hin.files.1] at hdir
        cases hdir
      · exact hmode
  · obtain ⟨hnode, hreg⟩ := written dirs content m.source htype
    have htouch : ∀ n, touch env dirs e n = none := by
      intro n
      rcases htype with h | h <;> simp [touch, h]
    have hnotcreate : e.eventType ≠ .create := by rcases htype with h | h <;> simp [h]
    have hnotrename : e.eventType ≠ .rename := by rcases htype with h | h <;> simp [h]
    refine hinv.of_change hh ?_ ⟨fun n _ _ => by rw [hnode], fun n hn => ?_, fun n hn => ?_,
      fun _ _ _ _ _ h => absurd h hnotrename, fun _ => htouch⟩ (fun h => absurd h hnotcreate)
      (fun h => ?_) (fun h => absurd h hnotrename)
    · refine hinv.tidy.change (X := ∅) (by simp) (by simp) (fun q _ => by rw [hnode]) (by simp) ?_ ?_
      · intro p i hi
        rw [hnode] at hi
        obtain ⟨c, hc⟩ := hinv.tidy.regular p i hi
        exact hreg i c hc
      · rw [hnode]
        exact hinv.tidy.unique
    · rw [htouch] at hn
      cases hn
    · rw [htouch] at hn
      cases hn
    · rw [hbulk] at h
      cases h

end Change

/-! ## The worker -/

section Work
variable {env dirs} {m : Mirror} {e : Event}

theorem validate_append {d : Path} {name : String} (hd : validateTargetRootContainment d = true)
    (hname : ValidName name) : validateTargetRootContainment (d ++ [name]) = true := by
  have hslash : name ≠ "/" := by
    rintro rfl
    exact hname.2.2.2 (by decide)
  simpa [validateTargetRootContainment, hname.2.2.1, hslash] using hd

/-- The worker knows the directory of an event on its way. -/
theorem Invariant.placed (hinv : Invariant env dirs m) (he : Queued dirs e) :
    ∃ d, place dirs e = d ++ [e.name] ∧ Placed e d m.worker ∧
      m.worker.target.isDir d = true := by
  obtain ⟨d, hd⟩ := Option.ne_none_iff_exists'.mp he.parent.2
  obtain ⟨hdir, hsafe⟩ := hinv.tidy.dirs _ d hd
  exact ⟨d, place_eq hd, ⟨he.parent.1, hinv.known.dirMap _ d hd, he.name,
    validate_append hsafe he.name⟩, (hinv.known.same d).trans hdir⟩

theorem Queued.external_name (he : Queued dirs e) : internalName e.name = false := by
  have h := he.external
  rw [Event.isInternalTraffic, Bool.or_eq_false_iff] at h
  exact h.1

theorem Queued.not_excluded (he : Queued dirs e) (hvis : visible env (place dirs e) = true) :
    env.config.isPathExcluded (place dirs e) = false := by
  simpa [visible, place, placeIn, he.external_name] using hvis

/-- An event that the dispatcher lets through is hidden only by exclusion. -/
theorem Queued.excluded (he : Queued dirs e) (hhid : visible env (place dirs e) = false) :
    env.config.isPathExcluded (place dirs e) = true := by
  simpa [visible, place, placeIn, he.external_name] using hhid

/-- What the worker has done to its names with an event in front of `rest`. -/
structure Carried (env : Env) (dirs : U64 → Option Path) (m : Mirror) (e : Event)
    (rest : List Event) (v : World) : Prop where
  closed : v.target.Closed
  same : ∀ p, v.target.isDir p = m.worker.target.isDir p
  dirMap : v.dirMap = m.worker.dirMap
  keeps : ∀ n, visible env n = true → touch env dirs e n = none →
    v.target.node n = m.worker.target.node n
  puts : ∀ n, visible env n = true → touch env dirs e n = some true →
    lastTouch env dirs n rest = none → m.source.node n ≠ none → v.target.node n ≠ none
  takes : ∀ n, touch env dirs e n = some false → m.source.node n = none → v.target.node n = none

theorem carried_of_same {rest : List Event} {v : World} (hc : m.worker.target.Closed)
    (htouch : ∀ n, touch env dirs e n = none) (hdir : v.dirMap = m.worker.dirMap)
    (hnode : v.target.node = m.worker.target.node) :
    Carried env dirs m e rest v := by
  have hdirs : ∀ p, v.target.isDir p = m.worker.target.isDir p := by
    intro p
    rw [Fs.isDir, Fs.isDir, hnode]
  refine ⟨⟨fun q c h => ?_, fun q d mt => ?_⟩, hdirs, hdir, fun n _ _ => by rw [hnode],
    fun n _ h => ?_, fun n h => ?_⟩
  · rw [hdirs]
    exact hc.parent q c (hnode ▸ h)
  · rw [hnode]
    exact hc.plain q d mt
  · rw [htouch] at h
    cases h
  · rw [htouch] at h
    cases h

theorem Invariant.carried_create {rest : List Event} (hinv : Invariant env dirs m)
    (hes : m.queue.tins .structural = e :: rest) (htype : e.eventType = .create)
    (hvis : visible env (place dirs e) = true) (hin : InStep dirs m e rest) :
    Carried env dirs m e rest
      (processSingleEvent (m.envAt env) none e m.worker).2 := by
  have hmem : e ∈ m.queue.tins .structural := by simp [hes]
  have hqueued := hinv.queued .structural e hmem
  obtain ⟨d, hplace, hat, hd⟩ := hinv.placed hqueued
  have hfile : m.worker.target.NotDir (place dirs e) :=
    (hinv.known.same _).trans (hinv.places e hmem).1
  have hex : (m.envAt env).config.isPathExcluded (d ++ [e.name]) = false := by
    rw [← hplace]
    exact hqueued.not_excluded hvis
  obtain ⟨htouches, harrives⟩ := process_create htype hat hex hinv.known.closed hd (hplace ▸ hfile)
  rw [← hplace] at htouches harrives
  have htouch := touch_create htype hvis
  obtain ⟨hclosed, hsame⟩ := htouches.closed hinv.known.closed (by rintro q rfl; exact hfile) (by
    intro a c hac
    rw [Set.mem_singleton_iff, hplace] at hac
    obtain ⟨rfl, -⟩ := List.append_inj' hac rfl
    exact hd)
  refine ⟨hclosed, hsame, htouches.dirMap, fun n _ hn => ?_, fun n _ hn hlast _ => ?_,
    fun n hn => ?_⟩
  · rw [htouch] at hn
    exact htouches.frame n fun heq => by simp [Set.mem_singleton_iff.mp heq] at hn
  · have heq : n = place dirs e := by
      by_contra hne
      rw [htouch, if_neg hne] at hn
      cases hn
    subst heq
    -- nothing else touches the name, so the file is still where it was created
    rcases hinv.settled [] e rest hes htype hvis with hlater | ⟨hnode, hothers⟩
    · exact absurd hlast hlater
    · have hthere : m.source.pathExists (place dirs e) = true := by simp [Fs.pathExists, hnode]
      refine harrives ?_ hthere
      by_contra hpend
      obtain ⟨r, hr, hren, hi⟩ := hin.create htype hthere (Nat.pos_of_ne_zero hpend)
      exact hothers r hr hren hi
  · rw [htouch] at hn
    split_ifs at hn
    cases hn

/-- Where a tidy source has no directory, what is found is a regular file. -/
theorem Tidy.regularAt_ne_none {p : Path} (h : Tidy dirs m) (hp : m.source.NotDir p)
    (hthere : m.source.pathExists p = true) : m.source.regularAt p ≠ none := by
  rcases h.closed.node_cases hp with hnone | ⟨i, hi⟩
  · simp [Fs.pathExists, hnone] at hthere
  · obtain ⟨c, hc⟩ := h.regular _ i hi
    simp [Fs.regularAt, hi, hc]

/-- Being there is having a node. -/
theorem Tidy.pathExists_of_node {p : Path} (h : Tidy dirs m) (hp : m.source.NotDir p)
    (hnode : m.source.node p ≠ none) : m.source.pathExists p = true := by
  rcases h.closed.node_cases hp with hnone | ⟨i, hi⟩
  · exact absurd hnone hnode
  · simp [Fs.pathExists, hi]

theorem Invariant.carried_rename {rest : List Event} (hinv : Invariant env dirs m)
    (hes : m.queue.tins .structural = e :: rest) (htype : e.eventType = .rename)
    (hvis : visible env (place dirs e) = true) (hin : InStep dirs m e rest) :
    Carried env dirs m e rest
      (processSingleEvent (m.envAt env) none e m.worker).2 := by
  have hmem : e ∈ m.queue.tins .structural := by simp [hes]
  have hqueued := hinv.queued .structural e hmem
  obtain ⟨d, hplace, hat, hd⟩ := hinv.placed hqueued
  obtain ⟨⟨newName, hname, hvalid⟩, hne, hpar', hmode⟩ := hqueued.renamed htype
  obtain ⟨d', hd'⟩ := Option.ne_none_iff_exists'.mp hpar'
  have hplace' : newPlace dirs e = d' ++ [newName] := newPlace_eq hd' hname
  have hdir' : m.worker.target.isDir d' = true :=
    (hinv.known.same d').trans (hinv.tidy.dirs _ d' hd').1
  have hfile : m.worker.target.NotDir (place dirs e) :=
    (hinv.known.same _).trans (hinv.places e hmem).1
  have hfile' : m.worker.target.NotDir (newPlace dirs e) :=
    (hinv.known.same _).trans ((hinv.places e hmem).2 htype)
  have hex : (m.envAt env).config.isPathExcluded (d ++ [e.name]) = false := by
    rw [← hplace]
    exact hqueued.not_excluded hvis
  have hreg : m.source.pathExists (d' ++ [newName]) = true →
      m.source.regularAt (d' ++ [newName]) ≠ none :=
    hinv.tidy.regularAt_ne_none (hplace' ▸ (hinv.places e hmem).2 htype)
  have hrename := process_rename htype hat hex hname hne (hinv.known.dirMap _ d' hd') hvalid
    hinv.known.closed hdir' (hplace ▸ hfile) (hplace' ▸ hfile') hmode hreg
    (fun h => hplace ▸ hplace' ▸ hin.exchange htype h)
  rw [← hplace, ← hplace'] at hrename
  obtain ⟨htouches, harrives, hleaves, hstays⟩ := hrename
  have htouch := touch_rename htype hvis
  obtain ⟨hclosed, hsame⟩ := htouches.closed hinv.known.closed
    (by rintro q (rfl | rfl) <;> assumption) (by
    rintro a c (hac | hac)
    · rw [hplace] at hac
      obtain ⟨rfl, -⟩ := List.append_inj' hac rfl
      exact hd
    · rw [Set.mem_singleton_iff, hplace'] at hac
      obtain ⟨rfl, -⟩ := List.append_inj' hac rfl
      exact hdir')
  refine ⟨hclosed, hsame, htouches.dirMap, fun n _ hn => ?_, fun n _ hn _ hnode => ?_,
    fun n hn hnode => ?_⟩
  · rw [htouch] at hn
    split_ifs at hn with hnew hold
    exact htouches.frame n (by simp [hnew, hold])
  · rw [htouch] at hn
    split_ifs at hn with hnew hold
    · subst hnew
      exact harrives (hinv.tidy.pathExists_of_node ((hinv.places e hmem).2 htype) hnode)
    · subst hold
      exact hstays (of_decide_eq_true (Option.some.inj hn))
        (hinv.tidy.pathExists_of_node (hinv.places e hmem).1 hnode)
  · rw [htouch] at hn
    split_ifs at hn with hnew hold
    · cases hn
    · subst hold
      have hgone : m.source.pathExists (place dirs e) = false := by simp [Fs.pathExists, hnode]
      exact hleaves hgone

theorem Settled.suffix {es es' : List Event} {s : Fs} (h : Settled env dirs es s)
    (hsuf : es' <:+ es) : Settled env dirs es' s := by
  obtain ⟨pre, rfl⟩ := hsuf
  intro before c after hes hc hvis
  exact h (pre ++ before) c after (by rw [hes, List.append_assoc]) hc hvis

/-- The worker has taken an event from one of its tins. -/
theorem Invariant.of_work {m' : Mirror} {tin : EventTin} {rest : List Event}
    (hinv : Invariant env dirs m) (hes : m.queue.tins tin = e :: rest)
    (hsource : m'.source = m.source)
    (htins : m'.queue.tins = Function.update m.queue.tins tin rest)
    (hclosed : m'.worker.target.Closed)
    (hsame : ∀ p, m'.worker.target.isDir p = m.worker.target.isDir p)
    (hdirMap : m'.worker.dirMap = m.worker.dirMap)
    (hpromised : ∀ n, visible env n = true →
      Promised env dirs n (m'.queue.tins .structural) m') : Invariant env dirs m' := by
  have hsuf : ∀ t, m'.queue.tins t <:+ m.queue.tins t := by
    intro t
    by_cases ht : t = tin
    · subst ht
      rw [htins, Function.update_self, hes]
      exact List.suffix_cons e rest
    · rw [htins, Function.update_of_ne ht]
  have hmem : ∀ t x, x ∈ m'.queue.tins t → x ∈ m.queue.tins t :=
    fun t x hx => (hsuf t).subset hx
  have hnil : ∀ t, m.queue.tins t = [] → m'.queue.tins t = [] := by
    intro t ht
    exact List.suffix_nil.mp (ht ▸ hsuf t)
  have htidy := hinv.tidy
  refine ⟨?_, ⟨hclosed, fun p => ?_, fun i d hd => ?_⟩, fun t x hx => hinv.queued t x (hmem t x hx),
    fun x hx => hinv.structural x (hmem _ x hx), fun x hx => hinv.bulk x (hmem _ x hx),
    ⟨hnil _ hinv.others.1, hnil _ hinv.others.2⟩, fun x hx => ?_, hpromised, ?_⟩
  · exact ⟨hsource ▸ htidy.closed, hsource ▸ htidy.regular, hsource ▸ htidy.unique,
      hsource ▸ htidy.dirs⟩
  · rw [hsame, hsource]
    exact hinv.known.same p
  · rw [hdirMap]
    exact hinv.known.dirMap i d hd
  · rw [hsource]
    exact hinv.places x (hmem _ x hx)
  · rw [hsource]
    exact hinv.settled.suffix (hsuf _)

/-- A name that was promised is delivered by the event that it was waiting for. -/
theorem Promised.carried {m' : Mirror} {rest : List Event} {n : Path}
    (hc : Carried env dirs m e rest m'.worker) (hsource : m'.source = m.source)
    (hn : visible env n = true) (hp : Promised env dirs n (e :: rest) m) :
    Promised env dirs n rest m' := by
  unfold Promised at hp ⊢
  rw [hsource]
  rw [lastTouch] at hp
  cases hlast : lastTouch env dirs n rest with
  | some b =>
    rw [hlast, Option.some_or] at hp
    cases b with
    | true => exact hp
    | false => exact hp
  | none =>
    rw [hlast, Option.none_or] at hp
    show m'.worker.target.node n ≠ none ↔ m.source.node n ≠ none
    cases htouch : touch env dirs e n with
    | none =>
      rw [htouch] at hp
      rw [hc.keeps n hn htouch]
      exact hp
    | some b =>
      rw [htouch] at hp
      cases b with
      | true => exact ⟨fun _ => hp, fun _ => hc.puts n hn htouch hlast hp⟩
      | false => exact ⟨fun h => absurd (hc.takes n htouch hp) h, fun h => absurd hp h⟩

theorem process_tins (m : Mirror) (e : Event) : (m.process env e).queue.tins = m.queue.tins := by
  unfold process
  dsimp only
  split_ifs <;> rfl

theorem Invariant.carried {rest : List Event} (hinv : Invariant env dirs m)
    (hes : m.queue.tins .structural = e :: rest)
    (hin : visible env (place dirs e) = true → InStep dirs m e rest) :
    Carried env dirs m e rest (processSingleEvent (m.envAt env) none e m.worker).2 := by
  have hmem : e ∈ m.queue.tins .structural := by simp [hes]
  have hqueued := hinv.queued .structural e hmem
  by_cases hvis : visible env (place dirs e) = true
  · rcases hinv.structural e hmem with htype | htype
    · exact hinv.carried_create hes htype hvis (hin hvis)
    · exact hinv.carried_rename hes htype hvis (hin hvis)
  · have hhid : visible env (place dirs e) = false := by simpa using hvis
    obtain ⟨d, hplace, hat, -⟩ := hinv.placed hqueued
    have hex : (m.envAt env).config.isPathExcluded (d ++ [e.name]) = true := by
      rw [← hplace]
      exact hqueued.excluded hhid
    obtain ⟨v, hrun, hdir, htarget⟩ := process_excluded none hat hex
    rw [hrun]
    exact carried_of_same hinv.known.closed (touch_hidden env hhid) hdir (congrArg Fs.node htarget)

theorem Invariant.work {tin : EventTin} (hinv : Invariant env dirs m)
    (hin : ∀ e rest, m.queue.tins tin = e :: rest → visible env (place dirs e) = true →
      InStep dirs m e rest) : Invariant env dirs (m.work env tin) := by
  unfold Mirror.work
  cases hes : m.queue.tins tin with
  | nil => exact hinv
  | cons e rest =>
    set m₁ : Mirror :=
      { m with queue := { m.queue with tins := Function.update m.queue.tins tin rest } } with hm₁
    have hmem : e ∈ m.queue.tins tin := by simp [hes]
    have htins : (m₁.process env e).queue.tins = Function.update m.queue.tins tin rest :=
      process_tins m₁ e
    cases tin with
    | control => simp [hinv.others.1] at hes
    | metadata => simp [hinv.others.2] at hes
    | structural =>
      have hc : Carried env dirs m e rest (m₁.process env e).worker :=
        hinv.carried hes (hin e rest hes)
      refine hinv.of_work hes rfl htins hc.closed hc.same hc.dirMap fun n hn => ?_
      rw [htins, Function.update_self]
      exact (hes ▸ hinv.promised n hn).carried hc rfl hn
    | bulk =>
      have hqueued := hinv.queued .bulk e hmem
      obtain ⟨d, -, hat, -⟩ := hinv.placed hqueued
      obtain ⟨hdir, hnode⟩ := process_write (m.envAt env) (hinv.bulk e hmem) hat
      have htouch : ∀ n, touch env dirs e n = none := by
        intro n
        rcases hinv.bulk e hmem with h | h <;> simp [touch, h]
      have hc : Carried env dirs m e (m.queue.tins .structural) (m₁.process env e).worker :=
        carried_of_same hinv.known.closed htouch hdir hnode
      refine hinv.of_work hes rfl htins hc.closed hc.same hc.dirMap fun n hn => ?_
      rw [htins, Function.update_of_ne (by decide)]
      refine Promised.carried hc rfl hn ?_
      have hp := hinv.promised n hn
      unfold Promised at hp ⊢
      rw [lastTouch, htouch, Option.or_none]
      exact hp

theorem Invariant.step {a : Action} (hinv : Invariant env dirs m) (hp : Possible dirs m a)
    (ha : Aligned env dirs m a) : Invariant env dirs (step env dirs m a) := by
  cases a with
  | change e content => exact hinv.change hp ha
  | work tin => exact hinv.work ha

end Work

/-! ## Histories -/

section Histories
variable {env dirs} {m : Mirror}

theorem Synchronized.invariant (h : Synchronized env dirs m) : Invariant env dirs m where
  tidy := h.tidy
  known := h.known
  queued tin e he := by simp [h.idle] at he
  structural e he := by simp [h.idle] at he
  bulk e he := by simp [h.idle] at he
  others := ⟨h.idle _, h.idle _⟩
  places e he := by simp [h.idle] at he
  promised n hn := by
    rw [h.idle]
    exact h.mirrored n hn
  settled before c after hes := by simp [h.idle] at hes

/-- A directory "d", inode 3, in the source directory, inode 2. -/
def sampleDirs : U64 → Option Path := fun i =>
  if i = 2 then some [] else if i = 3 then some ["d"] else none

def sampleTree : Fs := (Fs.root ⟨493, 0, 0⟩).setNode ["d"] (some (.dir ⟨493, 0, 0⟩))

/-- Both sides have nothing but the directory, which the worker knows. -/
def sample : Mirror := ⟨sampleTree, ⟨sampleTree, fun _ => none, sampleDirs⟩, .empty⟩

def creation (inode parent : U64) (name : String) : Action :=
  .change { Event.zero with
    eventType := .create
    inode := inode
    parentInode := parent
    name := name } .empty

/-- A rename within the source directory. -/
def renamed (inode : U64) (name newName : String) (flags : U32) : Action :=
  .change { Event.zero with
    eventType := .rename
    inode := inode
    parentInode := 2
    newParentInode := 2
    name := name
    newName := some newName
    flags := flags } .empty

/-- A file that is renamed before and after the worker's turn. -/
def plainRun : List Action :=
  [creation 7 2 "a", renamed 7 "a" "b" 0, .work .structural, .work .structural,
    renamed 7 "b" "c" 0, .work .structural]

end Histories

end Mirror

end Foxing
