import Foxing.FilterBoundary
import Foxing.Lib.LateReplay

/-!
# Contents of files catch up

A change of the contents of a file sends an event that names a range or a length; the bytes are
read when the worker gets to it, from the source as it is by then. What a waiting event will
bring is therefore not what it was sent for, and still the contents are the same on both sides
whenever no event of the file is waiting. The files stay where they are, no event is refused by a
full tin or taken out by a filter, and the calls of the worker succeed.
-/
namespace Foxing

/-! ## Ranges read late -/

namespace File
variable {c c' f f' : File} {k : ℕ}

/-- Nothing is behind the end. -/
def Clean (f : File) : Prop := ∀ k, f.length ≤ k → f.bytes k = 0

end File

namespace Event

/-- Changes of the contents, as far as they are replicated. -/
def isData (e : Event) : Prop := e.eventType ∈ [.write, .writeRange, .clone, .truncate]

instance (e : Event) : Decidable e.isData := inferInstanceAs (Decidable (_ ∈ _))

theorem isData_cases {e : Event} (h : e.isData) :
    (e.eventType = .write ∨ e.eventType = .writeRange ∨ e.eventType = .clone) ∨
      e.eventType = .truncate := by
  unfold isData at h
  simp only [List.mem_cons, List.not_mem_nil, or_false] at h
  tauto

/-- What the worker makes of a file of the target when the source has the content `c`. -/
def applyData (c : File) (e : Event) (f : File) : File :=
  match e.eventType with
  | .write | .writeRange | .clone =>
    f.copyRange c.bytes e.offset.val (min (e.offset.val + e.length.val) c.length)
  | .truncate => f.setLength e.length.val
  | _ => f

/-- What an event says of a change: bytes have been written to its range, perhaps beyond the end,
or the length has been set. -/
structure Describes (e : Event) (c c' : File) : Prop where
  written : e.eventType ≠ .truncate →
    (∀ k, k < e.offset.val ∨ e.offset.val + e.length.val ≤ k → c'.bytes k = c.bytes k) ∧
      (c'.length = c.length ∨ c.length < c'.length ∧ e.offset.val < c'.length ∧
        c'.length ≤ e.offset.val + e.length.val)
  cut : e.eventType = .truncate → c' = c.setLength e.length.val
  clean : c'.Clean

variable {e : Event} {c c' f f' : File} {k : ℕ} {es : List Event}

theorem applyData_write
    (ht : e.eventType = .write ∨ e.eventType = .writeRange ∨ e.eventType = .clone) (c f : File) :
    applyData c e f =
      f.copyRange c.bytes e.offset.val (min (e.offset.val + e.length.val) c.length) := by
  rcases ht with ht | ht | ht <;> rw [applyData, ht]

theorem applyData_truncate (ht : e.eventType = .truncate) (c f : File) :
    applyData c e f = f.setLength e.length.val := by
  rw [applyData, ht]

theorem applyData_other (he : ¬ e.isData) (c f : File) : applyData c e f = f := by
  unfold applyData
  split <;> first | rfl | exact absurd (by simp [isData, *]) he

/-- A byte of the replica is what it would have been with the source as it was, or has been read
from the later source. -/
theorem applyData_bytes (hreach : k < c.length → k < c'.length)
    (h : f'.bytes k = f.bytes k ∨ f'.bytes k = c'.bytes k) :
    (applyData c' e f').bytes k = (applyData c e f).bytes k ∨
      (applyData c' e f').bytes k = c'.bytes k := by
  by_cases he : e.isData
  swap
  · rw [applyData_other he, applyData_other he]
    exact h
  rcases isData_cases he with ht | ht
  · rw [applyData_write ht, applyData_write ht]
    simp only [File.copyRange]
    by_cases hin : e.offset.val ≤ k ∧ k < min (e.offset.val + e.length.val) c'.length
    · rw [if_pos hin]
      exact .inr rfl
    · have hin' : ¬ (e.offset.val ≤ k ∧ k < min (e.offset.val + e.length.val) c.length) := by
        intro hk
        exact hin ⟨hk.1, lt_min (lt_of_lt_of_le hk.2 (min_le_left _ _))
          (hreach (lt_of_lt_of_le hk.2 (min_le_right _ _)))⟩
      rw [if_neg hin, if_neg hin']
      exact h
  · rw [applyData_truncate ht, applyData_truncate ht]
    simp only [File.setLength]
    by_cases hk : k < e.length.val
    · rw [if_pos hk, if_pos hk]
      exact h
    · rw [if_neg hk, if_neg hk]
      exact .inl rfl

/-- With a longer source the replica is as long as before, or longer and within the source. -/
theorem applyData_length (hle : c.length ≤ c'.length)
    (h : f'.length = f.length ∨ f.length ≤ f'.length ∧ f'.length ≤ c'.length) :
    (applyData c' e f').length = (applyData c e f).length ∨
      (applyData c e f).length ≤ (applyData c' e f').length ∧
        (applyData c' e f').length ≤ c'.length := by
  by_cases he : e.isData
  swap
  · rw [applyData_other he, applyData_other he]
    exact h
  rcases isData_cases he with ht | ht
  · rw [applyData_write ht, applyData_write ht]
    simp only [File.copyRange]
    have hmin : min (e.offset.val + e.length.val) c.length ≤
        min (e.offset.val + e.length.val) c'.length := min_le_min_left _ hle
    have hmin' : min (e.offset.val + e.length.val) c'.length ≤ c'.length := min_le_right _ _
    split_ifs <;> omega
  · rw [applyData_truncate ht, applyData_truncate ht]
    exact .inl rfl

theorem cell_bytes (hreach : k < c.length → k < c'.length)
    (h : f'.bytes k = f.bytes k ∨ f'.bytes k = c'.bytes k) :
    (KeyedReplay.cell (applyData c') f' es).bytes k =
        (KeyedReplay.cell (applyData c) f es).bytes k ∨
      (KeyedReplay.cell (applyData c') f' es).bytes k = c'.bytes k := by
  induction es generalizing f f' with
  | nil => exact h
  | cons e es ih =>
    exact ih (applyData_bytes hreach h)

theorem cell_length (hle : c.length ≤ c'.length)
    (h : f'.length = f.length ∨ f.length ≤ f'.length ∧ f'.length ≤ c'.length) :
    (KeyedReplay.cell (applyData c') f' es).length =
        (KeyedReplay.cell (applyData c) f es).length ∨
      (KeyedReplay.cell (applyData c) f es).length ≤
          (KeyedReplay.cell (applyData c') f' es).length ∧
        (KeyedReplay.cell (applyData c') f' es).length ≤ c'.length := by
  induction es generalizing f f' with
  | nil => exact h
  | cons e es ih =>
    exact ih (applyData_length hle h)

/-- A byte that is to stay as it was is in line before the event of the change. -/
theorem cell_bytes_eq (hline : KeyedReplay.cell (applyData c) f es = c)
    (hreach : k < c.length → k < c'.length) (hsame : c'.bytes k = c.bytes k) :
    (KeyedReplay.cell (applyData c') f es).bytes k = c'.bytes k := by
  rcases cell_bytes hreach (.inl (Eq.refl (f.bytes k))) with hk | hk
  · rw [hk, hline, hsame]
  · exact hk

theorem Describes.written_makes_up (h : e.Describes c c')
    (ht : e.eventType = .write ∨ e.eventType = .writeRange ∨ e.eventType = .clone) (hc : c.Clean)
    (hline : KeyedReplay.cell (applyData c) f es = c) :
    applyData c' e (KeyedReplay.cell (applyData c') f es) = c' := by
  have hcut : e.eventType ≠ .truncate := by rcases ht with ht | ht | ht <;> simp [ht]
  obtain ⟨houtside, hgrows⟩ := h.written hcut
  have hle : c.length ≤ c'.length := by omega
  have hlength : (KeyedReplay.cell (applyData c') f es).length = c.length ∨
      c.length ≤ (KeyedReplay.cell (applyData c') f es).length ∧
        (KeyedReplay.cell (applyData c') f es).length ≤ c'.length := by
    have hcell : (KeyedReplay.cell (applyData c') f es).length =
          (KeyedReplay.cell (applyData c) f es).length ∨
        (KeyedReplay.cell (applyData c) f es).length ≤
            (KeyedReplay.cell (applyData c') f es).length ∧
          (KeyedReplay.cell (applyData c') f es).length ≤ c'.length :=
      cell_length hle (.inl rfl)
    rwa [hline] at hcell
  rw [applyData_write ht]
  refine File.ext ?_ (funext fun k => ?_)
  · simp only [File.copyRange]
    split_ifs <;> omega
  · simp only [File.copyRange]
    by_cases hin : e.offset.val ≤ k ∧ k < min (e.offset.val + e.length.val) c'.length
    · rw [if_pos hin]
    · rw [if_neg hin]
      refine cell_bytes_eq hline (fun hk => lt_of_lt_of_le hk hle) ?_
      by_cases hrange : k < e.offset.val ∨ e.offset.val + e.length.val ≤ k
      · exact houtside k hrange
      · have hend : c'.length ≤ k := by
          by_contra hlt
          rw [not_or, not_lt, not_le] at hrange
          exact hin ⟨hrange.1, lt_min hrange.2 (not_le.mp hlt)⟩
        rw [h.clean k hend, hc k (hle.trans hend)]

theorem Describes.cut_makes_up (h : e.Describes c c') (ht : e.eventType = .truncate)
    (hline : KeyedReplay.cell (applyData c) f es = c) :
    applyData c' e (KeyedReplay.cell (applyData c') f es) = c' := by
  have hc' := h.cut ht
  rw [applyData_truncate ht]
  refine File.ext ?_ (funext fun k => ?_)
  · rw [hc']
    rfl
  · by_cases hk : k < e.length.val
    · have hlength : c'.length = e.length.val := by rw [hc']; rfl
      have hsame : c'.bytes k = c.bytes k := by
        rw [hc']
        exact if_pos hk
      exact (if_pos hk).trans (cell_bytes_eq hline (fun _ => hlength ▸ hk) hsame)
    · have hzero : c'.bytes k = 0 := by
        rw [hc']
        exact if_neg hk
      exact (if_neg hk).trans hzero.symm

/-- The event of a change makes up for it, although the events in front of it read the source
when it has been changed already. -/
theorem Describes.makes_up (h : e.Describes c c') (he : e.isData) (hc : c.Clean)
    (hline : KeyedReplay.cell (applyData c) f es = c) :
    KeyedReplay.cell (applyData c') f (es ++ [e]) = c' := by
  have hlast : KeyedReplay.cell (applyData c') f (es ++ [e]) =
      applyData c' e (KeyedReplay.cell (applyData c') f es) := by
    rw [KeyedReplay.cell_append]
    rfl
  rw [hlast]
  rcases isData_cases he with ht | ht
  · exact h.written_makes_up ht hc hline
  · exact h.cut_makes_up ht hline

end Event

/-! ## One file among others -/

namespace Fs
variable {t : Fs} {f g : File → File} {p : Path}

/-- No file has two names. -/
def SingleNames (t : Fs) : Prop :=
  ∀ p q i, t.node p = some (.file i) → t.node q = some (.file i) → p = q

theorem regularAt_alterContent (h : t.SingleNames) (f : File → File) (p : Path) :
    (t.alterContent f p).2.regularAt = Function.update t.regularAt p ((t.regularAt p).map f) := by
  funext q
  have hkeep : (t.alterContent f p).2 = t → t.regularAt p = none →
      (t.alterContent f p).2.regularAt q =
        Function.update t.regularAt p ((t.regularAt p).map f) q := by
    intro hsame hnone
    rw [hsame, hnone, Option.map_none, ← hnone, Function.update_eq_self]
  cases hp : t.node p with
  | none => exact hkeep (by simp [alterContent, hp]) (by simp [regularAt, hp])
  | some n =>
    cases n with
    | dir m | symlink d m => exact hkeep (by simp [alterContent, hp]) (by simp [regularAt, hp])
    | file i =>
      cases hk : (t.data i).kind with
      | special m d => exact hkeep (by simp [alterContent, hp, hk]) (by simp [regularAt, hp, hk])
      | regular c =>
        by_cases hq : q = p
        · subst hq
          simp [alterContent, regularAt, hp, hk]
        · rw [Function.update_of_ne hq]
          cases hn : t.node q with
          | none => simp [alterContent, regularAt, hp, hk, hn]
          | some n' =>
            cases n' with
            | dir m | symlink d m => simp [alterContent, regularAt, hp, hk, hn]
            | file j =>
              have hji : j ≠ i := by
                rintro rfl
                exact hq (h q p j hn hp)
              simp [alterContent, regularAt, hp, hk, hn, hji]

theorem SingleNames.of_node {t' : Fs} (h : t.SingleNames) (hnode : t'.node = t.node) :
    t'.SingleNames := by
  intro p q i
  rw [hnode]
  exact h p q i

theorem pathExists_of_regularAt {c : File} (h : t.regularAt p = some c) :
    t.pathExists p = true := by
  unfold regularAt at h
  unfold pathExists
  split at h
  next i hi => rw [hi]
  next => cases h

end Fs

section Attempt
variable {env : Env} {e : Event} {w : World} {d : Path} {c f : File}

/-- What an arm for contents does to a file that is there on both sides. -/
theorem perform_data {p : Path} (he : e.isData) (hsource : env.source.regularAt p = some c)
    (htarget : w.target.regularAt p = some f) (hnames : w.target.SingleNames) :
    (perform env none e p w).2.dirMap = w.dirMap ∧
      (perform env none e p w).2.target.node = w.target.node ∧
      (perform env none e p w).2.target.regularAt =
        Function.update w.target.regularAt p (some (e.applyData c f)) := by
  have harm : (perform env none e p w).2.target =
        (w.target.alterContent (e.applyData c) p).2 ∧
      (perform env none e p w).2.dirMap = w.dirMap := by
    rcases Event.isData_cases he with ht | ht
    · have hcopy : perform env none e p w =
          (some <$> Arm.copyRange env none e p : StateM World _) w := by
        rcases ht with ht | ht | ht <;> rw [perform, ht]
      have hrun : (Arm.copyRange env none e p w).2 =
          { w with
            target := (w.target.copyRange c e.offset.val e.length.val p).2 } := by
        unfold Arm.copyRange
        rw [if_pos (Fs.pathExists_of_regularAt hsource)]
        simp only [StateM.run_bind, hsource, Option.getD_some, onTarget]
        cases (w.target.copyRange c e.offset.val e.length.val p).1 with
        | ok x => rfl
        | error x => rfl
      have happly : e.applyData c = File.copyRange c.bytes e.offset.val
          (min (e.offset.val + e.length.val) c.length) :=
        funext fun f => Event.applyData_write ht c f
      rw [hcopy, StateM.run_map, hrun, happly]
      exact ⟨rfl, rfl⟩
    · have happly : e.applyData c = File.setLength e.length.val :=
        funext fun f => Event.applyData_truncate ht c f
      rw [perform, ht, happly]
      exact ⟨rfl, rfl⟩
  refine ⟨harm.2, ?_, ?_⟩
  · rw [harm.1, Fs.alterContent_node]
  · rw [harm.1, Fs.regularAt_alterContent hnames, htarget]
    rfl

/-- An attempt at an event of a file that is there on both sides. -/
theorem process_data (he : e.isData) (hat : Placed e d w)
    (hex : env.config.isPathExcluded (d ++ [e.name]) = false)
    (hsource : env.source.regularAt (d ++ [e.name]) = some c)
    (htarget : w.target.regularAt (d ++ [e.name]) = some f) (hnames : w.target.SingleNames) :
    (processSingleEvent env none e w).2.dirMap = w.dirMap ∧
      (processSingleEvent env none e w).2.target.node = w.target.node ∧
      (processSingleEvent env none e w).2.target.regularAt =
        Function.update w.target.regularAt (d ++ [e.name]) (some (e.applyData c f)) := by
  obtain ⟨v, hrun, hdir, hsame⟩ := process_of_placed env none hat
  have hat' : processAt env none e (d ++ [e.name]) v = perform env none e (d ++ [e.name]) v := by
    have hthere : v.target.pathExists (d ++ [e.name]) = true := by
      rw [hsame]
      exact Fs.pathExists_of_regularAt htarget
    unfold processAt
    rw [if_neg (by simp [hex])]
    by_cases hgate : (env.hydrating e.inode && e.eventType.isGated) = true
    · rw [if_pos hgate]
      simp only [StateM.run_ite_peek, hthere, if_true]
    · rw [if_neg hgate]
  rw [hrun, hat', ← hdir, ← hsame]
  rw [← hsame] at htarget hnames
  exact perform_data he hsource htarget hnames

end Attempt

/-! ## The mirror with changes of contents -/

namespace Mirror
variable (env : Env) (dirs : U64 → Option Path)

/-- The contents of a file change and an event is sent, or the worker has its turn. -/
def dataStep (m : Mirror) : Action → Mirror
  | .change e content =>
    { m with
      source := (m.source.alterContent (fun _ => content) (place dirs e)).2
      queue := (m.queue.push e).2 }
  | .work tin => m.work env tin

/-- An event for the contents of a file that neither filter takes out. -/
structure DataEvent (s : Fs) (e : Event) : Prop where
  data : e.isData
  parent : e.parentInode ≠ 0 ∧ dirs e.parentInode ≠ none
  name : ValidName e.name
  single : e.newName = none
  visible : visible env (place dirs e) = true
  there : ∃ c, s.regularAt (place dirs e) = some c

/-- There is room for the event of a change, and it says what the change was. -/
def Sends (m : Mirror) : Action → Prop
  | .change e content =>
    DataEvent env dirs m.source e ∧ m.queue.isFull .bulk = false ∧
      ∀ c ∈ m.source.regularAt (place dirs e), e.Describes c content
  | .work _ => True

/-- What changes of contents leave as it is: the visible files are on both sides, each under one
name, and only events for their contents are waiting. -/
structure Steady (m : Mirror) : Prop where
  source : m.source.SingleNames
  target : m.worker.target.SingleNames
  dirMap : ∀ i d, dirs i = some d →
    m.worker.dirMap i = some d ∧ validateTargetRootContainment d = true
  clean : ∀ p c, m.source.regularAt p = some c → c.Clean
  both : ∀ p c, visible env p = true → m.source.regularAt p = some c →
    ∃ f, m.worker.target.regularAt p = some f
  queued : ∀ e ∈ m.queue.tins .bulk, DataEvent env dirs m.source e
  others : ∀ tin, tin ≠ .bulk → m.queue.tins tin = []

/-- The visible files of the source. -/
def tracked (m : Mirror) (p : Path) : Prop :=
  visible env p = true ∧ (m.source.regularAt p).isSome = true

instance (m : Mirror) (p : Path) : Decidable (m.tracked env p) :=
  inferInstanceAs (Decidable (_ ∧ _))

/-- Events change the files at their places. -/
def replication : LateReplay.Replication Path (Option File) (Option File) Event where
  key := place dirs
  apply c e f := c.elim f fun c => f.map (e.applyData c)
  view := id

@[simp] theorem replication_key (e : Event) : (replication dirs).key e = place dirs e := rfl

/-- The visible files of both sides and the events for them. -/
def replicas (m : Mirror) : LateReplay.State Path (Option File) (Option File) Event where
  source p := if m.tracked env p then m.source.regularAt p else none
  queue := m.queue.tins .bulk
  replica p := if m.tracked env p then m.worker.target.regularAt p else none

section Step
variable {env dirs} {m : Mirror} {e : Event} {content : File}

theorem cell_some (c f : File) (es : List Event) :
    KeyedReplay.cell ((replication dirs).apply (some c)) (some f) es =
      some (KeyedReplay.cell (Event.applyData c) f es) := by
  induction es generalizing f with
  | nil => rfl
  | cons e es ih => exact ih (e.applyData c f)

theorem cell_none (c : File) (es : List Event) :
    KeyedReplay.cell ((replication dirs).apply (some c)) none es = none := by
  induction es with
  | nil => rfl
  | cons e es ih => exact ih

theorem announces {c : File} (he : e.isData) (h : e.Describes c content) (hc : c.Clean) :
    LateReplay.Announces (replication dirs) e (some c) (some content) := by
  intro t es _ hline
  cases t with
  | none =>
    rw [cell_none] at hline
    cases hline
  | some f =>
    rw [cell_some] at hline ⊢
    have hsame : KeyedReplay.cell (Event.applyData c) f es = c := Option.some.inj hline
    rw [h.makes_up he hc hsame]
    rfl

theorem DataEvent.external (h : DataEvent env dirs m.source e) : e.isInternalTraffic = false := by
  have hvisible := h.visible
  rw [Mirror.visible, Bool.and_eq_true] at hvisible
  simpa [Event.isInternalTraffic, h.single, place, placeIn] using hvisible.1

theorem DataEvent.not_excluded (h : DataEvent env dirs m.source e) :
    env.config.isPathExcluded (place dirs e) = false := by
  have hvisible := h.visible
  rw [Mirror.visible, Bool.and_eq_true] at hvisible
  simpa using hvisible.2

theorem DataEvent.tin (h : DataEvent env dirs m.source e) : e.eventType.tin = .bulk := by
  rcases Event.isData_cases h.data with (ht | ht | ht) | ht <;> rw [ht] <;> rfl

theorem DataEvent.of_some {s s' : Fs} (h : DataEvent env dirs s e)
    (hs : ∀ p c, s.regularAt p = some c → ∃ c', s'.regularAt p = some c') :
    DataEvent env dirs s' e := by
  obtain ⟨c, hc⟩ := h.there
  exact ⟨h.data, h.parent, h.name, h.single, h.visible, hs _ c hc⟩

theorem push_bulk (h : DataEvent env dirs m.source e) (hroom : m.queue.isFull .bulk = false)
    (tin : EventTin) : (m.queue.push e).2.tins tin =
      if tin = .bulk then m.queue.tins .bulk ++ [e] else m.queue.tins tin := by
  have hroom' : (m.queue.register e).isFull .bulk = false := by
    rw [← hroom, EventQueue.isFull, EventQueue.isFull, register_tins]
  rw [EventQueue.push, h.external, h.tin, hroom']
  by_cases htin : tin = .bulk
  · subst htin
    simp [EventQueue.append, register_tins, h.tin]
  · simp [EventQueue.append, register_tins, h.tin, htin]

/-- A change of the source is one of the visible files. -/
theorem change_source (hs : m.source.SingleNames) {c : File}
    (hc : m.source.regularAt (place dirs e) = some c) :
    (dataStep env dirs m (.change e content)).source.regularAt =
      Function.update m.source.regularAt (place dirs e) (some content) := by
  have hrun := Fs.regularAt_alterContent hs (fun _ => content) (place dirs e)
  rwa [hc] at hrun

theorem tracked_congr {m' : Mirror} (hsource : ∀ p, (m'.source.regularAt p).isSome =
    (m.source.regularAt p).isSome) (p : Path) : m'.tracked env p ↔ m.tracked env p := by
  rw [tracked, tracked, hsource]

theorem replicas_change (hs : m.source.SingleNames) (he : DataEvent env dirs m.source e)
    (hroom : m.queue.isFull .bulk = false) :
    (dataStep env dirs m (.change e content)).replicas env =
      LateReplay.step (replication dirs) (m.replicas env) (.change e (some content)) := by
  obtain ⟨c, hc⟩ := he.there
  have hsource : (dataStep env dirs m (.change e content)).source.regularAt =
      Function.update m.source.regularAt (place dirs e) (some content) := change_source hs hc
  have hsome : ∀ p, ((dataStep env dirs m (.change e content)).source.regularAt p).isSome =
      (m.source.regularAt p).isSome := by
    intro p
    rw [hsource]
    by_cases hp : p = place dirs e
    · subst hp
      rw [Function.update_self, hc]
      rfl
    · rw [Function.update_of_ne hp]
  have htracked : ∀ p, (dataStep env dirs m (.change e content)).tracked env p ↔
      m.tracked env p := tracked_congr hsome
  have hthere : m.tracked env (place dirs e) := ⟨he.visible, by rw [hc]; rfl⟩
  simp only [replicas, LateReplay.step, htracked, hsource, replication_key]
  congr 1
  · funext p
    by_cases hp : p = place dirs e
    · subst hp
      rw [if_pos hthere, Function.update_self, Function.update_self]
    · rw [Function.update_of_ne hp, Function.update_of_ne hp]
  · exact (push_bulk he hroom .bulk).trans (if_pos rfl)

theorem Steady.placed (hm : Steady env dirs m) (he : DataEvent env dirs m.source e) :
    ∃ d, place dirs e = d ++ [e.name] ∧ Placed e d m.worker := by
  obtain ⟨d, hd⟩ := Option.ne_none_iff_exists'.mp he.parent.2
  obtain ⟨hdir, hsafe⟩ := hm.dirMap _ d hd
  exact ⟨d, place_eq hd, ⟨he.parent.1, hdir, he.name, validate_append hsafe he.name⟩⟩

/-- The worker's turn at an event that waits. -/
structure Replicated (m m' : Mirror) (e : Event) (es : List Event) (p : Path) (c f : File) :
    Prop where
  source : m'.source = m.source
  dirMap : m'.worker.dirMap = m.worker.dirMap
  node : m'.worker.target.node = m.worker.target.node
  target : m'.worker.target.regularAt =
    Function.update m.worker.target.regularAt p (some (e.applyData c f))
  tins : m'.queue.tins = Function.update m.queue.tins .bulk es

theorem Steady.replicated (hm : Steady env dirs m) {es : List Event}
    (hes : m.queue.tins .bulk = e :: es) :
    ∃ c f, m.source.regularAt (place dirs e) = some c ∧
      m.worker.target.regularAt (place dirs e) = some f ∧
      Replicated m (m.work env .bulk) e es (place dirs e) c f := by
  have he := hm.queued e (by rw [hes]; exact List.mem_cons_self ..)
  obtain ⟨c, hc⟩ := he.there
  obtain ⟨f, hf⟩ := hm.both _ c he.visible hc
  obtain ⟨d, hplace, hat⟩ := hm.placed he
  have hex := he.not_excluded
  have hc' := hc
  have hf' := hf
  rw [hplace] at hex hc' hf'
  have hincluded : (m.envAt env).config.isPathExcluded (d ++ [e.name]) = false := hex
  obtain ⟨hdir, hnode, hregular⟩ := process_data he.data hat hincluded hc' hf' hm.target
  have hwork : m.work env .bulk =
      ({ m with queue := { m.queue with tins := Function.update m.queue.tins .bulk es } }).process
        env e := by
    rw [work, hes]
  rw [← hplace] at hregular
  exact ⟨c, f, hc, hf, by
    rw [hwork]
    exact ⟨rfl, hdir, hnode, hregular, process_tins ..⟩⟩

/-- A turn of the worker is one of the replicas. -/
theorem Steady.replicas_work (hm : Steady env dirs m) :
    (m.work env .bulk).replicas env =
      LateReplay.step (replication dirs) (m.replicas env) .work := by
  cases hes : m.queue.tins .bulk with
  | nil =>
    rw [work, hes]
    simp [LateReplay.step, replicas, hes]
  | cons e es =>
    obtain ⟨c, f, hc, hf, hrun⟩ := hm.replicated hes
    have he := hm.queued e (by rw [hes]; exact List.mem_cons_self ..)
    have hthere : m.tracked env (place dirs e) := ⟨he.visible, by rw [hc]; rfl⟩
    have htracked : ∀ p, (m.work env .bulk).tracked env p ↔ m.tracked env p :=
      tracked_congr fun p => by rw [hrun.source]
    simp only [replicas, LateReplay.step, htracked, hrun.source, hrun.target, hrun.tins, hes,
      Function.update_self, replication_key]
    congr 1
    funext p
    by_cases hp : p = place dirs e
    · subst hp
      rw [if_pos hthere, Function.update_self, Function.update_self, if_pos hthere, if_pos hthere,
        hc, hf]
      rfl
    · rw [Function.update_of_ne hp, Function.update_of_ne hp]

theorem Steady.change (hm : Steady env dirs m) (hsends : Sends env dirs m (.change e content)) :
    Steady env dirs (dataStep env dirs m (.change e content)) := by
  obtain ⟨he, hroom, hdescribes⟩ := hsends
  obtain ⟨c, hc⟩ := he.there
  have hsource : (dataStep env dirs m (.change e content)).source.regularAt =
      Function.update m.source.regularAt (place dirs e) (some content) := change_source hm.source hc
  have hkeep : ∀ p c, m.source.regularAt p = some c →
      ∃ c', (dataStep env dirs m (.change e content)).source.regularAt p = some c' := by
    intro p c' hc'
    rw [hsource]
    by_cases hp : p = place dirs e
    · subst hp
      exact ⟨content, Function.update_self ..⟩
    · exact ⟨c', (Function.update_of_ne hp ..).trans hc'⟩
  refine ⟨hm.source.of_node (Fs.alterContent_node ..), hm.target, hm.dirMap, fun p c' hc' => ?_,
    fun p c' hp hc' => ?_, fun x hx => ?_, fun tin htin => ?_⟩
  · rw [hsource] at hc'
    by_cases hp : p = place dirs e
    · subst hp
      rw [Function.update_self] at hc'
      obtain rfl := Option.some.inj hc'
      exact (hdescribes c hc).clean
    · rw [Function.update_of_ne hp] at hc'
      exact hm.clean p c' hc'
  · rw [hsource] at hc'
    by_cases hpe : p = place dirs e
    · exact hm.both p c hp (hpe ▸ hc)
    · rw [Function.update_of_ne hpe] at hc'
      exact hm.both p c' hp hc'
  · have hx' := (push_bulk he hroom .bulk).trans (if_pos rfl) ▸ hx
    rcases List.mem_append.mp hx' with hold | hnew
    · exact (hm.queued x hold).of_some hkeep
    · obtain rfl := List.mem_singleton.mp hnew
      exact he.of_some hkeep
  · exact ((push_bulk he hroom tin).trans (if_neg htin)).trans (hm.others tin htin)

theorem Steady.work_other (hm : Steady env dirs m) {tin : EventTin} (htin : tin ≠ .bulk) :
    m.work env tin = m := by
  rw [work, hm.others tin htin]

theorem Steady.work (hm : Steady env dirs m) : Steady env dirs (m.work env .bulk) := by
  cases hes : m.queue.tins .bulk with
  | nil =>
    rw [Mirror.work, hes]
    exact hm
  | cons e es =>
    obtain ⟨c, f, hc, hf, hrun⟩ := hm.replicated hes
    refine ⟨hrun.source ▸ hm.source, hm.target.of_node hrun.node, fun i d hd => ?_, ?_, ?_, ?_, ?_⟩
    · rw [hrun.dirMap]
      exact hm.dirMap i d hd
    · rw [hrun.source]
      exact hm.clean
    · rw [hrun.source, hrun.target]
      intro p c' hp hc'
      by_cases hpe : p = place dirs e
      · subst hpe
        exact ⟨_, Function.update_self ..⟩
      · rw [Function.update_of_ne hpe]
        exact hm.both p c' hp hc'
    · rw [hrun.source, hrun.tins, Function.update_self]
      intro x hx
      exact hm.queued x (by rw [hes]; exact List.mem_cons_of_mem _ hx)
    · intro tin htin
      rw [hrun.tins, Function.update_of_ne htin]
      exact hm.others tin htin

/-- What holds at every moment. -/
structure OnTheWay (env : Env) (dirs : U64 → Option Path) (m : Mirror) : Prop where
  steady : Steady env dirs m
  promised : LateReplay.Promised (replication dirs) (m.replicas env)

theorem OnTheWay.step {a : Action} (ha : Sends env dirs m a) (h : OnTheWay env dirs m) :
    OnTheWay env dirs (dataStep env dirs m a) := by
  cases a with
  | change e content =>
    obtain ⟨he, hroom, hdescribes⟩ := ha
    refine ⟨h.steady.change ⟨he, hroom, hdescribes⟩, ?_⟩
    obtain ⟨c, hc⟩ := he.there
    rw [replicas_change h.steady.source he hroom]
    refine h.promised.change ?_
    have hthere : m.tracked env (place dirs e) := ⟨he.visible, by rw [hc]; rfl⟩
    have hcell : (m.replicas env).source (place dirs e) = some c := (if_pos hthere).trans hc
    rw [replication_key, hcell]
    exact announces he.data (hdescribes c hc) (h.steady.clean _ c hc)
  | work tin =>
    by_cases htin : tin = .bulk
    · subst htin
      refine ⟨h.steady.work, ?_⟩
      rw [dataStep, h.steady.replicas_work]
      exact h.promised.work
    · rw [dataStep, h.steady.work_other htin]
      exact h

end Step

/-! ## Runs -/

section Runs
variable {env dirs} {m : Mirror}

/-- What is missing on the target is on its way. -/
theorem OnTheWay.replicated (h : OnTheWay env dirs m) {p : Path} {c : File}
    (hp : visible env p = true) (hc : m.source.regularAt p = some c) :
    ∃ f, m.worker.target.regularAt p = some f ∧
      KeyedReplay.cell (Event.applyData c) f ((m.queue.tins .bulk).filter (place dirs · = p)) =
        c := by
  obtain ⟨f, hf⟩ := h.steady.both p c hp hc
  have hthere : m.tracked env p := ⟨hp, by rw [hc]; rfl⟩
  have hpromised := h.promised p
  have hsource : (m.replicas env).source p = some c := (if_pos hthere).trans hc
  have hreplica : (m.replicas env).replica p = some f := (if_pos hthere).trans hf
  rw [hsource, hreplica, cell_some] at hpromised
  exact ⟨f, hf, Option.some.inj hpromised⟩

end Runs

end Mirror

end Foxing
