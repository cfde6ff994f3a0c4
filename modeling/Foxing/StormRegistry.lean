import Mathlib.Data.List.Basic
import Foxing.Lib.Run

/-!
# The registry of pending renames

The entry that the storm registry has for one inode, and the threads that mark and clear
it. A mark keeps the shard of the entry locked while it adds. A clear shares the lock while
it subtracts, lets go of it, and removes the entry in a second map operation if it was the
last: a mark that comes in between is removed with the entry.
-/
namespace Foxing.StormRegistry

/-- How far a thread is in its call. -/
inductive Phase
  | idle
  | entered
  | added
  | looked
  | subtracted (prev : ℕ)
  | removing
  deriving DecidableEq

/-- The thread holds the lock of the shard alone. -/
def Phase.writes : Phase → Bool
  | .entered | .added => true
  | _ => false

/-- The thread shares the lock of the shard. -/
def Phase.reads : Phase → Bool
  | .looked | .subtracted _ => true
  | _ => false

inductive Call
  | mark
  | clear
  deriving DecidableEq

/-- A thread takes the next step of a call. -/
structure Action where
  call : Call
  thread : ℕ
  deriving DecidableEq

/-- The counter of the inode, if the map has one, and the threads. The marks are counted
when they have added, the clears when they look the entry up. -/
structure Registry where
  entry : Option ℕ
  threads : List Phase
  marks : ℕ
  clears : ℕ
  deriving DecidableEq

/-- Atomic counters wrap around. -/
def fetchAdd (n : ℕ) : ℕ := (n + 1) % UInt64.size

def fetchSub (n : ℕ) : ℕ := (n + (UInt64.size - 1)) % UInt64.size

namespace Registry

def init (threads : ℕ) : Registry := ⟨none, List.replicate threads .idle, 0, 0⟩

def getPendingRenames (s : Registry) : ℕ := s.entry.getD 0

def readable (s : Registry) : Bool := s.threads.all fun p => !p.writes

def writable (s : Registry) : Bool := s.threads.all fun p => !p.writes && !p.reads

/-- The next step of a mark. A thread that has to wait for the lock stays where it is. -/
def markPendingRename (s : Registry) (t : ℕ) : Phase → Registry
  | .idle =>
    if s.writable then
      { s with entry := some s.getPendingRenames, threads := s.threads.set t .entered }
    else s
  | .entered =>
    { s with entry := s.entry.map fetchAdd, threads := s.threads.set t .added,
             marks := s.marks + 1 }
  | .added => { s with threads := s.threads.set t .idle }
  | _ => s

/-- The next step of a clear. -/
def clearPendingRename (s : Registry) (t : ℕ) : Phase → Registry
  | .idle =>
    if s.readable then
      match s.entry with
      | none => { s with clears := s.clears + 1 }
      | some _ => { s with threads := s.threads.set t .looked, clears := s.clears + 1 }
    else s
  | .looked =>
    { s with entry := s.entry.map fetchSub,
             threads := s.threads.set t (.subtracted s.getPendingRenames) }
  | .subtracted prev =>
    { s with threads := s.threads.set t (if prev ≤ 1 then .removing else .idle) }
  | .removing =>
    if s.writable then { s with entry := none, threads := s.threads.set t .idle } else s
  | _ => s

def step (s : Registry) (a : Action) : Registry :=
  match s.threads[a.thread]? with
  | none => s
  | some p =>
    match a.call with
    | .mark => s.markPendingRename a.thread p
    | .clear => s.clearPendingRename a.thread p

/-- All calls have returned. -/
def Quiet (s : Registry) : Prop := ∀ p ∈ s.threads, p = .idle

instance (s : Registry) : Decidable s.Quiet := inferInstanceAs (Decidable (∀ p ∈ s.threads, _))

/-- The counter of marks that no clear has taken back. -/
def Exact (s : Registry) : Prop := s.Quiet → s.getPendingRenames + s.clears = s.marks

instance (s : Registry) : Decidable s.Exact := inferInstanceAs (Decidable (_ → _))

/-- A clear is called only for a mark that has been made before. -/
def Promised (s : Registry) (a : Action) : Prop :=
  a.call = .clear → s.threads[a.thread]? = some .idle → s.clears + 1 ≤ s.marks

instance (s : Registry) (a : Action) : Decidable (s.Promised a) :=
  inferInstanceAs (Decidable (_ → _))

/-- An entry that is removed counts nothing, and no mark makes the counter wrap around. -/
structure Sound (s : Registry) (a : Action) : Prop where
  removes : a.call = .clear → s.threads[a.thread]? = some .removing → s.writable →
    s.getPendingRenames = 0
  adds : a.call = .mark → s.threads[a.thread]? = some .entered →
    s.getPendingRenames + 1 < UInt64.size

instance (s : Registry) (a : Action) : Decidable (s.Sound a) :=
  decidable_of_iff
    ((a.call = .clear → s.threads[a.thread]? = some .removing → s.writable →
        s.getPendingRenames = 0) ∧
      (a.call = .mark → s.threads[a.thread]? = some .entered →
        s.getPendingRenames + 1 < UInt64.size))
    ⟨fun h => ⟨h.1, h.2⟩, fun h => ⟨h.removes, h.adds⟩⟩

/-- The clears that have found the entry and not yet subtracted. -/
def looking (s : Registry) : ℕ := s.threads.countP (· = .looked)

/-- The counter falls short of the marks by the clears that have subtracted, and has enough
left for those that are about to. The entry is there for a mark that is about to add. -/
structure Balanced (s : Registry) : Prop where
  count : s.getPendingRenames + s.clears = s.marks + s.looking
  enough : s.looking ≤ s.getPendingRenames
  fits : s.getPendingRenames < UInt64.size
  present : .entered ∈ s.threads → s.entry.isSome

theorem looking_set {threads : List Phase} {t : ℕ} {p : Phase} (h : threads[t]? = some p)
    (q : Phase) :
    (threads.set t q).countP (· = .looked) + (if p = .looked then 1 else 0) =
      threads.countP (· = .looked) + (if q = .looked then 1 else 0) := by
  induction threads generalizing t with
  | nil => simp at h
  | cons x threads ih =>
    cases t with
    | zero =>
      obtain rfl : x = p := by simpa using h
      simp only [List.set_cons_zero, List.countP_cons, decide_eq_true_eq]
      omega
    | succ t =>
      have := ih (by simpa using h)
      simp only [List.set_cons_succ, List.countP_cons]
      omega

theorem looking_eq_zero {s : Registry} (h : s.Quiet) : s.looking = 0 := by
  refine List.countP_eq_zero.mpr fun p hp => ?_
  simp [h p hp]

theorem fetchAdd_eq {n : ℕ} (h : n + 1 < UInt64.size) : fetchAdd n = n + 1 :=
  Nat.mod_eq_of_lt h

theorem fetchSub_eq {n : ℕ} (hpos : 0 < n) (h : n < UInt64.size) : fetchSub n = n - 1 := by
  simp only [fetchSub, UInt64.size] at *
  omega

theorem balanced_init (threads : ℕ) : (init threads).Balanced := by
  have hidle : ∀ p ∈ (init threads).threads, p = .idle := fun p hp => (List.mem_replicate.mp hp).2
  have hlooking : (init threads).looking = 0 := looking_eq_zero hidle
  constructor
  · rw [hlooking]
    rfl
  · omega
  · simp [init, getPendingRenames, UInt64.size]
  · intro hentered
    cases hidle _ hentered

variable {s : Registry} {t : ℕ} {p : Phase}

/-- A thread that goes on without a look at the counter. -/
theorem Balanced.move (h : s.Balanced) (hp : s.threads[t]? = some p) (hne : p ≠ .looked)
    {q : Phase} (hq : q ≠ .looked) (hentered : q ≠ .entered) :
    Balanced { s with threads := s.threads.set t q } := by
  have hset := looking_set hp q
  rw [if_neg hne, if_neg hq] at hset
  obtain ⟨hcount, henough, hfits, hpresent⟩ := h
  refine ⟨?_, ?_, hfits, fun hmem => ?_⟩
  · simp only [looking, getPendingRenames] at *
    omega
  · simp only [looking, getPendingRenames] at *
    omega
  · rcases List.mem_or_eq_of_mem_set hmem with hmem | heq
    · exact hpresent hmem
    · exact absurd heq.symm hentered

theorem Balanced.mark (h : s.Balanced) (hp : s.threads[t]? = some p)
    (hadds : p = .entered → s.getPendingRenames + 1 < UInt64.size) :
    (s.markPendingRename t p).Balanced := by
  cases p with
  | idle =>
    simp only [markPendingRename]
    split_ifs
    · have hset := looking_set hp .entered
      simp only [reduceCtorEq, if_false] at hset
      obtain ⟨hcount, henough, hfits, -⟩ := h
      refine ⟨?_, ?_, hfits, fun _ => rfl⟩
      · simp only [looking, getPendingRenames, Option.getD_some] at *
        omega
      · simp only [looking, getPendingRenames, Option.getD_some] at *
        omega
    · exact h
  | entered =>
    have hset := looking_set hp .added
    have hfits := hadds rfl
    simp only [reduceCtorEq, if_false] at hset
    obtain ⟨n, hn⟩ := Option.isSome_iff_exists.mp (h.present (List.mem_of_getElem? hp))
    obtain ⟨hcount, henough, -, -⟩ := h
    simp only [getPendingRenames, hn, Option.getD_some] at hfits hcount henough
    refine ⟨?_, ?_, ?_, fun _ => ?_⟩
    · simp only [markPendingRename, looking, getPendingRenames, hn, Option.map_some,
        Option.getD_some, fetchAdd_eq hfits] at *
      omega
    · simp only [markPendingRename, looking, getPendingRenames, hn, Option.map_some,
        Option.getD_some, fetchAdd_eq hfits] at *
      omega
    · simp only [markPendingRename, getPendingRenames, hn, Option.map_some,
        Option.getD_some, fetchAdd_eq hfits]
      exact hfits
    · simp [markPendingRename, hn]
  | added => exact h.move hp (by simp) (by simp) (by simp)
  | looked => exact h
  | subtracted prev => exact h
  | removing => exact h

/-- A clear that is promised finds the entry. -/
theorem Balanced.clear_idle (h : s.Balanced) (hp : s.threads[t]? = some .idle)
    (hpromised : s.clears + 1 ≤ s.marks) : (s.clearPendingRename t .idle).Balanced := by
  simp only [clearPendingRename]
  split_ifs
  · have hset := looking_set hp .looked
    obtain ⟨hcount, henough, hfits, hpresent⟩ := h
    cases hentry : s.entry with
    | none =>
      -- with a mark to clear, the counter is not zero
      simp only [getPendingRenames, hentry, Option.getD_none] at hcount henough
      omega
    | some n =>
      simp only [reduceCtorEq, if_false, if_true] at hset
      refine ⟨?_, ?_, ?_, fun _ => ?_⟩
      · simp only [looking, getPendingRenames, hentry, Option.getD_some] at *
        omega
      · simp only [looking, getPendingRenames, hentry, Option.getD_some] at *
        omega
      · simpa only [getPendingRenames, hentry] using hfits
      · simp
  · exact h

/-- There is something to subtract from. -/
theorem Balanced.clear_looked (h : s.Balanced) (hp : s.threads[t]? = some .looked) :
    (s.clearPendingRename t .looked).Balanced := by
  have hset := looking_set hp (.subtracted s.getPendingRenames)
  simp only [reduceCtorEq, if_false, if_true] at hset
  obtain ⟨hcount, henough, hfits, hpresent⟩ := h
  have hpos : 0 < s.getPendingRenames := by
    simp only [looking] at henough
    omega
  have hsub := fetchSub_eq hpos hfits
  cases hentry : s.entry with
  | none => simp [getPendingRenames, hentry] at hpos
  | some n =>
    simp only [getPendingRenames, hentry, Option.getD_some] at hpos hsub hset hcount henough hfits
    refine ⟨?_, ?_, ?_, fun _ => ?_⟩
    · simp only [clearPendingRename, looking, getPendingRenames, hentry, Option.map_some,
        Option.getD_some, hsub] at *
      omega
    · simp only [clearPendingRename, looking, getPendingRenames, hentry, Option.map_some,
        Option.getD_some, hsub] at *
      omega
    · simp only [clearPendingRename, getPendingRenames, hentry, Option.map_some,
        Option.getD_some, hsub]
      omega
    · simp [clearPendingRename, hentry]

/-- An entry that counts nothing is removed while no other thread is at it. -/
theorem Balanced.clear_removing (h : s.Balanced) (hp : s.threads[t]? = some .removing)
    (hremoves : s.writable → s.getPendingRenames = 0) :
    (s.clearPendingRename t .removing).Balanced := by
  simp only [clearPendingRename]
  split_ifs with hwritable
  · have hzero := hremoves hwritable
    obtain ⟨hcount, henough, -, -⟩ := h.move hp (q := .idle) (by simp) (by simp) (by simp)
    have hthread : Phase.entered ∉ s.threads.set t .idle := by
      intro hmem
      rcases List.mem_or_eq_of_mem_set hmem with hmem | heq
      · have := List.all_eq_true.mp hwritable _ hmem
        simp [Phase.writes] at this
      · cases heq
    refine ⟨?_, ?_, ?_, fun hmem => absurd hmem hthread⟩
    · simp only [looking, getPendingRenames, Option.getD_none] at *
      omega
    · simp only [looking, getPendingRenames, Option.getD_none] at *
      omega
    · simp [getPendingRenames, UInt64.size]
  · exact h

theorem Balanced.clear (h : s.Balanced) (hp : s.threads[t]? = some p)
    (hpromised : p = .idle → s.clears + 1 ≤ s.marks)
    (hremoves : p = .removing → s.writable → s.getPendingRenames = 0) :
    (s.clearPendingRename t p).Balanced := by
  cases p with
  | idle => exact h.clear_idle hp (hpromised rfl)
  | entered => exact h
  | added => exact h
  | looked => exact h.clear_looked hp
  | subtracted prev =>
    refine h.move hp (by simp) ?_ ?_
    · split_ifs <;> simp
    · split_ifs <;> simp
  | removing => exact h.clear_removing hp (hremoves rfl)

theorem Balanced.step (h : s.Balanced) {a : Action} (hpromised : s.Promised a)
    (hsound : s.Sound a) : (s.step a).Balanced := by
  obtain ⟨call, t⟩ := a
  unfold Registry.step
  dsimp only
  cases hp : s.threads[t]? with
  | none => exact h
  | some p =>
    cases call with
    | mark =>
      refine h.mark hp fun heq => hsound.adds rfl ?_
      rw [← heq]
      exact hp
    | clear =>
      refine h.clear hp (fun heq => hpromised rfl ?_) (fun heq => hsound.removes rfl ?_)
      · rw [← heq]
        exact hp
      · rw [← heq]
        exact hp

theorem Balanced.exact (h : s.Balanced) : s.Exact := by
  intro hquiet
  have hcount := h.count
  rwa [looking_eq_zero hquiet, Nat.add_zero] at hcount

/-- As long as only entries that count nothing are removed, and the counter does not wrap
around, no mark is lost: whenever all calls have returned, the counter is that of the marks
without the clears. -/
theorem exact_of_along (threads : ℕ) (as : List Action)
    (hpromised : Run.Along step Promised (init threads) as)
    (hsound : Run.Along step Sound (init threads) as) :
    ∀ p, p <+: as → Exact (Run.exec step (init threads) p) := by
  intro p hprefix
  have hallowed := Run.along_and step hpromised hsound
  have hbalanced := Run.invariant_prefix step (I := Balanced)
    (fun s a hok hs => hs.step hok.1 hok.2) hallowed (balanced_init threads) p hprefix
  exact hbalanced.exact

/-- A mark of one thread, that is cleared by the other. -/
def handled : List Action :=
  List.replicate 3 ⟨.mark, 0⟩ ++ List.replicate 4 ⟨.clear, 1⟩

theorem exact_handled : Exact (Run.exec step (init 2) handled) :=
  exact_of_along 2 handled (by decide) (by decide) _ List.prefix_rfl

/-- A second mark is made after the clear of the first has let go of the entry. The removal
takes it away. -/
def overtaken : List Action :=
  List.replicate 3 ⟨.mark, 0⟩ ++ List.replicate 3 ⟨.clear, 1⟩ ++ List.replicate 3 ⟨.mark, 0⟩ ++
    [⟨.clear, 1⟩]

theorem overtaken_lost :
    Run.Along step Promised (init 2) overtaken ∧
      ¬ Exact (Run.exec step (init 2) overtaken) ∧
      (Run.exec step (init 2) overtaken).getPendingRenames = 0 ∧
      (Run.exec step (init 2) overtaken).marks = 2 ∧
      (Run.exec step (init 2) overtaken).clears = 1 := by
  decide

end Registry
end Foxing.StormRegistry
