import Mathlib.Data.Finset.Card
import Mathlib.Data.List.Basic
import Mathlib.Order.Bounds.Basic
import Foxing.Lib.Run

/-!
# Tickets for an inode

Operations on an inode are serialized by tickets. A call takes the next ticket and waits
until the ticket before it is completed; the guard that it returns completes its own ticket
when it is dropped. Completions that come too early are kept until those before them have
come. A call whose future is dropped while it waits leaves its ticket behind.

Tickets are natural numbers: as many as the counter has room for are not issued. The calls
that wait for an inode and its live guards are listed with the inode.
-/
namespace Foxing.Serialization

/-! ## Completions -/

/-- The published watermark and the completions above it. -/
structure SequenceBarrier where
  finished : ℕ
  pendingCompletions : Finset ℕ
  deriving DecidableEq

namespace SequenceBarrier

def new (start : ℕ) : SequenceBarrier := ⟨start, ∅⟩

/-- The loop that takes the next expected completions out of the set. It is run as often as
there are completions in it. -/
def drain : ℕ → ℕ → Finset ℕ → ℕ × Finset ℕ
  | 0, next, pending => (next, pending)
  | fuel + 1, next, pending =>
    if next ∈ pending then drain fuel (next + 1) (pending.erase next) else (next, pending)

def complete (b : SequenceBarrier) (seq : ℕ) : SequenceBarrier :=
  if seq ≤ b.finished then b
  else
    let pending := insert seq b.pendingCompletions
    let (nextExpected, pending) := drain pending.card (b.finished + 1) pending
    if b.finished + 1 < nextExpected then ⟨nextExpected - 1, pending⟩ else ⟨b.finished, pending⟩

/-- All completions up to the watermark have come, and the set has the others. -/
structure Tracks (b : SequenceBarrier) (completed : Finset ℕ) : Prop where
  below : ∀ k, 1 ≤ k → k ≤ b.finished → k ∈ completed
  next : b.finished + 1 ∉ completed
  pending : b.pendingCompletions = completed.filter (b.finished < ·)

/-- The watermark is the largest number up to which everything is completed. -/
theorem Tracks.isGreatest {b : SequenceBarrier} {completed : Finset ℕ} (h : b.Tracks completed) :
    IsGreatest {n | ∀ k, 1 ≤ k → k ≤ n → k ∈ completed} b.finished := by
  constructor
  · exact h.below
  · intro n hn
    by_contra hlt
    have hle : b.finished + 1 ≤ n := by omega
    exact h.next (hn (b.finished + 1) (by omega) hle)

theorem Tracks.finished_eq {b : SequenceBarrier} {completed : Finset ℕ} (h : b.Tracks completed)
    {n : ℕ} (hbelow : ∀ k, 1 ≤ k → k ≤ n → k ∈ completed) (hnext : n + 1 ∉ completed) :
    b.finished = n := by
  have hle : n ≤ b.finished := h.isGreatest.2 hbelow
  by_contra hne
  exact hnext (h.below (n + 1) (by omega) (by omega))

theorem tracks_new : (new 0).Tracks ∅ := by
  refine ⟨fun k hk hle => ?_, ?_, rfl⟩
  · simp only [new] at hle
    omega
  · simp

/-- With enough fuel the loop stops at the first number that is not in the set, and it has
taken out all before it. -/
theorem drain_spec (fuel next : ℕ) (pending : Finset ℕ) (hfuel : pending.card ≤ fuel) :
    next ≤ (drain fuel next pending).1 ∧
      (∀ k, next ≤ k → k < (drain fuel next pending).1 → k ∈ pending) ∧
      (drain fuel next pending).1 ∉ pending ∧
      (drain fuel next pending).2 =
        pending.filter fun k => k < next ∨ (drain fuel next pending).1 ≤ k := by
  induction fuel generalizing next pending with
  | zero =>
    have hempty : pending = ∅ := Finset.card_eq_zero.mp (by omega)
    subst hempty
    simp only [drain]
    refine ⟨le_rfl, fun k hle hlt => ?_, Finset.notMem_empty _, rfl⟩
    omega
  | succ fuel ih =>
    by_cases hmem : next ∈ pending
    · have hcard : (pending.erase next).card ≤ fuel := by
        rw [Finset.card_erase_of_mem hmem]
        omega
      obtain ⟨hle, hin, hout, hleft⟩ := ih (next + 1) (pending.erase next) hcard
      simp only [drain, if_pos hmem]
      generalize drain fuel (next + 1) (pending.erase next) = r at hle hin hout hleft
      refine ⟨by omega, fun k hk hlt => ?_, fun hmem' => ?_, ?_⟩
      · by_cases heq : k = next
        · rw [heq]
          exact hmem
        · exact Finset.mem_of_mem_erase (hin k (by omega) hlt)
      · exact hout (Finset.mem_erase.mpr ⟨by omega, hmem'⟩)
      · rw [hleft]
        ext k
        simp only [Finset.mem_filter, Finset.mem_erase]
        constructor
        · rintro ⟨⟨hne, hk⟩, hcase⟩
          exact ⟨hk, by omega⟩
        · rintro ⟨hk, hcase⟩
          exact ⟨⟨by omega, hk⟩, by omega⟩
    · simp only [drain, if_neg hmem]
      refine ⟨le_rfl, fun k hle hlt => ?_, hmem, ?_⟩
      · omega
      · ext k
        simp only [Finset.mem_filter]
        constructor
        · intro hk
          exact ⟨hk, by omega⟩
        · exact fun hk => hk.1

/-- Another completion, whichever it is. -/
theorem Tracks.complete {b : SequenceBarrier} {completed : Finset ℕ} (h : b.Tracks completed)
    (seq : ℕ) : (b.complete seq).Tracks (insert seq completed) := by
  unfold SequenceBarrier.complete
  split_ifs with hold
  · refine ⟨fun k hk hle => Finset.mem_insert_of_mem (h.below k hk hle), fun hmem => ?_, ?_⟩
    · rcases Finset.mem_insert.mp hmem with heq | hmem
      · omega
      · exact h.next hmem
    · rw [Finset.filter_insert, if_neg (by omega)]
      exact h.pending
  · obtain ⟨hle, hin, hout, hleft⟩ := drain_spec _ (b.finished + 1)
      (insert seq b.pendingCompletions) le_rfl
    dsimp only
    generalize drain _ (b.finished + 1) (insert seq b.pendingCompletions) = r at *
    have hmem : ∀ k, b.finished < k →
        (k ∈ insert seq b.pendingCompletions ↔ k ∈ insert seq completed) := by
      intro k hk
      simp only [Finset.mem_insert, h.pending, Finset.mem_filter]
      tauto
    -- In either case the watermark comes to be one below the number where the loop stopped.
    have hresult : (if b.finished + 1 < r.1 then ⟨r.1 - 1, r.2⟩ else ⟨b.finished, r.2⟩ :
        SequenceBarrier) = ⟨r.1 - 1, r.2⟩ := by
      split_ifs with hupdated
      · rfl
      · have hnext : r.1 = b.finished + 1 := by omega
        rw [hnext, Nat.add_sub_cancel]
    rw [hresult]
    refine ⟨fun k hk hle' => ?_, ?_, ?_⟩
    · dsimp only at hle'
      by_cases hbelow : k ≤ b.finished
      · exact Finset.mem_insert_of_mem (h.below k hk hbelow)
      · exact (hmem k (by omega)).mp (hin k (by omega) (by omega))
    · have hnext : r.1 - 1 + 1 = r.1 := by omega
      dsimp only
      rw [hnext]
      exact fun hmem' => hout ((hmem r.1 (by omega)).mpr hmem')
    · dsimp only
      rw [hleft]
      ext k
      simp only [Finset.mem_filter]
      constructor
      · rintro ⟨hk, hcase⟩
        have hlarge : b.finished < k := by
          rcases Finset.mem_insert.mp hk with rfl | hk
          · omega
          · rw [h.pending] at hk
            exact (Finset.mem_filter.mp hk).2
        exact ⟨(hmem k hlarge).mp hk, by omega⟩
      · rintro ⟨hk, hlarge⟩
        exact ⟨(hmem k (by omega)).mpr hk, by omega⟩

/-- Completions do not take the watermark back. -/
theorem finished_le_complete (b : SequenceBarrier) (seq : ℕ) :
    b.finished ≤ (b.complete seq).finished := by
  unfold SequenceBarrier.complete
  split_ifs
  · exact le_rfl
  · dsimp only
    split_ifs
    · dsimp only
      omega
    · exact le_rfl

theorem finished_le_foldl (b : SequenceBarrier) (seqs : List ℕ) :
    b.finished ≤ (seqs.foldl complete b).finished := by
  induction seqs generalizing b with
  | nil => exact le_rfl
  | cons seq seqs ih => exact le_trans (b.finished_le_complete seq) (ih (b.complete seq))

/-- After any completions in any order, some of them more than once. -/
theorem tracks_foldl (seqs : List ℕ) :
    (seqs.foldl complete (new 0)).Tracks seqs.toFinset := by
  induction seqs using List.reverseRecOn with
  | nil => exact tracks_new
  | append_singleton seqs seq ih =>
    have hnew := ih.complete seq
    rw [List.foldl_append, List.foldl_cons, List.foldl_nil, List.toFinset_append]
    rw [Finset.insert_eq, Finset.union_comm] at hnew
    exact hnew

end SequenceBarrier

/-! ## Calls and guards -/

/-- A call that has its ticket. It is pending once it has found that it has to wait. -/
structure Waiter where
  ticket : ℕ
  pending : Bool
  deriving DecidableEq, Repr

/-- The sequencer and the barrier of an inode, with its calls and guards. The last two fields
are not read: the tickets that have been completed, and those that have got a guard, in order. -/
structure InodeState where
  sequencer : ℕ
  barrier : SequenceBarrier
  waiting : List Waiter
  guards : List ℕ
  completed : Finset ℕ
  granted : List ℕ
  deriving DecidableEq

namespace InodeState
variable (s : InodeState)

def new : InodeState := ⟨0, .new 0, [], [], ∅, []⟩

/-- The ticket is issued. -/
def acquire : InodeState :=
  { s with
    sequencer := s.sequencer + 1
    waiting := s.waiting ++ [⟨s.sequencer + 1, false⟩] }

/-- A call looks at the watermark. The first ticket does not wait for anything. -/
def poll (i : ℕ) : InodeState :=
  match s.waiting[i]? with
  | none => s
  | some w =>
    if w.ticket - 1 ≤ s.barrier.finished then
      { s with
        waiting := s.waiting.eraseIdx i
        guards := s.guards ++ [w.ticket]
        granted := s.granted ++ [w.ticket] }
    else { s with waiting := s.waiting.set i { w with pending := true } }

/-- A future that is pending is dropped. -/
def cancel (i : ℕ) : InodeState :=
  match s.waiting[i]? with
  | none => s
  | some w => if w.pending then { s with waiting := s.waiting.eraseIdx i } else s

def completeTicket (ticket : ℕ) : InodeState :=
  { s with barrier := s.barrier.complete ticket, completed := insert ticket s.completed }

/-- A guard is dropped. -/
def dropGuard (i : ℕ) : InodeState :=
  match s.guards[i]? with
  | none => s
  | some ticket => { s.completeTicket ticket with guards := s.guards.eraseIdx i }

/-- A completion comes once more. -/
def completeAgain (ticket : ℕ) : InodeState :=
  if ticket ∈ s.completed then s.completeTicket ticket else s

end InodeState

inductive TicketAction where
  | acquire
  | poll (i : ℕ)
  | cancel (i : ℕ)
  | drop (i : ℕ)
  | completeAgain (ticket : ℕ)
  deriving DecidableEq, Repr

def InodeState.step (s : InodeState) : TicketAction → InodeState
  | .acquire => s.acquire
  | .poll i => s.poll i
  | .cancel i => s.cancel i
  | .drop i => s.dropGuard i
  | .completeAgain ticket => s.completeAgain ticket

namespace InodeState

/-- Guards have been granted for the tickets up to the last one granted. Either that one has its
guard and those before it are completed, or it is completed, too. Who waits has a later one. -/
structure Inv (s : InodeState) : Prop where
  tracks : s.barrier.Tracks s.completed
  completed : ∀ t ∈ s.completed, t ≤ s.barrier.finished
  granted : s.granted = List.range' 1 s.granted.length
  held : (s.guards = [s.granted.length] ∧ s.granted.length = s.barrier.finished + 1) ∨
    (s.guards = [] ∧ s.granted.length = s.barrier.finished)
  later : ∀ w ∈ s.waiting, s.granted.length < w.ticket
  issued : s.granted.length ≤ s.sequencer ∧ ∀ w ∈ s.waiting, w.ticket ≤ s.sequencer
  nodup : (s.waiting.map Waiter.ticket).Nodup

theorem inv_new : Inv new :=
  ⟨SequenceBarrier.tracks_new, by simp [new], rfl, .inr ⟨rfl, rfl⟩, by simp [new], by simp [new],
    by simp [new]⟩

section Steps
variable {s : InodeState}

theorem Inv.acquire (h : Inv s) : Inv s.acquire := by
  obtain ⟨hgranted, hissued⟩ := h.issued
  have hmem : ∀ w ∈ s.acquire.waiting, w ∈ s.waiting ∨ w = ⟨s.sequencer + 1, false⟩ := by
    intro w hw
    simpa [InodeState.acquire] using hw
  refine ⟨h.tracks, h.completed, h.granted, h.held, fun w hw => ?_, ⟨?_, fun w hw => ?_⟩, ?_⟩
  · rcases hmem w hw with hw | rfl
    · exact h.later w hw
    · exact Nat.lt_succ_of_le hgranted
  · exact Nat.le_succ_of_le hgranted
  · rcases hmem w hw with hw | rfl
    · exact Nat.le_succ_of_le (hissued w hw)
    · exact le_rfl
  · have hfresh : s.sequencer + 1 ∉ s.waiting.map Waiter.ticket := by
      intro hmem
      obtain ⟨w, hw, heq⟩ := List.mem_map.mp hmem
      have := hissued w hw
      omega
    simp only [InodeState.acquire, List.map_append, List.map_cons, List.map_nil]
    exact List.nodup_append_comm.mp (List.nodup_cons.mpr ⟨hfresh, h.nodup⟩)

/-- The waiters around one of them. -/
theorem mem_eraseIdx {i : ℕ} {w : Waiter} (hw : w ∈ s.waiting.eraseIdx i) : w ∈ s.waiting :=
  List.mem_of_mem_eraseIdx hw

theorem Inv.without (h : Inv s) (i : ℕ) : Inv { s with waiting := s.waiting.eraseIdx i } := by
  refine ⟨h.tracks, h.completed, h.granted, h.held, fun w hw => h.later w (mem_eraseIdx hw),
    ⟨h.issued.1, fun w hw => h.issued.2 w (mem_eraseIdx hw)⟩, ?_⟩
  exact h.nodup.sublist ((List.eraseIdx_sublist ..).map Waiter.ticket)

/-- Who may go on has the next ticket, and there is no guard. -/
theorem Inv.ticket_eq (h : Inv s) {w : Waiter} (hw : w ∈ s.waiting)
    (hgo : w.ticket - 1 ≤ s.barrier.finished) :
    w.ticket = s.granted.length + 1 ∧ s.guards = [] ∧ s.granted.length = s.barrier.finished := by
  have hlater := h.later w hw
  rcases h.held with ⟨-, hfinished⟩ | ⟨hguards, hfinished⟩
  · omega
  · exact ⟨by omega, hguards, hfinished⟩

theorem Inv.grant (h : Inv s) {i : ℕ} {w : Waiter} (hi : s.waiting[i]? = some w)
    (hgo : w.ticket - 1 ≤ s.barrier.finished) :
    Inv { s with
      waiting := s.waiting.eraseIdx i
      guards := s.guards ++ [w.ticket]
      granted := s.granted ++ [w.ticket] } := by
  have hw : w ∈ s.waiting := List.mem_of_getElem? hi
  obtain ⟨hticket, hguards, hfinished⟩ := h.ticket_eq hw hgo
  have hlength : (s.granted ++ [w.ticket]).length = s.granted.length + 1 := by simp
  obtain ⟨hlt, rfl⟩ := List.getElem?_eq_some_iff.mp hi
  have hperm := (List.getElem_cons_eraseIdx_perm hlt).map Waiter.ticket
  have hnodup : (s.waiting[i].ticket :: (s.waiting.eraseIdx i).map Waiter.ticket).Nodup :=
    hperm.nodup_iff.mpr h.nodup
  obtain ⟨hfresh, hrest⟩ := List.nodup_cons.mp hnodup
  refine ⟨h.tracks, h.completed, ?_, .inl ⟨?_, ?_⟩, fun v hv => ?_, ⟨?_, fun v hv => ?_⟩, hrest⟩
  · dsimp only
    rw [hlength, hticket, List.range'_concat, ← h.granted, Nat.one_mul, Nat.add_comm]
  · dsimp only
    rw [hguards, hlength, hticket]
    rfl
  · dsimp only
    rw [hlength, hfinished]
  · dsimp only at hv ⊢
    have hlater := h.later v (mem_eraseIdx hv)
    have hne : v.ticket ≠ s.waiting[i].ticket :=
      fun heq => hfresh (heq ▸ List.mem_map_of_mem hv)
    omega
  · dsimp only
    rw [hlength, ← hticket]
    exact h.issued.2 _ hw
  · exact h.issued.2 v (mem_eraseIdx hv)

/-- A waiter notes that it has to wait. -/
theorem Inv.wait (h : Inv s) {i : ℕ} {w : Waiter} (hi : s.waiting[i]? = some w) :
    Inv { s with waiting := s.waiting.set i { w with pending := true } } := by
  have hmap : (s.waiting.set i { w with pending := true }).map Waiter.ticket =
      s.waiting.map Waiter.ticket := by
    obtain ⟨hlt, rfl⟩ := List.getElem?_eq_some_iff.mp hi
    rw [List.map_set]
    have hlt' : i < (s.waiting.map Waiter.ticket).length := by rwa [List.length_map]
    have hself := List.set_getElem_self hlt'
    rwa [List.getElem_map] at hself
  have hmem : ∀ v ∈ s.waiting.set i { w with pending := true },
      ∃ u ∈ s.waiting, u.ticket = v.ticket := by
    intro v hv
    rw [← List.mem_map, ← hmap]
    exact List.mem_map_of_mem hv
  refine ⟨h.tracks, h.completed, h.granted, h.held, fun v hv => ?_, ⟨h.issued.1, fun v hv => ?_⟩, ?_⟩
  · obtain ⟨u, hu, heq⟩ := hmem v hv
    rw [← heq]
    exact h.later u hu
  · obtain ⟨u, hu, heq⟩ := hmem v hv
    rw [← heq]
    exact h.issued.2 u hu
  · dsimp only
    rw [hmap]
    exact h.nodup

theorem Inv.poll (h : Inv s) (i : ℕ) : Inv (s.poll i) := by
  unfold InodeState.poll
  cases hi : s.waiting[i]? with
  | none => exact h
  | some w =>
    dsimp only
    split_ifs with hgo
    · exact h.grant hi hgo
    · exact h.wait hi

theorem Inv.cancel (h : Inv s) (i : ℕ) : Inv (s.cancel i) := by
  unfold InodeState.cancel
  cases hi : s.waiting[i]? with
  | none => exact h
  | some w =>
    dsimp only
    split_ifs
    · exact h.without i
    · exact h

theorem Inv.dropGuard (h : Inv s) (i : ℕ) : Inv (s.dropGuard i) := by
  unfold InodeState.dropGuard
  cases hi : s.guards[i]? with
  | none => exact h
  | some ticket =>
    rcases h.held with ⟨hguards, hlength⟩ | ⟨hguards, -⟩
    · rw [hguards] at hi
      obtain ⟨hlt, hticket⟩ := List.getElem?_eq_some_iff.mp hi
      obtain rfl : i = 0 := by simpa using hlt
      obtain rfl : s.granted.length = ticket := hticket
      have htracks := h.tracks.complete s.granted.length
      have hfinished : (s.barrier.complete s.granted.length).finished = s.granted.length := by
        refine htracks.finished_eq (fun k hk hle => ?_) fun hmem => ?_
        · by_cases heq : k = s.granted.length
          · exact heq ▸ Finset.mem_insert_self _ _
          · exact Finset.mem_insert_of_mem (h.tracks.below k hk (by omega))
        · rcases Finset.mem_insert.mp hmem with heq | hmem
          · omega
          · have := h.completed _ hmem
            omega
      refine ⟨htracks, fun t ht => ?_, h.granted, .inr ⟨?_, hfinished.symm⟩, h.later, h.issued,
        h.nodup⟩
      · dsimp only [completeTicket] at ht ⊢
        rw [hfinished]
        rcases Finset.mem_insert.mp ht with rfl | ht
        · exact le_rfl
        · have := h.completed t ht
          omega
      · dsimp only
        rw [hguards]
        rfl
    · rw [hguards] at hi
      cases hi

theorem Inv.completeAgain (h : Inv s) (ticket : ℕ) : s.completeAgain ticket = s := by
  unfold InodeState.completeAgain
  split_ifs with hmem
  · have hle := h.completed ticket hmem
    rw [completeTicket, SequenceBarrier.complete, if_pos hle, Finset.insert_eq_of_mem hmem]
  · rfl

theorem Inv.step (h : Inv s) (a : TicketAction) : Inv (s.step a) := by
  cases a with
  | acquire => exact h.acquire
  | poll i => exact h.poll i
  | cancel i => exact h.cancel i
  | drop i => exact h.dropGuard i
  | completeAgain ticket =>
    rw [InodeState.step, h.completeAgain]
    exact h

/-- The watermark does not go back. -/
theorem finished_le_step (s : InodeState) (a : TicketAction) :
    s.barrier.finished ≤ (s.step a).barrier.finished := by
  cases a with
  | acquire => exact le_rfl
  | poll i =>
    simp only [InodeState.step, InodeState.poll]
    split
    · exact le_rfl
    · split_ifs <;> exact le_rfl
  | cancel i =>
    simp only [InodeState.step, InodeState.cancel]
    split
    · exact le_rfl
    · split_ifs <;> exact le_rfl
  | drop i =>
    simp only [InodeState.step, InodeState.dropGuard]
    split
    · exact le_rfl
    · exact SequenceBarrier.finished_le_complete _ _
  | completeAgain ticket =>
    simp only [InodeState.step, InodeState.completeAgain]
    split_ifs
    · exact SequenceBarrier.finished_le_complete _ _
    · exact le_rfl

/-- Each ticket is completed, or has a guard, or a call that waits has it. -/
def Accounted (s : InodeState) : Prop :=
  ∀ t, 1 ≤ t → t ≤ s.sequencer →
    t ∈ s.completed ∨ t ∈ s.guards ∨ ∃ w ∈ s.waiting, w.ticket = t

theorem accounted_new : Accounted new := by
  intro t hone hle
  simp only [new] at hle
  omega

theorem Accounted.acquire (h : Accounted s) : Accounted s.acquire := by
  intro t hone hle
  by_cases hnew : t = s.sequencer + 1
  · exact .inr (.inr ⟨⟨s.sequencer + 1, false⟩, by simp [InodeState.acquire], hnew.symm⟩)
  · simp only [InodeState.acquire] at hle
    rcases h t hone (by omega) with hcompleted | hguard | ⟨w, hw, hticket⟩
    · exact .inl hcompleted
    · exact .inr (.inl hguard)
    · exact .inr (.inr ⟨w, List.mem_append_left _ hw, hticket⟩)

theorem Accounted.poll (h : Accounted s) (i : ℕ) : Accounted (s.poll i) := by
  unfold InodeState.poll
  cases hi : s.waiting[i]? with
  | none => exact h
  | some w =>
    obtain ⟨hlt, rfl⟩ := List.getElem?_eq_some_iff.mp hi
    dsimp only
    split_ifs with hgo
    · intro t hone hle
      rcases h t hone hle with hcompleted | hguard | ⟨v, hv, hticket⟩
      · exact .inl hcompleted
      · exact .inr (.inl (List.mem_append_left _ hguard))
      · rcases List.mem_cons.mp ((List.getElem_cons_eraseIdx_perm hlt).mem_iff.mpr hv) with rfl | hv
        · exact .inr (.inl (by simp [hticket]))
        · exact .inr (.inr ⟨v, hv, hticket⟩)
    · intro t hone hle
      rcases h t hone hle with hcompleted | hguard | ⟨v, hv, hticket⟩
      · exact .inl hcompleted
      · exact .inr (.inl hguard)
      · obtain ⟨j, hj, rfl⟩ := List.mem_iff_getElem.mp hv
        have hj' : j < (s.waiting.set i { s.waiting[i] with pending := true }).length := by
          rwa [List.length_set]
        refine .inr (.inr ⟨_, List.getElem_mem hj', ?_⟩)
        rw [List.getElem_set]
        split_ifs with heq
        · subst heq
          exact hticket
        · exact hticket

theorem Accounted.dropGuard (h : Accounted s) (i : ℕ) : Accounted (s.dropGuard i) := by
  unfold InodeState.dropGuard
  cases hi : s.guards[i]? with
  | none => exact h
  | some ticket =>
    obtain ⟨hlt, rfl⟩ := List.getElem?_eq_some_iff.mp hi
    intro t hone hle
    dsimp only [completeTicket] at hle ⊢
    rcases h t hone hle with hcompleted | hguard | hwaiting
    · exact .inl (Finset.mem_insert_of_mem hcompleted)
    · rcases List.mem_cons.mp ((List.getElem_cons_eraseIdx_perm hlt).mem_iff.mpr hguard)
        with rfl | hguard
      · exact .inl (Finset.mem_insert_self _ _)
      · exact .inr (.inl hguard)
    · exact .inr (.inr hwaiting)

theorem Accounted.completeAgain (h : Accounted s) (ticket : ℕ) :
    Accounted (s.completeAgain ticket) := by
  unfold InodeState.completeAgain
  split_ifs
  · intro t hone hle
    exact (h t hone hle).imp_left (Finset.mem_insert_of_mem ·)
  · exact h

/-- No call that waits is dropped by the action. -/
def Keeps (s : InodeState) : TicketAction → Prop
  | .cancel i => ∀ w ∈ s.waiting[i]?, w.pending = false
  | _ => True

instance decidableKeeps (s : InodeState) : ∀ a, Decidable (s.Keeps a)
  | .cancel i => inferInstanceAs (Decidable (∀ w ∈ s.waiting[i]?, w.pending = false))
  | .acquire | .poll _ | .drop _ | .completeAgain _ => inferInstanceAs (Decidable True)

theorem Accounted.step (h : Accounted s) {a : TicketAction} (hkeeps : s.Keeps a) :
    Accounted (s.step a) := by
  cases a with
  | acquire => exact h.acquire
  | poll i => exact h.poll i
  | cancel i =>
    simp only [InodeState.step, InodeState.cancel]
    cases hi : s.waiting[i]? with
    | none => exact h
    | some w =>
      have hpending := hkeeps w hi
      dsimp only
      rw [hpending]
      exact h
  | drop i => exact h.dropGuard i
  | completeAgain ticket => exact h.completeAgain ticket

end Steps

end InodeState

end Foxing.Serialization
