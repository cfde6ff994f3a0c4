import Foxing.HydrationRequests

/-!
# Events that were dropped

A metadata or bulk event that is dropped leaves nothing behind but a metric. It is
made good only if a scan of the source, a repair of the path or the journal of the
target happens to cover it, and if what covers it is not taken away before a scan
begins. A drop while a scan has been asked for is made good if the next look at the
requests begins one.
-/
namespace Foxing.Daemon
variable {σ τ : Type*}

section Coverage
variable (d : Daemon σ τ) (x : Drop σ τ)

/-- A repair of the path has been asked for or is under way. -/
def Queued : Prop := (x.source, x.path) ∈ d.repairs ∨ ⟨x.source, x.target, x.path⟩ ∈ d.jobs

def Journaled : Prop := x.path ∈ (d.target x.source x.target).outageJournal

/-- Something will still make the drop good. -/
def Covered : Prop := d.Requested x.source ∨ d.Queued x ∨ d.Journaled x

end Coverage

/-! ## The steps that are safe -/

section Safe
variable [DecidableEq σ] (d : Daemon σ τ)

/-- Taking the requests begins a scan of the source. -/
def ScanBegins (s : σ) (now : ℤ) : Prop :=
  d.ScanDue now ∧ ((d.hydration s).requestRecoveryScan = true ∨ d.JournalsEmpty s)

/-- A channel refuses a metadata or bulk event only while a scan of the source has been asked for,
and once it has, the requests are looked at only when a scan begins with it. -/
def Safe (hash : U64 → ℕ) : Action σ τ → Prop
  | .push s t e _ => Fanout.Droppable e → (d.target s t).queue.Refuses hash e → d.Requested s
  | .checkRequests s now => (∃ x ∈ d.dropped, x.source = s) → d.ScanBegins s now
  | _ => True

/-- A scan has been asked for of each source that a drop is outstanding of. -/
def Held : Prop := ∀ x ∈ d.dropped, d.Requested x.source

end Safe

/-- No event is dropped, and no request is taken. -/
structure Keeps (d d' : Daemon σ τ) : Prop where
  dropped : ∀ x ∈ d'.dropped, x ∈ d.dropped
  requested : ∀ s, d.Requested s → d'.Requested s

theorem Keeps.refl (d : Daemon σ τ) : Keeps d d := ⟨fun _ => id, fun _ => id⟩

theorem Keeps.trans {d d' d'' : Daemon σ τ} (h : Keeps d d') (h' : Keeps d' d'') : Keeps d d'' :=
  ⟨fun x hx => h.dropped x (h'.dropped x hx), fun s hs => h'.requested s (h.requested s hs)⟩

theorem Keeps.held {d d' : Daemon σ τ} (h : Keeps d d') (hd : d.Held) : d'.Held :=
  fun x hx => h.requested _ (hd x (h.dropped x hx))

section Sources
variable [DecidableEq σ]

end Sources

section Targets
variable [DecidableEq σ] [DecidableEq τ] (d : Daemon σ τ) (s : σ) (t : τ)

end Targets

/-! ## The steps that drop an event or take the requests -/

section Dropping
variable [DecidableEq σ] [DecidableEq τ] {d : Daemon σ τ} {s : σ} {t : τ}

/-- A push takes no request, and it is not a scan. -/
theorem pushEvent_requests (hash : U64 → ℕ) (e : Event) (path : Path) :
    (d.pushEvent s t hash e path).hydration = d.hydration ∧
      (d.pushEvent s t hash e path).lastFullScan = d.lastFullScan := by
  unfold pushEvent
  split
  · exact ⟨rfl, rfl⟩
  · dsimp only
    split_ifs <;> exact ⟨rfl, rfl⟩

theorem pushEvent_dropped (hash : U64 → ℕ) (e : Event) (path : Path) :
    (d.pushEvent s t hash e path).dropped =
      if Fanout.Droppable e ∧ (d.target s t).queue.Refuses hash e then d.dropped ++ [⟨s, t, path⟩]
      else d.dropped := by
  unfold pushEvent
  by_cases hdrop : Fanout.Droppable e
  · obtain ⟨pushed, q, hpush, hrefuses⟩ :=
      Fanout.push_droppable (q := (d.target s t).queue) hdrop
    rw [hpush]
    simp only [hrefuses, hdrop, and_true, true_and]
    split_ifs <;> rfl
  · simp only [hdrop, and_false, false_and, if_false]
    split <;> rfl

end Dropping

/-! ## Runs -/

section Runs
variable [DecidableEq σ] [DecidableEq τ]

end Runs

/-! Writes faster than they are handled. -/

/-- A write to a file. -/
def writeA : Event :=
  { Event.zero with
    eventType := .write
    inode := 7
    parentInode := 2
    name := "a" }

def pushA : Action Unit Unit := .push () () writeA ["a"]

/-- The channel for the writes. -/
def writeChannel (q : Fanout) : Channel :=
  q.channel writeA.eventType.tin (q.targetIdx (fun _ => 0) writeA)

/-- The channel for the writes has taken so many of them. -/
structure Filled (q : Fanout) (n : ℕ) : Prop where
  capacity : (writeChannel q).capacity = some 64
  closed : (writeChannel q).closed = false
  length : (writeChannel q).events.length = n

theorem Filled.sent {q : Fanout} {n : ℕ} (h : Filled q n) (hn : n < 64) :
    (writeChannel q).result = .sent := by
  unfold Channel.result
  rw [h.closed, h.capacity]
  simp [h.length, hn]

theorem Filled.push {d : Daemon Unit Unit} {n : ℕ} (h : Filled (d.target () ()).queue n)
    (hn : n < 64) : Filled ((d.step (fun _ => 0) pushA).target () ()).queue (n + 1) := by
  have hsent := h.sent hn
  obtain ⟨q, hpush, hchannel⟩ := Fanout.push_sent (Or.inr rfl) (by decide) hsent
  have hqueue : ((d.step (fun _ => 0) pushA).target () ()).queue = q := by
    show ((d.pushEvent () () (fun _ => 0) writeA ["a"]).target () ()).queue = q
    unfold pushEvent
    rw [hpush]
    rfl
  have hwrite : writeChannel q = { writeChannel (d.target () ()).queue with
      events := (writeChannel (d.target () ()).queue).events ++ [writeA] } := hchannel
  rw [hqueue]
  refine ⟨?_, ?_, ?_⟩
  · rw [hwrite]
    exact h.capacity
  · rw [hwrite]
    exact h.closed
  · rw [hwrite, List.length_append, h.length]
    rfl

theorem Filled.refuses {q : Fanout} (h : Filled q 64) : q.Refuses (fun _ => 0) writeA := by
  refine ⟨by decide, ?_⟩
  show (writeChannel q).result ≠ .sent
  unfold Channel.result
  rw [h.closed, h.capacity]
  simp [h.length]

/-- One more write is dropped. -/
theorem Filled.dropped {d : Daemon Unit Unit} (h : Filled (d.target () ()).queue 64) :
    (d.step (fun _ => 0) pushA).dropped = d.dropped ++ [⟨(), (), ["a"]⟩] :=
  (pushEvent_dropped ..).trans (if_pos ⟨Or.inr rfl, h.refuses⟩)

/-- The requests and the time of the last scan as the lost mount has left them. -/
structure ScanAsked (d : Daemon Unit Unit) : Prop where
  recovery : (d.hydration ()).requestRecoveryScan = true
  lastFullScan : d.lastFullScan = -60000

theorem ScanAsked.push {d : Daemon Unit Unit} (h : ScanAsked d) :
    ScanAsked (d.step (fun _ => 0) pushA) := by
  obtain ⟨hhydration, htime⟩ :=
    pushEvent_requests (d := d) (s := ()) (t := ()) (fun _ => 0) writeA ["a"]
  exact ⟨(congrArg (fun f => (f ()).requestRecoveryScan) hhydration).trans h.recovery,
    htime.trans h.lastFullScan⟩

end Foxing.Daemon
