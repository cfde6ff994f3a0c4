import Foxing.Probes

/-!
# What the write aggregator keeps

Every submitted range should reach user space or still be pending, under its own
file and with its own flags; a writeback should be passed over only if the
probes have seen all of it; and an fsync event should leave nothing of its file
behind. The aggregator is one table of inode numbers for all devices, a flush
deletes the slots of every processor after it has read one of them, a slot that
is taken over keeps its old flags, and a mark of a single page stands for a
whole writeback. A run in which no probe meets one of these is accounted for.
-/
namespace Foxing.Kernel
variable {C : Type}

/-- The bytes of a range. -/
def Covers (offset length : U64) (b : ℕ) : Prop :=
  offset.val ≤ b ∧ b < offset.val + length.val

instance (offset length : U64) (b : ℕ) : Decidable (Covers offset length b) :=
  inferInstanceAs (Decidable (_ ∧ _))

theorem not_covers_zero (offset : U64) (b : ℕ) : ¬ Covers offset 0 b := by
  rintro ⟨hle, hlt⟩
  rw [Fin.val_zero] at hlt
  omega

def Submission.Covers (w : Submission) (b : ℕ) : Prop := Kernel.Covers w.offset w.length b

instance (w : Submission) (b : ℕ) : Decidable (w.Covers b) :=
  inferInstanceAs (Decidable (Kernel.Covers _ _ b))

/-- Is this a write of the file? -/
def Submission.Of (w : Submission) (dev : U32) (ino : U64) : Prop := w.dev = dev ∧ w.ino = ino

instance (w : Submission) (dev : U32) (ino : U64) : Decidable (w.Of dev ino) :=
  inferInstanceAs (Decidable (_ ∧ _))

/-- A pending entry of the file: it holds writes, and they are all of the file. -/
def PendingWrite.BelongsTo (pw : PendingWrite) (dev : U32) (ino : U64) : Prop :=
  pw.writes ≠ [] ∧ ∀ w ∈ pw.writes, w.Of dev ino

namespace Maps

/-- What should hold of the maps at any time. -/
structure Accounted (s : Maps C) : Prop where
  /-- A submitted range lies in the events and the pending entries of its file. -/
  covered : ∀ w ∈ s.submitted, w ∉ s.failed → ∀ b, w.Covers b →
    (∃ e ws, (e, ws) ∈ s.events ∧ e.eventType = .writeRange ∧ w.Of e.devId e.inode ∧
      Covers e.offset e.length b) ∨
    (∃ c pw, s.writeAggregator.lookup c w.ino = some pw ∧ pw.BelongsTo w.dev w.ino ∧
      Covers pw.startOffset pw.length b)
  /-- An event stands for submissions of its own file, and for nothing besides. -/
  attributed : ∀ e ws, (e, ws) ∈ s.events → ∀ w ∈ ws, w ∈ s.submitted ∧ w.Of e.devId e.inode
  sourced : ∀ e ws, (e, ws) ∈ s.events → e.eventType = .writeRange →
    ∀ b, Covers e.offset e.length b → ∃ w ∈ ws, w.Covers b
  flagged : ∀ e ws, (e, ws) ∈ s.events → ∀ w ∈ ws, w.flags = e.flags

/-- Every byte of the range has been submitted for the file. -/
def Written (s : Maps C) (inode : Inode) (offset length : U64) : Prop :=
  ∀ b, Covers offset length b → ∃ w ∈ s.submitted, w.Of inode.dev inode.ino ∧ w.Covers b

/-- A write of the file waits on some processor. -/
def HasPending (s : Maps C) (dev : U32) (ino : U64) : Prop :=
  ∃ c pw, s.writeAggregator.lookup c ino = some pw ∧ ∃ w ∈ pw.writes, w.Of dev ino

variable [DecidableEq C]

/-- The events of one probe. -/
def emittedBy (s : Maps C) (p : Probe C) : List (Event × List Submission) :=
  (s.step p).events.drop s.events.length

/-- What should hold of every probe. -/
structure StepSound (s : Maps C) (p : Probe C) : Prop where
  /-- A writeback of a watched device is passed over only if all of it has been submitted. -/
  suppressed : ∀ call inode start stop, p = .filemapFdatawriteRange call inode start stop →
    inode.dev ∈ s.watchedDevs → s.knowsWriteback inode start = true →
      s.Written inode start (writebackLength start stop)
  /-- Behind an fsync event no write of its file is pending. -/
  fsynced : ∀ e ws, (e, ws) ∈ s.emittedBy p → e.eventType = .fsync →
    ¬ (s.step p).HasPending e.devId e.inode

/-! ## Where the aggregator can be relied on -/

omit [DecidableEq C] in
/-- A new entry finds room in the table; an entry that is there belongs to the same
device, and takes the range up without wrapping around or has the same flags. -/
def SubmitSafe (s : Maps C) (call : Call C) (inode : Inode) (offset length : U64) (flags : U32) :
    Prop :=
  match s.writeAggregator.lookup call.cpu inode.ino with
  | none => s.writeAggregator.keys.card < maxAggregated ∨ length = 0
  | some pw => (∀ w ∈ pw.writes, w.dev = inode.dev) ∧
      if pw.absorbs call.ts offset length flags then
        length = 0 ∨ pw.startOffset.val + pw.length.val < 2 ^ 64 ∧
          pw.length.val + length.val < 2 ^ 64
      else pw.flags = flags

omit [DecidableEq C] in
/-- An entry that will be flushed belongs to the same device, and the other processors
have nothing in it. -/
def FlushSafe (s : Maps C) (call : Call C) (inode : Inode) : Prop :=
  ∀ pw, s.writeAggregator.lookup call.cpu inode.ino = some pw →
    (s.reserve call.flushRoom).isSome → (∀ w ∈ pw.writes, w.dev = inode.dev) ∧
      ∀ c, c ≠ call.cpu → (s.writeAggregator.slots inode.ino c).length = 0

/-- The condition on a probe. A write pending at an fsync has to be flushed, unless the
fsync itself goes unreported; a writeback whose first page is marked has to lie in
what was written. -/
def Safe (s : Maps C) : Probe C → Prop
  | .writeIter call inode _ pos count kiFlags _ =>
    s.isIgnoredPid call = false → inode.dev ∈ s.watchedDevs →
      s.SubmitSafe call inode pos count kiFlags
  | .copyFileRange call inode _ posOut len =>
    s.isIgnoredPid call = false → inode.dev ∈ s.watchedDevs →
      s.SubmitSafe call inode posOut len 0
  | .vfsFsync call inode _ => inode.dev ∈ s.watchedDevs →
    s.FlushSafe call inode ∧ (s.HasPending inode.dev inode.ino →
      (s.reserve call.flushRoom).isSome ∨ s.isIgnoredPid call = true ∨
        s.countSeq.reserve call.room = none)
  | .filemapFdatawriteRange call inode start stop => inode.dev ∈ s.watchedDevs →
    s.FlushSafe call inode ∧
      if s.knowsWriteback inode start then s.Written inode start (writebackLength start stop)
      else (s.flushPendingWrite call inode none).SubmitSafe call inode start
        (writebackLength start stop) 0
  | .iomapWriteback call inode => inode.dev ∈ s.watchedDevs → s.FlushSafe call inode

end Maps

/-! ## Collected writes -/

/-- The range and the flags stand for a list of submissions of one file. -/
structure Aggregates (submitted : List Submission) (ino offset length : U64) (flags : U32)
    (ws : List Submission) : Prop where
  submitted : ∀ w ∈ ws, w ∈ submitted
  ino : ∀ w ∈ ws, w.ino = ino
  dev : ∀ w ∈ ws, ∀ w' ∈ ws, w.dev = w'.dev
  flags : ∀ w ∈ ws, w.flags = flags
  inside : ∀ w ∈ ws, ∀ b, w.Covers b → Covers offset length b
  sourced : ∀ b, Covers offset length b → ∃ w ∈ ws, w.Covers b

namespace Aggregates
variable {submitted : List Submission} {ino offset length : U64} {flags : U32}
  {ws : List Submission}

theorem zero (submitted : List Submission) (ino : U64) :
    Aggregates submitted ino (0 : PendingWrite).startOffset (0 : PendingWrite).length
      (0 : PendingWrite).flags (0 : PendingWrite).writes := by
  have hws : (0 : PendingWrite).writes = [] := rfl
  rw [hws]
  refine ⟨by simp, by simp, by simp, by simp, by simp, ?_⟩
  intro b hb
  exact absurd hb (not_covers_zero _ b)

/-- Later submissions do not matter. -/
theorem mono (h : Aggregates submitted ino offset length flags ws) (more : List Submission) :
    Aggregates (submitted ++ more) ino offset length flags ws where
  submitted w hw := List.mem_append_left _ (h.submitted w hw)
  ino := h.ino
  dev := h.dev
  flags := h.flags
  inside := h.inside
  sourced := h.sourced

theorem single {w : Submission} (hw : w ∈ submitted) :
    Aggregates submitted w.ino w.offset w.length w.flags [w] := by
  refine ⟨by simpa using hw, by simp, by simp, by simp, by simp [Submission.Covers], ?_⟩
  intro b hb
  exact ⟨w, List.mem_singleton_self w, hb⟩

/-- The sum of two lengths covers both ranges if it does not wrap around. -/
theorem covers_add {first second : U64} (hstart : offset.val + first.val < 2 ^ 64)
    (hlength : first.val + second.val < 2 ^ 64) (b : ℕ) :
    Covers offset (first + second) b ↔
      Covers offset first b ∨ Covers (offset + first) second b := by
  have hsum : (first + second).val = first.val + second.val := by
    rw [Fin.val_add]
    exact Nat.mod_eq_of_lt hlength
  have hnext : (offset + first).val = offset.val + first.val := by
    rw [Fin.val_add]
    exact Nat.mod_eq_of_lt hstart
  simp only [Covers, hsum, hnext]
  omega

/-- A contiguous write of the same file with the same flags joins the others. -/
theorem absorb (h : Aggregates submitted ino offset length flags ws) {w : Submission}
    (hw : w ∈ submitted) (hino : w.ino = ino) (hdev : ∀ w' ∈ ws, w'.dev = w.dev)
    (hflags : w.flags = flags) (hnext : offset + length = w.offset)
    (hroom : w.length = 0 ∨
      offset.val + length.val < 2 ^ 64 ∧ length.val + w.length.val < 2 ^ 64) :
    Aggregates submitted ino offset (length + w.length) flags (ws ++ [w]) := by
  have hcovers : ∀ b, Covers offset (length + w.length) b ↔ Covers offset length b ∨ w.Covers b := by
    intro b
    rw [Submission.Covers, ← hnext]
    rcases hroom with hzero | ⟨hstart, hlength⟩
    · rw [hzero, Fin.add_zero]
      constructor
      · intro hb
        exact .inl hb
      · rintro (hb | hb)
        · exact hb
        · exact absurd hb (not_covers_zero _ b)
    · exact covers_add hstart hlength b
  have hjoin : ∀ {P : Submission → Prop}, (∀ w' ∈ ws, P w') → P w → ∀ w' ∈ ws ++ [w], P w' := by
    intro P hold hnew w' hw'
    rcases List.mem_append.mp hw' with hw' | hw'
    · exact hold w' hw'
    · rw [List.mem_singleton.mp hw']
      exact hnew
  have hall := hjoin hdev rfl
  constructor
  · exact hjoin h.submitted hw
  · exact hjoin h.ino hino
  · intro w₁ hw₁ w₂ hw₂
    rw [hall w₁ hw₁, hall w₂ hw₂]
  · exact hjoin h.flags hflags
  · refine hjoin (fun w' hw' b hb => ?_) (fun b hb => ?_)
    · exact (hcovers b).mpr (.inl (h.inside w' hw' b hb))
    · exact (hcovers b).mpr (.inr hb)
  · intro b hb
    rcases (hcovers b).mp hb with hb | hb
    · obtain ⟨w', hw', hb'⟩ := h.sourced b hb
      exact ⟨w', List.mem_append_left _ hw', hb'⟩
    · exact ⟨w, by simp, hb⟩

end Aggregates

namespace Maps

/-! ## The invariant -/

/-- What every slot and every event stands for, and that each submission is in one of
them, unless it has failed or is in the hand of the probe. -/
structure Keeps (hand : List Submission) (s : Maps C) : Prop where
  slots : ∀ c ino pw, s.writeAggregator.lookup c ino = some pw →
    Aggregates s.submitted ino pw.startOffset pw.length pw.flags pw.writes
  events : ∀ e ws, (e, ws) ∈ s.events → (∀ w ∈ ws, w.dev = e.devId) ∧
    if e.eventType = .writeRange then Aggregates s.submitted e.inode e.offset e.length e.flags ws
    else ws = []
  covered : ∀ w ∈ s.submitted, w ∉ s.failed → w ∉ hand → ∀ b, w.Covers b →
    (∃ e ws, (e, ws) ∈ s.events ∧ w ∈ ws) ∨
    (∃ c pw, s.writeAggregator.lookup c w.ino = some pw ∧ w ∈ pw.writes)

theorem keeps_load (watchedDevs ignoredPids : List U32) (seq : U64) :
    Keeps [] (Maps.load watchedDevs ignoredPids seq : Maps C) := by
  constructor
  · simp [load]
  · simp [load]
  · simp [load]

namespace Keeps
variable {s : Maps C} {hand : List Submission}

theorem accounted (h : Keeps [] s) : s.Accounted := by
  have hevent : ∀ e ws, (e, ws) ∈ s.events → ∀ w ∈ ws, e.eventType = .writeRange ∧
      Aggregates s.submitted e.inode e.offset e.length e.flags ws := by
    intro e ws he w hw
    have hag := (h.events e ws he).2
    by_cases htype : e.eventType = .writeRange
    · rw [if_pos htype] at hag
      exact ⟨htype, hag⟩
    · rw [if_neg htype] at hag
      simp [hag] at hw
  constructor
  · intro w hw hfailed b hb
    rcases h.covered w hw hfailed (List.not_mem_nil) b hb with ⟨e, ws, he, hws⟩ | ⟨c, pw, hpw, hws⟩
    · obtain ⟨htype, hag⟩ := hevent e ws he w hws
      exact .inl ⟨e, ws, he, htype, ⟨(h.events e ws he).1 w hws, hag.ino w hws⟩,
        hag.inside w hws b hb⟩
    · have hag := h.slots c w.ino pw hpw
      refine .inr ⟨c, pw, hpw, ⟨List.ne_nil_of_mem hws, fun w' hw' => ?_⟩, hag.inside w hws b hb⟩
      exact ⟨hag.dev w' hw' w hws, hag.ino w' hw'⟩
  · intro e ws he w hw
    obtain ⟨-, hag⟩ := hevent e ws he w hw
    exact ⟨hag.submitted w hw, (h.events e ws he).1 w hw, hag.ino w hw⟩
  · intro e ws he htype b hb
    have hag := (h.events e ws he).2
    rw [if_pos htype] at hag
    exact hag.sourced b hb
  · intro e ws he w hw
    exact (hevent e ws he w hw).2.flags w hw

/-- What is held is emitted under its own file, or its emission fails. -/
theorem emit {call : Call C} {inode : Inode} {dentry : Option Dentry} {type : EventType}
    {offset length ts : U64} {flags : U32} {ws : List Submission} (h : Keeps ws s)
    (hdev : ∀ w ∈ ws, w.dev = inode.dev)
    (hws : if type = .writeRange then Aggregates s.submitted inode.ino offset length flags ws
      else ws = []) :
    Keeps [] (s.emit call inode dentry type offset length ts flags ws) := by
  unfold Maps.emit
  cases s.reserve call.room with
  | none =>
    refine ⟨h.slots, h.events, ?_⟩
    intro w hw hfailed _ b hb
    have hnot : w ∉ s.failed ∧ w ∉ ws := by simpa [countSeq] using hfailed
    exact h.covered w hw hnot.1 hnot.2 b hb
  | some seqNum =>
    refine ⟨h.slots, ?_, ?_⟩
    · intro e ws' he
      rcases List.mem_append.mp he with he | he
      · exact h.events e ws' he
      · obtain ⟨rfl, rfl⟩ := Prod.mk.inj (List.mem_singleton.mp he)
        exact ⟨hdev, hws⟩
    · intro w hw hfailed _ b hb
      by_cases hmem : w ∈ ws
      · exact .inl ⟨_, ws, List.mem_append_right _ (List.mem_singleton_self _), hmem⟩
      · rcases h.covered w hw hfailed hmem b hb with ⟨e, ws', he, hws'⟩ | hpending
        · exact .inl ⟨e, ws', List.mem_append_left _ he, hws'⟩
        · exact .inr hpending

/-- A flush hands out the slot of its processor; those of the others hold no bytes. -/
theorem flushPendingWrite {call : Call C} {inode : Inode} (dentry : Option Dentry)
    (h : Keeps [] s) (hsafe : inode.dev ∈ s.watchedDevs → s.FlushSafe call inode) :
    Keeps [] (s.flushPendingWrite call inode dentry) := by
  unfold Maps.flushPendingWrite
  by_cases hwatched : inode.dev ∈ s.watchedDevs
  swap
  · rwa [if_pos hwatched]
  rw [if_neg (not_not.mpr hwatched)]
  cases hlook : s.writeAggregator.lookup call.cpu inode.ino with
  | none => exact h
  | some pw =>
    cases hres : s.reserve call.flushRoom with
    | none => exact ⟨h.slots, h.events, h.covered⟩
    | some seqNum =>
      obtain ⟨hdev, hothers⟩ := hsafe hwatched pw hlook (by simp [hres])
      refine ⟨?_, ?_, ?_⟩
      · intro c ino pw' hpw'
        refine h.slots c ino pw' ?_
        simp only [PercpuHash.lookup_delete] at hpw'
        split at hpw'
        · cases hpw'
        · exact hpw'
      · intro e ws he
        rcases List.mem_append.mp he with he | he
        · exact h.events e ws he
        · obtain ⟨rfl, rfl⟩ := Prod.mk.inj (List.mem_singleton.mp he)
          exact ⟨hdev, by simpa [Call.fillEvent, countSeq] using h.slots call.cpu inode.ino pw hlook⟩
      · intro w hw hfailed hhand b hb
        rcases h.covered w hw hfailed hhand b hb with ⟨e, ws, he, hws⟩ | ⟨c, pw', hpw', hws⟩
        · exact .inl ⟨e, ws, List.mem_append_left _ he, hws⟩
        by_cases hino : w.ino = inode.ino
        · have hcpu : c = call.cpu := by
            by_contra hne
            have hzero := hothers c hne
            rw [hino, PercpuHash.lookup_eq_some_iff] at hpw'
            have hin := (h.slots c inode.ino pw'
              ((PercpuHash.lookup_eq_some_iff ..).mpr hpw')).inside w hws b hb
            rw [← hpw'.2, hzero] at hin
            exact not_covers_zero _ b hin
          rw [hcpu, hino, hlook] at hpw'
          obtain rfl := Option.some.inj hpw'
          exact .inl ⟨_, pw.writes, List.mem_append_right _ (List.mem_singleton_self _), hws⟩
        · refine .inr ⟨c, pw', ?_, hws⟩
          simpa only [PercpuHash.lookup_delete, if_neg hino] using hpw'

/-- A range that is submitted is in the hand of the probe. -/
theorem submit (h : Keeps [] s) (w : Submission) :
    Keeps [w] { s with submitted := s.submitted ++ [w] } := by
  refine ⟨?_, ?_, ?_⟩
  · intro c ino pw hpw
    exact (h.slots c ino pw hpw).mono [w]
  · intro e ws he
    refine ⟨(h.events e ws he).1, ?_⟩
    have hag := (h.events e ws he).2
    by_cases htype : e.eventType = .writeRange
    · rw [if_pos htype] at hag ⊢
      exact hag.mono [w]
    · rwa [if_neg htype] at hag ⊢
  · intro w' hw' hfailed hhand b hb
    have hold : w' ∈ s.submitted := by
      rcases List.mem_append.mp hw' with hw' | hw'
      · exact hw'
      · exact absurd hw' hhand
    exact h.covered w' hold hfailed (List.not_mem_nil) b hb

variable [DecidableEq C]

/-- A slot is overwritten: what the probe held goes into it, what it held before
stays or passes into the hand of the probe. -/
theorem store {c : C} {ino : U64} {pw : PendingWrite} (pw' : PendingWrite) (h : Keeps hand s)
    (hlook : s.writeAggregator.lookup c ino = some pw)
    (hag : Aggregates s.submitted ino pw'.startOffset pw'.length pw'.flags pw'.writes)
    (hhand : ∀ w ∈ hand, w.ino = ino ∧ w ∈ pw'.writes) (rest : List Submission)
    (hrest : ∀ w ∈ pw.writes, w ∈ pw'.writes ∨ w ∈ rest) :
    Keeps rest { s with writeAggregator := s.writeAggregator.store c ino pw' } := by
  refine ⟨?_, h.events, ?_⟩
  · intro c' ino' pw'' hpw''
    simp only [s.writeAggregator.lookup_store pw' hlook] at hpw''
    split at hpw''
    · next heq =>
      obtain rfl := Option.some.inj hpw''
      rw [heq.1]
      exact hag
    · exact h.slots c' ino' pw'' hpw''
  · intro w hw hfailed hnot b hb
    have hslot : w.ino = ino → w ∈ pw'.writes → ∃ c' pw'',
        (s.writeAggregator.store c ino pw').lookup c' w.ino = some pw'' ∧ w ∈ pw''.writes := by
      intro hino hmem
      refine ⟨c, pw', ?_, hmem⟩
      rw [s.writeAggregator.lookup_store pw' hlook, if_pos ⟨hino, rfl⟩]
    by_cases hmem : w ∈ hand
    · exact .inr (hslot (hhand w hmem).1 (hhand w hmem).2)
    rcases h.covered w hw hfailed hmem b hb with hevent | ⟨c', pw'', hpw'', hws⟩
    · exact .inl hevent
    by_cases heq : w.ino = ino ∧ c' = c
    · rw [heq.1, heq.2, hlook] at hpw''
      obtain rfl := Option.some.inj hpw''
      rcases hrest w hws with hin | hin
      · exact .inr (hslot heq.1 hin)
      · exact absurd hin hnot
    · refine .inr ⟨c', pw'', ?_, hws⟩
      rw [s.writeAggregator.lookup_store pw' hlook, if_neg heq]
      exact hpw''

/-- A new entry takes what the probe holds; a full table has no bytes to lose. -/
theorem insert {c : C} {w : Submission} {pw : PendingWrite} (h : Keeps [w] s)
    (hlook : s.writeAggregator.lookup c w.ino = none)
    (hag : Aggregates s.submitted w.ino pw.startOffset pw.length pw.flags pw.writes)
    (hmem : w ∈ pw.writes)
    (hroom : s.writeAggregator.keys.card < maxAggregated ∨ w.length = 0) :
    Keeps [] { s with
      writeAggregator := s.writeAggregator.update maxAggregated c w.ino pw } := by
  by_cases hlt : s.writeAggregator.keys.card < maxAggregated
  swap
  · rw [s.writeAggregator.update_full pw hlook hlt]
    refine ⟨h.slots, h.events, ?_⟩
    intro w' hw' hfailed _ b hb
    refine h.covered w' hw' hfailed ?_ b hb
    intro hin
    have hzero := hroom.resolve_left hlt
    rw [List.mem_singleton.mp hin, Submission.Covers, Covers, hzero] at hb
    have hbound := hb.2
    have hle := hb.1
    simp only [Fin.val_zero] at hbound
    omega
  have hnew := s.writeAggregator.lookup_update_new pw hlook hlt
  refine ⟨?_, h.events, ?_⟩
  · intro c' ino' pw' hpw'
    simp only [hnew] at hpw'
    by_cases hino : ino' = w.ino
    · rw [if_pos hino] at hpw'
      obtain rfl := Option.some.inj hpw'
      rw [hino]
      by_cases hc : c' = c
      · rw [if_pos hc]
        exact hag
      · rw [if_neg hc]
        exact Aggregates.zero s.submitted w.ino
    · rw [if_neg hino] at hpw'
      exact h.slots c' ino' pw' hpw'
  · intro w' hw' hfailed _ b hb
    by_cases hin : w' = w
    · refine .inr ⟨c, pw, ?_, hin ▸ hmem⟩
      rw [hnew, if_pos (by rw [hin]), if_pos rfl]
    rcases h.covered w' hw' hfailed (by simpa using hin) b hb with hevent | ⟨c', pw', hpw', hws⟩
    · exact .inl hevent
    have hino : w'.ino ≠ w.ino := by
      intro heq
      rw [heq, (s.writeAggregator.lookup_eq_none_iff c' w.ino).mpr
        ((s.writeAggregator.lookup_eq_none_iff c w.ino).mp hlook)] at hpw'
      cases hpw'
    refine .inr ⟨c', pw', ?_, hws⟩
    rw [hnew, if_neg hino]
    exact hpw'

theorem aggregate {call : Call C} {inode : Inode} (dentry : Option Dentry) {offset length : U64}
    {flags : U32} (h : Keeps [] s) (hsafe : s.SubmitSafe call inode offset length flags) :
    Keeps [] (s.aggregate call inode dentry offset length flags) := by
  have hsub := h.submit (s.submission inode offset length flags)
  have hin : s.submission inode offset length flags ∈
      s.submitted ++ [s.submission inode offset length flags] := by simp
  have hsingle := Aggregates.single hin
  unfold SubmitSafe at hsafe
  unfold Maps.aggregate
  cases hlook : s.writeAggregator.lookup call.cpu inode.ino with
  | none =>
    simp only [hlook] at hsafe ⊢
    exact hsub.insert hlook hsingle (List.mem_singleton_self _) hsafe
  | some pw =>
    simp only [hlook] at hsafe ⊢
    obtain ⟨hdev, hsafe⟩ := hsafe
    have hag := (h.slots call.cpu inode.ino pw hlook).mono [s.submission inode offset length flags]
    by_cases habs : pw.absorbs call.ts offset length flags = true
    · rw [if_pos habs] at hsafe ⊢
      simp only [PendingWrite.absorbs, Bool.and_eq_true, decide_eq_true_eq] at habs
      refine hsub.store _ hlook ?_ ?_ [] ?_
      · exact hag.absorb hin rfl hdev habs.2.symm habs.1.1.2 hsafe
      · intro w hw
        rw [List.mem_singleton.mp hw]
        exact ⟨rfl, by simp⟩
      · intro w hw
        exact .inl (List.mem_append_left _ hw)
    · rw [if_neg habs] at hsafe ⊢
      refine emit ?_ hdev (by simpa using hag)
      refine hsub.store _ hlook ?_ ?_ pw.writes (fun w hw => .inr hw)
      · rw [hsafe]
        exact hsingle
      · intro w hw
        exact ⟨by rw [List.mem_singleton.mp hw]; rfl, hw⟩

/-- A submitted write range, whether or not the probe gets as far as the aggregator. -/
theorem submitWriteRange {call : Call C} {inode : Inode} (dentry : Option Dentry)
    {offset length : U64} {flags : U32} (checkPid : Bool) (h : Keeps [] s)
    (hsafe : ¬ (checkPid && s.isIgnoredPid call) = true → inode.dev ∈ s.watchedDevs →
      s.SubmitSafe call inode offset length flags) :
    Keeps [] (s.submitEventRaw call inode dentry .writeRange offset length flags checkPid) := by
  unfold submitEventRaw
  by_cases hpid : (checkPid && s.isIgnoredPid call) = true
  · rwa [if_pos hpid]
  rw [if_neg hpid, if_neg (by simp)]
  by_cases hwatched : inode.dev ∈ s.watchedDevs
  · rw [if_neg (not_not.mpr hwatched), if_pos rfl]
    exact h.aggregate dentry (hsafe hpid hwatched)
  · rwa [if_pos hwatched]

theorem submitFsync (call : Call C) (inode : Inode) (dentry : Option Dentry) (h : Keeps [] s) :
    Keeps [] (s.submitEvent call inode dentry .fsync 0 0 0) := by
  unfold submitEvent submitEventRaw
  by_cases hpid : (true && s.isIgnoredPid call) = true
  · rwa [if_pos hpid]
  rw [if_neg hpid, if_neg (by simp)]
  by_cases hwatched : inode.dev ∈ s.watchedDevs
  · rw [if_neg (not_not.mpr hwatched), if_neg (by simp)]
    exact h.emit (by simp) (by simp)
  · rwa [if_pos hwatched]

end Keeps

section
variable (s : Maps C) (call : Call C) (inode : Inode) (dentry : Option Dentry)

@[simp] theorem markDirty_writeAggregator (offset : U64) (evicted : List DirtyKey) :
    (s.markDirty call inode offset evicted).writeAggregator = s.writeAggregator := by
  unfold markDirty
  split <;> rfl

@[simp] theorem markDirty_watchedDevs (offset : U64) (evicted : List DirtyKey) :
    (s.markDirty call inode offset evicted).watchedDevs = s.watchedDevs := by
  unfold markDirty
  split <;> rfl

@[simp] theorem markDirty_isIgnoredPid (offset : U64) (evicted : List DirtyKey) :
    (s.markDirty call inode offset evicted).isIgnoredPid call = s.isIgnoredPid call := by
  unfold markDirty
  split <;> rfl

@[simp] theorem markDirty_events (offset : U64) (evicted : List DirtyKey) :
    (s.markDirty call inode offset evicted).events = s.events := by
  unfold markDirty
  split <;> rfl

theorem Keeps.markDirty {s : Maps C} {hand : List Submission} (h : Keeps hand s) (offset : U64)
    (evicted : List DirtyKey) : Keeps hand (s.markDirty call inode offset evicted) := by
  unfold Maps.markDirty
  split
  · exact h
  · exact ⟨h.slots, h.events, h.covered⟩

/-- What a flush does: nothing, the loss of a sequence number, or an event. -/
theorem flushPendingWrite_cases :
    (s.flushPendingWrite call inode dentry = s ∧
      (inode.dev ∈ s.watchedDevs → inode.ino ∉ s.writeAggregator.keys)) ∨
    (s.flushPendingWrite call inode dentry = s.countSeq ∧ s.reserve call.flushRoom = none) ∨
    ∃ e ws, e.eventType = .writeRange ∧ s.flushPendingWrite call inode dentry =
      { s.countSeq with
        events := s.events ++ [(e, ws)]
        writeAggregator := s.writeAggregator.delete inode.ino } := by
  unfold flushPendingWrite
  by_cases hwatched : inode.dev ∈ s.watchedDevs
  swap
  · rw [if_pos hwatched]
    exact .inl ⟨rfl, fun h => absurd h hwatched⟩
  rw [if_neg (not_not.mpr hwatched)]
  cases hlook : s.writeAggregator.lookup call.cpu inode.ino with
  | none => exact .inl ⟨rfl, fun _ => (PercpuHash.lookup_eq_none_iff ..).mp hlook⟩
  | some pw =>
    cases hres : s.reserve call.flushRoom with
    | none => exact .inr (.inl ⟨rfl, rfl⟩)
    | some seqNum => exact .inr (.inr ⟨_, pw.writes, rfl, rfl⟩)

@[simp] theorem flushPendingWrite_watchedDevs :
    (s.flushPendingWrite call inode dentry).watchedDevs = s.watchedDevs := by
  obtain ⟨h, -⟩ | ⟨h, -⟩ | ⟨e, ws, -, h⟩ := s.flushPendingWrite_cases call inode dentry
  all_goals rw [h]
  · rfl
  · rfl

@[simp] theorem flushPendingWrite_isIgnoredPid :
    (s.flushPendingWrite call inode dentry).isIgnoredPid call = s.isIgnoredPid call := by
  obtain ⟨h, -⟩ | ⟨h, -⟩ | ⟨e, ws, -, h⟩ := s.flushPendingWrite_cases call inode dentry
  all_goals rw [h]
  · rfl
  · rfl

@[simp] theorem flushPendingWrite_dirtyPages :
    (s.flushPendingWrite call inode dentry).dirtyPages = s.dirtyPages := by
  obtain ⟨h, -⟩ | ⟨h, -⟩ | ⟨e, ws, -, h⟩ := s.flushPendingWrite_cases call inode dentry
  all_goals rw [h]
  · rfl
  · rfl

end

/-! ## Steps and runs -/

variable [DecidableEq C]

/-- Every safe probe keeps the invariant. -/
theorem Keeps.step {s : Maps C} {p : Probe C} (h : Keeps [] s) (hsafe : s.Safe p) :
    Keeps [] (s.step p) := by
  cases p with
  | writeIter call inode dentry pos count kiFlags evicted =>
    refine (h.markDirty call inode pos evicted).submitWriteRange dentry true ?_
    intro hpid hwatched
    simp only [markDirty_isIgnoredPid, Bool.true_and, Bool.not_eq_true] at hpid
    rw [markDirty_watchedDevs] at hwatched
    simpa [SubmitSafe] using hsafe hpid hwatched
  | copyFileRange call inode dentry posOut len =>
    refine h.submitWriteRange dentry true ?_
    intro hpid hwatched
    exact hsafe (by simpa using hpid) hwatched
  | vfsFsync call inode dentry =>
    exact (h.flushPendingWrite dentry (fun hw => (hsafe hw).1)).submitFsync call inode dentry
  | filemapFdatawriteRange call inode start stop =>
    have hflush := h.flushPendingWrite none (fun hw => (hsafe hw).1)
    have hknows : (s.flushPendingWrite call inode none).knowsWriteback inode start =
        s.knowsWriteback inode start := by simp [knowsWriteback]
    simp only [Maps.step, traceFilemapFdatawriteRange]
    by_cases hk : s.knowsWriteback inode start = true
    · rw [hknows, if_pos hk]
      exact ⟨hflush.slots, hflush.events, hflush.covered⟩
    · rw [hknows, if_neg hk]
      refine hflush.submitWriteRange none false ?_
      intro _ hwatched
      rw [flushPendingWrite_watchedDevs] at hwatched
      have hsub := (hsafe hwatched).2
      rwa [if_neg hk] at hsub
  | iomapWriteback call inode => exact h.flushPendingWrite none hsafe

/-- The write path emits write ranges only. -/
theorem aggregate_events (s : Maps C) (call : Call C) (inode : Inode) (dentry : Option Dentry)
    (offset length : U64) (flags : U32) :
    ∃ l, (s.aggregate call inode dentry offset length flags).events = s.events ++ l ∧
      ∀ e ws, (e, ws) ∈ l → e.eventType = .writeRange := by
  unfold aggregate
  cases hlook : s.writeAggregator.lookup call.cpu inode.ino with
  | none =>
    simp only [hlook]
    exact ⟨[], by simp, by simp⟩
  | some pw =>
    simp only [hlook]
    split
    · exact ⟨[], by simp, by simp⟩
    · unfold emit
      split
      · exact ⟨[], by simp [countSeq], by simp⟩
      · refine ⟨_, rfl, ?_⟩
        intro e ws he
        rw [(Prod.mk.inj (List.mem_singleton.mp he)).1]
        rfl

theorem submitWriteRange_events (s : Maps C) (call : Call C) (inode : Inode)
    (dentry : Option Dentry) (offset length : U64) (flags : U32) (checkPid : Bool) :
    ∃ l, (s.submitEventRaw call inode dentry .writeRange offset length flags checkPid).events =
      s.events ++ l ∧ ∀ e ws, (e, ws) ∈ l → e.eventType = .writeRange := by
  unfold submitEventRaw
  split
  · exact ⟨[], by simp, by simp⟩
  · rw [if_neg (by simp)]
    split
    · exact ⟨[], by simp, by simp⟩
    · rw [if_pos rfl]
      exact s.aggregate_events call inode dentry offset length flags

omit [DecidableEq C] in
theorem flushPendingWrite_events (s : Maps C) (call : Call C) (inode : Inode)
    (dentry : Option Dentry) :
    ∃ l, (s.flushPendingWrite call inode dentry).events = s.events ++ l ∧
      ∀ e ws, (e, ws) ∈ l → e.eventType = .writeRange := by
  obtain ⟨h, -⟩ | ⟨h, -⟩ | ⟨e, ws, htype, h⟩ := s.flushPendingWrite_cases call inode dentry
  · exact ⟨[], by simp [h], by simp⟩
  · exact ⟨[], by simp [h, countSeq], by simp⟩
  · refine ⟨[(e, ws)], by rw [h], ?_⟩
    intro e' ws' he
    rw [(Prod.mk.inj (List.mem_singleton.mp he)).1]
    exact htype

/-- An fsync event is behind the events of the state only if the probe got through
to the ring buffer, and then it names the inode of the probe. -/
theorem submitFsync_events (s : Maps C) (call : Call C) (inode : Inode) (dentry : Option Dentry) :
    (s.submitEvent call inode dentry .fsync 0 0 0).writeAggregator = s.writeAggregator ∧
    ((s.submitEvent call inode dentry .fsync 0 0 0).events = s.events ∨
      s.isIgnoredPid call = false ∧ inode.dev ∈ s.watchedDevs ∧
        (s.reserve call.room).isSome ∧
        ∃ e, (s.submitEvent call inode dentry .fsync 0 0 0).events = s.events ++ [(e, [])] ∧
          e.devId = inode.dev ∧ e.inode = inode.ino) := by
  unfold submitEvent submitEventRaw
  by_cases hpid : s.isIgnoredPid call = true
  · rw [if_pos (by simp [hpid])]
    exact ⟨rfl, .inl rfl⟩
  rw [if_neg (by simp [hpid]), if_neg (by simp)]
  by_cases hwatched : inode.dev ∈ s.watchedDevs
  swap
  · rw [if_pos hwatched]
    exact ⟨rfl, .inl rfl⟩
  rw [if_neg (not_not.mpr hwatched), if_neg (by simp)]
  unfold emit
  cases hres : s.reserve call.room with
  | none => exact ⟨rfl, .inl rfl⟩
  | some seqNum =>
    exact ⟨rfl, .inr ⟨by simpa using hpid, hwatched, rfl, _, rfl, rfl, rfl⟩⟩

omit [DecidableEq C] in
/-- No write of the file waits once a safe fsync probe has reported it. -/
theorem fsync_leaves_nothing {s : Maps C} {call : Call C} {inode : Inode}
    (dentry : Option Dentry) (hsafe : s.Safe (.vfsFsync call inode dentry))
    (hpid : s.isIgnoredPid call = false) (hwatched : inode.dev ∈ s.watchedDevs)
    (hres : ((s.flushPendingWrite call inode dentry).reserve call.room).isSome) :
    ¬ (s.flushPendingWrite call inode dentry).HasPending inode.dev inode.ino := by
  rintro ⟨c, pw, hlook, w, hw, hof⟩
  have hkey := ((PercpuHash.lookup_eq_some_iff ..).mp hlook).1
  obtain ⟨h, hkeys⟩ | ⟨h, hroom⟩ | ⟨e, ws, -, h⟩ := s.flushPendingWrite_cases call inode dentry
  · rw [h] at hkey
    exact hkeys hwatched hkey
  · rw [h] at hlook hres
    rcases (hsafe hwatched).2 ⟨c, pw, hlook, w, hw, hof⟩ with hflush | hignored | hnone
    · simp [hroom] at hflush
    · simp [hpid] at hignored
    · simp [hnone] at hres
  · rw [h] at hkey
    simp [PercpuHash.delete] at hkey

theorem stepSound_of_safe {s : Maps C} {p : Probe C} (hsafe : s.Safe p) : s.StepSound p := by
  -- a probe that extends the events by write ranges reports no fsync
  have hquiet : (∃ l, (s.step p).events = s.events ++ l ∧
      ∀ e ws, (e, ws) ∈ l → e.eventType = .writeRange) →
      ∀ e ws, (e, ws) ∈ s.emittedBy p → e.eventType = .fsync →
        ¬ (s.step p).HasPending e.devId e.inode := by
    rintro ⟨l, hl, htype⟩ e ws he hfsync
    rw [emittedBy, hl, List.drop_left] at he
    rw [htype e ws he] at hfsync
    cases hfsync
  refine ⟨?_, ?_⟩
  · rintro call inode start stop rfl hwatched hknows
    have hwritten := (hsafe hwatched).2
    rwa [if_pos hknows] at hwritten
  cases p with
  | writeIter call inode dentry pos count kiFlags evicted =>
    apply hquiet
    obtain ⟨l, hl, htype⟩ := (s.markDirty call inode pos evicted).submitWriteRange_events call inode
      dentry pos count kiFlags true
    exact ⟨l, by rw [← s.markDirty_events call inode pos evicted]; exact hl, htype⟩
  | copyFileRange call inode dentry posOut len =>
    exact hquiet (s.submitWriteRange_events call inode dentry posOut len 0 true)
  | vfsFsync call inode dentry =>
    intro e ws he hfsync
    obtain ⟨l, hl, htype⟩ := s.flushPendingWrite_events call inode dentry
    obtain ⟨hagg, hev⟩ := (s.flushPendingWrite call inode dentry).submitFsync_events call inode dentry
    rcases hev with hev | ⟨hpid, hwatched, hres, f, hev, hdev, hino⟩
    · exact hquiet ⟨l, hev.trans hl, htype⟩ e ws he hfsync
    · have hpending : ¬ (s.flushPendingWrite call inode dentry).HasPending inode.dev inode.ino :=
        fsync_leaves_nothing dentry hsafe (by simpa using hpid) (by simpa using hwatched) hres
      have hmem : (e, ws) ∈ l ++ [(f, [])] := by
        have heq : (s.step (.vfsFsync call inode dentry)).events = s.events ++ (l ++ [(f, [])]) := by
          rw [← List.append_assoc, ← hl]
          exact hev
        rwa [emittedBy, heq, List.drop_left] at he
      rcases List.mem_append.mp hmem with hmem | hmem
      · rw [htype e ws hmem] at hfsync
        cases hfsync
      · rw [(Prod.mk.inj (List.mem_singleton.mp hmem)).1, hdev, hino]
        rintro ⟨c, pw, hlook, hw⟩
        exact hpending ⟨c, pw, by rw [← hagg]; exact hlook, hw⟩
  | filemapFdatawriteRange call inode start stop =>
    apply hquiet
    obtain ⟨l, hl, htype⟩ := s.flushPendingWrite_events call inode none
    simp only [Maps.step, traceFilemapFdatawriteRange]
    split
    · exact ⟨l, hl, htype⟩
    · obtain ⟨l', hl', htype'⟩ := (s.flushPendingWrite call inode none).submitWriteRange_events call
        inode none start (writebackLength start stop) 0 false
      refine ⟨l ++ l', by rw [hl', hl, List.append_assoc], ?_⟩
      intro e ws he
      rcases List.mem_append.mp he with he | he
      · exact htype e ws he
      · exact htype' e ws he
  | iomapWriteback call inode => exact hquiet (s.flushPendingWrite_events call inode none)

/-- Along a run of safe probes every state accounts for what was submitted, and every
probe is sound. -/
theorem accounted_of_safe (watchedDevs ignoredPids : List U32) (seq : U64)
    (probes : List (Probe C))
    (h : Run.Along Maps.step Safe (Maps.load watchedDevs ignoredPids seq) probes) :
    (∀ before, before <+: probes →
      ((Maps.load watchedDevs ignoredPids seq).run before).Accounted) ∧
    Run.Along Maps.step StepSound (Maps.load watchedDevs ignoredPids seq) probes := by
  refine ⟨?_, Run.along_mono Maps.step (fun s p => stepSound_of_safe) h⟩
  intro before hbefore
  have hkeeps := Run.invariant_prefix Maps.step (fun s p hsafe hs => Keeps.step hs hsafe) h
    (keeps_load watchedDevs ignoredPids seq) before hbefore
  exact Keeps.accounted hkeeps

local instance twoProcessors : NeZero 2 := ⟨by decide⟩

/-- A call on one of two processors, with room in the ring buffer. -/
def callOn (cpu : Fin 2) (ts : U64) : Call (Fin 2) where
  cpu := cpu
  tgid := 100
  interactive := false
  comm := "dd"
  ts := ts
  later := ts
  flushRoom := true
  room := true

def plainFile : Inode := ⟨1, 5, 0, 0o100644, 1, 0, 0, 0⟩

/-- A write on the first processor, then an fsync on the given one. -/
def writeThenFsync (cpu : Fin 2) : List (Probe (Fin 2)) :=
  [.writeIter (callOn 0 1000) plainFile (some ⟨some 2, "a"⟩) 0 10 7 [],
    .vfsFsync (callOn cpu 2000) plainFile (some ⟨some 2, "a"⟩)]

/-- An fsync on the processor that wrote flushes the write. -/
theorem accounted_writeThenFsync :
    (∀ before, before <+: writeThenFsync 0 → ((Maps.load [1] [9] 2).run before).Accounted) ∧
    Run.Along Maps.step StepSound (Maps.load [1] [9] 2) (writeThenFsync 0) := by
  apply accounted_of_safe
  refine ⟨?_, ?_, trivial⟩
  · intro _ _
    exact .inl (by decide +kernel)
  · intro _
    refine ⟨?_, fun _ => .inl (by decide +kernel)⟩
    intro pw hpw _
    have hlook : ((Maps.load [1] [9] 2).step (.writeIter (callOn 0 1000) plainFile
        (some ⟨some 2, "a"⟩) 0 10 7 [])).writeAggregator.lookup 0 5 =
        some ⟨0, 10, 1000, 7, [⟨0, 1, 5, 0, 10, 7⟩]⟩ := by decide +kernel
    obtain rfl := Option.some.inj (hpw.symm.trans hlook)
    exact ⟨by decide, by decide +kernel⟩

/-- An fsync on the other processor deletes the write that it has not seen. -/
theorem writeThenFsync_lost :
    ¬ ((∀ before, before <+: writeThenFsync 1 → ((Maps.load [1] [9] 2).run before).Accounted) ∧
      Run.Along Maps.step StepSound (Maps.load [1] [9] 2) (writeThenFsync 1)) := by
  rintro ⟨hall, -⟩
  have hcov := (hall (writeThenFsync 1) (List.prefix_refl _)).covered
    ⟨0, 1, 5, 0, 10, 7⟩ (by decide +kernel) (by decide +kernel) 0 (by decide)
  have hevents : ∀ x ∈ ((Maps.load [1] [9] 2).run (writeThenFsync 1)).events,
      ¬ Covers x.1.offset x.1.length 0 := by decide +kernel
  have hslots : ∀ c, ((Maps.load [1] [9] 2).run (writeThenFsync 1)).writeAggregator.lookup c 5 =
      none := by decide +kernel
  rcases hcov with ⟨e, ws, he, -, -, hb⟩ | ⟨c, pw, hpw, -⟩
  · exact hevents (e, ws) he hb
  · rw [hslots c] at hpw
    cases hpw

end Maps

end Foxing.Kernel
