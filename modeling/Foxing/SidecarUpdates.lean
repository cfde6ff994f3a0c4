import Mathlib.Data.List.Perm.Basic
import Mathlib.Data.List.Range
import Foxing.Lib.Pool
import Foxing.Lib.Run
import Foxing.Sidecar

/-!
# Concurrent updates of a sidecar

Any number of calls change the sidecar of one target. Each opens the file, takes its lock,
reads the map, writes it back and gives the lock up; a removal that leaves the map empty
unlinks the file before that. The lock is one of the inode that has been opened, which may
be unlinked by the time the lock is taken. What is written to it then is lost.

The content of an inode is the map in it; there is none in an empty file or in one that
is not a map of texts. A step may fail. The end of a call closes the file and with that
gives up its lock.
-/
namespace Foxing.Sidecar

/-- How far a call has come, with the inode it has opened and the map it has read. -/
inductive Progress where
  | start
  | found
  | opened (inode : ℕ)
  | locked (inode : ℕ)
  | read (inode : ℕ) (map : SidecarMap)
  | unlinking (inode : ℕ)
  | written (inode : ℕ)
  | returned
  | failed
  deriving DecidableEq

namespace Progress

/-- The inode that the call has open. -/
def inode : Progress → Option ℕ
  | .opened n | .locked n | .read n _ | .unlinking n | .written n => some n
  | _ => none

/-- The inode whose lock the call has. -/
def lock : Progress → Option ℕ
  | .locked n | .read n _ | .unlinking n | .written n => some n
  | _ => none

/-- The inode that the call is about to unlink. -/
def unlinks : Progress → Option ℕ
  | .unlinking n => some n
  | _ => none

/-- The call has had its effect. To one that is about to change an inode without a name there
is nothing left to do. -/
def Done (entry : Option ℕ) : Progress → Prop
  | .opened n | .locked n | .read n _ => entry ≠ some n
  | .unlinking _ | .written _ | .returned => True
  | .start | .found | .failed => False

end Progress

structure Call where
  op : SidecarOp
  progress : Progress
  deriving DecidableEq

/-- The directory entry of the sidecar, the inodes with their content and the call that has
their lock, and the calls. -/
structure Updates where
  entry : Option ℕ
  content : ℕ → Option SidecarMap
  holder : ℕ → Option ℕ
  nextInode : ℕ
  calls : List Call

inductive UpdateAction where
  | openFile (i : ℕ) (ok : Bool)
  | lockFile (i : ℕ) (ok : Bool)
  | readMap (i : ℕ) (ok : Bool)
  | rewrite (i : ℕ) (ok : Bool)
  | unlink (i : ℕ) (ok : Bool)
  | unlockFile (i : ℕ) (ok : Bool)
  deriving DecidableEq, Repr

namespace Updates
variable (s : Updates)

/-- The calls have not begun. The file may be there, with any content. -/
def initial (file : Option (Option SidecarMap)) (ops : List SidecarOp) : Updates where
  entry := if file.isSome then some 0 else none
  content := fun n => if n = 0 then file.join else none
  holder := fun _ => none
  nextInode := 1
  calls := ops.map (⟨·, .start⟩)

/-- The map in an inode. Where there is none the default is taken. -/
def mapIn (n : ℕ) : SidecarMap := (s.content n).getD ∅

/-- The map that a reader of the sidecar finds. -/
def contents : SidecarMap := s.entry.elim ∅ s.mapIn

def move (i : ℕ) (c : Call) (p : Progress) : Updates :=
  { s with calls := s.calls.set i { c with progress := p } }

def setContent (n : ℕ) (map : Option SidecarMap) : Updates :=
  { s with content := Function.update s.content n map }

def setHolder (n : ℕ) (i : Option ℕ) : Updates :=
  { s with holder := Function.update s.holder n i }

/-- The calls that set values create the file. A removal looks for it first, and returns if it
does not see it. -/
def openFile (i : ℕ) (c : Call) (ok : Bool) : Updates :=
  match c.op.isRemove, c.progress with
  | false, .start =>
    if ok then
      match s.entry with
      | some n => s.move i c (.opened n)
      | none =>
        { s.move i c (.opened s.nextInode) with
          entry := some s.nextInode
          nextInode := s.nextInode + 1 }
    else s.move i c .failed
  | true, .start => if s.entry.isSome && ok then s.move i c .found else s.move i c .returned
  | true, .found =>
    match s.entry, ok with
    | some n, true => s.move i c (.opened n)
    | _, _ => s.move i c .failed
  | _, _ => s

/-- The lock is waited for. A removal that cannot get it returns as if it were done. -/
def lockFile (i : ℕ) (c : Call) (ok : Bool) : Updates :=
  match c.progress with
  | .opened n =>
    if ok then
      if s.holder n = none then (s.setHolder n (some i)).move i c (.locked n) else s
    else s.move i c (if c.op.isRemove then .returned else .failed)
  | _ => s

/-- A map that cannot be read counts as empty. -/
def readMap (i : ℕ) (c : Call) (ok : Bool) : Updates :=
  match c.progress with
  | .locked n => s.move i c (.read n (if ok then s.mapIn n else ∅))
  | _ => s

def rewrite (i : ℕ) (c : Call) (ok : Bool) : Updates :=
  match c.progress with
  | .read n map =>
    if c.op.rewrites map then
      if ok then
        if c.op.isRemove && c.op.apply map = ∅ then
          (s.setContent n none).move i c (.unlinking n)
        else (s.setContent n (some (c.op.apply map))).move i c (.written n)
      else ((s.setContent n none).setHolder n none).move i c .failed
    else s.move i c (.written n)
  | _ => s

/-- Whatever has the name by now is unlinked. -/
def unlink (i : ℕ) (c : Call) (ok : Bool) : Updates :=
  match c.progress with
  | .unlinking n => { s.move i c (.written n) with entry := if ok then none else s.entry }
  | _ => s

def unlockFile (i : ℕ) (c : Call) (ok : Bool) : Updates :=
  match c.progress with
  | .written n =>
    (s.setHolder n none).move i c (if c.op.isRemove || ok then .returned else .failed)
  | _ => s

/-- A step of a call. -/
def withCall (i : ℕ) (f : Call → Updates) : Updates := s.calls[i]?.elim s f

def step : UpdateAction → Updates
  | .openFile i ok => s.withCall i (s.openFile i · ok)
  | .lockFile i ok => s.withCall i (s.lockFile i · ok)
  | .readMap i ok => s.withCall i (s.readMap i · ok)
  | .rewrite i ok => s.withCall i (s.rewrite i · ok)
  | .unlink i ok => s.withCall i (s.unlink i · ok)
  | .unlockFile i ok => s.withCall i (s.unlockFile i · ok)

/-! ## The order of the calls -/

def ops : List SidecarOp := s.calls.map Call.op

/-- Calls one after the other. -/
def replay (order : List ℕ) (map : SidecarMap) : SidecarMap :=
  (order.filterMap (s.ops[·]?)).foldl (fun map op => op.apply map) map

def IsDone (i : ℕ) : Prop := ∃ c, s.calls[i]? = some c ∧ c.progress.Done s.entry

/-- The sidecar is as the calls that are done leave it, in some order. -/
def Serial (first : SidecarMap) : Prop :=
  ∃ order : List ℕ, order.Nodup ∧ (∀ i, i ∈ order ↔ s.IsDone i) ∧ s.contents = s.replay order first

/-- What is known of a call: it has the lock that it has taken, the map it has read is the
one in the inode, and a call that sets values works on the inode that has the name. -/
structure CallOk (i : ℕ) (c : Call) : Prop where
  lt : ∀ n, c.progress.inode = some n → n < s.nextInode
  lock : ∀ n, c.progress.lock = some n → s.holder n = some i
  read : ∀ n map, c.progress = .read n map → map = s.mapIn n
  setter : c.op.isRemove = false → ∀ n, c.progress.inode = some n → s.entry = some n
  unlinking : ∀ n, c.progress = .unlinking n →
    c.op.isRemove = true ∧ s.entry = some n ∧ s.mapIn n = ∅

/-- An inode without the name has nothing in it. -/
structure Inv (first : SidecarMap) : Prop where
  entry_lt : ∀ n, s.entry = some n → n < s.nextInode
  orphan : ∀ n, s.entry ≠ some n → s.mapIn n = ∅
  calls : ∀ i c, s.calls[i]? = some c → s.CallOk i c
  serial : s.Serial first

section Steps
variable {s} {s' : Updates} {first : SidecarMap} {i : ℕ} {c : Call} {p : Progress}

/-- Calls that have had their effect by now come after those before. -/
theorem Serial.append (h : s.Serial first) (hops : s'.ops = s.ops) (extra : List ℕ)
    (hnodup : extra.Nodup) (hnew : ∀ j ∈ extra, ¬ s.IsDone j)
    (hdone : ∀ j, s'.IsDone j ↔ s.IsDone j ∨ j ∈ extra)
    (hcontents : s'.contents = s.replay extra s.contents) : s'.Serial first := by
  obtain ⟨order, horder, hmem, heq⟩ := h
  refine ⟨order ++ extra, ?_, fun j => ?_, ?_⟩
  · refine horder.append hnodup fun j hj hextra => ?_
    exact hnew j hextra ((hmem j).mp hj)
  · rw [List.mem_append, hmem, hdone]
  · rw [hcontents, heq, replay, replay, replay, hops, List.filterMap_append, List.foldl_append]

theorem ops_set (hi : s.calls[i]? = some c)
    (hcalls : s'.calls = s.calls.set i { c with progress := p }) : s'.ops = s.ops := by
  obtain ⟨before, after, heq, hset, -⟩ := Pool.split hi
  rw [ops, ops, hcalls, hset, heq]
  simp

theorem getElem?_set (hi : s.calls[i]? = some c)
    (hcalls : s'.calls = s.calls.set i { c with progress := p }) (j : ℕ) :
    s'.calls[j]? = if j = i then some { c with progress := p } else s.calls[j]? := by
  obtain ⟨hlt, -⟩ := List.getElem?_eq_some_iff.mp hi
  rw [hcalls, List.getElem?_set]
  split_ifs with hij hji hji
  · rfl
  · exact absurd hij.symm hji
  · exact absurd hji.symm hij
  · rfl

/-- Which calls are done after a step of one of them. -/
theorem isDone_set (hi : s.calls[i]? = some c)
    (hcalls : s'.calls = s.calls.set i { c with progress := p })
    (hother : ∀ j d, j ≠ i → s.calls[j]? = some d →
      (d.progress.Done s'.entry ↔ d.progress.Done s.entry)) (j : ℕ) :
    s'.IsDone j ↔ if j = i then p.Done s'.entry else s.IsDone j := by
  unfold IsDone
  rw [getElem?_set hi hcalls]
  split_ifs with hji
  · simp
  · constructor
    · rintro ⟨d, hd, hdone⟩
      exact ⟨d, hd, (hother j d hji hd).mp hdone⟩
    · rintro ⟨d, hd, hdone⟩
      exact ⟨d, hd, (hother j d hji hd).mpr hdone⟩

theorem isDone_self (hi : s.calls[i]? = some c) : s.IsDone i ↔ c.progress.Done s.entry := by
  simp [IsDone, hi]

/-- A step of a call that has no effect on the order. -/
theorem Serial.keep (h : s.Serial first) (hi : s.calls[i]? = some c)
    (hcalls : s'.calls = s.calls.set i { c with progress := p })
    (hother : ∀ j d, j ≠ i → s.calls[j]? = some d →
      (d.progress.Done s'.entry ↔ d.progress.Done s.entry))
    (hself : p.Done s'.entry ↔ c.progress.Done s.entry) (hcontents : s'.contents = s.contents) :
    s'.Serial first := by
  refine h.append (ops_set hi hcalls) [] List.nodup_nil (by simp) (fun j => ?_) hcontents
  rw [isDone_set hi hcalls hother]
  split_ifs with hji
  · rw [hself, hji, isDone_self hi]
    simp
  · simp

/-- A step by which a call has its effect. -/
theorem Serial.perform (h : s.Serial first) (hi : s.calls[i]? = some c)
    (hcalls : s'.calls = s.calls.set i { c with progress := p })
    (hother : ∀ j d, j ≠ i → s.calls[j]? = some d →
      (d.progress.Done s'.entry ↔ d.progress.Done s.entry))
    (hbefore : ¬ c.progress.Done s.entry) (hself : p.Done s'.entry)
    (hcontents : s'.contents = c.op.apply s.contents) : s'.Serial first := by
  have hnot : ¬ s.IsDone i := by rwa [isDone_self hi]
  refine h.append (ops_set hi hcalls) [i] (List.nodup_singleton i) (by simpa using hnot)
    (fun j => ?_) ?_
  · rw [isDone_set hi hcalls hother]
    split_ifs with hji
    · simp [hself, hji]
    · simp [hji]
  · simp [hcontents, replay, ops, hi]

/-- The invariant after a step of one call. -/
theorem Inv.set (h : s.Inv first) (hi : s.calls[i]? = some c)
    (hcalls : s'.calls = s.calls.set i { c with progress := p })
    (hentry : ∀ n, s'.entry = some n → n < s'.nextInode)
    (horphan : ∀ n, s'.entry ≠ some n → s'.mapIn n = ∅)
    (hself : s'.CallOk i { c with progress := p })
    (hother : ∀ j d, j ≠ i → s.calls[j]? = some d → s.CallOk j d → s'.CallOk j d)
    (hserial : s'.Serial first) : s'.Inv first := by
  refine ⟨hentry, horphan, fun j d hj => ?_, hserial⟩
  rw [getElem?_set hi hcalls] at hj
  split_ifs at hj with hji
  · obtain rfl := Option.some.inj hj
    rw [hji]
    exact hself
  · exact hother j d hji hj (h.calls j d hj)

/-- A call goes by the name, its lock and the map under its lock. -/
theorem CallOk.frame {j : ℕ} {d : Call} (h : s.CallOk j d) (hentry : s'.entry = s.entry)
    (hnext : s'.nextInode = s.nextInode)
    (hlock : ∀ n, d.progress.lock = some n → s'.holder n = some j ∧ s'.mapIn n = s.mapIn n) :
    s'.CallOk j d := by
  refine ⟨fun n hn => ?_, fun n hn => (hlock n hn).1, fun n map hread => ?_, fun hset n hn => ?_,
    fun n hunlinking => ?_⟩
  · rw [hnext]
    exact h.lt n hn
  · rw [(hlock n (by rw [hread]; rfl)).2]
    exact h.read n map hread
  · rw [hentry]
    exact h.setter hset n hn
  · rw [hentry, (hlock n (by rw [hunlinking]; rfl)).2]
    exact h.unlinking n hunlinking

/-- A call moves on without a change of the files. The locks of the others stay. -/
theorem Inv.moved (h : s.Inv first) (hi : s.calls[i]? = some c) (holder : ℕ → Option ℕ)
    (hholder : ∀ n j, j ≠ i → s.holder n = some j → holder n = some j)
    (hself : CallOk { s with holder } i { c with progress := p })
    (hdone : (p.Done s.entry ↔ c.progress.Done s.entry) ∨
      (¬ c.progress.Done s.entry ∧ p.Done s.entry ∧ c.op.apply s.contents = s.contents)) :
    (Updates.move { s with holder } i c p).Inv first := by
  refine h.set hi rfl h.entry_lt h.orphan ⟨hself.lt, hself.lock, hself.read, hself.setter,
    hself.unlinking⟩ (fun j d hji hj hd => ?_) ?_
  · exact hd.frame rfl rfl fun n hn => ⟨hholder n j hji (hd.lock n hn), rfl⟩
  · rcases hdone with hsame | ⟨hbefore, hafter, heffect⟩
    · exact h.serial.keep hi rfl (fun _ _ _ _ => Iff.rfl) hsame rfl
    · exact h.serial.perform hi rfl (fun _ _ _ _ => Iff.rfl) hbefore hafter heffect.symm

/-- A call changes the inode that has the name and that it has the lock of. -/
theorem Inv.put (h : s.Inv first) (hi : s.calls[i]? = some c) {n : ℕ} {map : SidecarMap}
    (hread : c.progress = .read n map) (hentry : s.entry = some n) (new : Option SidecarMap)
    (hnew : new.getD ∅ = c.op.apply map)
    (hp : p = .written n ∨ (p = .unlinking n ∧ c.op.isRemove = true ∧ new.getD ∅ = ∅)) :
    ((s.setContent n new).move i c p).Inv first := by
  have hc := h.calls i c hi
  have hholder : s.holder n = some i := hc.lock n (by rw [hread]; rfl)
  have hmap : map = s.mapIn n := hc.read n map hread
  have hlt : n < s.nextInode := h.entry_lt n hentry
  have hput : ((s.setContent n new).move i c p).mapIn n = new.getD ∅ := by
    simp [mapIn, setContent, move]
  have hkeep : ∀ m, m ≠ n → ((s.setContent n new).move i c p).mapIn m = s.mapIn m := by
    intro m hne
    simp [mapIn, setContent, move, Function.update_of_ne hne]
  have hinode : p.inode = some n := by
    rcases hp with rfl | ⟨rfl, -⟩ <;> rfl
  have hlock : p.lock = some n := by
    rcases hp with rfl | ⟨rfl, -⟩ <;> rfl
  refine h.set hi rfl h.entry_lt (fun m hm => ?_) ⟨fun m hm => ?_, fun m hm => ?_, fun m map' hm => ?_,
    fun _ m hm => ?_, fun m hm => ?_⟩ (fun j d hji hj hd => ?_) ?_
  · have hne : m ≠ n := fun heq => hm (heq ▸ hentry)
    rw [hkeep m hne]
    exact h.orphan m hm
  · obtain rfl := Option.some.inj (hinode.symm.trans hm)
    exact hlt
  · obtain rfl := Option.some.inj (hlock.symm.trans hm)
    exact hholder
  · rcases hp with rfl | ⟨rfl, -⟩ <;> cases hm
  · obtain rfl := Option.some.inj (hinode.symm.trans hm)
    exact hentry
  · rcases hp with rfl | ⟨rfl, hremove, hempty⟩
    · cases hm
    · cases hm
      exact ⟨hremove, hentry, by rw [hput, hempty]⟩
  · refine hd.frame rfl rfl fun m hm => ⟨hd.lock m hm, hkeep m ?_⟩
    rintro rfl
    exact hji (Option.some.inj ((hd.lock m hm).symm.trans hholder))
  · refine h.serial.perform hi rfl (fun _ _ _ _ => Iff.rfl) ?_ ?_ ?_
    · rw [hread]
      exact fun hne => hne hentry
    · rcases hp with rfl | ⟨rfl, -⟩ <;> trivial
    · have hbefore : s.contents = map := by
        rw [contents, hentry, hmap]
        rfl
      have hafter : ((s.setContent n new).move i c p).contents = new.getD ∅ := by
        rw [← hput]
        exact congrArg (Option.elim · ∅ _) hentry
      rw [hafter, hnew, hbefore]

/-- The file is created. No call was at work on an inode with the name. -/
theorem Inv.created (h : s.Inv first) (hi : s.calls[i]? = some c) (hstart : c.progress = .start)
    (hentry : s.entry = none) :
    Inv { s.move i c (.opened s.nextInode) with
      entry := some s.nextInode
      nextInode := s.nextInode + 1 } first := by
  have hempty : ∀ n, s.mapIn n = ∅ := fun n => h.orphan n (by simp [hentry])
  refine h.set hi rfl (fun n hn => ?_) (fun n _ => hempty n) ⟨fun n hn => ?_, fun n hn => ?_,
    fun n map hn => ?_, fun _ n hn => hn, fun n hn => ?_⟩ (fun j d _ _ hd => ?_) ?_
  · obtain rfl := Option.some.inj hn
    exact Nat.lt_succ_self _
  · obtain rfl := Option.some.inj hn
    exact Nat.lt_succ_self _
  · cases hn
  · cases hn
  · cases hn
  · refine ⟨fun n hn => Nat.lt_succ_of_lt (hd.lt n hn), hd.lock, hd.read, fun hset n hn => ?_,
      fun n hn => ?_⟩
    · have := hd.setter hset n hn
      rw [hentry] at this
      cases this
    · have := (hd.unlinking n hn).2.1
      rw [hentry] at this
      cases this
  · refine h.serial.keep hi rfl (fun j d _ hj => ?_) ?_ ?_
    · -- The inodes that the others have open are older.
      have hlt := (h.calls j d hj).lt
      cases hprogress : d.progress with
      | opened n | locked n | read n map =>
        have hne : s.nextInode ≠ n := by
          have := hlt n (by rw [hprogress]; rfl)
          omega
        simp [Progress.Done, hentry, hne]
      | start | found | unlinking n | written n | returned | failed => rfl
    · rw [hstart]
      simp [Progress.Done]
    · rw [contents, contents, hentry]
      exact hempty s.nextInode

/-- The calls that have opened an inode and have not got its lock. -/
def openers (s : Updates) (n : ℕ) : List ℕ :=
  (List.range s.calls.length).filter fun j => s.calls[j]?.any (·.progress = .opened n)

theorem mem_openers {n j : ℕ} :
    j ∈ s.openers n ↔ ∃ d, s.calls[j]? = some d ∧ d.progress = .opened n := by
  unfold openers
  rw [List.mem_filter, List.mem_range]
  cases hj : s.calls[j]? with
  | none => simp
  | some d =>
    obtain ⟨hlt, -⟩ := List.getElem?_eq_some_iff.mp hj
    simp [hlt]

/-- Removals change nothing in an empty sidecar. -/
theorem replay_removes (s : Updates) (order : List ℕ)
    (h : ∀ j ∈ order, ∀ d, s.calls[j]? = some d → d.op.isRemove = true) :
    s.replay order ∅ = ∅ := by
  unfold replay
  induction order with
  | nil => rfl
  | cons j order ih =>
    have ih := ih fun j' hj' => h j' (List.mem_cons_of_mem _ hj')
    rw [List.filterMap_cons]
    cases hj : s.calls[j]? with
    | none => simpa [ops, hj] using ih
    | some d =>
      have hremove := h j (List.mem_cons_self ..) d hj
      have hop : s.ops[j]? = some d.op := by simp [ops, hj]
      rw [hop, List.foldl_cons, SidecarOp.apply_of_not_rewrites (SidecarOp.rewrites_empty hremove)]
      exact ih

/-- Who else has the inode open waits for its lock. -/
theorem Inv.waits_of_unlinking (h : s.Inv first) (hi : s.calls[i]? = some c) {n : ℕ}
    (hprogress : c.progress = .unlinking n) {j : ℕ} {d : Call} (hji : j ≠ i)
    (hj : s.calls[j]? = some d) : d.progress.lock ≠ some n := by
  intro hlock
  have hself : s.holder n = some i := (h.calls i c hi).lock n (by rw [hprogress]; rfl)
  exact hji (Option.some.inj (((h.calls j d hj).lock n hlock).symm.trans hself))

/-- Those who have the inode open are done when it loses the name. -/
theorem Inv.isDone_unlinked (h : s.Inv first) (hi : s.calls[i]? = some c) {n : ℕ}
    (hprogress : c.progress = .unlinking n) (j : ℕ) :
    IsDone { s.move i c (.written n) with entry := none } j ↔ s.IsDone j ∨ j ∈ s.openers n := by
  obtain ⟨-, hentry, -⟩ := (h.calls i c hi).unlinking n hprogress
  rw [mem_openers]
  unfold IsDone
  rw [getElem?_set hi rfl]
  by_cases hji : j = i
  · subst hji
    simp [hi, hprogress, Progress.Done]
  · rw [if_neg hji]
    cases hj : s.calls[j]? with
    | none => simp
    | some d =>
      have hlock := h.waits_of_unlinking hi hprogress hji hj
      cases hd : d.progress with
      | opened m => by_cases heq : n = m <;> simp [hd, hentry, Progress.Done, heq, eq_comm]
      | locked m | read m map =>
        have hne : n ≠ m := by
          rintro rfl
          exact hlock (by rw [hd]; rfl)
        simp [hd, hentry, Progress.Done, hne]
      | start | found | unlinking m | written m | returned | failed => simp [hd, Progress.Done]

/-- The file is unlinked while nobody who sets values has it open. Those who have it open have
come to their end with that. -/
theorem Inv.unlinked (h : s.Inv first) (hi : s.calls[i]? = some c) {n : ℕ}
    (hprogress : c.progress = .unlinking n)
    (hopen : ∀ d ∈ s.calls, d.op.isRemove = false → d.progress ≠ .opened n) :
    Inv { s.move i c (.written n) with entry := none } first := by
  have hc := h.calls i c hi
  obtain ⟨hremove, hentry, hempty⟩ := hc.unlinking n hprogress
  have hholder : s.holder n = some i := hc.lock n (by rw [hprogress]; rfl)
  have hnone : ∀ m, s.mapIn m = ∅ := by
    intro m
    by_cases heq : s.entry = some m
    · obtain rfl := Option.some.inj (hentry.symm.trans heq)
      exact hempty
    · exact h.orphan m heq
  refine h.set hi rfl (fun m hm => by cases hm) (fun m _ => hnone m) ⟨fun m hm => ?_, fun m hm => ?_,
    fun m map hm => ?_, fun hset => ?_, fun m hm => ?_⟩ (fun j d hji hj hd => ?_) ?_
  · obtain rfl := Option.some.inj hm
    exact h.entry_lt n hentry
  · obtain rfl := Option.some.inj hm
    exact hholder
  · cases hm
  · rw [hremove] at hset
    cases hset
  · cases hm
  · refine ⟨hd.lt, hd.lock, hd.read, fun hset m hm => ?_, fun m hm => ?_⟩
    · obtain rfl := Option.some.inj (hentry.symm.trans (hd.setter hset m hm))
      have hlock := h.waits_of_unlinking hi hprogress hji hj
      have hnot := hopen d (List.mem_of_getElem? hj) hset
      cases hd' : d.progress with
      | opened m => simp_all [Progress.inode]
      | locked m | read m map | unlinking m | written m => simp_all [Progress.inode, Progress.lock]
      | start | found | returned | failed => simp [hd', Progress.inode] at hm
    · obtain rfl := Option.some.inj (hentry.symm.trans (hd.unlinking m hm).2.1)
      exact absurd (by rw [hm]; rfl) (h.waits_of_unlinking hi hprogress hji hj)
  · refine h.serial.append (ops_set hi rfl) (s.openers n) (List.nodup_range.filter _)
      (fun j hj hdone => ?_) (fun j => ?_) ?_
    · obtain ⟨d, hj, hd⟩ := mem_openers.mp hj
      rw [isDone_self hj, hd] at hdone
      exact hdone hentry
    · exact h.isDone_unlinked hi hprogress j
    · have hbefore : s.contents = ∅ := by
        rw [contents, hentry]
        exact hempty
      rw [hbefore, replay_removes]
      · rfl
      · intro j hj d hd
        obtain ⟨d', hd', hopened⟩ := mem_openers.mp hj
        obtain rfl := Option.some.inj (hd.symm.trans hd')
        by_contra hset
        exact hopen d (List.mem_of_getElem? hd) (by simpa using hset) hopened

/-- A call that returned with an error. -/
def Failed (s : Updates) : Prop := ∃ (i : ℕ) (c : Call), s.calls[i]? = some c ∧ c.progress = .failed

theorem failed_move (hi : s.calls[i]? = some c)
    (hcalls : s'.calls = s.calls.set i { c with progress := .failed }) : s'.Failed := by
  refine ⟨i, { c with progress := .failed }, ?_, rfl⟩
  rw [getElem?_set hi hcalls, if_pos rfl]

/-- A call that has no file open. -/
theorem callOk_of_closed {d : Call} (hnone : d.progress.inode = none) : s.CallOk i d := by
  refine ⟨fun n hn => ?_, fun n hn => ?_, fun n map hn => ?_, fun _ n hn => ?_, fun n hn => ?_⟩
  · rw [hnone] at hn
    cases hn
  · cases hd : d.progress <;> simp_all [Progress.inode, Progress.lock]
  · simp [hn, Progress.inode] at hnone
  · rw [hnone] at hn
    cases hn
  · simp [hn, Progress.inode] at hnone

theorem callOk_opened (h : s.Inv first) {n : ℕ} (hentry : s.entry = some n) :
    s.CallOk i { c with progress := .opened n } := by
  refine ⟨fun m hm => ?_, fun m hm => ?_, fun m map hm => ?_, fun _ m hm => ?_, fun m hm => ?_⟩
  · obtain rfl := Option.some.inj hm
    exact h.entry_lt n hentry
  · cases hm
  · cases hm
  · obtain rfl := Option.some.inj hm
    exact hentry
  · cases hm

/-- A call that goes on with the inode that it has open. -/
theorem CallOk.advance (hc : s.CallOk i c) (holder : ℕ → Option ℕ)
    (hinode : p.inode = c.progress.inode) (hlock : ∀ n, p.lock = some n → holder n = some i)
    (hread : ∀ n map, p = .read n map → map = s.mapIn n) (hunlinks : p.unlinks = none) :
    CallOk { s with holder } i { c with progress := p } := by
  refine ⟨fun n hn => hc.lt n (hinode ▸ hn), hlock, hread, fun hset n hn => ?_, fun n hn => ?_⟩
  · exact hc.setter hset n (hinode ▸ hn)
  · rw [show p = _ from hn] at hunlinks
    cases hunlinks

/-- No removal sees a file that is there as missing or fails to lock it, no map is lost in
reading, and no file is unlinked while a call that sets values has opened it and waits for the
lock. -/
def Orderly (s : Updates) : UpdateAction → Prop
  | .openFile i ok =>
    ∀ c ∈ s.calls[i]?, c.op.isRemove = true → c.progress = .start → ok = true
  | .lockFile i ok => ∀ c ∈ s.calls[i]?, c.op.isRemove = true → ok = true
  | .readMap _ ok => ok = true
  | .unlink i ok => ok = true → ∀ c ∈ s.calls[i]?, ∀ n ∈ c.progress.unlinks,
      ∀ d ∈ s.calls, d.op.isRemove = false → d.progress ≠ .opened n
  | .rewrite _ _ | .unlockFile _ _ => True

instance decidableOrderly (s : Updates) : ∀ a, Decidable (s.Orderly a)
  | .openFile i ok => inferInstanceAs (Decidable (∀ c ∈ s.calls[i]?, c.op.isRemove = true →
      c.progress = .start → ok = true))
  | .lockFile i ok =>
    inferInstanceAs (Decidable (∀ c ∈ s.calls[i]?, c.op.isRemove = true → ok = true))
  | .readMap _ ok => inferInstanceAs (Decidable (ok = true))
  | .unlink i ok => inferInstanceAs (Decidable (ok = true → ∀ c ∈ s.calls[i]?,
      ∀ n ∈ c.progress.unlinks, ∀ d ∈ s.calls, d.op.isRemove = false → d.progress ≠ .opened n))
  | .rewrite _ _ | .unlockFile _ _ => inferInstanceAs (Decidable True)

theorem Inv.openFile (h : s.Inv first) (hi : s.calls[i]? = some c) {ok : Bool}
    (hok : c.op.isRemove = true → c.progress = .start → ok = true) :
    (s.openFile i c ok).Inv first ∨ (s.openFile i c ok).Failed := by
  unfold Updates.openFile
  split
  next hset hstart =>
    split_ifs
    · cases hentry : s.entry with
      | some n =>
        refine .inl (h.moved hi s.holder (fun _ _ _ hj => hj) (callOk_opened h hentry) (.inl ?_))
        rw [hstart]
        simp [Progress.Done, hentry]
      | none => exact .inl (h.created hi hstart hentry)
    · exact .inr (failed_move hi rfl)
  next hremove hstart =>
    obtain rfl := hok hremove hstart
    rw [Bool.and_true]
    split_ifs with hfound
    · refine .inl (h.moved hi s.holder (fun _ _ _ hj => hj) (callOk_of_closed rfl) (.inl ?_))
      rw [hstart]
      rfl
    · -- There is no sidecar: nothing is to be removed.
      have hempty : s.contents = ∅ := by
        rw [contents, Option.not_isSome_iff_eq_none.mp hfound]
        rfl
      refine .inl (h.moved hi s.holder (fun _ _ _ hj => hj) (callOk_of_closed rfl)
        (.inr ⟨?_, trivial, ?_⟩))
      · rw [hstart]
        exact fun hdone => hdone
      · rw [hempty]
        exact SidecarOp.apply_of_not_rewrites (SidecarOp.rewrites_empty hremove)
  next hremove hfound =>
    split
    next n hentry =>
      refine .inl (h.moved hi s.holder (fun _ _ _ hj => hj) (callOk_opened h hentry) (.inl ?_))
      rw [hfound]
      simp [Progress.Done, hentry]
    next => exact .inr (failed_move hi rfl)
  next => exact .inl h

theorem Inv.lockFile (h : s.Inv first) (hi : s.calls[i]? = some c) {ok : Bool}
    (hok : c.op.isRemove = true → ok = true) :
    (s.lockFile i c ok).Inv first ∨ (s.lockFile i c ok).Failed := by
  unfold Updates.lockFile
  split
  next n hopened =>
    have hc := h.calls i c hi
    split_ifs with htrue hfree
    · refine .inl (h.moved hi _ (fun m j hji hj => ?_)
        (hc.advance _ (by rw [hopened]; rfl) (fun m hm => ?_) (fun m map hm => ?_) rfl) (.inl ?_))
      · have hne : m ≠ n := by
          rintro rfl
          rw [hfree] at hj
          cases hj
        rw [Function.update_of_ne hne]
        exact hj
      · obtain rfl := Option.some.inj hm
        exact Function.update_self ..
      · cases hm
      · rw [hopened]
        rfl
    · exact .inl h
    · exact absurd (hok ‹_›) htrue
    · exact .inr (failed_move hi rfl)
  next => exact .inl h

theorem Inv.readMap (h : s.Inv first) (hi : s.calls[i]? = some c) :
    (s.readMap i c true).Inv first := by
  unfold Updates.readMap
  split
  next n hlocked =>
    have hc := h.calls i c hi
    refine h.moved hi s.holder (fun _ _ _ hj => hj)
      (hc.advance _ (by rw [hlocked]; rfl) (fun m hm => ?_) (fun m map hm => ?_) rfl) (.inl ?_)
    · exact hc.lock m (by rw [hlocked]; exact hm)
    · cases hm
      rfl
    · rw [hlocked]
      rfl
  next => exact h

/-- Where there is something to be written, the inode has the name. -/
theorem Inv.named_of_rewrites (h : s.Inv first) (hi : s.calls[i]? = some c) {n : ℕ}
    {map : SidecarMap} (hread : c.progress = .read n map) (hrewrites : c.op.rewrites map = true) :
    s.entry = some n := by
  have hc := h.calls i c hi
  cases hremove : c.op.isRemove with
  | false => exact hc.setter hremove n (by rw [hread]; rfl)
  | true =>
    by_contra hentry
    rw [hc.read n map hread, h.orphan n hentry, SidecarOp.rewrites_empty hremove] at hrewrites
    cases hrewrites

theorem Inv.rewrite (h : s.Inv first) (hi : s.calls[i]? = some c) (ok : Bool) :
    (s.rewrite i c ok).Inv first ∨ (s.rewrite i c ok).Failed := by
  unfold Updates.rewrite
  split
  next n map hread =>
    have hc := h.calls i c hi
    have hmap := hc.read n map hread
    split_ifs with hrewrites htrue hempty
    · obtain ⟨hremove, hempty⟩ := Bool.and_eq_true_iff.mp hempty
      have hempty := of_decide_eq_true hempty
      exact .inl (h.put hi hread (h.named_of_rewrites hi hread hrewrites) none hempty.symm
        (.inr ⟨rfl, hremove, rfl⟩))
    · exact .inl (h.put hi hread (h.named_of_rewrites hi hread hrewrites) _ rfl (.inl rfl))
    · exact .inr (failed_move hi rfl)
    · have hsame := SidecarOp.apply_of_not_rewrites (Bool.eq_false_iff.mpr hrewrites)
      refine .inl (h.moved hi s.holder (fun _ _ _ hj => hj)
        (hc.advance _ (by rw [hread]; rfl) (fun m hm => ?_) (fun m map hm => ?_) rfl) ?_)
      · exact hc.lock m (by rw [hread]; exact hm)
      · cases hm
      · rw [hread]
        by_cases hentry : s.entry = some n
        · have hcontents : s.contents = map := by
            rw [contents, hentry, hmap]
            rfl
          exact .inr ⟨fun hdone => hdone hentry, trivial, by rw [hcontents, hsame]⟩
        · exact .inl ⟨fun _ => hentry, fun _ => trivial⟩
  next => exact .inl h

theorem Inv.unlink (h : s.Inv first) (hi : s.calls[i]? = some c) {ok : Bool}
    (hopen : ok = true → ∀ n ∈ c.progress.unlinks, ∀ d ∈ s.calls, d.op.isRemove = false →
      d.progress ≠ .opened n) : (s.unlink i c ok).Inv first := by
  unfold Updates.unlink
  split
  next n hunlinking =>
    cases ok with
    | true => exact h.unlinked hi hunlinking (hopen rfl n (by rw [hunlinking]; rfl))
    | false =>
      have hc := h.calls i c hi
      refine h.moved hi s.holder (fun _ _ _ hj => hj)
        (hc.advance _ (by rw [hunlinking]; rfl) (fun m hm => ?_) (fun m map hm => ?_) rfl) (.inl ?_)
      · exact hc.lock m (by rw [hunlinking]; exact hm)
      · cases hm
      · rw [hunlinking]
        rfl
  next => exact h

theorem Inv.unlockFile (h : s.Inv first) (hi : s.calls[i]? = some c) (ok : Bool) :
    (s.unlockFile i c ok).Inv first ∨ (s.unlockFile i c ok).Failed := by
  unfold Updates.unlockFile
  split
  next n hwritten =>
    have hc := h.calls i c hi
    split_ifs
    · refine .inl (h.moved hi _ (fun m j hji hj => ?_) (callOk_of_closed rfl) (.inl ?_))
      · have hne : m ≠ n := by
          rintro rfl
          exact hji (Option.some.inj (hj.symm.trans (hc.lock m (by rw [hwritten]; rfl))))
        rw [Function.update_of_ne hne]
        exact hj
      · rw [hwritten]
        rfl
    · exact .inr (failed_move hi rfl)
  next => exact .inl h

theorem Inv.step (h : s.Inv first) {a : UpdateAction} (horderly : s.Orderly a) :
    (s.step a).Inv first ∨ (s.step a).Failed := by
  have hcall : ∀ (i : ℕ) (f : Call → Updates),
      (∀ c, s.calls[i]? = some c → (f c).Inv first ∨ (f c).Failed) →
      (s.withCall i f).Inv first ∨ (s.withCall i f).Failed := by
    intro i f hf
    unfold withCall
    cases hi : s.calls[i]? with
    | none => exact .inl h
    | some c => exact hf c hi
  cases a with
  | openFile i ok => exact hcall i _ fun c hi => h.openFile hi (horderly c hi)
  | lockFile i ok => exact hcall i _ fun c hi => h.lockFile hi (horderly c hi)
  | readMap i ok =>
    obtain rfl : ok = true := horderly
    exact hcall i _ fun c hi => .inl (h.readMap hi)
  | rewrite i ok => exact hcall i _ fun c hi => h.rewrite hi ok
  | unlink i ok => exact hcall i _ fun c hi => .inl (h.unlink hi fun hok => horderly hok c hi)
  | unlockFile i ok => exact hcall i _ fun c hi => h.unlockFile hi ok

/-- A step moves one call, which has not failed, or none. -/
def Moves (s s' : Updates) : Prop :=
  s'.calls = s.calls ∨ ∃ (i : ℕ) (c : Call) (p : Progress), s.calls[i]? = some c ∧
    c.progress ≠ .failed ∧ s'.calls = s.calls.set i { c with progress := p }

theorem moves_step (s : Updates) (a : UpdateAction) : s.Moves (s.step a) := by
  have hcall : ∀ (i : ℕ) (f : Call → Updates),
      (∀ c, (f c).calls = s.calls ∨ ∃ p, c.progress ≠ .failed ∧
        (f c).calls = s.calls.set i { c with progress := p }) → s.Moves (s.withCall i f) := by
    intro i f hf
    unfold withCall
    cases hi : s.calls[i]? with
    | none => exact .inl rfl
    | some c =>
      rcases hf c with hsame | ⟨p, hne, hset⟩
      · exact .inl hsame
      · exact .inr ⟨i, c, p, hi, hne, hset⟩
  cases a with
  | openFile i ok =>
    refine hcall i _ fun c => ?_
    unfold Updates.openFile
    split
    next _ hc =>
      split_ifs
      · split <;> exact .inr ⟨_, by simp [hc], rfl⟩
      · exact .inr ⟨_, by simp [hc], rfl⟩
    next _ hc => split_ifs <;> exact .inr ⟨_, by simp [hc], rfl⟩
    next _ hc => split <;> exact .inr ⟨_, by simp [hc], rfl⟩
    next => exact .inl rfl
  | lockFile i ok =>
    refine hcall i _ fun c => ?_
    unfold Updates.lockFile
    split
    next n hc =>
      split_ifs
      · exact .inr ⟨_, by simp [hc], rfl⟩
      · exact .inl rfl
      · exact .inr ⟨_, by simp [hc], rfl⟩
      · exact .inr ⟨_, by simp [hc], rfl⟩
    next => exact .inl rfl
  | readMap i ok =>
    refine hcall i _ fun c => ?_
    unfold Updates.readMap
    split
    next n hc => exact .inr ⟨_, by simp [hc], rfl⟩
    next => exact .inl rfl
  | rewrite i ok =>
    refine hcall i _ fun c => ?_
    unfold Updates.rewrite
    split
    next n map hc => split_ifs <;> exact .inr ⟨_, by simp [hc], rfl⟩
    next => exact .inl rfl
  | unlink i ok =>
    refine hcall i _ fun c => ?_
    unfold Updates.unlink
    split
    next n hc => exact .inr ⟨_, by simp [hc], rfl⟩
    next => exact .inl rfl
  | unlockFile i ok =>
    refine hcall i _ fun c => ?_
    unfold Updates.unlockFile
    split
    next n hc => exact .inr ⟨_, by simp [hc], rfl⟩
    next => exact .inl rfl

/-- A call that has failed makes no more steps. -/
theorem Failed.step (h : s.Failed) (a : UpdateAction) : (s.step a).Failed := by
  obtain ⟨j, d, hj, hfailed⟩ := h
  rcases s.moves_step a with hsame | ⟨i, c, p, hi, hne, hset⟩
  · exact ⟨j, d, by rw [hsame, hj], hfailed⟩
  · have hji : j ≠ i := by
      rintro rfl
      obtain rfl := Option.some.inj (hi.symm.trans hj)
      exact hne hfailed
    exact ⟨j, d, by rw [getElem?_set hi hset, if_neg hji, hj], hfailed⟩

theorem ops_step (s : Updates) (a : UpdateAction) : (s.step a).ops = s.ops := by
  rcases s.moves_step a with hsame | ⟨i, c, p, hi, -, hset⟩
  · rw [ops, ops, hsame]
  · exact ops_set hi hset

theorem inv_initial (file : Option (Option SidecarMap)) (ops : List SidecarOp) :
    (initial file ops).Inv (initial file ops).contents := by
  have hstart : ∀ (i : ℕ) (c : Call), (initial file ops).calls[i]? = some c → c.progress = .start := by
    intro i c hi
    obtain ⟨op, -, rfl⟩ := List.mem_map.mp (List.mem_of_getElem? hi)
    rfl
  refine ⟨fun n hn => ?_, fun n hn => ?_, fun i c hi => ?_, [], List.nodup_nil, fun i => ?_, rfl⟩
  · cases file with
    | none => cases hn
    | some content =>
      obtain rfl := Option.some.inj hn
      exact Nat.one_pos
  · cases file with
    | none => simp [mapIn, initial]
    | some content =>
      have hne : n ≠ 0 := fun heq => hn (by rw [heq]; rfl)
      simp [mapIn, initial, hne]
  · exact callOk_of_closed (by rw [hstart i c hi]; rfl)
  · simp only [List.not_mem_nil, false_iff]
    rintro ⟨c, hi, hdone⟩
    rw [hstart i c hi] at hdone
    exact hdone

theorem filterMap_getElem?_range (ops : List SidecarOp) :
    (List.range ops.length).filterMap (ops[·]?) = ops := by
  induction ops with
  | nil => rfl
  | cons op ops ih =>
    rw [List.length_cons, List.range_succ_eq_map, List.filterMap_cons, List.filterMap_map]
    exact congrArg (op :: ·) ih

/-- All calls in the order in which they had their effect. -/
theorem Serial.perm (h : s.Serial first) (hreturned : ∀ c ∈ s.calls, c.progress = .returned) :
    ∃ order : List SidecarOp, order.Perm s.ops ∧
      s.contents = order.foldl (fun map op => op.apply map) first := by
  obtain ⟨order, hnodup, hmem, heq⟩ := h
  have hperm : order.Perm (List.range s.ops.length) := by
    refine (List.perm_ext_iff_of_nodup hnodup List.nodup_range).mpr fun i => ?_
    rw [hmem, List.mem_range, ops, List.length_map]
    constructor
    · rintro ⟨c, hi, -⟩
      exact (List.getElem?_eq_some_iff.mp hi).1
    · intro hlt
      refine ⟨s.calls[i], List.getElem?_eq_getElem hlt, ?_⟩
      rw [hreturned _ (List.getElem_mem hlt)]
      trivial
  have hall := hperm.filterMap (s.ops[·]?)
  rw [filterMap_getElem?_range] at hall
  exact ⟨order.filterMap (s.ops[·]?), hall, heq⟩

end Steps

/-- If the file is not unlinked while a call that sets values waits for its lock, and no step of
a removal and no reading fails in silence, then the calls have had their effect one after the
other once they have all returned. -/
theorem updates_serial (file : Option (Option SidecarMap)) (ops : List SidecarOp)
    (as : List UpdateAction) (horderly : Run.Along step Orderly (initial file ops) as)
    (hreturned : ∀ c ∈ (Run.exec step (initial file ops) as).calls, c.progress = .returned) :
    ∃ order : List SidecarOp, order.Perm ops ∧
      (Run.exec step (initial file ops) as).contents =
        order.foldl (fun map op => op.apply map) (initial file ops).contents := by
  have hops : (Run.exec step (initial file ops) as).ops = ops := by
    have hinitial : (initial file ops).ops = ops := by
      simp [Updates.ops, initial, Function.comp_def]
    exact Run.invariant_all step (fun s a h => (ops_step s a).trans h) as hinitial
  have hend := Run.invariant step
    (fun s a hok (h : s.Inv (initial file ops).contents ∨ s.Failed) =>
      h.elim (fun h => h.step hok) (fun h => .inr (h.step a))) horderly
    (.inl (inv_initial file ops))
  rcases hend with hinv | ⟨i, c, hi, hfailed⟩
  · obtain ⟨order, hperm, heq⟩ := hinv.serial.perm hreturned
    rw [hops] at hperm
    exact ⟨order, hperm, heq⟩
  · have := hreturned c (List.mem_of_getElem? hi)
    rw [hfailed] at this
    cases this

/-- Two calls set values and one takes a value away; it waits for the lock of the last. -/
def waitingRemoval : List UpdateAction :=
  [.openFile 0 true, .lockFile 0 true, .openFile 1 true, .openFile 1 true, .lockFile 1 true,
    .readMap 0 true, .rewrite 0 true, .unlockFile 0 true, .lockFile 1 true, .readMap 1 true,
    .rewrite 1 true, .unlink 1 true, .openFile 2 true, .unlockFile 1 true, .lockFile 2 true,
    .readMap 2 true, .rewrite 2 true, .unlockFile 2 true]

theorem waitingRemoval_serial :
    ∃ order : List SidecarOp, order.Perm [.set "a" [1], .remove "a", .setBatch [("b", [2])]] ∧
      (Run.exec step (initial none [.set "a" [1], .remove "a", .setBatch [("b", [2])]])
        waitingRemoval).contents =
        order.foldl (fun map op => op.apply map)
          (initial none [.set "a" [1], .remove "a", .setBatch [("b", [2])]]).contents :=
  updates_serial none _ waitingRemoval (by decide) (by decide)

/-- The second call has opened the file when the first unlinks it. Both return, and the value
that has been set is nowhere. -/
def lateLock : List UpdateAction :=
  [.openFile 1 true, .openFile 0 true, .openFile 0 true, .lockFile 0 true, .readMap 0 true,
    .rewrite 0 true, .unlink 0 true, .unlockFile 0 true, .lockFile 1 true, .readMap 1 true,
    .rewrite 1 true, .unlockFile 1 true]

theorem late_lock_loses_update :
    (∀ c ∈ (Run.exec step (initial (some (some (insertEntry ∅ ("a", [1]))))
        [.remove "a", .set "b" [2]]) lateLock).calls, c.progress = .returned) ∧
      ¬ ∃ order : List SidecarOp, order.Perm [.remove "a", .set "b" [2]] ∧
        (Run.exec step (initial (some (some (insertEntry ∅ ("a", [1]))))
          [.remove "a", .set "b" [2]]) lateLock).contents =
          order.foldl (fun map op => op.apply map) (insertEntry ∅ ("a", [1])) := by
  refine ⟨by decide, ?_⟩
  rintro ⟨order, hperm, heq⟩
  obtain ⟨x, y, rfl⟩ : ∃ x y, order = [x, y] := List.length_eq_two.mp hperm.length_eq
  have hx : x = .remove "a" ∨ x = .set "b" [2] := by
    simpa using hperm.subset (List.mem_cons_self ..)
  have hy : y = .remove "a" ∨ y = .set "b" [2] := by
    simpa using hperm.subset (List.mem_cons_of_mem x (List.mem_cons_self ..))
  revert hperm heq
  rcases hx with rfl | rfl <;> rcases hy with rfl | rfl <;> decide

end Updates

end Foxing.Sidecar
