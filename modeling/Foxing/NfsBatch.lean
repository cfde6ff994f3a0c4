import Foxing.NfsWrite

/-!
# The attributes of several files in one request

The names are looked up one after the other, each of them below what was found for the one before
it: a `LOOKUP` makes what it has found the current filehandle, and the directory is set only once.
The server executes the operations up to the first one that fails, and so the names behind one
that is missing are not looked up at all.
-/
namespace Foxing.Nfs
open Failing Xdr

/-! ## A server with a tree of files -/

/-- The status of an operation that has failed. -/
structure Refusal where
  status : ℕ
  error : status ≠ nfs4Ok ∧ status < 2 ^ 32

def noFileHandle : Refusal := ⟨10020, by decide⟩

def notSupported : Refusal := ⟨10004, by decide⟩

/-- What the filehandles stand for, what is found below it, and its attributes. -/
structure Tree (ν : Type) where
  node : Bytes → Except Refusal ν
  lookup : ν → Bytes → Except Refusal ν
  stat : ν → FileStat
  sessionId : Bytes
  width : sessionId.length = 16

theorem opCode_lt (op : Nfs4Op) : opCode op < 2 ^ 32 := by
  cases op <;> (simp only [opCode]; decide)

namespace Tree
variable {ν : Type} (t : Tree ν)

/-- What an operation does to the current filehandle, and its result. Of the attributes only those
are kept that are asked for. -/
def step (current : Option ν) : Nfs4Op → Except Refusal (Option ν × ServerResult)
  | .sequence _ sequenceId slotId highestSlotId _ =>
    .ok (current, .sequence t.sessionId sequenceId slotId highestSlotId highestSlotId 0 t.width)
  | .putFh handle => (t.node handle).map fun n => (some n, .bare opPutFh bareOp_putFh)
  | .lookup name =>
    match current with
    | none => .error noFileHandle
    | some n => (t.lookup n name).map fun m => (some m, .bare opLookup bareOp_lookup)
  | .getAttr _ =>
    match current with
    | none => .error noFileHandle
    | some n => .ok (current, .getAttr (t.stat n).attrs)
  | _ => .error notSupported

/-- The results of the operations up to the first one that fails. -/
def run : Option ν → List Nfs4Op → List ServerResult
  | _, [] => []
  | current, op :: ops =>
    match t.step current op with
    | .ok (current, r) => r :: run current ops
    | .error refusal =>
      [.failed (opCode op) refusal.status [] ⟨opCode_lt op, refusal.error⟩]

theorem run_ok {current current' : Option ν} {op : Nfs4Op} {r : ServerResult}
    (h : t.step current op = .ok (current', r)) (ops : List Nfs4Op) :
    t.run current (op :: ops) = r :: t.run current' ops := by
  rw [run, h]

theorem run_error {current : Option ν} {op : Nfs4Op} {refusal : Refusal}
    (h : t.step current op = .error refusal) (ops : List Nfs4Op) :
    t.run current (op :: ops) =
      [.failed (opCode op) refusal.status [] ⟨opCode_lt op, refusal.error⟩] := by
  rw [run, h]

/-- What has succeeded is followed by other results. -/
theorem step_continues {current current' : Option ν} {op : Nfs4Op} {r : ServerResult}
    (h : t.step current op = .ok (current', r)) : r.Continues := by
  cases op with
  | sequence => cases h; trivial
  | putFh handle =>
    simp only [step] at h
    cases hnode : t.node handle with
    | ok n => rw [hnode] at h; cases h; trivial
    | error refusal => rw [hnode] at h; cases h
  | lookup name =>
    cases current with
    | none => cases h
    | some n =>
      simp only [step] at h
      cases hlookup : t.lookup n name with
      | ok m => rw [hlookup] at h; cases h; trivial
      | error refusal => rw [hlookup] at h; cases h
  | getAttr =>
    cases current with
    | none => cases h
    | some n => cases h; trivial
  | _ => cases h

theorem endsAtLast_run (current : Option ν) (ops : List Nfs4Op) :
    EndsAtLast (t.run current ops) [] := by
  induction ops generalizing current with
  | nil => exact rfl
  | cons op ops ih =>
    cases h : t.step current op with
    | ok p =>
      rw [t.run_ok h]
      exact (ih p.1).cons (t.step_continues h)
    | error refusal =>
      rw [t.run_error h]
      exact ⟨rfl, rfl⟩

theorem length_run_le (current : Option ν) (ops : List Nfs4Op) :
    (t.run current ops).length ≤ ops.length := by
  induction ops generalizing current with
  | nil => exact le_rfl
  | cons op ops ih =>
    cases h : t.step current op with
    | ok p =>
      rw [t.run_ok h]
      exact Nat.succ_le_succ (ih p.1)
    | error refusal =>
      rw [t.run_error h]
      exact Nat.succ_le_succ (Nat.zero_le _)

/-- The status of a reply is that of the last operation. -/
def replyStatus (rs : List ServerResult) : ℕ := rs.getLast?.elim nfs4Ok (·.status)

theorem replyStatus_lt (rs : List ServerResult) : replyStatus rs < 2 ^ 32 := by
  have hstatus : ∀ r : ServerResult, r.status < 2 ^ 32 := by
    intro r
    cases r with
    | failed op status info error => exact error.2.2
    | _ => simp only [ServerResult.status]; decide
  unfold replyStatus
  cases rs.getLast? with
  | none => decide
  | some r => exact hstatus r

theorem reply_numbers (current : Option ν) {ops : List Nfs4Op} (hops : ops.length ≤ 16) :
    replyStatus (t.run current ops) < 2 ^ 32 ∧
      (t.run current ops).length + ([] : List Bytes).length < 2 ^ 32 := by
  have hlength := t.length_run_le current ops
  exact ⟨replyStatus_lt _, by rw [List.length_nil]; omega⟩

/-- The reply to a request of up to 16 operations, with its tag. -/
def reply (tag : Bytes) (htag : ([] : Bytes).length < 2 ^ 32 ∧ tag.length < 2 ^ 32)
    (ops : List Nfs4Op) (hops : ops.length ≤ 16) : ServerReply where
  flavor := 0
  verf := []
  status := replyStatus (t.run none ops)
  tag := tag
  results := t.run none ops
  behind := []
  ends := t.endsAtLast_run none ops
  short := htag
  numbers := t.reply_numbers none hops

/-! ## What is listed and what is there -/

def find (n : ν) (name : String) : Option ν := (t.lookup n (utf8 name)).toOption

/-- The name of a file with its size and time. -/
def entry (name : String) (n : ν) : String × ℕ × ℤ × ℤ :=
  (name, (t.stat n).size, (t.stat n).mtime.1, (t.stat n).mtime.2)

/-- The attributes of those that are in the directory. -/
def listing (dir : ν) (names : List String) : List (String × ℕ × ℤ × ℤ) :=
  names.filterMap fun name => (t.find dir name).map (t.entry name)

/-- The attributes of what is found when each name is looked up below the one before it. -/
def descent : ν → List String → List (String × ℕ × ℤ × ℤ)
  | _, [] => []
  | current, name :: names =>
    match t.find current name with
    | some n => t.entry name n :: descent n names
    | none => []

/-- The names that are in the directory come first. Each of them is also found below the one
before it, with the same attributes, and the first one that is missing is missing there, too. -/
def Nested (dir : ν) : ν → List String → Prop
  | _, [] => True
  | current, name :: names =>
    match t.find dir name, t.find current name with
    | some n, some m => t.entry name n = t.entry name m ∧ Nested dir m names
    | none, none => ∀ other ∈ names, t.find dir other = none
    | _, _ => False

section Descent
variable {t} {dir current n m : ν} {name : String} {names : List String}

theorem listing_cons_some (h : t.find dir name = some n) :
    t.listing dir (name :: names) = t.entry name n :: t.listing dir names :=
  List.filterMap_cons_some (by rw [h]; rfl)

theorem listing_cons_none (h : t.find dir name = none) :
    t.listing dir (name :: names) = t.listing dir names :=
  List.filterMap_cons_none (by rw [h]; rfl)

theorem descent_cons_some (h : t.find current name = some n) :
    t.descent current (name :: names) = t.entry name n :: t.descent n names := by
  rw [descent, h]

theorem descent_cons_none (h : t.find current name = none) :
    t.descent current (name :: names) = [] := by
  rw [descent, h]

theorem listing_eq_nil_iff :
    t.listing dir names = [] ↔ ∀ other ∈ names, t.find dir other = none := by
  simp [listing]

/-- What is listed is in the directory. -/
theorem find_of_mem_listing {x : ℕ × ℤ × ℤ} (h : (name, x) ∈ t.listing dir names) :
    t.find dir name ≠ none := by
  obtain ⟨other, -, hfound⟩ := List.mem_filterMap.mp h
  obtain ⟨n, hn, hentry⟩ := Option.map_eq_some_iff.mp hfound
  obtain rfl : other = name := congrArg Prod.fst hentry
  rw [hn]
  exact Option.some_ne_none n

theorem descent_eq_listing_iff (dir current : ν) (names : List String) :
    t.descent current names = t.listing dir names ↔ t.Nested dir current names := by
  induction names generalizing current with
  | nil => exact iff_of_true rfl trivial
  | cons name names ih =>
    cases hdir : t.find dir name with
    | some n =>
      cases hcurrent : t.find current name with
      | some m =>
        rw [descent_cons_some hcurrent, listing_cons_some hdir, Nested, hdir, hcurrent,
          List.cons.injEq, ih, eq_comm]
      | none =>
        rw [descent_cons_none hcurrent, listing_cons_some hdir, Nested, hdir, hcurrent]
        exact iff_of_false (List.cons_ne_nil _ _).symm id
    | none =>
      cases hcurrent : t.find current name with
      | some m =>
        rw [descent_cons_some hcurrent, listing_cons_none hdir, Nested, hdir, hcurrent]
        refine iff_of_false (fun heq => ?_) id
        have hmem : t.entry name m ∈ t.listing dir names := heq ▸ List.mem_cons_self
        exact find_of_mem_listing hmem hdir
      | none =>
        rw [descent_cons_none hcurrent, listing_cons_none hdir, Nested, hdir, hcurrent, eq_comm,
          listing_eq_nil_iff]

/-- Where nothing is found below a file, the names behind the first one have to be missing. -/
theorem nested_iff_of_files
    (hfiles : ∀ name ∈ names, ∀ n, t.find dir name = some n → ∀ other, t.find n other = none) :
    t.Nested dir dir names ↔ ∀ name ∈ names.tail, t.find dir name = none := by
  cases names with
  | nil => simp [Nested]
  | cons name names =>
    cases hdir : t.find dir name with
    | none => simp [Nested, hdir]
    | some n =>
      have hbelow := hfiles name List.mem_cons_self n hdir
      rw [Nested, hdir]
      simp only [true_and, List.tail_cons]
      cases names with
      | nil => simp [Nested]
      | cons other names =>
        cases hother : t.find dir other with
        | none => simp [Nested, hother, hbelow]
        | some m => simp [Nested, hother, hbelow]

end Descent

end Tree

/-! ## What the client makes of the results -/

def statOps (filenames : List String) : List Nfs4Op :=
  filenames.flatMap fun name =>
    [.lookup (utf8 name), .getAttr (2 ^ fattr4SizeBit, 2 ^ fattr4TimeModifyBit)]

/-- The request for the attributes of the files. -/
def batchOps (c : Client) (seqId : ℕ) (dirHandle : Bytes) (filenames : List String) : List Nfs4Op :=
  [sequenceOp c seqId, .putFh dirHandle] ++ statOps filenames

theorem length_statOps (filenames : List String) :
    (statOps filenames).length = 2 * filenames.length := by
  induction filenames with
  | nil => rfl
  | cons name filenames ih =>
    rw [statOps, List.flatMap_cons, List.length_append, ← statOps, ih, List.length_cons]
    simp
    omega

theorem length_batchOps_le {filenames : List String} (hnames : filenames.length ≤ 7) (c : Client)
    (seqId : ℕ) (dirHandle : Bytes) : (batchOps c seqId dirHandle filenames).length ≤ 16 := by
  rw [batchOps, List.length_append, length_statOps]
  simp
  omega

theorem statEntries_nil (filenames : List String) : statEntries filenames [] = [] := by
  cases filenames <;> rfl

section Results
variable {ν : Type} {t : Tree ν} {c : Client} {seqId : ℕ} {dirHandle : Bytes}
  {filenames : List String} {dir : ν}

/-- Each entry is of what has been found below the one before it. -/
theorem statEntries_run (current : ν) (filenames : List String) :
    statEntries filenames ((t.run (some current) (statOps filenames)).map (·.opResult)) =
      t.descent current filenames := by
  induction filenames generalizing current with
  | nil => rfl
  | cons name filenames ih =>
    cases hlookup : t.lookup current (utf8 name) with
    | error refusal =>
      have hstep : t.step (some current) (.lookup (utf8 name)) = .error refusal := by
        simp only [Tree.step, hlookup]
        rfl
      have hfind : t.find current name = none := by
        rw [Tree.find, hlookup]
        rfl
      rw [statOps, List.flatMap_cons, List.cons_append, t.run_error hstep,
        Tree.descent_cons_none hfind, List.map_singleton, statEntries]
      rw [if_pos (by exact refusal.error.1)]
      exact statEntries_nil filenames
    | ok n =>
      have hstep : t.step (some current) (.lookup (utf8 name)) =
          .ok (some n, .bare opLookup bareOp_lookup) := by
        simp only [Tree.step, hlookup]
        rfl
      have hstat : ∀ request, t.step (some n) (.getAttr request) =
          .ok (some n, .getAttr (t.stat n).attrs) := fun _ => rfl
      have hfind : t.find current name = some n := by
        rw [Tree.find, hlookup]
        rfl
      rw [statOps, List.flatMap_cons, List.cons_append, t.run_ok hstep, List.cons_append,
        t.run_ok (hstat _), Tree.descent_cons_some hfind, List.nil_append, ← ih n]
      rfl

theorem run_batchOps (c : Client) (seqId : ℕ) (hdir : t.node dirHandle = .ok dir) :
    statEntries filenames
        (((t.run none (batchOps c seqId dirHandle filenames)).map (·.opResult)).drop 2) =
      t.descent dir filenames := by
  have hsequence : t.step none (sequenceOp c seqId) = .ok (none,
      .sequence t.sessionId seqId 0 0 0 0 t.width) := rfl
  have hputFh : t.step none (.putFh dirHandle) = .ok (some dir, .bare opPutFh bareOp_putFh) := by
    simp only [Tree.step, hdir]
    rfl
  rw [batchOps, List.cons_append, List.cons_append, t.run_ok hsequence, t.run_ok hputFh,
    List.nil_append, ← statEntries_run]
  rfl

theorem bstat_short : ([] : Bytes).length < 2 ^ 32 ∧ (asciiText "bstat").length < 2 ^ 32 := by
  decide +kernel

/-- What the server answers to the request. -/
def batchReply (t : Tree ν) (c : Client) (seqId : ℕ) (dirHandle : Bytes) {filenames : List String}
    (hnames : filenames.length ≤ 7) : ServerReply :=
  t.reply (asciiText "bstat") bstat_short (batchOps c seqId dirHandle filenames)
    (length_batchOps_le hnames c seqId dirHandle)

theorem batchStat_answer {e : Exchange} (hdir : t.node dirHandle = .ok dir)
    (hnames : filenames.length ≤ 7)
    (hanswers : e.Answers (batchReply t c seqId dirHandle hnames).encode) (n : ℕ) :
    Triple (fun c => Quiet c ∧ c.outbox.length = n) (batchStat dirHandle filenames e)
      (fun entries _ => entries = t.descent dir filenames) (fun _ _ => ¬ e.Delivered) := by
  refine Triple.bind (Tracked.nextXid_keeps fun c _ h => h) fun xid => ?_
  refine Triple.bind (nextSequenceId_keeps fun c _ h => h) fun seqId' => ?_
  refine Triple.bind keeps_get fun c' => ?_
  refine Triple.bind ((call_answer hanswers (fun mark hmark =>
    ServerReply.parseCompoundReply_encode _ xid hmark) (some seqId') _ n).imp (fun _ h => h)
    (fun _ _ h => h) fun error c h => h.1) fun r => ?_
  refine Triple.pure fun c'' h => ?_
  rw [h.1]
  exact run_batchOps c seqId hdir

theorem exec_batchStat {e : Exchange} (hdir : t.node dirHandle = .ok dir)
    (hnames : filenames.length ≤ 7) (hquiet : Quiet c) (hdelivered : e.Delivered)
    (hanswers : e.Answers (batchReply t c seqId dirHandle hnames).encode) :
    (exec (batchStat dirHandle filenames e) c).1 = .ok (t.descent dir filenames) := by
  obtain ⟨hok, herror⟩ := batchStat_answer hdir hnames hanswers c.outbox.length c ⟨hquiet, rfl⟩
  cases hexec : exec (batchStat dirHandle filenames e) c with
  | mk result c' =>
    cases result with
    | ok entries => rw [hok entries c' hexec]
    | error error => exact absurd hdelivered (herror error c' hexec)

/-- The call gives the attributes of the files of the directory exactly if these come first among
the names and are found below one another. If they are files, below which nothing is, none but the
first name may be there. -/
theorem batchStat_listing_iff {e : Exchange} (hdir : t.node dirHandle = .ok dir)
    (hnames : filenames.length ≤ 7) (hquiet : Quiet c) (hdelivered : e.Delivered)
    (hanswers : e.Answers (batchReply t c c.sequenceId dirHandle hnames).encode) :
    ((exec (batchStat dirHandle filenames e) c).1 = .ok (t.listing dir filenames) ↔
        t.Nested dir dir filenames) ∧
      ((∀ name ∈ filenames, ∀ n, t.find dir name = some n → ∀ other, t.find n other = none) →
        ((exec (batchStat dirHandle filenames e) c).1 = .ok (t.listing dir filenames) ↔
          ∀ name ∈ filenames.tail, t.find dir name = none)) := by
  have hiff : (exec (batchStat dirHandle filenames e) c).1 = .ok (t.listing dir filenames) ↔
      t.Nested dir dir filenames := by
    rw [exec_batchStat hdir hnames hquiet hdelivered hanswers, Except.ok.injEq,
      Tree.descent_eq_listing_iff]
  refine ⟨hiff, fun hfiles => ?_⟩
  rw [hiff, Tree.nested_iff_of_files hfiles]

end Results

/-- A directory with two files. -/
inductive SampleNode where
  | dir | a | b
  deriving DecidableEq

def sampleStat : SampleNode → FileStat
  | .dir => ⟨4096, (0, 0), fits_of_small (by decide)⟩
  | .a => ⟨1, (10, 0), fits_of_small (by decide)⟩
  | .b => ⟨2, (20, 0), fits_of_small (by decide)⟩

def sampleTree : Tree SampleNode where
  node _ := .ok .dir
  lookup
    | .dir, name =>
      if name = utf8 "a" then .ok .a
      else if name = utf8 "b" then .ok .b
      else .error ⟨2, by decide⟩
    | _, _ => .error ⟨20, by decide⟩
  stat := sampleStat
  sessionId := List.replicate 16 5
  width := List.length_replicate

theorem length_two (name other : String) : [name, other].length ≤ 7 := by
  rw [List.length_cons, List.length_singleton]
  decide

/-- The reply to the request for the two names. -/
def sampleBatch (name other : String) : Bytes :=
  (batchReply sampleTree sampleClient sampleClient.sequenceId [9] (length_two name other)).encode

def sampleExchange (name other : String) : Exchange :=
  ⟨true, Answer.single (sampleBatch name other), 0, 1000⟩

theorem sampleExchange_answers (name other : String) :
    (sampleExchange name other).Answers (sampleBatch name other) := by
  intro a ha
  simp only [sampleExchange] at ha
  exact Answer.single_whole ha

theorem quiet_sample : Quiet sampleClient := by
  unfold Quiet
  decide +kernel

theorem sampleExchange_delivered {name other : String}
    (hlength : (sampleBatch name other).length ≤ 500) : (sampleExchange name other).Delivered := by
  have hshort : (sampleBatch name other).length + 4 < 2 ^ 31 := by omega
  have hsingle : (sampleExchange name other).answer =
      some ⟨sampleBatch name other, [], hshort, fun _ hb => absurd hb List.not_mem_nil⟩ := by
    simp only [sampleExchange, Answer.single]
    exact dif_pos hshort
  refine ⟨rfl, _, hsingle, ?_, ?_⟩
  · rw [Answer.message, frame]
    simp only [List.length_append, length_encodeU32, sampleExchange]
    omega
  · rw [List.forall_mem_singleton, List.length_append, length_encodeU32, maxFragment]
    dsimp only
    omega

theorem find_sampleTree : sampleTree.find .dir "a" = some .a ∧ sampleTree.find .dir "b" = some .b ∧
    sampleTree.find .dir "c" = none ∧ ∀ other, sampleTree.find .a other = none :=
  ⟨by decide +kernel, by decide +kernel, by decide +kernel, fun _ => rfl⟩

/-- The second name is missing, and the first one is listed. -/
theorem batchStat_first_file :
    (exec (batchStat [9] ["a", "c"] (sampleExchange "a" "c")) sampleClient).1 =
      .ok (sampleTree.listing .dir ["a", "c"]) := by
  have hlength : (sampleBatch "a" "c").length ≤ 500 := by decide +kernel
  have hdir : sampleTree.node [9] = .ok .dir := rfl
  obtain ⟨ha, -, hc, hbelow⟩ := find_sampleTree
  refine (batchStat_listing_iff hdir (length_two "a" "c") quiet_sample
    (sampleExchange_delivered hlength) (sampleExchange_answers "a" "c")).1.mpr ?_
  simp [Tree.Nested, ha, hc, hbelow]

/-- If both names are there, the second one is looked up below the first one and is not listed. -/
theorem batchStat_second_file_missing :
    ¬ ∀ (ν : Type) (t : Tree ν) (dir : ν) (c : Client) (e : Exchange) (dirHandle : Bytes)
      (filenames : List String) (hnames : filenames.length ≤ 7), t.node dirHandle = .ok dir →
      Quiet c → e.Delivered →
      e.Answers (batchReply t c c.sequenceId dirHandle hnames).encode →
      (exec (batchStat dirHandle filenames e) c).1 = .ok (t.listing dir filenames) := by
  intro h
  have hlength : (sampleBatch "a" "b").length ≤ 500 := by decide +kernel
  have hdir : sampleTree.node [9] = .ok .dir := rfl
  have hdelivered := sampleExchange_delivered hlength
  have hanswers := sampleExchange_answers "a" "b"
  obtain ⟨ha, hb, -, hbelow⟩ := find_sampleTree
  have hlisted := h SampleNode sampleTree .dir sampleClient _ [9] ["a", "b"] (length_two "a" "b")
    hdir quiet_sample hdelivered hanswers
  rw [exec_batchStat hdir (length_two "a" "b") quiet_sample hdelivered hanswers, Except.ok.injEq,
    Tree.descent_eq_listing_iff] at hlisted
  simp [Tree.Nested, ha, hb, hbelow] at hlisted

end Foxing.Nfs
