import Foxing.DeltaCopy
import Foxing.FileSystem
import Foxing.Lib.Run

/-!
# Signatures of the files of a target

Beside each file of a target foxing stores what it takes the file to be: size,
time and hashes of the source, and for a large file its Merkle signature. A scan
compares them with the source before it asks for a copy, and stores them itself
where it finds the files equal; a hydration job stores them after its copy. Jobs
for different targets share what they compute by the path of the file. What fails,
and what becomes of the source while a job runs, is given with the step.
-/
namespace Foxing.Signatures
open MerkleTree

/-- The settings for hashing. -/
structure HashConfig where
  enabled : Bool
  liteThresholdBytes : ℕ

/-- Size and time, by which the versions of a file are told apart. -/
structure Stamp where
  size : ℕ
  mtimeSec : ℤ
  mtimeNsec : ℤ
  deriving DecidableEq, Repr

structure FileData where
  content : Bytes
  mtimeSec : ℤ
  mtimeNsec : ℤ
  deriving DecidableEq, Repr

def FileData.stamp (f : FileData) : Stamp := ⟨f.content.length, f.mtimeSec, f.mtimeNsec⟩

structure SyncSignature where
  size : ℕ
  mtimeSec : ℤ
  mtimeNsec : ℤ
  hash : Option Bytes
  merkleRoot : Option Bytes
  chunkSize : ℕ
  deriving DecidableEq, Repr

def SyncSignature.stamp (sig : SyncSignature) : Stamp := ⟨sig.size, sig.mtimeSec, sig.mtimeNsec⟩

structure CachedSignatures where
  syncSig : SyncSignature
  merkle : Option MerkleSignature
  deriving DecidableEq, Repr

/-- A file of a target with the metadata that is stored for it. -/
structure TargetFile where
  file : Option FileData
  sig : Option SyncSignature
  merkle : Option MerkleSignature
  dirty : Bool
  deriving DecidableEq, Repr

section Hashes
variable (blake3 : Bytes → Bytes) (cfg : HashConfig)

/-- The hash over the size and the head and tail of a file. -/
def hashFileLite (content : Bytes) (size : ℕ) : Option Bytes :=
  if cfg.enabled = false then none
  else if size < cfg.liteThresholdBytes then none
  else
    let head := content.take minChunkSize
    let tail := if size > minChunkSize * 2 then
      (content.drop (size - minChunkSize)).take minChunkSize else []
    some (blake3 (Bytes.ofNat 8 size ++ head ++ tail))

def verifyIncremental (src dst : Bytes) (size : ℕ) : Bool :=
  if cfg.enabled = false then true
  else if size < cfg.liteThresholdBytes then true
  else hashFileLite blake3 cfg src size = hashFileLite blake3 cfg dst size

/-- The signature of a file; its root is the hash of the whole content here. -/
def SyncSignature.compute (f : FileData) : SyncSignature :=
  let size := f.content.length
  let hashes : Bool := cfg.enabled && size ≥ cfg.liteThresholdBytes
  { size := size
    mtimeSec := f.mtimeSec
    mtimeNsec := f.mtimeNsec
    hash := if hashes then hashFileLite blake3 cfg f.content size else none
    merkleRoot := if hashes then some (blake3 f.content) else none
    chunkSize := calculateAdaptiveChunkSize size }

/-- Roots decide where both signatures have one; otherwise the times, and the hashes if both
have one. -/
def SyncSignature.matches (a b : SyncSignature) : Bool :=
  if a.size ≠ b.size then false
  else
    match a.merkleRoot, b.merkleRoot with
    | some x, some y => x = y
    | _, _ =>
      if a.mtimeSec ≠ b.mtimeSec ∨ a.mtimeNsec ≠ b.mtimeNsec then false
      else
        match a.hash, b.hash with
        | some x, some y => x = y
        | _, _ => true

def verifyWithMerkle (src : Bytes) (stored : MerkleSignature) : Bool :=
  (fromFile blake3 src stored.chunkSize).root = stored.root

end Hashes

/-- A stored Merkle signature is read if it has a chunk size and not too many leaves. -/
def getMerkleSignature (t : TargetFile) : Option MerkleSignature :=
  match t.merkle with
  | none => none
  | some sig =>
    if sig.chunkSize = 0 then none
    else if sig.leafHashes.length > sig.fileSize / sig.chunkSize + 2 then none
    else some sig

/-! ## Scans -/

/-- What a scan meets: the prescanned stamp of the target, and whether the source can be
hashed, the target opened, locked and hashed, and metadata stored. -/
structure CheckEnv where
  prescan : Option Stamp
  streaming : Bool
  readsSource : Bool
  opens : Bool
  locks : Bool
  readsTarget : Bool
  stores : Bool
  deriving DecidableEq, Repr

section Checks
variable (blake3 : Bytes → Bytes) (cfg : HashConfig)

/-- The scan takes the target to be equal to the source, and stores the signature. -/
def accepts (src : FileData) (t : TargetFile) (env : CheckEnv) : Bool :=
  match t.file with
  | none => false
  | some f =>
    cfg.enabled && env.readsTarget && verifyIncremental blake3 cfg src.content f.content
      src.content.length &&
    match getMerkleSignature t with
    | some stored => verifyWithMerkle blake3 src.content stored
    | none => f.content.length = src.content.length && f.mtimeSec = src.mtimeSec

/-- Whether the file has to be copied, and what is stored for it afterwards. -/
def syncFileNeeded (src : FileData) (t : TargetFile) (env : CheckEnv) : Bool × TargetFile :=
  if env.prescan = some src.stamp then (false, t)
  else if t.dirty then (!env.streaming, t)
  else if !env.readsSource then (true, t)
  else
    let srcSig := SyncSignature.compute blake3 cfg src
    let matched := match t.sig with
      | none => none
      | some dstSig =>
        if t.file.isNone then some true
        else if srcSig.matches dstSig then some false
        else none
    match matched with
    | some needed => (needed, t)
    | none =>
      match t.file with
      | none => (true, t)
      | some f =>
        if !env.opens then (true, t)
        else if cfg.enabled = false then
          if !env.locks then (true, t)
          else (f.content.length ≠ src.content.length || f.mtimeSec ≠ src.mtimeSec, t)
        else if accepts blake3 cfg src t env then
          (false, if env.stores then { t with sig := some srcSig } else t)
        else (true, t)

end Checks

/-! ## Hydration jobs -/

def hydrationSmallFileThreshold : ℕ := 256 * 1024

/-- A signature that can be stored as metadata. -/
def fitsInXattr (sig : MerkleSignature) : Bool := 56 + sig.leafHashes.length * 32 ≤ 64 * 1024

/-- One attempt of a hydration job. -/
structure Attempt where
  /-- The ranges of a delta copy can be copied, and the signature stored. -/
  deltaCopies : Bool
  deltaStores : Bool
  /-- What a copy of the whole file writes, or what it leaves if it fails. -/
  copied : Option Bytes
  left : Option FileData
  /-- The time of the target after a copy. -/
  mtimeSec : ℤ
  mtimeNsec : ℤ
  /-- Metadata outlives the file that is replaced. -/
  kept : Bool
  /-- The source when the copy is done. -/
  after : Option FileData
  /-- Ownership and times can be applied, the target hashed, and the signatures stored. -/
  applies : Bool
  hashesTarget : Bool
  stores : Bool
  deriving DecidableEq, Repr

section Jobs
variable (blake3 : Bytes → Bytes) (cfg : HashConfig)

/-- The signatures for the target after a copy of a source of the given size, which now is
`src`. -/
def computeSignatures (fileSize : ℕ) (src : FileData) (dst : Bytes) (hashesTarget : Bool) :
    CachedSignatures :=
  let chunkSize := calculateAdaptiveChunkSize fileSize
  let tree := if fileSize > merkleDeltaThreshold ∧ hashesTarget = true then
    some (fromFile blake3 dst chunkSize) else none
  { syncSig :=
      { size := src.content.length
        mtimeSec := src.mtimeSec
        mtimeNsec := src.mtimeNsec
        hash := hashFileLite blake3 cfg src.content src.content.length
        merkleRoot := tree.map MerkleTree.root
        chunkSize := chunkSize }
    merkle := (tree.map MerkleTree.toSignature).filter fitsInXattr }

/-- The signatures of an earlier job for the path are used again. -/
def signaturesFor (cached : Option CachedSignatures) (fileSize : ℕ) (src : Option FileData)
    (dst : Bytes) (hashesTarget : Bool) : Option CachedSignatures :=
  match cached with
  | some e => some e
  | none => src.map fun s => computeSignatures blake3 cfg fileSize s dst hashesTarget

/-- Metadata stays with a small file, which is written in place; a larger one is replaced. -/
def metadataSurvives (src : FileData) (t : TargetFile) (j : Attempt) : Bool :=
  (src.content.length ≤ hydrationSmallFileThreshold && t.file.isSome) || j.kept

def afterCopy (src : FileData) (t : TargetFile) (content : Bytes) (j : Attempt) : TargetFile :=
  { file := some ⟨content, j.mtimeSec, j.mtimeNsec⟩
    sig := if metadataSurvives src t j then t.sig else none
    merkle := if metadataSurvives src t j then t.merkle else none
    dirty := t.dirty }

/-- The work after a copy: the target file is removed if the source is gone; the signatures
are stored unless ownership and times of a larger file cannot be applied. -/
def postCopy (src : FileData) (t : TargetFile) (cached : Option CachedSignatures) (content : Bytes)
    (j : Attempt) : TargetFile × Option CachedSignatures :=
  let t := if j.after.isNone then { t with file := none } else t
  if src.content.length > hydrationSmallFileThreshold ∧ j.applies = false then (t, cached)
  else
    match signaturesFor blake3 cfg cached src.content.length j.after content j.hashesTarget with
    | none => (t, cached)
    | some e =>
      let t :=
        if j.stores then
          { t with sig := some e.syncSig, merkle := if e.merkle.isSome then e.merkle else t.merkle }
        else t
      ({ t with dirty := false }, some e)

/-- One attempt of a job for a file: the target file and the cached signatures afterwards. -/
def attempt (src : Option FileData) (t : TargetFile) (cached : Option CachedSignatures)
    (j : Attempt) : TargetFile × Option CachedSignatures :=
  match src with
  | none => (t, cached)
  | some src =>
    let content := (t.file.map FileData.content).getD []
    match merkleBranch blake3 src.content content (getMerkleSignature t) j.deltaCopies with
    | some (_, none) => (t, cached)
    | some (content, some sig) =>
      ({ t with
          file := some ⟨content, j.mtimeSec, j.mtimeNsec⟩
          merkle := if j.deltaStores then some sig else t.merkle }, cached)
    | none =>
      match j.copied with
      | none => ({ t with file := j.left }, cached)
      | some content => postCopy blake3 cfg src (afterCopy src t content j) cached content j

end Jobs

/-! ## Runs -/

/-- A source, its targets, and the signatures that jobs have computed. -/
structure State (τ : Type*) where
  source : Path → Option FileData
  target : τ → Path → TargetFile
  cache : Path → Option CachedSignatures

inductive Action (τ : Type*) where
  | edit (path : Path) (file : Option FileData)
  | check (t : τ) (path : Path) (env : CheckEnv)
  | attempt (t : τ) (path : Path) (j : Attempt)

section Steps
variable {τ : Type*} [DecidableEq τ] (blake3 : Bytes → Bytes) (cfg : HashConfig)

def State.setTarget (s : State τ) (t : τ) (path : Path) (f : TargetFile) : State τ :=
  { s with target := Function.update s.target t (Function.update (s.target t) path f) }

/-- A check is made of a file of the source. After an attempt the source is what it has
become meanwhile. -/
def State.step (s : State τ) : Action τ → State τ
  | .edit path file => { s with source := Function.update s.source path file }
  | .check t path env =>
    match s.source path with
    | none => s
    | some src => s.setTarget t path (syncFileNeeded blake3 cfg src (s.target t path) env).2
  | .attempt t path j =>
    let r := attempt blake3 cfg (s.source path) (s.target t path) (s.cache path) j
    { s.setTarget t path r.1 with
      source := Function.update s.source path j.after
      cache := Function.update s.cache path r.2 }

/-- Targets for which nothing has been stored yet. -/
def State.start (source : Path → Option FileData) (files : τ → Path → Option FileData) : State τ :=
  ⟨source, fun t path => ⟨files t path, none, none, false⟩, fun _ => none⟩

end Steps

end Foxing.Signatures
