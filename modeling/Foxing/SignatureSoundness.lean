import Foxing.SyncSignatures

/-!
# What stored signatures say

A signature that is stored for a file of a target is to be one of its content, so
that a match with the source means that the files are equal. This holds in every run
in which the versions of a file differ in size or time, no job copies ranges, meets a
change of the source, fails halfway, leaves signatures of an earlier content or uses
those of an earlier version again, and no scan takes a file for equal by its head,
tail, size and second of change when it is not.
-/
namespace Foxing.Signatures
open MerkleTree Chunks

variable {blake3 : Bytes → Bytes} {cfg : HashConfig}

/-- The signature has the size and the root of the content. The root is the hash of the
content, or that of its tree. -/
structure Describes (blake3 : Bytes → Bytes) (content : Bytes) (sig : SyncSignature) : Prop where
  size : sig.size = content.length
  chunkSize : ∃ n, sig.chunkSize = calculateAdaptiveChunkSize n
  root : ∀ root, sig.merkleRoot = some root →
    root = blake3 content ∨ root = (fromFile blake3 content sig.chunkSize).root

/-- The Merkle signature has the size, the root and the leaves of the content. -/
def MerkleDescribes (blake3 : Bytes → Bytes) (content : Bytes) (m : MerkleSignature) : Prop :=
  ∃ n, m = (fromFile blake3 content (calculateAdaptiveChunkSize n)).toSignature

/-- What is stored for a file of a target is about its content, and where it matches a file
of the source, the files are equal. -/
structure Holds (blake3 : Bytes → Bytes) (cfg : HashConfig) (src : Option FileData)
    (t : TargetFile) (f : FileData) : Prop where
  sync : ∀ sig, t.sig = some sig → Describes blake3 f.content sig
  merkle : ∀ m, getMerkleSignature t = some m → MerkleDescribes blake3 f.content m
  matched : ∀ sig src', t.sig = some sig → src = some src' →
    (SyncSignature.compute blake3 cfg src').matches sig = true → src'.content = f.content
  verified : ∀ m src', getMerkleSignature t = some m → src = some src' →
    verifyWithMerkle blake3 src'.content m = true → src'.content = f.content

/-- The signatures of all files of the targets hold. -/
def State.Sound {τ : Type*} (blake3 : Bytes → Bytes) (cfg : HashConfig) (s : State τ) : Prop :=
  ∀ t path f, (s.target t path).file = some f → Holds blake3 cfg (s.source path) (s.target t path) f

/-! ## Versions of files -/

section Versions
variable (blake3) (version : Path → Stamp → Bytes)

/-- The contents that files of the source have, and all that is hashed for them. -/
def versionBytes : Set Bytes :=
  {x | ∃ path st, x = version path st ∨
    ∃ n, x ∈ hashed blake3 (calculateAdaptiveChunkSize n) (version path st)}

/-- No file of the source consists of the hashes of the chunks of another. -/
def NoneOfHashes : Prop :=
  ∀ path st path' st' n,
    2 ≤ count (calculateAdaptiveChunkSize n) (version path' st').length →
    version path st ≠ leafHashes blake3 (calculateAdaptiveChunkSize n) (version path' st')

/-- Hashes are of 32 bytes, and different for different bytes. -/
structure Collisionless : Prop where
  length : ∀ b, (blake3 b).length = 32
  injOn : Set.InjOn blake3 (versionBytes blake3 version)
  noneOfHashes : NoneOfHashes blake3 version

end Versions

section Roots
variable {version : Path → Stamp → Bytes} (hblake : Collisionless blake3 version)
  {path path' : Path} {st st' : Stamp}

theorem version_mem : version path st ∈ versionBytes blake3 version := ⟨path, st, .inl rfl⟩

theorem hashed_subset (path : Path) (st : Stamp) (n : ℕ) :
    hashed blake3 (calculateAdaptiveChunkSize n) (version path st) ⊆ versionBytes blake3 version :=
  fun _ hx => ⟨path, st, .inr ⟨n, hx⟩⟩

theorem pos_chunkSize (n : ℕ) : 0 < calculateAdaptiveChunkSize n :=
  lt_of_lt_of_le (by decide) (le_calculateAdaptiveChunkSize n)

/-- The root of a file of no more than one chunk is its own hash. -/
theorem root_of_count_lt {n : ℕ} {content : Bytes}
    (h : count (calculateAdaptiveChunkSize n) content.length < 2) :
    (fromFile blake3 content (calculateAdaptiveChunkSize n)).root = blake3 content := by
  by_cases hempty : content = []
  · rw [root_fromFile (pos_chunkSize n), hempty, chunks_nil (pos_chunkSize n)]
    rfl
  · refine root_of_le (pos_chunkSize n) hempty ?_
    by_contra hlt
    have := (lt_count (n := content.length) (i := 1) (pos_chunkSize n)).mpr (by omega)
    omega

include hblake in
/-- A version with the hash that another has as its root is that version. -/
theorem eq_of_hash_eq_root {n : ℕ}
    (h : blake3 (version path st) =
      (fromFile blake3 (version path' st') (calculateAdaptiveChunkSize n)).root) :
    version path st = version path' st' := by
  rcases Nat.lt_or_ge (count (calculateAdaptiveChunkSize n) (version path' st').length) 2
    with hfew | hmany
  · rw [root_of_count_lt hfew] at h
    exact hblake.injOn version_mem version_mem h
  · rw [root_of_two_le (pos_chunkSize n) hmany] at h
    exact absurd (hblake.injOn version_mem (hashed_subset path' st' n (.inr (.inl rfl))) h)
      (hblake.noneOfHashes path st path' st' n hmany)

include hblake in
/-- Versions with the same root are the same. -/
theorem eq_of_root_eq {n n' : ℕ}
    (h : (fromFile blake3 (version path st) (calculateAdaptiveChunkSize n)).root =
      (fromFile blake3 (version path' st') (calculateAdaptiveChunkSize n')).root) :
    version path st = version path' st' := by
  rcases Nat.lt_or_ge (count (calculateAdaptiveChunkSize n) (version path st).length) 2
    with hfew | hmany
  · rw [root_of_count_lt hfew] at h
    exact eq_of_hash_eq_root hblake h
  · have hinj := hblake.injOn.mono
      (Set.union_subset (hashed_subset path st n) (hashed_subset path' st' n'))
    rcases eq_or_of_root_eq hblake.length (pos_chunkSize n) (pos_chunkSize n') hinj hmany h
      with heq | hhashes
    · exact heq.symm
    · exact absurd hhashes (hblake.noneOfHashes path' st' path st n hmany)

end Roots

/-! ## Runs that are safe -/

section Safety
variable (blake3) (cfg) (version : Path → Stamp → Bytes)

/-- A file of the source is the version that its size and time stand for. -/
def IsVersion (path : Path) (file : Option FileData) : Prop :=
  ∀ src, file = some src → src.content = version path src.stamp

/-- A scan finds the target equal and can store the signature, which it does not have. -/
def storesSignature (src : FileData) (t : TargetFile) (env : CheckEnv) : Bool :=
  env.prescan ≠ some src.stamp && !t.dirty && env.readsSource &&
    !t.sig.any (fun dstSig => (SyncSignature.compute blake3 cfg src).matches dstSig) &&
    env.opens && accepts blake3 cfg src t env && env.stores

/-- Where no Merkle signature is compared, the files are equal. -/
def CheckSafe (src : FileData) (t : TargetFile) (env : CheckEnv) : Prop :=
  storesSignature blake3 cfg src t env = true → getMerkleSignature t = none →
    ∀ f, t.file = some f → f.content = src.content

/-- After a copy the signatures are stored. -/
def written (src : FileData) (j : Attempt) : Bool :=
  j.stores && (src.content.length ≤ hydrationSmallFileThreshold || j.applies)

/-- There is a Merkle signature among them. -/
def storesMerkle (src : FileData) (cached : Option CachedSignatures) (j : Attempt) : Bool :=
  match cached with
  | some e => e.merkle.isSome
  | none => src.content.length > merkleDeltaThreshold && j.hashesTarget

/-- A copy is one of the source, which does not change meanwhile; cached signatures are of this
version; and those of another content do not stay. -/
structure CopySafe (src : FileData) (t : TargetFile) (cached : Option CachedSignatures)
    (content : Bytes) (j : Attempt) : Prop where
  copied : content = src.content
  after : j.after = some src
  same : ∀ e, cached = some e → e.syncSig.stamp = src.stamp
  kept : metadataSurvives src t j = true →
    (∃ f, t.file = some f ∧ f.content = src.content) ∨
    ((t.sig = none ∨ written src j = true) ∧
      (t.merkle = none ∨ written src j = true ∧ storesMerkle src cached j = true))

/-- No ranges are copied, and a copy that fails changes no file with signatures. -/
def AttemptSafe (src : FileData) (t : TargetFile) (cached : Option CachedSignatures)
    (j : Attempt) : Prop :=
  match merkleBranch blake3 src.content ((t.file.map FileData.content).getD [])
      (getMerkleSignature t) j.deltaCopies with
  | some (_, none) => True
  | some (_, some _) => False
  | none =>
    match j.copied with
    | none => (t.sig = none ∧ t.merkle = none) ∨
        j.left.map FileData.content = t.file.map FileData.content
    | some content => CopySafe src t cached content j

def State.Safe {τ : Type*} (s : State τ) : Action τ → Prop
  | .edit path file => IsVersion version path file
  | .check t path env =>
    ∀ src, s.source path = some src → CheckSafe blake3 cfg src (s.target t path) env
  | .attempt t path j =>
    IsVersion version path j.after ∧
    ∀ src, s.source path = some src → AttemptSafe blake3 src (s.target t path) (s.cache path) j

end Safety

/-! ## The invariant -/

section Invariant
variable (blake3) (version : Path → Stamp → Bytes) (path : Path)

/-- A signature of a content, which is the version it stands for. -/
structure SigGood (content : Bytes) (sig : SyncSignature) : Prop where
  version : content = version path sig.stamp
  describes : Describes blake3 content sig

/-- A Merkle signature of a content, which is some version. -/
structure MerkleGood (content : Bytes) (m : MerkleSignature) : Prop where
  version : ∃ st, content = version path st
  describes : MerkleDescribes blake3 content m

structure TargetFile.Good (t : TargetFile) : Prop where
  sync : ∀ sig, t.sig = some sig → ∃ f, t.file = some f ∧ SigGood blake3 version path f.content sig
  merkle : ∀ m, t.merkle = some m → ∃ f, t.file = some f ∧ MerkleGood blake3 version path f.content m

structure CachedSignatures.Good (content : Bytes) (e : CachedSignatures) : Prop where
  sync : SigGood blake3 version path content e.syncSig
  merkle : ∀ m, e.merkle = some m → MerkleGood blake3 version path content m

structure State.Good {τ : Type*} (s : State τ) : Prop where
  source : ∀ path, IsVersion version path (s.source path)
  target : ∀ t path, (s.target t path).Good blake3 version path
  cache : ∀ path e, s.cache path = some e →
    e.Good blake3 version path (version path e.syncSig.stamp)

end Invariant

section Matches
variable {version : Path → Stamp → Bytes} (hblake : Collisionless blake3 version) {path : Path}

theorem getMerkleSignature_eq {t : TargetFile} {m : MerkleSignature}
    (h : getMerkleSignature t = some m) : t.merkle = some m := by
  unfold getMerkleSignature at h
  cases hm : t.merkle with
  | none =>
    rw [hm] at h
    cases h
  | some sig =>
    rw [hm] at h
    dsimp only at h
    split_ifs at h
    exact h

/-- A match is by size, and by the roots or the times. -/
theorem SyncSignature.matches_cases {a b : SyncSignature} (h : a.matches b = true) :
    a.size = b.size ∧ ((∃ root, a.merkleRoot = some root ∧ b.merkleRoot = some root) ∨
      (a.mtimeSec = b.mtimeSec ∧ a.mtimeNsec = b.mtimeNsec)) := by
  unfold SyncSignature.matches at h
  by_cases hsize : a.size = b.size
  swap
  · rw [if_pos hsize] at h
    cases h
  rw [if_neg (not_not.mpr hsize)] at h
  refine ⟨hsize, ?_⟩
  split at h
  next x y hx hy =>
    obtain rfl : x = y := of_decide_eq_true h
    exact .inl ⟨x, hx, hy⟩
  next =>
    by_cases htime : a.mtimeSec ≠ b.mtimeSec ∨ a.mtimeNsec ≠ b.mtimeNsec
    · rw [if_pos htime] at h
      cases h
    · push Not at htime
      exact .inr htime

include hblake in
/-- A match with a good signature means equal content. -/
theorem SigGood.eq_of_matches {content : Bytes} {sig : SyncSignature}
    (hgood : SigGood blake3 version path content sig) {src : FileData}
    (hsrc : src.content = version path src.stamp)
    (h : (SyncSignature.compute blake3 cfg src).matches sig = true) : src.content = content := by
  obtain ⟨hsize, ⟨root, hroot, hsig⟩ | ⟨hsec, hnsec⟩⟩ := SyncSignature.matches_cases h
  · have hflat : root = blake3 src.content := by
      simp only [SyncSignature.compute] at hroot
      split_ifs at hroot
      exact (Option.some.inj hroot).symm
    rw [hsrc, hgood.version]
    rw [hsrc] at hflat
    rcases hgood.describes.root root hsig with hdst | hdst
    · rw [hgood.version] at hdst
      exact hblake.injOn version_mem version_mem (hflat.symm.trans hdst)
    · obtain ⟨n, hn⟩ := hgood.describes.chunkSize
      rw [hn, hgood.version] at hdst
      exact eq_of_hash_eq_root hblake (hflat.symm.trans hdst)
  · have hstamp : src.stamp = sig.stamp := by
      simp only [SyncSignature.compute] at hsize hsec hnsec
      simp only [FileData.stamp, SyncSignature.stamp, hsize, hsec, hnsec]
    rw [hsrc, hgood.version, hstamp]

include hblake in
theorem MerkleGood.eq_of_verified {content : Bytes} {m : MerkleSignature}
    (hgood : MerkleGood blake3 version path content m) {src : FileData}
    (hsrc : src.content = version path src.stamp)
    (h : verifyWithMerkle blake3 src.content m = true) : src.content = content := by
  obtain ⟨st, hst⟩ := hgood.version
  obtain ⟨n, rfl⟩ := hgood.describes
  have hroot : (fromFile blake3 src.content (calculateAdaptiveChunkSize n)).root =
      (fromFile blake3 content (calculateAdaptiveChunkSize n)).root := of_decide_eq_true h
  rw [hsrc, hst] at hroot ⊢
  exact eq_of_root_eq hblake hroot

include hblake in
/-- The invariant gives what signatures are to say. -/
theorem State.Good.sound {τ : Type*} {s : State τ} (h : s.Good blake3 version) :
    s.Sound blake3 cfg := by
  intro t path f hf
  have hfile : ∀ {g : FileData}, (s.target t path).file = some g → g = f := fun hg =>
    Option.some.inj (hg.symm.trans hf)
  refine ⟨fun sig hsig => ?_, fun m hm => ?_, fun sig src hsig hsrc hmatch => ?_,
    fun m src hm hsrc hverified => ?_⟩
  · obtain ⟨g, hg, hgood⟩ := (h.target t path).sync sig hsig
    exact hfile hg ▸ hgood.describes
  · obtain ⟨g, hg, hgood⟩ := (h.target t path).merkle m (getMerkleSignature_eq hm)
    exact hfile hg ▸ hgood.describes
  · obtain ⟨g, hg, hgood⟩ := (h.target t path).sync sig hsig
    exact hfile hg ▸ hgood.eq_of_matches hblake (h.source path src hsrc) hmatch
  · obtain ⟨g, hg, hgood⟩ := (h.target t path).merkle m (getMerkleSignature_eq hm)
    exact hfile hg ▸ hgood.eq_of_verified hblake (h.source path src hsrc) hverified

end Matches

/-! ## Steps -/

section Steps
variable {version : Path → Stamp → Bytes} {path : Path} {src : FileData} {t : TargetFile}

/-- A scan stores nothing but the signature of the source. -/
theorem syncFileNeeded_snd (env : CheckEnv) :
    (syncFileNeeded blake3 cfg src t env).2 =
      if storesSignature blake3 cfg src t env then
        { t with sig := some (SyncSignature.compute blake3 cfg src) }
      else t := by
  have hcompared : ∀ f, t.file = some f →
      (if !env.opens then (true, t)
        else if cfg.enabled = false then
          if !env.locks then (true, t)
          else (f.content.length ≠ src.content.length || f.mtimeSec ≠ src.mtimeSec, t)
        else if accepts blake3 cfg src t env then
          (false, if env.stores then
            { t with sig := some (SyncSignature.compute blake3 cfg src) } else t)
        else (true, t)).2 =
      if (env.opens && accepts blake3 cfg src t env && env.stores) = true then
        { t with sig := some (SyncSignature.compute blake3 cfg src) } else t := by
    intro f hf
    have hdisabled : cfg.enabled = false → accepts blake3 cfg src t env = false := by
      intro h
      simp [accepts, hf, h]
    split_ifs <;> simp_all
  unfold syncFileNeeded storesSignature
  by_cases hprescan : env.prescan = some src.stamp
  · simp [hprescan]
  by_cases hdirty : t.dirty = true
  · simp [hprescan, hdirty]
  by_cases hreads : env.readsSource = true
  swap
  · simp [hprescan, hdirty, hreads]
  cases hfile : t.file with
  | none =>
    have haccepts : accepts blake3 cfg src t env = false := by simp [accepts, hfile]
    cases hsig : t.sig <;> simp [hprescan, hdirty, hreads, haccepts]
  | some f =>
    cases hsig : t.sig with
    | none => simpa [hprescan, hdirty, hreads, hsig, hfile] using hcompared f hfile
    | some sig =>
      by_cases hmatches : (SyncSignature.compute blake3 cfg src).matches sig = true
      · simp [hprescan, hdirty, hreads, hmatches]
      · simpa [hprescan, hdirty, hreads, hmatches, hsig, hfile] using hcompared f hfile

/-- The signature of a version of the source is good for it. -/
theorem sigGood_compute (hsrc : src.content = version path src.stamp) :
    SigGood blake3 version path src.content (SyncSignature.compute blake3 cfg src) := by
  refine ⟨hsrc, rfl, ⟨_, rfl⟩, fun root hroot => .inl ?_⟩
  simp only [SyncSignature.compute] at hroot
  split_ifs at hroot
  exact (Option.some.inj hroot).symm

/-- So is what a job computes when source and target have that version. -/
theorem good_computeSignatures (hsrc : src.content = version path src.stamp)
    (hashesTarget : Bool) :
    (computeSignatures blake3 cfg src.content.length src src.content hashesTarget).Good
      blake3 version path src.content := by
  refine ⟨⟨hsrc, rfl, ⟨_, rfl⟩, fun root hroot => .inr ?_⟩, fun m hm => ⟨⟨_, hsrc⟩, src.content.length, ?_⟩⟩
  · obtain ⟨tree, htree, rfl⟩ := Option.map_eq_some_iff.mp hroot
    split_ifs at htree
    rw [← Option.some.inj htree]
    rfl
  · obtain ⟨hm', -⟩ := Option.filter_eq_some_iff.mp hm
    obtain ⟨tree, htree, rfl⟩ := Option.map_eq_some_iff.mp hm'
    split_ifs at htree
    rw [← Option.some.inj htree]

/-- The Merkle signature of a file in chunks of its own size can be stored. -/
theorem fitsInXattr_toSignature (content : Bytes) :
    fitsInXattr (fromFile blake3 content
      (calculateAdaptiveChunkSize content.length)).toSignature = true := by
  have hlen : (fromFile blake3 content
      (calculateAdaptiveChunkSize content.length)).toSignature.leafHashes.length =
      count (calculateAdaptiveChunkSize content.length) content.length := by
    rw [toSignature, List.length_map, length_leaves_fromFile (pos_chunkSize _)]
  refine decide_eq_true ?_
  have := count_calculateAdaptiveChunkSize_le content.length
  rw [hlen]
  omega

/-- Where a Merkle signature is to be stored, there is one. -/
theorem isSome_merkle_of_storesMerkle {cached : Option CachedSignatures} {j : Attempt}
    {e : CachedSignatures} (h : storesMerkle src cached j = true)
    (he : signaturesFor blake3 cfg cached src.content.length (some src) src.content
      j.hashesTarget = some e) : e.merkle.isSome = true := by
  cases cached with
  | some e' =>
    obtain rfl : e' = e := Option.some.inj he
    exact h
  | none =>
    simp only [storesMerkle, Bool.and_eq_true, decide_eq_true_eq] at h
    obtain rfl := Option.some.inj he
    simp [computeSignatures, h.1, h.2, Option.filter, fitsInXattr_toSignature]

/-- Signatures are about the content only. -/
theorem TargetFile.Good.withFile (ht : t.Good blake3 version path) {file : Option FileData}
    (h : file.map FileData.content = t.file.map FileData.content) :
    TargetFile.Good blake3 version path { t with file := file } := by
  have hfile : ∀ f, t.file = some f → ∃ g, file = some g ∧ g.content = f.content := by
    intro f hf
    rw [hf] at h
    exact Option.map_eq_some_iff.mp h
  refine ⟨fun sig hsig => ?_, fun m hm => ?_⟩
  · obtain ⟨f, hf, hgood⟩ := ht.sync sig hsig
    obtain ⟨g, hg, hsame⟩ := hfile f hf
    exact ⟨g, hg, hsame ▸ hgood⟩
  · obtain ⟨f, hf, hgood⟩ := ht.merkle m hm
    obtain ⟨g, hg, hsame⟩ := hfile f hf
    exact ⟨g, hg, hsame ▸ hgood⟩

section Copies
variable {cached : Option CachedSignatures} {content : Bytes} {j : Attempt}

/-- A signature that stays after a copy and is not written over is one of the source. -/
theorem CopySafe.sigGood_of_kept (hsafe : CopySafe src t cached content j)
    (ht : t.Good blake3 version path) (hwritten : written src j = false) {sig : SyncSignature}
    (h : (afterCopy src t content j).sig = some sig) :
    SigGood blake3 version path src.content sig := by
  simp only [afterCopy] at h
  split_ifs at h with hkept
  obtain ⟨g, hg, hgood⟩ := ht.sync sig h
  rcases hsafe.kept hkept with ⟨f, hf, hsame⟩ | ⟨hnone | hwrites, -⟩
  · obtain rfl : f = g := Option.some.inj (hf.symm.trans hg)
    exact hsame ▸ hgood
  · rw [hnone] at h
    cases h
  · rw [hwritten] at hwrites
    cases hwrites

theorem CopySafe.merkleGood_of_kept (hsafe : CopySafe src t cached content j)
    (ht : t.Good blake3 version path)
    (hwritten : ¬ (written src j = true ∧ storesMerkle src cached j = true)) {m : MerkleSignature}
    (h : (afterCopy src t content j).merkle = some m) :
    MerkleGood blake3 version path src.content m := by
  simp only [afterCopy] at h
  split_ifs at h with hkept
  obtain ⟨g, hg, hgood⟩ := ht.merkle m h
  rcases hsafe.kept hkept with ⟨f, hf, hsame⟩ | ⟨-, hnone | hwrites⟩
  · obtain rfl : f = g := Option.some.inj (hf.symm.trans hg)
    exact hsame ▸ hgood
  · rw [hnone] at h
    cases h
  · exact absurd hwrites hwritten

/-- The signatures that a job uses after a safe copy are those of the source. -/
theorem CopySafe.good_signaturesFor (hsafe : CopySafe src t cached content j)
    (hsrc : src.content = version path src.stamp)
    (hcache : ∀ e, cached = some e → e.Good blake3 version path (version path e.syncSig.stamp))
    {e : CachedSignatures}
    (he : signaturesFor blake3 cfg cached src.content.length (some src) src.content
      j.hashesTarget = some e) : e.Good blake3 version path src.content := by
  cases hcached : cached with
  | some e' =>
    rw [hcached] at he
    obtain rfl : e' = e := Option.some.inj he
    have hgood := hcache e' hcached
    rwa [hsafe.same e' hcached, ← hsrc] at hgood
  | none =>
    rw [hcached] at he
    obtain rfl := Option.some.inj he
    exact good_computeSignatures hsrc j.hashesTarget

/-- A safe copy leaves good signatures, at the target and in the cache. -/
theorem CopySafe.good_postCopy (hsafe : CopySafe src t cached content j)
    (hsrc : src.content = version path src.stamp) (ht : t.Good blake3 version path)
    (hcache : ∀ e, cached = some e → e.Good blake3 version path (version path e.syncSig.stamp)) :
    let r := postCopy blake3 cfg src (afterCopy src t content j) cached content j
    r.1.Good blake3 version path ∧
      ∀ e, r.2 = some e → e.Good blake3 version path (version path e.syncSig.stamp) := by
  have hfile : (afterCopy src t content j).file = some ⟨src.content, j.mtimeSec, j.mtimeNsec⟩ := by
    rw [← hsafe.copied]
    rfl
  -- Nothing is written, and what is kept is good.
  have hunwritten : written src j = false → (afterCopy src t content j).Good blake3 version path :=
    fun hwritten =>
      ⟨fun sig hsig => ⟨_, hfile, hsafe.sigGood_of_kept ht hwritten hsig⟩,
        fun m hm => ⟨_, hfile, hsafe.merkleGood_of_kept ht (by simp [hwritten]) hm⟩⟩
  simp only [postCopy, hsafe.after, Option.isNone_some, Bool.false_eq_true, if_false]
  by_cases happly : src.content.length > hydrationSmallFileThreshold ∧ j.applies = false
  · rw [if_pos happly]
    refine ⟨hunwritten ?_, hcache⟩
    simp only [written, happly.2, Bool.or_false, Bool.and_eq_false_imp, decide_eq_false_iff_not]
    exact fun _ => not_le.mpr happly.1
  rw [if_neg happly]
  cases he : signaturesFor blake3 cfg cached src.content.length (some src) content
      j.hashesTarget with
  | none =>
    cases cached with
    | some e => cases he
    | none => cases he
  | some e =>
    rw [hsafe.copied] at he
    have hgood := hsafe.good_signaturesFor hsrc hcache he
    dsimp only
    constructor
    · cases hstores : j.stores with
      | false =>
        have hkept := hunwritten (by simp [written, hstores])
        exact ⟨hkept.sync, hkept.merkle⟩
      | true =>
        have hwritten : written src j = true := by
          simp only [written, hstores, Bool.true_and, Bool.or_eq_true, decide_eq_true_eq]
          by_contra hno
          push Not at hno
          exact happly ⟨hno.1, by simpa using hno.2⟩
        refine ⟨fun sig hsig => ⟨_, hfile, ?_⟩, fun m hm => ⟨_, hfile, ?_⟩⟩
        · obtain rfl := Option.some.inj hsig
          exact hgood.sync
        · simp only [if_true] at hm
          split_ifs at hm with hmerkle
          · exact hgood.merkle m hm
          · refine hsafe.merkleGood_of_kept ht (fun h => hmerkle ?_) hm
            exact isSome_merkle_of_storesMerkle h.2 he
    · intro e' he'
      obtain rfl := Option.some.inj he'
      rw [← hgood.sync.version]
      exact hgood

/-- A safe attempt leaves good signatures. -/
theorem AttemptSafe.good_attempt (hsafe : AttemptSafe blake3 src t cached j)
    (hsrc : src.content = version path src.stamp) (ht : t.Good blake3 version path)
    (hcache : ∀ e, cached = some e → e.Good blake3 version path (version path e.syncSig.stamp)) :
    let r := attempt blake3 cfg (some src) t cached j
    r.1.Good blake3 version path ∧
      ∀ e, r.2 = some e → e.Good blake3 version path (version path e.syncSig.stamp) := by
  unfold AttemptSafe at hsafe
  simp only [attempt]
  cases hbranch : merkleBranch blake3 src.content ((t.file.map FileData.content).getD [])
      (getMerkleSignature t) j.deltaCopies with
  | some r =>
    obtain ⟨content, _ | sig⟩ := r
    · exact ⟨ht, hcache⟩
    · rw [hbranch] at hsafe
      exact hsafe.elim
  | none =>
    rw [hbranch] at hsafe
    cases hcopied : j.copied with
    | some content =>
      rw [hcopied] at hsafe
      exact hsafe.good_postCopy hsrc ht hcache
    | none =>
      rw [hcopied] at hsafe
      refine ⟨?_, hcache⟩
      rcases hsafe with ⟨hsig, hmerkle⟩ | hleft
      · exact ⟨fun _ h => (by cases hsig.symm.trans h), fun _ h => (by cases hmerkle.symm.trans h)⟩
      · exact ht.withFile hleft

end Copies

/-- A safe check stores the signature only of a target with the content of the source. -/
theorem CheckSafe.good_syncFileNeeded (hblake : Collisionless blake3 version) {env : CheckEnv}
    (hsafe : CheckSafe blake3 cfg src t env) (hsrc : src.content = version path src.stamp)
    (ht : t.Good blake3 version path) :
    (syncFileNeeded blake3 cfg src t env).2.Good blake3 version path := by
  rw [syncFileNeeded_snd]
  split_ifs with hstores
  swap
  · exact ht
  refine ⟨fun sig hsig => ?_, ht.merkle⟩
  obtain rfl := Option.some.inj hsig
  have haccepts : accepts blake3 cfg src t env = true := by
    simp only [storesSignature, Bool.and_eq_true] at hstores
    exact hstores.1.2
  cases hfile : t.file with
  | none => simp [accepts, hfile] at haccepts
  | some f =>
    have hsame : f.content = src.content := by
      cases hm : getMerkleSignature t with
      | none => exact hsafe hstores hm f hfile
      | some m =>
        -- The Merkle signature is one of the target, and its root is that of the source.
        obtain ⟨g, hg, hgood⟩ := ht.merkle m (getMerkleSignature_eq hm)
        obtain rfl : f = g := Option.some.inj (hfile.symm.trans hg)
        simp only [accepts, hfile, hm, Bool.and_eq_true] at haccepts
        exact (hgood.eq_of_verified hblake hsrc haccepts.2).symm
    exact ⟨f, rfl, hsame ▸ sigGood_compute hsrc⟩

end Steps

section Runs
variable {τ : Type*} [DecidableEq τ] {version : Path → Stamp → Bytes}

theorem State.Good.setTarget {s : State τ} (h : s.Good blake3 version) {t : τ} {path : Path}
    {f : TargetFile} (hf : f.Good blake3 version path) :
    (s.setTarget t path f).Good blake3 version := by
  refine ⟨h.source, fun t' path' => ?_, h.cache⟩
  by_cases ht : t' = t
  · subst ht
    by_cases hpath : path' = path
    · subst hpath
      simpa [State.setTarget] using hf
    · simpa [State.setTarget, Function.update_of_ne hpath] using h.target t' path'
  · simpa [State.setTarget, Function.update_of_ne ht] using h.target t' path'

/-- A safe step keeps the invariant. -/
theorem State.Good.step (hblake : Collisionless blake3 version) {s : State τ} {a : Action τ}
    (hsafe : s.Safe blake3 cfg version a) (h : s.Good blake3 version) :
    (s.step blake3 cfg a).Good blake3 version := by
  have hsource : ∀ {path : Path} {file : Option FileData}, IsVersion version path file →
      ∀ path', IsVersion version path' (Function.update s.source path file path') := by
    intro path file hfile path'
    by_cases hpath : path' = path
    · subst hpath
      rwa [Function.update_self]
    · rw [Function.update_of_ne hpath]
      exact h.source path'
  cases a with
  | edit path file => exact ⟨hsource hsafe, h.target, h.cache⟩
  | check t path env =>
    simp only [State.step]
    cases hsrc : s.source path with
    | none => exact h
    | some src =>
      exact h.setTarget ((hsafe src hsrc).good_syncFileNeeded hblake (h.source path src hsrc)
        (h.target t path))
  | attempt t path j =>
    obtain ⟨hafter, hsafe⟩ := hsafe
    have hgood : let r := attempt blake3 cfg (s.source path) (s.target t path) (s.cache path) j
        r.1.Good blake3 version path ∧
          ∀ e, r.2 = some e → e.Good blake3 version path (version path e.syncSig.stamp) := by
      cases hsrc : s.source path with
      | none => exact ⟨h.target t path, h.cache path⟩
      | some src =>
        exact (hsafe src hsrc).good_attempt (h.source path src hsrc) (h.target t path)
          (h.cache path)
    refine ⟨hsource hafter, (h.setTarget hgood.1).target, fun path' e he => ?_⟩
    simp only [State.step] at he
    by_cases hpath : path' = path
    · subst hpath
      rw [Function.update_self] at he
      exact hgood.2 e he
    · rw [Function.update_of_ne hpath] at he
      exact h.cache path' e he

omit [DecidableEq τ] in
theorem State.good_start {source : Path → Option FileData}
    {files : τ → Path → Option FileData} (hsource : ∀ path, IsVersion version path (source path)) :
    (State.start source files).Good blake3 version := by
  refine ⟨hsource, fun t path => ⟨fun sig hsig => ?_, fun m hm => ?_⟩, fun path e he => ?_⟩
  · cases hsig
  · cases hm
  · cases he

/-- In every safe run the stored signatures are those of the files of the targets, and where
they match the source, the files are equal. -/
theorem State.sound_of_safe (hblake : Collisionless blake3 version)
    {source : Path → Option FileData} {files : τ → Path → Option FileData}
    (hsource : ∀ path, IsVersion version path (source path)) {as : List (Action τ)}
    (hsafe : Run.Along (State.step blake3 cfg) (State.Safe blake3 cfg version)
      (State.start source files) as) :
    ∀ p, p <+: as →
      (Run.exec (State.step blake3 cfg) (State.start source files) p).Sound blake3 cfg := by
  intro p hp
  have hgood := Run.invariant_prefix (State.step blake3 cfg)
    (I := fun s : State τ => s.Good blake3 version)
    (fun _ _ hok hgood => hgood.step hblake hok) hsafe (State.good_start hsource) p hp
  exact hgood.sound hblake

end Runs

/-! ## A file of one byte, and an empty one -/

/-- The versions of a file by their size. -/
def smallVersion (_ : Path) (st : Stamp) : Bytes := zeros (min st.size 1)

theorem smallVersion_cases (path : Path) (st : Stamp) :
    smallVersion path st = [] ∨ smallVersion path st = zeros 1 := by
  rcases Nat.eq_zero_or_pos st.size with h | h
  · left
    rw [smallVersion, h]
    rfl
  · right
    rw [smallVersion, min_eq_right h]

theorem chunks_small {n : ℕ} {content : Bytes} (h : content = [] ∨ content = zeros 1) :
    chunks (calculateAdaptiveChunkSize n) content = if content = [] then [] else [zeros 1] := by
  have hc := le_calculateAdaptiveChunkSize n
  rcases h with rfl | rfl
  · rw [chunks_nil (by omega), if_pos rfl]
  · have hne : zeros 1 ≠ [] := by decide
    have hle : (zeros 1).length ≤ calculateAdaptiveChunkSize n := by
      rw [length_zeros]
      omega
    rw [chunks_cons (by omega) hne, List.drop_eq_nil_of_le hle, chunks_nil (by omega),
      List.take_of_length_le hle, if_neg hne]

theorem collisionless_small : Collisionless lengthHash smallVersion := by
  refine ⟨length_lengthHash, ?_, fun path st path' st' n h => ?_⟩
  · refine lengthHash_injOn [[], zeros 1, lengthHash (zeros 1)] ?_ (by decide) (by decide)
    rintro x ⟨path, st, hx⟩
    rcases smallVersion_cases path st with hst | hst
    · rw [hst] at hx
      rcases hx with rfl | ⟨n, hx | rfl | rfl⟩
      · simp
      · rw [chunks_small (.inl rfl)] at hx
        cases hx
      · simp [leafHashes, chunks_small (.inl rfl)]
      · simp
    · rw [hst] at hx
      rcases hx with rfl | ⟨n, hx | rfl | rfl⟩
      · simp
      · rw [chunks_small (.inr rfl), if_neg (by decide)] at hx
        simp [List.mem_singleton.mp hx]
      · rw [leafHashes, chunks_small (.inr rfl), if_neg (by decide)]
        simp
      · simp
  · have hcount := length_chunks (calculateAdaptiveChunkSize n) (smallVersion path' st')
    rw [chunks_small (smallVersion_cases path' st')] at hcount
    split_ifs at hcount <;> simp at hcount <;> omega

def oneByte : FileData := ⟨zeros 1, 1, 0⟩

def noByte : FileData := ⟨[], 2, 0⟩

theorem isVersion_oneByte : IsVersion smallVersion ["f"] (some oneByte) := by
  rintro _ ⟨⟩
  decide

theorem isVersion_noByte : IsVersion smallVersion ["f"] (some noByte) := by
  rintro _ ⟨⟩
  decide

/-- An attempt in which nothing fails. -/
def fullCopy (src : FileData) : Attempt :=
  ⟨true, true, some src.content, none, src.mtimeSec, src.mtimeNsec, false, some src, true, true, true⟩

def hashAll : HashConfig := ⟨true, 0⟩

/-- A full copy of a small file is safe to a target without a file, unless signatures of
another version are cached. -/
theorem attemptSafe_fullCopy {src : FileData} {t : TargetFile} {cached : Option CachedSignatures}
    (hsmall : src.content.length ≤ merkleDeltaThreshold) (ht : t.file = none)
    (hcached : ∀ e, cached = some e → e.syncSig.stamp = src.stamp) :
    AttemptSafe lengthHash src t cached (fullCopy src) := by
  unfold AttemptSafe merkleBranch
  rw [if_neg (not_lt.mpr hsmall)]
  refine ⟨rfl, rfl, hcached, fun hkept => ?_⟩
  simp [metadataSurvives, ht, fullCopy] at hkept

/-- A file is copied to two targets; then it is made empty and checked. -/
def twoCopies : List (Action Bool) :=
  [.edit ["f"] (some oneByte), .attempt false ["f"] (fullCopy oneByte),
    .attempt true ["f"] (fullCopy oneByte), .edit ["f"] (some noByte),
    .check true ["f"] ⟨none, false, true, true, true, true, true⟩]

/-- The signature at the second target is the cached one, and says what the copy is. -/
theorem twoCopies_sound :
    ∃ f sig, (((Run.exec (State.step lengthHash hashAll)
        (State.start (fun _ => none) fun _ _ => none) twoCopies).target true ["f"]).file = some f ∧
      ((Run.exec (State.step lengthHash hashAll)
        (State.start (fun _ => none) fun _ _ => none) twoCopies).target true ["f"]).sig = some sig) ∧
      Describes lengthHash f.content sig := by
  have hsafe : Run.Along (State.step lengthHash hashAll)
      (State.Safe lengthHash hashAll smallVersion)
      (State.start (fun _ => none) fun _ _ => none) twoCopies := by
    refine ⟨isVersion_oneByte, ⟨isVersion_oneByte, ?_⟩, ⟨isVersion_oneByte, ?_⟩,
      isVersion_noByte, ?_, trivial⟩
    · rintro _ ⟨⟩
      exact attemptSafe_fullCopy (by decide) rfl (fun _ h => by cases h)
    · rintro _ ⟨⟩
      exact attemptSafe_fullCopy (by decide) rfl (by rintro _ ⟨⟩; decide +kernel)
    · rintro _ ⟨⟩ hstores
      revert hstores
      decide +kernel
  have hfile : ((Run.exec (State.step lengthHash hashAll)
      (State.start (fun _ => none) fun _ _ => none) twoCopies).target true ["f"]).file =
        some oneByte := by
    decide +kernel
  refine ⟨oneByte, ⟨1, 1, 0, some (lengthHash (Bytes.ofNat 8 1 ++ zeros 1)), none, 65536⟩,
    ⟨hfile, by decide +kernel⟩, ?_⟩
  have hsource : ∀ path, IsVersion smallVersion path none := by
    rintro path _ ⟨⟩
  exact (State.sound_of_safe collisionless_small hsource hsafe twoCopies
    (List.prefix_refl _) true ["f"] oneByte hfile).sync _ (by decide +kernel)

/-- The signature that is cached for a file is stored for what it has become. -/
theorem cachedSignature_stale :
    ¬ ∀ (blake3 : Bytes → Bytes) (cfg : HashConfig) (version : Path → Stamp → Bytes)
      (as : List (Action Unit)), Collisionless blake3 version →
      (∀ path file, .edit path file ∈ as → IsVersion version path file) →
      (Run.exec (State.step blake3 cfg) (State.start (fun _ => none) fun _ _ => none) as).Sound
        blake3 cfg := by
  intro h
  have hsound := h lengthHash hashAll smallVersion
    [.edit ["f"] (some oneByte), .attempt () ["f"] (fullCopy oneByte),
      .edit ["f"] (some noByte), .attempt () ["f"] (fullCopy noByte)] collisionless_small ?_
  · have hsize := ((hsound () ["f"] noByte (by decide +kernel)).sync
      ⟨1, 1, 0, some (lengthHash (Bytes.ofNat 8 1 ++ zeros 1)), none, 65536⟩ (by decide +kernel)).size
    revert hsize
    decide
  · intro path file hmem
    simp only [List.mem_cons, List.not_mem_nil, or_false, Action.edit.injEq, reduceCtorEq,
      false_or] at hmem
    rcases hmem with ⟨rfl, rfl⟩ | ⟨rfl, rfl⟩
    · exact isVersion_oneByte
    · exact isVersion_noByte

end Foxing.Signatures
