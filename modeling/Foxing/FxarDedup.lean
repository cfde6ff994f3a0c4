import Foxing.FxarWriter
import Mathlib.Data.List.Basic
import Mathlib.Data.Set.Function

/-!
# Deduplication

If no two chunks have the same hash, each chunk is stored once, in the order of
the first occurrences, and the files refer to their chunks by their position in
this order.
-/
namespace Foxing

/-- The files of all snapshots, each with the name of its snapshot. -/
def fileJobs (snaps : List Snapshot) : List (String × SnapshotFile) :=
  snaps.flatMap fun s => s.files.map fun f => (s.name, f)

def SnapshotFile.chunks (f : SnapshotFile) : List Bytes := GearChunker.default.chunks f.data

/-- All chunks, as they are met. -/
def snapshotChunks (snaps : List Snapshot) : List Bytes :=
  (fileJobs snaps).flatMap fun job => job.2.chunks

/-- The chunks at their first occurrences. -/
def storedChunks (snaps : List Snapshot) : List Bytes := (snapshotChunks snaps).eraseDups

namespace FxarLibs
variable (libs : FxarLibs) (compress : String)

/-- What the index says of a chunk, before it has an offset. -/
def indexEntry (chunk : Bytes) : ChunkIndexEntry where
  blake3Hash := libs.blake3 chunk
  size := chunk.length % 2 ^ 32
  offset := 0
  compressedSize := (libs.compressChunk chunk compress).length % 2 ^ 32

/-- What the manifest says of a file, if the chunks are stored in the given order. -/
def manifestEntry (stored : List Bytes) (snapName : String) (f : SnapshotFile) :
    FxarManifestEntry where
  path := archivePath snapName f
  size := f.data.length
  mode := f.mode
  mtime := f.mtime
  uid := f.uid
  gid := f.gid
  blake3 := libs.hexEncode (libs.blake3 f.data)
  chunks := f.chunks.map stored.idxOf
  xattr := (f.xattr.filter fun x => startsWith x.1 "user.foxing").map fun x =>
    (x.1, libs.hexEncode x.2)

def manifestEntries (snaps : List Snapshot) : List FxarManifestEntry :=
  (fileJobs snaps).map fun job => libs.manifestEntry (storedChunks snaps) job.1 job.2

def archiveManifest (created : String) (snaps : List Snapshot) : FxarManifest where
  version := fxarVersion
  created := created
  files := libs.manifestEntries snaps
  snapshots := snaps.map Snapshot.name

end FxarLibs

/-! ## First occurrences -/

section FirstOccurrences
variable {α : Type} [BEq α] [LawfulBEq α] {a : α} {l m : List α}

theorem eraseDups_concat :
    (l ++ [a]).eraseDups = if a ∈ l then l.eraseDups else l.eraseDups ++ [a] := by
  rw [List.eraseDups_append]
  by_cases h : a ∈ l
  · simp [List.removeAll, h]
  · simp [List.removeAll, h, List.eraseDups_cons]

/-- A position does not change when more is met. -/
theorem idxOf_eraseDups_append (h : a ∈ l) : (l ++ m).eraseDups.idxOf a = l.eraseDups.idxOf a := by
  rw [List.eraseDups_append]
  exact List.idxOf_append_of_mem (List.mem_eraseDups.mpr h)

end FirstOccurrences

/-! ## The tables -/

/-- The tables hold the chunks met so far; `all` are those that are ever met. -/
structure DedupTables.Holds (libs : FxarLibs) (compress : String) (all met : List Bytes)
    (t : DedupTables) : Prop where
  entries : t.chunkEntries = met.eraseDups.map (libs.indexEntry compress)
  blobs : t.chunkDataBlobs = met.eraseDups.map fun c => libs.compressChunk c compress
  seen : ∀ c ∈ all, t.seenChunks (libs.blake3 c) =
    if c ∈ met then some (met.eraseDups.idxOf c) else none

namespace DedupTables
variable {libs : FxarLibs} {compress : String} {all met : List Bytes} {t : DedupTables}

theorem holds_empty (libs : FxarLibs) (compress : String) (all : List Bytes) :
    Holds libs compress all [] empty := by
  constructor <;> simp [empty]

theorem addChunk_holds (hinj : Set.InjOn libs.blake3 {c | c ∈ all})
    (h : t.Holds libs compress all met) {c : Bytes} (hc : c ∈ all) :
    (t.addChunk (libs.processChunk compress c)).1 = (met ++ [c]).eraseDups.idxOf c ∧
      (t.addChunk (libs.processChunk compress c)).2.Holds libs compress all (met ++ [c]) ∧
      (t.addChunk (libs.processChunk compress c)).2.manifestEntries = t.manifestEntries := by
  have hseen := h.seen c hc
  unfold addChunk FxarLibs.processChunk
  by_cases hmet : c ∈ met
  · rw [if_pos hmet] at hseen
    simp only [hseen, eraseDups_concat, if_pos hmet, true_and, and_true]
    refine ⟨?_, ?_, ?_⟩
    · simpa [eraseDups_concat, hmet] using h.entries
    · simpa [eraseDups_concat, hmet] using h.blobs
    · intro d hd
      rw [h.seen d hd, eraseDups_concat, if_pos hmet]
      by_cases hdc : d = c
      · simp [hdc, hmet]
      · simp [hdc]
  · rw [if_neg hmet] at hseen
    have hlen : t.chunkEntries.length = met.eraseDups.length := by rw [h.entries, List.length_map]
    have hnot : c ∉ met.eraseDups := fun hmem => hmet (List.mem_eraseDups.mp hmem)
    have hidx : (met.eraseDups ++ [c]).idxOf c = met.eraseDups.length := by
      rw [List.idxOf_append_of_notMem hnot]
      simp
    simp only [hseen, eraseDups_concat, if_neg hmet, and_true]
    refine ⟨by rw [hlen, hidx], ?_, ?_, ?_⟩
    · simp [eraseDups_concat, hmet, h.entries, FxarLibs.indexEntry]
    · simp [eraseDups_concat, hmet, h.blobs]
    · intro d hd
      rw [eraseDups_concat, if_neg hmet]
      by_cases hdc : d = c
      · subst hdc
        simp [hlen, hidx]
      · have hne : libs.blake3 d ≠ libs.blake3 c := fun heq => hdc (hinj hd hc heq)
        show Function.update t.seenChunks (libs.blake3 c) _ (libs.blake3 d) = _
        rw [Function.update_of_ne hne, h.seen d hd]
        by_cases hdm : d ∈ met
        · simp [hdm, List.idxOf_append_of_mem (List.mem_eraseDups.mpr hdm)]
        · simp [hdm, hdc]

theorem addChunks_holds (hinj : Set.InjOn libs.blake3 {c | c ∈ all})
    (h : t.Holds libs compress all met) {cs : List Bytes} (hcs : ∀ c ∈ cs, c ∈ all) :
    (addChunks (cs.map (libs.processChunk compress)) t).1 =
        cs.map (met ++ cs).eraseDups.idxOf ∧
      (addChunks (cs.map (libs.processChunk compress)) t).2.Holds libs compress all (met ++ cs) ∧
      (addChunks (cs.map (libs.processChunk compress)) t).2.manifestEntries =
        t.manifestEntries := by
  induction cs generalizing t met with
  | nil => simpa [addChunks] using h
  | cons c cs ih =>
    obtain ⟨hidx, hstep, hman⟩ := addChunk_holds hinj h (hcs c (by simp))
    obtain ⟨hidxs, hrest, hmans⟩ := ih hstep fun d hd => hcs d (by simp [hd])
    rw [List.append_assoc, List.singleton_append] at hidxs hrest
    simp only [List.map_cons, addChunks]
    refine ⟨?_, hrest, hmans.trans hman⟩
    rw [hidx, hidxs]
    have hc : c ∈ met ++ [c] := by simp
    have hkeep := idxOf_eraseDups_append (m := cs) hc
    rw [List.append_assoc, List.singleton_append] at hkeep
    rw [hkeep]

theorem addFile_holds (hinj : Set.InjOn libs.blake3 {c | c ∈ all})
    (h : t.Holds libs compress all met) {job : String × SnapshotFile}
    (hjob : ∀ c ∈ job.2.chunks, c ∈ all) :
    (t.addFile libs (libs.processFile compress job.1 job.2)).Holds libs compress all
        (met ++ job.2.chunks) ∧
      (t.addFile libs (libs.processFile compress job.1 job.2)).manifestEntries =
        t.manifestEntries ++
          [libs.manifestEntry (met ++ job.2.chunks).eraseDups job.1 job.2] := by
  unfold addFile
  have hcount : DedupTables.Holds libs compress all met { t with stats := { t.stats with
      totalFiles := t.stats.totalFiles + 1
      totalApparentBytes := t.stats.totalApparentBytes + job.2.data.length } } :=
    ⟨h.entries, h.blobs, h.seen⟩
  obtain ⟨hidxs, hrest, hman⟩ := addChunks_holds hinj hcount hjob
  refine ⟨⟨hrest.entries, hrest.blobs, hrest.seen⟩, ?_⟩
  show _ ++ [_] = _
  rw [show (libs.processFile compress job.1 job.2).chunks =
    job.2.chunks.map (libs.processChunk compress) from rfl]
  refine congrArg₂ (· ++ [·]) hman ?_
  unfold FxarLibs.manifestEntry
  rw [← hidxs]
  rfl

end DedupTables

namespace FxarLibs
variable {libs : FxarLibs} {compress : String} {all met : List Bytes}

/-- The positions do not change when more chunks are met. -/
theorem manifestEntry_append (libs : FxarLibs) (l m : List Bytes) (job : String × SnapshotFile)
    (h : ∀ c ∈ job.2.chunks, c ∈ l) :
    libs.manifestEntry (l ++ m).eraseDups job.1 job.2 =
      libs.manifestEntry l.eraseDups job.1 job.2 := by
  unfold manifestEntry
  congr 1
  exact List.map_congr_left fun c hc => idxOf_eraseDups_append (h c hc)

theorem addFiles_holds (hinj : Set.InjOn libs.blake3 {c | c ∈ all})
    {jobs : List (String × SnapshotFile)} {t : DedupTables} (h : t.Holds libs compress all met)
    (hjobs : ∀ job ∈ jobs, ∀ c ∈ job.2.chunks, c ∈ all) :
    let t' := (jobs.map fun job => libs.processFile compress job.1 job.2).foldl
      (DedupTables.addFile libs) t
    t'.Holds libs compress all (met ++ jobs.flatMap fun job => job.2.chunks) ∧
      t'.manifestEntries = t.manifestEntries ++ jobs.map fun job => libs.manifestEntry
        (met ++ jobs.flatMap fun job => job.2.chunks).eraseDups job.1 job.2 := by
  induction jobs generalizing t met with
  | nil => simpa using h
  | cons job jobs ih =>
    obtain ⟨hstep, hman⟩ := DedupTables.addFile_holds hinj h (hjobs job (by simp))
    obtain ⟨hrest, hmans⟩ := ih hstep fun j hj => hjobs j (by simp [hj])
    rw [List.append_assoc] at hrest hmans
    simp only [List.map_cons, List.foldl_cons, List.flatMap_cons]
    refine ⟨hrest, hmans.trans ?_⟩
    have hkeep := libs.manifestEntry_append (met ++ job.2.chunks)
      (jobs.flatMap fun job => job.2.chunks) job fun c hc => by simp [hc]
    rw [List.append_assoc] at hkeep
    rw [hman, hkeep, List.append_assoc, List.singleton_append]

theorem collectAndProcessFiles_eq (snaps : List Snapshot) :
    libs.collectAndProcessFiles compress snaps =
      (fileJobs snaps).map fun job => libs.processFile compress job.1 job.2 := by
  unfold collectAndProcessFiles fileJobs
  simp only [List.map_flatMap, List.map_map]
  rfl

/-- The tables of an archive: the chunks are stored in the order of their first occurrences. -/
theorem buildDedupTables_eq (compress : String) {snaps : List Snapshot}
    (hinj : Set.InjOn libs.blake3 {c | c ∈ snapshotChunks snaps}) :
    let t := libs.buildDedupTables (libs.collectAndProcessFiles compress snaps)
    t.chunkEntries = (storedChunks snaps).map (libs.indexEntry compress) ∧
      t.chunkDataBlobs = (storedChunks snaps).map (fun c => libs.compressChunk c compress) ∧
      t.manifestEntries = libs.manifestEntries snaps := by
  unfold buildDedupTables
  rw [collectAndProcessFiles_eq]
  have hjobs : ∀ job ∈ fileJobs snaps, ∀ c ∈ job.2.chunks, c ∈ snapshotChunks snaps :=
    fun job hjob c hc => List.mem_flatMap.mpr ⟨job, hjob, hc⟩
  obtain ⟨hholds, hman⟩ := addFiles_holds hinj (DedupTables.holds_empty libs compress _) hjobs
  exact ⟨hholds.entries, hholds.blobs, hman⟩

end FxarLibs

end Foxing
