import Foxing.FxarIntegrity

/-!
# Where an archive is extracted to

The paths of the manifest are joined to the target directory as they are. All
that is made or written lies in the target exactly if no path leads out of it by
its own components.
-/
namespace Foxing

/-- No component leads above the directory that is `depth` levels up. -/
def staysBelow : ℕ → Path → Bool
  | _, [] => true
  | depth, c :: cs =>
    if c = ".." then
      match depth with
      | 0 => false
      | depth + 1 => staysBelow depth cs
    else staysBelow (depth + 1) cs

/-- The path is the target or a lexical descendant of it, without leaving it on the way. -/
def Inside (target q : Path) : Prop := ∃ cs, q = target ++ cs ∧ staysBelow 0 cs = true

/-- The paths that an import makes a directory for or writes to. -/
def touched (target : Path) (x : Extraction) : List Path :=
  x.madeDirs ++ x.writes.map fun w => w.1.dest target

/-- The components that a path of the manifest adds to the target. An absolute path
adds to the target only if it begins with the components of the target. -/
def addedTo (target : Path) (path : String) : Option Path :=
  if path.toList.head? = some '/' then
    if target <+: components path then some ((components path).drop target.length) else none
  else some (components path)

/-- The path of an entry does not lead out of the target: its directory does not, and
neither does the path itself if the file is delivered. A path that adds nothing is
that of the target, whose own directory is outside. -/
def LeadsInside (target : Path) (path : String) (delivered : Prop) : Prop :=
  match addedTo target path with
  | some cs => (cs = [] → target = [] ∨ target = ["/"]) ∧ staysBelow 0 cs.dropLast = true ∧
      (delivered → staysBelow 0 cs = true)
  | none => components path = ["/"] ∧ ¬ delivered

theorem inside_append (target cs : Path) : Inside target (target ++ cs) ↔ staysBelow 0 cs = true := by
  constructor
  · rintro ⟨ds, heq, h⟩
    rwa [List.append_cancel_left heq]
  · intro h
    exact ⟨cs, rfl, h⟩

theorem not_inside_of_not_isPrefix {target q : Path} (h : ¬ target <+: q) : ¬ Inside target q := by
  rintro ⟨cs, rfl, -⟩
  exact h (List.prefix_append target cs)

section Destination
variable {target : Path} {path : String}

theorem join_of_addedTo {cs : Path} (h : addedTo target path = some cs) :
    Path.join target path = target ++ cs := by
  unfold addedTo at h
  unfold Path.join
  split_ifs at h ⊢ with habs hpre
  · obtain ⟨ds, hds⟩ := hpre
    obtain rfl := Option.some.inj h
    rw [← hds, List.drop_left]
  · rw [← Option.some.inj h]

theorem join_of_not_addedTo (h : addedTo target path = none) :
    Path.join target path = components path ∧ ¬ target <+: components path ∧
      components path ≠ [] := by
  unfold addedTo at h
  unfold Path.join
  split_ifs at h ⊢ with habs hpre
  refine ⟨rfl, hpre, ?_⟩
  rw [components, if_pos habs]
  simp

theorem not_inside_dropLast (h : target ≠ []) : ¬ Inside target target.dropLast := by
  refine not_inside_of_not_isPrefix fun hpre => ?_
  have hlen := hpre.length_le
  have hpos := List.length_pos_iff.mpr h
  rw [List.length_dropLast] at hlen
  omega

/-- The directory of the target itself is outside, unless there is none. -/
theorem parent_target_inside :
    (∀ q, target.parentDir? = some q → Inside target q) ↔ target = [] ∨ target = ["/"] := by
  unfold Path.parentDir?
  by_cases h : target = [] ∨ target = ["/"]
  · simp [h]
  · rw [if_neg h]
    constructor
    · intro hall
      exact absurd (hall _ rfl) (not_inside_dropLast fun hnil => h (.inl hnil))
    · intro hroot
      exact absurd hroot h

theorem parent_below_inside {cs : Path} (hcs : cs ≠ []) :
    (∀ q, (target ++ cs).parentDir? = some q → Inside target q) ↔
      staysBelow 0 cs.dropLast = true := by
  unfold Path.parentDir?
  by_cases h : target ++ cs = [] ∨ target ++ cs = ["/"]
  · have hlast : cs.dropLast = [] := by
      have hlen : (target ++ cs).length ≤ 1 := by
        rcases h with h | h <;> simp [h]
      have hpos := List.length_pos_iff.mpr hcs
      rw [List.length_append] at hlen
      rw [← List.length_eq_zero_iff, List.length_dropLast]
      omega
    rw [if_pos h]
    simp [hlast, staysBelow]
  · rw [if_neg h, List.dropLast_append_of_ne_nil hcs]
    simp only [Option.some.injEq, forall_eq', inside_append]

/-- The directory of the destination, and the destination itself if it is written, lie
in the target exactly if the path leads inside. -/
theorem leadsInside_iff (delivered : Prop) :
    ((∀ q, (Path.join target path).parentDir? = some q → Inside target q) ∧
      (delivered → Inside target (Path.join target path))) ↔ LeadsInside target path delivered := by
  unfold LeadsInside
  cases hadd : addedTo target path with
  | some cs =>
    rw [join_of_addedTo hadd, inside_append]
    simp only
    rw [← and_assoc]
    refine and_congr_left fun _ => ?_
    by_cases hcs : cs = []
    · subst hcs
      rw [List.append_nil, parent_target_inside]
      simp [staysBelow]
    · rw [parent_below_inside hcs]
      simp [hcs]
  | none =>
    obtain ⟨hjoin, hpre, hne⟩ := join_of_not_addedTo hadd
    have hparent : ¬ target <+: (components path).dropLast := fun h =>
      hpre (h.trans (List.dropLast_prefix _))
    rw [hjoin]
    unfold Path.parentDir?
    by_cases hroot : components path = ["/"]
    · rw [if_pos (.inr hroot)]
      have hout := not_inside_of_not_isPrefix hpre
      simp [hroot, hroot ▸ hout]
    · rw [if_neg (by simp [hne, hroot])]
      have hout := not_inside_of_not_isPrefix hparent
      simp [hroot, hout]

end Destination

/-! ## What is made and what is written -/

/-- The data of the entry can be put together and has its hash. -/
def Deliverable (libs : FxarLibs) (chunks : List Bytes) (entry : FxarManifestEntry) : Prop :=
  entry.size < 2 ^ 63 ∧ ∃ data, assembledData chunks entry = some data ∧ Matches libs entry data

section Entries
variable {libs : FxarLibs} {disk : Disk} {target : Path} {chunks : List Bytes}
  {slot : ℕ → Option (Option Bytes)} {entry : FxarManifestEntry}

theorem written_restoreEntry (hslot : ∀ i chunk, chunks[i]? = some chunk →
      slot i = some (some chunk)) (h : Deliverable libs chunks entry) :
    (libs.restoreEntry permissiveDisk target slot entry).written.isSome = true := by
  obtain ⟨hsize, data, hdata, hmatch⟩ := h
  obtain ⟨n, hn⟩ := restoreEntry_delivered permissiveDisk target hslot hsize hdata hmatch rfl
  rw [hn]
  rfl

theorem deliverable_of_written (hslot : ∀ i chunk, slot i = some (some chunk) →
      chunks[i]? = some chunk)
    (h : (libs.restoreEntry disk target slot entry).written.isSome = true) :
    Deliverable libs chunks entry := by
  have hsize : entry.size < 2 ^ 63 := by
    by_contra hbig
    unfold FxarLibs.restoreEntry at h
    rw [if_pos (by omega)] at h
    cases h
  have hver : EntryVerified libs chunks (entry, libs.restoreEntry disk target slot entry) :=
    entryVerified_restoreEntry hslot
  rcases hver with ⟨data, -, hdata, hmatch, -⟩ | ⟨hnone, -⟩
  · exact ⟨hsize, data, hdata, hmatch⟩
  · rw [hnone] at h
    cases h

theorem makeParents_permissive (files : List FxarManifestEntry) :
    makeParents permissiveDisk target files =
      (files.filterMap fun e => (e.dest target).parentDir?, true) := by
  induction files with
  | nil => rfl
  | cons e files ih =>
    unfold makeParents
    cases hp : (e.dest target).parentDir? with
    | none => simp [hp, ih]
    | some parent =>
      have hmk : permissiveDisk.mkdirOk parent = true := rfl
      simp [hp, hmk, ih]

theorem makeParents_subset {files : List FxarManifestEntry} {q : Path}
    (h : q ∈ (makeParents disk target files).1) :
    ∃ e ∈ files, (e.dest target).parentDir? = some q := by
  induction files with
  | nil => simp [makeParents] at h
  | cons e files ih =>
    unfold makeParents at h
    cases hp : (e.dest target).parentDir? with
    | none =>
      simp only [hp] at h
      obtain ⟨f, hf, hq⟩ := ih h
      exact ⟨f, by simp [hf], hq⟩
    | some parent =>
      simp only [hp] at h
      by_cases hmk : disk.mkdirOk parent = true
      · simp only [if_pos hmk, List.mem_cons] at h
        rcases h with rfl | h
        · exact ⟨e, by simp, hp⟩
        · obtain ⟨f, hf, hq⟩ := ih h
          exact ⟨f, by simp [hf], hq⟩
      · simp only [if_neg hmk, List.mem_singleton] at h
        subst h
        exact ⟨e, by simp, hp⟩

/-- What is made and written for entries that lead inside is inside. -/
theorem touched_inside {files : List FxarManifestEntry} {Delivered : FxarManifestEntry → Prop}
    (hfiles : ∀ e ∈ files, LeadsInside target e.path (Delivered e)) {x : Extraction}
    (hdirs : ∀ q ∈ x.madeDirs, ∃ e ∈ files, (e.dest target).parentDir? = some q)
    (hwrites : ∀ w ∈ x.writes, w.1 ∈ files ∧ Delivered w.1) :
    ∀ q ∈ touched target x, Inside target q := by
  intro q hq
  rcases List.mem_append.mp hq with hq | hq
  · obtain ⟨e, he, hparent⟩ := hdirs q hq
    exact ((leadsInside_iff (Delivered e)).mpr (hfiles e he)).1 q hparent
  · obtain ⟨w, hw, rfl⟩ := List.mem_map.mp hq
    obtain ⟨he, hdel⟩ := hwrites w hw
    exact ((leadsInside_iff (Delivered w.1)).mpr (hfiles w.1 he)).2 hdel

/-- If every directory is made and every file that can be is delivered, the entries lead
inside as soon as all of it is inside. -/
theorem leadsInside_of_touched {Delivered : Prop} {x : Extraction}
    (hdirs : ∀ q, (entry.dest target).parentDir? = some q → q ∈ x.madeDirs)
    (hwrites : Delivered → ∃ data, (entry, data) ∈ x.writes)
    (h : ∀ q ∈ touched target x, Inside target q) : LeadsInside target entry.path Delivered := by
  refine (leadsInside_iff Delivered).mp ⟨fun q hq => h q ?_, fun hdel => h _ ?_⟩
  · exact List.mem_append_left _ (hdirs q hq)
  · obtain ⟨data, hdata⟩ := hwrites hdel
    exact List.mem_append_right _ (List.mem_map_of_mem hdata)

theorem mem_writesOf {results : List (FxarManifestEntry × EntryResult)} {w : FxarManifestEntry × Bytes} :
    w ∈ writesOf results ↔ ∃ x ∈ results, x.1 = w.1 ∧ x.2.written = some w.2 := by
  unfold writesOf
  rw [List.mem_filterMap]
  refine exists_congr fun x => and_congr_right fun _ => ?_
  rw [Option.map_eq_some_iff]
  constructor
  · rintro ⟨data, hdata, rfl⟩
    exact ⟨rfl, hdata⟩
  · rintro ⟨hentry, hdata⟩
    exact ⟨w.2, hdata, by rw [hentry]⟩

end Entries

/-! ## The two readers -/

section Readers
variable {libs : FxarLibs} {target : Path}

/-- Where everything can be done, a stream is imported as a whole. -/
theorem readArchiveStream_permissive {bytes rest : Bytes} {manifest : FxarManifest}
    {chunks : List Bytes} (hs : libs.readStream bytes = .ok ((manifest, chunks), rest)) :
    ∃ result, libs.readArchiveStream bytes permissiveDisk target =
      ⟨manifest.files.filterMap fun e => (e.dest target).parentDir?,
        writesOf (manifest.files.map fun e =>
          (e, libs.restoreEntry permissiveDisk target (fun i => (chunks[i]?).map some) e)),
        result⟩ := by
  unfold FxarLibs.readArchiveStream
  rw [hs]
  simp only
  rw [if_neg (by simp [hasSpace, permissiveDisk]), makeParents_permissive]
  exact ⟨_, rfl⟩

theorem stream_touched_iff (bytes : Bytes) :
    (∀ disk, ∀ q ∈ touched target (libs.readArchiveStream bytes disk target), Inside target q) ↔
      ∀ manifest chunks rest, libs.readStream bytes = .ok ((manifest, chunks), rest) →
        ∀ entry ∈ manifest.files, LeadsInside target entry.path (Deliverable libs chunks entry) := by
  constructor
  · intro h manifest chunks rest hs entry hentry
    obtain ⟨result, hrun⟩ := readArchiveStream_permissive hs
    refine leadsInside_of_touched (fun q hq => ?_) (fun hdel => ?_) (hrun ▸ h permissiveDisk)
    · exact List.mem_filterMap.mpr ⟨entry, hentry, hq⟩
    · have hw : (libs.restoreEntry permissiveDisk target (fun i => (chunks[i]?).map some)
          entry).written.isSome = true :=
        written_restoreEntry (fun i chunk hi => by rw [hi, Option.map_some]) hdel
      obtain ⟨data, hdata⟩ := Option.isSome_iff_exists.mp hw
      exact ⟨data, mem_writesOf.mpr ⟨_, List.mem_map_of_mem hentry, rfl, hdata⟩⟩
  · intro h disk
    unfold FxarLibs.readArchiveStream
    cases hs : libs.readStream bytes with
    | error stop => simp [touched, Extraction.stopped]
    | ok s =>
      obtain ⟨⟨manifest, chunks⟩, rest⟩ := s
      have hfiles := h manifest chunks rest hs
      simp only
      split_ifs with hspace hmade
      · simp [touched, Extraction.stopped]
      · exact touched_inside hfiles (fun q hq => makeParents_subset hq) (by simp)
      · refine touched_inside hfiles (fun q hq => makeParents_subset hq) fun w hw => ?_
        obtain ⟨x, hx, hxw, hdata⟩ := mem_writesOf.mp hw
        obtain ⟨entry, hentry, rfl⟩ := List.mem_map.mp hx
        rw [← hxw]
        have hdel : Deliverable libs chunks entry :=
          deliverable_of_written (fun i chunk hi => by simpa using hi)
            (Option.isSome_of_eq_some hdata)
        exact ⟨hentry, hdel⟩

/-- The entry is put together from chunks that can be read, and is not waited for forever. -/
def FxarReader.Restorable (r : FxarReader) (libs : FxarLibs) (index : List ChunkIndexEntry)
    (entry : FxarManifestEntry) : Prop :=
  ∃ raw, r.readRawChunks index = .ok raw ∧ FxarReader.neededChunks entry ≤ raw.length ∧
    Deliverable libs (raw.map (r.loadedChunk libs)) entry

variable {r : FxarReader}

theorem written_restoreWaiting {raw : List Bytes} {entry : FxarManifestEntry}
    (hneed : FxarReader.neededChunks entry ≤ raw.length)
    (hdel : Deliverable libs (raw.map (r.loadedChunk libs)) entry) :
    (r.restoreWaiting libs permissiveDisk target raw raw.length entry).written.isSome = true := by
  unfold FxarReader.restoreWaiting
  rw [if_neg (by omega), min_self, max_eq_right hneed]
  refine written_restoreEntry (fun i chunk hi => ?_) hdel
  rw [List.getElem?_map] at hi
  obtain ⟨compressed, hraw, rfl⟩ := Option.map_eq_some_iff.mp hi
  obtain ⟨hlt, -⟩ := List.getElem?_eq_some_iff.mp hraw
  rw [hraw, Option.map_some, if_pos hlt]

theorem restorable_of_written {disk : Disk} {raw : List Bytes} {loaded : ℕ}
    {entry : FxarManifestEntry}
    (h : (r.restoreWaiting libs disk target raw loaded entry).written.isSome = true) :
    FxarReader.neededChunks entry ≤ raw.length ∧
      Deliverable libs (raw.map (r.loadedChunk libs)) entry := by
  unfold FxarReader.restoreWaiting at h
  split_ifs at h with hwait
  · cases h
  · refine ⟨Nat.le_of_not_lt hwait, deliverable_of_written (fun i chunk hi => ?_) h⟩
    obtain ⟨compressed, hraw, hslot⟩ := Option.map_eq_some_iff.mp hi
    rw [List.getElem?_map, hraw, Option.map_some]
    split_ifs at hslot
    exact hslot

/-- Where everything can be done, all directories are made, and if the chunks can be
read, every file that is not waited for forever is restored. -/
theorem restoreAll_permissive {manifest : FxarManifest} {index : List ChunkIndexEntry}
    (hm : r.readManifest libs = .ok manifest) (hindex : r.readChunkIndex = .ok index)
    (loaded : ℕ → ℕ) :
    (r.restoreAll libs permissiveDisk target loaded).madeDirs =
        manifest.files.filterMap (fun e => (e.dest target).parentDir?) ∧
      ∀ raw, r.readRawChunks index = .ok raw →
        (r.restoreAll libs permissiveDisk target loaded).writes =
          writesOf (manifest.files.zipIdx.map fun x =>
            (x.1, r.restoreWaiting libs permissiveDisk target raw (loaded x.2) x.1)) := by
  unfold FxarReader.restoreAll
  rw [hm, hindex]
  simp only
  rw [if_neg (by simp [hasSpace, permissiveDisk]), makeParents_permissive]
  cases hraw : r.readRawChunks index with
  | error stop => simp
  | ok raw => simp

theorem restoreAll_touched_iff :
    (∀ disk loaded, ∀ q ∈ touched target (r.restoreAll libs disk target loaded), Inside target q) ↔
      ∀ manifest index, r.readManifest libs = .ok manifest → r.readChunkIndex = .ok index →
        ∀ entry ∈ manifest.files,
          LeadsInside target entry.path (r.Restorable libs index entry) := by
  constructor
  · intro h manifest index hm hindex entry hentry
    -- the other thread is through with all chunks before a file is looked at
    let loaded : ℕ → ℕ := fun _ => ((r.readRawChunks index).toOption.map List.length).getD 0
    obtain ⟨hdirs, hwrites⟩ := restoreAll_permissive hm hindex loaded
    refine leadsInside_of_touched (fun q hq => ?_) ?_ (h permissiveDisk loaded)
    · rw [hdirs]
      exact List.mem_filterMap.mpr ⟨entry, hentry, hq⟩
    · rintro ⟨raw, hraw, hneed, hdel⟩
      have hloaded : ∀ k, loaded k = raw.length := fun k => by
        simp only [loaded, hraw]
        rfl
      obtain ⟨k, hk⟩ := List.mem_iff_getElem?.mp hentry
      have hw : (r.restoreWaiting libs permissiveDisk target raw (loaded k)
          entry).written.isSome = true := by
        rw [hloaded k]
        exact written_restoreWaiting hneed hdel
      obtain ⟨data, hdata⟩ := Option.isSome_iff_exists.mp hw
      have hmem : (entry, k) ∈ manifest.files.zipIdx := List.mem_zipIdx_iff_getElem?.mpr hk
      refine ⟨data, ?_⟩
      rw [hwrites raw hraw]
      exact mem_writesOf.mpr ⟨_, List.mem_map_of_mem hmem, rfl, hdata⟩
  · intro h disk loaded
    unfold FxarReader.restoreAll
    cases hm : r.readManifest libs with
    | error stop => simp [touched, Extraction.stopped]
    | ok manifest =>
      simp only
      by_cases hspace : (!hasSpace disk manifest.files) = true
      · rw [if_pos hspace]
        simp [touched, Extraction.stopped]
      rw [if_neg hspace]
      cases hindex : r.readChunkIndex with
      | error stop => simp [touched, Extraction.stopped]
      | ok index =>
        have hfiles := h manifest index hm hindex
        simp only
        by_cases hmade : (!(makeParents disk target manifest.files).2) = true
        · rw [if_pos hmade]
          exact touched_inside hfiles (fun q hq => makeParents_subset hq) (by simp)
        rw [if_neg hmade]
        cases hraw : r.readRawChunks index with
        | error stop => exact touched_inside hfiles (fun q hq => makeParents_subset hq) (by simp)
        | ok raw =>
          refine touched_inside hfiles (fun q hq => makeParents_subset hq) fun w hw => ?_
          obtain ⟨x, hx, hxw, hdata⟩ := mem_writesOf.mp hw
          obtain ⟨y, hy, rfl⟩ := List.mem_map.mp hx
          rw [← hxw]
          obtain ⟨hneed, hdel⟩ := restorable_of_written (Option.isSome_of_eq_some hdata)
          exact ⟨List.fst_mem_of_mem_zipIdx hy, raw, hraw, hneed, hdel⟩

end Readers

/-- Everything that an import makes or writes lies in the target on every disk exactly
if the paths of the manifest lead inside by their components. -/
theorem extraction_inside_iff (libs : FxarLibs) (target : Path) (bytes : Bytes) :
    ((∀ disk, ∀ q ∈ touched target (libs.readArchiveStream bytes disk target), Inside target q) ↔
      ∀ manifest chunks rest, libs.readStream bytes = .ok ((manifest, chunks), rest) →
        ∀ entry ∈ manifest.files,
          LeadsInside target entry.path (Deliverable libs chunks entry)) ∧
    ∀ r, FxarReader.open bytes = .ok r →
      ((∀ disk loaded, ∀ q ∈ touched target (r.restoreAll libs disk target loaded),
          Inside target q) ↔
        ∀ manifest index, r.readManifest libs = .ok manifest → r.readChunkIndex = .ok index →
          ∀ entry ∈ manifest.files,
            LeadsInside target entry.path (r.Restorable libs index entry)) :=
  ⟨stream_touched_iff bytes, fun _ _ => restoreAll_touched_iff⟩

/-- An empty file with a path that leads out of the target. -/
def escapingManifest : FxarManifest where
  version := 2
  created := "2024-01-01T00:00:00+00:00"
  files := [⟨"../x", 0, 33188, 0, 0, 0,
    "af1349b9f5f9a1a6a0404dea36dcc9499bcb25c9adc112b7cc9a93cae41f3262", [], []⟩]
  snapshots := []

def escapingHeader : FxarHeader :=
  { FxarHeader.new 0 .default with
    manifestOffset := 64
    manifestSize := 228
    indexOffset := 308 }

def escapingArchive : Bytes :=
  escapingHeader.writeTo ++ (.ofNat 8 228 ++ (.ofNat 8 228 ++ escapingManifest.json))

/-- The directory above the target is made by both readers. -/
theorem escapingArchive_leads_out :
    (∃ q ∈ touched ["out"] ((sampleLibs escapingManifest).readArchiveStream
      escapingArchive permissiveDisk ["out"]), ¬ Inside ["out"] q) ∧
    ∃ r, FxarReader.open escapingArchive = .ok r ∧
      ∃ q ∈ touched ["out"] (r.restoreAll (sampleLibs escapingManifest)
        permissiveDisk ["out"] fun _ => 0), ¬ Inside ["out"] q := by
  have hout : ¬ Inside ["out"] ["out", ".."] := (inside_append ["out"] [".."]).not.mpr (by decide)
  have hfits : escapingHeader.Fits := by
    constructor <;> decide
  refine ⟨⟨["out", ".."], ?_, hout⟩, _, FxarReader.open_writeTo hfits rfl _, ["out", ".."], ?_,
    hout⟩
  · decide +kernel
  · decide +kernel

end Foxing
