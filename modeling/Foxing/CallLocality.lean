import Foxing.Worker
import Mathlib.Data.Set.Insert

/-!
# The footprint of the calls on a tree

The cells of the worker's state are the nodes and file data of the target and
the entries of the two maps. Every call on the target reads the nodes near the
paths it is given and the data of the files there, and writes some of these.
-/
namespace Foxing

inductive Cell where
  | node (p : Path)
  | data (i : FileId)
  | inode (i : U64)
  | dir (i : U64)

def Cell.Value : Cell → Type
  | .node _ => Option Node
  | .data _ => FileData
  | .inode _ => Option IdentityEntry
  | .dir _ => Option Path

def World.get (w : World) : (c : Cell) → c.Value
  | .node p => w.target.node p
  | .data i => w.target.data i
  | .inode i => w.inodeMap i
  | .dir i => w.dirMap i

def World.cells : Cells World Cell Cell.Value where
  get := World.get
  ext := by
    rintro ⟨t, m, d⟩ ⟨t', m', d'⟩ h
    obtain rfl : t = t' := Fs.ext' (fun p => h (.node p)) (fun i => h (.data i))
    obtain rfl : m = m' := funext fun i => h (.inode i)
    obtain rfl : d = d' := funext fun i => h (.dir i)
    rfl

/-- All nodes near a path are among the cells. -/
def NodesNear (p : Path) (Z : Set Cell) : Prop := ∀ q, Near p q → Cell.node q ∈ Z

/-- All nodes at and below a path are among the cells. -/
def NodesBelow (p : Path) (Z : Set Cell) : Prop := ∀ q, p <+: q → Cell.node q ∈ Z

theorem NodesNear.below {p : Path} {Z : Set Cell} (h : NodesNear p Z) : NodesBelow p Z :=
  fun q hq => h q (.inl hq)

namespace Fs

/-- Two trees with the same nodes and data in a set of cells. -/
structure Agree (Z : Set Cell) (s t : Fs) : Prop where
  node : ∀ q, Cell.node q ∈ Z → s.node q = t.node q
  data : ∀ i, Cell.data i ∈ Z → s.data i = t.data i

variable {Z W : Set Cell} {s t t' : Fs} {p old new : Path} {i : FileId} {d : FileData}

theorem Agree.refl (Z : Set Cell) (t : Fs) : t.Agree Z t := ⟨fun _ _ => rfl, fun _ _ => rfl⟩

theorem Agree.missing (h : s.Agree Z t) (hZ : NodesNear p Z) : t.missing p = s.missing p := by
  have hany : p.inits.dropLast.any t.isFile = p.inits.dropLast.any s.isFile := by
    rw [Bool.eq_iff_iff, List.any_eq_true, List.any_eq_true]
    refine exists_congr fun a => and_congr_right fun ha => ?_
    have hap : a <+: p := (List.mem_inits a p).mp (List.mem_of_mem_dropLast ha)
    rw [isFile, isFile, h.node a (hZ a (.inr hap))]
  rw [Fs.missing, Fs.missing, hany]

theorem Agree.hasChildren (h : s.Agree Z t) (hZ : NodesBelow p Z) :
    t.HasChildren p ↔ s.HasChildren p := by
  simp only [hasChildren_iff]
  constructor
  · rintro ⟨q, hq, hne, hn⟩
    exact ⟨q, hq, hne, by rwa [h.node q (hZ q hq)]⟩
  · rintro ⟨q, hq, hne, hn⟩
    exact ⟨q, hq, hne, by rwa [← h.node q (hZ q hq)]⟩

theorem Agree.isDir (h : s.Agree Z t) (hp : Cell.node p ∈ Z) : t.isDir p = s.isDir p := by
  rw [Fs.isDir, Fs.isDir, h.node p hp]

theorem Agree.pathExists (h : s.Agree Z t) (hp : Cell.node p ∈ Z) :
    t.pathExists p = s.pathExists p := by
  rw [Fs.pathExists, Fs.pathExists, h.node p hp]

theorem Agree.hasParent (h : s.Agree Z t) (hZ : NodesNear p Z) :
    t.hasParent p = s.hasParent p := by
  unfold Fs.hasParent Path.parent?
  split_ifs with hp
  · rfl
  · exact h.isDir (hZ _ (.inr (List.dropLast_prefix p)))

/-- The outcomes `x` and `y` of one call in two trees: the results are the same,
the trees agree on `Z` afterwards, and the second changed within `W` only. -/
structure Parallel (Z W : Set Cell) (t : Fs) (x y : CallResult × Fs) : Prop where
  result : y.1 = x.1
  agree : x.2.Agree Z y.2
  frame : t.Agree Wᶜ y.2

theorem Parallel.keep (h : s.Agree Z t) (r : CallResult) : Parallel Z W t (r, s) (r, t) :=
  ⟨rfl, h, .refl _ _⟩

theorem Parallel.setNode (h : s.Agree Z t) (hp : Cell.node p ∈ W) (r : CallResult)
    (n : Option Node) : Parallel Z W t (r, s.setNode p n) (r, t.setNode p n) := by
  refine ⟨rfl, ⟨fun q hq => ?_, h.data⟩, ⟨fun q hq => ?_, fun _ _ => rfl⟩⟩
  · simp only [setNode_node, h.node q hq]
  · have hne : q ≠ p := fun heq => hq (heq ▸ hp)
    simp [hne]

theorem Parallel.setData (h : s.Agree Z t) (hi : Cell.data i ∈ W) (r : CallResult)
    (d : FileData) : Parallel Z W t (r, s.setData i d) (r, t.setData i d) := by
  refine ⟨rfl, ⟨h.node, fun j hj => ?_⟩, ⟨fun _ _ => rfl, fun j hj => ?_⟩⟩
  · simp only [setData_data, h.data j hj]
  · have hne : j ≠ i := fun heq => hj (heq ▸ hi)
    simp [hne]

/-- The call, made in `t`, reads `Z` and writes `W`. -/
def CallLocal (Z W : Set Cell) (call : Fs → CallResult × Fs) (t : Fs) : Prop :=
  ∀ t', t.Agree Z t' → Parallel Z W t' (call t) (call t')

/-- The data of the file at a path is among the cells. -/
def DataAt (p : Path) (W : Set Cell) (t : Fs) : Prop :=
  ∀ i, t.node p = some (.file i) → Cell.data i ∈ W

theorem removeFile_local (hZ : NodesNear p Z) (hW : Cell.node p ∈ W) :
    CallLocal Z W (removeFile p) t := by
  intro t' h
  have hp := h.node p (hZ p (.inl List.prefix_rfl))
  rw [removeFile, removeFile, ← hp, h.missing hZ]
  cases hn : t.node p with
  | none => exact .keep h _
  | some n =>
    cases n with
    | file i => exact .setNode h hW _ _
    | dir m => exact .keep h _
    | symlink d m => exact .setNode h hW _ _

theorem removeDir_local (hZ : NodesNear p Z) (hW : Cell.node p ∈ W) :
    CallLocal Z W (removeDir p) t := by
  intro t' h
  have hp := h.node p (hZ p (.inl List.prefix_rfl))
  rw [removeDir, removeDir, ← hp, h.missing hZ]
  cases hn : t.node p with
  | none => exact .keep h _
  | some n =>
    cases n with
    | file i => exact .keep h _
    | symlink d m => exact .keep h _
    | dir m =>
      have hc := h.hasChildren hZ.below
      by_cases hch : t.HasChildren p
      · simp only [hch, hc.mpr hch, if_true]
        exact .keep h _
      · simp only [hch, mt hc.mp hch, if_false]
        exact .setNode h hW _ _

theorem alterMeta_local (f : Meta → Meta) (hZ : NodesNear p Z) (hWZ : W ⊆ Z)
    (hW : Cell.node p ∈ W) (hd : t.DataAt p W) : CallLocal Z W (alterMeta f p) t := by
  intro t' h
  have hp := h.node p (hZ p (.inl List.prefix_rfl))
  rw [alterMeta, alterMeta, ← hp, h.missing hZ]
  cases hn : t.node p with
  | none => exact .keep h _
  | some n =>
    cases n with
    | file i =>
      have hi := hd i hn
      simp only [← h.data i (hWZ hi)]
      exact .setData h hi _ _
    | dir m => exact .setNode h hW _ _
    | symlink d m => exact .keep h _

theorem alterContent_local (f : File → File) (hZ : NodesNear p Z) (hWZ : W ⊆ Z)
    (hd : t.DataAt p W) : CallLocal Z W (alterContent f p) t := by
  intro t' h
  have hp := h.node p (hZ p (.inl List.prefix_rfl))
  rw [alterContent, alterContent, ← hp, h.missing hZ]
  cases hn : t.node p with
  | none => exact .keep h _
  | some n =>
    cases n with
    | file i =>
      have hi := hd i hn
      simp only [← h.data i (hWZ hi)]
      cases hk : (t.data i).kind with
      | regular c => exact .setData h hi _ _
      | special m d => exact .keep h _
    | dir m => exact .keep h _
    | symlink d m => exact .keep h _

theorem link_local (hZ : NodesNear p Z) (hW : Cell.node p ∈ W) (hi : Cell.data i ∈ W) :
    CallLocal Z W (link i d p) t := by
  intro t' h
  rw [link, link, h.hasParent hZ, h.missing hZ]
  split_ifs with hpar
  · have hnode : Parallel Z W t' (.ok (), t.setNode p (some (.file i)))
        (.ok (), t'.setNode p (some (.file i))) := .setNode h hW _ _
    have hdata : Parallel Z W (t'.setNode p (some (.file i)))
        (.ok (), (t.setNode p (some (.file i))).setData i d)
        (.ok (), (t'.setNode p (some (.file i))).setData i d) := .setData hnode.agree hi _ _
    refine ⟨rfl, hdata.agree, ⟨fun q hq => ?_, fun j hj => ?_⟩⟩
    · exact (hnode.frame.node q hq).trans (hdata.frame.node q hq)
    · exact (hnode.frame.data j hj).trans (hdata.frame.data j hj)
  · exact .keep h _

theorem overwrite_local (fresh : Meta) (f : Meta → Meta) (c : File) (hZ : NodesNear p Z)
    (hWZ : W ⊆ Z) (hW : Cell.node p ∈ W) (hi : Cell.data i ∈ W) (hd : t.DataAt p W) :
    CallLocal Z W (overwrite i fresh f c p) t := by
  intro t' h
  have hp := h.node p (hZ p (.inl List.prefix_rfl))
  rw [overwrite, overwrite, ← hp]
  cases hn : t.node p with
  | none => exact link_local hZ hW hi t' h
  | some n =>
    cases n with
    | file j =>
      have hj := hd j hn
      simp only [← h.data j (hWZ hj)]
      cases hk : (t.data j).kind with
      | regular c' => exact .setData h hj _ _
      | special m d => exact .keep h _
    | dir m => exact .keep h _
    | symlink d m => exact .keep h _

theorem mknod_local (owner : Meta) (mode dev : U32) (hZ : NodesNear p Z)
    (hW : Cell.node p ∈ W) (hi : Cell.data i ∈ W) :
    CallLocal Z W (mknod i owner mode dev p) t := by
  intro t' h
  have hp := h.node p (hZ p (.inl List.prefix_rfl))
  rw [mknod, mknod, ← hp]
  cases hn : t.node p with
  | none => exact link_local hZ hW hi t' h
  | some n => exact .keep h _

theorem symlink_local (dest : String) (m : Meta) (hZ : NodesNear p Z) (hW : Cell.node p ∈ W) :
    CallLocal Z W (symlink dest m p) t := by
  intro t' h
  have hp := h.node p (hZ p (.inl List.prefix_rfl))
  rw [symlink, symlink, ← hp, h.missing hZ, h.hasParent hZ]
  cases hn : t.node p with
  | some n => exact .keep h _
  | none =>
    cases hpar : t.hasParent p with
    | true => exact .setNode h hW _ _
    | false => exact .keep h _

/-- The second half of a hard link: the node is put at its new place. -/
theorem hardLink_make_local (h : t.Agree Z t') (hW : Cell.node p ∈ W) (n : Node) :
    Parallel Z W t'
      (match t.node p with
        | some _ => (.error .alreadyExists, t)
        | none => if t.hasParent p then (.ok (), t.setNode p (some n))
          else (.error (t.missing p), t))
      (match t.node p with
        | some _ => (.error .alreadyExists, t')
        | none => if t.hasParent p then (.ok (), t'.setNode p (some n))
          else (.error (t.missing p), t')) := by
  cases hnp : t.node p with
  | some m => exact .keep h _
  | none =>
    cases hpar : t.hasParent p with
    | true => exact .setNode h hW _ _
    | false => exact .keep h _

theorem hardLink_local (hZ' : NodesNear old Z) (hZ : NodesNear p Z) (hW : Cell.node p ∈ W) :
    CallLocal Z W (hardLink old p) t := by
  intro t' h
  have ho := h.node old (hZ' old (.inl List.prefix_rfl))
  have hp := h.node p (hZ p (.inl List.prefix_rfl))
  rw [hardLink, hardLink, ← ho, ← hp, h.missing hZ, h.missing hZ', h.hasParent hZ]
  cases hn : t.node old with
  | none => exact .keep h _
  | some n =>
    have hmake := hardLink_make_local h hW n
    cases n with
    | file i => exact hmake
    | dir m => exact .keep h _
    | symlink d m => exact hmake

theorem createDirAll_local (m : Meta) (hZ : ∀ q, q <+: p → Cell.node q ∈ Z)
    (hW : ∀ q, q <+: p → t.node q = none → Cell.node q ∈ W) :
    CallLocal Z W (createDirAll m p) t := by
  intro t' h
  have hnode : ∀ q, q <+: p → t'.node q = t.node q := fun q hq => (h.node q (hZ q hq)).symm
  have hall : p.inits.all (fun a => (t'.node a).isNone || t'.isDir a) =
      p.inits.all (fun a => (t.node a).isNone || t.isDir a) := by
    rw [Bool.eq_iff_iff, List.all_eq_true, List.all_eq_true]
    refine forall_congr' fun a => imp_congr_right fun ha => ?_
    have hap := (List.mem_inits a p).mp ha
    rw [isDir, isDir, hnode a hap]
  rw [createDirAll, createDirAll, hall]
  split_ifs
  · refine ⟨rfl, ⟨fun q hq => ?_, h.data⟩, ⟨fun q hq => ?_, fun _ _ => rfl⟩⟩
    · simp only [h.node q hq]
    · have hkeep : ¬ (q <+: p ∧ t'.node q = none) := by
        rintro ⟨hqp, hn⟩
        exact hq (hW q hqp (hnode q hqp ▸ hn))
      simp only [hkeep, if_false]
  · exact .keep h _

/-- Directories that are there are not made again. -/
theorem createDirAll_of_dirs (m : Meta) (h : ∀ q, q <+: p → t.isDir q = true) :
    t.createDirAll m p = (.ok (), t) := by
  have hall : p.inits.all (fun a => (t.node a).isNone || t.isDir a) = true := by
    rw [List.all_eq_true]
    intro a ha
    simp [h a ((List.mem_inits a p).mp ha)]
  rw [createDirAll, if_pos hall]
  refine Prod.ext rfl (ext' (fun q => ?_) fun _ => rfl)
  have hkeep : ¬ (q <+: p ∧ t.node q = none) := by
    rintro ⟨hq, hnone⟩
    simpa [isDir, hnone] using h q hq
  simp only [hkeep, if_false]

theorem Parallel.relocate (h : s.Agree Z t) (hZ : NodesBelow old Z) (hW : NodesBelow old W)
    (hW' : NodesBelow new W) (r : CallResult) :
    Parallel Z W t (r, s.relocate old new) (r, t.relocate old new) := by
  refine ⟨rfl, ⟨fun q hq => ?_, h.data⟩, ⟨fun q hq => ?_, fun _ _ => rfl⟩⟩
  · have hmoved : s.node (rebase old new q) = t.node (rebase old new q) :=
      h.node _ (hZ _ (List.prefix_append ..))
    simp only [Fs.relocate, hmoved, h.node q hq]
  · have hnew : ¬ new <+: q := fun hn => hq (hW' q hn)
    have hold : ¬ old <+: q := fun ho => hq (hW q ho)
    simp only [Fs.relocate, hnew, hold, if_false]

theorem Parallel.swap (h : s.Agree Z t) (hZ : NodesBelow old Z) (hZ' : NodesBelow new Z)
    (hW : NodesBelow old W) (hW' : NodesBelow new W) (r : CallResult) :
    Parallel Z W t (r, s.swap old new) (r, t.swap old new) := by
  refine ⟨rfl, ⟨fun q hq => ?_, h.data⟩, ⟨fun q hq => ?_, fun _ _ => rfl⟩⟩
  · have hto : s.node (rebase old new q) = t.node (rebase old new q) :=
      h.node _ (hZ _ (List.prefix_append ..))
    have hback : s.node (rebase new old q) = t.node (rebase new old q) :=
      h.node _ (hZ' _ (List.prefix_append ..))
    simp only [Fs.swap, hto, hback, h.node q hq]
  · have hnew : ¬ new <+: q := fun hn => hq (hW' q hn)
    have hold : ¬ old <+: q := fun ho => hq (hW q ho)
    simp only [Fs.swap, hnew, hold, if_false]

theorem renameNode_local (n : Node) (hZ : NodesBelow old Z) (hZ' : NodesNear new Z)
    (hW : NodesBelow old W) (hW' : NodesBelow new W) :
    CallLocal Z W (renameNode n old new) t := by
  intro t' h
  have hmove : Parallel Z W t' (.ok (), t.relocate old new) (.ok (), t'.relocate old new) :=
    .relocate h hZ hW hW' _
  have hc := h.hasChildren hZ'.below
  have hn := h.node new (hZ' new (.inl List.prefix_rfl))
  unfold renameNode
  rw [← hn]
  cases n with
  | dir m =>
    cases hnew : t.node new with
    | none =>
      by_cases hp : old <+: new
      · simp only [hp, if_true]
        exact .keep h _
      · simp only [hp, if_false]
        exact hmove
    | some n' =>
      cases n' with
      | file j => exact .keep h _
      | symlink d m' => exact .keep h _
      | dir m' =>
        simp only [hc]
        by_cases hp : old <+: new ∨ t.HasChildren new
        · simp only [hp, if_true]
          exact .keep h _
        · simp only [hp, if_false]
          exact hmove
  | file i =>
    cases hnew : t.node new with
    | none => exact hmove
    | some n' =>
      cases n' with
      | dir m' => exact .keep h _
      | symlink d m' => exact hmove
      | file j =>
        by_cases hij : i = j
        · simp only [hij, if_true]
          exact .keep h _
        · simp only [hij, if_false]
          exact hmove
  | symlink d m =>
    cases hnew : t.node new with
    | none => exact hmove
    | some n' =>
      cases n' with
      | dir m' => exact .keep h _
      | file j => exact hmove
      | symlink d' m' => exact hmove

theorem rename_local (hZ : NodesNear old Z) (hZ' : NodesNear new Z)
    (hW : NodesBelow old W) (hW' : NodesBelow new W) : CallLocal Z W (rename old new) t := by
  intro t' h
  have ho := h.node old (hZ old (.inl List.prefix_rfl))
  rw [rename, rename, ← ho, h.missing hZ, h.missing hZ', h.hasParent hZ']
  cases hn : t.node old with
  | none => exact .keep h _
  | some n =>
    by_cases heq : old = new
    · simp only [heq, if_true]
      exact .keep h _
    · simp only [heq, if_false]
      cases hpar : t.hasParent new with
      | true => exact renameNode_local n hZ.below hZ' hW hW' t' h
      | false => exact .keep h _

theorem exchange_local (hZ : NodesNear old Z) (hZ' : NodesNear new Z)
    (hW : NodesBelow old W) (hW' : NodesBelow new W) : CallLocal Z W (exchange old new) t := by
  intro t' h
  have hplain := rename_local (t := t) hZ hZ' hW hW' t' h
  rw [exchange, exchange, ← h.node old (hZ old (.inl List.prefix_rfl)),
    ← h.node new (hZ' new (.inl List.prefix_rfl))]
  cases hn : t.node old with
  | none => exact hplain
  | some n =>
    cases hn' : t.node new with
    | none => exact hplain
    | some n' =>
      simp only
      split_ifs
      · exact .keep h _
      · exact .keep h _
      · exact .keep h _
      · exact .swap h hZ.below hZ'.below hW hW' _

/-! ## The files at a path

The only file that a call brings to a path is the one it is told to make. -/

theorem createDirAll_file (m : Meta) {q : Path} (h : (createDirAll m p t).2.node q = some (.file i)) :
    t.node q = some (.file i) := by
  unfold createDirAll at h
  split_ifs at h with hall
  · by_cases hq : q <+: p ∧ t.node q = none
    · simp [hq] at h
    · simpa only [hq, if_false] using h
  · exact h

theorem alterContent_node (f : File → File) : (t.alterContent f p).2.node = t.node := by
  unfold alterContent
  cases t.node p with
  | none => rfl
  | some n =>
    cases n with
    | file i =>
      simp only
      cases (t.data i).kind with
      | regular c => rfl
      | special m d => rfl
    | dir m => rfl
    | symlink d m => rfl

theorem alterMeta_file (f : Meta → Meta) {q : Path}
    (h : (alterMeta f p t).2.node q = some (.file i)) : t.node q = some (.file i) := by
  unfold alterMeta at h
  cases hn : t.node p with
  | none => simpa only [hn] using h
  | some n =>
    cases n with
    | file j => simpa only [hn, setData_node] using h
    | symlink d m => simpa only [hn] using h
    | dir m =>
      simp only [hn, setNode_node] at h
      split_ifs at h
      · cases h
      · exact h

theorem link_file {j : FileId} {q : Path} (h : (link j d p t).2.node q = some (.file i)) :
    t.node q = some (.file i) ∨ i = j := by
  unfold link at h
  split_ifs at h
  · simp only [setData_node, setNode_node] at h
    split_ifs at h with hq
    · simp only [Option.some.injEq, Node.file.injEq] at h
      exact .inr h.symm
    · exact .inl h
  · exact .inl h

theorem overwrite_file {j : FileId} (fresh : Meta) (f : Meta → Meta) (c : File) {q : Path}
    (h : (overwrite j fresh f c p t).2.node q = some (.file i)) :
    t.node q = some (.file i) ∨ i = j := by
  unfold overwrite at h
  cases hn : t.node p with
  | none =>
    simp only [hn] at h
    exact link_file h
  | some n =>
    left
    cases n with
    | file k =>
      simp only [hn] at h
      cases hk : (t.data k).kind with
      | regular c' => simpa only [hk, setData_node] using h
      | special m d => simpa only [hk] using h
    | symlink d m => simpa only [hn] using h
    | dir m => simpa only [hn] using h

theorem mknod_file {j : FileId} (owner : Meta) (mode dev : U32) {q : Path}
    (h : (mknod j owner mode dev p t).2.node q = some (.file i)) :
    t.node q = some (.file i) ∨ i = j := by
  unfold mknod at h
  cases hn : t.node p with
  | none =>
    simp only [hn] at h
    exact link_file h
  | some n =>
    simp only [hn] at h
    exact .inl h

end Fs

end Foxing
