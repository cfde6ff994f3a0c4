import Foxing.ArchiveRoundTrip
import Foxing.DedupLayout

/-!
# The choice of a codec

The writer chooses the codec by the argument for the compression, the reader by a flag that
the writer has derived from it. They agree on all arguments but those for xz, which the flag
knows and the writer does not.
-/
namespace Foxing

def zstdMagic : Bytes := [0x28, 0xB5, 0x2F, 0xFD]

def xzMagic : Bytes := [0xFD, 0x37, 0x7A, 0x58]

/-- What zstd writes begins with its magic number, and xz reads nothing that does not begin with
its own. -/
structure FxarLibs.Magic (libs : FxarLibs) : Prop where
  zstd : ∀ level data, ∀ c ∈ libs.zstdCompress level data, zstdMagic <+: c
  xz : ∀ data out, libs.xzDecompress data = some out → xzMagic <+: data

/-- No data begins with both magic numbers. -/
theorem not_xzMagic_of_zstdMagic {data : Bytes} (h : zstdMagic <+: data) : ¬ xzMagic <+: data := by
  intro h'
  rcases data with _ | ⟨b, bs⟩
  · exact absurd (List.prefix_nil.mp h) (by decide)
  · obtain ⟨hz, -⟩ := List.cons_prefix_cons.mp h
    obtain ⟨hx, -⟩ := List.cons_prefix_cons.mp h'
    exact absurd (hz.trans hx.symm) (by decide)

/-- The arguments and lengths for which both sides use the same codec and the reader takes the
data: no argument for xz, at most 16 megabytes for zstd, and lengths of 32 bits for LZ4. -/
def CodecsAgree (compress : String) (len : ℕ) : Prop :=
  startsWith compress "xz" = false ∧
    (compressFlag compress = 1 → len ≤ 16 * 1024 * 1024) ∧ (compress = "lz4" → len < 2 ^ 32)

section Codecs
variable {libs : FxarLibs} {compress : String}

theorem startsWith_xz_ne (h : startsWith compress "xz" = true) :
    compress ≠ "none" ∧ startsWith compress "zstd" = false ∧ compress ≠ "lz4" ∧
      compress ≠ "gzip" := by
  refine ⟨?_, ?_, ?_, ?_⟩
  · rintro rfl
    exact absurd h (by decide)
  · unfold startsWith at h ⊢
    cases hchars : compress.toList with
    | nil => rfl
    | cons c cs =>
      rw [hchars] at h
      have hx : 'x' = c := by
        by_contra hne
        have : ("xz".toList.isPrefixOf (c :: cs)) = false := by simp [List.isPrefixOf, hne]
        rw [this] at h
        cases h
      subst hx
      rfl
  · rintro rfl
    exact absurd h (by decide)
  · rintro rfl
    exact absurd h (by decide)

theorem compressFlag_xz (h : startsWith compress "xz" = true) : compressFlag compress = 4 := by
  obtain ⟨h₁, h₂, h₃, h₄⟩ := startsWith_xz_ne h
  unfold compressFlag
  simp [h, h₁, h₂, h₃, h₄]

theorem compressFlag_zstd (h : compress ≠ "none") (h' : compress ≠ "lz4") (h'' : compress ≠ "gzip")
    (hxz : startsWith compress "xz" = false) : compressFlag compress = 1 := by
  unfold compressFlag
  rw [if_neg h, if_neg h', if_neg h'', hxz, if_neg Bool.false_ne_true, ite_self]

/-- Whatever is neither known nor an argument for xz is compressed with zstd. -/
theorem compressChunk_zstd (hlaws : libs.Lawful) (h : compress ≠ "none") (h' : compress ≠ "lz4")
    (h'' : compress ≠ "gzip") (data : Bytes) :
    ∃ level c, libs.zstdCompress level data = some c ∧ libs.compressChunk data compress = c ∧
      (∀ capacity, libs.zstdDecompress c capacity =
        if data.length ≤ capacity then some data else none) ∧
      (data.length ≤ GearChunker.default.max → c.length < 2 ^ 32) := by
  unfold FxarLibs.compressChunk
  by_cases hzstd : startsWith compress "zstd" = true
  · obtain ⟨c, hc, hback, hlength⟩ := hlaws.zstd (zstdLevel compress) data
    refine ⟨_, c, hc, ?_, hback, hlength⟩
    rw [if_neg h, if_pos hzstd, hc, Option.getD_some]
  · obtain ⟨c, hc, hback, hlength⟩ := hlaws.zstd 3 data
    refine ⟨_, c, hc, ?_, hback, hlength⟩
    rw [if_neg h, if_neg hzstd, if_neg h', if_neg h'', hc, Option.getD_some]

/-- The reader finds the data again exactly if the codecs agree. -/
theorem decompressChunk_compressChunk_iff (hlaws : libs.Lawful) (hmagic : libs.Magic)
    (compress : String) (data : Bytes) :
    libs.decompressChunk (libs.compressChunk data compress) (compressFlag compress) = .ok data ↔
      CodecsAgree compress data.length := by
  by_cases hknown : compress = "none" ∨ compress = "lz4" ∨ compress = "gzip"
  · have harg : CompressArgument compress := by
      rcases hknown with h | h | h
      · exact .inl h
      · exact .inr (.inr (.inl h))
      · exact .inr (.inr (.inr h))
    have hagree : CodecsAgree compress data.length ↔ Admitted compress data.length := by
      unfold CodecsAgree Admitted
      rcases hknown with rfl | rfl | rfl
      · simp [show startsWith "none" "xz" = false by decide,
          show compressFlag "none" ≠ 1 by decide, show startsWith "none" "zstd" = false by decide]
      · simp [show startsWith "lz4" "xz" = false by decide,
          show compressFlag "lz4" ≠ 1 by decide, show startsWith "lz4" "zstd" = false by decide]
      · simp [show startsWith "gzip" "xz" = false by decide,
          show compressFlag "gzip" ≠ 1 by decide, show startsWith "gzip" "zstd" = false by decide]
    rw [decompressChunk_compressChunk hlaws harg, hagree]
    split_ifs with h
    · exact iff_of_true rfl h
    · exact iff_of_false (by simp) h
  · obtain ⟨hnone, hlz4, hgzip⟩ : compress ≠ "none" ∧ compress ≠ "lz4" ∧ compress ≠ "gzip" := by
      simpa only [not_or] using hknown
    obtain ⟨level, c, hc, hchunk, hback, -⟩ := compressChunk_zstd hlaws hnone hlz4 hgzip data
    rw [hchunk]
    cases hxz : startsWith compress "xz" with
    | true =>
      -- the reader expects what xz writes
      have hfail : libs.xzDecompress c = none := by
        cases hout : libs.xzDecompress c with
        | none => rfl
        | some out =>
          exact absurd (hmagic.xz c out hout) (not_xzMagic_of_zstdMagic (hmagic.zstd level data c hc))
      rw [compressFlag_xz hxz]
      unfold FxarLibs.decompressChunk CodecsAgree
      simp [hfail, hxz]
    | false =>
      rw [compressFlag_zstd hnone hlz4 hgzip hxz]
      unfold FxarLibs.decompressChunk CodecsAgree
      rw [compressFlag_zstd hnone hlz4 hgzip hxz, hback]
      split_ifs with h
      · simp [hxz, hlz4, h]
      · simp [h]

end Codecs

/-! ## Samples -/

/-- Codecs that put their magic numbers in front. -/
def magicLibs : FxarLibs :=
  { sampleLibs sharingManifest with
    zstdCompress := fun _ data => some (zstdMagic ++ data)
    zstdDecompress := fun data capacity =>
      if (data.drop 4).length ≤ capacity then some (data.drop 4) else none
    xzDecompress := fun data => if xzMagic <+: data then some (data.drop 4) else none }

theorem magicLibs_lawful : magicLibs.Lawful :=
  { sampleLibs_lawful sharingManifest with
    zstd := fun _ data => ⟨zstdMagic ++ data, rfl, fun _ => rfl, fun h => by
      have hmax : GearChunker.default.max = 2097152 := by decide
      rw [List.length_append, show zstdMagic.length = 4 from rfl]
      omega⟩ }

theorem magicLibs_magic : magicLibs.Magic where
  zstd _ data c hc := ⟨data, Option.some.inj hc⟩
  xz data out hout := by
    by_contra hnot
    have hnone : magicLibs.xzDecompress data = none := if_neg hnot
    rw [hnone] at hout
    cases hout

/-- Three bytes come back from the default codec. -/
theorem unknownName_agrees :
    magicLibs.decompressChunk (magicLibs.compressChunk [1, 2, 3] "best") (compressFlag "best") =
      .ok [1, 2, 3] :=
  (decompressChunk_compressChunk_iff magicLibs_lawful magicLibs_magic "best" [1, 2, 3]).mpr
    ⟨by decide, by decide, by decide⟩

/-- With "xz" they do not. -/
theorem xz_disagrees :
    magicLibs.decompressChunk (magicLibs.compressChunk [1, 2, 3] "xz") (compressFlag "xz") ≠
      .ok [1, 2, 3] := by
  decide

end Foxing
