-- SUMMARY: The pages of a built image, the accept list its shim reads and the declared apertures partition the map, and exactly when.
import BootShim.Pipeline.Coverage

/-!
# The memory partition

Of the pages below the top of the map, each should be imported, accepted or in an
aperture, and only one of these. Two kinds of input break this: an empty initramfs,
whose region takes a page that nothing is loaded to, and an aperture that wraps past
64 bits, which declares a range the map does not set aside.
-/

namespace BootShim.Pipeline

open Boot Bytes Igvm Image Layout Snp

/-! ## The property -/

/-- One of three statements holds and the other two do not. -/
def ExactlyOne (p q r : Prop) : Prop := (p ∧ ¬ q ∧ ¬ r) ∨ (¬ p ∧ q ∧ ¬ r) ∨ (¬ p ∧ ¬ q ∧ r)

/-- Three sets of which two are disjoint, one with a hole `E` and one with an excess `W`,
    partition a point when the excess falls nowhere but into the hole and the other set. -/
private theorem exactlyOne_iff {R S E W : Prop} (hRS : R → ¬ S) (hER : E → R) :
    ExactlyOne (R ∧ ¬ E) (¬ R ∧ ¬ S) (S ∨ W) ↔ (E → W) ∧ (W → S ∨ E) := by
  unfold ExactlyOne
  by_cases hR : R <;> by_cases hS : S <;> by_cases hE : E <;> by_cases hW : W <;> simp_all

/-- No page lies in both ranges. -/
def NoCommonPage (r s : Nat × Nat) : Prop :=
  ∀ a, a % page = 0 → ¬ ((r.1 ≤ a ∧ a < r.2) ∧ s.1 ≤ a ∧ a < s.2)

/-- The imported pages, the accept list and the apertures partition the map. -/
structure Partition (pf : Platform) (params : Params) (imports : List Nat)
    (accept : List (Nat × Nat)) : Prop where
  one : ∀ a, a % page = 0 → a < params.memory →
    ExactlyOne (a ∈ imports) (InRange accept a) (InAperture params.mmio a)
  imported_once : imports.Nodup
  accepted_once : accept.Pairwise NoCommonPage
  above : ∀ a, a % page = 0 → params.memory ≤ a → a ∈ imports ∨ InRange accept a →
    pf = .tdx ∧ a = resetAlias

/-- The same of the pages of an image, with the accept list read out of the shim's page. -/
def Partitioned (pf : Platform) (params : Params) (pages : List (Nat × List UInt8)) : Prop :=
  ∃ pg accept, (pf.shimAt, pg) ∈ pages ∧ shimRanges pg = some accept ∧
    Partition pf params (pages.map Prod.fst) accept

/-! ## The condition -/

/-- A region of the image or an aperture that does not wrap ends at the address. -/
def IsEnd (pf : Platform) (kernelFile initramfs : List UInt8) (params : Params) (e : Nat) : Prop :=
  (∃ t ∈ pf.footprint (kernelEnd (kernelFile.drop (setupBytesOf kernelFile)))
    (initramfsEnd initramfs), t.hi = e) ∨
      ∃ h ∈ params.mmio, ¬ Params.Wraps h ∧ h.1 + h.2 = e

/-- The inputs on which the partition holds. An initramfs that is not empty and apertures
    that do not wrap always do; the rest is about the few wrapped apertures that change
    nothing. -/
structure Clean (pf : Platform) (kernelFile initramfs : List UInt8) (params : Params) : Prop where
  /-- Nothing is loaded for an empty initramfs, so a wrapped aperture has to declare its page. -/
  loaded : initramfs = [] → ∃ h ∈ params.mmio, Params.Wraps h ∧ h.1 ≤ initramfsBase
  /-- What a wrapped aperture declares inside the map is set aside already. -/
  declared : ∀ h ∈ params.mmio, Params.Wraps h → ∀ a, a % page = 0 → h.1 ≤ a → a < params.memory →
    InStraight params.mmio a ∨ Unloaded initramfs a
  /-- A wrapped aperture inside the map starts where something ends. -/
  inside : ∀ h ∈ params.mmio, Params.Wraps h → h.1 < params.memory →
    IsEnd pf kernelFile initramfs params h.1
  /-- With one beyond the map, something ends at the top of the map, if only the aperture. -/
  beyond : ∀ h ∈ params.mmio, Params.Wraps h → params.memory ≤ h.1 →
    IsEnd pf kernelFile initramfs params params.memory ∨ h.1 + h.2 = 2 ^ 64 + params.memory

variable {pf : Platform} {blob : ShimBlob} {kernelFile initramfs : List UInt8} {params : Params}
  (m : Mapped pf blob kernelFile initramfs params)

namespace Mapped

/-! ## Each page once -/

private theorem inAperture_iff (hvalid : params.Valid) {a : Nat} (ha : a < params.memory) :
    InAperture params.mmio a ↔
      InStraight params.mmio a ∨ ∃ h ∈ params.mmio, Params.Wraps h ∧ h.1 ≤ a := by
  have hle := hvalid.memory_le
  constructor
  · rintro ⟨h, hh, hmem⟩
    by_cases hw : Params.Wraps h
    · exact Or.inr ⟨h, hh, hw, hmem.1⟩
    · exact Or.inl ⟨h, hh, hw, hmem⟩
  · rintro (⟨h, hh, -, hmem⟩ | ⟨h, hh, hw, hlo⟩)
    · exact ⟨h, hh, hmem⟩
    · refine ⟨h, hh, hlo, ?_⟩
      simp only [Params.Wraps, mapLimit, gib] at *
      omega

/-- Where a page belongs to exactly one set. The sets overlap or leave a page out only
    at an empty initramfs or inside a wrapped aperture. -/
private theorem one_iff_at (hvalid : params.Valid) {a : Nat} (halign : a % page = 0)
    (ha : a < params.memory) :
    ExactlyOne (a ∈ m.pages.map Prod.fst) (InRange m.accept a) (InAperture params.mmio a) ↔
      (Unloaded initramfs a → ∃ h ∈ params.mmio, Params.Wraps h ∧ h.1 ≤ a) ∧
        ((∃ h ∈ params.mmio, Params.Wraps h ∧ h.1 ≤ a) →
          InStraight params.mmio a ∨ Unloaded initramfs a) := by
  rw [inAperture_iff hvalid ha, m.mem_imports_iff, m.inRange_accept_iff hvalid]
  simp only [halign, ha, true_and]
  exact exactlyOne_iff (m.not_inStraight_of_inRegion hvalid) m.inRegion_of_unloaded

private theorem one_iff (hvalid : params.Valid) :
    (∀ a, a % page = 0 → a < params.memory →
      ExactlyOne (a ∈ m.pages.map Prod.fst) (InRange m.accept a) (InAperture params.mmio a)) ↔
    (initramfs = [] → ∃ h ∈ params.mmio, Params.Wraps h ∧ h.1 ≤ initramfsBase) ∧
      ∀ h ∈ params.mmio, Params.Wraps h → ∀ a, a % page = 0 → h.1 ≤ a → a < params.memory →
        InStraight params.mmio a ∨ Unloaded initramfs a := by
  constructor
  · intro h
    constructor
    · intro hnil
      exact ((m.one_iff_at hvalid (by decide) hvalid.memory_gt).mp
        (h _ (by decide) hvalid.memory_gt)).1 ⟨hnil, rfl⟩
    · intro g hg hw a halign hlo ha
      exact ((m.one_iff_at hvalid halign ha).mp (h a halign ha)).2 ⟨g, hg, hw, hlo⟩
  · rintro ⟨hloaded, hdeclared⟩ a halign ha
    refine (m.one_iff_at hvalid halign ha).mpr ⟨?_, ?_⟩
    · rintro ⟨hnil, rfl⟩
      exact hloaded hnil
    · rintro ⟨g, hg, hw, hlo⟩
      exact hdeclared g hg hw a halign hlo ha

/-- Above the top only the TDX reset page is imported, and nothing is accepted. -/
private theorem above (hvalid : params.Valid) {a : Nat} (ha : params.memory ≤ a)
    (halign : a % page = 0) (h : a ∈ m.pages.map Prod.fst ∨ InRange m.accept a) :
    pf = .tdx ∧ a = resetAlias := by
  rcases h with h | h
  · obtain ⟨-, ⟨q, hq, hmem⟩, -⟩ := m.mem_imports_iff.mp h
    rcases m.region_le hvalid hq with hle | ⟨hpf, htile⟩
    · exact absurd (hmem.2.trans_le hle) (Nat.not_lt.mpr ha)
    · rw [htile] at hmem
      simp only [Tile.Mem, resetAlias, page] at *
      exact ⟨hpf, by omega⟩
  · exact absurd ((m.inRange_accept_iff hvalid).mp h).1 (Nat.not_lt.mpr ha)

/-! ## Each accepted page once -/

/-- A span of the map is the right way round, or a wrapped aperture's. -/
private theorem mem_spans_cases (hvalid : params.Valid) {s : Tile Nat Nat} (hs : s ∈ spans m.map) :
    s.lo < s.hi ∨ ∃ h ∈ params.mmio, Params.Wraps h ∧ s = ⟨h.1, h.1 + h.2 - 2 ^ 64, absent⟩ := by
  obtain ⟨q, hq, rfl⟩ := mem_spans.mp hs
  rcases List.mem_append.mp hq with hq | hq
  · exact Or.inl (m.region_upright hq)
  · obtain ⟨h, hh, rfl⟩ := mem_apertures.mp hq
    by_cases hw : Params.Wraps h
    · obtain ⟨h₁, h₂⟩ := hvalid.hole_lt h hh
      exact Or.inr ⟨h, hh, hw, tile_mmio_of_wraps h₁ h₂ hw⟩
    · have hpos := (hvalid.hole_aligned h hh).2.2
      rw [tile_mmio_of_not_wraps hw]
      exact Or.inl (Nat.lt_add_of_pos_right (Nat.pos_of_ne_zero hpos))

private theorem wrapped_mem_spans (hvalid : params.Valid) {h : Nat × Nat} (hh : h ∈ params.mmio)
    (hw : Params.Wraps h) : ⟨h.1, h.1 + h.2 - 2 ^ 64, absent⟩ ∈ spans m.map := by
  obtain ⟨h₁, h₂⟩ := hvalid.hole_lt h hh
  exact mem_spans.mpr ⟨_, List.mem_append_right _ (mem_apertures.mpr ⟨h, hh, rfl⟩),
    tile_mmio_of_wraps h₁ h₂ hw⟩

/-- An end is the end of a span that is the right way round. -/
private theorem isEnd_iff (hvalid : params.Valid) {e : Nat} :
    IsEnd pf kernelFile initramfs params e ↔ ∃ t ∈ spans m.map, t.lo < t.hi ∧ t.hi = e := by
  rw [IsEnd, ← m.footprint_eq]
  constructor
  · rintro (⟨t, ht, rfl⟩ | ⟨h, hh, hw, rfl⟩)
    · obtain ⟨q, hq, rfl⟩ := m.exists_region ht
      exact ⟨_, mem_spans.mpr ⟨q, List.mem_append_left _ hq, rfl⟩, m.region_upright hq, rfl⟩
    · have hpos := (hvalid.hole_aligned h hh).2.2
      refine ⟨_, mem_spans.mpr ⟨_, List.mem_append_right _ (mem_apertures.mpr ⟨h, hh, rfl⟩),
        tile_mmio_of_not_wraps hw⟩, ?_, rfl⟩
      exact Nat.lt_add_of_pos_right (Nat.pos_of_ne_zero hpos)
  · rintro ⟨t, ht, hlt, rfl⟩
    obtain ⟨q, hq, rfl⟩ := mem_spans.mp ht
    rcases List.mem_append.mp hq with hq | hq
    · exact Or.inl ⟨_, m.tile_mem_footprint hq, rfl⟩
    · obtain ⟨h, hh, rfl⟩ := mem_apertures.mp hq
      by_cases hw : Params.Wraps h
      · obtain ⟨h₁, h₂⟩ := hvalid.hole_lt h hh
        rw [tile_mmio_of_wraps h₁ h₂ hw] at hlt
        simp only at hlt
        omega
      · rw [tile_mmio_of_not_wraps hw]
        exact Or.inr ⟨h, hh, hw, rfl⟩

include m in
/-- A wrapped aperture starts inside the map, or on the reset page above it. -/
private theorem lo_of_beyond {h : Nat × Nat} (hh : h ∈ params.mmio)
    (hle : params.memory ≤ h.1) : h.1 = resetAlias := by
  have hbase := (validate_eq_ok.mp m.validate_map).2 (.mmio h.1 h.2)
    (List.mem_append_right _ (mem_apertures.mpr ⟨h, hh, rfl⟩))
  exact hbase.2.resolve_left (Nat.not_lt.mpr hle)

/-- No span ends above the top, the TDX reset page's aside. -/
private theorem span_le (hvalid : params.Valid) {s : Tile Nat Nat} (hs : s ∈ spans m.map) :
    s.hi ≤ params.memory ∨ s.lo = resetAlias ∧ s.lo < s.hi := by
  obtain ⟨q, hq, rfl⟩ := mem_spans.mp hs
  rcases List.mem_append.mp hq with hq | hq
  · rcases m.region_le hvalid hq with hle | ⟨-, htile⟩
    · exact Or.inl hle
    · exact Or.inr ⟨by rw [htile], m.region_upright hq⟩
  · obtain ⟨h, hh, rfl⟩ := mem_apertures.mp hq
    exact Or.inl (hvalid.hole_le h hh)

section

variable {pre post : List (Tile Nat Nat)} {s : Tile Nat Nat}

/-- What the sweep has passed ends at or below the span it is at. -/
private theorem passed (hsplit : spans m.map = pre ++ s :: post) {t : Tile Nat Nat} (ht : t ∈ pre) :
    t ∈ spans m.map ∧ t.hi ≤ s.lo ∧ spanLe t s := by
  have hord := ordered_of_validate m.validate_map
  have hle := pairwise_spans m.map
  rw [hsplit] at hord hle
  exact ⟨hsplit ▸ List.mem_append_left _ ht,
    (List.pairwise_append.mp hord).2.2 t ht s List.mem_cons_self,
    (List.pairwise_append.mp hle).2.2 t ht s List.mem_cons_self⟩

/-- It includes every span that starts below that one. -/
private theorem le_reach_of_lt (hsplit : spans m.map = pre ++ s :: post) {t : Tile Nat Nat}
    (ht : t ∈ spans m.map) (hlt : t.lo < s.lo) : t.hi ≤ Sweep.reach 0 pre := by
  have hle := pairwise_spans m.map
  rw [hsplit] at hle
  rw [hsplit, List.mem_append, List.mem_cons] at ht
  rcases ht with ht | rfl | ht
  · exact Sweep.le_reach_iff.mpr (Or.inr ⟨t, ht, le_rfl⟩)
  · exact absurd hlt (lt_irrefl _)
  · have hst := (List.pairwise_cons.mp (List.pairwise_append.mp hle).2.1).1 t ht
    simp only [spanLe] at hst
    omega

private theorem exists_of_le_reach {b : Nat} (hb : 0 < b) (h : b ≤ Sweep.reach 0 pre) :
    ∃ t ∈ pre, b ≤ t.hi := (Sweep.le_reach_iff.mp h).resolve_left (Nat.not_le.mpr hb)

variable {h : Nat × Nat}

/-- When the sweep settles at a wrapped aperture that starts inside the map. -/
private theorem settles_inside_iff (hvalid : params.Valid) (hh : h ∈ params.mmio)
    (hw : Params.Wraps h) (hs : s = ⟨h.1, h.1 + h.2 - 2 ^ 64, absent⟩)
    (hsplit : spans m.map = pre ++ s :: post) (hin : h.1 < params.memory) :
    (s.lo ≤ max (Sweep.reach 0 pre) s.hi ∨ params.memory ≤ max (Sweep.reach 0 pre) s.hi) ↔
      IsEnd pf kernelFile initramfs params h.1 := by
  obtain ⟨h₁, h₂⟩ := hvalid.hole_lt h hh
  have hlo : s.lo = h.1 := by rw [hs]
  have hhi : s.hi = h.1 + h.2 - 2 ^ 64 := by rw [hs]
  have hwraps : 2 ^ 64 ≤ h.1 + h.2 := hw
  rw [le_max_iff, le_max_iff, m.isEnd_iff hvalid]
  constructor
  · intro hset
    obtain ⟨t, ht, hst⟩ : ∃ t ∈ pre, s.lo ≤ t.hi := by
      rcases hset with (hset | hset) | hset | hset
      · exact exists_of_le_reach (by omega) hset
      · omega
      · obtain ⟨t, ht, hle⟩ := exists_of_le_reach (by omega) hset
        exact ⟨t, ht, by omega⟩
      · omega
    obtain ⟨htspan, hts, hlt⟩ := m.passed hsplit ht
    refine ⟨t, htspan, ?_, by omega⟩
    rcases m.mem_spans_cases hvalid htspan with hup | ⟨g, hg, hgw, rfl⟩
    · exact hup
    · have hg₁ := (hvalid.hole_lt g hg).2
      simp only [spanLe] at *
      omega
  · rintro ⟨t, ht, hup, hti⟩
    have hreach := m.le_reach_of_lt hsplit ht (by omega)
    exact Or.inl (Or.inl ((hlo.trans hti.symm).le.trans hreach))

/-- When it settles at one that starts at the top or beyond. -/
private theorem settles_beyond_iff (hvalid : params.Valid) (hh : h ∈ params.mmio)
    (hw : Params.Wraps h) (hs : s = ⟨h.1, h.1 + h.2 - 2 ^ 64, absent⟩)
    (hsplit : spans m.map = pre ++ s :: post) (hout : params.memory ≤ h.1) :
    (s.lo ≤ max (Sweep.reach 0 pre) s.hi ∨ params.memory ≤ max (Sweep.reach 0 pre) s.hi) ↔
      IsEnd pf kernelFile initramfs params params.memory ∨ h.1 + h.2 = 2 ^ 64 + params.memory := by
  obtain ⟨h₁, h₂⟩ := hvalid.hole_lt h hh
  have hsum := hvalid.hole_le h hh
  rw [addU64_of_wrap h₁ h₂ hw] at hsum
  have hlo : s.lo = h.1 := by rw [hs]
  have hhi : s.hi = h.1 + h.2 - 2 ^ 64 := by rw [hs]
  have hwraps : 2 ^ 64 ≤ h.1 + h.2 := hw
  have hmem := hvalid.memory_gt
  rw [le_max_iff, le_max_iff, m.isEnd_iff hvalid]
  constructor
  · intro hset
    have hcases : (∃ t ∈ pre, params.memory ≤ t.hi) ∨ params.memory ≤ s.hi := by
      rcases hset with (hset | hset) | hset | hset
      · obtain ⟨t, ht, hle⟩ := exists_of_le_reach (by omega) hset
        exact Or.inl ⟨t, ht, by omega⟩
      · omega
      · exact Or.inl (exists_of_le_reach (by omega) hset)
      · exact Or.inr hset
    rcases hcases with ⟨t, ht, hle⟩ | hle
    · obtain ⟨htspan, hts, hlt⟩ := m.passed hsplit ht
      have hst : s.lo = resetAlias := hlo.trans (m.lo_of_beyond hh hout)
      rcases m.mem_spans_cases hvalid htspan with hup | ⟨g, hg, hgw, rfl⟩
      · rcases m.span_le hvalid htspan with hti | ⟨htlo, -⟩
        · exact Or.inl ⟨t, htspan, hup, le_antisymm hti hle⟩
        · omega
      · -- another wrapped aperture, on the same page and no longer
        have hg₁ := (hvalid.hole_lt g hg).2
        have hglo : g.1 = resetAlias := m.lo_of_beyond hg (by simp only at hle; omega)
        simp only [spanLe] at hlt hle
        omega
    · omega
  · rintro (⟨t, ht, hup, hti⟩ | heq)
    · have hreach := m.le_reach_of_lt hsplit ht (by omega)
      exact Or.inr (Or.inl (hti.symm.le.trans hreach))
    · exact Or.inr (Or.inr (by omega))

/-- When the sweep settles at a wrapped aperture. -/
private theorem settles_at_iff (hvalid : params.Valid) (hh : h ∈ params.mmio)
    (hw : Params.Wraps h) (hs : s = ⟨h.1, h.1 + h.2 - 2 ^ 64, absent⟩)
    (hsplit : spans m.map = pre ++ s :: post) :
    (s.lo ≤ max (Sweep.reach 0 pre) s.hi ∨ params.memory ≤ max (Sweep.reach 0 pre) s.hi) ↔
      (h.1 < params.memory → IsEnd pf kernelFile initramfs params h.1) ∧
        (params.memory ≤ h.1 → IsEnd pf kernelFile initramfs params params.memory ∨
          h.1 + h.2 = 2 ^ 64 + params.memory) := by
  cases Nat.lt_or_ge h.1 params.memory with
  | inl hin =>
    rw [m.settles_inside_iff hvalid hh hw hs hsplit hin]
    exact ⟨fun hend => ⟨fun _ => hend, fun hle => absurd hin (Nat.not_lt.mpr hle)⟩,
      fun hend => hend.1 hin⟩
  | inr hout =>
    rw [m.settles_beyond_iff hvalid hh hw hs hsplit hout]
    exact ⟨fun hend => ⟨fun hlt => absurd hlt (Nat.not_lt.mpr hout), fun _ => hend⟩,
      fun hend => hend.2 hout⟩

end

/-- The spans end on page boundaries, so the accept ranges start on them. -/
private theorem noCommonPage_iff (hvalid : params.Valid) :
    m.accept.Pairwise NoCommonPage ↔
      m.accept.Pairwise fun r s => (rangeTile r).Apart (rangeTile s) := by
  refine List.Pairwise.iff_of_mem fun {r s} hr hs => ?_
  have hr₁ := (m.accept_aligned hvalid hr).1
  have hs₁ := (m.accept_aligned hvalid hs).1
  have hr₂ := (bounds_of_mem_acceptRanges hr).1
  have hs₂ := (bounds_of_mem_acceptRanges hs).1
  simp only [NoCommonPage, Tile.Apart, rangeTile]
  constructor
  · intro h
    by_contra hmeet
    rcases Nat.le_total r.1 s.1 with hle | hle
    · exact h s.1 hs₁ (by omega)
    · exact h r.1 hr₁ (by omega)
  · rintro hapart a - hmeet
    omega

/-- When no page is accepted twice. -/
private theorem accepted_once_iff (hvalid : params.Valid) :
    m.accept.Pairwise NoCommonPage ↔
      (∀ h ∈ params.mmio, Params.Wraps h → h.1 < params.memory →
        IsEnd pf kernelFile initramfs params h.1) ∧
      ∀ h ∈ params.mmio, Params.Wraps h → params.memory ≤ h.1 →
        IsEnd pf kernelFile initramfs params params.memory ∨ h.1 + h.2 = 2 ^ 64 + params.memory := by
  have hapart : m.accept.Pairwise NoCommonPage ↔ Sweep.Settles params.memory 0 (spans m.map) := by
    rw [m.noCommonPage_iff hvalid, Mapped.accept, ← List.pairwise_map (f := rangeTile) (R := Tile.Apart),
      map_acceptRanges]
    exact ⟨Sweep.settles_of_apart (sortedByLo_spans _), Sweep.apart_of_settles⟩
  rw [hapart, Sweep.settles_iff]
  constructor
  · intro hset
    have hat : ∀ h ∈ params.mmio, Params.Wraps h →
        (h.1 < params.memory → IsEnd pf kernelFile initramfs params h.1) ∧
          (params.memory ≤ h.1 → IsEnd pf kernelFile initramfs params params.memory ∨
            h.1 + h.2 = 2 ^ 64 + params.memory) := by
      intro h hh hw
      obtain ⟨pre, post, hsplit⟩ := List.mem_iff_append.mp (m.wrapped_mem_spans hvalid hh hw)
      exact (m.settles_at_iff hvalid hh hw rfl hsplit).mp (hset _ _ _ hsplit)
    exact ⟨fun h hh hw => (hat h hh hw).1, fun h hh hw => (hat h hh hw).2⟩
  · rintro ⟨hinside, hbeyond⟩ pre s post hsplit
    have hs : s ∈ spans m.map := hsplit ▸ List.mem_append_right _ List.mem_cons_self
    rcases m.mem_spans_cases hvalid hs with hup | ⟨h, hh, hw, hs⟩
    · exact Or.inl (hup.le.trans (le_max_right _ _))
    · exact (m.settles_at_iff hvalid hh hw hs hsplit).mpr ⟨hinside h hh hw, hbeyond h hh hw⟩

/-! ## The partition -/

/-- A mapped image partitions its memory exactly on clean inputs. -/
theorem partitioned_iff (hvalid : params.Valid) :
    Partitioned pf params m.pages ↔ Clean pf kernelFile initramfs params := by
  have honce : (m.pages.map Prod.fst).Nodup :=
    List.pairwise_map.mpr (m.pairwise_pages.imp fun hlt => hlt.ne)
  constructor
  · rintro ⟨pg, accept, hpg, hranges, hpart⟩
    obtain rfl : m.shim = pg := eq_of_mem_of_pairwise m.pairwise_pages m.shim_mem_pages hpg
    obtain rfl : m.accept = accept := Option.some.inj ((m.shimRanges_shim hvalid).symm.trans hranges)
    obtain ⟨hloaded, hdeclared⟩ := (m.one_iff hvalid).mp hpart.one
    obtain ⟨hinside, hbeyond⟩ := (m.accepted_once_iff hvalid).mp hpart.accepted_once
    exact ⟨hloaded, hdeclared, hinside, hbeyond⟩
  · intro hclean
    exact ⟨m.shim, m.accept, m.shim_mem_pages, m.shimRanges_shim hvalid,
      (m.one_iff hvalid).mpr ⟨hclean.loaded, hclean.declared⟩, honce,
      (m.accepted_once_iff hvalid).mpr ⟨hclean.inside, hclean.beyond⟩,
      fun a halign ha h => m.above hvalid ha halign h⟩

end Mapped

/-- The pages a built image imports, the ranges its shim accepts and its apertures
    partition its memory exactly on clean inputs, on both platforms. -/
theorem built_partitioned_iff (crate : Crate) (hashes : Hashes) (blob : ShimBlob)
    (kernelFile initramfs : List UInt8) (ram : UInt64) (vcpus : UInt32) (cmdline : List Char)
    (mmio : List (UInt64 × UInt64)) (params : Params) (configHash : Option (List Char)) :
    (∀ out : Image.Built,
      Params.tdx ram vcpus cmdline mmio = .ok params →
      Image.build crate hashes blob kernelFile initramfs params configHash = .ok out →
      (Partitioned .tdx params out.pages ↔ Clean .tdx kernelFile initramfs params)) ∧
    ∀ (view : VmsaView) (p384 : P384) (cbit : UInt8) (idKey : Option (List Char))
        (guestSvn : UInt32) (out : Snp.Built),
      Params.snp ram vcpus cbit cmdline mmio = .ok params →
      Snp.build crate hashes view p384 blob kernelFile initramfs params configHash idKey guestSvn =
        .ok out →
      (Partitioned .snp params (pagesByAddress out.pages) ↔ Clean .snp kernelFile initramfs params) := by
  constructor
  · intro out hparams hbuild
    obtain ⟨run, rfl⟩ := tdx_build_eq_ok.mp hbuild
    exact run.partitioned_iff (Params.valid_of_tdx hparams)
  · intro view p384 cbit idKey guestSvn out hparams hbuild
    obtain ⟨run, rfl⟩ := snp_build_eq_ok.mp hbuild
    rw [run.pagesByAddress_built]
    exact run.partitioned_iff (Params.valid_of_snp hparams)

/-- A guest with an initramfs and no aperture is clean, so both of its images partition. -/
theorem built_partitioned_sample :
    (∃ crate out, Image.build crate Sample.hashes Sample.blob Sample.kernelFile [1]
        (Sample.params 1 51 []) none = .ok out ∧
      Partitioned .tdx (Sample.params 1 51 []) out.pages) ∧
    ∃ crate out, Snp.build crate Sample.hashes Sample.view Sample.p384 Sample.blob
        Sample.kernelFile [1] (Sample.params 1 51 []) none none 0 = .ok out ∧
      Partitioned .snp (Sample.params 1 51 []) (pagesByAddress out.pages) := by
  have hclean : ∀ pf, Clean pf Sample.kernelFile [1] (Sample.params 1 51 []) := fun pf =>
    ⟨fun h => absurd h (by decide), nofun, nofun, nofun⟩
  constructor
  · obtain ⟨m⟩ : Nonempty (Mapped .tdx Sample.blob Sample.kernelFile [1] (Sample.params 1 51 [])) :=
      Sample.nonempty_mapped .tdx 1 51 (by decide) nofun .nil (by decide)
    obtain ⟨out, hout⟩ := Sample.exists_tdx_build m
    exact ⟨_, out, hout, ((built_partitioned_iff _ _ _ _ _ _ _ _ _ _ _).1 _ Sample.tdx_eq_ok
      hout).mpr (hclean _)⟩
  · obtain ⟨m⟩ : Nonempty (Mapped .snp Sample.blob Sample.kernelFile [1] (Sample.params 1 51 [])) :=
      Sample.nonempty_mapped .snp 1 51 (by decide) nofun .nil (by decide)
    obtain ⟨out, hout⟩ := Sample.exists_snp_build m
    exact ⟨_, out, hout, ((built_partitioned_iff _ _ _ _ _ _ _ _ _ _ _).2 _ _ _ _ _ _
      Sample.snp_eq_ok hout).mpr (hclean _)⟩

/-- An image built with an empty initramfs file imports no page at the initramfs's base,
    accepts none there and declares no aperture over it. -/
theorem not_partitioned_of_empty_initramfs :
    ∃ crate params out, Params.tdx 0x40000000 1 [] [] = .ok params ∧
      Image.build crate Sample.hashes Sample.blob Sample.kernelFile [] params none = .ok out ∧
      ¬ Partitioned .tdx params out.pages := by
  obtain ⟨m⟩ : Nonempty (Mapped .tdx Sample.blob Sample.kernelFile [] (Sample.params 1 51 [])) :=
    Sample.nonempty_mapped .tdx 1 51 (by decide) nofun .nil (by decide)
  obtain ⟨out, hout⟩ := Sample.exists_tdx_build m
  refine ⟨_, _, out, Sample.tdx_eq_ok, hout, fun hpart => ?_⟩
  obtain ⟨run, rfl⟩ := tdx_build_eq_ok.mp hout
  have hclean := (run.partitioned_iff (Params.valid_of_tdx Sample.tdx_eq_ok)).mp hpart
  obtain ⟨h, hh, -⟩ := hclean.loaded rfl
  exact List.not_mem_nil hh

end BootShim.Pipeline
