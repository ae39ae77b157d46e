-- SUMMARY: Which addresses a mapped image imports, accepts and leaves to its apertures.
import BootShim.Pipeline.Success

/-!
# What a mapped image covers

Three statements about one address: when a page of the image is imported, when an
accept range covers it, and when a region of the map does. An aperture whose end wraps
past 64 bits covers nothing as a region, although its declared range is not empty.
-/

namespace BootShim.Pipeline

open Boot Bytes Image Layout Snp

variable {pf : Platform} {blob : ShimBlob} {kernelFile initramfs : List UInt8} {params : Params}

/-! ## Apertures as intervals -/

theorem tile_mmio_of_not_wraps {h : Nat × Nat} (hw : ¬ Params.Wraps h) :
    (Placed.mmio h.1 h.2).tile = ⟨h.1, h.1 + h.2, absent⟩ := by
  have hsum : h.1 + h.2 < 2 ^ 64 := Nat.lt_of_not_le hw
  simp only [Placed.tile, Placed.mmio, Placed.span, addU64_of_lt hsum]

/-- An aperture that wraps ends below its own start. -/
theorem tile_mmio_of_wraps {h : Nat × Nat} (h₁ : h.1 < 2 ^ 64) (h₂ : h.2 < 2 ^ 64)
    (hw : Params.Wraps h) : (Placed.mmio h.1 h.2).tile = ⟨h.1, h.1 + h.2 - 2 ^ 64, absent⟩ := by
  simp only [Placed.tile, Placed.mmio, Placed.span, addU64_of_wrap h₁ h₂ hw]

/-- The address lies in the range an aperture declares. -/
def InAperture (mmio : List (Nat × Nat)) (a : Nat) : Prop := ∃ h ∈ mmio, h.1 ≤ a ∧ a < h.1 + h.2

/-- The address lies in an aperture that does not wrap. -/
def InStraight (mmio : List (Nat × Nat)) (a : Nat) : Prop :=
  ∃ h ∈ mmio, ¬ Params.Wraps h ∧ h.1 ≤ a ∧ a < h.1 + h.2

/-- The address lies in a range of the list. -/
def InRange (ranges : List (Nat × Nat)) (a : Nat) : Prop := ∃ r ∈ ranges, r.1 ≤ a ∧ a < r.2

/-- The page of an empty initramfs: covered by its region but imported by no one. -/
def Unloaded (initramfs : List UInt8) (a : Nat) : Prop := initramfs = [] ∧ a = initramfsBase

theorem mem_aperture_tile_iff (hvalid : params.Valid) {a : Nat} :
    (∃ q ∈ apertures params, q.tile.Mem a) ↔ InStraight params.mmio a := by
  constructor
  · rintro ⟨q, hq, hmem⟩
    obtain ⟨h, hh, rfl⟩ := mem_apertures.mp hq
    by_cases hw : Params.Wraps h
    · obtain ⟨h₁, h₂⟩ := hvalid.hole_lt h hh
      rw [tile_mmio_of_wraps h₁ h₂ hw] at hmem
      simp only [Tile.Mem] at hmem
      omega
    · rw [tile_mmio_of_not_wraps hw] at hmem
      exact ⟨h, hh, hw, hmem⟩
  · rintro ⟨h, hh, hw, hmem⟩
    refine ⟨_, mem_apertures.mpr ⟨h, hh, rfl⟩, ?_⟩
    rw [tile_mmio_of_not_wraps hw]
    exact hmem

/-- Every region ends on a page boundary, and so does what a wrapped aperture wraps to. -/
theorem aligned_of_valid {p : Prepared} {memory : Nat} {zero shim : List UInt8}
    (hsized : Sized p memory) (hzero : zero.length = page) (hshim : shim.length = page)
    (hvalid : params.Valid) : Aligned (pf.map p params zero shim) := by
  intro q hq
  rcases List.mem_append.mp hq with hq | hq
  · have hfits := fits_regions hsized hzero hshim hq
    exact ⟨hfits.aligned, hfits.hi_aligned (isMmio_of_mem_regions hq)⟩
  · obtain ⟨h, hh, rfl⟩ := mem_apertures.mp hq
    obtain ⟨h₁, h₂, -⟩ := hvalid.hole_aligned h hh
    refine ⟨h₁, ?_⟩
    simp only [Placed.tile, Placed.mmio, Placed.span, addU64, page] at *
    omega

namespace Mapped

variable (m : Mapped pf blob kernelFile initramfs params)

/-! ## Regions -/

/-- The address lies in one of the builder's own regions. -/
def InRegion (a : Nat) : Prop := ∃ q ∈ m.regions, q.tile.Mem a

theorem tile_mem_footprint {q : Placed} (hq : q ∈ m.regions) :
    q.tile ∈ pf.footprint (kernelEnd m.p.kernel) (initramfsEnd m.p.initramfs) := by
  rw [← map_tile_regions m.sized m.length_zero m.length_shim]
  exact List.mem_map_of_mem hq

theorem exists_region {t : Tile Nat Nat}
    (ht : t ∈ pf.footprint (kernelEnd m.p.kernel) (initramfsEnd m.p.initramfs)) :
    ∃ q ∈ m.regions, q.tile = t := by
  rw [← map_tile_regions m.sized m.length_zero m.length_shim] at ht
  exact List.mem_map.mp ht

theorem taken_map_iff (hvalid : params.Valid) {a : Nat} :
    Taken m.map a ↔ m.InRegion a ∨ InStraight params.mmio a := by
  rw [← mem_aperture_tile_iff hvalid]
  simp only [Taken, InRegion, Mapped.map, Platform.map, Mapped.regions, List.mem_append, or_and_right,
    exists_or]

/-- No address lies in a region of the builder's and in an aperture. -/
theorem not_inStraight_of_inRegion (hvalid : params.Valid) {a : Nat} (h : m.InRegion a) :
    ¬ InStraight params.mmio a := by
  rw [← mem_aperture_tile_iff hvalid]
  rintro ⟨r, hr, hra⟩
  obtain ⟨q, hq, hqa⟩ := h
  have heq : q = r := tile_eq_of_mem m.validate_map (List.mem_append_left _ hq)
    (List.mem_append_right _ hr) hqa hra
  have hmmio := isMmio_of_mem_regions hq
  rw [heq, isMmio_of_mem_apertures hr] at hmmio
  exact absurd hmmio (by decide)

theorem initramfsEnd_le_memory (hvalid : params.Valid) :
    initramfsEnd m.p.initramfs ≤ params.memory := by
  have hend := m.sized.initramfs_end
  have haligned := hvalid.memory_aligned
  have hgt := hvalid.memory_gt
  rw [alignUp_add_page (by decide)] at hend
  simp only [initramfsEnd, initramfsBase, page] at *
  omega

/-- Every region ends at or below the top, the TDX reset page aside. -/
theorem region_le (hvalid : params.Valid) {q : Placed} (hq : q ∈ m.regions) :
    q.tile.hi ≤ params.memory ∨
      pf = .tdx ∧ q.tile = ⟨resetAlias, resetAlias + page, reserved⟩ :=
  (footprint_le m.sized.kernel_end (initramfsBase_lt_initramfsEnd _) _ (m.tile_mem_footprint hq)).imp
    (fun h => h.2.trans (m.initramfsEnd_le_memory hvalid)) id

theorem region_upright {q : Placed} (hq : q ∈ m.regions) : q.tile.lo < q.tile.hi :=
  nonempty_footprint (kernelBase_lt_kernelEnd m.sized) (initramfsBase_lt_initramfsEnd _) _
    (m.tile_mem_footprint hq)

/-! ## The initramfs -/

theorem initramfs_eq : m.p.initramfs = initramfs := (files_of_prepare m.prepare_ok).1

theorem kernel_eq : m.p.kernel = kernelFile.drop (setupBytesOf kernelFile) :=
  (files_of_prepare m.prepare_ok).2.1

theorem footprint_eq : pf.footprint (kernelEnd m.p.kernel) (initramfsEnd m.p.initramfs) =
    pf.footprint (kernelEnd (kernelFile.drop (setupBytesOf kernelFile)))
      (initramfsEnd initramfs) := by
  rw [m.kernel_eq]
  exact congrArg _ (congrArg _ m.initramfs_eq)

theorem tile_initramfs_hi :
    (Placed.measured initramfsBase "initramfs" ram m.p.initramfs).tile.hi =
      initramfsEnd m.p.initramfs :=
  (m.fits m.mem_regions_initramfs).tile_hi

theorem inRegion_of_unloaded {a : Nat} (h : Unloaded initramfs a) : m.InRegion a := by
  obtain ⟨-, rfl⟩ := h
  exact ⟨_, m.mem_regions_initramfs, le_rfl, m.region_upright m.mem_regions_initramfs⟩

/-- An address is imported when it is a page of a region, except that nothing is
    imported for an empty initramfs. -/
theorem mem_imports_iff {a : Nat} :
    a ∈ m.pages.map Prod.fst ↔ a % page = 0 ∧ m.InRegion a ∧ ¬ Unloaded initramfs a := by
  have hinit := m.mem_regions_initramfs
  have huniq : ∀ q ∈ m.regions, q.tile.Mem initramfsBase →
      q = .measured initramfsBase "initramfs" ram m.p.initramfs := fun q hq hmem =>
    tile_eq_of_mem m.validate_map (List.mem_append_left _ hq) (List.mem_append_left _ hinit) hmem
      ⟨le_rfl, m.region_upright hinit⟩
  constructor
  · rw [List.mem_map]
    rintro ⟨x, hx, rfl⟩
    obtain ⟨q, hq, hxq⟩ := List.mem_flatMap.mp hx
    obtain ⟨halign, hmem⟩ := (m.fits hq).of_mem_contents hxq
    refine ⟨halign, ⟨q, hq, hmem⟩, ?_⟩
    rintro ⟨hnil, hbase⟩
    rw [huniq q hq (hbase ▸ hmem), m.initramfs_eq, hnil] at hxq
    exact List.not_mem_nil hxq
  · rintro ⟨halign, ⟨q, hq, hmem⟩, hloaded⟩
    have hne : q.fill ≠ .measured [] := by
      refine fill_ne_nil_of_mem_regions m.sized m.length_zero m.length_shim hq ?_
      by_contra hcon
      rw [not_or, not_not, not_not] at hcon
      have hnil : m.p.initramfs = [] := hcon.2
      have hq' : q.tile.Mem initramfsBase := by
        have hlo : q.tile.lo = initramfsBase := hcon.1
        exact ⟨hlo.le, hlo ▸ m.region_upright hq⟩
      rw [huniq q hq hq'] at hmem
      have hhi : a < initramfsEnd m.p.initramfs := m.tile_initramfs_hi ▸ hmem.2
      have hend : initramfsEnd m.p.initramfs = initramfsBase + page := by
        rw [hnil]
        rfl
      have hlo : initramfsBase ≤ a := hmem.1
      refine hloaded ⟨m.initramfs_eq ▸ hnil, ?_⟩
      simp only [initramfsBase, page] at *
      omega
    obtain ⟨d, hd⟩ := (m.fits hq).exists_mem_contents (isMmio_of_mem_regions hq) hne halign hmem
    exact List.mem_map.mpr ⟨(a, d), List.mem_flatMap.mpr ⟨q, hq, hd⟩, rfl⟩

theorem inRange_accept_iff (hvalid : params.Valid) {a : Nat} :
    InRange m.accept a ↔ a < params.memory ∧ ¬ m.InRegion a ∧ ¬ InStraight params.mmio a := by
  rw [InRange, Mapped.accept, mem_acceptRanges_iff, m.taken_map_iff hvalid, not_or]

/-! ## Page boundaries -/

theorem aligned_map (hvalid : params.Valid) : Aligned m.map :=
  aligned_of_valid m.sized m.length_zero m.length_shim hvalid

theorem accept_aligned (hvalid : params.Valid) {r : Nat × Nat} (hr : r ∈ m.accept) :
    r.1 % page = 0 ∧ r.2 % page = 0 :=
  aligned_of_mem_acceptRanges (m.aligned_map hvalid) hvalid.memory_aligned hr

theorem e820_aligned (hvalid : params.Valid) {e : Nat × Nat × Nat} (he : e ∈ m.e820) :
    e.1 % page = 0 ∧ (e.1 + e.2.1) % page = 0 :=
  aligned_of_mem_e820 (m.aligned_map hvalid) hvalid.memory_aligned he

/-! ## The shim's page -/

/-- The accept list is what the shim reads out of its page. -/
theorem shimRanges_shim (hvalid : params.Valid) : shimRanges m.shim = some m.accept := by
  have hshim := m.shim_ok
  rw [m.acceptRanges_blank] at hshim
  refine Image.shimRanges_shim hshim fun r hr => ?_
  obtain ⟨hlt, hle⟩ := bounds_of_mem_acceptRanges hr
  have hmem := hvalid.memory_le
  refine ⟨hlt, ?_⟩
  simp only [mapLimit, gib] at hmem
  omega

/-- The shim's page is among the imported ones. -/
theorem shim_mem_pages : (pf.shimAt, m.shim) ∈ m.pages :=
  m.mem_pages_of_measured m.length_shim m.mem_regions_shim

end Mapped

end BootShim.Pipeline
