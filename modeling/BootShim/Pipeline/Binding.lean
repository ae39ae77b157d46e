-- SUMMARY: What the imported pages of an image settle about the guest it is for.
import BootShim.Acpi.Madt
import BootShim.Pipeline.HoleSets
import BootShim.Pipeline.Memory

/-!
# What the pages bind

A measurement is over the imported pages alone. Two images with the same pages have the
same processors, initramfs, maps, setup area and, given the same memory, apertures, and
kernels that differ at most in zeros behind their last byte. Each follows by reading one
region of both images back.
-/

namespace BootShim.Pipeline

open Boot Bytes Igvm Image Layout Snp

variable {pf : Platform} {blob : ShimBlob}
  {kernelFile kernelFile' initramfs initramfs' : List UInt8} {params params' : Params}

namespace Mapped

/-! ## One image -/

section

variable (m : Mapped pf blob kernelFile initramfs params)

/-- Nothing lies between the kernel's end and the initramfs. -/
theorem not_inRegion_of_behind_kernel {a : Nat} (hlo : kernelEnd m.p.kernel ≤ a)
    (hhi : a < initramfsBase) : ¬ m.InRegion a := by
  rintro ⟨q, hq, hmem⟩
  have hkernel := kernelBase_lt_kernelEnd m.sized
  have hnone : ∀ t ∈ pf.footprint (kernelEnd m.p.kernel) (initramfsEnd m.p.initramfs),
      ¬ t.Mem a := by
    cases pf <;>
      · simp [Platform.footprint, Tile.Mem] at *
        omega
  exact hnone _ (m.tile_mem_footprint hq) hmem

/-- The zero page states the length of the initramfs. -/
theorem getLE_ramdiskSize : getLE 4 m.zero hdrRamdiskSize = initramfs.length := by
  obtain ⟨-, -, hlen, hlt⟩ := fits_of_prepare m.prepare_ok
  have hheader := getLE_zeroPageHeader m.p.setup m.p.info m.p.initramfs.length acpiBase pf.setupData
  rw [getLE_zeroPage m.zero_ok (by decide) (by decide), hheader.2.1, hlen]
  exact Nat.mod_eq_of_lt hlt

/-- E820 leaves out the apertures and nothing else. -/
theorem aperture_iff_not_covered (hvalid : params.Valid) (hstraight : Straight params) {a : Nat} :
    InAperture params.mmio a ↔
      a < params.memory ∧ ∀ k, ¬ Tile.Covers (m.e820.map entryTile) a k := by
  have hclaimed : (∃ k, Tile.Covers (m.e820.map entryTile) a k) ↔
      a < params.memory ∧ ¬ InAperture params.mmio a := by
    rw [← exists_entryHolds_iff, ← m.toValidated_e820]
    exact m.toValidated.claimed_iff hstraight
  rw [← not_exists, hclaimed, not_and_not_right]
  refine ⟨fun haperture => ⟨?_, fun _ => haperture⟩, fun h => h.2 h.1⟩
  obtain ⟨h, hh, hmem⟩ := haperture
  have harith : ApertureArithmetic pf params := apertureArithmetic_of_straight hvalid hstraight
  exact hmem.2.trans_le (harith.bounds h hh).2.2

end

/-! ## Two images with the same pages -/

section

variable (m : Mapped pf blob kernelFile initramfs params)
  (m' : Mapped pf blob kernelFile' initramfs' params') (hpages : m.pages = m'.pages)

include hpages

/-- Regions of one base and of as many pages hold the same, up to zeros behind the end. -/
theorem padTo_eq {base k k' : Nat} {name name' : String} {d d' : List UInt8}
    (hq : .measured base name k d ∈ m.regions) (hq' : .measured base name' k' d' ∈ m'.regions)
    (hlen : alignUp d.length page = alignUp d'.length page) :
    padTo (alignUp d.length page) d = padTo (alignUp d'.length page) d' := by
  have hholds := m.holds_region (fun _ => 0) (m.mem_sorted hq) rfl
  have hholds' := m'.holds_region (fun _ => 0) (m'.mem_sorted hq') rfl
  rw [← hpages] at hholds'
  refine hholds.unique hholds' ?_
  rw [length_padTo (le_alignUp_page _), length_padTo (le_alignUp_page _), hlen]

/-- Regions of one base and one length hold the same. -/
theorem data_eq {base k k' : Nat} {name name' : String} {d d' : List UInt8}
    (hq : .measured base name k d ∈ m.regions) (hq' : .measured base name' k' d' ∈ m'.regions)
    (hlen : d.length = d'.length) : d = d' := by
  have hpad := m.padTo_eq m' hpages hq hq' (by rw [hlen])
  have htake := congrArg (List.take d.length) hpad
  rw [padTo, padTo, List.take_left, hlen, List.take_left] at htake
  exact htake

theorem zero_eq : m.zero = m'.zero :=
  m.data_eq m' hpages m.mem_regions_zero m'.mem_regions_zero
    (m.length_zero.trans m'.length_zero.symm)

theorem shim_eq : m.shim = m'.shim :=
  m.data_eq m' hpages m.mem_regions_shim m'.mem_regions_shim
    (m.length_shim.trans m'.length_shim.symm)

theorem e820_eq (hvalid : params.Valid) (hvalid' : params'.Valid) : m.e820 = m'.e820 := by
  rw [← m.e820Of_zero hvalid, ← m'.e820Of_zero hvalid', m.zero_eq m' hpages]

theorem accept_eq (hvalid : params.Valid) (hvalid' : params'.Valid) : m.accept = m'.accept := by
  refine Option.some.inj ?_
  rw [← m.shimRanges_shim hvalid, ← m'.shimRanges_shim hvalid', m.shim_eq m' hpages]

/-- The MADT's length counts the processors. -/
theorem vcpus_eq (hvalid : params.Valid) (hvalid' : params'.Valid) :
    params.vcpus = params'.vcpus := by
  have hacpi := m.data_eq m' hpages m.mem_regions_acpi m'.mem_regions_acpi
    ((Acpi.length_build _ _).trans (Acpi.length_build _ _).symm)
  have hlen := congrArg (fun pg => getLE 4 pg (acpiMadt + 4)) hacpi
  simp only [Acpi.getLE_madtLen hvalid.vcpus_le, Acpi.getLE_madtLen hvalid'.vcpus_le,
    Acpi.madtLen, madtLapicLen] at hlen
  omega

theorem setup_eq : m.p.setup = m'.p.setup :=
  m.data_eq m' hpages m.mem_regions_setup m'.mem_regions_setup
    (m.sized.setup_length.trans m'.sized.setup_length.symm)

theorem initramfs_eq_of_pages : initramfs = initramfs' := by
  have hlen : initramfs.length = initramfs'.length := by
    rw [← m.getLE_ramdiskSize, ← m'.getLE_ramdiskSize, m.zero_eq m' hpages]
  rw [← m.initramfs_eq, ← m'.initramfs_eq]
  refine m.data_eq m' hpages m.mem_regions_initramfs m'.mem_regions_initramfs ?_
  rw [m.initramfs_eq, m'.initramfs_eq, hlen]

/-- The first page behind one kernel is in no region, so not in the other kernel either. -/
theorem kernelEnd_le : kernelEnd m'.p.kernel ≤ kernelEnd m.p.kernel := by
  by_contra hlt
  rw [Nat.not_le] at hlt
  have hend : kernelEnd m'.p.kernel ≤ initramfsBase := m'.sized.kernel_end
  have hstart := kernelBase_lt_kernelEnd m.sized
  have halign : kernelEnd m.p.kernel % page = 0 := alignUp_page _
  have hfoot : ⟨kernelBase, kernelEnd m'.p.kernel, ram⟩ ∈
      pf.footprint (kernelEnd m'.p.kernel) (initramfsEnd m'.p.initramfs) := by
    cases pf <;> simp [Platform.footprint]
  obtain ⟨q, hq, htile⟩ := m'.exists_region hfoot
  have hin : kernelEnd m.p.kernel ∈ m'.pages.map Prod.fst := by
    refine m'.mem_imports_iff.mpr ⟨halign, ⟨q, hq, ?_⟩, ?_⟩
    · rw [htile]
      exact ⟨hstart.le, hlt⟩
    · rintro ⟨-, heq⟩
      exact absurd (heq ▸ hlt) (Nat.not_lt.mpr hend)
  rw [← hpages] at hin
  exact m.not_inRegion_of_behind_kernel le_rfl (hlt.trans_le hend) (m.mem_imports_iff.mp hin).2.1

/-- The kernels differ at most in zeros behind the end, up to a page boundary. -/
theorem kernel_padTo_eq :
    padTo (alignUp m.p.kernel.length page) m.p.kernel =
      padTo (alignUp m'.p.kernel.length page) m'.p.kernel := by
  have hend : kernelEnd m.p.kernel = kernelEnd m'.p.kernel :=
    le_antisymm (m'.kernelEnd_le m hpages.symm) (m.kernelEnd_le m' hpages)
  rw [kernelEnd, kernelEnd, alignUp_add_page (by decide), alignUp_add_page (by decide)] at hend
  exact m.padTo_eq m' hpages m.mem_regions_kernel m'.mem_regions_kernel (Nat.add_left_cancel hend)

theorem inAperture_congr (hvalid : params.Valid) (hvalid' : params'.Valid)
    (hstraight : Straight params) (hstraight' : Straight params')
    (hmem : params.memory = params'.memory) (a : Nat) :
    InAperture params.mmio a ↔ InAperture params'.mmio a := by
  rw [m.aperture_iff_not_covered hvalid hstraight,
    m'.aperture_iff_not_covered hvalid' hstraight', hmem, m.e820_eq m' hpages hvalid hvalid']

end

/-- The first entry of the tables has the C-bit in its upper half. -/
theorem identityEntry_shiftRight {cBit : Nat} (hge : 32 ≤ cBit) (sharedAlias : Bool) :
    identityEntry cBit sharedAlias 0 >>> 32 = 2 ^ (cBit - 32) := by
  have hmask : cMask cBit = 2 ^ cBit := by
    rw [cMask, if_neg (by omega), Nat.one_shiftLeft]
  have hsplit : 2 ^ cBit >>> 32 = 2 ^ (cBit - 32) := by
    rw [Nat.shiftRight_eq_div_pow, Nat.pow_div hge (by decide)]
  rw [identityEntry, if_pos rfl, hmask, Nat.shiftRight_or_distrib, Nat.shiftRight_or_distrib,
    hsplit]
  simp

theorem cbit_eq (m : Mapped .snp blob kernelFile initramfs params)
    (m' : Mapped .snp blob kernelFile' initramfs' params') (hpages : m.pages = m'.pages)
    (hvalid : params.Valid) (hvalid' : params'.Valid) : params.cbit = params'.cbit := by
  have hregion : .measured pageTables "" reserved (identityMap params.cbit true) ∈ m.regions := by
    simp [Mapped.regions, Platform.regions, snpRegions]
  have hregion' :
      .measured pageTables "" reserved (identityMap params'.cbit true) ∈ m'.regions := by
    simp [Mapped.regions, Platform.regions, snpRegions]
  have htables := m.data_eq m' hpages hregion hregion' (by simp)
  have hentry := congrArg (fun pg => getLE 8 pg (0 * 8)) htables
  simp only [getLE_identityMap (Nat.lt_of_le_of_lt hvalid.cbit_le (by decide : 63 < 64))
      (by simp : 0 * 8 + 8 ≤ (identityMap params.cbit true).length),
    getLE_identityMap (Nat.lt_of_le_of_lt hvalid'.cbit_le (by decide : 63 < 64))
      (by simp : 0 * 8 + 8 ≤ (identityMap params'.cbit true).length)] at hentry
  have hpow : 2 ^ (params.cbit - 32) = 2 ^ (params'.cbit - 32) := by
    rw [← identityEntry_shiftRight hvalid.cbit_ge true, hentry,
      identityEntry_shiftRight hvalid'.cbit_ge]
  have hge := hvalid.cbit_ge
  have hge' := hvalid'.cbit_ge
  have hsub := Nat.pow_right_injective le_rfl hpow
  omega

end Mapped

/-! ## Builds -/

/-- What an operator gives for a guest, with apertures that do not wrap, and the parameters
    that the program makes of it. -/
structure Guest where
  ram : UInt64
  vcpus : UInt32
  cmdline : List Char
  holes : List (UInt64 × UInt64)
  kernelFile : List UInt8
  initramfs : List UInt8
  params : Params
  straight : ∀ g ∈ holes, ¬ Params.Wraps (Params.holeToNat g)

/-- A successful TDX build. -/
structure TdxBuild (crate : Crate) (hashes : Hashes) (blob : ShimBlob) extends Guest where
  configHash : Option (List Char)
  out : Image.Built
  params_ok : Params.tdx ram vcpus cmdline holes = .ok params
  build_ok : Image.build crate hashes blob kernelFile initramfs params configHash = .ok out

/-- A successful SNP build. -/
structure SnpBuild (crate : Crate) (hashes : Hashes) (view : VmsaView) (p384 : P384)
    (blob : ShimBlob) extends Guest where
  cbit : UInt8
  configHash : Option (List Char)
  idKey : Option (List Char)
  guestSvn : UInt32
  out : Snp.Built
  params_ok : Params.snp ram vcpus cbit cmdline holes = .ok params
  build_ok : Snp.build crate hashes view p384 blob kernelFile initramfs params configHash idKey
    guestSvn = .ok out

/-- The kernel's setup sectors in the area reserved for them. -/
def setupArea (kernelFile : List UInt8) : List UInt8 :=
  write (zeros kernelSetupAreaSize) 0 (kernelFile.take (setupBytesOf kernelFile))

/-- The kernel's payload up to the page boundary behind it. -/
def paddedPayload (kernelFile : List UInt8) : List UInt8 :=
  let payload := kernelFile.drop (setupBytesOf kernelFile)
  padTo (alignUp payload.length page) payload

/-- Two guests are one as far as the pages of an image can tell. -/
structure SameConfiguration (g g' : Guest) : Prop where
  vcpus : g.vcpus = g'.vcpus
  initramfs : g.initramfs = g'.initramfs
  setup : setupArea g.kernelFile = setupArea g'.kernelFile
  payload : paddedPayload g.kernelFile = paddedPayload g'.kernelFile
  apertures : g.ram = g'.ram → ∀ a, InAperture g.params.mmio a ↔ InAperture g'.params.mmio a

theorem Mapped.setup_eq_setupArea (m : Mapped pf blob kernelFile initramfs params) :
    m.p.setup = setupArea kernelFile := by
  obtain ⟨info, hparse, -, hp⟩ := prepare_eq_ok.mp m.prepare_ok
  rw [hp, prepared, setupArea, (parseBzimage_ok hparse).1]

theorem sameConfiguration {g g' : Guest} {cbit cbit' : UInt8} {holeEnd : Nat}
    (hend : holeEnd ≤ fourGib)
    (h : Params.new g.ram g.vcpus g.cmdline cbit g.holes holeEnd = .ok g.params)
    (h' : Params.new g'.ram g'.vcpus g'.cmdline cbit' g'.holes holeEnd = .ok g'.params)
    (m : Mapped pf blob g.kernelFile g.initramfs g.params)
    (m' : Mapped pf blob g'.kernelFile g'.initramfs g'.params) (hpages : m.pages = m'.pages) :
    SameConfiguration g g' ∧ m.e820 = m'.e820 ∧ m.accept = m'.accept := by
  have hadm := Params.new_eq_ok.mp h
  have hadm' := Params.new_eq_ok.mp h'
  have hlt : holeEnd < 2 ^ 64 := hend.trans_lt (by decide)
  have hvalid : g.params.Valid := hadm.valid hlt
  have hvalid' : g'.params.Valid := hadm'.valid hlt
  have hstraight : Straight g.params := straight_of_admitted hadm hend g.straight
  have hstraight' : Straight g'.params := straight_of_admitted hadm' hend g'.straight
  have hvcpus := m.vcpus_eq m' hpages hvalid hvalid'
  have hkernel := m.kernel_padTo_eq m' hpages
  rw [m.kernel_eq, m'.kernel_eq] at hkernel
  have hmemory : g.ram = g'.ram → g.params.memory = g'.params.memory := by
    intro hram
    rw [hadm.eq, hadm'.eq, hram]
  rw [hadm.eq, hadm'.eq] at hvcpus
  refine ⟨⟨UInt32.toNat_inj.mp hvcpus, m.initramfs_eq_of_pages m' hpages, ?_, hkernel, ?_⟩,
    m.e820_eq m' hpages hvalid hvalid', m.accept_eq m' hpages hvalid hvalid'⟩
  · rw [← m.setup_eq_setupArea, ← m'.setup_eq_setupArea, m.setup_eq m' hpages]
  · intro hram a
    exact m.inAperture_congr m' hpages hvalid hvalid' hstraight hstraight' (hmemory hram) a

section

variable {crate : Crate} {hashes : Hashes} {view : VmsaView} {p384 : P384}

theorem TdxBuild.sameConfiguration (b b' : TdxBuild crate hashes blob)
    (hpages : b.out.pages = b'.out.pages) : SameConfiguration b.toGuest b'.toGuest ∧
      b.out.e820 = b'.out.e820 ∧ b.out.accept = b'.out.accept := by
  obtain ⟨run, hrun⟩ := tdx_build_eq_ok.mp b.build_ok
  obtain ⟨run', hrun'⟩ := tdx_build_eq_ok.mp b'.build_ok
  rw [← hrun, ← hrun', run.built_pages, run'.built_pages] at hpages
  rw [← hrun, ← hrun', run.built_e820, run'.built_e820, run.built_accept, run'.built_accept]
  exact Pipeline.sameConfiguration (by decide) b.params_ok b'.params_ok run.toMapped run'.toMapped
    hpages

theorem SnpBuild.sameConfiguration (b b' : SnpBuild crate hashes view p384 blob)
    (hpages : b.out.pages = b'.out.pages) : SameConfiguration b.toGuest b'.toGuest ∧
      b.out.e820 = b'.out.e820 ∧ b.out.accept = b'.out.accept ∧ b.cbit = b'.cbit := by
  obtain ⟨run, hrun⟩ := snp_build_eq_ok.mp b.build_ok
  obtain ⟨run', hrun'⟩ := snp_build_eq_ok.mp b'.build_ok
  rw [← hrun, ← hrun', run.built_pages, run'.built_pages] at hpages
  have hpages' : run.pages = run'.pages := by
    rw [← run.map_launchPages, ← run'.map_launchPages, hpages]
  rw [← hrun, ← hrun', run.built_e820, run'.built_e820, run.built_accept, run'.built_accept]
  obtain ⟨hsame, he820, haccept⟩ := Pipeline.sameConfiguration le_rfl b.params_ok b'.params_ok
    run.toMapped run'.toMapped hpages'
  have hcbit := run.cbit_eq run'.toMapped hpages' (Params.valid_of_snp b.params_ok)
    (Params.valid_of_snp b'.params_ok)
  rw [(Params.new_eq_ok.mp b.params_ok).eq, (Params.new_eq_ok.mp b'.params_ok).eq] at hcbit
  exact ⟨hsame, he820, haccept, UInt8.toNat_inj.mp hcbit⟩

end

/-- Two images with the same pages are for one guest, and carry one E820 map and one accept
    list; on SNP the C-bit is the same too. -/
theorem pages_bind (crate : Crate) (hashes : Hashes) (view : VmsaView) (p384 : P384)
    (blob : ShimBlob) :
    (∀ b b' : TdxBuild crate hashes blob, b.out.pages = b'.out.pages →
      SameConfiguration b.toGuest b'.toGuest ∧ b.out.e820 = b'.out.e820 ∧
        b.out.accept = b'.out.accept) ∧
    ∀ b b' : SnpBuild crate hashes view p384 blob, b.out.pages = b'.out.pages →
      SameConfiguration b.toGuest b'.toGuest ∧ b.out.e820 = b'.out.e820 ∧
        b.out.accept = b'.out.accept ∧ b.cbit = b'.cbit :=
  ⟨TdxBuild.sameConfiguration, SnpBuild.sameConfiguration⟩

namespace Sample

/-- Two TDX builds with one image: an aperture given in one piece and in two. -/
theorem exists_tdx_builds : ∃ crate, ∃ b b' : TdxBuild crate Sample.hashes Sample.blob,
    b.holes ≠ b'.holes ∧ b.out.pages = b'.out.pages ∧
      b.out.manifest.expectedMrtd = b'.out.manifest.expectedMrtd := by
  have hne : whole ≠ halves := by decide
  obtain ⟨m⟩ := nonempty_mapped_whole .tdx
  obtain ⟨out, hout⟩ := exists_tdx_build m
  obtain ⟨run, rfl⟩ := tdx_build_eq_ok.mp hout
  obtain ⟨run', hpages, -, hmanifest⟩ := run.respelled Sample.hashes sameGuest straight_whole
    straight_halves (validates_halves .tdx)
  let b : TdxBuild _ Sample.hashes Sample.blob :=
    ⟨⟨0x40000000, 1, [], whole, Sample.kernelFile, [1], _, not_wraps_whole⟩, none,
      run.built Sample.hashes, tdx_whole_eq_ok, hout⟩
  let b' : TdxBuild _ Sample.hashes Sample.blob :=
    ⟨⟨0x40000000, 1, [], halves, Sample.kernelFile, [1], _, not_wraps_halves⟩, none,
      run'.built Sample.hashes, tdx_halves_eq_ok, tdx_build_eq_ok.mpr ⟨run', rfl⟩⟩
  refine ⟨_, b, b', hne, ?_, ?_⟩
  · change (run.built Sample.hashes).pages = (run'.built Sample.hashes).pages
    rw [run.built_pages, run'.built_pages, hpages]
  · exact (congrArg Image.Manifest.expectedMrtd hmanifest).symm

/-- Two SNP builds with one image. -/
theorem exists_snp_builds :
    ∃ crate, ∃ b b' : SnpBuild crate Sample.hashes Sample.view Sample.p384 Sample.blob,
      b.holes ≠ b'.holes ∧ b.out.pages = b'.out.pages := by
  have hne : whole ≠ halves := by decide
  obtain ⟨m⟩ := nonempty_mapped_whole .snp
  obtain ⟨out, hout⟩ := exists_snp_build m
  obtain ⟨run, rfl⟩ := snp_build_eq_ok.mp hout
  obtain ⟨run', hpages, -, -, -, -⟩ := run.respelled sameGuest straight_whole straight_halves
    (validates_halves .snp)
  let b : SnpBuild _ Sample.hashes Sample.view Sample.p384 Sample.blob :=
    ⟨⟨0x40000000, 1, [], whole, Sample.kernelFile, [1], _, not_wraps_whole⟩, 51, none, none, 0,
      run.built, snp_whole_eq_ok, hout⟩
  let b' : SnpBuild _ Sample.hashes Sample.view Sample.p384 Sample.blob :=
    ⟨⟨0x40000000, 1, [], halves, Sample.kernelFile, [1], _, not_wraps_halves⟩, 51, none, none, 0,
      run'.built, snp_halves_eq_ok, snp_build_eq_ok.mpr ⟨run', rfl⟩⟩
  refine ⟨_, b, b', hne, ?_⟩
  change run.built.pages = run'.built.pages
  rw [run.built_pages, run'.built_pages, hpages]

end Sample

theorem pages_bind_sample :
    (∃ crate, ∃ b b' : TdxBuild crate Sample.hashes Sample.blob, b.holes ≠ b'.holes ∧
      SameConfiguration b.toGuest b'.toGuest ∧ b.out.accept = b'.out.accept) ∧
    ∃ crate, ∃ b b' : SnpBuild crate Sample.hashes Sample.view Sample.p384 Sample.blob,
      b.holes ≠ b'.holes ∧ SameConfiguration b.toGuest b'.toGuest ∧ b.cbit = b'.cbit := by
  constructor
  · obtain ⟨crate, b, b', hne, hpages, -⟩ := Sample.exists_tdx_builds
    have hbind := (pages_bind _ _ Sample.view Sample.p384 _).1 b b' hpages
    exact ⟨crate, b, b', hne, hbind.1, hbind.2.2⟩
  · obtain ⟨crate, b, b', hne, hpages⟩ := Sample.exists_snp_builds
    have hbind := (pages_bind _ _ _ _ _).2 b b' hpages
    exact ⟨crate, b, b', hne, hbind.1, hbind.2.2.2⟩

end BootShim.Pipeline
