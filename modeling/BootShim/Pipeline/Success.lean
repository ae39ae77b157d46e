-- SUMMARY: Builds that succeed: what the checks of a builder leave to the inputs once the map is valid.
import BootShim.Pipeline.Inversion

/-!
# Builds that succeed

A map whose regions are apart passes validation, and a small one also fits the E820
table, the shim's data block and the bound on the shim's own pages. What is left to a
build is then up to the configuration hash, the key and the IGVM library.
-/

namespace BootShim.Pipeline

open Boot Bytes Checked Igvm Image Layout Snp

/-! ## The shim's own bytes -/

/-- What the pages a builder authors come to, the same for every guest. -/
def ownedBytes : Platform → Nat
  | .tdx => 23 * page
  | .snp => 27 * page

section

variable {pf : Platform} {blob : ShimBlob} {kernelFile initramfs : List UInt8} {params : Params}

/-- Whether an interval belongs to a region of the shim's own. -/
private def isOwned (t : Tile Nat Nat) : Bool := t.lo < kernelSetupBase || t.lo = resetAlias

private theorem isShimOwned_eq (q : Placed) : isShimOwned q = (isOwned q.tile && !q.isMmio) := by
  obtain ⟨base, name, k, fill⟩ := q
  cases fill <;> rfl

private theorem sum_owned_footprint (kernelEnd initramfsEnd : Nat) :
    (((pf.footprint kernelEnd initramfsEnd).filter isOwned).map fun t => t.hi - t.lo).sum =
      ownedBytes pf := by
  cases pf <;> simp [Platform.footprint, isOwned, ownedBytes]

theorem Mapped.shimOwned_map (m : Mapped pf blob kernelFile initramfs params) :
    shimOwned m.map = .ok (ownedBytes pf) := by
  have howned : ((m.map.filter isShimOwned).map Placed.span).sum = ownedBytes pf := by
    have hregions : (m.regions.filter isShimOwned).map Placed.span =
        ((m.regions.map Placed.tile).filter isOwned).map fun t => t.hi - t.lo := by
      rw [List.filter_map, List.map_map]
      have hfilter : m.regions.filter isShimOwned = m.regions.filter (isOwned ∘ Placed.tile) := by
        refine List.filter_congr fun q hq => ?_
        rw [isShimOwned_eq, isMmio_of_mem_regions hq, Bool.not_false, Bool.and_true]
        rfl
      rw [hfilter]
      exact List.map_congr_left fun q hq => (m.fits (List.mem_of_mem_filter hq)).span_eq
    have hholes : (apertures params).filter isShimOwned = [] := by
      refine List.filter_eq_nil_iff.mpr fun q hq => ?_
      rw [isShimOwned_eq, isMmio_of_mem_apertures hq, Bool.not_true, Bool.and_false]
      exact Bool.false_ne_true
    have hmap : m.map = m.regions ++ apertures params := rfl
    rw [hmap, List.filter_append, hholes, List.append_nil, hregions, Mapped.regions,
      map_tile_regions m.sized m.length_zero m.length_shim, sum_owned_footprint]
  have hle : ownedBytes pf ≤ shimLimit := by
    cases pf <;> decide
  simp only [shimOwned, howned, ensure_of hle, ok_bind]
  rfl

/-! ## Maps that are valid -/

/-- Apertures whose intervals are apart from each other and from the image's pass
    validation. -/
theorem validate_blank_of_apart {p : Prepared} (hsized : Sized p params.memory)
    (hmem : initramfsBase < params.memory) (hstraight : Straight params)
    (halign : ∀ h ∈ params.mmio, h.1 % page = 0 ∧ h.1 < params.memory)
    (hapart : params.mmio.Pairwise fun g h => g.1 + g.2 ≤ h.1 ∨ h.1 + h.2 ≤ g.1)
    (hfoot : ∀ h ∈ params.mmio, ∀ t ∈ pf.footprint (kernelEnd p.kernel) (initramfsEnd p.initramfs),
      t.hi ≤ h.1 ∨ h.1 + h.2 ≤ t.lo) :
    validate (pf.blank p params) params.memory = .ok () := by
  have hzeros := length_zeros page
  have hmemFoot : ∀ q ∈ pf.regions p params (zeros page) (zeros page),
      q.tile ∈ pf.footprint (kernelEnd p.kernel) (initramfsEnd p.initramfs) := by
    intro q hq
    rw [← map_tile_regions hsized hzeros hzeros]
    exact List.mem_map_of_mem hq
  have htile : ∀ h ∈ params.mmio, (Placed.mmio h.1 h.2).tile = ⟨h.1, h.1 + h.2, absent⟩ := by
    intro h hh
    have hsum : h.1 + h.2 < 2 ^ 64 := Nat.lt_of_not_le (hstraight h hh).2
    simp only [Placed.tile, Placed.mmio, Placed.span, addU64_of_lt hsum]
  refine validate_of_apart (upright_map hsized hzeros hzeros hstraight) ?_ fun q hq => ?_
  · refine List.pairwise_append.mpr ⟨?_, ?_, ?_⟩
    · exact (pairwise_regions hsized hzeros hzeros).imp Or.inl
    · refine List.pairwise_map.mpr (hapart.imp_of_mem fun {g h} hg hh happ => ?_)
      rw [htile g hg, htile h hh]
      exact happ
    · intro q hq r hr
      obtain ⟨h, hh, rfl⟩ := mem_apertures.mp hr
      rw [htile h hh]
      exact hfoot h hh _ (hmemFoot q hq)
  · rcases List.mem_append.mp hq with hq | hq
    · refine ⟨(fits_regions hsized hzeros hzeros hq).aligned, ?_⟩
      rcases footprint_le hsized.kernel_end (initramfsBase_lt_initramfsEnd _) _ (hmemFoot q hq) with
        hle | ⟨-, htop⟩
      · exact Or.inl (hle.1.trans_lt hmem)
      · exact Or.inr (congrArg Tile.lo htop)
    · obtain ⟨h, hh, rfl⟩ := mem_apertures.mp hq
      exact ⟨(halign h hh).1, Or.inl (halign h hh).2⟩

/-- A prepared guest with a valid map of a bearable size is mapped. -/
theorem Mapped.nonempty {p : Prepared} (hp : prepare kernelFile initramfs params = .ok p)
    (hvalid : validate (pf.blank p params) params.memory = .ok ())
    (hholes : params.mmio.length ≤ 40) (hblob : ∀ b ∈ slice blob.bytes shimData shimDataSize, b = 0) :
    Nonempty (Mapped pf blob kernelFile initramfs params) := by
  have hlen : (pf.blank p params).length ≤ 53 := by
    have hregions : (pf.regions p params (zeros page) (zeros page)).length ≤ 13 := by
      cases pf <;> exact Nat.le_of_ble_eq_true rfl
    rw [Platform.blank, Platform.map, List.length_append, apertures, List.length_map]
    omega
  have he820 := length_e820_le (pf.blank p params) params.memory
  have haccept := length_acceptRanges_le (pf.blank p params) params.memory
  obtain ⟨zero, hzero⟩ : ∃ zero, Boot.zeroPage p.setup p.info p.initramfs.length acpiBase
      (Boot.e820 (pf.blank p params) params.memory) pf.setupData = .ok zero :=
    ⟨_, zeroPage_eq_ok.mpr ⟨by simp only [e820Max]; omega, rfl⟩⟩
  obtain ⟨pg, hpg⟩ : ∃ pg, Image.shim blob.bytes p.entry
      (acceptRanges (pf.blank p params) params.memory) = .ok pg := by
    have hfit : (shimDataBlock p.entry (acceptRanges (pf.blank p params) params.memory)).length ≤
        shimDataSize := by
      rw [length_shimDataBlock]
      simp only [shimDataSize, resetVector, shimData, page]
      omega
    refine ⟨_, shim_eq_ok.mpr ⟨hfit, fun b hb => hblob b ?_, rfl⟩⟩
    exact (List.take_subset_take_left _ hfit) hb
  exact ⟨⟨p, zero, pg, hp, hvalid, hzero, hpg⟩⟩

/-! ## Builds over a mapped image -/

/-- Every page of a mapped image is a whole page. -/
theorem Mapped.length_of_mem_pages (m : Mapped pf blob kernelFile initramfs params)
    {x : Nat × List UInt8} (hx : x ∈ m.pages) : x.2.length = page := by
  obtain ⟨q, -, hq⟩ := List.mem_flatMap.mp hx
  obtain ⟨base, name, k, fill⟩ := q
  cases fill with
  | measured d =>
    obtain ⟨i, -, rfl⟩ := mem_pages.mp hq
    exact length_padTo (by simp)
  | host =>
    obtain rfl := List.mem_singleton.mp hq
    exact length_zeros page
  | mmio size => exact absurd hq List.not_mem_nil

theorem mapM_measuredPage {pages : List (Nat × List UInt8)} (h : ∀ x ∈ pages, x.2.length = page) :
    (Image.igvmFile pages).directives.mapM measuredPage = .ok pages := by
  have hmap : ∀ xs : List (Nat × List UInt8), (∀ x ∈ xs, x.2.length = page) →
      (xs.map fun x => pageDirective x.1 .normal x.2).mapM measuredPage = .ok xs := by
    intro xs
    induction xs with
    | nil => intro _; rfl
    | cons x xs ih =>
      intro hxs
      rw [List.forall_mem_cons] at hxs
      have hx : measuredPage (pageDirective x.1 .normal x.2) = .ok x := by
        simp [measuredPage, pageDirective, hxs.1]
      rw [List.map_cons, List.mapM_cons, hx, ih hxs.2]
      rfl
  exact hmap pages h

/-- A mapped TDX image is built by any library that writes it and reads it back. -/
theorem exists_tdx_build {crate : Crate} (hashes : Hashes)
    (m : Mapped .tdx blob kernelFile initramfs params) {file : List UInt8}
    (hnew : crate.new (Image.igvmFile m.pages) = .ok ())
    (hser : crate.serialize (Image.igvmFile m.pages) = .ok file)
    (hread : crate.newFromBinary file = .ok (Image.igvmFile m.pages)) :
    ∃ out, Image.build crate hashes blob kernelFile initramfs params none = .ok out := by
  have hfile : igvm crate m.pages = .ok file := by
    rw [igvm, hnew, hser]
    rfl
  have hback : igvmPages crate file = .ok m.pages := by
    rw [igvmPages, hread]
    exact mapM_measuredPage fun _ => m.length_of_mem_pages
  let run : TdxRun crate blob kernelFile initramfs params none :=
    ⟨m, zeroDigits 48, ownedBytes .tdx, file, rfl, m.shimOwned_map, hfile, hback⟩
  exact ⟨run.built hashes, tdx_build_eq_ok.mpr ⟨run, rfl⟩⟩

/-- A mapped SNP image is built by any library that writes it, signed or not. -/
theorem exists_snp_build {crate : Crate} {hashes : Hashes} {view : VmsaView} {p384 : P384}
    (m : Mapped .snp blob kernelFile initramfs params) {idKey : Option (List Char)}
    {guestSvn : UInt32} {signed : Option IdBlock} {file : List UInt8} {contents : File}
    (hsvn : ¬ (guestSvn.toNat ≠ 0 ∧ idKey = none))
    (hsign : signBlock hashes p384 idKey (m.measurement hashes view) guestSvn.toNat = .ok signed)
    (hnew : crate.new (Snp.igvmFile (m.directives signed)) = .ok ())
    (hser : crate.serialize (Snp.igvmFile (m.directives signed)) = .ok file)
    (hread : crate.newFromBinary file = .ok contents) :
    ∃ out, Snp.build crate hashes view p384 blob kernelFile initramfs params none idKey guestSvn =
      .ok out := by
  have hfile : serialize crate (Snp.igvmFile (m.directives signed)) = .ok file := by
    rw [serialize, hnew, hser]
    simp only [Except.mapError, ok_bind, hread]
    rfl
  let run : SnpRun crate hashes view p384 blob kernelFile initramfs params none idKey guestSvn :=
    ⟨m, zeroDigits 32, ownedBytes .snp, signed, file, hsvn, rfl, m.shimOwned_map, hsign, hfile⟩
  exact ⟨run.built, snp_build_eq_ok.mpr ⟨run, rfl⟩⟩

end

/-! ## A small guest

A kernel of one payload sector past its setup sectors, a shim of zeros and a 1-GiB guest:
inputs small enough to evaluate every check on. -/

namespace Sample

/-- A 2-KiB bzImage with one setup sector. -/
def kernelFile : List UInt8 :=
  let v := (zeros 2048).set hdrSetupSects 1
  let v := putLE 2 v hdrBootFlag 0xaa55
  let v := write v hdrSignature [0x48, 0x64, 0x72, 0x53]
  let v := putLE 2 v hdrVersion 0x020c
  let v := v.set hdrLoadflags 1
  let v := putLE 4 v hdrKernelAlignment 0x200000
  let v := v.set hdrRelocatable 1
  let v := v.set hdrXloadflags 1
  let v := putLE 4 v hdrCmdlineSize 2048
  putLE 4 v hdrInitSize 0x100000

def blob : ShimBlob := ⟨zeros page, length_zeros page⟩

def hashes : Hashes where
  sha256 m := padTo 32 (m.take 32)
  sha384 m := padTo 48 (m.take 48)
  length_sha384 m := length_padTo (by simp)

def view : VmsaView where
  asBytes v := toLE 8 v.rip ++ toLE 8 v.rsp
  length_asBytes_le v := by simp

def p384 : P384 where
  fromPkcs8Pem _ := .ok {
    sign := fun m => (m.take 48, m.take 48)
    pointX := some (zeros 48)
    pointY := some (zeros 48) }

/-- A library that writes one file and reads it back. -/
def crate (contents : File) : Crate where
  new _ := .ok ()
  serialize _ := .ok [0]
  newFromBinary _ := .ok contents

/-- The parameters of a 1-GiB guest. -/
def params (vcpus cbit : Nat) (mmio : List (Nat × Nat)) : Params where
  memory := 0x40000000
  vcpus := vcpus
  cmdline := "panic=-1 no5lvl".toList
  cbit := cbit
  mmio := mmio

theorem length_cmdline : ("panic=-1 no5lvl".toList.length % 2 ^ 32 + 1) % 2 ^ 32 ≤ 2048 := by
  decide

theorem parse_kernelFile : parseBzimage kernelFile = .ok ⟨1024, 0x100000, 2048⟩ := by
  decide +kernel

/-- A kernel of the same length is prepared for any guest of this memory or more. -/
theorem prepare_eq_ok {image initramfs : List UInt8} {ps : Params} {cmdlineMax : Nat}
    (hparse : parseBzimage image = .ok ⟨1024, 0x100000, cmdlineMax⟩) (hlen : image.length = 2048)
    (hinit : initramfs.length ≤ page) (hmem : 0x40000000 ≤ ps.memory)
    (hcmd : (ps.cmdline.length % 2 ^ 32 + 1) % 2 ^ 32 ≤ cmdlineMax) :
    prepare image initramfs ps =
      .ok (prepared image initramfs ps ⟨1024, 0x100000, cmdlineMax⟩) := by
  have hdrop : (image.drop 1024).length = 1024 := by rw [List.length_drop, hlen]
  have hinitSize : kernelBase + 0x100000 ≤ initramfsBase := by decide
  have hsetup : 1024 ≤ kernelSetupAreaSize := by decide
  refine Image.prepare_eq_ok.mpr ⟨_, hparse, ⟨?_, hinitSize, ?_, ?_, hsetup, hcmd⟩, rfl⟩
  · rw [hdrop]
    decide
  all_goals
    rw [alignUp_add_page (by decide)]
    simp only [alignUp, initramfsBase, page] at *
    omega

/-- A guest of a gibibyte or more is mapped with any apertures that lie apart from its regions
    and from each other. -/
theorem nonempty_mapped_of_le (pf : Platform) {initramfs : List UInt8} {ps : Params}
    (hinit : initramfs.length ≤ page) (hcmd : ps.cmdline = "panic=-1 no5lvl".toList)
    (hmem : 0x40000000 ≤ ps.memory ∧ ps.memory < 2 ^ 64)
    (hmmio : ∀ h ∈ ps.mmio, h.1 % page = 0 ∧ 0 < h.2 ∧ h.1 + h.2 ≤ ps.memory)
    (hfoot : ∀ h ∈ ps.mmio, ∀ t ∈ pf.footprint 0x1001000 (initramfsBase + page),
      t.hi ≤ h.1 ∨ h.1 + h.2 ≤ t.lo)
    (hapart : ps.mmio.Pairwise fun g h => g.1 + g.2 ≤ h.1 ∨ h.1 + h.2 ≤ g.1)
    (hlen : ps.mmio.length ≤ 40) : Nonempty (Mapped pf blob kernelFile initramfs ps) := by
  have hend : alignUp initramfs.length page ≤ page := by
    simp only [alignUp, page] at *
    omega
  have hbase : initramfsBase < ps.memory :=
    Nat.lt_of_lt_of_le (show initramfsBase < 0x40000000 by decide) hmem.1
  have hp : prepare kernelFile initramfs ps = .ok _ :=
    prepare_eq_ok parse_kernelFile (by decide +kernel) hinit hmem.1 (hcmd ▸ length_cmdline)
  have hkernelEnd : kernelEnd (kernelFile.drop 1024) = 0x1001000 := by decide +kernel
  have hinitEnd : initramfsEnd initramfs = initramfsBase + page := by
    rw [initramfsEnd, max_eq_right hend]
  refine Mapped.nonempty hp (validate_blank_of_apart (sized_of_prepare hp) hbase ?_ ?_ hapart ?_)
    hlen ?_
  · intro h hh
    obtain ⟨-, hpos, hle⟩ := hmmio h hh
    exact ⟨hpos, fun hw => absurd hw (by simp only [Params.Wraps]; omega)⟩
  · intro h hh
    obtain ⟨halign, hpos, hle⟩ := hmmio h hh
    exact ⟨halign, by omega⟩
  · simp only [prepared, hkernelEnd, hinitEnd]
    exact hfoot
  · intro b hb
    have hzero : b ∈ zeros page := List.mem_of_mem_drop (List.mem_of_mem_take hb)
    exact List.eq_of_mem_replicate hzero

/-- The small guest is mapped with any apertures that lie apart from its regions and from
    each other. -/
theorem nonempty_mapped_of_apart (pf : Platform) {initramfs : List UInt8} (vcpus cbit : Nat)
    {mmio : List (Nat × Nat)} (hinit : initramfs.length ≤ page)
    (hmmio : ∀ h ∈ mmio, h.1 % page = 0 ∧ 0 < h.2 ∧ h.1 + h.2 ≤ 0x40000000)
    (hfoot : ∀ h ∈ mmio, ∀ t ∈ pf.footprint 0x1001000 (initramfsBase + page),
      t.hi ≤ h.1 ∨ h.1 + h.2 ≤ t.lo)
    (hapart : mmio.Pairwise fun g h => g.1 + g.2 ≤ h.1 ∨ h.1 + h.2 ≤ g.1)
    (hlen : mmio.length ≤ 40) :
    Nonempty (Mapped pf blob kernelFile initramfs (params vcpus cbit mmio)) :=
  nonempty_mapped_of_le pf hinit rfl ⟨le_rfl, (by decide : 0x40000000 < 2 ^ 64)⟩ hmmio hfoot hapart
    hlen

/-- It is mapped with any apertures that lie apart above its initramfs. -/
theorem nonempty_mapped (pf : Platform) {initramfs : List UInt8} (vcpus cbit : Nat)
    {mmio : List (Nat × Nat)} (hinit : initramfs.length ≤ page)
    (hmmio : ∀ h ∈ mmio, h.1 % page = 0 ∧ 0 < h.2 ∧ initramfsBase + page ≤ h.1 ∧
      h.1 + h.2 ≤ 0x40000000)
    (hapart : mmio.Pairwise fun g h => g.1 + g.2 ≤ h.1 ∨ h.1 + h.2 ≤ g.1)
    (hlen : mmio.length ≤ 40) :
    Nonempty (Mapped pf blob kernelFile initramfs (params vcpus cbit mmio)) := by
  refine nonempty_mapped_of_apart pf vcpus cbit hinit (fun h hh => ?_) (fun h hh t ht => ?_) hapart
    hlen
  · obtain ⟨halign, hpos, -, hle⟩ := hmmio h hh
    exact ⟨halign, hpos, hle⟩
  · obtain ⟨-, -, hge, hle⟩ := hmmio h hh
    rcases footprint_le (by decide) (by decide) t ht with hlow | ⟨-, rfl⟩
    · exact Or.inl (hlow.2.trans hge)
    · exact Or.inr (hle.trans (by decide))

theorem tdx_eq_ok : Params.tdx 0x40000000 1 [] [] = .ok (params 1 51 []) := by
  decide +kernel

theorem snp_eq_ok : Params.snp 0x40000000 1 51 [] [] = .ok (params 1 51 []) := by
  decide +kernel

theorem exists_tdx_build {initramfs : List UInt8} {ps : Params}
    (m : Mapped .tdx blob kernelFile initramfs ps) :
    ∃ out, Image.build (crate (Image.igvmFile m.pages)) hashes blob kernelFile initramfs ps none =
      .ok out :=
  Pipeline.exists_tdx_build hashes m rfl rfl rfl

theorem exists_snp_build {initramfs : List UInt8} {ps : Params}
    (m : Mapped .snp blob kernelFile initramfs ps) :
    ∃ out, Snp.build (crate (Snp.igvmFile (m.directives none))) hashes view p384 blob kernelFile
      initramfs ps none none 0 = .ok out :=
  Pipeline.exists_snp_build m (by decide) rfl rfl rfl rfl

/-! ### A large guest

16 GiB, of which 14 lie above the PCI aperture: more than a 32-bit length can state. -/

/-- One page of hole in the RAM below the PCI aperture and one in the RAM above it. -/
def splitHoles : List (UInt64 × UInt64) := [(0x30000000, 0x1000), (0x140000000, 0x1000)]

theorem splitHoles_lt : ∀ g ∈ splitHoles, g.1.toNat + g.2.toNat < 2 ^ 64 := by
  simp [splitHoles]

/-- The parameters of a 16-GiB guest whose PCI aperture ends at `holeEnd`. -/
def splitParams (holeEnd : Nat) : Params where
  memory := 0x480000000
  vcpus := 1
  cmdline := "panic=-1 no5lvl".toList
  cbit := 51
  mmio := [(0x80000000, holeEnd - 0x80000000), (0x30000000, 0x1000), (0x140000000, 0x1000)]

theorem tdx_split_eq_ok :
    Params.tdx 0x400000000 1 [] splitHoles = .ok (splitParams resetAlias) := by
  decide +kernel

theorem snp_split_eq_ok :
    Params.snp 0x400000000 1 51 [] splitHoles = .ok (splitParams fourGib) := by
  decide +kernel

theorem nonempty_mapped_split :
    Nonempty (Mapped .tdx blob kernelFile [1] (splitParams resetAlias)) ∧
      Nonempty (Mapped .snp blob kernelFile [1] (splitParams fourGib)) :=
  ⟨nonempty_mapped_of_le .tdx (by decide) rfl (by decide) (by decide) (by decide +kernel)
      (by decide) (by decide),
    nonempty_mapped_of_le .snp (by decide) rfl (by decide) (by decide) (by decide +kernel)
      (by decide) (by decide)⟩

end Sample

end BootShim.Pipeline
