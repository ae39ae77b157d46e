-- SUMMARY: An image depends on its apertures only as a set of addresses, not on how they are cut or in which order they are given.
import BootShim.Pipeline.Apertures
import BootShim.Pipeline.Described
import BootShim.Pipeline.Loaded

/-!
# Apertures as a set

Two lists of apertures may cover the same addresses in different pieces and orders. As
long as both are valid, E820 and the accept list come out the same, and with them
everything else a build writes but the manifest's text of the apertures.
-/

namespace BootShim.Pipeline

open Boot Bytes Igvm Image Layout Snp

/-! ## Guests with the same apertures -/

/-- Two guests that differ only in how their apertures are written. -/
structure SameGuest (params params' : Params) : Prop where
  memory : params.memory = params'.memory
  vcpus : params.vcpus = params'.vcpus
  cmdline : params.cmdline = params'.cmdline
  cbit : params.cbit = params'.cbit
  holes : ∀ a, InAperture params.mmio a ↔ InAperture params'.mmio a

/-- The map of the prepared inputs passes validation, if the inputs can be prepared. -/
def Validates (pf : Platform) (kernelFile initramfs : List UInt8) (params : Params) : Prop :=
  ∀ p, prepare kernelFile initramfs params = .ok p →
    validate (pf.blank p params) params.memory = .ok ()

variable {crate : Crate} {hashes : Hashes} {view : VmsaView} {p384 : P384} {pf : Platform}
  {blob : ShimBlob} {kernelFile initramfs : List UInt8} {params params' : Params}
  {configHash idKey : Option (List Char)} {guestSvn : UInt32} {p : Prepared}
  {zero shim : List UInt8}

theorem regions_congr (h : SameGuest params params') :
    pf.regions p params' zero shim = pf.regions p params zero shim := by
  cases pf <;> simp only [Platform.regions, h.vcpus, h.cbit]

theorem covers_apertures (hstraight : Straight params) {a k : Nat} :
    Tile.Covers ((apertures params).map Placed.tile) a k ↔
      k = absent ∧ InAperture params.mmio a := by
  have htile : ∀ h ∈ params.mmio, (Placed.mmio h.1 h.2).tile = ⟨h.1, h.1 + h.2, absent⟩ :=
    fun h hh => tile_mmio_of_not_wraps (hstraight h hh).2
  simp only [Tile.Covers, List.mem_map, mem_apertures]
  constructor
  · rintro ⟨_, ⟨_, ⟨h, hh, rfl⟩, rfl⟩, hmem, rfl⟩
    rw [htile h hh] at hmem
    exact ⟨rfl, h, hh, hmem⟩
  · rintro ⟨rfl, h, hh, hmem⟩
    refine ⟨_, ⟨_, ⟨h, hh, rfl⟩, rfl⟩, ?_, rfl⟩
    rw [htile h hh]
    exact hmem

/-- The two maps cover the same addresses under each type. -/
theorem covers_map_congr (h : SameGuest params params') (hstraight : Straight params)
    (hstraight' : Straight params') (a k : Nat) :
    Tile.Covers ((pf.map p params zero shim).map Placed.tile) a k ↔
      Tile.Covers ((pf.map p params' zero shim).map Placed.tile) a k := by
  rw [Platform.map, Platform.map, List.map_append, List.map_append, Tile.covers_append,
    Tile.covers_append, regions_congr h, covers_apertures hstraight, covers_apertures hstraight',
    h.holes]

/-! ## The same image -/

namespace Mapped

variable (m : Mapped pf blob kernelFile initramfs params) (h : SameGuest params params')
  (hstraight : Straight params) (hstraight' : Straight params')

include h hstraight hstraight'

theorem e820_blank_congr (hvalid : validate (pf.blank m.p params') params'.memory = .ok ()) :
    Boot.e820 (pf.blank m.p params') params'.memory =
      Boot.e820 (pf.blank m.p params) params.memory := by
  have hsized' : Sized m.p params'.memory := h.memory ▸ m.sized
  have hzeros := length_zeros page
  rw [← h.memory] at hvalid ⊢
  exact e820_congr (upright_map hsized' hzeros hzeros hstraight') hvalid
    (upright_map m.sized hzeros hzeros hstraight) m.validate_ok
    fun a k => (covers_map_congr h hstraight hstraight' a k).symm

theorem acceptRanges_blank_congr :
    acceptRanges (pf.blank m.p params') params'.memory =
      acceptRanges (pf.blank m.p params) params.memory := by
  have hsized' : Sized m.p params'.memory := h.memory ▸ m.sized
  have hzeros := length_zeros page
  rw [← h.memory]
  refine acceptRanges_congr (upright_map hsized' hzeros hzeros hstraight')
    (upright_map m.sized hzeros hzeros hstraight) fun a => ?_
  rw [taken_iff, taken_iff]
  exact exists_congr fun k => (covers_map_congr h hstraight hstraight' a k).symm

/-- The other guest is mapped with the same contents. -/
theorem exists_respelled (hvalid : Validates pf kernelFile initramfs params') :
    ∃ m' : Mapped pf blob kernelFile initramfs params',
      m'.p = m.p ∧ m'.zero = m.zero ∧ m'.shim = m.shim := by
  have hprepare : prepare kernelFile initramfs params' = .ok m.p :=
    prepare_congr h.memory h.cmdline ▸ m.prepare_ok
  have hvalid' := hvalid m.p hprepare
  refine ⟨⟨m.p, m.zero, m.shim, hprepare, hvalid', ?_, ?_⟩, rfl, rfl, rfl⟩
  · rw [m.e820_blank_congr h hstraight hstraight' hvalid']
    exact m.zero_ok
  · rw [m.acceptRanges_blank_congr h hstraight hstraight']
    exact m.shim_ok

omit hstraight hstraight' in
/-- With the same contents, the regions are the same. -/
theorem regions_respelled {m' : Mapped pf blob kernelFile initramfs params'} (hp : m'.p = m.p)
    (hzero : m'.zero = m.zero) (hshim : m'.shim = m.shim) : m'.regions = m.regions := by
  rw [Mapped.regions, Mapped.regions, hp, hzero, hshim, regions_congr h]

end Mapped

/-- Apertures have no names, so the components are those of the regions that are loaded. -/
theorem Mapped.components_map (m : Mapped pf blob kernelFile initramfs params) (hashes : Hashes) :
    components hashes (sortByBase m.map) = components hashes m.regions := by
  have hnamed : ∀ q ∈ sortByBase m.map, q.isMmio = true → q.name = "" := by
    intro q hq hmmio
    rcases m.mem_sortByBase_iff.mp hq with hq | hq
    · rw [isMmio_of_mem_regions hq] at hmmio
      exact absurd hmmio Bool.false_ne_true
    · obtain ⟨h, -, rfl⟩ := mem_apertures.mp hq
      rfl
  have hfilter : (sortByBase m.map).filter (fun q => q.name ≠ "") =
      m.regions.filter fun q => q.name ≠ "" := by
    rw [← m.loaded_map, loaded, List.filter_filter]
    refine List.filter_congr fun q hq => ?_
    cases hmmio : q.isMmio with
    | true => simp [hnamed q hq hmmio]
    | false => simp
  rw [components, components, hfilter]

/-! ## Builds -/

/-- Two lists of the operator's that cover the same addresses make the same guest. -/
theorem sameGuest_of_admitted {ram vcpus cbit holeEnd : Nat} {cmdline : List Char}
    {holes holes' : List (Nat × Nat)}
    (h : Params.Admitted ram vcpus cmdline cbit holes holeEnd params)
    (h' : Params.Admitted ram vcpus cmdline cbit holes' holeEnd params')
    (hcover : ∀ a, InAperture holes a ↔ InAperture holes' a) : SameGuest params params' := by
  obtain rfl := h.eq
  obtain rfl := h'.eq
  refine ⟨rfl, rfl, rfl, rfl, fun a => ?_⟩
  have hsplit : ∀ gs hs : List (Nat × Nat),
      InAperture (gs ++ hs) a ↔ InAperture gs a ∨ InAperture hs a := by
    intro gs hs
    simp only [InAperture, List.mem_append, or_and_right, exists_or]
  rw [hsplit, hsplit, hcover]

/-- A TDX build of the same guest differs in the manifest's text of the apertures. -/
theorem TdxRun.respelled (run : TdxRun crate blob kernelFile initramfs params configHash)
    (hashes : Hashes) (h : SameGuest params params') (hstraight : Straight params)
    (hstraight' : Straight params') (hvalid : Validates .tdx kernelFile initramfs params') :
    ∃ run' : TdxRun crate blob kernelFile initramfs params' configHash,
      run'.pages = run.pages ∧ run'.file = run.file ∧
        (run'.built hashes).manifest =
          { (run.built hashes).manifest with mmioHoles := mmioHoles params' } := by
  obtain ⟨m', hp, hzero, hshim⟩ := run.exists_respelled h hstraight hstraight' hvalid
  have hregions : m'.regions = run.regions := run.regions_respelled h hp hzero hshim
  have hpages : m'.pages = run.pages := by rw [Mapped.pages, hregions, Mapped.pages]
  have howned : run.owned = ownedBytes .tdx :=
    Except.ok.inj (run.owned_ok.symm.trans run.shimOwned_map)
  let run' : TdxRun crate blob kernelFile initramfs params' configHash :=
    { toMapped := m'
      mrconfigid := run.mrconfigid
      owned := run.owned
      file := run.file
      config_ok := run.config_ok
      owned_ok := howned ▸ m'.shimOwned_map
      igvm_ok := hpages ▸ run.igvm_ok
      read_ok := hpages ▸ run.read_ok }
  refine ⟨run', hpages, rfl, ?_⟩
  have hcomponents : components hashes (sortByBase m'.map) =
      components hashes (sortByBase run.map) := by
    rw [m'.components_map, run.components_map, hregions]
  simp only [TdxRun.built, run', hpages, hcomponents, hp, ← h.memory, ← h.vcpus, ← h.cmdline]

/-- An SNP build of the same guest differs in the manifest's text of the apertures. -/
theorem SnpRun.respelled
    (run : SnpRun crate hashes view p384 blob kernelFile initramfs params configHash idKey guestSvn)
    (h : SameGuest params params') (hstraight : Straight params) (hstraight' : Straight params')
    (hvalid : Validates .snp kernelFile initramfs params') :
    ∃ run' : SnpRun crate hashes view p384 blob kernelFile initramfs params' configHash idKey
        guestSvn,
      run'.launchPages = run.launchPages ∧ run'.built.contents = run.built.contents ∧
        run'.built.measurement = run.built.measurement ∧ run'.file = run.file ∧
          run'.built.manifest = { run.built.manifest with mmioHoles := mmioHoles params' } := by
  obtain ⟨m', hp, hzero, hshim⟩ := run.exists_respelled h hstraight hstraight' hvalid
  have hregions : m'.regions = run.regions := run.regions_respelled h hp hzero hshim
  have hpages : m'.launchPages = run.launchPages := by
    rw [Mapped.launchPages, hregions, Mapped.launchPages]
  have he820 : m'.e820 = run.e820 := by
    rw [← m'.e820_blank, ← run.e820_blank, ← run.e820_blank_congr h hstraight hstraight' ?_, hp]
    exact hp ▸ m'.validate_ok
  have hmeasure : m'.measurement hashes view = run.measurement hashes view := by
    rw [Mapped.measurement, Mapped.measurement, hpages, h.vcpus]
  have hdirectives : m'.directives run.signed = run.directives run.signed := by
    rw [Mapped.directives, Mapped.directives, he820, hpages, h.vcpus]
  have howned : run.owned = ownedBytes .snp :=
    Except.ok.inj (run.owned_ok.symm.trans run.shimOwned_map)
  have hserialize : serialize crate (Snp.igvmFile (m'.directives run.signed)) = .ok run.file := by
    rw [hdirectives]
    exact run.serialize_ok
  let run' : SnpRun crate hashes view p384 blob kernelFile initramfs params' configHash idKey
      guestSvn :=
    { toMapped := m'
      hostData := run.hostData
      owned := run.owned
      signed := run.signed
      file := run.file
      svn_ok := run.svn_ok
      config_ok := run.config_ok
      owned_ok := howned ▸ m'.shimOwned_map
      sign_ok := hmeasure ▸ run.sign_ok
      serialize_ok := hserialize }
  have hcomponents : components hashes (sortByBase m'.map) =
      components hashes (sortByBase run.map) := by
    rw [m'.components_map, run.components_map, hregions]
  refine ⟨run', hpages, ?_, ?_, rfl, ?_⟩
  · simp only [SnpRun.built, run', hdirectives]
  · simp only [SnpRun.built, run', hmeasure]
  · simp only [SnpRun.built, run', hmeasure, hcomponents, hp, ← h.memory, ← h.vcpus, ← h.cmdline,
      ← h.cbit]

/-- However the operator cuts and orders the apertures, a build writes the same pages and the
    same file, and a manifest that differs in its text of the apertures alone. -/
theorem build_of_same_addresses {holes holes' : List (UInt64 × UInt64)}
    (hcover : ∀ a, InAperture (holes.map Params.holeToNat) a ↔
      InAperture (holes'.map Params.holeToNat) a)
    (hholes : ∀ g ∈ holes ++ holes', ¬ Params.Wraps (Params.holeToNat g))
    (crate : Crate) (hashes : Hashes) (blob : ShimBlob) (kernelFile initramfs : List UInt8)
    (params params' : Params) (configHash : Option (List Char)) :
    (∀ ram vcpus cmdline out, Params.tdx ram vcpus cmdline holes = .ok params →
      Params.tdx ram vcpus cmdline holes' = .ok params' →
      Validates .tdx kernelFile initramfs params' →
      Image.build crate hashes blob kernelFile initramfs params configHash = .ok out →
      ∃ out', Image.build crate hashes blob kernelFile initramfs params' configHash = .ok out' ∧
        out'.pages = out.pages ∧ out'.file = out.file ∧
          out'.manifest = { out.manifest with mmioHoles := mmioHoles params' }) ∧
    ∀ view p384 idKey guestSvn ram vcpus cbit cmdline out,
      Params.snp ram vcpus cbit cmdline holes = .ok params →
      Params.snp ram vcpus cbit cmdline holes' = .ok params' →
      Validates .snp kernelFile initramfs params' →
      Snp.build crate hashes view p384 blob kernelFile initramfs params configHash idKey guestSvn =
        .ok out →
      ∃ out', Snp.build crate hashes view p384 blob kernelFile initramfs params' configHash idKey
          guestSvn = .ok out' ∧
        out'.pages = out.pages ∧ out'.contents = out.contents ∧
          out'.measurement = out.measurement ∧ out'.file = out.file ∧
            out'.manifest = { out.manifest with mmioHoles := mmioHoles params' } := by
  obtain ⟨hleft, hright⟩ := List.forall_mem_append.mp hholes
  constructor
  · intro ram vcpus cmdline out hparams hparams' hvalid hbuild
    obtain ⟨run, rfl⟩ := tdx_build_eq_ok.mp hbuild
    have hadm := Params.new_eq_ok.mp hparams
    have hadm' := Params.new_eq_ok.mp hparams'
    have hstraight : Straight params := straight_of_admitted hadm (by decide) hleft
    have hstraight' : Straight params' := straight_of_admitted hadm' (by decide) hright
    obtain ⟨run', hpages, hfile, hmanifest⟩ := run.respelled hashes
      (sameGuest_of_admitted hadm hadm' hcover) hstraight hstraight' hvalid
    refine ⟨run'.built hashes, tdx_build_eq_ok.mpr ⟨run', rfl⟩, ?_, hfile, hmanifest⟩
    rw [run'.built_pages, run.built_pages, hpages]
  · intro view p384 idKey guestSvn ram vcpus cbit cmdline out hparams hparams' hvalid hbuild
    obtain ⟨run, rfl⟩ := snp_build_eq_ok.mp hbuild
    have hadm := Params.new_eq_ok.mp hparams
    have hadm' := Params.new_eq_ok.mp hparams'
    have hstraight : Straight params := straight_of_admitted hadm (by decide) hleft
    have hstraight' : Straight params' := straight_of_admitted hadm' (by decide) hright
    obtain ⟨run', hpages, hcontents, hmeasure, hfile, hmanifest⟩ := run.respelled
      (sameGuest_of_admitted hadm hadm' hcover) hstraight hstraight' hvalid
    refine ⟨run'.built, snp_build_eq_ok.mpr ⟨run', rfl⟩, ?_, hcontents, hmeasure, hfile, hmanifest⟩
    rw [run'.built_pages, run.built_pages, hpages]

namespace Sample

/-- One aperture of two pages. -/
def whole : List (UInt64 × UInt64) := [(0x30000000, 0x2000)]

/-- The same two pages as two apertures, the upper one first. -/
def halves : List (UInt64 × UInt64) := [(0x30001000, 0x1000), (0x30000000, 0x1000)]

/-- The small guest with some apertures. -/
abbrev withHoles (holes : List (UInt64 × UInt64)) : Params :=
  Sample.params 1 51 (holes.map Params.holeToNat)

theorem inAperture_whole_iff (a : Nat) : InAperture (whole.map Params.holeToNat) a ↔
    InAperture (halves.map Params.holeToNat) a := by
  simp [InAperture, whole, halves, Params.holeToNat]
  omega

theorem not_wraps_whole : ∀ g ∈ whole, ¬ Params.Wraps (Params.holeToNat g) := by
  simp [whole, Params.Wraps, Params.holeToNat]

theorem not_wraps_halves : ∀ g ∈ halves, ¬ Params.Wraps (Params.holeToNat g) := by
  simp [halves, Params.Wraps, Params.holeToNat]

theorem sameGuest : SameGuest (withHoles whole) (withHoles halves) :=
  ⟨rfl, rfl, rfl, rfl, inAperture_whole_iff⟩

theorem straight_whole : Straight (withHoles whole) := by
  simp [Straight, Sample.params, whole, Params.Wraps, Params.holeToNat]

theorem straight_halves : Straight (withHoles halves) := by
  simp [Straight, Sample.params, halves, Params.Wraps, Params.holeToNat]

theorem tdx_whole_eq_ok : Params.tdx 0x40000000 1 [] whole = .ok (withHoles whole) := by
  decide +kernel

theorem tdx_halves_eq_ok : Params.tdx 0x40000000 1 [] halves = .ok (withHoles halves) := by
  decide +kernel

theorem snp_whole_eq_ok : Params.snp 0x40000000 1 51 [] whole = .ok (withHoles whole) := by
  decide +kernel

theorem snp_halves_eq_ok : Params.snp 0x40000000 1 51 [] halves = .ok (withHoles halves) := by
  decide +kernel

theorem nonempty_mapped_whole (pf : Platform) :
    Nonempty (Mapped pf Sample.blob Sample.kernelFile [1] (withHoles whole)) :=
  nonempty_mapped pf 1 51 (by decide) (by decide) (by decide) (by decide)

theorem validates_halves (pf : Platform) :
    Validates pf Sample.kernelFile [1] (withHoles halves) := by
  intro p hp
  obtain ⟨m⟩ : Nonempty (Mapped pf Sample.blob Sample.kernelFile [1] (withHoles halves)) :=
    nonempty_mapped pf 1 51 (by decide) (by decide) (by decide) (by decide)
  rw [Except.ok.inj (hp.symm.trans m.prepare_ok)]
  exact m.validate_ok

end Sample

/-- An aperture in one piece and in two. -/
theorem build_of_same_addresses_sample :
    (∃ crate out out', Image.build crate Sample.hashes Sample.blob Sample.kernelFile [1]
        (Sample.withHoles Sample.whole) none = .ok out ∧
      Image.build crate Sample.hashes Sample.blob Sample.kernelFile [1]
        (Sample.withHoles Sample.halves) none = .ok out' ∧ out'.pages = out.pages) ∧
    ∃ crate out out', Snp.build crate Sample.hashes Sample.view Sample.p384 Sample.blob
        Sample.kernelFile [1] (Sample.withHoles Sample.whole) none none 0 = .ok out ∧
      Snp.build crate Sample.hashes Sample.view Sample.p384 Sample.blob Sample.kernelFile [1]
        (Sample.withHoles Sample.halves) none none 0 = .ok out' ∧
      out'.measurement = out.measurement := by
  have hholes : ∀ g ∈ Sample.whole ++ Sample.halves, ¬ Params.Wraps (Params.holeToNat g) :=
    List.forall_mem_append.mpr ⟨Sample.not_wraps_whole, Sample.not_wraps_halves⟩
  constructor
  · obtain ⟨m⟩ := Sample.nonempty_mapped_whole .tdx
    obtain ⟨out, hout⟩ := Sample.exists_tdx_build m
    obtain ⟨out', hout', hpages, -, -⟩ :=
      (build_of_same_addresses Sample.inAperture_whole_iff hholes _ _ _ _ _ _ _ _).1 _ _ _ out
        Sample.tdx_whole_eq_ok Sample.tdx_halves_eq_ok (Sample.validates_halves .tdx) hout
    exact ⟨_, out, out', hout, hout', hpages⟩
  · obtain ⟨m⟩ := Sample.nonempty_mapped_whole .snp
    obtain ⟨out, hout⟩ := Sample.exists_snp_build m
    obtain ⟨out', hout', -, -, hmeasure, -⟩ :=
      (build_of_same_addresses Sample.inAperture_whole_iff hholes _ _ _ _ _ _ _ _).2 _ _ _ _ _ _ _ _
        out Sample.snp_whole_eq_ok Sample.snp_halves_eq_ok (Sample.validates_halves .snp) hout
    exact ⟨_, out, out', hout, hout', hmeasure⟩

end BootShim.Pipeline
