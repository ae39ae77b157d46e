-- SUMMARY: An image describes itself: the maps in its zero page and in its shim's page are those of the map that holds the two pages.
import BootShim.Pipeline.Coverage
import BootShim.Pipeline.Success

/-!
# An image describes itself

Linux reads the memory map out of the zero page, the shim its accept list out of its own
page. Both pages are regions of the map they describe. What is read out of the imported
pages is what follows from the final map, sorted and with both pages in place.
-/

namespace BootShim.Pipeline

open Boot Bytes Igvm Image Layout Snp

/-! ## The property -/

/-- The one page a loader imports at an address. -/
def ImportedAt (pages : List (Nat × List UInt8)) (gpa : Nat) (pg : List UInt8) : Prop :=
  (gpa, pg) ∈ pages ∧ ∀ d, (gpa, d) ∈ pages → d = pg

/-- The two descriptions among the imported pages are of the map they are placed in. -/
structure DescribesItself (pages : List (Nat × List UInt8)) (shimAt : Nat) (placed : List Placed)
    (memory : Nat) : Prop where
  e820 : ∃ zero, ImportedAt pages Layout.zeroPage zero ∧
    .measured Layout.zeroPage "" reserved zero ∈ placed ∧ e820Of zero = Boot.e820 placed memory
  accept : ∃ pg, ImportedAt pages shimAt pg ∧ .measured shimAt "shim" reserved pg ∈ placed ∧
    shimRanges pg = some (acceptRanges placed memory)

variable {pf : Platform} {blob : ShimBlob} {kernelFile initramfs : List UInt8} {params : Params}

namespace Mapped

variable (m : Mapped pf blob kernelFile initramfs params)

/-! ## The two pages of a mapped image -/

theorem importedAt {gpa : Nat} {pg : List UInt8} (h : (gpa, pg) ∈ m.pages) :
    ImportedAt m.pages gpa pg :=
  ⟨h, fun _ hd => eq_of_mem_of_pairwise m.pairwise_pages hd h⟩

theorem mem_sorted {q : Placed} (hq : q ∈ m.regions) : q ∈ sortByBase m.map :=
  (sortByBase_perm m.map).mem_iff.mpr (List.mem_append_left _ hq)

/-- No region has a type beyond those of E820. -/
theorem kind_le {q : Placed} (hq : q ∈ m.map) : q.e820 ≤ acpi := by
  rcases List.mem_append.mp hq with hq | hq
  · have hfoot : ∀ t ∈ pf.footprint (kernelEnd m.p.kernel) (initramfsEnd m.p.initramfs),
        t.tag ≤ acpi := by
      cases pf <;> simp [Platform.footprint]
    exact hfoot _ (m.tile_mem_footprint hq)
  · obtain ⟨h, -, rfl⟩ := mem_apertures.mp hq
    exact Nat.zero_le _

theorem base_lt (hvalid : params.Valid) {q : Placed} (hq : q ∈ m.map) : q.base < 2 ^ 64 := by
  rcases List.mem_append.mp hq with hq | hq
  · exact (Nat.le_add_right _ _).trans_lt (m.fits hq).fits
  · obtain ⟨h, hh, rfl⟩ := mem_apertures.mp hq
    exact (hvalid.hole_lt h hh).1

/-- The E820 map is what Linux reads out of the zero page. -/
theorem e820Of_zero (hvalid : params.Valid) : e820Of m.zero = m.e820 := by
  have hzero := m.zero_ok
  rw [m.e820_blank] at hzero
  have hmem : params.memory < 2 ^ 64 := hvalid.memory_le.trans_lt (by decide)
  exact e820Of_zeroPage hzero fun e he => entryFits_of_mem_e820 hmem (fun q hq => m.base_lt hvalid hq)
    (fun q hq => (m.kind_le hq).trans_lt (by decide)) he

/-- Sorted or not, the map has one E820 map and one accept list. -/
theorem e820_sorted : Boot.e820 (sortByBase m.map) params.memory = m.e820 :=
  e820_eq_of_spans (spans_of_perm (sortByBase_perm _)) _

theorem acceptRanges_sorted : acceptRanges (sortByBase m.map) params.memory = m.accept :=
  acceptRanges_eq_of_spans (spans_of_perm (sortByBase_perm _)) _

theorem describesItself (hvalid : params.Valid) :
    DescribesItself m.pages pf.shimAt (sortByBase m.map) params.memory := by
  refine ⟨⟨m.zero, ?_, m.mem_sorted m.mem_regions_zero, ?_⟩,
    ⟨m.shim, m.importedAt m.shim_mem_pages, m.mem_sorted m.mem_regions_shim, ?_⟩⟩
  · exact m.importedAt (m.mem_pages_of_measured m.length_zero m.mem_regions_zero)
  · rw [m.e820Of_zero hvalid, m.e820_sorted]
  · rw [m.shimRanges_shim hvalid, m.acceptRanges_sorted]

end Mapped

/-! ## Builds -/

/-- Every image describes itself, and filling a region in changes nothing a map is judged
    or described by. -/
theorem describes_itself (crate : Crate) (hashes : Hashes) (blob : ShimBlob)
    (kernelFile initramfs : List UInt8) (params : Params) (configHash : Option (List Char)) :
    (∀ ram vcpus cmdline mmio out, Params.tdx ram vcpus cmdline mmio = .ok params →
      Image.build crate hashes blob kernelFile initramfs params configHash = .ok out →
      DescribesItself out.pages resetAlias out.placed params.memory) ∧
    (∀ view p384 idKey guestSvn ram vcpus cbit cmdline mmio out,
      Params.snp ram vcpus cbit cmdline mmio = .ok params →
      Snp.build crate hashes view p384 blob kernelFile initramfs params configHash idKey guestSvn =
        .ok out →
      DescribesItself (pagesByAddress out.pages) shimBase out.placed params.memory) ∧
    ∀ placed base data placed', fill placed base data = .ok placed' →
      List.Forall₂ SameFrame placed placed' ∧ ∀ memory,
        validate placed' memory = validate placed memory ∧
          e820 placed' memory = e820 placed memory ∧
            acceptRanges placed' memory = acceptRanges placed memory := by
  refine ⟨?_, ?_, ?_⟩
  · intro ram vcpus cmdline mmio out hparams hbuild
    obtain ⟨run, rfl⟩ := tdx_build_eq_ok.mp hbuild
    rw [run.built_pages, run.built_placed]
    exact run.describesItself (Params.valid_of_tdx hparams)
  · intro view p384 idKey guestSvn ram vcpus cbit cmdline mmio out hparams hbuild
    obtain ⟨run, rfl⟩ := snp_build_eq_ok.mp hbuild
    rw [run.pagesByAddress_built, run.built_placed]
    exact run.describesItself (Params.valid_of_snp hparams)
  · intro placed base data placed' hfill
    have hframe := frame_of_fill hfill
    exact ⟨hframe, fun memory => ⟨validate_of_frame hframe memory, e820_of_frame hframe memory,
      acceptRanges_of_frame hframe memory⟩⟩

theorem describes_itself_sample :
    (∃ crate out, Image.build crate Sample.hashes Sample.blob Sample.kernelFile [1]
        (Sample.params 1 51 []) none = .ok out ∧
      DescribesItself out.pages resetAlias out.placed 0x40000000) ∧
    (∃ crate out, Snp.build crate Sample.hashes Sample.view Sample.p384 Sample.blob
        Sample.kernelFile [1] (Sample.params 1 51 []) none none 0 = .ok out ∧
      DescribesItself (pagesByAddress out.pages) shimBase out.placed 0x40000000) ∧
    List.Forall₂ SameFrame [.host 0x30000, .measured 0x31000 "shim" reserved []]
      [.host 0x30000, .measured 0x31000 "shim" reserved [1]] := by
  refine ⟨?_, ?_, ?_⟩
  · obtain ⟨m⟩ : Nonempty (Mapped .tdx Sample.blob Sample.kernelFile [1] (Sample.params 1 51 [])) :=
      Sample.nonempty_mapped .tdx 1 51 (by decide) nofun .nil (by decide)
    obtain ⟨out, hout⟩ := Sample.exists_tdx_build m
    exact ⟨_, out, hout,
      (describes_itself _ _ _ _ _ _ _).1 _ _ _ _ out Sample.tdx_eq_ok hout⟩
  · obtain ⟨m⟩ : Nonempty (Mapped .snp Sample.blob Sample.kernelFile [1] (Sample.params 1 51 [])) :=
      Sample.nonempty_mapped .snp 1 51 (by decide) nofun .nil (by decide)
    obtain ⟨out, hout⟩ := Sample.exists_snp_build m
    exact ⟨_, out, hout,
      (describes_itself _ _ _ _ _ _ none).2.1 _ _ _ _ _ _ _ _ _ out Sample.snp_eq_ok hout⟩
  · have hfill : fill [.host 0x30000, .measured 0x31000 "shim" reserved []] 0x31000 [1] =
        .ok [.host 0x30000, .measured 0x31000 "shim" reserved [1]] := rfl
    have hdescribes := describes_itself (Sample.crate ⟨[], [], []⟩) Sample.hashes Sample.blob [] []
      (Sample.params 1 51 []) none
    exact (hdescribes.2.2 _ _ _ _ hfill).1

end BootShim.Pipeline
