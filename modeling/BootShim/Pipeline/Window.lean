-- SUMMARY: The memory a kernel decompresses into is RAM that is imported or accepted, exactly when no declared aperture meets it.
import BootShim.Pipeline.Coverage

/-!
# The kernel's working window

A kernel works in the `init_size` bytes from its load address on, which reach past the
region that is placed for its payload. `prepare` keeps the window clear of the initramfs
and validation keeps the apertures clear of the regions. The window's tail is in neither
check.
-/

namespace BootShim.Pipeline

open Boot Bytes Igvm Image Layout Snp

/-! ## The property -/

/-- The length of the window, from the kernel's header. -/
def initSize (kernelFile : List UInt8) : Nat := getLE 4 kernelFile hdrInitSize

/-- The address lies in the kernel's working window. -/
def InWindow (kernelFile : List UInt8) (a : Nat) : Prop :=
  kernelBase ≤ a ∧ a < kernelBase + initSize kernelFile

/-- The window is usable RAM and nothing but the kernel is placed in it. -/
structure WindowUsable (kernelFile : List UInt8) (placed : List Placed)
    (e820 : List (Nat × Nat × Nat)) (accept : List (Nat × Nat)) (pages : List (Nat × List UInt8)) :
    Prop where
  ram : ∀ a, a % page = 0 → (∃ b, a ≤ b ∧ b < a + page ∧ InWindow kernelFile b) →
    ∃ e ∈ e820, e.2.2 = Boot.ram ∧ e.1 ≤ a ∧ a + page ≤ e.1 + e.2.1
  backed : ∀ a, a % page = 0 → (∃ b, a ≤ b ∧ b < a + page ∧ InWindow kernelFile b) →
    (∃ q ∈ placed, q.name = "kernel" ∧ ∃ d, (a, d) ∈ q.contents ∧ (a, d) ∈ pages) ∨
      ∃ r ∈ accept, r.1 ≤ a ∧ a + page ≤ r.2
  clear : ∀ q ∈ placed, q.name ≠ "kernel" → ∀ b, InWindow kernelFile b →
    ¬ (q.base ≤ b ∧ b < q.base + q.span)

variable {pf : Platform} {blob : ShimBlob} {kernelFile initramfs : List UInt8} {params : Params}

namespace Mapped

variable (m : Mapped pf blob kernelFile initramfs params)

/-! ## The window of a mapped image -/

include m in
/-- The window ends at or below the initramfs. -/
theorem window_le : kernelBase + initSize kernelFile ≤ initramfsBase := by
  obtain ⟨info, hparse, hadmits, -⟩ := prepare_eq_ok.mp m.prepare_ok
  obtain ⟨-, rfl⟩ := parseBzimage_eq_ok.mp hparse
  exact hadmits.init_size

/-- No two regions have one base. -/
theorem eq_of_base {q r : Placed} (hq : q ∈ m.regions) (hr : r ∈ m.regions) (h : q.base = r.base) :
    q = r := by
  have hasc := pairwise_base_regions pf params m.sized m.length_zero m.length_shim
  have hnodup : (m.regions.map Placed.base).Nodup := List.pairwise_map.mpr (hasc.imp fun h => h.ne)
  exact List.inj_on_of_nodup_map hnodup hq hr h

/-- Between the kernel's base and the initramfs lies the kernel's region only. -/
theorem eq_kernel_of_mem {q : Placed} (hq : q ∈ m.regions) {b : Nat} (hlo : kernelBase ≤ b)
    (hhi : b < initramfsBase) (hmem : q.tile.Mem b) :
    q = .measured kernelBase "kernel" ram m.p.kernel := by
  have hfoot : ∀ t ∈ pf.footprint (kernelEnd m.p.kernel) (initramfsEnd m.p.initramfs),
      t.Mem b → t.lo = kernelBase := by
    cases pf <;>
      · simp [Platform.footprint, Tile.Mem] at *
        omega
  exact m.eq_of_base hq m.mem_regions_kernel (hfoot _ (m.tile_mem_footprint hq) hmem)

/-- A page of the window is a page of the kernel's region or in no region. -/
theorem kernel_or_not_taken (hvalid : params.Valid)
    (hclear : ∀ b, InWindow kernelFile b → ¬ InAperture params.mmio b) {a : Nat}
    (ha : InWindow kernelFile a) :
    (Placed.measured kernelBase "kernel" ram m.p.kernel).tile.Mem a ∨ ¬ Taken m.map a := by
  by_cases htaken : Taken m.map a
  · rcases (m.taken_map_iff hvalid).mp htaken with ⟨q, hq, hmem⟩ | ⟨h, hh, -, hmem⟩
    · have hq' := m.eq_kernel_of_mem hq ha.1 (ha.2.trans_le m.window_le) hmem
      exact Or.inl (hq' ▸ hmem)
    · exact absurd ⟨h, hh, hmem⟩ (hclear a ha)
  · exact Or.inr htaken

/-- Whatever covers the first byte of a page covers all of it. -/
private theorem page_le {lo hi a : Nat} (hhi : hi % page = 0) (ha : a % page = 0)
    (hmem : lo ≤ a ∧ a < hi) : lo ≤ a ∧ a + page ≤ hi := by
  simp only [page] at *
  omega

/-- The window of a mapped image is usable exactly when no declared aperture meets it. -/
theorem windowUsable_iff (hvalid : params.Valid) :
    WindowUsable kernelFile (sortByBase m.map) m.e820 m.accept m.pages ↔
      ∀ b, InWindow kernelFile b → ¬ InAperture params.mmio b := by
  constructor
  · rintro husable b hb ⟨h, hh, hmem⟩
    have hplaced : Placed.mmio h.1 h.2 ∈ sortByBase m.map :=
      (sortByBase_perm _).mem_iff.mpr (List.mem_append_right _ (mem_apertures.mpr ⟨h, hh, rfl⟩))
    exact husable.clear _ hplaced (by simp [Placed.mmio]) b hb hmem
  · intro hclear
    have hpage : ∀ {a}, a % page = 0 → (∃ b, a ≤ b ∧ b < a + page ∧ InWindow kernelFile b) →
        InWindow kernelFile a := by
      rintro a ha ⟨b, hab, hba, hb⟩
      simp only [InWindow, kernelBase, page] at *
      omega
    have hmemory : ∀ {a}, InWindow kernelFile a → a < params.memory := fun ha =>
      (ha.2.trans_le m.window_le).trans hvalid.memory_gt
    refine ⟨fun a ha hmeets => ?_, fun a ha hmeets => ?_, fun q hq hname b hb hmem => ?_⟩
    · have hin := hpage ha hmeets
      have hcov : Tile.Covers (m.e820.map entryTile) a ram := by
        rcases m.kernel_or_not_taken hvalid hclear hin with hmem | hfree
        · exact covers_e820_of_mem m.validate_map (List.mem_append_left _ m.mem_regions_kernel)
            (by simp [Placed.measured]) (hmemory hin) hmem
        · exact covers_e820_of_not_taken (hmemory hin) hfree
      obtain ⟨t, ht, hmem, htag⟩ := hcov
      obtain ⟨e, he, rfl⟩ := List.mem_map.mp ht
      exact ⟨e, he, htag, page_le (m.e820_aligned hvalid he).2 ha hmem⟩
    · have hin := hpage ha hmeets
      rcases m.kernel_or_not_taken hvalid hclear hin with hmem | hfree
      · have hne : (Placed.measured kernelBase "kernel" ram m.p.kernel).fill ≠ .measured [] := by
          intro h
          exact absurd m.sized.kernel_pos (by rw [Fill.measured.inj h]; decide)
        obtain ⟨d, hd⟩ := (m.fits m.mem_regions_kernel).exists_mem_contents rfl hne ha hmem
        exact Or.inl ⟨_, (sortByBase_perm _).mem_iff.mpr (List.mem_append_left _ m.mem_regions_kernel),
          rfl, d, hd, List.mem_flatMap.mpr ⟨_, m.mem_regions_kernel, hd⟩⟩
      · obtain ⟨r, hr, hmem⟩ := mem_acceptRanges_iff.mpr ⟨hmemory hin, hfree⟩
        exact Or.inr ⟨r, hr, page_le (m.accept_aligned hvalid hr).2 ha hmem⟩
    · rcases List.mem_append.mp ((sortByBase_perm _).mem_iff.mp hq) with hq | hq
      · have hkernel := m.eq_kernel_of_mem hq hb.1 (hb.2.trans_le m.window_le)
          ((m.fits hq).mem_tile.mpr hmem)
        exact hname (hkernel ▸ rfl)
      · obtain ⟨h, hh, rfl⟩ := mem_apertures.mp hq
        exact hclear b hb ⟨h, hh, hmem⟩

end Mapped

/-! ## The condition -/

/-- A declared aperture ends at or below the window or starts at or above its end. -/
def ClearOfWindow (kernelFile : List UInt8) (g : UInt64 × UInt64) : Prop :=
  initSize kernelFile = 0 ∨ g.1.toNat + g.2.toNat ≤ kernelBase ∨
    kernelBase + initSize kernelFile ≤ g.1.toNat

/-- The aperture a split guest has without asking lies above every window. -/
theorem inAperture_iff_of_admitted {ram vcpus cbit holeEnd : Nat} {cmdline : List Char}
    {mmio : List (UInt64 × UInt64)}
    (h : Params.Admitted ram vcpus cmdline cbit (mmio.map Params.holeToNat) holeEnd params)
    (hwindow : kernelBase + initSize kernelFile ≤ initramfsBase) :
    (∀ b, InWindow kernelFile b → ¬ InAperture params.mmio b) ↔
      ∀ g ∈ mmio, ClearOfWindow kernelFile g := by
  have hmmio : params.mmio = Params.pciHole ram holeEnd ++ mmio.map Params.holeToNat :=
    congrArg Params.mmio h.eq
  have hpci : ∀ g ∈ Params.pciHole ram holeEnd, initramfsBase ≤ g.1 := by
    intro g hg
    simp only [Params.pciHole] at hg
    split at hg
    · obtain rfl := List.mem_singleton.mp hg
      simp only [initramfsBase, q35Lowmem, gib]
      omega
    · exact absurd hg List.not_mem_nil
  constructor
  · intro hclear g hg
    have hsize := (h.hole_aligned _ (List.mem_append_right _ (List.mem_map_of_mem hg))).2.2
    by_contra hmeets
    simp only [ClearOfWindow, not_or, not_le] at hmeets
    refine hclear (max kernelBase g.1.toNat) ?_ ⟨Params.holeToNat g, ?_, ?_⟩
    · simp only [InWindow]
      omega
    · rw [hmmio]
      exact List.mem_append_right _ (List.mem_map_of_mem hg)
    · simp only [Params.holeToNat] at *
      omega
  · rintro hclear b hb ⟨g, hg, hmem⟩
    simp only [InWindow] at hb
    rw [hmmio] at hg
    rcases List.mem_append.mp hg with hg | hg
    · have hlo := hpci g hg
      omega
    · obtain ⟨hole, hhole, rfl⟩ := List.mem_map.mp hg
      have hc := hclear hole hhole
      simp only [ClearOfWindow, Params.holeToNat] at *
      omega

/-- A built image's kernel works in usable RAM exactly when no declared aperture meets its
    window, on both platforms. -/
theorem built_windowUsable_iff (crate : Crate) (hashes : Hashes) (blob : ShimBlob)
    (kernelFile initramfs : List UInt8) (ram : UInt64) (vcpus : UInt32) (cmdline : List Char)
    (mmio : List (UInt64 × UInt64)) (params : Params) (configHash : Option (List Char)) :
    (∀ out : Image.Built,
      Params.tdx ram vcpus cmdline mmio = .ok params →
      Image.build crate hashes blob kernelFile initramfs params configHash = .ok out →
      (WindowUsable kernelFile out.placed out.e820 out.accept out.pages ↔
        ∀ g ∈ mmio, ClearOfWindow kernelFile g)) ∧
    ∀ (view : VmsaView) (p384 : P384) (cbit : UInt8) (idKey : Option (List Char))
        (guestSvn : UInt32) (out : Snp.Built),
      Params.snp ram vcpus cbit cmdline mmio = .ok params →
      Snp.build crate hashes view p384 blob kernelFile initramfs params configHash idKey guestSvn =
        .ok out →
      (WindowUsable kernelFile out.placed out.e820 out.accept (pagesByAddress out.pages) ↔
        ∀ g ∈ mmio, ClearOfWindow kernelFile g) := by
  constructor
  · intro out hparams hbuild
    obtain ⟨run, rfl⟩ := tdx_build_eq_ok.mp hbuild
    rw [run.built_placed, run.built_e820, run.built_accept, run.built_pages]
    exact (run.windowUsable_iff (Params.valid_of_tdx hparams)).trans
      (inAperture_iff_of_admitted (Params.new_eq_ok.mp hparams) run.window_le)
  · intro view p384 cbit idKey guestSvn out hparams hbuild
    obtain ⟨run, rfl⟩ := snp_build_eq_ok.mp hbuild
    rw [run.pagesByAddress_built, run.built_placed, run.built_e820, run.built_accept]
    exact (run.windowUsable_iff (Params.valid_of_snp hparams)).trans
      (inAperture_iff_of_admitted (Params.new_eq_ok.mp hparams) run.window_le)

/-- An aperture right behind the 1-MiB window. -/
theorem built_windowUsable_sample :
    (∃ crate out, Image.build crate Sample.hashes Sample.blob Sample.kernelFile [1]
        (Sample.params 1 51 [(0x1100000, 0x1000)]) none = .ok out ∧
      WindowUsable Sample.kernelFile out.placed out.e820 out.accept out.pages) ∧
    ∃ crate out, Snp.build crate Sample.hashes Sample.view Sample.p384 Sample.blob
        Sample.kernelFile [1] (Sample.params 1 51 [(0x1100000, 0x1000)]) none none 0 = .ok out ∧
      WindowUsable Sample.kernelFile out.placed out.e820 out.accept (pagesByAddress out.pages) := by
  have hclear : ∀ g ∈ [((0x1100000, 0x1000) : UInt64 × UInt64)],
      ClearOfWindow Sample.kernelFile g := by
    refine List.forall_mem_singleton.mpr (Or.inr (Or.inr ?_))
    decide +kernel
  have hmapped : ∀ pf, Nonempty (Mapped pf Sample.blob Sample.kernelFile [1]
      (Sample.params 1 51 [(0x1100000, 0x1000)])) := fun pf =>
    Sample.nonempty_mapped_of_apart pf 1 51 (by decide) (List.forall_mem_singleton.mpr (by decide))
      (List.forall_mem_singleton.mpr (by cases pf <;> simp [Platform.footprint]))
      (List.pairwise_singleton _ _) (by decide)
  constructor
  · obtain ⟨m⟩ := hmapped .tdx
    obtain ⟨out, hout⟩ := Sample.exists_tdx_build m
    have hparams : Params.tdx 0x40000000 1 [] [(0x1100000, 0x1000)] =
        .ok (Sample.params 1 51 [(0x1100000, 0x1000)]) := by decide +kernel
    exact ⟨_, out, hout, ((built_windowUsable_iff _ _ _ _ _ _ _ _ _ _ _).1 _ hparams hout).mpr
      hclear⟩
  · obtain ⟨m⟩ := hmapped .snp
    obtain ⟨out, hout⟩ := Sample.exists_snp_build m
    have hparams : Params.snp 0x40000000 1 51 [] [(0x1100000, 0x1000)] =
        .ok (Sample.params 1 51 [(0x1100000, 0x1000)]) := by decide +kernel
    exact ⟨_, out, hout, ((built_windowUsable_iff _ _ _ _ _ _ _ _ _ _ _).2 _ _ _ _ _ _ hparams
      hout).mpr hclear⟩

/-- An aperture in the window's tail passes every check. -/
theorem not_windowUsable_of_aperture :
    ∃ crate params out, Params.tdx 0x40000000 1 [] [(0x1080000, 0x1000)] = .ok params ∧
      Image.build crate Sample.hashes Sample.blob Sample.kernelFile [1] params none = .ok out ∧
      ¬ WindowUsable Sample.kernelFile out.placed out.e820 out.accept out.pages := by
  obtain ⟨m⟩ : Nonempty (Mapped .tdx Sample.blob Sample.kernelFile [1]
      (Sample.params 1 51 [(0x1080000, 0x1000)])) :=
    Sample.nonempty_mapped_of_apart .tdx 1 51 (by decide) (List.forall_mem_singleton.mpr (by decide))
      (List.forall_mem_singleton.mpr (by simp [Platform.footprint])) (List.pairwise_singleton _ _)
      (by decide)
  obtain ⟨out, hout⟩ := Sample.exists_tdx_build m
  have hparams : Params.tdx 0x40000000 1 [] [(0x1080000, 0x1000)] =
      .ok (Sample.params 1 51 [(0x1080000, 0x1000)]) := by decide +kernel
  refine ⟨_, _, out, hparams, hout, fun husable => ?_⟩
  obtain ⟨run, rfl⟩ := tdx_build_eq_ok.mp hout
  rw [run.built_placed, run.built_e820, run.built_accept, run.built_pages] at husable
  have hsize : 0x1080000 < kernelBase + initSize Sample.kernelFile := by decide +kernel
  have hin : InWindow Sample.kernelFile 0x1080000 := ⟨by decide, hsize⟩
  exact (run.windowUsable_iff (Params.valid_of_tdx hparams)).mp husable _ hin
    ⟨_, List.mem_cons_self, le_rfl, by decide⟩

end BootShim.Pipeline
