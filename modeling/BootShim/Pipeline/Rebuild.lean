-- SUMMARY: A manifest determines its parameters: read back through the operator's own parsers, what it publishes is admitted again and makes the same guest.
import BootShim.Cli
import BootShim.Pipeline.Inversion

/-!
# Rebuilding from a manifest

A manifest publishes the top of the map and not the RAM, and a split guest's own aperture
along with the operator's. Both are undone here: the split happens at a size that the top
of the map keeps apart, and the aperture it opens comes first.
-/

namespace BootShim.Pipeline

open Boot Checked Igvm Image Layout Snp

/-! ## What is published -/

/-- The part of a manifest that names the parameters. -/
structure PublishedParams where
  memoryBytes : Nat
  vcpus : Nat
  commandLine : List Char
  mmioHoles : List String

/-- The parameters as both manifests publish them. -/
def publish (params : Params) : PublishedParams where
  memoryBytes := params.memory
  vcpus := params.vcpus
  commandLine := params.cmdline
  mmioHoles := mmioHoles params

namespace PublishedParams

variable (m : PublishedParams)

/-- The RAM behind the top of the map. -/
def ram : Nat := if m.memoryBytes < q35Split then m.memoryBytes else m.memoryBytes - 2 * gib

/-- The operator's apertures: all of them, but for the one a split guest has anyway. -/
def holes : Except String (List (UInt64 × UInt64)) := do
  let holes ← m.mmioHoles.mapM fun text => Cli.parseHole text.toList
  pure (if m.memoryBytes < q35Split then holes else holes.drop 1)

/-- The parameters of a TDX image made from what is published. -/
def tdx : Except String Params := do
  let holes ← m.holes
  Params.tdx (UInt64.ofNat m.ram) (UInt32.ofNat m.vcpus) m.commandLine holes

/-- Those of an SNP image, whose manifest has the C-bit too. -/
def snp (cBitPosition : Nat) : Except String Params := do
  let holes ← m.holes
  Params.snp (UInt64.ofNat m.ram) (UInt32.ofNat m.vcpus) (UInt8.ofNat cBitPosition) m.commandLine
    holes

end PublishedParams

/-! ## Reading it back -/

variable {ram vcpus cbit : Nat} {holeEnd : Nat} {cmdline : List Char}
  {mmio : List (UInt64 × UInt64)} {params : Params}

/-- A guest is split exactly when the top of its map is beyond the split. -/
theorem mapTop_lt_iff : Params.mapTop ram < q35Split ↔ ram < q35Split := by
  simp only [Params.mapTop, q35Split, fourGib, q35Lowmem, gib]
  split <;> omega

/-- The top of the map tells the RAM. -/
theorem ram_publish (hmemory : params.memory = Params.mapTop ram) : (publish params).ram = ram := by
  simp only [PublishedParams.ram, publish, hmemory, mapTop_lt_iff]
  split
  · next hlt => exact if_neg (Nat.not_le.mpr hlt)
  · next hge =>
    rw [Params.mapTop, if_pos (Nat.not_lt.mp hge)]
    simp only [fourGib, q35Lowmem, gib]
    omega

/-- Every aperture of the manifest is read back. -/
theorem mapM_parseHole_mmioHoles (hmmio : params.mmio = mmio.map Params.holeToNat) :
    (mmioHoles params).mapM (fun text => Cli.parseHole text.toList) = .ok mmio := by
  rw [mmioHoles, hmmio, List.map_map]
  exact mapM_map_eq_ok (fun hole => Cli.parseHole_hex hole.1 hole.2 8) mmio

/-- Without the one that comes with the split, they are the operator's. -/
theorem holes_publish (hmemory : params.memory = Params.mapTop ram) (hend : holeEnd < 2 ^ 64)
    (hmmio : params.mmio = Params.pciHole ram holeEnd ++ mmio.map Params.holeToNat) :
    (publish params).holes = .ok mmio := by
  unfold PublishedParams.holes
  simp only [publish, hmemory, mapTop_lt_iff]
  rw [Params.pciHole] at hmmio
  cases Nat.lt_or_ge ram q35Split with
  | inl hlt =>
    rw [if_neg (Nat.not_le.mpr hlt), List.nil_append] at hmmio
    rw [mapM_parseHole_mmioHoles hmmio, ok_bind, if_pos hlt]
    rfl
  | inr hge =>
    have hnat : Params.holeToNat (UInt64.ofNat q35Lowmem, UInt64.ofNat (holeEnd - q35Lowmem)) =
        (q35Lowmem, holeEnd - q35Lowmem) :=
      congrArg (Prod.mk _) (UInt64.toNat_ofNat_of_lt' ((Nat.sub_le _ _).trans_lt hend))
    rw [if_pos hge, ← hnat, List.singleton_append, ← List.map_cons] at hmmio
    rw [mapM_parseHole_mmioHoles hmmio, ok_bind, if_neg (Nat.not_lt.mpr hge)]
    rfl

/-- What was admitted is admitted again, with its own command line, as the same guest. -/
theorem admitted_again {holes : List (Nat × Nat)}
    (h : Params.Admitted ram vcpus cmdline cbit holes holeEnd params) :
    Params.Admitted ram vcpus params.cmdline cbit holes holeEnd params := by
  have hcmdline : params.cmdline = Params.normalizeCmdline cmdline := congrArg Params.cmdline h.eq
  have hagain : Params.normalizeCmdline params.cmdline = Params.normalizeCmdline cmdline := by
    rw [hcmdline, Params.normalizeCmdline_normalizeCmdline]
  exact { h with
    cmdline_ascii := hagain ▸ h.cmdline_ascii
    eq := hagain ▸ h.eq }

/-- What is read back from a guest's manifest, next to what the guest was asked for. -/
structure Republished (ram : UInt64) (vcpus : UInt32) (cbit : UInt8)
    (mmio : List (UInt64 × UInt64)) (holeEnd : Nat) (params : Params) : Prop where
  holes_ok : (publish params).holes = .ok mmio
  cbit_eq : UInt8.ofNat params.cbit = cbit
  new_ok : Params.new (UInt64.ofNat (publish params).ram) (UInt32.ofNat (publish params).vcpus)
    (publish params).commandLine cbit mmio holeEnd = .ok params

theorem republished {ram : UInt64} {vcpus : UInt32} {cbit : UInt8} (hend : holeEnd < 2 ^ 64)
    (h : Params.new ram vcpus cmdline cbit mmio holeEnd = .ok params) :
    Republished ram vcpus cbit mmio holeEnd params := by
  have hadmitted := Params.new_eq_ok.mp h
  have hmemory : params.memory = Params.mapTop ram.toNat := congrArg Params.memory hadmitted.eq
  have hvcpus : params.vcpus = vcpus.toNat := congrArg Params.vcpus hadmitted.eq
  have hcbit : params.cbit = cbit.toNat := congrArg Params.cbit hadmitted.eq
  refine ⟨holes_publish hmemory hend (congrArg Params.mmio hadmitted.eq), ?_, ?_⟩
  · rw [hcbit, UInt8.ofNat_toNat]
  · rw [ram_publish hmemory, UInt64.ofNat_toNat]
    simp only [publish]
    rw [hvcpus, UInt32.ofNat_toNat]
    exact Params.new_eq_ok.mpr (admitted_again hadmitted)

theorem tdx_publish {ram : UInt64} {vcpus : UInt32}
    (h : Params.tdx ram vcpus cmdline mmio = .ok params) : (publish params).tdx = .ok params := by
  have hback := republished (by decide) h
  rw [PublishedParams.tdx, hback.holes_ok, ok_bind]
  exact hback.new_ok

theorem snp_publish {ram : UInt64} {vcpus : UInt32} {cbit : UInt8}
    (h : Params.snp ram vcpus cbit cmdline mmio = .ok params) :
    (publish params).snp params.cbit = .ok params := by
  have hback := republished (by decide) h
  rw [PublishedParams.snp, hback.holes_ok, ok_bind, hback.cbit_eq]
  exact hback.new_ok

/-- Every aperture of the manifest parses on its own, too. -/
theorem parseHole_of_mem_mmioHoles (hvalid : Params.Valid params) {text : String}
    (htext : text ∈ mmioHoles params) : ∃ hole, Cli.parseHole text.toList = .ok hole := by
  obtain ⟨h, hh, rfl⟩ := List.mem_map.mp htext
  obtain ⟨hbase, hsize⟩ := hvalid.hole_lt h hh
  have hback := Cli.parseHole_hex (UInt64.ofNat h.1) (UInt64.ofNat h.2) 8
  rw [UInt64.toNat_ofNat_of_lt' hbase, UInt64.toNat_ofNat_of_lt' hsize] at hback
  exact ⟨_, hback⟩

/-- The published parameters are read back as those of the guest, so whoever has the manifest
    can ask for the same image. -/
theorem rebuild_publish :
    (∀ base size : UInt64, Cli.parseHole
      (Text.hex base.toNat 8 ++ ":" ++ Text.hex size.toNat 0).toList = .ok (base, size)) ∧
    (∀ cmdline, Params.normalizeCmdline (Params.normalizeCmdline cmdline) =
      Params.normalizeCmdline cmdline) ∧
    (∀ ram vcpus cmdline mmio params, Params.tdx ram vcpus cmdline mmio = .ok params →
      (∀ text ∈ (publish params).mmioHoles, ∃ hole, Cli.parseHole text.toList = .ok hole) ∧
        (publish params).tdx = .ok params) ∧
    ∀ ram vcpus cbit cmdline mmio params, Params.snp ram vcpus cbit cmdline mmio = .ok params →
      (∀ text ∈ (publish params).mmioHoles, ∃ hole, Cli.parseHole text.toList = .ok hole) ∧
        (publish params).snp params.cbit = .ok params := by
  refine ⟨fun base size => Cli.parseHole_hex base size 8, Params.normalizeCmdline_normalizeCmdline,
    ?_, ?_⟩
  · intro ram vcpus cmdline mmio params h
    exact ⟨fun text => parseHole_of_mem_mmioHoles (Params.valid_of_tdx h), tdx_publish h⟩
  · intro ram vcpus cbit cmdline mmio params h
    exact ⟨fun text => parseHole_of_mem_mmioHoles (Params.valid_of_snp h), snp_publish h⟩

/-- A split guest with an aperture of the operator's. -/
theorem rebuild_publish_sample :
    (∃ params, Params.tdx 0xc0000000 4 [' ', 'a'] [(0x30000000, 0x1000)] = .ok params ∧
      (publish params).tdx = .ok params) ∧
    ∃ params, Params.snp 0xc0000000 4 47 [' ', 'a'] [(0x30000000, 0x1000)] = .ok params ∧
      (publish params).snp params.cbit = .ok params := by
  constructor
  · have hparams : Params.tdx 0xc0000000 4 [' ', 'a'] [(0x30000000, 0x1000)] =
        .ok ⟨0x140000000, 4, "a no5lvl".toList, 51,
          [(0x80000000, 0x7ffff000), (0x30000000, 0x1000)]⟩ := by decide +kernel
    exact ⟨_, hparams, (rebuild_publish.2.2.1 _ _ _ _ _ hparams).2⟩
  · have hparams : Params.snp 0xc0000000 4 47 [' ', 'a'] [(0x30000000, 0x1000)] =
        .ok ⟨0x140000000, 4, "a no5lvl".toList, 47,
          [(0x80000000, 0x80000000), (0x30000000, 0x1000)]⟩ := by decide +kernel
    exact ⟨_, hparams, (rebuild_publish.2.2.2 _ _ _ _ _ _ hparams).2⟩

/-! ## From a manifest -/

/-- What a TDX manifest publishes of the parameters. -/
def PublishedParams.ofTdx (manifest : Image.Manifest) : PublishedParams :=
  ⟨manifest.memoryBytes, manifest.vcpus, manifest.commandLine, manifest.mmioHoles⟩

/-- What an SNP manifest publishes of them, next to the C-bit. -/
def PublishedParams.ofSnp (manifest : Snp.Manifest) : PublishedParams :=
  ⟨manifest.memoryBytes, manifest.topology.vcpus, manifest.commandLine, manifest.mmioHoles⟩

variable {crate : Crate} {hashes : Hashes} {blob : ShimBlob} {kernelFile initramfs : List UInt8}
  {configHash : Option (List Char)}

/-- The manifest of a TDX build gives back the parameters it was built for. -/
theorem tdx_of_manifest {ram : UInt64} {vcpus : UInt32} {out : Image.Built}
    (hparams : Params.tdx ram vcpus cmdline mmio = .ok params)
    (hbuild : Image.build crate hashes blob kernelFile initramfs params configHash = .ok out) :
    (PublishedParams.ofTdx out.manifest).tdx = .ok params := by
  obtain ⟨run, rfl⟩ := tdx_build_eq_ok.mp hbuild
  have hpublished : PublishedParams.ofTdx (run.built hashes).manifest = publish params := rfl
  rw [hpublished]
  exact tdx_publish hparams

/-- So does that of an SNP build. -/
theorem snp_of_manifest {ram : UInt64} {vcpus : UInt32} {cbit : UInt8} {view : VmsaView}
    {p384 : P384} {idKey : Option (List Char)} {guestSvn : UInt32} {out : Snp.Built}
    (hparams : Params.snp ram vcpus cbit cmdline mmio = .ok params)
    (hbuild : Snp.build crate hashes view p384 blob kernelFile initramfs params configHash idKey
      guestSvn = .ok out) :
    (PublishedParams.ofSnp out.manifest).snp out.manifest.cBitPosition = .ok params := by
  obtain ⟨run, rfl⟩ := snp_build_eq_ok.mp hbuild
  have hpublished : PublishedParams.ofSnp run.built.manifest = publish params := rfl
  have hcbit : run.built.manifest.cBitPosition = params.cbit := rfl
  rw [hpublished, hcbit]
  exact snp_publish hparams

end BootShim.Pipeline
