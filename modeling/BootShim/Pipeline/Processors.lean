-- SUMMARY: The descriptions of the processors (MADT, VP contexts, VMSAs, topology) agree exactly as far as eight bits reach.
import BootShim.Acpi.Madt
import BootShim.Pipeline.Digest

/-!
# The processors of an image

The MADT names each processor by an APIC ID of eight bits and an SNP manifest counts the
cores in eight bits, while the bound on the processors is how many entries fit the ACPI
page. A VP context has sixteen bits for the index, which suffice.
-/

namespace BootShim.Pipeline

open Boot Bytes Igvm Image Layout Snp

variable {crate : Crate} {hashes : Hashes} {view : VmsaView} {p384 : P384} {blob : ShimBlob}
  {kernelFile initramfs : List UInt8} {params : Params} {configHash idKey : Option (List Char)}
  {guestSvn : UInt32}

/-! ## The MADT -/

/-- The enabled Local APIC entries of the page name every processor by its index, once. -/
def NamesProcessors (acpiPage : List UInt8) (vcpus : Nat) : Prop :=
  ∃ ids, Acpi.enabledApicIds acpiPage = some ids ∧ ids.length = vcpus ∧ ids.Nodup ∧
    ∀ i, i ∈ ids ↔ i < vcpus

theorem namesProcessors_iff {vcpus : Nat} {wakeup : Bool} (hle : vcpus ≤ maxVcpus) :
    NamesProcessors (Acpi.build vcpus wakeup) vcpus ↔ vcpus ≤ 256 := by
  have hids : Acpi.enabledApicIds (Acpi.build vcpus wakeup) = some ((List.range vcpus).map (· % 256)) :=
    Acpi.enabledApicIds_build hle
  constructor
  · rintro ⟨ids, hsome, -, -, hmem⟩
    obtain rfl := Option.some.inj (hids.symm.trans hsome)
    by_contra hgt
    obtain ⟨i, -, hi⟩ := List.mem_map.mp ((hmem 256).mpr (by omega))
    have hlt : i % 256 < 256 := Nat.mod_lt _ (by decide)
    omega
  · intro hle
    have hrange : (List.range vcpus).map (· % 256) = List.range vcpus := by
      refine (List.map_congr_left fun i hi => ?_).trans (List.map_id _)
      have hlt : i < vcpus := List.mem_range.mp hi
      exact Nat.mod_eq_of_lt (by omega)
    rw [hrange] at hids
    exact ⟨_, hids, List.length_range, List.nodup_range, fun i => List.mem_range⟩

/-! ## VP contexts and VMSAs -/

/-- What an SNP image says of its processors: its MADT names them, it launches one VP
    context for each index, it measures the VMSA of each, and its topology counts them. -/
structure SnpProcessors (view : VmsaView) (vcpus : Nat) (out : Snp.Built) : Prop where
  names : ∃ acpiPage, (acpiBase, acpiPage) ∈ pagesByAddress out.pages ∧
    acpiPage = Acpi.build vcpus false ∧ NamesProcessors acpiPage vcpus
  indices : (contexts out.contents.directives).map VpContext.vpIndex = List.range vcpus
  vmsas : out.vmsaPages =
    (contexts out.contents.directives).map fun c => padTo page (view.asBytes c.vmsa)
  topology : out.manifest.topology.sockets * out.manifest.topology.cores *
    out.manifest.topology.threadsPerCore = vcpus

/-- The ACPI page is one of the imported ones. -/
theorem Mapped.acpi_mem_pages (m : Mapped .snp blob kernelFile initramfs params) :
    (acpiBase, Acpi.build params.vcpus false) ∈ m.pages :=
  m.mem_pages_of_measured (Acpi.length_build _ _) m.mem_regions_acpi

theorem Mapped.contexts_eq (m : Mapped .snp blob kernelFile initramfs params)
    (hvalid : params.Valid) (signed : Option IdBlock) :
    Snp.contexts (m.directives signed) = (List.range params.vcpus).map fun i =>
      ⟨i, snpVmsa, if i = 0 then bspVmsa else apVmsa⟩ := by
  rw [m.contexts_directives, contexts_vpContexts, Nat.mod_eq_of_lt (vcpus_lt hvalid)]

/-- The measured VMSAs are those of the indices in order. -/
theorem vmsaPages_eq {vcpus : Nat} (hpos : 0 < vcpus) :
    vmsaPages view vcpus = (List.range vcpus).map fun i =>
      padTo page (view.asBytes (if i = 0 then bspVmsa else apVmsa)) := by
  have hpad : ∀ v, vmsaPage view v = padTo page (view.asBytes v) := fun v =>
    write_zeros (view.length_asBytes_le v)
  rw [vmsaPages, hpad, hpad, ← map_range_vmsa hpos]
  exact List.map_congr_left fun i _ => (apply_ite (fun v => padTo page (view.asBytes v)) _ _ _).symm

theorem SnpRun.snpProcessors_iff
    (run : SnpRun crate hashes view p384 blob kernelFile initramfs params configHash idKey guestSvn)
    (hvalid : params.Valid) : SnpProcessors view params.vcpus run.built ↔ params.vcpus ≤ 255 := by
  have hcontexts := run.contexts_eq hvalid run.signed
  have hcores : 1 * (params.vcpus % 2 ^ 8) * 1 = params.vcpus ↔ params.vcpus ≤ 255 := by omega
  constructor
  · intro h
    exact hcores.mp h.topology
  · intro hle
    refine ⟨⟨_, ?_, rfl, (namesProcessors_iff hvalid.vcpus_le).mpr (by omega)⟩, ?_, ?_,
      hcores.mpr hle⟩
    · rw [run.pagesByAddress_built]
      exact run.acpi_mem_pages
    · have hindex : (Snp.contexts (run.directives run.signed)).map VpContext.vpIndex =
          List.range params.vcpus := by
        rw [hcontexts, List.map_map]
        exact List.map_id _
      exact hindex
    · have hvmsas : vmsaPages view params.vcpus =
          (Snp.contexts (run.directives run.signed)).map fun c => padTo page (view.asBytes c.vmsa) := by
        rw [hcontexts, List.map_map]
        exact vmsaPages_eq hvalid.vcpus_pos
      exact hvmsas

/-! ## Agreement -/

/-- The descriptions of the processors agree on a TDX guest of up to 256 processors and in
    an SNP image of up to 255, and on no larger one. -/
theorem processors_agree_iff (ram : UInt64) (vcpus : UInt32) (cmdline : List Char)
    (mmio : List (UInt64 × UInt64)) (params : Params) :
    (Params.tdx ram vcpus cmdline mmio = .ok params →
      (NamesProcessors (Acpi.build params.vcpus true) params.vcpus ↔ vcpus.toNat ≤ 256)) ∧
    ∀ (crate : Crate) (hashes : Hashes) (view : VmsaView) (p384 : P384) (blob : ShimBlob)
        (kernelFile initramfs : List UInt8) (configHash idKey : Option (List Char))
        (guestSvn : UInt32) (cbit : UInt8) (out : Snp.Built),
      Params.snp ram vcpus cbit cmdline mmio = .ok params →
      Snp.build crate hashes view p384 blob kernelFile initramfs params configHash idKey guestSvn =
        .ok out →
      (SnpProcessors view params.vcpus out ↔ vcpus.toNat ≤ 255) := by
  constructor
  · intro hparams
    have hvcpus : params.vcpus = vcpus.toNat := congrArg Params.vcpus (Params.new_eq_ok.mp hparams).eq
    rw [← hvcpus]
    exact namesProcessors_iff (Params.valid_of_tdx hparams).vcpus_le
  · intro crate hashes view p384 blob kernelFile initramfs configHash idKey guestSvn cbit out hparams
      hbuild
    have hvcpus : params.vcpus = vcpus.toNat := congrArg Params.vcpus (Params.new_eq_ok.mp hparams).eq
    obtain ⟨run, rfl⟩ := snp_build_eq_ok.mp hbuild
    rw [← hvcpus]
    exact run.snpProcessors_iff (Params.valid_of_snp hparams)

/-- Four processors on TDX, two on SNP. -/
theorem processors_agree_sample :
    NamesProcessors (Acpi.build 4 true) 4 ∧
    ∃ crate out, Snp.build crate Sample.hashes Sample.view Sample.p384 Sample.blob
        Sample.kernelFile [1] (Sample.params 2 51 []) none none 0 = .ok out ∧
      SnpProcessors Sample.view 2 out := by
  constructor
  · have hparams : Params.tdx 0x40000000 4 [] [] = .ok (Sample.params 4 51 []) := by decide +kernel
    exact ((processors_agree_iff _ _ _ _ _).1 hparams).mpr (by decide)
  · obtain ⟨m⟩ : Nonempty (Mapped .snp Sample.blob Sample.kernelFile [1] (Sample.params 2 51 [])) :=
      Sample.nonempty_mapped .snp 2 51 (by decide) nofun .nil (by decide)
    have hparams : Params.snp 0x40000000 2 51 [] [] = .ok (Sample.params 2 51 []) := by
      decide +kernel
    obtain ⟨out, hout⟩ := Sample.exists_snp_build m
    exact ⟨_, out, hout, ((processors_agree_iff _ _ _ _ _).2 _ _ _ _ _ _ _ _ _ _ _ _ hparams
      hout).mpr (by decide)⟩

/-- Of 257 processors two have one APIC ID, and 256 cores are counted as none. -/
theorem not_processors_agree_of_257 :
    (∃ params, Params.tdx 0x40000000 257 [] [] = .ok params ∧
      ¬ NamesProcessors (Acpi.build params.vcpus true) params.vcpus) ∧
    ∃ crate params out, Params.snp 0x40000000 256 51 [] [] = .ok params ∧
      Snp.build crate Sample.hashes Sample.view Sample.p384 Sample.blob Sample.kernelFile [1] params
        none none 0 = .ok out ∧
      out.manifest.topology.cores = 0 ∧ ¬ SnpProcessors Sample.view params.vcpus out := by
  constructor
  · refine ⟨Sample.params 257 51 [], by decide +kernel, fun h => ?_⟩
    exact absurd ((namesProcessors_iff (by decide)).mp h) (by decide)
  · obtain ⟨m⟩ : Nonempty (Mapped .snp Sample.blob Sample.kernelFile [1] (Sample.params 256 51 [])) :=
      Sample.nonempty_mapped .snp 256 51 (by decide) nofun .nil (by decide)
    have hparams : Params.snp 0x40000000 256 51 [] [] = .ok (Sample.params 256 51 []) := by
      decide +kernel
    obtain ⟨out, hout⟩ := Sample.exists_snp_build m
    obtain ⟨run, rfl⟩ := snp_build_eq_ok.mp hout
    refine ⟨_, _, _, hparams, hout, rfl, fun h => ?_⟩
    exact absurd ((run.snpProcessors_iff (Params.valid_of_snp hparams)).mp h) (by decide)

end BootShim.Pipeline
