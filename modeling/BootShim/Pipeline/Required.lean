-- SUMMARY: The memory an SNP image asks its loader for is the memory its E820 map claims.
import BootShim.Pipeline.Memory
import BootShim.Snp.Required

/-!
# Required memory of an image

The E820 map an SNP builder derives has entries that ascend on page boundaries, so the
directives made from it ask for the memory it claims: nothing inside an aperture and
every claimed page in one piece. A file has no other directives of this kind.
-/

namespace BootShim.Pipeline

open Boot Bytes Igvm Image Layout Snp

variable {kernelFile initramfs : List UInt8} {params : Params}

/-- What a loader is asked for is what E820 claims, page by page and outside the apertures. -/
structure MemoryRequired (params : Params) (e820 : List (Nat × Nat × Nat))
    (directives : List Directive) : Prop extends RequiresExactly e820 directives where
  outside : ∀ a, InAperture params.mmio a → ¬ Requires directives a
  whole : ∀ a, a % page = 0 → (∃ e ∈ e820, EntryHolds e a) →
    ∃ d ∈ directives, ∃ r ∈ requiredRange d, r.1 ≤ a ∧ a + page ≤ r.2

/-- The RequiredMemory directives of a file are these and no others. -/
def OnlyRequires (file : File) (directives : List Directive) : Prop :=
  ∃ rest, file.directives = directives ++ rest ∧ ∀ d ∈ rest, requiredRange d = none

/-- Directives on page boundaries hold a page whole or not at all. -/
theorem Validated.memoryRequired (v : Validated .snp kernelFile initramfs params)
    (hvalid : params.Valid) (hstraight : Straight params) :
    MemoryRequired params v.e820 (requiredMemory v.e820) := by
  have hexact : RequiresExactly v.e820 (requiredMemory v.e820) :=
    requiresExactly_requiredMemory (v.e820_pos hstraight) (v.pairwise_e820 hstraight)
      (v.e820_aligned hvalid)
  refine ⟨hexact, fun a haperture hrequires => ?_, fun a halign hclaimed => ?_⟩
  · exact ((v.claimed_iff hstraight).mp ((hexact.union a).mp hrequires)).2 haperture
  · obtain ⟨d, hd, r, hr, hlo, hhi⟩ := (hexact.union a).mpr hclaimed
    refine ⟨d, hd, r, hr, hlo, ?_⟩
    obtain ⟨gpa, bytes, rfl, hgpa, hbytes, -⟩ := hexact.stated d hd
    obtain rfl : (gpa, gpa + bytes) = r := Option.some.inj hr
    simp only [page] at *
    omega

/-- Pages, processors and the signed block ask for no memory. -/
theorem Mapped.onlyRequires {blob : ShimBlob} (m : Mapped .snp blob kernelFile initramfs params)
    (signed : Option IdBlock) :
    OnlyRequires (Snp.igvmFile (m.directives signed)) (requiredMemory m.e820) := by
  refine ⟨m.launchPages.map (fun p => pageDirective p.gpa p.kind p.data) ++
    (vpContexts params.vcpus ++
      (signed.map fun block => Directive.snpIdBlock block.header).toList), ?_, fun d hd => ?_⟩
  · change m.directives signed = _
    rw [Mapped.directives, List.append_assoc, List.append_assoc]
  · rcases List.mem_append.mp hd with hd | hd
    · obtain ⟨l, -, rfl⟩ := List.mem_map.mp hd
      rfl
    · rcases List.mem_append.mp hd with hd | hd
      · obtain ⟨i, -, rfl⟩ := List.mem_map.mp hd
        rfl
      · cases signed with
        | none => cases hd
        | some block =>
          obtain rfl := List.mem_singleton.mp hd
          rfl

/-- For every E820 map an SNP build derives, the directives ask for exactly what it claims,
    and a file that comes out has no others. -/
theorem requiredMemory_exact {ram : UInt64} {vcpus : UInt32} {cbit : UInt8} {cmdline : List Char}
    {mmio : List (UInt64 × UInt64)} (hparams : Params.snp ram vcpus cbit cmdline mmio = .ok params)
    (hmmio : ∀ g ∈ mmio, g.1.toNat + g.2.toNat < 2 ^ 64)
    (v : Validated .snp kernelFile initramfs params) :
    MemoryRequired params v.e820 (requiredMemory v.e820) ∧
      ∀ (crate : Crate) (hashes : Hashes) (view : VmsaView) (p384 : P384) (blob : ShimBlob)
        (configHash idKey : Option (List Char)) (guestSvn : UInt32) (out : Snp.Built),
        Snp.build crate hashes view p384 blob kernelFile initramfs params configHash idKey
          guestSvn = .ok out →
        out.e820 = v.e820 ∧ OnlyRequires out.contents (requiredMemory v.e820) := by
  have hstraight : Straight params :=
    straight_of_admitted (Params.new_eq_ok.mp hparams) le_rfl fun g hg =>
      Nat.not_le.mpr (hmmio g hg)
  refine ⟨v.memoryRequired (Params.valid_of_snp hparams) hstraight, ?_⟩
  intro crate hashes view p384 blob configHash idKey guestSvn out hout
  obtain ⟨run, rfl⟩ := snp_build_eq_ok.mp hout
  have hp : v.p = run.p := Except.ok.inj (v.prepare_ok.symm.trans run.prepare_ok)
  have he820 : run.e820 = v.e820 := by
    rw [← run.e820_blank, Validated.e820, hp]
  rw [run.built_e820, SnpRun.built, ← he820]
  exact ⟨rfl, run.onlyRequires run.signed⟩

/-- The RAM above the upper hole of the large guest is one entry of its map. -/
theorem Sample.mem_e820_split (v : Validated .snp Sample.kernelFile [1] (splitParams fourGib)) :
    (0x140001000, 0x33ffff000, ram) ∈ v.e820 := by
  have hp : v.p = prepared Sample.kernelFile [1] (splitParams fourGib) ⟨1024, 0x100000, 2048⟩ :=
    Except.ok.inj (v.prepare_ok.symm.trans
      (prepare_eq_ok parse_kernelFile (by decide +kernel) (by decide) (by decide) length_cmdline))
  have hkernel : kernelEnd v.p.kernel = 0x1001000 := by
    rw [hp]
    decide +kernel
  have hinitramfs : initramfsEnd v.p.initramfs = initramfsBase + page := by
    rw [hp]
    decide +kernel
  have htiles : (Platform.snp.blank v.p (splitParams fourGib)).map Placed.tile =
      Platform.snp.footprint 0x1001000 (initramfsBase + page) ++
        (apertures (splitParams fourGib)).map Placed.tile := by
    rw [Platform.blank, Platform.map, List.map_append,
      map_tile_regions v.sized (length_zeros _) (length_zeros _), hkernel, hinitramfs]
  rw [Validated.e820, Boot.e820, spans, htiles]
  decide +kernel

/-- A guest with RAM on both sides of its PCI aperture, a page of hole in either part. One
    entry of its map is longer than a directive can state. -/
theorem requiredMemory_exact_sample :
    ∃ v : Validated .snp Sample.kernelFile [1] (Sample.splitParams fourGib),
      MemoryRequired (Sample.splitParams fourGib) v.e820 (requiredMemory v.e820) ∧
        (∃ e ∈ v.e820, 2 ^ 32 ≤ e.2.1) ∧
          ∃ crate out, Snp.build crate Sample.hashes Sample.view Sample.p384 Sample.blob
              Sample.kernelFile [1] (Sample.splitParams fourGib) none none 0 = .ok out ∧
            out.e820 = v.e820 ∧ OnlyRequires out.contents (requiredMemory v.e820) := by
  obtain ⟨m⟩ := Sample.nonempty_mapped_split.2
  obtain ⟨out, hout⟩ := Sample.exists_snp_build m
  have hrequired := requiredMemory_exact Sample.snp_split_eq_ok Sample.splitHoles_lt m.toValidated
  exact ⟨m.toValidated, hrequired.1,
    ⟨_, Sample.mem_e820_split m.toValidated, by decide⟩,
    _, out, hout, hrequired.2 _ _ _ _ _ _ _ _ out hout⟩

end BootShim.Pipeline
