-- SUMMARY: What a published digest says of a build: without collisions, two images with one digest are for one guest.
import BootShim.Image.Mrtd
import BootShim.Lib.Numeral
import BootShim.Pipeline.Binding
import BootShim.Pipeline.Digest
import BootShim.Snp.Chain

/-!
# From a digest to a guest

The digest commits to the pages, and the pages to the guest. What is left is that a build
measures pages the commitments speak of: whole ones on page boundaries, of the kinds a
launch has.
-/

namespace BootShim.Pipeline

open Boot Bytes Checked Igvm Image Layout Snp

variable {crate : Crate} {hashes : Hashes} {view : VmsaView} {p384 : P384} {pf : Platform}
  {blob : ShimBlob} {kernelFile initramfs : List UInt8} {params : Params}

/-! ## The pages of a build -/

namespace Mapped

/-- Every page ends in the first 512 GiB. -/
theorem page_lt (m : Mapped pf blob kernelFile initramfs params) (hvalid : params.Valid)
    {x : Nat × List UInt8} (hx : x ∈ m.pages) : x.1 < mapLimit := by
  obtain ⟨q, hq, hxq⟩ := List.mem_flatMap.mp hx
  obtain ⟨-, hlo, hhi⟩ := (m.fits hq).of_mem_contents hxq
  rcases m.region_le hvalid hq with hle | ⟨-, htile⟩
  · exact hhi.trans_le (hle.trans hvalid.memory_le)
  · rw [htile] at hhi
    exact hhi.trans (by decide)

theorem measurable_pages (m : Mapped pf blob kernelFile initramfs params)
    (hvalid : params.Valid) : Mrtd.Measurable m.pages := fun _ hx =>
  ⟨m.length_of_mem_pages hx, m.aligned_of_mem_pages hx, (m.page_lt hvalid hx).trans (by decide)⟩

theorem launchable_launchPages (m : Mapped .snp blob kernelFile initramfs params)
    (hvalid : params.Valid) : ∀ l ∈ m.launchPages, Launchable l := by
  intro l hl
  have hmem : (l.gpa, l.data) ∈ m.pages := m.map_launchPages ▸ List.mem_map_of_mem hl
  refine ⟨(m.page_lt hvalid hmem).trans (by decide), ?_⟩
  obtain ⟨q, -, hlq⟩ := List.mem_flatMap.mp hl
  have hkind := kind_ne_cpuidXf hlq
  cases hl : l.kind with
  | normal => exact Or.inl rfl
  | secrets => exact Or.inr (Or.inl rfl)
  | cpuidData => exact Or.inr (Or.inr rfl)
  | cpuidXf => exact absurd hl hkind

end Mapped

/-- A page that is measured by its address alone is blank. -/
theorem data_of_special {q : Placed} {l : LaunchPage} (hl : l ∈ regionPages q)
    (hkind : l.kind ≠ .normal) : l.data = zeros page := by
  obtain ⟨base, name, k, fill⟩ := q
  cases fill with
  | measured d =>
    obtain ⟨x, -, rfl⟩ := List.mem_map.mp hl
    exact absurd rfl hkind
  | host =>
    simp only [regionPages] at hl
    split at hl <;>
      · obtain rfl := List.mem_singleton.mp hl
        rfl
  | mmio size => cases hl

/-- Where special pages are blank, pages that are measured alike are the same. -/
theorem eq_of_sameMeasured {ps qs : List LaunchPage}
    (hps : ∀ p ∈ ps, p.kind ≠ .normal → p.data = zeros page)
    (hqs : ∀ q ∈ qs, q.kind ≠ .normal → q.data = zeros page)
    (h : List.Forall₂ SameMeasured ps qs) : ps = qs := by
  induction h with
  | nil => rfl
  | @cons p q ps qs hpq _ ih =>
    rw [List.forall_mem_cons] at hps hqs
    obtain ⟨hgpa, hkind, hnormal⟩ := hpq
    have hdata : p.data = q.data := by
      cases Decidable.em (p.kind = .normal) with
      | inl hp => exact hnormal hp
      | inr hp => rw [hps.1 hp, hqs.1 (hkind ▸ hp)]
    have hhead : p = q := by
      cases p
      cases q
      cases hgpa
      cases hkind
      cases hdata
      rfl
    rw [hhead, ih hps.2 hqs.2]

/-! ## Digests -/

/-- Where SHA-384 does not collide on the two streams, one MRTD is of one guest. -/
theorem TdxBuild.sameConfiguration_of_mrtd (b b' : TdxBuild crate hashes blob)
    (hfree : hashes.sha384 (Mrtd.stream b.out.pages) = hashes.sha384 (Mrtd.stream b'.out.pages) →
      Mrtd.stream b.out.pages = Mrtd.stream b'.out.pages)
    (h : b.out.manifest.expectedMrtd = b'.out.manifest.expectedMrtd) :
    SameConfiguration b.toGuest b'.toGuest ∧ b.out.e820 = b'.out.e820 ∧
      b.out.accept = b'.out.accept := by
  apply b.sameConfiguration b'
  have hmeasured : ∀ b : TdxBuild crate hashes blob, Mrtd.Measurable b.out.pages ∧
      b.out.manifest.expectedMrtd = Text.hexEncode (hashes.sha384 (Mrtd.stream b.out.pages)) := by
    intro b
    obtain ⟨run, hrun⟩ := tdx_build_eq_ok.mp b.build_ok
    rw [← hrun]
    exact ⟨run.measurable_pages (Params.valid_of_tdx b.params_ok), rfl⟩
  obtain ⟨hpages, hmrtd⟩ := hmeasured b
  obtain ⟨hpages', hmrtd'⟩ := hmeasured b'
  rw [hmrtd, hmrtd'] at h
  exact (Mrtd.stream_eq_iff hpages hpages').mp (hfree (Text.hexEncode_injective h))

theorem sameConfiguration_of_mrtd_sample :
    ∃ crate, ∃ b b' : TdxBuild crate Sample.hashes Sample.blob, b.holes ≠ b'.holes ∧
      SameConfiguration b.toGuest b'.toGuest ∧ b.out.accept = b'.out.accept := by
  obtain ⟨crate, b, b', hne, hpages, hmrtd⟩ := Sample.exists_tdx_builds
  have hfree : Mrtd.stream b.out.pages = Mrtd.stream b'.out.pages := by rw [hpages]
  have hsame := TdxBuild.sameConfiguration_of_mrtd b b' (fun _ => hfree) hmrtd
  exact ⟨crate, b, b', hne, hsame.1, hsame.2.2⟩

/-- Where SHA-384 does not collide on what the two launches hash, one launch digest is of one
    guest. -/
theorem SnpBuild.sameConfiguration_of_measurement (b b' : SnpBuild crate hashes view p384 blob)
    (hfree : CollisionFree hashes (messages hashes b.out.pages b.out.vmsaPages ++
      messages hashes b'.out.pages b'.out.vmsaPages))
    (h : b.out.manifest.expectedSnpMeasurement = b'.out.manifest.expectedSnpMeasurement) :
    SameConfiguration b.toGuest b'.toGuest ∧ b.out.e820 = b'.out.e820 ∧
      b.out.accept = b'.out.accept ∧ b.cbit = b'.cbit := by
  apply b.sameConfiguration b'
  have hmeasured : ∀ b : SnpBuild crate hashes view p384 blob,
      (∀ l ∈ b.out.pages, Launchable l ∧ (l.kind ≠ .normal → l.data = zeros page)) ∧
        b.out.manifest.expectedSnpMeasurement =
          Text.hexEncode (launchMeasurement hashes b.out.pages b.out.vmsaPages) := by
    intro b
    obtain ⟨run, hrun⟩ := snp_build_eq_ok.mp b.build_ok
    rw [← hrun]
    refine ⟨fun l hl => ⟨run.launchable_launchPages (Params.valid_of_snp b.params_ok) l hl, ?_⟩, rfl⟩
    obtain ⟨q, -, hlq⟩ := List.mem_flatMap.mp hl
    exact data_of_special hlq
  obtain ⟨hpages, hdigest⟩ := hmeasured b
  obtain ⟨hpages', hdigest'⟩ := hmeasured b'
  rw [hdigest, hdigest'] at h
  have hsame := sameMeasured_of_launchMeasurement_eq (fun l hl => (hpages l hl).1)
    (fun l hl => (hpages' l hl).1) hfree (Text.hexEncode_injective h)
  exact eq_of_sameMeasured (fun l hl => (hpages l hl).2) (fun l hl => (hpages' l hl).2) hsame.1

end BootShim.Pipeline
