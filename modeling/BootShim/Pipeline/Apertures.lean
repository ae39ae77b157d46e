-- SUMMARY: What the arithmetic on a declared aperture's ends has to guarantee, and that it does when none wraps.
import BootShim.Pipeline.Coverage

/-!
# Aperture arithmetic

`Params::new` bounds an aperture by its end, and the sweeps over the map take every
span to end past its start. The end is a 64-bit sum: for an aperture whose end does not
fit it wraps to a small number, which passes the bound.
-/

namespace BootShim.Pipeline

open Boot Image Layout

/-- Both lists follow each other from entry to entry. -/
structure Ascending (e820 : List (Nat × Nat × Nat)) (accept : List (Nat × Nat)) : Prop where
  e820 : e820.Pairwise fun e f => e.1 + e.2.1 ≤ f.1
  accept : accept.Pairwise fun r s => r.2 ≤ s.1

/-- The apertures lie in the map by their plain sums, and so every map built over them is
    made of intervals that validation separates and whose sweeps ascend. -/
structure ApertureArithmetic (pf : Platform) (params : Params) : Prop where
  bounds : ∀ h ∈ params.mmio, h.1 + h.2 < 2 ^ 64 ∧ h.1 < h.1 + h.2 ∧ h.1 + h.2 ≤ params.memory
  spans : ∀ {kernelFile initramfs : List UInt8} {p : Prepared} {zero shim : List UInt8},
    prepare kernelFile initramfs params = .ok p → zero.length = page → shim.length = page →
      ∀ s ∈ spans (pf.map p params zero shim), s.lo < s.hi
  disjoint : ∀ {kernelFile initramfs : List UInt8} {p : Prepared} {zero shim : List UInt8},
    prepare kernelFile initramfs params = .ok p → zero.length = page → shim.length = page →
      validate (pf.map p params zero shim) params.memory = .ok () →
        (pf.map p params zero shim).Pairwise fun q r => ∀ a, ¬ (q.tile.Mem a ∧ r.tile.Mem a)
  ascending : ∀ {kernelFile initramfs : List UInt8} {p : Prepared} {zero shim : List UInt8},
    prepare kernelFile initramfs params = .ok p → zero.length = page → shim.length = page →
      Ascending (e820 (pf.map p params zero shim) params.memory)
        (acceptRanges (pf.map p params zero shim) params.memory)

/-- The sweeps over an upright map ascend. -/
theorem ascending_of_upright {placed : List Placed} {memory : Nat} (h : Upright placed) :
    Ascending (e820 placed memory) (acceptRanges placed memory) where
  e820 := by
    have hcan : Tile.Canonical ((Boot.e820 placed memory).map entryTile) := (canonical_e820 h).1
    have hasc := hcan.ascending
    rw [List.pairwise_map] at hasc
    exact hasc
  accept := by
    have hcan : Tile.Canonical ((acceptRanges placed memory).map rangeTile) :=
      canonical_acceptRanges h
    have hasc := hcan.ascending
    rw [List.pairwise_map] at hasc
    exact hasc

theorem straight_of_not_wraps {params : Params} (hvalid : params.Valid)
    (h : ∀ g ∈ params.mmio, ¬ Params.Wraps g) : Straight params := fun g hg =>
  ⟨Nat.pos_of_ne_zero (hvalid.hole_aligned g hg).2.2, h g hg⟩

/-- Admitted apertures that do not wrap satisfy all of it. -/
theorem apertureArithmetic_of_straight {pf : Platform} {params : Params} (hvalid : params.Valid)
    (hstraight : Straight params) : ApertureArithmetic pf params where
  bounds h hh := by
    obtain ⟨hpos, hw⟩ := hstraight h hh
    have hle := hvalid.hole_le h hh
    have hsum : h.1 + h.2 < 2 ^ 64 := Nat.lt_of_not_le hw
    rw [addU64_of_lt hsum] at hle
    exact ⟨hsum, by omega, hle⟩
  spans hp hzero hshim := (upright_map (sized_of_prepare hp) hzero hshim hstraight).spans
  disjoint _ _ _ hv := (apart_of_validate hv).imp fun hapart _ hmem => hapart.not_mem hmem.1 hmem.2
  ascending hp hzero hshim :=
    ascending_of_upright (upright_map (sized_of_prepare hp) hzero hshim hstraight)

/-- Among the apertures of an admitted guest only the operator's can wrap. -/
theorem not_wraps_of_admitted {ram vcpus cbit holeEnd : Nat} {cmdline : List Char}
    {mmio : List (Nat × Nat)} {params : Params}
    (h : Params.Admitted ram vcpus cmdline cbit mmio holeEnd params) (hend : holeEnd ≤ fourGib)
    (hmmio : ∀ g ∈ mmio, ¬ Params.Wraps g) : ∀ g ∈ params.mmio, ¬ Params.Wraps g := by
  obtain rfl := h.eq
  intro g hg
  rcases List.mem_append.mp hg with hg | hg
  · simp only [Params.pciHole] at hg
    split at hg
    · obtain rfl := List.mem_singleton.mp hg
      simp only [Params.Wraps, q35Lowmem, fourGib, gib] at *
      omega
    · exact absurd hg List.not_mem_nil
  · exact hmmio g hg

/-- The operator's holes decide it. -/
theorem straight_of_admitted {ram vcpus cbit holeEnd : Nat} {cmdline : List Char}
    {mmio : List (UInt64 × UInt64)} {params : Params}
    (h : Params.Admitted ram vcpus cmdline cbit (mmio.map Params.holeToNat) holeEnd params)
    (hend : holeEnd ≤ fourGib) (hmmio : ∀ g ∈ mmio, ¬ Params.Wraps (Params.holeToNat g)) :
    Straight params := by
  apply straight_of_not_wraps (h.valid (hend.trans_lt (by decide)))
  exact not_wraps_of_admitted h hend (List.forall_mem_map.mpr hmmio)

private theorem apertureArithmetic_iff {pf : Platform} {ram vcpus cbit holeEnd : Nat}
    {cmdline : List Char} {mmio : List (UInt64 × UInt64)} {params : Params}
    (h : Params.Admitted ram vcpus cmdline cbit (mmio.map Params.holeToNat) holeEnd params)
    (hend : holeEnd ≤ fourGib) :
    ApertureArithmetic pf params ↔ ∀ g ∈ mmio, g.1.toNat + g.2.toNat < 2 ^ 64 := by
  have hvalid := h.valid (hend.trans_lt (by decide))
  constructor
  · intro harith g hg
    have hmem : Params.holeToNat g ∈ params.mmio := by
      rw [h.eq]
      exact List.mem_append_right _ (List.mem_map_of_mem hg)
    exact (harith.bounds _ hmem).1
  · intro hmmio
    have hstraight := straight_of_admitted h hend fun g hg => Nat.not_le.mpr (hmmio g hg)
    exact apertureArithmetic_of_straight hvalid hstraight

/-- The arithmetic on the apertures of an admitted guest is sound exactly when no declared
    aperture ends past 64 bits, on both platforms. -/
theorem admitted_apertureArithmetic_iff (ram : UInt64) (vcpus : UInt32) (cmdline : List Char)
    (mmio : List (UInt64 × UInt64)) (params : Params) :
    (Params.tdx ram vcpus cmdline mmio = .ok params →
      (ApertureArithmetic .tdx params ↔ ∀ g ∈ mmio, g.1.toNat + g.2.toNat < 2 ^ 64)) ∧
    ∀ cbit : UInt8, Params.snp ram vcpus cbit cmdline mmio = .ok params →
      (ApertureArithmetic .snp params ↔ ∀ g ∈ mmio, g.1.toNat + g.2.toNat < 2 ^ 64) :=
  ⟨fun h => apertureArithmetic_iff (Params.new_eq_ok.mp h) (by decide),
    fun _ h => apertureArithmetic_iff (Params.new_eq_ok.mp h) (by decide)⟩

/-- One page of aperture at 768 MiB. -/
theorem admitted_apertureArithmetic_sample :
    ApertureArithmetic .tdx (Sample.params 1 51 [(0x30000000, 0x1000)]) ∧
      ApertureArithmetic .snp (Sample.params 1 51 [(0x30000000, 0x1000)]) :=
  ⟨((admitted_apertureArithmetic_iff 0x40000000 1 [] [(0x30000000, 0x1000)] _).1
      (by decide +kernel)).mpr (List.forall_mem_singleton.mpr (by decide)),
    ((admitted_apertureArithmetic_iff 0x40000000 1 [] [(0x30000000, 0x1000)] _).2 51
      (by decide +kernel)).mpr (List.forall_mem_singleton.mpr (by decide))⟩

/-- An aperture of all but one page of the 64-bit space is admitted, and ends past it. -/
theorem not_apertureArithmetic_of_wrap :
    ∃ params, Params.tdx 0x40000000 1 [] [(0x10000, 0xfffffffffffff000)] = .ok params ∧
      ¬ ApertureArithmetic .tdx params := by
  refine ⟨Sample.params 1 51 [(0x10000, 0xfffffffffffff000)], by decide +kernel, fun h => ?_⟩
  exact absurd (h.bounds _ List.mem_cons_self).1 (by decide)

end BootShim.Pipeline
