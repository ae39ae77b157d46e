-- SUMMARY: A build up to its validated map, and which addresses the E820 map it derives claims.
import BootShim.Boot.Exact
import BootShim.Pipeline.Apertures

/-!
# Claimed memory

A builder derives the E820 map from the map it has validated, before it has packed the
two pages that describe it. Of the addresses below the top of the map E820 claims those
outside every aperture: no region of the builder's own is left out.
-/

namespace BootShim.Pipeline

open Boot Bytes Image Layout

variable {pf : Platform} {kernelFile initramfs : List UInt8} {params : Params}

/-- Without wrapped apertures E820 claims what lies below the top and in no aperture. -/
theorem claimed_iff {p : Prepared} {zero shim : List UInt8} (hsized : Sized p params.memory)
    (hzero : zero.length = page) (hshim : shim.length = page) (hstraight : Straight params)
    (hv : validate (pf.map p params zero shim) params.memory = .ok ()) {a : Nat} :
    (∃ e ∈ e820 (pf.map p params zero shim) params.memory, EntryHolds e a) ↔
      a < params.memory ∧ ¬ InAperture params.mmio a := by
  have hup : Upright (pf.map p params zero shim) := upright_map hsized hzero hshim hstraight
  have hfoot : ∀ t ∈ pf.footprint (kernelEnd p.kernel) (initramfsEnd p.initramfs),
      t.tag ≠ absent := by
    cases pf <;> simp [Platform.footprint]
  have hleft : (∃ q ∈ pf.map p params zero shim, q.e820 = absent ∧ q.tile.Mem a) ↔
      InAperture params.mmio a := by
    constructor
    · rintro ⟨q, hq, habsent, hmem⟩
      rcases List.mem_append.mp hq with hq | hq
      · have htile : q.tile ∈ (pf.regions p params zero shim).map Placed.tile :=
          List.mem_map_of_mem hq
        rw [map_tile_regions hsized hzero hshim] at htile
        exact absurd habsent (hfoot _ htile)
      · obtain ⟨h, hh, rfl⟩ := mem_apertures.mp hq
        rw [tile_mmio_of_not_wraps (hstraight h hh).2] at hmem
        exact ⟨h, hh, hmem⟩
    · rintro ⟨h, hh, hmem⟩
      refine ⟨.mmio h.1 h.2, ?_, rfl, ?_⟩
      · exact List.mem_append_right _ (mem_apertures.mpr ⟨h, hh, rfl⟩)
      · rw [tile_mmio_of_not_wraps (hstraight h hh).2]
        exact hmem
  rw [exists_entryHolds_iff]
  constructor
  · rintro ⟨k, hcov⟩
    have ha : a < params.memory := ((covers_e820 hup hv).mp hcov).1
    refine ⟨ha, fun haperture => ?_⟩
    exact (not_covers_e820_iff hup hv ha).mpr (hleft.mpr haperture) k hcov
  · rintro ⟨ha, hno⟩
    by_contra hnone
    refine hno (hleft.mp ((not_covers_e820_iff hup hv ha).mp fun k hcov => hnone ⟨k, hcov⟩))

/-! ## Validated maps -/

/-- A build as far as its blank map has been validated. -/
structure Validated (pf : Platform) (kernelFile initramfs : List UInt8) (params : Params) where
  p : Prepared
  prepare_ok : prepare kernelFile initramfs params = .ok p
  validate_ok : validate (pf.blank p params) params.memory = .ok ()

namespace Validated

variable (v : Validated pf kernelFile initramfs params)

/-- The E820 map the builder goes on with, whether or not the build succeeds. -/
def e820 : List (Nat × Nat × Nat) := Boot.e820 (pf.blank v.p params) params.memory

theorem sized : Sized v.p params.memory := sized_of_prepare v.prepare_ok

theorem upright (hstraight : Straight params) : Upright (pf.blank v.p params) :=
  upright_map v.sized (length_zeros _) (length_zeros _) hstraight

theorem claimed_iff (hstraight : Straight params) {a : Nat} :
    (∃ e ∈ v.e820, EntryHolds e a) ↔ a < params.memory ∧ ¬ InAperture params.mmio a :=
  Pipeline.claimed_iff v.sized (length_zeros _) (length_zeros _) hstraight v.validate_ok

theorem e820_pos (hstraight : Straight params) : ∀ e ∈ v.e820, 0 < e.2.1 := by
  intro e he
  have hcan : Tile.Canonical ((Boot.e820 (pf.blank v.p params) params.memory).map entryTile) :=
    (canonical_e820 (v.upright hstraight)).1
  have hlt : e.1 < e.1 + e.2.1 := hcan.nonempty _ (List.mem_map_of_mem he)
  exact Nat.lt_add_right_iff_pos.mp hlt

theorem pairwise_e820 (hstraight : Straight params) :
    v.e820.Pairwise fun e f => e.1 + e.2.1 ≤ f.1 :=
  (ascending_of_upright (v.upright hstraight)).e820

theorem e820_aligned (hvalid : params.Valid) :
    ∀ e ∈ v.e820, e.1 % page = 0 ∧ (e.1 + e.2.1) % page = 0 := fun _ he =>
  aligned_of_mem_e820 (aligned_of_valid v.sized (length_zeros _) (length_zeros _) hvalid)
    hvalid.memory_aligned he

end Validated

/-- A mapped image has passed that point. -/
def Mapped.toValidated {blob : ShimBlob} (m : Mapped pf blob kernelFile initramfs params) :
    Validated pf kernelFile initramfs params := ⟨m.p, m.prepare_ok, m.validate_ok⟩

theorem Mapped.toValidated_e820 {blob : ShimBlob} (m : Mapped pf blob kernelFile initramfs params) :
    m.toValidated.e820 = m.e820 := m.e820_blank

end BootShim.Pipeline
