-- SUMMARY: The E820 map of a built image claims the RAM its machine has, byte for byte.
import BootShim.Lib.Runs
import BootShim.Pipeline.Memory

/-!
# Conservation of RAM

A q35 machine puts the RAM of a large guest in two pieces, below its PCI aperture and
from 4 GiB up. The parameters keep only the top of the map and a list of apertures; what
E820 claims is nevertheless the machine's RAM without the declared holes, and on TDX the
page a processor starts from. The bytes add up.
-/

namespace BootShim.Pipeline

open Boot Bytes Igvm Image Layout Params Snp

variable {pf : Platform} {kernelFile initramfs : List UInt8} {params : Params}

/-! ## The machine -/

/-- Where the PCI aperture of a split guest ends. -/
def Platform.holeEnd : Platform → Nat
  | .tdx => resetAlias
  | .snp => fourGib

/-- The RAM below the PCI aperture. -/
def lowRam (ram : Nat) : Nat := if ram < q35Split then ram else q35Lowmem

/-- The machine has RAM at the address. -/
def HasRam (ram a : Nat) : Prop :=
  a < lowRam ram ∨ (fourGib ≤ a ∧ a < fourGib + (ram - lowRam ram))

/-- The map has the page a TD starts from inside the PCI aperture's gap. -/
def HasReset (pf : Platform) (ram : Nat) : Prop := pf = .tdx ∧ q35Split ≤ ram

instance (pf : Platform) (ram : Nat) : Decidable (HasReset pf ram) :=
  inferInstanceAs (Decidable (_ ∧ _))

/-- The address lies in that page. -/
def InReset (pf : Platform) (ram a : Nat) : Prop :=
  HasReset pf ram ∧ resetAlias ≤ a ∧ a < resetAlias + page

/-- The address lies in the aperture a split guest has without asking. -/
def InPciHole (pf : Platform) (ram a : Nat) : Prop :=
  q35Split ≤ ram ∧ q35Lowmem ≤ a ∧ a < pf.holeEnd

/-- The bytes the reset page adds. -/
def resetBytes (pf : Platform) (ram : Nat) : Nat := if HasReset pf ram then page else 0

/-- E820 claims the RAM the machine has outside the declared holes, and the reset page. -/
structure Conserved (pf : Platform) (ram : Nat) (mmio : List (Nat × Nat))
    (e820 : List (Nat × Nat × Nat)) : Prop where
  claimed : ∀ a, (∃ e ∈ e820, EntryHolds e a) ↔
    (HasRam ram a ∧ ¬ InAperture mmio a) ∨ InReset pf ram a
  total : (e820.map fun e => e.2.1).sum + (mmio.map fun h => h.2).sum = ram + resetBytes pf ram

/-- The map ends in reach of the page tables, and every difference that leads there is one
    of natural numbers. -/
structure AddsUp (ram holeEnd memory : Nat) : Prop where
  memory_le : memory ≤ mapLimit
  low : q35Lowmem ≤ fourGib + ram
  sum : fourGib + ram < 2 ^ 64
  hole : q35Lowmem ≤ holeEnd
  limit : fourGib ≤ mapLimit

theorem addsUp_of_admitted {ram vcpus cbit : Nat} {cmdline : List Char} {mmio : List (Nat × Nat)}
    (h : Admitted ram vcpus cmdline cbit mmio pf.holeEnd params) :
    AddsUp ram pf.holeEnd params.memory := by
  have hle := h.ram_le
  have hhole : q35Lowmem ≤ pf.holeEnd := by cases pf <;> decide
  obtain rfl := h.eq
  refine ⟨?_, ?_, ?_, hhole, by decide⟩
  · simp only [mapTop, mapLimit, maxRam, fourGib, gib, q35Lowmem, q35Split] at *
    split <;> omega
  · simp only [fourGib, gib, q35Lowmem]
    omega
  · simp only [mapLimit, maxRam, fourGib, gib, q35Lowmem] at *
    omega

/-! ## Addresses -/

theorem inAperture_append {mmio mmio' : List (Nat × Nat)} {a : Nat} :
    InAperture (mmio ++ mmio') a ↔ InAperture mmio a ∨ InAperture mmio' a := by
  simp only [InAperture, List.mem_append, or_and_right, exists_or]

theorem inAperture_pciHole_iff {ram a : Nat} :
    InAperture (pciHole ram pf.holeEnd) a ↔ InPciHole pf ram a := by
  have hend : q35Lowmem ≤ pf.holeEnd := by cases pf <;> decide
  unfold InAperture pciHole InPciHole
  split
  · next hsplit =>
    simp only [List.mem_singleton, exists_eq_left]
    omega
  · next hsplit => simp [hsplit]

variable (pf) in
/-- Below the top of the map lie the RAM, the PCI aperture and what is behind its end. -/
theorem lt_mapTop_iff {ram a : Nat} :
    a < mapTop ram ↔ HasRam ram a ∨ InPciHole pf ram a ∨ InReset pf ram a := by
  unfold HasRam InPciHole InReset HasReset lowRam mapTop Platform.holeEnd
  cases pf <;> simp only [fourGib, gib, q35Lowmem, q35Split, resetAlias, page, reduceCtorEq,
    true_and, false_and, or_false]
  · split_ifs <;> omega
  · split_ifs <;> omega

variable (pf) in
theorem not_inPciHole {ram a : Nat} (h : HasRam ram a ∨ InReset pf ram a) :
    ¬ InPciHole pf ram a := by
  revert h
  unfold HasRam InPciHole InReset HasReset lowRam Platform.holeEnd
  cases pf <;> simp only [fourGib, gib, q35Lowmem, q35Split, resetAlias, page, reduceCtorEq,
    true_and, false_and, or_false]
  · split_ifs <;> omega
  · split_ifs <;> omega

/-! ## A validated map -/

/-- No two apertures of a validated map meet. -/
theorem Validated.pairwise_mmio (v : Validated pf kernelFile initramfs params)
    (hstraight : Straight params) :
    params.mmio.Pairwise fun g h => g.1 + g.2 ≤ h.1 ∨ h.1 + h.2 ≤ g.1 := by
  have hmap : (pf.blank v.p params).Pairwise fun q r => q.tile.Apart r.tile :=
    apart_of_validate v.validate_ok
  rw [Platform.blank, Platform.map, List.pairwise_append] at hmap
  have hholes := hmap.2.1
  rw [apertures, List.pairwise_map] at hholes
  refine hholes.imp_of_mem fun {g h} hg hh hgh => ?_
  rw [tile_mmio_of_not_wraps (hstraight g hg).2, tile_mmio_of_not_wraps (hstraight h hh).2] at hgh
  exact hgh

/-- A TD's reset page is in no aperture. -/
theorem Validated.not_inAperture_reset (v : Validated .tdx kernelFile initramfs params)
    (hstraight : Straight params) {a : Nat} (hlo : resetAlias ≤ a) (hhi : a < resetAlias + page) :
    ¬ InAperture params.mmio a := by
  rintro ⟨h, hh, hmem⟩
  have htile : (⟨resetAlias, resetAlias + page, reserved⟩ : Tile Nat Nat) ∈
      (Platform.tdx.regions v.p params (zeros page) (zeros page)).map Placed.tile := by
    rw [map_tile_regions v.sized (length_zeros _) (length_zeros _)]
    simp [Platform.footprint]
  obtain ⟨q, hq, hqtile⟩ := List.mem_map.mp htile
  have hhole : .mmio h.1 h.2 ∈ apertures params := mem_apertures.mpr ⟨h, hh, rfl⟩
  have heq : q = .mmio h.1 h.2 := by
    refine tile_eq_of_mem v.validate_ok (List.mem_append_left _ hq)
      (List.mem_append_right _ hhole) (a := a) ?_ ?_
    · rw [hqtile]
      exact ⟨hlo, hhi⟩
    · rw [tile_mmio_of_not_wraps (hstraight h hh).2]
      exact hmem
  have hmmio := isMmio_of_mem_regions hq
  rw [heq, isMmio_of_mem_apertures hhole] at hmmio
  exact absurd hmmio (by decide)

/-! ## The sum -/

/-- The RAM of the machine and the reset page, as intervals. -/
def ramTiles (pf : Platform) (ram : Nat) : List (Tile Nat Unit) :=
  ⟨0, lowRam ram, ()⟩ :: ⟨fourGib, fourGib + (ram - lowRam ram), ()⟩ ::
    if HasReset pf ram then [⟨resetAlias, resetAlias + page, ()⟩] else []

theorem lowRam_le (ram : Nat) : lowRam ram ≤ ram ∧ lowRam ram ≤ q35Split := by
  unfold lowRam
  simp only [q35Split, q35Lowmem, gib]
  split <;> omega

theorem pairwise_ramTiles (pf : Platform) (ram : Nat) :
    (ramTiles pf ram).Pairwise Tile.Apart := by
  have hlow := (lowRam_le ram).2
  unfold ramTiles
  simp only [q35Split, fourGib, gib, resetAlias, page] at *
  split <;> simp [Tile.Apart] <;> omega

theorem extent_ramTiles (pf : Platform) (ram : Nat) :
    Tile.extent (ramTiles pf ram) = ram + resetBytes pf ram := by
  have hlow := (lowRam_le ram).1
  unfold ramTiles resetBytes Tile.extent
  simp only [fourGib, gib, resetAlias, page]
  split <;> simp <;> omega

theorem mem_ramTiles_iff {pf : Platform} {ram a : Nat} : a ∈ Tile.points (ramTiles pf ram) ↔
    HasRam ram a ∨ InReset pf ram a := by
  rw [Tile.mem_points, ramTiles, HasRam, InReset]
  split
  · next hreset => simp [Tile.Mem, hreset, or_assoc]
  · next hreset => simp [Tile.Mem, hreset]

/-- Lists that ascend and between them make up the machine's RAM have its size. -/
theorem total_eq {ram : Nat} {mmio : List (Nat × Nat)} {e820 : List (Nat × Nat × Nat)}
    (hasc : e820.Pairwise fun e f => e.1 + e.2.1 ≤ f.1)
    (hapart : mmio.Pairwise fun g h => g.1 + g.2 ≤ h.1 ∨ h.1 + h.2 ≤ g.1)
    (hdisjoint : ∀ a, (∃ e ∈ e820, EntryHolds e a) → ¬ InAperture mmio a)
    (hunion : ∀ a, ((∃ e ∈ e820, EntryHolds e a) ∨ InAperture mmio a) ↔
      a ∈ Tile.points (ramTiles pf ram)) :
    (e820.map fun e => e.2.1).sum + (mmio.map fun h => h.2).sum = ram + resetBytes pf ram := by
  let holes : List (Tile Nat Unit) := mmio.map fun h => ⟨h.1, h.1 + h.2, ()⟩
  have hclaimed : ∀ a, a ∈ Tile.points (e820.map entryTile) ↔ ∃ e ∈ e820, EntryHolds e a := by
    intro a
    simp only [Tile.mem_points, List.mem_map, exists_exists_and_eq_and]
    rfl
  have hholes : ∀ a, a ∈ Tile.points holes ↔ InAperture mmio a := by
    intro a
    simp only [holes, Tile.mem_points, List.mem_map, exists_exists_and_eq_and]
    rfl
  have hsum : Tile.points (e820.map entryTile) ∪ Tile.points holes =
      Tile.points (ramTiles pf ram) := by
    ext a
    rw [Finset.mem_union, hclaimed, hholes, hunion]
  have hseparate : Disjoint (Tile.points (e820.map entryTile)) (Tile.points holes) := by
    rw [Finset.disjoint_left]
    intro a ha
    rw [hholes]
    exact hdisjoint a ((hclaimed a).mp ha)
  have hcard := Finset.card_union_of_disjoint hseparate
  rw [hsum, Tile.card_points (pairwise_ramTiles pf ram), extent_ramTiles,
    Tile.card_points (List.pairwise_map.mpr (hasc.imp Or.inl)),
    Tile.card_points (List.pairwise_map.mpr hapart)] at hcard
  rw [hcard]
  simp [Tile.extent, entryTile, Function.comp_def]

/-! ## Conservation -/

/-- Every map that is validated for an admitted guest conserves the RAM of the machine. -/
theorem Validated.conserved (v : Validated pf kernelFile initramfs params) {ram vcpus cbit : Nat}
    {cmdline : List Char} {mmio : List (Nat × Nat)}
    (hadmitted : Admitted ram vcpus cmdline cbit mmio pf.holeEnd params) (hvalid : params.Valid)
    (hstraight : Straight params) : Conserved pf ram mmio v.e820 := by
  have hmmio : params.mmio = pciHole ram pf.holeEnd ++ mmio := by rw [hadmitted.eq]
  have hmemory : params.memory = mapTop ram := by rw [hadmitted.eq]
  have hapart : (pciHole ram pf.holeEnd ++ mmio).Pairwise
      fun g h => g.1 + g.2 ≤ h.1 ∨ h.1 + h.2 ≤ g.1 := hmmio ▸ v.pairwise_mmio hstraight
  rw [List.pairwise_append] at hapart
  have hpci : ∀ {a}, InAperture mmio a → ¬ InPciHole pf ram a := by
    rintro a ⟨h, hh, hmem⟩ hpci
    obtain ⟨g, hg, hgmem⟩ := inAperture_pciHole_iff.mpr hpci
    have hgh := hapart.2.2 g hg h hh
    omega
  have hreset : ∀ {a}, InAperture mmio a → ¬ InReset pf ram a := by
    rintro a haperture ⟨⟨rfl, -⟩, hlo, hhi⟩
    refine v.not_inAperture_reset hstraight hlo hhi ?_
    rw [hmmio, inAperture_append]
    exact Or.inr haperture
  -- an operator's hole lies below the top, and what it can lie in there is RAM
  have hram : ∀ {a}, InAperture mmio a → HasRam ram a := by
    rintro a ⟨h, hh, hmem⟩
    have harith : ApertureArithmetic pf params := apertureArithmetic_of_straight hvalid hstraight
    have hbound := (harith.bounds h (hmmio ▸ List.mem_append_right _ hh)).2.2
    have htop : a < mapTop ram := hmemory ▸ hmem.2.trans_le hbound
    rcases (lt_mapTop_iff pf).mp htop with hram | hin | hin
    · exact hram
    · exact absurd hin (hpci ⟨h, hh, hmem⟩)
    · exact absurd hin (hreset ⟨h, hh, hmem⟩)
  have hclaimed : ∀ a, (∃ e ∈ v.e820, EntryHolds e a) ↔
      (HasRam ram a ∧ ¬ InAperture mmio a) ∨ InReset pf ram a := by
    intro a
    have hnot : HasRam ram a ∨ InReset pf ram a → ¬ InPciHole pf ram a := not_inPciHole pf
    have hreset' : InAperture mmio a → ¬ InReset pf ram a := hreset
    rw [v.claimed_iff hstraight, hmemory, hmmio, inAperture_append, inAperture_pciHole_iff,
      lt_mapTop_iff pf]
    tauto
  refine ⟨hclaimed, total_eq (v.pairwise_e820 hstraight) hapart.2.1 ?_ ?_⟩
  · intro a ha haperture
    rcases (hclaimed a).mp ha with h | h
    · exact h.2 haperture
    · exact hreset haperture h
  · intro a
    have hram' : InAperture mmio a → HasRam ram a := hram
    rw [hclaimed, mem_ramTiles_iff]
    tauto

/-- The E820 map of every build claims the RAM the machine has, less the declared holes and
    with the page a TD starts from; the bytes add up, and so do the sums that lead there. -/
theorem memory_conserved (ram : UInt64) (vcpus : UInt32) (cmdline : List Char)
    (mmio : List (UInt64 × UInt64)) (params : Params) :
    (Params.tdx ram vcpus cmdline mmio = .ok params →
      AddsUp ram.toNat resetAlias params.memory ∧
        ((∀ g ∈ mmio, g.1.toNat + g.2.toNat < 2 ^ 64) →
          ∀ (crate : Crate) (hashes : Hashes) (blob : ShimBlob) (kernelFile initramfs : List UInt8)
            (configHash : Option (List Char)) (out : Image.Built),
            Image.build crate hashes blob kernelFile initramfs params configHash = .ok out →
            Conserved .tdx ram.toNat (mmio.map holeToNat) out.e820)) ∧
      ∀ cbit : UInt8, Params.snp ram vcpus cbit cmdline mmio = .ok params →
        AddsUp ram.toNat fourGib params.memory ∧
          ((∀ g ∈ mmio, g.1.toNat + g.2.toNat < 2 ^ 64) →
            ∀ (crate : Crate) (hashes : Hashes) (view : VmsaView) (p384 : P384) (blob : ShimBlob)
              (kernelFile initramfs : List UInt8) (configHash idKey : Option (List Char))
              (guestSvn : UInt32) (out : Snp.Built),
              Snp.build crate hashes view p384 blob kernelFile initramfs params configHash idKey
                guestSvn = .ok out →
              Conserved .snp ram.toNat (mmio.map holeToNat) out.e820) := by
  constructor
  · intro hparams
    have hadmitted : Admitted ram.toNat vcpus.toNat cmdline defaultCbit.toNat (mmio.map holeToNat)
      Platform.tdx.holeEnd params := new_eq_ok.mp hparams
    refine ⟨addsUp_of_admitted hadmitted, ?_⟩
    intro hmmio crate hashes blob kernelFile initramfs configHash out hout
    obtain ⟨run, rfl⟩ := tdx_build_eq_ok.mp hout
    have hstraight : Straight params := straight_of_admitted hadmitted (by decide)
      fun g hg => Nat.not_le.mpr (hmmio g hg)
    rw [run.built_e820, ← run.toValidated_e820]
    exact run.toValidated.conserved hadmitted (valid_of_tdx hparams) hstraight
  · intro cbit hparams
    have hadmitted : Admitted ram.toNat vcpus.toNat cmdline cbit.toNat (mmio.map holeToNat)
      Platform.snp.holeEnd params := new_eq_ok.mp hparams
    refine ⟨addsUp_of_admitted hadmitted, ?_⟩
    intro hmmio crate hashes view p384 blob kernelFile initramfs configHash idKey guestSvn out hout
    obtain ⟨run, rfl⟩ := snp_build_eq_ok.mp hout
    have hstraight : Straight params := straight_of_admitted hadmitted (by decide)
      fun g hg => Nat.not_le.mpr (hmmio g hg)
    rw [run.built_e820, ← run.toValidated_e820]
    exact run.toValidated.conserved hadmitted (valid_of_snp hparams) hstraight

/-- A page of hole on either side of the PCI aperture of 16 GiB of RAM. -/
theorem memory_conserved_sample :
    (∃ crate out, Image.build crate Sample.hashes Sample.blob Sample.kernelFile [1]
        (Sample.splitParams resetAlias) none = .ok out ∧
      Conserved .tdx 0x400000000 [(0x30000000, 0x1000), (0x140000000, 0x1000)] out.e820) ∧
    ∃ crate out, Snp.build crate Sample.hashes Sample.view Sample.p384 Sample.blob
        Sample.kernelFile [1] (Sample.splitParams fourGib) none none 0 = .ok out ∧
      Conserved .snp 0x400000000 [(0x30000000, 0x1000), (0x140000000, 0x1000)] out.e820 := by
  have hconserved := memory_conserved 0x400000000 1 [] Sample.splitHoles
  constructor
  · obtain ⟨m⟩ := Sample.nonempty_mapped_split.1
    obtain ⟨out, hout⟩ := Sample.exists_tdx_build m
    exact ⟨_, out, hout,
      ((hconserved _).1 Sample.tdx_split_eq_ok).2 Sample.splitHoles_lt _ _ _ _ _ _ out hout⟩
  · obtain ⟨m⟩ := Sample.nonempty_mapped_split.2
    obtain ⟨out, hout⟩ := Sample.exists_snp_build m
    exact ⟨_, out, hout,
      ((hconserved _).2 51 Sample.snp_split_eq_ok).2 Sample.splitHoles_lt _ _ _ _ _ _ _ _ _ _ out
        hout⟩

end BootShim.Pipeline
