-- SUMMARY: An image under its shim: which memory a processor has accepted when it enters the kernel, and where.
import BootShim.Pipeline.Apertures
import BootShim.Pipeline.Loaded
import BootShim.Shim.Reset
import BootShim.Shim.WakeRuns

/-!
# Booting an image

The builder derives the accept list, a shim walks it. What the shim's walk asks of the
list holds of every list a builder packs, so the two can be put together: from the
imported pages on, the kernel is entered with the memory accepted that nobody placed
anything in, and no other.
-/

namespace BootShim.Pipeline

open Boot Bytes Image Layout PageWalk Shim

variable {pf : Platform} {blob : ShimBlob} {kernelFile initramfs : List UInt8} {params : Params}
  {ret : Nat} {mem : Memory}

namespace Mapped

variable (m : Mapped pf blob kernelFile initramfs params)

/-! ## What the builder packs -/

/-- No accepted range meets a region. -/
theorem accept_apart (hvalid : params.Valid) {q : Placed} (hq : q ∈ m.regions) {r : Nat × Nat}
    (hr : r ∈ m.accept) : r.2 ≤ q.tile.lo ∨ q.tile.hi ≤ r.1 := by
  by_contra hmeet
  rw [not_or, Nat.not_le, Nat.not_le] at hmeet
  have hlt := (bounds_of_mem_acceptRanges hr).1
  have hq' := m.region_upright hq
  -- The first address that is in both.
  have hin : InRange m.accept (max r.1 q.tile.lo) := ⟨r, hr, le_max_left _ _, by omega⟩
  exact ((m.inRange_accept_iff hvalid).mp hin).2.1 ⟨q, hq, le_max_right _ _, by omega⟩

theorem listed_accept (hvalid : params.Valid) (hstraight : Straight params) :
    Listed page m.accept where
  nonempty _ hr := (bounds_of_mem_acceptRanges hr).1
  aligned _ hr := m.accept_aligned hvalid hr
  ascending := (ascending_of_upright (m.upright hstraight)).accept

/-- The shim's page is one that the walk can be run on. -/
theorem packed (hvalid : params.Valid) (hstraight : Straight params) (hret : ret < 2 ^ 64) :
    Packed blob pf.shimAt m.p.entry m.accept m.shim ret where
  packed := by
    rw [← m.acceptRanges_blank]
    exact m.shim_ok
  listed := m.listed_accept hvalid hstraight
  below r hr := (bounds_of_mem_acceptRanges hr).2.trans hvalid.memory_le
  avoids_shim r hr := by
    have hspan : (Placed.measured pf.shimAt "shim" reserved m.shim).span = page := by
      simp only [Placed.measured, Placed.span, m.length_shim]
      decide
    have hhi := (m.fits m.mem_regions_shim).tile_hi
    rw [hspan] at hhi
    exact hhi ▸ m.accept_apart hvalid m.mem_regions_shim hr
  avoids_stack r hr := by
    obtain ⟨q, hq, htile⟩ := m.exists_region (t := ⟨bspStack, bspStackTop, reserved⟩)
      (by cases pf <;> simp [Platform.footprint])
    have hapart := m.accept_apart hvalid hq hr
    rwa [htile] at hapart
  base_ge := by cases pf <;> decide
  base_le := by cases pf <;> decide
  entry_lt := by
    rw [(files_of_prepare m.prepare_ok).2.2]
    decide
  ret_lt := hret

/-- The pages of the accept list are those where nothing is placed. -/
theorem mem_pagesOf_accept (hvalid : params.Valid) (hstraight : Straight params) {a : Nat} :
    a ∈ pagesOf page m.accept ↔
      a % page = 0 ∧ a < params.memory ∧ ¬ m.InRegion a ∧ ¬ InAperture params.mmio a := by
  have hholes : InStraight params.mmio a ↔ InAperture params.mmio a :=
    exists_congr fun h => and_congr_right fun hh => and_iff_right (hstraight h hh).2
  rw [mem_pagesOf (by decide) (m.listed_accept hvalid hstraight), ← hholes]
  exact and_congr_right fun _ => m.inRange_accept_iff hvalid

/-- The shim's page is where its processor expects it, once the image is loaded. -/
theorem holds_shim : (mem.load m.pages).Holds pf.shimAt m.shim :=
  Memory.holds_load m.pairwise_pages_apart m.shim_mem_pages

end Mapped

/-! ## Booting -/

/-- The kernel is entered at its entry point with the zero page, and with every page of
    unplaced memory accepted once and no other page at all. -/
structure Boots (m : Mapped pf blob kernelFile initramfs params) (rip rsi : Nat)
    (taken : List Nat) : Prop where
  entry : rip = m.p.entry
  zero_page : rsi = Layout.zeroPage
  nodup : taken.Nodup
  accepted : ∀ a, a ∈ taken ↔
    a % page = 0 ∧ a < params.memory ∧ ¬ m.InRegion a ∧ ¬ InAperture params.mmio a

theorem boots_of_taken {m : Mapped pf blob kernelFile initramfs params} (hvalid : params.Valid)
    (hstraight : Straight params) {rip rsi : Nat} {taken : List Nat} (hrip : rip = m.p.entry)
    (hrsi : rsi = Layout.zeroPage) (htaken : taken = pagesOf page m.accept) :
    Boots m rip rsi taken where
  entry := hrip
  zero_page := hrsi
  nodup := htaken ▸ nodup_pagesOf (by decide) (m.listed_accept hvalid hstraight)
  accepted a := by
    rw [htaken]
    exact m.mem_pagesOf_accept hvalid hstraight

/-- A TDX guest that enters the kernel, whatever the module answers. -/
theorem Mapped.boots_tdx (m : Mapped .tdx blob kernelFile initramfs params) (hvalid : params.Valid)
    (hstraight : Straight params) (hret : ret < 2 ^ 64) {s : Cpu Reset.Label}
    (hstart : Reset.Start m.shim s) {answers : List UInt64} {rip : Nat}
    (hpc : (Reset.run ret s answers).pc = .kernel rip) :
    Boots m rip (Reset.run ret s answers).rsi (Reset.run ret s answers).taken := by
  have hat := (Reset.inv_run (m.packed hvalid hstraight hret) hstart answers).at_pc
  rw [hpc] at hat
  obtain ⟨hall, hrip, hrsi⟩ := hat
  exact boots_of_taken hvalid hstraight hrip hrsi hall.taken

/-- An SNP guest that enters the kernel, whatever PVALIDATE and the host answer. -/
theorem Mapped.boots_snp (m : Mapped .snp blob kernelFile initramfs params) (hvalid : params.Valid)
    (hstraight : Straight params) (hret : ret < 2 ^ 64) {s : Cpu SnpReset.Label}
    (hstart : SnpReset.Start m.shim s) {outcomes : List SnpReset.Outcome}
    (hpc : (SnpReset.run ret s outcomes).pc = .wakeAps) (code : Wake.Code) (shared : Memory)
    (msr : UInt64) {answers : List Wake.Answer} {rip : Nat} {w : Wake.World}
    (hw : w = Machine.run (Wake.step code) (Wake.takeUp (SnpReset.run ret s outcomes) shared msr)
      answers)
    (hjump : w.pc = .jumped rip) : Boots m rip w.rsi (SnpReset.run ret s outcomes).taken := by
  obtain ⟨hrip, hrsi, -, htaken⟩ :=
    Wake.boots_after_walk (m.packed hvalid hstraight hret) hstart hpc shared msr hw hjump
  exact boots_of_taken hvalid hstraight hrip hrsi htaken

end BootShim.Pipeline
