-- SUMMARY: Where the Linux boot protocol makes an admitted kernel run, and that it stays clear of the initramfs exactly up to a bound on its preferred address.
import BootShim.Pipeline.Success

/-!
# Where a kernel runs

A kernel is loaded at the fixed base. The boot protocol moves a relocatable one up to its
preferred address before it decompresses, and the builder reads that address only of a
kernel that is not relocatable.
-/

namespace BootShim.Pipeline

open Boot Bytes Checked Image Layout

/-- Where a kernel loaded at the fixed base runs, by the boot protocol. -/
def runtimeStart (kernelFile : List UInt8) : Nat :=
  if byteAt kernelFile hdrRelocatable = 0 then getLE 8 kernelFile hdrPrefAddress
  else
    alignUp (max kernelBase (getLE 8 kernelFile hdrPrefAddress))
      (getLE 4 kernelFile hdrKernelAlignment)

/-- The kernel runs clear of the initramfs, from an entry point in its payload. -/
structure RunsClear (kernelFile : List UInt8) (p : Prepared) : Prop where
  runtime : runtimeStart kernelFile + getLE 4 kernelFile hdrInitSize ≤ initramfsBase
  entry : p.entry = kernelBase + 0x200 ∧ kernelBase ≤ p.entry ∧
    p.entry < kernelBase + p.kernel.length
  payload : kernelBase + p.kernel.length ≤ initramfsBase

/-- The last start address of a kernel that ends below the initramfs. -/
def lastStart (kernelFile : List UInt8) : Nat :=
  (initramfsBase - getLE 4 kernelFile hdrInitSize) / getLE 4 kernelFile hdrKernelAlignment *
    getLE 4 kernelFile hdrKernelAlignment

/-- Rounding up stays below a bound when the number stays below the bound rounded down. -/
theorem alignUp_le_iff {value alignment bound : Nat} (hpos : 0 < alignment) :
    alignUp value alignment ≤ bound ↔ value ≤ bound / alignment * alignment := by
  rw [alignUp, ← Nat.le_div_iff_mul_le hpos, ← Nat.lt_succ_iff, Nat.div_lt_iff_lt_mul hpos,
    Nat.succ_mul]
  omega

/-- What `prepare` checks keeps the load address below that bound. -/
theorem kernelBase_le_lastStart {kernelFile : List UInt8} (hparses : Parses kernelFile)
    (hinit : kernelBase + getLE 4 kernelFile hdrInitSize ≤ initramfsBase) :
    kernelBase ≤ lastStart kernelFile := by
  have hdvd := Nat.div_mul_cancel (Nat.dvd_of_mod_eq_zero hparses.alignment_dvd)
  rw [← hdvd, lastStart]
  exact Nat.mul_le_mul_right _ (Nat.div_le_div_right (by omega))

/-- An admitted kernel runs clear of the initramfs exactly when it is not relocatable or
    prefers no address past its last start address. -/
theorem runsClear_iff (kernelFile initramfs : List UInt8) (params : Params) (p : Prepared)
    (hp : prepare kernelFile initramfs params = .ok p) :
    RunsClear kernelFile p ↔
      byteAt kernelFile hdrRelocatable = 0 ∨
        getLE 8 kernelFile hdrPrefAddress ≤ lastStart kernelFile := by
  obtain ⟨info, hparse, hadmits, rfl⟩ := Image.prepare_eq_ok.mp hp
  obtain ⟨hparses, rfl⟩ := parseBzimage_eq_ok.mp hparse
  have hinit : kernelBase + getLE 4 kernelFile hdrInitSize ≤ initramfsBase := hadmits.init_size
  have hpayload : setupBytesOf kernelFile + 0x200 < kernelFile.length := hparses.payload
  have hruntime : runtimeStart kernelFile + getLE 4 kernelFile hdrInitSize ≤ initramfsBase ↔
      byteAt kernelFile hdrRelocatable = 0 ∨
        getLE 8 kernelFile hdrPrefAddress ≤ lastStart kernelFile := by
    rw [runtimeStart]
    split
    · next hfixed =>
      rw [hparses.address hfixed]
      simp only [hinit, hfixed, true_or]
    · next hmoves =>
      have hbase := kernelBase_le_lastStart hparses hinit
      have hpos : 0 < getLE 4 kernelFile hdrKernelAlignment :=
        Nat.pos_of_ne_zero hparses.alignment_ne
      have hsub : ∀ start, start + getLE 4 kernelFile hdrInitSize ≤ initramfsBase ↔
          start ≤ initramfsBase - getLE 4 kernelFile hdrInitSize := fun start => by omega
      rw [hsub, alignUp_le_iff hpos, ← lastStart, max_le_iff]
      simp only [hbase, hmoves, true_and, false_or]
  refine ⟨fun h => hruntime.mp h.runtime, fun h => ⟨hruntime.mpr h, ⟨rfl, ?_, ?_⟩, ?_⟩⟩
  · exact Nat.le_add_right _ _
  · simp only [prepared, infoOf, List.length_drop, entry64Offset]
    omega
  · exact (le_alignUp_page _).trans hadmits.kernel_end

/-- A kernel that prefers no address of its own. -/
theorem runsClear_sample :
    ∃ p, prepare Sample.kernelFile [1] (Sample.params 1 51 []) = .ok p ∧
      RunsClear Sample.kernelFile p := by
  have hp : prepare Sample.kernelFile [1] (Sample.params 1 51 []) = .ok _ :=
    Sample.prepare_eq_ok Sample.parse_kernelFile (by decide +kernel) (by decide) le_rfl
      Sample.length_cmdline
  exact ⟨_, hp, (runsClear_iff _ _ _ _ hp).mpr (Or.inr (by decide +kernel))⟩

/-- A relocatable kernel that prefers the initramfs's own address is admitted. -/
theorem not_runsClear_of_preferred :
    ∃ params p, Params.tdx 0x40000000 1 [] [] = .ok params ∧
      prepare (putLE 8 Sample.kernelFile hdrPrefAddress 0x20000000) [1] params = .ok p ∧
      runtimeStart (putLE 8 Sample.kernelFile hdrPrefAddress 0x20000000) = initramfsBase ∧
      ¬ RunsClear (putLE 8 Sample.kernelFile hdrPrefAddress 0x20000000) p := by
  have hparse : parseBzimage (putLE 8 Sample.kernelFile hdrPrefAddress 0x20000000) =
      .ok ⟨1024, 0x100000, 2048⟩ := by decide +kernel
  have hstart : runtimeStart (putLE 8 Sample.kernelFile hdrPrefAddress 0x20000000) =
      initramfsBase := by decide +kernel
  have hsize : getLE 4 (putLE 8 Sample.kernelFile hdrPrefAddress 0x20000000) hdrInitSize =
      0x100000 := by decide +kernel
  refine ⟨_, _, Sample.tdx_eq_ok,
    Sample.prepare_eq_ok hparse (by decide +kernel) (by decide) le_rfl Sample.length_cmdline, hstart,
    fun h => ?_⟩
  have hruntime := h.runtime
  rw [hstart, hsize] at hruntime
  exact absurd hruntime (by decide)

end BootShim.Pipeline
