-- SUMMARY: The fixed guest-physical layout (`src/layout.rs`).
import Mathlib.Tactic

/-!
# Layout

The constants of `src/layout.rs`: where the builders place each measured region,
where the shims find their data, and the limits a guest is held to. All of them
are 64-bit numbers in the source and natural numbers here.
-/

namespace BootShim.Layout

@[simp] abbrev page : Nat := 4096

@[simp] abbrev zeroPage : Nat := 0x7000
@[simp] abbrev cmdline : Nat := 0x20000
@[simp] abbrev acpiBase : Nat := 0xe0000
@[simp] abbrev mailbox : Nat := 0xf0000
@[simp] abbrev snpCpuid : Nat := 0xf0000
@[simp] abbrev snpSecrets : Nat := 0xf1000
@[simp] abbrev snpCcBlob : Nat := 0xf2000
@[simp] abbrev pageTables : Nat := 0x100000
@[simp] abbrev pageTableSize : Nat := 3 * page
@[simp] abbrev bspStack : Nat := 0x107000
@[simp] abbrev bspStackSize : Nat := 0x10000
@[simp] abbrev bspStackTop : Nat := bspStack + bspStackSize
@[simp] abbrev snpGhcb : Nat := 0x117000
@[simp] abbrev shimBase : Nat := 0x120000
@[simp] abbrev shimSize : Nat := page
@[simp] abbrev kernelSetupBase : Nat := 0x121000
@[simp] abbrev kernelSetupAreaSize : Nat := 0x2f000
@[simp] abbrev kernelSetupEnd : Nat := kernelSetupBase + kernelSetupAreaSize
@[simp] abbrev kernelBase : Nat := 0x1000000
@[simp] abbrev initramfsBase : Nat := 0x20000000
@[simp] abbrev resetAlias : Nat := 0xfffff000
@[simp] abbrev snpVmsa : Nat := 0xfffffffff000

@[simp] abbrev bootCs32 : Nat := 0x08
@[simp] abbrev bootCs : Nat := 0x10
@[simp] abbrev bootDs : Nat := 0x18
@[simp] abbrev gdtLimit : Nat := bootDs + 7
@[simp] abbrev gdtPtr : Nat := bspStack + gdtLimit + 1

@[simp] abbrev shimApPark : Nat := 0xb00
@[simp] abbrev snpApEntry : Nat := shimBase + shimApPark

@[simp] abbrev sharedAlias : Nat := 0x8000000000

/-- A TD fetches its first instruction from the last 16 bytes of the shim's page. -/
@[simp] abbrev resetVector : Nat := page - 16
/-- Where each shim finds its data block: the kernel entry point and the accept list. -/
@[simp] abbrev shimData : Nat := 0xc00
@[simp] abbrev shimDataSize : Nat := resetVector - shimData

@[simp] abbrev shimLimit : Nat := 256 * 1024

@[simp] abbrev gib : Nat := 0x40000000
/-- How far the identity map reaches. -/
@[simp] abbrev mapLimit : Nat := 512 * gib
@[simp] abbrev fourGib : Nat := 4 * gib

/-- A q35 machine splits a guest this size or larger, opening a PCI aperture. -/
@[simp] abbrev q35Split : Nat := 0xb0000000
@[simp] abbrev q35Lowmem : Nat := 2 * gib
@[simp] abbrev maxRam : Nat := mapLimit - fourGib + q35Lowmem

@[simp] abbrev acpiXsdt : Nat := 0x100
@[simp] abbrev acpiFadt : Nat := 0x200
@[simp] abbrev acpiDsdt : Nat := 0x400
@[simp] abbrev acpiMadt : Nat := 0x500
@[simp] abbrev rsdpLen : Nat := 36
@[simp] abbrev xsdtLen : Nat := 52
@[simp] abbrev fadtLen : Nat := 276
@[simp] abbrev dsdtLen : Nat := 36
@[simp] abbrev madtHeaderLen : Nat := 44
@[simp] abbrev madtLapicLen : Nat := 8
@[simp] abbrev madtWakeupLen : Nat := 16
/-- One Local APIC entry per processor plus the wakeup structure, all inside the page. -/
@[simp] abbrev maxVcpus : Nat := (page - acpiMadt - madtHeaderLen - madtWakeupLen) / madtLapicLen

@[simp] abbrev snpSevFeatures : Nat := 1
@[simp] abbrev snpGuestPolicy : Nat := 51 ||| (1 <<< 8) ||| (1 <<< 16) ||| (1 <<< 17)

@[simp] abbrev defaultCbit : UInt8 := 51

/-- The command line of an operator who gives none. -/
def defaultCmdline : List Char := "panic=-1".toList

/-- The measured page tables are four-level, so this is on every command line. -/
def requiredCmdline : List Char := "no5lvl".toList

/-- The assertions of `src/layout.rs`. A shim accepts the gaps between the regions, so
they tile in the order it skips them. -/
example :
    resetAlias < mapLimit ∧ mailbox + page ≤ pageTables ∧ snpCpuid + page = snpSecrets ∧
    snpSecrets + page = snpCcBlob ∧ snpCcBlob + page ≤ pageTables ∧
    pageTables + pageTableSize ≤ bspStack ∧ gdtPtr + 10 ≤ bspStackTop ∧
    bspStackTop ≤ snpGhcb ∧ snpGhcb + page ≤ shimBase ∧ sharedAlias = mapLimit ∧
    shimBase + shimSize = kernelSetupBase ∧ kernelSetupEnd ≤ kernelBase ∧
    kernelBase < initramfsBase ∧ shimData + shimDataSize ≤ shimSize ∧
    maxVcpus ≤ 0xffff ∧ shimApPark + 64 ≤ shimData ∧ resetAlias + page = 0x100000000 := by
  decide

/-- The least multiple of `alignment` that is not below `value`. -/
def alignUp (value alignment : Nat) : Nat := (value + alignment - 1) / alignment * alignment

/-- Addition of two 64-bit numbers as the release profile compiles it: it wraps. -/
def addU64 (a b : Nat) : Nat := (a + b) % 2 ^ 64

theorem alignUp_page (n : Nat) : alignUp n page % page = 0 := by
  simp [alignUp]

theorem le_alignUp_page (n : Nat) : n ≤ alignUp n page := by
  simp only [alignUp, page]
  omega

theorem alignUp_add_page {base n : Nat} (h : base % page = 0) :
    alignUp (base + n) page = base + alignUp n page := by
  simp only [alignUp, page] at *
  omega

theorem addU64_of_lt {a b : Nat} (h : a + b < 2 ^ 64) : addU64 a b = a + b :=
  Nat.mod_eq_of_lt h

/-- A sum of two 64-bit numbers that wraps falls short of both of them. -/
theorem addU64_of_wrap {a b : Nat} (ha : a < 2 ^ 64) (hb : b < 2 ^ 64) (h : 2 ^ 64 ≤ a + b) :
    addU64 a b = a + b - 2 ^ 64 := by
  rw [addU64]
  omega

end BootShim.Layout
