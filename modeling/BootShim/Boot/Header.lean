-- SUMMARY: The Linux boot protocol: parsing a bzImage, the zero page and the measured GDT (`src/boot.rs`).
import BootShim.Layout
import BootShim.Lib.Bytes
import BootShim.Lib.Checked

/-!
# Linux boot protocol

The parts of `src/boot.rs` that read and write the setup header: the checks a
kernel has to pass, the `boot_params` page handed to it, and the GDT page under
the boot processor's stack. An E820 entry is a triple of base, size and type.
-/

namespace BootShim.Boot

open Bytes Checked Layout

/-! ## Setup header fields -/

@[simp] abbrev hdrSetupSects : Nat := 0x1f1
@[simp] abbrev hdrBootFlag : Nat := 0x1fe
@[simp] abbrev hdrSignature : Nat := 0x202
@[simp] abbrev hdrVersion : Nat := 0x206
@[simp] abbrev hdrTypeOfLoader : Nat := 0x210
@[simp] abbrev hdrLoadflags : Nat := 0x211
@[simp] abbrev hdrCode32Start : Nat := 0x214
@[simp] abbrev hdrRamdiskImage : Nat := 0x218
@[simp] abbrev hdrRamdiskSize : Nat := 0x21c
@[simp] abbrev hdrCmdLinePtr : Nat := 0x228
@[simp] abbrev hdrKernelAlignment : Nat := 0x230
@[simp] abbrev hdrRelocatable : Nat := 0x234
@[simp] abbrev hdrXloadflags : Nat := 0x236
@[simp] abbrev hdrCmdlineSize : Nat := 0x238
@[simp] abbrev hdrSetupData : Nat := 0x250
@[simp] abbrev hdrPrefAddress : Nat := 0x258
@[simp] abbrev hdrInitSize : Nat := 0x260
@[simp] abbrev setupHeader : Nat := hdrSetupSects
@[simp] abbrev setupHeaderEnd : Nat := 0x290
@[simp] abbrev setupHeaderMin : Nat := 0x268
/-- The 64-bit entry point sits this far into the protected-mode payload. -/
@[simp] abbrev entry64Offset : Nat := 0x200

@[simp] abbrev bpAcpiRsdpAddr : Nat := 0x70
@[simp] abbrev bpE820Entries : Nat := 0x1e8
@[simp] abbrev bpE820Table : Nat := 0x2d0
@[simp] abbrev e820EntryLen : Nat := 20
@[simp] abbrev e820Max : Nat := 128

/-! ## Parsing a kernel -/

structure KernelInfo where
  setupBytes : Nat
  initSize : Nat
  cmdlineMax : Nat
deriving DecidableEq

/-- The number of real-mode setup bytes: a count of zero stands for four sectors. -/
def setupBytesOf (image : List UInt8) : Nat :=
  let sects := if byteAt image hdrSetupSects = 0 then 4 else (byteAt image hdrSetupSects).toNat
  (sects + 1) * 512

def parseBzimage (image : List UInt8) : Except String KernelInfo := do
  ensure (setupHeaderMin ≤ image.length) "bzImage is shorter than its setup header"
  ensure (getLE 2 image hdrBootFlag = 0xaa55 ∧
      slice image hdrSignature 4 = [0x48, 0x64, 0x72, 0x53])
    "not an x86 Linux bzImage"
  ensure (0x020c ≤ getLE 2 image hdrVersion) "Linux boot protocol 2.12 or newer is required"
  ensure (byteAt image hdrLoadflags &&& 1 ≠ 0) "kernel is not a bzImage"
  ensure (byteAt image hdrXloadflags &&& 1 ≠ 0) "kernel does not advertise a 64-bit entry"
  -- The payload loads at the fixed kernelBase, so a kernel that cannot run there is refused.
  let alignment := getLE 4 image hdrKernelAlignment
  ensure (alignment ≠ 0 ∧ 2 ^ Nat.log2 alignment = alignment ∧ kernelBase % alignment = 0)
    "kernel alignment is not satisfied by the fixed load address"
  ensure (¬ (byteAt image hdrRelocatable = 0 ∧ getLE 8 image hdrPrefAddress ≠ kernelBase))
    "kernel is not relocatable and prefers a different load address"
  ensure (setupBytesOf image + entry64Offset < image.length) "bzImage has no protected-mode payload"
  pure {
    setupBytes := setupBytesOf image
    initSize := getLE 4 image hdrInitSize
    cmdlineMax := getLE 4 image hdrCmdlineSize }

/-- Everything the checks leave known about a kernel that is parsed. -/
structure Parses (image : List UInt8) : Prop where
  header_le : setupHeaderMin ≤ image.length
  boot_flag : getLE 2 image hdrBootFlag = 0xaa55
  signature : slice image hdrSignature 4 = [0x48, 0x64, 0x72, 0x53]
  version_le : 0x020c ≤ getLE 2 image hdrVersion
  loaded_high : byteAt image hdrLoadflags &&& 1 ≠ 0
  kernel_64 : byteAt image hdrXloadflags &&& 1 ≠ 0
  alignment_ne : getLE 4 image hdrKernelAlignment ≠ 0
  alignment_pow : 2 ^ Nat.log2 (getLE 4 image hdrKernelAlignment) = getLE 4 image hdrKernelAlignment
  alignment_dvd : kernelBase % getLE 4 image hdrKernelAlignment = 0
  address : byteAt image hdrRelocatable = 0 → getLE 8 image hdrPrefAddress = kernelBase
  payload : setupBytesOf image + entry64Offset < image.length

/-- What parsing reads off a kernel. -/
def infoOf (image : List UInt8) : KernelInfo where
  setupBytes := setupBytesOf image
  initSize := getLE 4 image hdrInitSize
  cmdlineMax := getLE 4 image hdrCmdlineSize

theorem parseBzimage_eq_ok {image : List UInt8} {info : KernelInfo} :
    parseBzimage image = .ok info ↔ Parses image ∧ info = infoOf image := by
  simp only [parseBzimage, bind_eq_ok, ensure_eq_ok, pure_eq_ok, exists_and_left, exists_const]
  constructor
  · rintro ⟨h₁, ⟨h₂, h₃⟩, h₄, h₅, h₆, ⟨h₇, h₈, h₉⟩, h₁₀, h₁₁, rfl⟩
    exact ⟨⟨h₁, h₂, h₃, h₄, h₅, h₆, h₇, h₈, h₉, fun h => not_not.mp fun hne => h₁₀ ⟨h, hne⟩, h₁₁⟩, rfl⟩
  · rintro ⟨h, rfl⟩
    exact ⟨h.header_le, ⟨h.boot_flag, h.signature⟩, h.version_le, h.loaded_high, h.kernel_64,
      ⟨h.alignment_ne, h.alignment_pow, h.alignment_dvd⟩, fun hne => hne.2 (h.address hne.1),
      h.payload, rfl⟩

/-- A parsed kernel has a payload that reaches past its 64-bit entry point. -/
theorem parseBzimage_ok {image : List UInt8} {info : KernelInfo}
    (h : parseBzimage image = .ok info) :
    info.setupBytes = setupBytesOf image ∧ info.setupBytes + entry64Offset < image.length := by
  obtain ⟨hparses, rfl⟩ := parseBzimage_eq_ok.mp h
  exact ⟨rfl, hparses.payload⟩

/-! ## The zero page -/

/-- One E820 entry at its place in the table. -/
def putE820Entry (v : List UInt8) (index : Nat) (entry : Nat × Nat × Nat) : List UInt8 :=
  let off := bpE820Table + index * e820EntryLen
  putLE 4 (putLE 8 (putLE 8 v off entry.1) (off + 8) entry.2.1) (off + 16) entry.2.2

/-- The E820 table from entry `index` on. -/
def putE820 (v : List UInt8) (index : Nat) : List (Nat × Nat × Nat) → List UInt8
  | [] => v
  | e :: es => putE820 (putE820Entry v index e) (index + 1) es

/-- The fields of `boot_params` before the table: the kernel's own setup header
    with what a boot loader has to fill in. -/
def zeroPageHeader (setup : List UInt8) (info : KernelInfo) (initramfsLen rsdp setupData : Nat) :
    List UInt8 :=
  let v := zeros page
  let v := write v setupHeader (slice setup setupHeader (setupHeaderEnd - setupHeader))
  let v := v.set hdrTypeOfLoader 0xff
  let v := v.set hdrLoadflags (byteAt v hdrLoadflags ||| 0x80)
  let v := putLE 4 v hdrRamdiskImage initramfsBase
  let v := putLE 4 v hdrRamdiskSize initramfsLen
  let v := putLE 4 v hdrCmdLinePtr cmdline
  let v := putLE 4 v hdrCode32Start kernelBase
  let v := putLE 4 v hdrInitSize info.initSize
  let v := putLE 8 v bpAcpiRsdpAddr rsdp
  -- TDX chains nothing here; SNP chains one SETUP_CC_BLOB record.
  putLE 8 v hdrSetupData setupData

def zeroPage (setup : List UInt8) (info : KernelInfo) (initramfsLen rsdp : Nat)
    (e820 : List (Nat × Nat × Nat)) (setupData : Nat) : Except String (List UInt8) := do
  ensure (e820.length ≤ e820Max) s!"E820 map needs {e820.length} of {e820Max} entries"
  let v := zeroPageHeader setup info initramfsLen rsdp setupData
  let v := v.set bpE820Entries (UInt8.ofNat e820.length)
  pure (putE820 v 0 e820)

/-! ## The GDT under the stack -/

/-- The measured GDT at the base of the boot processor's stack, which grows down
    from the far end. -/
def gdtStack : List UInt8 :=
  let v := zeros bspStackSize
  let v := putLE 8 v bootCs32 0x00cf9b000000ffff
  let v := putLE 8 v bootCs 0x00af9b000000ffff
  let v := putLE 8 v bootDs 0x00cf93000000ffff
  let v := putLE 2 v (gdtPtr - bspStack) gdtLimit
  putLE 8 v (gdtPtr - bspStack + 2) bspStack

@[simp] theorem length_gdtStack : gdtStack.length = bspStackSize := by
  simp [gdtStack]

/-! ### Lengths and reading back -/

@[simp] theorem length_putE820Entry (v : List UInt8) (index : Nat) (e : Nat × Nat × Nat) :
    (putE820Entry v index e).length = v.length := by
  simp [putE820Entry]

@[simp] theorem length_putE820 (v : List UInt8) (index : Nat) (es : List (Nat × Nat × Nat)) :
    (putE820 v index es).length = v.length := by
  induction es generalizing v index with
  | nil => rfl
  | cons e es ih => simp [putE820, ih]

@[simp] theorem length_zeroPageHeader (setup : List UInt8) (info : KernelInfo)
    (initramfsLen rsdp setupData : Nat) :
    (zeroPageHeader setup info initramfsLen rsdp setupData).length = page := by
  simp [zeroPageHeader]

/-- The zero page exists when the table has room for the map. -/
theorem zeroPage_eq_ok {setup : List UInt8} {info : KernelInfo} {initramfsLen rsdp setupData : Nat}
    {e820 : List (Nat × Nat × Nat)} {v : List UInt8} :
    zeroPage setup info initramfsLen rsdp e820 setupData = .ok v ↔
      e820.length ≤ e820Max ∧
        v = putE820 ((zeroPageHeader setup info initramfsLen rsdp setupData).set bpE820Entries
          (UInt8.ofNat e820.length)) 0 e820 := by
  simp only [zeroPage, bind_eq_ok, ensure_eq_ok, pure_eq_ok, exists_and_left, exists_const]
  exact and_congr_right fun _ => eq_comm

theorem length_zeroPage {setup : List UInt8} {info : KernelInfo}
    {initramfsLen rsdp setupData : Nat} {e820 : List (Nat × Nat × Nat)} {v : List UInt8}
    (h : zeroPage setup info initramfsLen rsdp e820 setupData = .ok v) : v.length = page := by
  rw [(zeroPage_eq_ok.mp h).2]
  simp

end BootShim.Boot
