-- SUMMARY: What preparing the inputs guarantees: the lengths of what it hands on and where kernel and initramfs end.
import BootShim.Boot.ZeroPage
import BootShim.Image.Build

/-!
# Prepared inputs

`prepare` depends on the parameters only through the top of the map and the command
line, and what it returns has the lengths the fixed map is laid out for and fits the
fields of the zero page.
-/

namespace BootShim.Image

open Boot Bytes Checked Layout

/-- The checks `prepare` makes once the kernel is parsed. -/
structure Admits (kernelFile initramfs : List UInt8) (params : Params) (info : KernelInfo) : Prop where
  kernel_end : alignUp (kernelBase + (kernelFile.drop info.setupBytes).length) page ≤ initramfsBase
  init_size : kernelBase + info.initSize ≤ initramfsBase
  initramfs_end : alignUp (initramfsBase + initramfs.length) page ≤ params.memory
  initramfs_end_32 : alignUp (initramfsBase + initramfs.length) page ≤ 0xffffffff
  setup_le : info.setupBytes ≤ kernelSetupAreaSize
  cmdline_le : (params.cmdline.length % 2 ^ 32 + 1) % 2 ^ 32 ≤ info.cmdlineMax

/-- What `prepare` hands on for a parsed kernel. -/
def prepared (kernelFile initramfs : List UInt8) (params : Params) (info : KernelInfo) : Prepared where
  info
  setup := write (zeros kernelSetupAreaSize) 0 (kernelFile.take info.setupBytes)
  kernel := kernelFile.drop info.setupBytes
  initramfs
  command := commandPage params.cmdline
  entry := kernelBase + entry64Offset

theorem prepare_eq_ok {kernelFile initramfs : List UInt8} {params : Params} {p : Prepared} :
    prepare kernelFile initramfs params = .ok p ↔
      ∃ info, parseBzimage kernelFile = .ok info ∧ Admits kernelFile initramfs params info ∧
        p = prepared kernelFile initramfs params info := by
  simp only [prepare, bind_eq_ok, ensure_eq_ok, pure_eq_ok, exists_and_left, exists_const]
  refine exists_congr fun info => and_congr_right fun _ => ?_
  constructor
  · rintro ⟨h₁, h₂, h₃, h₄, h₅, h₆, rfl⟩
    exact ⟨⟨h₁, h₂, h₃, h₄, h₅, h₆⟩, rfl⟩
  · rintro ⟨⟨h₁, h₂, h₃, h₄, h₅, h₆⟩, rfl⟩
    exact ⟨h₁, h₂, h₃, h₄, h₅, h₆, rfl⟩

theorem length_commandPage (cmdline : List Char) : (commandPage cmdline).length = page := by
  rw [commandPage]
  exact length_padTo (List.length_take_le _ _)

/-- Two guests with one map top and one command line prepare alike. -/
theorem prepare_congr {kernelFile initramfs : List UInt8} {params params' : Params}
    (hmem : params.memory = params'.memory) (hcmd : params.cmdline = params'.cmdline) :
    prepare kernelFile initramfs params = prepare kernelFile initramfs params' := by
  rw [prepare, prepare, hmem, hcmd]

/-- The lengths of prepared inputs, as far as the map depends on them. -/
structure Sized (p : Prepared) (memory : Nat) : Prop where
  setup_length : p.setup.length = kernelSetupAreaSize
  command_length : p.command.length = page
  kernel_pos : 0 < p.kernel.length
  kernel_end : alignUp (kernelBase + p.kernel.length) page ≤ initramfsBase
  initramfs_end : alignUp (initramfsBase + p.initramfs.length) page ≤ memory
  initramfs_end_32 : alignUp (initramfsBase + p.initramfs.length) page ≤ 0xffffffff

theorem sized_of_prepare {kernelFile initramfs : List UInt8} {params : Params} {p : Prepared}
    (h : prepare kernelFile initramfs params = .ok p) : Sized p params.memory := by
  obtain ⟨info, hparse, hadmits, rfl⟩ := prepare_eq_ok.mp h
  have hpayload := (parseBzimage_ok hparse).2
  refine ⟨by simp [prepared], length_commandPage _, ?_, hadmits.kernel_end, hadmits.initramfs_end,
    hadmits.initramfs_end_32⟩
  simp only [prepared, List.length_drop]
  omega

/-- What `prepare` hands on comes from the two files. -/
theorem files_of_prepare {kernelFile initramfs : List UInt8} {params : Params} {p : Prepared}
    (h : prepare kernelFile initramfs params = .ok p) :
    p.initramfs = initramfs ∧ p.kernel = kernelFile.drop (setupBytesOf kernelFile) ∧
      p.entry = kernelBase + entry64Offset := by
  obtain ⟨info, hparse, -, rfl⟩ := prepare_eq_ok.mp h
  exact ⟨rfl, by rw [prepared, (parseBzimage_ok hparse).1], rfl⟩

/-! ## The zero page of prepared inputs -/

/-- What `prepare` hands on fits the fields it goes into. -/
theorem fits_of_prepare {kernelFile initramfs : List UInt8} {params : Params} {p : Prepared}
    (h : prepare kernelFile initramfs params = .ok p) :
    p.setup.length = kernelSetupAreaSize ∧ p.info.initSize < 2 ^ 32 ∧
      p.initramfs.length = initramfs.length ∧ initramfs.length < 2 ^ 32 := by
  have hsized := sized_of_prepare h
  have hfiles := (files_of_prepare h).1
  obtain ⟨info, hparse, -, rfl⟩ := prepare_eq_ok.mp h
  obtain ⟨-, rfl⟩ := parseBzimage_eq_ok.mp hparse
  have hend := hsized.initramfs_end_32
  have hle := le_alignUp_page (initramfsBase + initramfs.length)
  refine ⟨hsized.setup_length, getLE_lt 4 _ _, by rw [hfiles], ?_⟩
  rw [hfiles] at hend
  omega

/-- The encoding loses nothing and disturbs nothing: it fails exactly for more entries than
    `boot_params` has room for, Linux finds in the page what went into it and the kernel's
    own header around it, and `prepare` admits no initramfs too long for its field. -/
theorem zeroPage_faithful (setup : List UInt8) (hsetup : setup.length = kernelSetupAreaSize)
    (setupBytes cmdlineMax : Nat) (initSize : UInt32) (initramfsLen : Nat)
    (hinitramfs : initramfsLen < 2 ^ 32) (rsdp setupData : UInt64)
    (entries : List (UInt64 × UInt64 × UInt32)) :
    let info : KernelInfo := ⟨setupBytes, initSize.toNat, cmdlineMax⟩
    let made := zeroPage setup info initramfsLen rsdp.toNat (entries.map natEntry) setupData.toNat
    ((∃ e, made = .error e) ↔ 128 < entries.length) ∧
      (∀ v, made = .ok v → Decodes v setup info initramfsLen rsdp.toNat (entries.map natEntry)
        setupData.toNat) ∧
      ∀ kernelFile initramfs params p, prepare kernelFile initramfs params = .ok p →
        p.setup.length = kernelSetupAreaSize ∧ p.info.initSize < 2 ^ 32 ∧
          p.initramfs.length = initramfs.length ∧ initramfs.length < 2 ^ 32 := by
  refine ⟨?_, fun v hv => ?_, fun kernelFile initramfs params p hp => fits_of_prepare hp⟩
  · rw [zeroPage_error_iff, List.length_map]
  · refine decodes_zeroPage hv hsetup initSize.toNat_lt hinitramfs rsdp.toNat_lt setupData.toNat_lt ?_
    exact List.forall_mem_map.mpr fun e _ => entryFits_natEntry e

theorem zeroPage_faithful_sample :
    ∃ v, zeroPage (zeros kernelSetupAreaSize) ⟨2560, 0x100000, 2048⟩ 0x2000 0x21000
        [(0, 0x9f000, 1), (0x9f000, 0x1000, 2), (0x100000, 0x3ff00000, 1)] 0 = .ok v ∧
      Decodes v (zeros kernelSetupAreaSize) ⟨2560, 0x100000, 2048⟩ 0x2000 0x21000
        [(0, 0x9f000, 1), (0x9f000, 0x1000, 2), (0x100000, 0x3ff00000, 1)] 0 := by
  have hfaithful := zeroPage_faithful (zeros kernelSetupAreaSize) (length_zeros _) 2560 2048
    0x100000 0x2000 (by decide) 0x21000 0
    [(0, 0x9f000, 1), (0x9f000, 0x1000, 2), (0x100000, 0x3ff00000, 1)]
  obtain ⟨v, hv⟩ : ∃ v, zeroPage (zeros kernelSetupAreaSize) ⟨2560, 0x100000, 2048⟩ 0x2000 0x21000
      [(0, 0x9f000, 1), (0x9f000, 0x1000, 2), (0x100000, 0x3ff00000, 1)] 0 = .ok v :=
    ⟨_, zeroPage_eq_ok.mpr ⟨by decide, rfl⟩⟩
  exact ⟨v, hv, hfaithful.2.1 v hv⟩

end BootShim.Image
