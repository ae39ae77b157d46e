-- SUMMARY: The parameters of a guest and the checks that admit them (`Params` in `src/layout.rs`).
import BootShim.Layout
import BootShim.Lib.Checked
import BootShim.Lib.Text

/-!
# Parameters

`Params::tdx` and `Params::snp` check what an operator asks for and derive the
map's top and its apertures from it. The arguments keep the source's machine
types; the record that comes out holds natural numbers.
-/

namespace BootShim

open Checked Layout

/-- What one image is built for. -/
structure Params where
  /-- Top of the guest-physical map: low RAM, the PCI aperture and high RAM. -/
  memory : Nat
  vcpus : Nat
  cmdline : List Char
  cbit : Nat
  /-- Absent from E820 so Linux assigns BARs out of them, and accepted by no shim. -/
  mmio : List (Nat × Nat)
deriving DecidableEq

namespace Params

/-- The command line an image measures: the operator's text or the default, with
    the required word on it. -/
def normalizeCmdline (cmdline : List Char) : List Char :=
  match Text.trim cmdline with
  | [] => defaultCmdline ++ ' ' :: requiredCmdline
  | c =>
    if requiredCmdline ∈ Text.splitWhitespace c then c
    else c ++ ' ' :: requiredCmdline

/-- The top of the map for a guest of `ram` bytes. A split guest restacks above 4 GiB. -/
def mapTop (ram : Nat) : Nat := if q35Split ≤ ram then fourGib + ram - q35Lowmem else ram

/-- The aperture a split guest has without asking, from the low RAM up to `holeEnd`. -/
def pciHole (ram holeEnd : Nat) : List (Nat × Nat) :=
  if q35Split ≤ ram then [(q35Lowmem, holeEnd - q35Lowmem)] else []

/-- The two checks on one aperture. The end is a 64-bit sum, which wraps. -/
def checkHole (memory : Nat) (hole : Nat × Nat) : Except String Unit := do
  ensure (hole.1 % page = 0 ∧ hole.2 % page = 0 ∧ hole.2 ≠ 0)
    "--mmio-hole must be a non-empty page-aligned range"
  ensure (addU64 hole.1 hole.2 ≤ memory)
    "--mmio-hole lies outside the memory the image describes"

/-- A hole as the operator gives it, as a pair of numbers. -/
def holeToNat (hole : UInt64 × UInt64) : Nat × Nat := (hole.1.toNat, hole.2.toNat)

def new (ram : UInt64) (vcpus : UInt32) (cmdline : List Char) (cbit : UInt8)
    (mmio : List (UInt64 × UInt64)) (holeEnd : Nat) : Except String Params := do
  ensure (ram.toNat % page = 0 ∧ initramfsBase < ram.toNat ∧ ram.toNat ≤ maxRam)
    ("--ram must be page-aligned, larger than " ++ Text.hex initramfsBase 0 ++
      " and at most " ++ Text.hex maxRam 0)
  ensure (0 < vcpus.toNat ∧ vcpus.toNat ≤ maxVcpus) s!"--vcpus must be between 1 and {maxVcpus}"
  ensure (32 ≤ cbit.toNat ∧ cbit.toNat ≤ 63)
    "--cbit must name a bit in the physical address width"
  let cmdline := normalizeCmdline cmdline
  ensure (cmdline.all fun c => c.toNat ≠ 0 ∧ c.toNat < 128) "--cmdline must be printable ASCII"
  let memory := mapTop ram.toNat
  let mmio := pciHole ram.toNat holeEnd ++ mmio.map holeToNat
  forAll (checkHole memory) mmio
  pure { memory, vcpus := vcpus.toNat, cmdline, cbit := cbit.toNat, mmio }

/-- The TDX shim runs from the reset page, so the aperture stops short of it. -/
def tdx (ram : UInt64) (vcpus : UInt32) (cmdline : List Char) (mmio : List (UInt64 × UInt64)) :
    Except String Params :=
  new ram vcpus cmdline defaultCbit mmio resetAlias

/-- The SNP map, which places nothing inside the aperture, so it runs to 4 GiB. -/
def snp (ram : UInt64) (vcpus : UInt32) (cbit : UInt8) (cmdline : List Char)
    (mmio : List (UInt64 × UInt64)) : Except String Params :=
  new ram vcpus cmdline cbit mmio fourGib

/-! ## Normalising twice -/

/-- A trimmed command line with the required word on it stays as it is. -/
theorem normalizeCmdline_eq_self {cmdline : List Char} (htrim : Text.trim cmdline = cmdline)
    (hrequired : requiredCmdline ∈ Text.splitWhitespace cmdline) :
    normalizeCmdline cmdline = cmdline := by
  unfold normalizeCmdline
  rw [htrim]
  cases cmdline with
  | nil => cases hrequired
  | cons c cs => exact if_pos hrequired

theorem trim_append_required {c : List Char} (htrim : Text.trimStart c = c) (hnil : c ≠ []) :
    Text.trim (c ++ ' ' :: requiredCmdline) = c ++ ' ' :: requiredCmdline :=
  Text.trim_eq_self (Text.trimStart_append htrim hnil _)
    (Text.trimEnd_append c (by decide +kernel) (List.cons_ne_nil _ _))

theorem required_mem_append_required (c : List Char) :
    requiredCmdline ∈ Text.splitWhitespace (c ++ ' ' :: requiredCmdline) := by
  rw [Text.splitWhitespace_append_cons _ _ (by decide)]
  exact List.mem_append_right _ (by decide +kernel)

/-- A command line is normalised once. -/
theorem normalizeCmdline_normalizeCmdline (cmdline : List Char) :
    normalizeCmdline (normalizeCmdline cmdline) = normalizeCmdline cmdline := by
  apply normalizeCmdline_eq_self
  · unfold normalizeCmdline
    split
    · exact trim_append_required (by decide +kernel) (by decide)
    · next hnil =>
      split
      · exact Text.trim_trim cmdline
      · exact trim_append_required (Text.trimStart_trim cmdline) hnil
  · unfold normalizeCmdline
    split
    · exact required_mem_append_required _
    · split
      · next hrequired => exact hrequired
      · exact required_mem_append_required _

/-! ## What an admitted guest satisfies -/

/-- The aperture's own end does not fit in 64 bits. -/
def Wraps (hole : Nat × Nat) : Prop := 2 ^ 64 ≤ hole.1 + hole.2

instance (hole : Nat × Nat) : Decidable (Wraps hole) := inferInstanceAs (Decidable (_ ≤ _))

/-- Everything the checks of `Params::new` leave known about its result. -/
structure Admitted (ram : Nat) (vcpus : Nat) (cmdline : List Char) (cbit : Nat)
    (mmio : List (Nat × Nat)) (holeEnd : Nat) (p : Params) : Prop where
  ram_aligned : ram % page = 0
  ram_gt : initramfsBase < ram
  ram_le : ram ≤ maxRam
  vcpus_pos : 0 < vcpus
  vcpus_le : vcpus ≤ maxVcpus
  cbit_ge : 32 ≤ cbit
  cbit_le : cbit ≤ 63
  cmdline_ascii : ∀ c ∈ normalizeCmdline cmdline, c.toNat ≠ 0 ∧ c.toNat < 128
  hole_aligned : ∀ h ∈ pciHole ram holeEnd ++ mmio, h.1 % page = 0 ∧ h.2 % page = 0 ∧ h.2 ≠ 0
  hole_le : ∀ h ∈ pciHole ram holeEnd ++ mmio, addU64 h.1 h.2 ≤ mapTop ram
  eq : p = ⟨mapTop ram, vcpus, normalizeCmdline cmdline, cbit, pciHole ram holeEnd ++ mmio⟩

theorem checkHole_eq_ok {memory : Nat} {hole : Nat × Nat} {u : Unit} :
    checkHole memory hole = .ok u ↔
      (hole.1 % page = 0 ∧ hole.2 % page = 0 ∧ hole.2 ≠ 0) ∧ addU64 hole.1 hole.2 ≤ memory := by
  simp only [checkHole, bind_eq_ok, ensure_eq_ok, exists_and_left, exists_const]

/-- `Params::new` succeeds exactly on the guests it admits. -/
theorem new_eq_ok {ram : UInt64} {vcpus : UInt32} {cmdline : List Char} {cbit : UInt8}
    {mmio : List (UInt64 × UInt64)} {holeEnd : Nat} {p : Params} :
    new ram vcpus cmdline cbit mmio holeEnd = .ok p ↔
      Admitted ram.toNat vcpus.toNat cmdline cbit.toNat (mmio.map holeToNat) holeEnd p := by
  simp only [new, bind_eq_ok, ensure_eq_ok, forAll_eq_ok, checkHole_eq_ok, pure_eq_ok,
    List.all_eq_true, decide_eq_true_eq, exists_and_left, exists_const]
  constructor
  · rintro ⟨⟨h₁, h₂, h₃⟩, ⟨h₄, h₅⟩, ⟨h₆, h₇⟩, h₈, h₉, rfl⟩
    exact ⟨h₁, h₂, h₃, h₄, h₅, h₆, h₇, h₈, fun h hh => (h₉ h hh).1, fun h hh => (h₉ h hh).2, rfl⟩
  · intro h
    exact ⟨⟨h.ram_aligned, h.ram_gt, h.ram_le⟩, ⟨h.vcpus_pos, h.vcpus_le⟩,
      ⟨h.cbit_ge, h.cbit_le⟩, h.cmdline_ascii,
      fun x hx => ⟨h.hole_aligned x hx, h.hole_le x hx⟩, h.eq.symm⟩

/-- What every admitted guest satisfies, whichever platform it is for. -/
structure Valid (p : Params) : Prop where
  memory_aligned : p.memory % page = 0
  memory_gt : initramfsBase < p.memory
  memory_le : p.memory ≤ mapLimit
  vcpus_pos : 0 < p.vcpus
  vcpus_le : p.vcpus ≤ maxVcpus
  cbit_ge : 32 ≤ p.cbit
  cbit_le : p.cbit ≤ 63
  hole_lt : ∀ h ∈ p.mmio, h.1 < 2 ^ 64 ∧ h.2 < 2 ^ 64
  hole_aligned : ∀ h ∈ p.mmio, h.1 % page = 0 ∧ h.2 % page = 0 ∧ h.2 ≠ 0
  hole_le : ∀ h ∈ p.mmio, addU64 h.1 h.2 ≤ p.memory

theorem Admitted.valid {ram vcpus cbit holeEnd : Nat} {cmdline : List Char}
    {mmio : List (UInt64 × UInt64)} {p : Params}
    (h : Admitted ram vcpus cmdline cbit (mmio.map holeToNat) holeEnd p)
    (hend : holeEnd < 2 ^ 64) : Valid p := by
  have haligned := h.ram_aligned
  have hgt := h.ram_gt
  have hle := h.ram_le
  obtain rfl := h.eq
  refine ⟨?_, ?_, ?_, h.vcpus_pos, h.vcpus_le, h.cbit_ge, h.cbit_le, ?_, h.hole_aligned, h.hole_le⟩
  · simp only [mapTop]
    split
    · simp only [page, fourGib, gib, q35Lowmem, q35Split] at *
      omega
    · exact haligned
  · simp only [mapTop, initramfsBase, fourGib, gib, q35Lowmem, q35Split] at *
    split <;> omega
  · simp only [mapTop, initramfsBase, mapLimit, maxRam, fourGib, gib, q35Lowmem, q35Split] at *
    split <;> omega
  · intro g hg
    rcases List.mem_append.mp hg with hg | hg
    · simp only [pciHole] at hg
      split at hg
      · obtain rfl := List.mem_singleton.mp hg
        simp only [q35Lowmem, gib] at *
        omega
      · exact absurd hg List.not_mem_nil
    · obtain ⟨⟨b, n⟩, -, rfl⟩ := List.mem_map.mp hg
      exact ⟨b.toNat_lt, n.toNat_lt⟩

theorem valid_of_tdx {ram : UInt64} {vcpus : UInt32} {cmdline : List Char}
    {mmio : List (UInt64 × UInt64)} {p : Params} (h : tdx ram vcpus cmdline mmio = .ok p) : Valid p :=
  (new_eq_ok.mp h).valid (by decide)

theorem valid_of_snp {ram : UInt64} {vcpus : UInt32} {cbit : UInt8} {cmdline : List Char}
    {mmio : List (UInt64 × UInt64)} {p : Params} (h : snp ram vcpus cbit cmdline mmio = .ok p) :
    Valid p :=
  (new_eq_ok.mp h).valid (by decide)

end Params

end BootShim
