-- SUMMARY: The ACPI tables of a guest, one measured page (`src/acpi.rs`), and how a reader walks the MADT.
import BootShim.Layout
import BootShim.Lib.Bytes

/-!
# ACPI tables

`build` writes the RSDP, the XSDT, the FADT, the DSDT and the MADT into one page,
each at its fixed offset. A table is written by its own function here; the page is
written in the source's order. The reader's side, `madtEntries`, walks the MADT by
the lengths its entries state.
-/

namespace BootShim.Acpi

open Bytes Layout

@[simp] abbrev tableHeaderLen : Nat := 36

@[simp] abbrev rsdpChecksum : Nat := 8
@[simp] abbrev rsdpOemId : Nat := 9
@[simp] abbrev rsdpRevision : Nat := 15
@[simp] abbrev rsdpLength : Nat := 20
@[simp] abbrev rsdpXsdt : Nat := 24
@[simp] abbrev rsdpExtChecksum : Nat := 32
/-- The first checksum covers the ACPI 1.0 half of the structure only. -/
@[simp] abbrev rsdpV1Len : Nat := 20

@[simp] abbrev fadtDsdt : Nat := 40
@[simp] abbrev fadtFlags : Nat := 112
@[simp] abbrev fadtMinorVersion : Nat := 131
@[simp] abbrev fadtXDsdt : Nat := 140
@[simp] abbrev fadtWbinvd : Nat := 1
@[simp] abbrev fadtHwReducedAcpi : Nat := 1 <<< 20

@[simp] abbrev madtLapicAddr : Nat := 36
@[simp] abbrev madtFlags : Nat := 40
@[simp] abbrev madtPcatCompat : Nat := 1
@[simp] abbrev madtLocalApic : UInt8 := 0
@[simp] abbrev madtWakeup : UInt8 := 16
@[simp] abbrev lapicEnabled : Nat := 1
@[simp] abbrev localApicAddr : Nat := 0xfee00000

/-- `TINFOI`, `TDXSHIM ` and `TFNL`. -/
def oemId : List UInt8 := [0x54, 0x49, 0x4e, 0x46, 0x4f, 0x49]
def oemTableId : List UInt8 := [0x54, 0x44, 0x58, 0x53, 0x48, 0x49, 0x4d, 0x20]
def creatorId : List UInt8 := [0x54, 0x46, 0x4e, 0x4c]

/-! ## Writing the tables -/

/-- The byte that makes the sum of `v` with it zero. -/
def checksum (v : List UInt8) : UInt8 := 0 - v.foldl (· + ·) 0

def header (v : List UInt8) (off : Nat) (signature : List UInt8) (len : Nat) (revision : UInt8) :
    List UInt8 :=
  let v := write v off signature
  let v := putLE 4 v (off + 4) len
  let v := v.set (off + 8) revision
  let v := write v (off + 10) oemId
  let v := write v (off + 16) oemTableId
  let v := putLE 4 v (off + 24) 1
  let v := write v (off + 28) creatorId
  putLE 4 v (off + 32) 1

/-- Seals the table at `off` with its checksum byte. -/
def finish (v : List UInt8) (off len : Nat) : List UInt8 :=
  let v := v.set (off + 9) 0
  v.set (off + 9) (checksum (slice v off len))

def putRsdp (v : List UInt8) : List UInt8 :=
  let v := write v 0 [0x52, 0x53, 0x44, 0x20, 0x50, 0x54, 0x52, 0x20]
  let v := write v rsdpOemId oemId
  let v := v.set rsdpRevision 2
  let v := putLE 4 v rsdpLength rsdpLen
  let v := putLE 8 v rsdpXsdt (acpiBase + acpiXsdt)
  let v := v.set rsdpChecksum (checksum (slice v 0 rsdpV1Len))
  v.set rsdpExtChecksum (checksum (slice v 0 rsdpLen))

def putXsdt (v : List UInt8) : List UInt8 :=
  let v := header v acpiXsdt [0x58, 0x53, 0x44, 0x54] xsdtLen 1
  let v := putLE 8 v (acpiXsdt + tableHeaderLen) (acpiBase + acpiFadt)
  let v := putLE 8 v (acpiXsdt + tableHeaderLen + 8) (acpiBase + acpiMadt)
  finish v acpiXsdt xsdtLen

/-- Linux disables ACPI when it finds no DSDT to load. -/
def putFadt (v : List UInt8) : List UInt8 :=
  let v := header v acpiFadt [0x46, 0x41, 0x43, 0x50] fadtLen 6
  let v := putLE 4 v (acpiFadt + fadtDsdt) (acpiBase + acpiDsdt)
  let v := putLE 4 v (acpiFadt + fadtFlags) (fadtHwReducedAcpi ||| fadtWbinvd)
  let v := v.set (acpiFadt + fadtMinorVersion) 5
  let v := putLE 8 v (acpiFadt + fadtXDsdt) (acpiBase + acpiDsdt)
  finish v acpiFadt fadtLen

def putDsdt (v : List UInt8) : List UInt8 :=
  finish (header v acpiDsdt [0x44, 0x53, 0x44, 0x54] dsdtLen 2) acpiDsdt dsdtLen

def madtLen (cpus : Nat) (wakeup : Bool) : Nat :=
  madtHeaderLen + cpus * madtLapicLen + if wakeup then madtWakeupLen else 0

/-- One Local APIC entry. The processor's index is cut to the eight bits of an APIC ID. -/
def putLapic (v : List UInt8) (off id : Nat) : List UInt8 :=
  let v := v.set off madtLocalApic
  let v := v.set (off + 1) (UInt8.ofNat madtLapicLen)
  let v := v.set (off + 2) (UInt8.ofNat id)
  let v := v.set (off + 3) (UInt8.ofNat id)
  putLE 4 v (off + 4) lapicEnabled

def putLapics (v : List UInt8) (off : Nat) : List Nat → List UInt8
  | [] => v
  | id :: ids => putLapics (putLapic v off id) (off + madtLapicLen) ids

def putWakeup (v : List UInt8) (off : Nat) : List UInt8 :=
  let v := v.set off madtWakeup
  let v := v.set (off + 1) (UInt8.ofNat madtWakeupLen)
  putLE 8 v (off + 8) mailbox

def putMadt (v : List UInt8) (cpus : Nat) (wakeup : Bool) : List UInt8 :=
  let v := header v acpiMadt [0x41, 0x50, 0x49, 0x43] (madtLen cpus wakeup) 6
  let v := putLE 4 v (acpiMadt + madtLapicAddr) localApicAddr
  let v := putLE 4 v (acpiMadt + madtFlags) madtPcatCompat
  let v := putLapics v (acpiMadt + madtHeaderLen) (List.range cpus)
  let v := if wakeup then putWakeup v (acpiMadt + madtHeaderLen + cpus * madtLapicLen) else v
  finish v acpiMadt (madtLen cpus wakeup)

/-- One measured page: the RSDP at its base, the rest at the offsets the layout fixes. -/
def build (cpus : Nat) (wakeup : Bool) : List UInt8 :=
  let v := zeros page
  let v := putRsdp v
  let v := putXsdt v
  let v := putFadt v
  let v := putDsdt v
  putMadt v cpus wakeup

/-! ## Reading the MADT -/

/-- Splits the body of a MADT into entries by the length each states in its second
    byte. It fails on a length that is no entry's or that runs past the body. -/
def walkEntries : Nat → List UInt8 → Option (List (List UInt8))
  | _, [] => some []
  | 0, _ :: _ => none
  | fuel + 1, bs =>
    let len := (byteAt bs 1).toNat
    if len < 2 ∨ bs.length < len then none
    else (walkEntries fuel (bs.drop len)).map (bs.take len :: ·)

/-- The entries of the MADT in an ACPI page, over the length the table states. -/
def madtEntries (v : List UInt8) : Option (List (List UInt8)) :=
  let len := getLE 4 v (acpiMadt + 4)
  let body := slice v (acpiMadt + madtHeaderLen) (len - madtHeaderLen)
  walkEntries body.length body

/-- The APIC ID of an enabled Local APIC entry. -/
def enabledApicId (entry : List UInt8) : Option Nat :=
  if byteAt entry 0 = madtLocalApic ∧ getLE 4 entry 4 &&& lapicEnabled ≠ 0 then
    some (byteAt entry 3).toNat
  else none

/-- The APIC IDs of the enabled processors that the page describes. -/
def enabledApicIds (v : List UInt8) : Option (List Nat) :=
  (madtEntries v).map fun entries => entries.filterMap enabledApicId

/-! ## Lengths -/

@[simp] theorem length_header (v : List UInt8) (off : Nat) (signature : List UInt8) (len : Nat)
    (revision : UInt8) : (header v off signature len revision).length = v.length := by
  simp [header]

@[simp] theorem length_finish (v : List UInt8) (off len : Nat) :
    (finish v off len).length = v.length := by
  simp [finish]

@[simp] theorem length_putLapic (v : List UInt8) (off id : Nat) :
    (putLapic v off id).length = v.length := by
  simp [putLapic]

@[simp] theorem length_putLapics (v : List UInt8) (off : Nat) (ids : List Nat) :
    (putLapics v off ids).length = v.length := by
  induction ids generalizing v off with
  | nil => rfl
  | cons id ids ih => simp [putLapics, ih]

@[simp] theorem length_putWakeup (v : List UInt8) (off : Nat) :
    (putWakeup v off).length = v.length := by
  simp [putWakeup]

@[simp] theorem length_putMadt (v : List UInt8) (cpus : Nat) (wakeup : Bool) :
    (putMadt v cpus wakeup).length = v.length := by
  simp only [putMadt, length_finish]
  split <;> simp

@[simp] theorem length_build (cpus : Nat) (wakeup : Bool) : (build cpus wakeup).length = page := by
  simp [build, putDsdt, putFadt, putXsdt, putRsdp]

end BootShim.Acpi
