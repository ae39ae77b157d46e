-- SUMMARY: What an ACPI reader finds in the page: every table a pointer leads to, sealed, inside the page and apart from the others.
import BootShim.Acpi.Madt
import Mathlib.Data.UInt

/-!
# Reading the tables

A reader starts at the RSDP and follows pointers: to the XSDT, to what the XSDT lists, and
from the FADT to the DSDT. It takes a table by the length its header states and drops one
whose bytes do not sum to zero. Everything before the MADT is the same for every guest and
is looked at as it is; the MADT is sealed after its last write.
-/

namespace BootShim.Acpi

open Bytes Layout

variable {cpus : Nat} {wakeup : Bool} {v : List UInt8}

/-! ## Sums -/

/-- The sum of the bytes modulo 256. -/
def byteSum (v : List UInt8) : UInt8 := v.foldl (· + ·) 0

/-- Setting a byte moves the sum by the difference. -/
theorem byteSum_set {i : Nat} (hi : i < v.length) (b : UInt8) :
    byteSum (v.set i b) = byteSum v + (b - byteAt v i) := by
  have hat : byteAt v i = v[i] := by
    rw [byteAt, List.getD_eq_getElem?_getD, List.getElem?_eq_getElem hi, Option.getD_some]
  have hsum : (v.set i b).sum = v.sum + if hi : i < v.length then -v[i] + b else 0 :=
    List.sum_set' v i b
  rw [byteSum, byteSum, ← List.sum_eq_foldl, ← List.sum_eq_foldl, hsum, dif_pos hi, hat,
    neg_add_eq_sub]

/-- A checksum set where there was a zero makes the sum zero. -/
theorem byteSum_set_checksum {i : Nat} (hi : i < v.length) (hzero : byteAt v i = 0) :
    byteSum (v.set i (checksum v)) = 0 := by
  rw [byteSum_set hi, hzero, checksum, byteSum]
  simp

/-- A sealed table sums to zero, whatever was written to it before. -/
theorem byteSum_finish {off len : Nat} (hlen : tableHeaderLen ≤ len) (h : off + len ≤ v.length) :
    byteSum (slice (finish v off len) off len) = 0 := by
  have hnine : 9 < (slice v off len).length := by
    simp only [tableHeaderLen] at hlen
    rw [length_slice]
    omega
  simp only [finish]
  rw [slice_set_inside, slice_set_inside]
  exact byteSum_set_checksum (by simpa using hnine) (byteAt_set_self hnine)

/-! ## The reader -/

/-- A table a reader has found. -/
structure Table where
  signature : List UInt8
  off : Nat
  len : Nat
deriving DecidableEq

def rsdpSignature : List UInt8 := [0x52, 0x53, 0x44, 0x20, 0x50, 0x54, 0x52, 0x20]
def xsdtSignature : List UInt8 := [0x58, 0x53, 0x44, 0x54]
def fadtSignature : List UInt8 := [0x46, 0x41, 0x43, 0x50]
def dsdtSignature : List UInt8 := [0x44, 0x53, 0x44, 0x54]

/-- The table at an address of the page, unless it sticks out or its sum is off. -/
def tableAt (v : List UInt8) (address : Nat) : Option Table :=
  let off := address - acpiBase
  let len := getLE 4 v (off + 4)
  if acpiBase ≤ address ∧ tableHeaderLen ≤ len ∧ off + len ≤ page ∧
      byteSum (slice v off len) = 0 then
    some ⟨slice v off 4, off, len⟩
  else none

/-- The pointers an XSDT lists. -/
def pointers (v : List UInt8) (xsdt : Table) : List Nat :=
  (List.range ((xsdt.len - tableHeaderLen) / 8)).map fun i =>
    getLE 8 v (xsdt.off + tableHeaderLen + i * 8)

/-- The RSDP is there, and both its sums are zero. -/
def ValidRsdp (v : List UInt8) : Prop :=
  slice v 0 8 = rsdpSignature ∧ byteSum (slice v 0 rsdpV1Len) = 0 ∧
    getLE 4 v rsdpLength = rsdpLen ∧ byteSum (slice v 0 rsdpLen) = 0

instance (v : List UInt8) : Decidable (ValidRsdp v) := inferInstanceAs (Decidable (_ ∧ _))

/-- The tables a reader finds: the XSDT, what it lists, and the DSDT of the FADT. -/
def readTables (v : List UInt8) : Option (List Table) := do
  guard (ValidRsdp v)
  let xsdt ← tableAt v (getLE 8 v rsdpXsdt)
  let listed ← (pointers v xsdt).mapM (tableAt v)
  let fadt ← listed.find? fun t => t.signature = fadtSignature
  let dsdt ← tableAt v (getLE 8 v (fadt.off + fadtXDsdt))
  pure (xsdt :: listed ++ [dsdt])

/-- The entries of a MADT behind its header, walked over the length it states. -/
def entriesOf (v : List UInt8) (madt : Table) : Option (List (List UInt8)) :=
  walkEntries (madt.len - madtHeaderLen)
    (slice v (madt.off + madtHeaderLen) (madt.len - madtHeaderLen))

/-! ## Tables at fixed offsets -/

/-- A table is found by what its header states, if it is sealed. -/
theorem tableAt_eq_some {sig : List UInt8} {off len : Nat} (hsig : sig.length = 4)
    (hhead : slice v off 8 = sig ++ toLE 4 len) (hlen : tableHeaderLen ≤ len)
    (hpage : off + len ≤ page) (hsum : byteSum (slice v off len) = 0) :
    tableAt v (acpiBase + off) = some ⟨sig, off, len⟩ := by
  have hlt : len < 256 ^ 4 := by
    simp only [page] at hpage
    omega
  have hstated : getLE 4 v (off + 4) = len := by
    have hslice : slice (slice v off 8) 4 4 = slice v (off + 4) 4 := slice_slice (by decide)
    rw [getLE, ← hslice, hhead, slice_append_right hsig.le, hsig]
    exact (congrArg ofLE (slice_zero_length _)).trans (ofLE_toLE_of_lt hlt)
  have hfirst : slice v off 4 = sig := by
    have hslice : slice (slice v off 8) 0 4 = slice v (off + 0) 4 := slice_slice (by decide)
    rw [Nat.add_zero] at hslice
    rw [← hslice, hhead, slice_append_left hsig.ge, ← hsig, slice_zero_length]
  unfold tableAt
  simp only [Nat.add_sub_cancel_left, hstated, hfirst]
  rw [if_pos ⟨Nat.le_add_right _ _, hlen, hpage, hsum⟩]

/-- A table that is sealed with its header in place is found in every page that holds it. -/
theorem tableAt_of_finish {w sig : List UInt8} {off len : Nat} (hsig : sig.length = 4)
    (hread : ∀ n ≤ len, slice v off n = slice (finish w off len) off n)
    (hhead : slice w off 8 = sig ++ toLE 4 len) (hlen : tableHeaderLen ≤ len)
    (hpage : off + len ≤ page) (hw : w.length = page) :
    tableAt v (acpiBase + off) = some ⟨sig, off, len⟩ := by
  refine tableAt_eq_some hsig ?_ hlen hpage ?_
  · rw [hread 8 (le_trans (by decide) hlen), slice_finish_of_disjoint (by omega)]
    exact hhead
  · rw [hread len le_rfl]
    exact byteSum_finish hlen (hw ▸ hpage)

/-- What makes a table found. -/
theorem sealed_of_tableAt {sig : List UInt8} {address off len : Nat}
    (h : tableAt v address = some ⟨sig, off, len⟩) :
    slice v off 4 = sig ∧ getLE 4 v (off + 4) = len ∧ byteSum (slice v off len) = 0 := by
  unfold tableAt at h
  simp only at h
  split at h
  · next hsealed =>
    obtain ⟨hsig, hoff, hlen⟩ := Table.mk.inj (Option.some.inj h)
    rw [hoff] at hsig hlen
    rw [hoff, hlen] at hsealed
    exact ⟨hsig, hlen, hsealed.2.2.2⟩
  · cases h

/-- The page when the XSDT is about to be written. -/
def withRsdp : List UInt8 := putRsdp (zeros page)

theorem length_withRsdp : withRsdp.length = page := by simp [withRsdp, putRsdp]

theorem length_putXsdt (v : List UInt8) : (putXsdt v).length = v.length := by simp [putXsdt]

theorem length_putFadt (v : List UInt8) : (putFadt v).length = v.length := by simp [putFadt]

theorem slice_putXsdt_of_le {off n : Nat} (h : off + n ≤ acpiXsdt) :
    slice (putXsdt v) off n = slice v off n := by
  simp only [acpiXsdt] at h
  simp only [putXsdt]
  rw [slice_finish_of_disjoint (by simp; omega), slice_putLE_of_disjoint (by simp; omega),
    slice_putLE_of_disjoint (by simp; omega), slice_header_of_disjoint rfl (by simp; omega)]

theorem slice_putFadt_of_le {off n : Nat} (h : off + n ≤ acpiFadt) :
    slice (putFadt v) off n = slice v off n := by
  simp only [acpiFadt] at h
  simp only [putFadt]
  rw [slice_finish_of_disjoint (by simp; omega), slice_putLE_of_disjoint (by simp; omega),
    slice_set_of_disjoint (by simp; omega), slice_putLE_of_disjoint (by simp; omega),
    slice_putLE_of_disjoint (by simp; omega), slice_header_of_disjoint rfl (by simp; omega)]

theorem slice_putDsdt_of_le {off n : Nat} (h : off + n ≤ acpiDsdt) :
    slice (putDsdt v) off n = slice v off n := by
  simp only [acpiDsdt] at h
  simp only [putDsdt]
  rw [slice_finish_of_disjoint (by simp; omega), slice_header_of_disjoint rfl (by simp; omega)]

theorem slice_putMadt_of_le {off n : Nat} (h : off + n ≤ acpiMadt) :
    slice (putMadt v cpus wakeup) off n = slice v off n := by
  simp only [acpiMadt] at h
  rw [slice_putMadt_head (by simp; omega), slice_header_of_disjoint rfl (by simp; omega)]

/-- Each table is written behind those before it, which stay as they are. -/
theorem slice_build_rsdp {off n : Nat} (h : off + n ≤ acpiXsdt) :
    slice (build cpus wakeup) off n = slice withRsdp off n := by
  have h' : off + n ≤ acpiFadt := h.trans (by decide)
  have h'' : off + n ≤ acpiDsdt := h.trans (by decide)
  have h''' : off + n ≤ acpiMadt := h.trans (by decide)
  simp only [build]
  rw [slice_putMadt_of_le h''', slice_putDsdt_of_le h'', slice_putFadt_of_le h',
    slice_putXsdt_of_le h, withRsdp]

theorem slice_build_xsdt {off n : Nat} (h : off + n ≤ acpiFadt) :
    slice (build cpus wakeup) off n = slice (putXsdt withRsdp) off n := by
  have h' : off + n ≤ acpiDsdt := h.trans (by decide)
  have h'' : off + n ≤ acpiMadt := h.trans (by decide)
  simp only [build]
  rw [slice_putMadt_of_le h'', slice_putDsdt_of_le h', slice_putFadt_of_le h, withRsdp]

theorem slice_build_fadt {off n : Nat} (h : off + n ≤ acpiDsdt) :
    slice (build cpus wakeup) off n = slice (putFadt (putXsdt withRsdp)) off n := by
  have h' : off + n ≤ acpiMadt := h.trans (by decide)
  simp only [build]
  rw [slice_putMadt_of_le h', slice_putDsdt_of_le h, withRsdp]

theorem slice_build_dsdt {off n : Nat} (h : off + n ≤ acpiMadt) :
    slice (build cpus wakeup) off n = slice (putDsdt (putFadt (putXsdt withRsdp))) off n := by
  simp only [build]
  rw [slice_putMadt_of_le h, withRsdp]

/-! ## What the reader meets -/

variable (cpus wakeup) in
theorem validRsdp_build : ValidRsdp (build cpus wakeup) := by
  have hvalid : ValidRsdp withRsdp := by decide +kernel
  rw [ValidRsdp, getLE, slice_build_rsdp (by decide), slice_build_rsdp (by decide),
    slice_build_rsdp (by decide), slice_build_rsdp (by decide)]
  exact hvalid

variable (cpus wakeup) in
theorem rsdpXsdt_build : getLE 8 (build cpus wakeup) rsdpXsdt = acpiBase + acpiXsdt := by
  rw [getLE, slice_build_rsdp (by decide)]
  decide +kernel

variable (cpus wakeup) in
theorem tableAt_xsdt : tableAt (build cpus wakeup) (acpiBase + acpiXsdt) =
    some ⟨xsdtSignature, acpiXsdt, xsdtLen⟩ := by
  refine tableAt_of_finish rfl
    (fun n hn => slice_build_xsdt ((Nat.add_le_add_left hn _).trans (by decide)))
    ?_ (by decide) (by decide) (by simp [length_withRsdp])
  rw [slice_putLE_of_disjoint (by decide), slice_putLE_of_disjoint (by decide)]
  exact slice_header rfl (by rw [length_withRsdp]; decide)

variable (cpus wakeup) in
theorem tableAt_fadt : tableAt (build cpus wakeup) (acpiBase + acpiFadt) =
    some ⟨fadtSignature, acpiFadt, fadtLen⟩ := by
  refine tableAt_of_finish rfl
    (fun n hn => slice_build_fadt ((Nat.add_le_add_left hn _).trans (by decide)))
    ?_ (by decide) (by decide) (by simp [length_putXsdt, length_withRsdp])
  rw [slice_putLE_of_disjoint (by decide), slice_set_of_disjoint (by decide),
    slice_putLE_of_disjoint (by decide), slice_putLE_of_disjoint (by decide)]
  exact slice_header rfl (by rw [length_putXsdt, length_withRsdp]; decide)

variable (cpus wakeup) in
theorem tableAt_dsdt : tableAt (build cpus wakeup) (acpiBase + acpiDsdt) =
    some ⟨dsdtSignature, acpiDsdt, dsdtLen⟩ := by
  have hlen : (putFadt (putXsdt withRsdp)).length = page := by
    rw [length_putFadt, length_putXsdt, length_withRsdp]
  refine tableAt_of_finish rfl
    (fun n hn => slice_build_dsdt ((Nat.add_le_add_left hn _).trans (by decide)))
    ?_ (by decide) (by decide) ((length_header ..).trans hlen)
  exact slice_header rfl (by rw [hlen]; decide)

/-- The MADT is sealed after its last entry is written, however many there are. -/
theorem tableAt_madt (hcpus : cpus ≤ maxVcpus) :
    tableAt (build cpus wakeup) (acpiBase + acpiMadt) =
      some ⟨madtSignature, acpiMadt, madtLen cpus wakeup⟩ := by
  have hheader : tableHeaderLen ≤ madtLen cpus wakeup := by
    simp only [tableHeaderLen, madtLen, madtHeaderLen]
    omega
  refine tableAt_eq_some rfl (slice_build_madt cpus wakeup) hheader (madtLen_le hcpus) ?_
  change byteSum (slice (putMadt beforeMadt cpus wakeup) _ _) = 0
  simp only [putMadt]
  refine byteSum_finish hheader ?_
  split <;> simpa [length_beforeMadt] using madtLen_le hcpus

/-- The XSDT lists the FADT and the MADT. -/
theorem pointers_build : pointers (build cpus wakeup) ⟨xsdtSignature, acpiXsdt, xsdtLen⟩ =
    [acpiBase + acpiFadt, acpiBase + acpiMadt] := by
  have hlen : acpiXsdt + xsdtLen ≤ withRsdp.length := by
    rw [length_withRsdp]
    decide
  have hfadt : getLE 8 (build cpus wakeup) (acpiXsdt + tableHeaderLen + 0 * 8) =
      acpiBase + acpiFadt := by
    rw [getLE, slice_build_xsdt (by decide)]
    simp only [putXsdt]
    rw [slice_finish_of_disjoint (by decide), slice_putLE_of_disjoint (by decide)]
    refine (getLE_putLE_self ?_).trans (by decide)
    rw [length_header]
    exact le_trans (by decide) hlen
  have hmadt : getLE 8 (build cpus wakeup) (acpiXsdt + tableHeaderLen + 1 * 8) =
      acpiBase + acpiMadt := by
    rw [getLE, slice_build_xsdt (by decide)]
    simp only [putXsdt]
    rw [slice_finish_of_disjoint (by decide)]
    refine (getLE_putLE_self ?_).trans (by decide)
    rw [length_putLE, length_header]
    exact le_trans (by decide) hlen
  have hcount : (xsdtLen - tableHeaderLen) / 8 = 2 := by decide
  rw [pointers]
  simp only [hcount]
  exact congrArg₂ (fun p q => [p, q]) hfadt hmadt

/-- Both fields of the FADT that name the DSDT name the same one. -/
theorem fadtDsdt_build : getLE 8 (build cpus wakeup) (acpiFadt + fadtXDsdt) = acpiBase + acpiDsdt ∧
    getLE 4 (build cpus wakeup) (acpiFadt + fadtDsdt) = acpiBase + acpiDsdt := by
  have hlen : acpiFadt + fadtLen ≤ (putXsdt withRsdp).length := by
    rw [length_putXsdt, length_withRsdp]
    decide
  have hfits : ∀ {w : List UInt8}, w.length = page →
      ∀ {off n : Nat}, off + n ≤ page → off + n ≤ w.length := by
    rintro w hw off n h
    rwa [hw]
  constructor <;> rw [getLE, slice_build_fadt (by decide)] <;> simp only [putFadt]
  · rw [slice_finish_of_disjoint (by decide)]
    change getLE 8 (putLE 8 _ _ _) _ = _
    rw [getLE_putLE_self (hfits (by simp [length_putXsdt, length_withRsdp]) (by decide))]
    decide
  · rw [slice_finish_of_disjoint (by decide), slice_putLE_of_disjoint (by decide),
      slice_set_of_disjoint (by decide), slice_putLE_of_disjoint (by decide)]
    change getLE 4 (putLE 4 _ _ _) _ = _
    rw [getLE_putLE_self (hfits (by simp [length_putXsdt, length_withRsdp]) (by decide))]
    decide

/-- The tables that were meant. -/
def intendedTables (cpus : Nat) (wakeup : Bool) : List Table :=
  [⟨xsdtSignature, acpiXsdt, xsdtLen⟩, ⟨fadtSignature, acpiFadt, fadtLen⟩,
    ⟨madtSignature, acpiMadt, madtLen cpus wakeup⟩, ⟨dsdtSignature, acpiDsdt, dsdtLen⟩]

theorem readTables_build (hcpus : cpus ≤ maxVcpus) :
    readTables (build cpus wakeup) = some (intendedTables cpus wakeup) := by
  have hguard : (guard (ValidRsdp (build cpus wakeup)) : Option Unit) = some () :=
    if_pos (validRsdp_build cpus wakeup)
  have hlisted : (pointers (build cpus wakeup) ⟨xsdtSignature, acpiXsdt, xsdtLen⟩).mapM
      (tableAt (build cpus wakeup)) = some [⟨fadtSignature, acpiFadt, fadtLen⟩,
        ⟨madtSignature, acpiMadt, madtLen cpus wakeup⟩] := by
    rw [pointers_build, List.mapM_cons, List.mapM_cons, tableAt_fadt, tableAt_madt hcpus]
    rfl
  have hdsdt : tableAt (build cpus wakeup) (getLE 8 (build cpus wakeup) (acpiFadt + fadtXDsdt)) =
      some ⟨dsdtSignature, acpiDsdt, dsdtLen⟩ := by
    rw [fadtDsdt_build.1, tableAt_dsdt]
  have hfadt : List.find? (fun t : Table => decide (t.signature = fadtSignature))
      [⟨fadtSignature, acpiFadt, fadtLen⟩, ⟨madtSignature, acpiMadt, madtLen cpus wakeup⟩] =
      some ⟨fadtSignature, acpiFadt, fadtLen⟩ := rfl
  unfold readTables
  simp only [Option.bind_eq_bind, Option.bind_some, hguard, rsdpXsdt_build, tableAt_xsdt, hlisted,
    hfadt, hdsdt]
  rfl

/-! ## The whole page -/

/-- An enabled Local APIC entry. -/
structure IsLapic (entry : List UInt8) : Prop where
  length : entry.length = 8
  kind : byteAt entry 0 = madtLocalApic
  stated : (byteAt entry 1).toNat = 8
  enabled : getLE 4 entry 4 &&& lapicEnabled ≠ 0

/-- A wakeup entry that holds the mailbox. -/
structure IsWakeup (entry : List UInt8) : Prop where
  length : entry.length = 16
  kind : byteAt entry 0 = madtWakeup
  stated : (byteAt entry 1).toNat = 16
  mailbox : getLE 8 entry 8 = mailbox

/-- One Local APIC entry for each processor, then the wakeup entry where there is one. -/
def EntriesFor (cpus : Nat) (wakeup : Bool) (entries : List (List UInt8)) : Prop :=
  ∃ lapics wake, entries = lapics ++ wake ∧ lapics.length = cpus ∧ (∀ e ∈ lapics, IsLapic e) ∧
    wake.length = (if wakeup then 1 else 0) ∧ ∀ e ∈ wake, IsWakeup e

/-- The reader finds exactly the intended tables. -/
structure ReadsBack (v : List UInt8) (cpus : Nat) (wakeup : Bool) : Prop where
  rsdp : byteSum (slice v 0 20) = 0 ∧ byteSum (slice v 0 36) = 0
  found : readTables v = some (intendedTables cpus wakeup)
  sealed : ∀ t ∈ intendedTables cpus wakeup,
    slice v t.off 4 = t.signature ∧ getLE 4 v (t.off + 4) = t.len ∧ byteSum (slice v t.off t.len) = 0
  inside : ∀ t ∈ intendedTables cpus wakeup, t.off + t.len ≤ page
  apart : (⟨rsdpSignature, 0, rsdpLen⟩ :: intendedTables cpus wakeup).Pairwise
    fun s t => s.off + s.len ≤ t.off ∨ t.off + t.len ≤ s.off
  /-- Every pointer leads to the start of a table. -/
  pointed : getLE 8 v rsdpXsdt = acpiBase + acpiXsdt ∧
    pointers v ⟨xsdtSignature, acpiXsdt, xsdtLen⟩ = [acpiBase + acpiFadt, acpiBase + acpiMadt] ∧
    getLE 8 v (acpiFadt + fadtXDsdt) = acpiBase + acpiDsdt ∧
    getLE 4 v (acpiFadt + fadtDsdt) = acpiBase + acpiDsdt
  /-- The walk ends where the MADT does, or there would be no entries. -/
  walked : ∃ entries, entriesOf v ⟨madtSignature, acpiMadt, madtLen cpus wakeup⟩ = some entries ∧
    EntriesFor cpus wakeup entries ∧ madtHeaderLen + entries.flatten.length = madtLen cpus wakeup

theorem entriesFor_expectedEntries (cpus : Nat) (wakeup : Bool) :
    EntriesFor cpus wakeup (expectedEntries cpus wakeup) := by
  refine ⟨(List.range cpus).map lapicBytes, if wakeup then [wakeupBytes] else [], rfl, ?_, ?_, ?_, ?_⟩
  · rw [List.length_map, List.length_range]
  · intro e he
    obtain ⟨id, -, rfl⟩ := List.mem_map.mp he
    refine ⟨rfl, rfl, rfl, ?_⟩
    simp [lapicBytes, getLE, slice, ofLE]
  · cases wakeup <;> rfl
  · intro e he
    cases wakeup with
    | false => cases he
    | true =>
      obtain rfl : e = wakeupBytes := List.mem_singleton.mp he
      exact ⟨by decide, by decide, by decide, by decide⟩

/-- Whatever the number of processors, a reader of the page finds the tables that were
    meant, sealed and apart, and an entry for each processor. -/
theorem readsBack_build (hcpus : cpus ≤ maxVcpus) : ReadsBack (build cpus wakeup) cpus wakeup where
  rsdp := by
    have hvalid := validRsdp_build cpus wakeup
    exact ⟨hvalid.2.1, hvalid.2.2.2⟩
  found := readTables_build hcpus
  sealed := by
    refine List.forall_mem_cons.mpr ⟨sealed_of_tableAt (tableAt_xsdt cpus wakeup), ?_⟩
    refine List.forall_mem_cons.mpr ⟨sealed_of_tableAt (tableAt_fadt cpus wakeup), ?_⟩
    refine List.forall_mem_cons.mpr ⟨sealed_of_tableAt (tableAt_madt hcpus), ?_⟩
    exact List.forall_mem_singleton.mpr (sealed_of_tableAt (tableAt_dsdt cpus wakeup))
  inside := by
    have hmadt : acpiMadt + madtLen cpus wakeup ≤ page := madtLen_le hcpus
    refine List.forall_mem_cons.mpr ⟨by decide, List.forall_mem_cons.mpr ⟨by decide, ?_⟩⟩
    exact List.forall_mem_cons.mpr ⟨hmadt, List.forall_mem_singleton.mpr (by decide)⟩
  apart := by
    simp [intendedTables]
  pointed := ⟨rsdpXsdt_build cpus wakeup, pointers_build, fadtDsdt_build⟩
  walked := by
    refine ⟨expectedEntries cpus wakeup, ?_, entriesFor_expectedEntries cpus wakeup, ?_⟩
    · rw [entriesOf, slice_madtBody hcpus]
      refine walkEntries_flatten (fun e he => isEntry_of_mem_expectedEntries he) ?_
      rw [length_flatten_expectedEntries]
    · have hheader : madtHeaderLen ≤ madtLen cpus wakeup := by
        simp only [madtLen]
        omega
      rw [length_flatten_expectedEntries, Nat.add_sub_cancel' hheader]

theorem readsBack_build_sample : 4 ≤ maxVcpus ∧ ReadsBack (build 4 true) 4 true :=
  ⟨by decide, readsBack_build (by decide)⟩

end BootShim.Acpi
