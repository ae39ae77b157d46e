-- SUMMARY: What a reader of the MADT finds: one Local APIC entry per processor, under the low eight bits of its index.
import BootShim.Acpi.Tables
import BootShim.Lib.Checked

/-!
# Reading the MADT back

The body of the MADT that `build` writes is the concatenation of its entries, so a
reader that walks it by the stated lengths meets exactly those, whatever the number
of processors. The APIC IDs it finds are the indices cut to eight bits: they name
the processors apart up to 256 of them.
-/

namespace BootShim.Acpi

open Bytes Layout

/-! ## Walking entries -/

/-- An entry states its own length in its second byte. -/
structure IsEntry (e : List UInt8) : Prop where
  two_le : 2 ≤ e.length
  length_eq : (byteAt e 1).toNat = e.length

theorem walkEntries_succ_cons (fuel : Nat) (b : UInt8) (bs : List UInt8) :
    walkEntries (fuel + 1) (b :: bs) =
      let len := (byteAt (b :: bs) 1).toNat
      if len < 2 ∨ (b :: bs).length < len then none
      else (walkEntries fuel ((b :: bs).drop len)).map ((b :: bs).take len :: ·) := rfl

/-- A concatenation of entries is walked into those entries. -/
theorem walkEntries_flatten {es : List (List UInt8)} (hes : ∀ e ∈ es, IsEntry e) {fuel : Nat}
    (hfuel : es.flatten.length ≤ fuel) : walkEntries fuel es.flatten = some es := by
  induction es generalizing fuel with
  | nil => cases fuel <;> rfl
  | cons e es ih =>
    obtain ⟨he, hes⟩ := List.forall_mem_cons.mp hes
    have htwo := he.two_le
    rw [List.flatten_cons, List.length_append] at hfuel
    obtain ⟨b, bs, hcons⟩ : ∃ b bs, e ++ es.flatten = b :: bs := by
      cases e with
      | nil => simp at htwo
      | cons b bs => exact ⟨b, bs ++ es.flatten, rfl⟩
    obtain ⟨f, rfl⟩ : ∃ f, fuel = f + 1 := ⟨fuel - 1, by omega⟩
    have hlen : (byteAt (e ++ es.flatten) 1).toNat = e.length := by
      rw [← he.length_eq, byteAt, byteAt, List.getD_eq_getElem?_getD,
        List.getElem?_append_left (by omega), List.getD_eq_getElem?_getD]
    rw [List.flatten_cons, hcons, walkEntries_succ_cons]
    simp only [← hcons, hlen]
    rw [if_neg (by rw [List.length_append]; omega), List.drop_left, List.take_left,
      ih hes (by omega)]
    rfl

/-! ## The entries of the MADT -/

/-- The bytes of a Local APIC entry. -/
def lapicBytes (id : Nat) : List UInt8 :=
  [madtLocalApic, 8, UInt8.ofNat id, UInt8.ofNat id, 1, 0, 0, 0]

/-- The bytes of the wakeup entry. -/
def wakeupBytes : List UInt8 := [madtWakeup, 16] ++ zeros 6 ++ toLE 8 mailbox

@[simp] theorem length_lapicBytes (id : Nat) : (lapicBytes id).length = 8 := rfl

@[simp] theorem length_wakeupBytes : wakeupBytes.length = 16 := rfl

theorem putLapic_eq (v : List UInt8) (off id : Nat) :
    putLapic v off id = write v off (lapicBytes id) := rfl

theorem putLapics_eq (v : List UInt8) (off : Nat) (ids : List Nat) :
    putLapics v off ids = write v off (ids.flatMap lapicBytes) := by
  induction ids generalizing v off with
  | nil => rfl
  | cons id ids ih =>
    rw [putLapics, ih, List.flatMap_cons, write_append, putLapic_eq, length_lapicBytes]

theorem length_flatMap_lapicBytes (ids : List Nat) :
    (ids.flatMap lapicBytes).length = 8 * ids.length := by
  induction ids with
  | nil => rfl
  | cons id ids ih => rw [List.flatMap_cons, List.length_append, ih, List.length_cons]; simp; omega

/-- Over a blank buffer the wakeup entry is its bytes. -/
theorem slice_putWakeup {v : List UInt8} {off : Nat} (hlen : off + 16 ≤ v.length)
    (hblank : slice v (off + 2) 6 = zeros 6) :
    slice (putWakeup v off) off 16 = wakeupBytes := by
  have hput : putWakeup v off = putLE 8 (write v off [madtWakeup, 16]) (off + 8) mailbox := rfl
  rw [hput, slice_append_slice _ off 8 8, slice_append_slice _ off 2 6, wakeupBytes]
  congr 1
  · congr 1
    · rw [slice_putLE_of_disjoint (by omega)]
      exact slice_write_self (by simp; omega)
    · rw [slice_putLE_of_disjoint (by omega), slice_write_of_disjoint (by simp), hblank]
  · exact slice_write_self (by simp; omega)

/-- The entries a reader should find. -/
def expectedEntries (cpus : Nat) (wakeup : Bool) : List (List UInt8) :=
  (List.range cpus).map lapicBytes ++ if wakeup then [wakeupBytes] else []

theorem isEntry_of_mem_expectedEntries {cpus : Nat} {wakeup : Bool} {e : List UInt8}
    (he : e ∈ expectedEntries cpus wakeup) : IsEntry e := by
  rw [expectedEntries, List.mem_append, List.mem_map] at he
  rcases he with ⟨id, _, rfl⟩ | he
  · exact ⟨by simp, rfl⟩
  · obtain rfl : e = wakeupBytes := by
      split at he
      · exact List.mem_singleton.mp he
      · cases he
    exact ⟨by simp, rfl⟩

theorem length_flatten_expectedEntries (cpus : Nat) (wakeup : Bool) :
    (expectedEntries cpus wakeup).flatten.length = madtLen cpus wakeup - madtHeaderLen := by
  rw [expectedEntries, List.flatten_append, List.length_append, ← List.flatMap_def,
    length_flatMap_lapicBytes, List.length_range, madtLen]
  split <;> simp <;> omega

/-- The page before the MADT is written: the tables that precede it, and zeros. -/
def beforeMadt : List UInt8 := putDsdt (putFadt (putXsdt (putRsdp (zeros page))))

theorem length_beforeMadt : beforeMadt.length = page := by
  simp [beforeMadt, putDsdt, putFadt, putXsdt, putRsdp]

theorem slice_header_of_disjoint {v sig : List UInt8} {off len off' n : Nat}
    {revision : UInt8} (hsig : sig.length = 4) (h : off + 36 ≤ off' ∨ off' + n ≤ off) :
    slice (header v off sig len revision) off' n = slice v off' n := by
  simp only [header]
  rw [slice_putLE_of_disjoint (by omega), slice_write_of_disjoint (by simp [creatorId]; omega),
    slice_putLE_of_disjoint (by omega), slice_write_of_disjoint (by simp [oemTableId]; omega),
    slice_write_of_disjoint (by simp [oemId]; omega), slice_set_of_disjoint (by omega),
    slice_putLE_of_disjoint (by omega), slice_write_of_disjoint (by rw [hsig]; omega)]

/-- A header starts with its signature and the length of its table. -/
theorem slice_header {v sig : List UInt8} {off len : Nat} {revision : UInt8}
    (hsig : sig.length = 4) (h : off + 8 ≤ v.length) :
    slice (header v off sig len revision) off 8 = sig ++ toLE 4 len := by
  simp only [header]
  rw [slice_putLE_of_disjoint (by omega), slice_write_of_disjoint (by omega),
    slice_putLE_of_disjoint (by omega), slice_write_of_disjoint (by omega),
    slice_write_of_disjoint (by omega), slice_set_of_disjoint (by omega),
    slice_append_slice _ off 4 4, slice_putLE_of_disjoint (by omega)]
  have hleft : slice (write v off sig) off sig.length = sig := slice_write_self (by omega)
  have hright : slice (putLE 4 (write v off sig) (off + 4) len) (off + 4) (toLE 4 len).length =
      toLE 4 len := slice_write_self (by simp; omega)
  rw [hsig] at hleft
  rw [length_toLE] at hright
  rw [hleft, hright]

theorem slice_finish_of_disjoint {v : List UInt8} {off len off' n : Nat}
    (h : off + 10 ≤ off' ∨ off' + n ≤ off + 9) :
    slice (finish v off len) off' n = slice v off' n := by
  simp only [finish]
  rw [slice_set_of_disjoint (by omega), slice_set_of_disjoint (by omega)]

/-- Nothing before the MADT writes past its own tables. -/
private theorem slice_beforeMadt {off n : Nat} (hoff : acpiMadt ≤ off) (hn : off + n ≤ page) :
    slice beforeMadt off n = zeros n := by
  simp only [acpiMadt, page] at hoff hn
  simp only [beforeMadt, putDsdt, putFadt, putXsdt, putRsdp]
  rw [slice_finish_of_disjoint (by simp; omega), slice_header_of_disjoint rfl (by simp; omega),
    slice_finish_of_disjoint (by simp; omega), slice_putLE_of_disjoint (by simp; omega),
    slice_set_of_disjoint (by simp; omega), slice_putLE_of_disjoint (by simp; omega),
    slice_putLE_of_disjoint (by simp; omega), slice_header_of_disjoint rfl (by simp; omega),
    slice_finish_of_disjoint (by simp; omega), slice_putLE_of_disjoint (by simp; omega),
    slice_putLE_of_disjoint (by simp; omega), slice_header_of_disjoint rfl (by simp; omega),
    slice_set_of_disjoint (by simp; omega), slice_set_of_disjoint (by simp; omega),
    slice_putLE_of_disjoint (by simp; omega), slice_putLE_of_disjoint (by simp; omega),
    slice_set_of_disjoint (by simp; omega), slice_write_of_disjoint (by simp [oemId]; omega),
    slice_write_of_disjoint (by simp; omega)]
  exact slice_zeros hn

/-- The wakeup entry takes its own bytes only. -/
theorem slice_putWakeup_of_le {v : List UInt8} {pos off n : Nat} (h : off + n ≤ pos) :
    slice (putWakeup v pos) off n = slice v off n := by
  simp only [putWakeup]
  rw [slice_putLE_of_disjoint (by omega), slice_set_of_disjoint (by omega),
    slice_set_of_disjoint (by omega)]

/-- The signature of the MADT. -/
def madtSignature : List UInt8 := [0x41, 0x50, 0x49, 0x43]

/-- The header of the MADT and the two fields behind it. -/
def madtHeaded (v : List UInt8) (cpus : Nat) (wakeup : Bool) : List UInt8 :=
  putLE 4 (putLE 4 (header v acpiMadt madtSignature (madtLen cpus wakeup) 6)
    (acpiMadt + madtLapicAddr) localApicAddr) (acpiMadt + madtFlags) madtPcatCompat

/-- The Local APIC entries behind them. -/
def madtLapics (v : List UInt8) (cpus : Nat) (wakeup : Bool) : List UInt8 :=
  write (madtHeaded v cpus wakeup) (acpiMadt + madtHeaderLen) ((List.range cpus).flatMap lapicBytes)

theorem putMadt_eq (v : List UInt8) (cpus : Nat) (wakeup : Bool) :
    putMadt v cpus wakeup =
      finish (if wakeup then putWakeup (madtLapics v cpus wakeup)
        (acpiMadt + madtHeaderLen + cpus * madtLapicLen) else madtLapics v cpus wakeup)
        acpiMadt (madtLen cpus wakeup) := by
  rw [madtLapics, ← putLapics_eq]
  rfl

theorem length_madtLapics (v : List UInt8) (cpus : Nat) (wakeup : Bool) :
    (madtLapics v cpus wakeup).length = v.length := by
  simp [madtLapics, madtHeaded]

/-- The entries are written behind the header. -/
theorem slice_putMadt_head {v : List UInt8} {cpus : Nat} {wakeup : Bool} {off n : Nat}
    (h : off + n ≤ acpiMadt + 9) :
    slice (putMadt v cpus wakeup) off n =
      slice (header v acpiMadt madtSignature (madtLen cpus wakeup) 6) off n := by
  simp only [acpiMadt] at h
  have hlapics : slice (madtLapics v cpus wakeup) off n =
      slice (header v acpiMadt madtSignature (madtLen cpus wakeup) 6) off n := by
    rw [madtLapics, slice_write_of_disjoint (by simp; omega), madtHeaded,
      slice_putLE_of_disjoint (by simp; omega), slice_putLE_of_disjoint (by simp; omega)]
  rw [putMadt_eq, slice_finish_of_disjoint (by simp; omega)]
  split
  · rw [slice_putWakeup_of_le (by simp; omega)]
    exact hlapics
  · exact hlapics

/-- The MADT starts with its signature and its own length. -/
theorem slice_build_madt (cpus : Nat) (wakeup : Bool) :
    slice (build cpus wakeup) acpiMadt 8 = madtSignature ++ toLE 4 (madtLen cpus wakeup) := by
  show slice (putMadt beforeMadt cpus wakeup) acpiMadt 8 = _
  rw [slice_putMadt_head (by simp)]
  exact slice_header rfl (by rw [length_beforeMadt]; decide)

theorem madtLen_le {cpus : Nat} {wakeup : Bool} (hcpus : cpus ≤ maxVcpus) :
    acpiMadt + madtLen cpus wakeup ≤ page := by
  have hcpus' : cpus ≤ 344 := hcpus
  simp only [madtLen, acpiMadt, madtHeaderLen, madtLapicLen, madtWakeupLen, page]
  split <;> omega

/-- The MADT states its own length. -/
theorem getLE_madtLen {cpus : Nat} {wakeup : Bool} (hcpus : cpus ≤ maxVcpus) :
    getLE 4 (build cpus wakeup) (acpiMadt + 4) = madtLen cpus wakeup := by
  have hlen : madtLen cpus wakeup < 256 ^ 4 := by
    have hle : acpiMadt + madtLen cpus wakeup ≤ page := madtLen_le hcpus
    simp only [acpiMadt, page] at hle
    omega
  have hslice : slice (slice (build cpus wakeup) acpiMadt 8) 4 4 =
      slice (build cpus wakeup) (acpiMadt + 4) 4 := slice_slice (by decide)
  rw [getLE, ← hslice, slice_build_madt, slice_append_right (by decide)]
  exact (congrArg ofLE (slice_zero_length _)).trans (ofLE_toLE_of_lt hlen)

section

variable {cpus : Nat} {wakeup : Bool} (hcpus : cpus ≤ maxVcpus)

include hcpus

theorem slice_madtLapics_self : slice (madtLapics beforeMadt cpus wakeup)
    (acpiMadt + madtHeaderLen) (8 * cpus) = (List.range cpus).flatMap lapicBytes := by
  have hcpus' : cpus ≤ 344 := hcpus
  have hbody : ((List.range cpus).flatMap lapicBytes).length = 8 * cpus := by
    rw [length_flatMap_lapicBytes, List.length_range]
  have hheaded : (madtHeaded beforeMadt cpus wakeup).length = page := by
    simp [madtHeaded, length_beforeMadt]
  rw [← hbody, madtLapics]
  exact slice_write_self (by rw [hbody, hheaded]; simp; omega)

/-- Behind the Local APIC entries the page is blank. -/
theorem slice_madtLapics_blank : slice (madtLapics beforeMadt cpus wakeup)
    (acpiMadt + madtHeaderLen + 8 * cpus + 2) 6 = zeros 6 := by
  have hcpus' : cpus ≤ 344 := hcpus
  rw [madtLapics, slice_write_of_disjoint (by simp; omega), madtHeaded,
    slice_putLE_of_disjoint (by simp; omega), slice_putLE_of_disjoint (by simp; omega),
    slice_header_of_disjoint rfl (by simp; omega), slice_beforeMadt (by simp; omega)
    (by simp; omega)]

/-- The body of the MADT is the concatenation of its entries. -/
theorem slice_madtBody :
    slice (build cpus wakeup) (acpiMadt + madtHeaderLen) (madtLen cpus wakeup - madtHeaderLen) =
      (expectedEntries cpus wakeup).flatten := by
  have hcpus' : cpus ≤ 344 := hcpus
  have hpos : acpiMadt + madtHeaderLen + cpus * madtLapicLen =
      acpiMadt + madtHeaderLen + 8 * cpus := by
    simp only [madtLapicLen]
    omega
  change slice (putMadt beforeMadt cpus wakeup) _ _ = _
  rw [putMadt_eq, slice_finish_of_disjoint (by simp), hpos]
  cases wakeup with
  | false =>
    have hlen : madtLen cpus false - madtHeaderLen = 8 * cpus := by
      simp [madtLen]
      omega
    rw [hlen, if_neg Bool.false_ne_true, slice_madtLapics_self hcpus]
    simp [expectedEntries, List.flatMap_def]
  | true =>
    have hlen : madtLen cpus true - madtHeaderLen = 8 * cpus + 16 := by
      simp [madtLen]
      omega
    have hfits : acpiMadt + madtHeaderLen + 8 * cpus + 16 ≤
        (madtLapics beforeMadt cpus true).length := by
      rw [length_madtLapics, length_beforeMadt]
      simp
      omega
    rw [hlen, if_pos rfl, slice_append_slice, slice_putWakeup_of_le (by omega),
      slice_madtLapics_self hcpus, slice_putWakeup hfits (slice_madtLapics_blank hcpus)]
    simp [expectedEntries, List.flatMap_def]

end

/-- A reader of the MADT meets one Local APIC entry per processor, and then the
    wakeup entry where there is one. -/
theorem madtEntries_build {cpus : Nat} {wakeup : Bool} (hcpus : cpus ≤ maxVcpus) :
    madtEntries (build cpus wakeup) = some (expectedEntries cpus wakeup) := by
  simp only [madtEntries]
  rw [getLE_madtLen hcpus, slice_madtBody hcpus]
  exact walkEntries_flatten (fun e he => isEntry_of_mem_expectedEntries he) le_rfl

/-- The APIC IDs are the processors' indices, each cut to eight bits. -/
theorem enabledApicIds_build {cpus : Nat} {wakeup : Bool} (hcpus : cpus ≤ maxVcpus) :
    enabledApicIds (build cpus wakeup) = some ((List.range cpus).map (· % 256)) := by
  have hlapic : ∀ id, enabledApicId (lapicBytes id) = some (id % 256) := by
    intro id
    simp [enabledApicId, lapicBytes, byteAt, getLE, slice, ofLE]
  have hwake : enabledApicId wakeupBytes = none := by decide
  rw [enabledApicIds, madtEntries_build hcpus, Option.map_some, expectedEntries,
    List.filterMap_append, List.filterMap_map]
  congr 1
  have hcomp : enabledApicId ∘ lapicBytes = fun id => some (id % 256) := funext hlapic
  rw [hcomp, List.filterMap_eq_map']
  split <;> simp [hwake]

end BootShim.Acpi
