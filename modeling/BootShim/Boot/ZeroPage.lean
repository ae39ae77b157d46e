-- SUMMARY: The zero page read back as Linux reads it: every field, the E820 table, and what every other byte holds.
import BootShim.Boot.Header

/-!
# The zero page, read back

`zeroPage` is a dozen writes into one page and a loop over the E820 list. The fields lie
apart from each other and from the table, so each one is read as it was written, and any
other byte is the kernel's own or zero.
-/

namespace BootShim.Boot

open Bytes Checked Layout

/-! ## The E820 table -/

/-- The entry at a place of the table. -/
def e820EntryAt (v : List UInt8) (index : Nat) : Nat × Nat × Nat :=
  let off := bpE820Table + index * e820EntryLen
  (getLE 8 v off, getLE 8 v (off + 8), getLE 4 v (off + 16))

/-- The E820 list of a zero page, as long as its count says. -/
def e820Of (v : List UInt8) : List (Nat × Nat × Nat) :=
  (List.range (byteAt v bpE820Entries).toNat).map (e820EntryAt v)

/-- The fields of an entry fit the widths they are written at. -/
structure EntryFits (e : Nat × Nat × Nat) : Prop where
  base : e.1 < 2 ^ 64
  size : e.2.1 < 2 ^ 64
  kind : e.2.2 < 2 ^ 32

section

variable {v : List UInt8} {index off : Nat} {e : Nat × Nat × Nat} {es : List (Nat × Nat × Nat)}

theorem byteAt_putE820Entry (h : off < bpE820Table + index * e820EntryLen ∨
      bpE820Table + (index + 1) * e820EntryLen ≤ off) :
    byteAt (putE820Entry v index e) off = byteAt v off := by
  simp only [bpE820Table, e820EntryLen] at h
  simp only [putE820Entry, bpE820Table, e820EntryLen]
  rw [byteAt_putLE_of_disjoint (by omega), byteAt_putLE_of_disjoint (by omega),
    byteAt_putLE_of_disjoint (by omega)]

theorem getLE_putE820Entry {n : Nat} (h : off + n ≤ bpE820Table + index * e820EntryLen ∨
      bpE820Table + (index + 1) * e820EntryLen ≤ off) :
    getLE n (putE820Entry v index e) off = getLE n v off := by
  simp only [bpE820Table, e820EntryLen] at h
  simp only [putE820Entry, bpE820Table, e820EntryLen]
  rw [getLE_putLE_of_disjoint (by omega), getLE_putLE_of_disjoint (by omega),
    getLE_putLE_of_disjoint (by omega)]

/-- An entry is read as it was written. -/
theorem e820EntryAt_putE820Entry (he : EntryFits e)
    (h : bpE820Table + (index + 1) * e820EntryLen ≤ v.length) :
    e820EntryAt (putE820Entry v index e) index = e := by
  simp only [bpE820Table, e820EntryLen] at h
  obtain ⟨base, size, kind⟩ := e
  simp only [e820EntryAt, putE820Entry, bpE820Table, e820EntryLen, Prod.mk.injEq]
  refine ⟨?_, ?_, ?_⟩
  · rw [getLE_putLE_of_disjoint (by omega), getLE_putLE_of_disjoint (by omega),
      getLE_putLE_self (by omega)]
    exact Nat.mod_eq_of_lt he.base
  · rw [getLE_putLE_of_disjoint (by omega),
      getLE_putLE_self (by rw [length_putLE]; omega)]
    exact Nat.mod_eq_of_lt he.size
  · rw [getLE_putLE_self (by rw [length_putLE, length_putLE]; omega)]
    exact Nat.mod_eq_of_lt he.kind

/-- The entries are written between their first place and the end of the last. -/
theorem byteAt_putE820 (h : off < bpE820Table + index * e820EntryLen ∨
      bpE820Table + (index + es.length) * e820EntryLen ≤ off) :
    byteAt (putE820 v index es) off = byteAt v off := by
  induction es generalizing v index with
  | nil => rfl
  | cons e es ih =>
    simp only [List.length_cons, bpE820Table, e820EntryLen] at h ih
    rw [putE820, ih (by omega),
      byteAt_putE820Entry (by simp only [bpE820Table, e820EntryLen]; omega)]

theorem getLE_putE820 {n : Nat} (h : off + n ≤ bpE820Table + index * e820EntryLen ∨
      bpE820Table + (index + es.length) * e820EntryLen ≤ off) :
    getLE n (putE820 v index es) off = getLE n v off := by
  induction es generalizing v index with
  | nil => rfl
  | cons e es ih =>
    simp only [List.length_cons, bpE820Table, e820EntryLen] at h ih
    rw [putE820, ih (by omega),
      getLE_putE820Entry (by simp only [bpE820Table, e820EntryLen]; omega)]

theorem e820EntryAt_putE820_of_lt {i : Nat} (hi : i < index) :
    e820EntryAt (putE820 v index es) i = e820EntryAt v i := by
  simp only [e820EntryAt, Prod.mk.injEq]
  refine ⟨?_, ?_, ?_⟩ <;>
    exact getLE_putE820 (by simp only [bpE820Table, e820EntryLen]; omega)

/-- The table is read as it was written. -/
theorem map_e820EntryAt_putE820 (hes : ∀ e ∈ es, EntryFits e)
    (h : bpE820Table + (index + es.length) * e820EntryLen ≤ v.length) :
    (List.range es.length).map (fun i => e820EntryAt (putE820 v index es) (index + i)) = es := by
  induction es generalizing v index with
  | nil => rfl
  | cons e es ih =>
    simp only [List.length_cons, bpE820Table, e820EntryLen] at h ih
    have hrest := @ih (putE820Entry v index e) (index + 1)
      (fun q hq => hes q (List.mem_cons_of_mem e hq)) (by rw [length_putE820Entry]; omega)
    have hfirst : e820EntryAt (putE820 (putE820Entry v index e) (index + 1) es) index = e := by
      rw [e820EntryAt_putE820_of_lt (Nat.lt_succ_self index)]
      exact e820EntryAt_putE820Entry (hes e List.mem_cons_self)
        (by simp only [bpE820Table, e820EntryLen]; omega)
    rw [List.length_cons, List.range_succ_eq_map, List.map_cons, List.map_map, putE820]
    refine congrArg₂ List.cons hfirst (Eq.trans (List.map_congr_left fun i _ => ?_) hrest)
    rw [Function.comp_apply, Nat.succ_eq_add_one, Nat.add_comm i 1, Nat.add_assoc]

end

/-! ## The fields before it -/

/-- The fields of the setup header a boot loader fills in, by offset and width. -/
def loaderFields : List (Nat × Nat) :=
  [(hdrTypeOfLoader, 1), (hdrLoadflags, 1), (hdrCode32Start, 4), (hdrRamdiskImage, 4),
    (hdrRamdiskSize, 4), (hdrCmdLinePtr, 4), (hdrSetupData, 8), (hdrInitSize, 4)]

/-- What Linux finds in a zero page. -/
structure Decodes (v setup : List UInt8) (info : KernelInfo) (initramfsLen rsdp : Nat)
    (entries : List (Nat × Nat × Nat)) (setupData : Nat) : Prop where
  length : v.length = page
  e820 : e820Of v = entries
  rsdp : getLE 8 v bpAcpiRsdpAddr = rsdp
  setup_data : getLE 8 v hdrSetupData = setupData
  init_size : getLE 4 v hdrInitSize = info.initSize
  ramdisk_image : getLE 4 v hdrRamdiskImage = initramfsBase
  ramdisk_size : getLE 4 v hdrRamdiskSize = initramfsLen
  cmd_line_ptr : getLE 4 v hdrCmdLinePtr = cmdline
  code32_start : getLE 4 v hdrCode32Start = kernelBase
  type_of_loader : byteAt v hdrTypeOfLoader = 0xff
  loadflags : byteAt v hdrLoadflags = byteAt setup hdrLoadflags ||| 0x80
  /-- The rest of the header is the kernel's own. -/
  header : ∀ off, setupHeader ≤ off → off < setupHeaderEnd →
    (∀ f ∈ loaderFields, off < f.1 ∨ f.1 + f.2 ≤ off) → byteAt v off = byteAt setup off
  /-- The rest of the page is blank. -/
  blank : ∀ off, off < setupHeader ∨ setupHeaderEnd ≤ off → off ≠ bpE820Entries →
    off < bpE820Table ∨ bpE820Table + entries.length * e820EntryLen ≤ off →
    off < bpAcpiRsdpAddr ∨ bpAcpiRsdpAddr + 8 ≤ off → byteAt v off = 0

section

variable {setup : List UInt8} {info : KernelInfo} {initramfsLen rsdp setupData : Nat}

/-- A field the loader fills in is read as it was written. -/
theorem getLE_zeroPageHeader (setup : List UInt8) (info : KernelInfo)
    (initramfsLen rsdp setupData : Nat) :
    let v := zeroPageHeader setup info initramfsLen rsdp setupData
    getLE 4 v hdrRamdiskImage = initramfsBase ∧ getLE 4 v hdrRamdiskSize = initramfsLen % 2 ^ 32 ∧
      getLE 4 v hdrCmdLinePtr = cmdline ∧ getLE 4 v hdrCode32Start = kernelBase ∧
        getLE 4 v hdrInitSize = info.initSize % 2 ^ 32 ∧
          getLE 8 v bpAcpiRsdpAddr = rsdp % 2 ^ 64 ∧ getLE 8 v hdrSetupData = setupData % 2 ^ 64 := by
  simp only [zeroPageHeader]
  refine ⟨?_, ?_, ?_, ?_, ?_, ?_, getLE_putLE_self (by simp)⟩
  all_goals
    simp (disch := decide) only [getLE_putLE_of_disjoint]
    exact getLE_putLE_self (by simp)

/-- The kernel's header, copied to where it came from. -/
theorem byteAt_setupHeader (hsetup : setup.length = kernelSetupAreaSize) {off : Nat}
    (hlo : setupHeader ≤ off) (hhi : off < setupHeaderEnd) :
    byteAt (write (zeros page) setupHeader
      (slice setup setupHeader (setupHeaderEnd - setupHeader))) off = byteAt setup off := by
  simp only [hdrSetupSects, setupHeader, setupHeaderEnd, kernelSetupAreaSize] at *
  obtain ⟨i, rfl⟩ : ∃ i, off = 0x1f1 + i := ⟨off - 0x1f1, by omega⟩
  have hlen : (slice setup 0x1f1 (0x290 - 0x1f1)).length = 0x290 - 0x1f1 := by
    rw [length_slice]
    omega
  rw [byteAt_write_inside (by rw [hlen, length_zeros]; decide) (by omega), byteAt_slice (by omega)]

/-- The two flag bytes. -/
theorem byteAt_zeroPageHeader_flags (hsetup : setup.length = kernelSetupAreaSize)
    (info : KernelInfo) (initramfsLen rsdp setupData : Nat) :
    let v := zeroPageHeader setup info initramfsLen rsdp setupData
    byteAt v hdrTypeOfLoader = 0xff ∧
      byteAt v hdrLoadflags = byteAt setup hdrLoadflags ||| 0x80 := by
  simp only [zeroPageHeader]
  constructor
  · simp (disch := decide) only [byteAt_putLE_of_disjoint]
    rw [byteAt_set_of_ne (by decide), byteAt_set_self (by simp)]
  · simp (disch := decide) only [byteAt_putLE_of_disjoint]
    rw [byteAt_set_self (by simp), byteAt_set_of_ne (by decide),
      byteAt_setupHeader hsetup (by decide) (by decide)]

/-- What no field takes is as the copied header has it. -/
theorem byteAt_zeroPageHeader {off : Nat}
    (hfields : ∀ f ∈ loaderFields, off < f.1 ∨ f.1 + f.2 ≤ off)
    (hrsdp : off < bpAcpiRsdpAddr ∨ bpAcpiRsdpAddr + 8 ≤ off) :
    byteAt (zeroPageHeader setup info initramfsLen rsdp setupData) off =
      byteAt (write (zeros page) setupHeader
        (slice setup setupHeader (setupHeaderEnd - setupHeader))) off := by
  simp only [loaderFields, List.forall_mem_cons, List.not_mem_nil, false_implies, implies_true,
    and_true] at hfields
  obtain ⟨hloader, hflags, hstart, himage, hsize, hcmd, hdata, hinit⟩ := hfields
  simp only [zeroPageHeader]
  rw [byteAt_putLE_of_disjoint hdata, byteAt_putLE_of_disjoint hrsdp,
    byteAt_putLE_of_disjoint hinit, byteAt_putLE_of_disjoint hstart, byteAt_putLE_of_disjoint hcmd,
    byteAt_putLE_of_disjoint hsize, byteAt_putLE_of_disjoint himage,
    byteAt_set_of_ne (by omega), byteAt_set_of_ne (by omega)]

end

/-! ## The whole page -/

section

variable {setup v : List UInt8} {info : KernelInfo} {initramfsLen rsdp setupData : Nat}
  {entries : List (Nat × Nat × Nat)}

/-- The table fits into the page behind the header. -/
private theorem table_le (hlen : entries.length ≤ e820Max) :
    bpE820Table + entries.length * e820EntryLen ≤ page := by
  simp only [e820Max, bpE820Table, e820EntryLen, page] at *
  omega

variable (h : zeroPage setup info initramfsLen rsdp entries setupData = .ok v)

include h

/-- Up to the table, but for the count, the page is the header's. -/
theorem getLE_zeroPage {n off : Nat} (hoff : off + n ≤ bpE820Table)
    (hcount : off + n ≤ bpE820Entries ∨ bpE820Entries < off) :
    getLE n v off = getLE n (zeroPageHeader setup info initramfsLen rsdp setupData) off := by
  rw [(zeroPage_eq_ok.mp h).2, getLE_putE820 (Or.inl (by rw [Nat.zero_mul, Nat.add_zero]; exact hoff)),
    getLE_set_of_disjoint hcount.symm]

theorem byteAt_zeroPage {off : Nat} (hcount : off ≠ bpE820Entries)
    (htable : off < bpE820Table ∨ bpE820Table + entries.length * e820EntryLen ≤ off) :
    byteAt v off = byteAt (zeroPageHeader setup info initramfsLen rsdp setupData) off := by
  rw [(zeroPage_eq_ok.mp h).2,
    byteAt_putE820 (by rw [Nat.zero_mul, Nat.add_zero, Nat.zero_add]; exact htable),
    byteAt_set_of_ne hcount]

/-- Linux finds as many entries as there are. -/
theorem count_zeroPage : (byteAt v bpE820Entries).toNat = entries.length := by
  obtain ⟨hlen, hv⟩ := zeroPage_eq_ok.mp h
  rw [hv, byteAt_putE820 (Or.inl (by decide)), byteAt_set_self (by simp), UInt8.toNat_ofNat',
    Nat.mod_eq_of_lt]
  simp only [e820Max] at hlen
  omega

/-- Linux finds the list the page was made for. -/
theorem e820Of_zeroPage (hes : ∀ e ∈ entries, EntryFits e) : e820Of v = entries := by
  obtain ⟨hlen, hv⟩ := zeroPage_eq_ok.mp h
  have hroom := table_le hlen
  have hfit : bpE820Table + (0 + entries.length) * e820EntryLen ≤
      ((zeroPageHeader setup info initramfsLen rsdp setupData).set bpE820Entries
        (UInt8.ofNat entries.length)).length := by
    rw [List.length_set, length_zeroPageHeader, Nat.zero_add]
    exact hroom
  have hmap := map_e820EntryAt_putE820 hes hfit
  rw [e820Of, count_zeroPage h]
  simp only [Nat.zero_add, ← hv] at hmap
  exact hmap

/-- Every field is read as it was given, every other byte of the header is the kernel's, and
    the rest is blank. -/
theorem decodes_zeroPage (hsetup : setup.length = kernelSetupAreaSize)
    (hinit : info.initSize < 2 ^ 32) (hinitramfs : initramfsLen < 2 ^ 32) (hrsdp : rsdp < 2 ^ 64)
    (hdata : setupData < 2 ^ 64) (hes : ∀ e ∈ entries, EntryFits e) :
    Decodes v setup info initramfsLen rsdp entries setupData := by
  obtain ⟨himage, hsize, hcmd, hstart, hinit', hrsdp', hdata'⟩ :=
    getLE_zeroPageHeader setup info initramfsLen rsdp setupData
  obtain ⟨hloader, hflags⟩ :=
    byteAt_zeroPageHeader_flags hsetup info initramfsLen rsdp setupData
  rw [Nat.mod_eq_of_lt hinitramfs] at hsize
  rw [Nat.mod_eq_of_lt hinit] at hinit'
  rw [Nat.mod_eq_of_lt hrsdp] at hrsdp'
  rw [Nat.mod_eq_of_lt hdata] at hdata'
  refine ⟨length_zeroPage h, e820Of_zeroPage h hes,
    (getLE_zeroPage h (by decide) (by decide)).trans hrsdp',
    (getLE_zeroPage h (by decide) (by decide)).trans hdata',
    (getLE_zeroPage h (by decide) (by decide)).trans hinit',
    (getLE_zeroPage h (by decide) (by decide)).trans himage,
    (getLE_zeroPage h (by decide) (by decide)).trans hsize,
    (getLE_zeroPage h (by decide) (by decide)).trans hcmd,
    (getLE_zeroPage h (by decide) (by decide)).trans hstart,
    (byteAt_zeroPage h (by decide) (Or.inl (by decide))).trans hloader,
    (byteAt_zeroPage h (by decide) (Or.inl (by decide))).trans hflags,
    fun off hlo hhi hfields => ?_, fun off hout hcount htable hrsdp => ?_⟩
  · have hbounds : 0x1f1 ≤ off ∧ off < 0x290 := ⟨hlo, hhi⟩
    rw [byteAt_zeroPage h (by simp only [bpE820Entries]; omega)
        (Or.inl (by simp only [bpE820Table]; omega)),
      byteAt_zeroPageHeader hfields (Or.inr (by simp only [bpAcpiRsdpAddr]; omega)),
      byteAt_setupHeader hsetup hlo hhi]
  · have hfields : ∀ f ∈ loaderFields, off < f.1 ∨ f.1 + f.2 ≤ off := by
      have hinside : ∀ f ∈ loaderFields, setupHeader ≤ f.1 ∧ f.1 + f.2 ≤ setupHeaderEnd := by decide
      intro f hf
      have hin := hinside f hf
      omega
    have hcopied : (slice setup setupHeader (setupHeaderEnd - setupHeader)).length ≤
        setupHeaderEnd - setupHeader := List.length_take_le _ _
    rw [byteAt_zeroPage h hcount htable, byteAt_zeroPageHeader hfields hrsdp,
      byteAt_write_of_disjoint (hout.imp_right fun hle => ?_), byteAt_zeros]
    exact (Nat.add_le_add_left hcopied setupHeader).trans hle

end

/-- Making the page fails for want of room in the table, and for nothing else. -/
theorem zeroPage_error_iff (setup : List UInt8) (info : KernelInfo)
    (initramfsLen rsdp setupData : Nat) (entries : List (Nat × Nat × Nat)) :
    (∃ e, zeroPage setup info initramfsLen rsdp entries setupData = .error e) ↔
      e820Max < entries.length := by
  have hok : (∃ v, zeroPage setup info initramfsLen rsdp entries setupData = .ok v) ↔
      entries.length ≤ e820Max := by
    simp only [zeroPage_eq_ok, exists_and_left, exists_eq, and_true]
  rw [← Nat.not_le, ← hok]
  cases zeroPage setup info initramfsLen rsdp entries setupData <;> simp

/-- An entry as the builder's numbers have it. -/
def natEntry (e : UInt64 × UInt64 × UInt32) : Nat × Nat × Nat :=
  (e.1.toNat, e.2.1.toNat, e.2.2.toNat)

theorem entryFits_natEntry (e : UInt64 × UInt64 × UInt32) : EntryFits (natEntry e) :=
  ⟨e.1.toNat_lt, e.2.1.toNat_lt, e.2.2.toNat_lt⟩

end BootShim.Boot
