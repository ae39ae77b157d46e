-- SUMMARY: The map each builder places, as one family: its regions, the intervals they take and the pages they import.
import BootShim.Boot.Contents
import BootShim.Image.IdentityMap
import BootShim.Image.Prepared
import BootShim.Snp.Build

/-!
# The two maps

The TDX and the SNP builder differ in the regions they place, in where the shim's
page lies and in the setup data they chain. The intervals of the regions depend on
the inputs only through the two file lengths.
-/

namespace BootShim.Pipeline

open Boot Bytes Image Layout Snp

/-- The two kinds of image. -/
inductive Platform where
  | tdx
  | snp
deriving DecidableEq

namespace Platform

/-- The regions placed around the contents of the zero page and of the shim's page. -/
def regions (pf : Platform) (p : Prepared) (params : Params) (zero shim : List UInt8) :
    List Placed :=
  match pf with
  | tdx => tdxRegions p (Acpi.build params.vcpus true) zero shim
  | snp => snpRegions p params.cbit (Acpi.build params.vcpus false) zero shim

/-- Where the shim's page lies. -/
def shimAt : Platform → Nat
  | tdx => resetAlias
  | snp => shimBase

/-- The head of the setup_data chain. -/
def setupData : Platform → Nat
  | tdx => 0
  | snp => snpCcBlob

/-- The whole map: the regions, then the declared apertures. -/
def map (pf : Platform) (p : Prepared) (params : Params) (zero shim : List UInt8) : List Placed :=
  pf.regions p params zero shim ++ apertures params

/-- The map as it is validated, with both pages still blank. -/
def blank (pf : Platform) (p : Prepared) (params : Params) : List Placed :=
  pf.map p params (zeros page) (zeros page)

/-- The intervals the regions take, by where the kernel's and the initramfs's end. -/
def footprint (pf : Platform) (kernelEnd initramfsEnd : Nat) : List (Tile Nat Nat) :=
  match pf with
  | tdx =>
    [ ⟨Layout.zeroPage, Layout.zeroPage + page, reserved⟩,
      ⟨cmdline, cmdline + page, reserved⟩,
      ⟨acpiBase, acpiBase + page, acpi⟩,
      ⟨mailbox, mailbox + page, reserved⟩,
      ⟨pageTables, pageTables + 2 * page, reserved⟩,
      ⟨bspStack, bspStackTop, reserved⟩,
      ⟨kernelSetupBase, kernelSetupEnd, reserved⟩,
      ⟨kernelBase, kernelEnd, ram⟩,
      ⟨initramfsBase, initramfsEnd, ram⟩,
      ⟨resetAlias, resetAlias + page, reserved⟩ ]
  | snp =>
    [ ⟨Layout.zeroPage, Layout.zeroPage + page, reserved⟩,
      ⟨cmdline, cmdline + page, reserved⟩,
      ⟨acpiBase, acpiBase + page, acpi⟩,
      ⟨snpCpuid, snpCpuid + page, reserved⟩,
      ⟨snpSecrets, snpSecrets + page, reserved⟩,
      ⟨snpCcBlob, snpCcBlob + page, ram⟩,
      ⟨pageTables, pageTables + 3 * page, reserved⟩,
      ⟨bspStack, bspStackTop, reserved⟩,
      ⟨snpGhcb, snpGhcb + page, reserved⟩,
      ⟨shimBase, shimBase + shimSize, reserved⟩,
      ⟨kernelSetupBase, kernelSetupEnd, reserved⟩,
      ⟨kernelBase, kernelEnd, ram⟩,
      ⟨initramfsBase, initramfsEnd, ram⟩ ]

end Platform

/-- Where the region of a kernel with this payload ends. -/
def kernelEnd (kernel : List UInt8) : Nat := alignUp (kernelBase + kernel.length) page

/-- Where the region of an initramfs ends. An empty one takes a page all the same. -/
def initramfsEnd (initramfs : List UInt8) : Nat :=
  initramfsBase + max (alignUp initramfs.length page) page

variable {pf : Platform} {p : Prepared} {params : Params} {memory : Nat}
  {zero shim : List UInt8}

/-! ## The intervals of the regions -/

theorem kernelBase_lt_kernelEnd (h : Sized p memory) : kernelBase < kernelEnd p.kernel :=
  (Nat.lt_add_of_pos_right h.kernel_pos).trans_le (le_alignUp_page _)

theorem initramfsBase_lt_initramfsEnd (initramfs : List UInt8) :
    initramfsBase < initramfsEnd initramfs := by
  simp only [initramfsEnd, page, initramfsBase]
  omega

/-- The initramfs ends at or below the reset page. -/
theorem initramfsEnd_le (h : Sized p memory) : initramfsEnd p.initramfs ≤ resetAlias := by
  have hinit := h.initramfs_end_32
  have halign := alignUp_page p.initramfs.length
  rw [alignUp_add_page (by decide)] at hinit
  simp only [initramfsEnd, page, initramfsBase, resetAlias] at *
  omega

/-- The intervals follow each other in the order they are listed. -/
theorem pairwise_footprint {kernelEnd initramfsEnd : Nat} (hkernel : kernelBase < kernelEnd)
    (hkernel' : kernelEnd ≤ initramfsBase) (hinit : initramfsBase < initramfsEnd)
    (hinit' : initramfsEnd ≤ resetAlias) :
    (pf.footprint kernelEnd initramfsEnd).Pairwise fun s t => s.hi ≤ t.lo := by
  cases pf <;>
    · simp [Platform.footprint] at *
      omega

/-- No interval is empty, and each starts on a page. -/
theorem nonempty_footprint {kernelEnd initramfsEnd : Nat} (hkernel : kernelBase < kernelEnd)
    (hinit : initramfsBase < initramfsEnd) :
    ∀ t ∈ pf.footprint kernelEnd initramfsEnd, t.lo < t.hi := by
  cases pf <;>
    · simp [Platform.footprint] at *
      omega

/-- The one interval that reaches past the initramfs is that of the TDX reset page. -/
theorem footprint_le {kernelEnd initramfsEnd : Nat} (hkernel : kernelEnd ≤ initramfsBase)
    (hinit : initramfsBase < initramfsEnd) :
    ∀ t ∈ pf.footprint kernelEnd initramfsEnd,
      (t.lo ≤ initramfsBase ∧ t.hi ≤ initramfsEnd) ∨
        pf = .tdx ∧ t = ⟨resetAlias, resetAlias + page, reserved⟩ := by
  cases pf <;>
    · simp [Platform.footprint] at *
      omega

/-- The region starts on a page, its end fits into 64 bits and it takes the interval. -/
def Lies (q : Placed) (t : Tile Nat Nat) : Prop := q.Fits ∧ q.tile = t

private theorem lies_of_span {q : Placed} {n hi : Nat} (hspan : q.span = n)
    (hbase : q.base % page = 0) (hhi : q.base + n = hi) (hlt : hi < 2 ^ 64) :
    Lies q ⟨q.base, hi, q.e820⟩ := by
  subst hhi hspan
  exact ⟨⟨hbase, hlt⟩, by rw [Placed.tile, addU64_of_lt hlt]⟩

private theorem lies_measured {base k n hi : Nat} {name : String} {d : List UInt8}
    (hd : d.length = n) (hpos : 0 < n) (hbase : base % page = 0) (hhi : base + alignUp n page = hi)
    (hlt : hi < 2 ^ 64) : Lies (.measured base name k d) ⟨base, hi, k⟩ := by
  refine lies_of_span (q := .measured base name k d) ?_ hbase hhi hlt
  simp only [Placed.measured, Placed.span, hd, alignUp, page]
  omega

private theorem lies_host {base hi : Nat} (hbase : base % page = 0) (hhi : base + page = hi)
    (hlt : hi < 2 ^ 64) : Lies (.host base) ⟨base, hi, reserved⟩ :=
  lies_of_span (q := .host base) rfl hbase hhi hlt

private theorem lies_kernel (h : Sized p memory) :
    Lies (.measured kernelBase "kernel" ram p.kernel)
      ⟨kernelBase, kernelEnd p.kernel, ram⟩ := by
  have hend : kernelEnd p.kernel ≤ initramfsBase := h.kernel_end
  have hlt : kernelEnd p.kernel < 2 ^ 64 := hend.trans_lt (by decide)
  refine lies_measured rfl h.kernel_pos (by decide) ?_ hlt
  rw [kernelEnd, alignUp_add_page (by decide)]

private theorem lies_initramfs (h : Sized p memory) :
    Lies (.measured initramfsBase "initramfs" ram p.initramfs)
      ⟨initramfsBase, initramfsEnd p.initramfs, ram⟩ :=
  lies_of_span (q := .measured initramfsBase "initramfs" ram p.initramfs) rfl
    (by decide : initramfsBase % page = 0) rfl ((initramfsEnd_le h).trans_lt (by decide))

variable (pf params) in
/-- Region by region, the map lies on the footprint. -/
theorem lies_regions (h : Sized p memory) (hzero : zero.length = page) (hshim : shim.length = page) :
    List.Forall₂ Lies (pf.regions p params zero shim)
      (pf.footprint (kernelEnd p.kernel) (initramfsEnd p.initramfs)) := by
  cases pf with
  | tdx =>
    simp only [Platform.regions, Platform.footprint, tdxRegions, List.forall₂_cons]
    exact ⟨lies_measured hzero (by decide) (by decide) (by decide) (by decide),
      lies_measured h.command_length (by decide) (by decide) (by decide) (by decide),
      lies_measured (Acpi.length_build _ _) (by decide) (by decide) (by decide) (by decide),
      lies_measured (length_zeros _) (by decide) (by decide) (by decide) (by decide),
      lies_measured (length_identityMap 0 false) (by decide) (by decide) (by decide) (by decide),
      lies_measured length_gdtStack (by decide) (by decide) (by decide) (by decide),
      lies_measured h.setup_length (by decide) (by decide) (by decide) (by decide),
      lies_kernel h, lies_initramfs h,
      lies_measured hshim (by decide) (by decide) (by decide) (by decide), .nil⟩
  | snp =>
    simp only [Platform.regions, Platform.footprint, snpRegions, List.forall₂_cons]
    exact ⟨lies_measured hzero (by decide) (by decide) (by decide) (by decide),
      lies_measured h.command_length (by decide) (by decide) (by decide) (by decide),
      lies_measured (Acpi.length_build _ _) (by decide) (by decide) (by decide) (by decide),
      lies_host (by decide) (by decide) (by decide),
      lies_host (by decide) (by decide) (by decide),
      lies_measured length_ccBlob (by decide) (by decide) (by decide) (by decide),
      lies_measured (length_identityMap _ true) (by decide) (by decide) (by decide) (by decide),
      lies_measured length_gdtStack (by decide) (by decide) (by decide) (by decide),
      lies_measured (length_zeros _) (by decide) (by decide) (by decide) (by decide),
      lies_measured hshim (by decide) (by decide) (by decide) (by decide),
      lies_measured h.setup_length (by decide) (by decide) (by decide) (by decide),
      lies_kernel h, lies_initramfs h, .nil⟩

theorem map_tile_regions (h : Sized p memory) (hzero : zero.length = page)
    (hshim : shim.length = page) :
    (pf.regions p params zero shim).map Placed.tile =
      pf.footprint (kernelEnd p.kernel) (initramfsEnd p.initramfs) := by
  have hlies := lies_regions pf params h hzero hshim
  exact List.forall₂_eq_eq_eq ▸ List.forall₂_map_left_iff.mpr (hlies.imp fun _ _ h => h.2)

theorem fits_regions (h : Sized p memory) (hzero : zero.length = page) (hshim : shim.length = page)
    {q : Placed} (hq : q ∈ pf.regions p params zero shim) : q.Fits :=
  ((List.forall₂_and_left _ _).mp (lies_regions pf params h hzero hshim)).1 q hq

/-- The regions follow each other in the order they are listed. -/
theorem pairwise_regions (h : Sized p memory) (hzero : zero.length = page)
    (hshim : shim.length = page) :
    (pf.regions p params zero shim).Pairwise fun q r => q.tile.hi ≤ r.tile.lo := by
  rw [← List.pairwise_map (f := Placed.tile) (R := fun s t => s.hi ≤ t.lo),
    map_tile_regions h hzero hshim]
  exact pairwise_footprint (kernelBase_lt_kernelEnd h) h.kernel_end
    (initramfsBase_lt_initramfsEnd _) (initramfsEnd_le h)

variable (pf params) in
/-- The regions are listed in ascending order. -/
theorem pairwise_base_regions (h : Sized p memory) (hzero : zero.length = page)
    (hshim : shim.length = page) :
    (pf.regions p params zero shim).Pairwise fun q r => q.base < r.base := by
  refine (pairwise_regions h hzero hshim).imp_of_mem fun {q r} hq _ hle => ?_
  have hlt : q.tile.lo < q.tile.hi := by
    have hmem : q.tile ∈ (pf.regions p params zero shim).map Placed.tile := List.mem_map_of_mem hq
    rw [map_tile_regions h hzero hshim] at hmem
    exact nonempty_footprint (kernelBase_lt_kernelEnd h) (initramfsBase_lt_initramfsEnd _) _ hmem
  exact hlt.trans_le hle

/-! ## What the regions hold -/

/-- The zero page's region is the first one. -/
theorem exists_regions_eq_zero (pf : Platform) (p : Prepared) (params : Params)
    (shim : List UInt8) :
    ∃ post, ∀ zero, pf.regions p params zero shim =
      .measured Layout.zeroPage "" reserved zero :: post := by
  cases pf with
  | tdx => exact ⟨(Platform.tdx.regions p params [] shim).tail, fun _ => rfl⟩
  | snp => exact ⟨(Platform.snp.regions p params [] shim).tail, fun _ => rfl⟩

/-- The shim's page is one of the regions. -/
theorem exists_regions_eq_shim (pf : Platform) (p : Prepared) (params : Params)
    (zero : List UInt8) :
    ∃ pre post, ∀ shim, pf.regions p params zero shim =
      pre ++ .measured pf.shimAt "shim" reserved shim :: post := by
  cases pf with
  | tdx => exact ⟨(Platform.tdx.regions p params zero []).take 9, [], fun _ => rfl⟩
  | snp =>
    exact ⟨(Platform.snp.regions p params zero []).take 9,
      (Platform.snp.regions p params zero []).drop 10, fun _ => rfl⟩

theorem isMmio_of_mem_regions {q : Placed} (hq : q ∈ pf.regions p params zero shim) :
    q.isMmio = false := by
  have hall : ∀ q ∈ pf.regions p params zero shim, q.isMmio = false := by
    cases pf with
    | tdx => simp [Platform.regions, tdxRegions, Placed.measured, Placed.isMmio]
    | snp => simp [Platform.regions, snpRegions, Placed.measured, Placed.host, Placed.isMmio]
  exact hall q hq

private theorem fill_ne_nil {base k n : Nat} {name : String} {d : List UInt8} (hd : d.length = n)
    (hpos : 0 < n) : (Placed.measured base name k d).fill ≠ .measured [] := by
  rintro ⟨rfl⟩
  exact absurd hd hpos.ne

/-- The one region that may have nothing to load is the initramfs's. -/
theorem fill_ne_nil_of_mem_regions (h : Sized p memory) (hzero : zero.length = page)
    (hshim : shim.length = page) {q : Placed} (hq : q ∈ pf.regions p params zero shim)
    (hbase : q.base ≠ initramfsBase ∨ p.initramfs ≠ []) : q.fill ≠ .measured [] := by
  cases pf with
  | tdx =>
    simp only [Platform.regions, tdxRegions, List.mem_cons, List.not_mem_nil, or_false] at hq
    rcases hq with rfl | rfl | rfl | rfl | rfl | rfl | rfl | rfl | rfl | rfl
    · exact fill_ne_nil hzero (by decide)
    · exact fill_ne_nil h.command_length (by decide)
    · exact fill_ne_nil (Acpi.length_build _ _) (by decide)
    · exact fill_ne_nil (length_zeros _) (by decide)
    · exact fill_ne_nil (length_identityMap _ _) (by decide)
    · exact fill_ne_nil length_gdtStack (by decide)
    · exact fill_ne_nil h.setup_length (by decide)
    · exact fill_ne_nil rfl h.kernel_pos
    · rcases hbase with hbase | hne
      · exact absurd rfl hbase
      · exact fill_ne_nil rfl (List.length_pos_iff.mpr hne)
    · exact fill_ne_nil hshim (by decide)
  | snp =>
    simp only [Platform.regions, snpRegions, List.mem_cons, List.not_mem_nil, or_false] at hq
    rcases hq with rfl | rfl | rfl | rfl | rfl | rfl | rfl | rfl | rfl | rfl | rfl | rfl | rfl
    · exact fill_ne_nil hzero (by decide)
    · exact fill_ne_nil h.command_length (by decide)
    · exact fill_ne_nil (Acpi.length_build _ _) (by decide)
    · exact Fill.noConfusion
    · exact Fill.noConfusion
    · exact fill_ne_nil length_ccBlob (by decide)
    · exact fill_ne_nil (length_identityMap _ _) (by decide)
    · exact fill_ne_nil length_gdtStack (by decide)
    · exact fill_ne_nil (length_zeros _) (by decide)
    · exact fill_ne_nil hshim (by decide)
    · exact fill_ne_nil h.setup_length (by decide)
    · exact fill_ne_nil rfl h.kernel_pos
    · rcases hbase with hbase | hne
      · exact absurd rfl hbase
      · exact fill_ne_nil rfl (List.length_pos_iff.mpr hne)

end BootShim.Pipeline
