-- SUMMARY: A mapped image: the part of a build both platforms share, and what its final map looks like.
import BootShim.Boot.Filled
import BootShim.Image.ShimData
import BootShim.Pipeline.Platform

/-!
# Mapped images

`Mapped` is what either builder has once the shim's page is packed: the prepared
inputs, the validated blank map, and the contents of the two pages that describe the
map itself. Filling those two in moves no interval, so everything derived from the
blank map also holds of the final one.
-/

namespace BootShim.Image

open Boot

/-- The regions a loader has something to do with, in ascending order. -/
def loaded (placed : List Placed) : List Placed := (sortByBase placed).filter fun p => !p.isMmio

theorem sortByBase_perm (placed : List Placed) : (sortByBase placed).Perm placed :=
  List.perm_insertionSort _ _

theorem pairwise_sortByBase (placed : List Placed) :
    (sortByBase placed).Pairwise fun p q => p.base ≤ q.base :=
  have : Std.Total fun p q : Placed => p.base ≤ q.base := ⟨fun _ _ => le_total _ _⟩
  have : IsTrans Placed fun p q => p.base ≤ q.base := ⟨fun _ _ _ => le_trans⟩
  List.pairwise_insertionSort _ _

/-- Regions listed in ascending order are what is left of a sorted map without its
    apertures, however many of these it has and wherever they lie. -/
theorem loaded_append {regions holes : List Placed}
    (hregions : ∀ p ∈ regions, p.isMmio = false) (hholes : ∀ p ∈ holes, p.isMmio = true)
    (hasc : regions.Pairwise fun p q => p.base < q.base) :
    loaded (regions ++ holes) = regions := by
  have hperm : (loaded (regions ++ holes)).Perm regions := by
    refine ((sortByBase_perm _).filter _).trans ?_
    rw [List.filter_append, List.filter_eq_self.mpr (by simpa using hregions),
      List.filter_eq_nil_iff.mpr (by simpa using hholes), List.append_nil]
  have hinj : (regions.map Placed.base).Nodup := List.pairwise_map.mpr (hasc.imp fun h => h.ne)
  have hsorted : regions.Pairwise fun p q => p.base ≤ q.base := hasc.imp fun h => h.le
  refine List.Perm.eq_of_pairwise ?_ ((pairwise_sortByBase _).filter _) hsorted hperm
  intro p q hp hq hpq hqp
  exact List.inj_on_of_nodup_map hinj (hperm.subset hp) hq (le_antisymm hpq hqp)

theorem contents_of_isMmio {p : Placed} (h : p.isMmio = true) : p.contents = [] := by
  unfold Placed.isMmio at h
  unfold Placed.contents
  split at h <;> simp_all

/-- Whatever apertures contribute nothing to depends on the regions that are loaded. -/
theorem flatMap_loaded {α : Type*} {f : Placed → List α} (hf : ∀ p, p.isMmio = true → f p = [])
    (placed : List Placed) : (sortByBase placed).flatMap f = (loaded placed).flatMap f := by
  rw [loaded]
  induction sortByBase placed with
  | nil => rfl
  | cons p ps ih =>
    rw [List.flatMap_cons, ih, List.filter_cons]
    cases hp : p.isMmio with
    | true => simp [hf p hp]
    | false => simp

end BootShim.Image

namespace BootShim.Pipeline

open Boot Bytes Checked Image Layout

/-! ## Filling the two pages in -/

section

variable {pf : Platform} {p : Prepared} {params : Params} {memory : Nat}
  {zero zero' shim shim' : List UInt8}

private theorem span_measured_eq {base k : Nat} {name : String} {d d' : List UInt8}
    (h : d.length = d'.length) :
    (Placed.measured base name k d).span = (Placed.measured base name k d').span := by
  simp only [Placed.measured, Placed.span, h]

variable (pf p params shim) in
theorem fill_zeroPage (h : zero'.length = zero.length) :
    fill (pf.map p params zero shim) Layout.zeroPage zero' = .ok (pf.map p params zero' shim) := by
  obtain ⟨post, heq⟩ := exists_regions_eq_zero pf p params shim
  rw [Platform.map, Platform.map, heq, heq]
  rw [← List.nil_append (_ :: _), List.append_assoc]
  exact fill_append (by simp) rfl (span_measured_eq h)

variable (pf params) in
theorem fill_shimAt (hsized : Sized p memory) (hzero : zero.length = page)
    (hshim : shim.length = page) (hshim' : shim'.length = page) :
    fill (pf.map p params zero shim) pf.shimAt shim' = .ok (pf.map p params zero shim') := by
  have hasc := pairwise_base_regions pf params hsized hzero hshim
  obtain ⟨pre, post, heq⟩ := exists_regions_eq_shim pf p params zero
  rw [heq, List.pairwise_append] at hasc
  rw [Platform.map, Platform.map, heq, heq, List.append_assoc, List.append_assoc]
  refine fill_append (fun q hq => ?_) rfl (span_measured_eq (hshim'.trans hshim.symm))
  exact (hasc.2.2 q hq _ List.mem_cons_self).ne

/-- Neither page's contents move an interval. -/
theorem map_tile_map (hsized : Sized p memory) (hzero : zero.length = page)
    (hzero' : zero'.length = page) (hshim : shim.length = page) (hshim' : shim'.length = page) :
    (pf.map p params zero shim).map Placed.tile = (pf.map p params zero' shim').map Placed.tile := by
  rw [Platform.map, Platform.map, List.map_append, List.map_append,
    map_tile_regions hsized hzero hshim, map_tile_regions hsized hzero' hshim']

end

theorem mem_apertures {params : Params} {q : Placed} :
    q ∈ apertures params ↔ ∃ h ∈ params.mmio, q = .mmio h.1 h.2 := by
  rw [apertures, List.mem_map]
  exact exists_congr fun h => and_congr_right fun _ => eq_comm

theorem isMmio_of_mem_apertures {params : Params} {q : Placed} (hq : q ∈ apertures params) :
    q.isMmio = true := by
  obtain ⟨h, -, rfl⟩ := mem_apertures.mp hq
  rfl

/-- No aperture is empty or wraps around. -/
def Straight (params : Params) : Prop := ∀ h ∈ params.mmio, 0 < h.2 ∧ ¬ Params.Wraps h

/-- A map without wrapped apertures is made of nonempty intervals. -/
theorem upright_map {pf : Platform} {p : Prepared} {params : Params} {memory : Nat}
    {zero shim : List UInt8} (hsized : Sized p memory) (hzero : zero.length = page)
    (hshim : shim.length = page) (hstraight : Straight params) :
    Upright (pf.map p params zero shim) := by
  intro q hq
  rcases List.mem_append.mp hq with hq | hq
  · have hmem : q.tile ∈ (pf.regions p params zero shim).map Placed.tile := List.mem_map_of_mem hq
    rw [map_tile_regions hsized hzero hshim] at hmem
    exact nonempty_footprint (kernelBase_lt_kernelEnd hsized) (initramfsBase_lt_initramfsEnd _) _ hmem
  · obtain ⟨h, hh, rfl⟩ := mem_apertures.mp hq
    obtain ⟨hpos, hfits⟩ := hstraight h hh
    have hsum : h.1 + h.2 < 2 ^ 64 := Nat.lt_of_not_le hfits
    have hhi : addU64 h.1 h.2 = h.1 + h.2 := addU64_of_lt hsum
    change h.1 < addU64 h.1 h.2
    omega

/-! ## Mapped images -/

/-- The part of a successful build that both builders share. -/
structure Mapped (pf : Platform) (blob : ShimBlob) (kernelFile initramfs : List UInt8)
    (params : Params) where
  p : Prepared
  zero : List UInt8
  shim : List UInt8
  prepare_ok : prepare kernelFile initramfs params = .ok p
  validate_ok : validate (pf.blank p params) params.memory = .ok ()
  zero_ok : Boot.zeroPage p.setup p.info p.initramfs.length acpiBase
    (e820 (pf.blank p params) params.memory) pf.setupData = .ok zero
  shim_ok : Image.shim blob.bytes p.entry (acceptRanges (pf.blank p params) params.memory) = .ok shim

namespace Mapped

variable {pf : Platform} {blob : ShimBlob} {kernelFile initramfs : List UInt8} {params : Params}
  (m : Mapped pf blob kernelFile initramfs params)

/-- The final regions. -/
def regions : List Placed := pf.regions m.p params m.zero m.shim

/-- The final map. -/
def map : List Placed := pf.map m.p params m.zero m.shim

def e820 : List (Nat × Nat × Nat) := Boot.e820 m.map params.memory

def accept : List (Nat × Nat) := acceptRanges m.map params.memory

/-- The pages a loader imports, in ascending order. -/
def pages : List (Nat × List UInt8) := m.regions.flatMap Placed.contents

theorem sized : Sized m.p params.memory := sized_of_prepare m.prepare_ok

theorem length_zero : m.zero.length = page := length_zeroPage m.zero_ok

theorem length_shim : m.shim.length = page := Image.length_shim m.shim_ok

theorem spans_blank : spans (pf.blank m.p params) = spans m.map :=
  spans_congr (map_tile_map m.sized (length_zeros _) m.length_zero (length_zeros _) m.length_shim)

theorem e820_blank : Boot.e820 (pf.blank m.p params) params.memory = m.e820 :=
  e820_eq_of_spans m.spans_blank _

theorem acceptRanges_blank : acceptRanges (pf.blank m.p params) params.memory = m.accept :=
  acceptRanges_eq_of_spans m.spans_blank _

/-- The final map passes the checks the blank one passed. -/
theorem validate_map : validate m.map params.memory = .ok () := by
  have hvalid := validate_eq_ok.mp m.validate_ok
  refine validate_eq_ok.mpr ⟨m.spans_blank ▸ hvalid.1, fun q hq => ?_⟩
  have hmem : q.tile ∈ (pf.blank m.p params).map Placed.tile := by
    rw [Platform.blank, map_tile_map m.sized (length_zeros _) m.length_zero (length_zeros _)
      m.length_shim]
    exact List.mem_map_of_mem hq
  obtain ⟨r, hr, htile⟩ := List.mem_map.mp hmem
  have hbase : r.base = q.base := congrArg Tile.lo htile
  exact hbase ▸ hvalid.2 r hr

theorem fits {q : Placed} (hq : q ∈ m.regions) : q.Fits :=
  fits_regions m.sized m.length_zero m.length_shim hq

/-- The regions that are loaded are the builder's own. -/
theorem loaded_map : loaded m.map = m.regions :=
  loaded_append (fun _ => isMmio_of_mem_regions) (fun _ => isMmio_of_mem_apertures)
    (pairwise_base_regions _ _ m.sized m.length_zero m.length_shim)

theorem flatMap_contents_sorted : (sortByBase m.map).flatMap Placed.contents = m.pages := by
  rw [flatMap_loaded fun _ => contents_of_isMmio, m.loaded_map, pages]

/-- The pages ascend, so none is imported twice. -/
theorem pairwise_pages : m.pages.Pairwise fun x y => x.1 < y.1 :=
  pairwise_flatMap_contents (fun _ => m.fits)
    (pairwise_regions m.sized m.length_zero m.length_shim)

/-! ### Regions by name -/

theorem mem_regions_zero : .measured Layout.zeroPage "" reserved m.zero ∈ m.regions := by
  obtain ⟨post, heq⟩ := exists_regions_eq_zero pf m.p params m.shim
  rw [Mapped.regions, heq]
  exact List.mem_cons_self

theorem mem_regions_shim : .measured pf.shimAt "shim" reserved m.shim ∈ m.regions := by
  obtain ⟨pre, post, heq⟩ := exists_regions_eq_shim pf m.p params m.zero
  rw [Mapped.regions, heq]
  exact List.mem_append_right _ List.mem_cons_self

/-- The regions whose contents the inputs alone settle. -/
private theorem mem_regions :
    .measured Layout.cmdline "command_line" reserved m.p.command ∈ m.regions ∧
      .measured acpiBase "acpi" acpi (Acpi.build params.vcpus (pf = .tdx)) ∈ m.regions ∧
        .measured kernelSetupBase "kernel_setup" reserved m.p.setup ∈ m.regions ∧
          .measured kernelBase "kernel" ram m.p.kernel ∈ m.regions ∧
            .measured initramfsBase "initramfs" ram m.p.initramfs ∈ m.regions := by
  rw [Mapped.regions]
  cases pf <;> simp [Platform.regions, tdxRegions, Snp.snpRegions]

theorem mem_regions_command :
    .measured Layout.cmdline "command_line" reserved m.p.command ∈ m.regions := m.mem_regions.1

/-- The tables have a mailbox to wake processors by on TDX only. -/
theorem mem_regions_acpi :
    .measured acpiBase "acpi" acpi (Acpi.build params.vcpus (pf = .tdx)) ∈ m.regions :=
  m.mem_regions.2.1

theorem mem_regions_setup :
    .measured kernelSetupBase "kernel_setup" reserved m.p.setup ∈ m.regions := m.mem_regions.2.2.1

theorem mem_regions_kernel : .measured kernelBase "kernel" ram m.p.kernel ∈ m.regions :=
  m.mem_regions.2.2.2.1

theorem mem_regions_initramfs :
    .measured initramfsBase "initramfs" ram m.p.initramfs ∈ m.regions := m.mem_regions.2.2.2.2

/-- A region of one page is imported as that page. -/
theorem mem_pages_of_measured {base k : Nat} {name : String} {d : List UInt8}
    (hd : d.length = page) (hq : .measured base name k d ∈ m.regions) : (base, d) ∈ m.pages := by
  refine List.mem_flatMap.mpr ⟨_, hq, ?_⟩
  rw [Placed.contents_measured, pages_of_length_eq hd]
  exact List.mem_singleton_self _

/-- The final map is upright unless an aperture wraps. -/
theorem upright (hstraight : Straight params) : Upright m.map :=
  upright_map m.sized m.length_zero m.length_shim hstraight

end Mapped

end BootShim.Pipeline
