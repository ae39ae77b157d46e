-- SUMMARY: Loading an image: memory then holds every region, and every published component where its entry says.
import BootShim.Lib.Memory
import BootShim.Pipeline.Described

/-!
# Loading an image

A loader writes the imported pages to memory. Each measured region is then where the map
has it, up to the end of its last page, and each component of the manifest is the bytes
at the address and of the size it states.
-/

namespace BootShim.Boot

open Bytes Layout

/-- Pages in memory add up to what they were cut from, padded to a page boundary. -/
theorem holds_of_pages {m : Memory} {base : Nat} {d : List UInt8}
    (h : ∀ x ∈ pages base d, m.Holds x.1 x.2) : m.Holds base (padTo (alignUp d.length page) d) := by
  intro i hi
  rw [length_padTo (le_alignUp_page _)] at hi
  have hpage : i / page * page < d.length := by
    simp only [alignUp, page] at *
    omega
  have hx := h _ (mem_pages.mpr ⟨i / page, hpage, rfl⟩)
  have hmod : i % page < page := Nat.mod_lt i (by decide)
  have hlen : (slice d (i / page * page) page).length ≤ page := by
    rw [length_slice]
    exact min_le_left _ _
  have hsum : i / page * page + i % page = i := by
    simp only [page]
    omega
  have hbyte := hx (i % page) (by rw [length_padTo hlen]; exact hmod)
  rw [Nat.add_assoc, hsum, byteAt_padTo, byteAt_slice hmod, hsum] at hbyte
  rw [hbyte, byteAt_padTo]

end BootShim.Boot

namespace BootShim.Pipeline

open Boot Bytes Igvm Image Layout Snp

/-! ## The property -/

/-- Some address of the page lies in the region. -/
def Meets (q : Placed) (gpa : Nat) : Prop := ∃ a, gpa ≤ a ∧ a < gpa + page ∧ q.tile.Mem a

/-- Loaded into memory, the pages are the measured regions of the map and the published
    components, each of them whole and where it is said to be. -/
structure Reproduces (hashes : Hashes) (pages : List (Nat × List UInt8)) (placed : List Placed)
    (published : Std.TreeMap String Component) : Prop where
  ascending : pages.Pairwise fun x y => x.1 < y.1
  aligned : ∀ x ∈ pages, x.1 % page = 0
  whole : ∀ x ∈ pages, x.2.length = page
  region : ∀ m : Memory, ∀ q ∈ placed, ∀ d, q.fill = .measured d →
    (m.load pages).Holds q.base (padTo (alignUp d.length page) d)
  single : ∀ x ∈ pages, ∃ q ∈ placed, x ∈ q.contents ∧ ∀ r ∈ placed, Meets r x.1 → r = q
  stated : ∀ (m : Memory) name c, name ≠ "vmsa" → name ≠ "vmsa_ap" → published[name]? = some c →
    ∃ bs, c.size = bs.length ∧ c.sha256 = Text.hexEncode (hashes.sha256 bs) ∧
      (m.load pages).Holds (Text.readHex c.address) bs
  named : ∀ q ∈ placed, q.name ≠ "" → published[q.name]? = some (component hashes q.base q.data)

variable {crate : Crate} {hashes : Hashes} {pf : Platform} {blob : ShimBlob}
  {kernelFile initramfs : List UInt8} {params : Params}

/-! ## Components -/

/-- Where the names of a map are distinct, its components are those of its named regions. -/
theorem getElem?_components {placed : List Placed}
    (hnodup : ((placed.filter fun q => q.name ≠ "").map Placed.name).Nodup) {name : String}
    {c : Component} :
    (components hashes placed)[name]? = some c ↔
      ∃ q ∈ placed, q.name ≠ "" ∧ q.name = name ∧ c = component hashes q.base q.data := by
  have hdistinct : ((placed.filter fun q => q.name ≠ "").map fun q =>
      (q.name, component hashes q.base q.data)).Pairwise fun a b => ¬ compare a.1 b.1 = .eq := by
    refine List.pairwise_map.mpr ((List.pairwise_map.mp hnodup).imp fun hne heq => hne ?_)
    exact Std.compare_eq_iff_eq.mp heq
  have hlookup : ∀ q ∈ placed, q.name ≠ "" →
      (components hashes placed)[q.name]? = some (component hashes q.base q.data) := by
    intro q hq hname
    refine Std.TreeMap.getElem?_ofList_of_mem Std.compare_self hdistinct ?_
    exact List.mem_map_of_mem (List.mem_filter.mpr ⟨hq, by simpa using hname⟩)
  constructor
  · intro h
    have hmem : name ∈ components hashes placed := by
      by_contra hno
      rw [Std.TreeMap.getElem?_eq_none hno] at h
      exact absurd h nofun
    rw [components, Std.TreeMap.mem_ofList, List.contains_iff_mem, List.map_map] at hmem
    obtain ⟨q, hq, rfl⟩ := List.mem_map.mp hmem
    obtain ⟨hq, hname⟩ := List.mem_filter.mp hq
    have hname' : q.name ≠ "" := by simpa using hname
    refine ⟨q, hq, hname', rfl, ?_⟩
    have hq' := hlookup q hq hname'
    exact Option.some.inj (h.symm.trans hq')
  · rintro ⟨q, hq, hname, rfl, rfl⟩
    exact hlookup q hq hname

namespace Mapped

variable (m : Mapped pf blob kernelFile initramfs params)

/-- The published names are distinct. -/
theorem nodup_names : (((sortByBase m.map).filter fun q => q.name ≠ "").map Placed.name).Nodup := by
  have hholes : (apertures params).filter (fun q => q.name ≠ "") = [] := by
    refine List.filter_eq_nil_iff.mpr fun q hq => ?_
    obtain ⟨h, -, rfl⟩ := mem_apertures.mp hq
    simp [Placed.mmio]
  have hregions : ((m.regions.filter fun q => q.name ≠ "").map Placed.name).Nodup := by
    rw [Mapped.regions]
    cases pf <;> simp [Platform.regions, tdxRegions, snpRegions, Placed.measured, Placed.host]
  have hperm := ((sortByBase_perm m.map).filter fun q => q.name ≠ "").map Placed.name
  refine hperm.nodup_iff.mpr ?_
  rw [Mapped.map, Platform.map, List.filter_append, hholes, List.append_nil]
  exact hregions

theorem mem_sortByBase_iff {q : Placed} :
    q ∈ sortByBase m.map ↔ q ∈ m.regions ∨ q ∈ apertures params :=
  (sortByBase_perm m.map).mem_iff.trans List.mem_append

/-! ## Pages and regions -/

theorem aligned_of_mem_pages {x : Nat × List UInt8} (hx : x ∈ m.pages) : x.1 % page = 0 := by
  obtain ⟨q, hq, hxq⟩ := List.mem_flatMap.mp hx
  exact ((m.fits hq).of_mem_contents hxq).1

/-- Loaded pages do not overlap. -/
theorem pairwise_pages_apart : m.pages.Pairwise fun x y => x.1 + x.2.length ≤ y.1 := by
  refine m.pairwise_pages.imp_of_mem fun {x y} hx hy hlt => ?_
  have hxa := m.aligned_of_mem_pages hx
  have hya := m.aligned_of_mem_pages hy
  rw [m.length_of_mem_pages hx]
  simp only [page] at *
  omega

/-- A loaded image holds its measured regions. -/
theorem holds_region (mem : Memory) {q : Placed} (hq : q ∈ sortByBase m.map) {d : List UInt8}
    (hd : q.fill = .measured d) :
    (mem.load m.pages).Holds q.base (padTo (alignUp d.length page) d) := by
  rcases m.mem_sortByBase_iff.mp hq with hq | hq
  · refine holds_of_pages fun x hx => Memory.holds_load m.pairwise_pages_apart ?_
    refine List.mem_flatMap.mpr ⟨q, hq, ?_⟩
    rw [Placed.contents, hd]
    exact hx
  · obtain ⟨h, -, rfl⟩ := mem_apertures.mp hq
    cases hd

/-- A page is of one region, and meets no other. -/
theorem exists_single {x : Nat × List UInt8} (hx : x ∈ m.pages) :
    ∃ q ∈ sortByBase m.map, x ∈ q.contents ∧ ∀ r ∈ sortByBase m.map, Meets r x.1 → r = q := by
  obtain ⟨q, hq, hxq⟩ := List.mem_flatMap.mp hx
  obtain ⟨halign, hmem⟩ := (m.fits hq).of_mem_contents hxq
  have hhi := (m.fits hq).hi_aligned (isMmio_of_mem_regions hq)
  refine ⟨q, m.mem_sorted hq, hxq, fun r hr hmeets => ?_⟩
  obtain ⟨a, hlo, hlt, hra⟩ := hmeets
  have hqa : q.tile.Mem a := by
    have hlt' := hmem.2
    refine ⟨hmem.1.trans hlo, ?_⟩
    simp only [page] at *
    omega
  exact tile_eq_of_mem m.validate_map ((sortByBase_perm m.map).mem_iff.mp hr)
    (List.mem_append_left _ hq) hra hqa

/-- A region that is published has contents of its own, and is no processor's. -/
theorem named_region {q : Placed} (hq : q ∈ sortByBase m.map) (hname : q.name ≠ "") :
    q.fill = .measured q.data ∧ q.name ≠ "vmsa" ∧ q.name ≠ "vmsa_ap" := by
  rcases m.mem_sortByBase_iff.mp hq with hq | hq
  · have hall : ∀ q ∈ m.regions, q.name ≠ "" →
        q.fill = .measured q.data ∧ q.name ≠ "vmsa" ∧ q.name ≠ "vmsa_ap" := by
      rw [Mapped.regions]
      cases pf <;>
        simp [Platform.regions, tdxRegions, snpRegions, Placed.measured, Placed.host, Placed.data]
    exact hall q hq hname
  · obtain ⟨h, -, rfl⟩ := mem_apertures.mp hq
    exact absurd rfl hname

/-- Published components that are not a processor's are those of the map. -/
theorem reproduces (hashes : Hashes) {published : Std.TreeMap String Component}
    (hpublished : ∀ name, name ≠ "vmsa" → name ≠ "vmsa_ap" →
      published[name]? = (components hashes (sortByBase m.map))[name]?) :
    Reproduces hashes m.pages (sortByBase m.map) published := by
  refine ⟨m.pairwise_pages, fun x hx => m.aligned_of_mem_pages hx,
    fun x hx => m.length_of_mem_pages hx, fun mem q hq d hd => m.holds_region mem hq hd,
    fun x hx => m.exists_single hx, fun mem name c hvmsa hap hc => ?_, fun q hq hname => ?_⟩
  · rw [hpublished name hvmsa hap] at hc
    obtain ⟨q, hq, hname, rfl, rfl⟩ := (getElem?_components m.nodup_names).mp hc
    refine ⟨q.data, rfl, rfl, ?_⟩
    rw [component, Text.readHex_hex]
    exact (m.holds_region mem hq (m.named_region hq hname).1).of_padTo
  · obtain ⟨-, hvmsa, hap⟩ := m.named_region hq hname
    rw [hpublished q.name hvmsa hap]
    exact (getElem?_components m.nodup_names).mpr ⟨q, hq, hname, rfl, rfl⟩

end Mapped

/-! ## Builds -/

/-- The processors' components are put beside those of the map. -/
theorem SnpRun.getElem?_published {view : VmsaView} {p384 : P384}
    {configHash idKey : Option (List Char)} {guestSvn : UInt32}
    (run : SnpRun crate hashes view p384 blob kernelFile initramfs params configHash idKey guestSvn)
    {name : String} (hvmsa : name ≠ "vmsa") (hap : name ≠ "vmsa_ap") :
    run.built.manifest.components[name]? = (components hashes (sortByBase run.map))[name]? := by
  have hbuilt : run.built.manifest.components =
      let placed := (components hashes (sortByBase run.map)).insert "vmsa"
        (component hashes snpVmsa (vmsaPage view bspVmsa))
      if 1 < params.vcpus then
        placed.insert "vmsa_ap" (component hashes snpVmsa (vmsaPage view apVmsa))
      else placed := by
    rw [SnpRun.built]
  have hvmsa' : compare "vmsa" name ≠ .eq := fun h => hvmsa (Std.compare_eq_iff_eq.mp h).symm
  have hap' : compare "vmsa_ap" name ≠ .eq := fun h => hap (Std.compare_eq_iff_eq.mp h).symm
  rw [hbuilt]
  dsimp only
  split
  · rw [Std.TreeMap.getElem?_insert, if_neg hap', Std.TreeMap.getElem?_insert, if_neg hvmsa']
  · rw [Std.TreeMap.getElem?_insert, if_neg hvmsa']

/-- Loading an image of either kind reproduces its regions and its published components. -/
theorem build_reproduces (crate : Crate) (hashes : Hashes) (blob : ShimBlob)
    (kernelFile initramfs : List UInt8) (params : Params) (configHash : Option (List Char)) :
    (∀ out, Image.build crate hashes blob kernelFile initramfs params configHash = .ok out →
      Reproduces hashes out.pages out.placed out.manifest.components) ∧
    ∀ view p384 idKey guestSvn out,
      Snp.build crate hashes view p384 blob kernelFile initramfs params configHash idKey guestSvn =
        .ok out →
      Reproduces hashes (pagesByAddress out.pages) out.placed out.manifest.components := by
  constructor
  · intro out hbuild
    obtain ⟨run, rfl⟩ := tdx_build_eq_ok.mp hbuild
    rw [run.built_pages, run.built_placed]
    exact run.reproduces hashes fun _ _ _ => rfl
  · intro view p384 idKey guestSvn out hbuild
    obtain ⟨run, rfl⟩ := snp_build_eq_ok.mp hbuild
    rw [run.pagesByAddress_built, run.built_placed]
    exact run.reproduces hashes fun name hvmsa hap => run.getElem?_published hvmsa hap

theorem build_reproduces_sample :
    (∃ crate out, Image.build crate Sample.hashes Sample.blob Sample.kernelFile [1]
        (Sample.params 1 51 []) none = .ok out ∧
      Reproduces Sample.hashes out.pages out.placed out.manifest.components) ∧
    ∃ crate out, Snp.build crate Sample.hashes Sample.view Sample.p384 Sample.blob
        Sample.kernelFile [1] (Sample.params 2 51 []) none none 0 = .ok out ∧
      Reproduces Sample.hashes (pagesByAddress out.pages) out.placed out.manifest.components := by
  constructor
  · obtain ⟨m⟩ : Nonempty (Mapped .tdx Sample.blob Sample.kernelFile [1] (Sample.params 1 51 [])) :=
      Sample.nonempty_mapped .tdx 1 51 (by decide) nofun .nil (by decide)
    obtain ⟨out, hout⟩ := Sample.exists_tdx_build m
    exact ⟨_, out, hout, (build_reproduces _ _ _ _ _ _ _).1 out hout⟩
  · obtain ⟨m⟩ : Nonempty (Mapped .snp Sample.blob Sample.kernelFile [1] (Sample.params 2 51 [])) :=
      Sample.nonempty_mapped .snp 2 51 (by decide) nofun .nil (by decide)
    obtain ⟨out, hout⟩ := Sample.exists_snp_build m
    exact ⟨_, out, hout, (build_reproduces _ _ _ _ _ _ _).2 _ _ _ _ out hout⟩

end BootShim.Pipeline
