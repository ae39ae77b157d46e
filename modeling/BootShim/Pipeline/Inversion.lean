-- SUMMARY: A build succeeds exactly when each of its steps does, and what it then returns.
import BootShim.Pipeline.Mapped

/-!
# Successful builds

Each builder is a sequence of fallible steps. A run lists what the steps produced
with the fact that they did, over the part both builders share, and a build returns a
result exactly when it is the result of a run.
-/

namespace BootShim.Pipeline

open Boot Bytes Checked Igvm Image Layout Snp

variable {crate : Crate} {hashes : Hashes} {blob : ShimBlob} {kernelFile initramfs : List UInt8}
  {params : Params} {configHash : Option (List Char)}

/-! ## TDX -/

/-- The steps of a successful TDX build. -/
structure TdxRun (crate : Crate) (blob : ShimBlob) (kernelFile initramfs : List UInt8)
    (params : Params) (configHash : Option (List Char)) extends
    Mapped .tdx blob kernelFile initramfs params where
  mrconfigid : String
  owned : Nat
  file : List UInt8
  config_ok : configField configHash 48 = .ok mrconfigid
  owned_ok : shimOwned toMapped.map = .ok owned
  igvm_ok : igvm crate toMapped.pages = .ok file
  read_ok : igvmPages crate file = .ok toMapped.pages

/-- What the build returns. -/
def TdxRun.built (run : TdxRun crate blob kernelFile initramfs params configHash)
    (hashes : Hashes) : Image.Built where
  placed := sortByBase run.map
  e820 := run.e820
  accept := run.accept
  pages := run.pages
  file := run.file
  manifest := {
    formatVersion := 2
    platform := "tdx"
    memoryBytes := params.memory
    vcpus := params.vcpus
    commandLine := params.cmdline
    mmioHoles := mmioHoles params
    kernelEntry := Text.hex run.p.entry 8
    expectedMrtd := Text.hexEncode (Mrtd.calculate hashes run.pages)
    shimOwnedBytes := run.owned
    launch := tdxLaunch (Mrtd.calculate hashes run.pages) run.mrconfigid
    components := components hashes (sortByBase run.map) }

section

variable (run : TdxRun crate blob kernelFile initramfs params configHash)

@[simp] theorem TdxRun.built_placed : (run.built hashes).placed = sortByBase run.map := by
  rw [TdxRun.built]

@[simp] theorem TdxRun.built_e820 : (run.built hashes).e820 = run.e820 := by rw [TdxRun.built]

@[simp] theorem TdxRun.built_accept : (run.built hashes).accept = run.accept := by
  rw [TdxRun.built]

@[simp] theorem TdxRun.built_pages : (run.built hashes).pages = run.pages := by rw [TdxRun.built]

end

/-- Without a host region, the launch pages are the pages of the regions in order. -/
theorem launchPages_eq {placed : List Placed} (h : ∀ p ∈ placed, p.fill ≠ .host) :
    launchPages placed = .ok (placed.flatMap Placed.contents) := by
  induction placed with
  | nil => rfl
  | cons p ps ih =>
    rw [List.forall_mem_cons] at h
    rw [launchPages, List.flatMap_cons, ih h.2, Placed.contents]
    cases hp : p.fill with
    | measured d => rfl
    | host => exact absurd hp h.1
    | mmio size => rfl

theorem Mapped.launchPages_sorted (m : Mapped .tdx blob kernelFile initramfs params) :
    launchPages (sortByBase m.map) = .ok m.pages := by
  rw [launchPages_eq, m.flatMap_contents_sorted]
  intro q hq
  have hq' : q ∈ Platform.tdx.regions m.p params m.zero m.shim ++ apertures params :=
    (sortByBase_perm _).subset hq
  rcases List.mem_append.mp hq' with hq' | hq'
  · simp only [Platform.regions, tdxRegions, List.mem_cons, List.not_mem_nil, or_false] at hq'
    rcases hq' with rfl | rfl | rfl | rfl | rfl | rfl | rfl | rfl | rfl | rfl <;>
      exact Fill.noConfusion
  · obtain ⟨h, -, rfl⟩ := mem_apertures.mp hq'
    exact Fill.noConfusion

section Fills

variable {pf : Platform} {p : Prepared} {zero shim : List UInt8}

variable (pf) in
private theorem acceptRanges_filled (hp : prepare kernelFile initramfs params = .ok p)
    (hzero : zero.length = page) :
    acceptRanges (pf.map p params zero (zeros page)) params.memory =
      acceptRanges (pf.blank p params) params.memory :=
  acceptRanges_eq_of_spans (spans_congr (map_tile_map (sized_of_prepare hp) hzero
    (length_zeros page) (length_zeros page) (length_zeros page))) _

variable (pf) in
/-- The two fills of a build take the blank map to the final one. -/
private theorem fills_eq {placed₁ placed₂ : List Placed}
    (hp : prepare kernelFile initramfs params = .ok p) (hzero : zero.length = page)
    (hfill₁ : fill (pf.blank p params) Layout.zeroPage zero = .ok placed₁)
    (hshim : Image.shim blob.bytes p.entry (acceptRanges placed₁ params.memory) = .ok shim)
    (hfill₂ : fill placed₁ pf.shimAt shim = .ok placed₂) :
    placed₁ = pf.map p params zero (zeros page) ∧ placed₂ = pf.map p params zero shim := by
  have hlen : shim.length = page := Image.length_shim hshim
  rw [Platform.blank, fill_zeroPage _ _ _ _ (hzero.trans (length_zeros page).symm)] at hfill₁
  obtain rfl := Except.ok.inj hfill₁
  rw [fill_shimAt _ _ (sized_of_prepare hp) hzero (length_zeros page) hlen] at hfill₂
  exact ⟨rfl, (Except.ok.inj hfill₂).symm⟩

end Fills

/-- A TDX build returns exactly the results of its runs. -/
theorem tdx_build_eq_ok {out : Image.Built} :
    Image.build crate hashes blob kernelFile initramfs params configHash = .ok out ↔
      ∃ run : TdxRun crate blob kernelFile initramfs params configHash, run.built hashes = out := by
  simp only [Image.build, bind_eq_ok, ensure_eq_ok, pure_eq_ok, exists_and_left, exists_const]
  constructor
  · rintro ⟨mrconfigid, hconfig, p, hp, ⟨⟩, hvalid, zero, hzero, placed₁, hfill₁, reset, hshim,
      placed₂, hfill₂, owned, howned, pages, hpages, file, hfile, readBack, hread, rfl, rfl⟩
    obtain ⟨rfl, rfl⟩ := fills_eq .tdx hp (length_zeroPage hzero) hfill₁ hshim hfill₂
    have haccept := acceptRanges_filled .tdx hp (length_zeroPage hzero)
    rw [haccept] at hshim ⊢
    let m : Mapped .tdx blob kernelFile initramfs params := ⟨p, zero, reset, hp, hvalid, hzero, hshim⟩
    have hm : launchPages (sortByBase m.map) = .ok m.pages := m.launchPages_sorted
    obtain rfl : m.pages = readBack := Except.ok.inj (hm.symm.trans hpages)
    refine ⟨⟨m, mrconfigid, owned, file, hconfig, howned, hfile, hread⟩, ?_⟩
    rw [TdxRun.built, ← m.e820_blank, ← m.acceptRanges_blank]
    rfl
  · rintro ⟨run, rfl⟩
    have hfill₁ := fill_zeroPage .tdx run.p params (zeros page)
      (run.length_zero.trans (length_zeros page).symm)
    have hfill₂ := fill_shimAt .tdx params run.sized run.length_zero
      (length_zeros page) run.length_shim
    have haccept := acceptRanges_filled .tdx run.prepare_ok run.length_zero
    refine ⟨run.mrconfigid, run.config_ok, run.p, run.prepare_ok, (), run.validate_ok, run.zero,
      run.zero_ok, _, hfill₁, run.shim, ?_, run.map, hfill₂, run.owned, run.owned_ok, run.pages,
      run.launchPages_sorted, run.file, run.igvm_ok, run.pages, run.read_ok, rfl, ?_⟩
    · rw [haccept]
      exact run.shim_ok
    · rw [haccept, TdxRun.built, ← run.e820_blank, ← run.acceptRanges_blank]
      rfl

/-! ## SNP -/

/-- The launch pages of a mapped SNP image, in order. -/
def Mapped.launchPages (m : Mapped .snp blob kernelFile initramfs params) : List LaunchPage :=
  m.regions.flatMap regionPages

/-- The digest of a launch of the image. -/
def Mapped.measurement (m : Mapped .snp blob kernelFile initramfs params) (hashes : Hashes)
    (view : VmsaView) : List UInt8 :=
  launchMeasurement hashes m.launchPages (vmsaPages view params.vcpus)

/-- The directives of the image: the memory it needs, its pages, its processors and its
    signed block. -/
def Mapped.directives (m : Mapped .snp blob kernelFile initramfs params)
    (signed : Option IdBlock) : List Directive :=
  requiredMemory m.e820 ++ m.launchPages.map (fun p => pageDirective p.gpa p.kind p.data) ++
    vpContexts params.vcpus ++ (signed.map fun block => Directive.snpIdBlock block.header).toList

/-- The steps of a successful SNP build. -/
structure SnpRun (crate : Crate) (hashes : Hashes) (view : VmsaView) (p384 : P384)
    (blob : ShimBlob) (kernelFile initramfs : List UInt8) (params : Params)
    (configHash idKey : Option (List Char)) (guestSvn : UInt32) extends
    Mapped .snp blob kernelFile initramfs params where
  hostData : String
  owned : Nat
  signed : Option IdBlock
  file : List UInt8
  svn_ok : ¬ (guestSvn.toNat ≠ 0 ∧ idKey = none)
  config_ok : configField configHash 32 = .ok hostData
  owned_ok : shimOwned toMapped.map = .ok owned
  sign_ok : signBlock hashes p384 idKey (toMapped.measurement hashes view) guestSvn.toNat = .ok signed
  serialize_ok : serialize crate (Snp.igvmFile (toMapped.directives signed)) = .ok file

variable {view : VmsaView} {p384 : P384} {idKey : Option (List Char)} {guestSvn : UInt32}

/-- What the build returns. -/
def SnpRun.built (run : SnpRun crate hashes view p384 blob kernelFile initramfs params configHash
    idKey guestSvn) : Snp.Built :=
  let measurement := run.measurement hashes view
  let vmsaComponents := (components hashes (sortByBase run.map)).insert "vmsa"
    (component hashes snpVmsa (vmsaPage view bspVmsa))
  { placed := sortByBase run.map
    e820 := run.e820
    accept := run.accept
    pages := run.launchPages
    vmsaPages := vmsaPages view params.vcpus
    measurement
    contents := Snp.igvmFile (run.directives run.signed)
    file := run.file
    manifest := {
      formatVersion := 2
      platform := "sev-snp"
      memoryBytes := params.memory
      topology := {
        sockets := 1, cores := params.vcpus % 2 ^ 8, threadsPerCore := 1, vcpus := params.vcpus }
      commandLine := params.cmdline
      mmioHoles := mmioHoles params
      kernelEntry := Text.hex run.p.entry 8
      expectedSnpMeasurement := Text.hexEncode measurement
      guestPolicy := Text.hex snpGuestPolicy 16
      cBitPosition := params.cbit
      sevFeatures := Text.hex snpSevFeatures 16
      shimOwnedBytes := run.owned
      launch := snpLaunch measurement run.hostData guestSvn.toNat (run.signed.map IdBlock.keyDigest)
      components :=
        if 1 < params.vcpus then
          vmsaComponents.insert "vmsa_ap" (component hashes snpVmsa (vmsaPage view apVmsa))
        else vmsaComponents } }

/-- The pages of an SNP image by address. -/
def pagesByAddress (pages : List LaunchPage) : List (Nat × List UInt8) :=
  pages.map fun p => (p.gpa, p.data)

/-- The launch pages of a region are its pages under a kind. -/
theorem map_regionPages (p : Placed) :
    (regionPages p).map (fun l => (l.gpa, l.data)) = p.contents := by
  obtain ⟨base, name, k, fill⟩ := p
  cases fill with
  | measured d =>
    simp only [regionPages, addNormal, Placed.contents, List.map_map]
    exact List.map_id _
  | host =>
    simp only [regionPages]
    split <;> rfl
  | mmio size => rfl

theorem Mapped.map_launchPages (m : Mapped .snp blob kernelFile initramfs params) :
    m.launchPages.map (fun l => (l.gpa, l.data)) = m.pages := by
  rw [Mapped.launchPages, Mapped.pages, List.map_flatMap]
  exact List.flatMap_congr fun p _ => map_regionPages p

section

variable (run : SnpRun crate hashes view p384 blob kernelFile initramfs params configHash idKey
  guestSvn)

@[simp] theorem SnpRun.built_placed : run.built.placed = sortByBase run.map := by
  rw [SnpRun.built]

@[simp] theorem SnpRun.built_e820 : run.built.e820 = run.e820 := by rw [SnpRun.built]

@[simp] theorem SnpRun.built_accept : run.built.accept = run.accept := by rw [SnpRun.built]

@[simp] theorem SnpRun.built_pages : run.built.pages = run.launchPages := by rw [SnpRun.built]

theorem SnpRun.pagesByAddress_built : pagesByAddress run.built.pages = run.pages := by
  rw [run.built_pages]
  exact run.map_launchPages

end

theorem Mapped.flatMap_regionPages_sorted (m : Mapped .snp blob kernelFile initramfs params) :
    (sortByBase m.map).flatMap regionPages = m.launchPages := by
  rw [flatMap_loaded, m.loaded_map, Mapped.launchPages]
  intro p hp
  exact List.map_eq_nil_iff.mp ((map_regionPages p).trans (contents_of_isMmio hp))

/-- Ascending whole pages do not overlap. -/
theorem validatePages_eq_ok {ps : List LaunchPage} (halign : ∀ p ∈ ps, p.gpa % page = 0)
    (hasc : ps.Pairwise fun p q => p.gpa < q.gpa) : validatePages ps = .ok () := by
  induction ps with
  | nil => rfl
  | cons p ps ih =>
    rw [List.forall_mem_cons] at halign
    rw [List.pairwise_cons] at hasc
    cases ps with
    | nil => rfl
    | cons q ps =>
      have hlt := hasc.1 q List.mem_cons_self
      have hp := halign.1
      have hq := halign.2 q List.mem_cons_self
      have hle : p.gpa + page ≤ q.gpa := by
        simp only [page] at *
        omega
      rw [validatePages, ensure_of hle, ok_bind]
      exact ih halign.2 hasc.2

theorem Mapped.validatePages_launchPages (m : Mapped .snp blob kernelFile initramfs params) :
    validatePages m.launchPages = .ok () := by
  refine validatePages_eq_ok (fun l hl => ?_) ?_
  · have hmem : (l.gpa, l.data) ∈ m.pages := m.map_launchPages ▸ List.mem_map_of_mem hl
    obtain ⟨q, hq, hx⟩ := List.mem_flatMap.mp hmem
    exact ((m.fits hq).of_mem_contents hx).1
  · have hasc := m.pairwise_pages
    rw [← m.map_launchPages, List.pairwise_map] at hasc
    exact hasc

/-- An SNP build returns exactly the results of its runs. -/
theorem snp_build_eq_ok {out : Snp.Built} :
    Snp.build crate hashes view p384 blob kernelFile initramfs params configHash idKey guestSvn =
        .ok out ↔
      ∃ run : SnpRun crate hashes view p384 blob kernelFile initramfs params configHash idKey
        guestSvn, run.built = out := by
  have hbsp : validateVmsa bspVmsa shimBase bspStackTop Layout.zeroPage = .ok () := rfl
  have hap : validateVmsa apVmsa snpApEntry 0 0 = .ok () := rfl
  simp only [Snp.build, hbsp, hap, bind_eq_ok, ensure_eq_ok, pure_eq_ok, exists_and_left,
    exists_const, true_and]
  constructor
  · rintro ⟨hsvn, hostData, hconfig, p, hp, ⟨⟩, hvalid, zero, hzero, placed₁, hfill₁, shimPage, hshim,
      placed₂, hfill₂, owned, howned, ⟨⟩, hpages, signed, hsigned, file, hfile, rfl⟩
    obtain ⟨rfl, rfl⟩ := fills_eq .snp hp (length_zeroPage hzero) hfill₁ hshim hfill₂
    have haccept := acceptRanges_filled .snp hp (length_zeroPage hzero)
    rw [haccept] at hshim ⊢
    let m : Mapped .snp blob kernelFile initramfs params :=
      ⟨p, zero, shimPage, hp, hvalid, hzero, hshim⟩
    have hm : (sortByBase (Platform.snp.map p params zero shimPage)).flatMap regionPages =
      m.launchPages := m.flatMap_regionPages_sorted
    have he820 : Boot.e820 (snpRegions p params.cbit (Acpi.build params.vcpus false) (zeros page)
      (zeros page) ++ apertures params) params.memory = m.e820 := m.e820_blank
    rw [hm] at hsigned hfile ⊢
    rw [he820] at hfile ⊢
    rw [m.acceptRanges_blank]
    exact ⟨⟨m, hostData, owned, signed, file, hsvn, hconfig, howned, hsigned, hfile⟩, rfl⟩
  · rintro ⟨run, rfl⟩
    have hfill₁ := fill_zeroPage .snp run.p params (zeros page)
      (run.length_zero.trans (length_zeros page).symm)
    have hfill₂ := fill_shimAt .snp params run.sized run.length_zero
      (length_zeros page) run.length_shim
    have haccept := acceptRanges_filled .snp run.prepare_ok run.length_zero
    have he820 : Boot.e820 (snpRegions run.p params.cbit (Acpi.build params.vcpus false) (zeros page)
      (zeros page) ++ apertures params) params.memory = run.e820 := run.e820_blank
    have hpages : (sortByBase (Platform.snp.map run.p params run.zero run.shim)).flatMap regionPages =
      run.launchPages := run.flatMap_regionPages_sorted
    refine ⟨run.svn_ok, run.hostData, run.config_ok, run.p, run.prepare_ok, (), run.validate_ok,
      run.zero, run.zero_ok, _, hfill₁, run.shim, ?_, _, hfill₂, run.owned, run.owned_ok, (), ?_,
      run.signed, ?_, run.file, ?_, ?_⟩
    · rw [haccept]
      exact run.shim_ok
    · rw [hpages]
      exact run.validatePages_launchPages
    · rw [hpages]
      exact run.sign_ok
    · rw [hpages, he820]
      exact run.serialize_ok
    · rw [hpages, he820, haccept, run.acceptRanges_blank]
      rfl

end BootShim.Pipeline
