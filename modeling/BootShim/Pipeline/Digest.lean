-- SUMMARY: The digest an SNP build publishes is the one a launch of its file arrives at, and the block it signs is the one a loader rebuilds.
import BootShim.Pipeline.Success
import BootShim.Snp.Launch

/-!
# The published digest

A builder folds its digest over its own page list and writes directives from that list
in another place. A launch sees the directives only. The two digests are one, and a
signed file carries it in the block that the firmware is handed.
-/

namespace BootShim.Pipeline

open Boot Bytes Checked Igvm Image Layout Snp

variable {crate : Crate} {hashes : Hashes} {view : VmsaView} {p384 : P384} {blob : ShimBlob}
  {kernelFile initramfs : List UInt8} {params : Params} {configHash idKey : Option (List Char)}
  {guestSvn : UInt32}

/-! ## Launching the directives -/

theorem kind_ne_cpuidXf {q : Placed} {l : LaunchPage} (hl : l ∈ regionPages q) :
    l.kind ≠ .cpuidXf := by
  obtain ⟨base, name, k, fill⟩ := q
  cases fill with
  | measured d =>
    obtain ⟨x, -, rfl⟩ := List.mem_map.mp hl
    intro h
    cases h
  | host =>
    simp only [regionPages] at hl
    split at hl <;>
      · obtain rfl := List.mem_singleton.mp hl
        intro h
        cases h
  | mmio size => exact absurd hl List.not_mem_nil

private theorem contexts_append (ds es : List Directive)
    (hds : ∀ d ∈ ds, ∀ gpa mask i vmsa, d ≠ .snpVpContext gpa mask i vmsa) :
    contexts (ds ++ es) = contexts es := by
  rw [contexts, contexts, List.filterMap_append, List.filterMap_eq_nil_iff.mpr, List.nil_append]
  intro d hd
  cases d with
  | snpVpContext gpa mask i vmsa => exact absurd rfl (hds _ hd gpa mask i vmsa)
  | pageData | requiredMemory | snpIdBlock => rfl

private theorem contexts_append_block (es : List Directive) (signed : Option IdBlock) :
    contexts (es ++ (signed.map fun block => Directive.snpIdBlock block.header).toList) =
      contexts es := by
  cases signed with
  | none => rw [Option.map_none, Option.toList_none, List.append_nil]
  | some block =>
    rw [contexts, contexts, List.filterMap_append]
    exact congrArg _ (List.append_nil _)

/-- The processors of a file are those of its VP contexts, whatever else it holds. -/
theorem Mapped.contexts_directives (m : Mapped .snp blob kernelFile initramfs params)
    (signed : Option IdBlock) :
    contexts (m.directives signed) = contexts (vpContexts params.vcpus) := by
  rw [Mapped.directives, contexts_append_block]
  refine contexts_append _ _ fun d hd gpa mask i vmsa heq => ?_
  rcases List.mem_append.mp hd with hd | hd
  · obtain ⟨_, _, _, _, rfl⟩ := requiredMemory_inert hd
    exact absurd heq nofun
  · obtain ⟨l, -, rfl⟩ := List.mem_map.mp hd
    exact absurd heq nofun

/-- A processor's index fits into the 16 bits a VP context has for it. -/
theorem vcpus_lt (hvalid : params.Valid) : params.vcpus < 2 ^ 16 := by
  have hle := hvalid.vcpus_le
  simp only [maxVcpus, page, acpiMadt, madtHeaderLen, madtWakeupLen, madtLapicLen] at hle
  omega

/-- A launch of a mapped image's directives arrives at the builder's digest. -/
theorem Mapped.replay_directives (m : Mapped .snp blob kernelFile initramfs params)
    (hvalid : params.Valid) (signed : Option IdBlock) :
    replay hashes view (m.directives signed) = m.measurement hashes view := by
  have hrequired : ∀ digest, (requiredMemory m.e820).foldl (loadPage hashes) digest = digest := by
    refine foldl_loadPage_inert fun d hd digest => ?_
    obtain ⟨_, _, _, _, rfl⟩ := requiredMemory_inert hd
    rfl
  have hvps : ∀ digest, (vpContexts params.vcpus).foldl (loadPage hashes) digest = digest := by
    refine foldl_loadPage_inert fun d hd digest => ?_
    obtain ⟨_, -, rfl⟩ := List.mem_map.mp hd
    rfl
  have hblock : ∀ digest, ((signed.map fun block => Directive.snpIdBlock block.header).toList).foldl
      (loadPage hashes) digest = digest := by
    refine foldl_loadPage_inert fun d hd digest => ?_
    obtain ⟨block, -, rfl⟩ := Option.map_eq_some_iff.mp (Option.mem_toList.mp hd)
    rfl
  have hkinds : ∀ l ∈ m.launchPages, l.kind ≠ .cpuidXf := by
    intro l hl
    obtain ⟨q, -, hq⟩ := List.mem_flatMap.mp hl
    exact kind_ne_cpuidXf hq
  rw [replay, m.contexts_directives, Mapped.directives, List.foldl_append, List.foldl_append,
    List.foldl_append, hrequired, foldl_loadPage_pages hkinds (length_zeros 48), hvps, hblock,
    Mapped.measurement, launchMeasurement]
  exact foldl_contexts hvalid.vcpus_pos (vcpus_lt hvalid)
    (length_foldl_digest (fun _ _ => length_extend ..) _ (length_zeros 48))

/-! ## The signed block -/

/-- What a signed block of a build states. -/
theorem idBlock_ok {pem : List Char} {ld : List UInt8} {svn : Nat} {block : IdBlock}
    (h : idBlock hashes p384 pem ld svn = .ok block) :
    ∃ key, p384.fromPkcs8Pem pem = .ok key ∧ block.header.ld = ld ∧
      block.header.idKeySignature = ⟨le72 (key.sign (signedBlock ld svn)).1,
        le72 (key.sign (signedBlock ld svn)).2⟩ ∧
      block.header.familyId = zeros 16 ∧ block.header.imageId = zeros 16 ∧
        block.header.version = idBlockVersion ∧ block.header.guestSvn = svn := by
  simp only [idBlock, bind_eq_ok, pure_eq_ok] at h
  obtain ⟨key, hkey, x, -, y, -, rfl⟩ := h
  refine ⟨key, ?_, rfl, rfl, rfl, rfl, rfl, rfl⟩
  cases hpem : p384.fromPkcs8Pem pem with
  | ok key' =>
    rw [hpem] at hkey
    rw [show key' = key from Except.ok.inj hkey]
  | error e =>
    rw [hpem] at hkey
    cases hkey

/-- The file carries one block, of this digest, and the signature in it is over the bytes
    a loader rebuilds from the block and the file's policy. -/
def SignedBlock (p384 : P384) (pem : List Char) (digest : List UInt8) (contents : File) : Prop :=
  ∃ key block policy, p384.fromPkcs8Pem pem = .ok key ∧
    contents.directives.filter (fun d => d matches .snpIdBlock _) = [.snpIdBlock block] ∧
    contents.initializations = [policy] ∧ block.ld = digest ∧
    (rebuiltBlock block policy).length = 96 ∧
    block.idKeySignature = ⟨le72 (key.sign (rebuiltBlock block policy)).1,
      le72 (key.sign (rebuiltBlock block policy)).2⟩

/-- Every place that states the digest of an SNP build states the one a launch of its
    directives arrives at. -/
structure Published (hashes : Hashes) (view : VmsaView) (p384 : P384) (idKey : Option (List Char))
    (out : Snp.Built) : Prop where
  folded : replay hashes view out.contents.directives =
    launchMeasurement hashes out.pages out.vmsaPages
  measurement : replay hashes view out.contents.directives = out.measurement
  manifest : out.manifest.expectedSnpMeasurement =
    Text.hexEncode (replay hashes view out.contents.directives)
  launch : out.manifest.launch["measurement"]? =
    some (Text.hexEncode (replay hashes view out.contents.directives))
  signed : ∀ pem, idKey = some pem →
    SignedBlock p384 pem (replay hashes view out.contents.directives) out.contents

/-- The one block among the directives of a signed image. -/
theorem Mapped.filter_directives (m : Mapped .snp blob kernelFile initramfs params)
    (block : IdBlock) :
    (m.directives (some block)).filter (fun d => d matches .snpIdBlock _) =
      [.snpIdBlock block.header] := by
  have hrequired : (requiredMemory m.e820).filter (fun d => d matches .snpIdBlock _) = [] := by
    refine List.filter_eq_nil_iff.mpr fun d hd => ?_
    obtain ⟨_, _, _, _, rfl⟩ := requiredMemory_inert hd
    exact Bool.false_ne_true
  have hpages : (m.launchPages.map fun l => pageDirective l.gpa l.kind l.data).filter
      (fun d => d matches .snpIdBlock _) = [] := by
    refine List.filter_eq_nil_iff.mpr fun d hd => ?_
    obtain ⟨_, -, rfl⟩ := List.mem_map.mp hd
    exact Bool.false_ne_true
  have hvps : (vpContexts params.vcpus).filter (fun d => d matches .snpIdBlock _) = [] := by
    refine List.filter_eq_nil_iff.mpr fun d hd => ?_
    obtain ⟨_, -, rfl⟩ := List.mem_map.mp hd
    exact Bool.false_ne_true
  rw [Mapped.directives, List.filter_append, List.filter_append, List.filter_append, hrequired,
    hpages, hvps]
  rfl

theorem signedBlock_of_signBlock (m : Mapped .snp blob kernelFile initramfs params) {pem : List Char}
    {svn : Nat} {signed : Option IdBlock}
    (h : signBlock hashes p384 (some pem) (m.measurement hashes view) svn = .ok signed) :
    SignedBlock p384 pem (m.measurement hashes view) (Snp.igvmFile (m.directives signed)) := by
  simp only [signBlock, bind_eq_ok, pure_eq_ok] at h
  obtain ⟨block, hblock, rfl⟩ := h
  have hld : (m.measurement hashes view).length = 48 := length_launchMeasurement _ _
  obtain ⟨key, hkey, hdigest, hsig, hfamily, himage, hversion, hsvn⟩ := idBlock_ok hblock
  have hbytes : rebuiltBlock block.header ⟨snpGuestPolicy, compat⟩ =
      signedBlock (m.measurement hashes view) svn := by
    rw [rebuiltBlock, hdigest, hfamily, himage, hversion, hsvn, signedBlock_eq hld]
  refine ⟨key, block.header, ⟨snpGuestPolicy, compat⟩, hkey, m.filter_directives block, rfl, hdigest,
    ?_, ?_⟩
  · rw [hbytes, signedBlock]
    simp
  · rw [hbytes, hsig]

/-! ## Published -/

theorem getElem?_snpLaunch (ld : List UInt8) (hostData : String) (svn : Nat)
    (signed : Option (List UInt8)) :
    (snpLaunch ld hostData svn signed)["measurement"]? = some (Text.hexEncode ld) := by
  simp only [snpLaunch, Std.TreeMap.getElem?_insert, Std.compare_eq_iff_eq]
  simp

/-- A successful SNP build publishes the digest of a launch of its directives, and the
    block it signs carries that digest. -/
theorem snp_build_published {ram : UInt64} {vcpus : UInt32} {cbit : UInt8} {cmdline : List Char}
    {mmio : List (UInt64 × UInt64)} {out : Snp.Built}
    (hparams : Params.snp ram vcpus cbit cmdline mmio = .ok params)
    (hbuild : Snp.build crate hashes view p384 blob kernelFile initramfs params configHash idKey
      guestSvn = .ok out) :
    Published hashes view p384 idKey out := by
  obtain ⟨run, rfl⟩ := snp_build_eq_ok.mp hbuild
  have hreplay : replay hashes view run.built.contents.directives = run.measurement hashes view :=
    run.replay_directives (Params.valid_of_snp hparams) run.signed
  refine ⟨hreplay, hreplay, congrArg Text.hexEncode hreplay.symm, ?_, fun pem hkey => ?_⟩
  · rw [hreplay]
    exact getElem?_snpLaunch _ _ _ _
  · rw [hreplay]
    subst hkey
    exact signedBlock_of_signBlock run.toMapped run.sign_ok

/-- A guest of two processors, signed with a version number. -/
theorem snp_build_published_sample :
    ∃ crate out, Snp.build crate Sample.hashes Sample.view Sample.p384 Sample.blob
        Sample.kernelFile [1] (Sample.params 2 51 []) none (some []) 7 = .ok out ∧
      Published Sample.hashes Sample.view Sample.p384 (some []) out := by
  obtain ⟨m⟩ : Nonempty (Mapped .snp Sample.blob Sample.kernelFile [1] (Sample.params 2 51 [])) :=
    Sample.nonempty_mapped .snp 2 51 (by decide) nofun .nil (by decide)
  have hparams : Params.snp 0x40000000 2 51 [] [] = .ok (Sample.params 2 51 []) := by
    decide +kernel
  obtain ⟨signed, hsigned⟩ : ∃ signed, signBlock Sample.hashes Sample.p384 (some [])
      (m.measurement Sample.hashes Sample.view) 7 = .ok signed := ⟨_, rfl⟩
  have hbuild : ∃ out, Snp.build (Sample.crate (Snp.igvmFile (m.directives signed))) Sample.hashes
      Sample.view Sample.p384 Sample.blob Sample.kernelFile [1] (Sample.params 2 51 []) none
      (some []) 7 = .ok out := exists_snp_build m (by decide) hsigned rfl rfl rfl
  obtain ⟨out, hout⟩ := hbuild
  exact ⟨_, out, hout, snp_build_published hparams hout⟩

end BootShim.Pipeline
