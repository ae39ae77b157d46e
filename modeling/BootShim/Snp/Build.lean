-- SUMMARY: The SNP launch measurement, VMSAs, ID block and the SNP builder (`src/snp.rs`).
import BootShim.Image.Build

/-!
# Building an SNP image

The functions of `src/snp.rs`. The launch digest folds one PAGE_INFO record per
launch page and then one per VMSA. A builder returns what it writes, together with
the map, the page list and the directives it derived on the way.
-/

namespace BootShim.Snp

open Boot Bytes Checked Igvm Image Layout

/-- A required-memory span is stated in 32 bits, so a larger guest takes several. -/
@[simp] abbrev requiredMemoryMax : Nat := 0xfffff000

@[simp] abbrev pageInfoLen : Nat := 112
@[simp] abbrev pageInfoContents : Nat := 48
@[simp] abbrev pageInfoLength : Nat := 96
@[simp] abbrev pageInfoType : Nat := 98
@[simp] abbrev pageInfoGpa : Nat := 104
@[simp] abbrev pageNormal : UInt8 := 1
@[simp] abbrev pageVmsa : UInt8 := 2
@[simp] abbrev pageSecrets : UInt8 := 5
@[simp] abbrev pageCpuid : UInt8 := 6

@[simp] abbrev idKeyEcdsaP384 : Nat := 1
@[simp] abbrev idCurveP384 : Nat := 2
@[simp] abbrev idBlockVersion : Nat := 1
@[simp] abbrev idBlockLen : Nat := 0x60
@[simp] abbrev idBlockLd : Nat := 0
@[simp] abbrev idBlockVersionAt : Nat := 0x50
@[simp] abbrev idBlockSvn : Nat := 0x54
@[simp] abbrev idBlockPolicy : Nat := 0x58
@[simp] abbrev sevKeyLen : Nat := 0x404
@[simp] abbrev sevKeyCurve : Nat := 0
@[simp] abbrev sevKeyQx : Nat := 4
@[simp] abbrev sevKeyQy : Nat := 76
@[simp] abbrev ecdsaComponentLen : Nat := 72

@[simp] abbrev vmsaCr0 : Nat := 0x31
@[simp] abbrev vmsaCr4 : Nat := 0x60
@[simp] abbrev vmsaEfer : Nat := 0x1000
@[simp] abbrev vmsaRflags : Nat := 2
@[simp] abbrev vmsaXcr0 : Nat := 1
@[simp] abbrev vmsaPat : Nat := 0x0007040600070406
@[simp] abbrev vmsaDr6 : Nat := 0xffff0ff0
@[simp] abbrev vmsaDr7 : Nat := 0x400
@[simp] abbrev vmsaMxcsr : Nat := 0x1f80
@[simp] abbrev vmsaX87Fcw : Nat := 0x037f
@[simp] abbrev segCode32Attr : Nat := 0x0c9b
@[simp] abbrev segDataAttr : Nat := 0x0c93
@[simp] abbrev segLimit : Nat := 0xffffffff

structure LaunchPage where
  gpa : Nat
  data : List UInt8
  kind : PageDataType
deriving DecidableEq

/-! ## VMSAs -/

def bspVmsa : SevVmsa :=
  let data : SevSelector :=
    { selector := bootDs, attrib := segDataAttr, limit := segLimit, base := 0 }
  let idtr : SevSelector := { selector := 0, attrib := 0, limit := 0, base := 0 }
  { es := data, ss := data, ds := data, fs := data, gs := data
    -- The VMSA enters 32-bit protected mode; the shim far-returns to the 64-bit selector.
    cs := { selector := bootCs32, attrib := segCode32Attr, limit := segLimit, base := 0 }
    gdtr := { selector := 0, attrib := 0, limit := gdtLimit, base := bspStack }
    idtr, ldtr := idtr, tr := idtr
    efer := vmsaEfer, cr4 := vmsaCr4, cr3 := 0, cr0 := vmsaCr0
    dr6 := vmsaDr6, dr7 := vmsaDr7, rflags := vmsaRflags
    rip := shimBase, rsp := bspStackTop, rsi := Layout.zeroPage
    pat := vmsaPat, xcr0 := vmsaXcr0, mxcsr := vmsaMxcsr, x87Fcw := vmsaX87Fcw
    sevFeatures := snpSevFeatures }

/-- An application processor parks in the shim with no stack and no zero page. -/
def apVmsa : SevVmsa := { bspVmsa with rip := snpApEntry, rsp := 0, rsi := 0 }

def validateVmsa (v : SevVmsa) (rip rsp rsi : Nat) : Except String Unit :=
  let data (s : SevSelector) (sel attrib : Nat) : Prop :=
    s.selector = sel ∧ s.attrib = attrib ∧ s.limit = segLimit ∧ s.base = 0
  have : ∀ s sel attrib, Decidable (data s sel attrib) := fun _ _ _ =>
    inferInstanceAs (Decidable (_ ∧ _))
  ensure (v.cr0 = vmsaCr0 ∧ v.cr3 = 0 ∧ v.cr4 = vmsaCr4 ∧ v.efer = vmsaEfer ∧ v.rdx = 0 ∧
      v.rip = rip ∧ v.rsp = rsp ∧ v.rsi = rsi ∧ v.rflags = vmsaRflags ∧ v.vmpl = 0 ∧
      v.dr6 = vmsaDr6 ∧ v.dr7 = vmsaDr7 ∧ v.pat = vmsaPat ∧ v.xcr0 = vmsaXcr0 ∧
      v.mxcsr = vmsaMxcsr ∧ v.x87Fcw = vmsaX87Fcw ∧ v.gdtr.base = bspStack ∧
      v.gdtr.limit = gdtLimit ∧ v.idtr.limit = 0 ∧ data v.cs bootCs32 segCode32Attr ∧
      data v.ds bootDs segDataAttr ∧ data v.ss bootDs segDataAttr ∧
      v.sevFeatures = snpSevFeatures)
    "SNP VMSA invariant failed"

def vmsaPage (view : VmsaView) (v : SevVmsa) : List UInt8 := write (zeros page) 0 (view.asBytes v)

/-! ## The setup_data record -/

@[simp] abbrev setupDataType : Nat := 8
@[simp] abbrev setupDataLen : Nat := 12
@[simp] abbrev setupDataData : Nat := 16
@[simp] abbrev setupDataHeader : Nat := 16
@[simp] abbrev setupCcBlob : Nat := 7
@[simp] abbrev ccBlobInfo : Nat := 32
@[simp] abbrev ccVersion : Nat := 4
@[simp] abbrev ccSecretsPhys : Nat := 8
@[simp] abbrev ccSecretsLen : Nat := 16
@[simp] abbrev ccCpuidPhys : Nat := 24
@[simp] abbrev ccCpuidLen : Nat := 32

/-- One measured page inside the E820 RAM map, where Linux reads it as plaintext. -/
def ccBlob : List UInt8 :=
  let v := zeros page
  let v := putLE 4 v setupDataType setupCcBlob
  -- The record claims the whole page, so Linux reserves all of it.
  let v := putLE 4 v setupDataLen (page - setupDataHeader)
  let v := putLE 4 v setupDataData (snpCcBlob + ccBlobInfo)
  let v := write v ccBlobInfo [0x41, 0x4d, 0x44, 0x45]
  let v := putLE 2 v (ccBlobInfo + ccVersion) 1
  let v := putLE 8 v (ccBlobInfo + ccSecretsPhys) snpSecrets
  let v := putLE 4 v (ccBlobInfo + ccSecretsLen) page
  let v := putLE 8 v (ccBlobInfo + ccCpuidPhys) snpCpuid
  putLE 4 v (ccBlobInfo + ccCpuidLen) page

@[simp] theorem length_ccBlob : ccBlob.length = page := by
  simp [ccBlob]

/-! ## The launch measurement -/

/-- The PAGE_INFO type SNP_LAUNCH_UPDATE stamps on each imported page. -/
def measureKind : PageDataType → UInt8
  | .secrets => pageSecrets
  | .cpuidData => pageCpuid
  | _ => pageNormal

/-- SNP_LAUNCH_UPDATE hashes page contents only for NORMAL and VMSA pages. -/
def extend (hashes : Hashes) (old : List UInt8) (gpa : Nat) (kind : UInt8)
    (contents : List UInt8) : List UInt8 :=
  let content :=
    if kind = pageNormal ∨ kind = pageVmsa then hashes.sha384 contents else zeros 48
  let info := zeros pageInfoLen
  let info := write info 0 old
  let info := write info pageInfoContents content
  let info := putLE 2 info pageInfoLength pageInfoLen
  let info := info.set pageInfoType kind
  let info := putLE 8 info pageInfoGpa gpa
  hashes.sha384 info

/-- The launch pages in order, then the VMSAs in vp index order. -/
def launchMeasurement (hashes : Hashes) (pages : List LaunchPage) (vmsas : List (List UInt8)) :
    List UInt8 :=
  let digest := pages.foldl
    (fun digest p => extend hashes digest p.gpa (measureKind p.kind) p.data) (zeros 48)
  vmsas.foldl (fun digest vmsa => extend hashes digest snpVmsa pageVmsa vmsa) digest

def addNormal (base : Nat) (data : List UInt8) : List LaunchPage :=
  (pages base data).map fun p => { gpa := p.1, data := p.2, kind := .normal }

def addSpecial (gpa : Nat) (kind : PageDataType) : List LaunchPage :=
  [{ gpa, data := zeros page, kind }]

/-- The launch pages of one region. The loader and firmware fill the two host pages, so
    both are measured by address alone. -/
def regionPages (p : Placed) : List LaunchPage :=
  match p.fill with
  | .host => if p.base = snpCpuid then addSpecial p.base .cpuidData else addSpecial p.base .secrets
  | .measured data => addNormal p.base data
  | .mmio _ => []

def validatePages : List LaunchPage → Except String Unit
  | p :: q :: ps => do
    ensure (p.gpa + page ≤ q.gpa) ("SNP launch pages overlap at " ++ Text.hex q.gpa 0)
    validatePages (q :: ps)
  | _ => .ok ()

/-! ## The ID block -/

/-- The firmware stores every ECDSA component little-endian in a 72-byte field. -/
def le72 (bigEndian : List UInt8) : List UInt8 :=
  write (zeros ecdsaComponentLen) 0 bigEndian.reverse

/-- ID_KEY_DIGEST is SHA-384 over the firmware's key structure, not the IGVM one. -/
def keyDigest (hashes : Hashes) (key : IdBlockPublicKey) : List UInt8 :=
  let v := zeros sevKeyLen
  let v := putLE 4 v sevKeyCurve key.curve
  let v := write v sevKeyQx key.qx
  hashes.sha384 (write v sevKeyQy key.qy)

/-- The 96 bytes that are signed. -/
def signedBlock (ld : List UInt8) (guestSvn : Nat) : List UInt8 :=
  let block := zeros idBlockLen
  let block := write block idBlockLd ld
  let block := putLE 4 block idBlockVersionAt idBlockVersion
  let block := putLE 4 block idBlockSvn guestSvn
  putLE 8 block idBlockPolicy snpGuestPolicy

structure IdBlock where
  header : SnpIdBlock
  keyDigest : List UInt8

/-- A coordinate of the public point, which the point at infinity lacks. -/
def coordinate : Option (List UInt8) → Except String (List UInt8)
  | some x => .ok x
  | none => .error "ID key is not an affine point"

def idBlock (hashes : Hashes) (p384 : P384) (pem : List Char) (ld : List UInt8) (guestSvn : Nat) :
    Except String IdBlock := do
  let key ← (p384.fromPkcs8Pem pem).mapError fun e => "parse ID key: " ++ e
  -- QEMU rebuilds the block from the IGVM header, so the signature covers these bytes.
  let signature := key.sign (signedBlock ld guestSvn)
  let x ← coordinate key.pointX
  let y ← coordinate key.pointY
  let publicKey : IdBlockPublicKey :=
    { curve := idCurveP384, reserved := 0, qx := le72 x, qy := le72 y }
  pure {
    keyDigest := keyDigest hashes publicKey
    header := {
      compatibilityMask := compat
      authorKeyEnabled := 0
      reserved := zeros 3
      ld
      familyId := zeros 16
      imageId := zeros 16
      version := idBlockVersion
      guestSvn
      idKeyAlgorithm := idKeyEcdsaP384
      authorKeyAlgorithm := 0
      idKeySignature := { rComp := le72 signature.1, sComp := le72 signature.2 }
      idPublicKey := publicKey
      authorKeySignature := {
        rComp := zeros ecdsaComponentLen, sComp := zeros ecdsaComponentLen }
      authorPublicKey := {
        curve := 0, reserved := 0, qx := zeros ecdsaComponentLen, qy := zeros ecdsaComponentLen } } }

/-! ## Required memory -/

/-- Appends `[base, stop)` to runs held newest first, merging it with the newest run
    where that ends at `base`. -/
def pushRun (out : List (Nat × Nat)) (base stop : Nat) : List (Nat × Nat) :=
  match out with
  | [] => [(base, stop)]
  | last :: rest => if last.2 = base then (last.1, stop) :: rest else (base, stop) :: last :: rest

/-- The E820 entries of every type merged into runs of touching entries. -/
def mergeEntries (e820 : List (Nat × Nat × Nat)) : List (Nat × Nat) :=
  (e820.foldl (fun out e => pushRun out e.1 (e.1 + e.2.1)) []).reverse

/-- Cuts `[pos, stop)` into directives of at most `requiredMemoryMax` bytes. -/
def splitRun (pos stop : Nat) : List Directive :=
  if h : pos < stop then
    let bytes := min (stop - pos) requiredMemoryMax
    .requiredMemory pos compat (bytes % 2 ^ 32) false :: splitRun (pos + bytes) stop
  else []
termination_by stop - pos
decreasing_by simp only [requiredMemoryMax]; omega

/-- The loader must find memory wherever E820 claims some and none in the apertures. -/
def requiredMemory (e820 : List (Nat × Nat × Nat)) : List Directive :=
  (mergeEntries e820).flatMap fun run => splitRun run.1 run.2

/-! ## The SNP builder -/

structure Topology where
  sockets : Nat
  cores : Nat
  threadsPerCore : Nat
  vcpus : Nat
deriving DecidableEq

structure Manifest where
  formatVersion : Nat
  platform : String
  memoryBytes : Nat
  topology : Topology
  commandLine : List Char
  mmioHoles : List String
  kernelEntry : String
  expectedSnpMeasurement : String
  guestPolicy : String
  cBitPosition : Nat
  sevFeatures : String
  shimOwnedBytes : Nat
  launch : Launch
  components : Std.TreeMap String Component

/-- What a verifier should expect the report to say: the digest and the launch values
    this build chose. -/
def snpLaunch (measurement : List UInt8) (hostData : String) (guestSvn : Nat)
    (signed : Option (List UInt8)) : Launch :=
  let r := Std.TreeMap.empty.insert "measurement" (Text.hexEncode measurement)
  let r := r.insert "policy" (Text.hex snpGuestPolicy 16)
  let r := r.insert "guest_svn" (toString guestSvn)
  let r := r.insert "host_data" hostData
  r.insert "id_key_digest" (match signed with
    | none => zeroDigits 48
    | some digest => Text.hexEncode digest)

/-- A successful build: what it writes, and the map and lists behind it. -/
structure Built where
  /-- The final map, in ascending order. -/
  placed : List Placed
  e820 : List (Nat × Nat × Nat)
  accept : List (Nat × Nat)
  pages : List LaunchPage
  vmsaPages : List (List UInt8)
  measurement : List UInt8
  contents : File
  file : List UInt8
  manifest : Manifest

/-- The regions an SNP image places, with the contents of its zero page and of its shim
    page, both blank at first. -/
def snpRegions (p : Prepared) (cbit : Nat) (acpiPage zero shimPage : List UInt8) : List Placed :=
  [ .measured Layout.zeroPage "" reserved zero,
    .measured cmdline "command_line" reserved p.command,
    .measured acpiBase "acpi" acpi acpiPage,
    .host snpCpuid,
    .host snpSecrets,
    .measured snpCcBlob "cc_blob" ram ccBlob,
    .measured pageTables "" reserved (identityMap cbit true),
    .measured bspStack "" reserved gdtStack,
    .measured snpGhcb "" reserved (zeros page),
    .measured shimBase "shim" reserved shimPage,
    .measured kernelSetupBase "kernel_setup" reserved p.setup,
    .measured kernelBase "kernel" ram p.kernel,
    .measured initramfsBase "initramfs" ram p.initramfs ]

/-- The measured VMSAs in vp index order. The application processors are identical. -/
def vmsaPages (view : VmsaView) (vcpus : Nat) : List (List UInt8) :=
  vmsaPage view bspVmsa :: List.replicate (vcpus - 1) (vmsaPage view apVmsa)

/-- One VP context per processor. The index has 16 bits. -/
def vpContexts (vcpus : Nat) : List Directive :=
  (List.range (vcpus % 2 ^ 16)).map fun vpIndex =>
    .snpVpContext snpVmsa compat vpIndex (if vpIndex = 0 then bspVmsa else apVmsa)

/-- The signed ID block of a build that was given a key. -/
def signBlock (hashes : Hashes) (p384 : P384) (idKey : Option (List Char))
    (measurement : List UInt8) (guestSvn : Nat) : Except String (Option IdBlock) :=
  match idKey with
  | none => .ok none
  | some pem => do
    let block ← idBlock hashes p384 pem measurement guestSvn
    pure (some block)

def igvmFile (directives : List Directive) : File where
  platforms := [{
    compatibilityMask := compat
    highestVtl := 0
    platformType := .sevSnp
    platformVersion := 1
    sharedGpaBoundary := 0 }]
  initializations := [{ policy := snpGuestPolicy, compatibilityMask := compat }]
  directives

def serialize (crate : Crate) (contents : File) : Except String (List UInt8) := do
  (crate.new contents).mapError fun e => "construct SNP IGVM: " ++ e
  let file ← (crate.serialize contents).mapError fun e => "serialize SNP IGVM: " ++ e
  let _ ← (crate.newFromBinary file).mapError fun e => "verify final SNP IGVM: " ++ e
  pure file

def build (crate : Crate) (hashes : Hashes) (view : VmsaView) (p384 : P384) (snpShim : ShimBlob)
    (kernelFile initramfs : List UInt8) (params : Params) (configHash idKey : Option (List Char))
    (guestSvn : UInt32) : Except String Built := do
  let guestSvn := guestSvn.toNat
  -- An SVN reaches the guest only inside a signed ID block.
  ensure (¬ (guestSvn ≠ 0 ∧ idKey = none))
    "--guest-svn needs --id-key: an unsigned launch reports SVN 0"
  let hostData ← configField configHash 32
  let p ← prepare kernelFile initramfs params
  let acpiPage := Acpi.build params.vcpus false
  -- The one authoritative map, as on TDX.
  let placed := snpRegions p params.cbit acpiPage (zeros page) (zeros page) ++ apertures params
  validate placed params.memory
  let e820 := Boot.e820 placed params.memory
  let zero ← Boot.zeroPage p.setup p.info p.initramfs.length acpiBase e820 snpCcBlob
  let placed ← fill placed Layout.zeroPage zero
  let accept := acceptRanges placed params.memory
  let shimPage ← shim snpShim.bytes p.entry accept
  let placed ← fill placed shimBase shimPage
  let owned ← shimOwned placed
  let placed := sortByBase placed
  let pages := placed.flatMap regionPages
  validatePages pages
  validateVmsa bspVmsa shimBase bspStackTop Layout.zeroPage
  validateVmsa apVmsa snpApEntry 0 0
  let vmsas := vmsaPages view params.vcpus
  let measurement := launchMeasurement hashes pages vmsas
  let signed ← signBlock hashes p384 idKey measurement guestSvn
  let contents := igvmFile (requiredMemory e820 ++
    pages.map (fun p => pageDirective p.gpa p.kind p.data) ++ vpContexts params.vcpus ++
    (signed.map fun block => Directive.snpIdBlock block.header).toList)
  let file ← serialize crate contents
  let vmsaComponents := (components hashes placed).insert "vmsa"
    (component hashes snpVmsa (vmsaPage view bspVmsa))
  pure {
    placed, e820, accept, pages, vmsaPages := vmsas, measurement, contents, file
    manifest := {
      formatVersion := 2
      platform := "sev-snp"
      memoryBytes := params.memory
      topology := {
        sockets := 1, cores := params.vcpus % 2 ^ 8, threadsPerCore := 1, vcpus := params.vcpus }
      commandLine := params.cmdline
      mmioHoles := mmioHoles params
      kernelEntry := Text.hex p.entry 8
      expectedSnpMeasurement := Text.hexEncode measurement
      guestPolicy := Text.hex snpGuestPolicy 16
      cBitPosition := params.cbit
      sevFeatures := Text.hex snpSevFeatures 16
      shimOwnedBytes := owned
      launch := snpLaunch measurement hostData guestSvn (signed.map IdBlock.keyDigest)
      components :=
        if 1 < params.vcpus then
          vmsaComponents.insert "vmsa_ap" (component hashes snpVmsa (vmsaPage view apVmsa))
        else vmsaComponents } }

end BootShim.Snp
