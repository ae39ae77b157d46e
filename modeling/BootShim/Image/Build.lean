-- SUMMARY: Preparing the inputs, packing the shim's data block and building a TDX image (`src/image.rs`, `src/mrtd.rs`).
import BootShim.Acpi.Tables
import BootShim.Boot.Header
import BootShim.Boot.Map
import BootShim.Igvm
import BootShim.Params
import Std.Data.TreeMap.Basic

/-!
# Building an image

The functions of `src/image.rs` that both builders share, the MRTD of `src/mrtd.rs`
and the TDX builder itself. Files are their contents. A builder returns what it
writes, together with the map and the lists it derived on the way.
-/

namespace BootShim

open Bytes Checked Layout

namespace Mrtd

@[simp] abbrev mrRecordLen : Nat := 128
@[simp] abbrev mrGpa : Nat := 16
@[simp] abbrev mrExtendChunk : Nat := 256

/-- One record of the stream: a name at the front and an address at its field. -/
def record (name : List UInt8) (gpa : Nat) : List UInt8 :=
  putLE 8 (write (zeros mrRecordLen) 0 name) mrGpa gpa

/-- `MEM.PAGE.ADD` -/
def addRecord (gpa : Nat) : List UInt8 :=
  record [0x4d, 0x45, 0x4d, 0x2e, 0x50, 0x41, 0x47, 0x45, 0x2e, 0x41, 0x44, 0x44] gpa

/-- `MR.EXTEND` -/
def extendRecord (gpa : Nat) : List UInt8 :=
  record [0x4d, 0x52, 0x2e, 0x45, 0x58, 0x54, 0x45, 0x4e, 0x44] gpa

/-- What one page feeds to the hash. -/
def pageStream (p : Nat × List UInt8) : List UInt8 :=
  addRecord p.1 ++ (List.range (page / mrExtendChunk)).flatMap fun i =>
    extendRecord (addU64 p.1 (i * mrExtendChunk)) ++ slice p.2 (i * mrExtendChunk) mrExtendChunk

/-- The digest of one TDH.MEM.PAGE.ADD per page and one TDH.MR.EXTEND per chunk of it. -/
def calculate (hashes : Igvm.Hashes) (pages : List (Nat × List UInt8)) : List UInt8 :=
  hashes.sha384 (pages.flatMap pageStream)

end Mrtd

namespace Image

open Boot Igvm

/-- One compatibility mask bit: a file describes one platform. -/
@[simp] abbrev compat : Nat := 1

structure Component where
  address : String
  size : Nat
  sha256 : String
deriving DecidableEq

/-- What a verifier should expect the report to say for this image. -/
abbrev Launch := Std.TreeMap String String

def zeroDigits (bytes : Nat) : String := String.ofList (List.replicate (2 * bytes) '0')

/-- `trim_start_matches("0x")` -/
def stripHexPrefix : List Char → List Char
  | '0' :: 'x' :: s => stripHexPrefix s
  | s => s

def isHexDigit (c : Char) : Bool :=
  ('0' ≤ c && c ≤ '9') || ('a' ≤ c && c ≤ 'f') || ('A' ≤ c && c ≤ 'F')

/-- MRCONFIGID and HOST_DATA bind a deployment without entering the digest. -/
def configField (hash : Option (List Char)) (bytes : Nat) : Except String String :=
  match hash with
  | none => .ok (zeroDigits bytes)
  | some h => do
    let h := (stripHexPrefix (Text.trim h)).map Char.toLower
    ensure (h.length = bytes * 2 ∧ h.all isHexDigit)
      s!"--config-hash must be {bytes} hex-encoded bytes"
    pure (String.ofList h)

/-! ## Preparing the inputs -/

/-- The assembled shim. The assembler pads it to exactly one page. -/
structure ShimBlob where
  bytes : List UInt8
  length_eq : bytes.length = shimSize

structure Prepared where
  info : KernelInfo
  setup : List UInt8
  kernel : List UInt8
  initramfs : List UInt8
  command : List UInt8
  entry : Nat

/-- A command line as the bytes of its page: terminated, and cut or padded to a page. -/
def commandPage (cmdline : List Char) : List UInt8 :=
  let command := cmdline.map (fun c => UInt8.ofNat c.toNat) ++ [0]
  padTo page (command.take page)

def prepare (kernelFile initramfs : List UInt8) (params : Params) : Except String Prepared := do
  let info ← parseBzimage kernelFile
  let kernel := kernelFile.drop info.setupBytes
  let kernelEnd := alignUp (kernelBase + kernel.length) page
  let initramfsEnd := alignUp (initramfsBase + initramfs.length) page
  ensure (kernelEnd ≤ initramfsBase) "protected kernel overlaps the fixed initramfs address"
  ensure (kernelBase + info.initSize ≤ initramfsBase)
    "kernel init_size overlaps the fixed initramfs address"
  ensure (initramfsEnd ≤ params.memory) "initramfs exceeds the memory the image describes"
  -- boot_params addresses the initramfs with a 32-bit field.
  ensure (initramfsEnd ≤ 0xffffffff) "initramfs does not fit below 4 GiB"
  ensure (info.setupBytes ≤ kernelSetupAreaSize)
    "bzImage setup area exceeds its fixed measured reservation"
  -- cmdline_size is the kernel's own limit; the length is compared in 32 bits.
  ensure ((params.cmdline.length % 2 ^ 32 + 1) % 2 ^ 32 ≤ info.cmdlineMax)
    s!"command line is longer than the {info.cmdlineMax} bytes this kernel accepts"
  pure {
    info
    setup := write (zeros kernelSetupAreaSize) 0 (kernelFile.take info.setupBytes)
    kernel
    initramfs
    command := commandPage params.cmdline
    entry := kernelBase + entry64Offset }

/-- The entry point and the ranges as the shim reads them: two words a range, ended
    by a pair of zeros. -/
def shimDataBlock (entry : Nat) (ranges : List (Nat × Nat)) : List UInt8 :=
  toLE 8 entry ++ ranges.flatMap (fun r => toLE 8 r.1 ++ toLE 8 r.2) ++ zeros 16

/-- The shim, with the entry point and zero-terminated accept ranges packed in. -/
def shim (blob : List UInt8) (entry : Nat) (ranges : List (Nat × Nat)) :
    Except String (List UInt8) := do
  let data := shimDataBlock entry ranges
  ensure (data.length ≤ shimDataSize) s!"shim data block needs {data.length} of {shimDataSize} bytes"
  ensure ((slice blob shimData data.length).all (· = 0)) "shim code overruns its data block"
  pure (write blob shimData data)

/-! ## What follows from a map -/

/-- Whether a region counts as the shim's own: below the kernel, or the reset page,
    and not an aperture. -/
def isShimOwned (p : Placed) : Bool :=
  (p.base < kernelSetupBase || p.base = resetAlias) &&
    match p.fill with
    | .mmio _ => false
    | _ => true

/-- The measured bytes a builder authors, as opposed to the kernel and initramfs. -/
def shimOwned (placed : List Placed) : Except String Nat := do
  let owned := ((placed.filter isShimOwned).map Placed.span).sum
  ensure (owned ≤ shimLimit) s!"shim-owned measured pages exceed {shimLimit} bytes: {owned}"
  pure owned

def component (hashes : Hashes) (address : Nat) (data : List UInt8) : Component where
  address := Text.hex address 8
  size := data.length
  sha256 := Text.hexEncode (hashes.sha256 data)

/-- The named regions of the map, each hashed where the map places it. -/
def components (hashes : Hashes) (placed : List Placed) : Std.TreeMap String Component :=
  Std.TreeMap.ofList ((placed.filter fun p => p.name ≠ "").map fun p =>
    (p.name, component hashes p.base p.data))

/-- Regions in ascending order of their bases. -/
def sortByBase (placed : List Placed) : List Placed :=
  placed.insertionSort fun p q => p.base ≤ q.base

def launchPages : List Placed → Except String (List (Nat × List UInt8))
  | [] => .ok []
  | p :: ps =>
    match p.fill with
    | .measured data => do
      let rest ← launchPages ps
      pure (pages p.base data ++ rest)
    | .mmio _ => launchPages ps
    | .host => .error (Text.hex p.base 0 ++ " is placed but has no measured contents")

def mmioHoles (params : Params) : List String :=
  params.mmio.map fun h => Text.hex h.1 8 ++ ":" ++ Text.hex h.2 0

/-- The 4-level map covering `[0, mapLimit)`; `cBit` is 0 on TDX and the C-bit on SNP. -/
def identityMap (cBit : Nat) (sharedAlias : Bool) : List UInt8 :=
  let c := if cBit = 0 then 0 else 1 <<< cBit
  let pages := if sharedAlias then 3 else 2
  let v := zeros (pages * page)
  let v := putLE 8 v 0 ((pageTables + page) ||| c ||| 3)
  let v := (List.range (mapLimit / gib)).foldl
    (fun v g => putLE 8 v (page + g * 8) ((g * gib) ||| c ||| 0x83)) v
  if sharedAlias then
    -- PML4[1] reaches physical GiB 0 again, unencrypted.
    putLE 8 (putLE 8 v 8 ((pageTables + 2 * page) ||| c ||| 3)) (2 * page) 0x83
  else v

/-! ## The IGVM file -/

/-- A page a loader imports at `gpa`: 4 KiB, private and measured, which is flags of zero. -/
def pageDirective (gpa : Nat) (dataType : PageDataType) (data : List UInt8) : Directive :=
  .pageData gpa compat {} dataType data

def igvmFile (pages : List (Nat × List UInt8)) : File where
  platforms := [{
    compatibilityMask := compat
    highestVtl := 0
    platformType := .tdx
    platformVersion := 1
    sharedGpaBoundary := 0 }]
  initializations := []
  directives := pages.map fun p => pageDirective p.1 .normal p.2

def igvm (crate : Crate) (pages : List (Nat × List UInt8)) : Except String (List UInt8) := do
  (crate.new (igvmFile pages)).mapError fun e => "construct TDX IGVM: " ++ e
  (crate.serialize (igvmFile pages)).mapError fun e => "serialize TDX IGVM: " ++ e

/-- A directive as the measured page it has to be. -/
def measuredPage : Directive → Except String (Nat × List UInt8)
  | .pageData gpa mask flags dataType data =>
    if mask = compat ∧ dataType = .normal ∧ flags = {} ∧ data.length = page then .ok (gpa, data)
    else .error "TDX IGVM carries a directive that is not a measured page"
  | _ => .error "TDX IGVM carries a directive that is not a measured page"

/-- Reads an image back the way a loader does. -/
def igvmPages (crate : Crate) (file : List UInt8) : Except String (List (Nat × List UInt8)) := do
  let file ← (crate.newFromBinary file).mapError fun e => "read back TDX IGVM: " ++ e
  file.directives.mapM measuredPage

/-! ## The TDX builder -/

/-- What a TD launched from this image reports. -/
def tdxLaunch (mrtd : List UInt8) (mrconfigid : String) : Launch :=
  ["rtmr0", "rtmr1", "rtmr2", "rtmr3"].foldl (fun r name => r.insert name (zeroDigits 48))
    ((Std.TreeMap.empty.insert "mrtd" (Text.hexEncode mrtd)).insert "mrconfigid" mrconfigid)

structure Manifest where
  formatVersion : Nat
  platform : String
  memoryBytes : Nat
  vcpus : Nat
  commandLine : List Char
  mmioHoles : List String
  kernelEntry : String
  expectedMrtd : String
  shimOwnedBytes : Nat
  launch : Launch
  components : Std.TreeMap String Component

/-- A successful build: what it writes, and the map and lists behind it. -/
structure Built where
  /-- The final map, in ascending order. -/
  placed : List Placed
  e820 : List (Nat × Nat × Nat)
  accept : List (Nat × Nat)
  pages : List (Nat × List UInt8)
  file : List UInt8
  manifest : Manifest

/-- The regions a TDX image places, with the contents of its zero page and of its
    reset page, both blank at first. -/
def tdxRegions (p : Prepared) (acpiPage zero reset : List UInt8) : List Placed :=
  [ .measured Layout.zeroPage "" reserved zero,
    .measured cmdline "command_line" reserved p.command,
    .measured acpiBase "acpi" acpi acpiPage,
    .measured mailbox "" reserved (zeros page),
    .measured pageTables "" reserved (identityMap 0 false),
    .measured bspStack "" reserved gdtStack,
    .measured kernelSetupBase "kernel_setup" reserved p.setup,
    .measured kernelBase "kernel" ram p.kernel,
    .measured initramfsBase "initramfs" ram p.initramfs,
    -- The map covers the reset page, so the shim is never told to accept what it runs from.
    .measured resetAlias "shim" reserved reset ]

/-- The declared apertures as regions. -/
def apertures (params : Params) : List Placed := params.mmio.map fun h => .mmio h.1 h.2

def build (crate : Crate) (hashes : Hashes) (resetShim : ShimBlob)
    (kernelFile initramfs : List UInt8) (params : Params) (configHash : Option (List Char)) :
    Except String Built := do
  let mrconfigid ← configField configHash 48
  let p ← prepare kernelFile initramfs params
  let acpiPage := Acpi.build params.vcpus true
  -- The one authoritative map. The zero page describes it, so its contents come last.
  let placed := tdxRegions p acpiPage (zeros page) (zeros page) ++ apertures params
  validate placed params.memory
  let e820 := Boot.e820 placed params.memory
  let zero ← Boot.zeroPage p.setup p.info p.initramfs.length acpiBase e820 0
  let placed ← fill placed Layout.zeroPage zero
  let accept := acceptRanges placed params.memory
  let reset ← shim resetShim.bytes p.entry accept
  let placed ← fill placed resetAlias reset
  let owned ← shimOwned placed
  -- Ascending order is the order a loader adds pages and the MRTD is built in.
  let placed := sortByBase placed
  let pages ← launchPages placed
  let file ← igvm crate pages
  let readBack ← igvmPages crate file
  ensure (readBack = pages) "emitted IGVM file does not describe the measured pages"
  let expectedMrtd := Mrtd.calculate hashes pages
  pure {
    placed, e820, accept, pages, file
    manifest := {
      formatVersion := 2
      platform := "tdx"
      memoryBytes := params.memory
      vcpus := params.vcpus
      commandLine := params.cmdline
      mmioHoles := mmioHoles params
      kernelEntry := Text.hex p.entry 8
      expectedMrtd := Text.hexEncode expectedMrtd
      shimOwnedBytes := owned
      launch := tdxLaunch expectedMrtd mrconfigid
      components := components hashes placed } }

end Image

end BootShim
