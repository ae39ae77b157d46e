-- SUMMARY: The IGVM file format and the hash functions as the builders use them; their implementations are parameters.
import BootShim.Lib.Bytes
import BootShim.Lib.Checked

/-!
# Third-party interfaces

The `igvm` crate, the `sha2` crate and the `zerocopy` view of a VMSA are not part
of this repository. Their data types are written out as far as the builders fill
them in, and their functions are fields of `Crate` and `Hashes`.
-/

namespace BootShim.Igvm

/-- Flags of a page. A page of the builders has none of them set. -/
structure PageDataFlags where
  is2mbPage : Bool := false
  unmeasured : Bool := false
  shared : Bool := false
deriving DecidableEq

inductive PageDataType where
  | normal
  | secrets
  | cpuidData
  | cpuidXf
deriving DecidableEq

/-- A segment register of a VMSA. -/
structure SevSelector where
  selector : Nat := 0
  attrib : Nat := 0
  limit : Nat := 0
  base : Nat := 0
deriving DecidableEq

/-- The fields of a VMSA that a builder states; every other field is zero. -/
structure SevVmsa where
  es : SevSelector := {}
  cs : SevSelector := {}
  ss : SevSelector := {}
  ds : SevSelector := {}
  fs : SevSelector := {}
  gs : SevSelector := {}
  gdtr : SevSelector := {}
  ldtr : SevSelector := {}
  idtr : SevSelector := {}
  tr : SevSelector := {}
  vmpl : Nat := 0
  efer : Nat := 0
  cr4 : Nat := 0
  cr3 : Nat := 0
  cr0 : Nat := 0
  dr7 : Nat := 0
  dr6 : Nat := 0
  rflags : Nat := 0
  rip : Nat := 0
  rsp : Nat := 0
  rsi : Nat := 0
  rdx : Nat := 0
  pat : Nat := 0
  xcr0 : Nat := 0
  mxcsr : Nat := 0
  x87Fcw : Nat := 0
  sevFeatures : Nat := 0
deriving DecidableEq

structure IdBlockSignature where
  rComp : List UInt8
  sComp : List UInt8
deriving DecidableEq

structure IdBlockPublicKey where
  curve : Nat
  reserved : Nat
  qx : List UInt8
  qy : List UInt8
deriving DecidableEq

structure SnpIdBlock where
  compatibilityMask : Nat
  authorKeyEnabled : Nat
  reserved : List UInt8
  ld : List UInt8
  familyId : List UInt8
  imageId : List UInt8
  version : Nat
  guestSvn : Nat
  idKeyAlgorithm : Nat
  authorKeyAlgorithm : Nat
  idKeySignature : IdBlockSignature
  idPublicKey : IdBlockPublicKey
  authorKeySignature : IdBlockSignature
  authorPublicKey : IdBlockPublicKey
deriving DecidableEq

inductive Directive where
  | pageData (gpa compatibilityMask : Nat) (flags : PageDataFlags) (dataType : PageDataType)
      (data : List UInt8)
  | requiredMemory (gpa compatibilityMask numberOfBytes : Nat) (vtl2Protectable : Bool)
  | snpVpContext (gpa compatibilityMask vpIndex : Nat) (vmsa : SevVmsa)
  | snpIdBlock (block : SnpIdBlock)
deriving DecidableEq

inductive PlatformType where
  | tdx
  | sevSnp
deriving DecidableEq

structure SupportedPlatform where
  compatibilityMask : Nat
  highestVtl : Nat
  platformType : PlatformType
  platformVersion : Nat
  sharedGpaBoundary : Nat
deriving DecidableEq

structure GuestPolicy where
  policy : Nat
  compatibilityMask : Nat
deriving DecidableEq

/-- What a file is made of: the arguments of `IgvmFile::new`. -/
structure File where
  platforms : List SupportedPlatform
  initializations : List GuestPolicy
  directives : List Directive
deriving DecidableEq

/-- The functions of the `igvm` crate. -/
structure Crate where
  /-- The checks of `IgvmFile::new`. -/
  new : File → Except String Unit
  serialize : File → Except String (List UInt8)
  newFromBinary : List UInt8 → Except String File

/-- The hash functions of the `sha2` crate. -/
structure Hashes where
  sha256 : List UInt8 → List UInt8
  sha384 : List UInt8 → List UInt8
  length_sha384 : ∀ m, (sha384 m).length = 48

/-- A VMSA as the bytes of its page. Its fields fit into one. -/
structure VmsaView where
  asBytes : SevVmsa → List UInt8
  length_asBytes_le : ∀ v, (asBytes v).length ≤ 4096

/-- A P-384 signing key: its signature of a message as the big-endian `r` and `s`, and
    the affine coordinates of its public point. -/
structure SigningKey where
  sign : List UInt8 → List UInt8 × List UInt8
  pointX : Option (List UInt8)
  pointY : Option (List UInt8)

/-- The key parser of the `p384` crate. -/
structure P384 where
  fromPkcs8Pem : List Char → Except String SigningKey

end BootShim.Igvm
