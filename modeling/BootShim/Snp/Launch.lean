-- SUMMARY: What a loader and the firmware make of an SNP file: the PAGE_INFO records they hash and the digest they arrive at.
import BootShim.Snp.Build

/-!
# Launching an SNP file

A loader hands the pages of a file to the firmware in the order of their directives,
and the VP contexts last, by index. The firmware chains one PAGE_INFO record a page.
This is a reading of the file on its own, for the builder's digest to be compared with.
-/

namespace BootShim.Snp

open Bytes Igvm Image Layout

/-- The fields of a PAGE_INFO record: the digest so far, that of the contents, the
    record's length, the page's type, five bytes of zero and the address. -/
def pageInfo (digest content : List UInt8) (kind : UInt8) (gpa : Nat) : List UInt8 :=
  digest ++ content ++ toLE 2 pageInfoLen ++ [kind] ++ zeros 5 ++ toLE 8 gpa

/-- The firmware's digest after one more page, measured with its contents or without. -/
def launchUpdate (hashes : Hashes) (digest : List UInt8) (gpa : Nat) (kind : UInt8)
    (contents : Option (List UInt8)) : List UInt8 :=
  hashes.sha384 (pageInfo digest (contents.elim (zeros 48) hashes.sha384) kind gpa)

/-- The PAGE_INFO type of a page, and whether the firmware hashes its contents. -/
def pageType : PageDataType → UInt8 × Bool
  | .normal => (pageNormal, true)
  | .secrets => (pageSecrets, false)
  | .cpuidData | .cpuidXf => (pageCpuid, false)

/-- A page directive is handed over at once, and no other directive is. -/
def loadPage (hashes : Hashes) (digest : List UInt8) : Directive → List UInt8
  | .pageData gpa _ _ kind data =>
    launchUpdate hashes digest gpa (pageType kind).1 (if (pageType kind).2 then some data else none)
  | .requiredMemory .. | .snpVpContext .. | .snpIdBlock _ => digest

/-- A VP context: its index, its address and its VMSA. -/
structure VpContext where
  vpIndex : Nat
  gpa : Nat
  vmsa : SevVmsa

/-- The VP contexts of a file in the order they are launched in. -/
def contexts (directives : List Directive) : List VpContext :=
  (directives.filterMap fun
    | .snpVpContext gpa _ vpIndex vmsa => some ⟨vpIndex, gpa, vmsa⟩
    | _ => none).insertionSort fun c d => c.vpIndex ≤ d.vpIndex

/-- The launch digest of a file: its pages in order, then its VP contexts, each a page of
    its VMSA padded with zeros. -/
def replay (hashes : Hashes) (view : VmsaView) (directives : List Directive) : List UInt8 :=
  (contexts directives).foldl
    (fun digest c =>
      launchUpdate hashes digest c.gpa pageVmsa (some (padTo page (view.asBytes c.vmsa))))
    (directives.foldl (loadPage hashes) (zeros 48))

/-- The 96 bytes that a loader rebuilds for the firmware to check the signature of. -/
def rebuiltBlock (block : SnpIdBlock) (policy : GuestPolicy) : List UInt8 :=
  block.ld ++ block.familyId ++ block.imageId ++ toLE 4 block.version ++ toLE 4 block.guestSvn ++
    toLE 8 policy.policy

variable {hashes : Hashes} {view : VmsaView}

/-! ## The records -/

/-- The builder fills the record in field by field. -/
theorem extend_eq {digest : List UInt8} (hlen : digest.length = 48) (gpa : Nat) (kind : UInt8)
    (contents : List UInt8) :
    extend hashes digest gpa kind contents =
      launchUpdate hashes digest gpa kind
        (if kind = pageNormal ∨ kind = pageVmsa then some contents else none) := by
  have hcontent : ∀ content : List UInt8, content.length = 48 →
      putLE 8 ((putLE 2 (write (write (zeros pageInfoLen) 0 digest) pageInfoContents content)
        pageInfoLength pageInfoLen).set pageInfoType kind) pageInfoGpa gpa =
        pageInfo digest content kind gpa := by
    intro content hc
    have hzeros : zeros 13 = zeros 5 ++ zeros 8 := by decide
    rw [write_zeros (by rw [hlen]; decide), padTo, write_append_zeros hlen (by rw [hlen, hc]; decide),
      putLE, putLE, write_append_zeros (by simp [hlen, hc]) (by simp [hlen, hc]), set_eq_write,
      write_append_zeros (by simp [hlen, hc]) (by simp [hlen, hc])]
    simp only [hlen, hc, length_toLE, List.length_singleton, pageInfoLen]
    rw [hzeros, ← List.append_assoc, write_append_zeros (by simp [hlen, hc]) (by simp)]
    simp [pageInfo]
    rfl
  rw [extend, launchUpdate]
  split
  · exact congrArg hashes.sha384 (hcontent _ (hashes.length_sha384 _))
  · exact congrArg hashes.sha384 (hcontent _ (length_zeros 48))

/-- The bytes that are signed are those a loader rebuilds. -/
theorem signedBlock_eq {ld : List UInt8} (hlen : ld.length = 48) (guestSvn : Nat) :
    signedBlock ld guestSvn =
      ld ++ zeros 16 ++ zeros 16 ++ toLE 4 idBlockVersion ++ toLE 4 guestSvn ++
        toLE 8 snpGuestPolicy := by
  have hzeros : zeros 48 = zeros 32 ++ zeros 16 := by decide
  have hids : zeros 32 = zeros 16 ++ zeros 16 := by decide
  rw [signedBlock, write_zeros (by rw [hlen]; decide), padTo, hlen,
    show zeros (idBlockLen - 48) = zeros 48 from rfl, hzeros, ← List.append_assoc, putLE, putLE, putLE,
    write_append_zeros (by simp [hlen]) (by simp), write_append_zeros (by simp [hlen]) (by simp),
    write_append_zeros (by simp [hlen]) (by simp), hids]
  simp [zeros]

/-! ## The digest -/

theorem length_extend (digest : List UInt8) (gpa : Nat) (kind : UInt8) (contents : List UInt8) :
    (extend hashes digest gpa kind contents).length = 48 := hashes.length_sha384 _

/-- Folding pages into a digest keeps its length. -/
theorem length_foldl_digest {α : Type*} {f : List UInt8 → α → List UInt8}
    (hf : ∀ digest x, (f digest x).length = 48) (xs : List α) {digest : List UInt8}
    (hlen : digest.length = 48) : (xs.foldl f digest).length = 48 := by
  induction xs generalizing digest with
  | nil => exact hlen
  | cons x xs ih => exact ih (hf digest x)

theorem length_launchMeasurement (pages : List LaunchPage) (vmsas : List (List UInt8)) :
    (launchMeasurement hashes pages vmsas).length = 48 :=
  length_foldl_digest (fun _ _ => length_extend ..) _
    (length_foldl_digest (fun _ _ => length_extend ..) _ (length_zeros 48))

/-- Pages of the kinds a builder gives, handed over as directives. -/
theorem foldl_loadPage_pages {pages : List LaunchPage} (hkinds : ∀ p ∈ pages, p.kind ≠ .cpuidXf)
    {digest : List UInt8} (hlen : digest.length = 48) :
    (pages.map fun p => pageDirective p.gpa p.kind p.data).foldl (loadPage hashes) digest =
      pages.foldl (fun digest p => extend hashes digest p.gpa (measureKind p.kind) p.data) digest := by
  induction pages generalizing digest with
  | nil => rfl
  | cons p ps ih =>
    rw [List.forall_mem_cons] at hkinds
    have hstep : loadPage hashes digest (pageDirective p.gpa p.kind p.data) =
        extend hashes digest p.gpa (measureKind p.kind) p.data := by
      rw [extend_eq hlen]
      cases hkind : p.kind with
      | normal | secrets | cpuidData => rfl
      | cpuidXf => exact absurd hkind hkinds.1
    rw [List.map_cons, List.foldl_cons, List.foldl_cons, hstep]
    exact ih hkinds.2 (length_extend ..)

/-- Directives that are no pages change nothing. -/
theorem foldl_loadPage_inert {ds : List Directive}
    (h : ∀ d ∈ ds, ∀ digest, loadPage hashes digest d = digest) (digest : List UInt8) :
    ds.foldl (loadPage hashes) digest = digest := by
  induction ds with
  | nil => rfl
  | cons d ds ih =>
    rw [List.forall_mem_cons] at h
    rw [List.foldl_cons, h.1]
    exact ih h.2

theorem requiredMemory_inert {e820 : List (Nat × Nat × Nat)} {d : Directive}
    (hd : d ∈ requiredMemory e820) : ∃ gpa mask bytes p, d = .requiredMemory gpa mask bytes p := by
  obtain ⟨run, -, hd⟩ := List.mem_flatMap.mp hd
  have hsplit : ∀ pos stop, d ∈ splitRun pos stop →
      ∃ gpa mask bytes p, d = .requiredMemory gpa mask bytes p := by
    intro pos stop hd
    fun_induction splitRun pos stop with
    | case1 pos hlt bytes ih =>
      rcases List.mem_cons.mp hd with rfl | hd
      · exact ⟨_, _, _, _, rfl⟩
      · exact ih hd
    | case2 pos hge => exact absurd hd List.not_mem_nil
  exact hsplit _ _ hd

/-- The VP contexts a builder emits are already in the order they are launched in. -/
theorem contexts_vpContexts (vcpus : Nat) :
    contexts (vpContexts vcpus) = (List.range (vcpus % 2 ^ 16)).map fun i =>
      ⟨i, snpVmsa, if i = 0 then bspVmsa else apVmsa⟩ := by
  have hfilter : ((vpContexts vcpus).filterMap fun
      | .snpVpContext gpa _ vpIndex vmsa => some (VpContext.mk vpIndex gpa vmsa)
      | _ => none) = (List.range (vcpus % 2 ^ 16)).map fun i =>
        ⟨i, snpVmsa, if i = 0 then bspVmsa else apVmsa⟩ := by
    rw [vpContexts, List.filterMap_map]
    exact congrFun List.filterMap_eq_map _
  rw [contexts, hfilter]
  refine List.Pairwise.insertionSort_eq ?_
  rw [List.pairwise_map]
  exact List.pairwise_lt_range.imp fun h => h.le

/-- The first processor has a VMSA of its own and the others share one. -/
theorem map_range_vmsa {α : Type*} {n : Nat} (hn : 0 < n) (a b : α) :
    ((List.range n).map fun i => if i = 0 then a else b) = a :: List.replicate (n - 1) b := by
  obtain ⟨n, rfl⟩ : ∃ k, n = k + 1 := ⟨n - 1, by omega⟩
  rw [List.range_succ_eq_map, List.map_cons, List.map_map, if_pos rfl, Nat.add_sub_cancel]
  congr 1
  refine List.eq_replicate_iff.mpr ⟨by simp, fun x hx => ?_⟩
  obtain ⟨i, -, rfl⟩ := List.mem_map.mp hx
  have hne : (if i + 1 = 0 then a else b) = b := if_neg (Nat.succ_ne_zero i)
  exact hne

/-- The VP contexts measure the VMSAs that the builder measures. -/
theorem foldl_contexts {vcpus : Nat} (hpos : 0 < vcpus) (hlt : vcpus < 2 ^ 16) {digest : List UInt8}
    (hlen : digest.length = 48) :
    (contexts (vpContexts vcpus)).foldl
        (fun digest c =>
          launchUpdate hashes digest c.gpa pageVmsa (some (padTo page (view.asBytes c.vmsa)))) digest =
      (vmsaPages view vcpus).foldl
        (fun digest vmsa => extend hashes digest snpVmsa pageVmsa vmsa) digest := by
  have hvmsas : vmsaPages view vcpus = (List.range vcpus).map fun i =>
      vmsaPage view (if i = 0 then bspVmsa else apVmsa) := by
    rw [vmsaPages, ← map_range_vmsa hpos]
    exact List.map_congr_left fun i _ => (apply_ite (vmsaPage view) _ _ _).symm
  have hpad : ∀ v, vmsaPage view v = padTo page (view.asBytes v) := fun v =>
    write_zeros (view.length_asBytes_le v)
  rw [contexts_vpContexts, Nat.mod_eq_of_lt hlt, hvmsas]
  induction List.range vcpus generalizing digest with
  | nil => rfl
  | cons i is ih =>
    rw [List.map_cons, List.map_cons, List.foldl_cons, List.foldl_cons, extend_eq hlen, hpad]
    exact ih (hashes.length_sha384 _)

end BootShim.Snp
