-- SUMMARY: The SNP launch digest commits to every launch page and every VMSA.
import BootShim.Lib.Commitment
import BootShim.Snp.Launch

/-!
# The digest chain

The launch digest is a hash chain over PAGE_INFO records. SHA-384 takes longer messages
than it returns, so no such function is injective; what the chain needs is that it has no
collision among the messages that the two launches at hand make it hash, and that it
returns the all-zero digest, which the chain starts from, for none of them.
-/

namespace BootShim.Snp

open Bytes Commitment Igvm Layout

variable {hashes : Hashes} {pages pages' : List LaunchPage} {vmsas vmsas' : List (List UInt8)}

/-! ## Updates -/

/-- What one update brings into a record besides the digest so far. -/
structure Update where
  gpa : Nat
  kind : UInt8
  /-- The digest of the contents, zero where they are not measured. -/
  content : List UInt8
deriving DecidableEq

def Update.record (digest : List UInt8) (u : Update) : List UInt8 :=
  pageInfo digest u.content u.kind u.gpa

/-- The update of one page. -/
def update (hashes : Hashes) (gpa : Nat) (kind : UInt8) (contents : List UInt8) : Update where
  gpa
  kind
  content := if kind = pageNormal ∨ kind = pageVmsa then hashes.sha384 contents else zeros 48

def pageUpdate (hashes : Hashes) (p : LaunchPage) : Update :=
  update hashes p.gpa (measureKind p.kind) p.data

def vmsaUpdate (hashes : Hashes) (vmsa : List UInt8) : Update :=
  update hashes snpVmsa pageVmsa vmsa

/-- The updates of a launch, the VMSAs last. -/
def updates (hashes : Hashes) (pages : List LaunchPage) (vmsas : List (List UInt8)) : List Update :=
  pages.map (pageUpdate hashes) ++ vmsas.map (vmsaUpdate hashes)

theorem length_update_content (gpa : Nat) (kind : UInt8) (contents : List UInt8) :
    (update hashes gpa kind contents).content.length = 48 := by
  unfold update
  dsimp only
  split
  · exact hashes.length_sha384 _
  · exact length_zeros 48

theorem extend_eq_record {digest : List UInt8} (hlen : digest.length = 48) (gpa : Nat)
    (kind : UInt8) (contents : List UInt8) :
    extend hashes digest gpa kind contents =
      hashes.sha384 ((update hashes gpa kind contents).record digest) := by
  rw [extend_eq hlen, launchUpdate, Update.record, update]
  split <;> rfl

private theorem foldl_extend {α : Type*} (gpa : α → Nat) (kind : α → UInt8)
    (contents : α → List UInt8) (xs : List α) {start : List UInt8} (hlen : start.length = 48) :
    xs.foldl (fun digest x => extend hashes digest (gpa x) (kind x) (contents x)) start =
      digest hashes.sha384 (fun d u => Update.record d u) start
        (xs.map fun x => update hashes (gpa x) (kind x) (contents x)) := by
  induction xs generalizing start with
  | nil => rfl
  | cons x xs ih =>
    rw [List.foldl_cons, List.map_cons, extend_eq_record hlen, ih (hashes.length_sha384 _)]
    rfl

/-- The launch digest is the digest of a chain. -/
theorem launchMeasurement_eq (pages : List LaunchPage) (vmsas : List (List UInt8)) :
    launchMeasurement hashes pages vmsas =
      digest hashes.sha384 Update.record (zeros 48) (updates hashes pages vmsas) := by
  have hpages : (pages.foldl (fun digest p =>
      extend hashes digest p.gpa (measureKind p.kind) p.data) (zeros 48)).length = 48 :=
    length_foldl_digest (fun _ _ => length_extend ..) pages (length_zeros 48)
  rw [launchMeasurement, foldl_extend (fun _ => snpVmsa) (fun _ => pageVmsa) (fun v => v) vmsas hpages,
    foldl_extend LaunchPage.gpa (fun p => measureKind p.kind) LaunchPage.data pages (length_zeros 48),
    updates, digest, digest, digest, List.foldl_append]
  rfl

/-! ## What is hashed -/

/-- The contents of a launch page that are hashed. -/
def hashedContents (p : LaunchPage) : List (List UInt8) :=
  match p.kind with
  | .normal => [p.data]
  | _ => []

/-- Every message a launch has hashed: contents of pages, VMSAs, and the records. -/
def messages (hashes : Hashes) (pages : List LaunchPage) (vmsas : List (List UInt8)) :
    List (List UInt8) :=
  pages.flatMap hashedContents ++ vmsas ++
    records hashes.sha384 Update.record (zeros 48) (updates hashes pages vmsas)

/-- SHA-384 does not collide on the messages and takes none to the all-zero digest. -/
structure CollisionFree (hashes : Hashes) (messages : List (List UInt8)) : Prop where
  injective : ∀ m ∈ messages, ∀ m' ∈ messages, hashes.sha384 m = hashes.sha384 m' → m = m'
  ne_zero : ∀ m ∈ messages, hashes.sha384 m ≠ zeros 48

theorem collisionFree_iff_all {messages : List (List UInt8)} :
    (messages.all fun m => hashes.sha384 m ≠ zeros 48 ∧
      messages.all fun m' => hashes.sha384 m = hashes.sha384 m' → m = m') = true ↔
        CollisionFree hashes messages := by
  simp only [List.all_eq_true, decide_eq_true_eq]
  exact ⟨fun h => ⟨fun m hm => (h m hm).2, fun m hm => (h m hm).1⟩,
    fun h m hm => ⟨h.ne_zero m hm, h.injective m hm⟩⟩

instance (hashes : Hashes) (messages : List (List UInt8)) :
    Decidable (CollisionFree hashes messages) := decidable_of_iff _ collisionFree_iff_all

/-- A page of a kind that builders launch, at a 64-bit address. -/
def Launchable (p : LaunchPage) : Prop :=
  p.gpa < 2 ^ 64 ∧ (p.kind = .normal ∨ p.kind = .secrets ∨ p.kind = .cpuidData)

/-- Two pages that are measured alike: of special pages the contents do not matter. -/
def SameMeasured (p q : LaunchPage) : Prop :=
  p.gpa = q.gpa ∧ p.kind = q.kind ∧ (p.kind = .normal → p.data = q.data)

/-! ## The chain commits -/

/-- The fields of a record do not overlap. -/
theorem pageInfo_injective {digest digest' content content' : List UInt8} {kind kind' : UInt8}
    {gpa gpa' : Nat} (hdigest : digest.length = digest'.length)
    (hcontent : content.length = content'.length) (hgpa : gpa < 2 ^ 64) (hgpa' : gpa' < 2 ^ 64)
    (h : pageInfo digest content kind gpa = pageInfo digest' content' kind' gpa') :
    digest = digest' ∧ content = content' ∧ kind = kind' ∧ gpa = gpa' := by
  simp only [pageInfo, List.append_assoc] at h
  obtain ⟨h₁, h⟩ := List.append_inj h hdigest
  obtain ⟨h₂, h⟩ := List.append_inj h hcontent
  obtain ⟨h₃, h⟩ := List.append_inj (List.append_cancel_left h) rfl
  exact ⟨h₁, h₂, List.singleton_inj.mp h₃, toLE_injective hgpa hgpa' (List.append_cancel_left h)⟩

theorem measureKind_ne_vmsa (kind : PageDataType) : measureKind kind ≠ pageVmsa := by
  cases kind <;> decide

/-- The type byte of a launchable page settles its kind. -/
theorem kind_eq_of_measureKind {p q : LaunchPage} (hp : Launchable p) (hq : Launchable q)
    (h : measureKind p.kind = measureKind q.kind) : p.kind = q.kind := by
  obtain ⟨-, hp⟩ := hp
  obtain ⟨-, hq⟩ := hq
  rcases hp with hp | hp | hp <;> rcases hq with hq | hq | hq <;> rw [hp, hq] at h ⊢ <;>
    exact absurd h (by decide)

theorem gpa_lt_of_mem_updates (hpages : ∀ p ∈ pages, Launchable p) {u : Update}
    (hu : u ∈ updates hashes pages vmsas) : u.gpa < 2 ^ 64 ∧ u.content.length = 48 := by
  rcases List.mem_append.mp hu with hu | hu
  · obtain ⟨p, hp, rfl⟩ := List.mem_map.mp hu
    exact ⟨(hpages p hp).1, length_update_content ..⟩
  · obtain ⟨v, -, rfl⟩ := List.mem_map.mp hu
    have hvmsa : snpVmsa < 2 ^ 64 := by decide
    exact ⟨hvmsa, length_update_content ..⟩

/-- Without collisions equal digests are of equal updates. -/
theorem updates_eq (hpages : ∀ p ∈ pages, Launchable p) (hpages' : ∀ p ∈ pages', Launchable p)
    (hfree : CollisionFree hashes (messages hashes pages vmsas ++ messages hashes pages' vmsas'))
    (h : launchMeasurement hashes pages vmsas = launchMeasurement hashes pages' vmsas') :
    updates hashes pages vmsas = updates hashes pages' vmsas' := by
  rw [launchMeasurement_eq, launchMeasurement_eq] at h
  have hmem : ∀ m ∈ records hashes.sha384 Update.record (zeros 48) (updates hashes pages vmsas),
      m ∈ messages hashes pages vmsas ++ messages hashes pages' vmsas' := fun m hm =>
    List.mem_append_left _ (List.mem_append_right _ hm)
  have hmem' : ∀ m ∈ records hashes.sha384 Update.record (zeros 48) (updates hashes pages' vmsas'),
      m ∈ messages hashes pages vmsas ++ messages hashes pages' vmsas' := fun m hm =>
    List.mem_append_right _ (List.mem_append_right _ hm)
  refine eq_of_digest_eq (P := fun d => d.length = 48) (length_zeros 48) hashes.length_sha384 ?_
    (fun m hm m' hm' => hfree.injective m (hmem m hm) m' (hmem' m' hm'))
    (fun m hm => hfree.ne_zero m (hmem m hm)) (fun m hm => hfree.ne_zero m (hmem' m hm)) h
  intro d d' hd hd' u hu w hw hrecord
  obtain ⟨hgpa, hlen⟩ := gpa_lt_of_mem_updates hpages hu
  obtain ⟨hgpa', hlen'⟩ := gpa_lt_of_mem_updates hpages' hw
  obtain ⟨rfl, hcontent, hkind, hgpa⟩ := pageInfo_injective (hd.trans hd'.symm)
    (hlen.trans hlen'.symm) hgpa hgpa' hrecord
  refine ⟨rfl, ?_⟩
  cases u
  cases w
  simp_all

theorem pageUpdate_eq_of_sameMeasured {p q : LaunchPage} (hp : Launchable p)
    (h : SameMeasured p q) : pageUpdate hashes p = pageUpdate hashes q := by
  obtain ⟨-, hp⟩ := hp
  obtain ⟨hgpa, hkind, hdata⟩ := h
  rw [pageUpdate, pageUpdate, ← hgpa, ← hkind]
  rcases hp with hp | hp | hp
  · rw [hdata hp]
  · rw [hp]
    rfl
  · rw [hp]
    rfl

theorem sameMeasured_of_pageUpdate_eq {p q : LaunchPage} (hp : Launchable p) (hq : Launchable q)
    (hinj : p.kind = .normal → q.kind = .normal → hashes.sha384 p.data = hashes.sha384 q.data →
      p.data = q.data) (h : pageUpdate hashes p = pageUpdate hashes q) : SameMeasured p q := by
  simp only [pageUpdate, update, Update.mk.injEq] at h
  obtain ⟨hgpa, hmeasure, hcontent⟩ := h
  have hkind := kind_eq_of_measureKind hp hq hmeasure
  refine ⟨hgpa, hkind, fun hnormal => ?_⟩
  have hnormal' : q.kind = .normal := hkind ▸ hnormal
  rw [hnormal, hnormal'] at hcontent
  exact hinj hnormal hnormal' hcontent

theorem data_mem_messages {p : LaunchPage} (hp : p ∈ pages) (hkind : p.kind = .normal) :
    p.data ∈ messages hashes pages vmsas := by
  refine List.mem_append_left _ (List.mem_append_left _ (List.mem_flatMap.mpr ⟨p, hp, ?_⟩))
  rw [hashedContents, hkind]
  exact List.mem_singleton_self _

theorem vmsa_mem_messages {vmsa : List UInt8} (h : vmsa ∈ vmsas) :
    vmsa ∈ messages hashes pages vmsas :=
  List.mem_append_left _ (List.mem_append_right _ h)

/-- Without collisions equal digests are of launches that are measured alike. -/
theorem sameMeasured_of_launchMeasurement_eq (hpages : ∀ p ∈ pages, Launchable p)
    (hpages' : ∀ p ∈ pages', Launchable p)
    (hfree : CollisionFree hashes (messages hashes pages vmsas ++ messages hashes pages' vmsas'))
    (h : launchMeasurement hashes pages vmsas = launchMeasurement hashes pages' vmsas') :
    List.Forall₂ SameMeasured pages pages' ∧ vmsas = vmsas' := by
  have hupdates := updates_eq hpages hpages' hfree h
  -- no launch page can stand in for a VMSA: their types differ
  have hpage : ∀ {ps : List LaunchPage}, ∀ u ∈ ps.map (pageUpdate hashes), u.kind ≠ pageVmsa := by
    intro ps u hu
    obtain ⟨p, -, rfl⟩ := List.mem_map.mp hu
    exact measureKind_ne_vmsa p.kind
  have hvmsa : ∀ {vs : List (List UInt8)}, ∀ u ∈ vs.map (vmsaUpdate hashes),
      ¬ u.kind ≠ pageVmsa := by
    intro vs u hu
    obtain ⟨v, -, rfl⟩ := List.mem_map.mp hu
    exact not_not.mpr rfl
  obtain ⟨hleft, hright⟩ := append_inj_of_forall hupdates hpage hpage hvmsa hvmsa
  refine ⟨forall₂_of_map_eq hleft fun p hp q hq hpq => ?_, ?_⟩
  · refine sameMeasured_of_pageUpdate_eq (hpages p hp) (hpages' q hq) (fun hkind hkind' => ?_) hpq
    exact hfree.injective _ (List.mem_append_left _ (data_mem_messages hp hkind)) _
      (List.mem_append_right _ (data_mem_messages hq hkind'))
  · refine List.forall₂_eq_eq_eq ▸ forall₂_of_map_eq hright fun v hv w hw hvw => ?_
    exact hfree.injective _ (List.mem_append_left _ (vmsa_mem_messages hv)) _
      (List.mem_append_right _ (vmsa_mem_messages hw)) (congrArg Update.content hvw)

/-- Launches that are measured alike have one digest, whatever the hash. -/
theorem launchMeasurement_congr (hpages : ∀ p ∈ pages, Launchable p)
    (hsame : List.Forall₂ SameMeasured pages pages') :
    launchMeasurement hashes pages vmsas = launchMeasurement hashes pages' vmsas := by
  have hupdates : pages.map (pageUpdate hashes) = pages'.map (pageUpdate hashes) := by
    induction hsame with
    | nil => rfl
    | cons hpq _ ih =>
      rw [List.forall_mem_cons] at hpages
      rw [List.map_cons, List.map_cons, pageUpdate_eq_of_sameMeasured hpages.1 hpq, ih hpages.2]
  rw [launchMeasurement_eq, launchMeasurement_eq, updates, updates, hupdates]

/-- Equal digests are of launches with the same measured pages and the same VMSAs, and the
    contents of special pages do not show in a digest. -/
theorem launchMeasurement_eq_iff (hpages : ∀ p ∈ pages, Launchable p)
    (hpages' : ∀ p ∈ pages', Launchable p)
    (hfree : CollisionFree hashes (messages hashes pages vmsas ++ messages hashes pages' vmsas')) :
    launchMeasurement hashes pages vmsas = launchMeasurement hashes pages' vmsas' ↔
      List.Forall₂ SameMeasured pages pages' ∧ vmsas = vmsas' := by
  constructor
  · exact sameMeasured_of_launchMeasurement_eq hpages hpages' hfree
  · rintro ⟨hsame, rfl⟩
    exact launchMeasurement_congr hpages hsame

/-- A toy hash: the message as a number and its length, reduced to 48 bytes. -/
def sampleHashes : Hashes where
  sha256 m := toLE 32 (ofLE m)
  sha384 m := toLE 48 ((ofLE m + m.length + 1) % (2 ^ 384 - 317))
  length_sha384 _ := length_toLE 48 _

/-- One page, one special page with the given contents, one VMSA. -/
def samplePages (data special : List UInt8) : List LaunchPage :=
  [⟨0x1000, data, .normal⟩, ⟨snpCpuid, special, .cpuidData⟩]

theorem launchMeasurement_eq_iff_sample :
    launchMeasurement sampleHashes (samplePages [1] []) [[2]] =
        launchMeasurement sampleHashes (samplePages [1] [7]) [[2]] ∧
      launchMeasurement sampleHashes (samplePages [1] []) [[2]] ≠
        launchMeasurement sampleHashes (samplePages [3] []) [[2]] := by
  have hpages : ∀ data special, ∀ p ∈ samplePages data special, Launchable p := by
    intro data special
    simp [samplePages, Launchable]
  constructor
  · refine (launchMeasurement_eq_iff (hpages _ _) (hpages _ _) (by decide +kernel)).mpr ⟨?_, rfl⟩
    exact .cons ⟨rfl, rfl, fun _ => rfl⟩ (.cons ⟨rfl, rfl, fun h => by cases h⟩ .nil)
  · intro h
    have hsame := (launchMeasurement_eq_iff (hpages _ _) (hpages _ _) (by decide +kernel)).mp h
    cases hsame.1 with
    | cons hfirst _ => exact absurd (hfirst.2.2 rfl) (by decide)

end BootShim.Snp
