-- SUMMARY: The placement map and what the builders derive from it: pages, validation, E820 and the accept list (`src/boot.rs`).
import BootShim.Layout
import BootShim.Lib.Bytes
import BootShim.Lib.Checked
import BootShim.Lib.Sweep
import BootShim.Lib.Text

/-!
# The placement map

A map is the list of regions a builder places. From it follow the pages the file
imports, the E820 map handed to Linux, and the ranges the reset shim accepts.
The sums `base + span` are 64-bit and wrap; everything a sweep does with the
ends afterwards stays below them, so it is arithmetic on natural numbers.
-/

namespace BootShim.Boot

open Bytes Checked Layout

/-- E820 types, with `absent` for a span that E820 leaves out. -/
@[simp] abbrev absent : Nat := 0
@[simp] abbrev ram : Nat := 1
@[simp] abbrev reserved : Nat := 2
@[simp] abbrev acpi : Nat := 3

/-- What a placed span holds; ordinary RAM is everything these leave over. -/
inductive Fill where
  | measured (data : List UInt8)
  /-- One SNP page the firmware fills: measured by address, never by content. -/
  | host
  /-- A declared MMIO aperture: nothing is loaded there and no shim accepts it. -/
  | mmio (size : Nat)
deriving DecidableEq

/-- A span of the guest map. -/
structure Placed where
  base : Nat
  /-- What the manifest publishes this region as; empty leaves it out. -/
  name : String
  e820 : Nat
  fill : Fill
deriving DecidableEq

namespace Placed

def measured (base : Nat) (name : String) (e820 : Nat) (data : List UInt8) : Placed :=
  { base, name, e820, fill := .measured data }

def host (base : Nat) : Placed := { base, name := "", e820 := reserved, fill := .host }

def mmio (base size : Nat) : Placed := { base, name := "", e820 := absent, fill := .mmio size }

def span (p : Placed) : Nat :=
  match p.fill with
  | .measured d => max (alignUp d.length page) page
  | .host => page
  | .mmio n => n

def data (p : Placed) : List UInt8 :=
  match p.fill with
  | .measured d => d
  | _ => []

/-- The region as an interval of addresses under its E820 type. -/
def tile (p : Placed) : Tile Nat Nat := ⟨p.base, addU64 p.base p.span, p.e820⟩

end Placed

/-- The whole 4-KiB pages a region's contents occupy, the last one zero-padded. -/
def pages (base : Nat) (data : List UInt8) : List (Nat × List UInt8) :=
  (List.range (alignUp data.length page / page)).map fun i =>
    (base + i * page, padTo page (slice data (i * page) page))

/-- Fills a placed region, keeping its span so a map already derived from it holds. -/
def fill : List Placed → Nat → List UInt8 → Except String (List Placed)
  | [], base, _ => .error ("nothing is placed at " ++ Text.hex base 0)
  | p :: ps, base, data =>
    if p.base = base then do
      let region := { p with fill := .measured data }
      ensure (region.span = p.span)
        ("contents for " ++ Text.hex base 0 ++ " do not fit its placed span")
      pure (region :: ps)
    else do
      let ps ← fill ps base data
      pure (p :: ps)

/-! ## Spans in order -/

/-- The order of `(u64, u64, u32)` triples. -/
def spanLe (s t : Tile Nat Nat) : Prop :=
  s.lo < t.lo ∨ (s.lo = t.lo ∧ (s.hi < t.hi ∨ (s.hi = t.hi ∧ s.tag ≤ t.tag)))

instance : DecidableRel spanLe := fun _ _ => inferInstanceAs (Decidable (_ ∨ _))

instance : Std.Total spanLe where
  total s t := by simp only [spanLe]; omega

instance : IsTrans (Tile Nat Nat) spanLe where
  trans s t u := by simp only [spanLe]; omega

def spans (placed : List Placed) : List (Tile Nat Nat) :=
  (placed.map Placed.tile).insertionSort spanLe

/-! ## Validation -/

/-- The check on neighbouring spans. -/
def validateSpans : List (Tile Nat Nat) → Except String Unit
  | s :: t :: ss => do
    ensure (s.hi ≤ t.lo) ("placed regions overlap at " ++ Text.hex t.lo 0)
    validateSpans (t :: ss)
  | _ => .ok ()

/-- The checks on one region by itself. -/
def validateRegion (memory : Nat) (p : Placed) : Except String Unit := do
  ensure (p.base % page = 0) ("placed region " ++ Text.hex p.base 0 ++ " is not page-aligned")
  ensure (¬ (memory ≤ p.base ∧ p.base ≠ resetAlias))
    ("placed region " ++ Text.hex p.base 0 ++ " lies outside the memory the image describes")

/-- Overlapping spans reach Linux as an E820 map and an accept list that disagree. -/
def validate (placed : List Placed) (memory : Nat) : Except String Unit := do
  validateSpans (spans placed)
  forAll (validateRegion memory) placed

/-! ## E820 -/

/-- Appends `[base, stop)` to a map held newest entry first, coalescing it with the
    newest entry where the two touch under one type. -/
def pushEntry (out : List (Nat × Nat × Nat)) (base stop kind : Nat) : List (Nat × Nat × Nat) :=
  if stop ≤ base then out
  else match out with
    | [] => [(base, stop - base, kind)]
    | last :: rest =>
      if last.1 + last.2.1 = base ∧ last.2.2 = kind then
        (last.1, last.2.1 + (stop - base), last.2.2) :: rest
      else (base, stop - base, kind) :: last :: rest

def e820Loop (memory : Nat) (out : List (Nat × Nat × Nat)) (pos : Nat) :
    List (Tile Nat Nat) → List (Nat × Nat × Nat)
  | [] => pushEntry out pos memory ram
  | s :: ss =>
    if memory ≤ s.lo then pushEntry out pos memory ram
    else
      let out := pushEntry out pos s.lo ram
      let out :=
        if s.tag = absent then out
        else pushEntry out (max s.lo pos) (min s.hi memory) s.tag
      e820Loop memory out (max pos s.hi) ss

/-- The E820 map: each placed span under its own type, each gap RAM, adjacent runs
    coalesced. -/
def e820 (placed : List Placed) (memory : Nat) : List (Nat × Nat × Nat) :=
  (e820Loop memory [] 0 (spans placed)).reverse

/-! ## The accept list -/

def acceptLoop (memory pos : Nat) : List (Tile Nat Nat) → List (Nat × Nat)
  | [] => [(pos, memory)]
  | s :: ss =>
    if pos < s.lo then (pos, min s.lo memory) :: acceptLoop memory (max pos s.hi) ss
    else acceptLoop memory (max pos s.hi) ss

/-- The ranges a shim accepts: `[0, memory)` minus everything the loader already accepted. -/
def acceptRanges (placed : List Placed) (memory : Nat) : List (Nat × Nat) :=
  (acceptLoop memory 0 (spans placed)).filter fun r => r.1 < r.2

/-! ## What validation guarantees -/

theorem spans_perm (placed : List Placed) : (spans placed).Perm (placed.map Placed.tile) :=
  List.perm_insertionSort _ _

@[simp] theorem mem_spans {placed : List Placed} {s : Tile Nat Nat} :
    s ∈ spans placed ↔ ∃ p ∈ placed, p.tile = s := by
  rw [(spans_perm placed).mem_iff, List.mem_map]

theorem pairwise_spans (placed : List Placed) : (spans placed).Pairwise spanLe :=
  List.pairwise_insertionSort spanLe (placed.map Placed.tile)

theorem sortedByLo_spans (placed : List Placed) : Sweep.SortedByLo (spans placed) := by
  refine (pairwise_spans placed).imp ?_
  intro s t h
  simp only [spanLe] at h
  omega

theorem validateSpans_eq_ok {ss : List (Tile Nat Nat)} {u : Unit} :
    validateSpans ss = .ok u ↔ ss.IsChain fun s t => s.hi ≤ t.lo := by
  induction ss with
  | nil => simp [validateSpans]
  | cons s ss ih =>
    cases ss with
    | nil => simp [validateSpans]
    | cons t ss =>
      rw [validateSpans, bind_eq_ok, List.isChain_cons_cons]
      simp only [ensure_eq_ok, exists_and_left, exists_const, ih]

/-- Validation succeeds when neighbouring spans do not overlap and every region is
    aligned and inside the map, the reset page aside. -/
theorem validate_eq_ok {placed : List Placed} {memory : Nat} {u : Unit} :
    validate placed memory = .ok u ↔
      ((spans placed).IsChain fun s t => s.hi ≤ t.lo) ∧
        ∀ p ∈ placed, p.base % page = 0 ∧ (p.base < memory ∨ p.base = resetAlias) := by
  rw [validate, bind_eq_ok]
  simp only [validateSpans_eq_ok, forAll_eq_ok, exists_and_left, exists_const]
  refine and_congr_right fun _ => forall₂_congr fun p _ => ?_
  rw [validateRegion, bind_eq_ok]
  simp only [ensure_eq_ok, exists_and_left, exists_const]
  refine and_congr_right fun _ => ?_
  rw [not_and_or, not_le, not_not]

/-- The check on neighbours is a statement about every pair, whichever way round the
    ends of a span are. -/
theorem ordered_of_validate {placed : List Placed} {memory : Nat}
    (h : validate placed memory = .ok ()) :
    (spans placed).Pairwise fun s t => s.hi ≤ t.lo :=
  (sortedByLo_spans placed).pairwise_of_isChain (validate_eq_ok.mp h).1

/-- Any two regions of a validated map are apart. -/
theorem apart_of_validate {placed : List Placed} {memory : Nat}
    (h : validate placed memory = .ok ()) :
    placed.Pairwise fun p q => p.tile.Apart q.tile := by
  have hpair : (spans placed).Pairwise Tile.Apart := (ordered_of_validate h).imp Or.inl
  exact List.pairwise_map.mp (((spans_perm placed).pairwise_iff Tile.Apart.symm).mp hpair)

/-! ## The sweeps as library sweeps -/

/-- An E820 entry as an interval. -/
def entryTile (e : Nat × Nat × Nat) : Tile Nat Nat := ⟨e.1, e.1 + e.2.1, e.2.2⟩

/-- An accepted range as an interval. -/
def rangeTile (r : Nat × Nat) : Tile Nat Unit := ⟨r.1, r.2, ()⟩

theorem entryTile_injective : Function.Injective entryTile := by
  rintro ⟨b, n, k⟩ ⟨b', n', k'⟩ h
  simp only [entryTile, Tile.mk.injEq] at h
  obtain ⟨rfl, hn, rfl⟩ := h
  simp only [Prod.mk.injEq, true_and, and_true]
  omega

theorem rangeTile_injective : Function.Injective rangeTile := by
  rintro ⟨lo, hi⟩ ⟨lo', hi'⟩ h
  simp only [rangeTile, Tile.mk.injEq] at h
  exact Prod.ext h.1 h.2.1

theorem map_pushEntry (out : List (Nat × Nat × Nat)) (base stop kind : Nat) :
    (pushEntry out base stop kind).map entryTile =
      Tile.push (out.map entryTile) ⟨base, stop, kind⟩ := by
  unfold pushEntry Tile.push
  split
  · rfl
  · next hlt =>
    have hsum : base + (stop - base) = stop := by omega
    cases out with
    | nil => simp [entryTile, hsum]
    | cons last rest =>
      simp only [List.map_cons, entryTile]
      split
      · next htouch =>
        have hlast : last.1 + (last.2.1 + (stop - base)) = stop := by omega
        simp [entryTile, hlast]
      · simp [entryTile, hsum]

theorem map_e820Loop (memory : Nat) (out : List (Nat × Nat × Nat)) (pos : Nat)
    (ss : List (Tile Nat Nat)) :
    (e820Loop memory out pos ss).map entryTile =
      Sweep.lay memory ram (· = absent) (out.map entryTile) pos ss := by
  induction ss generalizing out pos with
  | nil => exact map_pushEntry _ _ _ _
  | cons s ss ih =>
    rw [e820Loop, Sweep.lay]
    split
    · exact map_pushEntry _ _ _ _
    · dsimp only
      rw [ih]
      split
      · rw [map_pushEntry]
      · rw [map_pushEntry, map_pushEntry]

/-- The E820 map is the tiling its spans induce. -/
theorem map_e820 (placed : List Placed) (memory : Nat) :
    (e820 placed memory).map entryTile =
      (Sweep.lay memory ram (· = absent) [] 0 (spans placed)).reverse := by
  rw [e820, List.map_reverse, map_e820Loop, List.map_nil]

/-- The accept list is the gaps its spans leave. -/
theorem map_acceptRanges (placed : List Placed) (memory : Nat) :
    (acceptRanges placed memory).map rangeTile = Sweep.gaps memory 0 (spans placed) := by
  have hloop : ∀ (pos : Nat) (ss : List (Tile Nat Nat)),
      ((acceptLoop memory pos ss).filter fun r => r.1 < r.2).map rangeTile =
        Sweep.gaps memory pos ss := by
    intro pos ss
    induction ss generalizing pos with
    | nil =>
      rw [acceptLoop, Sweep.gaps]
      split <;> simp_all [rangeTile]
    | cons s ss ih =>
      rw [acceptLoop, Sweep.gaps]
      by_cases hlo : pos < s.lo
      · rw [if_pos hlo, List.filter_cons]
        by_cases hmem : pos < memory
        · have hmin : pos < min s.lo memory := lt_min hlo hmem
          simp [hmin, ih, rangeTile]
        · have hmin : ¬ pos < min s.lo memory := fun h => hmem (h.trans_le (min_le_right _ _))
          simp [hmin, ih]
      · have hmin : ¬ pos < min s.lo memory := fun h => hlo (h.trans_le (min_le_left _ _))
        rw [if_neg hlo, if_neg hmin, ih]
  exact hloop 0 (spans placed)

end BootShim.Boot
