-- SUMMARY: E820 and the accept list address by address: the first is the placed map, the second its complement.
import BootShim.Boot.Derived

/-!
# Exact lists

The E820 map gives an address the type of the region it lies in, and the accept list
has exactly the addresses that lie in none. Each list is stated against the regions as
a loader knows them, by base and span, for every list of regions whose ends fit into
64 bits.
-/

namespace BootShim.Boot

open Layout Tile

variable {placed : List Placed} {memory : Nat}

/-- The address lies in the region. -/
def Placed.Holds (p : Placed) (a : Nat) : Prop := p.base ≤ a ∧ a < p.base + p.span

/-- The address lies in the entry of an E820 map. -/
def EntryHolds (e : Nat × Nat × Nat) (a : Nat) : Prop := e.1 ≤ a ∧ a < e.1 + e.2.1

/-- No region's end wraps around. -/
def Bounded (placed : List Placed) : Prop := ∀ p ∈ placed, p.base + p.span < 2 ^ 64

theorem Bounded.mem_tile (h : Bounded placed) {p : Placed} (hp : p ∈ placed) {a : Nat} :
    p.tile.Mem a ↔ p.Holds a := by
  rw [Tile.Mem, Placed.tile, addU64_of_lt (h p hp), Placed.Holds]

theorem Bounded.taken_iff (h : Bounded placed) {a : Nat} :
    Taken placed a ↔ ∃ p ∈ placed, p.Holds a :=
  exists_congr fun _ => and_congr_right fun hp => h.mem_tile hp

theorem Bounded.spans_le (h : Bounded placed) : ∀ s ∈ spans placed, s.lo ≤ s.hi := by
  intro s hs
  obtain ⟨p, hp, rfl⟩ := mem_spans.mp hs
  rw [Placed.tile, addU64_of_lt (h p hp)]
  exact Nat.le_add_right _ _

theorem Bounded.upright (h : Bounded placed) (hpos : ∀ p ∈ placed, 0 < p.span) :
    Upright placed := by
  intro p hp
  rw [Placed.tile, addU64_of_lt (h p hp)]
  exact Nat.lt_add_of_pos_right (hpos p hp)

theorem Bounded.aligned (h : Bounded placed)
    (haligned : ∀ p ∈ placed, p.base % page = 0 ∧ p.span % page = 0) : Aligned placed := by
  intro p hp
  have hp' := haligned p hp
  rw [Placed.tile, addU64_of_lt (h p hp)]
  simp only [page] at *
  omega

/-! ## Validation -/

/-- No address lies in both regions. -/
def Placed.DisjointFrom (p q : Placed) : Prop := ∀ a, p.Holds a → ¬ q.Holds a

theorem Bounded.apart_iff (h : Bounded placed) (hpos : ∀ p ∈ placed, 0 < p.span) {p q : Placed}
    (hp : p ∈ placed) (hq : q ∈ placed) : p.tile.Apart q.tile ↔ p.DisjointFrom q := by
  have hup := h.upright hpos
  rw [apart_iff_forall_not_mem (hup p hp) (hup q hq)]
  apply forall_congr'
  intro a
  rw [h.mem_tile hp, h.mem_tile hq]

/-- The check on neighbours decides whether any two regions of the list meet. -/
theorem validate_iff_disjoint (hpos : ∀ p ∈ placed, 0 < p.span) (hbounded : Bounded placed) :
    validate placed memory = .ok () ↔
      placed.Pairwise Placed.DisjointFrom ∧
        ∀ p ∈ placed, p.base % page = 0 ∧ (p.base < memory ∨ p.base = resetAlias) := by
  have hpairs : (placed.Pairwise fun p q => p.tile.Apart q.tile) ↔
      placed.Pairwise Placed.DisjointFrom :=
    List.Pairwise.iff_of_mem fun hp hq => hbounded.apart_iff hpos hp hq
  constructor
  · intro hvalid
    exact ⟨hpairs.mp (apart_of_validate hvalid), (validate_eq_ok.mp hvalid).2⟩
  · rintro ⟨hdisjoint, hbase⟩
    exact validate_of_apart (hbounded.upright hpos) (hpairs.mpr hdisjoint) hbase

/-- A long aperture over two later regions, of which the two share a base: the check on
    neighbours sees both conflicts, and so does the check on pairs. -/
theorem validate_iff_disjoint_sample :
    ¬ [Placed.host 0x32000, .mmio 0x2f000 0x8000, .host 0x32000].Pairwise
        Placed.DisjointFrom := by
  have hpos : ∀ p ∈ [Placed.host 0x32000, .mmio 0x2f000 0x8000, .host 0x32000],
      0 < p.span := by simp [Placed.mmio, Placed.host, Placed.span]
  have hbounded : Bounded [.host 0x32000, .mmio 0x2f000 0x8000, .host 0x32000] := by
    simp [Bounded, Placed.mmio, Placed.host, Placed.span]
  intro hdisjoint
  have hvalid : validate [.host 0x32000, .mmio 0x2f000 0x8000, .host 0x32000] 0x40000 = .ok () :=
    (validate_iff_disjoint hpos hbounded).mpr ⟨hdisjoint, by simp [Placed.mmio, Placed.host]⟩
  have hrejected : validate [.host 0x32000, .mmio 0x2f000 0x8000, .host 0x32000] 0x40000 ≠ .ok () :=
    by decide +kernel
  exact hrejected hvalid

/-! ## E820 -/

/-- One entry of the map holds the address, and it has the type. -/
def OneEntry (entries : List (Nat × Nat × Nat)) (a kind : Nat) : Prop :=
  ∃ e ∈ entries, EntryHolds e a ∧ e.2.2 = kind ∧ ∀ f ∈ entries, EntryHolds f a → f = e

/-- The entries are exactly the placed map. -/
structure ExactE820 (placed : List Placed) (memory : Nat) (entries : List (Nat × Nat × Nat)) :
    Prop where
  typed : ∀ a < memory, ∀ p ∈ placed, p.Holds a → p.e820 ≠ absent → OneEntry entries a p.e820
  left_out : ∀ a < memory, ∀ p ∈ placed, p.Holds a → p.e820 = absent →
    ∀ e ∈ entries, ¬ EntryHolds e a
  gap : ∀ a < memory, (∀ p ∈ placed, ¬ p.Holds a) → OneEntry entries a ram
  below : ∀ e ∈ entries, ∀ a, EntryHolds e a → a < memory
  nonempty : ∀ e ∈ entries, 0 < e.2.1
  ascending : entries.Pairwise fun e f => e.1 + e.2.1 ≤ f.1
  maximal : entries.IsChain fun e f => ¬ (e.1 + e.2.1 = f.1 ∧ e.2.2 = f.2.2)

/-- Some entry holds the address when the map covers it under some type. -/
theorem exists_entryHolds_iff {entries : List (Nat × Nat × Nat)} {a : Nat} :
    (∃ e ∈ entries, EntryHolds e a) ↔ ∃ k, Covers (entries.map entryTile) a k := by
  simp only [Covers, List.mem_map, exists_exists_and_eq_and]
  constructor
  · rintro ⟨e, he, hmem⟩
    exact ⟨_, e, he, hmem, rfl⟩
  · rintro ⟨_, e, he, hmem, -⟩
    exact ⟨e, he, hmem⟩

/-- Of entries that follow each other one at most holds an address. -/
theorem oneEntry_of_covers {entries : List (Nat × Nat × Nat)}
    (hasc : entries.Pairwise fun e f => e.1 + e.2.1 ≤ f.1) {a kind : Nat}
    (h : Covers (entries.map entryTile) a kind) : OneEntry entries a kind := by
  obtain ⟨t, ht, hmem, htag⟩ := h
  obtain ⟨e, he, rfl⟩ := List.mem_map.mp ht
  have hapart : entries.Pairwise fun e f => (entryTile e).Apart (entryTile f) := hasc.imp Or.inl
  exact ⟨e, he, hmem, htag, fun f hf hfa => eq_of_mem_of_apart hapart hf he hfa hmem⟩

/-- The E820 map of a validated map is exact. -/
theorem exact_e820 (hvalid : validate placed memory = .ok ()) (hpos : ∀ p ∈ placed, 0 < p.span)
    (hbounded : Bounded placed) : ExactE820 placed memory (e820 placed memory) := by
  have hup := hbounded.upright hpos
  obtain ⟨hcan, hle⟩ : Canonical ((e820 placed memory).map entryTile) ∧
    ∀ e ∈ e820 placed memory, e.1 + e.2.1 ≤ memory := canonical_e820 hup
  have hasc : (e820 placed memory).Pairwise fun e f => e.1 + e.2.1 ≤ f.1 :=
    List.pairwise_map.mp hcan.ascending
  refine ⟨?_, ?_, ?_, ?_, ?_, hasc, (List.isChain_map entryTile).mp hcan.maximal⟩
  · intro a ha p hp hpa hk
    have hmem := (hbounded.mem_tile hp).mpr hpa
    exact oneEntry_of_covers hasc ((covers_e820 hup hvalid).mpr ⟨ha, Or.inl ⟨p, hp, hmem, rfl, hk⟩⟩)
  · intro a ha p hp hpa hk e he hea
    have hmem := (hbounded.mem_tile hp).mpr hpa
    have hnone := (not_covers_e820_iff hup hvalid ha).mpr ⟨p, hp, hk, hmem⟩
    exact hnone e.2.2 ⟨entryTile e, List.mem_map_of_mem he, hea, rfl⟩
  · intro a ha hno
    have hfree : ¬ Taken placed a := by
      rw [hbounded.taken_iff]
      rintro ⟨p, hp, hpa⟩
      exact hno p hp hpa
    exact oneEntry_of_covers hasc ((covers_e820 hup hvalid).mpr ⟨ha, Or.inr ⟨rfl, hfree⟩⟩)
  · intro e he a hea
    exact hea.2.trans_le (hle e he)
  · intro e he
    have hlt : e.1 < e.1 + e.2.1 := hcan.nonempty _ (List.mem_map_of_mem he)
    omega

/-- Two apertures around a page for the firmware, the second reaching past the top. -/
theorem exact_e820_sample :
    ExactE820 [.mmio 0x2f000 0x2000, .host 0x31000, .mmio 0x32000 0x5000] 0x34000
      [(0, 0x2f000, ram), (0x31000, 0x1000, reserved)] := by
  have hpos : ∀ p ∈ [Placed.mmio 0x2f000 0x2000, .host 0x31000, .mmio 0x32000 0x5000],
      0 < p.span := by simp [Placed.mmio, Placed.host, Placed.span]
  have hbounded : Bounded [.mmio 0x2f000 0x2000, .host 0x31000, .mmio 0x32000 0x5000] := by
    simp [Bounded, Placed.mmio, Placed.host, Placed.span]
  have hentries : e820 [.mmio 0x2f000 0x2000, .host 0x31000, .mmio 0x32000 0x5000] 0x34000 =
      [(0, 0x2f000, ram), (0x31000, 0x1000, reserved)] := by decide +kernel
  exact hentries ▸ exact_e820 (by decide +kernel) hpos hbounded

/-! ## The accept list -/

/-- The ranges are exactly the addresses in no region. -/
structure ExactComplement (placed : List Placed) (memory : Nat) (ranges : List (Nat × Nat)) :
    Prop where
  complement : ∀ a, (∃ r ∈ ranges, r.1 ≤ a ∧ a < r.2) ↔ a < memory ∧ ∀ p ∈ placed, ¬ p.Holds a
  nonempty : ∀ r ∈ ranges, r.1 < r.2
  ascending : ranges.Pairwise fun r s => r.2 ≤ s.1
  /-- Ranges touch only at an empty region. -/
  apart : ranges.Pairwise fun r s => r.2 = s.1 → ∃ p ∈ placed, p.span = 0 ∧ p.base = r.2
  aligned : memory % page = 0 → (∀ p ∈ placed, p.base % page = 0 ∧ p.span % page = 0) →
    ∀ r ∈ ranges, r.1 % page = 0 ∧ r.2 % page = 0
  /-- No range is the pair of zeros that ends the list for a shim. -/
  not_terminator : (0, 0) ∉ ranges

/-- The accept list of any regions, overlapping or not, is the exact complement. -/
theorem exact_acceptRanges (hbounded : Bounded placed) :
    ExactComplement placed memory (acceptRanges placed memory) := by
  have hgaps : (acceptRanges placed memory).Pairwise fun r s => r.2 ≤ s.1 ∧
      (r.2 = s.1 → ∃ t ∈ spans placed, t.lo = t.hi ∧ t.lo = r.2) := by
    have hpw : (Sweep.gaps memory 0 (spans placed)).Pairwise _ :=
      Sweep.pairwise_gaps hbounded.spans_le
    rw [← map_acceptRanges] at hpw
    exact List.pairwise_map.mp hpw
  refine ⟨fun a => ?_, fun r hr => (bounds_of_mem_acceptRanges hr).1, hgaps.imp And.left, ?_,
    fun hmem haligned r hr => aligned_of_mem_acceptRanges (hbounded.aligned haligned) hmem hr, ?_⟩
  · rw [mem_acceptRanges_iff, hbounded.taken_iff]
    simp only [not_exists, not_and]
  · refine hgaps.imp fun hrs htouch => ?_
    obtain ⟨t, ht, hempty, hlo⟩ := hrs.2 htouch
    obtain ⟨p, hp, rfl⟩ := mem_spans.mp ht
    have hend : p.base = p.base + p.span := hempty.trans (addU64_of_lt (hbounded p hp))
    exact ⟨p, hp, by omega, hlo⟩
  · intro hzero
    exact absurd (bounds_of_mem_acceptRanges hzero).1 (Nat.lt_irrefl 0)

/-- Two apertures of which one lies inside the other, the outer one reaching past the top. -/
theorem exact_acceptRanges_sample :
    ExactComplement [.mmio 0x30000 0x9000, .mmio 0x31000 0x1000] 0x34000 [(0, 0x30000)] := by
  have hbounded : Bounded [.mmio 0x30000 0x9000, .mmio 0x31000 0x1000] := by
    simp [Bounded, Placed.mmio, Placed.span]
  have hranges : acceptRanges [.mmio 0x30000 0x9000, .mmio 0x31000 0x1000] 0x34000 =
      [(0, 0x30000)] := by decide +kernel
  exact hranges ▸ exact_acceptRanges hbounded

end BootShim.Boot
