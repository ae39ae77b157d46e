-- SUMMARY: The pages of a region: where they lie in it, and that a list of regions in order imports each page once.
import BootShim.Boot.Derived

/-!
# The pages of a region

A region's contents cover its span page by page, so the pages of regions that follow
each other ascend. The one region whose pages fall short of its span is an empty one.
-/

namespace BootShim.Boot

open Bytes Layout

/-! ## Pages of a byte string -/

theorem lt_pageCount_iff {i n : Nat} : i < alignUp n page / page ↔ i * page < n := by
  simp only [alignUp, page]
  omega

theorem mem_pages {base : Nat} {data : List UInt8} {x : Nat × List UInt8} :
    x ∈ pages base data ↔
      ∃ i, i * page < data.length ∧ x = (base + i * page, padTo page (slice data (i * page) page)) := by
  simp only [pages, List.mem_map, List.mem_range, lt_pageCount_iff]
  exact exists_congr fun i => and_congr_right fun _ => eq_comm

@[simp] theorem pages_nil (base : Nat) : pages base [] = [] := rfl

/-- Contents of exactly one page are that page. -/
theorem pages_of_length_eq {base : Nat} {data : List UInt8} (h : data.length = page) :
    pages base data = [(base, data)] := by
  have hcount : alignUp data.length page / page = 1 := by rw [h]; rfl
  have hslice : slice data 0 page = data := h ▸ slice_zero_length data
  simp only [pages, hcount, List.range_one, List.map_cons, List.map_nil, Nat.zero_mul, Nat.add_zero,
    hslice, padTo_of_length_eq h]

theorem pairwise_pages (base : Nat) (data : List UInt8) :
    (pages base data).Pairwise fun x y => x.1 < y.1 := by
  rw [pages, List.pairwise_map]
  refine List.pairwise_lt_range.imp fun h => ?_
  simp only [page]
  omega

/-! ## Contents of a region -/

namespace Placed

/-- Whether the region is an aperture. -/
def isMmio (p : Placed) : Bool :=
  match p.fill with
  | .mmio _ => true
  | _ => false

/-- The pages a loader imports for the region. The firmware fills the page of a host
    region, so an import of it carries zeros. -/
def contents (p : Placed) : List (Nat × List UInt8) :=
  match p.fill with
  | .measured d => pages p.base d
  | .host => [(p.base, zeros page)]
  | .mmio _ => []

/-- The region starts on a page and its end fits into 64 bits. -/
structure Fits (p : Placed) : Prop where
  aligned : p.base % page = 0
  fits : p.base + p.span < 2 ^ 64

@[simp] theorem contents_mmio (base size : Nat) : (mmio base size).contents = [] := rfl

@[simp] theorem contents_host (base : Nat) : (host base).contents = [(base, zeros page)] := rfl

@[simp] theorem contents_measured (base : Nat) (name : String) (k : Nat) (d : List UInt8) :
    (measured base name k d).contents = pages base d := rfl

theorem Fits.tile_hi {p : Placed} (h : p.Fits) : p.tile.hi = p.base + p.span :=
  addU64_of_lt h.fits

theorem Fits.span_eq {p : Placed} (h : p.Fits) : p.span = p.tile.hi - p.tile.lo := by
  rw [h.tile_hi, tile, Nat.add_sub_cancel_left]

theorem pairwise_contents (p : Placed) : p.contents.Pairwise fun x y => x.1 < y.1 := by
  unfold contents
  split
  · exact pairwise_pages _ _
  · exact List.pairwise_singleton _ _
  · exact List.Pairwise.nil

theorem Fits.mem_tile {p : Placed} (h : p.Fits) {a : Nat} :
    p.tile.Mem a ↔ p.base ≤ a ∧ a < p.base + p.span := by
  rw [Tile.Mem, h.tile_hi, tile]

/-- A region that is no aperture ends on a page boundary. -/
theorem Fits.hi_aligned {p : Placed} (h : p.Fits) (hmmio : p.isMmio = false) :
    p.tile.hi % page = 0 := by
  have haligned := h.aligned
  rw [h.tile_hi]
  obtain ⟨base, name, k, fill⟩ := p
  cases fill with
  | measured d =>
    have hround := alignUp_page d.length
    simp only [span, page] at *
    omega
  | host =>
    simp only [span, page] at *
    omega
  | mmio size => exact absurd hmmio (by simp [isMmio])

/-- Every page of a region is a whole page inside its interval. -/
theorem Fits.of_mem_contents {p : Placed} (h : p.Fits) {x : Nat × List UInt8}
    (hx : x ∈ p.contents) : x.1 % page = 0 ∧ p.tile.Mem x.1 := by
  have haligned := h.aligned
  rw [h.mem_tile]
  obtain ⟨base, name, k, fill⟩ := p
  cases fill with
  | measured d =>
    obtain ⟨i, hi, rfl⟩ := mem_pages.mp hx
    have hle := le_alignUp_page d.length
    have hround := alignUp_page d.length
    simp only [span, page] at *
    omega
  | host =>
    obtain rfl := List.mem_singleton.mp hx
    simp only [span, page] at *
    omega
  | mmio size => exact absurd hx List.not_mem_nil

/-- Every page of its interval is a page of the region, unless it is an aperture or has
    nothing to load. -/
theorem Fits.exists_mem_contents {p : Placed} (h : p.Fits) (hmmio : p.isMmio = false)
    (hne : p.fill ≠ .measured []) {a : Nat} (ha : a % page = 0) (hmem : p.tile.Mem a) :
    ∃ d, (a, d) ∈ p.contents := by
  have haligned := h.aligned
  rw [h.mem_tile] at hmem
  obtain ⟨base, name, k, fill⟩ := p
  cases fill with
  | measured d =>
    have hpos : 0 < d.length := List.length_pos_iff.mpr fun hd => hne (by rw [hd])
    have hdiv : (a - base) / page * page = a - base := by
      simp only [page] at *
      omega
    refine ⟨padTo page (slice d (a - base) page), mem_pages.mpr ⟨(a - base) / page, ?_, ?_⟩⟩
    · simp only [span, alignUp, page] at *
      omega
    · rw [hdiv, Nat.add_sub_cancel' hmem.1]
  | host =>
    have heq : a = base := by
      simp only [span, page] at *
      omega
    exact ⟨zeros page, List.mem_singleton.mpr (by rw [heq])⟩
  | mmio size => exact absurd hmmio (by simp [isMmio])

end Placed

/-! ## Contents of a list of regions -/

/-- Regions that follow each other import their pages in ascending order, each once. -/
theorem pairwise_flatMap_contents {placed : List Placed} (hfits : ∀ p ∈ placed, p.Fits)
    (hord : placed.Pairwise fun p q => p.tile.hi ≤ q.tile.lo) :
    (placed.flatMap Placed.contents).Pairwise fun x y => x.1 < y.1 := by
  refine List.pairwise_flatMap.mpr ⟨fun p _ => p.pairwise_contents, ?_⟩
  refine hord.imp_of_mem fun {p q} hp hq hle x hx y hy => ?_
  have hxm := ((hfits p hp).of_mem_contents hx).2
  have hym := ((hfits q hq).of_mem_contents hy).2
  exact hxm.2.trans_le (hle.trans hym.1)

/-- A page of a list in ascending order is found by its address. -/
theorem eq_of_mem_of_pairwise {xs : List (Nat × List UInt8)}
    (hxs : xs.Pairwise fun x y => x.1 < y.1) {a : Nat} {d d' : List UInt8} (h : (a, d) ∈ xs)
    (h' : (a, d') ∈ xs) : d = d' := by
  have hnodup : (xs.map Prod.fst).Nodup := List.pairwise_map.mpr (hxs.imp fun hlt => hlt.ne)
  exact (Prod.mk.inj (List.inj_on_of_nodup_map hnodup h h' rfl)).2

end BootShim.Boot
