-- SUMMARY: Filling in a placed region leaves the map alone, and so do the order of the regions and the encoding of what is derived from them.
import BootShim.Boot.Derived
import BootShim.Boot.ZeroPage

/-!
# Filled maps

Both pages that describe the map are part of it. They are placed blank, and filled in
once the map is known. `fill` keeps everything the map depends on, and so does sorting,
so the lists derived before hold of the map that is imported.
-/

namespace BootShim.Boot

open Checked Layout

/-! ## Filling in a region -/

/-- What of a region does not depend on its contents. -/
structure SameFrame (p q : Placed) : Prop where
  base : q.base = p.base
  span : q.span = p.span
  name : q.name = p.name
  e820 : q.e820 = p.e820

theorem SameFrame.refl (p : Placed) : SameFrame p p := ⟨rfl, rfl, rfl, rfl⟩

theorem SameFrame.tile {p q : Placed} (h : SameFrame p q) : q.tile = p.tile := by
  rw [Placed.tile, Placed.tile, h.base, h.span, h.e820]

variable {placed placed' pre post : List Placed} {q : Placed} {base : Nat} {data : List UInt8}

/-- Filling replaces the contents of the first region at the address. -/
theorem fill_append (hpre : ∀ p ∈ pre, p.base ≠ base) (hq : q.base = base)
    (hspan : Placed.span { q with fill := .measured data } = q.span) :
    fill (pre ++ q :: post) base data = .ok (pre ++ { q with fill := .measured data } :: post) := by
  induction pre with
  | nil =>
    rw [List.nil_append, List.nil_append, fill, if_pos hq]
    simp only [hspan, ensure_of, ok_bind]
    rfl
  | cons p pre ih =>
    rw [List.forall_mem_cons] at hpre
    rw [List.cons_append, fill, if_neg hpre.1, ih hpre.2]
    rfl

/-- Region by region, a filled list differs in contents only. -/
theorem frame_of_fill (h : fill placed base data = .ok placed') :
    List.Forall₂ SameFrame placed placed' := by
  induction placed generalizing placed' with
  | nil => cases h
  | cons p ps ih =>
    rw [fill] at h
    split at h
    · simp only [bind_eq_ok, ensure_eq_ok, pure_eq_ok, exists_and_left, exists_const] at h
      obtain ⟨hspan, rfl⟩ := h
      exact .cons ⟨rfl, hspan, rfl, rfl⟩ (List.forall₂_same.mpr fun q _ => .refl q)
    · simp only [bind_eq_ok, pure_eq_ok] at h
      obtain ⟨ps', hps, rfl⟩ := h
      exact .cons (.refl p) (ih hps)

/-! ## What depends on the frame only -/

theorem spans_congr (h : placed.map Placed.tile = placed'.map Placed.tile) :
    spans placed = spans placed' := by
  rw [spans, h, spans]

theorem e820_eq_of_spans (h : spans placed = spans placed') (memory : Nat) :
    e820 placed memory = e820 placed' memory := by
  rw [e820, h, e820]

theorem acceptRanges_eq_of_spans (h : spans placed = spans placed') (memory : Nat) :
    acceptRanges placed memory = acceptRanges placed' memory := by
  rw [acceptRanges, h, acceptRanges]

theorem map_tile_of_frame (h : List.Forall₂ SameFrame placed placed') :
    placed'.map Placed.tile = placed.map Placed.tile := by
  induction h with
  | nil => rfl
  | cons hpq _ ih => rw [List.map_cons, List.map_cons, hpq.tile, ih]

/-- Validation looks at the spans and at the bases, and reports the same of both. -/
theorem validate_of_frame (h : List.Forall₂ SameFrame placed placed') (memory : Nat) :
    validate placed' memory = validate placed memory := by
  have hregions : forAll (validateRegion memory) placed' = forAll (validateRegion memory) placed := by
    induction h with
    | nil => rfl
    | @cons p q _ _ hpq _ ih =>
      have hregion : validateRegion memory q = validateRegion memory p := by
        rw [validateRegion, validateRegion, hpq.base]
      rw [forAll, forAll, hregion, ih]
  rw [validate, validate, spans_congr (map_tile_of_frame h), hregions]

theorem e820_of_frame (h : List.Forall₂ SameFrame placed placed') (memory : Nat) :
    e820 placed' memory = e820 placed memory :=
  e820_eq_of_spans (spans_congr (map_tile_of_frame h)) memory

theorem acceptRanges_of_frame (h : List.Forall₂ SameFrame placed placed') (memory : Nat) :
    acceptRanges placed' memory = acceptRanges placed memory :=
  acceptRanges_eq_of_spans (spans_congr (map_tile_of_frame h)) memory

/-! ## The order of the regions -/

theorem spanLe_antisymm {s t : Tile Nat Nat} (hst : spanLe s t) (hts : spanLe t s) : s = t := by
  obtain ⟨lo, hi, tag⟩ := s
  obtain ⟨lo', hi', tag'⟩ := t
  simp only [spanLe, Tile.mk.injEq] at *
  omega

/-- The spans are sorted, so the order of the regions does not matter. -/
theorem spans_of_perm (h : placed.Perm placed') : spans placed = spans placed' := by
  have hperm : (spans placed).Perm (spans placed') :=
    (spans_perm placed).trans ((h.map _).trans (spans_perm placed').symm)
  exact hperm.eq_of_pairwise (fun _ _ _ _ => spanLe_antisymm) (pairwise_spans _) (pairwise_spans _)

/-! ## The entries of a map fit the table -/

/-- The fields of every entry fit, wrapped regions or not. -/
theorem entryFits_of_mem_e820 {memory : Nat} (hmem : memory < 2 ^ 64)
    (hbase : ∀ p ∈ placed, p.base < 2 ^ 64) (hkind : ∀ p ∈ placed, p.e820 < 2 ^ 32)
    {e : Nat × Nat × Nat} (he : e ∈ e820 placed memory) : EntryFits e := by
  have hlay : entryTile e ∈ Sweep.lay memory ram (· = absent) [] 0 (spans placed) := by
    rw [← List.mem_reverse, ← map_e820]
    exact List.mem_map_of_mem he
  have hends : ∀ t ∈ Sweep.lay memory ram (· = absent) [] 0 (spans placed),
      t.lo < 2 ^ 64 ∧ t.hi < 2 ^ 64 := by
    refine Sweep.ends_of_mem_lay (P := fun a => a < 2 ^ 64) (by decide) hmem ?_ (by simp)
    intro s hs
    obtain ⟨p, hp, rfl⟩ := mem_spans.mp hs
    exact ⟨hbase p hp, Nat.mod_lt _ (by decide)⟩
  have htags : ∀ t ∈ Sweep.lay memory ram (· = absent) [] 0 (spans placed), t.tag < 2 ^ 32 := by
    refine Sweep.tag_of_mem_lay (P := fun k => k < 2 ^ 32) (by decide) ?_ (by simp)
    intro s hs
    obtain ⟨p, hp, rfl⟩ := mem_spans.mp hs
    exact hkind p hp
  have hsize : e.1 + e.2.1 < 2 ^ 64 := (hends _ hlay).2
  exact ⟨(hends _ hlay).1, (Nat.le_add_left _ _).trans_lt hsize, htags _ hlay⟩

end BootShim.Boot
