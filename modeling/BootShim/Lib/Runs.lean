-- SUMMARY: Merging touching intervals into runs, cutting runs into pieces of bounded length, and counting what intervals cover.
import BootShim.Lib.Tiling
import Mathlib.Order.Interval.Finset.Nat

/-!
# Runs

`merge` forgets the tags of a list of tiles and joins the tiles that touch, so that
each tile of the result is a maximal run. `cut` takes a run apart again into pieces
no longer than a cap. Neither changes which points are covered.

Over the natural numbers a list of tiles covers finitely many points, and when the
tiles are apart the number of points is the sum of their lengths.
-/

namespace Tile

/-! ## Merging -/

section Merge

variable {α κ : Type*} [LinearOrder α] {ts : List (Tile α κ)} {out : List (Tile α Unit)}

/-- The tile without its tag. -/
def untagged (t : Tile α κ) : Tile α Unit := ⟨t.lo, t.hi, ()⟩

/-- The maximal runs of tiles that touch, whatever their tags. -/
def merge (ts : List (Tile α κ)) : List (Tile α Unit) :=
  (ts.foldl (fun out t => push out t.untagged) []).reverse

private theorem covers_foldl_push (hts : ∀ t ∈ ts, t.lo < t.hi) (hout : ∀ t ∈ out, t.lo < t.hi)
    {a : α} :
    Covers (ts.foldl (fun out t => push out t.untagged) out) a () ↔
      Covers out a () ∨ ∃ k, Covers ts a k := by
  induction ts generalizing out with
  | nil => simp
  | cons t ts ih =>
    rw [List.forall_mem_cons] at hts
    rw [List.foldl_cons, ih hts.2 (nonempty_push hout), covers_push hout]
    have hhead : (∃ k, Covers (t :: ts) a k) ↔ t.Mem a ∨ ∃ k, Covers ts a k := by
      simp only [covers_cons, exists_or, exists_and_left, exists_eq', and_true]
    rw [hhead, or_assoc]
    exact or_congr_right (or_congr_left (and_iff_left rfl))

private theorem canonical_foldl_push (hts : ∀ t ∈ ts, t.lo < t.hi)
    (hasc : ts.Pairwise fun s t => s.hi ≤ t.lo) (hout : Canonical out.reverse)
    (hpast : ∀ s ∈ out, ∀ t ∈ ts, s.hi ≤ t.lo) :
    Canonical (ts.foldl (fun out t => push out t.untagged) out).reverse := by
  induction ts generalizing out with
  | nil => exact hout
  | cons t ts ih =>
    rw [List.forall_mem_cons] at hts
    rw [List.pairwise_cons] at hasc
    refine ih hts.2 hasc.2 ?_ fun s hs u hu => ?_
    · exact canonical_push hout fun s hs => hpast s hs t List.mem_cons_self
    · have hle : t.hi ≤ u.lo := hasc.1 u hu
      have hout : ∀ r ∈ out, r.hi ≤ u.lo := fun r hr => hpast r hr u (List.mem_cons_of_mem _ hu)
      exact hi_le_of_mem_push hout (fun _ => hle) s hs

/-- Merging loses no point and adds none. -/
theorem covers_merge (hts : ∀ t ∈ ts, t.lo < t.hi) {a : α} :
    Covers (merge ts) a () ↔ ∃ k, Covers ts a k := by
  rw [merge, covers_reverse, covers_foldl_push hts (by simp)]
  simp

/-- The runs of ascending tiles ascend, and no two of them touch. -/
theorem canonical_merge (hts : ∀ t ∈ ts, t.lo < t.hi)
    (hasc : ts.Pairwise fun s t => s.hi ≤ t.lo) : Canonical (merge ts) :=
  canonical_foldl_push hts hasc Canonical.nil (by simp)

/-- A run starts and ends where some tile does. -/
theorem ends_of_mem_merge {P : α → Prop} (hts : ∀ t ∈ ts, P t.lo ∧ P t.hi) :
    ∀ t ∈ merge ts, P t.lo ∧ P t.hi := by
  have hloop : ∀ out : List (Tile α Unit), (∀ t ∈ out, P t.lo ∧ P t.hi) →
      ∀ t ∈ ts.foldl (fun out t => push out t.untagged) out, P t.lo ∧ P t.hi := by
    induction ts with
    | nil => exact fun _ hout => hout
    | cons t ts ih =>
      rw [List.forall_mem_cons] at hts
      exact fun out hout => ih hts.2 _ (ends_of_mem_push hout hts.1)
  intro t ht
  exact hloop [] (by simp) t (List.mem_reverse.mp ht)

end Merge

/-! ## Cutting -/

section Cut

variable {cap pos stop : Nat} {t : Tile Nat Unit}

/-- Cuts `[pos, stop)` from the front into pieces of at most `cap` points. -/
def cut (cap pos stop : Nat) : List (Tile Nat Unit) :=
  if _h : pos < stop ∧ 0 < cap then
    ⟨pos, pos + min (stop - pos) cap, ()⟩ :: cut cap (pos + min (stop - pos) cap) stop
  else []
termination_by stop - pos
decreasing_by omega

theorem bounds_of_mem_cut (ht : t ∈ cut cap pos stop) :
    pos ≤ t.lo ∧ t.lo < t.hi ∧ t.hi ≤ stop ∧ t.hi - t.lo ≤ cap := by
  induction pos using cut.induct cap stop with
  | case1 pos h ih =>
    rw [cut, dif_pos h] at ht
    rcases List.mem_cons.mp ht with rfl | ht
    · dsimp only
      omega
    · have hrest := ih ht
      omega
  | case2 pos h =>
    rw [cut, dif_neg h] at ht
    cases ht

/-- Nothing is lost between two pieces, nor at either end. -/
theorem covers_cut (hcap : 0 < cap) {a : Nat} :
    Covers (cut cap pos stop) a () ↔ pos ≤ a ∧ a < stop := by
  induction pos using cut.induct cap stop with
  | case1 pos h ih =>
    rw [cut, dif_pos h, covers_cons, ih, Mem]
    simp only [and_true]
    omega
  | case2 pos h =>
    rw [cut, dif_neg h]
    simp only [covers_nil, false_iff]
    omega

theorem pairwise_cut : (cut cap pos stop).Pairwise fun s t => s.hi ≤ t.lo := by
  induction pos using cut.induct cap stop with
  | case1 pos h ih =>
    rw [cut, dif_pos h]
    exact List.pairwise_cons.mpr ⟨fun t ht => (bounds_of_mem_cut ht).1, ih⟩
  | case2 pos h =>
    rw [cut, dif_neg h]
    exact List.Pairwise.nil

/-- Where the cap and both ends are multiples of a number, so is every cut. -/
theorem dvd_of_mem_cut {m : Nat} (hcap : m ∣ cap) (hpos : m ∣ pos) (hstop : m ∣ stop)
    (ht : t ∈ cut cap pos stop) : m ∣ t.lo ∧ m ∣ t.hi := by
  induction pos using cut.induct cap stop with
  | case1 pos h ih =>
    have hmin : m ∣ min (stop - pos) cap := by
      rcases min_choice (stop - pos) cap with hmin | hmin
      · rw [hmin]
        exact Nat.dvd_sub hstop hpos
      · rw [hmin]
        exact hcap
    have hnext : m ∣ pos + min (stop - pos) cap := hpos.add hmin
    rw [cut, dif_pos h] at ht
    rcases List.mem_cons.mp ht with rfl | ht
    · exact ⟨hpos, hnext⟩
    · exact ih hnext ht
  | case2 pos h =>
    rw [cut, dif_neg h] at ht
    cases ht

variable {ts : List (Tile Nat Unit)}

/-- The pieces of every tile of a list. -/
def cuts (cap : Nat) (ts : List (Tile Nat Unit)) : List (Tile Nat Unit) :=
  ts.flatMap fun t => cut cap t.lo t.hi

theorem covers_cuts (hcap : 0 < cap) {a : Nat} : Covers (cuts cap ts) a () ↔ Covers ts a () := by
  have hpiece : Covers (cuts cap ts) a () ↔ ∃ t ∈ ts, Covers (cut cap t.lo t.hi) a () := by
    simp only [Covers, cuts, List.mem_flatMap]
    constructor
    · rintro ⟨s, ⟨t, ht, hs⟩, hmem⟩
      exact ⟨t, ht, s, hs, hmem⟩
    · rintro ⟨t, ht, s, hs, hmem⟩
      exact ⟨s, ⟨t, ht, hs⟩, hmem⟩
  rw [hpiece]
  refine exists_congr fun t => and_congr_right fun _ => ?_
  rw [covers_cut hcap]
  exact (and_iff_left rfl).symm

theorem pairwise_cuts (hasc : ts.Pairwise fun s t => s.hi ≤ t.lo) :
    (cuts cap ts).Pairwise fun s t => s.hi ≤ t.lo := by
  refine List.pairwise_flatMap.mpr ⟨fun t _ => pairwise_cut, hasc.imp fun hst => ?_⟩
  intro x hx y hy
  exact (bounds_of_mem_cut hx).2.2.1.trans (hst.trans (bounds_of_mem_cut hy).1)

end Cut

/-! ## Counting -/

section Points

variable {κ : Type*} {ts : List (Tile Nat κ)}

/-- The points some tile covers. -/
def points : List (Tile Nat κ) → Finset Nat
  | [] => ∅
  | t :: ts => Finset.Ico t.lo t.hi ∪ points ts

theorem mem_points {a : Nat} : a ∈ points ts ↔ ∃ t ∈ ts, t.Mem a := by
  induction ts with
  | nil => simp [points]
  | cons t ts ih => rw [points, Finset.mem_union, Finset.mem_Ico, ih, List.exists_mem_cons_iff, Mem]

/-- The number of points that tiles apart from each other cover. -/
def extent (ts : List (Tile Nat κ)) : Nat := (ts.map fun t => t.hi - t.lo).sum

theorem card_points (hapart : ts.Pairwise Apart) : (points ts).card = extent ts := by
  induction ts with
  | nil => rfl
  | cons t ts ih =>
    rw [List.pairwise_cons] at hapart
    have hdisjoint : Disjoint (Finset.Ico t.lo t.hi) (points ts) := by
      rw [Finset.disjoint_left]
      intro a ha hrest
      obtain ⟨s, hs, hmem⟩ := mem_points.mp hrest
      exact (hapart.1 s hs).not_mem (Finset.mem_Ico.mp ha) hmem
    rw [points, Finset.card_union_of_disjoint hdisjoint, Nat.card_Ico, ih hapart.2, extent, extent,
      List.map_cons, List.sum_cons]

end Points

end Tile
