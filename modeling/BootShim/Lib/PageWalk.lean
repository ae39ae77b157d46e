-- SUMMARY: Walking a list of address ranges page by page: the pages walked so far are a prefix of them all.
import Mathlib.Tactic

/-!
# Page walks

A walker takes the pages of a list of ranges in order, several at a time if it likes.
`walked` is what it has taken once it stands inside a range. However it steps, that is a
prefix of the pages of the whole list, and these are distinct when the ranges follow
each other.
-/

namespace PageWalk

variable (size : Nat)

/-- The pages from `lo` up to `hi`. -/
def between (lo hi : Nat) : List Nat := (List.range ((hi - lo) / size)).map fun i => lo + i * size

/-- The pages of every range of the list. -/
def pagesOf (ranges : List (Nat × Nat)) : List Nat := ranges.flatMap fun r => between size r.1 r.2

/-- The pages taken by a walker that is through with `done` and stands at `pos` in `r`. -/
def walked (done : List (Nat × Nat)) (r : Nat × Nat) (pos : Nat) : List Nat :=
  pagesOf size done ++ between size r.1 pos

/-- Whole pages, one range after another. -/
structure Listed (ranges : List (Nat × Nat)) : Prop where
  nonempty : ∀ r ∈ ranges, r.1 < r.2
  aligned : ∀ r ∈ ranges, r.1 % size = 0 ∧ r.2 % size = 0
  ascending : ranges.Pairwise fun r s => r.2 ≤ s.1

variable {size}

@[simp] theorem between_self (lo : Nat) : between size lo lo = [] := by
  simp [between]

theorem between_add (lo : Nat) (hsize : 0 < size) (n : Nat) :
    between size lo (lo + n * size) = (List.range n).map fun i => lo + i * size := by
  rw [between, Nat.add_sub_cancel_left, Nat.mul_div_cancel _ hsize]

theorem length_between_add (lo : Nat) (hsize : 0 < size) (n : Nat) :
    (between size lo (lo + n * size)).length = n := by
  rw [between_add lo hsize, List.length_map, List.length_range]

/-- The pages up to a later point are those up to an earlier one and those from there. -/
theorem between_append (hsize : 0 < size) {lo mid hi : Nat} (hle : lo ≤ mid) (hle' : mid ≤ hi)
    (hlo : lo % size = 0) (hmid : mid % size = 0) (hhi : hi % size = 0) :
    between size lo hi = between size lo mid ++ between size mid hi := by
  obtain ⟨m, rfl⟩ : ∃ m, mid = lo + m * size := by
    obtain ⟨k, hk⟩ := (Nat.dvd_sub (Nat.dvd_of_mod_eq_zero hmid) (Nat.dvd_of_mod_eq_zero hlo))
    exact ⟨k, by rw [Nat.mul_comm, ← hk]; omega⟩
  obtain ⟨n, rfl⟩ : ∃ n, hi = lo + m * size + n * size := by
    obtain ⟨k, hk⟩ := (Nat.dvd_sub (Nat.dvd_of_mod_eq_zero hhi) (Nat.dvd_of_mod_eq_zero hmid))
    exact ⟨k, by rw [Nat.mul_comm k, ← hk]; omega⟩
  rw [between_add _ hsize, between_add _ hsize, Nat.add_assoc, ← Nat.add_mul, between_add _ hsize,
    List.range_add, List.map_append, List.map_map]
  congr 1
  refine List.map_congr_left fun i _ => ?_
  simp only [Function.comp_apply]
  ring

theorem mem_between (hsize : 0 < size) {lo hi a : Nat} (hlo : lo % size = 0) (hhi : hi % size = 0) :
    a ∈ between size lo hi ↔ a % size = 0 ∧ lo ≤ a ∧ a < hi := by
  obtain ⟨l, rfl⟩ := Nat.dvd_of_mod_eq_zero hlo
  obtain ⟨h, rfl⟩ := Nat.dvd_of_mod_eq_zero hhi
  rw [between, List.mem_map]
  have hdiv : (size * h - size * l) / size = h - l := by
    rw [← Nat.mul_sub, Nat.mul_div_cancel_left _ hsize]
  constructor
  · rintro ⟨i, hi, rfl⟩
    rw [List.mem_range, hdiv] at hi
    refine ⟨?_, Nat.le_add_right _ _, ?_⟩
    · rw [Nat.mul_comm i, ← Nat.mul_add, Nat.mul_mod_right]
    · rw [Nat.mul_comm i, ← Nat.mul_add]
      exact Nat.mul_lt_mul_of_pos_left (by omega) hsize
  · rintro ⟨ha, hle, hlt⟩
    obtain ⟨k, rfl⟩ := Nat.dvd_of_mod_eq_zero ha
    have hlk : l ≤ k := Nat.le_of_mul_le_mul_left hle hsize
    have hkh : k < h := Nat.lt_of_mul_lt_mul_left hlt
    refine ⟨k - l, List.mem_range.mpr (by rw [hdiv]; omega), ?_⟩
    rw [Nat.mul_comm (k - l), ← Nat.mul_add, Nat.add_sub_cancel' hlk]

theorem pairwise_between (hsize : 0 < size) (lo hi : Nat) :
    (between size lo hi).Pairwise (· < ·) := by
  rw [between, List.pairwise_map]
  refine List.pairwise_lt_range.imp fun h => ?_
  exact Nat.add_lt_add_left (Nat.mul_lt_mul_of_pos_right h hsize) lo

/-! ## The pages of a list -/

theorem mem_pagesOf (hsize : 0 < size) {ranges : List (Nat × Nat)} (h : Listed size ranges) {a : Nat} :
    a ∈ pagesOf size ranges ↔ a % size = 0 ∧ ∃ r ∈ ranges, r.1 ≤ a ∧ a < r.2 := by
  rw [pagesOf, List.mem_flatMap]
  constructor
  · rintro ⟨r, hr, ha⟩
    obtain ⟨halign, hmem⟩ := (mem_between hsize (h.aligned r hr).1 (h.aligned r hr).2).mp ha
    exact ⟨halign, r, hr, hmem⟩
  · rintro ⟨halign, r, hr, hmem⟩
    exact ⟨r, hr, (mem_between hsize (h.aligned r hr).1 (h.aligned r hr).2).mpr ⟨halign, hmem⟩⟩

/-- No page is walked twice. -/
theorem nodup_pagesOf (hsize : 0 < size) {ranges : List (Nat × Nat)} (h : Listed size ranges) :
    (pagesOf size ranges).Nodup := by
  have hasc : (pagesOf size ranges).Pairwise (· < ·) := by
    refine List.pairwise_flatMap.mpr ⟨fun r _ => pairwise_between hsize _ _, ?_⟩
    refine h.ascending.imp_of_mem fun {r s} hr hs hle a ha b hb => ?_
    have hra := (mem_between hsize (h.aligned r hr).1 (h.aligned r hr).2).mp ha
    have hsb := (mem_between hsize (h.aligned s hs).1 (h.aligned s hs).2).mp hb
    omega
  exact hasc.imp fun hlt => hlt.ne

/-! ## Walking -/

variable {done rest : List (Nat × Nat)} {r : Nat × Nat} {pos pos' : Nat}

/-- Standing at the start of a range, nothing of it has been taken. -/
theorem walked_start (done : List (Nat × Nat)) (r : Nat × Nat) :
    walked size done r r.1 = pagesOf size done := by
  simp [walked]

/-- Standing at its end, all of it has. -/
theorem walked_end (done : List (Nat × Nat)) (r : Nat × Nat) :
    walked size done r r.2 = pagesOf size (done ++ [r]) := by
  simp [walked, pagesOf]

/-- Moving on takes the pages in between. -/
theorem walked_step (hsize : 0 < size) (hle : r.1 ≤ pos) (hle' : pos ≤ pos') (hr : r.1 % size = 0)
    (hpos : pos % size = 0) (hpos' : pos' % size = 0) :
    walked size done r pos' = walked size done r pos ++ between size pos pos' := by
  rw [walked, walked, between_append hsize hle hle' hr hpos hpos', List.append_assoc]

/-- What a walker has taken is a prefix of all there is. -/
theorem walked_initial (hsize : 0 < size) (hle : r.1 ≤ pos) (hle' : pos ≤ r.2) (hr : r.1 % size = 0)
    (hr' : r.2 % size = 0) (hpos : pos % size = 0) :
    walked size done r pos <+: pagesOf size (done ++ r :: rest) := by
  refine ⟨between size pos r.2 ++ pagesOf size rest, ?_⟩
  rw [← List.append_assoc, ← walked_step hsize hle hle' hr hpos hr', walked_end]
  simp [pagesOf]

end PageWalk
