-- SUMMARY: The shim's data block read back: the entry point and the ranges, word by word as the shim reads them.
import BootShim.Image.Build

/-!
# The shim's data block

`shim` packs the entry point and the accept ranges into the shim's page. A shim walks
the ranges two words at a time until it meets a pair of zeros, which no range is.
-/

namespace BootShim.Image

open Bytes Checked Layout

theorem shim_eq_ok {blob pg : List UInt8} {entry : Nat} {ranges : List (Nat × Nat)} :
    shim blob entry ranges = .ok pg ↔
      (shimDataBlock entry ranges).length ≤ shimDataSize ∧
        (∀ b ∈ slice blob shimData (shimDataBlock entry ranges).length, b = 0) ∧
          pg = write blob shimData (shimDataBlock entry ranges) := by
  simp only [shim, bind_eq_ok, ensure_eq_ok, pure_eq_ok, List.all_eq_true, decide_eq_true_eq,
    exists_and_left, exists_const]
  exact and_congr_right fun _ => and_congr_right fun _ => eq_comm

/-- The shim's page is as long as the shim. -/
theorem length_shim {blob : ShimBlob} {pg : List UInt8} {entry : Nat} {ranges : List (Nat × Nat)}
    (h : shim blob.bytes entry ranges = .ok pg) : pg.length = page := by
  rw [(shim_eq_ok.mp h).2.2, length_write, blob.length_eq]

/-- One range as the block holds it. -/
def rangeBytes (r : Nat × Nat) : List UInt8 := toLE 8 r.1 ++ toLE 8 r.2

@[simp] theorem length_rangeBytes (r : Nat × Nat) : (rangeBytes r).length = 16 := by
  simp [rangeBytes]

@[simp] theorem length_flatMap_rangeBytes (ranges : List (Nat × Nat)) :
    (ranges.flatMap rangeBytes).length = 16 * ranges.length := by
  induction ranges with
  | nil => rfl
  | cons r rs ih => simp [ih]; omega

theorem shimDataBlock_eq (entry : Nat) (ranges : List (Nat × Nat)) :
    shimDataBlock entry ranges = toLE 8 entry ++ ranges.flatMap rangeBytes ++ zeros 16 := rfl

@[simp] theorem length_shimDataBlock (entry : Nat) (ranges : List (Nat × Nat)) :
    (shimDataBlock entry ranges).length = 24 + 16 * ranges.length := by
  rw [shimDataBlock_eq]
  simp
  omega

variable {blob : ShimBlob} {pg : List UInt8} {entry : Nat} {ranges : List (Nat × Nat)}

/-- A word of the block is a word of the page. -/
private theorem getLE_shim (h : shim blob.bytes entry ranges = .ok pg) {off : Nat}
    (hoff : off + 8 ≤ 24 + 16 * ranges.length) :
    getLE 8 pg (shimData + off) = getLE 8 (shimDataBlock entry ranges) off := by
  obtain ⟨hfit, -, rfl⟩ := shim_eq_ok.mp h
  have hlen : (shimDataBlock entry ranges).length = 24 + 16 * ranges.length :=
    length_shimDataBlock entry ranges
  have hpage : shimData + shimDataSize ≤ blob.bytes.length := by
    rw [blob.length_eq]
    decide
  rw [getLE, getLE, slice_write_inside (by omega) (by omega)]

/-- The first word is the entry point. -/
theorem getLE_shim_entry (h : shim blob.bytes entry ranges = .ok pg) :
    getLE 8 pg shimData = entry % 2 ^ 64 := by
  rw [← Nat.add_zero shimData, getLE_shim h (by omega), shimDataBlock_eq, List.append_assoc,
    ← List.nil_append (toLE 8 entry ++ _)]
  exact getLE_append_toLE rfl

private theorem length_beforeRanges (entry : Nat) (done : List (Nat × Nat)) :
    (toLE 8 entry ++ done.flatMap rangeBytes).length = 8 + 16 * done.length := by
  rw [List.length_append, length_toLE, length_flatMap_rangeBytes]

/-- The two words of a range, by how many ranges come before it. -/
theorem getLE_shim_range (h : shim blob.bytes entry ranges = .ok pg) {done rest : List (Nat × Nat)}
    {r : Nat × Nat} (hr : ranges = done ++ r :: rest) :
    getLE 8 pg (shimData + (8 + 16 * done.length)) = r.1 % 2 ^ 64 ∧
      getLE 8 pg (shimData + (8 + 16 * done.length) + 8) = r.2 % 2 ^ 64 := by
  have hlen : ranges.length = done.length + 1 + rest.length := by
    rw [hr]
    simp
    omega
  have hblock : shimDataBlock entry ranges =
      (toLE 8 entry ++ done.flatMap rangeBytes) ++
        (toLE 8 r.1 ++ (toLE 8 r.2 ++ (rest.flatMap rangeBytes ++ zeros 16))) := by
    rw [shimDataBlock_eq, hr]
    simp [rangeBytes]
  rw [Nat.add_assoc, getLE_shim h (by omega), getLE_shim h (by omega), hblock]
  refine ⟨getLE_append_toLE (length_beforeRanges entry done), ?_⟩
  rw [← List.append_assoc _ (toLE 8 r.1)]
  refine getLE_append_toLE ?_
  rw [List.length_append, length_beforeRanges, length_toLE]

/-- Past the last range come two words of zero. -/
theorem getLE_shim_end (h : shim blob.bytes entry ranges = .ok pg) :
    getLE 8 pg (shimData + (8 + 16 * ranges.length)) = 0 ∧
      getLE 8 pg (shimData + (8 + 16 * ranges.length) + 8) = 0 := by
  have hpre := length_beforeRanges entry ranges
  rw [Nat.add_assoc, getLE_shim h (by omega), getLE_shim h (by omega), shimDataBlock_eq]
  constructor
  · rw [getLE, slice_append_right hpre.le, hpre, Nat.sub_self, slice_zeros (by omega), ofLE_zeros]
  · rw [getLE, slice_append_right (by omega), hpre, Nat.add_sub_cancel_left, slice_zeros (by omega),
      ofLE_zeros]

/-! ## The list a shim reads -/

/-- The ranges from offset `off` of a page on, as a shim walks them: two words at a
    time, until both are zero. -/
def walkRanges : Nat → List UInt8 → Nat → Option (List (Nat × Nat))
  | 0, _, _ => none
  | fuel + 1, pg, off =>
    let lo := getLE 8 pg off
    let hi := getLE 8 pg (off + 8)
    if lo ||| hi = 0 then some []
    else (walkRanges fuel pg (off + 16)).map ((lo, hi) :: ·)

/-- The accept list in a shim's page. -/
def shimRanges (pg : List UInt8) : Option (List (Nat × Nat)) :=
  walkRanges (shimDataSize / 16) pg (shimData + 8)

/-- What `shim` packs, a walk of enough rounds reads, as long as no range is a pair of
    zeros. -/
theorem walkRanges_shim (h : shim blob.bytes entry ranges = .ok pg)
    (hranges : ∀ r ∈ ranges, r.1 < r.2 ∧ r.2 < 2 ^ 64) {fuel : Nat} (hfuel : ranges.length < fuel) :
    walkRanges fuel pg (shimData + 8) = some ranges := by
  have hwalk : ∀ (rest done : List (Nat × Nat)) (fuel : Nat), ranges = done ++ rest →
      rest.length < fuel →
      walkRanges fuel pg (shimData + (8 + 16 * done.length)) = some rest := by
    intro rest
    induction rest with
    | nil =>
      intro done fuel hr hfuel
      obtain ⟨fuel, rfl⟩ : ∃ n, fuel = n + 1 := ⟨fuel - 1, by omega⟩
      rw [List.append_nil] at hr
      obtain ⟨hlo, hhi⟩ := getLE_shim_end h
      rw [hr] at hlo hhi
      rw [walkRanges, hlo, hhi]
      rfl
    | cons r rest ih =>
      intro done fuel hr hfuel
      obtain ⟨fuel, rfl⟩ : ∃ n, fuel = n + 1 := ⟨fuel - 1, by omega⟩
      have hbounds := hranges r (by rw [hr]; simp)
      obtain ⟨hlo, hhi⟩ := getLE_shim_range h hr
      rw [Nat.mod_eq_of_lt (by omega)] at hlo hhi
      have hnext := ih (done ++ [r]) fuel (by rw [hr]; simp) (by simpa using hfuel)
      have hoff : shimData + (8 + 16 * (done ++ [r]).length) =
          shimData + (8 + 16 * done.length) + 16 := by
        simp
        omega
      rw [hoff] at hnext
      have hne : r.1 ||| r.2 ≠ 0 := by
        rw [ne_eq, Nat.or_eq_zero_iff]
        omega
      rw [walkRanges, hlo, hhi, hnext]
      simp only [hne, if_false, Option.map_some]
  exact hwalk ranges [] fuel rfl hfuel

/-- The block has room for as many rounds as the walk can take. -/
theorem shimRanges_shim (h : shim blob.bytes entry ranges = .ok pg)
    (hranges : ∀ r ∈ ranges, r.1 < r.2 ∧ r.2 < 2 ^ 64) : shimRanges pg = some ranges := by
  have hfit := (shim_eq_ok.mp h).1
  rw [length_shimDataBlock] at hfit
  refine walkRanges_shim h hranges ?_
  simp only [shimDataSize, resetVector, shimData, page] at *
  omega

end BootShim.Image
