-- SUMMARY: Reading the entries of the measured page tables back.
import BootShim.Image.Build

/-!
# The measured page tables

`identityMap` writes three tables or two, one page each: the PML4, the page directory
pointers of the first 512 GiB, and on SNP those of the shared alias.
-/

namespace BootShim.Image

open Bytes Layout

/-- The C-bit of a position as a mask. Position zero is none. -/
def cMask (cBit : Nat) : Nat := if cBit = 0 then 0 else 1 <<< cBit

/-- The tables before the shared alias is added. -/
private def lowMap (cBit : Nat) (v : List UInt8) : List UInt8 :=
  putTable (mapLimit / gib) page (fun g => (g * gib) ||| cMask cBit ||| 0x83)
    (putLE 8 v 0 ((pageTables + page) ||| cMask cBit ||| 3))

private theorem identityMap_false (cBit : Nat) :
    identityMap cBit false = lowMap cBit (zeros (2 * page)) := rfl

private theorem identityMap_true (cBit : Nat) :
    identityMap cBit true =
      putLE 8 (putLE 8 (lowMap cBit (zeros (3 * page))) 8
        ((pageTables + 2 * page) ||| cMask cBit ||| 3)) (2 * page) 0x83 := rfl

@[simp] theorem length_identityMap (cBit : Nat) (sharedAlias : Bool) :
    (identityMap cBit sharedAlias).length = (if sharedAlias then 3 else 2) * page := by
  cases sharedAlias with
  | false => simp [identityMap_false, lowMap]
  | true => simp [identityMap_true, lowMap]

/-- The 64-bit words of the tables in order. -/
def identityEntry (cBit : Nat) (sharedAlias : Bool) (i : Nat) : Nat :=
  if i = 0 then (pageTables + page) ||| cMask cBit ||| 3
  else if i = 1 ∧ sharedAlias then (pageTables + 2 * page) ||| cMask cBit ||| 3
  else if 512 ≤ i ∧ i < 1024 then ((i - 512) * gib) ||| cMask cBit ||| 0x83
  else if i = 1024 ∧ sharedAlias then 0x83
  else 0

theorem cMask_lt {cBit : Nat} (h : cBit < 64) : cMask cBit < 2 ^ 64 := by
  unfold cMask
  split
  · decide
  · rw [Nat.one_shiftLeft]
    exact Nat.pow_lt_pow_right (by decide) h

theorem identityEntry_lt {cBit : Nat} (h : cBit < 64) (sharedAlias : Bool) (i : Nat) :
    identityEntry cBit sharedAlias i < 2 ^ 64 := by
  have hc := cMask_lt h
  unfold identityEntry
  split_ifs with h₀ h₁ h₂ h₃
  · exact Nat.or_lt_two_pow (Nat.or_lt_two_pow (by decide) hc) (by decide)
  · exact Nat.or_lt_two_pow (Nat.or_lt_two_pow (by decide) hc) (by decide)
  · exact Nat.or_lt_two_pow (Nat.or_lt_two_pow (by simp only [gib]; omega) hc) (by decide)
  · decide
  · decide

private theorem getLE_lowMap {cBit n i : Nat} (hc : cBit < 64) (hn : 2 * page ≤ n)
    (hi : i * 8 + 8 ≤ n) :
    getLE 8 (lowMap cBit (zeros n)) (i * 8) = identityEntry cBit false i := by
  have hlt := identityEntry_lt hc false i
  simp only [page] at hn
  rw [lowMap]
  rcases Nat.lt_or_ge i 512 with hlo | hlo
  · rw [getLE_putTable_of_disjoint _ (by simp; omega)]
    rcases Nat.eq_zero_or_pos i with rfl | hpos
    · rw [getLE_putLE_self (by rw [length_zeros]; omega)]
      exact Nat.mod_eq_of_lt hlt
    · rw [getLE_putLE_of_disjoint (by omega), getLE_zeros hi, identityEntry]
      simp only [hpos.ne', Bool.false_eq_true, and_false, if_false]
      rw [if_neg (by omega)]
  rcases Nat.lt_or_ge i 1024 with hmid | hmid
  · have hoff : i * 8 = page + (i - 512) * 8 := by simp; omega
    rw [hoff, getLE_putTable _ (by simp; omega) (by simp; omega)]
    have hentry : identityEntry cBit false i = (i - 512) * gib ||| cMask cBit ||| 0x83 := by
      rw [identityEntry, if_neg (by omega), if_neg (by simp), if_pos ⟨hlo, hmid⟩]
    rw [hentry] at hlt ⊢
    exact Nat.mod_eq_of_lt hlt
  · rw [getLE_putTable_of_disjoint _ (by simp; omega), getLE_putLE_of_disjoint (by omega),
      getLE_zeros hi, identityEntry, if_neg (by omega), if_neg (by simp), if_neg (by omega),
      if_neg (by simp)]

/-- Every word of the measured tables. -/
theorem getLE_identityMap {cBit i : Nat} {sharedAlias : Bool} (hc : cBit < 64)
    (hi : i * 8 + 8 ≤ (identityMap cBit sharedAlias).length) :
    getLE 8 (identityMap cBit sharedAlias) (i * 8) = identityEntry cBit sharedAlias i := by
  rw [length_identityMap] at hi
  cases sharedAlias with
  | false =>
    rw [identityMap_false]
    exact getLE_lowMap hc (by simp) (by simpa using hi)
  | true =>
    have hlt := identityEntry_lt hc true i
    simp only [if_true, page] at hi
    rw [identityMap_true]
    by_cases h1024 : i = 1024
    · subst h1024
      rw [show 1024 * 8 = 2 * page from rfl, getLE_putLE_self (by simp [lowMap])]
      rfl
    rw [getLE_putLE_of_disjoint (by simp; omega)]
    by_cases h1 : i = 1
    · subst h1
      rw [show 1 * 8 = 8 from rfl, getLE_putLE_self (by simp [lowMap])]
      exact Nat.mod_eq_of_lt hlt
    · rw [getLE_putLE_of_disjoint (by omega), getLE_lowMap hc (by simp) (by simp; omega)]
      simp [identityEntry, h1, h1024]

end BootShim.Image
