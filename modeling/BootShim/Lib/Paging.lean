-- SUMMARY: Four-level page tables as the processor walks them: the bits of an entry, translation, and what an entry of a base and flags maps.
import Mathlib.Tactic

/-!
# Page tables

A walk reads one 64-bit entry a level. Where memory is encrypted one address bit of
an entry, the C-bit, says so and is no part of the address.
-/

namespace Paging

/-- What an address is mapped to. -/
structure Mapping where
  phys : Nat
  writable : Bool
  executable : Bool
  encrypted : Bool
deriving DecidableEq

/-- The C-bit as a mask. -/
def mask : Option Nat → Nat
  | none => 0
  | some c => 2 ^ c

/-- An address with the C-bit cleared. -/
def without (cBit : Option Nat) (a : Nat) : Nat := a ^^^ (a &&& mask cBit)

/-- The physical address in an entry: bits 12 to 51 but for the C-bit. -/
def address (cBit : Option Nat) (e : Nat) : Nat := without cBit (e % 2 ^ 52 / 2 ^ 12 * 2 ^ 12)

def isEncrypted (cBit : Option Nat) (e : Nat) : Bool := cBit.any e.testBit

/-- A walk from a table of some level: a present entry maps a page at the last level, or
    above it with bit 7, which the top level reserves. -/
def walk (word : Nat → Nat) (cBit : Option Nat) (va : Nat) : Nat → Nat → Option Mapping
  | 0, _ => none
  | level + 1, table =>
    let size := 2 ^ (12 + 9 * level)
    let e := word (table + va / size % 512 * 8)
    if e.testBit 0 = false then none
    else if level = 0 ∨ e.testBit 7 = true then
      if level = 3 then none
      else some {
        phys := address cBit e / size * size + va % size
        writable := e.testBit 1
        executable := !e.testBit 63
        encrypted := isEncrypted cBit e }
    else (walk word cBit va level (address cBit e)).map fun m =>
      { m with writable := e.testBit 1 && m.writable, executable := !e.testBit 63 && m.executable }

/-- The translation of a virtual address: its upper 17 bits must be alike. -/
def translate (word : Nat → Nat) (cBit : Option Nat) (root va : Nat) : Option Mapping :=
  if va < 2 ^ 47 ∨ 2 ^ 64 - 2 ^ 47 ≤ va ∧ va < 2 ^ 64 then walk word cBit va 4 root else none

variable {word : Nat → Nat} {cBit : Option Nat} {va level table base flags c n : Nat}

/-! ## The bits of an entry -/

theorem testBit_mask (cBit : Option Nat) (i : Nat) : (mask cBit).testBit i = decide (cBit = some i) := by
  cases cBit with
  | none => simp [mask]
  | some c => simp [mask, Nat.testBit_two_pow]

theorem testBit_without (cBit : Option Nat) (a i : Nat) :
    (without cBit a).testBit i = (a.testBit i && decide (cBit ≠ some i)) := by
  rw [without, Nat.testBit_xor, Nat.testBit_and, testBit_mask]
  cases a.testBit i <;> simp

theorem without_of_lt (h : n < 2 ^ c) : without (some c) n = n := by
  apply Nat.eq_of_testBit_eq
  intro i
  rw [testBit_without]
  by_cases hi : i = c
  · rw [hi, Nat.testBit_lt_two_pow h, Bool.false_and]
  · have hne : some c ≠ some i := fun h => hi (Option.some.inj h).symm
    simp [hne]

@[simp] theorem without_none (n : Nat) : without none n = n := by
  simp [without, mask]

@[simp] theorem without_two_pow (c : Nat) : without (some c) (2 ^ c) = 0 := by
  simp [without, mask]

/-- Clearing a bit keeps an address aligned. -/
theorem without_mod {k : Nat} (h : n % 2 ^ k = 0) : without cBit n % 2 ^ k = 0 := by
  apply Nat.eq_of_testBit_eq
  intro i
  have hbit : (n % 2 ^ k).testBit i = false := by rw [h, Nat.zero_testBit]
  rw [Nat.testBit_mod_two_pow] at hbit ⊢
  rw [testBit_without, Nat.zero_testBit, ← Bool.and_assoc, hbit, Bool.false_and]

theorem testBit_of_mod {k i : Nat} (h : n % 2 ^ k = 0) (hi : i < k) : n.testBit i = false := by
  have hbit : (n % 2 ^ k).testBit i = false := by rw [h, Nat.zero_testBit]
  simpa [Nat.testBit_mod_two_pow, hi] using hbit

/-- An entry's flags are its own, the base's and the C-bit. -/
theorem testBit_entry (base flags : Nat) (cBit : Option Nat) (i : Nat) :
    (base ||| mask cBit ||| flags).testBit i =
      (base.testBit i || decide (cBit = some i) || flags.testBit i) := by
  rw [Nat.testBit_or, Nat.testBit_or, testBit_mask]

/-- The address of an entry is its base, but for the C-bit. -/
theorem address_entry (hbase : base % 2 ^ 12 = 0) (hlt : base < 2 ^ 52) (hflags : flags < 2 ^ 12) :
    address cBit (base ||| mask cBit ||| flags) = without cBit base := by
  apply Nat.eq_of_testBit_eq
  intro i
  rw [address, testBit_without, testBit_without, Nat.testBit_mul_two_pow]
  by_cases hi : 12 ≤ i
  · have hbits : (((base ||| mask cBit ||| flags) % 2 ^ 52) / 2 ^ 12).testBit (i - 12) =
        ((base ||| mask cBit ||| flags) % 2 ^ 52).testBit i := by
      rw [Nat.testBit_div_two_pow, Nat.sub_add_cancel hi]
    have hflag : flags.testBit i = false :=
      Nat.testBit_lt_two_pow (hflags.trans_le (Nat.pow_le_pow_right (by decide) hi))
    rw [hbits, Nat.testBit_mod_two_pow, testBit_entry, hflag]
    by_cases h52 : i < 52
    · cases base.testBit i <;> by_cases hc : cBit = some i <;> simp [hi, h52, hc]
    · have hhigh : base.testBit i = false :=
        Nat.testBit_lt_two_pow (hlt.trans_le (Nat.pow_le_pow_right (by decide) (Nat.le_of_not_lt h52)))
      simp [h52, hhigh]
  · rw [testBit_of_mod hbase (by omega)]
    simp [hi]

/-! ## Walks -/

/-- An entry that is not present maps nothing. -/
theorem walk_of_not_present
    (h : (word (table + va / 2 ^ (12 + 9 * level) % 512 * 8)).testBit 0 = false) :
    walk word cBit va (level + 1) table = none := by
  simp only [walk, h, if_true]

/-- An entry for a table goes on there. -/
theorem walk_of_table {e : Nat} (he : word (table + va / 2 ^ (12 + 9 * level) % 512 * 8) = e)
    (hlevel : level ≠ 0) (hpresent : e.testBit 0 = true) (hlarge : e.testBit 7 = false) :
    walk word cBit va (level + 1) table =
      (walk word cBit va level (address cBit e)).map fun m =>
        { m with
          writable := e.testBit 1 && m.writable
          executable := !e.testBit 63 && m.executable } := by
  subst he
  simp [walk, hpresent, hlarge, hlevel]

/-- An entry for a large page ends the walk. -/
theorem walk_of_large {e : Nat} (he : word (table + va / 2 ^ (12 + 9 * level) % 512 * 8) = e)
    (hlevel : level ≠ 3) (hpresent : e.testBit 0 = true) (hlarge : e.testBit 7 = true) :
    walk word cBit va (level + 1) table =
      some {
        phys := address cBit e / 2 ^ (12 + 9 * level) * 2 ^ (12 + 9 * level) +
          va % 2 ^ (12 + 9 * level)
        writable := e.testBit 1
        executable := !e.testBit 63
        encrypted := isEncrypted cBit e } := by
  subst he
  simp [walk, hpresent, hlarge, hlevel]

end Paging
