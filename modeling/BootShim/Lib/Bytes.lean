-- SUMMARY: Byte buffers as lists: little-endian words, slices, in-place writes and zero padding.
import Mathlib.Data.List.Basic
import Mathlib.Tactic

/-!
# Byte buffers

A buffer is a `List UInt8`. This file gives it the three operations a binary
encoder uses, writing a run of bytes in place, reading a slice, and reading a
little-endian word, together with the laws that relate them: a slice reads what
was last written there, and a write leaves every other slice alone.
-/

namespace Bytes

/-! ## Little-endian words -/

/-- The `n` little-endian bytes of `v`. The bits that do not fit are dropped. -/
def toLE : Nat → Nat → List UInt8
  | 0, _ => []
  | n + 1, v => UInt8.ofNat v :: toLE n (v / 256)

/-- The number that a little-endian byte string denotes. -/
def ofLE : List UInt8 → Nat
  | [] => 0
  | b :: bs => b.toNat + 256 * ofLE bs

@[simp] theorem length_toLE (n v : Nat) : (toLE n v).length = n := by
  induction n generalizing v with
  | zero => rfl
  | succ n ih => simp [toLE, ih]

theorem ofLE_toLE (n v : Nat) : ofLE (toLE n v) = v % 256 ^ n := by
  induction n generalizing v with
  | zero => simp [toLE, ofLE, Nat.mod_one]
  | succ n ih =>
    have hb : (UInt8.ofNat v).toNat = v % 256 := UInt8.toNat_ofNat'
    rw [toLE, ofLE, hb, ih, pow_succ', Nat.mod_mul]

theorem ofLE_toLE_of_lt {n v : Nat} (h : v < 256 ^ n) : ofLE (toLE n v) = v := by
  rw [ofLE_toLE, Nat.mod_eq_of_lt h]

theorem ofLE_lt (bs : List UInt8) : ofLE bs < 256 ^ bs.length := by
  induction bs with
  | nil => simp [ofLE]
  | cons b bs ih =>
    have hb : b.toNat < 256 := b.toNat_lt
    rw [ofLE, List.length_cons, pow_succ]
    omega

theorem toLE_injective {n v w : Nat} (hv : v < 256 ^ n) (hw : w < 256 ^ n)
    (h : toLE n v = toLE n w) : v = w := by
  rw [← ofLE_toLE_of_lt hv, h, ofLE_toLE_of_lt hw]

/-- A buffer of `n` zero bytes. -/
def zeros (n : Nat) : List UInt8 := List.replicate n 0

@[simp] theorem length_zeros (n : Nat) : (zeros n).length = n := List.length_replicate

theorem getElem?_zeros (n i : Nat) : (zeros n)[i]? = if i < n then some 0 else none :=
  List.getElem?_replicate

@[simp] theorem ofLE_zeros (n : Nat) : ofLE (zeros n) = 0 := by
  induction n with
  | zero => rfl
  | succ n ih => simpa [zeros, List.replicate_succ, ofLE] using ih

/-! ## Slices -/

/-- The `n` bytes of `v` from offset `off` on, fewer where `v` ends sooner. -/
def slice (v : List UInt8) (off n : Nat) : List UInt8 := (v.drop off).take n

/-- The little-endian word of `n` bytes at offset `off`. -/
def getLE (n : Nat) (v : List UInt8) (off : Nat) : Nat := ofLE (slice v off n)

/-- The byte at offset `off`, zero past the end. -/
def byteAt (v : List UInt8) (off : Nat) : UInt8 := v.getD off 0

theorem getElem?_slice (v : List UInt8) (off n i : Nat) :
    (slice v off n)[i]? = if i < n then v[off + i]? else none := by
  simp [slice, List.getElem?_take, List.getElem?_drop]

@[simp] theorem length_slice (v : List UInt8) (off n : Nat) :
    (slice v off n).length = min n (v.length - off) := by
  simp [slice]

theorem slice_ext {v w : List UInt8} {off off' n : Nat}
    (h : ∀ i < n, v[off + i]? = w[off' + i]?) : slice v off n = slice w off' n := by
  apply List.ext_getElem?
  intro i
  rw [getElem?_slice, getElem?_slice]
  split
  · exact h i ‹_›
  · rfl

/-- A slice is blank when each byte it covers is. -/
theorem forall_mem_slice_eq_zero {v : List UInt8} {off n : Nat} :
    (∀ b ∈ slice v off n, b = 0) ↔ ∀ i < n, byteAt v (off + i) = 0 := by
  simp only [List.mem_iff_getElem?, getElem?_slice, byteAt, List.getD_eq_getElem?_getD]
  constructor
  · intro h i hi
    cases hb : v[off + i]? with
    | none => rfl
    | some b => exact h b ⟨i, by rw [if_pos hi, hb]⟩
  · rintro h b ⟨i, hb⟩
    split at hb
    · have hzero := h i ‹_›
      rw [hb] at hzero
      exact hzero
    · cases hb

theorem slice_zeros {m off n : Nat} (h : off + n ≤ m) : slice (zeros m) off n = zeros n := by
  simp only [slice, zeros, List.drop_replicate, List.take_replicate]
  rw [Nat.min_eq_left (by omega)]

theorem slice_append_left {v w : List UInt8} {off n : Nat} (h : off + n ≤ v.length) :
    slice (v ++ w) off n = slice v off n := by
  apply slice_ext
  intro i hi
  rw [List.getElem?_append_left (by omega)]

theorem slice_append_right {v w : List UInt8} {off n : Nat} (h : v.length ≤ off) :
    slice (v ++ w) off n = slice w (off - v.length) n := by
  apply slice_ext
  intro i _
  rw [List.getElem?_append_right (by omega)]
  congr 1
  omega

/-- Two adjacent slices make one. -/
theorem slice_append_slice (v : List UInt8) (off n m : Nat) :
    slice v off (n + m) = slice v off n ++ slice v (off + n) m := by
  simp [slice, List.take_add, List.drop_drop]

theorem slice_slice {v : List UInt8} {off n i m : Nat} (h : i + m ≤ n) :
    slice (slice v off n) i m = slice v (off + i) m := by
  apply List.ext_getElem?
  intro j
  rw [getElem?_slice, getElem?_slice, getElem?_slice, Nat.add_assoc]
  split
  · rw [if_pos (by omega)]
  · rfl

/-- A slice over the whole buffer is the buffer. -/
theorem slice_zero_length (v : List UInt8) : slice v 0 v.length = v := by
  simp [slice]

theorem getLE_zeros {m off n : Nat} (h : off + n ≤ m) : getLE n (zeros m) off = 0 := by
  rw [getLE, slice_zeros h, ofLE_zeros]

theorem getLE_lt (n : Nat) (v : List UInt8) (off : Nat) : getLE n v off < 256 ^ n := by
  refine lt_of_lt_of_le (ofLE_lt _) (Nat.pow_le_pow_right (by decide) ?_)
  simp

/-! ## Writes -/

/-- Copies `bs` into `v` from offset `off` on. The buffer keeps its length: a
    byte that would land past the end is dropped. -/
def write (v : List UInt8) (off : Nat) : List UInt8 → List UInt8
  | [] => v
  | b :: bs => write (v.set off b) (off + 1) bs

/-- Writes the `n` little-endian bytes of `x` at offset `off`. -/
def putLE (n : Nat) (v : List UInt8) (off x : Nat) : List UInt8 := write v off (toLE n x)

@[simp] theorem length_write (v : List UInt8) (off : Nat) (bs : List UInt8) :
    (write v off bs).length = v.length := by
  induction bs generalizing v off with
  | nil => rfl
  | cons b bs ih => simp [write, ih]

@[simp] theorem length_putLE (n : Nat) (v : List UInt8) (off x : Nat) :
    (putLE n v off x).length = v.length := length_write _ _ _

theorem set_eq_write (v : List UInt8) (off : Nat) (b : UInt8) : v.set off b = write v off [b] :=
  rfl

theorem write_append (v : List UInt8) (off : Nat) (bs cs : List UInt8) :
    write v off (bs ++ cs) = write (write v off bs) (off + bs.length) cs := by
  induction bs generalizing v off with
  | nil => rfl
  | cons b bs ih =>
    rw [List.cons_append, write, write, ih, List.length_cons]
    congr 1
    omega

theorem getElem?_write (v : List UInt8) (off : Nat) (bs : List UInt8) (i : Nat) :
    (write v off bs)[i]? =
      if off ≤ i ∧ i < off + bs.length ∧ i < v.length then bs[i - off]? else v[i]? := by
  induction bs generalizing v off with
  | nil => simp only [write, List.length_nil]; rw [if_neg (by omega)]
  | cons b bs ih =>
    rw [write, ih, List.length_set, List.length_cons]
    rcases Nat.lt_trichotomy i off with hlt | heq | hgt
    · rw [if_neg (by omega), if_neg (by omega), List.getElem?_set_ne (by omega)]
    · subst heq
      rw [if_neg (by omega)]
      by_cases hi : i < v.length
      · rw [if_pos (by omega), List.getElem?_set_self hi]
        simp
      · rw [if_neg (by omega), List.getElem?_eq_none (by simpa using hi),
          List.getElem?_eq_none (by omega)]
    · rw [List.getElem?_set_ne (by omega)]
      have hsub : i - off = i - (off + 1) + 1 := by omega
      by_cases hi : off + 1 ≤ i ∧ i < off + 1 + bs.length ∧ i < v.length
      · rw [if_pos hi, if_pos (by omega), hsub, List.getElem?_cons_succ]
      · rw [if_neg hi, if_neg (by omega)]

/-- A slice that a write covers exactly reads back what was written. -/
theorem slice_write_self {v bs : List UInt8} {off : Nat} (h : off + bs.length ≤ v.length) :
    slice (write v off bs) off bs.length = bs := by
  apply List.ext_getElem?
  intro i
  rw [getElem?_slice]
  split
  · rw [getElem?_write, if_pos (by omega), Nat.add_sub_cancel_left]
  · rw [List.getElem?_eq_none (by omega)]

/-- Part of what was written, read back. -/
theorem slice_write_inside {v bs : List UInt8} {off i n : Nat}
    (h : off + bs.length ≤ v.length) (hi : i + n ≤ bs.length) :
    slice (write v off bs) (off + i) n = slice bs i n := by
  rw [← slice_slice hi, slice_write_self h]

/-- A write leaves alone every slice it does not meet. -/
theorem slice_write_of_disjoint {v bs : List UInt8} {off off' n : Nat}
    (h : off + bs.length ≤ off' ∨ off' + n ≤ off) :
    slice (write v off bs) off' n = slice v off' n := by
  apply slice_ext
  intro i hi
  rw [getElem?_write, if_neg (by omega)]

theorem slice_set_of_disjoint {v : List UInt8} {off off' n : Nat} {b : UInt8}
    (h : off < off' ∨ off' + n ≤ off) : slice (v.set off b) off' n = slice v off' n := by
  have hwrite : slice (write v off [b]) off' n = slice v off' n := slice_write_of_disjoint h
  exact hwrite

/-- A byte set inside a slice is set in the slice. -/
theorem slice_set_inside (v : List UInt8) (off n i : Nat) (b : UInt8) :
    slice (v.set (off + i) b) off n = (slice v off n).set i b := by
  rw [slice, slice, List.drop_set, if_neg (by omega), List.take_set, Nat.add_sub_cancel_left]

theorem slice_putLE_of_disjoint {m : Nat} {v : List UInt8} {off off' n x : Nat}
    (h : off + m ≤ off' ∨ off' + n ≤ off) : slice (putLE m v off x) off' n = slice v off' n :=
  slice_write_of_disjoint (by simpa using h)

theorem byteAt_write_of_disjoint {v bs : List UInt8} {off i : Nat}
    (h : i < off ∨ off + bs.length ≤ i) : byteAt (write v off bs) i = byteAt v i := by
  rw [byteAt, byteAt, List.getD_eq_getElem?_getD, List.getD_eq_getElem?_getD, getElem?_write,
    if_neg (by omega)]

theorem byteAt_write_inside {v bs : List UInt8} {off i : Nat} (h : off + bs.length ≤ v.length)
    (hi : i < bs.length) : byteAt (write v off bs) (off + i) = byteAt bs i := by
  rw [byteAt, byteAt, List.getD_eq_getElem?_getD, List.getD_eq_getElem?_getD, getElem?_write,
    if_pos (by omega), Nat.add_sub_cancel_left]

theorem byteAt_putLE_of_disjoint {n : Nat} {v : List UInt8} {off i x : Nat}
    (h : i < off ∨ off + n ≤ i) : byteAt (putLE n v off x) i = byteAt v i :=
  byteAt_write_of_disjoint (by simpa using h)

theorem byteAt_set_self {v : List UInt8} {off : Nat} {b : UInt8} (h : off < v.length) :
    byteAt (v.set off b) off = b := by
  simp [byteAt, h]

theorem byteAt_set_of_ne {v : List UInt8} {off i : Nat} {b : UInt8} (h : i ≠ off) :
    byteAt (v.set off b) i = byteAt v i := by
  rw [byteAt, byteAt, List.getD_eq_getElem?_getD, List.getD_eq_getElem?_getD,
    List.getElem?_set_ne h.symm]

theorem byteAt_slice {v : List UInt8} {off n i : Nat} (hi : i < n) :
    byteAt (slice v off n) i = byteAt v (off + i) := by
  rw [byteAt, byteAt, List.getD_eq_getElem?_getD, List.getD_eq_getElem?_getD, getElem?_slice,
    if_pos hi]

theorem byteAt_zeros (n i : Nat) : byteAt (zeros n) i = 0 := by
  rw [byteAt, List.getD_eq_getElem?_getD, getElem?_zeros]
  split <;> rfl

/-- A word written after a prefix is read at the prefix's length. -/
theorem getLE_append_toLE {n v off : Nat} {pre post : List UInt8} (h : pre.length = off) :
    getLE n (pre ++ (toLE n v ++ post)) off = v % 256 ^ n := by
  have hself := slice_zero_length (toLE n v)
  rw [length_toLE] at hself
  rw [getLE, slice_append_right h.le, h, Nat.sub_self, slice_append_left (by simp), hself, ofLE_toLE]

theorem getLE_set_of_disjoint {n : Nat} {v : List UInt8} {off off' : Nat} {b : UInt8}
    (h : off < off' ∨ off' + n ≤ off) : getLE n (v.set off b) off' = getLE n v off' := by
  rw [getLE, getLE, slice_set_of_disjoint h]

theorem getLE_putLE_self {n : Nat} {v : List UInt8} {off x : Nat} (h : off + n ≤ v.length) :
    getLE n (putLE n v off x) off = x % 256 ^ n := by
  have hslice : slice (write v off (toLE n x)) off (toLE n x).length = toLE n x :=
    slice_write_self (by simpa using h)
  rw [length_toLE] at hslice
  rw [getLE, putLE, hslice, ofLE_toLE]

theorem getLE_write_of_disjoint {m : Nat} {v bs : List UInt8} {off off' : Nat}
    (h : off + bs.length ≤ off' ∨ off' + m ≤ off) :
    getLE m (write v off bs) off' = getLE m v off' := by
  rw [getLE, getLE, slice_write_of_disjoint h]

theorem getLE_putLE_of_disjoint {n m : Nat} {v : List UInt8} {off off' x : Nat}
    (h : off + n ≤ off' ∨ off' + m ≤ off) :
    getLE m (putLE n v off x) off' = getLE m v off' :=
  getLE_write_of_disjoint (by simpa using h)

/-! ## Zero padding -/

/-- `bs` followed by zeros up to `n` bytes. -/
def padTo (n : Nat) (bs : List UInt8) : List UInt8 := bs ++ zeros (n - bs.length)

theorem length_padTo {n : Nat} {bs : List UInt8} (h : bs.length ≤ n) :
    (padTo n bs).length = n := by
  simp [padTo, h, zeros]

theorem padTo_of_length_eq {n : Nat} {bs : List UInt8} (h : bs.length = n) :
    padTo n bs = bs := by
  simp [padTo, h, zeros]

/-- Padding shows only past the end, where every byte string reads as zeros. -/
theorem byteAt_padTo (n : Nat) (bs : List UInt8) (i : Nat) : byteAt (padTo n bs) i = byteAt bs i := by
  rw [byteAt, byteAt, List.getD_eq_getElem?_getD, List.getD_eq_getElem?_getD, padTo]
  rcases Nat.lt_or_ge i bs.length with hi | hi
  · rw [List.getElem?_append_left hi]
  · rw [List.getElem?_append_right hi, List.getElem?_eq_none hi, getElem?_zeros]
    split <;> rfl

/-- Copying `bs` to the front of a blank buffer pads it with zeros. -/
theorem write_zeros {n : Nat} {bs : List UInt8} (h : bs.length ≤ n) :
    write (zeros n) 0 bs = padTo n bs := by
  apply List.ext_getElem?
  intro i
  rw [getElem?_write, padTo, length_zeros]
  by_cases hi : i < bs.length
  · rw [if_pos (by omega), List.getElem?_append_left hi, Nat.sub_zero]
  · rw [if_neg (by omega), List.getElem?_append_right (by omega)]
    simp only [getElem?_zeros]
    congr 1
    exact propext ⟨fun _ => by omega, fun _ => by omega⟩

/-- A write behind a prefix leaves the prefix alone. -/
theorem write_append_add (pre v : List UInt8) (off : Nat) (bs : List UInt8) :
    write (pre ++ v) (pre.length + off) bs = pre ++ write v off bs := by
  induction bs generalizing v off with
  | nil => rfl
  | cons b bs ih =>
    rw [write, write, ← ih, List.set_append_right _ _ (Nat.le_add_right _ _),
      Nat.add_sub_cancel_left, Nat.add_assoc]

/-- Filling a blank buffer from front to back. -/
theorem write_append_zeros {pre bs : List UInt8} {off n : Nat} (hpre : pre.length = off)
    (h : bs.length ≤ n) :
    write (pre ++ zeros n) off bs = (pre ++ bs) ++ zeros (n - bs.length) := by
  subst hpre
  have hwrite := write_append_add pre (zeros n) 0 bs
  rw [Nat.add_zero, write_zeros h] at hwrite
  rw [hwrite, padTo, List.append_assoc]

/-! ## Tables -/

section Table

variable (n base : Nat) (f : Nat → Nat) (v : List UInt8)

/-- A table of `n` little-endian 64-bit words from offset `base` on. -/
abbrev putTable : List UInt8 :=
  (List.range n).foldl (fun v i => putLE 8 v (base + i * 8) (f i)) v

theorem putTable_succ :
    putTable (n + 1) base f v = putLE 8 (putTable n base f v) (base + n * 8) (f n) := by
  simp [putTable, List.range_succ]

@[simp] theorem length_putTable : (putTable n base f v).length = v.length := by
  induction n with
  | zero => rfl
  | succ n ih => rw [putTable_succ, length_putLE, ih]

variable {n base v}

theorem getLE_putTable_of_disjoint {off : Nat} (h : off + 8 ≤ base ∨ base + n * 8 ≤ off) :
    getLE 8 (putTable n base f v) off = getLE 8 v off := by
  induction n with
  | zero => rfl
  | succ n ih => rw [putTable_succ, getLE_putLE_of_disjoint (by omega), ih (by omega)]

theorem getLE_putTable {i : Nat} (hi : i < n) (h : base + n * 8 ≤ v.length) :
    getLE 8 (putTable n base f v) (base + i * 8) = f i % 256 ^ 8 := by
  induction n with
  | zero => exact absurd hi (Nat.not_lt_zero i)
  | succ n ih =>
    rw [putTable_succ]
    rcases Nat.lt_succ_iff_lt_or_eq.mp hi with hlt | rfl
    · rw [getLE_putLE_of_disjoint (by omega), ih hlt (by omega)]
    · exact getLE_putLE_self (by rw [length_putTable]; omega)

end Table

end Bytes
