-- SUMMARY: A byte-addressed memory: words, stores, cleared ranges, and what a store leaves alone.
import BootShim.Lib.Bytes
import Mathlib.Data.List.GetD

/-!
# Memories

A memory maps each address to a byte. `Holds` says that a byte string lies at an
address; stores and clears away from it keep it there.
-/

open Bytes

/-- A byte at each address. -/
abbrev Memory := Nat → UInt8

namespace Memory

/-- The little-endian 64-bit word at an address. -/
def word (m : Memory) (a : Nat) : Nat := ofLE ((List.range 8).map fun i => m (a + i))

/-- The little-endian number in `n` bytes from an address on. -/
def read (m : Memory) (n a : Nat) : Nat := ofLE ((List.range n).map fun i => m (a + i))

/-- The memory with `bs` written at `a`. -/
def store (m : Memory) (a : Nat) (bs : List UInt8) : Memory :=
  fun x => if a ≤ x ∧ x < a + bs.length then byteAt bs (x - a) else m x

/-- The memory with `n` zeros written at `a`. -/
def clear (m : Memory) (a n : Nat) : Memory :=
  fun x => if a ≤ x ∧ x < a + n then 0 else m x

/-- The byte string lies at the address. -/
def Holds (m : Memory) (a : Nat) (bs : List UInt8) : Prop :=
  ∀ i < bs.length, m (a + i) = byteAt bs i

variable {m : Memory} {a b n : Nat} {bs cs : List UInt8}

theorem store_of_not_mem {x : Nat} (h : x < a ∨ a + bs.length ≤ x) : m.store a bs x = m x :=
  if_neg (by omega)

theorem clear_of_not_mem {x : Nat} (h : x < a ∨ a + n ≤ x) : m.clear a n x = m x :=
  if_neg (by omega)

theorem clear_of_mem {x : Nat} (h : a ≤ x ∧ x < a + n) : m.clear a n x = 0 := if_pos h

theorem clear_zero (m : Memory) (a : Nat) : m.clear a 0 = m := by
  funext x
  exact clear_of_not_mem (by omega)

/-- Clearing two ranges that follow each other clears one. -/
theorem clear_clear (m : Memory) (a k n : Nat) :
    (m.clear a k).clear (a + k) n = m.clear a (k + n) := by
  funext x
  simp only [clear]
  split_ifs <;> first | rfl | omega

theorem store_zeros (m : Memory) (a n : Nat) : m.store a (zeros n) = m.clear a n := by
  funext x
  have hbyte : byteAt (zeros n) (x - a) = 0 := by
    rw [byteAt, List.getD_eq_getElem?_getD, getElem?_zeros]
    split <;> rfl
  simp only [store, clear, length_zeros, hbyte]

/-- Storing a byte string behind another stores one. -/
theorem store_store (m : Memory) (a : Nat) (bs cs : List UInt8) :
    (m.store a bs).store (a + bs.length) cs = m.store a (bs ++ cs) := by
  funext x
  simp only [store, List.length_append]
  by_cases hx : a ≤ x ∧ x < a + bs.length
  · rw [if_neg (by omega), if_pos hx, if_pos (by omega), byteAt, byteAt,
      List.getD_append _ _ _ _ (by omega)]
  · by_cases hx' : a + bs.length ≤ x ∧ x < a + bs.length + cs.length
    · rw [if_pos hx', if_pos (by omega), byteAt, byteAt,
        List.getD_append_right _ _ _ _ (by omega), Nat.sub_add_eq]
    · rw [if_neg hx', if_neg hx, if_neg (by omega)]

theorem Holds.store_of_disjoint (h : m.Holds b cs) (hd : a + bs.length ≤ b ∨ b + cs.length ≤ a) :
    (m.store a bs).Holds b cs := fun i hi => by
  rw [store_of_not_mem (by omega), h i hi]

theorem Holds.clear_of_disjoint (h : m.Holds b cs) (hd : a + n ≤ b ∨ b + cs.length ≤ a) :
    (m.clear a n).Holds b cs := fun i hi => by
  rw [clear_of_not_mem (by omega), h i hi]

theorem word_congr {m' : Memory} (h : ∀ i < 8, m (a + i) = m' (a + i)) : m.word a = m'.word a := by
  rw [word, word]
  congr 1
  exact List.map_congr_left fun i hi => h i (List.mem_range.mp hi)

theorem word_clear_of_disjoint (hd : a + n ≤ b ∨ b + 8 ≤ a) : (m.clear a n).word b = m.word b :=
  word_congr fun i hi => clear_of_not_mem (by omega)

/-- A number inside a byte string that the memory holds. -/
theorem Holds.read (h : m.Holds a bs) {off : Nat} (hoff : off + n ≤ bs.length) :
    m.read n (a + off) = getLE n bs off := by
  rw [Memory.read, getLE]
  congr 1
  apply List.ext_getElem?
  intro i
  rw [getElem?_slice, List.getElem?_map]
  by_cases hi : i < n
  · have hbyte := h (off + i) (by omega)
    rw [byteAt, List.getD_eq_getElem?_getD, List.getElem?_eq_getElem (by omega), Option.getD_some,
      ← Nat.add_assoc] at hbyte
    rw [if_pos hi, List.getElem?_range hi, List.getElem?_eq_getElem (by omega), Option.map_some, hbyte]
  · rw [if_neg hi, List.getElem?_eq_none (by simpa using hi), Option.map_none]

/-- A word inside a byte string that the memory holds. -/
theorem Holds.word (h : m.Holds a bs) {off : Nat} (hoff : off + 8 ≤ bs.length) :
    m.word (a + off) = getLE 8 bs off := h.read hoff

theorem holds_store_self (m : Memory) (a : Nat) (bs : List UInt8) : (m.store a bs).Holds a bs :=
  fun i hi => by rw [store, if_pos (by omega), Nat.add_sub_cancel_left]

/-- A stored word is read back. -/
theorem word_store_self {v : Nat} (hv : v < 2 ^ 64) : (m.store a (toLE 8 v)).word a = v := by
  have hread : (m.store a (toLE 8 v)).word (a + 0) = getLE 8 (toLE 8 v) 0 :=
    (holds_store_self m a (toLE 8 v)).word (by simp)
  have hself := slice_zero_length (toLE 8 v)
  rw [length_toLE] at hself
  rw [Nat.add_zero, getLE, hself, ofLE_toLE_of_lt hv] at hread
  exact hread

/-! ## Numbers of any width -/

theorem read_congr {m' : Memory} (h : ∀ i < n, m (a + i) = m' (a + i)) : m.read n a = m'.read n a := by
  rw [read, read]
  congr 1
  exact List.map_congr_left fun i hi => h i (List.mem_range.mp hi)

theorem read_lt (m : Memory) (n a : Nat) : m.read n a < 256 ^ n := by
  have hlt := ofLE_lt ((List.range n).map fun i => m (a + i))
  rwa [List.length_map, List.length_range] at hlt

theorem word_lt (m : Memory) (a : Nat) : m.word a < 2 ^ 64 := m.read_lt 8 a

theorem read_store_of_disjoint {k v : Nat} (hd : a + k ≤ b ∨ b + n ≤ a) :
    (m.store a (toLE k v)).read n b = m.read n b :=
  read_congr fun i hi => store_of_not_mem (by rw [length_toLE]; omega)

theorem read_store_self (m : Memory) (n a v : Nat) : (m.store a (toLE n v)).read n a = v % 256 ^ n := by
  have hmap : ((List.range n).map fun i => m.store a (toLE n v) (a + i)) = toLE n v := by
    refine List.ext_getElem (by simp) fun i hi hi' => ?_
    have hbyte := holds_store_self m a (toLE n v) i hi'
    rw [List.getElem_map, List.getElem_range, hbyte, byteAt, List.getD_eq_getElem?_getD,
      List.getElem?_eq_getElem hi', Option.getD_some]
  rw [read, hmap, ofLE_toLE]

/-! ## Loading -/

/-- The memory with each byte string written at its address, in order. -/
def load (m : Memory) (ps : List (Nat × List UInt8)) : Memory :=
  ps.foldl (fun m x => m.store x.1 x.2) m

theorem Holds.load_of_disjoint {ps : List (Nat × List UInt8)} (h : m.Holds b cs)
    (hps : ∀ x ∈ ps, x.1 + x.2.length ≤ b ∨ b + cs.length ≤ x.1) : (m.load ps).Holds b cs := by
  induction ps generalizing m with
  | nil => exact h
  | cons x ps ih =>
    obtain ⟨hx, hps⟩ := List.forall_mem_cons.mp hps
    exact ih (h.store_of_disjoint hx) hps

/-- Byte strings that ascend without meeting all lie in memory once they are loaded. -/
theorem holds_load {ps : List (Nat × List UInt8)}
    (hps : ps.Pairwise fun x y => x.1 + x.2.length ≤ y.1) (h : (a, bs) ∈ ps) :
    (m.load ps).Holds a bs := by
  induction ps generalizing m with
  | nil => exact absurd h List.not_mem_nil
  | cons x ps ih =>
    obtain ⟨hx, hps⟩ := List.pairwise_cons.mp hps
    rcases List.mem_cons.mp h with rfl | h
    · exact (holds_store_self m a bs).load_of_disjoint fun y hy => Or.inr (hx y hy)
    · exact ih hps h

/-- A memory holds one byte string of a length at an address. -/
theorem Holds.unique (hb : m.Holds a bs) (hc : m.Holds a cs) (hlen : bs.length = cs.length) :
    bs = cs := by
  refine List.ext_getElem hlen fun i hi hi' => ?_
  have hbyte : byteAt bs i = byteAt cs i := (hb i hi).symm.trans (hc i hi')
  simpa [byteAt, hi, hi'] using hbyte

/-- The front of what a memory holds. -/
theorem Holds.of_padTo (h : m.Holds a (padTo n bs)) : m.Holds a bs := fun i hi => by
  rw [h i (by rw [padTo, List.length_append]; omega), byteAt_padTo]

end Memory
