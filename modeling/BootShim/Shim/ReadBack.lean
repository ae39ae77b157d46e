-- SUMMARY: The builder's data block and the shims' walk over it: what goes in comes out, and nothing else of the page is touched.
import BootShim.Shim.Walk

/-!
# Packing and reading back

The builder packs the entry point and the ranges into the shim's page, the shims read
them back until a pair of zeros. Here the walk keeps count of what it loads, so that it
can be said to stay inside the data block; `nextRange_round` ties it to the code.
-/

namespace BootShim.Shim

open Bytes Checked Image Layout

/-! ## The walk, with its loads -/

/-- How far a shim has come in its data block. `rbp` and `reads` are offsets into its page. -/
structure Scan where
  rbp : Nat
  /-- The ranges called for. -/
  ranges : List (Nat × Nat)
  /-- The words loaded. -/
  reads : List Nat
  deriving DecidableEq, Repr

/-- Behind `add $8, %rbp`. -/
def Scan.start : Scan := { rbp := shimData + 8, ranges := [], reads := [] }

/-- One round of `accept_next` or `validate_next`: whether it was the last, and where it
    leaves the walk. -/
def Scan.round (pg : List UInt8) (w : Scan) : Bool × Scan :=
  let lo := getLE 8 pg w.rbp
  let hi := getLE 8 pg (w.rbp + 8)
  let w := { w with reads := w.reads ++ [w.rbp, w.rbp + 8] }
  if lo ||| hi = 0 then (true, w)
  else (false, { w with rbp := w.rbp + 16, ranges := w.ranges ++ [(lo, hi)] })

/-- The loop, for so many rounds at most. -/
def Scan.run (pg : List UInt8) : Nat → Scan → Option Scan
  | 0, _ => none
  | fuel + 1, w =>
    match w.round pg with
    | (true, w) => some w
    | (false, w) => Scan.run pg fuel w

/-- What a shim makes of its page. -/
structure Reading where
  entry : Nat
  ranges : List (Nat × Nat)
  reads : List Nat
  deriving DecidableEq, Repr

/-- The walk, and then the load of the entry point it jumps to. -/
def readShim (fuel : Nat) (pg : List UInt8) : Option Reading :=
  (Scan.start.run pg fuel).map fun w =>
    { entry := getLE 8 pg shimData, ranges := w.ranges, reads := w.reads ++ [shimData] }

/-- `nextRange` does to the processor what a round does to the walk. -/
theorem nextRange_round {L : Type} {s : Cpu L} {pg : List UInt8} {base ret : Nat} {w : Scan}
    (hshim : s.mem.Holds base pg) (hrbp : s.rbp = base + w.rbp) (hfit : w.rbp + 16 ≤ pg.length)
    (hbase : base + pg.length < 2 ^ 64) (finished range : L) :
    match w.round pg with
    | (true, _) => (nextRange ret finished range s).pc = finished
    | (false, w') =>
      (nextRange ret finished range s).pc = range ∧
        (nextRange ret finished range s).rbp = base + w'.rbp ∧
          w'.ranges = w.ranges ++
            [((nextRange ret finished range s).r12, (nextRange ret finished range s).r13)] := by
  have hlo : s.mem.word s.rbp = getLE 8 pg w.rbp := by
    rw [hrbp]
    exact hshim.word (by omega)
  have hhi : s.mem.word (addU64 s.rbp 8) = getLE 8 pg (w.rbp + 8) := by
    rw [hrbp, addU64_of_lt (by omega), Nat.add_assoc]
    exact hshim.word (by omega)
  have hnext : addU64 s.rbp 16 = base + (w.rbp + 16) := by
    rw [hrbp, addU64_of_lt (by omega), Nat.add_assoc]
  by_cases hend : getLE 8 pg w.rbp ||| getLE 8 pg (w.rbp + 8) = 0
  · simp only [Scan.round, nextRange, hlo, hhi, hend, if_true]
  · simp only [Scan.round, nextRange, hlo, hhi, hnext, hend, if_false]
    exact ⟨trivial, rfl, rfl⟩

/-! ## Where it reads -/

/-- The words of `n` pairs from offset `off` on. -/
def wordsOf (off n : Nat) : List Nat := (List.range (2 * n)).map fun i => off + 8 * i

theorem wordsOf_succ (off n : Nat) : wordsOf off (n + 1) = [off, off + 8] ++ wordsOf (off + 16) n := by
  refine List.ext_getElem (by simp [wordsOf]; omega) fun i hi _ => ?_
  match i with
  | 0 => simp [wordsOf]
  | 1 => simp [wordsOf]
  | i + 2 =>
    simp only [wordsOf, List.getElem_map, List.getElem_range, List.cons_append, List.nil_append,
      List.getElem_cons_succ]
    omega

theorem mem_wordsOf {off n a : Nat} (ha : a ∈ wordsOf off n) : off ≤ a ∧ a + 8 ≤ off + 16 * n := by
  simp only [wordsOf, List.mem_map, List.mem_range] at ha
  obtain ⟨i, hi, rfl⟩ := ha
  omega

/-- The loop calls for the ranges `walkRanges` lists, and loads their words and the two
    that end the list. -/
theorem Scan.run_eq (pg : List UInt8) (fuel : Nat) (w : Scan) :
    w.run pg fuel = (walkRanges fuel pg w.rbp).map fun rs =>
      { rbp := w.rbp + 16 * rs.length
        ranges := w.ranges ++ rs
        reads := w.reads ++ wordsOf w.rbp (rs.length + 1) } := by
  induction fuel generalizing w with
  | zero => rfl
  | succ fuel ih =>
    by_cases hend : getLE 8 pg w.rbp ||| getLE 8 pg (w.rbp + 8) = 0
    · simp only [Scan.run, Scan.round, walkRanges, hend, if_true, Option.map_some, List.length_nil,
        Nat.mul_zero, Nat.add_zero, List.append_nil]
      rfl
    · simp only [Scan.run, Scan.round, walkRanges, hend, if_false, ih, Option.map_map]
      refine Option.map_congr fun rs _ => ?_
      simp only [Function.comp_apply, List.length_cons, wordsOf_succ w.rbp (rs.length + 1),
        List.append_assoc, List.singleton_append]
      rw [Nat.add_assoc, Nat.add_comm 16, Nat.mul_succ]

/-! ## The round trip -/

/-- A range as the builder's numbers have it. -/
def natRange (r : UInt64 × UInt64) : Nat × Nat := (r.1.toNat, r.2.toNat)

/-- How many bytes the block of so many ranges takes. -/
def blockSize (n : Nat) : Nat := 8 + 16 * (n + 1)

/-- The shim reads the entry point and the ranges out of its page: however many rounds it
    is given beyond the number of ranges, it stops, and never loads a word from outside
    the data block. -/
def ReadsBack (entry : Nat) (ranges : List (Nat × Nat)) (pg : List UInt8) : Prop :=
  ∀ fuel, ranges.length < fuel → ∃ reads,
    readShim fuel pg = some { entry := entry, ranges := ranges, reads := reads } ∧
      ∀ off ∈ reads, shimData ≤ off ∧ off + 8 ≤ shimData + shimDataSize

/-- The page is the blob but for the first `n` bytes of the data block; the code and the
    reset vector are the blob's. -/
structure Undisturbed (blob pg : List UInt8) (n : Nat) : Prop where
  length : pg.length = blob.length
  frame : ∀ off, off < shimData ∨ shimData + n ≤ off → pg[off]? = blob[off]?
  code : pg.take shimData = blob.take shimData
  vector : pg.drop resetVector = blob.drop resetVector

variable {blob : ShimBlob} {pg : List UInt8} {entry : Nat} {ranges : List (Nat × Nat)}

/-- Packing fails for want of room or because code is in the way. -/
theorem shim_error_iff (blob : ShimBlob) (entry : Nat) (ranges : List (Nat × Nat)) :
    (∃ e, shim blob.bytes entry ranges = .error e) ↔
      shimDataSize < blockSize ranges.length ∨
        ∃ off < blockSize ranges.length, byteAt blob.bytes (shimData + off) ≠ 0 := by
  have hlen : (shimDataBlock entry ranges).length = blockSize ranges.length := by
    rw [length_shimDataBlock, blockSize]
    omega
  have hok : (∃ pg, shim blob.bytes entry ranges = .ok pg) ↔
      blockSize ranges.length ≤ shimDataSize ∧
        ∀ b ∈ slice blob.bytes shimData (blockSize ranges.length), b = 0 := by
    simp only [shim_eq_ok, hlen, exists_and_left, exists_eq, and_true]
  have hsplit : (∃ e, shim blob.bytes entry ranges = .error e) ↔
      ¬ ∃ pg, shim blob.bytes entry ranges = .ok pg := by
    cases shim blob.bytes entry ranges <;> simp
  have hclean : (∀ b ∈ slice blob.bytes shimData (blockSize ranges.length), b = 0) ↔
      ∀ off < blockSize ranges.length, byteAt blob.bytes (shimData + off) = 0 :=
    forall_mem_slice_eq_zero
  rw [hsplit, hok, not_and_or, Nat.not_le, hclean]
  simp only [not_forall, exists_prop]

theorem readsBack_of_shim (h : shim blob.bytes entry ranges = .ok pg) (hentry : entry < 2 ^ 64)
    (hranges : ∀ r ∈ ranges, r.1 < r.2 ∧ r.2 < 2 ^ 64) : ReadsBack entry ranges pg := by
  intro fuel hfuel
  have hfit := (shim_eq_ok.mp h).1
  rw [length_shimDataBlock] at hfit
  refine ⟨wordsOf (shimData + 8) (ranges.length + 1) ++ [shimData], ?_, fun off hoff => ?_⟩
  · have hwalk := walkRanges_shim h hranges hfuel
    simp only [readShim, Scan.run_eq, Scan.start, hwalk, Option.map_some, getLE_shim_entry h,
      Nat.mod_eq_of_lt hentry, List.nil_append]
  · rcases List.mem_append.mp hoff with hoff | hoff
    · have hbounds := mem_wordsOf hoff
      omega
    · rw [List.mem_singleton.mp hoff]
      omega

theorem undisturbed_of_shim (h : shim blob.bytes entry ranges = .ok pg) :
    Undisturbed blob.bytes pg (blockSize ranges.length) := by
  obtain ⟨hfit, -, hpg⟩ := shim_eq_ok.mp h
  rw [length_shimDataBlock] at hfit
  have hframe : ∀ off, off < shimData ∨ shimData + blockSize ranges.length ≤ off →
      pg[off]? = blob.bytes[off]? := by
    intro off hoff
    rw [hpg, getElem?_write, length_shimDataBlock, if_neg]
    simp only [blockSize] at hoff
    omega
  refine ⟨by rw [hpg, length_write], hframe, ?_, ?_⟩
  · refine List.ext_getElem? fun off => ?_
    rw [List.getElem?_take, List.getElem?_take]
    split
    · exact hframe off (Or.inl ‹_›)
    · rfl
  · refine List.ext_getElem? fun off => ?_
    rw [List.getElem?_drop, List.getElem?_drop, hframe]
    right
    simp only [blockSize, shimDataSize] at hfit ⊢
    omega

/-- What the builder packs, both shims read back: packing fails exactly when the block has
    no room or code is in the way, and otherwise the walk stops inside the block with the
    entry point and the ranges, and the rest of the page is the blob's. -/
theorem shim_roundTrip (blob : ShimBlob) (entry : UInt64) (ranges : List (UInt64 × UInt64))
    (hranges : ∀ r ∈ ranges, r.1 < r.2) :
    ((∃ e, shim blob.bytes entry.toNat (ranges.map natRange) = .error e) ↔
      shimDataSize < blockSize ranges.length ∨
        ∃ off < blockSize ranges.length, byteAt blob.bytes (shimData + off) ≠ 0) ∧
    ∀ pg, shim blob.bytes entry.toNat (ranges.map natRange) = .ok pg →
      ReadsBack entry.toNat (ranges.map natRange) pg ∧
        Undisturbed blob.bytes pg (blockSize ranges.length) := by
  have hlen : (ranges.map natRange).length = ranges.length := List.length_map _
  have hnat : ∀ r ∈ ranges.map natRange, r.1 < r.2 ∧ r.2 < 2 ^ 64 := by
    intro r hr
    obtain ⟨q, hq, rfl⟩ := List.mem_map.mp hr
    exact ⟨UInt64.lt_iff_toNat_lt.mp (hranges q hq), q.2.toNat_lt⟩
  rw [← hlen]
  exact ⟨shim_error_iff blob _ _, fun pg h =>
    ⟨readsBack_of_shim h entry.toNat_lt hnat, undisturbed_of_shim h⟩⟩

theorem shim_roundTrip_sample :
    ∃ pg, shim (zeros page) 0x1000200 [(0x1000, 0x9f000), (0x100000, 0x200000)] = .ok pg ∧
      ReadsBack 0x1000200 [(0x1000, 0x9f000), (0x100000, 0x200000)] pg ∧
        Undisturbed (zeros page) pg 56 := by
  have hok : shim (zeros page) 0x1000200 [(0x1000, 0x9f000), (0x100000, 0x200000)] =
      .ok (write (zeros page) shimData
        (shimDataBlock 0x1000200 [(0x1000, 0x9f000), (0x100000, 0x200000)])) := by
    rw [shim_eq_ok, length_shimDataBlock, slice_zeros (by decide)]
    exact ⟨by decide, fun b hb => List.eq_of_mem_replicate hb, rfl⟩
  have hback := shim_roundTrip ⟨zeros page, length_zeros page⟩ 0x1000200
    [(0x1000, 0x9f000), (0x100000, 0x200000)] (by simp)
  exact ⟨_, hok, hback.2 _ hok⟩

end BootShim.Shim
