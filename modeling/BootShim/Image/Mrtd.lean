-- SUMMARY: The byte stream behind an MRTD commits to the pages and their places (`src/mrtd.rs`).
import BootShim.Image.Build
import BootShim.Lib.Commitment

/-!
# The MRTD stream

What `calculate` hashes is a row of blocks of one length, one block a page: a record
that adds the page, then a record and 256 bytes for each chunk of it. No length is
written anywhere, and a page may well hold bytes that look like records; the stream is
unambiguous because every block is as long as the next.
-/

namespace BootShim.Mrtd

open Bytes Layout

/-- What the hash reads. -/
def stream (pages : List (Nat × List UInt8)) : List UInt8 := pages.flatMap pageStream

/-- The pages of a launch: whole ones, on page boundaries below the last page of the space. -/
def Measurable (pages : List (Nat × List UInt8)) : Prop :=
  ∀ p ∈ pages, p.2.length = page ∧ p.1 % page = 0 ∧ p.1 < 2 ^ 64 - page

/-! ## Records -/

/-- A record of the specification: a name, zeros up to the address, and zeros behind it. -/
def block (name : List UInt8) (gpa : Nat) : List UInt8 :=
  padTo mrGpa name ++ toLE 8 gpa ++ zeros (mrRecordLen - mrGpa - 8)

def memPageAdd (gpa : Nat) : List UInt8 :=
  block [0x4d, 0x45, 0x4d, 0x2e, 0x50, 0x41, 0x47, 0x45, 0x2e, 0x41, 0x44, 0x44] gpa

def mrExtend (gpa : Nat) : List UInt8 :=
  block [0x4d, 0x52, 0x2e, 0x45, 0x58, 0x54, 0x45, 0x4e, 0x44] gpa

theorem record_eq_block {name : List UInt8} (hname : name.length ≤ mrGpa) (gpa : Nat) :
    record name gpa = block name gpa := by
  have hlen : (padTo mrGpa name).length = mrGpa := length_padTo hname
  have hfront : write (zeros mrRecordLen) 0 name =
      padTo mrGpa name ++ zeros (mrRecordLen - mrGpa) := by
    have hsplit : mrRecordLen - name.length = mrGpa - name.length + (mrRecordLen - mrGpa) := by
      simp only [mrRecordLen, mrGpa] at *
      omega
    rw [write_zeros (hname.trans (by decide)), padTo, padTo, hsplit, zeros, List.replicate_add,
      List.append_assoc]
    rfl
  rw [record, hfront, putLE, write_append_zeros hlen (by simp), length_toLE, block]

theorem length_block {name : List UInt8} (hname : name.length ≤ mrGpa) (gpa : Nat) :
    (block name gpa).length = mrRecordLen := by
  rw [block, List.length_append, List.length_append, length_padTo hname, length_toLE, length_zeros]
  rfl

/-- A record settles its address. -/
theorem block_injective {name : List UInt8} {gpa gpa' : Nat} (hgpa : gpa < 2 ^ 64)
    (hgpa' : gpa' < 2 ^ 64) (h : block name gpa = block name gpa') : gpa = gpa' := by
  rw [block, block, List.append_assoc, List.append_assoc] at h
  have hfield : toLE 8 gpa = toLE 8 gpa' :=
    List.append_inj_left (List.append_cancel_left h) (by simp)
  exact toLE_injective hgpa hgpa' hfield

theorem addRecord_eq (gpa : Nat) : addRecord gpa = memPageAdd gpa := record_eq_block (by decide) gpa

theorem extendRecord_eq (gpa : Nat) : extendRecord gpa = mrExtend gpa :=
  record_eq_block (by decide) gpa

theorem length_memPageAdd (gpa : Nat) : (memPageAdd gpa).length = mrRecordLen :=
  length_block (by decide) gpa

theorem length_mrExtend (gpa : Nat) : (mrExtend gpa).length = mrRecordLen :=
  length_block (by decide) gpa

/-! ## Pages -/

/-- Consecutive slices of one length make up the buffer. -/
theorem flatMap_slice (v : List UInt8) (n k : Nat) :
    (List.range k).flatMap (fun i => slice v (i * n) n) = slice v 0 (k * n) := by
  induction k with
  | zero => simp [slice]
  | succ k ih =>
    rw [List.range_succ, List.flatMap_append, ih, List.flatMap_singleton, Nat.succ_mul,
      slice_append_slice, Nat.zero_add]

/-- The chunks of a page are the page. -/
theorem flatMap_chunks {data : List UInt8} (h : data.length = page) :
    (List.range (page / mrExtendChunk)).flatMap
      (fun i => slice data (i * mrExtendChunk) mrExtendChunk) = data := by
  have hall : page / mrExtendChunk * mrExtendChunk = data.length := h.symm
  rw [flatMap_slice, hall, slice_zero_length]

/-- The block of a page: its MEM.PAGE.ADD, and an MR.EXTEND before each chunk. -/
def pageBlock (p : Nat × List UInt8) : List UInt8 :=
  memPageAdd p.1 ++ (List.range (page / mrExtendChunk)).flatMap fun i =>
    mrExtend (p.1 + i * mrExtendChunk) ++ slice p.2 (i * mrExtendChunk) mrExtendChunk

theorem pageStream_eq {p : Nat × List UInt8} (h : p.1 < 2 ^ 64 - page) :
    pageStream p = pageBlock p := by
  rw [pageStream, pageBlock, addRecord_eq]
  congr 1
  refine List.flatMap_congr fun i hi => ?_
  have hlt : i < page / mrExtendChunk := List.mem_range.mp hi
  have hsum : p.1 + i * mrExtendChunk < 2 ^ 64 := by
    simp only [page, mrExtendChunk] at *
    omega
  rw [extendRecord_eq, addU64_of_lt hsum]

private theorem length_chunk {data : List UInt8} (h : data.length = page) {i : Nat}
    (hi : i ∈ List.range (page / mrExtendChunk)) (gpa : Nat) :
    (mrExtend gpa ++ slice data (i * mrExtendChunk) mrExtendChunk).length =
      mrRecordLen + mrExtendChunk := by
  have hlt : i < page / mrExtendChunk := List.mem_range.mp hi
  rw [List.length_append, length_mrExtend, length_slice, h]
  simp only [page, mrExtendChunk, mrRecordLen] at *
  omega

/-- Every block has one length. -/
theorem length_pageBlock {p : Nat × List UInt8} (h : p.2.length = page) :
    (pageBlock p).length =
      mrRecordLen + page / mrExtendChunk * (mrRecordLen + mrExtendChunk) := by
  have hchunk : ∀ i ∈ List.range (page / mrExtendChunk), _ := fun i hi =>
    length_chunk h hi (p.1 + i * mrExtendChunk)
  rw [pageBlock, List.length_append, length_memPageAdd, Commitment.length_flatMap_blocks hchunk,
    List.length_range]

/-- A block settles its page: the address stands in the first record, and the bytes are
    those behind the others. -/
theorem pageBlock_injective {p q : Nat × List UInt8} (hp : p.2.length = page)
    (hq : q.2.length = page) (hp' : p.1 < 2 ^ 64 - page) (hq' : q.1 < 2 ^ 64 - page)
    (h : pageBlock p = pageBlock q) : p = q := by
  rw [pageBlock, pageBlock] at h
  obtain ⟨hadd, hchunks⟩ :=
    List.append_inj h ((length_memPageAdd p.1).trans (length_memPageAdd q.1).symm)
  have hgpa : p.1 = q.1 := block_injective (by omega) (by omega) hadd
  rw [hgpa] at hchunks
  have hslices : ∀ i ∈ List.range (page / mrExtendChunk),
      slice p.2 (i * mrExtendChunk) mrExtendChunk = slice q.2 (i * mrExtendChunk) mrExtendChunk := by
    intro i hi
    refine List.append_cancel_left (Commitment.forall_eq_of_flatMap_eq (fun j hj => ?_) hchunks i hi)
    rw [length_chunk hp hj, length_chunk hq hj]
  have hdata : p.2 = q.2 := by
    rw [← flatMap_chunks hp, ← flatMap_chunks hq]
    exact List.flatMap_congr hslices
  exact Prod.ext hgpa hdata

/-! ## The stream -/

/-- What the stream of a list of pages is: the bytes behind the digest are a row of blocks
    of records of 128 bytes, in which the chunks of each page make up the page. -/
structure Committed (pages : List (Nat × List UInt8)) : Prop where
  hashed : ∀ hashes : Igvm.Hashes, calculate hashes pages = hashes.sha384 (stream pages)
  blocks : stream pages = pages.flatMap pageBlock
  records : ∀ gpa, (memPageAdd gpa).length = 128 ∧ (mrExtend gpa).length = 128
  chunks : ∀ p ∈ pages, (List.range 16).flatMap (fun i => slice p.2 (i * 256) 256) = p.2
  length : (stream pages).length = pages.length * (17 * 128 + 4096)

theorem stream_eq {pages : List (Nat × List UInt8)} (h : Measurable pages) :
    stream pages = pages.flatMap pageBlock :=
  List.flatMap_congr fun p hp => pageStream_eq (h p hp).2.2

theorem committed {pages : List (Nat × List UInt8)} (h : Measurable pages) : Committed pages where
  hashed _ := rfl
  blocks := stream_eq h
  records gpa := ⟨length_memPageAdd gpa, length_mrExtend gpa⟩
  chunks p hp := flatMap_chunks (h p hp).1
  length := by
    rw [stream_eq h, Commitment.length_flatMap_blocks fun p hp => length_pageBlock (h p hp).1]
    rfl

section

variable {pages pages' : List (Nat × List UInt8)} (h : Measurable pages) (h' : Measurable pages')

include h h'

private theorem blocks_injective : ∀ p ∈ pages, ∀ q ∈ pages', pageBlock p = pageBlock q → p = q :=
  fun p hp q hq => pageBlock_injective (h p hp).1 (h' q hq).1 (h p hp).2.2 (h' q hq).2.2

theorem stream_eq_iff : stream pages = stream pages' ↔ pages = pages' := by
  rw [stream_eq h, stream_eq h']
  exact Commitment.flatMap_eq_iff (by decide) (fun p hp => length_pageBlock (h p hp).1)
    (fun p hp => length_pageBlock (h' p hp).1) (blocks_injective h h')

theorem stream_isPrefix_iff : stream pages <+: stream pages' ↔ pages <+: pages' := by
  rw [stream_eq h, stream_eq h']
  exact Commitment.flatMap_prefix_iff (by decide) (fun p hp => length_pageBlock (h p hp).1)
    (fun p hp => length_pageBlock (h' p hp).1) (blocks_injective h h')

end

/-- The stream commits to every page and its place: equal streams are of equal lists, and
    one stream begins another only where its list does. -/
theorem stream_binds {pages pages' : List (Nat × List UInt8)} (h : Measurable pages)
    (h' : Measurable pages') :
    (stream pages = stream pages' ↔ pages = pages') ∧
      (stream pages <+: stream pages' ↔ pages <+: pages') ∧ Committed pages :=
  ⟨stream_eq_iff h h', stream_isPrefix_iff h h', committed h⟩

/-- A page that holds the record of another is not taken for it. -/
theorem stream_binds_sample :
    stream [(0x1000, padTo page (memPageAdd 0x2000)), (0x2000, zeros page)] ≠
      stream [(0x1000, zeros page), (0x2000, zeros page)] := by
  have h : Measurable [(0x1000, padTo page (memPageAdd 0x2000)), (0x2000, zeros page)] := by
    refine List.forall_mem_cons.mpr ⟨⟨?_, by decide⟩, List.forall_mem_singleton.mpr ⟨?_, by decide⟩⟩
    · exact length_padTo ((length_memPageAdd _).le.trans (by decide))
    · exact length_zeros page
  have h' : Measurable [(0x1000, zeros page), (0x2000, zeros page)] :=
    List.forall_mem_cons.mpr ⟨⟨length_zeros page, by decide⟩,
      List.forall_mem_singleton.mpr ⟨length_zeros page, by decide⟩⟩
  intro heq
  have hpages := (stream_binds h h').1.mp heq
  have hdata : padTo page (memPageAdd 0x2000) = zeros page :=
    (Prod.ext_iff.mp (List.cons.inj hpages).1).2
  have hbyte := congrArg (fun v => byteAt v 0) hdata
  rw [byteAt_padTo, byteAt_zeros] at hbyte
  revert hbyte
  decide

end BootShim.Mrtd
