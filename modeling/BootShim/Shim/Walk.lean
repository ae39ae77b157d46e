-- SUMMARY: What the two reset shims share: the walk over the packed ranges, by large pages where they fit, and its invariant.
import BootShim.Image.ShimData
import BootShim.Lib.Memory
import BootShim.Lib.PageWalk

/-!
# The walk of a reset shim

Both shims read the ranges in their data block two words at a time and walk each
of them in a subroutine, which tries a 2-MiB page where one fits. The code they share
is here, over the labels of either; they differ in how a page is made private.
-/

namespace BootShim.Shim

open Bytes Image Layout PageWalk

/-- The boot processor. Registers are 64-bit numbers, `L` names the labels of its code. -/
structure Cpu (L : Type) where
  pc : L
  rsp : Nat
  rbp : Nat
  rsi : Nat
  rdi : Nat
  rax : Nat
  rbx : Nat
  rcx : Nat
  rdx : Nat
  r12 : Nat
  r13 : Nat
  r14 : Nat
  r15 : Nat
  /-- The carry flag. -/
  cf : Bool
  mem : Memory
  /-- The pages made private, in order. -/
  taken : List Nat
  /-- Where words have been pushed. -/
  pushed : List Nat
  /-- What `rep stosq` has written, by address and length. -/
  cleared : List (Nat × Nat)

/-- The bytes a 2-MiB page takes. -/
@[simp] abbrev largePage : Nat := 0x200000

variable {L : Type}

/-! ## The shared code -/

/-- `call` and `push`: a word below the stack pointer, which moves down to it. -/
def Cpu.push (s : Cpu L) (v : Nat) : Cpu L :=
  let rsp := addU64 s.rsp (2 ^ 64 - 8)
  { s with rsp := rsp, mem := s.mem.store rsp (toLE 8 v), pushed := s.pushed ++ [rsp] }

/-- `accept_next` and `validate_next`: the next range, or the end of the list at a pair of
    zeros. `ret` is the address behind the call. -/
def nextRange (ret : Nat) (finished range : L) (s : Cpu L) : Cpu L :=
  let s := { s with r12 := s.mem.word s.rbp, r13 := s.mem.word (addU64 s.rbp 8) }
  let s := { s with rax := s.r12 ||| s.r13 }
  if s.rax = 0 then { s with pc := finished }
  else
    let s := { s with rbp := addU64 s.rbp 16 }
    { s.push ret with pc := range }

/-- `accept_range` and `validate_range` up to the first attempt: whether the range is
    done, and which page comes next. -/
def pickPage (finished small large : L) (s : Cpu L) : Cpu L :=
  if s.r13 ≤ s.r12 then { s with pc := finished }
  else if s.r12 &&& 0x1fffff ≠ 0 then { s with pc := small }
  else
    let s := { s with r14 := addU64 s.r12 largePage }
    if s.r13 < s.r14 then { s with pc := small } else { s with pc := large }

/-- `ret`, to behind the call or to wherever else the stack says. -/
def leave (ret : Nat) (next : L) (lost : Nat → L) (s : Cpu L) : Cpu L :=
  let rip := s.mem.word s.rsp
  { s with rsp := addU64 s.rsp 8, pc := if rip = ret then next else lost rip }

/-! ## The setting -/

/-- A shim's page packed with a list of ranges as the builder derives it: whole pages in
    ascending order below the identity map's limit, none of them the shim's own. -/
structure Packed (blob : ShimBlob) (base entry : Nat) (ranges : List (Nat × Nat)) (pg : List UInt8)
    (ret : Nat) : Prop where
  packed : shim blob.bytes entry ranges = .ok pg
  listed : Listed page ranges
  below : ∀ r ∈ ranges, r.2 ≤ mapLimit
  avoids_shim : ∀ r ∈ ranges, r.2 ≤ base ∨ base + page ≤ r.1
  avoids_stack : ∀ r ∈ ranges, r.2 ≤ bspStack ∨ bspStackTop ≤ r.1
  base_ge : bspStackTop ≤ base
  base_le : base + page ≤ 2 ^ 32
  entry_lt : entry < 2 ^ 64
  ret_lt : ret < 2 ^ 64

/-- The address lies in a listed range. -/
def InRanges (ranges : List (Nat × Nat)) (a : Nat) : Prop := ∃ r ∈ ranges, r.1 ≤ a ∧ a < r.2

/-- What no step breaks: the shim's page is intact, and nothing has been written but in
    the ranges and at the top of the stack. -/
structure Sane (base : Nat) (ranges : List (Nat × Nat)) (pg : List UInt8) (m₀ : Memory)
    (s : Cpu L) : Prop where
  shim : s.mem.Holds base pg
  frame : ∀ a, ¬ InRanges ranges a → a < bspStackTop - 8 ∨ bspStackTop ≤ a → s.mem a = m₀ a
  pushed : ∀ a ∈ s.pushed, a = bspStackTop - 8
  cleared : ∀ w ∈ s.cleared, ∃ r ∈ ranges, r.1 ≤ w.1 ∧ w.1 + w.2 ≤ r.2

/-- Between two ranges, with those before done. -/
structure Between (base : Nat) (ranges : List (Nat × Nat)) (s : Cpu L)
    (done rest : List (Nat × Nat)) : Prop where
  split : ranges = done ++ rest
  rsp : s.rsp = bspStackTop
  rbp : s.rbp = base + shimData + (8 + 16 * done.length)
  taken : s.taken = pagesOf page done
  zero : ∀ a, InRanges done a → s.mem a = 0

/-- Inside the call for range `r`: the pages up to `pos` are taken, and those up to
    `clean` read as zeros. -/
structure InCall (base : Nat) (ranges : List (Nat × Nat)) (ret : Nat) (s : Cpu L)
    (done : List (Nat × Nat)) (r : Nat × Nat) (rest : List (Nat × Nat)) (pos clean : Nat) :
    Prop where
  split : ranges = done ++ r :: rest
  rsp : s.rsp = bspStackTop - 8
  ret : s.mem.word (bspStackTop - 8) = ret
  rbp : s.rbp = base + shimData + (8 + 16 * (done.length + 1))
  r13 : s.r13 = r.2
  r12_ge : r.1 ≤ s.r12
  r12_aligned : s.r12 % page = 0
  pos_ge : s.r12 ≤ pos
  pos_le : pos ≤ r.2
  pos_aligned : pos % page = 0
  taken : s.taken = walked page done r pos
  zero : ∀ a, InRanges done a ∨ r.1 ≤ a ∧ a < clean → s.mem a = 0

/-- All ranges are done. -/
structure AllTaken (ranges : List (Nat × Nat)) (s : Cpu L) : Prop where
  taken : s.taken = pagesOf page ranges
  zero : ∀ a, InRanges ranges a → s.mem a = 0

/-- What there is left to do in pages and ranges, in units that outweigh a label. -/
def left (base : Nat) (ranges : List (Nat × Nat)) (s : Cpu L) : Nat :=
  8 * ((pagesOf page ranges).length - s.taken.length) +
    (base + shimData + (8 + 16 * ranges.length) - s.rbp)

variable {blob : ShimBlob} {base entry ret : Nat} {ranges done rest : List (Nat × Nat)}
  {r : Nat × Nat} {pg : List UInt8} {m₀ : Memory} {s s' : Cpu L} {pos clean : Nat}

theorem Sane.congr (h : Sane base ranges pg m₀ s) (hmem : s'.mem = s.mem)
    (hpushed : s'.pushed = s.pushed) (hcleared : s'.cleared = s.cleared) :
    Sane base ranges pg m₀ s' :=
  ⟨hmem ▸ h.shim, hmem ▸ h.frame, hpushed ▸ h.pushed, hcleared ▸ h.cleared⟩

theorem InCall.mem (h : InCall base ranges ret s done r rest pos clean) : r ∈ ranges := by
  rw [h.split]
  simp

theorem inRanges_append_singleton {a : Nat} :
    InRanges (done ++ [r]) a ↔ InRanges done a ∨ r.1 ≤ a ∧ a < r.2 := by
  simp [InRanges, or_and_right, exists_or]

/-! ## What each piece does -/

section

variable (h : Packed blob base entry ranges pg ret)

include h

theorem Packed.length_pg : pg.length = page := Image.length_shim h.packed

/-- The two words at `rbp` are the next range, or zeros past the last one. -/
private theorem words_at (hshim : s.mem.Holds base pg) {k : Nat} (hk : k ≤ ranges.length) :
    s.mem.word (base + shimData + (8 + 16 * k)) = getLE 8 pg (shimData + (8 + 16 * k)) ∧
      s.mem.word (addU64 (base + shimData + (8 + 16 * k)) 8) =
        getLE 8 pg (shimData + (8 + 16 * k) + 8) := by
  have hlen := h.length_pg
  have hbase := h.base_le
  have hfit := (shim_eq_ok.mp h.packed).1
  rw [length_shimDataBlock] at hfit
  simp only [shimDataSize, resetVector, shimData, page] at hfit hlen hbase
  have hadd : addU64 (base + shimData + (8 + 16 * k)) 8 =
      base + (shimData + (8 + 16 * k) + 8) := by
    rw [addU64_of_lt (by simp only [shimData]; omega)]
    omega
  rw [hadd, Nat.add_assoc base]
  exact ⟨hshim.word (by simp only [shimData]; omega), hshim.word (by simp only [shimData]; omega)⟩

/-- Past the last range the loop ends, with nothing else done. -/
theorem nextRange_nil (hs : Sane base ranges pg m₀ s) (hb : Between base ranges s done [])
    (finished range : L) :
    nextRange ret finished range s = { s with r12 := 0, r13 := 0, rax := 0, pc := finished } := by
  have hdone : ranges = done := by rw [hb.split, List.append_nil]
  obtain ⟨hlo, hhi⟩ := words_at h hs.shim (k := done.length) (by rw [hdone])
  obtain ⟨hlo', hhi'⟩ := getLE_shim_end h.packed
  rw [hdone] at hlo' hhi'
  rw [← hb.rbp, hlo'] at hlo
  rw [← hb.rbp, hhi'] at hhi
  simp only [nextRange, hlo, hhi, Nat.or_self, if_true]

/-- Before it the two words are loaded, and the call pushed. -/
theorem nextRange_cons (hs : Sane base ranges pg m₀ s) (hb : Between base ranges s done (r :: rest))
    (finished range : L) :
    nextRange ret finished range s =
      { s with
        r12 := r.1
        r13 := r.2
        rax := r.1 ||| r.2
        rbp := base + shimData + (8 + 16 * (done.length + 1))
        rsp := bspStackTop - 8
        mem := s.mem.store (bspStackTop - 8) (toLE 8 ret)
        pushed := s.pushed ++ [bspStackTop - 8]
        pc := range } := by
  have hsplit := hb.split
  have hr : r ∈ ranges := by rw [hsplit]; simp
  have hlt := h.listed.nonempty r hr
  have hbelow := h.below r hr
  have hbase := h.base_le
  have hfit := (shim_eq_ok.mp h.packed).1
  obtain ⟨hlo, hhi⟩ := words_at h hs.shim (k := done.length) (by rw [hsplit]; simp)
  obtain ⟨hlo', hhi'⟩ := getLE_shim_range h.packed hsplit
  simp only [mapLimit, gib] at hbelow
  rw [Nat.mod_eq_of_lt (by omega)] at hlo' hhi'
  rw [← hb.rbp, hlo'] at hlo
  rw [← hb.rbp, hhi'] at hhi
  have hne : r.1 ||| r.2 ≠ 0 := by
    rw [ne_eq, Nat.or_eq_zero_iff]
    omega
  have hrbp : addU64 s.rbp 16 = base + shimData + (8 + 16 * (done.length + 1)) := by
    rw [length_shimDataBlock, hsplit, List.length_append, List.length_cons] at hfit
    simp only [shimDataSize, resetVector, shimData, page] at hfit hbase
    rw [hb.rbp, addU64_of_lt (by simp only [shimData]; omega)]
    omega
  have hrsp : addU64 s.rsp (2 ^ 64 - 8) = bspStackTop - 8 := by
    rw [hb.rsp]
    decide
  simp only [nextRange, Cpu.push, hlo, hhi, hne, if_false, hrbp, hrsp]

/-- The call for the next range starts at its first page. -/
theorem inCall_nextRange (hs : Sane base ranges pg m₀ s)
    (hb : Between base ranges s done (r :: rest)) (finished range : L) :
    Sane base ranges pg m₀ (nextRange ret finished range s) ∧
      InCall base ranges ret (nextRange ret finished range s) done r rest r.1 r.1 := by
  have hsplit := hb.split
  have hr : r ∈ ranges := by rw [hsplit]; simp
  have hstack := h.avoids_stack
  have hbase := h.base_ge
  have hsize := length_toLE 8 ret
  rw [nextRange_cons h hs hb]
  refine ⟨⟨?_, ?_, ?_, hs.cleared⟩, ?_⟩
  · exact hs.shim.store_of_disjoint
      (by rw [hsize]; simp only [bspStack, bspStackSize, bspStackTop] at *; omega)
  · intro a ha haway
    have hkeep : s.mem.store (bspStackTop - 8) (toLE 8 ret) a = s.mem a :=
      Memory.store_of_not_mem (by rw [hsize]; simp only [bspStackTop] at *; omega)
    exact hkeep.trans (hs.frame a ha haway)
  · intro a ha
    rcases List.mem_append.mp ha with ha | ha
    · exact hs.pushed a ha
    · exact List.mem_singleton.mp ha
  · refine ⟨hsplit, rfl, Memory.word_store_self h.ret_lt, rfl, rfl, le_rfl,
      (h.listed.aligned r hr).1, le_rfl, (h.listed.nonempty r hr).le, (h.listed.aligned r hr).1,
      hb.taken.trans (walked_start done r).symm, fun a ha => ?_⟩
    have hdone : InRanges done a := ha.resolve_right (by omega)
    obtain ⟨q, hq, hqa⟩ := hdone
    have hqs := hstack q (by rw [hsplit]; exact List.mem_append_left _ hq)
    have hkeep : s.mem.store (bspStackTop - 8) (toLE 8 ret) a = s.mem a := by
      refine Memory.store_of_not_mem ?_
      rw [hsize]
      simp only [bspStack, bspStackSize, bspStackTop] at *
      omega
    exact hkeep.trans (hb.zero a ⟨q, hq, hqa⟩)

/-- Moving on by a page does not wrap. -/
theorem InCall.r12_lt (hc : InCall base ranges ret s done r rest pos clean) {n : Nat}
    (hn : n ≤ largePage) : s.r12 + n < 2 ^ 64 := by
  have hle := hc.pos_ge.trans (hc.pos_le.trans (h.below r hc.mem))
  simp only [mapLimit, gib, largePage] at *
  omega

theorem InCall.addU64_r12 (hc : InCall base ranges ret s done r rest pos clean) {n : Nat}
    (hn : n ≤ largePage) : addU64 s.r12 n = s.r12 + n :=
  addU64_of_lt (hc.r12_lt h hn)

/-- The three ways on from the head of the subroutine. -/
theorem pickPage_cases (hc : InCall base ranges ret s done r rest s.r12 s.r12)
    (finished small large : L) :
    (s.r12 = r.2 ∧ pickPage finished small large s = { s with pc := finished }) ∨
      (s.r12 < r.2 ∧ ∃ r14, pickPage finished small large s = { s with r14 := r14, pc := small }) ∨
        (s.r12 + largePage ≤ r.2 ∧
          pickPage finished small large s =
            { s with r14 := s.r12 + largePage, pc := large }) := by
  have hadd := hc.addU64_r12 h (n := largePage) le_rfl
  have hle := hc.pos_le
  have hr13 := hc.r13
  simp only [pickPage, hadd]
  split
  · exact Or.inl ⟨by omega, rfl⟩
  split
  · exact Or.inr (Or.inl ⟨by omega, s.r14, rfl⟩)
  split
  · exact Or.inr (Or.inl ⟨by omega, _, rfl⟩)
  · exact Or.inr (Or.inr ⟨by omega, rfl⟩)

/-- Clearing part of the range leaves all else alone. -/
theorem Sane.clear (hs : Sane base ranges pg m₀ s) (hr : r ∈ ranges) {a n : Nat} (hlo : r.1 ≤ a)
    (hhi : a + n ≤ r.2) (hmem : s'.mem = s.mem.clear a n) (hpushed : s'.pushed = s.pushed)
    (hcleared : s'.cleared = s.cleared ∨ s'.cleared = s.cleared ++ [(a, n)]) :
    Sane base ranges pg m₀ s' := by
  have hlen := h.length_pg
  have havoid := h.avoids_shim r hr
  refine ⟨?_, fun x hx hstack => ?_, hpushed ▸ hs.pushed, fun w hw => ?_⟩
  · rw [hmem]
    exact hs.shim.clear_of_disjoint (by rw [hlen]; omega)
  · have hout : x < a ∨ a + n ≤ x := by
      by_contra hin
      exact hx ⟨r, hr, by omega, by omega⟩
    rw [hmem, Memory.clear_of_not_mem hout]
    exact hs.frame x hx hstack
  · rcases hcleared with hcleared | hcleared
    · exact hs.cleared w (hcleared ▸ hw)
    · rw [hcleared] at hw
      rcases List.mem_append.mp hw with hw | hw
      · exact hs.cleared w hw
      · rw [List.mem_singleton.mp hw]
        exact ⟨r, hr, hlo, hhi⟩

/-- Clearing the pages at `r12` extends the zeros, and spares the return address. -/
theorem InCall.clears (hc : InCall base ranges ret s done r rest pos s.r12) {n : Nat}
    (hhi : s.r12 + n ≤ pos) :
    InCall base ranges ret { s with mem := s.mem.clear s.r12 n } done r rest pos (s.r12 + n) := by
  have hstack := h.avoids_stack r hc.mem
  have hge := hc.r12_ge
  have hle := hc.pos_le
  refine { hc with ret := ?_, zero := fun a ha => ?_ }
  · refine Eq.trans (Memory.word_clear_of_disjoint ?_) hc.ret
    simp only [bspStack, bspStackSize, bspStackTop] at *
    omega
  · by_cases hin : s.r12 ≤ a ∧ a < s.r12 + n
    · exact Memory.clear_of_mem hin
    · refine Eq.trans (Memory.clear_of_not_mem (by omega)) (hc.zero a ?_)
      exact ha.imp_right fun hra => ⟨hra.1, by omega⟩

/-- Taking the pages at `r12` moves the walk on by as much. -/
theorem InCall.takes (hc : InCall base ranges ret s done r rest s.r12 clean) {n : Nat}
    (hn : n % page = 0) (hhi : s.r12 + n ≤ r.2) :
    InCall base ranges ret { s with taken := s.taken ++ between page s.r12 (s.r12 + n) } done r rest
      (s.r12 + n) clean := by
  have haligned := hc.r12_aligned
  have hsum : (s.r12 + n) % page = 0 := by
    simp only [page] at *
    omega
  refine { hc with
    pos_ge := Nat.le_add_right _ _
    pos_le := hhi
    pos_aligned := hsum
    taken := ?_ }
  rw [hc.taken, ← walked_step (by decide) hc.r12_ge (Nat.le_add_right _ _)
    (h.listed.aligned r hc.mem).1 haligned hsum]

omit h in
/-- Moving `r12` on within what is taken. -/
theorem InCall.moves (hc : InCall base ranges ret s done r rest pos clean) {n : Nat}
    (hn : n % page = 0) (hhi : s.r12 + n ≤ pos) :
    InCall base ranges ret { s with r12 := s.r12 + n } done r rest pos clean := by
  have haligned := hc.r12_aligned
  refine { hc with
    r12_ge := hc.r12_ge.trans (Nat.le_add_right _ _)
    r12_aligned := ?_
    pos_ge := hhi }
  simp only [page] at *
  omega

/-- The pages taken are the first pages of the list. -/
theorem InCall.taken_initial (hc : InCall base ranges ret s done r rest pos clean) :
    s.taken <+: pagesOf page ranges := by
  have halign := h.listed.aligned r hc.mem
  rw [hc.taken, hc.split]
  exact walked_initial (by decide) (hc.r12_ge.trans hc.pos_ge) hc.pos_le halign.1 halign.2
    hc.pos_aligned

/-- The page at `r12` is the next of the list. -/
theorem InCall.next_initial (hc : InCall base ranges ret s done r rest s.r12 clean)
    (hlt : s.r12 < r.2) : s.taken ++ [s.r12] <+: pagesOf page ranges := by
  have hfit : s.r12 + page ≤ r.2 := by
    have hr12 := hc.r12_aligned
    have hend := (h.listed.aligned r hc.mem).2
    simp only [page] at *
    omega
  have hone : PageWalk.between page s.r12 (s.r12 + page) = [s.r12] := by
    have hadd := between_add s.r12 (show 0 < page by decide) 1
    rw [Nat.one_mul] at hadd
    rw [hadd]
    simp
  have hpre := (hc.takes h (n := page) (by decide) hfit).taken_initial h
  rwa [hone] at hpre

/-- Who takes pages has less left. -/
theorem InCall.left_lt (hc : InCall base ranges ret s done r rest s.r12 clean) {n : Nat}
    (hn : n % page = 0) (hpos : 0 < n) (hhi : s.r12 + n ≤ r.2) :
    left base ranges { s with taken := s.taken ++ between page s.r12 (s.r12 + n) } + 8 ≤
      left base ranges s := by
  obtain ⟨k, rfl⟩ : ∃ k, n = (k + 1) * page := ⟨n / page - 1, by simp only [page] at *; omega⟩
  have hlen := ((hc.takes h hn hhi).taken_initial h).length_le
  simp only [left, List.length_append, length_between_add _ (show 0 < page by decide)] at hlen ⊢
  omega

omit h in
/-- At the end of the range the return goes back to the loop. -/
theorem leave_eq (hc : InCall base ranges ret s done r rest pos clean) (next : L) (lost : Nat → L) :
    leave ret next lost s = { s with rsp := bspStackTop, pc := next } := by
  have hret := hc.ret
  rw [← hc.rsp] at hret
  have hrsp : addU64 s.rsp 8 = bspStackTop := by
    rw [hc.rsp]
    decide
  simp only [leave, hret, if_true, hrsp]

omit h in
theorem InCall.between (hc : InCall base ranges ret s done r rest s.r12 s.r12)
    (hend : s.r12 = r.2) (hrsp : s'.rsp = bspStackTop) (hmem : s'.mem = s.mem)
    (htaken : s'.taken = s.taken) (hrbp : s'.rbp = s.rbp) :
    Between base ranges s' (done ++ [r]) rest where
  split := by rw [hc.split]; simp
  rsp := hrsp
  rbp := by
    rw [hrbp, hc.rbp, List.length_append]
    rfl
  taken := by rw [htaken, hc.taken, hend, walked_end]
  zero a ha := by
    rw [hmem]
    rw [inRanges_append_singleton] at ha
    exact hc.zero a (ha.imp_right fun hra => ⟨hra.1, hend ▸ hra.2⟩)

omit h in
theorem Between.allTaken (hb : Between base ranges s done []) (htaken : s'.taken = s.taken)
    (hmem : s'.mem = s.mem) : AllTaken ranges s' := by
  have hdone : ranges = done := by rw [hb.split, List.append_nil]
  rw [hdone]
  exact ⟨htaken.trans hb.taken, fun a ha => by rw [hmem]; exact hb.zero a ha⟩

/-! ## What a finished walk means -/

/-- A page of the list, and no other page, is among the pages of its ranges. -/
theorem mem_of_taken_initial (hpre : s.taken <+: pagesOf page ranges) {a : Nat} (ha : a ∈ s.taken) :
    ∃ r ∈ ranges, r.1 ≤ a ∧ a + page ≤ r.2 := by
  obtain ⟨halign, r, hr, hlo, hhi⟩ := (mem_pagesOf (by decide) h.listed).mp (hpre.subset ha)
  have hra := (h.listed.aligned r hr).2
  refine ⟨r, hr, hlo, ?_⟩
  simp only [page] at *
  omega

theorem nodup_of_taken_initial (hpre : s.taken <+: pagesOf page ranges) : s.taken.Nodup :=
  hpre.sublist.nodup (nodup_pagesOf (by decide) h.listed)

theorem AllTaken.count (hall : AllTaken ranges s) {a : Nat} (halign : a % page = 0)
    (ha : InRanges ranges a) : s.taken.count a = 1 := by
  rw [hall.taken]
  exact List.count_eq_one_of_mem (nodup_pagesOf (by decide) h.listed)
    ((mem_pagesOf (by decide) h.listed).mpr ⟨halign, ha⟩)

end

end BootShim.Shim
