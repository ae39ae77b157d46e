-- SUMMARY: The walk that the two reset shims share, as instructions: each stretch of them is a step of the walk over labels.
import BootShim.Lib.X86.Rules
import BootShim.Shim.Walk

/-!
# The walk as instructions

The two sources spell the same lines over labels of their own. What a stretch of them
does is proved once here, for any listing that has it somewhere.
-/

namespace BootShim.Shim

open Bytes Image Layout Machine PageWalk X86

variable {L L' E X ι : Type} [DecidableEq L] {blocks : List (Block L E)}

/-- `accept_next` and `validate_next` up to the call. -/
def nextRangeCode (finished range : L) : List (Instr L E) := [
  .load .quad ⟨0, .rbp⟩ .r12,
  .load .quad ⟨8, .rbp⟩ .r13,
  .op (.mov .quad (.reg .r12) .rax),
  .op (.alu .or .quad (.reg .r13) .rax),
  .op (.jcc .z finished),
  .op (.alu .add .quad (.imm 16) .rbp),
  .call range]

/-- `accept_range` and `validate_range` up to the first attempt. -/
def pickPageCode (finished small : L) : List (Instr L E) := [
  .op (.cmp .quad (.reg .r13) .r12),
  .op (.jcc .ae finished),
  .op (.test .quad (.imm 0x1fffff) .r12),
  .op (.jcc .nz small),
  .op (.lea 0x200000 .r12 .r14),
  .op (.cmp .quad (.reg .r13) .r14),
  .op (.jcc .a small)]

/-- The registers that the walk lives in, and memory. -/
structure Agree (core : Core) (mem : Memory) (c : Cpu L') : Prop where
  rsp : (core.regs .rsp).toNat = c.rsp
  rbp : (core.regs .rbp).toNat = c.rbp
  rsi : (core.regs .rsi).toNat = c.rsi
  r12 : (core.regs .r12).toNat = c.r12
  r13 : (core.regs .r13).toNat = c.r13
  mem : mem = c.mem

variable {env : Env} {code : Code blocks} {outside : E → ι → State X → Option (State X)}
  {k : Nat} {core : Core} {o : Outer X} {c : Cpu L'} {P Q : State X → Prop}

/-- A sum of registers wraps as the source's sums do. -/
theorem toNat_add_ofNat {x : BitVec 64} {a n : Nat} (hx : x.toNat = a) (hn : n < 2 ^ 64) :
    (x + BitVec.ofNat 64 n).toNat = addU64 a n := by
  rw [BitVec.toNat_add, hx, BitVec.toNat_ofNat, Nat.mod_eq_of_lt hn, addU64]

theorem toNat_sub_eight {x : BitVec 64} {a : Nat} (hx : x.toNat = a) :
    (x - 8#64).toNat = addU64 a (2 ^ 64 - 8) := by
  rw [BitVec.toNat_sub, hx, addU64, Nat.add_comm]
  rfl

theorem toNat_ofNat_word (m : Memory) (a : Nat) :
    (BitVec.ofNat 64 (m.word a)).toNat = m.word a := by
  rw [BitVec.toNat_ofNat, Nat.mod_eq_of_lt (m.word_lt a)]

/-- The words that the walk reads are in the shim's page. -/
theorem Between.rbp_le {blob : ShimBlob} {base entry ret : Nat} {ranges done rest : List (Nat × Nat)}
    {pg : List UInt8} (hb : Between base ranges c done rest)
    (h : Packed blob base entry ranges pg ret) : c.rbp + 16 ≤ mapLimit := by
  have hfit := (shim_eq_ok.mp h.packed).1
  have hbase := h.base_le
  have hlen : done.length ≤ ranges.length := by
    rw [hb.split, List.length_append]
    omega
  rw [length_shimDataBlock] at hfit
  rw [hb.rbp]
  simp only [shimDataSize, resetVector, shimData, page, mapLimit, gib] at *
  omega

/-! ### Nothing is taken between attempts -/

theorem taken_nextRange {blob : ShimBlob} {base entry ret : Nat} {ranges done rest : List (Nat × Nat)}
    {pg : List UInt8} {m₀ : Memory} (h : Packed blob base entry ranges pg ret)
    (hs : Sane base ranges pg m₀ c) (hb : Between base ranges c done rest) (finished range : L') :
    (nextRange ret finished range c).taken = c.taken := by
  cases rest with
  | nil => rw [nextRange_nil h hs hb]
  | cons r rest => rw [nextRange_cons h hs hb]

theorem taken_pickPage (finished small large : L') :
    (pickPage finished small large c).taken = c.taken := by
  unfold pickPage
  dsimp only
  split_ifs
  all_goals dsimp only

theorem taken_leave (ret : Nat) (next : L') (lost : Nat → L') :
    (leave ret next lost c).taken = c.taken := by
  unfold leave
  dsimp only

/-! ## The stretches -/

theorem stretch_nextRange {finished range : L} (place : L' → Nat) (finished' range' : L')
    (hfinished : place finished' = code.sym finished) (hrange : place range' = code.sym range)
    (h : Ready env code .code64 mapLimit o) (hP : ∀ core, P ⟨core, o⟩)
    (hsits : Sits blocks .code64 k (nextRangeCode finished range))
    (hip : core.ip = code.addr k) (hagree : Agree core o.mem c)
    (hret : code.addr (k + 7) < 2 ^ 64) (hrbp : c.rbp + 16 ≤ mapLimit) (hrsp : c.rsp = bspStackTop)
    (hQ : ∀ core mem, Agree core mem (nextRange (code.addr (k + 7)) finished' range' c) →
      core.ip = place (nextRange (code.addr (k + 7)) finished' range' c).pc →
        Q ⟨core, { o with mem }⟩) :
    Stretch (X86.step env code outside) P Q 6 ⟨core, o⟩ := by
  simp only [mapLimit, gib] at hrbp
  have hadd8 : addU64 c.rbp 8 = c.rbp + 8 := addU64_of_lt (by omega)
  have hlo : (core.regs .rbp + BitVec.ofNat 64 0).toNat = c.rbp := by
    rw [toNat_add_ofNat hagree.rbp (by decide), addU64_of_lt (by omega), Nat.add_zero]
  have hhi : (core.regs .rbp + BitVec.ofNat 64 8).toNat = c.rbp + 8 := by
    rw [toNat_add_ofNat hagree.rbp (by decide), hadd8]
  have hword (a : Nat) : o.mem.read Width.quad.bytes a = c.mem.word a := by
    rw [hagree.mem]
    rfl
  have hzero : (BitVec.ofNat 64 (c.mem.word c.rbp) ||| BitVec.ofNat 64 (c.mem.word (c.rbp + 8)) ==
      0#64) = decide (c.mem.word c.rbp ||| c.mem.word (c.rbp + 8) = 0) := by
    rw [beq_toNat, BitVec.toNat_or, toNat_ofNat_word, toNat_ofNat_word]
    rfl
  refine stretch_line h (hP _) (hsits.line (i := 0) rfl) hip
    (fun i => h.exec_load hlo (by simp only [Width.bytes, mapLimit, gib]; omega)) ?_
  refine reaches_line h (hP _) (hsits.line (i := 1) rfl) rfl
    (fun i => h.exec_load hhi (by simp only [Width.bytes, mapLimit, gib]; omega)) ?_
  refine reaches_op h (hP _) (hsits.line (i := 2) rfl) rfl ?_
  refine reaches_op h (hP _) (hsits.line (i := 3) rfl) rfl ?_
  refine reaches_jcc h (hP _) (hsits.line (i := 4) rfl) rfl (fun hz => ?_) (fun hz => ?_)
  · have hnil : c.mem.word c.rbp ||| c.mem.word (c.rbp + 8) = 0 := by
      simpa [hword, hzero] using hz
    have heq : nextRange (code.addr (k + 7)) finished' range' c =
        { c with
          r12 := c.mem.word c.rbp
          r13 := c.mem.word (c.rbp + 8)
          rax := 0
          pc := finished' } := by
      simp only [nextRange, hadd8, hnil, if_true]
    refine .here (hQ _ o.mem ?_ ?_)
    · rw [heq]
      refine ⟨?_, ?_, ?_, ?_, ?_, hagree.mem⟩
      all_goals simp [hword, hagree.rsp, hagree.rbp, hagree.rsi, toNat_ofNat_word,
        -BitVec.toNat_ofNat]
    · rw [heq]
      exact hfinished.symm
  · have hcons : c.mem.word c.rbp ||| c.mem.word (c.rbp + 8) ≠ 0 := by
      simpa [hword, hzero] using hz
    have hdown : (core.regs .rsp - 8#64).toNat = bspStackTop - 8 := by
      rw [toNat_sub_eight (hagree.rsp.trans hrsp)]
      decide
    have hadd16 : (core.regs .rbp + 16#64).toNat = c.rbp + 16 := by
      rw [toNat_add_ofNat hagree.rbp (by decide), addU64_of_lt (by omega)]
    have heq : nextRange (code.addr (k + 7)) finished' range' c =
        { c with
          r12 := c.mem.word c.rbp
          r13 := c.mem.word (c.rbp + 8)
          rax := c.mem.word c.rbp ||| c.mem.word (c.rbp + 8)
          rbp := c.rbp + 16
          rsp := bspStackTop - 8
          mem := c.mem.store (bspStackTop - 8) (toLE 8 (code.addr (k + 7)))
          pushed := c.pushed ++ [bspStackTop - 8]
          pc := range' } := by
      have hrbp16 : addU64 c.rbp 16 = c.rbp + 16 := addU64_of_lt (by omega)
      have hpush : addU64 c.rsp (2 ^ 64 - 8) = bspStackTop - 8 := by
        rw [hrsp]
        decide
      simp only [nextRange, Cpu.push, hadd8, hcons, if_false, hrbp16, hpush]
    refine reaches_op h (hP _) (hsits.line (i := 5) rfl) rfl ?_
    refine reaches_line h (hP _) (hsits.line (i := 6) rfl) rfl
      (fun i => h.exec_call (a := bspStackTop - 8) (by simpa using hdown) (by decide) hret) ?_
    refine .here (hQ _ _ ?_ ?_)
    · rw [heq]
      refine ⟨?_, ?_, ?_, ?_, ?_, by rw [hagree.mem]⟩
      all_goals simp [hword, hdown, hadd16, hagree.rsi, toNat_ofNat_word, -BitVec.toNat_ofNat]
    · rw [heq]
      exact hrange.symm

theorem stretch_pickPage {finished small : L} (place : L' → Nat) (finished' small' large' : L')
    (hfinished : place finished' = code.sym finished) (hsmall : place small' = code.sym small)
    (hlarge' : place large' = code.addr (k + 7))
    (h : Ready env code .code64 mapLimit o) (hP : ∀ core, P ⟨core, o⟩)
    (hsits : Sits blocks .code64 k (pickPageCode finished small))
    (hip : core.ip = code.addr k) (hagree : Agree core o.mem c)
    (hQ : ∀ core, Agree core o.mem (pickPage finished' small' large' c) →
      core.ip = place (pickPage finished' small' large' c).pc → Q ⟨core, o⟩) :
    Stretch (X86.step env code outside) P Q 6 ⟨core, o⟩ := by
  have hr12 := hagree.r12
  have hr13 := hagree.r13
  have hand : (core.regs .r12 &&& 0x1fffff#64).toNat = c.r12 &&& 0x1fffff := by
    rw [BitVec.toNat_and, hr12]
    rfl
  have hlarge : (core.regs .r12 + 0x200000#64).toNat = addU64 c.r12 largePage :=
    toNat_add_ofNat hr12 (by decide)
  refine stretch_op h (hP _) (hsits.line (i := 0) rfl) hip ?_
  refine reaches_jcc h (hP _) (hsits.line (i := 1) rfl) rfl (fun hge => ?_) (fun hge => ?_)
  · have hle : c.r13 ≤ c.r12 := by
      simpa [hr12, hr13] using hge
    have heq : pickPage finished' small' large' c = { c with pc := finished' } := if_pos hle
    refine .here (hQ _ ?_ ?_)
    · rw [heq]
      exact { hagree with }
    · rw [heq]
      exact hfinished.symm
  have hlt : ¬ c.r13 ≤ c.r12 := by
    simpa [hr12, hr13] using hge
  refine reaches_op h (hP _) (hsits.line (i := 2) rfl) rfl ?_
  refine reaches_jcc h (hP _) (hsits.line (i := 3) rfl) rfl (fun hnz => ?_) (fun hnz => ?_)
  · have hne : c.r12 &&& 0x1fffff ≠ 0 := by
      simpa [beq_toNat, hand] using hnz
    have heq : pickPage finished' small' large' c = { c with pc := small' } := by
      rw [pickPage, if_neg hlt, if_pos hne]
    refine .here (hQ _ ?_ ?_)
    · rw [heq]
      exact { hagree with }
    · rw [heq]
      exact hsmall.symm
  have hzero : ¬ (c.r12 &&& 0x1fffff ≠ 0) := by
    simpa [beq_toNat, hand] using hnz
  have heq : pickPage finished' small' large' c = { c with
      r14 := addU64 c.r12 largePage
      pc := if c.r13 < addU64 c.r12 largePage then small' else large' } := by
    rw [pickPage, if_neg hlt, if_neg hzero]
    split
    · next h => rw [if_pos h]
    · next h => rw [if_neg h]
  have hagree' : ∀ core' : Core,
      core'.regs = (core.set .quad .r14 (core.regs .r12 + 0x200000#64)).regs →
        Agree core' o.mem (pickPage finished' small' large' c) := by
    intro core' hregs
    rw [heq]
    refine ⟨?_, ?_, ?_, ?_, ?_, hagree.mem⟩
    all_goals simp [hregs, hagree.rsp, hagree.rbp, hagree.rsi, hr12, hr13]
  refine reaches_op h (hP _) (hsits.line (i := 4) rfl) rfl ?_
  refine reaches_op h (hP _) (hsits.line (i := 5) rfl) rfl ?_
  refine reaches_jcc h (hP _) (hsits.line (i := 6) rfl) rfl (fun ha => ?_) (fun ha => ?_)
  · have hgt : c.r13 < addU64 c.r12 largePage := by
      have ha' : c.r13 ≤ addU64 c.r12 largePage ∧ ¬ addU64 c.r12 largePage = c.r13 := by
        simpa [beq_toNat, hlarge, hr13, -BitVec.toNat_add] using ha
      exact lt_of_le_of_ne ha'.1 (Ne.symm ha'.2)
    refine .here (hQ _ (hagree' _ ?_) ?_)
    · rfl
    · rw [heq, if_pos hgt]
      exact hsmall.symm
  · have hle : ¬ c.r13 < addU64 c.r12 largePage := by
      have ha' : c.r13 ≤ addU64 c.r12 largePage → addU64 c.r12 largePage = c.r13 := by
        simpa [beq_toNat, hlarge, hr13, -BitVec.toNat_add] using ha
      exact fun hgt => hgt.ne' (ha' hgt.le)
    refine .here (hQ _ (hagree' _ ?_) ?_)
    · rfl
    · rw [heq, if_neg hle]
      exact hlarge'.symm

/-- The return from a range, and the jump behind its call. -/
theorem stretch_leave {j : Nat} {next : L} (place : L' → Nat) (next' : L') (lost : Nat → L')
    (hnext : place next' = code.sym next)
    (h : Ready env code .code64 mapLimit o) (hP : ∀ core, P ⟨core, o⟩)
    (hret : (lines blocks)[k]? = some (.code64, .ret))
    (hjmp : (lines blocks)[j]? = some (.code64, .op (.jmp next)))
    (hip : core.ip = code.addr k) (hagree : Agree core o.mem c) (hrsp : c.rsp + 8 ≤ mapLimit)
    (hword : c.mem.word c.rsp = code.addr j)
    (hQ : ∀ core, Agree core o.mem (leave (code.addr j) next' lost c) →
      core.ip = place (leave (code.addr j) next' lost c).pc → Q ⟨core, o⟩) :
    Stretch (X86.step env code outside) P Q 1 ⟨core, o⟩ := by
  have heq : leave (code.addr j) next' lost c =
      { c with rsp := addU64 c.rsp 8, pc := next' } := by
    rw [leave, hword, if_pos rfl]
  have hup : (core.regs .rsp + 8#64).toNat = addU64 c.rsp 8 :=
    toNat_add_ofNat hagree.rsp (by decide)
  refine stretch_line h (hP _) hret hip (fun i => h.exec_ret hagree.rsp hrsp) ?_
  refine reaches_op h (hP _) hjmp ?_ ?_
  · rw [hagree.mem]
    exact hword
  refine .here (hQ _ ?_ ?_)
  · rw [heq]
    refine ⟨?_, ?_, ?_, ?_, ?_, hagree.mem⟩
    all_goals simp [hup, hagree.rbp, hagree.rsi, hagree.r12, hagree.r13, -BitVec.toNat_add]
  · rw [heq]
    exact hnext.symm

end BootShim.Shim
