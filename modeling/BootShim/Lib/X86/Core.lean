-- SUMMARY: An x86 processor's registers and flags, and the instructions that touch nothing else.
import Mathlib.Tactic

/-!
# Registers and flags

The general registers are 64 bits wide in every mode. A 32-bit result clears the upper
half of its register, in 32-bit code as in 64-bit code; a 16-bit one leaves the rest of
the register alone. Only the flags that the conditions here read are kept.
-/

namespace X86

inductive Reg where
  | rax | rcx | rdx | rbx | rsp | rbp | rsi | rdi
  | r8 | r9 | r10 | r11 | r12 | r13 | r14 | r15
deriving DecidableEq, Repr

/-- The width of an operand. -/
inductive Width where
  | word | long | quad
deriving DecidableEq, Repr

def Width.bytes : Width → Nat
  | .word => 2
  | .long => 4
  | .quad => 8

/-- What a result of a width leaves of the register it is written to. -/
def Width.kept : Width → BitVec 64
  | .word => 0xffffffffffff0000
  | .long | .quad => 0

/-- The bits of a width. -/
def Width.mask : Width → BitVec 64
  | .word => 0xffff
  | .long => 0xffffffff
  | .quad => 0xffffffffffffffff

structure Core where
  regs : Reg → BitVec 64
  /-- The offset of the next instruction in the code segment. -/
  ip : Nat
  zf : Bool
  cf : Bool
  /-- The direction flag: string instructions go down. -/
  df : Bool
  /-- The interrupt flag. -/
  intr : Bool

namespace Core

/-- A register as an operand of a width. -/
def get (c : Core) (w : Width) (r : Reg) : BitVec 64 := c.regs r &&& w.mask

/-- A result of a width, written to a register. -/
def set (c : Core) (w : Width) (r : Reg) (v : BitVec 64) : Core :=
  { c with regs := fun x => if x = r then c.regs r &&& w.kept ||| v &&& w.mask else c.regs x }

def goto (c : Core) (ip : Nat) : Core := { c with ip }

variable {c : Core} {w : Width} {r x : Reg} {v : BitVec 64}

theorem regs_set_self : (c.set w r v).regs r = (c.regs r &&& w.kept ||| v &&& w.mask) :=
  if_pos rfl

@[simp] theorem regs_set : (c.set w r v).regs x =
    if x = r then c.regs r &&& w.kept ||| v &&& w.mask else c.regs x := rfl

@[simp] theorem zf_set : (c.set w r v).zf = c.zf := rfl
@[simp] theorem cf_set : (c.set w r v).cf = c.cf := rfl
@[simp] theorem df_set : (c.set w r v).df = c.df := rfl
@[simp] theorem intr_set : (c.set w r v).intr = c.intr := rfl

@[simp] theorem regs_goto (ip : Nat) : (c.goto ip).regs = c.regs := rfl
@[simp] theorem ip_goto (ip : Nat) : (c.goto ip).ip = ip := rfl
@[simp] theorem zf_goto (ip : Nat) : (c.goto ip).zf = c.zf := rfl
@[simp] theorem cf_goto (ip : Nat) : (c.goto ip).cf = c.cf := rfl
@[simp] theorem df_goto (ip : Nat) : (c.goto ip).df = c.df := rfl
@[simp] theorem intr_goto (ip : Nat) : (c.goto ip).intr = c.intr := rfl

end Core

/-! ## Instructions -/

/-- A source operand: a register or an immediate. -/
inductive Src where
  | reg (r : Reg)
  | imm (n : Nat)

/-- Operations that write their result and set the flags by it. -/
inductive Alu where
  | add | or | xor
deriving DecidableEq, Repr

inductive Cond where
  /-- The zero flag is set: `jz` and `je`. -/
  | z
  /-- It is clear: `jnz` and `jne`. -/
  | nz
  /-- The carry flag is clear: `jae`. -/
  | ae
  /-- Both are clear: `ja`. -/
  | a
deriving DecidableEq, Repr

/-- The instructions that touch registers and flags only, over labels `L`. -/
inductive Op (L : Type) where
  | mov (w : Width) (src : Src) (dst : Reg)
  | alu (f : Alu) (w : Width) (src : Src) (dst : Reg)
  | cmp (w : Width) (src : Src) (dst : Reg)
  | test (w : Width) (src : Src) (dst : Reg)
  | shr (w : Width) (n : Nat) (dst : Reg)
  /-- Sets a bit, and the carry flag to what it was. -/
  | bts (w : Width) (n : Nat) (dst : Reg)
  /-- `disp(base)` as an address. -/
  | lea (disp : Nat) (base dst : Reg)
  /-- `label(%rip)` as an address. -/
  | leaRip (l : L) (dst : Reg)
  | jmp (l : L)
  | jcc (cond : Cond) (l : L)
  /-- `jmp *%reg` -/
  | jmpReg (r : Reg)
  | cli
  | cld
  | pause
  /-- Something other than a maskable interrupt may end a halt at any time, so it does
      nothing. -/
  | hlt

variable {L : Type}

@[simp] def Src.value (c : Core) (w : Width) : Src → BitVec 64
  | .reg r => c.get w r
  | .imm n => BitVec.ofNat 64 n &&& w.mask

/-- A result and its carry out of the width. -/
@[simp] def Alu.apply (w : Width) (x y : BitVec 64) : Alu → BitVec 64 × Bool
  | .add => (x + y &&& w.mask, decide (2 ^ (8 * w.bytes) ≤ x.toNat + y.toNat))
  | .or => (x ||| y, false)
  | .xor => (x ^^^ y, false)

@[simp] def Cond.holds (c : Core) : Cond → Bool
  | .z => c.zf
  | .nz => !c.zf
  | .ae => !c.cf
  | .a => !c.cf && !c.zf

/-- What an instruction does, but for where the next one is. -/
@[simp] def Op.effect (sym : L → Nat) (c : Core) : Op L → Core
  | .mov w src dst => c.set w dst (src.value c w)
  | .alu f w src dst =>
    let result := f.apply w (c.get w dst) (src.value c w)
    { c.set w dst result.1 with zf := result.1 == 0, cf := result.2 }
  | .cmp w src dst =>
    { c with
      zf := c.get w dst == src.value c w
      cf := decide ((c.get w dst).toNat < (src.value c w).toNat) }
  | .test w src dst => { c with zf := c.get w dst &&& src.value c w == 0, cf := false }
  | .shr w n dst =>
    let v := c.get w dst
    { c.set w dst (v >>> n) with zf := v >>> n == 0, cf := v.getLsbD (n - 1) }
  | .bts w n dst =>
    let v := c.get w dst
    { c.set w dst (v ||| BitVec.twoPow 64 n) with cf := v.getLsbD n }
  | .lea disp base dst => c.set .quad dst (c.regs base + BitVec.ofNat 64 disp)
  | .leaRip l dst => c.set .quad dst (BitVec.ofNat 64 (sym l))
  | .cli => { c with intr := false }
  | .cld => { c with df := false }
  | .jmp _ | .jcc _ _ | .jmpReg _ | .pause | .hlt => c

/-- Where the next instruction is, `next` being the one behind. -/
def Op.target (sym : L → Nat) (next : Nat) (c : Core) : Op L → Nat
  | .jmp l => sym l
  | .jcc cond l => if cond.holds c then sym l else next
  | .jmpReg r => (c.regs r).toNat
  | _ => next

@[simp] def Op.run (sym : L → Nat) (next : Nat) (c : Core) (o : Op L) : Core :=
  (o.effect sym c).goto (o.target sym next c)

/-! ## Values -/

@[simp] theorem mask_quad (v : BitVec 64) : v &&& Width.quad.mask = v :=
  BitVec.and_allOnes

@[simp] theorem kept_quad (v : BitVec 64) : v &&& Width.quad.kept = 0#64 := BitVec.and_zero

@[simp] theorem kept_long (v : BitVec 64) : v &&& Width.long.kept = 0#64 := BitVec.and_zero

@[simp] theorem mask_mask (w : Width) (v : BitVec 64) : v &&& w.mask &&& w.mask = v &&& w.mask := by
  rw [BitVec.and_assoc, BitVec.and_self]

/-- A quadword is the whole register. -/
@[simp] theorem get_quad (c : Core) (r : Reg) : c.get .quad r = c.regs r := mask_quad _

@[simp] theorem regs_set_quad (c : Core) (r : Reg) (v : BitVec 64) :
    (c.set .quad r v).regs r = v := by
  rw [Core.regs_set_self, mask_quad, kept_quad, BitVec.zero_or]

@[simp] theorem kept_mask (w : Width) (v : BitVec 64) : v &&& w.kept &&& w.mask = 0#64 := by
  rw [BitVec.and_assoc]
  cases w <;> exact BitVec.and_zero

/-- A result is read back. -/
@[simp] theorem get_set (c : Core) (w : Width) (r : Reg) (v : BitVec 64) :
    (c.set w r v).get w r = v &&& w.mask := by
  rw [Core.get, Core.regs_set_self, BitVec.and_or_distrib_right, kept_mask, mask_mask,
    BitVec.zero_or]

theorem toNat_mask_long (v : BitVec 64) : (v &&& Width.long.mask).toNat = v.toNat % 2 ^ 32 := by
  rw [BitVec.toNat_and, show Width.long.mask.toNat = 2 ^ 32 - 1 from rfl,
    Nat.and_two_pow_sub_one_eq_mod]

theorem getLsbD_mask_long {k : Nat} : Width.long.mask.getLsbD k = decide (k < 32) := by
  have h : Width.long.mask = BitVec.setWidth 64 (BitVec.allOnes 32) := by decide
  rw [h, BitVec.getLsbD_setWidth, BitVec.getLsbD_allOnes]
  by_cases hk : k < 32
  · simp [hk]
    omega
  · simp [hk]

/-- Two values are alike if they are alike as numbers. -/
theorem beq_toNat (x y : BitVec 64) : (x == y) = decide (x.toNat = y.toNat) := by
  rw [Bool.beq_eq_decide_eq]
  exact decide_eq_decide.mpr BitVec.toNat_inj.symm

end X86
