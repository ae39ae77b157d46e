-- SUMMARY: The TDX reset shim line by line, and what TDCALL does (`src/reset.S`).
import BootShim.Layout
import BootShim.Lib.PageWalk
import BootShim.Lib.X86.Rules

/-!
# The TDX reset shim's code

The listing has the lines of the source in their order, under its labels. TDCALL is the
one instruction that is not the processor's own: what the TDX module and, for a VMCALL,
the host answer is its input.
-/

namespace BootShim.ResetCode

open Layout PageWalk X86

/-! ## TDCALL -/

/-- A TDG.VP.VMCALL: what its registers show to the host, by register number. -/
structure VmCall where
  mask : BitVec 64
  shown : List (Nat × BitVec 64)

/-- What a TDCALL changes that is no register and no memory. -/
structure Td where
  /-- The pages accepted, in order. -/
  accepted : List Nat
  /-- What has been said to the host. -/
  calls : List VmCall

/-- What the TDX module answers, and behind a VMCALL the host. -/
structure Answer where
  status : UInt64
  regs : Reg → BitVec 64

/-- The general registers in the order of their numbers. -/
def registers : List Reg :=
  [.rax, .rcx, .rdx, .rbx, .rsp, .rbp, .rsi, .rdi, .r8, .r9, .r10, .r11, .r12, .r13, .r14, .r15]

/-- The pages of a range become private, and read as zeros. -/
def accept (o : Outer Td) (gpa bytes : Nat) : Outer Td :=
  { o with
    mem := o.mem.clear gpa bytes
    ext := { o.ext with accepted := o.ext.accepted ++ between page gpa (gpa + bytes) } }

/-- TDG.MEM.PAGE.ACCEPT: RCX holds the address and, in its low three bits, the level. A
    status of zero accepts the page. -/
def pageAccept (answer : Answer) (s : State Td) : State Td :=
  let rcx := (s.core.regs .rcx).toNat
  let core := s.core.set .quad .rax answer.status.toBitVec
  if answer.status = 0 then
    ⟨core, accept s.outer (rcx / page * page) (if rcx % 8 = 1 then 0x200000 else page)⟩
  else { s with core }

/-- TDG.VP.VMCALL: RCX says which registers the host sees and may change. -/
def vmCall (answer : Answer) (s : State Td) : State Td :=
  let mask := s.core.regs .rcx
  let call := { mask, shown := (registers.zipIdx.filter fun x => mask.getLsbD x.2).map fun x =>
    (x.2, s.core.regs x.1) }
  let regs := fun r =>
    if r = .rax then answer.status.toBitVec
    else if mask.getLsbD (registers.idxOf r) then answer.regs r
    else s.core.regs r
  ⟨{ s.core with regs }, { s.outer with
    ext := { s.outer.ext with calls := s.outer.ext.calls ++ [call] } }⟩

/-- TDCALL with the leaf in RAX. Other leaves are not known here. -/
inductive Outside where
  | tdcall

def outside (_ : Outside) (answer : Answer) (s : State Td) : Option (State Td) :=
  if s.core.regs .rax = 6 then some (pageAccept answer s)
  else if s.core.regs .rax = 0 then some (vmCall answer s)
  else none

/-! ## The listing -/

inductive Symbol where
  | resetStart | flat32 | longMode | acceptNext | bootKernel | acceptRange | accept4k | accept2m
  | acceptDone | apWait | apPoll | die | fatal | resetVector
  /-- Where the builder writes the entry point and the ranges. -/
  | shimData
deriving DecidableEq

/-- TDX_PAGE_SIZE_MISMATCH -/
@[simp] abbrev pageSizeMismatch : Nat := 0xc0000b0b

def listing : List (Block Symbol Outside) := [
  -- TDH.VP.INIT starts every processor here in 32-bit protected mode, its index in ESI.
  ⟨.resetStart, .code32, [
    .op .cli,
    .op .cld,
    -- The handed-over descriptors give way to the measured ones.
    .op (.mov .long (.imm gdtPtr) .rax),
    .lgdt ⟨0, .rax⟩,
    .ljmp bootCs32 resetAlias .flat32 .resetStart]⟩,
  ⟨.flat32, .code32, [
    .op (.mov .long (.imm bootDs) .rax),
    .movSeg .rax .ds,
    .movSeg .rax .es,
    .movSeg .rax .ss,
    .movSeg .rax .fs,
    .movSeg .rax .gs,
    -- EFER.LME is set already.
    .movFromCr .cr4 .rax,
    .op (.bts .long 5 .rax),
    .movToCr .rax .cr4,
    .op (.mov .long (.imm Layout.pageTables) .rax),
    .movToCr .rax .cr3,
    .movFromCr .cr0 .rax,
    .op (.bts .long 31 .rax),
    .movToCr .rax .cr0,
    .ljmp bootCs resetAlias .longMode .resetStart]⟩,
  ⟨.longMode, .code64, [
    .op (.test .long (.reg .rsi) .rsi),
    .op (.jcc .nz .apWait),
    .op (.mov .quad (.imm bspStackTop) .rsp),
    .op (.leaRip .shimData .rbp),
    .op (.alu .add .quad (.imm 8) .rbp)]⟩,
  ⟨.acceptNext, .code64, [
    .load .quad ⟨0, .rbp⟩ .r12,
    .load .quad ⟨8, .rbp⟩ .r13,
    .op (.mov .quad (.reg .r12) .rax),
    .op (.alu .or .quad (.reg .r13) .rax),
    .op (.jcc .z .bootKernel),
    .op (.alu .add .quad (.imm 16) .rbp),
    .call .acceptRange,
    .op (.jmp .acceptNext)]⟩,
  ⟨.bootKernel, .code64, [
    .op (.mov .quad (.imm Layout.zeroPage) .rsi),
    .op (.leaRip .shimData .rax),
    .jmpMem ⟨0, .rax⟩]⟩,
  ⟨.acceptRange, .code64, [
    .op (.cmp .quad (.reg .r13) .r12),
    .op (.jcc .ae .acceptDone),
    .op (.test .quad (.imm 0x1fffff) .r12),
    .op (.jcc .nz .accept4k),
    .op (.lea 0x200000 .r12 .r14),
    .op (.cmp .quad (.reg .r13) .r14),
    .op (.jcc .a .accept4k),
    .op (.mov .quad (.reg .r12) .rcx),
    .op (.alu .or .quad (.imm 1) .rcx),
    .op (.mov .quad (.imm 6) .rax),
    .ext .tdcall,
    .op (.test .quad (.reg .rax) .rax),
    .op (.jcc .z .accept2m),
    .op (.shr .quad 32 .rax),
    .op (.cmp .long (.imm pageSizeMismatch) .rax),
    .op (.jcc .nz .die)]⟩,
  ⟨.accept4k, .code64, [
    .op (.mov .quad (.reg .r12) .rcx),
    .op (.mov .quad (.imm 6) .rax),
    .ext .tdcall,
    .op (.test .quad (.reg .rax) .rax),
    .op (.jcc .nz .die),
    .op (.alu .add .quad (.imm page) .r12),
    .op (.jmp .acceptRange)]⟩,
  ⟨.accept2m, .code64, [
    .op (.alu .add .quad (.imm 0x200000) .r12),
    .op (.jmp .acceptRange)]⟩,
  ⟨.acceptDone, .code64, [
    .ret]⟩,
  ⟨.apWait, .code64, [
    .op (.mov .quad (.imm Layout.mailbox) .rbx)]⟩,
  ⟨.apPoll, .code64, [
    .op .pause,
    .load .long ⟨0, .rbx⟩ .rax,
    .op (.cmp .long (.imm 1) .rax),
    .op (.jcc .nz .apPoll),
    .load .long ⟨4, .rbx⟩ .rax,
    .op (.cmp .long (.reg .rsi) .rax),
    .op (.jcc .nz .apPoll),
    .load .quad ⟨8, .rbx⟩ .rax,
    .op (.test .quad (.reg .rax) .rax),
    .op (.jcc .z .apPoll),
    .store .long (.imm 0) ⟨0, .rbx⟩,
    .op (.jmpReg .rax)]⟩,
  -- ReportFatalError, with R10, R11 and R12 shown to the host.
  ⟨.die, .code64, [
    .op (.mov .long (.imm 0x1c00) .rcx),
    .op (.alu .xor .long (.reg .r10) .r10),
    .op (.mov .long (.imm 0x10003) .r11),
    .op (.alu .xor .long (.reg .rax) .rax),
    .ext .tdcall]⟩,
  ⟨.fatal, .code64, [
    .op .cli,
    .op .hlt,
    .op (.jmp .fatal)]⟩,
  -- Under `.code64` in the source; its five bytes are the same jump in 32-bit code, and
  -- that is what runs them.
  ⟨.resetVector, .code32, [
    .op (.jmp .resetStart)]⟩]

end BootShim.ResetCode
