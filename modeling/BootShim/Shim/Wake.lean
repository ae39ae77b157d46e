-- SUMMARY: The SNP shim's wake of the other processors as a machine whose inputs are the answers of a host it does not trust (`src/snp_reset.S`).
import BootShim.Lib.Machine
import BootShim.Shim.SnpReset

/-!
# Waking the other processors

The code from `wake_aps` on: one page is made shared with the host and registered as the
GHCB, three interrupts are requested over it, and it is made private again. The host's
answer is the input of the step that asks for it: any value in the GHCB MSR and any
contents of the shared page. Every other step ignores its input.
-/

namespace BootShim.Wake

open Bytes Layout

/-! ## What the shim does that others see -/

/-- A dialogue with the processor or with the host, or a write to the shared page. -/
inductive Event where
  /-- A write through the shared alias. -/
  | write (a : Nat) (bs : List UInt8)
  /-- PVALIDATE with RAX, ECX and EDX, and the status it reports in EAX. -/
  | pvalidate (gpa size validate : Nat) (status : UInt32)
  /-- A VMGEXIT with a request in the GHCB MSR and a shared page, and the two as the
      host leaves them. -/
  | vmgexit (request : Nat) (ghcb : Memory) (response : Nat) (ghcb' : Memory)

/-- What the shim cannot choose. -/
structure Answer where
  /-- The status of a PVALIDATE. The shim never looks at the carry flag here. -/
  status : UInt32
  /-- The GHCB MSR behind a VMGEXIT. -/
  msr : UInt64
  /-- What the shared page reads as behind it, by alias address. -/
  ghcb : Memory

/-- Where a call returns to. -/
inductive Site where
  | shared
  | registered
  | initSent
  | sipiSent
  | sipiResent
  | madePrivate
deriving DecidableEq

def Site.all : List Site := [.shared, .registered, .initSent, .sipiSent, .sipiResent, .madePrivate]

/-- The addresses behind the calls, all of them different. -/
structure Code where
  addr : Site → Nat
  injective : Function.Injective addr
  lt : ∀ site, addr site < 2 ^ 64

/-- Where control is: at a label, behind a call, or gone to an address. -/
inductive Label where
  | wakeAps
  /-- Behind the first `jnz die_wake`. -/
  | share
  | register
  | clear
  | ghcbMsr
  | sendIpi
  | behind (site : Site)
  | validateAgain
  | snpBootKernel
  | dieWake
  | fatal
  /-- The jump to the kernel. -/
  | jumped (rip : Nat)
  /-- A return to somewhere else than a call. -/
  | lost (rip : Nat)
deriving DecidableEq

/-- The boot processor and what it shares with the host. The private bytes of the GHCB's page
    are not followed while it is rescinded, shared and taken back: `mem` keeps what was
    measured there, and nothing the wake does depends on it. -/
structure World where
  pc : Label
  rsp : Nat
  rsi : Nat
  rdi : Nat
  rax : Nat
  rbx : Nat
  rcx : Nat
  rdx : Nat
  r15 : Nat
  /-- Private memory, by address. -/
  mem : Memory
  /-- What is read through the shared alias, by alias address. -/
  shared : Memory
  /-- The GHCB MSR. -/
  msr : Nat
  log : List Event

/-! ## Instructions -/

/-- The first address of the GHCB page in the shared alias. -/
@[simp] abbrev ghcbAt : Nat := sharedAlias + snpGhcb

/-- `shim_data(%rip)` -/
@[simp] abbrev dataAt : Nat := shimBase + shimData

/-- The GHCB MSR's number. -/
@[simp] abbrev ghcbMsrIndex : Nat := 0xc0010130

/-- A store to an address in either half of the identity map. -/
def World.store (w : World) (a : Nat) (bs : List UInt8) : World :=
  if sharedAlias ≤ a then
    { w with shared := w.shared.store a bs, log := w.log ++ [.write a bs] }
  else { w with mem := w.mem.store a bs }

/-- Stores in order. -/
def World.stores (w : World) (ws : List (Nat × List UInt8)) : World :=
  ws.foldl (fun w x => w.store x.1 x.2) w

/-- The 32-bit word at an address of either half. -/
def World.dword (w : World) (a : Nat) : Nat :=
  if sharedAlias ≤ a then w.shared.read 4 a else w.mem.read 4 a

/-- `call`: the address behind it goes below the stack pointer. -/
def call (code : Code) (site : Site) (target : Label) (w : World) : World :=
  { { w with rsp := addU64 w.rsp (2 ^ 64 - 8) }.store (addU64 w.rsp (2 ^ 64 - 8))
      (toLE 8 (code.addr site)) with pc := target }

/-- `ret`, to behind the call or to wherever else the stack says. -/
def leave (code : Code) (w : World) : World :=
  let rip := w.mem.word w.rsp
  let w := { w with rsp := addU64 w.rsp 8 }
  match Site.all.find? fun site => code.addr site = rip with
  | some site => { w with pc := .behind site }
  | none => { w with pc := .lost rip }

/-- PVALIDATE of the page at RAX. -/
def pvalidate (answer : Answer) (w : World) : World :=
  { w with
    rax := answer.status.toNat
    log := w.log ++ [.pvalidate w.rax (w.rcx % 2 ^ 32) (w.rdx % 2 ^ 32) answer.status] }

/-- WRMSR of the GHCB MSR, the one MSR the wake writes. -/
def wrmsr (w : World) : World := { w with msr := w.rdx % 2 ^ 32 * 2 ^ 32 + w.rax % 2 ^ 32 }

def rdmsr (w : World) : World := { w with rax := w.msr % 2 ^ 32, rdx := w.msr / 2 ^ 32 }

/-- VMGEXIT. The host sees the MSR and the shared page, and may change both. -/
def vmgexit (answer : Answer) (w : World) : World :=
  { w with
    msr := answer.msr.toNat
    shared := answer.ghcb
    log := w.log ++ [.vmgexit w.msr w.shared answer.msr.toNat answer.ghcb] }

/-- `rep stosq` -/
def repStosq (w : World) : World :=
  { w.store w.rdi (List.replicate w.rcx (toLE 8 w.rax)).flatten with
    rdi := addU64 w.rdi (8 * w.rcx), rcx := 0 }

/-! ## The code -/

/-- The two checks on the answer to a page state change. -/
def checkStateChange (next : Label) (w : World) : World :=
  let w := { w with rdx := w.rax >>> 32 }
  if w.rdx ≠ 0 then { w with pc := .dieWake }
  else
    let w := { w with rax := w.rax % 2 ^ 32 &&& 0xfff }
    if w.rax ≠ 0x15 then { w with pc := .dieWake } else { w with pc := next }

/-- What `send_ipi` writes behind RBX, in order. The constants pass through RAX. -/
def ghcbWrites (rbx esi : Nat) : List (Nat × List UInt8) :=
  [ (rbx + 0x800, toLE 4 esi),
    -- SVM_VMGEXIT_MMIO_WRITE
    (rbx + 0x390, toLE 8 0x80000002),
    -- ICR low
    (rbx + 0x398, toLE 8 0xfee00300),
    (rbx + 0x3a0, toLE 8 4),
    (rbx + 0x3a8, toLE 8 (snpGhcb + 0x800)),
    (rbx + 0x3f0, toLE 8 0),
    (rbx + 0x3f8, toLE 8 0),
    (rbx + 0x3fe, toLE 1 0x3c),
    (rbx + 0xffa, toLE 2 2),
    (rbx + 0xffc, toLE 4 0) ]

/-- `send_ipi` up to its VMGEXIT. -/
def fillGhcb (w : World) : World :=
  let w := w.stores (ghcbWrites w.rbx w.rsi)
  wrmsr { w with rcx := ghcbMsrIndex, rax := snpGhcb, rdx := 0 }

/-- One stretch of code. -/
def step (code : Code) (answer : Answer) (w : World) : World :=
  match w.pc with
  | .wakeAps =>
    let w := pvalidate answer { w with r15 := 1, rax := snpGhcb, rcx := 0, rdx := 0 }
    if w.rax % 2 ^ 32 ≠ 0 then { w with pc := .dieWake } else { w with pc := .share }
  | .share =>
    call code .shared .ghcbMsr { w with r15 := 2, rax := snpGhcb ||| (2 <<< 52) ||| 0x14 }
  | .behind .shared => checkStateChange .register w
  | .register =>
    call code .registered .ghcbMsr { w with r15 := 3, rax := snpGhcb ||| 0x12 }
  | .behind .registered =>
    if w.rax ≠ snpGhcb ||| 0x13 then { w with pc := .dieWake } else { w with pc := .clear }
  | .clear =>
    let w := { w with r15 := 4, rbx := ghcbAt, rdi := ghcbAt, rax := 0, rcx := 512 }
    call code .initSent .sendIpi { repStosq w with rsi := 0xc4500 }
  | .behind .initSent =>
    call code .sipiSent .sendIpi { w with r15 := 5, rsi := 0xc4600 }
  | .behind .sipiSent => call code .sipiResent .sendIpi { w with r15 := 6 }
  | .behind .sipiResent =>
    call code .madePrivate .ghcbMsr { w with r15 := 7, rax := snpGhcb ||| (1 <<< 52) ||| 0x14 }
  | .behind .madePrivate => checkStateChange .validateAgain w
  | .validateAgain =>
    let w := pvalidate answer { w with r15 := 8, rax := snpGhcb, rcx := 0, rdx := 1 }
    if w.rax % 2 ^ 32 ≠ 0 then { w with pc := .dieWake } else { w with pc := .snpBootKernel }
  | .snpBootKernel =>
    let w := { w with rsi := Layout.zeroPage, rax := dataAt }
    { w with pc := .jumped (w.mem.word w.rax) }
  | .sendIpi =>
    let w := vmgexit answer (fillGhcb w)
    let w := { w with rax := w.dword (w.rbx + 0x398) }
    if w.rax ≠ 0 then { w with pc := .dieWake } else leave code w
  | .ghcbMsr =>
    let w := { w with rcx := ghcbMsrIndex, rdx := w.rax >>> 32 }
    let w := rdmsr (vmgexit answer (wrmsr w))
    let w := { w with rdx := (w.rdx <<< 32) % 2 ^ 64 }
    leave code { w with rax := w.rax ||| w.rdx }
  | .dieWake =>
    let w := { w with rax := ((w.r15 % 2 ^ 32) <<< 16) % 2 ^ 32 ||| 0xf100, rdx := 0 }
    { vmgexit answer (wrmsr { w with rcx := ghcbMsrIndex }) with pc := .fatal }
  | .fatal | .jumped _ | .lost _ => w

/-! ## What the instructions come to -/

variable {code : Code} {answer : Answer} {w : World}

theorem store_private {a : Nat} {bs : List UInt8} (h : a < sharedAlias) :
    w.store a bs = { w with mem := w.mem.store a bs } := if_neg (Nat.not_le.mpr h)

theorem store_shared {a : Nat} {bs : List UInt8} (h : sharedAlias ≤ a) :
    w.store a bs = { w with shared := w.shared.store a bs, log := w.log ++ [.write a bs] } :=
  if_pos h

theorem call_eq (code : Code) (site : Site) (target : Label) (hrsp : w.rsp = bspStackTop) :
    call code site target w =
      { w with
        rsp := bspStackTop - 8
        mem := w.mem.store (bspStackTop - 8) (toLE 8 (code.addr site))
        pc := target } := by
  have hdown : addU64 w.rsp (2 ^ 64 - 8) = bspStackTop - 8 := by
    rw [hrsp]
    decide
  rw [call, hdown, store_private (by decide)]

theorem find?_site (code : Code) (site : Site) :
    (Site.all.find? fun s => code.addr s = code.addr site) = some site := by
  have hfun : (fun s => decide (code.addr s = code.addr site)) = fun s => decide (s = site) :=
    funext fun s => decide_eq_decide.mpr code.injective.eq_iff
  rw [hfun]
  cases site <;> rfl

/-- A return finds its way back to the call. -/
theorem leave_eq {site : Site} (hrsp : w.rsp = bspStackTop - 8)
    (hret : w.mem.word (bspStackTop - 8) = code.addr site) :
    leave code w = { w with rsp := bspStackTop, pc := .behind site } := by
  have hup : addU64 (bspStackTop - 8) 8 = bspStackTop := by decide
  simp only [leave, hrsp, hret, find?_site, hup]

/-- The two halves of a register, put together again. -/
theorem halves_eq {v : Nat} (hv : v < 2 ^ 64) : (v >>> 32) % 2 ^ 32 * 2 ^ 32 + v % 2 ^ 32 = v := by
  rw [Nat.shiftRight_eq_div_pow]
  omega

theorem or_halves_eq {v : Nat} (hv : v < 2 ^ 64) :
    v % 2 ^ 32 ||| ((v / 2 ^ 32) <<< 32) % 2 ^ 64 = v := by
  have hshift : ((v / 2 ^ 32) <<< 32) % 2 ^ 64 = (v / 2 ^ 32) <<< 32 :=
    Nat.mod_eq_of_lt (by rw [Nat.shiftLeft_eq]; omega)
  rw [hshift, Nat.or_comm, ← Nat.shiftLeft_add_eq_or_of_lt (Nat.mod_lt v (by decide)),
    Nat.shiftLeft_eq]
  omega

/-- `ghcb_msr` makes the request in RAX and returns with the host's answer in it. -/
theorem step_ghcbMsr {site : Site} (hpc : w.pc = .ghcbMsr) (hrax : w.rax < 2 ^ 64)
    (hrsp : w.rsp = bspStackTop - 8) (hret : w.mem.word (bspStackTop - 8) = code.addr site) :
    step code answer w =
      { w with
        rcx := ghcbMsrIndex
        rdx := ((answer.msr.toNat / 2 ^ 32) <<< 32) % 2 ^ 64
        rax := answer.msr.toNat
        msr := answer.msr.toNat
        shared := answer.ghcb
        log := w.log ++ [.vmgexit w.rax w.shared answer.msr.toNat answer.ghcb]
        rsp := bspStackTop
        pc := .behind site } := by
  have hor := or_halves_eq answer.msr.toNat_lt
  simp only [step, hpc, rdmsr, vmgexit, wrmsr, halves_eq hrax, hor]
  exact leave_eq hrsp hret

theorem stores_shared {ws : List (Nat × List UInt8)} (h : ∀ x ∈ ws, sharedAlias ≤ x.1) :
    w.stores ws =
      { w with
        shared := w.shared.load ws
        log := w.log ++ ws.map fun x => .write x.1 x.2 } := by
  induction ws generalizing w with
  | nil => simp [World.stores, Memory.load]
  | cons x ws ih =>
    obtain ⟨hx, hws⟩ := List.forall_mem_cons.mp h
    rw [World.stores, List.foldl_cons, store_shared hx]
    refine (ih hws).trans ?_
    simp [Memory.load]

theorem le_of_mem_ghcbWrites {esi : Nat} :
    ∀ x ∈ ghcbWrites ghcbAt esi, ghcbAt ≤ x.1 ∧ x.1 + x.2.length ≤ ghcbAt + page := by
  simp [ghcbWrites]

theorem fillGhcb_eq (hrbx : w.rbx = ghcbAt) :
    fillGhcb w =
      { w with
        rax := snpGhcb
        rcx := ghcbMsrIndex
        rdx := 0
        msr := snpGhcb
        shared := w.shared.load (ghcbWrites ghcbAt w.rsi)
        log := w.log ++ (ghcbWrites ghcbAt w.rsi).map fun x => .write x.1 x.2 } := by
  have halias : ∀ x ∈ ghcbWrites ghcbAt w.rsi, sharedAlias ≤ x.1 := fun x hx =>
    le_trans (by decide) (le_of_mem_ghcbWrites x hx).1
  have hwrites : ghcbWrites w.rbx w.rsi = ghcbWrites ghcbAt w.rsi := by rw [hrbx]
  have hmsr : 0 % 2 ^ 32 * 2 ^ 32 + snpGhcb % 2 ^ 32 = snpGhcb := by decide
  rw [fillGhcb, hwrites, stores_shared halias]
  simp only [wrmsr, hmsr]

/-- `send_ipi` fills the GHCB in, and returns if the host acknowledges. -/
theorem step_sendIpi {site : Site} (hpc : w.pc = .sendIpi) (hrbx : w.rbx = ghcbAt)
    (hrsp : w.rsp = bspStackTop - 8) (hret : w.mem.word (bspStackTop - 8) = code.addr site) :
    step code answer w =
      { w with
        rcx := ghcbMsrIndex
        rdx := 0
        rax := answer.ghcb.read 4 (ghcbAt + 0x398)
        msr := answer.msr.toNat
        shared := answer.ghcb
        log := (w.log ++ (ghcbWrites ghcbAt w.rsi).map fun x => .write x.1 x.2) ++
          [.vmgexit snpGhcb (w.shared.load (ghcbWrites ghcbAt w.rsi)) answer.msr.toNat answer.ghcb]
        rsp := if answer.ghcb.read 4 (ghcbAt + 0x398) = 0 then bspStackTop else bspStackTop - 8
        pc := if answer.ghcb.read 4 (ghcbAt + 0x398) = 0 then .behind site else .dieWake } := by
  have halias : sharedAlias ≤ ghcbAt + 0x398 := by decide
  simp only [step, hpc, fillGhcb_eq hrbx, vmgexit, World.dword, hrbx, halias, if_true, ne_eq, ite_not]
  split
  · exact leave_eq hrsp hret
  · rw [hrsp]

end BootShim.Wake
