-- SUMMARY: The SNP reset shim's boot processor as a machine whose inputs are the outcomes of PVALIDATE (`src/snp_reset.S`).
import BootShim.Lib.Machine
import BootShim.Shim.Walk

/-!
# The SNP reset shim

The code from `snp_long_mode` to `wake_aps`, one step for each stretch between labels.
The outcome of a PVALIDATE is the input of the step that executes it; every other step
ignores its input.
-/

namespace BootShim.SnpReset

open Bytes Image Layout PageWalk Shim

/-- Where control is: at a label, or gone to an address. -/
inductive Label where
  | snpLongMode
  | validateNext
  | validateRange
  /-- Behind the tests of `validate_range`, where a 2-MiB page fits. -/
  | validateLarge
  | validate4k
  | zero2m
  | validated
  | wakeAps
  /-- The shim asks the host to terminate it. -/
  | die
  /-- A return to somewhere else than the call. -/
  | lost (rip : Nat)
deriving DecidableEq

/-- What a PVALIDATE leaves in EAX and in the carry flag. -/
structure Outcome where
  eax : UInt32
  carry : Bool
deriving DecidableEq

/-- The only outcome that changes a page. -/
def Outcome.ok : Outcome := ⟨0, false⟩

/-- FAIL_SIZEMISMATCH -/
@[simp] abbrev failSizeMismatch : Nat := 6

/-- `shim_data(%rip)` -/
@[simp] abbrev dataAt : Nat := shimBase + shimData

/-- PVALIDATE of the page at RAX, large if ECX is 1: EDX says whether to validate it or to
    rescind. The page changes only if EAX is zero and the carry clear. -/
def pvalidate (outcome : Outcome) (s : Cpu Label) : Cpu Label :=
  let gpa := s.rax / page * page
  let pages := between page gpa (gpa + if s.rcx % 2 ^ 32 = 1 then largePage else page)
  let s := { s with rax := outcome.eax.toNat, cf := outcome.carry }
  if outcome.eax = 0 ∧ outcome.carry = false then
    if s.rdx % 2 ^ 32 = 1 then { s with taken := s.taken ++ pages }
    else { s with taken := s.taken.filter (· ∉ pages) }
  else s

/-- The words that `rep stosq` stores, from the lowest on. -/
def stosq (rax : Nat) : Memory → Nat → Nat → Memory
  | m, _, 0 => m
  | m, rdi, rcx + 1 => stosq rax (m.store rdi (toLE 8 rax)) (addU64 rdi 8) rcx

/-- `rep stosq` -/
def repStosq (s : Cpu Label) : Cpu Label :=
  { s with
    mem := stosq s.rax s.mem s.rdi s.rcx
    cleared := s.cleared ++ [(s.rdi, 8 * s.rcx)]
    rdi := addU64 s.rdi (8 * s.rcx)
    rcx := 0 }

/-- One stretch of code. `ret` is the address behind the call of `validate_range`. -/
def step (ret : Nat) (outcome : Outcome) (s : Cpu Label) : Cpu Label :=
  match s.pc with
  | .snpLongMode => { s with rax := bootDs, rbp := addU64 dataAt 8, pc := .validateNext }
  | .validateNext => nextRange ret .wakeAps .validateRange s
  | .validateRange => pickPage .validated .validate4k .validateLarge s
  | .validateLarge =>
    let s := pvalidate outcome { s with rax := s.r12, rcx := 1, rdx := 1 }
    let s := { s with rbx := s.rbx / 256 * 256 + s.cf.toNat, r15 := s.rax % 2 ^ 32 }
    if s.rax % 2 ^ 32 ≠ 0 then
      -- `size_2m`
      if s.rax % 2 ^ 32 ≠ failSizeMismatch then { s with pc := .die }
      else { s with pc := .validate4k }
    else if s.rbx % 256 ≠ 0 then { s with pc := .die }
    else { s with pc := .zero2m }
  | .validate4k =>
    let s := pvalidate outcome { s with rax := s.r12, rcx := 0, rdx := 1 }
    let s := { s with rbx := s.rbx / 256 * 256 + s.cf.toNat, r15 := s.rax % 2 ^ 32 }
    if s.rax % 2 ^ 32 ≠ 0 then { s with pc := .die }
    else if s.rbx % 256 ≠ 0 then { s with pc := .die }
    else
      let s := repStosq { s with rdi := s.r12, rax := 0, rcx := 512 }
      { s with r12 := addU64 s.r12 page, pc := .validateRange }
  | .zero2m =>
    let s := repStosq { s with rdi := s.r12, rax := 0, rcx := 0x40000 }
    { s with r12 := addU64 s.r12 largePage, pc := .validateRange }
  | .validated => leave ret .validateNext .lost s
  | .wakeAps | .die | .lost _ => s

/-- The boot processor at `snp_long_mode`, with the shim's page in memory. -/
structure Start (pg : List UInt8) (s : Cpu Label) : Prop where
  pc : s.pc = .snpLongMode
  rsp : s.rsp = bspStackTop
  shim : s.mem.Holds shimBase pg
  taken : s.taken = []
  pushed : s.pushed = []
  cleared : s.cleared = []

variable {blob : ShimBlob} {entry ret : Nat} {ranges : List (Nat × Nat)} {pg : List UInt8}
  {m₀ : Memory} {s : Cpu Label} {outcome : Outcome}

/-! ## Clearing -/

/-- Storing words of zero clears the memory they cover. -/
theorem stosq_zero {n : Nat} (m : Memory) (a : Nat) (h : a + 8 * n < 2 ^ 64) :
    stosq 0 m a n = m.clear a (8 * n) := by
  induction n generalizing m a with
  | zero => exact (Memory.clear_zero m a).symm
  | succ n ih =>
    have hword : toLE 8 0 = zeros 8 := by decide
    have hnext : addU64 a 8 = a + 8 := addU64_of_lt (by omega)
    rw [stosq, hnext, ih _ _ (by omega), hword, Memory.store_zeros, Memory.clear_clear]
    congr 1
    omega

theorem repStosq_zero {n b : Nat} (hrax : s.rax = 0) (hrcx : s.rcx = n) (hbytes : 8 * n = b)
    (h : s.rdi + b < 2 ^ 64) :
    repStosq s =
      { s with
        mem := s.mem.clear s.rdi b
        cleared := s.cleared ++ [(s.rdi, b)]
        rdi := s.rdi + b
        rcx := 0 } := by
  subst hbytes
  rw [repStosq, hrax, hrcx, stosq_zero _ _ h, addU64_of_lt h]

/-! ## The two attempts -/

theorem pvalidate_ok (hrdx : s.rdx % 2 ^ 32 = 1) (haligned : s.rax % page = 0) :
    pvalidate .ok s =
      { s with
        rax := 0
        cf := false
        taken := s.taken ++
          between page s.rax (s.rax + if s.rcx % 2 ^ 32 = 1 then largePage else page) } := by
  have hgpa : s.rax / page * page = s.rax := by
    simp only [page] at *
    omega
  simp only [pvalidate, hgpa, hrdx, Outcome.ok, and_self, if_true]
  rfl

theorem step_large_ok (hpc : s.pc = .validateLarge) (haligned : s.r12 % page = 0) :
    step ret .ok s =
      { s with
        rax := 0
        rcx := 1
        rdx := 1
        rbx := s.rbx / 256 * 256
        r15 := 0
        cf := false
        taken := s.taken ++ between page s.r12 (s.r12 + largePage)
        pc := .zero2m } := by
  simp only [step, hpc]
  rw [pvalidate_ok rfl haligned]
  simp only [Nat.zero_mod, Nat.one_mod_two_pow_eq_one.mpr, Nat.zero_lt_succ, Bool.toNat_false,
    Nat.add_zero, Nat.mul_mod_left, ne_eq, not_true, if_false, if_true]

/-- Any other outcome leaves everything but scratch registers as it was. -/
theorem step_large_of_ne (hpc : s.pc = .validateLarge) (hne : outcome ≠ .ok) :
    step ret outcome s =
      { s with
        rax := outcome.eax.toNat
        rcx := 1
        rdx := 1
        rbx := s.rbx / 256 * 256 + outcome.carry.toNat
        r15 := outcome.eax.toNat
        cf := outcome.carry
        pc := if outcome.eax.toNat = failSizeMismatch then .validate4k else .die } := by
  obtain ⟨eax, carry⟩ := outcome
  have hlt : eax.toNat % 2 ^ 32 = eax.toNat := Nat.mod_eq_of_lt eax.toNat_lt
  by_cases heax : eax = 0
  · obtain rfl : carry = true := by
      cases carry with
      | true => rfl
      | false => exact absurd (by rw [heax]; rfl) hne
    simp [step, hpc, pvalidate, heax]
  · have hne' : eax.toNat ≠ 0 := fun h => heax (UInt32.toNat_inj.mp h)
    simp only [step, hpc, pvalidate, heax, false_and, if_false, hlt, hne', ne_eq,
      not_false_eq_true, if_true, ite_not]
    by_cases h6 : eax.toNat = failSizeMismatch
    · rw [if_pos h6, if_pos h6]
    · rw [if_neg h6, if_neg h6]

theorem step_small_ok (hpc : s.pc = .validate4k) (haligned : s.r12 % page = 0)
    (hlt : s.r12 + page < 2 ^ 64) :
    step ret .ok s =
      { s with
        rax := 0
        rcx := 0
        rdx := 1
        rdi := s.r12 + page
        rbx := s.rbx / 256 * 256
        r15 := 0
        cf := false
        taken := s.taken ++ between page s.r12 (s.r12 + page)
        mem := s.mem.clear s.r12 page
        cleared := s.cleared ++ [(s.r12, page)]
        r12 := s.r12 + page
        pc := .validateRange } := by
  simp only [step, hpc]
  rw [pvalidate_ok rfl haligned]
  simp only [Nat.zero_mod, Bool.toNat_false, Nat.add_zero, Nat.mul_mod_left, Nat.zero_ne_one,
    ne_eq, not_true, if_false]
  rw [repStosq_zero (n := 512) (b := page) rfl rfl (by decide) hlt, addU64_of_lt hlt]

theorem step_small_of_ne (hpc : s.pc = .validate4k) (hne : outcome ≠ .ok) :
    step ret outcome s =
      { s with
        rax := outcome.eax.toNat
        rcx := 0
        rdx := 1
        rbx := s.rbx / 256 * 256 + outcome.carry.toNat
        r15 := outcome.eax.toNat
        cf := outcome.carry
        pc := .die } := by
  obtain ⟨eax, carry⟩ := outcome
  have hlt : eax.toNat % 2 ^ 32 = eax.toNat := Nat.mod_eq_of_lt eax.toNat_lt
  by_cases heax : eax = 0
  · obtain rfl : carry = true := by
      cases carry with
      | true => rfl
      | false => exact absurd (by rw [heax]; rfl) hne
    simp [step, hpc, pvalidate, heax]
  · have hne' : eax.toNat ≠ 0 := fun h => heax (UInt32.toNat_inj.mp h)
    simp only [step, hpc, pvalidate, heax, false_and, if_false, hlt, hne', ne_eq,
      not_false_eq_true, if_true]

theorem step_zero2m (hpc : s.pc = .zero2m) (hlt : s.r12 + largePage < 2 ^ 64) :
    step ret outcome s =
      { s with
        rax := 0
        rcx := 0
        rdi := s.r12 + largePage
        mem := s.mem.clear s.r12 largePage
        cleared := s.cleared ++ [(s.r12, largePage)]
        r12 := s.r12 + largePage
        pc := .validateRange } := by
  simp only [step, hpc]
  rw [repStosq_zero (n := 0x40000) (b := largePage) rfl rfl (by decide) hlt, addU64_of_lt hlt]

/-! ## The invariant -/

/-- What holds at each label. -/
def At (ranges : List (Nat × Nat)) (ret : Nat) (s : Cpu Label) : Label → Prop
  | .snpLongMode => s.rsp = bspStackTop ∧ s.taken = []
  | .validateNext => ∃ done rest, Between shimBase ranges s done rest
  | .validateRange => ∃ done r rest, InCall shimBase ranges ret s done r rest s.r12 s.r12
  | .validateLarge => ∃ done r rest, InCall shimBase ranges ret s done r rest s.r12 s.r12 ∧
      s.r12 + largePage ≤ r.2
  | .validate4k => ∃ done r rest, InCall shimBase ranges ret s done r rest s.r12 s.r12 ∧
      s.r12 < r.2
  -- The large page is valid here and still holds what the host left in it.
  | .zero2m => ∃ done r rest, InCall shimBase ranges ret s done r rest (s.r12 + largePage) s.r12
  | .validated => ∃ done r rest, InCall shimBase ranges ret s done r rest s.r12 s.r12 ∧
      s.r12 = r.2
  | .wakeAps => AllTaken ranges s
  | .die => s.taken <+: pagesOf page ranges
  | .lost _ => False

/-- The invariant of a run: nothing but the listed pages has been touched, and those
    validated are the first ones of the list, up to where the machine stands. -/
structure Inv (ranges : List (Nat × Nat)) (pg : List UInt8) (ret : Nat) (m₀ : Memory)
    (s : Cpu Label) : Prop where
  sane : Sane shimBase ranges pg m₀ s
  at_pc : At ranges ret s s.pc

/-- The walk is over: the machine has given up, or goes on to wake the others. -/
def Stopped (s : Cpu Label) : Prop := s.pc = .die ∨ s.pc = .wakeAps

/-- A bound on the steps a run can still take. -/
def measure (ranges : List (Nat × Nat)) (s : Cpu Label) : Nat :=
  match s.pc with
  | .snpLongMode => 8 * (pagesOf page ranges).length + 16 * ranges.length + 7
  | .validateNext => left shimBase ranges s + 1
  | .validated => left shimBase ranges s + 2
  | .validate4k => left shimBase ranges s + 3
  | .validateLarge => left shimBase ranges s + 4
  | .validateRange => left shimBase ranges s + 5
  | .zero2m => left shimBase ranges s + 6
  | _ => 0

/-- A step that keeps the invariant and comes closer to the end. -/
def Advances (ranges : List (Nat × Nat)) (pg : List UInt8) (ret : Nat) (m₀ : Memory)
    (s s' : Cpu Label) : Prop :=
  Inv ranges pg ret m₀ s' ∧ (Stopped s' ∨ measure ranges s' < measure ranges s)

/-! ### One step -/

section

variable (h : Packed blob shimBase entry ranges pg ret)

include h

omit h in
private theorem advances_snpLongMode (hpc : s.pc = .snpLongMode) (hinv : Inv ranges pg ret m₀ s) :
    Advances ranges pg ret m₀ s (step ret outcome s) := by
  obtain ⟨hsane, hat⟩ := hinv
  rw [hpc] at hat
  obtain ⟨hrsp, htaken⟩ := hat
  have hstep : step ret outcome s =
      { s with rax := bootDs, rbp := addU64 dataAt 8, pc := .validateNext } := by
    simp only [step, hpc]
  have hrbp : addU64 dataAt 8 = dataAt + (8 + 16 * 0) := by decide
  have hzero : ∀ a, InRanges [] a → s.mem a = 0 := fun a ha => by
    obtain ⟨r, hr, -⟩ := ha
    exact absurd hr List.not_mem_nil
  rw [hstep]
  refine ⟨⟨hsane.congr rfl rfl rfl, [], ranges, ⟨rfl, hrsp, hrbp, htaken, hzero⟩⟩, Or.inr ?_⟩
  simp only [measure, hpc, left, hrbp, dataAt]
  omega

private theorem advances_validateNext (hpc : s.pc = .validateNext)
    (hinv : Inv ranges pg ret m₀ s) :
    Advances ranges pg ret m₀ s (step ret outcome s) := by
  obtain ⟨hsane, hat⟩ := hinv
  rw [hpc] at hat
  obtain ⟨done, rest, hb⟩ := hat
  have hstep : step ret outcome s = nextRange ret .wakeAps .validateRange s := by
    simp only [step, hpc]
  rw [hstep]
  cases rest with
  | nil =>
    rw [nextRange_nil h hsane hb]
    exact ⟨⟨hsane.congr rfl rfl rfl, hb.allTaken rfl rfl⟩, Or.inl (Or.inr rfl)⟩
  | cons r rest =>
    obtain ⟨hsane', hcall⟩ := inCall_nextRange h hsane hb .wakeAps .validateRange
    have hdone : done.length + 1 ≤ ranges.length := by
      rw [hb.split, List.length_append, List.length_cons]
      omega
    rw [nextRange_cons h hsane hb] at hsane' hcall ⊢
    refine ⟨⟨hsane', done, r, rest, hcall⟩, Or.inr ?_⟩
    simp only [measure, hpc, left, hb.rbp]
    omega

private theorem advances_validateRange (hpc : s.pc = .validateRange)
    (hinv : Inv ranges pg ret m₀ s) :
    Advances ranges pg ret m₀ s (step ret outcome s) := by
  obtain ⟨hsane, hat⟩ := hinv
  rw [hpc] at hat
  obtain ⟨done, r, rest, hcall⟩ := hat
  have hstep : step ret outcome s = pickPage .validated .validate4k .validateLarge s := by
    simp only [step, hpc]
  rw [hstep]
  rcases pickPage_cases h hcall .validated .validate4k .validateLarge with
    ⟨hend, heq⟩ | ⟨hlt, r14, heq⟩ | ⟨hfit, heq⟩
  · rw [heq]
    refine ⟨⟨hsane.congr rfl rfl rfl, done, r, rest, { hcall with }, hend⟩, Or.inr ?_⟩
    simp only [measure, hpc, left]
    omega
  · rw [heq]
    refine ⟨⟨hsane.congr rfl rfl rfl, done, r, rest, { hcall with }, hlt⟩, Or.inr ?_⟩
    simp only [measure, hpc, left]
    omega
  · rw [heq]
    refine ⟨⟨hsane.congr rfl rfl rfl, done, r, rest, { hcall with }, hfit⟩, Or.inr ?_⟩
    simp only [measure, hpc, left]
    omega

private theorem advances_validateLarge (hpc : s.pc = .validateLarge)
    (hinv : Inv ranges pg ret m₀ s) :
    Advances ranges pg ret m₀ s (step ret outcome s) := by
  obtain ⟨hsane, hat⟩ := hinv
  rw [hpc] at hat
  obtain ⟨done, r, rest, hcall, hfit⟩ := hat
  by_cases hok : outcome = .ok
  · have htakes := hcall.takes h (n := largePage) (by decide) hfit
    have hless := hcall.left_lt h (n := largePage) (by decide) (by decide) hfit
    rw [hok, step_large_ok hpc hcall.r12_aligned]
    refine ⟨⟨hsane.congr rfl rfl rfl, done, r, rest, { htakes with }⟩, Or.inr ?_⟩
    simp only [measure, hpc, left] at hless ⊢
    omega
  · have hpre := hcall.taken_initial h
    rw [step_large_of_ne hpc hok]
    split
    · have hlt : s.r12 < r.2 := by
        simp only [largePage] at hfit
        omega
      refine ⟨⟨hsane.congr rfl rfl rfl, done, r, rest, { hcall with }, hlt⟩, Or.inr ?_⟩
      simp only [measure, hpc, left]
      omega
    · exact ⟨⟨hsane.congr rfl rfl rfl, hpre⟩, Or.inl (Or.inl rfl)⟩

private theorem advances_validate4k (hpc : s.pc = .validate4k) (hinv : Inv ranges pg ret m₀ s) :
    Advances ranges pg ret m₀ s (step ret outcome s) := by
  obtain ⟨hsane, hat⟩ := hinv
  rw [hpc] at hat
  obtain ⟨done, r, rest, hcall, hlt⟩ := hat
  by_cases hok : outcome = .ok
  · have hfit : s.r12 + page ≤ r.2 := by
      have hr12 := hcall.r12_aligned
      have hend := (h.listed.aligned r hcall.mem).2
      simp only [page] at *
      omega
    have htakes := hcall.takes h (n := page) (by decide) hfit
    have hless := hcall.left_lt h (n := page) (by decide) (by decide) hfit
    rw [hok, step_small_ok hpc hcall.r12_aligned (hcall.r12_lt h (by decide))]
    refine ⟨⟨hsane.clear h hcall.mem hcall.r12_ge hfit rfl rfl (Or.inr rfl), done, r, rest,
      { (htakes.clears h le_rfl).moves (by decide) le_rfl with }⟩, Or.inr ?_⟩
    simp only [measure, hpc, left] at hless ⊢
    omega
  · have hpre := hcall.taken_initial h
    rw [step_small_of_ne hpc hok]
    exact ⟨⟨hsane.congr rfl rfl rfl, hpre⟩, Or.inl (Or.inl rfl)⟩

private theorem advances_zero2m (hpc : s.pc = .zero2m) (hinv : Inv ranges pg ret m₀ s) :
    Advances ranges pg ret m₀ s (step ret outcome s) := by
  obtain ⟨hsane, hat⟩ := hinv
  rw [hpc] at hat
  obtain ⟨done, r, rest, hcall⟩ := hat
  rw [step_zero2m hpc (hcall.r12_lt h le_rfl)]
  refine ⟨⟨hsane.clear h hcall.mem hcall.r12_ge hcall.pos_le rfl rfl (Or.inr rfl), done, r, rest,
    { (hcall.clears h le_rfl).moves (by decide) le_rfl with }⟩, Or.inr ?_⟩
  simp only [measure, hpc, left]
  omega

omit h in
private theorem advances_validated (hpc : s.pc = .validated)
    (hinv : Inv ranges pg ret m₀ s) :
    Advances ranges pg ret m₀ s (step ret outcome s) := by
  obtain ⟨hsane, hat⟩ := hinv
  rw [hpc] at hat
  obtain ⟨done, r, rest, hcall, hend⟩ := hat
  have hstep : step ret outcome s = leave ret .validateNext .lost s := by simp only [step, hpc]
  rw [hstep, leave_eq hcall]
  refine ⟨⟨hsane.congr rfl rfl rfl, done ++ [r], rest, hcall.between hend rfl rfl rfl rfl⟩,
    Or.inr ?_⟩
  simp only [measure, hpc, left]
  omega

/-- Every step keeps the invariant, whatever the outcome, and brings a machine that has
    not stopped closer to where it stops. -/
theorem inv_step (outcome : Outcome) (s : Cpu Label) (hinv : Inv ranges pg ret m₀ s) :
    Advances ranges pg ret m₀ s (step ret outcome s) := by
  cases hpc : s.pc with
  | snpLongMode => exact advances_snpLongMode hpc hinv
  | validateNext => exact advances_validateNext h hpc hinv
  | validateRange => exact advances_validateRange h hpc hinv
  | validateLarge => exact advances_validateLarge h hpc hinv
  | validate4k => exact advances_validate4k h hpc hinv
  | zero2m => exact advances_zero2m h hpc hinv
  | validated => exact advances_validated hpc hinv
  | die | wakeAps =>
    have hstep : step ret outcome s = s := by simp only [step, hpc]
    rw [hstep]
    exact ⟨hinv, Or.inl (by simp [Stopped, hpc])⟩
  | lost rip =>
    have hat := hinv.at_pc
    rw [hpc] at hat
    exact hat.elim

/-- At every label the validated pages are the first pages of the list. -/
theorem Inv.taken_initial (hinv : Inv ranges pg ret m₀ s) : s.taken <+: pagesOf page ranges := by
  have hat := hinv.at_pc
  cases hpc : s.pc with
  | snpLongMode =>
    rw [hpc] at hat
    rw [hat.2]
    exact List.nil_prefix
  | validateNext =>
    rw [hpc] at hat
    obtain ⟨done, rest, hb⟩ := hat
    rw [hb.taken, hb.split]
    exact ⟨pagesOf page rest, by simp [pagesOf]⟩
  | validateRange | zero2m =>
    rw [hpc] at hat
    obtain ⟨done, r, rest, hcall⟩ := hat
    exact hcall.taken_initial h
  | validateLarge | validate4k | validated =>
    rw [hpc] at hat
    obtain ⟨done, r, rest, hcall, -⟩ := hat
    exact hcall.taken_initial h
  | wakeAps =>
    rw [hpc] at hat
    rw [(show AllTaken ranges s from hat).taken]
  | die =>
    rw [hpc] at hat
    exact hat
  | lost rip =>
    rw [hpc] at hat
    exact hat.elim

end

/-! ## Runs -/

/-- The state after the outcomes so far. -/
def run (ret : Nat) (s₀ : Cpu Label) (outcomes : List Outcome) : Cpu Label :=
  Machine.run (step ret) s₀ outcomes

theorem run_snoc (s₀ : Cpu Label) (outcomes : List Outcome) (outcome : Outcome) :
    run ret s₀ (outcomes ++ [outcome]) = step ret outcome (run ret s₀ outcomes) :=
  Machine.run_append _ _ _ _

/-- A machine that has stopped stays as it is. -/
theorem step_stopped (h : Stopped s) (outcome : Outcome) : step ret outcome s = s := by
  rcases h with h | h <;> simp only [step, h]

theorem inv_run (h : Packed blob shimBase entry ranges pg ret) {s₀ : Cpu Label}
    (hstart : Start pg s₀) (outcomes : List Outcome) :
    Inv ranges pg ret s₀.mem (run ret s₀ outcomes) := by
  refine Machine.run_invariant (fun outcome s hs => (inv_step h outcome s hs).1) ⟨?_, ?_⟩ outcomes
  · refine ⟨hstart.shim, fun _ _ _ => rfl, ?_, ?_⟩
    · rw [hstart.pushed]
      exact fun a ha => absurd ha List.not_mem_nil
    · rw [hstart.cleared]
      exact fun w hw => absurd hw List.not_mem_nil
  · rw [hstart.pc]
    exact ⟨hstart.rsp, hstart.taken⟩

/-- Only the end of the list leads to the wake. -/
private theorem validateNext_of_step (hpc : s.pc ≠ .wakeAps)
    (hnext : (step ret outcome s).pc = .wakeAps) : s.pc = .validateNext := by
  cases h : s.pc with
  | validateNext => rfl
  | wakeAps => exact absurd h hpc
  | snpLongMode | zero2m | die | lost => simp [step, h] at hnext
  | validateRange =>
    simp only [step, h, pickPage] at hnext
    split_ifs at hnext
  | validateLarge =>
    simp only [step, h] at hnext
    split_ifs at hnext
  | validate4k =>
    simp only [step, h] at hnext
    split_ifs at hnext
  | validated =>
    simp only [step, h, leave] at hnext
    split_ifs at hnext

private theorem rsp_step (h : Packed blob shimBase entry ranges pg ret)
    (hinv : Inv ranges pg ret m₀ s) (hrsp : s.pc = .wakeAps → s.rsp = bspStackTop)
    (hnext : (step ret outcome s).pc = .wakeAps) : (step ret outcome s).rsp = bspStackTop := by
  by_cases hpc : s.pc = .wakeAps
  · rw [step_stopped (Or.inr hpc)]
    exact hrsp hpc
  · have hpc' : s.pc = .validateNext := validateNext_of_step hpc hnext
    obtain ⟨hsane, hat⟩ := hinv
    rw [hpc'] at hat
    obtain ⟨done, rest, hb⟩ := hat
    have hstep : step ret outcome s = nextRange ret .wakeAps .validateRange s := by
      simp only [step, hpc']
    rw [hstep] at hnext ⊢
    cases rest with
    | nil =>
      rw [nextRange_nil h hsane hb]
      exact hb.rsp
    | cons r rest =>
      rw [nextRange_cons h hsane hb] at hnext
      exact absurd hnext nofun

/-- The walk hands on an empty stack. -/
theorem rsp_of_wakeAps (h : Packed blob shimBase entry ranges pg ret) {s₀ : Cpu Label}
    (hstart : Start pg s₀) {outcomes : List Outcome} (hpc : (run ret s₀ outcomes).pc = .wakeAps) :
    (run ret s₀ outcomes).rsp = bspStackTop := by
  have hall := Machine.run_invariant
    (P := fun s : Cpu Label => Inv ranges pg ret s₀.mem s ∧ (s.pc = .wakeAps → s.rsp = bspStackTop))
    (fun outcome s hs => ⟨(inv_step h outcome s hs.1).1, rsp_step h hs.1 hs.2⟩)
    ⟨inv_run h hstart [], fun hpc' => absurd (hstart.pc.symm.trans hpc') nofun⟩ outcomes
  exact hall.2 hpc

/-- Every run ends. -/
theorem exists_stopped (h : Packed blob shimBase entry ranges pg ret) {s₀ : Cpu Label}
    (hstart : Start pg s₀) :
    ∃ n, ∀ outcomes, n ≤ outcomes.length → Stopped (run ret s₀ outcomes) := by
  refine ⟨measure ranges s₀ + 1, fun outcomes hlen => ?_⟩
  exact Machine.run_done (P := Inv ranges pg ret s₀.mem) (measure ranges)
    (fun outcome s hs => (inv_step h outcome s hs).1)
    (fun outcome s hs => by rw [step_stopped hs]; exact hs)
    (fun outcome s hs _ => (inv_step h outcome s hs).2) (inv_run h hstart []) hlen

/-- A page that is validated as asked is not died of. -/
private theorem step_ok_ne_die (h : Packed blob shimBase entry ranges pg ret)
    (hinv : Inv ranges pg ret m₀ s) (hpc : s.pc ≠ .die) : (step ret .ok s).pc ≠ .die := by
  have hat := hinv.at_pc
  cases hlabel : s.pc with
  | validateLarge =>
    rw [hlabel] at hat
    obtain ⟨done, r, rest, hcall, -⟩ := hat
    rw [step_large_ok hlabel hcall.r12_aligned]
    simp
  | validate4k =>
    rw [hlabel] at hat
    obtain ⟨done, r, rest, hcall, -⟩ := hat
    rw [step_small_ok hlabel hcall.r12_aligned (hcall.r12_lt h (by decide))]
    simp
  | die => exact absurd hlabel hpc
  | snpLongMode | zero2m | wakeAps | lost => simp [step, hlabel]
  | validateNext =>
    simp only [step, hlabel, nextRange]
    split <;> simp
  | validateRange =>
    simp only [step, hlabel, pickPage]
    split_ifs <;> simp
  | validated =>
    simp only [step, hlabel, leave]
    split <;> simp

/-- The walk comes to its end where every page is validated as asked. -/
theorem exists_wakeAps (h : Packed blob shimBase entry ranges pg ret) {s₀ : Cpu Label}
    (hstart : Start pg s₀) : ∃ outcomes, (run ret s₀ outcomes).pc = .wakeAps := by
  obtain ⟨outcomes, ⟨-, halive⟩, hstopped⟩ :
      ∃ outcomes, (Inv ranges pg ret s₀.mem (run ret s₀ outcomes) ∧
        (run ret s₀ outcomes).pc ≠ .die) ∧ Stopped (run ret s₀ outcomes) := by
    refine Machine.exists_run_done
      (P := fun s : Cpu Label => Inv ranges pg ret s₀.mem s ∧ s.pc ≠ .die) (measure ranges)
      (fun s hs _ => ?_) ⟨inv_run h hstart [], by simp [hstart.pc]⟩
    obtain ⟨hinv, hnext⟩ := inv_step h .ok s hs.1
    exact ⟨.ok, ⟨hinv, step_ok_ne_die h hs.1 hs.2⟩, hnext⟩
  exact ⟨outcomes, hstopped.resolve_left halive⟩

/-! ## Giving up -/

/-- What `die` requests of the host: RAX for the GHCB MSR, RDX being cleared. -/
def dieRequest (s : Cpu Label) : Nat :=
  let rax := (s.r12 >>> 21) % 2 ^ 32 &&& 0xff
  let rax := (rax <<< 16) % 2 ^ 32
  let r15 := s.r15 % 2 ^ 32 &&& 7
  let rbx := ((s.rbx % 2 ^ 32) <<< 3) % 2 ^ 32
  let rbx := (rbx ||| r15) &&& 0xf
  let rbx := (rbx <<< 12) % 2 ^ 32
  rax ||| rbx ||| 0x100

/-- The fields of the request: the large page in eight bits, the carry flag and the status in
    four, and the code of a termination request. -/
theorem dieRequest_eq (s : Cpu Label) :
    dieRequest s =
      s.r12 / largePage % 256 * 2 ^ 16 + (s.rbx % 2 * 8 + s.r15 % 8) * 2 ^ 12 + 0x100 := by
  have hlarge : (s.r12 >>> 21) % 2 ^ 32 &&& 0xff = s.r12 / largePage % 256 := by
    rw [show 0xff = 2 ^ 8 - 1 by decide, Nat.and_two_pow_sub_one_eq_mod, Nat.shiftRight_eq_div_pow,
      show largePage = 2 ^ 21 by decide]
    omega
  have hstatus : s.r15 % 2 ^ 32 &&& 7 = s.r15 % 8 := by
    rw [show 7 = 2 ^ 3 - 1 by decide, Nat.and_two_pow_sub_one_eq_mod]
    omega
  have hcarry : ((s.rbx % 2 ^ 32) <<< 3) % 2 ^ 32 = (s.rbx % 2 ^ 29) <<< 3 := by
    rw [Nat.shiftLeft_eq, Nat.shiftLeft_eq]
    omega
  have hreason : ((s.rbx % 2 ^ 29) <<< 3 ||| s.r15 % 8) &&& 0xf = s.rbx % 2 * 8 + s.r15 % 8 := by
    have hlt : s.r15 % 8 < 2 ^ 3 := Nat.mod_lt _ (by decide)
    rw [← Nat.shiftLeft_add_eq_or_of_lt hlt, show 0xf = 2 ^ 4 - 1 by decide,
      Nat.and_two_pow_sub_one_eq_mod, Nat.shiftLeft_eq]
    omega
  have hfields : ∀ x < 256, ∀ y < 16, (x <<< 16) % 2 ^ 32 ||| (y <<< 12) % 2 ^ 32 ||| 0x100 =
      x * 2 ^ 16 + y * 2 ^ 12 + 0x100 := by
    intro x hx y hy
    have hsum : (x <<< 16) % 2 ^ 32 ||| (y <<< 12) % 2 ^ 32 = (x * 16 + y) <<< 12 := by
      have hx' : (x <<< 16) % 2 ^ 32 = x <<< 16 :=
        Nat.mod_eq_of_lt (by rw [Nat.shiftLeft_eq]; omega)
      have hy' : (y <<< 12) % 2 ^ 32 = y * 2 ^ 12 := by
        rw [Nat.shiftLeft_eq]
        omega
      have hlt : y * 2 ^ 12 < 2 ^ 16 := by omega
      rw [hx', hy', ← Nat.shiftLeft_add_eq_or_of_lt hlt, Nat.shiftLeft_eq, Nat.shiftLeft_eq]
      omega
    rw [hsum, ← Nat.shiftLeft_add_eq_or_of_lt (by decide : 0x100 < 2 ^ 12), Nat.shiftLeft_eq]
    omega
  simp only [dieRequest, hlarge, hstatus, hcarry, hreason]
  exact hfields _ (Nat.mod_lt _ (by decide)) _ (by omega)

/-- An attempt at the first page that has not been validated, which the outcome makes the last
    one: what PVALIDATE answered stays in the registers. -/
structure Fails (ranges : List (Nat × Nat)) (outcome : Outcome) (s s' : Cpu Label) : Prop where
  attempt : s.pc = .validateLarge ∨ s.pc = .validate4k
  not_ok : outcome ≠ .ok
  next : s.taken ++ [s.r12] <+: pagesOf page ranges
  taken : s'.taken = s.taken
  gpa : s'.r12 = s.r12
  status : s'.r15 = outcome.eax.toNat
  carry : s'.rbx % 2 = outcome.carry.toNat

theorem fails_of_die (h : Packed blob shimBase entry ranges pg ret) (hinv : Inv ranges pg ret m₀ s)
    (hpc : s.pc ≠ .die) (hdie : (step ret outcome s).pc = .die) :
    Fails ranges outcome s (step ret outcome s) := by
  have hat := hinv.at_pc
  have hok : outcome ≠ .ok := fun hok => step_ok_ne_die h hinv hpc (hok ▸ hdie)
  have hcarry : (s.rbx / 256 * 256 + outcome.carry.toNat) % 2 = outcome.carry.toNat := by
    have hlt := Bool.toNat_lt outcome.carry
    omega
  cases hlabel : s.pc with
  | validateLarge =>
    rw [hlabel] at hat
    obtain ⟨done, r, rest, hcall, hfit⟩ := hat
    have hlt : s.r12 < r.2 := by
      simp only [largePage] at hfit
      omega
    rw [step_large_of_ne hlabel hok]
    exact ⟨Or.inl hlabel, hok, hcall.next_initial h hlt, rfl, rfl, rfl, hcarry⟩
  | validate4k =>
    rw [hlabel] at hat
    obtain ⟨done, r, rest, hcall, hlt⟩ := hat
    rw [step_small_of_ne hlabel hok]
    exact ⟨Or.inr hlabel, hok, hcall.next_initial h hlt, rfl, rfl, rfl, hcarry⟩
  | die => exact absurd hlabel hpc
  | snpLongMode | zero2m | wakeAps | lost => simp [step, hlabel] at hdie
  | validateNext =>
    simp only [step, hlabel, nextRange] at hdie
    split_ifs at hdie
  | validateRange =>
    simp only [step, hlabel, pickPage] at hdie
    split_ifs at hdie
  | validated =>
    simp only [step, hlabel, leave] at hdie
    split_ifs at hdie

/-- Behind `pre` the page at `gpa` is attempted, the first that has not been validated, and the
    outcome of that is what the walk dies of. -/
structure DiesOf (ranges : List (Nat × Nat)) (ret : Nat) (s₀ : Cpu Label) (pre : List Outcome)
    (outcome : Outcome) (gpa : Nat) : Prop where
  attempt : (run ret s₀ pre).pc = .validateLarge ∨ (run ret s₀ pre).pc = .validate4k
  asked : (run ret s₀ pre).r12 = gpa
  next : (run ret s₀ pre).taken ++ [gpa] <+: pagesOf page ranges
  not_ok : outcome ≠ .ok
  dies : (run ret s₀ (pre ++ [outcome])).pc = .die

/-- A run that has died did so of one of its outcomes, took no page behind it, and what it
    requests of the host is made of that outcome and the page it was about. -/
theorem request_of_die (h : Packed blob shimBase entry ranges pg ret) {s₀ : Cpu Label}
    (hstart : Start pg s₀) {outcomes : List Outcome} (hdie : (run ret s₀ outcomes).pc = .die) :
    ∃ pre outcome post gpa, outcomes = pre ++ outcome :: post ∧
      DiesOf ranges ret s₀ pre outcome gpa ∧
      (run ret s₀ outcomes).taken = (run ret s₀ pre).taken ∧
      dieRequest (run ret s₀ outcomes) =
        gpa / largePage % 256 * 2 ^ 16 +
          (outcome.carry.toNat * 8 + outcome.eax.toNat % 8) * 2 ^ 12 + 0x100 := by
  induction outcomes using List.reverseRecOn with
  | nil => exact absurd (hstart.pc.symm.trans hdie) (by decide)
  | append_singleton outcomes outcome ih =>
    have hsnoc : run ret s₀ (outcomes ++ [outcome]) = step ret outcome (run ret s₀ outcomes) :=
      run_snoc s₀ outcomes outcome
    by_cases hpc : (run ret s₀ outcomes).pc = .die
    -- Dead already.
    · obtain ⟨pre, failed, post, gpa, hsplit, hdies, htaken, hrequest⟩ := ih hpc
      rw [hsnoc, step_stopped (Or.inl hpc)]
      refine ⟨pre, failed, post ++ [outcome], gpa, ?_, hdies, htaken, hrequest⟩
      rw [hsplit, List.append_assoc, List.cons_append]
    · have hfails := fails_of_die h (inv_run h hstart outcomes) hpc (hsnoc ▸ hdie)
      refine ⟨outcomes, outcome, [], _, rfl,
        ⟨hfails.attempt, rfl, hfails.next, hfails.not_ok, hdie⟩, ?_, ?_⟩
      · rw [hsnoc, hfails.taken]
      · rw [hsnoc, dieRequest_eq, hfails.gpa, hfails.status, hfails.carry]

/-- What the shim guarantees from a start state, whatever PVALIDATE does. -/
structure Guarantees (ranges : List (Nat × Nat)) (ret : Nat) (s₀ : Cpu Label) : Prop where
  /-- Only listed pages are validated, each at most once, on every run. -/
  validates_listed : ∀ outcomes, ∀ a ∈ (run ret s₀ outcomes).taken,
    ∃ r ∈ ranges, r.1 ≤ a ∧ a + page ≤ r.2
  validates_once : ∀ outcomes, (run ret s₀ outcomes).taken.Nodup
  /-- Only listed memory is cleared, and otherwise only the stack is written. -/
  clears_listed : ∀ outcomes, ∀ w ∈ (run ret s₀ outcomes).cleared,
    ∃ r ∈ ranges, r.1 ≤ w.1 ∧ w.1 + w.2 ≤ r.2
  pushes_stack : ∀ outcomes, ∀ a ∈ (run ret s₀ outcomes).pushed,
    bspStack ≤ a ∧ a + 8 ≤ bspStackTop
  frame : ∀ outcomes a, ¬ InRanges ranges a → a < bspStack ∨ bspStackTop ≤ a →
    (run ret s₀ outcomes).mem a = s₀.mem a
  /-- Who goes on to wake the others has validated and cleared every listed page. -/
  wake_validated : ∀ outcomes, (run ret s₀ outcomes).pc = .wakeAps →
    ∀ a, a % page = 0 → InRanges ranges a → (run ret s₀ outcomes).taken.count a = 1
  wake_zero : ∀ outcomes, (run ret s₀ outcomes).pc = .wakeAps →
    ∀ a, InRanges ranges a → (run ret s₀ outcomes).mem a = 0
  /-- A page that was valid already, or a failure, is fatal, unless it was of a 2-MiB page
      of another size: then the same address is tried as a 4-KiB page. -/
  large_failed : ∀ outcomes outcome, (run ret s₀ outcomes).pc = .validateLarge →
    outcome ≠ .ok → outcome.eax.toNat ≠ failSizeMismatch →
      (run ret s₀ (outcomes ++ [outcome])).pc = .die
  large_mismatch : ∀ outcomes outcome, (run ret s₀ outcomes).pc = .validateLarge →
    outcome.eax.toNat = failSizeMismatch →
      (run ret s₀ (outcomes ++ [outcome])).pc = .validate4k ∧
        (run ret s₀ (outcomes ++ [outcome])).r12 = (run ret s₀ outcomes).r12 ∧
          (run ret s₀ (outcomes ++ [outcome])).taken = (run ret s₀ outcomes).taken
  small_failed : ∀ outcomes outcome, (run ret s₀ outcomes).pc = .validate4k → outcome ≠ .ok →
    (run ret s₀ (outcomes ++ [outcome])).pc = .die
  dead : ∀ outcomes more, (run ret s₀ outcomes).pc = .die →
    (run ret s₀ (outcomes ++ more)).pc = .die
  /-- Control never leaves the code, and every run ends at the wake or dies. -/
  stays : ∀ outcomes rip, (run ret s₀ outcomes).pc ≠ .lost rip
  stops : ∃ n, ∀ outcomes, n ≤ outcomes.length → Stopped (run ret s₀ outcomes)

/-- Whatever PVALIDATE does, the shim validates and clears listed pages only and each
    once, writes nothing else but its stack, goes on only when every listed page is valid
    and zero, dies of every failure it cannot retry, and stops. -/
theorem snp_reset_guarantees (h : Packed blob shimBase entry ranges pg ret) {s₀ : Cpu Label}
    (hstart : Start pg s₀) : Guarantees ranges ret s₀ where
  validates_listed outcomes a ha :=
    mem_of_taken_initial h ((inv_run h hstart outcomes).taken_initial h) ha
  validates_once outcomes :=
    nodup_of_taken_initial h ((inv_run h hstart outcomes).taken_initial h)
  clears_listed outcomes w hw := (inv_run h hstart outcomes).sane.cleared w hw
  pushes_stack outcomes a ha := by
    rw [(inv_run h hstart outcomes).sane.pushed a ha]
    decide
  frame outcomes a ha haway := by
    refine (inv_run h hstart outcomes).sane.frame a ha ?_
    simp only [bspStack, bspStackSize, bspStackTop] at *
    omega
  wake_validated outcomes hpc a halign ha := by
    have hat := (inv_run h hstart outcomes).at_pc
    rw [hpc] at hat
    exact AllTaken.count h hat halign ha
  wake_zero outcomes hpc a ha := by
    have hat := (inv_run h hstart outcomes).at_pc
    rw [hpc] at hat
    exact AllTaken.zero hat a ha
  large_failed outcomes outcome hpc hne hmismatch := by
    rw [run_snoc, step_large_of_ne hpc hne]
    exact if_neg hmismatch
  large_mismatch outcomes outcome hpc hmismatch := by
    have hne : outcome ≠ .ok := by
      rintro rfl
      exact absurd hmismatch (by decide)
    rw [run_snoc, step_large_of_ne hpc hne, if_pos hmismatch]
    exact ⟨rfl, rfl, rfl⟩
  small_failed outcomes outcome hpc hne := by
    rw [run_snoc, step_small_of_ne hpc hne]
  dead outcomes more hpc := by
    rw [run, Machine.run_append]
    refine Machine.run_invariant (P := fun s : Cpu Label => s.pc = .die) (fun outcome s hs => ?_)
      hpc more
    rw [step_stopped (Or.inl hs)]
    exact hs
  stays outcomes rip hpc := by
    have hat := (inv_run h hstart outcomes).at_pc
    rw [hpc] at hat
    exact hat
  stops := exists_stopped h hstart

/-- A page with one range, of a 2-MiB page and one more. -/
def samplePage : List UInt8 :=
  write (zeros page) shimData (shimDataBlock kernelBase [(0x200000, 0x401000)])

def sampleStart : Cpu Label :=
  ⟨.snpLongMode, bspStackTop, 0, 0, 0, 0, 0, 0, 0, 0, 0, 0, 0, false,
    Memory.store (fun _ => 0) shimBase samplePage, [], [], []⟩

theorem packed_samplePage : Packed ⟨zeros page, length_zeros page⟩ shimBase kernelBase
    [(0x200000, 0x401000)] samplePage 0x1234 := by
  have hpack : shim (zeros page) kernelBase [(0x200000, 0x401000)] = .ok samplePage :=
    shim_eq_ok.mpr ⟨by decide, by decide +kernel, rfl⟩
  exact ⟨hpack, ⟨by decide, by decide, by decide⟩, by decide, by decide, by decide, by decide,
    by decide, by decide, by decide⟩

theorem start_sampleStart : Start samplePage sampleStart :=
  ⟨rfl, rfl, Memory.holds_store_self _ _ _, rfl, rfl, rfl⟩

/-- A list with a 2-MiB page and one that is cut off by it. -/
theorem snp_reset_guarantees_sample : ∃ pg : List UInt8, ∃ s₀ : Cpu Label,
    Packed ⟨zeros page, length_zeros page⟩ shimBase kernelBase [(0x200000, 0x401000)] pg 0x1234 ∧
      Start pg s₀ ∧ Guarantees [(0x200000, 0x401000)] 0x1234 s₀ :=
  ⟨_, _, packed_samplePage, start_sampleStart,
    snp_reset_guarantees packed_samplePage start_sampleStart⟩

/-- The first range loaded and the call pushed. -/
theorem run_sampleStart : run 0x1234 sampleStart [.ok, .ok] =
    { sampleStart with
      r12 := 0x200000
      r13 := 0x401000
      rax := 0x200000 ||| 0x401000
      rbp := shimBase + shimData + (8 + 16 * 1)
      rsp := bspStackTop - 8
      mem := sampleStart.mem.store (bspStackTop - 8) (toLE 8 0x1234)
      pushed := [bspStackTop - 8]
      pc := .validateRange } := by
  have hinv := inv_run packed_samplePage start_sampleStart [.ok]
  have hstep : run 0x1234 sampleStart [.ok, .ok] =
      nextRange 0x1234 .wakeAps .validateRange (run 0x1234 sampleStart [.ok]) :=
    run_snoc _ [.ok] .ok
  have hb : Between shimBase [(0x200000, 0x401000)] (run 0x1234 sampleStart [.ok]) []
      [(0x200000, 0x401000)] :=
    ⟨rfl, rfl, by decide, rfl, fun _ ha => absurd ha (by simp [InRanges])⟩
  rw [hstep, nextRange_cons packed_samplePage hinv.sane hb]
  rfl

/-- A large page that the host has split, and a first small page that it has not handed over. -/
theorem request_of_die_sample : ∃ pre outcome post gpa,
    [.ok, .ok, .ok, ⟨6, false⟩, ⟨1, false⟩, .ok] = pre ++ outcome :: post ∧
      DiesOf [(0x200000, 0x401000)] 0x1234 sampleStart pre outcome gpa ∧
      (run 0x1234 sampleStart [.ok, .ok, .ok, ⟨6, false⟩, ⟨1, false⟩, .ok]).taken =
        (run 0x1234 sampleStart pre).taken ∧
      dieRequest (run 0x1234 sampleStart [.ok, .ok, .ok, ⟨6, false⟩, ⟨1, false⟩, .ok]) =
        gpa / largePage % 256 * 2 ^ 16 +
          (outcome.carry.toNat * 8 + outcome.eax.toNat % 8) * 2 ^ 12 + 0x100 := by
  have happend : run 0x1234 sampleStart ([.ok, .ok] ++ [.ok, ⟨6, false⟩, ⟨1, false⟩, .ok]) =
      run 0x1234 (run 0x1234 sampleStart [.ok, .ok]) [.ok, ⟨6, false⟩, ⟨1, false⟩, .ok] :=
    Machine.run_append _ _ _ _
  have hdie : (run 0x1234 sampleStart [.ok, .ok, .ok, ⟨6, false⟩, ⟨1, false⟩, .ok]).pc = .die := by
    rw [List.cons_append, List.cons_append, List.nil_append, run_sampleStart] at happend
    rw [happend]
    decide +kernel
  exact request_of_die packed_samplePage start_sampleStart hdie

end BootShim.SnpReset
