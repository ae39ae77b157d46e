-- SUMMARY: The TDX reset shim's boot processor as a machine whose inputs are the module's answers (`src/reset.S`).
import BootShim.Lib.Machine
import BootShim.Shim.Walk

/-!
# The TDX reset shim

The code from `long_mode` to `boot_kernel`, one step for each stretch between labels.
What the TDX module answers to a TDG.MEM.PAGE.ACCEPT is the input of the step that
makes the call; every other step ignores its input.
-/

namespace BootShim.Reset

open Bytes Image Layout PageWalk Shim

/-- Where control is: at a label, or gone to an address. -/
inductive Label where
  | longMode
  | acceptNext
  | acceptRange
  /-- Behind the tests of `accept_range`, where a 2-MiB page fits. -/
  | acceptLarge
  | accept4k
  | accept2m
  | acceptDone
  | bootKernel
  | apWait
  /-- The shim reports to the host and halts. -/
  | die
  /-- The jump to the packed entry point. -/
  | kernel (rip : Nat)
  /-- A return to somewhere else than the call. -/
  | lost (rip : Nat)
deriving DecidableEq

/-- TDX_PAGE_SIZE_MISMATCH, as the upper half of a status has it. -/
@[simp] abbrev pageSizeMismatch : Nat := 0xc0000b0b

/-- `shim_data(%rip)` -/
@[simp] abbrev dataAt : Nat := resetAlias + shimData

/-- TDG.MEM.PAGE.ACCEPT: RCX holds the address and, in its low three bits, the level.
    A status of zero accepts the page, which then reads as zeros. -/
def pageAccept (status : UInt64) (s : Cpu Label) : Cpu Label :=
  let gpa := s.rcx / page * page
  let bytes := if s.rcx % 8 = 1 then largePage else page
  if status = 0 then
    { s with
      rax := 0
      taken := s.taken ++ between page gpa (gpa + bytes)
      mem := s.mem.clear gpa bytes }
  else { s with rax := status.toNat }

/-- One stretch of code. `ret` is the address behind the call of `accept_range`. -/
def step (ret : Nat) (status : UInt64) (s : Cpu Label) : Cpu Label :=
  match s.pc with
  | .longMode =>
    if s.rsi % 2 ^ 32 ≠ 0 then { s with pc := .apWait }
    else { s with rsp := bspStackTop, rbp := addU64 dataAt 8, pc := .acceptNext }
  | .acceptNext => nextRange ret .bootKernel .acceptRange s
  | .acceptRange => pickPage .acceptDone .accept4k .acceptLarge s
  | .acceptLarge =>
    let s := pageAccept status { s with rcx := s.r12 ||| 1, rax := 6 }
    if s.rax = 0 then { s with pc := .accept2m }
    else
      let s := { s with rax := s.rax >>> 32 }
      if s.rax % 2 ^ 32 = pageSizeMismatch then { s with pc := .accept4k }
      else { s with pc := .die }
  | .accept4k =>
    let s := pageAccept status { s with rcx := s.r12, rax := 6 }
    if s.rax ≠ 0 then { s with pc := .die }
    else { s with r12 := addU64 s.r12 page, pc := .acceptRange }
  | .accept2m => { s with r12 := addU64 s.r12 largePage, pc := .acceptRange }
  | .acceptDone => leave ret .acceptNext .lost s
  | .bootKernel =>
    { s with rsi := Layout.zeroPage, rax := dataAt, pc := .kernel (s.mem.word dataAt) }
  | .apWait | .die | .kernel _ | .lost _ => s

/-- The boot processor at `long_mode`, with the shim's page in memory. -/
structure Start (pg : List UInt8) (s : Cpu Label) : Prop where
  pc : s.pc = .longMode
  boot : s.rsi % 2 ^ 32 = 0
  shim : s.mem.Holds resetAlias pg
  taken : s.taken = []
  pushed : s.pushed = []
  cleared : s.cleared = []

variable {blob : ShimBlob} {entry ret : Nat} {ranges : List (Nat × Nat)} {pg : List UInt8}
  {m₀ : Memory} {s : Cpu Label} {status : UInt64}

/-! ## The two attempts -/

/-- Naming a page at level 1 leaves its address alone. -/
theorem large_rcx {n : Nat} (h : n % page = 0) :
    (n ||| 1) / page * page = n ∧ (n ||| 1) % 8 = 1 := by
  have hor : n ||| 1 = n + 1 := by
    have hsum := Nat.two_pow_add_eq_or_of_lt (i := 12) (b := 1) (by decide) (n / page)
    have hn : 2 ^ 12 * (n / page) = n := by
      simp only [page] at *
      omega
    rw [hn] at hsum
    exact hsum.symm
  rw [hor]
  simp only [page] at *
  omega

theorem step_large_zero (hpc : s.pc = .acceptLarge) (haligned : s.r12 % page = 0) :
    step ret 0 s =
      { s with
        rcx := s.r12 ||| 1
        rax := 0
        taken := s.taken ++ between page s.r12 (s.r12 + largePage)
        mem := s.mem.clear s.r12 largePage
        pc := .accept2m } := by
  obtain ⟨hgpa, hlevel⟩ := large_rcx haligned
  simp only [step, hpc, pageAccept, hgpa, hlevel, if_true]

/-- A status other than zero leaves everything but scratch registers as it was. -/
theorem step_large_of_ne (hpc : s.pc = .acceptLarge) (hstatus : status ≠ 0) :
    step ret status s =
      { s with
        rcx := s.r12 ||| 1
        rax := status.toNat >>> 32
        pc := if status.toNat >>> 32 = pageSizeMismatch then .accept4k else .die } := by
  have hne : status.toNat ≠ 0 := fun h => hstatus (UInt64.toNat_inj.mp h)
  have hhalf : status.toNat >>> 32 % 2 ^ 32 = status.toNat >>> 32 := by
    have hlt := status.toNat_lt
    rw [Nat.shiftRight_eq_div_pow]
    omega
  simp only [step, hpc, pageAccept, hstatus, hne, hhalf, if_false]
  split <;> rfl

theorem step_small_zero (hpc : s.pc = .accept4k) (haligned : s.r12 % page = 0) :
    step ret 0 s =
      { s with
        rcx := s.r12
        rax := 0
        taken := s.taken ++ between page s.r12 (s.r12 + page)
        mem := s.mem.clear s.r12 page
        r12 := addU64 s.r12 page
        pc := .acceptRange } := by
  have hgpa : s.r12 / page * page = s.r12 := by
    simp only [page] at *
    omega
  have hlevel : s.r12 % 8 ≠ 1 := by
    simp only [page] at *
    omega
  simp only [step, hpc, pageAccept, hgpa, hlevel, ne_eq, not_true, if_false, if_true]

theorem step_small_of_ne (hpc : s.pc = .accept4k) (hstatus : status ≠ 0) :
    step ret status s = { s with rcx := s.r12, rax := status.toNat, pc := .die } := by
  have hne : status.toNat ≠ 0 := fun h => hstatus (UInt64.toNat_inj.mp h)
  simp only [step, hpc, pageAccept, hstatus, hne, ne_eq, not_false_eq_true, if_false, if_true]

/-! ## The invariant -/

/-- What holds at each label. -/
def At (entry : Nat) (ranges : List (Nat × Nat)) (ret : Nat) (s : Cpu Label) : Label → Prop
  | .longMode => s.rsi % 2 ^ 32 = 0 ∧ s.taken = []
  | .acceptNext => ∃ done rest, Between resetAlias ranges s done rest
  | .acceptRange => ∃ done r rest, InCall resetAlias ranges ret s done r rest s.r12 s.r12
  | .acceptLarge => ∃ done r rest, InCall resetAlias ranges ret s done r rest s.r12 s.r12 ∧
      s.r12 + largePage ≤ r.2
  | .accept4k => ∃ done r rest, InCall resetAlias ranges ret s done r rest s.r12 s.r12 ∧
      s.r12 < r.2
  | .accept2m => ∃ done r rest, InCall resetAlias ranges ret s done r rest
      (s.r12 + largePage) (s.r12 + largePage)
  | .acceptDone => ∃ done r rest, InCall resetAlias ranges ret s done r rest s.r12 s.r12 ∧
      s.r12 = r.2
  | .bootKernel => AllTaken ranges s
  | .kernel rip => AllTaken ranges s ∧ rip = entry ∧ s.rsi = Layout.zeroPage
  | .die => s.taken <+: pagesOf page ranges
  | .apWait | .lost _ => False

/-- The invariant of a run: nothing but the listed pages has been touched, and those
    accepted are the first ones of the list, up to where the machine stands. -/
structure Inv (entry : Nat) (ranges : List (Nat × Nat)) (pg : List UInt8) (ret : Nat) (m₀ : Memory)
    (s : Cpu Label) : Prop where
  sane : Sane resetAlias ranges pg m₀ s
  at_pc : At entry ranges ret s s.pc

/-- The machine has stopped: it halts, or has left for the kernel. -/
def Stopped (s : Cpu Label) : Prop := s.pc = .die ∨ ∃ rip, s.pc = .kernel rip

/-- A bound on the steps a run can still take. -/
def measure (ranges : List (Nat × Nat)) (s : Cpu Label) : Nat :=
  match s.pc with
  | .longMode => 8 * (pagesOf page ranges).length + 16 * ranges.length + 7
  | .acceptNext => left resetAlias ranges s + 1
  | .acceptDone => left resetAlias ranges s + 2
  | .accept4k => left resetAlias ranges s + 3
  | .acceptLarge => left resetAlias ranges s + 4
  | .acceptRange => left resetAlias ranges s + 5
  | .accept2m => left resetAlias ranges s + 6
  | _ => 0

/-- A step that keeps the invariant and comes closer to the end. -/
def Advances (entry : Nat) (ranges : List (Nat × Nat)) (pg : List UInt8) (ret : Nat) (m₀ : Memory)
    (s s' : Cpu Label) : Prop :=
  Inv entry ranges pg ret m₀ s' ∧ (Stopped s' ∨ measure ranges s' < measure ranges s)

/-! ### One step -/

section

variable (h : Packed blob resetAlias entry ranges pg ret)

include h

omit h in
private theorem advances_longMode (hpc : s.pc = .longMode) (hinv : Inv entry ranges pg ret m₀ s) :
    Advances entry ranges pg ret m₀ s (step ret status s) := by
  obtain ⟨hsane, hat⟩ := hinv
  rw [hpc] at hat
  obtain ⟨hboot, htaken⟩ := hat
  have hstep : step ret status s =
      { s with rsp := bspStackTop, rbp := addU64 dataAt 8, pc := .acceptNext } := by
    simp only [step, hpc, hboot, ne_eq, not_true, if_false]
  have hrbp : addU64 dataAt 8 = dataAt + (8 + 16 * 0) := by decide
  have hzero : ∀ a, InRanges [] a → s.mem a = 0 := fun a ha => by
    obtain ⟨r, hr, -⟩ := ha
    exact absurd hr List.not_mem_nil
  rw [hstep]
  refine ⟨⟨hsane.congr rfl rfl rfl, [], ranges, ⟨rfl, rfl, hrbp, htaken, hzero⟩⟩, Or.inr ?_⟩
  simp only [measure, hpc, left, hrbp, dataAt]
  omega

private theorem advances_acceptNext (hpc : s.pc = .acceptNext)
    (hinv : Inv entry ranges pg ret m₀ s) :
    Advances entry ranges pg ret m₀ s (step ret status s) := by
  obtain ⟨hsane, hat⟩ := hinv
  rw [hpc] at hat
  obtain ⟨done, rest, hb⟩ := hat
  have hstep : step ret status s = nextRange ret .bootKernel .acceptRange s := by
    simp only [step, hpc]
  rw [hstep]
  cases rest with
  | nil =>
    rw [nextRange_nil h hsane hb]
    refine ⟨⟨hsane.congr rfl rfl rfl, hb.allTaken rfl rfl⟩, Or.inr ?_⟩
    simp only [measure, hpc]
    omega
  | cons r rest =>
    obtain ⟨hsane', hcall⟩ := inCall_nextRange h hsane hb .bootKernel .acceptRange
    have hdone : done.length + 1 ≤ ranges.length := by
      rw [hb.split, List.length_append, List.length_cons]
      omega
    rw [nextRange_cons h hsane hb] at hsane' hcall ⊢
    refine ⟨⟨hsane', done, r, rest, hcall⟩, Or.inr ?_⟩
    simp only [measure, hpc, left, hb.rbp]
    omega

private theorem advances_acceptRange (hpc : s.pc = .acceptRange)
    (hinv : Inv entry ranges pg ret m₀ s) :
    Advances entry ranges pg ret m₀ s (step ret status s) := by
  obtain ⟨hsane, hat⟩ := hinv
  rw [hpc] at hat
  obtain ⟨done, r, rest, hcall⟩ := hat
  have hstep : step ret status s = pickPage .acceptDone .accept4k .acceptLarge s := by
    simp only [step, hpc]
  rw [hstep]
  rcases pickPage_cases h hcall .acceptDone .accept4k .acceptLarge with
    ⟨hend, heq⟩ | ⟨hlt, r14, heq⟩ | ⟨hfit, heq⟩
  · rw [heq]
    refine ⟨⟨hsane.congr rfl rfl rfl, done, r, rest, { hcall with }, hend⟩, Or.inr ?_⟩
    simp only [measure, hpc, left]
    omega
  · rw [heq]
    refine ⟨⟨hsane.congr rfl rfl rfl, done, r, rest, { hcall with }, hlt⟩, Or.inr ?_⟩
    simp only [measure, hpc, left]
    omega
  · rw [heq]
    refine ⟨⟨hsane.congr rfl rfl rfl, done, r, rest, { hcall with }, hfit⟩, Or.inr ?_⟩
    simp only [measure, hpc, left]
    omega

private theorem advances_acceptLarge (hpc : s.pc = .acceptLarge)
    (hinv : Inv entry ranges pg ret m₀ s) :
    Advances entry ranges pg ret m₀ s (step ret status s) := by
  obtain ⟨hsane, hat⟩ := hinv
  rw [hpc] at hat
  obtain ⟨done, r, rest, hcall, hfit⟩ := hat
  by_cases hstatus : status = 0
  · have htakes := hcall.takes h (n := largePage) (by decide) hfit
    have hless := hcall.left_lt h (n := largePage) (by decide) (by decide) hfit
    rw [hstatus, step_large_zero hpc hcall.r12_aligned]
    refine ⟨⟨hsane.clear h hcall.mem hcall.r12_ge hfit rfl rfl (Or.inl rfl), done, r, rest,
      { htakes.clears h le_rfl with }⟩, Or.inr ?_⟩
    simp only [measure, hpc, left] at hless ⊢
    omega
  · rw [step_large_of_ne hpc hstatus]
    split
    · have hlt : s.r12 < r.2 := by
        simp only [largePage] at hfit
        omega
      refine ⟨⟨hsane.congr rfl rfl rfl, done, r, rest, { hcall with }, hlt⟩, Or.inr ?_⟩
      simp only [measure, hpc, left]
      omega
    · have hpre := hcall.taken_initial h
      exact ⟨⟨hsane.congr rfl rfl rfl, hpre⟩, Or.inl (Or.inl rfl)⟩

private theorem advances_accept4k (hpc : s.pc = .accept4k) (hinv : Inv entry ranges pg ret m₀ s) :
    Advances entry ranges pg ret m₀ s (step ret status s) := by
  obtain ⟨hsane, hat⟩ := hinv
  rw [hpc] at hat
  obtain ⟨done, r, rest, hcall, hlt⟩ := hat
  by_cases hstatus : status = 0
  · have hfit : s.r12 + page ≤ r.2 := by
      have hr12 := hcall.r12_aligned
      have hend := (h.listed.aligned r hcall.mem).2
      simp only [page] at *
      omega
    have htakes := hcall.takes h (n := page) (by decide) hfit
    have hless := hcall.left_lt h (n := page) (by decide) (by decide) hfit
    rw [hstatus, step_small_zero hpc hcall.r12_aligned, hcall.addU64_r12 h (by decide)]
    refine ⟨⟨hsane.clear h hcall.mem hcall.r12_ge hfit rfl rfl (Or.inl rfl), done, r, rest,
      { (htakes.clears h le_rfl).moves (by decide) le_rfl with }⟩, Or.inr ?_⟩
    simp only [measure, hpc, left] at hless ⊢
    omega
  · have hpre := hcall.taken_initial h
    rw [step_small_of_ne hpc hstatus]
    exact ⟨⟨hsane.congr rfl rfl rfl, hpre⟩, Or.inl (Or.inl rfl)⟩

private theorem advances_accept2m (hpc : s.pc = .accept2m) (hinv : Inv entry ranges pg ret m₀ s) :
    Advances entry ranges pg ret m₀ s (step ret status s) := by
  obtain ⟨hsane, hat⟩ := hinv
  rw [hpc] at hat
  obtain ⟨done, r, rest, hcall⟩ := hat
  have hstep : step ret status s = { s with r12 := s.r12 + largePage, pc := .acceptRange } := by
    simp only [step, hpc, hcall.addU64_r12 h le_rfl]
  rw [hstep]
  refine ⟨⟨hsane.congr rfl rfl rfl, done, r, rest, { hcall.moves (by decide) le_rfl with }⟩,
    Or.inr ?_⟩
  simp only [measure, hpc, left]
  omega

omit h in
private theorem advances_acceptDone (hpc : s.pc = .acceptDone)
    (hinv : Inv entry ranges pg ret m₀ s) :
    Advances entry ranges pg ret m₀ s (step ret status s) := by
  obtain ⟨hsane, hat⟩ := hinv
  rw [hpc] at hat
  obtain ⟨done, r, rest, hcall, hend⟩ := hat
  have hstep : step ret status s = leave ret .acceptNext .lost s := by simp only [step, hpc]
  rw [hstep, leave_eq hcall]
  refine ⟨⟨hsane.congr rfl rfl rfl, done ++ [r], rest, hcall.between hend rfl rfl rfl rfl⟩,
    Or.inr ?_⟩
  simp only [measure, hpc, left]
  omega

/-- The last step goes where the builder packed it. -/
theorem step_bootKernel (hinv : Inv entry ranges pg ret m₀ s) (hpc : s.pc = .bootKernel) :
    step ret status s = { s with rsi := Layout.zeroPage, rax := dataAt, pc := .kernel entry } := by
  have hentry : s.mem.word dataAt = entry := by
    rw [dataAt, hinv.sane.shim.word (by rw [h.length_pg]; decide), getLE_shim_entry h.packed,
      Nat.mod_eq_of_lt h.entry_lt]
  simp only [step, hpc, hentry]

private theorem advances_bootKernel (hpc : s.pc = .bootKernel)
    (hinv : Inv entry ranges pg ret m₀ s) :
    Advances entry ranges pg ret m₀ s (step ret status s) := by
  rw [step_bootKernel h hinv hpc]
  obtain ⟨hsane, hat⟩ := hinv
  rw [hpc] at hat
  have hall : AllTaken ranges s := hat
  exact ⟨⟨hsane.congr rfl rfl rfl, { hall with }, rfl, rfl⟩, Or.inl (Or.inr ⟨entry, rfl⟩)⟩

/-- Every step keeps the invariant, whatever the module answers, and brings a machine
    that has not stopped closer to where it stops. -/
theorem inv_step (status : UInt64) (s : Cpu Label) (hinv : Inv entry ranges pg ret m₀ s) :
    Advances entry ranges pg ret m₀ s (step ret status s) := by
  cases hpc : s.pc with
  | longMode => exact advances_longMode hpc hinv
  | acceptNext => exact advances_acceptNext h hpc hinv
  | acceptRange => exact advances_acceptRange h hpc hinv
  | acceptLarge => exact advances_acceptLarge h hpc hinv
  | accept4k => exact advances_accept4k h hpc hinv
  | accept2m => exact advances_accept2m h hpc hinv
  | acceptDone => exact advances_acceptDone hpc hinv
  | bootKernel => exact advances_bootKernel h hpc hinv
  | die | kernel rip =>
    have hstep : step ret status s = s := by simp only [step, hpc]
    rw [hstep]
    exact ⟨hinv, Or.inl (by simp [Stopped, hpc])⟩
  | apWait | lost rip =>
    have hat := hinv.at_pc
    rw [hpc] at hat
    exact hat.elim

/-- At every label the accepted pages are the first pages of the list. -/
theorem Inv.taken_initial (hinv : Inv entry ranges pg ret m₀ s) :
    s.taken <+: pagesOf page ranges := by
  have hat := hinv.at_pc
  cases hpc : s.pc with
  | longMode =>
    rw [hpc] at hat
    rw [hat.2]
    exact List.nil_prefix
  | acceptNext =>
    rw [hpc] at hat
    obtain ⟨done, rest, hb⟩ := hat
    rw [hb.taken, hb.split]
    exact ⟨pagesOf page rest, by simp [pagesOf]⟩
  | acceptRange | accept2m =>
    rw [hpc] at hat
    obtain ⟨done, r, rest, hcall⟩ := hat
    exact hcall.taken_initial h
  | acceptLarge | accept4k | acceptDone =>
    rw [hpc] at hat
    obtain ⟨done, r, rest, hcall, -⟩ := hat
    exact hcall.taken_initial h
  | bootKernel =>
    rw [hpc] at hat
    rw [(show AllTaken ranges s from hat).taken]
  | kernel rip =>
    rw [hpc] at hat
    rw [hat.1.taken]
  | die =>
    rw [hpc] at hat
    exact hat
  | apWait | lost rip =>
    rw [hpc] at hat
    exact hat.elim

end

/-! ## Runs -/

/-- The state after the module's answers so far. -/
def run (ret : Nat) (s₀ : Cpu Label) (answers : List UInt64) : Cpu Label :=
  Machine.run (step ret) s₀ answers

theorem run_snoc (s₀ : Cpu Label) (answers : List UInt64) (status : UInt64) :
    run ret s₀ (answers ++ [status]) = step ret status (run ret s₀ answers) :=
  Machine.run_append _ _ _ _

/-- A machine that has stopped stays as it is. -/
theorem step_stopped (h : Stopped s) (status : UInt64) : step ret status s = s := by
  rcases h with h | ⟨rip, h⟩ <;> simp only [step, h]

theorem inv_run (h : Packed blob resetAlias entry ranges pg ret) {s₀ : Cpu Label}
    (hstart : Start pg s₀) (answers : List UInt64) :
    Inv entry ranges pg ret s₀.mem (run ret s₀ answers) := by
  refine Machine.run_invariant (fun status s hs => (inv_step h status s hs).1) ⟨?_, ?_⟩ answers
  · refine ⟨hstart.shim, fun _ _ _ => rfl, ?_, ?_⟩
    · rw [hstart.pushed]
      exact fun a ha => absurd ha List.not_mem_nil
    · rw [hstart.cleared]
      exact fun w hw => absurd hw List.not_mem_nil
  · rw [hstart.pc]
    exact ⟨hstart.boot, hstart.taken⟩

/-- What the shim guarantees from a start state, whatever the module answers. -/
structure Guarantees (entry : Nat) (ranges : List (Nat × Nat)) (ret : Nat) (s₀ : Cpu Label) :
    Prop where
  /-- Only listed pages are accepted, each at most once, on every run. -/
  accepts_listed : ∀ answers, ∀ a ∈ (run ret s₀ answers).taken,
    ∃ r ∈ ranges, r.1 ≤ a ∧ a + page ≤ r.2
  accepts_once : ∀ answers, (run ret s₀ answers).taken.Nodup
  /-- Who reaches the kernel has accepted every listed page, once. -/
  boot_accepted : ∀ answers, (run ret s₀ answers).pc = .bootKernel →
    ∀ a, a % page = 0 → InRanges ranges a → (run ret s₀ answers).taken.count a = 1
  boot_leaves : ∀ answers status, (run ret s₀ answers).pc = .bootKernel →
    (run ret s₀ (answers ++ [status])).pc = .kernel entry
  kernel_accepted : ∀ answers rip, (run ret s₀ answers).pc = .kernel rip →
    ∀ a, a % page = 0 → InRanges ranges a → (run ret s₀ answers).taken.count a = 1
  kernel_entry : ∀ answers rip, (run ret s₀ answers).pc = .kernel rip →
    rip = entry ∧ (run ret s₀ answers).rsi = Layout.zeroPage
  /-- A failed attempt kills, unless it was of a 2-MiB page of another size: then the same
      address is tried as a 4-KiB page. -/
  large_failed : ∀ answers status, (run ret s₀ answers).pc = .acceptLarge → status ≠ 0 →
    status.toNat >>> 32 ≠ pageSizeMismatch → (run ret s₀ (answers ++ [status])).pc = .die
  large_mismatch : ∀ answers status, (run ret s₀ answers).pc = .acceptLarge →
    status.toNat >>> 32 = pageSizeMismatch →
      (run ret s₀ (answers ++ [status])).pc = .accept4k ∧
        (run ret s₀ (answers ++ [status])).r12 = (run ret s₀ answers).r12 ∧
          (run ret s₀ (answers ++ [status])).taken = (run ret s₀ answers).taken
  small_failed : ∀ answers status, (run ret s₀ answers).pc = .accept4k → status ≠ 0 →
    (run ret s₀ (answers ++ [status])).pc = .die
  dead : ∀ answers more, (run ret s₀ answers).pc = .die → (run ret s₀ (answers ++ more)).pc = .die
  /-- Control never leaves the code but for the kernel, and every run gets there or dies. -/
  stays : ∀ answers rip, (run ret s₀ answers).pc ≠ .lost rip ∧ (run ret s₀ answers).pc ≠ .apWait
  stops : ∃ n, ∀ answers, n ≤ answers.length → Stopped (run ret s₀ answers)

/-- Whatever the module answers, the shim accepts listed pages only and each once, hands
    over to the kernel only when it has accepted all of them, dies of every failure it
    cannot retry, and stops. -/
theorem reset_guarantees (h : Packed blob resetAlias entry ranges pg ret) {s₀ : Cpu Label}
    (hstart : Start pg s₀) : Guarantees entry ranges ret s₀ where
  accepts_listed answers a ha := mem_of_taken_initial h ((inv_run h hstart answers).taken_initial h) ha
  accepts_once answers := nodup_of_taken_initial h ((inv_run h hstart answers).taken_initial h)
  boot_accepted answers hpc a halign ha := by
    have hat := (inv_run h hstart answers).at_pc
    rw [hpc] at hat
    exact AllTaken.count h hat halign ha
  boot_leaves answers status hpc := by
    rw [run_snoc, step_bootKernel h (inv_run h hstart answers) hpc]
  kernel_accepted answers rip hpc a halign ha := by
    have hat := (inv_run h hstart answers).at_pc
    rw [hpc] at hat
    exact AllTaken.count h hat.1 halign ha
  kernel_entry answers rip hpc := by
    have hat := (inv_run h hstart answers).at_pc
    rw [hpc] at hat
    exact hat.2
  large_failed answers status hpc hne hmismatch := by
    rw [run_snoc, step_large_of_ne hpc hne]
    exact if_neg hmismatch
  large_mismatch answers status hpc hmismatch := by
    have hne : status ≠ 0 := by
      rintro rfl
      exact absurd hmismatch (by decide)
    rw [run_snoc, step_large_of_ne hpc hne, if_pos hmismatch]
    exact ⟨rfl, rfl, rfl⟩
  small_failed answers status hpc hne := by
    rw [run_snoc, step_small_of_ne hpc hne]
  dead answers more hpc := by
    rw [run, Machine.run_append]
    refine Machine.run_invariant (P := fun s : Cpu Label => s.pc = .die) (fun status s hs => ?_)
      hpc more
    rw [step_stopped (Or.inl hs)]
    exact hs
  stays answers rip := by
    have hat := (inv_run h hstart answers).at_pc
    constructor <;> (intro hpc; rw [hpc] at hat; exact hat)
  stops := by
    refine ⟨measure ranges s₀ + 1, fun answers hlen => ?_⟩
    exact Machine.run_done (P := Inv entry ranges pg ret s₀.mem) (measure ranges)
      (fun status s hs => (inv_step h status s hs).1)
      (fun status s hs => by rw [step_stopped hs]; exact hs)
      (fun status s hs _ => (inv_step h status s hs).2) (inv_run h hstart []) hlen

/-- A list with a 2-MiB page and one that is cut off by it. -/
theorem reset_guarantees_sample : ∃ pg : List UInt8, ∃ s₀ : Cpu Label,
    Packed ⟨zeros page, length_zeros page⟩ resetAlias kernelBase [(0x200000, 0x401000)] pg 0x1234 ∧
      Start pg s₀ ∧ Guarantees kernelBase [(0x200000, 0x401000)] 0x1234 s₀ := by
  have hpack : shim (zeros page) kernelBase [(0x200000, 0x401000)] =
      .ok (write (zeros page) shimData (shimDataBlock kernelBase [(0x200000, 0x401000)])) :=
    shim_eq_ok.mpr ⟨by decide, by decide +kernel, rfl⟩
  have hpacked : Packed ⟨zeros page, length_zeros page⟩ resetAlias kernelBase [(0x200000, 0x401000)]
      (write (zeros page) shimData (shimDataBlock kernelBase [(0x200000, 0x401000)])) 0x1234 :=
    ⟨hpack, ⟨by decide, by decide, by decide⟩, by decide, by decide, by decide, by decide,
      by decide, by decide, by decide⟩
  have hstart : Start (write (zeros page) shimData
      (shimDataBlock kernelBase [(0x200000, 0x401000)]))
      ⟨.longMode, 0, 0, 0, 0, 0, 0, 0, 0, 0, 0, 0, 0, false,
        Memory.store (fun _ => 0) resetAlias (write (zeros page) shimData
          (shimDataBlock kernelBase [(0x200000, 0x401000)])), [], [], []⟩ :=
    ⟨rfl, rfl, Memory.holds_store_self _ _ _, rfl, rfl, rfl⟩
  exact ⟨_, _, hpacked, hstart, reset_guarantees hpacked hstart⟩

end BootShim.Reset
