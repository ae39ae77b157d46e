-- SUMMARY: The TDX reset shim's instructions refine its machine over labels, from 64-bit mode on (`src/reset.S`).
import BootShim.Shim.LongMode
import BootShim.Shim.Reset
import BootShim.Shim.ResetCode
import BootShim.Shim.WalkCode

/-!
# The TDX shim's instructions in 64-bit mode

Each step of `Reset.step` is a stretch of the listing. What holds along every run of the
steps therefore holds along every run of the instructions, between the labels too.
-/

namespace BootShim.ResetCode

open Bytes Image Layout Machine PageTables PageWalk Shim X86

variable {env : Env} {code : Code listing} {y : System} {blob : ShimBlob} {entry ret : Nat}
  {ranges : List (Nat × Nat)} {pg : List UInt8} {m₀ : Memory} {core : Core} {o : Outer Td}
  {s : State Td} {c : Cpu Reset.Label}

/-! ## The setting -/

/-- The listing as it is measured: at the top of the 32-bit addresses, with the builder's
    data block where the source leaves room for it. -/
structure Assembled (code : Code listing) (pg : List UInt8) : Prop where
  base : code.base = resetAlias
  bytes : code.bytes = pg
  start : code.sym .resetStart = resetAlias
  data : code.sym .shimData = Reset.dataAt
  vector : code.sym .resetVector = resetAlias + resetVector

/-- The address behind the call of `accept_range`. -/
def returnAddress (code : Code listing) : Nat := code.addr (lineOf .acceptNext listing + 7)

/-- What the code runs on from 64-bit mode on. -/
structure Setting (env : Env) (code : Code listing) (y : System) (blob : ShimBlob) (entry : Nat)
    (ranges : List (Nat × Nat)) (pg : List UInt8) (m₀ : Memory) : Prop where
  packed : Packed blob resetAlias entry ranges pg (returnAddress code)
  assembled : Assembled code pg
  mode : y.mode = .code64
  paged : Paged y
  tables : Tabled env 0 false m₀
  shim : m₀.Holds resetAlias pg
  avoids_tables : ∀ r ∈ ranges, r.2 ≤ Layout.pageTables ∨
    Layout.pageTables + (identityMap 0 false).length ≤ r.1
  /-- The kernel is not in the shim's page. -/
  entry : entry < resetAlias

/-- What holds behind every instruction: nothing but the listed ranges and the top of the
    stack has been written. -/
structure Intact (y : System) (ranges : List (Nat × Nat)) (m₀ : Memory) (o : Outer Td) : Prop where
  up : o.shutdown = false
  sys : o.sys = y
  frame : ∀ a, ¬ InRanges ranges a → a < bspStackTop - 8 ∨ bspStackTop ≤ a → o.mem a = m₀ a

/-- And up to the end of the walk only listed pages have been accepted, in their order, and
    the host has heard nothing. -/
structure Safe (y : System) (ranges : List (Nat × Nat)) (m₀ : Memory) (o : Outer Td) : Prop
    extends Intact y ranges m₀ o where
  accepted : o.ext.accepted <+: pagesOf page ranges
  calls : o.ext.calls = []

theorem addr_lt (ha : Assembled code pg) (hlen : pg.length = page) {k : Nat}
    (hk : k < (lines listing).length) : code.addr k < 2 ^ 32 := by
  have hwithin := (code.within k hk).2
  rw [ha.base, ha.bytes, hlen] at hwithin
  exact hwithin.trans_eq (by decide)

theorem sym_eq (code : Code listing) {l : Symbol} (h : l ≠ .shimData) :
    code.sym l = code.addr (lineOf l listing) := by
  apply code.sym_of_mem
  cases l <;> first | exact absurd rfl h | simp [listing]

/-- Memory keeps what the ranges and the stack are clear of. -/
theorem Intact.holds (hs : Intact y ranges m₀ o) {a : Nat} {bs : List UInt8} (h : m₀.Holds a bs)
    (havoid : ∀ r ∈ ranges, r.2 ≤ a ∨ a + bs.length ≤ r.1)
    (hstack : a + bs.length ≤ bspStackTop - 8 ∨ bspStackTop ≤ a) : o.mem.Holds a bs := by
  intro i hi
  rw [hs.frame, h i hi]
  · rintro ⟨r, hr, hlo, hhi⟩
    have hapart := havoid r hr
    omega
  · omega

theorem Intact.ready (h : Setting env code y blob entry ranges pg m₀)
    (hs : Intact y ranges m₀ o) : Ready env code .code64 mapLimit o := by
  have hlen : pg.length = page := h.packed.length_pg
  have htlen : (identityMap 0 false).length = 0x2000 := by
    rw [length_identityMap]
    rfl
  have htables := hs.holds h.tables.holds h.avoids_tables (Or.inl (by rw [htlen]; decide))
  have hshim := hs.holds h.shim (fun r hr => ?_) (Or.inr (by decide))
  · refine ready_long hs.up (hs.sys ▸ h.mode) (hs.sys ▸ h.paged)
      ⟨h.tables.env, h.tables.position, htables⟩ ?_ ?_
    · rw [h.assembled.base, h.assembled.bytes]
      exact hshim
    · rw [h.assembled.base, h.assembled.bytes, hlen]
      decide
  · rw [hlen]
    exact h.packed.avoids_shim r hr

/-! ## The relation -/

/-- Where a label of the steps is. -/
def place (code : Code listing) : Reset.Label → Nat
  | .longMode => code.sym .longMode
  | .acceptNext => code.sym .acceptNext
  | .acceptRange => code.sym .acceptRange
  | .acceptLarge => code.addr (lineOf .acceptRange listing + 7)
  | .accept4k => code.sym .accept4k
  | .accept2m => code.sym .accept2m
  | .acceptDone => code.sym .acceptDone
  | .bootKernel => code.sym .bootKernel
  | .apWait => code.sym .apWait
  | .die => code.sym .die
  | .kernel rip | .lost rip => rip

/-- A processor at a label of the steps, with the state they have there. -/
structure Rel (code : Code listing) (y : System) (s : State Td) (c : Cpu Reset.Label) : Prop where
  agree : Agree s.core s.outer.mem c
  ip : s.core.ip = place code c.pc
  up : s.outer.shutdown = false
  sys : s.outer.sys = y
  accepted : s.outer.ext.accepted = c.taken
  calls : s.outer.ext.calls = []

/-- What the steps keep, the instructions keep. -/
theorem safe_of_inv (h : Packed blob resetAlias entry ranges pg ret)
    (hinv : Reset.Inv entry ranges pg ret m₀ c) (hup : o.shutdown = false) (hsys : o.sys = y)
    (hmem : o.mem = c.mem) (haccepted : o.ext.accepted = c.taken) (hcalls : o.ext.calls = []) :
    Safe y ranges m₀ o where
  up := hup
  sys := hsys
  frame a ha hstack := by
    rw [hmem]
    exact hinv.sane.frame a ha hstack
  accepted := by
    rw [haccepted]
    exact hinv.taken_initial h
  calls := hcalls

theorem Rel.safe (hrel : Rel code y s c) (h : Packed blob resetAlias entry ranges pg ret)
    (hinv : Reset.Inv entry ranges pg ret m₀ c) : Safe y ranges m₀ s.outer :=
  safe_of_inv h hinv hrel.up hrel.sys hrel.agree.mem hrel.accepted hrel.calls

/-- Both machines at once, with the invariant of the steps. -/
def Linked (code : Code listing) (y : System) (entry : Nat) (ranges : List (Nat × Nat))
    (pg : List UInt8) (m₀ : Memory) (s : State Td) (c : Cpu Reset.Label) : Prop :=
  Rel code y s c ∧ Reset.Inv entry ranges pg (returnAddress code) m₀ c

/-- The stretch from a label to the next. -/
abbrev Follow (env : Env) (code : Code listing) (y : System) (entry : Nat)
    (ranges : List (Nat × Nat)) (pg : List UInt8) (m₀ : Memory) (s : State Td)
    (c : Cpu Reset.Label) : Prop :=
  Stretch (X86.step env code outside) (fun s => Safe y ranges m₀ s.outer)
    (fun s' => ∃ status, Linked code y entry ranges pg m₀ s'
      (Reset.step (returnAddress code) status c)) 10 s

/-! ## TDCALL -/

/-- With leaf 6 it accepts a page, or says in RAX why not. -/
theorem reaches_pageAccept (gpa bytes : Nat) {P Q : State Td → Prop} {k n : Nat}
    (h : Ready env code .code64 mapLimit o) (hP : P ⟨core, o⟩)
    (hline : (lines listing)[k]? = some (.code64, .ext .tdcall)) (hip : core.ip = code.addr k)
    (hrax : core.regs .rax = 6) (hgpa : (core.regs .rcx).toNat / page * page = gpa)
    (hbytes : (if (core.regs .rcx).toNat % 8 = 1 then 0x200000 else page) = bytes)
    (hzero : Reaches (X86.step env code outside) P Q n
      ⟨(core.set .quad .rax 0).goto (code.addr (k + 1)), accept o gpa bytes⟩)
    (hother : ∀ status : UInt64, status ≠ 0 → Reaches (X86.step env code outside) P Q n
      ⟨(core.set .quad .rax status.toBitVec).goto (code.addr (k + 1)), o⟩) :
    Reaches (X86.step env code outside) P Q (n + 1) ⟨core, o⟩ := by
  apply reaches_input h hP hline hip (fun answer => by
    simp only [Instr.exec, outside, hrax, if_true, Option.map_some]
    rfl)
  intro answer
  by_cases hstatus : answer.status = 0
  · simp only [pageAccept, hstatus, hgpa, hbytes, if_true]
    exact hzero
  · simp only [pageAccept, hstatus, if_false]
    exact hother _ hstatus

/-- With leaf 0 it says something to the host, and goes on whatever that answers. -/
theorem reaches_vmCall {P Q : State Td → Prop} {k n : Nat} (h : Ready env code .code64 mapLimit o)
    (hP : P ⟨core, o⟩) (hline : (lines listing)[k]? = some (.code64, .ext .tdcall))
    (hip : core.ip = code.addr k) (hrax : core.regs .rax = 0)
    (hnext : ∀ answer, Reaches (X86.step env code outside) P Q n
      ⟨(vmCall answer ⟨core, o⟩).core.goto (code.addr (k + 1)), (vmCall answer ⟨core, o⟩).outer⟩) :
    Reaches (X86.step env code outside) P Q (n + 1) ⟨core, o⟩ := by
  apply reaches_input h hP hline hip (fun answer => by
    simp only [Instr.exec, outside, hrax, if_neg (show ¬ (0 : BitVec 64) = 6 by decide), if_true,
      Option.map_some]
    rfl)
  exact hnext

theorem toBitVec_eq_zero {status : UInt64} : status.toBitVec = 0#64 ↔ status = 0 :=
  UInt64.toBitVec_inj (b := 0)

/-- The upper half of a status, compared as 32 bits. -/
theorem cmp_status (status : UInt64) :
    (status.toBitVec >>> 32 &&& Width.long.mask = 0xc0000b0b#64 &&& Width.long.mask) ↔
      status.toNat >>> 32 = Reset.pageSizeMismatch := by
  have hlt := status.toNat_lt
  rw [← BitVec.toNat_inj, toNat_mask_long, toNat_mask_long, BitVec.toNat_ushiftRight,
    UInt64.toNat_toBitVec, Nat.shiftRight_eq_div_pow, Nat.mod_eq_of_lt (by omega)]
  rfl

section

variable (h : Setting env code y blob entry ranges pg m₀)

include h

/-- A step that takes no page: registers, control and the stack, all else as before. -/
private theorem linked_of_core (hrel : Rel code y ⟨core, o⟩ c)
    (hinv : Reset.Inv entry ranges pg (returnAddress code) m₀ c) {status : UInt64}
    {c' : Cpu Reset.Label} (hstep : Reset.step (returnAddress code) status c = c')
    (htaken : c'.taken = c.taken) {core' : Core} {mem : Memory} (hagree : Agree core' mem c')
    (hip : core'.ip = place code c'.pc) :
    ∃ status, Linked code y entry ranges pg m₀ ⟨core', { o with mem }⟩
      (Reset.step (returnAddress code) status c) := by
  have hinv' := (Reset.inv_step h.packed status c hinv).1
  refine ⟨status, ?_⟩
  rw [hstep] at hinv' ⊢
  exact ⟨⟨hagree, hip, hrel.up, hrel.sys, hrel.accepted.trans htaken.symm, hrel.calls⟩, hinv'⟩

/-- The pages of a step that takes some. -/
private theorem safe_accept (hrel : Rel code y ⟨core, o⟩ c)
    (hinv : Reset.Inv entry ranges pg (returnAddress code) m₀ c) {c' : Cpu Reset.Label} {gpa n : Nat}
    (hstep : Reset.step (returnAddress code) 0 c = c') (hmem : c'.mem = c.mem.clear gpa n)
    (htaken : c'.taken = c.taken ++ between page gpa (gpa + n)) :
    Safe y ranges m₀ (accept o gpa n) := by
  have hinv' := (Reset.inv_step h.packed 0 c hinv).1
  rw [hstep] at hinv'
  refine safe_of_inv h.packed hinv' hrel.up hrel.sys ?_ ?_ hrel.calls
  · rw [hmem, ← hrel.agree.mem]
    rfl
  · rw [htaken, ← hrel.accepted]
    rfl

private theorem linked_of_accept (hrel : Rel code y ⟨core, o⟩ c)
    (hinv : Reset.Inv entry ranges pg (returnAddress code) m₀ c) {c' : Cpu Reset.Label} {gpa n : Nat}
    (hstep : Reset.step (returnAddress code) 0 c = c')
    (htaken : c'.taken = c.taken ++ between page gpa (gpa + n)) {core' : Core}
    (hagree : Agree core' (accept o gpa n).mem c') (hip : core'.ip = place code c'.pc) :
    ∃ status, Linked code y entry ranges pg m₀ ⟨core', accept o gpa n⟩
      (Reset.step (returnAddress code) status c) := by
  have hinv' := (Reset.inv_step h.packed 0 c hinv).1
  refine ⟨0, ?_⟩
  rw [hstep] at hinv' ⊢
  refine ⟨⟨hagree, hip, hrel.up, hrel.sys, ?_, hrel.calls⟩, hinv'⟩
  rw [htaken, ← hrel.accepted]
  rfl

omit h in
private theorem sits_acceptNext : Sits listing .code64 (lineOf .acceptNext listing)
    (nextRangeCode .bootKernel .acceptRange) := ⟨_, rfl⟩

omit h in
private theorem sits_acceptRange : Sits listing .code64 (lineOf .acceptRange listing)
    (pickPageCode .acceptDone .accept4k) := ⟨_, rfl⟩

private theorem follow_acceptNext (hpc : c.pc = .acceptNext) (hrel : Rel code y ⟨core, o⟩ c)
    (hinv : Reset.Inv entry ranges pg (returnAddress code) m₀ c) :
    Follow env code y entry ranges pg m₀ ⟨core, o⟩ c := by
  have hsafe := hrel.safe h.packed hinv
  have hstep : Reset.step (returnAddress code) 0 c =
      nextRange (returnAddress code) .bootKernel .acceptRange c := by
    simp only [Reset.step, hpc]
  have hat := hinv.at_pc
  rw [hpc] at hat
  obtain ⟨done, rest, hb⟩ := hat
  have hip : core.ip = code.addr (lineOf .acceptNext listing) := by
    rw [hrel.ip, hpc]
    exact sym_eq code (by decide)
  refine Stretch.mono (stretch_nextRange (place code) .bootKernel .acceptRange rfl rfl
    (hsafe.ready h) (fun _ => hsafe) sits_acceptNext hip hrel.agree ?_
    (hb.rbp_le h.packed) hb.rsp ?_) (by decide) (fun _ h => h)
  · exact h.packed.ret_lt
  · intro core' mem hagree hip'
    exact linked_of_core h hrel hinv hstep (taken_nextRange h.packed hinv.sane hb _ _) hagree hip'

private theorem follow_acceptRange (hpc : c.pc = .acceptRange) (hrel : Rel code y ⟨core, o⟩ c)
    (hinv : Reset.Inv entry ranges pg (returnAddress code) m₀ c) :
    Follow env code y entry ranges pg m₀ ⟨core, o⟩ c := by
  have hsafe := hrel.safe h.packed hinv
  have hstep : Reset.step (returnAddress code) 0 c =
      pickPage .acceptDone .accept4k .acceptLarge c := by
    simp only [Reset.step, hpc]
  have hip : core.ip = code.addr (lineOf .acceptRange listing) := by
    rw [hrel.ip, hpc]
    exact sym_eq code (by decide)
  refine Stretch.mono (stretch_pickPage (place code) .acceptDone .accept4k .acceptLarge rfl rfl rfl
    (hsafe.ready h) (fun _ => hsafe) sits_acceptRange hip hrel.agree ?_)
    (by decide) (fun _ h => h)
  intro core' hagree hip'
  exact linked_of_core h hrel hinv hstep (taken_pickPage _ _ _) hagree hip'

private theorem follow_acceptDone (hpc : c.pc = .acceptDone) (hrel : Rel code y ⟨core, o⟩ c)
    (hinv : Reset.Inv entry ranges pg (returnAddress code) m₀ c) :
    Follow env code y entry ranges pg m₀ ⟨core, o⟩ c := by
  have hsafe := hrel.safe h.packed hinv
  have hstep : Reset.step (returnAddress code) 0 c =
      leave (returnAddress code) .acceptNext .lost c := by
    simp only [Reset.step, hpc]
  have hat := hinv.at_pc
  rw [hpc] at hat
  obtain ⟨done, r, rest, hcall, -⟩ := hat
  have hret := hcall.ret
  rw [← hcall.rsp] at hret
  have hip : core.ip = code.addr (lineOf .acceptDone listing) := by
    rw [hrel.ip, hpc]
    exact sym_eq code (by decide)
  refine Stretch.mono (stretch_leave (place code) .acceptNext .lost rfl
    (hsafe.ready h) (fun _ => hsafe) rfl rfl hip hrel.agree ?_ hret
    ?_) (by decide) (fun _ h => h)
  · rw [hcall.rsp]
    decide
  · intro core' hagree hip'
    exact linked_of_core h hrel hinv hstep (taken_leave _ _ _) hagree hip'

private theorem follow_accept2m (hpc : c.pc = .accept2m) (hrel : Rel code y ⟨core, o⟩ c)
    (hinv : Reset.Inv entry ranges pg (returnAddress code) m₀ c) :
    Follow env code y entry ranges pg m₀ ⟨core, o⟩ c := by
  have hsafe := hrel.safe h.packed hinv
  have hready := hsafe.ready h
  have hagree : Agree core o.mem c := hrel.agree
  have hstep : Reset.step (returnAddress code) 0 c =
      { c with r12 := addU64 c.r12 largePage, pc := .acceptRange } := by
    simp only [Reset.step, hpc]
  have hip : core.ip = code.addr (lineOf .accept2m listing) := by
    rw [hrel.ip, hpc]
    exact sym_eq code (by decide)
  have hr12 : (core.regs .r12 + 0x200000#64).toNat = addU64 c.r12 largePage :=
    toNat_add_ofNat hagree.r12 (by decide)
  refine Stretch.mono (n := 1) (stretch_op hready hsafe rfl
    hip ?_) (by decide) (fun _ h => h)
  refine reaches_op hready hsafe rfl rfl ?_
  refine .here (linked_of_core h hrel hinv hstep rfl ?_ rfl)
  refine ⟨?_, ?_, ?_, ?_, ?_, hagree.mem⟩
  all_goals simp [hagree.rsp, hagree.rbp, hagree.rsi, hagree.r13, hr12, -BitVec.toNat_add]

private theorem follow_accept4k (hpc : c.pc = .accept4k) (hrel : Rel code y ⟨core, o⟩ c)
    (hinv : Reset.Inv entry ranges pg (returnAddress code) m₀ c) :
    Follow env code y entry ranges pg m₀ ⟨core, o⟩ c := by
  have hsafe := hrel.safe h.packed hinv
  have hready := hsafe.ready h
  have hagree : Agree core o.mem c := hrel.agree
  have hr12 : (core.regs .r12).toNat = c.r12 := hagree.r12
  have hat := hinv.at_pc
  rw [hpc] at hat
  obtain ⟨done, r, rest, hcall, -⟩ := hat
  have haligned := hcall.r12_aligned
  have hip : core.ip = code.addr (lineOf .accept4k listing) := by
    rw [hrel.ip, hpc]
    exact sym_eq code (by decide)
  refine Stretch.mono (n := 6) (stretch_op hready hsafe rfl hip ?_) (by decide) (fun _ h => h)
  refine reaches_op hready hsafe rfl rfl ?_
  refine reaches_pageAccept c.r12 page hready hsafe rfl rfl (by simp)
    ?_ ?_ ?_ fun status hstatus => ?_
  · simp [hr12]
    simp only [page] at *
    omega
  · simp [hr12]
    simp only [page] at *
    omega
  · have hstep : Reset.step (returnAddress code) 0 c = _ := Reset.step_small_zero hpc haligned
    have hsafe' := safe_accept h hrel hinv hstep rfl rfl
    have hready' := hsafe'.ready h
    have hup : (core.regs .r12 + 0x1000#64).toNat = addU64 c.r12 page :=
      toNat_add_ofNat hr12 (by decide)
    refine reaches_op hready' hsafe' rfl rfl ?_
    refine reaches_jcc hready' hsafe' rfl rfl (fun hnz => ?_) (fun hnz => ?_)
    · simp at hnz
    refine reaches_op hready' hsafe' rfl rfl ?_
    refine reaches_op hready' hsafe' rfl rfl ?_
    refine .here (linked_of_accept h hrel hinv hstep rfl ?_ rfl)
    refine ⟨?_, ?_, ?_, ?_, ?_, by simp [accept, hagree.mem]⟩
    all_goals simp [hagree.rsp, hagree.rbp, hagree.rsi, hagree.r13, hup, -BitVec.toNat_add]
  · have hstep : Reset.step (returnAddress code) status c = _ := Reset.step_small_of_ne hpc hstatus
    refine reaches_op hready hsafe rfl rfl ?_
    refine reaches_jcc hready hsafe rfl rfl (fun hnz => ?_) (fun hnz => ?_)
    · refine .here (linked_of_core h hrel hinv hstep rfl ?_ rfl)
      refine ⟨?_, ?_, ?_, ?_, ?_, hagree.mem⟩
      all_goals simp [hagree.rsp, hagree.rbp, hagree.rsi, hagree.r12, hagree.r13]
    · simp [toBitVec_eq_zero, hstatus] at hnz

private theorem follow_acceptLarge (hpc : c.pc = .acceptLarge) (hrel : Rel code y ⟨core, o⟩ c)
    (hinv : Reset.Inv entry ranges pg (returnAddress code) m₀ c) :
    Follow env code y entry ranges pg m₀ ⟨core, o⟩ c := by
  have hsafe := hrel.safe h.packed hinv
  have hready := hsafe.ready h
  have hagree : Agree core o.mem c := hrel.agree
  have hat := hinv.at_pc
  rw [hpc] at hat
  obtain ⟨done, r, rest, hcall, -⟩ := hat
  have hip : core.ip = code.addr (lineOf .acceptRange listing + 7) := by
    rw [hrel.ip, hpc]
    rfl
  obtain ⟨hgpa, hlevel⟩ := Reset.large_rcx hcall.r12_aligned
  have hrcx : (core.regs .r12 ||| 1#64).toNat = c.r12 ||| 1 := by
    rw [BitVec.toNat_or, hagree.r12]
    rfl
  refine Stretch.mono (n := 8) (stretch_op hready hsafe rfl hip ?_) (by decide) (fun _ h => h)
  refine reaches_op hready hsafe rfl rfl ?_
  refine reaches_op hready hsafe rfl rfl ?_
  refine reaches_pageAccept c.r12 largePage hready hsafe rfl rfl (by simp)
    ?_ ?_ ?_ fun status hstatus => ?_
  · simp [hrcx, hgpa]
  · simp [hrcx, hlevel]
  · have hstep : Reset.step (returnAddress code) 0 c = _ :=
      Reset.step_large_zero hpc hcall.r12_aligned
    have hsafe' := safe_accept h hrel hinv hstep rfl rfl
    have hready' := hsafe'.ready h
    refine reaches_op hready' hsafe' rfl rfl ?_
    refine reaches_jcc hready' hsafe' rfl rfl (fun hz => ?_) (fun hz => ?_)
    · refine .here (linked_of_accept h hrel hinv hstep rfl ?_ rfl)
      refine ⟨?_, ?_, ?_, ?_, ?_, by simp [accept, hagree.mem]⟩
      all_goals simp [hagree.rsp, hagree.rbp, hagree.rsi, hagree.r12, hagree.r13]
    · simp at hz
  · have hstep : Reset.step (returnAddress code) status c = _ := Reset.step_large_of_ne hpc hstatus
    refine reaches_op hready hsafe rfl rfl ?_
    refine reaches_jcc hready hsafe rfl rfl (fun hz => ?_) (fun hz => ?_)
    · simp [toBitVec_eq_zero, hstatus] at hz
    refine reaches_op hready hsafe rfl rfl ?_
    refine reaches_op hready hsafe rfl rfl ?_
    refine reaches_jcc hready hsafe rfl rfl (fun hne => ?_) (fun heq => ?_)
    · have hne' : ¬ status.toNat >>> 32 = Reset.pageSizeMismatch := by
        simpa [Core.get, cmp_status] using hne
      rw [if_neg hne'] at hstep
      refine .here (linked_of_core h hrel hinv hstep rfl ?_ rfl)
      refine ⟨?_, ?_, ?_, ?_, ?_, hagree.mem⟩
      all_goals simp [hagree.rsp, hagree.rbp, hagree.rsi, hagree.r12, hagree.r13]
    · have heq' : status.toNat >>> 32 = Reset.pageSizeMismatch := by
        simpa [Core.get, cmp_status] using heq
      rw [if_pos heq'] at hstep
      -- Control falls through to the next label.
      refine .here (linked_of_core h hrel hinv hstep rfl ?_
        (sym_eq code (l := .accept4k) (by decide)).symm)
      refine ⟨?_, ?_, ?_, ?_, ?_, hagree.mem⟩
      all_goals simp [hagree.rsp, hagree.rbp, hagree.rsi, hagree.r12, hagree.r13]

private theorem follow_longMode (hpc : c.pc = .longMode) (hrel : Rel code y ⟨core, o⟩ c)
    (hinv : Reset.Inv entry ranges pg (returnAddress code) m₀ c) :
    Follow env code y entry ranges pg m₀ ⟨core, o⟩ c := by
  have hsafe := hrel.safe h.packed hinv
  have hready := hsafe.ready h
  have hagree : Agree core o.mem c := hrel.agree
  have hat := hinv.at_pc
  rw [hpc] at hat
  have hboot : c.rsi % 2 ^ 32 = 0 := hat.1
  have hesi : core.regs .rsi &&& Width.long.mask = 0#64 := by
    rw [← BitVec.toNat_inj, toNat_mask_long, hagree.rsi, hboot]
    rfl
  have hip : core.ip = code.addr (lineOf .longMode listing) := by
    rw [hrel.ip, hpc]
    exact sym_eq code (by decide)
  have hstep : Reset.step (returnAddress code) 0 c =
      { c with rsp := bspStackTop, rbp := addU64 Reset.dataAt 8, pc := .acceptNext } := by
    simp only [Reset.step, hpc, hboot, ne_eq, not_true, if_false]
  have hrbp : (BitVec.ofNat 64 (code.sym .shimData) + 8#64).toNat = addU64 Reset.dataAt 8 := by
    rw [h.assembled.data]
    decide
  refine Stretch.mono (n := 4) (stretch_op hready hsafe rfl hip ?_) (by decide) (fun _ h => h)
  refine reaches_jcc hready hsafe rfl rfl (fun hnz => ?_) (fun hnz => ?_)
  · simp [Core.get, hesi] at hnz
  refine reaches_op hready hsafe rfl rfl ?_
  refine reaches_op hready hsafe rfl rfl ?_
  refine reaches_op hready hsafe rfl rfl ?_
  refine .here (linked_of_core h hrel hinv hstep rfl ?_
    (sym_eq code (l := .acceptNext) (by decide)).symm)
  refine ⟨?_, ?_, ?_, ?_, ?_, hagree.mem⟩
  all_goals simp [hagree.rsi, hagree.r12, hagree.r13, hrbp, -BitVec.toNat_add]

private theorem follow_bootKernel (hpc : c.pc = .bootKernel) (hrel : Rel code y ⟨core, o⟩ c)
    (hinv : Reset.Inv entry ranges pg (returnAddress code) m₀ c) :
    Follow env code y entry ranges pg m₀ ⟨core, o⟩ c := by
  have hsafe := hrel.safe h.packed hinv
  have hready := hsafe.ready h
  have hagree : Agree core o.mem c := hrel.agree
  have hip : core.ip = code.addr (lineOf .bootKernel listing) := by
    rw [hrel.ip, hpc]
    exact sym_eq code (by decide)
  have hstep : Reset.step (returnAddress code) 0 c =
      { c with
        rsi := Layout.zeroPage
        rax := Reset.dataAt
        pc := .kernel (c.mem.word Reset.dataAt) } := by
    simp only [Reset.step, hpc]
  refine Stretch.mono (n := 2) (stretch_op hready hsafe rfl hip ?_) (by decide) (fun _ h => h)
  refine reaches_op hready hsafe rfl rfl ?_
  refine reaches_line hready hsafe rfl rfl
    (fun _ => hready.exec_jmpMem (a := Reset.dataAt) ?_ (by decide)) ?_
  · simp [h.assembled.data]
  refine .here (linked_of_core h hrel hinv hstep rfl ?_ ?_)
  · refine ⟨?_, ?_, ?_, ?_, ?_, hagree.mem⟩
    all_goals simp [hagree.rsp, hagree.rbp, hagree.r12, hagree.r13]
  · rw [← hagree.mem]
    rfl

/-- Each step of the machine over labels is a stretch of the listing. -/
theorem simulates : Simulates (X86.step env code outside) (Reset.step (returnAddress code))
    (Linked code y entry ranges pg m₀) Reset.Stopped (fun s => Safe y ranges m₀ s.outer) 10 := by
  rintro ⟨core, o⟩ c ⟨hrel, hinv⟩ hgoing
  cases hpc : c.pc with
  | longMode => exact follow_longMode h hpc hrel hinv
  | acceptNext => exact follow_acceptNext h hpc hrel hinv
  | acceptRange => exact follow_acceptRange h hpc hrel hinv
  | acceptLarge => exact follow_acceptLarge h hpc hrel hinv
  | accept4k => exact follow_accept4k h hpc hrel hinv
  | accept2m => exact follow_accept2m h hpc hrel hinv
  | acceptDone => exact follow_acceptDone h hpc hrel hinv
  | bootKernel => exact follow_bootKernel h hpc hrel hinv
  | die => exact absurd (Or.inl hpc) hgoing
  | kernel rip => exact absurd (Or.inr ⟨rip, hpc⟩) hgoing
  | apWait | lost rip =>
    have hat := hinv.at_pc
    rw [hpc] at hat
    exact hat.elim

end

/-! ## The end of a run -/

/-- What the host is told: ReportFatalError, and the page that could not be accepted. -/
def report (gpa : Nat) : VmCall :=
  { mask := 0x1c00, shown := [(10, 0), (11, 0x10003), (12, BitVec.ofNat 64 gpa)] }

/-- The processor halts for good: control is in the loop behind `fatal`, and the host has
    been told of the first page that has not been accepted. -/
structure Halted (code : Code listing) (y : System) (ranges : List (Nat × Nat)) (m₀ : Memory)
    (s : State Td) : Prop extends Intact y ranges m₀ s.outer where
  ip : ∃ i < 3, s.core.ip = code.addr (lineOf .fatal listing + i)
  calls : ∃ gpa, s.outer.ext.accepted ++ [gpa] <+: pagesOf page ranges ∧
    s.outer.ext.calls = [report gpa]

/-- The kernel has the processor: all listed pages are accepted and zero. -/
structure Handed (y : System) (entry : Nat) (ranges : List (Nat × Nat)) (m₀ : Memory)
    (s : State Td) : Prop where
  safe : Safe y ranges m₀ s.outer
  ip : s.core.ip = entry
  rsi : s.core.regs .rsi = BitVec.ofNat 64 Layout.zeroPage
  accepted : s.outer.ext.accepted = pagesOf page ranges
  zero : ∀ a, InRanges ranges a → s.outer.mem a = 0

/-- Whoever dies has `r12` at the first page that has not been accepted. -/
theorem next_of_die (h : Packed blob resetAlias entry ranges pg ret)
    (hinv : Reset.Inv entry ranges pg ret m₀ c) (hpc : c.pc ≠ .die) {status : UInt64}
    (hdie : (Reset.step ret status c).pc = .die) :
    (Reset.step ret status c).taken ++ [(Reset.step ret status c).r12] <+: pagesOf page ranges := by
  have hat := hinv.at_pc
  cases hc : c.pc with
  | acceptLarge =>
    rw [hc] at hat
    obtain ⟨done, r, rest, hcall, hfit⟩ := hat
    by_cases hstatus : status = 0
    · rw [hstatus, Reset.step_large_zero hc hcall.r12_aligned] at hdie
      exact Reset.Label.noConfusion hdie
    · have hlt : c.r12 < r.2 := by
        simp only [largePage] at hfit
        omega
      have hnext := hcall.next_initial h hlt
      rw [Reset.step_large_of_ne hc hstatus]
      exact hnext
  | accept4k =>
    rw [hc] at hat
    obtain ⟨done, r, rest, hcall, hlt⟩ := hat
    by_cases hstatus : status = 0
    · rw [hstatus, Reset.step_small_zero hc hcall.r12_aligned] at hdie
      exact Reset.Label.noConfusion hdie
    · have hnext := hcall.next_initial h hlt
      rw [Reset.step_small_of_ne hc hstatus]
      exact hnext
  | die => exact absurd hc hpc
  | apWait | lost rip =>
    rw [hc] at hat
    exact hat.elim
  | longMode =>
    simp only [Reset.step, hc] at hdie
    split_ifs at hdie
  | acceptNext =>
    simp only [Reset.step, hc, nextRange] at hdie
    split_ifs at hdie
  | acceptRange =>
    simp only [Reset.step, hc, pickPage] at hdie
    split_ifs at hdie
  | acceptDone =>
    simp only [Reset.step, hc, leave] at hdie
    split_ifs at hdie
  | accept2m | bootKernel | kernel rip =>
    simp [Reset.step, hc] at hdie

/-- A VMCALL with the registers as `die` sets them. -/
theorem vmCall_report (gpa : Nat) {answer : Answer} (hrcx : core.regs .rcx = 0x1c00)
    (hr10 : core.regs .r10 = 0) (hr11 : core.regs .r11 = 0x10003)
    (hr12 : (core.regs .r12).toNat = gpa) :
    (vmCall answer ⟨core, o⟩).outer =
      { o with ext := { o.ext with calls := o.ext.calls ++ [report gpa] } } := by
  have hshown : (registers.zipIdx.filter fun x => (0x1c00 : BitVec 64).getLsbD x.2) =
      [(.r10, 10), (.r11, 11), (.r12, 12)] := by decide
  have hgpa : BitVec.ofNat 64 gpa = core.regs .r12 := by
    rw [← hr12, BitVec.ofNat_toNat, BitVec.setWidth_eq]
  simp only [vmCall, hrcx, report, hgpa, hshown]
  simp [hr10, hr11]

/-- How many instructions it takes at the most from `long_mode` to the end. -/
def longest (ranges : List (Nat × Nat)) : Nat :=
  (8 * (pagesOf page ranges).length + 16 * ranges.length + 8) * 11 + 5

section

variable (h : Setting env code y blob entry ranges pg m₀)

include h

/-- The loop goes on. -/
theorem step_halted (hs : Halted code y ranges m₀ s) (answer : Answer) :
    Halted code y ranges m₀ (X86.step env code outside answer s) ∧
      (X86.step env code outside answer s).outer = s.outer := by
  obtain ⟨core, o⟩ := s
  have hready : Ready env code .code64 mapLimit o := hs.ready h
  obtain ⟨i, hi, hip⟩ := hs.ip
  have hgoes : ∀ core' : Core, (∃ i < 3, core'.ip = code.addr (lineOf .fatal listing + i)) →
      Halted code y ranges m₀ ⟨core', o⟩ ∧ (⟨core', o⟩ : State Td).outer = o := fun core' hip' =>
    ⟨{ hs with ip := hip' }, rfl⟩
  match i, hi with
  | 0, _ =>
    have hline : (lines listing)[lineOf .fatal listing + 0]? = some (.code64, .op .cli) := rfl
    rw [hready.step hline hip rfl]
    exact hgoes _ ⟨1, by decide, rfl⟩
  | 1, _ =>
    have hline : (lines listing)[lineOf .fatal listing + 1]? = some (.code64, .op .hlt) := rfl
    rw [hready.step hline hip rfl]
    exact hgoes _ ⟨2, by decide, rfl⟩
  | 2, _ =>
    have hline : (lines listing)[lineOf .fatal listing + 2]? =
        some (.code64, .op (.jmp .fatal)) := rfl
    rw [hready.step hline hip rfl]
    exact hgoes _ ⟨0, by decide, sym_eq code (by decide)⟩

/-- Whoever dies says so and halts. -/
theorem reaches_halted (hrel : Rel code y ⟨core, o⟩ c)
    (hinv : Reset.Inv entry ranges pg (returnAddress code) m₀ c) (hpc : c.pc = .die)
    (hnext : c.taken ++ [c.r12] <+: pagesOf page ranges) :
    Reaches (X86.step env code outside) (fun s => Safe y ranges m₀ s.outer)
      (Halted code y ranges m₀) 5 ⟨core, o⟩ := by
  have hsafe := hrel.safe h.packed hinv
  have hready := hsafe.ready h
  have hagree : Agree core o.mem c := hrel.agree
  have hip : core.ip = code.addr (lineOf .die listing) := by
    rw [hrel.ip, hpc]
    exact sym_eq code (by decide)
  refine reaches_op hready hsafe rfl hip ?_
  refine reaches_op hready hsafe rfl rfl ?_
  refine reaches_op hready hsafe rfl rfl ?_
  refine reaches_op hready hsafe rfl rfl ?_
  refine reaches_vmCall hready hsafe rfl rfl (by simp) fun answer => ?_
  rw [vmCall_report c.r12 (by simp; rfl) (by simp) (by simp; rfl) (by simp [hagree.r12])]
  refine .here ⟨⟨hsafe.up, hsafe.sys, hsafe.frame⟩, ⟨0, by decide, rfl⟩, c.r12, ?_, ?_⟩
  · rw [← hrel.accepted] at hnext
    exact hnext
  · simpa using hsafe.calls

/-- The kernel's entry point is elsewhere, and that is where the listing's machine stays. -/
theorem step_handed (hs : Handed y entry ranges m₀ s) (answer : Answer) :
    X86.step env code outside answer s = s := by
  obtain ⟨core, o⟩ := s
  have hready : Ready env code .code64 mapLimit o := hs.safe.ready h
  have hip : core.ip = entry := hs.ip
  apply hready.step_elsewhere
  · rw [hip]
    exact h.entry.trans (by decide)
  · left
    rw [hip, h.assembled.base]
    exact h.entry

/-- The steps end, at the kernel or where they die. -/
private theorem reaches_stopped (hstart : Reset.Start pg c) (hmem : c.mem = m₀) :
    Reaches (Reset.step (returnAddress code)) (fun c => ¬ Reset.Stopped c)
      (fun c => (Reset.Inv entry ranges pg (returnAddress code) m₀ c ∧
        (c.pc = .die → c.taken ++ [c.r12] <+: pagesOf page ranges)) ∧ Reset.Stopped c)
      (Reset.measure ranges c + 1) c := by
  refine Reaches.of_measure (Reset.measure ranges) (fun status c hc hgoing => ?_) ⟨?_, ?_⟩
  · obtain ⟨hinv', hless⟩ := Reset.inv_step h.packed status c hc.1
    exact ⟨⟨hinv', next_of_die h.packed hc.1 fun hpc => hgoing (Or.inl hpc)⟩, hless⟩
  · rw [← hmem]
    exact Reset.inv_run h.packed hstart []
  · intro hpc
    rw [hstart.pc] at hpc
    exact Reset.Label.noConfusion hpc

/-- From `long_mode` on, whatever is answered: safe up to where the kernel has the
    processor or it halts. -/
theorem reaches_end (hstart : Reset.Start pg c) (hmem : c.mem = m₀) (hrel : Rel code y s c) :
    Reaches (X86.step env code outside) (fun s => Safe y ranges m₀ s.outer)
      (fun s => Halted code y ranges m₀ s ∨ Handed y entry ranges m₀ s) (longest ranges) s := by
  have hlongest : longest ranges = (Reset.measure ranges c + 1) * 11 + 5 := by
    rw [longest, Reset.measure, hstart.pc]
  have hinv : Reset.Inv entry ranges pg (returnAddress code) m₀ c := by
    rw [← hmem]
    exact Reset.inv_run h.packed hstart []
  rw [hlongest]
  refine ((simulates h).reaches ⟨hrel, hinv⟩ (reaches_stopped h hstart hmem)).bind ?_
  rintro ⟨core, o⟩ ⟨c', ⟨hrel', hinv'⟩, ⟨-, hnext⟩, hdie | ⟨rip, hkernel⟩⟩
  · exact (reaches_halted h hrel' hinv' hdie (hnext hdie)).mono le_rfl fun _ => Or.inl
  · have hat := hinv'.at_pc
    rw [hkernel] at hat
    obtain ⟨hall, hrip, hrsi⟩ := hat
    refine .here (Or.inr ⟨hrel'.safe h.packed hinv', ?_, ?_, ?_, fun a ha => ?_⟩)
    · rw [hrel'.ip, hkernel, ← hrip]
      rfl
    · rw [← BitVec.toNat_inj, hrel'.agree.rsi, hrsi]
      rfl
    · rw [hrel'.accepted, hall.taken]
    · rw [hrel'.agree.mem]
      exact hall.zero a ha

end

end BootShim.ResetCode
