-- SUMMARY: The TDX reset shim from the reset vector to the kernel: the way to 64-bit mode, and what every run of the boot processor keeps and where it ends (`src/reset.S`).
import BootShim.Shim.ResetRuns

/-!
# The TDX shim from the reset vector on

The TDX module hands a processor over in 32-bit protected mode without paging. The shim
takes it to 64-bit mode over its own descriptors and tables, writes no memory on the way
and says nothing to anyone.
-/

namespace BootShim.ResetCode

open Bytes Image Layout Machine PageTables PageWalk Shim X86

variable {env : Env} {code : Code listing} {y : System} {blob : ShimBlob} {entry : Nat}
  {ranges : List (Nat × Nat)} {pg : List UInt8} {m₀ : Memory} {core : Core} {o : Outer Td}
  {s : State Td} {n : Nat} {P Q : State Td → Prop}

/-! ## The system state on the way -/

/-- Behind `lgdt` and the far jump to `flat32`. -/
def onGdt (y : System) : System :=
  { y with gdtBase := bspStack, gdtLimit := gdtLimit }.setSeg .cs code32Segment

/-- With paging on, in compatibility mode. -/
def onPaging (y : System) : System :=
  { withData (onGdt y) dataRegs with
    cr4 := withBit y.cr4 5
    cr3 := BitVec.ofNat 64 Layout.pageTables
    cr0 := withBit y.cr0 31
    efer := y.efer ||| BitVec.twoPow 64 10 }

/-- At `long_mode`. -/
def entered (y : System) : System := (onPaging y).setSeg .cs code64Segment

/-- How the TDX module hands a processor over. The bits it fixes are set, and none of
    them is in the upper half of its register. -/
structure Initial (env : Env) (y : System) : Prop where
  code : (y.segs .cs).selector % 4 = 0 ∧ (y.segs .cs).base = 0 ∧
    (y.segs .cs).limit = 0xffffffff ∧ (y.segs .cs).big = true
  data : (y.segs .ds).base = 0 ∧ (y.segs .ds).limit = 0xffffffff
  pe : y.pe = true
  pg : y.pg = false
  lme : y.lme = true
  lma : y.lma = false
  la57 : y.la57 = false
  cr0 : y.cr0 &&& Width.long.mask &&& env.cr0Fixed = env.cr0Fixed
  cr4 : y.cr4 &&& Width.long.mask &&& env.cr4Fixed = env.cr4Fixed

section

variable (h : Initial env y)

theorem cs_onGdt : (onGdt y).segs .cs = code32Segment := by
  simp [onGdt, System.setSeg]

theorem cs_onPaging : (onPaging y).segs .cs = code32Segment := by
  simp [onPaging, withData_eq, cs_onGdt]

theorem described_onGdt : Described (onGdt y) :=
  ⟨rfl, rfl, by rw [System.cpl, cs_onGdt]; rfl⟩

theorem described_onPaging : Described (onPaging y) :=
  ⟨rfl, rfl, by rw [System.cpl, cs_onPaging]; rfl⟩

/-- Paging is on, with long mode behind it. -/
theorem paged_onPaging (h : Initial env y) : Paged (onPaging y) where
  pg := by
    rw [System.pg, onPaging, getLsbD_withBit (by decide)]
    simp
  lma := by
    simp [System.lma, onPaging]
  la57 := by
    rw [System.la57, onPaging, getLsbD_withBit (by decide)]
    rw [show y.cr4.getLsbD 12 = false from h.la57]
    rfl
  cr3 := rfl

theorem paged_entered (h : Initial env y) : Paged (entered y) :=
  ⟨(paged_onPaging h).pg, (paged_onPaging h).lma, (paged_onPaging h).la57, rfl⟩

theorem mode_entered (h : Initial env y) : (entered y).mode = .code64 := by
  have hlma : (entered y).lma = true := (paged_entered h).lma
  rw [System.mode, hlma]
  rfl

end

/-! ## The way there -/

/-- Before paging, with PAE. -/
private theorem writeCr_cr4 (h : Initial env y) :
    (withData (onGdt y) dataRegs).writeCr env (withBit y.cr4 5) .cr4 =
      some { withData (onGdt y) dataRegs with cr4 := withBit y.cr4 5 } := by
  have hlma : (withData (onGdt y) dataRegs).lma = false := by
    rw [withData_eq]
    exact h.lma
  rw [System.writeCr, System.writeCr4, withBit_and h.cr4, hlma]
  simp

/-- With PAE and EFER.LME, paging is the switch to long mode. -/
private theorem writeCr_cr0 (h : Initial env y) :
    System.writeCr { withData (onGdt y) dataRegs with
      cr4 := withBit y.cr4 5, cr3 := BitVec.ofNat 64 Layout.pageTables } env (withBit y.cr0 31) .cr0 =
        some (onPaging y) := by
  have hbit : (withBit y.cr0 31).getLsbD 31 = true := by
    rw [getLsbD_withBit (by decide)]
    simp
  have hbit0 : (withBit y.cr0 31).getLsbD 0 = true := by
    rw [getLsbD_withBit (by decide), show y.cr0.getLsbD 0 = true from h.pe]
    rfl
  have hbit5 : (withBit y.cr4 5).getLsbD 5 = true := by
    rw [getLsbD_withBit (by decide)]
    simp
  have hpg : y.cr0.getLsbD 31 = false := h.pg
  have hlme : y.efer.getLsbD 8 = true := h.lme
  have hcs : (withData (onGdt y) dataRegs).segs .cs = code32Segment := by
    simp [withData_eq, cs_onGdt]
  have hcr0 : (withData (onGdt y) dataRegs).cr0 = y.cr0 := by
    rw [withData_eq]
    rfl
  have hefer : (withData (onGdt y) dataRegs).efer = y.efer := by
    rw [withData_eq]
    rfl
  simp only [System.writeCr, System.writeCr0, System.pg, System.pe, System.lme, System.pae,
    withBit_and h.cr0, hbit, hbit0, hbit5, hpg, hlme, hcs, hcr0, hefer]
  simp [code32Segment, onPaging]

/-- Unpaged 32-bit code runs from the shim's page. -/
private theorem ready_unpaged (ha : Assembled code pg) (hlen : pg.length = page)
    (hshim : o.mem.Holds resetAlias pg) (hup : o.shutdown = false) (hmode : o.sys.mode = .code32)
    (hbase : (o.sys.segs .cs).base = 0) (hlimit : (o.sys.segs .cs).limit = 0xffffffff)
    (hpg : o.sys.pg = false) : Ready env code .code32 fourGib o := by
  have hpaging : o.sys.pg = false ∨ Paged o.sys ∧ Tabled env 0 false o.mem := Or.inl hpg
  refine ready_flat hup hmode hbase hlimit hpaging ?_ ?_
  · rw [ha.base, ha.bytes]
    exact hshim
  · rw [ha.base, ha.bytes, hlen]
    decide

theorem reaches_longMode (ha : Assembled code pg) (hlen : pg.length = page)
    (hshim : o.mem.Holds resetAlias pg) (hgdt : Gdt o.mem) (htables : Tabled env 0 false o.mem)
    (hup : o.shutdown = false) (h : Initial env o.sys) (hip : core.ip = code.sym .resetVector)
    (hP : ∀ core y, P ⟨core, { o with sys := y }⟩)
    (hnext : ∀ core', core'.ip = code.sym .longMode → core'.regs .rsi = core.regs .rsi →
      core'.Calm → Reaches (X86.step env code outside) P Q n
        ⟨core', { o with sys := entered o.sys }⟩) :
    Reaches (X86.step env code outside) P Q (n + 21) ⟨core, o⟩ := by
  obtain ⟨hcpl, hbase, hlimit, hbig⟩ := h.code
  have hmode : o.sys.mode = .code32 := by
    rw [System.mode, h.lma, hbig]
    rfl
  have hready : Ready env code .code32 fourGib o :=
    ready_unpaged ha hlen hshim hup hmode hbase hlimit h.pg
  -- With the measured descriptor in CS, before paging is on.
  have hready32 : ∀ y : System, y.segs .cs = code32Segment → y.pg = false →
      Ready env code .code32 fourGib { o with sys := y } := fun y hcs hpg =>
    ready_unpaged ha hlen hshim hup (mode_of_code32 hcs) (by rw [hcs]; rfl) (by rw [hcs]; rfl) hpg
  have hready' : Ready env code .code32 fourGib { o with
      sys := { o.sys with gdtBase := bspStack, gdtLimit := gdtLimit } } :=
    hready.congr_sys rfl rfl rfl rfl rfl
  have hfar : ∀ l : Symbol, resetAlias + code.sym l - code.sym .resetStart = code.sym l := by
    intro l
    rw [ha.start, Nat.add_sub_cancel_left]
  refine reaches_op hready (hP _ o.sys) rfl (hip.trans (sym_eq code (by decide))) ?_
  refine reaches_op hready (hP _ o.sys) rfl (sym_eq code (by decide)) ?_
  refine reaches_op hready (hP _ o.sys) rfl rfl ?_
  refine reaches_op hready (hP _ o.sys) rfl rfl ?_
  have hlimit' : o.load env 2 gdtPtr = some gdtLimit := by
    rw [hready.load (by decide), hgdt.limit]
  have hbase' : o.load env 4 (gdtPtr + 2) = some bspStack := by
    rw [hready.load (by decide), hgdt.base]
  refine reaches_line hready (hP _ o.sys) rfl rfl
    (fun _ => exec_lgdt ?_ hcpl ?_ hlimit' hbase') ?_
  · rw [hmode]
    decide
  · simp [State.linear, State.width, System.linear, hmode, h.data.1, h.data.2]
    decide
  refine reaches_line hready' (hP _ _) rfl rfl (fun _ => exec_ljmp ?_
    (loadCode_code32 hready' (by decide) ⟨rfl, rfl, hcpl⟩ hgdt)) ?_
  · rw [hready'.mode]
    decide
  have hflat := hready32 (onGdt o.sys) cs_onGdt h.pg
  refine reaches_op hflat (hP _ _) rfl ((hfar _).trans (sym_eq code (by decide))) ?_
  have hdataRegs : ∀ x ∈ dataRegs, x ≠ SegReg.cs := by decide
  have hsits : Sits listing .code32 (lineOf .flat32 listing + 1)
      (dataRegs.map (.movSeg .rax)) := ⟨_, rfl⟩
  refine reaches_withData hdataRegs hsits hflat (by decide) hP hgdt
    described_onGdt (by simp; rfl) rfl ?_
  have hcs : (withData (onGdt o.sys) dataRegs).segs .cs = code32Segment := by
    simp [withData_eq, cs_onGdt]
  have hpg : (withData (onGdt o.sys) dataRegs).pg = false := by
    rw [withData_eq]
    exact h.pg
  have hcpl' : (withData (onGdt o.sys) dataRegs).cpl = 0 := by
    rw [System.cpl, hcs]
    rfl
  have hdata := hready32 (withData (onGdt o.sys) dataRegs) hcs hpg
  refine reaches_line hdata (hP _ _) rfl rfl
    (fun _ => exec_movFromCr hcpl' hdata.width_code32) ?_
  refine reaches_op hdata (hP _ _) rfl rfl ?_
  refine reaches_line hdata (hP _ _) rfl rfl
    (fun _ => exec_movToCr (y := { withData (onGdt o.sys) dataRegs with cr4 := withBit o.sys.cr4 5 })
      hcpl' hdata.width_code32 ?_) ?_
  · rw [← writeCr_cr4 h]
    congr 1
    simp [Core.get, withBit, System.readCr, withData_eq, System.setSeg]
  have hpae := hready32 { withData (onGdt o.sys) dataRegs with cr4 := withBit o.sys.cr4 5 } hcs hpg
  refine reaches_op hpae (hP _ _) rfl rfl ?_
  refine reaches_line hpae (hP _ _) rfl rfl
    (fun _ => exec_movToCr (y := { withData (onGdt o.sys) dataRegs with
      cr4 := withBit o.sys.cr4 5, cr3 := BitVec.ofNat 64 Layout.pageTables })
      hcpl' hpae.width_code32 ?_) ?_
  · simp [System.writeCr, Core.get]
    decide
  have hcr3 := hready32 { withData (onGdt o.sys) dataRegs with
    cr4 := withBit o.sys.cr4 5, cr3 := BitVec.ofNat 64 Layout.pageTables } hcs hpg
  refine reaches_line hcr3 (hP _ _) rfl rfl
    (fun _ => exec_movFromCr hcpl' hcr3.width_code32) ?_
  refine reaches_op hcr3 (hP _ _) rfl rfl ?_
  refine reaches_line hcr3 (hP _ _) rfl rfl
    (fun _ => exec_movToCr (y := onPaging o.sys) hcpl' hcr3.width_code32 ?_) ?_
  · rw [← writeCr_cr0 h]
    congr 1
    simp [Core.get, withBit, System.readCr, withData_eq, onGdt, System.setSeg]
  -- Compatibility mode, over the tables.
  have hpaged : Ready env code .code32 fourGib { o with sys := onPaging o.sys } := by
    refine ready_flat hup (mode_of_code32 cs_onPaging) ?_ ?_ (Or.inr ⟨paged_onPaging h, htables⟩)
      ?_ ?_
    · rw [cs_onPaging]
      rfl
    · rw [cs_onPaging]
      rfl
    · rw [ha.base, ha.bytes]
      exact hshim
    · rw [ha.base, ha.bytes, hlen]
      decide
  refine reaches_line hpaged (hP _ _) rfl rfl (fun _ => exec_ljmp ?_
    (loadCode_code64 hpaged (by decide) described_onPaging hgdt)) ?_
  · rw [hpaged.mode]
    decide
  refine hnext _ ?_ ?_ ⟨?_, ?_⟩
  · exact hfar _
  · simp
  · simp
  · simp

/-! ## Whole runs -/

/-- A TD as it starts on its boot processor: the builder's page, tables and descriptors in
    memory, nothing accepted and nothing said. -/
structure Launched (env : Env) (code : Code listing) (blob : ShimBlob) (entry : Nat)
    (ranges : List (Nat × Nat)) (pg : List UInt8) (s : State Td) : Prop where
  packed : Packed blob resetAlias entry ranges pg (returnAddress code)
  assembled : Assembled code pg
  shim : s.outer.mem.Holds resetAlias pg
  gdt : Gdt s.outer.mem
  tables : Tabled env 0 false s.outer.mem
  avoids_tables : ∀ r ∈ ranges, r.2 ≤ Layout.pageTables ∨
    Layout.pageTables + (identityMap 0 false).length ≤ r.1
  entry : entry < resetAlias
  initial : Initial env s.outer.sys
  up : s.outer.shutdown = false
  ip : s.core.ip = resetAlias + resetVector
  boot : (s.core.regs .rsi).toNat % 2 ^ 32 = 0
  fresh : s.outer.ext = ⟨[], []⟩

/-- What no instruction breaks: there has been no exception, nothing is written but the
    listed ranges and the top of the stack, listed pages are accepted in order and once,
    and all the host has heard is the first page that could not be. -/
structure Kept (ranges : List (Nat × Nat)) (m₀ : Memory) (o : Outer Td) : Prop where
  up : o.shutdown = false
  frame : ∀ a, ¬ InRanges ranges a → a < bspStackTop - 8 ∨ bspStackTop ≤ a → o.mem a = m₀ a
  accepted : o.ext.accepted <+: pagesOf page ranges
  calls : o.ext.calls = [] ∨
    ∃ gpa, o.ext.accepted ++ [gpa] <+: pagesOf page ranges ∧ o.ext.calls = [report gpa]

theorem Safe.kept (h : Safe y ranges m₀ o) : Kept ranges m₀ o :=
  ⟨h.up, h.frame, h.accepted, Or.inl h.calls⟩

theorem Halted.kept (h : Halted code y ranges m₀ s) : Kept ranges m₀ s.outer := by
  obtain ⟨gpa, hpre, hcalls⟩ := h.calls
  exact ⟨h.up, h.frame, (List.prefix_append _ _).trans hpre, Or.inr ⟨gpa, hpre, hcalls⟩⟩

/-- The kernel has the processor as it asks for it, at its entry point, with all listed
    pages accepted and zero. -/
structure Booted (env : Env) (entry : Nat) (ranges : List (Nat × Nat)) (s : State Td) : Prop where
  ip : s.core.ip = entry
  protocol : BootProtocol env s
  accepted : s.outer.ext.accepted = pagesOf page ranges
  zero : ∀ a, InRanges ranges a → s.outer.mem a = 0
  calls : s.outer.ext.calls = []

/-- No answer to a TDCALL lets interrupts in. -/
theorem calm_outside (e : Outside) (answer : Answer) (s s' : State Td)
    (h : outside e answer s = some s') (hs : s.core.Calm) : s'.core.Calm := by
  unfold outside at h
  split at h
  · rw [← Option.some.inj h, pageAccept]
    split <;> exact ⟨hs.intr, hs.df⟩
  · split at h
    · rw [← Option.some.inj h]
      exact ⟨hs.intr, hs.df⟩
    · exact absurd h (by simp)

section

variable (h : Launched env code blob entry ranges pg s)

include h

theorem Launched.setting :
    Setting env code (entered s.outer.sys) blob entry ranges pg s.outer.mem where
  packed := h.packed
  assembled := h.assembled
  mode := mode_entered h.initial
  paged := paged_entered h.initial
  tables := h.tables
  shim := h.shim
  avoids_tables := h.avoids_tables
  entry := h.entry

theorem booted_of_handed {s' : State Td}
    (hs : Handed (entered s.outer.sys) entry ranges s.outer.mem s') (hintr : s'.core.intr = false) :
    Booted env entry ranges s' := by
  have hready := hs.safe.ready h.setting
  have hsys : s'.outer.sys = entered s.outer.sys := hs.safe.sys
  refine ⟨hs.ip, ⟨hready.mode, ?_, ?_, ?_, ?_, hready.maps, hintr, hs.rsi⟩, hs.accepted, hs.zero,
    hs.safe.calls⟩
  · rw [hsys]
    simp [entered, System.setSeg]
  · intro x hx
    have hne : x ≠ .cs := by
      rintro rfl
      exact absurd hx (by decide)
    rw [hsys]
    simp only [entered, onPaging, System.setSeg, withData_eq, hne, hx, if_true, if_false]
  · rw [hsys]
    refine ⟨rfl, rfl, ?_⟩
    simp [System.cpl, entered, System.setSeg, code64Segment]
  · apply h.gdt.congr
    intro a hlo hhi
    apply hs.safe.frame
    · rintro ⟨r, hr, hrlo, hrhi⟩
      have hstack := h.packed.avoids_stack r hr
      simp only [gdtPtr, gdtLimit, bootDs, bspStackTop, bspStackSize, bspStack] at *
      omega
    · left
      exact hhi.trans_le (by decide)

/-- The state of the steps at `long_mode`. -/
private def atLongMode (core : Core) (m : Memory) : Cpu Reset.Label :=
  { pc := .longMode
    rsp := (core.regs .rsp).toNat, rbp := (core.regs .rbp).toNat
    rsi := (core.regs .rsi).toNat, rdi := (core.regs .rdi).toNat
    rax := (core.regs .rax).toNat, rbx := (core.regs .rbx).toNat
    rcx := (core.regs .rcx).toNat, rdx := (core.regs .rdx).toNat
    r12 := (core.regs .r12).toNat, r13 := (core.regs .r13).toNat
    r14 := (core.regs .r14).toNat, r15 := (core.regs .r15).toNat
    cf := core.cf, mem := m, taken := [], pushed := [], cleared := [] }

/-- From the reset vector on. -/
theorem reaches_booted : Reaches (X86.step env code outside)
    (fun s' => Kept ranges s.outer.mem s'.outer)
    (fun s' => (Halted code (entered s.outer.sys) ranges s.outer.mem s' ∨
      Handed (entered s.outer.sys) entry ranges s.outer.mem s') ∧ s'.core.Calm)
    (longest ranges + 21) s := by
  have hset := h.setting
  obtain ⟨core, o⟩ := s
  have hfresh : o.ext = ⟨[], []⟩ := h.fresh
  have hkept : ∀ (core : Core) (y : System), Kept ranges o.mem { o with sys := y } := by
    intro _ y
    refine ⟨h.up, fun _ _ _ => rfl, ?_, Or.inl ?_⟩
    · rw [hfresh]
      exact List.nil_prefix
    · rw [hfresh]
  refine reaches_longMode h.assembled h.packed.length_pg h.shim h.gdt h.tables h.up h.initial
    (h.ip.trans h.assembled.vector.symm) (fun core y => hkept core y) fun core' hip hrsi hcalm => ?_
  have hstart : Reset.Start pg (atLongMode core' o.mem) := by
    refine ⟨rfl, ?_, h.shim, rfl, rfl, rfl⟩
    rw [atLongMode, hrsi]
    exact h.boot
  have hrel : Rel code (entered o.sys) ⟨core', { o with sys := entered o.sys }⟩
      (atLongMode core' o.mem) := by
    refine ⟨⟨rfl, rfl, rfl, rfl, rfl, rfl⟩, hip, h.up, rfl, ?_, ?_⟩
    · rw [hfresh]
      rfl
    · rw [hfresh]
  have hend := (reaches_end hset hstart rfl hrel).mono_safe fun _ => Safe.kept
  exact hend.keeping (calm_step calm_outside) hcalm

/-- Nothing leads out of the end. -/
theorem end_step (answer : Answer) (s' : State Td)
    (hs : (Halted code (entered s.outer.sys) ranges s.outer.mem s' ∨
      Handed (entered s.outer.sys) entry ranges s.outer.mem s') ∧ s'.core.Calm) :
    (Halted code (entered s.outer.sys) ranges s.outer.mem (X86.step env code outside answer s') ∨
      Handed (entered s.outer.sys) entry ranges s.outer.mem (X86.step env code outside answer s')) ∧
        (X86.step env code outside answer s').core.Calm := by
  refine ⟨?_, calm_step calm_outside answer s' hs.2⟩
  rcases hs.1 with hhalted | hhanded
  · exact Or.inl (step_halted h.setting hhalted answer).1
  · rw [step_handed h.setting hhanded answer]
    exact Or.inr hhanded

/-- Whatever the TDX module and the host answer: from its first instruction on the boot
    processor keeps to the list, and it ends in the kernel with everything accepted, or
    halted for good with one report. -/
theorem reset_run (is : List Answer) :
    Kept ranges s.outer.mem (run (X86.step env code outside) s is).outer ∧
      (longest ranges + 21 ≤ is.length →
        Booted env entry ranges (run (X86.step env code outside) s is) ∨
          Halted code (entered s.outer.sys) ranges s.outer.mem
            (run (X86.step env code outside) s is)) := by
  rcases (reaches_booted h).settles (end_step h) is with ⟨hhalted | hhanded, hcalm⟩ | ⟨hshort, hkept⟩
  · exact ⟨hhalted.kept, fun _ => Or.inr hhalted⟩
  · exact ⟨hhanded.safe.kept, fun _ => Or.inl (booted_of_handed h hhanded hcalm.intr)⟩
  · exact ⟨hkept, fun hlong => absurd hlong (Nat.not_le.mpr hshort)⟩

end

end BootShim.ResetCode
