-- SUMMARY: A loaded image under the instructions of its shim: what every run leaves of the image, which memory it takes, and how it ends.
import BootShim.Pipeline.Booted
import BootShim.Shim.ApRuns
import BootShim.Shim.ResetBoot

/-!
# Executing an image

The builder's regions are in memory, and a processor starts at the shim's first
instruction. Whatever it is answered, every measured region but the stack stays as it was
measured, and only memory that nobody placed anything in is taken. A TDX image is followed
instruction by instruction, an SNP image stretch by stretch from 64-bit mode on.
-/

namespace BootShim.Pipeline

open Boot Bytes Image Layout Machine PageWalk Shim X86

variable {pf : Platform} {blob : ShimBlob} {kernelFile initramfs : List UInt8} {params : Params}
  {mem : Memory} {env : Env} {ret : Nat}

namespace Mapped

variable (m : Mapped pf blob kernelFile initramfs params)

/-! ## Regions under the shim -/

/-- Every measured region but the stack is in memory, up to the end of its last page. -/
def Untouched (mem : Memory) : Prop :=
  ∀ q ∈ m.regions, ∀ d, q.fill = .measured d → q.base ≠ bspStack →
    mem.Holds q.base (padTo (alignUp d.length page) d)

/-- So is every one but the stack and that at `base`. -/
def UntouchedBut (base : Nat) (mem : Memory) : Prop :=
  ∀ q ∈ m.regions, ∀ d, q.fill = .measured d → q.base ≠ bspStack → q.base ≠ base →
    mem.Holds q.base (padTo (alignUp d.length page) d)

/-- Memory that nobody placed anything in. -/
def Unplaced (a : Nat) : Prop := a < params.memory ∧ ¬ m.InRegion a ∧ ¬ InAperture params.mmio a

theorem inRange_of_unplaced (hvalid : params.Valid) {a : Nat} (ha : m.Unplaced a) :
    InRange m.accept a := by
  have hholes : ¬ InStraight params.mmio a := fun ⟨q, hq, hqa⟩ => ha.2.2 ⟨q, hq, hqa.2⟩
  exact (m.inRange_accept_iff hvalid).mpr ⟨ha.1, ha.2.1, hholes⟩

/-- The bytes of a measured region lie in it, up to the end of its last page. -/
theorem mem_tile_of_lt {q : Placed} (hq : q ∈ m.regions) {d : List UInt8}
    (hd : q.fill = .measured d) {i : Nat} (hi : i < (padTo (alignUp d.length page) d).length) :
    q.tile.Mem (q.base + i) := by
  rw [(m.fits hq).mem_tile, Placed.span, hd]
  rw [length_padTo (le_alignUp_page _)] at hi
  simp only
  omega

/-- A region lies apart from every one that starts elsewhere. -/
theorem not_mem_of_base_ne {q : Placed} (hq : q ∈ m.regions) {t : Tile Nat Nat}
    (ht : t ∈ pf.footprint (kernelEnd m.p.kernel) (initramfsEnd m.p.initramfs))
    (hne : q.base ≠ t.lo) {a : Nat} (ha : q.tile.Mem a) : ¬ t.Mem a := by
  intro hat
  obtain ⟨q', hq', htile⟩ := m.exists_region ht
  have heq := tile_eq_of_mem m.validate_map (List.mem_append_left _ hq)
    (List.mem_append_left _ hq') ha (htile ▸ hat)
  rw [heq] at hne
  exact hne (congrArg Tile.lo htile)

/-- What stays clear of the accept list and of the top of the stack keeps the regions. -/
theorem untouched_of_frame (hvalid : params.Valid) {mem' : Memory}
    (hframe : ∀ a, ¬ InRanges m.accept a → a < bspStackTop - 8 ∨ bspStackTop ≤ a →
      mem' a = mem.load m.pages a) : m.Untouched mem' := by
  intro q hq d hd hne
  have hholds := m.holds_region mem (m.mem_sorted hq) hd
  intro i hi
  have hin := m.mem_tile_of_lt hq hd hi
  rw [hframe, hholds i hi]
  · rintro ⟨r, hr, hlo, hhi⟩
    have hapart := m.accept_apart hvalid hq hr
    have hlo' := hin.1
    have hhi' := hin.2
    omega
  · by_contra hstack
    refine m.not_mem_of_base_ne hq (t := ⟨bspStack, bspStackTop, reserved⟩)
      (by cases pf <;> simp [Platform.footprint]) hne hin ?_
    constructor
    · simp only [bspStack, bspStackTop, bspStackSize] at *
      omega
    · simp only [bspStack, bspStackTop, bspStackSize] at *
      omega

/-- The others stay where one of them is given away. -/
theorem Untouched.but {mem mem' : Memory} (h : m.Untouched mem) {t : Tile Nat Nat}
    (ht : t ∈ pf.footprint (kernelEnd m.p.kernel) (initramfsEnd m.p.initramfs))
    (halike : ∀ a, ¬ t.Mem a → mem' a = mem a) : m.UntouchedBut t.lo mem' := by
  intro q hq d hd hstack hne i hi
  rw [halike _ (m.not_mem_of_base_ne hq ht hne (m.mem_tile_of_lt hq hd hi))]
  exact h q hq d hd hstack i hi

/-- The descriptors are at the bottom of the loaded stack. -/
theorem gdt_load : Gdt (mem.load m.pages) := by
  have hq : .measured bspStack "" reserved gdtStack ∈ m.regions := by
    rw [Mapped.regions]
    cases pf <;> simp [Platform.regions, tdxRegions, Snp.snpRegions]
  exact gdt_of_holds ((m.holds_region mem (m.mem_sorted hq) rfl).of_padTo)

/-- The accept list is clear of what is measured. -/
theorem accept_avoids (hvalid : params.Valid) {base k : Nat} {name : String} {d : List UInt8}
    (hq : .measured base name k d ∈ m.regions) {r : Nat × Nat} (hr : r ∈ m.accept) :
    r.2 ≤ base ∨ base + d.length ≤ r.1 := by
  have hapart := m.accept_apart hvalid hq hr
  rw [(m.fits hq).tile_hi] at hapart
  have hle := le_alignUp_page d.length
  simp only [Placed.tile, Placed.measured, Placed.span] at hapart
  omega

theorem entry_eq : m.p.entry = kernelBase + entry64Offset := (files_of_prepare m.prepare_ok).2.2

end Mapped

/-! ## TDX -/

section

open ResetCode

variable {code : Code listing} {s : State Td}

/-- A TD with a loaded image, at its boot processor's first instruction. -/
structure Started (m : Mapped .tdx blob kernelFile initramfs params) (env : Env)
    (code : Code listing) (mem : Memory) (s : State Td) : Prop where
  assembled : Assembled code m.shim
  cBit : env.cBit = none
  mem : s.outer.mem = mem.load m.pages
  initial : Initial env s.outer.sys
  up : s.outer.shutdown = false
  ip : s.core.ip = resetAlias + resetVector
  boot : (s.core.regs .rsi).toNat % 2 ^ 32 = 0
  fresh : s.outer.ext = ⟨[], []⟩

variable {m : Mapped .tdx blob kernelFile initramfs params}

theorem Started.launched (h : Started m env code mem s) (hvalid : params.Valid)
    (hstraight : Straight params) : Launched env code blob m.p.entry m.accept m.shim s := by
  have hq : .measured Layout.pageTables "" reserved (identityMap 0 false) ∈ m.regions := by
    rw [Mapped.regions]
    simp [Platform.regions, tdxRegions]
  refine ⟨m.packed hvalid hstraight ?_, h.assembled, ?_, ?_, ⟨?_, Or.inl ⟨rfl, rfl⟩, ?_⟩,
    fun r hr => m.accept_avoids hvalid hq hr, ?_, h.initial, h.up, h.ip, h.boot, h.fresh⟩
  · exact (addr_lt h.assembled m.length_shim (by decide)).trans (by decide)
  · rw [h.mem]
    exact m.holds_shim
  · rw [h.mem]
    exact m.gdt_load
  · rw [h.cBit]
    rfl
  · rw [h.mem]
    exact (m.holds_region mem (m.mem_sorted hq) rfl).of_padTo
  · rw [m.entry_eq]
    decide

/-- What holds behind every instruction: no exception, the measured regions whole, only
    pages taken that nobody placed anything in, each once, and nothing said to the host but
    which page could not be had. -/
structure Executes (m : Mapped .tdx blob kernelFile initramfs params) (o : Outer Td) : Prop where
  up : o.shutdown = false
  untouched : m.Untouched o.mem
  accepted : ∀ a ∈ o.ext.accepted, a % page = 0 ∧ m.Unplaced a
  nodup : o.ext.accepted.Nodup
  calls : o.ext.calls = [] ∨ ∃ gpa, gpa % page = 0 ∧ m.Unplaced gpa ∧ gpa ∉ o.ext.accepted ∧
    o.ext.calls = [report gpa]

/-- The kernel is entered the way its boot protocol wants it, with all memory that nobody
    placed anything in accepted and zero. -/
structure Enters (m : Mapped .tdx blob kernelFile initramfs params) (env : Env) (s : State Td) :
    Prop where
  ip : s.core.ip = kernelBase + entry64Offset
  protocol : BootProtocol env s
  accepted : ∀ a, a ∈ s.outer.ext.accepted ↔ a % page = 0 ∧ m.Unplaced a
  zero : ∀ a, m.Unplaced a → s.outer.mem a = 0
  calls : s.outer.ext.calls = []

theorem executes_of_kept (hvalid : params.Valid) (hstraight : Straight params) {o : Outer Td}
    (h : Kept m.accept (mem.load m.pages) o) : Executes m o := by
  have hmem : ∀ a ∈ pagesOf page m.accept, a % page = 0 ∧ m.Unplaced a := fun a ha =>
    (m.mem_pagesOf_accept hvalid hstraight).mp ha
  have hpage : 0 < page := by decide
  have hnodup := nodup_pagesOf hpage (m.listed_accept hvalid hstraight)
  refine ⟨h.up, m.untouched_of_frame hvalid h.frame, fun a ha => hmem a (h.accepted.subset ha),
    h.accepted.sublist.nodup hnodup, ?_⟩
  rcases h.calls with hnone | ⟨gpa, hpre, hcalls⟩
  · exact Or.inl hnone
  · obtain ⟨halign, hunplaced⟩ := hmem gpa (hpre.subset (by simp))
    have hdistinct := hpre.sublist.nodup hnodup
    refine Or.inr ⟨gpa, halign, hunplaced, fun hin => ?_, hcalls⟩
    exact (List.nodup_append.mp hdistinct).2.2 gpa hin gpa (List.mem_singleton_self _) rfl

theorem enters_of_booted (hvalid : params.Valid) (hstraight : Straight params)
    (h : ResetCode.Booted env m.p.entry m.accept s) : Enters m env s where
  ip := h.ip.trans m.entry_eq
  protocol := h.protocol
  accepted a := by
    rw [h.accepted]
    exact m.mem_pagesOf_accept hvalid hstraight
  zero a ha := by
    apply h.zero
    exact m.inRange_of_unplaced hvalid ha
  calls := h.calls

/-- The run keeps the image. -/
theorem Started.executes (h : Started m env code mem s) (hvalid : params.Valid)
    (hstraight : Straight params) (is : List Answer) :
    Executes m (run (X86.step env code outside) s is).outer := by
  obtain ⟨hkept, -⟩ := reset_run (h.launched hvalid hstraight) is
  rw [h.mem] at hkept
  exact executes_of_kept hvalid hstraight hkept

section

variable {ids : List Nat} {g : Guest}

/-- What the boot processor leaves of the image is what the others wait on. -/
theorem gathered_of_untouched (ha : Assembled code m.shim) (hc : env.cBit = none)
    (hmem : m.Untouched g.mem) (hcoming : Coming code ids g) :
    Gathered env code m.shim ids g := by
  have hholds : ∀ {base k : Nat} {name : String} {d : List UInt8},
      .measured base name k d ∈ m.regions → base ≠ bspStack → g.mem.Holds base d :=
    fun hq hne => (hmem _ hq _ rfl hne).of_padTo
  have hshim : .measured resetAlias "shim" reserved m.shim ∈ m.regions := by
    rw [Mapped.regions]
    simp [Platform.regions, tdxRegions]
  have htables : .measured Layout.pageTables "" reserved (identityMap 0 false) ∈ m.regions := by
    rw [Mapped.regions]
    simp [Platform.regions, tdxRegions]
  have hbox : .measured Layout.mailbox "" reserved (zeros page) ∈ m.regions := by
    rw [Mapped.regions]
    simp [Platform.regions, tdxRegions]
  refine ⟨hcoming, ha, m.length_shim, hholds hshim (by decide),
    ⟨?_, Or.inl ⟨rfl, rfl⟩, hholds htables (by decide)⟩, ?_⟩
  · rw [hc]
    rfl
  · have hpage : g.mem.Holds Layout.mailbox (zeros page) := hholds hbox (by decide)
    intro i hi
    rw [hpage i (hi.trans (by simp)), byteAt_zeros, byteAt_zeros]

end

end

/-! ## SNP -/

section

variable {m : Mapped .snp blob kernelFile initramfs params} {s : Cpu SnpReset.Label}

/-- An SNP guest with a loaded image, its boot processor at `snp_long_mode`. -/
structure SnpStarted (m : Mapped .snp blob kernelFile initramfs params) (mem : Memory)
    (s : Cpu SnpReset.Label) : Prop where
  pc : s.pc = .snpLongMode
  rsp : s.rsp = bspStackTop
  mem : s.mem = mem.load m.pages
  taken : s.taken = []
  pushed : s.pushed = []
  cleared : s.cleared = []

theorem SnpStarted.start (h : SnpStarted m mem s) : SnpReset.Start m.shim s :=
  ⟨h.pc, h.rsp, h.mem ▸ m.holds_shim, h.taken, h.pushed, h.cleared⟩

/-- What holds behind every stretch of the walk: the measured regions whole, and only pages
    validated that nobody placed anything in, each once. -/
structure Walks (m : Mapped .snp blob kernelFile initramfs params) (s : Cpu SnpReset.Label) :
    Prop where
  untouched : m.Untouched s.mem
  validated : ∀ a ∈ s.taken, a % page = 0 ∧ m.Unplaced a
  nodup : s.taken.Nodup

/-- The page that the wake shares with the host. -/
def ghcbTile : Tile Nat Nat := ⟨snpGhcb, snpGhcb + page, reserved⟩

theorem Mapped.ghcbTile_mem (m : Mapped .snp blob kernelFile initramfs params) :
    ghcbTile ∈ Platform.snp.footprint (kernelEnd m.p.kernel) (initramfsEnd m.p.initramfs) := by
  simp [ghcbTile, Platform.footprint]

/-- Memory as the kernel finds it behind the wake. The host has had the GHCB's page, so there
    may be anything in it. -/
def Finds (w : Wake.World) (mem : Memory) : Prop := ∀ a, ¬ ghcbTile.Mem a → mem a = w.mem a

/-- The kernel is entered behind all eight granted requests, with the measured regions whole
    but for the stack and the GHCB, and all memory that nobody placed anything in validated
    and zero. -/
structure SnpEnters (m : Mapped .snp blob kernelFile initramfs params) (taken : List Nat)
    (rip : Nat) (w : Wake.World) : Prop where
  boots : Boots m rip w.rsi taken
  untouched : ∀ mem, Finds w mem → m.UntouchedBut snpGhcb mem
  zero : ∀ mem, Finds w mem → ∀ a, m.Unplaced a → mem a = 0
  through : Wake.Through 8 (Wake.dialogue w.log)

/-- What a guest's boot processor does whatever it is answered, and what it can be brought to. -/
structure SnpExecutes (m : Mapped .snp blob kernelFile initramfs params) (ret : Nat)
    (s : Cpu SnpReset.Label) : Prop where
  walks : ∀ outcomes, Walks m (SnpReset.run ret s outcomes)
  walk_ends : ∃ n, ∀ outcomes, n ≤ outcomes.length →
    SnpReset.Stopped (SnpReset.run ret s outcomes)
  walk_succeeds : ∃ outcomes, (SnpReset.run ret s outcomes).pc = .wakeAps
  enters : ∀ outcomes, (SnpReset.run ret s outcomes).pc = .wakeAps → ∀ code shared msr answers rip,
    (run (Wake.step code) (Wake.takeUp (SnpReset.run ret s outcomes) shared msr) answers).pc =
        .jumped rip →
      SnpEnters m (SnpReset.run ret s outcomes).taken rip
        (run (Wake.step code) (Wake.takeUp (SnpReset.run ret s outcomes) shared msr) answers)
  wake_ends : ∀ outcomes, (SnpReset.run ret s outcomes).pc = .wakeAps → ∀ code shared msr,
    ∃ n, ∀ answers, n ≤ answers.length → Wake.Stopped
      (run (Wake.step code) (Wake.takeUp (SnpReset.run ret s outcomes) shared msr) answers)
  wake_succeeds : ∀ outcomes, (SnpReset.run ret s outcomes).pc = .wakeAps → ∀ code shared msr,
    ∃ answers rip,
      (run (Wake.step code) (Wake.takeUp (SnpReset.run ret s outcomes) shared msr) answers).pc =
        .jumped rip

/-- The walk changes nothing but what it clears and its stack. -/
theorem SnpStarted.frame (h : SnpStarted m mem s) (hvalid : params.Valid)
    (hstraight : Straight params) (hret : ret < 2 ^ 64) (outcomes : List SnpReset.Outcome) {a : Nat}
    (ha : ¬ InRanges m.accept a) (haway : a < bspStackTop - 8 ∨ bspStackTop ≤ a) :
    (SnpReset.run ret s outcomes).mem a = mem.load m.pages a := by
  rw [← h.mem]
  exact (SnpReset.inv_run (m.packed hvalid hstraight hret) h.start outcomes).sane.frame a ha haway

theorem SnpStarted.walks (h : SnpStarted m mem s) (hvalid : params.Valid)
    (hstraight : Straight params) (hret : ret < 2 ^ 64) (outcomes : List SnpReset.Outcome) :
    Walks m (SnpReset.run ret s outcomes) := by
  have hpacked := m.packed hvalid hstraight hret
  have hinitial := (SnpReset.inv_run hpacked h.start outcomes).taken_initial hpacked
  refine ⟨m.untouched_of_frame hvalid fun a => h.frame hvalid hstraight hret outcomes,
    fun a ha => (m.mem_pagesOf_accept hvalid hstraight).mp (hinitial.subset ha), ?_⟩
  exact hinitial.sublist.nodup (nodup_pagesOf (by decide) (m.listed_accept hvalid hstraight))

/-- From the start of the walk to the kernel. -/
theorem SnpStarted.enters (h : SnpStarted m mem s) (hvalid : params.Valid)
    (hstraight : Straight params) (hret : ret < 2 ^ 64) {outcomes : List SnpReset.Outcome}
    (hpc : (SnpReset.run ret s outcomes).pc = .wakeAps) {code : Wake.Code} {shared : Memory}
    {msr : UInt64} {answers : List Wake.Answer} {rip : Nat} {w : Wake.World}
    (hw : w = run (Wake.step code) (Wake.takeUp (SnpReset.run ret s outcomes) shared msr) answers)
    (hjump : w.pc = .jumped rip) : SnpEnters m (SnpReset.run ret s outcomes).taken rip w := by
  have hpacked := m.packed hvalid hstraight hret
  have henter := Wake.enters_takeUp hpacked h.start hpc shared msr
  have hmem : ∀ a, a < bspStackTop - 8 ∨ bspStackTop ≤ a →
      w.mem a = (SnpReset.run ret s outcomes).mem a := fun a ha => by
    rw [hw]
    exact Wake.mem_run m.length_shim henter answers ha
  obtain ⟨-, -, hthrough, -⟩ := Wake.boots_after_walk hpacked h.start hpc shared msr hw hjump
  have hframe : ∀ a, ¬ InRanges m.accept a → a < bspStackTop - 8 ∨ bspStackTop ≤ a →
      w.mem a = mem.load m.pages a := fun a ha haway =>
    (hmem a haway).trans (h.frame hvalid hstraight hret outcomes ha haway)
  refine ⟨m.boots_snp hvalid hstraight hret h.start hpc code shared msr hw hjump,
    fun mem' hfinds => (m.untouched_of_frame hvalid hframe).but m m.ghcbTile_mem hfinds,
    fun mem' hfinds a ha => ?_, hthrough⟩
  have hat := (SnpReset.inv_run hpacked h.start outcomes).at_pc
  rw [hpc] at hat
  have hin := m.inRange_of_unplaced hvalid ha
  have haway : a < bspStackTop - 8 ∨ bspStackTop ≤ a := by
    obtain ⟨r, hr, hlo, hhi⟩ := hin
    have hstack := hpacked.avoids_stack r hr
    simp only [bspStackTop, bspStack, bspStackSize] at *
    omega
  have hprivate : ¬ ghcbTile.Mem a := by
    obtain ⟨q, hq, htile⟩ := m.exists_region m.ghcbTile_mem
    exact fun hghcb => ha.2.1 ⟨q, hq, htile ▸ hghcb⟩
  rw [hfinds a hprivate, hmem a haway]
  exact hat.zero a hin

end

/-! ## Samples -/

namespace Sample

open ResetCode

/-- The TDX shim with room for the longest instruction at each line. -/
def tdxPlace (k : Nat) : Nat := resetAlias + if k < 83 then 16 * k else resetVector

def tdxCode (pg : List UInt8) (hpg : pg.length = page) : Code listing where
  base := resetAlias
  bytes := pg
  addr := tdxPlace
  sym l := if l = .shimData then Reset.dataAt else tdxPlace (lineOf l listing)
  injective i hi j hj heq := by
    have hlen : (lines listing).length = 84 := by decide
    simp only [tdxPlace, resetVector, page] at heq
    split_ifs at heq <;> omega
  within i _ := by
    rw [hpg]
    simp only [tdxPlace, resetVector, page]
    split_ifs <;> omega
  sym_eq b hb := by
    have hne : ∀ b ∈ listing, b.label ≠ .shimData := by decide
    exact if_neg (hne b hb)

theorem assembled_tdxCode (pg : List UInt8) (hpg : pg.length = page) :
    Assembled (tdxCode pg hpg) pg := by
  refine ⟨rfl, rfl, ?_, ?_, ?_⟩
  · change tdxPlace (lineOf .resetStart listing) = resetAlias
    decide
  · rfl
  · change tdxPlace (lineOf .resetVector listing) = resetAlias + resetVector
    decide

/-- A processor as the TDX module hands it over, with CR0.NE and CR4.MCE among the fixed
    bits. -/
def tdxEnv : Env := ⟨none, 0x21, 0x40⟩

def tdxSystem : System where
  segs _ := ⟨0, 0, 0xffffffff, true, true, false, true⟩
  gdtBase := 0
  gdtLimit := 0xffff
  cr0 := 0x21
  cr3 := 0
  cr4 := 0x40
  efer := 0x901

theorem initial_tdxSystem : Initial tdxEnv tdxSystem := by
  refine ⟨⟨rfl, rfl, rfl, rfl⟩, ⟨rfl, rfl⟩, ?_, ?_, ?_, ?_, ?_, ?_, ?_⟩
  all_goals decide

/-- The boot processor of a TD. -/
def tdxState (mem : Memory) : State Td where
  core := ⟨fun _ => 0, resetAlias + resetVector, false, false, false, true⟩
  outer := ⟨tdxSystem, mem, mem, ⟨[], []⟩, false⟩

theorem started_tdxState (m : Mapped .tdx blob kernelFile initramfs params) :
    Started m tdxEnv (tdxCode m.shim m.length_shim) (fun _ => 0)
      (tdxState (Memory.load (fun _ => 0) m.pages)) :=
  ⟨assembled_tdxCode _ _, rfl, rfl, initial_tdxSystem, rfl, rfl, rfl, rfl⟩

theorem valid_params : (Sample.params 1 51 []).Valid := by
  refine ⟨?_, ?_, ?_, ?_, ?_, ?_, ?_, nofun, nofun, nofun⟩
  all_goals decide

end Sample

namespace Sample

open ResetCode

/-- Two more processors, at `long_mode`. -/
def tdxGuest (code : Code listing) (mem : Memory) : Guest where
  core i := ⟨fun r => if r = .rsi then BitVec.ofNat 64 i else 0, code.sym .longMode, false, false,
    false, false⟩
  sys _ := entered tdxSystem
  down _ := false
  mem := mem
  td := ⟨[], []⟩
  os := .idle
  begun := []
  commanded := []

theorem coming_tdxGuest (code : Code listing) (mem : Memory) : Coming code [1, 2]
    (tdxGuest code mem) where
  ip _ _ := rfl
  esi i hi := by
    have hcases : i = 1 ∨ i = 2 := by simpa using hi
    rcases hcases with rfl | rfl <;> simp [tdxGuest] <;> decide
  sys _ _ := ⟨mode_entered initial_tdxSystem, paged_entered initial_tdxSystem⟩
  up _ _ := rfl
  ids i hi := by
    have hcases : i = 1 ∨ i = 2 := by simpa using hi
    omega
  idle := rfl
  begun := rfl
  commanded := rfl

end Sample

/-- The boot processor of an SNP guest, with an image in memory. -/
def Sample.snpState (mem : Memory) : Cpu SnpReset.Label :=
  ⟨.snpLongMode, bspStackTop, 0, 0, 0, 0, 0, 0, 0, 0, 0, 0, 0, false, mem, [], [], []⟩

end BootShim.Pipeline
