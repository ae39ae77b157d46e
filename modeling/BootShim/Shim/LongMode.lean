-- SUMMARY: What the shims run on: the measured descriptors as a processor loads them, and the measured tables as it translates through them.
import BootShim.Boot.Header
import BootShim.Lib.X86.Rules
import BootShim.Shim.PageTables

/-!
# Descriptors and tables

Both shims take the processor from 32-bit protected mode to 64-bit mode over the same
measured GDT and page tables. What they load from the one and reach through the other is
proved here for any listing.
-/

namespace BootShim.Shim

open Boot Bytes Image Layout Machine PageTables Paging X86

/-! ## The measured descriptors -/

/-- Flat 32-bit code. -/
def code32Segment : Segment :=
  { selector := bootCs32, base := 0, limit := 0xffffffff, code := true, rw := true, long := false
    big := true }

/-- 64-bit code. -/
def code64Segment : Segment :=
  { selector := bootCs, base := 0, limit := 0xffffffff, code := true, rw := true, long := true
    big := false }

/-- Flat data. -/
def dataSegment : Segment :=
  { selector := bootDs, base := 0, limit := 0xffffffff, code := false, rw := true, long := false
    big := true }

/-- The descriptors and the pseudo-descriptor behind them. -/
structure Gdt (m : Memory) : Prop where
  code32 : m.word (bspStack + bootCs32) = 0x00cf9b000000ffff
  code64 : m.word (bspStack + bootCs) = 0x00af9b000000ffff
  data : m.word (bspStack + bootDs) = 0x00cf93000000ffff
  limit : m.read 2 gdtPtr = gdtLimit
  base : m.read 4 (gdtPtr + 2) = bspStack

variable {m m' : Memory}

theorem gdt_of_holds (h : m.Holds bspStack gdtStack) : Gdt m := by
  have hlen := length_gdtStack
  have hsize : (zeros bspStackSize).length = bspStackSize := length_zeros _
  simp only [bspStackSize] at hlen hsize
  refine ⟨?_, ?_, ?_, ?_, ?_⟩
  · rw [h.word (by rw [hlen]; decide), gdtStack]
    repeat rw [getLE_putLE_of_disjoint (by decide)]
    rw [getLE_putLE_self (by rw [length_zeros]; decide)]
    rfl
  · rw [h.word (by rw [hlen]; decide), gdtStack]
    repeat rw [getLE_putLE_of_disjoint (by decide)]
    rw [getLE_putLE_self (by rw [length_putLE, length_zeros]; decide)]
    rfl
  · rw [h.word (by rw [hlen]; decide), gdtStack]
    repeat rw [getLE_putLE_of_disjoint (by decide)]
    rw [getLE_putLE_self (by rw [length_putLE, length_putLE, length_zeros]; decide)]
    rfl
  · have hoff : gdtPtr - bspStack + 2 ≤ gdtStack.length := by
      rw [hlen]
      decide
    have hread := h.read hoff
    rw [gdtStack, getLE_putLE_of_disjoint (by decide), getLE_putLE_self (by simp)] at hread
    exact hread
  · have hoff : gdtPtr - bspStack + 2 + 4 ≤ gdtStack.length := by
      rw [hlen]
      decide
    have hread := h.read hoff
    have hslice : slice (write (putLE 2 (putLE 8 (putLE 8 (putLE 8 (zeros bspStackSize)
        bootCs32 0x00cf9b000000ffff) bootCs 0x00af9b000000ffff) bootDs 0x00cf93000000ffff)
          (gdtPtr - bspStack) gdtLimit) (gdtPtr - bspStack + 2) (toLE 8 bspStack))
            (gdtPtr - bspStack + 2 + 0) 4 = slice (toLE 8 bspStack) 0 4 :=
      slice_write_inside (by simp) (by decide)
    rw [gdtStack, getLE, putLE, ← Nat.add_zero (gdtPtr - bspStack + 2), hslice] at hread
    exact hread

/-- They are the first bytes of the stack, which grows down from the other end. -/
theorem Gdt.congr (h : Gdt m) (hm : ∀ a, bspStack ≤ a → a < gdtPtr + 10 → m' a = m a) :
    Gdt m' := by
  have hword : ∀ sel, sel + 8 ≤ gdtLimit + 1 → m'.word (bspStack + sel) = m.word (bspStack + sel) :=
    fun sel hsel => Memory.word_congr fun i hi =>
      hm _ (by omega) (by simp only [gdtPtr, gdtLimit] at *; omega)
  have hread : ∀ off n, off + n ≤ 10 → m'.read n (gdtPtr + off) = m.read n (gdtPtr + off) :=
    fun off n hoff => Memory.read_congr fun i hi =>
      hm _ (by simp only [gdtPtr]; omega) (by omega)
  exact ⟨(hword _ (by decide)).trans h.code32, (hword _ (by decide)).trans h.code64,
    (hword _ (by decide)).trans h.data, (hread 0 2 (by decide)).trans h.limit,
    (hread 2 4 (by decide)).trans h.base⟩

/-! ## Translation -/

/-- Four-level paging with the measured tables, in long mode. -/
structure Paged (y : System) : Prop where
  pg : y.pg = true
  lma : y.lma = true
  la57 : y.la57 = false
  cr3 : y.cr3 = BitVec.ofNat 64 Layout.pageTables

/-- The tables are in memory, for the C-bit there is. -/
structure Tabled (env : Env) (cBit : Nat) (shared : Bool) (m : Memory) : Prop where
  env : env.cBit = cBitAt cBit
  position : cBit = 0 ∧ shared = false ∨ (39 ≤ cBit ∧ cBit ≤ 62) ∧ shared = true
  holds : m.Holds Layout.pageTables (identityMap cBit shared)

variable {env : Env} {cBit a : Nat} {shared : Bool} {X : Type} {o : Outer X}

theorem Tabled.isSome (h : Tabled env cBit shared m) : env.cBit.isSome = shared := by
  rw [h.env]
  rcases h.position with ⟨rfl, rfl⟩ | ⟨hc, rfl⟩
  · rfl
  · rw [cBitAt, if_neg (by omega)]
    rfl

/-- An executable mapping of the tables is one of the processor's. -/
private theorem translate_of_mapped (hy : Paged o.sys) (ht : Tabled env cBit shared o.mem)
    {t : Mapping} (hmapped : mapped o.mem cBit a = some t) (hx : t.executable = true) :
    o.translate env a = some t := by
  have hcr3 : o.sys.cr3.toNat % 2 ^ 52 / 2 ^ 12 * 2 ^ 12 = Layout.pageTables := by
    rw [hy.cr3]
    decide
  rw [mapped, ← ht.env] at hmapped
  simp only [Outer.translate, hy.pg, hy.lma, hy.la57, hcr3, hmapped, if_true, Bool.false_eq_true,
    not_false_eq_true, and_self, Option.filter, hx, Bool.true_or]

/-- Below the map's limit every address is its own, and private. -/
theorem translate_identity (hy : Paged o.sys) (ht : Tabled env cBit shared o.mem)
    (ha : a < mapLimit) : o.translate env a = some ⟨a, true, true, env.cBit.isSome⟩ := by
  have hid := isIdentity_of_position ht.holds (le_refl mapLimit) ht.position
  rw [ht.isSome]
  exact translate_of_mapped hy ht (hid.low a (Or.inl ha)) rfl

/-! ## Readiness -/

section

variable {L E ι : Type} [DecidableEq L] {blocks : List (Block L E)} {code : Code blocks}
  {mode : Mode} {top : Nat}

/-- In 64-bit mode. -/
theorem ready_long (hup : o.shutdown = false) (hmode : o.sys.mode = .code64) (hy : Paged o.sys)
    (ht : Tabled env cBit shared o.mem) (hholds : o.mem.Holds code.base code.bytes)
    (hbelow : code.base + code.bytes.length ≤ mapLimit) : Ready env code .code64 mapLimit o :=
  ⟨hup, hmode, fun a _ => linear_of_code64 hmode .cs a 1,
    fun _ ha => translate_identity hy ht ha, hholds, hbelow⟩

private theorem linear_flat (hmode : o.sys.mode = .code32) {r : SegReg}
    (hbase : (o.sys.segs r).base = 0) (hlimit : (o.sys.segs r).limit = 0xffffffff) {n : Nat}
    (hle : a + n ≤ fourGib) : o.sys.linear r a n = some a := by
  simp only [fourGib, gib] at hle
  rw [System.linear, hmode, hbase, hlimit, if_neg (by decide), if_pos (by omega), Nat.zero_add]

theorem mode_of_code32 {y : System} (hcs : y.segs .cs = code32Segment) : y.mode = .code32 := by
  rw [System.mode, hcs]
  simp [code32Segment]

/-- In 32-bit code, before paging is on or after. -/
theorem ready_flat (hup : o.shutdown = false) (hmode : o.sys.mode = .code32)
    (hbase : (o.sys.segs .cs).base = 0) (hlimit : (o.sys.segs .cs).limit = 0xffffffff)
    (hpaging : o.sys.pg = false ∨ Paged o.sys ∧ Tabled env cBit shared o.mem)
    (hholds : o.mem.Holds code.base code.bytes)
    (hbelow : code.base + code.bytes.length ≤ fourGib) : Ready env code .code32 fourGib o := by
  refine ⟨hup, hmode, fun a ha => linear_flat hmode hbase hlimit ha, fun a ha => ?_, hholds, hbelow⟩
  rcases hpaging with hpg | ⟨hy, ht⟩
  · rw [Outer.translate, if_neg (by rw [hpg]; decide)]
    exact if_pos ha
  · exact translate_identity hy ht (ha.trans_le (by decide))

/-! ## Loading segments -/

/-- The global descriptor table is the measured one, and the code is the kernel's own. -/
structure Described (y : System) : Prop where
  base : y.gdtBase = bspStack
  limit : y.gdtLimit = gdtLimit
  cpl : y.cpl = 0

variable (h : Ready env code mode top o) (htop : gdtPtr ≤ top) (hy : Described o.sys)

include h htop hy

private theorem descriptor_eq {sel d : Nat} (hsel : sel % 8 = 0) (hle : sel ≤ bootDs)
    (hword : o.mem.word (bspStack + sel) = d) :
    o.descriptor env sel = some (bspStack + sel, d) := by
  have hoff : sel / 8 * 8 = sel := by omega
  have hbit : sel.testBit 2 = false := by
    rw [Nat.testBit_eq_decide_div_mod_eq, decide_eq_false_iff_not]
    omega
  have hlimit : ¬ gdtLimit < sel + 7 := by
    simp only [gdtLimit]
    omega
  have hload := h.load (a := bspStack + sel) (n := 8) (by
    simp only [gdtPtr, gdtLimit, bootDs] at *
    omega)
  simp only [Outer.descriptor, hoff, hbit, hy.base, hy.limit, hlimit, Bool.false_eq_true, or_self,
    if_false, hload, Option.map_some]
  rw [← hword]
  rfl

theorem loadData_eq (hgdt : Gdt o.mem) (r : SegReg) :
    o.loadData env r bootDs = some { o with sys := o.sys.setSeg r dataSegment } := by
  have hd := descriptor_eq h htop hy (by decide) le_rfl hgdt.data
  have hdecode : Descriptor.decode bootDs 0x00cf93000000ffff =
      ⟨dataSegment, true, false, true, 0, true⟩ := by decide
  simp only [Outer.loadData, hd, hdecode, Outer.setSeg, hy.cpl]
  simp [dataSegment]

theorem loadCode_code32 (hgdt : Gdt o.mem) :
    o.loadCode env bootCs32 = some { o with sys := o.sys.setSeg .cs code32Segment } := by
  have hd := descriptor_eq h htop hy (by decide) (by decide) hgdt.code32
  have hdecode : Descriptor.decode bootCs32 0x00cf9b000000ffff =
      ⟨code32Segment, true, false, true, 0, true⟩ := by decide
  have hsel : bootCs32 / 4 * 4 + 0 = bootCs32 := by decide
  simp only [Outer.loadCode, hd, hy.cpl, hsel, Outer.setSeg, hdecode]
  simp [code32Segment]

theorem loadCode_code64 (hgdt : Gdt o.mem) :
    o.loadCode env bootCs = some { o with sys := o.sys.setSeg .cs code64Segment } := by
  have hd := descriptor_eq h htop hy (by decide) (by decide) hgdt.code64
  have hdecode : Descriptor.decode bootCs 0x00af9b000000ffff =
      ⟨code64Segment, true, false, true, 0, true⟩ := by decide
  have hsel : bootCs / 4 * 4 + 0 = bootCs := by decide
  simp only [Outer.loadCode, hd, hy.cpl, hsel, Outer.setSeg, hdecode]
  simp [code64Segment]

end

/-! ## What the kernel asks for -/

/-- Both shims load the flat data segment into these, one after another. -/
@[simp] abbrev dataRegs : List SegReg := [.ds, .es, .ss, .fs, .gs]

/-- What the kernel's 64-bit boot protocol asks of the processor and its tables: flat
    segments from descriptors it can reload, an identity map, no interrupts, and RSI at the
    zero page. -/
structure BootProtocol (env : Env) (s : State X) : Prop where
  mode : s.outer.sys.mode = .code64
  cs : s.outer.sys.segs .cs = code64Segment
  data : ∀ x ∈ dataRegs, s.outer.sys.segs x = dataSegment
  described : Described s.outer.sys
  gdt : Gdt s.outer.mem
  identity : ∀ a < mapLimit, s.outer.translate env a = some ⟨a, true, true, env.cBit.isSome⟩
  intr : s.core.intr = false
  rsi : s.core.regs .rsi = BitVec.ofNat 64 Layout.zeroPage

/-! ## Control registers -/

/-- A control register as 32-bit code reads it, with a bit set, and writes it back. -/
def withBit (v : BitVec 64) (n : Nat) : BitVec 64 :=
  (v &&& Width.long.mask ||| BitVec.twoPow 64 n) &&& Width.long.mask

theorem getLsbD_withBit {v : BitVec 64} {n k : Nat} (hk : k < 32) :
    (withBit v n).getLsbD k = (v.getLsbD k || decide (n = k)) := by
  simp only [withBit, BitVec.getLsbD_and, BitVec.getLsbD_or, BitVec.getLsbD_twoPow,
    getLsbD_mask_long, hk, decide_true, Bool.and_true]
  by_cases hn : n = k
  · subst hn
    simp
    omega
  · simp [hn]

/-- Bits that were set in the lower half still are. -/
theorem withBit_and {v f : BitVec 64} {n : Nat} (h : v &&& Width.long.mask &&& f = f) :
    withBit v n &&& f = f := by
  apply BitVec.eq_of_getLsbD_eq
  intro k _
  have hbit := congrArg (fun x => x.getLsbD k) h
  simp only [withBit, BitVec.getLsbD_and, BitVec.getLsbD_or] at hbit ⊢
  cases hf : f.getLsbD k with
  | false => rw [Bool.and_false]
  | true =>
    rw [hf, Bool.and_true, Bool.and_eq_true] at hbit
    rw [hbit.1, hbit.2]
    rfl

/-! ## The data segments -/

/-- With flat data in some segment registers. -/
def withData (y : System) (xs : List SegReg) : System :=
  xs.foldl (fun y x => y.setSeg x dataSegment) y

theorem withData_eq (y : System) (xs : List SegReg) : withData y xs =
    { y with segs := fun x => if x ∈ xs then dataSegment else y.segs x } := by
  induction xs generalizing y with
  | nil => simp [withData]
  | cons x xs ih =>
    rw [withData, List.foldl_cons, ← withData, ih]
    simp only [System.setSeg]
    congr 1
    funext z
    by_cases hz : z = x <;> by_cases hx : z ∈ xs <;> simp [hz, hx]

section

variable {L E ι : Type} [DecidableEq L] {blocks : List (Block L E)} {code : Code blocks}
  {outside : E → ι → State X → Option (State X)} {mode : Mode} {top k n : Nat} {core : Core}
  {P Q : State X → Prop}

theorem reaches_withData {xs : List SegReg} (hxs : ∀ x ∈ xs, x ≠ .cs)
    (hsits : Sits blocks mode k (xs.map (.movSeg .rax))) (h : Ready env code mode top o)
    (htop : gdtPtr ≤ top) (hP : ∀ core y, P ⟨core, { o with sys := y }⟩) (hgdt : Gdt o.mem)
    (hy : Described o.sys) (hrax : (core.regs .rax).toNat % 2 ^ 16 = bootDs)
    (hip : core.ip = code.addr k)
    (hnext : Reaches (X86.step env code outside) P Q n
      ⟨core.goto (code.addr (k + xs.length)), { o with sys := withData o.sys xs }⟩) :
    Reaches (X86.step env code outside) P Q (n + xs.length) ⟨core, o⟩ := by
  induction xs generalizing o core k with
  | nil =>
    have hcore : core.goto (code.addr (k + 0)) = core := by
      rw [Nat.add_zero, ← hip]
      rfl
    rw [List.length_nil, hcore] at hnext
    exact hnext
  | cons x xs ih =>
    obtain ⟨hx, hxs⟩ := List.forall_mem_cons.mp hxs
    have hcs : (o.sys.setSeg x dataSegment).segs .cs = o.sys.segs .cs := if_neg (Ne.symm hx)
    have hready := h.congr_sys hcs rfl rfl rfl rfl
    have hy' : Described (o.sys.setSeg x dataSegment) := by
      refine ⟨hy.base, hy.limit, ?_⟩
      rw [System.cpl, hcs]
      exact hy.cpl
    refine reaches_line h (hP core o.sys) (hsits.line (i := 0) rfl) hip
      (fun _ => exec_movSeg hx (by rw [hrax]; exact loadData_eq h htop hy hgdt x)) ?_
    refine ih hxs hsits.tail hready hP hgdt hy' hrax rfl ?_
    rw [List.length_cons, Nat.add_comm xs.length, ← Nat.add_assoc] at hnext
    exact hnext

end

end BootShim.Shim
