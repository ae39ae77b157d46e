-- SUMMARY: Rules for running a listing: what one line does where the code is mapped to itself, line by line and through memory.
import BootShim.Lib.Reach
import BootShim.Lib.X86.Machine

/-!
# Rules for listings

`Ready` is all that running a line asks of the state outside the registers. Under it each
kind of line has a rule that says which state it leads to, and `reaches_line` and
`reaches_input` put a line in front of a stretch.
-/

namespace X86

open Bytes Machine

variable {L E X ι : Type} [DecidableEq L] {blocks : List (Block L E)}

/-- Code of a mode can be run: all addresses below `top` are mapped to themselves, and the
    assembled bytes are in memory. -/
structure Ready (env : Env) (code : Code blocks) (mode : Mode) (top : Nat) (o : Outer X) :
    Prop where
  up : o.shutdown = false
  mode : o.sys.mode = mode
  fetches : ∀ a < top, o.sys.linear .cs a 1 = some a
  maps : ∀ a < top, o.translate env a = some ⟨a, true, true, env.cBit.isSome⟩
  holds : o.mem.Holds code.base code.bytes
  below : code.base + code.bytes.length ≤ top

variable {env : Env} {code : Code blocks} {outside : E → ι → State X → Option (State X)}
  {mode : Mode} {top k n la a next : Nat} {instr : Instr L E} {c : Core} {o : Outer X}
  {s s' : State X} {P Q : State X → Prop} {w : Width} {r : Reg} {i : ι}

omit [DecidableEq L] in
theorem lt_of_line (hline : (lines blocks)[k]? = some (mode, instr)) : k < (lines blocks).length :=
  (List.getElem?_eq_some_iff.mp hline).1

/-- 64-bit code is flat. -/
theorem linear_of_code64 {y : System} (h : y.mode = .code64) (x : SegReg) (off n : Nat) :
    y.linear x off n = some off := if_pos h

/-- A step runs the line control is at. -/
theorem Ready.step (h : Ready env code mode top o)
    (hline : (lines blocks)[k]? = some (mode, instr)) (hip : c.ip = code.addr k)
    (hexec : instr.exec env code.sym outside (code.addr (k + 1)) i ⟨c, o⟩ = some s') :
    X86.step env code outside i ⟨c, o⟩ = s' := by
  have hk := lt_of_line hline
  have hwithin := code.within k hk
  have hlt : code.addr k < top := hwithin.2.trans_le h.below
  have hmode : ((lines blocks)[k]?.map Prod.fst) = some o.sys.mode := by
    rw [hline, h.mode, Option.map_some]
  have hfetch : fetch env code ⟨c, o⟩ = .line k := by
    simp only [fetch, hip, h.fetches _ hlt, h.maps _ hlt, not_true, if_false, code.find_addr hk, hmode,
      h.holds, and_self, if_true]
  simp only [X86.step, h.up, hfetch, hline, hexec, Bool.false_eq_true, if_false]

/-- Where there is no line the machine stays as it is. -/
theorem Ready.step_elsewhere (h : Ready env code mode top o) (hlt : c.ip < top)
    (hout : c.ip < code.base ∨ code.base + code.bytes.length ≤ c.ip) :
    X86.step env code outside i ⟨c, o⟩ = ⟨c, o⟩ := by
  have hfetch : fetch env code ⟨c, o⟩ = .elsewhere := by
    simp only [fetch, h.fetches _ hlt, h.maps _ hlt, not_true, if_false, code.find_eq_none hout]
  simp only [X86.step, h.up, hfetch, Bool.false_eq_true, if_false]

/-- Other segments than the code's, and where the descriptors are, are nothing to it. -/
theorem Ready.congr_sys (h : Ready env code mode top o) {y : System}
    (hcs : y.segs .cs = o.sys.segs .cs) (hcr0 : y.cr0 = o.sys.cr0) (hcr3 : y.cr3 = o.sys.cr3)
    (hcr4 : y.cr4 = o.sys.cr4) (hefer : y.efer = o.sys.efer) :
    Ready env code mode top { o with sys := y } := by
  have hmode : y.mode = o.sys.mode := by
    unfold System.mode System.lma
    rw [hcs, hefer]
  refine ⟨h.up, hmode.trans h.mode, fun a ha => ?_, fun a ha => ?_, h.holds, h.below⟩
  · rw [← h.fetches a ha]
    unfold System.linear
    rw [hmode, hcs]
  · rw [← h.maps a ha]
    unfold Outer.translate System.pg System.lma System.la57 System.nxe
    dsimp only
    rw [hcr0, hcr3, hcr4, hefer]

/-! ## Stretches -/

/-- A line that asks whoever answers for the inputs. -/
theorem stretch_input {f : ι → State X} (h : Ready env code mode top o) (hP : P ⟨c, o⟩)
    (hline : (lines blocks)[k]? = some (mode, instr)) (hip : c.ip = code.addr k)
    (hexec : ∀ i, instr.exec env code.sym outside (code.addr (k + 1)) i ⟨c, o⟩ = some (f i))
    (hnext : ∀ i, Reaches (X86.step env code outside) P Q n (f i)) :
    Stretch (X86.step env code outside) P Q n ⟨c, o⟩ := by
  refine ⟨hP, fun i => ?_⟩
  rw [h.step hline hip (hexec i)]
  exact hnext i

theorem reaches_input {f : ι → State X} (h : Ready env code mode top o) (hP : P ⟨c, o⟩)
    (hline : (lines blocks)[k]? = some (mode, instr)) (hip : c.ip = code.addr k)
    (hexec : ∀ i, instr.exec env code.sym outside (code.addr (k + 1)) i ⟨c, o⟩ = some (f i))
    (hnext : ∀ i, Reaches (X86.step env code outside) P Q n (f i)) :
    Reaches (X86.step env code outside) P Q (n + 1) ⟨c, o⟩ :=
  (stretch_input h hP hline hip hexec hnext).reaches

/-- A line that does the same for all inputs. -/
theorem stretch_line (h : Ready env code mode top o) (hP : P ⟨c, o⟩)
    (hline : (lines blocks)[k]? = some (mode, instr)) (hip : c.ip = code.addr k)
    (hexec : ∀ i, instr.exec env code.sym outside (code.addr (k + 1)) i ⟨c, o⟩ = some s')
    (hnext : Reaches (X86.step env code outside) P Q n s') :
    Stretch (X86.step env code outside) P Q n ⟨c, o⟩ :=
  stretch_input h hP hline hip hexec fun _ => hnext

theorem reaches_line (h : Ready env code mode top o) (hP : P ⟨c, o⟩)
    (hline : (lines blocks)[k]? = some (mode, instr)) (hip : c.ip = code.addr k)
    (hexec : ∀ i, instr.exec env code.sym outside (code.addr (k + 1)) i ⟨c, o⟩ = some s')
    (hnext : Reaches (X86.step env code outside) P Q n s') :
    Reaches (X86.step env code outside) P Q (n + 1) ⟨c, o⟩ :=
  (stretch_line h hP hline hip hexec hnext).reaches

/-- A line of registers and flags only. -/
theorem stretch_op {f : Op L} (h : Ready env code mode top o) (hP : P ⟨c, o⟩)
    (hline : (lines blocks)[k]? = some (mode, .op f)) (hip : c.ip = code.addr k)
    (hnext : Reaches (X86.step env code outside) P Q n
      ⟨f.run code.sym (code.addr (k + 1)) c, o⟩) :
    Stretch (X86.step env code outside) P Q n ⟨c, o⟩ :=
  stretch_line h hP hline hip (fun _ => rfl) hnext

theorem reaches_op {f : Op L} (h : Ready env code mode top o) (hP : P ⟨c, o⟩)
    (hline : (lines blocks)[k]? = some (mode, .op f)) (hip : c.ip = code.addr k)
    (hnext : Reaches (X86.step env code outside) P Q n
      ⟨f.run code.sym (code.addr (k + 1)) c, o⟩) :
    Reaches (X86.step env code outside) P Q (n + 1) ⟨c, o⟩ :=
  (stretch_op h hP hline hip hnext).reaches

/-- A branch, by whether it is taken. -/
theorem reaches_jcc {cond : Cond} {l : L} (h : Ready env code mode top o) (hP : P ⟨c, o⟩)
    (hline : (lines blocks)[k]? = some (mode, .op (.jcc cond l))) (hip : c.ip = code.addr k)
    (htaken : cond.holds c = true → Reaches (X86.step env code outside) P Q n
      ⟨c.goto (code.sym l), o⟩)
    (hnot : cond.holds c = false → Reaches (X86.step env code outside) P Q n
      ⟨c.goto (code.addr (k + 1)), o⟩) :
    Reaches (X86.step env code outside) P Q (n + 1) ⟨c, o⟩ := by
  apply reaches_op h hP hline hip
  cases hcond : cond.holds c with
  | true =>
    simp only [Op.run, Op.effect, Op.target, hcond, if_true]
    exact htaken hcond
  | false =>
    simp only [Op.run, Op.effect, Op.target, hcond, Bool.false_eq_true, if_false]
    exact hnot hcond

/-! ## Memory -/

/-- Bytes below the limit are where they say. -/
theorem Ready.mapsTo (h : Ready env code mode top o) (hle : a + n ≤ top) :
    o.Maps env a n a env.cBit.isSome :=
  fun i hi => ⟨true, h.maps (a + i) (by omega)⟩

theorem Ready.load (h : Ready env code mode top o) (hle : a + n ≤ top) :
    o.load env n a = some (o.mem.read n a) := by
  rw [(h.mapsTo hle).load, Outer.view, if_pos rfl]

theorem Ready.store {bs : List UInt8} (h : Ready env code mode top o) (hle : a + bs.length ≤ top) :
    o.store env a bs = some { o with mem := o.mem.store a bs } := by
  rw [(h.mapsTo hle).store, Outer.setView, if_pos rfl, Outer.view, if_pos rfl]

/-- A stack entry goes below the stack pointer, which moves down to it. -/
theorem Ready.push_at {v : BitVec 64} (h : Ready env code mode top o)
    (hw : State.width ⟨c, o⟩ = w)
    (ha : o.sys.linear .ss (c.get w .rsp - BitVec.ofNat 64 w.bytes &&& w.mask).toNat w.bytes =
      some a)
    (hle : a + w.bytes ≤ top) :
    State.push env ⟨c, o⟩ v = some ⟨c.set w .rsp (c.get w .rsp - BitVec.ofNat 64 w.bytes), { o with
      mem := o.mem.store a (toLE w.bytes v.toNat) }⟩ := by
  have hfit : a + (toLE w.bytes v.toNat).length ≤ top := by rwa [length_toLE]
  have hstore := h.store hfit
  simp only [State.push, hw, get_set, ha, hstore, Option.map_some]

theorem Ready.pop_at (h : Ready env code mode top o) (hw : State.width ⟨c, o⟩ = w)
    (ha : o.sys.linear .ss (c.get w .rsp).toNat w.bytes = some a) (hle : a + w.bytes ≤ top) :
    State.pop env ⟨c, o⟩ = some (o.mem.read w.bytes a,
      ⟨c.set w .rsp (c.get w .rsp + BitVec.ofNat 64 w.bytes), o⟩) := by
  simp only [State.pop, hw, ha, h.load hle, Option.map_some]

/-! ### In 64-bit code -/

section

variable (h : Ready env code .code64 top o)

include h

theorem Ready.width : State.width ⟨c, o⟩ = .quad := by
  rw [State.width, h.mode]

theorem Ready.linear (x : Operand) (n : Nat) :
    State.linear ⟨c, o⟩ x n = some (c.regs x.base + BitVec.ofNat 64 x.disp).toNat := by
  rw [State.linear, linear_of_code64 h.mode, h.width, mask_quad]

theorem Ready.exec_load {src : Operand}
    (ha : (c.regs src.base + BitVec.ofNat 64 src.disp).toNat = a) (hle : a + w.bytes ≤ top) :
    (Instr.load w src r : Instr L E).exec env code.sym outside next i ⟨c, o⟩ =
      some ⟨(c.set w r (BitVec.ofNat 64 (o.mem.read w.bytes a))).goto next, o⟩ := by
  simp only [Instr.exec, h.linear, ha, h.load hle, Option.map_some]

theorem Ready.exec_store {src : Src} {dst : Operand}
    (ha : (c.regs dst.base + BitVec.ofNat 64 dst.disp).toNat = a) (hle : a + w.bytes ≤ top) :
    (Instr.store w src dst : Instr L E).exec env code.sym outside next i ⟨c, o⟩ =
      some ⟨c.goto next, { o with
        mem := o.mem.store a (toLE w.bytes (src.value c w).toNat) }⟩ := by
  have hfit : a + (toLE w.bytes (src.value c w).toNat).length ≤ top := by
    rwa [length_toLE]
  have hstore := h.store hfit
  simp only [Instr.exec, h.linear, ha, hstore, Option.map_some]

theorem Ready.exec_jmpMem {src : Operand}
    (ha : (c.regs src.base + BitVec.ofNat 64 src.disp).toNat = a) (hle : a + 8 ≤ top) :
    (Instr.jmpMem src : Instr L E).exec env code.sym outside next i ⟨c, o⟩ =
      some ⟨c.goto (o.mem.read 8 a), o⟩ := by
  have hbytes : (State.width ⟨c, o⟩).bytes = 8 := by
    rw [h.width]
    rfl
  simp only [Instr.exec, h.linear, ha, hbytes, h.load hle, Option.map_some]

/-- A word goes below the stack pointer, which moves down to it. -/
theorem Ready.push {v : BitVec 64} (ha : (c.regs .rsp - 8#64).toNat = a) (hle : a + 8 ≤ top) :
    State.push env ⟨c, o⟩ v = some ⟨c.set .quad .rsp (c.regs .rsp - 8#64), { o with
      mem := o.mem.store a (toLE 8 v.toNat) }⟩ := by
  have hpush := h.push_at (v := v) (a := a) h.width (by
    rw [linear_of_code64 h.mode, mask_quad, get_quad]
    exact congrArg some ha) hle
  rw [get_quad] at hpush
  exact hpush

theorem Ready.exec_call {l : L} (ha : (c.regs .rsp - 8#64).toNat = a) (hle : a + 8 ≤ top)
    (hnext : next < 2 ^ 64) :
    (Instr.call l : Instr L E).exec env code.sym outside next i ⟨c, o⟩ =
      some ⟨(c.set .quad .rsp (c.regs .rsp - 8#64)).goto (code.sym l), { o with
        mem := o.mem.store a (toLE 8 next) }⟩ := by
  have hv : (BitVec.ofNat 64 next).toNat = next := by
    rw [BitVec.toNat_ofNat, Nat.mod_eq_of_lt hnext]
  simp only [Instr.exec, h.push ha hle, Option.map_some, hv]

theorem Ready.exec_ret (ha : (c.regs .rsp).toNat = a) (hle : a + 8 ≤ top) :
    (Instr.ret : Instr L E).exec env code.sym outside next i ⟨c, o⟩ =
      some ⟨(c.set .quad .rsp (c.regs .rsp + 8#64)).goto (o.mem.read 8 a), o⟩ := by
  have hpop := h.pop_at (a := a) h.width (by
    rw [linear_of_code64 h.mode, get_quad]
    exact congrArg some ha) hle
  rw [get_quad] at hpop
  simp only [Instr.exec, hpop, Option.map_some]
  rfl

end

/-! ## System instructions -/

theorem Ready.width_code32 (h : Ready env code .code32 top o) : State.width ⟨c, o⟩ = .long := by
  rw [State.width, h.mode]

section

variable {l l' : L} {o' : Outer X} {y : System} {x : SegReg} {cr : Cr} {selector : Nat}

theorem exec_lgdt {src : Operand} {limit base : Nat} (hmode : o.sys.mode ≠ .code64)
    (hcpl : o.sys.cpl = 0) (hla : State.linear ⟨c, o⟩ src 6 = some la)
    (hlimit : o.load env 2 la = some limit) (hbase : o.load env 4 (la + 2) = some base) :
    (Instr.lgdt src : Instr L E).exec env code.sym outside next i ⟨c, o⟩ =
      some ⟨c.goto next, { o with
        sys := { o.sys with gdtBase := base, gdtLimit := limit } }⟩ := by
  simp only [Instr.exec, hmode, hcpl, if_false, ne_eq, not_true, hla, hlimit, hbase]

theorem exec_movSeg (hx : x ≠ .cs)
    (hload : o.loadData env x ((c.regs r).toNat % 2 ^ 16) = some o') :
    (Instr.movSeg r x : Instr L E).exec env code.sym outside next i ⟨c, o⟩ =
      some ⟨c.goto next, o'⟩ := by
  simp only [Instr.exec, hx, if_false, hload, Option.map_some]

theorem exec_movFromCr (hcpl : o.sys.cpl = 0) (hw : State.width ⟨c, o⟩ = w) :
    (Instr.movFromCr cr r : Instr L E).exec env code.sym outside next i ⟨c, o⟩ =
      some ⟨(c.set w r (o.sys.readCr cr)).goto next, o⟩ := by
  simp only [Instr.exec, hcpl, hw, ne_eq, not_true, if_false]

theorem exec_movToCr (hcpl : o.sys.cpl = 0) (hw : State.width ⟨c, o⟩ = w)
    (hwrite : o.sys.writeCr env (c.get w r) cr = some y) :
    (Instr.movToCr r cr : Instr L E).exec env code.sym outside next i ⟨c, o⟩ =
      some ⟨c.goto next, { o with sys := y }⟩ := by
  simp only [Instr.exec, hcpl, hw, hwrite, ne_eq, not_true, if_false, Option.map_some]

theorem exec_ljmp {base : Nat} (hmode : o.sys.mode ≠ .code64)
    (hload : o.loadCode env selector = some o') :
    (Instr.ljmp selector base l l' : Instr L E).exec env code.sym outside next i ⟨c, o⟩ =
      some ⟨c.goto (base + code.sym l - code.sym l'), o'⟩ := by
  simp only [Instr.exec, hmode, if_false, hload, Option.map_some]

end

/-! ## Flags that stay off -/

/-- Interrupts are off, and string instructions go up. -/
structure Core.Calm (c : Core) : Prop where
  intr : c.intr = false
  df : c.df = false

omit [DecidableEq L] in
theorem Op.calm_run {sym : L → Nat} {f : Op L} (h : c.Calm) : (f.run sym next c).Calm := by
  obtain ⟨hintr, hdf⟩ := h
  cases f <;> exact ⟨by simp [hintr], by simp [hdf]⟩

theorem State.calm_push {v : BitVec 64} (h : s.push env v = some s') (hs : s.core.Calm) :
    s'.core.Calm := by
  unfold State.push at h
  dsimp only at h
  split at h
  · exact absurd h (by simp)
  · obtain ⟨o', -, rfl⟩ := Option.map_eq_some_iff.mp h
    exact ⟨hs.intr, hs.df⟩

theorem State.calm_pop {v : Nat} (h : s.pop env = some (v, s')) (hs : s.core.Calm) :
    s'.core.Calm := by
  unfold State.pop at h
  dsimp only at h
  split at h
  · exact absurd h (by simp)
  · obtain ⟨v', -, heq⟩ := Option.map_eq_some_iff.mp h
    rw [← (Prod.mk.inj heq).2]
    exact ⟨hs.intr, hs.df⟩

omit [DecidableEq L] in
/-- No instruction turns them on, if none from outside does. -/
theorem calm_exec {sym : L → Nat}
    (houtside : ∀ e i s s', outside e i s = some s' → s.core.Calm → s'.core.Calm)
    (h : instr.exec env sym outside next i s = some s') (hs : s.core.Calm) : s'.core.Calm := by
  cases instr with
  | op f =>
    rw [← Option.some.inj h]
    exact Op.calm_run hs
  | load | store | jmpMem =>
    simp only [Instr.exec] at h
    split at h
    · exact absurd h (by simp)
    · obtain ⟨v, -, rfl⟩ := Option.map_eq_some_iff.mp h
      exact ⟨hs.intr, hs.df⟩
  | call l =>
    obtain ⟨s₁, hpush, rfl⟩ := Option.map_eq_some_iff.mp h
    have hs₁ := State.calm_push hpush hs
    exact ⟨hs₁.intr, hs₁.df⟩
  | ret =>
    obtain ⟨⟨v, s₁⟩, hpop, rfl⟩ := Option.map_eq_some_iff.mp h
    have hs₁ := State.calm_pop hpop hs
    exact ⟨hs₁.intr, hs₁.df⟩
  | lgdt src =>
    simp only [Instr.exec] at h
    split at h
    · exact absurd h (by simp)
    split at h
    · exact absurd h (by simp)
    split at h
    · rw [← Option.some.inj h]
      exact ⟨hs.intr, hs.df⟩
    · exact absurd h (by simp)
  | movFromCr =>
    simp only [Instr.exec] at h
    split at h
    · exact absurd h (by simp)
    · rw [← Option.some.inj h]
      exact ⟨hs.intr, hs.df⟩
  | movSeg | movToCr | ljmp =>
    simp only [Instr.exec] at h
    split at h
    · exact absurd h (by simp)
    · obtain ⟨o', -, rfl⟩ := Option.map_eq_some_iff.mp h
      exact ⟨hs.intr, hs.df⟩
  | ext e =>
    obtain ⟨s₁, hs₁, rfl⟩ := Option.map_eq_some_iff.mp h
    have hcalm := houtside e i s s₁ hs₁ hs
    exact ⟨hcalm.intr, hcalm.df⟩

/-- So they stay off along a run. -/
theorem calm_step
    (houtside : ∀ e i s s', outside e i s = some s' → s.core.Calm → s'.core.Calm)
    (i : ι) (s : State X) (h : s.core.Calm) : (X86.step env code outside i s).core.Calm := by
  unfold X86.step
  split
  · exact h
  split
  · exact h
  · exact h
  split
  · exact h
  split
  · exact h
  next hexec => exact calm_exec houtside hexec h

end X86
