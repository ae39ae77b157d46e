-- SUMMARY: The TDX application processors' instructions, interleaved with each other and with the operating system's stores, refine the mailbox protocol (`ap_wait` in `src/reset.S`).
import BootShim.Shim.LongMode
import BootShim.Shim.Mailbox
import BootShim.Shim.ResetRuns

/-!
# The TDX application processors

All processors run the same page over one memory. A turn is one instruction of one of
them, or one store of the operating system or of the boot processor before it. Of the
loop's instructions the loads and the store are steps of the protocol; what is between
them only moves control.
-/

namespace BootShim.ResetCode

open Bytes Image Layout Machine Mailbox PageTables PageWalk Shim X86

variable {env : Env} {code : Code listing} {pg : List UInt8} {ids : List Nat} {i k : Nat}
  {core core' : Core} {o : Outer Td} {m m' : Memory} {ap : Ap} {s : Mailbox.State}

/-! ## Processors over one memory -/

structure Guest where
  core : Nat → Core
  sys : Nat → System
  down : Nat → Bool
  mem : Memory
  td : Td
  /-- Where the operating system is in its wakes, and what it has done of them. -/
  os : Mailbox.Os
  begun : List Nat
  commanded : List Mailbox.Wake

namespace Guest

/-- One processor, with what it shares. -/
def cpu (g : Guest) (i : Nat) : X86.State Td :=
  ⟨g.core i, ⟨g.sys i, g.mem, g.mem, g.td, g.down i⟩⟩

def setCpu (g : Guest) (i : Nat) (s : X86.State Td) : Guest :=
  { g with
    core := Function.update g.core i s.core
    sys := Function.update g.sys i s.outer.sys
    down := Function.update g.down i s.outer.shutdown
    mem := s.outer.mem
    td := s.outer.ext }

end Guest

/-- Who is next. -/
inductive Turn where
  | cpu (index : Nat) (answer : Answer)
  /-- The operating system begins a wake. -/
  | wake (wake : Mailbox.Wake)
  /-- It goes on with one. -/
  | os
  /-- It, or the boot processor's shim, writes somewhere else. -/
  | store (a : Nat) (bytes : List UInt8)

/-- Bytes that are not the mailbox's, the shim's or the tables'. -/
def Elsewhere (a n : Nat) : Prop :=
  (a + n ≤ mailbox ∨ mailbox + 16 ≤ a) ∧ (a + n ≤ resetAlias ∨ resetAlias + page ≤ a) ∧
    (a + n ≤ Layout.pageTables ∨ Layout.pageTables + (identityMap 0 false).length ≤ a)

instance (a n : Nat) : Decidable (Elsewhere a n) := inferInstanceAs (Decidable (_ ∧ _))

/-- One instruction of one of the processors `ids`, or one store. The operating system
    wakes them as the protocol asks for, to vectors below the shim's page. -/
def turn (env : Env) (code : Code listing) (ids : List Nat) (t : Turn) (g : Guest) : Guest :=
  match t with
  | .cpu index answer =>
    if index ∈ ids then g.setCpu index (X86.step env code outside answer (g.cpu index)) else g
  | .wake w =>
    if g.os = .idle ∧ w.target ∈ ids ∧ w.target ∉ g.begun ∧ w.vector ≠ 0 ∧
        w.vector < resetAlias then
      { g with
        mem := g.mem.store (mailbox + 4) (toLE 4 w.target)
        os := .writeVector w
        begun := w.target :: g.begun }
    else g
  | .os =>
    match g.os with
    | .idle => g
    | .writeVector w =>
      { g with mem := g.mem.store (mailbox + 8) (toLE 8 w.vector), os := .writeCommand w }
    | .writeCommand w =>
      { g with
        mem := g.mem.store mailbox (toLE 4 1), os := .waiting w, commanded := w :: g.commanded }
    | .waiting _ => if g.mem.read 4 mailbox = 0 then { g with os := .idle } else g
  | .store a bytes =>
    if Elsewhere a bytes.length then { g with mem := g.mem.store a bytes } else g

/-! ## Where a processor stands -/

/-- Where the protocol has a processor that is `k` lines behind `ap_poll`. -/
def apAt (index k : Nat) (core : Core) : Ap :=
  match k with
  | 2 => if (core.regs .rax).toNat % 2 ^ 32 = 1 then .checkId else .poll
  | 3 => if core.zf then .checkId else .poll
  | 4 => .checkId
  | 5 => if (core.regs .rax).toNat % 2 ^ 32 = index then .loadVector else .poll
  | 6 => if core.zf then .loadVector else .poll
  | 7 => .loadVector
  | 8 => if (core.regs .rax).toNat = 0 then .poll else .acknowledge (core.regs .rax).toNat
  | 9 => if core.zf then .poll else .acknowledge (core.regs .rax).toNat
  | 10 => .acknowledge (core.regs .rax).toNat
  | 11 => .left (core.regs .rax).toNat
  | _ => .poll

/-- A processor on its way into the loop, in it, or gone. -/
inductive Stands (code : Code listing) (index : Nat) (core : Core) : Ap → Prop where
  | comes : core.ip = code.sym .longMode → Stands code index core .poll
  | branches : core.ip = code.addr (lineOf .longMode listing + 1) → core.zf = false →
      Stands code index core .poll
  | enters : core.ip = code.sym .apWait → Stands code index core .poll
  | waits (k : Nat) : k < 12 → core.ip = code.addr (lineOf .apPoll listing + k) →
      core.regs .rbx = BitVec.ofNat 64 mailbox → Stands code index core (apAt index k core)
  | gone (v : Nat) : core.ip = v → v < resetAlias → Stands code index core (.left v)

theorem Stands.behind (k : Nat) (hk : k < 12)
    (hip : core.ip = code.addr (lineOf .apPoll listing + k))
    (hrbx : core.regs .rbx = BitVec.ofNat 64 mailbox) (hap : apAt i k core = ap) :
    Stands code i core ap := hap ▸ Stands.waits k hk hip hrbx

/-- The mailbox in memory is the protocol's. -/
structure Shows (m : Memory) (s : Mailbox.State) : Prop where
  command : s.command = m.read 4 mailbox
  apicId : s.apicId = m.read 4 (mailbox + 4)
  vector : s.vector = m.read 8 (mailbox + 8)

/-- No processor is sent into the shim's page. -/
structure Below (s : Mailbox.State) : Prop where
  vector : s.vector < resetAlias
  os : ∀ w, s.os = .writeVector w ∨ s.os = .writeCommand w → w.vector < resetAlias
  ap : ∀ i v, s.aps i = .acknowledge v ∨ s.aps i = .left v → v < resetAlias

/-- What one instruction of a processor is to the protocol. -/
inductive Moves (code : Code listing) (index : Nat) (s : Mailbox.State) (core : Core) (m : Memory)
    (core' : Core) : Memory → Prop where
  | control : Stands code index core' (s.aps index) → Moves code index s core m core' m
  | load (ap : Ap) :
      (s.aps index = .checkId → core.ip = code.addr (lineOf .apPoll listing + 4)) →
      stepAp index s = s.setAp index ap → Stands code index core' ap →
      Moves code index s core m core' m
  | acknowledge (v : Nat) : s.aps index = .acknowledge v → Stands code index core' (.left v) →
      Moves code index s core m core' (m.store mailbox (toLE 4 0))

/-! ## One instruction -/

/-- A 32-bit number in RAX, compared with another. -/
private theorem cmp_rax {v : Nat} {x : BitVec 64} (hx : x.toNat = v) :
    (core.regs .rax &&& Width.long.mask == x) = decide ((core.regs .rax).toNat % 2 ^ 32 = v) := by
  rw [beq_toNat, toNat_mask_long, hx]

/-- A 32-bit number as it is loaded into RAX. -/
private theorem load_rax (m : Memory) (a : Nat) :
    ((core.set .long .rax (BitVec.ofNat 64 (m.read 4 a))).regs .rax).toNat % 2 ^ 32 = m.read 4 a := by
  have hlt : m.read 4 a < 2 ^ 32 := m.read_lt 4 a
  rw [Core.regs_set_self, kept_long, BitVec.zero_or, toNat_mask_long, BitVec.toNat_ofNat]
  omega

section

variable (hready : Ready env code .code64 mapLimit o) (answer : Answer)

include hready

/-- A line of the loop that only moves control. -/
private theorem moves_op {l : Nat} {f : X86.Op Symbol} {core'' : Core}
    (hline : (lines listing)[l]? = some (.code64, .op f)) (hip : core.ip = code.addr l)
    (hrun : f.run code.sym (code.addr (l + 1)) core = core'')
    (hrsi : core''.regs .rsi = core.regs .rsi) (hstands : Stands code i core'' (s.aps i)) :
    ∃ core' m', X86.step env code outside answer ⟨core, o⟩ = ⟨core', { o with mem := m' }⟩ ∧
      core'.regs .rsi = core.regs .rsi ∧ Moves code i s core o.mem core' m' := by
  refine ⟨core'', o.mem, ?_, hrsi, .control hstands⟩
  rw [hready.step hline hip rfl, hrun]

/-- A load from the mailbox. -/
private theorem moves_load (a : Nat) (ap : Ap) {l disp : Nat} {w : Width}
    (hline : (lines listing)[l]? = some (.code64, .load w ⟨disp, .rbx⟩ .rax))
    (hip : core.ip = code.addr l) (hrbx : core.regs .rbx = BitVec.ofNat 64 mailbox)
    (ha : (BitVec.ofNat 64 mailbox + BitVec.ofNat 64 disp).toNat = a) (hle : a + 8 ≤ mapLimit)
    (hid : s.aps i = .checkId → core.ip = code.addr (lineOf .apPoll listing + 4))
    (hstep : stepAp i s = s.setAp i ap)
    (hstands : Stands code i
      ((core.set w .rax (BitVec.ofNat 64 (o.mem.read w.bytes a))).goto (code.addr (l + 1))) ap) :
    ∃ core' m', X86.step env code outside answer ⟨core, o⟩ = ⟨core', { o with mem := m' }⟩ ∧
      core'.regs .rsi = core.regs .rsi ∧ Moves code i s core o.mem core' m' := by
  have hbytes : w.bytes ≤ 8 := by
    cases w <;> decide
  refine ⟨_, o.mem, ?_, ?_, .load ap hid hstep hstands⟩
  · exact hready.step hline hip (hready.exec_load (by rw [hrbx]; exact ha) (by omega))
  · simp

/-- A branch back to `ap_poll`, or not. -/
private theorem moves_jcc {j : Nat} {cond : Cond}
    (hline : (lines listing)[lineOf .apPoll listing + j]? =
      some (.code64, .op (.jcc cond .apPoll)))
    (hj : j + 1 < 12) (hip : core.ip = code.addr (lineOf .apPoll listing + j))
    (hrbx : core.regs .rbx = BitVec.ofNat 64 mailbox)
    (hback : cond.holds core = true → s.aps i = .poll)
    (hon : cond.holds core = false → s.aps i = apAt i (j + 1) core) :
    ∃ core' m', X86.step env code outside answer ⟨core, o⟩ = ⟨core', { o with mem := m' }⟩ ∧
      core'.regs .rsi = core.regs .rsi ∧ Moves code i s core o.mem core' m' := by
  cases hcond : cond.holds core with
  | true =>
    have hrun : Op.run code.sym (code.addr (lineOf .apPoll listing + j + 1)) core
        (.jcc cond .apPoll) = core.goto (code.sym .apPoll) := by
      simp only [Op.run, Op.effect, Op.target, hcond, if_true]
    refine moves_op hready answer hline hip hrun rfl ?_
    rw [hback hcond]
    exact Stands.waits 0 (by decide) (sym_eq code (by decide)) hrbx
  | false =>
    have hrun : Op.run code.sym (code.addr (lineOf .apPoll listing + j + 1)) core
        (.jcc cond .apPoll) = core.goto (code.addr (lineOf .apPoll listing + j + 1)) := by
      simp only [Op.run, Op.effect, Op.target, hcond, Bool.false_eq_true, if_false]
    refine moves_op hready answer hline hip hrun rfl ?_
    rw [hon hcond]
    exact Stands.behind (j + 1) hj rfl hrbx rfl

/-- The loop, line by line. -/
private theorem moves_loop (hesi : (core.regs .rsi &&& Width.long.mask).toNat = i)
    (hshows : Shows o.mem s) (hbelow : Below s) (hk : k < 12)
    (hip : core.ip = code.addr (lineOf .apPoll listing + k))
    (hrbx : core.regs .rbx = BitVec.ofNat 64 mailbox) (hap : s.aps i = apAt i k core) :
    ∃ core' m', X86.step env code outside answer ⟨core, o⟩ = ⟨core', { o with mem := m' }⟩ ∧
      core'.regs .rsi = core.regs .rsi ∧ Moves code i s core o.mem core' m' := by
  match k, hk with
  | 0, _ =>
    refine moves_op hready answer rfl hip rfl rfl ?_
    rw [hap]
    exact Stands.waits 1 (by decide) rfl hrbx
  | 1, _ =>
    refine moves_load hready answer mailbox (if s.command = 1 then .checkId else .poll) rfl hip
      hrbx (by decide) (by decide) (by simp [hap, apAt]) ?_ ?_
    · simp only [stepAp, hap, apAt]
    · refine Stands.behind 2 (by decide) rfl hrbx ?_
      simp only [apAt, Core.regs_goto, Width.bytes, load_rax, hshows.command]
  | 2, _ =>
    refine moves_op hready answer rfl hip rfl rfl ?_
    have hzf : (core.regs .rax &&& Width.long.mask == 1#64 &&& Width.long.mask) =
        decide ((core.regs .rax).toNat % 2 ^ 32 = 1) := cmp_rax rfl
    rw [hap]
    refine Stands.behind 3 (by decide) rfl hrbx ?_
    simp only [apAt, Op.run, Op.effect, Core.zf_goto, Core.get, Src.value, hzf, decide_eq_true_eq]
  | 3, _ =>
    refine moves_jcc hready answer rfl (by decide) hip hrbx (fun hnz => ?_) fun hz => ?_
    · have hzf : core.zf = false := by simpa using hnz
      simp only [hap, apAt, hzf, Bool.false_eq_true, if_false]
    · have hzf : core.zf = true := by simpa using hz
      simp only [hap, apAt, hzf, if_true]
  | 4, _ =>
    refine moves_load hready answer (mailbox + 4)
      (if s.apicId = i then .loadVector else .poll) rfl hip hrbx (by decide) (by decide)
      (fun _ => hip) ?_ ?_
    · simp only [stepAp, hap, apAt]
    · refine Stands.behind 5 (by decide) rfl hrbx ?_
      simp only [apAt, Core.regs_goto, Width.bytes, load_rax, hshows.apicId]
  | 5, _ =>
    refine moves_op hready answer rfl hip rfl rfl ?_
    have hzf : (core.regs .rax &&& Width.long.mask == core.regs .rsi &&& Width.long.mask) =
        decide ((core.regs .rax).toNat % 2 ^ 32 = i) := cmp_rax hesi
    rw [hap]
    refine Stands.behind 6 (by decide) rfl hrbx ?_
    simp only [apAt, Op.run, Op.effect, Core.zf_goto, Core.get, Src.value, hzf, decide_eq_true_eq]
  | 6, _ =>
    refine moves_jcc hready answer rfl (by decide) hip hrbx (fun hnz => ?_) fun hz => ?_
    · have hzf : core.zf = false := by simpa using hnz
      simp only [hap, apAt, hzf, Bool.false_eq_true, if_false]
    · have hzf : core.zf = true := by simpa using hz
      simp only [hap, apAt, hzf, if_true]
  | 7, _ =>
    refine moves_load hready answer (mailbox + 8)
      (if s.vector = 0 then .poll else .acknowledge s.vector) rfl hip hrbx (by decide) (by decide)
      (by simp [hap, apAt]) ?_ ?_
    · simp only [stepAp, hap, apAt]
    · have hlt : o.mem.read 8 (mailbox + 8) < 2 ^ 64 := o.mem.read_lt 8 _
      have hrax : (BitVec.ofNat 64 (o.mem.read 8 (mailbox + 8))).toNat = s.vector := by
        rw [BitVec.toNat_ofNat, Nat.mod_eq_of_lt hlt, hshows.vector]
      refine Stands.behind 8 (by decide) rfl hrbx ?_
      simp only [apAt, Core.regs_goto, Width.bytes, regs_set_quad, hrax]
  | 8, _ =>
    refine moves_op hready answer rfl hip rfl rfl ?_
    have hzf : (core.regs .rax &&& core.regs .rax == 0) =
        decide ((core.regs .rax).toNat = 0) := by
      rw [BitVec.and_self, beq_toNat]
      rfl
    rw [hap]
    refine Stands.behind 9 (by decide) rfl hrbx ?_
    simp only [apAt, Op.run, Op.effect, Core.zf_goto, Core.regs_goto, get_quad, Src.value, hzf,
      decide_eq_true_eq]
  | 9, _ =>
    refine moves_jcc hready answer rfl (by decide) hip hrbx (fun hz => ?_) fun hnz => ?_
    · have hzf : core.zf = true := by simpa using hz
      simp only [hap, apAt, hzf, if_true]
    · have hzf : core.zf = false := by simpa using hnz
      simp only [hap, apAt, hzf, Bool.false_eq_true, if_false]
  | 10, _ =>
    refine ⟨core.goto (code.addr (lineOf .apPoll listing + 11)), _, ?_, rfl,
      .acknowledge _ hap (Stands.waits 11 (by decide) rfl hrbx)⟩
    exact hready.step rfl hip (hready.exec_store (by rw [hrbx]; rfl) (by decide))
  | 11, _ =>
    refine moves_op hready answer rfl hip rfl rfl ?_
    rw [hap]
    exact Stands.gone _ rfl (hbelow.ap i _ (Or.inr hap))

theorem moves_step (ha : Assembled code pg) (hi : i ≠ 0)
    (hlt : i < 2 ^ 32) (hrsi : core.regs .rsi &&& Width.long.mask = BitVec.ofNat 64 i)
    (hstands : Stands code i core (s.aps i)) (hshows : Shows o.mem s) (hbelow : Below s) :
    ∃ core' m', X86.step env code outside answer ⟨core, o⟩ = ⟨core', { o with mem := m' }⟩ ∧
      core'.regs .rsi = core.regs .rsi ∧ Moves code i s core o.mem core' m' := by
  have hesi : (core.regs .rsi &&& Width.long.mask).toNat = i := by
    rw [hrsi, BitVec.toNat_ofNat, Nat.mod_eq_of_lt (hlt.trans (by decide))]
  generalize hap : s.aps i = ap at hstands
  cases hstands with
  | comes hip =>
    refine moves_op hready answer rfl (hip.trans (sym_eq code (by decide))) rfl rfl ?_
    rw [hap]
    apply Stands.branches
    · rfl
    · have hne : (core.regs .rsi &&& Width.long.mask == 0#64) = false := by
        rw [beq_toNat, hesi]
        simpa using hi
      simpa [Core.get] using hne
  | branches hip hzf =>
    have hrun : Op.run code.sym (code.addr (lineOf .longMode listing + 2)) core
        (.jcc .nz .apWait) = core.goto (code.sym .apWait) := by
      simp [Op.target, hzf]
    refine moves_op hready answer rfl hip hrun rfl ?_
    rw [hap]
    exact Stands.enters rfl
  | enters hip =>
    refine moves_op hready answer rfl (hip.trans (sym_eq code (by decide))) rfl rfl ?_
    rw [hap]
    refine Stands.waits 0 (by decide) rfl ?_
    simp
  | waits k hk hip hrbx => exact moves_loop hready answer hesi hshows hbelow hk hip hrbx hap
  | gone v hip hv =>
    refine ⟨core, o.mem, ?_, rfl, .control ?_⟩
    · apply hready.step_elsewhere
      · rw [hip]
        exact hv.trans (by decide)
      · left
        rw [hip, ha.base]
        exact hv
    · rw [hap]
      exact Stands.gone v hip hv

end

/-! ## The protocol, one move -/

theorem aps_stepAp_of_ne {j : Nat} (h : j ≠ i) : (stepAp i s).aps j = s.aps j := by
  unfold stepAp
  split <;> first | exact setAp_of_ne h _ | rfl

theorem os_stepAp : (stepAp i s).os = s.os := by
  unfold stepAp
  split <;> rfl

theorem begun_stepAp : (stepAp i s).begun = s.begun := by
  unfold stepAp
  split <;> rfl

theorem commanded_stepAp : (stepAp i s).commanded = s.commanded := by
  unfold stepAp
  split <;> rfl

theorem Below.stepAp (h : Below s) : Below (stepAp i s) := by
  have hvector : (Mailbox.stepAp i s).vector = s.vector := by
    unfold Mailbox.stepAp
    split <;> rfl
  refine ⟨hvector ▸ h.vector, fun w hw => h.os w (os_stepAp ▸ hw), fun j v hj => ?_⟩
  by_cases hji : j = i
  · subst hji
    cases hap : s.aps j with
    | poll | checkId =>
      simp only [Mailbox.stepAp, hap, setAp_self] at hj
      split_ifs at hj <;> simp at hj
    | loadVector =>
      simp only [Mailbox.stepAp, hap, setAp_self] at hj
      split_ifs at hj
      · simp at hj
      · have hv : s.vector = v := by simpa using hj
        exact hv ▸ h.vector
    | acknowledge u =>
      have hv : u = v := by simpa [Mailbox.stepAp, hap] using hj
      exact h.ap j v (Or.inl (hv ▸ hap))
    | left u =>
      have hv : u = v := by simpa [Mailbox.stepAp, hap] using hj
      exact h.ap j v (Or.inr (hv ▸ hap))
  · rw [aps_stepAp_of_ne hji] at hj
    exact h.ap j v hj

/-! ## The refinement -/

/-- The guest's processors and its mailbox are the protocol's. -/
structure Agrees (env : Env) (code : Code listing) (pg : List UInt8) (ids : List Nat) (td : Td)
    (g : Guest) (s : Mailbox.State) : Prop where
  stands : ∀ i ∈ ids, Stands code i (g.core i) (s.aps i)
  esi : ∀ i ∈ ids, (g.core i).regs .rsi &&& Width.long.mask = BitVec.ofNat 64 i
  sys : ∀ i ∈ ids, (g.sys i).mode = .code64 ∧ Paged (g.sys i)
  up : ∀ i ∈ ids, g.down i = false
  td : g.td = td
  shim : g.mem.Holds resetAlias pg
  tables : Tabled env 0 false g.mem
  shows : Shows g.mem s
  os : s.os = g.os
  begun : s.begun = g.begun
  commanded : s.commanded = g.commanded
  below : Below s

/-- What the loop does not check for itself: a processor that is to load the APIC ID does
    not find its own there but under a command. -/
def Commanded (code : Code listing) (ids : List Nat) : Turn → Guest → Prop
  | .cpu i _, g => i ∈ ids → (g.core i).ip = code.addr (lineOf .apPoll listing + 4) →
      g.mem.read 4 (mailbox + 4) = i → g.mem.read 4 mailbox = 1
  | _, _ => True

section

variable {td : Td} {g : Guest} (ha : Assembled code pg) (hlen : pg.length = page)
  (hids : ∀ i ∈ ids, i ≠ 0 ∧ i < 2 ^ 32)

theorem Agrees.ready (h : Agrees env code pg ids td g s) (ha : Assembled code pg)
    (hlen : pg.length = page) (hi : i ∈ ids) :
    Ready env code .code64 mapLimit (g.cpu i).outer := by
  obtain ⟨hmode, hpaged⟩ := h.sys i hi
  refine ready_long (h.up i hi) hmode hpaged h.tables ?_ ?_
  · rw [ha.base, ha.bytes]
    exact h.shim
  · rw [ha.base, ha.bytes, hlen]
    decide

/-- A store elsewhere leaves the shim and its tables as they are. -/
theorem Agrees.kept (h : Agrees env code pg ids td g s) (a : Nat) (bs : List UInt8)
    (hlen : pg.length = page) (hshim : a + bs.length ≤ resetAlias ∨ resetAlias + page ≤ a)
    (htables : a + bs.length ≤ Layout.pageTables ∨
      Layout.pageTables + (identityMap 0 false).length ≤ a) :
    (g.mem.store a bs).Holds resetAlias pg ∧ Tabled env 0 false (g.mem.store a bs) := by
  refine ⟨h.shim.store_of_disjoint (by rw [hlen]; exact hshim), h.tables.env, h.tables.position, ?_⟩
  exact h.tables.holds.store_of_disjoint htables

/-- One processor has moved, and maybe the mailbox with it. -/
theorem Agrees.setCpu {s' : Mailbox.State} (h : Agrees env code pg ids td g s)
    (hrsi : core'.regs .rsi = (g.core i).regs .rsi) (hstands : Stands code i core' (s'.aps i))
    (hothers : ∀ j, j ≠ i → s'.aps j = s.aps j) (hos : s'.os = s.os) (hbegun : s'.begun = s.begun)
    (hcommanded : s'.commanded = s.commanded) (hshows : Shows m' s') (hbelow : Below s')
    (hshim : m'.Holds resetAlias pg) (htables : Tabled env 0 false m') :
    Agrees env code pg ids td (g.setCpu i ⟨core', { (g.cpu i).outer with mem := m' }⟩) s' := by
  refine ⟨fun j hj => ?_, fun j hj => ?_, fun j hj => ?_, fun j hj => ?_, h.td, hshim, htables, hshows,
    hos.trans h.os, hbegun.trans h.begun, hcommanded.trans h.commanded, hbelow⟩
  · by_cases hji : j = i
    · subst hji
      simp only [Guest.setCpu, Function.update_self]
      exact hstands
    · simp only [Guest.setCpu, Function.update_of_ne hji, hothers j hji]
      exact h.stands j hj
  all_goals
    by_cases hji : j = i
    · subst hji
      simp only [Guest.setCpu, Guest.cpu, Function.update_self, hrsi]
      first | exact h.esi j hj | exact h.sys j hj | exact h.up j hj
    · simp only [Guest.setCpu, Guest.cpu, Function.update_of_ne hji]
      first | exact h.esi j hj | exact h.sys j hj | exact h.up j hj

include ha hlen hids

/-- An instruction of a processor is a load or the store of the protocol, or nothing to it. -/
private theorem refines_cpu (h : Agrees env code pg ids td g s) (hi : i ∈ ids) (answer : Answer)
    (hlive : Commanded code ids (.cpu i answer) g) :
    Agrees env code pg ids td (turn env code ids (.cpu i answer) g) s ∨
      Mailbox.Live (.ap i) s ∧
        Agrees env code pg ids td (turn env code ids (.cpu i answer) g) (stepAp i s) := by
  obtain ⟨core', m', hstep, hrsi, hmoves⟩ := moves_step (h.ready ha hlen hi) answer ha (hids i hi).1
    (hids i hi).2 (h.esi i hi) (h.stands i hi) h.shows h.below
  have hturn : turn env code ids (.cpu i answer) g =
      g.setCpu i ⟨core', { (g.cpu i).outer with mem := m' }⟩ := by
    unfold turn
    dsimp only
    rw [if_pos hi]
    exact congrArg (g.setCpu i) hstep
  rw [hturn]
  cases hmoves with
  | control hstands =>
    left
    exact h.setCpu hrsi hstands (fun _ _ => rfl) rfl rfl rfl h.shows h.below h.shim h.tables
  | load ap hid hmove hstands =>
    right
    refine ⟨fun hcheck hown => ?_, ?_⟩
    · rw [h.shows.command]
      exact hlive hi (hid hcheck) (h.shows.apicId ▸ hown)
    · refine h.setCpu hrsi ?_ (fun j hj => aps_stepAp_of_ne hj) os_stepAp begun_stepAp
        commanded_stepAp ?_ h.below.stepAp h.shim h.tables
      · rw [hmove, setAp_self]
        exact hstands
      · rw [hmove]
        exact ⟨h.shows.command, h.shows.apicId, h.shows.vector⟩
  | acknowledge v hap hstands =>
    right
    obtain ⟨hshim, htables⟩ := h.kept mailbox (toLE 4 0) hlen
      (Or.inl (by decide)) (Or.inl (by decide))
    refine ⟨fun hcheck => absurd hcheck (by rw [hap]; simp), ?_⟩
    refine h.setCpu hrsi ?_ (fun j hj => aps_stepAp_of_ne hj) os_stepAp begun_stepAp
      commanded_stepAp ?_ h.below.stepAp hshim htables
    · simp only [stepAp, hap, setAp_self]
      exact hstands
    · simp only [stepAp, hap]
      exact ⟨(Memory.read_store_self _ 4 _ 0).symm,
        h.shows.apicId.trans (Memory.read_store_of_disjoint (Or.inl (by decide))).symm,
        h.shows.vector.trans (Memory.read_store_of_disjoint (Or.inl (by decide))).symm⟩

omit ha in
/-- So is what the operating system does. -/
private theorem refines_wake (h : Agrees env code pg ids td g s) (w : Mailbox.Wake) :
    Agrees env code pg ids td (turn env code ids (.wake w) g) s ∨
      Agrees env code pg ids td (turn env code ids (.wake w) g) (Mailbox.step ids (.wake w) s) := by
  unfold turn
  dsimp only
  split
  · next hwake =>
    right
    obtain ⟨hidle, htarget, hfresh, hvector, hbelow⟩ := hwake
    obtain ⟨hshim, htables⟩ := h.kept (mailbox + 4) (toLE 4 w.target) hlen
      (Or.inl (by rw [length_toLE]; decide)) (Or.inl (by rw [length_toLE]; decide))
    have hlt : w.target % 256 ^ 4 = w.target := Nat.mod_eq_of_lt (hids _ htarget).2
    have hmove : Mailbox.step ids (.wake w) s =
        { s with apicId := w.target, os := .writeVector w, begun := w.target :: s.begun } :=
      if_pos ⟨h.os.trans hidle, htarget, h.begun ▸ hfresh, hvector⟩
    rw [hmove]
    refine ⟨h.stands, h.esi, h.sys, h.up, h.td, hshim, htables, ⟨?_, ?_, ?_⟩, rfl,
      congrArg _ h.begun, h.commanded, ⟨h.below.vector, ?_, h.below.ap⟩⟩
    · exact h.shows.command.trans (Memory.read_store_of_disjoint (Or.inr (by decide))).symm
    · exact hlt.symm.trans (Memory.read_store_self _ 4 _ _).symm
    · exact h.shows.vector.trans (Memory.read_store_of_disjoint (Or.inl (by decide))).symm
    · intro w' hw'
      have heq : w = w' := by simpa using hw'
      exact heq ▸ hbelow
  · exact Or.inl h

omit ha hids in
private theorem refines_os (h : Agrees env code pg ids td g s) :
    Agrees env code pg ids td (turn env code ids .os g) (Mailbox.step ids .os s) := by
  have hstate := h.os
  unfold turn Mailbox.step
  dsimp only
  cases hos : g.os with
  | idle =>
    rw [hos] at hstate
    rw [hstate]
    exact h
  | writeVector w =>
    rw [hos] at hstate
    rw [hstate]
    obtain ⟨hshim, htables⟩ := h.kept (mailbox + 8) (toLE 8 w.vector) hlen
      (Or.inl (by rw [length_toLE]; decide)) (Or.inl (by rw [length_toLE]; decide))
    have hlt := h.below.os w (Or.inl hstate)
    refine ⟨h.stands, h.esi, h.sys, h.up, h.td, hshim, htables, ⟨?_, ?_, ?_⟩, rfl, h.begun,
      h.commanded, ⟨hlt, ?_, h.below.ap⟩⟩
    · exact h.shows.command.trans (Memory.read_store_of_disjoint (Or.inr (by decide))).symm
    · exact h.shows.apicId.trans (Memory.read_store_of_disjoint (Or.inr (by decide))).symm
    · refine (Nat.mod_eq_of_lt ?_).symm.trans (Memory.read_store_self _ 8 _ _).symm
      exact hlt.trans (by decide)
    · intro w' hw'
      have heq : w = w' := by simpa using hw'
      exact heq ▸ hlt
  | writeCommand w =>
    rw [hos] at hstate
    rw [hstate]
    obtain ⟨hshim, htables⟩ := h.kept mailbox (toLE 4 1) hlen
      (Or.inl (by decide)) (Or.inl (by decide))
    refine ⟨h.stands, h.esi, h.sys, h.up, h.td, hshim, htables, ⟨?_, ?_, ?_⟩, rfl, h.begun,
      congrArg _ h.commanded, ⟨h.below.vector, by simp, h.below.ap⟩⟩
    · exact (Memory.read_store_self _ 4 _ 1).symm
    · exact h.shows.apicId.trans (Memory.read_store_of_disjoint (Or.inl (by decide))).symm
    · exact h.shows.vector.trans (Memory.read_store_of_disjoint (Or.inl (by decide))).symm
  | waiting w =>
    rw [hos] at hstate
    rw [hstate]
    dsimp only
    by_cases hzero : g.mem.read 4 mailbox = 0
    · rw [if_pos hzero, if_pos (h.shows.command.trans hzero)]
      exact ⟨h.stands, h.esi, h.sys, h.up, h.td, h.shim, h.tables,
        ⟨h.shows.command, h.shows.apicId, h.shows.vector⟩, rfl, h.begun, h.commanded,
        ⟨h.below.vector, by simp, h.below.ap⟩⟩
    · rw [if_neg hzero, if_neg (h.shows.command ▸ hzero)]
      exact h

/-- The processors' instructions and the operating system's stores refine the protocol. -/
theorem refines_mailbox : Refines (turn env code ids) (Mailbox.step ids)
    (Agrees env code pg ids td) (Commanded code ids) Mailbox.Live := by
  intro t g s h hlive
  cases t with
  | cpu i answer =>
    by_cases hi : i ∈ ids
    · rcases refines_cpu ha hlen hids h hi answer hlive with hsame | ⟨hmove, hnext⟩
      · exact Or.inl hsame
      · refine Or.inr ⟨.ap i, hmove, ?_⟩
        rw [Mailbox.step, if_pos hi]
        exact hnext
    · left
      rw [turn, if_neg hi]
      exact h
  | wake w =>
    rcases refines_wake hlen hids h w with hsame | hnext
    · exact Or.inl hsame
    · exact Or.inr ⟨.wake w, trivial, hnext⟩
  | os => exact Or.inr ⟨.os, trivial, refines_os hlen h⟩
  | store a bs =>
    left
    unfold turn
    dsimp only
    split
    · next helse =>
      obtain ⟨hbox, hshim, htables⟩ := helse
      obtain ⟨hshim', htables'⟩ := h.kept a bs hlen hshim htables
      have hread : ∀ off n, off + n ≤ 16 →
          (g.mem.store a bs).read n (mailbox + off) = g.mem.read n (mailbox + off) :=
        fun off n hoff => Memory.read_congr fun j hj => Memory.store_of_not_mem (by omega)
      exact { h with
        shim := hshim'
        tables := htables'
        shows := ⟨h.shows.command.trans (hread 0 4 (by decide)).symm,
          h.shows.apicId.trans (hread 4 4 (by decide)).symm,
          h.shows.vector.trans (hread 8 8 (by decide)).symm⟩ }
    · exact h

end

/-! ## Whole runs -/

/-- Processors as they come to `long_mode`, and nobody woken. -/
structure Coming (code : Code listing) (ids : List Nat) (g : Guest) : Prop where
  ip : ∀ i ∈ ids, (g.core i).ip = code.sym .longMode
  esi : ∀ i ∈ ids, (g.core i).regs .rsi &&& Width.long.mask = BitVec.ofNat 64 i
  sys : ∀ i ∈ ids, (g.sys i).mode = .code64 ∧ Paged (g.sys i)
  up : ∀ i ∈ ids, g.down i = false
  /-- The boot processor is not one of them. -/
  ids : ∀ i ∈ ids, i ≠ 0 ∧ i < 2 ^ 32
  idle : g.os = .idle
  begun : g.begun = []
  commanded : g.commanded = []

/-- And the shim, its tables and the mailbox as they were measured. -/
structure Gathered (env : Env) (code : Code listing) (pg : List UInt8) (ids : List Nat)
    (g : Guest) : Prop extends Coming code ids g where
  assembled : Assembled code pg
  length : pg.length = page
  shim : g.mem.Holds resetAlias pg
  tables : Tabled env 0 false g.mem
  mailbox : g.mem.Holds Layout.mailbox (zeros 16)

/-- Control is in the shim. -/
def Inside (code : Code listing) (core : Core) : Prop :=
  code.base ≤ core.ip ∧ core.ip < code.base + code.bytes.length

/-- What the loop is to guarantee: no exception and no call to the module; whoever is gone
    is where a wake of its own said; and of memory only the mailbox's command is written. -/
structure Attended (env : Env) (code : Code listing) (ids : List Nat) (td : Td) (g : Guest) :
    Prop where
  up : ∀ i ∈ ids, g.down i = false
  td : g.td = td
  gone : ∀ i ∈ ids, Inside code (g.core i) ∨
    ∃ w ∈ g.commanded, w.target = i ∧ (g.core i).ip = w.vector
  /-- A wake that waits for its acknowledgement has its processor still in the shim. -/
  waiting : ∀ w, g.os = .waiting w → w.target ∈ ids → g.mem.read 4 mailbox = 1 →
    Inside code (g.core w.target)
  /-- One that has been acknowledged was by its own processor, which is at the vector or
      about to go there. -/
  acknowledged : ∀ w, g.os = .waiting w → w.target ∈ ids → g.mem.read 4 mailbox = 0 →
    (g.core w.target).ip = w.vector ∨
      (g.core w.target).ip = code.addr (lineOf .apPoll listing + 11) ∧
        ((g.core w.target).regs .rax).toNat = w.vector
  frame : ∀ i answer a, a < mailbox ∨ mailbox + 4 ≤ a →
    (turn env code ids (.cpu i answer) g).mem a = g.mem a

/-- Who has not left is in the shim. -/
private theorem Stands.inside (h : Stands code i core ap) :
    Inside code core ∨ ∃ v, ap = .left v ∧ core.ip = v := by
  have hline : ∀ l : Symbol, ∀ j, l ≠ .shimData → lineOf l listing + j < (lines listing).length →
      core.ip = code.addr (lineOf l listing + j) → Inside code core := fun l j _ hlt hip => by
    rw [Inside, hip]
    exact code.within _ hlt
  cases h with
  | comes hip =>
    exact Or.inl (hline .longMode 0 (by decide) (by decide) (hip.trans (sym_eq code (by decide))))
  | branches hip _ => exact Or.inl (hline .longMode 1 (by decide) (by decide) hip)
  | enters hip =>
    exact Or.inl (hline .apWait 0 (by decide) (by decide) (hip.trans (sym_eq code (by decide))))
  | waits k hk hip _ =>
    have hlt : lineOf .apPoll listing + k < (lines listing).length := by
      have hlines : lineOf .apPoll listing + 12 ≤ (lines listing).length := by decide
      omega
    exact Or.inl (hline .apPoll k (by decide) hlt hip)
  | gone v hip _ => exact Or.inr ⟨v, rfl, hip⟩

section

variable {g : Guest} {td : Td}

theorem Gathered.agrees (h : Gathered env code pg ids g) :
    Agrees env code pg ids g.td g Mailbox.start := by
  have hzero : ∀ off n, off + n ≤ 16 → g.mem.read n (Layout.mailbox + off) = 0 := fun off n hoff => by
    rw [h.mailbox.read (by rw [length_zeros]; exact hoff), getLE, slice_zeros hoff, ofLE_zeros]
  refine ⟨fun i hi => Stands.comes (h.ip i hi), h.esi, h.sys, h.up, rfl, h.shim, h.tables,
    ⟨(hzero 0 4 (by decide)).symm, (hzero 4 4 (by decide)).symm, (hzero 8 8 (by decide)).symm⟩,
    h.idle.symm, h.begun.symm, h.commanded.symm, ⟨by decide, ?_, ?_⟩⟩
  · intro w hw
    simp [Mailbox.start] at hw
  · intro j v hj
    simp [Mailbox.start] at hj

/-- A processor writes the command and nothing else. -/
private theorem Agrees.frame (h : Agrees env code pg ids td g s) (ha : Assembled code pg)
    (hlen : pg.length = page) (hids : ∀ i ∈ ids, i ≠ 0 ∧ i < 2 ^ 32) (i : Nat) (answer : Answer)
    {a : Nat} (hout : a < mailbox ∨ mailbox + 4 ≤ a) :
    (turn env code ids (.cpu i answer) g).mem a = g.mem a := by
  unfold turn
  dsimp only
  split
  · next hi =>
    obtain ⟨core', m', hstep, -, hmoves⟩ := moves_step (h.ready ha hlen hi) answer ha (hids i hi).1
      (hids i hi).2 (h.esi i hi) (h.stands i hi) h.shows h.below
    have hmem : (g.setCpu i (X86.step env code outside answer (g.cpu i))).mem = m' :=
      congrArg (fun x => x.outer.mem) hstep
    rw [hmem]
    cases hmoves with
    | control | load => rfl
    | acknowledge => exact Memory.store_of_not_mem (by rw [length_toLE]; omega)
  · rfl

theorem Agrees.attended (h : Agrees env code pg ids td g s) (ha : Assembled code pg)
    (hlen : pg.length = page) (hids : ∀ i ∈ ids, i ≠ 0 ∧ i < 2 ^ 32) (hsafe : Mailbox.Safe s) :
    Attended env code ids td g where
  up := h.up
  td := h.td
  gone i hi := by
    rcases (h.stands i hi).inside with hin | ⟨v, hleft, hip⟩
    · exact Or.inl hin
    · obtain ⟨w, hw, htarget, hvector⟩ := hsafe.left_commanded i v hleft
      exact Or.inr ⟨w, h.commanded ▸ hw, htarget, hip.trans hvector.symm⟩
  waiting w hw htarget hcommand := by
    rcases (h.stands _ htarget).inside with hin | ⟨v, hleft, -⟩
    · exact hin
    · exact absurd hleft (hsafe.waiting_in_loop w (h.os.trans hw) (h.shows.command.trans hcommand) v)
  acknowledged w hw htarget hcommand := by
    have hstands := h.stands _ htarget
    rw [hsafe.acknowledged_own w (h.os.trans hw) (h.shows.command.trans hcommand)] at hstands
    generalize hleft : Ap.left w.vector = ap at hstands
    cases hstands with
    | comes | branches | enters => exact absurd hleft (by simp)
    | gone v hip _ => exact Or.inl (hip.trans (Ap.left.inj hleft).symm)
    | waits k hk hip _ =>
      right
      have hk' : k = 11 := by
        unfold apAt at hleft
        split at hleft
        all_goals first | rfl | (split_ifs at hleft) | simp at hleft
      subst hk'
      exact ⟨hip, (Ap.left.inj hleft).symm⟩
  frame i answer _ ha' := h.frame ha hlen hids i answer ha'

/-- In every interleaving of the processors with each other and with whatever else is
    written, in which nobody finds its own APIC ID but under a command. -/
theorem aps_attended (h : Gathered env code pg ids g) (turns more : List Turn)
    (hlive : Guarded (turn env code ids) (Commanded code ids) g (turns ++ more)) :
    Attended env code ids g.td (run (turn env code ids) g turns) := by
  obtain ⟨moves, hmoves, hagrees⟩ :=
    (refines_mailbox h.assembled h.length h.ids).run h.agrees hlive.of_append
  have hinv := run_invariant_of_guarded (fun move s => inv_step move s) inv_start hmoves
  exact hagrees.attended h.assembled h.length h.ids hinv.safe

end

end BootShim.ResetCode
