-- SUMMARY: An x86 machine that runs an assembly listing: instructions on memory and on system state, where the lines are placed, and one step.
import BootShim.Lib.X86.Core
import BootShim.Lib.X86.System

/-!
# Running a listing

A listing is assembly text: blocks under labels, each assembled for one mode. Where the
assembler has put its lines is a parameter. The processor runs a line only in the mode it
was assembled for and only while its memory still holds the assembled bytes; where there
is no line, control is elsewhere and the machine stays as it is.
-/

namespace X86

open Bytes

/-- A memory operand, `disp(%base)`. -/
structure Operand where
  disp : Nat
  base : Reg

/-- The instructions, over labels `L`, with others `E` from outside. -/
inductive Instr (L E : Type) where
  | op (o : Op L)
  | load (w : Width) (src : Operand) (dst : Reg)
  | store (w : Width) (src : Src) (dst : Operand)
  /-- `jmp *disp(%base)` -/
  | jmpMem (src : Operand)
  | call (l : L)
  | ret
  | lgdt (src : Operand)
  | movSeg (src : Reg) (dst : SegReg)
  | movFromCr (src : Cr) (dst : Reg)
  | movToCr (src : Reg) (dst : Cr)
  /-- A far jump to an address and how far one label lies behind another. -/
  | ljmp (selector base : Nat) (l l' : L)
  | ext (e : E)

structure State (X : Type) where
  core : Core
  outer : Outer X

namespace State

variable {X : Type} (env : Env) (s : State X)

/-- The width of a stack entry, and of an address. -/
def width : Width :=
  match s.outer.sys.mode with
  | .code16 => .word
  | .code32 => .long
  | .code64 => .quad

/-- The linear address of `n` bytes at an operand. -/
def linear (x : Operand) (n : Nat) : Option Nat :=
  s.outer.sys.linear (if x.base = .rsp ∨ x.base = .rbp then .ss else .ds)
    ((s.core.regs x.base + BitVec.ofNat 64 x.disp) &&& s.width.mask).toNat n

def push (v : BitVec 64) : Option (State X) :=
  let w := s.width
  let c := s.core.set w .rsp (s.core.get w .rsp - BitVec.ofNat 64 w.bytes)
  match s.outer.sys.linear .ss (c.get w .rsp).toNat w.bytes with
  | none => none
  | some la => (s.outer.store env la (toLE w.bytes v.toNat)).map fun o => ⟨c, o⟩

def pop : Option (Nat × State X) :=
  let w := s.width
  match s.outer.sys.linear .ss (s.core.get w .rsp).toNat w.bytes with
  | none => none
  | some la => (s.outer.load env w.bytes la).map fun v =>
    (v, { s with
      core := s.core.set w .rsp (s.core.get w .rsp + BitVec.ofNat 64 w.bytes) })

end State

/-! ## Executing -/

section

variable {L E X ι : Type} (env : Env) (sym : L → Nat)
  (outside : E → ι → State X → Option (State X))

/-- What an instruction does, `next` being the address of the one behind; `none` is an
    exception. What is outside the subset has an input, all else ignores it. -/
def Instr.exec (next : Nat) (i : ι) (s : State X) : Instr L E → Option (State X)
  | .op o => some { s with core := o.run sym next s.core }
  | .load w src dst =>
    match s.linear src w.bytes with
    | none => none
    | some la => (s.outer.load env w.bytes la).map fun v =>
      { s with core := (s.core.set w dst (BitVec.ofNat 64 v)).goto next }
  | .store w src dst =>
    match s.linear dst w.bytes with
    | none => none
    | some la => (s.outer.store env la (toLE w.bytes (src.value s.core w).toNat)).map fun o =>
      ⟨s.core.goto next, o⟩
  | .jmpMem src =>
    match s.linear src s.width.bytes with
    | none => none
    | some la => (s.outer.load env s.width.bytes la).map fun v =>
      { s with core := s.core.goto v }
  | .call l => (s.push env (BitVec.ofNat 64 next)).map fun s =>
    { s with core := s.core.goto (sym l) }
  | .ret => (s.pop env).map fun x => { x.2 with core := x.2.core.goto x.1 }
  | .lgdt src =>
    -- The base is as wide as the code is.
    let wide := if s.outer.sys.mode = .code64 then 8 else 4
    if s.outer.sys.cpl ≠ 0 then none
    else
      match s.linear src (2 + wide) with
      | none => none
      | some la =>
        match s.outer.load env 2 la, s.outer.load env wide (la + 2) with
        | some limit, some base =>
          some ⟨s.core.goto next, { s.outer with
            sys := { s.outer.sys with gdtBase := base, gdtLimit := limit } }⟩
        | _, _ => none
  | .movSeg src dst =>
    if dst = .cs then none
    else (s.outer.loadData env dst ((s.core.regs src).toNat % 2 ^ 16)).map fun o =>
      ⟨s.core.goto next, o⟩
  | .movFromCr src dst =>
    if s.outer.sys.cpl ≠ 0 then none
    else some { s with core := (s.core.set s.width dst (s.outer.sys.readCr src)).goto next }
  | .movToCr src dst =>
    if s.outer.sys.cpl ≠ 0 then none
    else (s.outer.sys.writeCr env (s.core.get s.width src) dst).map fun y =>
      ⟨s.core.goto next, { s.outer with sys := y }⟩
  | .ljmp selector base l l' =>
    if s.outer.sys.mode = .code64 then none
    else (s.outer.loadCode env selector).map fun o => ⟨s.core.goto (base + sym l - sym l'), o⟩
  | .ext e => (outside e i s).map fun s => { s with core := s.core.goto next }

end

/-! ## Listings -/

/-- A label and the lines up to the next one. -/
structure Block (L E : Type) where
  label : L
  mode : Mode
  body : List (Instr L E)

variable {L E X ι : Type}

/-- The lines of a listing, each with the mode it is assembled for. -/
def lines (blocks : List (Block L E)) : List (Mode × Instr L E) :=
  blocks.flatMap fun b => b.body.map fun instr => (b.mode, instr)

/-- How many lines there are before a label. -/
def lineOf [DecidableEq L] (l : L) : List (Block L E) → Nat
  | [] => 0
  | b :: blocks => if b.label = l then 0 else b.body.length + lineOf l blocks

/-- From the `k`-th line on the listing goes on with these instructions. -/
def Sits (blocks : List (Block L E)) (mode : Mode) (k : Nat) (instrs : List (Instr L E)) : Prop :=
  instrs.map (fun instr => (mode, instr)) <+: (lines blocks).drop k

theorem Sits.line {blocks : List (Block L E)} {mode : Mode} {k i : Nat}
    {instrs : List (Instr L E)} {instr : Instr L E} (h : Sits blocks mode k instrs)
    (hi : instrs[i]? = some instr) : (lines blocks)[k + i]? = some (mode, instr) := by
  rw [← List.getElem?_drop]
  have hmap : (instrs.map fun instr => (mode, instr))[i]? = some (mode, instr) := by
    rw [List.getElem?_map, hi, Option.map_some]
  obtain ⟨hlt, hget⟩ := List.getElem?_eq_some_iff.mp hmap
  rw [List.getElem?_eq_some_iff]
  exact ⟨hlt.trans_le h.length_le, (h.getElem hlt).symm.trans hget⟩

theorem Sits.tail {blocks : List (Block L E)} {mode : Mode} {k : Nat} {instr : Instr L E}
    {instrs : List (Instr L E)} (h : Sits blocks mode k (instr :: instrs)) :
    Sits blocks mode (k + 1) instrs := by
  rw [Sits, ← List.drop_drop]
  obtain ⟨rest, hrest⟩ := h
  rw [← hrest]
  exact ⟨rest, rfl⟩

/-- A listing as it has been assembled: where its lines and labels are, and the bytes
    that they are part of. -/
structure Code [DecidableEq L] (blocks : List (Block L E)) where
  base : Nat
  bytes : List UInt8
  addr : Nat → Nat
  sym : L → Nat
  injective : ∀ i < (lines blocks).length, ∀ j < (lines blocks).length, addr i = addr j → i = j
  within : ∀ i < (lines blocks).length, base ≤ addr i ∧ addr i < base + bytes.length
  sym_eq : ∀ b ∈ blocks, sym b.label = addr (lineOf b.label blocks)

instance (m : Memory) (a : Nat) (bs : List UInt8) : Decidable (m.Holds a bs) :=
  inferInstanceAs (Decidable (∀ i < bs.length, m (a + i) = byteAt bs i))

namespace Code

variable [DecidableEq L] {blocks : List (Block L E)} (code : Code blocks)

theorem sym_of_mem {l : L} (h : l ∈ blocks.map Block.label) :
    code.sym l = code.addr (lineOf l blocks) := by
  obtain ⟨b, hb, rfl⟩ := List.mem_map.mp h
  exact code.sym_eq b hb

/-- The line at an address. -/
def find (a : Nat) : Option Nat := (List.range (lines blocks).length).find? fun k => code.addr k = a

theorem find_addr {k : Nat} (hk : k < (lines blocks).length) : code.find (code.addr k) = some k := by
  rw [find, List.find?_eq_some_iff_getElem]
  refine ⟨decide_eq_true rfl, k, by simpa using hk, List.getElem_range _, fun j hj => ?_⟩
  have hj' : j < (lines blocks).length := hj.trans hk
  rw [List.getElem_range, Bool.not_eq_true', decide_eq_false_iff_not]
  exact fun h => absurd (code.injective j hj' k hk h) (Nat.ne_of_lt hj)

theorem find_eq_none {a : Nat} (h : a < code.base ∨ code.base + code.bytes.length ≤ a) :
    code.find a = none := by
  rw [find, List.find?_eq_none]
  intro k hk
  rw [decide_eq_true_eq]
  have hwithin := code.within k (List.mem_range.mp hk)
  omega

end Code

/-- What there is to run. -/
inductive Fetched where
  | line (k : Nat)
  /-- Control has left the listing. -/
  | elsewhere
  | fault

section

variable [DecidableEq L] {blocks : List (Block L E)} (env : Env) (code : Code blocks)
  (outside : E → ι → State X → Option (State X))

def fetch (s : State X) : Fetched :=
  match s.outer.sys.linear .cs s.core.ip 1 with
  | none => .fault
  | some la =>
    match s.outer.translate env la with
    | none => .fault
    | some m =>
      if ¬ m.executable then .fault
      else
        match code.find m.phys with
        | none => .elsewhere
        | some k =>
          if ((lines blocks)[k]?.map Prod.fst) = some s.outer.sys.mode ∧
              s.outer.mem.Holds code.base code.bytes then .line k
          else .fault

/-- An exception: there is nobody to handle it. -/
def State.fault (s : State X) : State X := { s with outer := { s.outer with shutdown := true } }

/-- One instruction. -/
def step (i : ι) (s : State X) : State X :=
  if s.outer.shutdown then s
  else
    match fetch env code s with
    | .fault => s.fault
    | .elsewhere => s
    | .line k =>
      match (lines blocks)[k]? with
      | none => s.fault
      | some (_, instr) =>
        match instr.exec env code.sym outside (code.addr (k + 1)) i s with
        | none => s.fault
        | some s' => s'

end

end X86
