-- SUMMARY: An x86 processor's system state: segments, control registers and modes, and memory as it is reached through segmentation and paging.
import BootShim.Lib.Memory
import BootShim.Lib.Paging

/-!
# System state

Memory is reached by linear address. Without paging that is the physical one; with it
the tables at CR3 are walked. Where memory is encrypted it has two views, the private
one and the one through mappings without the C-bit, which others share; tables, code and
accesses without paging are private. There is no interrupt table: whatever would raise an
exception is `none` and shuts the processor down.
-/

namespace X86

open Bytes Paging

/-- What the processor and whoever launches it fix for good. -/
structure Env where
  cBit : Option Nat
  /-- The bits of CR0 and CR4 that may not be cleared. -/
  cr0Fixed : BitVec 64
  cr4Fixed : BitVec 64

/-! ## Segments -/

inductive SegReg where
  | es | cs | ss | ds | fs | gs
deriving DecidableEq, Repr

/-- A segment register with its hidden part. -/
structure Segment where
  selector : Nat
  base : Nat
  limit : Nat
  /-- It is code rather than data. -/
  code : Bool
  /-- It is readable code or writable data. -/
  rw : Bool
  /-- It is 64-bit code. -/
  long : Bool
  /-- Its code or its stack is 32 bits wide. -/
  big : Bool
deriving DecidableEq, Repr

/-- The fields of a descriptor as the tables in memory have it. -/
structure Descriptor where
  segment : Segment
  accessed : Bool
  /-- Conforming code, or data that expands down. -/
  unusual : Bool
  /-- It is a code or data segment rather than a system one. -/
  user : Bool
  dpl : Nat
  present : Bool
deriving DecidableEq, Repr

/-- The descriptor in a 64-bit word, as a selector loads it. -/
def Descriptor.decode (selector d : Nat) : Descriptor :=
  let limit := d % 2 ^ 16 + d / 2 ^ 48 % 16 * 2 ^ 16
  { segment :=
      { selector
        base := d / 2 ^ 16 % 2 ^ 24 + d / 2 ^ 56 % 2 ^ 8 * 2 ^ 24
        limit := if d.testBit 55 then limit * 4096 + 4095 else limit
        code := d.testBit 43
        rw := d.testBit 41
        long := d.testBit 53
        big := d.testBit 54 }
    accessed := d.testBit 40
    unusual := d.testBit 42
    user := d.testBit 44
    dpl := d / 2 ^ 45 % 4
    present := d.testBit 47 }

/-! ## Control registers -/

inductive Cr where
  | cr0 | cr3 | cr4
deriving DecidableEq, Repr

structure System where
  segs : SegReg → Segment
  gdtBase : Nat
  gdtLimit : Nat
  cr0 : BitVec 64
  cr3 : BitVec 64
  cr4 : BitVec 64
  efer : BitVec 64

/-- How wide the code is that the processor runs. -/
inductive Mode where
  | code16 | code32 | code64
deriving DecidableEq, Repr

namespace System

variable (y : System)

def pe : Bool := y.cr0.getLsbD 0
def pg : Bool := y.cr0.getLsbD 31
def pae : Bool := y.cr4.getLsbD 5
def la57 : Bool := y.cr4.getLsbD 12
def lme : Bool := y.efer.getLsbD 8
def lma : Bool := y.efer.getLsbD 10
def nxe : Bool := y.efer.getLsbD 11

def mode : Mode :=
  if y.lma ∧ (y.segs .cs).long then .code64
  else if (y.segs .cs).big then .code32
  else .code16

/-- The privilege level of the code that runs. -/
def cpl : Nat := (y.segs .cs).selector % 4

def setSeg (r : SegReg) (g : Segment) : System :=
  { y with segs := fun x => if x = r then g else y.segs x }

/-- The linear address of `n` bytes at an offset of a segment. 64-bit code has flat ones. -/
def linear (r : SegReg) (off n : Nat) : Option Nat :=
  if y.mode = .code64 then some off
  else if off + n ≤ (y.segs r).limit + 1 then some ((y.segs r).base + off)
  else none

/-- MOV to CR0. Paging is the switch to long mode where EFER.LME is set. -/
def writeCr0 (env : Env) (v : BitVec 64) : Option System :=
  let y' := { y with cr0 := v }
  if v &&& env.cr0Fixed ≠ env.cr0Fixed then none
  else if y'.pg ∧ ¬ y'.pe then none
  else if y'.pg = y.pg then some y'
  else if y'.pg then
    if ¬ y.lme then some y'
    else if ¬ y.pae ∨ (y.segs .cs).long then none
    else some { y' with efer := y.efer ||| BitVec.twoPow 64 10 }
  else if y.mode = .code64 then none
  else some { y' with efer := y.efer &&& ~~~ BitVec.twoPow 64 10 }

/-- MOV to CR4. -/
def writeCr4 (env : Env) (v : BitVec 64) : Option System :=
  let y' := { y with cr4 := v }
  if v &&& env.cr4Fixed ≠ env.cr4Fixed then none
  else if y.lma ∧ (¬ y'.pae ∨ y'.la57 ≠ y.la57) then none
  else some y'

def writeCr (env : Env) (v : BitVec 64) : Cr → Option System
  | .cr0 => y.writeCr0 env v
  | .cr3 => some { y with cr3 := v }
  | .cr4 => y.writeCr4 env v

def readCr : Cr → BitVec 64
  | .cr0 => y.cr0
  | .cr3 => y.cr3
  | .cr4 => y.cr4

end System

/-! ## Memory -/

/-- All that a processor's registers are not: its system state, memory, and what an
    instruction from outside this subset works on. -/
structure Outer (X : Type) where
  sys : System
  /-- Private memory, or all there is, by physical address. -/
  mem : Memory
  /-- Memory as mappings without the C-bit have it, by physical address. -/
  shared : Memory
  ext : X
  /-- An exception has found no handler. -/
  shutdown : Bool

namespace Outer

variable {X : Type} (env : Env) (o : Outer X)

/-- Where a linear address is. Without EFER.NXE the no-execute bit is reserved. Only
    four-level paging is known here. -/
def translate (la : Nat) : Option Mapping :=
  if o.sys.pg then
    if o.sys.lma ∧ ¬ o.sys.la57 then
      (Paging.translate o.mem.word env.cBit (o.sys.cr3.toNat % 2 ^ 52 / 2 ^ 12 * 2 ^ 12) la).filter
        fun m => m.executable || o.sys.nxe
    else none
  else if la < 2 ^ 32 then some ⟨la, true, true, env.cBit.isSome⟩
  else none

/-- The mapping of each of `n` bytes from a linear address on. -/
def mappings : Nat → Nat → Option (List Mapping)
  | 0, _ => some []
  | n + 1, la =>
    match o.translate env la with
    | none => none
    | some m => (mappings n (la + 1)).map (m :: ·)

/-- Memory as mappings have it that are encrypted or are not. -/
def view (encrypted : Bool) : Memory :=
  if encrypted = env.cBit.isSome then o.mem else o.shared

def setView (encrypted : Bool) (m : Memory) : Outer X :=
  if encrypted = env.cBit.isSome then { o with mem := m } else { o with shared := m }

def byte (m : Mapping) : UInt8 := o.view env m.encrypted m.phys

def setByte (m : Mapping) (b : UInt8) : Outer X :=
  o.setView env m.encrypted ((o.view env m.encrypted).store m.phys [b])

/-- The number in `n` bytes at a linear address. -/
def load (n la : Nat) : Option Nat :=
  (o.mappings env n la).map fun ms => ofLE (ms.map (o.byte env))

/-- Writes where all bytes are writable, as they are with CR0.WP. -/
def store (la : Nat) (bs : List UInt8) : Option (Outer X) :=
  match o.mappings env bs.length la with
  | none => none
  | some ms =>
    if ms.all Mapping.writable then
      some ((ms.zip bs).foldl (fun o x => o.setByte env x.1 x.2) o)
    else none

/-! ### Loading segments -/

/-- The word of the global descriptor table that a selector names, by its address. -/
def descriptor (selector : Nat) : Option (Nat × Nat) :=
  let off := selector / 8 * 8
  -- A selector of the local table or past the end names none.
  if selector.testBit 2 ∨ o.sys.gdtLimit < off + 7 then none
  else (o.load env 8 (o.sys.gdtBase + off)).map fun d => (o.sys.gdtBase + off, d)

/-- Loads a segment register from its descriptor, and marks that as accessed. -/
def setSeg (r : SegReg) (selector a d : Nat) : Option (Outer X) :=
  let g := (Descriptor.decode selector d).segment
  if (Descriptor.decode selector d).accessed then
    some { o with sys := o.sys.setSeg r g }
  else (o.store env a (toLE 8 (d + 2 ^ 40))).map fun o => { o with sys := o.sys.setSeg r g }

/-- MOV to a data segment register. Conforming code and data that expands down are not
    known here. -/
def loadData (r : SegReg) (selector : Nat) : Option (Outer X) :=
  if selector / 4 = 0 then
    if r = .ss then none
    else some { o with sys := o.sys.setSeg r ⟨selector, 0, 0, false, false, false, false⟩ }
  else
    match o.descriptor env selector with
    | none => none
    | some (a, d) =>
      let t := Descriptor.decode selector d
      if ¬ t.user ∨ ¬ t.present ∨ t.unusual then none
      else if r = .ss ∧ (t.segment.code ∨ ¬ t.segment.rw ∨ t.dpl ≠ o.sys.cpl ∨
          selector % 4 ≠ o.sys.cpl) then none
      else if r ≠ .ss ∧ (t.segment.code ∧ ¬ t.segment.rw ∨
          t.dpl < max o.sys.cpl (selector % 4)) then none
      else o.setSeg env r selector a d

/-- A far transfer's new code segment, at the same privilege. -/
def loadCode (selector : Nat) : Option (Outer X) :=
  if selector / 4 = 0 then none
  else
    match o.descriptor env selector with
    | none => none
    | some (a, d) =>
      let t := Descriptor.decode selector d
      if ¬ t.user ∨ ¬ t.present ∨ t.unusual ∨ ¬ t.segment.code then none
      else if t.dpl ≠ o.sys.cpl ∨ o.sys.cpl < selector % 4 then none
      else if o.sys.lma ∧ t.segment.long ∧ t.segment.big then none
      else o.setSeg env .cs (selector / 4 * 4 + o.sys.cpl) a d

/-! ### Where mappings are known -/

/-- `n` bytes at a linear address are those at a physical one, in one of the views. -/
def Maps (la n phys : Nat) (encrypted : Bool) : Prop :=
  ∀ i < n, ∃ x, o.translate env (la + i) = some ⟨phys + i, true, x, encrypted⟩

variable {env o} {la n phys : Nat} {encrypted : Bool} {bs : List UInt8}

theorem Maps.drop (k : Nat) (h : o.Maps env la (k + n) phys encrypted) :
    o.Maps env (la + k) n (phys + k) encrypted := by
  intro i hi
  rw [Nat.add_assoc, Nat.add_assoc]
  exact h (k + i) (by omega)

/-- Each byte has a mapping of its own. -/
theorem Maps.mappings (h : o.Maps env la n phys encrypted) : ∃ ms, o.mappings env n la = some ms ∧
    ms.length = n ∧ ∀ i (hi : i < ms.length), ms[i].phys = phys + i ∧ ms[i].writable = true ∧
      ms[i].encrypted = encrypted := by
  induction n generalizing la phys with
  | zero => exact ⟨[], rfl, rfl, fun i hi => absurd hi (Nat.not_lt_zero i)⟩
  | succ n ih =>
    obtain ⟨x, hx⟩ := h 0 (Nat.succ_pos n)
    rw [Nat.add_comm] at h
    obtain ⟨ms, hms, hlen, hall⟩ := ih (h.drop 1)
    rw [Nat.add_zero] at hx
    refine ⟨⟨phys + 0, true, x, encrypted⟩ :: ms, ?_, ?_, ?_⟩
    · simp only [Outer.mappings, hx, hms, Option.map_some]
    · rw [List.length_cons, hlen]
    · intro i hi
      cases i with
      | zero => exact ⟨rfl, rfl, rfl⟩
      | succ i =>
        obtain ⟨hphys, hrest⟩ := hall i (by simpa using hi)
        refine ⟨?_, hrest⟩
        rw [List.getElem_cons_succ, hphys]
        omega

theorem Maps.load (h : o.Maps env la n phys encrypted) :
    o.load env n la = some ((o.view env encrypted).read n phys) := by
  obtain ⟨ms, hms, hlen, hall⟩ := h.mappings
  rw [Outer.load, hms, Option.map_some, Memory.read]
  congr 2
  refine List.ext_getElem (by simp [hlen]) fun i hi hi' => ?_
  obtain ⟨hphys, -, henc⟩ := hall i (by simpa using hi)
  rw [List.getElem_map, List.getElem_map, List.getElem_range, byte, henc, hphys]

@[simp] theorem view_setView (m : Memory) : (o.setView env encrypted m).view env encrypted = m := by
  unfold setView
  split <;> next h => simp [view, h]

@[simp] theorem setView_setView (m m' : Memory) :
    (o.setView env encrypted m).setView env encrypted m' = o.setView env encrypted m' := by
  unfold setView
  split <;> rfl

@[simp] theorem setView_view : o.setView env encrypted (o.view env encrypted) = o := by
  unfold setView view
  split <;> rfl

/-- Byte by byte, a byte string is stored. -/
private theorem foldl_setByte {ms : List Mapping} (hlen : ms.length = bs.length)
    (hall : ∀ i (hi : i < ms.length), ms[i].phys = phys + i ∧ ms[i].writable = true ∧
      ms[i].encrypted = encrypted) :
    (ms.zip bs).foldl (fun o x => o.setByte env x.1 x.2) o =
      o.setView env encrypted ((o.view env encrypted).store phys bs) := by
  induction bs generalizing ms o phys with
  | nil =>
    rw [List.zip_nil_right, List.foldl_nil]
    have hnone : (o.view env encrypted).store phys [] = o.view env encrypted :=
      funext fun x => Memory.store_of_not_mem (by simp; omega)
    rw [hnone, setView_view]
  | cons b bs ih =>
    cases ms with
    | nil => exact absurd hlen (by simp)
    | cons m ms =>
      obtain ⟨hphys, -, henc⟩ := hall 0 (by simp)
      rw [List.getElem_cons_zero] at hphys henc
      have hrest : ∀ i (hi : i < ms.length), ms[i].phys = phys + 1 + i ∧ ms[i].writable = true ∧
          ms[i].encrypted = encrypted := by
        intro i hi
        have htail := hall (i + 1) (by simpa using hi)
        rw [List.getElem_cons_succ] at htail
        exact ⟨by rw [htail.1]; omega, htail.2⟩
      rw [List.zip_cons_cons, List.foldl_cons, ih (by simpa using hlen) hrest, setByte, hphys, henc,
        view_setView, setView_setView, Nat.add_zero]
      exact congrArg _ (Memory.store_store _ phys [b] bs)

theorem Maps.store (h : o.Maps env la bs.length phys encrypted) :
    o.store env la bs =
      some (o.setView env encrypted ((o.view env encrypted).store phys bs)) := by
  obtain ⟨ms, hms, hlen, hall⟩ := h.mappings
  have hwritable : ms.all Mapping.writable = true := by
    rw [List.all_eq_true]
    intro m hm
    obtain ⟨i, hi, rfl⟩ := List.getElem_of_mem hm
    exact (hall i hi).2.1
  rw [Outer.store, hms]
  simp only [hwritable, if_true]
  rw [foldl_setByte hlen hall]

end Outer

end X86
