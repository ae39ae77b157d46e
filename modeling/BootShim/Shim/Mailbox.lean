-- SUMMARY: The wakeup mailbox with its waiting processors and the operating system, one load or store a step (`ap_wait` in `src/reset.S`).
import BootShim.Lib.Machine

/-!
# The wakeup mailbox

Every application processor of a TD polls the mailbox and leaves it for the kernel
when it finds itself claimed there. A scheduler picks whose load or store is next, so
a list of moves is an interleaving of all parties.
-/

namespace BootShim.Mailbox

/-- A wake: the processor it is addressed to and where that one is to go. -/
structure Wake where
  target : Nat
  vector : Nat
deriving DecidableEq

/-- Where an application processor is. -/
inductive Ap where
  /-- About to load the command. -/
  | poll
  /-- It has read a command of 1 and is about to load the APIC ID. -/
  | checkId
  /-- It has read its own APIC ID and is about to load the vector. -/
  | loadVector
  /-- About to clear the command. -/
  | acknowledge (vector : Nat)
  /-- Gone to the vector. -/
  | left (vector : Nat)
deriving DecidableEq

/-- Where the operating system is in its wakes. -/
inductive Os where
  | idle
  | writeVector (wake : Wake)
  | writeCommand (wake : Wake)
  | waiting (wake : Wake)
deriving DecidableEq

structure State where
  command : Nat
  apicId : Nat
  vector : Nat
  aps : Nat → Ap
  os : Os
  /-- The processors a wake has been begun for. -/
  begun : List Nat
  /-- The wakes whose command has been written. -/
  commanded : List Wake

/-- Who moves next. -/
inductive Move where
  | ap (index : Nat)
  /-- The operating system begins a wake. -/
  | wake (wake : Wake)
  /-- The operating system goes on with one. -/
  | os

/-- The mailbox as it is measured, and every processor in its loop. -/
def start : State :=
  { command := 0, apicId := 0, vector := 0, aps := fun _ => .poll, os := .idle, begun := [],
    commanded := [] }

def State.setAp (s : State) (index : Nat) (ap : Ap) : State :=
  { s with aps := Function.update s.aps index ap }

/-- `ap_poll`, by the load or store that is next. -/
def stepAp (index : Nat) (s : State) : State :=
  match s.aps index with
  | .poll => s.setAp index (if s.command = 1 then .checkId else .poll)
  | .checkId => s.setAp index (if s.apicId = index then .loadVector else .poll)
  | .loadVector => s.setAp index (if s.vector = 0 then .poll else .acknowledge s.vector)
  | .acknowledge v => { s.setAp index (.left v) with command := 0 }
  | .left _ => s

/-- One move among the processors `ids`. The operating system wakes each of them at most
    once, with the APIC ID first, then a vector, then the command, and waits for the
    acknowledgement before the next. -/
def step (ids : List Nat) (move : Move) (s : State) : State :=
  match move with
  | .ap index => if index ∈ ids then stepAp index s else s
  | .wake w =>
    if s.os = .idle ∧ w.target ∈ ids ∧ w.target ∉ s.begun ∧ w.vector ≠ 0 then
      { s with apicId := w.target, os := .writeVector w, begun := w.target :: s.begun }
    else s
  | .os =>
    match s.os with
    | .idle => s
    | .writeVector w => { s with vector := w.vector, os := .writeCommand w }
    | .writeCommand w => { s with command := 1, os := .waiting w, commanded := w :: s.commanded }
    | .waiting _ => if s.command = 0 then { s with os := .idle } else s

/-! ## Safety -/

/-- What the mailbox is to guarantee in every state. -/
structure Safe (s : State) : Prop where
  /-- Who has left was commanded to, and has gone where its wake said. -/
  left_commanded : ∀ i v, s.aps i = .left v → ∃ w ∈ s.commanded, w.target = i ∧ w.vector = v
  /-- A wake that waits for its acknowledgement has its processor still in the loop. -/
  waiting_in_loop : ∀ w, s.os = .waiting w → s.command = 1 → ∀ v, s.aps w.target ≠ .left v
  /-- A wake that has been acknowledged was by its own processor. -/
  acknowledged_own : ∀ w, s.os = .waiting w → s.command = 0 → s.aps w.target = .left w.vector

/-- The condition the loop leaves unchecked: whoever finds its own APIC ID in the mailbox
    finds it there under a command. -/
def Live : Move → State → Prop
  | .ap index, s => s.aps index = .checkId → s.apicId = index → s.command = 1
  | .wake _, _ => True
  | .os, _ => True

instance : (move : Move) → (s : State) → Decidable (Live move s)
  | .ap _, _ => inferInstanceAs (Decidable (_ → _))
  | .wake _, _ => inferInstanceAs (Decidable True)
  | .os, _ => inferInstanceAs (Decidable True)

/-- How the mailbox stands to what the operating system is doing. -/
def OsInv (s : State) : Os → Prop
  | .idle => s.command = 0
  | .writeVector w => s.command = 0 ∧ s.apicId = w.target ∧ w.vector ≠ 0 ∧ w.target ∈ s.begun ∧
      ∀ v, s.aps w.target ≠ .left v
  | .writeCommand w => s.command = 0 ∧ s.apicId = w.target ∧ s.vector = w.vector ∧ w.vector ≠ 0 ∧
      w.target ∈ s.begun ∧ ∀ v, s.aps w.target ≠ .left v
  | .waiting w => s.apicId = w.target ∧ s.vector = w.vector ∧ w.target ∈ s.begun ∧ w ∈ s.commanded ∧
      (s.command = 1 ∧ (∀ v, s.aps w.target ≠ .left v) ∨
        s.command = 0 ∧ s.aps w.target = .left w.vector)

/-- How it stands to where a processor is: who is past the check is the one being woken. -/
def ApInv (s : State) (index : Nat) : Ap → Prop
  | .poll | .checkId => True
  | .loadVector => s.command = 1 ∧ ∃ w, s.os = .waiting w ∧ w.target = index
  | .acknowledge v => s.command = 1 ∧ ∃ w, s.os = .waiting w ∧ w.target = index ∧ w.vector = v
  | .left v => index ∈ s.begun ∧ ∃ w ∈ s.commanded, w.target = index ∧ w.vector = v

structure Inv (s : State) : Prop where
  os : OsInv s s.os
  ap : ∀ i, ApInv s i (s.aps i)

theorem Inv.safe {s : State} (h : Inv s) : Safe s where
  left_commanded i v hi := by
    have hap := h.ap i
    rw [hi] at hap
    exact hap.2
  waiting_in_loop w hw hcommand := by
    have hos := h.os
    rw [hw] at hos
    rcases hos.2.2.2.2 with hwait | hack
    · exact hwait.2
    · omega
  acknowledged_own w hw hcommand := by
    have hos := h.os
    rw [hw] at hos
    rcases hos.2.2.2.2 with hwait | hack
    · omega
    · exact hack.2

/-! ### One step -/

variable {s : State} {ids : List Nat} {index : Nat}

@[simp] theorem setAp_self (s : State) (index : Nat) (ap : Ap) : (s.setAp index ap).aps index = ap :=
  Function.update_self _ _ _

theorem setAp_of_ne {j : Nat} (h : j ≠ index) (ap : Ap) : (s.setAp index ap).aps j = s.aps j :=
  Function.update_of_ne h _ _

/-- A processor that stays in the loop changes nothing for the operating system. -/
theorem OsInv.setAp {os : Os} {ap : Ap} (h : OsInv s os) (hstay : ∀ v, ap ≠ .left v)
    (hin : ∀ v, s.aps index ≠ .left v) : OsInv (s.setAp index ap) os := by
  have hkeep : ∀ i, (∀ v, s.aps i ≠ .left v) → ∀ v, (s.setAp index ap).aps i ≠ .left v := by
    intro i hi v
    by_cases heq : i = index
    · rw [heq, setAp_self]
      exact hstay v
    · rw [setAp_of_ne heq]
      exact hi v
  cases os with
  | idle => exact h
  | writeVector w =>
    obtain ⟨hcommand, hid, hvector, hbegun, hloop⟩ := h
    exact ⟨hcommand, hid, hvector, hbegun, hkeep _ hloop⟩
  | writeCommand w =>
    obtain ⟨hcommand, hid, hvector, hne, hbegun, hloop⟩ := h
    exact ⟨hcommand, hid, hvector, hne, hbegun, hkeep _ hloop⟩
  | waiting w =>
    obtain ⟨hid, hvector, hbegun, hmem, hwait | hack⟩ := h
    · exact ⟨hid, hvector, hbegun, hmem, Or.inl ⟨hwait.1, hkeep _ hwait.2⟩⟩
    · refine ⟨hid, hvector, hbegun, hmem, Or.inr ⟨hack.1, ?_⟩⟩
      have hother : w.target ≠ index := fun heq => hin w.vector (heq ▸ hack.2)
      rw [setAp_of_ne hother]
      exact hack.2

/-- Where one processor goes does not move the others. -/
theorem Inv.setAp {ap : Ap} (h : Inv s) (hap : ApInv s index ap) (hstay : ∀ v, ap ≠ .left v)
    (hin : ∀ v, s.aps index ≠ .left v) : Inv (s.setAp index ap) where
  os := h.os.setAp hstay hin
  ap i := by
    by_cases heq : i = index
    · rw [heq, setAp_self]
      cases ap <;> exact hap
    · rw [setAp_of_ne heq]
      have hi := h.ap i
      cases hcase : s.aps i <;> rw [hcase] at hi <;> exact hi

theorem inv_stepAp (h : Inv s) (hlive : s.aps index = .checkId → s.apicId = index → s.command = 1) :
    Inv (stepAp index s) := by
  have hap := h.ap index
  cases hcase : s.aps index with
  | poll =>
    simp only [stepAp, hcase]
    split <;> exact h.setAp trivial nofun (by simp [hcase])
  | checkId =>
    simp only [stepAp, hcase]
    split
    · next hid =>
      -- The command is live, so the wake in progress is this processor's.
      have hcommand := hlive hcase hid
      have hos := h.os
      cases hstate : s.os with
      | waiting w =>
        rw [hstate] at hos
        exact h.setAp ⟨hcommand, w, hstate, hos.1 ▸ hid⟩ nofun (by simp [hcase])
      | idle | writeVector w | writeCommand w =>
        rw [hstate] at hos
        simp only [OsInv] at hos
        omega
    · exact h.setAp trivial nofun (by simp [hcase])
  | loadVector =>
    rw [hcase] at hap
    obtain ⟨hcommand, w, hw, htarget⟩ := hap
    have hos := h.os
    rw [hw] at hos
    simp only [stepAp, hcase]
    split
    · exact h.setAp trivial nofun (by simp [hcase])
    · exact h.setAp ⟨hcommand, w, hw, htarget, hos.2.1.symm⟩ nofun (by simp [hcase])
  | acknowledge v =>
    rw [hcase] at hap
    obtain ⟨hcommand, w, hw, rfl, rfl⟩ := hap
    have hos := h.os
    rw [hw] at hos
    obtain ⟨hid, hvector, hbegun, hmem, -⟩ := hos
    simp only [stepAp, hcase]
    refine ⟨?_, fun i => ?_⟩
    · simp only [State.setAp, hw]
      exact ⟨hid, hvector, hbegun, hmem, Or.inr ⟨rfl, Function.update_self _ _ _⟩⟩
    · by_cases heq : i = w.target
      · subst heq
        simp only [setAp_self]
        exact ⟨hbegun, w, hmem, rfl, rfl⟩
      · simp only [setAp_of_ne heq]
        have hi := h.ap i
        cases hother : s.aps i with
        | poll | checkId => trivial
        | left v =>
          rw [hother] at hi
          exact hi
        | loadVector =>
          rw [hother] at hi
          obtain ⟨-, w', hw', htarget⟩ := hi
          rw [hw] at hw'
          exact absurd (Os.waiting.inj hw' ▸ htarget).symm heq
        | acknowledge v =>
          rw [hother] at hi
          obtain ⟨-, w', hw', htarget, -⟩ := hi
          rw [hw] at hw'
          exact absurd (Os.waiting.inj hw' ▸ htarget).symm heq
  | left v =>
    simp only [stepAp, hcase]
    exact h

/-- Without a command nobody is past the check. -/
theorem Inv.of_no_command {s' : State} (h : Inv s) (hcommand : s.command = 0)
    (hos : OsInv s' s'.os) (haps : s'.aps = s.aps) (hbegun : ∀ i ∈ s.begun, i ∈ s'.begun)
    (hcommanded : ∀ w ∈ s.commanded, w ∈ s'.commanded) : Inv s' where
  os := hos
  ap i := by
    have hi := h.ap i
    rw [haps]
    cases hcase : s.aps i with
    | poll | checkId => trivial
    | loadVector | acknowledge v =>
      rw [hcase] at hi
      have hone := hi.1
      omega
    | left v =>
      rw [hcase] at hi
      obtain ⟨hmem, w, hw, htarget⟩ := hi
      exact ⟨hbegun i hmem, w, hcommanded w hw, htarget⟩

/-- A processor no wake was begun for is in the loop. -/
theorem Inv.in_loop (h : Inv s) (hbegun : index ∉ s.begun) (v : Nat) : s.aps index ≠ .left v := by
  intro hleft
  have hap := h.ap index
  rw [hleft] at hap
  exact hbegun hap.1

theorem inv_step (move : Move) (s : State) (hlive : Live move s) (h : Inv s) :
    Inv (step ids move s) := by
  have hos := h.os
  cases move with
  | ap index =>
    simp only [step]
    split
    · exact inv_stepAp h hlive
    · exact h
  | wake w =>
    simp only [step]
    split
    · next hidle =>
      obtain ⟨hstate, -, hfresh, hvector⟩ := hidle
      rw [hstate] at hos
      have hcommand : s.command = 0 := hos
      exact h.of_no_command hcommand
        ⟨hcommand, rfl, hvector, List.mem_cons_self, h.in_loop hfresh⟩ rfl
        (fun i hi => List.mem_cons_of_mem _ hi) fun w hw => hw
    · exact h
  | os =>
    cases hstate : s.os with
    | idle =>
      simp only [step, hstate]
      exact h
    | writeVector w =>
      rw [hstate] at hos
      obtain ⟨hcommand, hid, hne, hbegun, hloop⟩ := hos
      simp only [step, hstate]
      exact h.of_no_command hcommand ⟨hcommand, hid, rfl, hne, hbegun, hloop⟩ rfl
        (fun i hi => hi) fun w hw => hw
    | writeCommand w =>
      rw [hstate] at hos
      obtain ⟨hcommand, hid, hvector, -, hbegun, hloop⟩ := hos
      simp only [step, hstate]
      exact h.of_no_command hcommand
        ⟨hid, hvector, hbegun, List.mem_cons_self, Or.inl ⟨rfl, hloop⟩⟩ rfl
        (fun i hi => hi) fun w hw => List.mem_cons_of_mem _ hw
    | waiting w =>
      simp only [step, hstate]
      split
      · next hcommand =>
        exact h.of_no_command hcommand hcommand rfl (fun i hi => hi) fun w hw => hw
      · exact h

/-! ### Runs -/

theorem inv_start : Inv start := ⟨rfl, fun _ => trivial⟩

/-- In every interleaving in which nobody finds its own APIC ID but under a command, every
    state is safe. -/
theorem mailbox_safe (ids : List Nat) (moves more : List Move)
    (hlive : Machine.Guarded (step ids) Live start (moves ++ more)) :
    Safe (Machine.run (step ids) start moves) :=
  (Machine.run_invariant_of_guarded (fun move s => inv_step move s) inv_start
    hlive.of_append).safe

/-- What one processor does when it is claimed. -/
def claimed (index : Nat) : List Move := List.replicate 4 (.ap index)

/-- A wake from its first store to its command. -/
def command (target vector : Nat) : List Move := [.wake ⟨target, vector⟩, .os, .os]

/-- Two processors woken in turn, the second of which polls all the while. -/
theorem mailbox_safe_sample :
    Safe (Machine.run (step [1, 2]) start
      (command 1 0x1000 ++ [.ap 2, .ap 2] ++ claimed 1 ++ [.os] ++ command 2 0x2000 ++ claimed 2)) :=
  mailbox_safe [1, 2] _ [.os] (by decide)

/-- The second processor reads the command of the first one's wake, and then its own APIC
    ID, which is there before its vector and its command are: it goes to the first one's
    vector, and the wake that was meant for it is never acknowledged. -/
theorem not_safe_of_stale_command : ∃ moves : List Move,
    (Machine.run (step [1, 2]) start moves).aps 2 = .left 0x1000 ∧
      (Machine.run (step [1, 2]) start moves).os = .waiting ⟨2, 0x2000⟩ ∧
        (Machine.run (step [1, 2]) start moves).command = 1 ∧
          ¬ Safe (Machine.run (step [1, 2]) start moves) := by
  refine ⟨command 1 0x1000 ++ [.ap 2] ++ claimed 1 ++ [.os, .wake ⟨2, 0x2000⟩] ++
    List.replicate 3 (.ap 2) ++ [.os, .os], by decide, by decide, by decide, fun hsafe => ?_⟩
  exact hsafe.waiting_in_loop ⟨2, 0x2000⟩ (by decide) (by decide) 0x1000 (by decide)

end BootShim.Mailbox
