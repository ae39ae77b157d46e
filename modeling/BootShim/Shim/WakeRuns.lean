-- SUMMARY: What the wake guarantees against any host: the order of its requests, when it writes to the shared page, and how it ends.
import BootShim.Shim.Wake

/-!
# Waking against any host

The shim has eight requests to make, in a fixed order, and goes on only while each is
granted. An invariant says at each label how many have been; from it follow when the
shared page is written, what has happened once the kernel is entered, and which number a
termination carries.
-/

namespace BootShim.Wake

open Bytes Layout

/-! ## The eight requests -/

def Event.isWrite : Event → Bool
  | .write _ _ => true
  | _ => false

/-- What is said, without the writes in between. -/
def dialogue (log : List Event) : List Event := log.filter fun e => !e.isWrite

/-- What the shim wants of the processor or of the host. -/
inductive Request where
  | rescind
  | share
  | register
  | interrupt (icr : Nat)
  | unshare
  | validate
deriving DecidableEq

/-- INIT, for all but the processor itself. -/
@[simp] abbrev icrInit : Nat := 0xc4500

/-- SIPI, for all but the processor itself. -/
@[simp] abbrev icrSipi : Nat := 0xc4600

/-- The requests in order. Step numbers count from 1. -/
def requests : List Request :=
  [.rescind, .share, .register, .interrupt icrInit, .interrupt icrSipi, .interrupt icrSipi,
    .unshare, .validate]

/-- The GHCB asks the host to write the four bytes `icr` to the local APIC's ICR. The valid
    bitmap has a bit for each 8-byte field: exit code, both infos and scratch. -/
structure AsksWrite (ghcb : Memory) (icr : Nat) : Prop where
  exit_code : ghcb.read 8 (ghcbAt + 0x390) = 0x80000002
  info_1 : ghcb.read 8 (ghcbAt + 0x398) = 0xfee00300
  info_2 : ghcb.read 8 (ghcbAt + 0x3a0) = 4
  scratch : ghcb.read 8 (ghcbAt + 0x3a8) = snpGhcb + 0x800
  data : ghcb.read 4 (ghcbAt + 0x800) = icr
  valid : ghcb.read 16 (ghcbAt + 0x3f0) =
    2 ^ (0x390 / 8) + 2 ^ (0x398 / 8) + 2 ^ (0x3a0 / 8) + 2 ^ (0x3a8 / 8)
  version : ghcb.read 2 (ghcbAt + 0xffa) = 2
  usage : ghcb.read 4 (ghcbAt + 0xffc) = 0

/-- The event makes the request. -/
def Request.Asked : Request → Event → Prop
  | .rescind, .pvalidate gpa size edx _ => gpa = snpGhcb ∧ size = 0 ∧ edx = 0
  | .share, .vmgexit request _ _ _ => request = snpGhcb + 2 * 2 ^ 52 + 0x14
  | .register, .vmgexit request _ _ _ => request = snpGhcb + 0x12
  | .interrupt icr, .vmgexit request ghcb _ _ => request = snpGhcb ∧ AsksWrite ghcb icr
  | .unshare, .vmgexit request _ _ _ => request = snpGhcb + 1 * 2 ^ 52 + 0x14
  | .validate, .pvalidate gpa size edx _ => gpa = snpGhcb ∧ size = 0 ∧ edx = 1
  | _, _ => False

/-- The event's answer grants it. -/
def Request.Granted : Request → Event → Prop
  | .rescind, .pvalidate _ _ _ status => status = 0
  | .share, .vmgexit _ _ response _ => response / 2 ^ 32 = 0 ∧ response % 2 ^ 12 = 0x15
  | .register, .vmgexit _ _ response _ => response = snpGhcb + 0x13
  | .interrupt _, .vmgexit _ _ _ ghcb' => ghcb'.read 4 (ghcbAt + 0x398) = 0
  | .unshare, .vmgexit _ _ response _ => response / 2 ^ 32 = 0 ∧ response % 2 ^ 12 = 0x15
  | .validate, .pvalidate _ _ _ status => status = 0
  | _, _ => False

/-- The first `k` requests, each made once, in order, and granted. -/
def Through (k : Nat) (d : List Event) : Prop :=
  List.Forall₂ (fun r e => Request.Asked r e ∧ Request.Granted r e) (requests.take k) d

/-- After `k` granted requests the next one was made and not granted. -/
def Refused (k : Nat) (d : List Event) : Prop :=
  ∃ d' r e, d = d' ++ [e] ∧ Through k d' ∧ requests[k]? = some r ∧ r.Asked e ∧ ¬ r.Granted e

/-- The page has been rescinded, shared and registered, and not yet asked back. -/
def WhileShared (log : List Event) : Prop := ∃ k, 3 ≤ k ∧ k ≤ 6 ∧ Through k (dialogue log)

/-- A request to the GHCB MSR to end the guest: reason set 0xf and a reason code. -/
structure Terminates (request code : Nat) : Prop where
  type : request % 2 ^ 12 = 0x100
  reason_set : request / 2 ^ 12 % 2 ^ 4 = 0xf
  reason_code : request / 2 ^ 16 = code

/-! ### Logs -/

@[simp] theorem dialogue_append (log log' : List Event) :
    dialogue (log ++ log') = dialogue log ++ dialogue log' := List.filter_append _ _

@[simp] theorem dialogue_writes (ws : List (Nat × List UInt8)) :
    dialogue (ws.map fun x => .write x.1 x.2) = [] := by
  induction ws with
  | nil => rfl
  | cons x ws ih => exact ih

@[simp] theorem dialogue_singleton_pvalidate (gpa size validate : Nat) (status : UInt32) :
    dialogue [.pvalidate gpa size validate status] = [.pvalidate gpa size validate status] := rfl

@[simp] theorem dialogue_singleton_vmgexit (request response : Nat) (ghcb ghcb' : Memory) :
    dialogue [.vmgexit request ghcb response ghcb'] = [.vmgexit request ghcb response ghcb'] := rfl

theorem Through.length {k : Nat} {d : List Event} (h : Through k d) : d.length = min k 8 := by
  have hlen := h.length_eq
  rw [List.length_take] at hlen
  exact hlen.symm

theorem Through.snoc {k : Nat} {d : List Event} {r : Request} {e : Event} (h : Through k d)
    (hr : requests[k]? = some r) (hasked : r.Asked e) (hgranted : r.Granted e) :
    Through (k + 1) (d ++ [e]) := by
  rw [Through, List.take_add_one, hr]
  exact List.rel_append h (.cons ⟨hasked, hgranted⟩ .nil)

/-- A log whose writes all go to the page while it is shared. -/
inductive Guarded : List Event → Prop where
  | nil : Guarded []
  | said {log : List Event} {e : Event} (h : Guarded log) (he : e.isWrite = false) :
      Guarded (log ++ [e])
  | wrote {log : List Event} {a : Nat} {bs : List UInt8} (h : Guarded log)
      (hshared : WhileShared log) (hlo : ghcbAt ≤ a) (hhi : a + bs.length ≤ ghcbAt + page) :
      Guarded (log ++ [.write a bs])

theorem Guarded.writes {log : List Event} (h : Guarded log) (hshared : WhileShared log)
    {ws : List (Nat × List UInt8)}
    (hws : ∀ x ∈ ws, ghcbAt ≤ x.1 ∧ x.1 + x.2.length ≤ ghcbAt + page) :
    Guarded (log ++ ws.map fun x => .write x.1 x.2) := by
  induction ws generalizing log with
  | nil => simpa using h
  | cons x ws ih =>
    obtain ⟨hx, hws⟩ := List.forall_mem_cons.mp hws
    have hshared' : WhileShared (log ++ [.write x.1 x.2]) := by
      obtain ⟨k, hlo, hhi, hthrough⟩ := hshared
      refine ⟨k, hlo, hhi, ?_⟩
      rw [dialogue_append]
      exact (List.append_nil (dialogue log)).symm ▸ hthrough
    have hrest := ih (h.wrote hshared hx.1 hx.2) hshared' hws
    rwa [List.append_assoc] at hrest

/-- Where a write stands in such a log. -/
theorem Guarded.of_write {log pre post : List Event} {a : Nat} {bs : List UInt8} (h : Guarded log)
    (hlog : log = pre ++ .write a bs :: post) :
    WhileShared pre ∧ ghcbAt ≤ a ∧ a + bs.length ≤ ghcbAt + page := by
  induction h generalizing post with
  | nil => simp at hlog
  | said h he ih =>
    rcases List.eq_nil_or_concat post with rfl | ⟨post, x, rfl⟩
    · obtain ⟨-, hlast⟩ := List.append_inj' hlog rfl
      obtain rfl := (List.cons.inj hlast).1
      exact absurd he (by simp [Event.isWrite])
    · rw [List.concat_eq_append, ← List.cons_append, ← List.append_assoc] at hlog
      exact ih (List.append_inj' hlog rfl).1
  | wrote h hshared hlo hhi ih =>
    rcases List.eq_nil_or_concat post with rfl | ⟨post, x, rfl⟩
    · obtain ⟨rfl, hlast⟩ := List.append_inj' hlog rfl
      obtain ⟨rfl, rfl⟩ := Event.write.inj (List.cons.inj hlast).1
      exact ⟨hshared, hlo, hhi⟩
    · rw [List.concat_eq_append, ← List.cons_append, ← List.append_assoc] at hlog
      exact ih (List.append_inj' hlog rfl).1

/-! ### The GHCB -/

/-- Two blank words, and one byte of them set. -/
private theorem read_bitmap (m : Memory) (a : Nat) :
    (((m.store a (toLE 8 0)).store (a + 8) (toLE 8 0)).store (a + 14) (toLE 1 0x3c)).read 16 a =
      2 ^ (0x390 / 8) + 2 ^ (0x398 / 8) + 2 ^ (0x3a0 / 8) + 2 ^ (0x3a8 / 8) := by
  have hblank : (m.store a (toLE 8 0)).store (a + 8) (toLE 8 0) = m.clear a 16 := by
    have hword : toLE 8 0 = zeros 8 := by decide
    rw [hword, Memory.store_zeros, Memory.store_zeros, Memory.clear_clear]
  have hbytes : ((List.range 16).map fun i => (m.clear a 16).store (a + 14) (toLE 1 0x3c) (a + i)) =
      (List.range 16).map fun i => if i = 14 then 0x3c else 0 := by
    refine List.map_congr_left fun i hi => ?_
    have hlt := List.mem_range.mp hi
    split
    · next heq =>
      subst heq
      exact Memory.holds_store_self _ (a + 14) (toLE 1 0x3c) 0 (by decide)
    · next hne =>
      rw [Memory.store_of_not_mem (by rw [length_toLE]; omega), Memory.clear_of_mem (by omega)]
  rw [hblank, Memory.read, hbytes]
  decide

/-- What `send_ipi` writes asks for the interrupt, whatever the host left in the page. -/
theorem asksWrite_load (m : Memory) {icr : Nat} (hicr : icr < 2 ^ 32) :
    AsksWrite (m.load (ghcbWrites ghcbAt icr)) icr := by
  simp only [ghcbWrites, Memory.load, List.foldl_cons, List.foldl_nil]
  refine ⟨?_, ?_, ?_, ?_, ?_, ?_, ?_, ?_⟩
  · simp (disch := decide) only [Memory.read_store_of_disjoint]
    exact Memory.read_store_self _ 8 _ _
  · simp (disch := decide) only [Memory.read_store_of_disjoint]
    exact Memory.read_store_self _ 8 _ _
  · simp (disch := decide) only [Memory.read_store_of_disjoint]
    exact Memory.read_store_self _ 8 _ _
  · simp (disch := decide) only [Memory.read_store_of_disjoint]
    exact Memory.read_store_self _ 8 _ _
  · simp (disch := decide) only [Memory.read_store_of_disjoint]
    rw [Memory.read_store_self]
    exact Nat.mod_eq_of_lt hicr
  · simp (disch := decide) only [Memory.read_store_of_disjoint]
    exact read_bitmap _ (ghcbAt + 0x3f0)
  · simp (disch := decide) only [Memory.read_store_of_disjoint]
    exact Memory.read_store_self _ 2 _ _
  · exact Memory.read_store_self _ 4 _ _

/-! ## The invariant -/

/-- How many requests come before the one a call makes. -/
def Site.index : Site → Nat
  | .shared => 1
  | .registered => 2
  | .initSent => 3
  | .sipiSent => 4
  | .sipiResent => 5
  | .madePrivate => 6

/-- The request a call of `ghcb_msr` makes is a value for the MSR. -/
def Site.value : Site → Option Nat
  | .shared => some (snpGhcb + 2 * 2 ^ 52 + 0x14)
  | .registered => some (snpGhcb + 0x12)
  | .madePrivate => some (snpGhcb + 1 * 2 ^ 52 + 0x14)
  | _ => none

/-- The request a call of `send_ipi` makes is a value for the ICR. -/
def Site.icr : Site → Option Nat
  | .initSent => some icrInit
  | .sipiSent | .sipiResent => some icrSipi
  | _ => none

/-- Outside the calls, with the first `k` requests granted. -/
structure Home (k : Nat) (w : World) : Prop where
  rsp : w.rsp = bspStackTop
  through : Through k (dialogue w.log)

/-- In a call, which is to return to `site`. -/
structure Called (code : Code) (site : Site) (w : World) : Prop where
  rsp : w.rsp = bspStackTop - 8
  ret : w.mem.word (bspStackTop - 8) = code.addr site
  r15 : w.r15 = site.index + 1
  through : Through site.index (dialogue w.log)

/-- Behind a call of `ghcb_msr`, with the answer in RAX and not looked at. -/
structure Answered (k : Nat) (w : World) : Prop where
  rsp : w.rsp = bspStackTop
  r15 : w.r15 = k + 1
  rax : w.rax < 2 ^ 64
  asked : ∃ d r request ghcb ghcb',
    dialogue w.log = d ++ [.vmgexit request ghcb w.rax ghcb'] ∧ Through k d ∧
      requests[k]? = some r ∧ r.Asked (.vmgexit request ghcb w.rax ghcb')

/-- What holds at each label. -/
def At (code : Code) (entry : Nat) (w : World) : Label → Prop
  | .wakeAps => Home 0 w
  | .share => Home 1 w
  | .register => Home 2 w
  | .clear => Home 3 w
  | .ghcbMsr => ∃ site, site.value = some w.rax ∧ Called code site w
  | .sendIpi => ∃ site, site.icr = some w.rsi ∧ Called code site w ∧ w.rbx = ghcbAt
  | .behind site =>
    match site.icr with
    | none => Answered site.index w
    | some icr => Home (site.index + 1) w ∧ w.rbx = ghcbAt ∧ w.rsi = icr
  | .validateAgain => Home 7 w
  | .snpBootKernel => Home 8 w
  | .dieWake => ∃ k, k < 8 ∧ w.r15 = k + 1 ∧ Refused k (dialogue w.log)
  | .fatal => ∃ k d request ghcb response ghcb',
    dialogue w.log = d ++ [.vmgexit request ghcb response ghcb'] ∧ Refused k d ∧
      Terminates request (k + 1)
  | .jumped rip => rip = entry ∧ w.rsi = Layout.zeroPage ∧ Through 8 (dialogue w.log)
  | .lost _ => False

/-- The invariant of a run. -/
structure Inv (code : Code) (pg : List UInt8) (w : World) : Prop where
  shim : w.mem.Holds shimBase pg
  guarded : Guarded w.log
  at_pc : At code (getLE 8 pg shimData) w w.pc

/-- The wake is over. -/
def Stopped (w : World) : Prop := w.pc = .fatal ∨ ∃ rip, w.pc = .jumped rip

/-- How far a label is from the next request. -/
def weight : Label → Nat
  | .behind _ => 3
  | .share | .register | .clear | .validateAgain => 2
  | .ghcbMsr | .sendIpi | .wakeAps => 1
  | _ => 0

/-- A bound on the steps a run can still take. -/
def measure (w : World) : Nat := 4 * (10 - (dialogue w.log).length) + weight w.pc

/-- A step that keeps the invariant and comes closer to the end. -/
def Advances (code : Code) (pg : List UInt8) (w w' : World) : Prop :=
  Inv code pg w' ∧ (Stopped w' ∨ measure w' < measure w)

variable {code : Code} {pg : List UInt8} {answer : Answer} {w : World} {site : Site}

/-! ### Calls -/

variable (code site) in
/-- What a call leaves behind, wherever it goes. -/
theorem inv_call (target : Label) (hshim : w.mem.Holds shimBase pg) (hrsp : w.rsp = bspStackTop)
    (hr15 : w.r15 = site.index + 1) (hthrough : Through site.index (dialogue w.log)) :
    (call code site target w).mem.Holds shimBase pg ∧ Called code site (call code site target w) := by
  rw [call_eq code site target hrsp]
  refine ⟨hshim.store_of_disjoint (Or.inl ?_), rfl, Memory.word_store_self (code.lt site), hr15,
    hthrough⟩
  rw [length_toLE]
  decide

variable (site) in
/-- A call of `ghcb_msr` for the request in RAX. -/
theorem advances_call_ghcbMsr (hinv : Inv code pg w) {w' : World} (hhome : Home site.index w)
    (hweight : 1 < weight w.pc) (hmem : w'.mem = w.mem) (hlog : w'.log = w.log)
    (hrsp : w'.rsp = w.rsp) (hr15 : w'.r15 = site.index + 1) (hvalue : site.value = some w'.rax) :
    Advances code pg w (call code site .ghcbMsr w') := by
  have hrsp' : w'.rsp = bspStackTop := hrsp.trans hhome.rsp
  have hthrough : Through site.index (dialogue w'.log) := by
    rw [hlog]
    exact hhome.through
  obtain ⟨hshim, hcalled⟩ := inv_call code site .ghcbMsr (hmem ▸ hinv.shim) hrsp' hr15 hthrough
  have heq := call_eq code site .ghcbMsr hrsp'
  rw [heq] at hshim hcalled ⊢
  refine ⟨⟨hshim, hlog ▸ hinv.guarded, site, hvalue, hcalled⟩, Or.inr ?_⟩
  simp only [measure, hlog]
  exact Nat.add_lt_add_left hweight _

variable (site) in
/-- A call of `send_ipi` for the interrupt in RSI, behind writes to the shared page. -/
theorem advances_call_sendIpi (hinv : Inv code pg w) {w' : World} (hweight : 1 < weight w.pc)
    (hmem : w'.mem = w.mem) (hsaid : dialogue w'.log = dialogue w.log) (hguarded : Guarded w'.log)
    (hrsp : w'.rsp = bspStackTop) (hr15 : w'.r15 = site.index + 1)
    (hthrough : Through site.index (dialogue w.log)) (hrbx : w'.rbx = ghcbAt)
    (hicr : site.icr = some w'.rsi) :
    Advances code pg w (call code site .sendIpi w') := by
  obtain ⟨hshim, hcalled⟩ :=
    inv_call code site .sendIpi (hmem ▸ hinv.shim) hrsp hr15 (hsaid ▸ hthrough)
  have heq := call_eq code site .sendIpi hrsp
  rw [heq] at hshim hcalled ⊢
  refine ⟨⟨hshim, hguarded, site, hicr, hcalled, hrbx⟩, Or.inr ?_⟩
  simp only [measure, hsaid]
  exact Nat.add_lt_add_left hweight _

/-! ### One step -/

private theorem advances_share (hpc : w.pc = .share) (hinv : Inv code pg w) :
    Advances code pg w (step code answer w) := by
  have hat := hinv.at_pc
  rw [hpc] at hat
  simp only [step, hpc]
  exact advances_call_ghcbMsr .shared hinv hat (by rw [hpc]; decide) rfl rfl rfl rfl rfl

private theorem advances_register (hpc : w.pc = .register) (hinv : Inv code pg w) :
    Advances code pg w (step code answer w) := by
  have hat := hinv.at_pc
  rw [hpc] at hat
  simp only [step, hpc]
  exact advances_call_ghcbMsr .registered hinv hat (by rw [hpc]; decide) rfl rfl rfl rfl rfl

private theorem advances_sipiResent (hpc : w.pc = .behind .sipiResent) (hinv : Inv code pg w) :
    Advances code pg w (step code answer w) := by
  have hat := hinv.at_pc
  rw [hpc] at hat
  simp only [step, hpc]
  exact advances_call_ghcbMsr .madePrivate hinv hat.1 (by rw [hpc]; decide) rfl rfl rfl rfl
    rfl

private theorem advances_clear (hpc : w.pc = .clear) (hinv : Inv code pg w) :
    Advances code pg w (step code answer w) := by
  have hat : Home 3 w := by
    have hat := hinv.at_pc
    rw [hpc] at hat
    exact hat
  have hshared : WhileShared w.log := ⟨3, le_rfl, by decide, hat.through⟩
  have hlen : (List.replicate 512 (toLE 8 0)).flatten.length = page := by
    simp only [List.length_flatten, List.map_replicate, length_toLE, List.sum_replicate,
      smul_eq_mul, page]
  have halias : sharedAlias ≤ ghcbAt := by decide
  simp only [step, hpc, repStosq, store_shared halias]
  refine advances_call_sendIpi .initSent hinv (by rw [hpc]; decide) rfl ?_ ?_ hat.rsp rfl
    hat.through rfl rfl
  · rw [dialogue_append]
    exact List.append_nil _
  · exact hinv.guarded.wrote hshared le_rfl (by rw [hlen])

private theorem advances_initSent (hpc : w.pc = .behind .initSent) (hinv : Inv code pg w) :
    Advances code pg w (step code answer w) := by
  have hat := hinv.at_pc
  rw [hpc] at hat
  obtain ⟨hhome, hrbx, -⟩ := hat
  simp only [step, hpc]
  exact advances_call_sendIpi .sipiSent hinv (by rw [hpc]; decide) rfl rfl hinv.guarded
    hhome.rsp rfl hhome.through hrbx rfl

private theorem advances_sipiSent (hpc : w.pc = .behind .sipiSent) (hinv : Inv code pg w) :
    Advances code pg w (step code answer w) := by
  have hat := hinv.at_pc
  rw [hpc] at hat
  obtain ⟨hhome, hrbx, hrsi⟩ := hat
  simp only [step, hpc]
  exact advances_call_sendIpi .sipiResent hinv (by rw [hpc]; decide) rfl rfl hinv.guarded
    hhome.rsp rfl hhome.through hrbx (congrArg some hrsi.symm)

theorem requests_of_value {site : Site} {value : Nat} (h : site.value = some value) :
    site.icr = none ∧ value < 2 ^ 64 ∧ ∃ r, requests[site.index]? = some r ∧
      ∀ ghcb response ghcb', r.Asked (.vmgexit value ghcb response ghcb') := by
  cases site <;> simp only [Site.value, Option.some.injEq, reduceCtorEq] at h <;> subst h <;>
    exact ⟨rfl, by decide, _, rfl, fun _ _ _ => rfl⟩

theorem requests_of_icr {site : Site} {icr : Nat} (h : site.icr = some icr) :
    icr < 2 ^ 32 ∧ 3 ≤ site.index ∧ site.index ≤ 5 ∧
      requests[site.index]? = some (.interrupt icr) := by
  cases site <;> simp only [Site.icr, Option.some.injEq, reduceCtorEq] at h <;> subst h <;> decide

theorem index_lt (site : Site) : site.index < 8 := by
  cases site <;> decide

/-- One more event of the dialogue outweighs any label. -/
theorem measure_lt {w' : World} {d : List Event} {e : Event} {k : Nat} (hk : k ≤ 8)
    (hd : d.length = k) (hw : dialogue w.log = d) (hw' : dialogue w'.log = d ++ [e]) :
    measure w' < measure w := by
  have hweight : weight w'.pc ≤ 3 := by
    unfold weight
    split <;> omega
  simp only [measure, hw, hw', List.length_append, List.length_singleton]
  omega

private theorem advances_ghcbMsr (hpc : w.pc = .ghcbMsr) (hinv : Inv code pg w) :
    Advances code pg w (step code answer w) := by
  have hat := hinv.at_pc
  rw [hpc] at hat
  obtain ⟨site, hvalue, hcalled⟩ := hat
  obtain ⟨hicr, hlt, r, hr, hasked⟩ := requests_of_value hvalue
  have hsaid : dialogue (w.log ++ [.vmgexit w.rax w.shared answer.msr.toNat answer.ghcb]) =
      dialogue w.log ++ [.vmgexit w.rax w.shared answer.msr.toNat answer.ghcb] := by
    rw [dialogue_append, dialogue_singleton_vmgexit]
  have hlen : (dialogue w.log).length = min site.index 8 := hcalled.through.length
  rw [step_ghcbMsr hpc hlt hcalled.rsp hcalled.ret]
  refine ⟨⟨hinv.shim, hinv.guarded.said rfl, ?_⟩,
    Or.inr (measure_lt (Nat.min_le_right _ _) hlen rfl hsaid)⟩
  simp only [At, hicr]
  exact ⟨rfl, hcalled.r15, answer.msr.toNat_lt, _, r, _, _, _, hsaid, hcalled.through, hr,
    hasked _ _ _⟩

private theorem advances_sendIpi (hpc : w.pc = .sendIpi) (hinv : Inv code pg w) :
    Advances code pg w (step code answer w) := by
  have hat := hinv.at_pc
  rw [hpc] at hat
  obtain ⟨site, hicr, hcalled, hrbx⟩ := hat
  obtain ⟨hlt, hge, hle, hr⟩ := requests_of_icr hicr
  have hsaid : dialogue ((w.log ++ (ghcbWrites ghcbAt w.rsi).map fun x => .write x.1 x.2) ++
      [.vmgexit snpGhcb (w.shared.load (ghcbWrites ghcbAt w.rsi)) answer.msr.toNat answer.ghcb]) =
      dialogue w.log ++
        [.vmgexit snpGhcb (w.shared.load (ghcbWrites ghcbAt w.rsi)) answer.msr.toNat answer.ghcb] := by
    rw [dialogue_append, dialogue_append, dialogue_writes, List.append_nil,
      dialogue_singleton_vmgexit]
  have hshared : WhileShared w.log := ⟨site.index, hge, by omega, hcalled.through⟩
  have hguarded : Guarded (w.log ++ (ghcbWrites ghcbAt w.rsi).map fun x => .write x.1 x.2) :=
    hinv.guarded.writes hshared le_of_mem_ghcbWrites
  have hasked : (Request.interrupt w.rsi).Asked (.vmgexit snpGhcb
      (w.shared.load (ghcbWrites ghcbAt w.rsi)) answer.msr.toNat answer.ghcb) :=
    ⟨rfl, asksWrite_load _ hlt⟩
  have hlen : (dialogue w.log).length = min site.index 8 := hcalled.through.length
  rw [step_sendIpi hpc hrbx hcalled.rsp hcalled.ret]
  refine ⟨⟨hinv.shim, hguarded.said rfl, ?_⟩,
    Or.inr (measure_lt (Nat.min_le_right _ _) hlen rfl hsaid)⟩
  by_cases hack : answer.ghcb.read 4 (ghcbAt + 0x398) = 0
  · simp only [hack, if_true, At, hicr]
    refine ⟨⟨rfl, ?_⟩, hrbx, trivial⟩
    rw [hsaid]
    exact hcalled.through.snoc hr hasked hack
  · simp only [hack, if_false, At]
    exact ⟨site.index, index_lt site, hcalled.r15, _, _, _, hsaid, hcalled.through, hr, hasked, hack⟩

/-! ### Answers -/

/-- The two checks let an answer through exactly when it grants the state change. -/
theorem checkStateChange_eq (next : Label) :
    ∃ rax rdx, checkStateChange next w =
      { w with
        rax := rax
        rdx := rdx
        pc := if w.rax / 2 ^ 32 = 0 ∧ w.rax % 2 ^ 12 = 0x15 then next else .dieWake } := by
  have hhigh : w.rax >>> 32 = w.rax / 2 ^ 32 := Nat.shiftRight_eq_div_pow _ _
  have hlow : w.rax % 2 ^ 32 &&& 0xfff = w.rax % 2 ^ 12 := by
    rw [show 0xfff = 2 ^ 12 - 1 by decide, Nat.and_two_pow_sub_one_eq_mod]
    omega
  simp only [checkStateChange, hhigh, hlow, ne_eq, ite_not]
  by_cases h : w.rax / 2 ^ 32 = 0
  · by_cases h' : w.rax % 2 ^ 12 = 0x15
    · exact ⟨_, _, by simp only [h, h', if_true, and_self]; rfl⟩
    · exact ⟨_, _, by simp only [h, h', if_true, if_false, and_false]; rfl⟩
  · exact ⟨_, _, by simp only [h, if_false, false_and]; rfl⟩

/-- An answer that is let through takes the shim to its next request, any other one ends it. -/
theorem advances_answer {k : Nat} {r : Request} (next : Label) {rax rdx : Nat}
    (hinv : Inv code pg w) (hanswered : Answered k w) (hr : requests[k]? = some r)
    (hweight : weight next < weight w.pc) (hpos : 0 < weight w.pc)
    (hnext : ∀ w', Home (k + 1) w' → At code (getLE 8 pg shimData) w' next)
    {granted : Prop} [Decidable granted]
    (hgranted : ∀ request ghcb ghcb', r.Granted (.vmgexit request ghcb w.rax ghcb') ↔ granted) :
    Advances code pg w
      { w with rax := rax, rdx := rdx, pc := if granted then next else .dieWake } := by
  obtain ⟨d, r', request, ghcb, ghcb', hlog, hthrough, hr', hasked⟩ := hanswered.asked
  obtain rfl : r = r' := Option.some.inj (hr.symm.trans hr')
  have hlt : k < 8 := by
    by_contra hge
    rw [List.getElem?_eq_none (by simp only [requests, List.length_cons, List.length_nil]; omega)] at hr
    exact absurd hr nofun
  by_cases hg : granted
  · simp only [hg, if_true]
    refine ⟨⟨hinv.shim, hinv.guarded, hnext _ ⟨hanswered.rsp, ?_⟩⟩, Or.inr ?_⟩
    · rw [hlog]
      exact hthrough.snoc hr hasked ((hgranted _ _ _).mpr hg)
    · exact Nat.add_lt_add_left hweight _
  · simp only [hg, if_false]
    refine ⟨⟨hinv.shim, hinv.guarded, k, hlt, hanswered.r15, d, r, _, hlog, hthrough, hr, hasked, ?_⟩,
      Or.inr (Nat.add_lt_add_left hpos _)⟩
    rw [hgranted]
    exact hg

/-- Behind a page state change, the two checks decide. -/
theorem advances_checkStateChange {k : Nat} {r : Request} (next : Label) (hinv : Inv code pg w)
    (hstep : step code answer w = checkStateChange next w) (hanswered : Answered k w)
    (hr : requests[k]? = some r) (hchange : r = .share ∨ r = .unshare)
    (hweight : weight next < weight w.pc)
    (hnext : ∀ w', Home (k + 1) w' → At code (getLE 8 pg shimData) w' next) :
    Advances code pg w (step code answer w) := by
  obtain ⟨rax, rdx, heq⟩ := checkStateChange_eq (w := w) next
  rw [hstep, heq]
  refine advances_answer next hinv hanswered hr hweight (Nat.zero_lt_of_lt hweight) hnext
    fun _ _ _ => ?_
  rcases hchange with rfl | rfl <;> exact Iff.rfl

private theorem advances_shared (hpc : w.pc = .behind .shared) (hinv : Inv code pg w) :
    Advances code pg w (step code answer w) := by
  have hat := hinv.at_pc
  rw [hpc] at hat
  exact advances_checkStateChange .register hinv (by simp only [step, hpc]) hat rfl (Or.inl rfl)
    (by rw [hpc]; decide) (fun w' h => h)

private theorem advances_madePrivate (hpc : w.pc = .behind .madePrivate) (hinv : Inv code pg w) :
    Advances code pg w (step code answer w) := by
  have hat := hinv.at_pc
  rw [hpc] at hat
  exact advances_checkStateChange .validateAgain hinv (by simp only [step, hpc]) hat rfl
    (Or.inr rfl) (by rw [hpc]; decide) (fun w' h => h)

private theorem advances_registered (hpc : w.pc = .behind .registered) (hinv : Inv code pg w) :
    Advances code pg w (step code answer w) := by
  have hat := hinv.at_pc
  rw [hpc] at hat
  have hvalue : snpGhcb ||| 0x13 = snpGhcb + 0x13 := by decide
  have hstep : step code answer w =
      { w with
        rax := w.rax
        rdx := w.rdx
        pc := if w.rax = snpGhcb + 0x13 then .clear else .dieWake } := by
    simp only [step, hpc, hvalue, ne_eq, ite_not]
    split <;> rfl
  rw [hstep]
  exact advances_answer (r := .register) .clear hinv hat rfl (by rw [hpc]; decide) (by rw [hpc]; decide)
    (fun w' h => h) (fun _ _ _ => Iff.rfl)

/-- A PVALIDATE that reports zero takes the shim on, any other one ends it. -/
theorem advances_pvalidate {k rcx rdx : Nat} {r : Request} (next : Label) {e : Event}
    (hinv : Inv code pg w) (hhome : Home k w) (hk : k < 8) (hr : requests[k]? = some r)
    (he : e.isWrite = false) (hasked : r.Asked e) (hgranted : r.Granted e ↔ answer.status = 0)
    (hnext : ∀ w', Home (k + 1) w' → At code (getLE 8 pg shimData) w' next) :
    Advances code pg w
      { w with
        r15 := k + 1
        rax := answer.status.toNat
        rcx := rcx
        rdx := rdx
        log := w.log ++ [e]
        pc := if answer.status = 0 then next else .dieWake } := by
  have hsaid : dialogue (w.log ++ [e]) = dialogue w.log ++ [e] := by
    rw [dialogue_append]
    simp [dialogue, he]
  have hlen : (dialogue w.log).length = min k 8 := hhome.through.length
  refine ⟨⟨hinv.shim, hinv.guarded.said he, ?_⟩,
    Or.inr (measure_lt (Nat.min_le_right _ _) hlen rfl hsaid)⟩
  by_cases hzero : answer.status = 0
  · simp only [hzero, if_true]
    refine hnext _ ⟨hhome.rsp, ?_⟩
    rw [hsaid]
    exact hhome.through.snoc hr hasked (hgranted.mpr hzero)
  · simp only [hzero, if_false]
    refine ⟨k, hk, rfl, _, r, e, hsaid, hhome.through, hr, hasked, ?_⟩
    rw [hgranted]
    exact hzero

/-- The status as the code tests it. -/
theorem ite_status {α : Type} (answer : Answer) (a b : α) :
    (if answer.status.toNat % 2 ^ 32 ≠ 0 then a else b) = if answer.status = 0 then b else a := by
  have hlt : answer.status.toNat % 2 ^ 32 = answer.status.toNat :=
    Nat.mod_eq_of_lt answer.status.toNat_lt
  have hzero : answer.status.toNat = 0 ↔ answer.status = 0 := by
    rw [← UInt32.toNat_inj]
    rfl
  simp only [hlt, hzero, ne_eq, ite_not]

private theorem advances_wakeAps (hpc : w.pc = .wakeAps) (hinv : Inv code pg w) :
    Advances code pg w (step code answer w) := by
  have hat := hinv.at_pc
  rw [hpc] at hat
  have hstep : step code answer w =
      { w with
        r15 := 1
        rax := answer.status.toNat
        rcx := 0
        rdx := 0
        log := w.log ++ [.pvalidate snpGhcb 0 0 answer.status]
        pc := if answer.status = 0 then .share else .dieWake } := by
    simp only [step, hpc, pvalidate, ite_status]
    split <;> rfl
  rw [hstep]
  exact advances_pvalidate (r := .rescind) .share hinv hat (by decide) rfl rfl ⟨rfl, rfl, rfl⟩
    Iff.rfl (fun w' h => h)

private theorem advances_validateAgain (hpc : w.pc = .validateAgain) (hinv : Inv code pg w) :
    Advances code pg w (step code answer w) := by
  have hat := hinv.at_pc
  rw [hpc] at hat
  have hstep : step code answer w =
      { w with
        r15 := 8
        rax := answer.status.toNat
        rcx := 0
        rdx := 1
        log := w.log ++ [.pvalidate snpGhcb 0 1 answer.status]
        pc := if answer.status = 0 then .snpBootKernel else .dieWake } := by
    simp only [step, hpc, pvalidate, ite_status]
    split <;> rfl
  rw [hstep]
  exact advances_pvalidate (r := .validate) .snpBootKernel hinv hat (by decide) rfl rfl
    ⟨rfl, rfl, rfl⟩ Iff.rfl (fun w' h => h)

/-- The kernel's entry is the first word of the shim's data. -/
private theorem advances_snpBootKernel (hpage : pg.length = page) (hpc : w.pc = .snpBootKernel)
    (hinv : Inv code pg w) : Advances code pg w (step code answer w) := by
  have hat := hinv.at_pc
  rw [hpc] at hat
  have hentry : w.mem.word dataAt = getLE 8 pg shimData :=
    hinv.shim.word (by rw [hpage]; decide)
  simp only [step, hpc, hentry]
  exact ⟨⟨hinv.shim, hinv.guarded, rfl, rfl, hat.through⟩, Or.inl (Or.inr ⟨_, rfl⟩)⟩

/-- What `die_wake` puts in the GHCB MSR. -/
theorem terminates {k : Nat} (hk : k < 8) :
    Terminates (0 % 2 ^ 32 * 2 ^ 32 + (((k + 1) % 2 ^ 32) <<< 16 % 2 ^ 32 ||| 0xf100) % 2 ^ 32)
      (k + 1) := by
  constructor <;> interval_cases k <;> decide

private theorem advances_dieWake (hpc : w.pc = .dieWake) (hinv : Inv code pg w) :
    Advances code pg w (step code answer w) := by
  have hat := hinv.at_pc
  rw [hpc] at hat
  obtain ⟨k, hk, hr15, hrefused⟩ := hat
  simp only [step, hpc, hr15, wrmsr, vmgexit]
  refine ⟨⟨hinv.shim, hinv.guarded.said rfl, ?_⟩, Or.inl (Or.inl rfl)⟩
  exact ⟨k, _, _, _, _, _, dialogue_append _ _, hrefused, terminates hk⟩

theorem step_stopped (h : Stopped w) : step code answer w = w := by
  rcases h with h | ⟨rip, h⟩ <;> simp only [step, h]

/-- Each label's stretch of code keeps the invariant, and leads on. -/
theorem advances_step (hpage : pg.length = page) (hinv : Inv code pg w) (hnot : ¬ Stopped w) :
    Advances code pg w (step code answer w) := by
  cases hpc : w.pc with
  | wakeAps => exact advances_wakeAps hpc hinv
  | share => exact advances_share hpc hinv
  | register => exact advances_register hpc hinv
  | clear => exact advances_clear hpc hinv
  | ghcbMsr => exact advances_ghcbMsr hpc hinv
  | sendIpi => exact advances_sendIpi hpc hinv
  | behind site =>
    cases site with
    | shared => exact advances_shared hpc hinv
    | registered => exact advances_registered hpc hinv
    | initSent => exact advances_initSent hpc hinv
    | sipiSent => exact advances_sipiSent hpc hinv
    | sipiResent => exact advances_sipiResent hpc hinv
    | madePrivate => exact advances_madePrivate hpc hinv
  | validateAgain => exact advances_validateAgain hpc hinv
  | snpBootKernel => exact advances_snpBootKernel hpage hpc hinv
  | dieWake => exact advances_dieWake hpc hinv
  | fatal => exact absurd (Or.inl hpc) hnot
  | jumped rip => exact absurd (Or.inr ⟨rip, hpc⟩) hnot
  | lost rip =>
    have hat := hinv.at_pc
    rw [hpc] at hat
    exact hat.elim

theorem inv_step (hpage : pg.length = page) (answer : Answer) (w : World)
    (hinv : Inv code pg w) : Inv code pg (step code answer w) := by
  by_cases hstopped : Stopped w
  · rwa [step_stopped hstopped]
  · exact (advances_step hpage hinv hstopped).1

/-! ## The guarantees -/

/-- Where the shim takes up the wake: `validate_next` has been through its list. -/
structure Enters (pg : List UInt8) (w : World) : Prop where
  pc : w.pc = .wakeAps
  rsp : w.rsp = bspStackTop
  shim : w.mem.Holds shimBase pg
  log : w.log = []

theorem Enters.inv (h : Enters pg w) : Inv code pg w := by
  refine ⟨h.shim, h.log ▸ Guarded.nil, ?_⟩
  rw [h.pc]
  exact ⟨h.rsp, h.log ▸ List.Forall₂.nil⟩

/-- Every run ends. -/
theorem exists_stopped (hpage : pg.length = page) (henter : Enters pg w) :
    ∃ n, ∀ answers, n ≤ answers.length → Stopped (Machine.run (step code) w answers) := by
  refine ⟨measure w + 1, fun answers hlen => ?_⟩
  exact Machine.run_done (P := Inv code pg) measure (inv_step hpage)
    (fun answer w hw => by rwa [step_stopped hw])
    (fun answer w hw hnot => (advances_step hpage hw hnot).2) henter.inv hlen

/-- What holds after any number of steps. -/
structure Guarantees (entry : Nat) (w : World) : Prop where
  /-- A write goes to the GHCB, and behind the third granted request but not behind the
      seventh, which asks for the page back. -/
  writes : ∀ pre a bs post, w.log = pre ++ .write a bs :: post →
    WhileShared pre ∧ ghcbAt ≤ a ∧ a + bs.length ≤ ghcbAt + page
  /-- The kernel is entered behind all eight requests, each made once and granted. -/
  boots : ∀ rip, w.pc = .jumped rip →
    rip = entry ∧ w.rsi = Layout.zeroPage ∧ Through 8 (dialogue w.log)
  /-- The wake is given up with the number of the request that was not granted. -/
  fails : w.pc = .fatal → ∃ k d request ghcb response ghcb',
    dialogue w.log = d ++ [.vmgexit request ghcb response ghcb'] ∧ Refused k d ∧
      Terminates request (k + 1)
  /-- Returns go where the calls were made. -/
  returns : ∀ rip, w.pc ≠ .lost rip

theorem Inv.guarantees (hinv : Inv code pg w) : Guarantees (getLE 8 pg shimData) w := by
  refine ⟨fun pre a bs post hlog => hinv.guarded.of_write hlog, fun rip hpc => ?_, fun hpc => ?_,
    fun rip hpc => ?_⟩
  · have hat := hinv.at_pc
    rw [hpc] at hat
    exact hat
  · have hat := hinv.at_pc
    rw [hpc] at hat
    exact hat
  · have hat := hinv.at_pc
    rw [hpc] at hat
    exact hat

/-- Whatever the host and PVALIDATE answer, the shim writes to the shared page only while
    it is rescinded, shared and registered, enters the kernel only behind all eight granted
    requests, ends everything else with the number of the request that failed, and ends. -/
theorem wake_guarantees (hpage : pg.length = page) (henter : Enters pg w) :
    (∀ answers, Guarantees (getLE 8 pg shimData) (Machine.run (step code) w answers)) ∧
      ∃ n, ∀ answers, n ≤ answers.length → Stopped (Machine.run (step code) w answers) := by
  have hinv : Inv code pg w := henter.inv
  exact ⟨fun answers => (Machine.run_invariant (inv_step hpage) hinv answers).guarantees,
    exists_stopped hpage henter⟩

/-! ## Granting hosts -/

/-- What a call of `ghcb_msr` hopes to be answered. -/
def Site.reply : Site → Nat
  | .registered => snpGhcb + 0x13
  | _ => 0x15

/-- Nothing has been refused, and what the shim has yet to look at is no refusal. -/
structure Granted (w : World) : Prop where
  alive : w.pc ≠ .dieWake ∧ w.pc ≠ .fatal
  answer : ∀ site, w.pc = .behind site → site.icr = none → w.rax = site.reply

/-- Neither given up nor behind a call. -/
def Label.Calm : Label → Prop
  | .dieWake | .fatal | .behind _ => False
  | _ => True

theorem Granted.of_pc {target : Label} (hpc : w.pc = target) (hcalm : target.Calm) : Granted w := by
  subst hpc
  refine ⟨⟨fun h => ?_, fun h => ?_⟩, fun site h => ?_⟩
  all_goals
    rw [h] at hcalm
    exact hcalm.elim

theorem pc_checkStateChange (next : Label) (h : w.rax = 0x15) :
    (checkStateChange next w).pc = next := by
  obtain ⟨rax, rdx, heq⟩ := checkStateChange_eq (w := w) next
  rw [heq, h]
  rfl

/-- Wherever the wake stands, the host has an answer that does not end it. -/
theorem exists_granted (hinv : Inv code pg w) (hnot : ¬ Stopped w) (h : Granted w) :
    ∃ answer, Granted (step code answer w) := by
  have hat := hinv.at_pc
  -- Both PVALIDATEs succeed, every other answer is the one hoped for.
  let grant (msr : Nat) : Answer := ⟨0, msr.toUInt64, fun _ => 0⟩
  cases hpc : w.pc with
  | wakeAps | validateAgain =>
    refine ⟨grant 0, ?_⟩
    simp only [step, hpc, pvalidate, grant, UInt32.toNat_zero, Nat.zero_mod, ne_eq, not_true,
      if_false]
    exact .of_pc rfl trivial
  | share | register | clear =>
    refine ⟨grant 0, ?_⟩
    simp only [step, hpc]
    exact .of_pc rfl trivial
  | snpBootKernel =>
    refine ⟨grant 0, ?_⟩
    simp only [step, hpc]
    exact .of_pc rfl trivial
  | behind site =>
    refine ⟨grant 0, ?_⟩
    have hreply := h.answer site hpc
    cases site with
    | shared | madePrivate =>
      simp only [step, hpc]
      exact .of_pc (pc_checkStateChange _ (hreply rfl)) trivial
    | registered =>
      have hrax : w.rax = snpGhcb ||| 0x13 := hreply rfl
      simp only [step, hpc, hrax, ne_eq, not_true, if_false]
      exact .of_pc rfl trivial
    | initSent | sipiSent | sipiResent =>
      simp only [step, hpc]
      exact .of_pc rfl trivial
  | ghcbMsr =>
    rw [hpc] at hat
    obtain ⟨site, hvalue, hcalled⟩ := hat
    obtain ⟨-, hlt, -⟩ := requests_of_value hvalue
    refine ⟨grant site.reply, ?_⟩
    rw [step_ghcbMsr hpc hlt hcalled.rsp hcalled.ret]
    refine ⟨by simp, fun site' hsite _ => ?_⟩
    obtain rfl := Label.behind.inj hsite
    cases site <;> rfl
  | sendIpi =>
    rw [hpc] at hat
    obtain ⟨site, hicr, hcalled, hrbx⟩ := hat
    refine ⟨grant 0, ?_⟩
    have hack : (grant 0).ghcb.read 4 (ghcbAt + 0x398) = 0 := by decide
    rw [step_sendIpi hpc hrbx hcalled.rsp hcalled.ret]
    simp only [hack, if_true]
    refine ⟨by simp, fun site' hsite hnone => ?_⟩
    obtain rfl := Label.behind.inj hsite
    simp [hnone] at hicr
  | dieWake => exact absurd hpc h.alive.1
  | fatal => exact absurd hpc h.alive.2
  | jumped rip => exact absurd (Or.inr ⟨rip, hpc⟩) hnot
  | lost rip =>
    rw [hpc] at hat
    exact hat.elim

/-- A host can have the kernel entered. -/
theorem exists_jumped (hpage : pg.length = page) (henter : Enters pg w) :
    ∃ answers rip, (Machine.run (step code) w answers).pc = .jumped rip := by
  obtain ⟨answers, ⟨-, hgranted⟩, hstopped⟩ :
      ∃ answers, (Inv code pg (Machine.run (step code) w answers) ∧
        Granted (Machine.run (step code) w answers)) ∧
          Stopped (Machine.run (step code) w answers) := by
    refine Machine.exists_run_done (P := fun w => Inv code pg w ∧ Granted w) measure
      (fun w hw hnot => ?_) ⟨henter.inv, .of_pc henter.pc trivial⟩
    obtain ⟨answer, hgranted⟩ := exists_granted hw.1 hnot hw.2
    obtain ⟨hinv, hnext⟩ : Advances code pg w (step code answer w) := advances_step hpage hw.1 hnot
    exact ⟨answer, ⟨hinv, hgranted⟩, hnext⟩
  obtain ⟨rip, hrip⟩ := hstopped.resolve_left hgranted.alive.2
  exact ⟨answers, rip, hrip⟩

/-! ## What the wake leaves alone -/

/-- Of private memory a step changes the word a call pushes and nothing else. -/
theorem mem_step (hinv : Inv code pg w) {a : Nat} (ha : a < bspStackTop - 8 ∨ bspStackTop ≤ a) :
    (step code answer w).mem a = w.mem a := by
  have hat := hinv.at_pc
  have hcall : ∀ {site : Site} {target : Label} {w' : World}, w'.rsp = bspStackTop →
      w'.mem = w.mem → (call code site target w').mem a = w.mem a := by
    intro site target w' hrsp hmem
    rw [call_eq code site target hrsp, hmem]
    refine Memory.store_of_not_mem ?_
    rw [length_toLE]
    have htop : 8 ≤ bspStackTop := by decide
    omega
  have hcheck : ∀ next : Label, (checkStateChange next w).mem = w.mem := by
    intro next
    obtain ⟨rax, rdx, heq⟩ := checkStateChange_eq (w := w) next
    rw [heq]
  cases hpc : w.pc with
  | wakeAps | validateAgain =>
    simp only [step, hpc]
    split <;> rfl
  | share | register =>
    rw [hpc] at hat
    simp only [step, hpc]
    exact hcall hat.rsp rfl
  | clear =>
    rw [hpc] at hat
    have halias : sharedAlias ≤ ghcbAt := by decide
    simp only [step, hpc, repStosq, store_shared halias]
    exact hcall hat.rsp rfl
  | behind site =>
    rw [hpc] at hat
    cases site with
    | shared | madePrivate =>
      simp only [step, hpc]
      rw [hcheck]
    | registered =>
      simp only [step, hpc]
      split <;> rfl
    | initSent | sipiSent | sipiResent =>
      simp only [step, hpc]
      exact hcall hat.1.rsp rfl
  | ghcbMsr =>
    rw [hpc] at hat
    obtain ⟨site, hvalue, hcalled⟩ := hat
    obtain ⟨-, hlt, -⟩ := requests_of_value hvalue
    rw [step_ghcbMsr hpc hlt hcalled.rsp hcalled.ret]
  | sendIpi =>
    rw [hpc] at hat
    obtain ⟨site, hicr, hcalled, hrbx⟩ := hat
    rw [step_sendIpi hpc hrbx hcalled.rsp hcalled.ret]
  | dieWake =>
    simp only [step, hpc]
    rfl
  | snpBootKernel | fatal | jumped | lost => simp only [step, hpc]

theorem mem_run (hpage : pg.length = page) (henter : Enters pg w) (answers : List Answer) {a : Nat}
    (ha : a < bspStackTop - 8 ∨ bspStackTop ≤ a) :
    (Machine.run (step code) w answers).mem a = w.mem a := by
  have hall : Inv code pg (Machine.run (step code) w answers) ∧
      (Machine.run (step code) w answers).mem a = w.mem a :=
    Machine.run_invariant (P := fun w' => Inv code pg w' ∧ w'.mem a = w.mem a)
      (fun answer w' hw => ⟨inv_step hpage answer w' hw.1, (mem_step hw.1 ha).trans hw.2⟩)
      ⟨henter.inv, rfl⟩ answers
  exact hall.2

/-- Calls 16 bytes apart. -/
def evenly : Code where
  addr site := shimBase + 16 * site.index
  injective := by
    intro a b h
    cases a <;> cases b <;> first | rfl | exact absurd h (by decide)
  lt site := by cases site <;> decide

/-- The wake takes up the walk's registers and memory, with a shared page and a GHCB MSR
    that may be anything. -/
def takeUp (s : Shim.Cpu SnpReset.Label) (shared : Memory) (msr : UInt64) : World :=
  { pc := .wakeAps, rsp := s.rsp, rsi := s.rsi, rdi := s.rdi, rax := s.rax, rbx := s.rbx,
    rcx := s.rcx, rdx := s.rdx, r15 := s.r15, mem := s.mem, shared := shared, msr := msr.toNat,
    log := [] }

/-- A walk with nothing left to do. -/
def rested (mem : Memory) : Shim.Cpu SnpReset.Label :=
  ⟨.wakeAps, bspStackTop, 0, 0, 0, 0, 0, 0, 0, 0, 0, 0, 0, false, mem, [], [], []⟩

/-- A shim with no ranges, at the start of its wake. -/
theorem wake_guarantees_sample : ∃ w : World, Enters (zeros page) w ∧
    (∀ answers, Guarantees 0 (Machine.run (step evenly) w answers)) ∧
      ∃ n, ∀ answers, n ≤ answers.length → Stopped (Machine.run (step evenly) w answers) := by
  have henter : Enters (zeros page)
      (takeUp (rested (Memory.store (fun _ => 0) shimBase (zeros page))) (fun _ => 0) 0) :=
    ⟨rfl, rfl, Memory.holds_store_self _ _ _, rfl⟩
  have hentry : getLE 8 (zeros page) shimData = 0 := by decide +kernel
  refine ⟨_, henter, ?_⟩
  rw [← hentry]
  exact wake_guarantees (length_zeros page) henter

/-- A host that grants everything sees the kernel entered. -/
example : (Machine.run (step evenly) (takeUp (rested fun _ => 0) (fun _ => 0) 0)
    (([0, 0, 0x15, 0, 0, snpGhcb.toUInt64 + 0x13, 0, 0, 0, 0, 0, 0, 0, 0, 0x15, 0, 0, 0]).map
      fun msr => ⟨0, msr, fun _ => 0⟩)).pc = .jumped 0 := by
  decide +kernel

/-! ## Behind the walk -/

/-- A walk that comes to its end hands over as the wake expects. -/
theorem enters_takeUp {blob : Image.ShimBlob} {entry ret : Nat} {ranges : List (Nat × Nat)}
    (h : Shim.Packed blob shimBase entry ranges pg ret) {s₀ : Shim.Cpu SnpReset.Label}
    (hstart : SnpReset.Start pg s₀) {outcomes : List SnpReset.Outcome}
    (hpc : (SnpReset.run ret s₀ outcomes).pc = .wakeAps) (shared : Memory) (msr : UInt64) :
    Enters pg (takeUp (SnpReset.run ret s₀ outcomes) shared msr) :=
  ⟨rfl, SnpReset.rsp_of_wakeAps h hstart hpc, (SnpReset.inv_run h hstart outcomes).sane.shim, rfl⟩

/-- From the start of the walk on, the kernel is entered where the builder says, behind all
    eight granted requests and with every listed page valid and zero. -/
theorem boots_after_walk {blob : Image.ShimBlob} {entry ret : Nat} {ranges : List (Nat × Nat)}
    (h : Shim.Packed blob shimBase entry ranges pg ret) {s₀ : Shim.Cpu SnpReset.Label}
    (hstart : SnpReset.Start pg s₀) {outcomes : List SnpReset.Outcome}
    (hpc : (SnpReset.run ret s₀ outcomes).pc = .wakeAps) (shared : Memory) (msr : UInt64)
    {answers : List Answer} {rip : Nat} {w : World}
    (hw : w = Machine.run (step code) (takeUp (SnpReset.run ret s₀ outcomes) shared msr) answers)
    (hboots : w.pc = .jumped rip) :
    rip = entry ∧ w.rsi = Layout.zeroPage ∧ Through 8 (dialogue w.log) ∧
      (SnpReset.run ret s₀ outcomes).taken = PageWalk.pagesOf page ranges := by
  have hinv : Inv code pg (takeUp (SnpReset.run ret s₀ outcomes) shared msr) :=
    (enters_takeUp h hstart hpc shared msr).inv
  have hrun : Inv code pg w :=
    hw ▸ Machine.run_invariant (inv_step (Image.length_shim h.packed)) hinv answers
  obtain ⟨hrip, hrsi, hthrough⟩ := hrun.guarantees.boots rip hboots
  have hentry : getLE 8 pg shimData = entry := by
    rw [Image.getLE_shim_entry h.packed]
    exact Nat.mod_eq_of_lt h.entry_lt
  have hat := (SnpReset.inv_run h hstart outcomes).at_pc
  rw [hpc] at hat
  exact ⟨hrip.trans hentry, hrsi, hthrough, hat.taken⟩

end BootShim.Wake
