-- SUMMARY: What an input-driven machine reaches whatever its inputs are, and simulation of one machine by stretches of another's steps.
import BootShim.Lib.Machine

/-!
# Reaching and simulating

`Reaches` is the liveness half of a Hoare triple over a machine that does not choose its
inputs: within a number of steps the goal is met, and up to there every state is safe.
`Simulates` says that each step of an abstract machine is such a stretch of a concrete
one, so that what the one reaches is reached by the other.
-/

namespace Machine

variable {σ ι α κ : Type*}

/-- Whatever the inputs, a state of `Q` is met within `n` steps, and every state before
    it is in `P`. -/
inductive Reaches (step : ι → σ → σ) (P Q : σ → Prop) : Nat → σ → Prop where
  | here {n : Nat} {s : σ} : Q s → Reaches step P Q n s
  | next {n : Nat} {s : σ} : P s → (∀ i, Reaches step P Q n (step i s)) →
      Reaches step P Q (n + 1) s

namespace Reaches

variable {step : ι → σ → σ} {P Q Q' : σ → Prop} {n m : Nat} {s : σ}

theorem mono (h : Reaches step P Q n s) (hle : n ≤ m) (hQ : ∀ s, Q s → Q' s) :
    Reaches step P Q' m s := by
  induction h generalizing m with
  | here hq => exact .here (hQ _ hq)
  | next hp _ ih =>
    obtain ⟨k, rfl⟩ : ∃ k, m = k + 1 := ⟨m - 1, by omega⟩
    exact .next hp fun i => ih i (by omega)

theorem mono_safe {P' : σ → Prop} (h : Reaches step P Q n s) (hP : ∀ s, P s → P' s) :
    Reaches step P' Q n s := by
  induction h with
  | here hq => exact .here hq
  | next hp _ ih => exact .next (hP _ hp) ih

/-- A stretch to where another stretch begins. -/
theorem bind (h : Reaches step P Q n s) (hQ : ∀ s, Q s → Reaches step P Q' m s) :
    Reaches step P Q' (n + m) s := by
  induction h with
  | here hq => exact (hQ _ hq).mono (Nat.le_add_left _ _) fun _ => id
  | next hp _ ih =>
    rw [Nat.add_right_comm]
    exact .next hp ih

/-- A run either gets to the goal on its way or is short and still safe. -/
theorem run (h : Reaches step P Q n s) (is : List ι) :
    (∃ k ≤ is.length, Q (Machine.run step s (is.take k))) ∨
      is.length < n ∧ P (Machine.run step s is) := by
  induction h generalizing is with
  | here hq => exact Or.inl ⟨0, Nat.zero_le _, by rwa [List.take_zero, run_nil]⟩
  | @next n s hp _ ih =>
    cases is with
    | nil => exact Or.inr ⟨Nat.succ_pos n, hp⟩
    | cons i is =>
      rcases ih i is with ⟨k, hk, hq⟩ | ⟨hlen, hp⟩
      · refine Or.inl ⟨k + 1, ?_, hq⟩
        rw [List.length_cons]
        omega
      · refine Or.inr ⟨?_, hp⟩
        rw [List.length_cons]
        omega

/-- Where a goal once met is kept, every long run is in it, and a short one is safe. -/
theorem settles (h : Reaches step P Q n s) (hstay : ∀ i s, Q s → Q (step i s)) (is : List ι) :
    Q (Machine.run step s is) ∨ is.length < n ∧ P (Machine.run step s is) := by
  rcases h.run is with ⟨k, -, hq⟩ | hshort
  · left
    rw [← List.take_append_drop k is, run_append]
    exact run_invariant hstay hq _
  · exact Or.inr hshort

/-- What every step keeps is there at the end too. -/
theorem keeping {I : σ → Prop} (h : Reaches step P Q n s) (hI : ∀ i s, I s → I (step i s))
    (hs : I s) : Reaches step P (fun s => Q s ∧ I s) n s := by
  induction h with
  | here hq => exact .here ⟨hq, hs⟩
  | next hp _ ih => exact .next hp fun i => ih i (hI i _ hs)

/-- A machine that keeps an invariant and loses some of a measure until it is done gets
    there. -/
theorem of_measure {I Done : σ → Prop} (μ : σ → Nat)
    (hstep : ∀ i s, I s → ¬ Done s → I (step i s) ∧ (Done (step i s) ∨ μ (step i s) < μ s))
    (h : I s) : Reaches step (fun s => ¬ Done s) (fun s => I s ∧ Done s) (μ s + 1) s := by
  induction hn : μ s using Nat.strong_induction_on generalizing s with
  | _ n ih =>
  by_cases hd : Done s
  · exact .here ⟨h, hd⟩
  refine .next hd fun i => ?_
  obtain ⟨hi, hd' | hlt⟩ := hstep i s h hd
  · exact .here ⟨hi, hd'⟩
  · exact (ih _ (hn ▸ hlt) hi rfl).mono (by omega) fun _ => id

end Reaches

/-- The same, by one step at least. -/
def Stretch (step : ι → σ → σ) (P Q : σ → Prop) (n : Nat) (s : σ) : Prop :=
  P s ∧ ∀ i, Reaches step P Q n (step i s)

theorem Stretch.reaches {step : ι → σ → σ} {P Q : σ → Prop} {n : Nat} {s : σ}
    (h : Stretch step P Q n s) : Reaches step P Q (n + 1) s := .next h.1 h.2

theorem Stretch.mono {step : ι → σ → σ} {P Q Q' : σ → Prop} {n m : Nat} {s : σ}
    (h : Stretch step P Q n s) (hle : n ≤ m) (hQ : ∀ s, Q s → Q' s) : Stretch step P Q' m s :=
  ⟨h.1, fun i => (h.2 i).mono hle hQ⟩

/-! ## Simulation -/

/-- Where `R` relates the machines and the abstract one is not done, the concrete one has
    before it a stretch of at most `n` steps after the first that ends where the abstract
    one is a step further. -/
def Simulates (stepC : ι → σ → σ) (stepA : κ → α → α) (R : σ → α → Prop) (Done : α → Prop)
    (P : σ → Prop) (n : Nat) : Prop :=
  ∀ c a, R c a → ¬ Done a → Stretch stepC P (fun c' => ∃ j, R c' (stepA j a)) n c

variable {stepC : ι → σ → σ} {stepA : κ → α → α} {R : σ → α → Prop} {Done : α → Prop}
  {P : σ → Prop} {n : Nat} {c : σ} {a : α}

/-- Where the abstract machine gets, the concrete one gets. -/
theorem Simulates.reaches {Q : α → Prop} {k : Nat} (h : Simulates stepC stepA R Done P n)
    (hR : R c a) (ha : Reaches stepA (fun a => ¬ Done a) Q k a) :
    Reaches stepC P (fun c => ∃ a, R c a ∧ Q a) (k * (n + 1)) c := by
  induction ha generalizing c with
  | here hq => exact .here ⟨_, hR, hq⟩
  | @next k a hgoing _ ih =>
    rw [Nat.succ_mul, Nat.add_comm]
    refine (h c a hR hgoing).reaches.bind ?_
    rintro c' ⟨j, hR'⟩
    exact ih j hR'

/-! ## Refinement -/

/-- Each guarded step of the concrete machine is one of the abstract machine, guarded as
    well, or none. -/
def Refines (stepC : ι → σ → σ) (stepA : κ → α → α) (R : σ → α → Prop) (G : ι → σ → Prop)
    (H : κ → α → Prop) : Prop :=
  ∀ i c a, R c a → G i c → R (stepC i c) a ∨ ∃ j, H j a ∧ R (stepC i c) (stepA j a)

/-- So each guarded run of the one is a guarded run of the other. -/
theorem Refines.run {G : ι → σ → Prop} {H : κ → α → Prop} (h : Refines stepC stepA R G H)
    (hR : R c a) {is : List ι} (hG : Guarded stepC G c is) :
    ∃ js, Guarded stepA H a js ∧ R (run stepC c is) (run stepA a js) := by
  induction is generalizing c a with
  | nil => exact ⟨[], trivial, hR⟩
  | cons i is ih =>
    rcases h i c a hR hG.1 with hsame | ⟨j, hH, hnext⟩
    · exact ih hsame hG.2
    · obtain ⟨js, hjs, hend⟩ := ih hnext hG.2
      exact ⟨j :: js, ⟨hH, hjs⟩, hend⟩

end Machine
