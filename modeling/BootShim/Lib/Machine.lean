-- SUMMARY: Machines driven by a stream of inputs: runs, invariants along them, guarded runs and termination by a measure.
import Mathlib.Tactic

/-!
# Input-driven machines

A machine is a function `step : ι → σ → σ`. Its inputs stand for whatever the
machine does not choose itself: the answer of a device, or which party of a
concurrent system moves next. A property of every list of inputs is then a
property of every behaviour of the environment.
-/

namespace Machine

variable {σ ι : Type*} (step : ι → σ → σ)

/-- The state after a list of inputs. -/
def run (s : σ) (is : List ι) : σ := is.foldl (fun s i => step i s) s

@[simp] theorem run_nil (s : σ) : run step s [] = s := rfl

@[simp] theorem run_cons (s : σ) (i : ι) (is : List ι) :
    run step s (i :: is) = run step (step i s) is := rfl

theorem run_append (s : σ) (is js : List ι) :
    run step s (is ++ js) = run step (run step s is) js := by
  simp [run, List.foldl_append]

variable {step}

/-- An invariant of every step holds along every run. -/
theorem run_invariant {P : σ → Prop} (hstep : ∀ i s, P s → P (step i s)) {s : σ} (h : P s)
    (is : List ι) : P (run step s is) := by
  induction is generalizing s with
  | nil => exact h
  | cons i is ih => exact ih (hstep i s h)

/-! ## Guarded runs -/

variable (step) in
/-- Every step of the run meets the guard in the state it is taken from. -/
def Guarded (G : ι → σ → Prop) (s : σ) : List ι → Prop
  | [] => True
  | i :: is => G i s ∧ Guarded G (step i s) is

variable (step) in
instance Guarded.decidable {G : ι → σ → Prop} [∀ i s, Decidable (G i s)] (s : σ) (is : List ι) :
    Decidable (Guarded step G s is) :=
  match is with
  | [] => inferInstanceAs (Decidable True)
  | i :: is =>
    have := Guarded.decidable (G := G) (step i s) is
    inferInstanceAs (Decidable (_ ∧ _))

/-- The first steps of a guarded run are one. -/
theorem Guarded.of_append {G : ι → σ → Prop} {s : σ} {is js : List ι}
    (h : Guarded step G s (is ++ js)) : Guarded step G s is := by
  induction is generalizing s with
  | nil => trivial
  | cons i is ih => exact ⟨h.1, ih h.2⟩

/-- An invariant of every step that meets the guard holds along every guarded run. -/
theorem run_invariant_of_guarded {P : σ → Prop} {G : ι → σ → Prop}
    (hstep : ∀ i s, G i s → P s → P (step i s)) {s : σ} (h : P s) {is : List ι}
    (hg : Guarded step G s is) : P (run step s is) := by
  induction is generalizing s with
  | nil => exact h
  | cons i is ih => exact ih (hstep i s hg.1 h) hg.2

/-! ## Termination -/

/-- A machine that loses some of a measure at each step until it is done is done
    once it has taken as many steps as the measure says. -/
theorem run_done {P Done : σ → Prop} (μ : σ → Nat) (hinv : ∀ i s, P s → P (step i s))
    (hdone : ∀ i s, Done s → Done (step i s))
    (hlt : ∀ i s, P s → ¬ Done s → Done (step i s) ∨ μ (step i s) < μ s)
    {s : σ} (h : P s) {is : List ι} (hlen : μ s < is.length) : Done (run step s is) := by
  induction is generalizing s with
  | nil => exact absurd hlen (Nat.not_lt_zero _)
  | cons i is ih =>
    rw [run_cons]
    by_cases hd : Done (step i s)
    · exact run_invariant hdone hd is
    · have hnd : ¬ Done s := fun h => hd (hdone i s h)
      rcases hlt i s h hnd with hd' | hμ
      · exact absurd hd' hd
      · exact ih (hinv i s h) (by rw [List.length_cons] at hlen; omega)

/-- Where some input always brings a machine closer to the end, some run comes to it. -/
theorem exists_run_done {P Done : σ → Prop} (μ : σ → Nat)
    (hstep : ∀ s, P s → ¬ Done s →
      ∃ i, P (step i s) ∧ (Done (step i s) ∨ μ (step i s) < μ s))
    {s : σ} (h : P s) : ∃ is, P (run step s is) ∧ Done (run step s is) := by
  by_cases hd : Done s
  · exact ⟨[], h, hd⟩
  · obtain ⟨i, hp, hnext⟩ := hstep s h hd
    by_cases hd' : Done (step i s)
    · exact ⟨[i], hp, hd'⟩
    · have hlt : μ (step i s) < μ s := hnext.resolve_left hd'
      obtain ⟨is, his⟩ := exists_run_done μ hstep hp
      exact ⟨i :: is, his⟩
termination_by μ s

end Machine
