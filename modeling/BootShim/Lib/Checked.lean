-- SUMMARY: Fallible computations as `Except`: checks that end them, and inversion of a sequence of them.
import Mathlib.Tactic

/-!
# Checked computations

A fallible function returns `Except ε α`. `ensure` is an early return with an
error, and `bind_eq_ok` takes a sequence apart: it succeeds when each part does.
-/

namespace Checked

universe u

variable {ε : Type*} {α β : Type u}

/-- Goes on when the condition holds and fails with the error otherwise. -/
def ensure (c : Prop) [Decidable c] (e : ε) : Except ε Unit := if c then .ok () else .error e

@[simp] theorem ensure_eq_ok {c : Prop} [Decidable c] {e : ε} {u : Unit} :
    ensure c e = .ok u ↔ c := by
  unfold ensure
  split <;> simp_all

theorem ensure_of {c : Prop} [Decidable c] {e : ε} (h : c) : ensure c e = .ok () := by
  simp [h]

/-- A sequence succeeds when both of its parts do. -/
theorem bind_eq_ok {x : Except ε α} {f : α → Except ε β} {b : β} :
    (x >>= f) = .ok b ↔ ∃ a, x = .ok a ∧ f a = .ok b := by
  cases x with
  | ok a => simp [bind, Except.bind]
  | error e => simp [bind, Except.bind]

@[simp] theorem ok_bind {a : α} {f : α → Except ε β} : ((.ok a : Except ε α) >>= f) = f a := rfl

@[simp] theorem pure_eq_ok {a b : α} : (pure a : Except ε α) = .ok b ↔ a = b := by
  simp [pure, Except.pure]

/-- Runs a check over a list, failing at the first element that fails it. -/
def forAll (check : α → Except ε Unit) : List α → Except ε Unit
  | [] => .ok ()
  | a :: as => do
    check a
    forAll check as

theorem forAll_eq_ok {check : α → Except ε Unit} {as : List α} {u : Unit} :
    forAll check as = .ok u ↔ ∀ a ∈ as, check a = .ok () := by
  induction as with
  | nil => simp [forAll]
  | cons a as ih =>
    rw [forAll, bind_eq_ok, List.forall_mem_cons]
    exact ⟨fun ⟨_, ha, has⟩ => ⟨ha, ih.mp has⟩, fun ⟨ha, has⟩ => ⟨(), ha, ih.mpr has⟩⟩

/-- What reads each element back reads the list back. -/
theorem mapM_map_eq_ok {write : α → β} {read : β → Except ε α}
    (hread : ∀ a, read (write a) = .ok a) (as : List α) : (as.map write).mapM read = .ok as := by
  induction as with
  | nil => rfl
  | cons a as ih =>
    rw [List.map_cons, List.mapM_cons, hread, ok_bind, ih, ok_bind]
    rfl

end Checked
