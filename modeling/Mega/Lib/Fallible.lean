/-
# Computations that may fail

What a computation in `Except` that returned tells about its parts: the value
that each part returned.

Key theorems: `bind_eq_ok`, `check_bind_eq_ok`, `bind_eq_error`, `guard_eq_ok`.
-/
import Mathlib

namespace Fallible

variable {α β ε : Type}

/-- Both parts returned. -/
theorem bind_eq_ok {x : Except ε α} {f : α → Except ε β} {b : β} :
    (x >>= f) = .ok b ↔ ∃ a, x = .ok a ∧ f a = .ok b := by
  cases x <;> simp [bind, Except.bind]

/-- A check was passed, and what follows it returned. -/
theorem check_bind_eq_ok {x : Except ε Unit} {f : Unit → Except ε β} {b : β} :
    (x >>= f) = .ok b ↔ x = .ok () ∧ f () = .ok b := bind_eq_ok.trans Unique.exists_iff

/-- The first part failed, or the second one did. -/
theorem bind_eq_error {x : Except ε α} {f : α → Except ε β} {e : ε} :
    (x >>= f) = .error e ↔ x = .error e ∨ ∃ a, x = .ok a ∧ f a = .error e := by
  cases x <;> simp [bind, Except.bind]

/-- A check that was passed. -/
theorem guard_eq_ok {p : Prop} [Decidable p] {e : ε} {x : Except ε α} {a : α} :
    (if p then .error e else x) = .ok a ↔ ¬ p ∧ x = .ok a := by
  by_cases hp : p <;> simp [hp]

end Fallible
