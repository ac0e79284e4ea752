import Mathlib.Tactic.Common

/-!
# Computations that may fail

What the outcome of a computation says about its steps.
-/

namespace MayAlias

variable {ε α β : Type}

/-- A computation succeeds when all its steps do. -/
lemma bind_eq_ok_iff {x : Except ε α} {f : α → Except ε β} {b : β} :
    (x >>= f) = .ok b ↔ ∃ a, x = .ok a ∧ f a = .ok b := by
  cases x with
  | error e => simp [bind, Except.bind]
  | ok a => simp [bind, Except.bind]

/-- A computation fails at its first step that does. -/
lemma bind_eq_error_iff {x : Except ε α} {f : α → Except ε β} {e : ε} :
    (x >>= f) = .error e ↔ x = .error e ∨ ∃ a, x = .ok a ∧ f a = .error e := by
  cases x with
  | error e' => simp [bind, Except.bind]
  | ok a => simp [bind, Except.bind]

/-- A computation may go on in another way if that makes no difference to what the first step can
return. -/
lemma bind_congr_of_ok {x : Except ε α} {f g : α → Except ε β} (h : ∀ a, x = .ok a → f a = g a) :
    (x >>= f) = (x >>= g) := by
  cases x with
  | error e => rfl
  | ok a => exact h a rfl

lemma eq_ok_of_toOption {x : Except ε β} {b : β} (hx : x.toOption = some b) : x = .ok b := by
  cases x with
  | ok b' => exact congrArg _ (Option.some.inj hx)
  | error e => cases hx

end MayAlias
