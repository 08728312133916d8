/-!
# Computations that may fail

A computation in two steps returns what its second step returns, unless the first one fails
(`bind_eq_ok_iff`, `bind_eq_error_iff`). A stage of the front end reports the failure of its inner
computation in its own terms, and returns what that returns (`mapError_eq_ok_iff`,
`mapError_eq_error_iff`).
-/

namespace Frontend

variable {ε ε' α β : Type} {x : Except ε α} {a : α}

/-- A computation in two steps returns a value exactly if both steps do. -/
theorem bind_eq_ok_iff {f : α → Except ε β} {b : β} :
    x >>= f = .ok b ↔ ∃ a, x = .ok a ∧ f a = .ok b := by
  cases x with
  | error c => exact iff_of_false nofun nofun
  | ok a =>
    constructor
    · exact fun h => ⟨a, rfl, h⟩
    · rintro ⟨a', ⟨⟩, h⟩
      exact h

/-- A computation in two steps fails if the first step does, or else if the second one does. -/
theorem bind_eq_error_iff {f : α → Except ε β} {c : ε} :
    x >>= f = .error c ↔ x = .error c ∨ ∃ a, x = .ok a ∧ f a = .error c := by
  cases x with
  | error c' =>
    constructor
    · exact fun h => .inl (congrArg Except.error (Except.error.inj h))
    · rintro (⟨⟨⟩⟩ | ⟨a, ⟨⟩, -⟩)
      rfl
  | ok a =>
    constructor
    · exact fun h => .inr ⟨a, rfl, h⟩
    · rintro (⟨⟨⟩⟩ | ⟨a', ⟨⟩, h⟩)
      exact h

theorem mapError_eq_ok_iff {f : ε → ε'} : x.mapError f = .ok a ↔ x = .ok a := by
  cases x with
  | error c => exact iff_of_false nofun nofun
  | ok a' =>
    constructor
    · rintro ⟨⟩
      rfl
    · rintro ⟨⟩
      rfl

/-- A failure is the failure of the inner computation, put into other terms. -/
theorem mapError_eq_error_iff {f : ε → ε'} {c : ε'} :
    x.mapError f = .error c ↔ ∃ c', x = .error c' ∧ c = f c' := by
  cases x with
  | error c' =>
    constructor
    · rintro ⟨⟩
      exact ⟨c', rfl, rfl⟩
    · rintro ⟨_, ⟨⟩, rfl⟩
      rfl
  | ok a => exact iff_of_false nofun nofun

end Frontend
