/-!
# Fallible steps in sequence

How a sequence of `Except` steps ended, read back from its result: it returned
exactly when each step did, and it failed when one step failed after the ones
before it had returned.
-/

namespace FiberAsync.Results

set_option autoImplicit false

universe u v w

variable {ε : Type u} {α : Type v} {β : Type v}

theorem bind_eq_ok {x : Except ε α} {f : α → Except ε β} {b : β} :
    x >>= f = .ok b ↔ ∃ a, x = .ok a ∧ f a = .ok b := by
  cases x with
  | error e => exact ⟨fun h => (nomatch h), fun ⟨_, h, _⟩ => (nomatch h)⟩
  | ok a =>
    constructor
    · exact fun h => ⟨a, rfl, h⟩
    · intro hx
      obtain ⟨_, h, hf⟩ := hx
      cases h
      exact hf

theorem bind_eq_error {x : Except ε α} {f : α → Except ε β} {e : ε} :
    x >>= f = .error e ↔ x = .error e ∨ ∃ a, x = .ok a ∧ f a = .error e := by
  cases x with
  | error e' =>
    constructor
    · intro h
      cases h
      exact Or.inl rfl
    · intro hx
      rcases hx with h | ⟨_, h, _⟩
      · cases h
        rfl
      · nomatch h
  | ok a =>
    constructor
    · exact fun h => Or.inr ⟨a, rfl, h⟩
    · intro hx
      rcases hx with h | ⟨_, h, hf⟩
      · nomatch h
      · cases h
        exact hf

/-- A sequence whose continuation does not fail so fails only at its start. -/
theorem bind_ne_error_iff {x : Except ε α} {f : α → Except ε β} {e : ε}
    (hf : ∀ a, x = .ok a → f a ≠ .error e) : x >>= f ≠ .error e ↔ x ≠ .error e := by
  constructor
  · intro hne hx
    exact hne (bind_eq_error.mpr (Or.inl hx))
  · intro hne heq
    rcases bind_eq_error.mp heq with hx | ⟨a, ha, hfa⟩
    · exact hne hx
    · exact hf a ha hfa

theorem map_ne_error_iff {x : Except ε α} {g : α → β} {e : ε} :
    x.map g ≠ .error e ↔ x ≠ .error e := by
  cases x <;> simp [Except.map]

theorem map_eq_ok {x : Except ε α} {g : α → β} {b : β} :
    x.map g = .ok b ↔ ∃ a, x = .ok a ∧ g a = b := by
  cases x <;> simp [Except.map]

theorem ok_eq_ok_iff {a a' : α} : (.ok a : Except ε α) = .ok a' ↔ a' = a :=
  ⟨fun h => by cases h; rfl, fun h => by rw [h]⟩

theorem ok_pair_iff {a a' : α} {b b' : β} :
    (.ok (a, b) : Except ε (α × β)) = .ok (a', b') ↔ a' = a ∧ b' = b :=
  ⟨fun h => by cases h; exact ⟨rfl, rfl⟩, fun ⟨ha, hb⟩ => by rw [ha, hb]⟩

theorem toOption_eq_some {x : Except ε α} {a : α} : x.toOption = some a ↔ x = .ok a := by
  cases x <;> simp [Except.toOption]

/-- The error that a computation ended with. -/
def errorOf : Except ε α → Option ε
  | .ok _ => none
  | .error e => some e

theorem errorOf_eq_some {x : Except ε α} {e : ε} : errorOf x = some e ↔ x = .error e := by
  cases x <;> simp [errorOf]

end FiberAsync.Results
