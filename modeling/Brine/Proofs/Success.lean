import Mathlib.Logic.Basic

namespace Brine.Proofs.Success

variable {ε α β : Type}

@[simp] theorem bind_eq_ok {x : Except ε α} {g : α → Except ε β} {y : β} :
    x >>= g = .ok y ↔ ∃ a, x = .ok a ∧ g a = .ok y := by
  cases x <;> simp [bind, Except.bind]

theorem bind_eq_error {x : Except ε α} {g : α → Except ε β} {e : ε} :
    x >>= g = .error e ↔ x = .error e ∨ ∃ a, x = .ok a ∧ g a = .error e := by
  cases x <;> simp [bind, Except.bind]

@[simp] theorem pure_eq_ok {x y : α} : (pure x : Except ε α) = .ok y ↔ x = y := by
  simp [pure, Except.pure]

@[simp] theorem ok_bind {x : α} {g : α → Except ε β} : Except.ok x >>= g = g x := rfl

@[simp] theorem map_ok {x : α} {g : α → β} : g <$> (Except.ok x : Except ε α) = .ok (g x) := rfl

theorem map_eq_ok {x : Except ε α} {g : α → β} {y : β} :
    g <$> x = .ok y ↔ ∃ a, x = .ok a ∧ g a = y := by
  cases x <;> simp [Functor.map, Except.map]

/-- Computations that are the same up to `g` fail alike, or have results that are the same up to
`g`. -/
theorem map_eq_map {x y : Except ε α} {g : α → β} (h : x.map g = y.map g) :
    (∃ e, x = .error e ∧ y = .error e) ∨ ∃ a b, x = .ok a ∧ y = .ok b ∧ g a = g b := by
  cases x with
  | error e =>
    cases y with
    | error e' =>
      cases h
      exact .inl ⟨e, rfl, rfl⟩
    | ok b => cases h
  | ok a =>
    cases y with
    | error e' => cases h
    | ok b => exact .inr ⟨a, b, rfl, rfl, Except.ok.inj h⟩

end Brine.Proofs.Success
