import Mathlib.Data.List.Forall2

/-!
# Computations that end well

What it takes for a composed computation to end in a result, one equivalence per way of composing, and where it
was stopped if it does not.
-/

namespace LogicalForm
set_option autoImplicit false

variable {ε ε' α β : Type}

theorem bind_eq_ok {step : Except ε α} {next : α → Except ε β} {b : β} :
    (step >>= next) = .ok b ↔ ∃ a, step = .ok a ∧ next a = .ok b := by
  cases step <;> simp [bind, Except.bind]

theorem bind_eq_error {step : Except ε α} {next : α → Except ε β} {cause : ε} :
    (step >>= next) = .error cause ↔ step = .error cause ∨ ∃ a, step = .ok a ∧ next a = .error cause := by
  cases step <;> simp [bind, Except.bind]

theorem ok_bind (a : α) (next : α → Except ε β) : (.ok a >>= next) = next a := rfl

theorem map_eq_ok {step : Except ε α} {f : α → β} {b : β} :
    step.map f = .ok b ↔ ∃ a, step = .ok a ∧ f a = b := by
  cases step <;> simp [Except.map]

theorem map_eq_error {step : Except ε α} {f : α → β} {cause : ε} :
    step.map f = .error cause ↔ step = .error cause := by
  cases step <;> simp [Except.map]

theorem mapError_eq_ok {step : Except ε α} {f : ε → ε'} {a : α} :
    step.mapError f = .ok a ↔ step = .ok a := by
  cases step with
  | error cause => exact iff_of_false nofun nofun
  | ok b => constructor <;> rintro ⟨⟩ <;> rfl

theorem mapError_eq_error {step : Except ε α} {f : ε → ε'} {cause : ε'} :
    step.mapError f = .error cause ↔ ∃ found, step = .error found ∧ f found = cause := by
  cases step with
  | error found =>
    constructor
    · exact fun h => ⟨found, rfl, Except.error.inj h⟩
    · rintro ⟨_, ⟨⟩, rfl⟩
      rfl
  | ok a =>
    constructor
    · intro h
      cases h
    · rintro ⟨_, ⟨⟩, _⟩

theorem ite_error_eq_ok {p : Prop} [Decidable p] {cause : ε} {step : Except ε α} {a : α} :
    (if p then .error cause else step) = .ok a ↔ ¬ p ∧ step = .ok a := by
  by_cases h : p <;> simp [h]

theorem mapM_eq_ok {f : α → Except ε β} {xs : List α} {ys : List β} :
    xs.mapM f = .ok ys ↔ List.Forall₂ (fun x y => f x = .ok y) xs ys := by
  induction xs generalizing ys with
  | nil =>
    rw [List.mapM_nil, List.forall₂_nil_left_iff]
    exact ⟨fun h => (Except.ok.inj h).symm, fun h => h ▸ rfl⟩
  | cons x xs ih =>
    rw [List.mapM_cons, List.forall₂_cons_left_iff, bind_eq_ok]
    constructor
    · rintro ⟨y, hHead, h⟩
      obtain ⟨rest, hRest, h⟩ := bind_eq_ok.mp h
      exact ⟨y, rest, hHead, ih.mp hRest, (Except.ok.inj h).symm⟩
    · rintro ⟨y, rest, hHead, hRest, rfl⟩
      exact ⟨y, hHead, bind_eq_ok.mpr ⟨rest, ih.mpr hRest, rfl⟩⟩

end LogicalForm
