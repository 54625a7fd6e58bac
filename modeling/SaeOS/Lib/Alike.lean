import Mathlib.Logic.Basic

/-!
# Computations that fail alike

Two computations are alike when they fail with one error or both succeed, with related results. Of one
computation, what it ensures holds of its result if there is one.
-/

namespace Except

variable {ε α α' β β' : Type}

theorem bind_eq_ok_iff {x : Except ε α} {f : α → Except ε β} {b : β} :
    x >>= f = .ok b ↔ ∃ a, x = .ok a ∧ f a = .ok b := by
  constructor
  · intro h
    cases x with
    | error error => cases h
    | ok a => exact ⟨a, rfl, h⟩
  · rintro ⟨a, rfl, h⟩
    exact h

/-- The result, if there is one, has the property. -/
def Ensures (P : α → Prop) (x : Except ε α) : Prop :=
  ∀ a, x = .ok a → P a

namespace Ensures

variable {P : α → Prop} {Q : β → Prop} {x y : Except ε α}

theorem ok {a : α} (h : P a) : Ensures P (.ok a : Except ε α) := fun _ ha => Except.ok.inj ha ▸ h

theorem bind {f : α → Except ε β} (hx : Ensures P x) (hf : ∀ a, P a → Ensures Q (f a)) :
    Ensures Q (x >>= f) := by
  intro b hb
  obtain ⟨a, ha, hfa⟩ := bind_eq_ok_iff.mp hb
  exact hf a (hx a ha) b hfa

theorem ite {c : Prop} [Decidable c] (hx : Ensures P x) (hy : Ensures P y) :
    Ensures P (if c then x else y) := by
  split
  · exact hx
  · exact hy

end Ensures

inductive Alike (R : α → α' → Prop) : Except ε α → Except ε α' → Prop
  | error (error : ε) : Alike R (.error error) (.error error)
  | ok {a : α} {a' : α'} (h : R a a') : Alike R (.ok a) (.ok a')

namespace Alike

variable {R : α → α' → Prop} {S : β → β' → Prop} {x : Except ε α} {x' : Except ε α'}

/-- What goes on from related results alike is alike. -/
theorem bind {f : α → Except ε β} {f' : α' → Except ε β'} (hx : Alike R x x')
    (hf : ∀ a a', x = .ok a → R a a' → Alike S (f a) (f' a')) : Alike S (x >>= f) (x' >>= f') := by
  cases hx with
  | error error => exact .error error
  | ok h => exact hf _ _ rfl h

theorem ite {y : Except ε α} {y' : Except ε α'} {c : Prop} [Decidable c] (hx : Alike R x x')
    (hy : Alike R y y') : Alike R (if c then x else y) (if c then x' else y') := by
  split
  · exact hx
  · exact hy

theorem of_eq {x' : Except ε α} {R : α → α → Prop} (h : x = x') (hR : ∀ a, R a a) : Alike R x x' := by
  subst h
  cases x with
  | error error => exact .error error
  | ok a => exact .ok (hR a)

theorem exists_of_ok {a' : α'} (hx : Alike R x x') (h : x' = .ok a') : ∃ a, x = .ok a ∧ R a a' := by
  cases hx with
  | error error => cases h
  | ok ha =>
    cases h
    exact ⟨_, rfl, ha⟩

theorem exists_of_ok_left {a : α} (hx : Alike R x x') (h : x = .ok a) : ∃ a', x' = .ok a' ∧ R a a' := by
  cases hx with
  | error error => cases h
  | ok ha =>
    cases h
    exact ⟨_, rfl, ha⟩

end Alike

end Except
