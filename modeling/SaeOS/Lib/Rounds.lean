import Mathlib.Data.List.Basic

/-!
# Loops with a bound on their rounds

A loop goes from state to state until a step gives its result or fails, for as many rounds as there are.
-/

namespace Rounds

variable {ε σ ρ : Type} (step : σ → Except ε (σ ⊕ ρ))

/-- Take at most `n` steps. The state is left if there are no more rounds. -/
def run : ℕ → σ → Except ε (σ ⊕ ρ)
  | 0, s => .ok (.inl s)
  | n + 1, s =>
    match step s with
    | .error e => .error e
    | .ok (.inl s') => run n s'
    | .ok (.inr r) => .ok (.inr r)

/-- The states that steps are taken from. -/
def reached : ℕ → σ → List σ
  | 0, _ => []
  | n + 1, s =>
    s ::
      match step s with
      | .ok (.inl s') => reached n s'
      | _ => []

/-- A loop succeeds if every step that it takes does. -/
theorem run_ok_iff (n : ℕ) (s : σ) :
    (∃ r, run step n s = .ok r) ↔ ∀ s' ∈ reached step n s, ∃ r, step s' = .ok r := by
  induction n generalizing s with
  | zero => exact ⟨fun _ => (fun _ h => by cases h), fun _ => ⟨_, rfl⟩⟩
  | succ n ih =>
    rw [run, reached, List.forall_mem_cons]
    rcases hstep : step s with e | s' | r
    · exact ⟨fun ⟨_, hr⟩ => (absurd hr (by simp)), fun ⟨⟨_, hr⟩, _⟩ => (absurd hr (by simp))⟩
    · exact ⟨fun h => ⟨⟨_, rfl⟩, (ih s').mp h⟩, fun h => (ih s').mpr h.2⟩
    · exact ⟨fun _ => ⟨⟨_, rfl⟩, (by simp)⟩, fun _ => ⟨_, rfl⟩⟩

/-- What every step keeps, a loop keeps, and its result has what the last step gives. -/
theorem run_invariant {step : σ → Except ε (σ ⊕ ρ)} {P : σ → Prop} {Q : ρ → Prop}
    (hstep : ∀ s, P s → ∀ s', step s = .ok (.inl s') → P s')
    (hlast : ∀ s, P s → ∀ r, step s = .ok (.inr r) → Q r) {n : ℕ} {s : σ} (h : P s) {r : σ ⊕ ρ}
    (hrun : run step n s = .ok r) : Sum.elim P Q r := by
  induction n generalizing s with
  | zero =>
    obtain rfl := Except.ok.inj hrun
    exact h
  | succ n ih =>
    rw [run] at hrun
    rcases hnext : step s with e | s' | r'
    · rw [hnext] at hrun
      contradiction
    · rw [hnext] at hrun
      exact ih (hstep s h s' hnext) hrun
    · rw [hnext] at hrun
      obtain rfl := Except.ok.inj hrun
      exact hlast s h r' hnext

end Rounds
