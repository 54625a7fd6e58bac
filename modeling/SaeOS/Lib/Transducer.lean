import Mathlib.Data.List.Basic

/-!
# Deterministic transducers

A machine with one partial step function that may emit output. A run that ends where no step is
possible is *complete*; every other run from the same state is the beginning of it, so complete runs
agree on the output and on the final state. Work that is cut into pieces in different ways is compared
through that: each way is a run, and both are complete.
-/

namespace Transducer

variable {σ γ : Type*}

/-- A run from one state to another with its output. -/
inductive Runs (next : σ → Option (σ × List γ)) : σ → List γ → σ → Prop
  | refl (s : σ) : Runs next s [] s
  | step {s s' s'' : σ} {out out' : List γ} : next s = some (s', out) → Runs next s' out' s'' →
      Runs next s (out ++ out') s''

/-- No step is possible. -/
def Stuck (next : σ → Option (σ × List γ)) (s : σ) : Prop :=
  next s = none

variable {next : σ → Option (σ × List γ)} {s s' s'' s₁ s₂ : σ} {out out' o₁ o₂ : List γ}

theorem Runs.one (h : next s = some (s', out)) : Runs next s out s' := by
  have hrun := Runs.step h (Runs.refl s')
  rwa [List.append_nil] at hrun

theorem Runs.trans (h : Runs next s out s') (h' : Runs next s' out' s'') :
    Runs next s (out ++ out') s'' := by
  induction h with
  | refl s => exact h'
  | step hstep _ ih =>
    rw [List.append_assoc]
    exact .step hstep (ih h')

/-- A run is the beginning of every complete run. -/
theorem Runs.completes (h₁ : Runs next s o₁ s₁) (h₂ : Runs next s o₂ s₂) (hstuck : Stuck next s₂) :
    ∃ o, o₂ = o₁ ++ o ∧ Runs next s₁ o s₂ := by
  induction h₁ generalizing o₂ with
  | refl s => exact ⟨o₂, rfl, h₂⟩
  | step hstep _ ih =>
    cases h₂ with
    | refl => exact absurd (hstep.symm.trans hstuck) (by simp)
    | step hstep' hrest =>
      -- the step function decides both first steps
      rw [hstep] at hstep'
      cases hstep'
      obtain ⟨o, rfl, hrun⟩ := ih hrest
      exact ⟨o, by rw [List.append_assoc], hrun⟩

/-- Complete runs agree. -/
theorem Runs.unique (h₁ : Runs next s o₁ s₁) (hstuck₁ : Stuck next s₁) (h₂ : Runs next s o₂ s₂)
    (hstuck₂ : Stuck next s₂) : o₁ = o₂ ∧ s₁ = s₂ := by
  obtain ⟨o, rfl, hrest⟩ := h₁.completes h₂ hstuck₂
  cases hrest with
  | refl => exact ⟨by rw [List.append_nil], rfl⟩
  | step hstep _ => exact absurd (hstep.symm.trans hstuck₁) (by simp)

/-- Steps that go down a well-founded relation reach a stuck state. -/
theorem exists_complete {r : σ → σ → Prop} (hwf : WellFounded r) {P : σ → Prop}
    (hlower : ∀ s s' out, P s → next s = some (s', out) → P s' ∧ r s' s) (hs : P s) :
    ∃ out s', Runs next s out s' ∧ Stuck next s' := by
  induction s using hwf.induction with
  | _ s ih =>
    cases hstep : next s with
    | none => exact ⟨[], s, .refl s, hstep⟩
    | some result =>
      obtain ⟨s', out⟩ := result
      obtain ⟨hs', hr⟩ := hlower s s' out hs hstep
      obtain ⟨out', s'', hrun, hstuck⟩ := ih s' hr hs'
      exact ⟨out ++ out', s'', .step hstep hrun, hstuck⟩

end Transducer
