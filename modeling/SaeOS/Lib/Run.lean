import Mathlib.Logic.Relation

/-!
# Runs of labelled transition systems

A small library of run arguments: the states reachable from a set of initial states by labelled
steps, the invariant rule, restriction of a system to steps that meet a side condition, and
forward simulation between two systems.

Nothing here depends on a particular program. A development states one lemma per step and obtains
the statement about whole runs from the rules below.
-/

namespace Run

variable {σ τ ι : Type*}

/-- States reachable from `init` by finitely many labelled steps. -/
inductive Reachable (init : σ → Prop) (step : σ → ι → σ → Prop) : σ → Prop
  | start {s : σ} : init s → Reachable init step s
  | next {s s' : σ} {op : ι} : Reachable init step s → step s op s' → Reachable init step s'

/-- The steps of a system whose pre-state and label meet `guard`. -/
def Guarded (guard : σ → ι → Prop) (step : σ → ι → σ → Prop) (s : σ) (op : ι) (s' : σ) : Prop :=
  guard s op ∧ step s op s'

namespace Reachable

variable {init : σ → Prop} {step : σ → ι → σ → Prop} {P : σ → Prop}

/-- Invariant rule: a property of the initial states kept by every step holds on every run. -/
theorem invariant (hinit : ∀ s, init s → P s)
    (hstep : ∀ s op s', P s → step s op s' → P s') {s : σ} (h : Reachable init step s) : P s := by
  induction h with
  | start h => exact hinit _ h
  | next _ hs ih => exact hstep _ _ _ ih hs

/-- Reachability is monotone in the step relation. -/
theorem mono {step' : σ → ι → σ → Prop} (hle : ∀ s op s', step s op s' → step' s op s')
    {s : σ} (h : Reachable init step s) : Reachable init step' s := by
  induction h with
  | start h => exact start h
  | next _ hs ih => exact next ih (hle _ _ _ hs)

/-- A run of the guarded system is a run of the system. -/
theorem of_guarded {guard : σ → ι → Prop} {s : σ}
    (h : Reachable init (Guarded guard step) s) : Reachable init step s :=
  h.mono fun _ _ _ hs => hs.2

end Reachable

/-- Forward simulation: every concrete run is matched by an abstract run over the same labels,
ending in related states. -/
theorem Reachable.simulation {init : σ → Prop} {step : σ → ι → σ → Prop} {init' : τ → Prop}
    {step' : τ → ι → τ → Prop} {R : σ → τ → Prop}
    (hinit : ∀ s, init s → ∃ t, init' t ∧ R s t)
    (hstep : ∀ s t op s', R s t → step s op s' → ∃ t', step' t op t' ∧ R s' t')
    {s : σ} (h : Reachable init step s) : ∃ t, Reachable init' step' t ∧ R s t := by
  induction h with
  | start h =>
    obtain ⟨t, ht, hR⟩ := hinit _ h
    exact ⟨t, .start ht, hR⟩
  | next _ hs ih =>
    obtain ⟨t, ht, hR⟩ := ih
    obtain ⟨t', ht', hR'⟩ := hstep _ _ _ _ hR hs
    exact ⟨t', .next ht ht', hR'⟩

end Run
