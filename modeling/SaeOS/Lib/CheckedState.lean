import SaeOS.Lib.Checked

/-!
# Computations with a state that may panic

A computation on a state panics, or ends with an error or a value; in either case it leaves a state.
`Ends x s R` says that `x` does not panic from the state `s` and that its outcome and the state it leaves
are related by `R`.
-/

/-- Panics (`none`), or returns an error or a value with the state it leaves. -/
abbrev CheckedState (σ ε α : Type) : Type :=
  ExceptT ε (StateT σ Option) α

namespace CheckedState

variable {σ ε α β : Type}

/-- A computation that does not look at the state. -/
def ofChecked (x : Checked ε α) : CheckedState σ ε α :=
  ExceptT.mk fun s => x.run.map fun r => (r, s)

/-- The outcome and the state after it. -/
def runFrom (x : CheckedState σ ε α) (s : σ) : Option (Except ε α × σ) :=
  x.run s

/-- No panic, and an outcome as described. -/
def Ends (x : CheckedState σ ε α) (s : σ) (R : Except ε α → σ → Prop) : Prop :=
  ∃ r s', x.runFrom s = some (r, s') ∧ R r s'

variable {x : CheckedState σ ε α} {s : σ} {R : Except ε α → σ → Prop} {R' : Except ε β → σ → Prop}

theorem Ends.pure {a : α} (h : R (.ok a) s) : Ends (pure a) s R :=
  ⟨.ok a, s, rfl, h⟩

theorem Ends.throw {e : ε} (h : R (.error e) s) : Ends (throw e) s R :=
  ⟨.error e, s, rfl, h⟩

/-- Errors end the whole computation; a value goes on. -/
theorem Ends.bind {f : α → CheckedState σ ε β} (hx : Ends x s R)
    (herror : ∀ e s', R (.error e) s' → R' (.error e) s')
    (hok : ∀ a s', R (.ok a) s' → Ends (f a) s' R') : Ends (x >>= f) s R' := by
  obtain ⟨r, s', hrun, hr⟩ := hx
  cases r with
  | error e =>
    refine ⟨.error e, s', ?_, herror e s' hr⟩
    change Option.bind (x.runFrom s) _ = _
    rw [hrun]
    rfl
  | ok a =>
    obtain ⟨r', s'', hrun', hr'⟩ := hok a s' hr
    refine ⟨r', s'', ?_, hr'⟩
    change Option.bind (x.runFrom s) _ = _
    rw [hrun]
    exact hrun'

theorem Ends.get {R : Except ε σ → σ → Prop} (h : R (.ok s) s) :
    Ends (MonadState.get : CheckedState σ ε σ) s R :=
  ⟨.ok s, s, rfl, h⟩

theorem Ends.set {s' : σ} {R : Except ε PUnit → σ → Prop} (h : R (.ok ⟨⟩) s') :
    Ends (MonadStateOf.set s' : CheckedState σ ε PUnit) s R :=
  ⟨.ok ⟨⟩, s', rfl, h⟩

theorem Ends.mono {R₂ : Except ε α → σ → Prop} (h : Ends x s R) (himp : ∀ r s', R r s' → R₂ r s') :
    Ends x s R₂ := by
  obtain ⟨r, s', hrun, hr⟩ := h
  exact ⟨r, s', hrun, himp r s' hr⟩

end CheckedState
