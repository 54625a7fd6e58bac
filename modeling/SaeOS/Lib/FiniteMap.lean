import Mathlib.Data.List.Nodup
import Mathlib.Data.Set.Insert
import Mathlib.Logic.Function.Basic

/-!
# Finite maps and sets as interfaces

What a table of keys and values promises to its users: the operations, their results over a plain map
from keys to optional values, and the rule that an implementation related to such a map step by step
gives the map's results over every sequence of operations. The same for sets.

An implementation's step returns none where it would not come back.
-/

namespace FiniteMap

variable {K V τ : Type*}

inductive Op (K V : Type*)
  | insert (key : K) (value : V)
  | get (key : K)
  /-- Update a value in place. -/
  | getMut (key : K) (update : V → V)
  | remove (key : K)
  | containsKey (key : K)
  | iter
  | len
  | clear

inductive Result (K V : Type*)
  | value (value : Option V)
  | flag (flag : Bool)
  | entries (entries : List (K × V))
  | count (count : ℕ)
  | unit

/-- The list has every entry of the map once. -/
def Enumerates (m : K → Option V) (l : List (K × V)) : Prop :=
  (l.map Prod.fst).Nodup ∧ ∀ k v, (k, v) ∈ l ↔ m k = some v

/-- The map after an operation. -/
def next [DecidableEq K] (m : K → Option V) : Op K V → K → Option V
  | .insert key value => Function.update m key (some value)
  | .getMut key update => Function.update m key ((m key).map update)
  | .remove key => Function.update m key none
  | .clear => fun _ => none
  | .get _ | .containsKey _ | .iter | .len => m

/-- The results an operation may have. -/
def Accepts (m : K → Option V) : Op K V → Result K V → Prop
  | .insert key _, .value result => result = m key
  | .get key, .value result => result = m key
  | .getMut key _, .value result => result = m key
  | .remove key, .value result => result = m key
  | .containsKey key, .flag result => result = (m key).isSome
  | .iter, .entries l => Enumerates m l
  | .len, .count n => ∃ l, Enumerates m l ∧ l.length = n
  | .clear, .unit => True
  | _, _ => False

/-- The results of a sequence of operations are those of the map. -/
def Agrees [DecidableEq K] (m : K → Option V) : List (Op K V) → List (Result K V) → Prop
  | [], [] => True
  | op :: ops, result :: results => Accepts m op result ∧ Agrees (next m op) ops results
  | _, _ => False

end FiniteMap

namespace FiniteSet

variable {T τ : Type*}

inductive Op (T : Type*)
  | insert (value : T)
  | contains (value : T)
  | remove (value : T)
  | iter
  | len
  | clear

inductive Result (T : Type*)
  | flag (flag : Bool)
  | values (values : List T)
  | count (count : ℕ)
  | unit

/-- The set after an operation. -/
def next (s : Set T) : Op T → Set T
  | .insert value => insert value s
  | .remove value => s \ {value}
  | .clear => ∅
  | .contains _ | .iter | .len => s

/-- The results an operation may have. -/
def Accepts (s : Set T) : Op T → Result T → Prop
  | .insert value, .flag result => result = true ↔ value ∉ s
  | .contains value, .flag result => result = true ↔ value ∈ s
  | .remove value, .flag result => result = true ↔ value ∈ s
  | .iter, .values l => l.Nodup ∧ ∀ x, x ∈ l ↔ x ∈ s
  | .len, .count n => ∃ l : List T, l.Nodup ∧ (∀ x, x ∈ l ↔ x ∈ s) ∧ l.length = n
  | .clear, .unit => True
  | _, _ => False

/-- The results of a sequence of operations are those of the set. -/
def Agrees (s : Set T) : List (Op T) → List (Result T) → Prop
  | [], [] => True
  | op :: ops, result :: results => Accepts s op result ∧ Agrees (next s op) ops results
  | _, _ => False

end FiniteSet

namespace Interface

variable {τ ω ρ α : Type*}

/-- The results of a sequence of operations, one after the other. -/
def run (step : τ → ω → Option (ρ × τ)) : τ → List ω → Option (List ρ × τ)
  | t, [] => some ([], t)
  | t, op :: ops => do
    let (result, t) ← step t op
    let (results, t) ← run step t ops
    return (result :: results, t)

/-- An implementation related step by step to an abstract state runs every sequence of operations, and
the relation holds again at the end. -/
theorem run_related {step : τ → ω → Option (ρ × τ)} {next : α → ω → α} {accepts : α → ω → ρ → Prop}
    (agrees : α → List ω → List ρ → Prop) (hnil : ∀ a, agrees a [] [])
    (hcons : ∀ a op ops result results, accepts a op result → agrees (next a op) ops results →
      agrees a (op :: ops) (result :: results))
    {R : τ → α → Prop}
    (hstep : ∀ t a op, R t a → ∃ result t', step t op = some (result, t') ∧ accepts a op result ∧
      R t' (next a op)) {t : τ} {a : α} (h : R t a) (ops : List ω) :
    ∃ results t', run step t ops = some (results, t') ∧ agrees a ops results ∧ ∃ a', R t' a' := by
  induction ops generalizing t a with
  | nil => exact ⟨[], t, rfl, hnil a, a, h⟩
  | cons op ops ih =>
    obtain ⟨result, t₁, hfirst, haccepts, hR⟩ := hstep t a op h
    obtain ⟨results, t', hrest, hagrees, hend⟩ := ih hR
    refine ⟨result :: results, t', ?_, hcons a op ops result results haccepts hagrees, hend⟩
    rw [run, hfirst]
    simp only [Option.bind_eq_bind, Option.bind_some, hrest]
    rfl

end Interface
