import Mathlib.Logic.Relation
import Mathlib.Order.WellFounded

/-!
# Forests given by parent links

A partial function `up : α → Option α` sends a node to its parent. `Within up x a` says that
following the links from `x` reaches `a`, and `Grounded up` that no chain of links goes on forever,
so the links form a forest.

The one change a forest sees is that a node is hung below another; `Grounded.hang` says that this
keeps a forest as long as the new parent is not within the node. Removing links always does.
-/

namespace Forest

variable {α : Type*} {up up' : α → Option α} {x y a b : α}

/-- `x` is `a` or lies below it. -/
def Within (up : α → Option α) (x a : α) : Prop :=
  Relation.ReflTransGen (fun y z => up y = some z) x a

/-- Every chain of parent links ends. -/
def Grounded (up : α → Option α) : Prop :=
  WellFounded fun y x => up x = some y

namespace Within

theorem refl (x : α) : Within up x x :=
  Relation.ReflTransGen.refl

theorem parent (h : up x = some y) : Within up x y :=
  Relation.ReflTransGen.single h

theorem trans (h : Within up x y) (h' : Within up y a) : Within up x a :=
  Relation.ReflTransGen.trans h h'

/-- A node other than the ancestor has a parent, which is within the ancestor too. -/
theorem up_of_ne (h : Within up x a) (hne : x ≠ a) : ∃ y, up x = some y ∧ Within up y a := by
  rcases Relation.ReflTransGen.cases_head h with heq | ⟨y, hy, hrest⟩
  · exact absurd heq hne
  · exact ⟨y, hy, hrest⟩

/-- A node that is no parent has nothing below it. -/
theorem eq_of_no_child (h : Within up x a) (hleaf : ∀ y, up y ≠ some a) : x = a := by
  rcases Relation.ReflTransGen.cases_tail h with heq | ⟨y, -, hy⟩
  · exact heq.symm
  · exact absurd hy (hleaf y)

end Within

namespace Grounded

/-- In a forest no node is within one of its children. -/
theorem not_within_child (h : Grounded up) (hx : up x = some y) : ¬Within up y x := by
  intro hwithin
  have hcycle : Relation.TransGen (fun y z => up y = some z) x x :=
    Relation.TransGen.head' hx hwithin
  have hirrefl := (WellFounded.transGen h).irrefl
  refine hirrefl.irrefl x ?_
  exact Relation.transGen_swap.mp hcycle

/-- Two nodes that are within each other are equal. -/
theorem within_antisymm (h : Grounded up) (hxy : Within up x y) (hyx : Within up y x) : x = y := by
  by_contra hne
  obtain ⟨z, hz, hrest⟩ := hxy.up_of_ne hne
  exact h.not_within_child hz (hrest.trans hyx)

theorem mono (h : Grounded up) (hle : ∀ y z, up' y = some z → up y = some z) : Grounded up' :=
  Subrelation.wf (fun hyx => hle _ _ hyx) h

/-- Hanging `x` below `p` keeps a forest when `p` is not within `x`; other links may only go. -/
theorem hang {p : α} (h : Grounded up) (hx : ∀ z, up' x = some z → z = p)
    (hle : ∀ y z, y ≠ x → up' y = some z → up y = some z) (hp : ¬Within up p x) :
    Grounded up' := by
  -- the chain from any node that is not below `x` is a chain of the old forest
  have hout : ∀ y, ¬Within up y x → Acc (fun b a => up' a = some b) y := by
    intro y
    induction y using h.induction with
    | _ y ih =>
      intro hy
      have hne : y ≠ x := fun heq => hy (by rw [heq]; exact Within.refl x)
      refine ⟨y, fun z hz => ?_⟩
      have hold := hle y z hne hz
      exact ih z hold fun hzx => hy ((Within.parent hold).trans hzx)
  have haccx : Acc (fun b a => up' a = some b) x :=
    ⟨x, fun z hz => hx z hz ▸ hout p hp⟩
  refine ⟨fun y => ?_⟩
  induction y using h.induction with
  | _ y ih =>
    by_cases heq : y = x
    · exact heq ▸ haccx
    · exact ⟨y, fun z hz => ih z (hle y z heq hz)⟩

end Grounded

end Forest
