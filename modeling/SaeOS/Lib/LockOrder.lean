import SaeOS.Lib.Forest

/-!
# Lock order in a forest

Threads hold locks on the nodes of a forest and may wait for one more. Most threads lock a child
while they hold its parent; one thread may wait for a node in an order of its own. If none of the
locks that thread holds is within the node it waits for, no set of threads waits in a circle.
-/

namespace LockOrder

section Locks

variable {α : Type*} {up : α → Option α} {extra : α → Prop} {w x y : α}

/-- Held lock to awaited lock: a parent to its child, or one of the locks in `extra` to `w`. -/
def Edge (up : α → Option α) (extra : α → Prop) (w x y : α) : Prop :=
  up y = some x ∨ (extra x ∧ y = w)

/-- Everything reached from `w` is within `w`. -/
theorem within_of_path (h : Relation.ReflTransGen (Edge up extra w) w x) :
    Forest.Within up x w := by
  induction h with
  | refl => exact Forest.Within.refl w
  | tail _ hedge ih =>
    rcases hedge with hup | ⟨-, rfl⟩
    · exact (Forest.Within.parent hup).trans ih
    · exact Forest.Within.refl _

/-- A path goes down the forest, or passes from a lock in `extra` to `w`. -/
theorem path_cases (h : Relation.ReflTransGen (Edge up extra w) x y) :
    Forest.Within up y x ∨ ∃ z, extra z ∧ Relation.ReflTransGen (Edge up extra w) x z ∧
      Relation.ReflTransGen (Edge up extra w) w y := by
  induction h with
  | refl => exact Or.inl (Forest.Within.refl x)
  | tail hpath hedge ih =>
    rcases hedge with hup | ⟨hextra, rfl⟩
    · rcases ih with hwithin | ⟨z, hz, hxz, hwy⟩
      · exact Or.inl ((Forest.Within.parent hup).trans hwithin)
      · exact Or.inr ⟨z, hz, hxz, hwy.tail (Or.inl hup)⟩
    · exact Or.inr ⟨_, hextra, hpath, .refl⟩

/-- The lock graph has no cycle when no lock in `extra` is within `w`. -/
theorem no_cycle (hground : Forest.Grounded up) (hextra : ∀ z, extra z → ¬Forest.Within up z w)
    (x : α) : ¬Relation.TransGen (Edge up extra w) x x := by
  -- an edge from `extra` to `w` on a cycle puts its source within `w`
  have hout : ∀ z, extra z → ¬Relation.ReflTransGen (Edge up extra w) w z := fun z hz hpath =>
    hextra z hz (within_of_path hpath)
  intro hcycle
  obtain ⟨y, hxy, hyx⟩ := Relation.TransGen.head'_iff.mp hcycle
  rcases hxy with hup | ⟨hx, rfl⟩
  · rcases path_cases hyx with hwithin | ⟨z, hz, hyz, hwx⟩
    · exact hground.not_within_child hup hwithin
    · have hedge : Edge up extra w x y := Or.inl hup
      exact hout z hz (hwx.trans (Relation.ReflTransGen.head hedge hyz))
  · exact hout x hx hyx

end Locks

section Threads

variable {ι α : Type*} {holds : ι → α → Prop} {waits : ι → Option α} {i j : ι}

/-- Thread `i` waits for a lock that thread `j` holds. -/
def WaitsFor (holds : ι → α → Prop) (waits : ι → Option α) (i j : ι) : Prop :=
  ∃ x, waits i = some x ∧ holds j x

/-- Some threads wait for each other in a circle. -/
def CircularWait (holds : ι → α → Prop) (waits : ι → Option α) : Prop :=
  ∃ i, Relation.TransGen (WaitsFor holds waits) i i

/-- A chain of waiting threads gives a path in any graph that has an edge from each lock a thread
holds to the lock it waits for. -/
theorem path_of_waits {r : α → α → Prop} (hr : ∀ i x y, holds i x → waits i = some y → r x y)
    (h : Relation.TransGen (WaitsFor holds waits) i j) {x y : α} (hx : waits i = some x)
    (hy : waits j = some y) : Relation.TransGen r x y := by
  induction h generalizing y with
  | single hwait =>
    obtain ⟨x', hx', hheld⟩ := hwait
    obtain rfl : x = x' := Option.some.inj (hx.symm.trans hx')
    exact .single (hr _ _ _ hheld hy)
  | tail _ hwait ih =>
    obtain ⟨x', hx', hheld⟩ := hwait
    exact .tail (ih hx') (hr _ _ _ hheld hy)

/-- No circular wait, if the lock graph has no cycle. -/
theorem not_circularWait {r : α → α → Prop} (hr : ∀ i x y, holds i x → waits i = some y → r x y)
    (hacyclic : ∀ x, ¬Relation.TransGen r x x) : ¬CircularWait holds waits := by
  rintro ⟨i, hcycle⟩
  obtain ⟨j, ⟨x, hx, -⟩, -⟩ := Relation.TransGen.head'_iff.mp hcycle
  exact hacyclic x (path_of_waits hr hcycle hx hx)

end Threads

end LockOrder
