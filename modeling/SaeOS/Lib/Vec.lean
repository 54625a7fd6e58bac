import Mathlib.Data.List.Basic
import Mathlib.Data.List.Perm.Basic
import Mathlib.Tactic.Common

/-!
# Unordered removal from a vector

`swap_remove` of a growable array: constant time, and a permutation of removing the element.
-/

namespace Vec

variable {α : Type*}

/-- `swap_remove`: the element at `i` goes, the last takes its place. -/
def swapRemove (l : List α) (i : ℕ) : List α :=
  match l.getLast? with
  | none => []
  | some last => (l.set i last).dropLast

open List in
/-- `swapRemove` takes out the element at its position. -/
theorem perm_swapRemove {l : List α} {x : α} {i : ℕ} (h : l[i]? = some x) :
    x :: swapRemove l i ~ l := by
  rcases List.eq_nil_or_concat l with rfl | ⟨init, last, rfl⟩
  · simp at h
  rw [List.concat_eq_append] at h ⊢
  simp only [swapRemove, List.getLast?_append, List.getLast?_singleton, Option.some_or]
  rcases Nat.lt_or_ge i init.length with hlt | hge
  · rw [List.getElem?_append_left hlt] at h
    rw [List.set_append_left _ _ hlt, List.dropLast_concat]
    obtain ⟨a, b, rfl, rfl⟩ : ∃ a b, init = a ++ x :: b ∧ i = a.length := by
      refine ⟨init.take i, init.drop (i + 1), ?_, by simp; omega⟩
      obtain ⟨hi, hget⟩ := List.getElem?_eq_some_iff.mp h
      rw [← hget, List.getElem_cons_drop, List.take_append_drop]
    simp only [List.set_append_right _ _ (Nat.le_refl _), Nat.sub_self, List.set_cons_zero]
    calc x :: (a ++ last :: b) ~ x :: last :: (a ++ b) := List.perm_middle.cons x
      _ ~ last :: x :: (a ++ b) := List.Perm.swap ..
      _ ~ last :: (a ++ x :: b) := List.perm_middle.symm.cons last
      _ ~ a ++ x :: b ++ [last] := (List.perm_append_singleton last _).symm
  · have hi : i = init.length := by
      have := (List.getElem?_eq_some_iff.mp h).1
      simp at this
      omega
    subst hi
    have hx : last = x := by simpa using h
    subst hx
    simp only [List.set_append_right _ _ (Nat.le_refl _), Nat.sub_self, List.set_cons_zero,
      List.dropLast_concat]
    exact (List.perm_append_singleton last init).symm

end Vec
