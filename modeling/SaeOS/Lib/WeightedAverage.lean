import Mathlib.Algebra.BigOperators.Ring.List
import Mathlib.Algebra.Order.BigOperators.Group.List
import Mathlib.Algebra.Order.Ring.Int
import Mathlib.Tactic.Linarith
import Mathlib.Tactic.Ring

/-!
# Truncated weighted averages

Facts about the average `(∑ w * v) / ∑ w` of integers `v` with weights `w`, where the division truncates
toward zero: some value is at most the average, whatever the signs, and a value can be added to the
average at a given distance from it with an error of at most two.

Nothing here depends on a particular program.
-/

namespace WeightedAverage

variable {ι : Type*}

/-- With positive weights some value is at most the truncated average. -/
theorem exists_le_tdiv_sum {l : List ι} (hl : l ≠ []) {w v : ι → ℤ} (hw : ∀ x ∈ l, 0 < w x) :
    ∃ x ∈ l, v x ≤ (l.map fun x => w x * v x).sum.tdiv (l.map w).sum := by
  by_contra! hall
  set average := (l.map fun x => w x * v x).sum.tdiv (l.map w).sum with haverage
  have hpos : 0 < (l.map w).sum := by
    have hsum := List.sum_lt_sum_of_ne_nil hl (fun _ => 0) w hw
    simpa using hsum
  -- a sum of values that all exceed the average exceeds the sum of the weights that many times
  have hge : (average + 1) * (l.map w).sum ≤ (l.map fun x => w x * v x).sum := by
    rw [← List.sum_map_mul_left]
    refine List.sum_le_sum fun x hx => ?_
    rw [mul_comm]
    exact mul_le_mul_of_nonneg_left (Int.add_one_le_of_lt (hall x hx)) (hw x hx).le
  have hlt := Int.lt_tdiv_add_one_mul_self (l.map fun x => w x * v x).sum hpos
  exact absurd hlt (not_lt.mpr hge)

/-- The value to add with weight `w` to a sum `sum` of total weight `total`, so that it ends up `lag`
below the new average. -/
def place (sum total w lag : ℤ) : ℤ :=
  sum.tdiv total - (lag * (total + w)).tdiv total

/-- The value that is added ends up at the distance asked for, give or take two. -/
theorem abs_place_error_le {sum total w : ℤ} (htotal : 0 < total) (hw : 0 ≤ w) (lag : ℤ) :
    |(sum + w * place sum total w lag).tdiv (total + w) - place sum total w lag - lag| ≤ 2 := by
  set v := place sum total w lag with hv
  set average := (sum + w * v).tdiv (total + w) with haverage
  have hpos : 0 < total + w := by linarith
  -- the three divisions and their remainders
  have hsum := Int.mul_tdiv_add_tmod sum total
  have hlag := Int.mul_tdiv_add_tmod (lag * (total + w)) total
  have hnew := Int.mul_tdiv_add_tmod (sum + w * v) (total + w)
  rw [← haverage] at hnew
  have hr₁ := Int.lt_tmod_of_pos sum htotal
  have hr₂ := Int.tmod_lt_of_pos sum htotal
  have hq₁ := Int.lt_tmod_of_pos (lag * (total + w)) htotal
  have hq₂ := Int.tmod_lt_of_pos (lag * (total + w)) htotal
  have hn₁ := Int.lt_tmod_of_pos (sum + w * v) hpos
  have hn₂ := Int.tmod_lt_of_pos (sum + w * v) hpos
  -- the error times the new weight is what the remainders leave
  have herror : (total + w) * (average - v - lag) =
      sum.tmod total - (lag * (total + w)).tmod total - (sum + w * v).tmod (total + w) := by
    have hplaced : total * v = total * sum.tdiv total - total * (lag * (total + w)).tdiv total := by
      rw [hv, place, mul_sub]
    linarith
  have hlow : (total + w) * (-3) < (total + w) * (average - v - lag) := by linarith
  have hhigh : (total + w) * (average - v - lag) < (total + w) * 3 := by linarith
  have hlow' := lt_of_mul_lt_mul_left hlow hpos.le
  have hhigh' := lt_of_mul_lt_mul_left hhigh hpos.le
  rw [abs_le]
  exact ⟨by linarith, by linarith⟩

end WeightedAverage
