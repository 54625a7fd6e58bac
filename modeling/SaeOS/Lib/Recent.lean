import Mathlib.Data.List.DropRight
import Mathlib.Data.List.Infix

/-!
# The last items of a stream

What a buffer of fixed size keeps of a stream is its last `n` items, `List.rtake`. Keeping as the stream
arrives keeps the same as cutting it at the end.
-/

namespace Recent

variable {α : Type} {n k : ℕ} {l m : List α}

@[simp]
theorem length_rtake (n : ℕ) (l : List α) : (l.rtake n).length = min n l.length := by
  rw [List.rtake, List.length_drop]
  omega

theorem rtake_of_length_le (h : l.length ≤ n) : l.rtake n = l := by
  rw [List.rtake, Nat.sub_eq_zero_of_le h, List.drop_zero]

/-- The last items of a stream whose end is long enough are those of its end. -/
theorem rtake_append_of_le (l : List α) (h : n ≤ m.length) : (l ++ m).rtake n = m.rtake n := by
  rw [List.rtake, List.rtake, List.length_append, List.drop_append, List.drop_eq_nil_of_le (by omega),
    List.nil_append]
  congr 1
  omega

theorem rtake_append_of_ge (l : List α) (h : m.length ≤ n) :
    (l ++ m).rtake n = l.rtake (n - m.length) ++ m := by
  rw [List.rtake, List.rtake, List.length_append, List.drop_append,
    show l.length + m.length - n - l.length = 0 by omega, List.drop_zero]
  congr 2
  omega

/-- Fewer of the last items are the last of more. -/
theorem rtake_rtake_of_le (l : List α) (h : k ≤ n) : (l.rtake n).rtake k = l.rtake k := by
  rw [List.rtake, List.rtake, List.rtake, List.length_drop, List.drop_drop]
  congr 1
  omega

/-- What was dropped before is not missed. -/
theorem rtake_append_left (n : ℕ) (l m : List α) : (l.rtake n ++ m).rtake n = (l ++ m).rtake n := by
  rcases Nat.le_total n m.length with hle | hge
  · rw [rtake_append_of_le _ hle, rtake_append_of_le _ hle]
  · rw [rtake_append_of_ge _ hge, rtake_append_of_ge _ hge, rtake_rtake_of_le l (Nat.sub_le n m.length)]

/-- An arrival can be cut on its own first. -/
theorem rtake_append_right (n : ℕ) (l m : List α) : (l ++ m.rtake n).rtake n = (l ++ m).rtake n := by
  rcases Nat.le_total n m.length with hle | hge
  · have hlength : n ≤ (m.rtake n).length := by
      rw [length_rtake]
      omega
    rw [rtake_append_of_le _ hle, rtake_append_of_le _ hlength, rtake_rtake_of_le m le_rfl]
  · rw [rtake_of_length_le hge]

/-! ## Occurrences -/

/-- The items stand at the offset. -/
def OccursAt (l needle : List α) (start : ℕ) : Prop :=
  ∀ offset < needle.length, l[start + offset]? = needle[offset]?

theorem occursAt_iff {needle : List α} {start : ℕ} (h : start + needle.length ≤ l.length) :
    OccursAt l needle start ↔ needle = (l.drop start).take needle.length := by
  constructor
  · intro hoccurs
    apply List.ext_getElem?
    intro offset
    rw [List.getElem?_take, List.getElem?_drop]
    split
    · rename_i hlt
      exact (hoccurs offset hlt).symm
    · rename_i hge
      exact List.getElem?_eq_none (Nat.le_of_not_lt hge)
  · intro heq offset hlt
    rw [heq, List.getElem?_take, if_pos hlt, List.getElem?_drop]

/-- To be found at an offset is to be a part of the list. -/
theorem isInfix_iff {needle : List α} :
    needle <:+: l ↔ needle.length ≤ l.length ∧
      ∃ start ∈ List.range (l.length - needle.length + 1), OccursAt l needle start := by
  constructor
  · rintro ⟨before, after, rfl⟩
    refine ⟨by simp only [List.length_append]; omega, before.length, ?_, ?_⟩
    · rw [List.mem_range]
      simp only [List.length_append]
      omega
    · intro offset hlt
      rw [List.append_assoc, List.getElem?_append_right (by omega), Nat.add_sub_cancel_left,
        List.getElem?_append_left hlt]
  · rintro ⟨hle, start, hmem, hoccurs⟩
    rw [List.mem_range] at hmem
    rw [(occursAt_iff (by omega)).mp hoccurs]
    exact (List.take_prefix _ _).isInfix.trans (List.drop_suffix _ _).isInfix

end Recent
