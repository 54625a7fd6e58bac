import Mathlib.Data.List.Basic

/-!
# Bytes at an offset

Readers of a format walk an offset through a byte string. `At data offset stop bytes` says that given
bytes stand at the offset; it is taken apart along the bytes' own structure as the reader moves on.
-/

namespace ByteWindow

/-- The bytes stand at the offset, before `stop`. -/
structure At (data : List UInt8) (offset stop : ℕ) (bytes : List UInt8) : Prop where
  isPrefix : bytes <+: data.drop offset
  before : offset + bytes.length ≤ stop

variable {data a b : List UInt8} {offset stop : ℕ}

theorem At.left (h : At data offset stop (a ++ b)) : At data offset stop a := by
  have hbefore := h.before
  rw [List.length_append] at hbefore
  exact ⟨(List.prefix_append a b).trans h.isPrefix, by omega⟩

theorem At.right (h : At data offset stop (a ++ b)) : At data (offset + a.length) stop b := by
  have hbefore := h.before
  rw [List.length_append] at hbefore
  refine ⟨?_, by omega⟩
  obtain ⟨rest, hrest⟩ := h.isPrefix
  refine ⟨rest, ?_⟩
  rw [← List.drop_drop, ← hrest, List.append_assoc, List.drop_left]

theorem At.head {byte : UInt8} {bytes : List UInt8} (h : At data offset stop (byte :: bytes)) :
    (data.take stop)[offset]? = some byte := by
  have hbefore := h.before
  rw [List.length_cons] at hbefore
  obtain ⟨rest, hrest⟩ := h.isPrefix
  have hget : (data.drop offset)[0]? = some byte := by rw [← hrest]; rfl
  rw [List.getElem?_drop, Nat.add_zero] at hget
  rw [List.getElem?_take_of_lt (by omega), hget]

theorem At.tail {byte : UInt8} {bytes : List UInt8} (h : At data offset stop (byte :: bytes)) :
    At data (offset + 1) stop bytes :=
  At.right (a := [byte]) h

end ByteWindow
