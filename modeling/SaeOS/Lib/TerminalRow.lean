import Mathlib.Data.List.Induction

/-!
# A row of a terminal

Printed bytes go into the row's cells at the cursor. A cell is known by the first byte of its character: the
bytes that continue a UTF-8 sequence have no column of their own. A row is as wide as it needs to be.
-/

namespace Terminal

def newline : UInt8 := 0x0a
def backspace : UInt8 := 0x08
def blank : UInt8 := 0x20

/-- Inside a UTF-8 sequence. -/
def IsContinuation (byte : UInt8) : Prop :=
  byte &&& 0xc0 = 0x80
deriving Decidable

/-- A byte that is put into a cell. -/
structure Printable (byte : UInt8) : Prop where
  ne_newline : byte ≠ newline
  ne_backspace : byte ≠ backspace
  not_continuation : ¬ IsContinuation byte

structure Row where
  cells : List UInt8
  column : ℕ
deriving DecidableEq

namespace Row

/-- The cursor does not move left of the first column. -/
def put (r : Row) (byte : UInt8) : Row :=
  if byte = newline then ⟨[], 0⟩
  else if byte = backspace then ⟨r.cells, r.column - 1⟩
  else if IsContinuation byte then r
  else ⟨r.cells.take r.column ++ byte :: r.cells.drop (r.column + 1), r.column + 1⟩

def print (r : Row) (bytes : List UInt8) : Row :=
  bytes.foldl put r

/-- The row with the cursor behind the text, and `k` blank cells after it. -/
def after (text : List UInt8) (k : ℕ) : Row :=
  ⟨text ++ List.replicate k blank, text.length⟩

variable {r : Row} {text : List UInt8} {byte : UInt8} {k : ℕ}

theorem print_append (r : Row) (bytes bytes' : List UInt8) :
    r.print (bytes ++ bytes') = (r.print bytes).print bytes' :=
  List.foldl_append

theorem put_backspace (r : Row) : r.put backspace = ⟨r.cells, r.column - 1⟩ :=
  rfl

theorem put_continuation (h : IsContinuation byte) : r.put byte = r := by
  have hnewline : byte ≠ newline := by
    rintro rfl
    exact absurd h (by decide)
  have hbackspace : byte ≠ backspace := by
    rintro rfl
    exact absurd h (by decide)
  rw [put, if_neg hnewline, if_neg hbackspace, if_pos h]

theorem put_printable (h : Printable byte) :
    r.put byte = ⟨r.cells.take r.column ++ byte :: r.cells.drop (r.column + 1), r.column + 1⟩ := by
  rw [put, if_neg h.ne_newline, if_neg h.ne_backspace, if_neg h.not_continuation]

theorem printable_blank : Printable blank :=
  ⟨by decide, by decide, by decide⟩

/-- A printed byte goes behind the text, over a blank cell if there is one. -/
theorem put_after (h : Printable byte) : (after text k).put byte = after (text ++ [byte]) (k - 1) := by
  rw [put_printable h, after, after]
  simp only [List.take_left', List.length_append, List.length_singleton, mk.injEq, and_true]
  rw [List.drop_append, List.drop_of_length_le (Nat.le_succ _), List.drop_replicate]
  simp

theorem print_blanks (n : ℕ) :
    (after text k).print (List.replicate n blank) = after (text ++ List.replicate n blank) (k - n) := by
  induction n generalizing text k with
  | zero => simp [print]
  | succ n ih =>
    rw [List.replicate_succ, print, List.foldl_cons, put_after printable_blank]
    refine ih.trans ?_
    rw [List.append_assoc, List.singleton_append, Nat.sub_sub, Nat.add_comm]

/-- Backspace, a blank over the cell, and backspace again. -/
def erase : List UInt8 :=
  [backspace, blank, backspace]

theorem print_erase (c : UInt8) : (after (text ++ [c]) k).print erase = after text (k + 1) := by
  have hback : (after (text ++ [c]) k).put backspace = ⟨text ++ c :: List.replicate k blank, text.length⟩ := by
    rw [put_backspace, after]
    simp
  have hblank : Row.put ⟨text ++ c :: List.replicate k blank, text.length⟩ blank =
      ⟨text ++ blank :: List.replicate k blank, text.length + 1⟩ := by
    rw [put_printable printable_blank]
    simp
  rw [erase, print, List.foldl_cons, List.foldl_cons, hback, hblank]
  rfl

/-- As many erasures as there are cells take them all back. -/
theorem print_erasures (cells : List UInt8) :
    (after (text ++ cells) k).print (List.replicate cells.length erase).flatten = after text (k + cells.length) := by
  induction cells using List.reverseRecOn generalizing k with
  | nil => simp [print]
  | append_singleton cells c ih =>
    rw [List.length_append, List.length_singleton, List.replicate_succ, List.flatten_cons, print_append,
      ← List.append_assoc, print_erase, ih, Nat.add_right_comm, Nat.add_assoc]

/-- An erasure at the first column leaves the cursor there. -/
theorem print_erase_nil : (after [] k).print erase = after [] (max k 1) := by
  cases k with
  | zero => rfl
  | succ k =>
    simp [after, erase, print, put_backspace, put_printable printable_blank, List.replicate_succ]

/-- Behind a text an erasure with nothing to erase moves the cursor into the text. -/
theorem column_print_erase (h : text ≠ []) : ((after text k).print erase).column = text.length - 1 := by
  obtain ⟨front, c, rfl⟩ := List.eq_nil_or_concat text |>.resolve_left h
  rw [List.concat_eq_append, print_erase]
  simp [after]

end Row

end Terminal
