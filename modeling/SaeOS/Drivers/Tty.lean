import Mathlib.Algebra.GroupWithZero.Nat
import Mathlib.Data.List.DropRight
import SaeOS.Lib.TerminalRow

/-!
# The line discipline of the console

`kernel/src/drivers/tty.rs`. The widths of the line's characters are a function of its bytes
(`widthsOf`), and what the terminal shows for it is another (`shown`), which has as many cells as
the widths sum to. Erasing a character takes both back to those of a shorter line, unless all that
is left of the line continues a character that was never begun.
-/

namespace SaeOS.Tty

open Terminal

def lineMax : ℕ := 4096

def carriageReturn : UInt8 := 0x0d
def tab : UInt8 := 0x09
def space : UInt8 := 0x20
def delete : UInt8 := 0x7f
def controlC : UInt8 := 0x03
def controlD : UInt8 := 0x04
def controlU : UInt8 := 0x15
def controlW : UInt8 := 0x17

inductive Record where
  /-- A completed line and how much of it has been read. -/
  | line (line : List UInt8) (consumed : ℕ)
  | endOfFile
deriving DecidableEq

structure LineDiscipline where
  line : List UInt8
  /-- How many columns each character of `line` was echoed as; eight at most. -/
  widths : List ℕ
  ready : List Record
deriving DecidableEq

/-- The reversed line without its last character: back to the byte that starts it. -/
def dropCharacter : List UInt8 → List UInt8
  | [] => []
  | last :: rest => if IsContinuation last then dropCharacter rest else rest

theorem length_dropCharacter (line : List UInt8) :
    (dropCharacter line).length ≤ line.length - 1 := by
  induction line with
  | nil => exact le_rfl
  | cons last rest ih =>
    rw [dropCharacter, List.length_cons]
    split
    · omega
    · exact le_rfl

namespace LineDiscipline

def new : LineDiscipline :=
  ⟨[], [], []⟩

/-- Erase the last character of a line that has one; what is left, and the echo. -/
def eraseCharacter (t : LineDiscipline) : LineDiscipline × List UInt8 :=
  ({ t with line := (dropCharacter t.line.reverse).reverse, widths := t.widths.dropLast },
    (List.replicate (t.widths.getLast?.getD 1) Row.erase).flatten)

/-- Erase as long as the last byte of the line is one of the given ones. -/
def eraseWhile (test : UInt8 → Bool) (t : LineDiscipline) : LineDiscipline × List UInt8 :=
  match _ : t.line.getLast? with
  | none => (t, [])
  | some last =>
    if test last then
      let erased := t.eraseCharacter
      let more := eraseWhile test erased.1
      (more.1, erased.2 ++ more.2)
    else (t, [])
termination_by t.line.length
decreasing_by
  have hle := length_dropCharacter t.line.reverse
  have hpos : 0 < t.line.length := List.length_pos_of_mem (List.mem_of_getLast? ‹_›)
  rw [List.length_reverse] at hle
  simp only [eraseCharacter, List.length_reverse]
  omega

/-- The column the next character is echoed at, counted from the start of the line. -/
def column (t : LineDiscipline) : ℕ :=
  t.widths.sum

def complete (t : LineDiscipline) : LineDiscipline :=
  ⟨[], [], t.ready ++ [.line t.line 0]⟩

/-- Process one input byte, with what to echo. -/
def input (t : LineDiscipline) (byte : UInt8) : LineDiscipline × List UInt8 :=
  if byte = carriageReturn ∨ byte = newline then
    (complete { t with line := t.line ++ [newline] }, [newline])
  else if byte = backspace ∨ byte = delete then
    if t.line = [] then (t, []) else t.eraseCharacter
  else if byte = controlU then t.eraseWhile fun _ => true
  else if byte = controlW then
    let (t, echo) := t.eraseWhile (· = space)
    let (t, echo') := t.eraseWhile (· ≠ space)
    (t, echo ++ echo')
  else if byte = controlD then
    if t.line = [] then ({ t with ready := t.ready ++ [.endOfFile] }, []) else (t.complete, [])
  else if byte = controlC then ({ t with line := [], widths := [] }, [0x5e, 0x43, newline])
  else if byte = tab ∧ t.line.length < lineMax - 1 then
    let width := 8 - t.column % 8
    ({ t with line := t.line ++ [byte], widths := t.widths ++ [width] }, List.replicate width blank)
  else if 0x20 ≤ byte ∧ t.line.length < lineMax - 1 then
    ({ t with
      line := t.line ++ [byte]
      -- continuation bytes add no column
      widths := if IsContinuation byte then t.widths else t.widths ++ [1] }, [byte])
  else (t, [])

/-- Copy from the oldest completed line into a buffer of the given size: at most one line per call.
None if no line is complete yet, and no bytes at the end of the file. -/
def read (t : LineDiscipline) (size : ℕ) : LineDiscipline × Option (List UInt8) :=
  match t.ready with
  | [] => (t, none)
  | .endOfFile :: ready => ({ t with ready }, some [])
  | .line line consumed :: ready =>
    let count := min (line.length - consumed) size
    let copied := (line.drop consumed).take count
    if consumed + count = line.length then ({ t with ready }, some copied)
    else ({ t with ready := .line line (consumed + count) :: ready }, some copied)

end LineDiscipline

/-! ## What a line looks like -/

/-- The width of a character at a column. -/
def addWidth (widths : List ℕ) (byte : UInt8) : List ℕ :=
  if byte = tab then widths ++ [8 - widths.sum % 8]
  else if IsContinuation byte then widths
  else widths ++ [1]

def widthsOf (line : List UInt8) : List ℕ :=
  line.foldl addWidth []

/-- The cells of a character behind those of the line before it: blanks up to the next tab stop for
a Tab. -/
def addCells (cells : List UInt8) (byte : UInt8) : List UInt8 :=
  if byte = tab then cells ++ List.replicate (8 - cells.length % 8) blank
  else if IsContinuation byte then cells
  else cells ++ [byte]

/-- What the terminal shows of a line. -/
def shown (line : List UInt8) : List UInt8 :=
  line.foldl addCells []

variable {line : List UInt8} {byte : UInt8}

theorem widthsOf_append (line : List UInt8) (byte : UInt8) :
    widthsOf (line ++ [byte]) = addWidth (widthsOf line) byte := by
  rw [widthsOf, List.foldl_append]
  rfl

theorem shown_append (line : List UInt8) (byte : UInt8) :
    shown (line ++ [byte]) = addCells (shown line) byte := by
  rw [shown, List.foldl_append]
  rfl

theorem length_shown (line : List UInt8) : (shown line).length = (widthsOf line).sum := by
  induction line using List.reverseRecOn with
  | nil => rfl
  | append_singleton line byte ih =>
    rw [shown_append, widthsOf_append, addCells, addWidth]
    split_ifs
    · simp [ih]
    · exact ih
    · simp [ih]

theorem continuation_ne_tab (h : IsContinuation byte) : byte ≠ tab := by
  rintro rfl
  exact absurd h (by decide)

theorem append_continuations {α : Type} {f : List UInt8 → α}
    (hstep : ∀ line byte, IsContinuation byte → f (line ++ [byte]) = f line) {tail : List UInt8}
    (h : ∀ byte ∈ tail, IsContinuation byte) : f (line ++ tail) = f line := by
  induction tail using List.reverseRecOn with
  | nil => rw [List.append_nil]
  | append_singleton tail byte ih =>
    rw [← List.append_assoc, hstep _ _ (h byte (List.mem_append_right _ List.mem_cons_self))]
    exact ih fun byte hmem => h byte (List.mem_append_left _ hmem)

theorem widthsOf_append_continuations {tail : List UInt8} (h : ∀ byte ∈ tail, IsContinuation byte) :
    widthsOf (line ++ tail) = widthsOf line := by
  refine append_continuations (fun line byte hbyte => ?_) h
  rw [widthsOf_append, addWidth, if_neg (continuation_ne_tab hbyte), if_pos hbyte]

theorem shown_append_continuations {tail : List UInt8} (h : ∀ byte ∈ tail, IsContinuation byte) :
    shown (line ++ tail) = shown line := by
  refine append_continuations (fun line byte hbyte => ?_) h
  rw [shown_append, addCells, if_neg (continuation_ne_tab hbyte), if_pos hbyte]

theorem widthsOf_continuations (h : ∀ byte ∈ line, IsContinuation byte) : widthsOf line = [] := by
  rw [← List.nil_append line, widthsOf_append_continuations h]
  rfl

theorem shown_continuations (h : ∀ byte ∈ line, IsContinuation byte) : shown line = [] := by
  rw [← List.nil_append line, shown_append_continuations h]
  rfl

/-- A line with a character at its end. -/
structure EndsWith (line front : List UInt8) (start : UInt8) (tail : List UInt8) : Prop where
  eq : line = front ++ start :: tail
  start : ¬ IsContinuation start
  tail : ∀ byte ∈ tail, IsContinuation byte

/-- A line ends with a character, or is nothing but bytes that continue one. -/
theorem line_cases (line : List UInt8) :
    (∀ byte ∈ line, IsContinuation byte) ∨ ∃ front start tail, EndsWith line front start tail := by
  induction line using List.reverseRecOn with
  | nil => exact .inl (by simp)
  | append_singleton line byte ih =>
    by_cases hbyte : IsContinuation byte
    · refine ih.imp (fun hall other hmem => ?_) ?_
      · obtain hmem | hmem := List.mem_append.mp hmem
        · exact hall other hmem
        · rwa [List.mem_singleton.mp hmem]
      · rintro ⟨front, start, tail, rfl, hstart, htail⟩
        refine ⟨front, start, tail ++ [byte], by simp, hstart, fun other hmem => ?_⟩
        obtain hmem | hmem := List.mem_append.mp hmem
        · exact htail other hmem
        · rwa [List.mem_singleton.mp hmem]
    · exact .inr ⟨line, byte, [], rfl, hbyte, (by simp)⟩

theorem dropCharacter_append {tail rest : List UInt8} (h : ∀ byte ∈ tail, IsContinuation byte) :
    dropCharacter (tail ++ rest) = dropCharacter rest := by
  induction tail with
  | nil => rfl
  | cons byte tail ih =>
    rw [List.cons_append, dropCharacter, if_pos (h byte List.mem_cons_self)]
    exact ih (List.forall_mem_of_forall_mem_cons h)

theorem dropCharacter_continuations (h : ∀ byte ∈ line, IsContinuation byte) :
    dropCharacter line.reverse = [] := by
  rw [← List.append_nil line.reverse, dropCharacter_append
    fun byte hmem => h byte (List.mem_reverse.mp hmem)]
  rfl

namespace EndsWith

variable {front tail : List UInt8} {start : UInt8}

theorem dropCharacter (h : EndsWith line front start tail) :
    dropCharacter line.reverse = front.reverse := by
  have hreverse : line.reverse = tail.reverse ++ start :: front.reverse := by
    rw [h.eq, List.reverse_append, List.reverse_cons, List.append_assoc, List.singleton_append]
  rw [hreverse, dropCharacter_append fun byte hmem => h.tail byte (List.mem_reverse.mp hmem),
    Tty.dropCharacter,
    if_neg h.start]

/-- The character has one width, and as many cells. -/
theorem exists_cells (h : EndsWith line front start tail) :
    ∃ cells, shown line = shown front ++ cells ∧
      widthsOf line = widthsOf front ++ [cells.length] := by
  have hline : line = front ++ [start] ++ tail := by
    rw [h.eq, List.append_assoc, List.singleton_append]
  rw [hline, shown_append_continuations h.tail, widthsOf_append_continuations h.tail, shown_append,
    widthsOf_append,
    addCells, addWidth]
  split_ifs with htab hstart
  · exact ⟨_, rfl, by rw [List.length_replicate, length_shown]⟩
  · exact absurd hstart h.start
  · exact ⟨[start], rfl, rfl⟩

end EndsWith

/-! ## Erasing -/

/-- The discipline has the width of each character of the line. -/
def LineDiscipline.Measured (t : LineDiscipline) : Prop :=
  t.widths = widthsOf t.line

/-- The terminal shows the line behind what was on the row before it, and nothing else. -/
def Echoed (before : List UInt8) (row : Row) (t : LineDiscipline) : Prop :=
  ∃ k, row = Row.after (before ++ shown t.line) k

variable {t : LineDiscipline} {before : List UInt8} {row : Row}

theorem erase_character {front tail : List UInt8} {start : UInt8} (h : t.Measured)
    (hline : EndsWith t.line front start tail) :
    t.eraseCharacter.1 = { t with line := front, widths := widthsOf front } ∧
      (Echoed before row t → Echoed before (row.print t.eraseCharacter.2) t.eraseCharacter.1) := by
  obtain ⟨cells, hshown, hwidths⟩ := hline.exists_cells
  have hleft : t.eraseCharacter.1 = { t with line := front, widths := widthsOf front } := by
    rw [LineDiscipline.eraseCharacter, h, hline.dropCharacter, hwidths]
    simp
  refine ⟨hleft, ?_⟩
  rintro ⟨k, rfl⟩
  refine ⟨k + cells.length, ?_⟩
  rw [hleft, LineDiscipline.eraseCharacter, h, hwidths, hshown, ← List.append_assoc]
  simp only [List.getLast?_concat, Option.getD_some]
  exact Row.print_erasures cells

/-- Erasing bytes that continue no character moves the cursor into what was on the row before
them. -/
theorem erase_stray (h : t.Measured) (hline : ∀ byte ∈ t.line, IsContinuation byte) :
    t.eraseCharacter.1 = { t with line := [], widths := [] } ∧
      (Echoed before row t →
        (Echoed before (row.print t.eraseCharacter.2) t.eraseCharacter.1 ↔ before = [])) := by
  have hwidths : t.widths = [] := h.trans (widthsOf_continuations hline)
  have hshown : shown t.line = [] := shown_continuations hline
  have hleft : t.eraseCharacter.1 = { t with line := [], widths := [] } := by
    rw [LineDiscipline.eraseCharacter, dropCharacter_continuations hline, hwidths]
    rfl
  refine ⟨hleft, ?_⟩
  rintro ⟨k, rfl⟩
  have hecho : t.eraseCharacter.2 = Row.erase := by
    rw [LineDiscipline.eraseCharacter, hwidths]
    rfl
  rw [hleft, hecho, hshown, List.append_nil]
  constructor
  · rintro ⟨k', hrow⟩
    by_contra hbefore
    have hcolumn := Row.column_print_erase (k := k) hbefore
    rw [hrow] at hcolumn
    have hpos := List.length_pos_of_ne_nil hbefore
    change (before ++ []).length = before.length - 1 at hcolumn
    rw [List.append_nil] at hcolumn
    omega
  · rintro rfl
    exact ⟨max k 1, Row.print_erase_nil⟩

/-! ## Erasing several characters -/

/-- A line whose first byte continues a character loses it: every byte that would stop the erasing
is inside a character, and not at its end. -/
def Reached (test : UInt8 → Bool) (line : List UInt8) : Prop :=
  (∃ first, line.head? = some first ∧ IsContinuation first) ∧
    ∀ front byte rest, line = front ++ byte :: rest → test byte = false →
      ∃ next, rest.head? = some next ∧ IsContinuation next

variable {test : UInt8 → Bool} {last : UInt8}

theorem not_reached_of_getLast (hlast : line.getLast? = some last) (htest : test last = false) :
    ¬ Reached test line := by
  rintro ⟨-, hall⟩
  obtain ⟨front, rfl⟩ := List.getLast?_eq_some_iff.mp hlast
  obtain ⟨next, hnext, -⟩ := hall front last [] rfl htest
  cases hnext

/-- A byte of the line is its last one, or another one follows it. -/
theorem rest_cases {front rest : List UInt8} (hlast : line.getLast? = some last)
    (h : line = front ++ byte :: rest) :
    byte = last ∨ ∃ next, rest.head? = some next ∧ next ∈ rest := by
  cases rest with
  | nil =>
    rw [h, List.getLast?_concat, Option.some.injEq] at hlast
    exact .inl hlast
  | cons next rest => exact .inr ⟨next, rfl, List.mem_cons_self⟩

theorem reached_of_continuations (hline : ∀ byte ∈ line, IsContinuation byte)
    (hlast : line.getLast? = some last)
    (htest : test last = true) : Reached test line := by
  constructor
  · obtain ⟨front, rfl⟩ := List.getLast?_eq_some_iff.mp hlast
    cases front with
    | nil => exact ⟨last, rfl, hline last (by simp)⟩
    | cons first front => exact ⟨first, rfl, hline first List.mem_cons_self⟩
  · intro front byte rest heq hbyte
    obtain rfl | ⟨next, hnext, hmem⟩ := rest_cases hlast heq
    · exact absurd (htest.symm.trans hbyte) (by decide)
    · exact ⟨next, hnext, hline next (by rw [heq]; simp [hmem])⟩

/-- Erasing a character that ends the line does not change whether the first byte is reached. -/
theorem reached_iff {front tail : List UInt8} {start : UInt8}
    (hline : EndsWith line front start tail)
    (hlast : line.getLast? = some last) (htest : test last = true) :
    Reached test line ↔ Reached test front := by
  have heq := hline.eq
  constructor
  · rintro ⟨⟨first, hfirst, hcontinues⟩, hall⟩
    refine ⟨⟨first, ?_, hcontinues⟩, fun before byte rest hfront hbyte => ?_⟩
    · cases front with
      | nil =>
        rw [heq, List.nil_append, List.head?_cons, Option.some.injEq] at hfirst
        exact absurd (hfirst ▸ hcontinues) hline.start
      | cons _ _ => rwa [heq] at hfirst
    · obtain ⟨next, hnext, hnextContinues⟩ := hall before byte (rest ++ start :: tail)
        (by rw [heq, hfront, List.append_assoc, List.cons_append]) hbyte
      cases rest with
      | nil =>
        cases hnext
        exact absurd hnextContinues hline.start
      | cons _ _ => exact ⟨next, hnext, hnextContinues⟩
  · rintro ⟨⟨first, hfirst, hcontinues⟩, hall⟩
    refine ⟨⟨first, ?_, hcontinues⟩, fun before byte rest hbefore hbyte => ?_⟩
    · rw [heq, List.head?_append, hfirst]
      rfl
    · obtain rfl | ⟨next, hnext, hmem⟩ := rest_cases hlast hbefore
      · exact absurd (htest.symm.trans hbyte) (by decide)
      -- the byte is before the character, or in it
      rw [heq] at hbefore
      obtain ⟨more, rfl, hmore⟩ | ⟨more, rfl, hmore⟩ := List.append_eq_append_iff.mp hbefore
      · have htail : ∀ byte ∈ rest, IsContinuation byte := by
          cases more with
          | nil =>
            cases hmore
            exact hline.tail
          | cons _ more =>
            cases hmore
            exact fun byte hmem => hline.tail byte (by simp [hmem])
        exact ⟨next, hnext, htail next hmem⟩
      · cases more with
        | nil =>
          cases hmore
          exact ⟨next, hnext, hline.tail next hmem⟩
        | cons _ more =>
          cases hmore
          obtain ⟨next, hnext, hnextContinues⟩ := hall before byte more rfl hbyte
          refine ⟨next, ?_, hnextContinues⟩
          change (more ++ start :: tail).head? = some next
          rw [List.head?_append, hnext]
          rfl

theorem eraseWhile_eq_self (h : ∀ last, t.line.getLast? = some last → test last = false) :
    t.eraseWhile test = (t, []) := by
  rw [LineDiscipline.eraseWhile]
  split
  · rfl
  · next last hlast => rw [if_neg (by rw [h last hlast]; decide)]

theorem eraseWhile_eq (hlast : t.line.getLast? = some last) (htest : test last = true) :
    t.eraseWhile test = ((t.eraseCharacter.1.eraseWhile test).1,
      t.eraseCharacter.2 ++ (t.eraseCharacter.1.eraseWhile test).2) := by
  rw [LineDiscipline.eraseWhile]
  split
  · next hnone => exact absurd (hlast.symm.trans hnone) (by simp)
  · next last' hlast' =>
    obtain rfl := Option.some.inj (hlast.symm.trans hlast')
    rw [if_pos htest]

/-- What erasing does to a line whose widths are right. -/
structure Erased (t t' : LineDiscipline) : Prop where
  measured : t'.Measured
  ready : t'.ready = t.ready
  length : t'.line.length ≤ t.line.length

/-- Erasing keeps what is shown right, if it does not reach bytes without a beginning, or nothing is
before them. -/
theorem eraseWhile_spec (test : UInt8 → Bool) (row : Row) (before : List UInt8) (h : t.Measured) :
    Erased t (t.eraseWhile test).1 ∧
      (Echoed before row t →
        (Echoed before (row.print (t.eraseWhile test).2) (t.eraseWhile test).1 ↔
          before = [] ∨ ¬ Reached test t.line)) := by
  -- induction on the length of the line, which every erasure makes shorter
  induction hlength : t.line.length using Nat.strong_induction_on generalizing t row with
  | _ length ih =>
  by_cases hstop : ∀ last, t.line.getLast? = some last → test last = false
  · rw [eraseWhile_eq_self hstop]
    refine ⟨⟨h, rfl, le_rfl⟩, fun hrow => iff_of_true hrow (.inr ?_)⟩
    cases hlast : t.line.getLast? with
    | none =>
      rw [List.getLast?_eq_none_iff] at hlast
      rintro ⟨⟨first, hfirst, -⟩, -⟩
      rw [hlast] at hfirst
      cases hfirst
    | some last => exact not_reached_of_getLast hlast (hstop last hlast)
  · obtain ⟨last, hlast, htest⟩ : ∃ last, t.line.getLast? = some last ∧ test last = true := by
      by_contra hnone
      exact hstop fun last hlast => eq_false_of_ne_true fun htest => hnone ⟨last, hlast, htest⟩
    have hpos : 0 < t.line.length := List.length_pos_of_mem (List.mem_of_getLast? hlast)
    rw [eraseWhile_eq hlast htest]
    simp only [Row.print_append]
    obtain hline | ⟨front, start, tail, hline⟩ := line_cases t.line
    · -- nothing is left of the line
      obtain ⟨hleft, hshows⟩ := @erase_stray t before row h hline
      have hempty : t.eraseCharacter.1.line = [] := by
        rw [hleft]
      rw [eraseWhile_eq_self fun last hlast => by rw [hempty] at hlast; cases hlast]
      refine ⟨⟨?_, ?_, ?_⟩, fun hrow => (hshows hrow).trans ?_⟩
      · rw [hleft]
        rfl
      · rw [hleft]
      · rw [hempty]
        exact Nat.zero_le _
      · rw [or_iff_left (not_not_intro (reached_of_continuations hline hlast htest))]
    · obtain ⟨hleft, hshows⟩ := @erase_character t before row front tail start h hline
      have hfront : t.eraseCharacter.1.line = front := by
        rw [hleft]
      have hshorter : front.length < t.line.length := by
        rw [hline.eq, List.length_append, List.length_cons]
        omega
      have hmeasured : t.eraseCharacter.1.Measured := by
        rw [hleft]
        rfl
      obtain ⟨herased, hrest⟩ :=
        ih _ (hlength ▸ hshorter) (row.print t.eraseCharacter.2) hmeasured (by rw [hfront])
      refine ⟨⟨herased.measured, ?_, ?_⟩, fun hrow => (hrest (hshows hrow)).trans ?_⟩
      · rw [herased.ready, hleft]
      · exact herased.length.trans (hfront ▸ hshorter.le)
      · rw [hfront, reached_iff hline hlast htest]

/-- Trailing spaces are characters of their own. -/
theorem not_reached_space (line : List UInt8) : ¬ Reached (· = space) line := by
  rintro ⟨⟨first, hfirst, hcontinues⟩, hall⟩
  -- each byte that continues a character would be followed by another one
  have hnever (rest : List UInt8) : ∀ front byte, line = front ++ byte :: rest →
    ¬ IsContinuation byte := by
    induction rest with
    | nil =>
      intro front byte heq hbyte
      obtain ⟨next, hnext, -⟩ := hall front byte [] heq (by
        rw [decide_eq_false_iff_not]
        rintro rfl
        exact absurd hbyte (by decide))
      cases hnext
    | cons next rest ih =>
      intro front byte heq hbyte
      obtain ⟨next', hnext, hnextContinues⟩ := hall front byte (next :: rest) heq (by
        rw [decide_eq_false_iff_not]
        rintro rfl
        exact absurd hbyte (by decide))
      cases hnext
      exact ih (front ++ [byte]) next (by rw [heq, List.append_assoc, List.singleton_append])
        hnextContinues
  obtain ⟨rest, rfl⟩ := List.head?_eq_some_iff.mp hfirst
  exact hnever rest [] first rfl hcontinues

theorem line_eraseWhile_space (t : LineDiscipline) :
    (t.eraseWhile (· = space)).1.line = t.line.rdropWhile (· = space) := by
  induction hlength : t.line.length using Nat.strong_induction_on generalizing t with
  | _ length ih =>
  cases hlast : t.line.getLast? with
  | none =>
    have hstop : t.eraseWhile (· = space) = (t, []) :=
      eraseWhile_eq_self fun last h => absurd (hlast.symm.trans h) (by simp)
    rw [hstop, List.getLast?_eq_none_iff.mp hlast, List.rdropWhile_nil]
  | some last =>
    obtain ⟨front, hfront⟩ := List.getLast?_eq_some_iff.mp hlast
    by_cases hspace : last = space
    · subst hspace
      have hline : EndsWith t.line front space [] := ⟨hfront, by decide, (by simp)⟩
      have hleft : t.eraseCharacter.1.line = front := by
        rw [LineDiscipline.eraseCharacter, hline.dropCharacter, List.reverse_reverse]
      have hshorter : t.eraseCharacter.1.line.length < length := by
        rw [hleft, ← hlength, hfront, List.length_append]
        exact Nat.lt_succ_self _
      rw [eraseWhile_eq hlast (by decide), hfront,
        List.rdropWhile_concat_pos (· = space) front space (by decide),
        ← hleft]
      exact ih _ hshorter _ rfl
    · have hstop : t.eraseWhile (· = space) = (t, []) := eraseWhile_eq_self fun last' h => by
        cases hlast.symm.trans h
        exact decide_eq_false hspace
      rw [hstop, hfront, List.rdropWhile_concat_neg (· = space) front last (by simpa using hspace)]

end SaeOS.Tty
