import Mathlib.Data.Nat.ModEq
import SaeOS.Lib.TerminalRow

/-!
# The screen of a terminal

A grid of characters with a cursor. A character at the right edge leaves the cursor behind the edge, and only
the next one goes to a new row. Below the last row the screen scrolls.
-/

namespace Terminal

def tabulator : UInt8 := 0x09
def carriageReturn : UInt8 := 0x0d

structure Screen (rows cols : ℕ) where
  cell : Fin rows → Fin cols → UInt8
  row : Fin rows
  column : ℕ
  column_le : column ≤ cols

namespace Screen

variable {rows cols : ℕ}

def clear [NeZero rows] : Screen rows cols :=
  ⟨fun _ _ => blank, 0, 0, Nat.zero_le _⟩

def lineFeed (s : Screen rows cols) : Screen rows cols :=
  if h : s.row + 1 < rows then ⟨s.cell, ⟨s.row + 1, h⟩, 0, Nat.zero_le _⟩
  else
    ⟨fun row column => if hbelow : row + 1 < rows then s.cell ⟨row + 1, hbelow⟩ column else blank, s.row, 0,
      Nat.zero_le _⟩

/-- A character where the cursor is, if that is not behind the right edge. -/
def set (byte : UInt8) (s : Screen rows cols) : Screen rows cols :=
  if h : s.column < cols then
    ⟨fun row column => if row = s.row ∧ column = s.column then byte else s.cell row column, s.row, s.column + 1, h⟩
  else s

def put (byte : UInt8) (s : Screen rows cols) : Screen rows cols :=
  if s.column < cols then s.set byte else s.lineFeed.set byte

/-- Where a tab leads from a column: to the next multiple of eight, but not past the right edge. -/
def tabStop (cols column : ℕ) : ℕ :=
  min ((column / 8 + 1) * 8) cols

def tab (s : Screen rows cols) : Screen rows cols :=
  (set blank)^[tabStop cols s.column - s.column] s

def write (s : Screen rows cols) (byte : UInt8) : Screen rows cols :=
  if byte = newline then s.lineFeed
  else if byte = backspace then ⟨s.cell, s.row, s.column - 1, (Nat.sub_le _ _).trans s.column_le⟩
  else if byte = carriageReturn then ⟨s.cell, s.row, 0, Nat.zero_le _⟩
  else if byte = tabulator then s.tab
  else s.put byte

def print (s : Screen rows cols) (bytes : List UInt8) : Screen rows cols :=
  bytes.foldl write s

variable {s : Screen rows cols}

theorem column_set (byte : UInt8) (h : s.column < cols) : (s.set byte).column = s.column + 1 := by
  rw [set, dif_pos h]

theorem column_lineFeed (s : Screen rows cols) : s.lineFeed.column = 0 := by
  unfold lineFeed
  split_ifs
  · rfl
  · rfl

/-! ## Writers that show a screen -/

section Writers

variable {W : Type*} {shows : W → Screen rows cols → Prop} {column : W → ℕ} {put : W → Option W}

/-- `while column < stop { put }`, with rounds enough for it to end. -/
def padTo (column : W → ℕ) (put : W → Option W) (stop : ℕ) : ℕ → W → Option W
  | 0, w => if column w < stop then none else some w
  | rounds + 1, w => if column w < stop then put w >>= padTo column put stop rounds else some w

/-- A writer whose rounds set blanks pads its row with blanks. -/
theorem padTo_shows {w : W} (h : shows w s) (hcolumn : ∀ {w s}, shows w s → column w = s.column)
    (hput : ∀ {w s}, shows w s → s.column < cols → ∃ w', put w = some w' ∧ shows w' (s.set blank)) {stop rounds : ℕ}
    (hstop : stop ≤ cols) (hrounds : stop ≤ s.column + rounds) :
    ∃ w', padTo column put stop rounds w = some w' ∧ shows w' ((set blank)^[stop - s.column] s) := by
  induction rounds generalizing w s with
  | zero =>
    have hdone : stop - s.column = 0 := Nat.sub_eq_zero_of_le hrounds
    refine ⟨w, if_neg ?_, ?_⟩
    · rw [hcolumn h]
      omega
    · rw [hdone]
      exact h
  | succ rounds ih =>
    rw [padTo, hcolumn h]
    split_ifs with hlt
    · obtain ⟨w', hw', hshows⟩ := hput h (hlt.trans_le hstop)
      have hnext := column_set (s := s) blank (hlt.trans_le hstop)
      obtain ⟨w'', hw'', hshows'⟩ := ih hshows (by omega)
      refine ⟨w'', by rw [hw']; exact hw'', ?_⟩
      have hcount : stop - s.column = stop - (s.set blank).column + 1 := by omega
      rw [hcount, Function.iterate_succ_apply]
      exact hshows'
    · have hdone : stop - s.column = 0 := by omega
      rw [hdone]
      exact ⟨w, rfl, h⟩

/-- A writer that shows the screen after every byte shows it after a text. -/
theorem foldlM_shows {write : W → UInt8 → Option W} {P : UInt8 → Prop} {w : W} (h : shows w s)
    (hwrite : ∀ {w s byte}, shows w s → P byte → ∃ w', write w byte = some w' ∧ shows w' (s.write byte))
    {bytes : List UInt8} (hbytes : ∀ byte ∈ bytes, P byte) :
    ∃ w', bytes.foldlM write w = some w' ∧ shows w' (s.print bytes) := by
  induction bytes generalizing w s with
  | nil => exact ⟨w, rfl, h⟩
  | cons byte bytes ih =>
    obtain ⟨w', hw', hshows⟩ := hwrite h (hbytes byte List.mem_cons_self)
    obtain ⟨w'', hw'', hshows'⟩ := ih hshows fun other hmem => hbytes other (List.mem_cons_of_mem _ hmem)
    refine ⟨w'', ?_, hshows'⟩
    rw [List.foldlM_cons, hw']
    exact hw''

end Writers

end Screen

end Terminal
