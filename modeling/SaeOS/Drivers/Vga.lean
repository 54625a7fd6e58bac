import SaeOS.Lib.Raster
import SaeOS.Lib.TerminalScreen

/-!
# The VGA text console

`drivers/vga.rs`: 25 rows of 80 characters with a colour each. An access outside of the buffer panics, which
is no result. The writer shows a terminal's screen (`Shows`).
-/

namespace SaeOS.Vga

open Terminal (Screen)

def bufferHeight : ℕ := 25
def bufferWidth : ℕ := 80

instance : NeZero bufferHeight :=
  ⟨by decide⟩

structure ScreenChar where
  asciiCharacter : UInt8
  colorCode : UInt8
deriving DecidableEq

/-- `[[ScreenChar; BUFFER_WIDTH]; BUFFER_HEIGHT]`. -/
abbrev Buffer := Raster ScreenChar

/-- `chars[row][col]`. -/
def readChar (row col : ℕ) (buffer : Buffer) : Option ScreenChar :=
  if row < bufferHeight ∧ col < bufferWidth then buffer.read (row * bufferWidth + col) else none

/-- `chars[row][col] = character`. -/
def writeChar (row col : ℕ) (character : ScreenChar) (buffer : Buffer) : Option Buffer :=
  if row < bufferHeight ∧ col < bufferWidth then buffer.write (row * bufferWidth + col) character else none

structure Writer where
  columnPosition : ℕ
  rowPosition : ℕ
  colorCode : UInt8
  buffer : Buffer

namespace Writer

def clearRow (row : ℕ) (w : Writer) : Option Writer := do
  let blank : ScreenChar := ⟨Terminal.blank, w.colorCode⟩
  let buffer ← (List.range bufferWidth).foldlM (fun buffer col => writeChar row col blank buffer) w.buffer
  some { w with buffer }

/-- The rows are moved up character by character. -/
def newLine (w : Writer) : Option Writer :=
  if w.rowPosition < bufferHeight - 1 then
    some { w with rowPosition := w.rowPosition + 1, columnPosition := 0 }
  else do
    let buffer ← (List.range' 1 (bufferHeight - 1)).foldlM (fun buffer row =>
      (List.range bufferWidth).foldlM (fun buffer col => do
        let character ← readChar row col buffer
        writeChar (row - 1) col character buffer) buffer) w.buffer
    let w ← clearRow (bufferHeight - 1) { w with buffer }
    some { w with columnPosition := 0 }

/-- The last arm of `write_byte`. -/
def writeCharacter (byte : UInt8) (w : Writer) : Option Writer := do
  let w ← if bufferWidth ≤ w.columnPosition then w.newLine else some w
  let buffer ← writeChar w.rowPosition w.columnPosition ⟨byte, w.colorCode⟩ w.buffer
  some { w with buffer, columnPosition := w.columnPosition + 1 }

def writeByte (w : Writer) (byte : UInt8) : Option Writer :=
  if byte = Terminal.newline then w.newLine
  else if byte = Terminal.backspace then
    if 0 < w.columnPosition then some { w with columnPosition := w.columnPosition - 1 } else some w
  else if byte = Terminal.carriageReturn then some { w with columnPosition := 0 }
  else if byte = Terminal.tabulator then
    let next := (w.columnPosition / 8 + 1) * 8
    -- a tab is eight spaces at most
    Screen.padTo columnPosition (writeCharacter Terminal.blank) (min next bufferWidth) 8 w
  else w.writeCharacter byte

/-- `write_string`, over the bytes of the string. -/
def writeString (bytes : List UInt8) (w : Writer) : Option Writer :=
  bytes.foldlM (fun w byte =>
    if 0x20 ≤ byte ∧ byte ≤ 0x7e ∨ byte = Terminal.newline ∨ byte = Terminal.carriageReturn ∨
        byte = Terminal.tabulator ∨ byte = Terminal.backspace then w.writeByte byte
    else w.writeByte 0xfe) w

def clearScreen (w : Writer) : Option Writer := do
  let w ← (List.range bufferHeight).foldlM (fun w row => w.clearRow row) w
  some { w with rowPosition := 0, columnPosition := 0 }

/-! ## The buffer -/

/-- The buffer has the rows and the columns of its type. -/
structure Mapped (buffer : Buffer) : Prop where
  stride : buffer.stride = bufferWidth
  height : buffer.height = bufferHeight

theorem Mapped.painted {buffer buffer' : Buffer} (h : Mapped buffer) {S : ℕ → ℕ → Prop} {f : ℕ → ℕ → ScreenChar}
    (hpaints : buffer.Paints buffer' S f) : Mapped buffer' :=
  ⟨hpaints.stride.trans h.stride, hpaints.height.trans h.height⟩

variable {w : Writer} {buffer : Buffer}

theorem writeChar_paints (h : Mapped buffer) {row col : ℕ} (hrow : row < bufferHeight) (hcol : col < bufferWidth)
    (character : ScreenChar) :
    ∃ buffer', writeChar row col character buffer = some buffer' ∧
      buffer.Paints buffer' (fun y x => y = row ∧ x = col) fun _ _ => character := by
  rw [writeChar, if_pos ⟨hrow, hcol⟩, ← h.stride]
  exact Raster.write_paints (h.stride ▸ hcol) (h.height ▸ hrow) character

/-- The cells of one row, all of them. -/
theorem Mapped.paints_row {buffer' : Buffer} (h : Mapped buffer) {f : ℕ → ℕ → ScreenChar} {row : ℕ}
    (hpaints : buffer.Paints buffer' (fun y x => ∃ col ∈ List.range bufferWidth, y = row ∧ x = col) f) :
    buffer.Paints buffer' (fun y _ => y = row) f := by
  refine ⟨hpaints.stride, hpaints.height, fun y x hx hy => ?_, fun y x hx hy => ?_⟩
  · exact hpaints.painted y x hx ⟨x, List.mem_range.mpr (h.stride ▸ hx), hy, rfl⟩
  · exact hpaints.kept y x hx fun ⟨_, _, hsame, _⟩ => hy hsame

theorem clearRow_paints (h : Mapped w.buffer) {row : ℕ} (hrow : row < bufferHeight) :
    ∃ buffer, w.clearRow row = some { w with buffer } ∧
      w.buffer.Paints buffer (fun y _ => y = row) fun _ _ => ⟨Terminal.blank, w.colorCode⟩ := by
  obtain ⟨buffer, hbuffer, hpaints⟩ := Raster.foldlM_paints (r := w.buffer)
    (fun buffer col => writeChar row col ⟨Terminal.blank, w.colorCode⟩ buffer) (List.range bufferWidth)
    (fun col y x => y = row ∧ x = col)
    fun col hcol buffer _ hsame _ => writeChar_paints (h.painted hsame) hrow (List.mem_range.mp hcol) _
  refine ⟨buffer, ?_, h.paints_row hpaints⟩
  rw [clearRow, hbuffer]
  rfl

/-- One round of the loop over the rows. -/
theorem moveRow_moves (h : Mapped buffer) {row : ℕ} (hrow : row + 1 < bufferHeight) :
    ∃ buffer', (List.range bufferWidth).foldlM (fun buffer col => do
        let character ← readChar (row + 1) col buffer
        writeChar row col character buffer) buffer = some buffer' ∧ Raster.Moves 1 row buffer buffer' := by
  obtain ⟨buffer', hbuffer, hpaints⟩ := Raster.foldlM_paints (r := buffer) (f := fun y x => buffer.at_ (y + 1) x)
    (fun buffer col => do
      let character ← readChar (row + 1) col buffer
      writeChar row col character buffer) (List.range bufferWidth) (fun col y x => y = row ∧ x = col)
    fun col hcol u S hu hS => by
      have hcol := List.mem_range.mp hcol
      have hmapped := h.painted hu
      -- only the row above has been written to
      have hread : readChar (row + 1) col u = some (buffer.at_ (row + 1) col) := by
        rw [readChar, if_pos ⟨hrow, hcol⟩, Raster.read, ← hmapped.stride,
          if_pos (Raster.place_lt (hmapped.stride ▸ hcol) (hmapped.height ▸ hrow))]
        refine congrArg some (hu.kept _ _ (h.stride ▸ hcol) fun hpainted => ?_)
        obtain ⟨_, _, hsame, _⟩ := hS _ _ hpainted
        omega
      obtain ⟨u', hwritten, hpaints⟩ :=
        writeChar_paints hmapped (Nat.lt_of_succ_lt hrow) hcol (buffer.at_ (row + 1) col)
      refine ⟨u', by rw [hread]; exact hwritten, hpaints.congr (fun _ _ => Iff.rfl) ?_⟩
      rintro _ _ _ ⟨rfl, rfl⟩
      rfl
  exact ⟨buffer', hbuffer, h.paints_row hpaints⟩

/-! ## The screen -/

/-- The writer shows a terminal's screen, and has its cursor. -/
structure Shows (w : Writer) (s : Screen bufferHeight bufferWidth) : Prop where
  mapped : Mapped w.buffer
  row : w.rowPosition = s.row
  column : w.columnPosition = s.column
  cell : ∀ (row : Fin bufferHeight) (col : Fin bufferWidth), (w.buffer.at_ row col).asciiCharacter = s.cell row col

variable {s : Screen bufferHeight bufferWidth}

theorem Shows.newLine (h : w.Shows s) : ∃ w', w.newLine = some w' ∧ w'.Shows s.lineFeed := by
  have hrow := h.row
  unfold Screen.lineFeed
  by_cases hlast : s.row + 1 < bufferHeight
  · rw [dif_pos hlast]
    refine ⟨{ w with rowPosition := w.rowPosition + 1, columnPosition := 0 }, if_pos ?_, h.mapped, ?_, rfl, h.cell⟩
    · rw [hrow]
      exact Nat.lt_sub_of_add_lt hlast
    · exact congrArg (· + 1) hrow
  · rw [dif_neg hlast]
    have hrows : List.range' 1 (bufferHeight - 1) = (List.range (bufferHeight - 1)).map (· + 1) := by decide
    obtain ⟨moved, hmoved, hmoves⟩ := Raster.foldlM_moves (r := w.buffer) (d := 1) (n := bufferHeight - 1)
      (fun buffer row => (List.range bufferWidth).foldlM (fun buffer col => do
        let character ← readChar (row + 1) col buffer
        writeChar row col character buffer) buffer) Nat.one_pos
      fun row hrow buffer hstride hheight =>
        moveRow_moves ⟨hstride.trans h.mapped.stride, hheight.trans h.mapped.height⟩ (by omega)
    have hmapped := h.mapped.painted hmoves
    obtain ⟨cleared, hcleared, hblank⟩ :
        ∃ buffer, clearRow (bufferHeight - 1) { w with buffer := moved } = some { w with buffer } ∧ _ :=
      clearRow_paints hmapped (by decide)
    refine ⟨{ w with buffer := cleared, columnPosition := 0 }, ?_, hmapped.painted hblank, hrow, rfl, fun row col => ?_⟩
    · unfold Writer.newLine
      rw [if_neg (by omega), hrows, List.foldlM_map]
      simp only [Nat.add_sub_cancel]
      rw [hmoved]
      show (do let w ← clearRow (bufferHeight - 1) { w with buffer := moved }; some { w with columnPosition := 0 }) = _
      rw [hcleared]
      rfl
    · have hcol : (col : ℕ) < w.buffer.stride := col.isLt.trans_eq h.mapped.stride.symm
      have hcol' : (col : ℕ) < moved.stride := col.isLt.trans_eq hmapped.stride.symm
      by_cases hbelow : (row : ℕ) + 1 < bufferHeight
      · -- a row that has been moved up, and not cleared
        refine Eq.trans ?_ (dif_pos hbelow).symm
        show (cleared.at_ row col).asciiCharacter = _
        rw [hblank.kept _ _ hcol' (by omega), hmoves.painted _ _ hcol (by omega)]
        exact h.cell ⟨row + 1, hbelow⟩ col
      · refine Eq.trans ?_ (dif_neg hbelow).symm
        show (cleared.at_ row col).asciiCharacter = _
        rw [hblank.painted _ _ hcol' (by omega)]

/-- A character where the cursor is. -/
theorem Shows.set (h : w.Shows s) (byte : UInt8) (hcolumn : s.column < bufferWidth) :
    ∃ buffer, writeChar w.rowPosition w.columnPosition ⟨byte, w.colorCode⟩ w.buffer = some buffer ∧
      Shows { w with buffer, columnPosition := w.columnPosition + 1 } (s.set byte) := by
  have hrow : w.rowPosition < bufferHeight := h.row ▸ s.row.isLt
  obtain ⟨buffer, hwritten, hpaints⟩ := writeChar_paints h.mapped hrow (h.column ▸ hcolumn) ⟨byte, w.colorCode⟩
  unfold Screen.set
  rw [dif_pos hcolumn]
  refine ⟨buffer, hwritten, h.mapped.painted hpaints, h.row, congrArg (· + 1) h.column, fun row col => ?_⟩
  have hcol : (col : ℕ) < w.buffer.stride := col.isLt.trans_eq h.mapped.stride.symm
  by_cases hsame : row = s.row ∧ (col : ℕ) = s.column
  · refine Eq.trans ?_ (if_pos hsame).symm
    show (buffer.at_ row col).asciiCharacter = byte
    rw [hpaints.painted _ _ hcol ⟨by rw [h.row, hsame.1], by rw [h.column, hsame.2]⟩]
  · refine Eq.trans ?_ (if_neg hsame).symm
    show (buffer.at_ row col).asciiCharacter = s.cell row col
    rw [hpaints.kept _ _ hcol fun hat => hsame ⟨Fin.ext (hat.1.trans h.row), hat.2.trans h.column⟩]
    exact h.cell row col

theorem Shows.writeCharacter (h : w.Shows s) (byte : UInt8) :
    ∃ w', w.writeCharacter byte = some w' ∧ w'.Shows (s.put byte) := by
  unfold Writer.writeCharacter Screen.put
  rw [h.column]
  by_cases hcolumn : s.column < bufferWidth
  · obtain ⟨buffer, hwritten, hshows⟩ := h.set byte hcolumn
    rw [if_neg (Nat.not_le.mpr hcolumn), if_pos hcolumn]
    refine ⟨_, ?_, hshows⟩
    show (do let buffer ← _; some { w with buffer, columnPosition := w.columnPosition + 1 }) = _
    rw [hwritten]
    rfl
  · obtain ⟨w', hw', hline⟩ := h.newLine
    have hfirst : s.lineFeed.column < bufferWidth := by
      rw [s.column_lineFeed]
      decide
    obtain ⟨buffer, hwritten, hshows⟩ := hline.set byte hfirst
    rw [if_pos (Nat.not_lt.mp hcolumn), if_neg hcolumn, hw']
    refine ⟨_, ?_, hshows⟩
    show (do let buffer ← _; some { w' with buffer, columnPosition := w'.columnPosition + 1 }) = _
    rw [hwritten]
    rfl

/-- After any byte the writer shows what the terminal shows. -/
theorem Shows.writeByte (h : w.Shows s) (byte : UInt8) :
    ∃ w', w.writeByte byte = some w' ∧ w'.Shows (s.write byte) := by
  unfold Writer.writeByte Screen.write
  split_ifs with hnewline hbackspace hpositive hreturn htab
  · exact h.newLine
  · exact ⟨_, rfl, h.mapped, h.row, congrArg (· - 1) h.column, h.cell⟩
  · refine ⟨w, rfl, h.mapped, h.row, ?_, h.cell⟩
    have hcolumn := h.column
    show w.columnPosition = s.column - 1
    omega
  · exact ⟨_, rfl, h.mapped, h.row, rfl, h.cell⟩
  · have hcolumn := h.column
    have hnext (w : Writer) (s : Screen bufferHeight bufferWidth) (h : w.Shows s) (hlt : s.column < bufferWidth) :
        ∃ w', w.writeCharacter Terminal.blank = some w' ∧ w'.Shows (s.set Terminal.blank) := by
      have hput := h.writeCharacter Terminal.blank
      rwa [Screen.put, if_pos hlt] at hput
    rw [hcolumn]
    exact Screen.padTo_shows h (fun h => h.column) (fun h hlt => hnext _ _ h hlt) (min_le_right _ _) (by omega)
  · exact h.writeCharacter byte

/-- The first `n` rounds of `clear_screen`. -/
theorem clearRows_paints (h : Mapped w.buffer) {n : ℕ} (hn : n ≤ bufferHeight) :
    ∃ buffer, (List.range n).foldlM (fun w row => w.clearRow row) w = some { w with buffer } ∧
      w.buffer.Paints buffer (fun y _ => y < n) fun _ _ => ⟨Terminal.blank, w.colorCode⟩ := by
  induction n with
  | zero =>
    refine ⟨w.buffer, rfl, (Raster.Paints.refl w.buffer fun _ _ => _).congr (fun y _ => ?_) fun _ _ _ _ => rfl⟩
    exact iff_of_false not_false (Nat.not_lt_zero y)
  | succ n ih =>
    obtain ⟨buffer, hbuffer, hpaints⟩ := ih (Nat.le_of_succ_le hn)
    obtain ⟨buffer', hcleared, hrow⟩ : ∃ buffer', clearRow n { w with buffer } = some { w with buffer := buffer' } ∧ _ :=
      clearRow_paints (h.painted hpaints) hn
    refine ⟨buffer', ?_, (hpaints.trans hrow).congr (fun y _ => ?_) fun _ _ _ _ => rfl⟩
    · rw [List.range_succ, List.foldlM_append, hbuffer]
      show [n].foldlM (fun w row => w.clearRow row) { w with buffer } = _
      rw [List.foldlM_cons, hcleared]
      rfl
    · rw [Nat.lt_succ_iff_lt_or_eq]

theorem clearScreen_shows (h : Mapped w.buffer) : ∃ w', w.clearScreen = some w' ∧ w'.Shows .clear := by
  obtain ⟨buffer, hbuffer, hpaints⟩ := clearRows_paints h le_rfl
  refine ⟨{ w with buffer, rowPosition := 0, columnPosition := 0 }, ?_, h.painted hpaints, rfl, rfl, fun row col => ?_⟩
  · rw [clearScreen, hbuffer]
    rfl
  · show (buffer.at_ row col).asciiCharacter = Terminal.blank
    rw [hpaints.painted _ _ (col.isLt.trans_eq h.stride.symm) row.isLt]

theorem Shows.writeString (h : w.Shows s) {bytes : List UInt8}
    (hbytes : ∀ byte ∈ bytes, 0x20 ≤ byte ∧ byte ≤ 0x7e ∨ byte = Terminal.newline ∨
      byte = Terminal.carriageReturn ∨ byte = Terminal.tabulator ∨ byte = Terminal.backspace) :
    ∃ w', w.writeString bytes = some w' ∧ w'.Shows (s.print bytes) :=
  Screen.foldlM_shows h (fun {w s byte} h hbyte => by
    rw [if_pos hbyte]
    exact h.writeByte byte) hbytes

end Writer

end SaeOS.Vga
