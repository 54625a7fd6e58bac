import SaeOS.Drivers.Framebuffer
import SaeOS.Drivers.Vga

/-!
# The consoles and the terminal

What a text does to a framebuffer is what it does to a terminal of as many rows and columns
(`Shows`): each cell has the glyph of the terminal's character. Every access on the way is one to
the framebuffer's pixels, and the VGA console shows the same screen.
-/

namespace SaeOS.Gop.GopWriter

open Terminal (Screen)

variable {w : GopWriter} {rows cols : ℕ} {s : Screen rows cols}

theorem rows_eq (w : GopWriter) : w.rows = w.height / fontHeight := by
  unfold GopWriter.rows
  split_ifs with h
  · rw [h]
    rfl
  · rfl

theorem cols_eq (w : GopWriter) : w.cols = w.width / fontWidth := by
  unfold GopWriter.cols
  split_ifs with h
  · rw [h]
    rfl
  · rfl

/-- The memory has the framebuffer's pixels, and room for a character. -/
structure Fits (w : GopWriter) : Prop where
  stride : w.pixels.stride = w.stride
  height : w.pixels.height = w.height
  width_le : w.width ≤ w.stride
  rows_pos : 0 < w.rows
  cols_pos : 0 < w.cols

theorem Fits.rows_le (_ : w.Fits) : w.rows * fontHeight ≤ w.height := by
  rw [rows_eq]
  exact Nat.div_mul_le_self _ _

theorem Fits.cols_le (_ : w.Fits) : w.cols * fontWidth ≤ w.width := by
  rw [cols_eq]
  exact Nat.div_mul_le_self _ _

/-- Painted pixels are in the same memory. -/
theorem Fits.painted (h : w.Fits) {pixels : Raster UInt32} {S : ℕ → ℕ → Prop} {f : ℕ → ℕ → UInt32}
    (hpaints : w.pixels.Paints pixels S f) : Fits { w with pixels } :=
  ⟨hpaints.stride.trans h.stride, hpaints.height.trans h.height, h.width_le, h.rows_pos, h.cols_pos⟩

/-! ## Pixels -/

theorem drawPixel_paints (h : w.Fits) {pixels : Raster UInt32}
    (hstride : pixels.stride = w.pixels.stride)
    (hheight : pixels.height = w.pixels.height) (x y : ℕ) (color : UInt32) :
    ∃ pixels', w.drawPixel x y color pixels = some pixels' ∧
      pixels.Paints pixels' (fun y' x' => (y' = y ∧ x' = x) ∧ x < w.width ∧ y < w.height)
        fun _ _ => color := by
  unfold drawPixel
  by_cases hinside : x < w.width ∧ y < w.height
  · rw [if_pos hinside, ← h.stride, ← hstride]
    have hx : x < pixels.stride := by
      rw [hstride, h.stride]
      exact hinside.1.trans_le h.width_le
    have hy : y < pixels.height := by
      rw [hheight, h.height]
      exact hinside.2
    obtain ⟨pixels', hwritten, hpaints⟩ := Raster.write_paints hx hy color
    exact ⟨pixels', hwritten, hpaints.congr (fun _ _ => (and_iff_left hinside).symm)
      fun _ _ _ _ => rfl⟩
  · rw [if_neg hinside]
    refine ⟨pixels, rfl, (Raster.Paints.refl pixels fun _ _ => color).congr (fun _ _ => ?_)
      fun _ _ _ _ => rfl⟩
    exact iff_of_false not_false fun hpainted => hinside hpainted.2

/-- The pixels of a character's place, as far as they are on the screen. -/
def Block (w : GopWriter) (col row y x : ℕ) : Prop :=
  (row * fontHeight ≤ y ∧ y < row * fontHeight + fontHeight) ∧
    (col * fontWidth ≤ x ∧ x < col * fontWidth + fontWidth) ∧
    x < w.width ∧ y < w.height

theorem drawChar_paints (h : w.Fits) (c col row : ℕ) (fg bg : UInt32) :
    ∃ pixels, w.drawChar c col row fg bg = some { w with pixels } ∧
      w.pixels.Paints pixels (w.Block col row) fun y x =>
        pixelColor (min c 255) (y - row * fontHeight) (x - col * fontWidth) fg bg := by
  have hline (dy : ℕ) (hdy : dy < fontHeight) (pixels : Raster UInt32)
    (hstride : pixels.stride = w.pixels.stride)
      (hheight : pixels.height = w.pixels.height) :
      ∃ pixels', (List.range 8).foldlM
        (fun pixels dx => w.drawPixel (col * fontWidth + dx) (row * fontHeight + dy)
          (pixelColor (min c 255) dy dx fg bg) pixels) pixels = some pixels' ∧
        pixels.Paints pixels' (fun y x => y = row * fontHeight + dy ∧
          w.Block col row y x) fun y x =>
          pixelColor (min c 255) (y - row * fontHeight) (x - col * fontWidth) fg bg := by
    obtain ⟨pixels', hdrawn, hpaints⟩ := Raster.foldlM_paints (r := pixels)
      (f := fun y x => pixelColor (min c 255) (y - row * fontHeight) (x - col * fontWidth) fg bg)
      (fun pixels dx => w.drawPixel (col * fontWidth + dx) (row * fontHeight + dy)
        (pixelColor (min c 255) dy dx fg bg) pixels) (List.range 8)
      (fun dx y x => (y = row * fontHeight + dy ∧ x = col * fontWidth + dx) ∧
        col * fontWidth + dx < w.width ∧ row * fontHeight + dy < w.height)
      fun dx _ u S hu _ => by
        obtain ⟨u', hdrawn, hpaints⟩ :=
          drawPixel_paints h (hu.stride.trans hstride) (hu.height.trans hheight)
          (col * fontWidth + dx) (row * fontHeight + dy) (pixelColor (min c 255) dy dx fg bg)
        refine ⟨u', hdrawn, hpaints.congr (fun _ _ => Iff.rfl) ?_⟩
        rintro _ _ _ ⟨⟨rfl, rfl⟩, -⟩
        rw [Nat.add_sub_cancel_left, Nat.add_sub_cancel_left]
    refine ⟨pixels', hdrawn, hpaints.congr (fun y x => ?_) fun _ _ _ _ => rfl⟩
    unfold Block
    constructor
    · rintro ⟨dx, hdx, ⟨rfl, rfl⟩, hx, hy⟩
      have hdx : dx < fontWidth := List.mem_range.mp hdx
      exact ⟨rfl, ⟨Nat.le_add_right _ _, Nat.add_lt_add_left hdy _⟩,
        ⟨Nat.le_add_right _ _, Nat.add_lt_add_left hdx _⟩, hx, hy⟩
    · rintro ⟨rfl, -, ⟨hge, hlt⟩, hx, hy⟩
      have hdx : x - col * fontWidth < 8 := Nat.sub_lt_left_of_lt_add hge hlt
      have hsum : col * fontWidth + (x - col * fontWidth) = x := Nat.add_sub_cancel' hge
      exact ⟨x - col * fontWidth, List.mem_range.mpr hdx, ⟨rfl, hsum.symm⟩, hsum.symm ▸ hx, hy⟩
  obtain ⟨pixels, hdrawn, hpaints⟩ := Raster.foldlM_paints (r := w.pixels)
    (f := fun y x => pixelColor (min c 255) (y - row * fontHeight) (x - col * fontWidth) fg bg)
    (fun pixels dy => (List.range 8).foldlM (fun pixels dx => w.drawPixel (col * fontWidth + dx)
      (row * fontHeight + dy) (pixelColor (min c 255) dy dx fg bg) pixels) pixels)
        (List.range fontHeight)
    (fun dy y x => y = row * fontHeight + dy ∧ w.Block col row y x)
    fun dy hdy u S hu _ => hline dy (List.mem_range.mp hdy) u hu.stride hu.height
  refine ⟨pixels, ?_, hpaints.congr (fun y x => ?_) fun _ _ _ _ => rfl⟩
  · rw [drawChar, hdrawn]
    rfl
  · constructor
    · rintro ⟨_, _, _, hblock⟩
      exact hblock
    · intro hblock
      have hdy : y - row * fontHeight < fontHeight :=
        Nat.sub_lt_left_of_lt_add hblock.1.1 hblock.1.2
      exact ⟨_, List.mem_range.mpr hdy, (Nat.add_sub_cancel' hblock.1.1).symm, hblock⟩

/-- A part of the screen's pixels, filled row by row. -/
theorem fill_paints (h : w.Fits) {pixels : Raster UInt32}
    (hstride : pixels.stride = w.pixels.stride)
    (hheight : pixels.height = w.pixels.height)
    (step : ℕ → ℕ → Raster UInt32 → Option (Raster UInt32)) (l : List ℕ)
    (hl : ∀ y ∈ l, y < w.height)
    (hstep : ∀ y x u, y < w.height → x < w.width →
      step y x u = u.write (y * w.stride + x) w.bgColor) :
    ∃ pixels', l.foldlM (fun pixels y => (List.range w.width).foldlM
      (fun pixels x => step y x pixels) pixels) pixels =
        some pixels' ∧ pixels.Paints pixels' (fun y x => y ∈ l ∧ x < w.width)
          fun _ _ => w.bgColor := by
  have hline (y : ℕ) (hy : y < w.height) (u : Raster UInt32) (hus : u.stride = w.pixels.stride)
      (huh : u.height = w.pixels.height) :
      ∃ u', (List.range w.width).foldlM (fun pixels x => step y x pixels) u = some u' ∧
        u.Paints u' (fun y' x' => y' = y ∧ x' < w.width) fun _ _ => w.bgColor := by
    obtain ⟨u', hfilled, hpaints⟩ := Raster.foldlM_paints (r := u) (f := fun _ _ => w.bgColor)
      (fun pixels x => step y x pixels) (List.range w.width) (fun x y' x' => y' = y ∧ x' = x)
      fun x hx v S hv _ => by
        have hx := List.mem_range.mp hx
        have hvs : v.stride = w.stride := hv.stride.trans (hus.trans h.stride)
        have hvh : v.height = w.height := hv.height.trans (huh.trans h.height)
        rw [hstep y x v hy hx, ← hvs]
        exact Raster.write_paints (hvs ▸ hx.trans_le h.width_le) (hvh ▸ hy) w.bgColor
    refine ⟨u', hfilled, hpaints.congr (fun y' x' => ?_) fun _ _ _ _ => rfl⟩
    exact ⟨fun ⟨x, hx, hsame, hx'⟩ => ⟨hsame, hx' ▸ List.mem_range.mp hx⟩,
      fun ⟨hsame, hx'⟩ => ⟨x', List.mem_range.mpr hx', hsame, rfl⟩⟩
  obtain ⟨pixels', hfilled, hpaints⟩ :=
    Raster.foldlM_paints (r := pixels) (f := fun _ _ => w.bgColor)
    (fun pixels y => (List.range w.width).foldlM (fun pixels x => step y x pixels) pixels) l
    (fun y y' x' => y' = y ∧ x' < w.width)
    fun y hy u S hu _ => hline y (hl y hy) u (hu.stride.trans hstride) (hu.height.trans hheight)
  refine ⟨pixels', hfilled, hpaints.congr (fun y x => ?_) fun _ _ _ _ => rfl⟩
  exact ⟨fun ⟨y', hy', hsame, hx⟩ => ⟨hsame ▸ hy', hx⟩, fun ⟨hy, hx⟩ => ⟨y, hy, rfl, hx⟩⟩

/-! ## The screen -/

/-- The cell of the screen has the character's glyph, in the writer's colours. -/
def Cell (w : GopWriter) (pixels : Raster UInt32) (row col : ℕ) (byte : UInt8) : Prop :=
  ∀ dy dx, dy < fontHeight → dx < fontWidth →
    pixels.at_ (row * fontHeight + dy) (col * fontWidth + dx) =
      pixelColor byte.toNat dy dx w.fgColor w.bgColor

/-- The writer has a terminal's cursor, and if `drawn` it shows the terminal's screen. -/
structure Shows (drawn : Prop) (w : GopWriter) (s : Screen rows cols) : Prop where
  fits : w.Fits
  rows_eq : w.rows = rows
  cols_eq : w.cols = cols
  row : w.cursorRow = s.row
  column : w.cursorCol = s.column
  active : drawn → w.isActive = true
  cell : drawn → ∀ (row : Fin rows) (col : Fin cols), w.Cell w.pixels row col (s.cell row col)

variable {drawn : Prop}

/-- A cell of a row is inside of the screen's pixels. -/
theorem Shows.inside (h : Shows drawn w s) {col : ℕ} (hcol : col < cols) {dx : ℕ}
    (hdx : dx < fontWidth) :
    col * fontWidth + dx < w.width := by
  have hle := h.fits.cols_le
  have hmul : (col + 1) * fontWidth ≤ w.cols * fontWidth :=
    Nat.mul_le_mul_right _ (h.cols_eq ▸ hcol)
  rw [Nat.succ_mul] at hmul
  omega

theorem Shows.below (h : Shows drawn w s) {row : ℕ} (hrow : row < rows) {dy : ℕ}
    (hdy : dy < fontHeight) :
    row * fontHeight + dy < w.height := by
  have hle := h.fits.rows_le
  have hmul : (row + 1) * fontHeight ≤ w.rows * fontHeight :=
    Nat.mul_le_mul_right _ (h.rows_eq ▸ hrow)
  rw [Nat.succ_mul] at hmul
  omega

/-- What is blank has the background's colour. -/
theorem pixelColor_blank (dy dx : ℕ) (fg bg : UInt32) :
    pixelColor Terminal.blank.toNat dy dx fg bg = bg := by
  unfold pixelColor
  rw [show Terminal.blank.toNat = 0x20 from rfl, glyphRow_space, UInt8.zero_and,
    if_neg (not_not.mpr rfl)]

theorem Shows.newLine (h : Shows drawn w s) :
    ∃ w', w.newLine = some w' ∧ Shows drawn w' s.lineFeed := by
  have hrow := h.row
  unfold Screen.lineFeed
  by_cases hlast : s.row + 1 < rows
  · rw [dif_pos hlast]
    refine ⟨{ w with cursorRow := w.cursorRow + 1, cursorCol := 0 }, if_pos ?_, ?_⟩
    · rw [hrow, h.rows_eq]
      exact hlast
    · exact ⟨⟨h.fits.stride, h.fits.height, h.fits.width_le, h.fits.rows_pos,
        h.fits.cols_pos⟩, h.rows_eq,
        h.cols_eq, congrArg (· + 1) hrow, rfl, h.active, h.cell⟩
  · rw [dif_neg hlast]
    have hpos := h.fits.rows_pos
    have hheight := h.fits.rows_le
    -- the rows above the last one
    have hcopied : (w.rows - 1) * fontHeight + fontHeight = w.rows * fontHeight := by
      rw [← Nat.succ_mul, Nat.succ_eq_add_one, Nat.sub_add_cancel hpos]
    obtain ⟨moved, hmoved, hmoves⟩ := Raster.foldlM_moves (r := w.pixels) (d := fontHeight)
      (n := (w.rows - 1) * fontHeight)
      (fun pixels y => pixels.copy ((y + fontHeight) * w.stride) (y * w.stride)
        w.stride) (by decide)
      fun y hy u hus huh => by
        have hstride : u.stride = w.stride := hus.trans h.fits.stride
        rw [← hstride]
        refine Raster.copy_moves (by decide) ?_
        rw [huh, h.fits.height]
        omega
    obtain ⟨filled, hfilled, hfills⟩ := fill_paints h.fits hmoves.stride hmoves.height
      (fun y x pixels => pixels.write (y * w.stride + x) w.bgColor)
      (List.range' ((w.rows - 1) * fontHeight) (w.height - (w.rows - 1) * fontHeight))
      (fun y hy => by
        rw [List.mem_range'_1] at hy
        omega)
      fun _ _ _ _ _ => rfl
    refine ⟨{ w with pixels := filled, cursorCol := 0 }, ?_, ?_⟩
    · unfold GopWriter.newLine
      rw [if_neg (by rw [hrow, h.rows_eq]; exact hlast), if_neg hpos.ne']
      dsimp only
      rw [hmoved]
      show (do let pixels ← _; some { w with pixels, cursorCol := 0 }) = _
      rw [hfilled]
      rfl
    · have hfits := h.fits.painted hmoves
      refine ⟨?_, h.rows_eq, h.cols_eq, hrow, rfl, h.active, fun hdrawn row col dy dx hdy hdx => ?_⟩
      · exact ⟨hfills.stride.trans hfits.stride, hfills.height.trans hfits.height, h.fits.width_le,
          hpos, h.fits.cols_pos⟩
      have hx := h.inside col.isLt hdx
      have hx' : col * fontWidth + dx < w.pixels.stride := by
        rw [h.fits.stride]
        exact hx.trans_le h.fits.width_le
      have hx'' : col * fontWidth + dx < moved.stride := hmoves.stride ▸ hx'
      show filled.at_ (row * fontHeight + dy) (col * fontWidth + dx) =
        pixelColor (if hbelow : (row : ℕ) + 1 < rows then s.cell ⟨row + 1, hbelow⟩ col
          else Terminal.blank).toNat
          dy dx w.fgColor w.bgColor
      by_cases hbelow : (row : ℕ) + 1 < rows
      · -- pixels that have been moved up, and not cleared
        have habove : row * fontHeight + dy < (w.rows - 1) * fontHeight := by
          have hmul : (row + 1) * fontHeight ≤ (w.rows - 1) * fontHeight :=
            Nat.mul_le_mul_right _ (by rw [h.rows_eq]; omega)
          rw [Nat.succ_mul] at hmul
          omega
        have hshift : row * fontHeight + dy + fontHeight = (row + 1) * fontHeight + dy := by
          rw [Nat.succ_mul]
          omega
        rw [hfills.kept _ _ hx'' (fun hmem => by
          have hmem := List.mem_range'_1.mp hmem.1
          omega), hmoves.painted _ _ hx' habove, hshift, dif_pos hbelow]
        exact h.cell hdrawn ⟨row + 1, hbelow⟩ col dy dx hdy hdx
      · have hrowLast : (row : ℕ) = w.rows - 1 := by
          have := row.isLt
          rw [h.rows_eq]
          omega
        have hbottom := h.below row.isLt hdy
        rw [hfills.painted _ _ hx'' ⟨List.mem_range'_1.mpr (by rw [hrowLast] at hbottom ⊢; omega),
          hx⟩, dif_neg hbelow]
        exact (pixelColor_blank dy dx _ _).symm

/-- A place in the block of a character is in no other block. -/
theorem quotient_eq {unit i j d : ℕ} (hd : d < unit) (hge : j * unit ≤ i * unit + d)
    (hlt : i * unit + d < j * unit + unit) : i = j := by
  have hinside : i * unit + d = j * unit + (i * unit + d - j * unit) := by omega
  exact ((Raster.place_inj hd (by omega)).mp hinside).1

/-- A character where the cursor is. -/
theorem Shows.set (h : Shows drawn w s) (byte : UInt8) (hcolumn : s.column < cols) :
    ∃ w', w.drawChar byte.toNat w.cursorCol w.cursorRow w.fgColor w.bgColor = some w' ∧
      Shows drawn { w' with cursorCol := w'.cursorCol + 1 } (s.set byte) := by
  obtain ⟨pixels, hdrawn, hpaints⟩ :=
    drawChar_paints h.fits byte.toNat w.cursorCol w.cursorRow w.fgColor w.bgColor
  have hindex : min byte.toNat 255 = byte.toNat := Nat.min_eq_left (Nat.le_of_lt_succ byte.toNat_lt)
  rw [hindex] at hpaints
  unfold Screen.set
  rw [dif_pos hcolumn]
  refine ⟨_, hdrawn, ⟨hpaints.stride.trans h.fits.stride, hpaints.height.trans h.fits.height,
    h.fits.width_le,
    h.fits.rows_pos, h.fits.cols_pos⟩, h.rows_eq, h.cols_eq, h.row,
      congrArg (· + 1) h.column, h.active,
    fun hdrawn row col dy dx hdy hdx => ?_⟩
  have hx := h.inside col.isLt hdx
  have hx' : col * fontWidth + dx < w.pixels.stride := by
    rw [h.fits.stride]
    exact hx.trans_le h.fits.width_le
  have hy := h.below row.isLt hdy
  show pixels.at_ (row * fontHeight + dy) (col * fontWidth + dx) =
    pixelColor (if row = s.row ∧ (col : ℕ) = s.column then byte else s.cell row col).toNat dy dx
      w.fgColor w.bgColor
  by_cases hsame : row = s.row ∧ (col : ℕ) = s.column
  · have hrow : w.cursorRow = row := h.row.trans (congrArg _ hsame.1).symm
    have hcol : w.cursorCol = col := h.column.trans hsame.2.symm
    have hblock : w.Block w.cursorCol w.cursorRow (row * fontHeight + dy)
      (col * fontWidth + dx) := by
      rw [hrow, hcol]
      exact ⟨⟨Nat.le_add_right _ _, Nat.add_lt_add_left hdy _⟩,
        ⟨Nat.le_add_right _ _, Nat.add_lt_add_left hdx _⟩,
        hx, hy⟩
    rw [hpaints.painted _ _ hx' hblock, if_pos hsame, hrow, hcol, Nat.add_sub_cancel_left,
      Nat.add_sub_cancel_left]
  · rw [if_neg hsame, hpaints.kept _ _ hx' fun hblock => hsame ?_]
    · exact h.cell hdrawn row col dy dx hdy hdx
    · -- a pixel is in the block of one character
      obtain ⟨⟨hge, hlt⟩, ⟨hge', hlt'⟩, -⟩ := hblock
      rw [h.row] at hge hlt
      rw [h.column] at hge' hlt'
      exact ⟨Fin.ext (quotient_eq hdy hge hlt), quotient_eq hdx hge' hlt'⟩

theorem Shows.writeCharacter (h : Shows drawn w s) (hcols : 0 < cols) (byte : UInt8) :
    ∃ w', w.writeCharacter byte = some w' ∧ Shows drawn w' (s.put byte) := by
  unfold GopWriter.writeCharacter Screen.put
  rw [h.cols_eq, h.column]
  by_cases hcolumn : s.column < cols
  · obtain ⟨w', hdrawn, hshows⟩ := h.set byte hcolumn
    rw [if_neg (Nat.not_le.mpr hcolumn), if_pos hcolumn]
    refine ⟨_, ?_, hshows⟩
    show (do let w ← drawChar _ _ _ _ _ w; some { w with cursorCol := w.cursorCol + 1 }) = _
    rw [hdrawn]
    rfl
  · obtain ⟨w', hw', hline⟩ := h.newLine
    obtain ⟨w'', hdrawn, hshows⟩ := hline.set byte (s.column_lineFeed.trans_lt hcols)
    rw [if_pos (Nat.not_lt.mp hcolumn), if_neg hcolumn, hw']
    refine ⟨_, ?_, hshows⟩
    show (do let w ← drawChar _ _ _ _ _ w'; some { w with cursorCol := w.cursorCol + 1 }) = _
    rw [hdrawn]
    rfl

/-- After any byte an active writer shows what the terminal shows. -/
theorem Shows.writeByte (h : Shows drawn w s) (hactive : w.isActive = true) (byte : UInt8) :
    ∃ w', w.writeByte byte = some w' ∧ Shows drawn w' (s.write byte) := by
  have hcols : 0 < cols := h.cols_eq ▸ h.fits.cols_pos
  have hfits := h.fits
  unfold GopWriter.writeByte Screen.write
  rw [if_neg (not_not.mpr hactive)]
  split_ifs with hnewline hbackspace hreturn htab
  · exact h.newLine
  · exact ⟨_, rfl, ⟨hfits.stride, hfits.height, hfits.width_le, hfits.rows_pos, hfits.cols_pos⟩,
      h.rows_eq, h.cols_eq,
      h.row, congrArg (· - 1) h.column, h.active, h.cell⟩
  · exact ⟨_, rfl, ⟨hfits.stride, hfits.height, hfits.width_le, hfits.rows_pos, hfits.cols_pos⟩,
      h.rows_eq, h.cols_eq,
      h.row, rfl, h.active, h.cell⟩
  · have hnext (w : GopWriter) (s : Screen rows cols) (h : Shows drawn w s)
      (hlt : s.column < cols) :
        ∃ w', w.writeCharacter Terminal.blank = some w' ∧
          Shows drawn w' (s.set Terminal.blank) := by
      have hput := h.writeCharacter hcols Terminal.blank
      rwa [Screen.put, if_pos hlt] at hput
    rw [h.column, h.cols_eq]
    exact Screen.padTo_shows h (fun h => h.column) (fun h hlt => hnext _ _ h hlt)
      (min_le_right _ _) (by omega)
  · exact h.writeCharacter hcols byte

theorem clearScreen_shows [NeZero rows] (h : w.Fits) (hrows : w.rows = rows) (hcols : w.cols = cols)
    (hactive : w.isActive = true) :
    ∃ w', w.clearScreen = some w' ∧ Shows True w' (Screen.clear : Screen rows cols) := by
  obtain ⟨pixels, hfilled, hpaints⟩ :=
    fill_paints h rfl rfl (fun y x pixels => w.drawPixel x y w.bgColor pixels)
    (List.range w.height) (fun y hy => List.mem_range.mp hy) fun y x u hy hx => if_pos ⟨hx, hy⟩
  have hshows : Shows False { w with cursorCol := 0, cursorRow := 0 }
    (Screen.clear : Screen rows cols) :=
    ⟨⟨h.stride, h.height, h.width_le, h.rows_pos, h.cols_pos⟩, hrows, hcols, rfl, rfl,
      (by simp), (by simp)⟩
  refine ⟨{ w with pixels, cursorCol := 0, cursorRow := 0 }, ?_, ?_⟩
  · rw [clearScreen, hfilled]
    rfl
  · refine ⟨⟨hpaints.stride.trans h.stride, hpaints.height.trans h.height, h.width_le, h.rows_pos,
      h.cols_pos⟩,
      hrows, hcols, rfl, rfl, fun _ => hactive, fun _ row col dy dx hdy hdx => ?_⟩
    have hx := hshows.inside col.isLt hdx
    have hx' : col * fontWidth + dx < w.pixels.stride := by
      rw [h.stride]
      exact hx.trans_le h.width_le
    show pixels.at_ _ _ = pixelColor Terminal.blank.toNat dy dx w.fgColor w.bgColor
    rw [hpaints.painted _ _ hx' ⟨List.mem_range.mpr (hshows.below row.isLt hdy), hx⟩,
      pixelColor_blank]

theorem Shows.writeStr (h : Shows True w s) (bytes : List UInt8) :
    ∃ w', w.writeStr bytes = some w' ∧ Shows True w' (s.print bytes) :=
  Screen.foldlM_shows h (P := fun _ => True)
    (fun {_ _ byte} h _ => h.writeByte (h.active trivial) byte) fun _ _ => trivial

/-! ## All calls -/

inductive Call where
  | writeByte (byte : UInt8)
  | backspace
  | clearScreen
  | setColor (fg bg : Color)
  | drawPixel (x y : ℕ) (color : UInt32)
  | drawChar (c col row : ℕ) (fg bg : UInt32)

def perform (w : GopWriter) : Call → Option GopWriter
  | .writeByte byte => w.writeByte byte
  | .backspace => w.backspace
  | .clearScreen => w.clearScreen
  | .setColor fg bg => some (w.setColor fg bg)
  | .drawPixel x y color => (w.drawPixel x y color w.pixels).map fun pixels => { w with pixels }
  | .drawChar c col row fg bg => w.drawChar c col row fg bg

/-- The cursor is one of a terminal, whatever the pixels are. -/
def Standing (rows cols : ℕ) (w : GopWriter) : Prop :=
  ∃ s : Screen rows cols, Shows False w s

theorem Standing.painted (h : Standing rows cols w) {pixels : Raster UInt32} {S : ℕ → ℕ → Prop}
    {f : ℕ → ℕ → UInt32} (hpaints : w.pixels.Paints pixels S f) :
    Standing rows cols { w with pixels } := by
  obtain ⟨s, h⟩ := h
  exact ⟨s, h.fits.painted hpaints, h.rows_eq, h.cols_eq, h.row, h.column, (by simp), (by simp)⟩

/-- No call leaves the pixels or the screen. -/
theorem Standing.perform (h : Standing rows cols w) (call : Call) :
    ∃ w', w.perform call = some w' ∧ Standing rows cols w' := by
  obtain ⟨s, hshows⟩ := h
  have hfits := hshows.fits
  cases call with
  | writeByte byte =>
    by_cases hactive : w.isActive = true
    · obtain ⟨w', hw', hnext⟩ := hshows.writeByte hactive byte
      exact ⟨w', hw', _, hnext⟩
    · exact ⟨w, if_pos hactive, s, hshows⟩
  | backspace =>
    unfold GopWriter.perform GopWriter.backspace
    by_cases hpositive : 0 < w.cursorCol
    · have hmoved : Standing rows cols { w with cursorCol := w.cursorCol - 1 } :=
        ⟨⟨s.cell, s.row, s.column - 1, (Nat.sub_le _ _).trans s.column_le⟩,
          ⟨hfits.stride, hfits.height, hfits.width_le, hfits.rows_pos, hfits.cols_pos⟩,
            hshows.rows_eq, hshows.cols_eq,
          hshows.row, congrArg (· - 1) hshows.column, (by simp), (by simp)⟩
      obtain ⟨t, ht⟩ := hmoved
      obtain ⟨pixels, hdrawn, hpaints⟩ :=
        drawChar_paints ht.fits 0x20 (w.cursorCol - 1) w.cursorRow w.fgColor w.bgColor
      rw [if_pos hpositive]
      exact ⟨_, hdrawn, Standing.painted ⟨t, ht⟩ hpaints⟩
    · rw [if_neg hpositive]
      exact ⟨w, rfl, s, hshows⟩
  | clearScreen =>
    obtain ⟨pixels, hfilled, hpaints⟩ :=
      fill_paints hfits rfl rfl (fun y x pixels => w.drawPixel x y w.bgColor pixels)
      (List.range w.height) (fun y hy => List.mem_range.mp hy) fun y x u hy hx => if_pos ⟨hx, hy⟩
    refine ⟨{ w with pixels, cursorCol := 0, cursorRow := 0 }, ?_, ?_⟩
    · show w.clearScreen = _
      rw [GopWriter.clearScreen, hfilled]
      rfl
    · have hrow : 0 < rows := hshows.rows_eq ▸ hfits.rows_pos
      have hpainted := hfits.painted hpaints
      exact ⟨⟨s.cell, ⟨0, hrow⟩, 0, Nat.zero_le _⟩,
        ⟨hpainted.stride, hpainted.height, hfits.width_le, hfits.rows_pos,
        hfits.cols_pos⟩, hshows.rows_eq, hshows.cols_eq, rfl, rfl, (by simp), (by simp)⟩
  | setColor fg bg =>
    exact ⟨_, rfl, s, ⟨hfits.stride, hfits.height, hfits.width_le, hfits.rows_pos, hfits.cols_pos⟩,
      hshows.rows_eq,
      hshows.cols_eq, hshows.row, hshows.column, (by simp), (by simp)⟩
  | drawPixel x y color =>
    obtain ⟨pixels, hdrawn, hpaints⟩ := drawPixel_paints hfits rfl rfl x y color
    exact ⟨{ w with pixels }, by rw [GopWriter.perform, hdrawn]; rfl,
      Standing.painted ⟨s, hshows⟩ hpaints⟩
  | drawChar c col row fg bg =>
    obtain ⟨pixels, hdrawn, hpaints⟩ := drawChar_paints hfits c col row fg bg
    exact ⟨_, hdrawn, Standing.painted ⟨s, hshows⟩ hpaints⟩

theorem Standing.calls (h : Standing rows cols w) (calls : List Call) :
    ∃ w', calls.foldlM GopWriter.perform w = some w' ∧ Standing rows cols w' := by
  induction calls generalizing w with
  | nil => exact ⟨w, rfl, h⟩
  | cons call calls ih =>
    obtain ⟨w', hw', hnext⟩ := h.perform call
    obtain ⟨w'', hw'', hlast⟩ := ih hnext
    exact ⟨w'', by rw [List.foldlM_cons, hw']; exact hw'', hlast⟩

/-! ## Both consoles -/

/-- The memory has the pixels of the framebuffer, with room for a character. -/
structure Describes (info : FramebufferInfo) (memory : Raster UInt32) : Prop where
  stride : memory.stride = info.stride
  height : memory.height = info.height
  width_le : info.width ≤ info.stride
  rows_pos : 0 < info.height / fontHeight
  cols_pos : 0 < info.width / fontWidth

/-- Printable ASCII and the control characters of the line editor. -/
def Typed (byte : UInt8) : Prop :=
  0x20 ≤ byte ∧ byte ≤ 0x7e ∨ byte = Terminal.newline ∨ byte = Terminal.carriageReturn ∨
    byte = Terminal.tabulator ∨ byte = Terminal.backspace

theorem init_fits {info : FramebufferInfo} {memory : Raster UInt32} (h : Describes info memory)
    (base : ℕ) :
    Fits ⟨base, info.width, info.height, info.stride, info.pixelFormat, 0, 0, 0x00ffffff,
      0, memory⟩ :=
  ⟨h.stride, h.height, h.width_le, by rw [GopWriter.rows_eq]; exact h.rows_pos,
    by rw [GopWriter.cols_eq]; exact h.cols_pos⟩

/-- **One screen on two consoles.** From a cleared screen on, any text of printable characters and
control characters leaves both consoles with the cursor of a terminal, the VGA console with its
characters and the framebuffer console with their glyphs, which only a bracket and a brace share;
and no call of the framebuffer console ever accesses anything but the framebuffer's pixels. -/
theorem consoles_agree (physToVirt : ℕ → ℕ) :
    (∀ (vga : Vga.Writer) (info : FramebufferInfo) (memory : Raster UInt32) (bytes : List UInt8),
      Vga.Writer.Mapped vga.buffer → Describes info memory → physToVirt info.baseAddr ≠ 0 →
      info.height / fontHeight = Vga.bufferHeight → info.width / fontWidth = Vga.bufferWidth →
      (∀ byte ∈ bytes, Typed byte) →
      ∃ vga' gop', vga.clearScreen >>= Vga.Writer.writeString bytes = some vga' ∧
        init physToVirt memory info >>= writeStr bytes = some gop' ∧
        vga'.rowPosition = gop'.cursorRow ∧ vga'.columnPosition = gop'.cursorCol ∧
        vga'.Shows (Screen.clear.print bytes) ∧
        Shows True gop' (Screen.clear.print bytes : Screen Vga.bufferHeight Vga.bufferWidth)) ∧
    (∀ c c', 0x20 ≤ c ∧ c ≤ 0x7e → 0x20 ≤ c' ∧ c' ≤ 0x7e →
      (font8x16 c = font8x16 c' ↔ c = c' ∨ c = 0x5b ∧ c' = 0x7b ∨ c = 0x7b ∧ c' = 0x5b)) ∧
    ∀ (info : FramebufferInfo) (memory : Raster UInt32) (calls : List Call), Describes info memory →
      ∃ w, init physToVirt memory info >>= calls.foldlM perform = some w := by
  refine ⟨?_, fun c c' hc hc' => font8x16_eq_iff hc hc', ?_⟩
  · intro vga info memory bytes hmapped hdescribes hbase hrows hcols hbytes
    have hfits := init_fits hdescribes (physToVirt info.baseAddr)
    have hrowsPos := hdescribes.rows_pos
    have hcolsPos := hdescribes.cols_pos
    have hwidth : 0 < info.width := Nat.pos_of_div_pos hcolsPos
    have hheight : 0 < info.height := Nat.pos_of_div_pos hrowsPos
    obtain ⟨vga₀, hvga₀, hclear⟩ := Vga.Writer.clearScreen_shows hmapped
    obtain ⟨vga', hvga', hvgaShows⟩ := hclear.writeString hbytes
    obtain ⟨gop₀, hgop₀, hgopClear⟩ : ∃ w, clearScreen _ = some w ∧
        Shows True w (Screen.clear : Screen Vga.bufferHeight Vga.bufferWidth) :=
      clearScreen_shows hfits ((GopWriter.rows_eq _).trans hrows)
        ((GopWriter.cols_eq _).trans hcols)
        (decide_eq_true ⟨hbase, hwidth, hheight⟩)
    obtain ⟨gop', hgop', hgopShows⟩ := hgopClear.writeStr bytes
    refine ⟨vga', gop', ?_, ?_, hvgaShows.row.trans hgopShows.row.symm,
      hvgaShows.column.trans hgopShows.column.symm,
      hvgaShows, hgopShows⟩
    · rw [hvga₀]
      exact hvga'
    · rw [init, hgop₀]
      exact hgop'
  · intro info memory calls hdescribes
    have hfits := init_fits hdescribes (physToVirt info.baseAddr)
    have hstart : Standing (info.height / fontHeight) (info.width / fontWidth)
        ⟨physToVirt info.baseAddr, info.width, info.height, info.stride, info.pixelFormat, 0, 0,
          0x00ffffff, 0, memory⟩ :=
      ⟨⟨fun _ _ => Terminal.blank, ⟨0, hdescribes.rows_pos⟩, 0, Nat.zero_le _⟩, hfits,
        GopWriter.rows_eq _,
        GopWriter.cols_eq _, rfl, rfl, (by simp), (by simp)⟩
    obtain ⟨w₀, hw₀, hcleared⟩ := hstart.perform .clearScreen
    obtain ⟨w, hw, -⟩ := hcleared.calls calls
    refine ⟨w, ?_⟩
    rw [show init physToVirt memory info = some w₀ from hw₀]
    exact hw

/-- A tab, a backspace and a second line on a screen of 645 by 410 pixels in lines of 656. -/
theorem consoles_agree_text :
    let memory : Raster UInt32 := ⟨656, 410, fun _ => 7⟩
    let buffer : Vga.Buffer := ⟨Vga.bufferWidth, Vga.bufferHeight, fun _ => ⟨0, 0⟩⟩
    let text : List UInt8 := [0x41, 0x09, 0x42, 0x08, 0x5b, 0x0a, 0x7e]
    ∃ vga gop, Vga.Writer.clearScreen ⟨0, 0, 0x0f, buffer⟩ >>= Vga.Writer.writeString
      text = some vga ∧
      init (· + 1) memory ⟨0, 645, 410, 656, .rgb⟩ >>= writeStr text = some gop ∧
      vga.rowPosition = gop.cursorRow ∧ vga.columnPosition = gop.cursorCol ∧ gop.cursorCol = 1 ∧
      vga.Shows (Screen.clear.print text) ∧
      Shows True gop (Screen.clear.print text : Screen Vga.bufferHeight Vga.bufferWidth) := by
  intro memory buffer text
  obtain ⟨vga, gop, hvga, hgop, hrow, hcolumn, hvgaShows, hgopShows⟩ := (consoles_agree (· + 1)).1
    ⟨0, 0, 0x0f, buffer⟩ ⟨0, 645, 410, 656, .rgb⟩ memory text ⟨rfl, rfl⟩
    ⟨rfl, rfl, by decide, by decide, by decide⟩ (by decide) rfl rfl
      (by unfold Typed; decide +kernel)
  exact ⟨vga, gop, hvga, hgop, hrow, hcolumn, hgopShows.column.trans (by decide),
    hvgaShows, hgopShows⟩

end SaeOS.Gop.GopWriter
