import SaeOS.Drivers.Font
import SaeOS.Lib.Raster
import SaeOS.Lib.TerminalScreen

/-!
# The framebuffer console

`drivers/framebuffer.rs`: characters of 8 by 16 pixels in the rows of a framebuffer. Pixels are counted from
the mapped base address, and an access past the first `stride * height` of them is no result.
-/

namespace SaeOS.Gop

open Terminal (Screen)

inductive Color where
  | black | blue | green | cyan | red | magenta | brown | lightGray
  | darkGray | lightBlue | lightGreen | lightCyan | lightRed | pink | yellow | white
deriving DecidableEq

inductive PixelFormat where
  | rgb
  | bgr
  | unknown
deriving DecidableEq

structure FramebufferInfo where
  baseAddr : ℕ
  width : ℕ
  height : ℕ
  stride : ℕ
  pixelFormat : PixelFormat

structure GopWriter where
  mappedBaseAddr : ℕ
  width : ℕ
  height : ℕ
  stride : ℕ
  pixelFormat : PixelFormat
  cursorCol : ℕ
  cursorRow : ℕ
  fgColor : UInt32
  bgColor : UInt32
  /-- The memory at `mappedBaseAddr`. -/
  pixels : Raster UInt32

def Color.components : Color → UInt32 × UInt32 × UInt32
  | .black => (0, 0, 0)
  | .blue => (0, 0, 170)
  | .green => (0, 170, 0)
  | .cyan => (0, 170, 170)
  | .red => (170, 0, 0)
  | .magenta => (170, 0, 170)
  | .brown => (170, 85, 0)
  | .lightGray => (170, 170, 170)
  | .darkGray => (85, 85, 85)
  | .lightBlue => (85, 85, 255)
  | .lightGreen => (85, 255, 85)
  | .lightCyan => (85, 255, 255)
  | .lightRed => (255, 85, 85)
  | .pink => (255, 85, 255)
  | .yellow => (255, 255, 85)
  | .white => (255, 255, 255)

def colorToU32 (color : Color) (format : PixelFormat) : UInt32 :=
  let (r, g, b) := color.components
  match format with
  | .rgb => (r <<< 16) ||| (g <<< 8) ||| b
  | .bgr | .unknown => (b <<< 16) ||| (g <<< 8) ||| r

namespace GopWriter

def isActive (w : GopWriter) : Bool :=
  w.mappedBaseAddr ≠ 0 ∧ 0 < w.width ∧ 0 < w.height

def cols (w : GopWriter) : ℕ :=
  if w.width = 0 then 0 else w.width / fontWidth

def rows (w : GopWriter) : ℕ :=
  if w.height = 0 then 0 else w.height / fontHeight

def setColor (fg bg : Color) (w : GopWriter) : GopWriter :=
  { w with fgColor := colorToU32 fg w.pixelFormat, bgColor := colorToU32 bg w.pixelFormat }

/-- The memory after `draw_pixel`. -/
def drawPixel (w : GopWriter) (x y : ℕ) (color : UInt32) (pixels : Raster UInt32) : Option (Raster UInt32) :=
  if x < w.width ∧ y < w.height then pixels.write (y * w.stride + x) color else some pixels

/-- The colour of a pixel of a glyph. -/
def pixelColor (c dy dx : ℕ) (fg bg : UInt32) : UInt32 :=
  if (glyphRow c dy &&& (1 <<< UInt8.ofNat (7 - dx))) ≠ 0 then fg else bg

def drawChar (c col row : ℕ) (fg bg : UInt32) (w : GopWriter) : Option GopWriter := do
  let xStart := col * fontWidth
  let yStart := row * fontHeight
  let glyphIdx := min c 255
  let pixels ← (List.range fontHeight).foldlM (fun pixels dy =>
    (List.range 8).foldlM (fun pixels dx =>
      w.drawPixel (xStart + dx) (yStart + dy) (pixelColor glyphIdx dy dx fg bg) pixels) pixels) w.pixels
  some { w with pixels }

def newLine (w : GopWriter) : Option GopWriter :=
  if w.cursorRow + 1 < w.rows then some { w with cursorRow := w.cursorRow + 1, cursorCol := 0 }
  -- `rows() - 1` must not underflow
  else if w.rows = 0 then none
  else do
    let pixelRowsToCopy := (w.rows - 1) * fontHeight
    let pixels ← (List.range pixelRowsToCopy).foldlM (fun pixels y =>
      pixels.copy ((y + fontHeight) * w.stride) (y * w.stride) w.stride) w.pixels
    let pixels ← (List.range' pixelRowsToCopy (w.height - pixelRowsToCopy)).foldlM (fun pixels y =>
      (List.range w.width).foldlM (fun pixels x => pixels.write (y * w.stride + x) w.bgColor) pixels) pixels
    some { w with pixels, cursorCol := 0 }

/-- The last arm of `write_byte`. -/
def writeCharacter (byte : UInt8) (w : GopWriter) : Option GopWriter := do
  let w ← if w.cols ≤ w.cursorCol then w.newLine else some w
  let w ← w.drawChar byte.toNat w.cursorCol w.cursorRow w.fgColor w.bgColor
  some { w with cursorCol := w.cursorCol + 1 }

def writeByte (w : GopWriter) (byte : UInt8) : Option GopWriter :=
  if ¬ w.isActive then some w
  else if byte = Terminal.newline then w.newLine
  else if byte = Terminal.backspace then some { w with cursorCol := w.cursorCol - 1 }
  else if byte = Terminal.carriageReturn then some { w with cursorCol := 0 }
  else if byte = Terminal.tabulator then
    let next := (w.cursorCol / 8 + 1) * 8
    -- a tab is eight spaces at most
    Screen.padTo cursorCol (writeCharacter Terminal.blank) (min next w.cols) 8 w
  else w.writeCharacter byte

/-- `write_str`, over the bytes of the string. -/
def writeStr (bytes : List UInt8) (w : GopWriter) : Option GopWriter :=
  bytes.foldlM writeByte w

def backspace (w : GopWriter) : Option GopWriter :=
  if 0 < w.cursorCol then
    { w with cursorCol := w.cursorCol - 1 }.drawChar 0x20 (w.cursorCol - 1) w.cursorRow w.fgColor w.bgColor
  else some w

def clearScreen (w : GopWriter) : Option GopWriter := do
  let pixels ← (List.range w.height).foldlM (fun pixels y =>
    (List.range w.width).foldlM (fun pixels x => w.drawPixel x y w.bgColor pixels) pixels) w.pixels
  some { w with pixels, cursorCol := 0, cursorRow := 0 }

/-- A framebuffer of `info`, with the memory that `physToVirt` has mapped. -/
def init (physToVirt : ℕ → ℕ) (memory : Raster UInt32) (info : FramebufferInfo) : Option GopWriter :=
  clearScreen ⟨physToVirt info.baseAddr, info.width, info.height, info.stride, info.pixelFormat, 0, 0, 0x00ffffff,
    0, memory⟩

end GopWriter

end SaeOS.Gop
