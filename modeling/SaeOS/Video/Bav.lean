import Mathlib.Logic.Function.Basic
import SaeOS.Lib.Leb128

/-!
# BAV video

Black-and-white video as run lengths of the rows that changed: the encoder of `scripts/bav.py` and
the decoder of `coreutils/src/bav.rs`, over the same bytes. A pixel is a `Bool`, `true` for white;
a frame is the flat list of its pixels, row after row.

What Python raises and what an assertion stops is `none`; the decoder's errors are its own. A decoder
is not used again after an error, so an error carries no decoder.
-/

namespace SaeOS.Bav

/-- Row `y` of a frame. -/
def row (width : ℕ) (bits : List Bool) (y : ℕ) : List Bool :=
  (bits.drop (y * width)).take width

/-! ## The encoder -/

namespace Encoder

/-- `RUN.findall`: the lengths of the maximal runs of equal pixels. -/
def findRuns : List Bool → List ℕ
  | [] => []
  | [_] => [1]
  | a :: b :: rest =>
    match findRuns (b :: rest) with
    | [] => [1]
    | n :: runs => if a = b then (n + 1) :: runs else 1 :: n :: runs

/-- `row_runs`: run lengths of a row, starting with black. -/
def rowRuns (pixels : List Bool) : List ℕ :=
  let runs := findRuns pixels
  if pixels.take 1 = [true] then 0 :: runs else runs

/-- `struct.pack("<H", …)`, which raises if the value does not fit. -/
def packU16 (value : ℕ) : Option (List UInt8) :=
  if value < 2 ^ 16 then some [UInt8.ofNat value, UInt8.ofNat (value >>> 8)] else none

/-- `struct.pack("<I", …)`. -/
def packU32 (value : ℕ) : Option (List UInt8) :=
  if value < 2 ^ 32 then some [UInt8.ofNat value, UInt8.ofNat (value >>> 8),
    UInt8.ofNat (value >>> 16), UInt8.ofNat (value >>> 24)]
  else none

/-- `MAGIC`: the bytes of `BAV1`. -/
def magic : List UInt8 :=
  [0x42, 0x41, 0x56, 0x31]

end Encoder

/-- The encoder. `file` holds what is written behind the header. -/
structure Encoder where
  width : ℕ
  height : ℕ
  fpsNum : ℕ
  fpsDen : ℕ
  previous : ℕ → List Bool
  frames : ℕ := 0
  file : List UInt8 := []

namespace Encoder

/-- `__init__`: before the first frame everything is black. -/
def init (width height fpsNum fpsDen : ℕ) : Encoder where
  width := width
  height := height
  fpsNum := fpsNum
  fpsDen := fpsDen
  previous := fun _ => List.replicate width false

/-- The header with a frame count. -/
def header (e : Encoder) (frames : ℕ) : Option (List UInt8) := do
  let width ← packU16 e.width
  let height ← packU16 e.height
  let fpsNum ← packU16 e.fpsNum
  let fpsDen ← packU16 e.fpsDen
  let frames ← packU32 frames
  return magic ++ width ++ height ++ fpsNum ++ fpsDen ++ frames

/-- The variables of the loop in `add`. -/
structure Rows where
  previous : ℕ → List Bool
  body : List UInt8 := []
  changed : ℕ := 0
  last : ℤ := -1

/-- One round of the loop in `add`. -/
def addRow (width : ℕ) (bits : List Bool) (s : Rows) (y : ℕ) : Option Rows :=
  let pixels := row width bits y
  if pixels = s.previous y then some s
  else
    let runs := rowRuns pixels
    if runs.sum = width then
      some {
        previous := Function.update s.previous y pixels
        body := s.body ++ Leb128.encode (y - s.last - 1).toNat ++ Leb128.encode runs.length ++
          runs.flatMap Leb128.encode
        changed := s.changed + 1
        last := y }
    else none

/-- Encode one frame. -/
def add (e : Encoder) (bits : List Bool) : Option Encoder :=
  if bits.length ≠ e.width * e.height then none
  else do
    let s ← (List.range e.height).foldlM (addRow e.width bits) { previous := e.previous }
    let payload := Leb128.encode s.changed ++ s.body
    return { e with
      previous := s.previous
      file := e.file ++ Leb128.encode payload.length ++ payload
      frames := e.frames + 1 }

/-- `finish`: the file, with the frame count patched into the header. -/
def finish (e : Encoder) : Option (List UInt8) := do
  let header ← e.header e.frames
  return header ++ e.file

/-- A whole video; the header is first written with the frame count 0. -/
def encode (width height fpsNum fpsDen : ℕ) (frames : List (List Bool)) : Option (List UInt8) := do
  let e := init width height fpsNum fpsDen
  let _ ← e.header 0
  let e ← frames.foldlM add e
  e.finish

end Encoder

/-! ## The decoder -/

structure Header where
  width : ℕ
  height : ℕ
  fpsNumerator : ℕ
  fpsDenominator : ℕ
  frames : ℕ
  deriving DecidableEq, Repr

inductive BavError
  | notBav
  | truncated
  | badVarint
  | badRow
  | badLength
  deriving DecidableEq, Repr

/-- `u16::from_le_bytes` at an offset. -/
def u16At (bytes : List UInt8) (offset : ℕ) : ℕ :=
  (bytes.getD offset 0).toNat + (bytes.getD (offset + 1) 0).toNat * 2 ^ 8

/-- `u32::from_le_bytes` at an offset. -/
def u32At (bytes : List UInt8) (offset : ℕ) : ℕ :=
  u16At bytes offset + u16At bytes (offset + 2) * 2 ^ 16

/-- `HEADER_BYTES`. -/
def headerBytes : ℕ := 16

def parseHeader (bytes : List UInt8) : Except BavError Header :=
  if bytes.length < headerBytes || bytes.take 4 != Encoder.magic then .error .notBav
  else
    let header : Header := {
      width := u16At bytes 4
      height := u16At bytes 6
      fpsNumerator := u16At bytes 8
      fpsDenominator := u16At bytes 10
      frames := u32At bytes 12 }
    if header.width = 0 ∨ header.height = 0 ∨ header.fpsNumerator = 0 ∨ header.fpsDenominator = 0 then
      .error .notBav
    else .ok header

/-- Plays a BAV file frame by frame into a bitmap. -/
structure Decoder where
  data : List UInt8
  offset : ℕ
  header : Header
  decoded : ℕ
  pixels : List Bool

namespace Decoder

def new (data : List UInt8) : Except BavError Decoder := do
  let header ← parseHeader data
  return { data, offset := headerBytes, header, decoded := 0
           pixels := List.replicate (header.width * header.height) false }

/-- The loop of `varint`, over the shifts that are left; the value and the offset behind it. A value
of 35 bits is a `usize`. -/
def varintFrom (data : List UInt8) (stop : ℕ) : List ℕ → ℕ → ℕ → Except BavError (ℕ × ℕ)
  | [], _, _ => .error .badVarint
  | shift :: shifts, value, offset =>
    match (data.take stop)[offset]? with
    | none => .error .truncated
    | some byte =>
      let value := value ||| Leb128.payload byte <<< shift
      if Leb128.more byte then varintFrom data stop shifts value (offset + 1)
      else .ok (value, offset + 1)

def varint (data : List UInt8) (stop offset : ℕ) : Except BavError (ℕ × ℕ) :=
  varintFrom data stop [0, 7, 14, 21, 28] 0 offset

/-- `pixels[start..stop].fill(colour)`. -/
def fill (pixels : List Bool) (start stop : ℕ) (colour : Bool) : List Bool :=
  pixels.mapIdx fun i pixel => if start ≤ i ∧ i < stop then colour else pixel

/-- The loop over the runs of row `y`: the column reached, the offset, and the pixels. -/
def decodeRuns (data : List UInt8) (stop width y : ℕ) :
    ℕ → ℕ → Bool → ℕ → List Bool → Except BavError (ℕ × ℕ × List Bool)
  | 0, x, _, offset, pixels => .ok (x, offset, pixels)
  | runs + 1, x, colour, offset, pixels => do
    let (run, offset) ← varint data stop offset
    if x + run ≤ width then
      decodeRuns data stop width y runs (x + run) (!colour) offset
        (fill pixels (y * width + x) (y * width + (x + run)) colour)
    else .error .badRow

/-- The loop over the changed rows, with the number of rows left and those done: the offset, the
pixels, and the rows reported as changed. -/
def decodeRows (data : List UInt8) (stop width height : ℕ) :
    ℕ → ℕ → ℕ → ℕ → List Bool → List ℕ → Except BavError (ℕ × List Bool × List ℕ)
  | 0, _, _, offset, pixels, changed => .ok (offset, pixels, changed)
  | rows + 1, index, y, offset, pixels, changed => do
    let (gap, offset) ← varint data stop offset
    let y := if index = 0 then gap else y + 1 + gap
    if y ≥ height then .error .badRow
    else
      let (runs, offset) ← varint data stop offset
      let (x, offset, pixels) ← decodeRuns data stop width y runs 0 false offset pixels
      if x ≠ width then .error .badRow
      else
        decodeRows data stop width height rows (index + 1) y offset pixels
          (changed ++ [y % 2 ^ 16])

/-- Apply the next frame: whether there was one, the rows it changed, and the decoder after it. -/
def nextFrame (d : Decoder) : Except BavError (Bool × List ℕ × Decoder) :=
  if d.decoded = d.header.frames then .ok (false, [], d)
  else do
    let (length, offset) ← varint d.data d.data.length d.offset
    if offset + length ≤ d.data.length then
      let stop := offset + length
      let (rows, offset) ← varint d.data stop offset
      let (offset, pixels, changed) ←
        decodeRows d.data stop d.header.width d.header.height rows 0 0 offset d.pixels []
      if offset ≠ stop then .error .badLength
      else .ok (true, changed, { d with offset, pixels, decoded := d.decoded + 1 })
    else .error .truncated

/-- Playing to the end: `frames` are the pixels after each frame, with the rows reported as
changed. -/
inductive Plays : Decoder → List (List Bool × List ℕ) → Prop
  | done {d : Decoder} (h : d.nextFrame = .ok (false, [], d)) : Plays d []
  | next {d d' : Decoder} {changed : List ℕ} {rest : List (List Bool × List ℕ)}
      (h : d.nextFrame = .ok (true, changed, d')) (hrest : Plays d' rest) :
      Plays d ((d'.pixels, changed) :: rest)

end Decoder

end SaeOS.Bav
