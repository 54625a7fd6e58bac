import Mathlib.Algebra.Group.Int.Defs
import Mathlib.Algebra.Group.Nat.Defs
import Mathlib.Data.Int.Basic
import SaeOS.Lib.Run
import SaeOS.Lib.Transducer

/-!
# Sample conversion

`Converter::convert` (`sound/format.rs`) and the resampler it drives (`sound/resample.rs`): input bytes
of any supported format become 16-bit stereo frames at the card's rate. A frame that is split between
two calls waits in the carry, and the resampler keeps its two neighbouring frames and its position
between calls.

Samples are integers in the range of `i16`, positions are 32.32 fixed-point numbers. The loop of
`convert` has a bound on its rounds; running out of it, or a failed assertion, is `none`.
-/

namespace SaeOS.Sound

/-- A stereo frame: left and right. -/
abbrev Frame : Type := ℤ × ℤ

/-! ## The resampler -/

/-- `ONE` in 32.32 fixed point. -/
def one : ℕ := 2 ^ 32

structure Resampler where
  step : ℕ
  position : ℕ := 0
  previous : Option Frame := none
  next : Option Frame := none
  deriving DecidableEq, Repr

/-- `as i16`. -/
def toI16 (x : ℤ) : ℤ :=
  Int.bmod x (2 ^ 16)

namespace Resampler

def new (inputRate outputRate : ℕ) : Resampler where
  step := (inputRate <<< 32) / max outputRate 1

/-- `wants_input`. -/
def wantsInput (r : Resampler) : Bool :=
  r.next.isNone

/-- Take an input frame; `none` if the last one was not used. -/
def feed (r : Resampler) (frame : Frame) : Option Resampler :=
  if !r.wantsInput then none
  else if r.previous.isNone then some { r with previous := some frame }
  else some { r with next := some frame }

/-- A sample between two neighbours. -/
def mix (fraction : ℕ) (left right : ℤ) : ℤ :=
  toI16 (left + ((right - left) * fraction) / 2 ^ 32)

/-- The next output frame, or none when more input is needed. The position is below `one` when the
step is added, so the sum fits 64 bits. -/
def produce (r : Resampler) : Option Frame × Resampler :=
  match r.previous, r.next with
  | some previous, some next =>
    if r.position ≥ one then
      (none, { r with position := r.position - one, previous := some next, next := none })
    else
      (some (mix r.position previous.1 next.1, mix r.position previous.2 next.2),
        { r with position := r.position + r.step })
  | _, _ => (none, r)

end Resampler

/-! ## Formats -/

inductive Sample
  | u8
  | s16
  deriving DecidableEq, Repr

def Sample.bytes : Sample → ℕ
  | .u8 => 1
  | .s16 => 2

/-- The channel counts a format can have. -/
inductive Channels
  | mono
  | stereo
  deriving DecidableEq, Repr

def Channels.count : Channels → ℕ
  | .mono => 1
  | .stereo => 2

structure Format where
  rate : ℕ
  sample : Sample
  channels : Channels
  deriving DecidableEq, Repr

namespace Format

/-- `frame_bytes`. -/
def frameBytes (f : Format) : ℕ :=
  f.sample.bytes * f.channels.count

/-- A sample from the first bytes of a list. -/
def decode (f : Format) (bytes : List UInt8) : ℤ :=
  match f.sample with
  | .u8 => ((bytes.getD 0 0).toNat - 128) * 2 ^ 8
  | .s16 => toI16 ((bytes.getD 0 0).toNat + (bytes.getD 1 0).toNat * 2 ^ 8)

def decodeFrame (f : Format) (bytes : List UInt8) : Frame :=
  let size := f.sample.bytes
  let left := f.decode (bytes.take size)
  let right := match f.channels with
    | .stereo => f.decode ((bytes.drop size).take size)
    | .mono => left
  (left, right)

end Format

/-- `OUTPUT_FRAME`. -/
def outputFrame : ℕ := 4

/-- `i16::to_le_bytes`. -/
def sampleBytes (x : ℤ) : List UInt8 :=
  [UInt8.ofNat (x % 2 ^ 16).toNat, UInt8.ofNat ((x % 2 ^ 16).toNat >>> 8)]

/-- What the card gets for a frame. -/
def frameOutput (frame : Frame) : List UInt8 :=
  sampleBytes frame.1 ++ sampleBytes frame.2

/-! ## The converter -/

structure Converter where
  format : Format
  cardRate : ℕ
  resampler : Option Resampler
  carry : List UInt8 := [0, 0, 0, 0]
  carried : ℕ := 0
  deriving DecidableEq, Repr

namespace Converter

def new (format : Format) (cardRate : ℕ) : Converter where
  format := format
  cardRate := cardRate
  resampler := if format.rate ≠ cardRate then some (.new format.rate cardRate) else none

/-- The next whole input frame, completing a carried one first, with the bytes consumed. -/
def nextFrame (c : Converter) (input : List UInt8) (consumed : ℕ) : Option Frame × Converter × ℕ :=
  let size := c.format.frameBytes
  let rest := input.drop consumed
  if c.carried > 0 then
    let needed := size - c.carried
    if rest.length < needed then (none, c, consumed)
    else
      let carry := c.carry.take c.carried ++ rest.take needed ++ c.carry.drop size
      (some (c.format.decodeFrame (carry.take size)), { c with carry, carried := 0 },
        consumed + needed)
  else if rest.length < size then (none, c, consumed)
  else (some (c.format.decodeFrame (rest.take size)), c, consumed + size)

/-- The loop of `convert`, with the bytes consumed and the output written so far. -/
def convertLoop (input : List UInt8) (room : ℕ) :
    ℕ → Converter → ℕ → List UInt8 → Option (Converter × ℕ × List UInt8)
  | 0, _, _, _ => none
  | rounds + 1, c, consumed, output =>
    if room - output.length ≥ outputFrame then
      match c.resampler with
      | some resampler =>
        match resampler.produce with
        | (some frame, resampler) =>
          convertLoop input room rounds { c with resampler := some resampler } consumed
            (output ++ frameOutput frame)
        | (none, resampler) =>
          let c := { c with resampler := some resampler }
          if !resampler.wantsInput then convertLoop input room rounds c consumed output
          else
            match c.nextFrame input consumed with
            | (none, c, consumed) => some (c, consumed, output)
            | (some frame, c, consumed) => do
              let resampler ← resampler.feed frame
              convertLoop input room rounds { c with resampler := some resampler } consumed output
      | none =>
        match c.nextFrame input consumed with
        | (none, c, consumed) => some (c, consumed, output)
        | (some frame, c, consumed) =>
          convertLoop input room rounds c consumed (output ++ frameOutput frame)
    else some (c, consumed, output)

/-- What cannot make a whole frame waits in the carry. -/
def absorb (c : Converter) (input : List UInt8) (consumed : ℕ) : Converter × ℕ :=
  let rest := input.drop consumed
  if c.carried + rest.length < c.format.frameBytes then
    ({ c with
      carry := c.carry.take c.carried ++ rest ++ c.carry.drop (c.carried + rest.length)
      carried := c.carried + rest.length }, input.length)
  else (c, consumed)

/-- Convert as much of the input as fits in `room` bytes of output: the bytes consumed and the output
produced. -/
def convert (c : Converter) (input : List UInt8) (room : ℕ) :
    Option (Converter × ℕ × List UInt8) := do
  let (c, consumed, output) ← convertLoop input room (room + 2 * (c.carried + input.length) + 3) c 0 []
  let (c, consumed) := c.absorb input consumed
  return (c, consumed, output)

/-- Feeding a stream in pieces until it is used up and a call produces nothing: the output of all calls
and the converter at the end. Every call gets some of the bytes that are left and room for a frame. -/
inductive Feeds : Converter → List UInt8 → List UInt8 → Converter → Prop
  | last {c c' : Converter} {input : List UInt8} {room : ℕ} (hroom : outputFrame ≤ room)
      (hcall : c.convert input room = some (c', input.length, [])) : Feeds c input [] c'
  | call {c c' c'' : Converter} {input rest out out' : List UInt8} {room consumed : ℕ}
      (hroom : outputFrame ≤ room) (hcall : c.convert input room = some (c', consumed, out))
      (hrest : Feeds c' (input.drop consumed ++ rest) out' c'') :
      Feeds c (input ++ rest) (out ++ out') c''

end Converter

end SaeOS.Sound
