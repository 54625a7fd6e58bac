import Mathlib.Data.List.Basic

/-!
# Standard output, line by line

`Stdout` of `libsaeos/src/io.rs`, where descriptor 1 takes all that is written to it. What has been sent and
what the buffer still has make up what has been printed (`writeStr_spec`).
-/

namespace SaeOS.Libsaeos

/-- `buffer[..length]`. -/
structure Stdout where
  buffer : List UInt8
  length_le : buffer.length ≤ 1024
deriving DecidableEq

namespace Stdout

def new : Stdout :=
  ⟨[], Nat.zero_le _⟩

/-- The bytes that go to descriptor 1, and the buffer after them. -/
def flush (s : Stdout) : List UInt8 × Stdout :=
  (s.buffer, new)

/-- `buffer[length] = byte`, where the buffer is not full. -/
def push (s : Stdout) (byte : UInt8) (h : s.buffer.length < 1024) : Stdout :=
  ⟨s.buffer ++ [byte], by
    rw [List.length_append]
    exact h⟩

/-- Room for a byte: a full buffer is sent first. -/
def makeRoom (s : Stdout) : List UInt8 × Stdout :=
  if s.buffer.length = 1024 then s.flush else ([], s)

theorem makeRoom_lt (s : Stdout) : s.makeRoom.2.buffer.length < 1024 := by
  unfold makeRoom
  split_ifs with hfull
  · show 0 < 1024
    decide
  · exact Nat.lt_of_le_of_ne s.length_le hfull

/-- One round of the loop of `write_str`. -/
def writeByte (s : Stdout) (byte : UInt8) : List UInt8 × Stdout :=
  let pushed := s.makeRoom.2.push byte s.makeRoom_lt
  if byte = '\n'.toUInt8 then (s.makeRoom.1 ++ pushed.flush.1, pushed.flush.2)
  else (s.makeRoom.1, pushed)

def writeStr (s : Stdout) : List UInt8 → List UInt8 × Stdout
  | [] => ([], s)
  | byte :: bytes =>
    let rest := (s.writeByte byte).2.writeStr bytes
    ((s.writeByte byte).1 ++ rest.1, rest.2)

theorem makeRoom_spec (s : Stdout) : s.makeRoom.1 ++ s.makeRoom.2.buffer = s.buffer := by
  unfold makeRoom
  split_ifs
  · exact List.append_nil _
  · rfl

theorem writeByte_spec (s : Stdout) (byte : UInt8) :
    (s.writeByte byte).1 ++ (s.writeByte byte).2.buffer = s.buffer ++ [byte] := by
  have hpushed : s.makeRoom.1 ++ (s.makeRoom.2.buffer ++ [byte]) = s.buffer ++ [byte] := by
    rw [← List.append_assoc, makeRoom_spec]
  unfold writeByte
  split_ifs
  · -- after a newline the buffer is empty
    rw [← hpushed]
    exact List.append_nil _
  · exact hpushed

theorem writeStr_spec (s : Stdout) (bytes : List UInt8) :
    (s.writeStr bytes).1 ++ (s.writeStr bytes).2.buffer = s.buffer ++ bytes := by
  induction bytes generalizing s with
  | nil => exact (List.append_nil _).symm
  | cons byte bytes ih =>
    calc (s.writeByte byte).1 ++ ((s.writeByte byte).2.writeStr bytes).1 ++
          ((s.writeByte byte).2.writeStr bytes).2.buffer
      _ = (s.writeByte byte).1 ++ ((s.writeByte byte).2.buffer ++ bytes) := by
        rw [List.append_assoc, ih]
      _ = s.buffer ++ byte :: bytes := by
        rw [← List.append_assoc, writeByte_spec, List.append_assoc, List.singleton_append]

end Stdout

end SaeOS.Libsaeos
