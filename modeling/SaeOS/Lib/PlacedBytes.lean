import Mathlib.Data.List.Basic

/-!
# Bytes in an address space that is mostly empty

Memory in which an address holds a byte or nothing, and reading nothing fails. So a read that succeeds
has stayed on what was placed.
-/

namespace PlacedBytes

/-- Nothing but these bytes, from `start` on. -/
def place (start : ℕ) (bytes : List UInt8) (address : ℕ) : Option UInt8 :=
  if start ≤ address then bytes[address - start]? else none

/-- Memory with these bytes put at `start`. -/
def write (memory : ℕ → Option UInt8) (start : ℕ) (bytes : List UInt8) (address : ℕ) : Option UInt8 :=
  place start bytes address <|> memory address

/-- Read `count` bytes. -/
def read (memory : ℕ → Option UInt8) (address : ℕ) : ℕ → Option (List UInt8)
  | 0 => some []
  | count + 1 => do
    let byte ← memory address
    let bytes ← read memory (address + 1) count
    return byte :: bytes

/-- The bytes stand at the address. -/
def Holds (memory : ℕ → Option UInt8) (address : ℕ) (bytes : List UInt8) : Prop :=
  ∀ i < bytes.length, memory (address + i) = bytes[i]?

variable {memory : ℕ → Option UInt8} {address start : ℕ} {a b bytes : List UInt8}

theorem holds_place : Holds (place start bytes) start bytes := by
  intro i hi
  rw [place, if_pos (Nat.le_add_right start i), Nat.add_sub_cancel_left]

theorem Holds.left (h : Holds memory address (a ++ b)) : Holds memory address a := by
  intro i hi
  rw [h i (by rw [List.length_append]; omega), List.getElem?_append_left hi]

theorem Holds.right (h : Holds memory address (a ++ b)) : Holds memory (address + a.length) b := by
  intro i hi
  rw [Nat.add_assoc, h (a.length + i) (by rw [List.length_append]; omega),
    List.getElem?_append_right (Nat.le_add_right _ _), Nat.add_sub_cancel_left]

theorem Holds.head {byte : UInt8} (h : Holds memory address (byte :: bytes)) :
    memory address = some byte :=
  h 0 (Nat.succ_pos _)

theorem Holds.tail {byte : UInt8} (h : Holds memory address (byte :: bytes)) :
    Holds memory (address + 1) bytes :=
  Holds.right (a := [byte]) h

/-- What stands at an address is read there. -/
theorem Holds.read (h : Holds memory address bytes) :
    PlacedBytes.read memory address bytes.length = some bytes := by
  induction bytes generalizing address with
  | nil => rfl
  | cons byte bytes ih =>
    rw [List.length_cons, PlacedBytes.read, h.head, ih h.tail]
    rfl

/-- Only placed addresses are read. -/
theorem place_eq_some {byte : UInt8} (h : place start bytes address = some byte) :
    start ≤ address ∧ address < start + bytes.length := by
  unfold place at h
  split at h
  · rename_i hle
    have hlt := (List.getElem?_eq_some_iff.mp h).1
    omega
  · contradiction

/-- Within the bytes written, they are read. -/
theorem write_of_mem (hstart : start ≤ address) (hstop : address < start + bytes.length) :
    write memory start bytes address = bytes[address - start]? := by
  rw [write, place, if_pos hstart, List.getElem?_eq_getElem (by omega)]
  rfl

/-- Elsewhere memory is as it was. -/
theorem write_of_notMem (h : address < start ∨ start + bytes.length ≤ address) :
    write memory start bytes address = memory address := by
  have hnone : place start bytes address = none := by
    cases hplace : place start bytes address with
    | none => rfl
    | some byte =>
      have hmem := place_eq_some hplace
      omega
  rw [write, hnone]
  rfl

end PlacedBytes
