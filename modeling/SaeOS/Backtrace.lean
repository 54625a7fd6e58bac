import Mathlib.Algebra.Group.Nat.Defs
import SaeOS.Lib.Footprint
import SaeOS.Lib.Rounds

/-!
# Backtraces

`backtrace.rs`: the walk along the chain of frame pointers, and the walk with the unwind tables of a PE image. A
walk reads the stack, which may be corrupted, after it has asked whether the pages are mapped in the current root.
Additions are checked for overflow.

The image is given by its functions with their unwind codes and by its code, which are assumed to be well formed
and mapped. A walk collects the addresses that it visits.
-/

namespace SaeOS.Backtrace

open Reading

def maxFrames : ℕ := 32
def kernelCodeSelector : ℕ := 0x08

/-- `DIRECT_MAP_BASE`. -/
def directMapBase : ℕ := 0xffff800000000000

/-- `KERNEL_IMAGE_BASE`. -/
def kernelImageBase : ℕ := 0xffffffff80000000

/-- The bytes that are mapped, given the mapped pages. The last bytes of a word at the end of the address space are
those at its beginning. -/
def mappedBytes (pages : ℕ → Bool) (address : ℕ) : Bool :=
  pages (address / 2 ^ 12 % 2 ^ 52)

/-- `a + b` in 64-bit words. -/
def add (a b : ℕ) : Reading ℕ :=
  if a + b < 2 ^ 64 then pure (a + b) else panics

/-- `readable`: whether the page of an address is mapped. -/
def isReadable (address : ℕ) : Reading Bool :=
  fun readable => .ok (readable (address / 2 ^ 12 * 2 ^ 12))

section Walks

variable (memory : ℕ → UInt8)

def readWord (address : ℕ) : Reading ℕ :=
  number memory address 8

/-! ## Interrupt frames -/

/-- The candidates of `machine_frame` that are left: `(rip, rsp)` of the first plausible one. -/
def machineFrameFrom (isCode : ℕ → Bool) (slot : ℕ) : List ℕ → Reading (Option (ℕ × ℕ))
  | [] => pure none
  | word :: words => do
    let ripSlot ← add slot (word * 8)
    let rip ← readWord memory ripSlot
    let cs ← readWord memory (← add ripSlot 8)
    let rflags ← readWord memory (← add ripSlot 16)
    let rsp ← readWord memory (← add ripSlot 24)
    let ss ← readWord memory (← add ripSlot 32)
    if cs = kernelCodeSelector ∧ rflags / 2 % 2 = 1 ∧ rflags < 2 ^ 22 ∧ directMapBase ≤ rsp ∧
        (ss = 0 ∨ ss = 0x10) ∧ isCode rip = true then
      return some (rip, rsp)
    machineFrameFrom isCode slot words

def machineFrame (isCode : ℕ → Bool) (slot : ℕ) : Reading (Option (ℕ × ℕ)) :=
  machineFrameFrom memory isCode slot [0, 1, 2, 3]

/-! ## Frame pointers -/

def frameOk (rbp : ℕ) : Reading Bool :=
  if rbp % 8 = 0 ∧ directMapBase ≤ rbp ∧ rbp + 16 < 2 ^ 64 then do
    if ← isReadable rbp then isReadable (← add rbp 8) else return false
  else return false

/-- Where a walk along the frame pointers is. -/
structure Frame where
  rbp : ℕ
  visited : List ℕ := []

/-- What a round visits, and where it goes: out of an interrupt frame, or along the chain while it leads up. -/
def follow (s : Frame) (next : ℕ) : Option (ℕ × ℕ) → Reading (Frame ⊕ List ℕ)
  | some (rip, _) => return .inl { rbp := next, visited := s.visited ++ [rip] }
  | none => do
    let returnAddress ← readWord memory (← add s.rbp 8)
    let visited := if kernelImageBase ≤ returnAddress then s.visited ++ [returnAddress] else s.visited
    if next ≤ s.rbp then return .inr visited
    return .inl { rbp := next, visited }

/-- One round of `walk`. -/
def walkStep (s : Frame) : Reading (Frame ⊕ List ℕ) := do
  if maxFrames ≤ s.visited.length then return .inr s.visited
  if !(← frameOk s.rbp) then return .inr s.visited
  let next ← readWord memory s.rbp
  let slot ← add s.rbp 8
  let interrupted ←
    if ← isReadable (← add slot 64) then machineFrame memory (fun rip => kernelImageBase ≤ rip) slot
    else pure none
  follow memory s next interrupted

/-- The addresses that `walk` visits. -/
def walk (pages : ℕ → Bool) (rbp : ℕ) : Except ReadStop (List ℕ) :=
  (Rounds.run (fun s => walkStep memory s (mappedBytes pages)) (maxFrames * 2) { rbp }).map
    (Sum.elim Frame.visited id)

end Walks

/-! ## The image -/

/-- An `UNWIND_INFO`: its header fields and its codes. -/
structure UnwindInfo where
  flags : ℕ
  codeCount : ℕ
  frameRegister : ℕ
  frameOffset : ℕ
  code : ℕ → Fin (2 ^ 16)

/-- A `RUNTIME_FUNCTION`: the offsets of its code in the image, and its unwind information. -/
structure RuntimeFunction where
  start : ℕ
  stop : ℕ
  info : UnwindInfo

/-- The image: the functions of its exception directory, and its code. -/
structure Image where
  count : ℕ
  function : ℕ → RuntimeFunction
  byte : ℕ → UInt8

namespace Image

variable (image : Image)

/-- The search of `unwind_info`. -/
def search (rva low high : ℕ) : Option UnwindInfo :=
  if low < high then
    let middle := (low + high) / 2
    if rva < (image.function middle).start then search rva low middle
    else if (image.function middle).stop ≤ rva then search rva (middle + 1) high
    else some (image.function middle).info
  else none
termination_by high - low
decreasing_by all_goals omega

/-- The unwind information of the function that contains `rip`. -/
def unwindInfo (rip : ℕ) : Option UnwindInfo :=
  if kernelImageBase ≤ rip ∧ rip - kernelImageBase < 2 ^ 32 then image.search (rip - kernelImageBase) 0 image.count
  else none

/-- Whether an address directly follows a call instruction. -/
def followsCall (address : ℕ) : Bool :=
  let byte (back : ℕ) : UInt8 := image.byte (address - back)
  byte 5 = 0xe8 || (byte 2 = 0xff && byte 1 &&& 0x38 = 0x10) || (byte 3 = 0xff && byte 2 &&& 0x38 = 0x10) ||
    (byte 6 = 0xff && byte 5 &&& 0x38 = 0x10)

/-- A return address into code with unwind information. -/
def isReturn (candidate : ℕ) : Bool :=
  kernelImageBase + 0x1000 ≤ candidate && (image.unwindInfo candidate).isSome && image.followsCall candidate

end Image

namespace UnwindInfo

variable (info : UnwindInfo)

def operation (index : ℕ) : ℕ := (info.code index : ℕ) / 2 ^ 8 % 16

def infoBits (index : ℕ) : ℕ := (info.code index : ℕ) / 2 ^ 12

/-- How many codes an operation takes. -/
def slots (index : ℕ) : ℕ :=
  match info.operation index, info.infoBits index with
  | 1, 0 | 4, _ | 8, _ => 2
  | 1, _ | 5, _ | 9, _ => 3
  | _, _ => 1

theorem slots_pos (index : ℕ) : 0 < info.slots index := by
  unfold slots
  split <;> decide

/-- The codes up to the one that sets the frame register. -/
def skip (index : ℕ) : ℕ :=
  if index < info.codeCount then
    if info.operation index = 3 then index + info.slots index else skip (index + info.slots index)
  else index
termination_by info.codeCount - index
decreasing_by
  have := info.slots_pos index
  omega

/-- `UWOP_PUSH_NONVOL` of RBP. -/
def pushesRbp (index : ℕ) : Bool :=
  info.operation index = 0 && info.infoBits index = 5

/-- How far an operation has moved the stack pointer; `none` for one that is not known. -/
def moved (index : ℕ) : Option ℕ :=
  match info.operation index with
  | 0 => some 8
  | 1 =>
    if info.infoBits index = 0 then some ((info.code (index + 1) : ℕ) * 8)
    else some ((info.code (index + 1) : ℕ) ||| (info.code (index + 2) : ℕ) <<< 16)
  | 2 => some (info.infoBits index * 8 + 8)
  | 3 | 4 | 5 | 8 | 9 => some 0
  | _ => none

end UnwindInfo

section Unwind

variable (memory : ℕ → UInt8) (image : Image)

/-- Undo the operations from a code on: where the return address is, and the saved frame pointer. -/
def undoFrom (info : UnwindInfo) (index rsp : ℕ) (saved : Option ℕ) : Reading (Option (ℕ × Option ℕ)) :=
  if index < info.codeCount then
    match info.moved index with
    | none => return none
    | some bytes =>
      isReadable rsp >>= fun readable =>
      if info.pushesRbp index = true ∧ readable = false then return none
      else
        (if info.pushesRbp index = true then some <$> readWord memory rsp else pure saved) >>= fun saved =>
        add rsp bytes >>= fun rsp =>
        undoFrom info (index + info.slots index) rsp saved
  else return some (rsp, saved)
termination_by info.codeCount - index
decreasing_by
  have := info.slots_pos index
  omega

/-- Where undoing begins: the first code that is undone, and the stack pointer. -/
def undoStart (info : UnwindInfo) (rsp rbp : ℕ) (trusted : Bool) : Option (ℕ × ℕ) :=
  if info.flags / 4 % 2 = 1 ∨ info.frameRegister ≠ 0 ∧ info.frameRegister ≠ 5 then none
  else if info.frameRegister = 5 ∧ trusted = true then
    if rbp < info.frameOffset then none else some (info.skip 0, rbp - info.frameOffset)
  else some (0, rsp)

/-- `unwind`, given the information of the function. -/
def unwind (info : UnwindInfo) (rsp rbp : ℕ) (trusted : Bool) : Reading (Option (ℕ × Option ℕ)) :=
  match undoStart info rsp rbp trusted with
  | none => return none
  | some (index, rsp) => undoFrom memory info index rsp none

/-- The words of `scan_for_return` that are left. -/
def scanFrom (rsp : ℕ) : List ℕ → Reading (Option ℕ)
  | [] => return none
  | word :: words => do
    let slot ← add rsp (word * 8)
    if ← isReadable slot then
      let candidate ← readWord memory slot
      if image.isReturn candidate then return some slot
      scanFrom rsp words
    else scanFrom rsp words

def scanForReturn (rsp : ℕ) : Reading (Option ℕ) :=
  scanFrom memory image rsp (List.range 256)

/-- Where a walk with the unwind tables is. -/
structure Registers where
  rip : ℕ
  rsp : ℕ
  rbp : ℕ
  trusted : Bool := true
  visited : List ℕ := []

/-- The slot of the return address, and RBP of the caller, if it was saved. -/
def callerSlot (s : Registers) : Reading (Option (ℕ × Option ℕ × Bool)) :=
  match image.unwindInfo s.rip with
  | some info => do
    match ← unwind memory info s.rsp s.rbp s.trusted with
    | none => return none
    | some (slot, saved) => return some (slot, saved, saved.isSome || s.trusted)
  | none => do
    if s.rsp < directMapBase then return none
    if !(← isReadable s.rsp) then return none
    match ← scanForReturn memory image s.rsp with
    | none => return none
    | some slot => return some (slot, none, false)

/-- The caller and its stack pointer: those of an interrupt frame, or the return address and what is above it. -/
def callerOf (slot : ℕ) : Option (ℕ × ℕ) → Reading (ℕ × ℕ)
  | some frame => return frame
  | none => do
    let caller ← readWord memory slot
    let callerRsp ← add slot 8
    return (caller, callerRsp)

/-- What one round of the walk does with the slot. -/
def visitSlot (s : Registers) (slot : ℕ) (saved : Option ℕ) (trusted : Bool) : Reading (Registers ⊕ List ℕ) := do
  if slot < directMapBase then return .inr s.visited
  if !(← isReadable slot) then return .inr s.visited
  if !(← isReadable (← add slot 64)) then return .inr s.visited
  let frame ← machineFrame memory (fun rip => (image.unwindInfo rip).isSome) slot
  let (caller, callerRsp) ← callerOf memory slot frame
  if caller < kernelImageBase then return .inr s.visited
  return .inl {
    rip := caller, rsp := callerRsp, rbp := saved.getD s.rbp, trusted
    visited := s.visited ++ [caller] }

/-- One round of `win64::walk`. -/
def unwindStep (s : Registers) : Reading (Registers ⊕ List ℕ) := do
  match ← callerSlot memory image s with
  | none => return .inr s.visited
  | some (slot, saved, trusted) => visitSlot memory image s slot saved trusted

/-- The addresses that `win64::walk` visits. -/
def unwindWalk (pages : ℕ → Bool) (rip rsp rbp : ℕ) : Except ReadStop (List ℕ) :=
  (Rounds.run (fun s => unwindStep memory image s (mappedBytes pages)) maxFrames { rip, rsp, rbp }).map
    (Sum.elim Registers.visited id)

end Unwind

end SaeOS.Backtrace
