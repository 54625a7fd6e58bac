import SaeOS.Errno
import SaeOS.Fs.Dirents

/-!
# The initial user stack

`exec/stack.rs`: the arguments, the environment and the auxiliary vector of a new program, laid out so
that they end at the top of its stack. Arguments are the bytes of their strings. Counts of words and bytes
are those of objects in memory, so they do not overflow.
-/

namespace SaeOS.Exec.Stack

open Fs (toLeBytes resize)

def atNull : ℕ := 0

def atRandom : ℕ := 25

/-- The bytes to place so they end at the top, and the initial stack pointer. -/
structure InitialStack where
  bytes : List UInt8
  stackPointer : ℕ

/-- Append the values to the string area, each with its terminator; their offsets in it. -/
def offsets (strings : List UInt8) : List (List UInt8) → List ℕ × List UInt8
  | [] => ([], strings)
  | value :: values =>
    let (rest, area) := offsets (strings ++ value ++ [0]) values
    (strings.length :: rest, area)

/-- Build the stack; `auxv` excludes `AT_RANDOM` and `AT_NULL`, which are added here. -/
def build (top : ℕ) (argv envp : List (List UInt8)) (auxv : List (ℕ × ℕ)) (random : Vector UInt8 16)
    (limit : ℕ) : Except Errno InitialStack :=
  -- argv strings, envp strings, then the random bytes
  let (argvOffsets, strings) := offsets [] argv
  let (envpOffsets, strings) := offsets strings envp
  let randomOffset := strings.length
  let strings := strings ++ random.toList
  if top < strings.length then .error .E2BIG
  else
    let stringsStart := top - strings.length
    let address := fun offset => stringsStart + offset
    let auxv := auxv ++ [(atRandom, address randomOffset), (atNull, 0)]
    let words := 1 + argv.length + 1 + envp.length + 1 + auxv.length * 2
    if stringsStart < words * 8 then .error .E2BIG
    else
      -- 16-byte aligned
      let stackPointer := (stringsStart - words * 8) / 16 * 16
      let total := top - stackPointer
      if total > limit then .error .E2BIG
      else
        let bytes := toLeBytes 8 argv.length ++
          (argvOffsets.map address).flatMap (toLeBytes 8) ++ toLeBytes 8 0 ++
          (envpOffsets.map address).flatMap (toLeBytes 8) ++ toLeBytes 8 0 ++
          auxv.flatMap fun (kind, value) => toLeBytes 8 kind ++ toLeBytes 8 value
        .ok ⟨resize bytes (total - strings.length) ++ strings, stackPointer⟩

end SaeOS.Exec.Stack
