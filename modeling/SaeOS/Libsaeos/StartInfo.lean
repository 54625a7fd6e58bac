import SaeOS.Lib.PlacedBytes
import SaeOS.Libsaeos.Fs

/-!
# What the kernel hands a new program

`libsaeos/src/startinfo.rs`: walking the initial stack by its pointers. Memory is partial and a word is
read at an aligned address, so that an answer means that every read was in place. The loops get more
steps than an address space has words.
-/

namespace SaeOS.Libsaeos

/-- Memory as far as it is mapped. -/
abbrev PartialMemory : Type :=
  ℕ → Option UInt8

def atNull : ℕ := 0

structure StartInfo where
  argc : ℕ
  argv : ℕ
  envp : ℕ
  auxv : ℕ
  deriving DecidableEq

variable (memory : PartialMemory)

/-- Load a word through a pointer. -/
def readWord (address : ℕ) : Option ℕ :=
  if address % 8 = 0 then (PlacedBytes.read memory address 8).map fromLeBytes else none

/-- Entry `index` of a pointer array the kernel wrote. -/
def entry (array index : ℕ) : Option ℕ :=
  readWord memory (array + 8 * index)

/-- The loop of `c_string` over the bytes before the terminator. -/
def stringLength (pointer : ℕ) : ℕ → ℕ → Option ℕ
  | 0, _ => none
  | fuel + 1, length => do
    let byte ← memory (pointer + length)
    if byte ≠ 0 then stringLength pointer fuel (length + 1) else return length

/-- A NUL-terminated string. -/
def cString (pointer : ℕ) : Option (List UInt8) := do
  let length ← stringLength memory pointer (2 ^ 64) 0
  PlacedBytes.read memory pointer length

namespace StartInfo

/-- The loop of `from_stack` over the environment. -/
def countEntries (array : ℕ) : ℕ → ℕ → Option ℕ
  | 0, _ => none
  | fuel + 1, count => do
    let pointer ← entry memory array count
    if pointer ≠ 0 then countEntries array fuel (count + 1) else return count

def fromStack (stack : ℕ) : Option StartInfo := do
  let argc ← readWord memory stack
  let argv := stack + 8
  let envp := argv + 8 * (argc + 1)
  let count ← countEntries memory envp (2 ^ 61) 0
  return { argc, argv, envp, auxv := envp + 8 * (count + 1) }

/-- The loop of `aux`. -/
def auxFrom (kind : ℕ) : ℕ → ℕ → Option (Option ℕ)
  | 0, _ => none
  | fuel + 1, address => do
    let entryKind ← readWord memory address
    let value ← readWord memory (address + 8)
    if entryKind = atNull then return none
    else if entryKind = kind then return some value
    else auxFrom kind fuel (address + 16)

/-- The value of auxiliary vector entry `kind`. -/
def aux (info : StartInfo) (kind : ℕ) : Option (Option ℕ) :=
  auxFrom memory kind (2 ^ 60) info.auxv

end StartInfo

end SaeOS.Libsaeos
