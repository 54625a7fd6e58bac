import Mathlib
import SaeOS.Errno

/-!
# Names and inode kinds

The parts of `fs/inode.rs` that every file system uses. A name is its bytes, compared
lexicographically as the source's strings are, and a directory's entry map is an ordered map from
names to inode numbers.
-/

namespace SaeOS.Fs

/-- A path component. -/
abbrev Name := List UInt8

/-- The entry map of a directory. -/
abbrev Entries := Std.ExtTreeMap Name ℕ compare

/-- The byte of `/`. -/
def slash : UInt8 := 47

/-- The byte of `.`. -/
def dot : UInt8 := 46

inductive InodeKind
  | file
  | directory
  | charDevice
  deriving DecidableEq, Repr

/-- Longest name a directory entry may have. -/
def nameMax : ℕ := 255

/-- Validate a single path component for creation. -/
def checkName (name : Name) : Except Errno Unit :=
  if name = [] ∨ slash ∈ name then .error .ENOENT
  else if name.length > nameMax then .error .ENAMETOOLONG
  else if name = [dot] ∨ name = [dot, dot] then .error .EINVAL
  else .ok ()

theorem Entries.get_insert (entries : Entries) (name n : Name) (ino : ℕ) :
    (entries.insert name ino)[n]? = if n = name then some ino else entries[n]? := by
  rw [Std.ExtTreeMap.getElem?_insert]
  simp only [Std.LawfulEqCmp.compare_eq_iff_eq, @eq_comm _ name n]

theorem Entries.get_erase (entries : Entries) (name n : Name) :
    (entries.erase name)[n]? = if n = name then none else entries[n]? := by
  rw [Std.ExtTreeMap.getElem?_erase]
  simp only [Std.LawfulEqCmp.compare_eq_iff_eq, @eq_comm _ name n]

theorem Entries.isEmpty_iff_forall (entries : Entries) :
    entries.isEmpty = true ↔ ∀ name : Name, entries[name]? = none := by
  rw [Std.ExtTreeMap.isEmpty_iff]
  constructor
  · rintro rfl name
    exact Std.ExtTreeMap.getElem?_empty
  · intro h
    apply Std.ExtTreeMap.ext_getElem?
    intro name
    rw [h name, Std.ExtTreeMap.getElem?_empty]

end SaeOS.Fs
