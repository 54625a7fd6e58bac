import SaeOS.Lib.Layout
import SaeOS.Lib.Text

/-!
# The initramfs parser of the kernel

`kernel/src/fs/initramfs.rs`, `parse`: every field, size and path of a cpio "newc" archive is checked.
An entry named `TRAILER!!!` ends an archive; zero padding and further archives may follow it.
-/

namespace SaeOS.Initramfs

open Text

def magic : List UInt8 :=
  [0x30, 0x37, 0x30, 0x37, 0x30, 0x31]

def headerLen : ℕ := 110

def trailer : Text :=
  "TRAILER!!!".toList

def sIfmt : UInt32 := 0o170000
def sIfreg : UInt32 := 0o100000
def sIfdir : UInt32 := 0o040000

inductive CpioError where
  /-- The archive ends inside a header, name, file body or padding, or has no trailer. -/
  | truncated
  | badMagic
  /-- A header field is not eight hexadecimal digits. -/
  | badNumber
  | badPath
  /-- A file type other than regular file or directory (the full mode). -/
  | unsupportedType (mode : UInt32)
  deriving DecidableEq

inductive EntryKind where
  | file
  | directory
  deriving DecidableEq

structure Entry where
  /-- Relative path with no `.` and `..` components. -/
  path : Text
  kind : EntryKind
  data : List UInt8
  deriving DecidableEq

/-- `to_digit(16)`. -/
def toDigit (byte : UInt8) : Option ℕ :=
  if 0x30 ≤ byte ∧ byte ≤ 0x39 then some (byte.toNat - 0x30)
  else if 0x61 ≤ byte ∧ byte ≤ 0x66 then some (byte.toNat - 0x61 + 10)
  else if 0x41 ≤ byte ∧ byte ≤ 0x46 then some (byte.toNat - 0x41 + 10)
  else none

def hex (field : List UInt8) : Except CpioError ℕ :=
  field.foldlM (fun value byte =>
    match toDigit byte with
    | some digit => .ok (value <<< 4 ||| digit)
    | none => .error .badNumber) 0

/-- Reduce a member name to safe relative components; `..` is rejected. -/
def cleanPath (name : Text) : Except CpioError Text :=
  (name.splitOn '/').foldlM (fun path component =>
    if component = [] ∨ component = ['.'] then .ok path
    else if component = ['.', '.'] then .error .badPath
    else if path ≠ [] then .ok (path ++ ['/'] ++ component)
    else .ok (path ++ component)) []

/-- `archive[start..start + length]`. An end that is no address is past the archive as well. -/
def slice (archive : List UInt8) (start length : ℕ) : Except CpioError (List UInt8) :=
  if start + length ≤ archive.length then .ok ((archive.drop start).take length)
  else .error .truncated

/-- What the first half of the loop reads: the name, the mode, the data and the offset behind them. -/
structure Member where
  name : Text
  mode : UInt32
  data : List UInt8
  next : ℕ
  deriving DecidableEq

/-- The thirteen fields of a header. -/
def headerFields (header : List UInt8) : Except CpioError (List ℕ) :=
  (List.range 13).mapM fun index => hex ((header.drop (6 + index * 8)).take 8)

/-- The checks of the name field: it ends in its only zero byte, and is text. -/
def memberName (field : List UInt8) : Except CpioError Text := do
  -- `split_last`
  unless field.getLast? = some 0 do throw .badPath
  let name := field.dropLast
  if name.isEmpty ∨ 0 ∈ name then throw .badPath
  match fromUtf8 name with
  | some name => return name
  | none => throw .badPath

/-- The loop of `parse` up to the end of the member's data. -/
def readMember (archive : List UInt8) (offset : ℕ) : Except CpioError Member := do
  let header ← slice archive offset headerLen
  if header.take 6 ≠ magic then throw .badMagic
  let fields ← headerFields header
  let mode := UInt32.ofNat (fields.getD 1 0)
  let size := fields.getD 6 0
  let nameSize := fields.getD 11 0
  let field ← slice archive (offset + headerLen) nameSize
  let name ← memberName field
  -- the data starts on a multiple of four bytes from the header
  let dataStart := offset + Layout.roundUp (headerLen + nameSize) 4
  let paddedSize := Layout.roundUp size 4
  let _ ← slice archive dataStart paddedSize
  return ⟨name, mode, (archive.drop dataStart).take size, dataStart + paddedSize⟩

/-- The kind of a member; `none` is the root itself, which needs no entry. -/
def entryKind (mode : UInt32) (path : Text) (size : ℕ) : Except CpioError (Option EntryKind) :=
  if mode &&& sIfmt = sIfreg then
    if path ≠ [] then .ok (some .file) else .error .badPath
  else if mode &&& sIfmt = sIfdir then
    if size ≠ 0 then .error .badNumber
    else if path = [] then .ok none
    else .ok (some .directory)
  else .error (.unsupportedType mode)

/-- Zero padding may separate concatenated archives. -/
def skipZeros (archive : List UInt8) (offset : ℕ) : ℕ :=
  offset + ((archive.drop offset).takeWhile (· == 0)).length

/-- The loop of `parse`. Every round moves the offset forward, so a run that uses up the archive's
length has left the archive, and reading on finds it truncated. -/
def parseFrom (archive : List UInt8) : ℕ → ℕ → List Entry → Except CpioError (List Entry)
  | 0, _, _ => .error .truncated
  | fuel + 1, offset, entries => do
    let member ← readMember archive offset
    if member.name = trailer then
      let offset := skipZeros archive member.next
      if offset = archive.length then return entries
      parseFrom archive fuel offset entries
    else
      let path ← cleanPath member.name
      match ← entryKind member.mode path member.data.length with
      | none => parseFrom archive fuel member.next entries
      | some kind => parseFrom archive fuel member.next (entries ++ [⟨path, kind, member.data⟩])

/-- Parse every entry of every concatenated archive, in order. -/
def parse (archive : List UInt8) : Except CpioError (List Entry) :=
  parseFrom archive (archive.length + 1) 0 []

end SaeOS.Initramfs
