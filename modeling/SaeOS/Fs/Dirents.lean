import SaeOS.Fs.File
import SaeOS.Lib.ByteMemory
import SaeOS.Lib.Layout
import SaeOS.Lib.Text

/-!
# Directory listing in the kernel

`getdents64` (`syscall/mod.rs`) with the record format (`syscall/abi.rs`), the directory walk
(`Vfs::readdir_with`), `Vfs::lseek` and the copy to user memory (`mm/uaccess.rs`). What the listing asks
an inode is a record of the answers, since the directory does not change.
-/

namespace SaeOS.Fs

open Text

structure DirEntry where
  name : Text
  ino : ℕ
  kind : InodeKind
  deriving DecidableEq

/-- The answers of an inode. -/
structure InodeView where
  kind : InodeKind
  size : ℕ
  entries : Except Errno (List DirEntry)
  /-- A device that is memory (`/dev/fb0`). -/
  isMemory : Bool := false

/-- Whether `lseek` works: files and directories, not streams. -/
def InodeView.seekable (inode : InodeView) : Bool :=
  inode.kind != .charDevice || inode.isMemory

theorem InodeView.seekable_of_kind {inode : InodeView} (h : inode.kind ≠ .charDevice) :
    inode.seekable = true := by
  simp [seekable, h]

/-! ## User memory -/

/-- First address above the user half. -/
def userTop : ℕ := 0x00007ffffffff000

/-- `address..address + length` must lie entirely in the user half. -/
def checkRange (address length : ℕ) : Except Errno Unit :=
  if address + length ≤ userTop then .ok () else .error .EFAULT

/-- The bytes and where they may be written. -/
structure UserMemory where
  bytes : Memory
  writable : ℕ → Bool

namespace UserMemory

/-- Bytes stored one after the other. -/
def store (memory : UserMemory) (address : ℕ) : List UInt8 → UserMemory
  | [] => memory
  | byte :: data =>
    store { memory with bytes := Function.update memory.bytes address byte } (address + 1) data

/-- Copy `data` to user memory; what stands before the first byte that faults is copied. -/
def write (memory : UserMemory) (address : ℕ) (data : List UInt8) : Except Errno Unit × UserMemory :=
  match checkRange address data.length with
  | .error e => (.error e, memory)
  | .ok () =>
    let copied := ((List.range data.length).takeWhile fun i => memory.writable (address + i)).length
    (if copied = data.length then .ok () else .error .EFAULT,
      memory.store address (data.take copied))

/-- What the program reads. -/
def read (memory : UserMemory) (address length : ℕ) : List UInt8 :=
  (List.range length).map fun i => memory.bytes (address + i)

end UserMemory

/-! ## Records -/

/-- `to_le_bytes` of a number of the given width. -/
def toLeBytes (width n : ℕ) : List UInt8 :=
  (List.range width).map fun i => UInt8.ofNat (n / 2 ^ (8 * i))

/-- Size of one `struct linux_dirent64`: 19 header bytes, the name and its NUL, padded to 8. -/
def direntSize (name : Text) : ℕ :=
  Layout.roundUp (19 + (asBytes name).length + 1) 8

/-- `d_type`. -/
def direntType : InodeKind → UInt8
  | .file => 8
  | .directory => 4
  | .charDevice => 2

/-- `Vec::resize`. -/
def resize (bytes : List UInt8) (length : ℕ) : List UInt8 :=
  bytes.take length ++ List.replicate (length - bytes.length) 0

/-- Append one `struct linux_dirent64`. -/
def encodeDirent (buffer : List UInt8) (entry : DirEntry) (nextOffset : ℕ) : List UInt8 :=
  let size := direntSize entry.name
  let start := buffer.length
  let buffer := buffer ++ toLeBytes 8 entry.ino ++ toLeBytes 8 nextOffset
  -- `size as u16`
  let buffer := buffer ++ toLeBytes 2 (size % 2 ^ 16) ++ [direntType entry.kind]
  resize (buffer ++ asBytes entry.name) (start + size)

/-! ## The directory walk -/

variable {ι σ : Type}

/-- The loop of `readdir_with` with the state of its closure. -/
def takeEntries (take : σ → ℕ → DirEntry → σ × Bool) (s : σ) (position : ℕ) :
    List DirEntry → σ × ℕ
  | [] => (s, position)
  | entry :: entries =>
    match take s position entry with
    | (s, true) => takeEntries take s (position + 1) entries
    | (s, false) => (s, position)

/-- Offer entries one at a time, and advance only past those `take` accepts. -/
def readdirWith (inodes : ι → InodeView) (files : Files ι) (fd : ℕ)
    (take : σ → ℕ → DirEntry → σ × Bool) (s : σ) : Except Errno (σ × Files ι) := do
  let (id, file) ← files.get fd
  if (inodes file.inode).kind ≠ .directory then throw .ENOTDIR
  let entries ← (inodes file.inode).entries
  let (s, position) := takeEntries take s file.offset (entries.drop file.offset)
  return (s, files.setOffset id position)

/-- `Vfs::lseek`; the offset is an `i64`. -/
def lseek (inodes : ι → InodeView) (files : Files ι) (fd : ℕ) (offset : ℤ) (whence : Whence) :
    Except Errno (ℕ × Files ι) := do
  let (id, file) ← files.get fd
  if ¬ (inodes file.inode).seekable then throw .ESPIPE
  let base : ℤ := match whence with
    | .set => 0
    | .current => file.offset
    | .end => (inodes file.inode).size
  let target := base + offset
  if ¬ target < 2 ^ 63 ∨ target < 0 then throw .EINVAL
  return (target.toNat, files.setOffset id target.toNat)

/-! ## The system call -/

/-- What the system call works on. -/
structure Context (ι : Type) where
  files : Files ι
  memory : UserMemory

/-- Largest single transfer. -/
def maxTransfer : ℕ := 64 * 1024

/-- `fd`: a descriptor argument. -/
def fdOf (value : ℕ) : Except Errno ℕ :=
  if value < 2 ^ 32 then .ok value else .error .EBADF

/-- The records so far, and whether not even the first fits. -/
structure Listing where
  encoded : List UInt8
  tooSmall : Bool
  deriving DecidableEq

/-- The closure of `getdents64`: take entries only while they fit. -/
def takeDirent (count : ℕ) (listing : Listing) (position : ℕ) (entry : DirEntry) : Listing × Bool :=
  if listing.encoded.length + direntSize entry.name > count then
    ({ listing with tooSmall := listing.encoded.isEmpty }, false)
  else ({ listing with encoded := encodeDirent listing.encoded entry (position + 1) }, true)

/-- `getdents64`: the bytes stored in the buffer. -/
def getdents64 (inodes : ι → InodeView) (context : Context ι) (fdValue buffer count : ℕ) :
    Except Errno ℕ × Context ι :=
  match fdOf fdValue with
  | .error e => (.error e, context)
  | .ok fd =>
    let count := min count maxTransfer
    match checkRange buffer count with
    | .error e => (.error e, context)
    | .ok () =>
      match readdirWith inodes context.files fd (takeDirent count) ⟨[], false⟩ with
      | .error e => (.error e, context)
      | .ok (listing, files) =>
        let context := { context with files }
        if listing.tooSmall then (.error .EINVAL, context)
        else
          let (written, memory) := context.memory.write buffer listing.encoded
          (written.map fun () => listing.encoded.length, { context with memory })

end SaeOS.Fs
