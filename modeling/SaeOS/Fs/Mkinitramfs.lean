import SaeOS.Lib.Layout
import SaeOS.Lib.Text

/-!
# The initramfs builder

`tools/mkinitramfs/src/lib.rs` and `cpio.rs`: the image is a sorted map from relative paths to nodes,
and it is written as a cpio "newc" archive. Failures of the builder are its messages. Writing has no
error of its own: a field that does not fit its eight hexadecimal digits, and an inode number past the
last one, stop the program, which is `none` here.
-/

namespace SaeOS.Mkinitramfs

open Text

/-! ## The archive writer -/

def magic : List UInt8 :=
  [0x30, 0x37, 0x30, 0x37, 0x30, 0x31]

def trailer : Text :=
  "TRAILER!!!".toList

def sIfmt : UInt32 := 0o170000
def sIfreg : UInt32 := 0o100000
def sIfdir : UInt32 := 0o040000

/-- One archive member; `path` is relative. -/
structure Member where
  path : Text
  mode : UInt32
  data : List UInt8
  deriving DecidableEq

/-- A digit of `{:x}`. -/
def hexDigit (digit : ℕ) : UInt8 :=
  if digit < 10 then UInt8.ofNat (0x30 + digit) else UInt8.ofNat (0x61 + (digit - 10))

/-- `format!("{field:08x}")` for a `u32`: the digits from the top one down. -/
def hexField (field : ℕ) : List UInt8 :=
  (List.range 8).map fun index => hexDigit (field >>> (4 * (7 - index)) &&& 0xf)

/-- `u32::try_from(..).expect(..)`. -/
def expectU32 (n : ℕ) : Option ℕ :=
  if n < 2 ^ 32 then some n else none

/-- Zeros up to a multiple of four bytes from `start`. -/
def pad (archive : List UInt8) (start : ℕ) : List UInt8 :=
  let length := archive.length - start
  archive ++ List.replicate (Layout.roundUp length 4 - length) 0

/-- Append one entry. -/
def pushEntry (archive : List UInt8) (ino : ℕ) (mode : UInt32) (path : Text) (data : List UInt8) :
    Option (List UInt8) := do
  let start := archive.length
  let nlink := if mode &&& sIfmt = sIfdir then 2 else 1
  let size ← expectU32 data.length
  let nameSize ← expectU32 ((asBytes path).length + 1)
  let fields := [ino, mode.toNat, 0, 0, nlink, 0, size, 0, 0, 0, 0, nameSize, 0]
  let archive := archive ++ magic ++ fields.flatMap hexField
  let archive := archive ++ asBytes path ++ [0]
  let archive := pad archive start
  let archive := archive ++ data
  return pad archive start

/-- The loop of `write`. The range of inode numbers steps past a number before it hands it out, so the
last one is never used. -/
def writeFrom (archive : List UInt8) : ℕ → List Member → Option (List UInt8)
  | _, [] => some archive
  | ino, member :: members => do
    let next ← expectU32 (ino + 1)
    let archive ← pushEntry archive ino member.mode member.path member.data
    writeFrom archive next members

/-- Write `members` in order, numbering inodes from 1, then the trailer. -/
def write (members : List Member) : Option (List UInt8) := do
  let archive ← writeFrom [] 1 members
  pushEntry archive 0 0 trailer []

/-! ## The image -/

inductive Node where
  | directory
  | file (mode : UInt32) (data : List UInt8)
  deriving DecidableEq

/-- The image being built, keyed by relative path. -/
structure Image where
  nodes : Std.TreeMap Text Node order

def Image.empty : Image :=
  ⟨∅⟩

/-- `strip_suffix('/').unwrap_or(..)`. -/
def stripSlash (rest : Text) : Text :=
  if rest.getLast? = some '/' then rest.dropLast else rest

/-- A component that a path may not have. -/
def refused (component : Text) : Bool :=
  component = [] ∨ component = ['.'] ∨ component = ['.', '.']

/-- Turn an absolute target into the archive's relative form. -/
def relative (target : Text) : Except String Text :=
  match target with
  | '/' :: rest =>
    let rest := stripSlash rest
    if rest ≠ [] ∧ (rest.splitOn '/').any refused then
      .error ("target `" ++ String.ofList target ++
        "` must not contain empty, `.` or `..` components")
    else .ok rest
  | _ => .error ("target `" ++ String.ofList target ++ "` must be absolute")

/-- The place of the last slash. -/
def rfindSlash (path : Text) : Option ℕ :=
  (path.reverse.findIdx? (· == '/')).map fun back => path.length - 1 - back

theorem length_stripSlash (rest : Text) : (stripSlash rest).length ≤ rest.length := by
  unfold stripSlash
  split
  · rw [List.length_dropLast]
    omega
  · exact le_rfl

theorem relative_eq_ok {target path : Text} (h : relative target = .ok path) :
    (∃ rest, target = '/' :: rest ∧ path = stripSlash rest) ∧
      (path ≠ [] → ∀ component ∈ path.splitOn '/', refused component = false) := by
  unfold relative at h
  split at h
  · rename_i rest
    dsimp only at h
    split at h
    · contradiction
    · rename_i hnot
      obtain rfl := Except.ok.inj h
      refine ⟨⟨rest, rfl, rfl⟩, fun hne component hmem => ?_⟩
      by_contra htrue
      exact hnot ⟨hne, List.any_eq_true.mpr ⟨component, hmem, eq_true_of_ne_false htrue⟩⟩
  · contradiction

theorem length_lt_of_relative {target path : Text} (h : relative target = .ok path) :
    path.length < target.length := by
  obtain ⟨⟨rest, rfl, rfl⟩, -⟩ := relative_eq_ok h
  have hle := length_stripSlash rest
  rw [List.length_cons]
  omega

theorem rfindSlash_lt {path : Text} {index : ℕ} (h : rfindSlash path = some index) :
    index < path.length := by
  unfold rfindSlash at h
  rw [Option.map_eq_some_iff] at h
  obtain ⟨back, hback, rfl⟩ := h
  obtain ⟨hlt, -⟩ := eq_of_findIdx?_reverse hback
  omega

mutual

/-- Add a directory and its parents; adding one twice is allowed. -/
def Image.addDirectory (image : Image) (target : Text) : Except String Image :=
  match _h : relative target with
  | .error message => .error message
  | .ok path =>
    if path = [] then .ok image
    else do
      let image ← Image.addParents image path
      match image.nodes[path]? with
      | some .directory => .ok image
      | some (.file _ _) =>
        .error ("`/" ++ String.ofList path ++ "` is both a file and a directory")
      | none => .ok ⟨image.nodes.insert path .directory⟩
termination_by 2 * target.length
decreasing_by
  have hlt := length_lt_of_relative ‹_›
  omega

def Image.addParents (image : Image) (path : Text) : Except String Image :=
  match _h : rfindSlash path with
  | some index => Image.addDirectory image ('/' :: path.take index)
  | none => .ok image
termination_by 2 * path.length + 1
decreasing_by
  have hlt := rfindSlash_lt ‹_›
  rw [List.length_cons, List.length_take]
  omega

end

/-- Add a file and its parent directories; each file may be added once. -/
def Image.addFile (image : Image) (target : Text) (mode : UInt32) (data : List UInt8) :
    Except String Image := do
  let path ← relative target
  if path = [] then throw "`/` cannot be a file"
  let image ← image.addParents path
  if image.nodes.contains path then throw ("`/" ++ String.ofList path ++ "` is listed twice")
  return ⟨image.nodes.insert path (.file mode data)⟩

def member (path : Text) : Node → Member
  | .directory => ⟨path, sIfdir ||| 0o755, []⟩
  | .file mode data => ⟨path, sIfreg ||| mode, data⟩

/-- Archive members in path order. -/
def Image.members (image : Image) : List Member :=
  image.nodes.toList.map fun entry => member entry.1 entry.2

def Image.toCpio (image : Image) : Option (List UInt8) :=
  write image.members

/-! ## Sequences of calls -/

/-- A call of the builder. -/
inductive Call where
  | addDirectory (target : Text)
  | addFile (target : Text) (mode : UInt32) (data : List UInt8)
  deriving DecidableEq

def Call.target : Call → Text
  | .addDirectory target => target
  | .addFile target _ _ => target

def Image.perform (image : Image) : Call → Except String Image
  | .addDirectory target => image.addDirectory target
  | .addFile target mode data => image.addFile target mode data

/-- The image after a sequence of calls; the first failure ends the build. -/
def build (calls : List Call) : Except String Image :=
  calls.foldlM Image.perform .empty

end SaeOS.Mkinitramfs
