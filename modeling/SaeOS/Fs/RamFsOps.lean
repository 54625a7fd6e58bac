import SaeOS.Fs.RamFs

/-!
# Whole operations of the in-memory file system

The operations of `fs/ramfs.rs` from start to end, with nobody else in between: file data with its byte
accounting, and `rmdir` and `rename` put together from their sections. Each returns its answer with the
state after it. Whether the allocator has room for a file to grow (`try_reserve`) is an argument.
-/

namespace SaeOS.Fs.RamFs

variable (fs : RamFs)

/-! ## File data -/

/-- Account for `bytes` more file data. -/
def reserve (bytes : ℕ) : Except Errno RamFs :=
  if fs.used + bytes < 2 ^ 64 ∧ fs.used + bytes ≤ fs.limit then
    .ok { fs with used := fs.used + bytes }
  else .error .ENOSPC

def release (bytes : ℕ) : RamFs :=
  { fs with used := fs.used - bytes }

/-- `RamFile::resize`: the data of the new length, with the accounting. -/
def resize (data : List UInt8) (newLength : ℕ) (room : Bool) : Except Errno (List UInt8) × RamFs :=
  let oldLength := data.length
  if newLength > oldLength then
    let grow := newLength - oldLength
    match fs.reserve grow with
    | .error e => (.error e, fs)
    | .ok fs =>
      if ¬ room then (.error .ENOSPC, fs.release grow)
      else (.ok (data ++ List.replicate grow 0), fs)
  else (.ok (data.take newLength), fs.release (oldLength - newLength))

/-- Store the data of a file. -/
def setData (ino : ℕ) (data : List UInt8) : RamFs :=
  fs.setNode ino (some (.file data))

/-- `read_at` into a buffer of `count` bytes. -/
def readAt (ino offset count : ℕ) : Except Errno (List UInt8) :=
  match fs.node ino with
  | some (.file data) => .ok ((data.drop offset).take count)
  | _ => .error .EISDIR

/-- `write_at`; anything but a file is a directory. -/
def writeAt (ino offset : ℕ) (buf : List UInt8) (room : Bool) : Except Errno ℕ × RamFs :=
  match fs.node ino with
  | some (.file data) =>
    let stop := offset + buf.length
    if ¬ stop < 2 ^ 64 then (.error .EINVAL, fs)
    else
      match if stop > data.length then fs.resize data stop room else (.ok data, fs) with
      | (.error e, fs) => (.error e, fs)
      | (.ok data, fs) => (.ok buf.length, fs.setData ino (data.take offset ++ buf ++ data.drop stop))
  | _ => (.error .EISDIR, fs)

/-- `truncate`. -/
def truncate (ino size : ℕ) (room : Bool) : Except Errno Unit × RamFs :=
  match fs.node ino with
  | some (.file data) =>
    if ¬ size < 2 ^ 64 then (.error .EINVAL, fs)
    else
      match fs.resize data size room with
      | (.error e, fs) => (.error e, fs)
      | (.ok data, fs) => (.ok (), fs.setData ino data)
  | _ => (.error .EINVAL, fs)

/-! ## Directories -/

def rmdir (ino : ℕ) (name : Name) : Except Errno RamFs := do
  let child ← fs.rmdirChild ino name
  fs.rmdirLocked ino name child

/-- `is_within`: the walk along the parent links. It does not return on a cycle. -/
def isWithin : ℕ → ℕ → ℕ → Option Bool
  | 0, _, _ => none
  | fuel + 1, ino, ancestor =>
    if ino = ancestor then some true
    else
      match fs.up ino with
      | some parent => isWithin fuel parent ancestor
      | none => some false

/-- A walk visits every directory once at most. -/
def depth : ℕ :=
  fs.nextIno + 1

/-- `rename`, behind its check of the new name. -/
def rename (r : Rename) : Option (Except Errno RamFs) :=
  if r.self = r.target ∧ r.old = r.new then some ((fs.lookup r.self r.old).map fun _ => fs)
  else if fs.isDead r.target then some (.error .ENOENT)
  else
    match fs.lookup r.self r.old with
    | .error e => some (.error e)
    | .ok moved => do
      -- a directory cannot move into itself or below itself
      let inside ← if fs.isDir moved then fs.isWithin fs.depth r.target moved else some false
      if inside then return .error .EINVAL
      -- the order of the two locks
      let below ← fs.isWithin fs.depth r.target r.self
      let _ ← if below then some true else fs.isWithin fs.depth r.self r.target
      match fs.renameSource r with
      | .error e => return .error e
      | .ok (source, replaced) => return fs.renameLocked r source replaced

/-! ## Failing operations -/

variable {fs} {fs' : RamFs} {e : Errno}

theorem resize_error {data : List UInt8} {newLength : ℕ} {room : Bool}
    (h : fs.resize data newLength room = (.error e, fs')) : fs' = fs := by
  unfold resize at h
  dsimp only at h
  split at h
  · unfold reserve at h
    split at h
    · exact (Prod.mk.inj h).2.symm
    · rename_i fs₁ hreserve
      split at hreserve
      · obtain rfl := Except.ok.inj hreserve
        split at h
        · -- the reservation is given back
          obtain rfl := (Prod.mk.inj h).2
          rw [release]
          dsimp only
          rw [Nat.add_sub_cancel]
        · exact absurd (Prod.mk.inj h).1 (by simp)
      · contradiction
  · exact absurd (Prod.mk.inj h).1 (by simp)

theorem writeAt_error {ino offset : ℕ} {buf : List UInt8} {room : Bool}
    (h : fs.writeAt ino offset buf room = (.error e, fs')) : fs' = fs := by
  unfold writeAt at h
  split at h
  · dsimp only at h
    split at h
    · exact (Prod.mk.inj h).2.symm
    · split at h
      · rename_i e₁ fs₁ hresize
        obtain rfl := (Prod.mk.inj h).2
        split at hresize
        · exact resize_error hresize
        · exact absurd (Prod.mk.inj hresize).1 (by simp)
      · exact absurd (Prod.mk.inj h).1 (by simp)
  · exact (Prod.mk.inj h).2.symm

theorem truncate_error {ino size : ℕ} {room : Bool}
    (h : fs.truncate ino size room = (.error e, fs')) : fs' = fs := by
  unfold truncate at h
  split at h
  · split at h
    · exact (Prod.mk.inj h).2.symm
    · split at h
      · rename_i hresize
        obtain rfl := (Prod.mk.inj h).2
        exact resize_error hresize
      · exact absurd (Prod.mk.inj h).1 (by simp)
  · exact (Prod.mk.inj h).2.symm

end SaeOS.Fs.RamFs
