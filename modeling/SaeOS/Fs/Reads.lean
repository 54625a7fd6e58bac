import SaeOS.Fs.Dirents

/-!
# Reads that fault

`read` (`syscall/mod.rs`) over `Vfs::read`, and what becomes of a descriptor's position when the copy to
user memory faults. `read` moves the position back; `getdents64` leaves it behind the entries that it
tried to copy (`consumesNothing_iff`).
-/

namespace SaeOS.Fs

open Text

/-! ## Reading -/

/-- The answers of an inode that can also be read. -/
structure FileNode extends InodeView where
  /-- The bytes of a regular file. -/
  contents : List UInt8
  /-- A vector holds at most `isize::MAX` bytes. -/
  few : contents.length < 2 ^ 63
  /-- What a device stores in a buffer. -/
  device : ℕ → ℕ → Except Errno (List UInt8)

/-- `Inode::read_at`: the bytes stored in a buffer of `count` bytes. -/
def FileNode.readAt (node : FileNode) (offset count : ℕ) : Except Errno (List UInt8) :=
  match node.kind with
  | .directory => .error .EISDIR
  | .file => .ok ((node.contents.drop offset).take count)
  | .charDevice => node.device offset count

variable {ι : Type}

/-- What the other calls ask the inodes. -/
def views (inodes : ι → FileNode) (inode : ι) : InodeView :=
  (inodes inode).toInodeView

/-- `Vfs::read`; the position moves behind the bytes. -/
def read (inodes : ι → FileNode) (files : Files ι) (fd count : ℕ) :
    Except Errno (List UInt8 × Files ι) := do
  let (id, file) ← files.get fd
  if ¬ file.flags.contains .read then throw .EBADF
  if (inodes file.inode).kind = .directory then throw .EISDIR
  let data ← (inodes file.inode).readAt file.offset count
  return (data, files.setOffset id (file.offset + data.length))

/-- The `read` system call. -/
def Context.read (inodes : ι → FileNode) (context : Context ι) (fdValue buffer count : ℕ) :
    Except Errno ℕ × Context ι :=
  match fdOf fdValue with
  | .error e => (.error e, context)
  | .ok fd =>
    let count := min count maxTransfer
    -- the destination is checked first, so a bad pointer does not consume data
    match checkRange buffer count with
    | .error e => (.error e, context)
    | .ok () =>
      match Fs.read inodes context.files fd count with
      | .error e => (.error e, context)
      | .ok (data, files) =>
        match context.memory.write buffer data with
        | (.error e, memory) =>
          -- give the data back; whether the seek works is not looked at
          match lseek (views inodes) files fd (-data.length) .current with
          | .ok (_, files) => (.error e, ⟨files, memory⟩)
          | .error _ => (.error e, ⟨files, memory⟩)
        | (.ok (), memory) => (.ok data.length, ⟨files, memory⟩)

/-- The system calls that copy from a descriptor's position on. -/
inductive ReadCall
  | read
  | getdents64
  deriving DecidableEq

def ReadCall.run (inodes : ι → FileNode) (context : Context ι) (fd buffer count : ℕ) :
    ReadCall → Except Errno ℕ × Context ι
  | .read => context.read inodes fd buffer count
  | .getdents64 => Fs.getdents64 (views inodes) context fd buffer count

/-! ## Copying out -/

/-- The copy to user memory fails exactly when some byte of the range cannot be written. -/
theorem UserMemory.write_error_iff {memory : UserMemory} {address : ℕ} {data : List UInt8}
    (hrange : address + data.length ≤ userTop) :
    (memory.write address data).1 = .error .EFAULT ↔
      ∃ i < data.length, memory.writable (address + i) = false := by
  have hcheck : checkRange address data.length = .ok () := by rw [checkRange, if_pos hrange]
  rw [write, hcheck]
  dsimp only
  constructor
  · intro h
    by_contra hall
    push Not at hall
    have hwhole : ((List.range data.length).takeWhile fun i => memory.writable (address + i)) =
        List.range data.length := by
      rw [List.takeWhile_eq_self_iff]
      intro i hi
      exact Bool.eq_true_of_not_eq_false (hall i (List.mem_range.mp hi))
    rw [hwhole, List.length_range, if_pos rfl] at h
    contradiction
  · rintro ⟨i, hi, hfault⟩
    refine if_neg fun hlength => ?_
    -- a prefix of the full length is the whole list, and then all of it can be written
    have hwhole := (List.takeWhile_prefix fun i => memory.writable (address + i)).eq_of_length
      (hlength.trans List.length_range.symm)
    rw [List.takeWhile_eq_self_iff] at hwhole
    exact Bool.false_ne_true (hfault.symm.trans (hwhole i (List.mem_range.mpr hi)))

theorem checkRange_error {address length : ℕ} {e : Errno} (h : checkRange address length = .error e) :
    ¬ address + length ≤ userTop ∧ e = .EFAULT := by
  unfold checkRange at h
  split at h
  · contradiction
  · rename_i hlt
    exact ⟨hlt, (Except.error.inj h).symm⟩

theorem checkRange_ok {address length : ℕ} (h : checkRange address length = .ok ()) :
    address + length ≤ userTop := by
  by_contra hlt
  rw [checkRange, if_neg hlt] at h
  contradiction

/-- The copy has no other error. -/
theorem UserMemory.write_error {memory : UserMemory} {address : ℕ} {data : List UInt8} {e : Errno}
    (h : (memory.write address data).1 = .error e) : e = .EFAULT := by
  unfold write at h
  split at h
  · rename_i hcheck
    rw [← Except.error.inj h]
    exact (checkRange_error hcheck).2
  · dsimp only at h
    split at h
    · contradiction
    · exact (Except.error.inj h).symm

/-! ## The records that fit -/

/-- The total size of the records that fit in `room` bytes, up to the first that does not. -/
def fitted (room : ℕ) : List DirEntry → ℕ
  | [] => 0
  | entry :: entries =>
    if direntSize entry.name > room then 0
    else direntSize entry.name + fitted (room - direntSize entry.name) entries

theorem fitted_le (room : ℕ) (entries : List DirEntry) : fitted room entries ≤ room := by
  induction entries generalizing room with
  | nil => exact Nat.zero_le room
  | cons entry entries ih =>
    rw [fitted]
    split
    · exact Nat.zero_le room
    · have hrest := ih (room - direntSize entry.name)
      omega

theorem direntSize_pos (name : Text) : 0 < direntSize name := by
  have hle := Layout.le_roundUp (n := 19 + (asBytes name).length + 1) (k := 8) (by decide)
  unfold direntSize
  omega

/-- A record has its size whatever the name is. -/
theorem length_encodeDirent (buffer : List UInt8) (entry : DirEntry) (nextOffset : ℕ) :
    (encodeDirent buffer entry nextOffset).length = buffer.length + direntSize entry.name := by
  rw [encodeDirent]
  simp only [resize, List.length_append, List.length_take, List.length_replicate]
  omega

/-- What the walk of `getdents64` leaves: records of the size that fits, and a position that has moved
exactly if there are any. -/
structure Walked (room : ℕ) (listing : Listing) (position : ℕ) (entries : List DirEntry)
    (after : Listing × ℕ) : Prop where
  length : after.1.encoded.length = listing.encoded.length + fitted room entries
  tooSmall : after.1.tooSmall = true → after.1.encoded = []
  moved : 0 < fitted room entries → position < after.2
  stayed : fitted room entries = 0 → after.2 = position

theorem takeEntries_walked {count position : ℕ} {listing : Listing} (entries : List DirEntry)
    (hle : listing.encoded.length ≤ count) (hsmall : listing.tooSmall = false) :
    Walked (count - listing.encoded.length) listing position entries
      (takeEntries (takeDirent count) listing position entries) := by
  induction entries generalizing listing position with
  | nil =>
    refine ⟨rfl, fun h => ?_, fun h => absurd h (Nat.lt_irrefl 0), fun _ => rfl⟩
    exact absurd (hsmall.symm.trans h) Bool.false_ne_true
  | cons entry entries ih =>
    have hpos := direntSize_pos entry.name
    by_cases hfits : listing.encoded.length + direntSize entry.name > count
    · have hfitted : fitted (count - listing.encoded.length) (entry :: entries) = 0 := by
        rw [fitted, if_pos (by omega)]
      rw [takeEntries, takeDirent, if_pos hfits]
      refine ⟨?_, fun h => List.isEmpty_iff.mp h, fun h => ?_, fun _ => rfl⟩
      · rw [hfitted]
        rfl
      · omega
    · set encoded := encodeDirent listing.encoded entry (position + 1)
      have hlength : encoded.length = listing.encoded.length + direntSize entry.name :=
        length_encodeDirent _ _ _
      have hrest := @ih (position + 1) { listing with encoded } (by dsimp only; omega) hsmall
      have hfitted : fitted (count - listing.encoded.length) (entry :: entries) =
          direntSize entry.name + fitted (count - encoded.length) entries := by
        rw [fitted, if_neg (by omega), hlength, Nat.sub_add_eq]
      rw [takeEntries, takeDirent, if_neg hfits]
      refine ⟨?_, hrest.tooSmall, fun _ => ?_, fun h => ?_⟩
      · rw [hrest.length, hfitted, hlength]
        exact Nat.add_assoc _ _ _
      · -- the entry just taken moves the position, whatever follows
        by_cases hmore : 0 < fitted (count - encoded.length) entries
        · exact (Nat.lt_succ_self position).trans (hrest.moved hmore)
        · exact (Nat.lt_succ_self position).trans_eq
            (hrest.stayed (Nat.eq_zero_of_not_pos hmore)).symm
      · omega

/-! ## One call -/

variable {inodes : ι → FileNode} {context : Context ι} {fd id buffer count : ℕ} {file : OpenFile ι}

/-- Where a descriptor stands. -/
def positionOf (files : Files ι) (fd : ℕ) : Except Errno ℕ :=
  (files.get fd).map fun opened => opened.2.offset

theorem positionOf_eq {files : Files ι} (hget : files.get fd = .ok (id, file)) :
    positionOf files fd = .ok file.offset := by
  rw [positionOf, hget]
  rfl

theorem setOffset_back {files : Files ι} (hget : files.get fd = .ok (id, file)) (offset : ℕ) :
    (files.setOffset id offset).setOffset id file.offset = files := by
  have hfile := (Files.get_eq_ok hget).2
  rw [Files.setOffset, Files.setOffset]
  dsimp only
  rw [Function.update_self, Function.update_idem, hfile]
  dsimp only [Option.map_some]
  rw [← hfile, Function.update_eq_self]

/-- Seeking back by what was read gives the position back. -/
theorem lseek_back {files : Files ι} {n : ℕ} (hget : files.get fd = .ok (id, file))
    (hkind : (inodes file.inode).kind ≠ .charDevice) (hfew : file.offset < 2 ^ 63) :
    lseek (views inodes) (files.setOffset id (file.offset + n)) fd (-n) .current =
      .ok (file.offset, files) := by
  have htarget : ((file.offset + n : ℕ) : ℤ) + -n = file.offset := by
    push_cast
    ring
  unfold lseek
  rw [Files.get_setOffset hget]
  have hrange : ¬ (¬ (file.offset : ℤ) < 2 ^ 63 ∨ (file.offset : ℤ) < 0) := by omega
  have hseekable : (views inodes file.inode).seekable = true := InodeView.seekable_of_kind hkind
  simp only [bind, Except.bind, hseekable, not_true, if_false, htarget, hrange]
  rw [Int.toNat_natCast, setOffset_back hget]
  rfl

/-- A call that faults consumes nothing: the descriptor stands where it stood, and another call returns
what it would have returned in its place. -/
def ConsumesNothing (inodes : ι → FileNode) (call : ReadCall) (context : Context ι)
    (fd buffer count : ℕ) : Prop :=
  (call.run inodes context fd buffer count).1 = .error .EFAULT →
    let after := (call.run inodes context fd buffer count).2
    positionOf after.files fd = positionOf context.files fd ∧
      ∀ (memory : UserMemory) (buffer count : ℕ),
        call.run inodes ⟨after.files, memory⟩ fd buffer count =
          call.run inodes ⟨context.files, memory⟩ fd buffer count

/-- Some byte of the records that fit in the buffer cannot be written, and the call has come that far:
it lists a directory into a buffer in the user half. -/
def Spoils (inodes : ι → FileNode) (call : ReadCall) (context : Context ι) (fd buffer count : ℕ)
    (file : OpenFile ι) : Prop :=
  call = .getdents64 ∧ fd < 2 ^ 32 ∧ buffer + min count maxTransfer ≤ userTop ∧
    (inodes file.inode).kind = .directory ∧
    ∃ entries, (inodes file.inode).entries = .ok entries ∧
      ∃ i < fitted (min count maxTransfer) (entries.drop file.offset),
        context.memory.writable (buffer + i) = false

theorem consumesNothing_of_files {call : ReadCall}
    (h : (call.run inodes context fd buffer count).1 = .error .EFAULT →
      (call.run inodes context fd buffer count).2.files = context.files) :
    ConsumesNothing inodes call context fd buffer count := by
  intro hfault
  dsimp only
  rw [h hfault]
  exact ⟨rfl, fun _ _ _ => rfl⟩

/-! ### `read` -/

theorem read_cases {files after : Files ι} {data : List UInt8} (hget : files.get fd = .ok (id, file))
    (hkind : (inodes file.inode).kind ≠ .charDevice)
    (h : read inodes files fd count = .ok (data, after)) :
    after = files.setOffset id (file.offset + data.length) ∧
      data = ((inodes file.inode).contents.drop file.offset).take count := by
  unfold read at h
  rw [hget] at h
  dsimp only [bind, Except.bind] at h
  split at h
  · contradiction
  split at h
  · contradiction
  rename_i hdirectory
  have hfile : (inodes file.inode).kind = .file := by
    cases hk : (inodes file.inode).kind with
    | file => rfl
    | directory => exact absurd hk hdirectory
    | charDevice => exact absurd hk hkind
  rw [FileNode.readAt, hfile] at h
  obtain ⟨rfl, rfl⟩ := Prod.mk.inj (Except.ok.inj h)
  exact ⟨rfl, rfl⟩

theorem fdOf_eq {fd' : ℕ} (h : fdOf fd = .ok fd') : fd' = fd ∧ fd < 2 ^ 32 := by
  unfold fdOf at h
  split at h
  · rename_i hlt
    exact ⟨(Except.ok.inj h).symm, hlt⟩
  · contradiction

theorem read_files (hget : context.files.get fd = .ok (id, file))
    (hkind : (inodes file.inode).kind ≠ .charDevice)
    (h : (context.read inodes fd buffer count).1 = .error .EFAULT) :
    (context.read inodes fd buffer count).2.files = context.files := by
  unfold Context.read at h ⊢
  cases hfd : fdOf fd with
  | error e => rfl
  | ok fd' =>
    obtain ⟨rfl, -⟩ := fdOf_eq hfd
    rw [hfd] at h
    dsimp only at h ⊢
    cases hrange : checkRange buffer (min count maxTransfer) with
    | error e => rfl
    | ok u =>
      rw [hrange] at h
      dsimp only at h ⊢
      cases hread : read inodes context.files fd' (min count maxTransfer) with
      | error e => rfl
      | ok result =>
        obtain ⟨data, files⟩ := result
        rw [hread] at h
        dsimp only at h ⊢
        obtain ⟨rfl, hdata⟩ := read_cases hget hkind hread
        rcases hwrite : context.memory.write buffer data with ⟨answer, memory⟩
        rw [hwrite] at h
        cases answer with
        | ok u => contradiction
        | error e =>
          -- only data can fault, and data comes from below the end of the file
          have hwritten : (context.memory.write buffer data).1 = .error e := by rw [hwrite]
          have hlength : data.length ≤ count ⊓ maxTransfer := by
            rw [hdata, List.length_take]
            exact min_le_left _ _
          have hin := checkRange_ok hrange
          obtain ⟨i, hi, -⟩ := (UserMemory.write_error_iff (by omega)).mp
            (UserMemory.write_error hwritten ▸ hwritten)
          have hfew := (inodes file.inode).few
          have hoffset : file.offset < 2 ^ 63 := by
            rw [hdata, List.length_take, List.length_drop] at hi
            omega
          dsimp only
          rw [lseek_back hget hkind hoffset]

/-! ### `getdents64` -/

/-- The walk fails without a change, or it has walked the rest of a directory. -/
theorem readdirWith_cases (inodes : ι → FileNode) (count : ℕ) {files : Files ι} (hget : files.get fd = .ok (id, file)) :
    (∃ e, readdirWith (views inodes) files fd (takeDirent count) ⟨[], false⟩ = .error e) ∨
      ∃ entries after, (inodes file.inode).kind = .directory ∧
        (inodes file.inode).entries = .ok entries ∧
        Walked count ⟨[], false⟩ file.offset (entries.drop file.offset) after ∧
        readdirWith (views inodes) files fd (takeDirent count) ⟨[], false⟩ =
          .ok (after.1, files.setOffset id after.2) := by
  unfold readdirWith
  rw [hget]
  dsimp only [bind, Except.bind, views]
  by_cases hkind : (inodes file.inode).kind = .directory
  · cases hentries : (inodes file.inode).entries with
    | error e =>
      refine .inl ⟨e, ?_⟩
      simp only [hkind, ne_eq, not_true, if_false]
    | ok entries =>
      refine .inr ⟨entries, _, hkind, rfl,
        @takeEntries_walked count file.offset ⟨[], false⟩ _ (Nat.zero_le count) rfl, ?_⟩
      simp only [hkind, ne_eq, not_true, if_false]
      rfl
  · refine .inl ⟨.ENOTDIR, ?_⟩
    simp only [hkind, ne_eq, not_false_eq_true, if_true]
    rfl

/-- What `getdents64` does with the entries that it has walked. -/
theorem getdents64_walked {entries : List DirEntry} {after : Listing × ℕ} (hfd : fd < 2 ^ 32)
    (hrange : buffer + min count maxTransfer ≤ userTop)
    (hwalk : readdirWith (views inodes) context.files fd (takeDirent (min count maxTransfer))
      ⟨[], false⟩ = .ok (after.1, context.files.setOffset id after.2))
    (hwalked : Walked (min count maxTransfer) ⟨[], false⟩ file.offset (entries.drop file.offset) after) :
    (getdents64 (views inodes) context fd buffer count).2.files =
        context.files.setOffset id after.2 ∧
      ((getdents64 (views inodes) context fd buffer count).1 = .error .EFAULT ↔
        ∃ i < fitted (min count maxTransfer) (entries.drop file.offset),
          context.memory.writable (buffer + i) = false) := by
  have hlength : after.1.encoded.length = fitted (min count maxTransfer) (entries.drop file.offset) :=
    hwalked.length.trans (Nat.zero_add _)
  have hle := fitted_le (min count maxTransfer) (entries.drop file.offset)
  have hfault := @UserMemory.write_error_iff context.memory buffer after.1.encoded (by omega)
  rw [hlength] at hfault
  have hfdOf : fdOf fd = .ok fd := if_pos hfd
  have hcheck : checkRange buffer (min count maxTransfer) = .ok () := if_pos hrange
  rw [getdents64, hfdOf]
  dsimp only
  rw [hcheck]
  dsimp only
  rw [hwalk]
  dsimp only
  by_cases hsmall : after.1.tooSmall = true
  · -- nothing was encoded, so nothing is copied
    have hempty := hwalked.tooSmall hsmall
    rw [hempty, List.length_nil] at hlength
    rw [if_pos hsmall, ← hlength]
    refine ⟨rfl, fun h => absurd (Except.error.inj h) (by decide), ?_⟩
    rintro ⟨i, hi, -⟩
    exact absurd hi (Nat.not_lt_zero i)
  · rw [if_neg hsmall, ← hfault]
    refine ⟨rfl, ?_⟩
    rcases context.memory.write buffer after.1.encoded with ⟨answer, memory⟩
    cases answer <;> simp [Except.map]

theorem getdents64_files (hget : context.files.get fd = .ok (id, file))
    (hkept : ¬ Spoils inodes .getdents64 context fd buffer count file)
    (h : (getdents64 (views inodes) context fd buffer count).1 = .error .EFAULT) :
    (getdents64 (views inodes) context fd buffer count).2.files = context.files := by
  by_cases hfd : fd < 2 ^ 32
  · by_cases hrange : buffer + min count maxTransfer ≤ userTop
    · obtain ⟨e, hwalk⟩ | ⟨entries, after, hkind, hentries, hwalked, hwalk⟩ :=
        readdirWith_cases inodes (min count maxTransfer) hget
      · have hfdOf : fdOf fd = .ok fd := if_pos hfd
        have hcheck : checkRange buffer (min count maxTransfer) = .ok () := if_pos hrange
        rw [getdents64, hfdOf]
        dsimp only
        rw [hcheck]
        dsimp only
        rw [hwalk]
      · have hspec := (getdents64_walked hfd hrange hwalk hwalked).2.mp h
        exact absurd ⟨rfl, hfd, hrange, hkind, entries, hentries, hspec⟩ hkept
    · have hfdOf : fdOf fd = .ok fd := if_pos hfd
      have hcheck : checkRange buffer (min count maxTransfer) = .error .EFAULT := if_neg hrange
      rw [getdents64, hfdOf]
      dsimp only
      rw [hcheck]
  · have hfdOf : fdOf fd = .error .EBADF := if_neg hfd
    rw [getdents64, hfdOf]

/-- A listing that spoils has moved the position, and no call moves it back. -/
theorem not_consumesNothing {call : ReadCall} (hget : context.files.get fd = .ok (id, file))
    (h : Spoils inodes call context fd buffer count file) :
    ¬ ConsumesNothing inodes call context fd buffer count := by
  obtain ⟨rfl, hfd, hrange, hkind, entries, hentries, hfault⟩ := h
  obtain ⟨e, hwalk⟩ | ⟨entries', after, -, hentries', hwalked, hwalk⟩ :=
    readdirWith_cases inodes (min count maxTransfer) hget
  · -- the walk of a directory with entries does not fail
    unfold readdirWith at hwalk
    rw [hget] at hwalk
    simp only [bind, Except.bind, views, hkind, hentries, ne_eq, not_true, if_false] at hwalk
    contradiction
  · obtain rfl := Except.ok.inj (hentries.symm.trans hentries')
    obtain ⟨hfiles, hanswer⟩ := getdents64_walked hfd hrange hwalk hwalked
    intro hkept
    obtain ⟨hposition, -⟩ := hkept (hanswer.mpr hfault)
    obtain ⟨i, hi, -⟩ := hfault
    have hmoved := hwalked.moved (Nat.zero_lt_of_lt hi)
    rw [ReadCall.run, hfiles, positionOf_eq hget, positionOf_eq (Files.get_setOffset hget)] at hposition
    exact absurd (Except.ok.inj hposition) hmoved.ne'

/-! ### Both calls -/

/-- A call on a regular file or a directory consumes nothing when it faults, unless it has listed
entries whose records it could not copy. -/
theorem consumesNothing_iff (inodes : ι → FileNode) (call : ReadCall) (context : Context ι)
    (fd buffer count id : ℕ) (file : OpenFile ι) (hget : context.files.get fd = .ok (id, file))
    (hkind : (inodes file.inode).kind ≠ .charDevice) :
    ConsumesNothing inodes call context fd buffer count ↔
      ¬ Spoils inodes call context fd buffer count file := by
  constructor
  · intro hkept hspoils
    exact not_consumesNothing hget hspoils hkept
  · intro hkept
    refine consumesNothing_of_files fun hfault => ?_
    cases call with
    | read => exact read_files hget hkind hfault
    | getdents64 => exact getdents64_files hget hkept hfault

/-- A directory with one entry. -/
def oneEntry : FileNode where
  kind := .directory
  size := 0
  entries := .ok [⟨"a".toList, 2, .file⟩]
  contents := []
  few := by decide
  device _ _ := .error .EISDIR

/-- It is open at descriptor 0, and no memory is writable. -/
def unwritable : Context Unit where
  files :=
    { table := ⟨[some 0]⟩
      file := fun id => if id = 0 then some ⟨(), .read, 0⟩ else none
      next := 1 }
  memory := ⟨fun _ => 0, fun _ => false⟩

/-- The listing faults at its first byte, and the only entry is behind the position. -/
theorem consumesNothing_fails :
    (ReadCall.getdents64.run (fun _ => oneEntry) unwritable 0 0x1000 64).1 = .error .EFAULT ∧
      positionOf unwritable.files 0 = .ok 0 ∧
      positionOf (ReadCall.getdents64.run (fun _ => oneEntry) unwritable 0 0x1000 64).2.files 0 =
        .ok 1 ∧
      ¬ ConsumesNothing (fun _ => oneEntry) .getdents64 unwritable 0 0x1000 64 := by
  have hfault : (ReadCall.getdents64.run (fun _ => oneEntry) unwritable 0 0x1000 64).1 =
      .error .EFAULT := by rfl
  have hafter : positionOf
      (ReadCall.getdents64.run (fun _ => oneEntry) unwritable 0 0x1000 64).2.files 0 = .ok 1 := by rfl
  refine ⟨hfault, rfl, hafter, fun hkept => ?_⟩
  have hsame := hafter.symm.trans (hkept hfault).1
  exact absurd (Except.ok.inj hsame) (by decide)

theorem consumesNothing_iff_oneEntry :
    ConsumesNothing (fun _ => oneEntry) .getdents64 unwritable 0 0x1000 64 ↔
      ¬ Spoils (fun _ => oneEntry) .getdents64 unwritable 0 0x1000 64 ⟨(), .read, 0⟩ :=
  consumesNothing_iff (fun _ => oneEntry) .getdents64 unwritable 0 0x1000 64 0 ⟨(), .read, 0⟩ rfl (by decide)

end SaeOS.Fs
