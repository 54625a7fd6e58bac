import Mathlib.Tactic.Linarith
import SaeOS.Libsaeos.Fs

/-!
# A directory listing across the system call boundary

The records that the kernel encodes are the records that user space walks (`records_flatten`), one call
takes as many whole entries as fit (`getdents64_spec`), and so a sequence of calls lists what is left of
the directory and then ends, from any position that a record names.
-/

namespace SaeOS.Libsaeos

open Fs Text

/-! ## One record -/

/-- The bytes of a record. -/
def direntBytes (entry : Fs.DirEntry) (nextOffset : ℕ) : List UInt8 :=
  toLeBytes 8 entry.ino ++ (toLeBytes 8 nextOffset ++ (toLeBytes 2 (direntSize entry.name) ++
    (direntType entry.kind :: (asBytes entry.name ++
      List.replicate (direntSize entry.name - (19 + (asBytes entry.name).length)) 0))))

/-- A name that the kernel lets into a directory: `check_name` has passed it, and it comes from a
NUL-terminated path argument, from an archive whose names have no zero byte, or from a fixed table. -/
def ValidName (name : Text) : Prop :=
  checkName (asBytes name) = .ok () ∧ '\x00' ∉ name

theorem ValidName.length_le {name : Text} (h : ValidName name) : (asBytes name).length ≤ 255 := by
  have hcheck := h.1
  unfold checkName at hcheck
  split at hcheck
  · contradiction
  split at hcheck
  · contradiction
  · rename_i hlength
    exact Nat.le_of_not_gt hlength

theorem direntSize_ge (name : Text) : 20 + (asBytes name).length ≤ direntSize name := by
  have hle := Layout.le_roundUp (n := 19 + (asBytes name).length + 1) (k := 8) (by decide)
  unfold direntSize
  omega

theorem ValidName.direntSize_le {name : Text} (h : ValidName name) : direntSize name ≤ 280 := by
  have hlength := h.length_le
  exact Layout.roundUp_le (by decide) (by decide) (by omega)

theorem length_direntBytes (entry : Fs.DirEntry) (nextOffset : ℕ) :
    (direntBytes entry nextOffset).length = direntSize entry.name := by
  have hge := direntSize_ge entry.name
  simp only [direntBytes, List.length_append, length_toLeBytes, List.length_cons,
    List.length_replicate]
  omega

theorem encodeDirent_eq (buffer : List UInt8) (entry : Fs.DirEntry) (nextOffset : ℕ)
    (h : ValidName entry.name) :
    encodeDirent buffer entry nextOffset = buffer ++ direntBytes entry nextOffset := by
  have hge := direntSize_ge entry.name
  have hle := h.direntSize_le
  have hmod : direntSize entry.name % 2 ^ 16 = direntSize entry.name :=
    Nat.mod_eq_of_lt (by omega)
  rw [encodeDirent]
  simp only [hmod, resize, List.length_append, length_toLeBytes, List.length_singleton]
  rw [List.take_of_length_le (by
    simp only [List.length_append, length_toLeBytes, List.length_singleton]
    omega), direntBytes]
  have hpad : buffer.length + direntSize entry.name -
      (buffer.length + 8 + 8 + 2 + 1 + (asBytes entry.name).length) =
        direntSize entry.name - (19 + (asBytes entry.name).length) := by omega
  rw [hpad]
  simp only [List.append_assoc, List.cons_append, List.nil_append]

def FileType.ofKind : InodeKind → FileType
  | .file => .file
  | .directory => .directory
  | .charDevice => .charDevice

/-- The program's view of a directory entry. -/
def userEntry (entry : Fs.DirEntry) : DirEntry where
  name := entry.name
  fileType := .ofKind entry.kind

theorem fromDirent_direntType (kind : InodeKind) :
    FileType.fromDirent (direntType kind) = .ofKind kind := by
  cases kind <;> decide

variable {entry : Fs.DirEntry} {nextOffset : ℕ}

theorem dOff_direntBytes (hlt : nextOffset < 2 ^ 64) :
    dOff (direntBytes entry nextOffset) = nextOffset := by
  have hlength : 8 = (toLeBytes 8 entry.ino).length := (length_toLeBytes 8 _).symm
  rw [dOff, direntBytes, List.drop_left' (length_toLeBytes 8 _),
    List.take_left' (length_toLeBytes 8 _), fromLeBytes_toLeBytes, Nat.mod_eq_of_lt hlt]

theorem recordLength_direntBytes (h : ValidName entry.name) (rest : List UInt8) :
    fromLeBytes (((direntBytes entry nextOffset ++ rest).drop 16).take 2) =
      direntSize entry.name := by
  have hle := h.direntSize_le
  have hhead : (toLeBytes 8 entry.ino ++ toLeBytes 8 nextOffset).length = 16 := by
    rw [List.length_append, length_toLeBytes, length_toLeBytes]
  rw [direntBytes, ← List.append_assoc (toLeBytes 8 entry.ino), List.append_assoc,
    List.drop_left' hhead, List.append_assoc, List.take_left' (length_toLeBytes 2 _),
    fromLeBytes_toLeBytes, Nat.mod_eq_of_lt (by omega)]

/-- Behind the type of a record stand the name and at least one zero. -/
theorem direntBytes_split (entry : Fs.DirEntry) (nextOffset : ℕ) : ∃ head zeros, head.length = 18 ∧
    direntBytes entry nextOffset = head ++ direntType entry.kind ::
      (asBytes entry.name ++ List.replicate (zeros + 1) 0) := by
  have hge := direntSize_ge entry.name
  refine ⟨toLeBytes 8 entry.ino ++ (toLeBytes 8 nextOffset ++ toLeBytes 2 (direntSize entry.name)),
    direntSize entry.name - (20 + (asBytes entry.name).length), ?_, ?_⟩
  · simp only [List.length_append, length_toLeBytes]
  · have hzeros : direntSize entry.name - (20 + (asBytes entry.name).length) + 1 =
        direntSize entry.name - (19 + (asBytes entry.name).length) := by omega
    rw [hzeros]
    simp only [direntBytes, List.append_assoc]

/-- The name ends at the first zero byte, of which it has none itself. -/
theorem takeWhile_name {name : Text} (h : ValidName name) (zeros : ℕ) :
    (asBytes name ++ List.replicate (zeros + 1) 0).takeWhile (· ≠ (0 : UInt8)) = asBytes name := by
  rw [List.takeWhile_append_of_pos, List.replicate_succ, List.takeWhile_cons_of_neg (by simp),
    List.append_nil]
  intro byte hbyte
  refine decide_eq_true ?_
  rintro rfl
  exact h.2 (zero_mem_asBytes.mp hbyte)

theorem dirEntryOf_direntBytes (h : ValidName entry.name) :
    dirEntryOf (direntBytes entry nextOffset) = userEntry entry := by
  obtain ⟨head, zeros, hhead, hbytes⟩ := direntBytes_split entry nextOffset
  have hname : (direntBytes entry nextOffset).drop 19 =
      asBytes entry.name ++ List.replicate (zeros + 1) 0 := by
    rw [hbytes, ← List.singleton_append, ← List.append_assoc, List.drop_left' (by simp [hhead])]
  have htype : (direntBytes entry nextOffset).getD 18 0 = direntType entry.kind := by
    rw [hbytes, List.getD_append_right _ _ _ _ hhead.le, hhead, Nat.sub_self, List.getD_cons_zero]
  rw [dirEntryOf, hname, htype, takeWhile_name h, fromUtf8Lossy_asBytes, fromDirent_direntType]
  rfl

/-! ## The records of a call -/

/-- The records of entries whose first stands at `position`. -/
def recordList : ℕ → List Fs.DirEntry → List (List UInt8)
  | _, [] => []
  | position, entry :: entries =>
    direntBytes entry (position + 1) :: recordList (position + 1) entries

variable {entries : List Fs.DirEntry} {position : ℕ}

theorem recordList_append (more : List Fs.DirEntry) :
    recordList position (entries ++ more) =
      recordList position entries ++ recordList (position + entries.length) more := by
  induction entries generalizing position with
  | nil => rfl
  | cons entry entries ih =>
    rw [List.cons_append, recordList, recordList, ih, List.cons_append, List.length_cons]
    congr 3
    omega

/-- User space walks the records as the kernel laid them out. -/
theorem records_flatten {fuel : ℕ} (hvalid : ∀ entry ∈ entries, ValidName entry.name)
    (hfuel : (recordList position entries).flatten.length ≤ fuel) :
    records fuel (recordList position entries).flatten = recordList position entries := by
  induction entries generalizing position fuel with
  | nil =>
    cases fuel with
    | zero => rfl
    | succ fuel => simp [recordList, records]
  | cons entry entries ih =>
    have hentry := hvalid entry List.mem_cons_self
    have hge := direntSize_ge entry.name
    rw [recordList, List.flatten_cons] at hfuel ⊢
    have hlength := length_direntBytes entry (position + 1)
    rw [List.length_append, hlength] at hfuel
    obtain ⟨fuel, rfl⟩ := Nat.exists_eq_add_of_lt (show 0 < fuel by omega)
    have hrest : records (0 + fuel) (recordList (position + 1) entries).flatten = _ :=
      ih (fun e he => hvalid e (List.mem_cons_of_mem entry he)) (by omega)
    rw [records, if_pos (by rw [List.length_append, hlength]; omega)]
    simp only [recordLength_direntBytes hentry]
    rw [if_neg (by rw [List.length_append, hlength]; omega), List.take_left' hlength,
      List.drop_left' hlength, hrest]

theorem map_dirEntryOf (hvalid : ∀ entry ∈ entries, ValidName entry.name) :
    (recordList position entries).map dirEntryOf = entries.map userEntry := by
  induction entries generalizing position with
  | nil => rfl
  | cons entry entries ih =>
    rw [recordList, List.map_cons, List.map_cons, dirEntryOf_direntBytes (hvalid entry List.mem_cons_self),
      ih fun e he => hvalid e (List.mem_cons_of_mem entry he)]

/-- A record's `d_off` is the position behind its entry. -/
theorem dOff_recordList {k : ℕ} {record : List UInt8} (hfew : position + entries.length < 2 ^ 64)
    (h : (recordList position entries)[k]? = some record) :
    k < entries.length ∧ dOff record = position + k + 1 := by
  induction entries generalizing position k with
  | nil => contradiction
  | cons entry entries ih =>
    rw [List.length_cons] at hfew ⊢
    cases k with
    | zero =>
      rw [recordList, List.getElem?_cons_zero, Option.some.injEq] at h
      exact ⟨by omega, by rw [← h, dOff_direntBytes (by omega), Nat.add_zero]⟩
    | succ k =>
      rw [recordList, List.getElem?_cons_succ] at h
      obtain ⟨hlt, hoff⟩ := ih (by omega) h
      exact ⟨by omega, by rw [hoff]; omega⟩

/-! ## One call -/

/-- The closure takes entries up to the first that does not fit; when there is room for every single
record, it takes one at least. -/
theorem takeEntries_spec {count : ℕ} {encoded : List UInt8}
    (hvalid : ∀ entry ∈ entries, ValidName entry.name)
    (hroom : ∀ entry ∈ entries, direntSize entry.name ≤ count) (hcount : encoded.length ≤ count) :
    ∃ n ≤ entries.length, (encoded = [] → entries ≠ [] → 0 < n) ∧
      (encoded ++ (recordList position (entries.take n)).flatten).length ≤ count ∧
      takeEntries (takeDirent count) ⟨encoded, false⟩ position entries =
        (⟨encoded ++ (recordList position (entries.take n)).flatten, false⟩, position + n) := by
  induction entries generalizing encoded position with
  | nil => exact ⟨0, le_rfl, fun _ h => absurd rfl h, by simpa [recordList] using hcount,
      by simp [takeEntries, recordList]⟩
  | cons entry entries ih =>
    have hentry := hvalid entry List.mem_cons_self
    have hge := direntSize_ge entry.name
    have hlength := length_direntBytes entry (position + 1)
    by_cases hfits : encoded.length + direntSize entry.name > count
    · -- the buffer is not empty, or the record would fit
      have hempty : encoded.isEmpty = false := by
        cases encoded with
        | nil =>
          have hentryRoom := hroom entry List.mem_cons_self
          rw [List.length_nil] at hfits
          omega
        | cons byte encoded => rfl
      refine ⟨0, Nat.zero_le _, fun hnil => ?_, by simpa [recordList] using hcount, ?_⟩
      · rw [hnil] at hempty
        contradiction
      · rw [takeEntries, takeDirent, if_pos hfits]
        simp [hempty, recordList]
    · obtain ⟨n, hn, -, hlen, heq⟩ := @ih (position + 1) (encoded ++ direntBytes entry (position + 1))
        (fun e he => hvalid e (List.mem_cons_of_mem entry he))
        (fun e he => hroom e (List.mem_cons_of_mem entry he))
        (by rw [List.length_append, hlength]; omega)
      refine ⟨n + 1, by rw [List.length_cons]; omega, fun _ _ => Nat.succ_pos n, ?_, ?_⟩
      · rw [List.take_succ_cons, recordList, List.flatten_cons, ← List.append_assoc]
        exact hlen
      · rw [takeEntries, takeDirent, if_neg hfits, encodeDirent_eq _ _ _ hentry]
        dsimp only
        rw [heq, List.take_succ_cons, recordList, List.flatten_cons, ← List.append_assoc]
        congr 1
        omega

theorem store_of_lt (memory : UserMemory) {address x : ℕ} (data : List UInt8) (h : x < address) :
    (memory.store address data).bytes x = memory.bytes x := by
  induction data generalizing memory address with
  | nil => rfl
  | cons byte data ih =>
    rw [UserMemory.store, ih _ (by omega)]
    exact Function.update_of_ne h.ne byte memory.bytes

/-- What was stored is read. -/
theorem read_store (memory : UserMemory) (address : ℕ) (data : List UInt8) :
    (memory.store address data).read address data.length = data := by
  induction data generalizing memory address with
  | nil => rfl
  | cons byte data ih =>
    set first := { memory with bytes := Function.update memory.bytes address byte }
    have hrest := ih first (address + 1)
    have hfirst : (first.store (address + 1) data).bytes (address + 0) = byte := by
      refine Eq.trans (store_of_lt first data (Nat.lt_succ_self address)) ?_
      exact Function.update_self address byte memory.bytes
    rw [UserMemory.read] at hrest
    rw [UserMemory.store, UserMemory.read, List.length_cons, List.range_succ_eq_map, List.map_cons,
      List.map_map, hfirst]
    congr 1
    refine Eq.trans (List.map_congr_left fun i _ => ?_) hrest
    rw [Function.comp_apply, Nat.succ_eq_add_one, Nat.add_right_comm, Nat.add_assoc]

/-- A buffer of the program: memory of its own, as it stands at the time of a call. -/
structure Buffer where
  memory : UserMemory
  address : ℕ
  count : ℕ
  inUser : address + count ≤ userTop
  writable : ∀ i < count, memory.writable (address + i) = true

theorem Buffer.write_eq (buffer : Buffer) {data : List UInt8} (h : data.length ≤ buffer.count) :
    buffer.memory.write buffer.address data = (.ok (), buffer.memory.store buffer.address data) := by
  have hrange : checkRange buffer.address data.length = .ok () := by
    have hinUser := buffer.inUser
    rw [checkRange, if_pos (by omega)]
  have hcopied : ((List.range data.length).takeWhile
      fun i => buffer.memory.writable (buffer.address + i)).length = data.length := by
    rw [List.takeWhile_eq_self_iff.mpr, List.length_range]
    intro i hi
    exact buffer.writable i (Nat.lt_of_lt_of_le (List.mem_range.mp hi) h)
  rw [UserMemory.write, hrange]
  simp only [hcopied, if_true, List.take_length]

/-- A directory, which only has valid names. -/
structure Directory where
  entries : List Fs.DirEntry
  valid : ∀ entry ∈ entries, ValidName entry.name
  /-- As many as a vector can hold. -/
  few : entries.length < 2 ^ 63

/-- The buffer has room for the largest record of the directory. -/
def Buffer.Roomy (buffer : Buffer) (directory : Directory) : Prop :=
  ∀ entry ∈ directory.entries, direntSize entry.name ≤ buffer.count

/-- The descriptor refers to the open directory. -/
structure Opened (inodes : ι → InodeView) (files : Files ι) (fd id : ℕ) (file : OpenFile ι)
    (directory : Directory) : Prop where
  isFd : fd < 2 ^ 32
  get : files.get fd = .ok (id, file)
  kind : (inodes file.inode).kind = .directory
  entries : (inodes file.inode).entries = .ok directory.entries

variable {ι : Type} {inodes : ι → InodeView} {files : Files ι} {fd id : ℕ} {file : OpenFile ι}
  {directory : Directory}

theorem Opened.setOffset (h : Opened inodes files fd id file directory) (offset : ℕ) :
    Opened inodes (files.setOffset id offset) fd id { file with offset } directory :=
  ⟨h.isFd, Files.get_setOffset h.get, h.kind, h.entries⟩

/-- A call returns whole records of the next entries, at least one if there is one, and moves the
position behind them. -/
theorem getdents64_entries {entries : List Fs.DirEntry} (hfdRange : fd < 2 ^ 32)
    (hget : files.get fd = .ok (id, file)) (hkind : (inodes file.inode).kind = .directory)
    (hentries : (inodes file.inode).entries = .ok entries)
    (hvalid : ∀ entry ∈ entries, ValidName entry.name) {buffer : Buffer}
    (hroomy : ∀ entry ∈ entries, direntSize entry.name ≤ buffer.count) :
    ∃ n ≤ (entries.drop file.offset).length, (entries.drop file.offset ≠ [] → 0 < n) ∧
      ∃ bytes, bytes = (recordList file.offset ((entries.drop file.offset).take n)).flatten ∧
        getdents64 inodes ⟨files, buffer.memory⟩ fd buffer.address buffer.count =
          (.ok bytes.length, ⟨files.setOffset id (file.offset + n),
            buffer.memory.store buffer.address bytes⟩) := by
  have hroom : ∀ entry ∈ entries.drop file.offset,
      direntSize entry.name ≤ min buffer.count maxTransfer := by
    intro entry he
    have he := List.mem_of_mem_drop he
    exact le_min (hroomy entry he) ((hvalid entry he).direntSize_le.trans (by decide))
  obtain ⟨n, hn, hpos, hlength, htake⟩ := @takeEntries_spec _ file.offset _ []
    (fun entry he => hvalid entry (List.mem_of_mem_drop he)) hroom (Nat.zero_le _)
  rw [List.nil_append] at hlength htake
  set bytes := (recordList file.offset ((entries.drop file.offset).take n)).flatten
  refine ⟨n, hn, hpos rfl, bytes, rfl, ?_⟩
  have hfd : fdOf fd = .ok fd := by rw [fdOf, if_pos hfdRange]
  have hrange : checkRange buffer.address (min buffer.count maxTransfer) = .ok () := by
    have hinUser := buffer.inUser
    rw [checkRange, if_pos (by omega)]
  have hwalk : readdirWith inodes files fd (takeDirent (min buffer.count maxTransfer)) ⟨[], false⟩ =
      .ok (⟨bytes, false⟩, files.setOffset id (file.offset + n)) := by
    unfold readdirWith
    rw [hget]
    simp only [bind, Except.bind, hkind, hentries, htake]
    rfl
  rw [getdents64, hfd]
  dsimp only
  rw [hrange]
  dsimp only
  rw [hwalk]
  dsimp only
  rw [if_neg Bool.false_ne_true, buffer.write_eq (le_trans hlength (min_le_left _ _))]
  rfl

theorem getdents64_spec (h : Opened inodes files fd id file directory) {buffer : Buffer}
    (hroomy : buffer.Roomy directory) :
    ∃ n ≤ (directory.entries.drop file.offset).length,
      (directory.entries.drop file.offset ≠ [] → 0 < n) ∧
      ∃ bytes, bytes = (recordList file.offset
          ((directory.entries.drop file.offset).take n)).flatten ∧
        getdents64 inodes ⟨files, buffer.memory⟩ fd buffer.address buffer.count =
          (.ok bytes.length, ⟨files.setOffset id (file.offset + n),
            buffer.memory.store buffer.address bytes⟩) :=
  getdents64_entries h.isFd h.get h.kind h.entries directory.valid hroomy

/-! ## A sequence of calls -/

/-- One call with a buffer. -/
def callWith (inodes : ι → InodeView) (fd : ℕ) (files : Files ι) (buffer : Buffer) :
    Except Errno ℕ × Context ι :=
  getdents64 inodes ⟨files, buffer.memory⟩ fd buffer.address buffer.count

/-- The files before the call with the given number. -/
def filesAt (inodes : ι → InodeView) (fd : ℕ) : ℕ → Files ι → (ℕ → Buffer) → Files ι
  | 0, files, _ => files
  | i + 1, files, buffers =>
    filesAt inodes fd i (callWith inodes fd files (buffers 0)).2.files fun j => buffers (j + 1)

/-- What the call with the given number returns. -/
def resultAt (inodes : ι → InodeView) (fd i : ℕ) (files : Files ι) (buffers : ℕ → Buffer) :
    Except Errno ℕ :=
  (callWith inodes fd (filesAt inodes fd i files buffers) (buffers i)).1

/-- What the program finds in the buffer of a call. -/
def returnedAt (inodes : ι → InodeView) (fd i : ℕ) (files : Files ι) (buffers : ℕ → Buffer) :
    List UInt8 :=
  match callWith inodes fd (filesAt inodes fd i files buffers) (buffers i) with
  | (.ok length, context) => context.memory.read (buffers i).address length
  | (.error _, _) => []

/-- The bytes of the first calls. -/
def bytesAt (inodes : ι → InodeView) (fd calls : ℕ) (files : Files ι) (buffers : ℕ → Buffer) :
    List UInt8 :=
  (List.range calls).flatMap fun i => returnedAt inodes fd i files buffers

/-- The records of the first calls, each call walked by itself. -/
def recordsAt (inodes : ι → InodeView) (fd calls : ℕ) (files : Files ι) (buffers : ℕ → Buffer) :
    List (List UInt8) :=
  (List.range calls).flatMap fun i => recordsOf (returnedAt inodes fd i files buffers)

/-- The calls return records up to some call, and nothing from that call on. -/
structure EndsAfter (inodes : ι → InodeView) (fd calls : ℕ) (files : Files ι) (buffers : ℕ → Buffer) :
    Prop where
  before : ∀ i < calls, ∃ length > 0, resultAt inodes fd i files buffers = .ok length
  after : ∀ i ≥ calls, resultAt inodes fd i files buffers = .ok 0

variable {buffers : ℕ → Buffer}

/-- The first call: whole records of the next entries, and the open directory behind them. -/
theorem first_call (h : Opened inodes files fd id file directory)
    (hroomy : ∀ i, (buffers i).Roomy directory) :
    ∃ n ≤ (directory.entries.drop file.offset).length,
      (directory.entries.drop file.offset ≠ [] → 0 < n) ∧
      resultAt inodes fd 0 files buffers = .ok (recordList file.offset
        ((directory.entries.drop file.offset).take n)).flatten.length ∧
      returnedAt inodes fd 0 files buffers =
        (recordList file.offset ((directory.entries.drop file.offset).take n)).flatten ∧
      (callWith inodes fd files (buffers 0)).2.files = files.setOffset id (file.offset + n) := by
  obtain ⟨n, hn, hpos, bytes, rfl, hcall⟩ := getdents64_spec h (hroomy 0)
  refine ⟨n, hn, hpos, ?_, ?_, ?_⟩
  · rw [resultAt, callWith, filesAt, hcall]
  · rw [returnedAt, callWith, filesAt, hcall]
    exact read_store (buffers 0).memory (buffers 0).address _
  · rw [callWith, hcall]

/-- At the end of the directory every call returns nothing. -/
theorem resultAt_end (h : Opened inodes files fd id file directory)
    (hroomy : ∀ i, (buffers i).Roomy directory) (hend : directory.entries.drop file.offset = [])
    (i : ℕ) : resultAt inodes fd i files buffers = .ok 0 := by
  induction i generalizing files buffers file with
  | zero =>
    obtain ⟨n, -, -, hresult, -⟩ := first_call h hroomy
    rw [hend, List.take_nil] at hresult
    exact hresult
  | succ i ih =>
    obtain ⟨n, hn, -, -, -, hfiles⟩ := first_call h hroomy
    rw [hend, List.length_nil, Nat.le_zero] at hn
    subst hn
    -- the position stays where it is
    have hopened := h.setOffset (file.offset + 0)
    rw [← hfiles] at hopened
    exact ih hopened (fun j => hroomy (j + 1)) hend

theorem length_recordList_pos (h : entries ≠ []) : 0 < (recordList position entries).flatten.length := by
  obtain ⟨entry, rest, rfl⟩ := List.exists_cons_of_ne_nil h
  have hge := direntSize_ge entry.name
  rw [recordList, List.flatten_cons, List.length_append, length_direntBytes]
  omega

theorem recordsAt_succ (calls : ℕ) :
    recordsAt inodes fd (calls + 1) files buffers =
      recordsOf (returnedAt inodes fd 0 files buffers) ++
        recordsAt inodes fd calls (callWith inodes fd files (buffers 0)).2.files
          fun j => buffers (j + 1) := by
  rw [recordsAt, List.range_succ_eq_map, List.flatMap_cons, List.flatMap_map]
  rfl

theorem bytesAt_succ (calls : ℕ) :
    bytesAt inodes fd (calls + 1) files buffers =
      returnedAt inodes fd 0 files buffers ++
        bytesAt inodes fd calls (callWith inodes fd files (buffers 0)).2.files
          fun j => buffers (j + 1) := by
  rw [bytesAt, List.range_succ_eq_map, List.flatMap_cons, List.flatMap_map]
  rfl

/-- A sequence of calls lists the rest of the directory, call by call whole records. -/
theorem listing (h : Opened inodes files fd id file directory)
    (hroomy : ∀ i, (buffers i).Roomy directory) :
    ∃ calls ≤ (directory.entries.drop file.offset).length, EndsAfter inodes fd calls files buffers ∧
      recordsAt inodes fd calls files buffers =
        recordList file.offset (directory.entries.drop file.offset) ∧
      bytesAt inodes fd calls files buffers =
        (recordList file.offset (directory.entries.drop file.offset)).flatten := by
  -- induction on the number of entries that are left
  induction hleft : (directory.entries.drop file.offset).length using Nat.strong_induction_on
    generalizing files buffers file with
  | _ left ih =>
    by_cases hend : directory.entries.drop file.offset = []
    · refine ⟨0, Nat.zero_le _, ⟨fun i hi => absurd hi (Nat.not_lt_zero i), fun i _ => ?_⟩, ?_, ?_⟩
      · exact resultAt_end h hroomy hend i
      · rw [hend]
        rfl
      · rw [hend]
        rfl
    · obtain ⟨n, hn, hpos, hresult, hreturned, hfiles⟩ := first_call h hroomy
      have hn0 := hpos hend
      have hopened := h.setOffset (file.offset + n)
      rw [← hfiles] at hopened
      have hdrop : directory.entries.drop (file.offset + n) =
          (directory.entries.drop file.offset).drop n := (List.drop_drop ..).symm
      have hsplit : recordList file.offset (directory.entries.drop file.offset) =
          recordList file.offset ((directory.entries.drop file.offset).take n) ++
            recordList (file.offset + n) (directory.entries.drop (file.offset + n)) := by
        conv_lhs => rw [← List.take_append_drop n (directory.entries.drop file.offset)]
        rw [recordList_append, List.length_take, Nat.min_eq_left hn, hdrop]
      have hvalid : ∀ entry ∈ (directory.entries.drop file.offset).take n, ValidName entry.name :=
        fun entry he => directory.valid entry (List.mem_of_mem_drop (List.mem_of_mem_take he))
      obtain ⟨calls, hcalls, hends, hrest, hbytes⟩ := ih _
        (by dsimp only; rw [hdrop, List.length_drop]; omega) hopened (fun j => hroomy (j + 1)) rfl
      dsimp only at hcalls hrest hbytes
      rw [hdrop, List.length_drop] at hcalls
      refine ⟨calls + 1, by omega, ⟨?_, ?_⟩, ?_, ?_⟩
      · rintro (_ | i) hi
        · refine ⟨_, length_recordList_pos ?_, hresult⟩
          rw [ne_eq, List.take_eq_nil_iff]
          exact fun hnil => hnil.elim hn0.ne' hend
        · exact hends.before i (by omega)
      · rintro (_ | i) hi
        · omega
        · exact hends.after i (by omega)
      · rw [recordsAt_succ, hreturned, recordsOf, records_flatten hvalid le_rfl, hrest, hsplit]
      · rw [bytesAt_succ, hreturned, hbytes, hsplit, List.flatten_append]

/-- The files stay open at some position between the calls. -/
theorem opened_filesAt (h : Opened inodes files fd id file directory)
    (hroomy : ∀ i, (buffers i).Roomy directory) (i : ℕ) :
    ∃ file, Opened inodes (filesAt inodes fd i files buffers) fd id file directory := by
  induction i generalizing files buffers file with
  | zero => exact ⟨file, h⟩
  | succ i ih =>
    obtain ⟨n, -, -, -, -, hfiles⟩ := first_call h hroomy
    have hopened := h.setOffset (file.offset + n)
    rw [← hfiles] at hopened
    exact ih hopened fun j => hroomy (j + 1)

/-- `lseek` moves an open directory to the given position. -/
theorem lseek_set (h : Opened inodes files fd id file directory) {position : ℕ}
    (hlt : position < 2 ^ 63) :
    lseek inodes files fd position .set = .ok (position, files.setOffset id position) := by
  unfold lseek
  rw [h.get]
  have hrange : ¬ (¬ (0 + (position : ℤ)) < 2 ^ 63 ∨ 0 + (position : ℤ) < 0) := by omega
  have hseekable : (inodes file.inode).seekable = true :=
    InodeView.seekable_of_kind (by rw [h.kind]; decide)
  simp only [bind, Except.bind, hseekable, not_true, hrange, if_false, pure, Except.pure]
  simp

/-- Calls list the given entries: they return records up to some call and nothing from then on, and
`read_dir` makes the entries of the records, each with its name and type, in order, whether it takes
the calls one by one or their bytes together. -/
structure Lists (inodes : ι → InodeView) (fd calls : ℕ) (files : Files ι) (buffers : ℕ → Buffer)
    (entries : List Fs.DirEntry) : Prop where
  calls_le : calls ≤ entries.length
  ends : EndsAfter inodes fd calls files buffers
  read : (recordsAt inodes fd calls files buffers).map dirEntryOf = entries.map userEntry
  joined : recordsOf (bytesAt inodes fd calls files buffers) = recordsAt inodes fd calls files buffers

/-- An open directory lists what is behind its position. -/
theorem Opened.lists (h : Opened inodes files fd id file directory)
    (hroomy : ∀ i, (buffers i).Roomy directory) :
    ∃ calls, Lists inodes fd calls files buffers (directory.entries.drop file.offset) ∧
      recordsAt inodes fd calls files buffers =
        recordList file.offset (directory.entries.drop file.offset) := by
  obtain ⟨calls, hcalls, hends, hrecords, hbytes⟩ := listing h hroomy
  have hvalid : ∀ entry ∈ directory.entries.drop file.offset, ValidName entry.name :=
    fun entry he => directory.valid entry (List.mem_of_mem_drop he)
  refine ⟨calls, ⟨hcalls, hends, ?_, ?_⟩, hrecords⟩
  · rw [hrecords, map_dirEntryOf hvalid]
  · rw [hrecords, hbytes, recordsOf, records_flatten hvalid le_rfl]

/-- From a directory that was just opened, any sequence of calls with buffers for the largest record
lists every entry once and ends; and from any moment of it, seeking to the `d_off` of a record goes on
behind that record's entry. -/
theorem getdents64_lists (h : Opened inodes files fd id file directory) (hstart : file.offset = 0)
    (hroomy : ∀ i, (buffers i).Roomy directory) :
    ∃ calls, Lists inodes fd calls files buffers directory.entries ∧
      ∀ k record, (recordsAt inodes fd calls files buffers)[k]? = some record →
        ∀ i, ∃ files', lseek inodes (filesAt inodes fd i files buffers) fd (dOff record) .set =
            .ok (dOff record, files') ∧
          ∀ buffers' : ℕ → Buffer, (∀ j, (buffers' j).Roomy directory) →
            ∃ calls', Lists inodes fd calls' files' buffers' (directory.entries.drop (k + 1)) := by
  obtain ⟨calls, hlists, hrecords⟩ := h.lists hroomy
  have hfew := directory.few
  rw [hstart, List.drop_zero] at hlists hrecords
  refine ⟨calls, hlists, fun k record hrecord i => ?_⟩
  rw [hrecords] at hrecord
  obtain ⟨hk, hoff⟩ := dOff_recordList (by omega) hrecord
  rw [Nat.zero_add] at hoff
  obtain ⟨file', hopened⟩ := opened_filesAt h hroomy i
  refine ⟨_, by rw [hoff]; exact lseek_set hopened (by omega), fun buffers' hroomy' => ?_⟩
  obtain ⟨calls', hlists', -⟩ := (hopened.setOffset (k + 1)).lists hroomy'
  exact ⟨calls', hlists'⟩

/-- Names of one, of eleven and of seven bytes: records of 24, 32 and 32 bytes. -/
def threeEntries : Directory where
  entries := [⟨"b".toList, 2, .directory⟩, ⟨"hello-world".toList, 3, .file⟩, ⟨"console".toList, 4, .charDevice⟩]
  valid := by
    simp only [List.mem_cons, List.not_mem_nil, or_false, forall_eq_or_imp, forall_eq]
    unfold ValidName
    decide +kernel
  few := by decide

/-- A buffer of so many bytes. -/
def bufferOf (count : ℕ) (h : count ≤ 64) : Buffer where
  memory := ⟨fun _ => 0, fun _ => true⟩
  address := 0x1000
  count := count
  inUser := Nat.le_trans (Nat.add_le_add_left h _) (by decide)
  writable := fun _ _ => rfl

/-- The first buffer holds one record, the second the other two; the third call finds the end. From the
second record's `d_off` on the last entry is left. -/
theorem getdents64_lists_threeEntries :
    let inodes : Unit → InodeView := fun _ => ⟨.directory, 0, .ok threeEntries.entries, false⟩
    let files : Files Unit := ⟨⟨[some 0]⟩, fun _ => some ⟨(), .read, 0⟩, 1⟩
    let buffers : ℕ → Buffer := fun i => bufferOf (if i = 0 then 32 else 64) (by split <;> decide)
    resultAt inodes 0 0 files buffers = .ok 24 ∧ resultAt inodes 0 1 files buffers = .ok 64 ∧
      resultAt inodes 0 2 files buffers = .ok 0 ∧ Lists inodes 0 2 files buffers threeEntries.entries ∧
      ∃ files', lseek inodes files 0 2 .set = .ok (2, files') ∧ ∃ calls,
        Lists inodes 0 calls files' buffers [⟨"console".toList, 4, .charDevice⟩] := by
  intro inodes files buffers
  have hfirst : resultAt inodes 0 0 files buffers = .ok 24 := by decide +kernel
  have hsecond : resultAt inodes 0 1 files buffers = .ok 64 := by decide +kernel
  have hthird : resultAt inodes 0 2 files buffers = .ok 0 := by decide +kernel
  have hroomy : ∀ i, (buffers i).Roomy threeEntries := by
    intro i entry hentry
    have hsize : direntSize entry.name ≤ 32 := by
      revert entry
      decide +kernel
    refine hsize.trans ?_
    change 32 ≤ if i = 0 then 32 else 64
    split <;> decide
  obtain ⟨calls, hlists, hseek⟩ := @getdents64_lists Unit inodes files 0 0 ⟨(), .read, 0⟩ threeEntries
    buffers ⟨by decide, rfl, rfl, rfl⟩ rfl hroomy
  obtain rfl : calls = 2 := by
    rcases Nat.lt_trichotomy calls 2 with hlt | heq | hgt
    · have hend := hlists.ends.after 1 (by omega)
      rw [hsecond] at hend
      contradiction
    · exact heq
    · obtain ⟨length, hpos, hlength⟩ := hlists.ends.before 2 hgt
      rw [hthird] at hlength
      cases hlength
      contradiction
  have hrecords : (recordsAt inodes 0 2 files buffers)[1]?.map dOff = some 2 := by decide +kernel
  obtain ⟨record, hrecord, hoff⟩ := Option.map_eq_some_iff.mp hrecords
  obtain ⟨files', hseeked, hrest⟩ := hseek 1 record hrecord 0
  rw [hoff] at hseeked
  exact ⟨hfirst, hsecond, hthird, hlists, files', hseeked, hrest buffers hroomy⟩

end SaeOS.Libsaeos
