import SaeOS.Fs.DirectoryEdits
import SaeOS.Libsaeos.ReadDir

/-!
# Scanning a directory that changes

A scan calls `getdents64` until nothing is left, while entries are created, removed and renamed between
its calls. The position is an index into the listing, which is made anew at every call
(`RamDir::entries`), so a change in front of it moves the entries across it. An entry that stays is
returned once exactly if it is moved over the position as often as back (`count_eq_one_iff`).
-/

namespace SaeOS.Fs.Vfs

open Text

variable (vfs : Vfs)

/-! ## The listing of a directory -/

/-- `Inode::entries`. A name of a ramfs is a text, so nothing is lost when it is decoded. -/
def listing (inode : InodeRef) : Except Errno (List DirEntry) :=
  let entryOf (name : Name) (child : ℕ) : DirEntry :=
    ⟨fromUtf8Lossy name, child, vfs.kind ⟨inode.fs, child⟩⟩
  match vfs.fileSystem inode.fs with
  | .ram fs =>
    if fs.isDir inode.ino then
      .ok ((fs.entries inode.ino).toList.map fun (name, child) => entryOf name child)
    else .error .ENOTDIR
  | .fixed node =>
    match node inode.ino with
    | .directory entries => .ok (entries.map fun (name, child) => entryOf name child)
    | _ => .error .ENOTDIR

/-- The answers of the inodes. -/
def view (inode : InodeRef) : InodeView where
  kind := vfs.kind inode
  size := vfs.size inode
  entries := vfs.listing inode

/-- The names in the order of the listing. -/
def names (inode : InodeRef) : List Text :=
  match vfs.listing inode with
  | .ok entries => entries.map DirEntry.name
  | .error _ => []

/-! ## Changes -/

/-- A name as a path argument has it: text without a zero byte. -/
structure EntryName where
  text : Text
  noNul : '\x00' ∉ text

/-- A change of the directories by anyone. -/
inductive Change
  | create (directory : InodeRef) (name : EntryName) (kind : InodeKind)
  | unlink (directory : InodeRef) (name : Name)
  | rmdir (directory : InodeRef) (name : Name)
  | rename (directory : InodeRef) (old : Name) (target : InodeRef) (new : EntryName)

/-- The state after it. `Vfs::rename` has looked for a target directory of the same file system. -/
def change : Change → Option Vfs
  | .create directory name kind => some (vfs.createIn directory (asBytes name.text) kind).2
  | .unlink directory name => some (vfs.unlinkIn directory name).2
  | .rmdir directory name => some (vfs.rmdirIn directory name).2
  | .rename directory old target new =>
    if target.fs = directory.fs ∧ vfs.kind target = .directory then
      (vfs.renameIn directory old target (asBytes new.text)).map Prod.snd
    else some vfs

end SaeOS.Fs.Vfs

namespace SaeOS.Libsaeos

open Fs Text

/-! ## Scans -/

/-- The names in the buffer after a call. -/
def namesReturned (vfs : Vfs) (fd : ℕ) (buffer : Buffer) : List Text :=
  match callWith vfs.view fd vfs.files buffer with
  | (.ok length, context) =>
    (recordsOf (context.memory.read buffer.address length)).map fun record => (dirEntryOf record).name
  | (.error _, _) => []

/-- The state after a call. -/
def afterCall (vfs : Vfs) (fd : ℕ) (buffer : Buffer) : Vfs :=
  { vfs with files := (callWith vfs.view fd vfs.files buffer).2.files }

/-- The buffer has room for every record of the directory as it is. -/
def Adequate (vfs : Vfs) (directory : InodeRef) (buffer : Buffer) : Prop :=
  ∀ name ∈ vfs.names directory, direntSize name ≤ buffer.count

instance (vfs : Vfs) (directory : InodeRef) (buffer : Buffer) :
    Decidable (Adequate vfs directory buffer) := by
  unfold Adequate
  infer_instance

/-- From `start`, calls and changes in any order: the state they lead to, the names that the calls have
returned, and the states before and after each change. -/
inductive Scan (directory : InodeRef) (fd : ℕ) (start : Vfs) :
    Vfs → List Text → List (Vfs × Vfs) → Prop
  | start : Scan directory fd start start [] []
  | call {vfs returned changes} (buffer : Buffer) : Scan directory fd start vfs returned changes →
      Adequate vfs directory buffer →
      Scan directory fd start (afterCall vfs fd buffer) (returned ++ namesReturned vfs fd buffer) changes
  | change {vfs vfs' returned changes} (change : Vfs.Change) :
      Scan directory fd start vfs returned changes → vfs.change change = some vfs' →
      Scan directory fd start vfs' returned (changes ++ [(vfs, vfs')])

/-- The next call returns nothing. -/
def AtEnd (vfs : Vfs) (directory : InodeRef) (fd : ℕ) : Prop :=
  ∃ buffer, Adequate vfs directory buffer ∧ (callWith vfs.view fd vfs.files buffer).1 = .ok 0

/-- The name is there at the start and after every change. -/
def Stays (directory : InodeRef) (start : Vfs) (changes : List (Vfs × Vfs)) (name : Text) : Prop :=
  name ∈ start.names directory ∧ ∀ change ∈ changes, name ∈ change.2.names directory

/-- Where a descriptor stands. -/
def offsetOf (vfs : Vfs) (fd : ℕ) : ℕ :=
  match vfs.files.get fd with
  | .ok (_, file) => file.offset
  | .error _ => 0

/-- The position has passed the name. -/
def passed (directory : InodeRef) (fd : ℕ) (name : Text) (position vfs : Vfs) : Bool :=
  (vfs.names directory).idxOf name < offsetOf position fd

/-- A change that moves the name from behind the position to before it. -/
def skips (directory : InodeRef) (fd : ℕ) (name : Text) (change : Vfs × Vfs) : Bool :=
  !passed directory fd name change.1 change.1 && passed directory fd name change.1 change.2

/-- A change that moves the name back behind the position. -/
def repeats (directory : InodeRef) (fd : ℕ) (name : Text) (change : Vfs × Vfs) : Bool :=
  passed directory fd name change.1 change.1 && !passed directory fd name change.1 change.2

/-! ## Directories that can be listed -/

variable {vfs vfs' : Vfs} {directory : InodeRef}

/-- A directory in which all names are valid; in one that never changes they are also distinct, as the
keys of an entry map are. -/
structure Listable (vfs : Vfs) (directory : InodeRef) : Prop where
  kind : vfs.kind directory = .directory
  ram : ∀ fs, vfs.fileSystem directory.fs = .ram fs → ∀ n child,
    fs.entry directory.ino n = some child → ∃ text, asBytes text = n ∧ ValidName text
  fixed : ∀ node, vfs.fileSystem directory.fs = .fixed node →
    (∀ name ∈ vfs.names directory, ValidName name) ∧ (vfs.names directory).Nodup

theorem names_ram {fs : RamFs} (hkind : vfs.kind directory = .directory)
    (hfs : vfs.fileSystem directory.fs = .ram fs) :
    vfs.names directory = (fs.entries directory.ino).toList.map fun entry => fromUtf8Lossy entry.1 := by
  have hdir := Vfs.isDir_of_kind hfs hkind
  rw [Vfs.names, Vfs.listing, hfs]
  dsimp only
  rw [if_pos hdir]
  dsimp only
  rw [List.map_map]
  rfl

theorem Listable.exists_listing (h : Listable vfs directory) :
    ∃ entries, vfs.listing directory = .ok entries ∧ vfs.names directory = entries.map Fs.DirEntry.name := by
  have hkind := h.kind
  unfold Vfs.names Vfs.listing
  unfold Vfs.kind at hkind
  cases hfs : vfs.fileSystem directory.fs with
  | ram fs =>
    rw [hfs] at hkind
    dsimp only at hkind ⊢
    split at hkind
    · rename_i hdir
      rw [if_pos hdir]
      exact ⟨_, rfl, rfl⟩
    · contradiction
  | fixed node =>
    rw [hfs] at hkind
    dsimp only at hkind ⊢
    cases hnode : node directory.ino with
    | directory entries => exact ⟨_, rfl, rfl⟩
    | file => rw [hnode] at hkind; contradiction
    | device size write opened => rw [hnode] at hkind; contradiction

/-- The entries of a map lead to names that were put into it. -/
theorem Listable.text_of_mem (h : Listable vfs directory) {fs : RamFs}
    (hfs : vfs.fileSystem directory.fs = .ram fs) {entry : Name × ℕ}
    (hentry : entry ∈ (fs.entries directory.ino).toList) :
    ∃ text, asBytes text = entry.1 ∧ ValidName text := by
  refine h.ram fs hfs entry.1 entry.2 ?_
  exact Std.ExtTreeMap.mem_toList_iff_getElem?_eq_some.mp hentry

theorem Listable.valid (h : Listable vfs directory) : ∀ name ∈ vfs.names directory, ValidName name := by
  cases hfs : vfs.fileSystem directory.fs with
  | ram fs =>
    rw [names_ram h.kind hfs]
    intro name hname
    obtain ⟨entry, hentry, rfl⟩ := List.mem_map.mp hname
    obtain ⟨text, htext, hvalid⟩ := h.text_of_mem hfs hentry
    rwa [← htext, fromUtf8Lossy_asBytes]
  | fixed node => exact (h.fixed node hfs).1

theorem Listable.nodup (h : Listable vfs directory) : (vfs.names directory).Nodup := by
  cases hfs : vfs.fileSystem directory.fs with
  | ram fs =>
    rw [names_ram h.kind hfs]
    refine List.Nodup.map_on (fun a ha b hb heq => ?_) ?_
    · -- decoding is injective on encoded names, and a name has one entry
      obtain ⟨s, hs, -⟩ := h.text_of_mem hfs ha
      obtain ⟨t, ht, -⟩ := h.text_of_mem hfs hb
      have hname : a.1 = b.1 := by
        rw [← hs, ← ht, fromUtf8Lossy_asBytes, fromUtf8Lossy_asBytes] at heq
        rw [← hs, ← ht, heq]
      have hchild := (Std.ExtTreeMap.mem_toList_iff_getElem?_eq_some.mp ha).symm.trans
        (hname ▸ Std.ExtTreeMap.mem_toList_iff_getElem?_eq_some.mp hb)
      exact Prod.ext hname (Option.some.inj hchild)
    · refine List.Pairwise.imp (fun {a b} hne heq => hne ?_) Std.ExtTreeMap.distinct_keys_toList
      rw [heq]
      exact Std.ReflCmp.compare_self
  | fixed node => exact (h.fixed node hfs).2

/-- A change that only puts valid names keeps a directory listable. -/
theorem Listable.edit {put cut : InodeRef → Name → Prop} {whole : Prop} (h : Listable vfs directory)
    (hedit : Vfs.Edit vfs vfs' put cut whole)
    (hput : ∀ n, put directory n → ∃ text, asBytes text = n ∧ ValidName text) :
    Listable vfs' directory := by
  refine ⟨hedit.kind directory h.kind, fun fs' hfs' n child hchild => ?_, fun node hnode => ?_⟩
  · cases hfs : vfs.fileSystem directory.fs with
    | fixed node => exact absurd ((hedit.fixed _ node hfs).symm.trans hfs') (by simp)
    | ram fs =>
      have hentry' : vfs'.entry directory n = some ⟨directory.fs, child⟩ := by
        rw [Vfs.entry, hfs']
        exact congrArg (Option.map (InodeRef.mk directory.fs)) hchild
      rcases hedit.kept directory n with heq | ⟨hat, -⟩ | ⟨-, hnone, -⟩
      · -- the entry was there before
        rw [heq, Vfs.entry, hfs] at hentry'
        obtain ⟨old, hold, -⟩ := Option.map_eq_some_iff.mp hentry'
        exact h.ram fs hfs n old hold
      · exact hput n hat
      · exact absurd (hnone.symm.trans hentry') (by simp)
  · cases hfs : vfs.fileSystem directory.fs with
    | ram fs =>
      obtain ⟨fs', hfs'⟩ := hedit.ram _ fs hfs
      exact absurd (hfs'.symm.trans hnode) (by simp)
    | fixed node' =>
      have hsame := hedit.fixed _ node' hfs
      have hnames : vfs'.names directory = vfs.names directory := by
        obtain rfl := FileSystem.fixed.inj (hsame.symm.trans hnode)
        unfold Vfs.names Vfs.listing
        rw [hsame, hfs]
        dsimp only
        cases node' directory.ino with
        | directory entries => simp [List.map_map, Function.comp_def]
        | file => rfl
        | device size write opened => rfl
      rw [hnames]
      exact h.fixed node' hfs

/-! ## One change -/

/-- A name that passes the check is valid. -/
theorem validName_of_check (name : Vfs.EntryName) (h : checkName (asBytes name.text) = .ok ()) :
    ValidName name.text :=
  ⟨h, name.noNul⟩

/-- A change is an edit that only puts valid names. -/
theorem change_edit {change : Vfs.Change} (htree : ∀ id, Vfs.Tree (vfs.fileSystem id))
    (hchange : vfs.change change = some vfs') : ∃ put cut whole, Vfs.Edit vfs vfs' put cut whole ∧
      ∀ d n, put d n → ∃ text, asBytes text = n ∧ ValidName text := by
  have hsame : vfs' = vfs → ∃ put cut whole, Vfs.Edit vfs vfs' put cut whole ∧
      ∀ d n, put d n → ∃ text, asBytes text = n ∧ ValidName text := by
    rintro rfl
    exact ⟨Vfs.Nowhere, Vfs.Nowhere, False, .refl htree _ _ _, fun _ _ hnone => hnone.elim⟩
  cases change with
  | create d name kind =>
    obtain rfl := Option.some.inj hchange
    cases hcheck : checkName (asBytes name.text) with
    | ok u =>
      refine ⟨_, _, _, Vfs.createIn_edit htree rfl, fun d' n hat => ?_⟩
      exact ⟨name.text, hat.1.2.symm, validName_of_check name hcheck⟩
    | error e =>
      -- the method fails before it looks at the directory
      refine hsame ?_
      rw [Vfs.createIn, Vfs.onDirectory]
      cases vfs.fileSystem d.fs with
      | ram fs =>
        dsimp only
        rw [hcheck]
        simp only [bind, Except.bind]
        split <;> rfl
      | fixed node =>
        dsimp only
        split <;> rfl
  | unlink d name =>
    obtain rfl := Option.some.inj hchange
    exact ⟨_, _, _, Vfs.unlinkIn_edit htree rfl, fun _ _ hnone => hnone.elim⟩
  | rmdir d name =>
    obtain rfl := Option.some.inj hchange
    exact ⟨_, _, _, Vfs.rmdirIn_edit htree rfl, fun _ _ hnone => hnone.elim⟩
  | rename d old target new =>
    rw [Vfs.change] at hchange
    split at hchange
    · rename_i htarget
      obtain ⟨outcome, hrename, rfl⟩ := Option.map_eq_some_iff.mp hchange
      cases hcheck : checkName (asBytes new.text) with
      | ok u =>
        refine ⟨_, _, _, Vfs.renameIn_edit htree htarget.1 htarget.2 hrename, fun d' n hat => ?_⟩
        exact ⟨new.text, hat.2.symm, validName_of_check new hcheck⟩
      | error e =>
        refine hsame ?_
        unfold Vfs.renameIn at hrename
        cases hfs : vfs.fileSystem d.fs with
        | ram fs =>
          rw [hfs, hcheck] at hrename
          exact congrArg Prod.snd (Option.some.inj hrename).symm
        | fixed node =>
          rw [hfs] at hrename
          dsimp only at hrename
          split at hrename <;> exact congrArg Prod.snd (Option.some.inj hrename).symm
    · exact hsame (Option.some.inj hchange).symm

theorem onDirectory_files {α : Type} (method : RamFs → Except Errno (α × RamFs)) :
    (vfs.onDirectory directory method).2.files = vfs.files := by
  unfold Vfs.onDirectory
  split
  · split
    · split <;> rfl
    · rfl
  · split <;> rfl

/-- Nobody else moves the position. -/
theorem change_files {change : Vfs.Change} (hchange : vfs.change change = some vfs') :
    vfs'.files = vfs.files := by
  cases change with
  | create d name kind =>
    obtain rfl := Option.some.inj hchange
    exact onDirectory_files _
  | unlink d name =>
    obtain rfl := Option.some.inj hchange
    exact onDirectory_files _
  | rmdir d name =>
    obtain rfl := Option.some.inj hchange
    exact onDirectory_files _
  | rename d old target new =>
    rw [Vfs.change] at hchange
    split at hchange
    · obtain ⟨outcome, hrename, rfl⟩ := Option.map_eq_some_iff.mp hchange
      unfold Vfs.renameIn at hrename
      split at hrename
      · split at hrename
        · rw [← Option.some.inj hrename]
        · obtain ⟨answer, -, hanswer⟩ := Option.bind_eq_some_iff.mp hrename
          split at hanswer <;> rw [← Option.some.inj hanswer]
          rfl
      · split at hrename <;> rw [← Option.some.inj hrename]
    · rw [Option.some.inj hchange]

/-! ## One call -/

variable {fd id : ℕ} {file : OpenFile InodeRef} {buffer : Buffer}

/-- A call returns the next names, at least one if there is one, and moves the position behind them. -/
theorem call_spec (hfd : fd < 2 ^ 32) (hget : vfs.files.get fd = .ok (id, file))
    (hlist : Listable vfs file.inode) (hroom : Adequate vfs file.inode buffer) :
    ∃ n, namesReturned vfs fd buffer = ((vfs.names file.inode).drop file.offset).take n ∧
      (afterCall vfs fd buffer).files.get fd = .ok (id, { file with offset := file.offset + n }) ∧
      ((callWith vfs.view fd vfs.files buffer).1 = .ok 0 →
        (vfs.names file.inode).length ≤ file.offset) := by
  obtain ⟨entries, hlisting, hnames⟩ := hlist.exists_listing
  have hvalid : ∀ entry ∈ entries, ValidName entry.name := by
    intro entry hentry
    refine hlist.valid entry.name ?_
    rw [hnames]
    exact List.mem_map_of_mem hentry
  have hroomy : ∀ entry ∈ entries, direntSize entry.name ≤ buffer.count := by
    intro entry hentry
    refine hroom entry.name ?_
    rw [hnames]
    exact List.mem_map_of_mem hentry
  obtain ⟨n, hn, hpos, bytes, hbytes, hcall⟩ :=
    @getdents64_entries _ vfs.view _ fd id file entries hfd hget hlist.kind hlisting hvalid buffer hroomy
  have htaken : ∀ entry ∈ (entries.drop file.offset).take n, ValidName entry.name :=
    fun entry hentry => hvalid entry (List.mem_of_mem_drop (List.mem_of_mem_take hentry))
  refine ⟨n, ?_, ?_, fun hend => ?_⟩
  · rw [namesReturned, callWith, hcall]
    dsimp only
    rw [read_store, hbytes, recordsOf, records_flatten htaken le_rfl, hnames, ← List.map_drop,
      ← List.map_take]
    have hrecords := congrArg (List.map DirEntry.name) (@map_dirEntryOf _ file.offset htaken)
    rw [List.map_map, List.map_map] at hrecords
    exact hrecords
  · rw [afterCall, callWith, hcall]
    exact Files.get_setOffset hget
  · rw [callWith, hcall] at hend
    by_contra hlt
    rw [hnames, List.length_map] at hlt
    have hne : (entries.drop file.offset).take n ≠ [] := by
      have hleft : entries.drop file.offset ≠ [] := by
        rw [Ne, List.drop_eq_nil_iff]
        exact hlt
      rw [Ne, List.take_eq_nil_iff, not_or]
      exact ⟨(hpos hleft).ne', hleft⟩
    have hsome : 0 < bytes.length := by
      rw [hbytes]
      exact length_recordList_pos hne
    exact absurd (Except.ok.inj hend) hsome.ne'

/-! ## Runs -/

variable {start : Vfs} {returned : List Text} {changes : List (Vfs × Vfs)} {name : Text}

/-- A window of a list has an element if the element is in it. -/
theorem count_window {names : List Text} (hnodup : names.Nodup) (hmem : name ∈ names) (p n : ℕ) :
    (if names.idxOf name < p then 1 else 0) + ((names.drop p).take n).count name =
      if names.idxOf name < p + n then 1 else 0 := by
  have hstarts : ∀ k, (names.take k).count name = if names.idxOf name < k then 1 else 0 := by
    intro k
    rw [(hnodup.sublist (List.take_sublist k names)).count]
    simp only [List.mem_take_iff_idxOf_lt hmem]
  rw [← hstarts p, ← hstarts (p + n), List.take_add, List.count_append]

/-- The name as it is counted: what has been returned, and how often it has been skipped and repeated. -/
structure ScanInv (directory : InodeRef) (fd id : ℕ) (vfs start : Vfs) (returned : List Text)
    (changes : List (Vfs × Vfs)) (name : Text) : Prop where
  tree : ∀ i, Vfs.Tree (vfs.fileSystem i)
  opened : ∃ file, vfs.files.get fd = .ok (id, file) ∧ file.inode = directory
  listable : Listable vfs directory
  listed : Stays directory start changes name → name ∈ vfs.names directory
  tally : Stays directory start changes name →
    returned.count name + changes.countP (skips directory fd name) =
      (passed directory fd name vfs vfs).toNat + changes.countP (repeats directory fd name)

theorem offsetOf_eq (h : vfs.files.get fd = .ok (id, file)) : offsetOf vfs fd = file.offset := by
  rw [offsetOf, h]

theorem Stays.of_append {change : Vfs × Vfs} (h : Stays directory start (changes ++ [change]) name) :
    Stays directory start changes name ∧ name ∈ change.2.names directory :=
  ⟨⟨h.1, fun c hc => h.2 c (List.mem_append_left _ hc)⟩, h.2 change (by simp)⟩

theorem ScanInv.call (hfd : fd < 2 ^ 32) (h : ScanInv directory fd id vfs start returned changes name)
    (hroom : Adequate vfs directory buffer) :
    ScanInv directory fd id (afterCall vfs fd buffer) start
      (returned ++ namesReturned vfs fd buffer) changes name := by
  obtain ⟨file, hget, rfl⟩ := h.opened
  obtain ⟨n, hnames, hafter, -⟩ := call_spec hfd hget h.listable hroom
  refine ⟨h.tree, ⟨_, hafter, rfl⟩, ⟨h.listable.kind, h.listable.ram, h.listable.fixed⟩, h.listed,
    fun hstays => ?_⟩
  have hold := h.tally hstays
  have hwindow := count_window h.listable.nodup (h.listed hstays) file.offset n
  have hbefore : (passed file.inode fd name vfs vfs).toNat =
      if (vfs.names file.inode).idxOf name < file.offset then 1 else 0 := by
    rw [passed, offsetOf_eq hget]
    split <;> simp [*]
  have hnow : (passed file.inode fd name (afterCall vfs fd buffer) (afterCall vfs fd buffer)).toNat =
      if (vfs.names file.inode).idxOf name < file.offset + n then 1 else 0 := by
    have hsame : (afterCall vfs fd buffer).names file.inode = vfs.names file.inode := rfl
    rw [passed, offsetOf_eq hafter, hsame]
    split <;> simp [*]
  rw [List.count_append, hnames, hnow]
  rw [hbefore] at hold
  omega

theorem ScanInv.change {change : Vfs.Change}
    (h : ScanInv directory fd id vfs start returned changes name)
    (hchange : vfs.change change = some vfs') :
    ScanInv directory fd id vfs' start returned (changes ++ [(vfs, vfs')]) name := by
  obtain ⟨put, cut, whole, hedit, hput⟩ := change_edit h.tree hchange
  have hfiles := change_files hchange
  refine ⟨hedit.tree, by rw [hfiles]; exact h.opened, h.listable.edit hedit (hput directory),
    fun hstays => hstays.of_append.2, fun hstays => ?_⟩
  have hold := h.tally hstays.of_append.1
  -- the position is the same, and the name may have moved over it
  have hsame : passed directory fd name vfs' vfs' = passed directory fd name vfs vfs' := by
    rw [passed, passed, offsetOf, offsetOf, hfiles]
  have hmoved : (passed directory fd name vfs vfs).toNat +
      (if skips directory fd name (vfs, vfs') then 1 else 0) =
        (passed directory fd name vfs vfs').toNat +
          if repeats directory fd name (vfs, vfs') then 1 else 0 := by
    rw [skips, repeats]
    cases passed directory fd name vfs vfs <;> cases passed directory fd name vfs vfs' <;> rfl
  rw [List.countP_append, List.countP_append, List.countP_singleton, List.countP_singleton, hsame]
  omega

theorem Scan.inv (hfd : fd < 2 ^ 32) (htree : ∀ i, Vfs.Tree (start.fileSystem i))
    (hget : start.files.get fd = .ok (id, file)) (hbegin : file.offset = 0)
    (hlist : Listable start file.inode) (h : Scan file.inode fd start vfs returned changes)
    (name : Text) : ScanInv file.inode fd id vfs start returned changes name := by
  induction h with
  | start =>
    refine ⟨htree, ⟨file, hget, rfl⟩, hlist, fun hstays => hstays.1, fun _ => ?_⟩
    rw [passed, offsetOf_eq hget, hbegin]
    rfl
  | call buffer _ hroom ih => exact ih.call hfd hroom
  | change change _ hchange ih => exact ih.change hchange

/-- An entry that is there all the time is returned exactly once if and only if the changes have moved it
over the position as often as back; in particular if none has moved it over the position. -/
theorem count_eq_one_iff (directory : InodeRef) (fd id : ℕ) (flags : OpenFlags) (start vfs : Vfs)
    (returned : List Text) (changes : List (Vfs × Vfs)) (hfd : fd < 2 ^ 32)
    (htree : ∀ i, Vfs.Tree (start.fileSystem i))
    (hget : start.files.get fd = .ok (id, ⟨directory, flags, 0⟩)) (hlist : Listable start directory)
    (hscan : Scan directory fd start vfs returned changes) (hend : AtEnd vfs directory fd)
    (name : Text) (hstays : Stays directory start changes name) :
    returned.count name = 1 ↔
      changes.countP (skips directory fd name) = changes.countP (repeats directory fd name) := by
  have hinv := hscan.inv hfd htree hget rfl hlist name
  obtain ⟨file, hopened, rfl⟩ := hinv.opened
  obtain ⟨buffer, hroom, hnothing⟩ := hend
  obtain ⟨n, -, -, hpast⟩ := call_spec hfd hopened hinv.listable hroom
  have hlength := hpast hnothing
  -- at the end the position has passed every entry
  have hpassed : passed file.inode fd name vfs vfs = true := by
    rw [passed, offsetOf_eq hopened, decide_eq_true_eq]
    exact (List.idxOf_lt_length_of_mem (hinv.listed hstays)).trans_le hlength
  have htally := hinv.tally hstays
  rw [hpassed] at htally
  simp only [Bool.toNat_true] at htally
  omega

/-- A file in the root of a ramfs. -/
def addFile (vfs : Vfs) (name : Text) : Vfs :=
  (vfs.createIn ⟨0, RamFs.rootIno⟩ (asBytes name) .file).2

/-- The files `a` and `b` in the root directory, which is open. -/
def twoFiles : Vfs :=
  { addFile (addFile Vfs.oneRamFs "a".toList) "b".toList with
    files :=
      { table := ⟨[some 0]⟩
        file := fun i => if i = 0 then some ⟨⟨0, RamFs.rootIno⟩, .read, 0⟩ else none
        next := 1 } }

/-- Room for one record. -/
def smallBuffer : Buffer where
  memory := ⟨fun _ => 0, fun _ => true⟩
  address := 0x1000
  count := 24
  inUser := by decide
  writable _ _ := rfl

/-- After the first call `a` is removed. -/
def oneRemoved : Vfs :=
  ((afterCall twoFiles 0 smallBuffer).unlinkIn ⟨0, RamFs.rootIno⟩ (asBytes "a".toList)).2

/-- The scan returns `a` and finds nothing behind it. -/
theorem scan_oneRemoved :
    Scan ⟨0, RamFs.rootIno⟩ 0 twoFiles oneRemoved ["a".toList]
        [(afterCall twoFiles 0 smallBuffer, oneRemoved)] ∧
      AtEnd oneRemoved ⟨0, RamFs.rootIno⟩ 0 ∧
      Stays ⟨0, RamFs.rootIno⟩ twoFiles [(afterCall twoFiles 0 smallBuffer, oneRemoved)] "b".toList := by
  have hnames : namesReturned twoFiles 0 smallBuffer = ["a".toList] := by decide
  have hroom : Adequate twoFiles ⟨0, RamFs.rootIno⟩ smallBuffer := by decide
  refine ⟨?_, ⟨smallBuffer, by decide, by rfl⟩, by decide, ?_⟩
  · have hcall : Scan ⟨0, RamFs.rootIno⟩ 0 twoFiles _ ([] ++ namesReturned twoFiles 0 smallBuffer) [] :=
      .call smallBuffer .start hroom
    rw [hnames] at hcall
    exact .change (.unlink ⟨0, RamFs.rootIno⟩ (asBytes "a".toList)) hcall rfl
  · intro change hchange
    obtain rfl := List.mem_singleton.mp hchange
    decide

/-- It has never returned `b`, which was there all the time. -/
theorem count_eq_one_fails :
    Scan ⟨0, RamFs.rootIno⟩ 0 twoFiles oneRemoved ["a".toList]
        [(afterCall twoFiles 0 smallBuffer, oneRemoved)] ∧
      AtEnd oneRemoved ⟨0, RamFs.rootIno⟩ 0 ∧
      Stays ⟨0, RamFs.rootIno⟩ twoFiles [(afterCall twoFiles 0 smallBuffer, oneRemoved)] "b".toList ∧
      ["a".toList].count "b".toList = 0 :=
  ⟨scan_oneRemoved.1, scan_oneRemoved.2.1, scan_oneRemoved.2.2, by decide⟩

/-- A new name keeps trees and names. -/
theorem addFile_ok {vfs : Vfs} {name : Vfs.EntryName} {directory : InodeRef}
    (h : (∀ i, Vfs.Tree (vfs.fileSystem i)) ∧ Listable vfs directory) :
    (∀ i, Vfs.Tree ((addFile vfs name.text).fileSystem i)) ∧
      Listable (addFile vfs name.text) directory := by
  obtain ⟨put, cut, whole, hedit, hput⟩ := @change_edit vfs (addFile vfs name.text)
    (.create ⟨0, RamFs.rootIno⟩ name .file) h.1 rfl
  exact ⟨hedit.tree, h.2.edit hedit (hput directory)⟩

theorem twoFiles_ok : (∀ i, Vfs.Tree (twoFiles.fileSystem i)) ∧
    Listable twoFiles ⟨0, RamFs.rootIno⟩ := by
  have hempty : (∀ i, Vfs.Tree (Vfs.oneRamFs.fileSystem i)) ∧
      Listable Vfs.oneRamFs ⟨0, RamFs.rootIno⟩ := by
    refine ⟨fun i => RamFs.treeOk_withLimit 4096, rfl, fun fs hfs n child hchild => ?_,
      fun node hnode => (by cases hnode)⟩
    obtain rfl := FileSystem.ram.inj hfs
    have hnone : (RamFs.withLimit 4096).entry RamFs.rootIno n = none := by
      exact Std.ExtTreeMap.getElem?_empty
    exact absurd (hnone.symm.trans hchild) (by simp)
  have hfiles := @addFile_ok _ ⟨"b".toList, by decide⟩ _ (@addFile_ok _ ⟨"a".toList, by decide⟩ _ hempty)
  exact ⟨hfiles.1, hfiles.2.kind, hfiles.2.ram, hfiles.2.fixed⟩

theorem count_eq_one_iff_twoFiles :
    (["a".toList].count "b".toList = 1 ↔
      [(afterCall twoFiles 0 smallBuffer, oneRemoved)].countP
          (skips ⟨0, RamFs.rootIno⟩ 0 "b".toList) =
        [(afterCall twoFiles 0 smallBuffer, oneRemoved)].countP
          (repeats ⟨0, RamFs.rootIno⟩ 0 "b".toList)) :=
  count_eq_one_iff _ 0 0 .read twoFiles oneRemoved _ _ (by decide) twoFiles_ok.1 rfl twoFiles_ok.2
    scan_oneRemoved.1 scan_oneRemoved.2.1 _ scan_oneRemoved.2.2

end SaeOS.Libsaeos
