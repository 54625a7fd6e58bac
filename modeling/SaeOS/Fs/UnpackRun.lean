import SaeOS.Fs.InitramfsGrammar
import SaeOS.Fs.RamFsSpaceRun
import SaeOS.Fs.Unpack

/-!
# The tree that unpacking leaves

What is at each path below a directory (`RamFs.tree`), and how it changes when an entry is added, taken
away or written: in a tree every inode is at one path at most, so one path changes and no other. From
this `unpack` is a fold over the entries on the tree and the counter of the file system (`Image.add`).
-/

namespace SaeOS.Fs

/-! ## Paths below a directory -/

/-- What is at a path. -/
inductive Content where
  | directory
  | file (data : List UInt8)
  deriving DecidableEq

namespace RamFs

variable {fs fs' : RamFs} {root ino i d : ℕ} {name n : Name} {path path' : List Name}

/-- The inode at a path. -/
def find (fs : RamFs) (root : ℕ) : List Name → Option ℕ
  | [] => some root
  | name :: path => (fs.entry root name).bind fun child => fs.find child path

def content (fs : RamFs) (ino : ℕ) : Option Content :=
  match fs.node ino with
  | some (.file data) => some (.file data)
  | some (.dir _) => some .directory
  | none => none

/-- What is below a directory. -/
def tree (fs : RamFs) (root : ℕ) (path : List Name) : Option Content :=
  (fs.find root path).bind fs.content

theorem find_concat : fs.find root (path ++ [n]) = (fs.find root path).bind (fs.entry · n) := by
  induction path generalizing root with
  | nil =>
    rw [List.nil_append, find, find, Option.bind_some]
    cases fs.entry root n <;> rfl
  | cons name path ih =>
    rw [List.cons_append, find, find, Option.bind_assoc]
    exact congrArg _ (funext fun child => ih)

theorem find_concat_eq_some : fs.find root (path ++ [n]) = some i ↔
    ∃ d, fs.find root path = some d ∧ fs.entry d n = some i := by
  rw [find_concat, Option.bind_eq_some_iff]

/-- A directory at a path is within the directory that the path starts from. -/
theorem TreeOk.within_of_find (h : fs.TreeOk) (hfind : fs.find root path = some i)
    (hdir : fs.isDir i = true) : Forest.Within fs.up i root := by
  induction path using List.reverseRecOn generalizing i with
  | nil =>
    obtain rfl := Option.some.inj hfind
    exact .refl _
  | append_singleton path n ih =>
    obtain ⟨d, hd, hentry⟩ := find_concat_eq_some.mp hfind
    exact (Forest.Within.parent (h.up_of_entry hentry hdir)).trans (ih hd (isDir_of_entry hentry))

/-- The directory that paths start from is at no other path. -/
theorem TreeOk.find_ne_root (h : fs.TreeOk) (hroot : fs.isDir root = true) :
    fs.find root (path ++ [n]) ≠ some root := by
  intro hfind
  obtain ⟨d, hd, hentry⟩ := find_concat_eq_some.mp hfind
  exact h.grounded.not_within_child (h.up_of_entry hentry hroot)
    (h.within_of_find hd (isDir_of_entry hentry))

/-- Every inode is at one path at most. -/
theorem TreeOk.find_injective (h : fs.TreeOk) (hroot : fs.isDir root = true)
    (hfind : fs.find root path = some i) (hfind' : fs.find root path' = some i) : path = path' := by
  induction path using List.reverseRecOn generalizing i path' with
  | nil =>
    obtain rfl := Option.some.inj hfind
    cases path' using List.reverseRecOn with
    | nil => rfl
    | append_singleton path' n => exact absurd hfind' (h.find_ne_root hroot)
  | append_singleton path n ih =>
    obtain ⟨d, hd, hentry⟩ := find_concat_eq_some.mp hfind
    cases path' using List.reverseRecOn with
    | nil =>
      obtain rfl := Option.some.inj hfind'
      exact absurd hfind (h.find_ne_root hroot)
    | append_singleton path' n' =>
      obtain ⟨d', hd', hentry'⟩ := find_concat_eq_some.mp hfind'
      obtain ⟨rfl, rfl⟩ := h.unique d n d' n' i hentry hentry'
      rw [ih hd hd']

theorem TreeOk.present_of_find (h : fs.TreeOk) (hroot : fs.isDir root = true)
    (hfind : fs.find root path = some i) : fs.present i := by
  cases path using List.reverseRecOn with
  | nil =>
    obtain rfl := Option.some.inj hfind
    exact present_of_isDir hroot
  | append_singleton path n =>
    obtain ⟨d, -, hentry⟩ := find_concat_eq_some.mp hfind
    exact (h.listed d n i hentry).2

/-- One entry is different, and what was or is under it lists nothing. -/
theorem TreeOk.find_update (h : fs.TreeOk) (hroot : fs.isDir root = true)
    (hd : fs.find root path = some d) {old new : Option ℕ} (hold : fs.entry d name = old)
    (hentry : ∀ d' n, fs'.entry d' n = if d' = d ∧ n = name then new else fs.entry d' n)
    (hleaf : ∀ i, old = some i ∨ new = some i → ∀ n, fs.entry i n = none) (hne : new ≠ some d)
    (path' : List Name) :
    fs'.find root path' = if path' = path ++ [name] then new else fs.find root path' := by
  induction path' using List.reverseRecOn with
  | nil => rw [if_neg (by simp), find, find]
  | append_singleton path' n ih =>
    rw [find_concat, ih, find_concat]
    by_cases hpath' : path' = path ++ [name]
    · -- nothing is below the entry
      subst hpath'
      have hlonger : path ++ [name] ++ [n] ≠ path ++ [name] := by simp
      rw [if_pos rfl, if_neg hlonger, find_concat, hd, Option.bind_some, hold]
      have hnone : ∀ entry : Option ℕ, (entry = old ∨ entry = new) →
          entry.bind (fs.entry · n) = none := by
        rintro (_ | i) hi
        · rfl
        · exact hleaf i (hi.imp Eq.symm Eq.symm) n
      rw [hnone old (.inl rfl)]
      cases hnew : new with
      | none => rfl
      | some i =>
        have hid : ¬ (i = d ∧ n = name) := fun heq => hne (hnew.trans (congrArg some heq.1))
        rw [Option.bind_some, hentry, if_neg hid]
        exact hleaf i (.inr hnew) n
    · rw [if_neg hpath']
      cases hfind : fs.find root path' with
      | none =>
        rw [Option.bind_none, Option.bind_none, if_neg]
        intro heq
        obtain ⟨rfl, -⟩ := List.append_inj' heq rfl
        exact absurd (hfind.symm.trans hd) (by simp)
      | some d' =>
        rw [Option.bind_some, Option.bind_some, hentry]
        by_cases hd' : d' = d
        · subst hd'
          obtain rfl := h.find_injective hroot hfind hd
          by_cases hn : n = name
          · rw [if_pos ⟨rfl, hn⟩, if_pos (by rw [hn])]
          · rw [if_neg (not_and_of_not_right _ hn), if_neg (by simpa using hn)]
        · rw [if_neg (not_and_of_not_left _ hd'), if_neg]
          intro heq
          obtain ⟨rfl, -⟩ := List.append_inj' heq rfl
          exact hd' (Option.some.inj (hfind.symm.trans hd))

theorem find_congr (h : ∀ d n, fs'.entry d n = fs.entry d n) : fs'.find root path = fs.find root path := by
  induction path generalizing root with
  | nil => rfl
  | cons name path ih =>
    rw [find, find, h]
    exact congrArg _ (funext fun child => ih)

/-! ## Changes of the tree -/

theorem content_setDir (f : RamDir → RamDir) : (fs.setDir ino f).content i = fs.content i := by
  obtain h | ⟨c, c', h, h'⟩ : _ ∨ _ := node_setDir f
  · rw [content, h, content]
  · rw [content, h', content, h]

/-- What is in the store and is no directory is a file. -/
theorem exists_file (h : fs.present i) (hdir : fs.isDir i = false) :
    ∃ data, fs.node i = some (.file data) := by
  obtain ⟨node, hnode⟩ := Option.isSome_iff_exists.mp h
  cases node with
  | file data => exact ⟨data, hnode⟩
  | dir c =>
    rw [isDir, dir, hnode] at hdir
    contradiction

theorem entry_of_file {data : List UInt8} (h : fs.node i = some (.file data)) (n : Name) :
    fs.entry i n = none := by
  by_contra hsome
  obtain ⟨child, hchild⟩ := Option.ne_none_iff_exists'.mp hsome
  have hdir := isDir_of_entry hchild
  rw [isDir, dir, h] at hdir
  contradiction

/-- What a kind of new inode has in it. -/
def newContent : InodeKind → Content
  | .directory => .directory
  | _ => .file []

theorem content_create {kind : InodeKind} {child : ℕ} (h : fs.create d name kind = .ok (child, fs')) :
    fs'.content i = if i = fs.nextIno then some (newContent kind) else fs.content i := by
  unfold create at h
  split_ifs at h
  split at h
  · contradiction
  · rename_i node hnode
    obtain ⟨-, rfl⟩ := Prod.mk.inj (Except.ok.inj h)
    rw [mapEntries, content_setDir]
    by_cases hi : i = fs.nextIno
    · subst hi
      rw [if_pos rfl, content]
      cases kind with
      | file =>
        obtain rfl := Except.ok.inj hnode
        simp [setNode, newContent]
      | directory =>
        obtain rfl := Except.ok.inj hnode
        simp [setNode, newContent]
      | charDevice => contradiction
    · simp [content, setNode, hi]

/-- A new inode is at its path, and everything else where it was. -/
theorem TreeOk.tree_create (h : fs.TreeOk) (hroot : fs.isDir root = true)
    (hd : fs.find root path = some d) (hdir : fs.isDir d = true) {kind : InodeKind} {child : ℕ}
    (hcreate : fs.create d name kind = .ok (child, fs')) :
    fs'.tree root = Function.update (fs.tree root) (path ++ [name]) (some (newContent kind)) ∧
      fs'.find root (path ++ [name]) = some child := by
  obtain ⟨rfl, hc⟩ := h.created hdir hcreate
  have hfresh : ¬ fs.present fs.nextIno := fun hp => absurd (h.lt_next _ hp) (lt_irrefl _)
  have hleaf : ∀ i, (none : Option ℕ) = some i ∨ some fs.nextIno = some i → ∀ n, fs.entry i n = none := by
    rintro i (hi | hi) n
    · contradiction
    · obtain rfl := Option.some.inj hi
      by_contra hsome
      obtain ⟨child, hchild⟩ := Option.ne_none_iff_exists'.mp hsome
      exact hfresh (present_of_isDir (isDir_of_entry hchild))
  have hne : some fs.nextIno ≠ some d := by
    intro heq
    exact hfresh (Option.some.inj heq ▸ present_of_isDir hdir)
  have hfind := h.find_update hroot hd hc.free hc.entry hleaf hne
  refine ⟨funext fun path' => ?_, by rw [hfind, if_pos rfl]⟩
  rw [tree, hfind, Function.update_apply]
  split
  · rw [Option.bind_some, content_create hcreate, if_pos rfl]
  · rw [tree]
    cases hpath' : fs.find root path' with
    | none => rfl
    | some i =>
      have hi : i ≠ fs.nextIno := fun heq => hfresh (heq ▸ h.present_of_find hroot hpath')
      rw [Option.bind_some, Option.bind_some, content_create hcreate, if_neg hi]

/-- Other data in a file is at the file's path. -/
theorem TreeOk.tree_rewritten (h : fs.TreeOk) (hroot : fs.isDir root = true)
    (hfind : fs.find root path = some ino) {data data' : List UInt8}
    (hw : Rewritten fs fs' ino data data') :
    fs'.tree root = Function.update (fs.tree root) path (some (.file data')) := by
  have hentry : ∀ d n, fs'.entry d n = fs.entry d n := by
    intro d n
    rw [entry, entries, hw.dir, entry, entries]
  obtain ⟨hdata, used, rfl, -, -⟩ := hw
  funext path'
  rw [tree, find_congr hentry, Function.update_apply]
  split
  · rename_i heq
    rw [heq, hfind]
    simp [content, setData, setNode]
  · rename_i hne
    rw [tree]
    cases hpath' : fs.find root path' with
    | none => rfl
    | some i =>
      have hi : i ≠ ino := fun heq => hne (h.find_injective hroot hpath' (heq ▸ hfind))
      simp [content, setData, setNode, hi]

/-- A file that is taken away is at no path. -/
theorem TreeOk.tree_erase (h : fs.TreeOk) (hroot : fs.isDir root = true)
    (hd : fs.find root path = some d) (hentry : fs.entry d name = some i) {data : List UInt8}
    (hdata : fs.node i = some (.file data)) :
    (fs.mapEntries d (·.erase name)).tree root =
      Function.update (fs.tree root) (path ++ [name]) none ∧
      ∀ path', (fs.mapEntries d (·.erase name)).find root path' ≠ some i := by
  have hdir := isDir_of_entry hentry
  have hleaf : ∀ j, some i = some j ∨ (none : Option ℕ) = some j → ∀ n, fs.entry j n = none := by
    rintro j (hj | hj) n
    · exact Option.some.inj hj ▸ entry_of_file hdata n
    · contradiction
  have hfind := h.find_update hroot hd hentry (fun d n => entry_erase hdir) hleaf (by simp)
  refine ⟨funext fun path' => ?_, fun path' hpath' => ?_⟩
  · rw [tree, hfind, Function.update_apply]
    split
    · rfl
    · rw [tree]
      exact congrArg _ (funext fun j => content_setDir _)
  · rw [hfind] at hpath'
    split at hpath'
    · contradiction
    · rename_i hne
      have hold : fs.find root (path ++ [name]) = some i := find_concat_eq_some.mpr ⟨d, hd, hentry⟩
      exact hne (h.find_injective hroot hpath' hold)

/-- Dropping what is at no path. -/
theorem tree_drop (hunlisted : ∀ path', fs.find root path' ≠ some ino)
    (hleaf : ∀ n, fs.entry ino n = none) : (fs.drop ino).tree root = fs.tree root := by
  have hentry : ∀ d n, (fs.drop ino).entry d n = fs.entry d n := by
    intro d n
    refine Option.ext fun i => entry_drop.trans (and_iff_left_of_imp ?_)
    rintro hi rfl
    exact absurd ((hleaf n).symm.trans hi) (by simp)
  have hnode : (fs.drop ino).node = Function.update fs.node ino none := by
    unfold drop
    split <;> rfl
  funext path'
  rw [tree, tree, find_congr hentry]
  cases hpath' : fs.find root path' with
  | none => rfl
  | some i =>
    have hi : i ≠ ino := fun heq => hunlisted path' (heq ▸ hpath')
    rw [Option.bind_some, Option.bind_some, content, hnode, Function.update_of_ne hi, content]

/-- What leads to a path is there. -/
theorem find_of_prefix (hfind : fs.find root path = some i) (h : path' <+: path) :
    ∃ j, fs.find root path' = some j := by
  induction path using List.reverseRecOn generalizing i with
  | nil => exact ⟨i, List.prefix_nil.mp h ▸ hfind⟩
  | append_singleton path n ih =>
    obtain rfl | h := List.prefix_concat_iff.mp h
    · exact ⟨i, hfind⟩
    · obtain ⟨d, hd, -⟩ := find_concat_eq_some.mp hfind
      exact ih hd h

theorem TreeOk.tree_ne_none (h : fs.TreeOk) (hroot : fs.isDir root = true)
    (hfind : fs.find root path = some i) : fs.tree root path ≠ none := by
  obtain ⟨node, hnode⟩ := Option.isSome_iff_exists.mp (h.present_of_find hroot hfind)
  rw [tree, hfind, Option.bind_some, content, hnode]
  cases node <;> simp

end RamFs

end SaeOS.Fs

namespace SaeOS.Initramfs

open Fs (Name Space RamFs Content)

/-! ## What unpacking does to a tree -/

/-- What is at each path. -/
abbrev Tree := List Name → Option Content

namespace Tree

variable (tree : Tree)

/-- Every directory on the way to `path`, and `path` itself, made where it is missing. -/
def mkdirs (path : List Name) : Tree := fun p =>
  if p <+: path ∧ tree p = none then some .directory else tree p

/-- The bytes of the file at a path. -/
def size (path : List Name) : ℕ :=
  match tree path with
  | some (.file data) => data.length
  | _ => 0

end Tree

/-- A tree, and the bytes that the file system accounts for. -/
structure Image where
  tree : Tree
  used : ℕ

/-- What an entry does: a directory is made; a file has the entry's data and nothing else, or is not
there if it is skipped. The bytes of an earlier file are given back in both cases. -/
def Image.add (image : Image) (entry : Entry) (outcome : Outcome) : Image :=
  let path := components entry.path
  match entry.kind with
  | .directory => { image with tree := image.tree.mkdirs path }
  | .file =>
    let before := image.used - image.tree.size path
    match outcome with
    | .written =>
      ⟨Function.update (image.tree.mkdirs path.dropLast) path (some (.file entry.data)),
        before + entry.data.length⟩
    | _ => ⟨Function.update (image.tree.mkdirs path.dropLast) path none, before⟩

/-- What is below a directory of a ramfs. -/
def imageOf (s : Space) (root : ℕ) : Image :=
  ⟨s.fs.tree root, s.fs.used⟩

/-- A ramfs in good order, with a directory to unpack below. -/
structure Mounted (s : Space) (limit root : ℕ) : Prop where
  inv : s.Inv limit none
  tree : s.fs.TreeOk
  root : s.fs.isDir root = true

variable {s s' : Space} {limit root directory ino : ℕ} {component : Name} {path : List Name}
  {data : List UInt8} {room : Bool} {outcome : Outcome}

/-! ## One component -/

theorem create_ok {kind : Fs.InodeKind} (h : create s directory component kind = .ok (ino, s')) :
    ∃ fs, s.fs.create directory component kind = .ok (ino, fs) ∧ s' = { s with fs } := by
  unfold create at h
  simp only [bind, Except.bind, pure, Except.pure] at h
  split at h
  · contradiction
  · split at h
    · contradiction
    · rename_i made hmade
      obtain ⟨rfl, rfl⟩ := Prod.mk.inj (Except.ok.inj h)
      exact ⟨made.2, hmade, rfl⟩

theorem used_create {fs fs' : RamFs} {kind : Fs.InodeKind} (hnone : fs.node fs.nextIno = none)
    (h : fs.create directory component kind = .ok (ino, fs')) : fs'.used = fs.used :=
  (RamFs.create_lengths hnone h).2.1

/-- A new inode below a directory. -/
theorem Mounted.create (h : Mounted s limit root) (hfind : s.fs.find root path = some directory)
    (hdir : s.fs.isDir directory = true) {kind : Fs.InodeKind}
    (hcreate : create s directory component kind = .ok (ino, s')) :
    Mounted s' limit root ∧ s'.fs.find root (path ++ [component]) = some ino ∧
      s'.fs.content ino = some (RamFs.newContent kind) ∧
      imageOf s' root = ⟨Function.update (s.fs.tree root) (path ++ [component])
        (some (RamFs.newContent kind)), s.fs.used⟩ := by
  obtain ⟨fs, hmade, rfl⟩ := create_ok hcreate
  obtain ⟨hino, hc⟩ := h.tree.created hdir hmade
  obtain ⟨htree, hfind'⟩ := h.tree.tree_create h.root hfind hdir hmade
  have hroot : root ≠ s.fs.nextIno := by
    rintro rfl
    exact absurd (h.tree.lt_next _ (RamFs.present_of_isDir h.root)) (lt_irrefl _)
  refine ⟨⟨(h.inv.create hdir hmade).1, h.tree.of_created hdir hc,
    (hc.isDir root hroot).trans h.root⟩, hfind', ?_, ?_⟩
  · exact (RamFs.content_create hmade).trans (if_pos hino)
  · rw [imageOf, htree, used_create h.tree.fresh hmade]

/-- A path that continues one that is there is the only one that can be missing. -/
theorem Mounted.mkdirs_concat (h : Mounted s limit root)
    (hfind : s.fs.find root path = some directory) :
    Tree.mkdirs (s.fs.tree root) (path ++ [component]) =
      if s.fs.tree root (path ++ [component]) = none then
        Function.update (s.fs.tree root) (path ++ [component]) (some .directory)
      else s.fs.tree root := by
  have hthere : ∀ p, p <+: path → s.fs.tree root p ≠ none := by
    intro p hp
    obtain ⟨i, hi⟩ := RamFs.find_of_prefix hfind hp
    exact h.tree.tree_ne_none h.root hi
  funext p
  rw [Tree.mkdirs]
  by_cases hp : p = path ++ [component]
  · subst hp
    by_cases hnone : s.fs.tree root (path ++ [component]) = none
    · rw [if_pos ⟨List.prefix_rfl, hnone⟩, if_pos hnone, Function.update_self]
    · rw [if_neg fun hand => hnone hand.2, if_neg hnone]
  · have hskip : ¬ (p <+: path ++ [component] ∧ s.fs.tree root p = none) := by
      rintro ⟨hfront, hnone⟩
      exact hthere p ((List.prefix_concat_iff.mp hfront).resolve_left hp) hnone
    rw [if_neg hskip]
    split
    · rw [Function.update_of_ne hp]
    · rfl

theorem Mounted.enterDirectory (h : Mounted s limit root)
    (hfind : s.fs.find root path = some directory) (hdir : s.fs.isDir directory = true)
    (henter : enterDirectory s directory component = .ok (ino, s')) :
    Mounted s' limit root ∧ s'.fs.find root (path ++ [component]) = some ino ∧
      s'.fs.isDir ino = true ∧
      imageOf s' root = ⟨Tree.mkdirs (s.fs.tree root) (path ++ [component]), s.fs.used⟩ := by
  unfold Initramfs.enterDirectory at henter
  split at henter
  · rename_i existing hexisting
    split at henter
    · rename_i hisDir
      obtain ⟨rfl, rfl⟩ := Prod.mk.inj (Except.ok.inj henter)
      have hthere : s.fs.find root (path ++ [component]) = some existing :=
        RamFs.find_concat_eq_some.mpr ⟨directory, hfind, RamFs.entry_of_lookup hexisting⟩
      rw [h.mkdirs_concat hfind, if_neg (h.tree.tree_ne_none h.root hthere)]
      exact ⟨h, hthere, hisDir, rfl⟩
    · contradiction
  · rename_i e hmissing
    split at henter
    · obtain ⟨hmounted, hthere, hcontent, himage⟩ := h.create hfind hdir henter
      have hnone : s.fs.tree root (path ++ [component]) = none := by
        have hfree : s.fs.entry directory component = none := by
          unfold RamFs.lookup at hmissing
          split at hmissing
          · contradiction
          · assumption
        rw [RamFs.tree, RamFs.find_concat, hfind, Option.bind_some, hfree]
        rfl
      rw [h.mkdirs_concat hfind, if_pos hnone]
      refine ⟨hmounted, hthere, ?_, himage⟩
      by_contra hfile
      obtain ⟨data, hdata⟩ := RamFs.exists_file (hmounted.tree.present_of_find hmounted.root hthere)
        (eq_false_of_ne_true hfile)
      rw [RamFs.content, hdata] at hcontent
      cases Option.some.inj hcontent
    · contradiction

/-- Other data in the file at a path. -/
theorem Mounted.rewritten (h : Mounted s limit root) (hfind : s.fs.find root path = some ino)
    {fs : RamFs} {data' : List UInt8} (hw : RamFs.Rewritten s.fs fs ino data data') :
    Mounted { s with fs } limit root ∧
      imageOf { s with fs } root = ⟨Function.update (s.fs.tree root) path (some (.file data')),
        s.fs.used - data.length + data'.length⟩ ∧
      fs.node ino = some (.file data') ∧ ∀ p, fs.find root p = s.fs.find root p := by
  have htree := h.tree.tree_rewritten h.root hfind hw
  have hdir := hw.dir
  refine ⟨⟨h.inv.rewritten hw, Space.treeOk_rewritten h.tree hw, ?_⟩, ?_, ?_, fun p => ?_⟩
  · rw [RamFs.isDir, hdir]
    exact h.root
  · have hcovered := h.inv.covered hw.1
    obtain ⟨-, used, rfl, hused, -⟩ := hw
    rw [imageOf, htree]
    congr 1
    show used = _
    omega
  · obtain ⟨-, used, rfl, -, -⟩ := hw
    exact Function.update_self _ _ _
  · refine RamFs.find_congr fun d n => ?_
    rw [RamFs.entry, RamFs.entries, hdir, RamFs.entry, RamFs.entries]

/-- Taking away an empty file. -/
theorem Mounted.unlink (h : Mounted s limit root) (hfind : s.fs.find root path = some directory)
    (hentry : s.fs.entry directory component = some ino) (hnode : s.fs.node ino = some (.file [])) :
    Mounted (unlink s directory component) limit root ∧
      imageOf (Initramfs.unlink s directory component) root =
        ⟨Function.update (s.fs.tree root) (path ++ [component]) none, s.fs.used⟩ := by
  have hdir := RamFs.isDir_of_entry hentry
  have hfile : s.fs.isDir ino = false := by
    rw [RamFs.isDir, RamFs.dir, hnode]
    rfl
  have hunlink : s.fs.unlink directory component =
      .ok (s.fs.mapEntries directory (·.erase component)) := by
    unfold RamFs.unlink
    rw [RamFs.entry] at hentry
    rw [hentry]
    simp only [hfile]
    rfl
  obtain ⟨htree, hgone⟩ := h.tree.tree_erase h.root hfind hentry hnode
  have hinv := h.inv.unlink hdir hunlink
  have herased : (s.fs.mapEntries directory (·.erase component)).TreeOk := h.tree.erase hdir
  have hpresent : ∀ i, s.fs.entry directory component = some i →
      (s.fs.mapEntries directory (·.erase component)).present i := by
    intro i hi
    rw [RamFs.present_mapEntries]
    exact (h.tree.listed _ _ _ hi).2
  have hroot : (s.fs.mapEntries directory (·.erase component)).isDir root = true := by
    rw [RamFs.isDir_mapEntries]
    exact h.root
  have hused : (s.fs.mapEntries directory (·.erase component)).used = s.fs.used := RamFs.used_setDir _
  have hunlinked : Initramfs.unlink s directory component =
      Space.settle { s with fs := s.fs.mapEntries directory (·.erase component) }
        (s.fs.entry directory component) := by
    rw [Initramfs.unlink, hunlink]
  rw [hunlinked]
  have hmounted : Mounted (Space.settle { s with fs := s.fs.mapEntries directory (·.erase component) }
      (s.fs.entry directory component)) limit root := by
    refine ⟨hinv.settle hpresent, Space.treeOk_settle herased hinv, ?_⟩
    rw [hentry, Space.settle]
    split
    · exact hroot
    · refine RamFs.isDir_drop.mpr ⟨hroot, ?_⟩
      rintro rfl
      exact Bool.false_ne_true (hfile.symm.trans h.root)
  refine ⟨hmounted, ?_⟩
  rw [hentry, Space.settle]
  split
  · rw [imageOf, htree, hused]
  · -- the file has no bytes to give back
    have hempty : (s.fs.mapEntries directory (·.erase component)).node ino = some (.file []) := by
      obtain hsame | ⟨c, c', hc, -⟩ : _ ∨ _ := RamFs.node_setDir _
      · exact hsame.trans hnode
      · exact absurd (hnode.symm.trans hc) (by simp)
    have hdrop : ((s.fs.mapEntries directory (·.erase component)).drop ino).used = s.fs.used := by
      unfold RamFs.drop
      rw [hempty]
      exact hused
    rw [imageOf, RamFs.tree_drop hgone (RamFs.entry_of_file hempty), htree, hdrop]

/-- The file that is to be written: it has no data any more, or not yet. -/
theorem Mounted.openFile (h : Mounted s limit root) (hfind : s.fs.find root path = some directory)
    (hdir : s.fs.isDir directory = true)
    (hopen : openFile s directory component = .ok (ino, s')) :
    Mounted s' limit root ∧ s'.fs.find root path = some directory ∧
      s'.fs.entry directory component = some ino ∧ s'.fs.node ino = some (.file []) ∧
      imageOf s' root = ⟨Function.update (s.fs.tree root) (path ++ [component]) (some (.file [])),
        s.fs.used - Tree.size (s.fs.tree root) (path ++ [component])⟩ := by
  unfold Initramfs.openFile at hopen
  split at hopen
  · rename_i existing hexisting
    have hentry := RamFs.entry_of_lookup hexisting
    have hthere : s.fs.find root (path ++ [component]) = some existing :=
      RamFs.find_concat_eq_some.mpr ⟨directory, hfind, hentry⟩
    split at hopen
    · contradiction
    · rename_i hfile
      obtain ⟨data, hdata⟩ := RamFs.exists_file (h.tree.present_of_find h.root hthere)
        (eq_false_of_ne_true hfile)
      split at hopen
      · contradiction
      · rename_i fs htruncate
        obtain ⟨rfl, rfl⟩ := Prod.mk.inj (Except.ok.inj hopen)
        obtain ⟨data', hw⟩ := RamFs.truncate_ok (fun data hdata => h.inv.covered hdata)
          (h.inv.limit_eq ▸ h.inv.used_le) htruncate
        obtain rfl := Fs.Node.file.inj (Option.some.inj (hdata.symm.trans hw.1))
        have hnil : data.take 0 ++ List.replicate (0 - data.length) 0 = [] := by simp
        rw [hnil] at hw
        obtain ⟨hmounted, himage, hnode, hsame⟩ := h.rewritten hthere hw
        have hentry' : fs.entry directory component = some existing := by
          obtain ⟨d, hd, hentry'⟩ := RamFs.find_concat_eq_some.mp ((hsame _).trans hthere)
          obtain rfl := Option.some.inj (hfind.symm.trans ((hsame _).symm.trans hd))
          exact hentry'
        have hsize : Tree.size (s.fs.tree root) (path ++ [component]) = data.length := by
          rw [Tree.size, RamFs.tree, hthere, Option.bind_some, RamFs.content, hdata]
        refine ⟨hmounted, (hsame _).trans hfind, hentry', hnode, ?_⟩
        rw [himage, hsize, List.length_nil, Nat.add_zero]
  · rename_i e hmissing
    split at hopen
    · obtain ⟨hmounted, hthere, hcontent, himage⟩ := h.create hfind hdir hopen
      have hfree : s.fs.entry directory component = none := by
        unfold RamFs.lookup at hmissing
        split at hmissing
        · contradiction
        · assumption
      have hsize : Tree.size (s.fs.tree root) (path ++ [component]) = 0 := by
        rw [Tree.size, RamFs.tree, RamFs.find_concat, hfind, Option.bind_some, hfree]
        rfl
      -- the new file is below the same directory
      obtain ⟨fs, hmade, rfl⟩ := create_ok hopen
      obtain ⟨hino, hc⟩ := h.tree.created hdir hmade
      have hfind' : fs.find root path = some directory := by
        obtain ⟨d, hd, hentry⟩ := RamFs.find_concat_eq_some.mp hthere
        rw [hc.entry] at hentry
        split at hentry
        · rename_i heq
          exact heq.1 ▸ hd
        · have hpresent := (h.tree.listed _ _ _ hentry).2
          rw [hino] at hpresent
          exact absurd (h.tree.lt_next _ hpresent) (lt_irrefl _)
      refine ⟨hmounted, hfind', ?_, ?_, ?_⟩
      · rw [hc.entry, if_pos ⟨rfl, rfl⟩, hino]
      · unfold RamFs.content at hcontent
        split at hcontent
        · rename_i data hdata
          obtain rfl : data = [] := Content.file.inj (Option.some.inj hcontent)
          exact hdata
        · cases Option.some.inj hcontent
        · contradiction
      · rw [himage, hsize]
        rfl
    · contradiction

/-- The last component of a file. -/
theorem Mounted.unpackFile (h : Mounted s limit root)
    (hfind : s.fs.find root path = some directory) (hdir : s.fs.isDir directory = true)
    (hunpack : unpackFile s directory component data room = .ok (outcome, s')) :
    Mounted s' limit root ∧ outcome ≠ .directory ∧
      imageOf s' root = ⟨Function.update (s.fs.tree root) (path ++ [component])
          (if outcome = .written then some (.file data) else none),
        s.fs.used - Tree.size (s.fs.tree root) (path ++ [component]) +
          (if outcome = .written then data.length else 0)⟩ := by
  unfold Initramfs.unpackFile at hunpack
  split at hunpack
  · contradiction
  · rename_i ino s₁ hopen
    obtain ⟨hmounted, hfind', hentry, hnode, himage⟩ := h.openFile hfind hdir hopen
    have hthere : s₁.fs.find root (path ++ [component]) = some ino :=
      RamFs.find_concat_eq_some.mpr ⟨directory, hfind', hentry⟩
    have htree : s₁.fs.tree root = _ := congrArg Image.tree himage
    have hused : s₁.fs.used = _ := congrArg Image.used himage
    split at hunpack
    · rename_i e fs hwrite
      obtain ⟨rfl, rfl⟩ := Prod.mk.inj (Except.ok.inj hunpack)
      obtain rfl := RamFs.writeAt_error hwrite
      obtain ⟨hgone, himage'⟩ := hmounted.unlink hfind' hentry hnode
      refine ⟨hgone, (by simp), ?_⟩
      rw [himage', htree, hused]
      simp
    · rename_i count fs hwrite
      obtain ⟨rfl, rfl⟩ := Prod.mk.inj (Except.ok.inj hunpack)
      obtain ⟨data', hw⟩ := RamFs.writeAt_ok (fun data hdata => hmounted.inv.covered hdata)
        (hmounted.inv.limit_eq ▸ hmounted.inv.used_le) hwrite
      obtain rfl := Fs.Node.file.inj (Option.some.inj (hnode.symm.trans hw.1))
      have hdata : RamFs.overwritten [] 0 data = data := by simp [RamFs.overwritten]
      rw [hdata] at hw
      obtain ⟨hwritten, himage', -, -⟩ := hmounted.rewritten hthere hw
      refine ⟨hwritten, (by simp), ?_⟩
      rw [himage', htree, hused]
      simp

/-! ## One entry -/

theorem Tree.mkdirs_of_there {tree : Tree} {p : List Name} (h : ∀ q, q <+: p → tree q ≠ none) :
    tree.mkdirs p = tree := by
  funext q
  rw [Tree.mkdirs, if_neg]
  rintro ⟨hfront, hnone⟩
  exact h q hfront hnone

/-- Directories that are made on the way are there when the rest is made. -/
theorem Tree.mkdirs_mkdirs (tree : Tree) {p p' : List Name} (h : p <+: p') :
    (tree.mkdirs p).mkdirs p' = tree.mkdirs p' := by
  funext q
  unfold Tree.mkdirs
  by_cases hq : q <+: p ∧ tree q = none
  · have hboth : q <+: p' ∧ tree q = none := ⟨hq.1.trans h, hq.2⟩
    simp only [if_pos hq, if_pos hboth, reduceCtorEq, and_false, if_false]
  · simp only [if_neg hq]

theorem Tree.size_mkdirs (tree : Tree) (p q : List Name) : (tree.mkdirs p).size q = tree.size q := by
  rw [Tree.size, Tree.mkdirs, Tree.size]
  by_cases hq : q <+: p ∧ tree q = none
  · rw [if_pos hq, hq.2]
  · rw [if_neg hq]

theorem Mounted.mkdirs_self (h : Mounted s limit root) (hfind : s.fs.find root path = some directory) :
    Tree.mkdirs (s.fs.tree root) path = s.fs.tree root := by
  refine Tree.mkdirs_of_there fun q hq => ?_
  obtain ⟨i, hi⟩ := RamFs.find_of_prefix hfind hq
  exact h.tree.tree_ne_none h.root hi

/-- What an entry whose components are still to come leaves. -/
def entryImage (image : Image) (kind : EntryKind) (data : List UInt8) (path rest : List Name)
    (outcome : Outcome) : Image :=
  match kind with
  | .directory => ⟨image.tree.mkdirs (path ++ rest), image.used⟩
  | .file =>
    ⟨Function.update (image.tree.mkdirs (path ++ rest.dropLast)) (path ++ rest)
        (if outcome = .written then some (.file data) else none),
      image.used - image.tree.size (path ++ rest) + (if outcome = .written then data.length else 0)⟩

theorem Mounted.unpackEntry {kind : EntryKind} {rest : List Name} (h : Mounted s limit root)
    (hfind : s.fs.find root path = some directory) (hdir : s.fs.isDir directory = true)
    (hrest : kind = .file → rest ≠ [])
    (hunpack : unpackEntry kind data room s directory rest = .ok (outcome, s')) :
    Mounted s' limit root ∧ (outcome = .directory ↔ kind = .directory) ∧
      imageOf s' root = entryImage (imageOf s root) kind data path rest outcome := by
  induction rest generalizing s directory path with
  | nil =>
    obtain ⟨rfl, rfl⟩ := Prod.mk.inj (Except.ok.inj hunpack)
    cases kind with
    | file => exact absurd rfl (hrest rfl)
    | directory =>
      refine ⟨h, Iff.rfl.trans ⟨fun _ => rfl, fun _ => rfl⟩, ?_⟩
      rw [entryImage, List.append_nil, imageOf, h.mkdirs_self hfind]
  | cons component rest ih =>
    unfold Initramfs.unpackEntry at hunpack
    split at hunpack
    · rename_i hlast
      obtain ⟨rfl, rfl⟩ := hlast
      obtain ⟨hmounted, houtcome, himage⟩ := h.unpackFile hfind hdir hunpack
      refine ⟨hmounted, ⟨fun heq => absurd heq houtcome, (by simp)⟩, ?_⟩
      rw [himage, entryImage, List.dropLast_singleton, List.append_nil, imageOf, h.mkdirs_self hfind]
    · rename_i hmore
      cases henter : Initramfs.enterDirectory s directory component with
      | error e =>
        rw [henter] at hunpack
        contradiction
      | ok entered =>
        obtain ⟨child, s₁⟩ := entered
        rw [henter] at hunpack
        obtain ⟨hmounted, hfind', hdir', himage⟩ := h.enterDirectory hfind hdir henter
        have htree : s₁.fs.tree root = _ := congrArg Image.tree himage
        have hused : s₁.fs.used = _ := congrArg Image.used himage
        obtain ⟨hmounted', houtcome, himage'⟩ := ih hmounted hfind' hdir'
          (fun hkind hnil => hmore ⟨hnil, hkind⟩) hunpack
        refine ⟨hmounted', houtcome, himage'.trans ?_⟩
        have hcons : ∀ r, path ++ [component] ++ r = path ++ component :: r := fun r => by simp
        have hfront : ∀ r, path ++ [component] <+: path ++ component :: r := fun r =>
          hcons r ▸ List.prefix_append _ _
        cases kind with
        | directory =>
          simp only [entryImage, imageOf, htree, hused, hcons]
          rw [Tree.mkdirs_mkdirs _ (hfront rest)]
        | file =>
          have hne : rest ≠ [] := fun hnil => hmore ⟨hnil, rfl⟩
          simp only [entryImage, imageOf, htree, hused, hcons, List.dropLast_cons_of_ne_nil hne]
          rw [Tree.mkdirs_mkdirs _ (hfront rest.dropLast), Tree.size_mkdirs]

theorem components_ne_nil (path : Text) : components path ≠ [] := by
  simp [components]

/-- One entry, from the directory to unpack below. -/
theorem Mounted.entry {entry : Entry} (h : Mounted s limit root)
    (hunpack : Initramfs.unpackEntry entry.kind entry.data room s root (components entry.path) =
      .ok (outcome, s')) :
    Mounted s' limit root ∧ (outcome = .directory ↔ entry.kind = .directory) ∧
      imageOf s' root = (imageOf s root).add entry outcome := by
  have hfind : s.fs.find root [] = some root := rfl
  obtain ⟨hmounted, houtcome, himage⟩ :=
    h.unpackEntry hfind h.root (fun _ => components_ne_nil _) hunpack
  refine ⟨hmounted, houtcome, himage.trans ?_⟩
  unfold entryImage Image.add
  cases hkind : entry.kind with
  | directory => rfl
  | file =>
    cases outcome with
    | written => rfl
    | directory => exact absurd (houtcome.mp rfl) (by simp [hkind])
    | skipped e => rfl

/-! ## All entries -/

/-- The report of a run over entries: the files that were written and their bytes, and the files that
were not. -/
structure Reports (unpacked : Unpacked) (entries : List (Entry × Outcome)) : Prop where
  files : unpacked.files = (entries.filter (·.2 = .written)).length
  bytes : unpacked.bytes = ((entries.filter (·.2 = .written)).map (·.1.data.length)).sum
  skipped : unpacked.skipped = entries.filterMap fun (entry, outcome) =>
    match outcome with
    | .skipped e => some (entry.path, e, entry.data.length)
    | _ => none

theorem Reports.add {unpacked : Unpacked} {entries : List (Entry × Outcome)}
    (h : Reports unpacked entries) (entry : Entry) (outcome : Outcome) :
    Reports (unpacked.add entry outcome) (entries ++ [(entry, outcome)]) := by
  obtain ⟨hfiles, hbytes, hskipped⟩ := h
  cases outcome <;>
    exact ⟨by simp [Unpacked.add, hfiles], by simp [Unpacked.add, hbytes],
      by simp [Unpacked.add, hskipped]⟩

/-- The loop is a fold over the entries. -/
theorem Mounted.entries {unpacked unpacked' : Unpacked} {entries : List (Entry × Bool)}
    {before : List (Entry × Outcome)} (h : Mounted s limit root) (hreports : Reports unpacked before)
    (hunpack : unpackEntries root s unpacked entries = .ok (unpacked', s')) :
    ∃ outcomes : List Outcome, outcomes.length = entries.length ∧
      (∀ p ∈ (entries.map Prod.fst).zip outcomes, p.2 = .directory ↔ p.1.kind = .directory) ∧
      imageOf s' root = ((entries.map Prod.fst).zip outcomes).foldl
        (fun image (entry, outcome) => image.add entry outcome) (imageOf s root) ∧
      Reports unpacked' (before ++ (entries.map Prod.fst).zip outcomes) := by
  induction entries generalizing s unpacked before with
  | nil =>
    obtain ⟨rfl, rfl⟩ := Prod.mk.inj (Except.ok.inj hunpack)
    exact ⟨[], rfl, (by simp), rfl, by simpa using hreports⟩
  | cons head entries ih =>
    obtain ⟨entry, room⟩ := head
    unfold unpackEntries at hunpack
    cases hentry : Initramfs.unpackEntry entry.kind entry.data room s root (components entry.path) with
    | error e =>
      rw [hentry] at hunpack
      contradiction
    | ok result =>
      obtain ⟨outcome, s₁⟩ := result
      rw [hentry] at hunpack
      obtain ⟨hmounted, houtcome, himage⟩ := h.entry hentry
      obtain ⟨outcomes, hlength, hkinds, hfold, hreports'⟩ :=
        ih hmounted (hreports.add entry outcome) hunpack
      refine ⟨outcome :: outcomes, congrArg (· + 1) hlength, ?_, ?_, ?_⟩
      · rintro p (_ | ⟨_, hp⟩)
        · exact houtcome
        · exact hkinds p hp
      · rw [hfold, himage]
        rfl
      · rw [List.append_assoc] at hreports'
        exact hreports'

/-- When `unpack` succeeds on a ramfs in any state that a run reaches, what is below the directory, and
the bytes that are accounted for, are the fold of the entries in their order, and the report says which
files were written and which were skipped. -/
theorem unpack_ok {archive : List UInt8} {rooms : ℕ → Bool} {unpacked : Unpacked}
    (h : Run.Reachable (· = Space.mount limit) Space.Step s) (hroot : s.fs.isDir root = true)
    (hunpack : unpack s root archive rooms = .ok (unpacked, s')) :
    ∃ entries, parse archive = .ok entries ∧ ∃ outcomes : List Outcome,
      outcomes.length = entries.length ∧
      (∀ p ∈ entries.zip outcomes, p.2 = .directory ↔ p.1.kind = .directory) ∧
      imageOf s' root = (entries.zip outcomes).foldl
        (fun image (entry, outcome) => image.add entry outcome) (imageOf s root) ∧
      Reports unpacked (entries.zip outcomes) := by
  obtain ⟨hinv, htree⟩ := Space.reachable_inv h
  unfold unpack at hunpack
  cases hparse : parse archive with
  | error e =>
    rw [hparse] at hunpack
    contradiction
  | ok entries =>
    rw [hparse] at hunpack
    dsimp only at hunpack
    generalize hpairs : List.map _ entries.zipIdx = pairs at hunpack
    have hfst : pairs.map Prod.fst = entries := by
      rw [← hpairs, List.map_map]
      exact List.zipIdx_map_fst 0 entries
    cases hentries : unpackEntries root s {} pairs with
    | error e =>
      rw [hentries] at hunpack
      contradiction
    | ok result =>
      rw [hentries] at hunpack
      obtain rfl := Except.ok.inj hunpack
      have hreports : Reports {} [] := ⟨rfl, rfl, rfl⟩
      obtain ⟨outcomes, hlength, hkinds, hfold, hreports'⟩ :=
        Mounted.entries ⟨hinv, htree, hroot⟩ hreports hentries
      rw [hfst] at hkinds hfold hreports'
      refine ⟨entries, rfl, outcomes, ?_, hkinds, hfold, hreports'⟩
      rw [hlength, ← hfst, List.length_map]

/-- Two files of one byte each for a file system that takes one byte. -/
def twoFiles : List Mkinitramfs.Member :=
  [⟨['a'], 0o100644, [1]⟩, ⟨['b'], 0o100644, [2]⟩]

theorem unpack_ok_twoFiles :
    ∃ s', unpack (Space.mount 1) RamFs.rootIno (archiveBytes twoFiles) (fun _ => true) =
        .ok (⟨1, 1, [(['b'], .ENOSPC, 1)]⟩, s') ∧
      ∃ entries, parse (archiveBytes twoFiles) = .ok entries ∧ ∃ outcomes : List Outcome,
        outcomes.length = entries.length ∧
        (∀ p ∈ entries.zip outcomes, p.2 = .directory ↔ p.1.kind = .directory) ∧
        imageOf s' RamFs.rootIno = (entries.zip outcomes).foldl
          (fun image (entry, outcome) => image.add entry outcome)
          (imageOf (Space.mount 1) RamFs.rootIno) ∧
        Reports ⟨1, 1, [(['b'], .ENOSPC, 1)]⟩ (entries.zip outcomes) := by
  have hsound : ∀ member ∈ twoFiles, Sound member := by
    have hclean : Mkinitramfs.Clean ['a'] ∧ Mkinitramfs.Clean ['b'] := by
      unfold Mkinitramfs.Clean
      decide
    have hfits : Fits ['a'] [1] ∧ Fits ['b'] [2] := by
      unfold Fits
      decide +kernel
    rintro member (_ | ⟨_, _ | ⟨_, hmember⟩⟩)
    · exact ⟨hclean.1, hfits.1, .inl (by decide)⟩
    · exact ⟨hclean.2, hfits.2, .inl (by decide)⟩
    · contradiction
  have hwrite : Mkinitramfs.write twoFiles = some (archiveBytes twoFiles) :=
    write_eq_some.mpr ⟨fun member hmember => (hsound member hmember).fits, by decide, rfl⟩
  have hparse : parse (archiveBytes twoFiles) = .ok [⟨['a'], .file, [1]⟩, ⟨['b'], .file, [2]⟩] := by
    rw [parse_write hsound hwrite, if_neg (by decide)]
    rfl
  have hunpack : ∃ s', unpack (Space.mount 1) RamFs.rootIno (archiveBytes twoFiles) (fun _ => true) =
      .ok (⟨1, 1, [(['b'], .ENOSPC, 1)]⟩, s') := by
    rw [unpack, hparse]
    exact ⟨_, rfl⟩
  obtain ⟨s', hunpack⟩ := hunpack
  exact ⟨s', hunpack, unpack_ok (.start rfl) rfl hunpack⟩

end SaeOS.Initramfs
