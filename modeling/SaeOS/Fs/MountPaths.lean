import SaeOS.Fs.CallEdits
import SaeOS.Fs.PathResolution

/-!
# Mounts and their paths

A mount is a path and a root (`Vfs::mount`), and a walk that comes to the path goes on from the root. The
calls refuse to remove or to move what stands at the path of a mount, but `rename` moves the directories
above it. Every mount stays where it is in every run without such a rename (`run_mountsReached_iff`).
-/

namespace SaeOS.Fs.Vfs

open SaeOS.Fs.Path

/-! ## Mounting -/

/-- Where `mount` puts a file system: `/` for the first one, an existing directory for the others. -/
def mountPlace (vfs : Vfs) (path : Path) : Except Errno Path :=
  if vfs.mounts = [] then if path ≠ [slash] then .error .ENOENT else .ok [slash]
  else do
    let (inode, normalized) ← vfs.walk path
    if vfs.kind inode ≠ .directory then throw .ENOTDIR
    return normalized

/-- `mount`; the root of every file system has the same number. -/
def mount (vfs : Vfs) (path : Path) (id : ℕ) : Outcome Unit :=
  match vfs.mountPlace path with
  | .error e => (.error e, vfs)
  | .ok normalized =>
    if vfs.isMountPoint normalized then (.error .EBUSY, vfs)
    else (.ok (), { vfs with mounts := vfs.mounts ++ [⟨normalized, ⟨id, RamFs.rootIno⟩⟩] })

/-! ## Paths of a walk -/

variable {vfs vfs' : Vfs} {root : InodeRef} {names : List Name} {stack : Stack}

theorem intercalate_append {front rest : List Name} (hfront : front ≠ []) (hrest : rest ≠ []) :
    [slash].intercalate (front ++ rest) = [slash].intercalate front ++ slash :: [slash].intercalate rest := by
  induction front with
  | nil => exact absurd rfl hfront
  | cons first front ih =>
    by_cases hlast : front = []
    · subst hlast
      rw [List.singleton_append, List.intercalate_cons_of_ne_nil hrest, List.intercalate_singleton,
        List.append_assoc, List.singleton_append]
    · rw [List.cons_append, List.intercalate_cons_of_ne_nil (by simp [hlast]),
        List.intercalate_cons_of_ne_nil hlast, ih hlast]
      simp only [List.append_assoc]

theorem absolute_append {front rest : List Name} (hfront : front ≠ []) (hrest : rest ≠ []) :
    absolute (front ++ rest) = absolute front ++ slash :: [slash].intercalate rest := by
  rw [absolute, absolute, intercalate_append hfront hrest, List.cons_append]

theorem absolute_concat (front : List Name) (name : Name) (hplain : Plain front) :
    absolute (front ++ [name]) = join (absolute front) name := by
  by_cases hnil : front = []
  · subst hnil
    simp [absolute, join]
  · have hroot : absolute front ≠ [slash] := by
      intro heq
      refine getLast?_absolute hplain hnil ?_
      rw [heq]
      rfl
    rw [join, if_neg hroot, absolute_append hnil (by simp), List.intercalate_singleton]

theorem absolute_injective {front front' : List Name} (h : Plain front) (h' : Plain front')
    (heq : absolute front = absolute front') : front = front' := by
  have hsplit := congrArg (List.splitOn slash) heq
  rw [splitOn_absolute h, splitOn_absolute h'] at hsplit
  have htail := (List.cons.inj hsplit).2
  -- the empty path is split into one empty component, which is no name
  have hnil : ∀ {components : List Name}, Plain components → components ≠ [[]] := by
    rintro components hplain rfl
    exact (hplain [] (by simp)).1 (.inl rfl)
  split at htail <;> split at htail
  · rename_i hleft hright
    rw [hleft, hright]
  · exact absurd htail.symm (hnil h')
  · exact absurd htail (hnil h)
  · exact htail

theorem Leads.top_path (h : Leads vfs root names stack) : stack.top.1 = absolute names := by
  induction names using List.reverseRecOn generalizing stack with
  | nil =>
    obtain rfl := Except.ok.inj h.walk
    rfl
  | append_singleton front name ih =>
    obtain ⟨hspecial, -, below, hfront, hstep⟩ := leads_concat.mp h
    rw [absolute_concat front name hfront.plain, ← ih hfront]
    rw [walkComponent_of_plain hspecial] at hstep
    split at hstep
    · contradiction
    split at hstep
    · contradiction
    cases hlookup : vfs.lookup below.top.2 name with
    | error e => rw [hlookup] at hstep; contradiction
    | ok child =>
      rw [hlookup] at hstep
      obtain rfl := Except.ok.inj hstep
      rfl

/-- One name further: an entry, and the root of the mount that is there. -/
theorem leads_child {name : Name} : Leads vfs root (names ++ [name]) stack ↔
    ¬ IsSpecial name ∧ slash ∉ name ∧ name.length ≤ nameMax ∧ ∃ below child,
      Leads vfs root names below ∧ vfs.kind below.top.2 = .directory ∧
      vfs.entry below.top.2 name = some child ∧
      stack = ⟨(absolute (names ++ [name]), (vfs.mountedRoot (absolute (names ++ [name]))).getD child),
        below.top :: below.below⟩ := by
  rw [leads_concat]
  constructor
  · rintro ⟨hspecial, hslash, below, hfront, hstep⟩
    rw [walkComponent_of_plain hspecial] at hstep
    split at hstep
    · contradiction
    rename_i hlength
    split at hstep
    · contradiction
    rename_i hkind
    have hkind := not_not.mp hkind
    rw [lookup_eq hkind] at hstep
    cases hentry : vfs.entry below.top.2 name with
    | none => rw [hentry] at hstep; contradiction
    | some child =>
      rw [hentry] at hstep
      obtain rfl := Except.ok.inj hstep
      refine ⟨hspecial, hslash, Nat.le_of_not_gt hlength, below, child, hfront, hkind, hentry, ?_⟩
      rw [absolute_concat names name hfront.plain, ← hfront.top_path]
  · rintro ⟨hspecial, hslash, hlength, below, child, hfront, hkind, hentry, rfl⟩
    refine ⟨hspecial, hslash, below, hfront, ?_⟩
    rw [walkComponent_of_plain hspecial, if_neg (Nat.not_lt.mpr hlength), if_neg (by simp [hkind]),
      lookup_eq hkind, hentry, absolute_concat names name hfront.plain, ← hfront.top_path]
    rfl

/-- What a walk finds is found by names. -/
theorem leads_of_walk {path normalized : Path} {inode : InodeRef}
    (h : vfs.walkFromRoot path = .ok (inode, normalized)) :
    ∃ root names stack, vfs.mountedRoot [slash] = some root ∧ Leads vfs root names stack ∧
      stack.top = (normalized, inode) := by
  unfold walkFromRoot at h
  split at h
  · contradiction
  · rename_i root hroot
    cases hstack : (path.splitOn slash).foldlM vfs.walkComponent ⟨([slash], root), []⟩ with
    | error e => rw [hstack] at h; contradiction
    | ok stack =>
      rw [hstack] at h
      simp only [bind, Except.bind, pure, Except.pure] at h
      split at h
      · contradiction
      · obtain ⟨rfl, rfl⟩ := Prod.mk.inj (Except.ok.inj h)
        exact ⟨root, _, stack, hroot,
          leads_nil.components (fun component => Text.notMem_of_mem_splitOn) hstack, rfl⟩

theorem walkFromRoot_of_walk {path normalized : Path} {inode : InodeRef}
    (h : vfs.walk path = .ok (inode, normalized)) :
    vfs.walkFromRoot path = .ok (inode, normalized) := by
  unfold walk at h
  split at h
  · contradiction
  · exact h

theorem walk_of_leads (h : Leads vfs root names stack) (hroot : vfs.mountedRoot [slash] = some root)
    (hkind : vfs.kind root = .directory) :
    vfs.walk (absolute names) = .ok (stack.top.2, absolute names) := by
  rw [walk_absolute h.plain hroot hkind, h.walk, ← h.top_path]
  rfl

theorem mem_of_mountedRoot {path : Path} (h : vfs.mountedRoot path = some root) :
    ∃ mount ∈ vfs.mounts, mount.path = path ∧ mount.root = root := by
  obtain ⟨mount, hfind, rfl⟩ := Option.map_eq_some_iff.mp h
  exact ⟨mount, List.mem_of_find?_eq_some hfind, by simpa using List.find?_some hfind, rfl⟩

theorem mountedRoot_eq_none {path : Path} (h : vfs.isMountPoint path = false) :
    vfs.mountedRoot path = none := by
  rw [mountedRoot, Option.map_eq_none_iff, List.find?_eq_none]
  intro mount hmount heq
  have hany : vfs.isMountPoint path = true := List.any_eq_true.mpr ⟨mount, hmount, heq⟩
  exact Bool.false_ne_true (h.symm.trans hany)

/-! ## Mounts that are reached -/

/-- What mounting provides: file systems that are trees, and roots that are directories. -/
structure Sound (vfs : Vfs) : Prop where
  tree : ∀ id, Tree (vfs.fileSystem id)
  rootIno : ∀ mount ∈ vfs.mounts, mount.root.ino = RamFs.rootIno
  rootKind : ∀ mount ∈ vfs.mounts, vfs.kind mount.root = .directory

/-- The root of every mount is found by walking its path, and by no other normalized path. -/
def MountsReached (vfs : Vfs) : Prop :=
  ∀ mount ∈ vfs.mounts, vfs.walk mount.path = .ok (mount.root, mount.path) ∧
    ∀ path normalized, vfs.walk path = .ok (mount.root, normalized) → normalized = mount.path

theorem MountsReached.path_eq (h : MountsReached vfs) {mount mount' : Mount}
    (hmount : mount ∈ vfs.mounts) (hmount' : mount' ∈ vfs.mounts) (hroot : mount'.root = mount.root) :
    mount'.path = mount.path := by
  refine (h mount hmount).2 mount'.path mount'.path ?_
  rw [← hroot]
  exact (h mount' hmount').1

/-- The top of a walk is the root of the mount there, or an entry of the directory below. -/
theorem Leads.top_cases (h : Leads vfs root names stack) (hroot : vfs.mountedRoot [slash] = some root) :
    (∃ mount ∈ vfs.mounts, mount.path = absolute names ∧ mount.root = stack.top.2) ∨
      ∃ front name below, names = front ++ [name] ∧ Leads vfs root front below ∧
        vfs.entry below.top.2 name = some stack.top.2 := by
  rcases List.eq_nil_or_concat names with rfl | ⟨front, name, rfl⟩
  · obtain rfl := Except.ok.inj h.walk
    obtain ⟨mount, hmount, hpath, hmounted⟩ := mem_of_mountedRoot hroot
    exact .inl ⟨mount, hmount, hpath, hmounted⟩
  · rw [List.concat_eq_append] at h ⊢
    obtain ⟨-, -, -, below, child, hfront, -, hentry, rfl⟩ := leads_child.mp h
    cases hmounted : vfs.mountedRoot (absolute (front ++ [name])) with
    | some mounted =>
      obtain ⟨mount, hmount, hpath, rfl⟩ := mem_of_mountedRoot hmounted
      exact .inl ⟨mount, hmount, hpath, rfl⟩
    | none => exact .inr ⟨front, name, below, rfl, hfront, hentry⟩

/-- An entry of a ramfs stands in one place. -/
theorem entry_unique (htree : ∀ id, Tree (vfs.fileSystem id)) {d d' child : InodeRef} {n n' : Name}
    {fs : RamFs} (hfs : vfs.fileSystem child.fs = .ram fs) (h : vfs.entry d n = some child)
    (h' : vfs.entry d' n' = some child) : d = d' ∧ n = n' := by
  have hd := fs_of_entry h
  have hd' := fs_of_entry h'
  have hok := treeOk_of_ram htree hfs
  rw [entry, ← hd, hfs] at h
  rw [entry, ← hd', hfs] at h'
  obtain ⟨ino, hino, heq⟩ := Option.map_eq_some_iff.mp h
  obtain ⟨ino', hino', heq'⟩ := Option.map_eq_some_iff.mp h'
  have hsame : ino' = ino := (InodeRef.mk.inj (heq'.trans heq.symm)).2
  rw [hsame] at hino'
  obtain ⟨hdino, hname⟩ := hok.unique _ _ _ _ _ hino hino'
  refine ⟨?_, hname⟩
  cases d
  cases d'
  exact congrArg₂ InodeRef.mk (hd.symm.trans hd') hdino

/-- Two walks to one inode of a ramfs are the same, or both end with one entry of one directory. -/
theorem leads_step_back (hsound : Sound vfs) (hreached : MountsReached vfs)
    (hroot : vfs.mountedRoot [slash] = some root) {names' : List Name} {stack' : Stack}
    (h : Leads vfs root names stack) (h' : Leads vfs root names' stack')
    (htop : stack.top.2 = stack'.top.2) (hram : ∃ fs, vfs.fileSystem stack.top.2.fs = .ram fs) :
    names = names' ∨ ∃ front front' name below below', names = front ++ [name] ∧
      names' = front' ++ [name] ∧ Leads vfs root front below ∧ Leads vfs root front' below' ∧
      below.top.2 = below'.top.2 ∧ stack.top.2.fs = below.top.2.fs := by
  -- no entry leads to the root of a mount
  have hentryIno : ∀ {d : InodeRef} {n : Name} {mount : Mount}, mount ∈ vfs.mounts →
      vfs.entry d n ≠ some mount.root :=
    fun hmount hentry => ino_of_entry hsound.tree hentry (hsound.rootIno _ hmount)
  rcases h.top_cases hroot with ⟨mount, hmount, hpath, hmounted⟩ | ⟨front, name, below, rfl, hfront, hentry⟩
  · rcases h'.top_cases hroot with ⟨mount', hmount', hpath', hmounted'⟩ | ⟨_, _, _, -, -, hentry'⟩
    · left
      have heq := hreached.path_eq hmount hmount' (by rw [hmounted', hmounted, htop])
      rw [hpath, hpath'] at heq
      exact absolute_injective h.plain h'.plain heq.symm
    · rw [← htop, ← hmounted] at hentry'
      exact absurd hentry' (hentryIno hmount)
  · rcases h'.top_cases hroot with ⟨mount', hmount', -, hmounted'⟩ |
      ⟨front', name', below', rfl, hfront', hentry'⟩
    · rw [htop, ← hmounted'] at hentry
      exact absurd hentry (hentryIno hmount')
    · obtain ⟨fs, hfs⟩ := hram
      rw [← htop] at hentry'
      obtain ⟨hdirectory, rfl⟩ := entry_unique hsound.tree hfs hentry hentry'
      exact .inr ⟨front, front', name, below, below', rfl, rfl, hfront, hfront', hdirectory,
        fs_of_entry hentry⟩

/-- A directory of a ramfs is found by one sequence of names. -/
theorem leads_unique (hsound : Sound vfs) (hreached : MountsReached vfs)
    (hroot : vfs.mountedRoot [slash] = some root) {names' : List Name} {stack' : Stack}
    (h : Leads vfs root names stack) (h' : Leads vfs root names' stack')
    (htop : stack.top.2 = stack'.top.2) (hram : ∃ fs, vfs.fileSystem stack.top.2.fs = .ram fs) :
    names = names' := by
  induction names using List.reverseRecOn generalizing stack names' stack' with
  | nil =>
    rcases leads_step_back hsound hreached hroot h h' htop hram with heq | ⟨_, _, _, _, _, hnil, -⟩
    · exact heq
    · simp at hnil
  | append_singleton front name ih =>
    rcases leads_step_back hsound hreached hroot h h' htop hram with
      heq | ⟨front₁, front', name₁, below, below', heq, rfl, hfront, hfront', hbelow, hfs⟩
    · exact heq
    · obtain ⟨rfl, hlast⟩ := List.append_inj' heq rfl
      obtain rfl := List.cons.inj hlast |>.1
      rw [ih hfront hfront' hbelow (hfs ▸ hram)]

/-! ## One call -/

/-- A `rename` that goes through and moves a directory above a mount to another place. -/
def Strands (vfs : Vfs) (call : Call) : Prop :=
  ∃ old new source target vfs', call = .rename old new ∧ vfs.parent old = .ok source ∧
    vfs.parent new = .ok target ∧ vfs.rename old new = some (.ok (), vfs') ∧
    ¬ At source.directory source.name target.directory target.name ∧
    ∃ mount ∈ vfs.mounts, source.path ++ [slash] <+: mount.path

/-- A walk that meets no changed entry and no other mount is as before. -/
theorem Leads.kept (hkind : ∀ d, vfs.kind d = .directory → vfs'.kind d = .directory)
    (h : Leads vfs root names stack)
    (hmounted : ∀ front name, front ++ [name] <+: names →
      vfs'.mountedRoot (absolute (front ++ [name])) = vfs.mountedRoot (absolute (front ++ [name])))
    (hentry : ∀ front name below, front ++ [name] <+: names → Leads vfs root front below →
      vfs'.entry below.top.2 name = vfs.entry below.top.2 name) :
    Leads vfs' root names stack := by
  induction names using List.reverseRecOn generalizing stack with
  | nil =>
    obtain rfl := Except.ok.inj h.walk
    exact leads_nil
  | append_singleton front name ih =>
    obtain ⟨hspecial, hslash, hlength, below, child, hfront, hdirectory, hchild, rfl⟩ :=
      leads_child.mp h
    have hbefore := ih hfront
      (fun front' name' hstarts => hmounted front' name' (hstarts.trans (List.prefix_append front [name])))
      fun front' name' below' hstarts =>
        hentry front' name' below' (hstarts.trans (List.prefix_append front [name]))
    refine leads_child.mpr ⟨hspecial, hslash, hlength, below, child, hbefore, hkind _ hdirectory, ?_, ?_⟩
    · rw [hentry front name below (List.prefix_refl _) hfront, hchild]
    · rw [hmounted front name (List.prefix_refl _)]

theorem mountedRoot_congr (h : vfs'.mounts = vfs.mounts) (path : Path) :
    vfs'.mountedRoot path = vfs.mountedRoot path := by
  rw [mountedRoot, mountedRoot, h]

theorem Leads.of_prefix (h : Leads vfs root names stack) {front : List Name} (hstarts : front <+: names) :
    ∃ below, Leads vfs root front below := by
  obtain ⟨rest, rfl⟩ := hstarts
  have hwalk := h.walk
  rw [List.foldlM_append] at hwalk
  cases hfront : front.foldlM vfs.walkComponent ⟨([slash], root), []⟩ with
  | error e => rw [hfront] at hwalk; contradiction
  | ok below => exact ⟨below, fun n hn => h.plain n (List.mem_append_left rest hn), hfront⟩

/-- The names that lead to an entry. -/
theorem leads_of_parent {path : Path} {parent : Parent} (h : vfs.parent path = .ok parent) :
    ∃ root names stack, vfs.mountedRoot [slash] = some root ∧ Leads vfs root names stack ∧
      stack.top.2 = parent.directory ∧ Plain (names ++ [parent.name]) ∧
      parent.path = absolute (names ++ [parent.name]) := by
  obtain ⟨directory, -, hsplit, hname, hdot, hdots, -, ⟨normalized, hwalk, hjoin⟩, -⟩ := parent_eq_ok h
  obtain ⟨root, names, stack, hroot, hleads, htop⟩ := leads_of_walk hwalk
  refine ⟨root, names, stack, hroot, hleads, by rw [htop], fun n hn => ?_, ?_⟩
  · rcases List.mem_append.mp hn with hn | hn
    · exact hleads.plain n hn
    · rw [List.mem_singleton.mp hn]
      exact ⟨by simp [IsSpecial, hname, hdot, hdots], (splitLast_eq hsplit).1⟩
  · rw [hjoin, absolute_concat names _ hleads.plain, ← hleads.top_path, htop]

/-- The path of an entry in a directory that has been walked to. -/
theorem parent_path (hsound : Sound vfs) (hreached : MountsReached vfs)
    (hroot : vfs.mountedRoot [slash] = some root) {path : Path} {parent : Parent}
    (hparent : vfs.parent path = .ok parent) (h : Leads vfs root names stack)
    (htop : stack.top.2 = parent.directory)
    (hram : ∃ fs, vfs.fileSystem stack.top.2.fs = .ram fs) :
    parent.path = absolute (names ++ [parent.name]) := by
  obtain ⟨root', names', stack', hroot', h', htop', -, hpath⟩ := leads_of_parent hparent
  obtain rfl := Option.some.inj (hroot.symm.trans hroot')
  rw [hpath, leads_unique hsound hreached hroot h h' (by rw [htop, htop']) hram]

/-- A directory on the way to a mount, or to a directory with an entry, keeps the entry that the way
takes, unless a `rename` moves it. -/
theorem entry_kept {call : Call} (hsound : Sound vfs) (hreached : MountsReached vfs)
    (hroot : vfs.mountedRoot [slash] = some root) (hcall : CallEdit vfs vfs' call)
    (h : Leads vfs root names stack)
    (hlast : vfs.isMountPoint (absolute names) = true ∨ ∃ m child, vfs.entry stack.top.2 m = some child)
    (hmoves : ∀ front name below, front ++ [name] <+: names → Leads vfs root front below →
      (∃ fs, vfs.fileSystem below.top.2.fs = .ram fs) → ¬ Moves vfs call below.top.2 name)
    {front : List Name} {name : Name} {below : Stack} (hstarts : front ++ [name] <+: names)
    (hfront : Leads vfs root front below) :
    vfs'.entry below.top.2 name = vfs.entry below.top.2 name := by
  obtain ⟨put, cut, whole, hedit, hput, hcut, hwhole⟩ := hcall
  cases hfs : vfs.fileSystem below.top.2.fs with
  | fixed node => rw [entry, entry, hedit.fixed _ node hfs, hfs]
  | ram fs =>
    obtain ⟨stack₁, hnext⟩ := h.of_prefix hstarts
    obtain ⟨-, -, -, below', child, hfront', -, hchild, htop⟩ := leads_child.mp hnext
    obtain rfl : below = below' := Except.ok.inj (hfront.walk.symm.trans hfront'.walk)
    by_contra hchanged
    -- a place that the call may name is no mount, so the way goes on from the entry
    have hgone : Unprotected vfs below.top.2 name → ¬ vfs.Leaf below.top.2 name := by
      rintro ⟨path, parent, hparent, hmount, hdirectory, rfl⟩ hleaf
      rw [parent_path hsound hreached hroot hparent hfront hdirectory ⟨fs, hfs⟩] at hmount
      have htop₁ : stack₁.top.2 = child := by
        rw [htop, mountedRoot_eq_none hmount]
        rfl
      obtain ⟨rest, rfl⟩ := hstarts
      cases rest with
      | nil =>
        rw [List.append_nil] at h hlast
        obtain rfl : stack = stack₁ := Except.ok.inj (h.walk.symm.trans hnext.walk)
        rcases hlast with hpoint | ⟨m, inner, hinner⟩
        · exact Bool.false_ne_true (hmount.symm.trans hpoint)
        · rw [htop₁, hleaf child hchild m] at hinner
          contradiction
      | cons second rest =>
        have hsecond : front ++ [parent.name] ++ [second] <+: front ++ [parent.name] ++ second :: rest :=
          ⟨rest, by simp⟩
        obtain ⟨stack₂, hon⟩ := h.of_prefix hsecond
        obtain ⟨-, -, -, below₁, inner, hnext', -, hinner, -⟩ := leads_child.mp hon
        obtain rfl : stack₁ = below₁ := Except.ok.inj (hnext.walk.symm.trans hnext'.walk)
        rw [htop₁, hleaf child hchild second] at hinner
        contradiction
    rcases hedit.kept below.top.2 name with heq | ⟨hat, hleaf⟩ | ⟨hat, -, hleaf | hw⟩
    · exact hchanged heq
    · rcases hput _ _ hat with hnone | hplace
      · exact absurd (hchild.symm.trans hnone) (by simp)
      · exact hgone hplace hleaf
    · exact hgone (hcut _ _ hat) hleaf
    · exact hmoves front name below hstarts hfront ⟨fs, hfs⟩ (hwhole hw _ _ hat)

/-- A place on the way to a mount that a `rename` moves belongs to a directory above the mount. -/
theorem strands_of_moves {call : Call} (hsound : Sound vfs) (hreached : MountsReached vfs)
    (hroot : vfs.mountedRoot [slash] = some root) {mount : Mount} (hmount : mount ∈ vfs.mounts)
    (hpath : mount.path = absolute names) {front : List Name} {name : Name} {below : Stack}
    (hstarts : front ++ [name] <+: names) (hfront : Leads vfs root front below)
    (hram : ∃ fs, vfs.fileSystem below.top.2.fs = .ram fs) (hmoves : Moves vfs call below.top.2 name) :
    Strands vfs call := by
  obtain ⟨old, new, source, target, vfs', rfl, hsource, htarget, hrename, hfree, hnot, hdirectory, rfl⟩ :=
    hmoves
  have hat := parent_path hsound hreached hroot hsource hfront hdirectory hram
  refine ⟨old, new, source, target, vfs', rfl, hsource, htarget, hrename, hnot, mount, hmount, ?_⟩
  obtain ⟨rest, rfl⟩ := hstarts
  have hrest : rest ≠ [] := by
    -- the path of the mount itself is refused
    rintro rfl
    rw [List.append_nil] at hpath
    have hpoint : vfs.isMountPoint source.path = true :=
      List.any_eq_true.mpr ⟨mount, hmount, by simp [hpath, hat]⟩
    exact Bool.false_ne_true (hfree.symm.trans hpoint)
  rw [hpath, hat, absolute_append (by simp) hrest]
  exact ⟨[slash].intercalate rest, by simp⟩

theorem Sound.step {call : Call} (hsound : Sound vfs) (hcall : CallEdit vfs vfs' call) : Sound vfs' := by
  obtain ⟨put, cut, whole, hedit, -⟩ := hcall
  refine ⟨hedit.tree, fun mount hmount => ?_, fun mount hmount => ?_⟩
  · rw [hedit.mounts] at hmount
    exact hsound.rootIno mount hmount
  · rw [hedit.mounts] at hmount
    exact hedit.kind mount.root (hsound.rootKind mount hmount)

/-- No path but that of a mount leads to its root: an entry never does, and two mounts with one root have
one path. -/
theorem path_of_root (hsound : Sound vfs) {mount : Mount} (hmount : mount ∈ vfs.mounts)
    (hsame : ∀ mount' ∈ vfs.mounts, mount'.root = mount.root → mount'.path = mount.path)
    {path normalized : Path} (hwalk : vfs.walk path = .ok (mount.root, normalized)) :
    normalized = mount.path := by
  obtain ⟨root, names, stack, hroot, hleads, htop⟩ := leads_of_walk (walkFromRoot_of_walk hwalk)
  rcases hleads.top_cases hroot with ⟨mount', hmount', hpath, hmounted⟩ | ⟨_, _, _, -, -, hentry⟩
  · rw [← hsame mount' hmount' (by rw [hmounted, htop]), hpath, ← hleads.top_path, htop]
  · rw [htop] at hentry
    exact absurd (hsound.rootIno mount hmount) (ino_of_entry hsound.tree hentry)

theorem MountsReached.step {call : Call} {answer : Except Errno Unit} (hsound : Sound vfs)
    (hreached : MountsReached vfs) (hcall : vfs.perform call = some (answer, vfs'))
    (hsafe : ¬ Strands vfs call) : MountsReached vfs' := by
  have hedit := perform_edit hsound.tree hcall
  have hsound' := hsound.step hedit
  obtain ⟨put, cut, whole, hsame, -⟩ := id hedit
  intro mount hmount
  rw [hsame.mounts] at hmount
  refine ⟨?_, fun path normalized => path_of_root hsound' (hsame.mounts ▸ hmount) fun mount' hmount' =>
    hreached.path_eq hmount (hsame.mounts ▸ hmount')⟩
  obtain ⟨root, names, stack, hroot, hleads, htop⟩ :=
    leads_of_walk (walkFromRoot_of_walk (hreached mount hmount).1)
  have hpath : mount.path = absolute names := by rw [← hleads.top_path, htop]
  have hpoint : vfs.isMountPoint (absolute names) = true :=
    List.any_eq_true.mpr ⟨mount, hmount, by simp [hpath]⟩
  have hleads' : Leads vfs' root names stack := by
    refine hleads.kept hsame.kind (fun _ _ _ => mountedRoot_congr hsame.mounts _)
      fun front name below hstarts hfront => ?_
    refine entry_kept hsound hreached hroot hedit hleads (.inl hpoint) ?_ hstarts hfront
    intro front name below hstarts hfront hram hmoves
    exact hsafe (strands_of_moves hsound hreached hroot hmount hpath hstarts hfront hram hmoves)
  obtain ⟨rootMount, hrootMount, -, rfl⟩ := mem_of_mountedRoot hroot
  have hroot' : vfs'.mountedRoot [slash] = some rootMount.root := by
    rw [mountedRoot, hsame.mounts]
    exact hroot
  have hwalk := walk_of_leads hleads' hroot' (hsame.kind _ (hsound.rootKind rootMount hrootMount))
  rw [htop, ← hpath] at hwalk
  exact hwalk

/-- A path above another one has its first names. -/
theorem prefix_of_absolute {front names : List Name} (hfront : Plain front) (hne : front ≠ [])
    (hnames : Plain names) (h : absolute front ++ [slash] <+: absolute names) : front <+: names := by
  obtain ⟨rest, hrest⟩ := h
  have hsplit := congrArg (List.splitOn slash) hrest.symm
  rw [List.append_assoc, List.singleton_append, List.splitOn_append_cons_self, splitOn_absolute hfront,
    splitOn_absolute hnames, if_neg hne, List.cons_append] at hsplit
  have htail := (List.cons.inj hsplit).2
  split at htail
  · -- nothing is below the root's own path
    obtain ⟨first, front, rfl⟩ := List.exists_cons_of_ne_nil hne
    have hfirst : [] = first := (List.cons.inj htail).1
    exact absurd (.inl hfirst.symm) (hfront first List.mem_cons_self).1
  · exact ⟨_, htail.symm⟩

/-- The directory that holds the moved entry is still reached, and the entry is gone. -/
theorem not_mountsReached {call : Call} {answer : Except Errno Unit} (hsound : Sound vfs)
    (hreached : MountsReached vfs) (hcall : vfs.perform call = some (answer, vfs'))
    (h : Strands vfs call) : ¬ MountsReached vfs' := by
  have hedit := perform_edit hsound.tree hcall
  obtain ⟨put, cut, whole, hsame, -⟩ := id hedit
  obtain ⟨old, new, source, target, vfs₁, rfl, hsource, htarget, hrename, hplace, mount, hmount, habove⟩ :=
    h
  obtain rfl : vfs' = vfs₁ := (Prod.mk.inj (Option.some.inj (hcall.symm.trans hrename))).2
  obtain ⟨source', target', hsource', htarget', -, -, hfs, hkind, hcall'⟩ := rename_ok hrename
  obtain rfl := Except.ok.inj (hsource.symm.trans hsource')
  obtain rfl := Except.ok.inj (htarget.symm.trans htarget')
  obtain ⟨⟨child, hchild⟩, hgone⟩ := renameIn_moved hfs hplace hkind hcall'
  obtain ⟨root, front, below, hroot, hfront, hdirectory, hplain, hpath⟩ := leads_of_parent hsource
  have hfront' : Leads vfs' root front below := by
    refine hfront.kept hsame.kind (fun _ _ _ => mountedRoot_congr hsame.mounts _)
      fun above name stack hstarts habove => ?_
    refine entry_kept hsound hreached hroot hedit hfront
      (.inr ⟨source.name, child, by rw [hdirectory, hchild]⟩) ?_ hstarts habove
    rintro above name stack hstarts hstack hram ⟨_, _, moved, _, _, hsame, hmoved, -, -, -, -, hat, -⟩
    -- the moved entry is in the directory itself, not further up
    obtain ⟨rfl, rfl⟩ := Call.rename.inj hsame
    obtain rfl := Except.ok.inj (hsource.symm.trans hmoved)
    obtain rfl := leads_unique hsound hreached hroot hstack hfront (hat.trans hdirectory.symm) hram
    have hlength := hstarts.length_le
    rw [List.length_append, List.length_singleton] at hlength
    omega
  intro hreached'
  obtain ⟨root', names, stack, hroot', hleads, htop⟩ :=
    leads_of_walk (walkFromRoot_of_walk (hreached' mount (hsame.mounts ▸ hmount)).1)
  have hroots : root = root' := by
    rw [mountedRoot, hsame.mounts] at hroot'
    exact Option.some.inj (hroot.symm.trans hroot')
  have hnames : mount.path = absolute names := by rw [← hleads.top_path, htop]
  rw [hnames, hpath] at habove
  obtain ⟨stack₁, hon⟩ := hleads.of_prefix (prefix_of_absolute hplain (by simp) hleads.plain habove)
  obtain ⟨-, -, -, below', child', hbelow, -, hentry, -⟩ := leads_child.mp hon
  rw [← hroots] at hbelow
  obtain rfl : below = below' := Except.ok.inj (hfront'.walk.symm.trans hbelow.walk)
  rw [hdirectory, hgone] at hentry
  contradiction

theorem mountsReached_step_iff {call : Call} {answer : Except Errno Unit} (hsound : Sound vfs)
    (hreached : MountsReached vfs) (hcall : vfs.perform call = some (answer, vfs')) :
    MountsReached vfs' ↔ ¬ Strands vfs call :=
  ⟨fun hafter hstrands => not_mountsReached hsound hreached hcall hstrands hafter,
    hreached.step hsound hcall⟩

/-! ## A new mount -/

theorem isMountPoint_iff {path : Path} :
    vfs.isMountPoint path = true ↔ ∃ mount ∈ vfs.mounts, mount.path = path := by
  simp [isMountPoint]

theorem mountedRoot_append {path normalized : Path} (hfree : vfs.isMountPoint normalized = false) :
    mountedRoot { vfs with mounts := vfs.mounts ++ [⟨normalized, root⟩] } path =
      if path = normalized then some root else vfs.mountedRoot path := by
  rw [mountedRoot, List.find?_append, Option.map_or, ← mountedRoot]
  by_cases hpath : path = normalized
  · rw [if_pos hpath, hpath, mountedRoot_eq_none hfree]
    simp
  · have hother : ¬ normalized = path := fun heq => hpath heq.symm
    rw [if_neg hpath]
    simp [hother]

theorem mount_ok {path : Path} {id : ℕ} (h : vfs.mount path id = (.ok (), vfs')) :
    ∃ normalized, vfs.mountPlace path = .ok normalized ∧ vfs.isMountPoint normalized = false ∧
      vfs' = { vfs with mounts := vfs.mounts ++ [⟨normalized, ⟨id, RamFs.rootIno⟩⟩] } := by
  unfold mount at h
  split at h
  · exact absurd (Prod.mk.inj h).1 (by simp)
  · rename_i normalized hplace
    split at h
    · exact absurd (Prod.mk.inj h).1 (by simp)
    · rename_i hfree
      exact ⟨normalized, hplace, eq_false_of_ne_true hfree, (Prod.mk.inj h).2.symm⟩

/-- Where something other than the first file system is mounted is a path that is walked. -/
theorem mountPlace_ok {path normalized : Path} (h : vfs.mountPlace path = .ok normalized)
    (hmounts : vfs.mounts ≠ []) : ∃ inode, vfs.walk path = .ok (inode, normalized) := by
  rw [mountPlace, if_neg hmounts] at h
  cases hwalk : vfs.walk path with
  | error e => rw [hwalk] at h; contradiction
  | ok found =>
    rw [hwalk] at h
    simp only [bind, Except.bind, pure, Except.pure] at h
    split at h
    · contradiction
    · obtain rfl := Except.ok.inj h
      exact ⟨found.1, rfl⟩

/-- A walk that does not come to the new mount is as before. -/
theorem Leads.mounted {normalized : Path} {mounted : InodeRef} (hfree : vfs.isMountPoint normalized = false)
    (h : Leads vfs root names stack)
    (hoff : ∀ front name, front ++ [name] <+: names → absolute (front ++ [name]) ≠ normalized) :
    Leads { vfs with mounts := vfs.mounts ++ [⟨normalized, mounted⟩] } root names stack := by
  refine h.kept ?_ ?_ ?_
  · exact fun _ hkind => hkind
  · intro front name hstarts
    rw [mountedRoot_append hfree, if_neg (hoff front name hstarts)]
  · exact fun _ _ _ _ _ => rfl

/-- The walk to a new mount ends at its root. -/
theorem Leads.new_mount {normalized : Path} {mounted : InodeRef}
    (hfree : vfs.isMountPoint normalized = false) (h : Leads vfs root names stack)
    (hpath : normalized = absolute names) (hne : names ≠ []) :
    ∃ stack', Leads { vfs with mounts := vfs.mounts ++ [⟨normalized, mounted⟩] } root names stack' ∧
      stack'.top.2 = mounted := by
  rcases List.eq_nil_or_concat names with rfl | ⟨front, name, rfl⟩
  · exact absurd rfl hne
  rw [List.concat_eq_append] at h hpath ⊢
  obtain ⟨hspecial, hslash, hlength, below, child, hfront, hkind, hentry, rfl⟩ := leads_child.mp h
  refine ⟨_, leads_child.mpr ⟨hspecial, hslash, hlength, below, child, ?_, hkind, hentry, rfl⟩, ?_⟩
  · refine hfront.mounted hfree fun above name' hstarts heq => ?_
    -- a path on the way is shorter
    have hsame := absolute_injective (fun n hn => hfront.plain n (hstarts.subset hn)) h.plain
      (heq.trans hpath)
    have hshorter := hstarts.length_le
    rw [hsame, List.length_append, List.length_singleton] at hshorter
    omega
  · dsimp only
    rw [mountedRoot_append hfree, if_pos hpath.symm]
    rfl

/-- A file system that is not mounted yet, mounted where no mount is below, is reached as all others. -/
theorem mount_mountsReached {path : Path} {id : ℕ} (hsound : Sound vfs) (hreached : MountsReached vfs)
    (h : vfs.mount path id = (.ok (), vfs')) (hkind : vfs.kind ⟨id, RamFs.rootIno⟩ = .directory)
    (hnew : ∀ mount ∈ vfs.mounts, mount.root.fs ≠ id)
    (hlowest : ∀ normalized, vfs.mountPlace path = .ok normalized →
      ∀ mount ∈ vfs.mounts, ¬ normalized ++ [slash] <+: mount.path) :
    Sound vfs' ∧ MountsReached vfs' := by
  obtain ⟨normalized, hplace, hfree, rfl⟩ := mount_ok h
  have hlowest := hlowest normalized hplace
  set vfs' : Vfs := { vfs with mounts := vfs.mounts ++ [⟨normalized, ⟨id, RamFs.rootIno⟩⟩] } with hvfs'
  have hmem : ∀ mount ∈ vfs'.mounts, mount ∈ vfs.mounts ∨ mount = ⟨normalized, ⟨id, RamFs.rootIno⟩⟩ := by
    intro mount hmount
    rcases List.mem_append.mp hmount with hold | hlast
    · exact .inl hold
    · exact .inr (List.mem_singleton.mp hlast)
  have hsound' : Sound vfs' := by
    refine ⟨hsound.tree, fun mount hmount => ?_, fun mount hmount => ?_⟩
    · rcases hmem mount hmount with hold | rfl
      · exact hsound.rootIno mount hold
      · rfl
    · rcases hmem mount hmount with hold | rfl
      · exact hsound.rootKind mount hold
      · exact hkind
  refine ⟨hsound', fun mount hmount => ⟨?_, fun walked found hwalk => ?_⟩⟩
  · by_cases hfirst : vfs.mounts = []
    · -- the root itself
      rw [mountPlace, if_pos hfirst] at hplace
      split at hplace
      · contradiction
      · obtain rfl := Except.ok.inj hplace
        rcases hmem mount hmount with hold | rfl
        · rw [hfirst] at hold
          contradiction
        · have hroot : vfs'.mountedRoot [slash] = some ⟨id, RamFs.rootIno⟩ := by
            rw [mountedRoot_append hfree, if_pos rfl]
          exact walk_of_leads leads_nil hroot hkind
    · obtain ⟨inode, hwalk⟩ := mountPlace_ok hplace hfirst
      obtain ⟨root, names, stack, hroot, hleads, htop⟩ := leads_of_walk (walkFromRoot_of_walk hwalk)
      obtain ⟨rootMount, hrootMount, hrootPath, rfl⟩ := mem_of_mountedRoot hroot
      have hrootNe : normalized ≠ [slash] := by
        rintro rfl
        have hpoint := isMountPoint_iff.mpr ⟨rootMount, hrootMount, hrootPath⟩
        exact Bool.false_ne_true (hfree.symm.trans hpoint)
      have hroot' : vfs'.mountedRoot [slash] = some rootMount.root := by
        rw [mountedRoot_append hfree, if_neg hrootNe.symm, hroot]
      have hkind' := hsound.rootKind rootMount hrootMount
      rcases hmem mount hmount with hold | rfl
      · obtain ⟨root₁, names₁, stack₁, hroot₁, hleads₁, htop₁⟩ :=
          leads_of_walk (walkFromRoot_of_walk (hreached mount hold).1)
        obtain rfl := Option.some.inj (hroot.symm.trans hroot₁)
        have hpath : mount.path = absolute names₁ := by rw [← hleads₁.top_path, htop₁]
        have hleads' : Leads vfs' rootMount.root names₁ stack₁ := by
          refine hleads₁.mounted hfree fun front name hstarts heq => ?_
          obtain ⟨rest, rfl⟩ := hstarts
          by_cases hrest : rest = []
          · rw [hrest, List.append_nil, heq] at hpath
            have hpoint := isMountPoint_iff.mpr ⟨mount, hold, hpath⟩
            exact Bool.false_ne_true (hfree.symm.trans hpoint)
          · rw [absolute_append (by simp) hrest, heq] at hpath
            exact hlowest mount hold ⟨[slash].intercalate rest, by simp [hpath]⟩
        have hfound := walk_of_leads hleads' hroot' hkind'
        rw [htop₁, ← hpath] at hfound
        exact hfound
      · have hpath : normalized = absolute names := by rw [← hleads.top_path, htop]
        have hne : names ≠ [] := by
          rintro rfl
          exact hrootNe hpath
        obtain ⟨stack', hleads', htop'⟩ := hleads.new_mount hfree hpath hne
        have hfound := walk_of_leads hleads' hroot' hkind'
        rw [htop', ← hpath] at hfound
        exact hfound
  · refine path_of_root hsound' hmount (fun other hother hroot => ?_) hwalk
    rcases hmem mount hmount with hold | rfl
    · rcases hmem other hother with hold' | rfl
      · exact hreached.path_eq hold hold' hroot
      · exact absurd (congrArg InodeRef.fs hroot).symm (hnew mount hold)
    · rcases hmem other hother with hold' | rfl
      · exact absurd (congrArg InodeRef.fs hroot) (hnew other hold')
      · rfl

/-! ## Runs -/

/-- Calls one after the other, each with the states before and after it. -/
inductive CallRun (start : Vfs) : List (Vfs × Call × Vfs) → Vfs → Prop
  | nil : CallRun start [] start
  | snoc {steps vfs vfs' call answer} : CallRun start steps vfs →
      vfs.perform call = some (answer, vfs') → CallRun start (steps ++ [(vfs, call, vfs')]) vfs'

theorem CallRun.sound {start : Vfs} {steps : List (Vfs × Call × Vfs)} (hsound : Sound start)
    (h : CallRun start steps vfs) : Sound vfs := by
  induction h with
  | nil => exact hsound
  | snoc _ hcall ih => exact ih.step (perform_edit ih.tree hcall)

/-- In every state of a run every mount is where it was, if and only if no call of the run strands one. -/
theorem run_mountsReached_iff (start vfs : Vfs) (steps : List (Vfs × Call × Vfs)) (hsound : Sound start)
    (hreached : MountsReached start) (hrun : CallRun start steps vfs) :
    (∀ step ∈ steps, MountsReached step.2.2) ↔ ∀ step ∈ steps, ¬ Strands step.1 step.2.1 := by
  -- the state that a run has come to is the last of its states
  suffices hlast : ((∀ step ∈ steps, MountsReached step.2.2) ↔ ∀ step ∈ steps, ¬ Strands step.1 step.2.1) ∧
      ((∀ step ∈ steps, MountsReached step.2.2) → MountsReached vfs) from hlast.1
  induction hrun with
  | nil => exact ⟨by simp, fun _ => hreached⟩
  | @snoc steps before after call answer hrun hcall ih =>
    obtain ⟨hiff, hbefore⟩ := ih
    simp only [List.forall_mem_append, List.forall_mem_singleton]
    refine ⟨?_, fun hall => hall.2⟩
    constructor
    · rintro ⟨hall, hafter⟩
      exact ⟨hiff.mp hall, (mountsReached_step_iff (hrun.sound hsound) (hbefore hall) hcall).mp hafter⟩
    · rintro ⟨hall, hsafe⟩
      have hstates := hiff.mpr hall
      exact ⟨hstates, (mountsReached_step_iff (hrun.sound hsound) (hbefore hstates) hcall).mpr hsafe⟩

/-- The directories `/a` and `/a/b` in the root file system. -/
def twoDirectories : Vfs :=
  ((oneRamFs.mkdir [slash, 97]).2.mkdir [slash, 97, slash, 98]).2

/-- Another ramfs at `/a/b`. -/
def nested : Vfs :=
  (twoDirectories.mount [slash, 97, slash, 98] 1).2

/-- `rename("/a", "/c")`. -/
def renamed : Vfs :=
  ((nested.rename [slash, 97] [slash, 99]).getD (.ok (), nested)).2

theorem oneRamFs_reached : Sound oneRamFs ∧ MountsReached oneRamFs := by
  refine @mount_mountsReached { oneRamFs with mounts := [] } oneRamFs [slash] 0 ⟨?_, ?_, ?_⟩ ?_ rfl rfl
    ?_ ?_
  · exact fun _ => RamFs.treeOk_withLimit 4096
  all_goals simp [MountsReached]

theorem mkdir_reached {path : Path} (h : Sound vfs ∧ MountsReached vfs) :
    Sound (vfs.mkdir path).2 ∧ MountsReached (vfs.mkdir path).2 := by
  have hcall : vfs.perform (.mkdir path) = some ((vfs.mkdir path).1, (vfs.mkdir path).2) := rfl
  refine ⟨h.1.step (perform_edit h.1.tree hcall), h.2.step h.1 hcall ?_⟩
  rintro ⟨_, _, _, _, _, hrename, -⟩
  contradiction

theorem nested_reached : Sound nested ∧ MountsReached nested := by
  obtain ⟨hsound, hreached⟩ : Sound twoDirectories ∧ MountsReached twoDirectories :=
    mkdir_reached (mkdir_reached oneRamFs_reached)
  refine @mount_mountsReached twoDirectories nested [slash, 97, slash, 98] 1 hsound hreached rfl rfl
    (by decide) fun normalized hplace => ?_
  have hpath : twoDirectories.mountPlace [slash, 97, slash, 98] = .ok [slash, 97, slash, 98] := rfl
  obtain rfl := Except.ok.inj (hpath.symm.trans hplace)
  decide

theorem nested_run : CallRun nested [(nested, .rename [slash, 97] [slash, 99], renamed)] renamed := by
  have hcall : nested.perform (.rename [slash, 97] [slash, 99]) = some (.ok (), renamed) := by rfl
  exact .snoc .nil hcall

/-- After `rename("/a", "/c")` the path of the mount leads nowhere. -/
theorem run_mountsReached_fails :
    MountsReached nested ∧ CallRun nested [(nested, .rename [slash, 97] [slash, 99], renamed)] renamed ∧
      nested.mountedRoot [slash, 97, slash, 98] = some ⟨1, RamFs.rootIno⟩ ∧
      renamed.walk [slash, 97, slash, 98] = .error .ENOENT ∧ ¬ MountsReached renamed := by
  have hgone : renamed.walk [slash, 97, slash, 98] = .error .ENOENT := by rfl
  refine ⟨nested_reached.2, nested_run, by rfl, hgone, fun hreached => ?_⟩
  have hmount : ⟨[slash, 97, slash, 98], ⟨1, RamFs.rootIno⟩⟩ ∈ renamed.mounts :=
    List.mem_cons_of_mem _ List.mem_cons_self
  exact absurd (hgone.symm.trans (hreached _ hmount).1) (by simp)

theorem run_mountsReached_iff_nested :
    (∀ step ∈ [(nested, Call.rename [slash, 97] [slash, 99], renamed)], MountsReached step.2.2) ↔
      ∀ step ∈ [(nested, Call.rename [slash, 97] [slash, 99], renamed)], ¬ Strands step.1 step.2.1 :=
  run_mountsReached_iff nested renamed _ nested_reached.1 nested_reached.2 nested_run

end SaeOS.Fs.Vfs
