import SaeOS.Fs.VfsAtomic

/-!
# Paths of system calls

`fs/path.rs`: a system call resolves the path that it receives against the current directory, text
against text, and the walk of `fs/vfs.rs` then starts at the root. `walkFromCwd` is what that is meant to
find: the path as it is, component by component from the current directory, where whatever a further
component follows is a directory.
-/

namespace SaeOS.Fs

/-- A component that names no entry of its directory. -/
def IsSpecial (component : Name) : Prop :=
  component = [] ∨ component = [dot] ∨ component = [dot, dot]

instance (component : Name) : Decidable (IsSpecial component) := by
  unfold IsSpecial
  infer_instance

namespace Path

/-- What `resolve` does with one component. -/
def pushComponent (components : List Name) (component : Name) : List Name :=
  if component = [] ∨ component = [dot] then components
  else if component = [dot, dot] then components.dropLast
  else components ++ [component]

/-- The components that `resolve` keeps. -/
def resolvedComponents (cwd path : Path) : List Name :=
  let start := if path.head? = some slash then [] else cwd
  (start.splitOn slash ++ path.splitOn slash).foldl pushComponent []

/-- The absolute path with these components. -/
def absolute (components : List Name) : Path :=
  slash :: [slash].intercalate components

/-- `path`, absolute or relative to `cwd`, as a normalised absolute path. -/
def resolve (cwd path : Path) : Path :=
  absolute (resolvedComponents cwd path)

/-- The path argument of a system call. -/
def argument (cwd path : Path) : Except Errno Path :=
  if path = [] then .error .ENOENT else .ok (resolve cwd path)

/-- Components that name entries. -/
def Plain (components : List Name) : Prop :=
  ∀ component ∈ components, ¬ IsSpecial component ∧ slash ∉ component

/-- What a process has as its current directory: `/`, or what `resolve` answered for `chdir`. -/
def Clean (cwd : Path) : Prop :=
  ∃ components, cwd = absolute components ∧ Plain components

/-! ## Clean paths -/

theorem clean_root : Clean [slash] :=
  ⟨[], rfl, by simp [Plain]⟩

theorem plain_pushComponent {components : List Name} {component : Name} (h : Plain components)
    (hslash : slash ∉ component) : Plain (pushComponent components component) := by
  unfold pushComponent
  split
  · exact h
  rename_i hdot
  split
  · exact fun name hname => h name (List.dropLast_subset _ hname)
  · rename_i hdots
    intro name hname
    rcases List.mem_append.mp hname with hname | hname
    · exact h name hname
    · rw [List.mem_singleton.mp hname]
      rw [not_or] at hdot
      exact ⟨by simp [IsSpecial, hdot, hdots], hslash⟩

theorem plain_foldl {components parts : List Name} (h : Plain components)
    (hslash : ∀ part ∈ parts, slash ∉ part) : Plain (parts.foldl pushComponent components) := by
  induction parts generalizing components with
  | nil => exact h
  | cons part parts ih =>
    rw [List.forall_mem_cons] at hslash
    exact ih (plain_pushComponent h hslash.1) hslash.2

theorem plain_resolvedComponents (cwd path : Path) : Plain (resolvedComponents cwd path) := by
  refine plain_foldl (by simp [Plain]) fun part hpart => ?_
  rcases List.mem_append.mp hpart with hpart | hpart <;> exact Text.notMem_of_mem_splitOn hpart

theorem splitOn_absolute {components : List Name} (h : Plain components) :
    (absolute components).splitOn slash = [] :: if components = [] then [[]] else components := by
  rw [absolute, ← List.nil_append (slash :: _), List.splitOn_append_cons_self, List.splitOn_nil,
    List.singleton_append]
  congr 1
  split
  · rename_i hnil
    rw [hnil]
    rfl
  · rename_i hne
    exact List.splitOn_intercalate slash (fun name hname => (h name hname).2) hne

/-- A clean path other than the root does not end in a slash. -/
theorem getLast?_absolute {components : List Name} (h : Plain components) (hne : components ≠ []) :
    (absolute components).getLast? ≠ some slash := by
  intro hlast
  obtain ⟨front, hfront⟩ := List.getLast?_eq_some_iff.mp hlast
  -- behind a slash at the end stands an empty component
  have hsplit := splitOn_absolute h
  rw [hfront, List.splitOn_append_cons_self, List.splitOn_nil, if_neg hne] at hsplit
  have hmem : [] ∈ components := by
    have hend := congrArg List.getLast? hsplit
    rw [List.getLast?_concat, List.getLast?_cons_of_ne_nil hne] at hend
    exact List.mem_of_getLast? hend.symm
  exact (h [] hmem).1 (.inl rfl)

end Path

namespace Vfs

open SaeOS.Fs.Path

variable (vfs : Vfs)

/-! ## The two ways -/

/-- What a system call finds under a path that it receives. -/
def walkResolved (cwd path : Path) : Except Errno InodeRef := do
  let resolved ← argument cwd path
  let (inode, _) ← vfs.walk resolved
  return inode

/-- One component of a walk that passes through directories only. -/
def enter (stack : Stack) (component : Name) : Except Errno Stack :=
  if IsSpecial component ∧ vfs.kind stack.top.2 ≠ .directory then .error .ENOTDIR
  else vfs.walkComponent stack component

/-- Where the walk of a path begins. -/
def start (root : InodeRef) (cwd path : Path) : Except Errno Stack :=
  if path.head? = some slash then .ok ⟨([slash], root), []⟩
  else (cwd.splitOn slash).foldlM vfs.enter ⟨([slash], root), []⟩

/-- Walk `path` as it is, from the current directory; the empty path is nowhere. -/
def walkFromCwd (cwd path : Path) : Except Errno InodeRef :=
  if path = [] then .error .ENOENT
  else
    match vfs.mountedRoot [slash] with
    | none => .error .ENOENT
    | some root => do
      let start ← vfs.start root cwd path
      let stack ← (path.splitOn slash).foldlM vfs.enter start
      return stack.top.2

/-! ## Where they part -/

/-- Later `..` take away what stands `depth` below the top. -/
def removed : ℕ → List Name → Bool
  | _, [] => false
  | depth, component :: components =>
    if component = [] ∨ component = [dot] then removed depth components
    else if component = [dot, dot] then
      match depth with
      | 0 => true
      | depth + 1 => removed depth components
    else removed (depth + 1) components

/-- The walk from the current directory ends at a component that `resolve` drops: behind something that
is no directory stands an empty one, `.` or `..`, or there is no such entry and later `..` take its name
away. -/
def EndsAtDropped (root : InodeRef) (cwd path : Path) (e : Errno) : Prop :=
  ∃ start stack before component after, vfs.start root cwd path = .ok start ∧
    path.splitOn slash = before ++ component :: after ∧ before.foldlM vfs.enter start = .ok stack ∧
    vfs.enter stack component = .error e ∧ (IsSpecial component ∨ removed 0 after)

/-- One of these names, from a directory on, is too long, stands below something that is no directory, or
is not there. -/
inductive Blocked (vfs : Vfs) : Path × InodeRef → List Name → Errno → Prop
  | tooLong {directory name names} : nameMax < name.length →
      Blocked vfs directory (name :: names) .ENAMETOOLONG
  | notDirectory {directory name names} : name.length ≤ nameMax →
      vfs.kind directory.2 ≠ .directory → Blocked vfs directory (name :: names) .ENOTDIR
  | missing {directory name names e} : name.length ≤ nameMax → vfs.kind directory.2 = .directory →
      vfs.lookup directory.2 name = .error e → Blocked vfs directory (name :: names) e
  | deeper {directory name names child e} : name.length ≤ nameMax →
      vfs.kind directory.2 = .directory → vfs.lookup directory.2 name = .ok child →
      Blocked vfs (join directory.1 name, (vfs.mountedRoot (join directory.1 name)).getD child) names e →
      Blocked vfs directory (name :: names) e

variable {vfs}

theorem enter_of_plain {stack : Stack} {component : Name} (h : ¬ IsSpecial component) :
    vfs.enter stack component = vfs.walkComponent stack component := by
  rw [enter, if_neg fun hspecial => h hspecial.1]

/-- What entering a name finds. -/
theorem walkComponent_of_plain {stack : Stack} {component : Name} (h : ¬ IsSpecial component) :
    vfs.walkComponent stack component =
      if component.length > nameMax then .error .ENAMETOOLONG
      else if vfs.kind stack.top.2 ≠ .directory then .error .ENOTDIR
      else (vfs.lookup stack.top.2 component).map fun child =>
        ⟨(join stack.top.1 component, (vfs.mountedRoot (join stack.top.1 component)).getD child),
          stack.top :: stack.below⟩ := by
  simp only [IsSpecial, not_or] at h
  rw [walkComponent, if_neg (by simp [h]), if_neg h.2.2]
  cases vfs.lookup stack.top.2 component <;> rfl

/-- A name that is entered comes on top of the stack. -/
theorem below_of_walkComponent {stack stack' : Stack} {component : Name} (h : ¬ IsSpecial component)
    (hstep : vfs.walkComponent stack component = .ok stack') :
    stack'.below = stack.top :: stack.below ∧ vfs.kind stack.top.2 = .directory := by
  rw [walkComponent_of_plain h] at hstep
  split at hstep
  · contradiction
  split at hstep
  · contradiction
  rename_i hkind
  cases hlookup : vfs.lookup stack.top.2 component with
  | error e =>
    rw [hlookup] at hstep
    contradiction
  | ok child =>
    rw [hlookup] at hstep
    obtain rfl := Except.ok.inj hstep
    exact ⟨rfl, by simpa using hkind⟩

/-- A walk over names fails where one of them is blocked. -/
theorem blocked_iff {names : List Name} (hplain : Plain names) {stack : Stack} {e : Errno} :
    names.foldlM vfs.walkComponent stack = .error e ↔ Blocked vfs stack.top names e := by
  induction names generalizing stack with
  | nil => exact ⟨(fun h => by cases h), (fun h => by cases h)⟩
  | cons name names ih =>
    obtain ⟨hname, hplain⟩ := List.forall_mem_cons.mp hplain
    rw [List.foldlM_cons, walkComponent_of_plain hname.1]
    by_cases hlength : name.length > nameMax
    · rw [if_pos hlength]
      constructor
      · intro h
        obtain rfl := Except.error.inj h
        exact .tooLong hlength
      · intro h
        cases h with
        | tooLong => rfl
        | notDirectory hle => omega
        | missing hle => omega
        | deeper hle => omega
    rw [if_neg hlength]
    by_cases hkind : vfs.kind stack.top.2 = .directory
    · rw [if_neg (not_not.mpr hkind)]
      cases hlookup : vfs.lookup stack.top.2 name with
      | error e' =>
        constructor
        · intro h
          obtain rfl := Except.error.inj h
          exact .missing (by omega) hkind hlookup
        · intro h
          cases h with
          | tooLong hlt => omega
          | notDirectory _ hnot => exact absurd hkind hnot
          | missing _ _ hmissing =>
            rw [hlookup] at hmissing
            obtain rfl := Except.error.inj hmissing
            rfl
          | deeper _ _ hfound => rw [hlookup] at hfound; contradiction
      | ok child =>
        refine Iff.trans (b := Blocked vfs (join stack.top.1 name,
          (vfs.mountedRoot (join stack.top.1 name)).getD child) names e) (ih hplain) ?_
        refine ⟨fun h => .deeper (by omega) hkind hlookup h, fun h => ?_⟩
        cases h with
        | tooLong hlt => omega
        | notDirectory _ hnot => exact absurd hkind hnot
        | missing _ _ hmissing => rw [hlookup] at hmissing; contradiction
        | deeper _ _ hfound hbelow =>
          rw [hlookup] at hfound
          obtain rfl := Except.ok.inj hfound
          exact hbelow
    · rw [if_pos hkind]
      constructor
      · intro h
        obtain rfl := Except.error.inj h
        exact .notDirectory (by omega) hkind
      · intro h
        cases h with
        | tooLong hlt => omega
        | notDirectory => rfl
        | missing _ hdir => exact absurd hdir hkind
        | deeper _ hdir => exact absurd hdir hkind

/-! ## The stack of a walk and the components of `resolve` -/

/-- These names lead from the root to the top of the stack. -/
structure Leads (vfs : Vfs) (root : InodeRef) (names : List Name) (stack : Stack) : Prop where
  plain : Plain names
  walk : names.foldlM vfs.walkComponent ⟨([slash], root), []⟩ = .ok stack

variable {root : InodeRef} {names : List Name} {stack stack' : Stack}

theorem leads_nil : Leads vfs root [] ⟨([slash], root), []⟩ :=
  ⟨by simp [Plain], rfl⟩

theorem leads_concat {name : Name} :
    Leads vfs root (names ++ [name]) stack' ↔ ¬ IsSpecial name ∧ slash ∉ name ∧
      ∃ stack, Leads vfs root names stack ∧ vfs.walkComponent stack name = .ok stack' := by
  have hfold : (names ++ [name]).foldlM vfs.walkComponent ⟨([slash], root), []⟩ =
      (names.foldlM vfs.walkComponent ⟨([slash], root), []⟩).bind (vfs.walkComponent · name) := by
    rw [List.foldlM_append]
    refine congrArg _ (funext fun stack => ?_)
    rw [List.foldlM_cons]
    exact bind_pure _
  constructor
  · intro h
    have hwalk := h.walk
    rw [hfold] at hwalk
    cases hfront : names.foldlM vfs.walkComponent ⟨([slash], root), []⟩ with
    | error e => rw [hfront] at hwalk; contradiction
    | ok stack =>
      rw [hfront] at hwalk
      obtain ⟨hspecial, hslash⟩ := h.plain name (by simp)
      exact ⟨hspecial, hslash, stack, ⟨fun n hn => h.plain n (by simp [hn]), hfront⟩, hwalk⟩
  · rintro ⟨hspecial, hslash, stack, h, hstep⟩
    refine ⟨fun n hn => ?_, by rw [hfold, h.walk]; exact hstep⟩
    rcases List.mem_append.mp hn with hn | hn
    · exact h.plain n hn
    · rw [List.mem_singleton.mp hn]
      exact ⟨hspecial, hslash⟩

/-- A component does to the stack what `resolve` does to the names. -/
theorem Leads.component (h : Leads vfs root names stack) {component : Name} (hslash : slash ∉ component)
    (hwalk : vfs.walkComponent stack component = .ok stack') :
    Leads vfs root (pushComponent names component) stack' := by
  by_cases hdot : component = [] ∨ component = [dot]
  · rw [walkComponent, if_pos hdot] at hwalk
    obtain rfl := Except.ok.inj hwalk
    rwa [pushComponent, if_pos hdot]
  by_cases hdots : component = [dot, dot]
  · rw [pushComponent, if_neg hdot, if_pos hdots]
    rw [walkComponent, if_neg hdot, if_pos hdots] at hwalk
    rcases List.eq_nil_or_concat names with rfl | ⟨front, name, rfl⟩
    -- above the root is the root
    · obtain rfl := Except.ok.inj h.walk
      obtain rfl := Except.ok.inj hwalk
      exact leads_nil
    · rw [List.concat_eq_append] at h ⊢
      obtain ⟨hname, -, stack₀, hfront, hlast⟩ := leads_concat.mp h
      rw [(below_of_walkComponent hname hlast).1] at hwalk
      obtain rfl := Except.ok.inj hwalk
      rwa [List.dropLast_concat]
  · rw [pushComponent, if_neg hdot, if_neg hdots]
    rw [not_or] at hdot
    exact leads_concat.mpr ⟨by simp [IsSpecial, hdot, hdots], hslash, stack, h, hwalk⟩

/-- What is entered is walked. -/
theorem walkComponent_of_enter {component : Name} (h : vfs.enter stack component = .ok stack') :
    vfs.walkComponent stack component = .ok stack' := by
  unfold Vfs.enter at h
  split at h
  · contradiction
  · exact h

theorem Leads.enter (h : Leads vfs root names stack) {component : Name} (hslash : slash ∉ component)
    (hstep : vfs.enter stack component = .ok stack') :
    Leads vfs root (pushComponent names component) stack' :=
  h.component hslash (walkComponent_of_enter hstep)

theorem Leads.components (h : Leads vfs root names stack) {components : List Name}
    (hslash : ∀ component ∈ components, slash ∉ component)
    (hwalk : components.foldlM vfs.walkComponent stack = .ok stack') :
    Leads vfs root (components.foldl pushComponent names) stack' := by
  induction components generalizing names stack with
  | nil =>
    obtain rfl := Except.ok.inj hwalk
    exact h
  | cons component components ih =>
    rw [List.forall_mem_cons] at hslash
    rw [List.foldlM_cons] at hwalk
    cases hstep : vfs.walkComponent stack component with
    | error e => rw [hstep] at hwalk; contradiction
    | ok next =>
      rw [hstep] at hwalk
      exact ih (h.component hslash.1 hstep) hslash.2 hwalk

theorem Leads.foldlM (h : Leads vfs root names stack) {components : List Name}
    (hslash : ∀ component ∈ components, slash ∉ component)
    (hwalk : components.foldlM vfs.enter stack = .ok stack') :
    Leads vfs root (components.foldl pushComponent names) stack' := by
  induction components generalizing names stack with
  | nil =>
    obtain rfl := Except.ok.inj hwalk
    exact h
  | cons component components ih =>
    rw [List.forall_mem_cons] at hslash
    rw [List.foldlM_cons] at hwalk
    cases hstep : vfs.enter stack component with
    | error e => rw [hstep] at hwalk; contradiction
    | ok next =>
      rw [hstep] at hwalk
      exact ih (h.enter hslash.1 hstep) hslash.2 hwalk

/-! ## What is left of a path -/

/-- Components that no later `..` takes away are still there at the end. -/
theorem prefix_foldl (above : List Name) {base components : List Name} (h : ¬ removed above.length components) :
    base <+: components.foldl pushComponent (base ++ above) := by
  -- induction on the components; `above` is what stands on `base`
  induction components generalizing above with
  | nil => exact List.prefix_append base above
  | cons component components ih =>
    rw [List.foldl_cons]
    unfold removed at h
    split at h
    · rename_i hdot
      rw [pushComponent, if_pos hdot]
      exact ih _ h
    rename_i hdot
    split at h
    · rename_i hdots
      rw [pushComponent, if_neg hdot, if_pos hdots]
      rcases List.eq_nil_or_concat above with rfl | ⟨front, name, rfl⟩
      · exact absurd rfl h
      · rw [List.concat_eq_append] at h ⊢
        rw [← List.append_assoc, List.dropLast_concat]
        refine ih _ ?_
        simpa using h
    · rename_i hdots
      rw [pushComponent, if_neg hdot, if_neg hdots, List.append_assoc]
      refine ih _ ?_
      rwa [List.length_append, List.length_singleton]

theorem foldlM_of_prefix {whole : List Name} (hfront : names <+: whole) {e : Errno}
    (h : names.foldlM vfs.walkComponent stack = .error e) :
    whole.foldlM vfs.walkComponent stack = .error e := by
  obtain ⟨rest, rfl⟩ := hfront
  rw [List.foldlM_append, h]
  rfl

/-- The name that stops the walk stops the walk of the resolved path, if it is still there. -/
theorem Leads.stops (h : Leads vfs root names stack) {component : Name} {after : List Name} {e : Errno}
    (hspecial : ¬ IsSpecial component) (hstep : vfs.enter stack component = .error e)
    (hkept : ¬ removed 0 after) :
    ((component :: after).foldl pushComponent names).foldlM vfs.walkComponent ⟨([slash], root), []⟩ =
      .error e := by
  have hpush : pushComponent names component = names ++ [component] := by
    simp only [IsSpecial, not_or] at hspecial
    rw [pushComponent, if_neg (by simp [hspecial]), if_neg hspecial.2.2]
  rw [List.foldl_cons, hpush]
  rw [← List.append_nil (names ++ [component])]
  refine foldlM_of_prefix (prefix_foldl [] hkept) ?_
  rw [List.foldlM_append, h.walk]
  rw [enter_of_plain hspecial] at hstep
  simp [bind, Except.bind, hstep]

/-- A walk that fails does so at one of its components. -/
theorem foldlM_enter_error {components : List Name} {e : Errno}
    (h : components.foldlM vfs.enter stack = .error e) :
    ∃ stack' before component after, components = before ++ component :: after ∧
      before.foldlM vfs.enter stack = .ok stack' ∧ vfs.enter stack' component = .error e := by
  induction components generalizing stack with
  | nil => contradiction
  | cons component components ih =>
    rw [List.foldlM_cons] at h
    cases hstep : vfs.enter stack component with
    | error e' =>
      rw [hstep] at h
      obtain rfl := Except.error.inj h
      exact ⟨stack, [], component, components, rfl, rfl, hstep⟩
    | ok next =>
      rw [hstep] at h
      obtain ⟨stack', before, last, after, rfl, hbefore, hlast⟩ := ih h
      refine ⟨stack', component :: before, last, after, rfl, ?_, hlast⟩
      rw [List.foldlM_cons, hstep]
      exact hbefore

/-! ## The current directory -/

theorem foldlM_absolute {components : List Name} (hplain : Plain components) :
    ((absolute components).splitOn slash).foldlM vfs.walkComponent stack =
      components.foldlM vfs.walkComponent stack := by
  rw [splitOn_absolute hplain, List.foldlM_cons, walkComponent_nil]
  split
  · rename_i hnil
    rw [hnil]
    change [([] : Name)].foldlM vfs.walkComponent _ = _
    rw [List.foldlM_cons, walkComponent_nil]
    rfl
  · rfl

/-- The walk of a clean path below a root that is a directory. -/
theorem walk_absolute {components : List Name} (hplain : Plain components)
    (hroot : vfs.mountedRoot [slash] = some root) (hkind : vfs.kind root = .directory) :
    vfs.walk (absolute components) =
      (components.foldlM vfs.walkComponent ⟨([slash], root), []⟩).map fun stack =>
        (stack.top.2, stack.top.1) := by
  rw [walk, if_neg (by simp [absolute]), walkFromRoot, hroot]
  dsimp only
  rw [foldlM_absolute hplain]
  cases hstack : components.foldlM vfs.walkComponent ⟨([slash], root), []⟩ with
  | error e => rfl
  | ok stack =>
    have hslash : ¬ ((absolute components).getLast? = some slash ∧
        vfs.kind stack.top.2 ≠ .directory) := by
      rintro ⟨hlast, hnot⟩
      by_cases hnil : components = []
      -- only the root ends in a slash
      · subst hnil
        obtain rfl := Except.ok.inj hstack
        exact hnot hkind
      · exact getLast?_absolute hplain hnil hlast
    simp [bind, Except.bind, hslash, pure, Except.pure, Except.map]

/-- A name on the way down stands in a directory. -/
theorem kind_root_of_walk {components : List Name} (hplain : Plain components)
    (hwalk : components.foldlM vfs.walkComponent ⟨([slash], root), []⟩ = .ok stack)
    (hkind : vfs.kind stack.top.2 = .directory) : vfs.kind root = .directory := by
  cases components with
  | nil =>
    obtain rfl := Except.ok.inj hwalk
    exact hkind
  | cons name components =>
    rw [List.foldlM_cons] at hwalk
    cases hstep : vfs.walkComponent ⟨([slash], root), []⟩ name with
    | error e => rw [hstep] at hwalk; contradiction
    | ok next => exact (below_of_walkComponent (hplain name List.mem_cons_self).1 hstep).2

/-- Over directories both kinds of step agree on a clean path. -/
theorem foldlM_enter {components : List Name} (hplain : Plain components)
    (hkind : vfs.kind root = .directory) :
    ((absolute components).splitOn slash).foldlM vfs.enter ⟨([slash], root), []⟩ =
      components.foldlM vfs.walkComponent ⟨([slash], root), []⟩ := by
  have hnil : vfs.enter ⟨([slash], root), []⟩ [] = .ok ⟨([slash], root), []⟩ := by
    rw [enter, if_neg (by simp [hkind]), walkComponent_nil]
  have hnames : ∀ names : List Name, Plain names → ∀ stack,
      names.foldlM vfs.enter stack = names.foldlM vfs.walkComponent stack := by
    intro names hnames
    induction names with
    | nil => exact fun _ => rfl
    | cons name names ih =>
      intro stack
      obtain ⟨hname, hnames⟩ := List.forall_mem_cons.mp hnames
      rw [List.foldlM_cons, List.foldlM_cons, enter_of_plain hname.1]
      exact congrArg _ (funext fun next => ih hnames next)
  rw [splitOn_absolute hplain, List.foldlM_cons, hnil]
  split
  · rename_i hempty
    subst hempty
    change [([] : Name)].foldlM vfs.enter _ = _
    rw [List.foldlM_cons, hnil]
    rfl
  · exact hnames components hplain _

/-- The current directory is there: a clean path to a directory. -/
def Exists (vfs : Vfs) (cwd : Path) : Prop :=
  Clean cwd ∧ ∃ found, vfs.walk cwd = .ok found ∧ vfs.kind found.1 = .directory

/-- Where a walk begins, the names that `resolve` begins with have led. -/
theorem Exists.start {cwd : Path} (h : Exists vfs cwd) (path : Path) :
    ∃ root stack, vfs.mountedRoot [slash] = some root ∧ vfs.kind root = .directory ∧
      vfs.start root cwd path = .ok stack ∧ vfs.kind stack.top.2 = .directory ∧
      Leads vfs root (((if path.head? = some slash then [] else cwd).splitOn slash).foldl
        pushComponent []) stack := by
  obtain ⟨⟨components, rfl, hplain⟩, found, hwalk, hfound⟩ := h
  rw [walk, if_neg (by simp [absolute]), walkFromRoot] at hwalk
  cases hroot : vfs.mountedRoot [slash] with
  | none =>
    rw [hroot] at hwalk
    contradiction
  | some root =>
    rw [hroot] at hwalk
    dsimp only at hwalk
    rw [foldlM_absolute hplain] at hwalk
    cases hstack : components.foldlM vfs.walkComponent ⟨([slash], root), []⟩ with
    | error e =>
      rw [hstack] at hwalk
      contradiction
    | ok stack =>
      have htop : found.1 = stack.top.2 := by
        rw [hstack] at hwalk
        simp only [bind, Except.bind, pure, Except.pure] at hwalk
        split at hwalk
        · contradiction
        · exact (congrArg Prod.fst (Except.ok.inj hwalk)).symm
      have hkind := kind_root_of_walk hplain hstack (htop ▸ hfound)
      by_cases hhead : path.head? = some slash
      · refine ⟨root, _, rfl, hkind, by rw [Vfs.start, if_pos hhead], hkind, ?_⟩
        rw [if_pos hhead, List.splitOn_nil]
        exact leads_nil
      · have henter := (foldlM_enter hplain hkind).trans hstack
        refine ⟨root, stack, rfl, hkind, by rw [Vfs.start, if_neg hhead, henter],
          htop ▸ hfound, ?_⟩
        rw [if_neg hhead]
        exact leads_nil.foldlM (fun part hpart => Text.notMem_of_mem_splitOn hpart) henter

/-! ## Agreement -/

/-- Where the walk ends at a component, its error is that of the whole walk. -/
theorem EndsAtDropped.foldlM {cwd path : Path} {start : Stack} {e : Errno}
    (h : EndsAtDropped vfs root cwd path e) (hstart : vfs.start root cwd path = .ok start) :
    (path.splitOn slash).foldlM vfs.enter start = .error e := by
  obtain ⟨start', stack, before, component, after, hstart', hsplit, hbefore, hstep, -⟩ := h
  obtain rfl := Except.ok.inj (hstart.symm.trans hstart')
  rw [hsplit, List.foldlM_append, hbefore]
  simp [bind, Except.bind, hstep]

/-- Both ways answer the same. -/
def Agrees (vfs : Vfs) (cwd path : Path) : Prop :=
  vfs.walkResolved cwd path = vfs.walkFromCwd cwd path

/-- A path of a system call leads where a walk from the current directory leads, unless that walk ends at
a component that `resolve` drops: then the names that are left must end in the same error. -/
theorem agrees_iff {cwd : Path} (h : Exists vfs cwd) (path : Path) :
    Agrees vfs cwd path ↔ ∀ root e, vfs.mountedRoot [slash] = some root →
      EndsAtDropped vfs root cwd path e →
        Blocked vfs ([slash], root) (resolvedComponents cwd path) e := by
  obtain ⟨root, start, hroot, hkind, hstart, htop, hleads⟩ := h.start path
  have hslash : ∀ part ∈ path.splitOn slash, slash ∉ part := fun part =>
    Text.notMem_of_mem_splitOn
  have hplain := plain_resolvedComponents cwd path
  by_cases hpath : path = []
  · subst hpath
    refine iff_of_true (by rw [Agrees, walkFromCwd, if_pos rfl]; rfl) fun root' e hroot' hends => ?_
    obtain rfl := Option.some.inj (hroot.symm.trans hroot')
    have hfold := hends.foldlM hstart
    change [([] : Name)].foldlM vfs.enter start = .error e at hfold
    rw [List.foldlM_cons, enter, if_neg (by simp [htop]), walkComponent_nil] at hfold
    contradiction
  have hresolved : vfs.walkResolved cwd path =
      ((resolvedComponents cwd path).foldlM vfs.walkComponent ⟨([slash], root), []⟩).map
        fun stack => stack.top.2 := by
    rw [walkResolved, argument, if_neg hpath]
    change (do let (inode, _) ← vfs.walk (absolute (resolvedComponents cwd path)); return inode) = _
    rw [walk_absolute hplain hroot hkind]
    cases (resolvedComponents cwd path).foldlM vfs.walkComponent ⟨([slash], root), []⟩ <;> rfl
  have hcomponents : resolvedComponents cwd path =
      (path.splitOn slash).foldl pushComponent
        (((if path.head? = some slash then [] else cwd).splitOn slash).foldl pushComponent []) := by
    rw [resolvedComponents, List.foldl_append]
  have hwalk : vfs.walkFromCwd cwd path =
      ((path.splitOn slash).foldlM vfs.enter start).map fun stack => stack.top.2 := by
    rw [walkFromCwd, if_neg hpath, hroot]
    dsimp only
    rw [hstart]
    cases hwalk : (path.splitOn slash).foldlM vfs.enter start <;>
      simp [bind, Except.bind, hwalk, Except.map, pure, Except.pure]
  rw [Agrees, hresolved, hwalk]
  cases hfold : (path.splitOn slash).foldlM vfs.enter start with
  | ok stack =>
    rw [hcomponents, (hleads.foldlM hslash hfold).walk]
    refine iff_of_true rfl fun root' e hroot' hends => ?_
    obtain rfl := Option.some.inj (hroot.symm.trans hroot')
    exact absurd (hfold.symm.trans (hends.foldlM hstart)) (by simp)
  | error e =>
    have hblocked : (resolvedComponents cwd path).foldlM vfs.walkComponent ⟨([slash], root), []⟩ = .error e ↔
        Blocked vfs ([slash], root) (resolvedComponents cwd path) e := blocked_iff hplain
    have hagrees : ((resolvedComponents cwd path).foldlM vfs.walkComponent
        ⟨([slash], root), []⟩).map (fun stack => stack.top.2) = (.error e : Except Errno Stack).map
          (fun stack => stack.top.2) ↔ Blocked vfs ([slash], root) (resolvedComponents cwd path) e := by
      rw [← hblocked]
      cases (resolvedComponents cwd path).foldlM vfs.walkComponent ⟨([slash], root), []⟩ <;>
        simp [Except.map]
    rw [hagrees]
    constructor
    · intro hagree root' e' hroot' hends
      obtain rfl := Option.some.inj (hroot.symm.trans hroot')
      obtain rfl := Except.error.inj (hfold.symm.trans (hends.foldlM hstart))
      exact hagree
    · intro hdropped
      obtain ⟨stack, before, component, after, hsplit, hbefore, hstep⟩ := foldlM_enter_error hfold
      by_cases hdrop : IsSpecial component ∨ removed 0 after
      · exact hdropped root e hroot
          ⟨start, stack, before, component, after, hstart, hsplit, hbefore, hstep, hdrop⟩
      -- the name is still there, and its walk ends the same way
      · rw [not_or] at hdrop
        rw [← hblocked, hcomponents, hsplit, List.foldl_append]
        refine (hleads.foldlM (fun part hpart => hslash part ?_) hbefore).stops hdrop.1 hstep hdrop.2
        rw [hsplit]
        exact List.mem_append_left _ hpart

/-- A ramfs at the root with the file `f`. -/
def fileInRoot : Vfs :=
  (oneRamFs.createIn ⟨0, RamFs.rootIno⟩ [102] .file).2

theorem fileInRoot_exists : Exists fileInRoot [slash] :=
  ⟨clean_root, (⟨0, RamFs.rootIno⟩, [slash]), rfl, rfl⟩

theorem agrees_iff_file : Agrees fileInRoot [slash] [102] ↔
    ∀ root e, fileInRoot.mountedRoot [slash] = some root →
      EndsAtDropped fileInRoot root [slash] [102] e →
        Blocked fileInRoot ([slash], root) (resolvedComponents [slash] [102]) e :=
  agrees_iff fileInRoot_exists [102]

/-- With a file `f` in the root, `f/` is the file instead of `ENOTDIR`. -/
theorem not_agrees_trailingSlash :
    Exists fileInRoot [slash] ∧
      fileInRoot.walkFromCwd [slash] [102, slash] = .error .ENOTDIR ∧
      ¬ Agrees fileInRoot [slash] [102, slash] := by
  refine ⟨fileInRoot_exists, rfl, fun h => ?_⟩
  have hfound : fileInRoot.walkResolved [slash] [102, slash] = .ok ⟨0, 2⟩ := rfl
  cases hfound.symm.trans h

end Vfs

end SaeOS.Fs
