import SaeOS.Fs.RamFsTree
import SaeOS.Lib.LockOrder
import SaeOS.Lib.Run

/-!
# Threads on a ramfs

Any number of threads run `lookup`, `create`, `unlink`, `rmdir` and `rename` on one file system.
A thread's `Phase` says how far it is; taking a lock is a step of its own, and what an operation
does with its locks held, up to the next lock it takes or to its return, is one step that also
releases them. Locks are not stored: a phase says which entry maps its thread has locked
(`Phase.holds`) and which it waits for (`Phase.waits`).

`rename` reads as in the source: with the rename lock held it checks the target, looks the source
up, walks the parent links three times, one link a step, and then locks both directories in the
order the walks gave.

A reference that nothing holds any more is dropped at any time: an inode other than the root that
no directory lists and no thread uses may leave the store.
-/

namespace SaeOS.Fs

open RamFs (Rename)

namespace Threads

/-! ## Phases -/

/-- The operations that lock one entry map. -/
inductive EntryOp
  | lookup (name : Name)
  | create (name : Name) (kind : InodeKind)
  | unlink (name : Name)
  deriving DecidableEq, Repr

/-- A call of a directory operation. -/
inductive Call
  | entryOp (dir : ℕ) (op : EntryOp)
  | rmdir (dir : ℕ) (name : Name)
  | rename (r : Rename)
  deriving DecidableEq, Repr

/-- The directory a call is made on. -/
def Call.receiver : Call → ℕ
  | .entryOp dir _ | .rmdir dir _ => dir
  | .rename r => r.self

/-- How far a `rename` that holds the rename lock is. -/
inductive Stage
  /-- Before the checks. -/
  | entered
  /-- Same directory and name: waiting for, or holding, the lock of the `lookup` it returns. -/
  | sameWant
  | sameLocked
  /-- The `lookup` of the source. -/
  | lookupWant
  | lookupLocked
  /-- `target_dir.is_within(moved.ino)`, at the directory `pos`. -/
  | walkMoved (moved pos : ℕ)
  /-- `target_dir.is_within(self.ino)`. -/
  | walkTarget (pos : ℕ)
  /-- `self.is_within(target_dir.ino)`. -/
  | walkSource (pos : ℕ)
  | lockFirst (sourceFirst : Bool)
  | lockSecond (sourceFirst : Bool)
  | bothLocked
  | wantExisting (source existing : ℕ)
  | allLocked (source existing : ℕ)
  deriving DecidableEq, Repr

/-- What a thread is doing. -/
inductive Phase
  /-- Between calls, with the last call's result. -/
  | idle (result : Except Errno Unit)
  | want (dir : ℕ) (op : EntryOp)
  | locked (dir : ℕ) (op : EntryOp)
  | rmdirWant (dir : ℕ) (name : Name)
  | rmdirLocked (dir : ℕ) (name : Name)
  | rmdirWantChild (dir : ℕ) (name : Name) (child : ℕ)
  | rmdirBoth (dir : ℕ) (name : Name) (child : ℕ)
  /-- Waiting for the rename lock. -/
  | renameWant (r : Rename)
  | rename (r : Rename) (stage : Stage)

namespace Stage

/-- The directory whose entry map is locked first. -/
def first (r : Rename) (sourceFirst : Bool) : ℕ :=
  if sourceFirst then r.self else r.target

/-- The directory whose entry map is locked second. -/
def second (r : Rename) (sourceFirst : Bool) : ℕ :=
  if sourceFirst then r.target else r.self

/-- The entry maps a `rename` has locked. -/
def holds (r : Rename) : Stage → List ℕ
  | sameLocked | lookupLocked => [r.self]
  | lockSecond sourceFirst => [first r sourceFirst]
  | bothLocked | wantExisting _ _ => [r.self, r.target]
  | allLocked _ existing => [r.self, r.target, existing]
  | _ => []

/-- The entry map a `rename` waits for. -/
def waits (r : Rename) : Stage → Option ℕ
  | sameWant | lookupWant => some r.self
  | lockFirst sourceFirst => some (first r sourceFirst)
  | lockSecond sourceFirst => some (second r sourceFirst)
  | wantExisting _ existing => some existing
  | _ => none

/-- The inodes a `rename` refers to beside its arguments. -/
def uses : Stage → List ℕ
  | walkMoved moved pos => [moved, pos]
  | walkTarget pos | walkSource pos => [pos]
  | wantExisting source existing | allLocked source existing => [source, existing]
  | _ => []

end Stage

namespace Phase

/-- The entry maps a thread has locked. -/
def holds : Phase → List ℕ
  | locked dir _ | rmdirLocked dir _ | rmdirWantChild dir _ _ => [dir]
  | rmdirBoth dir _ child => [dir, child]
  | rename r stage => stage.holds r
  | _ => []

/-- The entry map a thread waits for. -/
def waits : Phase → Option ℕ
  | want dir _ | rmdirWant dir _ => some dir
  | rmdirWantChild _ _ child => some child
  | rename r stage => stage.waits r
  | _ => none

/-- Whether a thread holds the rename lock. -/
def holdsRename : Phase → Bool
  | rename _ _ => true
  | _ => false

/-- The inodes a thread refers to. -/
def uses : Phase → List ℕ
  | idle _ => []
  | want dir _ | locked dir _ | rmdirWant dir _ | rmdirLocked dir _ => [dir]
  | rmdirWantChild dir _ child | rmdirBoth dir _ child => [dir, child]
  | renameWant r => [r.self, r.target]
  | rename r stage => r.self :: r.target :: stage.uses

end Phase

/-! ## Steps -/

/-- A file system with `n` threads. `removed` records the inodes that `unlink`, `rmdir` or a
replacing `rename` took out of the tree. -/
structure State (n : ℕ) where
  fs : RamFs
  phase : Fin n → Phase
  removed : ℕ → Bool

/-- Two threads are 0 and 1. -/
scoped instance neZero_two : NeZero 2 :=
  ⟨by decide⟩

/-- What can happen next. -/
inductive Op (n : ℕ)
  | call (i : Fin n) (call : Call)
  | advance (i : Fin n)
  | drop (ino : ℕ)

namespace State

variable {n : ℕ} (s : State n) (i : Fin n)

/-- The entry map is unlocked. -/
def free (dir : ℕ) : Bool :=
  decide (∀ j, dir ∉ (s.phase j).holds)

/-- The rename lock is free. -/
def renameFree : Bool :=
  decide (∀ j, (s.phase j).holdsRename = false)

/-- Thread `i` goes on to `phase`. -/
def goto (phase : Phase) : State n :=
  { s with phase := Function.update s.phase i phase }

/-- Thread `i` returns. -/
def ret (result : Except Errno Unit) : State n :=
  s.goto i (.idle result)

/-- Thread `i` goes on to `phase` once it has the lock it waits for. -/
def acquire (dir : ℕ) (phase : Phase) : Option (State n) :=
  if s.free dir then some (s.goto i phase) else none

/-- Record that an inode was removed. -/
def remove (ino : Option ℕ) : ℕ → Bool :=
  match ino with
  | some ino => Function.update s.removed ino true
  | none => s.removed

/-- Thread `i` returns with success from an operation that left `fs` and removed `ino`. -/
def finish (fs : RamFs) (ino : Option ℕ) : State n :=
  { s.ret i (.ok ()) with fs, removed := s.remove ino }

/-- A section under one lock. -/
def runEntryOp (dir : ℕ) : EntryOp → State n
  | .lookup name => s.ret i ((s.fs.lookup dir name).map fun _ => ())
  | .create name kind =>
    match s.fs.create dir name kind with
    | .error e => s.ret i (.error e)
    | .ok (_, fs) => s.finish i fs none
  | .unlink name =>
    match s.fs.unlink dir name with
    | .error e => s.ret i (.error e)
    | .ok fs => s.finish i fs (s.fs.entry dir name)

/-- One step of a walk along the parent links: the directory sought is found, the walk ends, or it
goes on to the parent. -/
def walk (pos goal : ℕ) (found ended : State n) (next : ℕ → Stage) (r : Rename) : State n :=
  if pos = goal then found
  else
    match s.fs.up pos with
    | none => ended
    | some p => s.goto i (.rename r (next p))

/-- The last step of a `rename`. -/
def commit (r : Rename) (source : ℕ) (replaced : Option ℕ) : State n :=
  match s.fs.renameLocked r source replaced with
  | .error e => s.ret i (.error e)
  | .ok fs => s.finish i fs (s.fs.entry r.target r.new)

/-- A step of a `rename` that holds the rename lock. -/
def advanceRename (r : Rename) : Stage → Option (State n)
  | .entered =>
    if r.self = r.target ∧ r.old = r.new then some (s.goto i (.rename r .sameWant))
    else if s.fs.isDead r.target then some (s.ret i (.error .ENOENT))
    else some (s.goto i (.rename r .lookupWant))
  | .sameWant => s.acquire i r.self (.rename r .sameLocked)
  | .sameLocked => some (s.ret i ((s.fs.lookup r.self r.old).map fun _ => ()))
  | .lookupWant => s.acquire i r.self (.rename r .lookupLocked)
  | .lookupLocked =>
    match s.fs.lookup r.self r.old with
    | .error e => some (s.ret i (.error e))
    | .ok source =>
      if s.fs.isDir source then some (s.goto i (.rename r (.walkMoved source r.target)))
      else some (s.goto i (.rename r (.walkTarget r.target)))
  | .walkMoved moved pos =>
    some (s.walk i pos moved (s.ret i (.error .EINVAL))
      (s.goto i (.rename r (.walkTarget r.target))) (.walkMoved moved) r)
  | .walkTarget pos =>
    some (s.walk i pos r.self (s.goto i (.rename r (.lockFirst true)))
      (s.goto i (.rename r (.walkSource r.self))) .walkTarget r)
  | .walkSource pos =>
    some (s.walk i pos r.target (s.goto i (.rename r (.lockFirst false)))
      (s.goto i (.rename r (.lockFirst (decide (r.self < r.target))))) .walkSource r)
  | .lockFirst sourceFirst =>
    if r.self = r.target then s.acquire i r.self (.rename r .bothLocked)
    else s.acquire i (Stage.first r sourceFirst) (.rename r (.lockSecond sourceFirst))
  | .lockSecond sourceFirst => s.acquire i (Stage.second r sourceFirst) (.rename r .bothLocked)
  | .bothLocked =>
    match s.fs.renameSource r with
    | .error e => some (s.ret i (.error e))
    | .ok (source, none) => some (s.commit i r source none)
    | .ok (source, some existing) => some (s.goto i (.rename r (.wantExisting source existing)))
  | .wantExisting source existing =>
    s.acquire i existing (.rename r (.allLocked source existing))
  | .allLocked source existing => some (s.commit i r source (some existing))

/-- A step of thread `i`, if it is not waiting. -/
def advance : Option (State n) :=
  match s.phase i with
  | .idle _ => none
  | .want dir op => s.acquire i dir (.locked dir op)
  | .locked dir op => some (s.runEntryOp i dir op)
  | .rmdirWant dir name => s.acquire i dir (.rmdirLocked dir name)
  | .rmdirLocked dir name =>
    match s.fs.rmdirChild dir name with
    | .error e => some (s.ret i (.error e))
    | .ok child => some (s.goto i (.rmdirWantChild dir name child))
  | .rmdirWantChild dir name child => s.acquire i child (.rmdirBoth dir name child)
  | .rmdirBoth dir name child =>
    match s.fs.rmdirLocked dir name child with
    | .error e => some (s.ret i (.error e))
    | .ok fs => some (s.finish i fs (some child))
  | .renameWant r => if s.renameFree then some (s.goto i (.rename r .entered)) else none
  | .rename r stage => s.advanceRename i r stage

/-- The start of a call: what it checks before its first lock. -/
def start : Call → State n
  | .entryOp dir op =>
    match op with
    | .create name _ =>
      match checkName name with
      | .error e => s.ret i (.error e)
      | .ok () => s.goto i (.want dir op)
    | _ => s.goto i (.want dir op)
  | .rmdir dir name => s.goto i (.rmdirWant dir name)
  | .rename r =>
    match checkName r.new with
    | .error e => s.ret i (.error e)
    | .ok () =>
      if s.fs.isDir r.target then s.goto i (.renameWant r) else s.ret i (.error .EXDEV)

/-- The steps of the system. A call is made on a directory the caller has a reference to. -/
def Step (s : State n) : Op n → State n → Prop
  | .call i call, s' =>
    (∃ result, s.phase i = .idle result) ∧ s.fs.isDir call.receiver = true ∧ s' = s.start i call
  | .advance i, s' => s.advance i = some s'
  | .drop ino, s' =>
    ino ≠ RamFs.rootIno ∧ (∀ d name, s.fs.entry d name ≠ some ino) ∧
      (∀ j, ino ∉ (s.phase j).uses) ∧ s' = { s with fs := s.fs.drop ino }

/-- The steps other than drops, as a function. -/
def exec (s : State n) : Op n → Option (State n)
  | .call i call =>
    match s.phase i with
    | .idle _ => if s.fs.isDir call.receiver then some (s.start i call) else none
    | _ => none
  | .advance i => s.advance i
  | .drop _ => none

theorem step_of_exec {s s' : State n} {op : Op n} (h : s.exec op = some s') : s.Step op s' := by
  cases op with
  | call i call =>
    simp only [exec] at h
    split at h
    · rename_i result hidle
      split_ifs at h with hdir
      cases h
      exact ⟨⟨result, hidle⟩, hdir, rfl⟩
    · cases h
  | advance i => exact h
  | drop ino => cases h

/-- `k` steps of thread `i`. -/
def steps (i : Fin n) (k : ℕ) : List (Op n) :=
  List.replicate k (.advance i)

/-- A `create` run to its end. -/
def createOps (i : Fin n) (dir : ℕ) (name : Name) (kind : InodeKind) : List (Op n) :=
  .call i (.entryOp dir (.create name kind)) :: steps i 2

/-- A fresh file system with idle threads. -/
def Initial (s : State n) : Prop :=
  (∃ limit, s.fs = RamFs.withLimit limit) ∧ (∀ i, s.phase i = .idle (.ok ())) ∧
    s.removed = fun _ => false

/-- A fresh file system and its idle threads. -/
def fresh (n limit : ℕ) : State n where
  fs := RamFs.withLimit limit
  phase _ := .idle (.ok ())
  removed _ := false

theorem initial_fresh (n limit : ℕ) : (fresh n limit).Initial :=
  ⟨⟨limit, rfl⟩, fun _ => rfl, rfl⟩

/-- `exec`, but stopping at a step that does not pass a check. -/
def execChecked (check : State n → Op n → Bool) (s : State n) (op : Op n) : Option (State n) :=
  if check s op then s.exec op else none

/-- What `execChecked` computes from a list of steps is reached by steps that meet any condition the
check ensures. -/
theorem reachable_of_exec {s s' : State n} {guard : State n → Op n → Prop}
    {check : State n → Op n → Bool}
    (hcheck : ∀ s op, Run.Reachable Initial Step s → check s op = true → guard s op)
    {ops : List (Op n)} (hs : Run.Reachable Initial (Run.Guarded guard Step) s)
    (h : ops.foldlM (execChecked check) s = some s') :
    Run.Reachable Initial (Run.Guarded guard Step) s' := by
  induction ops generalizing s with
  | nil =>
    cases h
    exact hs
  | cons op ops ih =>
    rw [List.foldlM_cons] at h
    obtain ⟨s₁, hop, hrest⟩ := Option.bind_eq_some_iff.mp h
    unfold execChecked at hop
    split_ifs at hop with hpass
    exact ih (.next hs ⟨hcheck s op hs.of_guarded hpass, step_of_exec hop⟩) hrest

/-- The state after a list of steps; the initial one if a step is not possible. -/
def runChecked (check : State n → Op n → Bool) (s : State n) (ops : List (Op n)) : State n :=
  (ops.foldlM (execChecked check) s).getD s

theorem reachable_runChecked {s : State n} {guard : State n → Op n → Prop}
    {check : State n → Op n → Bool}
    (hcheck : ∀ s op, Run.Reachable Initial Step s → check s op = true → guard s op)
    {ops : List (Op n)} (hs : Run.Reachable Initial (Run.Guarded guard Step) s) :
    Run.Reachable Initial (Run.Guarded guard Step) (runChecked check s ops) := by
  unfold runChecked
  cases h : ops.foldlM (execChecked check) s with
  | none => exact hs
  | some s' => exact reachable_of_exec hcheck hs h

end State

end Threads

end SaeOS.Fs
