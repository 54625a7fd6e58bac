import Mathlib.Algebra.Group.Int.Defs
import Mathlib.Algebra.Group.Nat.Defs
import Mathlib.Data.Int.Order.Basic
import Mathlib.Data.List.Nodup
import Mathlib.Logic.Function.Basic
import SaeOS.Lib.Vec

/-!
# The process table

The process-wide bookkeeping of `process.rs`: which processes there are, who is whose parent, which
threads a process still has, its exit status and what keeps its record alive, and the address spaces
of reaped processes that wait to be freed.

Process ids, task ids and address-space ids are natural numbers; the source's `u64` id counter does
not run out in any run the machine can make. The open files and the current directory of a process,
which no operation of the table reads, are left out.
-/

namespace SaeOS.Process

/-- `INIT_PID`: the process init runs in. -/
def initPid : ℕ := 1

inductive ProcessError
  | unknownProcess
  | duplicateThread
  | alreadyExited
  | notExited
  | duplicateWaiter
  | unknownWaiter
  deriving DecidableEq, Repr

/-- One process. -/
structure ProcessControlBlock where
  id : ℕ
  parent : Option ℕ
  addressSpace : Option ℕ
  children : List ℕ := []
  exitStatus : Option ℤ := none
  threads : List ℕ
  childWaiters : List ℕ := []
  references : ℕ := 0
  deriving DecidableEq, Repr

/-- `ProcessControlBlock::new`. -/
def ProcessControlBlock.new (id : ℕ) (parent addressSpace : Option ℕ) (thread : ℕ) :
    ProcessControlBlock :=
  { id, parent, addressSpace, threads := [thread] }

/-- Whether nothing keeps the record of a process alive: the condition of `reap_if_empty`. -/
def ProcessControlBlock.canReap (r : ProcessControlBlock) : Bool :=
  r.parent.isNone && r.threads.isEmpty && r.exitStatus.isSome && r.references == 0 &&
    r.childWaiters.isEmpty

/-- Whether `wait4` can collect the process: it has exited and its last thread is gone. -/
def ProcessControlBlock.isFinished (r : ProcessControlBlock) : Bool :=
  r.exitStatus.isSome && r.threads.isEmpty

/-- The table. -/
structure ProcessTable where
  processes : List ProcessControlBlock := []
  nextId : ℕ := 2
  releasedSpaces : List ℕ := []
  deriving DecidableEq, Repr

/-- The result of a fallible operation, with the table left behind. -/
abbrev Outcome (α : Type) : Type := Except ProcessError α × ProcessTable

/-- Replace the first record that has this record's id. -/
def setFirst (r : ProcessControlBlock) : List ProcessControlBlock → List ProcessControlBlock
  | [] => []
  | p :: ps => if p.id = r.id then r :: ps else p :: setFirst r ps

namespace ProcessTable

/-- The record of a process. -/
def process (t : ProcessTable) (id : ℕ) : Option ProcessControlBlock :=
  t.processes.find? fun r => r.id == id

/-- Write a record back through `process_mut`. -/
def setProcess (t : ProcessTable) (r : ProcessControlBlock) : ProcessTable :=
  { t with processes := setFirst r t.processes }

/-- Edit the record of a process, or fail: what the operations on one record share. -/
def onRecord {α : Type} (t : ProcessTable) (id : ℕ)
    (edit : ProcessControlBlock → Except ProcessError (α × ProcessControlBlock)) : Outcome α :=
  match t.process id with
  | none => (.error .unknownProcess, t)
  | some r =>
    match edit r with
    | .error e => (.error e, t)
    | .ok (a, r) => (.ok a, t.setProcess r)

/-- Create a process without a parent. -/
def create (t : ProcessTable) (addressSpace : Option ℕ) (thread : ℕ) : ℕ × ProcessTable :=
  (t.nextId, { t with
    nextId := t.nextId + 1
    processes := t.processes ++ [.new t.nextId none addressSpace thread] })

/-- Create the process init runs in. -/
def createInit (t : ProcessTable) (thread : ℕ) : Outcome ℕ :=
  if (t.process initPid).isSome then (.error .duplicateThread, t)
  else (.ok initPid, { t with processes := t.processes ++ [.new initPid none none thread] })

/-- Create a child of a process. -/
def createChild (t : ProcessTable) (parent : ℕ) (addressSpace : Option ℕ) (thread : ℕ) :
    Outcome ℕ :=
  if (t.process parent).isNone then (.error .unknownProcess, t)
  else
    let (child, t) := t.create addressSpace thread
    let t := match t.process child with
      | none => t
      | some r => t.setProcess { r with parent := some parent }
    match t.process parent with
    | none => (.error .unknownProcess, t)
    | some r => (.ok child, t.setProcess { r with children := r.children ++ [child] })

/-- `add_thread`. -/
def addThread (t : ProcessTable) (process thread : ℕ) : Outcome Unit :=
  t.onRecord process fun r =>
    if r.threads.contains thread then .error .duplicateThread
    else .ok ((), { r with threads := r.threads ++ [thread] })

/-- Record the exit status of a process. -/
def exit (t : ProcessTable) (process : ℕ) (status : ℤ) : Outcome Unit :=
  t.onRecord process fun r =>
    if r.exitStatus.isSome then .error .alreadyExited
    else .ok ((), { r with exitStatus := some status })

/-- Retire a thread; `true` when it was the last one. -/
def removeThread (t : ProcessTable) (process thread : ℕ) : Outcome Bool :=
  t.onRecord process fun r =>
    if r.threads.contains thread then
      let threads := Vec.swapRemove r.threads (r.threads.idxOf thread)
      .ok (threads.isEmpty, { r with threads })
    else .error .unknownProcess

/-- Remove the record of a process that nothing keeps alive, releasing its address space. -/
def reapIfEmpty (t : ProcessTable) (process : ℕ) : Bool × ProcessTable :=
  match (t.process process).filter ProcessControlBlock.canReap with
  | none => (false, t)
  | some r =>
    (true, { t with
      processes := (Vec.swapRemove t.processes (t.processes.findIdx fun r => r.id == process)).map
        fun p => { p with children := p.children.filter fun child => child != process }
      releasedSpaces := t.releasedSpaces ++ r.addressSpace.toList })

/-- The part of `wait_child` that ends the parent's ownership. -/
def disown (t : ProcessTable) (parent child : ℕ) : Outcome Unit :=
  match t.onRecord parent fun r =>
      .ok ((), { r with children := r.children.filter fun id => id != child }) with
  | (.error e, t) => (.error e, t)
  | (.ok (), t) => t.onRecord child fun r => .ok ((), { r with parent := none })

/-- Collect the status of a finished child and release the parent's ownership. -/
def waitChild (t : ProcessTable) (parent child : ℕ) : Outcome ℤ :=
  match t.process child with
  | none => (.error .unknownProcess, t)
  | some r =>
    if r.parent ≠ some parent || !r.threads.isEmpty then (.error .unknownProcess, t)
    else
      match r.exitStatus with
      | none => (.error .notExited, t)
      | some status =>
        match t.disown parent child with
        | (.error e, t) => (.error e, t)
        | (.ok (), t) => (.ok status, (t.reapIfEmpty child).2)

/-- A finished child of a process, the oldest first. -/
def exitedChild (t : ProcessTable) (parent : ℕ) : Option ℕ :=
  (t.process parent).bind fun r =>
    r.children.find? fun child => (t.process child).any ProcessControlBlock.isFinished

/-- Whether a process has children. -/
def hasChildren (t : ProcessTable) (parent : ℕ) : Bool :=
  (t.process parent).any fun r => !r.children.isEmpty

/-- Make `parent` the parent of each process of a list. -/
def setParents (parent : ℕ) : List ℕ → ProcessTable → ProcessTable
  | [], t => t
  | child :: rest, t =>
    setParents parent rest (match t.process child with
      | none => t
      | some r => t.setProcess { r with parent := some parent })

/-- Hand the children of a process to another one. -/
def reparentChildren (t : ProcessTable) (process newParent : ℕ) : ProcessTable :=
  if process = newParent then t
  else
    match t.process process with
    | none => t
    | some r =>
      let t := setParents newParent r.children (t.setProcess { r with children := [] })
      match t.process newParent with
      | none => t
      | some p => t.setProcess { p with children := p.children ++ r.children }

/-- The address spaces released since the last call. -/
def takeReleasedSpaces (t : ProcessTable) : List ℕ × ProcessTable :=
  (t.releasedSpaces, { t with releasedSpaces := [] })

/-- Take a reference to a process, saturating as the source's counter does. -/
def retain (t : ProcessTable) (process : ℕ) : Outcome Unit :=
  t.onRecord process fun r =>
    .ok ((), { r with references := min (r.references + 1) (2 ^ 64 - 1) })

/-- Drop a reference to a process. -/
def release (t : ProcessTable) (process : ℕ) : Outcome Unit :=
  t.onRecord process fun r =>
    if r.references = 0 then .error .unknownProcess
    else .ok ((), { r with references := r.references - 1 })

/-- Register a task that waits for the process's exit status. -/
def addChildWaiter (t : ProcessTable) (child waiter : ℕ) : Outcome Unit :=
  t.onRecord child fun r =>
    if r.childWaiters.contains waiter then .error .duplicateWaiter
    else .ok ((), { r with childWaiters := r.childWaiters ++ [waiter] })

/-- Remove a waiting task. -/
def removeChildWaiter (t : ProcessTable) (child waiter : ℕ) : Outcome Unit :=
  t.onRecord child fun r =>
    if r.childWaiters.contains waiter then
      .ok ((), { r with
        childWaiters := Vec.swapRemove r.childWaiters (r.childWaiters.idxOf waiter) })
    else .error .unknownWaiter

end ProcessTable

end SaeOS.Process
