import SaeOS.Process.ProcessRun

/-!
# Exiting, forking and waiting for children

The protocol of `scheduler/lifecycle.rs` between processes that exit, parents that wait for them and
the reaper that retires their threads. Each interrupt-disabled section of the source is one atomic
step, a task is between two sections at a program counter `Pc`, and any task that is not blocked may
take the next step: whatever order the scheduler and the timer choose is one of these runs.

A process has one task, as in the source, where every task is created together with its process. The
scheduler's share is kept to what the protocol sees: which tasks exist, have exited or are blocked on
a queue, and the wake-ups, which give up at an entry whose task is not blocked as the scheduler's
do. The process table is the table of `process.rs` itself, with its history.
-/

namespace SaeOS.Process

inductive WaitError
  | noChild
  deriving DecidableEq, Repr

/-- The check of `wait_for_child`: the child to collect, if one is ready. -/
def ready (t : ProcessTable) (parent : ℕ) : Option ℕ → Except WaitError (Option ℕ)
  | some child =>
    match t.process child with
    | none => .error .noChild
    | some r =>
      if r.parent ≠ some parent then .error .noChild
      else .ok (if r.isFinished then some child else none)
  | none => if !t.hasChildren parent then .error .noChild else .ok (t.exitedChild parent)

/-- The wait queues of the protocol. -/
inductive Queue
  | reaperWait
  | childWait
  deriving DecidableEq, Repr

/-- Who called `release_reaped_spaces`, and so what comes after it. -/
inductive Caller
  | wait (child : ℕ) (status : ℤ)
  | reaper
  deriving DecidableEq, Repr

/-- Where a task is between two sections. -/
inductive Pc
  /-- In none of the operations below. -/
  | running
  /-- `fork`, with the child's address space registered. -/
  | forking (space : ℕ)
  /-- In the loop of `wait_event` on the queue of waiting parents. -/
  | waiting (target : Option ℕ)
  /-- Woken up and about to check again. -/
  | rechecking (target : Option ℕ)
  /-- About to collect a child's status. -/
  | collecting (target : Option ℕ) (child : ℕ)
  /-- The status is taken; the child's waiters are to be removed. -/
  | collected (child : ℕ) (status : ℤ) (waiters : List ℕ)
  /-- About to take the released address spaces. -/
  | taking (caller : Caller)
  /-- Releasing the address spaces taken. -/
  | releasing (spaces : List ℕ) (caller : Caller)
  /-- The reaper, in the loop of `wait_event` on its own queue. -/
  | reaperWaiting
  /-- The reaper, about to take an exited task. -/
  | reaping
  /-- The reaper, with an exited task to remove from its process. -/
  | retiring (task process : ℕ)
  /-- The reaper, about to wake the waiting parents. -/
  | waking
  deriving DecidableEq, Repr

/-- What the protocol sees of a task. -/
structure Task where
  process : ℕ
  space : Option ℕ
  exited : Bool := false
  blockedOn : Option Queue := none
  pc : Pc := .running
  deriving DecidableEq, Repr

/-- The tasks by id. -/
abbrev Tasks : Type := ℕ → Option Task

/-- The protocol's state, with what its callers have been told so far. -/
structure Lifecycle where
  history : History
  tasks : Tasks
  nextTask : ℕ
  nextSpace : ℕ := 1
  exitQueue : List ℕ := []
  childWait : List ℕ := []
  reaperWait : List ℕ := []
  /-- The status each process exited with. -/
  status : ℕ → Option ℤ := fun _ => none
  /-- The statuses returned by `wait_for_child`, with the child. -/
  returned : List (ℕ × ℤ) := []
  /-- The tasks that `wait_for_child` failed for, with what they waited for. -/
  failed : List (ℕ × Option ℕ) := []

/-! ## Wake-ups -/

/-- `wake_task`: a blocked task becomes runnable; its queue entry, if any, stays. -/
def wakeTask (tasks : Tasks) (id : ℕ) : Tasks :=
  match tasks id with
  | none => tasks
  | some t =>
    if t.blockedOn.isSome then Function.update tasks id (some { t with blockedOn := none })
    else tasks

/-- `wake_one`: the front entry goes, and its task, if it is blocked, becomes runnable. -/
def wakeOne : List ℕ → Tasks → List ℕ × Tasks
  | [], tasks => ([], tasks)
  | id :: rest, tasks => (rest, wakeTask tasks id)

/-- `wake_all`: entries go and their tasks become runnable, up to one that is not blocked. -/
def wakeAll : List ℕ → Tasks → List ℕ × Tasks
  | [], tasks => ([], tasks)
  | id :: rest, tasks =>
    match (tasks id).filter fun t => t.blockedOn.isSome with
    | none => (rest, tasks)
    | some t => wakeAll rest (Function.update tasks id (some { t with blockedOn := none }))

namespace Lifecycle

variable (sys : Lifecycle) (id : ℕ) (t : Task)

/-- Move a task to another program counter. -/
def goto (pc : Pc) : Lifecycle :=
  { sys with tasks := Function.update sys.tasks id (some { t with pc }) }

/-- Block a task on a queue. -/
def block (queue : Queue) : Lifecycle :=
  let sys := { sys with tasks := Function.update sys.tasks id (some { t with blockedOn := some queue }) }
  match queue with
  | .childWait => { sys with childWait := sys.childWait ++ [id] }
  | .reaperWait => { sys with reaperWait := sys.reaperWait ++ [id] }

/-- `wake_all(&CHILD_WAIT)`. -/
def wakeParents : Lifecycle :=
  let (childWait, tasks) := wakeAll sys.childWait sys.tasks
  { sys with childWait, tasks }

/-- `wake_one(&REAPER_WAIT)`. -/
def wakeReaper : Lifecycle :=
  let (reaperWait, tasks) := wakeOne sys.reaperWait sys.tasks
  { sys with reaperWait, tasks }

/-- `wait_for_child` fails with `NoChild`. -/
def fail (target : Option ℕ) : Lifecycle :=
  { sys.goto id t .running with failed := sys.failed ++ [(id, target)] }

/-- An operation on the process table. -/
def perform (op : Op) : Lifecycle :=
  { sys with history := sys.history.perform op }

/-! ## The operations -/

/-- `exit_current`, which runs with interrupts off up to the switch to another task. -/
def exitCurrent (status : ℤ) : Lifecycle :=
  let sys := { sys with
    tasks := Function.update sys.tasks id (some { t with exited := true })
    exitQueue := sys.exitQueue ++ [id]
    status := Function.update sys.status t.process (some status) }
  let sys := ((sys.perform (.reparentChildren t.process)).wakeParents).wakeReaper
  let sys := sys.perform (.exit t.process status)
  let waiters := ((sys.history.table.process t.process).map
    ProcessControlBlock.childWaiters).getD []
  { sys with tasks := waiters.foldl wakeTask sys.tasks }

/-- The first section of `fork`: the child's address space is registered. -/
def registerSpace : Lifecycle :=
  { sys.goto id t (.forking sys.nextSpace) with nextSpace := sys.nextSpace + 1 }

/-- The second section of `fork`: the child's task and process are created. -/
def spawnForked (space : ℕ) : Lifecycle :=
  let child := sys.nextTask
  let process := sys.history.table.nextId
  let sys := (sys.goto id t .running).perform (.createChild t.process (some space) child)
  { sys with
    tasks := Function.update sys.tasks child (some { process, space := some space })
    nextTask := child + 1 }

/-- The first check of `wait_for_child`. -/
def waitForChild (target : Option ℕ) (noHang : Bool) : Lifecycle :=
  match ready sys.history.table t.process target with
  | .error _ => sys.fail id t target
  | .ok (some child) => sys.goto id t (.collecting target child)
  | .ok none => if noHang then sys else sys.goto id t (.waiting target)

/-- One round of `wait_event` on the queue of waiting parents. -/
def waitEvent (target : Option ℕ) : Lifecycle :=
  match ready sys.history.table t.process target with
  | .ok none => sys.block id t .childWait
  | _ => sys.goto id t (.rechecking target)

/-- The second check of `wait_for_child`. -/
def recheck (target : Option ℕ) : Lifecycle :=
  match ready sys.history.table t.process target with
  | .ok (some child) => sys.goto id t (.collecting target child)
  | _ => sys.fail id t target

/-- The first section of `collect_child_status`. -/
def collect (target : Option ℕ) (child : ℕ) : Lifecycle :=
  let result := (sys.history.table.waitChild t.process child).1
  let sys := sys.perform (.waitChild t.process child)
  match result with
  | .error _ => sys.fail id t target
  | .ok status =>
    let waiters := ((sys.history.table.process child).map
      ProcessControlBlock.childWaiters).getD []
    sys.goto id t (.collected child status waiters)

/-- The second section of `collect_child_status`. -/
def removeWaiters (child : ℕ) (status : ℤ) (waiters : List ℕ) : Lifecycle :=
  let sys := waiters.foldl (fun sys waiter => sys.perform (.removeChildWaiter child waiter)) sys
  (sys.perform (.reapIfEmpty child)).goto id t (.taking (.wait child status))

/-- The first section of `release_reaped_spaces`. -/
def takeSpaces (caller : Caller) : Lifecycle :=
  let spaces := sys.history.table.takeReleasedSpaces.1
  (sys.perform .takeReleasedSpaces).goto id t (.releasing spaces caller)

/-- The caller of `release_reaped_spaces` goes on. -/
def released : Caller → Lifecycle
  | .wait child status =>
    { sys.goto id t .running with returned := sys.returned ++ [(child, status)] }
  | .reaper => sys.goto id t .waking

/-- The reaper takes an exited task, whose record goes. -/
def reapOne : Lifecycle :=
  match sys.exitQueue with
  | [] => sys.goto id t .reaperWaiting
  | task :: rest =>
    let process := ((sys.tasks task).map Task.process).getD 0
    let sys := sys.goto id t (.retiring task process)
    { sys with exitQueue := rest, tasks := Function.update sys.tasks task none }

/-- The reaper removes the task from its process. -/
def retire (task process : ℕ) : Lifecycle :=
  ((sys.perform (.removeThread process task)).perform (.reapIfEmpty process)).goto id t
    (.taking .reaper)

/-- The next section of the operation a task is in. -/
def advance : Pc → Option Lifecycle
  | .running => none
  | .forking space => some (sys.spawnForked id t space)
  | .waiting target => some (sys.waitEvent id t target)
  | .rechecking target => some (sys.recheck id t target)
  | .collecting target child => some (sys.collect id t target child)
  | .collected child status waiters => some (sys.removeWaiters id t child status waiters)
  | .taking caller => some (sys.takeSpaces id t caller)
  | .releasing (_ :: spaces) caller => some (sys.goto id t (.releasing spaces caller))
  | .releasing [] caller => some (sys.released id t caller)
  | .reaperWaiting =>
    some (if sys.exitQueue.isEmpty then sys.block id t .reaperWait else sys.goto id t .reaping)
  | .reaping => some (sys.reapOne id t)
  | .retiring task process => some (sys.retire id t task process)
  | .waking => some ((sys.wakeParents).goto id t .reaping)

end Lifecycle

/-- What a task that is not blocked may do next. -/
inductive Action
  /-- Start `fork`. -/
  | fork
  /-- Start `wait_for_child`. -/
  | wait (target : Option ℕ) (noHang : Bool)
  /-- Exit. -/
  | exit (status : ℤ)
  /-- Go on with the operation it is in. -/
  | advance
  deriving DecidableEq, Repr

namespace Lifecycle

/-- One section, run by the task `label.1`. Init does not exit: its exit stops the kernel. -/
inductive Step (sys : Lifecycle) : ℕ × Action → Lifecycle → Prop
  | fork {id : ℕ} {t : Task} : sys.tasks id = some t → t.exited = false → t.blockedOn = none →
      t.pc = .running → Step sys (id, .fork) (sys.registerSpace id t)
  | wait {id : ℕ} {t : Task} {target : Option ℕ} {noHang : Bool} : sys.tasks id = some t →
      t.exited = false → t.blockedOn = none → t.pc = .running →
      Step sys (id, .wait target noHang) (sys.waitForChild id t target noHang)
  | exit {id : ℕ} {t : Task} {status : ℤ} : sys.tasks id = some t → t.exited = false →
      t.blockedOn = none → t.pc = .running → t.process ≠ initPid →
      Step sys (id, .exit status) (sys.exitCurrent id t status)
  | advance {id : ℕ} {t : Task} {sys' : Lifecycle} : sys.tasks id = some t → t.exited = false →
      t.blockedOn = none → sys.advance id t t.pc = some sys' → Step sys (id, .advance) sys'

/-- The task ids of init and of the reaper. -/
def initTask : ℕ := 2

/-- The task id of the reaper. -/
def reaperTask : ℕ := 3

/-- The state once the scheduler is set up: the idle task, init and the reaper, each in its own
process. The idle task takes no part. -/
def boot : Lifecycle where
  history :=
    let h : History := { table := (({} : ProcessTable).createInit initTask).2 }
    (h.perform (.create none 1)).perform (.create none reaperTask)
  tasks
    | 2 => some { process := initPid, space := none }
    | 3 => some { process := 3, space := none, pc := .reaperWaiting }
    | _ => none
  nextTask := 4

end Lifecycle

end SaeOS.Process
