import Mathlib.Algebra.Group.Int.Defs
import Mathlib.Algebra.Group.Nat.Defs
import Mathlib.Data.Int.Order.Basic
import Mathlib.Order.Lattice
import SaeOS.Lib.Vec

/-!
# The single-CPU EEVDF scheduler core

The bookkeeping of `task/scheduler.rs`: task slots with an id index and a free-slot list, the run
queue, the exit queue and the sleepers, and the cached sums behind the weighted average virtual
time. Callers pass the current time.

Task ids, ticks and nanoseconds are natural numbers and virtual time is an integer: the source's
`u64` id counter and `i128` virtual time do not run out in any run the machine can make. Integer
division truncates as the source's does. The fields of a task that no scheduling decision reads
(stacks, register contexts, FPU state, the owning process, the name) are left out.

An operation that may fail returns its result together with the scheduler it leaves behind, also on
an error; a panic is `none`.
-/

namespace SaeOS.Task

/-! ## Entities -/

/-- `NICE_0_WEIGHT`. -/
def nice0Weight : ℕ := 1024

/-- `BASE_SLICE_NS`: the length of one request. -/
def baseSliceNs : ℕ := 3000000

/-- `LAG_LIMIT`: the bound on carried lag. -/
def lagLimit : ℤ := 2 * baseSliceNs

/-- `MIN_NICE`. -/
def minNice : ℤ := -20

/-- `MAX_NICE`. -/
def maxNice : ℤ := 19

/-- `NICE_TO_WEIGHT`. -/
def niceWeights : List ℕ :=
  [88761, 71755, 56483, 46273, 36291, 29154, 23254, 18705, 14949, 11916, 9548, 7620, 6100, 4904,
    3906, 3121, 2501, 1991, 1586, 1277, 1024, 820, 655, 526, 423, 335, 272, 215, 172, 137, 110, 87,
    70, 56, 45, 36, 29, 23, 18, 15]

/-- Clamp a nice value to its range. -/
def clampNice (nice : ℤ) : ℤ :=
  max minNice (min nice maxNice)

/-- `nice_to_weight`. -/
def niceToWeight (nice : ℤ) : ℕ :=
  niceWeights.getD (clampNice nice - minNice).toNat 0

/-- Per-task EEVDF state. -/
structure EevdfEntity where
  virtualRuntime : ℤ := 0
  virtualDeadline : ℤ := 0
  weight : ℕ := nice0Weight
  nice : ℤ := 0
  execRuntime : ℕ := 0
  lag : ℤ := 0
  enqueueTime : ℕ := 0
  deriving DecidableEq, Repr

namespace EevdfEntity

/-- Virtual length of one request at this weight. -/
def weightedSlice (e : EevdfEntity) : ℤ :=
  ((baseSliceNs * nice0Weight : ℕ) : ℤ).tdiv (max e.weight 1 : ℕ)

/-- Virtual time that `ran` real nanoseconds cost. -/
def virtualDelta (e : EevdfEntity) (ran : ℕ) : ℤ :=
  ((ran * nice0Weight : ℕ) : ℤ).tdiv (max e.weight 1 : ℕ)

/-- Charge `ran` real nanoseconds; `true` when the current request completed, in which case a new
deadline is issued. -/
def account (e : EevdfEntity) (ran : ℕ) : Bool × EevdfEntity :=
  let e := { e with
    execRuntime := min (e.execRuntime + ran) (2 ^ 64 - 1)
    virtualRuntime := e.virtualRuntime + e.virtualDelta ran }
  if e.virtualRuntime ≥ e.virtualDeadline then
    (true, { e with virtualDeadline := e.virtualRuntime + e.weightedSlice })
  else (false, e)

/-- The entity with another nice value: it keeps its virtual runtime, its share and deadline
change. -/
def renice (e : EevdfEntity) (nice : ℤ) : EevdfEntity :=
  let e := { e with nice := clampNice nice, weight := niceToWeight (clampNice nice) }
  { e with virtualDeadline := e.virtualRuntime + e.weightedSlice }

/-- Whether the entity has not run ahead of the average. -/
def isEligible (e : EevdfEntity) (average : ℤ) : Bool :=
  e.virtualRuntime ≤ average

end EevdfEntity

/-! ## Tasks -/

/-- Why a task is blocked. -/
inductive BlockReason
  | sleepUntil (deadline : ℕ)
  | waitQueue (id : ℕ)
  | waitingForIo (id : ℕ)
  | waitingForChild (process : ℕ)
  deriving DecidableEq, Repr

inductive TaskState
  | new
  | ready
  | running
  | blocked
  | exited
  deriving DecidableEq, Repr

namespace TaskState

/-- Ready or running. -/
def isRunnable : TaskState → Bool
  | ready | running => true
  | _ => false

/-- Exited. -/
def isTerminal : TaskState → Bool
  | exited => true
  | _ => false

/-- The allowed transitions. -/
def canTransition : TaskState → TaskState → Bool
  | new, ready => true
  | ready, running => true
  | running, ready | running, blocked | running, exited => true
  | blocked, ready => true
  | _, _ => false

end TaskState

inductive ResumeKind
  | voluntary
  | interrupt
  deriving DecidableEq, Repr

inductive SchedulerError
  | unknownTask
  | invalidTransition
  | alreadyQueued
  | notBlocked
  | cannotReapCurrent
  | invalidAddressSpace
  deriving DecidableEq, Repr

structure TaskControlBlock where
  taskId : ℕ
  state : TaskState := .new
  blockReason : Option BlockReason := none
  exitStatus : Option ℤ := none
  waitLink : Option ℕ := none
  interruptStackPointer : ℕ := 0
  resumeKind : ResumeKind := .voluntary
  schedulerEntity : EevdfEntity := {}
  dispatchedAt : ℕ := 0
  sliceStart : ℕ := 0
  isIdle : Bool := false
  deriving DecidableEq, Repr

/-- Move to another state, if allowed. -/
def TaskControlBlock.transition (t : TaskControlBlock) (next : TaskState) :
    Except SchedulerError TaskControlBlock :=
  if t.state.canTransition next then .ok { t with state := next } else .error .invalidTransition

/-- A wait queue, owned by whoever waits. -/
structure WaitQueue where
  id : ℕ
  tasks : List ℕ
  deriving DecidableEq, Repr

/-! ## The scheduler -/

/-- The run-queue ordering strategy. -/
inductive PolicyKind
  | eevdf
  | fifo
  | roundRobin
  deriving DecidableEq, Repr

structure SchedulerStats where
  contextSwitches : ℕ := 0
  timerPreemptions : ℕ := 0
  voluntaryYields : ℕ := 0
  tasksWoken : ℕ := 0
  tasksReaped : ℕ := 0
  idleTicks : ℕ := 0
  deriving DecidableEq, Repr

/-- `saturating_add(1)` on a `u64` counter. -/
def saturatingSucc (n : ℕ) : ℕ :=
  min (n + 1) (2 ^ 64 - 1)

/-- The scheduler. `freeSlots` is kept with the slot handed out next in front, and `sleepers` in
descending order with the next to wake at the end. -/
structure Scheduler where
  tasks : List (Option TaskControlBlock) := []
  freeSlots : List ℕ := []
  index : ℕ → Option ℕ := fun _ => none
  runQueue : List ℕ := []
  exitQueue : List ℕ := []
  nextTaskId : ℕ := 1
  current : Option ℕ := none
  idle : Option ℕ := none
  sleepers : List (ℕ × ℕ) := []
  sumWeight : ℤ := 0
  sumWeightedRuntime : ℤ := 0
  average : ℤ := 0
  wakeupPreempt : Bool := false
  clock : ℕ := 0
  policy : PolicyKind := .eevdf
  stats : SchedulerStats := {}

/-- The result of a fallible operation, with the scheduler left behind. -/
abbrev Outcome (α : Type) : Type := Except SchedulerError α × Scheduler

namespace Scheduler

/-- `with_policy`: an empty scheduler. -/
def withPolicy (policy : PolicyKind) : Scheduler :=
  { policy }

/-- The task with this id. -/
def task (s : Scheduler) (id : ℕ) : Option TaskControlBlock :=
  (s.index id).bind fun slot => (s.tasks[slot]?).join

/-- Write a task back through `task_mut`. -/
def setTask (s : Scheduler) (id : ℕ) (t : TaskControlBlock) : Scheduler :=
  match s.index id with
  | none => s
  | some slot => { s with tasks := s.tasks.set slot (some t) }

/-- Recompute the cached average, unless nothing is runnable. -/
def refreshAverage (s : Scheduler) : Scheduler :=
  if s.sumWeight > 0 then { s with average := s.sumWeightedRuntime.tdiv s.sumWeight } else s

/-- `allocate_id`. -/
def allocateId (s : Scheduler) : ℕ × Scheduler :=
  (s.nextTaskId, { s with nextTaskId := s.nextTaskId + 1 })

/-- Store a new task in a free slot, or in a new one. -/
def insertTask (s : Scheduler) (t : TaskControlBlock) : Scheduler :=
  match s.freeSlots with
  | slot :: rest =>
    { s with
      tasks := s.tasks.set slot (some t)
      freeSlots := rest
      index := Function.update s.index t.taskId (some slot) }
  | [] =>
    { s with
      tasks := s.tasks ++ [some t]
      index := Function.update s.index t.taskId (some s.tasks.length) }

/-- Whether the running task should give way to a task that joined with this runtime and
deadline. -/
def shouldPreempt (s : Scheduler) (runtime deadline : ℤ) : Bool :=
  match s.current with
  | none => false
  | some current =>
    s.idle != some current && decide (runtime ≤ s.average) &&
      match s.task current with
      | none => false
      | some t => deadline < t.schedulerEntity.virtualDeadline

/-- The entity of a task that becomes runnable: placed so that its lag is intact. -/
def placedEntity (s : Scheduler) (e : EevdfEntity) : EevdfEntity :=
  let placedLag :=
    if s.sumWeight > 0 then (e.lag * (s.sumWeight + e.weight)).tdiv s.sumWeight else e.lag
  let e := { e with virtualRuntime := s.average - placedLag, lag := 0 }
  { e with virtualDeadline := e.virtualRuntime + e.weightedSlice, enqueueTime := s.clock }

/-- Add a task that just became runnable to the run queue and the sums. -/
def join (s : Scheduler) (id : ℕ) : Scheduler :=
  match s.task id with
  | none => s
  | some t =>
    let e := s.placedEntity t.schedulerEntity
    let s := s.setTask id { t with schedulerEntity := e }
    let s := refreshAverage { s with
      sumWeight := s.sumWeight + e.weight
      sumWeightedRuntime := s.sumWeightedRuntime + e.weight * e.virtualRuntime }
    let s := { s with runQueue := s.runQueue ++ [id] }
    if s.shouldPreempt e.virtualRuntime e.virtualDeadline then { s with wakeupPreempt := true }
    else s

/-- Remove a task that stopped being runnable from the sums, remembering its lag. -/
def leave (s : Scheduler) (id : ℕ) : Scheduler :=
  match s.task id with
  | none => s
  | some t =>
    let e := { t.schedulerEntity with
      lag := max (-lagLimit) (min (s.average - t.schedulerEntity.virtualRuntime) lagLimit) }
    let s := s.setTask id { t with schedulerEntity := e }
    refreshAverage { s with
      sumWeight := s.sumWeight - e.weight
      sumWeightedRuntime := s.sumWeightedRuntime - e.weight * e.virtualRuntime }

/-- Charge the CPU time used since the last charge; `true` when the task's request completed. -/
def charge (s : Scheduler) (id now : ℕ) : Bool × Scheduler :=
  match s.task id with
  | none => (false, s)
  | some t =>
    let ran := now - t.dispatchedAt
    let t := { t with dispatchedAt := now }
    if t.isIdle then (false, s.setTask id t)
    else
      let before := t.schedulerEntity.virtualRuntime
      let (completed, e) := t.schedulerEntity.account ran
      let s := s.setTask id { t with schedulerEntity := e }
      (completed, refreshAverage { s with
        sumWeightedRuntime := s.sumWeightedRuntime + e.weight * (e.virtualRuntime - before) })

/-- `is_in_runnable_set`. -/
def isInRunnableSet (s : Scheduler) (id : ℕ) : Bool :=
  match s.task id with
  | none => false
  | some t => !t.isIdle && t.state.isRunnable

/-- Create a task; it joins the runnable set. -/
def spawn (s : Scheduler) : ℕ × Scheduler :=
  let (id, s) := s.allocateId
  (id, (s.insertTask { taskId := id, state := .ready }).join id)

/-- Create a kernel task, or the idle task, which is in no queue. -/
def spawnKernelTask (s : Scheduler) (isIdle : Bool) : ℕ × Scheduler :=
  let (id, s) := s.allocateId
  let s := s.insertTask { taskId := id, state := .ready, isIdle }
  if isIdle then (id, { s with idle := some id }) else (id, s.join id)

/-- Change a task's nice value. -/
def setNice (s : Scheduler) (id : ℕ) (nice : ℤ) : Outcome Unit :=
  let runnable := s.isInRunnableSet id
  match s.task id with
  | none => (.error .unknownTask, s)
  | some t =>
    if t.state.isTerminal then (.error .invalidTransition, s)
    else
      let oldWeight := t.schedulerEntity.weight
      let e := t.schedulerEntity.renice nice
      let s := s.setTask id { t with schedulerEntity := e }
      if runnable then
        (.ok (), refreshAverage { s with
          sumWeight := s.sumWeight + ((e.weight : ℤ) - oldWeight)
          sumWeightedRuntime :=
            s.sumWeightedRuntime + ((e.weight : ℤ) - oldWeight) * e.virtualRuntime })
      else (.ok (), s)

/-- Timer hook: charge the running task and report whether it should be preempted. -/
def tick (s : Scheduler) (now : ℕ) : Bool × Scheduler :=
  let s := { s with clock := now }
  let queued := !s.runQueue.isEmpty
  match s.current.filter (fun current => s.idle != some current) with
  | none => (queued, { s with stats.idleTicks := saturatingSucc s.stats.idleTicks })
  | some current =>
    let (completed, s) := s.charge current now
    let wakeup := s.wakeupPreempt
    let s := { s with wakeupPreempt := false }
    let due := match s.policy with
      | .fifo => false
      | .roundRobin =>
        match s.task current with
        | none => false
        | some t => now - t.sliceStart ≥ baseSliceNs
      | .eevdf => completed || wakeup
    (queued && due, s)

/-- Comparison of `(VirtualTime, TaskId)` keys. -/
def keyLt (a b : ℤ × ℕ) : Bool :=
  a.1 < b.1 || (a.1 == b.1 && a.2 < b.2)

/-- Replace the candidate by a smaller key. -/
def better (candidate : Option (ℕ × ℤ × ℕ)) (i : ℕ) (key : ℤ × ℕ) : Option (ℕ × ℤ × ℕ) :=
  match candidate with
  | none => some (i, key)
  | some (j, best) => if keyLt key best then some (i, key) else some (j, best)

/-- The scan of `pick_next` over the run queue from position `i` on: the best eligible task and the
least-runtime fallback, each with its position. -/
def scanQueue (s : Scheduler) : List ℕ → ℕ → Option (ℕ × ℤ × ℕ) → Option (ℕ × ℤ × ℕ) →
    Option (ℕ × ℤ × ℕ) × Option (ℕ × ℤ × ℕ)
  | [], _, best, fallback => (best, fallback)
  | id :: rest, i, best, fallback =>
    match s.task id with
    | none => scanQueue s rest (i + 1) best fallback
    | some t =>
      let e := t.schedulerEntity
      let key : ℤ × ℕ := match s.policy with
        | .eevdf => (e.virtualDeadline, id)
        | .fifo | .roundRobin => (e.enqueueTime, id)
      let eligible := s.policy != .eevdf || e.isEligible s.average
      scanQueue s rest (i + 1) (if eligible then better best i key else best)
        (better fallback i (e.virtualRuntime, id))

/-- Remove and return the next task to run, or the idle task. -/
def pickNext (s : Scheduler) : Option ℕ × Scheduler :=
  if s.runQueue.isEmpty then (s.idle, s)
  else
    let (best, fallback) := s.scanQueue s.runQueue 0 none none
    match best.or fallback with
    | none => (none, s)
    | some (i, _) => (s.runQueue[i]?, { s with runQueue := Vec.swapRemove s.runQueue i })

/-- Dispatch the next task. -/
def switchToNext (s : Scheduler) (previous : Option ℕ) (now : ℕ) : Outcome (Option ℕ) :=
  let (next, s) := ({ s with wakeupPreempt := false }).pickNext
  let dispatched : Outcome Unit :=
    match next with
    | none => (.ok (), s)
    | some id =>
      match s.task id with
      | none => (.error .unknownTask, s)
      | some t =>
        match t.transition .running with
        | .error e => (.error e, s)
        | .ok t => (.ok (), s.setTask id { t with dispatchedAt := now, sliceStart := now })
  match dispatched with
  | (.error e, s) => (.error e, s)
  | (.ok (), s) =>
    let s := { s with current := next }
    if next ≠ previous then
      (.ok next, { s with stats.contextSwitches := saturatingSucc s.stats.contextSwitches })
    else (.ok next, s)

/-- The first half of `schedule`: a running task goes back to the run queue. -/
def requeueCurrent (s : Scheduler) (now : ℕ) : Outcome Unit :=
  match s.current with
  | none => (.ok (), s)
  | some current =>
    match s.task current with
    | none => (.error .unknownTask, s)
    | some t =>
      if t.state = .running then
        let s := (s.charge current now).2
        match s.task current with
        | none => (.error .unknownTask, s)
        | some t =>
          match t.transition .ready with
          | .error e => (.error e, s)
          | .ok t =>
            if t.isIdle then (.ok (), s.setTask current t)
            else
              let s := s.setTask current { t with schedulerEntity.enqueueTime := s.clock }
              (.ok (), { s with runQueue := s.runQueue ++ [current] })
      else (.ok (), s)

/-- Put the running task back on the run queue, if still runnable, and dispatch the next one. -/
def schedule (s : Scheduler) (now : ℕ) : Outcome (Option ℕ) :=
  let s := { s with clock := now }
  let previous := s.current
  match s.requeueCurrent now with
  | (.error e, s) => (.error e, s)
  | (.ok (), s) => ({ s with current := none }).switchToNext previous now

/-- Save the running task's interrupt frame and select the next task; panics when there is none. -/
def preempt (s : Scheduler) (stackPointer now : ℕ) : Option (ℕ × Scheduler) :=
  let previous := s.current
  let s := match previous with
    | none => s
    | some current =>
      match s.task current with
      | none => s
      | some t =>
        s.setTask current { t with interruptStackPointer := stackPointer, resumeKind := .interrupt }
  let s := (s.schedule now).2
  (s.current.or s.idle).map fun next =>
    if some next ≠ previous then
      (next, { s with stats.timerPreemptions := saturatingSucc s.stats.timerPreemptions })
    else (next, s)

/-- `yield_current`. -/
def yieldCurrent (s : Scheduler) (now : ℕ) : Outcome (Option ℕ) :=
  s.schedule now

/-- `prepare_voluntary_yield`: the running task and its successor. -/
def prepareVoluntaryYield (s : Scheduler) (now : ℕ) : Outcome (ℕ × ℕ) :=
  match s.current with
  | none => (.error .unknownTask, s)
  | some current =>
    match s.task current with
    | none => (.error .unknownTask, s)
    | some t =>
      if t.state ≠ .running then (.error .invalidTransition, s)
      else
        match (s.setTask current { t with resumeKind := .voluntary }).schedule now with
        | (.error e, s) => (.error e, s)
        | (.ok none, s) => (.error .unknownTask, s)
        | (.ok (some next), s) =>
          (.ok (current, next),
            { s with stats.voluntaryYields := saturatingSucc s.stats.voluntaryYields })

/-- `stop_current` once the clock is set. -/
def stopRunning (s : Scheduler) (state : TaskState) (now : ℕ) : Outcome ℕ :=
  match s.current with
  | none => (.error .unknownTask, s)
  | some current =>
    match s.task current with
    | none => (.error .unknownTask, s)
    | some t =>
      if t.state ≠ .running then (.error .invalidTransition, s)
      else
        let s := ((s.charge current now).2).leave current
        match s.task current with
        | none => (.error .unknownTask, s)
        | some t =>
          let t := { t with resumeKind := .voluntary }
          match t.transition state with
          | .error e => (.error e, s.setTask current t)
          | .ok t => (.ok current, { s.setTask current t with current := none })

/-- Charge and remove the running task from the runnable set, moving it to `state`. -/
def stopCurrent (s : Scheduler) (state : TaskState) (now : ℕ) : Outcome ℕ :=
  ({ s with clock := now }).stopRunning state now

/-- The common end of `sleep`, `block` and `exit`: edit the stopped task, run `queue` on the
scheduler and dispatch a successor. -/
def stopThen (s : Scheduler) (state : TaskState) (now : ℕ)
    (edit : TaskControlBlock → TaskControlBlock) (queue : ℕ → Scheduler → Scheduler) :
    Outcome (Option ℕ) :=
  match s.stopCurrent state now with
  | (.error e, s) => (.error e, s)
  | (.ok current, s) =>
    match s.task current with
    | none => (.error .unknownTask, s)
    | some t => (queue current (s.setTask current (edit t))).switchToNext (some current) now

/-- Lexicographic order on `(Tick, TaskId)` pairs. -/
def sleeperLt (a b : ℕ × ℕ) : Bool :=
  a.1 < b.1 || (a.1 == b.1 && a.2 < b.2)

/-- Insert a sleeper at its place in the descending order. -/
def insertSleeper (sleepers : List (ℕ × ℕ)) (key : ℕ × ℕ) : List (ℕ × ℕ) :=
  sleepers.takeWhile (sleeperLt key) ++ key :: sleepers.dropWhile (sleeperLt key)

/-- `sleep_current_until`. -/
def sleepCurrentUntil (s : Scheduler) (deadline now : ℕ) : Outcome (Option ℕ) :=
  s.stopThen .blocked now (fun t => { t with blockReason := some (.sleepUntil deadline) })
    fun current s => { s with sleepers := insertSleeper s.sleepers (deadline, current) }

/-- `block_current`, with the wait queue it leaves behind. -/
def blockCurrent (s : Scheduler) (reason : BlockReason) (queue : WaitQueue) (now : ℕ) :
    Outcome (Option ℕ) × WaitQueue :=
  (s.stopThen .blocked now
    (fun t => { t with blockReason := some reason, waitLink := some queue.id }) fun _ s => s,
    match (s.stopCurrent .blocked now).1 with
    | .ok current => { queue with tasks := queue.tasks ++ [current] }
    | .error _ => queue)

/-- `exit_current`. -/
def exitCurrent (s : Scheduler) (status : ℤ) (now : ℕ) : Outcome (Option ℕ) :=
  s.stopThen .exited now (fun t => { t with exitStatus := some status, blockReason := none })
    fun current s => { s with exitQueue := s.exitQueue ++ [current] }

/-- Blocked to ready, rejoining the runnable set with its saved lag. -/
def makeReady (s : Scheduler) (id : ℕ) : Scheduler :=
  let s := match s.task id with
    | none => s
    | some t =>
      let t := match t.transition .ready with
        | .error _ => t
        | .ok t => t
      s.setTask id { t with blockReason := none, waitLink := none }
  let s := s.join id
  { s with stats.tasksWoken := saturatingSucc s.stats.tasksWoken }

/-- `wake_task`. -/
def wakeTask (s : Scheduler) (id : ℕ) : Outcome Unit :=
  match s.task id with
  | none => (.error .unknownTask, s)
  | some t => if t.state ≠ .blocked then (.error .notBlocked, s) else (.ok (), s.makeReady id)

/-- `wake_one`, with the wait queue it leaves behind. -/
def wakeOne (s : Scheduler) (queue : WaitQueue) : Outcome (Option ℕ) × WaitQueue :=
  match queue.tasks with
  | [] => ((.ok none, s), queue)
  | id :: rest =>
    match s.wakeTask id with
    | (.error e, s) => ((.error e, s), { queue with tasks := rest })
    | (.ok (), s) => ((.ok (some id), s), { queue with tasks := rest })

/-- `wake_all`, over the tasks of the queue in order. -/
def wakeAll (s : Scheduler) (queue : WaitQueue) : ℕ → ℕ → Outcome ℕ × WaitQueue
  | 0, count => ((.ok count, s), queue)
  | budget + 1, count =>
    match s.wakeOne queue with
    | ((.error e, s), queue) => ((.error e, s), queue)
    | ((.ok none, s), queue) => ((.ok count, s), queue)
    | ((.ok (some _), s), queue) => wakeAll s queue budget (count + 1)

/-- `cancel_wait`, with the wait queue it leaves behind. -/
def cancelWait (s : Scheduler) (id : ℕ) (queue : WaitQueue) : Outcome Unit × WaitQueue :=
  match s.task id with
  | none => ((.error .unknownTask, s), queue)
  | some t =>
    if t.state ≠ .blocked || t.waitLink ≠ some queue.id then ((.error .notBlocked, s), queue)
    else if queue.tasks.contains id then
      ((.ok (), s.makeReady id), { queue with tasks := queue.tasks.erase id })
    else ((.error .notBlocked, s), queue)

/-- Whether a popped sleeper still sleeps until this deadline. -/
def stillSleeping (s : Scheduler) (deadline id : ℕ) : Bool :=
  match s.task id with
  | none => false
  | some t => t.state == .blocked && t.blockReason == some (.sleepUntil deadline)

/-- The loop of `wake_expired`, at most `budget` sleepers. -/
def wakeExpiredLoop (now : ℕ) : ℕ → ℕ → Scheduler → ℕ × Scheduler
  | 0, woken, s => (woken, s)
  | budget + 1, woken, s =>
    match s.sleepers.getLast? with
    | none => (woken, s)
    | some (deadline, id) =>
      if deadline > now then (woken, s)
      else
        let s := { s with sleepers := s.sleepers.dropLast }
        if s.stillSleeping deadline id then wakeExpiredLoop now budget (woken + 1) (s.makeReady id)
        else wakeExpiredLoop now budget woken s

/-- Wake every sleeper whose deadline has passed. -/
def wakeExpired (s : Scheduler) (now : ℕ) : ℕ × Scheduler :=
  wakeExpiredLoop now s.sleepers.length 0 s

/-- Remove the task at the front of the exit queue. -/
def reapOne (s : Scheduler) : Outcome (Option TaskControlBlock) :=
  match s.exitQueue with
  | [] => (.ok none, s)
  | id :: rest =>
    if s.current = some id then (.error .cannotReapCurrent, s)
    else
      let s := { s with exitQueue := rest }
      match s.index id with
      | none => (.error .unknownTask, s)
      | some slot =>
        let s := { s with index := Function.update s.index id none }
        match (s.tasks[slot]?).join with
        | none => (.error .unknownTask, s)
        | some t =>
          (.ok (some t), { s with
            tasks := s.tasks.set slot none
            freeSlots := slot :: s.freeSlots
            stats.tasksReaped := saturatingSucc s.stats.tasksReaped })

end Scheduler

end SaeOS.Task
