import SaeOS.Task.SchedulerEffects

/-!
# Resuming tasks

The switch paths of `scheduler/dispatch.rs`, `scheduler/wait.rs` and `scheduler/lifecycle.rs` on top
of the scheduler core: what is saved for the task that leaves the CPU, which of its two saved
contexts the task that gets the CPU is resumed from, and what is loaded with it.

The scheduler's record of a task has the flag `resumeKind` and the pointer to its interrupt frame;
the fields that only a switch reads are kept beside it in a `TaskContext`, by task id. An interrupt
frame lives in memory, at the address the pointer names. What a task has in its registers when it is
switched out is whatever it computed, so the operations take it as an argument.

The log says what happened, whether or not it was meant to: a context is saved when a task is created
or switched out, and resumed when a task is dispatched. Every section runs with interrupts off and is
one step; a failed assertion or `expect` stops the kernel and is `none`.
-/

namespace SaeOS.Task

/-! ## Contexts -/

/-- What `switch_context` saves: the callee-saved registers at a call boundary. -/
structure VoluntaryContext where
  stackPointer : ℕ := 0
  instructionPointer : ℕ := 0
  rbx : ℕ := 0
  rbp : ℕ := 0
  r12 : ℕ := 0
  r13 : ℕ := 0
  r14 : ℕ := 0
  r15 : ℕ := 0
  rflags : ℕ := 0x2
  deriving DecidableEq, Repr

/-- `UserFrame`: what an interrupt or a system call pushes on the kernel stack. -/
structure UserFrame where
  r15 : ℕ := 0
  r14 : ℕ := 0
  r13 : ℕ := 0
  r12 : ℕ := 0
  r11 : ℕ := 0
  r10 : ℕ := 0
  r9 : ℕ := 0
  r8 : ℕ := 0
  rdi : ℕ := 0
  rsi : ℕ := 0
  rbp : ℕ := 0
  rdx : ℕ := 0
  rcx : ℕ := 0
  rbx : ℕ := 0
  rax : ℕ := 0
  rip : ℕ := 0
  cs : ℕ := 0
  rflags : ℕ := 0
  rsp : ℕ := 0
  ss : ℕ := 0
  deriving DecidableEq, Repr

/-- `INTERRUPT_FRAME_BYTES`, which is also the size of a `UserFrame`. -/
def interruptFrameBytes : ℕ := 20 * 8

/-- The bytes of an `FXSAVE` area. -/
abbrev FpuState : Type := List UInt8

/-- `FpuState::INITIAL`. -/
def FpuState.initial : FpuState :=
  ((((List.replicate 512 0).set 0 0x7f).set 1 0x03).set 24 0x80).set 25 0x1f

structure KernelStack where
  base : ℕ := 0
  top : ℕ := 0
  deriving DecidableEq, Repr

/-- The fields of a task that only a switch reads. -/
structure TaskContext where
  cpuContext : VoluntaryContext := {}
  kernelStack : KernelStack := {}
  addressSpace : Option ℕ := none
  fpu : FpuState := FpuState.initial
  fsBase : ℕ := 0
  deriving DecidableEq, Repr

/-- What the CPU needs to run a task besides its registers. `fpu` is the task whose area the pointer
refers to. -/
structure SwitchTarget where
  addressSpace : Option ℕ
  kernelStackTop : ℕ
  fpu : ℕ
  fsBase : ℕ
  deriving DecidableEq, Repr

/-- What is loaded on the CPU besides its registers. -/
structure Cpu where
  addressSpace : Option ℕ := none
  kernelStackTop : ℕ := 0
  fpu : FpuState := FpuState.initial
  fsBase : ℕ := 0
  deriving DecidableEq, Repr

/-- A context a task can be resumed from. -/
inductive ResumeContext
  | voluntary (context : VoluntaryContext)
  | interrupt (frame : UserFrame)
  deriving DecidableEq, Repr

/-! ## The machine -/

/-- What the log records, with the floating-point registers of the task. -/
inductive Event
  | saved (task : ℕ) (context : ResumeContext) (fpu : FpuState)
  | resumed (task : ℕ) (context : ResumeContext) (fpu : FpuState)
  | exited (task : ℕ)
  deriving DecidableEq, Repr

/-- The task an event is about. -/
def Event.task : Event → ℕ
  | .saved task _ _ => task
  | .resumed task _ _ => task
  | .exited task => task

/-- The latest event of a task. -/
def lastEvent (log : List Event) (task : ℕ) : Option Event :=
  (log.filter fun e => e.task == task).getLast?

/-- The scheduler, the tasks' contexts, the memory that holds interrupt frames, and the CPU. -/
structure Machine where
  scheduler : Scheduler
  contexts : ℕ → TaskContext := fun _ => {}
  frames : ℕ → UserFrame := fun _ => {}
  cpu : Cpu := {}
  log : List Event := []

/-- A switch that was decided under the scheduler lock and is still to be made. -/
inductive Dispatch
  | voluntary (current next : ℕ) (target : SwitchTarget)
  | interrupt (current next stackPointer : ℕ) (target : SwitchTarget)
  deriving DecidableEq, Repr

namespace Machine

variable (m : Machine)

/-- `switch_target`. -/
def switchTarget (task : ℕ) : SwitchTarget where
  addressSpace := (m.contexts task).addressSpace
  kernelStackTop := (m.contexts task).kernelStack.top
  fpu := task
  fsBase := (m.contexts task).fsBase

/-- Note an event. -/
def note (e : Event) : Machine :=
  { m with log := m.log ++ [e] }

/-- Write a task's `resume_kind`. -/
def setResumeKind (task : ℕ) (kind : ResumeKind) : Machine :=
  match m.scheduler.task task with
  | none => m
  | some t => { m with scheduler := m.scheduler.setTask task { t with resumeKind := kind } }

/-- Load everything the incoming task needs besides its registers. The outgoing task's
floating-point registers are saved first, unless it never runs again. -/
def prepareSwitch (outgoing : Option ℕ) (target : SwitchTarget) : Machine :=
  let contexts := match outgoing with
    | none => m.contexts
    | some task => Function.update m.contexts task { m.contexts task with fpu := m.cpu.fpu }
  { m with
    contexts
    cpu := {
      addressSpace := target.addressSpace
      kernelStackTop := target.kernelStackTop
      fpu := (contexts target.fpu).fpu
      fsBase := target.fsBase } }

/-- The assembly of a switch saves the outgoing call-boundary continuation. -/
def saveContinuation (task : ℕ) (continuation : VoluntaryContext) : Machine :=
  { m with contexts :=
    Function.update m.contexts task { m.contexts task with cpuContext := continuation } }

/-- The CPU goes on with a task, from a context. -/
def resume (task : ℕ) (context : ResumeContext) : Machine :=
  m.note (.resumed task context m.cpu.fpu)

/-- Resume a task from its voluntary context. -/
def resumeVoluntary (task : ℕ) : Machine :=
  m.resume task (.voluntary (m.contexts task).cpuContext)

/-- Resume a task from the interrupt frame at an address. -/
def resumeInterrupt (task stackPointer : ℕ) : Machine :=
  m.resume task (.interrupt (m.frames stackPointer))

/-- Decide a switch. An interrupt frame is used once, so the flag that selects it is reset. -/
def dispatchFor (current next : ℕ) : Option (Dispatch × Machine) :=
  match m.scheduler.task current, m.scheduler.task next with
  | some _, some t =>
    match t.resumeKind with
    | .voluntary => some (.voluntary current next (m.switchTarget next), m)
    | .interrupt => some (.interrupt current next t.interruptStackPointer (m.switchTarget next),
        m.setResumeKind next .voluntary)
  | _, _ => none

/-- Make a switch that the outgoing task comes back from. -/
def switchDispatch (continuation : VoluntaryContext) : Dispatch → Machine
  | .voluntary current next target =>
    ((m.prepareSwitch (some current) target).saveContinuation current continuation).resumeVoluntary
      next
  | .interrupt current next stackPointer target =>
    ((m.prepareSwitch (some current) target).saveContinuation current continuation).resumeInterrupt
      next stackPointer

/-- The switch at the end of `exit_current`, which the outgoing task does not come back from. -/
def switchExited (continuation : VoluntaryContext) : Dispatch → Machine
  | .voluntary current next target =>
    ((m.prepareSwitch none target).saveContinuation current continuation).resumeVoluntary next
  | .interrupt _ next stackPointer target =>
    (m.prepareSwitch none target).resumeInterrupt next stackPointer

/-! ## The switch paths -/

/-- A frame at this address lies inside the stack. -/
def frameInside (stack : KernelStack) (stackPointer : ℕ) : Bool :=
  stack.base ≤ stackPointer && stackPointer + interruptFrameBytes ≤ stack.top

/-- The assertion on the context that the timer path selects. -/
def contextInside (stack : KernelStack) (t : TaskControlBlock) (context : VoluntaryContext) : Bool :=
  match t.resumeKind with
  | .voluntary => stack.base ≤ context.stackPointer && context.stackPointer ≤ stack.top
  | .interrupt => frameInside stack t.interruptStackPointer

/-- The end of the timer path: go on with the selected task. -/
def timerDispatch (previous : Option ℕ) (next : ℕ) : Option Machine :=
  match m.scheduler.task next with
  | none => none
  | some t =>
    let context := m.contexts next
    if contextInside context.kernelStack t context.cpuContext then
      let target := m.switchTarget next
      match t.resumeKind with
      | .interrupt => some (((m.setResumeKind next .voluntary).prepareSwitch previous
          target).resumeInterrupt next t.interruptStackPointer)
      | .voluntary => some ((m.prepareSwitch previous target).resumeVoluntary next)
    else none

/-- `saeos_timer_interrupt_rust`, after the entry stub has pushed `frame` at `stackPointer`. Without a
switch the interrupted task goes on from that frame. -/
def timerInterrupt (frame : UserFrame) (stackPointer now ticks : ℕ) (requested : Bool) :
    Option Machine :=
  let m := { m with frames := Function.update m.frames stackPointer frame }
  let (due, s) := (m.scheduler.wakeExpired ticks).2.tick now
  if !(due || requested) then some { m with scheduler := s }
  else
    let previous := s.current
    if previous.all fun current => frameInside (m.contexts current).kernelStack stackPointer then
      let log := m.log ++ (previous.map fun current =>
        Event.saved current (.interrupt frame) m.cpu.fpu).toList
      match s.preempt stackPointer now with
      | none => none
      | some (next, s) => { m with scheduler := s, log }.timerDispatch previous next
    else none

/-- `yield_now`. -/
def yieldNow (continuation : VoluntaryContext) (now : ℕ) : Option Machine :=
  match m.scheduler.prepareVoluntaryYield now with
  | (.error _, _) => none
  | (.ok (current, next), s) =>
    let m := note { m with scheduler := s } (.saved current (.voluntary continuation) m.cpu.fpu)
    (m.dispatchFor current next).map fun decided => decided.2.switchDispatch continuation decided.1

/-- The common end of `sleep_until` and `wait_event`, once the scheduler has stopped the running
task. -/
def switchAway (continuation : VoluntaryContext) :
    Outcome (Option ℕ) → Option Machine
  | (.error _, _) => none
  | (.ok _, s) =>
    match m.scheduler.current, s.current with
    | some current, some next =>
      let m := note { m with scheduler := s } (.saved current (.voluntary continuation) m.cpu.fpu)
      (m.dispatchFor current next).map fun decided => decided.2.switchDispatch continuation decided.1
    | _, _ => none

/-- `sleep_until`. -/
def sleepUntil (deadline : ℕ) (continuation : VoluntaryContext) (now : ℕ) : Option Machine :=
  m.switchAway continuation (m.scheduler.sleepCurrentUntil deadline now)

/-- A round of `wait_event` that blocks. -/
def waitEvent (queue : WaitQueue) (continuation : VoluntaryContext) (now : ℕ) : Option Machine :=
  m.switchAway continuation (m.scheduler.blockCurrent (.waitQueue queue.id) queue now).1

/-- `exit_current`, up to and with the switch; its wake-ups are steps of their own. -/
def exitCurrent (status : ℤ) (continuation : VoluntaryContext) (now : ℕ) : Option Machine :=
  match m.scheduler.current with
  | none => none
  | some current =>
    let (result, s) := m.scheduler.exitCurrent status now
    match (result.toOption.join).or s.idle with
    | none => none
    | some next =>
      let m := note { m with scheduler := s } (.exited current)
      (m.dispatchFor current next).map fun decided => decided.2.switchExited continuation decided.1

/-- `start_first_task`. -/
def startFirstTask (now : ℕ) : Option Machine :=
  match m.scheduler.schedule now with
  | (.ok (some next), s) =>
    let m := { m with scheduler := s }
    some ((m.prepareSwitch none (m.switchTarget next)).resumeVoluntary next)
  | _ => none

/-- `spawn_kernel_task`: the new task starts at `entry`, through the bootstrap code. -/
def spawnKernelTask (isIdle : Bool) (bootstrapIp entry : ℕ) (kernelStack : KernelStack) :
    ℕ × Machine :=
  let (id, s) := m.scheduler.spawnKernelTask isIdle
  let cpuContext : VoluntaryContext :=
    { stackPointer := kernelStack.top - 8, instructionPointer := bootstrapIp, r12 := entry }
  (id, { m with
    scheduler := s
    contexts := Function.update m.contexts id { cpuContext, kernelStack } }.note
    (.saved id (.voluntary cpuContext) FpuState.initial))

/-- `spawn_forked`, called by `fork` with what the parent has in its floating-point registers and
with its FS base: the child starts from the frame written on its stack. -/
def spawnForked (bootstrapIp entry : ℕ) (kernelStack : KernelStack) (space : ℕ) (frame : UserFrame) :
    Option Machine :=
  match m.scheduler.current with
  | none => none
  | some current =>
    let frame := { frame with rax := 0 }
    let frameAddress := kernelStack.top - interruptFrameBytes
    let fpu := m.cpu.fpu
    let (id, s) := m.scheduler.spawnKernelTask false
    match s.task id with
    | none => none
    | some t =>
      some ({ m with
        scheduler := s.setTask id
          { t with resumeKind := .interrupt, interruptStackPointer := frameAddress }
        frames := Function.update m.frames frameAddress frame
        contexts := Function.update m.contexts id {
          cpuContext := { stackPointer := kernelStack.top - 8, instructionPointer := bootstrapIp,
                          r12 := entry }
          kernelStack
          addressSpace := some space
          fpu
          fsBase := (m.contexts current).fsBase } }.note
        (.saved id (.interrupt frame) fpu))

end Machine

/-! ## Runs -/

/-- What happens on the CPU: the sections of the scheduler, and what the running task itself does to
its floating-point registers and its FS base. -/
inductive Action
  | start (now : ℕ)
  | timer (frame : UserFrame) (stackPointer now ticks : ℕ) (requested : Bool)
  | yield (continuation : VoluntaryContext) (now : ℕ)
  | sleep (deadline : ℕ) (continuation : VoluntaryContext) (now : ℕ)
  | wait (queue : WaitQueue) (continuation : VoluntaryContext) (now : ℕ)
  | exit (status : ℤ) (continuation : VoluntaryContext) (now : ℕ)
  | wakeTask (id : ℕ)
  | wakeOne (queue : WaitQueue)
  | wakeAll (queue : WaitQueue)
  | cancelWait (id : ℕ) (queue : WaitQueue)
  | spawn (bootstrapIp entry : ℕ) (kernelStack : KernelStack)
  | fork (bootstrapIp entry : ℕ) (kernelStack : KernelStack) (space : ℕ) (frame : UserFrame)
  | reap
  | compute (fpu : FpuState)
  | setFsBase (base : ℕ)

namespace Machine

/-- One action. -/
def perform (m : Machine) : Action → Option Machine
  | .start now => m.startFirstTask now
  | .timer frame stackPointer now ticks requested =>
    m.timerInterrupt frame stackPointer now ticks requested
  | .yield continuation now => m.yieldNow continuation now
  | .sleep deadline continuation now => m.sleepUntil deadline continuation now
  | .wait queue continuation now => m.waitEvent queue continuation now
  | .exit status continuation now => m.exitCurrent status continuation now
  | .wakeTask id => some { m with scheduler := (m.scheduler.wakeTask id).2 }
  | .wakeOne queue => some { m with scheduler := (m.scheduler.wakeOne queue).1.2 }
  | .wakeAll queue =>
    some { m with scheduler := (m.scheduler.wakeAll queue (queue.tasks.length + 1) 0).1.2 }
  | .cancelWait id queue => some { m with scheduler := (m.scheduler.cancelWait id queue).1.2 }
  | .spawn bootstrapIp entry kernelStack =>
    some (m.spawnKernelTask false bootstrapIp entry kernelStack).2
  | .fork bootstrapIp entry kernelStack space frame =>
    m.spawnForked bootstrapIp entry kernelStack space frame
  | .reap => some { m with scheduler := m.scheduler.reapOne.2 }
  | .compute fpu => some { m with cpu := { m.cpu with fpu } }
  | .setFsBase base =>
    match m.scheduler.current with
    | none => none
    | some current => some { m with
        contexts := Function.update m.contexts current { m.contexts current with fsBase := base }
        cpu := { m.cpu with fsBase := base } }

/-- A stack that the allocator may hand out: room for a frame, and no task's. -/
def FreshStack (m : Machine) (stack : KernelStack) : Prop :=
  stack.base + interruptFrameBytes ≤ stack.top ∧
    ∀ id t, m.scheduler.task id = some t →
      (m.contexts id).kernelStack.top ≤ stack.base ∨ stack.top ≤ (m.contexts id).kernelStack.base

/-- Where the CPU pushes the frame of an interrupt: at the loaded stack top when it comes from user
mode, and somewhere on the running task's stack when it comes from the kernel. -/
def PushesAt (m : Machine) (current stackPointer : ℕ) : Prop :=
  stackPointer + interruptFrameBytes = m.cpu.kernelStackTop ∨
    frameInside (m.contexts current).kernelStack stackPointer = true

/-- When an action can happen. The first task starts when nothing runs, and interrupts are off until
then; what a task does needs a running task, and the idle task only waits for interrupts. -/
def Allowed (m : Machine) : Action → Prop
  | .start _ => m.scheduler.current = none
  | .timer _ stackPointer _ _ _ => ∃ id, m.scheduler.current = some id ∧ m.PushesAt id stackPointer
  | .yield _ _ => m.scheduler.current ≠ none
  | .sleep _ _ _ | .wait _ _ _ | .exit _ _ _ =>
    ∃ id, m.scheduler.current = some id ∧ m.scheduler.idle ≠ some id
  | .spawn _ _ kernelStack => m.FreshStack kernelStack
  | .fork _ _ kernelStack _ _ => m.scheduler.current ≠ none ∧ m.FreshStack kernelStack
  | .compute _ | .setFsBase _ => m.scheduler.current ≠ none
  | _ => True

/-- One step of a run. -/
def Step (m : Machine) (action : Action) (m' : Machine) : Prop :=
  m.Allowed action ∧ m.perform action = some m'

/-- The machine once the idle task is created. -/
def Initial (m : Machine) : Prop :=
  ∃ policy bootstrapIp entry stack, stack.base + interruptFrameBytes ≤ stack.top ∧
    m = (({ scheduler := Scheduler.withPolicy policy } : Machine).spawnKernelTask true bootstrapIp
      entry stack).2

end Machine

end SaeOS.Task
