import SaeOS.Task.DispatchEffects

/-!
# The invariant of the switch paths

A log is faithful if every task's events alternate: a context is saved, that context is resumed, the
next one is saved, and so on until the task exits. The invariant says that a task that does not run
is *parked*: its latest event is the save of a context, and the flag and the pointer in its record
lead to exactly that context. A switch parks the outgoing task and takes one parked task off, so it
keeps the log faithful.
-/

namespace SaeOS.Task

/-! ## The log -/

/-- What may happen next to a task. -/
def Follows (log : List Event) : Event → Prop
  | .saved task _ _ => lastEvent log task = none ∨
      ∃ context fpu, lastEvent log task = some (.resumed task context fpu)
  | .resumed task context fpu => lastEvent log task = some (.saved task context fpu)
  | .exited task => ∃ context fpu, lastEvent log task = some (.resumed task context fpu)

/-- Every event follows on the events before it. -/
def FaithfulLog (log : List Event) : Prop :=
  ∀ pre e post, log = pre ++ e :: post → Follows pre e

variable {log : List Event} {e : Event} {id : ℕ}

theorem lastEvent_append (log : List Event) (e : Event) (id : ℕ) :
    lastEvent (log ++ [e]) id = if e.task = id then some e else lastEvent log id := by
  by_cases h : e.task = id <;> simp [lastEvent, List.filter_append, h]

theorem lastEvent_append_self (log : List Event) (e : Event) :
    lastEvent (log ++ [e]) e.task = some e := by
  rw [lastEvent_append, if_pos rfl]

theorem lastEvent_append_of_ne (h : e.task ≠ id) : lastEvent (log ++ [e]) id = lastEvent log id := by
  rw [lastEvent_append, if_neg h]

theorem lastEvent_eq_none (h : ∀ e ∈ log, e.task ≠ id) : lastEvent log id = none := by
  rw [lastEvent, List.getLast?_eq_none_iff, List.filter_eq_nil_iff]
  intro e he
  simpa using h e he

theorem FaithfulLog.nil : FaithfulLog [] := by
  intro pre e post heq
  simp at heq

/-- An event that follows on a faithful log leaves it faithful. -/
theorem FaithfulLog.append (h : FaithfulLog log) (hfollows : Follows log e) :
    FaithfulLog (log ++ [e]) := by
  intro pre e' post heq
  -- the event is the new one if nothing comes after it, and an old one otherwise
  rcases List.eq_nil_or_concat post with rfl | ⟨post', x, rfl⟩
  · obtain ⟨rfl, hlast⟩ := List.append_inj' heq rfl
    cases hlast
    exact hfollows
  · rw [List.concat_eq_append, ← List.cons_append, ← List.append_assoc] at heq
    exact h pre e' post' (List.append_inj' heq rfl).1

/-! ## Parked tasks -/

variable {o : ℕ → Option TaskControlBlock} {contexts : ℕ → TaskContext} {frames : ℕ → UserFrame}
  {t : TaskControlBlock}

/-- The context that a task's flag and pointer lead to. -/
def contextOf (contexts : ℕ → TaskContext) (frames : ℕ → UserFrame) (id : ℕ)
    (t : TaskControlBlock) : ResumeContext :=
  match t.resumeKind with
  | .voluntary => .voluntary (contexts id).cpuContext
  | .interrupt => .interrupt (frames t.interruptStackPointer)

/-- The task is going to run again but does not run now. -/
def Waiting (t : TaskControlBlock) : Prop :=
  t.state = .ready ∨ t.state = .blocked

/-- A task that waits has saved the context its record leads to, and its interrupt frame is on its own
stack. -/
structure Parked (o : ℕ → Option TaskControlBlock) (contexts : ℕ → TaskContext)
    (frames : ℕ → UserFrame) (log : List Event) : Prop where
  saved : ∀ id t, o id = some t → Waiting t →
    lastEvent log id = some (.saved id (contextOf contexts frames id t) (contexts id).fpu)
  inside : ∀ id t, o id = some t → Waiting t → t.resumeKind = .interrupt →
    Machine.frameInside (contexts id).kernelStack t.interruptStackPointer = true

/-- Rewriting one task and noting an event of it: it may wait if the event saved the context its new
record leads to. -/
theorem Parked.update (h : Parked o contexts frames log) {contexts' : ℕ → TaskContext}
    {frames' : ℕ → UserFrame} {x : Option TaskControlBlock}
    (hcontexts : ∀ id', id' ≠ id → contexts' id' = contexts id')
    (hframes : ∀ id' t', id' ≠ id → o id' = some t' → Waiting t' → t'.resumeKind = .interrupt →
      frames' t'.interruptStackPointer = frames t'.interruptStackPointer)
    (he : e.task = id)
    (hx : ∀ t, x = some t → Waiting t →
      e = .saved id (contextOf contexts' frames' id t) (contexts' id).fpu ∧
        (t.resumeKind = .interrupt →
          Machine.frameInside (contexts' id).kernelStack t.interruptStackPointer = true)) :
    Parked (Function.update o id x) contexts' frames' (log ++ [e]) := by
  constructor
  · intro id' t ho hwaiting
    by_cases heq : id' = id
    · subst heq
      rw [Function.update_self] at ho
      rw [← he, lastEvent_append_self, he, ← (hx t ho hwaiting).1]
    · rw [Function.update_of_ne heq] at ho
      rw [lastEvent_append_of_ne (fun hid => heq (hid.symm.trans he)), h.saved id' t ho hwaiting,
        hcontexts id' heq]
      -- the record of another task leads where it did
      have hcontext : contextOf contexts' frames' id' t = contextOf contexts frames id' t := by
        cases hkind : t.resumeKind with
        | voluntary => simp only [contextOf, hkind, hcontexts id' heq]
        | interrupt => simp only [contextOf, hkind, hframes id' t heq ho hwaiting hkind]
      rw [hcontext]
  · intro id' t ho hwaiting hkind
    by_cases heq : id' = id
    · subst heq
      rw [Function.update_self] at ho
      exact (hx t ho hwaiting).2 hkind
    · rw [Function.update_of_ne heq] at ho
      rw [hcontexts id' heq]
      exact h.inside id' t ho hwaiting hkind

/-- Dispatching a parked task: it is resumed from the context it saved last. -/
theorem Parked.dispatch (h : Parked o contexts frames log) (hlog : FaithfulLog log)
    (ho : o id = some t) (hready : t.state = .ready) {t' : TaskControlBlock}
    (hrunning : t'.state = .running) :
    FaithfulLog (log ++ [.resumed id (contextOf contexts frames id t) (contexts id).fpu]) ∧
      Parked (Function.update o id (some t')) contexts frames
        (log ++ [.resumed id (contextOf contexts frames id t) (contexts id).fpu]) := by
  refine ⟨hlog.append (h.saved id t ho (Or.inl hready)), ?_⟩
  refine h.update (fun _ _ => rfl) (fun _ _ _ _ _ _ => rfl) rfl fun t₁ ht₁ hwaiting => ?_
  cases ht₁
  rcases hwaiting with hstate | hstate
  · exact absurd (hrunning.symm.trans hstate) (by simp)
  · exact absurd (hrunning.symm.trans hstate) (by simp)

/-! ## The invariant -/

/-- The stacks of the tasks are apart and have room for a frame. -/
structure StacksOk (o : ℕ → Option TaskControlBlock) (contexts : ℕ → TaskContext) : Prop where
  room : ∀ id t, o id = some t →
    (contexts id).kernelStack.base + interruptFrameBytes ≤ (contexts id).kernelStack.top
  apart : ∀ id id' t t', o id = some t → o id' = some t' → id ≠ id' →
    (contexts id).kernelStack.top ≤ (contexts id').kernelStack.base ∨
      (contexts id').kernelStack.top ≤ (contexts id).kernelStack.base

/-- The CPU has loaded what belongs to the task. -/
structure Loaded (cpu : Cpu) (context : TaskContext) : Prop where
  addressSpace : cpu.addressSpace = context.addressSpace
  kernelStackTop : cpu.kernelStackTop = context.kernelStack.top
  fsBase : cpu.fsBase = context.fsBase

namespace Machine

/-- The invariant of the machine. -/
structure Inv (m : Machine) : Prop where
  scheduler : Scheduler.Inv m.scheduler
  log : FaithfulLog m.log
  parked : Parked m.scheduler.outline m.contexts m.frames m.log
  running : ∀ id, m.scheduler.current = some id →
    ∃ context fpu, lastEvent m.log id = some (.resumed id context fpu)
  loaded : ∀ id, m.scheduler.current = some id → Loaded m.cpu (m.contexts id)
  kernelStacks : StacksOk m.scheduler.outline m.contexts
  ids : ∀ e ∈ m.log, e.task < m.scheduler.nextTaskId
  /-- Until the first task starts, all tasks are new. -/
  unstarted : m.scheduler.current = none → ∀ id t, m.scheduler.outline id = some t →
    t.state = .ready ∧ t.resumeKind = .voluntary

end Machine

/-- The same tasks with the same stacks. -/
theorem StacksOk.of_live {o' : ℕ → Option TaskControlBlock} {contexts' : ℕ → TaskContext}
    (h : StacksOk o contexts) (hlive : ∀ id t, o' id = some t → ∃ t₀, o id = some t₀)
    (hstack : ∀ id t, o' id = some t → (contexts' id).kernelStack = (contexts id).kernelStack) :
    StacksOk o' contexts' := by
  constructor
  · intro id t ho
    obtain ⟨t₀, ho₀⟩ := hlive id t ho
    rw [hstack id t ho]
    exact h.room id t₀ ho₀
  · intro id id' t t' ho ho' hne
    obtain ⟨t₀, ho₀⟩ := hlive id t ho
    obtain ⟨t₁, ho₁⟩ := hlive id' t' ho'
    rw [hstack id t ho, hstack id' t' ho']
    exact h.apart id id' t₀ t₁ ho₀ ho₁ hne

/-- One more task, on a stack that is apart from the others. -/
theorem StacksOk.insert (h : StacksOk o contexts) {context : TaskContext}
    (hroom : context.kernelStack.base + interruptFrameBytes ≤ context.kernelStack.top)
    (hapart : ∀ id' t', o id' = some t' →
      (contexts id').kernelStack.top ≤ context.kernelStack.base ∨
        context.kernelStack.top ≤ (contexts id').kernelStack.base) :
    StacksOk (Function.update o id (some t)) (Function.update contexts id context) := by
  constructor
  · intro id₁ t₁ ho₁
    by_cases heq : id₁ = id
    · subst heq
      rwa [Function.update_self]
    · rw [Function.update_of_ne heq] at ho₁ ⊢
      exact h.room id₁ t₁ ho₁
  · intro id₁ id₂ t₁ t₂ ho₁ ho₂ hne
    -- at most one of the two is the new task
    by_cases heq₁ : id₁ = id
    · subst heq₁
      rw [Function.update_of_ne hne.symm] at ho₂
      rw [Function.update_self, Function.update_of_ne hne.symm]
      exact (hapart id₂ t₂ ho₂).symm
    · rw [Function.update_of_ne heq₁] at ho₁ ⊢
      by_cases heq₂ : id₂ = id
      · subst heq₂
        rw [Function.update_self]
        exact hapart id₁ t₁ ho₁
      · rw [Function.update_of_ne heq₂] at ho₂ ⊢
        exact h.apart id₁ id₂ t₁ t₂ ho₁ ho₂ hne

/-- Frames on the stacks of two tasks are at different addresses. -/
theorem StacksOk.frame_ne (h : StacksOk o contexts) {id' p q : ℕ} {t' : TaskControlBlock}
    (ho : o id = some t) (ho' : o id' = some t') (hne : id ≠ id')
    (hp : Machine.frameInside (contexts id).kernelStack p = true)
    (hq : Machine.frameInside (contexts id').kernelStack q = true) : p ≠ q := by
  simp only [Machine.frameInside, Bool.and_eq_true, decide_eq_true_eq] at hp hq
  have hbytes : 0 < interruptFrameBytes := by decide
  rcases h.apart id id' t t' ho ho' hne with hle | hle <;> omega

end SaeOS.Task
