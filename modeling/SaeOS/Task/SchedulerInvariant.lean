import Mathlib.Algebra.BigOperators.Group.List.Basic
import Mathlib.Data.List.Nodup
import Mathlib.Tactic.Ring
import SaeOS.Task.Scheduler

/-!
# The invariant of the scheduler

`Inv s` has three parts: the id index, the task slots and the free-slot list describe the same
tasks (`Slots`); every live task is where its state says (`Placed`); and the cached sums are the
sums over the runnable tasks.

Almost every operation edits one task and moves it between the queues. `Edit s s' id t₀ t` says once
what such a move does, and `Inv.edit` that it keeps the invariant; the operations are then shown to
be edits.
-/

namespace SaeOS.Task

namespace Scheduler

/-! ## Slots -/

/-- The id index, the task slots and the free-slot list agree. -/
structure Slots (tasks : List (Option TaskControlBlock)) (freeSlots : List ℕ) (index : ℕ → Option ℕ)
    (nextTaskId : ℕ) : Prop where
  index_some : ∀ id slot, index id = some slot → ∃ t, tasks[slot]? = some (some t) ∧ t.taskId = id
  slot_some : ∀ slot t, tasks[slot]? = some (some t) → index t.taskId = some slot
  free_iff : ∀ slot, slot ∈ freeSlots ↔ tasks[slot]? = some none
  free_nodup : freeSlots.Nodup
  id_lt : ∀ id slot, index id = some slot → id < nextTaskId

/-! ## Placement -/

/-- A task is current, queued or in the exit queue as its state says, and the idle task is in no
queue. -/
structure PlacedAs (current idle : Option ℕ) (runQueue exitQueue : List ℕ) (id : ℕ)
    (t : TaskControlBlock) : Prop where
  current_iff : current = some id ↔ t.state = .running
  runQueue_iff : id ∈ runQueue ↔ t.state = .ready ∧ t.isIdle = false
  exitQueue_iff : id ∈ exitQueue ↔ t.state = .exited
  idle_iff : idle = some id ↔ t.isIdle = true
  not_new : t.state ≠ .new
  idle_runnable : t.isIdle = true → t.state.isRunnable = true

/-- Every live task is where its state says, and the queues hold live tasks, once each. -/
structure Placed (task : ℕ → Option TaskControlBlock) (current idle : Option ℕ)
    (runQueue exitQueue : List ℕ) : Prop where
  placedAs : ∀ id t, task id = some t → PlacedAs current idle runQueue exitQueue id t
  live : ∀ id, current = some id ∨ idle = some id ∨ id ∈ runQueue ∨ id ∈ exitQueue →
    ∃ t, task id = some t
  runQueue_nodup : runQueue.Nodup
  exitQueue_nodup : exitQueue.Nodup

/-! ## Sums -/

/-- What a slot adds to a sum over the runnable set. -/
def contribution (f : TaskControlBlock → ℤ) : Option TaskControlBlock → ℤ
  | none => 0
  | some t => if !t.isIdle && t.state.isRunnable then f t else 0

/-- The sum of `f` over the runnable tasks. -/
def runnableSum (f : TaskControlBlock → ℤ) (tasks : List (Option TaskControlBlock)) : ℤ :=
  (tasks.map (contribution f)).sum

/-- A task's weight. -/
def weightOf (t : TaskControlBlock) : ℤ :=
  t.schedulerEntity.weight

/-- A task's weighted virtual runtime. -/
def weightedRuntimeOf (t : TaskControlBlock) : ℤ :=
  t.schedulerEntity.weight * t.schedulerEntity.virtualRuntime

theorem runnableSum_set (f : TaskControlBlock → ℤ) {tasks : List (Option TaskControlBlock)}
    {slot : ℕ} {x y : Option TaskControlBlock} (h : tasks[slot]? = some x) :
    runnableSum f (tasks.set slot y) =
      runnableSum f tasks - contribution f x + contribution f y := by
  induction tasks generalizing slot with
  | nil => simp at h
  | cons z tasks ih =>
    cases slot with
    | zero =>
      have hz : z = x := by simpa using h
      simp only [runnableSum, List.set_cons_zero, List.map_cons, List.sum_cons, hz]
      ring
    | succ slot =>
      have hrec := ih (by simpa using h)
      simp only [runnableSum, List.set_cons_succ, List.map_cons, List.sum_cons] at hrec ⊢
      rw [hrec]
      ring

theorem runnableSum_append (f : TaskControlBlock → ℤ) (tasks : List (Option TaskControlBlock))
    (x : Option TaskControlBlock) :
    runnableSum f (tasks ++ [x]) = runnableSum f tasks + contribution f x := by
  simp [runnableSum]

/-! ## The invariant -/

/-- The slots of a scheduler are consistent. -/
abbrev SlotsOk (s : Scheduler) : Prop :=
  Slots s.tasks s.freeSlots s.index s.nextTaskId

/-- The scheduler invariant. -/
structure Inv (s : Scheduler) : Prop where
  slots : s.SlotsOk
  placed : Placed s.task s.current s.idle s.runQueue s.exitQueue
  sumWeight : s.sumWeight = runnableSum weightOf s.tasks
  sumWeightedRuntime : s.sumWeightedRuntime = runnableSum weightedRuntimeOf s.tasks

variable {s s' : Scheduler} {id : ℕ} {t t₀ : TaskControlBlock}

/-- A live task sits in the slot the index names. -/
theorem Slots.slot_of_task (h : s.SlotsOk) (ht : s.task id = some t) :
    ∃ slot, s.index id = some slot ∧ s.tasks[slot]? = some (some t) ∧ t.taskId = id := by
  obtain ⟨slot, hindex, hjoin⟩ := Option.bind_eq_some_iff.mp ht
  obtain ⟨t', ht', hid⟩ := h.index_some id slot hindex
  rw [ht', Option.join_some] at hjoin
  cases hjoin
  exact ⟨slot, hindex, ht', hid⟩

/-- Writing a live task changes its slot only. -/
theorem setTask_eq {slot : ℕ} (hindex : s.index id = some slot) :
    s.setTask id t = { s with tasks := s.tasks.set slot (some t) } := by
  simp [setTask, hindex]

/-- Lookup after writing a live task. -/
theorem Slots.task_setTask (h : s.SlotsOk) (ht₀ : s.task id = some t₀) :
    (s.setTask id t).task = Function.update s.task id (some t) := by
  obtain ⟨slot, hindex, hslot, hid⟩ := h.slot_of_task ht₀
  have hlt : slot < s.tasks.length := (List.getElem?_eq_some_iff.mp hslot).1
  funext id'
  rw [setTask_eq hindex]
  simp only [task]
  by_cases heq : id' = id
  · subst heq
    simp [hindex, hlt]
  · rw [Function.update_of_ne heq]
    cases hindex' : s.index id' with
    | none => simp [task, hindex']
    | some slot' =>
      have hne : slot ≠ slot' := by
        rintro rfl
        obtain ⟨t', ht', hid'⟩ := h.index_some id' slot hindex'
        rw [hslot] at ht'
        cases ht'
        exact heq (hid'.symm.trans hid)
      simp [task, hindex', List.getElem?_set_ne hne]

theorem Slots.setTask (h : s.SlotsOk) (ht₀ : s.task id = some t₀) (hid : t.taskId = t₀.taskId) :
    Slots (s.setTask id t).tasks s.freeSlots s.index s.nextTaskId := by
  obtain ⟨slot, hindex, hslot, hid₀⟩ := h.slot_of_task ht₀
  have hlt : slot < s.tasks.length := (List.getElem?_eq_some_iff.mp hslot).1
  rw [setTask_eq hindex]
  refine ⟨fun id' slot' hindex' => ?_, fun slot' t' ht' => ?_, fun slot' => ?_,
    h.free_nodup, h.id_lt⟩
  · by_cases heq : slot = slot'
    · subst heq
      obtain ⟨t', ht', hid'⟩ := h.index_some id' slot hindex'
      rw [hslot] at ht'
      cases ht'
      exact ⟨t, by simp [hlt], hid.trans hid'⟩
    · obtain ⟨t', ht', hid'⟩ := h.index_some id' slot' hindex'
      exact ⟨t', by simpa [List.getElem?_set_ne heq] using ht', hid'⟩
  · by_cases heq : slot = slot'
    · subst heq
      simp only [List.getElem?_set_self hlt, Option.some.injEq] at ht'
      rw [← ht', hid, hid₀]
      exact hindex
    · simp only [List.getElem?_set_ne heq] at ht'
      exact h.slot_some slot' t' ht'
  · rw [h.free_iff]
    by_cases heq : slot = slot'
    · subst heq
      rw [List.getElem?_set_self hlt, hslot]
      simp
    · simp [List.getElem?_set_ne heq]

theorem Slots.runnableSum_setTask (h : s.SlotsOk) (ht₀ : s.task id = some t₀)
    (f : TaskControlBlock → ℤ) : runnableSum f (s.setTask id t).tasks =
      runnableSum f s.tasks - contribution f (some t₀) + contribution f (some t) := by
  obtain ⟨slot, hindex, hslot, -⟩ := h.slot_of_task ht₀
  rw [setTask_eq hindex]
  exact runnableSum_set f hslot

/-! ## Edits -/

/-- `s'` is `s` with the task `id` rewritten from `t₀` to `t` and moved to the queue its new state
asks for, and with the sums adjusted. -/
structure Edit (s s' : Scheduler) (id : ℕ) (t₀ t : TaskControlBlock) : Prop where
  tasks_eq : s'.tasks = (s.setTask id t).tasks
  frame : s'.index = s.index ∧ s'.freeSlots = s.freeSlots ∧ s'.nextTaskId = s.nextTaskId ∧
    s'.idle = s.idle
  taskId_eq : t.taskId = t₀.taskId
  current_iff : ∀ id', id' ≠ id → (s'.current = some id' ↔ s.current = some id')
  runQueue_iff : ∀ id', id' ≠ id → (id' ∈ s'.runQueue ↔ id' ∈ s.runQueue)
  exitQueue_iff : ∀ id', id' ≠ id → (id' ∈ s'.exitQueue ↔ id' ∈ s.exitQueue)
  runQueue_nodup : s'.runQueue.Nodup
  exitQueue_nodup : s'.exitQueue.Nodup
  placedAs : PlacedAs s'.current s'.idle s'.runQueue s'.exitQueue id t
  sumWeight_eq : s'.sumWeight =
    s.sumWeight - contribution weightOf (some t₀) + contribution weightOf (some t)
  sumWeightedRuntime_eq : s'.sumWeightedRuntime =
    s.sumWeightedRuntime - contribution weightedRuntimeOf (some t₀) +
      contribution weightedRuntimeOf (some t)

/-- Moving one task keeps the placement of all tasks. -/
theorem Placed.move {task task' : ℕ → Option TaskControlBlock} {current current' idle : Option ℕ}
    {runQueue runQueue' exitQueue exitQueue' : List ℕ}
    (h : Placed task current idle runQueue exitQueue)
    (htask : task' = Function.update task id (some t))
    (hcurrent : ∀ id', id' ≠ id → (current' = some id' ↔ current = some id'))
    (hrun : ∀ id', id' ≠ id → (id' ∈ runQueue' ↔ id' ∈ runQueue))
    (hexit : ∀ id', id' ≠ id → (id' ∈ exitQueue' ↔ id' ∈ exitQueue))
    (hrunNodup : runQueue'.Nodup) (hexitNodup : exitQueue'.Nodup)
    (hplaced : PlacedAs current' idle runQueue' exitQueue' id t) :
    Placed task' current' idle runQueue' exitQueue' := by
  subst htask
  refine ⟨fun id' t' ht' => ?_, fun id' hid' => ?_, hrunNodup, hexitNodup⟩
  · by_cases heq : id' = id
    · subst heq
      rw [Function.update_self] at ht'
      cases ht'
      exact hplaced
    · rw [Function.update_of_ne heq] at ht'
      have hp := h.placedAs id' t' ht'
      exact ⟨(hcurrent id' heq).trans hp.current_iff, (hrun id' heq).trans hp.runQueue_iff,
        (hexit id' heq).trans hp.exitQueue_iff, hp.idle_iff, hp.not_new, hp.idle_runnable⟩
  · by_cases heq : id' = id
    · subst heq
      exact ⟨t, Function.update_self ..⟩
    · rw [Function.update_of_ne heq]
      rw [hcurrent id' heq, hrun id' heq, hexit id' heq] at hid'
      exact h.live id' hid'

/-- Writing one live task keeps the slots, whatever else changes. -/
theorem Slots.write (h : s.SlotsOk) (ht₀ : s.task id = some t₀) (hid : t.taskId = t₀.taskId)
    (htasks : s'.tasks = (s.setTask id t).tasks)
    (hframe : s'.index = s.index ∧ s'.freeSlots = s.freeSlots ∧ s'.nextTaskId = s.nextTaskId) :
    s'.SlotsOk ∧ s'.task = Function.update s.task id (some t) := by
  obtain ⟨hindex, hfree, hnext⟩ := hframe
  constructor
  · unfold SlotsOk
    rw [htasks, hfree, hindex, hnext]
    exact h.setTask ht₀ hid
  · rw [← h.task_setTask ht₀]
    obtain ⟨slot, hslot, -, -⟩ := h.slot_of_task ht₀
    funext id'
    simp only [task, hindex, htasks, setTask_eq hslot]

/-- An edit keeps the invariant and writes the task. -/
theorem Inv.edit (h : Inv s) (ht₀ : s.task id = some t₀) (hedit : Edit s s' id t₀ t) :
    Inv s' ∧ s'.task = Function.update s.task id (some t) := by
  obtain ⟨hindex, hfree, hnext, hidle⟩ := hedit.frame
  obtain ⟨hslots, htask⟩ := h.slots.write ht₀ hedit.taskId_eq hedit.tasks_eq ⟨hindex, hfree, hnext⟩
  refine ⟨⟨hslots, ?_, ?_, ?_⟩, htask⟩
  · have hplaced := hedit.placedAs
    rw [hidle] at hplaced ⊢
    exact h.placed.move htask hedit.current_iff hedit.runQueue_iff hedit.exitQueue_iff
      hedit.runQueue_nodup hedit.exitQueue_nodup hplaced
  · rw [hedit.sumWeight_eq, hedit.tasks_eq, h.slots.runnableSum_setTask ht₀, h.sumWeight]
  · rw [hedit.sumWeightedRuntime_eq, hedit.tasks_eq, h.slots.runnableSum_setTask ht₀,
      h.sumWeightedRuntime]

end Scheduler

end SaeOS.Task
