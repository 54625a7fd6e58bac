import SaeOS.Lib.Run
import SaeOS.Task.SchedulerOps

/-!
# Runs of the scheduler

Creating and reaping tasks change the slots themselves; with the other operations they keep the
invariant. So from boot on the placement of tasks, the slot bookkeeping and the cached sums are
right in every reachable state, provided the idle task never blocks, sleeps or exits.
-/

namespace SaeOS.Task

namespace Scheduler

variable {s s' : Scheduler} {id : ℕ} {t t₀ : TaskControlBlock}

/-! ## Creating tasks -/

/-- A new task in a slot that holds none. -/
theorem Slots.insert {tasks tasks' : List (Option TaskControlBlock)} {freeSlots freeSlots' : List ℕ}
    {index : ℕ → Option ℕ} {slot : ℕ} (h : Slots tasks freeSlots index t.taskId)
    (hold : ∀ t', tasks[slot]? ≠ some (some t')) (hslot : tasks'[slot]? = some (some t))
    (hother : ∀ slot', slot' ≠ slot → tasks'[slot']? = tasks[slot']?)
    (hfree : ∀ slot', slot' ∈ freeSlots' ↔ slot' ∈ freeSlots ∧ slot' ≠ slot)
    (hnodup : freeSlots'.Nodup) :
    Slots tasks' freeSlots' (Function.update index t.taskId (some slot)) (t.taskId + 1) := by
  have hnew : index t.taskId = none := by
    cases hindex : index t.taskId with
    | none => rfl
    | some slot' => exact absurd (h.id_lt _ _ hindex) (lt_irrefl _)
  refine ⟨fun id' slot' hindex => ?_, fun slot' t' ht' => ?_, fun slot' => ?_, hnodup,
    fun id' slot' hindex => ?_⟩
  · by_cases heq : id' = t.taskId
    · subst heq
      rw [Function.update_self] at hindex
      cases hindex
      exact ⟨t, hslot, rfl⟩
    · rw [Function.update_of_ne heq] at hindex
      obtain ⟨t', ht', hid'⟩ := h.index_some id' slot' hindex
      have hne : slot' ≠ slot := fun heq' => hold t' (heq' ▸ ht')
      exact ⟨t', (hother slot' hne).trans ht', hid'⟩
  · by_cases heq : slot' = slot
    · subst heq
      rw [hslot] at ht'
      cases ht'
      exact Function.update_self ..
    · rw [hother slot' heq] at ht'
      have hindex := h.slot_some slot' t' ht'
      have hne : t'.taskId ≠ t.taskId := fun heq' => by
        rw [heq', hnew] at hindex
        cases hindex
      rwa [Function.update_of_ne hne]
  · rw [hfree]
    by_cases heq : slot' = slot
    · subst heq
      simp [hslot]
    · simp [heq, hother slot' heq, h.free_iff]
  · by_cases heq : id' = t.taskId
    · omega
    · rw [Function.update_of_ne heq] at hindex
      have := h.id_lt id' slot' hindex
      omega

/-- Storing a task with the next id: it takes a free slot or a new one. -/
theorem Slots.insertTask (h : s.SlotsOk) (hid : t.taskId = s.nextTaskId) :
    ∃ tasks freeSlots slot,
      ({ s with nextTaskId := s.nextTaskId + 1 }).insertTask t = { s with
        nextTaskId := s.nextTaskId + 1
        tasks, freeSlots
        index := Function.update s.index t.taskId (some slot) } ∧
      Slots tasks freeSlots (Function.update s.index t.taskId (some slot)) (s.nextTaskId + 1) ∧
      tasks[slot]? = some (some t) ∧ (∀ slot', slot' ≠ slot → tasks[slot']? = s.tasks[slot']?) ∧
      ∀ f, runnableSum f tasks = runnableSum f s.tasks + contribution f (some t) := by
  have hslots : Slots s.tasks s.freeSlots s.index t.taskId := hid ▸ h
  cases hfree : s.freeSlots with
  | nil =>
    have hother : ∀ slot', slot' ≠ s.tasks.length →
        (s.tasks ++ [some t])[slot']? = s.tasks[slot']? := by
      intro slot' hne
      rcases lt_or_gt_of_ne hne with hlt | hgt
      · exact List.getElem?_append_left hlt
      · rw [List.getElem?_eq_none (by simp; omega), List.getElem?_eq_none (by omega)]
    have hlast : (s.tasks ++ [some t])[s.tasks.length]? = some (some t) := by simp
    refine ⟨s.tasks ++ [some t], [], s.tasks.length, by simp [Scheduler.insertTask], ?_,
      hlast, hother, fun f => runnableSum_append f s.tasks (some t)⟩
    rw [← hid]
    refine hslots.insert (fun t' => by simp) hlast hother (fun slot' => ?_) List.nodup_nil
    simp [hfree]
  | cons slot rest =>
    have hnone : s.tasks[slot]? = some none :=
      (h.free_iff slot).mp (hfree ▸ List.mem_cons_self)
    have hlt : slot < s.tasks.length := (List.getElem?_eq_some_iff.mp hnone).1
    have hnodup := List.nodup_cons.mp (hfree ▸ h.free_nodup)
    have hother : ∀ slot', slot' ≠ slot → (s.tasks.set slot (some t))[slot']? = s.tasks[slot']? :=
      fun slot' hne => List.getElem?_set_ne hne.symm
    refine ⟨s.tasks.set slot (some t), rest, slot, by simp [Scheduler.insertTask], ?_,
      List.getElem?_set_self hlt, hother, fun f => ?_⟩
    · rw [← hid]
      refine hslots.insert (fun t' => by simp [hnone]) (List.getElem?_set_self hlt) hother
        (fun slot' => ?_) hnodup.2
      rw [hfree, List.mem_cons]
      constructor
      · exact fun hmem => ⟨Or.inr hmem, fun heq => hnodup.1 (heq ▸ hmem)⟩
      · rintro ⟨heq | hmem, hne⟩
        · exact absurd heq hne
        · exact hmem
    · rw [runnableSum_set f hnone]
      simp [contribution]

/-- No live task has the next id. -/
theorem Inv.next_fresh (h : Inv s) : s.task s.nextTaskId = none := by
  cases ht : s.task s.nextTaskId with
  | none => rfl
  | some t =>
    obtain ⟨slot, hindex, -, -⟩ := h.slots.slot_of_task ht
    exact absurd (h.slots.id_lt _ _ hindex) (lt_irrefl _)

/-- The next id is in no queue. -/
theorem Inv.next_not_live (h : Inv s) :
    s.current ≠ some s.nextTaskId ∧ s.idle ≠ some s.nextTaskId ∧ s.nextTaskId ∉ s.runQueue ∧
      s.nextTaskId ∉ s.exitQueue := by
  have hnone : ¬∃ t, s.task s.nextTaskId = some t := by
    rw [h.next_fresh]
    simp
  exact ⟨fun hc => hnone (h.placed.live _ (Or.inl hc)),
    fun hi => hnone (h.placed.live _ (Or.inr (Or.inl hi))),
    fun hr => hnone (h.placed.live _ (Or.inr (Or.inr (Or.inl hr)))),
    fun he => hnone (h.placed.live _ (Or.inr (Or.inr (Or.inr he))))⟩

/-- Lookup after storing a task in an unused slot. -/
theorem Slots.task_inserted {tasks : List (Option TaskControlBlock)} {freeSlots : List ℕ}
    {slot next : ℕ}
    (h : Slots tasks freeSlots (Function.update s.index t.taskId (some slot)) next)
    (hslot : tasks[slot]? = some (some t))
    (hother : ∀ slot', slot' ≠ slot → tasks[slot']? = s.tasks[slot']?) :
    (fun id => ((Function.update s.index t.taskId (some slot)) id).bind
      fun slot => (tasks[slot]?).join) = Function.update s.task t.taskId (some t) := by
  funext id
  by_cases heq : id = t.taskId
  · subst heq
    simp [hslot]
  · rw [Function.update_of_ne heq, Function.update_of_ne heq]
    cases hindex : s.index id with
    | none => simp [task, hindex]
    | some slot' =>
      have hne : slot' ≠ slot := by
        rintro rfl
        obtain ⟨t', ht', hid'⟩ := h.index_some id slot' (by rwa [Function.update_of_ne heq])
        rw [hslot] at ht'
        cases ht'
        exact heq hid'.symm
      simp [task, hindex, hother slot' hne]

/-- A new task is in a slot of its own, and in no queue yet. -/
structure Inserted (s s₁ : Scheduler) (t : TaskControlBlock) : Prop where
  slots : s₁.SlotsOk
  task_eq : s₁.task = Function.update s.task s.nextTaskId (some t)
  current_eq : s₁.current = s.current
  idle_eq : s₁.idle = s.idle
  next_eq : s₁.nextTaskId = s.nextTaskId + 1

theorem Inserted.task_self {s₁ : Scheduler} (h : Inserted s s₁ t) : s₁.task s.nextTaskId = some t := by
  rw [h.task_eq, Function.update_self]

theorem Slots.inserted (h : s.SlotsOk) (hid : t.taskId = s.nextTaskId) :
    Inserted s (({ s with nextTaskId := s.nextTaskId + 1 }).insertTask t) t := by
  obtain ⟨tasks, freeSlots, slot, hinsert, hslots, hslot, hother, -⟩ := h.insertTask hid
  rw [hinsert]
  exact ⟨hslots, (hslots.task_inserted hslot hother).trans (by rw [hid]), rfl, rfl, rfl⟩

/-- A new ready task joins the runnable set. -/
theorem Inv.spawn (h : Inv s) : Inv s.spawn.2 := by
  set t : TaskControlBlock := { taskId := s.nextTaskId, state := .ready } with ht
  obtain ⟨tasks, freeSlots, slot, hinsert, hslots, hslot, hother, hsum⟩ := h.slots.insertTask (t := t) rfl
  have htask := hslots.task_inserted hslot hother
  obtain ⟨hcurrent, hidle, hrun, hexit⟩ := h.next_not_live
  have hid : t.taskId = s.nextTaskId := rfl
  rw [hid] at hinsert hslots htask
  simp only [Scheduler.spawn, allocateId]
  rw [← ht, hinsert]
  set s₁ : Scheduler := { s with
    nextTaskId := s.nextTaskId + 1
    tasks, freeSlots
    index := Function.update s.index s.nextTaskId (some slot) } with hs₁
  have hslots₁ : s₁.SlotsOk := hslots
  have htask₁ : s₁.task = Function.update s.task s.nextTaskId (some t) := htask
  have hlive : s₁.task s.nextTaskId = some t := by rw [htask₁, Function.update_self]
  have hindex : s₁.index s.nextTaskId = some slot := Function.update_self ..
  obtain ⟨average, wakeup, hjoin⟩ := join_eq hlive hindex
  rw [hjoin]
  set t' : TaskControlBlock := { t with schedulerEntity := s₁.placedEntity t.schedulerEntity }
    with ht'
  have hset : s₁.setTask s.nextTaskId t' = { s₁ with tasks := s₁.tasks.set slot (some t') } :=
    setTask_eq hindex
  have hlookup : (s₁.setTask s.nextTaskId t').task =
      Function.update s.task s.nextTaskId (some t') := by
    rw [hslots₁.task_setTask hlive, htask₁, Function.update_idem]
  have hplaced : Placed (s₁.setTask s.nextTaskId t').task s.current s.idle
      (s.runQueue ++ [s.nextTaskId]) s.exitQueue := by
    refine h.placed.move hlookup (fun _ _ => Iff.rfl) (fun id' hne => by simp [hne])
      (fun _ _ => Iff.rfl) (nodup_snoc h.placed.runQueue_nodup hrun) h.placed.exitQueue_nodup ?_
    exact
      { current_iff := by simp [ht', ht, hcurrent]
        runQueue_iff := by simp [ht', ht]
        exitQueue_iff := by simp [ht', ht, hexit]
        idle_iff := by simp [ht', ht, hidle]
        not_new := by simp [ht', ht]
        idle_runnable := fun _ => by simp [ht', ht, TaskState.isRunnable] }
  have hsumSet : ∀ f, runnableSum f (tasks.set slot (some t')) =
      runnableSum f s.tasks + f t' := by
    intro f
    have hcontribution : contribution f (some t') = f t' := rfl
    rw [runnableSum_set f hslot, hsum f, hcontribution]
    ring
  rw [hset] at hplaced
  refine ⟨?_, hplaced, ?_, ?_⟩
  · have := hslots₁.setTask (t := t') hlive rfl
    rwa [hset] at this
  · exact (congrArg (· + weightOf t') h.sumWeight).trans (hsumSet weightOf).symm
  · exact (congrArg (· + weightedRuntimeOf t') h.sumWeightedRuntime).trans
      (hsumSet weightedRuntimeOf).symm

/-! ## Reaping -/

/-- Emptying the slot of a live task. -/
theorem Slots.remove {slot : ℕ} (h : s.SlotsOk) (hindex : s.index id = some slot)
    (hslot : s.tasks[slot]? = some (some t)) :
    Slots (s.tasks.set slot none) (slot :: s.freeSlots) (Function.update s.index id none)
      s.nextTaskId := by
  have hlt : slot < s.tasks.length := (List.getElem?_eq_some_iff.mp hslot).1
  have hid : t.taskId = id := by
    obtain ⟨t', ht', hid'⟩ := h.index_some id slot hindex
    rw [hslot] at ht'
    cases ht'
    exact hid'
  refine ⟨fun id' slot' hindex' => ?_, fun slot' t' ht' => ?_, fun slot' => ?_, ?_,
    fun id' slot' hindex' => ?_⟩
  · have hne : id' ≠ id := fun heq => by
      rw [heq, Function.update_self] at hindex'
      cases hindex'
    rw [Function.update_of_ne hne] at hindex'
    obtain ⟨t', ht', hid'⟩ := h.index_some id' slot' hindex'
    have hslotNe : slot ≠ slot' := by
      rintro rfl
      rw [hslot] at ht'
      cases ht'
      exact hne (hid'.symm.trans hid)
    exact ⟨t', (List.getElem?_set_ne hslotNe).trans ht', hid'⟩
  · have hslotNe : slot ≠ slot' := by
      rintro rfl
      rw [List.getElem?_set_self hlt] at ht'
      cases ht'
    rw [List.getElem?_set_ne hslotNe] at ht'
    have hindex' := h.slot_some slot' t' ht'
    have hne : t'.taskId ≠ id := fun heq => by
      rw [heq, hindex] at hindex'
      exact hslotNe (Option.some.inj hindex')
    rwa [Function.update_of_ne hne]
  · rw [List.mem_cons]
    by_cases heq : slot = slot'
    · subst heq
      simp [hlt]
    · rw [List.getElem?_set_ne heq, ← h.free_iff]
      simp [Ne.symm heq]
  · refine List.nodup_cons.mpr ⟨fun hmem => ?_, h.free_nodup⟩
    rw [h.free_iff, hslot] at hmem
    cases hmem
  · by_cases heq : id' = id
    · rw [heq, Function.update_self] at hindex'
      cases hindex'
    · rw [Function.update_of_ne heq] at hindex'
      exact h.id_lt id' slot' hindex'

/-- Lookup after emptying the slot of a live task. -/
theorem Slots.task_removed {slot : ℕ} (h : s.SlotsOk) (hindex : s.index id = some slot) :
    (fun id' => (Function.update s.index id none id').bind
      fun slot' => ((s.tasks.set slot none)[slot']?).join) = Function.update s.task id none := by
  funext id'
  by_cases heq : id' = id
  · rw [heq, Function.update_self, Function.update_self, Option.bind_none]
  · rw [Function.update_of_ne heq, Function.update_of_ne heq]
    cases hindex' : s.index id' with
    | none => simp [task, hindex']
    | some slot' =>
      have hne : slot ≠ slot' := by
        rintro rfl
        obtain ⟨t₁, ht₁, hid₁⟩ := h.index_some id slot hindex
        obtain ⟨t₂, ht₂, hid₂⟩ := h.index_some id' slot hindex'
        obtain rfl := Option.some.inj (Option.some.inj (ht₁.symm.trans ht₂))
        exact heq (hid₂.symm.trans hid₁)
      simp [task, hindex', List.getElem?_set_ne hne]

/-- `reap_one` keeps the invariant: an exited task is in no sum and in no other queue. -/
theorem Inv.reapOne (h : Inv s) : Inv s.reapOne.2 := by
  unfold Scheduler.reapOne
  cases hqueue : s.exitQueue with
  | nil => exact h
  | cons id rest =>
    have hmem : id ∈ s.exitQueue := hqueue ▸ List.mem_cons_self
    obtain ⟨t, ht⟩ := h.placed.live id (Or.inr (Or.inr (Or.inr hmem)))
    have hp := h.placed.placedAs id t ht
    have hexited := hp.exitQueue_iff.mp hmem
    obtain ⟨slot, hindex, hslot, -⟩ := h.slots.slot_of_task ht
    have hnodup := List.nodup_cons.mp (hqueue ▸ h.placed.exitQueue_nodup)
    have hcurrent : s.current ≠ some id := fun hc => by
      rw [hp.current_iff.mp hc] at hexited
      cases hexited
    have hrun : id ∉ s.runQueue := fun hr => by
      rw [(hp.runQueue_iff.mp hr).1] at hexited
      cases hexited
    have hidle : s.idle ≠ some id := fun hi => by
      have := hp.idle_runnable (hp.idle_iff.mp hi)
      rw [hexited] at this
      cases this
    have hsum : ∀ f, runnableSum f (s.tasks.set slot none) = runnableSum f s.tasks := by
      intro f
      rw [runnableSum_set f hslot]
      simp [contribution, hexited, TaskState.isRunnable]
    have htask : ∀ id', id' ≠ id → (((Function.update s.index id none) id').bind
        fun slot' => ((s.tasks.set slot none)[slot']?).join) = s.task id' := fun id' hne =>
      (congrFun (h.slots.task_removed hindex) id').trans (Function.update_of_ne hne ..)
    simp only [if_neg hcurrent, hindex, hslot, Option.join_some]
    refine ⟨h.slots.remove hindex hslot, ⟨fun id' t' ht' => ?_, fun id' hid' => ?_,
      h.placed.runQueue_nodup, hnodup.2⟩, ?_, ?_⟩
    · have hne : id' ≠ id := fun heq => by
        simp [task, heq] at ht'
      have hp' := h.placed.placedAs id' t' ((htask id' hne).symm.trans ht')
      refine ⟨hp'.current_iff, hp'.runQueue_iff, ?_, hp'.idle_iff, hp'.not_new, hp'.idle_runnable⟩
      rw [← hp'.exitQueue_iff, hqueue]
      simp [hne]
    · have hne : id' ≠ id := by
        rintro rfl
        rcases hid' with hc | hi | hr | he
        · exact hcurrent hc
        · exact hidle hi
        · exact hrun hr
        · exact hnodup.1 he
      obtain ⟨t', ht'⟩ := h.placed.live id' (by
        rw [hqueue, List.mem_cons]
        exact hid'.imp_right (Or.imp_right (Or.imp_right Or.inr)))
      exact ⟨t', (htask id' hne).trans ht'⟩
    · exact h.sumWeight.trans (hsum weightOf).symm
    · exact h.sumWeightedRuntime.trans (hsum weightedRuntimeOf).symm

/-! ## Runs -/

/-- The operations on the scheduler. A wait queue is whatever its owner passes. -/
inductive Op
  | spawn
  | setNice (id : ℕ) (nice : ℤ)
  | tick (now : ℕ)
  | yieldCurrent (now : ℕ)
  | preempt (stackPointer now : ℕ)
  | prepareVoluntaryYield (now : ℕ)
  | sleepCurrentUntil (deadline now : ℕ)
  | wakeExpired (now : ℕ)
  | blockCurrent (reason : BlockReason) (queue : WaitQueue) (now : ℕ)
  | wakeOne (queue : WaitQueue)
  | wakeAll (queue : WaitQueue)
  | wakeTask (id : ℕ)
  | cancelWait (id : ℕ) (queue : WaitQueue)
  | exitCurrent (status : ℤ) (now : ℕ)
  | reapOne

/-- The idle task is not running: what callers guarantee before they block, sleep or exit. -/
def NotIdle (s : Scheduler) : Prop :=
  ∀ id, s.current = some id → s.idle ≠ some id

/-- One operation, whether it succeeds or fails. -/
def Step (s : Scheduler) : Op → Scheduler → Prop
  | .spawn, s' => s' = s.spawn.2
  | .setNice id nice, s' => s' = (s.setNice id nice).2
  | .tick now, s' => s' = (s.tick now).2
  | .yieldCurrent now, s' => s' = (s.yieldCurrent now).2
  | .preempt stackPointer now, s' => ∃ next, s.preempt stackPointer now = some (next, s')
  | .prepareVoluntaryYield now, s' => s' = (s.prepareVoluntaryYield now).2
  | .sleepCurrentUntil deadline now, s' =>
    s.NotIdle ∧ s' = (s.sleepCurrentUntil deadline now).2
  | .wakeExpired now, s' => s' = (s.wakeExpired now).2
  | .blockCurrent reason queue now, s' =>
    s.NotIdle ∧ s' = (s.blockCurrent reason queue now).1.2
  | .wakeOne queue, s' => s' = (s.wakeOne queue).1.2
  | .wakeAll queue, s' => s' = (s.wakeAll queue (queue.tasks.length + 1) 0).1.2
  | .wakeTask id, s' => s' = (s.wakeTask id).2
  | .cancelWait id queue, s' => s' = (s.cancelWait id queue).1.2
  | .exitCurrent status now, s' => s.NotIdle ∧ s' = (s.exitCurrent status now).2
  | .reapOne, s' => s' = s.reapOne.2

/-- The scheduler at boot: empty, with or without its idle task. -/
def Initial (s : Scheduler) : Prop :=
  ∃ policy, s = withPolicy policy ∨ s = ((withPolicy policy).spawnKernelTask true).2

/-- The empty scheduler satisfies the invariant. -/
theorem Inv.empty (policy : PolicyKind) : Inv (withPolicy policy) where
  slots :=
    { index_some := fun _ _ h => (by cases h)
      slot_some := fun _ _ h => (by cases h)
      free_iff := fun _ => by simp [withPolicy]
      free_nodup := List.nodup_nil
      id_lt := fun _ _ h => (by cases h) }
  placed :=
    { placedAs := fun _ _ h => (by cases h)
      live := fun _ h => by simp [withPolicy] at h
      runQueue_nodup := List.nodup_nil
      exitQueue_nodup := List.nodup_nil }
  sumWeight := rfl
  sumWeightedRuntime := rfl

/-- The scheduler with its idle task satisfies the invariant: the idle task is in no queue and in
no sum. -/
theorem Inv.boot (policy : PolicyKind) : Inv ((withPolicy policy).spawnKernelTask true).2 := by
  have h := Inv.empty policy
  set t : TaskControlBlock := { taskId := 1, state := .ready, isIdle := true } with ht
  obtain ⟨tasks, freeSlots, slot, hinsert, hslots, hslot, hother, hsum⟩ :=
    h.slots.insertTask (t := t) rfl
  have htask := hslots.task_inserted hslot hother
  have hboot : ((withPolicy policy).spawnKernelTask true).2 =
      { ({ withPolicy policy with nextTaskId := 2 }).insertTask t with idle := some 1 } := rfl
  rw [hboot]
  refine (congrArg (fun s : Scheduler => Inv { s with idle := some 1 }) hinsert).mpr
    ⟨hslots, ?_, ?_, ?_⟩
  · refine ⟨fun id' t' ht' => ?_, fun id' hid' => ?_, List.nodup_nil, List.nodup_nil⟩
    · have hlookup := (congrFun htask id').symm.trans ht'
      by_cases heq : id' = t.taskId
      · rw [heq, Function.update_self] at hlookup
        cases hlookup
        rw [heq]
        exact
          { current_iff := by simp [withPolicy, ht]
            runQueue_iff := by simp [withPolicy, ht]
            exitQueue_iff := by simp [withPolicy, ht]
            idle_iff := by simp [ht]
            not_new := by simp [ht]
            idle_runnable := fun _ => rfl }
      · rw [Function.update_of_ne heq] at hlookup
        contradiction
    · have heq : id' = t.taskId := by
        rcases hid' with hc | hi | hr | he
        · contradiction
        · exact (Option.some.inj hi).symm
        · contradiction
        · contradiction
      exact ⟨t, (congrFun htask id').trans (by rw [heq, Function.update_self])⟩
  · exact ((hsum weightOf).trans rfl).symm
  · exact ((hsum weightedRuntimeOf).trans rfl).symm

theorem Inv.initial (h : Initial s) : Inv s := by
  obtain ⟨policy, rfl | rfl⟩ := h
  · exact Inv.empty policy
  · exact Inv.boot policy

/-- Every operation keeps the invariant. -/
theorem Inv.step (h : Inv s) {op : Op} (hstep : Step s op s') : Inv s' := by
  cases op with
  | spawn => exact hstep ▸ h.spawn
  | setNice id nice => exact hstep ▸ h.setNice id nice
  | tick now => exact hstep ▸ h.tick now
  | yieldCurrent now => exact hstep ▸ h.schedule now
  | preempt stackPointer now =>
    obtain ⟨next, hrun⟩ := hstep
    exact h.preempt hrun
  | prepareVoluntaryYield now => exact hstep ▸ h.prepareVoluntaryYield now
  | sleepCurrentUntil deadline now =>
    obtain ⟨hidle, rfl⟩ := hstep
    exact h.sleepCurrentUntil hidle deadline now
  | wakeExpired now => exact hstep ▸ h.roused (.wakeExpired .refl now)
  | blockCurrent reason queue now =>
    obtain ⟨hidle, rfl⟩ := hstep
    exact h.blockCurrent hidle reason queue now
  | wakeOne queue => exact hstep ▸ h.roused (.wakeOne .refl queue)
  | wakeAll queue => exact hstep ▸ h.roused (.wakeAll .refl queue _ 0)
  | wakeTask id => exact hstep ▸ h.roused (.wakeTask .refl id)
  | cancelWait id queue => exact hstep ▸ h.roused (.cancelWait .refl id queue)
  | exitCurrent status now =>
    obtain ⟨hidle, rfl⟩ := hstep
    exact h.exitCurrent hidle status now
  | reapOne => exact hstep ▸ h.reapOne

/-! ## The placement of tasks in every reachable state -/

/-- Where a live task other than the idle task can be. -/
inductive Place
  | current
  | runQueue
  | blocked
  | exitQueue
  deriving DecidableEq, Repr

/-- The task is found in this place. -/
def InPlace (s : Scheduler) (id : ℕ) : Place → Prop
  | .current => s.current = some id
  | .runQueue => id ∈ s.runQueue
  | .blocked => ∃ t, s.task id = some t ∧ t.state = .blocked
  | .exitQueue => id ∈ s.exitQueue

/-- What the scheduler's bookkeeping promises: each live task other than the idle task is in exactly
one place, the queues hold live tasks of the right state, once each, the slots are consistent and
the cached sums are those over the runnable set. -/
structure Consistent (s : Scheduler) : Prop where
  place_unique : ∀ id t, s.task id = some t → t.isIdle = false → ∃! place, s.InPlace id place
  current_running : ∀ id, s.current = some id → ∃ t, s.task id = some t ∧ t.state = .running
  runQueue_ready : ∀ id ∈ s.runQueue,
    ∃ t, s.task id = some t ∧ t.state = .ready ∧ t.isIdle = false
  exitQueue_exited : ∀ id ∈ s.exitQueue, ∃ t, s.task id = some t ∧ t.state = .exited
  runQueue_nodup : s.runQueue.Nodup
  exitQueue_nodup : s.exitQueue.Nodup
  slots : Slots s.tasks s.freeSlots s.index s.nextTaskId
  sumWeight : s.sumWeight = runnableSum weightOf s.tasks
  sumWeightedRuntime : s.sumWeightedRuntime = runnableSum weightedRuntimeOf s.tasks

/-- The place a state stands for; a live task is never `New`. -/
def TaskState.place : TaskState → Place
  | .running => .current
  | .ready | .new => .runQueue
  | .blocked => .blocked
  | .exited => .exitQueue

/-- A live task other than the idle task is in the place its state stands for, and in no other. -/
theorem Inv.inPlace_iff (h : Inv s) (ht : s.task id = some t) (hnotIdle : t.isIdle = false)
    (place : Place) : s.InPlace id place ↔ place = TaskState.place t.state := by
  have hp := h.placed.placedAs id t ht
  have hnew := hp.not_new
  cases place with
  | current =>
    rw [InPlace, hp.current_iff]
    cases hstate : t.state <;> simp [TaskState.place]
  | runQueue =>
    rw [InPlace, hp.runQueue_iff, hnotIdle]
    cases hstate : t.state <;> simp_all [TaskState.place]
  | blocked =>
    have hblocked : s.InPlace id .blocked ↔ t.state = .blocked := by
      simp [InPlace, ht]
    rw [hblocked]
    cases hstate : t.state <;> simp [TaskState.place]
  | exitQueue =>
    rw [InPlace, hp.exitQueue_iff]
    cases hstate : t.state <;> simp [TaskState.place]

theorem Inv.consistent (h : Inv s) : s.Consistent where
  place_unique id t ht hnotIdle := by
    refine ⟨TaskState.place t.state, (h.inPlace_iff ht hnotIdle _).mpr rfl, fun place hplace => ?_⟩
    exact (h.inPlace_iff ht hnotIdle place).mp hplace
  current_running _ hcurrent := h.current_task hcurrent
  runQueue_ready id hmem := by
    obtain ⟨t, ht⟩ := h.placed.live id (Or.inr (Or.inr (Or.inl hmem)))
    exact ⟨t, ht, (h.placed.placedAs id t ht).runQueue_iff.mp hmem⟩
  exitQueue_exited id hmem := by
    obtain ⟨t, ht⟩ := h.placed.live id (Or.inr (Or.inr (Or.inr hmem)))
    exact ⟨t, ht, (h.placed.placedAs id t ht).exitQueue_iff.mp hmem⟩
  runQueue_nodup := h.placed.runQueue_nodup
  exitQueue_nodup := h.placed.exitQueue_nodup
  slots := h.slots
  sumWeight := h.sumWeight
  sumWeightedRuntime := h.sumWeightedRuntime

/-- In every state reachable from boot the scheduler is consistent. -/
theorem reachable_consistent (h : Run.Reachable Initial Step s) : s.Consistent :=
  Inv.consistent (h.invariant (fun _ hinit => Inv.initial hinit) fun _ _ _ hinv hstep =>
    hinv.step hstep)

/-- Boot with the idle task, spawn one task and dispatch it. -/
def oneRunning : Scheduler :=
  (((withPolicy .eevdf).spawnKernelTask true).2.spawn.2.yieldCurrent 10).2

theorem reachable_oneRunning : Run.Reachable Initial Step oneRunning := by
  have hspawn : Run.Reachable Initial Step ((withPolicy .eevdf).spawnKernelTask true).2.spawn.2 :=
    .next (.start ⟨.eevdf, Or.inr rfl⟩) (show Step _ .spawn _ from rfl)
  exact .next hspawn (show Step _ (.yieldCurrent 10) _ from rfl)

theorem oneRunning_notIdle : oneRunning.NotIdle := by
  have hcurrent : oneRunning.current = some 2 := by decide +kernel
  have hidle : oneRunning.idle = some 1 := by decide +kernel
  intro id hid
  rw [hcurrent] at hid
  cases hid
  rw [hidle]
  decide

/-- The dispatched task goes to sleep. -/
theorem reachable_consistent_oneSleeping : (oneRunning.sleepCurrentUntil 50 20).2.Consistent :=
  reachable_consistent (.next reachable_oneRunning
    (show Step _ (.sleepCurrentUntil 50 20) _ from ⟨oneRunning_notIdle, rfl⟩))

end Scheduler

end SaeOS.Task
