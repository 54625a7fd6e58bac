import Mathlib.Data.List.Perm.Subperm
import Mathlib.Data.List.ReduceOption
import SaeOS.Task.SchedulerRun

/-!
# The reserved run queue

Interrupt paths push onto the run queue and must not allocate, so `insert_task` reserves room in it for every
live task. A `Metered` scheduler carries the capacity of the queue's buffer beside the scheduler and writes
down, at each push, the length and the capacity it finds; apart from that it is the scheduler.

`reserve` may reserve more than it is asked for, so a spawn leaves any capacity its contract allows.
-/

namespace SaeOS.Task

namespace Scheduler

/-! ## Live tasks -/

/-- The ids of the tasks in the slots; `index.len()` is their number. -/
def liveIds (s : Scheduler) : List ℕ :=
  s.tasks.reduceOption.map TaskControlBlock.taskId

variable {s s' : Scheduler} {id now : ℕ} {t : TaskControlBlock}

theorem Slots.mem_liveIds (h : s.SlotsOk) : id ∈ s.liveIds ↔ (s.index id).isSome := by
  rw [liveIds, List.mem_map, Option.isSome_iff_exists]
  constructor
  · rintro ⟨t, hmem, rfl⟩
    obtain ⟨slot, hslot⟩ := List.mem_iff_getElem?.mp (List.reduceOption_mem_iff.mp hmem)
    exact ⟨slot, h.slot_some slot t hslot⟩
  · rintro ⟨slot, hindex⟩
    obtain ⟨t, hslot, hid⟩ := h.index_some id slot hindex
    exact ⟨t, List.reduceOption_mem_iff.mpr (List.mem_of_getElem? hslot), hid⟩

/-- Every id is in one slot. -/
theorem Slots.liveIds_nodup (h : s.SlotsOk) : s.liveIds.Nodup := by
  have hpair : s.tasks.Pairwise fun a b => ∀ t u, a = some t → b = some u → t.taskId ≠ u.taskId := by
    rw [List.pairwise_iff_getElem]
    intro i j hi hj hlt t u ht hu heq
    have hslot := h.slot_some i t (by rw [List.getElem?_eq_getElem hi, ht])
    have hslot' := h.slot_some j u (by rw [List.getElem?_eq_getElem hj, hu])
    rw [heq, hslot'] at hslot
    exact absurd (Option.some.inj hslot) (by omega)
  rw [liveIds, List.Nodup, List.pairwise_map, List.reduceOption, List.pairwise_filterMap]
  exact hpair.imp fun hne t ht u hu => hne t u ht hu

/-- A scheduler with no other tasks has no more of them. -/
theorem Slots.length_liveIds_le (h : s.SlotsOk) (h' : s'.SlotsOk)
    (hindex : ∀ id, (s'.index id).isSome → (s.index id).isSome) : s'.liveIds.length ≤ s.liveIds.length := by
  have hsubset : s'.liveIds ⊆ s.liveIds := by
    intro id hmem
    exact h.mem_liveIds.mpr (hindex id (h'.mem_liveIds.mp hmem))
  exact (List.Nodup.subperm h'.liveIds_nodup hsubset).length_le

/-- A queue holds live tasks once each, so it is no longer than there are live tasks. -/
theorem Inv.length_runQueue_le (h : Inv s) : s.runQueue.length ≤ s.liveIds.length := by
  have hsubset : s.runQueue ⊆ s.liveIds := by
    intro id hmem
    obtain ⟨t, ht⟩ := h.placed.live id (.inr (.inr (.inl hmem)))
    obtain ⟨slot, hindex, -⟩ := h.slots.slot_of_task ht
    exact h.slots.mem_liveIds.mpr (by rw [hindex]; rfl)
  exact (List.Nodup.subperm h.placed.runQueue_nodup hsubset).length_le

/-! ## Operations that keep the ids -/

@[simp]
theorem index_setTask (s : Scheduler) (id : ℕ) (t : TaskControlBlock) : (s.setTask id t).index = s.index := by
  unfold setTask
  split <;> rfl

@[simp]
theorem index_refreshAverage (s : Scheduler) : s.refreshAverage.index = s.index := by
  rw [refreshAverage_eq]

@[simp]
theorem index_charge (s : Scheduler) (id now : ℕ) : (s.charge id now).2.index = s.index := by
  unfold charge
  split
  · rfl
  · dsimp only
    split
    · exact index_setTask ..
    · rw [index_refreshAverage]
      exact index_setTask ..

@[simp]
theorem index_leave (s : Scheduler) (id : ℕ) : (s.leave id).index = s.index := by
  unfold leave
  split
  · rfl
  · rw [index_refreshAverage]
    exact index_setTask ..

@[simp]
theorem index_join (s : Scheduler) (id : ℕ) : (s.join id).index = s.index := by
  unfold join
  split
  · rfl
  · dsimp only
    split <;> exact (index_refreshAverage _).trans (index_setTask ..)

@[simp]
theorem index_pickNext (s : Scheduler) : s.pickNext.2.index = s.index := by
  unfold pickNext
  split
  · rfl
  · dsimp only
    split <;> rfl

@[simp]
theorem index_switchToNext (s : Scheduler) (previous : Option ℕ) (now : ℕ) :
    (s.switchToNext previous now).2.index = s.index := by
  have hpick := index_pickNext { s with wakeupPreempt := false }
  unfold switchToNext
  rcases hnext : ({ s with wakeupPreempt := false } : Scheduler).pickNext with ⟨next, s₁⟩
  rw [hnext] at hpick
  dsimp only
  cases next with
  | none => dsimp only; split <;> exact hpick
  | some id =>
    dsimp only
    cases s₁.task id with
    | none => exact hpick
    | some t =>
      dsimp only
      cases t.transition .running with
      | error e => exact hpick
      | ok t => dsimp only; split <;> exact (index_setTask ..).trans hpick

@[simp]
theorem index_requeueCurrent (s : Scheduler) (now : ℕ) : (s.requeueCurrent now).2.index = s.index := by
  unfold requeueCurrent
  split
  · rfl
  split
  · rfl
  split
  · dsimp only
    split
    · exact index_charge ..
    split
    · exact index_charge ..
    split <;> exact (index_setTask ..).trans (index_charge ..)
  · rfl

@[simp]
theorem index_schedule (s : Scheduler) (now : ℕ) : (s.schedule now).2.index = s.index := by
  have hrequeue := index_requeueCurrent { s with clock := now } now
  unfold schedule
  rcases hresult : ({ s with clock := now } : Scheduler).requeueCurrent now with ⟨result, s₁⟩
  rw [hresult] at hrequeue
  dsimp only
  rw [hresult]
  cases result with
  | error e => exact hrequeue
  | ok => exact (index_switchToNext ..).trans hrequeue

@[simp]
theorem index_prepareVoluntaryYield (s : Scheduler) (now : ℕ) :
    (s.prepareVoluntaryYield now).2.index = s.index := by
  obtain heq | ⟨current, t, stats, -, -, heq⟩ := prepareVoluntaryYield_cases s now
  · rw [heq]
  · rw [heq]
    exact (index_schedule ..).trans (index_setTask ..)

@[simp]
theorem index_stopCurrent (s : Scheduler) (state : TaskState) (now : ℕ) :
    (s.stopCurrent state now).2.index = s.index := by
  unfold stopCurrent stopRunning
  split
  · rfl
  split
  · rfl
  split
  · rfl
  dsimp only
  split
  · exact (index_leave ..).trans (index_charge ..)
  split <;> exact (index_setTask ..).trans ((index_leave ..).trans (index_charge ..))

theorem index_stopThen (s : Scheduler) (state : TaskState) (now : ℕ) (edit : TaskControlBlock → TaskControlBlock)
    {queue : ℕ → Scheduler → Scheduler} (hqueue : ∀ id s, (queue id s).index = s.index) :
    (s.stopThen state now edit queue).2.index = s.index := by
  have hstop := index_stopCurrent s state now
  unfold stopThen
  split <;> rename_i heq <;> rw [heq] at hstop
  · exact hstop
  split
  · exact hstop
  · rw [index_switchToNext, hqueue, index_setTask]
    exact hstop

@[simp]
theorem index_sleepCurrentUntil (s : Scheduler) (deadline now : ℕ) :
    (s.sleepCurrentUntil deadline now).2.index = s.index :=
  index_stopThen s .blocked now _ fun _ _ => rfl

@[simp]
theorem index_blockCurrent (s : Scheduler) (reason : BlockReason) (queue : WaitQueue) (now : ℕ) :
    (s.blockCurrent reason queue now).1.2.index = s.index :=
  index_stopThen s .blocked now _ fun _ _ => rfl

@[simp]
theorem index_exitCurrent (s : Scheduler) (status : ℤ) (now : ℕ) :
    (s.exitCurrent status now).2.index = s.index :=
  index_stopThen s .exited now _ fun _ _ => rfl

@[simp]
theorem index_makeReady (s : Scheduler) (id : ℕ) : (s.makeReady id).index = s.index := by
  unfold makeReady
  refine (index_join ..).trans ?_
  split
  · rfl
  · exact index_setTask ..

theorem Roused.index_eq (h : Roused True s s') : s'.index = s.index := by
  induction h with
  | refl => rfl
  | pop _ _ ih => exact ih
  | makeReady _ _ _ ih => exact (index_makeReady ..).trans ih

@[simp]
theorem index_setNice (s : Scheduler) (id : ℕ) (nice : ℤ) : (s.setNice id nice).2.index = s.index := by
  unfold setNice
  dsimp only
  split
  · rfl
  split
  · rfl
  split
  · exact (index_refreshAverage _).trans (index_setTask ..)
  · exact index_setTask ..

@[simp]
theorem index_tick (s : Scheduler) (now : ℕ) : (s.tick now).2.index = s.index := by
  unfold tick
  dsimp only
  split
  · rfl
  · exact index_charge ..

/-- Reaping drops an id. -/
theorem index_reapOne (s : Scheduler) (id : ℕ) : (s.reapOne.2.index id).isSome → (s.index id).isSome := by
  have hdrop : ∀ reaped, (Function.update s.index reaped none id).isSome → (s.index id).isSome := by
    intro reaped hsome
    by_cases heq : id = reaped
    · rw [heq, Function.update_self] at hsome
      contradiction
    · rwa [Function.update_of_ne heq] at hsome
  unfold reapOne
  split
  · exact fun hsome => hsome
  split
  · exact fun hsome => hsome
  dsimp only
  split
  · exact fun hsome => hsome
  · split <;> exact hdrop _

@[simp]
theorem index_savedFrame (s : Scheduler) (stackPointer : ℕ) :
    (s.savedFrame stackPointer).index = s.index := by
  unfold savedFrame
  split
  · rfl
  split
  · rfl
  · exact index_setTask ..

theorem index_preempt {stackPointer next : ℕ} (h : s.preempt stackPointer now = some (next, s')) :
    s'.index = s.index := by
  obtain ⟨stats, -, rfl⟩ := preempt_schedule h
  exact (index_schedule ..).trans (index_savedFrame ..)

end Scheduler

/-! ## The metered scheduler -/

/-- What a push onto the run queue finds. -/
structure Push where
  length : ℕ
  capacity : ℕ
  deriving DecidableEq, Repr

/-- The scheduler, the capacity of its run queue, and the pushes so far. -/
structure Metered where
  scheduler : Scheduler
  capacity : ℕ
  pushes : List Push

namespace Metered

open Scheduler

/-- Go on with `s'`, which at most one push made of the scheduler. The queue is longer if there was one; a full
queue is reallocated. -/
def observe (m : Metered) (s' : Scheduler) : Metered :=
  if m.scheduler.runQueue.length < s'.runQueue.length then
    { scheduler := s'
      capacity := max m.capacity s'.runQueue.length
      pushes := m.pushes ++ [⟨m.scheduler.runQueue.length, m.capacity⟩] }
  else { m with scheduler := s' }

/-- `schedule` of `s₀`, which ends in `s'`: the running task may be pushed before the next is picked. -/
def scheduled (m : Metered) (s₀ : Scheduler) (now : ℕ) (s' : Scheduler) : Metered :=
  { m.observe (({ s₀ with clock := now }).requeueCurrent now).2 with scheduler := s' }

def prepareVoluntaryYield (m : Metered) (now : ℕ) : Metered :=
  match m.scheduler.current with
  | none => m
  | some current =>
    match m.scheduler.task current with
    | none => m
    | some t =>
      if t.state ≠ .running then m
      else m.scheduled (m.scheduler.setTask current { t with resumeKind := .voluntary }) now
        (m.scheduler.prepareVoluntaryYield now).2

/-- `wake_all`: every wake may push. -/
def wakeAll : ℕ → Metered → WaitQueue → Metered
  | 0, m, _ => m
  | budget + 1, m, queue =>
    match m.scheduler.wakeOne queue with
    | ((.error _, s), _) => m.observe s
    | ((.ok none, s), _) => m.observe s
    | ((.ok (some _), s), queue) => wakeAll budget (m.observe s) queue

/-- The loop of `wake_expired`: every wake may push. -/
def wakeExpiredLoop (now : ℕ) : ℕ → Metered → Metered
  | 0, m => m
  | budget + 1, m =>
    match m.scheduler.sleepers.getLast? with
    | none => m
    | some (deadline, id) =>
      if deadline > now then m
      else
        let m := { m with scheduler.sleepers := m.scheduler.sleepers.dropLast }
        if m.scheduler.stillSleeping deadline id then
          wakeExpiredLoop now budget (m.observe (m.scheduler.makeReady id))
        else wakeExpiredLoop now budget m

/-- `insert_task` reserves room for every task, the new one among them, before that is pushed. -/
def Spawned (m m' : Metered) : Prop :=
  ∃ reserved, m.capacity ≤ reserved ∧
    m.scheduler.runQueue.length + (m.scheduler.spawn.2.liveIds.length - m.scheduler.runQueue.length) ≤
      reserved ∧
    m' = ({ m with capacity := reserved }).observe m.scheduler.spawn.2

/-- One operation. -/
def Step (m : Metered) : Op → Metered → Prop
  | .spawn, m' => m.Spawned m'
  | .setNice id nice, m' => m' = { m with scheduler := (m.scheduler.setNice id nice).2 }
  | .tick now, m' => m' = { m with scheduler := (m.scheduler.tick now).2 }
  | .yieldCurrent now, m' => m' = m.scheduled m.scheduler now (m.scheduler.yieldCurrent now).2
  | .preempt stackPointer now, m' =>
    ∃ next s', m.scheduler.preempt stackPointer now = some (next, s') ∧
      m' = m.scheduled (m.scheduler.savedFrame stackPointer) now s'
  | .prepareVoluntaryYield now, m' => m' = m.prepareVoluntaryYield now
  | .sleepCurrentUntil deadline now, m' =>
    m.scheduler.NotIdle ∧ m' = { m with scheduler := (m.scheduler.sleepCurrentUntil deadline now).2 }
  | .wakeExpired now, m' => m' = wakeExpiredLoop now m.scheduler.sleepers.length m
  | .blockCurrent reason queue now, m' =>
    m.scheduler.NotIdle ∧ m' = { m with scheduler := (m.scheduler.blockCurrent reason queue now).1.2 }
  | .wakeOne queue, m' => m' = m.observe (m.scheduler.wakeOne queue).1.2
  | .wakeAll queue, m' => m' = wakeAll (queue.tasks.length + 1) m queue
  | .wakeTask id, m' => m' = m.observe (m.scheduler.wakeTask id).2
  | .cancelWait id queue, m' => m' = m.observe (m.scheduler.cancelWait id queue).1.2
  | .exitCurrent status now, m' =>
    m.scheduler.NotIdle ∧ m' = { m with scheduler := (m.scheduler.exitCurrent status now).2 }
  | .reapOne, m' => m' = { m with scheduler := m.scheduler.reapOne.2 }

/-- At boot nothing has been pushed, and there is room for the idle task, if there is one. -/
def Initial (m : Metered) : Prop :=
  Scheduler.Initial m.scheduler ∧ m.scheduler.liveIds.length ≤ m.capacity ∧ m.pushes = []

/-! ## It is the scheduler -/

variable {m m' : Metered} {s' : Scheduler} {op : Op}

@[simp]
theorem observe_scheduler (m : Metered) (s' : Scheduler) : (m.observe s').scheduler = s' := by
  unfold observe
  split <;> rfl

theorem prepareVoluntaryYield_scheduler (m : Metered) (now : ℕ) :
    (m.prepareVoluntaryYield now).scheduler = (m.scheduler.prepareVoluntaryYield now).2 := by
  unfold prepareVoluntaryYield
  split
  · rename_i hcurrent
    rw [Scheduler.prepareVoluntaryYield, hcurrent]
  rename_i current hcurrent
  split
  · rename_i ht
    simp only [Scheduler.prepareVoluntaryYield, hcurrent, ht]
  rename_i t ht
  split
  · rename_i hstate
    simp only [Scheduler.prepareVoluntaryYield, hcurrent, ht, if_pos hstate]
  · rfl

theorem wakeAll_scheduler (budget : ℕ) (m : Metered) (queue : WaitQueue) (count : ℕ) :
    (wakeAll budget m queue).scheduler = (m.scheduler.wakeAll queue budget count).1.2 := by
  induction budget generalizing m queue count with
  | zero => rfl
  | succ budget ih =>
    rw [wakeAll, Scheduler.wakeAll]
    obtain ⟨⟨result, s⟩, queue'⟩ := m.scheduler.wakeOne queue
    rcases result with error | woken
    · exact observe_scheduler ..
    · cases woken with
      | none => exact observe_scheduler ..
      | some id =>
        dsimp only
        rw [ih, observe_scheduler]

theorem wakeExpiredLoop_scheduler (now budget : ℕ) (m : Metered) (woken : ℕ) :
    (wakeExpiredLoop now budget m).scheduler = (Scheduler.wakeExpiredLoop now budget woken m.scheduler).2 := by
  induction budget generalizing m woken with
  | zero => rfl
  | succ budget ih =>
    rw [wakeExpiredLoop, Scheduler.wakeExpiredLoop]
    cases m.scheduler.sleepers.getLast? with
    | none => rfl
    | some key =>
      obtain ⟨deadline, id⟩ := key
      dsimp only
      split
      · rfl
      split
      · rw [ih, observe_scheduler]
      · exact ih ..

/-- A metered step is a step of the scheduler. -/
theorem Step.scheduler (h : Step m op m') : Scheduler.Step m.scheduler op m'.scheduler := by
  cases op with
  | spawn =>
    obtain ⟨reserved, -, -, rfl⟩ := h
    exact observe_scheduler ..
  | preempt stackPointer now =>
    obtain ⟨next, s', hrun, rfl⟩ := h
    exact ⟨next, hrun⟩
  | prepareVoluntaryYield now => exact h ▸ prepareVoluntaryYield_scheduler m now
  | wakeExpired now => exact h ▸ wakeExpiredLoop_scheduler now _ m 0
  | wakeAll queue => exact h ▸ wakeAll_scheduler _ m queue 0
  | sleepCurrentUntil deadline now =>
    obtain ⟨hidle, rfl⟩ := h
    exact ⟨hidle, rfl⟩
  | blockCurrent reason queue now =>
    obtain ⟨hidle, rfl⟩ := h
    exact ⟨hidle, rfl⟩
  | exitCurrent status now =>
    obtain ⟨hidle, rfl⟩ := h
    exact ⟨hidle, rfl⟩
  | wakeOne queue => exact h ▸ observe_scheduler ..
  | wakeTask id => exact h ▸ observe_scheduler ..
  | cancelWait id queue => exact h ▸ observe_scheduler ..
  | setNice id nice | tick now | yieldCurrent now | reapOne =>
    obtain rfl := h
    exact rfl

/-- Every step of the scheduler is one of the metered scheduler. -/
theorem exists_step (h : Scheduler.Step m.scheduler op s') : ∃ m', Step m op m' ∧ m'.scheduler = s' := by
  cases op with
  | spawn =>
    obtain rfl := h
    exact ⟨_, ⟨max m.capacity _, le_max_left _ _, le_max_right _ _, rfl⟩, observe_scheduler ..⟩
  | preempt stackPointer now =>
    obtain ⟨next, hrun⟩ := h
    exact ⟨_, ⟨next, s', hrun, rfl⟩, rfl⟩
  | prepareVoluntaryYield now => exact ⟨_, rfl, (prepareVoluntaryYield_scheduler m now).trans h.symm⟩
  | wakeExpired now => exact ⟨_, rfl, (wakeExpiredLoop_scheduler now _ m 0).trans h.symm⟩
  | wakeAll queue => exact ⟨_, rfl, (wakeAll_scheduler _ m queue 0).trans h.symm⟩
  | sleepCurrentUntil deadline now =>
    obtain ⟨hidle, rfl⟩ := h
    exact ⟨_, ⟨hidle, rfl⟩, rfl⟩
  | blockCurrent reason queue now =>
    obtain ⟨hidle, rfl⟩ := h
    exact ⟨_, ⟨hidle, rfl⟩, rfl⟩
  | exitCurrent status now =>
    obtain ⟨hidle, rfl⟩ := h
    exact ⟨_, ⟨hidle, rfl⟩, rfl⟩
  | wakeOne queue => exact ⟨_, rfl, (observe_scheduler ..).trans h.symm⟩
  | wakeTask id => exact ⟨_, rfl, (observe_scheduler ..).trans h.symm⟩
  | cancelWait id queue => exact ⟨_, rfl, (observe_scheduler ..).trans h.symm⟩
  | setNice id nice | tick now | yieldCurrent now | reapOne => exact ⟨_, rfl, h.symm⟩

/-- Every state of the scheduler that is reached is reached with a meter. -/
theorem exists_reachable {s : Scheduler} (h : Run.Reachable Scheduler.Initial Scheduler.Step s) :
    ∃ m, Run.Reachable Initial Step m ∧ m.scheduler = s := by
  refine h.simulation (R := fun (s : Scheduler) (m : Metered) => m.scheduler = s) ?_ ?_
  · intro s hinit
    exact ⟨⟨s, s.liveIds.length, []⟩, ⟨hinit, le_rfl, rfl⟩, rfl⟩
  · intro s m op s' heq hstep
    exact exists_step (heq ▸ hstep)

/-! ## Room for every push -/

/-- There is room for every live task, and every push so far had room. -/
structure Reserved (m : Metered) : Prop where
  inv : Inv m.scheduler
  live_le : m.scheduler.liveIds.length ≤ m.capacity
  pushes_fit : ∀ push ∈ m.pushes, push.length < push.capacity

theorem Reserved.initial (h : Initial m) : m.Reserved where
  inv := Inv.initial h.1
  live_le := h.2.1
  pushes_fit := by
    rw [h.2.2]
    simp

/-- A step without a push that adds no task. -/
theorem Reserved.keep (h : m.Reserved) (hinv : Inv s')
    (hindex : ∀ id, (s'.index id).isSome → (m.scheduler.index id).isSome) :
    ({ m with scheduler := s' } : Metered).Reserved where
  inv := hinv
  live_le := (h.inv.slots.length_liveIds_le hinv.slots hindex).trans h.live_le
  pushes_fit := h.pushes_fit

theorem Reserved.keepIndex (h : m.Reserved) (hinv : Inv s') (hindex : s'.index = m.scheduler.index) :
    ({ m with scheduler := s' } : Metered).Reserved :=
  h.keep hinv fun id => by rw [hindex]; exact fun hsome => hsome

/-- A push that leaves the queue no longer than there are tasks had room. -/
theorem Reserved.observe_fit (h : m.Reserved) (hle : s'.runQueue.length ≤ m.capacity) :
    (m.observe s').capacity = m.capacity ∧
      ∀ push ∈ (m.observe s').pushes, push.length < push.capacity := by
  unfold observe
  split
  · rename_i hlonger
    refine ⟨max_eq_left hle, ?_⟩
    intro push hmem
    rcases List.mem_append.mp hmem with hbefore | hnew
    · exact h.pushes_fit push hbefore
    · rw [List.mem_singleton.mp hnew]
      exact hlonger.trans_le hle
  · exact ⟨rfl, h.pushes_fit⟩

theorem Reserved.observe (h : m.Reserved) (hinv : Inv s') (hindex : s'.index = m.scheduler.index) :
    (m.observe s').Reserved := by
  have hlive : s'.liveIds.length ≤ m.capacity :=
    (h.inv.slots.length_liveIds_le hinv.slots fun id => by rw [hindex]; exact fun hsome => hsome).trans h.live_le
  obtain ⟨hcapacity, hfit⟩ := h.observe_fit (hinv.length_runQueue_le.trans hlive)
  refine ⟨?_, ?_, hfit⟩
  · rw [observe_scheduler]
    exact hinv
  · rw [observe_scheduler, hcapacity]
    exact hlive

/-- The push of a requeue had room too: without a running task the requeued scheduler is consistent. -/
theorem Reserved.scheduled (h : m.Reserved) {s₀ : Scheduler} (h₀ : Inv s₀)
    (hindex₀ : s₀.index = m.scheduler.index) (now : ℕ) (hinv : Inv s') (hindex : s'.index = m.scheduler.index) :
    (m.scheduled s₀ now s').Reserved := by
  obtain ⟨s₁, hrequeue, h₁⟩ := (h₀.setClock now).requeueCurrent now
  have hindex₁ : s₁.index = m.scheduler.index := by
    have heq := index_requeueCurrent { s₀ with clock := now } now
    rw [hrequeue] at heq
    exact heq.trans hindex₀
  have hlive₁ : ({ s₁ with current := none } : Scheduler).liveIds.length ≤ m.capacity := by
    refine (h.inv.slots.length_liveIds_le h₁.slots ?_).trans h.live_le
    intro id hsome
    rw [← hindex₁]
    exact hsome
  have hlength : s₁.runQueue.length ≤ m.capacity := h₁.length_runQueue_le.trans hlive₁
  obtain ⟨hcapacity, hfit⟩ := h.observe_fit hlength
  have hlive : s'.liveIds.length ≤ m.capacity :=
    (h.inv.slots.length_liveIds_le hinv.slots fun id => by rw [hindex]; exact fun hsome => hsome).trans h.live_le
  unfold Metered.scheduled
  rw [hrequeue]
  exact ⟨hinv, hcapacity ▸ hlive, hfit⟩

theorem Reserved.prepareVoluntaryYield (h : m.Reserved) (now : ℕ) : (m.prepareVoluntaryYield now).Reserved := by
  unfold Metered.prepareVoluntaryYield
  split
  · exact h
  split
  · exact h
  rename_i current _ t ht
  split
  · exact h
  · exact h.scheduled (h.inv.setTask (t := { t with resumeKind := .voluntary }) ht ⟨rfl, rfl, rfl, rfl⟩)
      (index_setTask ..) now
      (h.inv.prepareVoluntaryYield now) (index_prepareVoluntaryYield ..)

theorem Reserved.observe_roused (h : m.Reserved) {s' : Scheduler}
    (hroused : Scheduler.Roused True m.scheduler s') : (m.observe s').Reserved :=
  h.observe (h.inv.roused hroused) hroused.index_eq

theorem Reserved.wakeAll (h : m.Reserved) (budget : ℕ) (queue : WaitQueue) :
    (wakeAll budget m queue).Reserved := by
  induction budget generalizing m queue with
  | zero => exact h
  | succ budget ih =>
    have hobserved := h.observe_roused (.wakeOne .refl queue)
    rw [Metered.wakeAll]
    split <;> rename_i heq <;> rw [heq] at hobserved
    · exact hobserved
    · exact hobserved
    · exact ih hobserved _

theorem Reserved.wakeExpiredLoop (h : m.Reserved) (now budget : ℕ) :
    (wakeExpiredLoop now budget m).Reserved := by
  induction budget generalizing m with
  | zero => exact h
  | succ budget ih =>
    rw [Metered.wakeExpiredLoop]
    split
    · exact h
    rename_i deadline id _
    split
    · exact h
    have hpopped : ({ m with scheduler.sleepers := m.scheduler.sleepers.dropLast } : Metered).Reserved :=
      ⟨⟨h.inv.slots, h.inv.placed, h.inv.sumWeight, h.inv.sumWeightedRuntime⟩, h.live_le, h.pushes_fit⟩
    dsimp only
    split
    · rename_i hsleeping
      obtain ⟨t, ht, hblocked, -⟩ := stillSleeping_iff.mp hsleeping
      exact ih (hpopped.observe (hpopped.inv.makeReady ht hblocked) (index_makeReady ..))
    · exact ih hpopped

theorem Reserved.spawned (h : m.Reserved) (hspawn : m.Spawned m') : m'.Reserved := by
  obtain ⟨reserved, hle, hroom, rfl⟩ := hspawn
  have hinv := h.inv.spawn
  have hlive : m.scheduler.spawn.2.liveIds.length ≤ reserved := by omega
  have hroomy : ({ m with capacity := reserved } : Metered).Reserved :=
    ⟨h.inv, h.live_le.trans hle, h.pushes_fit⟩
  obtain ⟨hcapacity, hfit⟩ := hroomy.observe_fit (hinv.length_runQueue_le.trans hlive)
  refine ⟨?_, ?_, hfit⟩
  · rw [observe_scheduler]
    exact hinv
  · rw [observe_scheduler, hcapacity]
    exact hlive

theorem Reserved.step (h : m.Reserved) (hstep : Step m op m') : m'.Reserved := by
  have hinv : Inv m'.scheduler := h.inv.step hstep.scheduler
  cases op with
  | spawn => exact h.spawned hstep
  | yieldCurrent now =>
    obtain rfl := hstep
    exact h.scheduled h.inv rfl now hinv (index_schedule ..)
  | preempt stackPointer now =>
    obtain ⟨next, s', hrun, rfl⟩ := hstep
    exact h.scheduled (h.inv.savedFrame stackPointer) (index_savedFrame ..) now hinv
      (index_preempt hrun)
  | prepareVoluntaryYield now => exact hstep ▸ h.prepareVoluntaryYield now
  | wakeExpired now => exact hstep ▸ h.wakeExpiredLoop now _
  | wakeAll queue => exact hstep ▸ h.wakeAll _ queue
  | wakeOne queue => exact hstep ▸ h.observe_roused (.wakeOne .refl queue)
  | wakeTask id => exact hstep ▸ h.observe_roused (.wakeTask .refl id)
  | cancelWait id queue => exact hstep ▸ h.observe_roused (.cancelWait .refl id queue)
  | setNice id nice =>
    obtain rfl := hstep
    exact h.keepIndex hinv (index_setNice ..)
  | tick now =>
    obtain rfl := hstep
    exact h.keepIndex hinv (index_tick ..)
  | sleepCurrentUntil deadline now =>
    obtain ⟨-, rfl⟩ := hstep
    exact h.keepIndex hinv (index_sleepCurrentUntil ..)
  | blockCurrent reason queue now =>
    obtain ⟨-, rfl⟩ := hstep
    exact h.keepIndex hinv (index_blockCurrent ..)
  | exitCurrent status now =>
    obtain ⟨-, rfl⟩ := hstep
    exact h.keepIndex hinv (index_exitCurrent ..)
  | reapOne =>
    obtain rfl := hstep
    exact h.keep hinv (index_reapOne m.scheduler)

/-! ## The capacity does not shrink -/

theorem capacity_le_observe (m : Metered) (s' : Scheduler) : m.capacity ≤ (m.observe s').capacity := by
  unfold observe
  split
  · exact le_max_left _ _
  · exact le_rfl

theorem capacity_le_wakeAll (budget : ℕ) (m : Metered) (queue : WaitQueue) :
    m.capacity ≤ (wakeAll budget m queue).capacity := by
  induction budget generalizing m queue with
  | zero => exact le_rfl
  | succ budget ih =>
    rw [wakeAll]
    split
    · exact capacity_le_observe ..
    · exact capacity_le_observe ..
    · exact (capacity_le_observe ..).trans (ih ..)

theorem capacity_le_wakeExpiredLoop (now budget : ℕ) (m : Metered) :
    m.capacity ≤ (wakeExpiredLoop now budget m).capacity := by
  induction budget generalizing m with
  | zero => exact le_rfl
  | succ budget ih =>
    rw [wakeExpiredLoop]
    split
    · exact le_rfl
    split
    · exact le_rfl
    dsimp only
    split
    · exact (capacity_le_observe ..).trans (ih _)
    · exact ih { m with scheduler.sleepers := m.scheduler.sleepers.dropLast }

theorem Step.capacity_le (h : Step m op m') : m.capacity ≤ m'.capacity := by
  cases op with
  | spawn =>
    obtain ⟨reserved, hle, -, rfl⟩ := h
    exact hle.trans (capacity_le_observe { m with capacity := reserved } _)
  | preempt stackPointer now =>
    obtain ⟨next, s', -, rfl⟩ := h
    exact capacity_le_observe ..
  | prepareVoluntaryYield now =>
    obtain rfl := h
    unfold prepareVoluntaryYield
    split
    · exact le_rfl
    split
    · exact le_rfl
    split
    · exact le_rfl
    · exact capacity_le_observe ..
  | wakeExpired now => exact h ▸ capacity_le_wakeExpiredLoop now _ m
  | wakeAll queue => exact h ▸ capacity_le_wakeAll _ m queue
  | yieldCurrent now | wakeOne queue | wakeTask id | cancelWait id queue =>
    obtain rfl := h
    exact capacity_le_observe ..
  | setNice id nice | tick now | reapOne =>
    obtain rfl := h
    exact le_rfl
  | sleepCurrentUntil deadline now | blockCurrent reason queue now | exitCurrent status now =>
    obtain ⟨-, rfl⟩ := h
    exact le_rfl

end Metered

/-- **No allocation in interrupt paths.** In every reachable state, every push onto the run queue so far found
it shorter than its capacity; the queue holds no more than the live tasks, for all of which there is room, and
no operation takes room away. -/
theorem Metered.reachable_pushes_fit {m : Metered} (h : Run.Reachable Metered.Initial Metered.Step m) :
    (∀ push ∈ m.pushes, push.length < push.capacity) ∧
      m.scheduler.runQueue.length ≤ m.scheduler.liveIds.length ∧
      m.scheduler.liveIds.length ≤ m.capacity ∧
      ∀ op m', Metered.Step m op m' → m.capacity ≤ m'.capacity := by
  have hreserved : m.Reserved :=
    h.invariant (fun _ hinit => .initial hinit) fun _ _ _ hreserved hstep => hreserved.step hstep
  exact ⟨hreserved.pushes_fit, hreserved.inv.length_runQueue_le, hreserved.live_le,
    fun _ _ hstep => hstep.capacity_le⟩

/-- One task is spawned and dispatched. -/
theorem Metered.reachable_pushes_fit_oneRunning :
    ∃ m : Metered, m.scheduler = Scheduler.oneRunning ∧
      (∀ push ∈ m.pushes, push.length < push.capacity) ∧
      m.scheduler.runQueue.length ≤ m.scheduler.liveIds.length ∧
      m.scheduler.liveIds.length ≤ m.capacity ∧
      ∀ op m', Metered.Step m op m' → m.capacity ≤ m'.capacity := by
  obtain ⟨m, hreach, hscheduler⟩ := Metered.exists_reachable Scheduler.reachable_oneRunning
  exact ⟨m, hscheduler, Metered.reachable_pushes_fit hreach⟩

end SaeOS.Task
