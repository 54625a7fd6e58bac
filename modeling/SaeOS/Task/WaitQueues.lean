import SaeOS.Task.SchedulerEffects

/-!
# Wait queues and wake-ups

A wait queue belongs to whoever waits on it: the scheduler appends the blocked task to the queue it
is given and records the queue's id as the task's wait link. `WaitSystem` puts the scheduler
together with the queues, each known by its id, and with two counters that only serve to say which
task has waited longest.

A task can leave a queue in four ways, and `wake_task` is the one that does not take its entry out:
the entry stays behind, and the next `wake_one` or `wake_all` meets it, finds its task not blocked
and gives up. In a run where no targeted wake reaches a queued task, no wake-up is lost.
-/

namespace SaeOS.Task

namespace Scheduler

variable {s s' : Scheduler} {id now : ℕ} {t : TaskControlBlock}
  {o o' : ℕ → Option TaskControlBlock}

/-! ## Wait links -/

/-- The task is blocked and its wait link names the queue. -/
def BlockedOn (s : Scheduler) (queue id : ℕ) : Prop :=
  ∃ t, s.task id = some t ∧ t.state = .blocked ∧ t.waitLink = some queue

/-- The queue a task is linked to. -/
def linkOf (o : ℕ → Option TaskControlBlock) (id : ℕ) : Option ℕ :=
  (o id).bind TaskControlBlock.waitLink

/-- A linked task is blocked, and not on a deadline. -/
structure Linked (o : ℕ → Option TaskControlBlock) : Prop where
  blocked : ∀ id t queue, o id = some t → t.waitLink = some queue → t.state = .blocked
  no_deadline : ∀ id t queue deadline, o id = some t → t.waitLink = some queue →
    t.blockReason ≠ some (.sleepUntil deadline)

theorem linkOf_of_some (ho : o id = some t) : linkOf o id = t.waitLink := by
  rw [linkOf, ho, Option.bind_some]

/-- A task that is not blocked is linked to no queue. -/
theorem Linked.unlinked (h : Linked o) (ho : o id = some t) (hstate : t.state ≠ .blocked) :
    t.waitLink = none := by
  cases hlink : t.waitLink with
  | none => rfl
  | some queue => exact absurd (h.blocked id t queue ho hlink) hstate

/-- With linked tasks blocked, a task is blocked on a queue exactly if it is linked to it. -/
theorem Linked.blockedOn_iff (h : Linked s.outline) (queue id : ℕ) :
    s.BlockedOn queue id ↔ linkOf s.outline id = some queue := by
  constructor
  · rintro ⟨t, ht, -, hlink⟩
    rw [linkOf_of_some (outline_of_task ht)]
    exact hlink
  · intro hlink
    obtain ⟨t, ho, hlink⟩ := Option.bind_eq_some_iff.mp hlink
    have hblocked := h.blocked id t queue ho hlink
    obtain ⟨t', ht', rfl⟩ := exists_task_of_outline ho
    exact ⟨t', ht', hblocked, hlink⟩

/-- The same tasks are linked to the same queues. -/
structure SameLinks (o o' : ℕ → Option TaskControlBlock) : Prop where
  linkOf_eq : linkOf o' = linkOf o
  linked : Linked o → Linked o'

namespace SameLinks

theorem refl (o : ℕ → Option TaskControlBlock) : SameLinks o o :=
  ⟨rfl, fun h => h⟩

theorem trans {o₁ o₂ o₃ : ℕ → Option TaskControlBlock} (h₁ : SameLinks o₁ o₂)
    (h₂ : SameLinks o₂ o₃) : SameLinks o₁ o₃ :=
  ⟨h₂.linkOf_eq.trans h₁.linkOf_eq, fun h => h₂.linked (h₁.linked h)⟩

end SameLinks

/-- Rewriting a task to one without a link keeps linked tasks blocked. -/
theorem Linked.update (h : Linked o) {x : Option TaskControlBlock}
    (hx : ∀ t, x = some t → t.waitLink = none) : Linked (Function.update o id x) := by
  constructor
  · intro id' t queue ho hlink
    by_cases heq : id' = id
    · subst heq
      rw [Function.update_self] at ho
      rw [hx t ho] at hlink
      cases hlink
    · rw [Function.update_of_ne heq] at ho
      exact h.blocked id' t queue ho hlink
  · intro id' t queue deadline ho hlink
    by_cases heq : id' = id
    · subst heq
      rw [Function.update_self] at ho
      rw [hx t ho] at hlink
      cases hlink
    · rw [Function.update_of_ne heq] at ho
      exact h.no_deadline id' t queue deadline ho hlink

/-- Rewriting a task to a blocked one that is on no deadline keeps linked tasks blocked. -/
theorem Linked.update_blocked (h : Linked o) (id : ℕ) (hstate : t.state = .blocked)
    (hreason : ∀ deadline, t.blockReason ≠ some (.sleepUntil deadline)) :
    Linked (Function.update o id (some t)) := by
  constructor
  · intro id' t' queue ho hlink
    by_cases heq : id' = id
    · subst heq
      rw [Function.update_self] at ho
      cases ho
      exact hstate
    · rw [Function.update_of_ne heq] at ho
      exact h.blocked id' t' queue ho hlink
  · intro id' t' queue deadline ho hlink
    by_cases heq : id' = id
    · subst heq
      rw [Function.update_self] at ho
      cases ho
      exact hreason deadline
    · rw [Function.update_of_ne heq] at ho
      exact h.no_deadline id' t' queue deadline ho hlink

theorem linkOf_update (o : ℕ → Option TaskControlBlock) (id : ℕ) (x : Option TaskControlBlock) :
    linkOf (Function.update o id x) =
      Function.update (linkOf o) id (x.bind TaskControlBlock.waitLink) := by
  funext id'
  by_cases heq : id' = id
  · subst heq
    simp [linkOf]
  · simp [linkOf, Function.update_of_ne heq]

/-- Rewriting an unlinked task to an unlinked one changes no link. -/
theorem SameLinks.update {x : Option TaskControlBlock} (hold : linkOf o id = none)
    (hx : ∀ t, x = some t → t.waitLink = none) : SameLinks o (Function.update o id x) := by
  refine ⟨?_, fun h => h.update hx⟩
  have hnone : x.bind TaskControlBlock.waitLink = none := by
    cases x with
    | none => rfl
    | some t => exact hx t rfl
  rw [linkOf_update, hnone, ← hold, Function.update_eq_self]

/-! ## Operations that touch no link -/

/-- Dispatching a ready task changes no link. -/
theorem Dispatches.sameLinks {idle : Option ℕ} {r : Outcome (Option ℕ)} (h : Dispatches o idle r)
    (hlinked : Linked o) : SameLinks o r.2.outline := by
  rcases h.moved with ⟨-, -, heq⟩ | ⟨id, t, ho, hready, -, heq⟩
  · rw [heq]
    exact SameLinks.refl o
  · have hlink : t.waitLink = none := hlinked.unlinked ho (by rw [hready]; decide)
    rw [heq]
    refine SameLinks.update ((linkOf_of_some ho).trans hlink) fun t' ht' => ?_
    cases ht'
    exact hlink

/-- Editing the running task changes no link, if the edit does not. -/
theorem Inv.sameLinks_editCurrent (h : Inv s) (hlinked : Linked s.outline)
    {f : TaskControlBlock → TaskControlBlock} (hf : ∀ t, (f t).waitLink = t.waitLink) :
    SameLinks s.outline (editCurrent s.outline f s.current) := by
  cases hcurrent : s.current with
  | none => exact SameLinks.refl _
  | some id =>
    obtain ⟨t, ht, hrunning⟩ := h.current_task hcurrent
    have ho := outline_of_task ht
    have hlink : t.outline.waitLink = none :=
      hlinked.unlinked ho (show t.state ≠ .blocked by rw [hrunning]; decide)
    rw [editCurrent, ho, Option.map_some]
    refine SameLinks.update ((linkOf_of_some ho).trans hlink) fun t' ht' => ?_
    cases ht'
    rw [hf, hlink]

/-- Waking a task that is linked to no queue changes no link. -/
theorem Inv.sameLinks_makeReady (h : Inv s) (ht : s.task id = some t)
    (hblocked : t.state = .blocked)
    (hlink : t.waitLink = none) : SameLinks s.outline (s.makeReady id).outline := by
  rw [(h.outline_makeReady ht hblocked).1]
  refine SameLinks.update ((linkOf_of_some (outline_of_task ht)).trans hlink) fun t' ht' => ?_
  cases ht'
  rfl

/-- Expired sleepers are on no queue. -/
theorem Inv.sameLinks_wakeExpiredLoop (h : Inv s) (hlinked : Linked s.outline)
    (now budget woken : ℕ) :
    SameLinks s.outline (Scheduler.wakeExpiredLoop now budget woken s).2.outline := by
  induction budget generalizing s woken with
  | zero => exact SameLinks.refl _
  | succ budget ih =>
    rw [Scheduler.wakeExpiredLoop]
    split
    next => exact SameLinks.refl _
    next deadline id _ =>
      have hpopped : Inv { s with sleepers := s.sleepers.dropLast } :=
        ⟨h.slots, h.placed, h.sumWeight, h.sumWeightedRuntime⟩
      simp only
      split_ifs with hlate hsleeping
      · exact SameLinks.refl _
      · obtain ⟨t, ht, hblocked, hreason⟩ := stillSleeping_iff.mp hsleeping
        have hlink : t.waitLink = none := by
          cases hwait : t.waitLink with
          | none => rfl
          | some queue =>
            exact absurd hreason (hlinked.no_deadline id t.outline queue deadline
              (outline_of_task ht) hwait)
        have hwoken := hpopped.sameLinks_makeReady ht hblocked hlink
        exact hwoken.trans (ih (hpopped.makeReady ht hblocked) (hwoken.linked hlinked) _)
      · exact ih hpopped hlinked _

/-! ## Waking from a queue -/

/-- Waking a task blocked on a queue. -/
theorem Inv.wakeTask_of_blockedOn (h : Inv s) {queue : ℕ} (hblocked : s.BlockedOn queue id) :
    ∃ t, s.task id = some t ∧ s.wakeTask id = (.ok (), s.makeReady id) ∧ Inv (s.makeReady id) ∧
      (s.makeReady id).outline = Function.update s.outline id (some (woken t.outline)) := by
  obtain ⟨t, ht, hstate, -⟩ := hblocked
  refine ⟨t, ht, ?_, h.makeReady ht hstate, (h.outline_makeReady ht hstate).1⟩
  simp only [Scheduler.wakeTask, ht]
  rw [if_neg (not_not.mpr hstate)]

/-- A task that was not touched is still blocked on its queue. -/
theorem blockedOn_of_update {queue id' : ℕ} {x : Option TaskControlBlock} (hne : id' ≠ id)
    (houtline : s'.outline = Function.update s.outline id x) (h : s.BlockedOn queue id') :
    s'.BlockedOn queue id' := by
  obtain ⟨t, ht, hstate, hlink⟩ := h
  have ho : s'.outline id' = some t.outline := by
    rw [houtline, Function.update_of_ne hne, outline_of_task ht]
  obtain ⟨t', ht', heq⟩ := exists_task_of_outline ho
  refine ⟨t', ht', ?_, ?_⟩
  · exact (congrArg TaskControlBlock.state heq).trans hstate
  · exact (congrArg TaskControlBlock.waitLink heq).trans hlink

/-- The outlines once every task of a list is woken. -/
def wokenAll (o : ℕ → Option TaskControlBlock) (ids : List ℕ) (id : ℕ) : Option TaskControlBlock :=
  if id ∈ ids then (o id).map woken else o id

theorem linkOf_wokenAll (o : ℕ → Option TaskControlBlock) (ids : List ℕ) (id : ℕ) :
    linkOf (wokenAll o ids) id = if id ∈ ids then none else linkOf o id := by
  by_cases hmem : id ∈ ids
  · rw [if_pos hmem, linkOf, wokenAll, if_pos hmem]
    cases o id <;> rfl
  · rw [if_neg hmem, linkOf, wokenAll, if_neg hmem, linkOf]

/-- Waking tasks keeps the linked ones blocked. -/
theorem Linked.wokenAll (h : Linked o) (ids : List ℕ) : Linked (wokenAll o ids) := by
  -- a task that is still linked was not woken
  have hkept : ∀ id t queue, Scheduler.wokenAll o ids id = some t → t.waitLink = some queue →
      o id = some t := by
    intro id t queue ho hlink
    have hsome := (linkOf_of_some ho).trans hlink
    rw [linkOf_wokenAll] at hsome
    split_ifs at hsome with hmem
    rwa [Scheduler.wokenAll, if_neg hmem] at ho
  constructor
  · intro id t queue ho hlink
    exact h.blocked id t queue (hkept id t queue ho hlink) hlink
  · intro id t queue deadline ho hlink
    exact h.no_deadline id t queue deadline (hkept id t queue ho hlink) hlink

/-- When every entry of a queue is a task blocked on it, `wake_all` empties the queue and wakes them
all. -/
theorem Inv.wakeAll_spec (h : Inv s) (queue : WaitQueue) {budget : ℕ} (count : ℕ)
    (hblocked : ∀ id ∈ queue.tasks, s.BlockedOn queue.id id) (hnodup : queue.tasks.Nodup)
    (hbudget : queue.tasks.length < budget) :
    (s.wakeAll queue budget count).1.1 = .ok (count + queue.tasks.length) ∧
      (s.wakeAll queue budget count).2 = { queue with tasks := [] } ∧
      (s.wakeAll queue budget count).1.2.outline = wokenAll s.outline queue.tasks := by
  -- induction on the loop bound; each round takes the front entry off the queue
  induction budget generalizing s queue count with
  | zero => exact absurd hbudget (Nat.not_lt_zero _)
  | succ budget ih =>
    obtain ⟨q, tasks⟩ := queue
    cases tasks with
    | nil =>
      refine ⟨rfl, rfl, ?_⟩
      funext id
      simp [wokenAll, Scheduler.wakeAll, Scheduler.wakeOne]
    | cons id rest =>
      obtain ⟨hfresh, hrest⟩ := List.nodup_cons.mp hnodup
      obtain ⟨t, ht, hwake, hinv, houtline⟩ :=
        h.wakeTask_of_blockedOn (hblocked id List.mem_cons_self)
      have hstep : s.wakeAll ⟨q, id :: rest⟩ (budget + 1) count =
          (s.makeReady id).wakeAll ⟨q, rest⟩ budget (count + 1) := by
        simp only [Scheduler.wakeAll, Scheduler.wakeOne, hwake]
      have hblocked' : ∀ id' ∈ rest, (s.makeReady id).BlockedOn q id' := by
        intro id' hmem
        have hne : id' ≠ id := by
          rintro rfl
          exact hfresh hmem
        exact blockedOn_of_update hne houtline (hblocked id' (List.mem_cons_of_mem _ hmem))
      have hbudget' : rest.length < budget := by simpa using hbudget
      obtain ⟨hcount, hqueue, hall⟩ := ih hinv ⟨q, rest⟩ (count + 1) hblocked' hrest
        hbudget'
      rw [hstep]
      refine ⟨?_, hqueue, ?_⟩
      · rw [hcount]
        simp only [List.length_cons]
        congr 1
        omega
      · rw [hall]
        funext id'
        by_cases heq : id' = id
        · subst heq
          simp only [wokenAll, if_neg hfresh, List.mem_cons_self, if_true, houtline,
            Function.update_self, outline_of_task ht, Option.map_some]
        · simp only [wokenAll, houtline, Function.update_of_ne heq, List.mem_cons, heq, false_or]

end Scheduler

/-! ## The system of scheduler and queues -/

/-- The scheduler and the wait queues by id. `blocks` counts the calls of `block_current` and
`since` holds the count at which a task last blocked; no operation reads them. -/
structure WaitSystem where
  scheduler : Scheduler
  queues : ℕ → List ℕ := fun _ => []
  blocks : ℕ := 0
  since : ℕ → ℕ := fun _ => 0

namespace WaitSystem

open Scheduler (Op Inv BlockedOn Linked SameLinks linkOf)

variable {sys sys' : WaitSystem} {q id : ℕ}

/-- The queue with this id. -/
def queue (sys : WaitSystem) (q : ℕ) : WaitQueue :=
  ⟨q, sys.queues q⟩

/-- The wait queue an operation is given. -/
def queueOf : Op → Option WaitQueue
  | .blockCurrent _ queue _ | .wakeOne queue | .wakeAll queue | .cancelWait _ queue => some queue
  | _ => none

/-- The wait queue an operation leaves behind. -/
def queueAfter (s : Scheduler) : Op → Option WaitQueue
  | .blockCurrent reason queue now => some (s.blockCurrent reason queue now).2
  | .wakeOne queue => some (s.wakeOne queue).2
  | .wakeAll queue => some (s.wakeAll queue (queue.tasks.length + 1) 0).2
  | .cancelWait id queue => some (s.cancelWait id queue).2
  | _ => none

/-- The count at which each task last blocked, after an operation. -/
def sinceAfter (sys : WaitSystem) : Op → ℕ → ℕ
  | .blockCurrent _ _ _ =>
    match sys.scheduler.current with
    | none => sys.since
    | some id => Function.update sys.since id sys.blocks
  | _ => sys.since

/-- The number of blocking calls, after an operation. -/
def blocksAfter (sys : WaitSystem) : Op → ℕ
  | .blockCurrent _ _ _ => sys.blocks + 1
  | _ => sys.blocks

/-- One operation of the scheduler on the queue the system holds under that id. -/
structure Step (sys : WaitSystem) (op : Op) (sys' : WaitSystem) : Prop where
  held : ∀ queue, queueOf op = some queue → queue = sys.queue queue.id
  scheduler : Scheduler.Step sys.scheduler op sys'.scheduler
  queues : sys'.queues = match queueAfter sys.scheduler op with
    | none => sys.queues
    | some queue => Function.update sys.queues queue.id queue.tasks
  blocks : sys'.blocks = sys.blocksAfter op
  since : sys'.since = sys.sinceAfter op

/-- At boot every queue is empty. -/
def Initial (sys : WaitSystem) : Prop :=
  Scheduler.Initial sys.scheduler ∧ sys.queues = fun _ => []

/-- The task that has waited longest among those blocked on the queue. -/
def LongestWaiting (sys : WaitSystem) (q id : ℕ) : Prop :=
  sys.scheduler.BlockedOn q id ∧ ∀ id', sys.scheduler.BlockedOn q id' → sys.since id ≤ sys.since id'

/-- The outcome of `wake_all` on a queue of the system. -/
def wakeAll (sys : WaitSystem) (q : ℕ) : Outcome ℕ × WaitQueue :=
  sys.scheduler.wakeAll (sys.queue q) ((sys.queues q).length + 1) 0

/-- The outcome of `wake_one` on a queue of the system. -/
def wakeOne (sys : WaitSystem) (q : ℕ) : Outcome (Option ℕ) × WaitQueue :=
  sys.scheduler.wakeOne (sys.queue q)

/-- No wake-up is lost: `wake_all` leaves no task blocked on the queue, and `wake_one` makes ready
the task that has waited longest, if any waits. -/
def NoLostWakeup (sys : WaitSystem) : Prop :=
  ∀ q, (∀ id, ¬(sys.wakeAll q).1.2.BlockedOn q id) ∧
    ((∃ id, sys.scheduler.BlockedOn q id) → ∃ id t, sys.LongestWaiting q id ∧
      (sys.wakeOne q).1.1 = .ok (some id) ∧ (sys.wakeOne q).1.2.task id = some t ∧
      t.state = .ready)

/-- The operations that leave no entry of a queue behind: a targeted wake does not reach a task that
waits on a queue, and a task that blocks on a queue does not give a deadline as its reason, which
would let an expired sleep of its past wake it. -/
def Undisturbed (sys : WaitSystem) : Op → Prop
  | .wakeTask id => ∀ q, ¬sys.scheduler.BlockedOn q id
  | .blockCurrent reason _ _ => ∀ deadline, reason ≠ .sleepUntil deadline
  | _ => True

end WaitSystem

end SaeOS.Task
