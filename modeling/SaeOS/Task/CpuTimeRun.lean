import Mathlib.Algebra.BigOperators.Group.Finset.Basic
import Mathlib.Algebra.BigOperators.Ring.Finset
import SaeOS.Task.CpuTime

/-!
# Where the time went

A run of the scheduler on a clock that never goes back, with a stopwatch beside it: for each task how
long it was current, and for all tasks but idle ones together. The stopwatch reads the clock at every
operation; the scheduler sees it only in the operations that are told the time.
-/

namespace SaeOS.Task

namespace Scheduler

/-- What happens to a scheduler. -/
inductive Event
  | op (op : Op)
  | spawnKernelTask (isIdle : Bool)

/-- The time that an operation is told. -/
def Op.now : Op → Option ℕ
  | .tick now | .yieldCurrent now | .preempt _ now | .prepareVoluntaryYield now
  | .sleepCurrentUntil _ now | .blockCurrent _ _ now | .exitCurrent _ now => some now
  | _ => none

def Event.now : Event → Option ℕ
  | .op operation => operation.now
  | .spawnKernelTask _ => none

/-- The scheduler after an event, whatever the callers guarantee; a panic is `none`. -/
def apply (s : Scheduler) : Event → Option Scheduler
  | .op .spawn => some s.spawn.2
  | .op (.setNice id nice) => some (s.setNice id nice).2
  | .op (.tick now) => some (s.tick now).2
  | .op (.yieldCurrent now) => some (s.yieldCurrent now).2
  | .op (.preempt stackPointer now) => (s.preempt stackPointer now).map Prod.snd
  | .op (.prepareVoluntaryYield now) => some (s.prepareVoluntaryYield now).2
  | .op (.sleepCurrentUntil deadline now) => some (s.sleepCurrentUntil deadline now).2
  | .op (.wakeExpired now) => some (s.wakeExpired now).2
  | .op (.blockCurrent reason queue now) => some (s.blockCurrent reason queue now).1.2
  | .op (.wakeOne queue) => some (s.wakeOne queue).1.2
  | .op (.wakeAll queue) => some (s.wakeAll queue (queue.tasks.length + 1) 0).1.2
  | .op (.wakeTask id) => some (s.wakeTask id).2
  | .op (.cancelWait id queue) => some (s.cancelWait id queue).1.2
  | .op (.exitCurrent status now) => some (s.exitCurrent status now).2
  | .op .reapOne => some s.reapOne.2
  | .spawnKernelTask isIdle => some (s.spawnKernelTask isIdle).2

/-! ## The stopwatch -/

/-- For how long each task was current, and for how long a task was that is not an idle task. -/
structure Stopwatch where
  ran : ℕ → ℕ := fun _ => 0
  busy : ℕ := 0

/-- `span` nanoseconds pass in this state. -/
def Stopwatch.pass (w : Stopwatch) (s : Scheduler) (span : ℕ) : Stopwatch :=
  match s.current with
  | none => w
  | some id =>
    { ran := Function.update w.ran id (w.ran id + span)
      busy := if (s.task id).any (·.isIdle) then w.busy else w.busy + span }

/-- A scheduler on a clock. -/
structure Clocked where
  scheduler : Scheduler
  /-- The time of the last event. -/
  clock : ℕ := 0
  watch : Stopwatch := {}
  /-- The stopwatch at the last event that was told the time. -/
  charged : Stopwatch := {}
  /-- The tasks that `reap_one` handed out. -/
  reaped : ℕ → Option TaskControlBlock := fun _ => none

namespace Clocked

/-- The task with this id, live or reaped. -/
def task (c : Clocked) (id : ℕ) : Option TaskControlBlock :=
  (c.scheduler.task id).or (c.reaped id)

/-- The task that an event hands out. -/
def handedOut (s : Scheduler) : Event → Option TaskControlBlock
  | .op .reapOne => s.reapOne.1.toOption.join
  | _ => none

/-- An event at this time leaves `s`. -/
def after (c : Clocked) (event : Event) (now : ℕ) (s : Scheduler) : Clocked :=
  let watch := c.watch.pass c.scheduler (now - c.clock)
  { scheduler := s
    clock := now
    watch
    charged := if event.now.isSome then watch else c.charged
    reaped :=
      match handedOut c.scheduler event with
      | some t => Function.update c.reaped t.taskId (some t)
      | none => c.reaped }

/-- An event, at a time that is not before the last one. -/
def Step (c : Clocked) (label : Event × ℕ) (c' : Clocked) : Prop :=
  ∃ s, c.clock ≤ label.2 ∧ label.2 < 2 ^ 64 ∧ (∀ now, label.1.now = some now → now = label.2) ∧
    c.scheduler.apply label.1 = some s ∧ c' = c.after label.1 label.2 s

/-- An empty scheduler, at any time. -/
def Initial (c : Clocked) : Prop :=
  ∃ policy clock, clock < 2 ^ 64 ∧ c = { scheduler := withPolicy policy, clock }

/-! ## Accounts -/

/-- The time that a task was charged; an idle task is charged none. -/
def cpuTime (c : Clocked) (id : ℕ) : ℕ :=
  match c.task id with
  | some t => if t.isIdle then 0 else t.schedulerEntity.execRuntime
  | none => 0

/-- Every nanosecond is charged to the task that ran and to no other. -/
structure Balanced (c : Clocked) : Prop where
  /-- A task was charged the time during which it was current. -/
  task : ∀ id t, c.task id = some t → t.isIdle = false →
    t.schedulerEntity.execRuntime = c.charged.ran id
  /-- No task ever had another id. -/
  ids : ∀ id, c.scheduler.nextTaskId ≤ id → c.task id = none
  /-- All tasks that ever existed were charged what any of them was current for. -/
  total : ∑ id ∈ Finset.range c.scheduler.nextTaskId, c.cpuTime id = c.charged.busy
  /-- Nothing is left but the time of the running task since the last charge. -/
  settled : ∀ id, c.scheduler.current ≠ some id → c.charged.ran id = c.watch.ran id

/-- Whether a task that ever existed is no idle task. -/
def counts (c : Clocked) (id : ℕ) : Bool :=
  (c.task id).any (!·.isIdle)

/-- What holds between a scheduler and its stopwatch. -/
structure Inv (c : Clocked) : Prop where
  sound : Sound c.scheduler
  clock_lt : c.clock < 2 ^ 64
  ran_le : ∀ id, c.watch.ran id ≤ c.clock
  /-- No time belongs to an id that was not given out. -/
  fresh : ∀ id, c.scheduler.nextTaskId ≤ id →
    c.watch.ran id = 0 ∧ c.charged.ran id = 0 ∧ c.reaped id = none
  reaped_dead : ∀ id t, c.reaped id = some t → c.scheduler.task id = none
  task : ∀ id t, c.task id = some t → t.isIdle = false →
    t.schedulerEntity.execRuntime = c.charged.ran id
  settled : ∀ id, c.scheduler.current ≠ some id → c.charged.ran id = c.watch.ran id
  /-- The running task is charged from the time at which it was dispatched or last charged. -/
  pending : ∀ id t, c.scheduler.current = some id → c.scheduler.task id = some t →
    t.isIdle = false → t.dispatchedAt ≤ c.clock ∧
      c.charged.ran id + (c.clock - t.dispatchedAt) = c.watch.ran id
  busy : c.watch.busy =
    ∑ id ∈ Finset.range c.scheduler.nextTaskId, if c.counts id then c.watch.ran id else 0
  charged_busy : c.charged.busy =
    ∑ id ∈ Finset.range c.scheduler.nextTaskId, if c.counts id then c.charged.ran id else 0

variable {c c' : Clocked}

/-- Nobody has an id that was not given out. -/
theorem Inv.task_fresh (h : Inv c) {id : ℕ} (hid : c.scheduler.nextTaskId ≤ id) :
    c.scheduler.task id = none := by
  cases ht : c.scheduler.task id with
  | none => rfl
  | some t =>
    have hlt := lt_of_task h.sound.slots ht
    omega

theorem Inv.balanced (h : Inv c) : c.Balanced where
  task := h.task
  ids id hid := by rw [Clocked.task, h.task_fresh hid, (h.fresh id hid).2.2, Option.or_none]
  total := by
    rw [h.charged_busy]
    refine Finset.sum_congr rfl fun id _ => ?_
    rw [cpuTime, counts]
    cases ht : c.task id with
    | none => rfl
    | some t =>
      cases hidle : t.isIdle with
      | true => simp [hidle]
      | false => simp [hidle, h.task id t ht hidle]
  settled := h.settled

theorem Inv.initial (h : Initial c) : Inv c := by
  obtain ⟨policy, clock, hclock, rfl⟩ := h
  have hnone : ∀ id, (withPolicy policy).task id = none := fun _ => rfl
  exact
    { sound := ⟨(Scheduler.Inv.empty policy).slots, (fun _ h => (by cases h)), (fun _ h => (by cases h))⟩
      clock_lt := hclock
      ran_le := fun _ => Nat.zero_le _
      fresh := fun _ _ => ⟨rfl, rfl, rfl⟩
      reaped_dead := fun _ _ h => absurd h (by simp)
      task := fun id t ht => by
        rw [Clocked.task, hnone] at ht
        contradiction
      settled := fun _ _ => rfl
      pending := fun _ _ h => (by cases h)
      busy := by simp
      charged_busy := by simp }

/-! ## What time passes for -/

theorem pass_ran (w : Stopwatch) (s : Scheduler) (span id : ℕ) :
    (w.pass s span).ran id = w.ran id + if s.current = some id then span else 0 := by
  unfold Stopwatch.pass
  cases hcurrent : s.current with
  | none => simp
  | some current =>
    by_cases heq : id = current
    · simp [heq]
    · simp [heq, Ne.symm heq]

theorem meter_of_task {s : Scheduler} {id : ℕ} {t : TaskControlBlock} (ht : s.task id = some t) :
    s.meter id = some t.meter := by
  rw [meter, ht, Option.map_some]

theorem Inv.live (h : Inv c) {id : ℕ} {t : TaskControlBlock} (ht : c.scheduler.task id = some t)
    (hidle : t.isIdle = false) : t.schedulerEntity.execRuntime = c.charged.ran id :=
  h.task id t (by rw [Clocked.task, ht, Option.some_or]) hidle

/-- The running task has an id that was given out. -/
theorem Inv.current_lt (h : Inv c) {id : ℕ} (hcurrent : c.scheduler.current = some id) :
    id < c.scheduler.nextTaskId := by
  obtain ⟨t, ht, -⟩ := h.sound.current_running id hcurrent
  exact lt_of_task h.sound.slots ht

theorem Inv.pass_le (h : Inv c) {now : ℕ} (hclock : c.clock ≤ now) (id : ℕ) :
    (c.watch.pass c.scheduler (now - c.clock)).ran id ≤ now := by
  have hle := h.ran_le id
  rw [pass_ran]
  split <;> omega

/-- Time passes for a task only where it is current. -/
theorem Inv.pass_fresh (h : Inv c) (span : ℕ) {id : ℕ} (hid : c.scheduler.nextTaskId ≤ id) :
    (c.watch.pass c.scheduler span).ran id = 0 := by
  rw [pass_ran, (h.fresh id hid).1, if_neg]
  intro hcurrent
  have hlt := h.current_lt hcurrent
  omega

/-- The common stopwatch and those of the tasks go on together. -/
theorem Inv.pass_busy (h : Inv c) (span : ℕ) : (c.watch.pass c.scheduler span).busy =
    ∑ id ∈ Finset.range c.scheduler.nextTaskId,
      if c.counts id then (c.watch.pass c.scheduler span).ran id else 0 := by
  have hsplit : ∀ id, (if c.counts id then (c.watch.pass c.scheduler span).ran id else 0) =
      (if c.counts id then c.watch.ran id else 0) +
        if c.scheduler.current = some id then (if c.counts id then span else 0) else 0 := by
    intro id
    rw [pass_ran]
    split_ifs <;> rfl
  rw [Finset.sum_congr rfl fun id _ => hsplit id, Finset.sum_add_distrib, ← h.busy]
  unfold Stopwatch.pass
  cases hcurrent : c.scheduler.current with
  | none => simp
  | some current =>
    obtain ⟨t, ht, -⟩ := h.sound.current_running current hcurrent
    have hlt := h.current_lt hcurrent
    have hcounts : c.counts current = !t.isIdle := by
      rw [counts, Clocked.task, ht, Option.some_or, Option.any_some]
    have hone : (∑ id ∈ Finset.range c.scheduler.nextTaskId,
        if some current = some id then (if c.counts id then span else 0) else 0) =
          if c.counts current then span else 0 := by
      simp only [Option.some.injEq]
      rw [Finset.sum_ite_eq, if_pos (Finset.mem_range.mpr hlt)]
    rw [hone, hcounts]
    dsimp only
    rw [ht, Option.any_some]
    cases t.isIdle <;> rfl

/-- The charge of the running task comes to the time that passed. -/
theorem Inv.charge (h : Inv c) {now id : ℕ} (hclock : c.clock ≤ now) (hnow : now < 2 ^ 64)
    {t : TaskControlBlock} (hcurrent : c.scheduler.current = some id)
    (ht : c.scheduler.task id = some t) (hidle : t.isIdle = false) :
    (t.meter.charge now).execRuntime = (c.watch.pass c.scheduler (now - c.clock)).ran id := by
  have hexec := h.live ht hidle
  have hle := h.pass_le hclock id
  obtain ⟨hdispatched, hpending⟩ := h.pending id t hcurrent ht hidle
  rw [pass_ran, if_pos hcurrent] at hle ⊢
  simp only [Meter.charge, TaskControlBlock.meter, hidle, Bool.false_eq_true, ↓reduceIte]
  -- no counter gets to its end, since none is ahead of the clock
  omega

/-! ## The steps -/

/-- Whether an id counts only depends on the marks of the tasks. -/
theorem counts_congr {id : ℕ} (h : (c'.task id).map (·.isIdle) = (c.task id).map (·.isIdle)) :
    c'.counts id = c.counts id := by
  have hany : ∀ x : Option TaskControlBlock, x.any (!·.isIdle) = (x.map (·.isIdle)).any (!·) := by
    intro x
    cases x <;> rfl
  rw [counts, counts, hany, hany, h]

/-- What an event that is told the time leaves. -/
theorem Inv.charges (h : Inv c) {s : Scheduler} {now : ℕ} (hclock : c.clock ≤ now)
    (hnow : now < 2 ^ 64) (hs : Charges c.scheduler s now) :
    Inv { scheduler := s
          clock := now
          watch := c.watch.pass c.scheduler (now - c.clock)
          charged := c.watch.pass c.scheduler (now - c.clock)
          reaped := c.reaped } := by
  set c' : Clocked :=
    { scheduler := s
      clock := now
      watch := c.watch.pass c.scheduler (now - c.clock)
      charged := c.watch.pass c.scheduler (now - c.clock)
      reaped := c.reaped } with hc'
  -- a task was live before, and was charged if it ran
  have hbefore : ∀ id, (s.task id).map (fun t => (t.isIdle, t.schedulerEntity.execRuntime)) =
      (c.scheduler.task id).map fun t => (t.isIdle,
        if c.scheduler.current = some id then (t.meter.charge now).execRuntime
        else t.schedulerEntity.execRuntime) := by
    intro id
    have hcharged := hs.charged id
    simp only [meter, Option.map_map] at hcharged
    refine hcharged.trans ?_
    cases hcurrent : c.scheduler.current with
    | none =>
      rw [chargedMeters, meter, Option.map_map]
      rfl
    | some current =>
      rw [chargedMeters]
      by_cases heq : id = current
      · subst heq
        rw [Function.update_self, meter, Option.map_map, Option.map_map]
        simp only [↓reduceIte]
        rfl
      · rw [Function.update_of_ne heq, meter, Option.map_map]
        simp only [Option.some.injEq, Ne.symm heq, ↓reduceIte]
        rfl
  have hdead : ∀ id, s.task id = none ↔ c.scheduler.task id = none := by
    intro id
    rw [← Option.map_eq_none_iff, hbefore, Option.map_eq_none_iff]
  have hcounts : ∀ id, c'.counts id = c.counts id := by
    refine fun id => counts_congr ?_
    have hmark := congrArg (Option.map Prod.fst) (hbefore id)
    rw [Option.map_map, Option.map_map] at hmark
    change ((s.task id).or (c.reaped id)).map _ = _
    rw [Clocked.task]
    cases ht : c.scheduler.task id with
    | none => rw [(hdead id).mpr ht]
    | some t =>
      obtain ⟨t', ht'⟩ := Option.ne_none_iff_exists'.mp (fun hn => by
        rw [(hdead id).mp hn] at ht
        contradiction)
      rw [ht, ht'] at hmark
      rw [ht']
      exact hmark
  refine
    { sound := hs.sound
      clock_lt := hnow
      ran_le := h.pass_le hclock
      fresh := fun id hid => ?_
      reaped_dead := fun id t ht => (hdead id).mpr (h.reaped_dead id t ht)
      task := fun id t ht hidle => ?_
      settled := fun id _ => rfl
      pending := fun id t hcurrent ht hidle => ?_
      busy := ?_
      charged_busy := ?_ }
  · have hfresh := h.pass_fresh (now - c.clock) (hs.next_eq ▸ hid)
    exact ⟨hfresh, hfresh, (h.fresh id (hs.next_eq ▸ hid)).2.2⟩
  · cases hlive : s.task id with
    | none =>
      have hgone := (hdead id).mp hlive
      rw [Clocked.task, hlive, Option.none_or] at ht
      have hcurrent : c.scheduler.current ≠ some id := fun hcurrent => by
        obtain ⟨t', ht', -⟩ := h.sound.current_running id hcurrent
        rw [hgone] at ht'
        contradiction
      rw [pass_ran, if_neg hcurrent, Nat.add_zero, ← h.settled id hcurrent]
      exact h.task id t (by rw [Clocked.task, hgone, Option.none_or]; exact ht) hidle
    | some t' =>
      rw [Clocked.task, hlive, Option.some_or] at ht
      obtain rfl := Option.some.inj ht
      obtain ⟨t₀, ht₀⟩ := Option.ne_none_iff_exists'.mp (fun hn => by
        rw [(hdead id).mpr hn] at hlive
        contradiction)
      have hpair := hbefore id
      rw [hlive, ht₀, Option.map_some, Option.map_some] at hpair
      obtain ⟨hmark, hexec⟩ := Prod.mk.inj (Option.some.inj hpair)
      rw [hexec]
      split
      · rename_i hcurrent
        exact h.charge hclock hnow hcurrent ht₀ (hmark ▸ hidle)
      · rename_i hcurrent
        rw [pass_ran, if_neg hcurrent, Nat.add_zero, ← h.settled id hcurrent]
        exact h.live ht₀ (hmark ▸ hidle)
  · have hat := hs.dispatched id t.meter hcurrent (meter_of_task ht) hidle
    have hat' : t.dispatchedAt = now := hat
    refine ⟨hat'.le, ?_⟩
    change (c.watch.pass c.scheduler (now - c.clock)).ran id + (now - t.dispatchedAt) = _
    rw [hat', Nat.sub_self]
    rfl
  all_goals
    rw [hs.next_eq, h.pass_busy]
    exact Finset.sum_congr rfl fun id _ => by rw [hcounts]

/-- A sum over the ids that were given out before goes on over those given out since. -/
theorem sum_of_le {ran ran' : ℕ → ℕ} {next : ℕ} (hle : c.scheduler.nextTaskId ≤ next)
    (hsame : ∀ id < c.scheduler.nextTaskId, c'.counts id = c.counts id ∧ ran' id = ran id)
    (hnew : ∀ id, c.scheduler.nextTaskId ≤ id → ran' id = 0) :
    (∑ id ∈ Finset.range c.scheduler.nextTaskId, if c.counts id then ran id else 0) =
      ∑ id ∈ Finset.range next, if c'.counts id then ran' id else 0 := by
  rw [Finset.sum_congr rfl fun id hid => by
    rw [← (hsame id (Finset.mem_range.mp hid)).1, ← (hsame id (Finset.mem_range.mp hid)).2]]
  refine Finset.sum_subset (Finset.range_mono hle) fun id _ hid => ?_
  rw [hnew id (by simpa using hid), ite_self]

/-- What an event that is not told the time leaves. -/
theorem Inv.rests (h : Inv c) {s : Scheduler} {reaped : ℕ → Option TaskControlBlock} {now : ℕ}
    (hclock : c.clock ≤ now) (hnow : now < 2 ^ 64) (hsound : Sound s)
    (hcurrent : s.current = c.scheduler.current) (hle : c.scheduler.nextTaskId ≤ s.nextTaskId)
    (hfresh : ∀ id, s.nextTaskId ≤ id → reaped id = none)
    (hdead : ∀ id t, reaped id = some t → s.task id = none)
    (hold : ∀ id < c.scheduler.nextTaskId,
      ((s.task id).or (reaped id)).map (fun t => (t.isIdle, t.schedulerEntity.execRuntime)) =
        (c.task id).map fun t => (t.isIdle, t.schedulerEntity.execRuntime))
    (hnew : ∀ id t, c.scheduler.nextTaskId ≤ id → (s.task id).or (reaped id) = some t →
      t.schedulerEntity.execRuntime = 0)
    (hrunning : ∀ id t, c.scheduler.current = some id → s.task id = some t →
      ∃ t₀, c.scheduler.task id = some t₀ ∧ t₀.meter = t.meter) :
    Inv { scheduler := s
          clock := now
          watch := c.watch.pass c.scheduler (now - c.clock)
          charged := c.charged
          reaped } := by
  set c' : Clocked :=
    { scheduler := s
      clock := now
      watch := c.watch.pass c.scheduler (now - c.clock)
      charged := c.charged
      reaped } with hc'
  have hcounts : ∀ id < c.scheduler.nextTaskId, c'.counts id = c.counts id := by
    intro id hid
    refine counts_congr ?_
    have hmark := congrArg (Option.map Prod.fst) (hold id hid)
    rwa [Option.map_map, Option.map_map] at hmark
  refine
    { sound := hsound
      clock_lt := hnow
      ran_le := h.pass_le hclock
      fresh := fun id hid => ⟨h.pass_fresh _ (hle.trans hid), (h.fresh id (hle.trans hid)).2.1,
        hfresh id hid⟩
      reaped_dead := hdead
      task := fun id t ht hidle => ?_
      settled := fun id hid => ?_
      pending := fun id t hid ht hidle => ?_
      busy := ?_
      charged_busy := ?_ }
  · by_cases hid : id < c.scheduler.nextTaskId
    · have hpair := hold id hid
      change (c'.task id).map _ = _ at hpair
      rw [ht, Option.map_some] at hpair
      obtain ⟨t₀, ht₀, heq⟩ := Option.map_eq_some_iff.mp hpair.symm
      obtain ⟨hmark, hexec⟩ := Prod.mk.inj heq
      rw [← hexec]
      exact h.task id t₀ ht₀ (hmark.trans hidle)
    · rw [hnew id t (Nat.le_of_not_lt hid) ht]
      exact (h.fresh id (Nat.le_of_not_lt hid)).2.1.symm
  · have hnot : c.scheduler.current ≠ some id := hcurrent ▸ hid
    change c.charged.ran id = (c.watch.pass c.scheduler (now - c.clock)).ran id
    rw [pass_ran, if_neg hnot, h.settled id hnot, Nat.add_zero]
  · have hid' : c.scheduler.current = some id := hcurrent ▸ hid
    obtain ⟨t₀, ht₀, hmeter⟩ := hrunning id t hid' ht
    have hat : t₀.dispatchedAt = t.dispatchedAt := congrArg Meter.dispatchedAt hmeter
    have hmark : t₀.isIdle = t.isIdle := congrArg Meter.isIdle hmeter
    obtain ⟨hdispatched, hpending⟩ := h.pending id t₀ hid' ht₀ (hmark.trans hidle)
    change t.dispatchedAt ≤ now ∧ c.charged.ran id + (now - t.dispatchedAt) =
      (c.watch.pass c.scheduler (now - c.clock)).ran id
    rw [pass_ran, if_pos hid', ← hat]
    omega
  · exact (h.pass_busy _).trans
      (sum_of_le hle (fun id hid => ⟨hcounts id hid, rfl⟩) fun id hid => h.pass_fresh _ hid)
  · exact h.charged_busy.trans
      (sum_of_le hle (fun id hid => ⟨hcounts id hid, rfl⟩) fun id hid => (h.fresh id hid).2.1)

theorem usage_of_meter {s s' : Scheduler} {id : ℕ} (h : s'.meter id = s.meter id) :
    (s'.task id).map (fun t => (t.isIdle, t.schedulerEntity.execRuntime)) =
      (s.task id).map fun t => (t.isIdle, t.schedulerEntity.execRuntime) := by
  have hmap := congrArg (Option.map fun m : Meter => (m.isIdle, m.execRuntime)) h
  rwa [meter, meter, Option.map_map, Option.map_map] at hmap

theorem map_or_congr {α β : Type*} {x y : Option α} (z : Option α) {f : α → β}
    (h : x.map f = y.map f) : (x.or z).map f = (y.or z).map f := by
  cases x <;> cases y <;> simp_all

theorem exists_task_of_meter {s s' : Scheduler} {id : ℕ} {t : TaskControlBlock}
    (h : s'.meter id = s.meter id) (ht : s'.task id = some t) :
    ∃ t₀, s.task id = some t₀ ∧ t₀.meter = t.meter := by
  rw [meter_of_task ht] at h
  exact Option.map_eq_some_iff.mp h.symm

theorem Inv.keeps (h : Inv c) {s : Scheduler} {now : ℕ} (hclock : c.clock ≤ now)
    (hnow : now < 2 ^ 64) (hs : Keeps c.scheduler s) :
    Inv { scheduler := s
          clock := now
          watch := c.watch.pass c.scheduler (now - c.clock)
          charged := c.charged
          reaped := c.reaped } := by
  have hmeter : ∀ id, s.meter id = c.scheduler.meter id := fun id => congrFun hs.meter_eq id
  have hnone : ∀ id, c.scheduler.task id = none → s.task id = none := by
    intro id hid
    have hempty := hmeter id
    rw [meter, meter, hid, Option.map_none] at hempty
    exact Option.map_eq_none_iff.mp hempty
  refine h.rests hclock hnow hs.sound hs.current_eq hs.next_eq.ge
    (fun id hid => (h.fresh id (hs.next_eq ▸ hid)).2.2)
    (fun id t ht => hnone id (h.reaped_dead id t ht))
    (fun id _ => map_or_congr _ (usage_of_meter (hmeter id))) (fun id t hid ht => ?_)
    fun id t _ ht => exists_task_of_meter (hmeter id) ht
  rw [hnone id (h.task_fresh hid), (h.fresh id hid).2.2] at ht
  contradiction

theorem Inv.adds (h : Inv c) {s : Scheduler} {now : ℕ} {isIdle : Bool} (hclock : c.clock ≤ now)
    (hnow : now < 2 ^ 64) (hs : Adds c.scheduler s isIdle) :
    Inv { scheduler := s
          clock := now
          watch := c.watch.pass c.scheduler (now - c.clock)
          charged := c.charged
          reaped := c.reaped } := by
  have hmeter : ∀ id, id ≠ c.scheduler.nextTaskId → s.meter id = c.scheduler.meter id := by
    intro id hid
    rw [hs.meter_eq, Function.update_of_ne hid]
  have hnone : ∀ id, id ≠ c.scheduler.nextTaskId → c.scheduler.task id = none →
      s.task id = none := by
    intro id hne hid
    have hempty := hmeter id hne
    rw [meter, meter, hid, Option.map_none] at hempty
    exact Option.map_eq_none_iff.mp hempty
  refine h.rests hclock hnow hs.sound hs.current_eq (by rw [hs.next_eq]; omega)
    (fun id hid => (h.fresh id (by rw [hs.next_eq] at hid; omega)).2.2) (fun id t ht => ?_)
    (fun id hid => map_or_congr _ (usage_of_meter (hmeter id hid.ne))) (fun id t hid ht => ?_)
    fun id t hid ht => exists_task_of_meter (hmeter id (h.current_lt hid).ne) ht
  · refine hnone id (fun heq => ?_) (h.reaped_dead id t ht)
    rw [(h.fresh id heq.ge).2.2] at ht
    contradiction
  · rw [(h.fresh id hid).2.2, Option.or_none] at ht
    by_cases heq : id = c.scheduler.nextTaskId
    -- the new task has not run
    · have hnew := meter_of_task ht
      rw [hs.meter_eq, heq, Function.update_self] at hnew
      exact (congrArg Meter.execRuntime (Option.some.inj hnew)).symm
    · rw [hnone id heq (h.task_fresh hid)] at ht
      contradiction

theorem Inv.reaps (h : Inv c) {s : Scheduler} {now : ℕ} {t : TaskControlBlock}
    (hclock : c.clock ≤ now) (hnow : now < 2 ^ 64) (ht : c.scheduler.task t.taskId = some t)
    (hnot : c.scheduler.current ≠ some t.taskId) (hsound : Sound s)
    (hcurrent : s.current = c.scheduler.current) (hnext : s.nextTaskId = c.scheduler.nextTaskId)
    (htask : s.task = Function.update c.scheduler.task t.taskId none) :
    Inv { scheduler := s
          clock := now
          watch := c.watch.pass c.scheduler (now - c.clock)
          charged := c.charged
          reaped := Function.update c.reaped t.taskId (some t) } := by
  have hlt := lt_of_task h.sound.slots ht
  refine h.rests hclock hnow hsound hcurrent hnext.ge (fun id hid => ?_) (fun id t' ht' => ?_)
    (fun id hid => ?_) (fun id t' hid ht' => ?_) fun id t' hid ht' => ?_
  · rw [hnext] at hid
    rw [Function.update_of_ne (by omega), (h.fresh id hid).2.2]
  · by_cases heq : id = t.taskId
    · rw [htask, heq, Function.update_self]
    · rw [Function.update_of_ne heq] at ht'
      rw [htask, Function.update_of_ne heq]
      exact h.reaped_dead id t' ht'
  · rw [htask, Clocked.task]
    by_cases heq : id = t.taskId
    · rw [heq, Function.update_self, Function.update_self, ht]
      rfl
    · rw [Function.update_of_ne heq, Function.update_of_ne heq]
  · have hne : id ≠ t.taskId := by omega
    rw [htask, Function.update_of_ne hne, Function.update_of_ne hne, h.task_fresh hid,
      (h.fresh id hid).2.2] at ht'
    contradiction
  · have hne : id ≠ t.taskId := fun heq => hnot (heq ▸ hid)
    rw [htask, Function.update_of_ne hne] at ht'
    exact ⟨t', ht', rfl⟩

/-! ## Runs -/

/-- What an event does to the scheduler, by what it is told. -/
theorem apply_cases {s s' : Scheduler} (h : Sound s) {event : Event}
    (hrun : s.apply event = some s') :
    (∃ now, event.now = some now ∧ Charges s s' now) ∨
      event.now = none ∧ (Keeps s s' ∨ (∃ isIdle, Adds s s' isIdle) ∨ event = .op .reapOne) := by
  cases event with
  | spawnKernelTask isIdle =>
    obtain rfl := Option.some.inj hrun
    exact .inr ⟨rfl, .inr (.inl ⟨isIdle, adds_spawnKernelTask h isIdle⟩)⟩
  | op operation =>
    cases operation with
    | spawn =>
      obtain rfl := Option.some.inj hrun
      exact .inr ⟨rfl, .inr (.inl ⟨false, adds_spawn h⟩)⟩
    | setNice id nice =>
      obtain rfl := Option.some.inj hrun
      exact .inr ⟨rfl, .inl (keeps_setNice h id nice)⟩
    | tick now =>
      obtain rfl := Option.some.inj hrun
      exact .inl ⟨now, rfl, charges_tick h now⟩
    | yieldCurrent now =>
      obtain rfl := Option.some.inj hrun
      exact .inl ⟨now, rfl, charges_schedule h now⟩
    | preempt stackPointer now =>
      obtain ⟨⟨next, s₁⟩, hpreempt, rfl⟩ := Option.map_eq_some_iff.mp hrun
      exact .inl ⟨now, rfl, charges_preempt h hpreempt⟩
    | prepareVoluntaryYield now =>
      obtain rfl := Option.some.inj hrun
      exact .inl ⟨now, rfl, charges_prepareVoluntaryYield h now⟩
    | sleepCurrentUntil deadline now =>
      obtain rfl := Option.some.inj hrun
      exact .inl ⟨now, rfl, charges_stopThen h rfl now (fun _ => ⟨rfl, rfl⟩)
        fun _ _ => ⟨⟨rfl, rfl, rfl, rfl, rfl⟩, rfl⟩⟩
    | wakeExpired now =>
      obtain rfl := Option.some.inj hrun
      exact .inr ⟨rfl, .inl (h.keeps_roused (.wakeExpired .refl now))⟩
    | blockCurrent reason queue now =>
      obtain rfl := Option.some.inj hrun
      exact .inl ⟨now, rfl, charges_stopThen h rfl now (fun _ => ⟨rfl, rfl⟩)
        fun _ _ => ⟨⟨rfl, rfl, rfl, rfl, rfl⟩, rfl⟩⟩
    | wakeOne queue =>
      obtain rfl := Option.some.inj hrun
      exact .inr ⟨rfl, .inl (h.keeps_roused (.wakeOne .refl queue))⟩
    | wakeAll queue =>
      obtain rfl := Option.some.inj hrun
      exact .inr ⟨rfl, .inl (h.keeps_roused (.wakeAll .refl queue _ 0))⟩
    | wakeTask id =>
      obtain rfl := Option.some.inj hrun
      exact .inr ⟨rfl, .inl (h.keeps_roused (.wakeTask .refl id))⟩
    | cancelWait id queue =>
      obtain rfl := Option.some.inj hrun
      exact .inr ⟨rfl, .inl (h.keeps_roused (.cancelWait .refl id queue))⟩
    | exitCurrent status now =>
      obtain rfl := Option.some.inj hrun
      exact .inl ⟨now, rfl, charges_stopThen h rfl now (fun _ => ⟨rfl, rfl⟩)
        fun _ _ => ⟨⟨rfl, rfl, rfl, rfl, rfl⟩, rfl⟩⟩
    | reapOne => exact .inr ⟨rfl, .inr (.inr rfl)⟩

theorem after_eq {event : Event} {now : ℕ} {s : Scheduler}
    (h : handedOut c.scheduler event = none) :
    c.after event now s =
      { scheduler := s
        clock := now
        watch := c.watch.pass c.scheduler (now - c.clock)
        charged :=
          if event.now.isSome then c.watch.pass c.scheduler (now - c.clock) else c.charged
        reaped := c.reaped } := by
  rw [after, h]

/-- Only `reap_one` hands out tasks. -/
theorem handedOut_eq_none {s : Scheduler} {event : Event} (h : event ≠ .op .reapOne) :
    handedOut s event = none := by
  unfold handedOut
  split
  · exact absurd rfl h
  · rfl

theorem Inv.step (h : Inv c) {label : Event × ℕ} (hstep : Step c label c') : Inv c' := by
  obtain ⟨event, now⟩ := label
  obtain ⟨s, hclock, hnow, htold, hrun, rfl⟩ := hstep
  dsimp only at hclock hnow htold hrun ⊢
  by_cases hreap : event = .op .reapOne
  · subst hreap
    obtain rfl := Option.some.inj hrun
    rcases reapOne_cases h.sound with ⟨hkeeps, -, hnone⟩ |
      ⟨t, hanswer, -, ht, hnot, hsound, hcurrent, hnext, htask⟩
    · have hnothing : handedOut c.scheduler (.op .reapOne) = none := by
        unfold handedOut
        dsimp only
        cases hanswer : c.scheduler.reapOne.1 with
        | error e => rfl
        | ok answer =>
          cases answer with
          | none => rfl
          | some t => exact absurd hanswer (hnone t)
      rw [after_eq hnothing]
      exact h.keeps hclock hnow hkeeps
    · have hafter : c.after (.op .reapOne) now c.scheduler.reapOne.2 =
          { scheduler := c.scheduler.reapOne.2
            clock := now
            watch := c.watch.pass c.scheduler (now - c.clock)
            charged := c.charged
            reaped := Function.update c.reaped t.taskId (some t) } := by
        have hsome : handedOut c.scheduler (.op .reapOne) = some t := by
          simp only [handedOut, hanswer]
          rfl
        rw [after, hsome]
        rfl
      rw [hafter]
      exact h.reaps hclock hnow ht hnot hsound hcurrent hnext htask
  · rw [after_eq (handedOut_eq_none hreap)]
    rcases apply_cases h.sound hrun with ⟨told, hnowEq, hcharges⟩ | ⟨hnone, hrest⟩
    · obtain rfl := htold told hnowEq
      rw [hnowEq]
      exact h.charges hclock hnow hcharges
    · rw [hnone]
      rcases hrest with hkeeps | ⟨isIdle, hadds⟩ | heq
      · exact h.keeps hclock hnow hkeeps
      · exact h.adds hclock hnow hadds
      · exact absurd heq hreap

/-- On every run, each task is charged exactly the time during which it was current. -/
theorem reachable_balanced (h : Run.Reachable Initial Step c) : c.Balanced :=
  (h.invariant (P := Inv) (fun _ => Inv.initial) fun _ _ _ hinv hstep => hinv.step hstep).balanced

/-- A task is created at 5 and dispatched at 10. -/
def oneDispatched : Clocked :=
  let empty : Clocked := { scheduler := withPolicy .eevdf }
  let spawned := empty.after (.op .spawn) 5 empty.scheduler.spawn.2
  spawned.after (.op (.yieldCurrent 10)) 10 (spawned.scheduler.yieldCurrent 10).2

theorem reachable_oneDispatched : Run.Reachable Initial Step oneDispatched := by
  have hempty : Run.Reachable Initial Step { scheduler := withPolicy .eevdf } :=
    .start ⟨.eevdf, 0, by decide, rfl⟩
  have hspawned := Run.Reachable.next hempty
    (show Step _ (.op .spawn, 5) _ from
      ⟨_, by decide, by decide, (fun now h => (by cases h)), rfl, rfl⟩)
  exact hspawned.next (show Step _ (.op (.yieldCurrent 10), 10) _ from
    ⟨_, by decide, by decide, fun now h => (Option.some.inj h).symm, rfl, rfl⟩)

/-- The tick at 30 charges it 20 nanoseconds. -/
theorem reachable_balanced_tick :
    (oneDispatched.after (.op (.tick 30)) 30 (oneDispatched.scheduler.tick 30).2).Balanced :=
  reachable_balanced (reachable_oneDispatched.next
    (show Step _ (.op (.tick 30), 30) _ from
      ⟨_, by decide, by decide, fun now h => (Option.some.inj h).symm, rfl, rfl⟩))

example : (oneDispatched.after (.op (.tick 30)) 30
    (oneDispatched.scheduler.tick 30).2).cpuTime 1 = 20 := by
  decide +kernel

end Clocked

end Scheduler

end SaeOS.Task
