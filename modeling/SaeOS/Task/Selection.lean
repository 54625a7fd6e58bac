import Mathlib.Data.Prod.Lex
import SaeOS.Task.Average

/-!
# Which task is dispatched

Whenever the scheduler switches, nothing is running, so the runnable tasks are the queued ones and the
average is theirs. With positive weights some of them is at most the average: with the EEVDF policy an
eligible task is always found, and the one that is dispatched has the least deadline of them.
-/

namespace SaeOS.Task

namespace Scheduler

variable {s s' s₁ : Scheduler} {id now : ℕ} {t t₀ : TaskControlBlock}

/-! ## The scan of the run queue -/

/-- A task of the list that has not run ahead of the average. -/
structure Eligible (s : Scheduler) (queue : List ℕ) (id : ℕ) (t : TaskControlBlock) : Prop where
  queued : id ∈ queue
  task_eq : s.task id = some t
  runtime_le : t.schedulerEntity.virtualRuntime ≤ s.average

/-- The order in which EEVDF dispatches eligible tasks. -/
def deadlineKey (id : ℕ) (t : TaskControlBlock) : ℤ ×ₗ ℕ :=
  toLex (t.schedulerEntity.virtualDeadline, id)

theorem keyLt_iff {a b : ℤ × ℕ} : keyLt a b = true ↔ toLex a < toLex b := by
  rw [Prod.Lex.toLex_lt_toLex]
  simp [keyLt]

/-- The candidate that the scan keeps: the eligible task of the scanned part that comes first, if there
is any. -/
def BestOf (s : Scheduler) (scanned : List ℕ) : Option (ℕ × ℤ × ℕ) → Prop
  | none => ∀ id t, ¬ s.Eligible scanned id t
  | some (i, key) =>
    (∃ id t, scanned[i]? = some id ∧ s.Eligible scanned id t ∧ toLex key = deadlineKey id t) ∧
      ∀ id t, s.Eligible scanned id t → toLex key ≤ deadlineKey id t

/-- Appending one more id to the scanned part. -/
theorem eligible_snoc {l : List ℕ} {id' : ℕ} : s.Eligible (l ++ [id]) id' t ↔
    s.Eligible l id' t ∨ id' = id ∧ s.task id = some t ∧ t.schedulerEntity.virtualRuntime ≤ s.average := by
  constructor
  · rintro ⟨hmem, htask, hle⟩
    rcases List.mem_append.mp hmem with hold | hnew
    · exact .inl ⟨hold, htask, hle⟩
    · obtain rfl := List.mem_singleton.mp hnew
      exact .inr ⟨rfl, htask, hle⟩
  · rintro (⟨hmem, htask, hle⟩ | ⟨rfl, htask, hle⟩)
    · exact ⟨List.mem_append_left _ hmem, htask, hle⟩
    · exact ⟨List.mem_append_right _ (List.mem_singleton_self _), htask, hle⟩

/-- A task that is not eligible does not count. -/
theorem BestOf.skip {l : List ℕ} {best : Option (ℕ × ℤ × ℕ)} (h : s.BestOf l best)
    (hnot : ∀ t, s.task id = some t → ¬ t.schedulerEntity.virtualRuntime ≤ s.average) :
    s.BestOf (l ++ [id]) best := by
  have hsame : ∀ id' t, s.Eligible (l ++ [id]) id' t ↔ s.Eligible l id' t := by
    intro id' t
    rw [eligible_snoc, or_iff_left]
    rintro ⟨-, htask, hle⟩
    exact hnot t htask hle
  cases best with
  | none => exact fun id' t ht => h id' t ((hsame id' t).mp ht)
  | some candidate =>
    obtain ⟨i, key⟩ := candidate
    obtain ⟨⟨id', t, hget, helig, hkey⟩, hleast⟩ := h
    refine ⟨⟨id', t, ?_, (hsame id' t).mpr helig, hkey⟩, fun id'' t' ht' => hleast id'' t' ((hsame id'' t').mp ht')⟩
    rw [List.getElem?_append_left (List.getElem?_eq_some_iff.mp hget).1]
    exact hget

/-- An eligible task is compared with the candidate. -/
theorem BestOf.better {l : List ℕ} {best : Option (ℕ × ℤ × ℕ)} (h : s.BestOf l best)
    (ht : s.task id = some t) (hle : t.schedulerEntity.virtualRuntime ≤ s.average) :
    s.BestOf (l ++ [id]) (better best l.length (t.schedulerEntity.virtualDeadline, id)) := by
  have hget : (l ++ [id])[l.length]? = some id := by simp
  have hnew : s.Eligible (l ++ [id]) id t := eligible_snoc.mpr (.inr ⟨rfl, ht, hle⟩)
  have hsplit : ∀ id' t', s.Eligible (l ++ [id]) id' t' →
      s.Eligible l id' t' ∨ deadlineKey id' t' = deadlineKey id t := by
    intro id' t' ht'
    rcases eligible_snoc.mp ht' with hold | ⟨rfl, htask, -⟩
    · exact .inl hold
    · obtain rfl := Option.some.inj (htask.symm.trans ht)
      exact .inr rfl
  cases best with
  | none =>
    refine ⟨⟨id, t, hget, hnew, rfl⟩, fun id' t' ht' => ?_⟩
    rcases hsplit id' t' ht' with hold | hkey
    · exact absurd hold (h id' t')
    · exact hkey.ge
  | some candidate =>
    obtain ⟨i, key⟩ := candidate
    obtain ⟨⟨id₀, t₀, hget₀, helig₀, hkey₀⟩, hleast⟩ := h
    rw [Scheduler.better]
    split
    · next hlt =>
      refine ⟨⟨id, t, hget, hnew, rfl⟩, fun id' t' ht' => ?_⟩
      rcases hsplit id' t' ht' with hold | hkey
      · exact (keyLt_iff.mp hlt).le.trans (hleast id' t' hold)
      · exact hkey.ge
    · next hnotLt =>
      refine ⟨⟨id₀, t₀, ?_, eligible_snoc.mpr (.inl helig₀), hkey₀⟩, fun id' t' ht' => ?_⟩
      · rw [List.getElem?_append_left (List.getElem?_eq_some_iff.mp hget₀).1]
        exact hget₀
      · rcases hsplit id' t' ht' with hold | hkey
        · exact hleast id' t' hold
        · rw [hkey]
          exact not_lt.mp (keyLt_iff.not.mp hnotLt)

/-- The scan keeps the first of the eligible tasks. -/
theorem scanQueue_bestOf (hpolicy : s.policy = .eevdf) (rest : List ℕ) {scanned : List ℕ}
    {best : Option (ℕ × ℤ × ℕ)} (h : s.BestOf scanned best) (fallback : Option (ℕ × ℤ × ℕ)) :
    s.BestOf (scanned ++ rest) (s.scanQueue rest scanned.length best fallback).1 := by
  induction rest generalizing scanned best fallback with
  | nil => simpa [scanQueue] using h
  | cons id rest ih =>
    have hnext : scanned ++ id :: rest = (scanned ++ [id]) ++ rest := by simp
    have hlength : scanned.length + 1 = (scanned ++ [id]).length := by simp
    rw [scanQueue, hnext]
    cases ht : s.task id with
    | none =>
      dsimp only
      rw [hlength]
      exact ih (h.skip fun t ht' => absurd (ht.symm.trans ht') (by simp)) fallback
    | some t =>
      dsimp only
      rw [hlength]
      refine ih ?_ _
      by_cases hle : t.schedulerEntity.virtualRuntime ≤ s.average
      · simpa [hpolicy, EevdfEntity.isEligible, hle] using h.better ht hle
      · have hskip : s.BestOf (scanned ++ [id]) best := h.skip fun t' ht' => by
          obtain rfl := Option.some.inj (ht.symm.trans ht')
          exact hle
        simpa [hpolicy, EevdfEntity.isEligible, hle] using hskip

/-! ## Somebody is eligible -/

/-- While nothing runs, the runnable tasks are the queued ones. -/
theorem Inv.queued_of_runnable (h : Inv s) (hnone : s.current = none) (ht : t ∈ s.runnable) :
    t.taskId ∈ s.runQueue ∧ s.task t.taskId = some t := by
  obtain ⟨hmem, hidle, hrunnable⟩ := mem_runnable.mp ht
  obtain ⟨slot, hslot⟩ := List.mem_iff_getElem?.mp hmem
  have htask : s.task t.taskId = some t := by
    rw [task, h.slots.slot_some slot t hslot, Option.bind_some, hslot, Option.join_some]
  have hp := h.placed.placedAs _ t htask
  have hnot : t.state ≠ .running := fun hrunning => by
    have hcurrent := hp.current_iff.mpr hrunning
    rw [hnone] at hcurrent
    contradiction
  refine ⟨hp.runQueue_iff.mpr ⟨?_, hidle⟩, htask⟩
  cases hstate : t.state <;> simp_all [TaskState.isRunnable]

/-- With nothing running, one of the queued tasks is eligible. -/
theorem Inv.exists_eligible (h : Inv s) (hw : Weighed s) (hnone : s.current = none)
    (hqueue : s.runQueue ≠ []) : ∃ id t, s.Eligible s.runQueue id t := by
  -- a queued task is runnable
  obtain ⟨id, hid⟩ := List.exists_mem_of_ne_nil _ hqueue
  obtain ⟨t, ht⟩ := h.placed.live id (.inr (.inr (.inl hid)))
  obtain ⟨hready, hidle⟩ := (h.placed.placedAs id t ht).runQueue_iff.mp hid
  have hmem : t ∈ s.runnable := mem_runnable.mpr ⟨mem_tasks ht, hidle, by rw [hready]; rfl⟩
  have htotal := h.sumWeight_pos hw hmem
  obtain ⟨t', ht', hle⟩ := WeightedAverage.exists_le_tdiv_sum (List.ne_nil_of_mem hmem)
    (v := fun t => t.schedulerEntity.virtualRuntime) hw.weightOf_pos
  have haverage : s.average = (s.runnable.map fun t => weightOf t * t.schedulerEntity.virtualRuntime).sum.tdiv
      (s.runnable.map weightOf).sum := by
    rw [hw.average_eq htotal, h.sumWeight, h.sumWeightedRuntime, runnableSum_eq, runnableSum_eq]
    rfl
  obtain ⟨hqueued, htask⟩ := h.queued_of_runnable hnone ht'
  exact ⟨_, t', hqueued, htask, haverage ▸ hle⟩

/-! ## What is picked -/

/-- The task with this id is the eligible task with the least deadline, and `pick_next` finds it without
its fallback. -/
structure PicksEarliest (s : Scheduler) (id : ℕ) (t : TaskControlBlock) : Prop where
  picked : s.pickNext.1 = some id
  eligible : s.Eligible s.runQueue id t
  earliest : ∀ id' t', s.Eligible s.runQueue id' t' → deadlineKey id t ≤ deadlineKey id' t'
  no_fallback : (s.scanQueue s.runQueue 0 none none).1 ≠ none

theorem Inv.picksEarliest (h : Inv s) (hw : Weighed s) (hpolicy : s.policy = .eevdf)
    (hnone : s.current = none) (hqueue : s.runQueue ≠ []) : ∃ id t, s.PicksEarliest id t := by
  obtain ⟨id₀, t₀, helig₀⟩ := h.exists_eligible hw hnone hqueue
  have hempty : s.BestOf [] none := fun id t ht => absurd ht.queued (by simp)
  have hbest := scanQueue_bestOf hpolicy s.runQueue hempty none
  rw [List.nil_append, List.length_nil] at hbest
  cases hscan : (s.scanQueue s.runQueue 0 none none).1 with
  | none =>
    rw [hscan] at hbest
    exact absurd helig₀ (hbest id₀ t₀)
  | some candidate =>
    obtain ⟨i, key⟩ := candidate
    rw [hscan] at hbest
    obtain ⟨⟨id, t, hget, helig, hkey⟩, hleast⟩ := hbest
    refine ⟨id, t, ?_, helig, fun id' t' ht' => hkey ▸ hleast id' t' ht', by rw [hscan]; simp⟩
    rw [Scheduler.pickNext, if_neg (by simpa using hqueue)]
    simp only [hscan, Option.some_or, hget]

/-! ## Where the scheduler switches -/

/-- The scheduler on which `schedule` calls `switch_to_next`. -/
def requeued (s : Scheduler) (now : ℕ) : Option Scheduler :=
  match ({ s with clock := now } : Scheduler).requeueCurrent now with
  | (.error _, _) => none
  | (.ok (), s) => some { s with current := none }

/-- The scheduler on which `sleep`, `block` and `exit` call `switch_to_next`. -/
def stoppedFor (s : Scheduler) (state : TaskState) (now : ℕ)
    (edit : TaskControlBlock → TaskControlBlock) (queue : ℕ → Scheduler → Scheduler) :
    Option Scheduler :=
  match s.stopCurrent state now with
  | (.error _, _) => none
  | (.ok current, s) => (s.task current).map fun t => queue current (s.setTask current (edit t))

/-- `prepare_voluntary_yield` once the running task is marked. -/
def markedVoluntary (s : Scheduler) : Option Scheduler :=
  match s.current with
  | none => none
  | some current =>
    match s.task current with
    | none => none
    | some t =>
      if t.state ≠ .running then none else some (s.setTask current { t with resumeKind := .voluntary })

/-- The scheduler on which an operation calls `switch_to_next`: the previous task is requeued or gone. -/
def switching (s : Scheduler) : Op → Option Scheduler
  | .yieldCurrent now => s.requeued now
  | .preempt stackPointer now => (s.savedFrame stackPointer).requeued now
  | .prepareVoluntaryYield now => s.markedVoluntary.bind fun s => s.requeued now
  | .sleepCurrentUntil deadline now =>
    s.stoppedFor .blocked now (fun t => { t with blockReason := some (.sleepUntil deadline) })
      fun current s => { s with sleepers := insertSleeper s.sleepers (deadline, current) }
  | .blockCurrent reason queue now =>
    s.stoppedFor .blocked now
      (fun t => { t with blockReason := some reason, waitLink := some queue.id }) fun _ s => s
  | .exitCurrent status now =>
    s.stoppedFor .exited now (fun t => { t with exitStatus := some status, blockReason := none })
      fun current s => { s with exitQueue := s.exitQueue ++ [current] }
  | _ => none

/-- From `s` an operation goes on as `switch_to_next` on `s₁`, apart from its counters. -/
def SwitchesTo (s₁ s' : Scheduler) : Prop :=
  ∃ previous now stats, s' = { (s₁.switchToNext previous now).2 with stats }

theorem switchesTo_schedule (h : s.requeued now = some s₁) : SwitchesTo s₁ (s.schedule now).2 := by
  unfold requeued at h
  unfold Scheduler.schedule
  dsimp only
  generalize ({ s with clock := now } : Scheduler).requeueCurrent now = outcome at h ⊢
  obtain ⟨result, s₂⟩ := outcome
  cases result with
  | error e => contradiction
  | ok =>
    obtain rfl := Option.some.inj h
    exact ⟨s.current, now, _, rfl⟩

theorem switchesTo_stopThen {state : TaskState} {edit : TaskControlBlock → TaskControlBlock}
    {queue : ℕ → Scheduler → Scheduler} (h : s.stoppedFor state now edit queue = some s₁) :
    SwitchesTo s₁ (s.stopThen state now edit queue).2 := by
  unfold stoppedFor at h
  unfold Scheduler.stopThen
  generalize s.stopCurrent state now = outcome at h ⊢
  obtain ⟨result, s₂⟩ := outcome
  cases result with
  | error e => contradiction
  | ok current =>
    obtain ⟨t, ht, rfl⟩ := Option.map_eq_some_iff.mp h
    simp only [ht]
    exact ⟨some current, now, _, rfl⟩

theorem switchesTo_of_stats {stats : SchedulerStats} (h : SwitchesTo s₁ s') :
    SwitchesTo s₁ { s' with stats } := by
  obtain ⟨previous, now, _, rfl⟩ := h
  exact ⟨previous, now, stats, rfl⟩

/-- An operation that switches ends in `switch_to_next`. -/
theorem Step.switchesTo {op : Op} (h : Step s op s') (hswitch : s.switching op = some s₁) :
    SwitchesTo s₁ s' := by
  cases op with
  | yieldCurrent now =>
    rw [show s' = (s.schedule now).2 from h]
    exact switchesTo_schedule hswitch
  | preempt stackPointer now =>
    obtain ⟨next, hrun⟩ := h
    obtain ⟨stats, -, rfl⟩ := preempt_schedule hrun
    exact switchesTo_of_stats (switchesTo_schedule hswitch)
  | prepareVoluntaryYield now =>
    obtain ⟨s₂, hmarked, hrequeued⟩ := Option.bind_eq_some_iff.mp hswitch
    have hswitches := switchesTo_schedule hrequeued
    rw [show s' = (s.prepareVoluntaryYield now).2 from h]
    unfold markedVoluntary at hmarked
    unfold Scheduler.prepareVoluntaryYield
    cases hcurrent : s.current with
    | none =>
      rw [hcurrent] at hmarked
      contradiction
    | some current =>
      rw [hcurrent] at hmarked
      dsimp only at hmarked ⊢
      cases ht : s.task current with
      | none =>
        rw [ht] at hmarked
        contradiction
      | some t =>
        rw [ht] at hmarked
        dsimp only at hmarked ⊢
        split at hmarked
        · contradiction
        · next hrunning =>
          obtain rfl := Option.some.inj hmarked
          rw [if_neg hrunning]
          split <;> rename_i heq <;> rw [heq] at hswitches
          · exact hswitches
          · exact hswitches
          · exact switchesTo_of_stats hswitches
  | sleepCurrentUntil deadline now =>
    obtain ⟨-, rfl⟩ := h
    exact switchesTo_stopThen hswitch
  | blockCurrent reason queue now =>
    obtain ⟨-, rfl⟩ := h
    exact switchesTo_stopThen hswitch
  | exitCurrent status now =>
    obtain ⟨-, rfl⟩ := h
    exact switchesTo_stopThen hswitch
  | _ => contradiction

/-! ## What holds where it switches -/

/-- From `s` to `s'` neither the policy nor the sleepers changed. -/
structure Frame (s s' : Scheduler) : Prop where
  policy_eq : s'.policy = s.policy
  sleepers_eq : s'.sleepers = s.sleepers

theorem frame_refl (s : Scheduler) : Frame s s :=
  ⟨rfl, rfl⟩

theorem Frame.trans (h : Frame s s₁) (h' : Frame s₁ s') : Frame s s' :=
  ⟨h'.policy_eq.trans h.policy_eq, h'.sleepers_eq.trans h.sleepers_eq⟩

theorem frame_setTask (s : Scheduler) (id : ℕ) (t : TaskControlBlock) : Frame s (s.setTask id t) := by
  unfold Scheduler.setTask
  split <;> exact ⟨rfl, rfl⟩

theorem frame_refreshAverage (s : Scheduler) : Frame s s.refreshAverage := by
  unfold Scheduler.refreshAverage
  split <;> exact ⟨rfl, rfl⟩

/-- The sums and the average are no part of the frame. -/
theorem Frame.refreshAverage {sumWeight sumWeightedRuntime : ℤ} (h : Frame s s') :
    Frame s ({ s' with sumWeight, sumWeightedRuntime } : Scheduler).refreshAverage := by
  have hsums : Frame s { s' with sumWeight, sumWeightedRuntime } := ⟨h.policy_eq, h.sleepers_eq⟩
  exact hsums.trans (frame_refreshAverage _)

theorem frame_charge (s : Scheduler) (id now : ℕ) : Frame s (s.charge id now).2 := by
  unfold Scheduler.charge
  split
  · exact frame_refl s
  dsimp only
  split
  · exact frame_setTask ..
  · exact (frame_setTask ..).refreshAverage

theorem frame_leave (s : Scheduler) (id : ℕ) : Frame s (s.leave id) := by
  unfold Scheduler.leave
  split
  · exact frame_refl s
  · exact (frame_setTask ..).refreshAverage

theorem frame_requeueCurrent (s : Scheduler) (now : ℕ) : Frame s (s.requeueCurrent now).2 := by
  unfold Scheduler.requeueCurrent
  split
  · exact frame_refl s
  split
  · exact frame_refl s
  split
  · have hcharge := fun id => frame_charge s id now
    dsimp only
    split
    · exact hcharge _
    split
    · exact hcharge _
    split
    · exact (hcharge _).trans (frame_setTask ..)
    · have hset := fun id t => (hcharge id).trans (frame_setTask (s.charge id now).2 id t)
      exact ⟨(hset _ _).policy_eq, (hset _ _).sleepers_eq⟩
  · exact frame_refl s

theorem frame_stopRunning (s : Scheduler) (state : TaskState) (now : ℕ) :
    Frame s (s.stopRunning state now).2 := by
  unfold Scheduler.stopRunning
  split
  · exact frame_refl s
  split
  · exact frame_refl s
  split
  · exact frame_refl s
  have hleft := fun id => (frame_charge s id now).trans (frame_leave (s.charge id now).2 id)
  dsimp only
  split
  · exact hleft _
  have hset := fun id t => (hleft id).trans (frame_setTask ((s.charge id now).2.leave id) id t)
  split
  · exact hset _ _
  · exact ⟨(hset _ _).policy_eq, (hset _ _).sleepers_eq⟩

/-- The scheduler `s₁` on which `s` switches: nothing runs, and the books are in order. -/
structure Between (s s₁ : Scheduler) : Prop where
  inv : Inv s₁
  weighed : Weighed s₁
  current_eq : s₁.current = none
  policy_eq : s₁.policy = s.policy

theorem Inv.between_requeued (h : Inv s) (hw : Weighed s) (hrequeued : s.requeued now = some s₁) :
    Between s s₁ := by
  obtain ⟨s₂, hrequeue, h₂⟩ := (h.setClock now).requeueCurrent now
  have hclock : Weighed { s with clock := now } := ⟨hw.average_eq, hw.weight_pos⟩
  have hweighed := hclock.requeueCurrent now
  have hpolicy := (frame_requeueCurrent { s with clock := now } now).policy_eq
  rw [hrequeue] at hweighed hpolicy
  rw [requeued, hrequeue] at hrequeued
  obtain rfl := Option.some.inj hrequeued
  exact ⟨h₂, ⟨hweighed.average_eq, hweighed.weight_pos⟩, rfl, hpolicy⟩

theorem Inv.between_stoppedFor (h : Inv s) (hw : Weighed s) {state : TaskState}
    {edit : TaskControlBlock → TaskControlBlock} {queue : ℕ → Scheduler → Scheduler}
    {sleepers : ℕ → Scheduler → List (ℕ × ℕ)} (hguard : s.NotIdle)
    (hstate : state = .blocked ∨ state = .exited)
    (hstopped : s.stoppedFor state now edit queue = some s₁)
    (hedit : ∀ t, (edit t).taskId = t.taskId ∧ (edit t).isIdle = t.isIdle ∧
      (edit t).schedulerEntity = t.schedulerEntity ∧ (edit t).state = t.state)
    (hqueue : ∀ id s, queue id s = { s with
      exitQueue := if state = .exited then s.exitQueue ++ [id] else s.exitQueue
      sleepers := sleepers id s }) : Between s s₁ := by
  have hclock : Weighed { s with clock := now } := ⟨hw.average_eq, hw.weight_pos⟩
  have hweighed := hclock.stopRunning state now
  have hpolicy := (frame_stopRunning { s with clock := now } state now).policy_eq
  rcases h.stopCurrent_cases hguard hstate hedit hqueue now with
    ⟨-, hstop⟩ | ⟨id, s₂, t₂, -, hstop, ht₂, hnone, h₂⟩
  · rw [stoppedFor, hstop] at hstopped
    contradiction
  · rw [stopCurrent] at hstop
    rw [hstop] at hweighed hpolicy
    simp only [stoppedFor, stopCurrent, hstop, ht₂, Option.map_some, Option.some.injEq] at hstopped
    subst hstopped
    have hweight := hweighed.weight_task ht₂
    have hset : Weighed (Scheduler.setTask _ id (edit t₂)) :=
      hweighed.setTask (by rwa [(hedit t₂).2.2.1])
    refine ⟨h₂, ?_, hnone, ?_⟩
    · rw [hqueue]
      exact ⟨hset.average_eq, hset.weight_pos⟩
    · rw [hqueue]
      exact (frame_setTask ..).policy_eq.trans hpolicy

theorem frame_savedFrame (s : Scheduler) (stackPointer : ℕ) : Frame s (s.savedFrame stackPointer) := by
  unfold Scheduler.savedFrame
  split
  · exact frame_refl s
  split
  · exact frame_refl s
  · exact frame_setTask ..

/-- Marking the running task keeps the books. -/
theorem Inv.markedVoluntary (h : Inv s) (hw : Weighed s) (hmarked : s.markedVoluntary = some s₁) :
    Inv s₁ ∧ Weighed s₁ ∧ s₁.policy = s.policy := by
  unfold Scheduler.markedVoluntary at hmarked
  cases hcurrent : s.current with
  | none =>
    rw [hcurrent] at hmarked
    contradiction
  | some current =>
    rw [hcurrent] at hmarked
    dsimp only at hmarked
    cases ht : s.task current with
    | none =>
      rw [ht] at hmarked
      contradiction
    | some t =>
      rw [ht] at hmarked
      dsimp only at hmarked
      split at hmarked
      · contradiction
      · obtain rfl := Option.some.inj hmarked
        have hweight := hw.weight_task ht
        exact ⟨h.setTask ht ⟨rfl, rfl, rfl, rfl⟩, hw.setTask hweight, (frame_setTask ..).policy_eq⟩

/-- Wherever an operation switches, nothing runs and the books are in order. -/
theorem Inv.between (h : Inv s) (hw : Weighed s) {op : Op} (hstep : Step s op s')
    (hswitch : s.switching op = some s₁) : Between s s₁ := by
  cases op with
  | yieldCurrent now => exact h.between_requeued hw hswitch
  | preempt stackPointer now =>
    have hb := (h.savedFrame stackPointer).between_requeued (hw.savedFrame stackPointer) hswitch
    exact ⟨hb.inv, hb.weighed, hb.current_eq, hb.policy_eq.trans (frame_savedFrame s stackPointer).policy_eq⟩
  | prepareVoluntaryYield now =>
    obtain ⟨s₂, hmarked, hrequeued⟩ := Option.bind_eq_some_iff.mp hswitch
    obtain ⟨h₂, hw₂, hpolicy⟩ := h.markedVoluntary hw hmarked
    have hb := h₂.between_requeued hw₂ hrequeued
    exact ⟨hb.inv, hb.weighed, hb.current_eq, hb.policy_eq.trans hpolicy⟩
  | sleepCurrentUntil deadline now =>
    rw [switching] at hswitch
    exact h.between_stoppedFor hw hstep.1 (.inl rfl) hswitch (fun _ => ⟨rfl, rfl, rfl, rfl⟩)
      fun _ _ => rfl
  | blockCurrent reason queue now =>
    rw [switching] at hswitch
    exact h.between_stoppedFor hw hstep.1 (.inl rfl) hswitch (fun _ => ⟨rfl, rfl, rfl, rfl⟩)
      fun _ _ => rfl
  | exitCurrent status now =>
    rw [switching] at hswitch
    exact h.between_stoppedFor hw hstep.1 (.inr rfl) hswitch (fun _ => ⟨rfl, rfl, rfl, rfl⟩)
      fun _ _ => rfl
  | _ => contradiction

/-- What is picked is dispatched. -/
theorem Inv.current_of_picked (h : Inv s₁) (hqueue : s₁.runQueue ≠ [])
    (hpicked : ({ s₁ with wakeupPreempt := false } : Scheduler).pickNext.1 = some id)
    (hswitches : SwitchesTo s₁ s') : s'.current = some id := by
  have h₁ : Inv { s₁ with wakeupPreempt := false } :=
    ⟨h.slots, h.placed, h.sumWeight, h.sumWeightedRuntime⟩
  rcases h₁.pickNext with ⟨hempty, -⟩ | ⟨id', q, hpick, hperm⟩
  · exact absurd hempty hqueue
  · obtain rfl : id' = id := Option.some.inj ((congrArg Prod.fst hpick).symm.trans hpicked)
    have hmem : id' ∈ s₁.runQueue := hperm.mem_iff.mp List.mem_cons_self
    obtain ⟨t₀, ht₀⟩ := h.placed.live id' (.inr (.inr (.inl hmem)))
    have hready := ((h.placed.placedAs id' t₀ ht₀).runQueue_iff.mp hmem).1
    obtain ⟨previous, now, _, rfl⟩ := hswitches
    obtain ⟨stats, heq⟩ := switchToNext_of_pick previous now hpick ht₀ hready
    rw [heq]

/-- With the EEVDF policy, whenever the scheduler switches and a task is queued, some queued task is
eligible, and the eligible task with the least deadline is picked and dispatched. -/
theorem reachable_picksEarliest (h : Run.Reachable Initial Step s) (hpolicy : s.policy = .eevdf) {op : Op}
    (hstep : Step s op s') (hswitch : s.switching op = some s₁) (hqueue : s₁.runQueue ≠ []) :
    ∃ id t, ({ s₁ with wakeupPreempt := false } : Scheduler).PicksEarliest id t ∧
      s'.current = some id := by
  have hinv : Inv s := h.invariant (fun _ hinit => Inv.initial hinit) fun _ _ _ hs hstep => hs.step hstep
  have hb := hinv.between (reachable_weighed h) hstep hswitch
  have h₁ : Inv { s₁ with wakeupPreempt := false } :=
    ⟨hb.inv.slots, hb.inv.placed, hb.inv.sumWeight, hb.inv.sumWeightedRuntime⟩
  have hw₁ : Weighed { s₁ with wakeupPreempt := false } := ⟨hb.weighed.average_eq, hb.weighed.weight_pos⟩
  obtain ⟨id, t, hpicks⟩ := h₁.picksEarliest hw₁ (hb.policy_eq.trans hpolicy) hb.current_eq hqueue
  exact ⟨id, t, hpicks, hb.inv.current_of_picked hqueue hpicks.picked (hstep.switchesTo hswitch)⟩

/-- Three tasks, the first of which is dispatched; the second is given more weight. -/
def threeTasks : Scheduler :=
  ((((((withPolicy .eevdf).spawnKernelTask true).2.spawn.2.spawn.2.spawn.2).yieldCurrent 10).2).setNice 3
    (-5)).2

/-- The first task yields after a millisecond and is not eligible. Of the others, the one with the earlier
deadline is picked, although it stands behind the other. -/
theorem reachable_picksEarliest_threeTasks :
    ∃ (s₁ : Scheduler) (t : TaskControlBlock), threeTasks.switching (.yieldCurrent 1000010) = some s₁ ∧
      s₁.runQueue = [4, 3, 2] ∧ (∀ t₂, ¬ s₁.Eligible s₁.runQueue 2 t₂) ∧
      ({ s₁ with wakeupPreempt := false } : Scheduler).PicksEarliest 3 t ∧
      (threeTasks.yieldCurrent 1000010).2.current = some 3 := by
  have hspawned : Run.Reachable Initial Step
      ((withPolicy .eevdf).spawnKernelTask true).2.spawn.2.spawn.2.spawn.2 :=
    .next (.next (.next (.start ⟨.eevdf, Or.inr rfl⟩) (show Step _ .spawn _ from rfl))
      (show Step _ .spawn _ from rfl)) (show Step _ .spawn _ from rfl)
  have hreach : Run.Reachable Initial Step threeTasks :=
    .next (.next hspawned (show Step _ (.yieldCurrent 10) _ from rfl)) (show Step _ (.setNice 3 (-5)) _ from rfl)
  obtain ⟨s₁, hswitch⟩ : ∃ s₁, threeTasks.switching (.yieldCurrent 1000010) = some s₁ := ⟨_, rfl⟩
  have hqueue : (threeTasks.switching (.yieldCurrent 1000010)).map (fun s => (s.runQueue, decide
      (∀ t₂ ∈ s.task 2, s.average < t₂.schedulerEntity.virtualRuntime))) = some ([4, 3, 2], true) := by
    decide +kernel
  rw [hswitch] at hqueue
  obtain ⟨hqueue, hlate⟩ := Prod.mk.inj (Option.some.inj hqueue)
  have hcurrent : (threeTasks.yieldCurrent 1000010).2.current = some 3 := by decide +kernel
  obtain ⟨id, t, hpicks, hid⟩ := reachable_picksEarliest hreach (by decide +kernel)
    (show Step _ (.yieldCurrent 1000010) _ from rfl) hswitch (by rw [hqueue]; decide)
  obtain rfl := Option.some.inj (hcurrent.symm.trans hid)
  exact ⟨s₁, t, hswitch, hqueue, fun t₂ helig => absurd helig.runtime_le
    (not_le.mpr (of_decide_eq_true hlate t₂ helig.task_eq)), hpicks, hcurrent⟩

/-! ## Every switch is meant -/

/-- The running task is live and running, and the idle task is marked as one. -/
theorem Inv.sound (h : Inv s) : Sound s := by
  refine ⟨h.slots, fun id hid => h.current_task hid, fun id hid => ?_⟩
  obtain ⟨t, ht⟩ := h.placed.live id (.inr (.inl hid))
  refine ⟨lt_of_task h.slots ht, fun t' ht' => ?_⟩
  exact (h.placed.placedAs id t' ht').idle_iff.mp hid

end Scheduler

end SaeOS.Task
