import SaeOS.Task.WaitQueues

/-!
# Runs of the wait queues

`QueuesExact` says that the entries of each queue are exactly the tasks blocked on it, in the order
in which they blocked. Undisturbed operations keep it, so along a run of them no wake-up is lost; one
targeted wake of a queued task is enough to lose one.
-/

namespace SaeOS.Task

namespace WaitSystem

open Scheduler (Op Inv BlockedOn Linked SameLinks linkOf)

variable {sys sys' : WaitSystem} {q id : ℕ}

/-! ## The invariant -/

/-- The entries of each queue are the tasks blocked on it, in the order in which they blocked. -/
structure QueuesExact (sys : WaitSystem) : Prop where
  inv : Inv sys.scheduler
  linked : Linked sys.scheduler.outline
  mem_iff : ∀ q id, id ∈ sys.queues q ↔ linkOf sys.scheduler.outline id = some q
  ordered : ∀ q, (sys.queues q).Pairwise fun a b => sys.since a < sys.since b
  since_lt : ∀ q, ∀ id ∈ sys.queues q, sys.since id < sys.blocks

namespace QueuesExact

theorem nodup (h : QueuesExact sys) (q : ℕ) : (sys.queues q).Nodup :=
  (h.ordered q).imp fun hlt heq => absurd (heq ▸ hlt) (lt_irrefl _)

/-- The entries of a queue are the tasks blocked on it. -/
theorem blockedOn_iff (h : QueuesExact sys) (q id : ℕ) :
    sys.scheduler.BlockedOn q id ↔ id ∈ sys.queues q := by
  rw [h.linked.blockedOn_iff, h.mem_iff]

/-- A step that changes no link and no queue. -/
theorem of_sameLinks (h : QueuesExact sys) (hinv : Inv sys'.scheduler)
    (hlinks : SameLinks sys.scheduler.outline sys'.scheduler.outline)
    (hqueues : sys'.queues = sys.queues) (hblocks : sys'.blocks = sys.blocks)
    (hsince : sys'.since = sys.since) : QueuesExact sys' where
  inv := hinv
  linked := hlinks.linked h.linked
  mem_iff q id := by
    rw [hqueues, hlinks.linkOf_eq]
    exact h.mem_iff q id
  ordered q := by
    rw [hqueues, hsince]
    exact h.ordered q
  since_lt q id hmem := by
    rw [hqueues] at hmem
    rw [hsince, hblocks]
    exact h.since_lt q id hmem

/-- A step that wakes tasks of one queue and takes exactly their entries out. -/
theorem of_woken (h : QueuesExact sys) (hinv : Inv sys'.scheduler)
    (hlinked : Linked sys'.scheduler.outline) (q : ℕ) (rest : List ℕ)
    (hsub : rest.Sublist (sys.queues q))
    (hlink : ∀ id, linkOf sys'.scheduler.outline id =
      if id ∈ sys.queues q ∧ id ∉ rest then none else linkOf sys.scheduler.outline id)
    (hqueues : sys'.queues = Function.update sys.queues q rest) (hblocks : sys'.blocks = sys.blocks)
    (hsince : sys'.since = sys.since) : QueuesExact sys' where
  inv := hinv
  linked := hlinked
  mem_iff q' id := by
    rw [hqueues, hlink]
    by_cases hq : q' = q
    · subst hq
      rw [Function.update_self]
      by_cases hrest : id ∈ rest
      · simp [hrest, (h.mem_iff q' id).mp (hsub.subset hrest)]
      · by_cases hmem : id ∈ sys.queues q' <;> simp [hrest, hmem, ← h.mem_iff]
    · rw [Function.update_of_ne hq]
      split_ifs with hwoken
      · -- a task of this queue is linked to no other
        have hlinkq := (h.mem_iff q id).mp hwoken.1
        simp [h.mem_iff, hlinkq, Ne.symm hq]
      · exact h.mem_iff q' id
  ordered q' := by
    rw [hqueues, hsince]
    by_cases hq : q' = q
    · subst hq
      rw [Function.update_self]
      exact (h.ordered q').sublist hsub
    · rw [Function.update_of_ne hq]
      exact h.ordered q'
  since_lt q' id hmem := by
    rw [hqueues] at hmem
    rw [hsince, hblocks]
    by_cases hq : q' = q
    · subst hq
      rw [Function.update_self] at hmem
      exact h.since_lt q' id (hsub.subset hmem)
    · rw [Function.update_of_ne hq] at hmem
      exact h.since_lt q' id hmem

/-- `wake_one` wakes the front entry, if there is one. -/
theorem wakeOne_eq (h : QueuesExact sys) (q : ℕ) :
    (sys.queues q = [] ∧ sys.wakeOne q = ((.ok none, sys.scheduler), ⟨q, []⟩)) ∨
      ∃ id rest t, sys.queues q = id :: rest ∧ sys.scheduler.task id = some t ∧
        sys.wakeOne q = ((.ok (some id), sys.scheduler.makeReady id), ⟨q, rest⟩) ∧
        Inv (sys.scheduler.makeReady id) ∧ (sys.scheduler.makeReady id).outline =
          Function.update sys.scheduler.outline id (some (Scheduler.woken t.outline)) := by
  cases hqueue : sys.queues q with
  | nil => exact Or.inl ⟨rfl, by simp only [wakeOne, queue, Scheduler.wakeOne, hqueue]⟩
  | cons id rest =>
    have hmem : id ∈ sys.queues q := hqueue ▸ List.mem_cons_self
    obtain ⟨t, ht, hwake, hinv, houtline⟩ :=
      h.inv.wakeTask_of_blockedOn ((h.blockedOn_iff q id).mpr hmem)
    refine Or.inr ⟨id, rest, t, rfl, ht, ?_, hinv, houtline⟩
    simp only [wakeOne, queue, Scheduler.wakeOne, hqueue, hwake]

/-- Clearing the link of one task, in the form `of_woken` asks for. -/
theorem link_of_update {o : ℕ → Option TaskControlBlock} {x : Option TaskControlBlock}
    (hx : x.bind TaskControlBlock.waitLink = none) (id' : ℕ) :
    linkOf (Function.update o id x) id' = if id' = id then none else linkOf o id' := by
  rw [Scheduler.linkOf_update]
  by_cases heq : id' = id
  · subst heq
    rw [Function.update_self, if_pos rfl, hx]
  · rw [Function.update_of_ne heq, if_neg heq]

theorem step_wakeOne (h : QueuesExact sys) (hstep : Step sys (.wakeOne (sys.queue q)) sys') :
    QueuesExact sys' := by
  have hscheduler : sys'.scheduler = (sys.wakeOne q).1.2 := hstep.scheduler
  have hqueues : sys'.queues =
      Function.update sys.queues (sys.wakeOne q).2.id (sys.wakeOne q).2.tasks := hstep.queues
  rcases h.wakeOne_eq q with ⟨hempty, hwake⟩ | ⟨id, rest, t, hqueue, ht, hwake, hinv, houtline⟩
  · rw [hwake] at hscheduler hqueues
    refine h.of_sameLinks (hscheduler ▸ h.inv) (hscheduler ▸ SameLinks.refl _) ?_ hstep.blocks
      hstep.since
    rw [hqueues]
    exact hempty ▸ Function.update_eq_self q sys.queues
  · rw [hwake] at hscheduler hqueues
    have hlinked : Linked (sys.scheduler.makeReady id).outline := by
      rw [houtline]
      refine h.linked.update fun t' ht' => ?_
      cases ht'
      rfl
    refine h.of_woken (hscheduler ▸ hinv) (hscheduler ▸ hlinked) q rest ?_ (fun id' => ?_) hqueues
      hstep.blocks hstep.since
    · rw [hqueue]
      exact List.sublist_cons_self id rest
    · have hfresh := (List.nodup_cons.mp (hqueue ▸ h.nodup q)).1
      have hcond : id' ∈ sys.queues q ∧ id' ∉ rest ↔ id' = id := by
        rw [hqueue, List.mem_cons]
        constructor
        · rintro ⟨heq | hmem, hout⟩
          · exact heq
          · exact absurd hmem hout
        · rintro rfl
          exact ⟨Or.inl rfl, hfresh⟩
      rw [hscheduler, houtline, link_of_update rfl]
      simp only [hcond]

theorem step_wakeAll (h : QueuesExact sys) (hstep : Step sys (.wakeAll (sys.queue q)) sys') :
    QueuesExact sys' := by
  have hscheduler : sys'.scheduler = (sys.wakeAll q).1.2 := hstep.scheduler
  have hqueues : sys'.queues =
      Function.update sys.queues (sys.wakeAll q).2.id (sys.wakeAll q).2.tasks := hstep.queues
  obtain ⟨-, hempty, houtline⟩ := h.inv.wakeAll_spec (sys.queue q) 0
    (fun id hmem => (h.blockedOn_iff q id).mpr hmem) (h.nodup q) (Nat.lt_succ_self _)
  have hinv : Inv sys'.scheduler := hscheduler ▸ h.inv.roused (.wakeAll .refl _ _ _)
  have houtline' : sys'.scheduler.outline =
      Scheduler.wokenAll sys.scheduler.outline (sys.queues q) := by
    rw [hscheduler]
    exact houtline
  have hempty' : (sys.wakeAll q).2 = ⟨q, []⟩ := hempty
  rw [hempty'] at hqueues
  refine h.of_woken hinv ?_ q [] (List.nil_sublist _) (fun id => ?_) hqueues hstep.blocks
    hstep.since
  · rw [houtline']
    exact h.linked.wokenAll _
  · rw [houtline', Scheduler.linkOf_wokenAll]
    simp

theorem step_cancelWait (h : QueuesExact sys)
    (hstep : Step sys (.cancelWait id (sys.queue q)) sys') : QueuesExact sys' := by
  have hscheduler : sys'.scheduler = (sys.scheduler.cancelWait id (sys.queue q)).1.2 :=
    hstep.scheduler
  have hqueues : sys'.queues = Function.update sys.queues
      (sys.scheduler.cancelWait id (sys.queue q)).2.id
      (sys.scheduler.cancelWait id (sys.queue q)).2.tasks := hstep.queues
  by_cases hmem : id ∈ sys.queues q
  · -- the entry is a task blocked on the queue: it is woken and its entry taken out
    obtain ⟨t, ht, hstate, hlink⟩ := (h.blockedOn_iff q id).mpr hmem
    have hcancel : sys.scheduler.cancelWait id (sys.queue q) =
        ((.ok (), sys.scheduler.makeReady id), ⟨q, (sys.queues q).erase id⟩) := by
      simp [Scheduler.cancelWait, ht, hstate, hlink, queue, hmem]
    have houtline := (h.inv.outline_makeReady ht hstate).1
    rw [hcancel] at hscheduler hqueues
    refine h.of_woken (hscheduler ▸ h.inv.makeReady ht hstate) ?_ q ((sys.queues q).erase id)
      List.erase_sublist (fun id' => ?_) hqueues hstep.blocks hstep.since
    · rw [hscheduler, houtline]
      refine h.linked.update fun t' ht' => ?_
      cases ht'
      rfl
    · have hcond : id' ∈ sys.queues q ∧ id' ∉ (sys.queues q).erase id ↔ id' = id := by
        rw [(h.nodup q).mem_erase_iff]
        constructor
        · rintro ⟨hin, hout⟩
          by_contra hne
          exact hout ⟨hne, hin⟩
        · rintro rfl
          exact ⟨hmem, fun hin => hin.1 rfl⟩
      rw [hscheduler, houtline, link_of_update rfl]
      simp only [hcond]
  · have hcancel : (sys.scheduler.cancelWait id (sys.queue q)).1.2 = sys.scheduler ∧
        (sys.scheduler.cancelWait id (sys.queue q)).2 = ⟨q, sys.queues q⟩ := by
      unfold Scheduler.cancelWait
      split
      · exact ⟨rfl, rfl⟩
      · have hcontains : (sys.queue q).tasks.contains id = false := by
          simpa [queue] using hmem
        simp only [hcontains, Bool.false_eq_true, if_false]
        split_ifs <;> exact ⟨rfl, rfl⟩
    rw [hcancel.1] at hscheduler
    rw [hcancel.2] at hqueues
    refine h.of_sameLinks (hscheduler ▸ h.inv) (hscheduler ▸ SameLinks.refl _) ?_ hstep.blocks
      hstep.since
    rw [hqueues]
    exact Function.update_eq_self q sys.queues

/-- What `block_current` does: nothing runs and nothing happens, or the running task is linked to the
queue and appended to it. -/
theorem blockCurrent_cases (h : QueuesExact sys) (hidle : sys.scheduler.NotIdle)
    {reason : BlockReason} (hreason : ∀ deadline, reason ≠ .sleepUntil deadline) (q now : ℕ) :
    (sys.scheduler.current = none ∧
      (sys.scheduler.blockCurrent reason (sys.queue q) now).1.2.outline = sys.scheduler.outline ∧
      (sys.scheduler.blockCurrent reason (sys.queue q) now).2 = sys.queue q) ∨
    ∃ id t, sys.scheduler.current = some id ∧ linkOf sys.scheduler.outline id = none ∧
      t.waitLink = some q ∧ Linked (Function.update sys.scheduler.outline id (some t)) ∧
      SameLinks (Function.update sys.scheduler.outline id (some t))
        (sys.scheduler.blockCurrent reason (sys.queue q) now).1.2.outline ∧
      (sys.scheduler.blockCurrent reason (sys.queue q) now).2 = ⟨q, sys.queues q ++ [id]⟩ := by
  have hstop := h.inv.dispatches_stopThen .blocked
    (fun t => { t with blockReason := some reason, waitLink := some q }) (fun _ s => s)
    (fun _ s => s.sleepers) hidle (Or.inl rfl) (fun _ => ⟨rfl, rfl, rfl, rfl⟩) (fun _ => rfl)
    (fun _ _ => rfl) now
  rcases hstop with ⟨hcurrent, hrun⟩ | ⟨id, t, hcurrent, ho, hrunning, hok, hdispatch⟩
  · have hstopped : (sys.scheduler.stopCurrent .blocked now).1 = .error .unknownTask := by
      simp only [Scheduler.stopCurrent, Scheduler.stopRunning, hcurrent]
    refine Or.inl ⟨hcurrent, ?_, ?_⟩
    · exact congrArg (fun r => r.2.outline) hrun
    · simp only [Scheduler.blockCurrent, hstopped]
  · have hunlinked : t.waitLink = none := h.linked.unlinked ho (by rw [hrunning]; decide)
    -- the blocked task is linked, and not on a deadline
    have hlinked := h.linked.update_blocked id (t := { Scheduler.stopped .blocked t with
      blockReason := some reason, waitLink := some q }) rfl
      fun deadline hsleep => hreason deadline (Option.some.inj hsleep)
    refine Or.inr ⟨id, _, hcurrent, (Scheduler.linkOf_of_some ho).trans hunlinked, rfl, hlinked,
      hdispatch.sameLinks hlinked, ?_⟩
    simp only [Scheduler.blockCurrent, hok, queue]

theorem step_blockCurrent (h : QueuesExact sys) {reason : BlockReason} {now : ℕ}
    (hreason : ∀ deadline, reason ≠ .sleepUntil deadline)
    (hstep : Step sys (.blockCurrent reason (sys.queue q) now) sys') : QueuesExact sys' := by
  obtain ⟨hidle, hscheduler⟩ := hstep.scheduler
  have hinv : Inv sys'.scheduler := hscheduler ▸ h.inv.blockCurrent hidle _ _ _
  have hqueues : sys'.queues = Function.update sys.queues
      (sys.scheduler.blockCurrent reason (sys.queue q) now).2.id
      (sys.scheduler.blockCurrent reason (sys.queue q) now).2.tasks := hstep.queues
  have hblocks : sys'.blocks = sys.blocks + 1 := hstep.blocks
  have hsince : sys'.since = sys.sinceAfter (.blockCurrent reason (sys.queue q) now) := hstep.since
  rcases h.blockCurrent_cases hidle hreason q now with ⟨hcurrent, houtline, hqueue⟩ |
    ⟨id, t, hcurrent, hunlinked, hlink, hlinked, hlinks, hqueue⟩
  · rw [← hscheduler] at houtline
    rw [hqueue] at hqueues
    have hsame : sys'.queues = sys.queues := hqueues.trans (Function.update_eq_self q sys.queues)
    simp only [sinceAfter, hcurrent] at hsince
    refine ⟨hinv, houtline ▸ h.linked, fun q' id => ?_, fun q' => ?_, fun q' id hmem => ?_⟩
    · rw [hsame, houtline]
      exact h.mem_iff q' id
    · rw [hsame, hsince]
      exact h.ordered q'
    · rw [hsame] at hmem
      rw [hsince, hblocks]
      exact (h.since_lt q' id hmem).trans (Nat.lt_succ_self _)
  · rw [← hscheduler] at hlinks
    rw [hqueue] at hqueues
    simp only [sinceAfter, hcurrent] at hsince
    have hlinkOf : linkOf sys'.scheduler.outline =
        Function.update (linkOf sys.scheduler.outline) id (some q) := by
      rw [hlinks.linkOf_eq, Scheduler.linkOf_update, Option.bind_some, hlink]
    -- the running task was on no queue
    have hfresh : ∀ q', id ∉ sys.queues q' := fun q' hmem => by
      rw [h.mem_iff, hunlinked] at hmem
      cases hmem
    have hold : ∀ q', ∀ id' ∈ sys.queues q', sys'.since id' = sys.since id' := by
      intro q' id' hmem
      rw [hsince, Function.update_of_ne]
      rintro rfl
      exact hfresh q' hmem
    have hnew : sys'.since id = sys.blocks := by rw [hsince, Function.update_self]
    refine ⟨hinv, hlinks.linked hlinked, fun q' id' => ?_, fun q' => ?_, fun q' id' hmem => ?_⟩
    · rw [hlinkOf, hqueues]
      by_cases heq : id' = id
      · subst heq
        by_cases hq : q' = q
        · simp [hq]
        · simp [Function.update_of_ne hq, hfresh q', Ne.symm hq]
      · rw [Function.update_of_ne heq]
        by_cases hq : q' = q
        · subst hq
          simp [heq, h.mem_iff]
        · rw [Function.update_of_ne hq, h.mem_iff]
    · rw [hqueues]
      by_cases hq : q' = q
      · subst hq
        rw [Function.update_self]
        refine List.pairwise_append.mpr ⟨?_, List.pairwise_singleton _ _, fun a ha b hb => ?_⟩
        · refine (h.ordered q').imp_of_mem fun ha hb hlt => ?_
          rwa [hold q' _ ha, hold q' _ hb]
        · rw [List.mem_singleton.mp hb, hold q' a ha, hnew]
          exact h.since_lt q' a ha
      · rw [Function.update_of_ne hq]
        refine (h.ordered q').imp_of_mem fun ha hb hlt => ?_
        rwa [hold q' _ ha, hold q' _ hb]
    · rw [hqueues] at hmem
      rw [hblocks]
      by_cases heq : id' = id
      · rw [heq, hnew]
        exact Nat.lt_succ_self _
      · have hmem' : id' ∈ sys.queues q' := by
          by_cases hq : q' = q
          · subst hq
            rw [Function.update_self, List.mem_append, List.mem_singleton] at hmem
            exact hmem.resolve_right heq
          · rwa [Function.update_of_ne hq] at hmem
        rw [hold q' id' hmem']
        exact (h.since_lt q' id' hmem').trans (Nat.lt_succ_self _)

/-- Sleeping and exiting: the running task is linked to no queue before or after. -/
theorem sameLinks_stopThen (h : QueuesExact sys) (hidle : sys.scheduler.NotIdle) {state : TaskState}
    {edit : TaskControlBlock → TaskControlBlock} {queue : ℕ → Scheduler → Scheduler}
    {sleepers : ℕ → Scheduler → List (ℕ × ℕ)} (hstate : state = .blocked ∨ state = .exited)
    (hedit : ∀ t, (edit t).taskId = t.taskId ∧ (edit t).isIdle = t.isIdle ∧
      (edit t).schedulerEntity = t.schedulerEntity ∧ (edit t).state = t.state)
    (houtline : ∀ t, (edit t).outline = edit t.outline)
    (hlink : ∀ t, (edit t).waitLink = t.waitLink)
    (hqueue : ∀ id s, queue id s = { s with
      exitQueue := if state = .exited then s.exitQueue ++ [id] else s.exitQueue
      sleepers := sleepers id s })
    (now : ℕ) :
    SameLinks sys.scheduler.outline (sys.scheduler.stopThen state now edit queue).2.outline := by
  rcases h.inv.dispatches_stopThen state edit queue sleepers hidle hstate hedit houtline hqueue now
    with ⟨-, hrun⟩ | ⟨id, t, -, ho, hrunning, -, hdispatch⟩
  · rw [hrun]
    exact SameLinks.refl _
  · have hunlinked : t.waitLink = none := h.linked.unlinked ho (by rw [hrunning]; decide)
    have hstopped : SameLinks sys.scheduler.outline (Function.update sys.scheduler.outline id
        (some (edit (Scheduler.stopped state t)))) := by
      refine SameLinks.update ((Scheduler.linkOf_of_some ho).trans hunlinked) fun t' ht' => ?_
      cases ht'
      rw [hlink]
      exact hunlinked
    exact hstopped.trans (hdispatch.sameLinks (hstopped.linked h.linked))

/-- The links after an operation that is not about a queue. -/
theorem sameLinks_step (h : QueuesExact sys) {op : Op} (hquiet : sys.Undisturbed op)
    (hnone : queueOf op = none) {s' : Scheduler} (hstep : Scheduler.Step sys.scheduler op s') :
    SameLinks sys.scheduler.outline s'.outline := by
  have hlinked := h.linked
  cases op with
  | spawn =>
    obtain rfl : s' = _ := hstep
    rw [h.inv.outline_spawn.1]
    refine SameLinks.update ?_ fun t' ht' => ?_
    · rw [linkOf, Scheduler.outline, h.inv.next_fresh]
      rfl
    · cases ht'
      rfl
  | setNice id nice =>
    obtain rfl : s' = _ := hstep
    rw [(h.inv.outline_setNice id nice).1]
    exact SameLinks.refl _
  | tick now =>
    obtain rfl : s' = _ := hstep
    rw [(h.inv.outline_tick now).1]
    exact SameLinks.refl _
  | yieldCurrent now =>
    obtain rfl : s' = _ := hstep
    have hedit := h.inv.sameLinks_editCurrent hlinked (f := Scheduler.requeue) fun _ => rfl
    exact hedit.trans ((h.inv.dispatches_schedule now).sameLinks (hedit.linked hlinked))
  | preempt stackPointer now =>
    obtain ⟨next, hrun⟩ := hstep
    have hedit := h.inv.sameLinks_editCurrent hlinked
      (f := Scheduler.requeue ∘ Scheduler.saveFrame stackPointer) fun _ => rfl
    exact hedit.trans ((h.inv.dispatches_preempt hrun).2.sameLinks (hedit.linked hlinked))
  | prepareVoluntaryYield now =>
    obtain rfl : s' = _ := hstep
    rcases h.inv.dispatches_prepareVoluntaryYield now with
      ⟨-, hrun⟩ | ⟨id, r, -, houtline, -, -, hdispatch⟩
    · rw [hrun]
      exact SameLinks.refl _
    · have hedit := h.inv.sameLinks_editCurrent hlinked
        (f := Scheduler.requeue ∘ Scheduler.markVoluntary) fun _ => rfl
      rw [houtline]
      exact hedit.trans (hdispatch.sameLinks (hedit.linked hlinked))
  | sleepCurrentUntil deadline now =>
    obtain ⟨hidle, rfl⟩ := hstep
    unfold Scheduler.sleepCurrentUntil
    apply h.sameLinks_stopThen hidle (Or.inl rfl)
    · exact fun _ => ⟨rfl, rfl, rfl, rfl⟩
    · exact fun _ => rfl
    · exact fun _ => rfl
    · exact fun _ _ => rfl
  | wakeExpired now =>
    obtain rfl : s' = _ := hstep
    exact h.inv.sameLinks_wakeExpiredLoop hlinked now _ 0
  | wakeTask id =>
    obtain rfl : s' = _ := hstep
    cases ht : sys.scheduler.task id with
    | none =>
      simp only [Scheduler.wakeTask, ht]
      exact SameLinks.refl _
    | some t =>
      by_cases hblocked : t.state = .blocked
      · have hlink : t.waitLink = none := by
          cases hwait : t.waitLink with
          | none => rfl
          | some q => exact absurd ⟨t, ht, hblocked, hwait⟩ (hquiet q)
        simp only [Scheduler.wakeTask, ht, if_neg (not_not.mpr hblocked)]
        exact h.inv.sameLinks_makeReady ht hblocked hlink
      · simp only [Scheduler.wakeTask, ht, if_pos hblocked]
        exact SameLinks.refl _
  | exitCurrent status now =>
    obtain ⟨hidle, rfl⟩ := hstep
    unfold Scheduler.exitCurrent
    apply h.sameLinks_stopThen hidle (Or.inr rfl)
    · exact fun _ => ⟨rfl, rfl, rfl, rfl⟩
    · exact fun _ => rfl
    · exact fun _ => rfl
    · exact fun _ _ => rfl
  | reapOne =>
    obtain rfl : s' = _ := hstep
    rcases h.inv.outline_reapOne.2 with hsame | ⟨id, t, ho, hexited, hreaped⟩
    · rw [hsame]
      exact SameLinks.refl _
    · rw [hreaped]
      have hunlinked := hlinked.unlinked ho (by rw [hexited]; decide)
      exact SameLinks.update ((Scheduler.linkOf_of_some ho).trans hunlinked) fun t' ht' => absurd ht' (by simp)
  | blockCurrent | wakeOne | wakeAll | cancelWait => cases hnone

/-- Every undisturbed operation keeps the queues exact. -/
theorem step (h : QueuesExact sys) {op : Op} (hquiet : sys.Undisturbed op)
    (hstep : Step sys op sys') : QueuesExact sys' := by
  cases hop : queueOf op with
  | none =>
    have hafter : queueAfter sys.scheduler op = none := by
      cases op <;> first | rfl | cases hop
    have hqueues := hstep.queues
    rw [hafter] at hqueues
    refine h.of_sameLinks (h.inv.step hstep.scheduler)
      (h.sameLinks_step hquiet hop hstep.scheduler) hqueues ?_ ?_
    · rw [hstep.blocks]
      cases op <;> first | rfl | cases hop
    · rw [hstep.since]
      cases op <;> first | rfl | cases hop
  | some queue =>
    have hheld := hstep.held queue hop
    cases op with
    | blockCurrent reason queue' now =>
      cases hop
      rw [hheld] at hstep
      exact h.step_blockCurrent hquiet hstep
    | wakeOne queue' =>
      cases hop
      rw [hheld] at hstep
      exact h.step_wakeOne hstep
    | wakeAll queue' =>
      cases hop
      rw [hheld] at hstep
      exact h.step_wakeAll hstep
    | cancelWait id queue' =>
      cases hop
      rw [hheld] at hstep
      exact h.step_cancelWait hstep
    | _ => cases hop

end QueuesExact

/-! ## No lost wake-up -/

/-- At boot no task has a wait link. -/
theorem unlinked_of_initial {s : Scheduler} (h : Scheduler.Initial s) (id : ℕ)
    (t : TaskControlBlock) (ho : s.outline id = some t) : t.waitLink = none := by
  obtain ⟨t', ht', rfl⟩ := Scheduler.exists_task_of_outline ho
  obtain ⟨policy, rfl | rfl⟩ := h
  · contradiction
  · -- the only task is the idle task
    by_cases hid : id = 1
    · subst hid
      cases ht'
      rfl
    · simp [Scheduler.task, Scheduler.spawnKernelTask, Scheduler.allocateId, Scheduler.insertTask,
        Scheduler.withPolicy, Function.update_of_ne hid] at ht'

theorem QueuesExact.initial (h : Initial sys) : QueuesExact sys := by
  obtain ⟨hscheduler, hqueues⟩ := h
  have hunlinked := unlinked_of_initial hscheduler
  refine ⟨Inv.initial hscheduler, ⟨fun id t queue ho hlink => ?_, fun id t queue _ ho hlink => ?_⟩,
    fun q id => ?_, fun q => ?_, fun q id hmem => ?_⟩
  · rw [hunlinked id t ho] at hlink
    cases hlink
  · rw [hunlinked id t ho] at hlink
    cases hlink
  · have hnone : linkOf sys.scheduler.outline id = none := by
      cases ho : sys.scheduler.outline id with
      | none => rw [linkOf, ho, Option.bind_none]
      | some t => rw [Scheduler.linkOf_of_some ho, hunlinked id t ho]
    simp [hqueues, hnone]
  · rw [hqueues]
    exact List.Pairwise.nil
  · rw [hqueues] at hmem
    cases hmem

/-- With exact queues no wake-up is lost. -/
theorem QueuesExact.noLostWakeup (h : QueuesExact sys) : sys.NoLostWakeup := by
  intro q
  constructor
  · intro id hblocked
    obtain ⟨-, -, houtline⟩ := h.inv.wakeAll_spec (sys.queue q) 0
      (fun id hmem => (h.blockedOn_iff q id).mpr hmem) (h.nodup q) (Nat.lt_succ_self _)
    have houtline' : (sys.wakeAll q).1.2.outline =
        Scheduler.wokenAll sys.scheduler.outline (sys.queues q) := houtline
    have hlinked : Linked (sys.wakeAll q).1.2.outline := houtline' ▸ h.linked.wokenAll _
    -- a task still linked to the queue had an entry in it, and so was woken
    rw [hlinked.blockedOn_iff, houtline', Scheduler.linkOf_wokenAll] at hblocked
    split_ifs at hblocked with hmem
    exact hmem ((h.mem_iff q id).mpr hblocked)
  · rintro ⟨waiting, hwaiting⟩
    rw [h.blockedOn_iff] at hwaiting
    rcases h.wakeOne_eq q with ⟨hempty, -⟩ | ⟨id, rest, t, hqueue, ht, hwake, hinv, houtline⟩
    · rw [hempty] at hwaiting
      cases hwaiting
    · have hready : (sys.scheduler.makeReady id).outline id = some (Scheduler.woken t.outline) := by
        rw [houtline, Function.update_self]
      obtain ⟨t', ht', heq⟩ := Scheduler.exists_task_of_outline hready
      refine ⟨id, t', ⟨?_, fun id' hid' => ?_⟩, by rw [hwake], by rw [hwake]; exact ht', ?_⟩
      · rw [h.blockedOn_iff, hqueue]
        exact List.mem_cons_self
      · rw [h.blockedOn_iff, hqueue, List.mem_cons] at hid'
        rcases hid' with rfl | hmem
        · exact le_rfl
        · exact ((List.pairwise_cons.mp (hqueue ▸ h.ordered q)).1 id' hmem).le
      · exact congrArg TaskControlBlock.state heq

/-- In every run whose operations are undisturbed no wake-up is lost. -/
theorem reachable_noLostWakeup
    (h : Run.Reachable Initial (Run.Guarded Undisturbed Step) sys) : sys.NoLostWakeup :=
  QueuesExact.noLostWakeup <| h.invariant (fun _ hinit => QueuesExact.initial hinit)
    fun _ _ _ hexact hstep => hexact.step hstep.1 hstep.2

/-! ## A wake-up lost to a stale entry -/

/-- The system after an operation that leaves the scheduler `s`. -/
def after (sys : WaitSystem) (op : Op) (s : Scheduler) : WaitSystem where
  scheduler := s
  queues := match queueAfter sys.scheduler op with
    | none => sys.queues
    | some queue => Function.update sys.queues queue.id queue.tasks
  blocks := sys.blocksAfter op
  since := sys.sinceAfter op

theorem step_after (op : Op) {s : Scheduler}
    (held : ∀ queue, queueOf op = some queue → queue = sys.queue queue.id)
    (hstep : Scheduler.Step sys.scheduler op s) : Step sys op (sys.after op s) :=
  ⟨held, hstep, rfl, rfl, rfl⟩

/-- Boot, two tasks spawned, the first of them dispatched. -/
def twoTasks : WaitSystem :=
  let s := ((Scheduler.withPolicy .eevdf).spawnKernelTask true).2
  { scheduler := (s.spawn.2.spawn.2.yieldCurrent 10).2 }

/-- The running task blocks on queue 7. -/
def block (sys : WaitSystem) (now : ℕ) : WaitSystem :=
  sys.after (.blockCurrent (.waitQueue 7) (sys.queue 7) now)
    (sys.scheduler.blockCurrent (.waitQueue 7) (sys.queue 7) now).1.2

/-- The first task blocks. -/
def oneWaiting : WaitSystem :=
  twoTasks.block 20

/-- It is woken by a targeted wake, and the second task blocks on the same queue. -/
def staleEntry : WaitSystem :=
  (oneWaiting.after (.wakeTask 2) (oneWaiting.scheduler.wakeTask 2).2).block 30

theorem reachable_twoTasks (guard : WaitSystem → Op → Prop)
    (hguard : ∀ sys, guard sys .spawn ∧ guard sys (.yieldCurrent 10)) :
    Run.Reachable Initial (Run.Guarded guard Step) twoTasks := by
  have hboot : Run.Reachable Initial (Run.Guarded guard Step)
      { scheduler := ((Scheduler.withPolicy .eevdf).spawnKernelTask true).2 } :=
    .start ⟨⟨.eevdf, Or.inr rfl⟩, rfl⟩
  have hone := hboot.next ⟨(hguard _).1, step_after .spawn (fun _ h => (by cases h)) rfl⟩
  have htwo := hone.next ⟨(hguard _).1, step_after .spawn (fun _ h => (by cases h)) rfl⟩
  exact htwo.next ⟨(hguard _).2, step_after (.yieldCurrent 10) (fun _ h => (by cases h)) rfl⟩

/-- A task other than the idle task blocks. -/
theorem step_block (hidle : sys.scheduler.current ≠ sys.scheduler.idle) (now : ℕ) :
    Step sys (.blockCurrent (.waitQueue 7) (sys.queue 7) now) (sys.block now) := by
  refine step_after _ (fun queue hqueue => ?_) ⟨fun id hcurrent hi => ?_, rfl⟩
  · cases hqueue
    rfl
  · exact hidle (hcurrent.trans hi.symm)

/-- The run up to the first blocked task is undisturbed: `wake_one` wakes it. -/
theorem reachable_noLostWakeup_oneWaiting : oneWaiting.NoLostWakeup := by
  have hstep : Run.Guarded Undisturbed Step twoTasks
      (.blockCurrent (.waitQueue 7) (twoTasks.queue 7) 20) oneWaiting :=
    ⟨(fun _ hreason => absurd hreason (by simp)), step_block (by decide +kernel) 20⟩
  exact reachable_noLostWakeup
    (.next (reachable_twoTasks Undisturbed fun _ => ⟨trivial, trivial⟩) hstep)

theorem reachable_staleEntry : Run.Reachable Initial Step staleEntry := by
  have hblocked : Run.Reachable Initial Step oneWaiting :=
    (reachable_twoTasks (fun _ _ => True) fun _ => ⟨trivial, trivial⟩).of_guarded.next
      (step_block (by decide +kernel) 20)
  have hwoken := hblocked.next (step_after (.wakeTask 2) (fun _ h => (by cases h)) rfl)
  exact hwoken.next (step_block (by decide +kernel) 30)

/-- The stale entry of the first task stops `wake_all` before it reaches the second, which stays
blocked on the queue. -/
theorem not_noLostWakeup_staleEntry :
    Run.Reachable Initial Step staleEntry ∧ (staleEntry.wakeAll 7).1.2.BlockedOn 7 3 ∧
      ¬staleEntry.NoLostWakeup := by
  have hlost : (staleEntry.wakeAll 7).1.2.BlockedOn 7 3 := by
    have htask : ((staleEntry.wakeAll 7).1.2.task 3).map (fun t => (t.state, t.waitLink)) =
        some (.blocked, some 7) := by decide +kernel
    obtain ⟨t, ht, heq⟩ := Option.map_eq_some_iff.mp htask
    exact ⟨t, ht, congrArg Prod.fst heq, congrArg Prod.snd heq⟩
  exact ⟨reachable_staleEntry, hlost, fun h => (h 7).1 3 hlost⟩

end WaitSystem

end SaeOS.Task
