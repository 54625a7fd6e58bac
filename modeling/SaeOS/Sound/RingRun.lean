import SaeOS.Sound.Ring

/-!
# Sessions of the playback ring

The queued slots are a window of the ring, and what they hold are the latest completed periods in
order. A commit extends the window at its end and an update shortens it at its front, so finished
periods leave in the order in which they came.
-/

namespace SaeOS.Sound

/-! ## Windows -/

/-- `count` slots of the ring from `first` on. -/
def window (first count : ℕ) : List ℕ :=
  (List.range count).map fun i => (first + i) % periods

theorem window_mod (first count : ℕ) : window (first % periods) count = window first count := by
  simp only [window, Nat.mod_add_mod]

theorem window_succ (first count : ℕ) :
    window first (count + 1) = window first count ++ [(first + count) % periods] := by
  simp [window, List.range_succ]

theorem window_add (first m n : ℕ) :
    window first (m + n) = window first m ++ window (first + m) n := by
  induction n with
  | zero => simp [window]
  | succ n ih => rw [← Nat.add_assoc, window_succ, ih, window_succ, List.append_assoc, Nat.add_assoc]

/-- The slot behind a window that is not the whole ring is not in it. -/
theorem notMem_window {first count : ℕ} (hlt : count < periods) :
    (first + count) % periods ∉ window first count := by
  intro hmem
  obtain ⟨i, hi, heq⟩ := List.mem_map.mp hmem
  rw [List.mem_range] at hi
  unfold periods at *
  omega

/-- The slots of an update whose first finished period is `first`. -/
theorem slots_eq (first count : ℕ) (halted : Bool) :
    Update.slots { halted, finished := if count > 0 then some (first, count) else none } =
      window first count := by
  cases count with
  | zero => rfl
  | succ count => rw [if_pos (Nat.succ_pos count)]; rfl

/-! ## The invariant -/

/-- The bookkeeping of the ring. -/
structure Ring.Inv (r : Ring) : Prop where
  first_lt : r.firstQueued < periods
  queued_le : r.queued ≤ maxQueued
  fill_eq : r.fillPeriod = (r.firstQueued + r.queued) % periods
  fillBytes_lt : r.fillBytes < periodBytes
  running : r.running = true → 0 < r.queued
  stopped : r.running = false → r.queued < startPeriods ∧ r.firstQueued = 0

/-! ## Calls of the ring -/

section Ring

variable {r : Ring}

/-- What `space` or `padding` offers. -/
theorem Ring.offered {offset room : ℕ}
    (hoffer : r.space = some (offset, room) ∨ r.padding = some (offset, room)) :
    r.queued < maxQueued ∧ room = periodBytes - r.fillBytes := by
  have hspace : r.space = some (offset, room) := by
    rcases hoffer with hspace | hpadding
    · exact hspace
    · unfold Ring.padding at hpadding
      split_ifs at hpadding
      exact hpadding
  unfold Ring.space at hspace
  split_ifs at hspace with hlt
  cases hspace
  exact ⟨hlt, rfl⟩

/-- A commit within the offered room passes the assertion. It leaves a partial period, or it completes
one and queues it; the card runs then if it was running or enough is queued. -/
theorem Ring.Inv.commit_eq (h : r.Inv) {count : ℕ} (hqueued : r.queued < maxQueued)
    (hroom : r.fillBytes + count ≤ periodBytes) :
    (r.fillBytes + count < periodBytes ∧
      r.commit count = some (.none, { r with fillBytes := r.fillBytes + count })) ∨
    (¬r.fillBytes + count < periodBytes ∧ ∃ action running,
      (running = false → r.running = false ∧ r.queued + 1 < startPeriods) ∧
      r.commit count = some (action, { r with
        fillPeriod := (r.fillPeriod + 1) % periods
        fillBytes := 0
        queued := r.queued + 1
        running })) := by
  unfold Ring.commit
  rw [if_neg (not_not.mpr ⟨hqueued, hroom⟩)]
  by_cases hshort : r.fillBytes + count < periodBytes
  · exact Or.inl ⟨hshort, if_pos hshort⟩
  · refine Or.inr ⟨hshort, ?_⟩
    rw [if_neg hshort]
    cases hrunning : r.running with
    | true => exact ⟨.submit r.fillPeriod, true, (fun hfalse => absurd hfalse (by simp)), rfl⟩
    | false =>
      obtain ⟨-, hfirst⟩ := h.stopped hrunning
      by_cases hstart : r.queued + 1 ≥ startPeriods
      · -- an idle ring starts at period 0
        refine ⟨.start r.queued, true, (fun hfalse => absurd hfalse (by simp)), ?_⟩
        simp [Ring.start, hstart, hfirst]
      · refine ⟨.none, false, fun _ => ⟨rfl, not_le.mp hstart⟩, ?_⟩
        simp [hstart]

/-- A card that has stopped has played what was queued. -/
theorem Ring.Inv.update_halted (h : r.Inv) {status : Status} (hrunning : r.running = true)
    (hhalted : status.halted = true) :
    r.update status = some ({ halted := true, finished := some (r.firstQueued, r.queued) },
      { r with
        played := (r.played + r.queued) % 2 ^ 64
        queued := 0
        running := false
        firstQueued := 0
        fillPeriod := 0 }) := by
  simp [Ring.update, hrunning, hhalted, h.running hrunning]

/-- A card that plays a queued period passes the assertion, and has finished those before it. -/
theorem Ring.Inv.update_playing (h : r.Inv) {status : Status} (hrunning : r.running = true)
    (hhalted : status.halted = false) {done : ℕ} (hdone : done < r.queued)
    (hcurrent : (r.firstQueued + done) % periods = status.current) :
    r.update status = some
      ({ finished := if done > 0 then some (r.firstQueued, done) else none }, { r with
        played := (r.played + done) % 2 ^ 64
        queued := r.queued - done
        firstQueued := (r.firstQueued + done) % periods }) := by
  have hle := h.queued_le
  have hfirst := h.first_lt
  -- the distance from the first queued period is the number of finished ones
  have hdistance : (status.current + periods - r.firstQueued) % periods = done := by
    rw [← hcurrent]
    unfold periods maxQueued periods at *
    omega
  have hmin : min done (r.queued - 1) = done := by omega
  simp [Ring.update, hrunning, hhalted, hdistance, hdone, hmin]

/-- The queue of a running ring, cut at the period that the card plays. -/
theorem Ring.queue_cut {current : ℕ} {before after : List ℕ}
    (hqueue : r.queue = before ++ current :: after) :
    ∃ done < r.queued, (r.firstQueued + done) % periods = current ∧
      before = window r.firstQueued done ∧
      current :: after = window ((r.firstQueued + done) % periods) (r.queued - done) := by
  have hlength := congrArg List.length hqueue
  rw [Ring.queue, List.length_map, List.length_range, List.length_append, List.length_cons] at hlength
  have hdone : before.length < r.queued := by omega
  have hcut : r.queue = window r.firstQueued before.length ++
      window (r.firstQueued + before.length) (r.queued - before.length) := by
    rw [← window_add, Nat.add_sub_cancel' hdone.le]
    rfl
  rw [hqueue] at hcut
  obtain ⟨hbefore, hafter⟩ := List.append_inj hcut (by simp [window])
  obtain ⟨rest, hrest⟩ := Nat.exists_eq_add_of_lt hdone
  refine ⟨before.length, hdone, ?_, hbefore, by rw [window_mod, hafter]⟩
  have hhead := congrArg List.head? hafter
  rw [show r.queued - before.length = rest + 1 by omega] at hhead
  simpa [window, List.range_succ_eq_map] using hhead.symm

/-- A ring with nothing queued and the card stopped. -/
theorem Ring.Inv.idle {fillBytes : ℕ} (played : ℕ) (hbytes : fillBytes < periodBytes) :
    Ring.Inv { fillBytes, played } where
  first_lt := Nat.zero_lt_succ _
  queued_le := Nat.zero_le _
  fill_eq := rfl
  fillBytes_lt := hbytes
  running := fun hfalse => absurd hfalse (by simp)
  stopped := fun _ => ⟨Nat.zero_lt_succ _, rfl⟩

end Ring

namespace Session

/-- The ring and its history agree. -/
structure Inv (s : Session) : Prop where
  ring : s.ring.Inv
  queued_le : s.ring.queued ≤ s.completed
  /-- The queued slots hold the latest completed periods. -/
  contents : (window s.ring.firstQueued s.ring.queued).map s.contents =
    List.range' (s.completed - s.ring.queued) s.ring.queued
  /-- Every other completed period was reported or discarded, once. -/
  gone : (s.reported ++ s.discarded).Perm (List.range (s.completed - s.ring.queued))
  ordered : s.reported.Pairwise (· < ·)
  played : s.ring.played = s.reported.length % 2 ^ 64

variable {s s' : Session}

/-! ## Steps -/

/-- Completing a period: it goes into the slot behind the window. -/
theorem Inv.complete (h : Inv s) (hqueued : s.ring.queued < maxQueued) {running : Bool}
    (hstopped : running = false → s.ring.running = false ∧ s.ring.queued + 1 < startPeriods) :
    Inv { s with
      ring := { s.ring with
        fillPeriod := (s.ring.fillPeriod + 1) % periods
        fillBytes := 0
        queued := s.ring.queued + 1
        running }
      completed := s.completed + 1
      contents := Function.update s.contents s.ring.fillPeriod s.completed } := by
  have hle := h.queued_le
  have hsame : s.completed + 1 - (s.ring.queued + 1) = s.completed - s.ring.queued := by omega
  have hfresh : s.ring.fillPeriod ∉ window s.ring.firstQueued s.ring.queued := by
    rw [h.ring.fill_eq]
    exact notMem_window (by unfold maxQueued at hqueued; omega)
  have hempty : 0 < periodBytes := by decide
  refine ⟨⟨h.ring.first_lt, hqueued, ?_, hempty, fun _ => Nat.succ_pos _, fun hfalse => ?_⟩,
    Nat.succ_le_succ hle, ?_, ?_, h.ordered, h.played⟩
  · dsimp only
    rw [h.ring.fill_eq, Nat.mod_add_mod, Nat.add_assoc]
  · obtain ⟨hidle, hlt⟩ := hstopped hfalse
    exact ⟨hlt, (h.ring.stopped hidle).2⟩
  · dsimp only
    rw [window_succ, List.map_append, hsame]
    -- the slots that were queued keep their periods
    have hkept : (window s.ring.firstQueued s.ring.queued).map
        (Function.update s.contents s.ring.fillPeriod s.completed) =
        (window s.ring.firstQueued s.ring.queued).map s.contents := by
      refine List.map_congr_left fun slot hslot => Function.update_of_ne ?_ ..
      rintro rfl
      exact hfresh hslot
    rw [hkept, h.contents, ← h.ring.fill_eq, List.map_singleton, Function.update_self,
      List.range'_1_concat, Nat.sub_add_cancel hle]
  · dsimp only
    rw [hsame]
    exact h.gone

/-- The first `done` queued periods leave, as an update reports them. -/
theorem Inv.leave (h : Inv s) {done : ℕ} (hdone : done ≤ s.ring.queued) {ring : Ring}
    (hring : ring.Inv) (hqueued : ring.queued = s.ring.queued - done)
    (hfirst : ring.queued = 0 ∨ ring.firstQueued = (s.ring.firstQueued + done) % periods)
    (hplayed : ring.played = (s.ring.played + done) % 2 ^ 64) :
    Inv { s with ring, reported := s.reported ++ (window s.ring.firstQueued done).map s.contents } := by
  have hle := h.queued_le
  -- the window is cut where the card is
  have hcut : s.ring.queued = done + (s.ring.queued - done) := by omega
  have hcontents := h.contents
  rw [hcut, window_add, List.map_append, ← List.range'_append_1, ← hcut] at hcontents
  obtain ⟨hgone, hkept⟩ := List.append_inj hcontents (by simp [window])
  rw [hgone]
  have hcompleted : s.completed - ring.queued = s.completed - s.ring.queued + done := by omega
  refine ⟨hring, by dsimp only; omega, ?_, ?_, ?_, ?_⟩
  · dsimp only
    rw [hqueued] at hcompleted ⊢
    rcases hfirst with hempty | hfirst
    · have hzero : s.ring.queued - done = 0 := hqueued.symm.trans hempty
      simp [hzero, window]
    · rw [hfirst, window_mod, hkept, hcompleted]
  · dsimp only
    rw [hcompleted, List.range_eq_range', List.append_assoc]
    refine (List.Perm.append_left _ List.perm_append_comm).trans ?_
    rw [← List.append_assoc, ← List.range'_append_1, Nat.zero_add]
    refine List.Perm.append_right _ ?_
    rw [← List.range_eq_range']
    exact h.gone
  · -- what was reported before is older
    refine List.pairwise_append.mpr ⟨h.ordered, List.pairwise_lt_range', fun a ha b hb => ?_⟩
    have hold := h.gone.mem_iff.mp (List.mem_append_left _ ha)
    rw [List.mem_range] at hold
    rw [List.mem_range'_1] at hb
    omega
  · rw [hplayed, h.played, List.length_append, List.length_range', Nat.mod_add_mod]

/-- Every completed period is accounted for. -/
theorem Inv.accounted (h : Inv s) :
    (s.reported ++ s.discarded ++ s.ring.queue.map s.contents).Perm (List.range s.completed) := by
  have hqueue : s.ring.queue.map s.contents =
      List.range' (s.completed - s.ring.queued) s.ring.queued := h.contents
  have hle := h.queued_le
  have hsplit : List.range s.completed = List.range (s.completed - s.ring.queued) ++
      List.range' (s.completed - s.ring.queued) s.ring.queued := by
    have happend := @List.range'_append_1 0 (s.completed - s.ring.queued) s.ring.queued
    rw [Nat.zero_add, Nat.sub_add_cancel hle] at happend
    rw [List.range_eq_range', List.range_eq_range', happend]
  rw [hqueue, hsplit]
  exact h.gone.append_right _

/-- Every allowed call succeeds and keeps the invariant. -/
theorem Inv.perform (h : Inv s) {op : Op} (hallowed : s.Allowed op) :
    ∃ s', s.perform op = some s' ∧ Inv s' := by
  cases op with
  | commit count =>
    obtain ⟨offset, room, hoffer, hcount⟩ := hallowed
    obtain ⟨hqueued, hroom⟩ := Ring.offered hoffer
    have hbytes := h.ring.fillBytes_lt
    have hfits : s.ring.fillBytes + count ≤ periodBytes := by omega
    rcases h.ring.commit_eq hqueued hfits with
      ⟨hshort, heq⟩ | ⟨hfull, action, running, hstopped, heq⟩
    · refine ⟨{ s with ring := { s.ring with fillBytes := s.ring.fillBytes + count } }, ?_, ?_⟩
      · rw [Session.perform, heq, Option.map_some]
        dsimp only
        rw [if_pos hshort]
      · exact ⟨{ h.ring with fillBytes_lt := hshort }, h.queued_le, h.contents, h.gone, h.ordered,
          h.played⟩
    · refine ⟨_, ?_, h.complete hqueued hstopped⟩
      rw [Session.perform, heq, Option.map_some]
      dsimp only
      rw [if_neg hfull]
  | update status =>
    cases hrunning : s.ring.running with
    | false =>
      refine ⟨s, ?_, h⟩
      simp [Session.perform, Ring.update, hrunning, finishedContents, Update.slots]
    | true =>
      cases hhalted : status.halted with
      | true =>
        -- everything that was queued has been played
        refine ⟨_, by rw [Session.perform, h.ring.update_halted hrunning hhalted, Option.map_some], ?_⟩
        have hslots := slots_eq s.ring.firstQueued s.ring.queued true
        rw [if_pos (h.ring.running hrunning)] at hslots
        dsimp only [finishedContents]
        rw [hslots]
        refine h.leave le_rfl (Ring.Inv.idle _ h.ring.fillBytes_lt) ?_ (Or.inl rfl) rfl
        exact (Nat.sub_self _).symm
      | false =>
        have hmem := (hallowed hrunning).resolve_left (by simp [hhalted])
        obtain ⟨done, hdone, hcurrent⟩ := List.mem_map.mp hmem
        rw [List.mem_range] at hdone
        refine ⟨_, by rw [Session.perform, h.ring.update_playing hrunning hhalted hdone hcurrent,
          Option.map_some], ?_⟩
        dsimp only [finishedContents]
        rw [slots_eq]
        have hle := h.ring.queued_le
        refine h.leave hdone.le ⟨Nat.mod_lt _ (by decide), by dsimp only; omega, ?_,
          h.ring.fillBytes_lt, fun _ => by dsimp only; omega, fun hfalse => ?_⟩ rfl (Or.inr rfl) rfl
        · dsimp only
          rw [Nat.mod_add_mod, h.ring.fill_eq, Nat.add_assoc, Nat.add_sub_cancel' hdone.le]
        · exact absurd (hrunning.symm.trans hfalse) (by simp)
  | start =>
    unfold Session.perform Ring.start
    split_ifs with hidle hfirst
    · exact ⟨s, rfl, h⟩
    · -- an idle ring starts at period 0
      simp only [Bool.or_eq_true, not_or, Bool.not_eq_true, beq_eq_false_iff_ne] at hidle
      exact absurd (h.ring.stopped hidle.1).2 hfirst
    · simp only [Bool.or_eq_true, not_or, Bool.not_eq_true, beq_eq_false_iff_ne] at hidle
      refine ⟨_, rfl, ⟨{ h.ring with running := fun _ => ?_, stopped := ?_ }, h.queued_le, h.contents,
        h.gone, h.ordered, h.played⟩⟩
      · exact Nat.pos_of_ne_zero (by simpa using hidle.2)
      · exact fun hfalse => absurd hfalse (by simp)
  | reset =>
    -- what was queued is discarded
    refine ⟨_, rfl, Ring.Inv.idle _ (by decide), Nat.zero_le _, rfl, ?_, h.ordered, h.played⟩
    dsimp only
    rw [← List.append_assoc]
    exact h.accounted

/-! ## Runs -/

theorem Inv.initial : Inv {} where
  ring := Ring.Inv.idle 0 (by decide)
  queued_le := le_rfl
  contents := rfl
  gone := List.Perm.refl _
  ordered := List.Pairwise.nil
  played := rfl

theorem inv_of_reachable (h : Run.Reachable Initial Step s) : Inv s := by
  refine h.invariant (fun s hs => hs ▸ Inv.initial) fun s op s' hinv hstep => ?_
  obtain ⟨s'', hperform, hinv'⟩ := hinv.perform hstep.1
  rw [hstep.2] at hperform
  cases hperform
  exact hinv'

/-- The protocol of the ring, in one state of a session. -/
structure Protocol (s : Session) : Prop where
  /-- The period being filled is not queued. -/
  fill_notMem : s.ring.fillPeriod ∉ s.ring.queue
  fill_eq : s.ring.fillPeriod = (s.ring.firstQueued + s.ring.queued) % periods
  queued_le : s.ring.queued ≤ 31
  stopped : s.ring.running = false → s.ring.queued < startPeriods ∧ s.ring.firstQueued = 0
  /-- A writer that waits for space waits for a running card. -/
  full : s.ring.space = none → s.ring.running = true
  /-- Every completed period was reported once, or discarded once, or is queued. -/
  accounted : (s.reported ++ s.discarded ++ s.ring.queue.map s.contents).Perm
    (List.range s.completed)
  /-- Periods are reported in the order in which they were committed. -/
  ordered : s.reported.Pairwise (· < ·)
  /-- The counter is the number of reported periods, in 64 bits. -/
  played : s.ring.played = s.reported.length % 2 ^ 64
  /-- Played, queued and discarded periods add up, in 64 bits and, until the counter wraps, exactly. -/
  conserved : s.ring.played + s.ring.queued + s.discarded.length ≡ s.completed [MOD 2 ^ 64]
  conserved_exact : s.completed < 2 ^ 64 →
    s.ring.played + s.ring.queued + s.discarded.length = s.completed
  /-- An update on a card that has stopped reports the whole queue in its order, and empties it. -/
  halts : s.ring.running = true → ∀ status, status.halted = true →
    ∃ u ring, s.ring.update status = some (u, ring) ∧ u.halted = true ∧ u.slots = s.ring.queue ∧
      ring.queue = [] ∧ ring.running = false
  /-- One on a card that plays a queued period reports the periods before it, and takes those off. -/
  plays : s.ring.running = true → ∀ status before after, status.halted = false →
    s.ring.queue = before ++ status.current :: after →
    ∃ u ring, s.ring.update status = some (u, ring) ∧ u.halted = false ∧ u.slots = before ∧
      ring.queue = status.current :: after ∧ ring.running = true
  /-- No assertion fires. -/
  progress : ∀ op, s.Allowed op → ∃ s', s.perform op = some s'

/-- Whatever the writer, the card and the resets do. -/
theorem reachable_protocol (h : Run.Reachable Initial Step s) : Protocol s := by
  have hinv := inv_of_reachable h
  have hlength := hinv.gone.length_eq
  have hle := hinv.queued_le
  rw [List.length_append, List.length_range] at hlength
  refine
    { fill_notMem := ?_
      fill_eq := hinv.ring.fill_eq
      queued_le := hinv.ring.queued_le
      stopped := hinv.ring.stopped
      full := fun hspace => ?_
      accounted := hinv.accounted
      ordered := hinv.ordered
      played := hinv.played
      conserved := ?_
      conserved_exact := fun hlt => ?_
      halts := fun hrunning status hhalted => ?_
      plays := fun hrunning status before after hhalted hqueue => ?_
      progress := fun op hallowed => ?_ }
  · rw [hinv.ring.fill_eq]
    exact notMem_window (Nat.lt_of_le_of_lt hinv.ring.queued_le (by decide))
  · -- a stopped ring has room
    by_contra hidle
    rw [Bool.not_eq_true] at hidle
    have hroom : s.ring.queued < maxQueued :=
      (hinv.ring.stopped hidle).1.trans (by decide)
    rw [Ring.space, if_pos hroom] at hspace
    cases hspace
  · rw [hinv.played, Nat.ModEq, Nat.add_assoc, Nat.mod_add_mod]
    congr 1
    omega
  · rw [hinv.played, Nat.mod_eq_of_lt (by omega)]
    omega
  · refine ⟨_, _, hinv.ring.update_halted hrunning hhalted, rfl, ?_, rfl, rfl⟩
    have hslots := slots_eq s.ring.firstQueued s.ring.queued true
    rwa [if_pos (hinv.ring.running hrunning)] at hslots
  · obtain ⟨done, hdone, hcurrent, hbefore, hafter⟩ := Ring.queue_cut hqueue
    refine ⟨_, _, hinv.ring.update_playing hrunning hhalted hdone hcurrent, rfl, ?_, hafter.symm,
      hrunning⟩
    rw [slots_eq, hbefore]
  · obtain ⟨s', hperform, -⟩ := hinv.perform hallowed
    exact ⟨s', hperform⟩

/-- One full period, started by a drain and played to its end. -/
def oneCommitted : Session :=
  { ring := { fillPeriod := 1, queued := 1 }
    completed := 1
    contents := Function.update (fun _ => 0) 0 0 }

theorem reachable_protocol_onePlayed :
    Protocol { oneCommitted with ring := { played := 1 }, reported := [0] } := by
  have hcommit : Run.Reachable Initial Step oneCommitted :=
    .next (.start rfl) (show Step {} (.commit 2048) oneCommitted from
      ⟨⟨0, 2048, Or.inl rfl, le_rfl⟩, by simp [perform, Ring.commit, oneCommitted, periodBytes,
        maxQueued, periods, startPeriods]⟩)
  have hstart : Run.Reachable Initial Step
      { oneCommitted with ring := { oneCommitted.ring with running := true } } :=
    hcommit.next (show Step _ .start _ from ⟨trivial, rfl⟩)
  have hhalted : Run.Reachable Initial Step
      { oneCommitted with ring := { played := 1 }, reported := [0] } :=
    hstart.next (show Step _ (.update ⟨0, true⟩) _ from ⟨fun _ => Or.inl rfl, rfl⟩)
  exact reachable_protocol hhalted

end Session

end SaeOS.Sound
