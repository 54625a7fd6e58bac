import Mathlib.Data.List.Range
import Mathlib.Data.Nat.ModEq
import SaeOS.Lib.Run

/-!
# The playback ring

The bookkeeping of `sound/ring.rs`: one DMA buffer cut into periods that the card plays in order. A
period that is full is queued to the card; the ring catches up with the card when it reports what it
is playing, or that it has stopped.

A failed assertion is `none`. The counter of played periods wraps as the machine's does.
-/

namespace SaeOS.Sound

/-- `PERIODS`. -/
def periods : ℕ := 32

/-- `PERIOD_BYTES`. -/
def periodBytes : ℕ := 2048

/-- `MAX_QUEUED`. -/
def maxQueued : ℕ := periods - 1

/-- `START_PERIODS`: queued periods that start an idle card. -/
def startPeriods : ℕ := 4

/-- What the card reports. -/
structure Status where
  current : ℕ
  halted : Bool
  deriving DecidableEq, Repr

/-- What to tell the card after a write. -/
inductive Action
  | none
  | start (last : ℕ)
  | submit (last : ℕ)
  deriving DecidableEq, Repr

/-- What `update` found: `finished` is the first period and the number of periods. -/
structure Update where
  halted : Bool := false
  finished : Option (ℕ × ℕ) := Option.none
  deriving DecidableEq, Repr

/-- The slots of the finished periods, in the order they were played. -/
def Update.slots (u : Update) : List ℕ :=
  match u.finished with
  | none => []
  | some (first, count) => (List.range count).map fun i => (first + i) % periods

structure Ring where
  fillPeriod : ℕ := 0
  fillBytes : ℕ := 0
  firstQueued : ℕ := 0
  queued : ℕ := 0
  running : Bool := false
  played : ℕ := 0
  deriving DecidableEq, Repr

namespace Ring

variable (r : Ring)

/-- Catch up with the card. -/
def update (status : Status) : Option (Update × Ring) :=
  if !r.running then some ({}, r)
  else if status.halted then
    some ({ halted := true, finished := if r.queued > 0 then some (r.firstQueued, r.queued) else .none },
      { r with
        played := (r.played + r.queued) % 2 ^ 64
        queued := 0
        running := false
        firstQueued := 0
        fillPeriod := 0 })
  else
    let done := (status.current + periods - r.firstQueued) % periods
    -- the card is outside the queued periods
    if ¬done < r.queued then .none
    else
      let done := min done (r.queued - 1)
      some ({ halted := false, finished := if done > 0 then some (r.firstQueued, done) else .none },
        { r with
          played := (r.played + done) % 2 ^ 64
          queued := r.queued - done
          firstQueued := (r.firstQueued + done) % periods })

/-- Where the next bytes go and how many fit, or `none` while the ring is full. -/
def space : Option (ℕ × ℕ) :=
  if r.queued < maxQueued then
    some (r.fillPeriod * periodBytes + r.fillBytes, periodBytes - r.fillBytes)
  else .none

/-- Start an idle card on what is queued. -/
def start : Option (Action × Ring) :=
  if r.running || r.queued == 0 then some (.none, r)
  -- an idle ring starts at period 0
  else if r.firstQueued ≠ 0 then .none
  else some (.start (r.queued - 1), { r with running := true })

/-- `count` bytes were written at `space`. -/
def commit (count : ℕ) : Option (Action × Ring) :=
  -- write past the space the ring offered
  if ¬(r.queued < maxQueued ∧ r.fillBytes + count ≤ periodBytes) then .none
  else if r.fillBytes + count < periodBytes then
    some (.none, { r with fillBytes := r.fillBytes + count })
  else
    let period := r.fillPeriod
    let r := { r with
      fillPeriod := (period + 1) % periods
      fillBytes := 0
      queued := r.queued + 1 }
    if r.running then some (.submit period, r)
    else if r.queued ≥ startPeriods then r.start
    else some (.none, r)

/-- For a drain: the rest of a partial period. -/
def padding : Option (ℕ × ℕ) :=
  if r.fillBytes > 0 then r.space else .none

/-- Forget everything but the count of played periods. -/
def reset : Ring :=
  { played := r.played }

/-- The queued periods, in the order the card plays them. -/
def queue : List ℕ :=
  (List.range r.queued).map fun i => (r.firstQueued + i) % periods

end Ring

/-! ## Sessions -/

/-- A ring with its history. Completed periods are numbered in the order they were committed;
`contents` says which one each slot of the buffer holds, `reported` lists those that updates reported
as finished and `discarded` those that a reset threw away. -/
structure Session where
  ring : Ring := {}
  completed : ℕ := 0
  contents : ℕ → ℕ := fun _ => 0
  reported : List ℕ := []
  discarded : List ℕ := []

/-- The calls of the writer and of the interrupt handler. -/
inductive Op
  | commit (count : ℕ)
  | update (status : Status)
  | start
  | reset

namespace Session

variable (s : Session)

/-- What the slots that an update reports hold. -/
def finishedContents (u : Update) : List ℕ :=
  u.slots.map s.contents

/-- One call. -/
def perform : Op → Option Session
  | .commit count => (s.ring.commit count).map fun (_, ring) =>
    if s.ring.fillBytes + count < periodBytes then { s with ring }
    else { s with
      ring
      completed := s.completed + 1
      contents := Function.update s.contents s.ring.fillPeriod s.completed }
  | .update status => (s.ring.update status).map fun (u, ring) =>
    { s with ring, reported := s.reported ++ s.finishedContents u }
  | .start => s.ring.start.map fun (_, ring) => { s with ring }
  | .reset => some { s with
      ring := s.ring.reset
      discarded := s.discarded ++ s.ring.queue.map s.contents }

/-- What callers and cards respect: a commit is within the room that `space` or `padding` offers, and
the card has stopped or plays a queued period. -/
def Allowed : Op → Prop
  | .commit count => ∃ offset room,
      (s.ring.space = some (offset, room) ∨ s.ring.padding = some (offset, room)) ∧ count ≤ room
  | .update status => s.ring.running = true → status.halted = true ∨ status.current ∈ s.ring.queue
  | .start => True
  | .reset => True

/-- One step of a session. -/
def Step (s : Session) (op : Op) (s' : Session) : Prop :=
  s.Allowed op ∧ s.perform op = some s'

/-- A new ring. -/
def Initial (s : Session) : Prop :=
  s = {}

end Session

end SaeOS.Sound
