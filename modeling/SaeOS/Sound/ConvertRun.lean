import Mathlib.Tactic.Linarith
import SaeOS.Sound.Convert

/-!
# Conversion does not depend on chunking

What a converter will do depends on its resampler and on the bytes it has not used: those in the carry
and those still to come. `micro` is one small step of that machine, an output frame, a move of the
resampler to its next pair of frames, or an input frame; a call of `convert` is a run of small steps
that ends when the room is used up or when nothing more can be done. Feeding a stream in pieces and
converting it at once are then complete runs of one deterministic machine.
-/

namespace SaeOS.Sound

open Transducer

/-! ## The small steps -/

/-- What the future of a converter depends on: its resampler and the bytes not used yet. -/
abbrev Config : Type := Option Resampler × List UInt8

/-- One small step. -/
def micro (f : Format) : Config → Option (Config × List UInt8)
  | (none, bytes) =>
    if f.frameBytes ≤ bytes.length then
      some ((none, bytes.drop f.frameBytes), frameOutput (f.decodeFrame (bytes.take f.frameBytes)))
    else none
  | (some r, bytes) =>
    match r.produce with
    | (some frame, r') => some ((some r', bytes), frameOutput frame)
    | (none, r') =>
      if r.next.isSome then some ((some r', bytes), [])
      else if f.frameBytes ≤ bytes.length then
        (r.feed (f.decodeFrame (bytes.take f.frameBytes))).map fun r =>
          ((some r, bytes.drop f.frameBytes), [])
      else none

variable {f : Format} {c c' : Converter} {input : List UInt8} {room consumed : ℕ}

/-- More bytes behind do not change a step that is possible. -/
theorem micro_append {r r' : Option Resampler} {bytes bytes' out : List UInt8}
    (h : micro f (r, bytes) = some ((r', bytes'), out)) (rest : List UInt8) :
    micro f (r, bytes ++ rest) = some ((r', bytes' ++ rest), out) := by
  have hfits : f.frameBytes ≤ bytes.length → f.frameBytes ≤ (bytes ++ rest).length ∧
      (bytes ++ rest).take f.frameBytes = bytes.take f.frameBytes ∧
      (bytes ++ rest).drop f.frameBytes = bytes.drop f.frameBytes ++ rest := by
    intro hle
    refine ⟨?_, List.take_append_of_le_length hle, List.drop_append_of_le_length hle⟩
    rw [List.length_append]
    omega
  cases r with
  | none =>
    simp only [micro] at h ⊢
    split_ifs at h with hle
    obtain ⟨hle', htake, hdrop⟩ := hfits hle
    cases h
    rw [if_pos hle', htake, hdrop]
  | some r =>
    simp only [micro] at h ⊢
    split at h
    next frame r₁ hproduce =>
      cases h
      rfl
    next r₁ hproduce =>
      split_ifs at h with hnext hle
      · cases h
        rw [if_pos hnext]
      · obtain ⟨hle', htake, hdrop⟩ := hfits hle
        obtain ⟨r₂, hfeed, heq⟩ := Option.map_eq_some_iff.mp h
        cases heq
        rw [if_neg hnext, if_pos hle', htake, hdrop, hfeed]
        rfl

theorem runs_append {s s' : Config} {out : List UInt8} (h : Runs (micro f) s out s')
    (rest : List UInt8) : Runs (micro f) (s.1, s.2 ++ rest) out (s'.1, s'.2 ++ rest) := by
  induction h with
  | refl s => exact .refl _
  | step hstep _ ih => exact .step (micro_append hstep rest) ih

/-! ## The converter's state -/

/-- A resampler takes the left frame first. -/
def Resampler.Ok (r : Resampler) : Prop :=
  r.previous = none → r.next = none

/-- The carry has room for a frame and holds less than one. -/
structure Converter.Inv (c : Converter) : Prop where
  carried_lt : c.carried < c.format.frameBytes
  carry_length : c.carry.length = 4
  resampler : ∀ r, c.resampler = some r → r.Ok

/-- The bytes of a partial frame. -/
def Converter.pending (c : Converter) : List UInt8 :=
  c.carry.take c.carried

theorem frameBytes_pos (f : Format) : 0 < f.frameBytes ∧ f.frameBytes ≤ 4 := by
  obtain ⟨rate, sample, channels⟩ := f
  cases sample <;> cases channels <;> simp [Format.frameBytes, Sample.bytes, Channels.count]

theorem Converter.Inv.length_pending (h : c.Inv) : c.pending.length = c.carried := by
  have hlt := h.carried_lt
  have hle := (frameBytes_pos c.format).2
  rw [Converter.pending, List.length_take, h.carry_length]
  omega

theorem Converter.Inv.new (format : Format) (cardRate : ℕ) : (Converter.new format cardRate).Inv where
  carried_lt := (frameBytes_pos format).1
  carry_length := rfl
  resampler := fun r hr => by
    simp only [Converter.new] at hr
    split_ifs at hr
    cases hr
    exact fun _ => rfl

/-- `next_frame` takes a frame off the bytes not used yet, if there is one. -/
theorem Converter.Inv.nextFrame_eq (h : c.Inv) (hconsumed : consumed ≤ input.length) :
    (c.format.frameBytes ≤ (c.pending ++ input.drop consumed).length ∧ ∃ carry consumed',
      carry.length = 4 ∧ consumed ≤ consumed' ∧ consumed' ≤ input.length ∧
      input.drop consumed' = (c.pending ++ input.drop consumed).drop c.format.frameBytes ∧
      c.nextFrame input consumed =
        (some (c.format.decodeFrame ((c.pending ++ input.drop consumed).take c.format.frameBytes)),
          { c with carry, carried := 0 }, consumed')) ∨
    ((c.pending ++ input.drop consumed).length < c.format.frameBytes ∧
      c.nextFrame input consumed = (none, c, consumed)) := by
  have hpending := h.length_pending
  have hlt := h.carried_lt
  have hle := (frameBytes_pos c.format).2
  have hcarry := h.carry_length
  have hrest : (input.drop consumed).length = input.length - consumed := List.length_drop
  unfold Converter.nextFrame
  rw [List.length_append, hpending]
  simp only
  split_ifs with hcarried hshort hshort
  · exact Or.inr ⟨by omega, rfl⟩
  · left
    -- the carried bytes and the first bytes of the rest make up a frame
    have hframe : (c.carry.take c.carried ++ (input.drop consumed).take
        (c.format.frameBytes - c.carried) ++ c.carry.drop c.format.frameBytes).take
          c.format.frameBytes =
        (c.pending ++ input.drop consumed).take c.format.frameBytes := by
      have hlength : (c.pending ++ (input.drop consumed).take
          (c.format.frameBytes - c.carried)).length = c.format.frameBytes := by
        rw [List.length_append, hpending, List.length_take]
        omega
      rw [← Converter.pending, List.take_append_of_le_length hlength.ge, List.take_append,
        List.take_append, hpending, List.take_take, min_self]
    refine ⟨by omega, c.carry.take c.carried ++ (input.drop consumed).take
      (c.format.frameBytes - c.carried) ++ c.carry.drop c.format.frameBytes,
      consumed + (c.format.frameBytes - c.carried), ?_, by omega, by omega, ?_, ?_⟩
    · simp only [List.length_append, List.length_take, List.length_drop]
      omega
    · have hnil : c.pending.drop c.format.frameBytes = [] := List.drop_eq_nil_of_le (by omega)
      rw [List.drop_append, hpending, hnil, List.nil_append, List.drop_drop]
    · rw [hframe]
  · exact Or.inr ⟨by omega, rfl⟩
  · left
    have hzero : c.carried = 0 := by omega
    have hempty : c.pending = [] := by rw [Converter.pending, hzero, List.take_zero]
    refine ⟨by omega, c.carry, consumed + c.format.frameBytes, hcarry, by omega, by omega, ?_, ?_⟩
    · rw [hempty, List.nil_append, List.drop_drop]
    · rw [hempty, List.nil_append, ← hzero]

/-! ## One round of the loop -/

/-- A resampler that wants a frame takes it. -/
theorem Resampler.feed_of_next {r : Resampler} (h : r.next = none) (frame : Frame) :
    ∃ r', r.feed frame = some r' ∧ r'.Ok := by
  obtain ⟨step, position, previous, next⟩ := r
  cases h
  cases previous with
  | none => exact ⟨_, rfl, fun _ => rfl⟩
  | some left => exact ⟨_, rfl, (fun hprevious => absurd hprevious (by simp))⟩

theorem Resampler.produce_of_next {r : Resampler} (h : r.next = none) : r.produce = (none, r) := by
  simp only [Resampler.produce, h]
  cases r.previous <;> rfl

theorem micro_of_produce {r r' : Resampler} {frame : Frame} (h : r.produce = (some frame, r'))
    (bytes : List UInt8) :
    micro f (some r, bytes) = some ((some r', bytes), frameOutput frame) := by
  simp only [micro, h]

theorem micro_of_advance {r r' : Resampler} (h : r.produce = (none, r')) (hnext : r.next.isSome)
    (bytes : List UInt8) : micro f (some r, bytes) = some ((some r', bytes), []) := by
  simp only [micro, h, hnext, if_true]

/-- A resampler that waits takes the next frame of the input. -/
theorem micro_of_next {r : Resampler} (h : r.produce = (none, r)) (hnext : r.next = none)
    (bytes : List UInt8) :
    micro f (some r, bytes) = if f.frameBytes ≤ bytes.length then
      (r.feed (f.decodeFrame (bytes.take f.frameBytes))).map fun r =>
        ((some r, bytes.drop f.frameBytes), []) else none := by
  simp only [micro, h, hnext, Option.isSome_none, Bool.false_eq_true, if_false]

/-- `produce` gives a frame of output, or afterwards waits for a frame of input. -/
theorem Resampler.Ok.produce_cases {r : Resampler} (h : r.Ok) :
    (∃ frame r', r.produce = (some frame, r') ∧ r'.Ok ∧ r'.next = r.next) ∨
    (∃ r', r.produce = (none, r') ∧ r'.Ok ∧ r'.next = none ∧
      ∀ f bytes, Runs (micro f) (some r, bytes) [] (some r', bytes)) := by
  obtain ⟨step, position, previous, next⟩ := r
  cases next with
  | none =>
    right
    cases previous <;> exact ⟨_, rfl, fun _ => rfl, rfl, fun f bytes => .refl _⟩
  | some right =>
    cases previous with
    | none => exact absurd (h rfl) (by simp)
    | some left =>
      by_cases hpast : position ≥ one
      · -- past the right frame: it becomes the left one
        have hproduce : Resampler.produce ⟨step, position, some left, some right⟩ =
            (none, ⟨step, position - one, some right, none⟩) := if_pos hpast
        exact Or.inr ⟨_, hproduce, fun _ => rfl, rfl, fun f bytes =>
          .one (micro_of_advance hproduce rfl bytes)⟩
      · exact Or.inl ⟨_, _, if_neg hpast, (fun hprevious => absurd hprevious (by simp)), rfl⟩

/-- From one converter to another by small steps, with what is unread of the input. -/
structure Converter.Moves (c : Converter) (unread : List UInt8) (c' : Converter)
    (unread' out : List UInt8) : Prop where
  inv : c'.Inv
  format : c'.format = c.format
  cardRate : c'.cardRate = c.cardRate
  runs : Runs (micro c.format) (c.resampler, c.pending ++ unread) out
    (c'.resampler, c'.pending ++ unread')

theorem Converter.Moves.trans {c'' : Converter} {unread unread' unread'' out out' : List UInt8}
    (h : c.Moves unread c' unread' out) (h' : c'.Moves unread' c'' unread'' out') :
    c.Moves unread c'' unread'' (out ++ out') where
  inv := h'.inv
  format := h'.format.trans h.format
  cardRate := h'.cardRate.trans h.cardRate
  runs := h.runs.trans (h.format ▸ h'.runs)

/-- No more small steps. -/
def Converter.Done (c : Converter) (unread : List UInt8) : Prop :=
  Stuck (micro c.format) (c.resampler, c.pending ++ unread)

/-- Whether the resampler has both its frames. -/
def Converter.full (c : Converter) : ℕ :=
  match c.resampler with
  | some r => if r.next.isSome then 1 else 0
  | none => 0

theorem Converter.full_le (c : Converter) : c.full ≤ 1 := by
  unfold Converter.full
  split
  · split <;> omega
  · omega

/-- Goes down in every round. -/
def Converter.weight (c : Converter) (unread : List UInt8) (space : ℕ) : ℕ :=
  space + 2 * (c.pending ++ unread).length + c.full

/-- The carry is empty once a frame was completed. -/
theorem Converter.inv_emptied (c : Converter) {carry : List UInt8} (hcarry : carry.length = 4)
    {resampler : Option Resampler} (hok : ∀ r, resampler = some r → r.Ok) :
    ({ c with resampler, carry, carried := 0 } : Converter).Inv where
  carried_lt := (frameBytes_pos c.format).1
  carry_length := hcarry
  resampler := hok

/-- A converter with a waiting resampler feeds it a frame, or is done. -/
theorem Converter.Inv.feed_cases (h : c.Inv) (hconsumed : consumed ≤ input.length) {r : Resampler}
    (hr : c.resampler = some r) (hnext : r.next = none) :
    (c.nextFrame input consumed = (none, c, consumed) ∧ c.Done (input.drop consumed)) ∨
    (∃ frame c' consumed' r', c.nextFrame input consumed = (some frame, c', consumed') ∧
      r.feed frame = some r' ∧ consumed ≤ consumed' ∧ consumed' ≤ input.length ∧
      c.Moves (input.drop consumed) { c' with resampler := some r' } (input.drop consumed') [] ∧
      (c'.pending ++ input.drop consumed').length < (c.pending ++ input.drop consumed).length) := by
  have hstep := micro_of_next (f := c.format) (Resampler.produce_of_next hnext) hnext (c.pending ++ input.drop consumed)
  rcases h.nextFrame_eq hconsumed with
    ⟨hle, carry, consumed', hcarry, hge, hle', hdrop, heq⟩ | ⟨hshort, heq⟩
  · right
    obtain ⟨r', hfeed, hok⟩ := Resampler.feed_of_next hnext
      (c.format.decodeFrame ((c.pending ++ input.drop consumed).take c.format.frameBytes))
    rw [if_pos hle, hfeed, ← hdrop] at hstep
    refine ⟨_, _, consumed', r', heq, hfeed, hge, hle', ⟨?_, rfl, rfl, ?_⟩, ?_⟩
    · exact c.inv_emptied hcarry fun _ hr' => by cases hr'; exact hok
    · rw [hr]
      exact .one hstep
    · have hpos := (frameBytes_pos c.format).1
      change (input.drop consumed').length < _
      rw [hdrop, List.length_drop]
      omega
  · refine Or.inl ⟨heq, ?_⟩
    rw [if_neg (by omega)] at hstep
    rw [Converter.Done, hr]
    exact hstep

/-- A converter without a resampler gives a frame for each input frame. -/
theorem Converter.Inv.copy_cases (h : c.Inv) (hconsumed : consumed ≤ input.length)
    (hr : c.resampler = none) :
    (c.nextFrame input consumed = (none, c, consumed) ∧ c.Done (input.drop consumed)) ∨
    (∃ frame c' consumed', c.nextFrame input consumed = (some frame, c', consumed') ∧
      consumed ≤ consumed' ∧ consumed' ≤ input.length ∧
      c.Moves (input.drop consumed) c' (input.drop consumed') (frameOutput frame) ∧
      c'.resampler = none ∧
      (c'.pending ++ input.drop consumed').length < (c.pending ++ input.drop consumed).length) := by
  rcases h.nextFrame_eq hconsumed with
    ⟨hle, carry, consumed', hcarry, hge, hle', hdrop, heq⟩ | ⟨hshort, heq⟩
  · right
    refine ⟨_, _, consumed', heq, hge, hle', ⟨?_, rfl, rfl, ?_⟩, hr, ?_⟩
    · exact c.inv_emptied hcarry h.resampler
    · change Runs _ _ _ (c.resampler, input.drop consumed')
      rw [hr, hdrop]
      exact .one (if_pos hle)
    · have hpos := (frameBytes_pos c.format).1
      change (input.drop consumed').length < _
      rw [hdrop, List.length_drop]
      omega
  · refine Or.inl ⟨heq, ?_⟩
    rw [Converter.Done, hr]
    exact if_neg (by omega)

/-- Only the resampler changes. -/
theorem Converter.Inv.moves_resampler (h : c.Inv) {r r' : Resampler} {unread out : List UInt8}
    (hr : c.resampler = some r) (hok : r'.Ok)
    (hruns : Runs (micro c.format) (some r, c.pending ++ unread) out (some r', c.pending ++ unread)) :
    c.Moves unread { c with resampler := some r' } unread out where
  inv := ⟨h.carried_lt, h.carry_length, fun _ heq => by cases heq; exact hok⟩
  format := rfl
  cardRate := rfl
  runs := by
    rw [hr]
    exact hruns

@[simp]
theorem length_frameOutput (frame : Frame) : (frameOutput frame).length = outputFrame := rfl

/-- The three ways a round can end: no room, nothing more to do, or another round. -/
theorem Converter.Inv.convertLoop_succ (h : c.Inv) (hconsumed : consumed ≤ input.length) (room : ℕ)
    (output : List UInt8) :
    (room - output.length < outputFrame ∧ ∀ rounds,
      convertLoop input room (rounds + 1) c consumed output = some (c, consumed, output)) ∨
    (∃ c', c.Moves (input.drop consumed) c' (input.drop consumed) [] ∧
      c'.Done (input.drop consumed) ∧ ∀ rounds,
      convertLoop input room (rounds + 1) c consumed output = some (c', consumed, output)) ∨
    (∃ c' consumed' out, c.Moves (input.drop consumed) c' (input.drop consumed') out ∧
      consumed ≤ consumed' ∧ consumed' ≤ input.length ∧
      c'.weight (input.drop consumed') (room - (output ++ out).length) <
        c.weight (input.drop consumed) (room - output.length) ∧ ∀ rounds,
      convertLoop input room (rounds + 1) c consumed output =
        convertLoop input room rounds c' consumed' (output ++ out)) := by
  by_cases hspace : room - output.length < outputFrame
  · refine Or.inl ⟨hspace, fun rounds => ?_⟩
    rw [convertLoop, if_neg (by omega)]
  right
  have hroom : room - output.length ≥ outputFrame := by omega
  cases hr : c.resampler with
  | none =>
    rcases h.copy_cases hconsumed hr with
      ⟨heq, hdone⟩ | ⟨frame, c', consumed', heq, hge, hle, hmoves, hr', hless⟩
    · refine Or.inl ⟨c, ⟨h, rfl, rfl, .refl _⟩, hdone, fun rounds => ?_⟩
      rw [convertLoop, if_pos hroom]
      simp only [hr, heq]
    · refine Or.inr ⟨c', consumed', frameOutput frame, hmoves, hge, hle, ?_, fun rounds => ?_⟩
      · simp only [Converter.weight, Converter.full, hr, hr', List.length_append]
        rw [List.length_append, List.length_append] at hless
        omega
      · rw [convertLoop, if_pos hroom]
        simp only [hr, heq]
  | some r =>
    rcases (h.resampler r hr).produce_cases with
      ⟨frame, r', hproduce, hok, hnext⟩ | ⟨r', hproduce, hok, hnext, hwaits⟩
    · -- a frame of output
      refine Or.inr ⟨{ c with resampler := some r' }, consumed, frameOutput frame,
        h.moves_resampler hr hok (.one (micro_of_produce hproduce _)), le_rfl, hconsumed, ?_,
        fun rounds => ?_⟩
      · simp only [Converter.weight, Converter.full, Converter.pending, hr, hnext, List.length_append]
        rw [length_frameOutput]
        rw [outputFrame] at hroom ⊢
        omega
      · rw [convertLoop, if_pos hroom]
        simp only [hr, hproduce]
    · -- the resampler waits for a frame, perhaps after moving on to its next pair
      have hwants : (!r'.wantsInput) = false := by rw [Resampler.wantsInput, hnext]; rfl
      have hmoves : c.Moves (input.drop consumed) { c with resampler := some r' }
        (input.drop consumed) [] := h.moves_resampler hr hok (hwaits c.format _)
      rcases hmoves.inv.feed_cases hconsumed rfl hnext with
        ⟨heq, hdone⟩ | ⟨frame, c', consumed', r'', heq, hfeed, hge, hle, hmoves', hless⟩
      · refine Or.inl ⟨_, hmoves, hdone, fun rounds => ?_⟩
        rw [convertLoop, if_pos hroom]
        simp only [hr, hproduce, hwants, heq, Bool.false_eq_true, if_false]
      · refine Or.inr ⟨_, consumed', [], hmoves.trans hmoves', hge, hle, ?_, fun rounds => ?_⟩
        · have hfull := Converter.full_le { c' with resampler := some r'' }
          rw [List.append_nil, Converter.weight, Converter.weight]
          have hless' : (c'.pending ++ input.drop consumed').length <
            (c.pending ++ input.drop consumed).length := hless
          change room - output.length + 2 * (c'.pending ++ input.drop consumed').length + _ < _
          omega
        · rw [convertLoop, if_pos hroom]
          simp only [hr, hproduce, hwants, heq, hfeed, Bool.false_eq_true, if_false, List.append_nil]
          rfl

/-! ## A whole call -/

/-- The loop ends, after small steps only, when the room is used up or nothing more can be done. -/
theorem convertLoop_spec (rounds : ℕ) {output : List UInt8} (h : c.Inv)
    (hconsumed : consumed ≤ input.length)
    (hrounds : c.weight (input.drop consumed) (room - output.length) < rounds) :
    ∃ c' consumed' out, c.Moves (input.drop consumed) c' (input.drop consumed') out ∧
      consumed' ≤ input.length ∧
      (room - (output ++ out).length < outputFrame ∨ c'.Done (input.drop consumed')) ∧
      Converter.convertLoop input room rounds c consumed output =
        some (c', consumed', output ++ out) := by
  induction rounds generalizing c consumed output with
  | zero => omega
  | succ rounds ih =>
    rcases h.convertLoop_succ hconsumed room output with ⟨hspace, hloop⟩ |
      ⟨c', hmoves, hdone, hloop⟩ | ⟨c₁, consumed₁, out₁, hmoves, -, hle, hless, hloop⟩
    · refine ⟨c, consumed, [], ⟨h, rfl, rfl, .refl _⟩, hconsumed, ?_, ?_⟩
      · rw [List.append_nil]
        exact Or.inl hspace
      · rw [List.append_nil]
        exact hloop rounds
    · refine ⟨c', consumed, [], hmoves, hconsumed, Or.inr hdone, ?_⟩
      rw [List.append_nil]
      exact hloop rounds
    · have hrounds' : c₁.weight (input.drop consumed₁) (room - (output ++ out₁).length) < rounds := by
        omega
      obtain ⟨c', consumed', out, hmoves', hle', hend, heq⟩ := ih hmoves.inv hle hrounds'
      rw [List.append_assoc] at hend heq
      exact ⟨c', consumed', out₁ ++ out, hmoves.trans hmoves', hle', hend, (hloop rounds).trans heq⟩

/-- What waits in the carry afterwards are the bytes that were not used. -/
theorem Converter.Inv.absorb_spec (h : c.Inv) (hconsumed : consumed ≤ input.length) :
    ∃ c' consumed', c.absorb input consumed = (c', consumed') ∧ consumed' ≤ input.length ∧
      c.Moves (input.drop consumed) c' (input.drop consumed') [] ∧
      c'.resampler = c.resampler ∧
      c'.pending ++ input.drop consumed' = c.pending ++ input.drop consumed ∧
      ((c.pending ++ input.drop consumed).length < c.format.frameBytes →
        consumed' = input.length) := by
  have hpending := h.length_pending
  have hlt := h.carried_lt
  have hle := (frameBytes_pos c.format).2
  have hcarry := h.carry_length
  unfold Converter.absorb
  rw [List.length_append, hpending]
  simp only
  split_ifs with hshort
  · have hunread : ({ c with
        carry := c.carry.take c.carried ++ input.drop consumed ++
          c.carry.drop (c.carried + (input.drop consumed).length)
        carried := c.carried + (input.drop consumed).length } : Converter).pending =
        c.pending ++ input.drop consumed := by
      refine List.take_left' ?_
      change (c.pending ++ input.drop consumed).length = _
      rw [List.length_append, hpending]
    have hsame : c.pending ++ input.drop consumed =
        c.pending ++ input.drop consumed ++ input.drop input.length := by
      rw [List.drop_length, List.append_nil]
    refine ⟨_, input.length, rfl, le_rfl, ⟨⟨hshort, ?_, h.resampler⟩, rfl, rfl, ?_⟩, rfl, ?_, fun _ => rfl⟩
    · simp only [List.length_append, List.length_take, List.length_drop] at hshort ⊢
      omega
    · rw [hunread, ← hsame]
      exact .refl _
    · rw [hunread, ← hsame]
  · exact ⟨c, consumed, rfl, hconsumed, ⟨h, rfl, rfl, .refl _⟩, rfl, rfl, fun hlt => absurd hlt hshort⟩

/-- Where nothing more can be done, less than a frame is left. -/
theorem Converter.Inv.length_lt_of_done (h : c.Inv) {unread : List UInt8} (hdone : c.Done unread) :
    (c.pending ++ unread).length < c.format.frameBytes := by
  by_contra hge
  have hle : c.format.frameBytes ≤ (c.pending ++ unread).length := Nat.le_of_not_lt hge
  unfold Converter.Done Stuck at hdone
  cases hr : c.resampler with
  | none =>
    rw [hr, micro, if_pos hle] at hdone
    cases hdone
  | some r =>
    rw [hr] at hdone
    rcases (h.resampler r hr).produce_cases with
      ⟨frame, r', hproduce, -, -⟩ | ⟨r', hproduce, -, -, -⟩
    · rw [micro_of_produce hproduce] at hdone
      cases hdone
    · cases hnext : r.next with
      | some frame =>
        rw [micro_of_advance hproduce (by rw [hnext]; rfl)] at hdone
        cases hdone
      | none =>
        -- a resampler that waits would take the frame
        obtain ⟨r'', hfeed, -⟩ := Resampler.feed_of_next hnext
          (c.format.decodeFrame ((c.pending ++ unread).take c.format.frameBytes))
        rw [micro_of_next (Resampler.produce_of_next hnext) hnext, if_pos hle, hfeed] at hdone
        cases hdone

/-- A call moves on by small steps, and stops when the room is used up or when it has used all of the
input and nothing more can be done. -/
theorem Converter.Inv.convert_spec (h : c.Inv) (input : List UInt8) (room : ℕ) :
    ∃ c' consumed out, c.convert input room = some (c', consumed, out) ∧
      consumed ≤ input.length ∧ c.Moves input c' (input.drop consumed) out ∧
      (room - out.length < outputFrame ∨ consumed = input.length ∧ c'.Done []) := by
  have hweight : c.weight (input.drop 0) (room - ([] : List UInt8).length) <
      room + 2 * (c.carried + input.length) + 3 := by
    have hfull := c.full_le
    rw [Converter.weight, List.length_append, h.length_pending, List.drop_zero, List.length_nil]
    omega
  obtain ⟨c₁, consumed₁, out, hmoves, hle, hend, hloop⟩ := convertLoop_spec _ h (Nat.zero_le _) hweight
  obtain ⟨c', consumed', habsorb, hle', hmoves', hresampler, hunread, hall⟩ := hmoves.inv.absorb_spec hle
  refine ⟨c', consumed', out, ?_, hle', ?_, ?_⟩
  · rw [Converter.convert, hloop]
    simp only [Option.bind_eq_bind, Option.bind_some, habsorb, List.nil_append]
    rfl
  · have htrans := hmoves.trans hmoves'
    rwa [List.append_nil, List.drop_zero] at htrans
  · rw [List.nil_append] at hend
    refine hend.imp_right fun hdone => ?_
    have hused := hall (hmoves.inv.length_lt_of_done hdone)
    refine ⟨hused, ?_⟩
    rw [Converter.Done, hresampler, hmoves'.format, ← List.drop_length (l := input), ← hused, hunread]
    exact hdone

/-! ## Whole streams -/

theorem Converter.Moves.append {unread unread' out : List UInt8} (h : c.Moves unread c' unread' out)
    (rest : List UInt8) : c.Moves (unread ++ rest) c' (unread' ++ rest) out where
  inv := h.inv
  format := h.format
  cardRate := h.cardRate
  runs := by
    rw [← List.append_assoc, ← List.append_assoc]
    exact runs_append h.runs rest

/-- Feeding a stream in pieces is a complete run of small steps. -/
theorem Converter.Feeds.complete {stream out : List UInt8} (hfeeds : Feeds c stream out c')
    (h : c.Inv) : c.Moves stream c' [] out ∧ c'.Done [] := by
  induction hfeeds with
  | @last c c' input room hroom hcall =>
    obtain ⟨c₁, consumed, out, heq, -, hmoves, hend⟩ := h.convert_spec input room
    rw [hcall] at heq
    cases heq
    rw [List.drop_length] at hmoves
    refine ⟨hmoves, hend.elim (fun hfull => ?_) And.right⟩
    -- the room for a frame is still there
    rw [List.length_nil, Nat.sub_zero] at hfull
    exact absurd hroom (Nat.not_le.mpr hfull)
  | @call c c' c'' input rest out out' room consumed hroom hcall hrest ih =>
    obtain ⟨c₁, consumed₁, out₁, heq, -, hmoves, -⟩ := h.convert_spec input room
    rw [hcall] at heq
    cases heq
    obtain ⟨hmoves', hdone⟩ := ih hmoves.inv
    exact ⟨(hmoves.append rest).trans hmoves', hdone⟩

/-- How far a resampler is from needing a frame. -/
def Resampler.ahead (r : Resampler) : ℕ :=
  (if r.next.isSome then one + 1 else 0) + (one - r.position)

/-- Goes down in every small step: bytes are used up, the resampler moves on, or its position grows up
to `one`. -/
def rank (s : Config) : ℕ :=
  s.2.length * (2 * (one + 1)) + (s.1.map Resampler.ahead).getD 0

/-- The resampler, if there is one, moves forward. -/
def Forward (s : Config) : Prop :=
  ∀ r, s.1 = some r → r.Ok ∧ 0 < r.step

/-- A step of the resampler goes forward. -/
theorem Resampler.Ok.produce_ahead {r : Resampler} (h : r.Ok) (hstep : 0 < r.step)
    (hnext : r.next.isSome) : r.produce.2.Ok ∧ r.produce.2.step = r.step ∧
      r.produce.2.ahead < r.ahead := by
  obtain ⟨step, position, previous, next⟩ := r
  cases next with
  | none => contradiction
  | some right =>
    cases previous with
    | none => exact absurd (h rfl) (by simp)
    | some left =>
      simp only [Resampler.produce]
      dsimp only at hstep
      split_ifs with hpast
      · refine ⟨fun _ => rfl, rfl, ?_⟩
        simp only [Resampler.ahead, Option.isSome_none, Option.isSome_some, if_true,
          Bool.false_eq_true, if_false]
        omega
      · refine ⟨(fun hprevious => absurd hprevious (by simp)), rfl, ?_⟩
        simp only [Resampler.ahead, Option.isSome_some, if_true]
        omega

theorem Resampler.feed_ahead {r r' : Resampler} {frame : Frame} (h : r.feed frame = some r') :
    r'.step = r.step ∧ r'.ahead ≤ r.ahead + (one + 1) := by
  unfold Resampler.feed at h
  split_ifs at h <;> cases h <;> refine ⟨rfl, ?_⟩
  · exact Nat.le_add_right _ _
  · simp only [Resampler.ahead, Option.isSome_some, if_true]
    omega

/-- A small step keeps a resampler going forward and lowers the rank. -/
theorem micro_rank {s s' : Config} {out : List UInt8} (h : Forward s)
    (hstep : micro f s = some (s', out)) : Forward s' ∧ rank s' < rank s := by
  obtain ⟨resampler, bytes⟩ := s
  have hdrop : f.frameBytes ≤ bytes.length →
      (bytes.drop f.frameBytes).length * (2 * (one + 1)) + 2 * (one + 1) ≤
        bytes.length * (2 * (one + 1)) := by
    intro hle
    have hpos := (frameBytes_pos f).1
    rw [List.length_drop, ← Nat.succ_mul]
    exact Nat.mul_le_mul_right _ (by omega)
  cases resampler with
  | none =>
    rw [micro] at hstep
    split_ifs at hstep with hle
    cases hstep
    refine ⟨(fun r hr => absurd hr (by simp)), ?_⟩
    have hless := hdrop hle
    simp only [rank, Option.map_none, Option.getD_none]
    omega
  | some r =>
    obtain ⟨hok, hpos⟩ := h r rfl
    cases hnext : r.next with
    | none =>
      rw [micro_of_next (Resampler.produce_of_next hnext) hnext] at hstep
      split_ifs at hstep with hle
      obtain ⟨r', hfeed, heq⟩ := Option.map_eq_some_iff.mp hstep
      cases heq
      obtain ⟨r'', hfeed', hok'⟩ := Resampler.feed_of_next hnext
        (f.decodeFrame (bytes.take f.frameBytes))
      rw [hfeed] at hfeed'
      cases hfeed'
      obtain ⟨hsame, hahead⟩ := Resampler.feed_ahead hfeed
      refine ⟨fun _ hr => by cases hr; exact ⟨hok', by omega⟩, ?_⟩
      have hless := hdrop hle
      simp only [rank, Option.map_some, Option.getD_some]
      omega
    | some right =>
      have hsome : r.next.isSome := by rw [hnext]; rfl
      obtain ⟨hok', hsame, hahead⟩ := hok.produce_ahead hpos hsome
      have hs' : s' = (some r.produce.2, bytes) := by
        rcases hok.produce_cases with ⟨frame, r', hproduce, -, -⟩ | ⟨r', hproduce, -, -, -⟩
        · rw [micro_of_produce hproduce] at hstep
          cases hstep
          rw [hproduce]
        · rw [micro_of_advance hproduce hsome] at hstep
          cases hstep
          rw [hproduce]
      subst hs'
      refine ⟨fun _ hr => by cases hr; exact ⟨hok', by omega⟩, ?_⟩
      simp only [rank, Option.map_some, Option.getD_some]
      omega

theorem Converter.forward_new (format : Format) (cardRate : ℕ)
    (hstep : 0 < (Resampler.new format.rate cardRate).step) (unread : List UInt8) :
    Forward ((Converter.new format cardRate).resampler, unread) := by
  intro r hr
  simp only [Converter.new] at hr
  split_ifs at hr
  cases hr
  exact ⟨fun _ => rfl, hstep⟩

/-- Converters that agree in everything but the bytes of the carry that are not in use. -/
structure Converter.Same (c c' : Converter) : Prop where
  format : c.format = c'.format
  cardRate : c.cardRate = c'.cardRate
  resampler : c.resampler = c'.resampler
  carried : c.carried = c'.carried
  pending : c.pending = c'.pending

/-- Complete runs over one stream agree. -/
theorem Converter.Moves.same {c₁ c₂ : Converter} {stream out₁ out₂ : List UInt8}
    (h₁ : c.Moves stream c₁ [] out₁) (hdone₁ : c₁.Done []) (h₂ : c.Moves stream c₂ [] out₂)
    (hdone₂ : c₂.Done []) : out₁ = out₂ ∧ c₁.Same c₂ := by
  rw [Converter.Done, h₁.format] at hdone₁
  rw [Converter.Done, h₂.format] at hdone₂
  obtain ⟨hout, hconfig⟩ := h₁.runs.unique hdone₁ h₂.runs hdone₂
  rw [List.append_nil, List.append_nil] at hconfig
  obtain ⟨hresampler, hpending⟩ := Prod.mk.inj hconfig
  refine ⟨hout, h₁.format.trans h₂.format.symm, h₁.cardRate.trans h₂.cardRate.symm, hresampler, ?_,
    hpending⟩
  rw [← h₁.inv.length_pending, hpending, h₂.inv.length_pending]

/-- Converters reached from a new one by calls with any input and any room. -/
def Converter.Called (format : Format) (cardRate : ℕ) : Converter → Prop :=
  Run.Reachable (· = Converter.new format cardRate) fun c (call : List UInt8 × ℕ) c' =>
    ∃ consumed out, c.convert call.1 call.2 = some (c', consumed, out)

theorem Converter.Called.inv {format : Format} {cardRate : ℕ} (h : Called format cardRate c) :
    c.Inv := by
  refine Run.Reachable.invariant (P := Converter.Inv) ?_ ?_ h
  · rintro _ rfl
    exact Converter.Inv.new format cardRate
  · rintro c ⟨input, room⟩ c' hinv ⟨consumed, out, hcall⟩
    obtain ⟨c₁, consumed₁, out₁, heq, -, hmoves, -⟩ := hinv.convert_spec input room
    rw [hcall] at heq
    cases heq
    exact hmoves.inv

/-- A call with input and room for a frame uses input or gives output. -/
theorem Converter.Inv.convert_progress (h : c.Inv) (input : List UInt8)
    (hroom : outputFrame ≤ room) :
    ∃ c' consumed out, c.convert input room = some (c', consumed, out) ∧
      (input ≠ [] → 0 < consumed ∨ out ≠ []) := by
  obtain ⟨c', consumed, out, hcall, -, -, hend⟩ := h.convert_spec input room
  refine ⟨c', consumed, out, hcall, fun hinput => ?_⟩
  rcases hend with hfull | ⟨hused, -⟩
  · right
    rintro rfl
    exact absurd hroom (Nat.not_le.mpr hfull)
  · left
    rw [hused]
    exact List.length_pos_iff.mpr hinput

/-- With room for the output of a complete run and a frame more, a call gives that output and uses up its
input. -/
theorem Converter.Inv.convert_complete (h : c.Inv) {out : List UInt8} {s : Config}
    (hruns : Runs (micro c.format) (c.resampler, c.pending ++ input) out s)
    (hstuck : Stuck (micro c.format) s) (hroom : out.length + outputFrame ≤ room) :
    ∃ c', c.convert input room = some (c', input.length, out) ∧ c.Moves input c' [] out ∧
      c'.Done [] := by
  obtain ⟨c', consumed, out₁, hcall, -, hmoves, hend⟩ := h.convert_spec input room
  -- a call gives the beginning of that output, so its room is not used up
  obtain ⟨o, hout, -⟩ := hmoves.runs.completes hruns hstuck
  have hspace : ¬ room - out₁.length < outputFrame := by
    rw [hout, List.length_append] at hroom
    omega
  obtain ⟨rfl, hdone⟩ := hend.resolve_left hspace
  rw [List.drop_length] at hmoves
  obtain ⟨rfl, -⟩ := hmoves.runs.unique (hmoves.format ▸ hdone) hruns hstuck
  exact ⟨c', hcall, hmoves, hdone⟩

/-- **Chunking does not matter.** A call that has room for all the output uses the whole stream; every
way to feed the stream in pieces gives the same output and the same state, except for bytes of the carry
that are not in use. Every call ends, and a call with input and room for a frame uses input or gives
output. -/
theorem feeds_convert (format : Format) (cardRate : ℕ)
    (hstep : 0 < (Resampler.new format.rate cardRate).step) (stream : List UInt8) :
    (∃ out needed, ∀ room, needed ≤ room →
      ∃ c, (Converter.new format cardRate).convert stream room = some (c, stream.length, out) ∧
        ∀ out' c', Converter.Feeds (Converter.new format cardRate) stream out' c' →
          out' = out ∧ c'.Same c) ∧
    ∀ c, Converter.Called format cardRate c → ∀ input room, outputFrame ≤ room →
      ∃ c' consumed out, c.convert input room = some (c', consumed, out) ∧
        (input ≠ [] → 0 < consumed ∨ out ≠ []) := by
  have hinv := Converter.Inv.new format cardRate
  refine ⟨?_, fun c hcalled input room hroom => hcalled.inv.convert_progress input hroom⟩
  -- the machine of small steps comes to an end, with some output
  obtain ⟨out, s, hruns, hstuck⟩ := exists_complete (InvImage.wf rank Nat.lt_wfRel.wf)
    (fun s s' out hs hmicro => micro_rank hs hmicro)
    (Converter.forward_new format cardRate hstep
      ((Converter.new format cardRate).pending ++ stream))
  refine ⟨out, out.length + outputFrame, fun room hroom => ?_⟩
  obtain ⟨c, hcall, hmoves, hdone⟩ := hinv.convert_complete hruns hstuck hroom
  refine ⟨c, hcall, fun out' c' hfeeds => ?_⟩
  obtain ⟨hmoves', hdone'⟩ := hfeeds.complete hinv
  exact hmoves'.same hdone' hmoves hdone

/-- Three frames of 24 kHz stereo and a byte more, in pieces that cut the second frame. -/
theorem feeds_convert_threeFrames :
    let c : Converter := .new ⟨24000, .s16, .stereo⟩ 48000
    let stream : List UInt8 := [0, 0, 0, 0, 100, 0, 200, 0, 40, 1, 10, 0, 7]
    let out : List UInt8 := [0, 0, 0, 0, 50, 0, 100, 0, 100, 0, 200, 0, 198, 0, 105, 0]
    0 < (Resampler.new 24000 48000).step ∧ ∃ c' needed, c.Feeds stream out c' ∧
      ∀ room, needed ≤ room → ∃ c'', c.convert stream room = some (c'', 13, out) ∧ c'.Same c'' := by
  intro c stream out
  let at_ (position : ℕ) (previous next : Option Frame) (carry : List UInt8) (carried : ℕ) : Converter :=
    ⟨⟨24000, .s16, .stereo⟩, 48000, some ⟨2147483648, position, previous, next⟩, carry, carried⟩
  have hfirst : c.convert [0, 0, 0, 0, 100, 0] 8 =
      some (at_ 0 (some (0, 0)) none [100, 0, 0, 0] 2, 6, []) := by decide +kernel
  have hsecond : (at_ 0 (some (0, 0)) none [100, 0, 0, 0] 2).convert [200, 0, 40, 1, 10, 0, 7] 8 =
      some (at_ 4294967296 (some (0, 0)) (some (100, 200)) [100, 0, 200, 0] 0, 2,
        [0, 0, 0, 0, 50, 0, 100, 0]) := by decide +kernel
  have hthird : (at_ 4294967296 (some (0, 0)) (some (100, 200)) [100, 0, 200, 0] 0).convert
      [40, 1, 10, 0, 7] 32 = some (at_ 0 (some (296, 10)) none [7, 0, 200, 0] 1, 5,
        [100, 0, 200, 0, 198, 0, 105, 0]) := by decide +kernel
  have hlast : (at_ 0 (some (296, 10)) none [7, 0, 200, 0] 1).convert [] 4 =
      some (at_ 0 (some (296, 10)) none [7, 0, 200, 0] 1, 0, []) := by decide +kernel
  have hrest : Converter.Feeds _ ([40, 1, 10, 0, 7] ++ []) ([100, 0, 200, 0, 198, 0, 105, 0] ++ []) _ :=
    .call (by decide) hthird (.last le_rfl hlast)
  have hmiddle : Converter.Feeds _ ([200, 0, 40, 1, 10, 0, 7] ++ [])
      ([0, 0, 0, 0, 50, 0, 100, 0] ++ [100, 0, 200, 0, 198, 0, 105, 0]) _ :=
    .call (by decide) hsecond hrest
  have hfeeds : c.Feeds ([0, 0, 0, 0, 100, 0] ++ [200, 0, 40, 1, 10, 0, 7])
      ([] ++ [0, 0, 0, 0, 50, 0, 100, 0, 100, 0, 200, 0, 198, 0, 105, 0]) _ :=
    .call (by decide) hfirst hmiddle
  have hpos : 0 < (Resampler.new 24000 48000).step := by decide
  obtain ⟨out', needed, hconvert⟩ := (feeds_convert ⟨24000, .s16, .stereo⟩ 48000 hpos stream).1
  refine ⟨hpos, _, needed, hfeeds, fun room hroom => ?_⟩
  obtain ⟨c'', hcall, hsame⟩ := hconvert room hroom
  obtain ⟨rfl, hsame'⟩ := hsame _ _ hfeeds
  exact ⟨c'', hcall, hsame'⟩

/-- The unused bytes of the carry do depend on the pieces: a frame fed in two halves is left in it, and
one that comes whole never gets there. -/
theorem feeds_twoHalves :
    ∃ out c', Converter.Feeds (Converter.new ⟨48000, .s16, .stereo⟩ 48000) [1, 2, 3, 4] out c' ∧
      ∀ room, outputFrame ≤ room → ∃ c,
        (Converter.new ⟨48000, .s16, .stereo⟩ 48000).convert [1, 2, 3, 4] room =
          some (c, 4, [1, 2, 3, 4]) ∧ c' ≠ c := by
  refine ⟨[1, 2, 3, 4], ⟨⟨48000, .s16, .stereo⟩, 48000, none, [1, 2, 3, 4], 0⟩, ?_, ?_⟩
  · have hfirst : (Converter.new ⟨48000, .s16, .stereo⟩ 48000).convert [1, 2] outputFrame =
        some (⟨⟨48000, .s16, .stereo⟩, 48000, none, [1, 2, 0, 0], 2⟩, 2, []) := by decide
    have hsecond : (⟨⟨48000, .s16, .stereo⟩, 48000, none, [1, 2, 0, 0], 2⟩ : Converter).convert [3, 4]
        outputFrame =
          some (⟨⟨48000, .s16, .stereo⟩, 48000, none, [1, 2, 3, 4], 0⟩, 2, [1, 2, 3, 4]) := by decide
    have hlast : (⟨⟨48000, .s16, .stereo⟩, 48000, none, [1, 2, 3, 4], 0⟩ : Converter).convert []
        outputFrame =
          some (⟨⟨48000, .s16, .stereo⟩, 48000, none, [1, 2, 3, 4], 0⟩, 0, []) := by decide
    have hend : Converter.Feeds ⟨⟨48000, .s16, .stereo⟩, 48000, none, [1, 2, 0, 0], 2⟩ ([3, 4] ++ [])
      ([1, 2, 3, 4] ++ []) _ := .call le_rfl hsecond (.last le_rfl hlast)
    have hstart : Converter.Feeds (Converter.new ⟨48000, .s16, .stereo⟩ 48000) ([1, 2] ++ [3, 4])
      ([] ++ ([1, 2, 3, 4] ++ [])) _ := .call le_rfl hfirst hend
    exact hstart
  · intro room hroom
    refine ⟨Converter.new ⟨48000, .s16, .stereo⟩ 48000, ?_, by decide⟩
    -- one round for the frame, one to find no other
    have hloop (rounds : ℕ) : Converter.convertLoop [1, 2, 3, 4] room (rounds + 1 + 1)
        (Converter.new ⟨48000, .s16, .stereo⟩ 48000) 0 [] =
          some (Converter.new ⟨48000, .s16, .stereo⟩ 48000, 4, [1, 2, 3, 4]) := by
      rw [Converter.convertLoop, if_pos (show room - ([] : List UInt8).length ≥ outputFrame from hroom)]
      change Converter.convertLoop [1, 2, 3, 4] room (rounds + 1)
        (Converter.new ⟨48000, .s16, .stereo⟩ 48000) 4 [1, 2, 3, 4] = _
      rw [Converter.convertLoop]
      split_ifs <;> rfl
    rw [Converter.convert, show room + 2 * ((Converter.new ⟨48000, .s16, .stereo⟩ 48000).carried +
      ([1, 2, 3, 4] : List UInt8).length) + 3 = room + 9 + 1 + 1 from rfl, hloop]
    rfl

end SaeOS.Sound
