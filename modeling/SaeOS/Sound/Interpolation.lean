import SaeOS.Sound.ConvertRun

/-!
# Resampling is linear interpolation

`sound/resample.rs` advances its position step by step and shifts its two frames one at a time. Output frame
`k` lies at `k * step` in 32.32 fixed point, so that no error adds up: `At` says so for every state between
two moves of the loop that drives the resampler, and a run to the end of the input gives the interpolated
frames (`interpolated`), all of them.
-/

namespace SaeOS.Sound

open Transducer

/-! ## Driving a resampler -/

/-- One move of the loop that drives a resampler: an output frame, a shift to the next pair of frames, or
an input frame. -/
def drive : Resampler × List Frame → Option ((Resampler × List Frame) × List Frame)
  | (r, input) =>
    match r.produce with
    | (some frame, r) => some ((r, input), [frame])
    | (none, r') =>
      if !r.wantsInput then some ((r', input), [])
      else
        match input with
        | [] => none
        | frame :: input => (r.feed frame).map fun r => ((r, input), [])

/-- `x[i] + ((x[i + 1] - x[i]) * f >> 32)` in one channel. -/
def between (fraction : ℕ) (left right : ℤ) : ℤ :=
  left + ((right - left) * fraction) >>> (32 : ℕ)

/-- The frame at `k` steps into the input, if both its neighbours are inside. -/
def interpolated (x : List Frame) (step k : ℕ) : Option Frame := do
  let left ← x[k * step / 2 ^ 32]?
  let right ← x[k * step / 2 ^ 32 + 1]?
  return (between (k * step % 2 ^ 32) left.1 right.1, between (k * step % 2 ^ 32) left.2 right.2)

/-! ## Samples -/

/-- The values of `i16`. -/
def IsSample (a : ℤ) : Prop :=
  -2 ^ 15 ≤ a ∧ a < 2 ^ 15

def IsFrame (frame : Frame) : Prop :=
  IsSample frame.1 ∧ IsSample frame.2

theorem toI16_eq {a : ℤ} (h : IsSample a) : toI16 a = a := by
  obtain ⟨hge, hlt⟩ := h
  exact Int.bmod_eq_of_le (by omega) (by omega)

theorem between_eq (fraction : ℕ) (left right : ℤ) :
    between fraction left right = left + ((right - left) * fraction) / 2 ^ 32 := by
  rw [between, Int.shiftRight_eq_div_pow]
  rfl

/-- A value between two samples is a sample, and the product on the way fits 64 bits. -/
theorem between_fits {fraction : ℕ} (hfraction : fraction < one) {left right : ℤ} (hleft : IsSample left)
    (hright : IsSample right) :
    -2 ^ 63 ≤ (right - left) * fraction ∧ (right - left) * fraction < 2 ^ 63 ∧
      IsSample (between fraction left right) := by
  obtain ⟨hl, hl'⟩ := hleft
  obtain ⟨hr, hr'⟩ := hright
  have hpos : (0 : ℤ) ≤ fraction := Int.natCast_nonneg _
  have hone : (fraction : ℤ) ≤ 2 ^ 32 - 1 := by
    unfold one at hfraction
    omega
  rw [between_eq, IsSample]
  rcases le_total left right with hle | hle
  · -- between 0 and the difference of the samples
    have hge : 0 ≤ (right - left) * fraction := mul_nonneg (by omega) hpos
    have hlt : (right - left) * fraction ≤ (right - left) * 2 ^ 32 :=
      mul_le_mul_of_nonneg_left (by omega) (by omega)
    omega
  · have hge : (right - left) * 2 ^ 32 ≤ (right - left) * fraction :=
      mul_le_mul_of_nonpos_left (by omega) (by omega)
    have hlt : (right - left) * fraction ≤ 0 := mul_nonpos_of_nonpos_of_nonneg (by omega) hpos
    omega

theorem mix_eq {fraction : ℕ} (hfraction : fraction < one) {left right : ℤ} (hleft : IsSample left)
    (hright : IsSample right) : Resampler.mix fraction left right = between fraction left right := by
  rw [Resampler.mix, ← between_eq, toI16_eq (between_fits hfraction hleft hright).2.2]

/-! ## Where a resampler stands -/

/-- The frames a resampler holds and the input that is left, when its left frame is number `i`. -/
inductive Holds (x : List Frame) (r : Resampler) (input : List Frame) : ℕ → Prop
  | none (hprevious : r.previous = none) (hnext : r.next = none) (hposition : r.position = 0)
      (hinput : input = x) : Holds x r input 0
  | left {i : ℕ} {frame : Frame} (hprevious : r.previous = some frame) (hnext : r.next = none)
      (hframe : x[i]? = some frame) (hinput : input = x.drop (i + 1)) : Holds x r input i
  | both {i : ℕ} {frame frame' : Frame} (hprevious : r.previous = some frame)
      (hnext : r.next = some frame') (hframe : x[i]? = some frame) (hframe' : x[i + 1]? = some frame')
      (hinput : input = x.drop (i + 2)) : Holds x r input i

/-- The resampler is to give output frame `k`: its left frame and its position make up `k` steps. -/
structure At (x : List Frame) (step k : ℕ) (s : Resampler × List Frame) : Prop where
  step_eq : s.1.step = step
  holds : ∃ i, Holds x s.1 s.2 i ∧ i * one + s.1.position = k * step
  position_lt : s.1.position < one + step

variable {x : List Frame} {step k : ℕ} {s s' : Resampler × List Frame} {out : List Frame}

theorem drive_of_next {r : Resampler} (hnext : r.next = none) (input : List Frame) :
    drive (r, input) =
      match input with
      | [] => none
      | frame :: input => (r.feed frame).map fun r => ((r, input), []) := by
  have hwants : (!r.wantsInput) = false := by
    rw [Resampler.wantsInput, hnext]
    rfl
  simp only [drive, Resampler.produce_of_next hnext, hwants, Bool.false_eq_true, if_false]

/-- A waiting resampler takes the next frame of the input. -/
theorem At.feed (h : At x step k s) (hnext : s.1.next = none) (hdrive : drive s = some (s', out)) :
    out = [] ∧ At x step k s' := by
  obtain ⟨⟨step', position, previous, next⟩, input⟩ := s
  obtain ⟨hstep, ⟨i, hholds, hposition⟩, hlt⟩ := h
  rw [drive_of_next hnext] at hdrive
  cases hnext
  cases hholds with
  | none hprevious hnext hzero hinput =>
    cases hprevious
    dsimp only at hinput
    cases input with
    | nil => contradiction
    | cons frame rest =>
      cases hdrive
      have hframe : x[0]? = some frame := by
        rw [← hinput]
        rfl
      have hrest : rest = x.drop (0 + 1) := by
        rw [← hinput]
        rfl
      exact ⟨rfl, hstep, ⟨0, .left rfl rfl hframe hrest, hposition⟩, hlt⟩
  | @left i frame hprevious hnext hframe hinput =>
    cases hprevious
    dsimp only at hinput
    cases hrest : x.drop (i + 1) with
    | nil =>
      rw [hinput, hrest] at hdrive
      contradiction
    | cons frame' rest =>
      rw [hinput, hrest] at hdrive
      cases hdrive
      obtain ⟨hframe', hdrop⟩ : x[i + 1]? = some frame' ∧ x.drop (i + 2) = rest := by
        constructor
        · rw [← List.head?_drop, hrest, List.head?_cons]
        · rw [← List.tail_drop, hrest, List.tail_cons]
      exact ⟨rfl, hstep, ⟨i, .both rfl rfl hframe hframe' hdrop.symm, hposition⟩, hlt⟩
  | both hprevious hnext hframe hframe' hinput => contradiction

/-- With both frames held, the resampler gives output frame `k`, or shifts. -/
theorem At.produce (h : At x step k s) (hx : ∀ frame ∈ x, IsFrame frame) (hnext : s.1.next ≠ none)
    (hdrive : drive s = some (s', out)) :
    (out = [] ∧ At x step k s') ∨
      ∃ frame, out = [frame] ∧ interpolated x step k = some frame ∧ At x step (k + 1) s' := by
  obtain ⟨⟨step', position, previous, next⟩, input⟩ := s
  obtain ⟨rfl, ⟨i, hholds, hposition⟩, hlt⟩ := h
  cases hholds with
  | none hprevious hnone => exact absurd hnone hnext
  | left hprevious hnone => exact absurd hnone hnext
  | @both i left right hprevious hnext hleft hright hinput =>
    cases hprevious
    cases hnext
    subst hinput
    dsimp only at hposition hlt
    by_cases hpast : position ≥ one
    · -- past the right frame: it becomes the left one
      left
      have hproduce : Resampler.produce ⟨step', position, some left, some right⟩ =
          (none, ⟨step', position - one, some right, none⟩) := if_pos hpast
      have hshift : drive (⟨step', position, some left, some right⟩, x.drop (i + 2)) =
          some ((⟨step', position - one, some right, none⟩, x.drop (i + 2)), []) := by
        simp only [drive, hproduce]
        rfl
      obtain ⟨rfl, rfl⟩ := Prod.mk.inj (Option.some.inj (hshift.symm.trans hdrive))
      refine ⟨rfl, rfl, ⟨i + 1, .left rfl rfl hright rfl, ?_⟩, ?_⟩
      · dsimp only
        rw [Nat.succ_mul]
        omega
      · dsimp only
        omega
    · right
      have hproduce : Resampler.produce ⟨step', position, some left, some right⟩ =
          (some (Resampler.mix position left.1 right.1, Resampler.mix position left.2 right.2),
            ⟨step', position + step', some left, some right⟩) := if_neg hpast
      have hframe : drive (⟨step', position, some left, some right⟩, x.drop (i + 2)) =
          some ((⟨step', position + step', some left, some right⟩, x.drop (i + 2)),
            [(Resampler.mix position left.1 right.1, Resampler.mix position left.2 right.2)]) := by
        simp only [drive, hproduce]
      obtain ⟨rfl, rfl⟩ := Prod.mk.inj (Option.some.inj (hframe.symm.trans hdrive))
      have hbelow : position < one := Nat.lt_of_not_ge hpast
      obtain ⟨hleft₁, hleft₂⟩ := hx left (List.mem_of_getElem? hleft)
      obtain ⟨hright₁, hright₂⟩ := hx right (List.mem_of_getElem? hright)
      rw [mix_eq hbelow hleft₁ hright₁, mix_eq hbelow hleft₂ hright₂]
      -- the integer part and the fraction of `k` steps
      have hindex : k * step' / 2 ^ 32 = i := by
        rw [← hposition]
        unfold one at hbelow ⊢
        omega
      have hfraction : k * step' % 2 ^ 32 = position := by
        rw [← hposition]
        unfold one at hbelow ⊢
        omega
      refine ⟨_, rfl, ?_, rfl, ⟨i, .both rfl rfl hleft hright rfl, ?_⟩, ?_⟩
      · rw [interpolated, hindex, hfraction, hleft, hright]
        rfl
      · dsimp only
        rw [← Nat.add_assoc, hposition, Nat.succ_mul]
      · dsimp only
        omega

/-- One move. -/
theorem At.next (h : At x step k s) (hx : ∀ frame ∈ x, IsFrame frame)
    (hdrive : drive s = some (s', out)) :
    (out = [] ∧ At x step k s') ∨
      ∃ frame, out = [frame] ∧ interpolated x step k = some frame ∧ At x step (k + 1) s' := by
  by_cases hnext : s.1.next = none
  · exact .inl (h.feed hnext hdrive)
  · exact h.produce hx hnext hdrive

/-- A run gives the frames from `k` on. -/
theorem At.runs (h : At x step k s) (hx : ∀ frame ∈ x, IsFrame frame) (hruns : Runs drive s out s') :
    At x step (k + out.length) s' ∧
      ∀ j < out.length, out[j]? = interpolated x step (k + j) := by
  induction hruns generalizing k with
  | refl s => exact ⟨h, fun j hj => absurd hj (Nat.not_lt_zero j)⟩
  | @step s s₁ s₂ out out' hdrive _ ih =>
    rcases h.next hx hdrive with ⟨rfl, h₁⟩ | ⟨frame, rfl, hframe, h₁⟩
    · exact ih h₁
    · obtain ⟨hat, houts⟩ := ih h₁
      refine ⟨?_, fun j hj => ?_⟩
      · rw [List.length_append, List.length_singleton, ← Nat.add_assoc]
        exact hat
      · cases j with
        | zero => exact hframe.symm
        | succ j =>
          have hj' : j < out'.length := Nat.lt_of_succ_lt_succ hj
          have hshift : k + (j + 1) = k + 1 + j := by omega
          rw [hshift, ← houts j hj']
          rfl

theorem interpolated_eq_none (h : x.length ≤ k * step / 2 ^ 32 + 1) : interpolated x step k = none := by
  rw [interpolated, List.getElem?_eq_none h]
  cases x[k * step / 2 ^ 32]? <;> rfl

/-- A resampler that can do nothing waits for input, and there is none left. -/
theorem waits_of_stuck (hok : s.1.Ok) (hstuck : Stuck drive s) : s.1.next = none ∧ s.2 = [] := by
  obtain ⟨r, input⟩ := s
  dsimp only at hok ⊢
  cases hnext : r.next with
  | some right =>
    -- with both its frames a resampler moves
    have hwants : (!r.wantsInput) = true := by
      rw [Resampler.wantsInput, hnext]
      rfl
    simp only [Stuck, drive, hwants, if_true] at hstuck
    split at hstuck <;> contradiction
  | none =>
    refine ⟨rfl, ?_⟩
    rw [Stuck, drive_of_next hnext] at hstuck
    cases input with
    | nil => rfl
    | cons frame input =>
      obtain ⟨r', hfeed, -⟩ := Resampler.feed_of_next hnext frame
      simp only [hfeed] at hstuck
      contradiction

theorem At.ok (h : At x step k s) : s.1.Ok := by
  obtain ⟨i, hholds, -⟩ := h.holds
  intro hnone
  cases hholds with
  | none hprevious hnext hposition => exact hnext
  | left hprevious hnext hframe => exact hnext
  | both hprevious hnext hframe hframe' => exact absurd (hprevious.symm.trans hnone) (by simp)

/-- Where nothing more can be done, the input is used up and frame `k` needs more of it, as all later
frames do. -/
theorem At.interpolated_of_stuck (h : At x step k s) (hstuck : Stuck drive s) {j : ℕ} (hj : k ≤ j) :
    interpolated x step j = none := by
  obtain ⟨hwaits, hinput⟩ := waits_of_stuck h.ok hstuck
  obtain ⟨i, hholds, hposition⟩ := h.holds
  have hlater : k * step ≤ j * step := Nat.mul_le_mul_right _ hj
  apply interpolated_eq_none
  cases hholds with
  | none hprevious hnext hzero hall =>
    rw [← hall, hinput]
    exact Nat.zero_le _
  | left hprevious hnext hframe hrest =>
    have hlast : x.length ≤ i + 1 := List.drop_eq_nil_iff.mp (hrest.symm.trans hinput)
    unfold one at hposition
    omega
  | both hprevious hnext hframe hframe' hrest => exact absurd (hnext.symm.trans hwaits) (by simp)

/-! ## Overflow -/

/-- What `produce` adds up and multiplies stays in range: the position, and in each channel the product
and the sum, which is a sample again. -/
structure NoOverflow (r : Resampler) : Prop where
  position_lt : r.position < 2 ^ 64
  advances : r.position < one → r.position + r.step < 2 ^ 64
  mixes : ∀ left right, r.previous = some left → r.next = some right → r.position < one →
    ∀ channel : Frame → ℤ, channel = Prod.fst ∨ channel = Prod.snd →
      -2 ^ 63 ≤ (channel right - channel left) * r.position ∧
        (channel right - channel left) * r.position < 2 ^ 63 ∧
        IsSample (between r.position (channel left) (channel right))

theorem At.noOverflow (h : At x step k s) (hx : ∀ frame ∈ x, IsFrame frame)
    (hstep : step ≤ (2 ^ 32 - 1) * 2 ^ 32) : NoOverflow s.1 where
  position_lt := by
    have hlt := h.position_lt
    unfold one at hlt
    omega
  advances := by
    have hsame := h.step_eq
    unfold one
    omega
  mixes := by
    intro left right hprevious hnext hposition channel hchannel
    obtain ⟨i, hholds, -⟩ := h.holds
    cases hholds with
    | none hnone => exact absurd (hnone.symm.trans hprevious) (by simp)
    | left _ hnone => exact absurd (hnone.symm.trans hnext) (by simp)
    | @both i left' right' hprevious' hnext' hleft hright =>
      obtain rfl := Option.some.inj (hprevious'.symm.trans hprevious)
      obtain rfl := Option.some.inj (hnext'.symm.trans hnext)
      obtain ⟨hleft₁, hleft₂⟩ := hx left' (List.mem_of_getElem? hleft)
      obtain ⟨hright₁, hright₂⟩ := hx right' (List.mem_of_getElem? hright)
      rcases hchannel with rfl | rfl
      · exact between_fits hposition hleft₁ hright₁
      · exact between_fits hposition hleft₂ hright₂

theorem At.new (inputRate outputRate : ℕ) (x : List Frame) :
    At x (Resampler.new inputRate outputRate).step 0 (.new inputRate outputRate, x) where
  step_eq := rfl
  holds := ⟨0, .none rfl rfl rfl rfl, by rw [Nat.zero_mul, Nat.zero_mul]; rfl⟩
  position_lt := by
    change 0 < one + _
    exact Nat.add_pos_left (by decide) _

theorem step_new_le {inputRate : ℕ} (h : inputRate < 2 ^ 32) (outputRate : ℕ) :
    (Resampler.new inputRate outputRate).step ≤ (2 ^ 32 - 1) * 2 ^ 32 := by
  refine (Nat.div_le_self _ _).trans ?_
  rw [Nat.shiftLeft_eq]
  exact Nat.mul_le_mul_right _ (by omega)

/-! ## The end of a run -/

/-- Goes down in every move. -/
def driveRank (s : Resampler × List Frame) : ℕ :=
  s.2.length * (2 * (one + 1)) + s.1.ahead

/-- A move keeps a resampler going forward and lowers the rank. -/
theorem drive_rank (hok : s.1.Ok ∧ 0 < s.1.step) (hdrive : drive s = some (s', out)) :
    (s'.1.Ok ∧ 0 < s'.1.step) ∧ driveRank s' < driveRank s := by
  obtain ⟨r, input⟩ := s
  obtain ⟨hok, hpos⟩ := hok
  cases hnext : r.next with
  | none =>
    rw [drive_of_next hnext] at hdrive
    cases input with
    | nil => contradiction
    | cons frame input =>
      obtain ⟨r', hfeed, hok'⟩ := Resampler.feed_of_next hnext frame
      obtain ⟨hsame, hahead⟩ := Resampler.feed_ahead hfeed
      simp only [hfeed, Option.map_some] at hdrive
      cases hdrive
      refine ⟨⟨hok', hsame ▸ hpos⟩, ?_⟩
      simp only [driveRank, List.length_cons, Nat.succ_mul]
      omega
  | some right =>
    have hsome : r.next.isSome := by rw [hnext]; rfl
    obtain ⟨hok', hsame, hahead⟩ := hok.produce_ahead hpos hsome
    have hwants : (!r.wantsInput) = true := by
      rw [Resampler.wantsInput, hnext]
      rfl
    have hs' : s' = (r.produce.2, input) := by
      simp only [drive, hwants, if_true] at hdrive
      split at hdrive
      · rename_i hproduce
        cases hdrive
        rw [hproduce]
      · rename_i hproduce
        cases hdrive
        rw [hproduce]
    rw [hs']
    refine ⟨⟨hok', hsame ▸ hpos⟩, ?_⟩
    exact Nat.add_lt_add_left hahead _

/-! ## Conversion -/

/-- The frames of a stream of bytes; what is left at the end is less than a frame. -/
def frames (f : Format) (bytes : List UInt8) : List Frame :=
  (List.range (bytes.length / f.frameBytes)).map fun i =>
    f.decodeFrame ((bytes.drop (i * f.frameBytes)).take f.frameBytes)

variable {f : Format} {bytes : List UInt8}

theorem frames_cons (h : f.frameBytes ≤ bytes.length) :
    frames f bytes = f.decodeFrame (bytes.take f.frameBytes) :: frames f (bytes.drop f.frameBytes) := by
  have hpos := (frameBytes_pos f).1
  have hcount : bytes.length / f.frameBytes = (bytes.drop f.frameBytes).length / f.frameBytes + 1 := by
    rw [List.length_drop, Nat.div_eq_sub_div hpos h]
  rw [frames, hcount, List.range_succ_eq_map, List.map_cons, List.map_map, Nat.zero_mul, List.drop_zero]
  congr 1
  refine List.map_congr_left fun i _ => ?_
  rw [Function.comp_apply, List.drop_drop, Nat.succ_mul, Nat.add_comm]

theorem frames_nil (h : bytes.length < f.frameBytes) : frames f bytes = [] := by
  rw [frames, Nat.div_eq_of_lt h, List.range_zero, List.map_nil]

/-- A move of the resampler is a small step of the converter. -/
theorem micro_of_drive {r r' : Resampler} {rest : List Frame}
    (hdrive : drive (r, frames f bytes) = some ((r', rest), out)) :
    ∃ bytes', frames f bytes' = rest ∧
      micro f (some r, bytes) = some ((some r', bytes'), out.flatMap frameOutput) := by
  cases hnext : r.next with
  | none =>
    rw [drive_of_next hnext] at hdrive
    by_cases hle : f.frameBytes ≤ bytes.length
    · rw [frames_cons hle] at hdrive
      obtain ⟨r₁, hfeed, heq⟩ := Option.map_eq_some_iff.mp hdrive
      cases heq
      refine ⟨bytes.drop f.frameBytes, rfl, ?_⟩
      rw [micro_of_next (Resampler.produce_of_next hnext) hnext, if_pos hle, hfeed]
      rfl
    · rw [frames_nil (Nat.lt_of_not_ge hle)] at hdrive
      contradiction
  | some right =>
    have hwants : (!r.wantsInput) = true := by
      rw [Resampler.wantsInput, hnext]
      rfl
    simp only [drive, hwants, if_true] at hdrive
    split at hdrive
    · rename_i frame r₁ hproduce
      cases hdrive
      refine ⟨bytes, rfl, ?_⟩
      rw [micro_of_produce hproduce, List.flatMap_singleton]
    · rename_i r₁ hproduce
      cases hdrive
      exact ⟨bytes, rfl, micro_of_advance hproduce (by rw [hnext]; rfl) bytes⟩

theorem micro_runs (hok : s.1.Ok ∧ 0 < s.1.step) (hruns : Runs drive s out s')
    (hbytes : frames f bytes = s.2) :
    ∃ bytes', frames f bytes' = s'.2 ∧
      Runs (micro f) (some s.1, bytes) (out.flatMap frameOutput) (some s'.1, bytes') := by
  induction hruns generalizing bytes with
  | refl s => exact ⟨bytes, hbytes, .refl _⟩
  | @step s s₁ s₂ out out' hdrive _ ih =>
    obtain ⟨r, input⟩ := s
    obtain ⟨r₁, input₁⟩ := s₁
    subst hbytes
    obtain ⟨bytes₁, hbytes₁, hmicro⟩ := micro_of_drive hdrive
    obtain ⟨bytes', hbytes', hruns'⟩ := ih (drive_rank hok hdrive).1 hbytes₁
    rw [List.flatMap_append]
    exact ⟨bytes', hbytes', .step hmicro hruns'⟩

theorem micro_stuck (hok : s.1.Ok) (hstuck : Stuck drive s) (hbytes : frames f bytes = s.2) :
    Stuck (micro f) (some s.1, bytes) := by
  obtain ⟨hwaits, hinput⟩ := waits_of_stuck hok hstuck
  have hshort : ¬ f.frameBytes ≤ bytes.length := by
    intro hle
    rw [hinput, frames_cons hle] at hbytes
    contradiction
  rw [Stuck, micro_of_next (Resampler.produce_of_next hwaits) hwaits, if_neg hshort]

theorem At.output (h : At x step 0 s) (hx : ∀ frame ∈ x, IsFrame frame) (hruns : Runs drive s out s')
    (hstuck : Stuck drive s') (k : ℕ) : out[k]? = interpolated x step k := by
  obtain ⟨hend, houts⟩ := h.runs hx hruns
  rw [Nat.zero_add] at hend
  by_cases hk : k < out.length
  · rw [houts k hk, Nat.zero_add]
  · have hle := Nat.le_of_not_lt hk
    rw [hend.interpolated_of_stuck hstuck hle, List.getElem?_eq_none hle]

/-- **Resampling is linear interpolation.** Feeding a resampler all of its input comes to an end, without an
overflow on the way, and gives for every `k` the frame at `k` steps into the input, as long as both its
neighbours are inside; a converter gives these frames for the frames of its input. -/
theorem resample_interpolates (inputRate outputRate : ℕ) (hrate : inputRate < 2 ^ 32)
    (hstep : 0 < (Resampler.new inputRate outputRate).step) (x : List Frame)
    (hx : ∀ frame ∈ x, IsFrame frame) :
    (∃ out s, Runs drive (.new inputRate outputRate, x) out s ∧ Stuck drive s) ∧
    (∀ out s, Runs drive (.new inputRate outputRate, x) out s → NoOverflow s.1 ∧
      (Stuck drive s →
        ∀ k : ℕ, out[k]? = interpolated x (Resampler.new inputRate outputRate).step k)) ∧
    ∀ sample channels stream, inputRate ≠ outputRate → frames ⟨inputRate, sample, channels⟩ stream = x →
      ∃ (needed : ℕ) (out : List Frame), (∀ k : ℕ, out[k]? = interpolated x (Resampler.new inputRate outputRate).step k) ∧
        ∀ room ≥ needed, ∃ c, (Converter.new ⟨inputRate, sample, channels⟩ outputRate).convert stream room =
          some (c, stream.length, out.flatMap frameOutput) := by
  have hat := At.new inputRate outputRate x
  obtain ⟨out, s, hruns, hstuck⟩ := exists_complete (InvImage.wf driveRank Nat.lt_wfRel.wf)
    (fun s s' out hs hdrive => drive_rank hs hdrive) ⟨hat.ok, hstep⟩
  refine ⟨⟨out, s, hruns, hstuck⟩, fun out s hruns => ?_, fun sample channels stream hrates hframes => ?_⟩
  · obtain ⟨hend, -⟩ := hat.runs hx hruns
    exact ⟨hend.noOverflow hx (step_new_le hrate outputRate), hat.output hx hruns⟩
  · -- the converter's small steps follow the resampler's moves to the end
    obtain ⟨bytes, hbytes, hmicro⟩ := micro_runs ⟨hat.ok, hstep⟩ hruns hframes
    have hend := (hat.runs hx hruns).1.ok
    have hresampler : (Converter.new ⟨inputRate, sample, channels⟩ outputRate).resampler =
        some (.new inputRate outputRate) := if_pos hrates
    refine ⟨(out.flatMap frameOutput).length + outputFrame, out, hat.output hx hruns hstuck,
      fun room hroom => ?_⟩
    obtain ⟨c, hcall, -⟩ := (Converter.Inv.new _ outputRate).convert_complete
      (by rw [hresampler]; exact hmicro) (micro_stuck hend hstuck hbytes) hroom
    exact ⟨c, hcall⟩

/-- From 8 kHz to 12 kHz, two frames are followed by one between them. -/
theorem resample_interpolates_threeHalves :
    ∃ out : List Frame, (∀ k : ℕ, out[k]? =
        interpolated [(0, 0), (300, -300)] (Resampler.new 8000 12000).step k) ∧ out[1]? = some (199, -200) := by
  have hrun := resample_interpolates 8000 12000 (by decide) (by decide) [(0, 0), (300, -300)] (by
    intro frame hmem
    simp only [List.mem_cons, List.not_mem_nil, or_false] at hmem
    rcases hmem with rfl | rfl <;> simp [IsFrame, IsSample])
  obtain ⟨⟨out, s, hruns, hstuck⟩, hall, -⟩ := hrun
  refine ⟨out, (hall out s hruns).2 hstuck, ?_⟩
  rw [(hall out s hruns).2 hstuck]
  decide

end SaeOS.Sound
