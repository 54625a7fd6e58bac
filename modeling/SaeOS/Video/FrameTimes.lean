import Mathlib.Tactic.NormNum
import SaeOS.Video.BavSafety

/-!
# Frame times

`Header::frame_time_ns` multiplies in 64-bit words before it divides. The program is built without overflow
checks, so a product that is too large wraps and the video jumps back.
-/

namespace SaeOS.Bav

/-- Nanoseconds from the start to frame `index`. -/
def Header.frameTimeNs (header : Header) (index : ℕ) : ℕ :=
  index * 1000000000 % 2 ^ 64 * header.fpsDenominator % 2 ^ 64 / max header.fpsNumerator 1

/-- The time at which frame `index` is due, rounded down. -/
def Header.dueNs (header : Header) (index : ℕ) : ℕ :=
  index * 10 ^ 9 * header.fpsDenominator / header.fpsNumerator

/-- Every frame has its exact time, and the times do not decrease. -/
structure Header.TimesExact (header : Header) : Prop where
  exact : ∀ index < header.frames, header.frameTimeNs index = header.dueNs index
  mono : ∀ i j, i ≤ j → j < header.frames → header.frameTimeNs i ≤ header.frameTimeNs j

/-- What the header checks of the rate, and the widths of the fields. -/
theorem parseHeader_rate {bytes : List UInt8} {header : Header} (h : parseHeader bytes = .ok header) :
    0 < header.fpsNumerator ∧ header.fpsNumerator < 2 ^ 16 ∧ header.frames < 2 ^ 32 := by
  have hframes := (parseHeader_ok h).2.2.2.2
  unfold parseHeader at h
  split at h
  · contradiction
  dsimp only at h
  split at h
  · contradiction
  rename_i hvalid
  cases h
  refine ⟨Nat.pos_of_ne_zero fun hzero => hvalid (.inr (.inr (.inl hzero))), u16At_lt bytes 8, hframes⟩

/-- A quotient by less than a word is right after a wrap only where nothing wrapped. -/
theorem wrapped_div_eq_iff {product divisor : ℕ} (hpos : 0 < divisor) (hle : divisor < 2 ^ 64) :
    product % 2 ^ 64 / divisor = product / divisor ↔ product < 2 ^ 64 := by
  constructor
  · intro heq
    by_contra hlt
    -- a wrapped product is below the word, so its quotient is below that of the whole product
    have hword : product % 2 ^ 64 + divisor ≤ product := by
      have hsplit := Nat.mod_add_div product (2 ^ 64)
      have hquot : 1 ≤ product / 2 ^ 64 := (Nat.one_le_div_iff (by decide)).mpr (by omega)
      have hmul : 2 ^ 64 * 1 ≤ 2 ^ 64 * (product / 2 ^ 64) := Nat.mul_le_mul_left _ hquot
      omega
    have hstep : product % 2 ^ 64 / divisor + 1 ≤ product / divisor := by
      rw [← Nat.add_div_right _ hpos]
      exact Nat.div_le_div_right hword
    omega
  · intro hlt
    rw [Nat.mod_eq_of_lt hlt]

namespace Header

variable {header : Header} {index : ℕ}

theorem frameTimeNs_eq_iff (hpos : 0 < header.fpsNumerator) (hnumerator : header.fpsNumerator < 2 ^ 16)
    (hindex : index < 2 ^ 32) :
    header.frameTimeNs index = header.dueNs index ↔ index * 10 ^ 9 * header.fpsDenominator < 2 ^ 64 := by
  have hfirst : index * 1000000000 % 2 ^ 64 = index * 10 ^ 9 := Nat.mod_eq_of_lt (by omega)
  rw [frameTimeNs, dueNs, hfirst, Nat.max_eq_left hpos]
  exact wrapped_div_eq_iff hpos (by omega)

theorem dueNs_mono {i j : ℕ} (h : i ≤ j) : header.dueNs i ≤ header.dueNs j :=
  Nat.div_le_div_right (Nat.mul_le_mul_right _ (Nat.mul_le_mul_right _ h))

end Header

/-- **When frame times are exact.** The times of an accepted video are exact, and then do not decrease, if and
only if the time of its last frame, before the division, fits in 64 bits. -/
theorem timesExact_iff {bytes : List UInt8} {header : Header} (h : parseHeader bytes = .ok header) :
    header.TimesExact ↔
      header.frames = 0 ∨ (header.frames - 1) * 10 ^ 9 * header.fpsDenominator < 2 ^ 64 := by
  obtain ⟨hpos, hnumerator, hframes⟩ := parseHeader_rate h
  constructor
  · intro hexact
    rcases Nat.eq_zero_or_pos header.frames with hzero | hsome
    · exact .inl hzero
    · have hlast : header.frames - 1 < header.frames := by omega
      exact .inr ((Header.frameTimeNs_eq_iff hpos hnumerator (by omega)).mp (hexact.exact _ hlast))
  · intro hlast
    have hexact : ∀ index < header.frames, header.frameTimeNs index = header.dueNs index := by
      intro index hindex
      rw [Header.frameTimeNs_eq_iff hpos hnumerator (by omega)]
      rcases hlast with hzero | hfits
      · omega
      · -- an earlier frame's product is no larger than the last one's
        refine lt_of_le_of_lt ?_ hfits
        exact Nat.mul_le_mul_right _ (Nat.mul_le_mul_right _ (by omega))
    refine ⟨hexact, ?_⟩
    intro i j hij hj
    rw [hexact i (by omega), hexact j hj]
    exact Header.dueNs_mono hij

/-- Two frames at 25 per second. -/
theorem timesExact_short :
    (Header.mk 4 2 25 1 2).TimesExact := by
  have hparse : parseHeader [0x42, 0x41, 0x56, 0x31, 4, 0, 2, 0, 25, 0, 1, 0, 2, 0, 0, 0] =
      .ok (Header.mk 4 2 25 1 2) := by
    decide +kernel
  exact (timesExact_iff hparse).mpr (.inr (by decide))

/-- Seven days at 30000/1001: the product of the last frame wraps, and its time is before the frame's before
it. -/
theorem timesExact_fails :
    ∃ header, parseHeader
        [0x42, 0x41, 0x56, 0x31, 4, 0, 2, 0, 0x30, 0x75, 0xe9, 0x03, 0x9d, 0x31, 0x19, 0x01] = .ok header ∧
      ¬ header.TimesExact ∧ header.frameTimeNs 18428316 ≠ header.dueNs 18428316 ∧
      header.frameTimeNs 18428316 < header.frameTimeNs 18428315 := by
  refine ⟨Header.mk 4 2 30000 1001 18428317, by decide +kernel, ?_, by decide, by decide⟩
  intro h
  exact absurd (h.mono 18428315 18428316 (by decide) (by decide)) (by decide)

end SaeOS.Bav
