import SaeOS.Errno
import SaeOS.Lib.Calendar
import SaeOS.Libsaeos.Fs

/-!
# Clocks

`syscall/time.rs`: the seconds since the epoch of a date and time, and `struct timespec`. The dates'
arithmetic is given twice, over the integers for any year and in the `i64` of the code, where `none` is an
overflow.
-/

namespace SaeOS.Time

open Calendar

open Fs (toLeBytes)

open Libsaeos (fromLeBytes)

def nanosPerSecond : ℕ := 1000000000

/-- `struct timespec { i64 tv_sec; i64 tv_nsec; }`. -/
def encodeTimespec (nanoseconds : ℕ) : List UInt8 :=
  toLeBytes 8 (nanoseconds / nanosPerSecond) ++ toLeBytes 8 (nanoseconds % nanosPerSecond)

/-- `i64::from_le_bytes`. -/
def i64FromLeBytes (bytes : List UInt8) : ℤ :=
  let word := fromLeBytes bytes
  if word < 2 ^ 63 then word else word - 2 ^ 64

/-- A `struct timespec` as nanoseconds; `EINVAL` for a negative time or `tv_nsec` outside `0..1e9`. -/
def decodeTimespec (bytes : List UInt8) : Except Errno ℕ :=
  let seconds := i64FromLeBytes (bytes.take 8)
  let nanoseconds := i64FromLeBytes (bytes.drop 8)
  if seconds < 0 ∨ ¬ (0 ≤ nanoseconds ∧ nanoseconds < nanosPerSecond) then .error .EINVAL
  else .ok (min (min (seconds.toNat * nanosPerSecond) (2 ^ 64 - 1) + nanoseconds.toNat) (2 ^ 64 - 1))

/-- Days from 1970-01-01 to a proleptic Gregorian date. -/
def daysFromCivil (year : ℤ) (month day : ℕ) : ℤ :=
  let year := if month ≤ 2 then year - 1 else year
  let era := year / 400
  let yearOfEra := year - era * 400
  let month : ℤ := month
  let dayOfYear := (153 * (if month > 2 then month - 3 else month + 9) + 2).tdiv 5 + day - 1
  let dayOfEra := yearOfEra * 365 + yearOfEra.tdiv 4 - yearOfEra.tdiv 100 + dayOfYear
  era * 146097 + dayOfEra - 719468

/-- Seconds since the Unix epoch for a UTC date and time. -/
def unixSeconds (year : ℤ) (month day hour minute second : ℕ) : ℤ :=
  daysFromCivil year month day * 86400 + hour * 3600 + minute * 60 + second

/-- The result of an `i64` operation. -/
def i64 (n : ℤ) : Option ℤ :=
  if -2 ^ 63 ≤ n ∧ n < 2 ^ 63 then some n else none

/-- `days_from_civil` with every operation in `i64`. -/
def daysFromCivil64 (year : ℤ) (month day : ℕ) : Option ℤ := do
  let year ← (if month ≤ 2 then i64 (year - 1) else some year)
  let era := year / 400
  let eraStart ← i64 (era * 400)
  let yearOfEra ← i64 (year - eraStart)
  let month : ℤ := month
  let shifted ← i64 (if month > 2 then month - 3 else month + 9)
  let scaled ← i64 (153 * shifted)
  let scaled ← i64 (scaled + 2)
  let dayOfYear ← i64 (scaled.tdiv 5 + day)
  let dayOfYear ← i64 (dayOfYear - 1)
  let years ← i64 (yearOfEra * 365)
  let years ← i64 (years + yearOfEra.tdiv 4)
  let years ← i64 (years - yearOfEra.tdiv 100)
  let dayOfEra ← i64 (years + dayOfYear)
  let eras ← i64 (era * 146097)
  let days ← i64 (eras + dayOfEra)
  i64 (days - 719468)

/-- `unix_seconds` with every operation in `i64`. -/
def unixSeconds64 (year : ℤ) (month day hour minute second : ℕ) : Option ℤ := do
  let days ← daysFromCivil64 year month day
  let seconds ← i64 (days * 86400)
  let hours ← i64 (hour * 3600)
  let seconds ← i64 (seconds + hours)
  let minutes ← i64 (minute * 60)
  let seconds ← i64 (seconds + minutes)
  i64 (seconds + second)

/-! ## Days -/

/-- Days from the epoch to a date. -/
def days (d : Date) : ℤ :=
  daysFromCivil d.year d.month d.day

/-- Days before the month in the year that starts in March: the code's `(153 * m + 2) / 5`. -/
def daysBefore (month : ℕ) : ℤ :=
  (153 * (if 2 < month then (month : ℤ) - 3 else month + 9) + 2) / 5

/-- The year a month belongs to when years start in March. -/
def marchYear (year : ℤ) (month : ℕ) : ℤ :=
  if month ≤ 2 then year - 1 else year

/-- The era and the year of the era put together: one leap day for every fourth year, less the centuries,
with every fourth century. -/
theorem daysFromCivil_eq (year : ℤ) (month day : ℕ) :
    daysFromCivil year month day =
      365 * marchYear year month + marchYear year month / 4 - marchYear year month / 100 +
        marchYear year month / 400 + daysBefore month + day - 719469 := by
  have hera : 0 ≤ marchYear year month - marchYear year month / 400 * 400 := by omega
  have hmonth : (0 : ℤ) ≤ 153 * (if (month : ℤ) > 2 then (month : ℤ) - 3 else month + 9) + 2 := by
    split <;> omega
  have hcast : (month : ℤ) > 2 ↔ 2 < month := by omega
  change marchYear year month / 400 * 146097 +
    ((marchYear year month - marchYear year month / 400 * 400) * 365 +
      (marchYear year month - marchYear year month / 400 * 400).tdiv 4 -
      (marchYear year month - marchYear year month / 400 * 400).tdiv 100 +
      (Int.tdiv (153 * (if (month : ℤ) > 2 then (month : ℤ) - 3 else month + 9) + 2) 5 + day - 1)) -
      719468 = _
  rw [Int.tdiv_eq_ediv_of_nonneg hera, Int.tdiv_eq_ediv_of_nonneg hera,
    Int.tdiv_eq_ediv_of_nonneg hmonth, daysBefore, if_congr hcast rfl rfl]
  omega

/-- The dates of a month are counted from its first day. -/
theorem daysFromCivil_day (year : ℤ) (month day : ℕ) :
    daysFromCivil year month day = daysFromCivil year month 1 + (day - 1) := by
  rw [daysFromCivil_eq, daysFromCivil_eq]
  push_cast
  omega

/-- Within a year, the next month starts when this one is over. -/
theorem daysFromCivil_nextMonth (year : ℤ) {month : ℕ} (hpos : 1 ≤ month) (hlt : month < 12) :
    daysFromCivil year (month + 1) 1 = daysFromCivil year month 1 + daysInMonth year month := by
  rw [daysFromCivil_eq, daysFromCivil_eq]
  interval_cases month
  case «2» =>
    -- the leap day ends the year that starts in March
    by_cases hleap : IsLeap year
    · simp only [marchYear, daysBefore, daysInMonth, hleap]
      unfold IsLeap at hleap
      norm_num
      omega
    · simp only [marchYear, daysBefore, daysInMonth, hleap]
      unfold IsLeap at hleap
      norm_num
      omega
  all_goals
    simp only [marchYear, daysBefore, daysInMonth]
    norm_num
    try omega

/-- January follows December. -/
theorem daysFromCivil_nextYear (year : ℤ) :
    daysFromCivil (year + 1) 1 1 = daysFromCivil year 12 1 + daysInMonth year 12 := by
  rw [daysFromCivil_eq, daysFromCivil_eq]
  simp only [marchYear, daysBefore, daysInMonth]
  norm_num
  omega

/-- **The next day is counted one further.** -/
theorem days_next (d : Date) : days d.next = days d + 1 := by
  have hday := d.day_le
  unfold days Date.next
  split_ifs with hlast hmonth
  · rw [daysFromCivil_day, daysFromCivil_day d.year d.month d.day]
    push_cast
    omega
  · -- the last day of the month
    have hstart := daysFromCivil_nextMonth d.year d.month_pos hmonth
    rw [daysFromCivil_day d.year d.month d.day]
    change daysFromCivil d.year (d.month + 1) 1 = _
    omega
  · have hdecember : d.month = 12 := by
      have hle := d.month_le
      omega
    have hstart := daysFromCivil_nextYear d.year
    rw [daysFromCivil_day d.year d.month d.day]
    change daysFromCivil (d.year + 1) 1 1 = _
    rw [hdecember] at hlast hday ⊢
    omega

/-! ### Different dates have different counts -/

/-- The first day of a month that is counted through the years. -/
def monthStart (index : ℤ) : ℤ :=
  daysFromCivil (index / 12) ((index % 12).toNat + 1) 1

def monthLength (index : ℤ) : ℕ :=
  daysInMonth (index / 12) ((index % 12).toNat + 1)

theorem monthStart_succ (index : ℤ) : monthStart (index + 1) = monthStart index + monthLength index := by
  unfold monthStart monthLength
  by_cases hlast : index % 12 = 11
  · have hyear : (index + 1) / 12 = index / 12 + 1 := by omega
    have hmonth : (index + 1) % 12 = 0 := by omega
    rw [hyear, hmonth, hlast]
    exact daysFromCivil_nextYear (index / 12)
  · have hyear : (index + 1) / 12 = index / 12 := by omega
    have hmonth : ((index + 1) % 12).toNat = (index % 12).toNat + 1 := by omega
    rw [hyear, hmonth]
    exact daysFromCivil_nextMonth (index / 12) (by omega) (by omega)

theorem monthStart_mono : Monotone monthStart := by
  refine monotone_int_of_le_succ fun index => ?_
  rw [monthStart_succ]
  omega

/-- A date is counted from the first day of its month. -/
theorem days_eq (d : Date) :
    days d = monthStart d.monthIndex + (d.day - 1) ∧ d.day ≤ monthLength d.monthIndex := by
  have hpos := d.month_pos
  have hle := d.month_le
  have hyear : d.monthIndex / 12 = d.year := by
    unfold Date.monthIndex
    omega
  have hmonth : (d.monthIndex % 12).toNat + 1 = d.month := by
    unfold Date.monthIndex
    omega
  rw [days, monthStart, monthLength, hyear, hmonth]
  exact ⟨daysFromCivil_day d.year d.month d.day, d.day_le⟩

/-- A month's days all come before those of later months. -/
theorem days_lt_of_month {d e : Date} (h : d.monthIndex < e.monthIndex) : days d < days e := by
  obtain ⟨hd, hday⟩ := days_eq d
  obtain ⟨he, -⟩ := days_eq e
  have hstart := monthStart_mono (show d.monthIndex + 1 ≤ e.monthIndex from h)
  have hpos := e.day_pos
  rw [monthStart_succ] at hstart
  omega

theorem days_injective : Function.Injective days := by
  intro d e h
  have hmonth : d.monthIndex = e.monthIndex := by
    rcases lt_trichotomy d.monthIndex e.monthIndex with hlt | heq | hgt
    · exact absurd h (days_lt_of_month hlt).ne
    · exact heq
    · exact absurd h (days_lt_of_month hgt).ne'
  obtain ⟨hd, -⟩ := days_eq d
  obtain ⟨he, -⟩ := days_eq e
  rw [hmonth] at hd
  exact Date.eq_of_monthIndex hmonth (by omega)

/-! ## Seconds -/

/-- Seconds from the epoch to a moment. -/
def seconds (m : Moment) : ℤ :=
  unixSeconds m.year m.month m.day m.hour m.minute m.second

theorem seconds_eq (m : Moment) : seconds m = days m.toDate * 86400 + m.secondOfDay := by
  rw [seconds, unixSeconds, Moment.secondOfDay, days]
  push_cast
  omega

theorem seconds_next (m : Moment) : seconds m.next = seconds m + 1 := by
  rw [seconds_eq, seconds_eq]
  rcases m.next_cases with ⟨hdate, hsecond⟩ | ⟨hdate, hsecond, hlast⟩
  · rw [hdate, hsecond]
    push_cast
    omega
  · rw [hdate, hsecond, hlast, days_next]
    omega

theorem seconds_injective : Function.Injective seconds := by
  intro m n h
  have hm := m.secondOfDay_lt
  have hn := n.secondOfDay_lt
  rw [seconds_eq, seconds_eq] at h
  exact Moment.eq_of_secondOfDay (days_injective (by omega)) (by omega)

/-- Midnight of 1970-01-01. -/
def epoch : Moment :=
  .midnight (.first 1970 1 Calendar.Date.january_pos Calendar.Date.january_le)

theorem seconds_epoch : seconds epoch = 0 := by
  decide

/-! ## Within `i64` -/

theorem i64_eq {n : ℤ} (hge : -9223372036854775808 ≤ n) (hlt : n < 9223372036854775808) :
    i64 n = some n :=
  if_pos ⟨by omega, by omega⟩

theorem some_bind (n : ℤ) (f : ℤ → Option ℤ) : (some n >>= f) = f n :=
  rfl

/-- An operation that does not overflow goes on with its result. -/
theorem i64_bind {n : ℤ} (hge : -9223372036854775808 ≤ n) (hlt : n < 9223372036854775808)
    (f : ℤ → Option ℤ) : (i64 n >>= f) = f n := by
  rw [i64_eq hge hlt, some_bind]

/-- Dates of years up to 2^54 before and after the year 0, and the next ones, are counted without an
overflow. -/
theorem daysFromCivil64_eq {year : ℤ} (hyear : year.natAbs ≤ 2 ^ 54 + 1) {month day : ℕ}
    (hmonth : month < 2 ^ 32) (hday : day < 2 ^ 32) :
    daysFromCivil64 year month day = some (daysFromCivil year month day) := by
  have hyear' : (if month ≤ 2 then i64 (year - 1) else some year) = some (marchYear year month) := by
    rw [marchYear]
    split
    · exact i64_eq (by omega) (by omega)
    · rfl
  have hmarch : (marchYear year month).natAbs ≤ 2 ^ 54 + 2 := by
    rw [marchYear]
    split <;> omega
  have hshifted : (0 : ℤ) ≤ (if (month : ℤ) > 2 then (month : ℤ) - 3 else month + 9) ∧
      (if (month : ℤ) > 2 then (month : ℤ) - 3 else month + 9) < 2 ^ 32 := by
    split <;> omega
  rw [daysFromCivil64, hyear', some_bind]
  change _ = some (marchYear year month / 400 * 146097 +
    ((marchYear year month - marchYear year month / 400 * 400) * 365 +
      (marchYear year month - marchYear year month / 400 * 400).tdiv 4 -
      (marchYear year month - marchYear year month / 400 * 400).tdiv 100 +
      (Int.tdiv (153 * (if (month : ℤ) > 2 then (month : ℤ) - 3 else month + 9) + 2) 5 + day - 1)) -
      719468)
  generalize marchYear year month = march at hmarch ⊢
  -- the era is as small as the year divided by 400, and the year of the era is one of it
  have hera : (march / 400).natAbs ≤ 2 ^ 46 - 2 ^ 44 := by omega
  have hofEra : 0 ≤ march - march / 400 * 400 ∧ march - march / 400 * 400 < 400 := by omega
  have hstart : i64 (march / 400 * 400) = some (march / 400 * 400) := i64_eq (by omega) (by omega)
  dsimp only
  rw [hstart, some_bind]
  generalize (if (month : ℤ) > 2 then (month : ℤ) - 3 else month + 9) = shifted at hshifted ⊢
  generalize march - march / 400 * 400 = yearOfEra at hofEra ⊢
  generalize march / 400 = era at hera ⊢
  have hfours := Int.tdiv_eq_ediv_of_nonneg (b := 4) hofEra.1
  have hcenturies := Int.tdiv_eq_ediv_of_nonneg (b := 100) hofEra.1
  have hscaled := Int.tdiv_eq_ediv_of_nonneg (b := 5) (show 0 ≤ 153 * shifted + 2 by omega)
  clear hstart hmarch hyear
  -- operation by operation, none of them leaves the range
  repeat rw [i64_bind (by omega) (by omega)]
  rw [i64_eq (by omega) (by omega)]

theorem day_le_31 (d : Date) : d.day ≤ 31 := by
  refine d.day_le.trans ?_
  unfold daysInMonth
  split_ifs <;> decide

theorem days64_eq (d : Date) (hyear : d.year.natAbs ≤ 2 ^ 54 + 1) :
    daysFromCivil64 d.year d.month d.day = some (days d) := by
  have hmonth := d.month_le
  have hday := day_le_31 d
  exact daysFromCivil64_eq hyear (by omega) (by omega)

theorem natAbs_year_next (d : Date) : d.next.year.natAbs ≤ d.year.natAbs + 1 := by
  unfold Date.next
  split_ifs
  · exact Nat.le_succ _
  · exact Nat.le_succ _
  · exact Int.natAbs_add_le d.year 1

/-- Moments of years up to 2^38 before and after the year 0 are counted without an overflow. -/
theorem unixSeconds64_eq (m : Moment) (hyear : m.year.natAbs ≤ 2 ^ 38) :
    unixSeconds64 m.year m.month m.day m.hour m.minute m.second = some (seconds m) := by
  have hmonth := m.month_le
  have hday := day_le_31 m.toDate
  have hhour := m.hour_lt
  have hminute := m.minute_lt
  have hsecond := m.second_lt
  have hbefore : 0 ≤ daysBefore m.month ∧ daysBefore m.month ≤ 366 := by
    unfold daysBefore
    split <;> omega
  have hmarch : (marchYear m.year m.month).natAbs ≤ 2 ^ 38 + 1 := by
    unfold marchYear
    split <;> omega
  have hdays : -105553116266496 ≤ daysFromCivil m.year m.month m.day ∧
      daysFromCivil m.year m.month m.day ≤ 105553116266496 := by
    rw [daysFromCivil_eq]
    omega
  clear hbefore hmarch
  rw [unixSeconds64, days64_eq m.toDate (by omega), some_bind, seconds, unixSeconds, days]
  generalize daysFromCivil m.year m.month m.day = d at hdays ⊢
  repeat rw [i64_bind (by omega) (by omega)]
  rw [i64_eq (by omega) (by omega)]

/-! ## Time specifications -/

theorem i64FromLeBytes_toLeBytes {n : ℕ} (h : n < 2 ^ 63) : i64FromLeBytes (toLeBytes 8 n) = n := by
  have hword : n < 2 ^ (8 * 8) := h.trans (Nat.pow_lt_pow_right (by decide) (by decide))
  rw [i64FromLeBytes, Libsaeos.fromLeBytes_toLeBytes, Nat.mod_eq_of_lt hword]
  exact if_pos h

/-- **A time that is written for a program is read back.** -/
theorem decodeTimespec_encodeTimespec {n : ℕ} (h : n < 2 ^ 64) :
    decodeTimespec (encodeTimespec n) = .ok n := by
  have hlength := Libsaeos.length_toLeBytes 8 (n / nanosPerSecond)
  have hdivmod := Nat.div_add_mod' n nanosPerSecond
  have hmod := Nat.mod_lt n (show 0 < nanosPerSecond by decide)
  have hdiv : n / nanosPerSecond < 2 ^ 63 :=
    lt_of_le_of_lt (Nat.div_le_div_right h.le) (by decide)
  rw [decodeTimespec, encodeTimespec, List.take_left' hlength, List.drop_left' hlength,
    i64FromLeBytes_toLeBytes hdiv, i64FromLeBytes_toLeBytes (hmod.trans (by decide))]
  have hseconds : n / nanosPerSecond * nanosPerSecond ≤ 2 ^ 64 - 1 := by omega
  have hvalid : ¬ (((n / nanosPerSecond : ℕ) : ℤ) < 0 ∨ ¬ (0 ≤ ((n % nanosPerSecond : ℕ) : ℤ) ∧
      ((n % nanosPerSecond : ℕ) : ℤ) < nanosPerSecond)) := by
    rintro (hneg | hrange)
    · exact absurd hneg (Int.natCast_nonneg _).not_gt
    · exact hrange ⟨Int.natCast_nonneg _, Int.ofNat_lt.mpr hmod⟩
  rw [if_neg hvalid, Int.toNat_natCast, Int.toNat_natCast, min_eq_left hseconds, hdivmod,
    min_eq_left (by omega)]

/-- **The calendar is exact.** From every date to the next one `days_from_civil` goes up by one, from 0
for the first of January 1970: by its formula for every year, and in the arithmetic of `i64` for years up to
2^54 before and after the year 0. So `unix_seconds` is the number of seconds from the epoch to a moment, or
from the moment to the epoch where it is negative, for years up to 2^38. A `timespec` that was encoded
decodes to the same nanoseconds. -/
theorem calendar_exact :
    (∀ d : Date, daysFromCivil d.next.year d.next.month d.next.day =
      daysFromCivil d.year d.month d.day + 1) ∧
    (∀ d : Date, d.year.natAbs ≤ 2 ^ 54 →
      ∃ n, daysFromCivil64 d.year d.month d.day = some n ∧
        daysFromCivil64 d.next.year d.next.month d.next.day = some (n + 1)) ∧
    daysFromCivil64 1970 1 1 = some 0 ∧
    (∀ (m : Moment) (n : ℕ), m.year.natAbs ≤ 2 ^ 38 → (Moment.next^[n] epoch = m ↔
      unixSeconds64 m.year m.month m.day m.hour m.minute m.second = some ↑n)) ∧
    (∀ (m : Moment) (n : ℕ), m.year.natAbs ≤ 2 ^ 38 → (Moment.next^[n] m = epoch ↔
      unixSeconds64 m.year m.month m.day m.hour m.minute m.second = some (-(n : ℤ)))) ∧
    ∀ n < 2 ^ 64, decodeTimespec (encodeTimespec n) = .ok n := by
  refine ⟨days_next, fun d hyear => ?_, by decide, fun m n hyear => ?_, fun m n hyear => ?_,
    fun n h => decodeTimespec_encodeTimespec h⟩
  · have hnext := (natAbs_year_next d).trans (Nat.succ_le_succ hyear)
    refine ⟨days d, days64_eq d (hyear.trans (Nat.le_succ _)), ?_⟩
    rw [days64_eq d.next hnext, days_next]
  · rw [iterate_eq_iff seconds_next seconds_injective, seconds_epoch, sub_zero,
      unixSeconds64_eq m hyear, Option.some.injEq]
  · rw [iterate_eq_iff seconds_next seconds_injective, seconds_epoch, zero_sub, neg_eq_iff_eq_neg,
      unixSeconds64_eq m hyear, Option.some.injEq]

/-- The last second of a leap day before the year 0, and what a `timespec` keeps of 1.5 seconds. -/
theorem calendar_exact_leapDay :
    (∃ n, Moment.next^[n] ⟨⟨-4, 2, 29, by decide, by decide, by decide, by decide⟩, 23, 59, 59,
        by decide, by decide, by decide⟩ = epoch) ∧
      daysFromCivil64 (-4) 3 1 = (daysFromCivil64 (-4) 2 29).map (· + 1) ∧
      decodeTimespec (encodeTimespec 1500000000) = .ok 1500000000 := by
  obtain ⟨-, hdays, -, -, hbefore, htimespec⟩ := calendar_exact
  refine ⟨⟨62288265601, (hbefore _ _ (by decide)).mpr (by decide)⟩, ?_, htimespec _ (by decide)⟩
  obtain ⟨n, htoday, htomorrow⟩ := hdays ⟨-4, 2, 29, by decide, by decide, by decide, by decide⟩
    (by decide)
  exact htomorrow.trans (congrArg (Option.map (· + 1)) htoday.symm)

/-- The days up to the first of March of the year 2^55 do not fit into an `i64`. -/
theorem not_calendar_exact : ¬ ∀ d : Date, ∃ n, daysFromCivil64 d.year d.month d.day = some n ∧
    daysFromCivil64 d.next.year d.next.month d.next.day = some (n + 1) := by
  intro hexact
  obtain ⟨n, hdays, -⟩ := hexact (.first (2 ^ 55) 3 (by decide) (by decide))
  have hoverflow : daysFromCivil64 (2 ^ 55) 3 1 = none := by decide
  cases hoverflow.symm.trans hdays

end SaeOS.Time
