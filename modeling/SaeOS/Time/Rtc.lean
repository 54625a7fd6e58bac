import SaeOS.Syscall.Time

/-!
# The clock chip

`time/mod.rs`, module `rtc`: the registers of the CMOS clock and the time they stand for. The chip keeps its
numbers in BCD or binary and its hours from 0 to 23 or from 1 to 12, as two bits of a status register say.
-/

namespace SaeOS.Time

open Calendar

structure RtcTime where
  year : UInt16
  month : UInt8
  day : UInt8
  hour : UInt8
  minute : UInt8
  second : UInt8
deriving DecidableEq

def statusB24Hour : UInt8 := (1 : UInt8) <<< 1
def statusBBinary : UInt8 := (1 : UInt8) <<< 2

structure RawRtc where
  second : UInt8
  minute : UInt8
  hour : UInt8
  day : UInt8
  month : UInt8
  year : UInt8
  statusB : UInt8
deriving DecidableEq

def bcd (value : UInt8) : UInt8 :=
  (value &&& (0x0f : UInt8)) + (value >>> (4 : UInt8)) * 10

def decode (binary : Bool) (value : UInt8) : UInt8 :=
  if binary then value else bcd value

/-- The hour of the register, whose high bit is the PM flag of a clock with 12 hours. -/
def convertHour (raw : RawRtc) : UInt8 :=
  let hour := decode (raw.statusB &&& statusBBinary ≠ 0) (raw.hour &&& 0x7f)
  if raw.statusB &&& statusB24Hour = 0 ∧ raw.hour &&& 0x80 ≠ 0 then
    if hour = 12 then 0 else hour + 12
  else hour

def convert (raw : RawRtc) : RtcTime :=
  let decode := decode (raw.statusB &&& statusBBinary ≠ 0)
  { year := 2000 + (decode raw.year).toUInt16
    month := decode raw.month
    day := decode raw.day
    hour := convertHour raw
    minute := decode raw.minute
    second := decode raw.second }

/-- The Unix time of what the clock says. -/
def RtcTime.unixSeconds (t : RtcTime) : Option ℤ :=
  unixSeconds64 t.year.toNat t.month.toNat t.day.toNat t.hour.toNat t.minute.toNat t.second.toNat

/-! ## The registers -/

/-- A number below 100 as the chip keeps it. -/
def encodeDigits (binary : Bool) (n : ℕ) : UInt8 :=
  if binary then UInt8.ofNat n else UInt8.ofNat (n / 10 * 16 + n % 10)

/-- The hours of half a day go 12, 1, 2, .. 11, with the high bit in the afternoon. -/
def encodeHour (statusB : UInt8) (hour : ℕ) : UInt8 :=
  let digits := encodeDigits (statusB &&& statusBBinary ≠ 0)
  if statusB &&& statusB24Hour ≠ 0 then digits hour
  else digits (if hour % 12 = 0 then 12 else hour % 12) ||| (if 12 ≤ hour then 0x80 else 0)

/-- The registers at a moment of a year from 2000 to 2099. -/
def encode (statusB : UInt8) (m : Moment) : RawRtc :=
  let digits := encodeDigits (statusB &&& statusBBinary ≠ 0)
  { second := digits m.second
    minute := digits m.minute
    hour := encodeHour statusB m.hour
    day := digits m.day
    month := digits m.month
    year := digits (m.year % 100).toNat
    statusB := statusB }

/-- The clock says this moment. -/
def RtcTime.Is (t : RtcTime) (m : Moment) : Prop :=
  t.year.toNat = m.year ∧ t.month.toNat = m.month ∧ t.day.toNat = m.day ∧ t.hour.toNat = m.hour ∧
    t.minute.toNat = m.minute ∧ t.second.toNat = m.second

instance (t : RtcTime) (m : Moment) : Decidable (t.Is m) :=
  inferInstanceAs (Decidable (_ ∧ _))

/-! ## Decoding -/

/-- Two digits are read back in either form. -/
theorem decode_encodeDigits (binary : Bool) {n : ℕ} (h : n < 100) :
    (decode binary (encodeDigits binary n)).toNat = n := by
  have hdigits : ∀ binary : Bool, ∀ n : Fin 100, (decode binary (encodeDigits binary n)).toNat = n := by
    decide +kernel
  exact hdigits binary ⟨n, h⟩

/-- The hour of a 12-hour clock is read back unless it is the one of midnight or noon. -/
theorem convertHour_encode_iff (statusB : UInt8) (m : Moment) :
    (convertHour (encode statusB m)).toNat = m.hour ↔ statusB &&& statusB24Hour ≠ 0 ∨ m.hour % 12 ≠ 0 := by
  -- the hour depends on the two mode bits alone
  have hhours : ∀ binary long : Bool, ∀ hour : Fin 24,
      let digits := encodeDigits binary
      let raw := if long then digits hour
        else digits (if hour.val % 12 = 0 then 12 else hour.val % 12) ||| (if 12 ≤ hour.val then 0x80 else 0)
      let value := decode binary (raw &&& 0x7f)
      (if ¬ long ∧ raw &&& 0x80 ≠ 0 then (if value = 12 then 0 else value + 12) else value).toNat = hour.val ↔
        long ∨ hour.val % 12 ≠ 0 := by
    decide +kernel
  have h := hhours (statusB &&& statusBBinary ≠ 0) (statusB &&& statusB24Hour ≠ 0) ⟨m.hour, m.hour_lt⟩
  simpa only [convertHour, encode, encodeHour, decide_eq_true_iff, not_not, ne_eq] using h

theorem year_convert_encode (statusB : UInt8) {m : Moment} (hfrom : 2000 ≤ m.year) (hto : m.year ≤ 2099) :
    ((convert (encode statusB m)).year.toNat : ℤ) = m.year := by
  have hyear : (m.year % 100).toNat < 100 := by omega
  have hdecode : (decode ((encode statusB m).statusB &&& statusBBinary ≠ 0) (encode statusB m).year).toNat =
      (m.year % 100).toNat := decode_encodeDigits _ hyear
  rw [convert, UInt16.toNat_add, UInt8.toNat_toUInt16, hdecode]
  change (((2000 + (m.year % 100).toNat) % 2 ^ 16 : ℕ) : ℤ) = m.year
  omega

/-- What the clock says is the moment that the registers were written for, if the hour is. -/
theorem is_convert_encode_iff (statusB : UInt8) {m : Moment} (hfrom : 2000 ≤ m.year) (hto : m.year ≤ 2099) :
    (convert (encode statusB m)).Is m ↔ statusB &&& statusB24Hour ≠ 0 ∨ m.hour % 12 ≠ 0 := by
  have hday : m.day ≤ 31 := by
    refine m.day_le.trans ?_
    unfold daysInMonth
    split_ifs <;> decide
  have hmonth := m.month_le
  have hminute := m.minute_lt
  have hsecond := m.second_lt
  rw [← convertHour_encode_iff]
  constructor
  · rintro ⟨-, -, -, hhour, -⟩
    exact hhour
  · intro hhour
    exact ⟨year_convert_encode statusB hfrom hto, decode_encodeDigits _ (by omega),
      decode_encodeDigits _ (by omega), hhour, decode_encodeDigits _ (by omega), decode_encodeDigits _ (by omega)⟩

theorem RtcTime.Is.unixSeconds_eq {t : RtcTime} {m : Moment} (h : t.Is m) (hfrom : 2000 ≤ m.year)
    (hto : m.year ≤ 2099) : t.unixSeconds = some (seconds m) := by
  obtain ⟨hyear, hmonth, hday, hhour, hminute, hsecond⟩ := h
  rw [RtcTime.unixSeconds, hyear, hmonth, hday, hhour, hminute, hsecond]
  exact unixSeconds64_eq m (by omega)

/-- A moment from the epoch on is as many seconds after it as `unix_seconds` says. -/
theorem iterate_seconds {m : Moment} (h : 1970 ≤ m.year) :
    ∃ n : ℕ, seconds m = n ∧ Moment.next^[n] epoch = m := by
  have hnonneg : 0 ≤ seconds m := by
    have hday := m.day_pos
    have hmonth := m.month_pos
    have hle := m.month_le
    rw [seconds_eq, days, daysFromCivil_eq]
    unfold marchYear daysBefore
    split_ifs <;> omega
  obtain ⟨n, hn⟩ := Int.eq_ofNat_of_zero_le hnonneg
  refine ⟨n, hn, ?_⟩
  rw [iterate_eq_iff seconds_next seconds_injective, seconds_epoch, sub_zero, hn]

/-- **The clock is read right**, in the mode of any status register and for every moment from 2000 to 2099,
exactly if it counts 24 hours or the hour is not that of midnight or noon. The time is then the exact Unix
time. -/
theorem convert_encode_iff (statusB : UInt8) (m : Moment) (hfrom : 2000 ≤ m.year) (hto : m.year ≤ 2099) :
    ((convert (encode statusB m)).Is m ∧
      ∃ n : ℕ, (convert (encode statusB m)).unixSeconds = some ↑n ∧ Moment.next^[n] epoch = m) ↔
    statusB &&& statusB24Hour ≠ 0 ∨ m.hour % 12 ≠ 0 := by
  rw [← is_convert_encode_iff statusB hfrom hto]
  refine and_iff_left_of_imp fun h => ?_
  obtain ⟨n, hn, hiterate⟩ := iterate_seconds (show 1970 ≤ m.year by omega)
  exact ⟨n, (h.unixSeconds_eq hfrom hto).trans (congrArg some hn), hiterate⟩

/-- One o'clock in the afternoon, in BCD digits with the PM flag. -/
theorem convert_encode_iff_afternoon :
    let m : Moment := ⟨.first 2024 1 (by decide) (by decide), 13, 0, 0, by decide, by decide, by decide⟩
    (convert (encode 0 m)).Is m :=
  ((convert_encode_iff 0 ⟨.first 2024 1 (by decide) (by decide), 13, 0, 0, by decide, by decide, by decide⟩
    (by decide) (by decide)).mpr (.inr (by decide))).1

/-- Noon is read as midnight. -/
theorem convert_noon : ¬ ∀ (statusB : UInt8) (m : Moment), 2000 ≤ m.year → m.year ≤ 2099 →
    (convert (encode statusB m)).Is m ∧
      ∃ n : ℕ, (convert (encode statusB m)).unixSeconds = some ↑n ∧ Moment.next^[n] epoch = m := by
  intro h
  have hnoon := h 0 ⟨.first 2024 1 (by decide) (by decide), 12, 0, 0, by decide, by decide, by decide⟩
    (by decide) (by decide)
  have hmidnight : (convert (encode 0 ⟨.first 2024 1 (by decide) (by decide), 12, 0, 0, by decide, by decide,
      by decide⟩)).hour.toNat = 0 := by
    decide +kernel
  exact absurd (hmidnight.symm.trans hnoon.1.2.2.2.1) (by decide)

end SaeOS.Time
