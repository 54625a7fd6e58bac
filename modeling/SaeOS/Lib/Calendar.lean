import Mathlib.Data.Int.Order.Basic
import Mathlib.Logic.Function.Iterate

/-!
# The proleptic Gregorian calendar

Dates of any year, before and after the year 0, each valid by construction, the day after a date, and
moments of a day to the second. Months are also numbered through, twelve to a year, so that a statement
over all dates is one over the months and the days in them.
-/

namespace Calendar

/-- The leap years: every fourth, of the centuries only every fourth. -/
def IsLeap (year : ℤ) : Prop :=
  year % 4 = 0 ∧ (year % 100 ≠ 0 ∨ year % 400 = 0)

instance (year : ℤ) : Decidable (IsLeap year) :=
  inferInstanceAs (Decidable (_ ∧ _))

def daysInMonth (year : ℤ) (month : ℕ) : ℕ :=
  if month = 2 then if IsLeap year then 29 else 28
  else if month = 4 ∨ month = 6 ∨ month = 9 ∨ month = 11 then 30
  else 31

theorem daysInMonth_pos (year : ℤ) (month : ℕ) : 1 ≤ daysInMonth year month := by
  unfold daysInMonth
  split_ifs <;> decide

/-- A date that exists. -/
@[ext]
structure Date where
  year : ℤ
  month : ℕ
  day : ℕ
  month_pos : 1 ≤ month
  month_le : month ≤ 12
  day_pos : 1 ≤ day
  day_le : day ≤ daysInMonth year month

namespace Date

theorem january_pos : 1 ≤ 1 :=
  Nat.le_refl 1

theorem january_le : 1 ≤ 12 := by
  decide

/-- The first day of a month. -/
def first (year : ℤ) (month : ℕ) (hpos : 1 ≤ month) (hle : month ≤ 12) : Date :=
  ⟨year, month, 1, hpos, hle, Nat.le_refl 1, daysInMonth_pos year month⟩

/-- The next calendar day. -/
def next (d : Date) : Date :=
  if h : d.day < daysInMonth d.year d.month then
    { d with day := d.day + 1, day_pos := by omega, day_le := h }
  else if h : d.month < 12 then first d.year (d.month + 1) (by omega) h
  else first (d.year + 1) 1 january_pos january_le

/-- The date's month, counted through the years. -/
def monthIndex (d : Date) : ℤ :=
  12 * d.year + d.month - 1

/-- The month and the day determine the date. -/
theorem eq_of_monthIndex {d e : Date} (hmonth : d.monthIndex = e.monthIndex) (hday : d.day = e.day) :
    d = e := by
  have hd := d.month_pos
  have hd' := d.month_le
  have he := e.month_pos
  have he' := e.month_le
  unfold monthIndex at hmonth
  ext
  · omega
  · omega
  · exact hday

end Date

/-- A second of a day, by the clock. -/
@[ext]
structure Moment extends Date where
  hour : ℕ
  minute : ℕ
  second : ℕ
  hour_lt : hour < 24
  minute_lt : minute < 60
  second_lt : second < 60

namespace Moment

/-- Midnight, as the date begins. -/
def midnight (d : Date) : Moment :=
  ⟨d, 0, 0, 0, by decide, by decide, by decide⟩

/-- The next second. -/
def next (m : Moment) : Moment :=
  if h : m.second < 59 then { m with second := m.second + 1, second_lt := by omega }
  else if h : m.minute < 59 then
    { m with second := 0, minute := m.minute + 1, second_lt := by decide, minute_lt := by omega }
  else if h : m.hour < 23 then
    { m with
      second := 0, minute := 0, hour := m.hour + 1
      second_lt := by decide, minute_lt := by decide, hour_lt := by omega }
  else midnight m.toDate.next

/-- Seconds since midnight. -/
def secondOfDay (m : Moment) : ℕ :=
  m.hour * 3600 + m.minute * 60 + m.second

theorem secondOfDay_lt (m : Moment) : m.secondOfDay < 86400 := by
  have hhour := m.hour_lt
  have hminute := m.minute_lt
  have hsecond := m.second_lt
  unfold secondOfDay
  omega

@[simp]
theorem secondOfDay_midnight (d : Date) : (midnight d).secondOfDay = 0 := by
  simp only [secondOfDay, midnight, Nat.zero_mul]

/-- The date and the second of the day determine the moment. -/
theorem eq_of_secondOfDay {m n : Moment} (hdate : m.toDate = n.toDate)
    (hsecond : m.secondOfDay = n.secondOfDay) : m = n := by
  have hm := m.minute_lt
  have hm' := m.second_lt
  have hn := n.minute_lt
  have hn' := n.second_lt
  unfold secondOfDay at hsecond
  ext
  · rw [hdate]
  · rw [hdate]
  · rw [hdate]
  · omega
  · omega
  · omega

/-- The next second is the next one of the day, or the first of the next day. -/
theorem next_cases (m : Moment) :
    (m.next.toDate = m.toDate ∧ m.next.secondOfDay = m.secondOfDay + 1) ∨
      (m.next.toDate = m.toDate.next ∧ m.next.secondOfDay = 0 ∧ m.secondOfDay = 86399) := by
  have hhour := m.hour_lt
  have hminute := m.minute_lt
  have hsecond := m.second_lt
  unfold next
  split_ifs
  · refine .inl ⟨rfl, ?_⟩
    simp only [secondOfDay]
    omega
  · refine .inl ⟨rfl, ?_⟩
    simp only [secondOfDay]
    omega
  · refine .inl ⟨rfl, ?_⟩
    simp only [secondOfDay]
    omega
  · refine .inr ⟨rfl, secondOfDay_midnight _, ?_⟩
    rw [secondOfDay]
    omega

end Moment

/-! ## Counting -/

section Count

variable {α : Type} {next : α → α} {count : α → ℤ}

/-- A count that each step raises by one counts the steps. -/
theorem count_iterate (hnext : ∀ a, count (next a) = count a + 1) (n : ℕ) (a : α) :
    count (next^[n] a) = count a + n := by
  induction n generalizing a with
  | zero => exact (Int.add_zero _).symm
  | succ n ih =>
    rw [Function.iterate_succ_apply, ih, hnext]
    push_cast
    omega

/-- If it also tells any two items apart, the difference of two counts is the number of steps from the
one to the other. -/
theorem iterate_eq_iff (hnext : ∀ a, count (next a) = count a + 1) (hinj : Function.Injective count)
    (a b : α) (n : ℕ) : next^[n] a = b ↔ count b - count a = n := by
  rw [← hinj.eq_iff, count_iterate hnext]
  omega

end Count

end Calendar
