import Mathlib.Algebra.BigOperators.Intervals
import Mathlib.Algebra.Order.BigOperators.Group.Finset
import Mathlib.Tactic.IntervalCases

/-!
# The Gregorian calendar

Dates with a time of day, and the time that has passed since the beginning of a year, in days and in
milliseconds. Days are counted as the calendar defines them: the days of the years gone by, of the
months gone by in this year, and of this month. Later dates count more (`DateTime.millisSince_lt`).
-/

namespace AlmeidaOS

/-- Every fourth year, but of the centuries only every fourth. -/
def IsLeap (year : Nat) : Prop := 4 ∣ year ∧ (¬ 100 ∣ year ∨ 400 ∣ year)

instance (year : Nat) : Decidable (IsLeap year) := inferInstanceAs (Decidable (_ ∧ _))

def daysInYear (year : Nat) : Nat := if IsLeap year then 366 else 365

/-- The days of a month, 1 for January. -/
def daysInMonth (year month : Nat) : Nat :=
  if month = 2 then if IsLeap year then 29 else 28
  else if month = 4 ∨ month = 6 ∨ month = 9 ∨ month = 11 then 30
  else 31

/-- The days from the beginning of one year to the beginning of another. -/
def daysBetween (epoch year : Nat) : Nat := ∑ k ∈ Finset.range (year - epoch), daysInYear (epoch + k)

/-- The days of a year before a month. -/
def daysBeforeMonth (year month : Nat) : Nat := ∑ k ∈ Finset.range (month - 1), daysInMonth year (k + 1)

/-- A date and a time of day. -/
structure DateTime where
  year : Nat
  month : Nat
  day : Nat
  hour : Nat
  minute : Nat
  second : Nat
deriving DecidableEq, Repr

namespace DateTime

/-- The date is in the calendar and the time of day on the clock. -/
structure Valid (t : DateTime) : Prop where
  month : 1 ≤ t.month ∧ t.month ≤ 12
  day : 1 ≤ t.day ∧ t.day ≤ daysInMonth t.year t.month
  hour : t.hour < 24
  minute : t.minute < 60
  second : t.second < 60

/-- The days from the beginning of the year `epoch` to the date. -/
def daysSince (epoch : Nat) (t : DateTime) : Nat :=
  daysBetween epoch t.year + daysBeforeMonth t.year t.month + (t.day - 1)

/-- The seconds of the day before the time of day. -/
def secondOfDay (t : DateTime) : Nat := (t.hour * 60 + t.minute) * 60 + t.second

/-- The milliseconds from the beginning of the year `epoch` to the date and time. -/
def millisSince (epoch : Nat) (t : DateTime) : Nat := (t.daysSince epoch * 86400 + t.secondOfDay) * 1000

/-- The earlier day. -/
def DayBefore (t u : DateTime) : Prop :=
  t.year < u.year ∨ t.year = u.year ∧ (t.month < u.month ∨ t.month = u.month ∧ t.day < u.day)

/-- The earlier date and time: the years decide, then the months, and so on. -/
def Before (t u : DateTime) : Prop :=
  t.DayBefore u ∨ (t.year = u.year ∧ t.month = u.month ∧ t.day = u.day) ∧
    (t.hour < u.hour ∨ t.hour = u.hour ∧ (t.minute < u.minute ∨ t.minute = u.minute ∧ t.second < u.second))

/-- A second later, with a carry into the minute, the hour, the day, the month and the year. -/
def next (t : DateTime) : DateTime :=
  if t.second < 59 then { t with second := t.second + 1 }
  else if t.minute < 59 then { t with second := 0, minute := t.minute + 1 }
  else if t.hour < 23 then { t with second := 0, minute := 0, hour := t.hour + 1 }
  else if t.day < daysInMonth t.year t.month then { t with second := 0, minute := 0, hour := 0, day := t.day + 1 }
  else if t.month < 12 then { t with second := 0, minute := 0, hour := 0, day := 1, month := t.month + 1 }
  else ⟨t.year + 1, 1, 1, 0, 0, 0⟩

end DateTime

/-! ## Counting days -/

section Days

variable {epoch year : Nat}

theorem daysBetween_succ (le : epoch ≤ year) :
    daysBetween epoch (year + 1) = daysBetween epoch year + daysInYear year := by
  rw [daysBetween, Nat.succ_sub le, Finset.sum_range_succ, Nat.add_sub_cancel' le]
  rfl

theorem daysBetween_mono {later : Nat} (le : year ≤ later) : daysBetween epoch year ≤ daysBetween epoch later := by
  apply Finset.sum_le_sum_of_subset
  apply Finset.range_mono
  omega

theorem daysBeforeMonth_mono (year : Nat) {month later : Nat} (le : month ≤ later) :
    daysBeforeMonth year month ≤ daysBeforeMonth year later := by
  apply Finset.sum_le_sum_of_subset
  apply Finset.range_mono
  omega

theorem daysBeforeMonth_succ (year : Nat) {month : Nat} (pos : 1 ≤ month) :
    daysBeforeMonth year (month + 1) = daysBeforeMonth year month + daysInMonth year month := by
  obtain ⟨m, rfl⟩ : ∃ m, month = m + 1 := ⟨month - 1, by omega⟩
  exact Finset.sum_range_succ ..

/-- The days before each month of a year that is not a leap year, and of the whole year. -/
def commonDaysBefore : List Nat := [0, 31, 59, 90, 120, 151, 181, 212, 243, 273, 304, 334, 365]

/-- A leap year has one more behind February. -/
theorem daysBeforeMonth_eq (year : Nat) {month : Nat} (pos : 1 ≤ month) (last : month ≤ 13) :
    daysBeforeMonth year month = commonDaysBefore.getD (month - 1) 0 + if 2 < month ∧ IsLeap year then 1 else 0 := by
  induction month, pos using Nat.le_induction with
  | base => rfl
  | succ month pos ih =>
    rw [daysBeforeMonth_succ year pos, ih (Nat.le_of_succ_le last)]
    unfold daysInMonth commonDaysBefore
    have bound : month ≤ 12 := Nat.le_of_succ_le_succ last
    clear ih last
    by_cases leap : IsLeap year
    · simp only [leap, and_true, if_true]
      interval_cases month <;> rfl
    · simp only [leap, and_false, if_false]
      interval_cases month <;> rfl

theorem daysInMonth_le (year month : Nat) : daysInMonth year month ≤ 31 := by
  unfold daysInMonth
  repeat' split
  all_goals decide

theorem daysInYear_eq (year : Nat) : daysInYear year = daysBeforeMonth year 13 := by
  rw [daysBeforeMonth_eq year (by decide) (by decide), daysInYear, commonDaysBefore]
  split <;> simp [*]

end Days

/-! ## Later dates count more -/

namespace DateTime

variable {t u : DateTime} {epoch : Nat}

theorem next_second (lt : t.second < 60) : t.next.second = (t.second + 1) % 60 := by
  unfold next
  split
  · rename_i less
    exact (Nat.mod_eq_of_lt (Nat.succ_lt_succ less)).symm
  · have last : t.second = 59 := by omega
    rw [last]
    repeat' split
    all_goals rfl

theorem Valid.second_of_day_lt (valid : t.Valid) : t.secondOfDay < 86400 := by
  have := valid.hour
  have := valid.minute
  have := valid.second
  unfold secondOfDay
  omega

/-- A day lies before the end of its month. -/
theorem Valid.day_lt (valid : t.Valid) :
    daysBeforeMonth t.year t.month + (t.day - 1) < daysBeforeMonth t.year (t.month + 1) := by
  have := valid.day
  rw [daysBeforeMonth_succ t.year valid.month.1]
  omega

theorem Valid.daysSince_lt (valid : t.Valid) (since : epoch ≤ t.year) (before : t.DayBefore u) :
    t.daysSince epoch < u.daysSince epoch := by
  have inMonth := valid.day_lt
  unfold daysSince
  rcases before with years | ⟨years, months | ⟨months, days⟩⟩
  · have inYear : daysBeforeMonth t.year (t.month + 1) ≤ daysInYear t.year := by
      rw [daysInYear_eq]
      exact daysBeforeMonth_mono t.year (by have := valid.month.2; omega)
    have gone : daysBetween epoch (t.year + 1) ≤ daysBetween epoch u.year := daysBetween_mono years
    rw [daysBetween_succ since] at gone
    omega
  · have gone : daysBeforeMonth t.year (t.month + 1) ≤ daysBeforeMonth t.year u.month := daysBeforeMonth_mono t.year months
    rw [← years]
    omega
  · have first := valid.day.1
    rw [← years, ← months]
    omega

/-- **Later dates count more.** -/
theorem Valid.millisSince_lt (valid : t.Valid) (valid' : u.Valid) (since : epoch ≤ t.year) (before : t.Before u) :
    t.millisSince epoch < u.millisSince epoch := by
  have ofDay := valid.second_of_day_lt
  unfold millisSince
  rcases before with day | ⟨⟨years, months, days⟩, time⟩
  · have := valid.daysSince_lt since day
    omega
  · have same : t.daysSince epoch = u.daysSince epoch := by rw [daysSince, daysSince, years, months, days]
    have := valid.minute
    have := valid.second
    have := valid'.minute
    have := valid'.second
    have seconds : t.secondOfDay < u.secondOfDay := by
      unfold secondOfDay
      omega
    omega

end DateTime

end AlmeidaOS
