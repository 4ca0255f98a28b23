import AlmeidaOS.Kernel.Time.Rtc
import AlmeidaOS.Laws.Arch.Cmos

/-!
# The time of day in milliseconds

`rtc_covert_to_unixtime` counts years, months and hours as the calendar does. The days of the month are
multiplied in `int`: from the twenty-sixth on the product does not fit, and the result is 2³² milliseconds,
almost fifty days, too small (`rtcCovertToUnixtime_eq`).
-/

namespace AlmeidaOS.Kernel

/-! ## Products of ints -/

theorem toInt32_of_lt {z : Int} (nonneg : 0 ≤ z) (lt : z < 2 ^ 31) : toInt32 z = z := by
  unfold toInt32
  exact Int.bmod_eq_of_le (by omega) (by omega)

theorem toInt32_of_ge {z : Int} (ge : 2 ^ 31 ≤ z) (lt : z < 2 ^ 32) : toInt32 z = z - 2 ^ 32 := by
  unfold toInt32 Int.bmod
  have whole : z % ((2 ^ 32 : Nat) : Int) = z := Int.emod_eq_of_lt (by omega) (by omega)
  simp only [whole]
  rw [if_neg (by omega)]
  rfl

/-! ## Years and months -/

theorem isLeapYear_eq (year : Nat) : isLeapYear year = decide (IsLeap year) := by
  have mods : ∀ n : Nat, (year : Int).tmod n = ((year % n : Nat) : Int) := fun _ => rfl
  have four := mods 4
  have hundred := mods 100
  have fourHundred := mods 400
  unfold isLeapYear IsLeap
  grind

/-- A year has at most 366 days. -/
theorem daysBetween_century_le (n : Nat) : daysBetween 1970 (2000 + n) ≤ 10957 + 366 * n := by
  induction n with
  | zero => decide
  | succ n ih =>
    have year : daysInYear (2000 + n) ≤ 366 := by
      unfold daysInYear
      split
      · decide
      · decide
    rw [← Nat.add_assoc, daysBetween_succ (by omega)]
    omega

/-- The loop over the years, counted from 1970. -/
theorem addYears_eq (year : UInt8) :
    addYears year cmosElapsedMsecsUntil20Century = 86400000 * daysBetween 1970 (2000 + year.toNat) := by
  have loop : ∀ n ≤ 255, (List.range n).foldl
      (fun ret (i : Nat) => Word.add ret (if isLeapYear (2000 + i) then rtcMillisecLeapYear else rtcMillisecYear))
      cmosElapsedMsecsUntil20Century = 86400000 * daysBetween 1970 (2000 + n) := by
    intro n
    induction n with
    | zero => exact fun _ => by decide
    | succ n ih =>
      intro le
      have bound := daysBetween_century_le (n + 1)
      rw [← Nat.add_assoc, daysBetween_succ (by omega)] at bound ⊢
      rw [List.range_succ, List.foldl_append, ih (by omega), List.foldl_cons, List.foldl_nil]
      have leap : isLeapYear (2000 + n) = decide (IsLeap (2000 + n)) := isLeapYear_eq (2000 + n)
      have added : (if isLeapYear (2000 + n) then rtcMillisecLeapYear else rtcMillisecYear) =
          86400000 * daysInYear (2000 + n) := by
        unfold daysInYear
        by_cases h : IsLeap (2000 + n)
        · rw [leap, decide_eq_true h, if_pos rfl, if_pos h]
          rfl
        · rw [leap, decide_eq_false h, if_neg Bool.false_ne_true, if_neg h]
          rfl
      rw [added, Word.add_of_lt (by omega), Nat.mul_add]
  exact loop year.toNat (Nat.le_of_lt_succ year.toNat_lt)

/-- The table of the months and the day after February. -/
theorem months_eq (year : Nat) {month : Nat} (pos : 1 ≤ month) (last : month ≤ 12) :
    ∃ before, monthAt ((month : Int) - 1) = .ok (86400000 * (before : Nat)) ∧ before ≤ 365 ∧
      daysBeforeMonth year month = before + if 2 < month ∧ IsLeap year then 1 else 0 := by
  refine ⟨_, ?_, ?_, daysBeforeMonth_eq year pos (by omega)⟩
  · interval_cases month <;> rfl
  · interval_cases month <;> decide

/-! ## The conversion -/

section Convert

variable {t : DateTime}

/-- What is missing from the twenty-sixth of a month on. -/
def lostMillis (day : Nat) : Nat := if 26 ≤ day then 2 ^ 32 else 0

theorem days_eq {day : Nat} (pos : 1 ≤ day) (last : day ≤ 31) :
    toInt32 (rtcMillisecInDay * ((day : Int) - 1)) = 86400000 * ((day : Int) - 1) - lostMillis day := by
  unfold lostMillis
  have product : rtcMillisecInDay = 86400000 := rfl
  rw [product]
  split
  · rw [toInt32_of_ge (by omega) (by omega)]
    rfl
  · rw [toInt32_of_lt (by omega) (by omega)]
    exact (Int.sub_zero _).symm

/-- The other products fit. -/
theorem product_eq {factor : Int} {value bound : Nat} (lt : value < bound) (nonneg : 0 ≤ factor)
    (fits : factor * bound < 2 ^ 31) :
    toInt32 (factor * value) = factor * value := by
  have less : factor * value ≤ factor * bound := Int.mul_le_mul_of_nonneg_left (by omega) nonneg
  exact toInt32_of_lt (Int.mul_nonneg nonneg (by omega)) (by omega)

theorem toNat_ofNat_of_lt {value bound : Nat} (lt : value < bound) (le : bound ≤ 256) :
    (UInt8.ofNat value).toNat = value := by
  rw [UInt8.toNat_ofNat', Nat.mod_eq_of_lt (by omega)]

/-- The time of day, added to the days before. -/
theorem addDay_eq (valid : t.Valid) {days : Nat} (atLeast : 10957 ≤ days) (atMost : days ≤ 50000) :
    let ret := Word.add (86400000 * days) (Word.ofInt (toInt32 (rtcMillisecInDay * ((t.day : Int) - 1))))
    let ret := Word.add ret (Word.ofInt (toInt32 (rtcMillisecInHour * t.hour)))
    let ret := Word.add ret (Word.ofInt (toInt32 (rtcMillisecInMin * t.minute)))
    Word.add ret (Word.ofInt (toInt32 (rtcMillisecInSec * t.second))) =
      ((days + (t.day - 1)) * 86400 + t.secondOfDay) * 1000 - lostMillis t.day := by
  have first := valid.day.1
  have last := Nat.le_trans valid.day.2 (daysInMonth_le t.year t.month)
  have ofDay := valid.second_of_day_lt
  have lost : lostMillis t.day ≤ 2 ^ 32 := by
    unfold lostMillis
    split
    · exact Nat.le_refl _
    · exact Nat.zero_le _
  have inHour : rtcMillisecInHour = 3600000 := rfl
  have inMin : rtcMillisecInMin = 60000 := rfl
  have inSec : rtcMillisecInSec = 1000 := rfl
  rw [days_eq first last, product_eq valid.hour (by decide) (by decide), product_eq valid.minute (by decide) (by decide),
    product_eq valid.second (by decide) (by decide), inHour, inMin, inSec]
  unfold DateTime.secondOfDay at ofDay ⊢
  obtain ⟨midnight, atMidnight⟩ : ∃ n, n = 86400000 * (days + (t.day - 1)) - lostMillis t.day := ⟨_, rfl⟩
  have day := Word.add_ofInt (a := 86400000 * days) (z := 86400000 * ((t.day : Int) - 1) - lostMillis t.day) (n := midnight)
    (by omega) (by omega)
  have hour := Word.add_ofInt (a := midnight) (z := 3600000 * t.hour) (n := midnight + 3600000 * t.hour) (by omega) (by omega)
  have minute := Word.add_ofInt (a := midnight + 3600000 * t.hour) (z := 60000 * t.minute)
    (n := midnight + 3600000 * t.hour + 60000 * t.minute) (by omega) (by omega)
  dsimp only
  rw [day, hour, minute]
  exact Word.add_ofInt (by omega) (by omega)

/-- The months and the leap day, added to the years before. -/
theorem addMonths_eq {days before : Nat} (bound : days ≤ 49000) (within : before ≤ 365) (leap : Prop) [Decidable leap] :
    (if decide leap = true then
        Word.add (Word.add (86400000 * days) (Word.ofInt (86400000 * before))) (Word.ofInt rtcMillisecInDay)
      else Word.add (86400000 * days) (Word.ofInt (86400000 * before))) =
      86400000 * (days + (before + if leap then 1 else 0)) := by
  have inDay : rtcMillisecInDay = 86400000 := rfl
  have months := Word.add_ofInt (a := 86400000 * days) (z := 86400000 * before) (n := 86400000 * (days + before))
    (by omega) (by omega)
  rw [months, inDay]
  by_cases h : leap
  · rw [decide_eq_true h, if_pos rfl, if_pos h]
    exact Word.add_ofInt (by omega) (by omega)
  · rw [decide_eq_false h, if_neg Bool.false_ne_true, if_neg h, Nat.add_zero]

/-- The test for a month behind February of a leap year. -/
theorem leapMonth_eq {month year : UInt8} : (decide (month > 2) && isLeapYear (2000 + year.toNat)) =
    decide (2 < month.toNat ∧ IsLeap (2000 + year.toNat)) := by
  have leap : isLeapYear (2000 + year.toNat) = decide (IsLeap (2000 + year.toNat)) := isLeapYear_eq (2000 + year.toNat)
  rw [leap, Bool.decide_and]
  rfl

theorem lostMillis_eq_zero {day : Nat} : lostMillis day = 0 ↔ day ≤ 25 := by
  unfold lostMillis
  split
  · omega
  · omega

theorem lostMillis_le_of_early {day later : Nat} (early : later ≤ 25 ∨ 26 ≤ day) : lostMillis later ≤ lostMillis day := by
  rcases early with early | late
  · rw [lostMillis_eq_zero.mpr early]
    exact Nat.zero_le _
  · unfold lostMillis
    rw [if_pos late]
    split
    · exact Nat.le_refl _
    · exact Nat.zero_le _

/-- From 2000 on there is enough to lose from. -/
theorem lostMillis_lt (since : 2000 ≤ t.year) : lostMillis t.day < t.millisSince 1970 := by
  have epoch : daysBetween 1970 2000 = 10957 := by decide
  have atLeast : daysBetween 1970 2000 ≤ daysBetween 1970 t.year := daysBetween_mono since
  unfold lostMillis DateTime.millisSince DateTime.daysSince
  split
  · omega
  · omega

/-- The conversion is right but for what is lost in the product of the days. -/
theorem rtcCovertToUnixtime_eq (valid : t.Valid) (since : 2000 ≤ t.year) (till : t.year ≤ 2099) :
    rtcCovertToUnixtime (clockOf t) = .ok (t.millisSince 1970 - lostMillis t.day) := by
  have lastDay := Nat.le_trans valid.day.2 (daysInMonth_le t.year t.month)
  have epoch : daysBetween 1970 2000 = 10957 := by decide
  have atLeast : daysBetween 1970 2000 ≤ daysBetween 1970 t.year := daysBetween_mono since
  have atMost := daysBetween_century_le (t.year - 2000)
  obtain ⟨before, table, within, months⟩ := months_eq t.year valid.month.1 valid.month.2
  have year : 2000 + (clockOf t).year.toNat = t.year := by
    have byte := toNat_ofNat_of_lt (Nat.mod_lt t.year (show 100 > 0 by decide)) (by decide)
    show 2000 + (UInt8.ofNat (t.year % 100)).toNat = t.year
    omega
  have month : (clockOf t).month.toNat = t.month := toNat_ofNat_of_lt (Nat.lt_succ_of_le valid.month.2) (by decide)
  have day : (clockOf t).day.toNat = t.day := toNat_ofNat_of_lt (Nat.lt_succ_of_le lastDay) (by decide)
  have hour : (clockOf t).hour.toNat = t.hour := toNat_ofNat_of_lt valid.hour (by decide)
  have minute : (clockOf t).minute.toNat = t.minute := toNat_ofNat_of_lt valid.minute (by decide)
  have second : (clockOf t).second.toNat = t.second := toNat_ofNat_of_lt valid.second (by decide)
  rw [Nat.add_sub_cancel' since] at atMost
  simp only [rtcCovertToUnixtime, addYears_eq, leapMonth_eq, year, month, day, hour, minute, second, table, ok_bind]
  rw [addMonths_eq (by omega) within, ← months]
  have inYear : daysBeforeMonth t.year t.month ≤ 366 := by
    rw [months]
    split
    · omega
    · omega
  rw [addDay_eq valid (by omega) (by omega)]
  rfl

end Convert

/-- **When the conversion is right.** For every date of the century and every time of day it is the number of
milliseconds since 1970, if and only if the day is the twenty-fifth of the month or earlier. So it increases
with the date and time, up to a day that is no later than the twenty-fifth and from a day that is later. -/
theorem rtc_covert_to_unixtime_iff (t : DateTime) (valid : t.Valid) (since : 2000 ≤ t.year) (till : t.year ≤ 2099) :
    (rtcCovertToUnixtime (clockOf t) = .ok (t.millisSince 1970) ↔ t.day ≤ 25) ∧
      ∀ u : DateTime, u.Valid → u.year ≤ 2099 → t.Before u → u.day ≤ 25 ∨ 26 ≤ t.day →
        ∃ a b, rtcCovertToUnixtime (clockOf t) = .ok a ∧ rtcCovertToUnixtime (clockOf u) = .ok b ∧ a < b := by
  constructor
  · have enough := lostMillis_lt since
    rw [rtcCovertToUnixtime_eq valid since till, Except.ok.injEq, ← lostMillis_eq_zero]
    omega
  · intro u valid' till' before early
    have since' : 2000 ≤ u.year := by
      rcases before with (later | ⟨same, _⟩) | ⟨⟨same, _⟩, _⟩
      · omega
      · omega
      · omega
    refine ⟨_, _, rtcCovertToUnixtime_eq valid since till, rtcCovertToUnixtime_eq valid' since' till', ?_⟩
    have later : t.millisSince 1970 < u.millisSince 1970 :=
      valid.millisSince_lt valid' (Nat.le_trans (by decide) since) before
    have less := lostMillis_le_of_early early
    have enough := lostMillis_lt since'
    omega

/-- A leap day is late in its month, the day behind it is not. -/
theorem rtc_covert_to_unixtime_leap_day :
    ∃ a, rtcCovertToUnixtime (clockOf ⟨2024, 2, 29, 23, 59, 59⟩) = .ok a ∧
      rtcCovertToUnixtime (clockOf ⟨2024, 3, 1, 0, 0, 0⟩) = .ok 1709251200000 ∧ a < 1709251200000 := by
  have valid : DateTime.Valid ⟨2024, 2, 29, 23, 59, 59⟩ := ⟨by decide, by decide, by decide, by decide, by decide⟩
  have valid' : DateTime.Valid ⟨2024, 3, 1, 0, 0, 0⟩ := ⟨by decide, by decide, by decide, by decide, by decide⟩
  have millis : DateTime.millisSince 1970 ⟨2024, 3, 1, 0, 0, 0⟩ = 1709251200000 := by decide
  obtain ⟨a, b, first, second, less⟩ :=
    (rtc_covert_to_unixtime_iff ⟨2024, 2, 29, 23, 59, 59⟩ valid (by decide) (by decide)).2 ⟨2024, 3, 1, 0, 0, 0⟩ valid'
      (by decide) (.inl (.inr ⟨rfl, .inl (by decide)⟩)) (.inl (by decide))
  have right := (rtc_covert_to_unixtime_iff ⟨2024, 3, 1, 0, 0, 0⟩ valid' (by decide) (by decide)).1.mpr (by decide)
  rw [millis] at right
  obtain rfl : b = 1709251200000 := Except.ok.inj (second.symm.trans right)
  exact ⟨a, first, right, less⟩

/-- From the twenty-fifth to the twenty-sixth of January 2000 the time goes back, to the seventh of December. -/
theorem rtc_covert_to_unixtime_goes_back :
    rtcCovertToUnixtime (clockOf ⟨2000, 1, 25, 0, 0, 0⟩) = .ok 948758400000 ∧
      rtcCovertToUnixtime (clockOf ⟨2000, 1, 26, 0, 0, 0⟩) = .ok 944549832704 ∧
      DateTime.millisSince 1970 ⟨2000, 1, 26, 0, 0, 0⟩ = 948844800000 := by
  refine ⟨by decide, by decide, by decide⟩

/-! ## From the registers to the time -/

/-- With 24 hours, `rtc_init_curr_time` leaves the time of a tick during which it read the registers, late days apart. -/
theorem rtcInitCurrTime_eq (clock : TickingClock)
    (century : ∀ n, (clock.time n).Valid ∧ 2000 ≤ (clock.time n).year ∧ (clock.time n).year ≤ 2099)
    (regA : Nat → UInt8) {regB : UInt8} (fmt24 : testBit 1 regB = true) {ticks : Nat → Nat} (interleaved : Monotone ticks)
    (few : ∀ k, ticks (k + 6) < ticks k + 60) {fuel reads now : Nat}
    (returns : rtcInitCurrTime (clockPort regA regB fun k => clock.time (ticks k)) fuel reads = .ok now) :
    ∃ k, now = (clock.time (ticks k)).millisSince 1970 - lostMillis (clock.time (ticks k)).day := by
  obtain ⟨⟨decoded, reads'⟩, returned, converted⟩ := bind_eq_ok.mp returns
  obtain ⟨⟨raw, reads''⟩, exits, rest⟩ := bind_eq_ok.mp returned
  obtain ⟨start, rfl, rfl, same⟩ := cmosReadLoop_exits exits
  obtain ⟨_, oneTick⟩ := cmosReadClock_untorn clock regA regB interleaved (few start) same
  obtain ⟨valid, since, till⟩ := century (ticks (start + 6))
  cases rest
  dsimp only at converted
  rw [cmosReadReg_statusB, oneTick, (cmosDecode_eq_clockOf regB valid).mpr (.inl fmt24),
    rtcCovertToUnixtime_eq valid since till] at converted
  exact ⟨start + 6, (Except.ok.inj converted).symm⟩

end AlmeidaOS.Kernel
