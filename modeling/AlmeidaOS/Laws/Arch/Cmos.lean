import AlmeidaOS.Base.Calendar
import AlmeidaOS.Kernel.Arch.Cmos
import Mathlib.Order.Monotone.Basic

/-!
# Reading the real-time clock

The clock as a device: registers that hold a date and time in one of four formats, which register B
selects, and that all change at once when a second has passed. Any number of ticks may fall between two
reads. Register A says whatever it likes.

`cmos_read_rtc` guards against a mixed reading by reading the seconds twice, and
`cmos_read_untorn` shows that this is enough when less than a minute passes in between. What it makes of
the registers is right in the 24-hour formats, but not always in the 12-hour formats
(`cmos_read_rtc_iff`).
-/

namespace AlmeidaOS.Kernel

/-! ## The device -/

/-- A number below 100 in a register: binary, or two decimal digits of four bits. -/
def encodeField (regB : UInt8) (value : Nat) : UInt8 :=
  if testBit 2 regB then UInt8.ofNat value else UInt8.ofNat (value / 10 * 16 + value % 10)

/-- The hour in a register: from 0 to 23, or from 1 to 12 with the highest bit set after noon. -/
def encodeHour (regB : UInt8) (hour : Nat) : UInt8 :=
  if testBit 1 regB then encodeField regB hour
  else if hour < 12 then encodeField regB ((hour + 11) % 12 + 1)
  else encodeField regB ((hour + 11) % 12 + 1) ||| 0x80

/-- The registers of a date and time. The year is kept without its century. -/
def rawClock (regB : UInt8) (t : DateTime) : CmosClock where
  second := encodeField regB t.second
  minute := encodeField regB t.minute
  hour := encodeHour regB t.hour
  day := encodeField regB t.day
  month := encodeField regB t.month
  year := encodeField regB (t.year % 100)

/-- A date and time as `cmos_clock_t` has it. -/
def clockOf (t : DateTime) : CmosClock where
  second := UInt8.ofNat t.second
  minute := UInt8.ofNat t.minute
  hour := UInt8.ofNat t.hour
  day := UInt8.ofNat t.day
  month := UInt8.ofNat t.month
  year := UInt8.ofNat (t.year % 100)

/-- The register that the index port selects with its low seven bits. -/
def register (regA regB : UInt8) (t : DateTime) (index : UInt8) : UInt8 :=
  match (index &&& 0x7f).toNat with
  | 0x00 => (rawClock regB t).second
  | 0x02 => (rawClock regB t).minute
  | 0x04 => (rawClock regB t).hour
  | 0x07 => (rawClock regB t).day
  | 0x08 => (rawClock regB t).month
  | 0x09 => (rawClock regB t).year
  | 0x0A => regA
  | 0x0B => regB
  | _ => 0

/-- The data port of a clock that shows `time k` at the `k`-th read. -/
def clockPort (regA : Nat → UInt8) (regB : UInt8) (time : Nat → DateTime) : CmosPort :=
  fun k => register (regA k) regB (time k)

/-- A clock that ticks: what it shows after each tick. Whatever else a tick changes, the second advances. -/
structure TickingClock where
  time : Nat → DateTime
  second_lt : ∀ n, (time n).second < 60
  second_tick : ∀ n, (time (n + 1)).second = ((time n).second + 1) % 60

theorem second_iterate_next_lt {start : DateTime} (lt : start.second < 60) (n : Nat) :
    (DateTime.next^[n] start).second < 60 := by
  induction n with
  | zero => exact lt
  | succ n ih =>
    rw [Function.iterate_succ_apply', DateTime.next_second ih]
    exact Nat.mod_lt _ (by decide)

/-- The clock that follows the calendar. -/
def calendarClock (start : DateTime) (lt : start.second < 60) : TickingClock where
  time n := DateTime.next^[n] start
  second_lt := second_iterate_next_lt lt
  second_tick n := by
    rw [Function.iterate_succ_apply']
    exact DateTime.next_second (second_iterate_next_lt lt n)

/-- In each format different numbers are different bytes. -/
theorem encodeField_injective (regB : UInt8) {v w : Nat} (hv : v < 100) (hw : w < 100)
    (same : encodeField regB v = encodeField regB w) : v = w := by
  unfold encodeField at same
  have bytes := congrArg UInt8.toNat same
  split at bytes
  · rw [UInt8.toNat_ofNat', UInt8.toNat_ofNat'] at bytes
    omega
  · rw [UInt8.toNat_ofNat', UInt8.toNat_ofNat'] at bytes
    omega

/-! ## A reading without tears -/

namespace TickingClock

variable (clock : TickingClock)

/-- Some ticks later the second has advanced by as many. -/
theorem second_add (n k : Nat) : (clock.time (n + k)).second = ((clock.time n).second + k) % 60 := by
  induction k with
  | zero => exact (Nat.mod_eq_of_lt (clock.second_lt n)).symm
  | succ k ih => rw [← Nat.add_assoc, clock.second_tick, ih, Nat.mod_add_mod, Nat.add_assoc]

/-- Within a minute no second comes again. -/
theorem eq_of_second_eq {n m : Nat} (le : n ≤ m) (few : m < n + 60) (same : (clock.time n).second = (clock.time m).second) :
    n = m := by
  obtain ⟨k, rfl⟩ := Nat.exists_eq_add_of_le le
  rw [clock.second_add n k] at same
  have := clock.second_lt n
  omega

end TickingClock

section Loop

variable {port : CmosPort} {fuel reads reads' : Nat} {raw : CmosClock}

/-- The loop exits with one pass over the registers, and the seconds have not changed in it. -/
theorem cmosReadLoop_exits (exits : cmosReadLoop port fuel reads = .ok (raw, reads')) :
    ∃ start, reads' = start + 7 ∧ raw = cmosReadClock port start ∧
      cmosReadReg port cmosSecsReg start = cmosReadReg port cmosSecsReg (start + 6) := by
  induction fuel generalizing reads with
  | zero => cases exits
  | succ fuel ih =>
    obtain ⟨start, _, exits⟩ := bind_eq_ok.mp exits
    dsimp only at exits
    split at exits
    · exact ih exits
    · rename_i same
      cases exits
      exact ⟨start, rfl, rfl, not_not.mp same⟩

end Loop

section Registers

variable (regA : Nat → UInt8) (regB : UInt8) (time : Nat → DateTime) (k : Nat)

/-- Each register answers with its part of the date. -/
theorem cmosReadClock_eq : cmosReadClock (clockPort regA regB time) k =
    { second := encodeField regB (time k).second
      minute := encodeField regB (time (k + 1)).minute
      hour := encodeHour regB (time (k + 2)).hour
      day := encodeField regB (time (k + 3)).day
      month := encodeField regB (time (k + 4)).month
      year := encodeField regB ((time (k + 5)).year % 100) } := rfl

theorem cmosReadReg_secs : cmosReadReg (clockPort regA regB time) cmosSecsReg k = encodeField regB (time k).second := rfl

theorem cmosReadReg_statusA : cmosReadReg (clockPort regA regB time) cmosStatusAReg k = regA k := rfl

theorem cmosReadReg_statusB : cmosReadReg (clockPort regA regB time) cmosStatusBReg k = regB := rfl

end Registers

/-- One pass over the registers in which the seconds are the same at both ends falls into one tick. -/
theorem cmosReadClock_untorn (clock : TickingClock) (regA : Nat → UInt8) (regB : UInt8) {ticks : Nat → Nat}
    (interleaved : Monotone ticks) {start : Nat} (few : ticks (start + 6) < ticks start + 60)
    (same : cmosReadReg (clockPort regA regB fun k => clock.time (ticks k)) cmosSecsReg start =
      cmosReadReg (clockPort regA regB fun k => clock.time (ticks k)) cmosSecsReg (start + 6)) :
    ticks start = ticks (start + 6) ∧
      cmosReadClock (clockPort regA regB fun k => clock.time (ticks k)) start =
        rawClock regB (clock.time (ticks (start + 6))) := by
  rw [cmosReadReg_secs, cmosReadReg_secs] at same
  have within := fun n => Nat.lt_trans (clock.second_lt n) (show 60 < 100 by decide)
  have seconds := encodeField_injective regB (within _) (within _) same
  have one := clock.eq_of_second_eq (interleaved (Nat.le_add_right start 6)) few seconds
  -- The reads in between are squeezed between two equal ends.
  have between : ∀ i, i ≤ 6 → ticks (start + i) = ticks (start + 6) := by
    intro i le
    have lower := interleaved (Nat.le_add_right start i)
    have upper := interleaved (Nat.add_le_add_left le start)
    omega
  refine ⟨one, ?_⟩
  rw [cmosReadClock_eq]
  simp only [one, between 1 (by decide), between 2 (by decide), between 3 (by decide), between 4 (by decide),
    between 5 (by decide)]
  rfl

/-- **The clock is read without tearing.** `ticks k` is the number of ticks before the `k`-th read, in any
interleaving. If the loop exits and fewer than sixty ticks fell between the two readings of the seconds in its
last pass, then everything was read in one and the same tick. -/
theorem cmos_read_untorn (clock : TickingClock) (regA : Nat → UInt8) (regB : UInt8) (ticks : Nat → Nat)
    (interleaved : Monotone ticks) (fuel reads reads' : Nat) (raw : CmosClock)
    (exits : cmosReadLoop (clockPort regA regB fun k => clock.time (ticks k)) fuel reads = .ok (raw, reads'))
    (few : ticks (reads' - 1) < ticks (reads' - 7) + 60) :
    ticks (reads' - 7) = ticks (reads' - 1) ∧ raw = rawClock regB (clock.time (ticks (reads' - 1))) := by
  obtain ⟨start, rfl, rfl, same⟩ := cmosReadLoop_exits exits
  rw [show start + 7 - 1 = start + 6 from rfl, Nat.add_sub_cancel] at few ⊢
  exact cmosReadClock_untorn clock regA regB interleaved few same

/-- New year between the minute and the hour: the first pass is repeated. -/
theorem cmos_read_untorn_new_year :
    ∃ raw, cmosReadLoop (clockPort (fun k => if k = 0 then 0x80 else 0) 0 fun k =>
        (calendarClock ⟨2021, 12, 31, 23, 59, 59⟩ (by decide)).time (if k < 4 then 0 else 1)) 5 0 = .ok (raw, 17) ∧
      raw = rawClock 0 ⟨2022, 1, 1, 0, 0, 0⟩ := by
  have interleaved : Monotone fun k => if k < 4 then 0 else 1 := by
    intro k l le
    dsimp only
    repeat' split
    all_goals omega
  exact ⟨_, rfl, (cmos_read_untorn (calendarClock ⟨2021, 12, 31, 23, 59, 59⟩ (by decide))
    (fun k => if k = 0 then 0x80 else 0) 0 (fun k => if k < 4 then 0 else 1) interleaved 5 0 17 _ rfl (by decide)).2⟩

/-! ## Decoding -/

section Decode

variable (regB : UInt8)

/-- A register in binary. -/
def decodeField (raw : UInt8) : UInt8 := if testBit 2 regB then raw else bcdToBin raw

/-- The register of the hour in binary and 24 hours. -/
def decodeHour (raw : UInt8) : UInt8 :=
  let hour := if testBit 2 regB then raw else bcdToBin raw ||| (raw &&& cmosHourPmMask)
  if testBit 1 regB = false ∧ hour &&& cmosHourPmMask ≠ 0 then ((hour &&& ~~~cmosHourPmMask) + 12) % 24 else hour

/-- The registers are decoded one by one. -/
theorem cmosDecode_eq (raw : CmosClock) : cmosDecode regB raw =
    { second := decodeField regB raw.second
      minute := decodeField regB raw.minute
      hour := decodeHour regB raw.hour
      day := decodeField regB raw.day
      month := decodeField regB raw.month
      year := decodeField regB raw.year } := by
  cases bin : testBit 2 regB with
  | true =>
    simp only [cmosDecode, decodeField, decodeHour, bin, Bool.not_true, Bool.false_eq_true, ↓reduceIte, Bool.and_eq_true,
      Bool.not_eq_true', decide_eq_true_eq]
    split
    · rfl
    · rfl
  | false =>
    simp only [cmosDecode, decodeField, decodeHour, bin, Bool.not_false, Bool.false_eq_true, ↓reduceIte, Bool.and_eq_true,
      Bool.not_eq_true', decide_eq_true_eq]
    split
    · rfl
    · rfl

theorem decodeField_encodeField {v : Nat} (lt : v < 100) : decodeField regB (encodeField regB v) = UInt8.ofNat v := by
  have digits : ∀ v < 100, bcdToBin (UInt8.ofNat (v / 10 * 16 + v % 10)) = UInt8.ofNat v := by decide
  unfold decodeField encodeField
  split
  · rfl
  · exact digits v lt

/-- When the hour comes out right: always with 24 hours; with 12 hours neither at midnight nor at noon, and in
decimal digits not after noon. -/
def HourRight (hour : Nat) : Prop :=
  testBit 1 regB = true ∨ hour ≠ 0 ∧ hour ≠ 12 ∧ (testBit 2 regB = true ∨ hour < 12)

theorem decodeHour_encodeHour {hour : Nat} (lt : hour < 24) :
    decodeHour regB (encodeHour regB hour) = UInt8.ofNat hour ↔ HourRight regB hour := by
  unfold decodeHour encodeHour encodeField HourRight
  -- The two bits of register B and the hour are all that matters.
  cases testBit 1 regB with
  | true =>
    cases testBit 2 regB with
    | true => revert hour; decide
    | false => revert hour; decide
  | false =>
    cases testBit 2 regB with
    | true => revert hour; decide
    | false => revert hour; decide

/-- All but the hour always comes out right. -/
theorem cmosDecode_rawClock {t : DateTime} (valid : t.Valid) :
    cmosDecode regB (rawClock regB t) = { clockOf t with hour := decodeHour regB (encodeHour regB t.hour) } := by
  have days := Nat.le_trans valid.day.2 (daysInMonth_le t.year t.month)
  have months := valid.month.2
  rw [cmosDecode_eq, rawClock, decodeField_encodeField regB (Nat.lt_trans valid.second (by decide)),
    decodeField_encodeField regB (Nat.lt_trans valid.minute (by decide)),
    decodeField_encodeField regB (Nat.lt_of_le_of_lt days (by decide)),
    decodeField_encodeField regB (Nat.lt_of_le_of_lt months (by decide)),
    decodeField_encodeField regB (Nat.mod_lt t.year (by decide))]
  rfl

theorem cmosDecode_eq_clockOf {t : DateTime} (valid : t.Valid) :
    cmosDecode regB (rawClock regB t) = clockOf t ↔ HourRight regB t.hour := by
  rw [cmosDecode_rawClock regB valid, ← decodeHour_encodeHour regB valid.hour]
  constructor
  · intro same
    exact congrArg CmosClock.hour same
  · intro right
    rw [right]
    rfl

end Decode

/-! ## A reading of registers at rest -/

section Still

variable (regA : Nat → UInt8) (regB : UInt8) (t : DateTime)

/-- The wait ends at the first read of register A that shows no update. -/
theorem cmosWait_returns (time : Nat → DateTime) {reads settled : Nat} (le : reads ≤ settled)
    (quiet : testBit cmosUpdInProgBit (regA settled) = false) :
    ∃ reads', ∀ fuel, settled - reads < fuel → cmosWait (clockPort regA regB time) fuel reads = .ok reads' := by
  induction h : settled - reads generalizing reads with
  | zero =>
    obtain rfl : reads = settled := by omega
    refine ⟨reads + 1, fun fuel enough => ?_⟩
    obtain ⟨fuel, rfl⟩ := Nat.exists_eq_succ_of_ne_zero (Nat.ne_of_gt enough)
    rw [cmosWait, cmosReadReg_statusA, quiet, if_neg Bool.false_ne_true]
  | succ n ih =>
    cases busy : testBit cmosUpdInProgBit (regA reads) with
    | true =>
      obtain ⟨reads', returns⟩ := ih (show reads + 1 ≤ settled by omega) (by omega)
      refine ⟨reads', fun fuel enough => ?_⟩
      obtain ⟨fuel, rfl⟩ := Nat.exists_eq_succ_of_ne_zero (Nat.ne_of_gt (Nat.zero_lt_of_lt enough))
      rw [cmosWait, cmosReadReg_statusA, busy, if_pos rfl]
      exact returns fuel (by omega)
    | false =>
      refine ⟨reads + 1, fun fuel enough => ?_⟩
      obtain ⟨fuel, rfl⟩ := Nat.exists_eq_succ_of_ne_zero (Nat.ne_of_gt (Nat.zero_lt_of_lt enough))
      rw [cmosWait, cmosReadReg_statusA, busy, if_neg Bool.false_ne_true]

/-- `cmos_read_rtc` returns a clock, with all the fuel it needs. -/
def ReadsRtc (port : CmosPort) (reads : Nat) (now : CmosClock) : Prop :=
  ∃ enough reads', ∀ fuel ≥ enough, cmosReadRtc port fuel reads = .ok (now, reads')

theorem cmosReadRtc_still {reads settled : Nat} (le : reads ≤ settled)
    (quiet : testBit cmosUpdInProgBit (regA settled) = false) :
    ReadsRtc (clockPort regA regB fun _ => t) reads (cmosDecode regB (rawClock regB t)) := by
  obtain ⟨reads', returns⟩ := cmosWait_returns regA regB (fun _ => t) le quiet
  refine ⟨settled - reads + 2, reads' + 8, fun fuel enough => ?_⟩
  obtain ⟨fuel, rfl⟩ := Nat.exists_eq_succ_of_ne_zero (show fuel ≠ 0 by omega)
  have waited := returns fuel (by omega)
  have loop : cmosReadLoop (clockPort regA regB fun _ => t) (fuel + 1) reads = .ok (rawClock regB t, reads' + 7) := by
    rw [cmosReadLoop, waited, ok_bind]
    exact if_neg (not_not.mpr rfl)
  rw [cmosReadRtc, loop, ok_bind]
  rfl

end Still

/-- **What `cmos_read_rtc` makes of a date and time.** If the registers hold a date and time in the format that
register B selects, it returns as soon as register A shows no update, and everything but the hour is right; the
hour is right with 24 hours, but with 12 hours it is wrong at midnight, at noon and, in decimal digits, at every
hour after noon. -/
theorem cmos_read_rtc_iff (regA : Nat → UInt8) (regB : UInt8) (t : DateTime) (valid : t.Valid) (reads settled : Nat)
    (le : reads ≤ settled) (quiet : testBit cmosUpdInProgBit (regA settled) = false) :
    ∃ now, ReadsRtc (clockPort regA regB fun _ => t) reads now ∧ { now with hour := (clockOf t).hour } = clockOf t ∧
      (now = clockOf t ↔ HourRight regB t.hour) := by
  refine ⟨_, cmosReadRtc_still regA regB t le quiet, ?_, cmosDecode_eq_clockOf regB valid⟩
  rw [cmosDecode_rawClock regB valid]

/-- One in the afternoon in binary and 12 hours. -/
theorem cmos_read_rtc_binary :
    ReadsRtc (clockPort (fun _ => 0) 0x04 fun _ => ⟨2024, 2, 29, 13, 5, 30⟩) 0 (clockOf ⟨2024, 2, 29, 13, 5, 30⟩) := by
  have valid : DateTime.Valid ⟨2024, 2, 29, 13, 5, 30⟩ :=
    ⟨by decide, by decide, by decide, by decide, by decide⟩
  obtain ⟨now, returns, _, right⟩ :=
    cmos_read_rtc_iff (fun _ => 0) 0x04 ⟨2024, 2, 29, 13, 5, 30⟩ valid 0 0 (Nat.le_refl 0) (by decide)
  rwa [right.mpr (.inr ⟨by decide, by decide, .inl (by decide)⟩)] at returns

/-- One in the afternoon in decimal digits and 12 hours is nine in the evening. -/
theorem cmos_read_rtc_afternoon :
    ReadsRtc (clockPort (fun _ => 0) 0x00 fun _ => ⟨2024, 2, 29, 13, 5, 30⟩) 0
        { clockOf ⟨2024, 2, 29, 13, 5, 30⟩ with hour := 21 } ∧
      (clockOf ⟨2024, 2, 29, 13, 5, 30⟩).hour = 13 :=
  ⟨cmosReadRtc_still (fun _ => 0) 0x00 ⟨2024, 2, 29, 13, 5, 30⟩ (Nat.le_refl 0) (by decide), by decide⟩

end AlmeidaOS.Kernel
