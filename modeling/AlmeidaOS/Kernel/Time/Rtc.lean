import AlmeidaOS.Base.Word
import AlmeidaOS.Kernel.Arch.Cmos
import AlmeidaOS.Kernel.Lib.String

/-!
# `kernel/time/rtc.c`: the time of day

From the fields of the clock to the milliseconds since 1970. The sum is an unsigned word of 64 bits. The
table of the months is of type `long`, but the products for the day, the hour, the minute and the second
are products of two `int`s, which wrap at 32 bits before they are added.
-/

namespace AlmeidaOS.Kernel

def rtcMillisecInSec : Int := 1000
def rtcMillisecInMin : Int := rtcMillisecInSec * 60
def rtcMillisecInHour : Int := rtcMillisecInMin * 60
def rtcMillisecInDay : Int := rtcMillisecInHour * 24
def rtcMillisecYear : Nat := 31536000000
def rtcMillisecLeapYear : Nat := 31622400000

/-- `CMOS_ELAPSED_MSECS_UNTIL_20_CENTURY`. -/
def cmosElapsedMsecsUntil20Century : Nat := 0xdc6acfac00

/-- `month`, the milliseconds of the months before. -/
def monthTable : List Int :=
  [0,
    rtcMillisecInDay * 31,
    rtcMillisecInDay * (31 + 28),
    rtcMillisecInDay * (31 + 28 + 31),
    rtcMillisecInDay * (31 + 28 + 31 + 30),
    rtcMillisecInDay * (31 + 28 + 31 + 30 + 31),
    rtcMillisecInDay * (31 + 28 + 31 + 30 + 31 + 30),
    rtcMillisecInDay * (31 + 28 + 31 + 30 + 31 + 30 + 31),
    rtcMillisecInDay * (31 + 28 + 31 + 30 + 31 + 30 + 31 + 31),
    rtcMillisecInDay * (31 + 28 + 31 + 30 + 31 + 30 + 31 + 31 + 30),
    rtcMillisecInDay * (31 + 28 + 31 + 30 + 31 + 30 + 31 + 31 + 30 + 31),
    rtcMillisecInDay * (31 + 28 + 31 + 30 + 31 + 30 + 31 + 31 + 30 + 31 + 30)]

/-- `month[i]`. -/
def monthAt (i : Int) : Outcome Int :=
  if 0 ≤ i ∧ i < 12 then .ok (monthTable.getD i.toNat 0) else .error .outOfBounds

/-- `is_leap_year`. -/
def isLeapYear (year : Int) : Bool :=
  if year.tmod 400 = 0 then true
  else if year.tmod 100 = 0 then false
  else if year.tmod 4 = 0 then true
  else false

/-- The loop over the years before, from 2000. -/
def addYears (year : UInt8) (ret : Nat) : Nat :=
  (List.range year.toNat).foldl
    (fun ret (i : Nat) => Word.add ret (if isLeapYear (2000 + i) then rtcMillisecLeapYear else rtcMillisecYear)) ret

/-- `rtc_covert_to_unixtime`. -/
def rtcCovertToUnixtime (now : CmosClock) : Outcome Nat := do
  let ret := addYears now.year cmosElapsedMsecsUntil20Century
  let months ← monthAt ((now.month.toNat : Int) - 1)
  let ret := Word.add ret (Word.ofInt months)
  let ret :=
    if now.month > 2 && isLeapYear (2000 + now.year.toNat) then Word.add ret (Word.ofInt rtcMillisecInDay) else ret
  let ret := Word.add ret (Word.ofInt (toInt32 (rtcMillisecInDay * ((now.day.toNat : Int) - 1))))
  let ret := Word.add ret (Word.ofInt (toInt32 (rtcMillisecInHour * now.hour.toNat)))
  let ret := Word.add ret (Word.ofInt (toInt32 (rtcMillisecInMin * now.minute.toNat)))
  let ret := Word.add ret (Word.ofInt (toInt32 (rtcMillisecInSec * now.second.toNat)))
  pure ret

/-- `rtc_init_curr_time`: what it leaves in `rtc_curr_unixtime`. -/
def rtcInitCurrTime (port : CmosPort) (fuel reads : Nat) : Outcome Nat := do
  let (now, _) ← cmosReadRtc port fuel reads
  rtcCovertToUnixtime now

end AlmeidaOS.Kernel
