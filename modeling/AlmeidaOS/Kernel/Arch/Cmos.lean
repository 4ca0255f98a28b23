import AlmeidaOS.Base.Outcome

/-!
# `kernel/arch/cmos.c`: reading the real-time clock

The clock runs on its own, so what the data port answers depends on when it is read: a `CmosPort` gives
the answer to each read in turn, for the byte that is then in the index port. The number of reads made
so far is passed through. Both loops of `cmos_read_rtc` run on fuel, for neither has a bound.
-/

namespace AlmeidaOS.Kernel

/-- The data port: the answer to each read, for the byte in the index port. -/
abbrev CmosPort := Nat → UInt8 → UInt8

/-- `cmos_clock_t`. -/
structure CmosClock where
  second : UInt8
  minute : UInt8
  hour : UInt8
  day : UInt8
  month : UInt8
  year : UInt8
deriving DecidableEq, Repr

def cmosSecsReg : Nat := 0x00
def cmosMinsReg : Nat := 0x02
def cmosHoursReg : Nat := 0x04
def cmosDayReg : Nat := 0x07
def cmosMonthReg : Nat := 0x08
def cmosYearReg : Nat := 0x09
def cmosStatusAReg : Nat := 0x0A
def cmosStatusBReg : Nat := 0x0B

def cmosUpdInProgBit : Nat := 0x07
def cmosHourPmMask : UInt8 := 0x80
def cmosNmiDisableMask : Nat := 0x80

/-- `test_bit`. -/
def testBit (bitNumber : Nat) (field : UInt8) : Bool := field.toNat >>> bitNumber &&& 1 ≠ 0

/-- `BCD_TO_BIN`, stored in a byte. -/
def bcdToBin (bcd : UInt8) : UInt8 := bcd / 16 * 10 + (bcd &&& 0xf)

section Read

variable (port : CmosPort)

/-- `cmos_read_reg`, as the read after `reads` others. -/
def cmosReadReg (reg reads : Nat) : UInt8 := port reads (UInt8.ofNat (reg ||| cmosNmiDisableMask))

/-- The wait for the end of an update. -/
def cmosWait : Nat → Nat → Outcome Nat
  | 0, _ => .error .outOfFuel
  | fuel + 1, reads =>
    if testBit cmosUpdInProgBit (cmosReadReg port cmosStatusAReg reads) then cmosWait fuel (reads + 1)
    else .ok (reads + 1)

/-- The six registers, one after the other. -/
def cmosReadClock (reads : Nat) : CmosClock where
  second := cmosReadReg port cmosSecsReg reads
  minute := cmosReadReg port cmosMinsReg (reads + 1)
  hour := cmosReadReg port cmosHoursReg (reads + 2)
  day := cmosReadReg port cmosDayReg (reads + 3)
  month := cmosReadReg port cmosMonthReg (reads + 4)
  year := cmosReadReg port cmosYearReg (reads + 5)

/-- The `do … while` loop of `cmos_read_rtc`: the registers it exits with and the reads made. -/
def cmosReadLoop : Nat → Nat → Outcome (CmosClock × Nat)
  | 0, _ => .error .outOfFuel
  | fuel + 1, reads => do
    let reads ← cmosWait port fuel reads
    let ret := cmosReadClock port reads
    if ret.second ≠ cmosReadReg port cmosSecsReg (reads + 6) then cmosReadLoop fuel (reads + 7)
    else .ok (ret, reads + 7)

end Read

/-- The part of `cmos_read_rtc` behind the loop: from the format register B selects to binary, 24 hours. -/
def cmosDecode (regB : UInt8) (ret : CmosClock) : CmosClock :=
  let binModSet := testBit 2 regB
  let fmt24Set := testBit 1 regB
  let ret :=
    if !binModSet then
      { second := bcdToBin ret.second
        minute := bcdToBin ret.minute
        hour := bcdToBin ret.hour ||| (ret.hour &&& cmosHourPmMask)
        day := bcdToBin ret.day
        month := bcdToBin ret.month
        year := bcdToBin ret.year }
    else ret
  if !fmt24Set && ret.hour &&& cmosHourPmMask ≠ 0 then
    { ret with hour := ((ret.hour &&& ~~~cmosHourPmMask) + 12) % 24 }
  else ret

/-- `cmos_read_rtc`: the clock and the reads made. -/
def cmosReadRtc (port : CmosPort) (fuel reads : Nat) : Outcome (CmosClock × Nat) := do
  let (ret, reads) ← cmosReadLoop port fuel reads
  let regB := cmosReadReg port cmosStatusBReg reads
  pure (cmosDecode regB ret, reads + 1)

end AlmeidaOS.Kernel
