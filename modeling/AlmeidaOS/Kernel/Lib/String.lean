import Mathlib.Tactic.Ring
import AlmeidaOS.Base.Outcome

/-!
# `kernel/lib/string.c`, `ctype.c` and `abs.c`: strings and numbers

A C string is the list of its bytes up to the terminating NUL. A buffer is the list of its bytes, and
what a conversion writes is the list of the bytes it stores, the NUL included. Numbers are converted
as the source does it: the digits come out last first and are reversed in place.
-/

namespace AlmeidaOS.Kernel

/-- The byte of an ASCII character. -/
def ascii (c : Char) : UInt8 := c.toNat.toUInt8

/-- The bytes of a string literal. -/
def asciiText (s : String) : List UInt8 := s.toList.map ascii

/-- A NUL-terminated string. -/
structure CString where
  chars : List UInt8
  nonzero : ∀ c ∈ chars, c ≠ 0

/-- `str[i]`: the terminating NUL may be read, nothing behind it. -/
def CString.charAt (str : CString) (i : Nat) : Outcome UInt8 :=
  if i ≤ str.chars.length then .ok (str.chars.getD i 0) else .error .outOfBounds

/-- `isdigit`: the character, a signed one, is taken to an `unsigned` first. -/
def isdigit (c : UInt8) : Bool :=
  let extended := if c.toNat < 128 then c.toNat else c.toNat + (2 ^ 32 - 256)
  (extended + (2 ^ 32 - 48)) % 2 ^ 32 < 10

/-- `strlen`, of the string a buffer holds. -/
def strlen (buf : List UInt8) : Nat := (buf.takeWhile (· ≠ 0)).length

/-- A value as an `int`. -/
def toInt32 (value : Int) : Int := value.bmod (2 ^ 32)

/-- `abs`, of an `int`. With the sign bit as mask, `(value + mask) ^ mask`. -/
def abs (value : Int) : Int :=
  let value := toInt32 value
  if value < 0 then ~~~(toInt32 (value + -1)) else value

/-- `tmp = str[i]; str[i] = str[j]; str[j] = tmp`. -/
def swapChars (str : List UInt8) (i j : Nat) : List UInt8 :=
  (str.set i (str.getD j 0)).set j (str.getD i 0)

/-- `strrev`. -/
def strrev (str : List UInt8) (length : Nat) : List UInt8 :=
  if length < 2 then str
  else (List.range (length / 2)).foldl (fun str start => swapChars str start (length - 1 - start)) str

/-- `(rem > 9) ? (rem - 10) + 'a' : rem + '0'`. -/
def digitChar (rem : Int) : UInt8 := .ofInt (if rem > 9 then rem - 10 + 97 else rem + 48)

/-- The loop of `ulltoa`. It is entered with a radix of 8, 10 or 16 only. -/
def ulltoaLoop (radix value : Nat) (str : List UInt8) : List UInt8 :=
  if value = 0 ∨ radix < 2 then str
  else ulltoaLoop radix (value / radix) (str ++ [digitChar (value % radix : Nat)])
termination_by value
decreasing_by exact Nat.div_lt_self (by omega) (by omega)

/-- `ulltoa`: the bytes it writes to `str`. -/
def ulltoa (value radix : Nat) : List UInt8 :=
  if radix ≠ 8 ∧ radix ≠ 10 ∧ radix ≠ 16 then [0]
  else if value = 0 then [ascii '0', 0]
  else
    let str := ulltoaLoop radix value []
    strrev (str ++ [0]) str.length

/-- The loop of `lltoa`, with the remainder and the quotient of signed numbers. -/
def lltoaLoop (radix : Nat) (value : Int) (str : List UInt8) : List UInt8 :=
  if value = 0 ∨ radix < 2 then str
  else lltoaLoop radix (value.tdiv radix) (str ++ [digitChar (value.tmod radix)])
termination_by value.natAbs
decreasing_by
  rw [Int.natAbs_tdiv, Int.natAbs_natCast]
  exact Nat.div_lt_self (by omega) (by omega)

/-- `lltoa`: the bytes it writes to `str`. -/
def lltoa (value : Int) (radix : Nat) : List UInt8 :=
  if radix ≠ 8 ∧ radix ≠ 10 ∧ radix ≠ 16 then [0]
  else if value = 0 then [ascii '0', 0]
  else
    let isNegative := value < 0 ∧ radix = 10
    let str := lltoaLoop radix (if isNegative then abs value else value) []
    let str := if isNegative then str ++ [ascii '-'] else str
    strrev (str ++ [0]) str.length

end AlmeidaOS.Kernel
