import AlmeidaOS.Base.Word

/-!
# `kernel/lib/math`: powers of two

The arithmetic the memory manager sizes its blocks with, on 64-bit words: `ilog2.c`, `round.c`
and `upow.c`, and `extract_bit_chunk` of `bit.h`.
-/

namespace AlmeidaOS.Kernel

/-- The `ROUND(v, a, w)` step of `ilog2.c`: when the upper half of the `2w` bits in play is not
empty, count `w` and keep that half. The pair is `(v, a)`. -/
def round (w : Nat) (va : Nat × Nat) : Nat × Nat :=
  if va.1 &&& ((1 <<< w - 1) <<< w) ≠ 0 then (va.1 >>> w, va.2 + w) else va

/-- `ilog2`: the position of the leading bit. -/
def ilog2 (vv : Nat) : Nat :=
  -- `v` is a `uint32_t`: the upper word if there is one, else the lower
  let v := vv >>> 32 % 2 ^ 32
  let start := if v ≠ 0 then (v, 32) else (vv % 2 ^ 32, 0)
  (round 1 (round 2 (round 4 (round 8 (round 16 start))))).2

/-- `round_up_po2`: `(value + power_of_2 - 1) & -power_of_2`. -/
def roundUpPo2 (value powerOf2 : Nat) : Nat :=
  Word.sub (Word.add value powerOf2) 1 &&& Word.sub 0 powerOf2

/-- `flp2`: round down to a power of two. -/
def flp2 (value : Nat) : Nat :=
  let value := Word.smear value
  Word.sub value (value >>> 1)

/-- `clp2`: round up to a power of two. -/
def clp2 (value : Nat) : Nat :=
  Word.add (Word.smear (Word.sub value 1)) 1

/-- The loop of `upow`. Every round halves the exponent. -/
def upowLoop (y p exp : Nat) : Nat :=
  let y := if exp &&& 1 ≠ 0 then Word.mul p y else y
  if exp >>> 1 = 0 then y else upowLoop y (Word.mul p p) (exp >>> 1)
termination_by exp
decreasing_by
  rename_i h
  rw [Nat.shiftRight_eq_div_pow] at h ⊢
  omega

/-- `upow`: integer power by squaring. -/
def upow (base exp : Nat) : Nat := upowLoop 1 base exp

/-- `extract_bit_chunk`. -/
def extractBitChunk (bitFrom bitTo field : Nat) : Nat :=
  (field >>> bitFrom) &&& ((2 ^ 64 - 1) >>> (64 - (bitTo - bitFrom + 1)))

end AlmeidaOS.Kernel
