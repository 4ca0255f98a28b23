import Mathlib.Data.Nat.Log
import Mathlib.Tactic.Ring

/-!
# Unsigned words

Machine words are natural numbers below a power of two. The operations here wrap at sixty-four
bits; each comes with the law that it is the plain operation when nothing wraps. The second half
collects the bit facts behind the classic word tricks: smearing the leading bit to the right,
testing the upper half of a word, and clearing low bits with a mask.
-/

namespace AlmeidaOS.Word

/-- Addition of 64-bit words. -/
def add (a b : Nat) : Nat := (a + b) % 2 ^ 64

/-- Subtraction of 64-bit words. -/
def sub (a b : Nat) : Nat := (a + (2 ^ 64 - b % 2 ^ 64)) % 2 ^ 64

/-- Multiplication of 64-bit words. -/
def mul (a b : Nat) : Nat := (a * b) % 2 ^ 64

/-- A signed value converted to a 64-bit word. -/
def ofInt (z : Int) : Nat := (z % 2 ^ 64).toNat

theorem add_of_lt {a b : Nat} (h : a + b < 2 ^ 64) : add a b = a + b := Nat.mod_eq_of_lt h

theorem add_lt (a b : Nat) : add a b < 2 ^ 64 := Nat.mod_lt _ (by decide)

theorem sub_of_le {a b : Nat} (ha : a < 2 ^ 64) (h : b ≤ a) : sub a b = a - b := by
  unfold sub
  rw [Nat.mod_eq_of_lt (by omega : b < 2 ^ 64)]
  have wrapped : a + (2 ^ 64 - b) = (a - b) + 2 ^ 64 := by omega
  rw [wrapped, Nat.add_mod_right, Nat.mod_eq_of_lt (by omega)]

theorem sub_lt (a b : Nat) : sub a b < 2 ^ 64 := Nat.mod_lt _ (by decide)

theorem add_assoc (a b c : Nat) : add (add a b) c = add a (add b c) := by
  unfold add
  omega

theorem sub_add (a b c : Nat) : sub (add a b) c = add a (sub b c) := by
  unfold add sub
  omega

/-- A difference is the same wherever the two lie. -/
theorem sub_add_add (a b c : Nat) : sub (add a b) (add a c) = sub b c := by
  unfold add sub
  omega

theorem ofInt_natCast {n : Nat} (h : n < 2 ^ 64) : ofInt (n : Int) = n := by
  unfold ofInt
  rw [Int.emod_eq_of_lt (Int.natCast_nonneg n) (by omega), Int.toNat_natCast]

/-- Adding a signed value, as long as the sum is a word. -/
theorem add_ofInt {a n : Nat} {z : Int} (sum : (a : Int) + z = n) (lt : n < 2 ^ 64) : add a (ofInt z) = n := by
  unfold add ofInt
  omega

/-! ## The leading bit, smeared -/

/-- The top `s` bits below position `n + 1` are set, and nothing above. -/
def TopBits (n s v : Nat) : Prop :=
  (∀ j, j ≤ n → n < j + s → v.testBit j = true) ∧ ∀ j, n < j → v.testBit j = false

theorem topBits_log2 {v : Nat} (h : v ≠ 0) : TopBits v.log2 1 v := by
  refine ⟨fun j hj hn => ?_, fun j hj => ?_⟩
  · obtain rfl : j = v.log2 := by omega
    exact Nat.testBit_log2 h
  · exact Nat.testBit_lt_two_pow (Nat.lt_of_lt_of_le Nat.lt_log2_self
      (Nat.pow_le_pow_right (by decide) hj))

/-- One smear step doubles the run of leading ones. -/
theorem TopBits.smear {n s v : Nat} (h : TopBits n s v) : TopBits n (s + s) (v ||| v >>> s) := by
  refine ⟨fun j hj hn => ?_, fun j hj => ?_⟩
  · rw [Nat.testBit_or, Nat.testBit_shiftRight, Bool.or_eq_true]
    by_cases near : n < j + s
    · exact .inl (h.1 j hj near)
    · exact .inr (h.1 (s + j) (by omega) (by omega))
  · rw [Nat.testBit_or, Nat.testBit_shiftRight, h.2 j hj, h.2 (s + j) (by omega)]
    rfl

/-- A run of ones that reaches the bottom is one less than a power of two. -/
theorem TopBits.eq_pow_sub_one {n s v : Nat} (h : TopBits n s v) (all : n < s) :
    v = 2 ^ (n + 1) - 1 := by
  apply Nat.eq_of_testBit_eq
  intro j
  rw [Nat.testBit_two_pow_sub_one]
  by_cases hj : j ≤ n
  · rw [h.1 j hj (by omega), decide_eq_true (by omega)]
  · rw [h.2 j (by omega), decide_eq_false (by omega)]

/-- Six smear steps fill a 64-bit word below its leading bit. -/
def smear (v : Nat) : Nat :=
  let v := v ||| v >>> 1
  let v := v ||| v >>> 2
  let v := v ||| v >>> 4
  let v := v ||| v >>> 8
  let v := v ||| v >>> 16
  v ||| v >>> 32

@[simp] theorem smear_zero : smear 0 = 0 := by decide

theorem smear_eq {v : Nat} (h : v ≠ 0) (bound : v < 2 ^ 64) : smear v = 2 ^ (v.log2 + 1) - 1 := by
  have top : TopBits v.log2 64 (smear v) :=
    (topBits_log2 h).smear.smear.smear.smear.smear.smear
  exact top.eq_pow_sub_one ((Nat.log2_lt h).mpr bound)

/-! ## Masks -/

/-- Masking the upper half of a `2w`-bit word tests whether it reaches that half. -/
theorem and_upper_ne_zero {v w : Nat} (bound : v < 2 ^ (w + w)) :
    v &&& ((1 <<< w - 1) <<< w) ≠ 0 ↔ 2 ^ w ≤ v := by
  have shifted : v &&& ((1 <<< w - 1) <<< w) = (v / 2 ^ w) <<< w := by
    apply Nat.eq_of_testBit_eq
    intro j
    rw [Nat.testBit_and, Nat.testBit_shiftLeft, Nat.testBit_shiftLeft, Nat.one_shiftLeft,
      Nat.testBit_two_pow_sub_one, ← Nat.shiftRight_eq_div_pow, Nat.testBit_shiftRight]
    by_cases low : w ≤ j
    · rw [decide_eq_true low, Bool.true_and, Bool.true_and, Nat.add_sub_cancel' low]
      by_cases high : j - w < w
      · rw [decide_eq_true high, Bool.and_true]
      · have clear : v.testBit j = false := Nat.testBit_lt_two_pow
          (Nat.lt_of_lt_of_le bound (Nat.pow_le_pow_right (by decide) (by omega)))
        rw [clear, Bool.false_and]
    · rw [decide_eq_false low, Bool.false_and, Bool.and_false, Bool.false_and]
  rw [shifted, ne_eq, Nat.shiftLeft_eq_zero_iff, Nat.div_eq_zero_iff]
  have : 0 < 2 ^ w := Nat.two_pow_pos w
  omega

/-- Clearing the low `a` bits of a word. -/
theorem and_neg_pow {x a : Nat} (ha : a ≤ 64) (hx : x < 2 ^ 64) :
    x &&& (2 ^ 64 - 2 ^ a) = x / 2 ^ a * 2 ^ a := by
  have mask : 2 ^ 64 - 2 ^ a = (2 ^ (64 - a) - 1) <<< a := by
    rw [Nat.shiftLeft_eq, Nat.sub_mul, ← Nat.pow_add, Nat.sub_add_cancel ha, Nat.one_mul]
  rw [mask, ← Nat.shiftLeft_eq, ← Nat.shiftRight_eq_div_pow]
  apply Nat.eq_of_testBit_eq
  intro j
  rw [Nat.testBit_and, Nat.testBit_shiftLeft, Nat.testBit_shiftLeft, Nat.testBit_two_pow_sub_one,
    Nat.testBit_shiftRight]
  by_cases low : a ≤ j
  · rw [decide_eq_true low, Bool.true_and, Bool.true_and, Nat.add_sub_cancel' low]
    by_cases high : j - a < 64 - a
    · rw [decide_eq_true high, Bool.and_true]
    · have clear : x.testBit j = false := Nat.testBit_lt_two_pow
        (Nat.lt_of_lt_of_le hx (Nat.pow_le_pow_right (by decide) (by omega)))
      rw [clear, Bool.false_and]
  · rw [decide_eq_false low, Bool.false_and, Bool.and_false, Bool.false_and]

end AlmeidaOS.Word
