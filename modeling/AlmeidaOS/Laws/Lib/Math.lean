import Mathlib.Order.Bounds.Defs
import AlmeidaOS.Kernel.Lib.Math

/-!
# Powers of two are what their names say

`ilog2_eq`, `flp2_eq`, `clp2_eq`, `upow_eq` and `roundUpPo2_eq` tie the word tricks of
`kernel/lib/math` to the arithmetic they stand for; everything above this file cites these five
and never unfolds the loops. `power_of_two_arithmetic` says the same in terms of least and greatest
elements.
-/

namespace AlmeidaOS.Kernel

/-! ## `ilog2` -/

/-- A count that is right so far: `2w` bits are left in play. -/
private structure Counting (vv w : Nat) (va : Nat × Nat) : Prop where
  nonzero : va.1 ≠ 0
  bound : va.1 < 2 ^ w
  count : vv.log2 = va.2 + va.1.log2

private theorem log2_shiftRight {v w : Nat} (h : 2 ^ w ≤ v) :
    v >>> w ≠ 0 ∧ v.log2 = w + (v >>> w).log2 := by
  have pos : 0 < 2 ^ w := Nat.two_pow_pos w
  have nonzero : v >>> w ≠ 0 := by
    rw [Nat.shiftRight_eq_div_pow]
    exact Nat.ne_of_gt (Nat.div_pos h pos)
  have hv : v ≠ 0 := by omega
  refine ⟨nonzero, (Nat.log2_eq_iff hv).mpr ?_⟩
  have low := Nat.log2_self_le nonzero
  have high := Nat.lt_log2_self (n := v >>> w)
  rw [Nat.shiftRight_eq_div_pow] at low high ⊢
  constructor
  · rw [Nat.pow_add]
    exact Nat.le_trans (Nat.mul_le_mul_left _ low) (Nat.mul_div_le v _)
  · rw [Nat.add_assoc, Nat.pow_add]
    exact (Nat.div_lt_iff_lt_mul pos).mp (by simpa using high) |>.trans_eq (Nat.mul_comm _ _)

private theorem Counting.round {vv w : Nat} {va : Nat × Nat} (h : Counting vv (w + w) va) :
    Counting vv w (Kernel.round w va) := by
  unfold Kernel.round
  split
  · next upper =>
    obtain ⟨nonzero, log⟩ := log2_shiftRight ((Word.and_upper_ne_zero h.bound).mp upper)
    refine ⟨nonzero, ?_, ?_⟩
    · rw [Nat.shiftRight_eq_div_pow]
      exact Nat.div_lt_of_lt_mul (by rw [← Nat.pow_add]; exact h.bound)
    · show vv.log2 = va.2 + w + (va.1 >>> w).log2
      rw [h.count, log, Nat.add_assoc]
  · next lower =>
    refine ⟨h.nonzero, ?_, h.count⟩
    have := mt (Word.and_upper_ne_zero h.bound).mpr lower
    omega

/-- `ilog2` is the binary logarithm. -/
theorem ilog2_eq {vv : Nat} (h : vv ≠ 0) (bound : vv < 2 ^ 64) : ilog2 vv = vv.log2 := by
  have upper : vv >>> 32 % 2 ^ 32 = vv >>> 32 := by
    rw [Nat.shiftRight_eq_div_pow]
    omega
  have start : Counting vv 32
      (if vv >>> 32 % 2 ^ 32 ≠ 0 then (vv >>> 32 % 2 ^ 32, 32) else (vv % 2 ^ 32, 0)) := by
    rw [upper]
    split
    · next high =>
      have reaches : 2 ^ 32 ≤ vv := by
        rw [Nat.shiftRight_eq_div_pow] at high
        omega
      refine ⟨high, ?_, (log2_shiftRight reaches).2⟩
      rw [Nat.shiftRight_eq_div_pow]
      omega
    · next low =>
      have small : vv % 2 ^ 32 = vv := by
        rw [Nat.shiftRight_eq_div_pow] at low
        omega
      rw [small]
      exact ⟨h, by omega, (Nat.zero_add _).symm⟩
  have done : Counting vv 1 (round 1 (round 2 (round 4 (round 8 (round 16 _))))) :=
    start.round.round.round.round.round
  have one : (round 1 (round 2 (round 4 (round 8 (round 16
      (if vv >>> 32 % 2 ^ 32 ≠ 0 then (vv >>> 32 % 2 ^ 32, 32) else (vv % 2 ^ 32, 0))))))).1 = 1 := by
    have := done.nonzero
    have := done.bound
    omega
  have count := done.count
  rw [one] at count
  exact count.symm

theorem ilog2_two_pow {k : Nat} (h : k < 64) : ilog2 (2 ^ k) = k := by
  rw [ilog2_eq (Nat.ne_of_gt (Nat.two_pow_pos k)) (Nat.pow_lt_pow_right (by decide) h),
    Nat.log2_two_pow]

/-! ## `flp2` and `clp2` -/

private theorem pow_sub_one_shiftRight (n : Nat) : (2 ^ (n + 1) - 1) >>> 1 = 2 ^ n - 1 := by
  rw [Nat.shiftRight_eq_div_pow, Nat.pow_succ]
  have := Nat.two_pow_pos n
  omega

/-- `flp2` keeps the leading bit. -/
theorem flp2_eq {x : Nat} (h : x ≠ 0) (bound : x < 2 ^ 64) : flp2 x = 2 ^ x.log2 := by
  have short : x.log2 + 1 ≤ 64 := (Nat.log2_lt h).mpr bound
  have word : 2 ^ (x.log2 + 1) ≤ 2 ^ 64 := Nat.pow_le_pow_right (by decide) short
  have pos := Nat.two_pow_pos x.log2
  unfold flp2
  simp only [Word.smear_eq h bound, pow_sub_one_shiftRight]
  rw [Nat.pow_succ] at word ⊢
  rw [Word.sub_of_le (by omega) (by omega)]
  omega

/-- A power of two, and only a power of two, is its own `flp2`. -/
theorem flp2_two_pow {k : Nat} (h : k < 64) : flp2 (2 ^ k) = 2 ^ k := by
  rw [flp2_eq (Nat.ne_of_gt (Nat.two_pow_pos k)) (Nat.pow_lt_pow_right (by decide) h),
    Nat.log2_two_pow]

/-- `clp2` is the least power of two not below its argument. -/
theorem clp2_eq {x : Nat} (h : x ≠ 0) (bound : x ≤ 2 ^ 63) : clp2 x = 2 ^ Nat.clog 2 x := by
  have small : x < 2 ^ 64 := by
    have : (2 : Nat) ^ 63 < 2 ^ 64 := by decide
    omega
  unfold clp2
  rw [Word.sub_of_le small (by omega)]
  by_cases one : x = 1
  · subst one
    decide
  · have nonzero : x - 1 ≠ 0 := by omega
    have log : Nat.clog 2 x = (x - 1).log2 + 1 := by
      apply Nat.le_antisymm
      · rw [Nat.clog_le_iff_le_pow (by decide)]
        have := Nat.lt_log2_self (n := x - 1)
        omega
      · rw [Nat.succ_le_iff, Nat.lt_clog_iff_pow_lt (by decide)]
        have := Nat.log2_self_le nonzero
        omega
    have pos := Nat.two_pow_pos ((x - 1).log2 + 1)
    have short : (x - 1).log2 + 1 ≤ 63 := (Nat.log2_lt nonzero).mpr (by omega)
    have word : 2 ^ ((x - 1).log2 + 1) ≤ 2 ^ 63 := Nat.pow_le_pow_right (by decide) short
    have fits : (2 : Nat) ^ 63 < 2 ^ 64 := by decide
    rw [Word.smear_eq nonzero (by omega), log, Word.add_of_lt (by omega)]
    omega

/-! ## `upow` -/

private theorem upowLoop_eq (exp : Nat) :
    ∀ y p, y < 2 ^ 64 → upowLoop y p exp = y * p ^ exp % 2 ^ 64 := by
  induction exp using Nat.strongRecOn with
  | ind exp ih =>
    intro y p hy
    rw [upowLoop]
    have half : exp >>> 1 = exp / 2 := by rw [Nat.shiftRight_eq_div_pow, Nat.pow_one]
    have split : p ^ exp = p ^ (exp % 2) * (p * p) ^ (exp / 2) := by
      rw [← Nat.pow_two, ← Nat.pow_mul, ← Nat.pow_add, Nat.mod_add_div]
    have step : (if exp &&& 1 ≠ 0 then Word.mul p y else y) = y * p ^ (exp % 2) % 2 ^ 64 := by
      rw [Nat.and_one_is_mod]
      rcases Nat.mod_two_eq_zero_or_one exp with even | odd
      · rw [even, if_neg (by decide), Nat.pow_zero, Nat.mul_one, Nat.mod_eq_of_lt hy]
      · rw [odd, if_pos (by decide), Nat.pow_one, Word.mul, Nat.mul_comm]
    simp only [step, half]
    split
    · next zero => rw [split, zero, Nat.pow_zero, Nat.mul_one]
    · next more =>
      rw [ih (exp / 2) (by omega) _ _ (Nat.mod_lt _ (by decide)), split]
      unfold Word.mul
      rw [Nat.mul_mod, ← Nat.pow_mod, Nat.mod_mod, ← Nat.mul_mod, Nat.mul_assoc]

/-- `upow` is the power, modulo the word size. -/
theorem upow_eq (base exp : Nat) : upow base exp = base ^ exp % 2 ^ 64 := by
  rw [upow, upowLoop_eq exp 1 base (by decide), Nat.one_mul]

theorem upow_two {k : Nat} (h : k < 64) : upow 2 k = 2 ^ k := by
  rw [upow_eq, Nat.mod_eq_of_lt (Nat.pow_lt_pow_right (by decide) h)]

/-! ## `round_up_po2` -/

/-- The mask clears the low bits of whatever the sum is. -/
theorem roundUpPo2_mask {v a : Nat} (ha : a < 64) :
    roundUpPo2 v (2 ^ a) = Word.sub (Word.add v (2 ^ a)) 1 / 2 ^ a * 2 ^ a := by
  have pos := Nat.two_pow_pos a
  have word : 2 ^ a < 2 ^ 64 := Nat.pow_lt_pow_right (by decide) ha
  have neg : Word.sub 0 (2 ^ a) = 2 ^ 64 - 2 ^ a := by
    unfold Word.sub
    rw [Nat.mod_eq_of_lt word, Nat.zero_add, Nat.mod_eq_of_lt (by omega)]
  unfold roundUpPo2
  rw [neg, Word.and_neg_pow (by omega) (Word.sub_lt _ _)]

theorem dvd_roundUpPo2 {v a : Nat} (ha : a < 64) : 2 ^ a ∣ roundUpPo2 v (2 ^ a) := by
  rw [roundUpPo2_mask ha]
  exact Nat.dvd_mul_left ..

/-- `round_up_po2` rounds up to a multiple. -/
theorem roundUpPo2_eq {v a : Nat} (ha : a < 64) (h : v + 2 ^ a ≤ 2 ^ 64) :
    roundUpPo2 v (2 ^ a) = (v + 2 ^ a - 1) / 2 ^ a * 2 ^ a := by
  have pos := Nat.two_pow_pos a
  have sum : Word.sub (Word.add v (2 ^ a)) 1 = v + 2 ^ a - 1 := by
    rcases Nat.lt_or_eq_of_le h with fits | wraps
    · rw [Word.add_of_lt fits, Word.sub_of_le fits (by omega)]
    · -- the sum wraps to zero and the subtraction wraps it back
      rw [wraps]
      unfold Word.add
      rw [wraps]
      decide
  rw [roundUpPo2_mask ha, sum]

/-! ## `extract_bit_chunk` -/

theorem extractBitChunk_eq {bitFrom bitTo x : Nat} (width : bitTo - bitFrom + 1 ≤ 64) :
    extractBitChunk bitFrom bitTo x = x / 2 ^ bitFrom % 2 ^ (bitTo - bitFrom + 1) := by
  have mask : (2 ^ 64 - 1) >>> (64 - (bitTo - bitFrom + 1)) = 2 ^ (bitTo - bitFrom + 1) - 1 := by
    apply Nat.eq_of_testBit_eq
    intro j
    rw [Nat.testBit_shiftRight, Nat.testBit_two_pow_sub_one, Nat.testBit_two_pow_sub_one]
    exact decide_eq_decide.mpr (by omega)
  rw [extractBitChunk, mask, Nat.and_two_pow_sub_one_eq_mod, Nat.shiftRight_eq_div_pow]

/-! ## What the names promise -/

theorem isGreatest_flp2 {x : Nat} (h : x ≠ 0) (bound : x < 2 ^ 64) :
    IsGreatest {p | (∃ k, p = 2 ^ k) ∧ p ≤ x} (flp2 x) := by
  rw [flp2_eq h bound]
  refine ⟨⟨⟨_, rfl⟩, Nat.log2_self_le h⟩, ?_⟩
  rintro p ⟨⟨k, rfl⟩, le⟩
  exact Nat.pow_le_pow_right (by decide) ((Nat.le_log2 h).mpr le)

theorem isLeast_clp2 {x : Nat} (h : x ≠ 0) (bound : x ≤ 2 ^ 63) :
    IsLeast {p | (∃ k, p = 2 ^ k) ∧ x ≤ p} (clp2 x) := by
  rw [clp2_eq h bound]
  refine ⟨⟨⟨_, rfl⟩, Nat.le_pow_clog (by decide) x⟩, ?_⟩
  rintro p ⟨⟨k, rfl⟩, le⟩
  exact Nat.pow_le_pow_right (by decide) ((Nat.clog_le_iff_le_pow (by decide)).mpr le)

theorem isLeast_roundUpPo2 {v a : Nat} (ha : a < 64) (h : v + 2 ^ a ≤ 2 ^ 64) :
    IsLeast {m | 2 ^ a ∣ m ∧ v ≤ m} (roundUpPo2 v (2 ^ a)) := by
  have pos := Nat.two_pow_pos a
  rw [roundUpPo2_eq ha h]
  refine ⟨⟨Nat.dvd_mul_left _ _, ?_⟩, ?_⟩
  · have := Nat.lt_div_mul_add (a := v + 2 ^ a - 1) pos
    omega
  · rintro m ⟨⟨n, rfl⟩, le⟩
    rw [Nat.mul_comm]
    refine Nat.mul_le_mul_left _ (Nat.le_of_lt_succ ((Nat.div_lt_iff_lt_mul pos).mpr ?_))
    rw [Nat.succ_mul, Nat.mul_comm]
    omega

/-- **The power-of-two arithmetic agrees with its definition**, on 64-bit words: the floor of the binary
logarithm, the nearest powers of two below and above, integer powers, and the next multiple. -/
theorem power_of_two_arithmetic :
    (∀ x, 1 ≤ x → x < 2 ^ 64 → ilog2 x = Nat.log 2 x ∧ flp2 x = upow 2 (ilog2 x) ∧
      IsGreatest {p | (∃ k, p = 2 ^ k) ∧ p ≤ x} (flp2 x)) ∧
    (∀ x, 1 ≤ x → x ≤ 2 ^ 63 → IsLeast {p | (∃ k, p = 2 ^ k) ∧ x ≤ p} (clp2 x)) ∧
    (∀ b e, upow b e = b ^ e % 2 ^ 64) ∧
    ∀ q v, (∃ k, q = 2 ^ k) → q < 2 ^ 64 → v + q - 1 < 2 ^ 64 →
      IsLeast {m | q ∣ m ∧ v ≤ m} (roundUpPo2 v q) := by
  refine ⟨fun x pos word => ?_, fun x pos bound => isLeast_clp2 (by omega) bound, upow_eq, ?_⟩
  · have nonzero : x ≠ 0 := by omega
    have short : x.log2 < 64 := (Nat.log2_lt nonzero).mpr word
    refine ⟨?_, ?_, isGreatest_flp2 nonzero word⟩
    · rw [ilog2_eq nonzero word, Nat.log2_eq_log_two]
    · rw [ilog2_eq nonzero word, upow_two short, flp2_eq nonzero word]
  · rintro q v ⟨k, rfl⟩ word sum
    have pos := Nat.two_pow_pos k
    exact isLeast_roundUpPo2 ((Nat.pow_lt_pow_iff_right (by decide)).mp word) (by omega)

/-- 5000 bytes and pages of 4 KiB. -/
theorem power_of_two_arithmetic_page :
    ilog2 5000 = Nat.log 2 5000 ∧ IsGreatest {p | (∃ k, p = 2 ^ k) ∧ p ≤ 5000} (flp2 5000) ∧
    IsLeast {p | (∃ k, p = 2 ^ k) ∧ 5000 ≤ p} (clp2 5000) ∧ upow 2 12 = 4096 ∧
    IsLeast {m | 4096 ∣ m ∧ 5000 ≤ m} (roundUpPo2 5000 4096) := by
  obtain ⟨low, high, power, multiple⟩ := power_of_two_arithmetic
  obtain ⟨log, -, greatest⟩ := low 5000 (by decide) (by decide)
  exact ⟨log, greatest, high 5000 (by decide) (by decide), power 2 12,
    multiple 4096 5000 ⟨12, rfl⟩ (by decide) (by decide)⟩

end AlmeidaOS.Kernel
