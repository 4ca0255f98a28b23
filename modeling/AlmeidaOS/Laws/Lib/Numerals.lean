import Mathlib.Data.Nat.Digits.Lemmas
import Mathlib.Data.List.GetD
import AlmeidaOS.Libc.Stdlib

/-!
# Numbers as text

The conversions of `string.c` take the digits off a number from its low end and then turn the string
round in place. `strrev_eq` says that the turn is a reversal, for even and odd lengths, and
`ulltoa_eq` and `lltoaLoop_eq` say that the digits are those of the number, so that what is written is
its numeral. `readNumber` reads a numeral back.
-/

namespace AlmeidaOS.Kernel

/-! ## Reading a numeral -/

/-- The value of a digit. Above 9 these are the lower-case letters. -/
def digitValue (c : UInt8) : Option Nat :=
  if ascii '0' ≤ c ∧ c ≤ ascii '9' then some (c.toNat - 48)
  else if ascii 'a' ≤ c ∧ c ≤ ascii 'f' then some (c.toNat - 97 + 10)
  else none

/-- A number with one more digit behind it. -/
def readDigit (radix n : Nat) (c : UInt8) : Option Nat :=
  (digitValue c).bind fun d => if d < radix then some (radix * n + d) else none

/-- The number that a text of digits stands for. -/
def readNumber (radix : Nat) (text : List UInt8) : Option Nat :=
  if text = [] then none else text.foldlM (readDigit radix) 0

/-- The text stands for the number and does not begin with a zero, unless it is that zero. -/
structure Numeral (radix v : Nat) (text : List UInt8) : Prop where
  reads : readNumber radix text = some v
  canonical : text.head? = some (ascii '0') → text = [ascii '0']

/-- The numeral of a number. -/
def numeral (radix v : Nat) : List UInt8 :=
  if v = 0 then [ascii '0'] else ((Nat.digits radix v).map fun d : Nat => digitChar d).reverse

section Digits

variable {radix v : Nat}

theorem digitValue_digitChar : ∀ d < 16, digitValue (digitChar (d : Nat)) = some d := by decide

theorem digitChar_eq_zero : ∀ d < 16, digitChar (d : Nat) = ascii '0' → d = 0 := by decide

theorem foldlM_digits (bound : radix ≤ 16) {digits : List Nat} (small : ∀ d ∈ digits, d < radix) :
    (digits.map fun d : Nat => digitChar d).reverse.foldlM (readDigit radix) 0 = some (Nat.ofDigits radix digits) := by
  induction digits with
  | nil => rfl
  | cons d digits ih =>
    have here := small d (List.mem_cons_self ..)
    rw [List.map_cons, List.reverse_cons, List.foldlM_append, ih fun e mem => small e (List.mem_cons_of_mem _ mem)]
    simp only [Option.bind_eq_bind, Option.bind_some, List.foldlM_cons, List.foldlM_nil, readDigit,
      digitValue_digitChar d (by omega), here, if_true, Nat.ofDigits_cons]
    rw [Nat.add_comm]
    rfl

theorem numeral_ne_nil (radix v : Nat) : numeral radix v ≠ [] := by
  unfold numeral
  split
  · exact List.cons_ne_nil _ _
  · simpa using Nat.digits_ne_nil_iff_ne_zero.mpr ‹_›

/-- The first digit of a number other than 0 is not a zero. -/
theorem numeral_head (two : 2 ≤ radix) (bound : radix ≤ 16) (pos : v ≠ 0) :
    (numeral radix v).head? ≠ some (ascii '0') := by
  intro zero
  have last := Nat.getLast_digit_ne_zero radix pos
  rw [numeral, if_neg pos, List.head?_reverse, List.getLast?_map,
    List.getLast?_eq_getLast_of_ne_nil (Nat.digits_ne_nil_iff_ne_zero.mpr pos), Option.map_some, Option.some_inj] at zero
  refine last (digitChar_eq_zero _ ?_ zero)
  exact Nat.lt_of_lt_of_le (Nat.digits_lt_base two (List.getLast_mem _)) bound

theorem numeral_numeral (two : 2 ≤ radix) (bound : radix ≤ 16) (v : Nat) : Numeral radix v (numeral radix v) := by
  by_cases zero : v = 0
  · rw [numeral, if_pos zero, zero]
    refine ⟨?_, fun _ => rfl⟩
    simp [readNumber, readDigit, digitValue, ascii, show 0 < radix by omega]
  · refine ⟨?_, fun head => absurd head (numeral_head two bound zero)⟩
    rw [readNumber, if_neg (numeral_ne_nil radix v), numeral, if_neg zero,
      foldlM_digits bound fun d mem => Nat.digits_lt_base two mem, Nat.ofDigits_digits]

/-- A numeral has as many digits as powers of the radix do not exceed the number. -/
theorem numeral_length_le {k : Nat} (two : 2 ≤ radix) (small : v < radix ^ k) (pos : 0 < k) :
    (numeral radix v).length ≤ k := by
  unfold numeral
  split
  · exact pos
  · rw [List.length_reverse, List.length_map]
    exact (Nat.digits_length_le_iff two v).mpr small

theorem mem_numeral (two : 2 ≤ radix) (bound : radix ≤ 16) {c : UInt8} (mem : c ∈ numeral radix v) :
    ∃ d < 16, c = digitChar (d : Nat) := by
  unfold numeral at mem
  split at mem
  · exact ⟨0, by decide, List.mem_singleton.mp mem⟩
  · rw [List.mem_reverse, List.mem_map] at mem
    obtain ⟨d, mem, rfl⟩ := mem
    exact ⟨d, Nat.lt_of_lt_of_le (Nat.digits_lt_base two mem) bound, rfl⟩

end Digits

/-! ## `strrev` -/

section Reversal

variable {str : List UInt8} {length : Nat}

theorem swapChars_length (str : List UInt8) (i j : Nat) : (swapChars str i j).length = str.length := by
  rw [swapChars, List.length_set, List.length_set]

theorem swapChars_getD {i j : Nat} (inside : i < str.length) (inside' : j < str.length) (k : Nat) :
    (swapChars str i j).getD k 0 = if k = j then str.getD i 0 else if k = i then str.getD j 0 else str.getD k 0 := by
  simp only [swapChars, List.getD_eq_getElem?_getD, List.getElem?_set, List.length_set]
  by_cases last : j = k
  · subst last
    simp [inside']
  · by_cases first : i = k
    · subst first
      simp [inside, last, Ne.symm last]
    · simp [last, first, Ne.symm last, Ne.symm first]

/-- After `k` rounds the first `k` and the last `k` characters have changed places. -/
theorem strrev_rounds (inside : length ≤ str.length) {k : Nat} (half : k ≤ length / 2) :
    let turned := (List.range k).foldl (fun str start => swapChars str start (length - 1 - start)) str
    turned.length = str.length ∧
      ∀ i, turned.getD i 0 = if i < length ∧ (i < k ∨ length ≤ i + k) then str.getD (length - 1 - i) 0 else str.getD i 0 := by
  induction k with
  | zero =>
    refine ⟨rfl, fun i => ?_⟩
    rw [if_neg (by omega)]
    rfl
  | succ k ih =>
    obtain ⟨same, chars⟩ := ih (by omega)
    rw [List.range_succ, List.foldl_append, List.foldl_cons, List.foldl_nil]
    refine ⟨(swapChars_length ..).trans same, fun i => ?_⟩
    rw [swapChars_getD (by rw [same]; omega) (by rw [same]; omega), chars, chars, chars]
    by_cases last : i = length - 1 - k
    · rw [if_pos last, if_neg (by omega), if_pos (by omega)]
      congr 1
      omega
    · by_cases first : i = k
      · rw [if_neg last, if_pos first, if_neg (by omega), if_pos (by omega), first]
      · rw [if_neg last, if_neg first]
        congr 1
        exact propext (by omega)

/-- `strrev` reverses the characters it is given and leaves the others. -/
theorem strrev_eq (str rest : List UInt8) : strrev (str ++ rest) str.length = str.reverse ++ rest := by
  unfold strrev
  split
  · rename_i short
    rcases str with _ | ⟨c, _ | ⟨d, str⟩⟩
    · rfl
    · rfl
    · simp at short
  · have le : str.length ≤ (str ++ rest).length := by rw [List.length_append]; omega
    obtain ⟨same, chars⟩ := strrev_rounds le (Nat.le_refl (str.length / 2))
    refine List.ext_getElem (by rw [same, List.length_append, List.length_append, List.length_reverse]) fun i _ _ => ?_
    rw [← List.getD_eq_getElem _ 0, ← List.getD_eq_getElem _ 0, chars]
    by_cases front : i < str.length
    · have back : (str.reverse ++ rest).getD i 0 = str.getD (str.length - 1 - i) 0 := by
        rw [List.getD_append _ _ _ _ (by rw [List.length_reverse]; exact front), List.getD_reverse _ front]
      rw [back]
      split
      · exact List.getD_append _ _ _ _ (by omega)
      · -- the character in the middle
        rw [List.getD_append _ _ _ _ front]
        congr 1
        omega
    · rw [if_neg (by omega), List.getD_append_right _ _ _ _ (by omega),
        List.getD_append_right _ _ _ _ (by rw [List.length_reverse]; omega), List.length_reverse]

end Reversal

/-! ## The loops -/

section Loops

variable {radix : Nat}

theorem ulltoaLoop_eq (two : 2 ≤ radix) (value : Nat) (str : List UInt8) :
    ulltoaLoop radix value str = str ++ (Nat.digits radix value).map fun d : Nat => digitChar d := by
  induction value using Nat.strongRecOn generalizing str with
  | ind value ih =>
    rw [ulltoaLoop]
    by_cases zero : value = 0
    · simp [zero]
    · rw [if_neg (by omega), ih (value / radix) (Nat.div_lt_self (by omega) two), List.append_assoc,
        Nat.digits_def' two (Nat.pos_of_ne_zero zero)]
      rfl

/-- The signed loop goes through the same digits; those of a negative number come out negative. -/
theorem lltoaLoop_eq (two : 2 ≤ radix) {sign : Int} (unit : sign = 1 ∨ sign = -1) (n : Nat) (str : List UInt8) :
    lltoaLoop radix (sign * n) str = str ++ (Nat.digits radix n).map fun d : Nat => digitChar (sign * d) := by
  induction n using Nat.strongRecOn generalizing str with
  | ind n ih =>
    rw [lltoaLoop]
    by_cases zero : n = 0
    · simp [zero]
    · have nonzero : sign * n ≠ 0 := by
        rcases unit with rfl | rfl <;> omega
      have quotient : (sign * n).tdiv radix = sign * (n / radix : Nat) := by
        rcases unit with rfl | rfl
        · rw [Int.one_mul, Int.one_mul, Int.ofNat_tdiv]
        · rw [Int.neg_one_mul, Int.neg_one_mul, Int.neg_tdiv, Int.ofNat_tdiv]
      have rem : (sign * n).tmod radix = sign * (n % radix : Nat) := by
        rcases unit with rfl | rfl
        · rw [Int.one_mul, Int.one_mul, Int.ofNat_tmod]
        · rw [Int.neg_one_mul, Int.neg_one_mul, Int.neg_tmod, Int.ofNat_tmod]
      rw [if_neg (by omega), quotient, rem, ih (n / radix) (Nat.div_lt_self (Nat.pos_of_ne_zero zero) two), List.append_assoc,
        Nat.digits_def' two (Nat.pos_of_ne_zero zero)]
      rfl

end Loops

/-! ## The conversions -/

section Conversions

variable {radix : Nat}

/-- The radixes that the conversions support. -/
def Supported (radix : Nat) : Prop := radix = 8 ∨ radix = 10 ∨ radix = 16

theorem Supported.two_le (supported : Supported radix) : 2 ≤ radix := by
  rcases supported with rfl | rfl | rfl <;> decide

theorem Supported.le_sixteen (supported : Supported radix) : radix ≤ 16 := by
  rcases supported with rfl | rfl | rfl <;> decide

theorem Supported.passes (supported : Supported radix) : ¬ (radix ≠ 8 ∧ radix ≠ 10 ∧ radix ≠ 16) := by
  rintro ⟨no8, no10, no16⟩
  rcases supported with h | h | h
  · exact no8 h
  · exact no10 h
  · exact no16 h

/-- `ulltoa` writes the numeral and the NUL. -/
theorem ulltoa_eq (supported : Supported radix) (v : Nat) : ulltoa v radix = numeral radix v ++ [0] := by
  rw [ulltoa, if_neg supported.passes, numeral]
  split
  · rfl
  · rw [ulltoaLoop_eq supported.two_le, strrev_eq]
    rfl

/-- So does `lltoa`, of a number that is not negative. -/
theorem lltoa_natCast (supported : Supported radix) (v : Nat) : lltoa v radix = numeral radix v ++ [0] := by
  rw [lltoa, if_neg supported.passes, numeral]
  by_cases zero : v = 0
  · rw [if_pos zero, if_pos (by omega)]
    rfl
  · have loop := lltoaLoop_eq supported.two_le (.inl rfl) v []
    simp only [Int.one_mul, List.nil_append] at loop
    have nonnegative : ¬ ((v : Int) < 0 ∧ radix = 10) := fun negative => absurd negative.1 (by omega)
    rw [if_neg zero, if_neg (by omega)]
    simp only [if_neg nonnegative, loop, strrev_eq]

/-- The text of a negative number: the sign, and what the loop makes of its `abs`. -/
theorem lltoa_negative {v : Int} (negative : v < 0) :
    lltoa v 10 = (ascii '-' :: (lltoaLoop 10 (abs v) []).reverse) ++ [0] := by
  rw [lltoa, if_neg (by decide), if_neg (by omega)]
  simp only [negative, true_and, if_true]
  rw [strrev_eq, List.reverse_append]
  rfl

/-- **`ulltoa` round-trips**: it writes a numeral of at most 22 digits and a NUL, for every word and
radix, and `lltoa` writes the same for numbers that are not negative. -/
theorem ulltoa_round_trips {v : Nat} (word : v < 2 ^ 64) (supported : radix = 8 ∨ radix = 10 ∨ radix = 16) :
    (∃ text, ulltoa v radix = text ++ [0] ∧ text.length ≤ 22 ∧ Numeral radix v text) ∧
      (v < 2 ^ 63 → lltoa v radix = ulltoa v radix) := by
  have short : v < radix ^ 22 := by
    have least : 8 ^ 22 ≤ radix ^ 22 := Nat.pow_le_pow_left (by omega) 22
    exact Nat.lt_of_lt_of_le (Nat.lt_trans word (by decide)) least
  refine ⟨⟨numeral radix v, ulltoa_eq supported v, ?_, ?_⟩, fun _ => ?_⟩
  · exact numeral_length_le (Supported.two_le supported) short (by decide)
  · exact numeral_numeral (Supported.two_le supported) (Supported.le_sixteen supported) v
  · rw [lltoa_natCast supported, ulltoa_eq supported]

/-- The largest signed number, in octal. -/
theorem ulltoa_round_trips_octal :
    (∃ text, ulltoa (2 ^ 63 - 1) 8 = text ++ [0] ∧ text.length ≤ 22 ∧ Numeral 8 (2 ^ 63 - 1) text) ∧
      lltoa ((2 ^ 63 - 1 : Nat) : Int) 8 = ulltoa (2 ^ 63 - 1) 8 := by
  obtain ⟨written, same⟩ := ulltoa_round_trips (v := 2 ^ 63 - 1) (by decide) (.inl rfl)
  exact ⟨written, same (by decide)⟩

end Conversions

/-! ## Negative numbers -/

/-- The text is the decimal numeral of the number, behind a `-` if it is negative. -/
def SignedNumeral (v : Int) (text : List UInt8) : Prop :=
  ∃ n digits, Numeral 10 n digits ∧ ((text = digits ∧ v = n) ∨ (text = ascii '-' :: digits ∧ v = -n))

/-- What was written is a NUL-terminated decimal numeral that reads back as the number. -/
def RoundTrips (v : Int) (written : List UInt8) : Prop := ∃ text, written = text ++ [0] ∧ SignedNumeral v text

section Signed

variable {v : Int}

theorem int_not_eq (x : Int) : ~~~x = -x - 1 := by
  cases x with
  | ofNat n =>
    show Int.negSucc n = -(n : Int) - 1
    omega
  | negSucc n =>
    show (n : Int) = -Int.negSucc n - 1
    omega

/-- `abs` of an `int` is not negative, but for the least one. -/
theorem abs_range (v : Int) : abs v = -2 ^ 31 ∨ (0 ≤ abs v ∧ abs v < 2 ^ 31) := by
  simp only [abs, toInt32, Int.bmod, int_not_eq]
  omega

theorem abs_of_int (low : -2 ^ 31 < v) (negative : v < 0) : abs v = -v := by
  simp only [abs, toInt32, Int.bmod, int_not_eq]
  omega

/-- The least `int` comes out in characters that are no digits. -/
theorem lltoaLoop_least : readNumber 10 (lltoaLoop 10 (-2 ^ 31) []).reverse = none := by
  have digits : Nat.digits 10 (2 ^ 31) = [8, 4, 6, 3, 8, 4, 7, 4, 1, 2] := by norm_num
  have loop := lltoaLoop_eq (show 2 ≤ 10 by decide) (.inr rfl) (2 ^ 31) []
  rw [digits] at loop
  rw [show (-2 ^ 31 : Int) = -1 * ((2 ^ 31 : Nat) : Int) by decide, loop]
  decide

/-- Of any other `int` the loop makes the numeral, or nothing of 0. -/
theorem lltoaLoop_natCast (n : Nat) : (lltoaLoop 10 n []).reverse = if n = 0 then [] else numeral 10 n := by
  have loop := lltoaLoop_eq (show 2 ≤ 10 by decide) (.inl rfl) n []
  simp only [Int.one_mul, List.nil_append] at loop
  rw [loop, numeral]
  split
  · simp [*]
  · rfl

/-- What is read back behind the sign is below `2 ^ 31`. -/
theorem read_abs_lt {n : Nat} (reads : readNumber 10 (lltoaLoop 10 (abs v) []).reverse = some n) : n < 2 ^ 31 := by
  rcases abs_range v with least | ⟨nonneg, high⟩
  · rw [least, lltoaLoop_least] at reads
    cases reads
  · obtain ⟨k, value⟩ := Int.eq_ofNat_of_zero_le nonneg
    rw [value, lltoaLoop_natCast] at reads
    split at reads
    · cases reads
    · rw [(numeral_numeral (by decide) (by decide) k).reads, Option.some_inj] at reads
      omega

/-- No numeral begins with the sign. -/
theorem not_numeral_sign {n : Nat} {text : List UInt8} : ¬ Numeral 10 n (ascii '-' :: text) := by
  intro isNumeral
  have reads := isNumeral.reads
  rw [readNumber, if_neg (List.cons_ne_nil _ _), List.foldlM_cons, show readDigit 10 0 (ascii '-') = none by decide] at reads
  cases reads

theorem roundTrips_iff (v : Int) : RoundTrips v (lltoa v 10) ↔ -2 ^ 31 < v := by
  rcases Int.lt_or_le v 0 with negative | nonneg
  · rw [lltoa_negative negative]
    constructor
    · rintro ⟨text, written, n, digits, isNumeral, ⟨rfl, -⟩ | ⟨rfl, value⟩⟩
      · rw [← List.append_cancel_right written] at isNumeral
        exact absurd isNumeral not_numeral_sign
      · have same := (List.cons.inj (List.append_cancel_right written)).2
        have small := read_abs_lt (same ▸ isNumeral.reads)
        omega
    · intro low
      obtain ⟨n, value⟩ := Int.eq_ofNat_of_zero_le (show 0 ≤ -v by omega)
      refine ⟨_, rfl, n, numeral 10 n, numeral_numeral (by decide) (by decide) n, .inr ⟨?_, by omega⟩⟩
      rw [abs_of_int low negative, value, lltoaLoop_natCast, if_neg (by omega)]
  · obtain ⟨n, rfl⟩ := Int.eq_ofNat_of_zero_le nonneg
    rw [lltoa_natCast (.inr (.inl rfl))]
    refine ⟨fun _ => by omega, fun _ => ⟨numeral 10 n, rfl, n, numeral 10 n, ?_, .inl ⟨rfl, rfl⟩⟩⟩
    exact numeral_numeral (by decide) (by decide) n

/-- **Signed conversion round-trips exactly above the least `int`**, in the kernel and in libc: `abs`
cuts a negative number to its low 32 bits first. -/
theorem lltoa_round_trips_iff (v : Int) :
    (RoundTrips v (lltoa v 10) ↔ -2 ^ 31 < v) ∧ (RoundTrips v (Libc.ltoa v 10) ↔ -2 ^ 31 < v) :=
  ⟨roundTrips_iff v, roundTrips_iff v⟩

/-- The least number that round-trips. -/
theorem lltoa_round_trips_least :
    RoundTrips (-2147483647) (lltoa (-2147483647) 10) ∧ RoundTrips (-2147483647) (Libc.ltoa (-2147483647) 10) := by
  obtain ⟨kernel, libc⟩ := lltoa_round_trips_iff (-2147483647)
  exact ⟨kernel.mpr (by decide), libc.mpr (by decide)⟩

/-- `-2 ^ 32` is written as a sign without digits. -/
theorem lltoa_bare_sign : lltoa (-2 ^ 32) 10 = [ascii '-', 0] ∧ Libc.ltoa (-2 ^ 32) 10 = [ascii '-', 0] ∧
    ¬ RoundTrips (-2 ^ 32) (lltoa (-2 ^ 32) 10) ∧ ¬ RoundTrips (-2 ^ 32) (Libc.ltoa (-2 ^ 32) 10) := by
  have written : lltoa (-2 ^ 32) 10 = [ascii '-', 0] := by
    rw [lltoa_negative (by decide), show abs (-2 ^ 32) = 0 by decide, lltoaLoop]
    rfl
  have fails : ¬ RoundTrips (-2 ^ 32) (lltoa (-2 ^ 32) 10) := by
    rw [roundTrips_iff]
    decide
  exact ⟨written, written, fails, fails⟩

end Signed

end AlmeidaOS.Kernel
