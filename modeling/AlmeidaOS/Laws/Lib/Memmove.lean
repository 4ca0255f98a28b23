import AlmeidaOS.Libc.String

/-!
# When `memmove` moves

`memcpy` copies forward, which is right unless the destination lies above the source and meets it
(`memcpy_eq_copy`); what `memmove` then clears is not always the rest of the source. The law says for
which addresses and sizes the bytes arrive whatever memory holds, and nothing else changes.
-/

namespace AlmeidaOS.Kernel

/-- The bytes of the source arrive at the destination, and no byte outside both ranges changes. -/
def Moves (move : Nat → Nat → Nat → Mem → Mem) (dst src size : Nat) (m : Mem) : Prop :=
  (∀ i < size, move dst src size m (dst + i) = m (src + i)) ∧
    ∀ x, (x < dst ∨ dst + size ≤ x) → (x < src ∨ src + size ≤ x) → move dst src size m x = m x

section Parts

variable {dst src size : Nat} {m : Mem}

/-- `memcpy`: the words, and the bytes behind them. -/
theorem memcpy_eq (m : Mem) (start : dst < 2 ^ 64) (start' : src < 2 ^ 64) (size : Nat) :
    memcpy dst src size m = (repMovs 64 1 (size % 8) ((dst + 8 * (size / 8)) % 2 ^ 64) ((src + 8 * (size / 8)) % 2 ^ 64)
      (repMovs 64 8 (size / 8) dst src m).2.2).2.2 := by
  have words : size >>> 3 = size / 8 := Nat.shiftRight_eq_div_pow size 3
  have rest : size &&& 7 = size % 8 := Nat.and_two_pow_sub_one_eq_mod size 3
  have pointers : (repMovs 64 8 (size / 8) dst src m).1 = (dst + 8 * (size / 8)) % 2 ^ 64 ∧
      (repMovs 64 8 (size / 8) dst src m).2.1 = (src + 8 * (size / 8)) % 2 ^ 64 := repMovs_pointers _ m start start'
  rw [memcpy, words, rest, ← pointers.1, ← pointers.2]

/-- `memcpy` is a block copy when it does not write what it has still to read. -/
theorem memcpy_eq_copy (m : Mem) (start : dst < 2 ^ 64) (start' : src < 2 ^ 64) (fits : dst + size ≤ 2 ^ 64)
    (fits' : src + size ≤ 2 ^ 64) (safe : dst ≤ src ∨ src + size ≤ dst) : memcpy dst src size m = m.copy dst src size := by
  have whole : 8 * (size / 8) + 1 * (size % 8) = size := by omega
  have words : (repMovs 64 8 (size / 8) dst src m).2.2 = m.copy dst src (8 * (size / 8)) :=
    repMovs_eq_copy (by decide) _ m (by omega) (by omega) (by omega)
  rw [memcpy_eq m start start', words]
  rcases Nat.eq_zero_or_pos (size % 8) with none | some
  · rw [none, repMovs, show 8 * (size / 8) = size by omega]
  · have below : (dst + 8 * (size / 8)) % 2 ^ 64 = dst + 8 * (size / 8) := Nat.mod_eq_of_lt (by omega)
    have below' : (src + 8 * (size / 8)) % 2 ^ 64 = src + 8 * (size / 8) := Nat.mod_eq_of_lt (by omega)
    rw [below, below', repMovs_eq_copy Nat.one_pos _ _ (by omega) (by omega) (by omega), Mem.copy_append (by omega), whole]

/-- Eight bytes go at once, wherever they go. -/
theorem memcpy_eight (m : Mem) (start : dst < 2 ^ 64) (start' : src < 2 ^ 64) : memcpy dst src 8 m = m.copy dst src 8 := by
  rw [memcpy_eq m start start']
  simp only [Nat.reduceDiv, repMovs, m.store_load]

/-- The first unit that `memcpy` copies. -/
def firstUnit (size : Nat) : Nat := if size < 8 then 1 else 8

/-- Memory with one byte marked. -/
def marked (s : Nat) : Mem := ⟨fun x => if x = s then 1 else 2⟩

/-- When the first unit overwrites a byte that it does not copy, that byte is lost. -/
theorem memcpy_loses (start : dst < 2 ^ 64) (start' : src < 2 ^ 64) {i : Nat} (inside : i < size)
    (later : firstUnit size ≤ i) (lower : dst ≤ src + i) (upper : src + i < dst + firstUnit size) :
    ∀ x, memcpy dst src size (marked (src + i)) x ≠ 1 := by
  have lost : ∀ x, (marked (src + i)).copy dst src (firstUnit size) x ≠ 1 := by
    intro x
    show (if _ then (if _ then _ else _) else (if _ then _ else _)) ≠ (1 : UInt8)
    by_cases written : dst ≤ x ∧ x < dst + firstUnit size
    · rw [if_pos written, if_neg (by omega)]
      decide
    · rw [if_neg written, if_neg (by omega)]
      decide
  rw [memcpy_eq _ start start']
  unfold firstUnit at lost
  by_cases short : size < 8
  · rw [if_pos short] at lost
    obtain ⟨n, count⟩ : ∃ n, size % 8 = n + 1 := ⟨size % 8 - 1, by omega⟩
    have first : (dst + 8 * 0) % 2 ^ 64 = dst := Nat.mod_eq_of_lt start
    have first' : (src + 8 * 0) % 2 ^ 64 = src := Nat.mod_eq_of_lt start'
    rw [Nat.div_eq_of_lt short, count, first, first', repMovs, repMovs, Mem.store_load]
    exact repMovs_ne n lost
  · rw [if_neg short] at lost
    obtain ⟨n, count⟩ : ∃ n, size / 8 = n + 1 := ⟨size / 8 - 1, by omega⟩
    rw [count, repMovs, Mem.store_load]
    exact repMovs_ne _ (repMovs_ne n lost)

theorem uniform_null : Uniform 1 (0 : UInt8).toNat 0 := uniform_zero 1

theorem memzero_eq_fill (m : Mem) (fits : dst + size ≤ 2 ^ 64) : memzero dst size m = m.fill dst size 0 := by
  have filled : memzero dst size m = m.fill dst (1 * size) 0 :=
    repStos_eq_fill uniform_null Nat.one_pos size m (by rwa [Nat.one_mul])
  rwa [Nat.one_mul] at filled

end Parts

/-! ## The three ways through `memmove` -/

section Branches

variable {dst src size : Nat} (start : dst < 2 ^ 64) (start' : src < 2 ^ 64) (fits : dst + size ≤ 2 ^ 64)
  (fits' : src + size ≤ 2 ^ 64)

include start fits in
/-- The destination above the source: what is cleared is the source below the destination, as far as the
source goes. -/
theorem memmove_up (above : src < dst) (m : Mem) :
    memmove dst src size m = memzero src (if src + size < dst then size else size - (dst - src)) (memcpy dst src size m) := by
  have ends : Word.add src size = src + size := Word.add_of_lt (by omega)
  have gap : Word.sub dst src = dst - src := Word.sub_of_le start (by omega)
  rw [memmove, if_neg (by omega), ends, gap]
  by_cases apart : src + size < dst
  · simp only [above, apart, and_self, true_or, if_true]
  · have less : Word.sub size (dst - src) = size - (dst - src) := Word.sub_of_le (by omega) (by omega)
    rw [if_neg apart]
    simp only [above, apart, and_false, false_or, show ¬ src > dst by omega, false_and, if_false, if_true, less]

include start' fits' in
/-- The destination below the source. -/
theorem memmove_down (below : dst < src) (m : Mem) :
    memmove dst src size m = if dst + size < src then memzero src size (memcpy dst src size m)
      else memzero (Word.add src (src - dst)) (src - dst) (memcpy dst src size m) := by
  have ends : Word.add dst size = dst + size := Word.add_of_lt (by omega)
  have gap : Word.sub (Word.add src size) (dst + size) = src - dst := by
    unfold Word.sub Word.add
    omega
  rw [memmove, if_neg (by omega), ends]
  by_cases apart : dst + size < src
  · rw [if_pos apart]
    simp only [below, apart, and_self, or_true, if_true]
  · rw [if_neg apart]
    simp only [show ¬ dst > src by omega, apart, and_false, false_and, or_self, if_false, gap]

/-- A block copy, and then zeros in the source that are not in the destination. -/
theorem moves_of_copy_fill {move : Nat → Nat → Nat → Mem → Mem} {m : Mem} {p k : Nat}
    (eq : move dst src size m = (m.copy dst src size).fill p k 0) (within : src ≤ p ∧ p + k ≤ src + size)
    (off : p + k ≤ dst ∨ dst + size ≤ p) : Moves move dst src size m := by
  refine ⟨fun i inside => ?_, fun x outside outside' => ?_⟩
  · rw [eq, Mem.fill_byte (by omega)]
    show (if _ then _ else _) = _
    rw [if_pos (by omega), Nat.add_sub_cancel_left]
  · rw [eq, Mem.fill_byte (by omega), Mem.copy_byte (by omega)]

end Branches

/-- The addresses and sizes that `memmove` is right for. -/
def MovesRight (dst src size : Nat) : Prop :=
  dst = src ∨ src + size ≤ dst ∨ dst + size < src ∨ (src < dst ∧ size = 8 ∧ 4 ≤ dst - src) ∨
    (dst < src ∧ size = 2 * (src - dst))

section Right

variable {dst src size : Nat} (start : dst < 2 ^ 64) (start' : src < 2 ^ 64) (fits : dst + size ≤ 2 ^ 64)
  (fits' : src + size ≤ 2 ^ 64)

include start start' fits fits' in
theorem moves_of_right (right : MovesRight dst src size) (m : Mem) : Moves memmove dst src size m := by
  rcases Nat.lt_trichotomy dst src with below | rfl | above
  · have copied := memcpy_eq_copy m start start' fits fits' (.inl (Nat.le_of_lt below))
    have way := memmove_down start' fits' below m
    rw [copied] at way
    by_cases apart : dst + size < src
    · rw [if_pos apart, memzero_eq_fill _ fits'] at way
      exact moves_of_copy_fill way ⟨Nat.le_refl _, Nat.le_refl _⟩ (.inr (Nat.le_of_lt apart))
    · have twice : size = 2 * (src - dst) := by
        unfold MovesRight at right
        omega
      rw [if_neg apart, Word.add_of_lt (by omega), memzero_eq_fill _ (by omega)] at way
      exact moves_of_copy_fill way ⟨by omega, by omega⟩ (.inr (by omega))
  · have same : memmove dst dst size m = m := by rw [memmove, if_pos rfl]
    refine ⟨fun i _ => by rw [same], fun x _ _ => by rw [same]⟩
  · have copied : memcpy dst src size m = m.copy dst src size := by
      by_cases apart : src + size ≤ dst
      · exact memcpy_eq_copy m start start' fits fits' (.inr apart)
      · obtain rfl : size = 8 := by
          unfold MovesRight at right
          omega
        exact memcpy_eight m start start'
    have way := memmove_up start fits above m
    rw [copied, memzero_eq_fill _ (by split <;> omega)] at way
    refine moves_of_copy_fill way ⟨Nat.le_refl _, ?_⟩ (.inl ?_)
    · split <;> omega
    · unfold MovesRight at right
      split <;> omega

/-- Memory without a zero. -/
def allTwo : Mem := ⟨fun _ => 2⟩

include start start' fits fits' in
/-- With the destination above the source, the forward copy loses a byte or the clearing does. -/
theorem exists_lost_above (above : src < dst) (meets : dst < src + size) (wrong : ¬ (size = 8 ∧ 4 ≤ dst - src)) :
    ∃ m, ¬ Moves memmove dst src size m := by
  have loses : ∀ i, i < size → firstUnit size ≤ i → dst ≤ src + i → src + i < dst + firstUnit size →
      ∃ m, ¬ Moves memmove dst src size m := by
    intro i inside later lower upper
    refine ⟨marked (src + i), fun moves => ?_⟩
    have arrived := moves.1 i inside
    rw [memmove_up start fits above] at arrived
    have kept : (marked (src + i)) (src + i) = 1 := if_pos rfl
    exact repStos_ne uniform_null (by decide) _ (memcpy_loses start start' inside later lower upper) _ (arrived.trans kept)
  by_cases eight : size = 8
  · -- all bytes arrive, but the first one is cleared
    refine ⟨allTwo, fun moves => ?_⟩
    have arrived := moves.1 0 (by omega)
    rw [memmove_up start fits above, if_neg (by omega), memzero_eq_fill _ (by omega),
      Mem.fill_byte_inside (by omega) (by omega)] at arrived
    exact absurd arrived (show (0 : UInt8) ≠ 2 by decide)
  · by_cases near : dst - src < 8 ∧ 8 < size
    · have unit : firstUnit size = 8 := if_neg (by omega)
      exact loses 8 near.2 (by omega) (by omega) (by omega)
    · refine loses (dst - src) (by omega) ?_ (by omega) ?_
      · unfold firstUnit
        split <;> omega
      · unfold firstUnit
        split <;> omega

include start start' fits fits' in
/-- With the destination below the source, the clearing reaches into the destination or beyond the
source. -/
theorem exists_lost_below (below : dst < src) (meets : src ≤ dst + size) (wrong : size ≠ 2 * (src - dst)) :
    ∃ m, ¬ Moves memmove dst src size m := by
  refine ⟨allTwo, fun moves => ?_⟩
  have cleared : ∀ k, src - dst ≤ k → k < 2 * (src - dst) → memmove dst src size allTwo ((src + k) % 2 ^ 64) = 0 := by
    intro k lower upper
    rw [memmove_down start' fits' below, if_neg (by omega)]
    have written := repStos_byte uniform_null (src - dst) (i := k - (src - dst)) (memcpy dst src size allTwo) (by omega)
      (Word.add_lt src (src - dst))
    unfold Word.add at written
    rwa [Nat.mod_add_mod, show src + (src - dst) + (k - (src - dst)) = src + k by omega] at written
  have differs : ∀ x, memmove dst src size allTwo x = 0 → memmove dst src size allTwo x ≠ 2 := by
    intro x zero
    rw [zero]
    decide
  by_cases short : size < 2 * (src - dst)
  · -- the byte behind the source
    have zero := cleared size (by omega) short
    by_cases last : src + size = 2 ^ 64
    · rw [last, Nat.mod_self] at zero
      by_cases first : dst = 0
      · subst first
        exact differs 0 zero (moves.1 0 (by omega))
      · exact differs 0 zero (moves.2 0 (by omega) (by omega))
    · rw [Nat.mod_eq_of_lt (by omega)] at zero
      exact differs _ zero (moves.2 _ (by omega) (by omega))
  · have zero := cleared (src - dst) (Nat.le_refl _) (by omega)
    rw [Nat.mod_eq_of_lt (by omega)] at zero
    refine differs _ zero ?_
    rw [show src + (src - dst) = dst + 2 * (src - dst) by omega]
    exact moves.1 (2 * (src - dst)) (by omega)

include start start' fits fits' in
theorem moves_iff_right : (∀ m, Moves memmove dst src size m) ↔ MovesRight dst src size := by
  constructor
  · intro all
    by_contra wrong
    unfold MovesRight at wrong
    push Not at wrong
    obtain ⟨differ, meets, meets', eight, twice⟩ := wrong
    rcases Nat.lt_or_gt_of_ne differ with below | above
    · obtain ⟨m, fails⟩ := exists_lost_below start start' fits fits' below meets' (twice below)
      exact fails (all m)
    · obtain ⟨m, fails⟩ := exists_lost_above start start' fits fits' above meets fun both =>
        absurd both.2 (Nat.not_le_of_lt (eight above both.1))
      exact fails (all m)
  · exact moves_of_right start start' fits fits'

include start start' fits fits' in
/-- **`memmove` moves, whatever memory holds, exactly when** the two addresses are the same; or the
ranges do not meet, and the destination does not end where the source begins; or it is eight bytes moved
up by four to seven; or moved down by half their number. In the kernel and in libc. -/
theorem memmove_moves_iff :
    ((∀ m, Moves memmove dst src size m) ↔ MovesRight dst src size) ∧
      ((∀ m, Moves Libc.memmove dst src size m) ↔ MovesRight dst src size) :=
  ⟨moves_iff_right start start' fits fits', moves_iff_right start start' fits fits'⟩

end Right

/-- Sixteen bytes moved to a place that is apart. -/
theorem memmove_moves_apart :
    (∀ m, Moves memmove 0x2000 0x1000 16 m) ∧ ∀ m, Moves Libc.memmove 0x2000 0x1000 16 m := by
  obtain ⟨kernel, libc⟩ := memmove_moves_iff (show 0x2000 < 2 ^ 64 by decide) (show 0x1000 < 2 ^ 64 by decide)
    (show 0x2000 + 16 ≤ 2 ^ 64 by decide) (show 0x1000 + 16 ≤ 2 ^ 64 by decide)
  exact ⟨kernel.mpr (.inr (.inl (by decide))), libc.mpr (.inr (.inl (by decide)))⟩

/-- Two bytes moved up by one: the first of them arrives twice. -/
theorem memmove_smears : ∃ m : Mem, m 0x1001 = 7 ∧ memmove 0x1001 0x1000 2 m 0x1002 ≠ 7 ∧
    ¬ Moves memmove 0x1001 0x1000 2 m ∧ ¬ Moves Libc.memmove 0x1001 0x1000 2 m := by
  refine ⟨⟨fun x => if x = 0x1001 then 7 else 5⟩, by decide, by decide, fun moves => ?_, fun moves => ?_⟩
  · exact absurd (moves.1 1 (by decide)) (by decide)
  · exact absurd (moves.1 1 (by decide)) (by decide)

end AlmeidaOS.Kernel
