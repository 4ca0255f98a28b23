import AlmeidaOS.Base.Bytes

/-!
# Repeated string instructions

`rep movs` and `rep stos` with the direction flag clear: a count, one or two pointers that go up, and a
unit of one, two, four or eight bytes. The pointers are registers of `bits` bits. A unit is read before
it is written and the next unit is read after that, so `rep movs` is a block copy as long as it does not
write where it has still to read (`repMovs_eq_copy`); `rep stos` of a byte fills
(`repStos_eq_fill`), and past the end of the address space it goes on at 0 (`repStos_byte`).
-/

namespace AlmeidaOS

namespace Mem

variable {m : Mem} {dst src a b n x : Nat}

/-- A byte of a word that was read. -/
theorem load_byte (m : Mem) {n i : Nat} (inside : i < n) (a : Nat) : UInt8.ofNat (m.load a n / 256 ^ i) = m (a + i) := by
  induction n generalizing a i with
  | zero => omega
  | succ n ih =>
    have first := (m a).toNat_lt
    rw [load]
    cases i with
    | zero =>
      apply UInt8.toNat_inj.mp
      rw [Nat.pow_zero, Nat.div_one, UInt8.toNat_ofNat', Nat.add_mul_mod_self_left, Nat.mod_eq_of_lt first]
      rfl
    | succ i =>
      rw [Nat.pow_succ', ← Nat.div_div_eq_div_mul, Nat.add_mul_div_left _ _ (by decide), Nat.div_eq_of_lt first, Nat.zero_add,
        ih (by omega) (a + 1), Nat.add_assoc, Nat.add_comm 1 i]

/-- One unit is copied whole, even onto itself. -/
theorem store_load (m : Mem) (dst src n : Nat) : m.store dst n (m.load src n) = m.copy dst src n := by
  unfold store copy
  congr 1
  funext x
  split
  · rename_i inside
    exact m.load_byte (by omega) src
  · rfl

/-- Two copies, one behind the other, when the first does not write what the second reads. -/
theorem copy_append (safe : dst ≤ src ∨ src + (a + b) ≤ dst) :
    (m.copy dst src a).copy (dst + a) (src + a) b = m.copy dst src (a + b) := by
  unfold copy
  congr 1
  funext x
  show (if _ then (if _ then _ else _) else (if _ then _ else _)) = _
  by_cases back : dst + a ≤ x ∧ x < dst + a + b
  · rw [if_pos back, if_neg (by omega), if_pos (by omega)]
    congr 1
    omega
  · rw [if_neg back]
    by_cases front : dst ≤ x ∧ x < dst + a
    · rw [if_pos front, if_pos (by omega)]
    · rw [if_neg front, if_neg (by omega)]

theorem copy_zero (m : Mem) (dst src : Nat) : m.copy dst src 0 = m := by
  unfold copy
  congr 1
  funext x
  exact if_neg (by omega)

theorem fill_zero (m : Mem) (a : Nat) (c : UInt8) : m.fill a 0 c = m := by
  unfold fill
  congr 1
  funext x
  exact if_neg (by omega)

theorem fill_append {c : UInt8} : (m.fill dst a c).fill (dst + a) b c = m.fill dst (a + b) c := by
  unfold fill
  congr 1
  funext x
  show (if _ then _ else (if _ then _ else _)) = _
  by_cases back : dst + a ≤ x ∧ x < dst + a + b
  · rw [if_pos back, if_pos (by omega)]
  · rw [if_neg back]
    by_cases front : dst ≤ x ∧ x < dst + a
    · rw [if_pos front, if_pos (by omega)]
    · rw [if_neg front, if_neg (by omega)]

/-- A copy brings in no new byte. -/
theorem copy_ne {c : UInt8} (none : ∀ x, m x ≠ c) (x : Nat) : m.copy dst src n x ≠ c := by
  show (if _ then _ else _) ≠ c
  split
  · exact none _
  · exact none _

end Mem

/-- `rep movs`: the pointers behind the ranges, and memory. -/
def repMovs (bits unit : Nat) : Nat → Nat → Nat → Mem → Nat × Nat × Mem
  | 0, dst, src, m => (dst, src, m)
  | count + 1, dst, src, m =>
    repMovs bits unit count ((dst + unit) % 2 ^ bits) ((src + unit) % 2 ^ bits) (m.store dst unit (m.load src unit))

/-- `rep stos`. -/
def repStos (bits unit value : Nat) : Nat → Nat → Mem → Mem
  | 0, _, m => m
  | count + 1, dst, m => repStos bits unit value count ((dst + unit) % 2 ^ bits) (m.store dst unit value)

section Laws

variable {bits unit : Nat}

theorem repMovs_pointers (count : Nat) {dst src : Nat} (m : Mem) (inside : dst < 2 ^ bits) (inside' : src < 2 ^ bits) :
    (repMovs bits unit count dst src m).1 = (dst + unit * count) % 2 ^ bits ∧
      (repMovs bits unit count dst src m).2.1 = (src + unit * count) % 2 ^ bits := by
  induction count generalizing dst src m with
  | zero => exact ⟨(Nat.mod_eq_of_lt inside).symm, (Nat.mod_eq_of_lt inside').symm⟩
  | succ count ih =>
    have pos := Nat.two_pow_pos bits
    obtain ⟨onto, from_⟩ := ih (m.store dst unit (m.load src unit)) (Nat.mod_lt (dst + unit) pos) (Nat.mod_lt (src + unit) pos)
    rw [repMovs, onto, from_, Nat.mod_add_mod, Nat.mod_add_mod, Nat.mul_succ, Nat.add_comm (unit * count), Nat.add_assoc,
      Nat.add_assoc]
    exact ⟨rfl, rfl⟩

/-- A forward copy that does not write what it has still to read is a block copy. -/
theorem repMovs_eq_copy (pos : 0 < unit) (count : Nat) {dst src : Nat} (m : Mem) (fits : dst + unit * count ≤ 2 ^ bits)
    (fits' : src + unit * count ≤ 2 ^ bits) (safe : dst ≤ src ∨ src + unit * count ≤ dst) :
    (repMovs bits unit count dst src m).2.2 = m.copy dst src (unit * count) := by
  induction count generalizing dst src m with
  | zero => exact (m.copy_zero dst src).symm
  | succ count ih =>
    rw [repMovs, m.store_load]
    rcases Nat.eq_zero_or_pos count with rfl | more
    · rw [Nat.zero_add, Nat.mul_one]
      rfl
    · have some : 0 < unit * count := Nat.mul_pos pos more
      rw [Nat.mul_succ, Nat.add_comm (unit * count)] at fits fits' safe ⊢
      rw [Nat.mod_eq_of_lt (by omega), Nat.mod_eq_of_lt (by omega), ih _ (by omega) (by omega) (by omega),
        Mem.copy_append (by omega)]

theorem repMovs_ne {c : UInt8} (count : Nat) {dst src : Nat} {m : Mem} (none : ∀ x, m x ≠ c) :
    ∀ x, (repMovs bits unit count dst src m).2.2 x ≠ c := by
  induction count generalizing dst src m with
  | zero => exact none
  | succ count ih =>
    rw [repMovs, m.store_load]
    exact ih (Mem.copy_ne none)

/-- A value whose bytes are all the same, as `rep stos` writes it. -/
def Uniform (unit value : Nat) (c : UInt8) : Prop := ∀ i < unit, UInt8.ofNat (value / 256 ^ i) = c

variable {value : Nat} {c : UInt8}

theorem Uniform.store_eq_fill (uniform : Uniform unit value c) (m : Mem) (dst : Nat) :
    m.store dst unit value = m.fill dst unit c := by
  unfold Mem.store Mem.fill
  congr 1
  funext x
  split
  · exact uniform _ (by omega)
  · rfl

theorem uniform_zero (unit : Nat) : Uniform unit 0 0 := by
  intro i _
  rw [Nat.zero_div]
  rfl

/-- `rep stos` that does not reach the end of the address space fills a range. -/
theorem repStos_eq_fill (uniform : Uniform unit value c) (pos : 0 < unit) (count : Nat) {dst : Nat} (m : Mem)
    (fits : dst + unit * count ≤ 2 ^ bits) : repStos bits unit value count dst m = m.fill dst (unit * count) c := by
  induction count generalizing dst m with
  | zero => exact (m.fill_zero dst c).symm
  | succ count ih =>
    rw [repStos, uniform.store_eq_fill]
    rcases Nat.eq_zero_or_pos count with rfl | more
    · rw [Nat.zero_add, Nat.mul_one]
      rfl
    · have some : 0 < unit * count := Nat.mul_pos pos more
      rw [Nat.mul_succ, Nat.add_comm (unit * count)] at fits ⊢
      rw [Nat.mod_eq_of_lt (by omega), ih _ (by omega), Mem.fill_append]

/-- A byte that is there already stays. -/
theorem repStos_keeps (uniform : Uniform unit value c) (count : Nat) {dst x : Nat} {m : Mem} (there : m x = c) :
    repStos bits unit value count dst m x = c := by
  induction count generalizing dst m with
  | zero => exact there
  | succ count ih =>
    refine ih ?_
    rw [uniform.store_eq_fill]
    show (if _ then _ else _) = c
    split
    · rfl
    · exact there

/-- Every byte in the range is written, also behind the end of the address space. -/
theorem repStos_byte (uniform : Uniform 1 value c) (count : Nat) {dst i : Nat} (m : Mem) (inside : i < count)
    (start : dst < 2 ^ bits) : repStos bits 1 value count dst m ((dst + i) % 2 ^ bits) = c := by
  induction count generalizing dst i m with
  | zero => omega
  | succ count ih =>
    rw [repStos]
    cases i with
    | zero =>
      refine repStos_keeps uniform count ?_
      rw [uniform.store_eq_fill, Nat.add_zero, Nat.mod_eq_of_lt start]
      exact Mem.fill_byte_inside (Nat.le_refl dst) (Nat.lt_succ_self dst)
    | succ i =>
      have next := ih (i := i) (m.store dst 1 value) (by omega) (Nat.mod_lt (dst + 1) (Nat.two_pow_pos bits))
      rwa [Nat.mod_add_mod, Nat.add_assoc, Nat.add_comm 1 i] at next

/-- No other byte comes in. -/
theorem repStos_ne {b : UInt8} (uniform : Uniform unit value c) (other : c ≠ b) (count : Nat) {dst : Nat} {m : Mem}
    (none : ∀ x, m x ≠ b) : ∀ x, repStos bits unit value count dst m x ≠ b := by
  induction count generalizing dst m with
  | zero => exact none
  | succ count ih =>
    rw [repStos, uniform.store_eq_fill]
    refine ih fun x => ?_
    show (if _ then _ else _) ≠ b
    split
    · exact other
    · exact none x

end Laws

end AlmeidaOS
