import Mathlib.Data.Set.Basic
import Mathlib.Data.Nat.Log
import Mathlib.Tactic.Ring

/-!
# Byte memory

Memory is a byte for every address. Words are read and written little-endian, `n` bytes at a time;
`fill` and `copy` are the block moves. The laws say what a read gives after a write: the value
written (`load_store`), or what was there before when the two do not meet (`load_congr` with
`store_byte`, `fill_byte`, `copy_byte`). `SameOff s` is the frame condition of a call that writes
inside `s` only.
-/

namespace AlmeidaOS

/-- A byte for every address. -/
structure Mem where
  byte : Nat → UInt8

namespace Mem

instance : CoeFun Mem fun _ => Nat → UInt8 := ⟨Mem.byte⟩

/-- The little-endian number of the `n` bytes from `a` on. -/
def load (m : Mem) (a : Nat) : Nat → Nat
  | 0 => 0
  | n + 1 => (m a).toNat + 256 * m.load (a + 1) n

/-- Writes the low `n` bytes of `v` at `a`. -/
def store (m : Mem) (a n v : Nat) : Mem :=
  ⟨fun x => if a ≤ x ∧ x < a + n then UInt8.ofNat (v / 256 ^ (x - a)) else m x⟩

/-- `memset`. -/
def fill (m : Mem) (a n : Nat) (b : UInt8) : Mem :=
  ⟨fun x => if a ≤ x ∧ x < a + n then b else m x⟩

/-- `memcpy` of a range that does not meet its destination. -/
def copy (m : Mem) (dst src n : Nat) : Mem :=
  ⟨fun x => if dst ≤ x ∧ x < dst + n then m (src + (x - dst)) else m x⟩

/-- Writes the bytes from `a` on. -/
def write (m : Mem) (a : Nat) (bytes : List UInt8) : Mem :=
  ⟨fun x => if a ≤ x ∧ x < a + bytes.length then bytes.getD (x - a) 0 else m x⟩

def load64 (m : Mem) (a : Nat) : Nat := m.load a 8

def store64 (m : Mem) (a v : Nat) : Mem := m.store a 8 v

variable {m m' : Mem} {a b n v x : Nat}

/-! ## Bytes after a write -/

theorem store_byte (outside : x < a ∨ a + n ≤ x) : (m.store a n v) x = m x :=
  if_neg (by omega)

theorem fill_byte {c : UInt8} (outside : x < a ∨ a + n ≤ x) : (m.fill a n c) x = m x :=
  if_neg (by omega)

theorem fill_byte_inside {c : UInt8} (lower : a ≤ x) (upper : x < a + n) : (m.fill a n c) x = c :=
  if_pos ⟨lower, upper⟩

theorem copy_byte (outside : x < a ∨ a + n ≤ x) : (m.copy a b n) x = m x :=
  if_neg (by omega)

theorem write_byte {bytes : List UInt8} (outside : x < a ∨ a + bytes.length ≤ x) : (m.write a bytes) x = m x :=
  if_neg (by omega)

theorem write_byte_inside {bytes : List UInt8} {i : Nat} (inside : i < bytes.length) :
    (m.write a bytes) (a + i) = bytes.getD i 0 := by
  show (if _ then _ else _) = _
  rw [if_pos (by omega), Nat.add_sub_cancel_left]

/-! ## Reads -/

theorem load_lt (m : Mem) (a n : Nat) : m.load a n < 256 ^ n := by
  induction n generalizing a with
  | zero => exact Nat.one_pos
  | succ n ih =>
    have first := (m a).toNat_lt
    have rest := ih (a + 1)
    rw [load, Nat.pow_succ]
    omega

theorem load64_lt (m : Mem) (a : Nat) : m.load64 a < 2 ^ 64 := m.load_lt a 8

/-- A read depends on its bytes only. -/
theorem load_congr (same : ∀ x, a ≤ x → x < a + n → m x = m' x) : m.load a n = m'.load a n := by
  induction n generalizing a with
  | zero => rfl
  | succ n ih =>
    rw [load, load, same a (Nat.le_refl a) (by omega),
      ih fun x lower upper => same x (by omega) (by omega)]

/-- Bytes that are the same from two addresses on read the same. -/
theorem load_move (same : ∀ i < n, m' (b + i) = m (a + i)) : m'.load b n = m.load a n := by
  induction n generalizing a b with
  | zero => rfl
  | succ n ih =>
    have first := same 0 (Nat.succ_pos n)
    rw [Nat.add_zero, Nat.add_zero] at first
    rw [load, load, first, ih fun i lt => ?_]
    rw [Nat.add_assoc, Nat.add_assoc, Nat.add_comm 1 i]
    exact same (i + 1) (Nat.succ_lt_succ lt)

theorem load_digits (digits : ∀ x, a ≤ x → x < a + n → m x = UInt8.ofNat (v / 256 ^ (x - a))) :
    m.load a n = v % 256 ^ n := by
  induction n generalizing a v with
  | zero => simp only [load, Nat.pow_zero, Nat.mod_one]
  | succ n ih =>
    have first : (m a).toNat = v % 256 := by
      rw [digits a (Nat.le_refl a) (by omega), Nat.sub_self, Nat.pow_zero, Nat.div_one]
      exact UInt8.toNat_ofNat'
    have rest : m.load (a + 1) n = v / 256 % 256 ^ n := by
      refine ih fun x lower upper => ?_
      rw [digits x (by omega) (by omega), show x - a = x - (a + 1) + 1 by omega, Nat.pow_succ',
        Nat.div_div_eq_div_mul]
    rw [load, first, rest, Nat.pow_succ', Nat.mod_mul]

/-- A read in two parts. -/
theorem load_append (m : Mem) (a n k : Nat) : m.load a (n + k) = m.load a n + 256 ^ n * m.load (a + n) k := by
  induction n generalizing a with
  | zero => rw [Nat.zero_add, Nat.pow_zero, Nat.one_mul, load, Nat.zero_add, Nat.add_zero]
  | succ n ih =>
    have behind : a + 1 + n = a + (n + 1) := by omega
    rw [Nat.add_right_comm, load, load, ih, behind, Nat.pow_succ', Nat.mul_add, Nat.mul_assoc, Nat.add_assoc]

theorem load_store (m : Mem) (a n v : Nat) : (m.store a n v).load a n = v % 256 ^ n :=
  load_digits fun _ lower upper => if_pos ⟨lower, upper⟩

theorem load64_store64 (bound : v < 2 ^ 64) : (m.store64 a v).load64 a = v := by
  rw [load64, store64, load_store]
  exact Nat.mod_eq_of_lt bound

/-- Clearing a word is storing zero. -/
theorem fill_eq_store64 (m : Mem) (a : Nat) : m.fill a 8 0 = m.store64 a 0 := by
  unfold fill store64 store
  simp only [Nat.zero_div]
  rfl

theorem load_zero (zero : ∀ x, a ≤ x → x < a + n → m x = 0) : m.load a n = 0 := by
  have digits := load_digits (m := m) (a := a) (n := n) (v := 0)
    fun x lower upper => by rw [zero x lower upper, Nat.zero_div]; rfl
  rwa [Nat.zero_mod] at digits

/-- Only zero bytes read as zero. -/
theorem load_eq_zero_iff : m.load a n = 0 ↔ ∀ x, a ≤ x → x < a + n → m x = 0 := by
  refine ⟨fun zero => ?_, load_zero⟩
  induction n generalizing a with
  | zero => intro x lower upper; omega
  | succ n ih =>
    rw [load] at zero
    have rest : m.load (a + 1) n = 0 := by omega
    have first : m a = 0 := UInt8.toNat_inj.mp (show (m a).toNat = (0 : UInt8).toNat by
      rw [show (0 : UInt8).toNat = 0 from rfl]; omega)
    intro x lower upper
    rcases Nat.eq_or_lt_of_le lower with rfl | more
    · exact first
    · exact ih rest x more (by omega)

theorem load_store_of_disjoint {k : Nat} (apart : a + n ≤ b ∨ b + k ≤ a) :
    (m.store b k v).load a n = m.load a n :=
  load_congr fun x lower upper => store_byte (by omega)

theorem load64_store64_of_disjoint (apart : a + 8 ≤ b ∨ b + 8 ≤ a) :
    (m.store64 b v).load64 a = m.load64 a :=
  load_store_of_disjoint apart

/-! ## Frames -/

/-- The two memories differ inside `s` only. -/
def SameOff (s : Set Nat) (m m' : Mem) : Prop := ∀ x ∉ s, m' x = m x

namespace SameOff

variable {s t : Set Nat} {m₁ m₂ m₃ : Mem}

theorem refl (s : Set Nat) (m : Mem) : SameOff s m m := fun _ _ => rfl

theorem trans (first : SameOff s m₁ m₂) (second : SameOff s m₂ m₃) : SameOff s m₁ m₃ :=
  fun x off => (second x off).trans (first x off)

theorem mono (same : SameOff s m₁ m₂) (sub : ∀ x ∈ s, x ∈ t) : SameOff t m₁ m₂ :=
  fun x off => same x fun inside => off (sub x inside)

theorem store (inside : ∀ x, a ≤ x → x < a + n → x ∈ s) : SameOff s m (m.store a n v) := by
  intro x off
  refine store_byte ?_
  by_contra meets
  exact off (inside x (by omega) (by omega))

theorem fill {c : UInt8} (inside : ∀ x, a ≤ x → x < a + n → x ∈ s) : SameOff s m (m.fill a n c) := by
  intro x off
  refine fill_byte ?_
  by_contra meets
  exact off (inside x (by omega) (by omega))

theorem copy (inside : ∀ x, a ≤ x → x < a + n → x ∈ s) : SameOff s m (m.copy a b n) := by
  intro x off
  refine copy_byte ?_
  by_contra meets
  exact off (inside x (by omega) (by omega))

/-- A read outside the set is unchanged. -/
theorem load (same : SameOff s m₁ m₂) (off : ∀ x, a ≤ x → x < a + n → x ∉ s) :
    m₂.load a n = m₁.load a n :=
  load_congr fun x lower upper => same x (off x lower upper)

theorem store64 (inside : ∀ x, a ≤ x → x < a + 8 → x ∈ s) : SameOff s m (m.store64 a v) :=
  store inside

theorem load64 (same : SameOff s m₁ m₂) (off : ∀ x, a ≤ x → x < a + 8 → x ∉ s) :
    m₂.load64 a = m₁.load64 a :=
  same.load off

end SameOff

end Mem

end AlmeidaOS
