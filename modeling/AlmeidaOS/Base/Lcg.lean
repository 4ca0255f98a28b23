import Mathlib.Logic.Function.Iterate
import Mathlib.Tactic.Ring

/-!
# Linear congruential generators

The state of a generator is multiplied, incremented and reduced; some of its upper bits are the output.
An error in the state is multiplied like the state itself (`next_shift`), and an error that is large
in the modulus shows in the output (`bits_ne_of_shift`).
-/

namespace AlmeidaOS.Lcg

/-- One step of the generator with multiplier `a`, increment `c` and modulus `m`. -/
def next (a c m s : Nat) : Nat := (a * s + c) % m

/-- The state after `n` steps. -/
def state (a c m seed n : Nat) : Nat := (next a c m)^[n] seed

theorem state_succ (a c m seed n : Nat) : state a c m seed (n + 1) = next a c m (state a c m seed n) :=
  Function.iterate_succ_apply' ..

/-- A state that is off by `d` is off by `a * d` after the next step. -/
theorem next_shift {a c m s t d : Nat} (off : t % m = (s + d) % m) :
    next a c m t = (next a c m s + a * d) % m := by
  have same : (a * t + c) % m = (a * (s + d) + c) % m := by
    rw [Nat.add_mod, Nat.mul_mod, off, ← Nat.mul_mod, ← Nat.add_mod]
  rw [next, next, same, Nat.mod_add_mod]
  congr 1
  ring

/-- Numbers that are at least `2 ^ s` apart modulo `2 ^ (s + t)`, both ways around, differ in the bits from
`s` on. -/
theorem bits_ne_of_shift {s t u v d : Nat} (off : v % 2 ^ (s + t) = (u + d) % 2 ^ (s + t)) (low : 2 ^ s ≤ d)
    (high : d + 2 ^ s ≤ 2 ^ (s + t)) : v / 2 ^ s % 2 ^ t ≠ u / 2 ^ s % 2 ^ t := by
  rw [Nat.pow_add] at off high
  rw [← Nat.mod_mul_right_div_self, ← Nat.mod_mul_right_div_self]
  have pos := Nat.two_pow_pos s
  generalize 2 ^ s = p at *
  have inside : u % (p * 2 ^ t) < p * 2 ^ t := Nat.mod_lt _ (by omega)
  rw [Nat.add_mod, Nat.mod_eq_of_lt (show d < p * 2 ^ t by omega)] at off
  generalize p * 2 ^ t = m at *
  have sum : v % m = u % m + d ∨ v % m + m = u % m + d := by
    rcases Nat.lt_or_ge (u % m + d) m with below | above
    · rw [Nat.mod_eq_of_lt below] at off
      exact .inl off
    · have wrapped : (u % m + d - m) % m = u % m + d - m := Nat.mod_eq_of_lt (by omega)
      rw [Nat.mod_eq_sub_mod above, wrapped] at off
      exact .inr (by omega)
  intro same
  have first := Nat.div_add_mod (v % m) p
  have second := Nat.div_add_mod (u % m) p
  have small := Nat.mod_lt (v % m) pos
  have small' := Nat.mod_lt (u % m) pos
  rw [same] at first
  omega

end AlmeidaOS.Lcg
