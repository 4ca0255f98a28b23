import AlmeidaOS.Base.Lcg
import AlmeidaOS.Kernel.Lib.Rand
import AlmeidaOS.Laws.Lib.Math

/-!
# `rand` and the generator it documents

The comment of `rand.c` documents the generator with modulus 2^31. The macro makes the remainder one by
2^31 - 1, plus one: a step of the code is one to three more than a step of the generator
(`randExpr_drift`). A value has the upper fifteen bits of the state, so the first one is right unless
that addition carries into them. The next step multiplies the error, and the second value is wrong for
every seed.
-/

namespace AlmeidaOS.Kernel

/-! ## The documented generator -/

/-- The state of the documented generator after `n` steps. -/
def documentedState (seed n : Nat) : Nat := Lcg.state 1103515245 12345 (2 ^ 31) seed n

theorem documentedState_zero (seed : Nat) : documentedState seed 0 = seed := rfl

theorem documentedState_succ (seed n : Nat) :
    documentedState seed (n + 1) = Lcg.next 1103515245 12345 (2 ^ 31) (documentedState seed n) :=
  Lcg.state_succ ..

/-- Bits 30..16 of a state. -/
def outputBits (state : Nat) : Nat := state / 2 ^ 16 % 2 ^ 15

/-! ## Call after call -/

/-- The seed after `n` calls of `rand`. -/
def seedAfter (seed n : Nat) : Nat := (fun randSeed => (rand randSeed).2)^[n] seed

/-- The value that call `n` of `rand` returns, the first call being call 1. -/
def randCall (seed n : Nat) : Nat := (rand (seedAfter seed (n - 1))).1

theorem seedAfter_zero (seed : Nat) : seedAfter seed 0 = seed := rfl

theorem seedAfter_succ (seed n : Nat) : seedAfter seed (n + 1) = randExpr (seedAfter seed n) :=
  Function.iterate_succ_apply' ..

theorem randCall_succ (seed n : Nat) : randCall seed (n + 1) = outputBits (seedAfter seed (n + 1)) := by
  rw [seedAfter_succ]
  exact extractBitChunk_eq (by decide)

/-! ## One step of the code -/

/-- The product and the sum in 32 bits. -/
def randSum (seed : Nat) : Nat := (randMul * seed + randInc) % 2 ^ 32

theorem next_eq_randSum (seed : Nat) : Lcg.next 1103515245 12345 (2 ^ 31) seed = randSum seed % 2 ^ 31 :=
  (Nat.mod_mod_of_dvd _ (by decide)).symm

theorem randExpr_eq (seed : Nat) : randExpr seed = randSum seed % randMax + 1 := by
  rw [randExpr, ← randSum]
  unfold randMax
  omega

/-- A step of the code is a step of the generator and one to three more. -/
theorem randExpr_drift (seed : Nat) :
    randExpr seed % 2 ^ 31 = (Lcg.next 1103515245 12345 (2 ^ 31) seed + (randSum seed / randMax + 1)) % 2 ^ 31 ∧
      randSum seed / randMax ≤ 2 := by
  have word : randSum seed < 2 ^ 32 := Nat.mod_lt _ (by decide)
  rw [randExpr_eq, next_eq_randSum]
  unfold randMax
  omega

/-! ## The first value and the second -/

/-- The first value is right unless the error carries into bit 16. -/
theorem rand_first_iff (seed : Nat) : randCall seed 1 = outputBits (documentedState seed 1) ↔
    randSum seed % 2 ^ 16 + randSum seed / randMax + 1 < 2 ^ 16 := by
  obtain ⟨drift, few⟩ := randExpr_drift seed
  rw [randCall_succ, seedAfter_succ, seedAfter_zero, documentedState_succ, documentedState_zero]
  rw [next_eq_randSum] at drift ⊢
  unfold outputBits
  generalize randSum seed / randMax = q at *
  omega

/-- The error of the first step, multiplied, is far from a multiple of the modulus. -/
theorem error_far : ∀ q < 3, ∀ q' < 3, 2 ^ 16 ≤ (1103515245 * (q + 1) + (q' + 1)) % 2 ^ 31 ∧
    (1103515245 * (q + 1) + (q' + 1)) % 2 ^ 31 + 2 ^ 16 ≤ 2 ^ 31 := by decide

/-- The second value is wrong. -/
theorem rand_second_ne (seed : Nat) : randCall seed 2 ≠ outputBits (documentedState seed 2) := by
  obtain ⟨drift, few⟩ := randExpr_drift seed
  obtain ⟨drift', few'⟩ := randExpr_drift (randExpr seed)
  rw [randCall_succ, seedAfter_succ, seedAfter_succ, seedAfter_zero, documentedState_succ, documentedState_succ,
    documentedState_zero]
  rw [Lcg.next_shift drift] at drift'
  generalize randSum seed / randMax = q at *
  generalize randSum (randExpr seed) / randMax = q' at *
  obtain ⟨low, high⟩ := error_far q (by omega) q' (by omega)
  refine Lcg.bits_ne_of_shift (s := 16) (t := 15) (d := (1103515245 * (q + 1) + (q' + 1)) % 2 ^ 31) ?_ low high
  rw [drift']
  omega

/-- The first `count` values are bits 30..16 of the documented states. -/
def FollowsGenerator (seed count : Nat) : Prop :=
  ∀ n, 1 ≤ n → n ≤ count → randCall (randInitSeed seed) n = outputBits (documentedState seed n)

/-- **`rand` follows its documented generator for one value at most.** The first value is right when the
error does not carry, and for no seed are the first two right. -/
theorem rand_follows_iff {seed : Nat} (nonzero : seed ≠ 0) (word : seed < 2 ^ 32) :
    (∀ count, FollowsGenerator seed count ↔
      count = 0 ∨ count = 1 ∧ randSum seed % 2 ^ 16 + randSum seed / randMax + 1 < 2 ^ 16) ∧
    ¬ ∀ count, FollowsGenerator seed count := by
  have kept : randInitSeed seed = seed := if_neg (by omega)
  have notBoth : ∀ count, 2 ≤ count → ¬ FollowsGenerator seed count := by
    intro count two follows
    have second := follows 2 (by decide) two
    rw [kept] at second
    exact rand_second_ne seed second
  refine ⟨fun count => ?_, fun all => notBoth 2 (Nat.le_refl 2) (all 2)⟩
  rcases Nat.lt_or_ge count 2 with few | many
  · rw [← rand_first_iff seed]
    constructor
    · intro follows
      rcases Nat.eq_zero_or_pos count with none | one
      · exact .inl none
      · have first := follows 1 (Nat.le_refl 1) one
        rw [kept] at first
        exact .inr ⟨by omega, first⟩
    · rintro (none | ⟨one, first⟩) n low high
      · omega
      · rwa [show n = 1 by omega, kept]
  · constructor
    · exact fun follows => absurd follows (notBoth count many)
    · omega

/-- The seed the kernel starts with gives one right value. -/
theorem rand_follows_once : FollowsGenerator 1 1 ∧ ¬ FollowsGenerator 1 2 := by
  obtain ⟨exactly, -⟩ := rand_follows_iff (show 1 ≠ 0 by decide) (by decide)
  refine ⟨(exactly 1).mpr (.inr ⟨rfl, by decide⟩), fun follows => ?_⟩
  rcases (exactly 2).mp follows with none | ⟨one, -⟩
  · cases none
  · cases one

/-- From seed 1 the second value is 22596, and the generator has 5758 there. -/
theorem rand_second_from_one : randCall (randInitSeed 1) 2 = 22596 ∧ outputBits (documentedState 1 2) = 5758 ∧
    ¬ ∀ count, FollowsGenerator 1 count := by
  have code : randCall (randInitSeed 1) 2 = 22596 := by decide
  have documented : outputBits (documentedState 1 2) = 5758 := by decide
  refine ⟨code, documented, fun follows => ?_⟩
  have same := follows 2 2 (by decide) (Nat.le_refl 2)
  rw [code, documented] at same
  cases same

end AlmeidaOS.Kernel
