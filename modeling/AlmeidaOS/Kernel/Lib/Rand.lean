import AlmeidaOS.Kernel.Lib.Math

/-!
# `kernel/lib/math/rand.c`

A linear congruential generator on a 32-bit seed. `RAND_MOD` is the text `RAND_MAX + 1` without
parentheses, so `x % RAND_MOD` is `x % RAND_MAX + 1`: the remainder is by `RAND_MAX`, and one is added
to it.
-/

namespace AlmeidaOS.Kernel

/-- `RAND_MAX`. -/
def randMax : Nat := 0x7fffffff

/-- `RAND_MUL`. -/
def randMul : Nat := 1103515245

/-- `RAND_INC`. -/
def randInc : Nat := 12345

/-- `(RAND_MUL * seed + RAND_INC) % RAND_MOD`, with the macro expanded, in `uint32_t`. -/
def randExpr (seed : Nat) : Nat := ((randMul * seed + randInc) % 2 ^ 32 % randMax + 1) % 2 ^ 32

/-- `rand_init_seed`: the seed it leaves. -/
def randInitSeed (newSeed : Nat) : Nat := if newSeed < 1 then 1 else newSeed

/-- `rand`: the value returned and the seed left. -/
def rand (randSeed : Nat) : Nat × Nat :=
  let randSeed := randExpr randSeed
  (extractBitChunk 16 30 randSeed, randSeed)

end AlmeidaOS.Kernel
