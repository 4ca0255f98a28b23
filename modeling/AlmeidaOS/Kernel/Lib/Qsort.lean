import AlmeidaOS.Base.Outcome

/-!
# `kernel/lib/qsort.c` and `shuffle.c`: sorting

`qsort` shuffles the array and sorts it by partitioning around its first item. An array is what it
holds at each index; only the indices the code is given are touched. The numbers that `rand` returns
are an argument, one after the other. The loops run on fuel, `sort` on as much as there are items.
-/

namespace AlmeidaOS.Kernel

variable {α : Type}

/-- `EXCH`. -/
def exch (arr : Nat → α) (i j : Nat) : Nat → α :=
  fun k => if k = i then arr j else if k = j then arr i else arr k

/-- The loop of `shuffle`, with the iterations left. -/
def shuffleLoop (arrLength : Nat) : Nat → Nat → (Nat → Nat) → (Nat → α) → Nat → α
  | 0, _, _, arr => arr
  | k + 1, i, rand, arr =>
    let r := rand 0 % (arrLength - 1) + 1
    shuffleLoop arrLength k (i + 1) (fun n => rand (n + 1)) (exch arr i r)

/-- `shuffle`. -/
def shuffle (rand : Nat → Nat) (arr : Nat → α) (arrLength : Nat) : Nat → α :=
  if arrLength < 2 then arr else shuffleLoop arrLength arrLength 0 rand arr

section Sorting

variable (cmp : α → α → Int)

/-- The first inner loop of `partition`: `i` goes up while the items are less than the first. -/
def scanUp (base : Nat → α) (lo hi : Nat) : Nat → Nat → Outcome Nat
  | 0, _ => .error .outOfFuel
  | fuel + 1, i =>
    if cmp (base (i + 1)) (base lo) < 0 then
      if i + 1 = hi then .ok (i + 1) else scanUp base lo hi fuel (i + 1)
    else .ok (i + 1)

/-- The second inner loop of `partition`: `j` goes down while the items are greater than the first. -/
def scanDown (base : Nat → α) (lo : Nat) : Nat → Nat → Outcome Nat
  | 0, _ => .error .outOfFuel
  | fuel + 1, j =>
    if cmp (base lo) (base (j - 1)) < 0 then
      if j - 1 = lo then .ok (j - 1) else scanDown base lo fuel (j - 1)
    else .ok (j - 1)

/-- The outer loop of `partition`. -/
def partitionLoop (lo hi : Nat) : Nat → Nat → Nat → (Nat → α) → Outcome (Nat × (Nat → α))
  | 0, _, _, _ => .error .outOfFuel
  | fuel + 1, i, j, base => do
    let i ← scanUp cmp base lo hi (hi + 1) i
    let j ← scanDown cmp base lo (hi + 1) j
    if i ≥ j then pure (j, exch base lo j)
    else partitionLoop lo hi fuel i j (exch base i j)

/-- `partition`. -/
def partition (base : Nat → α) (lo hi : Nat) : Outcome (Nat × (Nat → α)) :=
  partitionLoop cmp lo hi (hi + 1) lo (hi + 1) base

/-- `sort`. -/
def sort : Nat → (Nat → α) → Nat → Nat → Outcome (Nat → α)
  | 0, _, _, _ => .error .outOfFuel
  | fuel + 1, base, lo, hi =>
    if hi ≤ lo then .ok base
    else do
      let (j, base) ← partition cmp base lo hi
      let base ← (if j > 0 then sort fuel base lo (j - 1) else pure base)
      sort fuel base (j + 1) hi

/-- `qsort`. -/
def qsort (rand : Nat → Nat) (base : Nat → α) (numElems : Nat) : Outcome (Nat → α) :=
  if numElems < 2 then .ok base
  else sort cmp numElems (shuffle rand base numElems) 0 (numElems - 1)

end Sorting

end AlmeidaOS.Kernel
