import AlmeidaOS.Base.Bytes
import AlmeidaOS.Base.Outcome
import AlmeidaOS.Base.Word

/-!
# `kernel/lib/qsort.c` and `shuffle.c` on memory

Here the array is bytes in memory: `num_elems` items of `item_width` bytes from `base` on. The
comparison function gets pointers and sees the bytes of two items, and `EXCH` moves them one by one. A
pointer is only made for an index inside the array; any other index ends the call with `outOfBounds`.
Indices and addresses are 64-bit words. The numbers that `rand` returns are an argument, and the loops
run on fuel, `sort` on as much as there are items.
-/

namespace AlmeidaOS.Kernel

/-- What `qsort` and `shuffle` are told about the array. -/
structure ItemArray where
  base : Nat
  numElems : Nat
  itemWidth : Nat

namespace ItemArray

variable (a : ItemArray)

/-- The bytes of an item. -/
abbrev Item := Fin a.itemWidth → UInt8

/-- `base_ch + i * item_width`. -/
def addr (i : Nat) : Nat := Word.add a.base (Word.mul i a.itemWidth)

/-- A pointer to the item at an index of the array. -/
def pointer (i : Nat) : Outcome Nat := if i < a.numElems then .ok (a.addr i) else .error .outOfBounds

/-- The item at an address. -/
def itemAt (m : Mem) (p : Nat) : a.Item := fun k => m (Word.add p k)

/-- The inner loop of `EXCH`, with the bytes left. -/
def exchLoop : Nat → Nat → Nat → Mem → Mem
  | 0, _, _, m => m
  | size + 1, p, q, m => exchLoop size (Word.add p 1) (Word.add q 1) ((m.write p [m q]).write q [m p])

/-- `EXCH(base_ch + i * item_width, base_ch + j * item_width, item_width)`. The width is not 0, which
`shuffle` has asserted. -/
def exch (m : Mem) (i j : Nat) : Outcome Mem := do
  let p ← a.pointer i
  let q ← a.pointer j
  pure (exchLoop a.itemWidth p q m)

/-- The loop of `shuffle`, with the iterations left. -/
def shuffleLoop : Nat → Nat → (Nat → Nat) → Mem → Outcome Mem
  | 0, _, _, m => .ok m
  | k + 1, i, rand, m => do
    let r := rand 0 % (a.numElems - 1) + 1
    let m ← a.exch m i r
    shuffleLoop k (i + 1) (fun n => rand (n + 1)) m

/-- `shuffle`. -/
def shuffle (rand : Nat → Nat) (m : Mem) : Outcome Mem := do
  bugOn (a.itemWidth = 0)
  if a.numElems < 2 then pure m else a.shuffleLoop a.numElems 0 rand m

section Sorting

variable (cmp : a.Item → a.Item → Int)

/-- `cmp(base_ch + i * item_width, base_ch + j * item_width)`. -/
def compare (m : Mem) (i j : Nat) : Outcome Int := do
  let p ← a.pointer i
  let q ← a.pointer j
  pure (cmp (a.itemAt m p) (a.itemAt m q))

/-- The first inner loop of `partition`. -/
def scanUp (m : Mem) (lo hi : Nat) : Nat → Nat → Outcome Nat
  | 0, _ => .error .outOfFuel
  | fuel + 1, i => do
    let i := Word.add i 1
    let order ← a.compare cmp m i lo
    if order < 0 then
      if i = hi then pure i else scanUp m lo hi fuel i
    else pure i

/-- The second inner loop of `partition`. -/
def scanDown (m : Mem) (lo : Nat) : Nat → Nat → Outcome Nat
  | 0, _ => .error .outOfFuel
  | fuel + 1, j => do
    let j := Word.sub j 1
    let order ← a.compare cmp m lo j
    if order < 0 then
      if j = lo then pure j else scanDown m lo fuel j
    else pure j

/-- The outer loop of `partition`. -/
def partitionLoop (lo hi : Nat) : Nat → Nat → Nat → Mem → Outcome (Nat × Mem)
  | 0, _, _, _ => .error .outOfFuel
  | fuel + 1, i, j, m => do
    let i ← a.scanUp cmp m lo hi (hi + 1) i
    let j ← a.scanDown cmp m lo (hi + 1) j
    if i ≥ j then do
      let m ← a.exch m lo j
      pure (j, m)
    else do
      let m ← a.exch m i j
      partitionLoop lo hi fuel i j m

/-- `partition`. -/
def partition (m : Mem) (lo hi : Nat) : Outcome (Nat × Mem) :=
  a.partitionLoop cmp lo hi (hi + 1) lo (Word.add hi 1) m

/-- `sort`. -/
def sort : Nat → Mem → Nat → Nat → Outcome Mem
  | 0, _, _, _ => .error .outOfFuel
  | fuel + 1, m, lo, hi =>
    if hi ≤ lo then .ok m
    else do
      let (j, m) ← a.partition cmp m lo hi
      let m ← (if j > 0 then sort fuel m lo (j - 1) else pure m)
      sort fuel m (Word.add j 1) hi

/-- `qsort`. -/
def qsort (rand : Nat → Nat) (m : Mem) : Outcome Mem :=
  if a.numElems < 2 then .ok m
  else do
    let m ← a.shuffle rand m
    a.sort cmp a.numElems m 0 (a.numElems - 1)

end Sorting

end ItemArray

end AlmeidaOS.Kernel
