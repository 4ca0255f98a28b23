import AlmeidaOS.Base.Outcome
import AlmeidaOS.Kernel.Arch.Region
import AlmeidaOS.Kernel.Lib.Math
import AlmeidaOS.Kernel.Lib.Qsort

/-!
# `kernel/arch/mem.c`: the map of physical memory

The firmware's map is a count and an array of regions in a fixed buffer. `combine_mergeable_regions`
walks the array with two indices and adds a region that belongs to the one before it to that one,
leaving a zeroed slot; `squash_mem_regions` moves the regions up over such slots and corrects the
count. Both work in place, and the first reads the slot behind the last region. `mem_init` runs them
on the firmware's regions, after it has put the first MiB among them and sorted them.

`mem_alloc_region` and `mem_alloc_amount` serve the kernel before its allocators run. They take a range
out of a usable entry, add a reserved entry for it, and sort and merge the map again.
-/

namespace AlmeidaOS.Kernel

/-- `mem_blocks->mem_region[i] = r`. -/
def MemMapBlock.set (b : MemMapBlock) (i : Nat) (r : MemMapRegion) : MemMapBlock :=
  { b with memRegion := fun j => if j = i then r else b.memRegion j }

/-- `mem_blocks->mem_region[mem_blocks->num_entries++] = r`. -/
def MemMapBlock.push (b : MemMapBlock) (r : MemMapRegion) : MemMapBlock where
  numEntries := Word.add b.numEntries 1
  memRegion := fun i => if i = b.numEntries then r else b.memRegion i

/-- `mem_is_entry_empty`. -/
def memIsEntryEmpty (reg : MemMapRegion) : Bool := reg.length = 0 && reg.type = 0

/-- The variable `merge` of `combine_mergeable_regions`. -/
def mergeable (memRg1 memRg2 : MemMapRegion) : Bool :=
  if Word.add memRg1.baseAddr memRg1.length ≥ memRg2.baseAddr then
    if memRg1.type = memRg2.type then true
    else memRg1.type > e820MemTypeUsable && memRg2.type > e820MemTypeUsable
  -- an implicit hole between two reserved regions is not necessarily free
  else memRg1.type > e820MemTypeUsable && memRg2.type > e820MemTypeUsable

/-- Every type but usable counts as reserved. -/
def asReserved (reg : MemMapRegion) : MemMapRegion :=
  if reg.type > e820MemTypeUsable then { reg with type := e820MemTypeReserved } else reg

/-- `mem_rg_1->length += mem_rg_2->length`. -/
def combined (memRg1 memRg2 : MemMapRegion) : MemMapRegion :=
  { memRg1 with length := Word.add memRg1.length memRg2.length }

/-- The `do … while` loop of `combine_mergeable_regions`, `k` passes of it. -/
def combineLoop : Nat → MemMapBlock → Nat → Nat → MemMapBlock
  | 0, b, _, _ => b
  | k + 1, b, ptr1, ptr2 =>
    let b := b.set ptr1 (asReserved (b.memRegion ptr1))
    if mergeable (b.memRegion ptr1) (b.memRegion ptr2) then
      let b := b.set ptr1 (combined (b.memRegion ptr1) (b.memRegion ptr2))
      combineLoop k (b.set ptr2 .zero) ptr1 (ptr2 + 1)
    else combineLoop k b ptr2 (ptr2 + 1)

/-- `combine_mergeable_regions`: `ptr_2` runs from 1 to `num_entries` inclusive. -/
def combineMergeableRegions (b : MemMapBlock) : MemMapBlock :=
  if b.numEntries < 2 then b else combineLoop b.numEntries b 0 1

/-- The inner loop of `squash_mem_regions`: the next entry that is not empty. -/
def nextEntry (b : MemMapBlock) (ptr1 : Nat) : Option Nat :=
  (List.range' (ptr1 + 1) (b.numEntries - (ptr1 + 1))).find? fun i => !memIsEntryEmpty (b.memRegion i)

/-- The outer loop of `squash_mem_regions`, `k` passes of it. -/
def squashLoop : Nat → MemMapBlock → Nat → MemMapBlock
  | 0, b, _ => b
  | k + 1, b, ptr1 =>
    if memIsEntryEmpty (b.memRegion ptr1) then
      match nextEntry b ptr1 with
      | none => b
      | some nextPtr =>
        squashLoop k ((b.set ptr1 (b.memRegion nextPtr)).set nextPtr .zero) (ptr1 + 1)
    else squashLoop k b (ptr1 + 1)

/-- The last loop of `squash_mem_regions`: the count becomes the index of the first empty entry. -/
def adjustNumEntries (b : MemMapBlock) : MemMapBlock :=
  match (List.range b.numEntries).find? fun i => memIsEntryEmpty (b.memRegion i) with
  | none => b
  | some ptr1 => { b with numEntries := ptr1 }

/-- `squash_mem_regions`. -/
def squashMemRegions (b : MemMapBlock) : MemMapBlock :=
  if b.numEntries < 2 then b else adjustNumEntries (squashLoop (b.numEntries - 1) b 0)

/-- The test of `mem_reserve_first_mb`: the last byte of the region is below 1 MiB. -/
def belowFirstMb (memRg : MemMapRegion) : Prop :=
  Word.sub (Word.add memRg.baseAddr memRg.length) 1 < 0x100000

instance (memRg : MemMapRegion) : Decidable (belowFirstMb memRg) :=
  inferInstanceAs (Decidable (_ < _))

/-- The region that `mem_reserve_first_mb` adds. -/
def firstMb : MemMapRegion := ⟨0x0, 0x100000, e820MemTypeReserved⟩

/-- The slots that `mem_reserve_first_mb` leaves. The loop ends one entry short of the last. -/
def withFirstMb (b : MemMapBlock) : MemMapBlock where
  numEntries := Word.add b.numEntries 1
  memRegion := fun i =>
    if i = b.numEntries then firstMb
    else if i < Word.sub b.numEntries 1 ∧ belowFirstMb (b.memRegion i) then .zero
    else b.memRegion i

/-- `mem_reserve_first_mb`. Of an empty map the loop's bound `num_entries - 1` is the largest `size_t`:
it runs out of the buffer and through all of memory. -/
def memReserveFirstMb (b : MemMapBlock) : Outcome MemMapBlock :=
  if b.numEntries = 0 then .error .outOfBounds else .ok (withFirstMb b)

/-- `qsort_cmp_mem_region`. -/
def qsortCmpMemRegion (a b : MemMapRegion) : Int :=
  if a.baseAddr > b.baseAddr then 1 else if a.baseAddr < b.baseAddr then -1 else 0

/-- `mem_phys_stats_t`. -/
structure MemPhysStats where
  physAvailMem : Nat
  physFreeMem : Nat
deriving DecidableEq, Repr

/-- `calc_phys_memory_stats`. -/
def calcPhysMemoryStats (memBlocks : MemMapBlock) : MemPhysStats :=
  memBlocks.entries.foldl (fun stat memRegion =>
    { physAvailMem := Word.add stat.physAvailMem memRegion.length
      physFreeMem :=
        if memRegion.type = e820MemTypeUsable then Word.add stat.physFreeMem memRegion.length
        else stat.physFreeMem }) ⟨0, 0⟩

/-- `mem_init`, given the map the loader has left and the numbers that `rand` returns. -/
def memInit (rand : Nat → Nat) (memBlocks : MemMapBlock) : Outcome (MemMapBlock × MemPhysStats) := do
  let memBlocks ← memReserveFirstMb memBlocks
  let memRegion ← qsort qsortCmpMemRegion rand memBlocks.memRegion memBlocks.numEntries
  let memBlocks := combineMergeableRegions { memBlocks with memRegion := memRegion }
  let memBlocks := squashMemRegions memBlocks
  pure (memBlocks, calcPhysMemoryStats memBlocks)

/-- `mem_stat`. -/
def memStat (physMemStat : MemPhysStats) : Outcome MemPhysStats := do
  bugOn (physMemStat.physAvailMem = 0)
  pure physMemStat

/-! ## Memory for the kernel's own structures -/

/-- The test in the loop of `mem_alloc_region`. -/
def holdsRange (physStartAddr physEndAddr : Nat) (memRg : MemMapRegion) : Bool :=
  physStartAddr ≥ memRg.baseAddr && physEndAddr ≤ Word.add memRg.baseAddr memRg.length &&
    Word.sub physEndAddr physStartAddr ≤ memRg.length && memRg.type = e820MemTypeUsable

/-- What `mem_alloc_region` leaves of a slot that is larger than the request. -/
def carve (memBlocks : MemMapBlock) (curPos physStartAddr physEndAddr : Nat) : MemMapBlock :=
  let memRg := memBlocks.memRegion curPos
  let reqLength := Word.sub physEndAddr physStartAddr
  if physStartAddr = memRg.baseAddr then
    memBlocks.set curPos ⟨physEndAddr, Word.sub memRg.length reqLength, memRg.type⟩
  else if physEndAddr = Word.add memRg.baseAddr memRg.length then
    memBlocks.set curPos { memRg with length := Word.sub memRg.length reqLength }
  else
    let tmpLength := Word.sub (Word.add memRg.baseAddr memRg.length) physEndAddr
    let memBlocks := memBlocks.set curPos { memRg with length := Word.sub physStartAddr memRg.baseAddr }
    memBlocks.push ⟨physEndAddr, tmpLength, e820MemTypeUsable⟩

/-- `mem_alloc_region`: the region, the map and the statistics it leaves. -/
def memAllocRegion (rand : Nat → Nat) (memBlocks : MemMapBlock) (physMemStat : MemPhysStats)
    (physStartAddr physEndAddr : Nat) : Outcome (MemMapRegion × MemMapBlock × MemPhysStats) := do
  bugOn (physEndAddr ≤ physStartAddr)
  let reqLength := Word.sub physEndAddr physStartAddr
  match (List.range memBlocks.numEntries).find? fun curPos =>
      holdsRange physStartAddr physEndAddr (memBlocks.memRegion curPos) with
  | none => .error .bugOn
  | some curPos =>
    let memRg := memBlocks.memRegion curPos
    if physStartAddr = memRg.baseAddr ∧ physEndAddr = Word.add memRg.baseAddr memRg.length then
      -- the entire slot: nothing is sorted or merged, and the statistics stay
      let memRg := { memRg with type := e820MemTypeReserved }
      pure (memRg, memBlocks.set curPos memRg, physMemStat)
    else
      let retRegion : MemMapRegion := ⟨physStartAddr, reqLength, e820MemTypeReserved⟩
      let memBlocks := (carve memBlocks curPos physStartAddr physEndAddr).push retRegion
      let memRegion ← qsort qsortCmpMemRegion rand memBlocks.memRegion memBlocks.numEntries
      let memBlocks := combineMergeableRegions { memBlocks with memRegion := memRegion }
      let memBlocks := squashMemRegions memBlocks
      pure (retRegion, memBlocks, { physMemStat with physFreeMem := Word.sub physMemStat.physFreeMem reqLength })

/-- The two tests in the loop of `mem_alloc_amount`. -/
def fitsAligned (length addrAlign : Nat) (memRg : MemMapRegion) : Bool :=
  memRg.length ≥ length && memRg.type = e820MemTypeUsable &&
    let baseAddr := roundUpPo2 memRg.baseAddr addrAlign
    baseAddr ≥ memRg.baseAddr && Word.add baseAddr length ≤ Word.add memRg.baseAddr memRg.length

/-- `mem_alloc_amount`. The tests are about the aligned address, the call is for the entry's own. -/
def memAllocAmount (rand : Nat → Nat) (memBlocks : MemMapBlock) (physMemStat : MemPhysStats)
    (length addrAlign : Nat) : Outcome (MemMapRegion × MemMapBlock × MemPhysStats) := do
  bugOn (length = 0)
  bugOn (addrAlign ≠ clp2 addrAlign)
  let (retRegion, memBlocks, physMemStat) ←
    match (List.range memBlocks.numEntries).find? fun curPos =>
        fitsAligned length addrAlign (memBlocks.memRegion curPos) with
    | none => pure (.zero, memBlocks, physMemStat)
    | some curPos =>
      let memRg := memBlocks.memRegion curPos
      memAllocRegion rand memBlocks physMemStat memRg.baseAddr (Word.add memRg.baseAddr length)
  bugOn (memIsEntryEmpty retRegion)
  pure (retRegion, memBlocks, physMemStat)

/-- `mem_list_entries`: the handler is called for each entry of the type, in order. -/
def memListEntries {σ : Type} (memBlocks : MemMapBlock) (type : Nat)
    (handler : σ → MemMapRegion → Outcome σ) (s : σ) : Outcome σ :=
  memBlocks.entries.foldlM (fun s memRg => if memRg.type = type then handler s memRg else pure s) s

end AlmeidaOS.Kernel
