import AlmeidaOS.Base.Bytes
import AlmeidaOS.Base.Outcome
import AlmeidaOS.Kernel.Arch.Region

/-!
# `kernel/mm/addressconv.c` and `kernel/mm/pageframe.c`

The kernel reaches physical memory through a linear map: the byte at physical address `p` is read
and written at `va(p)`, and `linear` is the way back. Memory is indexed by physical address.

The page-frame database is two singly linked lists of nodes in memory, sixteen bytes each: the
physical address of a frame and a pointer to the next node, `0` for `NULL`. The walks along a list
run on fuel, since nothing in the code says that a list ends.
-/

namespace AlmeidaOS.Kernel

/-! ## Address conversion -/

/-- `VIRT_ADDR_KERNEL_START`. -/
def virtAddrKernelStart : Nat := 0xffff800000000000

/-- `PHYS_ADDR_MAX_BOUNDARY`. -/
def physAddrMaxBoundary : Nat := (2 ^ 64 - 1) >>> (64 - 48)

/-- `va`. -/
def va (physAddr : Nat) : Outcome Nat := do
  bugOn (physAddr > physAddrMaxBoundary)
  pure (Word.add virtAddrKernelStart physAddr)

/-- `pa`. -/
def pa (virtAddr : Nat) : Outcome Nat := do
  bugOn (virtAddr < physAddrMaxBoundary)
  pure (Word.sub virtAddr virtAddrKernelStart)

/-- The physical address the kernel reaches at a virtual one. -/
def linear (virtAddr : Nat) : Nat := Word.sub virtAddr virtAddrKernelStart

/-! ## The page-frame database -/

/-- `PAGEFRAME_SIZE`. -/
def pageframeSize : Nat := 0x1000

/-- `sizeof(struct pageframe_t)`. -/
def sizeofPageframe : Nat := 16

/-- `pageframe_database_t`: the heads of the two lists. -/
structure PageframeDatabase where
  free : Nat
  used : Nat
deriving DecidableEq, Repr

/-- `pf->phy_addr`. -/
def phyAddr (m : Mem) (pf : Nat) : Nat := m.load64 (linear pf)

/-- `pf->next`. -/
def nextNode (m : Mem) (pf : Nat) : Nat := m.load64 (linear (Word.add pf 8))

/-- `pf->next = next`. -/
def setNextNode (m : Mem) (pf next : Nat) : Mem := m.store64 (linear (Word.add pf 8)) next

/-- `pageframe_calc_space_needed`. -/
def pageframeCalcSpaceNeeded (pagetableBytes : Nat) : Nat :=
  Word.mul (pagetableBytes / pageframeSize) sizeofPageframe

/-- The loop of `pageframe_init`, with the iterations left. -/
def pageframeInitLoop : Nat → Mem → Nat → Nat → Nat → Outcome (Mem × Nat)
  | 0, m, free, _, _ => .ok (m, free)
  | n + 1, m, free, pagetableAddr, pageframeAddr => do
    let pf ← va pageframeAddr
    let m := m.store64 (linear pf) pagetableAddr
    -- the first node has no successor, every other one is put before the list so far
    let m := if free = 0 then setNextNode m pf 0 else setNextNode m pf free
    pageframeInitLoop n m pf (Word.add pagetableAddr pageframeSize)
      (Word.add pageframeAddr sizeofPageframe)

/-- `pageframe_init`. -/
def pageframeInit (m : Mem) (kPagesStructRg kPfdbStructRg : MemMapRegion) :
    Outcome (Mem × PageframeDatabase) := do
  let pfn := kPfdbStructRg.length / sizeofPageframe
  let (m, free) ← pageframeInitLoop pfn m 0 kPagesStructRg.baseAddr kPfdbStructRg.baseAddr
  pure (m, ⟨free, 0⟩)

/-- `pageframe_alloc`. -/
def pageframeAlloc (m : Mem) (pfdb : PageframeDatabase) : Outcome (Nat × Mem × PageframeDatabase) := do
  bugOn (pfdb.free = 0)
  let pageFrame := pfdb.free
  let ret := phyAddr m pageFrame
  let free := nextNode m pfdb.free
  let m := setNextNode m pageFrame pfdb.used
  pure (ret, m, ⟨free, pageFrame⟩)

/-- The loop of `find_predecessor`; running off the list is its `BUG_ON`. -/
def findPredecessorLoop (m : Mem) (val : Nat) : Nat → Nat → Outcome Nat
  | 0, _ => .error .outOfFuel
  | fuel + 1, tmp =>
    if tmp = 0 then .error .bugOn
    else if nextNode m tmp ≠ 0 ∧ phyAddr m (nextNode m tmp) = val then .ok tmp
    else findPredecessorLoop m val fuel (nextNode m tmp)

/-- `find_predecessor`: `0` when the head itself is the node. -/
def findPredecessor (m : Mem) (fuel head val : Nat) : Outcome Nat :=
  if phyAddr m head = val then .ok 0 else findPredecessorLoop m val fuel head

/-- `delete_node`: the node taken out, and the list's new head. -/
def deleteNode (m : Mem) (fuel head val : Nat) : Outcome (Nat × Mem × Nat) := do
  let pred ← findPredecessor m fuel head val
  let (item, m, head) :=
    if pred = 0 then
      if phyAddr m head = val then (head, m, nextNode m head) else (0, m, head)
    else
      let item := nextNode m pred
      (item, setNextNode m pred (nextNode m item), head)
  bugOn (item = 0)
  pure (item, m, head)

/-- `pageframe_free`. -/
def pageframeFree (m : Mem) (fuel : Nat) (pfdb : PageframeDatabase) (physAddr : Nat) :
    Outcome (Mem × PageframeDatabase) := do
  bugOn (pfdb.used = 0)
  let (pf, m, used) ← deleteNode m fuel pfdb.used physAddr
  bugOn (pf = 0)
  pure (setNextNode m pf pfdb.free, ⟨pf, used⟩)

/-! ## The same calls, with the state they leave -/

/-- `pageframe_alloc`. -/
def pageframeAllocCall : Halting (Mem × PageframeDatabase) Nat := do
  Halting.reads fun s => bugOn (s.2.free = 0)
  let (m, pfdb) ← get
  set (setNextNode m pfdb.free pfdb.used, (⟨nextNode m pfdb.free, pfdb.free⟩ : PageframeDatabase))
  pure (phyAddr m pfdb.free)

/-- `delete_node`, of the used list. -/
def deleteNodeCall (fuel val : Nat) : Halting (Mem × PageframeDatabase) Nat := do
  let pred ← Halting.reads fun s => findPredecessor s.1 fuel s.2.used val
  let (m, pfdb) ← get
  let (item, m, used) :=
    if pred = 0 then
      if phyAddr m pfdb.used = val then (pfdb.used, m, nextNode m pfdb.used) else (0, m, pfdb.used)
    else
      let item := nextNode m pred
      (item, setNextNode m pred (nextNode m item), pfdb.used)
  set (m, { pfdb with used := used })
  Halting.reads fun _ => bugOn (item = 0)
  pure item

/-- `pageframe_free`. -/
def pageframeFreeCall (fuel physAddr : Nat) : Halting (Mem × PageframeDatabase) Unit := do
  Halting.reads fun s => bugOn (s.2.used = 0)
  let pf ← deleteNodeCall fuel physAddr
  Halting.reads fun _ => bugOn (pf = 0)
  modify fun s => (setNextNode s.1 pf s.2.free, { s.2 with free := pf })

end AlmeidaOS.Kernel
