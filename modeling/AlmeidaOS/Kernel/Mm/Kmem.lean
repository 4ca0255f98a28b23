import AlmeidaOS.Kernel.Arch.Mem
import AlmeidaOS.Kernel.Mm.Buddy
import AlmeidaOS.Kernel.Mm.Page

/-!
# `kernel/mm/kmem.c`: the kernel's allocator

`kmem_init` gives all of physical memory to one buddy allocator and takes the reserved entries of
the memory map out of it. `kmalloc` maps what it allocates into the kernel's page table at its
address in the linear map, unless it is asked not to. The allocator's header is kept apart from the
rest of memory.
-/

namespace AlmeidaOS.Kernel

/-- `KMEM_DEFAULT`. -/
def kmemDefault : Nat := 1 <<< 0

/-- `KMEM_RAW_ALLOC`. -/
def kmemRawAlloc : Nat := 1 <<< 1

/-- `KMEM_ZERO`. -/
def kmemZero : Nat := 1 <<< 2

/-- What the memory management keeps: `k_mem_alloc` with its header, memory, and the kernel's page
table. -/
structure KernelMem where
  alloc : BuddyRef
  header : Header
  mem : Mem
  pgtable : PageTable

/-- `mem_proc_handler`. -/
def memProcHandler (alloc : BuddyRef) (fuel : Nat) (h : Header) (memRg : MemMapRegion) : Outcome Header :=
  if Word.add memRg.baseAddr memRg.length ≤ alloc.contentMemReg.length then
    buddyPreAlloc alloc fuel h memRg.baseAddr memRg.length
  else pure h

/-- `kmem_init`. -/
def kmemInit (fuel : Nat) (before : Header) (memBlocks : MemMapBlock)
    (kMemHeaderRg kMemContentRg : MemMapRegion) : Outcome (BuddyRef × Header) := do
  let (alloc, h) ← buddyInit before kMemHeaderRg kMemContentRg
  let h ← memListEntries memBlocks e820MemTypeReserved (memProcHandler alloc fuel) h
  pure (alloc, h)

/-- `kmalloc`. -/
def kmalloc (shiftBits fuel : Nat) (s : KernelMem) (bytes flags : Nat) : Outcome (Nat × KernelMem) := do
  let (phyAddr, header) ← buddyAlloc s.alloc fuel s.header bytes
  let vaAddr ← va phyAddr
  if flags &&& kmemRawAlloc = 0 then do
    let (mem, pgtable) ← pagingContiguousMap shiftBits (pagePresentBit ||| pageReadWriteBit) fuel s.mem
      s.pgtable phyAddr (Word.add phyAddr bytes) vaAddr
    let mem := if flags &&& kmemZero ≠ 0 then mem.fill (linear vaAddr) bytes 0 else mem
    pure (vaAddr, ⟨s.alloc, header, mem, pgtable⟩)
  else pure (vaAddr, { s with header := header })

/-- `kfree`. -/
def kfree (fuel : Nat) (s : KernelMem) (ptr : Nat) : Outcome KernelMem := do
  let phyAddr ← pa ptr
  let header ← buddyFree s.alloc fuel s.header phyAddr
  pure { s with header := header }

end AlmeidaOS.Kernel
