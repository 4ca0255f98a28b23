import AlmeidaOS.Kernel.Mm.Kmem

/-!
# `kernel/mm/init.c`

`mm_init` prepares the memory map, takes the kernel's own sections and the allocator's header out of
it, gives the whole of memory to the allocator, and builds the kernel's page table in two blocks it
allocates: a pool of frames and the nodes of its page-frame database. Everything it maps, it maps at
its address in the linear map.

The memory is read and written here at the address that the linear map gives. Until `paging_reload_cr3`, the
last call of `mm_init`, it is the first page tables that translate, and those do so for the first 4 GiB only:
of a machine where the image, the allocator's header or the two blocks lie beyond, this is no model.

`rands` are the numbers `rand` returns to the calls of `qsort`, a sequence for each function that
sorts the map.
-/

namespace AlmeidaOS.Kernel

/-- `ELF_TEXT_OFFSET`. -/
def elfTextOffset : Nat := 0x1000

/-- `STACK_SIZE`. -/
def stackSize : Nat := pageSize * 2

/-- `K_VIRT_START_ADDR`. -/
def kVirtStartAddr : Nat := 0xffff800000000000

/-- What the linker decides: the addresses of `kernel_virt_start_addr` and `kernel_virt_end_addr`, and those of the
variables `k_mem_alloc`, `k_root_pgt` and `pid_map`, whose values are not kept in the bytes of memory here. -/
structure KernelImage where
  virtStartAddr : Nat
  virtEndAddr : Nat
  kMemAlloc : Nat
  kRootPgt : Nat
  pidMap : Nat
deriving DecidableEq, Repr

/-- The memory map of `mem.c` and its statistics. -/
structure PhysMap where
  memBlocks : MemMapBlock
  physMemStat : MemPhysStats

/-- `reserve_kernel_sections`. -/
def reserveKernelSections (rands : Nat → Nat → Nat) (image : KernelImage) (map : PhysMap) : Outcome PhysMap := do
  let start ← pa image.virtStartAddr
  let (_, memBlocks, physMemStat) ← memAllocRegion (rands 1) map.memBlocks map.physMemStat
    (Word.sub (Word.sub start elfTextOffset) stackSize) (roundUpPo2 (Word.sub start elfTextOffset) pageSize)
  let fini ← pa image.virtEndAddr
  let (_, memBlocks, physMemStat) ← memAllocRegion (rands 2) memBlocks physMemStat
    (Word.sub start elfTextOffset) (roundUpPo2 fini pageSize)
  pure ⟨memBlocks, physMemStat⟩

/-- `buddy_allocator_setup`; `before` is what the header's memory held. -/
def buddyAllocatorSetup (fuel : Nat) (rands : Nat → Nat → Nat) (before : Header) (map : PhysMap)
    (kMemContentSpace : Nat) : Outcome (MemMapRegion × BuddyRef × Header × PhysMap) := do
  let kMemHeaderSpace ← buddyCalcHeaderSpace kMemContentSpace
  let (kMemHeaderRg, memBlocks, physMemStat) ← memAllocAmount (rands 3) map.memBlocks map.physMemStat
    kMemHeaderSpace pageSize
  let kMemContentRg : MemMapRegion := ⟨0x0, kMemContentSpace, 0⟩
  let baseAddr ← va kMemHeaderRg.baseAddr
  let kMemHeaderRg := { kMemHeaderRg with baseAddr := baseAddr }
  let (alloc, header) ← kmemInit fuel before memBlocks kMemHeaderRg kMemContentRg
  pure (kMemHeaderRg, alloc, header, ⟨memBlocks, physMemStat⟩)

/-- The flags of the mappings that `mm_init` makes. -/
def bootBits : Nat := pagePresentBit ||| pageReadWriteBit ||| pageGlobalBit

/-- `paging_setup`. -/
def pagingSetup (shiftBits fuel : Nat) (image : KernelImage) (s : KernelMem) (totalKernSpace : Nat) :
    Outcome KernelMem := do
  let pagingMem := pagingCalcSpaceNeeded totalKernSpace
  let pfdbMem := pageframeCalcSpaceNeeded pagingMem
  let (pages, s) ← kmalloc shiftBits fuel s pagingMem kmemRawAlloc
  let kPagesStructRg : MemMapRegion := ⟨← pa pages, pagingMem, 0⟩
  let (nodes, s) ← kmalloc shiftBits fuel s pfdbMem kmemRawAlloc
  let kPfdbStructRg : MemMapRegion := ⟨← pa nodes, pfdbMem, 0⟩
  let (mem, pgtable) ← pagingInit s.mem kPagesStructRg kPfdbStructRg
  let (mem, pgtable) ← pagingContiguousMap shiftBits bootBits fuel mem pgtable 0 (← pa image.virtEndAddr)
    kVirtStartAddr
  let (mem, pgtable) ← pagingContiguousMap shiftBits bootBits fuel mem pgtable kPagesStructRg.baseAddr
    (Word.add kPagesStructRg.baseAddr kPagesStructRg.length) (← va kPagesStructRg.baseAddr)
  let (mem, pgtable) ← pagingContiguousMap shiftBits bootBits fuel mem pgtable kPfdbStructRg.baseAddr
    (Word.add kPfdbStructRg.baseAddr kPfdbStructRg.length) (← va kPfdbStructRg.baseAddr)
  pure { s with mem := mem, pgtable := pgtable }

/-- `mm_init`, given the map the loader has left, what memory holds, and a page table of zeros in `.bss`. It goes
for machines on which all that it writes to lies below 4 GiB. -/
def mmInit (shiftBits fuel : Nat) (rands : Nat → Nat → Nat) (image : KernelImage) (before : Header) (mem : Mem)
    (memBlocks : MemMapBlock) : Outcome (KernelMem × PhysMap) := do
  let (memBlocks, physMemStat) ← memInit (rands 0) memBlocks
  let map ← reserveKernelSections rands image ⟨memBlocks, physMemStat⟩
  let stat ← memStat map.physMemStat
  let totalKernSpace := flp2 stat.physAvailMem
  let (kMemHeaderRg, alloc, header, map) ← buddyAllocatorSetup fuel rands before map totalKernSpace
  let s ← pagingSetup shiftBits fuel image ⟨alloc, header, mem, ⟨0, 0, ⟨0, 0⟩⟩⟩ totalKernSpace
  let headerStart ← pa kMemHeaderRg.baseAddr
  let (mem, pgtable) ← pagingContiguousMap shiftBits bootBits fuel s.mem s.pgtable headerStart
    (Word.add headerStart kMemHeaderRg.length) kMemHeaderRg.baseAddr
  pure ({ s with mem := mem, pgtable := pgtable }, map)

end AlmeidaOS.Kernel
