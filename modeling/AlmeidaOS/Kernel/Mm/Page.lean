import AlmeidaOS.Kernel.Lib.Math
import AlmeidaOS.Kernel.Mm.Pageframe

/-!
# `kernel/mm/page.c`

A page table is a frame of 512 eight-byte entries. An entry holds twelve flag bits and the 36-bit
number of a frame; `page_alloc` fills in the missing tables on the way down to a page, `page_free`
clears the page's entry and gives back the tables it takes to be empty.

`shiftBits` is the width of the type in which the compiler computes `base_addr << PAGE_SHIFT`. The
field is declared `uint64_t base_addr :36`; GCC's C front end gives it a type of 36 bits and shifts
in those, a compiler that goes by the declared type shifts in 64.

`walk` and `userWalk` are not part of the source: they are what the processor does with the tables.
-/

namespace AlmeidaOS.Kernel

/-- `PAGE_SHIFT`. -/
def pageShift : Nat := 12

/-- `PAGE_SIZE`. -/
def pageSize : Nat := 0x1000

def pagePresentBit : Nat := 1 <<< 0
def pageReadWriteBit : Nat := 1 <<< 1
def pageUserSupervisorBit : Nat := 1 <<< 2
def pageGlobalBit : Nat := 1 <<< 8

/-- `PAGE_STD_BITS`. -/
def pageStdBits : Nat := pagePresentBit ||| pageReadWriteBit

/-- `PML4E`. -/
def pml4e (a : Nat) : Nat := extractBitChunk 39 47 a

/-- `PDPTE`. -/
def pdpte (a : Nat) : Nat := extractBitChunk 30 38 a

/-- `PDE`. -/
def pde (a : Nat) : Nat := extractBitChunk 21 29 a

/-- `PTE`. -/
def pte (a : Nat) : Nat := extractBitChunk 12 20 a

/-- `PREP_BASE_ADDR`. -/
def prepBaseAddr (addr : Nat) : Nat := (addr >>> pageShift) &&& ((2 ^ 64 - 1) >>> (64 - (64 - 36)))

/-- An entry with the given `flags` and base address fields, its other fields zero. -/
def packEntry (flags baseAddr : Nat) : Nat := flags % 2 ^ 12 ||| (baseAddr % 2 ^ 36) <<< 12

/-- The 36-bit base address field of an entry. -/
def entryBaseAddr (entry : Nat) : Nat := (entry >>> 12) % 2 ^ 36

/-- `pagetable_t`. -/
structure PageTable where
  physRoot : Nat
  virtRoot : Nat
  pfdb : PageframeDatabase
deriving DecidableEq, Repr

/-- `paging_calc_space_needed`, in `unsigned int`s. -/
def pagingCalcSpaceNeeded (bytes : Nat) : Nat :=
  let mb2 := 2 * 1024 * 1024
  let pteTables := bytes / mb2 % 2 ^ 32
  let pteTables := if bytes % mb2 ≠ 0 then (pteTables + 1) % 2 ^ 32 else pteTables
  let pdTables := pteTables / 512
  let pdTables := if pdTables % 512 ≠ 0 then pdTables + 1 else pdTables
  let pdpTables := pdTables / 512
  let pdpTables := if pdpTables % 512 ≠ 0 then pdpTables + 1 else pdpTables
  let pm4lTables := 1
  let totalTables := (pm4lTables + pdpTables + pdTables + pteTables) % 2 ^ 32
  totalTables * pageSize % 2 ^ 32

/-- `paging_init`. -/
def pagingInit (m : Mem) (kPagesStructRg kPfdbStructRg : MemMapRegion) : Outcome (Mem × PageTable) := do
  let pages ← va kPagesStructRg.baseAddr
  let m := m.fill (linear pages) kPagesStructRg.length 0
  let nodes ← va kPfdbStructRg.baseAddr
  let m := m.fill (linear nodes) kPfdbStructRg.length 0
  let (m, pfdb) ← pageframeInit m kPagesStructRg kPfdbStructRg
  let (physRoot, m, pfdb) ← pageframeAlloc m pfdb
  let virtRoot ← va physRoot
  pure (m, ⟨physRoot, virtRoot, pfdb⟩)

/-! ## `page_alloc` -/

/-- `&table[idx]`. -/
def entrySlot (table idx : Nat) : Nat := Word.add table (8 * idx)

/-- `is_page_entry_empty`. -/
def isPageEntryEmpty (m : Mem) (slot : Nat) : Bool := m.load64 (linear slot) = 0

/-- One of the three steps that put a table where an entry is empty. -/
def ensureTable (m : Mem) (pfdb : PageframeDatabase) (slot flags : Nat) :
    Outcome (Mem × PageframeDatabase) :=
  if isPageEntryEmpty m slot then do
    let (tableAddr, m, pfdb) ← pageframeAlloc m pfdb
    pure (m.store64 (linear slot) (packEntry flags (prepBaseAddr tableAddr)), pfdb)
  else pure (m, pfdb)

section

variable (shiftBits : Nat)

/-- `va(entry.base_addr << PAGE_SHIFT)`. -/
def nextTable (m : Mem) (slot : Nat) : Outcome Nat :=
  va (entryBaseAddr (m.load64 (linear slot)) <<< pageShift % 2 ^ shiftBits)

/-- `page_alloc`. -/
def pageAlloc (m : Mem) (pgtable : PageTable) (vAddr pDestAddr flags : Nat) :
    Outcome (Mem × PageTable) := do
  let pml4Slot := entrySlot pgtable.virtRoot (pml4e vAddr)
  let (m, pfdb) ← ensureTable m pgtable.pfdb pml4Slot flags
  let pdpPgtable ← nextTable shiftBits m pml4Slot
  let pdpSlot := entrySlot pdpPgtable (pdpte vAddr)
  let (m, pfdb) ← ensureTable m pfdb pdpSlot flags
  let pdPgtable ← nextTable shiftBits m pdpSlot
  let pdSlot := entrySlot pdPgtable (pde vAddr)
  let (m, pfdb) ← ensureTable m pfdb pdSlot flags
  let ptPgtable ← nextTable shiftBits m pdSlot
  let ptSlot := entrySlot ptPgtable (pte vAddr)
  let m := if isPageEntryEmpty m ptSlot then
    m.store64 (linear ptSlot) (packEntry flags (prepBaseAddr pDestAddr)) else m
  pure (m, { pgtable with pfdb := pfdb })

/-- `paging_contiguous_map`, with the iterations it may take. -/
def pagingContiguousMap (flags : Nat) : Nat → Mem → PageTable → Nat → Nat → Nat → Outcome (Mem × PageTable)
  | 0, _, _, _, _, _ => .error .outOfFuel
  | fuel + 1, m, pgtable, pStartAddr, pEndAddr, vBaseStartAddr =>
    if pStartAddr ≤ pEndAddr then do
      let (m, pgtable) ← pageAlloc shiftBits m pgtable vBaseStartAddr pStartAddr flags
      pagingContiguousMap flags fuel m pgtable (Word.add pStartAddr pageSize) pEndAddr
        (Word.add vBaseStartAddr pageSize)
    else .ok (m, pgtable)

end

/-! ## `page_free` -/

/-- `is_pagetable_empty`: the loop runs 512 times over a pointer it never moves. -/
def isPagetableEmpty (m : Mem) (pgtable : Nat) : Bool :=
  (List.range 512).all fun _ => m (linear pgtable) = 0

/-- The index of an address in the table of a level. -/
def levelIndex (level vAddr : Nat) : Nat :=
  if level = 4 then pml4e vAddr
  else if level = 3 then pdpte vAddr
  else if level = 2 then pde vAddr
  else pte vAddr

/-- `page_free_resources`; the answer says whether the table was given back. -/
def pageFreeResources (fuel vAddr : Nat) :
    Nat → Mem → PageframeDatabase → Nat → Outcome (Bool × Mem × PageframeDatabase)
  | 0, m, pfdb, _ => .ok (true, m, pfdb)
  | level + 1, m, pfdb, pgtPhyAddr => do
    let pgtVirtAddr ← va pgtPhyAddr
    let pageEntry ← va (Word.add pgtPhyAddr (levelIndex (level + 1) vAddr * 8))
    let lpgtPhyBaseAddr := extractBitChunk 12 51 (m.load64 (linear pageEntry)) <<< pageShift
    let (released, m, pfdb) ← pageFreeResources fuel vAddr level m pfdb lpgtPhyBaseAddr
    if released then
      let m := m.fill (linear pageEntry) 8 0
      if isPagetableEmpty m pgtVirtAddr then do
        let (m, pfdb) ← pageframeFree m fuel pfdb pgtPhyAddr
        pure (true, m, pfdb)
      else pure (false, m, pfdb)
    else pure (false, m, pfdb)

/-- `page_free`; the translation cache it invalidates is not part of the state. -/
def pageFree (fuel : Nat) (m : Mem) (pgtable : PageTable) (vAddr : Nat) : Outcome (Mem × PageTable) := do
  let (_, m, pfdb) ← pageFreeResources fuel vAddr 4 m pgtable.pfdb pgtable.physRoot
  pure (m, { pgtable with pfdb := pfdb })

/-! ## The processor's walk -/

/-- The frame an entry points to. -/
def entryFrame (entry : Nat) : Nat := extractBitChunk 12 51 entry <<< pageShift

/-- An entry of a present page or table. -/
def present (entry : Nat) : Bool := entry % 2 = 1

/-- The four-level walk through entries of a kind: the page frame an address translates to and the flags of its
last entry. -/
def walkThrough (admits : Nat → Bool) (m : Mem) (root vAddr : Nat) : Option (Nat × Nat) :=
  let e4 := m.load64 (root + 8 * pml4e vAddr)
  if admits e4 then
    let e3 := m.load64 (entryFrame e4 + 8 * pdpte vAddr)
    if admits e3 then
      let e2 := m.load64 (entryFrame e3 + 8 * pde vAddr)
      if admits e2 then
        let e1 := m.load64 (entryFrame e2 + 8 * pte vAddr)
        if admits e1 then some (entryFrame e1, e1 % 2 ^ 12) else none
      else none
    else none
  else none

/-- The walk of an access the kernel makes. -/
def walk (m : Mem) (root vAddr : Nat) : Option (Nat × Nat) := walkThrough present m root vAddr

/-- An entry that is there for programs too. -/
def userPresent (entry : Nat) : Bool := present entry && entry &&& pageUserSupervisorBit ≠ 0

/-- The walk of an access a program makes: the entries of all four levels must be there for programs. -/
def userWalk (m : Mem) (root vAddr : Nat) : Option (Nat × Nat) := walkThrough userPresent m root vAddr

end AlmeidaOS.Kernel
