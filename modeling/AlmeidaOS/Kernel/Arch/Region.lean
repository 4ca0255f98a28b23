import AlmeidaOS.Base.Word

/-!
# `kernel/arch/mem.h`: address ranges

A memory region is a base address, a length and the type the firmware gave it. Addresses and
lengths are 64-bit words, the type is a 32-bit one.
-/

namespace AlmeidaOS.Kernel

/-- `E820_MEM_TYPE_USABLE`. -/
def e820MemTypeUsable : Nat := 1

/-- `E820_MEM_TYPE_RESERVED`. -/
def e820MemTypeReserved : Nat := 2

/-- `mem_map_region_t`. -/
structure MemMapRegion where
  baseAddr : Nat
  length : Nat
  type : Nat
deriving DecidableEq, Repr

/-- A zeroed region, as `memzero` leaves it. -/
def MemMapRegion.zero : MemMapRegion := ⟨0, 0, 0⟩

/-- The address lies in the region. -/
def MemMapRegion.Mem (r : MemMapRegion) (a : Nat) : Prop :=
  r.baseAddr ≤ a ∧ a < r.baseAddr + r.length

/-- `mem_map_block_t`: a count and a flexible array of regions. -/
structure MemMapBlock where
  numEntries : Nat
  memRegion : Nat → MemMapRegion

/-- The regions in use, in order. -/
def MemMapBlock.entries (b : MemMapBlock) : List MemMapRegion :=
  (List.range b.numEntries).map b.memRegion

theorem MemMapBlock.mem_entries {b : MemMapBlock} {r : MemMapRegion} :
    r ∈ b.entries ↔ ∃ i, i < b.numEntries ∧ b.memRegion i = r := by
  simp only [entries, List.mem_map, List.mem_range]

end AlmeidaOS.Kernel
