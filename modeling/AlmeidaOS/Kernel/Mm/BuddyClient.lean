import Mathlib.Data.Set.Basic
import Mathlib.Logic.Relation
import AlmeidaOS.Kernel.Mm.Buddy

/-!
# Runs of the buddy allocator

The allocator and what its caller knows: the header, the pointers `buddy_alloc` returned with the
sizes asked for, and the pages given to `buddy_pre_alloc`. A step is one call that returns; a call
that trips a `BUG_ON` halts the machine and is no step.
-/

namespace AlmeidaOS.Kernel

/-- The regions an allocator is set up with: `2 ^ m` page-aligned bytes of content and the header
space `buddy_calc_header_space` asks for, all of it addressable. -/
structure BuddyRegion (m : Nat) (hMemReg cMemReg : MemMapRegion) : Prop where
  order : 12 ≤ m
  word : m < 64
  length : cMemReg.length = 2 ^ m
  aligned : 4096 ∣ cMemReg.baseAddr
  content : cMemReg.baseAddr + 2 ^ m ≤ 2 ^ 64
  header : buddyCalcHeaderSpace cMemReg.length = .ok hMemReg.length
  space : hMemReg.baseAddr + hMemReg.length ≤ 2 ^ 64

/-- A pointer `buddy_alloc` returned, with the size it was asked for. -/
structure Grant where
  ptr : Nat
  bytes : Nat
deriving DecidableEq

/-- The order of the smallest block, a page at least, that holds the request. -/
def Grant.order (g : Grant) : Nat := max 12 (Nat.clog 2 g.bytes)

/-- The bytes a grant owns. -/
def Grant.owns (g : Grant) (x : Nat) : Prop := g.ptr ≤ x ∧ x < g.ptr + 2 ^ g.order

/-- The bytes a slot of the header speaks for. -/
def BuddySlot.holds (s : BuddySlot) (x : Nat) : Prop := s.baseAddr ≤ x ∧ x < s.baseAddr + 2 ^ s.powOrder

instance (s : BuddySlot) (x : Nat) : Decidable (s.holds x) := inferInstanceAs (Decidable (_ ∧ _))

/-- The allocator and its caller's books. `preAllocated` holds the addresses of the pages
pre-allocated and not freed since, `pinned` those of them that no live block held at the call. -/
structure BuddyClient where
  header : Header
  live : List Grant
  preAllocated : Set Nat
  pinned : Set Nat

/-- Just after `buddy_init`. -/
def BuddyClient.start (h : Header) : BuddyClient := ⟨h, [], ∅, ∅⟩

/-- The page addresses a request for `[base, base + len)` touches. -/
def requestedPages (base len : Nat) : Set Nat := {x | 4096 ∣ x ∧ base ≤ x ∧ x < base + len}

def BuddyClient.preAlloc (s : BuddyClient) (h : Header) (base len : Nat) : BuddyClient :=
  { header := h
    live := s.live
    preAllocated := s.preAllocated ∪ requestedPages base len
    pinned := s.pinned ∪ {x ∈ requestedPages base len | ∀ g ∈ s.live, ¬ g.owns x} }

def BuddyClient.alloc (s : BuddyClient) (h : Header) (g : Grant) : BuddyClient :=
  { s with header := h, live := g :: s.live }

/-- The books after the block of a slot is given back: what it held is neither live nor
pre-allocated any more. -/
def BuddyClient.free (s : BuddyClient) (h : Header) (slot : BuddySlot) : BuddyClient :=
  { header := h
    live := s.live.filter fun g => ¬ slot.holds g.ptr
    preAllocated := {x ∈ s.preAllocated | ¬ slot.holds x}
    pinned := {x ∈ s.pinned | ¬ slot.holds x} }

/-- The pointers the caller may free. -/
def BuddyClient.Freeable (s : BuddyClient) (ptr : Nat) : Prop :=
  (∃ g ∈ s.live, g.ptr = ptr) ∨ ptr ∈ s.preAllocated

/-- One call of the allocator that returns. -/
inductive BuddyStep (ref : BuddyRef) (s : BuddyClient) : BuddyClient → Prop
  | preAlloc {h : Header} (fuel base len : Nat) (aligned : 4096 ∣ base)
      (lower : ref.contentMemReg.baseAddr ≤ base)
      (upper : base + len ≤ ref.contentMemReg.baseAddr + ref.contentMemReg.length)
      (run : buddyPreAlloc ref fuel s.header base len = .ok h) :
      BuddyStep ref s (s.preAlloc h base len)
  | alloc {h : Header} {p : Nat} (fuel bytes : Nat)
      (run : buddyAlloc ref fuel s.header bytes = .ok (p, h)) :
      BuddyStep ref s (s.alloc h ⟨p, bytes⟩)
  | free {h : Header} {idx : Nat} (fuel ptr : Nat) (nonzero : ptr ≠ 0) (live : s.Freeable ptr)
      (found : findSlotByAddr ref fuel s.header ptr = .ok idx)
      (run : buddyFree ref fuel s.header ptr = .ok h) :
      BuddyStep ref s (s.free h (s.header idx))

/-- The states runs from one `buddy_init` reach. -/
def BuddyReach (ref : BuddyRef) (h₀ : Header) (s : BuddyClient) : Prop :=
  Relation.ReflTransGen (BuddyStep ref) (.start h₀) s

/-- The `n`-th slot of the header. -/
def headerSlot (ref : BuddyRef) (n : Nat) : Nat :=
  ref.headerMemReg.baseAddr + sizeofBuddySlot * n

/-- How many slots the header has. -/
def headerSlots (ref : BuddyRef) : Nat := ref.headerMemReg.length / sizeofBuddySlot

/-- The header has a USED block of this base address and order. -/
def UsedBlock (ref : BuddyRef) (h : Header) (base order : Nat) : Prop :=
  ∃ n < headerSlots ref, h (headerSlot ref n) = ⟨base, order, .used⟩

/-- Freeing one pointer after the other. -/
def buddyFreeAll (ref : BuddyRef) (fuel : Nat) (h : Header) (ptrs : List Nat) : Outcome Header :=
  ptrs.foldlM (buddyFree ref fuel) h

end AlmeidaOS.Kernel
