import AlmeidaOS.Base.Outcome
import AlmeidaOS.Base.Blocks
import AlmeidaOS.Kernel.Lib.Math
import AlmeidaOS.Kernel.Arch.Region

/-!
# `kernel/mm/buddy.c`: the buddy allocator

The allocator keeps one slot for every block it could ever cut its content region into. The slots
of one order stand next to each other in the header, the smallest order first, and a slot pointer
is the address of a slot. The header is modelled as typed memory: the slot at each address, with
all the reads and writes of the C code at the addresses that code computes.

Three loops have no bound of their own, since they follow what the header says: the search and
split of `buddy_alloc`, the walk down and the merge up of `buddy_free`, and the walk down of
`buddy_pre_alloc`, which also calls itself. They run on fuel. The messages `printk` writes are not
part of the model.
-/

namespace AlmeidaOS.Kernel

/-- `slot_type_t`. -/
abbrev SlotType := Blocks.Mark

/-- `buddy_slot_t`. -/
structure BuddySlot where
  baseAddr : Nat
  powOrder : Nat
  type : SlotType
deriving DecidableEq, Repr

/-- A zeroed slot. `UNUSED` is the zero of its enumeration. -/
def BuddySlot.zero : BuddySlot := ⟨0, 0, .unused⟩

/-- `buddy_ref_t`. -/
structure BuddyRef where
  headerMemReg : MemMapRegion
  contentMemReg : MemMapRegion
  maxPowOrder : Nat
  minPowOrder : Nat
deriving DecidableEq, Repr

/-- The header, slot by slot, at the slots' addresses. -/
structure Header where
  slot : Nat → BuddySlot

instance : CoeFun Header (fun _ => Nat → BuddySlot) := ⟨Header.slot⟩

/-- `*addr = slot`. -/
def Header.write (h : Header) (addr : Nat) (slot : BuddySlot) : Header :=
  ⟨fun a => if a = addr then slot else h a⟩

/-- `addr->type = type`. -/
def Header.setType (h : Header) (addr : Nat) (type : SlotType) : Header :=
  h.write addr { h addr with type := type }

/-- `sizeof(buddy_slot_t)`. -/
def sizeofBuddySlot : Nat := 16

/-- `BUDDY_ALLOC_SMALLEST_BLOCK`. -/
def buddyAllocSmallestBlock : Nat := 4096

/-- An `int` passed where a `uint8_t` is expected. -/
def toUint8 (z : Int) : Nat := (z % 256).toNat

/-- `ptr + n` for a slot pointer. -/
def slotPtrAdd (ptr n : Nat) : Nat := Word.add ptr (Word.mul n sizeofBuddySlot)

/-- `buddy_calc_header_space`. -/
def buddyCalcHeaderSpace (memSpace : Nat) : Outcome Nat := do
  bugOn (memSpace ≠ flp2 memSpace)
  let maxK := ilog2 memSpace
  let minK := ilog2 buddyAllocSmallestBlock
  pure (Word.mul (upow 2 (Word.ofInt ((maxK : Int) - minK + 1))) sizeofBuddySlot)

section Navigation

variable (ref : BuddyRef) (h : Header)

/-- `goto_porder_idx`: the address of the first slot of an order. -/
def gotoPorderIdx (powOrder : Nat) : Nat :=
  let offsetAddr := Word.sub
    (upow 2 (Word.ofInt ((ref.maxPowOrder : Int) - ((ref.minPowOrder : Int) - 1))))
    (upow 2 (Word.ofInt ((ref.maxPowOrder : Int) - powOrder + 1)))
  Word.add ref.headerMemReg.baseAddr (Word.mul offsetAddr sizeofBuddySlot)

/-- The position of a slot among the slots of the order it stores. -/
def arrPos (slot : Nat) : Nat :=
  Word.sub slot (gotoPorderIdx ref (h slot).powOrder) / sizeofBuddySlot

/-- `goto_parent`. The source calls `clear_bit` on the position and drops the result. -/
def gotoParent (child : Nat) : Nat :=
  slotPtrAdd (gotoPorderIdx ref (toUint8 ((h child).powOrder + 1))) (arrPos ref h child / 2)

/-- `goto_left_child`. -/
def gotoLeftChild (parent : Nat) : Nat :=
  slotPtrAdd (gotoPorderIdx ref (toUint8 ((h parent).powOrder - 1)))
    (Word.mul (arrPos ref h parent) 2)

/-- `goto_right_child`. -/
def gotoRightChild (parent : Nat) : Nat :=
  slotPtrAdd (slotPtrAdd (gotoPorderIdx ref (toUint8 ((h parent).powOrder - 1)))
    (Word.mul (arrPos ref h parent) 2)) 1

/-- `goto_sibling`. -/
def gotoSibling (node : Nat) : Nat :=
  if arrPos ref h node % 2 = 0 then Word.add node sizeofBuddySlot
  else Word.sub node sizeofBuddySlot

/-- `n_of_entries`. -/
def nOfEntries (powOrder : Nat) : Nat := upow 2 ref.maxPowOrder / upow 2 powOrder

/-- `is_entry_empty`. -/
def isEntryEmpty (slot : BuddySlot) : Bool := slot.baseAddr = 0 && slot.powOrder = 0

/-- `find_free_slot`: the first slot of the order that is there and unused. -/
def findFreeSlot (powOrder : Nat) : Option Nat :=
  let idx := gotoPorderIdx ref powOrder
  ((List.range (nOfEntries ref powOrder)).find? fun i =>
    !isEntryEmpty (h (slotPtrAdd idx i)) && (h (slotPtrAdd idx i)).type = .unused).map
      (slotPtrAdd idx)

/-- `insert_child_slot`. -/
def insertChildSlot (parent : Nat) (child : BuddySlot) : Header :=
  let idx := if (h parent).baseAddr = child.baseAddr then gotoLeftChild ref h parent
    else gotoRightChild ref h parent
  h.write idx child

/-- The split both `buddy_alloc` and `buddy_pre_alloc` write out: two unused halves are inserted
below `idx`, which is then marked split. -/
def splitAndInsert (idx : Nat) : Header :=
  let left : BuddySlot :=
    ⟨(h idx).baseAddr, toUint8 ((h idx).powOrder - 1), .unused⟩
  let right : BuddySlot :=
    ⟨Word.add (h idx).baseAddr (upow 2 (Word.ofInt (((h idx).powOrder : Int) - 1))),
      toUint8 ((h idx).powOrder - 1), .unused⟩
  let h := insertChildSlot ref h idx left
  let h := insertChildSlot ref h idx right
  h.setType idx .split

end Navigation

/-- `buddy_init`, over whatever the header memory held before. -/
def buddyInit (before : Header) (hMemReg cMemReg : MemMapRegion) : Outcome (BuddyRef × Header) := do
  bugOn (cMemReg.length ≠ flp2 cMemReg.length)
  let maxPowOrder := toUint8 (ilog2 cMemReg.length)
  let ref : BuddyRef :=
    { headerMemReg := hMemReg
      contentMemReg := cMemReg
      maxPowOrder := maxPowOrder
      minPowOrder := toUint8 (ilog2 buddyAllocSmallestBlock) }
  -- memzero of the header region
  let h : Header := ⟨fun a =>
    if hMemReg.baseAddr ≤ a ∧ a < hMemReg.baseAddr + hMemReg.length then .zero else before a⟩
  pure (ref, h.write (gotoPorderIdx ref maxPowOrder) ⟨cMemReg.baseAddr, maxPowOrder, .unused⟩)

variable (ref : BuddyRef)

/-- The search and split loop of `buddy_alloc`. -/
def buddyAllocLoop (kOrder : Nat) : Nat → Header → Nat → Outcome (Nat × Header)
  | 0, _, _ => .error .outOfFuel
  | fuel + 1, h, tmpKOrder =>
    match findFreeSlot ref h tmpKOrder with
    | none =>
      -- the loop breaks with `found` still false and `BUG_ON(!found)` fires
      if tmpKOrder = ref.maxPowOrder then .error .bugOn
      else buddyAllocLoop kOrder fuel h (toUint8 (tmpKOrder + 1))
    | some idx =>
      if (h idx).powOrder > kOrder then
        buddyAllocLoop kOrder fuel (splitAndInsert ref h idx) (toUint8 (tmpKOrder - 1))
      else .ok ((h idx).baseAddr, h.setType idx .used)

/-- The order `buddy_alloc` serves a request with. -/
def allocOrder (bytes : Nat) : Nat :=
  let kOrder := toUint8 (ilog2 (clp2 bytes))
  if kOrder < ref.minPowOrder then ref.minPowOrder else kOrder

/-- `buddy_alloc`. -/
def buddyAlloc (fuel : Nat) (h : Header) (bytes : Nat) : Outcome (Nat × Header) := do
  bugOn (bytes = 0 ∨ bytes > ref.contentMemReg.length)
  let kOrder := allocOrder ref bytes
  buddyAllocLoop ref kOrder fuel h kOrder

/-- The loop of `find_slot_by_addr`; `none` is `NULL`. -/
def findSlotByAddrLoop (h : Header) (ptr : Nat) : Nat → Nat → Outcome (Option Nat)
  | 0, _ => .error .outOfFuel
  | fuel + 1, idx =>
    if (h idx).powOrder ≥ ref.minPowOrder then
      match (h idx).type with
      | .unused => .ok none
      | .used => .ok (some idx)
      | .split =>
        if ptr ≥ (h idx).baseAddr ∧
            ptr ≤ Word.sub (Word.add (h idx).baseAddr (upow 2 (h idx).powOrder / 2)) 1 then
          findSlotByAddrLoop h ptr fuel (gotoLeftChild ref h idx)
        else findSlotByAddrLoop h ptr fuel (gotoRightChild ref h idx)
    else .ok none

/-- `find_slot_by_addr`. -/
def findSlotByAddr (fuel : Nat) (h : Header) (ptr : Nat) : Outcome Nat := do
  match ← findSlotByAddrLoop ref h ptr fuel (gotoPorderIdx ref ref.maxPowOrder) with
  | none => .error .bugOn
  | some idx => .ok idx

/-- The merge loop of `buddy_free`. -/
def mergeLoop : Nat → Header → Nat → Outcome Header
  | 0, _, _ => .error .outOfFuel
  | fuel + 1, h, ptrSlot =>
    if (h ptrSlot).powOrder < ref.maxPowOrder then
      let siblingSlot := gotoSibling ref h ptrSlot
      if (h siblingSlot).type ≠ .unused then .ok h
      else
        let largeSlot := gotoParent ref h ptrSlot
        let h := h.setType largeSlot .unused
        let h := h.write ptrSlot .zero
        let h := h.write siblingSlot .zero
        mergeLoop fuel h largeSlot
    else .ok h

/-- `buddy_free`. -/
def buddyFree (fuel : Nat) (h : Header) (ptr : Nat) : Outcome Header := do
  bugOn (ptr = 0)
  let ptrSlot ← findSlotByAddr ref fuel h ptr
  mergeLoop ref fuel (h.setType ptrSlot .unused) ptrSlot

/-- `buddy_free`, with the header it leaves also where it halts. -/
def buddyFreeCall (fuel ptr : Nat) : Halting Header Unit := do
  Halting.reads fun _ => bugOn (ptr = 0)
  let ptrSlot ← Halting.reads fun h => findSlotByAddr ref fuel h ptr
  modify fun h => h.setType ptrSlot .unused
  set (← Halting.reads fun h => mergeLoop ref fuel h ptrSlot)

/-- How the walk of `buddy_pre_alloc` ends: with nothing left to do, or at the slot `idx` whose
halves, `nextKOrderLength` long, both meet the request. -/
inductive Descent where
  | done (h : Header)
  | overlapping (h : Header) (idx nextKOrderLength : Nat)

/-- The `while (true)` loop of `buddy_pre_alloc`. -/
def preAllocLoop (baseAddr length kOrder : Nat) : Nat → Header → Nat → Outcome Descent
  | 0, _, _ => .error .outOfFuel
  | fuel + 1, h, idx =>
    let curKOrderLength := upow 2 (h idx).powOrder
    let nextKOrderLength := upow 2 (Word.ofInt (((h idx).powOrder : Int) - 1))
    if baseAddr ≥ (h idx).baseAddr ∧
        Word.add baseAddr length ≤ Word.add (h idx).baseAddr curKOrderLength then
      if (h idx).powOrder > kOrder then
        match (h idx).type with
        | .unused =>
          let h := splitAndInsert ref h idx
          if baseAddr ≥ (h idx).baseAddr ∧
              Word.add baseAddr length ≤ Word.add (h idx).baseAddr nextKOrderLength then
            preAllocLoop baseAddr length kOrder fuel h (gotoLeftChild ref h idx)
          else if baseAddr ≥ Word.add (h idx).baseAddr nextKOrderLength then
            preAllocLoop baseAddr length kOrder fuel h (gotoRightChild ref h idx)
          else .ok (.overlapping h idx nextKOrderLength)
        | .split =>
          if Word.add baseAddr length ≤ Word.add (h idx).baseAddr nextKOrderLength then
            preAllocLoop baseAddr length kOrder fuel h (gotoLeftChild ref h idx)
          else if baseAddr ≥ Word.add (h idx).baseAddr nextKOrderLength then
            preAllocLoop baseAddr length kOrder fuel h (gotoRightChild ref h idx)
          else .ok (.overlapping h idx nextKOrderLength)
        | .used => .ok (.done h)
      else if (h idx).powOrder = kOrder then do
        bugOn ((h idx).type ≠ .unused)
        .ok (.done (h.setType idx .used))
      -- no branch moves `idx`: the loop runs again on the same slot
      else preAllocLoop baseAddr length kOrder fuel h idx
    else preAllocLoop baseAddr length kOrder fuel h idx

/-- `buddy_pre_alloc`. -/
def buddyPreAlloc : Nat → Header → Nat → Nat → Outcome Header
  | 0, _, _, _ => .error .outOfFuel
  | fuel + 1, h, baseAddr, length => do
    bugOn (length = 0 ∨ length > ref.contentMemReg.length ∨ baseAddr < ref.contentMemReg.baseAddr)
    let length := roundUpPo2 length buddyAllocSmallestBlock
    if length ≠ clp2 length then
      let req1Length := flp2 length
      let h ← buddyPreAlloc fuel h baseAddr req1Length
      buddyPreAlloc fuel h (Word.add baseAddr req1Length) (Word.sub length req1Length)
    else
      let kOrder := toUint8 (ilog2 length)
      let kOrder := if kOrder < ref.minPowOrder then ref.minPowOrder else kOrder
      match ← preAllocLoop ref baseAddr length kOrder fuel h (gotoPorderIdx ref ref.maxPowOrder) with
      | .done h => .ok h
      | .overlapping h idx nextKOrderLength =>
        let h ← buddyPreAlloc fuel h baseAddr
          (Word.sub (Word.add (h idx).baseAddr nextKOrderLength) baseAddr)
        buddyPreAlloc fuel h (Word.add (h idx).baseAddr nextKOrderLength)
          (Word.sub (Word.add baseAddr length) (Word.add (h idx).baseAddr nextKOrderLength))

end AlmeidaOS.Kernel
