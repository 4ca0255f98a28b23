import AlmeidaOS.Laws.Mm.BuddyAlloc

/-!
# The buddy header is a tree, wherever it lies

`BuddyLayout` has the slots of a header that ends inside the address space. The navigation of `buddy.c`
adds and subtracts multiples of the size of a slot and nothing else, so a header at any address is the
one at address 0, moved (`gotoParent_moved` and its siblings). From there the laws of `BuddyLayout`
carry over: `buddy_header_tree`.
-/

namespace AlmeidaOS.Kernel

/-! ## A header moved to address 0 -/

/-- The reference with its header at address 0, and some content region of the size. -/
def BuddyRef.atZero (ref : BuddyRef) : BuddyRef where
  headerMemReg := { ref.headerMemReg with baseAddr := 0 }
  contentMemReg := ⟨0, 2 ^ ref.maxPowOrder, 0⟩
  maxPowOrder := ref.maxPowOrder
  minPowOrder := ref.minPowOrder

/-- The slots from `base` on, at address 0. -/
def Header.movedFrom (h : Header) (base : Nat) : Header := ⟨fun a => h (Word.add base a)⟩

theorem slotPtrAdd_moved (base ptr n : Nat) :
    slotPtrAdd (Word.add base ptr) n = Word.add base (slotPtrAdd ptr n) :=
  Word.add_assoc base ptr _

section Moved

variable (ref : BuddyRef) (h : Header) (a : Nat)

theorem gotoPorderIdx_moved (k : Nat) :
    gotoPorderIdx ref k = Word.add ref.headerMemReg.baseAddr (gotoPorderIdx ref.atZero k) := by
  unfold gotoPorderIdx
  rw [← Word.add_assoc]
  unfold Word.add BuddyRef.atZero
  dsimp only
  rw [Nat.add_zero, Nat.mod_add_mod]

theorem arrPos_moved : arrPos ref h (Word.add ref.headerMemReg.baseAddr a) =
    arrPos ref.atZero (h.movedFrom ref.headerMemReg.baseAddr) a := by
  unfold arrPos
  rw [gotoPorderIdx_moved, Word.sub_add_add]
  rfl

theorem gotoParent_moved : gotoParent ref h (Word.add ref.headerMemReg.baseAddr a) =
    Word.add ref.headerMemReg.baseAddr (gotoParent ref.atZero (h.movedFrom ref.headerMemReg.baseAddr) a) := by
  unfold gotoParent
  rw [arrPos_moved, gotoPorderIdx_moved, slotPtrAdd_moved]
  rfl

theorem gotoLeftChild_moved : gotoLeftChild ref h (Word.add ref.headerMemReg.baseAddr a) =
    Word.add ref.headerMemReg.baseAddr (gotoLeftChild ref.atZero (h.movedFrom ref.headerMemReg.baseAddr) a) := by
  unfold gotoLeftChild
  rw [arrPos_moved, gotoPorderIdx_moved, slotPtrAdd_moved]
  rfl

theorem gotoRightChild_moved : gotoRightChild ref h (Word.add ref.headerMemReg.baseAddr a) =
    Word.add ref.headerMemReg.baseAddr (gotoRightChild ref.atZero (h.movedFrom ref.headerMemReg.baseAddr) a) := by
  unfold gotoRightChild
  rw [arrPos_moved, gotoPorderIdx_moved, slotPtrAdd_moved, slotPtrAdd_moved]
  rfl

theorem gotoSibling_moved : gotoSibling ref h (Word.add ref.headerMemReg.baseAddr a) =
    Word.add ref.headerMemReg.baseAddr (gotoSibling ref.atZero (h.movedFrom ref.headerMemReg.baseAddr) a) := by
  unfold gotoSibling
  rw [arrPos_moved]
  split
  · rw [Word.add_assoc]
  · rw [Word.sub_add]

end Moved

/-! ## The slots of any header -/

/-- The slot of order `k` at position `i`: `(buddy_slot_t*) goto_porder_idx(ref, k) + i`. -/
def slotAt (ref : BuddyRef) (k i : Nat) : Nat := slotPtrAdd (gotoPorderIdx ref k) i

/-- The index of a slot in the header. -/
def slotIndex (ref : BuddyRef) (addr : Nat) : Nat :=
  Word.sub addr ref.headerMemReg.baseAddr / sizeofBuddySlot

/-- The address is one of the slots the header has room for. -/
def InHeader (ref : BuddyRef) (addr : Nat) : Prop :=
  slotIndex ref addr < 2 ^ (ref.maxPowOrder - 12 + 1) ∧
    addr = slotPtrAdd ref.headerMemReg.baseAddr (slotIndex ref addr)

/-- The header is the array form of a binary tree: room for all slots, no two of them at one index, and
the navigation between slots that store their own order goes to the slots it is named after. The root
has no sibling; `goto_sibling` gives the last slot of the header for it, which no block uses. -/
structure HeaderTree (ref : BuddyRef) : Prop where
  space : buddyCalcHeaderSpace (2 ^ ref.maxPowOrder) = .ok (2 ^ (ref.maxPowOrder - 12 + 1) * sizeofBuddySlot)
  inside : ∀ {k i}, InTree ref k i → InHeader ref (slotAt ref k i)
  distinct : ∀ {k i k' i'}, InTree ref k i → InTree ref k' i' →
    slotIndex ref (slotAt ref k i) = slotIndex ref (slotAt ref k' i') → k = k' ∧ i = i'
  children : ∀ {h : Header} {k i}, InTree ref k i → 12 < k → (h (slotAt ref k i)).powOrder = k →
    (InTree ref (k - 1) (2 * i) ∧ gotoLeftChild ref h (slotAt ref k i) = slotAt ref (k - 1) (2 * i)) ∧
    (InTree ref (k - 1) (2 * i + 1) ∧ gotoRightChild ref h (slotAt ref k i) = slotAt ref (k - 1) (2 * i + 1))
  parent : ∀ {h : Header} {k i}, InTree ref k i → 12 < k →
    ((h (slotAt ref (k - 1) (2 * i))).powOrder = k - 1 →
      gotoParent ref h (slotAt ref (k - 1) (2 * i)) = slotAt ref k i) ∧
    ((h (slotAt ref (k - 1) (2 * i + 1))).powOrder = k - 1 →
      gotoParent ref h (slotAt ref (k - 1) (2 * i + 1)) = slotAt ref k i)
  sibling : ∀ {h : Header} {k i}, InTree ref k i → 12 < k →
    ((h (slotAt ref (k - 1) (2 * i))).powOrder = k - 1 →
      gotoSibling ref h (slotAt ref (k - 1) (2 * i)) = slotAt ref (k - 1) (2 * i + 1)) ∧
    ((h (slotAt ref (k - 1) (2 * i + 1))).powOrder = k - 1 →
      gotoSibling ref h (slotAt ref (k - 1) (2 * i + 1)) = slotAt ref (k - 1) (2 * i))
  root : ∀ {h : Header}, (h (slotAt ref ref.maxPowOrder 0)).powOrder = ref.maxPowOrder →
    InHeader ref (gotoSibling ref h (slotAt ref ref.maxPowOrder 0))

theorem slotAddr_atZero (ref : BuddyRef) (k i : Nat) : slotAddr ref.atZero k i =
    16 * (2 ^ (ref.maxPowOrder - 11) - 2 ^ (ref.maxPowOrder - k + 1) + i) := Nat.zero_add _

section Tree

variable {ref : BuddyRef} (min : ref.minPowOrder = 12) (low : 12 ≤ ref.maxPowOrder) (high : ref.maxPowOrder ≤ 63)

include min low high

theorem sized_atZero : Sized ref.atZero where
  min := min
  le := low
  lt := Nat.lt_succ_of_le high
  length := rfl
  content := by
    have : 2 ^ ref.maxPowOrder ≤ 2 ^ 63 := Nat.pow_le_pow_right (by decide) high
    show 0 + 2 ^ ref.maxPowOrder ≤ 2 ^ 64
    omega
  header := by
    have : 2 ^ (ref.maxPowOrder - 11) ≤ 2 ^ 52 := Nat.pow_le_pow_right (by decide) (by omega)
    show 0 + 16 * 2 ^ (ref.maxPowOrder - 11) ≤ 2 ^ 64
    omega

theorem slotAt_moved {k i : Nat} (at_ : InTree ref k i) :
    slotAt ref k i = Word.add ref.headerMemReg.baseAddr (slotAddr ref.atZero k i) := by
  have sized := sized_atZero min low high
  have first := slotPtrAdd_eq sized (k := k) (i := 0) (n := i) ⟨at_.low, at_.high, by rw [Nat.zero_add]; exact at_.index⟩
  rw [Nat.zero_add] at first
  rw [slotAt, gotoPorderIdx_moved, slotPtrAdd_moved, gotoPorderIdx_eq sized at_.low at_.high, first]

omit min low in
/-- The slots behind the header's address are numbered from 0. -/
theorem slotIndex_add {n : Nat} (below : n < 2 ^ (ref.maxPowOrder - 11)) :
    slotIndex ref (Word.add ref.headerMemReg.baseAddr (16 * n)) = n := by
  have : 2 ^ (ref.maxPowOrder - 11) ≤ 2 ^ 52 := Nat.pow_le_pow_right (by decide) (by omega)
  have offset : Word.sub (Word.add ref.headerMemReg.baseAddr (16 * n)) ref.headerMemReg.baseAddr = 16 * n := by
    unfold Word.sub Word.add
    omega
  rw [slotIndex, offset, sizeofBuddySlot, Nat.mul_div_cancel_left _ (by decide)]

omit min in
theorem inHeader_add {n : Nat} (below : n < 2 ^ (ref.maxPowOrder - 11)) :
    InHeader ref (Word.add ref.headerMemReg.baseAddr (16 * n)) := by
  have : 2 ^ (ref.maxPowOrder - 11) ≤ 2 ^ 52 := Nat.pow_le_pow_right (by decide) (by omega)
  rw [InHeader, slotIndex_add high below, show ref.maxPowOrder - 12 + 1 = ref.maxPowOrder - 11 by omega]
  refine ⟨below, ?_⟩
  rw [slotPtrAdd, sizeofBuddySlot, Word.mul, Nat.mod_eq_of_lt (by omega), Nat.mul_comm]

/-- A slot that stores its order still does when the header is moved. -/
theorem powOrder_moved {h : Header} {k i : Nat} (at_ : InTree ref k i) {order : Nat}
    (stored : (h (slotAt ref k i)).powOrder = order) :
    (h.movedFrom ref.headerMemReg.baseAddr (slotAddr ref.atZero k i)).powOrder = order := by
  rwa [slotAt_moved min low high at_] at stored

theorem gotoParent_slotAt {h : Header} {k i : Nat} (at_ : InTree ref k i) (below : k < ref.maxPowOrder)
    (stored : (h (slotAt ref k i)).powOrder = k) :
    gotoParent ref h (slotAt ref k i) = slotAt ref (k + 1) (i / 2) := by
  have moved := powOrder_moved min low high at_ stored
  rw [slotAt_moved min low high at_, gotoParent_moved,
    gotoParent_eq (sized_atZero min low high) ⟨at_.low, at_.high, at_.index⟩ below moved,
    slotAt_moved min low high (at_.parent below)]

theorem gotoSibling_slotAt {h : Header} {k i : Nat} (at_ : InTree ref k i) (below : k < ref.maxPowOrder)
    (stored : (h (slotAt ref k i)).powOrder = k) {j : Nat} (other : InTree ref k j)
    (beside : (if i % 2 = 0 then i + 1 else i - 1) = j) :
    gotoSibling ref h (slotAt ref k i) = slotAt ref k j := by
  have moved := powOrder_moved min low high at_ stored
  rw [slotAt_moved min low high at_, gotoSibling_moved,
    gotoSibling_eq (sized_atZero min low high) ⟨at_.low, at_.high, at_.index⟩ below moved, beside,
    slotAt_moved min low high other]

/-- The root is the last slot but one. -/
theorem gotoSibling_root {h : Header} (stored : (h (slotAt ref ref.maxPowOrder 0)).powOrder = ref.maxPowOrder) :
    gotoSibling ref h (slotAt ref ref.maxPowOrder 0) =
      Word.add ref.headerMemReg.baseAddr (16 * (2 ^ (ref.maxPowOrder - 11) - 1)) := by
  have sized := sized_atZero min low high
  have root : InTree ref ref.maxPowOrder 0 := ⟨low, Nat.le_refl _, Nat.two_pow_pos _⟩
  have moved := powOrder_moved min low high root stored
  have two : 2 ^ 1 ≤ 2 ^ (ref.maxPowOrder - 11) := Nat.pow_le_pow_right (by decide) (by omega)
  have : 2 ^ (ref.maxPowOrder - 11) ≤ 2 ^ 52 := Nat.pow_le_pow_right (by decide) (by omega)
  have next : Word.add (slotAddr ref.atZero ref.maxPowOrder 0) 16 = 16 * (2 ^ (ref.maxPowOrder - 11) - 1) := by
    rw [slotAddr_atZero, Nat.sub_self, Word.add_of_lt (by omega)]
    omega
  rw [slotAt_moved min low high root, gotoSibling_moved, gotoSibling,
    arrPos_eq sized ⟨low, Nat.le_refl _, Nat.two_pow_pos _⟩ moved, if_pos rfl, sizeofBuddySlot, next]

/-- **The header is laid out as a tree and the navigation keeps to it**, for every order of the region and
every address of the header. -/
theorem buddy_header_tree : HeaderTree ref where
  space := by
    rw [buddyCalcHeaderSpace_eq low (Nat.lt_succ_of_le high), sizeofBuddySlot, Nat.mul_comm,
      show ref.maxPowOrder - 12 + 1 = ref.maxPowOrder - 11 by omega]
  inside := fun {k i} at_ => by
    have := at_.bounds
    rw [slotAt_moved min low high at_, slotAddr_atZero]
    exact inHeader_add low high (by omega)
  distinct := fun {k i k' i'} at_ at' same => by
    have bounds := at_.bounds
    have bounds' := at'.bounds
    rw [slotAt_moved min low high at_, slotAt_moved min low high at', slotAddr_atZero, slotAddr_atZero,
      slotIndex_add high (by omega), slotIndex_add high (by omega)] at same
    refine slotAddr_inj at_ at' ?_
    rw [slotAddr, slotAddr, same]
  children := fun {h k i} at_ split stored => by
    have sized := sized_atZero min low high
    have moved := powOrder_moved min low high at_ stored
    refine ⟨⟨at_.left split, ?_⟩, at_.right split, ?_⟩
    · rw [slotAt_moved min low high at_, gotoLeftChild_moved,
        gotoLeftChild_eq sized ⟨at_.low, at_.high, at_.index⟩ split moved, slotAt_moved min low high (at_.left split)]
    · rw [slotAt_moved min low high at_, gotoRightChild_moved,
        gotoRightChild_eq sized ⟨at_.low, at_.high, at_.index⟩ split moved, slotAt_moved min low high (at_.right split)]
  parent := fun {h k i} at_ split => by
    have top := at_.high
    refine ⟨fun stored => ?_, fun stored => ?_⟩
    · rw [gotoParent_slotAt min low high (at_.left split) (by omega) stored]
      congr 1
      · omega
      · omega
    · rw [gotoParent_slotAt min low high (at_.right split) (by omega) stored]
      congr 1
      · omega
      · omega
  sibling := fun {h k i} at_ split => by
    have top := at_.high
    refine ⟨fun stored => ?_, fun stored => ?_⟩
    · exact gotoSibling_slotAt min low high (at_.left split) (by omega) stored (at_.right split) (if_pos (by omega))
    · exact gotoSibling_slotAt min low high (at_.right split) (by omega) stored (at_.left split) (if_neg (by omega))
  root := fun {h} stored => by
    have pos := Nat.two_pow_pos (ref.maxPowOrder - 11)
    rw [gotoSibling_root min low high stored]
    exact inHeader_add low high (by omega)

end Tree

/-- A header of four slots that wraps around the end of the address space. -/
theorem buddy_header_tree_wrapping :
    HeaderTree ⟨⟨2 ^ 64 - 32, 64, e820MemTypeReserved⟩, ⟨0x100000, 0x2000, e820MemTypeReserved⟩, 13, 12⟩ :=
  buddy_header_tree rfl (by decide) (by decide)

end AlmeidaOS.Kernel
