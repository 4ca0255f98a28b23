import Mathlib.Tactic.Ring
import AlmeidaOS.Kernel.Mm.Buddy
import AlmeidaOS.Laws.Lib.Math

/-!
# Where the buddy header keeps its slots

`slotAddr ref k i` is the address of the slot of the `i`-th block of order `k`. The navigation of
`buddy.c` computes exactly these addresses (`gotoLeftChild_eq`, `gotoRightChild_eq`,
`gotoParent_eq`, `gotoSibling_eq`), and no two slots share one (`slotAddr_inj`). So a header is a
marking of the dyadic blocks, written down: `Rep ref h t`. Each write of the C code changes one
block of the marking, and the laws below say which.
-/

namespace AlmeidaOS.Kernel

open Blocks (Mark Marking)

/-- A reference as `buddy_init` leaves it: the content region is `2 ^ max` bytes, the header holds
a slot for every block. -/
structure Sized (ref : BuddyRef) : Prop where
  min : ref.minPowOrder = 12
  le : 12 ≤ ref.maxPowOrder
  lt : ref.maxPowOrder < 64
  length : ref.contentMemReg.length = 2 ^ ref.maxPowOrder
  content : ref.contentMemReg.baseAddr + 2 ^ ref.maxPowOrder ≤ 2 ^ 64
  header : ref.headerMemReg.baseAddr + 16 * 2 ^ (ref.maxPowOrder - 11) ≤ 2 ^ 64

/-- The address of the slot of block `(k, i)`. -/
def slotAddr (ref : BuddyRef) (k i : Nat) : Nat :=
  ref.headerMemReg.baseAddr +
    16 * (2 ^ (ref.maxPowOrder - 11) - 2 ^ (ref.maxPowOrder - k + 1) + i)

/-- Block `(k, i)` is one of the region's blocks. -/
structure InTree (ref : BuddyRef) (k i : Nat) : Prop where
  low : 12 ≤ k
  high : k ≤ ref.maxPowOrder
  index : i < 2 ^ (ref.maxPowOrder - k)

theorem toUint8_of_lt {n : Nat} (small : n < 256) : toUint8 (n : Int) = n := by
  unfold toUint8
  omega

theorem toUint8_succ {k : Nat} (small : k < 255) : toUint8 ((k : Int) + 1) = k + 1 := by
  unfold toUint8
  omega

theorem toUint8_pred {k : Nat} (pos : 0 < k) (small : k < 256) : toUint8 ((k : Int) - 1) = k - 1 := by
  unfold toUint8
  omega

variable {ref : BuddyRef}

/-! ## The blocks -/

theorem InTree.left {k i : Nat} (h : InTree ref k i) (split : 12 < k) :
    InTree ref (k - 1) (2 * i) := by
  have := h.high
  have := h.index
  refine ⟨by omega, by omega, ?_⟩
  rw [show ref.maxPowOrder - (k - 1) = ref.maxPowOrder - k + 1 by omega, Nat.pow_succ]
  omega

theorem InTree.right {k i : Nat} (h : InTree ref k i) (split : 12 < k) :
    InTree ref (k - 1) (2 * i + 1) := by
  have := h.high
  have := h.index
  refine ⟨by omega, by omega, ?_⟩
  rw [show ref.maxPowOrder - (k - 1) = ref.maxPowOrder - k + 1 by omega, Nat.pow_succ]
  omega

theorem InTree.parent {k i : Nat} (h : InTree ref k i) (below : k < ref.maxPowOrder) :
    InTree ref (k + 1) (i / 2) := by
  have := h.low
  have index := h.index
  refine ⟨by omega, below, ?_⟩
  rw [show ref.maxPowOrder - k = ref.maxPowOrder - (k + 1) + 1 by omega, Nat.pow_succ] at index
  omega

theorem InTree.root (sized : Sized ref) : InTree ref ref.maxPowOrder 0 :=
  ⟨sized.le, Nat.le_refl _, Nat.two_pow_pos _⟩

/-- The slots of one order fill their stretch of the header, which ends where the next begins. -/
theorem InTree.bounds {k i : Nat} (h : InTree ref k i) :
    2 ^ (ref.maxPowOrder - k + 1) ≤ 2 ^ (ref.maxPowOrder - 11) ∧
      2 ^ (ref.maxPowOrder - 11) - 2 ^ (ref.maxPowOrder - k + 1) + i <
        2 ^ (ref.maxPowOrder - 11) - 2 ^ (ref.maxPowOrder - k) := by
  have low := h.low
  have high := h.high
  have index := h.index
  have mono : 2 ^ (ref.maxPowOrder - k + 1) ≤ 2 ^ (ref.maxPowOrder - 11) :=
    Nat.pow_le_pow_right (by decide) (by omega)
  refine ⟨mono, ?_⟩
  rw [Nat.pow_succ] at mono ⊢
  omega

/-- A block ends inside the content region. -/
theorem InTree.end_le {k i : Nat} (h : InTree ref k i) :
    i * 2 ^ k + 2 ^ k ≤ 2 ^ ref.maxPowOrder := by
  have high := h.high
  have index := h.index
  calc i * 2 ^ k + 2 ^ k = (i + 1) * 2 ^ k := by rw [Nat.succ_mul]
    _ ≤ 2 ^ (ref.maxPowOrder - k) * 2 ^ k := Nat.mul_le_mul_right _ index
    _ = 2 ^ ref.maxPowOrder := by rw [← Nat.pow_add, Nat.sub_add_cancel high]

theorem slotAddr_lt (sized : Sized ref) {k i : Nat} (h : InTree ref k i) :
    slotAddr ref k i + 16 ≤ ref.headerMemReg.baseAddr + 16 * 2 ^ (ref.maxPowOrder - 11) := by
  have := h.bounds
  have := sized.header
  unfold slotAddr
  omega

/-- Distinct blocks have distinct slots. -/
theorem slotAddr_inj {k i k' i' : Nat} (h : InTree ref k i) (h' : InTree ref k' i')
    (same : slotAddr ref k i = slotAddr ref k' i') : k = k' ∧ i = i' := by
  have stretch : ∀ {k i k' i' : Nat}, InTree ref k i → InTree ref k' i' → k < k' →
      slotAddr ref k i < slotAddr ref k' i' := by
    intro k i k' i' h h' lt
    have bound := h.bounds
    have bound' := h'.bounds
    have := h'.high
    have mono : 2 ^ (ref.maxPowOrder - k' + 1) ≤ 2 ^ (ref.maxPowOrder - k) :=
      Nat.pow_le_pow_right (by decide) (by omega)
    unfold slotAddr
    omega
  rcases Nat.lt_trichotomy k k' with lt | rfl | gt
  · have := stretch h h' lt
    omega
  · unfold slotAddr at same
    exact ⟨rfl, by omega⟩
  · have := stretch h' h gt
    omega

/-! ## The navigation -/

section Goto

variable (sized : Sized ref) {k i : Nat}

include sized

theorem gotoPorderIdx_eq (low : 12 ≤ k) (high : k ≤ ref.maxPowOrder) :
    gotoPorderIdx ref k = slotAddr ref k 0 := by
  have lt := sized.lt
  have le := sized.le
  have header := sized.header
  have bound := (show InTree ref k 0 from ⟨low, high, Nat.two_pow_pos _⟩).bounds.1
  have word : 2 ^ (ref.maxPowOrder - 11) ≤ 2 ^ 52 := Nat.pow_le_pow_right (by decide) (by omega)
  have pos := Nat.two_pow_pos (ref.maxPowOrder - k)
  have exp1 : ((ref.maxPowOrder : Int) - ((12 : Nat) - 1)) = ((ref.maxPowOrder - 11 : Nat) : Int) := by
    omega
  have exp2 : ((ref.maxPowOrder : Int) - k + 1) = ((ref.maxPowOrder - k + 1 : Nat) : Int) := by
    omega
  unfold gotoPorderIdx slotAddr
  simp only [sized.min, exp1, exp2, sizeofBuddySlot]
  rw [Word.ofInt_natCast (by omega), Word.ofInt_natCast (by omega), upow_two (by omega),
    upow_two (by omega), Word.sub_of_le (by omega) bound]
  unfold Word.mul
  rw [Nat.mod_eq_of_lt (by omega), Word.add_of_lt (by omega)]
  omega

theorem slotPtrAdd_eq {n : Nat} (next : InTree ref k (i + n)) :
    slotPtrAdd (slotAddr ref k i) n = slotAddr ref k (i + n) := by
  have bound := slotAddr_lt sized next
  have header := sized.header
  have word : 2 ^ (ref.maxPowOrder - 11) ≤ 2 ^ 52 :=
    Nat.pow_le_pow_right (by decide) (by have := sized.lt; omega)
  have := next.bounds
  have step : slotAddr ref k (i + n) = slotAddr ref k i + n * 16 := by
    unfold slotAddr
    omega
  unfold slotPtrAdd Word.mul sizeofBuddySlot
  rw [Nat.mod_eq_of_lt (by omega), Word.add_of_lt (by omega), step]

theorem arrPos_eq {h : Header} (at_ : InTree ref k i) (order : (h (slotAddr ref k i)).powOrder = k) :
    arrPos ref h (slotAddr ref k i) = i := by
  have bound := slotAddr_lt sized at_
  have header := sized.header
  unfold arrPos
  have first : slotAddr ref k i = slotAddr ref k 0 + 16 * i := by
    unfold slotAddr
    omega
  rw [order, gotoPorderIdx_eq sized at_.low at_.high, Word.sub_of_le (by omega) (by omega), first,
    Nat.add_sub_cancel_left]
  exact Nat.mul_div_cancel_left i (by decide)

theorem gotoLeftChild_eq {h : Header} (at_ : InTree ref k i) (split : 12 < k)
    (order : (h (slotAddr ref k i)).powOrder = k) :
    gotoLeftChild ref h (slotAddr ref k i) = slotAddr ref (k - 1) (2 * i) := by
  have left := at_.left split
  have high := at_.high
  have lt := sized.lt
  have word : 2 ^ (ref.maxPowOrder - (k - 1)) ≤ 2 ^ 52 :=
    Nat.pow_le_pow_right (by decide) (by omega)
  have small := left.index
  have double : Word.mul i 2 = 2 * i := by
    unfold Word.mul
    omega
  unfold gotoLeftChild
  rw [arrPos_eq sized at_ order, order, toUint8_pred (by omega) (by omega), gotoPorderIdx_eq sized left.low left.high, double]
  have := slotPtrAdd_eq sized (i := 0) (n := 2 * i) (by rwa [Nat.zero_add])
  rwa [Nat.zero_add] at this

theorem gotoRightChild_eq {h : Header} (at_ : InTree ref k i) (split : 12 < k)
    (order : (h (slotAddr ref k i)).powOrder = k) :
    gotoRightChild ref h (slotAddr ref k i) = slotAddr ref (k - 1) (2 * i + 1) := by
  have left := gotoLeftChild_eq sized at_ split order
  unfold gotoLeftChild at left
  unfold gotoRightChild
  rw [left]
  exact slotPtrAdd_eq sized (at_.right split)

theorem gotoParent_eq {h : Header} (at_ : InTree ref k i) (below : k < ref.maxPowOrder)
    (order : (h (slotAddr ref k i)).powOrder = k) :
    gotoParent ref h (slotAddr ref k i) = slotAddr ref (k + 1) (i / 2) := by
  have parent := at_.parent below
  have lt := sized.lt
  unfold gotoParent
  rw [arrPos_eq sized at_ order, order, toUint8_succ (by omega), gotoPorderIdx_eq sized parent.low parent.high]
  have := slotPtrAdd_eq sized (i := 0) (n := i / 2) (by rwa [Nat.zero_add])
  rwa [Nat.zero_add] at this

theorem gotoSibling_eq {h : Header} (at_ : InTree ref k i) (below : k < ref.maxPowOrder)
    (order : (h (slotAddr ref k i)).powOrder = k) :
    gotoSibling ref h (slotAddr ref k i) =
      slotAddr ref k (if i % 2 = 0 then i + 1 else i - 1) := by
  have bound := slotAddr_lt sized at_
  have header := sized.header
  unfold gotoSibling sizeofBuddySlot
  rw [arrPos_eq sized at_ order]
  split
  · next even =>
    have next : InTree ref k (i + 1) := by
      refine ⟨at_.low, at_.high, ?_⟩
      have index := at_.index
      rw [show ref.maxPowOrder - k = ref.maxPowOrder - k - 1 + 1 by omega, Nat.pow_succ] at index ⊢
      omega
    have := slotAddr_lt sized next
    rw [Word.add_of_lt]
    · unfold slotAddr
      omega
    · unfold slotAddr at this ⊢
      omega
  · next odd =>
    rw [Word.sub_of_le (by omega)]
    · unfold slotAddr
      omega
    · unfold slotAddr
      omega

theorem nOfEntries_eq (high : k ≤ ref.maxPowOrder) :
    nOfEntries ref k = 2 ^ (ref.maxPowOrder - k) := by
  have lt := sized.lt
  unfold nOfEntries
  rw [upow_two lt, upow_two (by omega), Nat.pow_div high (by decide)]

end Goto

/-! ## Headers as markings -/

/-- The slot a block's mark is written down as. -/
def encode (ref : BuddyRef) (k i : Nat) : Option Mark → BuddySlot
  | none => .zero
  | some m => ⟨ref.contentMemReg.baseAddr + i * 2 ^ k, k, m⟩

/-- The address of the one slot of the header no block uses, the last. -/
def spareAddr (ref : BuddyRef) : Nat :=
  ref.headerMemReg.baseAddr + 16 * (2 ^ (ref.maxPowOrder - 11) - 1)

theorem slotAddr_lt_spareAddr {k i : Nat} (h : InTree ref k i) : slotAddr ref k i < spareAddr ref := by
  have := h.bounds
  have := Nat.two_pow_pos (ref.maxPowOrder - k)
  unfold slotAddr spareAddr
  omega

/-- The header writes down the marking. -/
structure Rep (ref : BuddyRef) (h : Header) (t : Marking) : Prop where
  at_slot : ∀ k i, InTree ref k i → h (slotAddr ref k i) = encode ref k i (t k i)
  spare : h (spareAddr ref) = .zero

section Write

variable {h : Header} {t : Marking} (rep : Rep ref h t) {k i : Nat} (at_ : InTree ref k i)

include rep at_

theorem Rep.write (v : Option Mark) :
    Rep ref (h.write (slotAddr ref k i) (encode ref k i v)) (t.set k i v) := by
  refine ⟨fun k' i' at' => ?_, ?_⟩
  rotate_left
  · have below := slotAddr_lt_spareAddr at_
    show (if spareAddr ref = slotAddr ref k i then _ else _) = _
    rw [if_neg (by omega)]
    exact rep.spare
  unfold Header.write Marking.set
  by_cases here : k' = k ∧ i' = i
  · obtain ⟨rfl, rfl⟩ := here
    rw [if_pos ⟨rfl, rfl⟩]
    exact if_pos rfl
  · rw [if_neg here]
    have apart : slotAddr ref k' i' ≠ slotAddr ref k i := fun same => here (slotAddr_inj at' at_ same)
    show (if slotAddr ref k' i' = slotAddr ref k i then _ else _) = _
    rw [if_neg apart]
    exact rep.at_slot k' i' at'

theorem Rep.slot {m : Mark} (there : t k i = some m) :
    h (slotAddr ref k i) = ⟨ref.contentMemReg.baseAddr + i * 2 ^ k, k, m⟩ := by
  rw [rep.at_slot k i at_, there]
  rfl

theorem Rep.setType {m : Mark} (there : t k i = some m) (m' : Mark) :
    Rep ref (h.setType (slotAddr ref k i) m') (t.set k i (some m')) := by
  unfold Header.setType
  rw [rep.slot at_ there]
  exact rep.write at_ (some m')

end Write

/-- Two markings one header writes down agree on every block. -/
theorem Rep.unique {h : Header} {t t' : Marking} (rep : Rep ref h t) (rep' : Rep ref h t') {k i : Nat}
    (at_ : InTree ref k i) : t k i = t' k i := by
  have low := at_.low
  have same := (rep.at_slot k i at_).symm.trans (rep'.at_slot k i at_)
  cases ht : t k i with
  | none =>
    cases ht' : t' k i with
    | none => rfl
    | some m' =>
      rw [ht, ht'] at same
      have order := congrArg BuddySlot.powOrder same
      change 0 = k at order
      omega
  | some m =>
    cases ht' : t' k i with
    | none =>
      rw [ht, ht'] at same
      have order := congrArg BuddySlot.powOrder same
      change k = 0 at order
      omega
    | some m' =>
      rw [ht, ht'] at same
      have type := congrArg BuddySlot.type same
      exact congrArg some type

/-- A marking that agrees block by block is written down by the same header. -/
theorem Rep.congr {h : Header} {t t' : Marking} (rep : Rep ref h t)
    (same : ∀ k i, InTree ref k i → t k i = t' k i) : Rep ref h t' := by
  refine ⟨fun k i at_ => ?_, rep.spare⟩
  rw [rep.at_slot k i at_, same k i at_]

section Split

variable (sized : Sized ref) {h : Header} {t : Marking} (rep : Rep ref h t) {k i : Nat}
  (at_ : InTree ref k i)

include sized rep at_

/-- Splitting a slot is cutting its block. -/
theorem Rep.splitAndInsert {m : Mark} (split : 12 < k) (there : t k i = some m) :
    Rep ref (Kernel.splitAndInsert ref h (slotAddr ref k i)) (t.cut k i) := by
  have left := at_.left split
  have right := at_.right split
  have high := at_.high
  have lt := sized.lt
  have content := sized.content
  have end_ := at_.end_le
  have half : 2 ^ k = 2 ^ (k - 1) + 2 ^ (k - 1) := by
    rw [← Nat.two_mul, ← Nat.pow_succ', show (k - 1).succ = k by omega]
  have slot := rep.slot at_ there
  have down : toUint8 ((k - 1 : Nat) : Int) = k - 1 := toUint8_of_lt (by omega)
  have exp : ((k : Int) - 1) = ((k - 1 : Nat) : Int) := by omega
  have pos := Nat.two_pow_pos (k - 1)
  have rightBase : Word.add (ref.contentMemReg.baseAddr + i * 2 ^ k) (2 ^ (k - 1)) =
      ref.contentMemReg.baseAddr + (2 * i + 1) * 2 ^ (k - 1) := by
    rw [Word.add_of_lt (by omega), half]
    ring
  have leftBase : ref.contentMemReg.baseAddr + i * 2 ^ k =
      ref.contentMemReg.baseAddr + 2 * i * 2 ^ (k - 1) := by
    rw [half]
    ring
  -- the left half goes to the left child, its base being the parent's
  have step1 : insertChildSlot ref h (slotAddr ref k i)
      ⟨ref.contentMemReg.baseAddr + i * 2 ^ k, k - 1, .unused⟩ =
      h.write (slotAddr ref (k - 1) (2 * i)) (encode ref (k - 1) (2 * i) (some .unused)) := by
    unfold insertChildSlot
    rw [slot, if_pos rfl, gotoLeftChild_eq sized at_ split (by rw [slot]), leftBase]
    rfl
  have rep1 := rep.write left (some .unused)
  have there1 : (t.set (k - 1) (2 * i) (some .unused)) k i = some m := by
    rw [Marking.set_of_ne _ (.inl (by omega)), there]
  have slot1 := rep1.slot at_ there1
  -- the right half has another base and goes to the right child
  have step2 : insertChildSlot ref
      (h.write (slotAddr ref (k - 1) (2 * i)) (encode ref (k - 1) (2 * i) (some .unused)))
      (slotAddr ref k i)
      ⟨ref.contentMemReg.baseAddr + (2 * i + 1) * 2 ^ (k - 1), k - 1, .unused⟩ =
      (h.write (slotAddr ref (k - 1) (2 * i)) (encode ref (k - 1) (2 * i) (some .unused))).write
        (slotAddr ref (k - 1) (2 * i + 1)) (encode ref (k - 1) (2 * i + 1) (some .unused)) := by
    unfold insertChildSlot
    have apart : ref.contentMemReg.baseAddr + i * 2 ^ k ≠
        ref.contentMemReg.baseAddr + (2 * i + 1) * 2 ^ (k - 1) := by
      have odd : (2 * i + 1) * 2 ^ (k - 1) = 2 * i * 2 ^ (k - 1) + 2 ^ (k - 1) := Nat.succ_mul _ _
      omega
    rw [slot1, if_neg apart, gotoRightChild_eq sized at_ split (by rw [slot1])]
    rfl
  have rep2 := rep1.write right (some .unused)
  have there2 : ((t.set (k - 1) (2 * i) (some .unused)).set (k - 1) (2 * i + 1)
      (some .unused)) k i = some m := by
    rw [Marking.set_of_ne _ (.inl (by omega)), there1]
  have rep3 := rep2.setType at_ there2 .split
  unfold Kernel.splitAndInsert
  rw [slot]
  simp only [exp, down]
  rw [Word.ofInt_natCast (by omega), upow_two (by omega), rightBase, step1, step2]
  refine rep3.congr fun k' i' _ => ?_
  unfold Marking.cut Marking.set
  split_ifs <;> first | rfl | omega

end Split

/-! ## Finding a free slot -/

section Find

variable (sized : Sized ref) {h : Header} {t : Marking} (rep : Rep ref h t) {k : Nat}
  (low : 12 ≤ k) (high : k ≤ ref.maxPowOrder)

include sized rep low high

private theorem free_iff {i : Nat} (at_ : InTree ref k i) :
    (!isEntryEmpty (h (slotPtrAdd (gotoPorderIdx ref k) i)) &&
      (h (slotPtrAdd (gotoPorderIdx ref k) i)).type = .unused) = true ↔ t k i = some .unused := by
  have place : slotPtrAdd (gotoPorderIdx ref k) i = slotAddr ref k i := by
    have := slotPtrAdd_eq sized (i := 0) (n := i) (by rwa [Nat.zero_add])
    rwa [Nat.zero_add, ← gotoPorderIdx_eq sized low high] at this
  rw [place, rep.at_slot k i at_]
  cases there : t k i with
  | none => simp [encode, BuddySlot.zero, isEntryEmpty]
  | some m =>
    have order : k ≠ 0 := by omega
    simp only [encode, isEntryEmpty, order, decide_false, Bool.and_false, Bool.not_false,
      Bool.true_and, Option.some.injEq]
    exact decide_eq_true_iff

/-- What `find_free_slot` finds is an unused block. -/
theorem findFreeSlot_some {idx : Nat} (found : findFreeSlot ref h k = some idx) :
    ∃ i, InTree ref k i ∧ idx = slotAddr ref k i ∧ t k i = some .unused := by
  unfold findFreeSlot at found
  obtain ⟨i, search, rfl⟩ := Option.map_eq_some_iff.mp found
  have range := List.mem_range.mp (List.mem_of_find?_eq_some search)
  rw [nOfEntries_eq sized high] at range
  have at_ : InTree ref k i := ⟨low, high, range⟩
  have hit := List.find?_some search
  refine ⟨i, at_, ?_, (free_iff sized rep low high at_).mp hit⟩
  have := slotPtrAdd_eq sized (i := 0) (n := i) (by rwa [Nat.zero_add])
  rwa [Nat.zero_add, ← gotoPorderIdx_eq sized low high] at this

/-- Where `find_free_slot` finds nothing, the order has no unused block. -/
theorem findFreeSlot_none (none : findFreeSlot ref h k = none) {i : Nat} (at_ : InTree ref k i) :
    t k i ≠ some .unused := by
  intro free
  unfold findFreeSlot at none
  rw [Option.map_eq_none_iff, List.find?_eq_none] at none
  refine none i (List.mem_range.mpr ?_) ((free_iff sized rep low high at_).mpr free)
  rw [nOfEntries_eq sized high]
  exact at_.index

end Find

end AlmeidaOS.Kernel
