import AlmeidaOS.Base.BlockMoves
import AlmeidaOS.Laws.Mm.BuddyLayout

/-!
# One call of the buddy allocator

`Tidy ref h t` is the state of a header between calls: it writes down a well-formed, coalesced
marking. `buddyInit_tidy` says that `buddy_init` makes one, `buddyAlloc_spec` and
`buddyFree_spec` that the two calls go from one to another and change exactly one used block.
`buddy_alloc` is the library's search, `buddy_free` its merge.
-/

namespace AlmeidaOS.Kernel

open Blocks (Mark Marking)
open Blocks.Marking

/-- The header of an allocator that no call is running on. -/
structure Tidy (ref : BuddyRef) (h : Header) (t : Marking) : Prop where
  rep : Rep ref h t
  wf : WF 12 ref.maxPowOrder t
  coalesced : Coalesced 12 ref.maxPowOrder t

/-! ## `buddy_init` -/

/-- The marking of a fresh allocator: one free block. -/
def freshMarking (hi : Nat) : Marking := fun k i => if k = hi ∧ i = 0 then some .unused else none

theorem freshMarking_wf {lo hi : Nat} (le : lo ≤ hi) : WF lo hi (freshMarking hi) := by
  refine ⟨le, ⟨.unused, if_pos ⟨rfl, rfl⟩⟩, fun i hi' => if_neg fun h => hi' h.2, ?_, ?_⟩
  · intro k i low lt
    unfold freshMarking
    rw [if_neg (by omega)]
    split <;> simp
  · intro i
    unfold freshMarking
    split_ifs <;> simp

theorem freshMarking_coalesced {lo hi : Nat} : Coalesced lo hi (freshMarking hi) := by
  intro k i low high cut
  unfold freshMarking at cut
  split_ifs at cut
  cases cut

theorem freshMarking_used {hi k i : Nat} : freshMarking hi k i ≠ some .used := by
  unfold freshMarking
  split_ifs <;> simp

section Init

variable {m : Nat} {hMemReg cMemReg : MemMapRegion}

theorem buddyCalcHeaderSpace_eq (low : 12 ≤ m) (lt : m < 64) :
    buddyCalcHeaderSpace (2 ^ m) = .ok (16 * 2 ^ (m - 11)) := by
  have exp : ((m : Int) - (12 : Nat) + 1) = ((m - 11 : Nat) : Int) := by omega
  have word : 2 ^ (m - 11) ≤ 2 ^ 52 := Nat.pow_le_pow_right (by decide) (by omega)
  have smallest : ilog2 buddyAllocSmallestBlock = 12 := ilog2_two_pow (k := 12) (by decide)
  unfold buddyCalcHeaderSpace
  rw [bugOn_of_not (not_not_intro (flp2_two_pow lt).symm), smallest, ilog2_two_pow lt]
  simp only [ok_bind, pure_eq_ok, exp, sizeofBuddySlot, Word.mul]
  rw [Word.ofInt_natCast (by omega), upow_two (by omega), Nat.mod_eq_of_lt (by omega), Nat.mul_comm]

section Orders

variable (lt : m < 64) (length : cMemReg.length = 2 ^ m)

include lt length

/-- `buddy_init` on a content region of `2 ^ m` bytes: zero the header, write the root. -/
theorem buddyInit_eq (before : Header) : buddyInit before hMemReg cMemReg =
    .ok (⟨hMemReg, cMemReg, m, 12⟩, Header.write ⟨fun a =>
      if hMemReg.baseAddr ≤ a ∧ a < hMemReg.baseAddr + hMemReg.length then .zero else before a⟩
      (gotoPorderIdx ⟨hMemReg, cMemReg, m, 12⟩ m) ⟨cMemReg.baseAddr, m, .unused⟩) := by
  have smallest : toUint8 (ilog2 buddyAllocSmallestBlock) = 12 := by
    rw [show ilog2 buddyAllocSmallestBlock = 12 from ilog2_two_pow (k := 12) (by decide)]
    decide
  have largest : toUint8 (ilog2 cMemReg.length : Nat) = m := by
    rw [length, ilog2_two_pow lt, toUint8_of_lt (by omega)]
  unfold buddyInit
  rw [bugOn_of_not (by rw [length, flp2_two_pow lt]; simp)]
  simp only [ok_bind, pure_eq_ok, smallest, largest]

/-- `buddy_init` leaves one free block. -/
theorem buddyInit_tidy {before h : Header} {ref : BuddyRef} (low : 12 ≤ m)
    (header : hMemReg.length = 16 * 2 ^ (m - 11)) (sized : Sized ref)
    (init : buddyInit before hMemReg cMemReg = .ok (ref, h)) :
    Tidy ref h (freshMarking ref.maxPowOrder) := by
  rw [buddyInit_eq lt length] at init
  cases init
  rw [gotoPorderIdx_eq sized low (Nat.le_refl m)]
  -- memzero covers every slot
  have zeroed : Rep ⟨hMemReg, cMemReg, m, 12⟩ ⟨fun a =>
      if hMemReg.baseAddr ≤ a ∧ a < hMemReg.baseAddr + hMemReg.length then .zero else before a⟩
      (fun _ _ => none) := by
    have spare : spareAddr ⟨hMemReg, cMemReg, m, 12⟩ < hMemReg.baseAddr + hMemReg.length := by
      have := Nat.two_pow_pos (m - 11)
      change hMemReg.baseAddr + 16 * (2 ^ (m - 11) - 1) < _
      omega
    refine ⟨fun k i at_ => if_pos ⟨Nat.le_add_right _ _, ?_⟩, if_pos ⟨Nat.le_add_right _ _, spare⟩⟩
    have := slotAddr_lt_spareAddr at_
    omega
  have root := zeroed.write (InTree.root sized) (some .unused)
  refine ⟨?_, freshMarking_wf low, freshMarking_coalesced⟩
  rw [encode, Nat.zero_mul, Nat.add_zero] at root
  exact root

end Orders

end Init

variable {ref : BuddyRef}

/-! ## `buddy_alloc` -/

section Alloc

variable (sized : Sized ref)

include sized

/-- A request is served with the least order that holds it, the smallest being twelve. -/
theorem allocOrder_eq {bytes : Nat} (pos : bytes ≠ 0) (fits : bytes ≤ 2 ^ ref.maxPowOrder) :
    IsLeast {k | 12 ≤ k ∧ bytes ≤ 2 ^ k} (allocOrder ref bytes) ∧
      allocOrder ref bytes ≤ ref.maxPowOrder := by
  have lt := sized.lt
  have le := sized.le
  have word : 2 ^ ref.maxPowOrder ≤ 2 ^ 63 := Nat.pow_le_pow_right (by decide) (by omega)
  have log : Nat.clog 2 bytes ≤ ref.maxPowOrder := (Nat.clog_le_iff_le_pow (by decide)).mpr fits
  have order : toUint8 (ilog2 (clp2 bytes) : Nat) = Nat.clog 2 bytes := by
    rw [clp2_eq pos (by omega), ilog2_two_pow (by omega), toUint8_of_lt (by omega)]
  have reaches := Nat.le_pow_clog (b := 2) (by decide) bytes
  unfold allocOrder
  simp only [order, sized.min]
  split
  · next small =>
    refine ⟨⟨⟨Nat.le_refl _, Nat.le_trans reaches (Nat.pow_le_pow_right (by decide) (by omega))⟩,
      fun k hk => hk.1⟩, le⟩
  · next large =>
    exact ⟨⟨⟨by omega, reaches⟩, fun k hk => (Nat.clog_le_iff_le_pow (by decide)).mpr hk.2⟩, log⟩

/-- Where the search finds no slot of an order there is no free block of that order. -/
theorem no_unused_of_findFreeSlot {goal k : Nat} {h : Header} {t : Marking} (rep : Rep ref h t)
    (s : Search 12 ref.maxPowOrder goal k t) (found : findFreeSlot ref h k = none) : ∀ i, t k i ≠ some .unused := by
  have low := s.low
  have le := s.le
  intro i free
  exact findFreeSlot_none sized rep (by omega) s.high found
    ⟨by omega, s.high, s.wf.index_lt (by omega) s.high free⟩ free

/-- The loop of `buddy_alloc` is the library's search: what it returns is a block of the order it
looks for, free before and used after, and no other used block changes. -/
theorem buddyAllocLoop_spec {goal : Nat} {p : Nat} {h' : Header} :
    ∀ (fuel : Nat) {h : Header} {t : Marking} {k : Nat}, Rep ref h t →
      Search 12 ref.maxPowOrder goal k t →
      buddyAllocLoop ref goal fuel h k = .ok (p, h') →
      ∃ t' i, Tidy ref h' t' ∧ InTree ref goal i ∧ p = ref.contentMemReg.baseAddr + i * 2 ^ goal ∧
        t goal i ≠ some .used ∧
        ∀ j f, t' j f = some .used ↔ t j f = some .used ∨ j = goal ∧ f = i
  | 0, _, _, _, _, _, run => by cases run
  | fuel + 1, h, t, k, rep, s, run => by
    have lt := sized.lt
    have low := s.low
    have le := s.le
    have high := s.high
    rw [buddyAllocLoop] at run
    cases found : findFreeSlot ref h k with
    | none =>
      have none := no_unused_of_findFreeSlot sized rep s found
      rw [found] at run
      split_ifs at run with last
      rw [toUint8_succ (by omega)] at run
      exact buddyAllocLoop_spec fuel rep (s.up none (by omega)) run
    | some idx =>
      obtain ⟨i, at_, rfl, free⟩ := findFreeSlot_some sized rep (by omega) high found
      have slot := rep.slot at_ free
      rw [found] at run
      simp only [slot] at run
      split_ifs at run with above
      · rw [toUint8_pred (by omega) (by omega)] at run
        obtain ⟨t', i', tidy, at', rfl, before, used⟩ := buddyAllocLoop_spec fuel
          (rep.splitAndInsert sized at_ (by omega) free) (s.cut above free) run
        have same := s.wf.cut_used (by omega) high free
        exact ⟨t', i', tidy, at', rfl, fun h => before ((same _ _).mpr h),
          fun j f => (used j f).trans (by rw [same])⟩
      · obtain rfl : k = goal := by omega
        cases run
        refine ⟨t.set k i (some .used), i, ⟨rep.setType at_ free .used,
          s.wf.set_solid free (by decide) (by decide), s.take free⟩, at_, rfl, ?_,
          fun j f => set_used_iff j f⟩
        rw [free]
        simp

/-- `buddy_alloc` returns a block that was not used, of the least order that holds the request,
and makes that block used. -/
theorem buddyAlloc_spec {fuel bytes p : Nat} {h h' : Header} {t : Marking} (tidy : Tidy ref h t)
    (run : buddyAlloc ref fuel h bytes = .ok (p, h')) :
    ∃ t' k i, Tidy ref h' t' ∧ InTree ref k i ∧ IsLeast {k | 12 ≤ k ∧ bytes ≤ 2 ^ k} k ∧
      k = allocOrder ref bytes ∧ p = ref.contentMemReg.baseAddr + i * 2 ^ k ∧ t k i ≠ some .used ∧
      ∀ j f, t' j f = some .used ↔ t j f = some .used ∨ j = k ∧ f = i := by
  unfold buddyAlloc at run
  rw [bugOn_bind_eq_ok] at run
  obtain ⟨valid, run⟩ := run
  have fits : bytes ≤ 2 ^ ref.maxPowOrder := by
    have := sized.length
    omega
  obtain ⟨least, high⟩ := allocOrder_eq sized (by omega) fits
  obtain ⟨t', i, tidy', at_, base, before, used⟩ := buddyAllocLoop_spec sized fuel tidy.rep
    (Search.start tidy.wf tidy.coalesced least.1.1 high) run
  exact ⟨t', _, i, tidy', at_, least, rfl, base, before, used⟩

end Alloc

/-! ## `buddy_free` -/

section Free

variable (sized : Sized ref) {h : Header} {t : Marking}

theorem findSlotByAddrLoop_mono {ptr : Nat} {r : Option Nat} :
    ∀ {fuel more idx : Nat}, fuel ≤ more → findSlotByAddrLoop ref h ptr fuel idx = .ok r →
      findSlotByAddrLoop ref h ptr more idx = .ok r
  | 0, _, _, _, run => by cases run
  | fuel + 1, 0, _, le, _ => by omega
  | fuel + 1, more + 1, idx, le, run => by
    have ih : ∀ idx, findSlotByAddrLoop ref h ptr fuel idx = .ok r →
        findSlotByAddrLoop ref h ptr more idx = .ok r :=
      fun idx => findSlotByAddrLoop_mono (by omega)
    rw [findSlotByAddrLoop] at run ⊢
    by_cases order : (h idx).powOrder ≥ ref.minPowOrder
    · rw [if_pos order] at run ⊢
      cases type : (h idx).type with
      | unused => rw [type] at run; exact run
      | used => rw [type] at run; exact run
      | split =>
        rw [type] at run
        simp only at run ⊢
        split_ifs at run ⊢
        · exact ih _ run
        · exact ih _ run
    · rw [if_neg order] at run ⊢
      exact run

theorem mergeLoop_mono {h' : Header} :
    ∀ {fuel more : Nat} {h : Header} {idx : Nat}, fuel ≤ more → mergeLoop ref fuel h idx = .ok h' →
      mergeLoop ref more h idx = .ok h'
  | 0, _, _, _, _, run => by cases run
  | fuel + 1, 0, _, _, le, _ => by omega
  | fuel + 1, more + 1, h, idx, le, run => by
    rw [mergeLoop] at run ⊢
    simp only at run ⊢
    split_ifs at run ⊢
    · exact run
    · exact mergeLoop_mono (by omega) run
    · exact run

include sized

/-- The walk of `find_slot_by_addr` from the block of order `k` around a unit ends at the whole block
around it, which it answers with when that block is used. -/
theorem findSlotByAddrLoop_solid (rep : Rep ref h t) (wf : WF 12 ref.maxPowOrder t) {a j : Nat} {m : Mark}
    (inside : a < 2 ^ ref.maxPowOrder) (low : 12 ≤ j) (there : t j (a / 2 ^ j) = some m)
    (solid : m ≠ .split) :
    ∀ (d fuel : Nat), d < fuel → j + d ≤ ref.maxPowOrder →
      findSlotByAddrLoop ref h (ref.contentMemReg.baseAddr + a) fuel
        (slotAddr ref (j + d) (a / 2 ^ (j + d))) =
          .ok (if m = .used then some (slotAddr ref j (a / 2 ^ j)) else none) := by
  have at_ : ∀ k, j ≤ k → k ≤ ref.maxPowOrder → InTree ref k (a / 2 ^ k) := by
    intro k le high
    refine ⟨by omega, high, Nat.div_lt_of_lt_mul ?_⟩
    rw [← Nat.pow_add, Nat.add_sub_cancel' high]
    exact inside
  intro d
  induction d with
  | zero =>
    intro fuel lt high
    obtain ⟨fuel, rfl⟩ : ∃ n, fuel = n + 1 := ⟨fuel - 1, by omega⟩
    have slot := rep.slot (at_ j (Nat.le_refl _) high) there
    rw [findSlotByAddrLoop]
    simp only [Nat.add_zero, slot, sized.min]
    rw [if_pos (by omega)]
    cases m with
    | unused => rfl
    | used => rfl
    | split => exact absurd rfl solid
  | succ d ih =>
    intro fuel lt high
    obtain ⟨fuel, rfl⟩ : ∃ n, fuel = n + 1 := ⟨fuel - 1, by omega⟩
    have here := at_ (j + (d + 1)) (by omega) high
    have cut : t (j + (d + 1)) (a / 2 ^ (j + (d + 1))) = some .split :=
      wf.around low (by omega) high there
    have slot := rep.slot here cut
    have bound := here.end_le
    have content := sized.content
    have short := sized.lt
    have pos := Nat.two_pow_pos (j + d)
    have lower := Nat.div_mul_le_self a (2 ^ (j + (d + 1)))
    have upper := Nat.lt_div_mul_add (a := a) (Nat.two_pow_pos (j + (d + 1)))
    have next : a / 2 ^ (j + (d + 1)) = a / 2 ^ (j + d) / 2 := div_pow_succ a (j + d)
    have half : 2 ^ (j + (d + 1)) / 2 = 2 ^ (j + d) := by
      rw [show j + (d + 1) = (j + d) + 1 by omega, Nat.pow_succ, Nat.mul_div_cancel _ (by decide)]
    have whole : 2 ^ (j + (d + 1)) = 2 ^ (j + d) + 2 ^ (j + d) := by
      rw [show j + (d + 1) = (j + d) + 1 by omega, Nat.pow_succ, Nat.mul_two]
    -- the unit's offset in this block says in which half it lies
    have which : a < a / 2 ^ (j + (d + 1)) * 2 ^ (j + (d + 1)) + 2 ^ (j + d) ↔
        a / 2 ^ (j + d) = 2 * (a / 2 ^ (j + (d + 1))) := lt_left_half_iff a (j + d)
    rw [findSlotByAddrLoop, slot]
    simp only [sized.min, upow_two (show j + (d + 1) < 64 by omega), half]
    rw [if_pos (by omega), Word.add_of_lt (by omega), Word.sub_of_le (by omega) (by omega)]
    by_cases left : a < a / 2 ^ (j + (d + 1)) * 2 ^ (j + (d + 1)) + 2 ^ (j + d)
    · rw [if_pos (by omega), gotoLeftChild_eq sized here (by omega) (by rw [slot]), ← which.mp left,
        show j + (d + 1) - 1 = j + d by omega]
      exact ih fuel (by omega) (by omega)
    · have odd : a / 2 ^ (j + d) = 2 * (a / 2 ^ (j + (d + 1))) + 1 := by
        have := mt which.mpr left
        omega
      rw [if_neg (by omega), gotoRightChild_eq sized here (by omega) (by rw [slot]), ← odd,
        show j + (d + 1) - 1 = j + d by omega]
      exact ih fuel (by omega) (by omega)

/-- The merge loop of `buddy_free` is the library's merge. -/
theorem mergeLoop_spec :
    ∀ (d fuel : Nat) {h : Header} {t : Marking} {k i : Nat}, k + d = ref.maxPowOrder →
      d < fuel → Rep ref h t → Merge 12 ref.maxPowOrder k i t →
      ∃ h' t', mergeLoop ref fuel h (slotAddr ref k i) = .ok h' ∧ Tidy ref h' t' ∧
        ∀ j f, t' j f = some .used ↔ t j f = some .used := by
  intro d
  induction d with
  | zero =>
    intro fuel h t k i top lt rep m
    obtain ⟨fuel, rfl⟩ : ∃ n, fuel = n + 1 := ⟨fuel - 1, by omega⟩
    obtain rfl : k = ref.maxPowOrder := by omega
    have at_ : InTree ref ref.maxPowOrder i := ⟨m.low, m.high, m.wf.index_lt m.low m.high m.free⟩
    refine ⟨h, t, ?_, ⟨rep, m.wf, m.done_root⟩, fun _ _ => Iff.rfl⟩
    rw [mergeLoop, rep.slot at_ m.free]
    exact if_neg (Nat.lt_irrefl _)
  | succ d ih =>
    intro fuel h t k i top lt rep m
    obtain ⟨fuel, rfl⟩ : ∃ n, fuel = n + 1 := ⟨fuel - 1, by omega⟩
    have low := m.low
    have below : k < ref.maxPowOrder := by omega
    have at_ : InTree ref k i := ⟨low, m.high, m.wf.index_lt low m.high m.free⟩
    have slot := rep.slot at_ m.free
    obtain ⟨n, hn⟩ := m.buddy_exists below
    have atBuddy : InTree ref k (buddy i) := ⟨low, m.high, m.wf.index_lt low m.high hn⟩
    have sibling : gotoSibling ref h (slotAddr ref k i) = slotAddr ref k (buddy i) :=
      gotoSibling_eq sized at_ below (by rw [slot])
    have siblingType : (h (slotAddr ref k (buddy i))).type = n := by rw [rep.slot atBuddy hn]
    rw [mergeLoop]
    simp only [sibling, siblingType, gotoParent_eq sized at_ below (by rw [slot]), slot,
      if_pos below]
    by_cases free : n = .unused
    · subst free
      rw [if_neg (by simp)]
      obtain ⟨left, right⟩ := halves_of_buddy m.free hn
      have parent := (m.wf.child k i low below).mp ⟨_, m.free⟩
      -- parent unused, block and buddy zeroed: the join, in the order the source writes it
      have rep1 := rep.setType (at_.parent below) parent .unused
      have rep2 := (rep1.write at_ none).write atBuddy none
      have joined : Rep ref (((h.setType (slotAddr ref (k + 1) (i / 2)) .unused).write
          (slotAddr ref k i) .zero).write (slotAddr ref k (buddy i)) .zero) (t.join k (i / 2)) := by
        refine rep2.congr fun k' i' _ => ?_
        rw [join_apply]
        unfold Marking.set buddy
        split_ifs <;> first | rfl | omega
      obtain ⟨h', t', run, tidy, used⟩ := ih fuel (by omega) (by omega) joined (m.join below hn)
      exact ⟨h', t', run, tidy, fun j f => (used j f).trans (join_used left right parent j f)⟩
    · rw [if_pos free]
      refine ⟨h, t, rfl, ⟨rep, m.wf, m.done_buddy below ?_⟩, fun _ _ => Iff.rfl⟩
      rw [hn]
      simpa using free

/-- What `find_slot_by_addr` finds, for whatever address, is the slot of a used block. -/
theorem findSlotByAddrLoop_found {ptr idx : Nat} (rep : Rep ref h t) (wf : WF 12 ref.maxPowOrder t) :
    ∀ (fuel : Nat) {k i : Nat} {m : Mark}, InTree ref k i → t k i = some m →
      findSlotByAddrLoop ref h ptr fuel (slotAddr ref k i) = .ok (some idx) →
      ∃ k' i', InTree ref k' i' ∧ t k' i' = some .used ∧ idx = slotAddr ref k' i'
  | 0, _, _, _, _, _, run => by cases run
  | fuel + 1, k, i, m, at_, there, run => by
    have low := at_.low
    have slot := rep.slot at_ there
    have order : (h (slotAddr ref k i)).powOrder = k := by rw [slot]
    rw [findSlotByAddrLoop, if_pos (by rw [order, sized.min]; exact low)] at run
    cases m with
    | unused =>
      rw [slot] at run
      cases run
    | used =>
      rw [slot] at run
      cases run
      exact ⟨k, i, at_, there, rfl⟩
    | split =>
      have above : 12 < k := by
        refine Nat.lt_of_le_of_ne low ?_
        rintro rfl
        exact wf.leaf i there
      have high := at_.high
      have child : ∀ j, j / 2 = i → ∃ m, t (k - 1) j = some m := fun j half =>
        (wf.child (k - 1) j (by omega) (by omega)).mpr
          (by rw [show k - 1 + 1 = k by omega, half, there])
      rw [gotoLeftChild_eq sized at_ above order, gotoRightChild_eq sized at_ above order, slot] at run
      simp only at run
      split at run
      · obtain ⟨m', left⟩ := child (2 * i) (by omega)
        exact findSlotByAddrLoop_found rep wf fuel (at_.left above) left run
      · obtain ⟨m', right⟩ := child (2 * i + 1) (by omega)
        exact findSlotByAddrLoop_found rep wf fuel (at_.right above) right run

theorem findSlotByAddr_found {ptr idx fuel : Nat} (tidy : Tidy ref h t)
    (found : findSlotByAddr ref fuel h ptr = .ok idx) :
    ∃ k i, InTree ref k i ∧ t k i = some .used ∧ idx = slotAddr ref k i := by
  obtain ⟨m, root⟩ := tidy.wf.root
  unfold findSlotByAddr at found
  obtain ⟨r, walk, rest⟩ := bind_eq_ok.mp found
  rw [gotoPorderIdx_eq sized sized.le (Nat.le_refl _)] at walk
  cases r with
  | none => cases rest
  | some idx' =>
    cases rest
    exact findSlotByAddrLoop_found sized tidy.rep tidy.wf fuel (InTree.root sized) root walk

/-- `find_slot_by_addr` finds the whole block around an address of the region, if it is used. -/
theorem findSlotByAddr_solid (tidy : Tidy ref h t) {a k fuel : Nat} {m : Mark} (inside : a < 2 ^ ref.maxPowOrder)
    (low : 12 ≤ k) (high : k ≤ ref.maxPowOrder) (there : t k (a / 2 ^ k) = some m) (solid : m ≠ .split)
    (enough : ref.maxPowOrder < fuel) :
    findSlotByAddr ref fuel h (ref.contentMemReg.baseAddr + a) =
      if m = .used then .ok (slotAddr ref k (a / 2 ^ k)) else .error .bugOn := by
  have walk := findSlotByAddrLoop_solid sized tidy.rep tidy.wf inside low there solid
    (ref.maxPowOrder - k) fuel (by omega) (by omega)
  rw [show k + (ref.maxPowOrder - k) = ref.maxPowOrder by omega, Nat.div_eq_of_lt inside,
    ← gotoPorderIdx_eq sized sized.le (Nat.le_refl _)] at walk
  unfold findSlotByAddr
  rw [walk, ok_bind]
  split
  · next found =>
    rw [ite_eq_right_iff] at found
    rw [if_neg fun used => Option.some_ne_none _ (found used)]
  · next idx found =>
    rw [Option.ite_none_right_eq_some] at found
    rw [if_pos found.1, Option.some.inj found.2]

/-- `find_slot_by_addr` finds the used block around an address. -/
theorem findSlotByAddr_used (tidy : Tidy ref h t) {a k fuel : Nat} (low : 12 ≤ k)
    (high : k ≤ ref.maxPowOrder) (used : t k (a / 2 ^ k) = some .used)
    (enough : ref.maxPowOrder < fuel) :
    findSlotByAddr ref fuel h (ref.contentMemReg.baseAddr + a) =
      .ok (slotAddr ref k (a / 2 ^ k)) := by
  have at_ : InTree ref k (a / 2 ^ k) := ⟨low, high, tidy.wf.index_lt low high used⟩
  have inside : a < 2 ^ ref.maxPowOrder := by
    have := at_.end_le
    have := Nat.lt_div_mul_add (a := a) (Nat.two_pow_pos k)
    omega
  rw [findSlotByAddr_solid sized tidy inside low high used (by decide) enough, if_pos rfl]

theorem findSlotByAddr_base (tidy : Tidy ref h t) {k i fuel : Nat} (at_ : InTree ref k i)
    (used : t k i = some .used) (enough : ref.maxPowOrder < fuel) :
    findSlotByAddr ref fuel h (ref.contentMemReg.baseAddr + i * 2 ^ k) = .ok (slotAddr ref k i) := by
  have index : i * 2 ^ k / 2 ^ k = i := Nat.mul_div_cancel i (Nat.two_pow_pos k)
  have found := findSlotByAddr_used sized tidy (a := i * 2 ^ k) at_.low at_.high
    (by rw [index]; exact used) enough
  rwa [index] at found

/-- `buddy_free` gives back exactly the block whose slot it finds. -/
theorem buddyFree_found (tidy : Tidy ref h t) {ptr k i fuel : Nat} (nonzero : ptr ≠ 0)
    (at_ : InTree ref k i) (used : t k i = some .used)
    (found : findSlotByAddr ref fuel h ptr = .ok (slotAddr ref k i))
    (enough : ref.maxPowOrder < fuel) :
    ∃ h' t', buddyFree ref fuel h ptr = .ok h' ∧ Tidy ref h' t' ∧
      ∀ j f, t' j f = some .used ↔ t j f = some .used ∧ ¬ (j = k ∧ f = i) := by
  have low := at_.low
  have high := at_.high
  obtain ⟨h', t', run, tidy', same⟩ := mergeLoop_spec sized (ref.maxPowOrder - k) fuel
    (by omega) (by omega) (tidy.rep.setType at_ used .unused)
    (Merge.start tidy.wf tidy.coalesced low high used)
  refine ⟨h', t', ?_, tidy', fun j f => (same j f).trans ?_⟩
  · unfold buddyFree
    rw [bugOn_of_not nonzero, ok_bind, found, ok_bind]
    exact run
  · by_cases here : j = k ∧ f = i
    · rw [Marking.set, if_pos here]
      simp [here]
    · rw [Marking.set, if_neg here]
      simp [here]

end Free

theorem findSlotByAddr_mono {h : Header} {fuel more ptr idx : Nat} (le : fuel ≤ more)
    (run : findSlotByAddr ref fuel h ptr = .ok idx) : findSlotByAddr ref more h ptr = .ok idx := by
  unfold findSlotByAddr at run ⊢
  obtain ⟨r, walk, rest⟩ := bind_eq_ok.mp run
  rw [findSlotByAddrLoop_mono le walk]
  exact rest

theorem buddyFree_mono {h h' : Header} {fuel more ptr : Nat} (le : fuel ≤ more)
    (run : buddyFree ref fuel h ptr = .ok h') : buddyFree ref more h ptr = .ok h' := by
  unfold buddyFree at run ⊢
  rw [bugOn_bind_eq_ok] at run ⊢
  obtain ⟨nonzero, run⟩ := run
  obtain ⟨idx, found, merge⟩ := bind_eq_ok.mp run
  refine ⟨nonzero, bind_eq_ok.mpr ⟨idx, findSlotByAddr_mono le found, mergeLoop_mono le merge⟩⟩

/-- What `find_slot_by_addr` finds for an address of the region is the used block around it. -/
theorem findSlotByAddr_inside (sized : Sized ref) {h : Header} {t : Marking} (tidy : Tidy ref h t)
    {a fuel idx : Nat} (inside : a < 2 ^ ref.maxPowOrder)
    (found : findSlotByAddr ref fuel h (ref.contentMemReg.baseAddr + a) = .ok idx) :
    ∃ k, InTree ref k (a / 2 ^ k) ∧ t k (a / 2 ^ k) = some .used ∧ idx = slotAddr ref k (a / 2 ^ k) := by
  obtain ⟨k, m, low, high, there, solid⟩ := tidy.wf.exists_solid inside
  have more := findSlotByAddr_mono (Nat.le_max_left fuel (ref.maxPowOrder + 1)) found
  rw [findSlotByAddr_solid sized tidy inside low high there solid (by omega)] at more
  split at more
  · next used =>
    subst used
    cases more
    exact ⟨k, ⟨low, high, tidy.wf.index_lt low high there⟩, there, rfl⟩
  · cases more

/-- A `buddy_free` that returns, of whatever pointer, has given back one used block. -/
theorem buddyFree_spec (sized : Sized ref) {h h' : Header} {t : Marking} (tidy : Tidy ref h t)
    {ptr fuel : Nat} (run : buddyFree ref fuel h ptr = .ok h') :
    ∃ k i t', InTree ref k i ∧ t k i = some .used ∧
      findSlotByAddr ref fuel h ptr = .ok (slotAddr ref k i) ∧ Tidy ref h' t' ∧
      ∀ j f, t' j f = some .used ↔ t j f = some .used ∧ ¬ (j = k ∧ f = i) := by
  have whole := run
  unfold buddyFree at run
  rw [bugOn_bind_eq_ok] at run
  obtain ⟨nonzero, run⟩ := run
  obtain ⟨idx, found, _⟩ := bind_eq_ok.mp run
  obtain ⟨k, i, at_, used, rfl⟩ := findSlotByAddr_found sized tidy found
  -- the same call with fuel enough for every merge
  obtain ⟨h'', t', run', tidy', same⟩ := buddyFree_found sized tidy nonzero at_ used
    (findSlotByAddr_mono (Nat.le_max_left fuel (ref.maxPowOrder + 1)) found) (by omega)
  have again := buddyFree_mono (Nat.le_max_left fuel (ref.maxPowOrder + 1)) whole
  rw [run'] at again
  cases again
  exact ⟨k, i, t', at_, used, found, tidy', same⟩

end AlmeidaOS.Kernel
