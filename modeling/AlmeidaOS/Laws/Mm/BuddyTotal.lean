import AlmeidaOS.Laws.Mm.BuddyRun

/-!
# When the buddy allocator refuses

What each call does in every state a run can reach, whether it returns or not.

* `buddy_alloc_fails_iff_full`: `buddy_alloc` always ends. It halts the machine exactly when every
  block of the order it looks for, cut out or not, meets a used block; otherwise it adds one block to
  the used ones.
* `buddy_free_rejects_iff`: `buddy_free` gives back the block around an address of the region, and
  halts on an address in none. `find_slot_by_addr` goes right for every address outside the region, so
  such an address is rejected exactly when the last block of the region is not used.
-/

namespace AlmeidaOS.Kernel

open Blocks (Mark Marking)
open Blocks.Marking

variable {ref : BuddyRef}

/-! ## Used blocks by their bytes -/

/-- The byte lies in a used block. -/
def InUsedBlock (ref : BuddyRef) (h : Header) (x : Nat) : Prop :=
  ∃ base order, UsedBlock ref h base order ∧ base ≤ x ∧ x < base + 2 ^ order

theorem inUsedBlock_iff (slots : headerSlots ref = 2 ^ (ref.maxPowOrder - 11)) {h : Header} {t : Marking}
    (tidy : Tidy ref h t) {a : Nat} :
    InUsedBlock ref h (ref.contentMemReg.baseAddr + a) ↔ Covered 12 ref.maxPowOrder t a := by
  constructor
  · rintro ⟨base, order, block, inside⟩
    obtain ⟨i, at_, used, rfl⟩ := (usedBlock_iff slots tidy.rep).mp block
    refine ⟨order, at_.low, at_.high, ?_⟩
    rw [mem_block_iff.mp inside, used]
  · rintro ⟨k, low, high, used⟩
    refine ⟨_, k, (usedBlock_iff slots tidy.rep).mpr ⟨_, ⟨low, high, ?_⟩, used, rfl⟩, mem_block_iff.mpr rfl⟩
    exact tidy.wf.index_lt low high used

/-- Used blocks lie in the region. -/
theorem InUsedBlock.inside (slots : headerSlots ref = 2 ^ (ref.maxPowOrder - 11)) {h : Header} {t : Marking}
    (tidy : Tidy ref h t) {x : Nat} (used : InUsedBlock ref h x) :
    ref.contentMemReg.baseAddr ≤ x ∧ x < ref.contentMemReg.baseAddr + 2 ^ ref.maxPowOrder := by
  obtain ⟨base, order, block, lower, upper⟩ := used
  obtain ⟨i, at_, -, rfl⟩ := (usedBlock_iff slots tidy.rep).mp block
  have := at_.end_le
  omega

/-! ## `buddy_alloc` -/

section Alloc

variable (sized : Sized ref)

include sized

/-- The search ends. It goes up at most to the whole region and comes down at most to its goal; it
fails when no order from the goal up has a free block. -/
theorem buddyAllocLoop_total {goal : Nat} (fuel : Nat) {h : Header} {t : Marking} {k : Nat} (rep : Rep ref h t)
    (s : Search 12 ref.maxPowOrder goal k t)
    (enough : (∃ i, t k i = some .unused) ∧ k < fuel + goal ∨ 2 * ref.maxPowOrder < fuel + k + goal) :
    (∃ r, buddyAllocLoop ref goal fuel h k = .ok r) ∨
      buddyAllocLoop ref goal fuel h k = .error .bugOn ∧
        ∀ j i, goal ≤ j → j ≤ ref.maxPowOrder → t j i ≠ some .unused := by
  induction fuel generalizing h t k with
  | zero =>
    have le := s.le
    have high := s.high
    omega
  | succ fuel ih =>
    have lt := sized.lt
    have low := s.low
    have le := s.le
    have high := s.high
    rw [buddyAllocLoop]
    cases found : findFreeSlot ref h k with
    | none =>
      have none := no_unused_of_findFreeSlot sized rep s found
      have climb : 2 * ref.maxPowOrder < fuel + 1 + k + goal := by
        refine enough.resolve_left ?_
        rintro ⟨⟨i, free⟩, -⟩
        exact none i free
      by_cases last : k = ref.maxPowOrder
      · refine .inr ⟨if_pos last, fun j i from_ upto => ?_⟩
        rcases Nat.lt_or_ge j k with below | here
        · exact s.barren j i from_ below
        · rw [show j = k by omega]
          exact none i
      · rw [if_neg last, toUint8_succ (by omega)]
        exact ih rep (s.up none (by omega)) (.inr (by omega))
    | some idx =>
      obtain ⟨i, at_, rfl, free⟩ := findFreeSlot_some sized rep (by omega) high found
      have slot := rep.slot at_ free
      simp only [slot]
      by_cases above : k > goal
      · rw [if_pos above, toUint8_pred (by omega) (by omega)]
        have half : t.cut k i (k - 1) (2 * i) = some .unused := by
          rw [cut_apply t i (k - 1) (2 * i) (by omega), if_neg (by omega), if_pos (by omega)]
        rcases ih (rep.splitAndInsert sized at_ (by omega) free) (s.cut above free)
          (.inl ⟨⟨2 * i, half⟩, by omega⟩) with done | ⟨-, barren⟩
        · exact .inl done
        · exact absurd half (barren (k - 1) (2 * i) (by omega) (by omega))
      · exact .inl ⟨_, if_neg above⟩

/-- `buddy_alloc` returns, or no free block is large enough. -/
theorem buddyAlloc_total {fuel bytes : Nat} {h : Header} {t : Marking} (tidy : Tidy ref h t) (pos : 0 < bytes)
    (fits : bytes ≤ ref.contentMemReg.length) (enough : 2 * ref.maxPowOrder < fuel) :
    (∃ r, buddyAlloc ref fuel h bytes = .ok r) ∨
      buddyAlloc ref fuel h bytes = .error .bugOn ∧
        ∀ j i, allocOrder ref bytes ≤ j → j ≤ ref.maxPowOrder → t j i ≠ some .unused := by
  obtain ⟨least, high⟩ := allocOrder_eq sized (by omega) (sized.length ▸ fits)
  rw [buddyAlloc, bugOn_of_not (by omega), ok_bind]
  exact buddyAllocLoop_total sized fuel tidy.rep (.start tidy.wf tidy.coalesced least.1.1 high)
    (.inr (by omega))

/-- A block that comes back was free, and so was a block large enough. -/
theorem buddyAlloc_unused {fuel bytes p : Nat} {h h' : Header} {t : Marking} (tidy : Tidy ref h t)
    (run : buddyAlloc ref fuel h bytes = .ok (p, h')) :
    ∃ j i, allocOrder ref bytes ≤ j ∧ j ≤ ref.maxPowOrder ∧ t j i = some .unused := by
  obtain ⟨t', k, i, tidy', at_, least, order, -, before, used⟩ := buddyAlloc_spec sized tidy run
  have now : t' k i = some .used := (used k i).mpr (.inr ⟨rfl, rfl⟩)
  rw [← order, tidy.wf.unused_iff_clear tidy.coalesced at_.low at_.high]
  refine ⟨i, at_.index, ?_⟩
  rintro a rfl ⟨j, low, high, old⟩
  obtain rfl := tidy'.wf.used_unique low at_.low high at_.high ((used _ _).mpr (.inl old)) now
  exact before old

end Alloc

/-- **`buddy_alloc` fails only when it must.** In every state of a run, for every size from one byte to
the whole region, the call ends; it reaches its `BUG_ON` exactly when every range of `2 ^ k` bytes that
starts at a multiple of `2 ^ k` in the region meets a used block, where `k` is the least order from
twelve up that holds the request; and when it returns, the used blocks are the old ones and the block
returned, which was none of them. -/
theorem buddy_alloc_fails_iff_full {m : Nat} {hMemReg cMemReg : MemMapRegion} {before h₀ : Header}
    {ref : BuddyRef} {s : BuddyClient} (region : BuddyRegion m hMemReg cMemReg)
    (init : buddyInit before hMemReg cMemReg = .ok (ref, h₀)) (reach : BuddyReach ref h₀ s) {bytes k : Nat}
    (pos : 0 < bytes) (fits : bytes ≤ cMemReg.length) (least : IsLeast {k | 12 ≤ k ∧ bytes ≤ 2 ^ k} k)
    {fuel : Nat} (enough : 2 * m < fuel) :
    ((∃ r, buddyAlloc ref fuel s.header bytes = .ok r) ∨
      buddyAlloc ref fuel s.header bytes = .error .bugOn) ∧
    (buddyAlloc ref fuel s.header bytes = .error .bugOn ↔
      ∀ i, i * 2 ^ k + 2 ^ k ≤ 2 ^ m → ∃ x, cMemReg.baseAddr + i * 2 ^ k ≤ x ∧
        x < cMemReg.baseAddr + i * 2 ^ k + 2 ^ k ∧ InUsedBlock ref s.header x) ∧
    ∀ p h, buddyAlloc ref fuel s.header bytes = .ok (p, h) → ¬ UsedBlock ref s.header p k ∧
      ∀ base order, UsedBlock ref h base order ↔
        UsedBlock ref s.header base order ∨ base = p ∧ order = k := by
  obtain ⟨t, tidy⟩ := reach.tidy region init
  have sized := region.sized init
  have slots := region.headerSlots_eq init
  obtain rfl := region.content_eq init
  obtain rfl := region.max_eq init
  obtain ⟨least', high⟩ := allocOrder_eq sized (by omega) (sized.length ▸ fits)
  obtain rfl : allocOrder ref bytes = k := least'.unique least
  have low := least.1.1
  have total := buddyAlloc_total sized tidy pos fits enough
  have room := tidy.wf.unused_iff_clear tidy.coalesced low high
  refine ⟨total.imp_right And.left, ?_, fun p h run => ?_⟩
  · constructor
    · intro fail i inside
      have full := total.resolve_left fun ⟨r, run⟩ => by rw [run] at fail; cases fail
      have index : i < 2 ^ (ref.maxPowOrder - allocOrder ref bytes) := by
        refine Nat.lt_of_mul_lt_mul_right (a := 2 ^ allocOrder ref bytes) ?_
        have := Nat.two_pow_pos (allocOrder ref bytes)
        rw [← Nat.pow_add, Nat.sub_add_cancel high]
        omega
      by_contra clear
      have free : ∀ a, a / 2 ^ allocOrder ref bytes = i → ¬ Covered 12 ref.maxPowOrder t a := by
        intro a here covered
        obtain ⟨lower, upper⟩ := mem_block_iff.mpr here
        exact clear ⟨ref.contentMemReg.baseAddr + a, lower, upper, (inUsedBlock_iff slots tidy).mpr covered⟩
      obtain ⟨j, f, le, highj, unused⟩ := room.mpr ⟨i, index, free⟩
      exact full.2 j f le highj unused
    · intro full
      refine (total.resolve_left ?_).1
      rintro ⟨⟨p, h⟩, run⟩
      obtain ⟨i, index, clear⟩ := room.mp (buddyAlloc_unused sized tidy run)
      have inside := (InTree.mk low high index).end_le
      obtain ⟨x, lower, upper, used⟩ := full i inside
      obtain ⟨a, rfl⟩ := Nat.exists_eq_add_of_le (Nat.le_trans (Nat.le_add_right _ _) lower)
      exact clear a (mem_block_iff.mp ⟨lower, upper⟩) ((inUsedBlock_iff slots tidy).mp used)
  · obtain ⟨t', k, i, tidy', at_, -, rfl, rfl, before, used⟩ := buddyAlloc_spec sized tidy run
    refine ⟨fun old => before ((used_iff_usedBlock slots tidy.rep at_).mpr old), fun base order => ?_⟩
    rw [usedBlock_iff slots tidy'.rep, usedBlock_iff slots tidy.rep]
    constructor
    · rintro ⟨f, atf, now, rfl⟩
      rcases (used order f).mp now with old | ⟨rfl, rfl⟩
      · exact .inl ⟨f, atf, old, rfl⟩
      · exact .inr ⟨rfl, rfl⟩
    · rintro (⟨f, atf, old, rfl⟩ | ⟨rfl, rfl⟩)
      · exact ⟨f, atf, (used order f).mpr (.inl old), rfl⟩
      · exact ⟨i, at_, (used _ i).mpr (.inr ⟨rfl, rfl⟩), rfl⟩

/-! ### Two pages, handed out in part -/

/-- Two pages at `0x10000`, after a request for `bytes`. -/
def grantedTwoPages (bytes : Nat) : BuddyClient :=
  (BuddyClient.start (twoPagesInit 0x10000)).alloc (allocated 0x10000 (twoPagesInit 0x10000) bytes)
    ⟨0x10000, bytes⟩

theorem grantedTwoPages_reach {bytes : Nat}
    (ok : (buddyAlloc (twoPagesRef 0x10000) 80 (twoPagesInit 0x10000) bytes).isOk = true)
    (ptr : ((buddyAlloc (twoPagesRef 0x10000) 80 (twoPagesInit 0x10000) bytes).getD (0, twoPagesInit 0x10000)).1 =
      0x10000) : BuddyReach (twoPagesRef 0x10000) (twoPagesInit 0x10000) (grantedTwoPages bytes) :=
  .single (.alloc 80 bytes (allocated_eq 0x10000 bytes 0x10000 (twoPagesInit 0x10000) ok ptr))

/-- With one page handed out, a request for two fails: the one block of two pages meets a used one. -/
theorem buddy_alloc_fails_iff_full_two_pages :
    buddyAlloc (twoPagesRef 0x10000) 80 (grantedTwoPages 4096).header 8192 = .error .bugOn ∧
    ∃ x, 0x10000 ≤ x ∧ x < 0x12000 ∧ InUsedBlock (twoPagesRef 0x10000) (grantedTwoPages 4096).header x := by
  have region := twoPages_region 0x10000 (by decide) (by decide)
  have reach : BuddyReach (twoPagesRef 0x10000) (twoPagesInit 0x10000) (grantedTwoPages 4096) :=
    grantedTwoPages_reach (by decide +kernel) (by decide +kernel)
  have fits : 8192 ≤ (twoPages 0x10000).length := by decide
  have least : IsLeast {k | 12 ≤ k ∧ 8192 ≤ 2 ^ k} 13 := by
    refine ⟨⟨by decide, by decide⟩, fun k holds => ?_⟩
    by_contra small
    obtain rfl : k = 12 := by have := holds.1; omega
    exact absurd holds.2 (by decide)
  have enough : 2 * 13 < 80 := by decide
  obtain ⟨total, full, -⟩ := buddy_alloc_fails_iff_full region (twoPages_init 0x10000) reach (by decide) fits
    least enough
  have fails : buddyAlloc (twoPagesRef 0x10000) 80 (grantedTwoPages 4096).header 8192 = .error .bugOn := by
    have halted : (buddyAlloc (twoPagesRef 0x10000) 80 (grantedTwoPages 4096).header 8192).isOk = false := by
      decide +kernel
    refine total.resolve_left ?_
    rintro ⟨r, run⟩
    rw [run] at halted
    cases halted
  exact ⟨fails, full.mp fails 0 (by decide)⟩

/-! ## `buddy_free` -/

theorem buddyFreeCall_ok {fuel ptr : Nat} {h h' : Header} (run : buddyFree ref fuel h ptr = .ok h') :
    buddyFreeCall ref fuel ptr h = .ok () h' := by
  rw [buddyFree, bugOn_bind_eq_ok] at run
  obtain ⟨nonzero, run⟩ := run
  obtain ⟨idx, found, merge⟩ := bind_eq_ok.mp run
  simp only [buddyFreeCall, Halting.bind_eq_ok, Halting.reads_eq_ok, bugOn_eq_ok]
  exact ⟨(), h, ⟨nonzero, rfl⟩, idx, h, ⟨found, rfl⟩, (), _, rfl, h', _, ⟨merge, rfl⟩, rfl⟩

theorem buddyFreeCall_rejects {fuel ptr : Nat} {h : Header} (nonzero : ptr ≠ 0)
    (rejected : findSlotByAddr ref fuel h ptr = .error .bugOn) :
    buddyFreeCall ref fuel ptr h = .error .bugOn h := by
  rw [buddyFreeCall, Halting.reads_bind_ok (fun _ => bugOn (ptr = 0)) (bugOn_of_not nonzero)]
  exact Halting.reads_bind_error (fun h => findSlotByAddr ref fuel h ptr) rejected

section Outside

variable (sized : Sized ref) {h : Header} {t : Marking}

include sized

/-- Outside the region the walk goes right at every split, as it does for the last byte. -/
theorem findSlotByAddrLoop_outside (rep : Rep ref h t) (wf : WF 12 ref.maxPowOrder t) {ptr : Nat}
    (outside : ptr < ref.contentMemReg.baseAddr ∨ ref.contentMemReg.baseAddr + 2 ^ ref.maxPowOrder ≤ ptr) :
    ∀ (fuel : Nat) {k : Nat} {m : Mark}, InTree ref k (2 ^ (ref.maxPowOrder - k) - 1) →
      t k (2 ^ (ref.maxPowOrder - k) - 1) = some m →
      findSlotByAddrLoop ref h ptr fuel (slotAddr ref k (2 ^ (ref.maxPowOrder - k) - 1)) =
        findSlotByAddrLoop ref h (ref.contentMemReg.baseAddr + (2 ^ ref.maxPowOrder - 1)) fuel
          (slotAddr ref k (2 ^ (ref.maxPowOrder - k) - 1))
  | 0, _, _, _, _ => rfl
  | fuel + 1, k, m, at_, there => by
    have low := at_.low
    have high := at_.high
    have slot := rep.slot at_ there
    rw [findSlotByAddrLoop, findSlotByAddrLoop]
    cases m with
    | unused => rw [slot]
    | used => rw [slot]
    | split =>
      have above : 12 < k := by
        refine Nat.lt_of_le_of_ne low ?_
        rintro rfl
        exact wf.leaf _ there
      have pos := Nat.two_pow_pos (ref.maxPowOrder - k)
      have whole : 2 ^ k = 2 ^ (k - 1) + 2 ^ (k - 1) := by
        rw [← Nat.two_mul, ← Nat.pow_succ', show (k - 1).succ = k by omega]
      have start : (2 ^ (ref.maxPowOrder - k) - 1) * 2 ^ k = 2 ^ ref.maxPowOrder - 2 ^ k := by
        rw [Nat.sub_mul, ← Nat.pow_add, Nat.sub_add_cancel high, Nat.one_mul]
      have right : 2 * (2 ^ (ref.maxPowOrder - k) - 1) + 1 = 2 ^ (ref.maxPowOrder - (k - 1)) - 1 := by
        rw [show ref.maxPowOrder - (k - 1) = ref.maxPowOrder - k + 1 by omega, Nat.pow_succ]
        omega
      have fits : 2 ^ k ≤ 2 ^ ref.maxPowOrder := Nat.pow_le_pow_right (by decide) high
      have half := Nat.two_pow_pos (k - 1)
      have content := sized.content
      have short := sized.lt
      have middle : Word.sub (Word.add (ref.contentMemReg.baseAddr + (2 ^ ref.maxPowOrder - 2 ^ k))
          (2 ^ k / 2)) 1 = ref.contentMemReg.baseAddr + (2 ^ ref.maxPowOrder - 2 ^ (k - 1)) - 1 := by
        rw [show 2 ^ k / 2 = 2 ^ (k - 1) by omega, Word.add_of_lt (by omega),
          Word.sub_of_le (by omega) (by omega)]
        omega
      have child : ∃ m, t (k - 1) (2 ^ (ref.maxPowOrder - (k - 1)) - 1) = some m := by
        rw [wf.child (k - 1) _ (by omega) (by omega), ← right]
        rw [show k - 1 + 1 = k by omega, show (2 * (2 ^ (ref.maxPowOrder - k) - 1) + 1) / 2 =
          2 ^ (ref.maxPowOrder - k) - 1 by omega, there]
      obtain ⟨m', next⟩ := child
      have down := at_.right above
      rw [right] at down
      rw [gotoRightChild_eq sized at_ above (by rw [slot]), slot, right]
      simp only [start, upow_two (show k < 64 by omega), middle]
      rw [if_neg (show ¬ (ptr ≥ _ ∧ ptr ≤ _) by omega), if_neg (show ¬ (_ ≥ _ ∧ _ ≤ _) by omega),
        findSlotByAddrLoop_outside rep wf outside fuel down next]

theorem findSlotByAddr_outside (tidy : Tidy ref h t) {ptr : Nat}
    (outside : ptr < ref.contentMemReg.baseAddr ∨ ref.contentMemReg.baseAddr + 2 ^ ref.maxPowOrder ≤ ptr)
    (fuel : Nat) : findSlotByAddr ref fuel h ptr =
      findSlotByAddr ref fuel h (ref.contentMemReg.baseAddr + (2 ^ ref.maxPowOrder - 1)) := by
  obtain ⟨m, root⟩ := tidy.wf.root
  have first : 2 ^ (ref.maxPowOrder - ref.maxPowOrder) - 1 = 0 := by rw [Nat.sub_self]; rfl
  have walk := findSlotByAddrLoop_outside sized tidy.rep tidy.wf outside fuel (k := ref.maxPowOrder) (m := m)
    (by rw [first]; exact InTree.root sized) (by rw [first]; exact root)
  rw [first, ← gotoPorderIdx_eq sized sized.le (Nat.le_refl _)] at walk
  rw [findSlotByAddr, findSlotByAddr, walk]

end Outside

/-- `buddy_free` of the address gives back the used block around it and no other; where there is none it
halts and leaves the header as it was. -/
def FreesExactly (ref : BuddyRef) (h : Header) (ptr : Nat) : Prop :=
  (∀ base order, UsedBlock ref h base order → base ≤ ptr → ptr < base + 2 ^ order →
    ∃ n, ∀ fuel, n ≤ fuel → ∃ h', buddyFreeCall ref fuel ptr h = .ok () h' ∧
      ∀ b o, UsedBlock ref h' b o ↔ UsedBlock ref h b o ∧ ¬ (b = base ∧ o = order)) ∧
  (¬ InUsedBlock ref h ptr → ∃ n, ∀ fuel, n ≤ fuel → buddyFreeCall ref fuel ptr h = .error .bugOn h)

section Exactly

variable (sized : Sized ref) (slots : headerSlots ref = 2 ^ (ref.maxPowOrder - 11)) {h : Header} {t : Marking}
  (tidy : Tidy ref h t) {ptr : Nat} (nonzero : ptr ≠ 0)

include sized slots tidy nonzero

/-- The address of a used block is freed. -/
theorem buddyFreeCall_inside {base order fuel : Nat} (block : UsedBlock ref h base order) (lower : base ≤ ptr)
    (upper : ptr < base + 2 ^ order) (enough : ref.maxPowOrder < fuel) :
    ∃ h', buddyFreeCall ref fuel ptr h = .ok () h' ∧
      ∀ b o, UsedBlock ref h' b o ↔ UsedBlock ref h b o ∧ ¬ (b = base ∧ o = order) := by
  obtain ⟨i, at_, used, rfl⟩ := (usedBlock_iff slots tidy.rep).mp block
  obtain ⟨a, rfl⟩ := Nat.exists_eq_add_of_le (Nat.le_trans (Nat.le_add_right _ _) lower)
  obtain rfl : a / 2 ^ order = i := mem_block_iff.mp ⟨lower, upper⟩
  obtain ⟨h', t', run, tidy', same⟩ := buddyFree_found sized tidy nonzero at_ used
    (findSlotByAddr_used sized tidy at_.low at_.high used enough) enough
  refine ⟨h', buddyFreeCall_ok run, fun b o => ?_⟩
  rw [usedBlock_iff slots tidy'.rep, usedBlock_iff slots tidy.rep]
  constructor
  · rintro ⟨f, atf, now, rfl⟩
    obtain ⟨old, other⟩ := (same o f).mp now
    refine ⟨⟨f, atf, old, rfl⟩, ?_⟩
    rintro ⟨start, rfl⟩
    exact other ⟨rfl, Nat.eq_of_mul_eq_mul_right (Nat.two_pow_pos o) (by omega)⟩
  · rintro ⟨⟨f, atf, old, rfl⟩, other⟩
    refine ⟨f, atf, (same o f).mpr ⟨old, ?_⟩, rfl⟩
    rintro ⟨rfl, rfl⟩
    exact other ⟨rfl, rfl⟩

omit nonzero in
/-- An address of the region in no used block is not found. -/
theorem findSlotByAddr_unused {a fuel : Nat} (inside : a < 2 ^ ref.maxPowOrder)
    (clear : ¬ InUsedBlock ref h (ref.contentMemReg.baseAddr + a)) (enough : ref.maxPowOrder < fuel) :
    findSlotByAddr ref fuel h (ref.contentMemReg.baseAddr + a) = .error .bugOn := by
  obtain ⟨k, m, low, high, there, solid⟩ := tidy.wf.exists_solid inside
  rw [findSlotByAddr_solid sized tidy inside low high there solid enough, if_neg]
  rintro rfl
  exact clear ((inUsedBlock_iff slots tidy).mpr ⟨k, low, high, there⟩)

end Exactly

/-- **`buddy_free` frees exactly the block around an address, and rejects what is not allocated, unless
the address lies outside the region and the region's last block is used.** -/
theorem buddy_free_rejects_iff {m : Nat} {hMemReg cMemReg : MemMapRegion} {before h₀ : Header}
    {ref : BuddyRef} {s : BuddyClient} (region : BuddyRegion m hMemReg cMemReg)
    (init : buddyInit before hMemReg cMemReg = .ok (ref, h₀)) (reach : BuddyReach ref h₀ s) {ptr : Nat}
    (nonzero : ptr ≠ 0) :
    FreesExactly ref s.header ptr ↔
      (cMemReg.baseAddr ≤ ptr ∧ ptr < cMemReg.baseAddr + 2 ^ m) ∨
        ¬ InUsedBlock ref s.header (cMemReg.baseAddr + (2 ^ m - 1)) := by
  obtain ⟨t, tidy⟩ := reach.tidy region init
  have sized := region.sized init
  have slots := region.headerSlots_eq init
  obtain rfl := region.content_eq init
  obtain rfl := region.max_eq init
  have last : 2 ^ ref.maxPowOrder - 1 < 2 ^ ref.maxPowOrder := Nat.sub_lt (Nat.two_pow_pos _) (by decide)
  constructor
  · rintro ⟨-, rejects⟩
    by_contra neither
    obtain ⟨outside, used⟩ := not_or.mp neither
    rw [not_not] at used
    obtain ⟨n, fails⟩ := rejects fun here => outside (here.inside slots tidy)
    have fail := fails (max n (ref.maxPowOrder + 1)) (Nat.le_max_left _ _)
    -- the walk is that for the last byte, so the last block is freed
    obtain ⟨k, low, high, there⟩ := (inUsedBlock_iff slots tidy).mp used
    have found := findSlotByAddr_used sized tidy low high there
      (show ref.maxPowOrder < max n (ref.maxPowOrder + 1) by omega)
    have off : ptr < ref.contentMemReg.baseAddr ∨ ref.contentMemReg.baseAddr + 2 ^ ref.maxPowOrder ≤ ptr := by
      omega
    rw [← findSlotByAddr_outside sized tidy off] at found
    obtain ⟨h', t', run, -⟩ := buddyFree_found sized tidy nonzero
      ⟨low, high, tidy.wf.index_lt low high there⟩ there found (Nat.le_max_right n (ref.maxPowOrder + 1))
    rw [buddyFreeCall_ok run] at fail
    cases fail
  · intro kept
    refine ⟨fun base order block lower upper => ⟨ref.maxPowOrder + 1, fun fuel enough =>
      buddyFreeCall_inside sized slots tidy nonzero block lower upper enough⟩, fun clear =>
      ⟨ref.maxPowOrder + 1, fun fuel enough => buddyFreeCall_rejects nonzero ?_⟩⟩
    by_cases inside : ref.contentMemReg.baseAddr ≤ ptr ∧ ptr < ref.contentMemReg.baseAddr + 2 ^ ref.maxPowOrder
    · obtain ⟨a, rfl⟩ := Nat.exists_eq_add_of_le inside.1
      exact findSlotByAddr_unused sized slots tidy (by omega) clear enough
    · rw [findSlotByAddr_outside sized tidy (by omega)]
      exact findSlotByAddr_unused sized slots tidy last (kept.resolve_left inside) enough

/-- Inside the region the block around the address is freed, or the address rejected. -/
theorem buddy_free_rejects_second_page :
    FreesExactly (twoPagesRef 0x10000) (grantedTwoPages 4096).header 0x11234 := by
  have region := twoPages_region 0x10000 (by decide) (by decide)
  have reach : BuddyReach (twoPagesRef 0x10000) (twoPagesInit 0x10000) (grantedTwoPages 4096) :=
    grantedTwoPages_reach (by decide +kernel) (by decide +kernel)
  exact (buddy_free_rejects_iff region (twoPages_init 0x10000) reach (by decide)).mpr (.inl (by decide))

/-- Both pages are handed out as one block. `buddy_free` of an address far behind the region returns, and
has given back that block. -/
theorem buddy_free_takes_wild_address :
    BuddyReach (twoPagesRef 0x10000) (twoPagesInit 0x10000) (grantedTwoPages 8192) ∧
    ¬ FreesExactly (twoPagesRef 0x10000) (grantedTwoPages 8192).header 0x20000 := by
  have region := twoPages_region 0x10000 (by decide) (by decide)
  have reach : BuddyReach (twoPagesRef 0x10000) (twoPagesInit 0x10000) (grantedTwoPages 8192) :=
    grantedTwoPages_reach (by decide +kernel) (by decide +kernel)
  refine ⟨reach, ?_⟩
  rintro ⟨-, rejects⟩
  obtain ⟨t, tidy⟩ := reach.tidy region (twoPages_init 0x10000)
  have clear : ¬ InUsedBlock (twoPagesRef 0x10000) (grantedTwoPages 8192).header 0x20000 := by
    intro used
    exact absurd (used.inside (region.headerSlots_eq (twoPages_init 0x10000)) tidy).2 (by decide)
  obtain ⟨n, fails⟩ := rejects clear
  have returns : buddyFree (twoPagesRef 0x10000) 80 (grantedTwoPages 8192).header 0x20000 = .ok _ :=
    Outcome.eq_ok_of_isOk (twoPagesInit 0x10000) (by decide +kernel)
  have returned := buddyFreeCall_ok (buddyFree_mono (Nat.le_max_right n 80) returns)
  rw [fails (max n 80) (Nat.le_max_left n 80)] at returned
  cases returned

end AlmeidaOS.Kernel
