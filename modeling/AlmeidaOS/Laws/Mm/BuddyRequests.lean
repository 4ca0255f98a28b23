import AlmeidaOS.Laws.Mm.BuddyTotal
import AlmeidaOS.Laws.Mm.Kmem

/-!
# Requests `buddy_pre_alloc` serves

A request for vacant pages is served and reserves exactly those pages, as long as no sum of addresses
wraps: `buddy_pre_alloc_exact_iff`. The one region in which a sum wraps is the one that ends at the top
of the address space.

A request that does not begin on a page is never served while its first byte is free. Each midpoint
split rounds the length up to a page and leaves the base as it is, so the first of the two calls asks
for the same base again: `buddyPreAlloc_off_page_never`. `mem_proc_handler` lets such requests through:
`buddy_pre_alloc_serves_iff_aligned`.
-/

namespace AlmeidaOS.Kernel

open Blocks (Mark Marking)
open Blocks.Marking

variable {ref : BuddyRef}

/-! ## Exactly the pages asked for -/

/-- A call for the whole region takes it when it is free, also where its end wraps. -/
theorem buddyPreAlloc_whole (sized : Sized ref) {h : Header} {t : Marking} {len fuel : Nat} (rep : Rep ref h t)
    (pos : 0 < len) (whole : pages len = 2 ^ ref.maxPowOrder) (free : t ref.maxPowOrder 0 = some .unused) :
    buddyPreAlloc ref (fuel + 2) h ref.contentMemReg.baseAddr len =
      .ok (h.setType (slotAddr ref ref.maxPowOrder 0) .used) := by
  have slot := rep.slot (InTree.root sized) free
  rw [Nat.zero_mul, Nat.add_zero] at slot
  have call : buddyPreAlloc ref (fuel + 1 + 1) h (ref.contentMemReg.baseAddr + 0) len = _ :=
    buddyPreAlloc_even sized pos (Nat.le_of_eq whole) whole
  simp only [Nat.add_zero] at call
  rw [call, preAllocLoop]
  simp only [slot]
  rw [upow_two sized.lt, if_pos ⟨Nat.le_refl _, Nat.le_refl _⟩, if_neg (Nat.lt_irrefl _), if_pos trivial]
  rfl

/-- What a reserved range means for the bytes of used blocks. -/
theorem Reserves.inUsedBlock_iff (slots : headerSlots ref = 2 ^ (ref.maxPowOrder - 11)) {h h' : Header}
    {t t' : Marking} (tidy : Tidy ref h t) (tidy' : Tidy ref h' t') {a len : Nat}
    (reserves : Reserves 12 ref.maxPowOrder t t' a len) (x : Nat) :
    InUsedBlock ref h' x ↔ InUsedBlock ref h x ∨
      ref.contentMemReg.baseAddr + a ≤ x ∧ x < ref.contentMemReg.baseAddr + a + len := by
  by_cases lower : ref.contentMemReg.baseAddr ≤ x
  · obtain ⟨b, rfl⟩ := Nat.exists_eq_add_of_le lower
    rw [Kernel.inUsedBlock_iff slots tidy, Kernel.inUsedBlock_iff slots tidy', reserves.covered_iff]
    exact or_congr Iff.rfl (by omega)
  · refine iff_of_false (fun used => lower (used.inside slots tidy').1) ?_
    rintro (used | here)
    · exact lower (used.inside slots tidy).1
    · omega

/-- When nothing is used, the whole region is one free block. -/
theorem Tidy.root_unused (sized : Sized ref) {h : Header} {t : Marking} (tidy : Tidy ref h t)
    (free : ∀ x < 2 ^ ref.maxPowOrder, ¬ Covered 12 ref.maxPowOrder t x) : t ref.maxPowOrder 0 = some .unused := by
  obtain ⟨j, f, from_, upto, there⟩ := (tidy.wf.unused_iff_clear tidy.coalesced sized.le (Nat.le_refl _)).mpr
    ⟨0, Nat.two_pow_pos _, fun x here => free x (Nat.lt_of_div_eq_zero (Nat.two_pow_pos _) here)⟩
  obtain rfl : j = ref.maxPowOrder := Nat.le_antisymm upto from_
  have first := tidy.wf.index_lt sized.le upto there
  rw [Nat.sub_self, Nat.pow_zero, Nat.lt_one_iff] at first
  rwa [first] at there

/-- The call returns, the bytes in used blocks are the old ones and the pages asked for, and the header is
that of a tidy tree. -/
def ReservesExactly (ref : BuddyRef) (h : Header) (base len : Nat) : Prop :=
  ∃ n, ∀ fuel, n ≤ fuel → ∃ h', buddyPreAlloc ref fuel h base len = .ok h' ∧
    (∀ x, InUsedBlock ref h' x ↔ InUsedBlock ref h x ∨ base ≤ x ∧ x < base + pages len) ∧
    ∃ t, Tidy ref h' t

/-- A call that reserves the range in the tree reserves exactly its bytes. -/
theorem reservesExactly_of_reserves (slots : headerSlots ref = 2 ^ (ref.maxPowOrder - 11)) {h : Header} {t : Marking}
    (tidy : Tidy ref h t) {n a len : Nat}
    (serves : ∀ fuel, n ≤ fuel → ∃ h' t', buddyPreAlloc ref fuel h (ref.contentMemReg.baseAddr + a) len = .ok h' ∧
      Rep ref h' t' ∧ Reserves 12 ref.maxPowOrder t t' a (pages len)) :
    ReservesExactly ref h (ref.contentMemReg.baseAddr + a) len := by
  refine ⟨n, fun fuel enough => ?_⟩
  obtain ⟨h', t', run, rep, reserves⟩ := serves fuel enough
  have tidy' := tidy.reserved rep reserves
  exact ⟨h', run, Reserves.inUsedBlock_iff slots tidy tidy' reserves, t', tidy'⟩

/-- **`buddy_pre_alloc` of vacant pages reserves exactly those pages, unless the region ends at the top of
the address space and the request is for a part of it.** -/
theorem buddy_pre_alloc_exact_iff {m : Nat} {hMemReg cMemReg : MemMapRegion} {before h₀ : Header}
    {ref : BuddyRef} {s : BuddyClient} (region : BuddyRegion m hMemReg cMemReg)
    (init : buddyInit before hMemReg cMemReg = .ok (ref, h₀)) (reach : BuddyReach ref h₀ s) {base len : Nat}
    (aligned : 4096 ∣ base) (pos : 0 < len) (lower : cMemReg.baseAddr ≤ base)
    (upper : base + pages len ≤ cMemReg.baseAddr + 2 ^ m)
    (vacant : ∀ x, base ≤ x → x < base + pages len → ¬ InUsedBlock ref s.header x) :
    ReservesExactly ref s.header base len ↔ cMemReg.baseAddr + 2 ^ m < 2 ^ 64 ∨ pages len = 2 ^ m := by
  obtain ⟨t, tidy⟩ := reach.tidy region init
  have sized := region.sized init
  have slots := region.headerSlots_eq init
  have page := region.aligned
  obtain rfl := region.content_eq init
  obtain rfl := region.max_eq init
  obtain ⟨a, rfl⟩ := Nat.exists_eq_add_of_le lower
  have offset : 4096 ∣ a := (Nat.dvd_add_right page).mp aligned
  have inside : a + pages len ≤ 2 ^ ref.maxPowOrder := by omega
  have more := le_pages len
  have free : ∀ x, a ≤ x → x < a + pages len → ¬ Covered 12 ref.maxPowOrder t x := by
    intro x from_ upto covered
    exact vacant _ (by omega) (by omega) ((inUsedBlock_iff slots tidy).mpr covered)
  constructor
  · rintro ⟨n, serves⟩
    obtain ⟨h', run, exact_, -⟩ := serves n (Nat.le_refl n)
    by_contra neither
    obtain ⟨ends, part⟩ := not_or.mp neither
    have top : ref.contentMemReg.baseAddr + 2 ^ ref.maxPowOrder = 2 ^ 64 := by
      have := sized.content
      omega
    obtain ⟨t', rep, reserves⟩ := buddyPreAlloc_top sized top tidy.rep tidy.wf pos inside run
    have tidy' := tidy.reserved rep reserves
    -- the call has taken the first pages of the region, so the last byte asked for is among them
    have last : InUsedBlock ref h' (ref.contentMemReg.baseAddr + a + pages len - 1) :=
      (exact_ _).mpr (.inr ⟨by omega, by omega⟩)
    rcases (Reserves.inUsedBlock_iff slots tidy tidy' reserves _).mp last with old | here
    · exact vacant _ (by omega) (by omega) old
    · exact buddyPreAlloc_top_never sized top h' n tidy.rep tidy.wf pos (by omega) run
  · intro condition
    by_cases ends : ref.contentMemReg.baseAddr + 2 ^ ref.maxPowOrder < 2 ^ 64
    · refine reservesExactly_of_reserves slots tidy (n := pages len / 4096 + 64) fun fuel enough => ?_
      obtain ⟨h', run⟩ := buddyPreAlloc_returns sized ends fuel a len tidy.rep tidy.wf pos offset inside
        (.of_coalesced tidy.coalesced free) enough
      obtain ⟨t', rep, reserves⟩ :=
        buddyPreAlloc_reserves sized ends fuel tidy.rep tidy.wf pos offset inside run
      exact ⟨h', t', run, rep, reserves⟩
    · have whole := condition.resolve_left ends
      obtain rfl : a = 0 := by omega
      have unused := tidy.root_unused sized fun x upper => free x (Nat.zero_le x) (by omega)
      have reserves := Reserves.of_set tidy.wf sized.le (Nat.le_refl _) unused
      rw [Nat.zero_mul, ← whole] at reserves
      refine reservesExactly_of_reserves slots tidy (n := 2) fun fuel enough => ?_
      obtain ⟨fuel, rfl⟩ := Nat.exists_eq_add_of_le' enough
      exact ⟨_, _, buddyPreAlloc_whole sized tidy.rep pos whole unused,
        tidy.rep.setType (InTree.root sized) unused .used, reserves⟩

/-! ## Requests off the page grid -/

section OffPage

variable (sized : Sized ref) (ends : ref.contentMemReg.baseAddr + 2 ^ ref.maxPowOrder < 2 ^ 64)

include sized ends

/-- A request that leaves the region loops at its root. -/
theorem preAllocLoop_beyond_never {h : Header} {t : Marking} {m : Mark} {a len kOrder : Nat} (rep : Rep ref h t)
    (root : t ref.maxPowOrder 0 = some m) (beyond : 2 ^ ref.maxPowOrder < a + len)
    (word : ref.contentMemReg.baseAddr + a + len < 2 ^ 64) (d : Descent) :
    ∀ fuel, preAllocLoop ref (ref.contentMemReg.baseAddr + a) len kOrder fuel h
      (slotAddr ref ref.maxPowOrder 0) ≠ .ok d
  | 0 => by intro run; cases run
  | fuel + 1 => by
    rw [preAllocLoop]
    simp only
    rw [rep.slot (InTree.root sized) root, if_neg]
    · exact preAllocLoop_beyond_never rep root beyond word d fuel
    · simp only [Nat.zero_mul, Nat.add_zero]
      rw [upow_two sized.lt, Word.add_of_lt ends, Word.add_of_lt word]
      omega

/-- A request that begins inside a page which is not used is never served. -/
theorem buddyPreAlloc_off_page_never {a : Nat} (off : ¬ 4096 ∣ a) (inside : a < 2 ^ ref.maxPowOrder)
    (word : ref.contentMemReg.baseAddr + a + 2 ^ ref.maxPowOrder < 2 ^ 64) :
    ∀ (fuel : Nat) {h h' : Header} {t : Marking} {len : Nat}, Rep ref h t → WF 12 ref.maxPowOrder t →
      ¬ Covered 12 ref.maxPowOrder t a →
      buddyPreAlloc ref fuel h (ref.contentMemReg.baseAddr + a) len ≠ .ok h'
  | 0, _, _, _, _, _, _, _ => by intro run; cases run
  | fuel + 1, h, h', t, len, rep, wf, free => by
    intro run
    have pos := buddyPreAlloc_pos run
    have short : pages len ≤ 2 ^ ref.maxPowOrder := by
      have valid := run
      rw [buddyPreAlloc, bugOn_bind_eq_ok, sized.length] at valid
      have := page_dvd_two_pow sized.le
      unfold pages
      omega
    by_cases even : ∃ n, pages len = 2 ^ n
    · obtain ⟨n, even⟩ := even
      have twelve : 12 ≤ n := by
        by_contra small
        have : 2 ^ n ≤ 2 ^ 11 := Nat.pow_le_pow_right (by decide) (by omega)
        have := dvd_pages len
        have := le_pages len
        omega
      have le : n ≤ ref.maxPowOrder := (Nat.pow_le_pow_iff_right (by decide)).mp (even ▸ short)
      have fits : 2 ^ n ≤ 2 ^ ref.maxPowOrder := Nat.pow_le_pow_right (by decide) le
      obtain ⟨m, root⟩ := wf.root
      rw [buddyPreAlloc_even sized pos short even] at run
      obtain ⟨d, descent, rest⟩ := bind_eq_ok.mp run
      by_cases beyond : 2 ^ ref.maxPowOrder < a + 2 ^ n
      · exact preAllocLoop_beyond_never sized ends rep root beyond (by omega) d fuel descent
      have done := preAllocLoop_spec sized ends twelve fuel rep wf (InTree.root sized) root le (by omega)
        (by omega) descent
      cases d with
      | done h₁ =>
        -- the used block around the first byte would begin there
        obtain ⟨t₁, -, reserves⟩ := done
        obtain ⟨k, low, high, used⟩ := reserves.cover a (Nat.le_refl a) (by have := Nat.two_pow_pos n; omega)
        rcases reserves.fresh k _ low high used with old | ⟨from_, -⟩
        · exact free ⟨k, low, high, old⟩
        · have start : a = a / 2 ^ k * 2 ^ k := Nat.le_antisymm from_ (Nat.div_mul_le_self a _)
          rw [start] at off
          exact off ((page_dvd_two_pow low).mul_left _)
      | overlapping h₁ idx next =>
        obtain ⟨t₁, -, -, rep₁, cuts, -⟩ := done
        obtain ⟨h₂, again, -⟩ := bind_eq_ok.mp rest
        refine buddyPreAlloc_off_page_never off inside word fuel rep₁ cuts.wf ?_ again
        rintro ⟨k, low, high, used⟩
        exact free ⟨k, low, high, (cuts.used _ _).mp used⟩
    · rw [buddyPreAlloc_parts sized pos short fun n h => even ⟨n, h⟩] at run
      obtain ⟨h₁, again, -⟩ := bind_eq_ok.mp run
      exact buddyPreAlloc_off_page_never off inside word fuel rep wf free again

end OffPage

/-- The call returns, and every page that meets the range lies in a used block. -/
def ServesRange (ref : BuddyRef) (h : Header) (base len : Nat) : Prop :=
  ∃ n, ∀ fuel, n ≤ fuel → ∃ h', buddyPreAlloc ref fuel h base len = .ok h' ∧
    ∀ page, 4096 ∣ page → (∃ y, page ≤ y ∧ y < page + 4096 ∧ base ≤ y ∧ y < base + len) →
      ∀ x, page ≤ x → x < page + 4096 → InUsedBlock ref h' x

/-- **Of the requests `mem_proc_handler` lets through, on a fresh region, `buddy_pre_alloc` serves exactly
those that begin on a page.** -/
theorem buddy_pre_alloc_serves_iff_aligned {m : Nat} {headerRg : MemMapRegion} {before h₀ : Header}
    {ref : BuddyRef} (region : BuddyRegion m headerRg (lowMemory m))
    (init : buddyInit before headerRg (lowMemory m) = .ok (ref, h₀)) {base len : Nat} (pos : 0 < len)
    (through : base + len ≤ 2 ^ m) : ServesRange ref h₀ base len ↔ 4096 ∣ base := by
  have tidy := region.tidy init
  have sized := region.sized init
  have slots := region.headerSlots_eq init
  have zero : ref.contentMemReg.baseAddr = 0 := by rw [region.content_eq init]; rfl
  obtain rfl := region.max_eq init
  have fresh : ∀ x, ¬ Covered 12 ref.maxPowOrder (freshMarking ref.maxPowOrder) x := by
    rintro x ⟨k, -, -, used⟩
    exact freshMarking_used used
  have top : 2 ^ ref.maxPowOrder ≤ 2 ^ 63 := Nat.pow_le_pow_right (by decide) (by have := sized.lt; omega)
  have ends : ref.contentMemReg.baseAddr + 2 ^ ref.maxPowOrder < 2 ^ 64 := by omega
  have start : ref.contentMemReg.baseAddr + base = base := by omega
  constructor
  · rintro ⟨n, serves⟩
    obtain ⟨h', run, -⟩ := serves n (Nat.le_refl n)
    by_contra off
    rw [← start] at run
    exact buddyPreAlloc_off_page_never sized ends off (by omega) (by omega) n tidy.rep tidy.wf (fresh base) run
  · intro aligned
    have inside : base + pages len ≤ 2 ^ ref.maxPowOrder := by
      have := page_dvd_two_pow sized.le
      unfold pages
      omega
    refine ⟨pages len / 4096 + 64, fun fuel enough => ?_⟩
    obtain ⟨h', run⟩ := buddyPreAlloc_returns sized ends fuel base len tidy.rep tidy.wf pos aligned inside
      (.of_coalesced tidy.coalesced fun x _ _ => fresh x) enough
    obtain ⟨t', rep, reserves⟩ :=
      buddyPreAlloc_reserves sized ends fuel tidy.rep tidy.wf pos aligned inside run
    have tidy' := tidy.reserved rep reserves
    rw [start] at run
    refine ⟨h', run, fun page grid meets x lower upper => ?_⟩
    obtain ⟨y, yLower, yUpper, from_, upto⟩ := meets
    rw [Reserves.inUsedBlock_iff slots tidy tidy' reserves, start]
    refine .inr ?_
    unfold pages
    omega

/-! ### Two pages of memory -/

/-- Nothing is used after `buddy_init`. -/
theorem BuddyRegion.not_inUsedBlock {m : Nat} {hMemReg cMemReg : MemMapRegion} {before h₀ : Header}
    (region : BuddyRegion m hMemReg cMemReg) (init : buddyInit before hMemReg cMemReg = .ok (ref, h₀)) (x : Nat) :
    ¬ InUsedBlock ref h₀ x := by
  rintro ⟨base, order, block, -⟩
  obtain ⟨i, -, used, -⟩ := (usedBlock_iff (region.headerSlots_eq init) (region.tidy init).rep).mp block
  exact freshMarking_used used

/-- The second of two pages is reserved, and nothing else. -/
theorem buddy_pre_alloc_exact_second_page :
    ReservesExactly (twoPagesRef 0x10000) (twoPagesInit 0x10000) 0x11000 4096 := by
  have region := twoPages_region 0x10000 (by decide) (by decide)
  have reach : BuddyReach (twoPagesRef 0x10000) (twoPagesInit 0x10000) (.start (twoPagesInit 0x10000)) := .refl
  exact (buddy_pre_alloc_exact_iff region (twoPages_init 0x10000) reach (by decide) (by decide) (by decide) (by decide)
    fun x _ _ => region.not_inUsedBlock (twoPages_init 0x10000) x).mpr (.inl (by decide))

/-- Two pages at the top of the address space, none of them used. A call for the last page takes the
first one. -/
theorem buddy_pre_alloc_takes_first_page :
    BuddyRegion 13 twoPagesHeader (twoPages (2 ^ 64 - 8192)) ∧
    buddyInit ⟨fun _ => .zero⟩ twoPagesHeader (twoPages (2 ^ 64 - 8192)) =
      .ok (twoPagesRef (2 ^ 64 - 8192), twoPagesInit (2 ^ 64 - 8192)) ∧
    (∀ x, ¬ InUsedBlock (twoPagesRef (2 ^ 64 - 8192)) (twoPagesInit (2 ^ 64 - 8192)) x) ∧
    ¬ ReservesExactly (twoPagesRef (2 ^ 64 - 8192)) (twoPagesInit (2 ^ 64 - 8192)) (2 ^ 64 - 4096) 4096 := by
  have region := twoPages_region (2 ^ 64 - 8192) (by decide) (by decide)
  have init := twoPages_init (2 ^ 64 - 8192)
  have tidy := region.tidy init
  have sized := region.sized init
  have slots := region.headerSlots_eq init
  refine ⟨region, init, region.not_inUsedBlock init, ?_⟩
  rintro ⟨n, serves⟩
  obtain ⟨h', run, exact_, -⟩ := serves n (Nat.le_refl n)
  have top : (twoPagesRef (2 ^ 64 - 8192)).contentMemReg.baseAddr + 2 ^ (twoPagesRef (2 ^ 64 - 8192)).maxPowOrder =
      2 ^ 64 := by decide
  have inside : 4096 + pages 4096 ≤ 2 ^ (twoPagesRef (2 ^ 64 - 8192)).maxPowOrder := by decide
  obtain ⟨t', rep, reserves⟩ := buddyPreAlloc_top sized top tidy.rep tidy.wf (by decide) inside run
  have tidy' := tidy.reserved rep reserves
  have last := (exact_ (2 ^ 64 - 4096)).mpr (.inr (by decide))
  rcases (Reserves.inUsedBlock_iff slots tidy tidy' reserves _).mp last with old | here
  · exact region.not_inUsedBlock init _ old
  · exact absurd here (by decide)

theorem lowMemory_init : buddyInit ⟨fun _ => .zero⟩ twoPagesHeader (lowMemory 13) =
    .ok (lowMemoryInit.alloc, lowMemoryInit.header) := by
  rw [buddyInit_eq lowMemory_region.word lowMemory_region.length]
  simp only [ite_self]
  rfl

/-- A request for one byte of the second page takes that page. -/
theorem buddy_pre_alloc_serves_one_byte : ServesRange lowMemoryInit.alloc lowMemoryInit.header 0x1000 1 :=
  (buddy_pre_alloc_serves_iff_aligned lowMemory_region lowMemory_init (by decide) (by decide)).mpr (by decide)

/-- A request for a page's worth of bytes from the middle of the first page on is never served. -/
theorem buddy_pre_alloc_hangs_off_page :
    0x800 + 0x1000 ≤ 2 ^ 13 ∧ ¬ ServesRange lowMemoryInit.alloc lowMemoryInit.header 0x800 0x1000 := by
  refine ⟨by decide, ?_⟩
  rintro ⟨n, serves⟩
  obtain ⟨h', run, -⟩ := serves n (Nat.le_refl n)
  have tidy := lowMemory_region.tidy lowMemory_init
  have ends : lowMemoryInit.alloc.contentMemReg.baseAddr + 2 ^ lowMemoryInit.alloc.maxPowOrder < 2 ^ 64 := by decide
  have inside : 0x800 < 2 ^ lowMemoryInit.alloc.maxPowOrder := by decide
  have start : lowMemoryInit.alloc.contentMemReg.baseAddr + 0x800 = 0x800 := by decide
  rw [← start] at run
  refine buddyPreAlloc_off_page_never (lowMemory_region.sized lowMemory_init) ends (by decide) inside (by decide) n
    tidy.rep tidy.wf ?_ run
  rintro ⟨k, -, -, used⟩
  exact freshMarking_used used

end AlmeidaOS.Kernel
