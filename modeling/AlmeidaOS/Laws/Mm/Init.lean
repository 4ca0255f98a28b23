import AlmeidaOS.Kernel.Task.Process
import AlmeidaOS.Laws.Boot.PageTables
import AlmeidaOS.Laws.Mm.AddressConv
import AlmeidaOS.Laws.Mm.LinearMap

/-!
# What `mm_init` leaves

When `mm_init` returns, the kernel's page table is a tree in two blocks of the kernel's allocator, all
it maps is in the linear map, the entry of its root for the first 512 GiB of that map is there, and what the
memory map reserves is set aside (`Boots.kept`). From then on it is the kernel between calls. Up to then the
first page tables translate, as the linear map does on the machines that `Boots` is about (`Boots.translate`).

Whether it returns is told beside (`PagingGiven`, `BootGiven`): a machine with 2 GiB on which it does is at
the end (`twoGib_boots`).
-/

namespace AlmeidaOS.Kernel

open Blocks Marking Radix

/-! ## The allocator -/

/-- Setting reserved entries aside, when it returns, leaves a tidy header with their bytes in used blocks. -/
theorem memListEntries_tidy {ref : BuddyRef} (sized : Sized ref) (base : ref.contentMemReg.baseAddr = 0) {fuel : Nat}
    {entries : List MemMapRegion}
    (aligned : ∀ e ∈ entries, e.type = e820MemTypeReserved → 4096 ∣ e.baseAddr ∧ e.baseAddr + e.length < 2 ^ 64)
    {h h' : Header} {t : Marking} (tidy : Tidy ref h t)
    (run : entries.foldlM (fun h e => if e.type = e820MemTypeReserved then memProcHandler ref fuel h e else pure h) h =
      .ok h') :
    ∃ t', Tidy ref h' t' ∧
      ∀ x, Covered 12 ref.maxPowOrder t x ∨ x ∈ setAside ref.maxPowOrder entries → Covered 12 ref.maxPowOrder t' x := by
  induction entries generalizing h t with
  | nil =>
    cases run
    refine ⟨t, tidy, fun x => ?_⟩
    rintro (covered | ⟨e, none, -⟩)
    · exact covered
    · cases none
  | cons e entries ih =>
    rw [List.forall_mem_cons] at aligned
    rw [List.foldlM_cons, bind_eq_ok] at run
    obtain ⟨h₁, first, rest⟩ := run
    -- one entry: it is set aside if it is a reserved one that ends in the region
    obtain ⟨t₁, tidy₁, covered₁⟩ : ∃ t₁, Tidy ref h₁ t₁ ∧ ∀ x, Covered 12 ref.maxPowOrder t x ∨
        (e.type = e820MemTypeReserved ∧ e.baseAddr + e.length ≤ 2 ^ ref.maxPowOrder ∧ e.Mem x) →
          Covered 12 ref.maxPowOrder t₁ x := by
      split at first
      · rename_i type
        obtain ⟨page, bounded⟩ := aligned.1 type
        rw [memProcHandler, Word.add_of_lt bounded] at first
        split at first
        · rename_i inside
          have call : buddyPreAlloc ref fuel h (ref.contentMemReg.baseAddr + e.baseAddr) e.length = .ok h₁ := by
            rwa [base, Nat.zero_add]
          have ends : ref.contentMemReg.baseAddr + 2 ^ ref.maxPowOrder < 2 ^ 64 := by
            have := Nat.pow_lt_pow_right (show 1 < 2 by decide) sized.lt
            omega
          obtain ⟨t₁, rep, reserves⟩ := buddyPreAlloc_reserves sized ends fuel tidy.rep tidy.wf (buddyPreAlloc_pos first)
            page (pages_inside sized page (by omega)) call
          refine ⟨t₁, tidy.reserved rep reserves, fun x covered => ?_⟩
          rw [reserves.covered_iff]
          refine covered.imp_right fun set => ⟨set.2.2.1, ?_⟩
          have := le_pages e.length
          have := set.2.2.2
          omega
        · rename_i outside
          cases first
          rw [sized.length] at outside
          exact ⟨t, tidy, fun x covered => covered.resolve_right fun set => outside set.2.1⟩
      · rename_i other
        cases first
        exact ⟨t, tidy, fun x covered => covered.resolve_right fun set => other set.1⟩
    obtain ⟨t', tidy', covered'⟩ := ih aligned.2 tidy₁ rest
    refine ⟨t', tidy', fun x covered => covered' x ?_⟩
    rw [mem_setAside_cons, ← or_assoc] at covered
    exact covered.imp_left (covered₁ x)

/-- A region that `mem_alloc_region` returns has the length it was asked for. -/
theorem memAllocRegion_length {rand : Nat → Nat} {b b' : MemMapBlock} {stat stat' : MemPhysStats} {start length : Nat}
    {ret : MemMapRegion} (word : length < 2 ^ 64) (short : ret.length < 2 ^ 64)
    (run : memAllocRegion rand b stat start (Word.add start length) = .ok (ret, b', stat')) : ret.length = length := by
  rw [memAllocRegion, bugOn_bind_eq_ok] at run
  obtain ⟨-, run⟩ := run
  split at run
  · cases run
  rename_i curPos _
  simp only at run
  split at run
  · rename_i whole
    obtain ⟨first, last⟩ := whole
    cases run
    rw [first] at last
    change (b.memRegion curPos).length = length
    change (b.memRegion curPos).length < 2 ^ 64 at short
    unfold Word.add at last
    omega
  · obtain ⟨memRegion, -, run⟩ := bind_eq_ok.mp run
    cases run
    show Word.sub (Word.add start length) start = length
    unfold Word.add Word.sub
    omega

theorem memAllocAmount_length {rand : Nat → Nat} {b b' : MemMapBlock} {stat stat' : MemPhysStats}
    {length addrAlign : Nat} {ret : MemMapRegion} (word : length < 2 ^ 64) (short : ret.length < 2 ^ 64)
    (run : memAllocAmount rand b stat length addrAlign = .ok (ret, b', stat')) : ret.length = length := by
  rw [memAllocAmount, bugOn_bind_eq_ok, bugOn_bind_eq_ok] at run
  obtain ⟨-, -, run⟩ := run
  simp only at run
  split at run
  · rw [pure_eq_ok, ok_bind, bugOn_bind_eq_ok] at run
    obtain ⟨there, -⟩ := run
    exact absurd (show memIsEntryEmpty .zero = true by decide) there
  · obtain ⟨⟨r, b₁, stat₁⟩, alloc, run⟩ := bind_eq_ok.mp run
    obtain ⟨-, run⟩ := bugOn_bind_eq_ok.mp run
    cases run
    exact memAllocRegion_length word short alloc

/-- What `kmem_init` leaves when it returns. -/
theorem kmemInit_tidy {m fuel : Nat} {before h : Header} {ref : BuddyRef} {memBlocks : MemMapBlock}
    {headerRg : MemMapRegion} (region : BuddyRegion m headerRg (lowMemory m))
    (aligned : ∀ e ∈ memBlocks.entries, e.type = e820MemTypeReserved →
      4096 ∣ e.baseAddr ∧ e.baseAddr + e.length < 2 ^ 64)
    (run : kmemInit fuel before memBlocks headerRg (lowMemory m) = .ok (ref, h)) :
    ref = ⟨headerRg, lowMemory m, m, 12⟩ ∧ Sized ref ∧
      ∃ t, Tidy ref h t ∧ ∀ x ∈ setAside m memBlocks.entries, Covered 12 m t x := by
  obtain ⟨⟨ref₀, h₀⟩, init, run⟩ := bind_eq_ok.mp run
  obtain ⟨h₁, list, run⟩ := bind_eq_ok.mp run
  cases run
  have sized := region.sized init
  obtain rfl := region.ref_eq init
  obtain ⟨t, tidy, covered⟩ := memListEntries_tidy sized rfl aligned (region.tidy init) list
  exact ⟨rfl, sized, t, tidy, fun x set => covered x (.inr set)⟩

/-! ## The page table -/

/-- An address that is mapped has an entry in the root. -/
theorem root_of_walk {m : Mem} {r v : Nat} (found : walk m (4096 * r) v ≠ none) : entries m r (pml4Index v) ≠ 0 := by
  obtain ⟨t, reached⟩ := reach_of_walk found
  intro empty
  rw [path, reach, child_of_zero empty] at reached
  cases reached

/-- The frames of a pool whose last frame lies below the bound of the shift are reached. -/
theorem Pool.Reached.of_last {P : Pool} {w n : Nat} (last : n + 1 = P.count) (low : 4096 * (P.first + n) < 2 ^ w) :
    P.Reached w (P.first + n) := fun k inside _ => by omega

/-- Two blocks that are out, one for the frames of a page table and one for their nodes. -/
theorem Held.budgetRegions {ref : BuddyRef} {h : Header} {grants : List Grant} {pages nodes : Grant} {bytes : Nat}
    (held : Held ref h (nodes :: pages :: grants)) (base : ref.contentMemReg.baseAddr = 0) (small : ref.maxPowOrder < 40)
    (frames : pages.bytes = pagingCalcSpaceNeeded bytes) (space : nodes.bytes = pageframeCalcSpaceNeeded pages.bytes) :
    BudgetRegions bytes ⟨pages.ptr, pages.bytes, 0⟩ ⟨nodes.ptr, nodes.bytes, 0⟩ := by
  obtain ⟨aligned, inside⟩ := held.inside base (List.mem_cons_of_mem _ (List.mem_cons_self ..))
  obtain ⟨-, inside'⟩ := held.inside base (List.mem_cons_self ..)
  have fits : pages.bytes ≤ 2 ^ pages.order := pages.order_least.1.2
  have fits' : nodes.bytes ≤ 2 ^ nodes.order := nodes.order_least.1.2
  have top : 2 ^ ref.maxPowOrder < 2 ^ 40 := Nat.pow_lt_pow_right (by decide) small
  have pos := Nat.two_pow_pos pages.order
  have pos' := Nat.two_pow_pos nodes.order
  refine ⟨frames, space, aligned, by simp only; omega, by simp only; omega, ?_⟩
  -- the first byte of the one that begins later would be a byte of both
  by_contra meet
  simp only [not_or, Nat.not_le] at meet
  refine held.unowned_of_owns (x := max pages.ptr nodes.ptr) ⟨by omega, by omega⟩ pages (List.mem_cons_self ..)
    ⟨by omega, by omega⟩

/-- A new page table in two regions. Its pool has a frame for every path of a set that is not too large. -/
theorem BudgetRegions.newTable {bytes : Nat} {pagesRg pfdbRg : MemMapRegion} (given : BudgetRegions bytes pagesRg pfdbRg)
    (small : bytes ≤ 2 ^ 40) (m : Mem) :
    ∃ m' pgtable P r, pagingInit m pagesRg pfdbRg = .ok (m', pgtable) ∧ Refines P m' pgtable r [] ∧
      (∀ x ∈ P.Bytes, pagesRg.Mem x ∨ pfdbRg.Mem x) ∧ m.SameOff {x | pagesRg.Mem x ∨ pfdbRg.Mem x} m' ∧
      (∀ w, (∀ x, pagesRg.Mem x ∨ pfdbRg.Mem x → x < 2 ^ w) → P.Reached w r) ∧
      ∀ paths, [] ∈ paths → paths.card ≤ budget (pageTables bytes) → Funded P m' pgtable r paths := by
  obtain ⟨m₁, pgtable₁, r, n, init, physRoot, virtRoot, root, last, T, empty, same⟩ :=
    (given.regions small).pagingInit (Nat.le_refl _) m
  obtain ⟨length, length'⟩ := given.lengths small
  have first := given.pool_first small
  have count := given.pool_count small
  refine ⟨m₁, pgtable₁, _, r, init, .init T physRoot virtRoot empty, ?_, same, fun w low => ?_, fun paths top few => ?_⟩
  · rintro x (⟨lower, upper⟩ | ⟨lower, upper⟩)
    · exact .inr ⟨lower, by rw [count] at upper; rw [length']; exact upper⟩
    · exact .inl ⟨by omega, by omega⟩
  · rw [root]
    exact .of_last last (low _ (.inl ⟨by omega, by omega⟩))
  · refine .init T empty top ?_
    rw [List.length_reverse, List.length_range]
    omega

/-- What lies in the regions of two grants is owned by them. -/
theorem pool_owned_of_regions {pages nodes : Grant} {x : Nat} {grants : List Grant}
    (inside : (⟨pages.ptr, pages.bytes, 0⟩ : MemMapRegion).Mem x ∨ (⟨nodes.ptr, nodes.bytes, 0⟩ : MemMapRegion).Mem x) :
    ∃ g ∈ nodes :: pages :: grants, g.owns x := by
  rcases inside with ⟨lower, upper⟩ | ⟨lower, upper⟩
  · exact ⟨pages, by simp, Grant.owns_of_lt lower upper⟩
  · exact ⟨nodes, by simp, Grant.owns_of_lt lower upper⟩

theorem buddyAlloc_fits {ref : BuddyRef} {fuel bytes : Nat} {h : Header} {answer : Nat × Header}
    (run : buddyAlloc ref fuel h bytes = .ok answer) : bytes ≤ ref.contentMemReg.length := by
  rw [buddyAlloc, bugOn_bind_eq_ok] at run
  omega

/-! ## `paging_setup` -/

theorem pagingSetup_alloc {w fuel total : Nat} {image : KernelImage} {s s' : KernelMem}
    (run : pagingSetup w fuel image s total = .ok s') :
    s'.alloc = s.alloc ∧ pagingCalcSpaceNeeded total ≤ s.alloc.contentMemReg.length := by
  obtain ⟨⟨pages, s₁⟩, malloc, run⟩ := bind_eq_ok.mp run
  obtain ⟨pagesPa, -, run⟩ := bind_eq_ok.mp run
  obtain ⟨⟨nodes, s₂⟩, malloc', run⟩ := bind_eq_ok.mp run
  obtain ⟨nodesPa, -, run⟩ := bind_eq_ok.mp run
  obtain ⟨⟨m₀, pgtable₀⟩, -, run⟩ := bind_eq_ok.mp run
  obtain ⟨imageEnd, -, run⟩ := bind_eq_ok.mp run
  obtain ⟨⟨m₁, pgtable₁⟩, -, run⟩ := bind_eq_ok.mp run
  obtain ⟨v₁, -, run⟩ := bind_eq_ok.mp run
  obtain ⟨⟨m₂, pgtable₂⟩, -, run⟩ := bind_eq_ok.mp run
  obtain ⟨v₂, -, run⟩ := bind_eq_ok.mp run
  obtain ⟨⟨m₃, pgtable₃⟩, -, run⟩ := bind_eq_ok.mp run
  cases run
  obtain ⟨same, p, alloc, -⟩ := kmalloc_alloc malloc
  exact ⟨(kmalloc_alloc malloc').1.trans same, buddyAlloc_fits alloc⟩

/-- A block that `kmalloc` takes raw: nothing is mapped. -/
theorem Held.kmallocRaw {w fuel bytes k n : Nat} {s : KernelMem} {grants : List Grant}
    (held : Held s.alloc s.header grants) (sized : Sized s.alloc) (base : s.alloc.contentMemReg.baseAddr = 0)
    (order : s.alloc.maxPowOrder < 40) :
    Delivers (12 ≤ k ∧ k ≤ s.alloc.maxPowOrder ∧ 2 ^ s.alloc.maxPowOrder ≤ fuel ∧ 0 < bytes ∧ bytes ≤ 2 ^ k ∧
        Room s.alloc s.header k (n + 1)) (kmalloc w fuel s bytes kmemRawAlloc) fun a =>
      pa a.1 = .ok (linear a.1) ∧ va (linear a.1) = .ok a.1 ∧
      ∃ h, a.2 = { s with header := h } ∧ Held s.alloc h (⟨linear a.1, bytes⟩ :: grants) ∧
        ∀ j n, 12 ≤ j → bytes ≤ 2 ^ j → Room s.alloc s.header j (n + 1) → Room s.alloc h j n := by
  have top : 2 ^ s.alloc.maxPowOrder < 2 ^ 40 := Nat.pow_lt_pow_right (by decide) order
  have page : 2 ^ 12 ≤ 2 ^ s.alloc.maxPowOrder := Nat.pow_le_pow_right (by decide) sized.le
  refine Delivers.bind .self (fun ⟨low, high, enough, pos, fits, room⟩ => ?_) ?_
  · exact room.returns sized low high pos fits (by omega)
  rintro ⟨p, h⟩ alloc
  have out := held.alloc sized alloc
  obtain ⟨-, inside⟩ := out.inside base (List.mem_cons_self ..)
  have pos := Nat.two_pow_pos (⟨p, bytes⟩ : Grant).order
  simp only at inside
  have address : va p = .ok (virtAddrKernelStart + p) := va_of_lt (by omega)
  have back : linear (virtAddrKernelStart + p) = p := linear_start (by omega)
  dsimp only
  rw [address, ok_bind, if_neg (by decide)]
  refine .ok ⟨?_, ?_, h, rfl, ?_, fun j n low fits room => room.alloc sized low fits alloc⟩
  · rw [pa_eq_ok_iff]
    refine ⟨?_, rfl⟩
    simp only [virtAddrKernelStart]
    omega
  · dsimp only
    rw [back, address]
  · dsimp only
    rwa [back]

/-- The pool that `paging_setup` computes suffices for the memory that is managed, the image and all blocks
lie before the last byte of it. -/
structure PagingCovered (total : Nat) (image : KernelImage) (s : KernelMem) (fixed : List Grant) : Prop where
  whole : total = 2 ^ s.alloc.maxPowOrder
  covers : needed (pageTables total) ≤ budget (pageTables total)
  imageEnd : linear image.virtEndAddr < total
  last : ∃ g ∈ fixed, g.owns (total - 1)

/-- What `paging_setup` needs to return: there also is room for the blocks of the pool and of its nodes. -/
structure PagingGiven (fuel total k : Nat) (image : KernelImage) (s : KernelMem) (fixed : List Grant) : Prop
    extends PagingCovered total image s fixed where
  enough : total ≤ fuel
  imageStart : virtAddrKernelStart ≤ image.virtEndAddr
  low : 12 ≤ k
  high : k ≤ s.alloc.maxPowOrder
  fits : pagingCalcSpaceNeeded total ≤ 2 ^ k
  room : Room s.alloc s.header k 2

theorem pageframeCalcSpaceNeeded_le (n : Nat) : pageframeCalcSpaceNeeded n ≤ n := by
  unfold pageframeCalcSpaceNeeded Word.mul pageframeSize sizeofPageframe
  omega

/-- What `paging_setup` leaves: a page table in two blocks, with calls for the linear map only. -/
theorem pagingSetup_kept {w fuel total k : Nat} {image : KernelImage} {s : KernelMem} {fixed : List Grant}
    (sized : Sized s.alloc) (base : s.alloc.contentMemReg.baseAddr = 0) (order : s.alloc.maxPowOrder < 40)
    (wide : s.alloc.maxPowOrder ≤ w) (slots : headerSlots s.alloc = 2 ^ (s.alloc.maxPowOrder - 11))
    (held₀ : Held s.alloc s.header fixed) (pos : 0 < total) (small : total ≤ 2 ^ 40)
    (end_ : linear image.virtEndAddr < 2 ^ 40) :
    Delivers (PagingGiven fuel total k image s fixed) (pagingSetup w fuel image s total) fun s' =>
      s'.alloc = s.alloc ∧ ∃ P r pages nodes calls, KernelKept w P r (nodes :: pages :: fixed) s' [] calls ∧
        (∀ c ∈ calls, LinearCall c) ∧ (∃ c ∈ calls, samePage c.vAddr virtAddrKernelStart) ∧
        (∀ x ∈ P.Bytes, ∃ g ∈ [nodes, pages], g.owns x) ∧ s.mem.SameOff {x | ∃ g ∈ [nodes, pages], g.owns x} s'.mem ∧
        (PagingCovered total image s fixed → Stocked P r s') ∧
        ∀ j n, 12 ≤ j → pagingCalcSpaceNeeded total ≤ 2 ^ j → Room s.alloc s.header j (n + 2) →
          Room s'.alloc s'.header j n := by
  have space : 0 < pagingCalcSpaceNeeded total := by
    rw [pagingCalcSpaceNeeded_eq small]
    have := lt_budget (pageTables total)
    omega
  have space' : 0 < pageframeCalcSpaceNeeded (pagingCalcSpaceNeeded total) := by
    have := lt_budget (pageTables total)
    have := budget_le (pageTables_le small)
    rw [pagingCalcSpaceNeeded_eq small, pageframeCalcSpaceNeeded_eq (by omega)]
    omega
  have few := pageframeCalcSpaceNeeded_le (pagingCalcSpaceNeeded total)
  -- the two blocks
  refine Delivers.bind (held₀.kmallocRaw sized base order)
    (fun given => ⟨given.low, given.high, given.whole ▸ given.enough, space, given.fits, given.room⟩) ?_
  rintro ⟨pages, _⟩ ⟨back, place, h, rfl, held₁, room₁⟩
  dsimp only at back place held₁ room₁ ⊢
  rw [back, ok_bind]
  refine Delivers.bind (Held.kmallocRaw (s := { s with header := h }) held₁ sized base order) (fun given =>
    ⟨given.low, given.high, given.whole ▸ given.enough, space', few.trans given.fits,
      room₁ k 1 given.low given.fits given.room⟩) ?_
  rintro ⟨nodes, _⟩ ⟨back', place', h', rfl, held, room₂⟩
  dsimp only at back' place' held ⊢
  rw [back', ok_bind]
  -- the table
  obtain ⟨m₀, pgtable₀, P, r, init, refines, housed, built, reach, funds⟩ :=
    (held.budgetRegions base order rfl rfl).newTable small s.mem
  rw [init, ok_bind]
  have own : ∀ x, _ ∨ _ → ∃ g ∈ [(⟨linear nodes, pageframeCalcSpaceNeeded (pagingCalcSpaceNeeded total)⟩ : Grant),
      ⟨linear pages, pagingCalcSpaceNeeded total⟩], g.owns x := fun x inside => pool_owned_of_regions inside
  have start : KernelKept w P r _ ⟨s.alloc, h', m₀, pgtable₀⟩ [] [] :=
    ⟨sized, base, order, wide, slots, held, fun x mem => pool_owned_of_regions (housed x mem), reach w fun x inside => ?low,
      fun c none => absurd none List.not_mem_nil, refines⟩
  case low =>
    obtain ⟨g, mem, owns⟩ : ∃ g ∈ _ :: _ :: fixed, g.owns x := pool_owned_of_regions inside
    have := (held.inside base mem).2
    have := Nat.pow_le_pow_right (show 0 < 2 by decide) wide
    have := owns.2
    omega
  have stock₀ : PagingCovered total image s fixed → Stocked P r ⟨s.alloc, h', m₀, pgtable₀⟩ := fun given => by
    rw [Stocked, ← given.whole]
    exact funds _ (nil_mem_linearPaths pos small) ((card_linearPaths pos small).trans_le given.covers)
  -- the three ranges
  refine Delivers.bind .self (fun given => ⟨_, pa_eq_ok_iff.mpr ⟨?_, rfl⟩⟩) ?_
  · have := given.imageStart
    unfold virtAddrKernelStart at this
    omega
  intro imageEnd fini
  rw [pa_eq fini]
  refine Delivers.bind (start.mapLinear (by decide) (by decide) (by decide) (Nat.zero_le _) end_) (fun given =>
    ⟨⟨stock₀ given.toPagingCovered, Nat.dvd_zero _, given.whole ▸ given.imageEnd⟩, given.whole ▸ given.enough⟩) ?_
  rintro ⟨m₁, pgtable₁⟩ ⟨⟨new₁, row₁, kept₁, writes₁⟩, stock₁⟩
  dsimp only
  rw [place, ok_bind]
  have pages_lt : PagingCovered total image s fixed →
      linear pages + pagingCalcSpaceNeeded total < 2 ^ s.alloc.maxPowOrder := fun given => by
    obtain ⟨g, mem, last⟩ := given.last
    exact held₁.end_lt_last base mem (given.whole ▸ last)
  have nodes_lt : PagingCovered total image s fixed →
      linear nodes + pageframeCalcSpaceNeeded (pagingCalcSpaceNeeded total) < 2 ^ s.alloc.maxPowOrder := fun given => by
    obtain ⟨g, mem, last⟩ := given.last
    exact held.end_lt_last base (List.mem_cons_of_mem _ mem) (given.whole ▸ last)
  have stock₁' := fun given : PagingCovered total image s fixed =>
    stock₁ ⟨stock₀ given, Nat.dvd_zero _, given.whole ▸ given.imageEnd⟩
  refine (kept₁.mapGrant (by decide) (by decide) (by decide)
    (List.mem_cons_of_mem _ (List.mem_cons_self ..)) place).bind (fun given =>
      ⟨⟨stock₁' given.toPagingCovered, pages_lt given.toPagingCovered⟩, given.whole ▸ given.enough⟩) ?_
  rintro ⟨m₂, pgtable₂⟩ ⟨⟨new₂, row₂, kept₂, writes₂⟩, stock₂⟩
  dsimp only
  rw [place', ok_bind]
  have stock₂' := fun given => stock₂ ⟨stock₁' given, pages_lt given⟩
  refine (kept₂.mapGrant (by decide) (by decide) (by decide) (List.mem_cons_self ..) place').bind
    (fun given => ⟨⟨stock₂' given.toPagingCovered, nodes_lt given.toPagingCovered⟩, given.whole ▸ given.enough⟩) ?_
  rintro ⟨m₃, pgtable₃⟩ ⟨⟨new₃, row₃, kept₃, writes₃⟩, stock₃⟩
  have writes := (writes₁.trans writes₂).trans writes₃
  refine .ok ⟨rfl, P, r, _, _, _, kept₃, ?_, ?_, fun x mem => own x (housed x mem), ?_,
    fun given => stock₃ ⟨stock₂' given, nodes_lt given⟩, fun j n low fits room =>
      room₂ j n low (few.trans fits) (room₁ j (n + 1) low fits room)⟩
  · simp only [List.forall_mem_append]
    exact ⟨⟨⟨fun c none => absurd none List.not_mem_nil, row₁.linear⟩, row₂.linear⟩, row₃.linear⟩
  · obtain ⟨c, mem, page⟩ := row₁.covers (Nat.dvd_zero _) 0 (Nat.le_refl 0) (Nat.zero_le _)
    exact ⟨c, by simp [mem], page⟩
  · refine (built.mono fun x inside => own x inside).trans (writes.same.mono fun x inside => ?_)
    rcases inside with pool | none
    · exact own x (housed x pool)
    · exact none.elim

/-! ## `mm_init` -/

theorem kmemInit_regions {fuel : Nat} {before h : Header} {ref : BuddyRef} {memBlocks : MemMapBlock}
    {headerRg contentRg : MemMapRegion} (run : kmemInit fuel before memBlocks headerRg contentRg = .ok (ref, h)) :
    ref.headerMemReg = headerRg ∧ ref.contentMemReg = contentRg := by
  obtain ⟨⟨ref₀, h₀⟩, init, run⟩ := bind_eq_ok.mp run
  obtain ⟨h₁, -, run⟩ := bind_eq_ok.mp run
  obtain ⟨-, init⟩ := bugOn_bind_eq_ok.mp init
  cases run
  cases init
  exact ⟨rfl, rfl⟩

theorem buddyAllocatorSetup_regions {fuel space : Nat} {rands : Nat → Nat → Nat} {before h : Header}
    {map map' : PhysMap} {headerRg : MemMapRegion} {ref : BuddyRef}
    (run : buddyAllocatorSetup fuel rands before map space = .ok (headerRg, ref, h, map')) :
    ref.headerMemReg = headerRg ∧ ref.contentMemReg = ⟨0x0, space, 0⟩ := by
  obtain ⟨headerSpace, -, run⟩ := bind_eq_ok.mp run
  obtain ⟨⟨rg, memBlocks, stat⟩, -, run⟩ := bind_eq_ok.mp run
  obtain ⟨baseAddr, -, run⟩ := bind_eq_ok.mp run
  obtain ⟨⟨ref₁, h₁⟩, init, run⟩ := bind_eq_ok.mp run
  cases run
  exact kmemInit_regions init

/-- The allocator `buddy_allocator_setup` leaves, when the page table's space fits its region. -/
theorem buddyAllocatorSetup_tidy {fuel space : Nat} {rands : Nat → Nat → Nat} {before h : Header} {map map' : PhysMap}
    {headerRg : MemMapRegion} {ref : BuddyRef}
    (run : buddyAllocatorSetup fuel rands before map space = .ok (headerRg, ref, h, map'))
    (aligned : ∀ e ∈ map'.memBlocks.entries, e.type = e820MemTypeReserved →
      4096 ∣ e.baseAddr ∧ e.baseAddr + e.length < 2 ^ 64)
    (small : space < 2 ^ 40) (big : 4096 ≤ space) (below : linear headerRg.baseAddr + headerRg.length < 2 ^ 40) :
    headerRg.baseAddr = virtAddrKernelStart + linear headerRg.baseAddr ∧
      space = 2 ^ ref.maxPowOrder ∧ ref.contentMemReg.baseAddr = 0 ∧ ref.maxPowOrder < 40 ∧ Sized ref ∧
      headerSlots ref = 2 ^ (ref.maxPowOrder - 11) ∧
      ∃ t, Tidy ref h t ∧ ∀ x ∈ setAside ref.maxPowOrder map'.memBlocks.entries, Covered 12 ref.maxPowOrder t x := by
  obtain ⟨headerSpace, calc_, run⟩ := bind_eq_ok.mp run
  obtain ⟨⟨rg, memBlocks, stat⟩, amount, run⟩ := bind_eq_ok.mp run
  obtain ⟨baseAddr, place, run⟩ := bind_eq_ok.mp run
  obtain ⟨⟨ref₁, h₁⟩, init, run⟩ := bind_eq_ok.mp run
  cases run
  -- the space is a power of two, or the first assertion would have held
  have power : space = 2 ^ space.log2 := by
    obtain ⟨pow, -⟩ := bugOn_bind_eq_ok.mp calc_
    rw [← flp2_eq (by omega) (by omega)]
    exact not_not.mp pow
  generalize space.log2 = m at power
  subst power
  have order : 12 ≤ m := (Nat.pow_le_pow_iff_right (by decide)).mp (show 2 ^ 12 ≤ 2 ^ m from big)
  have top : m < 40 := (Nat.pow_lt_pow_iff_right (by decide)).mp small
  have back := linear_va place
  simp only [back] at below ⊢
  obtain rfl : virtAddrKernelStart + rg.baseAddr = baseAddr := Except.ok.inj ((va_of_lt (by omega)).symm.trans place)
  have slots : 2 ^ (m - 11) ≤ 2 ^ 29 := Nat.pow_le_pow_right (by decide) (by omega)
  obtain rfl : 16 * 2 ^ (m - 11) = headerSpace :=
    Except.ok.inj ((buddyCalcHeaderSpace_eq order (by omega)).symm.trans calc_)
  have length := memAllocAmount_length (by omega) (by omega) amount
  have region : BuddyRegion m { rg with baseAddr := virtAddrKernelStart + rg.baseAddr } (lowMemory m) :=
    { order := order
      word := by omega
      length := rfl
      aligned := Nat.dvd_zero _
      content := by
        show 0 + 2 ^ m ≤ 2 ^ 64
        omega
      header := by
        simp only [length]
        exact calc_
      space := by
        unfold virtAddrKernelStart
        simp only
        omega }
  have slots : { rg with baseAddr := virtAddrKernelStart + rg.baseAddr }.length / 16 = 2 ^ (m - 11) := by
    rw [region.header_length, Nat.mul_div_cancel_left _ (by decide)]
  obtain ⟨rfl, sized, tidy⟩ := kmemInit_tidy region aligned init
  exact ⟨rfl, rfl, rfl, top, sized, slots, tidy⟩

/-- The first part of `mm_init` returns: the memory map is set up, and the allocator has its region. -/
def MapSetup (fuel : Nat) (rands : Nat → Nat → Nat) (image : KernelImage) (before : Header) (memBlocks : MemMapBlock)
    (total : Nat) (headerRg : MemMapRegion) (ref : BuddyRef) (h : Header) (map : PhysMap) : Prop :=
  ∃ b stat map₁ stat₁, memInit (rands 0) memBlocks = .ok (b, stat) ∧
    reserveKernelSections rands image ⟨b, stat⟩ = .ok map₁ ∧ memStat map₁.physMemStat = .ok stat₁ ∧
    total = flp2 stat₁.physAvailMem ∧ buddyAllocatorSetup fuel rands before map₁ total = .ok (headerRg, ref, h, map)

section Setup

variable {w fuel k total : Nat} {rands : Nat → Nat → Nat} {image : KernelImage} {before h : Header} {mem : Mem}
  {memBlocks : MemMapBlock} {headerRg : MemMapRegion} {ref : BuddyRef} {map : PhysMap}

theorem MapSetup.mmInit_eq (setup : MapSetup fuel rands image before memBlocks total headerRg ref h map) :
    mmInit w fuel rands image before mem memBlocks = (do
      let s ← pagingSetup w fuel image ⟨ref, h, mem, ⟨0, 0, ⟨0, 0⟩⟩⟩ total
      let headerStart ← pa headerRg.baseAddr
      let (mem, pgtable) ← pagingContiguousMap w bootBits fuel s.mem s.pgtable headerStart
        (Word.add headerStart headerRg.length) headerRg.baseAddr
      pure ({ s with mem := mem, pgtable := pgtable }, map)) := by
  obtain ⟨b, stat, map₁, stat₁, init, reserve, known, rfl, alloc⟩ := setup
  simp only [mmInit, init, reserve, known, alloc, ok_bind]

/-- A run of `mm_init` that returns has set up the map. -/
theorem mmInit_setup {s : KernelMem} (run : mmInit w fuel rands image before mem memBlocks = .ok (s, map)) :
    ∃ total headerRg ref h, MapSetup fuel rands image before memBlocks total headerRg ref h map ∧
      s.alloc = ref ∧ pagingCalcSpaceNeeded total ≤ ref.contentMemReg.length := by
  obtain ⟨⟨b, stat⟩, init, run⟩ := bind_eq_ok.mp run
  obtain ⟨map₁, reserve, run⟩ := bind_eq_ok.mp run
  obtain ⟨stat₁, known, run⟩ := bind_eq_ok.mp run
  obtain ⟨⟨headerRg, ref, h, map₂⟩, alloc, run⟩ := bind_eq_ok.mp run
  obtain ⟨s₁, paging, run⟩ := bind_eq_ok.mp run
  obtain ⟨headerStart, -, run⟩ := bind_eq_ok.mp run
  obtain ⟨⟨m, pgtable⟩, -, run⟩ := bind_eq_ok.mp run
  cases run
  exact ⟨_, headerRg, ref, h, ⟨b, stat, map₁, stat₁, init, reserve, known, rfl, alloc⟩, pagingSetup_alloc paging⟩

/-- The kernel's image, the allocator's header and every block lie before the last byte of the memory that is
managed, and the page table's pool suffices for all of it. -/
structure BootCovered (total : Nat) (image : KernelImage) (headerRg : MemMapRegion) (map : PhysMap) : Prop where
  covers : needed (pageTables total) ≤ budget (pageTables total)
  imageEnd : linear image.virtEndAddr < total
  headerStart : 4096 ∣ linear headerRg.baseAddr
  headerEnd : linear headerRg.baseAddr + headerRg.length < total
  last : ∃ e ∈ map.memBlocks.entries, e.type = e820MemTypeReserved ∧ e.baseAddr + e.length ≤ total ∧ e.Mem (total - 1)

/-- What the second part of `mm_init` needs to return. -/
structure BootGiven (fuel total k : Nat) (image : KernelImage) (headerRg : MemMapRegion) (ref : BuddyRef) (h : Header)
    (map : PhysMap) : Prop extends BootCovered total image headerRg map where
  enough : total ≤ fuel
  imageStart : virtAddrKernelStart ≤ image.virtEndAddr
  low : 12 ≤ k
  high : k ≤ ref.maxPowOrder
  fits : pagingCalcSpaceNeeded total ≤ 2 ^ k
  room : Room ref h k 2

/-- What `mm_init` leaves: the fixed blocks are those of the page table and those that hold what is set aside,
which still is as it was. -/
theorem MapSetup.kept (setup : MapSetup fuel rands image before memBlocks total headerRg ref h map)
    (aligned : ∀ e ∈ map.memBlocks.entries, e.type = e820MemTypeReserved →
      4096 ∣ e.baseAddr ∧ e.baseAddr + e.length < 2 ^ 64)
    (small : total < 2 ^ 40) (big : 4096 ≤ total) (wide : total ≤ 2 ^ w) (imageEnd : linear image.virtEndAddr < 2 ^ 40)
    (headerEnd : linear headerRg.baseAddr + headerRg.length < 2 ^ 40) :
    Delivers (BootGiven fuel total k image headerRg ref h map) (mmInit w fuel rands image before mem memBlocks) fun a =>
      (a.2 = map ∧ a.1.alloc = ref ∧ total = 2 ^ ref.maxPowOrder) ∧ ∃ P r fixed calls,
        KernelKept w P r fixed a.1 [] calls ∧ (∀ c ∈ calls, LinearCall c) ∧
        entries a.1.mem r (pml4Index virtAddrKernelStart) ≠ 0 ∧ (∀ x ∈ setAside ref.maxPowOrder map.memBlocks.entries, (∃ g ∈ fixed, g.owns x) ∧ x ∉ P.Bytes ∧ a.1.mem x = mem x) ∧
        (BootCovered total image headerRg map → Ample P r fixed a.1) ∧
        ∀ j n, 12 ≤ j → pagingCalcSpaceNeeded total ≤ 2 ^ j → Room ref h j (n + 2) → Room a.1.alloc a.1.header j n := by
  rw [setup.mmInit_eq]
  obtain ⟨b, stat, map₁, stat₁, -, -, -, -, alloc⟩ := setup
  obtain ⟨place, power, base, order, sized, slots, t, tidy, covered⟩ :=
    buddyAllocatorSetup_tidy alloc aligned small big headerEnd
  have wide' : ref.maxPowOrder ≤ w := (Nat.pow_le_pow_iff_right (show 1 < 2 by decide)).mp (power ▸ wide)
  obtain ⟨fixed, held, owned⟩ := Held.of_tidy tidy base
  have paged : BootCovered total image headerRg map → PagingCovered total image ⟨ref, h, mem, ⟨0, 0, ⟨0, 0⟩⟩⟩ fixed :=
    fun given => ⟨power, given.covers, given.imageEnd, owned _ (covered _ (power ▸ given.last))⟩
  refine Delivers.bind (pagingSetup_kept (s := ⟨ref, h, mem, ⟨0, 0, ⟨0, 0⟩⟩⟩) sized base order wide' slots held
    (by omega) (by omega) imageEnd) (fun given => ⟨paged given.toBootCovered, given.enough, given.imageStart,
      given.low, given.high, given.fits, given.room⟩) ?_
  rintro s ⟨same_alloc, P, r, pages, nodes, calls, kept, linears, ⟨c, there, page⟩, housed, same, stocks, room⟩
  -- the last range is that of the allocator's header
  have pa_header : pa headerRg.baseAddr = .ok (linear headerRg.baseAddr) := by
    rw [place, linear_start (by omega), pa_eq_ok_iff, Word.sub]
    unfold virtAddrKernelStart
    omega
  rw [pa_header, ok_bind, Word.add_of_lt (by omega)]
  have mapping : Delivers _ (pagingContiguousMap w bootBits fuel s.mem s.pgtable (linear headerRg.baseAddr)
      (linear headerRg.baseAddr + headerRg.length) (virtAddrKernelStart + linear headerRg.baseAddr)) _ :=
    kept.mapLinear (by decide) (by decide) (by decide) (Nat.le_add_right _ _) headerEnd
  rw [← place] at mapping
  have power' : total = 2 ^ s.alloc.maxPowOrder := by rw [same_alloc, power]
  refine Delivers.bind mapping (fun given => ⟨⟨stocks (paged given.toBootCovered), given.headerStart,
    power' ▸ given.headerEnd⟩, power' ▸ given.enough⟩) ?_
  rintro ⟨m, pgtable⟩ ⟨⟨new, row, after, writes⟩, stocks'⟩
  refine .ok ⟨⟨rfl, same_alloc, power⟩, P, r, _, _, after, List.forall_mem_append.mpr ⟨linears, row.linear⟩,
    root_of_walk ?_, fun x set => ?_, fun given => ?_, room⟩
  · have walked := after.table.walk_eq after.valid virtAddrKernelStart
    rw [after.table.physRoot] at walked
    rw [walked]
    exact firstWriter_ne_none (List.mem_append_left _ there) page
  · obtain ⟨g, memg, owns⟩ := owned x (covered x set)
    -- the blocks of the page table are others
    have out : Held s.alloc s.header ([nodes, pages] ++ fixed) := kept.held
    have apart : ¬ ∃ g ∈ [nodes, pages], g.owns x := by
      rintro ⟨g', mem', owns'⟩
      exact out.disjoint mem' memg owns' owns
    have off : x ∉ P.Bytes := fun pool => apart (housed x pool)
    refine ⟨⟨g, by simp [memg], owns⟩, off, ?_⟩
    dsimp only at writes ⊢
    rw [writes.same x fun there => there.elim off fun none => none, same x apart]
  · obtain ⟨g, memg, last⟩ := (paged given).last
    exact ⟨stocks' ⟨stocks (paged given), given.headerStart, power' ▸ given.headerEnd⟩, g, by simp [memg], power' ▸ last⟩

end Setup

/-- The bytes of the managed region that the memory map reserves. -/
def reservedBytes (s : KernelMem) (map : PhysMap) : Set Nat :=
  {x | x < s.alloc.contentMemReg.length ∧ ∃ e ∈ map.memBlocks.entries, e.type = e820MemTypeReserved ∧ e.Mem x}

/-- The bytes of the kernel's image. -/
def imageBytes (image : KernelImage) : Set Nat :=
  {x | linear image.virtStartAddr - elfTextOffset ≤ x ∧ x < linear image.virtEndAddr}

/-- The bytes of the allocator's header. -/
def headerBytes (s : KernelMem) : Set Nat :=
  {x | linear s.alloc.headerMemReg.baseAddr ≤ x ∧ x < linear s.alloc.headerMemReg.baseAddr + s.alloc.headerMemReg.length}

/-- The bytes of `k_mem_alloc`, `k_root_pgt` and `pid_map`. -/
def staticBytes (image : KernelImage) : Set Nat :=
  {x | ∃ v ∈ [(image.kMemAlloc, 42), (image.kRootPgt, 32), (image.pidMap, pidMax)], linear v.1 ≤ x ∧ x < linear v.1 + v.2}

/-- The bytes of the user program. -/
def programBytes : Set Nat := {x | programTextAddr ≤ x ∧ x < programTextAddr + 0x9000}

/-- A boot that goes well: `mm_init` returns, the image, the allocator's header and the memory that is managed lie
in the first 4 GiB, which the first page tables map, and the shift of a frame's number reaches all of that memory.
The reserved entries of the map it leaves begin on pages and lie inside the managed memory or outside of it; the
image with its variables and the header are in such entries, and so are, apart from both, the first page tables and
the user program. -/
structure Boots (w fuel : Nat) (rands : Nat → Nat → Nat) (image : KernelImage) (before : Header) (mem : Mem)
    (memBlocks : MemMapBlock) (s : KernelMem) (map : PhysMap) : Prop where
  run : mmInit w fuel rands image before mem memBlocks = .ok (s, map)
  aligned : ∀ e ∈ map.memBlocks.entries, e.type = e820MemTypeReserved →
    4096 ∣ e.baseAddr ∧ e.baseAddr + e.length < 2 ^ 64
  whole : ∀ e ∈ map.memBlocks.entries, e.type = e820MemTypeReserved →
    e.baseAddr + e.length ≤ s.alloc.contentMemReg.length ∨ s.alloc.contentMemReg.length ≤ e.baseAddr
  content : s.alloc.contentMemReg.length ≤ 2 ^ 32
  wide : s.alloc.contentMemReg.length ≤ 2 ^ w
  imageEnd : linear image.virtEndAddr ≤ 2 ^ 32
  headerEnd : linear s.alloc.headerMemReg.baseAddr + s.alloc.headerMemReg.length ≤ 2 ^ 32
  kernel : ∀ x < s.alloc.contentMemReg.length, x ∈ imageBytes image ∪ headerBytes s → x ∈ reservedBytes s map
  statics : staticBytes image ⊆ imageBytes image
  tables : Set.Ico Boot.pagingStartAddress Boot.pagingEndAddress ⊆ reservedBytes s map \ (imageBytes image ∪ headerBytes s)
  program : programBytes ⊆ reservedBytes s map \ (imageBytes image ∪ headerBytes s)

/-- The memory that is managed is 1 GiB or more, the image, the allocator's header and every block lie before
its last byte. -/
structure BootSupplied (image : KernelImage) (s : KernelMem) (map : PhysMap) : Prop where
  large : 2 ^ 30 ≤ s.alloc.contentMemReg.length
  imageEnd : linear image.virtEndAddr < s.alloc.contentMemReg.length
  headerStart : 4096 ∣ linear s.alloc.headerMemReg.baseAddr
  headerEnd : linear s.alloc.headerMemReg.baseAddr + s.alloc.headerMemReg.length < s.alloc.contentMemReg.length
  last : s.alloc.contentMemReg.length - 1 ∈ reservedBytes s map

/-- From 1 GiB on, a power of two is whole GiBs, which the pool suffices for. -/
theorem needed_le_budget_of_pow {m : Nat} (large : 2 ^ 30 ≤ 2 ^ m) (small : 2 ^ m ≤ 2 ^ 40) :
    needed (pageTables (2 ^ m)) ≤ budget (pageTables (2 ^ m)) := by
  rw [needed_le_budget_iff (pageTables_pos (Nat.two_pow_pos m)) (pageTables_le small)]
  have order : 30 ≤ m := (Nat.pow_le_pow_iff_right (show 1 < 2 by decide)).mp large
  obtain ⟨d, rfl⟩ := Nat.exists_eq_add_of_le order
  rw [Nat.pow_add]
  refine .inl ?_
  unfold pageTables
  omega

/-- The kernel after a boot that goes well. -/
theorem Boots.kept {w fuel : Nat} {rands : Nat → Nat → Nat} {image : KernelImage} {before : Header} {mem : Mem}
    {memBlocks : MemMapBlock} {s : KernelMem} {map : PhysMap} (boots : Boots w fuel rands image before mem memBlocks s map) :
    ∃ P r fixed calls, KernelKept w P r fixed s [] calls ∧ (∀ c ∈ calls, LinearCall c) ∧
      entries s.mem r (pml4Index virtAddrKernelStart) ≠ 0 ∧
      (∀ x ∈ reservedBytes s map, (∃ g ∈ fixed, g.owns x) ∧ x ∉ P.Bytes ∧ s.mem x = mem x) ∧
      (BootSupplied image s map → Ample P r fixed s) := by
  obtain ⟨total, headerRg, ref, h, setup, rfl, fits⟩ := mmInit_setup boots.run
  obtain ⟨b, stat, map₁, stat₁, -, -, -, -, alloc⟩ := id setup
  obtain ⟨header, region⟩ := buddyAllocatorSetup_regions alloc
  have content := Nat.lt_of_le_of_lt boots.content (show 2 ^ 32 < 2 ^ 40 by decide)
  have wide := boots.wide
  have headerEnd := Nat.lt_of_le_of_lt boots.headerEnd (show 2 ^ 32 < 2 ^ 40 by decide)
  have whole := boots.whole
  simp only [region, header] at content wide headerEnd whole fits
  have big : 4096 ≤ total := by
    rw [pagingCalcSpaceNeeded_eq (by omega)] at fits
    have := lt_budget (pageTables total)
    omega
  obtain ⟨⟨-, -, power⟩, P, r, fixed, calls, kept, linears, rooted, reserved, ample, -⟩ :=
    (setup.kept (k := 12) boots.aligned content big wide (Nat.lt_of_le_of_lt boots.imageEnd (by decide)) headerEnd).post _
      boots.run
  have set : ∀ x ∈ reservedBytes s map, x ∈ setAside s.alloc.maxPowOrder map.memBlocks.entries := by
    rintro x ⟨inside, e, mem, type, here⟩
    simp only [region] at inside
    refine ⟨e, mem, type, power ▸ (whole e mem type).resolve_right fun above => ?_, here⟩
    have := here.1
    omega
  refine ⟨P, r, fixed, calls, kept, linears, rooted, fun x mem => reserved x (set x mem), fun given => ample ?_⟩
  obtain ⟨large, imageEnd, headerStart, headerEnd, last⟩ := given
  simp only [region, header] at large imageEnd headerStart headerEnd last
  have here := set _ last
  rw [setAside, ← power] at here
  refine ⟨?_, imageEnd, headerStart, headerEnd, here⟩
  rw [power] at large content ⊢
  exact needed_le_budget_of_pow large (Nat.le_of_lt content)

/-- All that `mm_init` reads and writes, the first page tables translate as the linear map does, and it leaves them as
they are. -/
theorem Boots.translate {w fuel : Nat} {rands : Nat → Nat → Nat} {image : KernelImage} {before : Header} {mem : Mem}
    {memBlocks : MemMapBlock} {s : KernelMem} {map : PhysMap} (boots : Boots w fuel rands image before mem memBlocks s map)
    (built : Boot.Built mem) : Boot.Built s.mem ∧
      ∀ x, x < s.alloc.contentMemReg.length ∨ x ∈ imageBytes image ∪ headerBytes s →
        LongMode.translate mem Boot.pagingStartAddress (virtAddrKernelStart + x) = some x := by
  obtain ⟨P, r, fixed, calls, -, -, -, reserved, -⟩ := boots.kept
  refine ⟨built.congr fun x lower upper => (reserved x (boots.tables ⟨lower, upper⟩).1).2.2, fun x touched => ?_⟩
  have below : x < 2 ^ 32 := by
    rcases touched with inside | here | here
    · exact Nat.lt_of_lt_of_le inside boots.content
    · exact Nat.lt_of_lt_of_le here.2 boots.imageEnd
    · exact Nat.lt_of_lt_of_le here.2 boots.headerEnd
  have found := built.translate (a := x) (by omega) (.inr rfl)
  rwa [Nat.mod_eq_of_lt below] at found

/-! ### A machine with 2 GiB -/

/-- Memory from 1 MiB on, the last 128 KiB reserved. -/
def twoGib : MemMapBlock where
  numEntries := 2
  memRegion i := [⟨0x100000, 0x7fee0000, 1⟩, ⟨0x7ffe0000, 0x20000, e820MemTypeReserved⟩].getD i .zero

def twoGibImage : KernelImage where
  virtStartAddr := 0xffff800000201000
  virtEndAddr := 0xffff800000240000
  kMemAlloc := 0xffff800000230000
  kRootPgt := 0xffff800000230040
  pidMap := 0xffff800000230080

/-- The map before the allocator's header is taken out of it. -/
def twoGibReserved : Outcome PhysMap := do
  let (b, stat) ← memInit (fun _ => 0) twoGib
  reserveKernelSections (fun _ _ => 0) twoGibImage ⟨b, stat⟩

/-- The map with the allocator's header taken out. -/
def twoGibHeader : Outcome (MemMapRegion × MemMapBlock × MemPhysStats) := do
  let map ← twoGibReserved
  memAllocAmount (fun _ => 0) map.memBlocks map.physMemStat 0x1000000 pageSize

/-- The entries it leaves. -/
def twoGibEntries : List MemMapRegion :=
  [⟨0, 0x100000, e820MemTypeReserved⟩, ⟨0x100000, 0xfe000, 1⟩, ⟨0x1fe000, 0x1042000, e820MemTypeReserved⟩,
    ⟨0x1240000, 0x7eda0000, 1⟩, ⟨0x7ffe0000, 0x20000, e820MemTypeReserved⟩]

/-- The allocator's header. -/
def twoGibHeaderRg : MemMapRegion := ⟨0xffff800000240000, 0x1000000, e820MemTypeReserved⟩

theorem twoGib_region : BuddyRegion 31 twoGibHeaderRg (lowMemory 31) :=
  ⟨by decide, by decide, by decide, by decide, by decide, by decide +kernel, by decide⟩

theorem twoGib_setup (before : Header) : ∃ h t map, MapSetup (2 ^ 31) (fun _ _ => 0) twoGibImage before twoGib (2 ^ 31)
      twoGibHeaderRg ⟨twoGibHeaderRg, lowMemory 31, 31, 12⟩ h map ∧ map.memBlocks.entries = twoGibEntries ∧
      Tidy ⟨twoGibHeaderRg, lowMemory 31, 31, 12⟩ h t ∧ ∀ x, Covered 12 31 t x ↔ x ∈ setAside 31 twoGibEntries := by
  obtain ⟨map₁, reserved, amount⟩ := bind_eq_ok.mp (Outcome.eq_ok_of_isOk (x := twoGibHeader)
    (.zero, ⟨0, fun _ => .zero⟩, ⟨0, 0⟩) (by decide +kernel))
  obtain ⟨⟨b, stat⟩, init, reserve⟩ := bind_eq_ok.mp reserved
  have known : twoGibReserved.getD ⟨⟨0, fun _ => .zero⟩, ⟨0, 0⟩⟩ = map₁ := by
    rw [reserved]
    rfl
  have total : memStat map₁.physMemStat = .ok map₁.physMemStat ∧ 2 ^ 31 = flp2 map₁.physMemStat.physAvailMem := by
    rw [← known]
    decide +kernel
  generalize taken : twoGibHeader.getD (.zero, ⟨0, fun _ => .zero⟩, ⟨0, 0⟩) = answer at amount
  obtain ⟨rg, b', stat'⟩ := answer
  have entries : rg = ⟨0x240000, 0x1000000, e820MemTypeReserved⟩ ∧ b'.entries = twoGibEntries := by
    have first : rg = (twoGibHeader.getD (.zero, ⟨0, fun _ => .zero⟩, ⟨0, 0⟩)).1 := by rw [taken]
    have second : b' = (twoGibHeader.getD (.zero, ⟨0, fun _ => .zero⟩, ⟨0, 0⟩)).2.1 := by rw [taken]
    rw [first, second]
    decide +kernel
  obtain ⟨rfl, entries⟩ := entries
  have ordered : MapOrdered b' := by
    refine ⟨⟨?_, ?_, ?_⟩, ?_, ?_, ?_⟩ <;> rw [entries] <;> decide
  obtain ⟨h, t, kmem, tidy, covered⟩ := kmemInit_covered twoGib_region ordered before
    (show 2 ^ 31 / 4096 + 64 ≤ 2 ^ 31 by decide)
  refine ⟨h, t, ⟨b', stat'⟩, ⟨b, stat, map₁, _, init, reserve, total.1, total.2, ?_⟩, entries, tidy, entries ▸ covered⟩
  have space : buddyCalcHeaderSpace (2 ^ 31) = .ok 0x1000000 := by decide +kernel
  have place : va 0x240000 = .ok 0xffff800000240000 := by decide
  simp only [buddyAllocatorSetup, space, amount, place, ok_bind]
  exact bind_eq_ok.mpr ⟨_, kmem, rfl⟩

/-- Between 1 GiB and the reserved end, blocks of 8 MiB are free. -/
theorem twoGib_room {h : Header} {t : Marking} (tidy : Tidy ⟨twoGibHeaderRg, lowMemory 31, 31, 12⟩ h t)
    (covered : ∀ x, Covered 12 31 t x ↔ x ∈ setAside 31 twoGibEntries) :
    Room ⟨twoGibHeaderRg, lowMemory 31, 31, 12⟩ h 23 72 := by
  refine ⟨t, tidy, Finset.Ico 128 200, by decide, fun i mem => ?_⟩
  obtain ⟨lower, upper⟩ := Finset.mem_Ico.mp mem
  refine ⟨Nat.lt_of_lt_of_le upper (by decide), fun a here => ?_⟩
  rw [covered]
  rintro ⟨e, mem, type, -, inside⟩
  simp only [twoGibEntries, List.mem_cons, List.not_mem_nil, or_false] at mem
  unfold MemMapRegion.Mem at inside
  rcases mem with rfl | rfl | rfl | rfl | rfl
  · simp only at inside
    omega
  · cases type
  · simp only at inside
    omega
  · cases type
  · simp only at inside
    omega

/-- It boots. -/
theorem twoGib_boots (before : Header) (mem : Mem) : ∃ s map,
    Boots 36 (2 ^ 31) (fun _ _ => 0) twoGibImage before mem twoGib s map ∧ BootSupplied twoGibImage s map ∧
      s.alloc = ⟨twoGibHeaderRg, lowMemory 31, 31, 12⟩ ∧ Room s.alloc s.header 23 70 := by
  obtain ⟨h, t, map, setup, entries, tidy, covered⟩ := twoGib_setup before
  have room := twoGib_room tidy covered
  have aligned : ∀ e ∈ map.memBlocks.entries, e.type = e820MemTypeReserved →
      4096 ∣ e.baseAddr ∧ e.baseAddr + e.length < 2 ^ 64 := by
    rw [entries]
    decide
  have headerEnd : linear twoGibHeaderRg.baseAddr + twoGibHeaderRg.length < 2 ^ 31 := by decide
  have imageEnd : linear twoGibImage.virtEndAddr < 2 ^ 31 := by decide
  have boot : Delivers _ (mmInit 36 (2 ^ 31) (fun _ _ => 0) twoGibImage before mem twoGib) _ :=
    setup.kept (k := 23) aligned (by decide) (by decide) (by decide) (by decide) (by decide)
  have last : (⟨0x7ffe0000, 0x20000, e820MemTypeReserved⟩ : MemMapRegion) ∈ map.memBlocks.entries := by
    rw [entries]
    decide
  have given : BootGiven (2 ^ 31) (2 ^ 31) 23 twoGibImage twoGibHeaderRg ⟨twoGibHeaderRg, lowMemory 31, 31, 12⟩ h map :=
    { covers := by decide
      imageEnd := imageEnd
      headerStart := by decide
      headerEnd := headerEnd
      last := ⟨_, last, rfl, by decide, by decide, by decide⟩
      enough := Nat.le_refl _
      imageStart := by decide
      low := by decide
      high := by decide
      fits := by decide
      room := room.mono (by decide) }
  obtain ⟨⟨s, map'⟩, run⟩ := boot.returns given
  obtain ⟨⟨rfl, alloc, -⟩, P, r, fixed, calls, -, -, -, -, -, after⟩ := boot.post _ run
  dsimp only at alloc after
  have content : s.alloc.contentMemReg.length = 2 ^ 31 := by rw [alloc]; rfl
  have header : s.alloc.headerMemReg = twoGibHeaderRg := by rw [alloc]
  have inside : ∀ x ∈ imageBytes twoGibImage ∪ headerBytes s, 0x200000 ≤ x ∧ x < 0x1240000 := by
    rintro x (⟨lower, upper⟩ | ⟨lower, upper⟩)
    · rw [show linear twoGibImage.virtStartAddr - elfTextOffset = 0x200000 by decide] at lower
      rw [show linear twoGibImage.virtEndAddr = 0x240000 by decide] at upper
      omega
    · rw [header, show linear twoGibHeaderRg.baseAddr = 0x240000 by decide] at lower upper
      change x < 0x240000 + 0x1000000 at upper
      omega
  have low : ∀ x < 0x100000, x ∈ reservedBytes s map' \ (imageBytes twoGibImage ∪ headerBytes s) := fun x below =>
    ⟨⟨by rw [content]; omega, ⟨0, 0x100000, e820MemTypeReserved⟩, by rw [entries]; decide, rfl, Nat.zero_le x,
      by simpa using below⟩, fun here => by have := (inside x here).1; omega⟩
  refine ⟨s, _, ⟨run, aligned, ?_, ?_, ?_, by decide, ?_, fun x below here => ?_, ?_,
    fun x table => low x (table.2.trans (by decide)), fun x text => low x (Nat.lt_trans text.2 (by decide))⟩,
    ⟨?_, ?_, ?_, ?_, ?_⟩, alloc, after 23 70 (by decide) (by decide) room⟩
  · rw [entries, content]
    decide
  · rw [content]
    decide
  · rw [content]
    decide
  · rw [header]
    decide
  · obtain ⟨lower, upper⟩ := inside x here
    refine ⟨below, ⟨0x1fe000, 0x1042000, e820MemTypeReserved⟩, by rw [entries]; decide, rfl, ?_⟩
    unfold MemMapRegion.Mem
    simp only
    omega
  · rintro x ⟨v, mem, lower, upper⟩
    rw [imageBytes, Set.mem_ofPred_eq, show linear twoGibImage.virtStartAddr - elfTextOffset = 0x200000 by decide,
      show linear twoGibImage.virtEndAddr = 0x240000 by decide]
    have ends : ∀ v ∈ [(twoGibImage.kMemAlloc, 42), (twoGibImage.kRootPgt, 32), (twoGibImage.pidMap, pidMax)],
        0x200000 ≤ linear v.1 ∧ linear v.1 + v.2 ≤ 0x240000 := by decide
    have := ends v mem
    omega
  · rw [content]
    decide
  · rwa [content]
  · rw [header]
    decide
  · rwa [header, content]
  · rw [content]
    exact ⟨by rw [content]; decide, _, last, rfl, by decide, by decide⟩

end AlmeidaOS.Kernel
