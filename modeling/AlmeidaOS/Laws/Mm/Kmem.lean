import AlmeidaOS.Kernel.Mm.Kmem
import AlmeidaOS.Laws.Arch.Mem
import AlmeidaOS.Laws.Mm.BuddyRun
import AlmeidaOS.Laws.Mm.Pageframe

/-!
# Reserved memory and the kernel's allocator

`kmem_init` pre-allocates the reserved entries of the memory map that end inside the content region
and skips the others, so the bytes it sets aside are exactly those entries (`kmemInit_covered`). What
is set aside stays so: `kmalloc` takes blocks that were free, and `kfree` of a pointer `kmalloc` has
returned, however often, gives back a block around that pointer.

An entry that begins inside the region and ends outside it is skipped as a whole. Reserved memory is
never handed out exactly when the map has no such entry, if no reserved entry ends at the top of the
address space: there `base_addr + length` is 0, and the entry is taken for one inside the region.
-/

namespace AlmeidaOS.Kernel

open Blocks Marking

/-! ## Memory maps -/

/-- A memory map of page-aligned, non-empty entries in order, none overlapping the next, with no reserved
entry that ends at the top of the address space. -/
structure MapOrdered (memBlocks : MemMapBlock) : Prop extends Laid (2 ^ 64) memBlocks.entries where
  base : ∀ e ∈ memBlocks.entries, 4096 ∣ e.baseAddr
  length : ∀ e ∈ memBlocks.entries, 4096 ∣ e.length
  ends : ∀ e ∈ memBlocks.entries, e.type = e820MemTypeReserved → e.baseAddr + e.length < 2 ^ 64

/-- The allocator's content region: the first `2 ^ m` bytes of memory. -/
def lowMemory (m : Nat) : MemMapRegion := ⟨0, 2 ^ m, 0⟩

/-- The entries `mem_proc_handler` sets aside. -/
def setAside (m : Nat) (entries : List MemMapRegion) : Set Nat :=
  {x | ∃ e ∈ entries, e.type = e820MemTypeReserved ∧ e.baseAddr + e.length ≤ 2 ^ m ∧ e.Mem x}

theorem mem_setAside_cons {m x : Nat} {e : MemMapRegion} {entries : List MemMapRegion} :
    x ∈ setAside m (e :: entries) ↔
      (e.type = e820MemTypeReserved ∧ e.baseAddr + e.length ≤ 2 ^ m ∧ e.Mem x) ∨ x ∈ setAside m entries := by
  constructor
  · rintro ⟨f, mem, set⟩
    rcases List.mem_cons.mp mem with rfl | mem
    · exact .inl set
    · exact .inr ⟨f, mem, set⟩
  · rintro (set | ⟨f, mem, set⟩)
    · exact ⟨e, List.mem_cons_self .., set⟩
    · exact ⟨f, List.mem_cons_of_mem _ mem, set⟩

section Init

variable {ref : BuddyRef} (sized : Sized ref) (base : ref.contentMemReg.baseAddr = 0)

include sized base

/-- An entry that ends inside the region is set aside. -/
theorem memProcHandler_taken {fuel : Nat} {e : MemMapRegion} (baseDvd : 4096 ∣ e.baseAddr) (lengthDvd : 4096 ∣ e.length)
    (pos : 0 < e.length) (bounded : e.baseAddr + e.length < 2 ^ 64) (inside : e.baseAddr + e.length ≤ 2 ^ ref.maxPowOrder)
    (enough : 2 ^ ref.maxPowOrder / 4096 + 64 ≤ fuel) {h : Header} {t : Marking} (tidy : Tidy ref h t)
    (free : ∀ x, e.Mem x → ¬ Covered 12 ref.maxPowOrder t x) :
    ∃ h' t', memProcHandler ref fuel h e = .ok h' ∧ Tidy ref h' t' ∧
      ∀ x, Covered 12 ref.maxPowOrder t' x ↔ Covered 12 ref.maxPowOrder t x ∨ e.Mem x := by
  have whole := pages_of_dvd lengthDvd
  have ends : ref.contentMemReg.baseAddr + 2 ^ ref.maxPowOrder < 2 ^ 64 := by
    have := Nat.pow_lt_pow_right (show 1 < 2 by decide) sized.lt
    omega
  have vacant : Vacant 12 ref.maxPowOrder t e.baseAddr (pages e.length) := by
    refine .of_coalesced tidy.coalesced fun x lower upper => ?_
    rw [whole] at upper
    exact free x ⟨lower, upper⟩
  have fuel_le : pages e.length / 4096 + 64 ≤ fuel := by
    have : e.length / 4096 ≤ 2 ^ ref.maxPowOrder / 4096 := Nat.div_le_div_right (by omega)
    rw [whole]
    omega
  obtain ⟨h', run⟩ := buddyPreAlloc_returns sized ends fuel e.baseAddr e.length tidy.rep tidy.wf pos
    baseDvd (by rw [whole]; exact inside) vacant fuel_le
  obtain ⟨t', rep, reserves⟩ := buddyPreAlloc_reserves sized ends fuel tidy.rep tidy.wf pos baseDvd
    (by rw [whole]; exact inside) run
  refine ⟨h', t', ?_, tidy.reserved rep reserves, fun x => ?_⟩
  · rw [memProcHandler, Word.add_of_lt bounded, sized.length, if_pos inside]
    rwa [base, Nat.zero_add] at run
  · rw [reserves.covered_iff, whole]
    rfl

/-- One entry of the map. -/
theorem memProcHandler_covered {fuel : Nat} {e : MemMapRegion} (baseDvd : 4096 ∣ e.baseAddr) (lengthDvd : 4096 ∣ e.length)
    (pos : 0 < e.length) (ends : e.type = e820MemTypeReserved → e.baseAddr + e.length < 2 ^ 64)
    (enough : 2 ^ ref.maxPowOrder / 4096 + 64 ≤ fuel) {h : Header} {t : Marking} (tidy : Tidy ref h t) (free : ∀ x, e.Mem x → ¬ Covered 12 ref.maxPowOrder t x) :
    ∃ h' t', (if e.type = e820MemTypeReserved then memProcHandler ref fuel h e else pure h) = .ok h' ∧ Tidy ref h' t' ∧
      ∀ x, Covered 12 ref.maxPowOrder t' x ↔ Covered 12 ref.maxPowOrder t x ∨
        (e.type = e820MemTypeReserved ∧ e.baseAddr + e.length ≤ 2 ^ ref.maxPowOrder ∧ e.Mem x) := by
  by_cases type : e.type = e820MemTypeReserved
  · rw [if_pos type]
    by_cases inside : e.baseAddr + e.length ≤ 2 ^ ref.maxPowOrder
    · obtain ⟨h', t', run, tidy', covered⟩ :=
        memProcHandler_taken sized base baseDvd lengthDvd pos (ends type) inside enough tidy free
      refine ⟨h', t', run, tidy', fun x => (covered x).trans (or_congr_right ?_)⟩
      exact ⟨fun here => ⟨type, inside, here⟩, fun set => set.2.2⟩
    · refine ⟨h, t, ?_, tidy, fun x => (or_iff_left fun set => inside set.2.1).symm⟩
      rw [memProcHandler, Word.add_of_lt (ends type), sized.length, if_neg inside]
      rfl
  · rw [if_neg type]
    exact ⟨h, t, rfl, tidy, fun x => (or_iff_left fun set => type set.1).symm⟩

/-- The loop over the entries: what is covered afterwards was covered before or is set aside. -/
theorem memListEntries_covered {fuel : Nat} (entries : List MemMapRegion)
    (aligned : ∀ e ∈ entries, 4096 ∣ e.baseAddr ∧ 4096 ∣ e.length ∧ 0 < e.length ∧
      (e.type = e820MemTypeReserved → e.baseAddr + e.length < 2 ^ 64))
    (sorted : entries.Pairwise fun e f => e.baseAddr + e.length ≤ f.baseAddr)
    (enough : 2 ^ ref.maxPowOrder / 4096 + 64 ≤ fuel) {h : Header} {t : Marking} (tidy : Tidy ref h t)
    (free : ∀ e ∈ entries, ∀ x, e.Mem x → ¬ Covered 12 ref.maxPowOrder t x) :
    ∃ h' t', entries.foldlM (fun h e => if e.type = e820MemTypeReserved then memProcHandler ref fuel h e
        else pure h) h = .ok h' ∧ Tidy ref h' t' ∧
      ∀ x, Covered 12 ref.maxPowOrder t' x ↔
        Covered 12 ref.maxPowOrder t x ∨ x ∈ setAside ref.maxPowOrder entries := by
  induction entries generalizing h t with
  | nil =>
    refine ⟨h, t, rfl, tidy, fun x => (or_iff_left ?_).symm⟩
    rintro ⟨e, mem, -⟩
    cases mem
  | cons e entries ih =>
    rw [List.forall_mem_cons] at aligned free
    rw [List.pairwise_cons] at sorted
    obtain ⟨⟨baseDvd, lengthDvd, pos, ends⟩, rest⟩ := aligned
    obtain ⟨h₁, t₁, first, tidy₁, covered₁⟩ :=
      memProcHandler_covered sized base baseDvd lengthDvd pos ends enough tidy free.1
    have free₁ : ∀ f ∈ entries, ∀ x, f.Mem x → ¬ Covered 12 ref.maxPowOrder t₁ x := by
      intro f mem x here covered
      rcases (covered₁ x).mp covered with old | ⟨-, -, there⟩
      · exact free.2 f mem x here old
      · have := sorted.1 f mem
        obtain ⟨_, _⟩ := here
        obtain ⟨_, _⟩ := there
        omega
    obtain ⟨h', t', more, tidy', covered⟩ := ih rest sorted.2 tidy₁ free₁
    refine ⟨h', t', ?_, tidy', fun x => ?_⟩
    · rw [List.foldlM_cons, first, ok_bind, more]
    · rw [covered x, covered₁ x, mem_setAside_cons, or_assoc]

end Init

theorem kmemInit_sized {m : Nat} {headerRg : MemMapRegion}
    (region : BuddyRegion m headerRg (lowMemory m)) : Sized ⟨headerRg, lowMemory m, m, 12⟩ := by
  have init : buddyInit ⟨fun _ => .zero⟩ headerRg (lowMemory m) = .ok _ :=
    buddyInit_eq region.word region.length _
  exact region.sized init

/-- `kmem_init` returns, and the used blocks of its header hold exactly what it set aside. -/
theorem kmemInit_covered {m fuel : Nat} {headerRg : MemMapRegion} {memBlocks : MemMapBlock}
    (region : BuddyRegion m headerRg (lowMemory m)) (map : MapOrdered memBlocks) (before : Header)
    (enough : 2 ^ m / 4096 + 64 ≤ fuel) :
    ∃ h t, kmemInit fuel before memBlocks headerRg (lowMemory m) =
        .ok (⟨headerRg, lowMemory m, m, 12⟩, h) ∧ Tidy ⟨headerRg, lowMemory m, m, 12⟩ h t ∧
      ∀ x, Covered 12 m t x ↔ x ∈ setAside m memBlocks.entries := by
  obtain ⟨⟨ref, h₀⟩, init⟩ : ∃ r, buddyInit before headerRg (lowMemory m) = .ok r :=
    ⟨_, buddyInit_eq region.word region.length before⟩
  have sized := region.sized init
  obtain rfl := region.ref_eq init
  have fresh : ∀ x, ¬ Covered 12 m (freshMarking m) x := by
    rintro x ⟨k, -, -, used⟩
    exact freshMarking_used used
  obtain ⟨h, t, run, tidy, covered⟩ := memListEntries_covered sized rfl memBlocks.entries
    (fun e mem => ⟨map.base e mem, map.length e mem, map.nonempty e mem, map.ends e mem⟩) map.sorted
    enough (region.tidy init) fun e _ x _ => fresh x
  refine ⟨h, t, ?_, tidy, fun x => (covered x).trans (or_iff_right (fresh x))⟩
  rw [kmemInit, init, ok_bind]
  simp only [memListEntries]
  rw [run]
  rfl

/-! ## Runs -/

/-- The state and the pointers `kmalloc` has returned. -/
structure KmemRun where
  state : KernelMem
  returned : List Nat

/-- One call that returns: `kmalloc`, or `kfree` of a pointer `kmalloc` has returned. In between the
rest of the kernel may write memory and change the page table. -/
inductive KmemStep (shiftBits : Nat) (r : KmemRun) : KmemRun → Prop
  | malloc {fuel bytes flags ptr : Nat} {s : KernelMem}
      (run : kmalloc shiftBits fuel r.state bytes flags = .ok (ptr, s)) :
      KmemStep shiftBits r ⟨s, ptr :: r.returned⟩
  | free {fuel ptr : Nat} {s : KernelMem} (ours : ptr ∈ r.returned)
      (run : kfree fuel r.state ptr = .ok s) : KmemStep shiftBits r ⟨s, r.returned⟩
  | rest (mem : Mem) (pgtable : PageTable) :
      KmemStep shiftBits r ⟨{ r.state with mem := mem, pgtable := pgtable }, r.returned⟩

theorem linear_va {p ptr : Nat} (run : va p = .ok ptr) : linear ptr = p := by
  rw [va, bugOn_bind_eq_ok] at run
  obtain ⟨low, same⟩ := run
  rw [show physAddrMaxBoundary = 2 ^ 48 - 1 by decide] at low
  rw [← Except.ok.inj same]
  unfold linear Word.sub Word.add virtAddrKernelStart
  omega

theorem pa_eq {ptr p : Nat} (run : pa ptr = .ok p) : p = linear ptr := by
  rw [pa, bugOn_bind_eq_ok] at run
  exact (Except.ok.inj run.2).symm

/-- What `kmalloc` does to the allocator. -/
theorem kmalloc_alloc {shiftBits fuel bytes flags ptr : Nat} {s s' : KernelMem}
    (run : kmalloc shiftBits fuel s bytes flags = .ok (ptr, s')) :
    s'.alloc = s.alloc ∧ ∃ p, buddyAlloc s.alloc fuel s.header bytes = .ok (p, s'.header) ∧
      va p = .ok ptr := by
  obtain ⟨⟨p, h⟩, alloc, run⟩ := bind_eq_ok.mp run
  obtain ⟨v, address, run⟩ := bind_eq_ok.mp run
  split at run
  · obtain ⟨⟨mem, pgtable⟩, -, run⟩ := bind_eq_ok.mp run
    cases run
    exact ⟨rfl, p, alloc, address⟩
  · cases run
    exact ⟨rfl, p, alloc, address⟩

section Runs

variable {ref : BuddyRef} (sized : Sized ref) (base : ref.contentMemReg.baseAddr = 0)

/-- What was used at the start stays used, and no pointer returned lies in it. -/
structure Keeps (ref : BuddyRef) (t₀ : Marking) (r : KmemRun) : Prop where
  alloc : r.state.alloc = ref
  tidy : ∃ t, Tidy ref r.state.header t ∧ ∀ k i, t₀ k i = some .used → t k i = some .used
  apart : ∀ ptr ∈ r.returned, linear ptr < 2 ^ ref.maxPowOrder ∧
    ¬ Covered 12 ref.maxPowOrder t₀ (linear ptr)

include sized base

/-- The block `kmalloc` returns was set aside by nobody. -/
theorem Keeps.malloc {t₀ : Marking} {r : KmemRun} (keeps : Keeps ref t₀ r)
    {shiftBits fuel bytes flags ptr : Nat} {s : KernelMem}
    (run : kmalloc shiftBits fuel r.state bytes flags = .ok (ptr, s)) :
    Keeps ref t₀ ⟨s, ptr :: r.returned⟩ ∧
      (∀ x, (⟨linear ptr, bytes⟩ : Grant).owns x → ¬ Covered 12 ref.maxPowOrder t₀ x) ∧
      ∀ x, (⟨linear ptr, bytes⟩ : Grant).owns x → x < 2 ^ ref.maxPowOrder := by
  obtain ⟨t, tidy, grow⟩ := keeps.tidy
  obtain ⟨same, p, alloc, address⟩ := kmalloc_alloc run
  rw [keeps.alloc] at same alloc
  obtain ⟨t', k, i, tidy', at_, least, -, place, unused, used⟩ := buddyAlloc_spec sized tidy alloc
  have here : linear ptr = i * 2 ^ k := by
    rw [linear_va address, place, base, Nat.zero_add]
  have order : (⟨linear ptr, bytes⟩ : Grant).order = k :=
    (Grant.order_least ⟨linear ptr, bytes⟩).unique least
  have off : ∀ x, x / 2 ^ k = i → ¬ Covered 12 ref.maxPowOrder t₀ x := by
    rintro x rfl ⟨j, low, high, old⟩
    have still := grow _ _ old
    obtain rfl := tidy'.wf.used_unique low at_.low high at_.high ((used _ _).mpr (.inl still))
      ((used _ _).mpr (.inr ⟨rfl, rfl⟩))
    exact unused still
  have bound := at_.end_le
  have pos := Nat.two_pow_pos k
  have block : ∀ x, (⟨linear ptr, bytes⟩ : Grant).owns x → i * 2 ^ k ≤ x ∧ x < i * 2 ^ k + 2 ^ k := by
    rintro x ⟨lower, upper⟩
    rw [order] at upper
    rw [← here]
    exact ⟨lower, upper⟩
  refine ⟨⟨same, ⟨t', tidy', fun j f old => (used j f).mpr (.inl (grow j f old))⟩, fun q mem => ?_⟩,
    fun x owned => off x ?_, fun x owned => ?_⟩
  · rcases List.mem_cons.mp mem with rfl | mem
    · exact ⟨by omega, off _ (by rw [here, Nat.mul_div_cancel i pos])⟩
    · exact keeps.apart q mem
  · have := block x owned
    exact Nat.div_eq_of_lt_le (by omega) (by rw [Nat.succ_mul]; omega)
  · have := block x owned
    omega

/-- `kfree` of a pointer that was returned gives back none of what was set aside. -/
theorem Keeps.free {t₀ : Marking} {r : KmemRun} (keeps : Keeps ref t₀ r) {fuel ptr : Nat} {s : KernelMem}
    (ours : ptr ∈ r.returned) (run : kfree fuel r.state ptr = .ok s) : Keeps ref t₀ ⟨s, r.returned⟩ := by
  obtain ⟨t, tidy, grow⟩ := keeps.tidy
  obtain ⟨inside, off⟩ := keeps.apart ptr ours
  obtain ⟨p, address, run⟩ := bind_eq_ok.mp run
  obtain ⟨h, free, run⟩ := bind_eq_ok.mp run
  cases run
  rw [keeps.alloc, pa_eq address] at free
  obtain ⟨k, i, t', at_, used, found, tidy', same⟩ := buddyFree_spec sized tidy free
  rw [show linear ptr = ref.contentMemReg.baseAddr + linear ptr by omega] at found
  obtain ⟨j, atj, -, slot⟩ := findSlotByAddr_inside sized tidy inside found
  obtain ⟨rfl, rfl⟩ := slotAddr_inj at_ atj slot
  refine ⟨keeps.alloc, ⟨t', tidy', fun j f old => (same j f).mpr ⟨grow j f old, ?_⟩⟩, keeps.apart⟩
  rintro ⟨rfl, rfl⟩
  exact off ⟨j, at_.low, at_.high, old⟩

theorem Keeps.run {t₀ : Marking} {shiftBits : Nat} {r r' : KmemRun} (keeps : Keeps ref t₀ r)
    (run : Relation.ReflTransGen (KmemStep shiftBits) r r') : Keeps ref t₀ r' := by
  refine run_invariant (P := Keeps ref t₀) run keeps fun a b keeps step => ?_
  cases step with
  | malloc run => exact (keeps.malloc sized base run).1
  | free ours run => exact keeps.free sized base ours run
  | rest mem pgtable => exact ⟨keeps.alloc, keeps.tidy, keeps.apart⟩

end Runs

/-! ## Reserved memory is never handed out -/

/-- Reserved memory is kept: `kmem_init` returns, every page of the content region that meets a
reserved entry lies in a used block, and in every later run no block `kmalloc` returns meets one. -/
def ReservedKept (shiftBits m : Nat) (before : Header) (memBlocks : MemMapBlock)
    (headerRg : MemMapRegion) : Prop :=
  ∃ n, ∀ fuel, n ≤ fuel → ∃ ref h,
    kmemInit fuel before memBlocks headerRg (lowMemory m) = .ok (ref, h) ∧
    (∀ e ∈ memBlocks.entries, e.type = e820MemTypeReserved → ∀ x, 4096 ∣ x → x < 2 ^ m →
      (∃ y, x ≤ y ∧ y < x + 4096 ∧ e.Mem y) →
      ∃ base order, UsedBlock ref h base order ∧ base ≤ x ∧ x + 4096 ≤ base + 2 ^ order) ∧
    ∀ mem pgtable r, Relation.ReflTransGen (KmemStep shiftBits) ⟨⟨ref, h, mem, pgtable⟩, []⟩ r →
      ∀ fuel bytes flags ptr s, kmalloc shiftBits fuel r.state bytes flags = .ok (ptr, s) →
      ∀ e ∈ memBlocks.entries, e.type = e820MemTypeReserved →
      ∀ x, (⟨linear ptr, bytes⟩ : Grant).owns x → ¬ e.Mem x

/-- A page lies in a used block when its first byte is covered. -/
theorem covered_iff_usedBlock {ref : BuddyRef} (base : ref.contentMemReg.baseAddr = 0)
    (slots : headerSlots ref = 2 ^ (ref.maxPowOrder - 11)) {h : Header} {t : Marking} (tidy : Tidy ref h t)
    {x : Nat} (aligned : 4096 ∣ x) : Covered 12 ref.maxPowOrder t x ↔
      ∃ base order, UsedBlock ref h base order ∧ base ≤ x ∧ x + 4096 ≤ base + 2 ^ order := by
  constructor
  · rintro ⟨k, low, high, used⟩
    refine ⟨x / 2 ^ k * 2 ^ k, k, ?_, Nat.div_mul_le_self x _, ?_⟩
    · rw [usedBlock_iff slots tidy.rep]
      exact ⟨_, ⟨low, high, tidy.wf.index_lt low high used⟩, used, by rw [base, Nat.zero_add]⟩
    · have last : (x + 4095) / 2 ^ k = x / 2 ^ k := page_div aligned (by decide) low
      have := Nat.lt_div_mul_add (a := x + 4095) (Nat.two_pow_pos k)
      rw [last] at this
      omega
  · rintro ⟨b, k, block, lower, upper⟩
    obtain ⟨i, at_, used, rfl⟩ := (usedBlock_iff slots tidy.rep).mp block
    refine ⟨k, at_.low, at_.high, ?_⟩
    rw [base, Nat.zero_add] at lower upper
    rwa [Nat.div_eq_of_lt_le (by omega) (by rw [Nat.succ_mul]; omega)]

/-- **Reserved memory is kept exactly when no reserved entry straddles the end of the content
region.** -/
theorem reserved_kept_iff_no_straddling_entry {shiftBits m : Nat} {before : Header}
    {memBlocks : MemMapBlock} {headerRg : MemMapRegion} (region : BuddyRegion m headerRg (lowMemory m))
    (map : MapOrdered memBlocks) :
    ReservedKept shiftBits m before memBlocks headerRg ↔
      ∀ e ∈ memBlocks.entries, e.type = e820MemTypeReserved →
        e.baseAddr + e.length ≤ 2 ^ m ∨ 2 ^ m ≤ e.baseAddr := by
  have slots : headerSlots ⟨headerRg, lowMemory m, m, 12⟩ = 2 ^ (m - 11) := by
    show headerRg.length / 16 = _
    rw [region.header_length, Nat.mul_div_cancel_left _ (by decide)]
  have paged : 4096 ∣ 2 ^ m := page_dvd_two_pow region.order
  constructor
  · rintro ⟨n, kept⟩ e mem type
    obtain ⟨ref, h, run, pages, -⟩ := kept (max n (2 ^ m / 4096 + 64)) (Nat.le_max_left _ _)
    obtain ⟨h', t, run', tidy, covered⟩ := kmemInit_covered region map before
      (Nat.le_max_right n (2 ^ m / 4096 + 64))
    cases run.symm.trans run'
    by_contra straddles
    have base := map.base e mem
    have pos := map.nonempty e mem
    -- the last page of the region meets the entry, and nobody has set it aside
    have last : e.Mem (2 ^ m - 4096) := ⟨by omega, by omega⟩
    obtain ⟨f, memf, -, inside, here⟩ : 2 ^ m - 4096 ∈ setAside m memBlocks.entries := by
      rw [← covered, covered_iff_usedBlock rfl slots tidy (by omega)]
      exact pages e mem type _ (by omega) (by omega) ⟨2 ^ m - 4096, Nat.le_refl _, by omega, last⟩
    obtain ⟨_, _⟩ := last
    obtain ⟨_, _⟩ := here
    rcases map.apart mem memf with rfl | apart
    · omega
    · omega
  · intro clear
    refine ⟨2 ^ m / 4096 + 64, fun fuel enough => ?_⟩
    obtain ⟨h, t, run, tidy, covered⟩ := kmemInit_covered region map before enough
    have taken : ∀ e ∈ memBlocks.entries, e.type = e820MemTypeReserved → ∀ x, x < 2 ^ m → e.Mem x →
        Covered 12 m t x := by
      intro e mem type x low here
      refine (covered x).mpr ⟨e, mem, type, (clear e mem type).resolve_right fun above => ?_, here⟩
      have := here.1
      omega
    refine ⟨_, h, run, fun e mem type x aligned low meets => ?_, fun mem pgtable r run fuel bytes flags ptr s
      malloc e memE type x owned here => ?_⟩
    · rw [← covered_iff_usedBlock rfl slots tidy aligned]
      obtain ⟨y, lower, upper, here⟩ := meets
      obtain ⟨_, _⟩ := here
      have := map.base e mem
      have := map.length e mem
      exact taken e mem type x low ⟨by omega, by omega⟩
    · have sized := kmemInit_sized region
      have start : Keeps ⟨headerRg, lowMemory m, m, 12⟩ t ⟨⟨_, h, mem, pgtable⟩, []⟩ :=
        ⟨rfl, ⟨t, tidy, fun _ _ used => used⟩, fun _ none => absurd none (List.not_mem_nil)⟩
      obtain ⟨-, off, inside⟩ := (start.run sized rfl run).malloc sized rfl malloc
      exact off x owned (taken e memE type x (inside x owned) here)

/-! ### Two pages of memory -/

theorem lowMemory_region : BuddyRegion 13 twoPagesHeader (lowMemory 13) :=
  ⟨by decide, by decide, by decide, by decide, by decide, by decide +kernel, by decide⟩

/-- A reserved entry of `length` bytes from the second page on. -/
def reservedFrom (length : Nat) : MemMapBlock := ⟨1, fun _ => ⟨0x1000, length, e820MemTypeReserved⟩⟩

theorem mem_reservedFrom {length : Nat} {e : MemMapRegion} (mem : e ∈ (reservedFrom length).entries) :
    e = ⟨0x1000, length, e820MemTypeReserved⟩ := List.mem_singleton.mp mem

/-- The second page alone is reserved: it is kept. -/
theorem reserved_kept_second_page :
    ReservedKept 64 13 ⟨fun _ => .zero⟩ (reservedFrom 0x1000) twoPagesHeader := by
  have map : MapOrdered (reservedFrom 0x1000) :=
    { base := fun e mem => by obtain rfl := mem_reservedFrom mem; decide
      length := fun e mem => by obtain rfl := mem_reservedFrom mem; decide
      nonempty := fun e mem => by obtain rfl := mem_reservedFrom mem; decide
      bounded := fun e mem => by obtain rfl := mem_reservedFrom mem; decide
      ends := fun e mem _ => by obtain rfl := mem_reservedFrom mem; decide
      sorted := List.pairwise_singleton _ _ }
  refine (reserved_kept_iff_no_straddling_entry lowMemory_region map).mpr fun e mem _ => .inl ?_
  obtain rfl := mem_reservedFrom mem
  decide

/-- The kernel's memory after `kmem_init` on two pages with nothing set aside. -/
def lowMemoryInit : KernelMem where
  alloc := ⟨twoPagesHeader, lowMemory 13, 13, 12⟩
  header := Header.write ⟨fun _ => .zero⟩ (gotoPorderIdx ⟨twoPagesHeader, lowMemory 13, 13, 12⟩ 13)
    ⟨0, 13, .unused⟩
  mem := ⟨fun _ => 0⟩
  pgtable := ⟨0, 0, ⟨0, 0⟩⟩

/-- The reserved entry goes one page beyond the content region: `kmem_init` skips it, and a request
for both pages is served with a block that holds its first page. -/
theorem straddling_entry_is_handed_out :
    ¬ ReservedKept 64 13 ⟨fun _ => .zero⟩ (reservedFrom 0x2000) twoPagesHeader := by
  rintro ⟨n, kept⟩
  obtain ⟨ref, h, init, -, later⟩ := kept n (Nat.le_refl n)
  have skipped : kmemInit n ⟨fun _ => .zero⟩ (reservedFrom 0x2000) twoPagesHeader (lowMemory 13) =
      .ok (lowMemoryInit.alloc, lowMemoryInit.header) := by
    rw [kmemInit, buddyInit_eq lowMemory_region.word lowMemory_region.length]
    simp only [ite_self]
    rfl
  cases init.symm.trans skipped
  obtain ⟨⟨ptr, s⟩, malloc, first⟩ : ∃ r, kmalloc 64 80 lowMemoryInit 8192 kmemRawAlloc = .ok r ∧
      linear r.1 = 0 :=
    ⟨_, Outcome.eq_ok_of_isOk (0, lowMemoryInit) (by decide +kernel), by decide +kernel⟩
  refine later lowMemoryInit.mem lowMemoryInit.pgtable _ .refl 80 8192 kmemRawAlloc ptr s malloc
    ⟨0x1000, 0x2000, e820MemTypeReserved⟩ (List.mem_singleton.mpr rfl) rfl 0x1000 ?_
    ⟨by decide, by decide⟩
  rw [first]
  exact ⟨by decide, by decide +kernel⟩

end AlmeidaOS.Kernel
