import Mathlib.Order.Bounds.Basic
import AlmeidaOS.Kernel.Mm.BuddyClient
import AlmeidaOS.Laws.Mm.BuddyPreAlloc

/-!
# Whole runs of the buddy allocator

`Owned ref s t` ties the caller's books to the marking the header writes down: every grant is a
used block of its own, every pinned page lies in a used block that is no grant. Each call keeps it
(`Owned.step`), so every state of a run has it.

* `buddy_grants_disjoint`: blocks handed out lie in the region, are aligned, and meet neither one
  another nor a pinned page. A page inside a live block is not pinned by pre-allocating it, and a
  region that ends at the top of the address space pins the wrong page:
  `buddy_preAlloc_shares_a_live_block`.
* `buddy_header_canonical`: the header is a function of the used blocks alone.
-/

namespace AlmeidaOS.Kernel

open Blocks (Mark Marking)
open Blocks.Marking

/-! ## Grants -/

theorem Grant.order_least (g : Grant) : IsLeast {k | 12 ≤ k ∧ g.bytes ≤ 2 ^ k} g.order := by
  constructor
  · refine ⟨Nat.le_max_left _ _, (Nat.le_pow_clog Nat.one_lt_two _).trans ?_⟩
    exact Nat.pow_le_pow_right (by decide) (Nat.le_max_right _ _)
  · rintro k ⟨low, fits⟩
    exact Nat.max_le.mpr ⟨low, (Nat.clog_le_iff_le_pow (by decide)).mpr fits⟩

/-- The bytes from one block's base to its end are the units with its index. -/
theorem mem_block_iff {base k i a : Nat} :
    base + i * 2 ^ k ≤ base + a ∧ base + a < base + i * 2 ^ k + 2 ^ k ↔ a / 2 ^ k = i := by
  have lower := Nat.div_mul_le_self a (2 ^ k)
  have upper := Nat.lt_div_mul_add (a := a) (Nat.two_pow_pos k)
  constructor
  · intro inside
    exact Nat.div_eq_of_lt_le (by omega) (by rw [Nat.succ_mul]; omega)
  · rintro rfl
    omega

theorem Grant.owns_iff {g : Grant} {base i a : Nat} (at_ : g.ptr = base + i * 2 ^ g.order) :
    g.owns (base + a) ↔ a / 2 ^ g.order = i := by
  unfold Grant.owns
  rw [at_]
  exact mem_block_iff

/-- The units of a page lie in the same blocks as its first. -/
theorem page_div {a j k : Nat} (aligned : 4096 ∣ a) (short : j < 4096) (low : 12 ≤ k) :
    (a + j) / 2 ^ k = a / 2 ^ k := by
  rw [← div_pow_sub low, ← div_pow_sub low]
  congr 1
  show (a + j) / 4096 = a / 4096
  omega

/-! ## Setting up -/

section Setup

variable {m : Nat} {hMemReg cMemReg : MemMapRegion} {before h₀ : Header} {ref : BuddyRef}
  (region : BuddyRegion m hMemReg cMemReg) (init : buddyInit before hMemReg cMemReg = .ok (ref, h₀))

include region

theorem BuddyRegion.header_length : hMemReg.length = 16 * 2 ^ (m - 11) := by
  have header := region.header
  rw [region.length, buddyCalcHeaderSpace_eq region.order region.word] at header
  exact (Except.ok.inj header).symm

include init

theorem BuddyRegion.ref_eq : ref = ⟨hMemReg, cMemReg, m, 12⟩ := by
  rw [buddyInit_eq region.word region.length] at init
  cases init
  rfl

theorem BuddyRegion.content_eq : ref.contentMemReg = cMemReg := by rw [region.ref_eq init]

theorem BuddyRegion.max_eq : ref.maxPowOrder = m := by rw [region.ref_eq init]

theorem BuddyRegion.sized : Sized ref := by
  rw [region.ref_eq init]
  refine ⟨rfl, region.order, region.word, region.length, region.content, ?_⟩
  have := region.space
  rwa [region.header_length] at this

theorem BuddyRegion.tidy : Tidy ref h₀ (freshMarking ref.maxPowOrder) :=
  buddyInit_tidy region.word region.length region.order region.header_length (region.sized init) init

theorem BuddyRegion.headerSlots_eq : headerSlots ref = 2 ^ (ref.maxPowOrder - 11) := by
  rw [region.ref_eq init]
  show hMemReg.length / 16 = 2 ^ (m - 11)
  rw [region.header_length, Nat.mul_div_cancel_left _ (by decide)]

end Setup

variable {ref : BuddyRef}

/-! ## Safety -/

/-- The caller's books agree with the marking. -/
structure Owned (ref : BuddyRef) (s : BuddyClient) (t : Marking) : Prop where
  tidy : Tidy ref s.header t
  grants : ∀ g ∈ s.live, ∃ i, InTree ref g.order i ∧
    g.ptr = ref.contentMemReg.baseAddr + i * 2 ^ g.order ∧ t g.order i = some .used
  distinct : s.live.Pairwise fun g g' => g.ptr ≠ g'.ptr
  pages : ∀ x ∈ s.pinned, ∃ a, x = ref.contentMemReg.baseAddr + a ∧ 4096 ∣ a ∧
    Covered 12 ref.maxPowOrder t a ∧ ∀ g ∈ s.live, ¬ g.owns x

theorem Owned.start {h₀ : Header} {t : Marking} (tidy : Tidy ref h₀ t) :
    Owned ref (.start h₀) t :=
  ⟨tidy, fun _ h => (List.not_mem_nil h).elim, List.Pairwise.nil, fun _ h => h.elim⟩

section Steps

variable (sized : Sized ref) {s : BuddyClient} {t : Marking} (owned : Owned ref s t)

include sized owned

theorem Owned.alloc {h : Header} {p fuel bytes : Nat}
    (run : buddyAlloc ref fuel s.header bytes = .ok (p, h)) :
    ∃ t', Owned ref (s.alloc h ⟨p, bytes⟩) t' := by
  obtain ⟨t', k, i, tidy', at_, least, -, base, before, used⟩ := buddyAlloc_spec sized owned.tidy run
  have order : Grant.order ⟨p, bytes⟩ = k := (Grant.order_least ⟨p, bytes⟩).unique least
  have now : t' k i = some .used := (used k i).mpr (.inr ⟨rfl, rfl⟩)
  have grow : ∀ j f, t j f = some .used → t' j f = some .used := fun j f h => (used j f).mpr (.inl h)
  -- a unit of the new block was in no used block
  have fresh : ∀ a, a / 2 ^ k = i → ¬ Covered 12 ref.maxPowOrder t a := by
    rintro a rfl ⟨j, low, high, old⟩
    obtain rfl := tidy'.wf.used_unique low at_.low high at_.high (grow _ _ old) now
    exact before old
  refine ⟨t', tidy', ?_, ?_, ?_⟩
  · intro g mem
    rcases List.mem_cons.mp mem with rfl | old
    · rw [order]
      exact ⟨i, at_, base, now⟩
    · obtain ⟨f, atg, ptr, usedg⟩ := owned.grants g old
      exact ⟨f, atg, ptr, grow _ _ usedg⟩
  · refine List.pairwise_cons.mpr ⟨fun g old same => ?_, owned.distinct⟩
    obtain ⟨f, atg, ptr, usedg⟩ := owned.grants g old
    have start : i * 2 ^ k = f * 2 ^ g.order := by
      change p = g.ptr at same
      omega
    refine fresh (i * 2 ^ k) (Nat.mul_div_cancel i (Nat.two_pow_pos k))
      ⟨g.order, atg.low, atg.high, ?_⟩
    rw [start, Nat.mul_div_cancel f (Nat.two_pow_pos _), usedg]
  · intro x pinned
    obtain ⟨a, rfl, aligned, ⟨j, low, high, old⟩, apart⟩ := owned.pages x pinned
    refine ⟨a, rfl, aligned, ⟨j, low, high, grow _ _ old⟩, fun g mem owns => ?_⟩
    rcases List.mem_cons.mp mem with rfl | mem
    · rw [Grant.owns_iff (i := i) (by rw [order]; exact base), order] at owns
      exact fresh a owns ⟨j, low, high, old⟩
    · exact apart g mem owns

theorem Owned.preAlloc (ends : ref.contentMemReg.baseAddr + 2 ^ ref.maxPowOrder < 2 ^ 64)
    (page : 4096 ∣ ref.contentMemReg.baseAddr) {h : Header} {fuel base len : Nat}
    (aligned : 4096 ∣ base) (lower : ref.contentMemReg.baseAddr ≤ base)
    (upper : base + len ≤ ref.contentMemReg.baseAddr + ref.contentMemReg.length)
    (run : buddyPreAlloc ref fuel s.header base len = .ok h) :
    ∃ t', Owned ref (s.preAlloc h base len) t' := by
  obtain ⟨a, rfl⟩ := Nat.exists_eq_add_of_le lower
  have offset : 4096 ∣ a := (Nat.dvd_add_right page).mp aligned
  have pos : 0 < len := buddyPreAlloc_pos run
  have inside := pages_inside sized offset upper
  have more := le_pages len
  obtain ⟨t', rep, r⟩ :=
    buddyPreAlloc_reserves sized ends fuel owned.tidy.rep owned.tidy.wf pos offset inside run
  refine ⟨t', owned.tidy.reserved rep r, ?_, owned.distinct, ?_⟩
  · intro g mem
    obtain ⟨f, atg, ptr, usedg⟩ := owned.grants g mem
    exact ⟨f, atg, ptr, r.grow _ _ usedg⟩
  · rintro x (old | ⟨⟨pageX, ge, lt⟩, apart⟩)
    · obtain ⟨b, rfl, pageB, ⟨j, low, high, used⟩, apart⟩ := owned.pages x old
      exact ⟨b, rfl, pageB, ⟨j, low, high, r.grow _ _ used⟩, apart⟩
    · obtain ⟨b, rfl⟩ := Nat.exists_eq_add_of_le (Nat.le_trans lower ge)
      exact ⟨b, rfl, (Nat.dvd_add_right page).mp pageX, r.cover b (by omega) (by omega), apart⟩

theorem Owned.free {h : Header} {idx fuel ptr : Nat}
    (found : findSlotByAddr ref fuel s.header ptr = .ok idx)
    (run : buddyFree ref fuel s.header ptr = .ok h) :
    ∃ t', Owned ref (s.free h (s.header idx)) t' := by
  obtain ⟨k, i, t', at_, old, found', tidy', used⟩ := buddyFree_spec sized owned.tidy run
  rw [found] at found'
  cases found'
  -- the slot holds exactly the units of the freed block
  have holds : ∀ a, (s.header (slotAddr ref k i)).holds (ref.contentMemReg.baseAddr + a) ↔
      a / 2 ^ k = i := by
    intro a
    rw [owned.tidy.rep.slot at_ old]
    exact mem_block_iff
  refine ⟨t', tidy', ?_, owned.distinct.filter _, ?_⟩
  · intro g mem
    obtain ⟨mem, apart⟩ := List.mem_filter.mp mem
    obtain ⟨f, atg, ptr, usedg⟩ := owned.grants g mem
    refine ⟨f, atg, ptr, (used _ _).mpr ⟨usedg, ?_⟩⟩
    rintro ⟨rfl, rfl⟩
    have start := (holds (f * 2 ^ g.order)).mpr (Nat.mul_div_cancel f (Nat.two_pow_pos _))
    rw [← ptr] at start
    exact of_decide_eq_true apart start
  · rintro x ⟨pinned, apart⟩
    obtain ⟨a, rfl, aligned, ⟨j, low, high, usedx⟩, unowned⟩ := owned.pages x pinned
    refine ⟨a, rfl, aligned, ⟨j, low, high, (used _ _).mpr ⟨usedx, ?_⟩⟩,
      fun g mem => unowned g (List.mem_filter.mp mem).1⟩
    rintro ⟨rfl, index⟩
    exact apart ((holds a).mpr index)

/-- Every call keeps the books in agreement with the marking. -/
theorem Owned.step (ends : ref.contentMemReg.baseAddr + 2 ^ ref.maxPowOrder < 2 ^ 64)
    (page : 4096 ∣ ref.contentMemReg.baseAddr) {s' : BuddyClient} (step : BuddyStep ref s s') :
    ∃ t', Owned ref s' t' := by
  cases step with
  | preAlloc fuel base len aligned lower upper run =>
    exact owned.preAlloc sized ends page aligned lower upper run
  | alloc fuel bytes run => exact owned.alloc sized run
  | free fuel ptr nonzero live found run => exact owned.free sized found run

end Steps

/-- Distinct grants own distinct bytes. -/
theorem Owned.disjoint {s : BuddyClient} {t : Marking} (owned : Owned ref s t) {g g' : Grant}
    (mem : g ∈ s.live) (mem' : g' ∈ s.live) (apart : g.ptr ≠ g'.ptr) (x : Nat) :
    ¬ (g.owns x ∧ g'.owns x) := by
  rintro ⟨here, there⟩
  obtain ⟨i, at_, ptr, used⟩ := owned.grants g mem
  obtain ⟨i', at', ptr', used'⟩ := owned.grants g' mem'
  obtain ⟨a, rfl⟩ : ∃ a, x = ref.contentMemReg.baseAddr + a :=
    Nat.exists_eq_add_of_le (by have := here.1; omega)
  rw [Grant.owns_iff ptr] at here
  rw [Grant.owns_iff ptr'] at there
  subst here there
  have same := owned.tidy.wf.used_unique at_.low at'.low at_.high at'.high used used'
  rw [ptr, ptr', same] at apart
  exact apart rfl

/-- A pinned page meets no grant. -/
theorem Owned.apart {s : BuddyClient} {t : Marking} (owned : Owned ref s t) {g : Grant}
    (mem : g ∈ s.live) {page x : Nat} (pinned : page ∈ s.pinned) (ge : page ≤ x)
    (lt : x < page + 4096) : ¬ g.owns x := by
  intro owns
  obtain ⟨a, rfl, aligned, -, unowned⟩ := owned.pages page pinned
  obtain ⟨j, rfl⟩ := Nat.exists_eq_add_of_le ge
  obtain ⟨i, at_, ptr, -⟩ := owned.grants g mem
  refine unowned g mem ?_
  rw [Nat.add_assoc, Grant.owns_iff ptr, page_div aligned (by omega) at_.low] at owns
  rwa [Grant.owns_iff ptr]

/-- Every state of a run agrees with a marking. -/
theorem BuddyReach.owned {m : Nat} {hMemReg cMemReg : MemMapRegion} {before h₀ : Header}
    (region : BuddyRegion m hMemReg cMemReg) (ends : cMemReg.baseAddr + 2 ^ m < 2 ^ 64)
    (init : buddyInit before hMemReg cMemReg = .ok (ref, h₀)) {s : BuddyClient}
    (reach : BuddyReach ref h₀ s) : ∃ t, Owned ref s t := by
  obtain rfl := region.content_eq init
  obtain rfl := region.max_eq init
  refine run_invariant (P := fun s => ∃ t, Owned ref s t) reach ⟨_, .start (region.tidy init)⟩ ?_
  rintro a b ⟨t, owned⟩ step
  exact owned.step (region.sized init) ends region.aligned step

/-- Blocks handed out are disjoint. In every state of a run from `buddy_init`, for a region that
ends below the top of the address space, a pointer `p` returned for `bytes` and still live has the
used slot of `[p, p + 2 ^ k)`, where `k` is the least order from twelve up that holds `bytes`; the
block is in the region and aligned to its size, and it meets no other live block and no page that
was pre-allocated while outside every live block and not freed since. -/
theorem buddy_grants_disjoint {m : Nat} {hMemReg cMemReg : MemMapRegion} {before h₀ : Header}
    {ref : BuddyRef} {s : BuddyClient} (region : BuddyRegion m hMemReg cMemReg)
    (ends : cMemReg.baseAddr + 2 ^ m < 2 ^ 64)
    (init : buddyInit before hMemReg cMemReg = .ok (ref, h₀)) (reach : BuddyReach ref h₀ s) :
    (∀ g ∈ s.live,
      IsLeast {k | 12 ≤ k ∧ g.bytes ≤ 2 ^ k} g.order ∧
      (∃ idx, (∀ fuel, m < fuel → findSlotByAddr ref fuel s.header g.ptr = .ok idx) ∧
        s.header idx = ⟨g.ptr, g.order, .used⟩) ∧
      cMemReg.baseAddr ≤ g.ptr ∧ g.ptr + 2 ^ g.order ≤ cMemReg.baseAddr + 2 ^ m ∧
      2 ^ g.order ∣ g.ptr - cMemReg.baseAddr) ∧
    (s.live.Pairwise fun g g' => ∀ x, ¬ (g.owns x ∧ g'.owns x)) ∧
    (∀ g ∈ s.live, ∀ page ∈ s.pinned, ∀ x, page ≤ x → x < page + 4096 → ¬ g.owns x) := by
  obtain ⟨t, owned⟩ := reach.owned region ends init
  obtain rfl := region.content_eq init
  obtain rfl := region.max_eq init
  refine ⟨fun g mem => ?_, ?_, fun g mem page pinned x ge lt => owned.apart mem pinned ge lt⟩
  · obtain ⟨i, at_, ptr, used⟩ := owned.grants g mem
    have inside := at_.end_le
    refine ⟨g.order_least, ⟨slotAddr ref g.order i, fun fuel enough => ?_, ?_⟩, by omega, by omega, ?_⟩
    · rw [ptr]
      exact findSlotByAddr_base (region.sized init) owned.tidy at_ used enough
    · rw [owned.tidy.rep.slot at_ used, ptr]
    · rw [ptr, Nat.add_sub_cancel_left]
      exact Nat.dvd_mul_left _ _
  · refine List.Pairwise.imp_of_mem ?_ owned.distinct
    exact fun mem mem' apart x => owned.disjoint mem mem' apart x

/-! ### A region of two pages -/

/-- Two pages of content at `base`, with their header elsewhere. -/
def twoPages (base : Nat) : MemMapRegion := ⟨base, 8192, e820MemTypeUsable⟩

def twoPagesHeader : MemMapRegion := ⟨0x100000, 64, e820MemTypeUsable⟩

def twoPagesRef (base : Nat) : BuddyRef := ⟨twoPagesHeader, twoPages base, 13, 12⟩

theorem twoPages_region (base : Nat) (aligned : 4096 ∣ base) (content : base + 8192 ≤ 2 ^ 64) :
    BuddyRegion 13 twoPagesHeader (twoPages base) :=
  ⟨by decide, by decide, rfl, aligned, content,
    show buddyCalcHeaderSpace 8192 = .ok 64 by decide +kernel, by decide⟩

/-- The header after `buddy_init` on two pages. -/
def twoPagesInit (base : Nat) : Header :=
  Header.write ⟨fun _ => .zero⟩ (gotoPorderIdx (twoPagesRef base) 13) ⟨base, 13, .unused⟩

theorem twoPages_init (base : Nat) : buddyInit ⟨fun _ => .zero⟩ twoPagesHeader (twoPages base) =
    .ok (twoPagesRef base, twoPagesInit base) := by
  rw [buddyInit_eq (m := 13) (by decide) rfl]
  simp only [ite_self]
  rfl

/-- The header after a page is pre-allocated, and after a block is handed out. -/
def preAllocated (base : Nat) (h : Header) (page : Nat) : Header :=
  (buddyPreAlloc (twoPagesRef base) 80 h page 4096).getD h

def allocated (base : Nat) (h : Header) (bytes : Nat) : Header :=
  ((buddyAlloc (twoPagesRef base) 80 h bytes).getD (0, h)).2

theorem allocated_eq (base bytes p : Nat) (h : Header)
    (ok : (buddyAlloc (twoPagesRef base) 80 h bytes).isOk = true)
    (ptr : ((buddyAlloc (twoPagesRef base) 80 h bytes).getD (0, h)).1 = p) :
    buddyAlloc (twoPagesRef base) 80 h bytes = .ok (p, allocated base h bytes) := by
  rw [Outcome.eq_ok_of_isOk (0, h) ok, ← ptr]
  rfl

/-- One page pre-allocated, the other handed out. -/
theorem buddy_grants_disjoint_two_pages :
    ∃ s, BuddyReach (twoPagesRef 0x10000) (twoPagesInit 0x10000) s ∧
      s.live = [⟨0x11000, 4096⟩] ∧ 0x10000 ∈ s.pinned ∧
      ∀ g ∈ s.live, ∀ page ∈ s.pinned, ∀ x, page ≤ x → x < page + 4096 → ¬ g.owns x := by
  have run₁ : buddyPreAlloc (twoPagesRef 0x10000) 80 (twoPagesInit 0x10000) 0x10000 4096 = .ok _ :=
    Outcome.eq_ok_of_isOk (twoPagesInit 0x10000) (by decide +kernel)
  have run₂ := allocated_eq 0x10000 4096 0x11000
    (preAllocated 0x10000 (twoPagesInit 0x10000) 0x10000) (by decide +kernel) (by decide +kernel)
  have step₁ : BuddyStep (twoPagesRef 0x10000) (.start (twoPagesInit 0x10000)) _ :=
    .preAlloc 80 0x10000 4096 (by decide) (by decide) (by decide) run₁
  have step₂ : BuddyStep (twoPagesRef 0x10000) ((BuddyClient.start (twoPagesInit 0x10000)).preAlloc
    (preAllocated 0x10000 (twoPagesInit 0x10000) 0x10000) 0x10000 4096) _ := .alloc 80 4096 run₂
  have reach : BuddyReach (twoPagesRef 0x10000) (twoPagesInit 0x10000) _ :=
    .tail (.single step₁) step₂
  refine ⟨_, reach, rfl,
    .inr ⟨⟨by decide, by decide, by decide⟩, fun _ h => (List.not_mem_nil h).elim⟩, ?_⟩
  exact (buddy_grants_disjoint (twoPages_region 0x10000 (by decide) (by decide))
    (by decide) (twoPages_init 0x10000) reach).2.2

/-- A pre-allocated page may meet a live block. Pre-allocating a page of a block that is handed out
returns without a word; and in a region that ends at the top of the address space, pre-allocating
the last page marks the first, so the last is handed out. -/
theorem buddy_preAlloc_shares_a_live_block :
    (∃ hMemReg cMemReg before ref h₀ s, BuddyRegion 13 hMemReg cMemReg ∧
      cMemReg.baseAddr + 2 ^ 13 < 2 ^ 64 ∧ buddyInit before hMemReg cMemReg = .ok (ref, h₀) ∧
      BuddyReach ref h₀ s ∧ ∃ g ∈ s.live, ∃ page ∈ s.preAllocated, g.owns page) ∧
    (∃ hMemReg cMemReg before ref h₀ s, BuddyRegion 13 hMemReg cMemReg ∧
      buddyInit before hMemReg cMemReg = .ok (ref, h₀) ∧
      BuddyReach ref h₀ s ∧ ∃ g ∈ s.live, ∃ page ∈ s.pinned, g.owns page) := by
  constructor
  · have run₁ := allocated_eq 0x10000 8192 0x10000 (twoPagesInit 0x10000)
      (by decide +kernel) (by decide +kernel)
    have run₂ : buddyPreAlloc (twoPagesRef 0x10000) 80
        (allocated 0x10000 (twoPagesInit 0x10000) 8192) 0x10000 4096 = .ok _ :=
      Outcome.eq_ok_of_isOk (twoPagesInit 0x10000) (by decide +kernel)
    have step₁ : BuddyStep (twoPagesRef 0x10000) (.start (twoPagesInit 0x10000)) _ :=
      .alloc 80 8192 run₁
    have step₂ : BuddyStep (twoPagesRef 0x10000) ((BuddyClient.start (twoPagesInit 0x10000)).alloc
        (allocated 0x10000 (twoPagesInit 0x10000) 8192) ⟨0x10000, 8192⟩) _ :=
      .preAlloc 80 0x10000 4096 (by decide) (by decide) (by decide) run₂
    refine ⟨_, _, _, _, _, _, twoPages_region 0x10000 (by decide) (by decide), by decide, twoPages_init 0x10000,
      .tail (.single step₁) step₂, ⟨0x10000, 8192⟩, List.mem_singleton.mpr rfl, 0x10000,
      .inr ⟨by decide, by decide, by decide⟩, by decide, ?_⟩
    exact Nat.lt_add_of_pos_right (Nat.two_pow_pos _)
  · have run₁ : buddyPreAlloc (twoPagesRef (2 ^ 64 - 8192)) 80 (twoPagesInit (2 ^ 64 - 8192))
        (2 ^ 64 - 4096) 4096 = .ok _ :=
      Outcome.eq_ok_of_isOk (twoPagesInit (2 ^ 64 - 8192)) (by decide +kernel)
    have run₂ := allocated_eq (2 ^ 64 - 8192) 4096 (2 ^ 64 - 4096)
      (preAllocated (2 ^ 64 - 8192) (twoPagesInit (2 ^ 64 - 8192)) (2 ^ 64 - 4096))
      (by decide +kernel) (by decide +kernel)
    have step₁ : BuddyStep (twoPagesRef (2 ^ 64 - 8192)) (.start (twoPagesInit (2 ^ 64 - 8192))) _ :=
      .preAlloc 80 (2 ^ 64 - 4096) 4096 (by decide) (by decide) (by decide) run₁
    have step₂ : BuddyStep (twoPagesRef (2 ^ 64 - 8192))
        ((BuddyClient.start (twoPagesInit (2 ^ 64 - 8192))).preAlloc
          (preAllocated (2 ^ 64 - 8192) (twoPagesInit (2 ^ 64 - 8192)) (2 ^ 64 - 4096))
          (2 ^ 64 - 4096) 4096) _ := .alloc 80 4096 run₂
    refine ⟨_, _, _, _, _, _, twoPages_region (2 ^ 64 - 8192) (by decide) (by decide),
      twoPages_init (2 ^ 64 - 8192), .tail (.single step₁) step₂, ⟨2 ^ 64 - 4096, 4096⟩, List.mem_singleton.mpr rfl,
      2 ^ 64 - 4096, .inr ⟨⟨by decide, by decide, by decide⟩, fun _ h => (List.not_mem_nil h).elim⟩,
      Nat.le_refl _, ?_⟩
    exact Nat.lt_add_of_pos_right (Nat.two_pow_pos _)

/-! ## Canonical form -/

/-- Every slot of the header but the last is the slot of a block. -/
theorem headerSlot_cases {n : Nat} (range : n < 2 ^ (ref.maxPowOrder - 11)) :
    headerSlot ref n = spareAddr ref ∨ ∃ k i, InTree ref k i ∧ headerSlot ref n = slotAddr ref k i := by
  by_cases last : n = 2 ^ (ref.maxPowOrder - 11) - 1
  · exact .inl (by rw [last]; rfl)
  -- slots of order `k` are those at distances from `2 ^ (max - k)` to `2 ^ (max - k + 1)` of the end
  have far : 2 ≤ 2 ^ (ref.maxPowOrder - 11) - n := by omega
  obtain ⟨d, log⟩ : ∃ d, Nat.clog 2 (2 ^ (ref.maxPowOrder - 11) - n) = d + 1 :=
    ⟨_, (Nat.succ_pred_eq_of_pos (Nat.clog_pos Nat.one_lt_two far)).symm⟩
  have upper : 2 ^ (ref.maxPowOrder - 11) - n ≤ 2 ^ (d + 1) := by
    rw [← log]
    exact Nat.le_pow_clog Nat.one_lt_two _
  have lower : 2 ^ d < 2 ^ (ref.maxPowOrder - 11) - n :=
    (Nat.lt_clog_iff_pow_lt Nat.one_lt_two).mp (by omega)
  have bound : d + 1 ≤ ref.maxPowOrder - 11 := by
    rw [← log]
    exact (Nat.clog_le_iff_le_pow Nat.one_lt_two).mpr (Nat.sub_le _ _)
  have stretch : ref.maxPowOrder - (ref.maxPowOrder - d) = d := by omega
  have double : 2 ^ (d + 1) = 2 * 2 ^ d := Nat.pow_succ'
  have fits : 2 ^ (d + 1) ≤ 2 ^ (ref.maxPowOrder - 11) := Nat.pow_le_pow_right (by decide) bound
  refine .inr ⟨ref.maxPowOrder - d, n - (2 ^ (ref.maxPowOrder - 11) - 2 ^ (d + 1)),
    ⟨by omega, by omega, by rw [stretch]; omega⟩, ?_⟩
  unfold headerSlot slotAddr sizeofBuddySlot
  rw [stretch]
  omega

/-- A block's slot is one of the header's. -/
theorem slotAddr_eq_headerSlot {k i : Nat} (at_ : InTree ref k i) :
    ∃ n < 2 ^ (ref.maxPowOrder - 11), slotAddr ref k i = headerSlot ref n := by
  have := at_.bounds
  have := Nat.two_pow_pos (ref.maxPowOrder - k)
  exact ⟨2 ^ (ref.maxPowOrder - 11) - 2 ^ (ref.maxPowOrder - k + 1) + i, by omega, rfl⟩

section Canonical

variable (slots : headerSlots ref = 2 ^ (ref.maxPowOrder - 11))

include slots

/-- The used blocks a header speaks of are those of its marking. -/
theorem usedBlock_iff {h : Header} {t : Marking} (rep : Rep ref h t) {base order : Nat} :
    UsedBlock ref h base order ↔ ∃ i, InTree ref order i ∧ t order i = some .used ∧
      base = ref.contentMemReg.baseAddr + i * 2 ^ order := by
  constructor
  · rintro ⟨n, range, slot⟩
    rw [slots] at range
    rcases headerSlot_cases range with spare | ⟨k, i, at_, place⟩
    · rw [spare, rep.spare] at slot
      cases slot
    · rw [place, rep.at_slot k i at_] at slot
      cases there : t k i with
      | none =>
        rw [there] at slot
        cases slot
      | some m =>
        rw [there] at slot
        cases slot
        exact ⟨i, at_, there, rfl⟩
  · rintro ⟨i, at_, used, rfl⟩
    obtain ⟨n, range, place⟩ := slotAddr_eq_headerSlot at_
    exact ⟨n, by rw [slots]; exact range, by rw [← place, rep.slot at_ used]⟩

theorem used_iff_usedBlock {h : Header} {t : Marking} (rep : Rep ref h t) {k i : Nat}
    (at_ : InTree ref k i) :
    t k i = some .used ↔ UsedBlock ref h (ref.contentMemReg.baseAddr + i * 2 ^ k) k := by
  rw [usedBlock_iff slots rep]
  constructor
  · exact fun used => ⟨i, at_, used, rfl⟩
  · rintro ⟨f, -, used, same⟩
    obtain rfl : i = f := Nat.eq_of_mul_eq_mul_right (Nat.two_pow_pos k) (by omega)
    exact used

/-- Headers with the same used blocks agree slot by slot. -/
theorem Tidy.slot_eq {h h' : Header} {t t' : Marking} (tidy : Tidy ref h t) (tidy' : Tidy ref h' t')
    (same : ∀ k i, InTree ref k i → (t k i = some .used ↔ t' k i = some .used)) {n : Nat}
    (range : n < headerSlots ref) : h (headerSlot ref n) = h' (headerSlot ref n) := by
  have everywhere : ∀ k i, 12 ≤ k → k ≤ ref.maxPowOrder →
      (t k i = some .used ↔ t' k i = some .used) := by
    intro k i low high
    by_cases index : i < 2 ^ (ref.maxPowOrder - k)
    · exact same k i ⟨low, high, index⟩
    · exact iff_of_false (fun h => index (tidy.wf.index_lt low high h))
        (fun h => index (tidy'.wf.index_lt low high h))
  rw [slots] at range
  rcases headerSlot_cases range with spare | ⟨k, i, at_, place⟩
  · rw [spare, tidy.rep.spare, tidy'.rep.spare]
  · rw [place, tidy.rep.at_slot k i at_, tidy'.rep.at_slot k i at_,
      eq_of_used tidy.wf tidy'.wf tidy.coalesced tidy'.coalesced everywhere at_.low at_.high]

end Canonical

/-- Every state of a run has a tidy header, wherever its region ends. -/
theorem BuddyReach.tidy {m : Nat} {hMemReg cMemReg : MemMapRegion} {before h₀ : Header}
    (region : BuddyRegion m hMemReg cMemReg)
    (init : buddyInit before hMemReg cMemReg = .ok (ref, h₀)) {s : BuddyClient}
    (reach : BuddyReach ref h₀ s) : ∃ t, Tidy ref s.header t := by
  obtain rfl := region.content_eq init
  have sized := region.sized init
  refine run_invariant (P := fun s => ∃ t, Tidy ref s.header t) reach ⟨_, region.tidy init⟩ ?_
  rintro a b ⟨t, tidy⟩ step
  cases step with
  | preAlloc fuel base len aligned lower upper run =>
    obtain ⟨x, rfl⟩ := Nat.exists_eq_add_of_le lower
    have offset : 4096 ∣ x := (Nat.dvd_add_right region.aligned).mp aligned
    obtain ⟨t', tidy', -⟩ := buddyPreAlloc_tidy sized tidy (buddyPreAlloc_pos run) offset
      (pages_inside sized offset upper) run
    exact ⟨t', tidy'⟩
  | alloc fuel bytes run =>
    obtain ⟨t', -, -, tidy', -⟩ := buddyAlloc_spec sized tidy run
    exact ⟨t', tidy'⟩
  | free fuel ptr nonzero live found run =>
    obtain ⟨-, -, t', -, -, -, tidy', -⟩ := buddyFree_spec sized tidy run
    exact ⟨t', tidy'⟩

/-- Used blocks with one base are one block. -/
theorem used_base_inj {t : Marking} (wf : WF 12 ref.maxPowOrder t) {k i j f base : Nat}
    (at_ : InTree ref k i) (at' : InTree ref j f) (used : t k i = some .used)
    (used' : t j f = some .used) (same : base + i * 2 ^ k = base + f * 2 ^ j) : k = j ∧ i = f := by
  have start : i * 2 ^ k = f * 2 ^ j := by omega
  have index : i * 2 ^ k / 2 ^ k = i := Nat.mul_div_cancel i (Nat.two_pow_pos k)
  have index' : i * 2 ^ k / 2 ^ j = f := by rw [start, Nat.mul_div_cancel f (Nat.two_pow_pos j)]
  obtain rfl : k = j := wf.used_unique (a := i * 2 ^ k) at_.low at'.low at_.high at'.high
    (by rw [index]; exact used) (by rw [index']; exact used')
  exact ⟨rfl, index.symm.trans index'⟩

/-- Freeing distinct used blocks one after the other succeeds and leaves the others used. -/
theorem buddyFreeAll_spec (sized : Sized ref) {fuel : Nat} (enough : ref.maxPowOrder < fuel) :
    ∀ (ptrs : List Nat) {h : Header} {t : Marking}, Tidy ref h t → ptrs.Nodup →
      (∀ p ∈ ptrs, p ≠ 0 ∧ ∃ k i, InTree ref k i ∧ t k i = some .used ∧
        p = ref.contentMemReg.baseAddr + i * 2 ^ k) →
      ∃ h' t', buddyFreeAll ref fuel h ptrs = .ok h' ∧ Tidy ref h' t' ∧
        ∀ k i, InTree ref k i → (t' k i = some .used ↔
          t k i = some .used ∧ ref.contentMemReg.baseAddr + i * 2 ^ k ∉ ptrs)
  | [], h, t, tidy, _, _ => ⟨h, t, rfl, tidy, fun k i _ => by simp⟩
  | p :: ptrs, h, t, tidy, nodup, blocks => by
    obtain ⟨fresh, rest⟩ := List.nodup_cons.mp nodup
    obtain ⟨nonzero, k, i, at_, used, rfl⟩ := blocks _ (List.mem_cons_self ..)
    obtain ⟨h₁, t₁, run₁, tidy₁, used₁⟩ := buddyFree_found sized tidy nonzero at_ used
      (findSlotByAddr_base sized tidy at_ used enough) enough
    have others : ∀ p ∈ ptrs, p ≠ 0 ∧ ∃ k i, InTree ref k i ∧ t₁ k i = some .used ∧
        p = ref.contentMemReg.baseAddr + i * 2 ^ k := by
      intro p mem
      obtain ⟨nonzero, j, f, at', used', rfl⟩ := blocks p (List.mem_cons_of_mem _ mem)
      refine ⟨nonzero, j, f, at', (used₁ j f).mpr ⟨used', ?_⟩, rfl⟩
      rintro ⟨rfl, rfl⟩
      exact fresh mem
    obtain ⟨h₂, t₂, run₂, tidy₂, used₂⟩ := buddyFreeAll_spec sized enough ptrs tidy₁ rest others
    refine ⟨h₂, t₂, ?_, tidy₂, fun j f at' => ?_⟩
    · unfold buddyFreeAll at run₂ ⊢
      rw [List.foldlM_cons, run₁, ok_bind]
      exact run₂
    · rw [used₂ j f at', used₁ j f, List.mem_cons, not_or, and_assoc]
      refine and_congr_right fun used' => and_congr_left' (not_congr ⟨?_, fun same => ?_⟩)
      · rintro ⟨rfl, rfl⟩
        rfl
      · exact used_base_inj tidy.wf at' at_ used' used same

/-- Freeing the block that was just handed out leaves the blocks used that were used before. -/
theorem buddyFree_undoes_alloc (sized : Sized ref) {h h₁ : Header} {t : Marking} (tidy : Tidy ref h t)
    {fuel fuel' bytes p : Nat} (run : buddyAlloc ref fuel h bytes = .ok (p, h₁)) (nonzero : p ≠ 0)
    (enough : ref.maxPowOrder < fuel') :
    ∃ h' t', buddyFree ref fuel' h₁ p = .ok h' ∧ Tidy ref h' t' ∧ ∀ j f, t' j f = some .used ↔ t j f = some .used := by
  obtain ⟨t₁, k, i, tidy₁, at_, -, -, rfl, fresh, used₁⟩ := buddyAlloc_spec sized tidy run
  have now : t₁ k i = some .used := (used₁ k i).mpr (.inr ⟨rfl, rfl⟩)
  obtain ⟨h', t₂, run', tidy₂, used₂⟩ := buddyFree_found sized tidy₁ nonzero at_ now
    (findSlotByAddr_base sized tidy₁ at_ now enough) enough
  refine ⟨h', t₂, run', tidy₂, fun j f => ?_⟩
  rw [used₂, used₁]
  constructor
  · rintro ⟨old | here, elsewhere⟩
    · exact old
    · exact absurd here elsewhere
  · intro old
    refine ⟨.inl old, ?_⟩
    rintro ⟨rfl, rfl⟩
    exact fresh old

/-- The header is a function of the used blocks. Two states of runs from one `buddy_init` with the
same used blocks have the same header, slot by slot. So `buddy_alloc` followed by `buddy_free`
changes no slot, freeing blocks in another order gives the same header, and freeing all of them
gives back the header `buddy_init` left. -/
theorem buddy_header_canonical {m : Nat} {hMemReg cMemReg : MemMapRegion} {before h₀ : Header}
    {ref : BuddyRef} (region : BuddyRegion m hMemReg cMemReg)
    (init : buddyInit before hMemReg cMemReg = .ok (ref, h₀)) :
    (∀ s₁ s₂, BuddyReach ref h₀ s₁ → BuddyReach ref h₀ s₂ →
      (∀ base order, UsedBlock ref s₁.header base order ↔ UsedBlock ref s₂.header base order) →
      ∀ n < headerSlots ref, s₁.header (headerSlot ref n) = s₂.header (headerSlot ref n)) ∧
    (∀ s, BuddyReach ref h₀ s → ∀ fuel bytes p h, buddyAlloc ref fuel s.header bytes = .ok (p, h) →
      p ≠ 0 → ∀ fuel', m < fuel' → ∃ h', buddyFree ref fuel' h p = .ok h' ∧
        ∀ n < headerSlots ref, h' (headerSlot ref n) = s.header (headerSlot ref n)) ∧
    (∀ s, BuddyReach ref h₀ s → ∀ ptrs ptrs' : List Nat, ptrs.Perm ptrs' → ptrs.Nodup →
      (∀ p ∈ ptrs, p ≠ 0 ∧ ∃ order, UsedBlock ref s.header p order) → ∀ fuel, m < fuel →
      ∃ h h', buddyFreeAll ref fuel s.header ptrs = .ok h ∧
        buddyFreeAll ref fuel s.header ptrs' = .ok h' ∧
        ∀ n < headerSlots ref, h (headerSlot ref n) = h' (headerSlot ref n)) ∧
    (∀ s, BuddyReach ref h₀ s → ∀ ptrs : List Nat, ptrs.Nodup → 0 ∉ ptrs →
      (∀ p, p ∈ ptrs ↔ ∃ order, UsedBlock ref s.header p order) → ∀ fuel, m < fuel →
      ∃ h, buddyFreeAll ref fuel s.header ptrs = .ok h ∧
        ∀ n < headerSlots ref, h (headerSlot ref n) = h₀ (headerSlot ref n)) := by
  have sized := region.sized init
  have slots := region.headerSlots_eq init
  obtain rfl := region.max_eq init
  have block : ∀ {h : Header} {t : Marking}, Tidy ref h t → ∀ {p : Nat},
      (∃ order, UsedBlock ref h p order) → ∃ k i, InTree ref k i ∧ t k i = some .used ∧
        p = ref.contentMemReg.baseAddr + i * 2 ^ k := by
    rintro h t tidy p ⟨order, used⟩
    exact ⟨order, (usedBlock_iff slots tidy.rep).mp used⟩
  refine ⟨?_, ?_, ?_, ?_⟩
  · intro s₁ s₂ reach₁ reach₂ same n range
    obtain ⟨t₁, tidy₁⟩ := reach₁.tidy region init
    obtain ⟨t₂, tidy₂⟩ := reach₂.tidy region init
    refine Tidy.slot_eq slots tidy₁ tidy₂ (fun k i at_ => ?_) range
    rw [used_iff_usedBlock slots tidy₁.rep at_, used_iff_usedBlock slots tidy₂.rep at_, same]
  · intro s reach fuel bytes p h run nonzero fuel' enough
    obtain ⟨t, tidy⟩ := reach.tidy region init
    obtain ⟨h', t', run', tidy', used⟩ := buddyFree_undoes_alloc sized tidy run nonzero enough
    exact ⟨h', run', fun n range => Tidy.slot_eq slots tidy' tidy (fun j f _ => used j f) range⟩
  · intro s reach ptrs ptrs' perm nodup blocks fuel enough
    obtain ⟨t, tidy⟩ := reach.tidy region init
    obtain ⟨h, t₁, run, tidy₁, used₁⟩ := buddyFreeAll_spec sized enough ptrs tidy nodup
      fun p mem => ⟨(blocks p mem).1, block tidy (blocks p mem).2⟩
    obtain ⟨h', t₂, run', tidy₂, used₂⟩ := buddyFreeAll_spec sized enough ptrs' tidy
      (perm.nodup_iff.mp nodup) fun p mem =>
        ⟨(blocks p (perm.mem_iff.mpr mem)).1, block tidy (blocks p (perm.mem_iff.mpr mem)).2⟩
    refine ⟨h, h', run, run', fun n range => Tidy.slot_eq slots tidy₁ tidy₂ (fun k i at_ => ?_) range⟩
    rw [used₁ k i at_, used₂ k i at_, perm.mem_iff]
  · intro s reach ptrs nodup nonzero all fuel enough
    obtain ⟨t, tidy⟩ := reach.tidy region init
    obtain ⟨h, t₁, run, tidy₁, used₁⟩ := buddyFreeAll_spec sized enough ptrs tidy nodup
      fun p mem => ⟨fun zero => nonzero (zero ▸ mem), block tidy ((all p).mp mem)⟩
    refine ⟨h, run, fun n range =>
      Tidy.slot_eq slots tidy₁ (region.tidy init) (fun k i at_ => ?_) range⟩
    rw [used₁ k i at_]
    refine iff_of_false ?_ freshMarking_used
    rintro ⟨used, left⟩
    exact left ((all _).mpr ⟨k, (usedBlock_iff slots tidy.rep).mpr ⟨i, at_, used, rfl⟩⟩)

/-- Handing out a page and taking it back, on two pages. -/
theorem buddy_header_canonical_two_pages :
    ∃ h p h', buddyAlloc (twoPagesRef 0x10000) 80 (twoPagesInit 0x10000) 4096 = .ok (p, h) ∧
      buddyFree (twoPagesRef 0x10000) 80 h p = .ok h' ∧
      ∀ n < headerSlots (twoPagesRef 0x10000), h' (headerSlot (twoPagesRef 0x10000) n) =
        twoPagesInit 0x10000 (headerSlot (twoPagesRef 0x10000) n) := by
  have run := allocated_eq 0x10000 4096 0x10000 (twoPagesInit 0x10000)
    (by decide +kernel) (by decide +kernel)
  obtain ⟨h', free, same⟩ := (buddy_header_canonical
    (twoPages_region 0x10000 (by decide) (by decide)) (twoPages_init 0x10000)).2.1 _ .refl 80 4096
    0x10000 _ run (by decide) 80 (by decide)
  exact ⟨_, _, h', run, free, same⟩

end AlmeidaOS.Kernel
