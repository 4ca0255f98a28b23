import AlmeidaOS.Laws.Mm.BuddyTotal
import AlmeidaOS.Laws.Mm.Kmem
import AlmeidaOS.Laws.Mm.PageSupply

/-!
# The kernel's page table between calls

The kernel's page table is made of blocks it has from its own allocator, and everything it maps is at
its address in the linear map. `KernelKept` is what holds between calls: the blocks that are out are
apart from each other, the tables are those of a pool in two of them, and every call of `page_alloc`
so far was for an address of the linear map. `kmalloc` keeps it (`KernelKept.kmalloc`): it maps the
block it returns, and writes to the pool and to that block only.
-/

namespace AlmeidaOS.Kernel

open Radix

/-! ## Blocks that are out -/

/-- The bytes that were asked for are among those a grant owns. -/
theorem Grant.owns_of_lt {g : Grant} {x : Nat} (lower : g.ptr ≤ x) (upper : x < g.ptr + g.bytes) : g.owns x := by
  have fits : g.bytes ≤ 2 ^ g.order := g.order_least.1.2
  exact ⟨lower, by omega⟩

theorem Grant.owns_ptr (g : Grant) : g.owns g.ptr := ⟨Nat.le_refl _, Nat.lt_add_of_pos_right (Nat.two_pow_pos _)⟩

/-- The bytes that none of the grants owns. -/
def unowned (grants : List Grant) : Set Nat := {x | ∀ g ∈ grants, ¬ g.owns x}

theorem unowned_sub {grants grants' : List Grant} (sub : ∀ g ∈ grants, g ∈ grants') :
    ∀ x ∈ unowned grants', x ∈ unowned grants := fun _ free g mem => free g (sub g mem)

/-- The allocator's header has a used block of its own for each of the grants. -/
def Held (ref : BuddyRef) (h : Header) (grants : List Grant) : Prop := ∃ t, Owned ref ⟨h, grants, ∅, ∅⟩ t

namespace Held

variable {ref : BuddyRef} {h h' : Header} {grants : List Grant} {g g' : Grant}

theorem perm {grants' : List Grant} (held : Held ref h grants) (same : grants.Perm grants') : Held ref h grants' := by
  obtain ⟨t, owned⟩ := held
  refine ⟨t, owned.tidy, fun g mem => owned.grants g (same.mem_iff.mpr mem), ?_, fun x none => none.elim⟩
  exact (same.pairwise_iff fun apart => apart.symm).mp owned.distinct

theorem alloc {fuel bytes p : Nat} (held : Held ref h grants) (sized : Sized ref)
    (run : buddyAlloc ref fuel h bytes = .ok (p, h')) : Held ref h' (⟨p, bytes⟩ :: grants) := by
  obtain ⟨t, owned⟩ := held
  exact owned.alloc sized run

/-- The block of a grant is given back, and no other. -/
theorem free {fuel : Nat} (held : Held ref h (g :: grants)) (sized : Sized ref) (base : ref.contentMemReg.baseAddr = 0)
    (run : buddyFree ref fuel h g.ptr = .ok h') : Held ref h' grants := by
  obtain ⟨t, owned⟩ := held
  obtain ⟨apart, distinct⟩ := List.pairwise_cons.mp owned.distinct
  obtain ⟨i, at_, ptr, used⟩ := owned.grants g (List.mem_cons_self ..)
  rw [base, Nat.zero_add] at ptr
  have inside : g.ptr < 2 ^ ref.maxPowOrder := by
    have := at_.end_le
    have := Nat.two_pow_pos g.order
    omega
  obtain ⟨k, f, t', atk, usedk, found, tidy', same⟩ := buddyFree_spec sized owned.tidy run
  rw [show g.ptr = ref.contentMemReg.baseAddr + g.ptr by omega] at found
  obtain ⟨k', at', used', slot⟩ := findSlotByAddr_inside sized owned.tidy inside found
  obtain ⟨rfl, rfl⟩ := slotAddr_inj atk at' slot
  have index : g.ptr / 2 ^ g.order = i := by rw [ptr, Nat.mul_div_cancel i (Nat.two_pow_pos _)]
  have order : k = g.order := owned.tidy.wf.used_unique atk.low at_.low atk.high at_.high usedk (index ▸ used)
  refine ⟨t', tidy', fun g' mem' => ?_, distinct, fun x none => none.elim⟩
  obtain ⟨i', atg, ptr', usedg⟩ := owned.grants g' (List.mem_cons_of_mem _ mem')
  refine ⟨i', atg, ptr', (same _ _).mpr ⟨usedg, ?_⟩⟩
  rintro ⟨orders, rfl⟩
  rw [base, Nat.zero_add, orders, order, index, ← ptr] at ptr'
  exact apart g' mem' ptr'.symm

/-- A grant owns bytes that no other one owns. -/
theorem unowned_of_owns {x : Nat} (held : Held ref h (g :: grants)) (owns : g.owns x) : x ∈ unowned grants := by
  obtain ⟨t, owned⟩ := held
  intro g' mem there
  have apart := (List.pairwise_cons.mp owned.distinct).1 g' mem
  exact owned.disjoint (List.mem_cons_self ..) (List.mem_cons_of_mem _ mem) apart x ⟨owns, there⟩

theorem disjoint {front back : List Grant} {x : Nat} (held : Held ref h (front ++ back)) (mem : g ∈ front)
    (mem' : g' ∈ back) (owns : g.owns x) : ¬ g'.owns x := by
  have order : (front ++ back).Perm (g :: (front.erase g ++ back)) := (List.perm_cons_erase mem).append_right back
  exact (held.perm order).unowned_of_owns owns g' (List.mem_append_right _ mem')

theorem ptr_nodup (held : Held ref h grants) : (grants.map Grant.ptr).Nodup := by
  obtain ⟨t, owned⟩ := held
  exact List.pairwise_map.mpr owned.distinct

/-- Two grants that differ own no byte together. -/
theorem disjoint_of_ne {x : Nat} (held : Held ref h grants) (mem : g ∈ grants) (mem' : g' ∈ grants) (other : g ≠ g')
    (owns : g.owns x) : ¬ g'.owns x :=
  (held.perm (List.perm_cons_erase mem)).unowned_of_owns owns g' ((List.mem_erase_of_ne other.symm).mpr mem')

theorem unowned_of_front {front back : List Grant} {x : Nat} (held : Held ref h (front ++ back)) (mem : g ∈ front)
    (owns : g.owns x) : x ∈ unowned back := fun _ mem' => held.disjoint mem mem' owns

/-- A grant is a page-aligned block in the region. -/
theorem inside (held : Held ref h grants) (base : ref.contentMemReg.baseAddr = 0) (mem : g ∈ grants) :
    4096 ∣ g.ptr ∧ g.ptr + 2 ^ g.order ≤ 2 ^ ref.maxPowOrder := by
  obtain ⟨t, owned⟩ := held
  obtain ⟨i, at_, ptr, -⟩ := owned.grants g mem
  rw [base, Nat.zero_add] at ptr
  have pages : 4096 ∣ 2 ^ g.order := page_dvd_two_pow at_.low
  exact ⟨ptr ▸ Dvd.dvd.mul_left pages i, ptr ▸ at_.end_le⟩

open Blocks Marking in
/-- The used blocks of a header, as grants. -/
theorem of_tidy {t : Marking} (tidy : Tidy ref h t) (base : ref.contentMemReg.baseAddr = 0) :
    ∃ grants, Held ref h grants ∧ ∀ x, Covered 12 ref.maxPowOrder t x → ∃ g ∈ grants, g.owns x := by
  classical
  let blocks := (Finset.range (ref.maxPowOrder + 1) ×ˢ Finset.range (2 ^ ref.maxPowOrder)).filter fun b =>
    12 ≤ b.1 ∧ t b.1 b.2 = some .used
  let grant : Nat × Nat → Grant := fun b => ⟨b.2 * 2 ^ b.1, 2 ^ b.1⟩
  have order : ∀ k i, 12 ≤ k → (grant (k, i)).order = k := fun k i low => by
    simp only [grant, Grant.order, Nat.clog_pow 2 k (by decide)]
    omega
  have block : ∀ b ∈ blocks.toList, 12 ≤ b.1 ∧ b.1 ≤ ref.maxPowOrder ∧ t b.1 b.2 = some .used := fun b mem => by
    simp only [blocks, Finset.mem_toList, Finset.mem_filter, Finset.mem_product, Finset.mem_range] at mem
    exact ⟨mem.2.1, by omega, mem.2.2⟩
  refine ⟨blocks.toList.map grant, ⟨t, tidy, fun g mem => ?_, ?_, fun x none => none.elim⟩, fun x covered => ?_⟩
  · obtain ⟨⟨k, i⟩, there, rfl⟩ := List.mem_map.mp mem
    obtain ⟨low, high, used⟩ := block _ there
    rw [order k i low, base]
    exact ⟨i, ⟨low, high, tidy.wf.index_lt low high used⟩, (Nat.zero_add _).symm, used⟩
  · refine List.pairwise_map.mpr (blocks.nodup_toList.pairwise_of_forall_ne fun b mem b' mem' other same => other ?_)
    obtain ⟨low, high, used⟩ := block b mem
    obtain ⟨low', high', used'⟩ := block b' mem'
    -- their first byte would lie in both
    have here : b.2 * 2 ^ b.1 / 2 ^ b.1 = b.2 := Nat.mul_div_cancel _ (Nat.two_pow_pos _)
    have there : b.2 * 2 ^ b.1 / 2 ^ b'.1 = b'.2 := by
      rw [show b.2 * 2 ^ b.1 = b'.2 * 2 ^ b'.1 from same]
      exact Nat.mul_div_cancel _ (Nat.two_pow_pos _)
    have orders := tidy.wf.used_unique low low' high high' (here.symm ▸ used) (there.symm ▸ used')
    exact Prod.ext orders (by rw [← here, ← there, orders])
  · obtain ⟨k, low, high, used⟩ := covered
    have index := tidy.wf.index_lt low high used
    have few : 2 ^ (ref.maxPowOrder - k) ≤ 2 ^ ref.maxPowOrder := Nat.pow_le_pow_right (by decide) (Nat.sub_le _ _)
    refine ⟨grant (k, x / 2 ^ k), List.mem_map_of_mem ?_, ?_⟩
    · simp only [blocks, Finset.mem_toList, Finset.mem_filter, Finset.mem_product, Finset.mem_range]
      exact ⟨⟨by omega, by omega⟩, low, used⟩
    · rw [Grant.owns, order k _ low]
      exact ⟨Nat.div_mul_le_self x _, Nat.lt_div_mul_add (Nat.two_pow_pos k)⟩

end Held

open Blocks Marking in
/-- At least `n` aligned blocks of `2 ^ k` bytes meet no used block. -/
def Room (ref : BuddyRef) (h : Header) (k n : Nat) : Prop := ∃ t, Tidy ref h t ∧ Roomy 12 ref.maxPowOrder t k n

/-- The `i`th aligned block of `2 ^ k` bytes meets no used block. -/
def FreeBlock (ref : BuddyRef) (h : Header) (k i : Nat) : Prop :=
  i * 2 ^ k + 2 ^ k ≤ ref.contentMemReg.length ∧ ∀ x, i * 2 ^ k ≤ x → x < i * 2 ^ k + 2 ^ k → ¬ InUsedBlock ref h x

open Blocks Marking in
theorem freeBlock_iff {ref : BuddyRef} {h : Header} {t : Marking} {k i : Nat} (tidy : Tidy ref h t) (sized : Sized ref)
    (base : ref.contentMemReg.baseAddr = 0) (slots : headerSlots ref = 2 ^ (ref.maxPowOrder - 11))
    (high : k ≤ ref.maxPowOrder) : FreeBlock ref h k i ↔
      i < 2 ^ (ref.maxPowOrder - k) ∧ ∀ a, a / 2 ^ k = i → ¬ Covered 12 ref.maxPowOrder t a := by
  have pos := Nat.two_pow_pos k
  have index : i * 2 ^ k + 2 ^ k ≤ ref.contentMemReg.length ↔ i < 2 ^ (ref.maxPowOrder - k) := by
    rw [sized.length, ← Nat.succ_mul, ← Nat.le_div_iff_mul_le pos, Nat.pow_div high (by decide)]
    exact Nat.succ_le_iff
  rw [FreeBlock, index]
  refine and_congr_right fun _ => forall_congr' fun a => ?_
  rw [← inUsedBlock_iff slots tidy, base, Nat.zero_add]
  constructor
  · intro free here
    exact free (here ▸ Nat.div_mul_le_self a _) (here ▸ Nat.lt_div_mul_add pos)
  · intro free lower upper
    refine free (Nat.div_eq_of_lt_le lower ?_)
    rwa [Nat.succ_mul]

namespace Room

variable {ref : BuddyRef} {h h' : Header} {k n fuel bytes p : Nat}

theorem of_free (held : ∃ t, Tidy ref h t) (sized : Sized ref) (base : ref.contentMemReg.baseAddr = 0)
    (slots : headerSlots ref = 2 ^ (ref.maxPowOrder - 11)) (high : k ≤ ref.maxPowOrder) {S : Finset Nat} (many : n ≤ S.card)
    (free : ∀ i ∈ S, FreeBlock ref h k i) : Room ref h k n := by
  obtain ⟨t, tidy⟩ := held
  exact ⟨t, tidy, S, many, fun i mem => (freeBlock_iff tidy sized base slots high).mp (free i mem)⟩

theorem free (room : Room ref h k n) (sized : Sized ref) (base : ref.contentMemReg.baseAddr = 0)
    (slots : headerSlots ref = 2 ^ (ref.maxPowOrder - 11)) (high : k ≤ ref.maxPowOrder) :
    ∃ S : Finset Nat, n ≤ S.card ∧ ∀ i ∈ S, FreeBlock ref h k i := by
  obtain ⟨t, tidy, S, many, clear⟩ := room
  exact ⟨S, many, fun i mem => (freeBlock_iff tidy sized base slots high).mpr (clear i mem)⟩

theorem finer {j : Nat} (room : Room ref h k n) (le : j ≤ k) (high : k ≤ ref.maxPowOrder) : Room ref h j n := by
  obtain ⟨t, tidy, roomy⟩ := room
  exact ⟨t, tidy, roomy.finer le high⟩

theorem mono {n' : Nat} (room : Room ref h k n) (le : n' ≤ n) : Room ref h k n' := by
  obtain ⟨t, tidy, S, many, clear⟩ := room
  exact ⟨t, tidy, S, le.trans many, clear⟩

/-- A request that one of them can serve returns. -/
theorem returns (room : Room ref h k (n + 1)) (sized : Sized ref) (low : 12 ≤ k) (high : k ≤ ref.maxPowOrder)
    (pos : 0 < bytes) (fits : bytes ≤ 2 ^ k) (enough : 2 * ref.maxPowOrder < fuel) :
    ∃ answer, buddyAlloc ref fuel h bytes = .ok answer := by
  obtain ⟨t, tidy, roomy⟩ := room
  have top : 2 ^ k ≤ 2 ^ ref.maxPowOrder := Nat.pow_le_pow_right (by decide) high
  have inside : bytes ≤ ref.contentMemReg.length := by
    rw [sized.length]
    omega
  refine (buddyAlloc_total sized tidy pos inside enough).resolve_right fun full => ?_
  obtain ⟨j, f, le, highj, unused⟩ := roomy.unused tidy.wf tidy.coalesced low high
  have order : allocOrder ref bytes ≤ k := (allocOrder_eq sized (by omega) (by omega)).1.2 ⟨low, fits⟩
  exact full.2 j f (by omega) highj unused

/-- It leaves one fewer at most. -/
theorem alloc (room : Room ref h k (n + 1)) (sized : Sized ref) (low : 12 ≤ k) (fits : bytes ≤ 2 ^ k)
    (run : buddyAlloc ref fuel h bytes = .ok (p, h')) : Room ref h' k n := by
  obtain ⟨t, tidy, roomy⟩ := room
  obtain ⟨t', j, i, tidy', -, least, -, -, -, used⟩ := buddyAlloc_spec sized tidy run
  exact ⟨t', tidy', roomy.take (least.2 ⟨low, fits⟩) fun j' f' there => (used j' f').mp there⟩

end Room

/-! ## Calls for the linear map -/

/-- A call of `page_alloc` for an address of the linear map, which user code may not use. -/
structure LinearCall (c : PageCall) : Prop extends PageCall.Valid c where
  vAddr : c.vAddr = virtAddrKernelStart + c.pDestAddr
  supervisor : c.flags &&& pageUserSupervisorBit = 0

/-- What such calls map, they map to the address it stands for. -/
theorem firstWriter_of_linear {calls : List PageCall} (linear : ∀ c ∈ calls, LinearCall c) {v frame flags : Nat}
    (lower : virtAddrKernelStart ≤ v) (upper : v < 2 ^ 64) (found : firstWriter calls v = some (frame, flags)) :
    frame + v % 4096 = v - virtAddrKernelStart ∧ flags &&& pageUserSupervisorBit = 0 := by
  obtain ⟨c, writer, answer⟩ := Option.map_eq_some_iff.mp found
  obtain ⟨rfl, rfl⟩ := Prod.mk.inj answer
  have call := linear c (List.mem_of_find?_eq_some writer)
  have page : samePage c.vAddr v := by simpa using List.find?_some writer
  have low := call.address
  rw [samePage, call.vAddr] at page
  refine ⟨?_, call.supervisor⟩
  unfold virtAddrKernelStart at lower page ⊢
  omega

theorem firstWriter_ne_none {calls : List PageCall} {c : PageCall} {v : Nat} (mem : c ∈ calls)
    (page : samePage c.vAddr v) : firstWriter calls v ≠ none := by
  rw [firstWriter, Ne, Option.map_eq_none_iff, List.find?_eq_none]
  exact fun others => others c mem (decide_eq_true page)

/-- Calls for the pages of a range that begin at or before its end, at their addresses in the linear map. -/
structure Row (p pEnd : Nat) (new : List PageCall) : Prop where
  linear : ∀ c ∈ new, LinearCall c
  within : ∀ c ∈ new, p ≤ c.pDestAddr ∧ c.pDestAddr ≤ pEnd
  covers : 4096 ∣ p → ∀ x, p ≤ x → x ≤ pEnd → ∃ c ∈ new, samePage c.vAddr (virtAddrKernelStart + x)

section Mapping

variable {P : Pool} {w r : Nat} {m m' : Mem} {pgtable pgtable' : PageTable} {calls : List PageCall}

/-- Mapping a range at its addresses in the linear map. -/
theorem Refines.mapLinear (refines : Refines P m pgtable r calls) (valid : ∀ c ∈ calls, c.Valid)
    (reached : P.Reached w r) {flags fuel p pEnd : Nat} (small : flags < 2 ^ 12) (odd : flags % 2 = 1)
    (supervisor : flags &&& pageUserSupervisorBit = 0) (le : p ≤ pEnd) (top : pEnd < 2 ^ 40)
    (run : Kernel.pagingContiguousMap w flags fuel m pgtable p pEnd (virtAddrKernelStart + p) = .ok (m', pgtable')) :
    ∃ new, Row p pEnd new ∧ Refines P m' pgtable' r (calls ++ new) ∧ m.SameOff P.Bytes m' ∧
      ∀ j, entries m r j ≠ 0 → entries m' r j = entries m r j := by
  have word : virtAddrKernelStart + p < 2 ^ 64 := by
    unfold virtAddrKernelStart
    omega
  obtain ⟨first, last⟩ := row_bounds le
  obtain ⟨refines', same, keep⟩ := refines.pagingContiguousMap valid reached small odd top word first last run
  have place : ∀ i < (pEnd - p) / 4096 + 1, Word.add (virtAddrKernelStart + p) (4096 * i) =
      virtAddrKernelStart + (p + 4096 * i) := by
    intro i lt
    rw [Word.add_of_lt (by unfold virtAddrKernelStart; omega), Nat.add_assoc]
  refine ⟨_, ⟨fun c mem => ?_, fun c mem => ?_, fun aligned x lower upper => ?_⟩, refines', same, keep⟩
  · obtain ⟨i, lt, rfl⟩ := mem_rowCalls.mp mem
    exact ⟨⟨small, odd, show p + 4096 * i < 2 ^ 40 by omega⟩, place i lt, supervisor⟩
  · obtain ⟨i, lt, rfl⟩ := mem_rowCalls.mp mem
    exact ⟨Nat.le_add_right _ _, show p + 4096 * i ≤ pEnd by omega⟩
  · have lt : (x - p) / 4096 < (pEnd - p) / 4096 + 1 := by omega
    refine ⟨_, mem_rowCalls.mpr ⟨(x - p) / 4096, lt, rfl⟩, ?_⟩
    show samePage (Word.add _ _) _
    rw [place _ lt, samePage]
    unfold virtAddrKernelStart
    omega

theorem Tables.root_frame {pfdb : PageframeDatabase} {free used : List Nat} (T : Tables P m pfdb r free used) :
    ∃ n ∈ used, n < P.count ∧ r = P.first + n := T.frame_of_reach (show reach _ _ r [] = some r from rfl) (by decide)

theorem Tables.root_lt {pfdb : PageframeDatabase} {free used : List Nat} (T : Tables P m pfdb r free used) : r < 2 ^ 28 :=
  T.reach_lt (show reach _ _ r [] = some r from rfl) (by decide)

/-- The root is a frame of the pool. -/
theorem Refines.root_inside (refines : Refines P m pgtable r calls) {x : Nat} (lower : 4096 * r ≤ x)
    (upper : x < 4096 * r + 4096) : x ∈ P.Bytes := by
  obtain ⟨free, used, T⟩ := refines.tables
  obtain ⟨n, -, lt, rfl⟩ := T.root_frame
  exact .inr ⟨by omega, by omega⟩

end Mapping

/-! ## What a call writes -/

/-- A call writes to the pool and to some other bytes, and changes no entry of the root that is there. -/
structure Writes (P : Pool) (r : Nat) (bytes : Set Nat) (m m' : Mem) : Prop where
  same : m.SameOff (P.Bytes ∪ bytes) m'
  root : ∀ j, entries m r j ≠ 0 → entries m' r j = entries m r j

namespace Writes

variable {P : Pool} {r : Nat} {s t : Set Nat} {m₁ m₂ m₃ : Mem}

theorem refl (P : Pool) (r : Nat) (s : Set Nat) (m : Mem) : Writes P r s m m := ⟨.refl _ m, fun _ _ => rfl⟩

theorem trans (first : Writes P r s m₁ m₂) (second : Writes P r s m₂ m₃) : Writes P r s m₁ m₃ := by
  refine ⟨first.same.trans second.same, fun j found => ?_⟩
  have kept := first.root j found
  rw [second.root j (kept ▸ found), kept]

theorem mono (writes : Writes P r s m₁ m₂) (sub : ∀ x ∈ s, x ∈ t) : Writes P r t m₁ m₂ :=
  ⟨writes.same.mono fun x mem => mem.imp_right (sub x), writes.root⟩

/-- Writing off the pool. -/
theorem of_off (same : m₁.SameOff s m₂) (off : ∀ x ∈ P.Bytes, x ∉ s)
    (root : ∀ x, 4096 * r ≤ x → x < 4096 * r + 4096 → x ∈ P.Bytes) : Writes P r s m₁ m₂ := by
  refine ⟨same.mono fun x mem => .inr mem, fun j _ => ?_⟩
  have := j.isLt
  exact same.load64 fun x lower upper => off x (root x (by omega) (by omega))

end Writes

/-! ## The kernel between calls -/

/-- The kernel's memory between calls. The blocks that are out are the `live` ones and the `fixed` ones,
which hold what the kernel never gives back; the pool of its page table is in the latter. The table holds
what the `calls` of `page_alloc` have written. -/
structure KernelKept (w : Nat) (P : Pool) (r : Nat) (fixed : List Grant) (s : KernelMem) (live : List Grant)
    (calls : List PageCall) : Prop where
  sized : Sized s.alloc
  base : s.alloc.contentMemReg.baseAddr = 0
  small : s.alloc.maxPowOrder < 40
  wide : s.alloc.maxPowOrder ≤ w
  slots : headerSlots s.alloc = 2 ^ (s.alloc.maxPowOrder - 11)
  held : Held s.alloc s.header (live ++ fixed)
  housed : ∀ x ∈ P.Bytes, ∃ g ∈ fixed, g.owns x
  reached : P.Reached w r
  valid : ∀ c ∈ calls, c.Valid
  table : Refines P s.mem s.pgtable r calls

/-- The pool has a frame for every table of the memory the allocator manages. -/
abbrev Stocked (P : Pool) (r : Nat) (s : KernelMem) : Prop :=
  Funded P s.mem s.pgtable r (linearPaths (2 ^ s.alloc.maxPowOrder))

/-- The pool is stocked, and the last byte of memory is kept for good. Without the latter, `kmalloc` could map
the page behind the end: it maps the page behind the bytes asked for as well. -/
structure Ample (P : Pool) (r : Nat) (fixed : List Grant) (s : KernelMem) : Prop where
  stocked : Stocked P r s
  last : ∃ g ∈ fixed, g.owns (2 ^ s.alloc.maxPowOrder - 1)

/-- When the last byte is taken, every other block ends before it. -/
theorem Held.end_lt_last {ref : BuddyRef} {h : Header} {g g' : Grant} {grants : List Grant}
    (held : Held ref h (g :: grants)) (base : ref.contentMemReg.baseAddr = 0) (mem : g' ∈ grants)
    (last : g'.owns (2 ^ ref.maxPowOrder - 1)) : g.ptr + g.bytes < 2 ^ ref.maxPowOrder := by
  obtain ⟨-, inside⟩ := held.inside base (List.mem_cons_self ..)
  have fits : g.bytes ≤ 2 ^ g.order := g.order_least.1.2
  have pos := Nat.two_pow_pos ref.maxPowOrder
  have pos' := Nat.two_pow_pos g.order
  by_contra full
  exact held.unowned_of_owns (x := 2 ^ ref.maxPowOrder - 1) ⟨by omega, by omega⟩ g' mem last

namespace KernelKept

variable {w r : Nat} {P : Pool} {fixed live : List Grant} {calls : List PageCall} {s s' : KernelMem}
  (kept : KernelKept w P r fixed s live calls)

include kept

/-- Calls for the linear map make every mapping one of the linear map. -/
theorem walk_linear (linear : ∀ c ∈ calls, LinearCall c) {v frame flags : Nat} (lower : virtAddrKernelStart ≤ v)
    (upper : v < 2 ^ 64) (found : walk s.mem s.pgtable.physRoot v = some (frame, flags)) :
    frame + v % 4096 = v - virtAddrKernelStart ∧ flags &&& pageUserSupervisorBit = 0 := by
  rw [kept.table.walk_eq kept.valid] at found
  exact firstWriter_of_linear linear lower upper found

theorem top_lt : 2 ^ s.alloc.maxPowOrder < 2 ^ 40 := Nat.pow_lt_pow_right (by decide) kept.small

theorem page_le : 2 ^ 12 ≤ 2 ^ s.alloc.maxPowOrder := Nat.pow_le_pow_right (by decide) kept.sized.le

theorem end_lt {g : Grant} (mem : g ∈ live ++ fixed) : g.ptr + g.bytes < 2 ^ 40 := by
  obtain ⟨-, inside⟩ := kept.held.inside kept.base mem
  have fits : g.bytes ≤ 2 ^ g.order := g.order_least.1.2
  have top := kept.top_lt
  omega

/-- The pool meets no bytes that nobody owns. -/
theorem pool_owned {grants : List Grant} (sub : ∀ g ∈ fixed, g ∈ grants) : ∀ x ∈ P.Bytes, x ∉ unowned grants := by
  intro x inside free
  obtain ⟨g, mem, owns⟩ := kept.housed x inside
  exact free g (sub g mem) owns

/-- Writing off the pool. -/
theorem write {m : Mem} {bytes : Set Nat} (same : s.mem.SameOff bytes m) (off : ∀ x ∈ P.Bytes, x ∉ bytes) :
    KernelKept w P r fixed { s with mem := m } live calls ∧ Writes P r bytes s.mem m ∧
      (Stocked P r s → Stocked P r { s with mem := m }) :=
  ⟨{ kept with table := kept.table.congr same off }, .of_off same off fun _ lower upper => kept.table.root_inside lower upper,
    fun stocked => stocked.congr short_of_mem_linearPaths same off⟩

/-- Mapping a range in the kernel's page table. It returns when the pool is stocked and the range lies in the
memory it is stocked for. -/
theorem mapLinear {flags fuel p pEnd : Nat} (small : flags < 2 ^ 12) (odd : flags % 2 = 1)
    (supervisor : flags &&& pageUserSupervisorBit = 0) (le : p ≤ pEnd) (top : pEnd < 2 ^ 40) :
    Delivers ((Stocked P r s ∧ 4096 ∣ p ∧ pEnd < 2 ^ s.alloc.maxPowOrder) ∧ 2 ^ s.alloc.maxPowOrder ≤ fuel)
      (pagingContiguousMap w flags fuel s.mem s.pgtable p pEnd (virtAddrKernelStart + p)) fun a =>
        (∃ new, Row p pEnd new ∧ KernelKept w P r fixed { s with mem := a.1, pgtable := a.2 } live (calls ++ new) ∧
          Writes P r ∅ s.mem a.1) ∧
        (Stocked P r s ∧ 4096 ∣ p ∧ pEnd < 2 ^ s.alloc.maxPowOrder → Stocked P r { s with mem := a.1, pgtable := a.2 }) := by
  have maps : Stocked P r s ∧ 4096 ∣ p ∧ pEnd < 2 ^ s.alloc.maxPowOrder → _ := fun given =>
    given.1.mapsLinear kept.table.virtRoot kept.reached (Nat.le_of_lt kept.top_lt) small odd given.2.1 le given.2.2
  have page := kept.page_le
  refine ⟨fun a run => ⟨?_, fun given => ?_⟩, fun given => ?_⟩
  · obtain ⟨new, row, refines, same, keep⟩ := kept.table.mapLinear kept.valid kept.reached small odd supervisor le top run
    have valid : ∀ c ∈ calls ++ new, c.Valid := by
      intro c mem
      rcases List.mem_append.mp mem with old | fresh
      · exact kept.valid c old
      · exact (row.linear c fresh).toValid
    exact ⟨new, row, { kept with valid := valid, table := refines }, same.mono fun x mem => .inl mem, keep⟩
  · obtain ⟨m, pfdb, returns, stocked⟩ := maps given
    cases returns.only fuel _ run
    exact stocked
  · obtain ⟨m, pfdb, returns, -⟩ := maps given.1
    have inside := given.1.2.2
    exact ⟨_, returns.enough fuel (by omega)⟩

/-- Mapping a block that is out. -/
theorem mapGrant {flags fuel v : Nat} (small : flags < 2 ^ 12) (odd : flags % 2 = 1)
    (supervisor : flags &&& pageUserSupervisorBit = 0) {g : Grant} (mem : g ∈ live ++ fixed) (address : va g.ptr = .ok v) :
    Delivers ((Stocked P r s ∧ g.ptr + g.bytes < 2 ^ s.alloc.maxPowOrder) ∧ 2 ^ s.alloc.maxPowOrder ≤ fuel)
      (pagingContiguousMap w flags fuel s.mem s.pgtable g.ptr (Word.add g.ptr g.bytes) v) fun a =>
        (∃ new, Row g.ptr (g.ptr + g.bytes) new ∧
          KernelKept w P r fixed { s with mem := a.1, pgtable := a.2 } live (calls ++ new) ∧ Writes P r ∅ s.mem a.1) ∧
        (Stocked P r s ∧ g.ptr + g.bytes < 2 ^ s.alloc.maxPowOrder → Stocked P r { s with mem := a.1, pgtable := a.2 }) := by
  have end_ := kept.end_lt mem
  obtain ⟨aligned, -⟩ := kept.held.inside kept.base mem
  obtain rfl : virtAddrKernelStart + g.ptr = v := Except.ok.inj ((va_of_lt (by omega)).symm.trans address)
  rw [Word.add_of_lt (by omega)]
  refine (kept.mapLinear small odd supervisor (Nat.le_add_right _ _) end_).imp (fun given => ?_) fun a done => ?_
  · exact ⟨⟨given.1.1, aligned, given.1.2⟩, given.2⟩
  · exact ⟨done.1, fun given => done.2 ⟨given.1, aligned, given.2⟩⟩

/-- What `kmalloc` does: the block is out, its pages are mapped unless it is a raw one, and what is written
to is the pool and bytes that nobody owned. It returns when the allocator does and there are frames. -/
theorem kmalloc (fuel bytes flags : Nat) :
    Delivers (Ample P r fixed s ∧ 2 ^ s.alloc.maxPowOrder ≤ fuel ∧
        ∃ answer, buddyAlloc s.alloc fuel s.header bytes = .ok answer) (kmalloc w fuel s bytes flags) fun a =>
      a.1 = virtAddrKernelStart + linear a.1 ∧ a.2.alloc = s.alloc ∧
      (∃ new, KernelKept w P r fixed a.2 (⟨linear a.1, bytes⟩ :: live) (calls ++ new) ∧
        Writes P r (unowned (live ++ fixed)) s.mem a.2.mem ∧
        if flags &&& kmemRawAlloc = 0 then Row (linear a.1) (linear a.1 + bytes) new else new = []) ∧
      (Ample P r fixed s → Ample P r fixed a.2) := by
  refine Delivers.bind .self (fun given => given.2.2) ?_
  rintro ⟨p, h⟩ alloc
  have held := kept.held.alloc kept.sized alloc
  dsimp only
  obtain ⟨-, inside⟩ := held.inside kept.base (List.mem_cons_self ..)
  have fits : bytes ≤ 2 ^ (⟨p, bytes⟩ : Grant).order := (Grant.order_least ⟨p, bytes⟩).1.2
  have top := kept.top_lt
  simp only at inside
  have back : linear (virtAddrKernelStart + p) = p := linear_start (by omega)
  have taken : KernelKept w P r fixed { s with header := h } (⟨p, bytes⟩ :: live) calls := { kept with held := held }
  have address : va p = .ok (virtAddrKernelStart + p) := va_of_lt (by omega)
  rw [address, ok_bind]
  split
  · refine Delivers.bind (taken.mapGrant (by decide) (by decide) (by decide) (List.mem_cons_self ..) address)
      (fun given => ?_) ?_
    · obtain ⟨⟨stocked, g, mem, last⟩, enough, -⟩ := given
      exact ⟨⟨stocked, held.end_lt_last kept.base (List.mem_append_right live mem) last⟩, enough⟩
    · rintro ⟨m, pgtable⟩ ⟨⟨new, row, mapped, writes⟩, stocks⟩
      have cleared : m.SameOff (unowned (live ++ fixed)) (if flags &&& kmemZero ≠ 0 then m.fill p bytes 0 else m) := by
        split
        · exact .fill fun x lower upper => held.unowned_of_owns (Grant.owns_of_lt lower upper)
        · exact .refl _ _
      -- clearing the block leaves the tables alone
      obtain ⟨after, writes', stocks'⟩ :=
        mapped.write cleared (kept.pool_owned fun g mem => List.mem_append_right live mem)
      refine .ok ?_
      dsimp only
      rw [back]
      refine ⟨rfl, rfl, ⟨new, after, (writes.mono fun x none => none.elim).trans writes', row⟩,
        fun ample => ⟨stocks' ?_, ample.last⟩⟩
      obtain ⟨g, mem, last⟩ := ample.last
      exact stocks ⟨ample.stocked, held.end_lt_last kept.base (List.mem_append_right live mem) last⟩
  · refine .ok ?_
    dsimp only
    rw [back]
    refine ⟨rfl, rfl, ⟨[], ?_, .refl _ _ _ _, rfl⟩, fun ample => ⟨ample.stocked, ample.last⟩⟩
    rwa [List.append_nil]

/-- The pages of a block that is not a raw one are mapped. -/
theorem kmalloc_mapped {fuel bytes flags ptr : Nat} (run : Kernel.kmalloc w fuel s bytes flags = .ok (ptr, s'))
    (default : flags &&& kmemRawAlloc = 0) {x : Nat} (lower : linear ptr ≤ x) (upper : x ≤ linear ptr + bytes) :
    walk s'.mem s'.pgtable.physRoot (virtAddrKernelStart + x) ≠ none := by
  obtain ⟨-, -, ⟨new, after, -, row⟩, -⟩ := (kept.kmalloc fuel bytes flags).post _ run
  rw [if_pos default] at row
  obtain ⟨aligned, -⟩ := after.held.inside after.base (List.mem_cons_self ..)
  obtain ⟨c, mem, page⟩ := row.covers aligned x lower upper
  rw [after.table.walk_eq after.valid]
  exact firstWriter_ne_none (List.mem_append_right _ mem) page

/-- What `kfree` of a block that is out does. -/
theorem kfree {fuel ptr bytes : Nat} (mem : ⟨linear ptr, bytes⟩ ∈ live) (run : kfree fuel s ptr = .ok s') :
    KernelKept w P r fixed s' (live.erase ⟨linear ptr, bytes⟩) calls ∧ ∃ h, s' = { s with header := h } := by
  obtain ⟨p, address, run⟩ := bind_eq_ok.mp run
  obtain ⟨h, free, run⟩ := bind_eq_ok.mp run
  rw [pa_eq address] at free
  have order : (live ++ fixed).Perm (⟨linear ptr, bytes⟩ :: (live.erase ⟨linear ptr, bytes⟩ ++ fixed)) :=
    (List.perm_cons_erase mem).append_right fixed
  have held := (kept.held.perm order).free kept.sized kept.base free
  cases run
  exact ⟨{ kept with held := held }, h, rfl⟩

omit kept in
/-- Blocks that are out are kept for good. -/
theorem fix {gs : List Grant} (kept : KernelKept w P r fixed s (gs ++ live) calls) :
    KernelKept w P r (gs ++ fixed) s live calls := by
  have order : (gs ++ live ++ fixed).Perm (live ++ (gs ++ fixed)) := by
    rw [← List.append_assoc]
    exact List.perm_append_comm.append_right fixed
  exact { kept with
    held := kept.held.perm order
    housed := fun x inside => (kept.housed x inside).imp fun _ found => ⟨List.mem_append_right _ found.1, found.2⟩ }

end KernelKept

/-! ## Several calls -/

/-- A call is for a page of a grant, or for the page behind it. -/
def Grant.Spans (g : Grant) (c : PageCall) : Prop := g.ptr ≤ c.pDestAddr ∧ c.pDestAddr ≤ g.ptr + g.bytes

/-- None of the grants is for more than `2 ^ k` bytes. -/
def Capped (k : Nat) (gs : List Grant) : Prop := ∀ g ∈ gs, g.bytes ≤ 2 ^ k

theorem Capped.nil (k : Nat) : Capped k [] := fun _ none => absurd none List.not_mem_nil

theorem Capped.cons {k p bytes : Nat} {gs : List Grant} (fits : Capped k gs) (first : bytes ≤ 2 ^ k) :
    Capped k (⟨p, bytes⟩ :: gs) :=
  List.forall_mem_cons.mpr ⟨first, fits⟩

/-- A kernel function in between: since the state was `start` it has allocated the blocks `gs`, mapped some of
their pages, and written to them, to the pool and to bytes nobody owned. -/
structure Building (w : Nat) (P : Pool) (r : Nat) (fixed live : List Grant) (calls : List PageCall)
    (start s : KernelMem) (gs : List Grant) (new : List PageCall) : Prop where
  kept : KernelKept w P r fixed s (gs ++ live) (calls ++ new)
  alloc : s.alloc = start.alloc
  linear : ∀ c ∈ new, LinearCall c
  within : ∀ c ∈ new, ∃ g ∈ gs, g.Spans c
  writes : Writes P r (unowned (live ++ fixed)) start.mem s.mem
  ample : Ample P r fixed start → Ample P r fixed s
  room : ∀ k n, 12 ≤ k → Capped k gs → Room start.alloc start.header k (n + gs.length) →
    Room s.alloc s.header k n

namespace Building

variable {w r : Nat} {P : Pool} {fixed live gs : List Grant} {calls new : List PageCall} {start s s' : KernelMem}

theorem begin (kept : KernelKept w P r fixed s live calls) : Building w P r fixed live calls s s [] [] where
  kept := by rwa [List.nil_append, List.append_nil]
  alloc := rfl
  linear _ none := absurd none List.not_mem_nil
  within _ none := absurd none List.not_mem_nil
  writes := .refl _ _ _ _
  ample ample := ample
  room _ _ _ _ room := room

variable (build : Building w P r fixed live calls start s gs new)

include build

/-- What its blocks hold is apart from the pool and from everything else. -/
theorem own {g : Grant} (mem : g ∈ gs) {x : Nat} (owns : g.owns x) : x ∈ unowned (live ++ fixed) ∧ x ∉ P.Bytes := by
  have held : Held s.alloc s.header (gs ++ (live ++ fixed)) := by
    rw [← List.append_assoc]
    exact build.kept.held
  have free := held.unowned_of_front mem owns
  have pools : ∀ x ∈ P.Bytes, x ∉ unowned (live ++ fixed) :=
    build.kept.pool_owned fun g mem => List.mem_append_right _ mem
  exact ⟨free, fun pool => pools x pool free⟩

/-- A call of `kmalloc` writes to none of its blocks. -/
theorem off {bytes : Set Nat} (inside : ∀ x ∈ bytes, ∃ g ∈ gs, g.owns x) :
    ∀ x ∈ bytes, x ∉ P.Bytes ∪ unowned (gs ++ live ++ fixed) := by
  intro x mem
  obtain ⟨g, memg, owns⟩ := inside x mem
  rintro (pool | free)
  · exact (build.own memg owns).2 pool
  · exact free g (List.mem_append_left _ (List.mem_append_left _ memg)) owns

/-- A block more. `kmalloc` returns when there was room for one block more than there are. -/
theorem kmalloc (fuel bytes flags : Nat) {k n : Nat} :
    Delivers (Ample P r fixed start ∧ 2 ^ start.alloc.maxPowOrder ≤ fuel ∧ 12 ≤ k ∧ k ≤ start.alloc.maxPowOrder ∧
        0 < bytes ∧ bytes ≤ 2 ^ k ∧ Capped k gs ∧ Room start.alloc start.header k (n + 1 + gs.length))
      (kmalloc w fuel s bytes flags) fun a => a.1 = virtAddrKernelStart + AlmeidaOS.Kernel.linear a.1 ∧
        ∃ new', Building w P r fixed live calls start a.2 (⟨AlmeidaOS.Kernel.linear a.1, bytes⟩ :: gs) new' ∧
          Writes P r (unowned (gs ++ live ++ fixed)) s.mem a.2.mem := by
  have sized := build.kept.sized
  refine ⟨fun a run => ?_, fun given => ?_⟩
  · obtain ⟨place, alloc, ⟨more, after, writes, row⟩, ample⟩ := (build.kept.kmalloc fuel bytes flags).post a run
    have linears : ∀ c ∈ more, LinearCall c ∧ Grant.Spans ⟨AlmeidaOS.Kernel.linear a.1, bytes⟩ c := by
      intro c mem
      split at row
      · exact ⟨row.linear c mem, row.within c mem⟩
      · rw [row] at mem
        cases mem
    refine ⟨place, new ++ more, ⟨?_, alloc.trans build.alloc, fun c mem => ?_, fun c mem => ?_, ?_,
      fun given => ample (build.ample given), fun k n low fits room => ?_⟩, writes⟩
    · rw [← List.append_assoc]
      exact after
    · rcases List.mem_append.mp mem with old | fresh
      · exact build.linear c old
      · exact (linears c fresh).1
    · rcases List.mem_append.mp mem with old | fresh
      · exact (build.within c old).imp fun _ found => ⟨List.mem_cons_of_mem _ found.1, found.2⟩
      · exact ⟨_, List.mem_cons_self .., (linears c fresh).2⟩
    · refine build.writes.trans (writes.mono (unowned_sub fun g mem => ?_))
      rw [List.append_assoc]
      exact List.mem_append_right _ mem
    · obtain ⟨fits, others⟩ := List.forall_mem_cons.mp fits
      obtain ⟨-, p, alloc', -⟩ := kmalloc_alloc run
      rw [alloc]
      refine (build.room k (n + 1) low others ?_).alloc sized low fits alloc'
      rwa [List.length_cons, ← Nat.add_assoc, Nat.add_right_comm] at room
  · obtain ⟨ample, enough, low, high, pos, fits, others, room⟩ := given
    rw [← build.alloc] at enough high
    have page : 2 ^ 12 ≤ 2 ^ s.alloc.maxPowOrder := build.kept.page_le
    have double : 2 * s.alloc.maxPowOrder < 2 ^ s.alloc.maxPowOrder := by
      have := build.kept.small
      omega
    refine (build.kept.kmalloc fuel bytes flags).returns ⟨build.ample ample, enough, ?_⟩
    exact (build.room k (n + 1) low others room).returns sized low high pos fits (by omega)

/-- Writing to its own blocks. -/
theorem write {m : Mem} {bytes : Set Nat} (same : s.mem.SameOff bytes m) (inside : ∀ x ∈ bytes, ∃ g ∈ gs, g.owns x) :
    Building w P r fixed live calls start { s with mem := m } gs new := by
  have own : ∀ x ∈ bytes, x ∈ unowned (live ++ fixed) ∧ x ∉ P.Bytes := by
    intro x mem
    obtain ⟨g, memg, owns⟩ := inside x mem
    exact build.own memg owns
  obtain ⟨kept, writes, stocks⟩ := build.kept.write same fun x pool mem => (own x mem).2 pool
  exact { build with
    kept := kept
    writes := build.writes.trans (writes.mono fun x mem => (own x mem).1)
    ample := fun given => ⟨stocks (build.ample given).stocked, (build.ample given).last⟩ }

end Building

end AlmeidaOS.Kernel
