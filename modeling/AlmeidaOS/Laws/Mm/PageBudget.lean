import Mathlib.Algebra.BigOperators.Group.Finset.Basic
import AlmeidaOS.Laws.Mm.PageAlloc

/-!
# How many frames a page table needs

To map `[0, bytes)` in the linear map takes a page table for every 2 MiB, a directory for every 512 of
those and so on up to the root. `tablePaths` are the ways to all of them, and `vacant` counts those that
are not there yet: a call of `page_alloc` for a page of the range takes as many frames as it makes paths
lead somewhere, so the pool suffices when it has a frame for every path.

`paging_calc_space_needed` rounds the numbers of the upper tables up when the quotient, not the
remainder, is no multiple of 512. For most amounts it leaves out the table of the last part.
-/

namespace AlmeidaOS.Kernel

open Radix

/-! ## The budget -/

/-- The page tables that the pages of `[0, bytes)` lie in. -/
def pageTables (bytes : Nat) : Nat := (bytes + 0x1fffff) / 0x200000

/-- The frames that `paging_calc_space_needed` reckons with for a number of page tables. -/
def budget (q : Nat) : Nat :=
  let pd := if q / 512 % 512 ≠ 0 then q / 512 + 1 else q / 512
  let pdp := if pd / 512 % 512 ≠ 0 then pd / 512 + 1 else pd / 512
  1 + pdp + pd + q

/-- The frames that it takes: the root, and the tables of every level above a page table. -/
def needed (q : Nat) : Nat := 1 + (q + 0x3ffff) / 0x40000 + (q + 511) / 512 + q

theorem pageTables_pos {bytes : Nat} (pos : 0 < bytes) : 0 < pageTables bytes := by
  unfold pageTables
  omega

theorem pageTables_le {bytes : Nat} (small : bytes ≤ 2 ^ 40) : pageTables bytes ≤ 2 ^ 19 := by
  unfold pageTables
  omega

theorem budget_le {q : Nat} (few : q ≤ 2 ^ 19) : budget q ≤ 2 ^ 19 + 2000 := by
  unfold budget
  dsimp only
  split <;> split <;> omega

theorem lt_budget (q : Nat) : q < budget q := by
  unfold budget
  dsimp only
  omega

theorem pagingCalcSpaceNeeded_eq {bytes : Nat} (small : bytes ≤ 2 ^ 40) :
    pagingCalcSpaceNeeded bytes = 4096 * budget (pageTables bytes) := by
  have few := pageTables_le small
  have most := budget_le few
  have tables : (if bytes % (2 * 1024 * 1024) ≠ 0 then (bytes / (2 * 1024 * 1024) % 2 ^ 32 + 1) % 2 ^ 32
      else bytes / (2 * 1024 * 1024) % 2 ^ 32) = pageTables bytes := by
    unfold pageTables
    split <;> omega
  rw [pagingCalcSpaceNeeded, tables, show pageSize = 4096 from rfl]
  generalize pageTables bytes = q at *
  unfold budget at *
  dsimp only at *
  omega

theorem pageframeCalcSpaceNeeded_eq {n : Nat} (few : n ≤ 2 ^ 40) : pageframeCalcSpaceNeeded (4096 * n) = 16 * n := by
  rw [pageframeCalcSpaceNeeded, show pageframeSize = 4096 from rfl, show sizeofPageframe = 16 from rfl,
    Nat.mul_div_cancel_left n (by decide), Word.mul, Nat.mod_eq_of_lt (by omega), Nat.mul_comm]

/-- The budget covers what is needed for whole GiBs, and from 511 GiB on but for the GiB behind 512. -/
theorem needed_le_budget_iff {q : Nat} (pos : 0 < q) (few : q ≤ 2 ^ 19) :
    needed q ≤ budget q ↔ q % 512 = 0 ∨ 511 * 512 ≤ q ∧ q / 512 ≠ 512 := by
  unfold needed budget
  dsimp only
  split <;> split <;> omega

/-! ## The tables of the range -/

theorem pml4Index_linear {x : Nat} (low : x < 2 ^ 47) :
    (pml4Index (virtAddrKernelStart + x) : Nat) = 256 + x / 2 ^ 39 := by
  show pml4e _ = _
  rw [pml4e, extractBitChunk_eq (by decide), virtAddrKernelStart]
  omega

theorem pdpIndex_linear (x : Nat) : (pdpIndex (virtAddrKernelStart + x) : Nat) = x / 2 ^ 30 % 512 := by
  show pdpte _ = _
  rw [pdpte, extractBitChunk_eq (by decide), virtAddrKernelStart]
  omega

theorem pdIndex_linear (x : Nat) : (pdIndex (virtAddrKernelStart + x) : Nat) = x / 2 ^ 21 % 512 := by
  show pde _ = _
  rw [pde, extractBitChunk_eq (by decide), virtAddrKernelStart]
  omega

/-- The way to the page table of the part of the linear map with the number `k`, a part being 2 MiB. -/
def partPath (k : Nat) : List (Fin 512) := path (virtAddrKernelStart + k * 2 ^ 21)

theorem path_linear {x : Nat} (low : x < 2 ^ 47) : path (virtAddrKernelStart + x) = partPath (x / 2 ^ 21) := by
  unfold partPath path
  simp only [List.cons.injEq, Fin.ext_iff, and_true, pml4Index_linear low, pdpIndex_linear, pdIndex_linear]
  rw [pml4Index_linear (by omega)]
  omega

theorem partPath_length (k : Nat) : (partPath k).length = 3 := path_length _

/-- Two parts lie below one table of a level when they lie in one of the pieces that the level divides
the map into. -/
theorem partPath_take {j k l : Nat} (depth : j ≤ 3) (few : k < 2 ^ 26) (few' : l < 2 ^ 26) :
    (partPath k).take j = (partPath l).take j ↔ k / 512 ^ (3 - j) = l / 512 ^ (3 - j) := by
  unfold partPath path
  obtain rfl | rfl | rfl | rfl : j = 0 ∨ j = 1 ∨ j = 2 ∨ j = 3 := by omega
  · simp only [List.take_zero, true_iff]
    omega
  all_goals simp only [List.take_succ_cons, List.take_zero, List.cons.injEq, Fin.ext_iff, and_true, pdpIndex_linear,
    pdIndex_linear]
  all_goals rw [pml4Index_linear (by omega), pml4Index_linear (by omega)]
  all_goals omega

/-- The ways to the tables at a depth, for the first `q` parts. -/
def levelPaths (q j : Nat) : Finset (List (Fin 512)) :=
  (Finset.range ((q + 512 ^ (3 - j) - 1) / 512 ^ (3 - j))).image fun k => (partPath (k * 512 ^ (3 - j))).take j

/-- The ways to all tables of the first `q` parts. -/
def tablePaths (q : Nat) : Finset (List (Fin 512)) := (Finset.range 4).biUnion (levelPaths q)

theorem mem_levelPaths {q j : Nat} {js : List (Fin 512)} : js ∈ levelPaths q j ↔
    ∃ k, k < (q + 512 ^ (3 - j) - 1) / 512 ^ (3 - j) ∧ (partPath (k * 512 ^ (3 - j))).take j = js := by
  simp only [levelPaths, Finset.mem_image, Finset.mem_range]

/-- The `k`th table of a level is there as soon as the part it begins with is. -/
theorem lt_ceil_iff {q d k : Nat} (pos : 0 < d) : k < (q + d - 1) / d ↔ k * d < q := by
  rw [Nat.lt_iff_add_one_le, Nat.le_div_iff_mul_le pos, Nat.succ_mul]
  omega

theorem card_levelPaths {q j : Nat} (few : q ≤ 2 ^ 19) (depth : j ≤ 3) :
    (levelPaths q j).card = (q + 512 ^ (3 - j) - 1) / 512 ^ (3 - j) := by
  have pos : 0 < 512 ^ (3 - j) := Nat.pow_pos (by decide)
  rw [levelPaths, Finset.card_image_of_injOn, Finset.card_range]
  intro k inside l inside' same
  have below := (lt_ceil_iff pos).mp (Finset.mem_range.mp inside)
  have below' := (lt_ceil_iff pos).mp (Finset.mem_range.mp inside')
  have piece := (partPath_take depth (by omega) (by omega)).mp same
  rwa [Nat.mul_div_cancel k pos, Nat.mul_div_cancel l pos] at piece

theorem length_of_mem_levelPaths {q j : Nat} (depth : j ≤ 3) {js : List (Fin 512)} (mem : js ∈ levelPaths q j) :
    js.length = j := by
  obtain ⟨k, -, rfl⟩ := mem_levelPaths.mp mem
  rw [List.length_take, partPath_length]
  omega

theorem card_tablePaths {q : Nat} (pos : 0 < q) (few : q ≤ 2 ^ 19) : (tablePaths q).card = needed q := by
  rw [tablePaths, Finset.card_biUnion]
  · have levels : ∀ j ∈ Finset.range 4, (levelPaths q j).card = (q + 512 ^ (3 - j) - 1) / 512 ^ (3 - j) :=
      fun j inside => card_levelPaths few (Nat.le_of_lt_succ (Finset.mem_range.mp inside))
    rw [Finset.sum_congr rfl levels, needed]
    simp only [Finset.sum_range_succ, Finset.sum_range_zero]
    omega
  · -- paths of different levels have different lengths
    intro i inside j inside' other
    rw [Finset.coe_range, Set.mem_Iio] at inside inside'
    rw [Function.onFun, Finset.disjoint_left]
    intro js mem mem'
    rw [← length_of_mem_levelPaths (Nat.le_of_lt_succ inside) mem] at other
    exact other (length_of_mem_levelPaths (Nat.le_of_lt_succ inside') mem')

/-- The way to an address of the range leads through these tables. -/
theorem prefix_mem_tablePaths {q x : Nat} (few : q ≤ 2 ^ 19) (inside : x / 2 ^ 21 < q) {js : List (Fin 512)}
    (pre : js <+: path (virtAddrKernelStart + x)) : js ∈ tablePaths q := by
  rw [path_linear (by omega)] at pre
  have depth : js.length ≤ 3 := pre.length_le
  have pos : 0 < 512 ^ (3 - js.length) := Nat.pow_pos (by decide)
  have le := Nat.div_mul_le_self (x / 2 ^ 21) (512 ^ (3 - js.length))
  refine Finset.mem_biUnion.mpr ⟨js.length, Finset.mem_range.mpr (Nat.lt_succ_of_le depth), mem_levelPaths.mpr
    ⟨x / 2 ^ 21 / 512 ^ (3 - js.length), (lt_ceil_iff pos).mpr (by omega), ?_⟩⟩
  rw [(partPath_take depth (by omega) (by omega)).mpr (Nat.mul_div_cancel _ pos)]
  exact (List.prefix_iff_eq_take.mp pre).symm

/-- Each of them is on the way to some page. -/
theorem prefix_of_mem_tablePaths {q : Nat} {js : List (Fin 512)} (mem : js ∈ tablePaths q) :
    ∃ k < q, js <+: path (virtAddrKernelStart + k * 2 ^ 21) := by
  obtain ⟨j, inside, mem⟩ := Finset.mem_biUnion.mp mem
  obtain ⟨k, below, rfl⟩ := mem_levelPaths.mp mem
  exact ⟨k * 512 ^ (3 - j), (lt_ceil_iff (Nat.pow_pos (by decide))).mp below, List.take_prefix ..⟩

theorem short_of_mem_tablePaths {q : Nat} {js : List (Fin 512)} (mem : js ∈ tablePaths q) : js.length ≤ 3 := by
  obtain ⟨k, -, pre⟩ := prefix_of_mem_tablePaths mem
  exact pre.length_le

/-! ## Runs within the budget -/

/-- A call that maps a page of `[0, bytes)` at its address in the linear map. -/
structure MapsPage (bytes : Nat) (c : PageCall) : Prop where
  flags : c.flags < 2 ^ 12
  present : c.flags % 2 = 1
  page : ∃ i, 4096 * i < bytes ∧ c.vAddr = 0xffff800000000000 + 4096 * i ∧ c.pDestAddr = 4096 * i

section Runs

variable {P : Pool} {m : Mem} {pgtable : PageTable} {r w bytes : Nat} {free used : List Nat}

theorem MapsPage.valid {c : PageCall} (maps : MapsPage bytes c) (small : bytes ≤ 2 ^ 40) : c.Valid := by
  obtain ⟨i, inside, -, frame⟩ := maps.page
  exact ⟨maps.flags, maps.present, by omega⟩

theorem MapsPage.path_mem {c : PageCall} (maps : MapsPage bytes c) (small : bytes ≤ 2 ^ 40) {js : List (Fin 512)}
    (pre : js <+: path c.vAddr) : js ∈ tablePaths (pageTables bytes) := by
  obtain ⟨i, inside, vAddr, -⟩ := maps.page
  rw [vAddr] at pre
  refine prefix_mem_tablePaths (pageTables_le small) ?_ pre
  unfold pageTables
  omega

/-- What is left of the budget covers what is vacant, whatever pages of the range are mapped. -/
theorem Tables.supplied (T : Tables P m pgtable.pfdb r free used) (physRoot : pgtable.physRoot = 4096 * r)
    (virtRoot : pgtable.virtRoot = virtAddrKernelStart + 4096 * r) (reached : P.Reached w r) (small : bytes ≤ 2 ^ 40)
    (room : (vacant frameNumber (entries m) r (tablePaths (pageTables bytes))).card ≤ free.length)
    {calls : List PageCall} (pages : ∀ c ∈ calls, MapsPage bytes c) : Supplied w m pgtable calls := by
  induction calls generalizing m pgtable free used with
  | nil => trivial
  | cons c calls ih =>
    rw [List.forall_mem_cons] at pages
    obtain ⟨maps, pages⟩ := pages
    have within : ∀ ps, ps <+: path c.vAddr → ps ∈ tablePaths (pageTables bytes) := fun ps => maps.path_mem small
    refine ⟨?_, fun m' pgtable' run => ?_⟩
    · rw [T.lists.hasFree_iff, missingTables, physRoot, Nat.mul_div_cancel_left r (by decide)]
      exact (missing_le_vacant within).trans room
    · have odd := maps.present
      have flagged : c.flags % 4096 ≠ 0 ∨ 0 < P.first := .inl (by omega)
      rcases T.pageAlloc (v := c.vAddr) (p := c.pDestAddr) virtRoot flagged reached with
        ⟨fail, -⟩ | ⟨m₁, pfdb₁, free₁, used₁, ran, count, T₁, grows, -, leaf⟩
      · rw [fail] at run
        cases run
      · obtain ⟨rfl, rfl⟩ := Prod.mk.inj (Except.ok.inj (ran.symm.trans run))
        have written : lookup frameNumber (entries m₁) r (path c.vAddr) (ptIndex c.vAddr) ≠ 0 := by
          rw [leaf _ _ (path_length _)]
          split
          · exact present_ne_zero ((maps.valid small).entry_present _)
          · rename_i kept
            exact fun zero => kept ⟨⟨rfl, rfl⟩, zero⟩
        obtain ⟨t, filled⟩ := reach_of_lookup written
        have fewer := vacant_add_missing_le within
          (fun js u mem at_ => ⟨u, grows.reach js u (short_of_mem_tablePaths mem) at_⟩) filled
        exact ih T₁ physRoot virtRoot (by omega) pages

/-- A run leaves a page table with the same root. -/
theorem Tables.run (T : Tables P m pgtable.pfdb r free used)
    (virtRoot : pgtable.virtRoot = virtAddrKernelStart + 4096 * r) (reached : P.Reached w r)
    {calls : List PageCall} (odd : ∀ c ∈ calls, c.flags % 2 = 1) {m' : Mem} {pgtable' : PageTable}
    (run : pageAllocs w m pgtable calls = .ok (m', pgtable')) :
    pgtable'.physRoot = pgtable.physRoot ∧ ∃ free' used', Tables P m' pgtable'.pfdb r free' used' := by
  induction calls generalizing m pgtable free used with
  | nil =>
    obtain ⟨rfl, rfl⟩ := Prod.mk.inj (Except.ok.inj run)
    exact ⟨rfl, free, used, T⟩
  | cons c calls ih =>
    rw [List.forall_mem_cons] at odd
    rw [pageAllocs, bind_eq_ok] at run
    obtain ⟨s, first, rest⟩ := run
    have flagged : c.flags % 4096 ≠ 0 ∨ 0 < P.first := .inl (by omega)
    rcases T.pageAlloc (v := c.vAddr) (p := c.pDestAddr) virtRoot flagged reached with
      ⟨fail, -⟩ | ⟨m₁, pfdb₁, free₁, used₁, ran, -, T₁, -⟩
    · rw [fail] at first
      cases first
    · obtain rfl := Except.ok.inj (ran.symm.trans first)
      exact @ih m₁ { pgtable with pfdb := pfdb₁ } free₁ used₁ T₁ virtRoot odd.2 rest

/-- A walk that answers leads through tables that are there. -/
theorem reach_of_walk {v : Nat} (found : walk m (4096 * r) v ≠ none) :
    ∃ t, reach frameNumber (entries m) r (path v) = some t := by
  classical
  rw [walk_eq] at found
  split at found
  · rename_i walks
    exact reach_of_lookup (present_ne_zero (walks _ _ (List.prefix_refl _)))
  · exact absurd rfl found

/-- A page table that maps every part of the range has a frame for every table. -/
theorem Tables.needed_le (T : Tables P m pgtable.pfdb r free used) {q : Nat} (pos : 0 < q) (few : q ≤ 2 ^ 19)
    (mapped : ∀ k < q, walk m (4096 * r) (virtAddrKernelStart + k * 2 ^ 21) ≠ none) : needed q ≤ P.count := by
  have nodup : (used.map fun i => P.first + i).Nodup := by
    refine List.Nodup.map (fun i j same => by simpa using same) ?_
    exact (List.nodup_append.mp T.lists.nodup).2.1
  have every : ∀ js ∈ tablePaths q, ∃ t ∈ (used.map fun i => P.first + i).toFinset,
      reach frameNumber (entries m) r js = some t := by
    intro js mem
    obtain ⟨k, inside, pre⟩ := prefix_of_mem_tablePaths mem
    obtain ⟨u, whole⟩ := reach_of_walk (mapped k inside)
    obtain ⟨t, at_⟩ := reach_of_prefix whole pre
    obtain ⟨i, inUse, -, rfl⟩ := T.frame_of_reach at_ (short_of_mem_tablePaths mem)
    exact ⟨_, List.mem_toFinset.mpr (List.mem_map.mpr ⟨i, inUse, rfl⟩), at_⟩
  have count := card_le_of_reached T.shape.tree (fun js mem => short_of_mem_tablePaths mem) every
  rw [card_tablePaths pos few, List.toFinset_card_of_nodup nodup, List.length_map] at count
  have := T.lists.length
  omega

end Runs

/-! ## Tables out of reach -/

/-- A head that the free list may have. -/
def Pool.Pointer (P : Pool) (p : Nat) : Prop := p = 0 ∨ ∃ k < P.count, p = P.node k

section Unreached

variable {P : Pool} {m m' : Mem} {pfdb pfdb' : PageframeDatabase} {slot flags w : Nat} {free used : List Nat}

theorem Pool.Lists.pointer (lists : P.Lists m pfdb free used) : P.Pointer pfdb.free := by
  cases free with
  | nil => exact .inl lists.freeList
  | cons i free => exact .inr ⟨i, lists.lt_of_free (List.mem_cons_self ..), lists.freeList.1⟩

/-- A step of `page_alloc` writes to the nodes and to the entry, whatever the entry lies in. -/
theorem ensureTable_off (pointer : P.Pointer pfdb.free) (run : ensureTable m pfdb slot flags = .ok (m', pfdb')) :
    m.SameOff (P.NodeBytes ∪ {x | linear slot ≤ x ∧ x < linear slot + 8}) m' := by
  rw [ensureTable] at run
  split at run
  · obtain ⟨⟨addr, m₁, pfdb₁⟩, alloc, written⟩ := bind_eq_ok.mp run
    obtain ⟨some, taken⟩ := bugOn_bind_eq_ok.mp alloc
    obtain ⟨k, inside, node⟩ := pointer.resolve_left some
    obtain ⟨-, nodes, -⟩ := Prod.mk.inj (Except.ok.inj taken) |>.imp id Prod.mk.inj
    obtain ⟨rfl, -⟩ := Prod.mk.inj (Except.ok.inj written)
    have first : m.SameOff P.NodeBytes m₁ := by
      rw [← nodes, node]
      exact Frames.sameOff_setNextNode (P := P.frames) pfdb.used inside
    exact (first.mono fun x mem => .inl mem).trans (.store64 fun x lower upper => .inr ⟨lower, upper⟩)
  · obtain ⟨rfl, -⟩ := Prod.mk.inj (Except.ok.inj run)
    exact .refl _ _

theorem ensureTable_pointer (lists : P.Lists m pfdb free used) (run : ensureTable m pfdb slot flags = .ok (m', pfdb')) :
    P.Pointer pfdb'.free := by
  rw [ensureTable] at run
  split at run
  · obtain ⟨⟨addr, m₁, pfdb₁⟩, alloc, written⟩ := bind_eq_ok.mp run
    obtain ⟨-, rfl⟩ := Prod.mk.inj (Except.ok.inj written)
    cases free with
    | nil =>
      rw [lists.pageframeAlloc_nil] at alloc
      cases alloc
    | cons i free =>
      obtain ⟨m₂, pfdb₂, alloc', lists', -⟩ := lists.pageframeAlloc
      obtain ⟨-, -, rfl⟩ := Prod.mk.inj (Except.ok.inj (alloc'.symm.trans alloc)) |>.imp id Prod.mk.inj
      exact lists'.pointer
  · obtain ⟨-, rfl⟩ := Prod.mk.inj (Except.ok.inj run)
    exact lists.pointer

/-- The memory below `2 ^ w` is whole pages. -/
theorem two_pow_pages (wide : 12 ≤ w) : (2 : Nat) ^ w = 4096 * 2 ^ (w - 12) := by
  rw [show (4096 : Nat) = 2 ^ 12 by decide, ← Nat.pow_add, show 12 + (w - 12) = w by omega]

/-- The shift of an entry's number gives a page below `2 ^ w`. -/
theorem nextTable_low {t : Nat} (wide : 12 ≤ w) (narrow : w ≤ 47) (run : nextTable w m slot = .ok t) :
    ∃ a, t = virtAddrKernelStart + a ∧ a + 4096 ≤ 2 ^ w := by
  have pages := two_pow_pages wide
  have top : (2 : Nat) ^ w ≤ 2 ^ 47 := Nat.pow_le_pow_right (by decide) narrow
  have low := Nat.mod_lt (entryBaseAddr (m.load64 (linear slot)) <<< pageShift) (Nat.two_pow_pos w)
  refine ⟨entryBaseAddr (m.load64 (linear slot)) <<< pageShift % 2 ^ w, ?_, ?_⟩
  · rw [nextTable, va_of_lt (by omega)] at run
    exact (Except.ok.inj run).symm
  · rw [Nat.shiftLeft_eq, Nat.mul_comm, show 2 ^ pageShift = 4096 from rfl, pages, Nat.mul_mod_mul_left] at low ⊢
    omega

theorem entrySlot_low {a : Nat} (narrow : w ≤ 47) (low : a + 4096 ≤ 2 ^ w) (i : Fin 512) {x : Nat}
    (inside : x < linear (entrySlot (virtAddrKernelStart + a) i) + 8) : x < 2 ^ w := by
  have top : (2 : Nat) ^ w ≤ 2 ^ 47 := Nat.pow_le_pow_right (by decide) narrow
  have := i.isLt
  rw [entrySlot, linear_add (by omega)] at inside
  omega

/-- The bytes `page_alloc` may write to below a table that it takes for another. -/
def Pool.Strays (P : Pool) (w : Nat) : Set Nat := P.NodeBytes ∪ {x | x < 2 ^ w}

/-- Filling in a table below one that the shift led to. -/
theorem ensureTable_strays {a : Nat} {i : Fin 512} (pointer : P.Pointer pfdb.free) (narrow : w ≤ 47) (low : a + 4096 ≤ 2 ^ w)
    (run : ensureTable m pfdb (entrySlot (virtAddrKernelStart + a) i) flags = .ok (m', pfdb')) :
    m.SameOff (P.Strays w) m' := by
  refine (ensureTable_off pointer run).mono fun x mem => ?_
  rcases mem with node | ⟨-, upper⟩
  · exact .inl node
  · exact .inr (entrySlot_low narrow low i upper)

theorem Pool.entries_strays {n : Nat} (same : m.SameOff (P.Strays w) m') (inside : n < P.count)
    (high : 2 ^ w ≤ 4096 * (P.first + n)) : entries m' (P.first + n) = entries m (P.first + n) := by
  funext j
  have apart := P.apart
  have := j.isLt
  refine same.load64 fun x lower upper stray => ?_
  rcases stray with ⟨low, top⟩ | low
  · omega
  · change x < 2 ^ w at low
    omega

/-- A table that the shift does not reach: the root's entry points to it, and everything else that the
call writes lies elsewhere. -/
theorem walk_of_unreached {pgtable pgtable' : PageTable} {f n v p : Nat}
    (T : Tables P m pgtable.pfdb (P.first + n) (f :: free) used)
    (virtRoot : pgtable.virtRoot = virtAddrKernelStart + 4096 * (P.first + n))
    (empty : ∀ j, entries m (P.first + n) j = 0) (wide : 12 ≤ w) (narrow : w ≤ 47)
    (high : 2 ^ w ≤ 4096 * (P.first + f)) (root : 2 ^ w ≤ 4096 * (P.first + n)) (last : n < P.count)
    (run : pageAlloc w m pgtable v p flags = .ok (m', pgtable')) :
    pgtable'.physRoot = pgtable.physRoot ∧ walk m' (4096 * (P.first + n)) v = none := by
  have below := P.below
  have ltf := T.lists.lt_of_free (List.mem_cons_self ..)
  have other : P.first + f ≠ P.first + n := fun same =>
    T.fresh_of_free (List.mem_cons_self ..) (same ▸ mem_tables_root ..)
  obtain ⟨m₀, pfdb₀, alloc, lists, -, -, -, agree⟩ := T.takeFrame flags
  let e := packEntry flags (prepBaseAddr (4096 * (P.first + f)))
  let m₁ := m₀.store64 (4096 * (P.first + n) + 8 * pml4Index v) e
  have written : entries m₁ = (entries m₀).put (P.first + n) (pml4Index v) e :=
    entries_store64 m₀ (P.first + n) (pml4Index v) (packEntry_lt _ _)
  have lists₁ : P.Lists m₁ pfdb₀ free (f :: used) := (Tables.lists_store lists last _ e).1
  have first : ensureTable m pgtable.pfdb (entrySlot (virtAddrKernelStart + 4096 * (P.first + n)) (pml4Index v)) flags =
      .ok (m₁, pfdb₀) := by
    simp only [Kernel.ensureTable, isPageEntryEmpty_eq m (show P.first + n < 2 ^ 28 by omega), empty, decide_true, if_true,
      alloc, ok_bind, linear_entrySlot (show P.first + n < 2 ^ 28 by omega), pure_eq_ok, m₁, e]
  rw [pageAlloc, virtRoot, pml4Index_val, pdpIndex_val, pdIndex_val, ptIndex_val] at run
  simp only [first, ok_bind, bind_eq_ok] at run
  obtain ⟨t₃, next₃, ⟨m₂, pfdb₂⟩, run₂, t₂, next₂, ⟨m₃, pfdb₃⟩, run₃, t₁, next₁, done⟩ := run
  obtain ⟨ended, rfl⟩ := Prod.mk.inj (Except.ok.inj done)
  obtain ⟨a₃, rfl, low₃⟩ := nextTable_low wide narrow next₃
  obtain ⟨a₂, rfl, low₂⟩ := nextTable_low wide narrow next₂
  obtain ⟨a₁, rfl, low₁⟩ := nextTable_low wide narrow next₁
  have same₂ := ensureTable_strays lists₁.pointer narrow low₃ run₂
  have same₃ := ensureTable_strays (ensureTable_pointer lists₁ run₂) narrow low₂ run₃
  have same₁ : m₃.SameOff (P.Strays w) m' := by
    rw [← ended]
    split
    · exact .store64 fun x _ upper => .inr (entrySlot_low narrow low₁ _ upper)
    · exact .refl _ _
  have same := (same₂.trans same₃).trans same₁
  have top := congrFun (P.entries_strays same last root) (pml4Index v)
  have stale := P.entries_strays same ltf high
  rw [written, put_self] at top
  have zero : ∀ j, entries m₁ (P.first + f) j = 0 := by
    intro j
    rw [written, put_of_ne _ _ fun here => other here.1, agree f ltf]
    exact T.shape.clear f (List.mem_cons_self ..) j
  have entry : m'.load64 (4096 * (P.first + n) + 8 * pml4e v) = e := top
  have point : entryFrame e = 4096 * (P.first + f) := by
    rw [entryFrame_eq, frameNumber_table (by omega)]
  have nothing : m'.load64 (4096 * (P.first + f) + 8 * pdpte v) = 0 :=
    (congrFun stale (pdpIndex v)).trans (zero _)
  refine ⟨rfl, ?_⟩
  simp only [walk, walkThrough, entry, point, nothing, show present 0 = false from rfl, Bool.false_eq_true, if_false, ite_self]

end Unreached

/-! ## The budget suffices -/

/-- The regions that are set aside for a page table of `[0, bytes)`. -/
structure BudgetRegions (bytes : Nat) (pagesRg pfdbRg : MemMapRegion) : Prop where
  pages : pagesRg.length = pagingCalcSpaceNeeded bytes
  nodes : pfdbRg.length = pageframeCalcSpaceNeeded pagesRg.length
  aligned : 4096 ∣ pagesRg.baseAddr
  below : pagesRg.baseAddr + pagesRg.length ≤ 2 ^ 40
  mapped : pfdbRg.baseAddr + pfdbRg.length ≤ 2 ^ 47
  apart : pagesRg.baseAddr + pagesRg.length ≤ pfdbRg.baseAddr ∨
    pfdbRg.baseAddr + pfdbRg.length ≤ pagesRg.baseAddr

/-- The pages of `[0, bytes)` can be mapped, in any order: no call fails, and each page that was asked for
is there. -/
def ServesPages (shiftBits : Nat) (m : Mem) (pgtable : PageTable) (bytes : Nat) : Prop :=
  ∀ calls, (∀ c ∈ calls, MapsPage bytes c) →
    ∃ m' pgtable', pageAllocs shiftBits m pgtable calls = .ok (m', pgtable') ∧
      ∀ c ∈ calls, (walk m' pgtable'.physRoot c.vAddr).map Prod.fst = some c.pDestAddr

/-- A new page table in the regions serves the pages of `[0, bytes)`. -/
def BudgetSuffices (shiftBits : Nat) (m : Mem) (pagesRg pfdbRg : MemMapRegion) (bytes : Nat) : Prop :=
  ∃ m₀ pgtable₀, pagingInit m pagesRg pfdbRg = .ok (m₀, pgtable₀) ∧ ServesPages shiftBits m₀ pgtable₀ bytes

section Suffices

variable {bytes : Nat} {pagesRg pfdbRg : MemMapRegion}

namespace BudgetRegions

variable (given : BudgetRegions bytes pagesRg pfdbRg)

include given

theorem lengths (small : bytes ≤ 2 ^ 40) : pagesRg.length = 4096 * budget (pageTables bytes) ∧
    pfdbRg.length = 16 * budget (pageTables bytes) := by
  have most := budget_le (pageTables_le small)
  have length := given.pages
  rw [pagingCalcSpaceNeeded_eq small] at length
  refine ⟨length, ?_⟩
  rw [given.nodes, length, pageframeCalcSpaceNeeded_eq (by omega)]

theorem regions (small : bytes ≤ 2 ^ 40) : PoolRegions (2 ^ 40) pagesRg pfdbRg := by
  obtain ⟨length, length'⟩ := given.lengths small
  have root := lt_budget (pageTables bytes)
  exact ⟨given.aligned, by omega, given.below, given.mapped, given.apart, by omega⟩

theorem pool_count (small : bytes ≤ 2 ^ 40) :
    ((given.regions small).pool (Nat.le_refl _)).count = budget (pageTables bytes) := by
  obtain ⟨-, length⟩ := given.lengths small
  show pfdbRg.length / 16 = _
  omega

theorem pool_first (small : bytes ≤ 2 ^ 40) :
    4096 * ((given.regions small).pool (Nat.le_refl _)).first = pagesRg.baseAddr := Nat.mul_div_cancel' given.aligned

end BudgetRegions

theorem firstWriter_linear (small : bytes ≤ 2 ^ 40) {calls : List PageCall} (pages : ∀ c ∈ calls, MapsPage bytes c)
    {c : PageCall} (mem : c ∈ calls) : (firstWriter calls c.vAddr).map Prod.fst = some c.pDestAddr := by
  unfold firstWriter
  cases found : calls.find? fun d => samePage d.vAddr c.vAddr with
  | none =>
    have other := List.find?_eq_none.mp found c mem
    exact absurd (show samePage c.vAddr c.vAddr from rfl) (by simpa using other)
  | some d =>
    have same := List.find?_some found
    rw [decide_eq_true_eq, samePage] at same
    obtain ⟨i, inside, vAddr, frame⟩ := (pages c mem).page
    obtain ⟨j, inside', vAddr', frame'⟩ := (pages d (List.mem_of_find?_eq_some found)).page
    rw [vAddr, vAddr'] at same
    simp only [Option.map_some, frame, frame', Option.some.injEq]
    omega

/-- The calls that map the whole range. -/
def linearCalls (bytes : Nat) : List PageCall :=
  (List.range ((bytes + 4095) / 4096)).map fun i => ⟨0xffff800000000000 + 4096 * i, 4096 * i, pageStdBits⟩

theorem mem_linearCalls {c : PageCall} : c ∈ linearCalls bytes ↔
    ∃ i, 4096 * i < bytes ∧ (⟨0xffff800000000000 + 4096 * i, 4096 * i, pageStdBits⟩ : PageCall) = c := by
  simp only [linearCalls, List.mem_map, List.mem_range]
  refine exists_congr fun i => and_congr_left fun _ => ?_
  omega

theorem linearCalls_maps : ∀ c ∈ linearCalls bytes, MapsPage bytes c := by
  intro c mem
  obtain ⟨i, inside, rfl⟩ := mem_linearCalls.mp mem
  exact ⟨show pageStdBits < 2 ^ 12 by decide, show pageStdBits % 2 = 1 by decide, i, inside, rfl, rfl⟩

section Serves

variable {P : Pool} {w r : Nat} {m : Mem} {pgtable : PageTable} {free used : List Nat}

/-- An empty page table with a frame for every table serves the range. -/
theorem Tables.servesPages (T : Tables P m pgtable.pfdb r free used) (physRoot : pgtable.physRoot = 4096 * r)
    (virtRoot : pgtable.virtRoot = virtAddrKernelStart + 4096 * r) (empty : ∀ j, entries m r j = 0)
    (reached : P.Reached w r) (pos : 0 < bytes) (small : bytes ≤ 2 ^ 40)
    (enough : needed (pageTables bytes) ≤ free.length + 1) : ServesPages w m pgtable bytes := by
  intro calls maps
  have few := pageTables_le small
  have posq := pageTables_pos pos
  have valid : ∀ c ∈ calls, c.Valid := fun c mem => (maps c mem).valid small
  have root : [] ∈ tablePaths (pageTables bytes) := prefix_mem_tablePaths (x := 0) few (by omega) List.nil_prefix
  have room : (vacant frameNumber (entries m) r (tablePaths (pageTables bytes))).card + 1 = _ :=
    card_vacant_of_empty empty root
  rw [card_tablePaths posq few] at room
  have supplied := T.supplied physRoot virtRoot reached small (by omega) maps
  obtain ⟨m', pgtable', run, refines⟩ := (Refines.init T physRoot virtRoot empty).run reached valid supplied
  refine ⟨m', pgtable', run, fun c mem => ?_⟩
  rw [refines.walk_eq valid]
  exact firstWriter_linear small maps mem

/-- A page table that serves the range has a frame for every table: when the whole range is mapped, there is
one for each of its parts. -/
theorem Tables.needed_le_of_serves (T : Tables P m pgtable.pfdb r free used) (physRoot : pgtable.physRoot = 4096 * r)
    (virtRoot : pgtable.virtRoot = virtAddrKernelStart + 4096 * r) (reached : P.Reached w r) (pos : 0 < bytes)
    (small : bytes ≤ 2 ^ 40) (serves : ServesPages w m pgtable bytes) : needed (pageTables bytes) ≤ P.count := by
  obtain ⟨m', pgtable', run, mapped⟩ := serves _ linearCalls_maps
  obtain ⟨same, free', used', T'⟩ := T.run virtRoot reached (fun c mem => (linearCalls_maps c mem).present) run
  refine T'.needed_le (pageTables_pos pos) (pageTables_le small) fun k inside nothing => ?_
  have mem : (⟨0xffff800000000000 + 4096 * (512 * k), 4096 * (512 * k), pageStdBits⟩ : PageCall) ∈ linearCalls bytes := by
    refine mem_linearCalls.mpr ⟨512 * k, ?_, rfl⟩
    unfold pageTables at inside
    omega
  have address : 0xffff800000000000 + 4096 * (512 * k) = virtAddrKernelStart + k * 2 ^ 21 := by
    rw [virtAddrKernelStart]
    omega
  have answer := mapped _ mem
  rw [same, physRoot, address, nothing] at answer
  cases answer

/-- A page table whose first free frame is out of reach does not serve even the first page. -/
theorem Tables.not_servesPages {f n : Nat} (T : Tables P m pgtable.pfdb (P.first + n) (f :: free) used)
    (physRoot : pgtable.physRoot = 4096 * (P.first + n))
    (virtRoot : pgtable.virtRoot = virtAddrKernelStart + 4096 * (P.first + n))
    (empty : ∀ j, entries m (P.first + n) j = 0) (wide : 12 ≤ w) (narrow : w ≤ 47)
    (high : 2 ^ w ≤ 4096 * (P.first + f)) (root : 2 ^ w ≤ 4096 * (P.first + n)) (last : n < P.count) (pos : 0 < bytes) :
    ¬ ServesPages w m pgtable bytes := by
  intro serves
  obtain ⟨m', pgtable', run, mapped⟩ := serves [⟨0xffff800000000000, 0, pageStdBits⟩] fun c mem => by
    rw [List.mem_singleton.mp mem]
    exact ⟨by decide, by decide, 0, pos, rfl, rfl⟩
  have answer := mapped _ (List.mem_singleton_self _)
  rw [pageAllocs, bind_eq_ok] at run
  obtain ⟨⟨m₁, pgtable₁⟩, first, done⟩ := run
  obtain ⟨rfl, rfl⟩ := Prod.mk.inj (Except.ok.inj done)
  obtain ⟨same, nothing⟩ := walk_of_unreached T virtRoot empty wide narrow high root last first
  rw [same, physRoot, nothing] at answer
  cases answer

end Serves

/-- **The page-table budget.** A new page table in a region of `paging_calc_space_needed(bytes)` bytes,
with a frame database for it, can map every page of `[0, bytes)` in the linear map exactly when the
2 MiB parts of the range fill whole GiBs, or reach 511 GiB and do not end in the GiB behind 512, and
every frame but the root's lies where the shift of its number reaches it. -/
theorem paging_budget_suffices_iff {shiftBits : Nat} (wide : 36 ≤ shiftBits) (pos : 0 < bytes)
    (small : bytes ≤ 2 ^ 40) (given : BudgetRegions bytes pagesRg pfdbRg) (m : Mem) :
    BudgetSuffices shiftBits m pagesRg pfdbRg bytes ↔
      (pageTables bytes % 512 = 0 ∨ 511 * 512 ≤ pageTables bytes ∧ pageTables bytes / 512 ≠ 512) ∧
        pagesRg.baseAddr + pagesRg.length ≤ 2 ^ shiftBits + 4096 := by
  have count := given.pool_count small
  have base := given.pool_first small
  have length := (given.lengths small).1
  have below := given.below
  obtain ⟨m₀, pgtable₀, r, n, init, physRoot, virtRoot, last, frames, T, empty, -⟩ :=
    (given.regions small).pagingInit (Nat.le_refl _) m
  generalize (given.regions small).pool (Nat.le_refl _) = P at *
  rw [← needed_le_budget_iff (pageTables_pos pos) (pageTables_le small)]
  have reached : pagesRg.baseAddr + pagesRg.length ≤ 2 ^ shiftBits + 4096 → P.Reached shiftBits r := by
    intro low i inside other
    have pages := two_pow_pages (show 12 ≤ shiftBits by omega)
    omega
  constructor
  · rintro ⟨m₁, pgtable₁, init', serves⟩
    obtain ⟨rfl, rfl⟩ := Prod.mk.inj (Except.ok.inj (init.symm.trans init'))
    by_cases low : pagesRg.baseAddr + pagesRg.length ≤ 2 ^ shiftBits + 4096
    · exact ⟨count ▸ T.needed_le_of_serves physRoot virtRoot (reached low) pos small serves, low⟩
    · -- the first frame given out is the one before the root, and it is out of reach
      have pages := two_pow_pages (show 12 ≤ shiftBits by omega)
      have more := lt_budget (pageTables bytes)
      have some := pageTables_pos pos
      obtain ⟨k, rfl⟩ : ∃ k, n = k + 1 := ⟨n - 1, by omega⟩
      have narrow : shiftBits ≤ 47 := by
        by_contra long
        have : (2 : Nat) ^ 48 ≤ 2 ^ shiftBits := Nat.pow_le_pow_right (by decide) (by omega)
        omega
      rw [List.range_succ, List.reverse_concat] at T
      subst last
      exact absurd serves (T.not_servesPages physRoot virtRoot empty (by omega) narrow (by omega) (by omega) (by omega) pos)
  · rintro ⟨enough, low⟩
    refine ⟨m₀, pgtable₀, init, T.servesPages physRoot virtRoot empty (reached low) pos small ?_⟩
    rw [List.length_reverse, List.length_range]
    omega

end Suffices

theorem paging_budget_suffices_one_gib :
    BudgetSuffices 36 ⟨fun _ => 0⟩ ⟨0x100000, 0x203000, e820MemTypeUsable⟩ ⟨0x400000, 8240, e820MemTypeUsable⟩ (2 ^ 30) :=
  (paging_budget_suffices_iff (Nat.le_refl 36) (by decide) (by decide)
    ⟨by decide, by decide, by decide, by decide, by decide, by decide⟩ _).mpr ⟨by decide, by decide⟩

/-- The regions that are set aside for a single page. -/
def onePageFrames : MemMapRegion := ⟨0x10000, 0x2000, e820MemTypeUsable⟩

@[inherit_doc onePageFrames]
def onePageNodes : MemMapRegion := ⟨0x20000, 32, e820MemTypeUsable⟩

/-- For a single page the code reckons with two frames, and the way to the page takes four. -/
theorem paging_budget_short_one_page :
    BudgetRegions 4096 onePageFrames onePageNodes ∧
      (pagingInit ⟨fun _ => 0⟩ onePageFrames onePageNodes >>= fun s =>
        pageAlloc 36 s.1 s.2 0xffff800000000000 0 pageStdBits) = .error .bugOn ∧
      ¬ BudgetSuffices 36 ⟨fun _ => 0⟩ onePageFrames onePageNodes 4096 := by
  have bug : (pagingInit ⟨fun _ => 0⟩ onePageFrames onePageNodes >>= fun s =>
      pageAlloc 36 s.1 s.2 0xffff800000000000 0 pageStdBits) = .error .bugOn :=
    Outcome.eq_error_of_faultOf (by decide +kernel)
  refine ⟨⟨by decide, by decide, by decide, by decide, by decide, by decide⟩, bug, ?_⟩
  rintro ⟨m₀, pgtable₀, init, serves⟩
  obtain ⟨m', pgtable', run, -⟩ := serves [⟨0xffff800000000000, 0, pageStdBits⟩] fun c mem => by
    rw [List.mem_singleton.mp mem]
    exact ⟨by decide, by decide, 0, by decide, rfl, rfl⟩
  rw [pageAllocs, bind_eq_ok] at run
  obtain ⟨s, first, -⟩ := run
  rw [init, ok_bind] at bug
  cases first.symm.trans bug

end AlmeidaOS.Kernel
