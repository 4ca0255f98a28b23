import AlmeidaOS.Laws.Arch.Mem
import AlmeidaOS.Laws.Lib.Math
import AlmeidaOS.Laws.Lib.Qsort

/-!
# What `mem_init` makes of the firmware's map

`mem_init` returns for every map that has an entry and every sequence of random numbers: it puts the
regions in an order in which the base addresses ascend and merges that list (`memInit_returns`), and
it can get every such order (`memInit_reaches`). What it sums up does not depend on the order.
-/

namespace AlmeidaOS.Kernel

open MemMapBlock

/-- A firmware map as the loader leaves it: regions that are not empty, addressable and apart, and
room for the first MiB. The slot behind it, which `combine_mergeable_regions` reads, has no length:
the loader has zeroed the buffer. -/
structure BiosMap (b : MemMapBlock) : Prop where
  room : b.numEntries + 1 < 2 ^ 64
  nonempty : ∀ e ∈ b.entries, 0 < e.length
  bounded : ∀ e ∈ b.entries, e.baseAddr + e.length < 2 ^ 64
  apart : b.entries.Pairwise fun e f =>
    e.baseAddr + e.length ≤ f.baseAddr ∨ f.baseAddr + f.length ≤ e.baseAddr
  spare : (b.memRegion (b.numEntries + 1)).length = 0

/-- The runs of a list of regions. -/
def merged : List MemMapRegion → List MemMapRegion
  | [] => []
  | run :: rest => mergeRuns run rest

/-- The base addresses ascend. -/
def ByBase (regions : List MemMapRegion) : Prop := regions.Pairwise fun e f => e.baseAddr ≤ f.baseAddr

theorem byBase_cons {r : MemMapRegion} {rest : List MemMapRegion} :
    ByBase (r :: rest) ↔ (∀ f ∈ rest, r.baseAddr ≤ f.baseAddr) ∧ ByBase rest := List.pairwise_cons

/-! ## The list that is sorted -/

section Reserve

variable {b : MemMapBlock}

/-- `mem_reserve_first_mb` returns exactly for a map that has an entry. -/
theorem memReserveFirstMb_eq_ok {b' : MemMapBlock} :
    memReserveFirstMb b = .ok b' ↔ 0 < b.numEntries ∧ b' = withFirstMb b := by
  rw [memReserveFirstMb]
  split
  · simp [*]
  · rename_i some
    rw [Except.ok.injEq, eq_comm]
    exact (and_iff_right (Nat.pos_of_ne_zero some)).symm

theorem memReserveFirstMb_of_pos (some : 0 < b.numEntries) : memReserveFirstMb b = .ok (withFirstMb b) :=
  memReserveFirstMb_eq_ok.mpr ⟨some, rfl⟩

theorem withFirstMb_numEntries (room : b.numEntries + 1 < 2 ^ 64) :
    (withFirstMb b).numEntries = b.numEntries + 1 :=
  Word.add_of_lt room

/-- The slots of `mem_reserve_first_mb` are regions of the map, zeroed ones and the first MiB. -/
theorem mem_reserve_entries (room : b.numEntries + 1 < 2 ^ 64) {e : MemMapRegion}
    (mem : e ∈ (withFirstMb b).entries) : e = firstMb ∨ e = .zero ∨ e ∈ b.entries := by
  obtain ⟨i, inside, rfl⟩ := mem_entries.mp mem
  rw [withFirstMb_numEntries room] at inside
  rw [withFirstMb]
  dsimp only
  split
  · exact .inl rfl
  · split
    · exact .inr (.inl rfl)
    · exact .inr (.inr (mem_entries.mpr ⟨i, by omega, rfl⟩))

theorem BiosMap.words (map : BiosMap b) : ∀ e ∈ b.entries, e.length < 2 ^ 64 :=
  fun e mem => Nat.lt_of_le_of_lt (Nat.le_add_left ..) (map.bounded e mem)

theorem reserve_lengths (room : b.numEntries + 1 < 2 ^ 64) (words : ∀ e ∈ b.entries, e.length < 2 ^ 64) :
    ∀ e ∈ (withFirstMb b).entries, e.length < 2 ^ 64 := by
  intro e mem
  rcases mem_reserve_entries room mem with rfl | rfl | mem
  · decide
  · decide
  · exact words e mem

theorem comparesBy_baseAddr : ComparesBy qsortCmpMemRegion MemMapRegion.baseAddr := by
  intro x y
  unfold qsortCmpMemRegion
  split
  · omega
  · split <;> omega

/-- Merging the regions in the order in which `qsort` has left them. -/
theorem entries_of_sorted (room : b.numEntries + 1 < 2 ^ 64) (some : 0 < b.numEntries)
    (words : ∀ e ∈ b.entries, e.length < 2 ^ 64) (spare : (b.memRegion (b.numEntries + 1)).length = 0)
    {σ : Equiv.Perm Nat} (within : Within 0 b.numEntries σ) :
    (squashMemRegions (combineMergeableRegions ⟨b.numEntries + 1, (withFirstMb b).memRegion ∘ σ⟩)).entries =
      kept (merged ((List.range (b.numEntries + 1)).map ((withFirstMb b).memRegion ∘ σ))) := by
  set regions := (withFirstMb b).memRegion ∘ σ with eq
  have list : (List.range (b.numEntries + 1)).map regions =
      regions 0 :: (⟨b.numEntries + 1, regions⟩ : MemMapBlock).slice 1 b.numEntries := by
    rw [List.range_eq_range']
    exact slice_succ ⟨b.numEntries + 1, regions⟩ 0 b.numEntries
  have perm := map_range_perm (n := b.numEntries + 1) within (withFirstMb b).memRegion
  have words' : ∀ e ∈ (⟨b.numEntries + 1, regions⟩ : MemMapBlock).entries, e.length < 2 ^ 64 := by
    intro e mem
    refine reserve_lengths room words e ?_
    rw [entries, withFirstMb_numEntries room]
    exact perm.mem_iff.mp mem
  have spare' : (regions (b.numEntries + 1)).length = 0 := by
    rw [eq, Function.comp_apply, within _ (.inr (Nat.lt_succ_self _)), withFirstMb]
    dsimp only
    rw [if_neg (by omega), if_neg, spare]
    rintro ⟨inside, -⟩
    rw [Word.sub_of_le (by omega) some] at inside
    omega
  rw [combine_squash_entries (Nat.succ_le_succ some) words' spare', list, merged]
  rfl

/-- **`mem_init` returns**, with the regions in an order in which their base addresses ascend, merged. -/
theorem memInit_returns (map : BiosMap b) (some : 0 < b.numEntries) (rand : Nat → Nat) :
    ∃ regions blocks, qsort qsortCmpMemRegion rand (withFirstMb b).memRegion (b.numEntries + 1) = .ok regions ∧
      ((List.range (b.numEntries + 1)).map regions).Perm (withFirstMb b).entries ∧
      ByBase ((List.range (b.numEntries + 1)).map regions) ∧
      memInit rand b = .ok (blocks, calcPhysMemoryStats blocks) ∧
      blocks.entries = kept (merged ((List.range (b.numEntries + 1)).map regions)) := by
  obtain ⟨σ, within, ascending, run⟩ := qsort_returns comparesBy_baseAddr rand (withFirstMb b).memRegion
    (b.numEntries + 1)
  refine ⟨_, _, run, ?_, ?_, ?_, entries_of_sorted map.room some map.words map.spare within⟩
  · rw [entries, withFirstMb_numEntries map.room]
    exact map_range_perm within _
  · exact List.pairwise_map.mpr (List.pairwise_map.mp (pairwise_of_ascending ascending))
  · rw [memInit]
    simp only [memReserveFirstMb_of_pos some, withFirstMb_numEntries map.room, run, ok_bind, pure_eq_ok]

/-- **`mem_init` can get every order in which the base addresses ascend**, unless all regions begin at
one address and the first two differ. -/
theorem memInit_reaches (map : BiosMap b) (some : 0 < b.numEntries)
    (free : (∃ e ∈ (withFirstMb b).entries, e.baseAddr ≠ ((withFirstMb b).memRegion 0).baseAddr) ∨
      (withFirstMb b).memRegion 0 = (withFirstMb b).memRegion 1)
    {order : List MemMapRegion} (perm : order.Perm (withFirstMb b).entries) (sorted : ByBase order) :
    ∃ rand blocks, memInit rand b = .ok (blocks, calcPhysMemoryStats blocks) ∧
      blocks.entries = kept (merged order) := by
  rw [entries, withFirstMb_numEntries map.room] at perm
  obtain ⟨σ, within, rfl⟩ := exists_within perm
  have bases := List.pairwise_map.mp sorted
  have ascending : Ascending (MemMapRegion.baseAddr ∘ (withFirstMb b).memRegion ∘ σ) 0 (b.numEntries + 1 - 1) :=
    ascending_of_pairwise (List.pairwise_map.mpr bases) (Nat.succ_pos _)
  have free' : (∃ t, t < b.numEntries + 1 ∧ ((withFirstMb b).memRegion t).baseAddr ≠
      ((withFirstMb b).memRegion 0).baseAddr) ∨
      (withFirstMb b).memRegion 0 = (withFirstMb b).memRegion 1 := by
    refine free.imp_left ?_
    rintro ⟨e, mem, differs⟩
    obtain ⟨t, inside, rfl⟩ := mem_entries.mp mem
    exact ⟨t, by rwa [← withFirstMb_numEntries map.room], differs⟩
  obtain ⟨rand, run⟩ := qsort_reaches comparesBy_baseAddr (Nat.succ_le_succ some) free' within ascending
  refine ⟨rand, _, ?_, entries_of_sorted map.room some map.words map.spare within⟩
  rw [memInit]
  simp only [memReserveFirstMb_of_pos some, withFirstMb_numEntries map.room, run, ok_bind, pure_eq_ok]

end Reserve

/-! ## What is left of the firmware's regions -/

/-- The regions that `mem_reserve_first_mb` zeroes: all that end below 1 MiB, but for the last entry. -/
def dropped (b : MemMapBlock) : List MemMapRegion := b.entries.dropLast.filter fun e => belowFirstMb e

/-- The regions that it leaves. -/
def remaining (b : MemMapBlock) : List MemMapRegion :=
  b.entries.dropLast.filter (fun e => ¬ belowFirstMb e) ++ b.entries.getLast?.toList

theorem zeroed_perm (regions : List MemMapRegion) :
    (regions.map fun e => if belowFirstMb e then .zero else e).Perm
      (List.replicate (regions.filter fun e => belowFirstMb e).length .zero ++
        regions.filter fun e => ¬ belowFirstMb e) := by
  induction regions with
  | nil => exact .refl _
  | cons e rest ih =>
    by_cases below : belowFirstMb e
    · simp only [List.map_cons, below, if_true, List.filter_cons, decide_true, List.length_cons, List.replicate_succ,
        List.cons_append, not_true_eq_false, decide_false, Bool.false_eq_true, if_false]
      exact ih.cons _
    · simp only [List.map_cons, below, if_false, List.filter_cons, decide_false, Bool.false_eq_true,
        not_false_eq_true, decide_true, if_true]
      exact (ih.cons _).trans List.perm_middle.symm

/-- The list that is sorted: zeroed slots, the first MiB and the regions that are left. -/
theorem reserve_entries_perm {b : MemMapBlock} (map : BiosMap b) :
    (withFirstMb b).entries.Perm
      (List.replicate (dropped b).length .zero ++ firstMb :: remaining b) := by
  have room := map.room
  have slots : ∀ i, (withFirstMb b).memRegion i = if i = b.numEntries then firstMb else
      if i < Word.sub b.numEntries 1 ∧ belowFirstMb (b.memRegion i) then .zero else b.memRegion i := fun _ => rfl
  rw [entries, withFirstMb_numEntries map.room, dropped, remaining, entries]
  generalize withFirstMb b = reserved at slots
  cases count : b.numEntries with
  | zero =>
    have first : reserved.memRegion 0 = firstMb := by rw [slots, if_pos count.symm]
    simp only [Nat.zero_add, List.range_one, List.map_singleton, first, List.range_zero, List.map_nil,
      List.dropLast_nil, List.filter_nil, List.length_nil, List.replicate_zero, List.nil_append,
      List.getLast?_nil, Option.toList_none, List.Perm.refl]
  | succ m =>
    rw [count] at slots room
    rw [Word.sub_of_le (by omega) (Nat.le_add_left 1 m), Nat.add_sub_cancel] at slots
    have front : (List.range m).map reserved.memRegion =
        ((List.range m).map b.memRegion).map fun e => if belowFirstMb e then .zero else e := by
      rw [List.map_map]
      refine List.map_congr_left fun i mem => ?_
      rw [List.mem_range] at mem
      rw [slots, if_neg (by omega), Function.comp_apply]
      by_cases below : belowFirstMb (b.memRegion i)
      · rw [if_pos ⟨mem, below⟩, if_pos below]
      · rw [if_neg fun both => below both.2, if_neg below]
    have last : reserved.memRegion m = b.memRegion m := by
      rw [slots, if_neg (by omega), if_neg (by omega)]
    rw [List.range_succ, List.range_succ, List.map_append, List.map_append, List.map_append, front,
      List.map_singleton, List.map_singleton, List.map_singleton, last, slots (m + 1), if_pos rfl,
      List.dropLast_concat, List.getLast?_concat, Option.toList_some, List.append_assoc]
    refine ((zeroed_perm _).append_right _).trans ?_
    rw [List.append_assoc]
    refine List.Perm.append_left _ ?_
    rw [← List.append_assoc]
    exact List.perm_append_comm

theorem remaining_sublist (b : MemMapBlock) : (remaining b).Sublist b.entries := by
  rw [remaining]
  rcases List.eq_nil_or_concat b.entries with none | ⟨front, last, list⟩
  · rw [none]
    exact .refl _
  · rw [list, List.concat_eq_append, List.dropLast_concat, List.getLast?_concat]
    exact List.filter_sublist.append_right _

/-! ## The sum of the lengths -/

/-- The sum of the lengths, as a 64-bit word. -/
def totalLength (regions : List MemMapRegion) : Nat := (regions.map MemMapRegion.length).sum % 2 ^ 64

theorem totalLength_cons (r : MemMapRegion) (rest : List MemMapRegion) :
    totalLength (r :: rest) = (r.length + totalLength rest) % 2 ^ 64 := by
  rw [totalLength, List.map_cons, List.sum_cons, totalLength, Nat.add_mod_mod]

/-- Regions that are apart are together no longer than the space they lie in. -/
theorem Laid.sum_le {top low : Nat} {regions : List MemMapRegion} (laid : Laid top regions)
    (above : ∀ e ∈ regions, low ≤ e.baseAddr) (order : low ≤ top) :
    low + (regions.map MemMapRegion.length).sum ≤ top := by
  induction regions generalizing low with
  | nil => exact order
  | cons r rest ih =>
    obtain ⟨-, within, before, tail⟩ := laid_cons.mp laid
    have behind := ih tail before within
    have here := above r (List.mem_cons_self ..)
    rw [List.map_cons, List.sum_cons]
    omega

/-- Merging moves lengths around and loses none. -/
theorem totalLength_mergeRuns (run : MemMapRegion) (rest : List MemMapRegion) :
    totalLength (mergeRuns run rest) = totalLength (run :: rest) := by
  induction rest generalizing run with
  | nil => rw [mergeRuns, totalLength_cons, totalLength_cons, asReserved_length]
  | cons r rest ih =>
    rw [mergeRuns]
    split
    · rw [ih, totalLength_cons, totalLength_cons run, totalLength_cons r, Nat.add_mod_mod, ← Nat.add_assoc]
      show (Word.add (asReserved run).length r.length + _) % _ = _
      rw [asReserved_length, Word.add, Nat.mod_add_mod]
    · rw [totalLength_cons, asReserved_length, ih, ← totalLength_cons]

theorem totalLength_kept (regions : List MemMapRegion) : totalLength (kept regions) = totalLength regions := by
  induction regions with
  | nil => rfl
  | cons r rest ih =>
    rw [kept, List.filter_cons]
    split
    · rw [totalLength_cons, totalLength_cons, ← kept, ih]
    · rename_i empty
      simp only [memIsEntryEmpty, Bool.not_eq_true', Bool.not_eq_false, Bool.and_eq_true, decide_eq_true_eq] at empty
      rw [← kept, ih, totalLength_cons, empty.1, Nat.zero_add, totalLength, Nat.mod_mod]

theorem totalLength_perm {l l' : List MemMapRegion} (perm : l.Perm l') : totalLength l = totalLength l' := by
  rw [totalLength, totalLength, (perm.map _).sum_nat]

/-- The sum of the lengths of the usable regions. -/
def usableLength (regions : List MemMapRegion) : Nat :=
  ((regions.filter fun r => r.type = e820MemTypeUsable).map MemMapRegion.length).sum

theorem usableLength_cons (r : MemMapRegion) (rest : List MemMapRegion) :
    usableLength (r :: rest) = (if r.type = e820MemTypeUsable then r.length else 0) + usableLength rest := by
  rw [usableLength, List.filter_cons]
  by_cases usable : r.type = e820MemTypeUsable
  · rw [if_pos (decide_eq_true usable), if_pos usable]
    rfl
  · rw [if_neg (by simpa using usable), if_neg usable, Nat.zero_add]
    rfl

theorem calcPhysMemoryStats_eq (blocks : MemMapBlock) :
    calcPhysMemoryStats blocks = ⟨totalLength blocks.entries, usableLength blocks.entries % 2 ^ 64⟩ := by
  have fold : ∀ (l : List MemMapRegion) (stat : MemPhysStats), stat.physAvailMem < 2 ^ 64 → stat.physFreeMem < 2 ^ 64 →
      (l.foldl (fun stat memRegion =>
        { physAvailMem := Word.add stat.physAvailMem memRegion.length
          physFreeMem :=
            if memRegion.type = e820MemTypeUsable then Word.add stat.physFreeMem memRegion.length
            else stat.physFreeMem } : MemPhysStats → MemMapRegion → MemPhysStats) stat) =
        ⟨(stat.physAvailMem + totalLength l) % 2 ^ 64, (stat.physFreeMem + usableLength l) % 2 ^ 64⟩ := by
    intro l
    induction l with
    | nil =>
      intro stat word word'
      rw [List.foldl_nil, MemPhysStats.mk.injEq]
      exact ⟨(Nat.mod_eq_of_lt word).symm, (Nat.mod_eq_of_lt word').symm⟩
    | cons r rest ih =>
      intro stat word word'
      have next : (if r.type = e820MemTypeUsable then Word.add stat.physFreeMem r.length else stat.physFreeMem) < 2 ^ 64 := by
        split
        · exact Word.add_lt _ _
        · exact word'
      rw [List.foldl_cons, ih _ (Word.add_lt _ _) next, totalLength_cons, usableLength_cons, MemPhysStats.mk.injEq]
      refine ⟨?_, ?_⟩
      · rw [Nat.add_mod_mod, ← Nat.add_assoc]
        exact Nat.mod_add_mod ..
      · rw [← Nat.add_assoc]
        split
        · exact Nat.mod_add_mod ..
        · rw [Nat.add_zero]
  rw [calcPhysMemoryStats, fold _ _ (by decide) (by decide), Nat.zero_add, Nat.zero_add, totalLength, Nat.mod_mod]

theorem physAvailMem_eq (blocks : MemMapBlock) :
    (calcPhysMemoryStats blocks).physAvailMem = totalLength blocks.entries := by
  rw [calcPhysMemoryStats_eq]

/-! ### Two usable regions -/

/-- Usable memory from 1 MiB to 3 MiB, and another MiB of it at `base`. -/
def twoUsable (base : Nat) : MemMapBlock where
  numEntries := 2
  memRegion := fun i =>
    if i = 0 then ⟨0x100000, 0x200000, e820MemTypeUsable⟩
    else if i = 1 then ⟨base, 0x100000, e820MemTypeUsable⟩ else .zero

theorem twoUsable_entries (base : Nat) : (twoUsable base).entries =
    [⟨0x100000, 0x200000, e820MemTypeUsable⟩, ⟨base, 0x100000, e820MemTypeUsable⟩] := rfl

theorem twoUsable_biosMap {base : Nat} (above : 0x300000 ≤ base) (small : base < 2 ^ 40) : BiosMap (twoUsable base) where
  room := by show 2 + 1 < 2 ^ 64; decide
  nonempty := by simp [twoUsable_entries]
  bounded := by
    simp only [twoUsable_entries, List.forall_mem_cons, List.not_mem_nil, false_implies, implies_true, and_true]
    omega
  apart := by
    simp only [twoUsable_entries, List.pairwise_cons, List.forall_mem_cons, List.not_mem_nil, false_implies,
      implies_true, List.Pairwise.nil, and_true]
    omega
  spare := rfl

end AlmeidaOS.Kernel
