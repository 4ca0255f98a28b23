import AlmeidaOS.Laws.Arch.MemOrder

/-!
# The memory map and the random shuffle

`qsort` shuffles before it sorts, and leaves regions that begin at one address in the order the
shuffle gave them. After `mem_reserve_first_mb` these are the first MiB, the zeroed slots and a region
at address 0, so the order can be seen in the result: a zeroed slot between the first MiB and a
reserved region keeps the two from merging.
-/

namespace AlmeidaOS.Kernel

open MemMapBlock

section Shuffle

variable {b : MemMapBlock}

theorem calcPhysMemoryStats_congr {blocks blocks' : MemMapBlock} (same : blocks.entries = blocks'.entries) :
    calcPhysMemoryStats blocks = calcPhysMemoryStats blocks' := by
  rw [calcPhysMemoryStats, calcPhysMemoryStats, same]

/-- `mem_init` makes the same list of regions and `mem_stat` gives the same values, whatever `rand`
returns. -/
def Unshuffled (b : MemMapBlock) : Prop :=
  ∀ rand rand', ∃ blocks physMemStat blocks' physMemStat', memInit rand b = .ok (blocks, physMemStat) ∧
    memInit rand' b = .ok (blocks', physMemStat') ∧ blocks.entries = blocks'.entries ∧
    memStat physMemStat = memStat physMemStat'

theorem unshuffled_of_entries (entries : List MemMapRegion)
    (all : ∀ rand, ∃ blocks, memInit rand b = .ok (blocks, calcPhysMemoryStats blocks) ∧ blocks.entries = entries) :
    Unshuffled b := by
  intro rand rand'
  obtain ⟨blocks, init, list⟩ := all rand
  obtain ⟨blocks', init', list'⟩ := all rand'
  exact ⟨blocks, _, blocks', _, init, init', list.trans list'.symm,
    by rw [calcPhysMemoryStats_congr (list.trans list'.symm)]⟩

/-- Two runs of an unshuffled map have the same entries. -/
theorem Unshuffled.entries_eq (same : Unshuffled b) {l l' : List MemMapRegion}
    (one : ∃ rand blocks, memInit rand b = .ok (blocks, calcPhysMemoryStats blocks) ∧ blocks.entries = l)
    (other : ∃ rand blocks, memInit rand b = .ok (blocks, calcPhysMemoryStats blocks) ∧ blocks.entries = l') :
    l = l' := by
  obtain ⟨rand, blocks, init, rfl⟩ := one
  obtain ⟨rand', blocks', init', rfl⟩ := other
  obtain ⟨_, _, _, _, run, run', list, -⟩ := same rand rand'
  obtain ⟨rfl, -⟩ := Prod.mk.inj (Except.ok.inj (init.symm.trans run))
  obtain ⟨rfl, -⟩ := Prod.mk.inj (Except.ok.inj (init'.symm.trans run'))
  exact list

/-- One entry beside the first MiB: the shuffle has no choice. -/
theorem memInit_single (map : BiosMap b) (one : b.numEntries = 1) (rand rand' : Nat → Nat) :
    memInit rand b = memInit rand' b := by
  have same : qsort qsortCmpMemRegion rand (withFirstMb b).memRegion (b.numEntries + 1) =
      qsort qsortCmpMemRegion rand' (withFirstMb b).memRegion (b.numEntries + 1) := by
    rw [one]
    exact qsort_two ..
  rw [memInit, memInit]
  simp only [memReserveFirstMb_of_pos (one ▸ Nat.one_pos), ok_bind, withFirstMb_numEntries map.room, same]

/-- The first MiB that has taken in a region is longer than the first MiB. -/
theorem firstMb_grown {r : MemMapRegion} {rest : List MemMapRegion} (sorted : SortedRegions (r :: rest))
    (high : r.type > e820MemTypeUsable) :
    ∃ first others, kept (mergeRuns firstMb (r :: rest)) = first :: others ∧ first ≠ firstMb := by
  have head : ∀ taken behind, r :: rest = taken ++ behind → taken ≠ [] →
      reservedTo ((0x100000 + (taken.map MemMapRegion.length).sum) % 2 ^ 64) ≠ firstMb := by
    intro taken behind split some same
    rw [split] at sorted
    obtain ⟨front, -⟩ := laid_append.mp sorted
    have pos : 0 < (taken.map MemMapRegion.length).sum := by
      obtain ⟨e, taken, rfl⟩ := List.exists_cons_of_ne_nil some
      have := front.nonempty e (List.mem_cons_self ..)
      rw [List.map_cons, List.sum_cons]
      omega
    have length := congrArg MemMapRegion.length same
    simp only [reservedTo, firstMb] at length
    have bound : (taken.map MemMapRegion.length).sum < 2 ^ 64 := by
      have := front.sum_le (fun e _ => Nat.zero_le e.baseAddr) (Nat.zero_le _)
      omega
    omega
  rcases exists_low (r :: rest) with all | ⟨taken, q, behind, split, before, low⟩
  · have run := mergeRuns_firstMb _ [] all
    rw [List.append_nil, mergeRuns, reservedTo_reserved] at run
    rw [run, kept_cons_of_type (Nat.succ_ne_zero 1)]
    exact ⟨_, _, rfl, head _ [] (List.append_nil _).symm (List.cons_ne_nil _ _)⟩
  · rw [split, mergeRuns_firstMb taken _ before, mergeRuns_reservedTo_cons _ low, kept_cons_of_type (Nat.succ_ne_zero 1)]
    refine ⟨_, _, rfl, head taken _ split ?_⟩
    rintro rfl
    obtain ⟨rfl, -⟩ := List.cons.inj split
    exact low high

/-- The order of the first MiB and the lowest region, when all orders are reached or all begin at 0. -/
theorem reaches_both (map : BiosMap b) {s : MemMapRegion} {rest : List MemMapRegion} (two : 2 ≤ b.numEntries)
    (list : ordered b = s :: rest) (base : s.baseAddr = 0) :
    (∃ rand blocks, memInit rand b = .ok (blocks, calcPhysMemoryStats blocks) ∧
      blocks.entries = kept (merged (firstMb :: s :: rest))) ∧
    ∃ rand blocks, memInit rand b = .ok (blocks, calcPhysMemoryStats blocks) ∧
      blocks.entries = kept (merged (s :: firstMb :: rest)) := by
  have apart := ordered_sorted map
  have word := ordered_word map
  rw [list] at apart word
  rw [List.forall_mem_cons] at word
  have words : ∀ e ∈ firstMb :: s :: rest, e.length < 2 ^ 64 :=
    List.forall_mem_cons.mpr ⟨by decide, List.forall_mem_cons.mpr word⟩
  have words' : ∀ e ∈ s :: firstMb :: rest, e.length < 2 ^ 64 :=
    List.forall_mem_cons.mpr ⟨word.1, List.forall_mem_cons.mpr ⟨by decide, word.2⟩⟩
  by_cases free : (∃ e ∈ ordered b, 0 < e.baseAddr) ∨ 3 ≤ b.numEntries
  · have zeroes : ∀ front : List MemMapRegion, (∀ e ∈ front, e.baseAddr = 0) →
        ByBase (List.replicate (dropped b).length .zero ++ front ++ rest) := by
      intro front zero
      refine byBase_append (fun e mem => ?_) (byBase_cons.mp apart.byBase).2
      rcases List.mem_append.mp mem with mem | mem
      · rw [List.eq_of_mem_replicate mem]
        rfl
      · exact zero e mem
    constructor
    · rw [← kept_merged_zeroes (dropped b).length words]
      refine reaches_order map (by omega) free (by rw [list]) ?_
      simpa using zeroes [firstMb, s] (by simp [firstMb, base])
    · rw [← kept_merged_zeroes (dropped b).length words']
      refine reaches_order map (by omega) free (by rw [list]; exact (List.Perm.swap ..).append_left _) ?_
      simpa using zeroes [s, firstMb] (by simp [firstMb, base])
  · rw [not_or] at free
    have alone := (ordered_alone map (e := s) (by rw [list]; exact List.mem_cons_self ..) free.1).1
    obtain rfl : rest = [] := (List.cons.inj (list.symm.trans alone)).2
    obtain ⟨shape, rfl⟩ := oneBehindOne_of_ordered (by omega) list base
    rw [← kept_merged_zero words, ← kept_merged_zero words']
    exact ⟨shape.reaches map (.inl rfl), shape.reaches map (.inr rfl)⟩

/-- A usable region at address 0 comes before the first MiB or behind it. -/
theorem Unshuffled.high_at_zero (same : Unshuffled b) (map : BiosMap b) (two : 2 ≤ b.numEntries) :
    ∀ e ∈ ordered b, e.baseAddr = 0 → e.type > e820MemTypeUsable := by
  intro e mem base
  by_contra low
  have apart := ordered_sorted map
  have pos := apart.nonempty e mem
  obtain ⟨s, rest, list⟩ := List.exists_cons_of_ne_nil (List.ne_nil_of_mem mem)
  rw [list] at mem apart
  obtain rfl : e = s := by
    rcases List.mem_cons.mp mem with rfl | mem
    · rfl
    · have := apart.pos e mem
      omega
  obtain ⟨one, other⟩ := reaches_both map two list base
  have equal := same.entries_eq one other
  rw [merged, merged, mergeRuns_firstMb_low low, mergeRuns_low_firstMb low,
    kept_cons_of_type (by decide), kept_cons_of_pos pos] at equal
  obtain ⟨rfl, -⟩ := List.cons.inj equal
  exact low (by decide)

/-- With a zeroed slot, a lowest region that is reserved merges with the first MiB unless the slot is
between them. -/
theorem Unshuffled.lowest_low (same : Unshuffled b) (map : BiosMap b) (some : 0 < b.numEntries) (zeroed : dropped b ≠ [])
    (free : (∃ e ∈ ordered b, 0 < e.baseAddr) ∨ 3 ≤ b.numEntries) :
    ∀ e ∈ ordered b, (∀ f ∈ ordered b, e.baseAddr ≤ f.baseAddr) → e.type ≤ e820MemTypeUsable := by
  intro e mem least
  by_contra high
  have apart := ordered_sorted map
  obtain ⟨one, other⟩ := reaches_apart map some zeroed free
  have equal := same.entries_eq one other
  obtain ⟨s, rest, list⟩ := List.exists_cons_of_ne_nil (List.ne_nil_of_mem mem)
  rw [list] at mem least apart equal
  obtain rfl : e = s := by
    rcases List.mem_cons.mp mem with rfl | mem
    · rfl
    · have := least s (List.mem_cons_self ..)
      obtain ⟨pos, -, before, -⟩ := laid_cons.mp apart
      have := before e mem
      omega
  obtain ⟨first, others, grown, differs⟩ := firstMb_grown apart (Nat.lt_of_not_le high)
  rw [merged, grown] at equal
  exact differs (List.cons.inj equal).1

/-- Nothing was zeroed, and what is left at address 0 merges with the first MiB. -/
theorem unshuffled_of_kept_all (map : BiosMap b) (some : 0 < b.numEntries) (all : dropped b = [])
    (zero : ∀ e ∈ ordered b, e.baseAddr = 0 → e.type > e820MemTypeUsable) : Unshuffled b := by
  refine unshuffled_of_entries (kept (mergeRuns firstMb (ordered b))) fun rand => ?_
  obtain ⟨regions, blocks, -, perm, sorted, init, entries⟩ := memInit_returns map some rand
  exact ⟨blocks, init, entries.trans (merged_of_kept_all map all zero perm sorted)⟩

/-- The lowest region left is above address 0 and never merges with the first MiB. -/
theorem unshuffled_of_lowest_low (map : BiosMap b) (some : 0 < b.numEntries) (above : ∀ e ∈ ordered b, 0 < e.baseAddr)
    (clear : ∀ e ∈ ordered b, (∀ f ∈ ordered b, e.baseAddr ≤ f.baseAddr) → e.type ≤ e820MemTypeUsable) :
    Unshuffled b := by
  have same : kept (mergeRuns firstMb (ordered b)) = firstMb :: kept (merged (ordered b)) := by
    have apart := ordered_sorted map
    cases list : ordered b with
    | nil => decide
    | cons s rest =>
      rw [list] at clear apart
      have low := clear s (List.mem_cons_self ..) apart.head_le
      rw [mergeRuns_firstMb_low (by omega), kept_cons_of_type (by decide), merged]
  refine unshuffled_of_entries (firstMb :: kept (merged (ordered b))) fun rand => ?_
  obtain ⟨regions, blocks, -, perm, sorted, init, entries⟩ := memInit_returns map some rand
  refine ⟨blocks, init, entries.trans ?_⟩
  rcases merged_cases map above perm sorted with meets | ⟨-, apart⟩
  · exact meets.trans same
  · exact apart

/-- **The map does not depend on the shuffle exactly when** there is one entry only; or no usable
region is left at address 0 and either nothing was zeroed or the lowest region left is usable; or
there are two entries, the first zeroed and the second at address 0 and not usable. -/
theorem memInit_unshuffled_iff (map : BiosMap b) (some : 0 < b.numEntries) :
    Unshuffled b ↔ b.numEntries = 1 ∨
      ((∀ e ∈ remaining b, e.baseAddr = 0 → e.type > e820MemTypeUsable) ∧
        (dropped b = [] ∨ ∀ e ∈ remaining b, (∀ f ∈ remaining b, e.baseAddr ≤ f.baseAddr) → e.type ≤ e820MemTypeUsable)) ∨
      (OneBehindOne b ∧ (b.memRegion 1).type > e820MemTypeUsable) := by
  simp only [← mem_ordered]
  constructor
  · intro same
    by_cases one : b.numEntries = 1
    · exact .inl one
    refine .inr ?_
    by_cases special : OneBehindOne b ∧ (b.memRegion 1).type > e820MemTypeUsable
    · exact .inr special
    have zero := same.high_at_zero map (by omega)
    refine .inl ⟨zero, ?_⟩
    by_cases zeroed : dropped b = []
    · exact .inl zeroed
    refine .inr fun e mem => same.lowest_low map (by omega) zeroed ?_ e mem
    -- otherwise the region is alone at address 0, behind one that was zeroed
    by_contra tight
    rw [not_or] at tight
    obtain ⟨alone, base⟩ := ordered_alone map mem tight.1
    obtain ⟨shape, rfl⟩ := oneBehindOne_of_ordered (by omega) alone base
    exact special ⟨shape, zero _ mem base⟩
  · rintro (one | ⟨zero, all | clear⟩ | ⟨shape, high⟩)
    · intro rand rand'
      obtain ⟨-, blocks, -, -, -, init, -⟩ := memInit_returns map some rand
      exact ⟨blocks, _, blocks, _, init, (memInit_single map one rand' rand).trans init, rfl, rfl⟩
    · exact unshuffled_of_kept_all map some all zero
    · refine unshuffled_of_lowest_low map some (fun e mem => ?_) clear
      by_contra base
      have base : e.baseAddr = 0 := by omega
      have high := zero e mem base
      have low := clear e mem fun f _ => by rw [base]; exact Nat.zero_le _
      omega
    · exact unshuffled_of_entries _ (shape.returns_high map high)

end Shuffle

/-- Usable memory from 1 MiB on: nothing to merge with the first MiB. -/
theorem memInit_unshuffled_usable : Unshuffled (twoUsable 0x300000) := by
  refine (memInit_unshuffled_iff (twoUsable_biosMap (Nat.le_refl 0x300000) (by decide)) (by decide)).mpr
    (.inr (.inl ⟨?_, .inl ?_⟩))
  · decide +kernel
  · decide +kernel

/-- Usable memory below 1 MiB and reserved memory behind a gap above it. -/
def lowAndReserved : MemMapBlock where
  numEntries := 2
  memRegion := fun i =>
    if i = 0 then ⟨0x0, 0x80000, e820MemTypeUsable⟩
    else if i = 1 then ⟨0x200000, 0x100000, e820MemTypeReserved⟩ else .zero

theorem lowAndReserved_biosMap : BiosMap lowAndReserved where
  room := by decide
  nonempty := by decide +kernel
  bounded := by decide +kernel
  apart := by decide +kernel
  spare := rfl

/-- With two sequences of numbers the reserved region is part of the first MiB's entry, and is not. -/
theorem memInit_shuffled : BiosMap lowAndReserved ∧ ¬ Unshuffled lowAndReserved := by
  refine ⟨lowAndReserved_biosMap, fun same => ?_⟩
  obtain ⟨blocks, _, blocks', _, init, init', list, -⟩ := same (fun _ => 0) fun _ => 1
  have result : (memInit (fun _ => 0) lowAndReserved).map (fun r => r.1.entries) =
      .ok [firstMb, ⟨0x200000, 0x100000, e820MemTypeReserved⟩] := by
    decide +kernel
  have result' : (memInit (fun _ => 1) lowAndReserved).map (fun r => r.1.entries) =
      .ok [⟨0x0, 0x200000, e820MemTypeReserved⟩] := by
    decide +kernel
  rw [init] at result
  rw [init'] at result'
  have entries : blocks.entries = _ := Except.ok.inj result
  have entries' : blocks'.entries = _ := Except.ok.inj result'
  rw [entries, entries'] at list
  exact absurd list (by decide)

end AlmeidaOS.Kernel
