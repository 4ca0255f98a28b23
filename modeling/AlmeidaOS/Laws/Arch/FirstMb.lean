import AlmeidaOS.Laws.Arch.MemOrder

/-!
# The first MiB in the memory map

`mem_reserve_first_mb` zeroes the regions that end below 1 MiB, but its loop ends one entry short of
the last, and a region that only begins below 1 MiB is left as it is. What is left there overlaps the
first MiB, unless it is reserved and merges with it; and then the run of the first MiB is longer than
the memory it stands for.
-/

namespace AlmeidaOS.Kernel

open MemMapBlock

/-- No usable entry intersects the first MiB, and the entries are sorted and apart. -/
structure FirstMbReserved (entries : List MemMapRegion) : Prop where
  unusable : ∀ e ∈ entries, e.type = e820MemTypeUsable → ∀ x, e.Mem x → 0x100000 ≤ x
  sorted : ByBase entries
  disjoint : entries.Pairwise fun e f => ∀ x, ¬ (e.Mem x ∧ f.Mem x)

/-- `mem_init` leaves such entries, whatever `rand` returns. -/
def KeepsFirstMbReserved (b : MemMapBlock) : Prop :=
  ∀ rand, ∃ blocks physMemStat, memInit rand b = .ok (blocks, physMemStat) ∧ FirstMbReserved blocks.entries

/-- What the first run has to leave free: the lowest region that is usable or of no type. -/
def RunFits (regions : List MemMapRegion) : Prop :=
  ∀ q ∈ regions, q.type ≤ e820MemTypeUsable → (∀ f ∈ regions, f.type ≤ e820MemTypeUsable → q.baseAddr ≤ f.baseAddr) →
    (0x100000 + ((regions.filter fun e => e.baseAddr < q.baseAddr).map MemMapRegion.length).sum) % 2 ^ 64 ≤ q.baseAddr

section FirstMb

variable {b : MemMapBlock}

theorem Laid.disjoint {top : Nat} {entries : List MemMapRegion} (laid : Laid top entries) :
    entries.Pairwise fun e f => ∀ x, ¬ (e.Mem x ∧ f.Mem x) := by
  refine laid.sorted.imp fun before x both => ?_
  obtain ⟨⟨_, _⟩, _, _⟩ := both
  omega

/-- Usable runs begin where usable regions are. -/
theorem usable_base_le {run : MemMapRegion} {rest : List MemMapRegion} (sorted : SortedRegions (run :: rest)) {low : Nat}
    (above : ∀ f ∈ run :: rest, f.type = e820MemTypeUsable → low ≤ f.baseAddr) {e : MemMapRegion}
    (mem : e ∈ mergeRuns run rest) (type : e.type = e820MemTypeUsable) : low ≤ e.baseAddr := by
  have pos := (mergeRuns_sorted sorted).1.nonempty e mem
  obtain ⟨f, memf, typef, from_, -⟩ := (mergeRuns_usable sorted e.baseAddr).mp ⟨e, mem, type, Nat.le_refl _, by omega⟩
  exact (above f memf typef).trans from_

theorem kept_mergeRuns {run : MemMapRegion} {rest : List MemMapRegion} (sorted : SortedRegions (run :: rest)) :
    kept (mergeRuns run rest) = mergeRuns run rest :=
  kept_of_pos (mergeRuns_sorted sorted).1.nonempty

theorem firstMbReserved_single {r : MemMapRegion} (type : r.type ≠ e820MemTypeUsable) : FirstMbReserved [r] := by
  refine ⟨fun e mem usable => ?_, List.pairwise_singleton .., List.pairwise_singleton ..⟩
  rw [List.mem_singleton.mp mem] at usable
  exact absurd usable type

/-- The first run begins where the first region does. -/
theorem exists_first_run (run : MemMapRegion) (rest : List MemMapRegion) :
    ∃ e ∈ mergeRuns run rest, e.baseAddr = run.baseAddr := by
  induction rest generalizing run with
  | nil => exact ⟨asReserved run, by simp [mergeRuns], asReserved_baseAddr run⟩
  | cons r rest ih =>
    rw [mergeRuns]
    split
    · rw [← combined_baseAddr (r := r)]
      exact ih _
    · exact ⟨asReserved run, List.mem_cons_self .., asReserved_baseAddr run⟩

/-- Regions that all begin above the first MiB. -/
theorem firstMbReserved_of_above (map : BiosMap b) (above : ∀ e ∈ ordered b, 0x100000 ≤ e.baseAddr) :
    FirstMbReserved (kept (mergeRuns firstMb (ordered b))) ∧ FirstMbReserved (firstMb :: kept (merged (ordered b))) := by
  have apart := ordered_sorted map
  have whole : SortedRegions (firstMb :: ordered b) :=
    laid_cons.mpr ⟨by decide, by decide, above, apart⟩
  have low : ∀ f ∈ firstMb :: ordered b, f.type = e820MemTypeUsable → 0x100000 ≤ f.baseAddr := by
    intro f mem type
    rcases List.mem_cons.mp mem with rfl | mem
    · cases type
    · exact above f mem
  constructor
  · rw [kept_mergeRuns whole]
    have sorted := (mergeRuns_sorted whole).1
    refine ⟨fun e mem type x here => ?_, sorted.byBase, sorted.disjoint⟩
    exact (usable_base_le whole low mem type).trans here.1
  · rcases list : ordered b with _ | ⟨s, rest⟩
    · exact firstMbReserved_single (by decide)
    · rw [list] at apart above low
      rw [merged, kept_mergeRuns apart]
      obtain ⟨sorted, base⟩ := mergeRuns_sorted apart
      have whole : SortedRegions (firstMb :: mergeRuns s rest) :=
        laid_cons.mpr ⟨by decide, by decide, fun f mem => (above s (List.mem_cons_self ..)).trans (base f mem), sorted⟩
      refine ⟨fun e mem type x here => ?_, whole.byBase, whole.disjoint⟩
      rcases List.mem_cons.mp mem with rfl | mem
      · cases type
      · exact ((above s (List.mem_cons_self ..)).trans (base e mem)).trans here.1

/-- The regions below the first that is usable or of no type. -/
theorem filter_below {taken rest : List MemMapRegion} {q : MemMapRegion} (sorted : SortedRegions (taken ++ q :: rest)) :
    (taken ++ q :: rest).filter (fun e => e.baseAddr < q.baseAddr) = taken := by
  obtain ⟨front, back, across⟩ := laid_append.mp sorted
  obtain ⟨-, -, before, -⟩ := laid_cons.mp back
  rw [List.filter_append, List.filter_eq_self.mpr, List.filter_eq_nil_iff.mpr, List.append_nil]
  · refine List.forall_mem_cons.mpr ⟨by simp, fun f mem => ?_⟩
    have := before f mem
    simp only [decide_eq_true_eq]
    omega
  · intro e mem
    have pos := front.nonempty e mem
    have := across e mem q (List.mem_cons_self ..)
    simp only [decide_eq_true_eq]
    omega

/-- The run of the first MiB and the runs behind it. -/
theorem firstMbReserved_run_iff {taken rest : List MemMapRegion} {q : MemMapRegion}
    (sorted : SortedRegions (taken ++ q :: rest)) (high : ∀ e ∈ taken, e.type > e820MemTypeUsable)
    (low : ¬ q.type > e820MemTypeUsable) :
    FirstMbReserved (kept (mergeRuns firstMb (taken ++ q :: rest))) ↔
      (∀ e ∈ q :: rest, e.type = e820MemTypeUsable → 0x100000 ≤ e.baseAddr) ∧
        (0x100000 + (taken.map MemMapRegion.length).sum) % 2 ^ 64 ≤ q.baseAddr := by
  obtain ⟨-, back, -⟩ := laid_append.mp sorted
  obtain ⟨behind, base⟩ := mergeRuns_sorted back
  rw [mergeRuns_firstMb taken _ high, mergeRuns_reservedTo_cons _ low, kept_cons_of_type (Nat.succ_ne_zero 1),
    kept_mergeRuns back]
  generalize (0x100000 + (taken.map MemMapRegion.length).sum) % 2 ^ 64 = length
  constructor
  · rintro ⟨unusable, -, disjoint⟩
    refine ⟨fun e mem type => ?_, ?_⟩
    · have pos := back.nonempty e mem
      obtain ⟨f, memf, typef, here⟩ := (mergeRuns_usable back e.baseAddr).mpr ⟨e, mem, type, Nat.le_refl _, by omega⟩
      exact unusable f (List.mem_cons_of_mem _ memf) typef _ here
    · obtain ⟨e, mem, first⟩ := exists_first_run q rest
      have pos := behind.nonempty e mem
      by_contra beyond
      refine (List.pairwise_cons.mp disjoint).1 e mem q.baseAddr ⟨⟨Nat.zero_le _, ?_⟩, ?_, ?_⟩
      · show q.baseAddr < 0 + length
        omega
      · omega
      · omega
  · rintro ⟨above, fits⟩
    refine ⟨fun e mem type x here => ?_, byBase_cons.mpr ⟨fun _ _ => Nat.zero_le _, behind.byBase⟩,
      List.pairwise_cons.mpr ⟨fun e mem x both => ?_, behind.disjoint⟩⟩
    · rcases List.mem_cons.mp mem with rfl | mem
      · cases type
      · exact (usable_base_le back above mem type).trans here.1
    · obtain ⟨⟨-, inside⟩, from_, -⟩ := both
      have := base e mem
      have : x < 0 + length := inside
      omega

/-- The first run fits exactly as far as the regions below the lowest one it does not take in. -/
theorem runFits_iff {taken rest : List MemMapRegion} {q : MemMapRegion} (sorted : SortedRegions (taken ++ q :: rest))
    (high : ∀ e ∈ taken, e.type > e820MemTypeUsable) (low : ¬ q.type > e820MemTypeUsable) :
    RunFits (taken ++ q :: rest) ↔ (0x100000 + (taken.map MemMapRegion.length).sum) % 2 ^ 64 ≤ q.baseAddr := by
  obtain ⟨-, back, across⟩ := laid_append.mp sorted
  obtain ⟨-, -, before, -⟩ := laid_cons.mp back
  have least : ∀ f ∈ taken ++ q :: rest, f.type ≤ e820MemTypeUsable → q.baseAddr ≤ f.baseAddr := by
    intro f mem type
    rcases List.mem_append.mp mem with mem | mem
    · have := high f mem
      omega
    · rcases List.mem_cons.mp mem with rfl | mem
      · exact Nat.le_refl _
      · have := before f mem
        omega
  constructor
  · intro fits
    have := fits q (List.mem_append_right _ (List.mem_cons_self ..)) (by omega) least
    rwa [filter_below sorted] at this
  · intro fits p mem type lowest
    have same : p.baseAddr = q.baseAddr :=
      Nat.le_antisymm (lowest q (List.mem_append_right _ (List.mem_cons_self ..)) (by omega)) (least p mem type)
    rwa [same, filter_below sorted]

/-- Nothing zeroed, and no usable region begins below 1 MiB. -/
theorem firstMbReserved_of_fits (map : BiosMap b)
    (high : ∀ e ∈ ordered b, e.baseAddr < 0x100000 → e.type > e820MemTypeUsable) (fits : RunFits (ordered b)) :
    FirstMbReserved (kept (mergeRuns firstMb (ordered b))) := by
  have apart := ordered_sorted map
  rcases exists_low (ordered b) with all | ⟨taken, q, rest, list, before, low⟩
  · have run := mergeRuns_firstMb _ [] all
    rw [List.append_nil, mergeRuns, reservedTo_reserved] at run
    rw [run, kept_cons_of_type (Nat.succ_ne_zero 1)]
    exact firstMbReserved_single (Nat.ne_of_gt (reservedTo_high _))
  · rw [list] at apart high fits ⊢
    refine (firstMbReserved_run_iff apart before low).mpr ⟨fun e mem type => ?_, (runFits_iff apart before low).mp fits⟩
    by_contra below
    have := high e (List.mem_append_right _ mem) (by omega)
    omega

theorem not_firstMbReserved_of_overlap {e f : MemMapRegion} {rest : List MemMapRegion} (mem : f ∈ rest) {x : Nat}
    (here : e.Mem x) (here' : f.Mem x) : ¬ FirstMbReserved (e :: rest) := fun reserved =>
  (List.pairwise_cons.mp reserved.disjoint).1 f mem x ⟨here, here'⟩

theorem runFits_perm {l l' : List MemMapRegion} (perm : l.Perm l') (fits : RunFits l) : RunFits l' := by
  intro q mem type least
  have sum := ((perm.filter fun e => e.baseAddr < q.baseAddr).map MemMapRegion.length).sum_nat
  rw [← sum]
  exact fits q (perm.mem_iff.mpr mem) type fun f memf typef => least f (perm.mem_iff.mp memf) typef

theorem runFits_of_high {regions : List MemMapRegion} (all : ∀ e ∈ regions, e.type > e820MemTypeUsable) :
    RunFits regions := by
  intro q mem type
  have := all q mem
  omega

/-- Without a zeroed slot, a map that keeps the first MiB reserved meets the condition. -/
theorem fits_of_firstMbReserved {regions : List MemMapRegion} (apart : SortedRegions regions)
    (reserved : FirstMbReserved (kept (mergeRuns firstMb regions))) :
    (∀ e ∈ regions, e.baseAddr < 0x100000 → e.type > e820MemTypeUsable) ∧ RunFits regions := by
  rcases exists_low regions with all | ⟨taken, q, rest, rfl, before, low⟩
  · exact ⟨fun e mem _ => all e mem, runFits_of_high all⟩
  · obtain ⟨-, fits⟩ := (firstMbReserved_run_iff apart before low).mp reserved
    refine ⟨fun e mem below => ?_, (runFits_iff apart before low).mpr fits⟩
    rcases List.mem_append.mp mem with mem | mem
    · exact before e mem
    · -- the run of the first MiB is as long as that at least, so nothing begins inside it
      obtain ⟨front, back, across⟩ := laid_append.mp apart
      have below : Laid q.baseAddr taken :=
        ⟨front.nonempty, fun e mem => across e mem q (List.mem_cons_self ..), front.sorted⟩
      have sum := below.sum_le (fun e _ => Nat.zero_le e.baseAddr) (Nat.zero_le _)
      have first := back.head_le e mem
      rw [Nat.mod_eq_of_lt (by omega)] at fits
      omega

/-- A region at address 0 beside the first MiB. -/
theorem not_firstMbReserved_beside {r : MemMapRegion} (base : r.baseAddr = 0) (pos : 0 < r.length) :
    ¬ FirstMbReserved [firstMb, r] ∧ ¬ FirstMbReserved [r, firstMb] := by
  have here : r.Mem 0 := ⟨by omega, by omega⟩
  have here' : firstMb.Mem 0 := ⟨Nat.le_refl 0, by decide⟩
  exact ⟨not_firstMbReserved_of_overlap (List.mem_singleton_self r) here' here,
    not_firstMbReserved_of_overlap (List.mem_singleton_self firstMb) here here'⟩

/-- One region alone, at address 0: it must not be usable. -/
theorem high_of_alone (map : BiosMap b) {s : MemMapRegion} (some : 0 < b.numEntries) (few : b.numEntries < 3)
    (list : ordered b = [s]) (base : s.baseAddr = 0)
    (all : KeepsFirstMbReserved b) :
    s.type > e820MemTypeUsable := by
  by_contra low
  have mem : s ∈ ordered b := by rw [list]; exact List.mem_singleton_self s
  have pos := (ordered_sorted map).nonempty s mem
  obtain ⟨pairs, pairs'⟩ := alone_low low pos (ordered_word map s mem)
  obtain ⟨beside, beside'⟩ := not_firstMbReserved_beside base pos
  obtain ⟨blocks, _, init, reserved⟩ := all fun _ => 0
  rcases (by omega : b.numEntries = 1 ∨ b.numEntries = 2) with one | two
  · obtain ⟨regions, blocks', -, perm, -, init', entries⟩ := memInit_returns map some fun _ => 0
    obtain ⟨rfl, -⟩ := Prod.mk.inj (Except.ok.inj (init.symm.trans init'))
    have perm' := perm.trans (reserve_perm_ordered map)
    rw [dropped_eq_nil_of_one list one, list, List.length_nil, List.replicate_zero, List.nil_append] at perm'
    rw [entries] at reserved
    rcases perm_pair perm' with order | order
    · rw [order, pairs _ (by simp)] at reserved
      exact beside reserved
    · rw [order, pairs' _ (by simp)] at reserved
      exact beside' reserved
  · obtain ⟨shape, rfl⟩ := oneBehindOne_of_ordered two list base
    obtain ⟨blocks', order, init', entries, cases⟩ := shape.returns map fun _ => 0
    obtain ⟨rfl, -⟩ := Prod.mk.inj (Except.ok.inj (init.symm.trans init'))
    rw [entries] at reserved
    rcases cases with rfl | rfl | rfl | rfl
    · rw [pairs _ (by simp)] at reserved
      exact beside reserved
    · rw [pairs' _ (by simp)] at reserved
      exact beside' reserved
    · rw [pairs' _ (by simp)] at reserved
      exact beside' reserved
    · rw [pairs _ (by simp)] at reserved
      exact beside reserved

/-- What holds for every sequence of numbers holds for the entries some sequence gives. -/
theorem KeepsFirstMbReserved.reached (all : KeepsFirstMbReserved b) {l : List MemMapRegion}
    (reaches : ∃ rand blocks, memInit rand b = .ok (blocks, calcPhysMemoryStats blocks) ∧ blocks.entries = l) :
    FirstMbReserved l := by
  obtain ⟨rand, blocks, init, rfl⟩ := reaches
  obtain ⟨_, _, init', reserved⟩ := all rand
  obtain ⟨rfl, -⟩ := Prod.mk.inj (Except.ok.inj (init.symm.trans init'))
  exact reserved

/-- A zeroed slot behind the first MiB leaves the lowest region beside it. -/
theorem KeepsFirstMbReserved.above (all : KeepsFirstMbReserved b) (map : BiosMap b) (some : 0 < b.numEntries)
    (zeroed : dropped b ≠ []) (free : (∃ e ∈ ordered b, 0 < e.baseAddr) ∨ 3 ≤ b.numEntries) :
    ∀ e ∈ ordered b, 0x100000 ≤ e.baseAddr := by
  intro e mem
  by_contra below
  have apart := ordered_sorted map
  have reserved := all.reached (reaches_apart map some zeroed free).2
  obtain ⟨s, rest, list⟩ := List.exists_cons_of_ne_nil (List.ne_nil_of_mem mem)
  rw [list] at reserved apart mem
  rw [merged, kept_mergeRuns apart] at reserved
  obtain ⟨f, memf, first⟩ := exists_first_run s rest
  have pos := (mergeRuns_sorted apart).1.nonempty f memf
  have lowest := apart.head_le e mem
  refine not_firstMbReserved_of_overlap memf (x := s.baseAddr) ⟨Nat.zero_le _, ?_⟩ ⟨?_, ?_⟩ reserved
  · show s.baseAddr < 0 + 0x100000
    omega
  · omega
  · omega

/-- Nothing was zeroed: the regions are merged in their order. -/
theorem KeepsFirstMbReserved.fits (all : KeepsFirstMbReserved b) (map : BiosMap b) (some : 0 < b.numEntries)
    (keptAll : dropped b = []) (free : (∃ e ∈ ordered b, 0 < e.baseAddr) ∨ 3 ≤ b.numEntries) :
    (∀ e ∈ ordered b, e.baseAddr < 0x100000 → e.type > e820MemTypeUsable) ∧ RunFits (remaining b) := by
  have apart := ordered_sorted map
  have order : ByBase ([firstMb] ++ ordered b) := byBase_append (by simp [firstMb]) apart.byBase
  have reserved := all.reached (reaches_order map some free (by rw [keptAll]; exact .refl _) order)
  obtain ⟨high, fits⟩ := fits_of_firstMbReserved apart reserved
  exact ⟨high, runFits_perm (ordered_perm b) fits⟩

theorem keepsFirstMbReserved_of_above (map : BiosMap b) (some : 0 < b.numEntries) (above : ∀ e ∈ ordered b, 0x100000 ≤ e.baseAddr) :
    KeepsFirstMbReserved b := by
  intro rand
  obtain ⟨regions, blocks, -, perm, sorted, init, entries⟩ := memInit_returns map some rand
  obtain ⟨meets, apart⟩ := firstMbReserved_of_above map above
  refine ⟨blocks, _, init, ?_⟩
  rw [entries]
  rcases merged_cases map (fun e mem => by have := above e mem; omega) perm sorted with same | ⟨-, same⟩
  · rwa [same]
  · rwa [same]

theorem keepsFirstMbReserved_of_fits (map : BiosMap b) (some : 0 < b.numEntries) (keptAll : dropped b = [])
    (high : ∀ e ∈ ordered b, e.baseAddr < 0x100000 → e.type > e820MemTypeUsable) (fits : RunFits (ordered b)) :
    KeepsFirstMbReserved b := by
  intro rand
  obtain ⟨regions, blocks, -, perm, sorted, init, entries⟩ := memInit_returns map some rand
  refine ⟨blocks, _, init, ?_⟩
  rw [entries, merged_of_kept_all map keptAll (fun e mem base => high e mem (by omega)) perm sorted]
  exact firstMbReserved_of_fits map high fits

/-- **The first MiB is never usable and the entries are sorted and apart, whatever `rand` returns,
exactly when** every region left begins at 1 MiB or above; or nothing was zeroed, no region that
begins below 1 MiB is usable, and the run of the first MiB ends before the lowest region it does not
take in; or there are two entries, the first zeroed and the second at address 0 and not usable. -/
theorem first_mb_reserved_iff (map : BiosMap b) (some : 0 < b.numEntries) :
    KeepsFirstMbReserved b ↔
      (∀ e ∈ remaining b, 0x100000 ≤ e.baseAddr) ∨
      (dropped b = [] ∧ (∀ e ∈ remaining b, e.baseAddr < 0x100000 → e.type > e820MemTypeUsable) ∧
        RunFits (remaining b)) ∨
      (OneBehindOne b ∧ (b.memRegion 1).type > e820MemTypeUsable) := by
  simp only [← mem_ordered]
  constructor
  · intro all
    by_cases above : ∀ e ∈ ordered b, 0x100000 ≤ e.baseAddr
    · exact .inl above
    refine .inr ?_
    by_cases free : (∃ e ∈ ordered b, 0 < e.baseAddr) ∨ 3 ≤ b.numEntries
    · by_cases zeroed : dropped b = []
      · exact .inl ⟨zeroed, all.fits map some zeroed free⟩
      · exact absurd (all.above map some zeroed free) above
    · -- the region below 1 MiB is alone, so that the order of the zeroed slot decides nothing
      rw [not_or] at free
      push Not at above
      obtain ⟨e, mem, -⟩ := above
      obtain ⟨list, base⟩ := ordered_alone map mem free.1
      have high := high_of_alone map some (by omega) list base all
      have highs : ∀ f ∈ ordered b, f.type > e820MemTypeUsable := by
        rw [list]
        simpa using high
      rcases (by omega : b.numEntries = 1 ∨ b.numEntries = 2) with one | two
      · refine .inl ⟨dropped_eq_nil_of_one list one, fun f mem _ => highs f mem, ?_⟩
        exact runFits_perm (ordered_perm b) (runFits_of_high highs)
      · obtain ⟨shape, rfl⟩ := oneBehindOne_of_ordered two list base
        exact .inr ⟨shape, high⟩
  · rintro (above | ⟨zeroed, high, fits⟩ | ⟨shape, high⟩)
    · exact keepsFirstMbReserved_of_above map some above
    · exact keepsFirstMbReserved_of_fits map some zeroed high (runFits_perm (ordered_perm b).symm fits)
    · intro rand
      obtain ⟨blocks, init, entries⟩ := shape.returns_high map high rand
      refine ⟨blocks, _, init, ?_⟩
      rw [entries]
      exact firstMbReserved_single (Nat.ne_of_gt (reservedTo_high _))

end FirstMb

/-! ### Usable memory at the end of the list -/

/-- Memory from 1 MiB on, and usable memory below it as the last entry. -/
def lowEntryLast : MemMapBlock where
  numEntries := 2
  memRegion := fun i =>
    if i = 0 then ⟨0x100000, 0x100000, e820MemTypeUsable⟩
    else if i = 1 then ⟨0x0, 0x80000, e820MemTypeUsable⟩ else .zero

/-- All memory above 1 MiB: the first MiB stays reserved. -/
theorem first_mb_reserved_above : KeepsFirstMbReserved (twoUsable 0x300000) := by
  refine (first_mb_reserved_iff (twoUsable_biosMap (Nat.le_refl 0x300000) (by decide)) (by decide)).mpr (.inl ?_)
  decide +kernel

/-- The last entry is not looked at, and stays usable below 1 MiB. -/
theorem first_mb_usable : BiosMap lowEntryLast ∧ ∃ blocks physMemStat,
    memInit (fun _ => 0) lowEntryLast = .ok (blocks, physMemStat) ∧
      ⟨0x0, 0x80000, e820MemTypeUsable⟩ ∈ blocks.entries ∧ ¬ FirstMbReserved blocks.entries := by
  have map : BiosMap lowEntryLast :=
    { room := by decide, nonempty := by decide +kernel, bounded := by decide +kernel, apart := by decide +kernel, spare := rfl }
  refine ⟨map, ?_⟩
  obtain ⟨-, blocks, -, -, -, init, -⟩ := memInit_returns map (by decide) fun _ => 0
  have result : (memInit (fun _ => 0) lowEntryLast).map
      (fun r => r.1.entries.contains ⟨0x0, 0x80000, e820MemTypeUsable⟩) = .ok true := by
    decide +kernel
  rw [init] at result
  have mem : (⟨0x0, 0x80000, e820MemTypeUsable⟩ : MemMapRegion) ∈ blocks.entries :=
    List.contains_iff_mem.mp (Except.ok.inj result)
  refine ⟨blocks, _, init, mem, fun reserved => ?_⟩
  have := reserved.unusable _ mem rfl 0 ⟨Nat.le_refl 0, by decide⟩
  omega

end AlmeidaOS.Kernel
