import AlmeidaOS.Laws.Arch.MemAmount

/-!
# The count of free memory

`mem_init` counts the usable memory once, and `mem_alloc_region` takes off what it hands out, except
where the range is the whole entry: that path returns before the count is updated. So the count is the
usable memory of the map and what went by that path (`Tracked`), call after call, and it is right as long
as no call is for a whole entry.

`mem_stat` also refuses to answer when the sum of all lengths is 0, which is how 2^64 bytes look in 64
bits.
-/

namespace AlmeidaOS.Kernel

open MemMapBlock

/-! ## Sums of lengths -/

section Sums

variable {top : Nat} {run r : MemMapRegion} {rest l l' : List MemMapRegion}

@[simp] theorem usableLength_nil : usableLength [] = 0 := rfl

theorem usableLength_append (l l' : List MemMapRegion) : usableLength (l ++ l') = usableLength l + usableLength l' := by
  rw [usableLength, List.filter_append, List.map_append, List.sum_append]
  rfl

/-- The sum of the lengths of all regions. -/
def lengthSum (regions : List MemMapRegion) : Nat := (regions.map MemMapRegion.length).sum

@[simp] theorem lengthSum_nil : lengthSum [] = 0 := rfl

theorem lengthSum_cons (r : MemMapRegion) (rest : List MemMapRegion) : lengthSum (r :: rest) = r.length + lengthSum rest :=
  List.sum_cons

theorem lengthSum_append (l l' : List MemMapRegion) : lengthSum (l ++ l') = lengthSum l + lengthSum l' := by
  rw [lengthSum, List.map_append, List.sum_append]
  rfl

theorem Laid.lengthSum_le (laid : Laid top l) : lengthSum l ≤ top := by
  have sum := laid.sum_le (fun _ _ => Nat.zero_le _) (Nat.zero_le top)
  rwa [Nat.zero_add] at sum

/-- Each region has a byte at least. -/
theorem Laid.length_le_lengthSum (laid : Laid top l) : l.length ≤ lengthSum l := by
  induction l with
  | nil => exact Nat.le_refl _
  | cons r rest ih =>
    obtain ⟨pos, -, -, tail⟩ := laid_cons.mp laid
    have behind := ih tail
    rw [lengthSum_cons, List.length_cons]
    omega

/-- In 64 bits the sum is lost only when it is 2^64. -/
theorem Laid.totalLength_eq_zero (laid : Laid (2 ^ 64) l) (some : l ≠ []) : totalLength l = 0 ↔ ¬ lengthSum l < 2 ^ 64 := by
  have most := laid.lengthSum_le
  have least := laid.length_le_lengthSum
  have pos := List.length_pos_iff.mpr some
  show lengthSum l % 2 ^ 64 = 0 ↔ _
  omega

theorem usableLength_le (l : List MemMapRegion) : usableLength l ≤ lengthSum l := by
  induction l with
  | nil => exact Nat.le_refl _
  | cons r rest ih =>
    rw [usableLength_cons, lengthSum_cons]
    split
    · omega
    · omega

/-- Merging changes nothing in the usable length. -/
theorem Laid.runs_usableLength (laid : Laid top (run :: rest)) (word : top ≤ 2 ^ 64) (fits : RunBelow top run rest) :
    usableLength (mergeRuns run rest) = usableLength (run :: rest) := by
  induction rest generalizing run with
  | nil =>
    rw [mergeRuns, usableLength_cons, usableLength_cons, asReserved_length]
    simp only [asReserved_type_usable]
  | cons r rest ih =>
    rw [mergeRuns]
    split
    · rename_i taken
      have sum := fits.sum laid word taken
      have type : (Kernel.combined (asReserved run) r).type = (asReserved run).type := rfl
      rw [ih (laid.combined sum) (fits.combined laid word taken), usableLength_cons, usableLength_cons run,
        usableLength_cons r, combined_length_of_lt sum, type, ← Nat.add_assoc]
      simp only [asReserved_type_usable]
      congr 1
      rcases (laid.mergeable_iff word).mp taken with ⟨high, high'⟩ | ⟨-, same⟩
      · rw [if_neg (Nat.ne_of_gt high), if_neg (Nat.ne_of_gt high), if_neg (Nat.ne_of_gt high')]
      · rw [← same]
        split
        · rfl
        · rfl
    · rw [usableLength_cons, ih (laid_cons.mp laid).2.2.2 laid.fits, usableLength_cons run, asReserved_length]
      simp only [asReserved_type_usable]

/-- The pieces are as long as the entry, and the usable ones as the entry without the range. -/
theorem lengthSum_carved {e : MemMapRegion} {start stop : Nat} (holds : HoldsUsable e start stop) (order : start < stop) :
    lengthSum (carved e start stop) = e.length ∧ usableLength (carved e start stop) + (stop - start) = e.length := by
  obtain ⟨-, low, high⟩ := holds
  have reserved : ¬ e820MemTypeReserved = e820MemTypeUsable := by decide
  unfold carved
  split <;> split
  all_goals simp only [lengthSum_append, lengthSum_cons, lengthSum_nil, usableLength_append, usableLength_cons,
    usableLength_nil, if_neg reserved, if_true]
  all_goals omega

end Sums

/-! ## Calls -/

/-- The variables of `mem.c`: the map and the statistics. -/
structure MemState where
  memBlocks : MemMapBlock
  physMemStat : MemPhysStats

/-- A call of `mem_alloc_region` or of `mem_alloc_amount`, with its arguments. -/
inductive MemCall where
  | region (physStartAddr physEndAddr : Nat)
  | amount (length addrAlign : Nat)

/-- The arguments are 64-bit words. -/
def MemCall.Words : MemCall → Prop
  | .region physStartAddr physEndAddr => physStartAddr < 2 ^ 64 ∧ physEndAddr < 2 ^ 64
  | .amount length addrAlign => length < 2 ^ 64 ∧ addrAlign < 2 ^ 64

/-- The call, with the numbers `rand` returns during it: the region and the variables it leaves. -/
def MemCall.run (rand : Nat → Nat) (s : MemState) : MemCall → Outcome (MemMapRegion × MemMapBlock × MemPhysStats)
  | .region physStartAddr physEndAddr => memAllocRegion rand s.memBlocks s.physMemStat physStartAddr physEndAddr
  | .amount length addrAlign => memAllocAmount rand s.memBlocks s.physMemStat length addrAlign

/-- The call is served with a whole usable entry: the range is one, or the entry `mem_alloc_amount` stops at
has exactly the length. -/
def MemCall.TakesWhole (b : MemMapBlock) : MemCall → Prop
  | .region start stop => ∃ e ∈ b.entries, e.type = e820MemTypeUsable ∧ start = e.baseAddr ∧ stop = e.baseAddr + e.length
  | .amount length addrAlign => ∃ e, b.entries.find? (fitsAligned length addrAlign) = some e ∧ e.length = length

/-- Calls that all return, one after the other. The list has each call with the map before it. -/
inductive MemRun : MemState → List (MemMapBlock × MemCall) → MemState → Prop
  | nil (s : MemState) : MemRun s [] s
  | cons {s s' : MemState} {c : MemCall} {rand : Nat → Nat} {r : MemMapRegion} {b : MemMapBlock} {stat : MemPhysStats}
      {steps : List (MemMapBlock × MemCall)} : c.Words → c.run rand s = .ok (r, b, stat) → MemRun ⟨b, stat⟩ steps s' →
      MemRun s ((s.memBlocks, c) :: steps) s'

/-- `mem_stat().phys_free_mem` is the sum of the lengths of the usable entries. -/
def TracksFree (s : MemState) : Prop :=
  ∃ stat, memStat s.physMemStat = .ok stat ∧ stat.physFreeMem = usableLength s.memBlocks.entries

/-! ## One call -/

/-- The statistics are those of the map, but that `drift` bytes too many are counted as free. -/
structure Tracked (s : MemState) (drift : Nat) : Prop where
  map : MapInOrder s.memBlocks
  sum : totalLength s.memBlocks.entries ≠ 0
  free : s.physMemStat.physFreeMem = usableLength s.memBlocks.entries + drift
  word : s.physMemStat.physFreeMem < 2 ^ 64

section Call

variable {b b' : MemMapBlock} {stat stat' : MemPhysStats} {rand : Nat → Nat} {r : MemMapRegion} {start stop : Nat}

/-- Merging leaves both sums as they are. -/
theorem MapInOrder.merge_sums (map : MapInOrder b) (reserved : ∃ e ∈ b.entries, e.type = e820MemTypeReserved)
    (usable : ∃ e ∈ b.entries, e.type = e820MemTypeUsable) :
    totalLength (squashMemRegions (combineMergeableRegions b)).entries = totalLength b.entries ∧
      usableLength (squashMemRegions (combineMergeableRegions b)).entries = usableLength b.entries := by
  obtain ⟨-, run, rest, first, below, entries⟩ := map.merge reserved usable
  have laid := map.laid
  rw [first] at laid ⊢
  rw [entries, totalLength_mergeRuns, laid.runs_usableLength (Nat.le_refl _) below]
  exact ⟨rfl, rfl⟩

/-- The pieces of the entry are usable but for the range. -/
theorem Carving.sums {i : Nat} {c : MemMapBlock} (carving : Carving b start stop i c) (order : start < stop) :
    lengthSum c.entries = lengthSum b.entries ∧ usableLength c.entries + (stop - start) = usableLength b.entries := by
  obtain ⟨all, left⟩ := lengthSum_carved carving.holds order
  rw [carving.entries, entries_split carving.inside]
  simp only [lengthSum_append, lengthSum_cons, usableLength_append, usableLength_cons, if_pos carving.holds.usable]
  omega

/-- There is a slot for every piece: the map has no more entries than bytes. -/
theorem carved_room (laid : Laid (2 ^ 64) b.entries) (small : lengthSum b.entries < 2 ^ 64) (order : start < stop) :
    ∀ e ∈ b.entries, HoldsUsable e start stop → b.numEntries + (carved e start stop).length ≤ 2 ^ 64 := by
  intro e mem holds
  obtain ⟨before, behind, list⟩ := List.append_of_mem mem
  have count : b.entries.length = b.numEntries := by rw [entries, List.length_map, List.length_range]
  have pieces := (lengthSum_carved holds order).1
  rw [list] at laid small count
  have bytes := (laid.carve holds order).length_le_lengthSum
  simp only [List.length_append, List.length_cons, lengthSum_append, lengthSum_cons] at count bytes small
  omega

/-- The entry that is carved is the range exactly when some usable entry is. -/
theorem Carving.whole_iff {i : Nat} {c : MemMapBlock} (carving : Carving b start stop i c) (laid : Laid (2 ^ 64) b.entries)
    (order : start < stop) : (MemCall.region start stop).TakesWhole b ↔
      start = (b.memRegion i).baseAddr ∧ stop = (b.memRegion i).baseAddr + (b.memRegion i).length := by
  have mem : b.memRegion i ∈ b.entries := mem_entries.mpr ⟨i, carving.inside, rfl⟩
  constructor
  · rintro ⟨e, among, -, first, last⟩
    have low := carving.holds.low
    have high := carving.holds.high
    rcases laid.apart among mem with rfl | before | after
    · exact ⟨first, last⟩
    · omega
    · omega
  · rintro ⟨first, last⟩
    exact ⟨_, mem, carving.holds.usable, first, last⟩

/-- What a call leaves: the same drift, or more of it. -/
structure Progress (s' : MemState) (drift : Nat) (whole : Prop) : Prop where
  kept : ¬ whole → Tracked s' drift
  grown : whole → ∃ drift', drift < drift' ∧ Tracked s' drift'

/-- The range goes from the usable memory. It goes from the count too, unless it is a whole entry. -/
theorem Tracked.region {drift : Nat} (tracked : Tracked ⟨b, stat⟩ drift) (word : stop < 2 ^ 64)
    (run : memAllocRegion rand b stat start stop = .ok (r, b', stat')) :
    Progress ⟨b', stat'⟩ drift ((MemCall.region start stop).TakesWhole b) := by
  have map : MapInOrder b := tracked.map
  have sum : totalLength b.entries ≠ 0 := tracked.sum
  have free : stat.physFreeMem = usableLength b.entries + drift := tracked.free
  have bound : stat.physFreeMem < 2 ^ 64 := tracked.word
  obtain ⟨order, e, mem, holds, below⟩ := memAllocRegion_holds map.laid.bounded word run
  have small : lengthSum b.entries < 2 ^ 64 := by
    by_contra large
    exact sum ((map.laid.totalLength_eq_zero (List.ne_nil_of_mem mem)).mpr large)
  obtain ⟨i, c, carving, run'⟩ := memAllocRegion_carving map.laid (carved_room map.laid small order) order word mem holds
    below rand stat
  have pieces := map.carve carving order
  obtain ⟨all, left⟩ := carving.sums order
  have sum' : totalLength c.entries ≠ 0 := by
    show lengthSum c.entries % 2 ^ 64 ≠ 0
    rwa [all]
  have whole := carving.whole_iff map.laid order
  have result := run'.symm.trans run
  split at result
  · rename_i here
    cases result
    refine ⟨fun part => absurd (whole.mpr here) part,
      fun _ => ⟨drift + (stop - start), by omega, pieces, sum', ?_, bound⟩⟩
    dsimp only
    omega
  · rename_i part
    cases result
    obtain ⟨reserved, usable⟩ := carving.kinds part
    have merged := (pieces.merge reserved usable).1
    obtain ⟨total, same⟩ := pieces.merge_sums reserved usable
    have taken : Word.sub stat.physFreeMem (stop - start) = stat.physFreeMem - (stop - start) :=
      Word.sub_of_le bound (by omega)
    refine ⟨fun _ => ⟨merged, ?_, ?_, Word.sub_lt _ _⟩, fun all => absurd (whole.mp all) part⟩
    · rwa [total]
    · dsimp only
      omega

/-- `mem_alloc_amount` serves a call with the front of the entry it stops at. -/
theorem memAllocAmount_eq_ok {length addrAlign : Nat} (run : memAllocAmount rand b stat length addrAlign = .ok (r, b', stat')) :
    ∃ e, b.entries.find? (fitsAligned length addrAlign) = some e ∧
      memAllocRegion rand b stat e.baseAddr (Word.add e.baseAddr length) = .ok (r, b', stat') := by
  rw [memAllocAmount] at run
  obtain ⟨-, run⟩ := bugOn_bind_eq_ok.mp run
  obtain ⟨-, run⟩ := bugOn_bind_eq_ok.mp run
  rw [find?_entries]
  cases found : (List.range b.numEntries).find? fun curPos => fitsAligned length addrAlign (b.memRegion curPos) with
  | none =>
    rw [found] at run
    cases run
  | some i =>
    simp only [found] at run
    obtain ⟨out, call, run⟩ := bind_eq_ok.mp run
    obtain ⟨-, run⟩ := bugOn_bind_eq_ok.mp run
    cases run
    exact ⟨_, rfl, call⟩

/-- The front is a whole entry exactly when the entry has the length. -/
theorem takesWhole_amount_iff (laid : Laid (2 ^ 64) b.entries) {length addrAlign : Nat} {e : MemMapRegion}
    (found : b.entries.find? (fitsAligned length addrAlign) = some e)
    (call : memAllocRegion rand b stat e.baseAddr (Word.add e.baseAddr length) = .ok (r, b', stat')) :
    (MemCall.amount length addrAlign).TakesWhole b ↔
      (MemCall.region e.baseAddr (Word.add e.baseAddr length)).TakesWhole b := by
  have mem := List.mem_of_find?_eq_some found
  have pos := laid.nonempty e mem
  obtain ⟨fits, usable, -⟩ := fitsAligned_iff.mp (List.find?_some found)
  obtain ⟨order, f, memf, ⟨-, low, high⟩, below⟩ := memAllocRegion_holds laid.bounded (Word.add_lt _ _) call
  -- the entry that holds the range is the one the loop has stopped at
  obtain rfl : e = f := by
    rcases laid.apart mem memf with same | before | after
    · exact same
    · omega
    · omega
  have stop : Word.add e.baseAddr length = e.baseAddr + length := Word.add_of_lt (by omega)
  rw [stop]
  constructor
  · rintro ⟨g, again, same⟩
    cases found.symm.trans again
    exact ⟨e, mem, usable, rfl, by omega⟩
  · rintro ⟨g, memg, -, first, last⟩
    have pos' := laid.nonempty g memg
    refine ⟨e, found, ?_⟩
    rcases laid.apart mem memg with rfl | before | after
    · omega
    · omega
    · omega

theorem Tracked.call {s : MemState} {drift : Nat} {c : MemCall} (tracked : Tracked s drift) (words : c.Words)
    (run : c.run rand s = .ok (r, b', stat')) : Progress ⟨b', stat'⟩ drift (c.TakesWhole s.memBlocks) := by
  cases c with
  | region start stop => exact tracked.region words.2 run
  | amount length addrAlign =>
    obtain ⟨e, found, call⟩ := memAllocAmount_eq_ok run
    obtain ⟨kept, grown⟩ := tracked.region (Word.add_lt e.baseAddr length) call
    rw [← takesWhole_amount_iff tracked.map.laid found call] at kept grown
    exact ⟨kept, grown⟩

theorem memAllocRegion_physAvailMem (run : memAllocRegion rand b stat start stop = .ok (r, b', stat')) :
    stat'.physAvailMem = stat.physAvailMem := by
  rw [memAllocRegion] at run
  obtain ⟨-, run⟩ := bugOn_bind_eq_ok.mp run
  split at run
  · cases run
  · dsimp only at run
    split at run
    · cases run
      rfl
    · obtain ⟨regions, -, run⟩ := bind_eq_ok.mp run
      cases run
      rfl

/-- No call changes what `mem_stat` says is available. -/
theorem MemCall.run_physAvailMem {s : MemState} {c : MemCall} (run : c.run rand s = .ok (r, b', stat')) :
    stat'.physAvailMem = s.physMemStat.physAvailMem := by
  cases c with
  | region start stop => exact memAllocRegion_physAvailMem run
  | amount length addrAlign =>
    obtain ⟨e, -, call⟩ := memAllocAmount_eq_ok run
    exact memAllocRegion_physAvailMem call

end Call

/-! ## Call after call -/

section Run

variable {s s' : MemState} {steps : List (MemMapBlock × MemCall)}

theorem MemRun.physAvailMem (run : MemRun s steps s') : s'.physMemStat.physAvailMem = s.physMemStat.physAvailMem := by
  induction run with
  | nil s => rfl
  | cons words call _ ih => rw [ih, MemCall.run_physAvailMem call]

/-- The drift never goes down, and it stays exactly when no call is for a whole entry. -/
theorem Tracked.run {drift : Nat} (run : MemRun s steps s') (tracked : Tracked s drift) :
    ∃ drift', Tracked s' drift' ∧ drift ≤ drift' ∧ (drift' = drift ↔ ∀ step ∈ steps, ¬ step.2.TakesWhole step.1) := by
  induction run generalizing drift with
  | nil s => exact ⟨drift, tracked, Nat.le_refl _, iff_of_true rfl fun step mem => absurd mem (List.not_mem_nil)⟩
  | @cons s s' c rand r b stat steps words call rest ih =>
    obtain ⟨kept, grown⟩ := tracked.call words call
    rw [List.forall_mem_cons]
    by_cases whole : c.TakesWhole s.memBlocks
    · obtain ⟨more, above, tracked'⟩ := grown whole
      obtain ⟨last, final, least, -⟩ := ih tracked'
      exact ⟨last, final, by omega, iff_of_false (by omega) fun all => all.1 whole⟩
    · obtain ⟨last, final, least, same⟩ := ih (kept whole)
      exact ⟨last, final, least, same.trans (and_iff_right whole).symm⟩

theorem tracksFree_iff : TracksFree s ↔
    s.physMemStat.physAvailMem ≠ 0 ∧ s.physMemStat.physFreeMem = usableLength s.memBlocks.entries := by
  constructor
  · rintro ⟨stat, answer, free⟩
    rw [memStat] at answer
    obtain ⟨avail, answer⟩ := bugOn_bind_eq_ok.mp answer
    cases answer
    exact ⟨avail, free⟩
  · rintro ⟨avail, free⟩
    refine ⟨s.physMemStat, ?_, free⟩
    rw [memStat, bugOn_of_not avail]
    rfl

end Run

/-! ## From `mem_init` on -/

/-- The map the loader has left: there is room for one more entry, the lengths are 64-bit words, and the slots
behind the map are zeroed. -/
structure LoadedMap (b : MemMapBlock) : Prop where
  room : b.numEntries + 1 < 2 ^ 64
  words : ∀ e ∈ b.entries, e.length < 2 ^ 64
  spare : ∀ j, b.numEntries < j → (b.memRegion j).length = 0

/-- Runs of regions with a type have a type. -/
theorem exists_mergeRuns_typed {run : MemMapRegion} {rest : List MemMapRegion} (typed : ∃ e ∈ run :: rest, e.type ≠ 0) :
    ∃ f ∈ mergeRuns run rest, f.type ≠ 0 := by
  induction rest generalizing run with
  | nil =>
    obtain ⟨e, mem, typed⟩ := typed
    cases List.mem_singleton.mp mem
    exact ⟨_, List.mem_singleton_self _, asReserved_type_ne_zero typed⟩
  | cons r rest ih =>
    obtain ⟨e, mem, typed⟩ := typed
    rw [mergeRuns]
    split
    · rename_i taken
      rcases List.mem_cons.mp mem with rfl | behind
      · exact ih ⟨_, List.mem_cons_self .., asReserved_type_ne_zero typed⟩
      rcases List.mem_cons.mp behind with rfl | behind
      · refine ih ⟨_, List.mem_cons_self .., ?_⟩
        rcases mergeable_eq_true.mp taken with ⟨high, -⟩ | ⟨-, same⟩
        · exact Nat.ne_of_gt (Nat.lt_trans Nat.zero_lt_one high)
        · exact same ▸ typed
      · exact ih ⟨e, List.mem_cons_of_mem _ behind, typed⟩
    · rcases List.mem_cons.mp mem with rfl | behind
      · exact ⟨_, List.mem_cons_self .., asReserved_type_ne_zero typed⟩
      · obtain ⟨f, among, typed⟩ := ih ⟨e, behind, typed⟩
        exact ⟨f, List.mem_cons_of_mem _ among, typed⟩

theorem kept_merged {order : List MemMapRegion} (first : firstMb ∈ order) (words : ∀ e ∈ order, e.length < 2 ^ 64) :
    kept (merged order) ≠ [] ∧ ∀ e ∈ kept (merged order), e.length < 2 ^ 64 := by
  cases order with
  | nil => cases first
  | cons run rest =>
    rw [merged]
    refine ⟨?_, fun e mem => mergeRuns_words words e (List.mem_of_mem_filter mem)⟩
    obtain ⟨f, mem, typed⟩ := exists_mergeRuns_typed ⟨firstMb, first, by decide⟩
    refine List.ne_nil_of_mem (List.mem_filter.mpr ⟨mem, ?_⟩)
    simp only [memIsEntryEmpty, typed, decide_false, Bool.and_false, Bool.not_false]

/-- What `mem_init` leaves, in order or not. -/
theorem memInit_leaves {bios b : MemMapBlock} {stat : MemPhysStats} {rand : Nat → Nat} (loaded : LoadedMap bios)
    (init : memInit rand bios = .ok (b, stat)) :
    stat = calcPhysMemoryStats b ∧ b.entries ≠ [] ∧ (∀ e ∈ b.entries, e.length < 2 ^ 64) ∧
      ∀ j, b.numEntries ≤ j → (b.memRegion j).length = 0 := by
  obtain ⟨room, words, spare⟩ := loaded
  obtain ⟨reserved, first, init⟩ := bind_eq_ok.mp init
  obtain ⟨some, rfl⟩ := memReserveFirstMb_eq_ok.mp first
  have count := withFirstMb_numEntries room
  obtain ⟨σ, within, -, sorted⟩ := qsort_returns comparesBy_baseAddr rand (withFirstMb bios).memRegion
    (bios.numEntries + 1)
  have entries := entries_of_sorted room some words (spare _ (Nat.lt_succ_self _)) within
  have perm := map_range_perm (n := bios.numEntries + 1) within (withFirstMb bios).memRegion
  rw [← count, ← MemMapBlock.entries, count] at perm
  simp only [count, sorted, ok_bind, pure_eq_ok] at init
  cases init
  have first : firstMb ∈ (withFirstMb bios).entries :=
    mem_entries.mpr ⟨bios.numEntries, by omega, if_pos rfl⟩
  rw [entries]
  obtain ⟨some, words'⟩ := kept_merged (perm.mem_iff.mpr first) fun e mem => reserve_lengths room words e (perm.mem_iff.mp mem)
  refine ⟨rfl, some, words', fun j beyond => combine_squash_length (fun j beyond => ?_) beyond⟩
  dsimp only at beyond ⊢
  rw [Function.comp_apply, within j (.inr (by omega)), withFirstMb]
  dsimp only
  rw [if_neg (by omega)]
  split
  · rfl
  · exact spare j (by omega)

/-- **`mem_stat` is right about the free memory iff no call has been for a whole entry** and the lengths do not
add up to 2^64. A call for a whole entry leaves the count as it was, and no later call makes up for it. -/
theorem mem_stat_tracks_iff {bios b : MemMapBlock} {stat : MemPhysStats} {rand : Nat → Nat} {s : MemState}
    {steps : List (MemMapBlock × MemCall)} (loaded : LoadedMap bios) (init : memInit rand bios = .ok (b, stat))
    (laid : Laid (2 ^ 64) b.entries) (run : MemRun ⟨b, stat⟩ steps s) :
    TracksFree s ↔ lengthSum b.entries < 2 ^ 64 ∧ ∀ step ∈ steps, ¬ step.2.TakesWhole step.1 := by
  obtain ⟨rfl, some, words, behind⟩ := memInit_leaves loaded init
  have lost := laid.totalLength_eq_zero some
  have avail : s.physMemStat.physAvailMem = totalLength b.entries := by
    rw [run.physAvailMem, calcPhysMemoryStats_eq]
  rw [tracksFree_iff, avail, ne_eq, lost, not_not]
  refine and_congr_right fun small => ?_
  have word : usableLength b.entries < 2 ^ 64 := Nat.lt_of_le_of_lt (usableLength_le _) small
  have free : (calcPhysMemoryStats b).physFreeMem = usableLength b.entries := by
    rw [calcPhysMemoryStats_eq]
    exact Nat.mod_eq_of_lt word
  have tracked : Tracked ⟨b, calcPhysMemoryStats b⟩ 0 :=
    ⟨⟨laid, words, behind⟩, fun zero => lost.mp zero small, free, by rwa [free]⟩
  obtain ⟨drift, final, -, kept⟩ := tracked.run run
  rw [final.free, ← kept]
  omega

/-! ### One call -/

/-- One call after `mem_init`: the entries before it, and the usable memory and the statistics after it. -/
def afterCall (rand : Nat → Nat) (bios : MemMapBlock) (c : MemCall) :
    Outcome (List MemMapRegion × Nat × MemPhysStats) := do
  let (b, stat) ← memInit rand bios
  let (_, b', stat') ← c.run rand ⟨b, stat⟩
  pure (b.entries, usableLength b'.entries, stat')

theorem exists_run_of_afterCall {rand : Nat → Nat} {bios : MemMapBlock} {c : MemCall} {entries : List MemMapRegion}
    {usable : Nat} {stat' : MemPhysStats} (eval : afterCall rand bios c = .ok (entries, usable, stat')) (words : c.Words) :
    ∃ b stat s, memInit rand bios = .ok (b, stat) ∧ MemRun ⟨b, stat⟩ [(b, c)] s ∧ b.entries = entries ∧
      usableLength s.memBlocks.entries = usable ∧ s.physMemStat = stat' := by
  obtain ⟨⟨b, stat⟩, init, eval⟩ := bind_eq_ok.mp eval
  obtain ⟨⟨r, b', stat'⟩, call, eval⟩ := bind_eq_ok.mp eval
  cases eval
  exact ⟨b, stat, ⟨b', stat'⟩, init, .cons words call (.nil _), rfl, rfl, rfl⟩

/-- One usable MiB behind the first. -/
def oneUsable : MemMapBlock where
  numEntries := 1
  memRegion := fun i => if i = 0 then ⟨0x100000, 0x100000, e820MemTypeUsable⟩ else .zero

theorem oneUsable_loaded : LoadedMap oneUsable := by
  refine ⟨by decide, by decide +kernel, fun j behind => ?_⟩
  rw [oneUsable]
  dsimp only
  rw [if_neg (Nat.ne_of_gt (Nat.zero_lt_of_lt behind))]
  rfl

/-- A page of it: the count is right. -/
theorem mem_stat_tracks_page : LoadedMap oneUsable ∧ ∃ b stat s, memInit (fun _ => 0) oneUsable = .ok (b, stat) ∧
    Laid (2 ^ 64) b.entries ∧ MemRun ⟨b, stat⟩ [(b, .amount 0x1000 0x1000)] s ∧ TracksFree s := by
  have eval : afterCall (fun _ => 0) oneUsable (.amount 0x1000 0x1000) =
      .ok ((usableAt 0x100000 0x100000).entries, 0xff000, ⟨0x200000, 0xff000⟩) := by
    decide +kernel
  obtain ⟨b, stat, s, init, run, entries, -, -⟩ := exists_run_of_afterCall eval ⟨by decide, by decide⟩
  have laid : Laid (2 ^ 64) b.entries := by
    rw [entries]
    exact (usableAt_map (by decide) (by decide) (by decide)).laid
  refine ⟨oneUsable_loaded, b, stat, s, init, laid, run, (mem_stat_tracks_iff oneUsable_loaded init laid run).mpr ⟨?_, ?_⟩⟩
  · rw [entries]
    decide
  · rw [List.forall_mem_singleton]
    rintro ⟨e, found, length⟩
    rw [entries] at found
    cases found
    cases length

/-- All of it: the call returns, no usable memory is left, and 1 MiB is still counted as free. -/
theorem mem_stat_misses_whole : LoadedMap oneUsable ∧ ∃ b stat s, memInit (fun _ => 0) oneUsable = .ok (b, stat) ∧
    Laid (2 ^ 64) b.entries ∧ MemRun ⟨b, stat⟩ [(b, .region 0x100000 0x200000)] s ∧
    memStat s.physMemStat = .ok ⟨0x200000, 0x100000⟩ ∧ usableLength s.memBlocks.entries = 0 ∧ ¬ TracksFree s := by
  have eval : afterCall (fun _ => 0) oneUsable (.region 0x100000 0x200000) =
      .ok ((usableAt 0x100000 0x100000).entries, 0, ⟨0x200000, 0x100000⟩) := by
    decide +kernel
  obtain ⟨b, stat, s, init, run, entries, usable, count⟩ := exists_run_of_afterCall eval ⟨by decide, by decide⟩
  refine ⟨oneUsable_loaded, b, stat, s, init, ?_, run, ?_, usable, ?_⟩
  · rw [entries]
    exact (usableAt_map (by decide) (by decide) (by decide)).laid
  · rw [count]
    rfl
  · rw [tracksFree_iff, usable, count]
    rintro ⟨-, free⟩
    cases free

end AlmeidaOS.Kernel
