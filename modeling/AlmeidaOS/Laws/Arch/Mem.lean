import Mathlib.Data.List.Chain
import Mathlib.Data.List.Pairwise
import AlmeidaOS.Kernel.Arch.Mem

/-!
# Merging the memory map

On the list of regions the two in-place passes are one function: `mergeRuns` takes a region into the
run before it while the two are mergeable (`combine_squash_entries`).

A run grows by the length of what it takes in, so it ends where its last region ends only when there
is no hole between them. The usable memory of a sorted map never changes. The reserved memory is
kept exactly when every two neighbouring regions that are not usable touch.
-/

namespace AlmeidaOS.Kernel

/-! ## Slots -/

namespace MemMapBlock

@[simp] theorem set_numEntries (b : MemMapBlock) (i : Nat) (r : MemMapRegion) :
    (b.set i r).numEntries = b.numEntries := rfl

@[simp] theorem set_self (b : MemMapBlock) (i : Nat) (r : MemMapRegion) :
    (b.set i r).memRegion i = r := if_pos rfl

theorem set_of_ne (b : MemMapBlock) {i j : Nat} (r : MemMapRegion) (h : j ≠ i) :
    (b.set i r).memRegion j = b.memRegion j := if_neg h

/-- The `k` regions from slot `i` on. -/
def slice (b : MemMapBlock) (i k : Nat) : List MemMapRegion := (List.range' i k).map b.memRegion

@[simp] theorem slice_zero (b : MemMapBlock) (i : Nat) : b.slice i 0 = [] := rfl

theorem slice_succ (b : MemMapBlock) (i k : Nat) :
    b.slice i (k + 1) = b.memRegion i :: b.slice (i + 1) k := by
  simp only [slice, List.range'_succ, List.map_cons]

theorem slice_add (b : MemMapBlock) (i k l : Nat) :
    b.slice i (k + l) = b.slice i k ++ b.slice (i + k) l := by
  simp only [slice, ← List.map_append, List.range'_append_1]

theorem entries_eq_slice (b : MemMapBlock) : b.entries = b.slice 0 b.numEntries := by
  rw [entries, slice, List.range_eq_range']

theorem entries_eq_cons {b : MemMapBlock} (some : 0 < b.numEntries) :
    b.entries = b.memRegion 0 :: b.slice 1 (b.numEntries - 1) := by
  rw [← slice_succ, entries_eq_slice, Nat.sub_add_cancel some]

theorem mem_slice {b : MemMapBlock} {i k : Nat} {r : MemMapRegion} :
    r ∈ b.slice i k ↔ ∃ j, i ≤ j ∧ j < i + k ∧ b.memRegion j = r := by
  simp only [slice, List.mem_map, List.mem_range'_1, and_assoc]

theorem slice_congr {b b' : MemMapBlock} {i k : Nat}
    (same : ∀ j, i ≤ j → j < i + k → b'.memRegion j = b.memRegion j) : b'.slice i k = b.slice i k := by
  apply List.map_congr_left
  intro j mem
  obtain ⟨low, high⟩ := List.mem_range'_1.mp mem
  exact same j low high

end MemMapBlock

open MemMapBlock

/-- The regions that are not empty. -/
def kept (regions : List MemMapRegion) : List MemMapRegion :=
  regions.filter fun r => !memIsEntryEmpty r

theorem kept_append (l l' : List MemMapRegion) : kept (l ++ l') = kept l ++ kept l' :=
  List.filter_append ..

theorem kept_cons (r : MemMapRegion) (l : List MemMapRegion) : kept (r :: l) = kept [r] ++ kept l :=
  kept_append [r] l

theorem kept_of_empty {l : List MemMapRegion} (empty : ∀ r ∈ l, memIsEntryEmpty r = true) : kept l = [] := by
  rw [kept, List.filter_eq_nil_iff]
  intro r mem
  simp only [empty r mem, Bool.not_true, Bool.false_eq_true, not_false_eq_true]

theorem kept_of_nonempty {l : List MemMapRegion} (full : ∀ r ∈ l, memIsEntryEmpty r = false) : kept l = l := by
  rw [kept, List.filter_eq_self]
  intro r mem
  rw [full r mem, Bool.not_false]

theorem kept_of_pos {l : List MemMapRegion} (pos : ∀ r ∈ l, 0 < r.length) : kept l = l := by
  refine kept_of_nonempty fun r mem => ?_
  have := pos r mem
  simp only [memIsEntryEmpty, Nat.ne_of_gt this, decide_false, Bool.false_and]

/-! ## `combine_mergeable_regions` on lists -/

/-- A run and the regions behind it: the next region is taken in or begins the next run. -/
def mergeRuns : MemMapRegion → List MemMapRegion → List MemMapRegion
  | run, [] => [asReserved run]
  | run, r :: rest =>
    if mergeable (asReserved run) r then mergeRuns (combined (asReserved run) r) rest
    else asReserved run :: mergeRuns r rest

@[simp] theorem asReserved_length (r : MemMapRegion) : (asReserved r).length = r.length := by
  unfold asReserved
  split <;> rfl

@[simp] theorem asReserved_baseAddr (r : MemMapRegion) : (asReserved r).baseAddr = r.baseAddr := by
  unfold asReserved
  split <;> rfl

/-- A slot without length, such as the zeroed one behind the last region, adds nothing. -/
theorem combined_zero {r spare : MemMapRegion} (word : r.length < 2 ^ 64) (empty : spare.length = 0) :
    combined r spare = r := by
  simp only [combined, empty, Word.add, Nat.add_zero, Nat.mod_eq_of_lt word]

/-- One pass either takes the next region into the run or makes it the run; the other slots stay. -/
theorem combineLoop_step (k : Nat) (b : MemMapBlock) {ptr1 ptr2 : Nat} (order : ptr1 < ptr2) :
    ∃ b', (∀ j, j ≠ ptr1 → j ≠ ptr2 → b'.memRegion j = b.memRegion j) ∧
      if mergeable (asReserved (b.memRegion ptr1)) (b.memRegion ptr2) then
        combineLoop (k + 1) b ptr1 ptr2 = combineLoop k b' ptr1 (ptr2 + 1) ∧
        b'.memRegion ptr1 = combined (asReserved (b.memRegion ptr1)) (b.memRegion ptr2) ∧
        b'.memRegion ptr2 = .zero
      else combineLoop (k + 1) b ptr1 ptr2 = combineLoop k b' ptr2 (ptr2 + 1) ∧
        b'.memRegion ptr1 = asReserved (b.memRegion ptr1) ∧ b'.memRegion ptr2 = b.memRegion ptr2 := by
  have other : ptr2 ≠ ptr1 := by omega
  simp only [combineLoop, set_self, set_of_ne _ _ other]
  split
  · refine ⟨_, fun j ne ne' => ?_, rfl, ?_, set_self ..⟩
    · rw [set_of_ne _ _ ne', set_of_ne _ _ ne, set_of_ne _ _ ne]
    · rw [set_of_ne _ _ other.symm, set_self]
  · exact ⟨_, fun j ne _ => set_of_ne _ _ ne, rfl, set_self .., set_of_ne _ _ other⟩

theorem combineLoop_numEntries (k : Nat) (b : MemMapBlock) (ptr1 ptr2 : Nat) :
    (combineLoop k b ptr1 ptr2).numEntries = b.numEntries := by
  induction k generalizing b ptr1 ptr2 with
  | zero => rfl
  | succ k ih =>
    rw [combineLoop]
    split
    · rw [ih]
      rfl
    · rw [ih]
      rfl

/-- The slots from `n` on are left alone or zeroed, where the last pass has `ptr2 = n`. -/
theorem combineLoop_behind {n : Nat} (k : Nat) (b : MemMapBlock) {ptr1 ptr2 : Nat} (order : ptr1 < ptr2)
    (inside : k = 0 ∨ ptr1 < n) (count : ptr2 + k = n + 1) {j : Nat} (behind : n ≤ j) :
    (combineLoop k b ptr1 ptr2).memRegion j = b.memRegion j ∨ (combineLoop k b ptr1 ptr2).memRegion j = .zero := by
  induction k generalizing b ptr1 ptr2 with
  | zero => exact .inl rfl
  | succ k ih =>
    obtain ⟨b', same, pass⟩ := combineLoop_step k b order
    have ends : j ≠ ptr2 → b'.memRegion j = b.memRegion j := same j (by omega)
    split at pass
    · obtain ⟨loop, -, gone⟩ := pass
      rw [loop]
      by_cases next : j = ptr2
      · rw [← next] at gone
        rcases ih b' (show ptr1 < ptr2 + 1 by omega) (by omega) (by omega) with left | zero
        · exact .inr (left.trans gone)
        · exact .inr zero
      · rw [← ends next]
        exact ih b' (by omega) (by omega) (by omega)
    · obtain ⟨loop, -, kept⟩ := pass
      have slot : b'.memRegion j = b.memRegion j := by
        by_cases next : j = ptr2
        · rw [next, kept]
        · exact ends next
      rw [loop, ← slot]
      exact ih b' (by omega) (by omega) (by omega)

theorem combineMergeableRegions_numEntries (b : MemMapBlock) :
    (combineMergeableRegions b).numEntries = b.numEntries := by
  rw [combineMergeableRegions]
  split
  · rfl
  · exact combineLoop_numEntries ..

theorem combineMergeableRegions_behind {b : MemMapBlock} {j : Nat} (behind : b.numEntries ≤ j) :
    (combineMergeableRegions b).memRegion j = b.memRegion j ∨ (combineMergeableRegions b).memRegion j = .zero := by
  rw [combineMergeableRegions]
  split
  · exact .inl rfl
  · exact combineLoop_behind (n := b.numEntries) _ b Nat.zero_lt_one (by omega) (by omega) behind

/-- A run and the empty slots behind it. -/
theorem kept_run {b : MemMapBlock} {ptr1 ptr2 : Nat} (order : ptr1 < ptr2)
    (between : ∀ j, ptr1 < j → j < ptr2 → memIsEntryEmpty (b.memRegion j) = true) :
    kept (b.slice ptr1 (ptr2 - ptr1)) = kept [b.memRegion ptr1] := by
  obtain ⟨gap, rfl⟩ : ∃ gap, ptr2 = ptr1 + 1 + gap := ⟨ptr2 - (ptr1 + 1), by omega⟩
  have empty : kept (b.slice (ptr1 + 1) gap) = [] := by
    refine kept_of_empty fun r mem => ?_
    obtain ⟨j, low, high, rfl⟩ := mem_slice.mp mem
    exact between j (by omega) (by omega)
  rw [show ptr1 + 1 + gap - ptr1 = gap + 1 by omega, slice_succ, kept_cons, empty, List.append_nil]

/-- The loop leaves the slots before its run alone, and from there on the regions that are not empty
are the runs. The slots between the two indices are empty and the one behind the last region has no
length. -/
theorem combineLoop_kept (k : Nat) (b : MemMapBlock) {ptr1 ptr2 : Nat} (order : ptr1 < ptr2)
    (word : (b.memRegion ptr1).length < 2 ^ 64)
    (words : ∀ j, ptr2 ≤ j → j < ptr2 + k → (b.memRegion j).length < 2 ^ 64)
    (between : ∀ j, ptr1 < j → j < ptr2 → memIsEntryEmpty (b.memRegion j) = true)
    (spare : (b.memRegion (ptr2 + k)).length = 0) :
    (∀ j, j < ptr1 → (combineLoop (k + 1) b ptr1 ptr2).memRegion j = b.memRegion j) ∧
      kept ((combineLoop (k + 1) b ptr1 ptr2).slice ptr1 (ptr2 - ptr1 + k)) =
        kept (mergeRuns (b.memRegion ptr1) (b.slice ptr2 k)) := by
  induction k generalizing b ptr1 ptr2 with
  | zero =>
    obtain ⟨b', same, pass⟩ := combineLoop_step 0 b order
    -- the last pass compares the last run with the spare slot
    obtain ⟨loop, run⟩ : combineLoop (0 + 1) b ptr1 ptr2 = b' ∧
        b'.memRegion ptr1 = asReserved (b.memRegion ptr1) := by
      split at pass
      · obtain ⟨loop, run, -⟩ := pass
        rw [Nat.add_zero] at spare
        rw [combined_zero (by rwa [asReserved_length]) spare] at run
        exact ⟨loop, run⟩
      · exact ⟨pass.1, pass.2.1⟩
    rw [loop, Nat.add_zero, slice_zero, mergeRuns, ← run]
    refine ⟨fun j below => same j (by omega) (by omega), kept_run order fun j low high => ?_⟩
    rw [same j (by omega) (by omega)]
    exact between j low high
  | succ k ih =>
    obtain ⟨b', same, pass⟩ := combineLoop_step (k + 1) b order
    have rest : b'.slice (ptr2 + 1) k = b.slice (ptr2 + 1) k :=
      slice_congr fun j low _ => same j (by omega) (by omega)
    have words' : ∀ j, ptr2 + 1 ≤ j → j < ptr2 + 1 + k → (b'.memRegion j).length < 2 ^ 64 := by
      intro j low high
      rw [same j (by omega) (by omega)]
      exact words j (by omega) (by omega)
    have spare' : (b'.memRegion (ptr2 + 1 + k)).length = 0 := by
      rw [same _ (by omega) (by omega), show ptr2 + 1 + k = ptr2 + (k + 1) by omega, spare]
    rw [slice_succ, mergeRuns]
    split at pass
    · obtain ⟨loop, run, gone⟩ := pass
      rename_i taken
      have between' : ∀ j, ptr1 < j → j < ptr2 + 1 → memIsEntryEmpty (b'.memRegion j) = true := by
        intro j low high
        by_cases here : j = ptr2
        · rw [here, gone]
          rfl
        · rw [same j (by omega) here]
          exact between j low (by omega)
      obtain ⟨before, runs⟩ := ih b' (by omega) (by rw [run]; exact Word.add_lt _ _) words' between' spare'
      rw [loop, if_pos taken]
      refine ⟨fun j below => ?_, ?_⟩
      · rw [before j below, same j (by omega) (by omega)]
      · rw [show ptr2 - ptr1 + (k + 1) = ptr2 + 1 - ptr1 + k by omega, runs, run, rest]
    · obtain ⟨loop, run, next⟩ := pass
      rename_i ends
      obtain ⟨before, runs⟩ := ih b' (show ptr2 < ptr2 + 1 by omega)
        (by rw [next]; exact words ptr2 (by omega) (by omega)) words'
        (fun j low high => absurd high (by omega)) spare'
      rw [Nat.add_sub_cancel_left, Nat.add_comm 1 k] at runs
      rw [loop, if_neg ends, kept_cons, ← rest, ← next, ← run]
      refine ⟨fun j below => ?_, ?_⟩
      · rw [before j (by omega), same j (by omega) (by omega)]
      · rw [slice_add, kept_append, show ptr1 + (ptr2 - ptr1) = ptr2 by omega, runs,
          slice_congr fun j _ high => before j (by omega), kept_run order fun j low high => ?_]
        rw [same j (by omega) (by omega)]
        exact between j low high

/-- The regions that are not empty after `combine_mergeable_regions`. -/
theorem combineMergeableRegions_kept {b : MemMapBlock} (two : 2 ≤ b.numEntries)
    (words : ∀ e ∈ b.entries, e.length < 2 ^ 64) (spare : (b.memRegion b.numEntries).length = 0) :
    kept (combineMergeableRegions b).entries =
      kept (mergeRuns (b.memRegion 0) (b.slice 1 (b.numEntries - 1))) := by
  obtain ⟨k, count⟩ : ∃ k, b.numEntries = k + 1 := ⟨b.numEntries - 1, by omega⟩
  have word : ∀ j, j < k + 1 → (b.memRegion j).length < 2 ^ 64 := fun j below =>
    words _ (mem_entries.mpr ⟨j, by omega, rfl⟩)
  rw [count, Nat.add_comm] at spare
  obtain ⟨-, runs⟩ := combineLoop_kept k b Nat.zero_lt_one (word 0 (by omega))
    (fun j _ high => word j (by omega)) (fun j low high => absurd high (by omega)) spare
  rw [entries_eq_slice, combineMergeableRegions_numEntries, combineMergeableRegions, if_neg (by omega), count,
    Nat.add_sub_cancel, ← runs, Nat.sub_zero, Nat.add_comm 1 k]

/-! ## `squash_mem_regions` is a compaction -/

/-- The slots from `ptr1` on: first the regions that are not empty, then empty slots only. -/
def Compact (b : MemMapBlock) (ptr1 : Nat) : Prop :=
  ∃ m, ptr1 ≤ m ∧ m ≤ b.numEntries ∧
    (∀ j, ptr1 ≤ j → j < m → memIsEntryEmpty (b.memRegion j) = false) ∧
    ∀ j, m ≤ j → j < b.numEntries → memIsEntryEmpty (b.memRegion j) = true

/-- One more region in front. -/
theorem Compact.cons {b : MemMapBlock} {ptr1 : Nat} (compact : Compact b (ptr1 + 1))
    (full : memIsEntryEmpty (b.memRegion ptr1) = false) : Compact b ptr1 := by
  obtain ⟨m, low, high, fulls, empties⟩ := compact
  refine ⟨m, by omega, high, fun j from_ below => ?_, empties⟩
  by_cases here : j = ptr1
  · rw [here, full]
  · exact fulls j (by omega) below

/-- What the outer loop makes of the slots from `ptr1` on. -/
structure Squashed (b b' : MemMapBlock) (ptr1 : Nat) : Prop where
  numEntries : b'.numEntries = b.numEntries
  before : ∀ j, j < ptr1 → b'.memRegion j = b.memRegion j
  regions : kept (b'.slice ptr1 (b.numEntries - ptr1)) = kept (b.slice ptr1 (b.numEntries - ptr1))
  compact : Compact b' ptr1

/-- The slot at `ptr1` is filled, and the loop goes on behind it. -/
theorem Squashed.cons {b b₁ b' : MemMapBlock} {ptr1 : Nat} (squashed : Squashed b₁ b' (ptr1 + 1))
    (inside : ptr1 < b.numEntries) (numEntries : b₁.numEntries = b.numEntries)
    (before : ∀ j, j < ptr1 → b₁.memRegion j = b.memRegion j)
    (full : memIsEntryEmpty (b₁.memRegion ptr1) = false)
    (regions : kept (b₁.slice ptr1 (b.numEntries - ptr1)) = kept (b.slice ptr1 (b.numEntries - ptr1))) :
    Squashed b b' ptr1 := by
  have slot := squashed.before ptr1 (Nat.lt_succ_self ptr1)
  refine ⟨squashed.numEntries.trans numEntries, fun j below => ?_, ?_, squashed.compact.cons (by rw [slot, full])⟩
  · rw [squashed.before j (by omega), before j below]
  · have rest := squashed.regions
    rw [numEntries] at rest
    rw [← regions, show b.numEntries - ptr1 = b.numEntries - (ptr1 + 1) + 1 by omega, slice_succ, slice_succ,
      kept_cons, rest, slot, ← kept_cons]

/-- Nothing behind the slot is left to move. -/
theorem Squashed.refl {b : MemMapBlock} {ptr1 : Nat} (compact : Compact b ptr1) : Squashed b b ptr1 :=
  ⟨rfl, fun _ _ => rfl, rfl, compact⟩

/-- Moving the next region up into an empty slot keeps the regions and their order. -/
theorem kept_move {b : MemMapBlock} {ptr1 next k : Nat} (order : ptr1 < next) (inside : next < ptr1 + k)
    (empties : ∀ j, ptr1 ≤ j → j < next → memIsEntryEmpty (b.memRegion j) = true) :
    kept (((b.set ptr1 (b.memRegion next)).set next .zero).slice ptr1 k) = kept (b.slice ptr1 k) := by
  have moved : ∀ j, j ≠ ptr1 → j ≠ next →
      ((b.set ptr1 (b.memRegion next)).set next .zero).memRegion j = b.memRegion j := by
    intro j ne ne'
    rw [set_of_ne _ _ ne', set_of_ne _ _ ne]
  have before : kept (b.slice ptr1 (next - ptr1)) = [] := by
    refine kept_of_empty fun r mem => ?_
    obtain ⟨j, low, high, rfl⟩ := mem_slice.mp mem
    exact empties j low (by omega)
  have front : kept (((b.set ptr1 (b.memRegion next)).set next .zero).slice ptr1 (next + 1 - ptr1)) =
      kept (b.slice ptr1 (next + 1 - ptr1)) := by
    rw [kept_run (by omega) fun j low high => ?_]
    · rw [set_of_ne _ _ (show ptr1 ≠ next by omega), set_self, show next + 1 - ptr1 = next - ptr1 + 1 by omega,
        slice_add, kept_append, before, show ptr1 + (next - ptr1) = next by omega]
      rfl
    · by_cases here : j = next
      · rw [here, set_self]
        rfl
      · rw [moved j (by omega) here]
        exact empties j (by omega) (by omega)
  have back : ((b.set ptr1 (b.memRegion next)).set next .zero).slice (ptr1 + (next + 1 - ptr1))
      (ptr1 + k - (next + 1)) = b.slice (ptr1 + (next + 1 - ptr1)) (ptr1 + k - (next + 1)) :=
    slice_congr fun j low _ => moved j (by omega) (by omega)
  rw [show k = next + 1 - ptr1 + (ptr1 + k - (next + 1)) by omega, slice_add, slice_add, kept_append,
    kept_append, front, back]

theorem squashLoop_squashed (k : Nat) (b : MemMapBlock) {ptr1 : Nat} (count : b.numEntries = ptr1 + k + 1) :
    Squashed b (squashLoop k b ptr1) ptr1 := by
  induction k generalizing b ptr1 with
  | zero =>
    -- the last slot is compact whatever it holds
    refine .refl ?_
    by_cases empty : memIsEntryEmpty (b.memRegion ptr1)
    · refine ⟨ptr1, Nat.le_refl _, by omega, fun j low high => by omega, fun j low high => ?_⟩
      rwa [show j = ptr1 by omega]
    · refine ⟨ptr1 + 1, by omega, by omega, fun j low high => ?_, fun j low high => by omega⟩
      rw [show j = ptr1 by omega]
      exact Bool.eq_false_iff.mpr empty
  | succ k ih =>
    rw [squashLoop]
    split
    · rename_i empty
      split
      · rename_i found
        rw [nextEntry, List.find?_range'_eq_none] at found
        refine .refl ⟨ptr1, Nat.le_refl _, by omega, fun j low high => by omega, fun j low high => ?_⟩
        by_cases here : j = ptr1
        · rwa [here]
        · simpa only [Bool.not_not] using found j (by omega) (by omega)
      · rename_i next found
        rw [nextEntry, List.find?_range'_eq_some] at found
        obtain ⟨full, inside, empties⟩ := found
        obtain ⟨low, high⟩ := List.mem_range'_1.mp inside
        refine (ih _ (by rw [set_numEntries, set_numEntries]; omega)).cons (by omega) rfl (fun j below => ?_) ?_
          (kept_move (by omega) (by omega) fun j from_ below => ?_)
        · rw [set_of_ne _ _ (by omega), set_of_ne _ _ (by omega)]
        · rw [set_of_ne _ _ (by omega), set_self]
          simpa only [Bool.not_eq_true'] using full
        · by_cases here : j = ptr1
          · rwa [here]
          · simpa only [Bool.not_not] using empties j (by omega) below
    · rename_i full
      exact (ih b (by omega)).cons (by omega) rfl (fun _ _ => rfl) (Bool.eq_false_iff.mpr full) rfl

/-- The count of a compact block becomes the number of its regions. -/
theorem Compact.adjustNumEntries {b : MemMapBlock} (compact : Compact b 0) :
    (adjustNumEntries b).entries = kept b.entries := by
  obtain ⟨m, -, high, fulls, empties⟩ := compact
  have front : kept (b.slice 0 m) = b.slice 0 m := by
    refine kept_of_nonempty fun r mem => ?_
    obtain ⟨j, low, below, rfl⟩ := mem_slice.mp mem
    exact fulls j low (by omega)
  have back : kept (b.slice (0 + m) (b.numEntries - m)) = [] := by
    refine kept_of_empty fun r mem => ?_
    obtain ⟨j, low, below, rfl⟩ := mem_slice.mp mem
    exact empties j (by omega) (by omega)
  have all : kept b.entries = b.slice 0 m := by
    rw [entries_eq_slice, show b.numEntries = m + (b.numEntries - m) by omega, slice_add, kept_append, front,
      back, List.append_nil]
  rw [all, Kernel.adjustNumEntries]
  split
  · rename_i found
    rw [List.find?_range_eq_none] at found
    rw [entries_eq_slice]
    rcases Nat.lt_or_ge m b.numEntries with inside | full
    · have := found m inside
      rw [empties m (Nat.le_refl m) inside] at this
      cases this
    · rw [show b.numEntries = m by omega]
  · rename_i i found
    obtain ⟨empty, inside, before⟩ := List.find?_range_eq_some.mp found
    rw [entries_eq_slice]
    rw [List.mem_range] at inside
    obtain rfl : i = m := by
      apply Nat.le_antisymm
      · by_contra beyond
        have := before m (by omega)
        rw [empties m (Nat.le_refl m) (by omega)] at this
        cases this
      · by_contra below
        have := fulls i (Nat.zero_le i) (by omega)
        rw [empty] at this
        cases this
    rfl

theorem adjustNumEntries_memRegion (b : MemMapBlock) : (adjustNumEntries b).memRegion = b.memRegion := by
  rw [adjustNumEntries]
  split <;> rfl

/-- The slots that a compact block gives up are empty. -/
theorem Compact.behind {b : MemMapBlock} (compact : Compact b 0) {j : Nat}
    (behind : (Kernel.adjustNumEntries b).numEntries ≤ j) (inside : j < b.numEntries) :
    memIsEntryEmpty (b.memRegion j) = true := by
  obtain ⟨m, -, -, fulls, empties⟩ := compact
  rw [Kernel.adjustNumEntries] at behind
  split at behind
  · omega
  · rename_i i found
    obtain ⟨empty, -, -⟩ := List.find?_range_eq_some.mp found
    refine empties j ?_ inside
    by_contra low
    have := fulls i (Nat.zero_le i) (Nat.lt_of_le_of_lt behind (by omega))
    rw [empty] at this
    cases this

/-- What a block keeps when a region is moved up and its slot zeroed, it keeps through the outer loop. -/
theorem squashLoop_keeps {P : MemMapBlock → Prop} {n : Nat}
    (moves : ∀ b i next, i < n → next < n → P b → P ((b.set i (b.memRegion next)).set next .zero))
    (k : Nat) (b : MemMapBlock) (ptr1 : Nat) (entries : b.numEntries = n) (count : ptr1 + k ≤ n) (start : P b) :
    P (squashLoop k b ptr1) := by
  induction k generalizing b ptr1 with
  | zero => exact start
  | succ k ih =>
    rw [squashLoop]
    split
    · split
      · exact start
      · rename_i next found
        rw [nextEntry, List.find?_range'_eq_some] at found
        obtain ⟨-, inside, -⟩ := found
        obtain ⟨low, high⟩ := List.mem_range'_1.mp inside
        exact ih _ _ entries (by omega) (moves b ptr1 next (by omega) (by omega) start)
    · exact ih b _ entries (by omega) start

/-- `squash_mem_regions` keeps the regions that are not empty, in order. -/
theorem squashMemRegions_entries {b : MemMapBlock} (two : 2 ≤ b.numEntries) :
    (squashMemRegions b).entries = kept b.entries := by
  have squashed : Squashed b (squashLoop (b.numEntries - 1) b 0) 0 := squashLoop_squashed _ b (by omega)
  rw [squashMemRegions, if_neg (by omega), squashed.compact.adjustNumEntries, entries_eq_slice,
    squashed.numEntries]
  exact squashed.regions.trans (by rw [entries_eq_slice, Nat.sub_zero])

/-- The slots it gives up are empty. -/
theorem squashMemRegions_vacated {b : MemMapBlock} (two : 2 ≤ b.numEntries) {j : Nat}
    (behind : (squashMemRegions b).numEntries ≤ j) (inside : j < b.numEntries) :
    memIsEntryEmpty ((squashMemRegions b).memRegion j) = true := by
  have squashed : Squashed b (squashLoop (b.numEntries - 1) b 0) 0 := squashLoop_squashed _ b (by omega)
  rw [squashMemRegions, if_neg (by omega)] at behind ⊢
  rw [adjustNumEntries_memRegion]
  exact squashed.compact.behind behind (by rwa [squashed.numEntries])

/-- The slots behind the entries stay. -/
theorem squashMemRegions_behind {b : MemMapBlock} {j : Nat} (behind : b.numEntries ≤ j) :
    (squashMemRegions b).memRegion j = b.memRegion j := by
  rw [squashMemRegions]
  split
  · rfl
  · rw [adjustNumEntries_memRegion]
    refine squashLoop_keeps (P := fun c => c.memRegion j = b.memRegion j) (fun c i next inside inside' same => ?_)
      (b.numEntries - 1) b 0 rfl (by omega) rfl
    rw [set_of_ne _ _ (by omega), set_of_ne _ _ (by omega), same]

/-- Where every empty slot is zeroed, moving a region up leaves it so. -/
theorem zeroed_move {n : Nat} {b : MemMapBlock} {i next : Nat} (inside : next < n)
    (zeroed : ∀ j, j < n → memIsEntryEmpty (b.memRegion j) = true → b.memRegion j = .zero) :
    ∀ j, j < n → memIsEntryEmpty (((b.set i (b.memRegion next)).set next .zero).memRegion j) = true →
      ((b.set i (b.memRegion next)).set next .zero).memRegion j = .zero := by
  intro j below empty
  by_cases here : j = next
  · rw [here, set_self]
  · rw [set_of_ne _ _ here] at empty ⊢
    by_cases there : j = i
    · rw [there, set_self] at empty ⊢
      exact zeroed next inside empty
    · rw [set_of_ne _ _ there] at empty ⊢
      exact zeroed j below empty

/-- **`squash_mem_regions` is a stable compaction**: the entries are those that were not empty, in their
order, the count is their number, and the slots it gives up are zeroed where the empty ones were. -/
theorem squash_mem_regions_compacts {b : MemMapBlock} (two : 2 ≤ b.numEntries) :
    (squashMemRegions b).entries = b.entries.filter (fun r => !memIsEntryEmpty r) ∧
    (squashMemRegions b).numEntries = (b.entries.filter fun r => !memIsEntryEmpty r).length ∧
    ((∀ r ∈ b.entries, memIsEntryEmpty r = true → r = .zero) →
      ∀ j, (squashMemRegions b).numEntries ≤ j → j < b.numEntries → (squashMemRegions b).memRegion j = .zero) := by
  have entries : (squashMemRegions b).entries = b.entries.filter fun r => !memIsEntryEmpty r :=
    squashMemRegions_entries two
  refine ⟨entries, ?_, fun zeroed j behind inside => ?_⟩
  · rw [← entries, MemMapBlock.entries, List.length_map, List.length_range]
  · have empty := squashMemRegions_vacated two behind inside
    have loop := squashLoop_keeps
      (P := fun c => ∀ i, i < b.numEntries → memIsEntryEmpty (c.memRegion i) = true → c.memRegion i = .zero)
      (fun _ _ _ _ inside => zeroed_move inside) (b.numEntries - 1) b 0 rfl (by omega)
      (fun i below => zeroed _ (mem_entries.mpr ⟨i, below, rfl⟩))
    rw [squashMemRegions, if_neg (by omega), adjustNumEntries_memRegion] at empty ⊢
    exact loop j inside empty

/-- Two vacated slots before a region. -/
def behindGap : MemMapBlock where
  numEntries := 3
  memRegion := fun i => if i = 2 then ⟨0x1000, 0x1000, e820MemTypeUsable⟩ else .zero

theorem squash_mem_regions_compacts_gap :
    (squashMemRegions behindGap).entries = [⟨0x1000, 0x1000, e820MemTypeUsable⟩] ∧
    (squashMemRegions behindGap).memRegion 2 = .zero := by
  obtain ⟨entries, count, behind⟩ := squash_mem_regions_compacts (b := behindGap) (by decide)
  refine ⟨entries.trans (by decide), behind (by decide) 2 ?_ (by decide)⟩
  rw [count]
  decide

/-- The two passes together. -/
theorem combine_squash_entries {b : MemMapBlock} (two : 2 ≤ b.numEntries)
    (words : ∀ e ∈ b.entries, e.length < 2 ^ 64) (spare : (b.memRegion b.numEntries).length = 0) :
    (squashMemRegions (combineMergeableRegions b)).entries =
      kept (mergeRuns (b.memRegion 0) (b.slice 1 (b.numEntries - 1))) := by
  have count := combineMergeableRegions_numEntries b
  rw [squashMemRegions_entries (by omega), combineMergeableRegions_kept two words spare]

/-! ## Merging a sorted map -/

/-- Memory regions in order, not empty, none overlapping the next, none reaching beyond `top`. -/
structure Laid (top : Nat) (regions : List MemMapRegion) : Prop where
  nonempty : ∀ e ∈ regions, 0 < e.length
  bounded : ∀ e ∈ regions, e.baseAddr + e.length ≤ top
  sorted : regions.Pairwise fun e f => e.baseAddr + e.length ≤ f.baseAddr

/-- Any two regions are the same or apart. -/
theorem Laid.apart {top : Nat} {regions : List MemMapRegion} (laid : Laid top regions) {e f : MemMapRegion}
    (mem : e ∈ regions) (memf : f ∈ regions) :
    e = f ∨ e.baseAddr + e.length ≤ f.baseAddr ∨ f.baseAddr + f.length ≤ e.baseAddr := by
  let Apart : MemMapRegion → MemMapRegion → Prop := fun e f =>
    e = f ∨ e.baseAddr + e.length ≤ f.baseAddr ∨ f.baseAddr + f.length ≤ e.baseAddr
  have : Std.Symm Apart := ⟨fun e f apart => apart.imp Eq.symm Or.symm⟩
  have all : regions.Pairwise Apart := laid.sorted.imp fun order => .inr (.inl order)
  exact all.forall_of_forall (fun _ _ => .inl rfl) mem memf

theorem laid_cons {top : Nat} {r : MemMapRegion} {rest : List MemMapRegion} :
    Laid top (r :: rest) ↔ 0 < r.length ∧ r.baseAddr + r.length ≤ top ∧
      (∀ f ∈ rest, r.baseAddr + r.length ≤ f.baseAddr) ∧ Laid top rest := by
  constructor
  · rintro ⟨nonempty, bounded, sorted⟩
    rw [List.forall_mem_cons] at nonempty bounded
    rw [List.pairwise_cons] at sorted
    exact ⟨nonempty.1, bounded.1, sorted.1, nonempty.2, bounded.2, sorted.2⟩
  · rintro ⟨pos, fits, before, nonempty, bounded, sorted⟩
    exact ⟨List.forall_mem_cons.mpr ⟨pos, nonempty⟩, List.forall_mem_cons.mpr ⟨fits, bounded⟩,
      List.pairwise_cons.mpr ⟨before, sorted⟩⟩

theorem laid_append {top : Nat} {l l' : List MemMapRegion} : Laid top (l ++ l') ↔
    Laid top l ∧ Laid top l' ∧ ∀ e ∈ l, ∀ f ∈ l', e.baseAddr + e.length ≤ f.baseAddr := by
  constructor
  · rintro ⟨nonempty, bounded, sorted⟩
    obtain ⟨left, right, across⟩ := List.pairwise_append.mp sorted
    rw [List.forall_mem_append] at nonempty bounded
    exact ⟨⟨nonempty.1, bounded.1, left⟩, ⟨nonempty.2, bounded.2, right⟩, across⟩
  · rintro ⟨left, right, across⟩
    exact ⟨List.forall_mem_append.mpr ⟨left.nonempty, right.nonempty⟩,
      List.forall_mem_append.mpr ⟨left.bounded, right.bounded⟩,
      List.pairwise_append.mpr ⟨left.sorted, right.sorted, across⟩⟩

/-- Regions in order whose ends are all addressable. -/
abbrev SortedRegions (regions : List MemMapRegion) : Prop := Laid (2 ^ 64 - 1) regions

section Runs

variable {top : Nat} {run r : MemMapRegion} {rest : List MemMapRegion}

theorem asReserved_reserved (high : run.type > e820MemTypeUsable) :
    (asReserved run).type = e820MemTypeReserved := by
  rw [asReserved, if_pos high]

theorem asReserved_of_low (low : ¬ run.type > e820MemTypeUsable) : asReserved run = run := if_neg low

theorem asReserved_type_high : (asReserved run).type > e820MemTypeUsable ↔ run.type > e820MemTypeUsable := by
  by_cases high : run.type > e820MemTypeUsable
  · rw [asReserved_reserved high]
    exact iff_of_true (by decide) high
  · rw [asReserved_of_low high]

theorem asReserved_type_usable : (asReserved run).type = e820MemTypeUsable ↔ run.type = e820MemTypeUsable := by
  by_cases high : run.type > e820MemTypeUsable
  · rw [asReserved_reserved high]
    exact ⟨fun same => absurd same (by decide), fun same => absurd high (by rw [same]; decide)⟩
  · rw [asReserved_of_low high]

theorem mergeable_eq_true : mergeable run r = true ↔
    (run.type > e820MemTypeUsable ∧ r.type > e820MemTypeUsable) ∨
      (r.baseAddr ≤ Word.add run.baseAddr run.length ∧ run.type = r.type) := by
  rw [mergeable]
  split
  · rename_i touch
    by_cases same : run.type = r.type
    · simp only [if_pos same, true_iff]
      exact .inr ⟨touch, same⟩
    · simp only [same, if_false, Bool.and_eq_true, decide_eq_true_eq, and_false, or_false]
  · rename_i hole
    simp only [Bool.and_eq_true, decide_eq_true_eq]
    exact ⟨.inl, fun h => h.resolve_right fun touch => hole touch.1⟩

/-- A run of a sorted map takes the next region in when both are reserved, or when they touch and
have one type. The end of the run is below the next region's, so it does not wrap. -/
theorem Laid.mergeable_iff (laid : Laid top (run :: r :: rest)) (word : top ≤ 2 ^ 64) :
    mergeable (asReserved run) r = true ↔ (run.type > e820MemTypeUsable ∧ r.type > e820MemTypeUsable) ∨
      (run.baseAddr + run.length = r.baseAddr ∧ run.type = r.type) := by
  obtain ⟨-, -, before, laid⟩ := laid_cons.mp laid
  obtain ⟨pos, within, -⟩ := laid_cons.mp laid
  have gap := before r (List.mem_cons_self ..)
  rw [mergeable_eq_true, asReserved_baseAddr, asReserved_length, Word.add_of_lt (by omega)]
  by_cases high : run.type > e820MemTypeUsable
  · rw [asReserved_reserved high]
    unfold e820MemTypeUsable e820MemTypeReserved at *
    omega
  · rw [asReserved_of_low high]
    omega

/-- The two a run is made of are of one kind. -/
theorem Laid.alike (laid : Laid top (run :: r :: rest)) (word : top ≤ 2 ^ 64)
    (taken : mergeable (asReserved run) r = true) : run.type > e820MemTypeUsable ↔ r.type > e820MemTypeUsable := by
  rcases (laid.mergeable_iff word).mp taken with ⟨high, high'⟩ | ⟨-, same⟩
  · exact iff_of_true high high'
  · rw [same]

theorem combined_baseAddr : (combined (asReserved run) r).baseAddr = run.baseAddr := asReserved_baseAddr run

/-- Taking the next region in adds its length. -/
theorem combined_length_of_lt (sum : run.length + r.length < 2 ^ 64) :
    (combined (asReserved run) r).length = run.length + r.length := by
  show Word.add _ _ = _
  rw [asReserved_length, Word.add_of_lt sum]

/-- The grown run ends no later than what it took in, so the map stays sorted. -/
theorem Laid.combined (laid : Laid top (run :: r :: rest)) (sum : run.length + r.length < 2 ^ 64) :
    Laid top (combined (asReserved run) r :: rest) := by
  have length := combined_length_of_lt sum
  obtain ⟨pos, -, before, laid⟩ := laid_cons.mp laid
  obtain ⟨-, within, before', laid'⟩ := laid_cons.mp laid
  have gap := before r (List.mem_cons_self ..)
  refine laid_cons.mpr ⟨by omega, ?_, fun f mem => ?_, laid'⟩
  · rw [combined_baseAddr, length]
    omega
  · have := before' f mem
    rw [combined_baseAddr, length]
    omega

/-- The lengths that a run takes in do not add up to `2 ^ 64`: a run of that length would begin at 0 and
take in all there is. -/
def RunBelow (top : Nat) (run : MemMapRegion) (rest : List MemMapRegion) : Prop :=
  top < 2 ^ 64 ∨ 0 < run.baseAddr ∨ ∃ e ∈ rest, ¬ (run.type > e820MemTypeUsable ↔ e.type > e820MemTypeUsable)

theorem RunBelow.sum (fits : RunBelow top run (r :: rest)) (laid : Laid top (run :: r :: rest)) (word : top ≤ 2 ^ 64)
    (taken : mergeable (asReserved run) r = true) : run.length + r.length < 2 ^ 64 := by
  have alike := laid.alike word taken
  obtain ⟨-, -, before, laid⟩ := laid_cons.mp laid
  obtain ⟨-, within, before', laid'⟩ := laid_cons.mp laid
  have gap := before r (List.mem_cons_self ..)
  rcases fits with low | above | ⟨e, mem, other⟩
  · omega
  · omega
  · rcases List.mem_cons.mp mem with rfl | mem
    · exact absurd alike other
    · have order := before' e mem
      have pos := laid'.nonempty e mem
      have below := laid'.bounded e mem
      omega

theorem RunBelow.combined (fits : RunBelow top run (r :: rest)) (laid : Laid top (run :: r :: rest)) (word : top ≤ 2 ^ 64)
    (taken : mergeable (asReserved run) r = true) : RunBelow top (combined (asReserved run) r) rest := by
  rcases fits with low | above | ⟨e, mem, other⟩
  · exact .inl low
  · refine .inr (.inl ?_)
    rwa [combined_baseAddr]
  · rcases List.mem_cons.mp mem with rfl | mem
    · exact absurd (laid.alike word taken) other
    · refine .inr (.inr ⟨e, mem, ?_⟩)
      show ¬ ((asReserved run).type > _ ↔ _)
      rwa [asReserved_type_high]

/-- A run behind another does not begin at 0. -/
theorem Laid.fits (laid : Laid top (run :: r :: rest)) : RunBelow top r rest := by
  obtain ⟨pos, -, before, -⟩ := laid_cons.mp laid
  have gap := before r (List.mem_cons_self ..)
  exact .inr (.inl (by omega))

theorem Laid.head_asReserved (laid : Laid top (run :: rest)) : Laid top (asReserved run :: rest) := by
  obtain ⟨pos, within, before, laid'⟩ := laid_cons.mp laid
  rw [laid_cons, asReserved_length, asReserved_baseAddr]
  exact ⟨pos, within, before, laid'⟩

/-- Merging a sorted map leaves a sorted map that begins at the same address. -/
theorem Laid.runs (laid : Laid top (run :: rest)) (word : top ≤ 2 ^ 64) (fits : RunBelow top run rest) :
    Laid top (mergeRuns run rest) ∧ ∀ f ∈ mergeRuns run rest, run.baseAddr ≤ f.baseAddr := by
  induction rest generalizing run with
  | nil =>
    rw [mergeRuns]
    refine ⟨laid.head_asReserved, fun f mem => ?_⟩
    rw [List.mem_singleton.mp mem, asReserved_baseAddr]
  | cons r rest ih =>
    rw [mergeRuns]
    split
    · rename_i taken
      obtain ⟨laid', base⟩ := ih (laid.combined (fits.sum laid word taken)) (fits.combined laid word taken)
      refine ⟨laid', fun f mem => ?_⟩
      have first := base f mem
      rwa [combined_baseAddr] at first
    · obtain ⟨pos, within, before, tail⟩ := laid_cons.mp laid
      have gap := before r (List.mem_cons_self ..)
      obtain ⟨laid', base⟩ := ih tail laid.fits
      refine ⟨laid_cons.mpr ⟨?_, ?_, fun f mem => ?_, laid'⟩, List.forall_mem_cons.mpr ⟨?_, fun f mem => ?_⟩⟩
      · rwa [asReserved_length]
      · rwa [asReserved_length, asReserved_baseAddr]
      · rw [asReserved_length, asReserved_baseAddr]
        exact gap.trans (base f mem)
      · rw [asReserved_baseAddr]
      · have := base f mem
        omega

/-! ### Where every end is addressable -/

theorem mergeable_iff (sorted : SortedRegions (run :: r :: rest)) :
    mergeable (asReserved run) r = true ↔ (run.type > e820MemTypeUsable ∧ r.type > e820MemTypeUsable) ∨
      (run.baseAddr + run.length = r.baseAddr ∧ run.type = r.type) :=
  sorted.mergeable_iff (by decide)

theorem SortedRegions.sum (sorted : SortedRegions (run :: r :: rest)) : run.length + r.length < 2 ^ 64 := by
  obtain ⟨-, -, before, sorted⟩ := laid_cons.mp sorted
  obtain ⟨-, fits, -⟩ := laid_cons.mp sorted
  have gap := before r (List.mem_cons_self ..)
  omega

theorem combined_length (sorted : SortedRegions (run :: r :: rest)) :
    (combined (asReserved run) r).length = run.length + r.length := combined_length_of_lt sorted.sum

theorem SortedRegions.combined (sorted : SortedRegions (run :: r :: rest)) :
    SortedRegions (combined (asReserved run) r :: rest) := Laid.combined sorted sorted.sum

theorem mergeRuns_sorted (sorted : SortedRegions (run :: rest)) :
    SortedRegions (mergeRuns run rest) ∧ ∀ f ∈ mergeRuns run rest, run.baseAddr ≤ f.baseAddr := by
  exact sorted.runs (by decide) (.inl (by decide))

end Runs

/-! ## What merging keeps -/

/-- The address lies in a region of the type. -/
def InType (type : Nat) (regions : List MemMapRegion) (x : Nat) : Prop :=
  ∃ e ∈ regions, e.type = type ∧ e.Mem x

/-- The address lies in a region that is not usable. -/
def Unusable (regions : List MemMapRegion) (x : Nat) : Prop :=
  ∃ e ∈ regions, e.type ≠ e820MemTypeUsable ∧ e.Mem x

/-- No memory is lost: the usable addresses are the same, and what a region of any other type held
is in a reserved one. -/
structure Preserved (before after : List MemMapRegion) : Prop where
  usable : ∀ x, InType e820MemTypeUsable after x ↔ InType e820MemTypeUsable before x
  reserved : ∀ x, Unusable before x → InType e820MemTypeReserved after x

/-- Two neighbouring regions touch unless one of them is usable. -/
def Touching (e f : MemMapRegion) : Prop :=
  e.type ≠ e820MemTypeUsable → f.type ≠ e820MemTypeUsable → e.baseAddr + e.length = f.baseAddr

theorem inType_cons {type x : Nat} {r : MemMapRegion} {rest : List MemMapRegion} :
    InType type (r :: rest) x ↔ (r.type = type ∧ r.Mem x) ∨ InType type rest x := by
  simp only [InType, List.mem_cons, or_and_right, exists_or, exists_eq_left]

theorem unusable_cons {x : Nat} {r : MemMapRegion} {rest : List MemMapRegion} :
    Unusable (r :: rest) x ↔ (r.type ≠ e820MemTypeUsable ∧ r.Mem x) ∨ Unusable rest x := by
  simp only [Unusable, List.mem_cons, or_and_right, exists_or, exists_eq_left]

theorem above_usable {type : Nat} (typed : type ≠ 0) (unusable : type ≠ e820MemTypeUsable) :
    type > e820MemTypeUsable := by
  unfold e820MemTypeUsable at *
  omega

section Runs

variable {run r : MemMapRegion} {rest : List MemMapRegion}

theorem asReserved_mem {x : Nat} : (asReserved run).Mem x ↔ run.Mem x := by
  rw [MemMapRegion.Mem, asReserved_baseAddr, asReserved_length, MemMapRegion.Mem]

/-- A run that touches what it takes in holds exactly the two. -/
theorem combined_mem_of_lt (sum : run.length + r.length < 2 ^ 64) (touch : run.baseAddr + run.length = r.baseAddr)
    {x : Nat} : (combined (asReserved run) r).Mem x ↔ run.Mem x ∨ r.Mem x := by
  simp only [MemMapRegion.Mem, combined_baseAddr, combined_length_of_lt sum]
  omega

theorem combined_mem (sorted : SortedRegions (run :: r :: rest)) (touch : run.baseAddr + run.length = r.baseAddr)
    {x : Nat} : (combined (asReserved run) r).Mem x ↔ run.Mem x ∨ r.Mem x := combined_mem_of_lt sorted.sum touch

/-- Merging changes no usable memory. -/
theorem Laid.runs_usable {top : Nat} (laid : Laid top (run :: rest)) (word : top ≤ 2 ^ 64)
    (fits : RunBelow top run rest) (x : Nat) :
    InType e820MemTypeUsable (mergeRuns run rest) x ↔ InType e820MemTypeUsable (run :: rest) x := by
  induction rest generalizing run with
  | nil => rw [mergeRuns, inType_cons, inType_cons, asReserved_type_usable, asReserved_mem]
  | cons r rest ih =>
    rw [mergeRuns]
    split
    · rename_i taken
      have sum := fits.sum laid word taken
      rw [ih (laid.combined sum) (fits.combined laid word taken), inType_cons, inType_cons, inType_cons, ← or_assoc]
      refine or_congr_left ?_
      show (asReserved run).type = _ ∧ _ ↔ _
      rw [asReserved_type_usable]
      rcases (laid.mergeable_iff word).mp taken with ⟨high, high'⟩ | ⟨touch, same⟩
      · have := Nat.ne_of_gt high
        have := Nat.ne_of_gt high'
        simp only [*, false_and, or_self]
      · rw [combined_mem_of_lt sum touch, ← same, and_or_left]
    · rw [inType_cons, inType_cons, ih (laid_cons.mp laid).2.2.2 laid.fits, asReserved_type_usable,
        asReserved_mem]

theorem mergeRuns_usable (sorted : SortedRegions (run :: rest)) (x : Nat) :
    InType e820MemTypeUsable (mergeRuns run rest) x ↔ InType e820MemTypeUsable (run :: rest) x :=
  sorted.runs_usable (by decide) (.inl (by decide)) x

theorem asReserved_type_ne_zero (typed : run.type ≠ 0) : (asReserved run).type ≠ 0 := by
  by_cases high : run.type > e820MemTypeUsable
  · rw [asReserved_reserved high]
    decide
  · rwa [asReserved_of_low high]

/-- What is taken in touches the run and is usable exactly when the run is. -/
theorem taken_of_touching (sorted : SortedRegions (run :: r :: rest)) (taken : mergeable (asReserved run) r = true)
    (touching : Touching run r) : run.baseAddr + run.length = r.baseAddr ∧
      (run.type = e820MemTypeUsable ↔ r.type = e820MemTypeUsable) := by
  rcases (mergeable_iff sorted).mp taken with ⟨high, high'⟩ | ⟨touch, same⟩
  · have ne := Nat.ne_of_gt high
    have ne' := Nat.ne_of_gt high'
    exact ⟨touching ne ne', iff_of_false ne ne'⟩
  · exact ⟨touch, by rw [same]⟩

/-- A run that touches what it took in ends where that ended. -/
theorem isChain_combined (sorted : SortedRegions (run :: r :: rest))
    (touch : run.baseAddr + run.length = r.baseAddr)
    (alike : run.type = e820MemTypeUsable ↔ r.type = e820MemTypeUsable) :
    (combined (asReserved run) r :: rest).IsChain Touching ↔ (r :: rest).IsChain Touching := by
  have same : ∀ f, Touching (combined (asReserved run) r) f ↔ Touching r f := by
    intro f
    have type : (combined (asReserved run) r).type = (asReserved run).type := rfl
    rw [Touching, Touching, type, ne_eq, asReserved_type_usable, alike, combined_baseAddr,
      combined_length sorted, ← touch, Nat.add_assoc]
  rw [List.isChain_cons, List.isChain_cons]
  simp only [same]

/-- Where regions that are not usable touch, merging keeps all they hold. -/
theorem mergeRuns_reserved (sorted : SortedRegions (run :: rest)) (typed : ∀ e ∈ run :: rest, e.type ≠ 0)
    (touching : (run :: rest).IsChain Touching) (x : Nat) (held : Unusable (run :: rest) x) :
    InType e820MemTypeReserved (mergeRuns run rest) x := by
  induction rest generalizing run with
  | nil =>
    rw [unusable_cons] at held
    rcases held with ⟨type, here⟩ | ⟨e, mem, -⟩
    · rw [mergeRuns, inType_cons]
      exact .inl ⟨asReserved_reserved (above_usable (typed _ (List.mem_cons_self ..)) type), asReserved_mem.mpr here⟩
    · cases mem
  | cons r rest ih =>
    rw [List.forall_mem_cons] at typed
    rw [List.isChain_cons_cons] at touching
    rw [unusable_cons] at held
    rw [mergeRuns]
    split
    · rename_i taken
      obtain ⟨touch, alike⟩ := taken_of_touching sorted taken touching.1
      have type : (combined (asReserved run) r).type = (asReserved run).type := rfl
      refine ih sorted.combined (List.forall_mem_cons.mpr ⟨?_, (List.forall_mem_cons.mp typed.2).2⟩) ?_ ?_
      · rw [type]
        exact asReserved_type_ne_zero typed.1
      · exact (isChain_combined sorted touch alike).mpr touching.2
      · rw [unusable_cons, type, ne_eq, asReserved_type_usable, combined_mem sorted touch]
        rw [unusable_cons, ne_eq, ne_eq, ← alike, ← or_assoc, ← and_or_left] at held
        exact held
    · rename_i ends
      rw [inType_cons]
      rcases held with ⟨type, here⟩ | held
      · exact .inl ⟨asReserved_reserved (above_usable typed.1 type), asReserved_mem.mpr here⟩
      · exact .inr (ih (laid_cons.mp sorted).2.2.2 typed.2 touching.2 held)

/-- A run of type 0 is in no reserved region. -/
theorem mergeRuns_type_zero (sorted : SortedRegions (run :: rest)) (type : run.type = 0) :
    ¬ InType e820MemTypeReserved (mergeRuns run rest) run.baseAddr := by
  induction rest generalizing run with
  | nil =>
    rw [mergeRuns, asReserved_of_low (by rw [type]; decide)]
    rintro ⟨e, mem, reserved, -⟩
    obtain rfl := List.mem_singleton.mp mem
    rw [type] at reserved
    cases reserved
  | cons r rest ih =>
    rw [mergeRuns]
    split
    · rw [← combined_baseAddr (r := r)]
      exact ih sorted.combined (by show (asReserved run).type = 0; rw [asReserved_of_low (by rw [type]; decide), type])
    · obtain ⟨pos, -, before, tail⟩ := laid_cons.mp sorted
      have gap := before r (List.mem_cons_self ..)
      rw [inType_cons, asReserved_of_low (by rw [type]; decide), type]
      rintro (⟨reserved, -⟩ | ⟨f, mem, -, low, -⟩)
      · cases reserved
      · have := (mergeRuns_sorted tail).2 f mem
        omega

/-- A reserved run that falls short of the end of what it has taken in stays short: the last byte of
what it takes in last is lost. -/
theorem mergeRuns_short (sorted : SortedRegions (run :: rest)) (high : run.type > e820MemTypeUsable)
    (last : Nat) (short : run.baseAddr + run.length ≤ last) (before : ∀ f ∈ rest, last < f.baseAddr) :
    ∃ x, (x = last ∨ Unusable rest x) ∧ ¬ InType e820MemTypeReserved (mergeRuns run rest) x := by
  induction rest generalizing run last with
  | nil =>
    refine ⟨last, .inl rfl, ?_⟩
    rw [mergeRuns, inType_cons, asReserved_mem]
    rintro (⟨-, -, inside⟩ | ⟨e, mem, -⟩)
    · omega
    · cases mem
  | cons r rest ih =>
    have gap := before r (List.mem_cons_self ..)
    obtain ⟨-, -, order, tail⟩ := laid_cons.mp sorted
    obtain ⟨pos, -, order', -⟩ := laid_cons.mp tail
    rw [mergeRuns]
    split
    · rename_i taken
      have high' : r.type > e820MemTypeUsable := by
        rcases (mergeable_iff sorted).mp taken with both | ⟨-, same⟩
        · exact both.2
        · rwa [← same]
      have reserved : (combined (asReserved run) r).type = e820MemTypeReserved := asReserved_reserved high
      have length := combined_length sorted
      obtain ⟨x, held, lost⟩ := ih sorted.combined (by rw [reserved]; decide)
        (r.baseAddr + r.length - 1) (by rw [combined_baseAddr, length]; omega) fun f mem => by
          have := order' f mem
          omega
      refine ⟨x, .inr (unusable_cons.mpr ?_), lost⟩
      rcases held with rfl | held
      · exact .inl ⟨Nat.ne_of_gt high', by omega, by omega⟩
      · exact .inr held
    · refine ⟨last, .inl rfl, ?_⟩
      rw [inType_cons, asReserved_mem]
      rintro (⟨-, -, inside⟩ | ⟨f, mem, -, low, -⟩)
      · omega
      · have := (mergeRuns_sorted tail).2 f mem
        omega

/-- If merging keeps all that is not usable, the run has a type. -/
theorem typed_of_mergeRuns_reserved (sorted : SortedRegions (run :: rest))
    (kept : ∀ x, Unusable (run :: rest) x → InType e820MemTypeReserved (mergeRuns run rest) x) :
    run.type ≠ 0 := by
  intro type
  obtain ⟨pos, -⟩ := laid_cons.mp sorted
  refine mergeRuns_type_zero sorted type (kept _ (unusable_cons.mpr (.inl ⟨?_, Nat.le_refl _, by omega⟩)))
  rw [type]
  decide

/-- If merging keeps all that is not usable, a run touches what it takes in. -/
theorem touch_of_mergeRuns_reserved (sorted : SortedRegions (run :: r :: rest))
    (taken : mergeable (asReserved run) r = true)
    (kept : ∀ x, Unusable (run :: r :: rest) x →
      InType e820MemTypeReserved (mergeRuns (combined (asReserved run) r) rest) x) :
    run.baseAddr + run.length = r.baseAddr := by
  rcases (mergeable_iff sorted).mp taken with ⟨high, high'⟩ | ⟨touch, -⟩
  · by_contra hole
    obtain ⟨-, -, before, tail⟩ := laid_cons.mp sorted
    obtain ⟨pos, -, order, -⟩ := laid_cons.mp tail
    have gap := before r (List.mem_cons_self ..)
    have reserved : (combined (asReserved run) r).type = e820MemTypeReserved := asReserved_reserved high
    have length := combined_length sorted
    obtain ⟨x, held, lost⟩ := mergeRuns_short sorted.combined (by rw [reserved]; decide)
      (r.baseAddr + r.length - 1) (by rw [combined_baseAddr, length]; omega) fun f mem => by
        have := order f mem
        omega
    refine lost (kept x (unusable_cons.mpr (.inr (unusable_cons.mpr ?_))))
    rcases held with rfl | held
    · exact .inl ⟨Nat.ne_of_gt high', by omega, by omega⟩
    · exact .inr held
  · exact touch

/-- If merging keeps all that is not usable, no region has type 0 and those that are not usable touch. -/
theorem touching_of_mergeRuns_reserved (sorted : SortedRegions (run :: rest))
    (kept : ∀ x, Unusable (run :: rest) x → InType e820MemTypeReserved (mergeRuns run rest) x) :
    (∀ e ∈ run :: rest, e.type ≠ 0) ∧ (run :: rest).IsChain Touching := by
  have typed := typed_of_mergeRuns_reserved sorted kept
  induction rest generalizing run with
  | nil => exact ⟨fun e mem => List.mem_singleton.mp mem ▸ typed, .singleton _⟩
  | cons r rest ih =>
    by_cases taken : mergeable (asReserved run) r
    · simp only [mergeRuns, if_pos taken] at kept
      have touch := touch_of_mergeRuns_reserved sorted taken kept
      obtain ⟨-, alike⟩ := taken_of_touching sorted taken fun _ _ => touch
      have type : (combined (asReserved run) r).type = (asReserved run).type := rfl
      obtain ⟨types, chain⟩ := ih sorted.combined (fun x held => kept x (by
        rw [unusable_cons, type, ne_eq, asReserved_type_usable, combined_mem sorted touch] at held
        rwa [unusable_cons, unusable_cons, ne_eq, ne_eq, ← alike, ← or_assoc, ← and_or_left]))
        (asReserved_type_ne_zero typed)
      have typed' : r.type ≠ 0 := by
        rcases (mergeable_iff sorted).mp taken with ⟨-, high⟩ | ⟨-, same⟩
        · exact Nat.ne_of_gt (Nat.lt_trans Nat.zero_lt_one high)
        · rwa [← same]
      rw [List.forall_mem_cons] at types
      refine ⟨List.forall_mem_cons.mpr ⟨typed, List.forall_mem_cons.mpr ⟨typed', types.2⟩⟩, ?_⟩
      exact List.isChain_cons_cons.mpr ⟨fun _ _ => touch, (isChain_combined sorted touch alike).mp chain⟩
    · simp only [mergeRuns, if_neg taken] at kept
      obtain ⟨-, -, before, tail⟩ := laid_cons.mp sorted
      have kept' : ∀ x, Unusable (r :: rest) x → InType e820MemTypeReserved (mergeRuns r rest) x := by
        rintro x ⟨e, mem, type, here⟩
        have found := kept x (unusable_cons.mpr (.inr ⟨e, mem, type, here⟩))
        rw [inType_cons, asReserved_mem] at found
        refine found.resolve_left fun there => ?_
        have := before e mem
        obtain ⟨-, -, _⟩ := there
        obtain ⟨_, -⟩ := here
        omega
      obtain ⟨types, chain⟩ := ih tail kept' (typed_of_mergeRuns_reserved tail kept')
      refine ⟨List.forall_mem_cons.mpr ⟨typed, types⟩, List.isChain_cons_cons.mpr ⟨fun ne ne' => ?_, chain⟩⟩
      exact absurd ((mergeable_iff sorted).mpr (.inl ⟨above_usable typed ne,
        above_usable (types r (List.mem_cons_self ..)) ne'⟩)) taken

end Runs

/-- **No memory is lost exactly when no region has type 0 and neighbours that are not usable touch.**
The slot behind the last region is zeroed, as the loader leaves the buffer. -/
theorem merge_preserves_iff_touching {b : MemMapBlock} (two : 2 ≤ b.numEntries)
    (sorted : SortedRegions b.entries) (spare : b.memRegion b.numEntries = .zero) :
    Preserved b.entries (squashMemRegions (combineMergeableRegions b)).entries ↔
      (∀ e ∈ b.entries, e.type ≠ 0) ∧ b.entries.IsChain Touching := by
  have words : ∀ e ∈ b.entries, e.length < 2 ^ 64 := fun e mem => by
    have := sorted.bounded e mem
    omega
  have first := entries_eq_cons (Nat.lt_of_succ_lt two)
  rw [combine_squash_entries two words (by rw [spare]; rfl), first]
  rw [first] at sorted
  rw [kept_of_pos (mergeRuns_sorted sorted).1.nonempty]
  constructor
  · exact fun preserved => touching_of_mergeRuns_reserved sorted preserved.reserved
  · exact fun ⟨typed, touching⟩ => ⟨mergeRuns_usable sorted, mergeRuns_reserved sorted typed touching⟩

/-! ### Two reserved regions -/

/-- A reserved page, and another one at `base`. -/
def twoReserved (base : Nat) : MemMapBlock where
  numEntries := 2
  memRegion := fun i =>
    if i = 0 then ⟨0x1000, 0x1000, e820MemTypeReserved⟩
    else if i = 1 then ⟨base, 0x1000, e820MemTypeReserved⟩ else .zero

/-- Without a hole nothing is lost. -/
theorem merge_preserves_two_pages :
    Preserved (twoReserved 0x2000).entries
      (squashMemRegions (combineMergeableRegions (twoReserved 0x2000))).entries := by
  have list : (twoReserved 0x2000).entries =
      [⟨0x1000, 0x1000, e820MemTypeReserved⟩, ⟨0x2000, 0x1000, e820MemTypeReserved⟩] := rfl
  have sorted : SortedRegions (twoReserved 0x2000).entries := by
    rw [list]
    exact ⟨by decide, by decide, by decide⟩
  refine (merge_preserves_iff_touching (by decide) sorted rfl).mpr ?_
  rw [list]
  exact ⟨by decide, List.isChain_cons_cons.mpr ⟨fun _ _ => rfl, .singleton _⟩⟩

/-- Across a hole the merged entry is as long as the two pages together, and the second is in no
entry. -/
theorem merge_loses_the_page_behind_a_hole :
    ¬ Preserved (twoReserved 0x8000).entries
      (squashMemRegions (combineMergeableRegions (twoReserved 0x8000))).entries := by
  intro preserved
  have list : (squashMemRegions (combineMergeableRegions (twoReserved 0x8000))).entries =
      [⟨0x1000, 0x2000, e820MemTypeReserved⟩] := by decide
  obtain ⟨e, mem, -, -, inside⟩ := preserved.reserved 0x8000
    ⟨⟨0x8000, 0x1000, e820MemTypeReserved⟩, by decide, by decide, Nat.le_refl _, by decide⟩
  rw [list] at mem
  obtain rfl := List.mem_singleton.mp mem
  exact absurd inside (by decide)

end AlmeidaOS.Kernel
