import Mathlib.Data.List.Sort
import AlmeidaOS.Laws.Arch.MemInit

/-!
# The order of regions that begin at one address

`mem_reserve_first_mb` adds the first MiB as a reserved region at address 0 and zeroes regions that
lie below 1 MiB; both then sort to the front, in an order that the shuffle decides. Behind them there
is one order only (`exists_front`). A zeroed slot in front of a region is gone after the merging, and
one behind the first MiB keeps it from merging with what follows (`merged_cases`).
-/

namespace AlmeidaOS.Kernel

open MemMapBlock

/-! ## The regions that are left, in order -/

/-- The regions that are left, by base address. -/
def ordered (b : MemMapBlock) : List MemMapRegion :=
  (remaining b).mergeSort fun e f => e.baseAddr ≤ f.baseAddr

theorem ordered_perm (b : MemMapBlock) : (ordered b).Perm (remaining b) := List.mergeSort_perm ..

theorem mem_ordered {b : MemMapBlock} {e : MemMapRegion} : e ∈ ordered b ↔ e ∈ remaining b :=
  (ordered_perm b).mem_iff

theorem ordered_sorted {b : MemMapBlock} (map : BiosMap b) : SortedRegions (ordered b) := by
  have inside : ∀ e ∈ ordered b, e ∈ b.entries := fun e mem =>
    (remaining_sublist b).subset (mem_ordered.mp mem)
  refine ⟨fun e mem => map.nonempty e (inside e mem), fun e mem => Nat.le_sub_one_of_lt (map.bounded e (inside e mem)), ?_⟩
  have apart := ((ordered_perm b).pairwise_iff Or.symm).mpr (map.apart.sublist (remaining_sublist b))
  have order : (ordered b).Pairwise fun e f => decide (e.baseAddr ≤ f.baseAddr) = true :=
    List.pairwise_mergeSort (by simp only [decide_eq_true_eq]; omega)
      (by simp only [Bool.or_eq_true, decide_eq_true_eq]; omega) _
  refine (apart.and order).imp_of_mem fun {e f} _ mem ⟨either, low⟩ => ?_
  have pos := map.nonempty f (inside f mem)
  have low := of_decide_eq_true low
  rcases either with before | behind
  · exact before
  · omega

theorem Laid.byBase {top : Nat} {regions : List MemMapRegion} (laid : Laid top regions) : ByBase regions :=
  laid.sorted.imp fun before => by omega

/-- Only the first of sorted regions can begin at address 0. -/
theorem Laid.pos {top : Nat} {r : MemMapRegion} {rest : List MemMapRegion} (laid : Laid top (r :: rest)) :
    ∀ e ∈ rest, 0 < e.baseAddr := by
  obtain ⟨pos, -, before, -⟩ := laid_cons.mp laid
  intro e mem
  have := before e mem
  omega

theorem Laid.head_le {top : Nat} {r : MemMapRegion} {rest : List MemMapRegion} (laid : Laid top (r :: rest)) :
    ∀ e ∈ r :: rest, r.baseAddr ≤ e.baseAddr :=
  List.forall_mem_cons.mpr ⟨Nat.le_refl _, (byBase_cons.mp laid.byBase).1⟩

/-- When no region left is above address 0, there is one at most. -/
theorem ordered_alone {b : MemMapBlock} (map : BiosMap b) {e : MemMapRegion} (mem : e ∈ ordered b)
    (none : ¬ ∃ f ∈ ordered b, 0 < f.baseAddr) : ordered b = [e] ∧ e.baseAddr = 0 := by
  have zero : ∀ f ∈ ordered b, f.baseAddr = 0 := by
    intro f mem
    by_contra pos
    exact none ⟨f, mem, by omega⟩
  refine ⟨?_, zero e mem⟩
  have apart := ordered_sorted map
  rcases list : ordered b with _ | ⟨s, _ | ⟨f, rest⟩⟩
  · rw [list] at mem
    cases mem
  · rw [list] at mem
    rw [List.mem_singleton.mp mem]
  · rw [list] at apart zero
    have := apart.pos f (List.mem_cons_self ..)
    have := zero f (by simp)
    omega

theorem numEntries_eq (b : MemMapBlock) : b.numEntries = (dropped b).length + (remaining b).length := by
  have length : b.entries.length = b.numEntries := by rw [entries, List.length_map, List.length_range]
  rw [dropped, remaining]
  rcases List.eq_nil_or_concat b.entries with none | ⟨front, last, list⟩
  · rw [none] at length ⊢
    simpa using length.symm
  · rw [list, List.concat_eq_append] at length ⊢
    rw [List.length_append, List.length_singleton] at length
    rw [List.dropLast_concat, List.getLast?_concat, List.length_append, Option.toList_some, List.length_singleton,
      ← length, ← Nat.add_assoc]
    simp only [decide_not, ← List.length_eq_length_filter_add]

/-- Of one entry nothing is dropped. -/
theorem dropped_eq_nil_of_one {b : MemMapBlock} {s : MemMapRegion} (list : ordered b = [s]) (one : b.numEntries = 1) : dropped b = [] := by
  have count := numEntries_eq b
  rw [← (ordered_perm b).length_eq, list, one, List.length_singleton] at count
  exact List.length_eq_zero_iff.mp (by omega)

/-- The last entry is always left. -/
theorem exists_ordered {b : MemMapBlock} (some : 0 < b.numEntries) : ∃ e, e ∈ ordered b := by
  have last : b.entries.getLast? = Option.some (b.memRegion (b.numEntries - 1)) := by
    rw [entries, List.getLast?_map, List.getLast?_range, if_neg (Nat.ne_of_gt some), Option.map_some]
  refine ⟨b.memRegion (b.numEntries - 1), mem_ordered.mpr (List.mem_append_right _ ?_)⟩
  rw [last]
  exact List.mem_singleton_self _

/-- What `mem_init` sorts. -/
theorem reserve_perm_ordered {b : MemMapBlock} (map : BiosMap b) :
    (withFirstMb b).entries.Perm (List.replicate (dropped b).length .zero ++ firstMb :: ordered b) :=
  (reserve_entries_perm map).trans (((ordered_perm b).symm.cons _).append_left _)

/-! ## Orders in which the base addresses ascend -/

section Orders

variable {front rest order : List MemMapRegion}

theorem byBase_append (zero : ∀ e ∈ front, e.baseAddr = 0) (sorted : ByBase rest) : ByBase (front ++ rest) := by
  refine List.pairwise_append.mpr ⟨?_, sorted, fun e mem f _ => ?_⟩
  · exact List.pairwise_of_forall_mem_list fun e mem f _ => by rw [zero e mem]; exact Nat.zero_le _
  · rw [zero e mem]
    exact Nat.zero_le _

/-- A sorted list begins with what begins at address 0. -/
theorem byBase_split (sorted : ByBase order) : order = order.filter (fun e => e.baseAddr = 0) ++
    order.filter fun e => ¬ e.baseAddr = 0 := by
  induction order with
  | nil => rfl
  | cons e order ih =>
    obtain ⟨before, tail⟩ := byBase_cons.mp sorted
    by_cases zero : e.baseAddr = 0
    · simp only [List.filter_cons, zero, decide_true, if_true, not_true_eq_false, decide_false, Bool.false_eq_true,
        if_false, List.cons_append]
      exact congrArg (e :: ·) (ih tail)
    · have none : ∀ f ∈ e :: order, ¬ f.baseAddr = 0 := by
        intro f mem
        rcases List.mem_cons.mp mem with rfl | mem
        · exact zero
        · have := before f mem
          omega
      rw [List.filter_eq_nil_iff.mpr fun f mem => by simpa using none f mem,
        List.filter_eq_self.mpr fun f mem => by simpa using none f mem, List.nil_append]

/-- Behind what begins at address 0 there is one order only. -/
theorem exists_front (perm : order.Perm (front ++ rest)) (sorted : ByBase order)
    (zero : ∀ e ∈ front, e.baseAddr = 0) (above : ∀ e ∈ rest, 0 < e.baseAddr) (apart : SortedRegions rest) :
    ∃ front', front'.Perm front ∧ order = front' ++ rest := by
  have low : (order.filter fun e => e.baseAddr = 0).Perm front := by
    refine (perm.filter _).trans ?_
    rw [List.filter_append, List.filter_eq_self.mpr fun e mem => by simpa using zero e mem,
      List.filter_eq_nil_iff.mpr fun e mem => by have := above e mem; simp only [decide_eq_true_eq]; omega,
      List.append_nil]
  have high : (order.filter fun e => ¬ e.baseAddr = 0).Perm rest := by
    refine (perm.filter _).trans ?_
    rw [List.filter_append, List.filter_eq_nil_iff.mpr fun e mem => by simpa using zero e mem,
      List.filter_eq_self.mpr fun e mem => by have := above e mem; simp only [decide_eq_true_eq]; omega,
      List.nil_append]
  have same : (order.filter fun e => ¬ e.baseAddr = 0) = rest := by
    refine List.Perm.eq_of_pairwise (fun e f mem memf le le' => ?_) (sorted.filter _) apart.byBase high
    have pos := apart.nonempty f memf
    have pos' := apart.nonempty e (high.mem_iff.mp mem)
    rcases apart.apart (high.mem_iff.mp mem) memf with same | before | behind
    · exact same
    · omega
    · omega
  refine ⟨_, low, ?_⟩
  conv_lhs => rw [byBase_split sorted]
  rw [same]

end Orders

/-! ## Zeroed slots among the regions -/

section Zeroes

variable {run r : MemMapRegion} {rest : List MemMapRegion}

theorem kept_cons_of_type (typed : r.type ≠ 0) : kept (r :: rest) = r :: kept rest := by
  rw [kept, List.filter_cons, if_pos (by simp [memIsEntryEmpty, typed]), ← kept]

theorem kept_cons_of_pos (pos : 0 < r.length) : kept (r :: rest) = r :: kept rest := by
  rw [kept, List.filter_cons, if_pos (by simp [memIsEntryEmpty, Nat.ne_of_gt pos]), ← kept]

theorem kept_zero_cons : kept (.zero :: rest) = kept rest := by
  rw [kept, List.filter_cons, if_neg (by decide), ← kept]

/-- A zeroed slot in front is gone. -/
theorem kept_merged_zero (word : ∀ e ∈ rest, e.length < 2 ^ 64) : kept (merged (.zero :: rest)) = kept (merged rest) := by
  cases rest with
  | nil => decide
  | cons r rest =>
    have zero : asReserved .zero = .zero := by decide
    rw [merged, mergeRuns, zero]
    split
    · rename_i taken
      obtain ⟨touch, type⟩ := (mergeable_eq_true.mp taken).resolve_left fun both => absurd both.1 (by decide)
      have base : r.baseAddr = 0 := Nat.le_zero.mp touch
      have same : combined .zero r = r := by
        have length : Word.add 0 r.length = r.length := by
          rw [Word.add, Nat.zero_add, Nat.mod_eq_of_lt (word r (List.mem_cons_self ..))]
        show MemMapRegion.mk 0 (Word.add 0 r.length) 0 = r
        rw [length]
        cases r
        simp only [MemMapRegion.zero] at base type ⊢
        rw [base, ← type]
      rw [same, merged]
    · rw [kept_zero_cons, merged]

theorem kept_merged_zeroes (k : Nat) (word : ∀ e ∈ rest, e.length < 2 ^ 64) :
    kept (merged (List.replicate k .zero ++ rest)) = kept (merged rest) := by
  induction k with
  | zero => rfl
  | succ k ih =>
    rw [List.replicate_succ, List.cons_append, kept_merged_zero, ih]
    intro e mem
    rcases List.mem_append.mp mem with mem | mem
    · rw [List.eq_of_mem_replicate mem]
      decide
    · exact word e mem

/-- A zeroed slot behind a region that has a type keeps it from merging with what follows. -/
theorem kept_merged_typed_zeroes (k : Nat) (typed : run.type ≠ 0) (word : ∀ e ∈ rest, e.length < 2 ^ 64) :
    kept (merged (run :: (List.replicate (k + 1) .zero ++ rest))) = asReserved run :: kept (merged rest) := by
  have ends : ¬ mergeable (asReserved run) .zero = true := by
    rw [mergeable_eq_true]
    rintro (⟨-, high⟩ | ⟨-, same⟩)
    · exact absurd high (by decide)
    · exact asReserved_type_ne_zero typed same
  rw [List.replicate_succ, List.cons_append, merged, mergeRuns, if_neg ends,
    kept_cons_of_type (asReserved_type_ne_zero typed)]
  show _ :: kept (merged (List.replicate (k + 1) .zero ++ rest)) = _
  rw [kept_merged_zeroes _ word]

end Zeroes

/-! ## The run of the first MiB -/

section FirstRun

variable {run r : MemMapRegion} {rest : List MemMapRegion}

theorem asReserved_asReserved (r : MemMapRegion) : asReserved (asReserved r) = asReserved r := by
  by_cases high : r.type > e820MemTypeUsable
  · have : (asReserved r).type > e820MemTypeUsable := by rw [asReserved_reserved high]; decide
    rw [asReserved, if_pos this, asReserved, if_pos high]
  · rw [asReserved_of_low high, asReserved_of_low high]

/-- A reserved region of the given length at address 0. -/
def reservedTo (length : Nat) : MemMapRegion := ⟨0, length, e820MemTypeReserved⟩

theorem reservedTo_reserved (length : Nat) : asReserved (reservedTo length) = reservedTo length := rfl

theorem reservedTo_high (length : Nat) : (reservedTo length).type > e820MemTypeUsable := Nat.lt_succ_self 1

/-- The run takes in every region that is not usable, and adds its length. -/
theorem mergeRuns_reservedTo_append (length : Nat) (taken rest : List MemMapRegion)
    (high : ∀ e ∈ taken, e.type > e820MemTypeUsable) :
    mergeRuns (reservedTo (length % 2 ^ 64)) (taken ++ rest) =
      mergeRuns (reservedTo ((length + (taken.map MemMapRegion.length).sum) % 2 ^ 64)) rest := by
  induction taken generalizing length with
  | nil => simp
  | cons r taken ih =>
    rw [List.forall_mem_cons] at high
    have take : mergeable (reservedTo (length % 2 ^ 64)) r = true :=
      mergeable_eq_true.mpr (.inl ⟨reservedTo_high _, high.1⟩)
    have grown : combined (reservedTo (length % 2 ^ 64)) r = reservedTo ((length + r.length) % 2 ^ 64) := by
      show MemMapRegion.mk 0 (Word.add (length % 2 ^ 64) r.length) _ = _
      rw [Word.add, Nat.mod_add_mod]
      rfl
    rw [List.cons_append, mergeRuns, reservedTo_reserved, if_pos take, grown, ih _ high.2, List.map_cons, List.sum_cons,
      Nat.add_assoc]

/-- The run ends before a region that is usable or of no type. -/
theorem mergeRuns_reservedTo_cons (length : Nat) (low : ¬ r.type > e820MemTypeUsable) :
    mergeRuns (reservedTo length) (r :: rest) = reservedTo length :: mergeRuns r rest := by
  rw [mergeRuns, reservedTo_reserved, if_neg]
  rw [mergeable_eq_true]
  rintro (⟨-, high⟩ | ⟨-, same⟩)
  · exact low high
  · exact low (same ▸ reservedTo_high length)

theorem firstMb_eq : firstMb = reservedTo (0x100000 % 2 ^ 64) := by decide

/-- The regions before the first that is usable or of no type. -/
theorem exists_low (regions : List MemMapRegion) : (∀ e ∈ regions, e.type > e820MemTypeUsable) ∨
    ∃ taken r rest, regions = taken ++ r :: rest ∧ (∀ e ∈ taken, e.type > e820MemTypeUsable) ∧
      ¬ r.type > e820MemTypeUsable := by
  induction regions with
  | nil => exact .inl (by simp)
  | cons r rest ih =>
    by_cases high : r.type > e820MemTypeUsable
    · rcases ih with all | ⟨taken, q, rest, rfl, before, low⟩
      · exact .inl (List.forall_mem_cons.mpr ⟨high, all⟩)
      · exact .inr ⟨r :: taken, q, rest, rfl, List.forall_mem_cons.mpr ⟨high, before⟩, low⟩
    · exact .inr ⟨[], r, rest, rfl, by simp, high⟩

/-- Two regions at address 0 that are not usable merge the same way round and the other. -/
theorem mergeRuns_firstMb_comm (high : r.type > e820MemTypeUsable) (base : r.baseAddr = 0) :
    mergeRuns r (firstMb :: rest) = mergeRuns firstMb (r :: rest) := by
  have reserved := asReserved_reserved high
  have take : mergeable (asReserved r) firstMb = true :=
    mergeable_eq_true.mpr (.inl ⟨by rw [reserved]; decide, by decide⟩)
  have take' : mergeable (asReserved firstMb) r = true := mergeable_eq_true.mpr (.inl ⟨by decide, high⟩)
  have same : combined (asReserved r) firstMb = combined (asReserved firstMb) r := by
    have base' : (asReserved r).baseAddr = 0 := by rw [asReserved_baseAddr, base]
    show MemMapRegion.mk (asReserved r).baseAddr (Word.add (asReserved r).length 0x100000) (asReserved r).type =
      MemMapRegion.mk 0 (Word.add 0x100000 r.length) e820MemTypeReserved
    rw [base', reserved, asReserved_length, Word.add, Word.add, Nat.add_comm]
  rw [mergeRuns, if_pos take, mergeRuns, if_pos take', same]

end FirstRun

/-! ## What `mem_init` can return -/

section Outcomes

variable {b : MemMapBlock}

theorem ordered_word (map : BiosMap b) : ∀ e ∈ ordered b, e.length < 2 ^ 64 := by
  intro e mem
  have := (ordered_sorted map).bounded e mem
  omega

/-- The zeroed slots stand before and behind the first MiB. -/
theorem exists_zeroes {k : Nat} {front : List MemMapRegion} {r : MemMapRegion}
    (perm : front.Perm (List.replicate k .zero ++ [r])) :
    ∃ i j, i + j = k ∧ front = List.replicate i .zero ++ r :: List.replicate j .zero := by
  obtain ⟨before, behind, rfl⟩ := List.append_of_mem (perm.mem_iff.mpr (List.mem_append_right _ (List.mem_singleton_self r)))
  have zeroes : (before ++ behind).Perm (List.replicate k .zero) := by
    refine List.Perm.cons_inv (a := r) (List.perm_middle.symm.trans (perm.trans ?_))
    exact List.perm_append_comm
  rw [List.perm_replicate, List.append_eq_replicate_iff] at zeroes
  obtain ⟨length, left, right⟩ := zeroes
  exact ⟨before.length, behind.length, length, by rw [← left, ← right]⟩

/-- No region left at address 0: either the first MiB meets the other regions, or a zeroed slot keeps
it apart from them. -/
theorem merged_cases (map : BiosMap b) (above : ∀ e ∈ ordered b, 0 < e.baseAddr) {order : List MemMapRegion}
    (perm : order.Perm (withFirstMb b).entries) (sorted : ByBase order) :
    kept (merged order) = kept (mergeRuns firstMb (ordered b)) ∨
      (dropped b ≠ [] ∧ kept (merged order) = firstMb :: kept (merged (ordered b))) := by
  have perm' : order.Perm ((List.replicate (dropped b).length .zero ++ [firstMb]) ++ ordered b) := by
    rw [List.append_assoc]
    exact perm.trans (reserve_perm_ordered map)
  have zero : ∀ e ∈ List.replicate (dropped b).length MemMapRegion.zero ++ [firstMb], e.baseAddr = 0 := by
    intro e mem
    rcases List.mem_append.mp mem with mem | mem
    · rw [List.eq_of_mem_replicate mem]
      rfl
    · rw [List.mem_singleton.mp mem]
      rfl
  obtain ⟨front, frontPerm, rfl⟩ := exists_front perm' sorted zero above (ordered_sorted map)
  obtain ⟨i, j, count, rfl⟩ := exists_zeroes frontPerm
  have word := ordered_word map
  have words : ∀ e ∈ firstMb :: (List.replicate j .zero ++ ordered b), e.length < 2 ^ 64 := by
    intro e mem
    simp only [List.mem_cons, List.mem_append] at mem
    rcases mem with rfl | mem | mem
    · decide
    · rw [List.eq_of_mem_replicate mem]
      decide
    · exact word e mem
  rw [List.append_assoc, List.cons_append, kept_merged_zeroes i words]
  cases j with
  | zero => exact .inl rfl
  | succ j =>
    refine .inr ⟨fun none => ?_, kept_merged_typed_zeroes j (by decide) word⟩
    rw [none, List.length_nil] at count
    omega

theorem perm_pair {front : List MemMapRegion} {x y : MemMapRegion} (perm : front.Perm [x, y]) :
    front = [x, y] ∨ front = [y, x] := by
  match front, perm.length_eq with
  | [a, c], _ =>
    rcases List.mem_cons.mp (perm.mem_iff.mp (List.mem_cons_self ..)) with rfl | mem
    · rw [List.singleton_perm.mp (List.Perm.cons_inv perm).symm |>.symm]
      exact .inl rfl
    · obtain rfl := List.mem_singleton.mp mem
      rw [List.singleton_perm.mp (List.Perm.cons_inv (perm.trans (.swap ..))).symm |>.symm]
      exact .inr rfl

/-- Nothing zeroed, and what begins at address 0 is not usable: the order does not matter. -/
theorem merged_of_kept_all (map : BiosMap b) (all : dropped b = [])
    (high : ∀ e ∈ ordered b, e.baseAddr = 0 → e.type > e820MemTypeUsable) {order : List MemMapRegion}
    (perm : order.Perm (withFirstMb b).entries) (sorted : ByBase order) :
    kept (merged order) = kept (mergeRuns firstMb (ordered b)) := by
  by_cases above : ∀ e ∈ ordered b, 0 < e.baseAddr
  · exact (merged_cases map above perm sorted).resolve_right fun h => h.1 all
  · have apart := ordered_sorted map
    have perm' := perm.trans (reserve_perm_ordered map)
    rw [all, List.length_nil, List.replicate_zero, List.nil_append] at perm'
    cases list : ordered b with
    | nil => simp [list] at above
    | cons r rest =>
      rw [list] at perm' apart high above
      have base : r.baseAddr = 0 := by
        by_contra pos
        refine above (List.forall_mem_cons.mpr ⟨by omega, apart.pos⟩)
      obtain ⟨front, frontPerm, rfl⟩ := exists_front (show order.Perm ([firstMb, r] ++ rest) from perm') sorted
        (by simp [base, firstMb]) apart.pos (laid_cons.mp apart).2.2.2
      rcases perm_pair frontPerm with rfl | rfl
      · rfl
      · exact congrArg kept (mergeRuns_firstMb_comm (high r (List.mem_cons_self ..) base) base)

/-- If one region only is left, the others are all zeroed. -/
theorem slot_zero (map : BiosMap b) (one : (ordered b).length ≤ 1) {i : Nat} (inside : i + 1 < b.numEntries) :
    (withFirstMb b).memRegion i = .zero := by
  have room := map.room
  have below : belowFirstMb (b.memRegion i) := by
    rw [(ordered_perm b).length_eq, remaining, entries] at one
    obtain ⟨m, count⟩ : ∃ m, b.numEntries = m + 1 := ⟨b.numEntries - 1, by omega⟩
    rw [count, List.range_succ, List.map_append, List.map_singleton, List.dropLast_concat, List.getLast?_concat,
      List.length_append, Option.toList_some, List.length_singleton] at one
    have none := List.filter_eq_nil_iff.mp (List.length_eq_zero_iff.mp (Nat.le_zero.mp (Nat.le_of_add_le_add_right
      (show _ + 1 ≤ 0 + 1 from one)))) (b.memRegion i) (List.mem_map.mpr ⟨i, List.mem_range.mpr (by omega), rfl⟩)
    simpa using none
  show (if i = b.numEntries then firstMb else
    if i < Word.sub b.numEntries 1 ∧ belowFirstMb (b.memRegion i) then .zero else b.memRegion i) = _
  rw [if_neg (by omega), if_pos ⟨by rw [Word.sub_of_le (by omega) (by omega)]; omega, below⟩]

/-- Every order is reached if some region does not begin at address 0, or if there are three. -/
theorem reaches_order (map : BiosMap b) (some : 0 < b.numEntries)
    (free : (∃ e ∈ ordered b, 0 < e.baseAddr) ∨ 3 ≤ b.numEntries) {order : List MemMapRegion}
    (perm : order.Perm (List.replicate (dropped b).length .zero ++ firstMb :: ordered b)) (sorted : ByBase order) :
    ∃ rand blocks, memInit rand b = .ok (blocks, calcPhysMemoryStats blocks) ∧
      blocks.entries = kept (merged order) := by
  have inE : ∀ e, e ∈ firstMb :: ordered b → e ∈ (withFirstMb b).entries := fun e mem =>
    (reserve_perm_ordered map).mem_iff.mpr (List.mem_append_right _ mem)
  refine memInit_reaches map some ?_ (perm.trans (reserve_perm_ordered map).symm) sorted
  by_cases above : ∃ e ∈ ordered b, 0 < e.baseAddr
  · obtain ⟨e, mem, pos⟩ := above
    refine .inl ?_
    by_cases zero : ((withFirstMb b).memRegion 0).baseAddr = 0
    · exact ⟨e, inE e (List.mem_cons_of_mem _ mem), by omega⟩
    · exact ⟨firstMb, inE firstMb (List.mem_cons_self ..), fun same => zero (same ▸ rfl)⟩
  · have three := free.resolve_left above
    have one : (ordered b).length ≤ 1 := by
      have apart := ordered_sorted map
      rcases list : ordered b with _ | ⟨r, _ | ⟨f, rest⟩⟩
      · exact Nat.zero_le 1
      · exact Nat.le_refl 1
      · rw [list] at apart above
        exact absurd ⟨f, by simp, apart.pos f (List.mem_cons_self ..)⟩ above
    refine .inr ?_
    rw [slot_zero map one (show 0 + 1 < b.numEntries by omega), slot_zero map one (show 1 + 1 < b.numEntries by omega)]

end Outcomes

/-! ### One region at address 0, behind one that is zeroed -/

/-- Two entries: one that ends below 1 MiB, and behind it one that begins at address 0. -/
structure OneBehindOne (b : MemMapBlock) : Prop where
  numEntries : b.numEntries = 2
  below : belowFirstMb (b.memRegion 0)
  base : (b.memRegion 1).baseAddr = 0

/-- The orders of three items that `qsort` can get when all keys are equal. -/
theorem three_cases {τ : Equiv.Perm Nat} (within : Within 0 2 τ) (first : τ 0 ≠ 0) :
    (τ 0 = 1 ∧ τ 1 = 0 ∧ τ 2 = 2) ∨ (τ 0 = 1 ∧ τ 1 = 2 ∧ τ 2 = 0) ∨
      (τ 0 = 2 ∧ τ 1 = 0 ∧ τ 2 = 1) ∨ (τ 0 = 2 ∧ τ 1 = 1 ∧ τ 2 = 0) := by
  have h0 := (within.inside (Nat.le_refl 0) (by decide)).2
  have h1 := (within.inside (Nat.zero_le 1) (by decide)).2
  have h2 := (within.inside (Nat.zero_le 2) (by decide)).2
  have ne01 : τ 0 ≠ τ 1 := τ.injective.ne (by decide)
  have ne02 : τ 0 ≠ τ 2 := τ.injective.ne (by decide)
  have ne12 : τ 1 ≠ τ 2 := τ.injective.ne (by decide)
  obtain at0 | at0 : τ 0 = 1 ∨ τ 0 = 2 := by omega
  · obtain at1 | at1 : τ 1 = 0 ∨ τ 1 = 2 := by omega
    · exact .inl ⟨at0, at1, by omega⟩
    · exact .inr (.inl ⟨at0, at1, by omega⟩)
  · obtain at1 | at1 : τ 1 = 0 ∨ τ 1 = 1 := by omega
    · exact .inr (.inr (.inl ⟨at0, at1, by omega⟩))
    · exact .inr (.inr (.inr ⟨at0, at1, by omega⟩))

namespace OneBehindOne

variable {b : MemMapBlock}

theorem some (shape : OneBehindOne b) : 0 < b.numEntries := by
  rw [shape.numEntries]
  decide

theorem slots (shape : OneBehindOne b) : (withFirstMb b).memRegion 0 = .zero ∧
    (withFirstMb b).memRegion 1 = b.memRegion 1 ∧ (withFirstMb b).memRegion 2 = firstMb := by
  have all : ∀ i, (withFirstMb b).memRegion i = if i = b.numEntries then firstMb else
      if i < Word.sub b.numEntries 1 ∧ belowFirstMb (b.memRegion i) then .zero else b.memRegion i := fun _ => rfl
  rw [shape.numEntries] at all
  refine ⟨?_, ?_, ?_⟩
  · rw [all, if_neg (by decide), if_pos ⟨by decide, shape.below⟩]
  · rw [all, if_neg (by decide), if_neg fun h => absurd h.1 (by decide)]
  · rw [all, if_pos rfl]

theorem equal (shape : OneBehindOne b) (i j : Nat) (inside : i < 3) (inside' : j < 3) :
    ¬ qsortCmpMemRegion ((withFirstMb b).memRegion i) ((withFirstMb b).memRegion j) < 0 := by
  have zero : ∀ k, k < 3 → ((withFirstMb b).memRegion k).baseAddr = 0 := by
    intro k small
    obtain ⟨slot0, slot1, slot2⟩ := shape.slots
    rcases (by omega : k = 0 ∨ k = 1 ∨ k = 2) with rfl | rfl | rfl
    · rw [slot0]; rfl
    · rw [slot1, shape.base]
    · rw [slot2]; rfl
  rw [comparesBy_baseAddr, zero i inside, zero j inside']
  exact Nat.lt_irrefl 0

/-- The zeroed slot is never in the middle. -/
theorem returns (shape : OneBehindOne b) (map : BiosMap b) (rand : Nat → Nat) :
    ∃ blocks order, memInit rand b = .ok (blocks, calcPhysMemoryStats blocks) ∧ blocks.entries = kept (merged order) ∧
      (order = [firstMb, b.memRegion 1, .zero] ∨ order = [.zero, b.memRegion 1, firstMb] ∨
        order = [b.memRegion 1, firstMb, .zero] ∨ order = [.zero, firstMb, b.memRegion 1]) := by
  obtain ⟨regions, blocks, run, -, -, init, entries⟩ := memInit_returns map shape.some rand
  obtain ⟨τ, sorted, within, first, run', list⟩ := qsort_three shape.equal rand
  rw [shape.numEntries] at run entries
  obtain rfl := Except.ok.inj (run.symm.trans run')
  refine ⟨blocks, _, init, entries, ?_⟩
  obtain ⟨slot0, slot1, slot2⟩ := shape.slots
  rw [list]
  rcases three_cases within first with ⟨h0, h1, h2⟩ | ⟨h0, h1, h2⟩ | ⟨h0, h1, h2⟩ | ⟨h0, h1, h2⟩
  · rw [h0, h1, h2, slot0, slot1, slot2]
    exact .inl rfl
  · rw [h0, h1, h2, slot0, slot1, slot2]
    exact .inr (.inl rfl)
  · rw [h0, h1, h2, slot0, slot1, slot2]
    exact .inr (.inr (.inl rfl))
  · rw [h0, h1, h2, slot0, slot1, slot2]
    exact .inr (.inr (.inr rfl))

/-- The first MiB and the region come out in both orders. -/
theorem reaches (shape : OneBehindOne b) (map : BiosMap b) {order : List MemMapRegion}
    (either : order = [.zero, firstMb, b.memRegion 1] ∨ order = [.zero, b.memRegion 1, firstMb]) :
    ∃ rand blocks, memInit rand b = .ok (blocks, calcPhysMemoryStats blocks) ∧
      blocks.entries = kept (merged order) := by
  obtain ⟨slot0, slot1, slot2⟩ := shape.slots
  have reach : ∀ τ : Equiv.Perm Nat, Within 0 2 τ → τ 0 ≠ 0 →
      order = [(withFirstMb b).memRegion (τ 2), (withFirstMb b).memRegion (τ 0),
        (withFirstMb b).memRegion (τ 1)] →
      ∃ rand blocks, memInit rand b = .ok (blocks, calcPhysMemoryStats blocks) ∧
        blocks.entries = kept (merged order) := by
    intro τ within first list
    obtain ⟨rand, sorted, run, list'⟩ := qsort_three_reaches shape.equal within first
    obtain ⟨regions, blocks, run', -, -, init, entries⟩ := memInit_returns map shape.some rand
    rw [shape.numEntries] at run' entries
    obtain rfl := Except.ok.inj (run.symm.trans run')
    exact ⟨rand, blocks, init, by rw [entries, list, ← list']⟩
  rcases either with rfl | rfl
  · refine reach (Equiv.swap 0 2) (.swap (by decide) (by decide) (by decide) (by decide)) (by decide) ?_
    rw [show Equiv.swap 0 2 2 = 0 by decide, show Equiv.swap 0 2 0 = 2 by decide,
      show Equiv.swap 0 2 1 = 1 by decide, slot0, slot1, slot2]
  · refine reach (Equiv.swap 0 1 * Equiv.swap 1 2) (Within.mul (.swap (by decide) (by decide) (by decide) (by decide))
      (.swap (by decide) (by decide) (by decide) (by decide))) (by decide) ?_
    rw [show (Equiv.swap 0 1 * Equiv.swap 1 2 : Equiv.Perm Nat) 2 = 0 by decide,
      show (Equiv.swap 0 1 * Equiv.swap 1 2 : Equiv.Perm Nat) 0 = 1 by decide,
      show (Equiv.swap 0 1 * Equiv.swap 1 2 : Equiv.Perm Nat) 1 = 2 by decide, slot0, slot1, slot2]

end OneBehindOne

section Alone

variable {r : MemMapRegion}

theorem kept_mergeRuns_zero (word : r.length < 2 ^ 64) : kept (mergeRuns r [.zero]) = kept [asReserved r] := by
  rw [mergeRuns]
  split
  · rw [combined_zero (by rwa [asReserved_length]) rfl, mergeRuns, asReserved_asReserved]
  · rw [kept_cons, mergeRuns, show kept [asReserved .zero] = [] by decide, List.append_nil]

theorem mergeRuns_firstMb_low (low : ¬ r.type > e820MemTypeUsable) (rest : List MemMapRegion) :
    mergeRuns firstMb (r :: rest) = firstMb :: mergeRuns r rest := by
  rw [firstMb_eq]
  exact mergeRuns_reservedTo_cons _ low

theorem mergeRuns_low_firstMb (low : ¬ r.type > e820MemTypeUsable) (rest : List MemMapRegion) :
    mergeRuns r (firstMb :: rest) = r :: mergeRuns firstMb rest := by
  rw [mergeRuns, asReserved_of_low low, if_neg]
  rw [mergeable_eq_true]
  rintro (⟨high, -⟩ | ⟨-, same⟩)
  · exact low high
  · exact low (same ▸ by decide)

theorem words_beside_firstMb (word : r.length < 2 ^ 64) :
    (∀ e ∈ [firstMb, r], e.length < 2 ^ 64) ∧ ∀ e ∈ [r, firstMb], e.length < 2 ^ 64 := by
  simp only [List.forall_mem_cons, List.not_mem_nil, false_implies, implies_true, and_true]
  exact ⟨⟨by decide, word⟩, word, by decide⟩

/-- A region that is usable or of no type stands beside the first MiB. -/
theorem alone_low (low : ¬ r.type > e820MemTypeUsable) (pos : 0 < r.length) (word : r.length < 2 ^ 64) :
    (∀ order ∈ [[firstMb, r], [firstMb, r, .zero], [.zero, firstMb, r]], kept (merged order) = [firstMb, r]) ∧
      ∀ order ∈ [[r, firstMb], [r, firstMb, .zero], [.zero, r, firstMb]], kept (merged order) = [r, firstMb] := by
  obtain ⟨words, words'⟩ := words_beside_firstMb word
  have keep : kept [r] = [r] := kept_cons_of_pos pos
  have typed : firstMb.type ≠ 0 := by decide
  have pair : kept (merged [firstMb, r]) = [firstMb, r] := by
    rw [merged, mergeRuns_firstMb_low low, mergeRuns, asReserved_of_low low, kept_cons_of_type typed, keep]
  have pair' : kept (merged [r, firstMb]) = [r, firstMb] := by
    rw [merged, mergeRuns_low_firstMb low, kept_cons_of_pos pos, show kept (mergeRuns firstMb []) = [firstMb] by decide]
  simp only [List.forall_mem_cons, List.not_mem_nil, false_implies, implies_true, and_true]
  refine ⟨⟨pair, ?_, ?_⟩, pair', ?_, ?_⟩
  · rw [merged, mergeRuns_firstMb_low low, kept_cons_of_type typed, kept_mergeRuns_zero word, asReserved_of_low low, keep]
  · rw [kept_merged_zero words, pair]
  · rw [merged, mergeRuns_low_firstMb low, kept_cons_of_pos pos,
      show kept (mergeRuns firstMb [.zero]) = [firstMb] by decide]
  · rw [kept_merged_zero words', pair']

/-- A region that is not usable merges with the first MiB. -/
theorem alone_high (high : r.type > e820MemTypeUsable) (base : r.baseAddr = 0) (word : r.length < 2 ^ 64) :
    ∀ order ∈ [[firstMb, r, .zero], [.zero, r, firstMb], [r, firstMb, .zero], [.zero, firstMb, r]],
      kept (merged order) = [reservedTo ((0x100000 + r.length) % 2 ^ 64)] := by
  obtain ⟨words, words'⟩ := words_beside_firstMb word
  have run : ∀ rest, mergeRuns firstMb (r :: rest) = mergeRuns (reservedTo ((0x100000 + r.length) % 2 ^ 64)) rest := by
    intro rest
    have := mergeRuns_reservedTo_append 0x100000 [r] rest (by simpa using high)
    simpa only [List.singleton_append, ← firstMb_eq, List.map_singleton, List.sum_singleton] using this
  have typed : (reservedTo ((0x100000 + r.length) % 2 ^ 64)).type ≠ 0 := Nat.succ_ne_zero 1
  have keep : kept [reservedTo ((0x100000 + r.length) % 2 ^ 64)] = [reservedTo ((0x100000 + r.length) % 2 ^ 64)] :=
    kept_cons_of_type typed
  have pair : kept (merged [firstMb, r]) = [reservedTo ((0x100000 + r.length) % 2 ^ 64)] := by
    rw [merged, run, mergeRuns, reservedTo_reserved, keep]
  have ended : kept (merged [firstMb, r, .zero]) = [reservedTo ((0x100000 + r.length) % 2 ^ 64)] := by
    rw [merged, run, kept_mergeRuns_zero (Nat.mod_lt _ (by decide)), reservedTo_reserved, keep]
  simp only [List.forall_mem_cons, List.not_mem_nil, false_implies, implies_true, and_true]
  refine ⟨ended, ?_, ?_, ?_⟩
  · rw [kept_merged_zero words', merged, mergeRuns_firstMb_comm high base]
    exact pair
  · rw [merged, mergeRuns_firstMb_comm high base]
    exact ended
  · rw [kept_merged_zero words, pair]

end Alone

section Orders

variable {b : MemMapBlock}

/-- With two entries and one region left, the first entry is zeroed and the second is left. -/
theorem oneBehindOne_of_ordered {r : MemMapRegion} (two : b.numEntries = 2) (list : ordered b = [r]) (base : r.baseAddr = 0) :
    OneBehindOne b ∧ r = b.memRegion 1 := by
  have perm := ordered_perm b
  have listed : remaining b = [b.memRegion 0, b.memRegion 1] ∨
      (belowFirstMb (b.memRegion 0) ∧ remaining b = [b.memRegion 1]) := by
    have entries : b.entries = [b.memRegion 0, b.memRegion 1] := by rw [entries, two]; rfl
    by_cases below : belowFirstMb (b.memRegion 0)
    · refine .inr ⟨below, ?_⟩
      simp [remaining, entries, below]
    · refine .inl ?_
      simp [remaining, entries, below]
  rw [list] at perm
  rcases listed with both | ⟨below, last⟩
  · have := perm.length_eq
    rw [both] at this
    cases this
  · rw [last] at perm
    obtain rfl := List.cons.inj (List.singleton_perm.mp perm) |>.1
    exact ⟨⟨two, below, base⟩, rfl⟩

/-- A reserved region at address 0 behind a zeroed one merges with the first MiB in every order. -/
theorem OneBehindOne.returns_high (shape : OneBehindOne b) (map : BiosMap b)
    (high : (b.memRegion 1).type > e820MemTypeUsable) (rand : Nat → Nat) :
    ∃ blocks, memInit rand b = .ok (blocks, calcPhysMemoryStats blocks) ∧
      blocks.entries = [reservedTo ((0x100000 + (b.memRegion 1).length) % 2 ^ 64)] := by
  have word : (b.memRegion 1).length < 2 ^ 64 := by
    have := map.bounded (b.memRegion 1) (mem_entries.mpr ⟨1, by rw [shape.numEntries]; decide, rfl⟩)
    omega
  obtain ⟨blocks, order, init, entries, cases⟩ := shape.returns map rand
  refine ⟨blocks, init, entries.trans (alone_high high shape.base word order ?_)⟩
  simpa using cases

/-- The first run, with the regions it takes in and what follows. -/
theorem mergeRuns_firstMb (taken rest : List MemMapRegion) (high : ∀ e ∈ taken, e.type > e820MemTypeUsable) :
    mergeRuns firstMb (taken ++ rest) =
      mergeRuns (reservedTo ((0x100000 + (taken.map MemMapRegion.length).sum) % 2 ^ 64)) rest := by
  rw [firstMb_eq]
  exact mergeRuns_reservedTo_append _ taken rest high

/-- A zeroed slot before the first MiB, and one behind it. -/
theorem reaches_apart (map : BiosMap b) (some : 0 < b.numEntries) (zeroed : dropped b ≠ [])
    (free : (∃ e ∈ ordered b, 0 < e.baseAddr) ∨ 3 ≤ b.numEntries) :
    (∃ rand blocks, memInit rand b = .ok (blocks, calcPhysMemoryStats blocks) ∧
      blocks.entries = kept (merged (firstMb :: ordered b))) ∧
    ∃ rand blocks, memInit rand b = .ok (blocks, calcPhysMemoryStats blocks) ∧
      blocks.entries = firstMb :: kept (merged (ordered b)) := by
  have word := ordered_word map
  have words : ∀ e ∈ firstMb :: ordered b, e.length < 2 ^ 64 := List.forall_mem_cons.mpr ⟨by decide, word⟩
  obtain ⟨k, count⟩ : ∃ k, (dropped b).length = k + 1 :=
    ⟨(dropped b).length - 1, by have := List.length_pos_iff.mpr zeroed; omega⟩
  have zeroes : ∀ e ∈ List.replicate (dropped b).length MemMapRegion.zero ++ [firstMb], e.baseAddr = 0 := by
    intro e mem
    rcases List.mem_append.mp mem with mem | mem
    · rw [List.eq_of_mem_replicate mem]
      rfl
    · rw [List.mem_singleton.mp mem]
      rfl
  constructor
  · rw [← kept_merged_zeroes (dropped b).length words]
    refine reaches_order map some free (.refl _) ?_
    simpa using byBase_append zeroes (ordered_sorted map).byBase
  · have swapped : ∀ e ∈ [firstMb] ++ List.replicate (dropped b).length MemMapRegion.zero, e.baseAddr = 0 := by
      intro e mem
      rw [List.mem_append, or_comm, ← List.mem_append] at mem
      exact zeroes e mem
    have sorted := byBase_append swapped (ordered_sorted map).byBase
    rw [List.append_assoc, List.singleton_append] at sorted
    obtain ⟨rand, blocks, init, entries⟩ := reaches_order map some free List.perm_middle.symm sorted
    refine ⟨rand, blocks, init, entries.trans ?_⟩
    rw [count, kept_merged_typed_zeroes k (by decide) word]
    rfl

end Orders

end AlmeidaOS.Kernel
