import AlmeidaOS.Laws.Arch.MemOrder

/-!
# The memory behind the managed range

`mm_init` sizes the allocator's range by the sum of all lengths, which says nothing about where the
regions are. Merging adds up the lengths of regions that are not usable and stand together, wherever
they are, so such a group covers as many addresses from its first base address on as its regions have
together (`backed_mergeRuns_iff`). The range holds no address without memory exactly when the regions,
with the first MiB among them, stand for every address below its end (`managed_range_iff`).
-/

namespace AlmeidaOS.Kernel

open MemMapBlock

/-! ## What regions stand for -/

/-- The regions of a group are not usable and stand together: a region before or behind them in the list
is usable or of no type. -/
def Together (regions group : List MemMapRegion) : Prop :=
  ∃ before behind, regions = before ++ (group ++ behind) ∧ (∀ e ∈ group, e.type > e820MemTypeUsable) ∧
    (∀ e ∈ before.getLast?, e.type ≤ e820MemTypeUsable) ∧ ∀ e ∈ behind.head?, e.type ≤ e820MemTypeUsable

/-- A usable region stands for its addresses. A group stands for as many as its regions have together,
from the first one's base address on. -/
def StandsFor (regions : List MemMapRegion) (x : Nat) : Prop :=
  InType e820MemTypeUsable regions x ∨ ∃ first group, Together regions (first :: group) ∧
    first.baseAddr ≤ x ∧ x < first.baseAddr + totalLength (first :: group)

section StandsFor

variable {run r first : MemMapRegion} {rest group : List MemMapRegion} {x : Nat}

/-- A group begins with the first region of the list or is a group of the others; then the first region does
not stand right before it, unless that is usable or of no type. -/
theorem together_cons : Together (run :: rest) (first :: group) ↔
    (first = run ∧ ∃ behind, rest = group ++ behind ∧ (∀ e ∈ first :: group, e.type > e820MemTypeUsable) ∧
      ∀ e ∈ behind.head?, e.type ≤ e820MemTypeUsable) ∨
    ∃ before behind, rest = before ++ (first :: group ++ behind) ∧ (∀ e ∈ first :: group, e.type > e820MemTypeUsable) ∧
      (∀ e ∈ (run :: before).getLast?, e.type ≤ e820MemTypeUsable) ∧ ∀ e ∈ behind.head?, e.type ≤ e820MemTypeUsable := by
  constructor
  · rintro ⟨before, behind, list, high, low, low'⟩
    rcases List.cons_eq_append_iff.mp list with ⟨rfl, whole⟩ | ⟨before, rfl, tail⟩
    · obtain ⟨rfl, rfl⟩ := List.cons.inj whole
      exact .inl ⟨rfl, behind, rfl, high, low'⟩
    · exact .inr ⟨before, behind, tail, high, low, low'⟩
  · rintro (⟨rfl, behind, rfl, high, low⟩ | ⟨before, behind, rfl, high, low, low'⟩)
    · exact ⟨[], behind, rfl, high, by simp, low⟩
    · exact ⟨run :: before, behind, rfl, high, low, low'⟩

/-- Only the last region matters. -/
theorem getLast_cons_low {before : List MemMapRegion} : (∀ e ∈ (run :: before).getLast?, e.type ≤ e820MemTypeUsable) ↔
    (before = [] ∧ run.type ≤ e820MemTypeUsable) ∨
      (before ≠ [] ∧ ∀ e ∈ before.getLast?, e.type ≤ e820MemTypeUsable) := by
  cases before with
  | nil => simp
  | cons e before => simp

/-- A region that is usable or of no type is in no group. -/
theorem together_cons_low (low : run.type ≤ e820MemTypeUsable) :
    Together (run :: rest) (first :: group) ↔ Together rest (first :: group) := by
  rw [together_cons]
  constructor
  · rintro (⟨rfl, -, -, high, -⟩ | ⟨before, behind, list, high, ends, low'⟩)
    · have := high first (List.mem_cons_self ..)
      omega
    · refine ⟨before, behind, list, high, ?_, low'⟩
      rcases getLast_cons_low.mp ends with ⟨rfl, -⟩ | ⟨-, ends⟩
      · simp
      · exact ends
  · rintro ⟨before, behind, list, high, ends, low'⟩
    refine .inr ⟨before, behind, list, high, getLast_cons_low.mpr ?_, low'⟩
    by_cases none : before = []
    · exact .inl ⟨none, low⟩
    · exact .inr ⟨none, ends⟩

/-- A region that is not usable, before one that is or has no type, is a group of its own. -/
theorem together_cons_alone (high : run.type > e820MemTypeUsable) (next : ∀ e ∈ rest.head?, e.type ≤ e820MemTypeUsable) :
    Together (run :: rest) (first :: group) ↔ (first = run ∧ group = []) ∨ Together rest (first :: group) := by
  rw [together_cons]
  refine or_congr ⟨?_, ?_⟩ ⟨?_, ?_⟩
  · rintro ⟨rfl, behind, rfl, highs, -⟩
    refine ⟨rfl, ?_⟩
    cases group with
    | nil => rfl
    | cons e group =>
      have := next e (by simp)
      have := highs e (by simp)
      omega
  · rintro ⟨rfl, rfl⟩
    exact ⟨rfl, rest, rfl, by simpa using high, next⟩
  · rintro ⟨before, behind, list, highs, ends, low⟩
    rcases getLast_cons_low.mp ends with ⟨-, low⟩ | ⟨-, ends⟩
    · omega
    · exact ⟨before, behind, list, highs, ends, low⟩
  · rintro ⟨before, behind, rfl, highs, ends, low⟩
    refine ⟨before, behind, rfl, highs, getLast_cons_low.mpr (.inr ⟨?_, ends⟩), low⟩
    rintro rfl
    have := next first (by simp)
    have := highs first (List.mem_cons_self ..)
    omega

/-- Two regions that are not usable are in one group, or in none that is looked at. -/
theorem together_cons_both (high : run.type > e820MemTypeUsable) (high' : r.type > e820MemTypeUsable) :
    Together (run :: r :: rest) (first :: group) ↔
      (first = run ∧ ∃ more behind, group = r :: more ∧ rest = more ++ behind ∧ (∀ e ∈ more, e.type > e820MemTypeUsable) ∧
        ∀ e ∈ behind.head?, e.type ≤ e820MemTypeUsable) ∨
      ∃ before behind, rest = before ++ (first :: group ++ behind) ∧ (∀ e ∈ first :: group, e.type > e820MemTypeUsable) ∧
        before ≠ [] ∧ (∀ e ∈ before.getLast?, e.type ≤ e820MemTypeUsable) ∧ ∀ e ∈ behind.head?, e.type ≤ e820MemTypeUsable := by
  rw [together_cons]
  refine or_congr ⟨?_, ?_⟩ ⟨?_, ?_⟩
  · rintro ⟨rfl, behind, list, highs, low⟩
    cases group with
    | nil =>
      obtain rfl : r :: rest = behind := list
      have := low r (by simp)
      omega
    | cons e group =>
      obtain ⟨rfl, rfl⟩ := List.cons.inj list
      exact ⟨rfl, group, behind, rfl, rfl, fun e mem => highs e (by simp [mem]), low⟩
  · rintro ⟨rfl, more, behind, rfl, rfl, highs, low⟩
    refine ⟨rfl, behind, rfl, ?_, low⟩
    simp only [List.forall_mem_cons]
    exact ⟨high, high', highs⟩
  · rintro ⟨before, behind, list, highs, ends, low⟩
    rcases getLast_cons_low.mp ends with ⟨-, low⟩ | ⟨some, ends⟩
    · omega
    · rcases List.cons_eq_append_iff.mp list with ⟨rfl, -⟩ | ⟨before, rfl, tail⟩
      · exact absurd rfl some
      · rcases getLast_cons_low.mp ends with ⟨-, low⟩ | ⟨some, ends⟩
        · omega
        · exact ⟨before, behind, tail, highs, some, ends, low⟩
  · rintro ⟨before, behind, rfl, highs, some, ends, low⟩
    exact ⟨r :: before, behind, rfl, highs,
      getLast_cons_low.mpr (.inr ⟨List.cons_ne_nil _ _, getLast_cons_low.mpr (.inr ⟨some, ends⟩)⟩), low⟩

theorem standsFor_nil : ¬ StandsFor [] x := by
  rintro (⟨e, mem, -⟩ | ⟨first, group, ⟨before, behind, list, -⟩, -⟩)
  · cases mem
  · simp at list

theorem standsFor_cons_low (low : run.type ≤ e820MemTypeUsable) :
    StandsFor (run :: rest) x ↔ (run.type = e820MemTypeUsable ∧ run.Mem x) ∨ StandsFor rest x := by
  simp only [StandsFor, inType_cons, together_cons_low low, or_assoc]

theorem standsFor_cons_alone (high : run.type > e820MemTypeUsable) (word : run.length < 2 ^ 64)
    (next : ∀ e ∈ rest.head?, e.type ≤ e820MemTypeUsable) :
    StandsFor (run :: rest) x ↔ run.Mem x ∨ StandsFor rest x := by
  have alone : totalLength [run] = run.length := by
    rw [totalLength, List.map_singleton, List.sum_singleton, Nat.mod_eq_of_lt word]
  simp only [StandsFor, inType_cons, together_cons_alone high next, Nat.ne_of_gt high, false_and, false_or]
  constructor
  · rintro (usable | ⟨first, group, ⟨rfl, rfl⟩ | together, from_, upto⟩)
    · exact .inr (.inl usable)
    · rw [alone] at upto
      exact .inl ⟨from_, upto⟩
    · exact .inr (.inr ⟨first, group, together, from_, upto⟩)
  · rintro (⟨from_, upto⟩ | usable | ⟨first, group, together, from_, upto⟩)
    · exact .inr ⟨run, [], .inl ⟨rfl, rfl⟩, from_, alone.symm ▸ upto⟩
    · exact .inl usable
    · exact .inr ⟨first, group, .inr together, from_, upto⟩

/-- Two neighbours that are not usable stand for what they are combined to. -/
theorem standsFor_cons_both (high : run.type > e820MemTypeUsable) (high' : r.type > e820MemTypeUsable) :
    StandsFor (run :: r :: rest) x ↔ StandsFor (combined (asReserved run) r :: rest) x := by
  have reserved : (combined (asReserved run) r).type > e820MemTypeUsable := by
    show (asReserved run).type > _
    rw [asReserved_reserved high]
    decide
  have sum : ∀ more, totalLength (run :: r :: more) = totalLength (combined (asReserved run) r :: more) := by
    intro more
    rw [totalLength_cons, totalLength_cons r, totalLength_cons, Nat.add_mod_mod, ← Nat.add_assoc]
    show _ = (Word.add (asReserved run).length r.length + _) % _
    rw [asReserved_length, Word.add, Nat.mod_add_mod]
  simp only [StandsFor, inType_cons, Nat.ne_of_gt high, Nat.ne_of_gt high', Nat.ne_of_gt reserved, false_and, false_or]
  refine or_congr_right ⟨?_, ?_⟩
  · rintro ⟨first, group, together, from_, upto⟩
    rcases (together_cons_both high high').mp together with
      ⟨rfl, more, behind, rfl, rfl, highs, low⟩ | ⟨before, behind, list, highs, some, ends, low⟩
    · refine ⟨_, more, together_cons.mpr (.inl ⟨rfl, behind, rfl, ?_, low⟩), ?_, ?_⟩
      · exact List.forall_mem_cons.mpr ⟨reserved, highs⟩
      · rwa [combined_baseAddr]
      · rwa [combined_baseAddr, ← sum]
    · exact ⟨first, group, together_cons.mpr (.inr ⟨before, behind, list, highs,
        getLast_cons_low.mpr (.inr ⟨some, ends⟩), low⟩), from_, upto⟩
  · rintro ⟨first, group, together, from_, upto⟩
    rcases together_cons.mp together with ⟨rfl, behind, rfl, highs, low⟩ | ⟨before, behind, list, highs, ends, low⟩
    · refine ⟨run, r :: group, (together_cons_both high high').mpr (.inl ⟨rfl, group, behind, rfl, rfl, ?_, low⟩), ?_, ?_⟩
      · exact (List.forall_mem_cons.mp highs).2
      · rwa [combined_baseAddr] at from_
      · rwa [combined_baseAddr, ← sum] at upto
    · rcases getLast_cons_low.mp ends with ⟨-, low⟩ | ⟨some, ends⟩
      · omega
      · exact ⟨first, group, (together_cons_both high high').mpr (.inr ⟨before, behind, list, highs, some, ends, low⟩),
          from_, upto⟩

/-- Regions that are usable or of no type in front of others. -/
theorem standsFor_append_low {l : List MemMapRegion} (low : ∀ e ∈ l, e.type ≤ e820MemTypeUsable) :
    StandsFor (l ++ rest) x ↔ InType e820MemTypeUsable l x ∨ StandsFor rest x := by
  induction l with
  | nil =>
    refine (or_iff_right ?_).symm
    rintro ⟨e, mem, -⟩
    cases mem
  | cons e l ih =>
    rw [List.forall_mem_cons] at low
    rw [List.cons_append, standsFor_cons_low low.1, ih low.2, inType_cons, or_assoc]

/-- One region that is not usable, among others that are usable or of no type, in whatever order. -/
theorem standsFor_beside {list lows : List MemMapRegion} (high : run.type > e820MemTypeUsable) (word : run.length < 2 ^ 64)
    (low : ∀ e ∈ lows, e.type ≤ e820MemTypeUsable) (perm : list.Perm (run :: lows)) :
    StandsFor list x ↔ InType e820MemTypeUsable lows x ∨ run.Mem x := by
  obtain ⟨before, behind, rfl⟩ := List.append_of_mem (perm.mem_iff.mpr (List.mem_cons_self ..))
  have others : (before ++ behind).Perm lows := List.Perm.cons_inv (List.perm_middle.symm.trans perm)
  have lows' : ∀ e ∈ before ++ behind, e.type ≤ e820MemTypeUsable := fun e mem => low e (others.mem_iff.mp mem)
  rw [List.forall_mem_append] at lows'
  have next : ∀ e ∈ behind.head?, e.type ≤ e820MemTypeUsable := fun e mem => lows'.2 e (List.mem_of_mem_head? mem)
  have same : InType e820MemTypeUsable lows x ↔ InType e820MemTypeUsable before x ∨ InType e820MemTypeUsable behind x := by
    simp only [InType, ← others.mem_iff, List.mem_append, or_and_right, exists_or]
  have ends : StandsFor behind x ↔ InType e820MemTypeUsable behind x := by
    rw [← List.append_nil behind, standsFor_append_low lows'.2, List.append_nil, or_iff_left standsFor_nil]
  rw [standsFor_append_low lows'.1, standsFor_cons_alone high word next, ends, same, or_left_comm, or_comm]

/-- Regions none of which is usable are one group. -/
theorem standsFor_whole (high : ∀ e ∈ run :: rest, e.type > e820MemTypeUsable) (base : run.baseAddr = 0)
    (inside : x < totalLength (run :: rest)) : StandsFor (run :: rest) x := by
  refine .inr ⟨run, rest, together_cons.mpr (.inl ⟨rfl, [], by simp, high, by simp⟩), ?_, ?_⟩
  · rw [base]
    exact Nat.zero_le x
  · rwa [base, Nat.zero_add]

end StandsFor

/-! ## What merging makes of them -/

/-- The address is in a usable or a reserved entry. -/
def Backed (entries : List MemMapRegion) (x : Nat) : Prop :=
  InType e820MemTypeUsable entries x ∨ InType e820MemTypeReserved entries x

/-- Usable regions are apart, and none ends beyond the last address. -/
structure UsableApart (regions : List MemMapRegion) : Prop where
  bounded : ∀ e ∈ regions, e.type = e820MemTypeUsable → e.baseAddr + e.length < 2 ^ 64
  apart : regions.Pairwise fun e f => e.type = e820MemTypeUsable → f.type = e820MemTypeUsable →
    e.baseAddr + e.length ≤ f.baseAddr

theorem usableApart_cons {r : MemMapRegion} {rest : List MemMapRegion} :
    UsableApart (r :: rest) ↔ (r.type = e820MemTypeUsable → r.baseAddr + r.length < 2 ^ 64) ∧
      (∀ f ∈ rest, r.type = e820MemTypeUsable → f.type = e820MemTypeUsable → r.baseAddr + r.length ≤ f.baseAddr) ∧
      UsableApart rest := by
  constructor
  · rintro ⟨bounded, apart⟩
    rw [List.forall_mem_cons] at bounded
    rw [List.pairwise_cons] at apart
    exact ⟨bounded.1, apart.1, bounded.2, apart.2⟩
  · rintro ⟨fits, before, bounded, apart⟩
    exact ⟨List.forall_mem_cons.mpr ⟨fits, bounded⟩, List.pairwise_cons.mpr ⟨before, apart⟩⟩

section Runs

variable {run r : MemMapRegion} {rest : List MemMapRegion}

theorem backed_cons {x : Nat} : Backed (asReserved run :: rest) x ↔ (run.type ≠ 0 ∧ run.Mem x) ∨ Backed rest x := by
  have typed : (asReserved run).type = e820MemTypeUsable ∨ (asReserved run).type = e820MemTypeReserved ↔
      run.type ≠ 0 := by
    by_cases high : run.type > e820MemTypeUsable
    · rw [asReserved_reserved high]
      exact iff_of_true (.inr rfl) (Nat.ne_of_gt (Nat.lt_trans Nat.zero_lt_one high))
    · rw [asReserved_of_low high]
      unfold e820MemTypeUsable e820MemTypeReserved at *
      omega
  rw [Backed, inType_cons, inType_cons, asReserved_mem, or_or_or_comm, ← or_and_right, typed, Backed]

theorem not_backed_nil (x : Nat) : ¬ Backed [] x := by
  rintro (⟨e, mem, -⟩ | ⟨e, mem, -⟩) <;> cases mem

/-- Usable regions stay apart when one is taken in. -/
theorem UsableApart.combined (apart : UsableApart (run :: r :: rest))
    (taken : (run.type > e820MemTypeUsable ∧ r.type > e820MemTypeUsable) ∨
      (run.type = r.type ∧ (run.type = e820MemTypeUsable → run.baseAddr + run.length = r.baseAddr))) :
    UsableApart (Kernel.combined (asReserved run) r :: rest) := by
  obtain ⟨-, -, tail⟩ := usableApart_cons.mp apart
  obtain ⟨fits, before, tail'⟩ := usableApart_cons.mp tail
  have usable : (Kernel.combined (asReserved run) r).type = e820MemTypeUsable → r.type = e820MemTypeUsable ∧
      run.baseAddr + run.length = r.baseAddr := by
    intro type
    have type' : run.type = e820MemTypeUsable := asReserved_type_usable.mp type
    rcases taken with ⟨high, -⟩ | ⟨same, touch⟩
    · exact absurd type' (Nat.ne_of_gt high)
    · exact ⟨same ▸ type', touch type'⟩
  have length : run.baseAddr + run.length = r.baseAddr → r.baseAddr + r.length < 2 ^ 64 →
      (Kernel.combined (asReserved run) r).length = run.length + r.length := by
    intro touch small
    show Word.add _ _ = _
    rw [asReserved_length, Word.add_of_lt (by omega)]
  refine usableApart_cons.mpr ⟨fun type => ?_, fun f mem type type' => ?_, tail'⟩
  · obtain ⟨type', touch⟩ := usable type
    have small := fits type'
    rw [combined_baseAddr, length touch small]
    omega
  · obtain ⟨typer, touch⟩ := usable type
    have small := fits typer
    have := before f mem typer type'
    rw [combined_baseAddr, length touch small]
    omega

/-- A run takes the next region in when both are not usable, or when they have one type and touch. -/
theorem mergeable_iff_of_apart (apart : UsableApart (run :: r :: rest)) :
    mergeable (asReserved run) r = true ↔ (run.type > e820MemTypeUsable ∧ r.type > e820MemTypeUsable) ∨
      (run.type = r.type ∧ r.baseAddr ≤ Word.add run.baseAddr run.length ∧
        (run.type = e820MemTypeUsable → run.baseAddr + run.length = r.baseAddr)) := by
  obtain ⟨fits, before, -⟩ := usableApart_cons.mp apart
  have gap := before r (List.mem_cons_self ..)
  rw [mergeable_eq_true, asReserved_baseAddr, asReserved_length]
  by_cases high : run.type > e820MemTypeUsable
  · rw [asReserved_reserved high]
    unfold e820MemTypeUsable e820MemTypeReserved at *
    omega
  · rw [asReserved_of_low high]
    refine or_congr Iff.rfl ⟨fun ⟨touch, same⟩ => ⟨same, touch, fun type => ?_⟩, fun ⟨same, touch, _⟩ => ⟨touch, same⟩⟩
    have := gap type (same ▸ type)
    rw [Word.add_of_lt (fits type)] at touch
    omega

/-- **The merged list covers what the regions stand for.** -/
theorem backed_mergeRuns_iff (rest : List MemMapRegion) (apart : UsableApart (run :: rest))
    (words : ∀ e ∈ run :: rest, e.length < 2 ^ 64) {x : Nat} :
    Backed (mergeRuns run rest) x ↔ StandsFor (run :: rest) x := by
  induction rest generalizing run with
  | nil =>
    have word := words run (List.mem_cons_self ..)
    rw [mergeRuns, backed_cons, or_iff_left (not_backed_nil x)]
    by_cases high : run.type > e820MemTypeUsable
    · rw [standsFor_cons_alone high word (by simp), or_iff_left standsFor_nil]
      exact and_iff_right (Nat.ne_of_gt (Nat.lt_trans Nat.zero_lt_one high))
    · rw [standsFor_cons_low (by omega), or_iff_left standsFor_nil]
      refine and_congr_left fun _ => ?_
      unfold e820MemTypeUsable at *
      omega
  | cons r rest ih =>
    have merge := mergeable_iff_of_apart apart
    obtain ⟨word, word', tail⟩ := (List.forall_mem_cons.trans (and_congr_right fun _ => List.forall_mem_cons)).mp words
    have words' : ∀ e ∈ combined (asReserved run) r :: rest, e.length < 2 ^ 64 :=
      List.forall_mem_cons.mpr ⟨Word.add_lt _ _, tail⟩
    by_cases both : run.type > e820MemTypeUsable ∧ r.type > e820MemTypeUsable
    · rw [mergeRuns, if_pos (merge.mpr (.inl both)), ih (apart.combined (.inl both)) words',
        standsFor_cons_both both.1 both.2]
    · rw [mergeRuns]
      split
      · -- of one type and touching
        rename_i taken
        obtain ⟨same, -, touch⟩ := (merge.mp taken).resolve_left both
        have low : ¬ run.type > e820MemTypeUsable := fun high => both ⟨high, same ▸ high⟩
        have fits := (usableApart_cons.mp (usableApart_cons.mp apart).2.2).1
        have type : (combined (asReserved run) r).type = run.type := by
          show (asReserved run).type = _
          rw [asReserved_of_low low]
        rw [ih (apart.combined (.inr ⟨same, touch⟩)) words', standsFor_cons_low (by rw [type]; omega),
          standsFor_cons_low (by omega), standsFor_cons_low (by omega), type, ← or_assoc, ← same, ← and_or_left]
        refine or_congr_left (and_congr_right fun usable => ?_)
        have joint := touch usable
        have small := fits (same ▸ usable)
        exact combined_mem_of_lt (by omega) joint
      · rename_i ends
        rw [backed_cons, ih (usableApart_cons.mp apart).2.2 (List.forall_mem_cons.mpr ⟨word', tail⟩)]
        by_cases high : run.type > e820MemTypeUsable
        · have low : r.type ≤ e820MemTypeUsable := Nat.le_of_not_lt fun high' => both ⟨high, high'⟩
          rw [standsFor_cons_alone high word (by simpa using low)]
          exact or_congr_left (and_iff_right (Nat.ne_of_gt (Nat.lt_trans Nat.zero_lt_one high)))
        · have low : run.type ≤ e820MemTypeUsable := Nat.le_of_not_lt high
          rw [standsFor_cons_low low]
          refine or_congr_left (and_congr_left fun _ => ?_)
          unfold e820MemTypeUsable at *
          omega

end Runs

/-- Every address of the managed range that no entry reserves is usable. -/
def ManagedUsable (blocks : MemMapBlock) (physMemStat : MemPhysStats) : Prop :=
  ∀ stat, memStat physMemStat = .ok stat → ∀ x, x < flp2 stat.physAvailMem →
    ¬ InType e820MemTypeReserved blocks.entries x → InType e820MemTypeUsable blocks.entries x

theorem managedUsable_iff (blocks : MemMapBlock) (physMemStat : MemPhysStats) :
    ManagedUsable blocks physMemStat ↔ ∀ x, x < flp2 physMemStat.physAvailMem → Backed blocks.entries x := by
  by_cases none : physMemStat.physAvailMem = 0
  · refine iff_of_true (fun stat run => ?_) fun x below => ?_
    · simp only [memStat, bugOn_bind_eq_ok] at run
      exact absurd none run.1
    · rw [none] at below
      exact absurd below (Nat.not_lt_zero x)
  · have run : memStat physMemStat = .ok physMemStat := by rw [memStat, bugOn_of_not none]; rfl
    constructor
    · intro usable x below
      by_cases reserved : InType e820MemTypeReserved blocks.entries x
      · exact .inr reserved
      · exact .inl (usable physMemStat run x below reserved)
    · intro backed stat run' x below unreserved
      obtain rfl := Except.ok.inj (run.symm.trans run')
      exact (backed x below).resolve_right unreserved

/-- Dropping empty entries uncovers nothing. -/
theorem inType_kept {type : Nat} (typed : type ≠ 0) {entries : List MemMapRegion} {x : Nat} :
    InType type (kept entries) x ↔ InType type entries x := by
  constructor
  · rintro ⟨e, mem, here⟩
    exact ⟨e, (List.mem_filter.mp mem).1, here⟩
  · rintro ⟨e, mem, is, here⟩
    refine ⟨e, List.mem_filter.mpr ⟨mem, ?_⟩, is, here⟩
    simp only [memIsEntryEmpty, is, typed, decide_false, Bool.and_false, Bool.not_false]

theorem usableApart_of_perm {b : MemMapBlock} (map : BiosMap b) {order : List MemMapRegion}
    (perm : order.Perm (withFirstMb b).entries) (sorted : ByBase order) : UsableApart order := by
  have perm' := perm.trans (reserve_entries_perm map)
  have usable : ∀ e ∈ order, e.type = e820MemTypeUsable → e ∈ b.entries := by
    intro e mem type
    rcases mem_reserve_entries map.room (perm.mem_iff.mp mem) with rfl | rfl | mem
    · cases type
    · cases type
    · exact mem
  let Apart : MemMapRegion → MemMapRegion → Prop := fun e f => e.type = e820MemTypeUsable →
    f.type = e820MemTypeUsable → e.baseAddr + e.length ≤ f.baseAddr ∨ f.baseAddr + f.length ≤ e.baseAddr
  have listed : (List.replicate (dropped b).length MemMapRegion.zero ++ firstMb :: remaining b).Pairwise Apart := by
    refine List.pairwise_append.mpr ⟨?_, List.pairwise_cons.mpr ⟨fun f _ type => ?_, ?_⟩, fun e mem f _ type => ?_⟩
    · exact List.pairwise_replicate.mpr (.inr fun type => by cases type)
    · cases type
    · exact (map.apart.sublist (remaining_sublist b)).imp fun apart _ _ => apart
    · rw [List.eq_of_mem_replicate mem] at type
      cases type
  have apart : order.Pairwise Apart :=
    (perm'.pairwise_iff fun apart type type' => (apart type' type).symm).mpr listed
  refine ⟨fun e mem type => map.bounded e (usable e mem type), ?_⟩
  refine (apart.and sorted).imp_of_mem fun {e f} _ mem ⟨either, order⟩ type type' => ?_
  have pos := map.nonempty f (usable f mem type')
  rcases either type type' with before | behind
  · exact before
  · omega

/-! ## The firmware's regions -/

/-- The regions left that begin at address 0. There is one at most. -/
def atZero (b : MemMapBlock) : List MemMapRegion := (remaining b).filter fun e => e.baseAddr = 0

/-- The other regions left, by base address. -/
def aboveZero (b : MemMapBlock) : List MemMapRegion := (ordered b).filter fun e => ¬ e.baseAddr = 0

/-- What is sorted to the front: a zeroed slot for each region dropped, the first MiB, and what is left at
address 0. -/
def atFront (b : MemMapBlock) : List MemMapRegion := List.replicate (dropped b).length .zero ++ firstMb :: atZero b

/-- The size of the managed range, as the lengths alone give it. -/
def managedSize (b : MemMapBlock) : Nat := flp2 (totalLength (firstMb :: remaining b))

/-- Whatever `rand` returns, `mem_init` returns and leaves a map that is usable where the managed range is
not reserved. -/
def ManagesMemory (b : MemMapBlock) : Prop :=
  ∀ rand, ∃ blocks physMemStat, memInit rand b = .ok (blocks, physMemStat) ∧ ManagedUsable blocks physMemStat

section Managed

variable {b : MemMapBlock}

theorem remaining_perm_fronts (b : MemMapBlock) : (remaining b).Perm (atZero b ++ aboveZero b) := by
  refine (List.filter_append_perm (fun e : MemMapRegion => decide (e.baseAddr = 0)) (remaining b)).symm.trans ?_
  refine List.Perm.append_left _ ?_
  simp only [aboveZero, decide_not]
  exact ((ordered_perm b).symm).filter _

theorem front_perm (b : MemMapBlock) :
    (List.replicate (dropped b).length MemMapRegion.zero ++ firstMb :: remaining b).Perm (atFront b ++ aboveZero b) := by
  rw [atFront, List.append_assoc, List.cons_append]
  exact ((remaining_perm_fronts b).cons _).append_left _

theorem atFront_base : ∀ e ∈ atFront b, e.baseAddr = 0 := by
  intro e mem
  simp only [atFront, atZero, List.mem_append, List.mem_cons, List.mem_filter, decide_eq_true_eq] at mem
  rcases mem with mem | rfl | ⟨-, base⟩
  · rw [List.eq_of_mem_replicate mem]
    rfl
  · rfl
  · exact base

theorem aboveZero_pos : ∀ e ∈ aboveZero b, 0 < e.baseAddr := by
  intro e mem
  have above := of_decide_eq_true (List.mem_filter.mp mem).2
  exact Nat.pos_of_ne_zero above

theorem aboveZero_sorted (map : BiosMap b) : SortedRegions (aboveZero b) := by
  have apart := ordered_sorted map
  exact ⟨fun e mem => apart.nonempty e (List.mem_of_mem_filter mem),
    fun e mem => apart.bounded e (List.mem_of_mem_filter mem), apart.sorted.filter _⟩

/-- A list in which the base addresses ascend is an order of the front, and the other regions. -/
theorem exists_front_of_perm (map : BiosMap b) {order : List MemMapRegion}
    (perm : order.Perm (withFirstMb b).entries) (sorted : ByBase order) :
    ∃ front, front.Perm (atFront b) ∧ order = front ++ aboveZero b :=
  exists_front ((perm.trans (reserve_entries_perm map)).trans (front_perm b)) sorted atFront_base aboveZero_pos
    (aboveZero_sorted map)

theorem totalLength_zeroes (k : Nat) (regions : List MemMapRegion) :
    totalLength (List.replicate k .zero ++ regions) = totalLength regions := by
  induction k with
  | zero => rfl
  | succ k ih =>
    rw [List.replicate_succ, List.cons_append, totalLength_cons, ih]
    show (0 + _) % _ = _
    rw [Nat.zero_add, totalLength, Nat.mod_mod]

/-- What one order of the regions comes to. -/
theorem managedUsable_order (map : BiosMap b) {order : List MemMapRegion} (perm : order.Perm (withFirstMb b).entries)
    (sorted : ByBase order) {blocks : MemMapBlock} (entries : blocks.entries = kept (merged order)) :
    ManagedUsable blocks (calcPhysMemoryStats blocks) ↔ ∀ x, x < managedSize b → StandsFor order x := by
  have apart := usableApart_of_perm map perm sorted
  have perm' := perm.trans (reserve_entries_perm map)
  have words : ∀ e ∈ order, e.length < 2 ^ 64 := fun e mem =>
    reserve_lengths map.room map.words e (perm.mem_iff.mp mem)
  have sum : totalLength (kept (merged order)) = totalLength (firstMb :: remaining b) := by
    rw [totalLength_kept, ← totalLength_zeroes (dropped b).length (firstMb :: _), ← totalLength_perm perm']
    cases order with
    | nil => rfl
    | cons run rest => exact totalLength_mergeRuns run rest
  rw [managedUsable_iff, physAvailMem_eq, entries, sum, managedSize]
  refine forall₂_congr fun x _ => ?_
  rw [Backed, inType_kept (by decide), inType_kept (by decide), ← Backed]
  cases order with
  | nil => exact iff_of_false (not_backed_nil x) standsFor_nil
  | cons run rest => exact backed_mergeRuns_iff rest apart words

theorem ManagesMemory.reached (all : ManagesMemory b) {order : List MemMapRegion}
    (reaches : ∃ rand blocks, memInit rand b = .ok (blocks, calcPhysMemoryStats blocks) ∧ blocks.entries = kept (merged order))
    (map : BiosMap b) (perm : order.Perm (withFirstMb b).entries) (sorted : ByBase order) :
    ∀ x, x < managedSize b → StandsFor order x := by
  obtain ⟨rand, blocks, init, entries⟩ := reaches
  obtain ⟨_, _, init', usable⟩ := all rand
  obtain ⟨rfl, rfl⟩ := Prod.mk.inj (Except.ok.inj (init.symm.trans init'))
  exact (managedUsable_order map perm sorted entries).mp usable

theorem flp2_le {n : Nat} (word : n < 2 ^ 64) : flp2 n ≤ n := by
  rcases Nat.eq_zero_or_pos n with rfl | pos
  · decide
  · exact (isGreatest_flp2 (Nat.ne_of_gt pos) word).1.2

/-- One region is left, at address 0: no order of the front is worse than another. -/
theorem standsFor_alone (map : BiosMap b) (some : 0 < b.numEntries) (all : ManagesMemory b) {s : MemMapRegion}
    (list : ordered b = [s]) (base : s.baseAddr = 0)
    (either : dropped b = [] ∨ s.type ≤ e820MemTypeUsable) {front : List MemMapRegion} (perm : front.Perm (atFront b)) :
    ∀ x, x < managedSize b → StandsFor (front ++ aboveZero b) x := by
  have left : remaining b = [s] := List.singleton_perm.mp (list ▸ ordered_perm b) |>.symm
  have none : aboveZero b = [] := by simp [aboveZero, list, base]
  have zero : atZero b = [s] := by simp [atZero, left, base]
  have word := ordered_word map s (by rw [list]; exact List.mem_singleton_self s)
  rw [none, List.append_nil]
  rw [atFront, zero] at perm
  by_cases low : s.type ≤ e820MemTypeUsable
  · have beside : ∀ {l : List MemMapRegion} {x : Nat}, l.Perm (List.replicate (dropped b).length .zero ++ [firstMb, s]) →
        (StandsFor l x ↔ InType e820MemTypeUsable (List.replicate (dropped b).length .zero ++ [s]) x ∨ firstMb.Mem x) := by
      intro l x perm
      refine standsFor_beside (by decide) (by decide) (fun e mem => ?_) (perm.trans List.perm_middle)
      rcases List.mem_append.mp mem with mem | mem
      · rw [List.eq_of_mem_replicate mem]
        decide
      · rwa [List.mem_singleton.mp mem]
    obtain ⟨regions, blocks, -, perm', sorted, init, entries⟩ := memInit_returns map some fun _ => 0
    have reached := all.reached ⟨_, blocks, init, entries⟩ map perm' sorted
    obtain ⟨front', permf, order⟩ := exists_front_of_perm map perm' sorted
    rw [none, List.append_nil] at order
    rw [atFront, zero] at permf
    intro x inside
    rw [beside perm, ← beside permf, ← order]
    exact reached x inside
  · have high : s.type > e820MemTypeUsable := Nat.lt_of_not_le low
    have kept := either.resolve_right low
    rw [kept, List.length_nil, List.replicate_zero, List.nil_append] at perm
    have size : managedSize b ≤ totalLength [firstMb, s] := by
      rw [managedSize, left]
      exact flp2_le (Nat.mod_lt _ (by decide))
    intro x inside
    rcases perm_pair perm with rfl | rfl
    · exact standsFor_whole (by simpa using ⟨by decide, high⟩) rfl (by omega)
    · have swap : totalLength [s, firstMb] = totalLength [firstMb, s] := totalLength_perm (.swap ..)
      exact standsFor_whole (by simpa using ⟨high, by decide⟩) base (by omega)

/-- **The managed range holds no address without memory, whatever `rand` returns, exactly when** the
regions stand for every address below its end, in whichever order those at address 0 are; or there are two
entries, the first zeroed and the second at address 0 and not usable. -/
theorem managed_range_iff (map : BiosMap b) (some : 0 < b.numEntries) :
    ManagesMemory b ↔
      (∀ front : List MemMapRegion, front.Perm (atFront b) → ∀ x, x < managedSize b → StandsFor (front ++ aboveZero b) x) ∨
      (OneBehindOne b ∧ (b.memRegion 1).type > e820MemTypeUsable) := by
  constructor
  · intro all
    by_cases special : OneBehindOne b ∧ (b.memRegion 1).type > e820MemTypeUsable
    · exact .inr special
    refine .inl fun front perm => ?_
    by_cases free : (∃ e ∈ ordered b, 0 < e.baseAddr) ∨ 3 ≤ b.numEntries
    · have sorted : ByBase (front ++ aboveZero b) :=
        byBase_append (fun e mem => atFront_base e (perm.mem_iff.mp mem)) (aboveZero_sorted map).byBase
      have perm' := (perm.append_right (aboveZero b)).trans (front_perm b).symm
      have order := perm'.trans (reserve_entries_perm map).symm
      exact all.reached (reaches_order map some free (order.trans (reserve_perm_ordered map)) sorted) map order sorted
    · rw [not_or] at free
      obtain ⟨s, mem⟩ := exists_ordered some
      obtain ⟨list, base⟩ := ordered_alone map mem free.1
      refine standsFor_alone map some all list base ?_ perm
      rcases (by omega : b.numEntries = 1 ∨ b.numEntries = 2) with one | two
      · exact .inl (dropped_eq_nil_of_one list one)
      · obtain ⟨shape, rfl⟩ := oneBehindOne_of_ordered two list base
        exact .inr (Nat.le_of_not_lt fun high => special ⟨shape, high⟩)
  · rintro (stands | ⟨shape, high⟩)
    · intro rand
      obtain ⟨regions, blocks, -, perm, sorted, init, entries⟩ := memInit_returns map some rand
      obtain ⟨front, permf, order⟩ := exists_front_of_perm map perm sorted
      refine ⟨blocks, _, init, (managedUsable_order map perm sorted entries).mpr ?_⟩
      rw [order]
      exact stands front permf
    · intro rand
      obtain ⟨blocks, init, entries⟩ := shape.returns_high map high rand
      refine ⟨blocks, _, init, (managedUsable_iff _ _).mpr fun x inside => .inr ?_⟩
      have sum : totalLength [reservedTo ((0x100000 + (b.memRegion 1).length) % 2 ^ 64)] =
          (0x100000 + (b.memRegion 1).length) % 2 ^ 64 := by
        rw [totalLength, List.map_singleton, List.sum_singleton, reservedTo, Nat.mod_mod]
      rw [physAvailMem_eq, entries, sum] at inside
      have least := flp2_le (n := (0x100000 + (b.memRegion 1).length) % 2 ^ 64) (Nat.mod_lt _ (by decide))
      rw [entries]
      refine ⟨_, List.mem_singleton_self _, rfl, Nat.zero_le x, ?_⟩
      rw [reservedTo, Nat.zero_add]
      exact Nat.lt_of_lt_of_le inside least

end Managed

/-- Without a gap the managed range is all memory. -/
theorem managed_range_contiguous : ManagesMemory (twoUsable 0x300000) := by
  refine (managed_range_iff (twoUsable_biosMap (Nat.le_refl 0x300000) (by decide)) (by decide)).mpr
    (.inl fun front perm x inside => ?_)
  have size : managedSize (twoUsable 0x300000) = 0x400000 := by decide +kernel
  have alone : atFront (twoUsable 0x300000) = [firstMb] := by decide +kernel
  have usable : ∀ e ∈ remaining (twoUsable 0x300000), e.type ≤ e820MemTypeUsable := by decide +kernel
  have listed : ∀ e ∈ remaining (twoUsable 0x300000), e.baseAddr ≠ 0 → e ∈ aboveZero (twoUsable 0x300000) :=
    fun e mem above => List.mem_filter.mpr ⟨mem_ordered.mpr mem, decide_eq_true above⟩
  have next : ∀ e ∈ (aboveZero (twoUsable 0x300000)).head?, e.type ≤ e820MemTypeUsable := fun e mem =>
    usable e (mem_ordered.mp (List.mem_of_mem_filter (List.mem_of_mem_head? mem)))
  rw [size] at inside
  rw [alone] at perm
  rw [List.perm_singleton.mp perm, List.singleton_append, standsFor_cons_alone (by decide) (by decide) next]
  rcases (by omega : x < 0x100000 ∨ (0x100000 ≤ x ∧ x < 0x300000) ∨ 0x300000 ≤ x) with low | ⟨lower, upper⟩ | high
  · exact .inl ⟨Nat.zero_le x, low⟩
  · exact .inr (.inl ⟨⟨0x100000, 0x200000, e820MemTypeUsable⟩, listed _ (by decide +kernel) (by decide), rfl, lower, upper⟩)
  · exact .inr (.inl ⟨⟨0x300000, 0x100000, e820MemTypeUsable⟩, listed _ (by decide +kernel) (by decide), rfl, high, inside⟩)

/-- With a gap the address behind the first region is managed, and in no entry. -/
theorem managed_range_has_a_hole :
    BiosMap (twoUsable 0x400000) ∧
    (∀ e ∈ (twoUsable 0x400000).entries, e.baseAddr % 0x1000 = 0 ∧ e.length % 0x1000 = 0) ∧
    ∃ blocks physMemStat, memInit (fun _ => 0) (twoUsable 0x400000) = .ok (blocks, physMemStat) ∧
      ¬ ManagedUsable blocks physMemStat := by
  have map := twoUsable_biosMap (show 0x300000 ≤ 0x400000 by decide) (by decide)
  refine ⟨map, by decide +kernel, ?_⟩
  obtain ⟨-, blocks, -, -, -, init, -⟩ := memInit_returns map (by decide) fun _ => 0
  refine ⟨blocks, _, init, fun usable => ?_⟩
  have result : (memInit (fun _ => 0) (twoUsable 0x400000)).map (fun r => (r.1.entries, r.2)) =
      .ok ([firstMb, ⟨0x100000, 0x200000, e820MemTypeUsable⟩, ⟨0x400000, 0x100000, e820MemTypeUsable⟩],
        ⟨0x400000, 0x300000⟩) := by
    decide +kernel
  rw [init] at result
  obtain ⟨entries, stat⟩ := Prod.mk.inj (Except.ok.inj result)
  simp only at entries stat
  rw [managedUsable_iff, entries, stat] at usable
  have missing := usable 0x300000 (by decide +kernel)
  simp only [Backed, inType_cons, MemMapRegion.Mem, firstMb] at missing
  rcases missing with (⟨_, _⟩ | ⟨_, _⟩ | ⟨_, _⟩ | ⟨e, mem, -⟩) | (⟨_, _⟩ | ⟨_, _⟩ | ⟨_, _⟩ | ⟨e, mem, -⟩)
  all_goals first | omega | cases mem

end AlmeidaOS.Kernel
