import AlmeidaOS.Laws.Arch.MemInit

/-!
# Ranges taken out of the memory map

`mem_alloc_region` puts what is left of an entry and the new reserved one into the map, sorts it and
merges it. On the list of entries the first step replaces the entry by its pieces, in place: `carved`.
The entries of a map are apart, so sorting finds exactly this list, whatever `rand` returns, and merging
changes no usable memory. What is taken out is never handed out again (`handed_out_once`).

The call compares with the end of an entry in 64 bits. The end of an entry that reaches the top of the
address space is 0 there.
-/

namespace AlmeidaOS.Kernel

open MemMapBlock

/-! ## The slots behind the entries -/

/-- Slots without a type are zeroed, and so are the slots from `n` on. -/
structure Spare (n : Nat) (b : MemMapBlock) : Prop where
  untyped : ∀ j, (b.memRegion j).type = 0 → b.memRegion j = .zero
  behind : ∀ j, n ≤ j → b.memRegion j = .zero

theorem combined_untyped {run r : MemMapRegion} (clean : run.type = 0 → run = .zero) (clean' : r.type = 0 → r = .zero)
    (taken : mergeable (asReserved run) r = true) (untyped : (combined (asReserved run) r).type = 0) :
    combined (asReserved run) r = .zero := by
  have type : run.type = 0 := by_contra fun typed => asReserved_type_ne_zero typed untyped
  obtain rfl := clean type
  have type' : r.type = 0 := by
    rcases mergeable_eq_true.mp taken with ⟨high, -⟩ | ⟨-, same⟩
    · exact absurd high (by decide)
    · exact same.symm
  rw [clean' type']
  decide

theorem combineLoop_untyped (k : Nat) (b : MemMapBlock) {ptr1 ptr2 : Nat} (order : ptr1 < ptr2)
    (clean : ∀ j, (b.memRegion j).type = 0 → b.memRegion j = .zero) :
    ∀ j, ((combineLoop k b ptr1 ptr2).memRegion j).type = 0 → (combineLoop k b ptr1 ptr2).memRegion j = .zero := by
  induction k generalizing b ptr1 ptr2 with
  | zero => exact clean
  | succ k ih =>
    obtain ⟨b', same, pass⟩ := combineLoop_step k b order
    split at pass
    · rename_i taken
      obtain ⟨loop, run, gone⟩ := pass
      rw [loop]
      refine ih b' (by omega) fun j untyped => ?_
      by_cases here : j = ptr1
      · rw [here, run] at untyped ⊢
        exact combined_untyped (clean ptr1) (clean ptr2) taken untyped
      · by_cases next : j = ptr2
        · rw [next, gone]
        · rw [same j here next] at untyped ⊢
          exact clean j untyped
    · obtain ⟨loop, run, next⟩ := pass
      rw [loop]
      refine ih b' (by omega) fun j untyped => ?_
      by_cases here : j = ptr1
      · rw [here, run] at untyped ⊢
        rw [clean ptr1 (by_contra fun typed => asReserved_type_ne_zero typed untyped)]
        rfl
      · have slot : b'.memRegion j = b.memRegion j := by
          by_cases there : j = ptr2
          · rw [there, next]
          · exact same j here there
        rw [slot] at untyped ⊢
        exact clean j untyped

/-- Moving a region up and zeroing its slot. -/
theorem Spare.move {n : Nat} {b : MemMapBlock} (spare : Spare n b) {i : Nat} (inside : i < n) (next : Nat) :
    Spare n ((b.set i (b.memRegion next)).set next .zero) := by
  refine ⟨fun j untyped => ?_, fun j behind => ?_⟩
  · by_cases here : j = next
    · rw [here, set_self]
    · rw [set_of_ne _ _ here] at untyped ⊢
      by_cases there : j = i
      · rw [there, set_self] at untyped ⊢
        exact spare.untyped next untyped
      · rw [set_of_ne _ _ there] at untyped ⊢
        exact spare.untyped j untyped
  · by_cases here : j = next
    · rw [here, set_self]
    · rw [set_of_ne _ _ here, set_of_ne _ _ (by omega), spare.behind j behind]

/-- After the two passes the slots behind the entries are zeroed again. -/
theorem combine_squash_behind {b : MemMapBlock} (two : 2 ≤ b.numEntries) (spare : Spare b.numEntries b) {j : Nat}
    (behind : (squashMemRegions (combineMergeableRegions b)).numEntries ≤ j) :
    (squashMemRegions (combineMergeableRegions b)).memRegion j = .zero := by
  have count := combineMergeableRegions_numEntries b
  have spare' : Spare b.numEntries (combineMergeableRegions b) := by
    refine ⟨?_, fun j beyond => ?_⟩
    · rw [combineMergeableRegions, if_neg (by omega)]
      exact combineLoop_untyped _ b Nat.zero_lt_one spare.untyped
    · rcases combineMergeableRegions_behind beyond with same | zero
      · rw [same, spare.behind j beyond]
      · exact zero
  rcases Nat.lt_or_ge j b.numEntries with inside | beyond
  · have empty := squashMemRegions_vacated (by rwa [count]) behind (by rwa [count])
    have loop := squashLoop_keeps (P := Spare b.numEntries) (fun _ _ next inside _ spare => spare.move inside next)
      (b.numEntries - 1) _ 0 count (by omega) spare'
    rw [squashMemRegions, if_neg (by omega), count, adjustNumEntries_memRegion] at empty ⊢
    refine loop.untyped j ?_
    simp only [memIsEntryEmpty, Bool.and_eq_true, decide_eq_true_eq] at empty
    exact empty.2
  · rw [squashMemRegions_behind (by rwa [count]), spare'.behind j beyond]

/-- Slots without length stay so behind the entries. -/
theorem combine_squash_length {b : MemMapBlock} (behind : ∀ j, b.numEntries ≤ j → (b.memRegion j).length = 0) {j : Nat}
    (beyond : (squashMemRegions (combineMergeableRegions b)).numEntries ≤ j) :
    ((squashMemRegions (combineMergeableRegions b)).memRegion j).length = 0 := by
  rcases Nat.lt_or_ge b.numEntries 2 with few | two
  · rw [combineMergeableRegions, if_pos few, squashMemRegions, if_pos few] at beyond ⊢
    exact behind j beyond
  have count := combineMergeableRegions_numEntries b
  rcases Nat.lt_or_ge j b.numEntries with inside | outside
  · have empty := squashMemRegions_vacated (by rwa [count]) beyond (by rwa [count])
    simp only [memIsEntryEmpty, Bool.and_eq_true, decide_eq_true_eq] at empty
    exact empty.1
  · rw [squashMemRegions_behind (by rwa [count])]
    rcases combineMergeableRegions_behind outside with same | zero
    · rw [same, behind j outside]
    · rw [zero]
      rfl

/-! ## Pieces of an entry -/

theorem inType_append {type x : Nat} {l l' : List MemMapRegion} :
    InType type (l ++ l') x ↔ InType type l x ∨ InType type l' x := by
  simp only [InType, List.mem_append, or_and_right, exists_or]

/-- A usable entry that holds the addresses from `start` to `stop`. -/
structure HoldsUsable (e : MemMapRegion) (start stop : Nat) : Prop where
  usable : e.type = e820MemTypeUsable
  low : e.baseAddr ≤ start
  high : stop ≤ e.baseAddr + e.length

/-- What becomes of an entry when the range is taken out of it. -/
def carved (e : MemMapRegion) (start stop : Nat) : List MemMapRegion :=
  (if start = e.baseAddr then [] else [⟨e.baseAddr, start - e.baseAddr, e820MemTypeUsable⟩]) ++
    ⟨start, stop - start, e820MemTypeReserved⟩ ::
      if stop = e.baseAddr + e.length then [] else [⟨stop, e.baseAddr + e.length - stop, e820MemTypeUsable⟩]

section Pieces

variable {top : Nat} {e f : MemMapRegion} {start stop : Nat} {l l' : List MemMapRegion}

theorem mem_carved : f ∈ carved e start stop ↔
    (start ≠ e.baseAddr ∧ f = ⟨e.baseAddr, start - e.baseAddr, e820MemTypeUsable⟩) ∨
    f = ⟨start, stop - start, e820MemTypeReserved⟩ ∨
    (stop ≠ e.baseAddr + e.length ∧ f = ⟨stop, e.baseAddr + e.length - stop, e820MemTypeUsable⟩) := by
  unfold carved
  split <;> split <;> simp [*]

theorem carved_length (e : MemMapRegion) (start stop : Nat) :
    1 ≤ (carved e start stop).length ∧ (carved e start stop).length ≤ 3 := by
  unfold carved
  split <;> split <;> simp

theorem laid_carved (holds : HoldsUsable e start stop) (order : start < stop) (within : e.baseAddr + e.length ≤ top) :
    Laid top (carved e start stop) := by
  obtain ⟨-, low, high⟩ := holds
  refine ⟨fun f mem => ?_, fun f mem => ?_, ?_⟩
  · rcases mem_carved.mp mem with ⟨cut, rfl⟩ | rfl | ⟨cut, rfl⟩
    all_goals dsimp only
    all_goals omega
  · rcases mem_carved.mp mem with ⟨cut, rfl⟩ | rfl | ⟨cut, rfl⟩
    all_goals dsimp only
    all_goals omega
  · unfold carved
    split <;> split <;> simp <;> omega

/-- The pieces lie where the entry lay. -/
theorem carved_within (holds : HoldsUsable e start stop) (order : start < stop) (mem : f ∈ carved e start stop) :
    e.baseAddr ≤ f.baseAddr ∧ f.baseAddr + f.length ≤ e.baseAddr + e.length := by
  obtain ⟨-, low, high⟩ := holds
  rcases mem_carved.mp mem with ⟨cut, rfl⟩ | rfl | ⟨cut, rfl⟩
  all_goals dsimp only
  all_goals omega

theorem carved_typed (mem : f ∈ carved e start stop) : f.type = e820MemTypeUsable ∨ f.type = e820MemTypeReserved := by
  rcases mem_carved.mp mem with ⟨-, rfl⟩ | rfl | ⟨-, rfl⟩
  · exact .inl rfl
  · exact .inr rfl
  · exact .inl rfl

/-- The range itself is one of the pieces, and unless it is the whole entry some of the entry is left. -/
theorem exists_carved_reserved (e : MemMapRegion) (start stop : Nat) :
    ∃ f ∈ carved e start stop, f.type = e820MemTypeReserved :=
  ⟨_, mem_carved.mpr (.inr (.inl rfl)), rfl⟩

@[inherit_doc exists_carved_reserved]
theorem exists_carved_usable (part : ¬ (start = e.baseAddr ∧ stop = e.baseAddr + e.length)) :
    ∃ f ∈ carved e start stop, f.type = e820MemTypeUsable := by
  by_cases atStart : start = e.baseAddr
  · exact ⟨_, mem_carved.mpr (.inr (.inr ⟨fun atEnd => part ⟨atStart, atEnd⟩, rfl⟩)), rfl⟩
  · exact ⟨_, mem_carved.mpr (.inl ⟨atStart, rfl⟩), rfl⟩

/-- What the entries and the pieces have, every entry has afterwards. -/
theorem forall_mem_carve {p : MemMapRegion → Prop} (all : ∀ f ∈ l ++ e :: l', p f) (pieces : ∀ f ∈ carved e start stop, p f) :
    ∀ f ∈ l ++ (carved e start stop ++ l'), p f := by
  rw [List.forall_mem_append, List.forall_mem_cons] at all
  rw [List.forall_mem_append, List.forall_mem_append]
  exact ⟨all.1, pieces, all.2.2⟩

/-- With the entry replaced by its pieces the map is in order as before. -/
theorem Laid.carve (laid : Laid top (l ++ e :: l')) (holds : HoldsUsable e start stop) (order : start < stop) :
    Laid top (l ++ (carved e start stop ++ l')) := by
  obtain ⟨left, right, across⟩ := laid_append.mp laid
  obtain ⟨-, within, before, right⟩ := laid_cons.mp right
  refine laid_append.mpr ⟨left, laid_append.mpr ⟨laid_carved holds order within, right, fun f mem g memg => ?_⟩,
    fun f mem g memg => ?_⟩
  · exact (carved_within holds order mem).2.trans (before g memg)
  · rcases List.mem_append.mp memg with piece | behind
    · exact (across f mem e (List.mem_cons_self ..)).trans (carved_within holds order piece).1
    · exact across f mem g (List.mem_cons_of_mem _ behind)

/-- The usable pieces hold all of the entry but the range. -/
theorem carved_usable (holds : HoldsUsable e start stop) (order : start < stop) (x : Nat) :
    InType e820MemTypeUsable (carved e start stop) x ↔ e.Mem x ∧ ¬ (start ≤ x ∧ x < stop) := by
  obtain ⟨-, low, high⟩ := holds
  constructor
  · rintro ⟨f, mem, usable, here⟩
    rcases mem_carved.mp mem with ⟨-, rfl⟩ | rfl | ⟨-, rfl⟩
    · obtain ⟨from_, to_⟩ := here
      exact ⟨⟨from_, by dsimp only at *; omega⟩, by dsimp only at *; omega⟩
    · cases usable
    · obtain ⟨from_, to_⟩ := here
      exact ⟨⟨by dsimp only at *; omega, by dsimp only at *; omega⟩, by dsimp only at *; omega⟩
  · rintro ⟨⟨from_, to_⟩, out⟩
    rcases Nat.lt_or_ge x start with before | behind
    · exact ⟨_, mem_carved.mpr (.inl ⟨by omega, rfl⟩), rfl, from_, by dsimp only; omega⟩
    · exact ⟨_, mem_carved.mpr (.inr (.inr ⟨by omega, rfl⟩)), rfl, by dsimp only; omega, by dsimp only; omega⟩

theorem Laid.carve_usable (laid : Laid top (l ++ e :: l')) (holds : HoldsUsable e start stop) (order : start < stop) (x : Nat) :
    InType e820MemTypeUsable (l ++ (carved e start stop ++ l')) x ↔
      InType e820MemTypeUsable (l ++ e :: l') x ∧ ¬ (start ≤ x ∧ x < stop) := by
  obtain ⟨-, right, across⟩ := laid_append.mp laid
  obtain ⟨-, -, before, -⟩ := laid_cons.mp right
  have left : InType e820MemTypeUsable l x → ¬ (start ≤ x ∧ x < stop) := by
    rintro ⟨f, mem, -, -, inside⟩ ⟨from_, -⟩
    have := across f mem e (List.mem_cons_self ..)
    have := holds.low
    omega
  have right : InType e820MemTypeUsable l' x → ¬ (start ≤ x ∧ x < stop) := by
    rintro ⟨f, mem, -, inside, -⟩ ⟨-, to_⟩
    have := before f mem
    have := holds.high
    omega
  rw [inType_append, inType_append, inType_append, inType_cons, carved_usable holds order]
  constructor
  · rintro (here | ⟨inside, out⟩ | here)
    · exact ⟨.inl here, left here⟩
    · exact ⟨.inr (.inl ⟨holds.usable, inside⟩), out⟩
    · exact ⟨.inr (.inr here), right here⟩
  · rintro ⟨here | ⟨-, inside⟩ | here, out⟩
    · exact .inl here
    · exact .inr (.inl ⟨inside, out⟩)
    · exact .inr (.inr here)

end Pieces

/-! ## A map in use -/

/-- The memory map between two calls: entries that are usable or reserved, in order and apart, and zeroed
slots behind them. -/
structure MemMap (b : MemMapBlock) : Prop where
  laid : Laid (2 ^ 64) b.entries
  words : ∀ e ∈ b.entries, e.length < 2 ^ 64
  typed : ∀ e ∈ b.entries, e.type = e820MemTypeUsable ∨ e.type = e820MemTypeReserved
  spare : ∀ j, b.numEntries ≤ j → b.memRegion j = .zero

/-- What every region has, what a run keeps and two runs hand on, every merged region has. -/
theorem mergeRuns_forall {P : MemMapRegion → Prop} (settled : ∀ run, P run → P (asReserved run))
    (grown : ∀ run r, P run → P r → P (combined (asReserved run) r)) {run : MemMapRegion} {rest : List MemMapRegion}
    (all : ∀ e ∈ run :: rest, P e) : ∀ f ∈ mergeRuns run rest, P f := by
  induction rest generalizing run with
  | nil =>
    rw [mergeRuns]
    exact List.forall_mem_singleton.mpr (settled run (all run (List.mem_cons_self ..)))
  | cons r rest ih =>
    rw [List.forall_mem_cons, List.forall_mem_cons] at all
    obtain ⟨here, next, behind⟩ := all
    rw [mergeRuns]
    split
    · exact ih (List.forall_mem_cons.mpr ⟨grown run r here next, behind⟩)
    · exact List.forall_mem_cons.mpr ⟨settled run here, ih (List.forall_mem_cons.mpr ⟨next, behind⟩)⟩

theorem mergeRuns_words {run : MemMapRegion} {rest : List MemMapRegion} (words : ∀ e ∈ run :: rest, e.length < 2 ^ 64) :
    ∀ f ∈ mergeRuns run rest, f.length < 2 ^ 64 :=
  mergeRuns_forall (fun run word => by rwa [asReserved_length]) (fun _ _ _ _ => Word.add_lt _ _) words

theorem asReserved_typed {r : MemMapRegion} (typed : r.type = e820MemTypeUsable ∨ r.type = e820MemTypeReserved) :
    (asReserved r).type = e820MemTypeUsable ∨ (asReserved r).type = e820MemTypeReserved := by
  rcases typed with usable | reserved
  · exact .inl (asReserved_type_usable.mpr usable)
  · exact .inr (asReserved_reserved (by rw [reserved]; decide))

theorem mergeRuns_typed {run : MemMapRegion} {rest : List MemMapRegion}
    (typed : ∀ e ∈ run :: rest, e.type = e820MemTypeUsable ∨ e.type = e820MemTypeReserved) :
    ∀ f ∈ mergeRuns run rest, f.type = e820MemTypeUsable ∨ f.type = e820MemTypeReserved :=
  mergeRuns_forall (P := fun r => r.type = e820MemTypeUsable ∨ r.type = e820MemTypeReserved)
    (fun _ typed => asReserved_typed typed) (fun _ _ typed _ => asReserved_typed typed) typed

theorem two_le_of_kinds {b : MemMapBlock} (reserved : ∃ e ∈ b.entries, e.type = e820MemTypeReserved)
    (usable : ∃ e ∈ b.entries, e.type = e820MemTypeUsable) : 2 ≤ b.numEntries := by
  obtain ⟨e, mem, isReserved⟩ := reserved
  obtain ⟨f, memf, isUsable⟩ := usable
  obtain ⟨i, inside, rfl⟩ := mem_entries.mp mem
  obtain ⟨j, inside', rfl⟩ := mem_entries.mp memf
  by_contra few
  rw [show j = i by omega, isReserved] at isUsable
  cases isUsable

/-- Runs do not get as long as the address space where there are entries of both kinds. -/
theorem runBelow_of_kinds {run : MemMapRegion} {rest : List MemMapRegion}
    (reserved : ∃ e ∈ run :: rest, e.type = e820MemTypeReserved) (usable : ∃ e ∈ run :: rest, e.type = e820MemTypeUsable) :
    RunBelow (2 ^ 64) run rest := by
  obtain ⟨e, mem, isReserved⟩ := reserved
  obtain ⟨f, memf, isUsable⟩ := usable
  have high : e.type > e820MemTypeUsable := by
    rw [isReserved]
    decide
  have low : ¬ f.type > e820MemTypeUsable := by
    rw [isUsable]
    decide
  refine .inr (.inr ?_)
  by_cases kind : run.type > e820MemTypeUsable
  · rcases List.mem_cons.mp memf with rfl | behind
    · exact absurd kind low
    · exact ⟨f, behind, fun alike => low (alike.mp kind)⟩
  · rcases List.mem_cons.mp mem with rfl | behind
    · exact absurd high kind
    · exact ⟨e, behind, fun alike => kind (alike.mpr high)⟩

/-- A map in order, with slots of no length behind its entries. -/
structure MapInOrder (b : MemMapBlock) : Prop where
  laid : Laid (2 ^ 64) b.entries
  words : ∀ e ∈ b.entries, e.length < 2 ^ 64
  behind : ∀ j, b.numEntries ≤ j → (b.memRegion j).length = 0

/-- Merging entries of both kinds makes runs of them, and leaves the map in order. -/
theorem MapInOrder.merge {b : MemMapBlock} (map : MapInOrder b)
    (reserved : ∃ e ∈ b.entries, e.type = e820MemTypeReserved) (usable : ∃ e ∈ b.entries, e.type = e820MemTypeUsable) :
    MapInOrder (squashMemRegions (combineMergeableRegions b)) ∧ ∃ run rest, b.entries = run :: rest ∧
      RunBelow (2 ^ 64) run rest ∧ (squashMemRegions (combineMergeableRegions b)).entries = mergeRuns run rest := by
  obtain ⟨laid, words, behind⟩ := map
  have two := two_le_of_kinds reserved usable
  have first := entries_eq_cons (Nat.lt_of_succ_lt two)
  have entries := combine_squash_entries two words (behind _ (Nat.le_refl _))
  rw [first] at laid words reserved usable
  have below := runBelow_of_kinds reserved usable
  have merged := (laid.runs (Nat.le_refl _) below).1
  rw [kept_of_pos merged.nonempty] at entries
  refine ⟨⟨?_, ?_, fun j beyond => combine_squash_length behind beyond⟩, _, _, first, below, entries⟩
  · rwa [entries]
  · rw [entries]
    exact mergeRuns_words words

theorem MemMap.inOrder {b : MemMapBlock} (map : MemMap b) : MapInOrder b :=
  ⟨map.laid, map.words, fun j behind => by rw [map.spare j behind]; rfl⟩

theorem MemMap.spare_slots {b : MemMapBlock} (map : MemMap b) : Spare b.numEntries b := by
  refine ⟨fun j untyped => ?_, map.spare⟩
  rcases Nat.lt_or_ge j b.numEntries with inside | beyond
  · rcases map.typed _ (mem_entries.mpr ⟨j, inside, rfl⟩) with is | is
    · rw [untyped] at is
      cases is
    · rw [untyped] at is
      cases is
  · exact map.spare j beyond

/-- Merging leaves a map in use, with the same usable memory. -/
theorem MemMap.merge {b : MemMapBlock} (map : MemMap b)
    (reserved : ∃ e ∈ b.entries, e.type = e820MemTypeReserved) (usable : ∃ e ∈ b.entries, e.type = e820MemTypeUsable) :
    MemMap (squashMemRegions (combineMergeableRegions b)) ∧
      ∀ x, InType e820MemTypeUsable (squashMemRegions (combineMergeableRegions b)).entries x ↔
        InType e820MemTypeUsable b.entries x := by
  obtain ⟨merged, run, rest, first, below, entries⟩ := map.inOrder.merge reserved usable
  have laid := map.laid
  have typed := map.typed
  rw [first] at laid typed
  refine ⟨⟨merged.laid, merged.words, ?_, ?_⟩, ?_⟩
  · rw [entries]
    exact mergeRuns_typed typed
  · exact fun j behind => combine_squash_behind (two_le_of_kinds reserved usable) map.spare_slots behind
  · rw [entries, first]
    exact laid.runs_usable (Nat.le_refl _) below

/-! ## `mem_alloc_region` -/

section Region

variable {b : MemMapBlock} {start stop : Nat}

/-- The test of the loop is about entries that end below the top of the address space. -/
theorem holdsRange_iff {e : MemMapRegion} (within : e.baseAddr + e.length ≤ 2 ^ 64) (order : start < stop)
    (word : stop < 2 ^ 64) :
    holdsRange start stop e = true ↔ HoldsUsable e start stop ∧ e.baseAddr + e.length < 2 ^ 64 := by
  have length : Word.sub stop start = stop - start := Word.sub_of_le word (by omega)
  simp only [holdsRange, Bool.and_eq_true, decide_eq_true_eq, length]
  rcases Nat.lt_or_eq_of_le within with below | top
  · rw [Word.add_of_lt below]
    constructor
    · rintro ⟨⟨⟨low, high⟩, -⟩, usable⟩
      exact ⟨⟨usable, low, high⟩, below⟩
    · rintro ⟨⟨usable, low, high⟩, -⟩
      exact ⟨⟨⟨low, high⟩, by omega⟩, usable⟩
  · rw [Word.add, top]
    constructor
    · rintro ⟨⟨⟨-, high⟩, -⟩, -⟩
      omega
    · rintro ⟨-, below⟩
      omega

/-- The slot at which the loop stops. -/
theorem exists_slot (bounded : ∀ e ∈ b.entries, e.baseAddr + e.length ≤ 2 ^ 64) (order : start < stop)
    (word : stop < 2 ^ 64) {e : MemMapRegion} (mem : e ∈ b.entries) (holds : HoldsUsable e start stop)
    (below : e.baseAddr + e.length < 2 ^ 64) :
    ∃ i, ((List.range b.numEntries).find? fun curPos => holdsRange start stop (b.memRegion curPos)) = some i ∧
      i < b.numEntries ∧ HoldsUsable (b.memRegion i) start stop ∧
      (b.memRegion i).baseAddr + (b.memRegion i).length < 2 ^ 64 := by
  obtain ⟨j, inside, rfl⟩ := mem_entries.mp mem
  have some : ((List.range b.numEntries).find? fun curPos => holdsRange start stop (b.memRegion curPos)).isSome := by
    rw [List.find?_isSome]
    exact ⟨j, List.mem_range.mpr inside, (holdsRange_iff (bounded _ mem) order word).mpr ⟨holds, below⟩⟩
  obtain ⟨i, found⟩ := Option.isSome_iff_exists.mp some
  have inside' := List.mem_range.mp (List.mem_of_find?_eq_some found)
  have test := List.find?_some found
  exact ⟨i, found, inside', (holdsRange_iff (bounded _ (mem_entries.mpr ⟨i, inside', rfl⟩)) order word).mp test⟩

/-- Without an entry that holds the range, or with one that ends at the top, the call halts. -/
theorem memAllocRegion_refuses (bounded : ∀ e ∈ b.entries, e.baseAddr + e.length ≤ 2 ^ 64) (order : start < stop)
    (word : stop < 2 ^ 64)
    (lacking : ∀ e ∈ b.entries, HoldsUsable e start stop → ¬ e.baseAddr + e.length < 2 ^ 64) (rand : Nat → Nat)
    (physMemStat : MemPhysStats) : memAllocRegion rand b physMemStat start stop = .error .bugOn := by
  have missing : ((List.range b.numEntries).find? fun curPos => holdsRange start stop (b.memRegion curPos)) = none := by
    rw [List.find?_eq_none]
    intro i inside holds
    have mem := mem_entries.mpr ⟨i, List.mem_range.mp inside, rfl⟩
    obtain ⟨here, below⟩ := (holdsRange_iff (bounded _ mem) order word).mp holds
    exact lacking _ mem here below
  rw [memAllocRegion, bugOn_of_not (by omega)]
  simp only [ok_bind, missing]

/-- An entry that is the range becomes reserved. -/
theorem memAllocRegion_whole {i : Nat} (order : start < stop)
    (found : ((List.range b.numEntries).find? fun curPos => holdsRange start stop (b.memRegion curPos)) = some i)
    (below : (b.memRegion i).baseAddr + (b.memRegion i).length < 2 ^ 64)
    (whole : start = (b.memRegion i).baseAddr ∧ stop = (b.memRegion i).baseAddr + (b.memRegion i).length)
    (rand : Nat → Nat) (physMemStat : MemPhysStats) :
    memAllocRegion rand b physMemStat start stop = .ok (⟨start, stop - start, e820MemTypeReserved⟩,
      b.set i ⟨start, stop - start, e820MemTypeReserved⟩, physMemStat) := by
  have region : ({ b.memRegion i with type := e820MemTypeReserved } : MemMapRegion) =
      ⟨start, stop - start, e820MemTypeReserved⟩ := by
    rw [MemMapRegion.mk.injEq]
    exact ⟨whole.1.symm, by omega, rfl⟩
  rw [memAllocRegion, bugOn_of_not (by omega)]
  simp only [ok_bind, found, Word.add_of_lt below, if_pos whole, region, pure_eq_ok]

/-- A larger entry is carved, and the map is sorted and merged. -/
theorem memAllocRegion_part {i : Nat} (order : start < stop) (word : stop < 2 ^ 64)
    (found : ((List.range b.numEntries).find? fun curPos => holdsRange start stop (b.memRegion curPos)) = some i)
    (below : (b.memRegion i).baseAddr + (b.memRegion i).length < 2 ^ 64)
    (part : ¬ (start = (b.memRegion i).baseAddr ∧ stop = (b.memRegion i).baseAddr + (b.memRegion i).length))
    {rand : Nat → Nat} (physMemStat : MemPhysStats) {blocks : MemMapBlock}
    (eq : blocks = (carve b i start stop).push ⟨start, stop - start, e820MemTypeReserved⟩)
    {regions : Nat → MemMapRegion}
    (sorted : qsort qsortCmpMemRegion rand blocks.memRegion blocks.numEntries = .ok regions) :
    memAllocRegion rand b physMemStat start stop = .ok (⟨start, stop - start, e820MemTypeReserved⟩,
      squashMemRegions (combineMergeableRegions ⟨blocks.numEntries, regions⟩),
      { physMemStat with physFreeMem := Word.sub physMemStat.physFreeMem (stop - start) }) := by
  have length : Word.sub stop start = stop - start := Word.sub_of_le word (by omega)
  rw [memAllocRegion, bugOn_of_not (by omega)]
  simp only [ok_bind, found, Word.add_of_lt below, if_neg part, length, ← eq, sorted, pure_eq_ok]

theorem entries_split {i : Nat} (inside : i < b.numEntries) :
    b.entries = b.slice 0 i ++ b.memRegion i :: b.slice (i + 1) (b.numEntries - (i + 1)) := by
  rw [← slice_succ, entries_eq_slice]
  nth_rewrite 1 [show b.numEntries = i + (b.numEntries - (i + 1) + 1) by omega]
  rw [slice_add, Nat.zero_add]

theorem set_entries {i : Nat} (inside : i < b.numEntries) (r : MemMapRegion) :
    (b.set i r).entries = b.slice 0 i ++ r :: b.slice (i + 1) (b.numEntries - (i + 1)) := by
  rw [entries_split (b := b.set i r) inside, set_self, set_numEntries]
  rw [slice_congr (b := b) fun j _ high => set_of_ne _ _ (by omega),
    slice_congr (b := b) fun j low _ => set_of_ne _ _ (by omega)]

theorem push_numEntries (room : b.numEntries + 1 < 2 ^ 64) (r : MemMapRegion) :
    (b.push r).numEntries = b.numEntries + 1 := Word.add_of_lt room

theorem push_entries (room : b.numEntries + 1 < 2 ^ 64) (r : MemMapRegion) : (b.push r).entries = b.entries ++ [r] := by
  have same : ∀ j, 0 ≤ j → j < 0 + b.numEntries → (b.push r).memRegion j = b.memRegion j :=
    fun j _ high => if_neg (by omega)
  have last : (b.push r).memRegion b.numEntries = r := if_pos rfl
  rw [entries_eq_slice, push_numEntries room, slice_add, slice_congr same, Nat.zero_add, slice_succ, last, slice_zero,
    entries_eq_slice]

theorem push_behind {j : Nat} (r : MemMapRegion) (behind : b.numEntries < j) :
    (b.push r).memRegion j = b.memRegion j := if_neg (by omega)

theorem set_behind {i j : Nat} (inside : i < b.numEntries) (behind : b.numEntries ≤ j) (r : MemMapRegion) :
    (b.set i r).memRegion j = b.memRegion j := set_of_ne _ _ (by omega)

/-- The slots of the carved map, one more for the range itself, hold the entries with the pieces in the
place of the entry, in another order. -/
theorem carve_perm {i : Nat} (inside : i < b.numEntries)
    (room : b.numEntries + (carved (b.memRegion i) start stop).length ≤ 2 ^ 64)
    (holds : HoldsUsable (b.memRegion i) start stop) (order : start < stop) (word : stop < 2 ^ 64)
    (below : (b.memRegion i).baseAddr + (b.memRegion i).length < 2 ^ 64)
    (part : ¬ (start = (b.memRegion i).baseAddr ∧ stop = (b.memRegion i).baseAddr + (b.memRegion i).length)) :
    ((carve b i start stop).push ⟨start, stop - start, e820MemTypeReserved⟩).entries.Perm
      (b.slice 0 i ++ (carved (b.memRegion i) start stop ++ b.slice (i + 1) (b.numEntries - (i + 1)))) := by
  obtain ⟨usable, low, high⟩ := holds
  have length : Word.sub stop start = stop - start := Word.sub_of_le word (by omega)
  unfold carve
  simp only [length, Word.add_of_lt below, usable]
  by_cases atStart : start = (b.memRegion i).baseAddr
  · have left : Word.sub (b.memRegion i).length (stop - start) = (b.memRegion i).baseAddr + (b.memRegion i).length - stop := by
      rw [Word.sub_of_le (by omega) (by omega)]
      omega
    rw [carved, if_pos atStart, if_neg fun atEnd => part ⟨atStart, atEnd⟩] at room ⊢
    have one : ∀ r, (b.set i r).numEntries + 1 < 2 ^ 64 := fun _ => Nat.lt_of_succ_le room
    rw [if_pos atStart, push_entries (one _), set_entries inside, left, List.append_assoc]
    exact (List.perm_append_singleton _ _).append_left _
  · rw [if_neg atStart]
    by_cases atEnd : stop = (b.memRegion i).baseAddr + (b.memRegion i).length
    · have left : Word.sub (b.memRegion i).length (stop - start) = start - (b.memRegion i).baseAddr := by
        rw [Word.sub_of_le (by omega) (by omega)]
        omega
      rw [carved, if_neg atStart, if_pos atEnd] at room ⊢
      have one : ∀ r, (b.set i r).numEntries + 1 < 2 ^ 64 := fun _ => Nat.lt_of_succ_le room
      rw [if_pos atEnd, push_entries (one _), set_entries inside, left, List.append_assoc]
      exact ((List.perm_append_singleton _ _).cons _).append_left _
    · have left : Word.sub start (b.memRegion i).baseAddr = start - (b.memRegion i).baseAddr :=
        Word.sub_of_le (by omega) low
      have right : Word.sub ((b.memRegion i).baseAddr + (b.memRegion i).length) stop =
          (b.memRegion i).baseAddr + (b.memRegion i).length - stop := Word.sub_of_le below high
      rw [carved, if_neg atStart, if_neg atEnd] at room ⊢
      have two : b.numEntries + 1 + 1 < 2 ^ 64 := Nat.lt_of_succ_le room
      have one : ∀ r, (b.set i r).numEntries + 1 < 2 ^ 64 := fun _ => Nat.lt_of_succ_lt two
      rw [if_neg atEnd, push_entries (by rwa [push_numEntries (one _)]), push_entries (one _), set_entries inside, left,
        right, List.append_assoc, List.append_assoc]
      refine List.Perm.append_left _ (List.Perm.cons _ ?_)
      exact List.perm_append_comm.trans (List.Perm.swap _ _ _)

/-- With the slot for the range there is one for each piece, and the slots behind stay. -/
theorem carve_behind {i : Nat} (inside : i < b.numEntries)
    (room : b.numEntries + (carved (b.memRegion i) start stop).length ≤ 2 ^ 64)
    (below : (b.memRegion i).baseAddr + (b.memRegion i).length < 2 ^ 64)
    (part : ¬ (start = (b.memRegion i).baseAddr ∧ stop = (b.memRegion i).baseAddr + (b.memRegion i).length)) :
    (carve b i start stop).numEntries + 2 = b.numEntries + (carved (b.memRegion i) start stop).length ∧
      ∀ j, (carve b i start stop).numEntries ≤ j → (carve b i start stop).memRegion j = b.memRegion j := by
  unfold carve
  simp only [Word.add_of_lt below]
  by_cases atStart : start = (b.memRegion i).baseAddr
  · rw [carved, if_pos atStart, if_neg fun atEnd => part ⟨atStart, atEnd⟩] at room ⊢
    rw [if_pos atStart]
    exact ⟨rfl, fun j behind => set_behind inside behind _⟩
  · rw [if_neg atStart]
    by_cases atEnd : stop = (b.memRegion i).baseAddr + (b.memRegion i).length
    · rw [carved, if_neg atStart, if_pos atEnd] at room ⊢
      rw [if_pos atEnd]
      exact ⟨rfl, fun j behind => set_behind inside behind _⟩
    · rw [carved, if_neg atStart, if_neg atEnd] at room ⊢
      have one : ∀ r, (b.set i r).numEntries + 1 < 2 ^ 64 := fun _ => Nat.lt_of_succ_lt (Nat.lt_of_succ_le room)
      rw [if_neg atEnd, push_numEntries (one _), set_numEntries]
      refine ⟨rfl, fun j behind => ?_⟩
      rw [push_behind (b := b.set i _) _ behind, set_behind inside (Nat.le_of_lt behind)]

/-- Sorting finds the one order in which the entries are laid out. -/
theorem qsort_entries {top : Nat} {order : List MemMapRegion} (perm : b.entries.Perm order) (laid : Laid top order)
    (pos : 0 < b.numEntries) (rand : Nat → Nat) :
    ∃ regions, qsort qsortCmpMemRegion rand b.memRegion b.numEntries = .ok regions ∧
      (⟨b.numEntries, regions⟩ : MemMapBlock).entries = order ∧ ∀ j, b.numEntries ≤ j → regions j = b.memRegion j := by
  obtain ⟨σ, within, ascending, run⟩ := qsort_returns comparesBy_baseAddr rand b.memRegion b.numEntries
  refine ⟨_, run, ?_, fun j behind => ?_⟩
  · have sorted : ByBase ((List.range b.numEntries).map (b.memRegion ∘ σ)) :=
      List.pairwise_map.mpr (List.pairwise_map.mp (pairwise_of_ascending ascending))
    have target : ByBase order := laid.sorted.imp fun apart => Nat.le_of_add_right_le apart
    have same : ((List.range b.numEntries).map (b.memRegion ∘ σ)).Perm order := (map_range_perm within _).trans perm
    refine List.Perm.eq_of_pairwise (fun e f mem memf le le' => ?_) sorted target same
    rcases laid.apart (same.mem_iff.mp mem) memf with equal | before | behind
    · exact equal
    · have := laid.nonempty e (same.mem_iff.mp mem)
      omega
    · have := laid.nonempty f memf
      omega
  · rw [Function.comp_apply, within j (.inr (by omega))]

/-- Block `c` has the entries of `b` with entry `i` in pieces, and the slots of `b` behind them. -/
structure Carving (b : MemMapBlock) (start stop i : Nat) (c : MemMapBlock) : Prop where
  inside : i < b.numEntries
  holds : HoldsUsable (b.memRegion i) start stop
  below : (b.memRegion i).baseAddr + (b.memRegion i).length < 2 ^ 64
  entries : c.entries =
    b.slice 0 i ++ (carved (b.memRegion i) start stop ++ b.slice (i + 1) (b.numEntries - (i + 1)))
  least : b.numEntries ≤ c.numEntries
  behind : ∀ j, c.numEntries ≤ j → c.memRegion j = b.memRegion j

/-- **What a call does**: it takes the range out of an entry. If that is the whole entry, this is all. Else
the map is merged, and the range is taken off the free memory. -/
theorem memAllocRegion_carving (laid : Laid (2 ^ 64) b.entries)
    (room : ∀ e ∈ b.entries, HoldsUsable e start stop → b.numEntries + (carved e start stop).length ≤ 2 ^ 64)
    (order : start < stop) (word : stop < 2 ^ 64) {e : MemMapRegion} (mem : e ∈ b.entries)
    (holds : HoldsUsable e start stop) (below : e.baseAddr + e.length < 2 ^ 64) (rand : Nat → Nat)
    (physMemStat : MemPhysStats) :
    ∃ i c, Carving b start stop i c ∧ memAllocRegion rand b physMemStat start stop =
      .ok (⟨start, stop - start, e820MemTypeReserved⟩,
        if start = (b.memRegion i).baseAddr ∧ stop = (b.memRegion i).baseAddr + (b.memRegion i).length then
          (c, physMemStat)
        else (squashMemRegions (combineMergeableRegions c),
          { physMemStat with physFreeMem := Word.sub physMemStat.physFreeMem (stop - start) })) := by
  obtain ⟨i, found, inside, holds, below⟩ := exists_slot laid.bounded order word mem holds below
  have room := room _ (mem_entries.mpr ⟨i, inside, rfl⟩) holds
  have pieces := carved_length (b.memRegion i) start stop
  rw [entries_split inside] at laid
  by_cases whole : start = (b.memRegion i).baseAddr ∧ stop = (b.memRegion i).baseAddr + (b.memRegion i).length
  · refine ⟨i, b.set i ⟨start, stop - start, e820MemTypeReserved⟩, ⟨inside, holds, below, ?_, Nat.le_refl _,
      fun j behind => set_behind inside behind _⟩, ?_⟩
    · rw [set_entries inside, carved, if_pos whole.1, if_pos whole.2]
      rfl
    · rw [if_pos whole, memAllocRegion_whole order found below whole rand physMemStat]
  · have perm := carve_perm inside room holds order word below whole
    obtain ⟨uses, slots⟩ := carve_behind inside room below whole
    set blocks := (carve b i start stop).push ⟨start, stop - start, e820MemTypeReserved⟩ with eq
    have count : blocks.numEntries = (carve b i start stop).numEntries + 1 := push_numEntries (by omega) _
    obtain ⟨regions, sorted, list, behind⟩ := qsort_entries perm (laid.carve holds order) (by omega) rand
    refine ⟨i, ⟨blocks.numEntries, regions⟩, ⟨inside, holds, below, list, ?_, fun j beyond => ?_⟩, ?_⟩
    · show b.numEntries ≤ blocks.numEntries
      omega
    · dsimp only at beyond ⊢
      rw [behind j beyond, eq, push_behind _ (by omega), slots j (by omega)]
    · rw [if_neg whole, memAllocRegion_part order word found below whole physMemStat eq sorted]

/-- Unless the range is the whole entry, the map has entries of both kinds with the entry in pieces. -/
theorem Carving.kinds {i : Nat} {c : MemMapBlock} (carving : Carving b start stop i c)
    (part : ¬ (start = (b.memRegion i).baseAddr ∧ stop = (b.memRegion i).baseAddr + (b.memRegion i).length)) :
    (∃ e ∈ c.entries, e.type = e820MemTypeReserved) ∧ ∃ e ∈ c.entries, e.type = e820MemTypeUsable := by
  have among : ∀ f ∈ carved (b.memRegion i) start stop, f ∈ c.entries := by
    intro f mem
    rw [carving.entries]
    exact List.mem_append_right _ (List.mem_append_left _ mem)
  obtain ⟨f, taken, isReserved⟩ := exists_carved_reserved (b.memRegion i) start stop
  obtain ⟨g, left, isUsable⟩ := exists_carved_usable part
  exact ⟨⟨f, among f taken, isReserved⟩, ⟨g, among g left, isUsable⟩⟩

theorem Carving.laid {i : Nat} {c : MemMapBlock} (carving : Carving b start stop i c) (order : start < stop)
    (laid : Laid (2 ^ 64) b.entries) : Laid (2 ^ 64) c.entries := by
  rw [entries_split carving.inside] at laid
  rw [carving.entries]
  exact laid.carve carving.holds order

theorem Carving.words {i : Nat} {c : MemMapBlock} (carving : Carving b start stop i c) (order : start < stop)
    (words : ∀ e ∈ b.entries, e.length < 2 ^ 64) : ∀ e ∈ c.entries, e.length < 2 ^ 64 := by
  have below := carving.below
  rw [entries_split carving.inside] at words
  rw [carving.entries]
  refine forall_mem_carve words fun f mem => ?_
  have := (carved_within carving.holds order mem).2
  omega

/-- A map with one entry in pieces is in order. -/
theorem MapInOrder.carve {i : Nat} {c : MemMapBlock} (map : MapInOrder b) (carving : Carving b start stop i c)
    (order : start < stop) : MapInOrder c := by
  refine ⟨carving.laid order map.laid, carving.words order map.words, fun j beyond => ?_⟩
  rw [carving.behind j beyond, map.behind j (Nat.le_trans carving.least beyond)]

theorem MemMap.carve {i : Nat} {c : MemMapBlock} (map : MemMap b) (carving : Carving b start stop i c)
    (order : start < stop) : MemMap c := by
  have pieces := map.inOrder.carve carving order
  refine ⟨pieces.laid, pieces.words, ?_, fun j beyond => ?_⟩
  · have typed := map.typed
    rw [entries_split carving.inside] at typed
    rw [carving.entries]
    exact forall_mem_carve typed fun f mem => carved_typed mem
  · rw [carving.behind j beyond, map.spare j (Nat.le_trans carving.least beyond)]

/-- **A range inside a usable entry is taken out of the usable memory**, and nothing else is. -/
theorem memAllocRegion_ok (map : MemMap b) (room : b.numEntries + 2 < 2 ^ 64) (order : start < stop)
    (word : stop < 2 ^ 64) {e : MemMapRegion} (mem : e ∈ b.entries) (holds : HoldsUsable e start stop)
    (below : e.baseAddr + e.length < 2 ^ 64) (rand : Nat → Nat) (physMemStat : MemPhysStats) :
    ∃ b' physMemStat', memAllocRegion rand b physMemStat start stop =
        .ok (⟨start, stop - start, e820MemTypeReserved⟩, b', physMemStat') ∧ MemMap b' ∧
      ∀ x, InType e820MemTypeUsable b'.entries x ↔
        InType e820MemTypeUsable b.entries x ∧ ¬ (start ≤ x ∧ x < stop) := by
  have room' : ∀ e ∈ b.entries, HoldsUsable e start stop → b.numEntries + (carved e start stop).length ≤ 2 ^ 64 := by
    intro e _ _
    have := carved_length e start stop
    omega
  obtain ⟨i, c, carving, run⟩ := memAllocRegion_carving map.laid room' order word mem holds below rand physMemStat
  have pieces := map.carve carving order
  have usable : ∀ x, InType e820MemTypeUsable c.entries x ↔
      InType e820MemTypeUsable b.entries x ∧ ¬ (start ≤ x ∧ x < stop) := by
    have laid := map.laid
    rw [entries_split carving.inside] at laid ⊢
    rw [carving.entries]
    exact laid.carve_usable carving.holds order
  split at run
  · exact ⟨_, _, run, pieces, usable⟩
  · rename_i part
    obtain ⟨reserved, left⟩ := carving.kinds part
    obtain ⟨merged, same⟩ := pieces.merge reserved left
    refine ⟨_, _, run, merged, fun x => ?_⟩
    rw [same x, usable x]

/-- A call that returns has found an entry that holds the range, and returns the range. -/
theorem memAllocRegion_holds (bounded : ∀ e ∈ b.entries, e.baseAddr + e.length ≤ 2 ^ 64) (word : stop < 2 ^ 64)
    {rand : Nat → Nat} {physMemStat physMemStat' : MemPhysStats} {r : MemMapRegion} {b' : MemMapBlock}
    (run : memAllocRegion rand b physMemStat start stop = .ok (r, b', physMemStat')) :
    start < stop ∧ ∃ e ∈ b.entries, HoldsUsable e start stop ∧ e.baseAddr + e.length < 2 ^ 64 := by
  have order : start < stop := by
    by_contra backwards
    rw [memAllocRegion] at run
    obtain ⟨forwards, -⟩ := bugOn_bind_eq_ok.mp run
    omega
  refine ⟨order, ?_⟩
  by_contra lacking
  rw [memAllocRegion_refuses bounded order word (fun e mem holds below => lacking ⟨e, mem, holds, below⟩)] at run
  cases run

/-- The range is returned whatever the slots behind the entries hold. -/
theorem memAllocRegion_returns (bounded : ∀ e ∈ b.entries, e.baseAddr + e.length ≤ 2 ^ 64) (order : start < stop)
    (word : stop < 2 ^ 64) {e : MemMapRegion} (mem : e ∈ b.entries) (holds : HoldsUsable e start stop)
    (below : e.baseAddr + e.length < 2 ^ 64) (rand : Nat → Nat) (physMemStat : MemPhysStats) :
    ∃ b' physMemStat', memAllocRegion rand b physMemStat start stop =
      .ok (⟨start, stop - start, e820MemTypeReserved⟩, b', physMemStat') := by
  obtain ⟨i, found, inside, holds, below⟩ := exists_slot bounded order word mem holds below
  by_cases whole : start = (b.memRegion i).baseAddr ∧ stop = (b.memRegion i).baseAddr + (b.memRegion i).length
  · exact ⟨_, _, memAllocRegion_whole order found below whole rand physMemStat⟩
  · obtain ⟨σ, -, -, sorted⟩ := qsort_returns comparesBy_baseAddr rand
      ((carve b i start stop).push ⟨start, stop - start, e820MemTypeReserved⟩).memRegion
      ((carve b i start stop).push ⟨start, stop - start, e820MemTypeReserved⟩).numEntries
    exact ⟨_, _, memAllocRegion_part order word found below whole physMemStat rfl sorted⟩

end Region

/-! ## Call after call -/

/-- A further call on a map with room for it. -/
def MemAllocStep (b b' : MemMapBlock) : Prop :=
  b.numEntries + 2 < 2 ^ 64 ∧ ∃ rand physMemStat start stop r physMemStat', stop < 2 ^ 64 ∧
    memAllocRegion rand b physMemStat start stop = .ok (r, b', physMemStat')

/-- A call leaves a map in use and makes nothing usable. -/
theorem MemMap.step {b b' : MemMapBlock} (map : MemMap b) (step : MemAllocStep b b') :
    MemMap b' ∧ ∀ x, InType e820MemTypeUsable b'.entries x → InType e820MemTypeUsable b.entries x := by
  obtain ⟨room, rand, physMemStat, start, stop, r, physMemStat', word, run⟩ := step
  obtain ⟨order, e, mem, holds, below⟩ := memAllocRegion_holds map.laid.bounded word run
  obtain ⟨c, stat, run', map', usable⟩ := memAllocRegion_ok map room order word mem holds below rand physMemStat
  obtain ⟨-, rfl, -⟩ := Prod.mk.inj (Except.ok.inj (run'.symm.trans run)) |>.imp id Prod.mk.inj
  exact ⟨map', fun x inside => ((usable x).mp inside).1⟩

/-- **What is not usable is not handed out**, by any call however many calls later. -/
theorem handed_out_once {b b' c : MemMapBlock} (map : MemMap b) (run : Relation.ReflTransGen MemAllocStep b b')
    {rand : Nat → Nat} {physMemStat physMemStat' : MemPhysStats} {start stop : Nat} {r : MemMapRegion}
    (word : stop < 2 ^ 64) (call : memAllocRegion rand b' physMemStat start stop = .ok (r, c, physMemStat')) {x : Nat}
    (gone : ¬ InType e820MemTypeUsable b.entries x) : ¬ r.Mem x := by
  have later : MemMap b' ∧ ¬ InType e820MemTypeUsable b'.entries x :=
    run_invariant (P := fun a => MemMap a ∧ ¬ InType e820MemTypeUsable a.entries x) run ⟨map, gone⟩
      fun a a' kept step => ⟨(kept.1.step step).1, fun inside => kept.2 ((kept.1.step step).2 x inside)⟩
  obtain ⟨order, e, mem, holds, below⟩ := memAllocRegion_holds later.1.laid.bounded word call
  obtain ⟨_, _, call'⟩ := memAllocRegion_returns later.1.laid.bounded order word mem holds below rand physMemStat
  obtain ⟨rfl, -⟩ := Prod.mk.inj (Except.ok.inj (call'.symm.trans call))
  rintro ⟨from_, to_⟩
  have low := holds.low
  have high := holds.high
  dsimp only at from_ to_
  exact later.2 ⟨e, mem, holds.usable, by omega, by omega⟩

/-- What `mem_alloc_region` is there for: it halts when no usable entry holds the range, and otherwise it
returns the range, takes it out of the usable memory and out of reach of every later call. -/
structure CarvesOut (b : MemMapBlock) (start stop : Nat) : Prop where
  refuses : ∀ rand physMemStat, memAllocRegion rand b physMemStat start stop = .error .bugOn ↔
    ∀ e ∈ b.entries, ¬ HoldsUsable e start stop
  takes : (∃ e ∈ b.entries, HoldsUsable e start stop) → ∀ rand physMemStat, ∃ b' physMemStat',
    memAllocRegion rand b physMemStat start stop =
      .ok (⟨start, stop - start, e820MemTypeReserved⟩, b', physMemStat') ∧
    (∀ x, InType e820MemTypeUsable b'.entries x ↔
      InType e820MemTypeUsable b.entries x ∧ ¬ (start ≤ x ∧ x < stop)) ∧
    MemMap b' ∧
    ∀ later, Relation.ReflTransGen MemAllocStep b' later →
      ∀ rand physMemStat start' stop' r c physMemStat', stop' < 2 ^ 64 →
        memAllocRegion rand later physMemStat start' stop' = .ok (r, c, physMemStat') →
        ∀ x, start ≤ x → x < stop → ¬ r.Mem x

/-- **`mem_alloc_region` carves out exactly the requested range**, unless the entry that holds it ends at
the top of the address space: the end of that entry is 0 in 64 bits, and the call halts. -/
theorem mem_alloc_region_carves_iff {b : MemMapBlock} {start stop : Nat} (map : MemMap b)
    (room : b.numEntries + 2 < 2 ^ 64) (order : start < stop) (word : stop < 2 ^ 64) :
    CarvesOut b start stop ↔ ∀ e ∈ b.entries, HoldsUsable e start stop → e.baseAddr + e.length < 2 ^ 64 := by
  constructor
  · intro carves e mem holds
    by_contra top
    have lacking : ∀ f ∈ b.entries, HoldsUsable f start stop → ¬ f.baseAddr + f.length < 2 ^ 64 := by
      intro f memf holds'
      -- the two entries share the range, so they are one
      have := holds.low
      have := holds.high
      have := holds'.low
      have := holds'.high
      rcases map.laid.apart mem memf with rfl | before | behind
      · exact top
      · omega
      · omega
    have halts := memAllocRegion_refuses map.laid.bounded order word lacking (fun _ => 0) ⟨0, 0⟩
    exact (carves.refuses _ _).mp halts e mem holds
  · intro below
    refine ⟨fun rand physMemStat => ⟨fun halts e mem holds => ?_, fun lacking => ?_⟩, ?_⟩
    · obtain ⟨b', stat, run, -⟩ := memAllocRegion_ok map room order word mem holds (below e mem holds) rand physMemStat
      rw [run] at halts
      cases halts
    · exact memAllocRegion_refuses map.laid.bounded order word (fun e mem holds => absurd holds (lacking e mem)) ..
    · rintro ⟨e, mem, holds⟩ rand physMemStat
      obtain ⟨b', stat, run, map', usable⟩ :=
        memAllocRegion_ok map room order word mem holds (below e mem holds) rand physMemStat
      refine ⟨b', stat, run, usable, map', ?_⟩
      intro later runs rand' stat' start' stop' r c stat'' word' call x from_ to_
      exact handed_out_once map' runs word' call fun inside => ((usable x).mp inside).2 ⟨from_, to_⟩

/-! ### A map of one usable entry -/

/-- The first MiB is reserved, and an entry behind it is usable. -/
def usableAt (base length : Nat) : MemMapBlock where
  numEntries := 2
  memRegion := fun i => if i = 0 then firstMb else if i = 1 then ⟨base, length, e820MemTypeUsable⟩ else .zero

theorem usableAt_entries (base length : Nat) : (usableAt base length).entries =
    [firstMb, ⟨base, length, e820MemTypeUsable⟩] := rfl

theorem usableAt_map {base length : Nat} (above : 0x100000 ≤ base) (pos : 0 < length)
    (within : base + length ≤ 2 ^ 64) : MemMap (usableAt base length) where
  laid := by
    rw [usableAt_entries, laid_cons, laid_cons]
    refine ⟨by decide, by decide, ?_, pos, within, by simp, by simp, by simp, .nil⟩
    exact List.forall_mem_singleton.mpr above
  words := by
    rw [usableAt_entries, List.forall_mem_cons]
    exact ⟨by decide, List.forall_mem_singleton.mpr (by dsimp only; omega)⟩
  typed := by
    rw [usableAt_entries, List.forall_mem_cons]
    exact ⟨.inr rfl, List.forall_mem_singleton.mpr (.inl rfl)⟩
  spare := fun j behind => by
    have two : 2 ≤ j := behind
    show (if j = 0 then _ else if j = 1 then _ else _) = _
    rw [if_neg (by omega), if_neg (by omega)]

theorem usableAt_holds {base length start stop : Nat} {e : MemMapRegion} (mem : e ∈ (usableAt base length).entries)
    (holds : HoldsUsable e start stop) : e = ⟨base, length, e820MemTypeUsable⟩ := by
  rw [usableAt_entries, List.mem_cons, List.mem_singleton] at mem
  rcases mem with rfl | rfl
  · exact absurd holds.usable (by decide)
  · rfl

/-- A range in the middle of an entry. -/
theorem mem_alloc_region_carves_middle : CarvesOut (usableAt 0x100000 0x300000) 0x200000 0x280000 := by
  refine (mem_alloc_region_carves_iff (usableAt_map (by decide) (by decide) (by decide)) (by decide) (by decide)
    (by decide)).mpr fun e mem holds => ?_
  rw [usableAt_holds mem holds]
  decide

/-- The last two pages of the address space are usable, and a call for the first of them halts. -/
theorem mem_alloc_region_refuses_top :
    MemMap (usableAt (2 ^ 64 - 0x2000) 0x2000) ∧
    (∃ e ∈ (usableAt (2 ^ 64 - 0x2000) 0x2000).entries, HoldsUsable e (2 ^ 64 - 0x2000) (2 ^ 64 - 0x1000)) ∧
    ¬ CarvesOut (usableAt (2 ^ 64 - 0x2000) 0x2000) (2 ^ 64 - 0x2000) (2 ^ 64 - 0x1000) := by
  have map : MemMap (usableAt (2 ^ 64 - 0x2000) 0x2000) := usableAt_map (by decide) (by decide) (by decide)
  have mem : ⟨2 ^ 64 - 0x2000, 0x2000, e820MemTypeUsable⟩ ∈ (usableAt (2 ^ 64 - 0x2000) 0x2000).entries := by
    rw [usableAt_entries]
    exact List.mem_cons_of_mem _ (List.mem_singleton_self _)
  have holds : HoldsUsable ⟨2 ^ 64 - 0x2000, 0x2000, e820MemTypeUsable⟩ (2 ^ 64 - 0x2000) (2 ^ 64 - 0x1000) :=
    ⟨rfl, by decide, by decide⟩
  refine ⟨map, ⟨_, mem, holds⟩, fun carves => ?_⟩
  have halts := memAllocRegion_refuses map.laid.bounded (show 2 ^ 64 - 0x2000 < 2 ^ 64 - 0x1000 by decide) (by decide)
    (fun e mem holds => by rw [usableAt_holds mem holds]; decide) (fun _ => 0) ⟨0, 0⟩
  exact (carves.refuses _ _).mp halts _ mem holds

end AlmeidaOS.Kernel
