import AlmeidaOS.Laws.Arch.MemAlloc

/-!
# An amount of memory from the map

`mem_alloc_amount` looks for an entry with room for the amount behind the rounded base address, and then
asks `mem_alloc_region` for the range at the entry's own base address. What it returns is the front of the
first entry that passes, aligned or not (`memAllocAmount_returns`).
-/

namespace AlmeidaOS.Kernel

open MemMapBlock

/-- Some usable entry holds an aligned range of the length. -/
def HoldsAligned (b : MemMapBlock) (length addrAlign : Nat) : Prop :=
  ∃ e ∈ b.entries, ∃ start, addrAlign ∣ start ∧ HoldsUsable e start (start + length)

/-- What `mem_alloc_amount` is there for: an aligned range of usable memory if there is one, and a halt
otherwise. -/
structure HonoursAlignment (b : MemMapBlock) (length addrAlign : Nat) : Prop where
  serves : HoldsAligned b length addrAlign → ∀ rand physMemStat, ∃ r b' physMemStat',
    memAllocAmount rand b physMemStat length addrAlign = .ok (r, b', physMemStat') ∧
    r.length = length ∧ addrAlign ∣ r.baseAddr ∧ ∀ x, r.Mem x → InType e820MemTypeUsable b.entries x
  refuses : ¬ HoldsAligned b length addrAlign → ∀ rand physMemStat,
    memAllocAmount rand b physMemStat length addrAlign = .error .bugOn

/-- The entry at which the loop stops begins at a multiple of the alignment and ends below the top of the
address space. Where the loop stops at none, none holds an aligned range. -/
def StopsAligned (b : MemMapBlock) (length addrAlign : Nat) : Prop :=
  match b.entries.find? (fitsAligned length addrAlign) with
  | some e => addrAlign ∣ e.baseAddr ∧ e.baseAddr + e.length < 2 ^ 64
  | none => ¬ HoldsAligned b length addrAlign

section Amount

variable {b : MemMapBlock} {length a : Nat} {e : MemMapRegion}

theorem clp2_pow (power : a < 64) : clp2 (2 ^ a) = 2 ^ a := by
  rw [clp2_eq (Nat.ne_of_gt (Nat.two_pow_pos a)) (Nat.pow_le_pow_right (by decide) (by omega)),
    Nat.clog_pow 2 a (by decide)]

theorem find?_entries (b : MemMapBlock) (p : MemMapRegion → Bool) :
    b.entries.find? p = ((List.range b.numEntries).find? fun i => p (b.memRegion i)).map b.memRegion :=
  List.find?_map ..

theorem memAllocAmount_none (pos : 0 < length) (power : a < 64)
    (missing : b.entries.find? (fitsAligned length (2 ^ a)) = none) (rand : Nat → Nat) (physMemStat : MemPhysStats) :
    memAllocAmount rand b physMemStat length (2 ^ a) = .error .bugOn := by
  rw [find?_entries, Option.map_eq_none_iff] at missing
  rw [memAllocAmount, bugOn_of_not (by omega), bugOn_of_not (by rw [clp2_pow power]; exact fun ne => ne rfl)]
  simp only [ok_bind, missing, pure_eq_ok]
  rfl

/-- The call is for the entry's own base address. -/
theorem memAllocAmount_some (pos : 0 < length) (power : a < 64)
    (found : b.entries.find? (fitsAligned length (2 ^ a)) = some e) (rand : Nat → Nat) (physMemStat : MemPhysStats) :
    memAllocAmount rand b physMemStat length (2 ^ a) =
      (memAllocRegion rand b physMemStat e.baseAddr (Word.add e.baseAddr length) >>= fun out => do
        bugOn (memIsEntryEmpty out.1)
        pure out) := by
  rw [find?_entries, Option.map_eq_some_iff] at found
  obtain ⟨i, stops, rfl⟩ := found
  rw [memAllocAmount, bugOn_of_not (by omega), bugOn_of_not (by rw [clp2_pow power]; exact fun ne => ne rfl)]
  simp only [ok_bind, stops]

theorem fitsAligned_iff {addrAlign : Nat} : fitsAligned length addrAlign e = true ↔
    length ≤ e.length ∧ e.type = e820MemTypeUsable ∧ e.baseAddr ≤ roundUpPo2 e.baseAddr addrAlign ∧
      Word.add (roundUpPo2 e.baseAddr addrAlign) length ≤ Word.add e.baseAddr e.length := by
  simp only [fitsAligned, Bool.and_eq_true, decide_eq_true_eq, and_assoc]

/-- Where the loop stops below the top, the call returns the front of the entry. -/
theorem memAllocAmount_returns (bounded : ∀ e ∈ b.entries, e.baseAddr + e.length ≤ 2 ^ 64) (pos : 0 < length)
    (power : a < 64) (found : b.entries.find? (fitsAligned length (2 ^ a)) = some e)
    (below : e.baseAddr + e.length < 2 ^ 64) (rand : Nat → Nat) (physMemStat : MemPhysStats) :
    ∃ b' physMemStat', memAllocAmount rand b physMemStat length (2 ^ a) =
      .ok (⟨e.baseAddr, length, e820MemTypeReserved⟩, b', physMemStat') := by
  obtain ⟨room, usable, -⟩ := fitsAligned_iff.mp (List.find?_some found)
  have stop : Word.add e.baseAddr length = e.baseAddr + length := Word.add_of_lt (by omega)
  obtain ⟨b', stat, run⟩ := memAllocRegion_returns bounded (show e.baseAddr < e.baseAddr + length by omega) (by omega)
    (List.mem_of_find?_eq_some found) ⟨usable, Nat.le_refl _, by omega⟩ below rand physMemStat
  rw [Nat.add_sub_cancel_left] at run
  refine ⟨b', stat, ?_⟩
  rw [memAllocAmount_some pos power found, stop, run, ok_bind, bugOn_of_not]
  · rfl
  · simp only [memIsEntryEmpty, Bool.and_eq_true, decide_eq_true_eq, not_and]
    intro _
    decide

/-- Where the loop stops at an entry that ends at the top, the call halts. -/
theorem memAllocAmount_top (laid : Laid (2 ^ 64) b.entries) (pos : 0 < length) (power : a < 64)
    (found : b.entries.find? (fitsAligned length (2 ^ a)) = some e) (top : e.baseAddr + e.length = 2 ^ 64)
    (rand : Nat → Nat) (physMemStat : MemPhysStats) :
    memAllocAmount rand b physMemStat length (2 ^ a) = .error .bugOn := by
  have mem := List.mem_of_find?_eq_some found
  obtain ⟨room, -, -⟩ := fitsAligned_iff.mp (List.find?_some found)
  have halts : memAllocRegion rand b physMemStat e.baseAddr (Word.add e.baseAddr length) = .error .bugOn := by
    rcases Nat.lt_or_ge (e.baseAddr + length) (2 ^ 64) with low | wraps
    · rw [Word.add_of_lt low]
      refine memAllocRegion_refuses laid.bounded (by omega) low (fun f memf holds => ?_) rand physMemStat
      have := holds.low
      have := holds.high
      rcases laid.apart mem memf with rfl | before | behind
      · omega
      · omega
      · omega
    · have wrapped : Word.add e.baseAddr length = 0 := by
        rw [Word.add, show e.baseAddr + length = 2 ^ 64 by omega, Nat.mod_self]
      rw [wrapped, memAllocRegion, bugOn, if_pos (Nat.zero_le _)]
      rfl
  rw [memAllocAmount_some pos power found, halts]
  rfl

/-- An entry at the top at which the loop stops holds an aligned range. -/
theorem holdsAligned_top (length_lt : length < 2 ^ 64) (pos : 0 < length) (power : a < 64)
    (found : b.entries.find? (fitsAligned length (2 ^ a)) = some e) (top : e.baseAddr + e.length = 2 ^ 64) :
    HoldsAligned b length (2 ^ a) := by
  obtain ⟨-, usable, above, fits⟩ := fitsAligned_iff.mp (List.find?_some found)
  have word : roundUpPo2 e.baseAddr (2 ^ a) < 2 ^ 64 := by
    rw [roundUpPo2_mask power]
    exact Nat.lt_of_le_of_lt (Nat.div_mul_le_self ..) (Word.sub_lt ..)
  rw [Word.add, Word.add, top] at fits
  exact ⟨e, List.mem_of_find?_eq_some found, _, dvd_roundUpPo2 power, usable, above, by omega⟩

end Amount

/-- **`mem_alloc_amount` honours its alignment iff the entry it stops at happens to be aligned.** It tests
the rounded address and then takes the range from the front of the entry. -/
theorem mem_alloc_amount_honours_iff {b : MemMapBlock} {length a : Nat} (laid : Laid (2 ^ 64) b.entries)
    (pos : 0 < length) (word : length < 2 ^ 64) (power : a < 64) :
    HonoursAlignment b length (2 ^ a) ↔ StopsAligned b length (2 ^ a) := by
  rw [StopsAligned]
  cases found : b.entries.find? (fitsAligned length (2 ^ a)) with
  | none =>
    have halts := memAllocAmount_none pos power found
    constructor
    · intro honours holds
      obtain ⟨r, b', stat, run, -⟩ := honours.serves holds (fun _ => 0) ⟨0, 0⟩
      rw [halts] at run
      cases run
    · exact fun lacking => ⟨fun holds => absurd holds lacking, fun _ => halts⟩
  | some e =>
    have mem := List.mem_of_find?_eq_some found
    constructor
    · intro honours
      rcases Nat.lt_or_eq_of_le (laid.bounded e mem) with below | top
      · refine ⟨?_, below⟩
        obtain ⟨b', stat, run⟩ := memAllocAmount_returns laid.bounded pos power found below (fun _ => 0) ⟨0, 0⟩
        by_cases holds : HoldsAligned b length (2 ^ a)
        · obtain ⟨r, c, stat', run', -, aligned, -⟩ := honours.serves holds (fun _ => 0) ⟨0, 0⟩
          obtain ⟨rfl, -⟩ := Prod.mk.inj (Except.ok.inj (run.symm.trans run'))
          exact aligned
        · rw [honours.refuses holds] at run
          cases run
      · obtain ⟨r, b', stat, run, -⟩ := honours.serves (holdsAligned_top word pos power found top) (fun _ => 0) ⟨0, 0⟩
        rw [memAllocAmount_top laid pos power found top] at run
        cases run
    · rintro ⟨aligned, below⟩
      obtain ⟨room, usable, -⟩ := fitsAligned_iff.mp (List.find?_some found)
      refine ⟨fun _ rand physMemStat => ?_, fun lacking => ?_⟩
      · obtain ⟨b', stat, run⟩ := memAllocAmount_returns laid.bounded pos power found below rand physMemStat
        refine ⟨_, b', stat, run, rfl, aligned, fun x inside => ⟨e, mem, usable, inside.1, ?_⟩⟩
        have := inside.2
        dsimp only at this
        omega
      · exact absurd ⟨e, mem, _, aligned, usable, Nat.le_refl _, by omega⟩ lacking

/-- One page out of an entry that begins at a page. -/
theorem mem_alloc_amount_honours_page : HonoursAlignment (usableAt 0x100000 0x10000) 0x1000 (2 ^ 12) := by
  refine (mem_alloc_amount_honours_iff (usableAt_map (by decide) (by decide) (by decide)).laid (by decide) (by decide)
    (by decide)).mpr ?_
  have found : (usableAt 0x100000 0x10000).entries.find? (fitsAligned 0x1000 (2 ^ 12)) =
      some ⟨0x100000, 0x10000, e820MemTypeUsable⟩ := by
    rw [usableAt_entries]
    decide
  rw [StopsAligned, found]
  exact ⟨by decide, by decide⟩

/-- An entry that begins half a page late holds an aligned page, and the call returns its first bytes. -/
theorem mem_alloc_amount_off_page :
    MemMap (usableAt 0x100800 0x10000) ∧ HoldsAligned (usableAt 0x100800 0x10000) 0x1000 (2 ^ 12) ∧
    (∃ b' physMemStat', memAllocAmount (fun _ => 0) (usableAt 0x100800 0x10000) ⟨0, 0⟩ 0x1000 (2 ^ 12) =
      .ok (⟨0x100800, 0x1000, e820MemTypeReserved⟩, b', physMemStat')) ∧
    ¬ HonoursAlignment (usableAt 0x100800 0x10000) 0x1000 (2 ^ 12) := by
  have map : MemMap (usableAt 0x100800 0x10000) := usableAt_map (by decide) (by decide) (by decide)
  have mem : ⟨0x100800, 0x10000, e820MemTypeUsable⟩ ∈ (usableAt 0x100800 0x10000).entries := by
    rw [usableAt_entries]
    exact List.mem_cons_of_mem _ (List.mem_singleton_self _)
  have holds : HoldsAligned (usableAt 0x100800 0x10000) 0x1000 (2 ^ 12) :=
    ⟨_, mem, 0x101000, by decide, rfl, by decide, by decide⟩
  have found : (usableAt 0x100800 0x10000).entries.find? (fitsAligned 0x1000 (2 ^ 12)) =
      some ⟨0x100800, 0x10000, e820MemTypeUsable⟩ := by
    rw [usableAt_entries]
    decide
  obtain ⟨b', stat, run⟩ := memAllocAmount_returns map.laid.bounded (by decide) (by decide) found (by decide)
    (fun _ => 0) ⟨0, 0⟩
  refine ⟨map, holds, ⟨b', stat, run⟩, fun honours => ?_⟩
  obtain ⟨r, c, stat', run', -, aligned, -⟩ := honours.serves holds (fun _ => 0) ⟨0, 0⟩
  obtain ⟨rfl, -⟩ := Prod.mk.inj (Except.ok.inj (run.symm.trans run'))
  exact absurd aligned (by decide)

end AlmeidaOS.Kernel
