import AlmeidaOS.Base.LongMode
import AlmeidaOS.Boot.PageTables

/-!
# What the first page tables map

Two entries of the first table lead to the same second table, so addresses from 0 and from
`0xffff800000000000` on are translated alike. The 64 page directories map 64 GiB, but the addresses in their
entries were counted in a register of 32 bits: behind 4 GiB they start over
(`Built.translate`).
-/

namespace AlmeidaOS.Boot

open LongMode

/-! ## The loops -/

/-- The low half of an entry is written, the high half was clear. -/
theorem load64_store_low {m : Mem} {a : Nat} (v : Nat) (clear : ∀ x, a + 4 ≤ x → x < a + 8 → m x = 0) :
    (m.store a 4 v).load64 a = v % 2 ^ 32 := by
  have high : (m.store a 4 v).load (a + 4) 4 = 0 := by
    apply Mem.load_zero
    intro x lower upper
    rw [Mem.store_byte (.inr lower)]
    exact clear x lower upper
  rw [Mem.load64, Mem.load_append _ a 4 4, Mem.load_store, high]
  rfl

section Loop

variable (step : Nat)

/-- Nothing but the entries is written. -/
theorem makePages_sameOff (ecx : Nat) {edi : Nat} (eax : Nat) (m : Mem) (fits : edi + 8 * ecx < 2 ^ 32) :
    Mem.SameOff (Set.Ico edi (edi + 8 * ecx)) m (makePages step ecx edi eax m) := by
  induction ecx generalizing edi eax m with
  | zero => exact .refl _ m
  | succ ecx ih =>
    have next : (edi + 8) % 2 ^ 32 = edi + 8 := Nat.mod_eq_of_lt (by omega)
    have stored : Mem.SameOff (Set.Ico edi (edi + 8 * (ecx + 1))) m (m.store edi 4 eax) :=
      .store fun x lower upper => ⟨lower, by omega⟩
    rw [makePages, next]
    refine stored.trans ((ih _ _ (by omega)).mono fun x inside => ?_)
    exact ⟨Nat.le_trans (Nat.le_add_right edi 8) inside.1, by have := inside.2; omega⟩

/-- The low half of each entry is counted up in a register, the high half stays clear. -/
theorem makePages_load64 (ecx : Nat) {edi i : Nat} (eax : Nat) {m : Mem} (fits : edi + 8 * ecx < 2 ^ 32) (inside : i < ecx)
    (clear : ∀ x, edi ≤ x → x < edi + 8 * ecx → m x = 0) :
    (makePages step ecx edi eax m).load64 (edi + 8 * i) = (eax + step * i) % 2 ^ 32 := by
  induction ecx generalizing edi i eax m with
  | zero => omega
  | succ ecx ih =>
    have next : (edi + 8) % 2 ^ 32 = edi + 8 := Nat.mod_eq_of_lt (by omega)
    rw [makePages, next]
    cases i with
    | zero =>
      -- The entries behind this one do not meet it.
      have rest := makePages_sameOff step ecx ((eax + step) % 2 ^ 32) (m.store edi 4 eax)
        (show edi + 8 + 8 * ecx < 2 ^ 32 by omega)
      rw [Nat.mul_zero, Nat.add_zero, Nat.mul_zero, Nat.add_zero,
        rest.load64 fun x lower upper inside => by have := inside.1; omega]
      exact load64_store_low eax fun x lower upper => clear x (by omega) (by omega)
    | succ i =>
      have later : edi + 8 * (i + 1) = edi + 8 + 8 * i := by omega
      rw [later, ih _ (by omega) (by omega)]
      · rw [Nat.mod_add_mod, Nat.mul_succ, Nat.add_comm (step * i), Nat.add_assoc]
      · intro x lower upper
        rw [Mem.store_byte (by omega)]
        exact clear x (by omega) (by omega)

end Loop

/-! ## The tables -/

/-- The tables after the call: what each level holds. -/
structure Built (m : Mem) : Prop where
  pml4 : m.load64 0x20000 = 0x21003
  pml4_high : m.load64 (0x20000 + 8 * 256) = 0x21003
  pdpt : ∀ i < 64, m.load64 (0x21000 + 8 * i) = 0x22003 + 0x1000 * i
  pd : ∀ i < 32768, m.load64 (0x22000 + 8 * i) = (0x83 + 0x200000 * i) % 2 ^ 32

/-- The tables are in the bytes from `0x20000` to `0x62000`. -/
theorem Built.congr {m m' : Mem} (built : Built m) (same : ∀ x, 0x20000 ≤ x → x < 0x62000 → m' x = m x) : Built m' := by
  have load : ∀ a, 0x20000 ≤ a → a + 8 ≤ 0x62000 → m'.load64 a = m.load64 a := fun a lower upper =>
    Mem.load_congr fun x from_ to_ => same x (by omega) (by omega)
  refine ⟨?_, ?_, fun i inside => ?_, fun i inside => ?_⟩
  · rw [load _ (by decide) (by decide), built.pml4]
  · rw [load _ (by decide) (by decide), built.pml4_high]
  · rw [load _ (by omega) (by omega), built.pdpt i inside]
  · rw [load _ (by omega) (by omega), built.pd i inside]

/-- The space for the tables is still clear from an address on. -/
def Clear (first : Nat) (m : Mem) : Prop := ∀ x, first ≤ x → x < 0x62000 → m x = 0

section Stages

variable {m m' : Mem} {first last : Nat}

theorem Clear.sameOff (clear : Clear first m) (same : Mem.SameOff (Set.Ico first last) m m') (le : first ≤ last) :
    Clear last m' := by
  intro x lower upper
  rw [same x fun inside => Nat.not_lt_of_le lower inside.2]
  exact clear x (Nat.le_trans le lower) upper

theorem clear_repStos (m : Mem) : Clear 0x20000 (repStos 32 4 0 0x10800 0x20000 m) := by
  have filled : repStos 32 4 0 0x10800 0x20000 m = m.fill 0x20000 0x42000 0 :=
    repStos_eq_fill (uniform_zero 4) (by decide) 0x10800 m (by decide)
  intro x lower upper
  rw [filled]
  exact Mem.fill_byte_inside lower upper

/-- The first table: both its entries lead to the second. -/
def roots (m : Mem) : Mem := (m.store 0x20000 4 0x21003).store 0x20800 4 0x21003

theorem roots_sameOff (m : Mem) : Mem.SameOff (Set.Ico 0x20000 0x21000) m (roots m) :=
  Mem.SameOff.trans (.store fun _ lower upper => ⟨lower, by omega⟩) (.store fun _ lower upper => ⟨by omega, by omega⟩)

theorem roots_load64 (clear : Clear 0x20000 m) :
    (roots m).load64 0x20000 = 0x21003 ∧ (roots m).load64 0x20800 = 0x21003 := by
  unfold roots
  constructor
  · rw [Mem.load64, Mem.load_store_of_disjoint (.inl (by decide))]
    exact load64_store_low 0x21003 fun x lower upper => clear x (by omega) (by omega)
  · refine load64_store_low 0x21003 fun x lower upper => ?_
    rw [Mem.store_byte (.inr (by omega))]
    exact clear x (by omega) (by omega)

end Stages

/-- `pm_setup_page_tables` builds the tables, whatever was in memory. -/
theorem built_pmSetupPageTables (m : Mem) : Built (pmSetupPageTables m) := by
  obtain ⟨cleared, isCleared⟩ : ∃ n, n = repStos 32 4 0 0x10800 0x20000 m := ⟨_, rfl⟩
  obtain ⟨linked, isLinked⟩ : ∃ n, n = makePages 0x1000 64 0x21000 0x22003 (roots cleared) := ⟨_, rfl⟩
  have whole : pmSetupPageTables m = makePages 0x200000 0x8000 0x22000 0x83 linked := by
    rw [isLinked, isCleared]
    rfl
  have clear : Clear 0x20000 cleared := isCleared ▸ clear_repStos m
  have clear₁ := clear.sameOff (roots_sameOff cleared) (by decide)
  have sameOff := makePages_sameOff 0x1000 64 0x22003 (roots cleared) (show 0x21000 + 8 * 64 < 2 ^ 32 by decide)
  have sameOff' := makePages_sameOff 0x200000 0x8000 0x83 linked (show 0x22000 + 8 * 0x8000 < 2 ^ 32 by decide)
  rw [← isLinked] at sameOff
  have clear₂ := clear₁.sameOff sameOff (by decide)
  obtain ⟨low, high⟩ := roots_load64 clear
  rw [whole]
  refine ⟨?_, ?_, fun i inside => ?_, fun i inside => ?_⟩
  · rw [sameOff'.load64 fun x lower upper inside => by have := inside.1; omega,
      sameOff.load64 fun x lower upper inside => by have := inside.1; omega]
    exact low
  · rw [sameOff'.load64 fun x lower upper inside => by have := inside.1; omega,
      sameOff.load64 fun x lower upper inside => by have := inside.1; omega]
    exact high
  · rw [sameOff'.load64 fun x lower upper inside => by have := inside.1; omega, isLinked,
      makePages_load64 0x1000 64 0x22003 (by decide) inside fun x lower upper => clear₁ x lower (by omega)]
    exact Nat.mod_eq_of_lt (by omega)
  · exact makePages_load64 0x200000 0x8000 0x83 (by decide) inside fun x lower upper => clear₂ x (by omega) (by omega)

/-! ## Translation -/

/-- **Both ways an address is translated to its low 32 bits.** -/
theorem Built.translate {m : Mem} (built : Built m) {a : Nat} (below : a < 2 ^ 36) {high : Nat}
    (start : high = 0 ∨ high = 0xffff800000000000) : LongMode.translate m 0x20000 (high + a) = some (a % 2 ^ 32) := by
  have first : entryAt m 0x20000 3 (high + a) = some 0x21003 := by
    refine entryAt_eq ?_ (by decide)
    rcases start with rfl | rfl
    · have slot : index 3 (0 + a) = 0 := by unfold index; omega
      rw [slot]
      exact built.pml4
    · have slot : index 3 (0xffff800000000000 + a) = 256 := by unfold index; omega
      rw [slot]
      exact built.pml4_high
  have second : entryAt m (frame 12 0x21003) 2 (high + a) = some (0x22003 + 0x1000 * (a / 2 ^ 30)) := by
    have slot : index 2 (high + a) = a / 2 ^ 30 := by unfold index; omega
    refine entryAt_eq ?_ (by unfold Present; omega)
    rw [slot]
    exact built.pdpt (a / 2 ^ 30) (by omega)
  have third : entryAt m (frame 12 (0x22003 + 0x1000 * (a / 2 ^ 30))) 1 (high + a) =
      some ((0x83 + 0x200000 * (a / 2 ^ 21)) % 2 ^ 32) := by
    have slot : frame 12 (0x22003 + 0x1000 * (a / 2 ^ 30)) + 8 * index 1 (high + a) = 0x22000 + 8 * (a / 2 ^ 21) := by
      unfold index frame
      omega
    refine entryAt_eq ?_ (by unfold Present; omega)
    rw [slot]
    exact built.pd (a / 2 ^ 21) (by omega)
  have offset : frame 21 ((0x83 + 0x200000 * (a / 2 ^ 21)) % 2 ^ 32) + (high + a) % 2 ^ 21 = a % 2 ^ 32 := by
    unfold frame
    omega
  rw [translate_large first second (by unfold PageSize; omega) third (by unfold PageSize; omega), offset]

/-- **The first page tables map 4 GiB to themselves.** Below 64 GiB an address, and the same address in the upper
half, are translated to the address itself if and only if it is below 4 GiB. -/
theorem boot_identity_map_iff (m : Mem) (a : Nat) (below : a < 64 * 2 ^ 30) :
    (translate (pmSetupPageTables m) pagingStartAddress a = some a ∧
      translate (pmSetupPageTables m) pagingStartAddress (0xffff800000000000 + a) = some a) ↔ a < 4 * 2 ^ 30 := by
  have low := (built_pmSetupPageTables m).translate below (.inl rfl)
  have high := (built_pmSetupPageTables m).translate below (.inr rfl)
  rw [Nat.zero_add] at low
  rw [pagingStartAddress, low, high, Option.some.injEq, and_self]
  omega

/-- An address just below 4 GiB, in memory that was full. -/
theorem boot_identity_map_last :
    translate (pmSetupPageTables ⟨fun _ => 0xff⟩) pagingStartAddress 0xffffffff = some 0xffffffff ∧
      translate (pmSetupPageTables ⟨fun _ => 0xff⟩) pagingStartAddress (0xffff800000000000 + 0xffffffff) = some 0xffffffff :=
  (boot_identity_map_iff ⟨fun _ => 0xff⟩ 0xffffffff (by decide)).mpr (by decide)

/-- At 4 GiB the mapping starts over. -/
theorem boot_maps_4gib_to_zero : translate (pmSetupPageTables ⟨fun _ => 0⟩) pagingStartAddress 0x100000000 = some 0 :=
  (built_pmSetupPageTables ⟨fun _ => 0⟩).translate (a := 0x100000000) (by decide) (.inl rfl)

end AlmeidaOS.Boot
