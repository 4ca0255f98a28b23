import AlmeidaOS.Laws.Mm.PageTable

/-!
# Addresses that survive a conversion

Two places turn an address into something else and back. `va` and `pa` move between a physical address
and its place in the linear map; an entry of a page table holds the number of a frame and gives its
address back.

Each accepts more than it converts. The linear map has room for `2 ^ 47` bytes, `va` lets `2 ^ 48`
through and wraps in the upper half; `pa` compares with the largest physical address where the start of
the map was meant, and wraps below that start. The mask of `PREP_BASE_ADDR` has `64 - 36` bits where the
field has 36.
-/

namespace AlmeidaOS.Kernel

/-! ## The linear map and back -/

theorem physAddrMaxBoundary_eq : physAddrMaxBoundary = 2 ^ 48 - 1 := by decide

theorem va_eq_ok_iff {p v : Nat} : va p = .ok v ↔ p < 2 ^ 48 ∧ v = Word.add virtAddrKernelStart p := by
  have boundary : ¬ p > physAddrMaxBoundary ↔ p < 2 ^ 48 := by
    rw [physAddrMaxBoundary_eq]
    omega
  rw [va, bugOn_bind_eq_ok, boundary, pure_eq_ok, Except.ok.injEq]
  exact and_congr_right fun _ => eq_comm

theorem pa_eq_ok_iff {v p : Nat} : pa v = .ok p ↔ 2 ^ 48 - 1 ≤ v ∧ p = Word.sub v virtAddrKernelStart := by
  have boundary : ¬ v < physAddrMaxBoundary ↔ 2 ^ 48 - 1 ≤ v := by
    rw [physAddrMaxBoundary_eq]
    omega
  rw [pa, bugOn_bind_eq_ok, boundary, pure_eq_ok, Except.ok.injEq]
  exact and_congr_right fun _ => eq_comm

/-- `va` gives an address of the kernel half, and `pa` takes it back. -/
def VaReturns (p : Nat) : Prop := ∃ v, va p = .ok v ∧ 0xffff800000000000 ≤ v ∧ pa v = .ok p

/-- `pa` gives an address that `va` takes back. -/
def PaReturns (v : Nat) : Prop := ∃ p, pa v = .ok p ∧ va p = .ok v

/-- **The address conversions are inverse on the linear map only.** Of the physical addresses that `va`
accepts, those below `2 ^ 47` come back; of the virtual addresses that `pa` accepts, those from
`VIRT_ADDR_KERNEL_START` on. -/
theorem va_pa_inverse_iff {p v : Nat} (word : v < 2 ^ 64) (passesVa : ∃ x, va p = .ok x)
    (passesPa : ∃ q, pa v = .ok q) :
    (VaReturns p ↔ p < 2 ^ 47) ∧ (PaReturns v ↔ 0xffff800000000000 ≤ v) := by
  obtain ⟨x, passes⟩ := passesVa
  have below := (va_eq_ok_iff.mp passes).1
  obtain ⟨q, passes'⟩ := passesPa
  have above := (pa_eq_ok_iff.mp passes').1
  have start : virtAddrKernelStart = 0xffff800000000000 := rfl
  constructor
  · constructor
    · rintro ⟨y, conv, high, -⟩
      rw [(va_eq_ok_iff.mp conv).2, Word.add] at high
      omega
    · intro low
      refine ⟨virtAddrKernelStart + p, va_of_lt low, by omega, pa_eq_ok_iff.mpr ⟨by omega, ?_⟩⟩
      exact (linear_start low).symm
  · constructor
    · rintro ⟨y, conv, back⟩
      have accepted := (va_eq_ok_iff.mp back).1
      rw [(pa_eq_ok_iff.mp conv).2, Word.sub] at accepted
      omega
    · intro high
      refine ⟨v - virtAddrKernelStart, pa_eq_ok_iff.mpr ⟨above, ?_⟩, va_eq_ok_iff.mpr ⟨by omega, ?_⟩⟩
      · rw [Word.sub_of_le word (by omega)]
      · rw [Word.add_of_lt (by omega)]
        omega

/-- The first megabyte and the address it is mapped at. -/
theorem va_pa_inverse_first_mb : VaReturns 0x100000 ∧ PaReturns 0xffff800000100000 := by
  have both := va_pa_inverse_iff (p := 0x100000) (v := 0xffff800000100000) (by decide)
    ⟨0xffff800000100000, by decide⟩ ⟨0x100000, by decide⟩
  exact ⟨both.1.mpr (by decide), both.2.mpr (by decide)⟩

/-- The physical address `2 ^ 47` is mapped to `0`, which `pa` refuses. `pa` accepts `2 ^ 48`, below the
map, and gives an address that `va` refuses. -/
theorem va_pa_not_inverse :
    (va (2 ^ 47) = .ok 0 ∧ pa 0 = .error .bugOn ∧ ¬ VaReturns (2 ^ 47)) ∧
    pa (2 ^ 48) = .ok (2 ^ 48 + 2 ^ 47) ∧ va (2 ^ 48 + 2 ^ 47) = .error .bugOn ∧ ¬ PaReturns (2 ^ 48) := by
  have wraps : va (2 ^ 47) = .ok 0 := by decide
  have below : pa (2 ^ 48) = .ok (2 ^ 48 + 2 ^ 47) := by decide
  refine ⟨⟨wraps, by decide, ?_⟩, below, by decide, ?_⟩
  · rintro ⟨v, conv, high, -⟩
    cases wraps.symm.trans conv
    exact absurd high (by decide)
  · rintro ⟨p, conv, back⟩
    cases below.symm.trans conv
    exact absurd back (by decide)

/-! ## An entry and its frame -/

/-- The entry for a frame at `p`, built as `page_alloc` builds it, holds the frame's number in bits 12 to
51 and the flags in bits 0 to 11, and the decoder of `page_free_resources` gives `p` back. -/
def EncodesFaithfully (p flags : Nat) : Prop :=
  let entry := packEntry flags (prepBaseAddr p)
  entry < 2 ^ 64 ∧ entry >>> 12 % 2 ^ 40 = p >>> 12 ∧ entry % 2 ^ 12 = flags ∧
    extractBitChunk 12 51 entry <<< 12 = p

/-- **An entry holds a frame's address iff the frame lies below `2 ^ 40`**: the mask keeps 28 bits of the
frame's number. -/
theorem entry_encodes_iff_below_mask {p flags : Nat} (aligned : 4096 ∣ p) (below : p < 2 ^ 48) (bits : flags < 2 ^ 12) :
    EncodesFaithfully p flags ↔ p < 2 ^ 40 := by
  have number : packEntry flags (prepBaseAddr p) >>> 12 % 2 ^ 40 = p / 4096 % 2 ^ 28 := by
    rw [Nat.shiftRight_eq_div_pow, packEntry_eq, prepBaseAddr_eq]
    omega
  have decoded : extractBitChunk 12 51 (packEntry flags (prepBaseAddr p)) <<< 12 = p / 4096 % 2 ^ 28 * 4096 := by
    rw [extractBitChunk_eq (by decide), Nat.shiftLeft_eq, ← number, Nat.shiftRight_eq_div_pow]
  have low : packEntry flags (prepBaseAddr p) % 2 ^ 12 = flags :=
    (packEntry_mod flags (prepBaseAddr p)).trans (Nat.mod_eq_of_lt bits)
  constructor
  · rintro ⟨-, -, -, back⟩
    rw [decoded] at back
    omega
  · intro short
    refine ⟨packEntry_lt _ _, ?_, low, ?_⟩
    · rw [number, Nat.shiftRight_eq_div_pow]
      omega
    · rw [decoded]
      omega

theorem entry_encodes_last_frame : EncodesFaithfully (2 ^ 40 - 4096) 7 :=
  (entry_encodes_iff_below_mask (by decide) (by decide) (by decide)).mpr (by decide)

/-- The entry for the frame at one tebibyte points to the frame at `0`. -/
theorem entry_loses_frame : packEntry 3 (prepBaseAddr (2 ^ 40)) = 3 ∧ ¬ EncodesFaithfully (2 ^ 40) 3 := by
  have entry : packEntry 3 (prepBaseAddr (2 ^ 40)) = 3 := by decide
  refine ⟨entry, ?_⟩
  rintro ⟨-, -, -, back⟩
  rw [entry] at back
  exact absurd back (by decide)

end AlmeidaOS.Kernel
