import AlmeidaOS.Laws.Mm.ContiguousMap
import AlmeidaOS.Laws.Mm.PageBudget

/-!
# Page tables that never run out of frames

A page table is `Funded` for some paths when its pool has a frame for every table on them that is not there
yet. A call of `page_alloc` for an address below the paths then returns and leaves it so
(`Funded.pageAlloc`), for it takes as many frames as it makes tables. The kernel's table is funded for the
linear map of the memory it manages, a task's for the few pages of its program.
-/

namespace AlmeidaOS.Kernel

open Radix

/-- The pool has a free frame for every table on these paths that is not there yet. -/
def Funded (P : Pool) (m : Mem) (pgtable : PageTable) (r : Nat) (paths : Finset (List (Fin 512))) : Prop :=
  ∃ free used, Tables P m pgtable.pfdb r free used ∧
    (vacant frameNumber (entries m) r paths).card ≤ free.length

/-- The paths to the tables of `[0, bytes)` in the linear map. -/
abbrev linearPaths (bytes : Nat) : Finset (List (Fin 512)) := tablePaths (pageTables bytes)

namespace Funded

variable {P : Pool} {m : Mem} {pgtable : PageTable} {r w : Nat} {paths : Finset (List (Fin 512))}
  (funded : Funded P m pgtable r paths) (short : ∀ js ∈ paths, js.length ≤ 3)

/-- A new page table whose pool has a frame for every path. -/
theorem init {free used : List Nat} (T : Tables P m pgtable.pfdb r free used) (empty : ∀ j, entries m r j = 0)
    (root : [] ∈ paths) (enough : paths.card ≤ free.length + 1) : Funded P m pgtable r paths := by
  have room : (vacant frameNumber (entries m) r paths).card + 1 = _ := card_vacant_of_empty empty root
  exact ⟨free, used, T, by omega⟩

include funded short

/-- The pool depends on its bytes only. -/
theorem congr {m' : Mem} {s : Set Nat} (same : m.SameOff s m') (off : ∀ x ∈ P.Bytes, x ∉ s) :
    Funded P m' pgtable r paths := by
  obtain ⟨free, used, T, room⟩ := funded
  obtain ⟨T', tables⟩ := T.congr same off
  refine ⟨free, used, T', ?_⟩
  have still : vacant frameNumber (entries m') r paths = vacant frameNumber (entries m) r paths := by
    ext js
    simp only [mem_vacant]
    refine and_congr_right fun mem => ?_
    rw [reach_agree tables (short js mem)]
  rwa [still]

variable (virtRoot : pgtable.virtRoot = virtAddrKernelStart + 4096 * r) (reached : P.Reached w r)

include virtRoot reached

/-- A call for an address below the paths returns, and what is left covers what is still missing. -/
theorem pageAlloc {c : PageCall} (valid : c.Valid) (within : ∀ ps, ps <+: path c.vAddr → ps ∈ paths) :
    ∃ m' pfdb', pageAlloc w m pgtable c.vAddr c.pDestAddr c.flags = .ok (m', { pgtable with pfdb := pfdb' }) ∧
      Funded P m' { pgtable with pfdb := pfdb' } r paths := by
  obtain ⟨free, used, T, room⟩ := funded
  have odd := valid.present
  have flagged : c.flags % 4096 ≠ 0 ∨ 0 < P.first := .inl (by omega)
  rcases T.pageAlloc (v := c.vAddr) (p := c.pDestAddr) virtRoot flagged reached with
    ⟨-, lack⟩ | ⟨m', pfdb', free', used', run, count, T', grows, -, leaf⟩
  · have := (missing_le_vacant within).trans room
    omega
  have written : lookup frameNumber (entries m') r (path c.vAddr) (ptIndex c.vAddr) ≠ 0 := by
    rw [leaf _ _ (path_length _)]
    split
    · exact present_ne_zero (valid.entry_present _)
    · rename_i kept
      exact fun zero => kept ⟨⟨rfl, rfl⟩, zero⟩
  obtain ⟨t, filled⟩ := reach_of_lookup written
  have fewer := vacant_add_missing_le within (fun js u mem at_ => ⟨u, grows.reach js u (short js mem) at_⟩) filled
  exact ⟨m', pfdb', run, free', used', T', by omega⟩

/-- Mapping pages in a row. -/
theorem pagingContiguousMap {flags n p pEnd v : Nat} (top : pEnd < 2 ^ 40) (word : v < 2 ^ 64)
    (lower : p + 4096 * n ≤ pEnd + 4096) (upper : pEnd < p + 4096 * n)
    (row : ∀ c ∈ rowCalls flags p v n, c.Valid ∧ ∀ ps, ps <+: path c.vAddr → ps ∈ paths) :
    ∃ m' pfdb', Returns (fun fuel => pagingContiguousMap w flags fuel m pgtable p pEnd v) (n + 1)
        (m', { pgtable with pfdb := pfdb' }) ∧ Funded P m' { pgtable with pfdb := pfdb' } r paths := by
  induction n generalizing m pgtable p v with
  | zero =>
    refine ⟨m, pgtable.pfdb, .succ (fun _ => .ok (m, pgtable)) rfl (fun fuel => ?_) (.ok _ _), funded⟩
    rw [Kernel.pagingContiguousMap, if_neg (by omega)]
  | succ n ih =>
    rw [rowCalls_succ word, List.forall_mem_cons] at row
    obtain ⟨⟨valid, within⟩, row⟩ := row
    obtain ⟨m₁, pfdb₁, run, funded₁⟩ := funded.pageAlloc short virtRoot reached valid within
    have step : ∀ fuel, Kernel.pagingContiguousMap w flags (fuel + 1) m pgtable p pEnd v = _ :=
      fun fuel => if_pos (show p ≤ pEnd by omega)
    have ahead : Word.add p pageSize = p + 4096 := Word.add_of_lt (show p + 4096 < 2 ^ 64 by omega)
    simp only [run, ok_bind, ahead] at step
    obtain ⟨m', pfdb', returns, funded'⟩ := @ih m₁ { pgtable with pfdb := pfdb₁ } funded₁ virtRoot
      (p + 4096) _ (Nat.mod_lt _ (by decide)) (by omega) (by omega) row
    exact ⟨m', pfdb', .succ _ rfl step returns, funded'⟩

end Funded

/-! ## The linear map -/

theorem row_bounds {p pEnd : Nat} (le : p ≤ pEnd) :
    p + 4096 * ((pEnd - p) / 4096 + 1) ≤ pEnd + 4096 ∧ pEnd < p + 4096 * ((pEnd - p) / 4096 + 1) :=
  ⟨by omega, by omega⟩

theorem short_of_mem_linearPaths {bytes : Nat} : ∀ js ∈ linearPaths bytes, js.length ≤ 3 :=
  fun _ => short_of_mem_tablePaths

theorem nil_mem_linearPaths {bytes : Nat} (pos : 0 < bytes) (small : bytes ≤ 2 ^ 40) : [] ∈ linearPaths bytes := by
  have := pageTables_pos pos
  exact prefix_mem_tablePaths (x := 0) (pageTables_le small) (by omega) List.nil_prefix

theorem card_linearPaths {bytes : Nat} (pos : 0 < bytes) (small : bytes ≤ 2 ^ 40) :
    (linearPaths bytes).card = needed (pageTables bytes) := card_tablePaths (pageTables_pos pos) (pageTables_le small)

/-- The calls for pages of the range. -/
theorem rowCalls_within {flags p pEnd n bytes : Nat} (bits : flags < 2 ^ 12) (odd : flags % 2 = 1) (aligned : 4096 ∣ p)
    (lower : p + 4096 * n ≤ pEnd + 4096) (inside : pEnd < bytes) (small : bytes ≤ 2 ^ 40) :
    ∀ c ∈ rowCalls flags p (virtAddrKernelStart + p) n,
      c.Valid ∧ ∀ ps, ps <+: path c.vAddr → ps ∈ linearPaths bytes := by
  intro c mem
  obtain ⟨i, lt, rfl⟩ := mem_rowCalls.mp mem
  obtain ⟨k, rfl⟩ := aligned
  have place : Word.add (virtAddrKernelStart + 4096 * k) (4096 * i) = virtAddrKernelStart + 4096 * (k + i) := by
    unfold virtAddrKernelStart
    rw [Word.add_of_lt (by omega)]
    omega
  have maps : MapsPage bytes ⟨Word.add (virtAddrKernelStart + 4096 * k) (4096 * i), 4096 * k + 4096 * i, flags⟩ :=
    ⟨bits, odd, k + i, by omega, place, by simp only; omega⟩
  exact ⟨maps.valid small, fun ps => maps.path_mem small⟩

namespace Funded

variable {P : Pool} {m : Mem} {pgtable : PageTable} {r w bytes : Nat} (funded : Funded P m pgtable r (linearPaths bytes))
  (virtRoot : pgtable.virtRoot = virtAddrKernelStart + 4096 * r) (reached : P.Reached w r) (small : bytes ≤ 2 ^ 40)
  {flags p pEnd fuel : Nat} (bits : flags < 2 ^ 12) (odd : flags % 2 = 1) (aligned : 4096 ∣ p) (le : p ≤ pEnd)
  (inside : pEnd < bytes)

include funded virtRoot reached small bits odd aligned le inside

/-- Mapping a part of the range at its addresses in the linear map. -/
theorem mapsLinear : ∃ m' pfdb', Returns
    (fun fuel => Kernel.pagingContiguousMap w flags fuel m pgtable p pEnd (virtAddrKernelStart + p))
    ((pEnd - p) / 4096 + 1 + 1) (m', { pgtable with pfdb := pfdb' }) ∧
      Funded P m' { pgtable with pfdb := pfdb' } r (linearPaths bytes) := by
  obtain ⟨first, last⟩ := row_bounds le
  refine funded.pagingContiguousMap short_of_mem_linearPaths virtRoot reached (inside.trans_le small) ?_ first last
    (rowCalls_within bits odd aligned first inside small)
  unfold virtAddrKernelStart
  omega

theorem mapped {m' : Mem} {pgtable' : PageTable}
    (run : Kernel.pagingContiguousMap w flags fuel m pgtable p pEnd (virtAddrKernelStart + p) = .ok (m', pgtable')) :
    Funded P m' pgtable' r (linearPaths bytes) := by
  obtain ⟨m₁, pfdb₁, returns, funded'⟩ := funded.mapsLinear virtRoot reached small bits odd aligned le inside
  cases returns.only fuel _ run
  exact funded'

end Funded

end AlmeidaOS.Kernel
