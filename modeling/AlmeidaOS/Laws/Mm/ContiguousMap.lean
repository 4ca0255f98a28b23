import Mathlib.Tactic.Ring
import AlmeidaOS.Laws.Mm.PageAlloc

/-!
# `paging_contiguous_map`

The loop maps one page after the other as long as the physical address is at most `p_end_addr`. The
callers pass the end of a range, the first address behind it, so for a range of whole pages the loop
maps one page more; and when the last page below `2 ^ 64` is within the bound, the address wraps and
the loop has no end.

`MapsOnly` is what mapping some pages may do to the translation. It composes, so the loop is the
induction over its calls of `page_alloc`.
-/

namespace AlmeidaOS.Kernel

open Radix

/-! ## What mapping pages does -/

/-- The pages are mapped afterwards, what was mapped stays as it was, and no other page changes. -/
structure MapsOnly (pages : Set Nat) (before after : Nat → Option (Nat × Nat)) : Prop where
  mapped : ∀ v ∈ pages, after v ≠ none
  kept : ∀ x, before x ≠ none → after x = before x
  others : ∀ x, (∀ v ∈ pages, ¬ samePage v x) → after x = before x

namespace MapsOnly

variable {s t : Set Nat} {f g h : Nat → Option (Nat × Nat)}

theorem refl (f : Nat → Option (Nat × Nat)) : MapsOnly ∅ f f :=
  ⟨fun _ mem => mem.elim, fun _ _ => rfl, fun _ _ => rfl⟩

theorem trans (first : MapsOnly s f g) (second : MapsOnly t g h) : MapsOnly (s ∪ t) f h := by
  refine ⟨?_, fun x found => ?_, fun x other => ?_⟩
  · rintro v (mem | mem)
    · rw [second.kept v (first.mapped v mem)]
      exact first.mapped v mem
    · exact second.mapped v mem
  · have still := first.kept x found
    rw [second.kept x (still ▸ found), still]
  · rw [second.others x fun v mem => other v (.inr mem), first.others x fun v mem => other v (.inl mem)]

end MapsOnly

/-! ## A page table in use -/

/-- A page table between calls: its tables lie in a pool whose frames the code reaches, and every entry
that is there is present. -/
structure InUse (P : Pool) (w : Nat) (m : Mem) (pgtable : PageTable) (r : Nat) : Prop where
  tables : ∃ free used, Tables P m pgtable.pfdb r free used
  physRoot : pgtable.physRoot = 4096 * r
  virtRoot : pgtable.virtRoot = virtAddrKernelStart + 4096 * r
  present : ∀ js j, js.length ≤ 3 → lookup frameNumber (entries m) r js j ≠ 0 →
    present (lookup frameNumber (entries m) r js j) = true
  reached : P.Reached w r

theorem Refines.inUse {P : Pool} {w : Nat} {m : Mem} {pgtable : PageTable} {r : Nat} {calls : List PageCall}
    (refines : Refines P m pgtable r calls) (valid : ∀ c ∈ calls, c.Valid) (reached : P.Reached w r) :
    InUse P w m pgtable r :=
  ⟨refines.tables, refines.physRoot, refines.virtRoot, fun _ j len found => refines.present valid j len found, reached⟩

namespace InUse

variable {P : Pool} {w r flags : Nat} {m : Mem} {pgtable : PageTable}

theorem walk_eq_none_iff (inUse : InUse P w m pgtable r) {x : Nat} :
    walk m (4096 * r) x = none ↔ lookup frameNumber (entries m) r (path x) (ptIndex x) = 0 := by
  rw [walk_eq_of_present inUse.present]
  split
  · rename_i found
    exact ⟨fun answer => (by cases answer), fun zero => absurd zero found⟩
  · rename_i zero
    exact ⟨fun _ => not_not.mp zero, fun _ => rfl⟩

theorem walk_samePage (inUse : InUse P w m pgtable r) {v x : Nat} (same : samePage v x) :
    walk m (4096 * r) v = walk m (4096 * r) x := by
  obtain ⟨paths, last⟩ := samePage_iff.mp same
  rw [walk_eq_of_present inUse.present, walk_eq_of_present inUse.present, paths, last]

/-- One call of `page_alloc`. -/
theorem pageAlloc (inUse : InUse P w m pgtable r) (odd : flags % 2 = 1) (v p : Nat) :
    pageAlloc w m pgtable v p flags = .error .bugOn ∨
    ∃ m' pgtable', pageAlloc w m pgtable v p flags = .ok (m', pgtable') ∧ InUse P w m' pgtable' r ∧
      MapsOnly {v} (walk m (4096 * r)) (walk m' (4096 * r)) := by
  obtain ⟨free, used, T⟩ := inUse.tables
  have flagged : flags % 4096 ≠ 0 ∨ 0 < P.first := .inl (by omega)
  rcases T.pageAlloc (v := v) (p := p) inUse.virtRoot flagged inUse.reached with
    ⟨fail, -⟩ | ⟨m', pfdb', free', used', run, -, T', grows, -, leaf⟩
  · exact .inl fail
  have next : InUse P w m' { pgtable with pfdb := pfdb' } r :=
    ⟨⟨free', used', T'⟩, inUse.physRoot, inUse.virtRoot, grows.present odd inUse.present, inUse.reached⟩
  have entry : ∀ x, lookup frameNumber (entries m') r (path x) (ptIndex x) =
      if samePage x v ∧ lookup frameNumber (entries m) r (path x) (ptIndex x) = 0 then packEntry flags (prepBaseAddr p)
      else lookup frameNumber (entries m) r (path x) (ptIndex x) := by
    intro x
    simp only [leaf _ _ (path_length x), samePage_iff]
  have same : ∀ x, ¬ (samePage x v ∧ lookup frameNumber (entries m) r (path x) (ptIndex x) = 0) →
      walk m' (4096 * r) x = walk m (4096 * r) x := by
    intro x off
    rw [walk_eq_of_present next.present, walk_eq_of_present inUse.present, entry, if_neg off]
  refine .inr ⟨m', _, run, next, ?_, fun x found => same x ?_, fun x other => same x ?_⟩
  · rintro x rfl
    rw [Ne, next.walk_eq_none_iff, entry]
    split
    · exact present_ne_zero (packEntry_present odd _)
    · rename_i kept
      exact fun zero => kept ⟨rfl, zero⟩
  · exact fun h => found (inUse.walk_eq_none_iff.mpr h.2)
  · exact fun h => other v rfl h.1.symm

end InUse

/-! ## The loop -/

/-- The addresses of pages in a row. -/
def pagesFrom (v n : Nat) : Set Nat := {x | ∃ i < n, x = Word.add v (4096 * i)}

theorem pagesFrom_succ {v : Nat} (word : v < 2 ^ 64) (n : Nat) :
    pagesFrom v (n + 1) = {v} ∪ pagesFrom (Word.add v 4096) n := by
  have shift : ∀ i, Word.add (Word.add v 4096) (4096 * i) = Word.add v (4096 * (i + 1)) := by
    intro i
    unfold Word.add
    omega
  ext x
  constructor
  · rintro ⟨i, lt, rfl⟩
    cases i with
    | zero =>
      left
      rw [Nat.mul_zero, Word.add_of_lt word]
      rfl
    | succ i => exact .inr ⟨i, by omega, (shift i).symm⟩
  · rintro (rfl | ⟨i, lt, rfl⟩)
    · exact ⟨0, by omega, by rw [Nat.mul_zero, Word.add_of_lt word]; rfl⟩
    · exact ⟨i + 1, by omega, shift i⟩

section Loop

variable {P : Pool} {w r flags : Nat}

/-- The loop runs once for every page that begins at or before the end. -/
theorem InUse.pagingContiguousMap {m : Mem} {pgtable : PageTable} (inUse : InUse P w m pgtable r) (odd : flags % 2 = 1)
    {n p pEnd v : Nat} (top : pEnd + 4096 < 2 ^ 64) (word : v < 2 ^ 64) (lower : p + 4096 * n ≤ pEnd + 4096)
    (upper : pEnd < p + 4096 * n)
    (enough : ∀ fuel, pagingContiguousMap w flags fuel m pgtable p pEnd v ≠ .error .bugOn) :
    ∃ m' pgtable', Returns (fun fuel => pagingContiguousMap w flags fuel m pgtable p pEnd v) (n + 1) (m', pgtable') ∧
      InUse P w m' pgtable' r ∧ MapsOnly (pagesFrom v n) (walk m (4096 * r)) (walk m' (4096 * r)) := by
  induction n generalizing m pgtable p v with
  | zero =>
    refine ⟨m, pgtable, .succ (fun _ => .ok (m, pgtable)) rfl (fun fuel => ?_) (.ok _ _), inUse, ?_⟩
    · rw [Kernel.pagingContiguousMap, if_neg (by omega)]
    · have none : pagesFrom v 0 = ∅ := by
        ext x
        simp [pagesFrom]
      rw [none]
      exact .refl _
  | succ n ih =>
    have step : ∀ fuel, Kernel.pagingContiguousMap w flags (fuel + 1) m pgtable p pEnd v = _ :=
      fun fuel => if_pos (show p ≤ pEnd by omega)
    rcases inUse.pageAlloc odd v p with fail | ⟨m₁, pgtable₁, run, inUse₁, first⟩
    · refine absurd ?_ (enough 1)
      rw [step, fail]
      rfl
    · simp only [run, ok_bind] at step
      have ahead : Word.add p pageSize = p + 4096 := Word.add_of_lt (show p + 4096 < 2 ^ 64 by omega)
      rw [ahead] at step
      have word' : Word.add v pageSize < 2 ^ 64 := Nat.mod_lt _ (by decide)
      obtain ⟨m', pgtable', returns, inUse', rest⟩ := ih inUse₁ word' (by omega) (by omega)
        fun fuel => step fuel ▸ enough (fuel + 1)
      refine ⟨m', pgtable', .succ _ rfl step returns, inUse', ?_⟩
      rw [pagesFrom_succ word]
      exact first.trans rest

/-- The calls of `page_alloc` that the loop makes for pages in a row. -/
def rowCalls (flags p v n : Nat) : List PageCall :=
  (List.range n).map fun i => ⟨Word.add v (4096 * i), p + 4096 * i, flags⟩

theorem rowCalls_succ {v : Nat} (word : v < 2 ^ 64) (flags p n : Nat) :
    rowCalls flags p v (n + 1) = ⟨v, p, flags⟩ :: rowCalls flags (p + 4096) (Word.add v 4096) n := by
  have shift : ∀ i, (⟨Word.add v (4096 * (i + 1)), p + 4096 * (i + 1), flags⟩ : PageCall) =
      ⟨Word.add (Word.add v 4096) (4096 * i), p + 4096 + 4096 * i, flags⟩ := by
    intro i
    have step : Word.add v (4096 * (i + 1)) = Word.add (Word.add v 4096) (4096 * i) := by
      unfold Word.add
      omega
    rw [step, Nat.mul_succ, Nat.add_comm (4096 * i), ← Nat.add_assoc]
  rw [rowCalls, List.range_succ_eq_map, List.map_cons, List.map_map, Nat.mul_zero, Word.add_of_lt word]
  exact congrArg _ (List.map_congr_left fun i _ => shift i)

theorem mem_rowCalls {flags p v n : Nat} {c : PageCall} :
    c ∈ rowCalls flags p v n ↔ ∃ i < n, (⟨Word.add v (4096 * i), p + 4096 * i, flags⟩ : PageCall) = c := by
  simp only [rowCalls, List.mem_map, List.mem_range]

/-- A call of the loop that returns has called `page_alloc` for the pages in a row. -/
theorem Refines.pagingContiguousMap {m m' : Mem} {pgtable pgtable' : PageTable} {calls : List PageCall}
    (refines : Refines P m pgtable r calls) (valid : ∀ c ∈ calls, c.Valid) (reached : P.Reached w r)
    (small : flags < 2 ^ 12) (odd : flags % 2 = 1) {n fuel p pEnd v : Nat} (top : pEnd < 2 ^ 40) (word : v < 2 ^ 64)
    (lower : p + 4096 * n ≤ pEnd + 4096) (upper : pEnd < p + 4096 * n)
    (run : pagingContiguousMap w flags fuel m pgtable p pEnd v = .ok (m', pgtable')) :
    Refines P m' pgtable' r (calls ++ rowCalls flags p v n) ∧ m.SameOff P.Bytes m' ∧
      ∀ j, entries m r j ≠ 0 → entries m' r j = entries m r j := by
  induction n generalizing m pgtable calls fuel p v with
  | zero =>
    cases fuel with
    | zero => cases run
    | succ fuel =>
      rw [Kernel.pagingContiguousMap, if_neg (by omega)] at run
      cases run
      exact ⟨by rwa [rowCalls, List.range_zero, List.map_nil, List.append_nil], .refl _ _, fun _ _ => rfl⟩
  | succ n ih =>
    cases fuel with
    | zero => cases run
    | succ fuel =>
      rw [Kernel.pagingContiguousMap, if_pos (by omega), bind_eq_ok] at run
      obtain ⟨⟨m₁, pgtable₁⟩, first, rest⟩ := run
      have ok : (⟨v, p, flags⟩ : PageCall).Valid := ⟨small, odd, show p < 2 ^ 40 by omega⟩
      rcases refines.pageAlloc valid ok reached with ⟨fail, -⟩ | ⟨m₂, pgtable₂, run, next, same, keep⟩
      · cases first.symm.trans fail
      cases first.symm.trans run
      have ahead : Word.add p pageSize = p + 4096 := Word.add_of_lt (show p + 4096 < 2 ^ 64 by omega)
      simp only [ahead] at rest
      have valid₁ : ∀ c ∈ calls ++ [⟨v, p, flags⟩], c.Valid := by
        intro c mem
        rcases List.mem_append.mp mem with mem | mem
        · exact valid c mem
        · exact List.mem_singleton.mp mem ▸ ok
      obtain ⟨refines', same', keep'⟩ := ih next valid₁ (Nat.mod_lt _ (by decide)) (by omega) (by omega) rest
      refine ⟨?_, same.trans same', fun j found => ?_⟩
      · rwa [rowCalls_succ word, List.append_cons]
      · have kept := keep j found
        rw [keep' j (kept ▸ found), kept]

/-- When the last page below `2 ^ 64` begins at or before the end, the loop goes on for ever. -/
theorem pagingContiguousMap_endless {m : Mem} {pgtable : PageTable} {p pEnd v : Nat} (aligned : 4096 ∣ p) (word : p < 2 ^ 64)
    (top : 2 ^ 64 ≤ pEnd + 4096) (fuel : Nat) (s : Mem × PageTable) :
    pagingContiguousMap w flags fuel m pgtable p pEnd v ≠ .ok s := by
  induction fuel generalizing m pgtable p v with
  | zero => exact fun answer => by cases answer
  | succ fuel ih =>
    intro answer
    rw [pagingContiguousMap, if_pos (by omega), bind_eq_ok] at answer
    obtain ⟨s₁, -, rest⟩ := answer
    refine ih ?_ (Nat.mod_lt _ (by decide)) rest
    unfold pageSize
    omega

end Loop

/-! ## The range that is passed -/

/-- The call returns; afterwards the pages of the range are mapped, and no other page has changed. -/
def MapsRange (shiftBits flags : Nat) (m : Mem) (pgtable : PageTable) (pStart pEnd vStart : Nat) : Prop :=
  ∃ n m' pgtable',
    Returns (fun fuel => pagingContiguousMap shiftBits flags fuel m pgtable pStart pEnd vStart) n (m', pgtable') ∧
    (∀ i, 4096 * i < pEnd - pStart → walk m' pgtable'.physRoot (Word.add vStart (4096 * i)) ≠ none) ∧
    ∀ x, (∀ i, 4096 * i < pEnd - pStart → ¬ samePage (Word.add vStart (4096 * i)) x) →
      walk m' pgtable'.physRoot x = walk m pgtable.physRoot x

/-- **What `paging_contiguous_map` maps.** Given a page table with enough frames, a page-aligned start
and an end behind it, the call maps exactly the pages of `[p_start, p_end)` if and only if the last page
below `2 ^ 64` begins behind the end, and the end lies inside a page, or the page that begins there was
mapped before, or it is itself a page of the range. -/
theorem contiguous_map_exact_iff {P : Pool} {shiftBits r flags : Nat} {m : Mem} {pgtable : PageTable}
    (inUse : InUse P shiftBits m pgtable r) (odd : flags % 2 = 1) {pStart pEnd vStart : Nat}
    (aligned : 4096 ∣ pStart) (word : vStart < 2 ^ 64) (word' : pEnd < 2 ^ 64)
    (nonempty : pStart < pEnd)
    (enough : ∀ fuel, pagingContiguousMap shiftBits flags fuel m pgtable pStart pEnd vStart ≠ .error .bugOn) :
    MapsRange shiftBits flags m pgtable pStart pEnd vStart ↔
      pEnd < 2 ^ 64 - 4096 ∧
        (¬ 4096 ∣ pEnd ∨ walk m pgtable.physRoot (Word.add vStart (pEnd - pStart)) ≠ none ∨
          ∃ i, 4096 * i < pEnd - pStart ∧
            samePage (Word.add vStart (4096 * i)) (Word.add vStart (pEnd - pStart))) := by
  by_cases top : pEnd < 2 ^ 64 - 4096
  · have below : pEnd + 4096 < 2 ^ 64 := by omega
    obtain ⟨n, lower, upper⟩ : ∃ n, pStart + 4096 * n ≤ pEnd + 4096 ∧ pEnd < pStart + 4096 * n :=
      ⟨(pEnd - pStart + 4096) / 4096, by omega, by omega⟩
    obtain ⟨m', pgtable', returns, inUse', maps⟩ := inUse.pagingContiguousMap odd below word lower upper enough
    unfold MapsRange
    rw [inUse.physRoot]
    constructor
    · rintro ⟨k, m₁, pgtable₁, returns₁, -, others⟩
      obtain ⟨rfl, rfl⟩ := Prod.mk.inj (returns.only k _ (returns₁.enough k (Nat.le_refl k)))
      rw [inUse'.physRoot] at others
      refine ⟨top, ?_⟩
      by_contra spared
      simp only [not_or, not_not, not_exists, not_and] at spared
      obtain ⟨whole, unmapped, apart⟩ := spared
      have last : 4096 * ((pEnd - pStart) / 4096) = pEnd - pStart := by omega
      refine maps.mapped (Word.add vStart (pEnd - pStart)) ⟨(pEnd - pStart) / 4096, by omega, by rw [last]⟩ ?_
      rw [others _ apart, unmapped]
    · rintro ⟨-, spared⟩
      refine ⟨_, m', pgtable', returns, fun i inside => ?_, fun x other => ?_⟩
      · rw [inUse'.physRoot]
        exact maps.mapped _ ⟨i, by omega, rfl⟩
      rw [inUse'.physRoot]
      by_cases last : 4096 ∣ pEnd ∧ samePage (Word.add vStart (pEnd - pStart)) x
      · obtain ⟨whole, here⟩ := last
        rcases spared with off | found | ⟨i, inside, same⟩
        · exact absurd whole off
        · rw [inUse.walk_samePage here] at found
          exact maps.kept x found
        · exact absurd (same.trans here) (other i inside)
      · refine maps.others x ?_
        rintro _ ⟨i, lt, rfl⟩ same
        by_cases inside : 4096 * i < pEnd - pStart
        · exact other i inside same
        · have end_ : 4096 * i = pEnd - pStart := by omega
          exact last ⟨by omega, end_ ▸ same⟩
  · refine iff_of_false ?_ fun h => top h.1
    rintro ⟨n, m', pgtable', returns, -⟩
    have answer := returns.enough n (Nat.le_refl n)
    refine pagingContiguousMap_endless aligned ?_ ?_ n _ answer
    · omega
    · omega

theorem fourFrames_inUse :
    ∃ r, InUse (fourFrames_regions.pool (by decide)) 36 fourFramesInit.1 fourFramesInit.2 r := by
  obtain ⟨m₀, pgtable₀, r, n, init, physRoot, virtRoot, -, -, T, empty, -⟩ :=
    fourFrames_regions.pagingInit (by decide) ⟨fun _ => 0⟩
  obtain ⟨rfl, rfl⟩ : fourFramesInit.1 = m₀ ∧ fourFramesInit.2 = pgtable₀ :=
    Prod.mk.inj (Except.ok.inj (fourFrames_init.symm.trans init))
  exact ⟨r, (Refines.init T physRoot virtRoot empty).inUse (fun _ none => absurd none List.not_mem_nil) (.of_le (fourFrames_regions.fits (Nat.le_refl 36)) r)⟩

theorem contiguous_map_exact_half_page :
    MapsRange 36 pageStdBits fourFramesInit.1 fourFramesInit.2 0x99000 0x99800 0x40000000 := by
  obtain ⟨r, inUse⟩ := fourFrames_inUse
  have call : pageAlloc 36 fourFramesInit.1 fourFramesInit.2 0x40000000 0x99000 pageStdBits = .ok _ :=
    Outcome.eq_ok_of_isOk fourFramesInit (by decide +kernel)
  refine (contiguous_map_exact_iff inUse (by decide) (by decide) (by decide) (by decide) (by decide)
    fun fuel => ?_).mpr ⟨by decide, .inl (by decide)⟩
  match fuel with
  | 0 => exact fun answer => by cases answer
  | 1 =>
    rw [pagingContiguousMap, if_pos (by decide), call]
    exact fun answer => by cases answer
  | fuel + 2 =>
    rw [pagingContiguousMap, if_pos (by decide), call, ok_bind]
    exact fun answer => by cases answer

/-- A range of one page, and the page behind it is mapped as well. -/
theorem contiguous_map_maps_page_behind :
    (∃ m' pgtable', pagingContiguousMap 36 pageStdBits 3 fourFramesInit.1 fourFramesInit.2 0x99000 0x9a000 0x40000000 =
        .ok (m', pgtable') ∧
      walk fourFramesInit.1 fourFramesInit.2.physRoot 0x40001000 = none ∧
      walk m' pgtable'.physRoot 0x40001000 = some (0x9a000, 3)) ∧
    ¬ MapsRange 36 pageStdBits fourFramesInit.1 fourFramesInit.2 0x99000 0x9a000 0x40000000 := by
  let s := (pagingContiguousMap 36 pageStdBits 3 fourFramesInit.1 fourFramesInit.2 0x99000 0x9a000 0x40000000).getD
    fourFramesInit
  have run : pagingContiguousMap 36 pageStdBits 3 fourFramesInit.1 fourFramesInit.2 0x99000 0x9a000 0x40000000 = .ok s :=
    Outcome.eq_ok_of_isOk fourFramesInit (by decide +kernel)
  have before : walk fourFramesInit.1 fourFramesInit.2.physRoot 0x40001000 = none := by decide +kernel
  have after : walk s.1 s.2.physRoot 0x40001000 = some (0x9a000, 3) := by decide +kernel
  refine ⟨⟨s.1, s.2, run, before, after⟩, ?_⟩
  rintro ⟨n, m', pgtable', returns, -, others⟩
  have same := others 0x40001000 fun i inside => by
    obtain rfl : i = 0 := by omega
    decide
  obtain ⟨rfl, rfl⟩ : s.1 = m' ∧ s.2 = pgtable' := Prod.mk.inj (returns.only 3 s run)
  rw [before, after] at same
  cases same

end AlmeidaOS.Kernel
