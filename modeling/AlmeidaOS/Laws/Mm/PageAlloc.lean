import AlmeidaOS.Laws.Mm.PageTable

/-!
# `page_alloc` refines a map

A page table is for translating addresses. From a fresh table on, whatever calls of `page_alloc` are
made, the walk gives the abstract map in which the first call for a page decides: its frame and its
flags stay, a later call for the same page changes nothing, and no call touches another page.
-/

namespace AlmeidaOS.Kernel

open Radix

/-! ## Runs and the abstract map -/

/-- The arguments of a call of `page_alloc`. -/
structure PageCall where
  vAddr : Nat
  pDestAddr : Nat
  flags : Nat
deriving DecidableEq, Repr

/-- The flags fit their field and say that the page is present; the address fits its field. -/
structure PageCall.Valid (c : PageCall) : Prop where
  flags : c.flags < 2 ^ 12
  present : c.flags % 2 = 1
  address : c.pDestAddr < 2 ^ 40

/-- A sequence of calls. -/
def pageAllocs (shiftBits : Nat) : Mem → PageTable → List PageCall → Outcome (Mem × PageTable)
  | m, pgtable, [] => .ok (m, pgtable)
  | m, pgtable, c :: calls => do
    let (m, pgtable) ← pageAlloc shiftBits m pgtable c.vAddr c.pDestAddr c.flags
    pageAllocs shiftBits m pgtable calls

/-- The first call for an address's page gives its frame and its flags. -/
def firstWriter (calls : List PageCall) (v : Nat) : Option (Nat × Nat) :=
  (calls.find? fun c => samePage c.vAddr v).map fun c => (c.pDestAddr / 4096 * 4096, c.flags)

/-- The free list has at least so many nodes. -/
def HasFree (m : Mem) (pfdb : PageframeDatabase) (n : Nat) : Prop :=
  ∃ nodes, Chain (nextNode m) 0 pfdb.free nodes ∧ n ≤ nodes.length

/-- The tables a call for the address would have to add. -/
def missingTables (m : Mem) (pgtable : PageTable) (v : Nat) : Nat :=
  missing frameNumber (entries m) (pgtable.physRoot / 4096) (path v)

/-- The free list has a frame for every table the calls add. -/
def Supplied (shiftBits : Nat) : Mem → PageTable → List PageCall → Prop
  | _, _, [] => True
  | m, pgtable, c :: calls =>
    HasFree m pgtable.pfdb (missingTables m pgtable c.vAddr) ∧
      ∀ m' pgtable', pageAlloc shiftBits m pgtable c.vAddr c.pDestAddr c.flags = .ok (m', pgtable') →
        Supplied shiftBits m' pgtable' calls

theorem Pool.Lists.hasFree_iff {P : Pool} {m : Mem} {pfdb : PageframeDatabase} {free used : List Nat}
    (lists : P.Lists m pfdb free used) {n : Nat} : HasFree m pfdb n ↔ n ≤ free.length := by
  constructor
  · rintro ⟨nodes, chain, le⟩
    rwa [chain.unique lists.freeList, List.length_map] at le
  · intro le
    exact ⟨free.map P.node, lists.freeList, by rwa [List.length_map]⟩

/-! ## The refinement -/

/-- The entry a page's first call wrote. -/
def writtenEntry (calls : List PageCall) (v : Nat) : Nat :=
  match calls.find? fun c => samePage c.vAddr v with
  | none => 0
  | some c => packEntry c.flags (prepBaseAddr c.pDestAddr)

/-- The page table holds what the calls so far have written: entries with the flags of a call on the way, and
those of the pages. -/
structure Refines (P : Pool) (m : Mem) (pgtable : PageTable) (r : Nat) (calls : List PageCall) : Prop where
  tables : ∃ free used, Tables P m pgtable.pfdb r free used
  physRoot : pgtable.physRoot = 4096 * r
  virtRoot : pgtable.virtRoot = virtAddrKernelStart + 4096 * r
  flagged : ∀ js j, js.length ≤ 3 → lookup frameNumber (entries m) r js j ≠ 0 →
    ∃ c ∈ calls, lookup frameNumber (entries m) r js j % 4096 = c.flags % 4096
  leaf : ∀ v, lookup frameNumber (entries m) r (path v) (ptIndex v) = writtenEntry calls v

theorem present_of_flags {e flags : Nat} (odd : flags % 2 = 1) (same : e % 4096 = flags % 4096) : present e = true := by
  unfold present
  rw [decide_eq_true_eq]
  omega

theorem packEntry_present {flags : Nat} (odd : flags % 2 = 1) (base : Nat) : present (packEntry flags base) = true :=
  present_of_flags odd (packEntry_mod flags base)

theorem PageCall.Valid.entry_present {c : PageCall} (valid : c.Valid) (base : Nat) :
    Kernel.present (packEntry c.flags base) = true := packEntry_present valid.present base

/-- Growing with a present flag leaves every entry present. -/
theorem Grows.present {r flags : Nat} {E E' : Store Nat (Fin 512) Nat} (grows : Grows r flags E E') (odd : flags % 2 = 1)
    (all : ∀ js j, js.length ≤ 3 → lookup frameNumber E r js j ≠ 0 → present (lookup frameNumber E r js j) = true) :
    ∀ js j, js.length ≤ 3 → lookup frameNumber E' r js j ≠ 0 → Kernel.present (lookup frameNumber E' r js j) = true := by
  intro js j len found
  by_cases old : lookup frameNumber E r js j = 0
  · rcases grows.fresh js j len old with still | new
    · exact absurd still found
    · exact present_of_flags odd new
  · rw [grows.keep js j len old]
    exact all js j len old

/-- When a walk admits every entry that is there, it finds a page iff its entry is there. -/
theorem walkThrough_eq_of_all {admits : Nat → Bool} (zero : admits 0 = false) {m : Mem} {r : Nat}
    (all : ∀ js j, js.length ≤ 3 → lookup frameNumber (entries m) r js j ≠ 0 →
      admits (lookup frameNumber (entries m) r js j) = true) (x : Nat) :
    walkThrough admits m (4096 * r) x = if lookup frameNumber (entries m) r (path x) (ptIndex x) ≠ 0 then
      some (entryFrame (lookup frameNumber (entries m) r (path x) (ptIndex x)),
        lookup frameNumber (entries m) r (path x) (ptIndex x) % 2 ^ 12)
    else none := by
  classical
  have walks : Walks frameNumber (admits · = true) (entries m) r (path x) (ptIndex x) ↔ _ :=
    walks_iff_of_all (Nat.le_of_eq (path_length x)) (by simp [zero]) all
  rw [walkThrough_eq zero]
  simp only [walks]

theorem walk_eq_of_present {m : Mem} {r : Nat} (all : ∀ js j, js.length ≤ 3 → lookup frameNumber (entries m) r js j ≠ 0 →
      present (lookup frameNumber (entries m) r js j) = true) (x : Nat) :
    walk m (4096 * r) x = if lookup frameNumber (entries m) r (path x) (ptIndex x) ≠ 0 then
      some (entryFrame (lookup frameNumber (entries m) r (path x) (ptIndex x)),
        lookup frameNumber (entries m) r (path x) (ptIndex x) % 2 ^ 12)
    else none :=
  walkThrough_eq_of_all (by decide) all x

theorem writtenEntry_snoc (calls : List PageCall) (c : PageCall) (v : Nat)
    (valid : ∀ c ∈ calls, c.Valid) : writtenEntry (calls ++ [c]) v =
      if samePage c.vAddr v ∧ writtenEntry calls v = 0 then packEntry c.flags (prepBaseAddr c.pDestAddr)
      else writtenEntry calls v := by
  unfold writtenEntry
  rw [List.find?_append]
  cases found : calls.find? fun c => samePage c.vAddr v with
  | some d =>
    have odd := (valid d (List.mem_of_find?_eq_some found)).entry_present (prepBaseAddr d.pDestAddr)
    rw [Option.some_or, if_neg fun h => present_ne_zero odd h.2]
  | none =>
    by_cases here : samePage c.vAddr v
    · simp [here]
    · simp [here]

/-- The tables depend on the bytes of their pool only. -/
theorem Tables.congr {P : Pool} {m m' : Mem} {pfdb : PageframeDatabase} {r : Nat} {free used : List Nat} {s : Set Nat}
    (T : Tables P m pfdb r free used) (same : m.SameOff s m') (off : ∀ x ∈ P.Bytes, x ∉ s) :
    Tables P m' pfdb r free used ∧ ∀ t ∈ Radix.tables frameNumber 3 (entries m) r, entries m' t = entries m t := by
  have agree : ∀ n < P.count, entries m' (P.first + n) = entries m (P.first + n) := by
    intro n lt
    funext j
    have := j.isLt
    exact same.load64 fun x lower upper => off x (.inr ⟨by omega, by omega⟩)
  refine ⟨⟨T.lists.congr same fun x mem => off x (.inl mem), T.shape.agree fun n mem => agree n ?_⟩, fun t mem => ?_⟩
  · exact mem.elim T.lists.lt_of_free T.lists.lt_of_used
  · obtain ⟨n, inUse, rfl⟩ := (T.shape.tables t).mp mem
    exact agree n (T.lists.lt_of_used inUse)

namespace Refines

variable {P : Pool} {m : Mem} {pgtable : PageTable} {r w : Nat} {calls : List PageCall}

/-- A table with an empty root holds nothing. -/
theorem init {free used : List Nat} (T : Tables P m pgtable.pfdb r free used) (physRoot : pgtable.physRoot = 4096 * r)
    (virtRoot : pgtable.virtRoot = virtAddrKernelStart + 4096 * r) (empty : ∀ j, entries m r j = 0) :
    Refines P m pgtable r [] := by
  have nothing : ∀ js j, lookup frameNumber (entries m) r js j = 0 := by
    intro js j
    by_cases nil : js = []
    · subst nil
      exact empty j
    · rw [lookup, reach_empty empty nil]
  exact ⟨⟨free, used, T⟩, physRoot, virtRoot, fun js j _ found => absurd (nothing js j) found, fun v => nothing _ _⟩

/-- What a walk gives that admits the flags of the calls is the abstract map. -/
theorem walkThrough_eq {admits : Nat → Bool} (refines : Refines P m pgtable r calls) (valid : ∀ c ∈ calls, c.Valid)
    (zero : admits 0 = false) (all : ∀ c ∈ calls, ∀ e, e % 4096 = c.flags % 4096 → admits e = true) (v : Nat) :
    walkThrough admits m pgtable.physRoot v = firstWriter calls v := by
  have admitted : ∀ js j, js.length ≤ 3 → lookup frameNumber (entries m) r js j ≠ 0 →
      admits (lookup frameNumber (entries m) r js j) = true := by
    intro js j len found
    obtain ⟨c, mem, same⟩ := refines.flagged js j len found
    exact all c mem _ same
  rw [refines.physRoot, walkThrough_eq_of_all zero admitted, refines.leaf]
  unfold writtenEntry firstWriter
  cases found : calls.find? fun c => samePage c.vAddr v with
  | none => simp
  | some c =>
    have ok := valid c (List.mem_of_find?_eq_some found)
    have low := packEntry_mod c.flags (prepBaseAddr c.pDestAddr)
    have frame : entryFrame (packEntry c.flags (prepBaseAddr c.pDestAddr)) = c.pDestAddr / 4096 * 4096 := by
      have := ok.address
      rw [entryFrame_eq, frameNumber_packEntry, prepBaseAddr_eq]
      omega
    have flags : packEntry c.flags (prepBaseAddr c.pDestAddr) % 2 ^ 12 = c.flags := by
      have := ok.flags
      omega
    rw [if_pos (present_ne_zero (ok.entry_present _)), frame, flags]
    rfl

theorem walk_eq (refines : Refines P m pgtable r calls) (valid : ∀ c ∈ calls, c.Valid) (v : Nat) :
    walk m pgtable.physRoot v = firstWriter calls v :=
  refines.walkThrough_eq valid (by decide) (fun _ mem _ same => present_of_flags (valid _ mem).present same) v

/-- Every entry is present. -/
theorem present (refines : Refines P m pgtable r calls) (valid : ∀ c ∈ calls, c.Valid) {js : List (Fin 512)}
    (j : Fin 512) (len : js.length ≤ 3) (found : lookup frameNumber (entries m) r js j ≠ 0) :
    Kernel.present (lookup frameNumber (entries m) r js j) = true := by
  obtain ⟨c, mem, same⟩ := refines.flagged js j len found
  exact present_of_flags (valid c mem).present same

/-- The page table depends on the bytes of its pool only. -/
theorem congr {m' : Mem} {s : Set Nat} (refines : Refines P m pgtable r calls) (same : m.SameOff s m')
    (off : ∀ x ∈ P.Bytes, x ∉ s) : Refines P m' pgtable r calls := by
  obtain ⟨free, used, T⟩ := refines.tables
  obtain ⟨T', tables⟩ := T.congr same off
  have entry : ∀ js j, js.length ≤ 3 → lookup frameNumber (entries m') r js j = lookup frameNumber (entries m) r js j :=
    fun js j len => lookup_agree tables len j
  refine ⟨⟨free, used, T'⟩, refines.physRoot, refines.virtRoot, fun js j len => ?_, fun v => ?_⟩
  · rw [entry js j len]
    exact refines.flagged js j len
  · rw [entry _ _ (Nat.le_of_eq (path_length v))]
    exact refines.leaf v

/-- One call finds too few free frames, or it adds its page. It writes to the pool only, and changes no
entry of the root that is there. -/
theorem pageAlloc (refines : Refines P m pgtable r calls) (valid : ∀ c ∈ calls, c.Valid) {c : PageCall} (ok : c.Valid)
    (reached : P.Reached w r) :
    (pageAlloc w m pgtable c.vAddr c.pDestAddr c.flags = .error .bugOn ∧
      ¬ HasFree m pgtable.pfdb (missingTables m pgtable c.vAddr)) ∨
    ∃ m' pgtable', pageAlloc w m pgtable c.vAddr c.pDestAddr c.flags = .ok (m', pgtable') ∧
      Refines P m' pgtable' r (calls ++ [c]) ∧ m.SameOff P.Bytes m' ∧
      ∀ j, entries m r j ≠ 0 → entries m' r j = entries m r j := by
  obtain ⟨free, used, T⟩ := refines.tables
  have root : pgtable.physRoot / 4096 = r := by
    rw [refines.physRoot]
    omega
  have flagged : c.flags % 4096 ≠ 0 ∨ 0 < P.first := by
    have := ok.present
    exact .inl (by omega)
  rw [missingTables, root, T.lists.hasFree_iff]
  rcases T.pageAlloc (v := c.vAddr) (p := c.pDestAddr) refines.virtRoot flagged reached with
    ⟨fail, lack⟩ | ⟨m', pfdb', free', used', run, -, T', grows, same, leaf⟩
  · exact .inl ⟨fail, by omega⟩
  refine .inr ⟨m', { pgtable with pfdb := pfdb' }, run, ⟨⟨free', used', T'⟩, refines.physRoot, refines.virtRoot,
    fun js j len found => ?_, fun v => ?_⟩, same, fun j found => grows.keep [] j (Nat.zero_le 3) found⟩
  · by_cases old : lookup frameNumber (entries m) r js j = 0
    · exact ⟨c, by simp, (grows.fresh js j len old).resolve_left found⟩
    · obtain ⟨d, mem, flags⟩ := refines.flagged js j len old
      exact ⟨d, List.mem_append_left _ mem, by rw [grows.keep js j len old, flags]⟩
  rw [leaf _ _ (path_length v), refines.leaf, writtenEntry_snoc calls c v valid]
  have pages : (path v = path c.vAddr ∧ ptIndex v = ptIndex c.vAddr) ↔ samePage c.vAddr v := by
    rw [samePage_iff]
    exact ⟨fun h => ⟨h.1.symm, h.2.symm⟩, fun h => ⟨h.1.symm, h.2.symm⟩⟩
  simp only [pages]

/-- One call, when the frames it needs are free. -/
theorem step (refines : Refines P m pgtable r calls) (valid : ∀ c ∈ calls, c.Valid) {c : PageCall}
    (ok : c.Valid) (reached : P.Reached w r)
    (supply : HasFree m pgtable.pfdb (missingTables m pgtable c.vAddr)) :
    ∃ m' pgtable', Kernel.pageAlloc w m pgtable c.vAddr c.pDestAddr c.flags = .ok (m', pgtable') ∧
      Refines P m' pgtable' r (calls ++ [c]) := by
  rcases refines.pageAlloc valid ok reached with ⟨-, lack⟩ | ⟨m', pgtable', run, next, -⟩
  · exact absurd supply lack
  · exact ⟨m', pgtable', run, next⟩

end Refines

theorem pageAllocs_nil (w : Nat) (s : Mem × PageTable) : pageAllocs w s.1 s.2 [] = .ok s := rfl

theorem pageAllocs_cons {w : Nat} {m : Mem} {pgtable : PageTable} {c : PageCall} {s : Mem × PageTable}
    {calls : List PageCall}
    (run : pageAlloc w m pgtable c.vAddr c.pDestAddr c.flags = .ok s) :
    pageAllocs w m pgtable (c :: calls) = pageAllocs w s.1 s.2 calls := by
  rw [pageAllocs, run]
  rfl

/-- A whole run. -/
theorem Refines.run {P : Pool} {r w : Nat} (reached : P.Reached w r) {m : Mem}
    {pgtable : PageTable} {done calls : List PageCall} (refines : Refines P m pgtable r done)
    (valid : ∀ c ∈ done ++ calls, c.Valid) (supplied : Supplied w m pgtable calls) :
    ∃ m' pgtable', pageAllocs w m pgtable calls = .ok (m', pgtable') ∧
      Refines P m' pgtable' r (done ++ calls) := by
  induction calls generalizing m pgtable done with
  | nil => exact ⟨m, pgtable, rfl, by rwa [List.append_nil]⟩
  | cons c calls ih =>
    obtain ⟨supply, later⟩ := supplied
    obtain ⟨m₁, pgtable₁, run, next⟩ := refines.step (fun d mem => valid d (by simp [mem]))
      (valid c (by simp)) reached supply
    obtain ⟨m', pgtable', rest, last⟩ := ih next (by simpa using valid) (later _ _ run)
    refine ⟨m', pgtable', ?_, by simpa using last⟩
    rw [pageAllocs_cons run]
    exact rest

theorem Supplied.of_append {w : Nat} {m m' : Mem} {pgtable pgtable' : PageTable}
    {pre post : List PageCall} (supplied : Supplied w m pgtable (pre ++ post))
    (run : pageAllocs w m pgtable pre = .ok (m', pgtable')) : Supplied w m' pgtable' post := by
  induction pre generalizing m pgtable with
  | nil =>
    cases run
    exact supplied
  | cons c pre ih =>
    rw [pageAllocs, bind_eq_ok] at run
    obtain ⟨⟨m₁, pgtable₁⟩, first, rest⟩ := run
    exact ih (supplied.2 m₁ pgtable₁ first) rest

theorem Supplied.left {w : Nat} {m : Mem} {pgtable : PageTable} {pre post : List PageCall}
    (supplied : Supplied w m pgtable (pre ++ post)) : Supplied w m pgtable pre := by
  induction pre generalizing m pgtable with
  | nil => trivial
  | cons c pre ih => exact ⟨supplied.1, fun m' pgtable' run => ih (supplied.2 m' pgtable' run)⟩

/-- **Page-table refinement.** From `paging_init` on a pool below `2 ^ 36`, for any calls of
`page_alloc` the free list can serve, the calls return, the walk of the resulting tables is the
map in which the first call for a page decides, and no call changes how another page translates. -/
theorem page_alloc_refines_first_writer {shiftBits : Nat} (wide : 36 ≤ shiftBits)
    {pagesRg pfdbRg : MemMapRegion} (regions : PoolRegions (2 ^ 36) pagesRg pfdbRg) (m : Mem)
    (calls : List PageCall) (valid : ∀ c ∈ calls, c.Valid) :
    ∃ m₀ pgtable₀, pagingInit m pagesRg pfdbRg = .ok (m₀, pgtable₀) ∧
      (Supplied shiftBits m₀ pgtable₀ calls →
        (∃ m' pgtable', pageAllocs shiftBits m₀ pgtable₀ calls = .ok (m', pgtable') ∧
          ∀ v, walk m' pgtable'.physRoot v = firstWriter calls v) ∧
        ∀ pre c post, calls = pre ++ c :: post → ∃ m₁ pgtable₁ m₂ pgtable₂,
          pageAllocs shiftBits m₀ pgtable₀ pre = .ok (m₁, pgtable₁) ∧
          pageAlloc shiftBits m₁ pgtable₁ c.vAddr c.pDestAddr c.flags = .ok (m₂, pgtable₂) ∧
          ∀ v, ¬ samePage c.vAddr v →
            walk m₂ pgtable₂.physRoot v = walk m₁ pgtable₁.physRoot v) := by
  obtain ⟨m₀, pgtable₀, r, n, init, physRoot, virtRoot, -, -, T, empty, -⟩ :=
    regions.pagingInit (by decide) m
  let P := regions.pool (by decide)
  have reached : P.Reached shiftBits r := .of_le (regions.fits wide) r
  have start : Refines P m₀ pgtable₀ r [] := .init T physRoot virtRoot empty
  refine ⟨m₀, pgtable₀, init, fun supplied => ⟨?_, ?_⟩⟩
  · obtain ⟨m', pgtable', run, refines⟩ := start.run reached valid supplied
    exact ⟨m', pgtable', run, refines.walk_eq valid⟩
  · rintro pre c post rfl
    have validPre : ∀ d ∈ pre, d.Valid := fun d mem => valid d (by simp [mem])
    have validHere : ∀ d ∈ pre ++ [c], d.Valid := fun d mem => valid d (by
      rcases List.mem_append.mp mem with mem | mem
      · simp [mem]
      · simp [List.mem_singleton.mp mem])
    obtain ⟨m₁, pgtable₁, run₁, before⟩ := start.run reached validPre supplied.left
    obtain ⟨m₂, pgtable₂, run₂, after⟩ := before.step validPre (validHere c (by simp)) reached
      (supplied.of_append run₁).1
    refine ⟨m₁, pgtable₁, m₂, pgtable₂, run₁, run₂, fun v other => ?_⟩
    rw [after.walk_eq validHere, before.walk_eq validPre, List.nil_append, firstWriter, firstWriter,
      List.find?_append]
    simp [other]

/-- Four frames and their nodes. -/
def fourFrames : MemMapRegion := ⟨0x10000, 0x4000, e820MemTypeUsable⟩

@[inherit_doc fourFrames]
def fourNodes : MemMapRegion := ⟨0x20000, 64, e820MemTypeUsable⟩

theorem fourFrames_regions : PoolRegions (2 ^ 36) fourFrames fourNodes :=
  ⟨by decide, by decide, by decide, by decide, by decide, by decide⟩

/-- A new table in the four frames. -/
def fourFramesInit : Mem × PageTable :=
  (pagingInit ⟨fun _ => 0⟩ fourFrames fourNodes).getD (⟨fun _ => 0⟩, ⟨0, 0, ⟨0, 0⟩⟩)

theorem fourFrames_init :
    pagingInit ⟨fun _ => 0⟩ fourFrames fourNodes = .ok (fourFramesInit.1, fourFramesInit.2) :=
  Outcome.eq_ok_of_isOk (⟨fun _ => 0⟩, ⟨0, 0, ⟨0, 0⟩⟩) (by decide +kernel)

theorem page_alloc_refines_first_writer_one_page :
    ∃ m' pgtable', pageAllocs 36 fourFramesInit.1 fourFramesInit.2 [⟨0x40000000, 0x99000, 3⟩] =
        .ok (m', pgtable') ∧
      walk m' pgtable'.physRoot 0x40000123 = some (0x99000, 3) ∧
      walk m' pgtable'.physRoot 0x40001000 = none := by
  obtain ⟨m₀, pgtable₀, init, run⟩ := page_alloc_refines_first_writer (Nat.le_refl 36)
    fourFrames_regions ⟨fun _ => 0⟩ [⟨0x40000000, 0x99000, 3⟩] (by
      intro c mem
      rw [List.mem_singleton.mp mem]
      exact ⟨by decide, by decide, by decide⟩)
  obtain ⟨rfl, rfl⟩ : fourFramesInit.1 = m₀ ∧ fourFramesInit.2 = pgtable₀ :=
    Prod.mk.inj (Except.ok.inj (fourFrames_init.symm.trans init))
  have supply : HasFree fourFramesInit.1 fourFramesInit.2.pfdb
      (missingTables fourFramesInit.1 fourFramesInit.2 0x40000000) := by
    refine ⟨[0xffff800000020020, 0xffff800000020010, 0xffff800000020000],
      ⟨by decide +kernel, by decide, by decide +kernel, by decide, by decide +kernel, by decide,
        show nextNode fourFramesInit.1 0xffff800000020000 = 0 by decide +kernel⟩, by decide +kernel⟩
  obtain ⟨⟨m', pgtable', ran, translates⟩, -⟩ := run ⟨supply, fun _ _ _ => trivial⟩
  exact ⟨m', pgtable', ran, (translates _).trans (by decide), (translates _).trans (by decide)⟩

end AlmeidaOS.Kernel
